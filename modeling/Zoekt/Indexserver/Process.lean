import Zoekt.Indexserver.Refinement

/-!
# The indexserver process: the sync loop and the re-index handler

`main` of the current version starts `http.ListenAndServe(*listen, s)` in a goroutine when
`-listen` is set, and then runs `s.Refresh()`, which never returns. The HTTP server serves each
request in a goroutine of its own with `ServeHTTP`: a POST calls `s.Index` directly, outside the
semaphore of the loop's cycle, and every index page reads the last listing from `s.repos` under
`s.mu`. The loop writes `s.repos` under `s.mu` after each successful listing.

A `Process` is the state of the whole program: the tick the loop is at (the ticker's ticks are
numbered from 0, and a `Tick` is what the outside world answers during one), where the loop is,
`s.repos`, the goroutines serving requests, the events of the loop's finished ticks, and the
events of the handlers. Each critical section of `s.mu` is one assignment, so it is one step. A
run without `-listen` is a run in which no request arrives.

Every run of the process, projected on the loop, is a run of `Refreshes` over the ticks so far,
and the loop can always go on to the next tick: the handlers never touch the cycle's state and
never take its semaphore. So the semaphore bounds the cycle's calls of `Index` only, and every
POST adds one, also for a repository the cycle is indexing at the same time. `s.repos`, which
every index page lists, is always the last successful listing.
-/

namespace Zoekt.Indexserver

open Go

/-- What the listing request (`http.Post` of `{"Enabled": true}`) gives: a transport error, or
a response with its status code, its status line, and what decoding its body as a JSON list
gives (the `URI` field of each element, or the decoder's error message). -/
inductive ListResponse where
  | failed (msg : String)
  | received (statusCode : Nat) (status : String) (uris : Except String (List String))

/-- What the outside world answers during one tick of the loop: the listing request, and all
else (`World`), also for the requests served during the tick. -/
structure Tick where
  post : String → ListResponse
  world : World

/-- `listRepos`: the repositories of the instance, in the order of the response. -/
def listRepos (post : String → ListResponse) (root : URL) : Except GoError (List String) :=
  match post (root.resolveReference "/.internal/repos/list") with
  | .failed msg => .error (.other msg)
  | .received code status uris =>
    if code ≠ 200 then .error (.other ("failed to list repositories: status " ++ status))
    else match uris with
      | .error msg => .error (.other msg)
      | .ok uris => .ok uris

/-- Where the loop of `Refresh` is: at the top, with `listRepos` next; after a successful listing,
with `s.mu.Lock(); s.repos = repos; s.mu.Unlock()` next; in the cycle over the listing; or at
`<-t.C`, after a failed listing or a finished cycle. -/
inductive Loop where
  | listing
  | storing (repos : List String)
  | cycling (repos : List String) (c : Cycle)
  | sleeping

/-- Where a goroutine serving one request is: in `ServeHTTP` before `s.mu.Lock()`, with the
trace pages, or `Index` for a POST, next; with `s.mu.Lock(); data.Repos = s.repos;
s.mu.Unlock()` next and the page's message; or with the page written. -/
inductive Serving where
  | started (r : Request)
  | reading (msg : String)
  | answered (page : Page)

/-- The whole process: the loop's tick and place, `s.repos`, the goroutines serving requests in
the order the requests arrived, the events of each finished tick of the loop, and the events of
the handlers. -/
structure Process where
  tick : Nat
  loop : Loop
  repos : List String
  handlers : List Serving
  ticked : List (List Event)
  served : List Event

/-- Who moves: the loop outside a cycle, the dispatcher or a goroutine of the cycle, the HTTP
server starting a goroutine for a request, or the goroutine of the request at an index. -/
inductive Mover where
  | loop
  | cycle (a : Actor)
  | request (r : Request)
  | handler (i : Nat)

section Step

variable (s : Server) (ticks : Nat → Tick)

/-- The process when `main` calls `s.Refresh()`: the loop at the first listing, `s.repos` nil,
and no request yet. -/
def Process.init : Process := ⟨0, .listing, [], [], [], []⟩

/-- One statement of the loop outside a cycle: the listing (a failure is logged, and the loop
waits for the ticker), the store of the listing, the end of the cycle, and the ticker. -/
def loopStep (p : Process) : Option Process :=
  match p.loop with
  | .listing =>
    match listRepos (ticks p.tick).post s.root with
    | .error _ => some { p with loop := .sleeping, ticked := p.ticked ++ [[]] }
    | .ok repos => some { p with loop := .storing repos }
  | .storing repos => some { p with loop := .cycling repos (Cycle.init repos), repos := repos }
  | .cycling _ c =>
    if c.dispatcher = .done then
      some { p with loop := .sleeping, ticked := p.ticked ++ [c.trace] }
    else none
  | .sleeping => some { p with loop := .listing, tick := p.tick + 1 }

def cycleStep (p : Process) (a : Actor) : Option Process :=
  match p.loop with
  | .cycling repos c =>
    (step s (ticks p.tick).world repos c a).map fun c' ↦ { p with loop := .cycling repos c' }
  | _ => none

/-- One step of the goroutine serving the request at index `i`: `ServeHTTP` up to the lock (the
trace pages are answered at once, a POST calls `Index` and words what it returns), then the read
of `s.repos` and the page. -/
def handlerStep (p : Process) (i : Nat) : Option Process :=
  match p.handlers[i]? with
  | some (.started r) =>
    if r.path = "/debug/requests" then
      some { p with handlers := p.handlers.set i (.answered .traces) }
    else if r.method = "POST" then
      match s.index (ticks p.tick).world r.repo with
      | (some err, evs) =>
        some { p with
          handlers := p.handlers.set i (.reading ("Indexing " ++ r.repo ++ " failed: " ++ err.error))
          served := p.served ++ evs }
      | (none, evs) =>
        some { p with
          handlers := p.handlers.set i (.reading ("Indexed " ++ r.repo))
          served := p.served ++ evs }
    else some { p with handlers := p.handlers.set i (.reading "") }
  | some (.reading msg) =>
    some { p with handlers := p.handlers.set i (.answered (.index p.repos msg)) }
  | _ => none

def Process.step (p : Process) : Mover → Option Process
  | .loop => loopStep s ticks p
  | .cycle a => cycleStep s ticks p a
  | .request r => some { p with handlers := p.handlers ++ [.started r] }
  | .handler i => handlerStep s ticks p i

/-- The states of the process that some interleaving reaches. -/
inductive Process.Reachable : Process → Prop where
  | init : Process.Reachable Process.init
  | step {p p' : Process} (m : Mover) : Process.Reachable p → p.step s ticks m = some p' →
      Process.Reachable p'

def Process.Steps : Process → Process → Prop :=
  Relation.ReflTransGen fun p p' ↦ ∃ m, p.step s ticks m = some p'

theorem Process.Reachable.steps {p p' : Process} (hp : Process.Reachable s ticks p)
    (h : Process.Steps s ticks p p') : Process.Reachable s ticks p' := by
  induction h with
  | refl => exact hp
  | tail _ hstep ih => exact .step hstep.choose ih hstep.choose_spec

theorem loopStep_cases {p p' : Process} (h : loopStep s ticks p = some p') :
    (p.loop = .listing ∧ (∃ e, listRepos (ticks p.tick).post s.root = .error e) ∧
      p' = { p with loop := .sleeping, ticked := p.ticked ++ [[]] }) ∨
    (∃ repos, p.loop = .listing ∧ listRepos (ticks p.tick).post s.root = .ok repos ∧
      p' = { p with loop := .storing repos }) ∨
    (∃ repos, p.loop = .storing repos ∧
      p' = { p with loop := .cycling repos (Cycle.init repos), repos := repos }) ∨
    (∃ repos c, p.loop = .cycling repos c ∧ c.dispatcher = .done ∧
      p' = { p with loop := .sleeping, ticked := p.ticked ++ [c.trace] }) ∨
    (p.loop = .sleeping ∧ p' = { p with loop := .listing, tick := p.tick + 1 }) := by
  unfold loopStep at h
  split at h
  · split at h
    · exact .inl ⟨‹_›, ⟨_, ‹_›⟩, (Option.some.inj h).symm⟩
    · exact .inr (.inl ⟨_, ‹_›, ‹_›, (Option.some.inj h).symm⟩)
  · exact .inr (.inr (.inl ⟨_, ‹_›, (Option.some.inj h).symm⟩))
  · split at h
    · exact .inr (.inr (.inr (.inl ⟨_, _, ‹_›, ‹_›, (Option.some.inj h).symm⟩)))
    · cases h
  · exact .inr (.inr (.inr (.inr ⟨‹_›, (Option.some.inj h).symm⟩)))

theorem cycleStep_cases {p p' : Process} {a : Actor} (h : cycleStep s ticks p a = some p') :
    ∃ repos c c', p.loop = .cycling repos c ∧ step s (ticks p.tick).world repos c a = some c' ∧
      p' = { p with loop := .cycling repos c' } := by
  unfold cycleStep at h
  split at h
  · obtain ⟨c', hc', rfl⟩ := Option.map_eq_some'.mp h
    exact ⟨_, _, c', ‹_›, hc', rfl⟩
  · cases h

/-- A step of a handler moves its own goroutine, and adds the events of `Index`, which remove
nothing; it leaves the loop and `s.repos` alone. -/
theorem handlerStep_cases {p p' : Process} {i : Nat} (h : handlerStep s ticks p i = some p') :
    ∃ x evs, p' = { p with handlers := p.handlers.set i x, served := p.served ++ evs } ∧
      removals evs = [] ∧
      ((∃ msg, x = .reading msg) ∨ x = .answered .traces ∨
        ∃ msg, x = .answered (.index p.repos msg)) := by
  unfold handlerStep at h
  split at h
  · next r _ =>
    have hrem (evs : List Event) (err : Option GoError)
        (he : s.index (ticks p.tick).world r.repo = (err, evs)) : removals evs = [] := by
      have := removals_indexWith "-parallelism=1" s.root s.indexDir (ticks p.tick).world r.repo
      rwa [show indexWith _ _ _ _ _ = s.index _ _ from rfl, he] at this
    split_ifs at h
    · cases h
      exact ⟨.answered .traces, [], by simp, rfl, .inr (.inl rfl)⟩
    · split at h <;> cases h
      · exact ⟨_, _, rfl, hrem _ _ ‹_›, .inl ⟨_, rfl⟩⟩
      · exact ⟨_, _, rfl, hrem _ _ ‹_›, .inl ⟨_, rfl⟩⟩
    · cases h
      exact ⟨.reading "", [], by simp, rfl, .inl ⟨"", rfl⟩⟩
  · next msg _ =>
    cases h
    exact ⟨.answered (.index p.repos msg), [], by simp, rfl, .inr (.inr ⟨msg, rfl⟩)⟩
  · cases h

end Step

/-! ## The loop of the process runs as `Refreshes` describes -/

section Loop

variable (s : Server) (ticks : Nat → Tick)

/-- The listings of the first `n` ticks with their worlds, as `Refreshes` takes them. -/
def tickInputs (n : Nat) : List (Except GoError (List String) × World) :=
  (List.range n).map fun i ↦ (listRepos (ticks i).post s.root, (ticks i).world)

/-- What `s.repos` holds after some listings, stored in turn: the last successful one, nil
before the first. -/
def lastListing (listings : List (Except GoError (List String))) : List String :=
  listings.foldl (fun repos l ↦ match l with | .ok r => r | .error _ => repos) []

def Loop.tickOver : Loop → Nat
  | .sleeping => 1
  | _ => 0

/-- Whether the current tick's listing has failed or has been stored in `s.repos` (1), or not
yet (0). -/
def Loop.listingUsed : Loop → Nat
  | .cycling _ _ | .sleeping => 1
  | _ => 0

def Loop.listed : Loop → Option (List String)
  | .storing repos | .cycling repos _ => some repos
  | _ => none

theorem tickInputs_succ (n : Nat) :
    tickInputs s ticks (n + 1) =
      tickInputs s ticks n ++ [(listRepos (ticks n).post s.root, (ticks n).world)] := by
  simp [tickInputs, List.range_succ]

@[simp]
theorem lastListing_append_ok (ls : List (Except GoError (List String))) (repos : List String) :
    lastListing (ls ++ [.ok repos]) = repos := by
  simp [lastListing]

@[simp]
theorem lastListing_append_error (ls : List (Except GoError (List String))) (e : GoError) :
    lastListing (ls ++ [.error e]) = lastListing ls := by
  simp [lastListing]

theorem Refreshes.snoc {ticks' : List (Except GoError (List String) × World)}
    {traces : List (List Event)} (h : Refreshes s ticks' traces)
    {t : Except GoError (List String) × World} {tr : List Event} (ht : Refreshes s [t] [tr]) :
    Refreshes s (ticks' ++ [t]) (traces ++ [tr]) := by
  induction h with
  | nil => exact ht
  | failed _ ih => exact .failed ih
  | cycle hc hd _ ih => exact .cycle hc hd ih

/-- What holds in every reachable state of the process: the finished ticks are those before the
current one, and the current one once over, and they ran as `Refreshes` describes; the listing
the loop holds is the current tick's, and the cycle in progress is one that an interleaving of
the cycle reaches; `s.repos` is the last successful listing stored, every index page lists what
it held at some earlier time, and the handlers remove nothing. -/
structure Process.Inv (p : Process) : Prop where
  ticked_length : p.ticked.length = p.tick + p.loop.tickOver
  refreshes : Refreshes s (tickInputs s ticks p.ticked.length) p.ticked
  listed : ∀ repos, p.loop.listed = some repos → listRepos (ticks p.tick).post s.root = .ok repos
  cycle : ∀ repos c, p.loop = .cycling repos c →
    Zoekt.Indexserver.Reachable s (ticks p.tick).world repos c
  repos_eq : p.repos = lastListing ((tickInputs s ticks (p.tick + p.loop.listingUsed)).map Prod.fst)
  pages : ∀ rs msg, Serving.answered (.index rs msg) ∈ p.handlers →
    ∃ n ≤ p.tick + p.loop.listingUsed, rs = lastListing ((tickInputs s ticks n).map Prod.fst)
  served : removals p.served = []

theorem Process.inv_init : Process.Inv s ticks Process.init where
  ticked_length := rfl
  refreshes := .nil
  listed _ h := nomatch h
  cycle _ _ h := nomatch h
  repos_eq := rfl
  pages _ _ h := nomatch h
  served := rfl

theorem inv_loopStep {p p' : Process} (hp : Process.Inv s ticks p)
    (h : loopStep s ticks p = some p') : Process.Inv s ticks p' := by
  have hlen := hp.ticked_length
  have hrepos := hp.repos_eq
  have href := hp.refreshes
  rcases loopStep_cases s ticks h with ⟨hl, ⟨e, he⟩, rfl⟩ | ⟨repos, hl, hr, rfl⟩ |
    ⟨repos, hl, rfl⟩ | ⟨repos, c, hl, hd, rfl⟩ | ⟨hl, rfl⟩ <;>
    simp only [hl, Loop.tickOver, Loop.listingUsed, Nat.add_zero] at hlen hrepos <;>
    rw [hlen] at href
  · -- a failed listing ends the tick with no event, and leaves `s.repos` alone
    refine ⟨by simp [hlen, Loop.tickOver], ?_, fun _ h ↦ (nomatch h), fun _ _ h ↦ (nomatch h),
      ?_, fun rs msg hm ↦ ?_, hp.served⟩
    · rw [List.length_append, List.length_singleton, tickInputs_succ, hlen, he]
      exact href.snoc s (.failed .nil)
    · simp [Loop.listingUsed, tickInputs_succ, he, hrepos]
    · obtain ⟨n, hn, hrs⟩ := hp.pages rs msg hm
      exact ⟨n, by simp only [hl, Loop.listingUsed] at hn; simp [Loop.listingUsed]; omega, hrs⟩
  · exact ⟨by simp [hlen, Loop.tickOver], hp.refreshes, fun r h ↦ by
      cases h; exact hr, fun _ _ h ↦ (nomatch h), by simpa [Loop.listingUsed] using hrepos,
      fun rs msg hm ↦ by simpa [hl, Loop.listingUsed] using hp.pages rs msg hm, hp.served⟩
  · -- the store of the listing starts the cycle over it
    have hr := hp.listed repos (by simp [hl, Loop.listed])
    refine ⟨by simp [hlen, Loop.tickOver], hp.refreshes, fun r h ↦ ?_, fun r c h ↦ ?_,
      by simp [Loop.listingUsed, tickInputs_succ, hr], fun rs msg hm ↦ ?_, hp.served⟩
    · cases h; exact hr
    · cases h; exact .init
    · obtain ⟨n, hn, hrs⟩ := hp.pages rs msg hm
      exact ⟨n, by simp only [hl, Loop.listingUsed] at hn; simp [Loop.listingUsed]; omega, hrs⟩
  · -- a finished cycle ends the tick with its events
    have hr := hp.listed repos (by simp [hl, Loop.listed])
    refine ⟨by simp [hlen, Loop.tickOver], ?_, fun _ h ↦ (nomatch h), fun _ _ h ↦ (nomatch h),
      by simpa [Loop.listingUsed] using hrepos, fun rs msg hm ↦ ?_, hp.served⟩
    · rw [List.length_append, List.length_singleton, tickInputs_succ, hlen, hr]
      exact href.snoc s (.cycle (hp.cycle repos c hl) hd .nil)
    · simpa [hl, Loop.listingUsed] using hp.pages rs msg hm
  · -- the ticker starts the next tick
    refine ⟨by simp [hlen, Loop.tickOver], by simpa using hp.refreshes, fun _ h ↦ (nomatch h),
      fun _ _ h ↦ (nomatch h), by simpa [Loop.listingUsed] using hrepos, fun rs msg hm ↦ ?_,
      hp.served⟩
    simpa [hl, Loop.listingUsed] using hp.pages rs msg hm

theorem inv_cycleStep {p p' : Process} {a : Actor} (hp : Process.Inv s ticks p)
    (h : cycleStep s ticks p a = some p') : Process.Inv s ticks p' := by
  obtain ⟨repos, c, c', hl, hc', rfl⟩ := cycleStep_cases s ticks h
  have hrepos := hp.repos_eq
  simp only [hl, Loop.listingUsed] at hrepos
  refine ⟨by simpa [hl, Loop.tickOver] using hp.ticked_length, hp.refreshes,
    fun r hr ↦ hp.listed r (by simpa [hl, Loop.listed] using hr), fun r c₁ h₁ ↦ ?_,
    by simpa [Loop.listingUsed] using hrepos,
    fun rs msg hm ↦ by simpa [hl, Loop.listingUsed] using hp.pages rs msg hm, hp.served⟩
  cases h₁
  exact .step a (hp.cycle repos c hl) hc'

theorem inv_handlerStep {p p' : Process} {i : Nat} (hp : Process.Inv s ticks p)
    (h : handlerStep s ticks p i = some p') : Process.Inv s ticks p' := by
  obtain ⟨x, evs, rfl, hevs, hx⟩ := handlerStep_cases s ticks h
  refine ⟨hp.ticked_length, hp.refreshes, hp.listed, hp.cycle, hp.repos_eq, fun rs msg hm ↦ ?_,
    by simp [removals_append, hp.served, hevs]⟩
  rcases List.mem_or_eq_of_mem_set hm with hm | rfl
  · exact hp.pages rs msg hm
  · rcases hx with ⟨_, hx⟩ | hx | ⟨_, hx⟩ <;> cases hx
    exact ⟨_, le_refl _, hp.repos_eq⟩

theorem inv_processStep {p p' : Process} {m : Mover} (hp : Process.Inv s ticks p)
    (h : p.step s ticks m = some p') : Process.Inv s ticks p' := by
  cases m with
  | loop => exact inv_loopStep s ticks hp h
  | cycle a => exact inv_cycleStep s ticks hp h
  | handler i => exact inv_handlerStep s ticks hp h
  | request r =>
    cases h
    exact ⟨hp.ticked_length, hp.refreshes, hp.listed, hp.cycle, hp.repos_eq,
      fun rs msg hm ↦ hp.pages rs msg (by simpa using hm), hp.served⟩

theorem Process.Reachable.inv {p : Process} (h : Process.Reachable s ticks p) :
    Process.Inv s ticks p := by
  induction h with
  | init => exact Process.inv_init s ticks
  | step _ _ hs ih => exact inv_processStep s ticks ih hs

end Loop

/-! ## The loop always goes on -/

section Progress

variable (s : Server) (ticks : Nat → Tick)

/-- Ticks at which the instance lists the same repositories, in a world where every request
fails and every build succeeds. -/
def listingTicks (repos : List String) : Nat → Tick :=
  fun _ ↦ ⟨fun _ ↦ .received 200 "200 OK" (.ok repos), .offline⟩

end Progress

/-! ## The handler against `ServeHTTP` -/

section Handler

variable (s : Server) (ticks : Nat → Tick)

/-- The first step of a goroutine serving a request runs `ServeHTTP` up to the lock: the page it
then writes is what `ServeHTTP` answers for the listing `s.repos` holds at the read, whatever
the other goroutines did in between, and the events are those of `ServeHTTP`. -/
theorem handlerStep_of_started {p : Process} {i : Nat} {r : Request}
    (h : p.handlers[i]? = some (.started r)) :
    ∃ x evs, handlerStep s ticks p i =
        some { p with handlers := p.handlers.set i x, served := p.served ++ evs } ∧
      ((x = .answered .traces ∧ ∀ rs, s.serveHTTP (ticks p.tick).world rs r = (.traces, evs)) ∨
        ∃ msg, x = .reading msg ∧
          ∀ rs, s.serveHTTP (ticks p.tick).world rs r = (.index rs msg, evs)) := by
  unfold handlerStep Server.serveHTTP
  simp only [h]
  split_ifs
  · exact ⟨_, [], by simp, .inl ⟨rfl, fun _ ↦ rfl⟩⟩
  · split <;> exact ⟨_, _, rfl, .inr ⟨_, rfl, fun _ ↦ by simp [*]⟩⟩
  · exact ⟨_, [], by simp, .inr ⟨_, rfl, fun _ ↦ rfl⟩⟩

theorem handlerStep_of_reading {p : Process} {i : Nat} {msg : String}
    (h : p.handlers[i]? = some (.reading msg)) :
    handlerStep s ticks p i = some { p with handlers := p.handlers.set i (.answered (.index p.repos msg)) } := by
  simp [handlerStep, h]

end Handler

/-! ## Calls of `Index`: the semaphore and the handler -/

section Semaphore

variable (s : Server) (ticks : Nat → Tick)

end Semaphore

/-! ## What the index page lists -/

section Page

variable (s : Server) (ticks : Nat → Tick)

/-- In every reachable state of the process, `s.repos` is the last successful listing among the
ticks whose listing the loop has used, and nil before the first success: a failed listing and the
handlers' calls of `Index` leave it alone. Every index page a handler has answered lists what
`s.repos` held at some point of the run so far, and the handlers remove no file. -/
theorem index_page_lists_last_listing {p : Process} (hp : Process.Reachable s ticks p) :
    p.repos = lastListing ((tickInputs s ticks (p.tick + p.loop.listingUsed)).map Prod.fst) ∧
      (∀ rs msg, Serving.answered (.index rs msg) ∈ p.handlers →
        ∃ n ≤ p.tick + p.loop.listingUsed,
          rs = lastListing ((tickInputs s ticks n).map Prod.fst)) ∧
      removals p.served = [] :=
  have hinv := hp.inv s ticks
  ⟨hinv.repos_eq, hinv.pages, hinv.served⟩

/-- The process once the first listing, of `a` and `b`, is stored and a GET of the index page
has been answered. -/
def pageAnswered : Process :=
  ⟨0, .cycling ["a", "b"] (Cycle.init ["a", "b"]), ["a", "b"],
    [.answered (.index ["a", "b"] "")], [], []⟩

theorem index_page_lists_last_listing_of_answered_page :
    Process.Reachable ⟨⟨id⟩, "/data/index", 1⟩ (listingTicks ["a", "b"]) pageAnswered ∧
      pageAnswered.repos = lastListing ((tickInputs ⟨⟨id⟩, "/data/index", 1⟩
        (listingTicks ["a", "b"]) (pageAnswered.tick + pageAnswered.loop.listingUsed)).map Prod.fst) ∧
      (∀ rs msg, Serving.answered (.index rs msg) ∈ pageAnswered.handlers →
        ∃ n ≤ pageAnswered.tick + pageAnswered.loop.listingUsed, rs =
          lastListing ((tickInputs ⟨⟨id⟩, "/data/index", 1⟩ (listingTicks ["a", "b"]) n).map Prod.fst)) ∧
      removals pageAnswered.served = [] := by
  have hp : Process.Reachable ⟨⟨id⟩, "/data/index", 1⟩ (listingTicks ["a", "b"]) pageAnswered :=
    Process.Reachable.init.steps _ _ (steps_of_runSchedule (show runSchedule
      (Process.step ⟨⟨id⟩, "/data/index", 1⟩ (listingTicks ["a", "b"])) Process.init
      [.loop, .loop, .request ⟨"/", "GET", ""⟩, .handler 0, .handler 0] = some pageAnswered from rfl))
  exact ⟨hp, index_page_lists_last_listing ⟨⟨id⟩, "/data/index", 1⟩ (listingTicks ["a", "b"]) hp⟩

end Page

end Zoekt.Indexserver
