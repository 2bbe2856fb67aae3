import Mathlib.Logic.Relation
import Zoekt.Indexserver.Basic

/-!
# The concurrent cycle of `Server.Refresh`

After a successful listing, the current `Refresh` starts one goroutine per repository. A
buffered channel `sem` of capacity `CPUCount` bounds them: the dispatching loop sends into it
before it starts a goroutine, and the goroutine receives from it in its deferred function,
after `Index` has returned and before `wg.Done()`. `wg.Wait()` joins them, and only then are
stale shards swept.

A `Cycle` is the state of one cycle: where the dispatcher is, where each started goroutine is,
the items in the channel, the WaitGroup counter, and the events so far. `step` moves the
dispatcher or one goroutine by one statement; `Reachable` holds of the states some
interleaving reaches. `Index` is one step, since its only effect is one builder run.

The invariant `Inv` counts the channel's items as the slots held by started goroutines (and by
the dispatcher between its send and its `go`), and the WaitGroup counter as the goroutines not
yet done. It gives the bound on the builds in flight, that a blocked send means every slot is
held by a goroutine that can still release it, that the sweep starts after every goroutine has
returned, and that the cycle always ends, with the events of the serial loop in some order.
-/

namespace Zoekt.Indexserver

open Go

/-- Where a goroutine started by `Refresh` is: in `s.Index(name)`; past it, with the deferred
`<-sem` next; past that, with the deferred `wg.Done()` next; or returned. -/
inductive Phase where
  | indexing
  | releasing
  | finishing
  | exited
  deriving DecidableEq, Repr

/-- A started goroutine: the repository it indexes, and where it is. -/
structure Worker where
  name : String
  phase : Phase
  deriving DecidableEq

/-- Where the dispatching loop of `Refresh` is in a cycle: at the top of
`for _, name := range repos` with `names` still to start; past `sem <- 1` for `name`, with
`wg.Add(1)` next; with `go func(name) { ... }(name)` next; at `wg.Wait()`; past it, with the
sweep next; or at the end of the cycle. -/
inductive Dispatcher where
  | ranging (names : List String)
  | adding (name : String) (names : List String)
  | spawning (name : String) (names : List String)
  | waiting
  | sweeping
  | done
  deriving DecidableEq

/-- One cycle: the dispatcher, the started goroutines in the order they were started, the items
in `sem`, the WaitGroup counter, and the events so far. -/
structure Cycle where
  dispatcher : Dispatcher
  workers : List Worker
  sem : Nat
  wg : Nat
  trace : List Event

/-- Who moves: the dispatcher, or the goroutine at an index of `workers`. -/
inductive Actor where
  | dispatcher
  | worker (i : Nat)

section Step

variable (s : Server) (w : World) (repos : List String)

def Cycle.init : Cycle := ⟨.ranging repos, [], 0, 0, []⟩

/-- One statement of the dispatcher. A send blocks on a full channel, and `wg.Wait()` blocks
while the counter is positive. -/
def dispatchStep (c : Cycle) : Option Cycle :=
  match c.dispatcher with
  | .ranging [] => some { c with dispatcher := .waiting }
  | .ranging (n :: ns) =>
    if c.sem < s.cpuCount then some { c with dispatcher := .adding n ns, sem := c.sem + 1 }
    else none
  | .adding n ns => some { c with dispatcher := .spawning n ns, wg := c.wg + 1 }
  | .spawning n ns =>
    some { c with dispatcher := .ranging ns, workers := c.workers ++ [⟨n, .indexing⟩] }
  | .waiting => if c.wg = 0 then some { c with dispatcher := .sweeping } else none
  | .sweeping => some { c with dispatcher := .done, trace := c.trace ++ sweep w s.indexDir repos }
  | .done => none

/-- One statement of the goroutine at index `i`: `Index` with its builder run, the deferred
receive, which blocks on an empty channel, and `wg.Done()`. -/
def workerStep (c : Cycle) (i : Nat) : Option Cycle :=
  match c.workers[i]? with
  | none => none
  | some wk =>
    match wk.phase with
    | .indexing =>
      some { c with
        workers := c.workers.set i ⟨wk.name, .releasing⟩
        trace := c.trace ++ (s.index w wk.name).2 }
    | .releasing =>
      if 0 < c.sem then
        some { c with workers := c.workers.set i ⟨wk.name, .finishing⟩, sem := c.sem - 1 }
      else none
    | .finishing => some { c with workers := c.workers.set i ⟨wk.name, .exited⟩, wg := c.wg - 1 }
    | .exited => none

def step (c : Cycle) : Actor → Option Cycle
  | .dispatcher => dispatchStep s w repos c
  | .worker i => workerStep s w c i

/-- The states of the cycle that some interleaving reaches. -/
inductive Reachable : Cycle → Prop where
  | init : Reachable (Cycle.init repos)
  | step {c c' : Cycle} (a : Actor) : Reachable c → step s w repos c a = some c' → Reachable c'

theorem dispatchStep_cases {c c' : Cycle} (h : dispatchStep s w repos c = some c') :
    (c.dispatcher = .ranging [] ∧ c' = { c with dispatcher := .waiting }) ∨
    (∃ n ns, c.dispatcher = .ranging (n :: ns) ∧ c.sem < s.cpuCount ∧
      c' = { c with dispatcher := .adding n ns, sem := c.sem + 1 }) ∨
    (∃ n ns, c.dispatcher = .adding n ns ∧
      c' = { c with dispatcher := .spawning n ns, wg := c.wg + 1 }) ∨
    (∃ n ns, c.dispatcher = .spawning n ns ∧
      c' = { c with dispatcher := .ranging ns, workers := c.workers ++ [⟨n, .indexing⟩] }) ∨
    (c.dispatcher = .waiting ∧ c.wg = 0 ∧ c' = { c with dispatcher := .sweeping }) ∨
    (c.dispatcher = .sweeping ∧
      c' = { c with dispatcher := .done, trace := c.trace ++ sweep w s.indexDir repos }) := by
  unfold dispatchStep at h
  split at h
  · exact .inl ⟨‹_›, (Option.some.inj h).symm⟩
  · split at h
    · exact .inr (.inl ⟨_, _, ‹_›, ‹_›, (Option.some.inj h).symm⟩)
    · cases h
  · exact .inr (.inr (.inl ⟨_, _, ‹_›, (Option.some.inj h).symm⟩))
  · exact .inr (.inr (.inr (.inl ⟨_, _, ‹_›, (Option.some.inj h).symm⟩)))
  · split at h
    · exact .inr (.inr (.inr (.inr (.inl ⟨‹_›, ‹_›, (Option.some.inj h).symm⟩))))
    · cases h
  · exact .inr (.inr (.inr (.inr (.inr ⟨‹_›, (Option.some.inj h).symm⟩))))
  · cases h

theorem exists_split_of_getElem? {ws : List Worker} {i : Nat} {wk : Worker}
    (h : ws[i]? = some wk) : ∃ pre post, ws = pre ++ wk :: post ∧
      ∀ wk', ws.set i wk' = pre ++ wk' :: post := by
  obtain ⟨hi, rfl⟩ := List.getElem?_eq_some_iff.mp h
  have hsplit : ws = ws.take i ++ ws[i] :: ws.drop (i + 1) := by
    rw [← List.drop_eq_getElem_cons hi, List.take_append_drop]
  refine ⟨ws.take i, ws.drop (i + 1), hsplit, fun wk' ↦ ?_⟩
  have hlen : (ws.take i).length = i := List.length_take_of_le (Nat.le_of_lt hi)
  conv_lhs => rw [hsplit]
  rw [List.set_append_right _ _ (by omega), hlen, Nat.sub_self, List.set_cons_zero]

theorem workerStep_cases {c c' : Cycle} {i : Nat} (h : workerStep s w c i = some c') :
    ∃ pre post wk, c.workers = pre ++ wk :: post ∧
      (wk.phase = .indexing ∧
          c' = { c with
            workers := pre ++ ⟨wk.name, .releasing⟩ :: post
            trace := c.trace ++ (s.index w wk.name).2 } ∨
        wk.phase = .releasing ∧ 0 < c.sem ∧
          c' = { c with workers := pre ++ ⟨wk.name, .finishing⟩ :: post, sem := c.sem - 1 } ∨
        wk.phase = .finishing ∧
          c' = { c with workers := pre ++ ⟨wk.name, .exited⟩ :: post, wg := c.wg - 1 }) := by
  unfold workerStep at h
  split at h
  · cases h
  rename_i wk hwk
  obtain ⟨pre, post, hws, hset⟩ := exists_split_of_getElem? hwk
  refine ⟨pre, post, wk, hws, ?_⟩
  split at h
  · cases h
    exact .inl ⟨‹_›, by rw [hset]⟩
  · split at h
    · cases h
      exact .inr (.inl ⟨‹_›, ‹_›, by rw [hset]⟩)
    · cases h
  · cases h
    exact .inr (.inr ⟨‹_›, by rw [hset]⟩)
  · cases h

end Step

/-! ## The accounting invariant -/

/-- Whether a goroutine in this phase holds a slot of `sem`: from the send made for it until
its own receive. -/
def Phase.holdsSlot : Phase → Bool
  | .indexing | .releasing => true
  | .finishing | .exited => false

/-- The slot the dispatcher holds between its send and its `go`. -/
def Dispatcher.heldSlots : Dispatcher → Nat
  | .adding _ _ | .spawning _ _ => 1
  | _ => 0

/-- The `wg.Add(1)` made for a goroutine not started yet. -/
def Dispatcher.pendingAdds : Dispatcher → Nat
  | .spawning _ _ => 1
  | _ => 0

def Dispatcher.unstarted : Dispatcher → List String
  | .ranging ns => ns
  | .adding n ns | .spawning n ns => n :: ns
  | _ => []

def Dispatcher.joined : Dispatcher → Bool
  | .sweeping | .done => true
  | _ => false

def slotHolders (ws : List Worker) : Nat := ws.countP (·.phase.holdsSlot)

def live (ws : List Worker) : Nat := ws.countP (·.phase ≠ .exited)

def inIndex (ws : List Worker) : Nat := ws.countP (·.phase = .indexing)

@[simp] theorem slotHolders_nil : slotHolders [] = 0 := rfl

@[simp] theorem live_nil : live [] = 0 := rfl

@[simp] theorem inIndex_nil : inIndex [] = 0 := rfl

@[simp]
theorem slotHolders_append (ws ws' : List Worker) :
    slotHolders (ws ++ ws') = slotHolders ws + slotHolders ws' := List.countP_append _ _ _

@[simp]
theorem slotHolders_cons (wk : Worker) (ws : List Worker) :
    slotHolders (wk :: ws) = slotHolders ws + if wk.phase.holdsSlot then 1 else 0 :=
  List.countP_cons _ _ _

@[simp]
theorem live_append (ws ws' : List Worker) : live (ws ++ ws') = live ws + live ws' :=
  List.countP_append _ _ _

@[simp]
theorem live_cons (wk : Worker) (ws : List Worker) :
    live (wk :: ws) = live ws + if wk.phase = .exited then 0 else 1 := by
  by_cases h : wk.phase = .exited <;> simp [live, List.countP_cons, h]

@[simp]
theorem inIndex_append (ws ws' : List Worker) : inIndex (ws ++ ws') = inIndex ws + inIndex ws' :=
  List.countP_append _ _ _

@[simp]
theorem inIndex_cons (wk : Worker) (ws : List Worker) :
    inIndex (wk :: ws) = inIndex ws + if wk.phase = .indexing then 1 else 0 := by
  by_cases h : wk.phase = .indexing <;> simp [inIndex, List.countP_cons, h]

section Invariant

variable (s : Server) (w : World) (repos : List String)

/-- The events of the goroutines whose `Index` has returned, in the order they were started. -/
def built (ws : List Worker) : List Event :=
  (ws.filter (·.phase ≠ .indexing)).flatMap fun wk ↦ (s.index w wk.name).2

def swept (d : Dispatcher) : List Event :=
  if d = .done then sweep w s.indexDir repos else []

/-- What holds in every reachable state of a cycle: every item in `sem` is a slot held by a
started goroutine or by the dispatcher; the WaitGroup counts the goroutines not done and an
`Add` not yet followed by `go`; the goroutines are started in the order of the listing; and the
trace is the builds so far, in some order, then the sweep once it has run. -/
structure Inv (c : Cycle) : Prop where
  sem_eq : c.sem = slotHolders c.workers + c.dispatcher.heldSlots
  sem_le : c.sem ≤ s.cpuCount
  wg_eq : c.wg = live c.workers + c.dispatcher.pendingAdds
  joined_wg : c.dispatcher.joined → c.wg = 0
  names : c.workers.map (·.name) ++ c.dispatcher.unstarted = repos
  trace : ∃ t, c.trace = t ++ swept s w repos c.dispatcher ∧ t.Perm (built s w c.workers)

theorem inv_init : Inv s w repos (Cycle.init repos) :=
  ⟨rfl, Nat.zero_le _, rfl, by simp [Cycle.init, Dispatcher.joined], by simp [Cycle.init,
    Dispatcher.unstarted], ⟨[], by simp [Cycle.init, swept, built]⟩⟩

@[simp]
theorem built_nil : built s w [] = [] := rfl

@[simp]
theorem built_append (ws ws' : List Worker) :
    built s w (ws ++ ws') = built s w ws ++ built s w ws' := by
  simp [built]

@[simp]
theorem built_cons (wk : Worker) (ws : List Worker) :
    built s w (wk :: ws) =
      (if wk.phase = .indexing then [] else (s.index w wk.name).2) ++ built s w ws := by
  by_cases h : wk.phase = .indexing <;> simp [built, List.filter_cons, h]

theorem swept_of_not_joined {d : Dispatcher} (h : d.joined = false) : swept s w repos d = [] := by
  cases d <;> simp_all [swept, Dispatcher.joined]

theorem not_joined_of_live {c : Cycle} (hc : Inv s w repos c) {wk : Worker}
    (hwk : wk ∈ c.workers) (hlive : wk.phase ≠ .exited) : c.dispatcher.joined = false := by
  by_contra hj
  have h0 := hc.joined_wg (by simpa using hj)
  have hpos : 0 < live c.workers := List.countP_pos_iff.mpr ⟨wk, hwk, by simpa using hlive⟩
  have := hc.wg_eq
  omega

theorem inv_dispatchStep {c c' : Cycle} (hc : Inv s w repos c)
    (h : dispatchStep s w repos c = some c') : Inv s w repos c' := by
  obtain ⟨hsem, hle, hwg, hjoin, hnames, t, ht, hperm⟩ := hc
  rcases dispatchStep_cases s w repos h with ⟨hd, rfl⟩ | ⟨n, ns, hd, hlt, rfl⟩ |
    ⟨n, ns, hd, rfl⟩ | ⟨n, ns, hd, rfl⟩ | ⟨hd, hwg0, rfl⟩ | ⟨hd, rfl⟩ <;>
    rw [hd] at hsem hwg hnames ht
  · exact ⟨hsem, hle, hwg, nofun, hnames, t, ht, hperm⟩
  · exact ⟨by simp [hsem, Dispatcher.heldSlots], hlt, hwg, nofun, hnames, t, ht, hperm⟩
  · exact ⟨hsem, hle, by simp [hwg, Dispatcher.pendingAdds], nofun, hnames, t, ht, hperm⟩
  · refine ⟨by simp [hsem, Dispatcher.heldSlots, Phase.holdsSlot],
      hle, by simp [hwg, Dispatcher.pendingAdds], nofun, by simpa using hnames, t, ht, ?_⟩
    simpa using hperm
  · exact ⟨hsem, hle, hwg, fun _ ↦ hwg0, hnames, t, by simpa [swept] using ht, hperm⟩
  · have hwg0 := hjoin (by rw [hd]; rfl)
    exact ⟨hsem, hle, hwg, fun _ ↦ hwg0, hnames, t, by simp [ht, swept], hperm⟩

theorem inv_workerStep {c c' : Cycle} {i : Nat} (hc : Inv s w repos c)
    (h : workerStep s w c i = some c') : Inv s w repos c' := by
  obtain ⟨pre, post, wk, hws, hstep⟩ := workerStep_cases s w h
  have hj := not_joined_of_live s w repos hc (by simp [hws] : wk ∈ c.workers)
  obtain ⟨hsem, hle, hwg, hjoin, hnames, t, ht, hperm⟩ := hc
  rw [hws] at hsem hwg hnames hperm
  rcases hstep with ⟨hph, rfl⟩ | ⟨hph, hpos, rfl⟩ | ⟨hph, rfl⟩
  · -- `Index` returns: its builder run joins the trace
    have hswept := swept_of_not_joined s w repos (hj (by simp [hph]))
    refine ⟨by simpa [hph, Phase.holdsSlot] using hsem, hle, by simpa [hph] using hwg, hjoin,
      by simpa using hnames, t ++ (s.index w wk.name).2, by simp [ht, hswept], ?_⟩
    simp only [built_append, built_cons, hph, if_true, List.nil_append] at hperm ⊢
    refine (hperm.append_right _).trans ?_
    simpa using List.perm_append_comm.append_left (built s w pre)
  · -- the deferred receive releases the slot
    refine ⟨?_, (Nat.sub_le _ _).trans hle, by simpa [hph] using hwg, hjoin, by simpa using hnames, t, ht,
      by simpa [hph] using hperm⟩
    simp [hph, Phase.holdsSlot] at hsem ⊢
    omega
  · -- `wg.Done()`
    refine ⟨by simpa [hph, Phase.holdsSlot] using hsem, hle, ?_, fun hd ↦ by simp [hjoin hd],
      by simpa using hnames, t, ht, by simpa [hph] using hperm⟩
    simp [hph] at hwg ⊢
    omega

theorem inv_step {c c' : Cycle} {a : Actor} (hc : Inv s w repos c)
    (h : step s w repos c a = some c') : Inv s w repos c' := by
  cases a with
  | dispatcher => exact inv_dispatchStep s w repos hc h
  | worker i => exact inv_workerStep s w repos hc h

theorem Reachable.inv {c : Cycle} (h : Reachable s w repos c) : Inv s w repos c := by
  induction h with
  | init => exact inv_init s w repos
  | step a _ hs ih => exact inv_step s w repos ih hs

end Invariant

/-! ## Progress -/

section Progress

variable (s : Server) (w : World) (repos : List String)

def Steps : Cycle → Cycle → Prop :=
  Relation.ReflTransGen fun c c' ↦ ∃ a, step s w repos c a = some c'

theorem Reachable.steps {c c' : Cycle} (hc : Reachable s w repos c) (h : Steps s w repos c c') :
    Reachable s w repos c' := by
  induction h with
  | refl => exact hc
  | tail _ hstep ih => exact Reachable.step hstep.choose ih hstep.choose_spec

/-- The state a schedule, the movers in turn, leads to; none when one of them cannot move. -/
def runSchedule {σ α : Type} (next : σ → α → Option σ) (x : σ) : List α → Option σ
  | [] => some x
  | m :: ms => (next x m).bind fun y ↦ runSchedule next y ms

theorem steps_of_runSchedule {σ α : Type} {next : σ → α → Option σ} {x y : σ} {ms : List α}
    (h : runSchedule next x ms = some y) :
    Relation.ReflTransGen (fun x y ↦ ∃ m, next x m = some y) x y := by
  induction ms generalizing x with
  | nil => exact Option.some.inj h ▸ .refl
  | cons m ms ih =>
    obtain ⟨z, hz, hy⟩ := Option.bind_eq_some.1 h
    exact .head ⟨m, hz⟩ (ih hy)

/-- A goroutine that has not returned can always move: `Index` returns, its receive finds the
item of its own slot, and `wg.Done()` never blocks. -/
theorem workerStep_ne_none {c : Cycle} (hc : Inv s w repos c) {i : Nat} {wk : Worker}
    (hwk : c.workers[i]? = some wk) (hlive : wk.phase ≠ .exited) :
    workerStep s w c i ≠ none := by
  have hmem : wk ∈ c.workers := List.getElem?_mem hwk
  cases hph : wk.phase with
  | exited => exact absurd hph hlive
  | releasing =>
    have hpos : 0 < slotHolders c.workers :=
      List.countP_pos_iff.mpr ⟨wk, hmem, by simp [hph, Phase.holdsSlot]⟩
    have hsem : 0 < c.sem := by have := hc.sem_eq; omega
    simp [workerStep, hwk, hph, hsem]
  | indexing | finishing => simp [workerStep, hwk, hph]

theorem exists_worker_of_pos {c : Cycle} {p : Worker → Bool} (h : 0 < c.workers.countP p) :
    ∃ (i : Nat) (wk : Worker), c.workers[i]? = some wk ∧ p wk = true := by
  obtain ⟨wk, hmem, hp⟩ := List.countP_pos_iff.mp h
  obtain ⟨i, hi⟩ := List.mem_iff_getElem?.mp hmem
  exact ⟨i, wk, hi, hp⟩

/-- No reachable state is stuck before the cycle is over. -/
theorem exists_step (hcpu : 1 ≤ s.cpuCount) {c : Cycle} (hc : Inv s w repos c)
    (hd : c.dispatcher ≠ .done) : ∃ a c', step s w repos c a = some c' := by
  have hlive : ∀ {p : Worker → Bool}, 0 < c.workers.countP p →
      (∀ wk, p wk = true → wk.phase ≠ .exited) → ∃ a c', step s w repos c a = some c' := by
    intro p hpos hp
    obtain ⟨i, wk, hi, hpw⟩ := exists_worker_of_pos hpos
    obtain ⟨c', hc'⟩ := Option.ne_none_iff_exists'.mp
      (workerStep_ne_none s w repos hc hi (hp wk hpw))
    exact ⟨.worker i, c', hc'⟩
  cases hdisp : c.dispatcher with
  | done => exact absurd hdisp hd
  | ranging names =>
    cases names with
    | nil => exact ⟨.dispatcher, by simp [step, dispatchStep, hdisp]⟩
    | cons n ns =>
      by_cases hlt : c.sem < s.cpuCount
      · exact ⟨.dispatcher, by simp [step, dispatchStep, hdisp, hlt]⟩
      · have hsem := hc.sem_eq
        simp only [hdisp, Dispatcher.heldSlots, Nat.add_zero] at hsem
        exact hlive (p := fun wk ↦ wk.phase.holdsSlot) (by unfold slotHolders at hsem; omega)
          (fun wk h hex ↦ by simp [hex, Phase.holdsSlot] at h)
  | adding n ns => exact ⟨.dispatcher, by simp [step, dispatchStep, hdisp]⟩
  | spawning n ns => exact ⟨.dispatcher, by simp [step, dispatchStep, hdisp]⟩
  | sweeping => exact ⟨.dispatcher, by simp [step, dispatchStep, hdisp]⟩
  | waiting =>
    by_cases hwg : c.wg = 0
    · exact ⟨.dispatcher, by simp [step, dispatchStep, hdisp, hwg]⟩
    · have hwgeq := hc.wg_eq
      simp only [hdisp, Dispatcher.pendingAdds, Nat.add_zero] at hwgeq
      exact hlive (p := fun wk ↦ wk.phase ≠ .exited) (by unfold live at hwgeq; omega)
        (fun wk h ↦ by simpa using h)

/-- The steps the dispatcher has still to take, with those of the goroutines it will start. -/
def Dispatcher.remaining : Dispatcher → Nat
  | .ranging ns => 6 * ns.length + 3
  | .adding _ ns => 6 * ns.length + 8
  | .spawning _ ns => 6 * ns.length + 7
  | .waiting => 2
  | .sweeping => 1
  | .done => 0

/-- A bound on the steps left in the cycle: a goroutine in `Index` has three steps left, one
holding a slot after it two, one not returned one. -/
def Cycle.remaining (c : Cycle) : Nat :=
  c.dispatcher.remaining + inIndex c.workers + slotHolders c.workers + live c.workers

theorem remaining_lt_of_step {c c' : Cycle} {a : Actor} (h : step s w repos c a = some c') :
    c'.remaining < c.remaining := by
  cases a with
  | dispatcher =>
    rcases dispatchStep_cases s w repos h with ⟨hd, rfl⟩ | ⟨n, ns, hd, -, rfl⟩ |
      ⟨n, ns, hd, rfl⟩ | ⟨n, ns, hd, rfl⟩ | ⟨hd, -, rfl⟩ | ⟨hd, rfl⟩ <;>
      simp [Cycle.remaining, Dispatcher.remaining, hd, Phase.holdsSlot] <;> omega
  | worker i =>
    obtain ⟨pre, post, wk, hws, ⟨hph, rfl⟩ | ⟨hph, -, rfl⟩ | ⟨hph, rfl⟩⟩ := workerStep_cases s w h <;>
      simp [Cycle.remaining, hws, hph, Phase.holdsSlot]

/-- From every reachable state, the goroutines and the dispatcher can finish the cycle. -/
theorem exists_steps_done (hcpu : 1 ≤ s.cpuCount) {c : Cycle} (hc : Reachable s w repos c) :
    ∃ c', Steps s w repos c c' ∧ c'.dispatcher = .done := by
  obtain ⟨n, hn⟩ : ∃ n, c.remaining = n := ⟨_, rfl⟩
  induction n using Nat.strong_induction_on generalizing c with
  | _ n ih =>
    by_cases hd : c.dispatcher = .done
    · exact ⟨c, Relation.ReflTransGen.refl, hd⟩
    · obtain ⟨a, c₁, h₁⟩ := exists_step s w repos hcpu (hc.inv s w repos) hd
      obtain ⟨c₂, h₂, hdone⟩ := ih _ (hn ▸ remaining_lt_of_step s w repos h₁)
        (Reachable.step a hc h₁) rfl
      exact ⟨c₂, Relation.ReflTransGen.head ⟨a, h₁⟩ h₂, hdone⟩

theorem Reachable.remaining_le {c : Cycle} (hc : Reachable s w repos c) :
    c.remaining ≤ 6 * repos.length + 3 := by
  induction hc with
  | init => simp [Cycle.init, Cycle.remaining, Dispatcher.remaining, inIndex, slotHolders, live]
  | step a _ h ih => exact (remaining_lt_of_step s w repos h).le.trans ih

/-- With `CPUCount ≥ 1`, in every reachable state of a cycle some goroutine or the dispatcher can
move until the cycle is done, every move brings the cycle closer to its end, at most `6 * len(repos)
+ 3` moves are left, and the cycle can still finish. -/
theorem refresh_cycle_finishes (hcpu : 1 ≤ s.cpuCount) {c : Cycle} (hc : Reachable s w repos c) :
    (c.dispatcher ≠ .done → ∃ a c', step s w repos c a = some c') ∧
      (∀ a c', step s w repos c a = some c' → c'.remaining < c.remaining) ∧
      c.remaining ≤ 6 * repos.length + 3 ∧
      ∃ c', Steps s w repos c c' ∧ c'.dispatcher = .done :=
  ⟨exists_step s w repos hcpu (hc.inv s w repos), fun _ _ h ↦ remaining_lt_of_step s w repos h,
    hc.remaining_le, exists_steps_done s w repos hcpu hc⟩

theorem refresh_cycle_finishes_at_start :
    1 ≤ (⟨⟨id⟩, "/data/index", 1⟩ : Server).cpuCount ∧
      Reachable ⟨⟨id⟩, "/data/index", 1⟩ .offline ["a", "b"] (Cycle.init ["a", "b"]) ∧
      (((Cycle.init ["a", "b"]).dispatcher ≠ .done →
          ∃ a c', step ⟨⟨id⟩, "/data/index", 1⟩ .offline ["a", "b"] (Cycle.init ["a", "b"]) a =
            some c') ∧
        (∀ a c', step ⟨⟨id⟩, "/data/index", 1⟩ .offline ["a", "b"] (Cycle.init ["a", "b"]) a =
            some c' → c'.remaining < (Cycle.init ["a", "b"]).remaining) ∧
        (Cycle.init ["a", "b"]).remaining ≤ 6 * ["a", "b"].length + 3 ∧
        ∃ c', Steps ⟨⟨id⟩, "/data/index", 1⟩ .offline ["a", "b"] (Cycle.init ["a", "b"]) c' ∧
          c'.dispatcher = .done) :=
  ⟨le_refl 1, .init, refresh_cycle_finishes ⟨⟨id⟩, "/data/index", 1⟩ .offline ["a", "b"]
    (le_refl 1) .init⟩

end Progress

/-! ## What the semaphore and the WaitGroup guarantee -/

section Semaphore

variable (s : Server) (w : World) (repos : List String)

def WorkerSteps : Cycle → Cycle → Prop :=
  Relation.ReflTransGen fun c c' ↦ ∃ i, workerStep s w c i = some c'

theorem inIndex_le_slotHolders (ws : List Worker) : inIndex ws ≤ slotHolders ws :=
  List.countP_mono_left fun wk _ h ↦ by simp_all [Phase.holdsSlot]

/-- A goroutine holding a slot releases it in at most two of its own steps. -/
theorem exists_release {c : Cycle} (hc : Inv s w repos c) {i : Nat} {wk : Worker}
    (hwk : c.workers[i]? = some wk) (hhold : wk.phase.holdsSlot = true) :
    ∃ c', WorkerSteps s w c c' ∧ c'.dispatcher = c.dispatcher ∧ c'.sem + 1 = c.sem := by
  have hpos : 0 < c.sem := by
    have := hc.sem_eq
    have : 0 < slotHolders c.workers :=
      List.countP_pos_iff.mpr ⟨wk, List.getElem?_mem hwk, hhold⟩
    omega
  have hi : i < c.workers.length := (List.getElem?_eq_some_iff.mp hwk).1
  have hrelease : ∀ (c₁ : Cycle) (name : String), c₁.workers[i]? = some ⟨name, .releasing⟩ →
      0 < c₁.sem → workerStep s w c₁ i =
        some { c₁ with workers := c₁.workers.set i ⟨name, .finishing⟩, sem := c₁.sem - 1 } := by
    intro c₁ name h₁ hsem
    simp [workerStep, h₁, hsem]
  cases hph : wk.phase with
  | releasing =>
    refine ⟨_, Relation.ReflTransGen.single ⟨i, hrelease c wk.name (by rw [hwk, ← hph]) hpos⟩,
      rfl, by simp; omega⟩
  | indexing =>
    let c₁ : Cycle := { c with
      workers := c.workers.set i ⟨wk.name, .releasing⟩
      trace := c.trace ++ (s.index w wk.name).2 }
    have h₁ : workerStep s w c i = some c₁ := by simp [workerStep, hwk, hph, c₁]
    have h₂ := hrelease c₁ wk.name (by simp [c₁, hi]) hpos
    exact ⟨_, (Relation.ReflTransGen.single ⟨i, h₁⟩).tail ⟨i, h₂⟩, rfl, by simp [c₁]; omega⟩
  | finishing | exited => simp [hph, Phase.holdsSlot] at hhold

theorem Inv.joined {c : Cycle} (hinv : Inv s w repos c) (hj : c.dispatcher.joined = true) :
    c.workers.map (·.name) = repos ∧ ∀ wk ∈ c.workers, wk.phase = .exited := by
  have hwg := hinv.wg_eq
  have h0 := hinv.joined_wg hj
  have hnames := hinv.names
  have hdisp : c.dispatcher = .sweeping ∨ c.dispatcher = .done := by
    cases hd : c.dispatcher <;> simp_all [Dispatcher.joined]
  have hlive : live c.workers = 0 := by omega
  refine ⟨?_, fun wk hwk ↦ ?_⟩
  · rcases hdisp with hd | hd <;> simpa [hd, Dispatcher.unstarted] using hnames
  · by_contra hne
    have : 0 < live c.workers := List.countP_pos_iff.mpr ⟨wk, hwk, by simpa using hne⟩
    omega

/-- In every state an interleaving of a cycle reaches: at most `CPUCount` goroutines hold a slot, so
at most `CPUCount` builds are in flight; when the send blocks, every slot is held by a started
goroutine, and the goroutines by themselves reach a state where the send goes through; and once past
`wg.Wait()`, every goroutine of the listing has been started and has returned. -/
theorem refresh_semaphore_bounds_and_joins (hcpu : 1 ≤ s.cpuCount) {c : Cycle}
    (hc : Reachable s w repos c) :
    slotHolders c.workers ≤ s.cpuCount ∧ inIndex c.workers ≤ s.cpuCount ∧
      (∀ n ns, c.dispatcher = .ranging (n :: ns) → dispatchStep s w repos c = none →
        slotHolders c.workers = s.cpuCount ∧
        ∃ c', WorkerSteps s w c c' ∧ c'.dispatcher = c.dispatcher ∧
          dispatchStep s w repos c' ≠ none) ∧
      (c.dispatcher.joined = true →
        c.workers.map (·.name) = repos ∧ ∀ wk ∈ c.workers, wk.phase = .exited) := by
  have hinv := hc.inv s w repos
  have hsem := hinv.sem_eq
  have hle := hinv.sem_le
  have hheld : slotHolders c.workers ≤ s.cpuCount := by omega
  refine ⟨hheld, (inIndex_le_slotHolders _).trans hheld, fun n ns hd hblocked ↦ ?_, fun hj ↦ ?_⟩
  · have hfull : ¬ c.sem < s.cpuCount := by
      intro hlt
      simp [dispatchStep, hd, hlt] at hblocked
    rw [hd] at hsem
    simp only [Dispatcher.heldSlots, Nat.add_zero] at hsem
    refine ⟨by omega, ?_⟩
    obtain ⟨i, wk, hwk, hhold⟩ :=
      exists_worker_of_pos (p := fun wk ↦ wk.phase.holdsSlot) (c := c) (by unfold slotHolders at hsem; omega)
    obtain ⟨c', hsteps, hd', hsem'⟩ := exists_release s w repos hinv hwk hhold
    refine ⟨c', hsteps, hd', ?_⟩
    have hlt : c'.sem < s.cpuCount := by omega
    simp [dispatchStep, hd', hd, hlt]
  · exact hinv.joined s w repos hj

/-- With one CPU, a cycle over `a` and `b` in `World.demo`: the dispatcher is blocked on the
send for `b` while the goroutine of `a` is in `Index`. -/
def blockedCycle : Cycle := ⟨.ranging ["b"], [⟨"a", .indexing⟩], 1, 1, []⟩

/-- The same cycle past `wg.Wait()`, with both builds made. -/
def joinedCycle : Cycle :=
  ⟨.sweeping, [⟨"a", .exited⟩, ⟨"b", .exited⟩], 0, 0,
    [.run (archiveIndexCmd "-parallelism=1" ⟨id⟩ "/idx2" "c0ffee" "a") true,
      .run (emptyShardCmd "/idx2" "b") true]⟩

theorem refresh_semaphore_bounds_and_joins_blocked_then_joined :
    Reachable ⟨⟨id⟩, "/idx2", 1⟩ .demo ["a", "b"] blockedCycle ∧
      dispatchStep ⟨⟨id⟩, "/idx2", 1⟩ .demo ["a", "b"] blockedCycle = none ∧
      slotHolders blockedCycle.workers = 1 ∧
      (∃ c', WorkerSteps ⟨⟨id⟩, "/idx2", 1⟩ .demo blockedCycle c' ∧
        c'.dispatcher = .ranging ["b"] ∧ dispatchStep ⟨⟨id⟩, "/idx2", 1⟩ .demo ["a", "b"] c' ≠ none) ∧
      Reachable ⟨⟨id⟩, "/idx2", 1⟩ .demo ["a", "b"] joinedCycle ∧
      joinedCycle.dispatcher.joined = true ∧
      joinedCycle.workers.map (·.name) = ["a", "b"] ∧
      ∀ wk ∈ joinedCycle.workers, wk.phase = .exited := by
  have hb : Reachable ⟨⟨id⟩, "/idx2", 1⟩ .demo ["a", "b"] blockedCycle :=
    Reachable.init.steps _ _ _ (steps_of_runSchedule (show runSchedule
      (step ⟨⟨id⟩, "/idx2", 1⟩ .demo ["a", "b"]) (Cycle.init ["a", "b"])
      [.dispatcher, .dispatcher, .dispatcher] = some blockedCycle from rfl))
  have hj : Reachable ⟨⟨id⟩, "/idx2", 1⟩ .demo ["a", "b"] joinedCycle :=
    hb.steps _ _ _ (steps_of_runSchedule (show runSchedule
      (step ⟨⟨id⟩, "/idx2", 1⟩ .demo ["a", "b"]) blockedCycle
      [.worker 0, .worker 0, .dispatcher, .dispatcher, .dispatcher, .dispatcher, .worker 0,
        .worker 1, .worker 1, .worker 1, .dispatcher] = some joinedCycle from rfl))
  obtain ⟨-, -, hblocked, -⟩ :=
    refresh_semaphore_bounds_and_joins ⟨⟨id⟩, "/idx2", 1⟩ .demo ["a", "b"] le_rfl hb
  obtain ⟨-, -, -, hjoined⟩ :=
    refresh_semaphore_bounds_and_joins ⟨⟨id⟩, "/idx2", 1⟩ .demo ["a", "b"] le_rfl hj
  have hsend : dispatchStep ⟨⟨id⟩, "/idx2", 1⟩ .demo ["a", "b"] blockedCycle = none := rfl
  obtain ⟨hfull, hrelease⟩ := hblocked "b" [] rfl hsend
  exact ⟨hb, hsend, hfull, hrelease, hj, rfl, hjoined rfl⟩

end Semaphore

end Zoekt.Indexserver
