import Zoekt.Indexserver.Concurrent

/-!
# The concurrent loop against the serial ones

`Refreshes` relates the ticks of the current `Server.Refresh` (the listing and the world of
each) to the events of each cycle, for every interleaving of every cycle. The serial versions
(`SerialServer.refresh`, `refresh`) are functions of the same ticks.

A cycle of the concurrent loop ends with the builds of the serial loop in some order, then the
same sweep: the runs agree up to order once the `-parallelism` argument is dropped, the
removals are the same, and every run comes before every removal. Every cycle does end, so the
relation describes every run of the loop and is not empty.
-/

namespace Zoekt.Indexserver

open Go

/-- A builder run as the versions are compared: its arguments without `-parallelism`, and its
standard input. -/
def Cmd.comparable (c : Cmd) : List String × List UInt8 :=
  (c.args.filter fun a ↦ !"-parallelism=".data.isPrefixOf a.data, c.stdin)

def invocations (evs : List Event) : List (List String × List UInt8) :=
  evs.filterMap fun
    | .run c _ => some c.comparable
    | .remove _ => none

def removals (evs : List Event) : List String :=
  evs.filterMap fun
    | .remove p => some p
    | .run _ _ => none

/-- Every run comes before every removal. -/
def RunsBeforeRemovals (evs : List Event) : Prop :=
  ∃ runs rest, evs = runs ++ rest ∧ removals runs = [] ∧ invocations rest = []

/-- Two cycles agree: the same runs up to order, the same removals, and in each the runs
come before the removals. -/
def SameCycle (t t' : List Event) : Prop :=
  (invocations t).Perm (invocations t') ∧ removals t = removals t' ∧
    RunsBeforeRemovals t ∧ RunsBeforeRemovals t'

/-- The runs of the current `Server.Refresh` over some ticks: nothing after a failed listing,
and after a successful one the events of a finished interleaving of the cycle. -/
inductive Refreshes (s : Server) :
    List (Except GoError (List String) × World) → List (List Event) → Prop where
  | nil : Refreshes s [] []
  | failed {e : GoError} {w : World} {ticks traces} :
      Refreshes s ticks traces → Refreshes s ((.error e, w) :: ticks) ([] :: traces)
  | cycle {repos : List String} {w : World} {c : Cycle} {ticks traces} :
      Reachable s w repos c → c.dispatcher = .done → Refreshes s ticks traces →
      Refreshes s ((.ok repos, w) :: ticks) (c.trace :: traces)

@[simp]
theorem invocations_append (t t' : List Event) :
    invocations (t ++ t') = invocations t ++ invocations t' :=
  List.filterMap_append _ _ _

@[simp]
theorem removals_append (t t' : List Event) : removals (t ++ t') = removals t ++ removals t' :=
  List.filterMap_append _ _ _

theorem comparable_archiveIndexCmd {p p' : String} (hp : "-parallelism=".data <+: p.data)
    (hp' : "-parallelism=".data <+: p'.data) (root : URL) (indexDir commit name : String) :
    (archiveIndexCmd p root indexDir commit name).comparable =
      (archiveIndexCmd p' root indexDir commit name).comparable := by
  simp [Cmd.comparable, archiveIndexCmd, List.filter_cons, hp, hp']

theorem removals_indexWith (p : String) (root : URL) (indexDir : String) (w : World)
    (name : String) : removals (indexWith p root indexDir w name).2 = [] := by
  unfold indexWith
  split <;> (try split) <;> simp [loggedRun, removals]

/-- The versions build the same way: their runs differ only in the `-parallelism` argument. -/
theorem invocations_indexWith {p p' : String} (hp : "-parallelism=".data <+: p.data)
    (hp' : "-parallelism=".data <+: p'.data) (root : URL) (indexDir : String) (w : World)
    (name : String) :
    invocations (indexWith p root indexDir w name).2 =
      invocations (indexWith p' root indexDir w name).2 := by
  unfold indexWith
  split <;> (try split) <;> simp [loggedRun, invocations, comparable_archiveIndexCmd hp hp']

theorem invocations_sweep (w : World) (indexDir : String) (repos : List String) :
    invocations (sweep w indexDir repos) = [] := by
  unfold sweep deleteStaleIndexes
  split
  · rfl
  · simp only [invocations, List.filterMap_flatMap, List.flatMap_eq_nil_iff]
    intro f _
    unfold deleteIfStale
    split <;> (try split) <;> rfl

theorem prefix_of_parallelism_flag (n : String) : "-parallelism=".data <+: ("-parallelism=" ++ n).data := by
  simp

theorem built_of_returned (s : Server) (w : World) {ws : List Worker}
    (h : ∀ wk ∈ ws, wk.phase ≠ .indexing) :
    built s w ws = (ws.map (·.name)).flatMap fun name ↦ (s.index w name).2 := by
  induction ws with
  | nil => rfl
  | cons wk ws ih =>
    simp [h wk (by simp), ih fun v hv ↦ h v (by simp [hv])]

/-- At the end of a cycle, the builds are those of the listing in some order, and the sweep
follows them. -/
theorem Reachable.trace_of_done {s : Server} {w : World} {repos : List String} {c : Cycle}
    (hc : Reachable s w repos c) (hd : c.dispatcher = .done) :
    ∃ t, c.trace = t ++ sweep w s.indexDir repos ∧
      t.Perm (repos.flatMap fun name ↦ (s.index w name).2) := by
  have hinv := hc.inv s w repos
  obtain ⟨hnames, hexited⟩ := hinv.joined s w repos (by simp [hd, Dispatcher.joined])
  obtain ⟨t, ht, hperm⟩ := hinv.trace
  refine ⟨t, by simpa [swept, hd] using ht, ?_⟩
  rw [built_of_returned s w fun wk hwk ↦ by simp [hexited wk hwk], hnames] at hperm
  exact hperm

theorem removals_flatMap_indexWith (p : String) (root : URL) (indexDir : String) (w : World)
    (repos : List String) :
    removals (repos.flatMap fun name ↦ (indexWith p root indexDir w name).2) = [] := by
  simp only [removals, List.filterMap_flatMap, List.flatMap_eq_nil_iff]
  exact fun name _ ↦ removals_indexWith p root indexDir w name

theorem invocations_flatMap_indexWith {p p' : String} (hp : "-parallelism=".data <+: p.data)
    (hp' : "-parallelism=".data <+: p'.data) (root : URL) (indexDir : String) (w : World)
    (repos : List String) :
    invocations (repos.flatMap fun name ↦ (indexWith p root indexDir w name).2) =
      invocations (repos.flatMap fun name ↦ (indexWith p' root indexDir w name).2) := by
  simp only [invocations, List.filterMap_flatMap]
  exact List.flatMap_congr fun name _ ↦ invocations_indexWith hp hp' root indexDir w name

theorem runsBeforeRemovals_serialCycle (p : String) (root : URL) (indexDir : String)
    (w : World) (repos : List String) :
    RunsBeforeRemovals (serialCycle p root indexDir w repos) :=
  ⟨_, _, rfl, removals_flatMap_indexWith p root indexDir w repos, invocations_sweep w indexDir repos⟩

/-- A finished interleaving of a cycle agrees with the serial cycle on the same listing. -/
theorem Reachable.sameCycle {s : Server} {w : World} {repos : List String} {c : Cycle}
    (hc : Reachable s w repos c) (hd : c.dispatcher = .done) {p : String}
    (hp : "-parallelism=".data <+: p.data) :
    SameCycle c.trace (serialCycle p s.root s.indexDir w repos) := by
  obtain ⟨t, ht, hperm⟩ := hc.trace_of_done hd
  have hone : "-parallelism=".data <+: "-parallelism=1".data := by decide
  change t.Perm (repos.flatMap fun name ↦ (indexWith "-parallelism=1" s.root s.indexDir w name).2)
    at hperm
  have hrem : removals t = [] := by
    have h1 : (removals t).Perm (removals _) := hperm.filterMap _
    rw [removals_flatMap_indexWith] at h1
    exact h1.eq_nil
  refine ⟨?_, ?_, ⟨t, _, ht, hrem, invocations_sweep w s.indexDir repos⟩,
    runsBeforeRemovals_serialCycle p s.root s.indexDir w repos⟩
  · rw [ht, serialCycle, invocations_append, invocations_append, invocations_sweep,
      invocations_flatMap_indexWith hp hone, List.append_nil, List.append_nil]
    exact hperm.filterMap _
  · rw [ht, serialCycle, removals_append, removals_append, hrem,
      removals_flatMap_indexWith]

theorem sameCycle_nil : SameCycle [] [] :=
  ⟨.refl _, rfl, ⟨[], [], rfl, rfl, rfl⟩, ⟨[], [], rfl, rfl, rfl⟩⟩

theorem exists_refreshes (s : Server) (hcpu : 1 ≤ s.cpuCount)
    (ticks : List (Except GoError (List String) × World)) : ∃ traces, Refreshes s ticks traces := by
  induction ticks with
  | nil => exact ⟨[], .nil⟩
  | cons tick ticks ih =>
    obtain ⟨traces, h⟩ := ih
    obtain ⟨listing, w⟩ := tick
    cases listing with
    | error e => exact ⟨_, .failed h⟩
    | ok repos =>
      obtain ⟨c, hsteps, hd⟩ := exists_steps_done s w repos hcpu (.init : Reachable s w repos _)
      exact ⟨_, .cycle ((Reachable.init).steps s w repos hsteps) hd h⟩

theorem forall₂_sameCycle {s : Server} {ticks : List (Except GoError (List String) × World)}
    {traces : List (List Event)} (h : Refreshes s ticks traces) {p : String}
    (hp : "-parallelism=".data <+: p.data) :
    List.Forall₂ SameCycle traces
      (ticks.map fun t ↦ serialTick p s.root s.indexDir t.2 t.1) := by
  induction h with
  | nil => exact .nil
  | failed _ ih => exact .cons sameCycle_nil ih
  | cycle hc hd _ ih => exact .cons (hc.sameCycle hd hp) ih

/-- Whatever the listings, resolutions, builder statuses and shard directories, every run of the
current `Server.Refresh`, under every interleaving, makes in each cycle the builder runs of the
corresponding cycle of the serial `Server.Refresh` and of `refresh`, up to order and to the
`-parallelism` argument, removes the same files, and makes all of its runs before any removal; and
such runs exist for every sequence of ticks. -/
theorem refresh_concurrent_matches_serial (s : Server) (hcpu : 1 ≤ s.cpuCount)
    (ticks : List (Except GoError (List String) × World)) (cpus : Nat) (roundedCpus : Int) :
    (∃ traces, Refreshes s ticks traces) ∧
      ∀ traces, Refreshes s ticks traces →
        List.Forall₂ SameCycle traces (SerialServer.refresh { s with cpuCount := cpus } ticks) ∧
        List.Forall₂ SameCycle traces (refresh s.root s.indexDir roundedCpus ticks) :=
  ⟨exists_refreshes s hcpu ticks, fun _ h ↦
    ⟨forall₂_sameCycle h (prefix_of_parallelism_flag _), forall₂_sameCycle h (prefix_of_parallelism_flag _)⟩⟩

theorem twoDirDisk_glob_idx2 : twoDirDisk.glob "/idx2/*" = (["/idx2/b"], none) := by
  rw [show "/idx2/*" = "/idx2" ++ "/*" from rfl, twoDirDisk.glob_append_star (by decide) (by decide)]
  decide

-- The serial cycle in `World.demo`: `a` is built from its tarball, `b` has no `HEAD` and gets an
-- empty shard, and the shard of `gone` is removed; a failed listing does nothing.
example : SerialServer.refresh ⟨⟨id⟩, "/idx2", 8⟩ [(.ok ["a", "b"], .demo), (.error .errNotExist, .demo)] =
    [[.run (archiveIndexCmd "-parallelism=8" ⟨id⟩ "/idx2" "c0ffee" "a") true,
      .run (emptyShardCmd "/idx2" "b") true, .remove "/idx2/b"], []] := by
  have h8 : "-parallelism=" ++ toString 8 = "-parallelism=8" := rfl
  simp [h8, SerialServer.refresh, serialTick, serialCycle, sweep, deleteStaleIndexes, World.demo,
    twoDirDisk_glob_idx2, deleteIfStale, existsMap, indexWith, resolveRevision, GoError.isNotExist,
    loggedRun]

theorem refresh_concurrent_matches_serial_with_builds :
    1 ≤ (⟨⟨id⟩, "/idx2", 1⟩ : Server).cpuCount ∧
      ((∃ traces, Refreshes ⟨⟨id⟩, "/idx2", 1⟩
          [(.ok ["a", "b"], .demo), (.error .errNotExist, .demo)] traces) ∧
        ∀ traces, Refreshes ⟨⟨id⟩, "/idx2", 1⟩
            [(.ok ["a", "b"], .demo), (.error .errNotExist, .demo)] traces →
          List.Forall₂ SameCycle traces (SerialServer.refresh ⟨⟨id⟩, "/idx2", 8⟩
            [(.ok ["a", "b"], .demo), (.error .errNotExist, .demo)]) ∧
          List.Forall₂ SameCycle traces
            (refresh ⟨id⟩ "/idx2" 8 [(.ok ["a", "b"], .demo), (.error .errNotExist, .demo)])) :=
  ⟨le_rfl, refresh_concurrent_matches_serial ⟨⟨id⟩, "/idx2", 1⟩ le_rfl
    [(.ok ["a", "b"], .demo), (.error .errNotExist, .demo)] 8 8⟩

end Zoekt.Indexserver
