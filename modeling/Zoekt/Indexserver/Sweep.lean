import Zoekt.Indexserver.Refinement

/-!
# What a cycle removes

The sweep globs `IndexDir + "/*"` and removes every match that reads as a shard of a
repository missing from the listing. When `IndexDir` holds no pattern character, the glob
lists exactly the entries of the directory, so a cycle removes exactly its stale shards, and
nothing after a failed or empty listing. The pattern is not escaped, though: an index
directory whose name holds `*`, `?`, `[` or `\` is read as a pattern, and the sweep then
removes shards of other directories that the pattern matches.
-/

namespace Zoekt.Indexserver

open Go Filepath

/-- A file is stale when it reads as a shard of a repository missing from the listing. -/
def isStale (w : World) (repos : List String) (f : String) : Bool :=
  match w.readShard f with
  | .repository name => name ∉ repos
  | _ => false

def staleShards (w : World) (indexDir : String) (repos : List String) : List String :=
  ((w.fs.entries indexDir).map (join indexDir)).filter (isStale w repos)

/-- What a tick should remove: the stale shards after a successful non-empty listing, and
nothing otherwise. -/
def expectedRemovals (w : World) (indexDir : String) : Except GoError (List String) → List String
  | .ok repos => if repos = [] then [] else staleShards w indexDir repos
  | .error _ => []

theorem removals_deleteIfStale (w : World) (repos : List String) (f : String) :
    removals (deleteIfStale w (existsMap repos) f) = if isStale w repos f then [f] else [] := by
  unfold deleteIfStale isStale
  split <;> simp_all [existsMap, removals]
  split <;> simp_all

/-- Without pattern characters in `IndexDir`, the sweep removes exactly the stale shards. -/
theorem removals_sweep {indexDir : String} (hm : hasMeta indexDir = false) (hne : indexDir ≠ "")
    (w : World) (repos : List String) :
    removals (sweep w indexDir repos) = expectedRemovals w indexDir (.ok repos) := by
  unfold sweep deleteStaleIndexes expectedRemovals
  by_cases hr : repos = []
  · simp [hr, removals]
  · simp only [hr, List.length_eq_zero, if_false, w.fs.glob_append_star hm hne]
    simp only [removals, List.filterMap_flatMap, staleShards]
    induction (w.fs.entries indexDir).map (join indexDir) with
    | nil => rfl
    | cons f fs ih =>
      have := removals_deleteIfStale w repos f
      simp only [removals] at this
      simp only [List.flatMap_cons, List.filterMap_append, this, ih, List.filter_cons]
      split <;> rfl

theorem removals_serialTick {indexDir : String} (hm : hasMeta indexDir = false)
    (hne : indexDir ≠ "") (p : String) (root : URL) (w : World)
    (listing : Except GoError (List String)) :
    removals (serialTick p root indexDir w listing) = expectedRemovals w indexDir listing := by
  cases listing with
  | error e => rfl
  | ok repos =>
    rw [serialTick, serialCycle, removals_append, removals_flatMap_indexWith, List.nil_append,
      removals_sweep hm hne]

theorem Refreshes.map_removals {s : Server} {ticks : List (Except GoError (List String) × World)}
    {traces : List (List Event)} (h : Refreshes s ticks traces) :
    traces.map removals = ticks.map fun tick ↦
      removals (serialTick "-parallelism=1" s.root s.indexDir tick.2 tick.1) := by
  induction h with
  | nil => rfl
  | failed _ ih => simp only [List.map_cons, ih]; rfl
  | cycle hc hd _ ih =>
    simp only [List.map_cons, ih, (hc.sameCycle hd (prefix_of_parallelism_flag "1")).2.1]
    rfl

/-- In every run of the three versions of the loop, a cycle removes exactly the entries of
`IndexDir` that read as shards of repositories missing from a successful, non-empty listing: nothing
after a failed or empty listing, nothing outside the directory, and no file that cannot be read as a
shard. -/
theorem refresh_removes_exactly_stale_shards (s : Server) (hm : hasMeta s.indexDir = false)
    (hne : s.indexDir ≠ "") (ticks : List (Except GoError (List String) × World)) :
    (∀ traces, Refreshes s ticks traces →
      traces.map removals = ticks.map fun tick ↦ expectedRemovals tick.2 s.indexDir tick.1) ∧
    (SerialServer.refresh s ticks).map removals =
      ticks.map (fun tick ↦ expectedRemovals tick.2 s.indexDir tick.1) ∧
    ∀ roundedCpus, (refresh s.root s.indexDir roundedCpus ticks).map removals =
      ticks.map (fun tick ↦ expectedRemovals tick.2 s.indexDir tick.1) := by
  have hserial : ∀ p, ticks.map (fun tick ↦ removals (serialTick p s.root s.indexDir tick.2 tick.1)) =
      ticks.map (fun tick ↦ expectedRemovals tick.2 s.indexDir tick.1) := fun p ↦
    List.map_congr_left fun tick _ ↦ removals_serialTick hm hne _ _ _ _
  refine ⟨fun traces h ↦ h.map_removals.trans (hserial _), ?_, fun _ ↦ ?_⟩ <;>
    simp only [SerialServer.refresh, refresh, List.map_map] <;> exact hserial _

theorem refresh_removes_exactly_stale_shards_of_gone :
    hasMeta (⟨⟨id⟩, "/idx2", 1⟩ : Server).indexDir = false ∧
      (⟨⟨id⟩, "/idx2", 1⟩ : Server).indexDir ≠ "" ∧
      expectedRemovals .demo "/idx2" (.ok ["a", "b"]) = ["/idx2/b"] ∧
      ((∀ traces, Refreshes ⟨⟨id⟩, "/idx2", 1⟩ [(.ok ["a", "b"], .demo), (.ok [], .demo)] traces →
        traces.map removals = [expectedRemovals .demo "/idx2" (.ok ["a", "b"]),
          expectedRemovals .demo "/idx2" (.ok [])]) ∧
      (SerialServer.refresh ⟨⟨id⟩, "/idx2", 1⟩ [(.ok ["a", "b"], .demo), (.ok [], .demo)]).map
          removals = [expectedRemovals .demo "/idx2" (.ok ["a", "b"]),
            expectedRemovals .demo "/idx2" (.ok [])] ∧
      ∀ roundedCpus, (refresh ⟨id⟩ "/idx2" roundedCpus
          [(.ok ["a", "b"], .demo), (.ok [], .demo)]).map removals =
        [expectedRemovals .demo "/idx2" (.ok ["a", "b"]), expectedRemovals .demo "/idx2" (.ok [])]) :=
  ⟨by decide, by decide, by decide, refresh_removes_exactly_stale_shards ⟨⟨id⟩, "/idx2", 1⟩
    (by decide) (by decide) [(.ok ["a", "b"], .demo), (.ok [], .demo)]⟩

/-! ## An index directory read as a pattern -/

/-- The entries of every directory that `IndexDir`, read as a pattern, matches, that are stale;
nothing when the pattern is malformed. -/
def staleShardsMatching (w : World) (indexDir : String) (repos : List String) : List String :=
  match w.fs.glob indexDir with
  | (_, some _) => []
  | (dirs, none) => dirs.flatMap fun d ↦ ((w.fs.entries d).map (join d)).filter (isStale w repos)

/-- What a tick removes when `IndexDir` holds pattern characters: the stale entries of every
directory the pattern matches, after a successful non-empty listing. -/
def matchingRemovals (w : World) (indexDir : String) : Except GoError (List String) → List String
  | .ok repos => if repos = [] then [] else staleShardsMatching w indexDir repos
  | .error _ => []

theorem removals_flatMap_deleteIfStale (w : World) (repos files : List String) :
    removals (files.flatMap (deleteIfStale w (existsMap repos))) = files.filter (isStale w repos) := by
  induction files with
  | nil => rfl
  | cons f fs ih =>
    rw [List.flatMap_cons, removals_append, removals_deleteIfStale, ih, List.filter_cons]
    split <;> rfl

theorem removals_sweep_of_hasMeta {indexDir : String} (hm : hasMeta indexDir = true)
    (hne : indexDir ≠ "") (w : World) (repos : List String) :
    removals (sweep w indexDir repos) = matchingRemovals w indexDir (.ok repos) := by
  unfold sweep deleteStaleIndexes matchingRemovals staleShardsMatching
  by_cases hr : repos = []
  · simp [hr, removals]
  · simp only [hr, List.length_eq_zero, if_false, w.fs.glob_append_star_of_hasMeta hm hne]
    split <;> rename_i hg
    · simp only [hg]
      rfl
    · simp only [hg, removals_flatMap_deleteIfStale, List.filter_flatMap]

theorem removals_serialTick_of_hasMeta {indexDir : String} (hm : hasMeta indexDir = true)
    (hne : indexDir ≠ "") (p : String) (root : URL) (w : World)
    (listing : Except GoError (List String)) :
    removals (serialTick p root indexDir w listing) = matchingRemovals w indexDir listing := by
  cases listing with
  | error e => rfl
  | ok repos =>
    rw [serialTick, serialCycle, removals_append, removals_flatMap_indexWith, List.nil_append,
      removals_sweep_of_hasMeta hm hne]

/-- In every run of the three versions of the loop, a cycle removes exactly the files that read as
shards of repositories missing from a successful, non-empty listing among the entries of every
directory that `IndexDir`, read as a `Glob` pattern, matches; and nothing when that pattern is
malformed, or after a failed or empty listing. -/
theorem refresh_removes_stale_shards_of_matching_dirs (s : Server)
    (hm : hasMeta s.indexDir = true) (hne : s.indexDir ≠ "")
    (ticks : List (Except GoError (List String) × World)) :
    (∀ traces, Refreshes s ticks traces →
      traces.map removals = ticks.map fun tick ↦ matchingRemovals tick.2 s.indexDir tick.1) ∧
    (SerialServer.refresh s ticks).map removals =
      ticks.map (fun tick ↦ matchingRemovals tick.2 s.indexDir tick.1) ∧
    ∀ roundedCpus, (refresh s.root s.indexDir roundedCpus ticks).map removals =
      ticks.map (fun tick ↦ matchingRemovals tick.2 s.indexDir tick.1) := by
  have hserial : ∀ p, ticks.map (fun tick ↦ removals (serialTick p s.root s.indexDir tick.2 tick.1)) =
      ticks.map (fun tick ↦ matchingRemovals tick.2 s.indexDir tick.1) := fun p ↦
    List.map_congr_left fun tick _ ↦ removals_serialTick_of_hasMeta hm hne _ _ _ _
  refine ⟨fun traces h ↦ h.map_removals.trans (hserial _), ?_, fun _ ↦ ?_⟩ <;>
    simp only [SerialServer.refresh, refresh, List.map_map] <;> exact hserial _

/-- The world of `twoDirDisk` where `/idx2/b` is a shard of the repository `gone`. -/
def World.globbed : World :=
  { World.offline with
    fs := twoDirDisk
    readShard := fun p ↦ if p = "/idx2/b" then .repository "gone" else .openFailed }

theorem twoDirDisk_glob : twoDirDisk.glob "/idx*/*" = (["/idx2/b"], none) := by
  have h1 : join "/" "idx2" = "/idx2" := by decide
  have h2 : join "/idx2" "b" = "/idx2/b" := by decide
  have h3 : bytes "idx*" = [105, 100, 120, 42] := rfl
  have h4 : bytes "idx2" = [105, 100, 120, 50] := rfl
  have h5 : bytes "b" = [98] := rfl
  simp [h1, h2, h3, h4, h5, matchPattern_star, FileSystem.glob, FileSystem.globDir, FileSystem.globEach, FileSystem.globNames,
    twoDirDisk, split, cleanGlobPath, hasMeta, sortStrings, matchPattern, scanChunk, scanLoop,
    nextName, matchChunk]

/-- With `IndexDir = "/idx*"`, a directory that does not exist, a cycle of each version
listing `kept` removes `/idx2/b`, a shard of another directory. -/
theorem sweep_removes_outside_index_dir :
    twoDirDisk.entries "/idx*" = [] ∧
      SerialServer.refresh ⟨⟨id⟩, "/idx*", 1⟩ [(.ok ["kept"], .globbed)] =
        [[.remove "/idx2/b"]] ∧
      refresh ⟨id⟩ "/idx*" 1 [(.ok ["kept"], .globbed)] = [[.remove "/idx2/b"]] ∧
      ∀ traces, Refreshes ⟨⟨id⟩, "/idx*", 1⟩ [(.ok ["kept"], .globbed)] traces →
        traces.map removals = [["/idx2/b"]] := by
  have hsweep : ∀ p, serialTick p ⟨id⟩ "/idx*" .globbed (.ok ["kept"]) = [.remove "/idx2/b"] := by
    intro p
    simp [serialTick, serialCycle, indexWith, resolveRevision, sweep, deleteStaleIndexes,
      World.globbed, twoDirDisk_glob, World.offline, deleteIfStale, existsMap, GoError.isNotExist]
  refine ⟨by decide, by simp [SerialServer.refresh, hsweep], by simp [refresh, hsweep],
    fun traces h ↦ ?_⟩
  rw [h.map_removals]
  simp [hsweep, removals]

theorem refresh_removes_stale_shards_of_matching_dirs_globbed :
    hasMeta (⟨⟨id⟩, "/idx*", 1⟩ : Server).indexDir = true ∧
      (⟨⟨id⟩, "/idx*", 1⟩ : Server).indexDir ≠ "" ∧
      ((∀ traces, Refreshes ⟨⟨id⟩, "/idx*", 1⟩ [(.ok ["kept"], .globbed)] traces →
        traces.map removals = [matchingRemovals .globbed "/idx*" (.ok ["kept"])]) ∧
      (SerialServer.refresh ⟨⟨id⟩, "/idx*", 1⟩ [(.ok ["kept"], .globbed)]).map removals =
        [matchingRemovals .globbed "/idx*" (.ok ["kept"])] ∧
      ∀ roundedCpus, (refresh ⟨id⟩ "/idx*" roundedCpus [(.ok ["kept"], .globbed)]).map removals =
        [matchingRemovals .globbed "/idx*" (.ok ["kept"])]) :=
  ⟨by decide, by decide, refresh_removes_stale_shards_of_matching_dirs ⟨⟨id⟩, "/idx*", 1⟩
    (by decide) (by decide) [(.ok ["kept"], .globbed)]⟩

end Zoekt.Indexserver
