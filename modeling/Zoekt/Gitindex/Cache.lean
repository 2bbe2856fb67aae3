import Zoekt.Go.Filepath

/-!
# The repository cache of `gitindex`

`RepoCache.Open` maps a URL to the key `filepath.Join(u.Host, u.Path)`, with `.git` appended
unless it already ends in it, and opens the repository in `filepath.Join(baseDir, key)` once
per key. The map is keyed by the key, not by the directory: two keys that `Join` resolves to
the same directory (`/a.git` and `a.git`) get two handles on it. And `Join` cleans `..`
elements lexically, so a key that starts with `..` reaches outside `baseDir`; a key without
one stays strictly inside.

`git.OpenRepository` is an answer of the outside world at each call. `Close` is left out.
-/

namespace Zoekt.Gitindex

open Go Filepath

/-- A `*url.URL`, through the two fields `Open` reads. -/
structure URL where
  host : String
  path : String

/-- A `*git.Repository`: the handle a successful `git.OpenRepository` allocated, and the
directory it opened. Two repositories are the same pointer exactly when they are equal. -/
structure Repository where
  handle : Nat
  dir : String
  deriving DecidableEq

/-- `RepoCache`: its base directory, the map `repos` (an absent key reads as nil), and the
handle the next successful `git.OpenRepository` allocates. -/
structure RepoCache where
  baseDir : String
  repos : String → Option Repository
  nextHandle : Nat

def newRepoCache (dir : String) : RepoCache := ⟨dir, fun _ ↦ none, 0⟩

/-- The key `Open` computes for a URL. -/
def repoKey (u : URL) : String :=
  if Strings.hasSuffix (join u.host u.path) ".git" then join u.host u.path
  else join u.host u.path ++ ".git"

/-- `RepoCache.Open`, given what `git.OpenRepository` answers for a directory at this call: nil
or an error. Calls hold `reposMu`, so they run one after the other. -/
def RepoCache.open (rc : RepoCache) (openRepository : String → Option GoError) (u : URL) :
    Except GoError Repository × RepoCache :=
  match rc.repos (repoKey u) with
  | some r => (.ok r, rc)
  | none =>
    match openRepository (join rc.baseDir (repoKey u)) with
    | none =>
      let repo : Repository := ⟨rc.nextHandle, join rc.baseDir (repoKey u)⟩
      (.ok repo,
        { rc with
          repos := fun k ↦ if k = repoKey u then some repo else rc.repos k
          nextHandle := rc.nextHandle + 1 })
    | some err => (.error err, rc)

/-- One call of `Open`: the URL, and what `git.OpenRepository` answers during it. -/
structure Call where
  url : URL
  openRepository : String → Option GoError

/-- A sequence of `Open` calls: what each returns, and the cache after the last. -/
def RepoCache.openAll (rc : RepoCache) : List Call → List (Except GoError Repository) × RepoCache
  | [] => ([], rc)
  | c :: cs =>
    ((rc.open c.openRepository c.url).1 :: ((rc.open c.openRepository c.url).2.openAll cs).1,
      ((rc.open c.openRepository c.url).2.openAll cs).2)

/-! ## One call -/

section Open

variable (rc : RepoCache) (o : String → Option GoError) (u : URL)

theorem open_cases :
    (∃ r, rc.repos (repoKey u) = some r ∧ rc.open o u = (.ok r, rc)) ∨
    (∃ e, rc.repos (repoKey u) = none ∧ o (join rc.baseDir (repoKey u)) = some e ∧
      rc.open o u = (.error e, rc)) ∨
    (rc.repos (repoKey u) = none ∧ o (join rc.baseDir (repoKey u)) = none ∧
      rc.open o u = (.ok ⟨rc.nextHandle, join rc.baseDir (repoKey u)⟩,
        { rc with
          repos := fun k ↦ if k = repoKey u then some ⟨rc.nextHandle, join rc.baseDir (repoKey u)⟩
            else rc.repos k
          nextHandle := rc.nextHandle + 1 })) := by
  unfold RepoCache.open
  split
  · next r hr => exact .inl ⟨r, hr, rfl⟩
  · next hr =>
    split
    · next ho => exact .inr (.inr ⟨hr, ho, rfl⟩)
    · next e ho => exact .inr (.inl ⟨e, hr, ho, rfl⟩)

@[simp]
theorem open_baseDir : (rc.open o u).2.baseDir = rc.baseDir := by
  rcases open_cases rc o u with ⟨r, -, h⟩ | ⟨e, -, -, h⟩ | ⟨-, -, h⟩ <;> rw [h]

theorem repos_open_of_some {k : String} {r : Repository} (h : rc.repos k = some r) :
    (rc.open o u).2.repos k = some r := by
  rcases open_cases rc o u with ⟨r', -, ho⟩ | ⟨e, -, -, ho⟩ | ⟨hn, -, ho⟩ <;> rw [ho]
  · exact h
  · exact h
  · dsimp only
    rw [if_neg (fun hk ↦ by simp [hk, hn] at h), h]

theorem repos_open_of_ok {r : Repository} (h : (rc.open o u).1 = .ok r) :
    (rc.open o u).2.repos (repoKey u) = some r := by
  rcases open_cases rc o u with ⟨r', hr, ho⟩ | ⟨e, -, -, ho⟩ | ⟨-, -, ho⟩ <;> rw [ho] at h ⊢ <;>
    cases h
  · exact hr
  · simp

theorem open_of_error {e : GoError} (h : (rc.open o u).1 = .error e) : (rc.open o u).2 = rc := by
  rcases open_cases rc o u with ⟨r, -, ho⟩ | ⟨e', -, -, ho⟩ | ⟨-, -, ho⟩ <;> rw [ho] at h ⊢
  all_goals cases h

/-- `Open` asks `git.OpenRepository` about `Join(baseDir, key)` only. -/
theorem open_congr {o' : String → Option GoError}
    (h : o (join rc.baseDir (repoKey u)) = o' (join rc.baseDir (repoKey u))) :
    rc.open o u = rc.open o' u := by
  unfold RepoCache.open
  rw [h]

end Open

/-! ## Every sequence of calls -/

/-- What every cache built by `Open` calls satisfies: each entry holds a repository opened on
its key's directory, and no two keys share a handle, all handles being below the next one. -/
structure RepoCache.Valid (rc : RepoCache) : Prop where
  dir_eq : ∀ k r, rc.repos k = some r → r.dir = join rc.baseDir k
  handle_lt : ∀ k r, rc.repos k = some r → r.handle < rc.nextHandle
  handle_inj : ∀ k k' r r', rc.repos k = some r → rc.repos k' = some r' →
    r.handle = r'.handle → k = k'

theorem valid_newRepoCache (dir : String) : (newRepoCache dir).Valid :=
  ⟨fun _ _ h ↦ (nomatch h), fun _ _ h ↦ (nomatch h), fun _ _ _ _ h ↦ (nomatch h)⟩

theorem RepoCache.Valid.open {rc : RepoCache} (hv : rc.Valid) (o : String → Option GoError)
    (u : URL) : (rc.open o u).2.Valid := by
  rcases open_cases rc o u with ⟨r, -, ho⟩ | ⟨e, -, -, ho⟩ | ⟨hn, -, ho⟩ <;> rw [ho]
  · exact hv
  · exact hv
  · -- the new entry has the new handle; the old ones keep theirs, all below it
    have hfresh : ∀ k r, rc.repos k = some r → r.handle ≠ rc.nextHandle :=
      fun k r h ↦ (hv.handle_lt k r h).ne
    refine ⟨fun k r h ↦ ?_, fun k r h ↦ ?_, fun k k' r r' h h' hh ↦ ?_⟩ <;> dsimp only at h ⊢
    · split_ifs at h with hk
      · cases h
        rw [hk]
      · exact hv.dir_eq k r h
    · split_ifs at h with hk
      · cases h
        exact Nat.lt_succ_self _
      · exact Nat.lt_succ_of_lt (hv.handle_lt k r h)
    · dsimp only at h'
      split_ifs at h h' with hk hk'
      · rw [hk, hk']
      · cases h
        exact absurd hh.symm (hfresh k' r' h')
      · cases h'
        exact absurd hh (hfresh k r h)
      · exact hv.handle_inj k k' r r' h h' hh

theorem RepoCache.Valid.openAll {rc : RepoCache} (hv : rc.Valid) (cs : List Call) :
    (rc.openAll cs).2.Valid := by
  induction cs generalizing rc with
  | nil => exact hv
  | cons c cs ih => exact ih (hv.open _ _)

@[simp]
theorem openAll_baseDir (rc : RepoCache) (cs : List Call) :
    (rc.openAll cs).2.baseDir = rc.baseDir := by
  induction cs generalizing rc with
  | nil => rfl
  | cons c cs ih => exact (ih _).trans (open_baseDir _ _ _)

theorem repos_openAll_of_some {rc : RepoCache} {k : String} {r : Repository}
    (h : rc.repos k = some r) (cs : List Call) : (rc.openAll cs).2.repos k = some r := by
  induction cs generalizing rc with
  | nil => exact h
  | cons c cs ih => exact ih (repos_open_of_some _ _ _ h)

theorem repos_openAll_of_ok (rc : RepoCache) (cs : List Call) {i : Nat} {c : Call}
    {r : Repository} (hc : cs[i]? = some c) (hr : (rc.openAll cs).1[i]? = some (.ok r)) :
    (rc.openAll cs).2.repos (repoKey c.url) = some r := by
  induction cs generalizing rc i with
  | nil => simp at hc
  | cons c' cs ih =>
    cases i with
    | zero =>
      simp only [RepoCache.openAll, List.getElem?_cons_zero, Option.some.injEq] at hc hr
      subst hc
      exact repos_openAll_of_some (repos_open_of_ok _ _ _ hr) cs
    | succ i => exact ih _ (by simpa using hc) (by simpa [RepoCache.openAll] using hr)

/-- Starting from `NewRepoCache(baseDir)`, the cache holds under each key a repository opened on
`Join(baseDir, key)`, and no repository under two keys; a failed `Open` leaves the cache
unchanged; and two successful calls return the identical repository exactly when their URLs have
the same key. -/
theorem openAll_same_repository_iff_same_key (baseDir : String) (calls : List Call) :
    (∀ k r, ((newRepoCache baseDir).openAll calls).2.repos k = some r →
      r.dir = join baseDir k) ∧
    (∀ k k' r, ((newRepoCache baseDir).openAll calls).2.repos k = some r →
      ((newRepoCache baseDir).openAll calls).2.repos k' = some r → k = k') ∧
    (∀ (rc : RepoCache) o u e, (rc.open o u).1 = .error e → (rc.open o u).2 = rc) ∧
    ∀ (i j : Nat) (c c' : Call) (r r' : Repository), calls[i]? = some c → calls[j]? = some c' →
      ((newRepoCache baseDir).openAll calls).1[i]? = some (.ok r) →
      ((newRepoCache baseDir).openAll calls).1[j]? = some (.ok r') →
      (r = r' ↔ repoKey c.url = repoKey c'.url) := by
  have hv := (valid_newRepoCache baseDir).openAll calls
  refine ⟨fun k r h ↦ by simpa using hv.dir_eq k r h, fun k k' r h h' ↦ hv.handle_inj k k' r r h h' rfl,
    fun rc o u e h ↦ open_of_error rc o u h, fun i j c c' r r' hc hc' hr hr' ↦ ?_⟩
  have hk := repos_openAll_of_ok _ _ hc hr
  have hk' := repos_openAll_of_ok _ _ hc' hr'
  constructor
  · rintro rfl
    exact hv.handle_inj _ _ r r hk hk' rfl
  · intro hkey
    rw [hkey, hk'] at hk
    exact (Option.some.inj hk).symm

/-- Two successful opens: of the URL with no host and the path `/a.git`, then of the URL with
the host `a.git` and no path. -/
def twoKeyCalls : List Call :=
  [⟨⟨"", "/a.git"⟩, fun _ ↦ none⟩, ⟨⟨"a.git", ""⟩, fun _ ↦ none⟩]

/-- The two URLs have different keys that `Join` resolves to one directory: the cache opens it
twice, returns two handles on it and holds both. -/
theorem open_two_keys_one_directory :
    repoKey ⟨"", "/a.git"⟩ = "/a.git" ∧ repoKey ⟨"a.git", ""⟩ = "a.git" ∧
      join "/srv/repos" "/a.git" = "/srv/repos/a.git" ∧
      join "/srv/repos" "a.git" = "/srv/repos/a.git" ∧
      ((newRepoCache "/srv/repos").openAll twoKeyCalls).1 =
        [.ok ⟨0, "/srv/repos/a.git"⟩, .ok ⟨1, "/srv/repos/a.git"⟩] ∧
      ((newRepoCache "/srv/repos").openAll twoKeyCalls).2.repos "/a.git" =
        some ⟨0, "/srv/repos/a.git"⟩ ∧
      ((newRepoCache "/srv/repos").openAll twoKeyCalls).2.repos "a.git" =
        some ⟨1, "/srv/repos/a.git"⟩ :=
  ⟨by decide, by decide, by decide, by decide, rfl, by decide, by decide⟩

/-! ## Where `Open` looks -/

theorem repoKey_data (u : URL) : ∃ q, (repoKey u).data = q ++ ".git".data := by
  unfold repoKey
  split_ifs with h
  · obtain ⟨q, hq⟩ := (Strings.hasSuffix_iff _ _).1 h
    exact ⟨q, hq.symm⟩
  · exact ⟨_, String.data_append _ _⟩

theorem exists_name_mem_elements_repoKey (u : URL) :
    ∃ e ∈ elements (repoKey u).data, e ≠ [] ∧ e ≠ ['.'] := by
  obtain ⟨q, hq⟩ := repoKey_data u
  obtain ⟨pre, last, h⟩ := exists_elements_append (s := ".git".data) (by decide) q
  refine ⟨last ++ ".git".data, by simp [hq, h], by simp, fun h' ↦ ?_⟩
  have := congrArg List.length h'
  simp at this

/-- Where `Open` looks: it asks `git.OpenRepository` about `Join(baseDir, key)` and nothing
else, and when `baseDir` is not empty and the key has no `..` element, that directory lies
strictly inside `baseDir`. -/
theorem open_dir_strictly_inside_base (rc : RepoCache) (u : URL) :
    (∀ o o' : String → Option GoError,
      o (join rc.baseDir (repoKey u)) = o' (join rc.baseDir (repoKey u)) →
        rc.open o u = rc.open o' u) ∧
    (rc.baseDir ≠ "" → ['.', '.'] ∉ elements (repoKey u).data →
      StrictlyInside (join rc.baseDir (repoKey u)) rc.baseDir) :=
  ⟨fun o _ h ↦ open_congr rc o u h,
    fun hb hdd ↦ strictlyInside_join hb hdd (exists_name_mem_elements_repoKey u)⟩

theorem open_dir_strictly_inside_base_of_host :
    (newRepoCache "/srv/repos").baseDir ≠ "" ∧
      ['.', '.'] ∉ elements (repoKey ⟨"h", "/x"⟩).data ∧
      (∀ o o' : String → Option GoError,
        o (join "/srv/repos" (repoKey ⟨"h", "/x"⟩)) = o' (join "/srv/repos" (repoKey ⟨"h", "/x"⟩)) →
          (newRepoCache "/srv/repos").open o ⟨"h", "/x"⟩ =
            (newRepoCache "/srv/repos").open o' ⟨"h", "/x"⟩) ∧
      StrictlyInside (join "/srv/repos" (repoKey ⟨"h", "/x"⟩)) "/srv/repos" :=
  have hb : (newRepoCache "/srv/repos").baseDir ≠ "" := by decide
  have hdd : ['.', '.'] ∉ elements (repoKey ⟨"h", "/x"⟩).data := by decide
  ⟨hb, hdd, (open_dir_strictly_inside_base (newRepoCache "/srv/repos") ⟨"h", "/x"⟩).1,
    (open_dir_strictly_inside_base (newRepoCache "/srv/repos") ⟨"h", "/x"⟩).2 hb hdd⟩

/-- The host `h` and the path `/../../x` give the key `../x.git`: `Open` opens `/srv/x.git`,
outside `/srv/repos`. -/
theorem open_dir_escapes_base :
    repoKey ⟨"h", "/../../x"⟩ = "../x.git" ∧
      ((newRepoCache "/srv/repos").open (fun _ ↦ none) ⟨"h", "/../../x"⟩).1 =
        .ok ⟨0, "/srv/x.git"⟩ ∧
      ¬ StrictlyInside "/srv/x.git" "/srv/repos" := by
  refine ⟨by decide, rfl, ?_⟩
  rintro ⟨-, more, hne, -, h⟩
  have hlen := congrArg List.length h
  rw [List.length_append, show (kept "/srv/x.git".data).length = 2 by decide,
    show (kept "/srv/repos".data).length = 2 by decide] at hlen
  exact hne (List.length_eq_zero.1 (by omega))

end Zoekt.Gitindex
