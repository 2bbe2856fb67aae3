import Zoekt.Go.Walk

/-!
# Finding repositories: `RepoModTime` and `FindGitRepos`

Both walk a tree with `filepath.Walk`. Their callbacks read the `FileInfo` they are given
without checking the error first, so when `Walk` hands them a path that `lstat` could not read
(the root is missing, or an entry vanished between the listing of its directory and its
`lstat`), they dereference a nil `FileInfo` and panic: `RepoModTime` always, `FindGitRepos`
when the path ends in `.git` and has no `.git` directory.

`FindGitRepos` names each repository it finds by trimming `.git`, a `/`, the root and a `/`
from its directory: the names below the root, without `.git`. A working tree `p` (whose
repository is `p/.git`) and a bare repository `p.git` next to it get the same name; no other
two directories do. A bare repository at the root itself keeps the whole root in its name.

Both return on a tree that `lstat` reads throughout, and then neither returns an error of the
walk. `RepoModTime` returns the latest time of the refs it reads. `FindGitRepos` returns the
repository of every path its walk reaches, and none inside another: its callback stops at each
repository, and at a symbolic link to a working tree it stops the rest of the listing too.
-/

namespace Zoekt.Gitindex

open Go Filepath Strings

section Repos

variable (fs : FileSystem)

/-- `err == nil && fi.IsDir()` after `fi, err := os.Lstat(p)`. -/
def isDirAt (p : String) : Bool :=
  match fs.lstat p with
  | .ok fi => fi.isDir
  | .error _ => false

/-- The callback of `RepoModTime`, over `last`: it reads `fi.IsDir()` whatever the error. -/
def modTimeFn : WalkFn Nat := fun _ fi _ last ↦
  match fi with
  | none => .error .nilDereference
  | some fi => .ok (none, if !fi.isDir && last < fi.modTime then fi.modTime else last)

/-- `last` after the files `git gc` packs refs into. -/
def packedModTime (dir : String) (last : Nat) : Nat :=
  ["info/refs", "packed-refs"].foldl (fun last fn ↦
    match fs.lstat (join dir fn) with
    | .ok fi => if !fi.isDir && last < fi.modTime then fi.modTime else last
    | .error _ => last) last

/-- `RepoModTime`: the latest modification time of the refs, and the walk's error. The zero
time is `0`. -/
def repoModTime (fuel : Nat) (dir : String) : Except Abort (Nat × Option GoError) :=
  match fs.lstat (join dir "refs") with
  | .error _ => .ok (packedModTime fs dir 0, none)
  | .ok _ =>
    match fs.walkTree modTimeFn fuel (join dir "refs") 0 with
    | .error a => .error a
    | .ok (some err, last) => .ok (last, some err)
    | .ok (none, last) => .ok (packedModTime fs dir last, none)

/-- The callback of `FindGitRepos`, over `dirs`: a path with a `.git` directory is a working
tree; a directory whose name ends in `.git` and that has an `objects` directory is a bare
repository. `fi.IsDir()` is read only for a name ending in `.git`. -/
def findFn : WalkFn (List String) := fun name fi _ dirs ↦
  if isDirAt fs (join name ".git") then .ok (some .skipDir, dirs ++ [join name ".git"])
  else if !hasSuffix name ".git" then .ok (none, dirs)
  else
    match fi with
    | none => .error .nilDereference
    | some fi =>
      if !fi.isDir then .ok (none, dirs)
      else if isDirAt fs (join name "objects") then .ok (some .skipDir, dirs ++ [name])
      else .ok (none, dirs)

/-- The name `FindGitRepos` gives the repository in `dir`, under the root `arg`. -/
def repoName (arg dir : String) : String :=
  trimPrefix (trimPrefix (trimSuffix (trimSuffix dir ".git") "/") arg) "/"

/-- The map `gitDirs`, assigned one directory after another. -/
def gitDirs (arg : String) (dirs : List String) : String → Option String :=
  dirs.foldl (fun m dir d ↦ if d = dir then some (repoName arg dir) else m d) fun _ ↦ none

/-- `FindGitRepos`: the repository directories under `arg`, each with its name, or an error. -/
def findGitRepos (fuel : Nat) (arg : String) :
    Except Abort (Except GoError (String → Option String)) :=
  match abs fs.getwd arg with
  | .error err => .ok (.error err)
  | .ok arg =>
    match fs.walkTree (findFn fs) fuel arg [] with
    | .error a => .error a
    | .ok (some err, _) => .ok (.error err)
    | .ok (none, dirs) => .ok (.ok (gitDirs arg dirs))

end Repos

/-! ## Names -/


section Find

variable (fs : FileSystem)

theorem findFn_eq_ok {name : String} {fi : Option FileInfo} {err : Option GoError}
    {dirs dirs' : List String} {r : Option WalkErr}
    (h : findFn fs name fi err dirs = .ok (r, dirs')) :
    (r = none ∧ dirs' = dirs) ∨ r = some .skipDir ∧
      (isDirAt fs (join name ".git") = true ∧ dirs' = dirs ++ [join name ".git"] ∨
        hasSuffix name ".git" = true ∧ (∃ info, fi = some info ∧ info.isDir = true) ∧
          isDirAt fs (join name "objects") = true ∧ dirs' = dirs ++ [name]) := by
  unfold findFn at h
  by_cases h1 : isDirAt fs (join name ".git") = true
  · rw [if_pos h1] at h
    cases h
    exact .inr ⟨rfl, .inl ⟨h1, rfl⟩⟩
  rw [if_neg h1] at h
  by_cases h2 : hasSuffix name ".git" = true
  · rw [if_neg (by simpa using h2)] at h
    cases fi with
    | none => cases h
    | some fi =>
      dsimp only at h
      split_ifs at h with h3 h4 <;> cases h
      · exact .inl ⟨rfl, rfl⟩
      · exact .inr ⟨rfl, .inr ⟨h2, ⟨fi, rfl, by simpa using h3⟩, h4, rfl⟩⟩
      · exact .inl ⟨rfl, rfl⟩
  · rw [Bool.eq_false_iff.mpr h2] at h
    cases h
    exact .inl ⟨rfl, rfl⟩

theorem findFn_eq_error {name : String} {fi : Option FileInfo} {err : Option GoError}
    {dirs : List String} {a : Abort} (h : findFn fs name fi err dirs = .error a) :
    isDirAt fs (join name ".git") = false ∧ hasSuffix name ".git" = true ∧ fi = none := by
  unfold findFn at h
  by_cases h1 : isDirAt fs (join name ".git") = true
  · rw [if_pos h1] at h
    cases h
  rw [if_neg h1] at h
  by_cases h2 : hasSuffix name ".git" = true
  · rw [if_neg (by simpa using h2)] at h
    cases fi with
    | none => exact ⟨by simpa using h1, h2, rfl⟩
    | some fi =>
      dsimp only at h
      split_ifs at h
  · rw [Bool.eq_false_iff.mpr h2] at h
    cases h

end Find

/-! ## What `FindGitRepos` returns -/

theorem foldl_gitDirs (arg : String) (dirs : List String) (m : String → Option String) (d : String) :
    dirs.foldl (fun m dir d ↦ if d = dir then some (repoName arg dir) else m d) m d =
      if d ∈ dirs then some (repoName arg d) else m d := by
  induction dirs generalizing m with
  | nil => simp
  | cons x xs ih =>
    rw [List.foldl_cons, ih]
    by_cases hx : d = x
    · subst hx
      simp
    · simp [hx]

theorem gitDirs_eq_some {arg : String} {dirs : List String} {d n : String}
    (h : gitDirs arg dirs d = some n) : d ∈ dirs ∧ n = repoName arg d := by
  rw [gitDirs, foldl_gitDirs] at h
  split_ifs at h with hd
  exact ⟨hd, (Option.some.inj h).symm⟩

/-- A disk where `/r` holds a working tree `x`, with its `.git` directory, and a bare repository
`x.git`, with its `objects` directory. -/
def treeAndBareDisk : FileSystem where
  lstat p := if p = "/" ∨ p = "/r" ∨ p = "/r/x" ∨ p = "/r/x/.git" ∨ p = "/r/x.git" ∨
      p = "/r/x.git/objects" then .ok ⟨true, 0⟩ else .error .errNotExist
  stat p := if p = "/" ∨ p = "/r" ∨ p = "/r/x" ∨ p = "/r/x/.git" ∨ p = "/r/x.git" ∨
      p = "/r/x.git/objects" then .ok ⟨true, 0⟩ else .error .errNotExist
  readdir d := (if d = "/r" then ["x", "x.git"] else [], none)
  getwd := .ok "/"
  names_valid d n h := by
    simp only at h
    split_ifs at h <;> simp_all [ValidName]
    rcases h with rfl | rfl <;> decide
  getwd_abs _ h := by cases h; rfl

/-- A time `RepoModTime` can return: zero, or the modification time that `lstat` reports for a
file that is not a directory, at a path of `At`. -/
def FileTime (fs : FileSystem) (At : String → Prop) (t : Nat) : Prop :=
  t = 0 ∨ ∃ name fi, At name ∧ fs.lstat name = .ok fi ∧ fi.isDir = false ∧ fi.modTime = t

theorem FileTime.mono {fs : FileSystem} {At At' : String → Prop} (hAt : ∀ n, At n → At' n)
    {t : Nat} (h : FileTime fs At t) : FileTime fs At' t :=
  h.imp_right fun ⟨name, fi, hat, hl, hdir, ht⟩ ↦ ⟨name, fi, hAt name hat, hl, hdir, ht⟩

theorem modTimeFn_keeps (fs : FileSystem) (At : String → Prop) :
    Keeps fs modTimeFn At (FileTime fs At) := by
  intro name err last r last' hat hinv h
  cases hl : fs.lstat name with
  | error e => rw [hl] at h; cases h
  | ok fi =>
    rw [hl] at h
    cases h
    split_ifs with hlt
    · simp only [Bool.and_eq_true, Bool.not_eq_true'] at hlt
      exact .inr ⟨name, fi, hat, hl, hlt.1, rfl⟩
    · exact hinv

theorem packedModTime_fileTime (fs : FileSystem) (dir : String) {At : String → Prop}
    (hAt : At (join dir "info/refs") ∧ At (join dir "packed-refs")) {last : Nat}
    (h : FileTime fs At last) : FileTime fs At (packedModTime fs dir last) := by
  have hstep : ∀ fn, At (join dir fn) → ∀ last, FileTime fs At last →
      FileTime fs At (match fs.lstat (join dir fn) with
        | .ok fi => if !fi.isDir && last < fi.modTime then fi.modTime else last
        | .error _ => last) := by
    intro fn hfn last h
    split
    · next fi hl =>
      split_ifs with hlt
      · simp only [Bool.and_eq_true, Bool.not_eq_true'] at hlt
        exact .inr ⟨_, fi, hfn, hl, hlt.1, rfl⟩
      · exact h
    · exact h
  exact hstep _ hAt.2 _ (hstep _ hAt.1 _ h)

theorem modTimeFn_goesInto (fs : FileSystem) : GoesInto fs modTimeFn fun _ _ ↦ True :=
  fun _ _ _ ↦ trivial

/-- The paths `RepoModTime` reads times from: those its walk of `refs` reaches, `info/refs` and
`packed-refs`. -/
def refPaths (fs : FileSystem) (dir name : String) : Prop :=
  Reaches fs (fun _ _ ↦ True) (fun _ ↦ False) (join dir "refs") name ∨
    name = join dir "info/refs" ∨ name = join dir "packed-refs"

/-- Whenever `RepoModTime` returns, its time is zero or the modification time that `lstat` reports
for a file that is not a directory: one its walk of `refs` reaches, `info/refs` or `packed-refs`. -/
theorem repoModTime_is_file_time (fs : FileSystem) (fuel : Nat) (dir : String) {t : Nat}
    {err : Option GoError} (h : repoModTime fs fuel dir = .ok (t, err)) :
    FileTime fs (refPaths fs dir) t := by
  have hwalk : ∀ {e last}, fs.walkTree modTimeFn fuel (join dir "refs") 0 = .ok (e, last) →
      FileTime fs (refPaths fs dir) last := by
    intro e last hw
    obtain ⟨r, hr⟩ := fs.walkTree_eq_ok _ hw
    have hout : WalkOutcome fs modTimeFn (Reaches fs _ _ (join dir "refs")) (FileTime fs _)
        (fs.walkRoot modTimeFn fuel (join dir "refs") 0) :=
      walkTree_outcome_reaches (modTimeFn_goesInto fs) haltsAt_false (modTimeFn_keeps fs _) fuel
        (.inl rfl)
    rw [hr] at hout
    exact FileTime.mono (fun _ ↦ .inl) hout
  have hpacked : ∀ {last}, FileTime fs (refPaths fs dir) last →
      FileTime fs (refPaths fs dir) (packedModTime fs dir last) :=
    packedModTime_fileTime fs dir ⟨.inr (.inl rfl), .inr (.inr rfl)⟩
  unfold repoModTime at h
  split at h
  · cases h
    exact hpacked (.inl rfl)
  · split at h
    · cases h
    · next last hw =>
      cases h
      exact hwalk hw
    · next last hw =>
      cases h
      exact hpacked (hwalk hw)

/-- A repository directory `/r` with the ref `refs/heads/main`, written at time 5, and
`packed-refs`, written at time 3. -/
def refsDisk : FileSystem where
  lstat p := if p = "/r/refs/heads/main" then .ok ⟨false, 5⟩
    else if p = "/r/packed-refs" then .ok ⟨false, 3⟩
    else if p = "/" ∨ p = "/r" ∨ p = "/r/refs" ∨ p = "/r/refs/heads" then .ok ⟨true, 0⟩
    else .error .errNotExist
  stat p := if p = "/" ∨ p = "/r" ∨ p = "/r/refs" ∨ p = "/r/refs/heads" then .ok ⟨true, 0⟩
    else .error .errNotExist
  readdir d := (if d = "/r/refs" then ["heads"] else if d = "/r/refs/heads" then ["main"] else [],
    none)
  getwd := .ok "/"
  names_valid d n h := by
    simp only at h
    split_ifs at h <;> simp_all [ValidName]
  getwd_abs _ h := by cases h; rfl

theorem repoModTime_is_file_time_of_refs :
    repoModTime refsDisk 3 "/r" = .ok (5, none) ∧ FileTime refsDisk (refPaths refsDisk "/r") 5 :=
  have h : repoModTime refsDisk 3 "/r" = .ok (5, none) := rfl
  ⟨h, repoModTime_is_file_time refsDisk 3 "/r" h⟩

/-- `last` is no earlier than the file at `name`, if `lstat` reads one there that is not a
directory. -/
def Covers (fs : FileSystem) (name : String) (last : Nat) : Prop :=
  ∀ fi, fs.lstat name = .ok fi → fi.isDir = false → fi.modTime ≤ last

theorem le_latest (fi : FileInfo) (last : Nat) :
    last ≤ (if !fi.isDir && last < fi.modTime then fi.modTime else last) ∧
      (fi.isDir = false → fi.modTime ≤ if !fi.isDir && last < fi.modTime then fi.modTime else last) := by
  split_ifs with h
  · simp only [Bool.and_eq_true, Bool.not_eq_true', decide_eq_true_eq] at h
    exact ⟨h.2.le, fun _ ↦ le_rfl⟩
  · simp only [Bool.and_eq_true, Bool.not_eq_true', decide_eq_true_eq, not_and, not_lt] at h
    exact ⟨le_rfl, h⟩

theorem modTimeFn_eq_ok {name : String} {fi : Option FileInfo} {err : Option GoError}
    {last r last'} (h : modTimeFn name fi err last = .ok (r, last')) :
    ∃ info, fi = some info ∧ r = none ∧
      last' = if !info.isDir && last < info.modTime then info.modTime else last := by
  cases fi with
  | none => cases h
  | some info => cases h; exact ⟨info, rfl, rfl, rfl⟩

theorem modTimeFn_records (fs : FileSystem) :
    Records fs modTimeFn (fun _ _ ↦ True) (fun _ ↦ False)
      (fun q last ↦ Covers fs q last ∧ ∃ fi, fs.lstat q = .ok fi) where
  not_fail h := by
    obtain ⟨_, -, hr, -⟩ := modTimeFn_eq_ok h
    cases hr
  descends _ _ _ h := by
    obtain ⟨_, -, hr, -⟩ := modTimeFn_eq_ok h
    exact hr
  halts _ _ h := by
    obtain ⟨_, -, hr, -⟩ := modTimeFn_eq_ok h
    cases hr
  keeps hq h := by
    obtain ⟨info, -, -, rfl⟩ := modTimeFn_eq_ok h
    exact ⟨fun fi hl hd ↦ (hq.1 fi hl hd).trans (le_latest info _).1, hq.2⟩
  sees {name _ _ _ _} h := by
    obtain ⟨info, hinfo, -, rfl⟩ := modTimeFn_eq_ok h
    cases hl : fs.lstat name with
    | error e => rw [hl] at hinfo; cases hinfo
    | ok fi =>
      rw [hl] at hinfo
      cases hinfo
      exact ⟨fun fi' hl' hd ↦ by rw [hl] at hl'; cases hl'; exact (le_latest _ _).2 hd, _, rfl⟩

theorem packedModTime_covers (fs : FileSystem) (dir : String) (last : Nat) :
    last ≤ packedModTime fs dir last ∧ Covers fs (join dir "info/refs") (packedModTime fs dir last) ∧
      Covers fs (join dir "packed-refs") (packedModTime fs dir last) := by
  have hstep : ∀ fn last, last ≤ (match fs.lstat (join dir fn) with
        | .ok fi => if !fi.isDir && last < fi.modTime then fi.modTime else last
        | .error _ => last) ∧
      Covers fs (join dir fn) (match fs.lstat (join dir fn) with
        | .ok fi => if !fi.isDir && last < fi.modTime then fi.modTime else last
        | .error _ => last) := by
    intro fn last
    split
    · next fi hl =>
      refine ⟨(le_latest fi last).1, fun fi' hl' hd ↦ ?_⟩
      rw [hl] at hl'
      cases hl'
      exact (le_latest _ last).2 hd
    · next e hl => exact ⟨le_rfl, fun fi hl' ↦ by rw [hl] at hl'; cases hl'⟩
  obtain ⟨h1, hc1⟩ := hstep "info/refs" last
  obtain ⟨h2, hc2⟩ := hstep "packed-refs" _
  exact ⟨h1.trans h2, fun fi hl hd ↦ (hc1 fi hl hd).trans h2, hc2⟩

/-- Whenever `RepoModTime` returns, its error is nil (its callback returns none, and a path that
`lstat` cannot read makes it panic instead), and its time is no earlier than that of any file that
`lstat` reads as not a directory: one that the walk of `refs` reaches through directories that list
without an error, `info/refs` or `packed-refs`. -/
theorem repoModTime_is_latest_ref_time (fs : FileSystem) (fuel : Nat) (dir : String) {t : Nat}
    {err : Option GoError} (h : repoModTime fs fuel dir = .ok (t, err)) :
    err = none ∧
      (∀ q fi, Reaches fs (fun _ _ ↦ True) (fun _ ↦ False) (join dir "refs") q →
        fs.lstat q = .ok fi → fi.isDir = false → fi.modTime ≤ t) ∧
      (∀ fi, fs.lstat (join dir "info/refs") = .ok fi → fi.isDir = false → fi.modTime ≤ t) ∧
      ∀ fi, fs.lstat (join dir "packed-refs") = .ok fi → fi.isDir = false → fi.modTime ≤ t := by
  unfold repoModTime at h
  split at h
  · next e hl =>
    cases h
    obtain ⟨-, hc1, hc2⟩ := packedModTime_covers fs dir 0
    refine ⟨rfl, fun q fi hq hlq ↦ ?_, hc1, hc2⟩
    rw [hq.eq_of_lstat_error hl, hl] at hlq
    cases hlq
  · split at h
    · cases h
    · next e last hw => exact absurd (walkTree_visited (modTimeFn_records fs) hw).1 (by simp)
    · next last hw =>
      cases h
      obtain ⟨hle, hc1, hc2⟩ := packedModTime_covers fs dir last
      have hseen := (walkTree_visited (modTimeFn_records fs) hw).2.2
      exact ⟨rfl, fun q fi hq hlq hd ↦ ((hseen q hq).1 fi hlq hd).trans hle, hc1, hc2⟩

theorem repoModTime_is_latest_ref_time_of_refs :
    repoModTime refsDisk 3 "/r" = .ok (5, none) ∧
      ((none : Option GoError) = none ∧
        (∀ q fi, Reaches refsDisk (fun _ _ ↦ True) (fun _ ↦ False) (join "/r" "refs") q →
          refsDisk.lstat q = .ok fi → fi.isDir = false → fi.modTime ≤ 5) ∧
        (∀ fi, refsDisk.lstat (join "/r" "info/refs") = .ok fi → fi.isDir = false →
          fi.modTime ≤ 5) ∧
        ∀ fi, refsDisk.lstat (join "/r" "packed-refs") = .ok fi → fi.isDir = false →
          fi.modTime ≤ 5) :=
  have h : repoModTime refsDisk 3 "/r" = .ok (5, none) := rfl
  ⟨h, repoModTime_is_latest_ref_time refsDisk 3 "/r" h⟩

/-- A repository directory found at a path `p` of the walk: `p/.git`, a directory, or `p` itself,
a directory whose name ends in `.git` and that has an `objects` directory. -/
def RepoDir (fs : FileSystem) (p d : String) : Prop :=
  d = join p ".git" ∧ isDirAt fs d = true ∨
    d = p ∧ hasSuffix p ".git" = true ∧ isDirAt fs p = true ∧ isDirAt fs (join p "objects") = true

theorem findFn_keeps_repoDir (fs : FileSystem) (At : String → Prop) :
    Keeps fs (findFn fs) At fun dirs ↦ ∀ d ∈ dirs, ∃ p, At p ∧ RepoDir fs p d := by
  intro name err dirs r dirs' hat hinv h
  rcases findFn_eq_ok fs h with ⟨-, rfl⟩ | ⟨-, ⟨hgit, rfl⟩ | ⟨hsuf, ⟨info, hfi, hdir⟩, hobj, rfl⟩⟩
  · exact hinv
  all_goals
    intro d hd
    rcases List.mem_append.1 hd with hd | hd
    · exact hinv d hd
    rw [List.mem_singleton.1 hd]
  · exact ⟨name, hat, .inl ⟨rfl, hgit⟩⟩
  · have hname : isDirAt fs name = true := by
      unfold isDirAt
      cases hl : fs.lstat name with
      | error e => rw [hl] at hfi; cases hfi
      | ok fi => rw [hl] at hfi; cases hfi; exact hdir
    exact ⟨name, hat, .inr ⟨rfl, hsuf, hname, hobj⟩⟩

/-- Every directory in the map `FindGitRepos` returns is a repository directory found at the root or
below it, as its callback checks it, and is mapped to the name `repoName` gives it. -/
theorem findGitRepos_returns_repositories (fs : FileSystem) (fuel : Nat) (arg : String)
    {m : String → Option String} (h : findGitRepos fs fuel arg = .ok (.ok m)) {d n : String}
    (hd : m d = some n) :
    ∃ root, abs fs.getwd arg = .ok root ∧ n = repoName root d ∧
      ∃ p, (p = root ∨ Below true (kept root.data) p) ∧ RepoDir fs p d := by
  unfold findGitRepos at h
  split at h
  · cases h
  · next root habs =>
    obtain ⟨hroot, hcs⟩ := abs_eq_render fs.getwd_abs habs
    split at h
    · cases h
    · cases h
    · next dirs hw =>
      cases h
      obtain ⟨hdm, hn⟩ := gitDirs_eq_some hd
      obtain ⟨r, hr⟩ := fs.walkTree_eq_ok _ hw
      have hout := walkTree_outcome fs (findFn fs) _ hcs (findFn_keeps_repoDir fs _) fuel []
        (fun _ h ↦ nomatch h)
      rw [← hroot, hr] at hout
      exact ⟨root, habs, hn, hout d hdm⟩

theorem findGitRepos_returns_repositories_at_r :
    findGitRepos treeAndBareDisk 3 "/r" = .ok (.ok (gitDirs "/r" ["/r/x/.git", "/r/x.git"])) ∧
      gitDirs "/r" ["/r/x/.git", "/r/x.git"] "/r/x.git" = some "x" ∧
      ∃ root, abs treeAndBareDisk.getwd "/r" = .ok root ∧ "x" = repoName root "/r/x.git" ∧
        ∃ p, (p = root ∨ Below true (kept root.data) p) ∧ RepoDir treeAndBareDisk p "/r/x.git" :=
  have h : findGitRepos treeAndBareDisk 3 "/r" =
      .ok (.ok (gitDirs "/r" ["/r/x/.git", "/r/x.git"])) := rfl
  have hd : gitDirs "/r" ["/r/x/.git", "/r/x.git"] "/r/x.git" = some "x" := by decide
  ⟨h, hd, findGitRepos_returns_repositories treeAndBareDisk 3 "/r" h hd⟩

/-! ## What `FindGitRepos` finds -/

/-- The repository the callback of `FindGitRepos` takes at `p`: `p/.git`, a directory, or else
`p` itself, a directory whose name ends in `.git` and that has an `objects` directory. -/
def FoundAt (fs : FileSystem) (p d : String) : Prop :=
  isDirAt fs (join p ".git") = true ∧ d = join p ".git" ∨
    isDirAt fs (join p ".git") = false ∧ hasSuffix p ".git" = true ∧ isDirAt fs p = true ∧
      isDirAt fs (join p "objects") = true ∧ d = p

/-- An entry that halts the listing of its directory in the walk of `FindGitRepos`: a file for
`lstat`, with a `.git` directory through it (a symbolic link to a working tree). -/
def LinkedTree (fs : FileSystem) (p : String) : Prop :=
  (∃ fi, fs.lstat p = .ok fi ∧ fi.isDir = false) ∧ isDirAt fs (join p ".git") = true

theorem findFn_of_foundAt (fs : FileSystem) {p d : String} (hf : FoundAt fs p d)
    (err : Option GoError) (dirs : List String) :
    findFn fs p (fs.lstat p).toOption err dirs = .ok (some .skipDir, dirs ++ [d]) := by
  rcases hf with ⟨hgit, rfl⟩ | ⟨hgit, hsuf, hdir, hobj, rfl⟩
  · simp [findFn, hgit]
  · unfold isDirAt at hdir
    split at hdir
    · next fi hl => simp [findFn, hgit, hsuf, hl, hdir, hobj, Except.toOption]
    · cases hdir

/-- A path where the callback of `FindGitRepos` dereferences a nil `FileInfo`: `lstat` cannot
read it, its name ends in `.git`, and it has no `.git` directory. -/
def UnreadableGitPath (fs : FileSystem) (p : String) : Prop :=
  hasSuffix p ".git" = true ∧ isDirAt fs (join p ".git") = false ∧ ∃ e, fs.lstat p = .error e

theorem findFn_records (fs : FileSystem) :
    Records fs (findFn fs) (fun p _ ↦ ∀ d, ¬ FoundAt fs p d) (LinkedTree fs)
      (fun p dirs ↦ (∀ d, FoundAt fs p d → d ∈ dirs) ∧ ¬ UnreadableGitPath fs p) where
  not_fail h := by
    rcases findFn_eq_ok fs h with ⟨h, -⟩ | ⟨h, -⟩ <;> cases h
  descends {name info _ _ _ _} hl hd hno h := by
    rcases findFn_eq_ok fs h with ⟨rfl, -⟩ | ⟨-, ⟨hgit, -⟩ | ⟨hsuf, -, hobj, -⟩⟩
    · rfl
    · exact absurd (.inl ⟨hgit, rfl⟩) (hno _)
    · have hdir : isDirAt fs name = true := by simp [isDirAt, hl, hd]
      cases hgit : isDirAt fs (join name ".git")
      · exact absurd (.inr ⟨hgit, hsuf, hdir, hobj, rfl⟩) (hno _)
      · exact absurd (.inl ⟨hgit, rfl⟩) (hno _)
  halts hl hnd h := by
    rcases findFn_eq_ok fs h with ⟨h, -⟩ | ⟨-, ⟨hgit, -⟩ | ⟨-, ⟨_, hfi, hdir⟩, -⟩⟩
    · cases h
    · exact ⟨⟨_, hl, hnd⟩, hgit⟩
    · cases hfi
      simp_all
  keeps hq h := by
    refine ⟨fun d hd ↦ ?_, hq.2⟩
    rcases findFn_eq_ok fs h with ⟨-, rfl⟩ | ⟨-, ⟨-, rfl⟩ | ⟨-, -, -, rfl⟩⟩ <;>
      simp [hq.1 d hd]
  sees h := by
    refine ⟨fun d hd ↦ ?_, fun ⟨hsuf, hgit, e, he⟩ ↦ ?_⟩
    · rw [findFn_of_foundAt fs hd] at h
      cases h
      simp
    · rw [he] at h
      simp [findFn, hgit, hsuf, Except.toOption] at h

theorem findFn_haltsAt (fs : FileSystem) : HaltsAt fs (findFn fs) (LinkedTree fs) := by
  rintro name ⟨⟨fi, hl, hnd⟩, hgit⟩
  exact ⟨fi, hl, hnd, fun h ↦ by simp only [findFn, hgit, if_true] at h; cases h; rfl⟩

/-- When `Abs` succeeds and `FindGitRepos` returns, it returns a map and no error (its callback
never returns one), and the map holds, under its name, the repository of every path the walk
reaches: from the root through directories that hold no repository and list without an error, past
no link to a working tree sorted before it. -/
theorem findGitRepos_finds_reached_repositories (fs : FileSystem) (fuel : Nat) (arg root : String)
    (habs : abs fs.getwd arg = .ok root) {r : Except GoError (String → Option String)}
    (h : findGitRepos fs fuel arg = .ok r) :
    ∃ m, r = .ok m ∧ ∀ p d,
      Reaches fs (fun p _ ↦ ∀ d, ¬ FoundAt fs p d) (LinkedTree fs) root p → FoundAt fs p d →
        m d = some (repoName root d) := by
  rw [findGitRepos, habs] at h
  dsimp only at h
  split at h
  · cases h
  · next e dirs hw => exact absurd (walkTree_visited (findFn_records fs) hw).1 (by simp)
  · next dirs hw =>
    cases h
    refine ⟨_, rfl, fun p d hp hf ↦ ?_⟩
    have hd := ((walkTree_visited (findFn_records fs) hw).2.2 p hp).1 d hf
    rw [gitDirs, foldl_gitDirs, if_pos hd]

theorem findGitRepos_finds_reached_repositories_at_r :
    abs treeAndBareDisk.getwd "/r" = .ok "/r" ∧
      findGitRepos treeAndBareDisk 3 "/r" = .ok (.ok (gitDirs "/r" ["/r/x/.git", "/r/x.git"])) ∧
      ∃ m, (.ok (gitDirs "/r" ["/r/x/.git", "/r/x.git"]) : Except GoError _) = .ok m ∧ ∀ p d,
        Reaches treeAndBareDisk (fun p _ ↦ ∀ d, ¬ FoundAt treeAndBareDisk p d)
          (LinkedTree treeAndBareDisk) "/r" p → FoundAt treeAndBareDisk p d →
          m d = some (repoName "/r" d) :=
  have habs : abs treeAndBareDisk.getwd "/r" = .ok "/r" := rfl
  have h : findGitRepos treeAndBareDisk 3 "/r" =
      .ok (.ok (gitDirs "/r" ["/r/x/.git", "/r/x.git"])) := rfl
  ⟨habs, h, findGitRepos_finds_reached_repositories treeAndBareDisk 3 "/r" "/r" habs h⟩

/-! ## Repositories inside a repository -/

theorem FoundAt.unique {fs : FileSystem} {p d d' : String} (h : FoundAt fs p d)
    (h' : FoundAt fs p d') : d = d' := by
  rcases h with ⟨hg, rfl⟩ | ⟨hg, -, -, -, rfl⟩ <;> rcases h' with ⟨hg', rfl⟩ | ⟨hg', -, -, -, rfl⟩
  all_goals first | rfl | simp_all

theorem findFn_eq_ok_foundAt (fs : FileSystem) {name : String} {err : Option GoError}
    {dirs dirs' : List String} {r : Option WalkErr}
    (h : findFn fs name (fs.lstat name).toOption err dirs = .ok (r, dirs')) :
    (r = none ∧ dirs' = dirs ∧ ∀ d, ¬ FoundAt fs name d) ∨
      r = some .skipDir ∧ ∃ d, FoundAt fs name d ∧ dirs' = dirs ++ [d] := by
  by_cases hf : ∃ d, FoundAt fs name d
  · obtain ⟨d, hd⟩ := hf
    rw [findFn_of_foundAt fs hd] at h
    cases h
    exact .inr ⟨rfl, d, hd, rfl⟩
  · push_neg at hf
    rcases findFn_eq_ok fs h with ⟨rfl, rfl⟩ | ⟨-, ⟨hgit, -⟩ | ⟨hsuf, ⟨info, hfi, hdir⟩, hobj, -⟩⟩
    · exact .inl ⟨rfl, rfl, hf⟩
    · exact absurd (.inl ⟨hgit, rfl⟩) (hf _)
    · have hname : isDirAt fs name = true := by
        unfold isDirAt
        cases hl : fs.lstat name with
        | error e => rw [hl] at hfi; cases hfi
        | ok fi => rw [hl] at hfi; cases hfi; exact hdir
      cases hgit : isDirAt fs (join name ".git")
      · exact absurd (.inr ⟨hgit, hsuf, hname, hobj, rfl⟩) (hf _)
      · exact absurd (.inl ⟨hgit, rfl⟩) (hf _)

theorem findFn_goesInto (fs : FileSystem) :
    GoesInto fs (findFn fs) fun p _ ↦ ∀ d, ¬ FoundAt fs p d := by
  intro name info err st st' hl _ h
  rw [show some info = (fs.lstat name).toOption by rw [hl]; rfl] at h
  rcases findFn_eq_ok_foundAt fs h with ⟨-, -, hno⟩ | ⟨h, -⟩
  · exact hno
  · cases h

theorem findFn_keeps_foundAt (fs : FileSystem) (At : String → Prop) :
    Keeps fs (findFn fs) At fun dirs ↦ ∀ d ∈ dirs, ∃ p, At p ∧ FoundAt fs p d := by
  intro name err dirs r dirs' hat hinv h
  rcases findFn_eq_ok_foundAt fs h with ⟨-, rfl, -⟩ | ⟨-, d₀, hd₀, rfl⟩
  · exact hinv
  · intro d hd
    rcases List.mem_append.1 hd with hd | hd
    · exact hinv d hd
    · rw [List.mem_singleton.1 hd]
      exact ⟨name, hat, hd₀⟩

/-- The callback of `FindGitRepos` returns `SkipDir` at every working tree and bare repository, so
`Walk` never goes into one: every directory it returns is the repository of a path `p` (`p/.git`, or
`p` itself), and no other directory it returns lies inside `p`, such as a submodule checked out in a
working tree or a clone nested in it. -/
theorem findGitRepos_skips_nested_repositories (fs : FileSystem) (fuel : Nat) (arg : String)
    {m : String → Option String} (h : findGitRepos fs fuel arg = .ok (.ok m)) {d : String}
    (hd : m d ≠ none) :
    ∃ p, FoundAt fs p d ∧ ∀ d', m d' ≠ none → d' ≠ d → ¬ StrictlyInside d' p := by
  unfold findGitRepos at h
  split at h
  · cases h
  · next root habs =>
    obtain ⟨hroot, hks⟩ := abs_eq_render fs.getwd_abs habs
    split at h
    · cases h
    · cases h
    · next dirs hw =>
      cases h
      obtain ⟨r, hr⟩ := fs.walkTree_eq_ok _ hw
      have hout := walkTree_outcome_reaches (findFn_goesInto fs) haltsAt_false
        (findFn_keeps_foundAt fs (Reaches fs _ (fun _ ↦ False) root)) fuel
        (fun _ h ↦ absurd h (List.not_mem_nil _))
      rw [hr] at hout
      have hfound := fun d (hd : gitDirs root dirs d ≠ none) ↦
        hout d (gitDirs_eq_some (Option.ne_none_iff_exists'.1 hd).choose_spec).1
      obtain ⟨p, hp, hpd⟩ := hfound d hd
      refine ⟨p, hpd, fun d' hd' hne hin ↦ ?_⟩
      obtain ⟨p', hp', hpd'⟩ := hfound d' hd'
      rw [hroot] at hp hp'
      obtain ⟨mp, hmp, rfl, -⟩ := hp.below_root hks
      obtain ⟨mp', hmp', rfl, hdesc⟩ := hp'.below_root hks
      -- the walk went into every directory above `p'`, so `p` is not one of them
      have hnot : ∀ extra, mp' = extra ++ mp → extra = [] := by
        intro extra hsplit
        by_contra hne
        obtain ⟨fi, -, hno⟩ := hdesc extra mp hsplit hne
        exact hno d hpd
      obtain ⟨-, more, hmore, -, hkept⟩ := hin
      rw [(rooted_kept_render_of_cleanStack (hks.append hmp)).2] at hkept
      rcases id hpd' with ⟨-, rfl⟩ | ⟨-, -, -, -, rfl⟩
      · rw [show (".git" : String) = ⟨".git".data⟩ from rfl,
          join_render (hks.append hmp') (by decide),
          (rooted_kept_render_of_cleanStack ((hks.append hmp').cons (by decide))).2,
          ← List.cons_append, ← List.append_assoc] at hkept
        obtain ⟨a, more₁, rfl⟩ := List.exists_cons_of_ne_nil hmore
        have hsplit : mp' = more₁ ++ mp := (List.cons_eq_cons.1 (List.append_cancel_right hkept)).2
        obtain rfl := hnot more₁ hsplit
        exact hne (FoundAt.unique hpd' (by simpa [hsplit] using hpd))
      · rw [(rooted_kept_render_of_cleanStack (hks.append hmp')).2, ← List.append_assoc] at hkept
        exact hmore (hnot more (List.append_cancel_right hkept))

/-- A disk where `/r/x` is a working tree with another working tree, `sub`, checked out in it. -/
def nestedDisk : FileSystem where
  lstat p := if p = "/" ∨ p = "/r" ∨ p = "/r/x" ∨ p = "/r/x/.git" ∨ p = "/r/x/sub" ∨
      p = "/r/x/sub/.git" then .ok ⟨true, 0⟩ else .error .errNotExist
  stat p := if p = "/" ∨ p = "/r" ∨ p = "/r/x" ∨ p = "/r/x/.git" ∨ p = "/r/x/sub" ∨
      p = "/r/x/sub/.git" then .ok ⟨true, 0⟩ else .error .errNotExist
  readdir d := (if d = "/r" then ["x"] else if d = "/r/x" then [".git", "sub"]
    else if d = "/r/x/sub" then [".git"] else [], none)
  getwd := .ok "/"
  names_valid d n h := by
    simp only at h
    split_ifs at h <;> simp_all [ValidName]
    rcases h with rfl | rfl <;> decide
  getwd_abs _ h := by cases h; rfl

/-- `FindGitRepos("/r")` finds `x` and misses `sub`, though `/r/x/sub/.git` is a directory. -/
theorem findGitRepos_skips_nested_repositories_in_x :
    findGitRepos nestedDisk 3 "/r" = .ok (.ok (gitDirs "/r" ["/r/x/.git"])) ∧
      isDirAt nestedDisk "/r/x/sub/.git" = true ∧ gitDirs "/r" ["/r/x/.git"] "/r/x/sub/.git" = none ∧
      gitDirs "/r" ["/r/x/.git"] "/r/x/.git" ≠ none ∧
      ∃ p, FoundAt nestedDisk p "/r/x/.git" ∧ ∀ d', gitDirs "/r" ["/r/x/.git"] d' ≠ none →
        d' ≠ "/r/x/.git" → ¬ StrictlyInside d' p :=
  have h : findGitRepos nestedDisk 3 "/r" = .ok (.ok (gitDirs "/r" ["/r/x/.git"])) := rfl
  have hd : gitDirs "/r" ["/r/x/.git"] "/r/x/.git" ≠ none := by decide
  ⟨h, by decide, by decide, hd, findGitRepos_skips_nested_repositories nestedDisk 3 "/r" h hd⟩

/-! ## The names `FindGitRepos` gives -/

/-- When `refs` is missing, or the tree at it is readable within the budget (every path of it is
read by `lstat`, every directory that lists without an error at most that many levels deep),
`RepoModTime` returns, with no error. -/
theorem repoModTime_returns (fs : FileSystem) (fuel : Nat) (dir : String)
    (h : (∃ e, fs.lstat (join dir "refs") = .error e) ∨
      fs.readableTree fuel (join dir "refs") = true) :
    ∃ t, repoModTime fs fuel dir = .ok (t, none) := by
  unfold repoModTime
  split
  · exact ⟨_, rfl⟩
  · next info hl =>
    have hr : fs.readableTree fuel (join dir "refs") = true := h.resolve_left fun ⟨e, he⟩ ↦ by
      rw [hl] at he
      cases he
    have hfn : ∀ {name info err last a}, modTimeFn name (some info) err last ≠ .error a :=
      fun h ↦ by cases h
    obtain ⟨⟨e, last⟩, hw⟩ := walkTree_returns @hfn hr 0
    obtain rfl := (walkTree_visited (modTimeFn_records fs) hw).1
    rw [hw]
    exact ⟨_, rfl⟩

theorem repoModTime_returns_of_refs :
    refsDisk.readableTree 3 (join "/r" "refs") = true ∧
      ∃ t, repoModTime refsDisk 3 "/r" = .ok (t, none) :=
  have h : refsDisk.readableTree 3 (join "/r" "refs") = true := by decide
  ⟨h, repoModTime_returns refsDisk 3 "/r" (.inr h)⟩

/-- When `Abs` succeeds and the tree at the root it gives is readable within the budget,
`FindGitRepos` returns a map: it neither panics nor runs out of budget, and its walk returns no
error. -/
theorem findGitRepos_returns (fs : FileSystem) (fuel : Nat) (arg root : String)
    (habs : abs fs.getwd arg = .ok root) (h : fs.readableTree fuel root = true) :
    ∃ m, findGitRepos fs fuel arg = .ok (.ok m) := by
  have hfn : ∀ {name info err st a}, findFn fs name (some info) err st ≠ .error a :=
    fun h ↦ nomatch (findFn_eq_error fs h).2.2
  obtain ⟨⟨e, dirs⟩, hw⟩ := walkTree_returns @hfn h []
  obtain rfl := (walkTree_visited (findFn_records fs) hw).1
  rw [findGitRepos, habs]
  dsimp only
  rw [hw]
  exact ⟨_, rfl⟩

theorem findGitRepos_returns_at_r :
    abs treeAndBareDisk.getwd "/r" = .ok "/r" ∧ treeAndBareDisk.readableTree 3 "/r" = true ∧
      ∃ m, findGitRepos treeAndBareDisk 3 "/r" = .ok (.ok m) :=
  have habs : abs treeAndBareDisk.getwd "/r" = .ok "/r" := rfl
  have h : treeAndBareDisk.readableTree 3 "/r" = true := by decide
  ⟨habs, h, findGitRepos_returns treeAndBareDisk 3 "/r" "/r" habs h⟩

/-! ## Nil `FileInfo`s -/

/-- A disk where `/r/refs` lists `heads`, which `lstat` no longer finds. -/
def vanishedRefDisk : FileSystem where
  lstat p := if p = "/" ∨ p = "/r" ∨ p = "/r/refs" then .ok ⟨true, 0⟩ else .error .errNotExist
  stat p := if p = "/" ∨ p = "/r" ∨ p = "/r/refs" then .ok ⟨true, 0⟩ else .error .errNotExist
  readdir d := (if d = "/r/refs" then ["heads"] else [], none)
  getwd := .ok "/"
  names_valid d n h := by
    simp only at h
    split_ifs at h <;> simp_all [ValidName]
  getwd_abs _ h := by cases h; rfl

/-- `RepoModTime("/r")` panics on the vanished ref, and `FindGitRepos("/x.git")` on its missing
root. -/
theorem walk_callbacks_dereference_nil_info :
    repoModTime vanishedRefDisk 2 "/r" = .error .nilDereference ∧
      findGitRepos .empty 1 "/x.git" = .error .nilDereference :=
  ⟨rfl, rfl⟩

/-! ## Where the walks panic -/

/-- When `Abs` succeeds, `FindGitRepos` panics only at a path its walk reaches that `lstat` cannot
read, whose name ends in `.git` and that has no `.git` directory; and when there is such a path
it never returns, whatever the budget. -/
theorem findGitRepos_panics_only_at_unreadable_git_path (fs : FileSystem) (fuel : Nat)
    (arg root : String) (habs : abs fs.getwd arg = .ok root) :
    (findGitRepos fs fuel arg = .error .nilDereference →
      ∃ name, Reaches fs (fun p _ ↦ ∀ d, ¬ FoundAt fs p d) (LinkedTree fs) root name ∧
        UnreadableGitPath fs name) ∧
      ((∃ name, Reaches fs (fun p _ ↦ ∀ d, ¬ FoundAt fs p d) (LinkedTree fs) root name ∧
        UnreadableGitPath fs name) → ∀ r, findGitRepos fs fuel arg ≠ .ok r) := by
  rw [findGitRepos, habs]
  dsimp only
  refine ⟨fun h ↦ ?_, fun ⟨name, hq, hu⟩ r h ↦ ?_⟩
  · split at h
    · next a hw =>
      cases h
      have hout : WalkOutcome fs (findFn fs) (Reaches fs _ _ root) (fun _ ↦ True)
          (fs.walkRoot (findFn fs) fuel root []) :=
        walkTree_outcome_reaches (findFn_goesInto fs) (findFn_haltsAt fs)
          (fun _ _ _ _ _ _ _ _ ↦ trivial) fuel trivial
      rw [fs.walkTree_eq_error _ hw] at hout
      rcases hout with h | ⟨name, err, st, hat, -, hcall⟩
      · cases h
      · obtain ⟨hdir, hsuf, hfi⟩ := findFn_eq_error fs hcall
        refine ⟨name, hat, hsuf, hdir, ?_⟩
        cases hl : fs.lstat name with
        | error e => exact ⟨e, rfl⟩
        | ok fi => rw [hl] at hfi; cases hfi
    · cases h
    · cases h
  · -- a walk that returns has called its callback at every path it reaches
    split at h
    · cases h
    all_goals
      next hw =>
      exact ((walkTree_visited (findFn_records fs) hw).2.2 name hq).2 hu

theorem findGitRepos_panics_only_at_unreadable_git_path_of_missing_root :
    abs FileSystem.empty.getwd "/x.git" = .ok "/x.git" ∧
      findGitRepos .empty 1 "/x.git" = .error .nilDereference ∧
      (∃ name, Reaches .empty (fun p _ ↦ ∀ d, ¬ FoundAt .empty p d) (LinkedTree .empty) "/x.git" name ∧
        UnreadableGitPath .empty name) ∧
      ∀ r, findGitRepos .empty 3 "/x.git" ≠ .ok r :=
  have habs : abs FileSystem.empty.getwd "/x.git" = .ok "/x.git" := rfl
  have h : findGitRepos .empty 1 "/x.git" = .error .nilDereference := rfl
  have hu := (findGitRepos_panics_only_at_unreadable_git_path .empty 1 "/x.git" "/x.git" habs).1 h
  ⟨habs, h, hu, (findGitRepos_panics_only_at_unreadable_git_path .empty 3 "/x.git" "/x.git" habs).2 hu⟩

/-! ## A link to a working tree ends a listing

`Walk` treats a `SkipDir` returned on a path that is not a directory as "skip the rest of the
directory that holds it". `FindGitRepos`'s callback returns `SkipDir` on every path with a
`.git` directory, and `os.Lstat` of `p/.git` follows `p` when `p` is a symbolic link: on a link
to a working tree, the walk collects the link's `.git` and leaves the rest of the listing. -/

/-- `name` is the entry `x` of the directory written from `ks`, for some `x` of `X`, or lies
below it. -/
def UnderEntry (ks : List (List Char)) (X : List String) (name : String) : Prop :=
  ∃ x ∈ X, name = ⟨render true (x.data :: ks)⟩ ∨ Below true (x.data :: ks) name

theorem underEntry_iff {ks : List (List Char)} {X : List String} {name : String} :
    UnderEntry ks X name ↔ ∃ x ∈ X, ∃ more, (∀ y ∈ more, ValidName y) ∧
      name = ⟨render true (more ++ x.data :: ks)⟩ := by
  constructor
  · rintro ⟨x, hx, rfl | ⟨more, -, hmore, rfl⟩⟩
    exacts [⟨x, hx, [], List.forall_mem_nil _, rfl⟩, ⟨x, hx, more, hmore, rfl⟩]
  · rintro ⟨x, hx, more, hmore, rfl⟩
    by_cases hne : more = []
    · subst hne
      exact ⟨x, hx, .inl rfl⟩
    · exact ⟨x, hx, .inr ⟨more, hne, hmore, rfl⟩⟩

theorem findFn_keeps_underEntry (fs : FileSystem) {ks : List (List Char)}
    (hks : CleanStack true ks) {X : List String} (hX : ∀ x ∈ X, ValidName x.data) :
    Keeps fs (findFn fs) (UnderEntry ks X) fun dirs ↦ ∀ d ∈ dirs, UnderEntry ks X d := by
  intro name err dirs r dirs' hat hinv h
  obtain ⟨x, hx, more, hmore, hname⟩ := underEntry_iff.1 hat
  have hcs : CleanStack true (more ++ x.data :: ks) := (hks.cons (hX x hx)).append hmore
  rcases findFn_eq_ok fs h with ⟨-, rfl⟩ | ⟨-, ⟨-, rfl⟩ | ⟨-, -, -, rfl⟩⟩
  · exact hinv
  all_goals
    intro d hd
    rcases List.mem_append.1 hd with hd | hd
    · exact hinv d hd
    rw [List.mem_singleton.1 hd]
  · rw [hname, show (".git" : String) = ⟨".git".data⟩ from rfl, join_render hcs (by decide)]
    exact underEntry_iff.2 ⟨x, hx, ".git".data :: more, List.forall_mem_cons.2 ⟨by decide, hmore⟩,
      rfl⟩
  · exact hat

theorem not_at_or_inside_entry {ks : List (List Char)} (hks : CleanStack true ks)
    {x n : String} (hx : ValidName x.data) (hn : ValidName n.data) (hxn : x ≠ n)
    {more : List (List Char)} (hmore : ∀ y ∈ more, ValidName y) :
    (⟨render true (more ++ x.data :: ks)⟩ : String) ≠ ⟨render true (n.data :: ks)⟩ ∧
      ¬ StrictlyInside ⟨render true (more ++ x.data :: ks)⟩ ⟨render true (n.data :: ks)⟩ := by
  have hkept := (rooted_kept_render_of_cleanStack ((hks.cons hx).append hmore)).2
  have hkept' := (rooted_kept_render_of_cleanStack (hks.cons hn)).2
  -- the last of the names on top of `ks` is the entry
  have hlast : ∀ more', more ++ x.data :: ks = more' ++ n.data :: ks → False := by
    intro more' h
    rw [← List.singleton_append, ← List.append_assoc, ← List.singleton_append (l := ks),
      ← List.append_assoc] at h
    have := (List.append_inj' (List.append_cancel_right h) rfl).2
    exact hxn (String.ext (List.singleton_inj.1 this))
  refine ⟨fun h ↦ hlast [] ?_, fun hin ↦ ?_⟩
  · have hd : render true (more ++ x.data :: ks) = render true (n.data :: ks) :=
      congrArg String.data h
    rw [← hkept, ← hkept', hd]
    rfl
  · obtain ⟨-, more', -, -, h⟩ := hin
    exact hlast more' (by rw [← hkept, ← hkept']; exact h)

/-- Let an entry `e` of the directory `FindGitRepos` walks (itself no repository) be no directory
for `lstat`, and yet have a `.git` directory through it, as a symbolic link to a working tree has.
Its callback collects `e/.git` and returns `SkipDir`, and `Walk` then skips the rest of the root's
listing: no directory that `FindGitRepos` returns is an entry sorting after `e`, or lies inside one,
whatever repositories are there. -/
theorem findGitRepos_skips_entries_after_linked_worktree (fs : FileSystem) (fuel : Nat)
    {arg root e : String} {info fi : FileInfo} {pre post : List String}
    {m : String → Option String}
    (habs : abs fs.getwd arg = .ok root) (hroot : fs.lstat root = .ok info)
    (hdir : info.isDir = true) (hlist : (fs.readdir root).2 = none)
    (hsorted : sortStrings (fs.readdir root).1 = pre ++ e :: post)
    (hnotree : isDirAt fs (join root ".git") = false)
    (hnotbare : hasSuffix root ".git" = false ∨ isDirAt fs (join root "objects") = false)
    (hlink : fs.lstat (join root e) = .ok fi) (hfile : fi.isDir = false)
    (hgit : isDirAt fs (join (join root e) ".git") = true)
    (h : findGitRepos fs fuel arg = .ok (.ok m)) :
    ∀ n ∈ post, n ∉ pre → n ≠ e → ∀ d, m d ≠ none →
      d ≠ join root n ∧ ¬ StrictlyInside d (join root n) := by
  obtain ⟨hroot_eq, hcs⟩ := abs_eq_render fs.getwd_abs habs
  set ks := kept root.data
  have hvalid : ∀ x ∈ pre ++ e :: post, ValidName x.data := fun x hx ↦
    fs.names_valid root x (mem_sortStrings.1 (hsorted ▸ hx))
  have hupto : ∀ x ∈ pre ++ [e], x ∈ pre ++ e :: post :=
    (((List.nil_sublist post).cons₂ e).append_left pre).subset
  have hjoin : ∀ x ∈ pre ++ e :: post, join root x = ⟨render true (x.data :: ks)⟩ := fun x hx ↦ by
    rw [hroot_eq]
    exact join_render hcs (hvalid x hx)
  -- the walk of the root, with no repository at the root, lists `pre`, then `e`, then stops
  obtain ⟨dirs, hw, rfl⟩ : ∃ dirs, fs.walkTree (findFn fs) fuel root [] = .ok (none, dirs) ∧
      m = gitDirs root dirs := by
    unfold findGitRepos at h
    rw [habs] at h
    dsimp only at h
    split at h
    · cases h
    · cases h
    · next dirs hw =>
      cases h
      exact ⟨dirs, hw, rfl⟩
  obtain ⟨r, hr⟩ := fs.walkTree_eq_ok _ hw
  have hstart : findFn fs root (some info) none [] = .ok (none, []) := by
    rcases hnotbare with hs | hs <;> simp [findFn, hnotree, hs, hdir]
  have hnames : fs.readDirNames root = (pre ++ e :: post, none) := by
    rw [FileSystem.readDirNames, show fs.readdir root = ((fs.readdir root).1, none) by
      rw [← hlist]]
    exact congrArg (·, none) hsorted
  have hat : ∀ x ∈ pre, ∀ name, (name = join root x ∨ Below true (x.data :: ks) name) →
      UnderEntry ks pre name := fun x hx name hname ↦
    ⟨x, hx, by rwa [← hjoin x (by simp [hx])]⟩
  have hkeep : Keeps fs (findFn fs) (UnderEntry ks pre) fun dirs ↦ ∀ d ∈ dirs, UnderEntry ks pre d :=
    findFn_keeps_underEntry fs hcs fun x hx ↦ hvalid x (by simp [hx])
  obtain ⟨f, rfl⟩ : ∃ f, fuel = f + 1 := by
    cases fuel with
    | zero => simp [FileSystem.walkRoot, hroot, FileSystem.walk] at hr
    | succ f => exact ⟨f, rfl⟩
  simp only [FileSystem.walkRoot, hroot, FileSystem.walk, hdir, Bool.not_true, Bool.false_eq_true,
    ↓reduceIte, hstart, hnames, Option.isSome_none, Option.isSome, Bool.or_false,
    FileSystem.walkNames_append] at hr
  -- every directory collected over `pre` lies below an entry of `pre`
  have hpre : WalkOutcome fs (findFn fs) (UnderEntry ks pre) (fun dirs ↦ ∀ d ∈ dirs, UnderEntry ks pre d)
      (fs.walkNames (findFn fs) (fs.walk (findFn fs) f) root pre []) :=
    walkNames_outcome_of_entries (fun x hx err st hl hst ↦ by
      simpa [hl] using walkOutcome_call hkeep (some err) (hat x hx _ (.inl rfl)) hst)
    (fun x hx fi st hl hst ↦ by
      have hx' := hjoin x (by simp [hx])
      rw [hx'] at hl ⊢
      exact walk_outcome hkeep (fun n hn ↦ hat x hx n (.inr hn)) (hcs.cons (hvalid x (by simp [hx])))
        f (List.forall_mem_nil _) (hat x hx _ (.inl hx'.symm)) hl hst)
    (fun _ h ↦ nomatch h)
  have hdirs : ∀ d ∈ dirs, UnderEntry ks (pre ++ [e]) d := by
    have hmono : ∀ d, UnderEntry ks pre d → UnderEntry ks (pre ++ [e]) d :=
      fun d ⟨x, hx, h⟩ ↦ ⟨x, by simp [hx], h⟩
    revert hr hpre
    cases fs.walkNames (findFn fs) (fs.walk (findFn fs) f) root pre [] with
    | error a => intro hr; cases hr
    | ok p =>
      obtain ⟨r₁, st₁⟩ := p
      intro hr hpre
      cases r₁ with
      | some r₁ =>
        cases hr
        exact fun d hd ↦ hmono d (hpre d hd)
      | none =>
        -- the link: its callback collects `e/.git` and stops the listing
        have he : join (join root e) ".git" = ⟨render true (".git".data :: e.data :: ks)⟩ := by
          rw [hjoin e (by simp), show (".git" : String) = ⟨".git".data⟩ from rfl,
            join_render (hcs.cons (hvalid e (by simp))) (by decide)]
        cases f with
        | zero => simp [Except.bind, FileSystem.walkNames, hlink, FileSystem.walk] at hr
        | succ f =>
          simp [Except.bind, FileSystem.walkNames, hlink, FileSystem.walk, hfile, findFn, hgit] at hr
          obtain ⟨-, rfl⟩ := hr
          intro d hd
          rcases List.mem_append.1 hd with hd | hd
          · exact hmono d (hpre d hd)
          · rw [List.mem_singleton.1 hd, he]
            exact ⟨e, by simp, .inr ⟨[".git".data], by simp, by simp; decide, rfl⟩⟩
  intro n hn hnpre hne d hd
  obtain ⟨x, hx, more, hmore, rfl⟩ := underEntry_iff.1
    (hdirs d (gitDirs_eq_some (Option.ne_none_iff_exists'.1 hd).choose_spec).1)
  have hxn : x ≠ n := by
    rintro rfl
    rcases List.mem_append.1 hx with hx | hx
    exacts [hnpre hx, hne (List.mem_singleton.1 hx)]
  rw [hjoin n (by simp [hn])]
  exact not_at_or_inside_entry hcs (hvalid x (hupto x hx)) (hvalid n (by simp [hn])) hxn hmore

/-- A disk where `/r` holds `a`, a symbolic link to a working tree (`lstat` sees no directory,
but a `.git` directory through it), and `b`, a working tree. -/
def linkDisk : FileSystem where
  lstat p := if p = "/" ∨ p = "/r" ∨ p = "/r/a/.git" ∨ p = "/r/b" ∨ p = "/r/b/.git" then
      .ok ⟨true, 0⟩
    else if p = "/r/a" then .ok ⟨false, 0⟩ else .error .errNotExist
  stat p := if p = "/" ∨ p = "/r" ∨ p = "/r/a" ∨ p = "/r/a/.git" ∨ p = "/r/b" ∨ p = "/r/b/.git"
    then .ok ⟨true, 0⟩ else .error .errNotExist
  readdir d := (if d = "/r" then ["a", "b"] else [], none)
  getwd := .ok "/"
  names_valid d n h := by
    simp only at h
    split_ifs at h <;> simp_all [ValidName]
    rcases h with rfl | rfl <;> decide
  getwd_abs _ h := by cases h; rfl

/-- `FindGitRepos("/r")` finds the link's repository and misses the working tree `b`. -/
theorem findGitRepos_skips_entries_after_linked_worktree_at_r :
    findGitRepos linkDisk 3 "/r" = .ok (.ok (gitDirs "/r" ["/r/a/.git"])) ∧
      isDirAt linkDisk (join "/r/b" ".git") = true ∧
      ∀ d, gitDirs "/r" ["/r/a/.git"] d ≠ none →
        d ≠ join "/r" "b" ∧ ¬ StrictlyInside d (join "/r" "b") :=
  have h : findGitRepos linkDisk 3 "/r" = .ok (.ok (gitDirs "/r" ["/r/a/.git"])) := rfl
  ⟨h, by decide, @findGitRepos_skips_entries_after_linked_worktree linkDisk 3 "/r" "/r" "a"
    ⟨true, 0⟩ ⟨false, 0⟩ [] ["b"] _ rfl rfl rfl rfl (by decide) (by decide) (.inl (by decide)) rfl
    rfl (by decide) h "b" (by simp) (by simp) (by decide)⟩

end Zoekt.Gitindex
