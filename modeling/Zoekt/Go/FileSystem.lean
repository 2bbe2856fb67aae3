import Mathlib.Data.List.Sort
import Zoekt.Go.Match

/-!
# The file system, `filepath.Glob` and `filepath.Walk`

The modelled code reads the file system through `os.Lstat`, `os.Stat`, directory listings
and `os.Getwd`. A `FileSystem` is what those calls answer at the time of the call. The two
`stat` functions and the listing are independent, so a name that a listing returns may have
vanished by the time it is `lstat`ed, which is how a concurrent removal shows up.

`glob` and `walk` follow `path/filepath`: `Glob` expands the directory part of a pattern
first and ignores I/O errors, and `Walk` visits a tree in lexical order, hands `lstat`
failures to the callback with no `FileInfo`, and honours `SkipDir`. A Go call can panic;
the walk also carries a depth budget (`fuel`), so that it is a total function on any file
system, including one whose listings never end.
-/

namespace Zoekt.Go

open Filepath

/-- What `os.Lstat` or `os.Stat` reports: whether the file is a directory, and its
modification time. -/
structure FileInfo where
  isDir : Bool
  modTime : Nat
  deriving DecidableEq, Repr

/-- The file system as the calls of the modelled code see it. -/
structure FileSystem where
  lstat : String → Except GoError FileInfo
  /-- `os.Stat`, which follows symbolic links. -/
  stat : String → Except GoError FileInfo
  /-- Opening a directory and `Readdirnames(-1)`: the names read, and the error that
  stopped the listing (an unopenable directory lists nothing). -/
  readdir : String → List String × Option GoError
  getwd : Except GoError String
  names_valid : ∀ dir, ∀ n ∈ (readdir dir).1, ValidName n.data
  getwd_abs : ∀ wd, getwd = .ok wd → isAbs wd = true

/-- The file system with nothing but its root directory, which lists nothing. -/
def FileSystem.empty : FileSystem where
  lstat p := if p = "/" then .ok ⟨true, 0⟩ else .error .errNotExist
  stat p := if p = "/" then .ok ⟨true, 0⟩ else .error .errNotExist
  readdir _ := ([], none)
  getwd := .ok "/"
  names_valid _ _ h := nomatch h
  getwd_abs _ h := by cases h; rfl

/-- Go's `<` on strings: lexicographic on the characters, as on their UTF-8 bytes. -/
def stringLess : List Char → List Char → Bool
  | _, [] => false
  | [], _ :: _ => true
  | a :: as, b :: bs => a.toNat < b.toNat || (a = b && stringLess as bs)

/-- `sort.Strings`: ascending order. -/
def sortStrings (names : List String) : List String :=
  names.insertionSort fun a b ↦ !stringLess b.data a.data

theorem mem_sortStrings {names : List String} {n : String} : n ∈ sortStrings names ↔ n ∈ names :=
  (List.perm_insertionSort _ names).mem_iff

theorem stringLess_irrefl : ∀ a : List Char, stringLess a a = false
  | [] => rfl
  | c :: cs => by simp [stringLess, stringLess_irrefl cs]

theorem stringLess_trichotomy :
    ∀ a b : List Char, stringLess a b = true ∨ a = b ∨ stringLess b a = true
  | [], [] => .inr (.inl rfl)
  | [], _ :: _ => .inl rfl
  | _ :: _, [] => .inr (.inr rfl)
  | c :: cs, d :: ds => by
    rcases Nat.lt_trichotomy c.toNat d.toNat with h | h | h
    · simp [stringLess, h]
    · have hcd : c = d := by rw [← Char.ofNat_toNat c, h, Char.ofNat_toNat]
      subst hcd
      rcases stringLess_trichotomy cs ds with h' | rfl | h' <;> simp [stringLess, *]
    · simp [stringLess, h]

theorem stringLess_trans :
    ∀ {a b c : List Char}, stringLess a b = true → stringLess b c = true → stringLess a c = true
  | _, _, [], _, h => by simp [stringLess] at h
  | [], _ :: _, _ :: _, _, _ => rfl
  | _ :: _, [], _, h, _ => by simp [stringLess] at h
  | x :: xs, y :: ys, z :: zs, h₁, h₂ => by
    simp only [stringLess, Bool.or_eq_true, decide_eq_true_eq, Bool.and_eq_true] at h₁ h₂ ⊢
    rcases h₁ with h₁ | ⟨rfl, h₁⟩ <;> rcases h₂ with h₂ | ⟨rfl, h₂⟩
    · exact .inl (h₁.trans h₂)
    · exact .inl h₁
    · exact .inl h₂
    · exact .inr ⟨rfl, stringLess_trans h₁ h₂⟩

theorem stringLess_asymm {a b : List Char} (h : stringLess a b = true) : stringLess b a = false :=
  Bool.eq_false_iff.2 fun h' ↦ by simpa [stringLess_irrefl] using stringLess_trans h h'

theorem sortStrings_eq_of_perm {names names' : List String} (h : names.Perm names') :
    sortStrings names = sortStrings names' := by
  let r : String → String → Prop := fun a b ↦ (!stringLess b.data a.data) = true
  have htotal : IsTotal String r := ⟨fun a b ↦ by
    rcases stringLess_trichotomy a.data b.data with h | h | h
    · exact .inl (by simp [r, stringLess_asymm h])
    · exact .inl (by simp [r, h, stringLess_irrefl])
    · exact .inr (by simp [r, stringLess_asymm h])⟩
  have htrans : IsTrans String r := ⟨fun a b c hab hbc ↦ by
    simp only [r, Bool.not_eq_true', Bool.not_eq_eq_eq_not, Bool.not_true] at *
    refine Bool.eq_false_iff.2 fun hca ↦ ?_
    rcases stringLess_trichotomy a.data b.data with h | h | h
    · simp [stringLess_trans hca h] at hbc
    · simp [← h, hca] at hbc
    · simp [h] at hab⟩
  have hanti : IsAntisymm String r := ⟨fun a b hab hba ↦ by
    rcases stringLess_trichotomy a.data b.data with h | h | h
    · simp_all [r]
    · exact String.ext h
    · simp_all [r]⟩
  exact List.eq_of_perm_of_sorted
    (((List.perm_insertionSort r names).trans h).trans (List.perm_insertionSort r names').symm)
    (List.sorted_insertionSort r names) (List.sorted_insertionSort r names')

namespace FileSystem

variable (fs : FileSystem)

/-- The sorted names in `dir` if `os.Stat` finds it to be a directory, as `glob` lists them. -/
def entries (dir : String) : List String :=
  match fs.stat dir with
  | .ok fi => if fi.isDir then sortStrings (fs.readdir dir).1 else []
  | .error _ => []

/-- `glob`'s loop over the sorted names of `dir`: matching names are joined to `dir` and
appended; a malformed pattern stops the loop with the matches found so far. -/
def globNames (dir pattern : String) : List String → List String → List String × Option GoError
  | [], m => (m, none)
  | n :: ns, m =>
    match matchPattern (bytes pattern) (bytes n) with
    | .error e => (m, some e)
    | .ok true => globNames dir pattern ns (m ++ [join dir n])
    | .ok false => globNames dir pattern ns m

/-- `glob`: the names in `dir` that match `pattern`, appended to `found`; I/O errors are
ignored. -/
def globDir (dir pattern : String) (found : List String) : List String × Option GoError :=
  match fs.stat dir with
  | .ok fi => if fi.isDir then globNames dir pattern (sortStrings (fs.readdir dir).1) found
    else (found, none)
  | .error _ => (found, none)

/-- `Glob`'s loop over the directories its directory pattern expanded to. -/
def globEach (file : String) : List String → List String → List String × Option GoError
  | [], found => (found, none)
  | d :: ds, found =>
    match fs.globDir d file found with
    | (found, some e) => (found, some e)
    | (found, none) => globEach file ds found

theorem cleanGlobPath_length_lt {pattern : String}
    (h : hasMeta (cleanGlobPath (split pattern).1) = true) :
    (cleanGlobPath (split pattern).1).data.length < pattern.data.length := by
  by_cases h1 : (split pattern).1 = ""
  · rw [cleanGlobPath, if_pos h1] at h
    exact absurd h (by decide)
  by_cases h2 : (split pattern).1 = "/"
  · rw [cleanGlobPath, if_neg h1, if_pos h2, h2] at h
    exact absurd h (by decide)
  have hne : (split pattern).1.data ≠ [] := fun h3 ↦ h1 (String.ext h3)
  have hle : (split pattern).1.data.length ≤ pattern.data.length := List.length_take_le' _ _
  have := List.length_pos_of_ne_nil hne
  rw [cleanGlobPath, if_neg h1, if_neg h2]
  show (split pattern).1.data.dropLast.length < _
  rw [List.length_dropLast]
  omega

/-- `filepath.Glob`: the matches of `pattern`, and the error that cut the expansion short. -/
def glob (pattern : String) : List String × Option GoError :=
  if !hasMeta pattern then
    match fs.lstat pattern with
    | .ok _ => ([pattern], none)
    | .error _ => ([], none)
  else
    let dir := cleanGlobPath (split pattern).1
    let file := (split pattern).2
    if _hdir : hasMeta dir = false then fs.globDir dir file []
    else if dir = pattern then ([], some errBadPattern)
    else
      match glob dir with
      | (_, some e) => ([], some e)
      | (m, none) => fs.globEach file m []
termination_by pattern.data.length
decreasing_by exact cleanGlobPath_length_lt (by simpa using _hdir)

/-! ## Globbing the entries of a directory -/

theorem globNames_star (dir : String) {names : List String} (h : ∀ n ∈ names, '/' ∉ n.data)
    (found : List String) :
    globNames dir "*" names found = (found ++ names.map (join dir), none) := by
  induction names generalizing found with
  | nil => simp [globNames]
  | cons n ns ih =>
    have hn : (47 : UInt8) ∉ bytes n := fun h' ↦ h n (by simp) (sep_mem_bytes h')
    rw [globNames, matchPattern_star]
    simp [hn, ih (fun m hm ↦ h m (by simp [hm]))]

theorem hasMeta_append_star (dir : String) : hasMeta (dir ++ "/*") = true := by
  simp [hasMeta]

theorem split_append_star (dir : String) : split (dir ++ "/*") = (dir ++ "/", "*") := by
  simp [split, String.ext_iff, List.takeWhile, List.take_append_eq_append_take]

theorem cleanGlobPath_append_sep {dir : String} (hne : dir ≠ "") : cleanGlobPath (dir ++ "/") = dir := by
  have h1 : dir ++ "/" ≠ "" := by simp [String.ext_iff]
  have h2 : dir ++ "/" ≠ "/" := by simpa [String.ext_iff] using hne
  simp [cleanGlobPath, h1, h2, String.ext_iff]

/-- The pattern `dir/*` of a directory without pattern characters expands to the entries of
`dir`, each joined to it, with no error. -/
theorem glob_append_star {dir : String} (hm : hasMeta dir = false) (hne : dir ≠ "") :
    fs.glob (dir ++ "/*") = ((fs.entries dir).map (join dir), none) := by
  rw [glob, hasMeta_append_star, split_append_star, cleanGlobPath_append_sep hne]
  simp only [Bool.not_true, Bool.false_eq_true, ↓reduceIte, hm, ↓reduceDIte]
  unfold globDir entries
  split
  · split
    · rw [globNames_star]
      · simp
      · intro n hn
        exact (fs.names_valid dir n (mem_sortStrings.mp hn)).2.2.2
    · rfl
  · rfl

theorem globDir_star (dir : String) (found : List String) :
    fs.globDir dir "*" found = (found ++ (fs.entries dir).map (join dir), none) := by
  unfold globDir entries
  split
  · split
    · exact globNames_star dir (fun n hn ↦ (fs.names_valid dir n (mem_sortStrings.mp hn)).2.2.2) _
    · simp
  · simp

theorem globEach_star (dirs found : List String) :
    fs.globEach "*" dirs found = (found ++ dirs.flatMap fun d ↦ (fs.entries d).map (join d), none) := by
  induction dirs generalizing found with
  | nil => simp [globEach]
  | cons d ds ih => simp [globEach, globDir_star, ih]

/-- The pattern `dir/*` of a directory pattern expands to the entries of every directory that
`dir` matches, each joined to it, in the order `Glob` finds the directories; an error in
expanding `dir` gives no match. -/
theorem glob_append_star_of_hasMeta {dir : String} (hm : hasMeta dir = true) (hne : dir ≠ "") :
    fs.glob (dir ++ "/*") = match fs.glob dir with
      | (_, some e) => ([], some e)
      | (dirs, none) => (dirs.flatMap fun d ↦ (fs.entries d).map (join d), none) := by
  have hne' : dir ≠ dir ++ "/*" := fun h ↦ by
    have hlen := congrArg String.length h
    rw [String.length_append, show "/*".length = 2 from rfl] at hlen
    omega
  rw [glob, hasMeta_append_star, split_append_star, cleanGlobPath_append_sep hne]
  simp only [Bool.not_true, Bool.false_eq_true, ↓reduceIte, hm, Bool.true_eq_false, ↓reduceDIte,
    hne']
  split <;> simp [globEach_star]

end FileSystem

end Zoekt.Go
