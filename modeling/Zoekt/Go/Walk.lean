import Zoekt.Go.FileSystem

/-!
# `filepath.Walk`

`Walk` visits a tree in lexical order, calling its callback on every path it reaches. As in
Go 1.10, a directory is listed before the callback is called on it; an entry that `lstat`
cannot read is handed to the callback with a nil `FileInfo`; and a callback's `SkipDir`
skips the directory it was called on. The callback is a closure: it reads and writes a state,
and it can panic. The walk carries a depth budget (`fuel`), so that it is a total function on
any file system, including one whose directories nest without end.

The main lemma, `walk_outcome`, says once what any walk can end in: every callback call is
made at a path below the root with that path's own `lstat` answer, so an invariant that each
such call keeps holds at the end, and an abort is the end of the budget or an abort of one
such call. `Reaches` follows the walk down the tree: through the directories the callback goes
into, up to an entry that halts its listing (a file where the callback returns `SkipDir`). A
walk that returns has called its callback at every path it reaches (`walk_visited`), and, when
the callback goes into a directory only where it says so and halts a listing wherever it says
so (`GoesInto`, `HaltsAt`), at no other path (`walk_outcome_reaches`). And a walk whose
callback aborts only without a `FileInfo` returns on a tree that `lstat` reads throughout and
that is no deeper than its budget (`walk_returns`).
-/

namespace Zoekt.Go

open Filepath

/-- Why a call stops without returning: a nil pointer dereference, which panics, or the end
of the depth budget. -/
inductive Abort where
  | nilDereference
  | outOfFuel
  deriving DecidableEq, Repr

/-- A non-nil error of a `WalkFunc`: `filepath.SkipDir`, or another error. -/
inductive WalkErr where
  | skipDir
  | fail (e : GoError)
  deriving DecidableEq, Repr

/-- A `WalkFunc` closing over a state: called with a path, its `FileInfo` (none for nil) and
an error, it returns its error and the new state, or panics. -/
abbrev WalkFn (σ : Type) :=
  String → Option FileInfo → Option GoError → σ → Except Abort (Option WalkErr × σ)

namespace FileSystem

variable (fs : FileSystem) {σ : Type} (fn : WalkFn σ)

/-- `readDirNames`: the sorted names of a directory, or the error of listing it. -/
def readDirNames (dir : String) : List String × Option GoError :=
  match fs.readdir dir with
  | (names, none) => (sortStrings names, none)
  | (_, some err) => ([], some err)

/-- The loop of `walk` over the names of `path`: an entry that `lstat` cannot read goes to
`fn` with no `FileInfo`; another is walked by `sub`. -/
def walkNames (sub : String → FileInfo → σ → Except Abort (Option WalkErr × σ)) (path : String) :
    List String → σ → Except Abort (Option WalkErr × σ)
  | [], st => .ok (none, st)
  | name :: names, st =>
    match fs.lstat (join path name) with
    | .error err =>
      match fn (join path name) none (some err) st with
      | .error a => .error a
      | .ok (some (.fail e), st) => .ok (some (.fail e), st)
      | .ok (_, st) => walkNames sub path names st
    | .ok fi =>
      match sub (join path name) fi st with
      | .error a => .error a
      | .ok (none, st) => walkNames sub path names st
      | .ok (some .skipDir, st) =>
        if fi.isDir then walkNames sub path names st else .ok (some .skipDir, st)
      | .ok (some (.fail e), st) => .ok (some (.fail e), st)

/-- `walk`: `fn` on `path`, then, for a directory that could be listed and that `fn` did not
stop at, its entries. -/
def walk : Nat → String → FileInfo → σ → Except Abort (Option WalkErr × σ)
  | 0, _, _, _ => .error .outOfFuel
  | fuel + 1, path, info, st =>
    if !info.isDir then fn path (some info) none st
    else
      match fn path (some info) (fs.readDirNames path).2 st with
      | .error a => .error a
      | .ok (err1, st) =>
        if (fs.readDirNames path).2.isSome || err1.isSome then .ok (err1, st)
        else fs.walkNames fn (walk fuel) path (fs.readDirNames path).1 st

/-- What `Walk` returns for the walk's error: a final `SkipDir` is no error. -/
def WalkErr.toError : Option WalkErr → Option GoError
  | some (.fail e) => some e
  | _ => none

/-- The walk `Walk` starts: the root is `lstat`ed first. -/
def walkRoot (fuel : Nat) (root : String) (st : σ) : Except Abort (Option WalkErr × σ) :=
  match fs.lstat root with
  | .error err => fn root none (some err) st
  | .ok info => fs.walk fn fuel root info st

/-- `filepath.Walk`. -/
def walkTree (fuel : Nat) (root : String) (st : σ) : Except Abort (Option GoError × σ) :=
  (fs.walkRoot fn fuel root st).map fun (r : Option WalkErr × σ) ↦ (WalkErr.toError r.1, r.2)

theorem walkTree_eq_ok {fuel : Nat} {root : String} {st st' : σ} {e : Option GoError}
    (h : fs.walkTree fn fuel root st = .ok (e, st')) : ∃ r, fs.walkRoot fn fuel root st = .ok (r, st') := by
  unfold walkTree at h
  cases hr : fs.walkRoot fn fuel root st with
  | error a => rw [hr] at h; cases h
  | ok p =>
    rw [hr] at h
    cases h
    exact ⟨p.1, rfl⟩

theorem walkTree_eq_error {fuel : Nat} {root : String} {st : σ} {a : Abort}
    (h : fs.walkTree fn fuel root st = .error a) : fs.walkRoot fn fuel root st = .error a := by
  unfold walkTree at h
  cases hr : fs.walkRoot fn fuel root st with
  | error a' => rw [hr] at h; cases h; rfl
  | ok p => rw [hr] at h; cases h

theorem mem_readDirNames {dir n : String} (h : n ∈ (fs.readDirNames dir).1) :
    n ∈ (fs.readdir dir).1 := by
  unfold readDirNames at h
  split at h
  · next names hr => simpa [hr] using mem_sortStrings.mp h
  · simp at h

theorem walkNames_append (sub : String → FileInfo → σ → Except Abort (Option WalkErr × σ))
    (path : String) (l₁ l₂ : List String) (st : σ) :
    fs.walkNames fn sub path (l₁ ++ l₂) st =
      (fs.walkNames fn sub path l₁ st).bind fun r ↦
        if r.1.isNone then fs.walkNames fn sub path l₂ r.2 else .ok r := by
  induction l₁ generalizing st with
  | nil => rfl
  | cons n l₁ ih =>
    simp only [List.cons_append, walkNames]
    split
    · split <;> simp_all [Except.bind]
    · split
      · rfl
      · exact ih _
      · split <;> simp_all [Except.bind]
      · rfl

end FileSystem

/-! ## What a walk can end in -/

/-- `name` lies below the clean path written from `root` and `ks`: it is that path with one or
more names added. -/
def Below (root : Bool) (ks : List (List Char)) (name : String) : Prop :=
  ∃ more, more ≠ [] ∧ (∀ e ∈ more, ValidName e) ∧ name = ⟨render root (more ++ ks)⟩

section Outcome

variable (fs : FileSystem) {σ : Type} (fn : WalkFn σ) (At : String → Prop) (Inv : σ → Prop)

/-- What a walk can end in, for the paths `At` it calls `fn` on and an invariant of the
callback's state: a result whose state keeps the invariant, the end of the budget, or an abort
of one call of `fn` at a path of `At`, made with that path's own `lstat` answer and a state that
keeps the invariant. -/
def WalkOutcome {α : Type} : Except Abort (α × σ) → Prop
  | .ok (_, st) => Inv st
  | .error a => a = .outOfFuel ∨
    ∃ name err st, At name ∧ Inv st ∧ fn name (fs.lstat name).toOption err st = .error a

/-- Every call of `fn` at a path of `At`, made with that path's `lstat` answer, keeps the
invariant. -/
def Keeps : Prop :=
  ∀ name err st r st', At name → Inv st →
    fn name (fs.lstat name).toOption err st = .ok (r, st') → Inv st'

variable {fs fn At Inv}

theorem walkOutcome_call (hkeep : Keeps fs fn At Inv) {name : String} (err : Option GoError)
    {st : σ} (hat : At name) (hst : Inv st) :
    WalkOutcome fs fn At Inv (fn name (fs.lstat name).toOption err st) := by
  cases h : fn name (fs.lstat name).toOption err st with
  | error a => exact .inr ⟨name, err, st, hat, hst, h⟩
  | ok r => exact hkeep name err st r.1 r.2 hat hst h

theorem WalkOutcome.mono {At' : String → Prop} (hAt : ∀ n, At n → At' n) {α : Type}
    {r : Except Abort (α × σ)} (h : WalkOutcome fs fn At Inv r) : WalkOutcome fs fn At' Inv r := by
  cases r with
  | ok p => exact h
  | error a =>
    rcases h with h | ⟨name, err, st, hat, hst, h⟩
    · exact .inl h
    · exact .inr ⟨name, err, st, hAt name hat, hst, h⟩

theorem walkNames_outcome_of_entries {sub : String → FileInfo → σ → Except Abort (Option WalkErr × σ)}
    {path : String} {names : List String}
    (herr : ∀ n ∈ names, ∀ err st, fs.lstat (join path n) = .error err → Inv st →
      WalkOutcome fs fn At Inv (fn (join path n) none (some err) st))
    (hok : ∀ n ∈ names, ∀ fi st, fs.lstat (join path n) = .ok fi → Inv st →
      WalkOutcome fs fn At Inv (sub (join path n) fi st))
    {st : σ} (hst : Inv st) : WalkOutcome fs fn At Inv (fs.walkNames fn sub path names st) := by
  induction names generalizing st with
  | nil => exact hst
  | cons n names ih =>
    have ih' := @ih (fun n' h' ↦ herr n' (List.mem_cons_of_mem _ h'))
      (fun n' h' ↦ hok n' (List.mem_cons_of_mem _ h'))
    rw [FileSystem.walkNames]
    cases hl : fs.lstat (join path n) with
    | error err =>
      have hcall := herr n (List.mem_cons_self _ _) err st hl hst
      dsimp only
      generalize fn (join path n) none (some err) st = r at hcall ⊢
      rcases r with a | ⟨_ | ⟨_ | e⟩, st'⟩
      exacts [hcall, ih' hcall, ih' hcall, hcall]
    | ok fi =>
      have hw := hok n (List.mem_cons_self _ _) fi st hl hst
      dsimp only
      generalize sub (join path n) fi st = r at hw ⊢
      rcases r with a | ⟨_ | ⟨_ | e⟩, st'⟩
      · exact hw
      · exact ih' hw
      · dsimp only
        split
        · exact ih' hw
        · exact hw
      · exact hw

variable {root : Bool} {ks : List (List Char)}

theorem walkNames_outcome (hkeep : Keeps fs fn At Inv) (hAt : ∀ n, Below root ks n → At n)
    {sub : String → FileInfo → σ → Except Abort (Option WalkErr × σ)}
    (hsub : ∀ name fi st, Below root ks name → fs.lstat name = .ok fi → Inv st →
      WalkOutcome fs fn At Inv (sub name fi st))
    {more : List (List Char)} (hks : CleanStack root (more ++ ks)) (hmore : ∀ e ∈ more, ValidName e)
    {names : List String} (hnames : ∀ n ∈ names, n ∈ (fs.readdir ⟨render root (more ++ ks)⟩).1)
    {st : σ} (hst : Inv st) :
    WalkOutcome fs fn At Inv (fs.walkNames fn sub ⟨render root (more ++ ks)⟩ names st) := by
  induction names generalizing st with
  | nil => exact hst
  | cons n names ih =>
    have hn := fs.names_valid _ n (hnames n (List.mem_cons_self _ _))
    have hb : Below root ks (join ⟨render root (more ++ ks)⟩ n) :=
      ⟨n.data :: more, List.cons_ne_nil _ _, List.forall_mem_cons.2 ⟨hn, hmore⟩, join_render hks hn⟩
    have hrest : ∀ n' ∈ names, n' ∈ (fs.readdir ⟨render root (more ++ ks)⟩).1 :=
      fun n' h' ↦ hnames n' (List.mem_cons_of_mem _ h')
    rw [FileSystem.walkNames]
    cases hl : fs.lstat (join ⟨render root (more ++ ks)⟩ n) with
    | error err =>
      have hcall := walkOutcome_call hkeep (some err) (hAt _ hb) hst
      rw [hl] at hcall
      dsimp only [Except.toOption] at hcall ⊢
      generalize fn (join ⟨render root (more ++ ks)⟩ n) none (some err) st = r at hcall ⊢
      rcases r with a | ⟨_ | ⟨_ | e⟩, st'⟩
      exacts [hcall, ih hrest hcall, ih hrest hcall, hcall]
    | ok fi =>
      have hw := hsub _ fi st hb hl hst
      dsimp only
      generalize sub (join ⟨render root (more ++ ks)⟩ n) fi st = r at hw ⊢
      rcases r with a | ⟨_ | ⟨_ | e⟩, st'⟩
      · exact hw
      · exact ih hrest hw
      · dsimp only
        split
        · exact ih hrest hw
        · exact hw
      · exact hw

/-- Walking a path below the root, or the root itself, calls `fn` only at paths below the root or at
the root, each time with that path's own `lstat` answer; so it ends in a state that keeps an
invariant that every such call keeps, at the end of its budget, or in an abort of one such call. -/
theorem walk_outcome (hkeep : Keeps fs fn At Inv) (hAt : ∀ n, Below root ks n → At n)
    (hks : CleanStack root ks) (fuel : Nat) :
    ∀ {more : List (List Char)} {info : FileInfo} {st : σ}, (∀ e ∈ more, ValidName e) →
      At ⟨render root (more ++ ks)⟩ → fs.lstat ⟨render root (more ++ ks)⟩ = .ok info → Inv st →
      WalkOutcome fs fn At Inv (fs.walk fn fuel ⟨render root (more ++ ks)⟩ info st) := by
  induction fuel with
  | zero => exact fun _ _ _ _ ↦ .inl rfl
  | succ fuel ih =>
    intro more info st hmore hat hl hst
    have hcall : ∀ err, WalkOutcome fs fn At Inv (fn ⟨render root (more ++ ks)⟩ (some info) err st) :=
      fun err ↦ by simpa [hl] using walkOutcome_call hkeep err hat hst
    rw [FileSystem.walk]
    split
    · exact hcall none
    · have hc := hcall (fs.readDirNames ⟨render root (more ++ ks)⟩).2
      generalize fn ⟨render root (more ++ ks)⟩ (some info)
        (fs.readDirNames ⟨render root (more ++ ks)⟩).2 st = r at hc ⊢
      rcases r with a | ⟨err1, st'⟩
      · exact hc
      · dsimp only
        split
        · exact hc
        · refine walkNames_outcome hkeep hAt (fun name fi st hb hl' hst' ↦ ?_)
            ((hks.append hmore)) hmore (fun n hn ↦ fs.mem_readDirNames hn) hc
          obtain ⟨more', hne, hmore', rfl⟩ := hb
          exact ih hmore' (hAt _ ⟨more', hne, hmore', rfl⟩) hl' hst'

end Outcome

theorem walkTree_outcome (fs : FileSystem) {σ : Type} (fn : WalkFn σ) (Inv : σ → Prop)
    {root : Bool} {ks : List (List Char)} (hks : CleanStack root ks)
    (hkeep : Keeps fs fn (fun n ↦ n = ⟨render root ks⟩ ∨ Below root ks n) Inv) (fuel : Nat)
    (st : σ) (hst : Inv st) :
    WalkOutcome fs fn (fun n ↦ n = ⟨render root ks⟩ ∨ Below root ks n) Inv
      (fs.walkRoot fn fuel ⟨render root ks⟩ st) := by
  unfold FileSystem.walkRoot
  cases hl : fs.lstat ⟨render root ks⟩ with
  | error err => simpa [hl] using walkOutcome_call hkeep (some err) (.inl rfl) hst
  | ok info =>
    exact walk_outcome hkeep (fun n h ↦ .inr h) hks fuel (List.forall_mem_nil _) (.inl rfl) hl hst


/-! ## What a walk visits -/

/-- The paths a walk from `path` goes to: `path` itself, and where an entry `n` of `path` leads,
when `lstat` reads `path` as a directory that the callback goes into (`Descends`), the listing
ends without an error, and no entry sorted before `n` stops the listing (`Halts`). -/
inductive Reaches (fs : FileSystem) (Descends : String → FileInfo → Prop)
    (Halts : String → Prop) : String → String → Prop
  | refl (path : String) : Reaches fs Descends Halts path path
  | entry {path n q : String} {fi : FileInfo} {pre post : List String} :
      fs.lstat path = .ok fi → fi.isDir = true → Descends path fi → (fs.readdir path).2 = none →
      sortStrings (fs.readdir path).1 = pre ++ n :: post → (∀ m ∈ pre, ¬ Halts (join path m)) →
      Reaches fs Descends Halts (join path n) q → Reaches fs Descends Halts path q

theorem FileSystem.readDirNames_of_readdir {fs : FileSystem} {dir : String}
    (h : (fs.readdir dir).2 = none) :
    fs.readDirNames dir = (sortStrings (fs.readdir dir).1, none) := by
  unfold FileSystem.readDirNames
  split <;> simp_all

theorem FileSystem.readdir_of_readDirNames {fs : FileSystem} {dir : String}
    (h : (fs.readDirNames dir).2 = none) : (fs.readdir dir).2 = none := by
  unfold FileSystem.readDirNames at h
  split at h
  · next names hr => rw [hr]
  · cases h

section Visits

variable {fs : FileSystem} {σ : Type} {fn : WalkFn σ} {Descends : String → FileInfo → Prop}
  {Halts : String → Prop} {Seen : String → σ → Prop}

theorem Reaches.eq_of_lstat_error {path q : String} {e : GoError}
    (h : Reaches fs Descends Halts path q) (hl : fs.lstat path = .error e) : q = path := by
  cases h with
  | refl => rfl
  | entry hl' => rw [hl] at hl'; cases hl'

/-- A callback that records the paths it is called on: it never fails; at a directory it goes
into it returns nil, and it returns `SkipDir` from a file only where the listing may halt; what
it has recorded stays recorded; and a call with a path's own `lstat` answer records the path. -/
structure Records (fs : FileSystem) (fn : WalkFn σ) (Descends : String → FileInfo → Prop)
    (Halts : String → Prop) (Seen : String → σ → Prop) : Prop where
  not_fail : ∀ {name fi err st e st'}, fn name fi err st ≠ .ok (some (.fail e), st')
  descends : ∀ {name info err st r st'}, fs.lstat name = .ok info → info.isDir = true →
    Descends name info → fn name (some info) err st = .ok (r, st') → r = none
  halts : ∀ {name info err st st'}, fs.lstat name = .ok info → info.isDir = false →
    fn name (some info) err st = .ok (some .skipDir, st') → Halts name
  keeps : ∀ {q name fi err st r st'}, Seen q st → fn name fi err st = .ok (r, st') → Seen q st'
  sees : ∀ {name err st r st'}, fn name (fs.lstat name).toOption err st = .ok (r, st') →
    Seen name st'

theorem Records.none_or_skipDir (hrec : Records fs fn Descends Halts Seen) {name : String}
    {fi : Option FileInfo} {err : Option GoError} {st st' : σ} {e : Option WalkErr}
    (h : fn name fi err st = .ok (e, st')) : e = none ∨ e = some .skipDir := by
  rcases e with _ | _ | e
  · exact .inl rfl
  · exact .inr rfl
  · exact absurd h hrec.not_fail

variable (fs Descends Halts Seen) in
/-- What a walk of `path`, with `lstat`'s answer `info`, that returned `res` from the state
`st` did: no error but a `SkipDir`, from a file only where the listing may halt; every record of
`st` kept; and every path it reaches recorded. -/
def Visited (path : String) (info : FileInfo) (st : σ) (res : Option WalkErr × σ) : Prop :=
  (res.1 = none ∨ res.1 = some .skipDir ∧ (info.isDir = false → Halts path)) ∧
    (∀ q, Seen q st → Seen q res.2) ∧ ∀ q, Reaches fs Descends Halts path q → Seen q res.2

theorem walkNames_cons_visited (hrec : Records fs fn Descends Halts Seen)
    {sub : String → FileInfo → σ → Except Abort (Option WalkErr × σ)} {path n : String}
    {names : List String}
    (hsub : ∀ fi st res, fs.lstat (join path n) = .ok fi → sub (join path n) fi st = .ok res →
      Visited fs Descends Halts Seen (join path n) fi st res)
    {st : σ} {res : Option WalkErr × σ} (h : fs.walkNames fn sub path (n :: names) st = .ok res) :
    ∃ st1, (∀ q, Seen q st → Seen q st1) ∧
      (∀ q, Reaches fs Descends Halts (join path n) q → Seen q st1) ∧
      (fs.walkNames fn sub path names st1 = .ok res ∨
        res = (some .skipDir, st1) ∧ Halts (join path n)) := by
  rw [FileSystem.walkNames] at h
  cases hl : fs.lstat (join path n) with
  | error err =>
    cases hc : fn (join path n) none (some err) st with
    | error a => simp only [hl, hc] at h; cases h
    | ok r1 =>
      obtain ⟨e1, st1⟩ := r1
      have hseen : Seen (join path n) st1 := hrec.sees (by rw [hl]; exact hc)
      refine ⟨st1, fun q hq ↦ hrec.keeps hq hc,
        fun q hq ↦ hq.eq_of_lstat_error hl ▸ hseen, .inl ?_⟩
      rcases hrec.none_or_skipDir hc with rfl | rfl <;> simpa only [hl, hc] using h
  | ok fi =>
    cases hc : sub (join path n) fi st with
    | error a => simp only [hl, hc] at h; cases h
    | ok r1 =>
      obtain ⟨e1, st1⟩ := r1
      obtain ⟨hr, hkeep1, hseen1⟩ := hsub fi st _ hl hc
      refine ⟨st1, hkeep1, hseen1, ?_⟩
      rcases hr with rfl | ⟨rfl, hhalt⟩
      · exact .inl (by simpa only [hl, hc] using h)
      · simp only [hl, hc] at h
        split at h
        · exact .inl h
        · next hnd =>
          cases h
          exact .inr ⟨rfl, hhalt (by simpa using hnd)⟩

theorem walkNames_visited (hrec : Records fs fn Descends Halts Seen)
    {sub : String → FileInfo → σ → Except Abort (Option WalkErr × σ)} {path : String}
    {names : List String}
    (hsub : ∀ n ∈ names, ∀ fi st res, fs.lstat (join path n) = .ok fi →
      sub (join path n) fi st = .ok res → Visited fs Descends Halts Seen (join path n) fi st res)
    {st : σ} {res : Option WalkErr × σ} (h : fs.walkNames fn sub path names st = .ok res) :
    (res.1 = none ∨ res.1 = some .skipDir) ∧ (∀ q, Seen q st → Seen q res.2) ∧
      ∀ pre n post, names = pre ++ n :: post → (∀ m ∈ pre, ¬ Halts (join path m)) →
        ∀ q, Reaches fs Descends Halts (join path n) q → Seen q res.2 := by
  induction names generalizing st with
  | nil =>
    cases h
    exact ⟨.inl rfl, fun _ h ↦ h, fun pre _ _ h ↦ absurd h.symm (by simp)⟩
  | cons n names ih =>
    obtain ⟨st1, hkeep1, hseen1, hnext⟩ :=
      walkNames_cons_visited hrec (hsub n (List.mem_cons_self _ _)) h
    rcases hnext with hnext | ⟨rfl, hhalt⟩
    · obtain ⟨hr, hkeep, hent⟩ := ih (fun n' h' ↦ hsub n' (List.mem_cons_of_mem _ h')) hnext
      refine ⟨hr, fun q hq ↦ hkeep q (hkeep1 q hq), fun pre n' post hpre hno q hq ↦ ?_⟩
      cases pre with
      | nil =>
        obtain ⟨rfl, rfl⟩ := List.cons_eq_cons.1 hpre
        exact hkeep q (hseen1 q hq)
      | cons m pre =>
        rw [List.cons_append, List.cons_eq_cons] at hpre
        exact hent pre n' post hpre.2 (fun m' h' ↦ hno m' (List.mem_cons_of_mem _ h')) q hq
    · refine ⟨.inr rfl, hkeep1, fun pre n' post hpre hno q hq ↦ ?_⟩
      cases pre with
      | nil =>
        obtain ⟨rfl, rfl⟩ := List.cons_eq_cons.1 hpre
        exact hseen1 q hq
      | cons m pre =>
        rw [List.cons_append, List.cons_eq_cons] at hpre
        exact absurd hhalt (hpre.1 ▸ hno m (List.mem_cons_self _ _))

/-- With a callback that records what it is called on, a walk that returns has recorded every path
it reaches. -/
theorem walk_visited (hrec : Records fs fn Descends Halts Seen) (fuel : Nat) :
    ∀ {path : String} {info : FileInfo} {st : σ} {res : Option WalkErr × σ},
      fs.lstat path = .ok info → fs.walk fn fuel path info st = .ok res →
        Visited fs Descends Halts Seen path info st res := by
  induction fuel with
  | zero => intro _ _ _ _ _ h; cases h
  | succ fuel ih =>
    intro path info st res hl h
    have hsees : ∀ {err st r st'}, fn path (some info) err st = .ok (r, st') → Seen path st' :=
      fun hc ↦ hrec.sees (by rw [hl]; exact hc)
    rw [FileSystem.walk] at h
    split at h
    · next hnd =>
      have hnd : info.isDir = false := by simpa using hnd
      obtain ⟨e1, st1⟩ := res
      refine ⟨?_, fun q hq ↦ hrec.keeps hq h, fun q hq ↦ ?_⟩
      · rcases (hrec.none_or_skipDir h : e1 = none ∨ e1 = some .skipDir) with rfl | rfl
        · exact .inl rfl
        · exact .inr ⟨rfl, fun _ ↦ hrec.halts hl hnd h⟩
      · cases hq with
        | refl => exact hsees h
        | entry hl' hdir =>
          rw [hl] at hl'
          cases hl'
          rw [hnd] at hdir
          cases hdir
    · next hd =>
      have hd : info.isDir = true := by simpa using hd
      cases hc : fn path (some info) (fs.readDirNames path).2 st with
      | error a => rw [hc] at h; cases h
      | ok r1 =>
        obtain ⟨e1, st1⟩ := r1
        have hseen := hsees hc
        have hkeep1 : ∀ q, Seen q st → Seen q st1 := fun q hq ↦ hrec.keeps hq hc
        rw [hc] at h
        dsimp only at h
        split at h
        · next hstop =>
          cases h
          refine ⟨(hrec.none_or_skipDir hc).imp_right fun he ↦ ⟨he, by simp [hd]⟩, hkeep1,
            fun q hq ↦ ?_⟩
          · cases hq with
            | refl => exact hseen
            | entry hl' _ hdesc hrd =>
              rw [hl] at hl'
              cases hl'
              obtain rfl := hrec.descends hl hd hdesc hc
              simp [FileSystem.readDirNames_of_readdir hrd] at hstop
        · obtain ⟨hr, hkeep, hent⟩ :=
            walkNames_visited hrec (fun n _ fi st res hl' hw ↦ ih hl' hw) h
          refine ⟨hr.imp_right fun h ↦ ⟨h, by simp [hd]⟩, fun q hq ↦ hkeep q (hkeep1 q hq),
            fun q hq ↦ ?_⟩
          cases hq with
          | refl => exact hkeep _ hseen
          | entry _ _ _ hrd' hsorted hno hq' =>
            rw [FileSystem.readDirNames_of_readdir hrd'] at hent
            exact hent _ _ _ hsorted hno q hq'

/-- With a callback that records what it is called on, `Walk` returns no error, and when it returns
it has recorded every path it reaches. -/
theorem walkTree_visited (hrec : Records fs fn Descends Halts Seen) {fuel : Nat} {root : String}
    {st st' : σ} {e : Option GoError} (h : fs.walkTree fn fuel root st = .ok (e, st')) :
    e = none ∧ (∀ q, Seen q st → Seen q st') ∧ ∀ q, Reaches fs Descends Halts root q → Seen q st' := by
  unfold FileSystem.walkTree FileSystem.walkRoot at h
  cases hl : fs.lstat root with
  | error err =>
    cases hc : fn root none (some err) st with
    | error a => simp only [hl, hc, Except.map] at h; cases h
    | ok r =>
      simp only [hl, hc, Except.map, Except.ok.injEq, Prod.mk.injEq] at h
      obtain ⟨rfl, rfl⟩ := h
      have hseen : Seen root r.2 := hrec.sees (by rw [hl]; exact hc)
      refine ⟨?_, fun q hq ↦ hrec.keeps hq hc, fun q hq ↦ hq.eq_of_lstat_error hl ▸ hseen⟩
      rcases hrec.none_or_skipDir hc with he | he <;> rw [he] <;> rfl
  | ok info =>
    cases hw : fs.walk fn fuel root info st with
    | error a => simp only [hl, hw, Except.map] at h; cases h
    | ok r =>
      simp only [hl, hw, Except.map, Except.ok.injEq, Prod.mk.injEq] at h
      obtain ⟨rfl, rfl⟩ := h
      obtain ⟨hr, hkeep, hseen⟩ := walk_visited hrec fuel hl hw
      refine ⟨?_, hkeep, hseen⟩
      rcases hr with hr | ⟨hr, -⟩ <;> rw [hr] <;> rfl

end Visits

/-! ## Where a walk calls its callback -/

section Calls

variable {fs : FileSystem} {σ : Type} {fn : WalkFn σ} {Descends : String → FileInfo → Prop}
  {Inv : σ → Prop}

theorem Reaches.snoc {Halts : String → Prop} {root path n : String} {fi : FileInfo}
    {pre post : List String} (h : Reaches fs Descends Halts root path)
    (hl : fs.lstat path = .ok fi) (hdir : fi.isDir = true) (hd : Descends path fi)
    (hrd : (fs.readdir path).2 = none) (hsorted : sortStrings (fs.readdir path).1 = pre ++ n :: post)
    (hno : ∀ m ∈ pre, ¬ Halts (join path m)) : Reaches fs Descends Halts root (join path n) := by
  induction h with
  | refl => exact .entry hl hdir hd hrd hsorted hno (.refl _)
  | entry hl' hdir' hd' hrd' hsorted' hno' _ ih =>
    exact .entry hl' hdir' hd' hrd' hsorted' hno' (ih hl hd hrd hsorted hno)

/-- A path reached from a clean rooted directory lies below it, and the walk went into every
directory on the way, each one as `lstat` reads it. -/
theorem Reaches.below_root {F : String → Prop} {ks : List (List Char)} (hks : CleanStack true ks)
    {q : String} (h : Reaches fs Descends F ⟨render true ks⟩ q) :
    ∃ more, (∀ e ∈ more, ValidName e) ∧ q = ⟨render true (more ++ ks)⟩ ∧
      ∀ extra mid, more = extra ++ mid → extra ≠ [] →
        ∃ fi, fs.lstat ⟨render true (mid ++ ks)⟩ = .ok fi ∧ Descends ⟨render true (mid ++ ks)⟩ fi := by
  generalize hr : (⟨render true ks⟩ : String) = r at h
  induction h generalizing ks with
  | refl =>
    refine ⟨[], List.forall_mem_nil _, hr.symm, fun extra mid hsplit hne ↦ ?_⟩
    exact absurd (List.append_eq_nil.1 hsplit.symm).1 hne
  | @entry path n q fi pre post hl _ hD _ hsorted _ _ ih =>
    subst hr
    have hn : ValidName n.data :=
      fs.names_valid _ n (mem_sortStrings.1 (hsorted ▸ List.mem_append_right pre (List.mem_cons_self n post)))
    obtain ⟨more, hmore, rfl, hdesc⟩ := ih (hks.cons hn) (join_render hks hn).symm
    refine ⟨more ++ [n.data], ?_, by simp, fun extra mid hsplit hne ↦ ?_⟩
    · simpa using fun e he ↦ he.elim (hmore e) (· ▸ hn)
    rcases List.eq_nil_or_concat mid with rfl | ⟨L, b, rfl⟩
    · exact ⟨fi, hl, hD⟩
    · rw [List.concat_eq_append, ← List.append_assoc] at hsplit
      obtain ⟨hL, hb⟩ := List.append_inj' hsplit rfl
      obtain rfl : b = n.data := (List.singleton_inj.1 hb).symm
      simpa using hdesc extra L hL hne

/-- The callback goes into a directory only where `Descends` holds. -/
def GoesInto (fs : FileSystem) (fn : WalkFn σ) (Descends : String → FileInfo → Prop) : Prop :=
  ∀ {name info err st st'}, fs.lstat name = .ok info → info.isDir = true →
    fn name (some info) err st = .ok (none, st') → Descends name info

/-- The callback halts a listing at every path of `Halts`: `lstat` reads it as a file, and
every call on it that returns gives `SkipDir`. -/
def HaltsAt (fs : FileSystem) (fn : WalkFn σ) (Halts : String → Prop) : Prop :=
  ∀ {name}, Halts name → ∃ info, fs.lstat name = .ok info ∧ info.isDir = false ∧
    ∀ {err st r st'}, fn name (some info) err st = .ok (r, st') → r = some .skipDir

theorem haltsAt_false : HaltsAt fs fn fun _ ↦ False := fun h ↦ h.elim

theorem walk_of_not_dir {fuel : Nat} {path : String} {info : FileInfo} {st : σ}
    {res : Option WalkErr × σ} (hnd : info.isDir = false) (h : fs.walk fn fuel path info st = .ok res) :
    fn path (some info) none st = .ok res := by
  cases fuel with
  | zero => cases h
  | succ fuel => simpa [FileSystem.walk, hnd] using h

variable {Halts : String → Prop}

theorem walkNames_outcome_upto {sub : String → FileInfo → σ → Except Abort (Option WalkErr × σ)}
    {At : String → Prop} {path : String} {names : List String}
    (herr : ∀ pre n post, names = pre ++ n :: post → (∀ m ∈ pre, ¬ Halts (join path m)) →
      ∀ err st, fs.lstat (join path n) = .error err → Inv st →
        WalkOutcome fs fn At Inv (fn (join path n) none (some err) st))
    (hok : ∀ pre n post, names = pre ++ n :: post → (∀ m ∈ pre, ¬ Halts (join path m)) →
      ∀ fi st, fs.lstat (join path n) = .ok fi → Inv st → WalkOutcome fs fn At Inv (sub (join path n) fi st))
    (hstop : ∀ n ∈ names, Halts (join path n) → ∃ fi, fs.lstat (join path n) = .ok fi ∧
      fi.isDir = false ∧ ∀ st r st', sub (join path n) fi st = .ok (r, st') → r = some .skipDir)
    {st : σ} (hst : Inv st) : WalkOutcome fs fn At Inv (fs.walkNames fn sub path names st) := by
  induction names generalizing st with
  | nil => exact hst
  | cons n names ih =>
    -- past `n`, the entries after it are reached when `n` does not halt
    have ih' : ¬ Halts (join path n) → ∀ {st}, Inv st →
        WalkOutcome fs fn At Inv (fs.walkNames fn sub path names st) := fun hn ↦
      ih (fun pre n' post h hno ↦ herr (n :: pre) n' post (by rw [h]; rfl)
          (List.forall_mem_cons.2 ⟨hn, hno⟩))
        (fun pre n' post h hno ↦ hok (n :: pre) n' post (by rw [h]; rfl)
          (List.forall_mem_cons.2 ⟨hn, hno⟩))
        (fun n' h' ↦ hstop n' (List.mem_cons_of_mem _ h'))
    rw [FileSystem.walkNames]
    cases hl : fs.lstat (join path n) with
    | error err =>
      have hn : ¬ Halts (join path n) := fun hh ↦ by
        obtain ⟨fi, hfi, -⟩ := hstop n (List.mem_cons_self _ _) hh
        rw [hl] at hfi
        cases hfi
      have hcall := herr [] n names rfl (fun _ h ↦ absurd h (List.not_mem_nil _)) err st hl hst
      dsimp only
      generalize fn (join path n) none (some err) st = r at hcall ⊢
      rcases r with a | ⟨_ | ⟨_ | e⟩, st'⟩
      exacts [hcall, ih' hn hcall, ih' hn hcall, hcall]
    | ok fi =>
      have hw := hok [] n names rfl (fun _ h ↦ absurd h (List.not_mem_nil _)) fi st hl hst
      have hn : ∀ r st', sub (join path n) fi st = .ok (r, st') → r ≠ some .skipDir ∨
          fi.isDir = true → ¬ Halts (join path n) := fun r st' hs hr hh ↦ by
        obtain ⟨fi', hfi', hnd, hsk⟩ := hstop n (List.mem_cons_self _ _) hh
        rw [hl] at hfi'
        cases hfi'
        rcases hr with hr | hr
        · exact hr (hsk st r st' hs)
        · rw [hnd] at hr
          cases hr
      dsimp only
      cases hs : sub (join path n) fi st with
      | error a => rw [hs] at hw; exact hw
      | ok r =>
        obtain ⟨r, st'⟩ := r
        rw [hs] at hw
        rcases r with _ | _ | e
        · exact ih' (hn _ _ hs (.inl (by simp))) hw
        · dsimp only
          split
          · exact ih' (hn _ _ hs (.inr ‹_›)) hw
          · exact hw
        · exact hw

/-- When the callback goes into a directory only where `Descends` holds and halts a listing at every
path of `Halts`, a walk of a path reached from the root calls it only at paths reached from the
root, so it ends as `WalkOutcome` says for them. -/
theorem walk_outcome_reaches {root : String} (hgo : GoesInto fs fn Descends)
    (hhalt : HaltsAt fs fn Halts) (hkeep : Keeps fs fn (Reaches fs Descends Halts root) Inv)
    (fuel : Nat) :
    ∀ {path : String} {info : FileInfo} {st : σ}, Reaches fs Descends Halts root path →
      fs.lstat path = .ok info → Inv st →
        WalkOutcome fs fn (Reaches fs Descends Halts root) Inv (fs.walk fn fuel path info st) := by
  induction fuel with
  | zero => exact fun _ _ _ ↦ .inl rfl
  | succ fuel ih =>
    intro path info st hp hl hst
    have hcall : ∀ err, WalkOutcome fs fn (Reaches fs Descends Halts root) Inv
        (fn path (some info) err st) :=
      fun err ↦ by simpa [hl] using walkOutcome_call hkeep err hp hst
    rw [FileSystem.walk]
    split
    · exact hcall none
    · next hd =>
      have hc := hcall (fs.readDirNames path).2
      cases hr : fn path (some info) (fs.readDirNames path).2 st with
      | error a => rw [hr] at hc; exact hc
      | ok r1 =>
        obtain ⟨err1, st1⟩ := r1
        rw [hr] at hc
        dsimp only
        split
        · exact hc
        · next hgo' =>
          obtain ⟨hrd, rfl⟩ : (fs.readDirNames path).2 = none ∧ err1 = none := by simpa using hgo'
          have hrd' := FileSystem.readdir_of_readDirNames hrd
          have hdir : info.isDir = true := by simpa using hd
          have hdesc := hgo hl hdir hr
          have hnames : (fs.readDirNames path).1 = sortStrings (fs.readdir path).1 := by
            rw [FileSystem.readDirNames_of_readdir hrd']
          have hsnoc : ∀ pre n post, (fs.readDirNames path).1 = pre ++ n :: post →
              (∀ m ∈ pre, ¬ Halts (join path m)) → Reaches fs Descends Halts root (join path n) :=
            fun pre n post hs hno ↦ hp.snoc hl hdir hdesc hrd' (hnames ▸ hs) hno
          refine walkNames_outcome_upto (fun pre n post hs hno err st hl' hst' ↦ ?_)
            (fun pre n post hs hno fi st hl' hst' ↦ ih (hsnoc pre n post hs hno) hl' hst')
            (fun n _ hh ↦ ?_) hc
          · simpa [hl'] using walkOutcome_call hkeep (some err) (hsnoc pre n post hs hno) hst'
          · obtain ⟨fi, hfi, hnd, hsk⟩ := hhalt hh
            exact ⟨fi, hfi, hnd, fun st r st' hw ↦ hsk (walk_of_not_dir hnd hw)⟩

theorem walkTree_outcome_reaches {root : String} (hgo : GoesInto fs fn Descends)
    (hhalt : HaltsAt fs fn Halts) (hkeep : Keeps fs fn (Reaches fs Descends Halts root) Inv)
    (fuel : Nat) {st : σ} (hst : Inv st) :
    WalkOutcome fs fn (Reaches fs Descends Halts root) Inv (fs.walkRoot fn fuel root st) := by
  unfold FileSystem.walkRoot
  cases hl : fs.lstat root with
  | error err => simpa [hl] using walkOutcome_call hkeep (some err) (.refl root) hst
  | ok info => exact walk_outcome_reaches hgo hhalt hkeep fuel (.refl root) hl hst

end Calls

/-! ## When a walk returns -/

/-- The tree at `path` is readable within `fuel` levels: `lstat` reads `path`, and, when it is
a directory that lists without an error, the tree at each of its entries is readable within one
level less. -/
def FileSystem.readableTree (fs : FileSystem) : Nat → String → Bool
  | 0, _ => false
  | fuel + 1, path =>
    match fs.lstat path with
    | .error _ => false
    | .ok fi => !fi.isDir || (fs.readdir path).2.isSome ||
        (fs.readdir path).1.all fun n ↦ fs.readableTree fuel (join path n)

section Returns

variable {fs : FileSystem} {σ : Type} {fn : WalkFn σ}

theorem FileSystem.lstat_of_readableTree {fuel : Nat} {path : String}
    (h : fs.readableTree fuel path = true) : ∃ fi, fs.lstat path = .ok fi := by
  cases fuel with
  | zero => cases h
  | succ fuel =>
    unfold FileSystem.readableTree at h
    split at h
    · cases h
    · exact ⟨_, ‹_›⟩

theorem walkNames_returns {sub : String → FileInfo → σ → Except Abort (Option WalkErr × σ)}
    {path : String} {names : List String}
    (hent : ∀ n ∈ names, ∃ fi, fs.lstat (join path n) = .ok fi ∧
      ∀ st, ∃ res, sub (join path n) fi st = .ok res) (st : σ) :
    ∃ res, fs.walkNames fn sub path names st = .ok res := by
  induction names generalizing st with
  | nil => exact ⟨_, rfl⟩
  | cons n names ih =>
    have ih' := @ih fun n' h' ↦ hent n' (List.mem_cons_of_mem _ h')
    obtain ⟨fi, hl, hsub⟩ := hent n (List.mem_cons_self _ _)
    obtain ⟨⟨e, st'⟩, hs⟩ := hsub st
    rw [FileSystem.walkNames]
    simp only [hl, hs]
    rcases e with _ | _ | e
    · exact ih' st'
    · dsimp only
      split
      · exact ih' st'
      · exact ⟨_, rfl⟩
    · exact ⟨_, rfl⟩

/-- When the callback aborts only when it is given no `FileInfo`, a walk with budget `fuel` returns
on a tree readable within `fuel` levels. -/
theorem walk_returns (hfn : ∀ {name info err st a}, fn name (some info) err st ≠ .error a)
    (fuel : Nat) :
    ∀ {path : String} {info : FileInfo} {st : σ}, fs.lstat path = .ok info →
      fs.readableTree fuel path = true → ∃ res, fs.walk fn fuel path info st = .ok res := by
  induction fuel with
  | zero => intro _ _ _ _ h; cases h
  | succ fuel ih =>
    intro path info st hl hr
    have hcall : ∀ err, ∃ res, fn path (some info) err st = .ok res := fun err ↦ by
      cases h : fn path (some info) err st with
      | error a => exact absurd h hfn
      | ok res => exact ⟨res, rfl⟩
    rw [FileSystem.readableTree, hl] at hr
    rw [FileSystem.walk]
    split
    · exact hcall none
    · next hd =>
      obtain ⟨⟨err1, st1⟩, hc⟩ := hcall (fs.readDirNames path).2
      rw [hc]
      dsimp only
      split
      · exact ⟨_, rfl⟩
      · next hgo =>
        obtain ⟨hrd, -⟩ : (fs.readDirNames path).2 = none ∧ err1 = none := by simpa using hgo
        have hrd' := FileSystem.readdir_of_readDirNames hrd
        have hall : ∀ n ∈ (fs.readdir path).1, fs.readableTree fuel (join path n) = true := by
          simpa [hd, hrd'] using hr
        refine walkNames_returns (fun n hn ↦ ?_) st1
        have hn' := hall n (fs.mem_readDirNames hn)
        obtain ⟨fi, hfi⟩ := FileSystem.lstat_of_readableTree hn'
        exact ⟨fi, hfi, fun st ↦ ih hfi hn'⟩

theorem walkTree_returns (hfn : ∀ {name info err st a}, fn name (some info) err st ≠ .error a)
    {fuel : Nat} {root : String} (h : fs.readableTree fuel root = true) (st : σ) :
    ∃ res, fs.walkTree fn fuel root st = .ok res := by
  obtain ⟨info, hl⟩ := FileSystem.lstat_of_readableTree h
  obtain ⟨res, hw⟩ : ∃ res, fs.walk fn fuel root info st = .ok res := walk_returns @hfn fuel hl h
  exact ⟨_, by rw [FileSystem.walkTree, FileSystem.walkRoot, hl]; simp only [hw]; rfl⟩

end Returns

end Zoekt.Go
