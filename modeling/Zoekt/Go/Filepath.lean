import Zoekt.Go.Basic

/-!
# Lexical path functions of `path/filepath`

`Split`, `Clean`, `Join`, `IsAbs` and `Abs` of the Unix build, over the characters of a path.
`Clean` is written as its documented rules: it reads the path element by element, drops
empty and `.` elements, lets an inner `..` remove the element before it, drops a `..` at the
start of a rooted path, and writes the kept elements back with single separators (`.` when
none is left).

A clean path is therefore a root flag and a stack of kept elements (`render`). The lemmas
below say what `Clean` keeps of a path written that way and what `Join` of a clean path and
one more element is; later modules use them instead of unfolding `Clean`.
-/

namespace Zoekt.Go.Filepath

/-- The elements of a path: the pieces between separators, empty ones included. -/
def elements (p : List Char) : List (List Char) := p.splitOn '/'

/-- An element that `Clean` keeps as it is: not empty, not `.` or `..`, with no separator.
Every name a directory listing returns is one. -/
def ValidName (e : List Char) : Prop := e ≠ [] ∧ e ≠ ['.'] ∧ e ≠ ['.', '.'] ∧ '/' ∉ e

instance : DecidablePred ValidName := fun _ ↦ inferInstanceAs (Decidable (_ ∧ _ ∧ _ ∧ _))

def rooted (p : List Char) : Bool := p.head? == some '/'

/-- One element of `Clean`'s loop, on the elements kept so far (the last one first). -/
def cleanStep (root : Bool) (kept : List (List Char)) (e : List Char) : List (List Char) :=
  if e = [] ∨ e = ['.'] then kept
  else if e = ['.', '.'] then
    match kept with
    | top :: rest => if top = ['.', '.'] then e :: kept else rest
    | [] => if root then [] else [e]
  else e :: kept

/-- The elements `Clean` keeps of a path, the last one first. -/
def kept (p : List Char) : List (List Char) := (elements p).foldl (cleanStep (rooted p)) []

/-- A path written from a root flag and its elements (the last one first); `.` if empty. -/
def render : Bool → List (List Char) → List Char
  | true, ks => '/' :: ['/'].intercalate ks.reverse
  | false, [] => ['.']
  | false, k :: ks => ['/'].intercalate (k :: ks).reverse

/-- `filepath.Clean`. -/
def clean (path : String) : String := ⟨render (rooted path.data) (kept path.data)⟩

/-- `filepath.Join` of two elements: from the first non-empty one on, joined with a separator
and cleaned; the empty string if both are empty. -/
def join (a b : String) : String :=
  if a ≠ "" then clean (a ++ "/" ++ b) else if b ≠ "" then clean b else ""

/-- `filepath.Split`: the path up to and including its last separator, and the rest. -/
def split (path : String) : String × String :=
  let file := (path.data.reverse.takeWhile (· ≠ '/')).reverse
  (⟨path.data.take (path.data.length - file.length)⟩, ⟨file⟩)

/-- `filepath.IsAbs`. -/
def isAbs (path : String) : Bool := rooted path.data

/-- `filepath.Abs`, given what `os.Getwd` returns. -/
def abs (getwd : Except GoError String) (path : String) : Except GoError String :=
  if isAbs path then .ok (clean path) else getwd.map fun wd ↦ join wd path

/-! ## Elements -/

theorem elements_nil : elements [] = [[]] := rfl

theorem elements_sep_cons (b : List Char) : elements ('/' :: b) = [] :: elements b := by
  simp [elements, List.splitOn, List.splitOnP_cons]

theorem elements_ne_nil (p : List Char) : elements p ≠ [] := List.splitOnP_ne_nil _ _

theorem elements_cons_of_ne_sep {c : Char} (hc : c ≠ '/') (p : List Char) :
    elements (c :: p) = (elements p).modifyHead (c :: ·) := by
  simp [elements, List.splitOn, List.splitOnP_cons, hc]

theorem elements_of_sep_not_mem {n : List Char} (h : '/' ∉ n) : elements n = [n] :=
  List.splitOnP_eq_single _ _ fun c hc hsep ↦ h (by simpa using beq_iff_eq.mp hsep ▸ hc)

theorem exists_elements_append {s : List Char} (hs : '/' ∉ s) (q : List Char) :
    ∃ pre last, elements (q ++ s) = pre ++ [last ++ s] := by
  induction q with
  | nil => exact ⟨[], [], by simp [elements_of_sep_not_mem hs]⟩
  | cons c q ih =>
    obtain ⟨pre, last, h⟩ := ih
    by_cases hc : c = '/'
    · subst hc
      exact ⟨[] :: pre, last, by rw [List.cons_append, elements_sep_cons, h, List.cons_append]⟩
    · rw [List.cons_append, elements_cons_of_ne_sep hc, h]
      cases pre with
      | nil => exact ⟨[], c :: last, rfl⟩
      | cons f pre => exact ⟨(c :: f) :: pre, last, rfl⟩

theorem elements_append_sep (a b : List Char) :
    elements (a ++ '/' :: b) = elements a ++ elements b := by
  induction a with
  | nil => simp [elements_sep_cons, elements_nil]
  | cons c a ih =>
    simp only [elements, List.splitOn] at ih ⊢
    rw [List.cons_append, List.splitOnP_cons, List.splitOnP_cons, ih]
    split
    · rfl
    · obtain ⟨e, es, he⟩ := List.exists_cons_of_ne_nil (elements_ne_nil a)
      simp only [elements, List.splitOn] at he
      simp [he]

theorem elements_intercalate {ks : List (List Char)} (hks : ks ≠ []) (h : ∀ k ∈ ks, '/' ∉ k) :
    elements (['/'].intercalate ks) = ks :=
  List.splitOn_intercalate ks '/' h hks

/-! ## What `Clean` keeps -/

@[simp]
theorem cleanStep_nil (root : Bool) (kept : List (List Char)) : cleanStep root kept [] = kept := by
  simp [cleanStep]

theorem cleanStep_of_validName {e : List Char} (he : ValidName e) (root : Bool)
    (kept : List (List Char)) : cleanStep root kept e = e :: kept := by
  obtain ⟨h0, h1, h2, -⟩ := he
  simp [cleanStep, h0, h1, h2]

theorem foldl_cleanStep_of_validName (root : Bool) {es : List (List Char)}
    (h : ∀ e ∈ es, ValidName e) (kept : List (List Char)) :
    es.foldl (cleanStep root) kept = es.reverse ++ kept := by
  induction es generalizing kept with
  | nil => rfl
  | cons e es ih =>
    rw [List.foldl_cons, cleanStep_of_validName (h e (by simp)),
      ih (fun e he ↦ h e (by simp [he]))]
    simp

theorem rooted_append {a : List Char} (ha : a ≠ []) (b : List Char) :
    rooted (a ++ b) = rooted a := by
  obtain ⟨c, a, rfl⟩ := List.exists_cons_of_ne_nil ha
  rfl

theorem kept_append_sep {a : List Char} (ha : a ≠ []) (b : List Char) :
    kept (a ++ '/' :: b) = (elements b).foldl (cleanStep (rooted a)) (kept a) := by
  rw [kept, kept, elements_append_sep, rooted_append ha, List.foldl_append]

/-- The stacks `Clean` builds: names above a run of `..`, which only an unrooted path keeps. -/
def CleanStack (root : Bool) (ks : List (List Char)) : Prop :=
  ∃ names dots, ks = names ++ dots ∧ (∀ e ∈ names, ValidName e) ∧
    (∀ e ∈ dots, e = ['.', '.']) ∧ (root = true → dots = [])

theorem not_sep_mem_of_mem_elements {p e : List Char} (h : e ∈ elements p) : '/' ∉ e := by
  induction p generalizing e with
  | nil => simp_all [elements_nil]
  | cons c p ih =>
    by_cases hc : c = '/'
    · subst hc
      rw [elements_sep_cons] at h
      rcases List.mem_cons.1 h with rfl | h
      · simp
      · exact ih h
    · obtain ⟨f, fs, hfs⟩ := List.exists_cons_of_ne_nil (elements_ne_nil p)
      rw [elements_cons_of_ne_sep hc, hfs, List.modifyHead_cons] at h
      rcases List.mem_cons.1 h with rfl | h
      · simpa [Ne.symm hc] using ih (e := f) (by simp [hfs])
      · exact ih (by simp [hfs, h])

theorem CleanStack.ne_nil_sep {root : Bool} {ks : List (List Char)} (h : CleanStack root ks) :
    ∀ k ∈ ks, k ≠ [] ∧ '/' ∉ k := by
  obtain ⟨names, dots, rfl, hn, hd, -⟩ := h
  intro k hk
  rcases List.mem_append.1 hk with hk | hk
  · exact ⟨(hn k hk).1, (hn k hk).2.2.2⟩
  · simp [hd k hk]

theorem cleanStep_dotDot_nil (root : Bool) :
    cleanStep root [] ['.', '.'] = if root then [] else [['.', '.']] := rfl

theorem cleanStep_dotDot_cons (root : Bool) (top : List Char) (rest : List (List Char)) :
    cleanStep root (top :: rest) ['.', '.'] =
      if top = ['.', '.'] then ['.', '.'] :: top :: rest else rest := rfl

theorem cleanStack_cleanStep {root : Bool} {ks : List (List Char)} {e : List Char}
    (hsep : '/' ∉ e) (h : CleanStack root ks) : CleanStack root (cleanStep root ks e) := by
  obtain ⟨names, dots, rfl, hn, hd, hr⟩ := h
  by_cases h0 : e = [] ∨ e = ['.']
  · simp only [cleanStep, if_pos h0]
    exact ⟨names, dots, rfl, hn, hd, hr⟩
  by_cases h1 : e = ['.', '.']
  · subst h1
    match names, dots with
    | [], [] =>
      cases root
      · exact ⟨[], [['.', '.']], rfl, by simp, by simp, by simp⟩
      · exact ⟨[], [], rfl, by simp, by simp, by simp⟩
    | [], top :: dots =>
      obtain rfl := hd top (by simp)
      rw [List.nil_append, cleanStep_dotDot_cons, if_pos rfl]
      exact ⟨[], ['.', '.'] :: ['.', '.'] :: dots, rfl, by simp, by simpa using hd,
        fun hroot ↦ absurd (hr hroot) (by simp)⟩
    | top :: names, dots =>
      have htop : top ≠ ['.', '.'] := (hn top (by simp)).2.2.1
      rw [List.cons_append, cleanStep_dotDot_cons, if_neg htop]
      exact ⟨names, dots, rfl, fun e he ↦ hn e (by simp [he]), hd, hr⟩
  · simp only [cleanStep, if_neg h0, if_neg h1]
    push_neg at h0
    exact ⟨e :: names, dots, rfl, by simpa using ⟨⟨h0.1, h0.2, h1, hsep⟩, hn⟩, hd, hr⟩

theorem cleanStack_foldl {root : Bool} {es : List (List Char)} (hsep : ∀ e ∈ es, '/' ∉ e)
    {ks : List (List Char)} (h : CleanStack root ks) :
    CleanStack root (es.foldl (cleanStep root) ks) := by
  induction es generalizing ks with
  | nil => exact h
  | cons e es ih =>
    exact ih (fun e' he' ↦ hsep e' (List.mem_cons_of_mem _ he'))
      (cleanStack_cleanStep (hsep e (List.mem_cons_self _ _)) h)

theorem cleanStack_kept (p : List Char) : CleanStack (rooted p) (kept p) :=
  cleanStack_foldl (fun _ ↦ not_sep_mem_of_mem_elements) ⟨[], [], rfl, by simp, by simp, fun _ ↦ rfl⟩

theorem foldl_cleanStep_dotDot {ds : List (List Char)} (hd : ∀ e ∈ ds, e = ['.', '.'])
    {ks : List (List Char)} (hks : ∀ e ∈ ks, e = ['.', '.']) :
    ds.foldl (cleanStep false) ks = ds.reverse ++ ks := by
  induction ds generalizing ks with
  | nil => rfl
  | cons d ds ih =>
    obtain rfl := hd d (List.mem_cons_self _ _)
    have hstep : cleanStep false ks ['.', '.'] = ['.', '.'] :: ks := by
      cases ks with
      | nil => rfl
      | cons top rest => rw [cleanStep_dotDot_cons, if_pos (hks top (List.mem_cons_self _ _))]
    rw [List.foldl_cons, hstep, ih (fun e he ↦ hd e (List.mem_cons_of_mem _ he)) (by simpa using hks)]
    simp

theorem rooted_intercalate {ks : List (List Char)} (hks : ks ≠ [])
    (h : ∀ k ∈ ks, k ≠ [] ∧ '/' ∉ k) : rooted (['/'].intercalate ks) = false := by
  obtain ⟨k, ks, rfl⟩ := List.exists_cons_of_ne_nil hks
  obtain ⟨hk, hsep⟩ := h k (List.mem_cons_self _ _)
  obtain ⟨c, k, rfl⟩ := List.exists_cons_of_ne_nil hk
  have hc : c ≠ '/' := fun hc ↦ hsep (by simp [hc])
  cases ks <;> simp [rooted, List.intercalate, hc]

theorem rooted_kept_render_of_cleanStack {root : Bool} {ks : List (List Char)}
    (h : CleanStack root ks) : rooted (render root ks) = root ∧ kept (render root ks) = ks := by
  have hrev : ∀ k ∈ ks.reverse, k ≠ [] ∧ '/' ∉ k := by simpa using h.ne_nil_sep
  have hsep : ∀ k ∈ ks.reverse, '/' ∉ k := fun k hk ↦ (hrev k hk).2
  have hfold : ks.reverse.foldl (cleanStep root) [] = ks := by
    obtain ⟨names, dots, rfl, hn, hd, hr⟩ := h
    have hdots : dots.reverse.foldl (cleanStep root) [] = dots := by
      cases root
      · rw [foldl_cleanStep_dotDot (by simpa using hd) (by simp), List.append_nil,
          List.reverse_reverse]
      · rw [hr rfl]
        rfl
    rw [List.reverse_append, List.foldl_append, hdots,
      foldl_cleanStep_of_validName _ (by simpa using hn), List.reverse_reverse]
  by_cases hks : ks = []
  · subst hks
    cases root <;> exact ⟨rfl, rfl⟩
  have hne : ks.reverse ≠ [] := by simpa using hks
  cases root with
  | true =>
    refine ⟨rfl, ?_⟩
    rw [kept, render, elements_sep_cons, elements_intercalate hne hsep]
    simpa using hfold
  | false =>
    obtain ⟨k, ks', rfl⟩ := List.exists_cons_of_ne_nil hks
    refine ⟨rooted_intercalate hne hrev, ?_⟩
    rw [kept, render, rooted_intercalate hne hrev, elements_intercalate hne hsep, hfold]

@[simp]
theorem clean_clean (path : String) : clean (clean path) = clean path := by
  obtain ⟨hr, hk⟩ := rooted_kept_render_of_cleanStack (cleanStack_kept path.data)
  simp only [clean, hr, hk]

theorem CleanStack.cons {root : Bool} {ks : List (List Char)} (h : CleanStack root ks)
    {n : List Char} (hn : ValidName n) : CleanStack root (n :: ks) := by
  obtain ⟨names, dots, rfl, hnames, hd, hr⟩ := h
  exact ⟨n :: names, dots, rfl, by simpa using ⟨hn, hnames⟩, hd, hr⟩

theorem CleanStack.append {root : Bool} {ks : List (List Char)} (h : CleanStack root ks)
    {more : List (List Char)} (hmore : ∀ e ∈ more, ValidName e) : CleanStack root (more ++ ks) := by
  induction more with
  | nil => exact h
  | cons n more ih =>
    exact (ih fun e he ↦ hmore e (List.mem_cons_of_mem _ he)).cons (hmore n (List.mem_cons_self _ _))

theorem render_ne_nil {root : Bool} {ks : List (List Char)} (h : CleanStack root ks) :
    render root ks ≠ [] := by
  match root, ks with
  | true, _ => simp [render]
  | false, [] => simp [render]
  | false, k :: ks =>
    intro hnil
    have hsep : ∀ x ∈ (k :: ks).reverse, '/' ∉ x :=
      fun x hx ↦ (h.ne_nil_sep x (List.mem_reverse.1 hx)).2
    have hel := elements_intercalate (by simp) hsep
    rw [← render, hnil, elements_nil] at hel
    have hmem : [] ∈ (k :: ks).reverse := hel ▸ List.mem_singleton_self _
    exact (h.ne_nil_sep [] (List.mem_reverse.1 hmem)).1 rfl

theorem rooted_kept_join {base : String} (hb : base ≠ "") (k : String) :
    rooted (join base k).data = rooted base.data ∧
      kept (join base k).data =
        (elements k.data).foldl (cleanStep (rooted base.data)) (kept base.data) := by
  have hne : base.data ≠ [] := fun h ↦ hb (String.ext h)
  have hdata : (base ++ "/" ++ k).data = base.data ++ '/' :: k.data := by simp
  obtain ⟨hr, hk⟩ := rooted_kept_render_of_cleanStack (cleanStack_kept (base.data ++ '/' :: k.data))
  rw [join, if_pos hb, clean, hdata]
  exact ⟨hr.trans (rooted_append hne _), hk.trans (kept_append_sep hne _)⟩

theorem join_render {root : Bool} {ks : List (List Char)} (h : CleanStack root ks) {n : List Char}
    (hn : ValidName n) : join ⟨render root ks⟩ ⟨n⟩ = ⟨render root (n :: ks)⟩ := by
  have hne : (⟨render root ks⟩ : String) ≠ "" := fun h' ↦ render_ne_nil h (congrArg String.data h')
  obtain ⟨hr, hk⟩ := rooted_kept_join hne ⟨n⟩
  obtain ⟨hr', hk'⟩ := rooted_kept_render_of_cleanStack h
  have hkept : kept (join ⟨render root ks⟩ ⟨n⟩).data = n :: ks := by
    rw [hk, hr', hk', elements_of_sep_not_mem hn.2.2.2, List.foldl_cons, List.foldl_nil,
      cleanStep_of_validName hn]
  have hclean : join ⟨render root ks⟩ ⟨n⟩ = clean (join ⟨render root ks⟩ ⟨n⟩) := by
    rw [join, if_pos hne, clean_clean]
  rw [hclean, clean, hkept, hr, hr']

theorem clean_eq_render (path : String) :
    clean path = ⟨render (rooted (clean path).data) (kept (clean path).data)⟩ :=
  (clean_clean path).symm

theorem join_eq_clean (a : String) {b : String} (hb : b ≠ "") : ∃ p, join a b = clean p := by
  unfold join
  split_ifs
  exacts [⟨_, rfl⟩, ⟨_, rfl⟩]

/-- `Abs` gives a clean rooted path. -/
theorem abs_eq_render {getwd : Except GoError String}
    (hwd : ∀ wd, getwd = .ok wd → isAbs wd = true) {path root : String}
    (h : abs getwd path = .ok root) :
    root = ⟨render true (kept root.data)⟩ ∧ CleanStack true (kept root.data) := by
  have hroot : ∃ p, root = clean p ∧ rooted root.data = true := by
    unfold abs at h
    split at h
    · next habs =>
      cases h
      exact ⟨path, rfl, (rooted_kept_render_of_cleanStack (cleanStack_kept path.data)).1.trans habs⟩
    · obtain ⟨wd, hw, rfl⟩ : ∃ wd, getwd = .ok wd ∧ join wd path = root := by
        cases hg : getwd <;> simp_all [Except.map]
      have hne : wd ≠ "" := by rintro rfl; exact absurd (hwd _ hw) (by decide)
      exact ⟨wd ++ "/" ++ path, by rw [join, if_pos hne],
        (rooted_kept_join hne path).1.trans (hwd wd hw)⟩
  obtain ⟨p, rfl, hr⟩ := hroot
  refine ⟨?_, hr ▸ cleanStack_kept (clean p).data⟩
  conv_lhs => rw [clean_eq_render p]
  rw [hr]

/-! ## Rendering names on top of a path -/

theorem foldl_cleanStep_of_not_dotDot (root : Bool) {es : List (List Char)}
    (h : ['.', '.'] ∉ es) (ks : List (List Char)) :
    es.foldl (cleanStep root) ks = (es.filter fun e ↦ decide (e ≠ [] ∧ e ≠ ['.'])).reverse ++ ks := by
  induction es generalizing ks with
  | nil => rfl
  | cons e es ih =>
    have he : e ≠ ['.', '.'] := fun he ↦ h (he ▸ List.mem_cons_self _ _)
    have hes : ['.', '.'] ∉ es := fun hm ↦ h (List.mem_cons_of_mem _ hm)
    by_cases h0 : e = [] ∨ e = ['.']
    · simp only [List.foldl_cons, cleanStep, if_pos h0, ih hes]
      rcases h0 with rfl | rfl <;> simp
    · simp only [List.foldl_cons, cleanStep, if_neg h0, if_neg he, ih hes]
      push_neg at h0
      simp [h0]

/-- `d` lies strictly inside `base`, lexically: both are rooted or neither, and the elements
`Clean` keeps of `d` are those of `base` with at least one name after them. -/
def StrictlyInside (d base : String) : Prop :=
  rooted d.data = rooted base.data ∧
    ∃ more, more ≠ [] ∧ (∀ e ∈ more, ValidName e) ∧ kept d.data = more ++ kept base.data

/-- Joining a path with no `..` element and some name to a non-empty directory stays strictly
inside the directory. -/
theorem strictlyInside_join {base k : String} (hb : base ≠ "")
    (hdd : ['.', '.'] ∉ elements k.data) (hname : ∃ e ∈ elements k.data, e ≠ [] ∧ e ≠ ['.']) :
    StrictlyInside (join base k) base := by
  obtain ⟨hr, hk⟩ := rooted_kept_join hb k
  refine ⟨hr, _, ?_, ?_, by rw [hk, foldl_cleanStep_of_not_dotDot _ hdd]⟩
  · obtain ⟨e, he, hne⟩ := hname
    simpa [List.filter_eq_nil_iff] using ⟨e, he, hne⟩
  · intro e he
    simp only [List.mem_reverse, List.mem_filter, decide_eq_true_eq] at he
    exact ⟨he.2.1, he.2.2, fun h ↦ hdd (h ▸ he.1), not_sep_mem_of_mem_elements he.1⟩

end Zoekt.Go.Filepath
