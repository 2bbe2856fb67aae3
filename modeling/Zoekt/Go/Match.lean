import Zoekt.Go.Filepath

/-!
# `filepath.Match` and `filepath.Glob`'s pattern helpers

The shell-pattern matcher of the Unix build, over the bytes of the pattern and of the name, as
Go's strings are: `*` matches any run of bytes that are not separators, `?` one rune that is
not a separator, `[...]` a rune of a character class (with `^` for negation and `lo-hi`
ranges), and `\` escapes the next byte. Runes are decoded as `utf8.DecodeRuneInString` does,
so a byte that starts no valid encoding reads as `RuneError` of one byte. A malformed pattern
is reported as `ErrBadPattern` only when the matcher reaches the malformed part.

The matcher cuts the pattern into chunks (`scanChunk`): a chunk is a run of single-rune
operators, possibly preceded by stars. Each chunk is matched at the start of the name, and
after a star also after skipping one, two, ... bytes that are not separators. So after a star
a chunk can start inside the encoding of a rune, where `?` reads a lone byte.
-/

namespace Zoekt.Go.Filepath

/-- `filepath.ErrBadPattern`. -/
def errBadPattern : GoError := .other "syntax error in pattern"

/-! ## Runes -/

/-- `utf8.RuneError`, U+FFFD. -/
def runeError : Nat := 0xFFFD

/-- The tables `first` and `acceptRanges` of `unicode/utf8` for a byte that is not ASCII: the
length of the encoding it starts, and the range of the byte after it; none for a byte that
starts no encoding. -/
def acceptRange (b : Nat) : Option (Nat × Nat × Nat) :=
  if b < 0xC2 then none
  else if b < 0xE0 then some (2, 0x80, 0xBF)
  else if b = 0xE0 then some (3, 0xA0, 0xBF)
  else if b < 0xED then some (3, 0x80, 0xBF)
  else if b = 0xED then some (3, 0x80, 0x9F)
  else if b < 0xF0 then some (3, 0x80, 0xBF)
  else if b = 0xF0 then some (4, 0x90, 0xBF)
  else if b < 0xF4 then some (4, 0x80, 0xBF)
  else if b = 0xF4 then some (4, 0x80, 0x8F)
  else none

def contByte (b : UInt8) : Bool := 0x80 ≤ b.toNat && b.toNat ≤ 0xBF

/-- `utf8.DecodeRuneInString`: the first rune of the bytes and how many bytes it takes. -/
def decodeRune : List UInt8 → Nat × Nat
  | [] => (runeError, 0)
  | s@(b0 :: rest) =>
    if b0.toNat < 0x80 then (b0.toNat, 1) else
    match acceptRange b0.toNat, rest with
    | none, _ => (runeError, 1)
    | some (sz, lo, hi), b1 :: rest =>
      if s.length < sz ∨ b1.toNat < lo ∨ hi < b1.toNat then (runeError, 1)
      else if sz = 2 then ((b0.toNat &&& 0x1F) <<< 6 ||| (b1.toNat &&& 0x3F), 2) else
      match rest with
      | b2 :: rest =>
        if !contByte b2 then (runeError, 1)
        else if sz = 3 then
          ((b0.toNat &&& 0x0F) <<< 12 ||| (b1.toNat &&& 0x3F) <<< 6 ||| (b2.toNat &&& 0x3F), 3)
        else
          match rest with
          | b3 :: _ =>
            if !contByte b3 then (runeError, 1)
            else ((b0.toNat &&& 0x07) <<< 18 ||| (b1.toNat &&& 0x3F) <<< 12 |||
              (b2.toNat &&& 0x3F) <<< 6 ||| (b3.toNat &&& 0x3F), 4)
          | [] => (runeError, 1)
      | [] => (runeError, 1)
    | some _, [] => (runeError, 1)

example : decodeRune (bytes "€") = (0x20AC, 3) ∧ decodeRune [0x82, 0xAC] = (runeError, 1) := by
  decide

theorem decodeRune_pos {s : List UInt8} (h : s ≠ []) : 0 < (decodeRune s).2 := by
  obtain ⟨b0, rest, rfl⟩ := List.exists_cons_of_ne_nil h
  simp only [decodeRune]
  repeat' split
  all_goals simp

theorem length_drop_decodeRune {s : List UInt8} (h : s ≠ []) :
    (s.drop (decodeRune s).2).length < s.length := by
  have := decodeRune_pos h
  have := List.length_pos_of_ne_nil h
  rw [List.length_drop]
  omega

/-! ## Chunks -/

/-- The loop of `scanChunk`: the pattern up to the first `*` outside a character class, and
the rest. `inRange` records an open `[`; a `\` hides the byte after it. -/
def scanLoop : List UInt8 → Bool → List UInt8 × List UInt8
  | [], _ => ([], [])
  | 92 :: c :: cs, inRange => let r := scanLoop cs inRange; (92 :: c :: r.1, r.2)
  | 91 :: cs, _ => let r := scanLoop cs true; (91 :: r.1, r.2)
  | 93 :: cs, _ => let r := scanLoop cs false; (93 :: r.1, r.2)
  | 42 :: cs, inRange =>
    if inRange then let r := scanLoop cs inRange; (42 :: r.1, r.2) else ([], 42 :: cs)
  | c :: cs, inRange => let r := scanLoop cs inRange; (c :: r.1, r.2)

/-- `scanChunk`: whether the pattern starts with stars, the chunk after them, and the rest. -/
def scanChunk (pattern : List UInt8) : Bool × List UInt8 × List UInt8 :=
  let r := scanLoop (pattern.dropWhile (· = 42)) false
  (pattern.head? == some 42, r.1, r.2)

/-- `getEsc`: one possibly escaped rune of a class, and the chunk after it, which must not be
empty. -/
def getEsc (chunk : List UInt8) : Option (Nat × List UInt8) :=
  match chunk with
  | [] | 45 :: _ | 93 :: _ | [92] => none
  | 92 :: chunk@(_ :: _) | chunk@(_ :: _) =>
    if (decodeRune chunk).1 = runeError ∧ (decodeRune chunk).2 = 1 then none
    else if chunk.drop (decodeRune chunk).2 = [] then none
    else some ((decodeRune chunk).1, chunk.drop (decodeRune chunk).2)

theorem getEsc_length {chunk rest : List UInt8} {r : Nat} (h : getEsc chunk = some (r, rest)) :
    rest.length < chunk.length := by
  unfold getEsc at h
  split at h <;> first | cases h | (split_ifs at h; cases h)
  · exact Nat.lt_succ_of_lt (length_drop_decodeRune (List.cons_ne_nil _ _))
  · exact length_drop_decodeRune (List.cons_ne_nil _ _)

/-- The loop over the ranges of a character class, up to its `]`: whether one of them holds
the rune `r`, and the chunk after the class; none for a malformed class. -/
def classRanges (r : Nat) (chunk : List UInt8) (matched : Bool) (nrange : Nat) :
    Option (Bool × List UInt8) :=
  match chunk, nrange with
  | 93 :: rest, _ + 1 => some (matched, rest)
  | chunk, nrange =>
    match h : getEsc chunk with
    | none => none
    | some (lo, chunk') =>
      if chunk'.head? = some 45 then
        match h' : getEsc chunk'.tail with
        | none => none
        | some (hi, chunk'') => classRanges r chunk'' (matched || (lo ≤ r && r ≤ hi)) (nrange + 1)
      else classRanges r chunk' (matched || (lo ≤ r && r ≤ lo)) (nrange + 1)
termination_by chunk.length
decreasing_by
  all_goals simp_wf
  · have h1 := getEsc_length h
    have h2 := getEsc_length h'
    have h3 : chunk'.tail.length ≤ chunk'.length := by simp
    omega
  · exact getEsc_length h

/-- `matchChunk`: whether the chunk matches the start of `s`, giving the rest of `s`. -/
def matchChunk : List UInt8 → List UInt8 → Except GoError (Option (List UInt8))
  | [], s => .ok (some s)
  | _ :: _, [] => .ok none
  | 91 :: chunk, s@(_ :: _) =>
    if chunk = [] then .error errBadPattern else
    let negated := chunk.head? == some 94
    match classRanges (decodeRune s).1 (if negated then chunk.tail else chunk) false 0 with
    | none => .error errBadPattern
    | some (m, chunk) =>
      if m == negated then .ok none else matchChunk chunk (s.drop (decodeRune s).2)
  | 63 :: chunk, s@(c :: _) =>
    if c = 47 then .ok none else matchChunk chunk (s.drop (decodeRune s).2)
  | 92 :: chunk, c :: s =>
    match chunk with
    | [] => .error errBadPattern
    | d :: chunk => if d = c then matchChunk chunk s else .ok none
  | d :: chunk, c :: s => if d = c then matchChunk chunk s else .ok none
termination_by _ s => s.length
decreasing_by
  all_goals simp_wf
  all_goals subst_vars; exact Nat.sub_lt (Nat.succ_pos _) (decodeRune_pos (List.cons_ne_nil _ _))

/-- The retry after a star: the chunk matched after skipping one, two, ... bytes of the name,
never a separator; a match that leaves bytes after the last chunk is skipped. -/
def starSkip (chunk rest : List UInt8) : List UInt8 → Except GoError (Option (List UInt8))
  | [] => .ok none
  | c :: cs =>
    if c = 47 then .ok none else
    match matchChunk chunk cs with
    | .error e => .error e
    | .ok (some t) => if rest = [] ∧ t ≠ [] then starSkip chunk rest cs else .ok (some t)
    | .ok none => starSkip chunk rest cs

/-- Where one round of `Match`'s loop goes on: the name left after the chunk, matched at the
start of the name or, after a star, further on; none if the name does not match. -/
def nextName (star : Bool) (chunk rest name : List UInt8) :
    Except GoError (Option (List UInt8)) :=
  match matchChunk chunk name with
  | .error e => .error e
  | .ok (some t) =>
    if t = [] ∨ rest ≠ [] then .ok (some t) else if star then starSkip chunk rest name else .ok none
  | .ok none => if star then starSkip chunk rest name else .ok none

theorem scanLoop_append (p : List UInt8) (inRange : Bool) :
    (scanLoop p inRange).1 ++ (scanLoop p inRange).2 = p := by
  induction p, inRange using scanLoop.induct <;> simp [scanLoop, *]

theorem scanLoop_fst_ne_nil {c : UInt8} (hc : c ≠ 42) (cs : List UInt8) :
    (scanLoop (c :: cs) false).1 ≠ [] := by
  unfold scanLoop
  split <;> simp_all

theorem scanChunk_rest_length {pattern : List UInt8} (hp : pattern ≠ []) :
    (scanChunk pattern).2.2.length < pattern.length := by
  obtain ⟨c, cs, rfl⟩ := List.exists_cons_of_ne_nil hp
  have happ := scanLoop_append ((c :: cs).dropWhile (· = 42)) false
  have hlen := congrArg List.length happ
  rw [List.length_append] at hlen
  by_cases hc : c = 42
  · have hdrop : ((c :: cs).dropWhile (· = 42)).length ≤ cs.length := by
      simp [List.dropWhile_cons, hc, (List.dropWhile_suffix _).length_le]
    simp only [scanChunk, List.length_cons]
    omega
  · have hdrop : (c :: cs).dropWhile (· = 42) = c :: cs := by simp [List.dropWhile_cons, hc]
    have hne := scanLoop_fst_ne_nil hc cs
    rw [hdrop] at hlen
    simp only [scanChunk, hdrop]
    have := List.length_pos_of_ne_nil hne
    omega

/-- `filepath.Match`, over the bytes of the pattern and of the name. -/
def matchPattern (pattern name : List UInt8) : Except GoError Bool :=
  if _hp : pattern = [] then .ok name.isEmpty else
  let s := scanChunk pattern
  if s.1 ∧ s.2.1 = [] then .ok (decide (47 ∉ name)) else
  match nextName s.1 s.2.1 s.2.2 name with
  | .error e => .error e
  | .ok none => .ok false
  | .ok (some t) => matchPattern s.2.2 t
termination_by pattern.length
decreasing_by exact scanChunk_rest_length _hp

theorem matchPattern_star (name : List UInt8) :
    matchPattern (bytes "*") name = .ok (decide (47 ∉ name)) := by
  rw [show bytes "*" = [42] from rfl, matchPattern]
  simp [scanChunk, scanLoop]

-- After a star a chunk can start inside a rune: `?` reads the last two bytes of `€` one by one.
example : matchPattern (bytes "idx*??") (bytes "idx€") = .ok true := by
  have h1 : decodeRune [0xE2, 0x82, 0xAC] = (0x20AC, 3) := by decide
  have h2 : decodeRune [0x82, 0xAC] = (runeError, 1) := by decide
  have h3 : decodeRune [0xAC] = (runeError, 1) := by decide
  rw [show bytes "idx*??" = [105, 100, 120, 42, 63, 63] from rfl,
    show bytes "idx€" = [105, 100, 120, 0xE2, 0x82, 0xAC] from rfl]
  simp [matchPattern, scanChunk, scanLoop, nextName, matchChunk, starSkip, h1, h2, h3]

/-- `hasMeta`: whether a path holds one of the pattern characters `*?[\`. -/
def hasMeta (path : String) : Bool :=
  path.data.any fun c ↦ c = '*' ∨ c = '?' ∨ c = '[' ∨ c = '\\'

/-- `cleanGlobPath`: the directory part of a pattern without its trailing separator. -/
def cleanGlobPath (path : String) : String :=
  if path = "" then "." else if path = "/" then path else ⟨path.data.dropLast⟩

end Zoekt.Go.Filepath
