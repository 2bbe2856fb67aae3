import Mathlib.Data.List.Basic

/-!
# Go values the indexserver and `gitindex` look at

Errors enter the modelled code only through `err != nil`, `os.IsNotExist(err)` and the text
of `err.Error()`, so a Go `error` is `os.ErrNotExist` or another error with its message.
Strings are compared, trimmed and tested for prefixes and suffixes through the `strings`
package; on valid UTF-8 those functions agree with a model over the characters of a string.
`filepath.Match` is the exception: after a star it moves on byte by byte, so it is modelled
over `bytes`, the UTF-8 encoding of a string.
-/

namespace Zoekt.Go

/-- A non-nil Go `error`: `os.ErrNotExist`, or any other error with its message. -/
inductive GoError where
  | errNotExist
  | other (msg : String)
  deriving DecidableEq, Repr

namespace GoError

/-- `err.Error()`. -/
def error : GoError → String
  | errNotExist => "file does not exist"
  | other msg => msg

/-- `os.IsNotExist(err)`. -/
def isNotExist : GoError → Bool
  | errNotExist => true
  | other _ => false

end GoError

/-- `[]byte(s)`: the UTF-8 encoding of a string. -/
def bytes (s : String) : List UInt8 := s.toUTF8.data.toList

theorem bytes_eq (s : String) : bytes s = s.data.flatMap String.utf8EncodeChar := rfl

theorem or_lead_ne_sep (x : UInt8) {m : UInt8} (hm : m ∈ [0x80, 0xc0, 0xe0, 0xf0]) :
    x ||| m ≠ 47 := by
  obtain ⟨x⟩ := x
  revert x m
  decide

theorem ascii_eq_sep : ∀ n < 128, (Char.ofNat n).val.toUInt8 = 47 → Char.ofNat n = '/' := by
  decide

theorem eq_sep_of_sep_mem_utf8EncodeChar {c : Char} (h : (47 : UInt8) ∈ String.utf8EncodeChar c) :
    c = '/' := by
  dsimp only [String.utf8EncodeChar] at h
  split_ifs at h with h1 h2 h3
  · rw [← Char.ofNat_toNat c] at h ⊢
    exact ascii_eq_sep _ (Nat.lt_succ_of_le h1) (List.mem_singleton.1 h).symm
  all_goals
    simp only [List.mem_cons, List.mem_singleton, List.not_mem_nil, or_false] at h
    repeat' rcases h with h | h
    all_goals exact absurd h.symm (or_lead_ne_sep _ (by simp))

theorem sep_mem_bytes {s : String} (h : (47 : UInt8) ∈ bytes s) : '/' ∈ s.data := by
  obtain ⟨c, hc, hb⟩ := List.mem_flatMap.1 h
  exact eq_sep_of_sep_mem_utf8EncodeChar hb ▸ hc

namespace Strings

def hasSuffix (s suffix : String) : Bool := suffix.data.isSuffixOf s.data

def trimSuffix (s suffix : String) : String :=
  if suffix.data <:+ s.data then ⟨s.data.take (s.data.length - suffix.data.length)⟩ else s

def trimPrefix (s pre : String) : String :=
  if pre.data <+: s.data then ⟨s.data.drop pre.data.length⟩ else s

@[simp]
theorem hasSuffix_iff (s suffix : String) :
    hasSuffix s suffix = true ↔ suffix.data <:+ s.data := by
  simp [hasSuffix]

end Strings

end Zoekt.Go
