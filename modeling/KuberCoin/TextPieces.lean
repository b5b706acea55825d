import Mathlib.Data.List.Basic

/-!
Texts in pieces: the white space of Unicode, `str::trim` and `str::split_whitespace`, and words joined
by spaces.
-/
namespace KuberCoin.TextPieces

/-- The characters with the property `White_Space`. -/
def isWhitespace (c : Char) : Bool :=
  (9 ≤ c.toNat && c.toNat ≤ 13) || (0x2000 ≤ c.toNat && c.toNat ≤ 0x200a) ||
    [0x20, 0x85, 0xa0, 0x1680, 0x2028, 0x2029, 0x202f, 0x205f, 0x3000].contains c.toNat

/-- `str::trim`. -/
def trim (text : List Char) : List Char := ((text.dropWhile isWhitespace).reverse.dropWhile isWhitespace).reverse

/-- `str::split` at a separator. -/
def splitAtEach (p : Char → Bool) : List Char → List (List Char)
  | [] => [[]]
  | c :: text =>
      match splitAtEach p text with
      | [] => [[]]
      | piece :: pieces => if p c then [] :: piece :: pieces else (c :: piece) :: pieces

/-- `str::split_whitespace`. -/
def splitWhitespace (text : List Char) : List (List Char) := (splitAtEach isWhitespace text).filter fun w => !w.isEmpty

/-- `[String]::join(" ")`. -/
def joinWords : List (List Char) → List Char
  | [] => []
  | [w] => w
  | w :: w' :: words => w ++ ' ' :: joinWords (w' :: words)

variable {p : Char → Bool}

theorem splitAtEach_ne_nil (text : List Char) : splitAtEach p text ≠ [] := by
  cases text with
  | nil => simp [splitAtEach]
  | cons c text =>
    rw [splitAtEach]
    split
    next => simp
    next => split <;> simp

theorem splitAtEach_append {w : List Char} (hw : ∀ c ∈ w, p c = false) {sep : Char} (hsep : p sep = true)
    (text : List Char) : splitAtEach p (w ++ sep :: text) = w :: splitAtEach p text := by
  induction w with
  | nil =>
    rw [List.nil_append, splitAtEach]
    split
    next h => exact absurd h (splitAtEach_ne_nil text)
    next piece pieces h => rw [if_pos hsep, h]
  | cons c w ih =>
    obtain ⟨hc, hrest⟩ := List.forall_mem_cons.mp hw
    rw [List.cons_append, splitAtEach, ih hrest]
    simp [hc]

theorem splitAtEach_word {w : List Char} (hw : ∀ c ∈ w, p c = false) : splitAtEach p w = [w] := by
  induction w with
  | nil => rfl
  | cons c w ih =>
    obtain ⟨hc, hrest⟩ := List.forall_mem_cons.mp hw
    rw [splitAtEach, ih hrest]
    simp [hc]

theorem splitWhitespace_joinWords {words : List (List Char)} (hnonempty : ∀ w ∈ words, w ≠ [])
    (hblack : ∀ w ∈ words, ∀ c ∈ w, isWhitespace c = false) : splitWhitespace (joinWords words) = words := by
  have hspace : isWhitespace ' ' = true := by decide
  induction words with
  | nil => rfl
  | cons w words ih =>
    obtain ⟨hw, hrest⟩ := List.forall_mem_cons.mp hnonempty
    obtain ⟨hblackw, hblackrest⟩ := List.forall_mem_cons.mp hblack
    cases words with
    | nil =>
      unfold joinWords splitWhitespace
      rw [splitAtEach_word hblackw]
      simp [hw]
    | cons w' words =>
      have htail := ih hrest hblackrest
      unfold splitWhitespace at htail ⊢
      rw [joinWords, splitAtEach_append hblackw hspace, List.filter_cons_of_pos (by simp [hw]), htail]

end KuberCoin.TextPieces
