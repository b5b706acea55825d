import Mathlib.Data.Nat.Bitwise
import Mathlib.Data.Nat.Digits.Defs
import Mathlib.Data.Nat.Digits.Lemmas

/-!
Regrouping a stream of bits from groups of one width into groups of another.
The loop keeps the bits that are not yet given out at the bottom of an accumulator of a fixed
word size. Groups are digits with the highest first, so that what is read is the number that is
given out, shifted, with the bits that are left added to it.
-/
namespace KuberCoin.Regroupings

section Values

/-- The number whose digits of this width these are, the highest first. -/
def valueOf (width : ℕ) (groups : List ℕ) : ℕ := Nat.ofDigits (2 ^ width) groups.reverse

@[simp]
theorem valueOf_nil (width : ℕ) : valueOf width [] = 0 := rfl

@[simp]
theorem valueOf_snoc (width : ℕ) (groups : List ℕ) (g : ℕ) :
    valueOf width (groups ++ [g]) = g + 2 ^ width * valueOf width groups := by
  rw [valueOf, List.reverse_append, List.reverse_singleton, List.singleton_append, Nat.ofDigits_cons]
  rfl

theorem valueOf_injective {width : ℕ} (hw : width ≠ 0) {groups groups' : List ℕ}
    (hlength : groups.length = groups'.length) (h : ∀ g ∈ groups, g < 2 ^ width) (h' : ∀ g ∈ groups', g < 2 ^ width)
    (hvalue : valueOf width groups = valueOf width groups') : groups = groups' := by
  apply List.reverse_injective
  apply Nat.ofDigits_inj_of_len_eq (Nat.one_lt_two_pow hw) (by simp [hlength]) _ _ hvalue
  · intro g hg
    exact h g (List.mem_reverse.mp hg)
  · intro g hg
    exact h' g (List.mem_reverse.mp hg)

end Values

section Loop

/-- Some groups have been read, some given out, and the rest of the bits wait in the
accumulator. -/
structure Regrouped (width width' : ℕ) (data result : List ℕ) (acc bits : ℕ) : Prop where
  value : valueOf width data = valueOf width' result * 2 ^ bits + acc % 2 ^ bits
  length : width * data.length = width' * result.length + bits
  lt : ∀ g ∈ result, g < 2 ^ width'

variable {width width' : ℕ} {data result : List ℕ} {acc bits : ℕ}

theorem Regrouped.start (width width' : ℕ) : Regrouped width width' [] [] 0 0 :=
  ⟨by simp, by simp, by simp⟩

/-- A group is read into the accumulator, which has room for it. -/
theorem Regrouped.push (word : ℕ) (h : Regrouped width width' data result acc bits) {v : ℕ}
    (hroom : bits + width ≤ word) (hv : v < 2 ^ width) :
    Regrouped width width' (data ++ [v]) result ((acc <<< width) % 2 ^ word ||| v) (bits + width) := by
  have hacc : ((acc <<< width) % 2 ^ word ||| v) % 2 ^ (bits + width) =
      2 ^ width * (acc % 2 ^ bits) + v := by
    have hmul : (acc <<< width) % 2 ^ word % 2 ^ (bits + width) = 2 ^ width * (acc % 2 ^ bits) := by
      rw [Nat.mod_mod_of_dvd _ (Nat.pow_dvd_pow 2 hroom), Nat.shiftLeft_eq, pow_add,
        Nat.mul_mod_mul_right, Nat.mul_comm]
    have hsmall : v % 2 ^ (bits + width) = v :=
      Nat.mod_eq_of_lt (hv.trans_le (Nat.pow_le_pow_right (by omega) (by omega)))
    rw [Nat.or_mod_two_pow, hmul, hsmall, Nat.two_pow_add_eq_or_of_lt hv]
  refine ⟨?_, ?_, h.lt⟩
  · rw [valueOf_snoc, h.value, hacc, pow_add]
    ring
  · have hlength := h.length
    rw [List.length_append, List.length_singleton, Nat.mul_add, hlength]
    omega

theorem Regrouped.take (h : Regrouped width width' data result acc bits) (hbits : width' ≤ bits) :
    Regrouped width width' data (result ++ [acc >>> (bits - width') &&& (2 ^ width' - 1)]) acc
      (bits - width') := by
  have hsplit : acc % 2 ^ bits =
      (acc / 2 ^ (bits - width') % 2 ^ width') * 2 ^ (bits - width') + acc % 2 ^ (bits - width') := by
    conv_lhs => rw [show bits = bits - width' + width' by omega, pow_add, Nat.mod_mul]
    ring
  have hpow : 2 ^ bits = 2 ^ width' * 2 ^ (bits - width') := by
    rw [← pow_add]
    congr 1
    omega
  refine ⟨?_, ?_, ?_⟩
  · rw [valueOf_snoc, h.value, hsplit, hpow, Nat.and_two_pow_sub_one_eq_mod, Nat.shiftRight_eq_div_pow]
    ring
  · have hlength := h.length
    rw [List.length_append, List.length_singleton, Nat.mul_add, hlength]
    omega
  · intro g hg
    rw [List.mem_append, List.mem_singleton] at hg
    obtain hin | rfl := hg
    · exact h.lt g hin
    · rw [Nat.and_two_pow_sub_one_eq_mod]
      exact Nat.mod_lt _ (by positivity)

end Loop

section Padding

/-- Bits grouped in the narrow width with fewer than a group of zeros behind them. -/
structure Padded (width width' : ℕ) (wide narrow : List ℕ) (spare : ℕ) : Prop where
  spare_lt : spare < width'
  length : width' * narrow.length = width * wide.length + spare
  value : valueOf width' narrow = valueOf width wide * 2 ^ spare
  wide_lt : ∀ g ∈ wide, g < 2 ^ width
  narrow_lt : ∀ g ∈ narrow, g < 2 ^ width'

variable {width width' : ℕ} {wide narrow result : List ℕ} {acc bits spare : ℕ}

theorem Regrouped.pad (word : ℕ) (h : Regrouped width width' wide result acc bits) (hwide : ∀ g ∈ wide, g < 2 ^ width)
    (hbits : bits < width') (hword : width' ≤ word) : ∃ spare, Padded width width' wide
      (if 0 < bits then result ++ [(acc <<< (width' - bits)) % 2 ^ word &&& (2 ^ width' - 1)] else result)
      spare := by
  by_cases hpos : 0 < bits
  · have hlast : (acc <<< (width' - bits)) % 2 ^ word &&& (2 ^ width' - 1) =
        acc % 2 ^ bits * 2 ^ (width' - bits) := by
      have hpow : 2 ^ width' = 2 ^ bits * 2 ^ (width' - bits) := by
        rw [← pow_add]
        congr 1
        omega
      rw [Nat.and_two_pow_sub_one_eq_mod, Nat.mod_mod_of_dvd _ (Nat.pow_dvd_pow 2 hword),
        Nat.shiftLeft_eq, hpow, Nat.mul_mod_mul_right]
    have hpow : 2 ^ width' = 2 ^ bits * 2 ^ (width' - bits) := by
      rw [← pow_add]
      congr 1
      omega
    refine ⟨width' - bits, by omega, ?_, ?_, hwide, ?_⟩
    · have hlength := h.length
      rw [if_pos hpos, List.length_append, List.length_singleton, Nat.mul_add, hlength]
      omega
    · rw [if_pos hpos, valueOf_snoc, hlast, h.value, hpow]
      ring
    · intro g hg
      rw [if_pos hpos, List.mem_append, List.mem_singleton] at hg
      obtain hin | rfl := hg
      · exact h.lt g hin
      · rw [Nat.and_two_pow_sub_one_eq_mod]
        exact Nat.mod_lt _ (by positivity)
  · have hzero : bits = 0 := by omega
    subst hzero
    refine ⟨0, by omega, by simpa using h.length.symm, ?_, hwide, by simpa using h.lt⟩
    have hvalue := h.value
    rw [if_neg hpos]
    simpa [Nat.mod_one] using hvalue.symm

theorem Regrouped.padded (h : Regrouped width' width narrow result acc bits) (hnarrow : ∀ g ∈ narrow, g < 2 ^ width')
    (hbits : bits < width') (hzero : acc % 2 ^ bits = 0) : Padded width width' result narrow bits :=
  ⟨hbits, h.length, by rw [h.value, hzero, Nat.add_zero], h.lt, hnarrow⟩

theorem Regrouped.eq_of_padded (h : Regrouped width' width narrow result acc bits)
    (hp : Padded width width' wide narrow spare) (hle : width' ≤ width) (hbits : bits < width) :
    result = wide ∧ bits < width' ∧ acc % 2 ^ bits = 0 := by
  have hspare := hp.spare_lt
  have hlengths : width * result.length + bits = width * wide.length + spare :=
    h.length.symm.trans hp.length
  have hlength : result.length = wide.length := by
    have hdiv : (width * result.length + bits) / width = (width * wide.length + spare) / width := by
      rw [hlengths]
    rwa [Nat.mul_add_div (by omega), Nat.mul_add_div (by omega), Nat.div_eq_of_lt hbits,
      Nat.div_eq_of_lt (by omega), Nat.add_zero, Nat.add_zero] at hdiv
  have hsame : bits = spare := by
    rw [hlength] at hlengths
    omega
  subst hsame
  have hvalue : valueOf width result * 2 ^ bits + acc % 2 ^ bits = valueOf width wide * 2 ^ bits :=
    h.value.symm.trans hp.value
  have hlt : acc % 2 ^ bits < 2 ^ bits := Nat.mod_lt _ (by positivity)
  have hzero : acc % 2 ^ bits = 0 := by
    have hmod : (valueOf width result * 2 ^ bits + acc % 2 ^ bits) % 2 ^ bits = 0 := by
      rw [hvalue, Nat.mul_mod_left]
    rwa [Nat.mul_comm, Nat.mul_add_mod, Nat.mod_mod] at hmod
  refine ⟨?_, hspare, hzero⟩
  apply valueOf_injective (by omega) hlength h.lt hp.wide_lt
  rw [hzero, Nat.add_zero] at hvalue
  exact Nat.eq_of_mul_eq_mul_right (by positivity) hvalue

theorem Padded.unique {narrow' : List ℕ} {spare' : ℕ} (h : Padded width width' wide narrow spare)
    (h' : Padded width width' wide narrow' spare') : narrow = narrow' := by
  have hspare := h.spare_lt
  have hspare' := h'.spare_lt
  have hlength : narrow.length = narrow'.length := by
    have hmul := h.length
    have hmul' := h'.length
    by_contra hne
    obtain hlt | hlt := Nat.lt_or_gt_of_ne hne
    · have hmore := Nat.mul_le_mul_left width' (Nat.succ_le_of_lt hlt)
      rw [Nat.mul_succ] at hmore
      omega
    · have hmore := Nat.mul_le_mul_left width' (Nat.succ_le_of_lt hlt)
      rw [Nat.mul_succ] at hmore
      omega
  have hsame : spare = spare' := by
    have hmul := h.length
    have hmul' := h'.length
    rw [hlength] at hmul
    omega
  subst hsame
  exact valueOf_injective (by omega) hlength h.narrow_lt h'.narrow_lt (h.value.trans h'.value.symm)

end Padding

end KuberCoin.Regroupings
