import Mathlib.Data.Nat.Digits.Defs
import Mathlib.Data.Nat.Digits.Lemmas

/-!
Writing the digits of one base in another, with a zero for each leading zero.
Nothing is lost in this: the leading zeros are counted on both sides, and what follows them
is the number without its leading zeros.
-/
namespace KuberCoin.Rebasings

section Rebasing

variable {digits rest : List ℕ} {base base' : ℕ}

/-- How many zeros stand in front. -/
def leadingZeros (digits : List ℕ) : ℕ := (digits.takeWhile (· = 0)).length

/-- The digits of the same number in another base, the highest first. -/
def rebase (base base' : ℕ) (digits : List ℕ) : List ℕ :=
  List.replicate (leadingZeros digits) 0 ++ (Nat.digits base' (Nat.ofDigits base digits.reverse)).reverse

theorem leadingZeros_append (h : rest.head? ≠ some 0) (n : ℕ) : leadingZeros (List.replicate n 0 ++ rest) = n := by
  have hrest : rest.takeWhile (· = 0) = [] := by
    cases rest with
    | nil => rfl
    | cons d rest =>
      have hd : d ≠ 0 := by simpa using h
      simp [hd]
  simp [leadingZeros, hrest]

theorem exists_leadingZeros (digits : List ℕ) :
    ∃ n rest, digits = List.replicate n 0 ++ rest ∧ rest.head? ≠ some 0 := by
  induction digits with
  | nil => exact ⟨0, [], by simp, by simp⟩
  | cons d digits ih =>
    by_cases hd : d = 0
    · obtain ⟨n, rest, heq, hrest⟩ := ih
      exact ⟨n + 1, rest, by rw [hd, heq, List.replicate_succ, List.cons_append], hrest⟩
    · exact ⟨0, d :: digits, by simp, by simpa using hd⟩

theorem ofDigits_leadingZeros (base n : ℕ) (rest : List ℕ) :
    Nat.ofDigits base (List.replicate n 0 ++ rest).reverse = Nat.ofDigits base rest.reverse := by
  rw [List.reverse_append, List.reverse_replicate, Nat.ofDigits_append, Nat.ofDigits_replicate_zero,
    Nat.mul_zero, Nat.add_zero]

theorem rebase_append (base base' : ℕ) (h : rest.head? ≠ some 0) (n : ℕ) :
    rebase base base' (List.replicate n 0 ++ rest) =
      List.replicate n 0 ++ (Nat.digits base' (Nat.ofDigits base rest.reverse)).reverse := by
  rw [rebase, leadingZeros_append h, ofDigits_leadingZeros]

theorem head_digits (base n : ℕ) : (Nat.digits base n).reverse.head? ≠ some 0 := by
  rw [List.head?_reverse]
  by_cases hn : n = 0
  · simp [hn]
  · have hne : Nat.digits base n ≠ [] := Nat.digits_ne_nil_iff_ne_zero.mpr hn
    rw [List.getLast?_eq_some_getLast hne]
    intro h
    exact Nat.getLast_digit_ne_zero base hn (Option.some.inj h)

theorem rebase_rebase (base' : ℕ) (hbase : 1 < base) (h : ∀ d ∈ digits, d < base) :
    rebase base' base (rebase base base' digits) = digits := by
  obtain ⟨n, rest, rfl, hrest⟩ := exists_leadingZeros digits
  have hlt : ∀ d ∈ rest.reverse, d < base := by
    intro d hd
    exact h d (by simp [List.mem_reverse.mp hd])
  have hlast : ∀ hne : rest.reverse ≠ [], rest.reverse.getLast hne ≠ 0 := by
    intro hne h0
    apply hrest
    rw [← List.getLast?_reverse, List.getLast?_eq_some_getLast hne, h0]
  rw [rebase_append base base' hrest, rebase_append base' base (head_digits base' _), List.reverse_reverse,
    Nat.ofDigits_digits, Nat.digits_ofDigits base hbase rest.reverse hlt hlast, List.reverse_reverse]

theorem rebase_lt (hbase' : 1 < base') : ∀ d ∈ rebase base base' digits, d < base' := by
  intro d hd
  rw [rebase, List.mem_append, List.mem_reverse] at hd
  obtain hzero | hdigit := hd
  · rw [List.eq_of_mem_replicate hzero]
    omega
  · exact Nat.digits_lt_base hbase' hdigit

theorem rebase_length_le (hbase : 1 < base) (hbase' : 1 < base') (hle : base' ≤ base) (h : ∀ d ∈ digits, d < base)
    {m : ℕ} (hroom : base ^ digits.length ≤ base' ^ m) : (rebase base base' digits).length ≤ m := by
  obtain ⟨n, rest, rfl, hrest⟩ := exists_leadingZeros digits
  have hlt : ∀ d ∈ rest.reverse, d < base := by
    intro d hd
    exact h d (by simp [List.mem_reverse.mp hd])
  rw [rebase_append base base' hrest, List.length_append, List.length_replicate, List.length_reverse]
  rw [List.length_append, List.length_replicate, pow_add] at hroom
  have hsmall : base' ^ n * base ^ rest.length ≤ base' ^ m :=
    (Nat.mul_le_mul_right _ (Nat.pow_le_pow_left hle n)).trans hroom
  have hpos : 0 < base ^ rest.length := by positivity
  have hnm : n ≤ m := by
    rw [← Nat.pow_le_pow_iff_right hbase']
    calc
      base' ^ n = base' ^ n * 1 := (Nat.mul_one _).symm
      _ ≤ base' ^ n * base ^ rest.length := Nat.mul_le_mul_left _ hpos
      _ ≤ base' ^ m := hsmall
  have hrestSmall : base ^ rest.length ≤ base' ^ (m - n) := by
    have hsplit : base' ^ m = base' ^ n * base' ^ (m - n) := by
      rw [← pow_add]
      congr 1
      omega
    rw [hsplit] at hsmall
    exact Nat.le_of_mul_le_mul_left hsmall (by positivity)
  have hnumber : Nat.ofDigits base rest.reverse < base' ^ (m - n) := by
    calc
      _ < base ^ rest.reverse.length := Nat.ofDigits_lt_base_pow_length hbase hlt
      _ = base ^ rest.length := by rw [List.length_reverse]
      _ ≤ base' ^ (m - n) := hrestSmall
  have hdigits : (Nat.digits base' (Nat.ofDigits base rest.reverse)).length ≤ m - n :=
    (Nat.digits_length_le_iff hbase' _).mpr hnumber
  omega

end Rebasing

end KuberCoin.Rebasings
