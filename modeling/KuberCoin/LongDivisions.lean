import Mathlib.Data.Nat.Digits.Defs
import Mathlib.Tactic.Ring

/-!
Division of a number that is read digit by digit, the most significant digit first. Every step extends the
part that has been read by one digit, and with it the quotient and the remainder.
-/
namespace KuberCoin.LongDivisions

variable {base divisor n digit : ℕ}

theorem extend_split (divisor base n digit : ℕ) :
    n * base + digit = divisor * (n / divisor * base) + (n % divisor * base + digit) := by
  conv_lhs => rw [← Nat.div_add_mod n divisor]
  ring

theorem extend_div (base n digit : ℕ) (hpos : 0 < divisor) :
    (n * base + digit) / divisor = n / divisor * base + (n % divisor * base + digit) / divisor := by
  rw [extend_split divisor, Nat.mul_add_div hpos]

theorem extend_mod (divisor base n digit : ℕ) :
    (n * base + digit) % divisor = (n % divisor * base + digit) % divisor := by
  rw [extend_split divisor, Nat.mul_add_mod]

theorem extend_lt (hn : n < divisor) (hdigit : digit < base) : (n * base + digit) / divisor < base := by
  rw [Nat.div_lt_iff_lt_mul (by omega)]
  have hmul := Nat.mul_le_mul_right base (show n + 1 ≤ divisor by omega)
  rw [Nat.add_mul, Nat.one_mul] at hmul
  rw [Nat.mul_comm base]
  omega

/-- The quotient digits of a division that starts with a remainder. -/
def quotients (base divisor : ℕ) : ℕ → List ℕ → List ℕ
  | _, [] => []
  | remainder, digit :: digits =>
      (remainder * base + digit) / divisor ::
        quotients base divisor ((remainder * base + digit) % divisor) digits

theorem quotients_length (remainder : ℕ) (digits : List ℕ) :
    (quotients base divisor remainder digits).length = digits.length := by
  induction digits generalizing remainder with
  | nil => rfl
  | cons digit digits ih => rw [quotients, List.length_cons, List.length_cons, ih]

theorem quotients_lt {remainder : ℕ} {digits : List ℕ} (hremainder : remainder < divisor)
    (hdigits : ∀ digit ∈ digits, digit < base) : ∀ q ∈ quotients base divisor remainder digits, q < base := by
  induction digits generalizing remainder with
  | nil => simp [quotients]
  | cons digit digits ih =>
    rw [List.forall_mem_cons] at hdigits
    rw [quotients, List.forall_mem_cons]
    exact ⟨extend_lt hremainder hdigits.1, ih (Nat.mod_lt _ (by omega)) hdigits.2⟩

/-- The digits of a list, the most significant one first, as a number. -/
def number (base : ℕ) (digits : List ℕ) : ℕ := Nat.ofDigits base digits.reverse

theorem number_nil : number base [] = 0 := rfl

theorem number_cons (digit : ℕ) (digits : List ℕ) :
    number base (digit :: digits) = digit * base ^ digits.length + number base digits := by
  rw [number, List.reverse_cons, Nat.ofDigits_append, Nat.ofDigits_singleton, List.length_reverse, number]
  ring

theorem number_append (digits digits' : List ℕ) :
    number base (digits ++ digits') = number base digits * base ^ digits'.length + number base digits' := by
  rw [number, List.reverse_append, Nat.ofDigits_append, List.length_reverse, number, number]
  ring

theorem number_eq_zero_iff (hbase : 0 < base) {digits : List ℕ} :
    number base digits = 0 ↔ ∀ digit ∈ digits, digit = 0 := by
  induction digits with
  | nil => simp [number_nil]
  | cons digit digits ih =>
    have hpow : 0 < base ^ digits.length := Nat.pow_pos hbase
    rw [number_cons, Nat.add_eq_zero_iff, Nat.mul_eq_zero, or_iff_left (by omega), ih, List.forall_mem_cons]

theorem number_quotients {remainder : ℕ} {digits : List ℕ} (hremainder : remainder < divisor) :
    number base (quotients base divisor remainder digits) =
      (remainder * base ^ digits.length + number base digits) / divisor := by
  induction digits generalizing remainder with
  | nil =>
    rw [quotients, number_nil, List.length_nil, pow_zero, Nat.mul_one, Nat.add_zero, Nat.div_eq_of_lt hremainder]
  | cons digit digits ih =>
    have hpos : 0 < divisor := by omega
    have hread : remainder * base ^ (digit :: digits).length + number base (digit :: digits) =
        (remainder * base + digit) * base ^ digits.length + number base digits := by
      rw [number_cons, List.length_cons, pow_succ]
      ring
    rw [hread, extend_div _ _ _ hpos, quotients, number_cons, quotients_length, ih (Nat.mod_lt _ hpos)]

end KuberCoin.LongDivisions
