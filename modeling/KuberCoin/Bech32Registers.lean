import KuberCoin.Bech32Codes

/-!
The checksum of addresses as a feedback register of six symbols of five bits.
A step is a shift by one symbol with taps that depend on the symbol pushed out. No register
except zero is moved to zero, since the taps of a symbol differ from zero in their last five bits.
-/
namespace KuberCoin.Bech32Registers

open FeedbackRegisters Bech32Codes

section Taps

/-- The generators of the set bits of what is pushed out. -/
def taps (top : ℕ) : List (ℕ × ℕ) → ℕ
  | [] => 0
  | g :: rest => (if (top >>> g.2) &&& 1 ≠ 0 then g.1 else 0) ^^^ taps top rest

theorem foldl_taps (top chk : ℕ) (gens : List (ℕ × ℕ)) :
    gens.foldl (fun chk g => if (top >>> g.2) &&& 1 ≠ 0 then chk ^^^ g.1 else chk) chk =
      chk ^^^ taps top gens := by
  induction gens generalizing chk with
  | nil => simp [taps]
  | cons g rest ih =>
    rw [List.foldl_cons, ih, taps]
    split
    · rw [Nat.xor_assoc]
    · rw [Nat.zero_xor]

theorem tap_xor (a b i g : ℕ) : (if ((a ^^^ b) >>> i) &&& 1 ≠ 0 then g else 0) =
      (if (a >>> i) &&& 1 ≠ 0 then g else 0) ^^^ (if (b >>> i) &&& 1 ≠ 0 then g else 0) := by
  rw [Nat.shiftRight_xor_distrib, Nat.and_xor_distrib_right, Nat.and_one_is_mod, Nat.and_one_is_mod]
  obtain ha | ha := Nat.mod_two_eq_zero_or_one (a >>> i) <;>
    obtain hb | hb := Nat.mod_two_eq_zero_or_one (b >>> i) <;> simp [ha, hb]

theorem taps_xor (a b : ℕ) (gens : List (ℕ × ℕ)) : taps (a ^^^ b) gens = taps a gens ^^^ taps b gens := by
  induction gens with
  | nil => simp [taps]
  | cons g rest ih =>
    rw [taps, taps, taps, ih, tap_xor]
    ac_rfl

end Taps

section Moves

/-- A step with the symbol zero. -/
def move (chk : ℕ) : ℕ := ((chk &&& 0x1ffffff) <<< 5) ^^^ taps (chk >>> 25) gen.zipIdx

theorem polymodStep_eq (chk value : ℕ) : polymodStep chk value = move chk ^^^ value := by
  unfold polymodStep move
  rw [foldl_taps]
  ac_rfl

theorem polymod_eq (values : List UInt8) : polymod values = run move 1 (values.map UInt8.toNat) := by
  simp only [polymod, run, List.foldl_map, polymodStep_eq]

def feedback (top : ℕ) : ℕ := taps top gen.zipIdx

theorem move_eq (chk : ℕ) : move chk = shiftBack 5 5 feedback chk := by
  have hand : chk &&& 0x1ffffff = chk % 2 ^ 25 := Nat.and_two_pow_sub_one_eq_mod chk 25
  rw [move, hand, Nat.shiftLeft_eq, Nat.shiftRight_eq_div_pow, shiftBack, feedback]

theorem move_additive : Additive move := by
  intro a b
  rw [move_eq, move_eq, move_eq]
  exact shiftBack_additive (fun _ _ => taps_xor _ _ _) a b

theorem feedback_lt : ∀ top < 32, feedback top < 2 ^ 30 := by decide

theorem feedback_low : ∀ top < 32, feedback top % 32 = 0 → top = 0 := by decide

theorem feedback_zero : feedback 0 = 0 := by decide

theorem move_lt (chk : ℕ) (h : chk < 2 ^ 30) : move chk < 2 ^ 30 := by
  rw [move_eq]
  exact shiftBack_lt feedback_lt h

theorem move_shift (chk : ℕ) (h : chk < 2 ^ (5 * 5)) : move chk = chk * 2 ^ 5 := by
  rw [move_eq]
  exact shiftBack_of_lt feedback_zero h

theorem move_eq_zero (chk : ℕ) (h : chk < 2 ^ 30) (hzero : move chk = 0) : chk = 0 := by
  rw [move_eq] at hzero
  exact shiftBack_eq_zero feedback_zero feedback_low h hzero

theorem iterate_move_ne_zero (n : ℕ) {diff : ℕ} (h : diff < 2 ^ 30) (hne : diff ≠ 0) : move^[n] diff ≠ 0 :=
  iterate_ne_zero move_lt move_eq_zero n h hne

theorem run_move_lt {values : List ℕ} (h : ∀ v ∈ values, v < 256) : run move 1 values < 2 ^ 30 := by
  apply run_lt move_lt (by norm_num)
  intro v hv
  have hlt := h v hv
  omega

theorem run_checksum_iff {values digits : List ℕ} {constant : ℕ} (hvalues : ∀ v ∈ values, v < 256)
    (hconstant : constant < 2 ^ 30) (hlength : digits.length = 6) (hdigits : ∀ d ∈ digits, d < 32) :
    run move 1 (values ++ digits) = constant ↔
      digits = topDigits 5 6 (run move 1 (values ++ List.replicate 6 0) ^^^ constant) :=
  run_append_eq_iff move_additive (by omega) move_shift move_lt hconstant (run_move_lt hvalues) hlength
    hdigits

end Moves

end KuberCoin.Bech32Registers
