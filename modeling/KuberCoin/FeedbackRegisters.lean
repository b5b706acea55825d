import Mathlib.Data.Nat.Bitwise
import Mathlib.Data.Nat.Digits.Defs
import Mathlib.Data.Nat.Digits.Lemmas
import Mathlib.Logic.Function.Iterate

/-!
Checksums of a register that is fed one symbol at a time.
A step moves the register by an additive map (for exclusive or) and adds the symbol. What two
words differ in then moves through the register by itself, and where the map is a plain shift
the last symbols of a word stand side by side in the register.
-/
namespace KuberCoin.FeedbackRegisters

section Additivity

/-- The map respects exclusive or. -/
def Additive (move : ℕ → ℕ) : Prop := ∀ a b, move (a ^^^ b) = move a ^^^ move b

variable {move : ℕ → ℕ}

theorem Additive.iterate (h : Additive move) (n : ℕ) : Additive (move^[n]) := by
  induction n with
  | zero => exact fun _ _ => rfl
  | succ n ih =>
    intro a b
    rw [Function.iterate_succ_apply, Function.iterate_succ_apply, Function.iterate_succ_apply, h a b, ih]

theorem iterate_ne_zero {bound : ℕ} (hkeep : ∀ a < bound, move a < bound) (hzero : ∀ a < bound, move a = 0 → a = 0)
    (n : ℕ) {a : ℕ} (ha : a < bound) (hne : a ≠ 0) : move^[n] a ≠ 0 := by
  induction n generalizing a with
  | zero => exact hne
  | succ n ih =>
    rw [Function.iterate_succ_apply]
    exact ih (hkeep a ha) fun h => hne (hzero a ha h)

end Additivity

section Runs

/-- The register after some symbols. -/
def run (move : ℕ → ℕ) (register : ℕ) (symbols : List ℕ) : ℕ :=
  symbols.foldl (fun r v => move r ^^^ v) register

variable {move : ℕ → ℕ}

@[simp]
theorem run_nil (register : ℕ) : run move register [] = register := rfl

@[simp]
theorem run_cons (register v : ℕ) (symbols : List ℕ) :
    run move register (v :: symbols) = run move (move register ^^^ v) symbols := rfl

theorem run_append (register : ℕ) (symbols symbols' : List ℕ) :
    run move register (symbols ++ symbols') = run move (run move register symbols) symbols' :=
  List.foldl_append

/-- What is added to the register moves through the rest of the word by itself. -/
theorem run_xor (h : Additive move) (r d : ℕ) (symbols : List ℕ) :
    run move (r ^^^ d) symbols = run move r symbols ^^^ move^[symbols.length] d := by
  induction symbols generalizing r d with
  | nil => rfl
  | cons v rest ih =>
    have hstep : move (r ^^^ d) ^^^ v = (move r ^^^ v) ^^^ move d := by
      rw [h r d, Nat.xor_assoc, Nat.xor_comm (move d), ← Nat.xor_assoc]
    rw [run_cons, hstep, ih, run_cons, List.length_cons, Function.iterate_succ_apply]

theorem run_substitute (h : Additive move) (register : ℕ) (before after : List ℕ) (x y : ℕ) :
    run move register (before ++ y :: after) =
      run move register (before ++ x :: after) ^^^ move^[after.length] (x ^^^ y) := by
  have hstep : ∀ r, move r ^^^ y = (move r ^^^ x) ^^^ (x ^^^ y) := by
    intro r
    rw [Nat.xor_assoc, ← Nat.xor_assoc x x y, Nat.xor_self, Nat.zero_xor]
  rw [run_append, run_append, run_cons, run_cons, hstep, run_xor h]

theorem run_lt {k : ℕ} (hkeep : ∀ a < 2 ^ k, move a < 2 ^ k) {register : ℕ} (hr : register < 2 ^ k) {symbols : List ℕ}
    (hsymbols : ∀ v ∈ symbols, v < 2 ^ k) : run move register symbols < 2 ^ k := by
  induction symbols generalizing register with
  | nil => exact hr
  | cons v rest ih =>
    have hv := hsymbols v (by simp)
    exact ih (Nat.xor_lt_two_pow (hkeep register hr) hv) fun u hu => hsymbols u (by simp [hu])

end Runs

section Tails

variable {move : ℕ → ℕ} {d m w : ℕ} {digits : List ℕ}

theorem mul_two_pow_xor (hd : d < 2 ^ w) (a : ℕ) : a * 2 ^ w ^^^ d = d + 2 ^ w * a := by
  apply Nat.eq_of_testBit_eq
  intro i
  rw [Nat.add_comm, Nat.testBit_xor, Nat.mul_comm, Nat.testBit_two_pow_mul_add a hd,
    Nat.testBit_two_pow_mul]
  by_cases hi : i < w
  · simp [hi, Nat.not_le_of_lt hi]
  · have hhigh : d.testBit i = false :=
      Nat.testBit_lt_two_pow (hd.trans_le (Nat.pow_le_pow_right (by omega) (by omega)))
    simp [hi, hhigh, Nat.le_of_not_lt hi]

/-- Symbols fed to an empty register stand in it as the digits of a number, as long as the map
only shifts. -/
theorem run_digits (hw : w ≠ 0) (hshift : ∀ a < 2 ^ (w * m), move a = a * 2 ^ w) (hlength : digits.length ≤ m + 1)
    (hdigits : ∀ d ∈ digits, d < 2 ^ w) : run move 0 digits = Nat.ofDigits (2 ^ w) digits.reverse := by
  induction digits using List.reverseRecOn with
  | nil => rfl
  | append_singleton digits d ih =>
    rw [List.length_append, List.length_singleton] at hlength
    have hin : ∀ u ∈ digits.reverse, u < 2 ^ w := by
      intro u hu
      exact hdigits u (by simp [List.mem_reverse.mp hu])
    have hd : d < 2 ^ w := hdigits d (by simp)
    have hlt : Nat.ofDigits (2 ^ w) digits.reverse < 2 ^ (w * m) := by
      calc
        _ < (2 ^ w) ^ digits.reverse.length :=
          Nat.ofDigits_lt_base_pow_length (Nat.one_lt_two_pow hw) hin
        _ = 2 ^ (w * digits.length) := by rw [← pow_mul, List.length_reverse]
        _ ≤ 2 ^ (w * m) := Nat.pow_le_pow_right (by omega) (Nat.mul_le_mul_left w (by omega))
    rw [run_append, ih (by omega) fun u hu => hdigits u (by simp [hu]), run_cons, run_nil, hshift _ hlt,
      mul_two_pow_xor hd, List.reverse_append, List.reverse_singleton, List.singleton_append,
      Nat.ofDigits_cons]

/-- The lowest `n` digits of a number, the highest first. -/
def topDigits (w n c : ℕ) : List ℕ := (List.range n).map fun i => c >>> (w * (n - 1 - i)) &&& (2 ^ w - 1)

@[simp]
theorem topDigits_length (w n c : ℕ) : (topDigits w n c).length = n := by simp [topDigits]

theorem topDigits_lt {n c : ℕ} (hd : d ∈ topDigits w n c) : d < 2 ^ w := by
  obtain ⟨i, -, rfl⟩ := List.mem_map.mp hd
  rw [Nat.and_two_pow_sub_one_eq_mod]
  exact Nat.mod_lt _ (by positivity)

theorem topDigits_succ (w n c : ℕ) : topDigits w (n + 1) c = (c >>> (w * n) &&& (2 ^ w - 1)) :: topDigits w n c := by
  unfold topDigits
  rw [List.range_succ_eq_map, List.map_cons, List.map_map]
  congr 1
  apply List.map_congr_left
  intro i hi
  have hlt : i < n := List.mem_range.mp hi
  have hsub : n + 1 - 1 - (i + 1) = n - 1 - i := by omega
  simp only [Function.comp, Nat.succ_eq_add_one, hsub]

theorem ofDigits_topDigits (w n c : ℕ) : Nat.ofDigits (2 ^ w) (topDigits w n c).reverse = c % 2 ^ (w * n) := by
  induction n with
  | zero => simp [topDigits, Nat.mod_one]
  | succ n ih =>
    rw [topDigits_succ, List.reverse_cons, Nat.ofDigits_append, ih, Nat.ofDigits_singleton,
      List.length_reverse, topDigits_length, Nat.and_two_pow_sub_one_eq_mod, Nat.shiftRight_eq_div_pow,
      ← pow_mul, Nat.mul_succ, pow_add, Nat.mod_mul]

/-- There is one way to end a word so that the register holds a given value: the digits of what
the word leaves when it ends in zeros, added to that value. -/
theorem run_append_eq_iff (h : Additive move) (hw : w ≠ 0) (hshift : ∀ a < 2 ^ (w * m), move a = a * 2 ^ w)
    (hkeep : ∀ a < 2 ^ (w * (m + 1)), move a < 2 ^ (w * (m + 1))) {register value : ℕ}
    (hvalue : value < 2 ^ (w * (m + 1))) {symbols : List ℕ} (hr : run move register symbols < 2 ^ (w * (m + 1)))
    (hlength : digits.length = m + 1) (hdigits : ∀ d ∈ digits, d < 2 ^ w) :
    run move register (symbols ++ digits) = value ↔
      digits = topDigits w (m + 1)
        (run move register (symbols ++ List.replicate (m + 1) 0) ^^^ value) := by
  have hend : ∀ ends : List ℕ, ends.length = m + 1 → (∀ d ∈ ends, d < 2 ^ w) →
      run move register (symbols ++ ends) =
        Nat.ofDigits (2 ^ w) ends.reverse ^^^ move^[m + 1] (run move register symbols) := by
    intro ends hends hlt
    have hxor := run_xor h 0 (run move register symbols) ends
    rw [Nat.zero_xor, run_digits hw hshift hends.le hlt, hends] at hxor
    rw [run_append, hxor]
  have hzeros : run move register (symbols ++ List.replicate (m + 1) 0) =
      move^[m + 1] (run move register symbols) := by
    have hall : ∀ d ∈ List.replicate (m + 1) 0, d < 2 ^ w := by
      intro d hd
      rw [List.eq_of_mem_replicate hd]
      positivity
    rw [hend _ List.length_replicate hall, List.reverse_replicate, Nat.ofDigits_replicate_zero,
      Nat.zero_xor]
  have hmoved : move^[m + 1] (run move register symbols) < 2 ^ (w * (m + 1)) :=
    Function.Iterate.rec (fun a => a < 2 ^ (w * (m + 1))) hr (fun a ha => hkeep a ha) (m + 1)
  rw [hend digits hlength hdigits, hzeros]
  constructor
  · intro heq
    apply List.reverse_injective
    apply Nat.ofDigits_inj_of_len_eq (Nat.one_lt_two_pow hw) (by simp [hlength])
    · intro d hd
      exact hdigits d (List.mem_reverse.mp hd)
    · intro d hd
      exact topDigits_lt (List.mem_reverse.mp hd)
    · rw [ofDigits_topDigits, Nat.mod_eq_of_lt (Nat.xor_lt_two_pow hmoved hvalue), ← heq, Nat.xor_comm,
        Nat.xor_assoc, Nat.xor_self, Nat.xor_zero]
  · intro heq
    rw [heq, ofDigits_topDigits, Nat.mod_eq_of_lt (Nat.xor_lt_two_pow hmoved hvalue), Nat.xor_comm,
      ← Nat.xor_assoc, Nat.xor_self, Nat.zero_xor]

/-- Words that differ in symbols which the register holds at the same time leave different registers. -/
theorem run_burst_ne (h : Additive move) (hw : w ≠ 0) (hshift : ∀ a < 2 ^ (w * m), move a = a * 2 ^ w)
    (hkeep : ∀ a < 2 ^ (w * (m + 1)), move a < 2 ^ (w * (m + 1))) (hzero : ∀ a < 2 ^ (w * (m + 1)), move a = 0 → a = 0)
    (register : ℕ) (front back : List ℕ) {xs ys : List ℕ} (hlength : xs.length = ys.length) (hfit : xs.length ≤ m + 1)
    (hxs : ∀ d ∈ xs, d < 2 ^ w) (hys : ∀ d ∈ ys, d < 2 ^ w) (hne : xs ≠ ys) :
    run move register (front ++ xs ++ back) ≠ run move register (front ++ ys ++ back) := by
  have hsplit : ∀ zs, run move (run move register front) zs =
      run move 0 zs ^^^ move^[zs.length] (run move register front) := by
    intro zs
    have hxor := run_xor h 0 (run move register front) zs
    rwa [Nat.zero_xor] at hxor
  have hlt : ∀ zs : List ℕ, zs.length ≤ m + 1 → (∀ d ∈ zs, d < 2 ^ w) → run move 0 zs < 2 ^ (w * (m + 1)) :=
    fun zs hle hzs => run_lt hkeep (by positivity) fun v hv =>
      (hzs v hv).trans_le (Nat.pow_le_pow_right (by omega) (Nat.le_mul_of_pos_right w (by omega)))
  have hdiffer : run move 0 xs ^^^ run move 0 ys ≠ 0 := by
    intro heq
    have hsame := Nat.xor_eq_zero_iff.mp heq
    rw [run_digits hw hshift hfit hxs, run_digits hw hshift (by omega) hys] at hsame
    exact hne (List.reverse_injective (Nat.ofDigits_inj_of_len_eq (Nat.one_lt_two_pow hw) (by simp [hlength])
      (fun d hd => hxs d (List.mem_reverse.mp hd)) (fun d hd => hys d (List.mem_reverse.mp hd)) hsame))
  have hmoved := iterate_ne_zero hkeep hzero back.length
    (Nat.xor_lt_two_pow (hlt xs hfit hxs) (hlt ys (by omega) hys)) hdiffer
  have hxs' : run move (run move register front) xs =
      run move (run move register front) ys ^^^ (run move 0 xs ^^^ run move 0 ys) := by
    rw [hsplit xs, hsplit ys, hlength, Nat.xor_comm (run move 0 ys), Nat.xor_assoc, Nat.xor_comm (run move 0 ys),
      Nat.xor_assoc, Nat.xor_self, Nat.xor_zero, Nat.xor_comm]
  intro heq
  rw [run_append, run_append, run_append, run_append, hxs', run_xor h] at heq
  apply hmoved
  have hcancel := congrArg (fun r => run move (run move (run move register front) ys) back ^^^ r) heq
  simpa only [← Nat.xor_assoc, Nat.xor_self, Nat.zero_xor] using hcancel

end Tails

section Shifts

variable {c : ℕ}

/-- A shift of `m + 1` symbols by one, with a feedback of the symbol that is pushed out. -/
def shiftBack (w m : ℕ) (feedback : ℕ → ℕ) (c : ℕ) : ℕ :=
  (c % 2 ^ (w * m)) * 2 ^ w ^^^ feedback (c / 2 ^ (w * m))

variable {w m : ℕ} {feedback : ℕ → ℕ}

theorem shiftBack_additive (h : Additive feedback) : Additive (shiftBack w m feedback) := by
  intro a b
  have hmul : ∀ a b, (a ^^^ b) * 2 ^ w = a * 2 ^ w ^^^ b * 2 ^ w := by
    intro a b
    rw [← Nat.shiftLeft_eq, ← Nat.shiftLeft_eq, ← Nat.shiftLeft_eq, Nat.shiftLeft_xor_distrib]
  unfold shiftBack
  rw [Nat.xor_mod_two_pow, hmul, Nat.xor_div_two_pow, h]
  ac_rfl

theorem top_lt (hc : c < 2 ^ (w * (m + 1))) : c / 2 ^ (w * m) < 2 ^ w := by
  rw [Nat.mul_succ, pow_add] at hc
  exact Nat.div_lt_of_lt_mul hc

theorem shiftBack_lt (hfeedback : ∀ top < 2 ^ w, feedback top < 2 ^ (w * (m + 1))) (hc : c < 2 ^ (w * (m + 1))) :
    shiftBack w m feedback c < 2 ^ (w * (m + 1)) := by
  apply Nat.xor_lt_two_pow _ (hfeedback _ (top_lt hc))
  rw [Nat.mul_succ, pow_add]
  exact Nat.mul_lt_mul_of_pos_right (Nat.mod_lt c (by positivity)) (by positivity)

theorem shiftBack_of_lt (hzero : feedback 0 = 0) (hc : c < 2 ^ (w * m)) : shiftBack w m feedback c = c * 2 ^ w := by
  rw [shiftBack, Nat.div_eq_of_lt hc, hzero, Nat.mod_eq_of_lt hc, Nat.xor_zero]

theorem shiftBack_eq_zero (hzero : feedback 0 = 0) (hlow : ∀ top < 2 ^ w, feedback top % 2 ^ w = 0 → top = 0)
    (hc : c < 2 ^ (w * (m + 1))) (h : shiftBack w m feedback c = 0) : c = 0 := by
  have heq : c % 2 ^ (w * m) * 2 ^ w = feedback (c / 2 ^ (w * m)) := Nat.xor_eq_zero_iff.mp h
  have htop : c / 2 ^ (w * m) = 0 := by
    apply hlow _ (top_lt hc)
    rw [← heq, Nat.mul_mod_left]
  rw [htop, hzero] at heq
  have hrest : c % 2 ^ (w * m) = 0 := (Nat.mul_eq_zero.mp heq).resolve_right (by positivity)
  rw [← Nat.div_add_mod c (2 ^ (w * m)), htop, hrest, Nat.mul_zero]

end Shifts

end KuberCoin.FeedbackRegisters
