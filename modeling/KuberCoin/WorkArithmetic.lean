import KuberCoin.Difficulty
import KuberCoin.LongDivisions
import Mathlib.Data.Nat.Bitwise
import Mathlib.Tactic.IntervalCases

/-!
Retargeting and work on 256-bit numbers (crate `consensus`, `difficulty`). Both divisions read their dividend
digit by digit: retargeting a product of forty bytes, `div256` the 256 bits of an array. The loops compute
the quotient of the numbers, and nothing is lost in a carry.
-/
namespace KuberCoin.WorkArithmetic

open Bytes Difficulty LongDivisions

section Numbers

theorem value_eq_number (bs : List UInt8) : value bs = number 256 (bs.map UInt8.toNat) := by
  induction bs with
  | nil => rfl
  | cons b bs ih => rw [value, List.map_cons, number_cons, List.length_map, ih]

theorem toNat_bytes_lt {bs : List UInt8} : ∀ digit ∈ bs.map UInt8.toNat, digit < 256 := by
  intro digit hdigit
  obtain ⟨b, -, rfl⟩ := List.mem_map.mp hdigit
  exact b.toNat_lt

theorem value_map_ofNat {digits : List ℕ} (hdigits : ∀ digit ∈ digits, digit < 256) :
    value (digits.map UInt8.ofNat) = number 256 digits := by
  have hback : (digits.map UInt8.ofNat).map UInt8.toNat = digits := by
    rw [List.map_map]
    refine (List.map_congr_left fun digit hdigit => ?_).trans (List.map_id digits)
    exact UInt8.toNat_ofNat_of_lt' (hdigits digit hdigit)
  rw [value_eq_number, hback]

end Numbers

section Retargeting

theorem mulCarry_value (factor : ℕ) (bs : List UInt8) :
    value (mulCarry factor bs).1 + (mulCarry factor bs).2 * 256 ^ bs.length = value bs * factor := by
  induction bs with
  | nil => simp [mulCarry, value]
  | cons b bs ih =>
    have hsplit : (b.toNat * factor + (mulCarry factor bs).2) % 256 +
        256 * ((b.toNat * factor + (mulCarry factor bs).2) / 256) = b.toNat * factor + (mulCarry factor bs).2 :=
      Nat.mod_add_div _ _
    simp only [mulCarry, value, mulCarry_length, List.length_cons, UInt8.toNat_ofNat']
    calc
      _ = ((b.toNat * factor + (mulCarry factor bs).2) % 256 +
            256 * ((b.toNat * factor + (mulCarry factor bs).2) / 256)) * 256 ^ bs.length +
          value (mulCarry factor bs).1 := by ring
      _ = b.toNat * factor * 256 ^ bs.length +
          (value (mulCarry factor bs).1 + (mulCarry factor bs).2 * 256 ^ bs.length) := by rw [hsplit]; ring
      _ = (b.toNat * 256 ^ bs.length + value bs) * factor := by rw [ih]; ring

theorem mulCarry_lt {factor : ℕ} (hpos : 0 < factor) (bs : List UInt8) : (mulCarry factor bs).2 < factor := by
  have hvalue := mulCarry_value factor bs
  have hlt := Nat.mul_lt_mul_of_pos_right (value_lt bs) hpos
  refine Nat.lt_of_mul_lt_mul_right (a := 256 ^ bs.length) ?_
  rw [Nat.mul_comm factor]
  omega

theorem value_product (target : Bytes32) {timespan : UInt64} (hpos : 0 < timespan.toNat) :
    value (product target timespan) = value target.bytes * timespan.toNat := by
  have hcarry := mulCarry_lt hpos target.bytes
  have htimespan := timespan.toNat_lt
  have hhead : value (leBytes 8 (mulCarry timespan.toNat target.bytes).2).reverse =
      (mulCarry timespan.toNat target.bytes).2 := by
    have hvalue := leValue_leBytes 8 (mulCarry timespan.toNat target.bytes).2
    rw [leValue] at hvalue
    rw [hvalue]
    omega
  rw [product, value_append, hhead, mulCarry_length, ← mulCarry_value]
  omega

theorem divBytes_eq {divisor : ℕ} (hsmall : divisor < 2 ^ 56) (bs : List UInt8) {remainder : ℕ}
    (hremainder : remainder < divisor) :
    divBytes divisor remainder bs = quotients 256 divisor remainder (bs.map UInt8.toNat) := by
  induction bs generalizing remainder with
  | nil => rfl
  | cons b bs ih =>
    have hfits : remainder * 256 % 2 ^ 64 = remainder * 256 := Nat.mod_eq_of_lt (by omega)
    rw [divBytes, List.map_cons, quotients]
    simp only [hfits]
    rw [ih (Nat.mod_lt _ (by omega))]

variable {oldTarget maxTarget : Bytes32} {actualTimespan targetTimespan : UInt64}

theorem take_drop_number (qs : List ℕ) (hlength : qs.length = 40) :
    number 256 qs = number 256 (qs.take 8) * 2 ^ 256 + number 256 (qs.drop 8) := by
  have happend := @number_append 256 (qs.take 8) (qs.drop 8)
  rw [List.take_append_drop, List.length_drop, hlength] at happend
  rw [happend]
  norm_num

/-- The cap on the digits of a quotient is the cap on the number: digits above 256 bits count as too large. -/
theorem capped_number {qs : List ℕ} (hlength : qs.length = 40) (hdigits : ∀ q ∈ qs, q < 256) :
    (if ((qs.take 8).any (· ≠ 0) || compareBytes ((qs.drop 8).map UInt8.ofNat) maxTarget.bytes == .gt) = true
      then value maxTarget.bytes else value ((qs.drop 8).map UInt8.ofNat)) =
        min (value maxTarget.bytes) (number 256 qs) := by
  have hresult : value ((qs.drop 8).map UInt8.ofNat) = number 256 (qs.drop 8) :=
    value_map_ofNat fun digit hdigit => hdigits digit (List.mem_of_mem_drop hdigit)
  have hcompare := @compareBytes_eq_gt_iff ((qs.drop 8).map UInt8.ofNat) maxTarget.bytes
    (by rw [List.length_map, List.length_drop, hlength, maxTarget.length_eq])
  have hmax := workValue_lt maxTarget
  unfold workValue at hmax
  rw [hresult] at hcompare ⊢
  rw [take_drop_number qs hlength]
  by_cases hhead : number 256 (qs.take 8) = 0
  · have hnone : (qs.take 8).any (· ≠ 0) = false := by
      rw [List.any_eq_false]
      intro q hq
      simp [(number_eq_zero_iff (by decide)).mp hhead q hq]
    simp only [hnone, Bool.false_or, beq_iff_eq, hcompare, hhead, Nat.zero_mul, Nat.zero_add]
    split
    · omega
    · omega
  · have hsome : (qs.take 8).any (· ≠ 0) = true := by
      by_contra hnone
      refine hhead ((number_eq_zero_iff (by decide)).mpr fun q hq => ?_)
      by_contra hne
      exact hnone (List.any_eq_true.mpr ⟨q, hq, decide_eq_true hne⟩)
    have hpow : 2 ^ 256 ≤ number 256 (qs.take 8) * 2 ^ 256 := Nat.le_mul_of_pos_left _ (Nat.pos_of_ne_zero hhead)
    simp only [hsome, Bool.true_or, if_true]
    omega

theorem value_retargetTarget (hpos : 1 ≤ targetTimespan.toNat) (hsmall : targetTimespan.toNat < 2 ^ 56) :
    value (retargetTarget oldTarget actualTimespan targetTimespan maxTarget).bytes =
      min (value maxTarget.bytes) (value oldTarget.bytes * actualTimespan.toNat / targetTimespan.toNat) := by
  have hnonzero : targetTimespan ≠ 0 := by
    rintro rfl
    exact absurd hpos (by decide)
  unfold retargetTarget
  simp only
  rw [if_neg hnonzero]
  by_cases hactual : actualTimespan = 0
  · rw [if_pos hactual, hactual, show (0 : UInt64).toNat = 0 from rfl, Nat.mul_zero, Nat.zero_div, Nat.min_zero]
    exact value_replicate_zero 32
  · have hfactor : 0 < actualTimespan.toNat :=
      Nat.pos_of_ne_zero fun h => hactual (UInt64.toNat_inj.mp h)
    have hdivided := @number_quotients 256 targetTimespan.toNat 0
      ((product oldTarget actualTimespan).map UInt8.toNat) hpos
    rw [Nat.zero_mul, Nat.zero_add, ← value_eq_number, value_product _ hfactor] at hdivided
    have hdigits := @quotients_lt 256 targetTimespan.toNat 0 ((product oldTarget actualTimespan).map UInt8.toNat) hpos
      toNat_bytes_lt
    have hlength : (quotients 256 targetTimespan.toNat 0 ((product oldTarget actualTimespan).map UInt8.toNat)).length =
        40 := by
      rw [quotients_length, List.length_map, product_length]
    rw [if_neg hactual, apply_ite Bytes32.bytes, apply_ite value]
    simp only [divBytes_eq hsmall _ hpos]
    rw [← hdivided]
    exact capped_number hlength hdigits

/-- A new target is the exact quotient, or the maximal target where that one is smaller. -/
theorem retargetTarget_exact (hpos : 1 ≤ targetTimespan.toNat) (hsmall : targetTimespan.toNat < 2 ^ 56) :
    value (retargetTarget oldTarget actualTimespan targetTimespan maxTarget).bytes =
      min (value maxTarget.bytes) (value oldTarget.bytes * actualTimespan.toNat / targetTimespan.toNat) :=
  value_retargetTarget hpos hsmall

/-- Blocks that took twice the planned time double the target. -/
theorem doubled_target : 1 ≤ (1209600 : UInt64).toNat ∧ (1209600 : UInt64).toNat < 2 ^ 56 ∧
      value (retargetTarget (bitsToTarget 0x1c3fffc0) 2419200 1209600 (bitsToTarget 0x1d00ffff)).bytes =
        min (value (bitsToTarget 0x1d00ffff).bytes)
          (value (bitsToTarget 0x1c3fffc0).bytes * (2419200 : UInt64).toNat / (1209600 : UInt64).toNat) :=
  ⟨by decide, by decide, retargetTarget_exact (by decide) (by decide)⟩

end Retargeting

section Bits

variable {i k : ℕ}

theorem getByte_toNat (x : Bytes32) (hi : i < 32) : (getByte x i).toNat = value x.bytes / 256 ^ (31 - i) % 256 := by
  have hlength := x.length_eq
  have hsplit : x.bytes = x.bytes.take i ++ x.bytes.getD i 0 :: x.bytes.drop (i + 1) := by
    rw [List.getD_eq_getElem _ _ (by omega), List.getElem_cons_drop, List.take_append_drop]
  have hlow := value_lt (x.bytes.drop (i + 1))
  rw [List.length_drop, hlength, show 32 - (i + 1) = 31 - i by omega] at hlow
  have hbyte := (x.bytes.getD i 0).toNat_lt
  have hvalue : value x.bytes = (value (x.bytes.take i) * 256 + (x.bytes.getD i 0).toNat) * 256 ^ (31 - i) +
      value (x.bytes.drop (i + 1)) := by
    conv_lhs => rw [hsplit]
    rw [value_append, value, List.length_cons, List.length_drop, hlength, show 32 - (i + 1) = 31 - i by omega, pow_succ]
    ring
  rw [getByte, hvalue, Nat.mul_comm _ (256 ^ (31 - i)), Nat.mul_add_div (Nat.pow_pos (by omega)),
    Nat.div_eq_of_lt hlow]
  omega

theorem value_setByte (x : Bytes32) (hi : i < 32) (v : UInt8) :
    value (setByte x i v).bytes + (getByte x i).toNat * 256 ^ (31 - i) =
      value x.bytes + v.toNat * 256 ^ (31 - i) := by
  have hset : ∀ (bs : List UInt8) (i : ℕ), i < bs.length →
      value (bs.set i v) + (bs.getD i 0).toNat * 256 ^ (bs.length - 1 - i) =
        value bs + v.toNat * 256 ^ (bs.length - 1 - i) := by
    intro bs
    induction bs with
    | nil => simp
    | cons b bs ih =>
      intro i hi
      cases i with
      | zero =>
        simp only [List.set_cons_zero, value, List.getD_cons_zero, List.length_cons, Nat.add_sub_cancel, Nat.sub_zero]
        omega
      | succ i =>
        rw [List.length_cons] at hi
        have hrec := ih i (by omega)
        rw [List.set_cons_succ, value, value, List.length_set, List.getD_cons_succ, List.length_cons,
          show bs.length + 1 - 1 - (i + 1) = bs.length - 1 - i by omega]
        omega
  have hvalue := hset x.bytes i (by rw [x.length_eq]; exact hi)
  rw [x.length_eq] at hvalue
  exact hvalue

theorem pow_bytes (n : ℕ) : (256 : ℕ) ^ n = 2 ^ (8 * n) := by rw [pow_mul]; rfl

theorem bit_of_byte {m : ℕ} (hk : k < 8) : m % 256 / 2 ^ k % 2 = m / 2 ^ k % 2 := by
  interval_cases k <;> omega

theorem shifted_bit (x : Bytes32) (hi : i < 32) (hk : k < 8) :
    ((getByte x i >>> UInt8.ofNat k) &&& 1).toNat = value x.bytes / 2 ^ (8 * (31 - i) + k) % 2 := by
  have hshift : (UInt8.ofNat k).toNat % 8 = k := by
    rw [UInt8.toNat_ofNat']
    omega
  rw [UInt8.toNat_and, UInt8.toNat_shiftRight, hshift, getByte_toNat x hi, show (1 : UInt8).toNat = 1 from rfl,
    Nat.and_one_is_mod, Nat.shiftRight_eq_div_pow, bit_of_byte hk, pow_add, ← Nat.div_div_eq_div_mul, pow_bytes]

/-- Setting a bit of a number whose bits from this one on are clear adds it. -/
theorem value_setBit (x : Bytes32) (hi : i < 32) (hk : k < 8) (hclear : 2 ^ (8 * (31 - i) + k + 1) ∣ value x.bytes) :
    value (setByte x i (getByte x i ||| (1 <<< UInt8.ofNat k))).bytes = value x.bytes + 2 ^ (8 * (31 - i) + k) := by
  have hset := value_setByte x hi (getByte x i ||| (1 <<< UInt8.ofNat k))
  have hbyte : (getByte x i ||| (1 <<< UInt8.ofNat k)).toNat = (getByte x i).toNat + 2 ^ k := by
    have hshift : ((1 : UInt8) <<< UInt8.ofNat k).toNat = 2 ^ k := by
      interval_cases k <;> rfl
    have hdvd : 2 ^ (k + 1) ∣ (getByte x i).toNat := by
      obtain ⟨m, hm⟩ := hclear
      rw [getByte_toNat x hi, hm, pow_bytes, Nat.add_assoc, pow_add 2 _ (k + 1), Nat.mul_assoc,
        Nat.mul_div_cancel_left _ (Nat.two_pow_pos _)]
      exact (Nat.dvd_mod_iff (pow_dvd_pow 2 (show k + 1 ≤ 8 by omega))).mpr (Nat.dvd_mul_right _ _)
    obtain ⟨m, hm⟩ := hdvd
    rw [UInt8.toNat_or, hshift, hm, Nat.two_pow_add_eq_or_of_lt (Nat.pow_lt_pow_right (by omega) (by omega))]
  rw [hbyte, Nat.add_mul, pow_bytes] at hset
  rw [pow_add, Nat.mul_comm (2 ^ (8 * (31 - i)))]
  omega

end Bits

section Rounds

theorem value_addBytes {a b : Bytes32} {carry : ℕ} (hfits : value a.bytes + value b.bytes + carry < 2 ^ 256) :
    value (addBytes a b carry).bytes = value a.bytes + value b.bytes + carry := by
  have hsum := addCarry_value a.bytes b.bytes carry (by rw [a.length_eq, b.length_eq])
  rw [a.length_eq, pow_bytes] at hsum
  change value (addCarry a.bytes b.bytes carry).1 = _
  omega

theorem compareBytes_swap (as bs : List UInt8) : compareBytes bs as = (compareBytes as bs).swap := by
  induction as generalizing bs with
  | nil =>
    cases bs with
    | nil => rfl
    | cons => rfl
  | cons a as ih =>
    cases bs with
    | nil => rfl
    | cons b bs =>
      simp only [compareBytes]
      rcases Nat.lt_trichotomy a.toNat b.toNat with hlt | heq | hgt
      · rw [if_neg (by rw [UInt8.lt_iff_toNat_lt]; omega), if_pos (UInt8.lt_iff_toNat_lt.mpr hlt),
          if_pos (UInt8.lt_iff_toNat_lt.mpr hlt)]
        rfl
      · obtain rfl : a = b := UInt8.toNat_inj.mp heq
        simp only [UInt8.lt_irrefl, if_false, ih]
      · rw [if_pos (UInt8.lt_iff_toNat_lt.mpr hgt), if_neg (by rw [UInt8.lt_iff_toNat_lt]; omega),
          if_pos (UInt8.lt_iff_toNat_lt.mpr hgt)]
        rfl

theorem compareBytes_eq_compare {as bs : List UInt8} (hlen : as.length = bs.length) :
    compareBytes as bs = compare (value as) (value bs) := by
  have hgt := compareBytes_eq_gt_iff hlen
  have hlt := compareBytes_eq_gt_iff hlen.symm
  rw [compareBytes_swap as bs] at hlt
  rcases Nat.lt_trichotomy (value as) (value bs) with h | h | h
  · rw [Nat.compare_eq_lt.mpr h]
    cases hc : compareBytes as bs with
    | lt => rfl
    | eq => simp [hc, h] at hlt
    | gt => exact absurd (hgt.mp hc) (by omega)
  · rw [Nat.compare_eq_eq.mpr h]
    cases hc : compareBytes as bs with
    | lt => simp [hc, h] at hlt
    | eq => rfl
    | gt => exact absurd (hgt.mp hc) (by omega)
  · rw [Nat.compare_eq_gt.mpr h]
    exact hgt.mpr h

theorem subBorrow_value (as bs : List UInt8) (hlen : as.length = bs.length) : (subBorrow as bs).2 ≤ 1 ∧
      value (subBorrow as bs).1 + value bs = value as + (subBorrow as bs).2 * 256 ^ as.length := by
  induction as generalizing bs with
  | nil =>
    cases bs with
    | nil => exact ⟨Nat.zero_le _, rfl⟩
    | cons b bs => simp at hlen
  | cons a as ih =>
    cases bs with
    | nil => simp at hlen
    | cons b bs =>
      have hlen' : as.length = bs.length := by simpa using hlen
      obtain ⟨hsmall, hrec⟩ := ih bs hlen'
      have ha := a.toNat_lt
      have hb := b.toNat_lt
      have hwidth := subBorrow_length as bs hlen'
      unfold subBorrow
      simp only
      split
      · have hbyte : (UInt8.ofNat (a.toNat + 256 - b.toNat - (subBorrow as bs).2)).toNat + b.toNat + (subBorrow as bs).2 =
            a.toNat + 256 := by
          rw [UInt8.toNat_ofNat']
          omega
        refine ⟨Nat.le_refl _, ?_⟩
        simp only [value, hwidth, ← hlen', List.length_cons, pow_succ]
        have hmul := congrArg (· * 256 ^ as.length) hbyte
        simp only [Nat.add_mul] at hmul
        omega
      · have hbyte : (UInt8.ofNat (a.toNat - b.toNat - (subBorrow as bs).2)).toNat + b.toNat + (subBorrow as bs).2 =
            a.toNat := by
          rw [UInt8.toNat_ofNat']
          omega
        refine ⟨Nat.zero_le _, ?_⟩
        simp only [value, hwidth, ← hlen', Nat.zero_mul, Nat.add_zero]
        have hmul := congrArg (· * 256 ^ as.length) hbyte
        simp only [Nat.add_mul] at hmul
        omega

theorem value_subBytes {a b : Bytes32} (hle : value b.bytes ≤ value a.bytes) :
    value (subBytes a b).bytes = value a.bytes - value b.bytes := by
  obtain ⟨hsmall, hsub⟩ := subBorrow_value a.bytes b.bytes (by rw [a.length_eq, b.length_eq])
  have hlt := workValue_lt (subBytes a b)
  rw [a.length_eq, pow_bytes] at hsub
  change value (subBorrow a.bytes b.bytes).1 < 2 ^ 256 at hlt
  change value (subBorrow a.bytes b.bytes).1 = _
  rcases Nat.le_one_iff_eq_zero_or_eq_one.mp hsmall with hnone | hborrow
  · rw [hnone] at hsub
    omega
  · rw [hborrow] at hsub
    omega

/-- After some bits: the quotient and the remainder of the part of the dividend that these make up. -/
structure Divided (dividend divisor : Bytes32) (bits : ℕ) (s : Bytes32 × Bytes32) : Prop where
  quotient : value s.1.bytes = value dividend.bytes / 2 ^ (256 - bits) / value divisor.bytes * 2 ^ (256 - bits)
  remainder : value s.2.bytes = value dividend.bytes / 2 ^ (256 - bits) % value divisor.bytes

variable {dividend divisor : Bytes32}

/-- Each round reads one more bit; the doubled remainder still fits, because it is at most what has been read. -/
theorem Divided.round {s : Bytes32 × Bytes32} {bits : ℕ} (h : Divided dividend divisor bits s) (hbits : bits < 256)
    (hpos : 0 < value divisor.bytes) : Divided dividend divisor (bits + 1) (div256Round dividend divisor s bits) := by
  have hi : bits / 8 < 32 := by omega
  have hk : 7 - bits % 8 < 8 := by omega
  have hplace : 8 * (31 - bits / 8) + (7 - bits % 8) = 255 - bits := by omega
  have hnext : 256 - bits = 255 - bits + 1 := by omega
  have hlater : 256 - (bits + 1) = 255 - bits := by omega
  have hdividend := workValue_lt dividend
  unfold workValue at hdividend
  obtain ⟨hquotient, hremainder⟩ := h
  set n := value dividend.bytes / 2 ^ (256 - bits) with hn
  set d := value divisor.bytes with hd
  have hbit := shifted_bit dividend hi hk
  rw [hplace] at hbit
  set bit := ((getByte dividend (bits / 8) >>> UInt8.ofNat (7 - bits % 8)) &&& 1).toNat with hbitDef
  have hread : value dividend.bytes / 2 ^ (255 - bits) = n * 2 + bit := by
    rw [hn, hnext, pow_succ, ← Nat.div_div_eq_div_mul, hbit]
    omega
  have hsmall : n < 2 ^ bits := by
    rw [hn, Nat.div_lt_iff_lt_mul (Nat.two_pow_pos _), ← pow_add, show bits + (256 - bits) = 256 by omega]
    exact hdividend
  have hmod : n % d ≤ n := Nat.mod_le _ _
  have hlt : n % d < d := Nat.mod_lt _ hpos
  have hroom : 2 ^ bits ≤ 2 ^ 255 := Nat.pow_le_pow_right (by omega) (by omega)
  have hdoubled : value (addBytes s.2 s.2 bit).bytes = n % d * 2 + bit := by
    rw [value_addBytes (by omega), hremainder]
    omega
  have hdiv := extend_div 2 n bit hpos
  have hrem := extend_mod d 2 n bit
  have hcompare : compareBytes (addBytes s.2 s.2 bit).bytes divisor.bytes ≠ .lt ↔ d ≤ n % d * 2 + bit := by
    rw [compareBytes_eq_compare (by rw [Bytes32.length_eq, divisor.length_eq]), hdoubled, ne_eq, Nat.compare_eq_lt,
      Nat.not_lt]
  unfold div256Round
  simp only [← hbitDef]
  by_cases hge : d ≤ n % d * 2 + bit
  · have hone : (n % d * 2 + bit) / d = 1 := Nat.div_eq_of_lt_le (by omega) (by omega)
    have hless : (n % d * 2 + bit) % d = n % d * 2 + bit - d := by
      rw [Nat.mod_eq_sub_mod hge]
      exact Nat.mod_eq_of_lt (by omega)
    have hclear : 2 ^ (8 * (31 - bits / 8) + (7 - bits % 8) + 1) ∣ value s.1.bytes := by
      rw [hplace, ← hnext, hquotient]
      exact Nat.dvd_mul_left _ _
    have hset := value_setBit s.1 hi hk hclear
    rw [if_pos (hcompare.mpr hge)]
    refine ⟨?_, ?_⟩
    · rw [hset, hplace, hquotient, hlater, hread, hdiv, hone, hnext, pow_succ]
      ring
    · rw [value_subBytes (by rw [hdoubled]; exact hge), hdoubled, hlater, hread, hrem, hless]
  · have hzero : (n % d * 2 + bit) / d = 0 := Nat.div_eq_of_lt (by omega)
    rw [if_neg (fun h => hge (hcompare.mp h))]
    refine ⟨?_, ?_⟩
    · rw [hquotient, hlater, hread, hdiv, hzero, hnext, pow_succ]
      ring
    · rw [hdoubled, hlater, hread, hrem]
      exact (Nat.mod_eq_of_lt (by omega)).symm

theorem divided_range (hpos : 0 < value divisor.bytes) {bits : ℕ} (hbits : bits ≤ 256) : Divided dividend divisor bits
      ((List.range bits).foldl (div256Round dividend divisor) (Bytes32.zero, Bytes32.zero)) := by
  induction bits with
  | zero =>
    have hdividend := workValue_lt dividend
    unfold workValue at hdividend
    have hzero : value dividend.bytes / 2 ^ (256 - 0) = 0 := Nat.div_eq_of_lt hdividend
    refine ⟨?_, ?_⟩
    · rw [hzero, Nat.zero_div, Nat.zero_mul]
      exact value_replicate_zero 32
    · rw [hzero, Nat.zero_mod]
      exact value_replicate_zero 32
  | succ bits ih =>
    rw [List.range_succ, List.foldl_append]
    exact (ih (by omega)).round (by omega) hpos

theorem value_div256 (hne : divisor ≠ Bytes32.zero) :
    value (div256 dividend divisor).bytes = value dividend.bytes / value divisor.bytes := by
  have hpos : 0 < value divisor.bytes := by
    refine Nat.pos_of_ne_zero fun hzero => hne (workValue_injective ?_)
    rw [workValue_zero]
    exact hzero
  have hdivided := (@divided_range dividend divisor hpos 256 (Nat.le_refl _)).quotient
  rw [div256, if_neg hne, hdivided]
  simp

end Rounds

section Work

/-- The big-endian encoding of a number. -/
def encode (n : ℕ) : Bytes32 := ⟨(leBytes 32 n).reverse, by rw [List.length_reverse, leBytes_length]⟩

theorem value_encode {n : ℕ} (hn : n < 2 ^ 256) : value (encode n).bytes = n := by
  have hvalue := leValue_leBytes 32 n
  rw [pow_bytes, Nat.mod_eq_of_lt hn] at hvalue
  exact hvalue

theorem eq_encode {a : Bytes32} {n : ℕ} (h : value a.bytes = n) : a = encode n := by
  refine workValue_injective ?_
  have hlt := workValue_lt a
  unfold workValue at hlt ⊢
  have hn : n < 2 ^ 256 := by omega
  rw [value_encode hn, h]

theorem value_complement (a : Bytes32) : value (complement a).bytes + value a.bytes + 1 = 2 ^ 256 := by
  have hsum : ∀ bs : List UInt8, value (bs.map (~~~ ·)) + value bs + 1 = 256 ^ bs.length := by
    intro bs
    induction bs with
    | nil => rfl
    | cons b bs ih =>
      have hb := b.toNat_lt
      have hbyte : (~~~ b).toNat + b.toNat = 255 := by
        rw [UInt8.toNat_not]
        change 2 ^ 8 - 1 - b.toNat + b.toNat = 255
        omega
      have hmul := congrArg (· * 256 ^ bs.length) hbyte
      simp only [Nat.add_mul] at hmul
      simp only [List.map_cons, value, List.length_map, List.length_cons, pow_succ]
      omega
  rw [complement, hsum, a.length_eq, pow_bytes]

theorem addCarry_zero_one (a : Bytes32) :
    (addCarry a.bytes Bytes32.zero.bytes 1).2 ≠ 0 ↔ value a.bytes = 2 ^ 256 - 1 := by
  have hsum := addCarry_value a.bytes Bytes32.zero.bytes 1 (by rw [a.length_eq, Bytes32.zero.length_eq])
  have hlow := value_lt (addCarry a.bytes Bytes32.zero.bytes 1).1
  have ha := workValue_lt a
  rw [addCarry_length _ _ _ (by rw [a.length_eq, Bytes32.zero.length_eq]), a.length_eq, pow_bytes] at hlow
  rw [a.length_eq, pow_bytes, show value Bytes32.zero.bytes = 0 from value_replicate_zero 32] at hsum
  unfold workValue at ha
  constructor
  · intro hcarry
    have hpow : 2 ^ 256 ≤ (addCarry a.bytes Bytes32.zero.bytes 1).2 * 2 ^ (8 * 32) :=
      Nat.le_mul_of_pos_left _ (Nat.pos_of_ne_zero hcarry)
    omega
  · intro hmax hcarry
    rw [hcarry] at hsum
    omega

theorem value_workFromCompact (bits : UInt32) : value (workFromCompact bits).bytes =
      if value (bitsToTarget bits).bytes = 0 then 0 else 2 ^ 256 / (value (bitsToTarget bits).bytes + 1) := by
  have hzero : bitsToTarget bits = Bytes32.zero ↔ value (bitsToTarget bits).bytes = 0 := by
    refine ⟨fun h => ?_, fun h => workValue_injective ?_⟩
    · rw [h]
      exact value_replicate_zero 32
    · rw [workValue_zero]
      exact h
  have hlt := workValue_lt (bitsToTarget bits)
  unfold workValue at hlt
  unfold workFromCompact
  simp only
  generalize bitsToTarget bits = target at hzero hlt ⊢
  by_cases hnone : target = Bytes32.zero
  · rw [if_pos hnone, if_pos (hzero.mp hnone)]
    exact value_replicate_zero 32
  · have hpos : value target.bytes ≠ 0 := fun h => hnone (hzero.mpr h)
    rw [if_neg hnone, if_neg hpos]
    by_cases hmax : (addCarry target.bytes Bytes32.zero.bytes 1).2 ≠ 0
    · rw [if_pos hmax, (addCarry_zero_one target).mp hmax]
      decide
    · have hroom : value target.bytes + 1 < 2 ^ 256 := by
        have hneq : value target.bytes ≠ 2 ^ 256 - 1 := fun h => hmax ((addCarry_zero_one target).mpr h)
        omega
      have hzeroValue : value Bytes32.zero.bytes = 0 := value_replicate_zero 32
      have hnext : value (addBytes target Bytes32.zero 1).bytes = value target.bytes + 1 := by
        rw [value_addBytes (by omega), hzeroValue]
      have hcomplement := value_complement target
      have hne : addBytes target Bytes32.zero 1 ≠ Bytes32.zero := by
        intro h
        rw [h, hzeroValue] at hnext
        omega
      have hquotient := @value_div256 (complement target) _ hne
      rw [hnext] at hquotient
      have hwhole : 2 ^ 256 / (value target.bytes + 1) =
          value (complement target).bytes / (value target.bytes + 1) + 1 := by
        rw [show 2 ^ 256 = value (complement target).bytes + (value target.bytes + 1) by omega,
          Nat.add_div_right _ (by omega)]
      have hhalf : 2 ^ 256 / (value target.bytes + 1) ≤ 2 ^ 256 / 2 := Nat.div_le_div_left (by omega) (by omega)
      rw [if_neg hmax, value_addBytes (by rw [hquotient, hzeroValue]; omega), hquotient, hzeroValue, hwhole]

/-- The work of a target and the operations on work are those of the numbers, and a smaller target has no less
work. -/
theorem work_exact : (∀ bits, workFromCompact bits = encode (if value (bitsToTarget bits).bytes = 0 then 0
      else 2 ^ 256 / (value (bitsToTarget bits).bytes + 1))) ∧
    (∀ a b, b ≠ Bytes32.zero → div256 a b = encode (value a.bytes / value b.bytes)) ∧
    (∀ a b, addWork a b = encode ((value a.bytes + value b.bytes) % 2 ^ 256)) ∧
    (∀ a b, compareWork a b = compare (value a.bytes) (value b.bytes)) ∧
    (∀ bits bits', 0 < value (bitsToTarget bits).bytes →
      value (bitsToTarget bits).bytes ≤ value (bitsToTarget bits').bytes →
        compareWork (workFromCompact bits) (workFromCompact bits') ≠ .lt) := by
  refine ⟨fun bits => eq_encode (value_workFromCompact bits), fun a b hne => eq_encode (value_div256 hne),
    fun a b => eq_encode (workValue_addWork a b),
    fun a b => compareBytes_eq_compare (by rw [a.length_eq, b.length_eq]), ?_⟩
  intro bits bits' hpos hle
  have hdiv : 2 ^ 256 / (value (bitsToTarget bits').bytes + 1) ≤ 2 ^ 256 / (value (bitsToTarget bits).bytes + 1) :=
    Nat.div_le_div_left (by omega) (by omega)
  rw [compareWork, compareBytes_eq_compare (by rw [Bytes32.length_eq, Bytes32.length_eq]), ne_eq, Nat.compare_eq_lt,
    value_workFromCompact, value_workFromCompact, if_neg (by omega), if_neg (by omega)]
  omega

end Work

end KuberCoin.WorkArithmetic
