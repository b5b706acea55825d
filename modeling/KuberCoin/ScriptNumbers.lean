import KuberCoin.ScriptHashSpends

/-!
The numbers of scripts: what `int_to_bytes` writes is read back by `bytes_to_int`, is true
where the number is not zero, and names the number.
-/
namespace KuberCoin.ScriptNumbers

open Bytes ScriptInterpreters

section Magnitudes

theorem or_shift {v b i : ℕ} (hv : v < 256 ^ i) (hb : b < 256) (hi : i < 8) :
    Int64.ofNat v ||| (Int64.ofNat b <<< Int64.ofNat (8 * i % 64)) = Int64.ofNat (v + 256 ^ i * b) := by
  have hshift : ((Int64.ofNat (8 * i % 64)).toBitVec.smod 64).toNat = 8 * i := by
    interval_cases i <;> decide
  have hpow : (256 : ℕ) ^ i = 2 ^ (8 * i) := by
    rw [pow_mul]
    norm_num
  have hbound : 2 ^ (8 * i) * 256 ≤ 2 ^ 64 := by
    interval_cases i <;> decide
  rw [hpow] at hv ⊢
  have hlt : 2 ^ (8 * i) * b < 2 ^ 64 := by nlinarith
  have hsum : 2 ^ (8 * i) * b + v < 2 ^ 64 := by nlinarith
  apply Int64.toBitVec_inj.mp
  apply BitVec.eq_of_toNat_eq
  show ((Int64.ofNat v).toBitVec |||
    ((Int64.ofNat b).toBitVec <<< ((Int64.ofNat (8 * i % 64)).toBitVec.smod 64))).toNat = _
  rw [BitVec.toNat_or, BitVec.shiftLeft_eq', hshift, BitVec.toNat_shiftLeft]
  simp only [Int64.toBitVec_ofNat', BitVec.toNat_ofNat, Nat.shiftLeft_eq]
  rw [Nat.mod_eq_of_lt (by omega : v < 2 ^ 64), Nat.mod_eq_of_lt (by omega : b < 2 ^ 64), Nat.mul_comm b,
    Nat.mod_eq_of_lt hlt, Nat.mod_eq_of_lt (by omega), Nat.or_comm, Nat.add_comm, Nat.two_pow_add_eq_or_of_lt hv]

theorem orBytes_append {v i : ℕ} {bytes : List UInt8} (last : UInt8) (hv : v < 256 ^ i) (hlen : i + bytes.length ≤ 8) :
    orBytes (Int64.ofNat v) i (bytes ++ [last]) =
      orBytes (Int64.ofNat (v + 256 ^ i * leValue bytes)) (i + bytes.length) [last] := by
  induction bytes generalizing v i with
  | nil => simp [leValue, value]
  | cons b bytes ih =>
    have hb := b.toNat_lt
    rw [List.length_cons] at hlen ⊢
    have hnext : v + 256 ^ i * b.toNat < 256 ^ (i + 1) := by
      have hpos : 0 < 256 ^ i := by positivity
      rw [pow_succ]
      nlinarith
    have hcons : (b :: bytes) ++ [last] = b :: (bytes ++ [last]) := rfl
    have hstep : orBytes (Int64.ofNat v) i (b :: (bytes ++ [last])) =
        orBytes (Int64.ofNat v ||| (Int64.ofNat b.toNat <<< Int64.ofNat (8 * i % 64))) (i + 1) (bytes ++ [last]) := by
      cases bytes <;> rfl
    have hvalue : v + 256 ^ i * b.toNat + 256 ^ (i + 1) * leValue bytes = v + 256 ^ i * leValue (b :: bytes) := by
      rw [leValue_cons, pow_succ]
      ring
    rw [hcons, hstep, or_shift hv hb (by omega), ih hnext (by omega), hvalue,
      show i + 1 + bytes.length = i + (bytes.length + 1) from by omega]

theorem orBytes_sign {bytes : List UInt8} {sign : UInt8} (hlen : bytes.length ≤ 8) (hsign : sign &&& 0x7f = 0) :
    orBytes 0 0 (bytes ++ [sign]) = Int64.ofNat (leValue bytes) := by
  have happend := @orBytes_append 0 0 bytes sign (by simp) (by omega)
  rw [Nat.zero_add, pow_zero, one_mul, Nat.zero_add] at happend
  refine happend.trans ?_
  have hzero : ∀ x : Int64, (0 : Int64) <<< x = 0 := fun x => Int64.toBitVec_inj.mp (BitVec.zero_shiftLeft _)
  have hlast : orBytes (Int64.ofNat (leValue bytes)) bytes.length [sign] =
      Int64.ofNat (leValue bytes) ||| ((0 : Int64) <<< Int64.ofNat (8 * bytes.length % 64)) := by
    show _ ||| (Int64.ofNat (sign &&& 0x7f).toNat <<< _) = _
    rw [hsign]
    rfl
  rw [hlast, hzero]
  exact Int64.or_zero

theorem orBytes_last {bytes : List UInt8} {last : UInt8} (hlen : bytes.length < 8) :
    orBytes 0 0 (bytes ++ [last]) = Int64.ofNat (leValue (bytes ++ [last &&& 0x7f])) := by
  have happend := @orBytes_append 0 0 bytes last (by simp) (by omega)
  rw [Nat.zero_add, pow_zero, one_mul, Nat.zero_add] at happend
  refine happend.trans ?_
  have hlt : leValue bytes < 256 ^ bytes.length := by
    have := value_lt bytes.reverse
    rwa [List.length_reverse] at this
  have hvalue : leValue (bytes ++ [last &&& 0x7f]) = leValue bytes + 256 ^ bytes.length * (last &&& 0x7f).toNat := by
    rw [leValue, List.reverse_append, value_append]
    simp [value, leValue, Nat.mul_comm, Nat.add_comm]
  rw [hvalue]
  exact or_shift hlt (last &&& 0x7f).toNat_lt hlen

end Magnitudes

section LittleEndian

theorem leValue_littleEndian {fuel v : ℕ} (h : v < 256 ^ fuel) : leValue (littleEndian fuel v) = v := by
  induction fuel generalizing v with
  | zero =>
    have : v = 0 := by simpa using h
    rw [this]
    rfl
  | succ fuel ih =>
    rw [littleEndian]
    split
    next hzero =>
      rw [hzero]
      rfl
    next =>
      have hdiv : v / 256 < 256 ^ fuel := by
        rw [pow_succ] at h
        omega
      rw [leValue_cons, ih hdiv, UInt8.toNat_ofNat']
      omega

theorem length_littleEndian (fuel v : ℕ) : (littleEndian fuel v).length ≤ fuel := by
  induction fuel generalizing v with
  | zero => simp [littleEndian]
  | succ fuel ih =>
    rw [littleEndian]
    split
    next => simp
    next =>
      have := ih (v / 256)
      rw [List.length_cons]
      omega

theorem getLast_littleEndian {fuel v : ℕ} (h : v < 256 ^ fuel) {last : UInt8}
    (hlast : (littleEndian fuel v).getLast? = some last) : last ≠ 0 := by
  induction fuel generalizing v with
  | zero => simp [littleEndian] at hlast
  | succ fuel ih =>
    rw [littleEndian] at hlast
    split at hlast
    next => simp at hlast
    next hne =>
      have hdiv : v / 256 < 256 ^ fuel := by
        rw [pow_succ] at h
        omega
      cases hrest : littleEndian fuel (v / 256) with
      | nil =>
        have hsmall : v / 256 = 0 := by
          have := leValue_littleEndian hdiv
          rw [hrest] at this
          exact this.symm
        rw [hrest, List.getLast?_singleton, Option.some.injEq] at hlast
        rintro rfl
        have := congrArg UInt8.toNat hlast
        rw [UInt8.toNat_ofNat'] at this
        have hzero : (0 : UInt8).toNat = 0 := rfl
        omega
      | cons b rest =>
        rw [hrest, List.getLast?_cons_cons, ← hrest] at hlast
        exact ih hdiv hlast

end LittleEndian

section RoundTrip

variable {value : Int64}

/-- The bytes of a number: those of its magnitude, and the sign in a byte of its own where they
leave no room for it. -/
inductive Shape (value : Int64) : List UInt8 → Prop
  | zero (h : value.abs.toUInt64.toNat = 0) : Shape value []
  | own (init : List UInt8) (last : UInt8) (hlen : init.length < 8) (hhigh : last &&& 0x80 ≠ 0)
      (hvalue : leValue (init ++ [last]) = value.abs.toUInt64.toNat) :
      Shape value (init ++ [last] ++ [if value < 0 then 0x80 else 0x00])
  | shared (init : List UInt8) (last : UInt8) (hlen : init.length < 8) (hne : last ≠ 0) (hlow : last &&& 0x80 = 0)
      (hvalue : leValue (init ++ [last]) = value.abs.toUInt64.toNat) :
      Shape value (init ++ [if value < 0 then last ||| 0x80 else last])

theorem shape_intToBytes (value : Int64) : Shape value (intToBytes value) := by
  have hbound : value.abs.toUInt64.toNat < 256 ^ 8 := value.abs.toUInt64.toNat_lt
  have hmagnitude := leValue_littleEndian hbound
  have hlen := length_littleEndian 8 value.abs.toUInt64.toNat
  rw [intToBytes]
  cases hlast : (littleEndian 8 value.abs.toUInt64.toNat).getLast? with
  | none =>
    rw [List.getLast?_eq_none_iff.mp hlast] at hmagnitude
    exact .zero hmagnitude.symm
  | some last =>
    obtain ⟨init, hbytes⟩ := List.getLast?_eq_some_iff.mp hlast
    rw [hbytes] at hmagnitude hlen
    have hinit : init.length < 8 := by
      simp only [List.length_append, List.length_cons, List.length_nil] at hlen
      omega
    simp only [hbytes]
    by_cases hhigh : last &&& 0x80 = 0
    · have hne := getLast_littleEndian hbound hlast
      rw [if_neg (not_not.mpr hhigh), List.dropLast_concat]
      have hshape : Shape value (init ++ [if value < 0 then last ||| 0x80 else last]) :=
        .shared init last hinit hne hhigh hmagnitude
      by_cases hneg : value < 0
      · simpa only [hneg, if_true] using hshape
      · simpa only [hneg, if_false] using hshape
    · rw [if_pos hhigh]
      exact .own init last hinit hhigh hmagnitude

theorem ofNat_abs (value : Int64) : Int64.ofNat value.abs.toUInt64.toNat = value.abs := by
  apply Int64.toBitVec_inj.mp
  apply BitVec.eq_of_toNat_eq
  rw [Int64.toBitVec_ofNat', BitVec.toNat_ofNat]
  exact Nat.mod_eq_of_lt value.abs.toUInt64.toNat_lt

theorem lt_zero_iff_msb (value : Int64) : value < 0 ↔ value.toBitVec.msb = true := by
  show value.toBitVec.slt 0#64 = true ↔ _
  rw [BitVec.slt_zero_iff_msb_cond]

theorem neg_abs_of_neg (h : value < 0) : -value.abs = value := by
  apply Int64.toBitVec_inj.mp
  show -value.toBitVec.abs = value.toBitVec
  rw [BitVec.abs_eq, if_pos ((lt_zero_iff_msb value).mp h), BitVec.neg_neg]

theorem abs_of_not_neg (h : ¬ value < 0) : value.abs = value := by
  apply Int64.toBitVec_inj.mp
  show value.toBitVec.abs = value.toBitVec
  rw [BitVec.abs_eq, if_neg (mt (lt_zero_iff_msb value).mpr h)]

theorem getD_concat (bytes : List UInt8) (last : UInt8) :
    (bytes ++ [last]).getD ((bytes ++ [last]).length - 1) 0 = last := by
  simp

theorem bytesToInt_concat {bytes : List UInt8} {last : UInt8} {magnitude : Int64}
    (hminimal : nonMinimal (bytes ++ [last]) = false) (hmagnitude : orBytes 0 0 (bytes ++ [last]) = magnitude) :
    bytesToInt (bytes ++ [last]) = .ok (if last &&& 0x80 ≠ 0 then -magnitude else magnitude) := by
  rw [bytesToInt, if_neg (by simp), hminimal, getD_concat, hmagnitude]
  rfl

theorem byte_forall {P : UInt8 → Prop} (h : ∀ n < 256, P (UInt8.ofNat n)) (b : UInt8) : P b := by
  have := h b.toNat b.toNat_lt
  rwa [UInt8.ofNat_toNat] at this

/-- A byte with room for the sign. -/
theorem lowByte (b : UInt8) : b &&& 0x80 = 0 → b ≠ 0 → b &&& 0x7f = b ∧ b ≠ 0x80 := by
  revert b
  exact byte_forall (by decide +kernel)

theorem signedByte (b : UInt8) : b &&& 0x80 = 0 → b ≠ 0 →
    (b ||| 0x80) &&& 0x7f = b ∧ (b ||| 0x80) &&& 0x80 ≠ 0 ∧ b ||| 0x80 ≠ 0x80 ∧ b ||| 0x80 ≠ 0 := by
  revert b
  exact byte_forall (by decide +kernel)

theorem bytesToInt_intToBytes (value : Int64) : bytesToInt (intToBytes value) = .ok value := by
  have habs := ofNat_abs value
  have hsigned : (if value < 0 then -value.abs else value.abs) = value := by
    split
    next hneg => exact neg_abs_of_neg hneg
    next hpos => exact abs_of_not_neg hpos
  have hshape := shape_intToBytes value
  generalize intToBytes value = bytes at hshape ⊢
  cases hshape with
  | zero h =>
    rw [h] at habs
    have hzero : (Int64.ofNat 0) = 0 := rfl
    rw [← habs, hzero] at hsigned
    have : value = 0 := by
      rw [← hsigned]
      split <;> rfl
    rw [this]
    rfl
  | own init last hlen hhigh hvalue =>
    have hminimal : nonMinimal (init ++ [last] ++ [if value < 0 then 0x80 else 0x00]) = false := by
      simp [nonMinimal, hhigh]
    have hsign : (if value < 0 then 0x80 else 0x00 : UInt8) &&& 0x7f = 0 := by
      split <;> decide
    have hmagnitude := @orBytes_sign (init ++ [last]) _ (by simp; omega) hsign
    rw [bytesToInt_concat hminimal hmagnitude, hvalue, habs]
    conv_rhs => rw [← hsigned]
    by_cases hneg : value < 0
    · simp only [hneg, if_true]
      rfl
    · simp only [hneg, if_false]
      rfl
  | shared init last hlen hne hlow hvalue =>
    obtain ⟨hback, hsign, hother, hnonzero⟩ := signedByte last hlow hne
    obtain ⟨hsame, hplain⟩ := lowByte last hlow hne
    have hkept : (if value < 0 then last ||| 0x80 else last : UInt8) &&& 0x7f = last := by
      split
      · exact hback
      · exact hsame
    have hhigh : (if value < 0 then last ||| 0x80 else last : UInt8) &&& 0x80 ≠ 0 ↔ value < 0 := by
      by_cases hneg : value < 0
      · simp [hneg, hsign]
      · simp [hneg, hlow]
    have hminimal : nonMinimal (init ++ [if value < 0 then last ||| 0x80 else last]) = false := by
      by_cases hneg : value < 0
      · simp [hneg, nonMinimal, hother, hnonzero]
      · simp [hneg, nonMinimal, hne, hplain]
    have hmagnitude := @orBytes_last init (if value < 0 then last ||| 0x80 else last) hlen
    rw [hkept, hvalue, habs] at hmagnitude
    rw [bytesToInt_concat hminimal hmagnitude]
    conv_rhs => rw [← hsigned]
    simp only [hhigh]

theorem intToBytes_injective {a b : Int64} (h : intToBytes a = intToBytes b) : a = b := by
  have hback := bytesToInt_intToBytes a
  rw [h, bytesToInt_intToBytes, Except.ok.injEq] at hback
  exact hback.symm

theorem length_intToBytes (value : Int64) : (intToBytes value).length ≤ 9 := by
  have hshape := shape_intToBytes value
  generalize intToBytes value = bytes at hshape ⊢
  cases hshape with
  | zero h => simp
  | own init last hlen hhigh hvalue =>
    simp only [List.length_append, List.length_cons, List.length_nil]
    omega
  | shared init last hlen hne hlow hvalue =>
    simp only [List.length_append, List.length_cons, List.length_nil]
    omega

theorem truth_intToBytes (h : value ≠ 0) :
    ScriptInterpreters.isTrue (intToBytes value) = true ∧ intToBytes value ≠ [0x80] := by
  have hempty : intToBytes value ≠ [] := fun hnil => h (intToBytes_injective (hnil.trans rfl))
  have hshape := shape_intToBytes value
  generalize intToBytes value = bytes at hshape hempty ⊢
  cases hshape with
  | zero _ => exact absurd rfl hempty
  | own init last hlen hhigh hvalue =>
    have hne : last ≠ 0 := by
      rintro rfl
      exact hhigh rfl
    refine ⟨?_, fun hbytes => ?_⟩
    · simp [ScriptInterpreters.isTrue, hne]
    · have := congrArg List.length hbytes
      simp at this
  | shared init last hlen hne hlow hvalue =>
    obtain ⟨_, _, hother, hnonzero⟩ := signedByte last hlow hne
    have hplain := (lowByte last hlow hne).2
    have hlast : (if value < 0 then last ||| 0x80 else last : UInt8) ≠ 0 ∧
        (if value < 0 then last ||| 0x80 else last : UInt8) ≠ 0x80 := by
      split
      · exact ⟨hnonzero, hother⟩
      · exact ⟨hne, hplain⟩
    refine ⟨?_, fun hbytes => ?_⟩
    · simp only [ScriptInterpreters.isTrue, List.any_append, List.any_cons, List.any_nil]
      simp [hlast.1]
    · have := congrArg List.getLast? hbytes
      simp [hlast.2] at this

end RoundTrip

end KuberCoin.ScriptNumbers
