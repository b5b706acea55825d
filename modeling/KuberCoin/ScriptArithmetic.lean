import KuberCoin.ScriptNumbers

/-!
The arithmetic opcodes against the integers. A byte string names an integer by sign and
magnitude, whatever its length; `bytes_to_int` reads it with 64-bit shifts and a check of
minimality. The opcodes compute on 64 bits what they are meant to compute on integers.
-/
namespace KuberCoin.ScriptArithmetic

open Bytes FailingPrograms ScriptInterpreters ScriptHashSpends ScriptNumbers

section SignMagnitude

/-- The integer a byte string names: the last byte carries the sign. -/
def scriptValue (bytes : List UInt8) : ℤ :=
  match bytes.getLast? with
  | none => 0
  | some last =>
      let magnitude : ℤ := leValue (bytes.dropLast ++ [last &&& 0x7f])
      if last &&& 0x80 ≠ 0 then -magnitude else magnitude

/-- The shortest byte string of an integer. -/
def encodeNumber (v : ℤ) : List UInt8 :=
  let bytes := littleEndian v.natAbs v.natAbs
  match bytes.getLast? with
  | none => []
  | some last =>
      if last &&& 0x80 ≠ 0 then bytes ++ [if v < 0 then 0x80 else 0x00]
      else if v < 0 then bytes.dropLast ++ [last ||| 0x80]
      else bytes

theorem leValue_concat (init : List UInt8) (last : UInt8) :
    leValue (init ++ [last]) = leValue init + 256 ^ init.length * last.toNat := by
  rw [leValue, List.reverse_append, value_append]
  simp [value, leValue, Nat.mul_comm, Nat.add_comm]

theorem natAbs_lt_pow (v : ℤ) : v.natAbs < 256 ^ v.natAbs := Nat.lt_pow_self (by decide)

/-- Bytes without a leading zero are those of their value. -/
theorem littleEndian_leValue {fuel : ℕ} {bytes : List UInt8} (hfuel : leValue bytes < 256 ^ fuel)
    (hlast : bytes.getLast? ≠ some 0) : littleEndian fuel (leValue bytes) = bytes := by
  induction bytes generalizing fuel with
  | nil => cases fuel <;> rfl
  | cons b rest ih =>
    have hb := b.toNat_lt
    have hrest : rest.getLast? ≠ some 0 := by
      cases rest with
      | nil => simp
      | cons c rest => rwa [List.getLast?_cons_cons] at hlast
    have hpos : leValue (b :: rest) ≠ 0 := by
      rw [leValue_cons]
      cases rest with
      | nil =>
        have hne : b ≠ 0 := by simpa using hlast
        have : b.toNat ≠ 0 := fun h => hne (UInt8.toNat_inj.mp h)
        omega
      | cons c rest =>
        intro hzero
        have hback := @ih (rest.length + 1) (leValue_lt (c :: rest)) hrest
        have hnil : leValue (c :: rest) = 0 := by omega
        rw [hnil] at hback
        cases hback
    cases fuel with
    | zero => exact absurd (Nat.lt_one_iff.mp hfuel) hpos
    | succ fuel =>
      rw [littleEndian, if_neg hpos]
      rw [leValue_cons] at hfuel ⊢
      have hdiv : (b.toNat + 256 * leValue rest) / 256 = leValue rest := by omega
      have hmod : UInt8.ofNat (b.toNat + 256 * leValue rest) = b := by
        apply UInt8.toNat_inj.mp
        rw [UInt8.toNat_ofNat']
        omega
      rw [hdiv, hmod, ih _ hrest]
      rw [pow_succ] at hfuel
      omega

theorem littleEndian_fuel {fuel fuel' v : ℕ} (h : v < 256 ^ fuel) (h' : v < 256 ^ fuel') :
    littleEndian fuel v = littleEndian fuel' v := by
  have hvalue := leValue_littleEndian h'
  have hlast : (littleEndian fuel' v).getLast? ≠ some 0 :=
    fun hlast => getLast_littleEndian h' hlast rfl
  conv_lhs => rw [← hvalue]
  exact littleEndian_leValue (by rwa [hvalue]) hlast

theorem scriptValue_concat (init : List UInt8) (last : UInt8) : scriptValue (init ++ [last]) =
      if last &&& 0x80 ≠ 0 then -(leValue (init ++ [last &&& 0x7f]) : ℤ)
      else leValue (init ++ [last &&& 0x7f]) := by
  simp only [scriptValue, List.getLast?_concat, List.dropLast_concat]

theorem maskedSign (b : UInt8) : b &&& 0x7f = 0 → b &&& 0x80 ≠ 0 → b = 0x80 := by
  revert b
  exact byte_forall (by decide +kernel)

theorem maskedByte (b : UInt8) : (b &&& 0x7f) &&& 0x80 = 0 ∧
    (b &&& 0x80 ≠ 0 → (b &&& 0x7f) ||| 0x80 = b) ∧ (b &&& 0x80 = 0 → b &&& 0x7f = b) ∧
    (b &&& 0x7f).toNat ≤ 127 ∧ (b &&& 0x80 ≠ 0 → 128 ≤ b.toNat) := by
  revert b
  exact byte_forall (by decide +kernel)

section Encodings

variable {v : ℤ} {init : List UInt8} {last : UInt8} {bytes : List UInt8}

theorem littleEndian_natAbs (hv : v.natAbs = leValue bytes) (hlast : bytes.getLast? ≠ some 0) :
    littleEndian v.natAbs v.natAbs = bytes := by
  have hlt := natAbs_lt_pow v
  rw [hv] at hlt ⊢
  exact littleEndian_leValue hlt hlast

/-- A magnitude whose last byte is full gets a byte for the sign. -/
theorem encodeNumber_full (hv : v.natAbs = leValue (init ++ [last])) (hfull : last &&& 0x80 ≠ 0) :
    encodeNumber v = init ++ [last] ++ [if v < 0 then 0x80 else 0x00] := by
  have hlast : (init ++ [last]).getLast? ≠ some 0 := by
    rw [List.getLast?_concat]
    rintro ⟨⟩
    exact hfull rfl
  simp only [encodeNumber, littleEndian_natAbs hv hlast, List.getLast?_concat, if_pos hfull]

/-- A magnitude whose last byte has room takes the sign there. -/
theorem encodeNumber_room (hv : v.natAbs = leValue (init ++ [last])) (hne : last ≠ 0) (hroom : last &&& 0x80 = 0) :
    encodeNumber v = init ++ [if v < 0 then last ||| 0x80 else last] := by
  have hlast : (init ++ [last]).getLast? ≠ some 0 := by
    rw [List.getLast?_concat]
    exact fun h => hne (Option.some.inj h)
  simp only [encodeNumber, littleEndian_natAbs hv hlast, List.getLast?_concat,
    if_neg (not_not.mpr hroom), List.dropLast_concat]
  split <;> rfl

theorem leValue_pos (hne : last ≠ 0) : 0 < leValue (init ++ [last]) := by
  have hnat : last.toNat ≠ 0 := fun h => hne (UInt8.toNat_inj.mp h)
  rw [leValue_concat]
  positivity

/-- The sign byte decides the sign where there is a magnitude. -/
theorem scriptValue_neg_iff (h : 0 < leValue (init ++ [last &&& 0x7f])) :
    scriptValue (init ++ [last]) < 0 ↔ last &&& 0x80 ≠ 0 := by
  rw [scriptValue_concat]
  by_cases hsign : last &&& 0x80 = 0
  · rw [if_neg (not_not.mpr hsign)]
    exact iff_of_false (by omega) (not_not.mpr hsign)
  · rw [if_pos hsign]
    exact iff_of_true (by omega) hsign

theorem natAbs_scriptValue (init : List UInt8) (last : UInt8) :
    (scriptValue (init ++ [last])).natAbs = leValue (init ++ [last &&& 0x7f]) := by
  rw [scriptValue_concat]
  split <;> omega

/-- A byte string without a needless last byte is the shortest one of its integer. -/
theorem encodeNumber_scriptValue (hminimal : nonMinimal bytes = false) (hzero : bytes ≠ [0x00])
    (hneg : bytes ≠ [0x80]) : encodeNumber (scriptValue bytes) = bytes := by
  obtain rfl | ⟨init, last, rfl⟩ := List.eq_nil_or_concat' bytes
  · rfl
  obtain ⟨hlow, hjoin, hplain, -, -⟩ := maskedByte last
  have hnat := natAbs_scriptValue init last
  by_cases hempty : last &&& 0x7f = 0
  · -- the last byte holds the sign alone, and the one before it is full
    have hlast : last = 0x00 ∨ last = 0x80 := by
      by_cases hsign : last &&& 0x80 = 0
      · exact .inl ((hplain hsign).symm.trans hempty)
      · exact .inr (maskedSign last hempty hsign)
    obtain rfl | ⟨init', prev, rfl⟩ := List.eq_nil_or_concat' init
    · obtain rfl | rfl := hlast
      · exact absurd rfl hzero
      · exact absurd rfl hneg
    have hfull : prev &&& 0x80 ≠ 0 := by
      intro hprev
      obtain rfl | rfl := hlast <;> simp [nonMinimal, hprev] at hminimal
    have hsame : leValue (init' ++ [prev] ++ [last &&& 0x7f]) = leValue (init' ++ [prev]) := by
      rw [leValue_concat, hempty]
      rfl
    have hne : prev ≠ 0 := by
      rintro rfl
      exact hfull rfl
    have hpos : 0 < leValue (init' ++ [prev] ++ [last &&& 0x7f]) := hsame ▸ leValue_pos hne
    rw [encodeNumber_full (hnat.trans hsame) hfull]
    simp only [scriptValue_neg_iff hpos]
    obtain rfl | rfl := hlast <;> rfl
  · -- the last byte holds bits of the magnitude
    rw [encodeNumber_room hnat hempty hlow]
    simp only [scriptValue_neg_iff (leValue_pos hempty)]
    by_cases hsign : last &&& 0x80 = 0
    · rw [if_neg (not_not.mpr hsign), hplain hsign]
    · rw [if_pos hsign, hjoin hsign]

theorem scriptValue_of_sign {w : ℤ} (hnat : w.natAbs = leValue (init ++ [last &&& 0x7f]))
    (hsign : w < 0 ↔ last &&& 0x80 ≠ 0) : scriptValue (init ++ [last]) = w := by
  rw [scriptValue_concat]
  by_cases h : last &&& 0x80 = 0
  · rw [if_neg (not_not.mpr h)]
    have : ¬ w < 0 := fun hw => hsign.mp hw h
    omega
  · rw [if_pos h]
    have := hsign.mpr h
    omega

theorem scriptValue_encodeNumber (v : ℤ) : scriptValue (encodeNumber v) = v := by
  have hlt := natAbs_lt_pow v
  have hvalue := leValue_littleEndian hlt
  cases hlast : (littleEndian v.natAbs v.natAbs).getLast? with
  | none =>
    rw [List.getLast?_eq_none_iff.mp hlast] at hvalue
    have hv : v = 0 := Int.natAbs_eq_zero.mp hvalue.symm
    rw [hv]
    rfl
  | some last =>
    obtain ⟨init, hbytes⟩ := List.getLast?_eq_some_iff.mp hlast
    rw [hbytes] at hvalue
    by_cases hroom : last &&& 0x80 = 0
    · have hne := getLast_littleEndian hlt hlast
      obtain ⟨hback, hsign, -, -⟩ := signedByte last hroom hne
      rw [encodeNumber_room hvalue.symm hne hroom]
      by_cases hneg : v < 0
      · rw [if_pos hneg]
        exact scriptValue_of_sign (by rw [hback, hvalue]) (iff_of_true hneg hsign)
      · rw [if_neg hneg]
        exact scriptValue_of_sign (by rw [(lowByte last hroom hne).1, hvalue])
          (iff_of_false hneg (not_not.mpr hroom))
    · rw [encodeNumber_full hvalue.symm hroom]
      have hzero : leValue (init ++ [last] ++ [0]) = v.natAbs := by
        rw [leValue_concat, hvalue]
        rfl
      by_cases hneg : v < 0
      · rw [if_pos hneg]
        exact scriptValue_of_sign hzero.symm (iff_of_true hneg (by decide))
      · rw [if_neg hneg]
        exact scriptValue_of_sign hzero.symm (iff_of_false hneg (by decide))

theorem encodeNumber_injective : Function.Injective encodeNumber :=
  Function.LeftInverse.injective scriptValue_encodeNumber

end Encodings

end SignMagnitude

section Reading

variable {bytes : List UInt8}

/-- The integers of an `i64`. -/
def InI64 (z : ℤ) : Prop := -2 ^ 63 ≤ z ∧ z < 2 ^ 63

theorem inI64_toInt (v : Int64) : InI64 v.toInt := ⟨v.le_toInt, v.toInt_lt⟩

theorem natAbs_toInt (v : Int64) : v.abs.toUInt64.toNat = v.toInt.natAbs := by
  change v.toBitVec.abs.toNat = v.toBitVec.toInt.natAbs
  have hlt := v.toBitVec.isLt
  rw [BitVec.toNat_abs, BitVec.toInt_eq_msb_cond]
  split <;> omega

theorem neg_iff_toInt (v : Int64) : v < 0 ↔ v.toInt < 0 := Int64.lt_iff_toInt_lt

theorem intToBytes_eq (v : Int64) : intToBytes v = encodeNumber v.toInt := by
  have hbound : v.toInt.natAbs < 256 ^ 8 := by
    rw [← natAbs_toInt]
    exact v.abs.toUInt64.toNat_lt
  have hfuel := littleEndian_fuel hbound (natAbs_lt_pow v.toInt)
  have hbytes : littleEndian 8 v.abs.toUInt64.toNat = littleEndian v.toInt.natAbs v.toInt.natAbs := by
    rw [natAbs_toInt, hfuel]
  have hneg := neg_iff_toInt v
  unfold intToBytes encodeNumber
  simp only [hbytes]
  cases (littleEndian v.toInt.natAbs v.toInt.natAbs).getLast? with
  | none => rfl
  | some last =>
    by_cases hsign : v.toInt < 0
    · simp [hsign, hneg.mpr hsign]
    · simp [hsign, mt hneg.mp hsign]

/-- The bytes shifted by 64 bits or more. -/
def WideShift (bytes : List UInt8) : Prop := ∃ i < bytes.length, 64 ≤ 8 * i

theorem not_wideShift_iff : ¬ WideShift bytes ↔ bytes.length ≤ 8 := by
  constructor
  · intro h
    by_contra hlen
    exact h ⟨8, by omega, by decide⟩
  · rintro h ⟨i, hi, hshift⟩
    omega

theorem bytesToInt_narrow (hlen : bytes.length ≤ 8) (hminimal : nonMinimal bytes = false) :
    ∃ v, bytesToInt bytes = .ok v ∧ v.toInt = scriptValue bytes ∧ v.toInt ≠ -2 ^ 63 := by
  obtain rfl | ⟨init, last, rfl⟩ := List.eq_nil_or_concat' bytes
  · exact ⟨0, rfl, rfl, by decide⟩
  have hinit : init.length < 8 := by
    rw [List.length_append] at hlen
    exact hlen
  have hmagnitude := @orBytes_last init last hinit
  have hlt : leValue (init ++ [last &&& 0x7f]) < 2 ^ 63 := by
    have hrest := leValue_lt init
    have hlast := (maskedByte last).2.2.2.1
    have hpow : 256 ^ init.length ≤ 256 ^ 7 := Nat.pow_le_pow_right (by decide) (by omega)
    rw [leValue_concat]
    nlinarith
  rw [bytesToInt_concat hminimal hmagnitude, scriptValue_concat]
  refine ⟨_, rfl, ?_⟩
  split
  · rw [Int64.toInt_neg_ofNat_of_le (by omega)]
    omega
  · rw [Int64.toInt_ofNat_of_lt hlt]
    omega

theorem bytesToInt_rejects (h : nonMinimal bytes = true) : bytesToInt bytes = .error .nonMinimalScriptNum := by
  have hne : bytes ≠ [] := by
    rintro rfl
    cases h
  rw [bytesToInt, if_neg hne, h]
  rfl

theorem bytesToInt_accepts (h : nonMinimal bytes = false) : ∃ v, bytesToInt bytes = .ok v := by
  unfold bytesToInt
  split
  · exact ⟨_, rfl⟩
  · rw [h]
    exact ⟨_, rfl⟩

/-- Only the least `i64` is written in nine bytes. -/
theorem length_intToBytes_le {v : Int64} (h : v ≠ Int64.minValue) : (intToBytes v).length ≤ 8 := by
  have hshape := shape_intToBytes v
  have hne : v.toInt ≠ -2 ^ 63 := fun heq => h (Int64.toInt_inj.mp heq)
  have hrange := inI64_toInt v
  have habs := natAbs_toInt v
  unfold InI64 at hrange
  generalize intToBytes v = bytes at hshape
  cases hshape with
  | zero _ => simp
  | own init last hlen hhigh hvalue =>
    have hlast := (maskedByte last).2.2.2.2 hhigh
    have hshort : init.length ≠ 7 := by
      intro hseven
      rw [leValue_concat, hseven] at hvalue
      omega
    simp only [List.length_append, List.length_cons, List.length_nil]
    omega
  | shared init last hlen hne hlow hvalue =>
    simp only [List.length_append, List.length_cons, List.length_nil]
    omega

/-- What is read back as written is exactly what has no needless byte and fits, the least
`i64` included. -/
theorem canonical_iff (bytes : List UInt8) : (∀ v, bytesToInt bytes = .ok v → bytes = intToBytes v) ↔
      nonMinimal bytes = true ∨ (bytes ≠ [0x00] ∧ bytes ≠ [0x80] ∧
        (bytes.length ≤ 8 ∨ bytes = intToBytes Int64.minValue)) := by
  cases hminimal : nonMinimal bytes with
  | true =>
    refine iff_of_true (fun v hv => ?_) (.inl rfl)
    rw [bytesToInt_rejects hminimal] at hv
    cases hv
  | false =>
    simp only [Bool.false_eq_true, false_or]
    constructor
    · intro h
      obtain ⟨v, hv⟩ := bytesToInt_accepts hminimal
      have hcanonical := h v hv
      refine ⟨?_, ?_, ?_⟩
      · rintro rfl
        have hzero : v = 0 := by
          have : bytesToInt [0x00] = .ok 0 := by decide
          rw [this] at hv
          exact (Except.ok.inj hv).symm
        rw [hzero] at hcanonical
        cases hcanonical
      · rintro rfl
        have hzero : v = 0 := by
          have : bytesToInt [0x80] = .ok 0 := by decide
          rw [this] at hv
          exact (Except.ok.inj hv).symm
        rw [hzero] at hcanonical
        cases hcanonical
      · by_cases hleast : v = Int64.minValue
        · exact .inr (hleast ▸ hcanonical)
        · exact .inl (hcanonical ▸ length_intToBytes_le hleast)
    · rintro ⟨hzero, hneg, hlen | rfl⟩ v hv
      · obtain ⟨w, hw, hvalue, -⟩ := bytesToInt_narrow hlen hminimal
        obtain rfl : w = v := Except.ok.inj (hw.symm.trans hv)
        rw [intToBytes_eq, hvalue, encodeNumber_scriptValue hminimal hzero hneg]
      · rw [bytesToInt_intToBytes] at hv
        rw [Except.ok.inj hv]

end Reading

section Opcodes

variable {xs : List (List UInt8)}

/-- The operands are decoded from the top down, until one is rejected. -/
def decodeAll : List (List UInt8) → Except ScriptInterpreterError (List Int64)
  | [] => .ok []
  | x :: xs => do
      let v ← bytesToInt x
      let vs ← decodeAll xs
      return v :: vs

/-- An opcode that replaces `arity` operands by the number `g` of them. -/
def Computes (op : Op Unit) (arity : ℕ) (g : List Int64 → Int64) : Prop :=
  ∀ (s : ScriptInterpreter) (xs rest : List (List UInt8)), xs.length = arity →
    s.stack = xs ++ rest →
    op s = match decodeAll xs with
      | .error e => .error e
      | .ok vs => push (intToBytes (g vs)) { s with stack := rest }

/-- No byte of an operand that is decoded is shifted by 64 bits or more. -/
def NoWideShift : List (List UInt8) → Prop
  | [] => True
  | x :: xs => nonMinimal x = true ∨ (¬ WideShift x ∧ NoWideShift xs)

/-- The opcode fails or leaves the encoding of the exact result. -/
structure ExactOn (op : Op Unit) (f : List ℤ → ℤ) (xs : List (List UInt8)) : Prop where
  noWideShift : NoWideShift xs
  exact_ : ∀ (s : ScriptInterpreter) (rest : List (List UInt8)), s.stack = xs ++ rest →
    (∃ e, op s = .error e) ∨
      op s = .ok ((), { s with stack := encodeNumber (f (xs.map scriptValue)) :: rest })

/-- The operands before the first rejected one have at most eight bytes; if none is
rejected, the result fits. -/
def Fits (result : Prop) : List (List UInt8) → Prop
  | [] => result
  | x :: xs => nonMinimal x = true ∨ (x.length ≤ 8 ∧ Fits result xs)

theorem noWideShift_of_fits {result : Prop} (h : Fits result xs) : NoWideShift xs := by
  induction xs with
  | nil => trivial
  | cons x xs ih => exact h.imp_right fun h => ⟨not_wideShift_iff.mpr h.1, ih h.2⟩

theorem decodeAll_of_noWideShift (h : NoWideShift xs) : (∃ e, decodeAll xs = .error e ∧ ∀ result, Fits result xs) ∨
      ∃ vs, decodeAll xs = .ok vs ∧ vs.map Int64.toInt = xs.map scriptValue ∧
        (∀ v ∈ vs, v.toInt ≠ -2 ^ 63) ∧ vs.length = xs.length ∧
        ∀ result, Fits result xs ↔ result := by
  induction xs with
  | nil => exact .inr ⟨[], rfl, rfl, by simp, rfl, fun result => Iff.rfl⟩
  | cons x xs ih =>
    cases hminimal : nonMinimal x with
    | true =>
      refine .inl ⟨.nonMinimalScriptNum, ?_, fun result => .inl hminimal⟩
      rw [decodeAll, bytesToInt_rejects hminimal]
      rfl
    | false =>
      obtain hreject | ⟨hshift, hrest⟩ := h
      · rw [hminimal] at hreject
        cases hreject
      have hlen := not_wideShift_iff.mp hshift
      obtain ⟨v, hv, hvalue, hleast⟩ := bytesToInt_narrow hlen hminimal
      have hfits : ∀ result, Fits result (x :: xs) ↔ Fits result xs := by
        intro result
        simp only [Fits, hminimal, Bool.false_eq_true, false_or, hlen, true_and]
      obtain ⟨e, he, hall⟩ | ⟨vs, hvs, hvalues, hnone, hcount, hall⟩ := ih hrest
      · refine .inl ⟨e, ?_, fun result => (hfits result).mpr (hall result)⟩
        rw [decodeAll, hv, he]
        rfl
      · refine .inr ⟨v :: vs, ?_, ?_, ?_, ?_, fun result => (hfits result).trans (hall result)⟩
        · rw [decodeAll, hv, hvs]
          rfl
        · rw [List.map_cons, List.map_cons, hvalue, hvalues]
        · exact List.forall_mem_cons.mpr ⟨hleast, hnone⟩
        · rw [List.length_cons, List.length_cons, hcount]

theorem push_intToBytes (v : Int64) (s : ScriptInterpreter) : (∃ e, push (intToBytes v) s = .error e) ∨
      push (intToBytes v) s = .ok ((), s.pushData (intToBytes v)) := by
  have hshort : (intToBytes v).length ≤ maxElementSize :=
    (length_intToBytes v).trans (by decide)
  rw [push_eq hshort]
  split
  · exact .inr rfl
  · exact .inl ⟨_, rfl⟩

/-- An opcode that is exact wherever the result fits is exact on exactly the operands that
are narrow and whose result fits. -/
theorem exactOn_iff {op : Op Unit} {arity : ℕ} {g : List Int64 → Int64} {f : List ℤ → ℤ} (hop : Computes op arity g)
    (hexact : ∀ vs : List Int64, vs.length = arity → (∀ v ∈ vs, v.toInt ≠ -2 ^ 63) →
      InI64 (f (vs.map Int64.toInt)) → (g vs).toInt = f (vs.map Int64.toInt)) (hlen : xs.length = arity) :
    ExactOn op f xs ↔ Fits (InI64 (f (xs.map scriptValue))) xs := by
  constructor
  · intro h
    obtain ⟨e, -, hall⟩ | ⟨vs, hvs, hvalues, -, -, hall⟩ := decodeAll_of_noWideShift h.noWideShift
    · exact hall _
    · refine (hall _).mpr ?_
      have hrun := hop ⟨xs, [], [], 0, none, none⟩ xs [] hlen (List.append_nil xs).symm
      rw [hvs] at hrun
      have hshort : (intToBytes (g vs)).length ≤ maxElementSize :=
        (length_intToBytes _).trans (by decide)
      simp only [push_eq hshort] at hrun
      obtain ⟨e, he⟩ | hok := h.exact_ ⟨xs, [], [], 0, none, none⟩ [] (List.append_nil xs).symm
      · rw [hrun] at he
        cases he
      · rw [hrun] at hok
        have hbytes : intToBytes (g vs) = encodeNumber (f (xs.map scriptValue)) := by
          have := congrArg (fun r : Except ScriptInterpreterError (Unit × ScriptInterpreter) =>
            r.toOption.map fun p => p.2.stack) hok
          simpa [ScriptInterpreter.pushData, Except.toOption, maxStackSize] using this
        rw [intToBytes_eq] at hbytes
        rw [← encodeNumber_injective hbytes]
        exact inI64_toInt (g vs)
  · intro h
    have hshift := noWideShift_of_fits h
    refine ⟨hshift, fun s rest hstack => ?_⟩
    rw [hop s xs rest hlen hstack]
    obtain ⟨e, he, -⟩ | ⟨vs, hvs, hvalues, hleast, hcount, hall⟩ := decodeAll_of_noWideShift hshift
    · exact .inl ⟨e, by rw [he]⟩
    · have hfits := (hall _).mp h
      rw [← hvalues] at hfits ⊢
      rw [hvs, ← hexact vs (hcount.trans hlen) hleast hfits, ← intToBytes_eq]
      exact push_intToBytes (g vs) { s with stack := rest }

end Opcodes

section Table

/-- A function of the number on top. -/
def one {α : Type} [Zero α] (f : α → α) : List α → α
  | [a] => f a
  | _ => 0

/-- A function of two numbers, the second one on top. -/
def two {α : Type} [Zero α] (f : α → α → α) : List α → α
  | [b, a] => f a b
  | _ => 0

/-- A function of three numbers, the last one on top. -/
def three {α : Type} [Zero α] (f : α → α → α → α) : List α → α
  | [c, b, a] => f a b c
  | _ => 0

def bit (b : Bool) : ℤ := if b then 1 else 0

structure NumericOpcode where
  op : Op Unit
  arity : ℕ
  result : List ℤ → ℤ

/-- The arithmetic opcodes that leave a number, with the integer they are to leave. -/
def numericOpcodes : List NumericOpcode :=
  [⟨op1add, 1, one (· + 1)⟩, ⟨op1sub, 1, one (· - 1)⟩, ⟨opNegate, 1, one (- ·)⟩,
   ⟨opAbs, 1, one (|·|)⟩, ⟨opNot, 1, one fun a => bit (a = 0)⟩,
   ⟨op0notequal, 1, one fun a => bit (a ≠ 0)⟩,
   ⟨opAdd, 2, two (· + ·)⟩, ⟨opSub, 2, two (· - ·)⟩,
   ⟨opBooland, 2, two fun a b => bit (a ≠ 0 ∧ b ≠ 0)⟩,
   ⟨opBoolor, 2, two fun a b => bit (a ≠ 0 ∨ b ≠ 0)⟩,
   ⟨opNumequal, 2, two fun a b => bit (a = b)⟩, ⟨opNumnotequal, 2, two fun a b => bit (a ≠ b)⟩,
   ⟨opLessthan, 2, two fun a b => bit (a < b)⟩, ⟨opGreaterthan, 2, two fun a b => bit (b < a)⟩,
   ⟨opLessthanorequal, 2, two fun a b => bit (a ≤ b)⟩,
   ⟨opGreaterthanorequal, 2, two fun a b => bit (b ≤ a)⟩,
   ⟨opMin, 2, two min⟩, ⟨opMax, 2, two max⟩,
   ⟨opWithin, 3, three fun x min max => bit (min ≤ x ∧ x < max)⟩]

theorem computes_unary (g : Int64 → Int64) : Computes (unary g) 1 (one g) := by
  intro s xs rest hlen hstack
  obtain ⟨x, rfl⟩ := List.length_eq_one_iff.mp hlen
  rw [unary, popInt, decodeAll]
  cases hx : bytesToInt x with
  | error e =>
    refine bind_of_error ?_
    rw [bind_of_ok (pop_eq hstack), hx]
    rfl
  | ok v =>
    refine bind_of_ok ?_
    rw [bind_of_ok (pop_eq hstack), hx]
    rfl

theorem computes_binary (g : Int64 → Int64 → Int64) : Computes (binary g) 2 (two g) := by
  intro s xs rest hlen hstack
  obtain ⟨b, a, rfl⟩ := List.length_eq_two.mp hlen
  rw [binary, bind_of_ok (pop_eq hstack), bind_of_ok (pop_eq rfl), decodeAll, decodeAll]
  cases hb : bytesToInt b with
  | error e => rfl
  | ok v =>
    cases ha : bytesToInt a with
    | error e => rfl
    | ok w => rfl

theorem computes_opWithin : Computes opWithin 3 (three fun x min max => ofBool (min ≤ x ∧ x < max)) := by
  intro s xs rest hlen hstack
  obtain ⟨c, b, a, rfl⟩ := List.length_eq_three.mp hlen
  rw [opWithin, bind_of_ok (pop_eq hstack), bind_of_ok (pop_eq rfl), bind_of_ok (pop_eq rfl),
    decodeAll, decodeAll, decodeAll]
  cases hc : bytesToInt c with
  | error e => rfl
  | ok u =>
    cases hb : bytesToInt b with
    | error e => rfl
    | ok v =>
      cases ha : bytesToInt a with
      | error e => rfl
      | ok w => rfl

theorem bmod_of_inI64 {z : ℤ} (h : InI64 z) : z.bmod (2 ^ 64) = z := by
  obtain ⟨hle, hlt⟩ := h
  exact Int.bmod_eq_of_le (by omega) (by omega)

theorem toInt_ofBool (b : Bool) : (ofBool b).toInt = bit b := by
  cases b <;> rfl

theorem toInt_abs {v : Int64} (h : v.toInt ≠ -2 ^ 63) : v.abs.toInt = |v.toInt| := by
  have hne : v.toBitVec ≠ BitVec.intMin 64 := by
    intro heq
    have hint : v.toBitVec.toInt = -2 ^ 63 := by
      rw [heq]
      decide
    exact h hint
  change v.toBitVec.abs.toInt = |v.toBitVec.toInt|
  rw [BitVec.toInt_abs_eq_natAbs_of_ne_intMin hne, Int.abs_eq_natAbs]

theorem eq_zero_iff_toInt (v : Int64) : v = 0 ↔ v.toInt = 0 := Int64.toInt_inj.symm

/-- An opcode of the table agrees with 64-bit arithmetic where its result fits. -/
def Sound (e : NumericOpcode) : Prop :=
  ∃ g, Computes e.op e.arity g ∧ ∀ vs : List Int64, vs.length = e.arity →
    (∀ v ∈ vs, v.toInt ≠ -2 ^ 63) → InI64 (e.result (vs.map Int64.toInt)) →
    (g vs).toInt = e.result (vs.map Int64.toInt)

theorem sound_unary {g : Int64 → Int64} {f : ℤ → ℤ}
    (h : ∀ v : Int64, v.toInt ≠ -2 ^ 63 → InI64 (f v.toInt) → (g v).toInt = f v.toInt) : Sound ⟨unary g, 1, one f⟩ := by
  refine ⟨one g, computes_unary g, fun vs hlen hleast hfits => ?_⟩
  obtain ⟨v, rfl⟩ := List.length_eq_one_iff.mp hlen
  exact h v (hleast v List.mem_cons_self) hfits

theorem sound_binary {g : Int64 → Int64 → Int64} {f : ℤ → ℤ → ℤ}
    (h : ∀ v w : Int64, InI64 (f v.toInt w.toInt) → (g v w).toInt = f v.toInt w.toInt) :
    Sound ⟨binary g, 2, two f⟩ := by
  refine ⟨two g, computes_binary g, fun vs hlen _ hfits => ?_⟩
  obtain ⟨w, v, rfl⟩ := List.length_eq_two.mp hlen
  exact h v w hfits

theorem sound_opWithin : Sound ⟨opWithin, 3, three fun x min max => bit (min ≤ x ∧ x < max)⟩ := by
  refine ⟨_, computes_opWithin, fun vs hlen _ _ => ?_⟩
  obtain ⟨c, b, a, rfl⟩ := List.length_eq_three.mp hlen
  simp only [three, List.map_cons, List.map_nil, toInt_ofBool, Int64.le_iff_toInt_le,
    Int64.lt_iff_toInt_lt]

theorem sound_test {p : Int64 → Int64 → Bool} {q : ℤ → ℤ → Bool} (h : ∀ v w : Int64, p v w = q v.toInt w.toInt) :
    Sound ⟨binary fun a b => ofBool (p a b), 2, two fun a b => bit (q a b)⟩ := by
  refine sound_binary fun v w _ => ?_
  rw [toInt_ofBool, h]

theorem numericOpcodes_sound : ∀ e ∈ numericOpcodes, Sound e := by
  simp only [numericOpcodes, List.forall_mem_cons]
  refine ⟨?_, ?_, ?_, ?_, ?_, ?_, ?_, ?_, ?_, ?_, ?_, ?_, ?_, ?_, ?_, ?_, ?_, ?_, ?_, ?_⟩
  · exact sound_unary fun v _ h => (Int64.toInt_add v 1).trans (bmod_of_inI64 h)
  · exact sound_unary fun v _ h => (Int64.toInt_sub v 1).trans (bmod_of_inI64 h)
  · exact sound_unary fun v _ h => (Int64.toInt_neg v).trans (bmod_of_inI64 h)
  · exact sound_unary fun v hleast _ => toInt_abs hleast
  · refine sound_unary fun v _ _ => ?_
    rw [toInt_ofBool]
    simp only [eq_zero_iff_toInt]
  · refine sound_unary fun v _ _ => ?_
    rw [toInt_ofBool]
    simp only [ne_eq, eq_zero_iff_toInt]
  · exact sound_binary fun v w h => (Int64.toInt_add v w).trans (bmod_of_inI64 h)
  · exact sound_binary fun v w h => (Int64.toInt_sub v w).trans (bmod_of_inI64 h)
  · exact sound_test fun v w => by simp only [ne_eq, eq_zero_iff_toInt]
  · exact sound_test fun v w => by simp only [ne_eq, eq_zero_iff_toInt]
  · exact sound_test fun v w => by simp only [Int64.toInt_inj]
  · exact sound_test fun v w => by simp only [ne_eq, Int64.toInt_inj]
  · exact sound_test fun v w => by simp only [Int64.lt_iff_toInt_lt]
  · exact sound_test fun v w => by simp only [Int64.lt_iff_toInt_lt]
  · exact sound_test fun v w => by simp only [Int64.le_iff_toInt_le]
  · exact sound_test fun v w => by simp only [Int64.le_iff_toInt_le]
  · refine sound_binary fun v w _ => ?_
    rw [min_def, apply_ite Int64.toInt]
    simp only [Int64.le_iff_toInt_le]
  · refine sound_binary fun v w _ => ?_
    rw [max_def, apply_ite Int64.toInt]
    simp only [Int64.le_iff_toInt_le]
  · exact sound_opWithin
  · exact fun e he => absurd he List.not_mem_nil

/-- Numbers are written and read back exactly; what is read is the shortest form, and the
opcodes are exact, on exactly the byte strings that pass the check of minimality as its
comment has it, of at most eight bytes, with results that fit. -/
theorem script_numbers_exact_iff (v : Int64) (bytes : List UInt8) (xs : List (List UInt8)) :
    bytesToInt (intToBytes v) = .ok v ∧
    ((∀ v, bytesToInt bytes = .ok v → bytes = intToBytes v) ↔
      nonMinimal bytes = true ∨ (bytes ≠ [0x00] ∧ bytes ≠ [0x80] ∧
        (bytes.length ≤ 8 ∨ bytes = intToBytes Int64.minValue))) ∧
    ∀ e ∈ numericOpcodes, xs.length = e.arity →
      (ExactOn e.op e.result xs ↔ Fits (InI64 (e.result (xs.map scriptValue))) xs) := by
  refine ⟨bytesToInt_intToBytes v, canonical_iff bytes, fun e he hlen => ?_⟩
  obtain ⟨g, hop, hexact⟩ := numericOpcodes_sound e he
  exact exactOn_iff hop hexact hlen

/-- Two encodings of zero. -/
theorem negative_zero_accepted :
    ¬ ∀ (bytes : List UInt8) (v : Int64), bytesToInt bytes = .ok v → bytes = intToBytes v := by
  intro h
  exact absurd (h [0x80] 0 (by decide)) (by decide)

end Table

end KuberCoin.ScriptArithmetic
