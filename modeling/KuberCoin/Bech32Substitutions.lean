import KuberCoin.Bech32Exactness

/-!
Addresses with one character changed. A changed symbol adds to the register what no number of
moves brings to zero, and a changed character of the human-readable part adds two symbols that do
not cancel. The wrong constant would be met by one distance and one difference only, and is not.
-/
namespace KuberCoin.Bech32Substitutions

open FeedbackRegisters Bech32Codes Bech32Registers Bech32Programs Bech32Strings Bech32Exactness

section Residues

theorem iterate_small : ∀ k ≤ 5, ∀ d < 8, move^[k] d = d * 32 ^ k := by
  intro k hk d hd
  induction k with
  | zero => simp
  | succ k ih =>
    have hle : 32 ^ k ≤ 32 ^ 4 := Nat.pow_le_pow_right (by omega) (by omega)
    have hlt : d * 32 ^ k < 2 ^ (5 * 5) := by
      calc
        d * 32 ^ k ≤ 7 * 32 ^ 4 := Nat.mul_le_mul (by omega) hle
        _ < 2 ^ (5 * 5) := by norm_num
    rw [Function.iterate_succ_apply', ih (by omega), move_shift _ hlt]
    ring

theorem version_change : ∀ d < 32, move^[58] d ≠ bech32Const ^^^ bech32mConst := by decide +kernel

theorem residueOf_substitute (hrp : List Char) (before after : List UInt8) (d d' : UInt8) :
    residueOf hrp (before ++ d' :: after) =
      residueOf hrp (before ++ d :: after) ^^^ move^[after.length] (d.toNat ^^^ d'.toNat) := by
  have hword : ∀ e : UInt8, (expand hrp).map UInt8.toNat ++ (before ++ e :: after).map UInt8.toNat =
      ((expand hrp).map UInt8.toNat ++ before.map UInt8.toNat) ++ e.toNat :: after.map UInt8.toNat := by
    intro e
    simp
  rw [residueOf_eq, residueOf_eq, hword, hword, run_substitute move_additive _ _ _ d.toNat,
    List.length_map]

theorem xor_toNat_lt {d d' : UInt8} (h : d < 32) (h' : d' < 32) : d.toNat ^^^ d'.toNat < 2 ^ 5 :=
  Nat.xor_lt_two_pow (UInt8.lt_iff_toNat_lt.mp h) (UInt8.lt_iff_toNat_lt.mp h')

theorem xor_toNat_ne_zero {d d' : UInt8} (h : d ≠ d') : d.toNat ^^^ d'.toNat ≠ 0 :=
  fun hzero => h (UInt8.toNat_inj.mp (Nat.xor_eq_zero_iff.mp hzero))

theorem iterate_move_lt (n : ℕ) {d : ℕ} (h : d < 2 ^ 30) : move^[n] d < 2 ^ 30 :=
  Function.Iterate.rec (fun a => a < 2 ^ 30) h (fun a ha => move_lt a ha) n

theorem high_toNat (b : UInt8) : (b >>> 5).toNat = b.toNat / 32 := by
  rw [UInt8.toNat_shiftRight, Nat.shiftRight_eq_div_pow]
  rfl

theorem low_toNat (b : UInt8) : (b &&& 31).toNat = b.toNat % 32 := by
  rw [UInt8.toNat_and]
  exact Nat.and_two_pow_sub_one_eq_mod b.toNat 5

/-- The differences of the two symbols of a character cancel only when there are none. -/
theorem eq_of_cancel {b b' : UInt8} {k : ℕ} (hk : 1 ≤ k) (hk' : k ≤ 5)
    (hcancel : (b &&& 31).toNat ^^^ (b' &&& 31).toNat = move^[k] ((b >>> 5).toNat ^^^ (b' >>> 5).toNat)) : b = b' := by
  have hb := b.toNat_lt
  have hb' := b'.toNat_lt
  rw [high_toNat, high_toNat, low_toNat, low_toNat] at hcancel
  have hhigh : b.toNat / 32 ^^^ b'.toNat / 32 < 2 ^ 3 := Nat.xor_lt_two_pow (by omega) (by omega)
  have hlow : b.toNat % 32 ^^^ b'.toNat % 32 < 2 ^ 5 := Nat.xor_lt_two_pow (by omega) (by omega)
  rw [iterate_small k hk' _ (by omega)] at hcancel
  have hpow : 32 ≤ 32 ^ k := Nat.le_self_pow (by omega) 32
  have hzero : b.toNat / 32 ^^^ b'.toNat / 32 = 0 := by
    by_contra hne
    have hle : 1 * 32 ≤ (b.toNat / 32 ^^^ b'.toNat / 32) * 32 ^ k :=
      Nat.mul_le_mul (Nat.one_le_iff_ne_zero.mpr hne) hpow
    omega
  rw [hzero, Nat.zero_mul] at hcancel
  have hdiv := Nat.xor_eq_zero_iff.mp hzero
  have hmod := Nat.xor_eq_zero_iff.mp hcancel
  apply UInt8.toNat_inj.mp
  omega

/-- A changed character of a short human-readable part changes the register. -/
theorem residueOf_hrp_ne {before after : List Char} (hlength : before.length + after.length + 1 ≤ 4) {x c : Char}
    (hx : isAscii x) (hc : isAscii c) (hne : x ≠ c) (symbols : List UInt8) :
    residueOf (before ++ c :: after) symbols ≠ residueOf (before ++ x :: after) symbols := by
  intro heq
  let front : List ℕ := (before.map fun e => asU8 e >>> 5).map UInt8.toNat
  let middle : List ℕ :=
    ((after.map fun e => asU8 e >>> 5) ++ 0 :: before.map fun e => asU8 e &&& 31).map UInt8.toNat
  let back : List ℕ := (after.map fun e => asU8 e &&& 31).map UInt8.toNat ++ symbols.map UInt8.toNat
  have hword : ∀ e : Char, residueOf (before ++ e :: after) symbols = run move 1
      (front ++ (asU8 e >>> 5).toNat :: (middle ++ (asU8 e &&& 31).toNat :: back)) := by
    intro e
    rw [residueOf_eq]
    congr 1
    simp [expand, front, middle, back]
  have hhigh := run_substitute move_additive 1 front (middle ++ (asU8 c &&& 31).toNat :: back)
    (asU8 x >>> 5).toNat (asU8 c >>> 5).toNat
  have hlow := run_substitute move_additive 1 (front ++ (asU8 x >>> 5).toNat :: middle) back
    (asU8 x &&& 31).toNat (asU8 c &&& 31).toNat
  simp only [List.append_assoc, List.cons_append] at hlow
  have hcount : (middle ++ (asU8 c &&& 31).toNat :: back).length = back.length + (middle.length + 1) := by
    rw [List.length_append, List.length_cons]
    omega
  have hmiddle : middle.length = after.length + 1 + before.length := by
    simp [middle]
    omega
  rw [hword, hword, hhigh, hlow, hcount, Function.iterate_add_apply, Nat.xor_assoc,
    ← move_additive.iterate back.length] at heq
  have hzero : move^[back.length] (((asU8 x &&& 31).toNat ^^^ (asU8 c &&& 31).toNat) ^^^
      move^[middle.length + 1] ((asU8 x >>> 5).toNat ^^^ (asU8 c >>> 5).toNat)) = 0 := by
    have hcancel := congrArg (fun r => run move 1 (front ++ (asU8 x >>> 5).toNat ::
      (middle ++ (asU8 x &&& 31).toNat :: back)) ^^^ r) heq
    simpa only [← Nat.xor_assoc, Nat.xor_self, Nat.zero_xor] using hcancel
  have hcancel : (asU8 x &&& 31).toNat ^^^ (asU8 c &&& 31).toNat =
      move^[middle.length + 1] ((asU8 x >>> 5).toNat ^^^ (asU8 c >>> 5).toNat) := by
    have hlowLt : (asU8 x &&& 31).toNat ^^^ (asU8 c &&& 31).toNat < 2 ^ 30 := by
      have hx' := low_toNat (asU8 x)
      have hc' := low_toNat (asU8 c)
      exact Nat.xor_lt_two_pow (by omega) (by omega)
    have hhighLt : (asU8 x >>> 5).toNat ^^^ (asU8 c >>> 5).toNat < 2 ^ 30 := by
      have hx' := (asU8 x >>> 5).toNat_lt
      have hc' := (asU8 c >>> 5).toNat_lt
      exact Nat.xor_lt_two_pow (by omega) (by omega)
    by_contra hdiffer
    exact iterate_move_ne_zero back.length
      (Nat.xor_lt_two_pow hlowLt (iterate_move_lt (middle.length + 1) hhighLt))
      (fun h => hdiffer (Nat.xor_eq_zero_iff.mp h)) hzero
  have hbyte := eq_of_cancel (by omega) (by omega) hcancel
  apply hne
  rw [← lowByte_of_ascii hx, ← lowByte_of_ascii hc, lowByte, lowByte, hbyte]

end Residues

section Substitutions

variable {lower : Lowering} {hrp hrp' a dataPart : List Char} {witver witver' : UInt8}
  {witprog witprog' symbols symbols' : List UInt8} {c : Char} {i : ℕ}

theorem Writes.split {before after : List Char} (h : Writes (before ++ c :: after) symbols) :
    ∃ front d back, symbols = front ++ d :: back ∧ Writes before front ∧ lowByte c = symbolAt d ∧
      Writes after back := by
  obtain ⟨hmap, hlt⟩ := h
  rw [List.map_append, List.map_cons] at hmap
  obtain ⟨front, rest, rfl, hfront, hrest⟩ := List.map_eq_append_iff.mp hmap.symm
  obtain ⟨d, back, rfl, hd, hback⟩ := List.map_eq_cons_iff.mp hrest
  refine ⟨front, d, back, rfl, ⟨hfront.symm, ?_⟩, hd.symm, ⟨hback.symm, ?_⟩⟩
  · intro e he
    exact hlt e (by simp [he])
  · intro e he
    exact hlt e (by simp [he])

theorem constantOf_cases (witver : UInt8) : (witver = 0 ∧ constantOf witver = bech32Const) ∨
      (witver ≠ 0 ∧ constantOf witver = bech32mConst) := by
  unfold constantOf
  by_cases h : witver = 0
  · exact .inl ⟨h, if_pos h⟩
  · exact .inr ⟨h, if_neg h⟩

/-- Two addresses of one human-readable part never differ in one symbol. -/
theorem not_spells_substituted {front back : List UInt8} {d d' : UInt8} (hne : d ≠ d')
    (h : Spells hrp witver witprog (front ++ d :: back)) : ¬ Spells hrp witver' witprog' (front ++ d' :: back) := by
  intro h'
  have hd : d < 32 := h.lt d (by simp)
  have hd' : d' < 32 := h'.lt d' (by simp)
  have hdiff : d.toNat ^^^ d'.toNat < 2 ^ 30 := (xor_toNat_lt hd hd').trans (by norm_num)
  have hmoved := iterate_move_ne_zero back.length hdiff (xor_toNat_ne_zero hne)
  have hresidue := residueOf_substitute hrp front back d d'
  rw [h.residue, h'.residue] at hresidue
  have hxor : move^[back.length] (d.toNat ^^^ d'.toNat) = constantOf witver ^^^ constantOf witver' := by
    rw [hresidue, ← Nat.xor_assoc, Nat.xor_self, Nat.zero_xor]
  obtain ⟨haccepts, narrow, hgrouped, hsymbols⟩ := id h
  obtain ⟨haccepts', narrow', hgrouped', hsymbols'⟩ := id h'
  cases front with
  | cons e front =>
    have hver : witver = witver' := by
      rw [List.cons_append, List.cons_append, List.cons.injEq] at hsymbols hsymbols'
      exact hsymbols.1.symm.trans hsymbols'.1
    rw [hver, Nat.xor_self] at hxor
    exact hmoved hxor
  | nil =>
    rw [List.nil_append, List.cons_append, List.cons.injEq] at hsymbols hsymbols'
    have hlength := congrArg List.length (hsymbols.2.symm.trans hsymbols'.2)
    have hback := congrArg List.length hsymbols.2
    rw [List.length_append, checksumOf_length] at hback
    rw [List.length_append, List.length_append, checksumOf_length, checksumOf_length] at hlength
    have hgroups := grouped_length haccepts hgrouped
    have hgroups' := grouped_length haccepts' hgrouped'
    obtain ⟨hzero, hconst⟩ | ⟨hzero, hconst⟩ := constantOf_cases witver
    · obtain ⟨hzero', hconst'⟩ | ⟨hzero', hconst'⟩ := constantOf_cases witver'
      · rw [hconst, hconst', Nat.xor_self] at hxor
        exact hmoved hxor
      · have hfar : back.length = 58 := by
          simp only [hzero, true_and, ne_eq, not_true_eq_false, false_and, or_false] at hgroups
          simp only [hzero', ne_eq, not_false_eq_true, true_and, false_and, false_or] at hgroups'
          omega
        rw [hfar, hconst, hconst'] at hxor
        exact version_change _ (xor_toNat_lt hd hd') hxor
    · obtain ⟨hzero', hconst'⟩ | ⟨hzero', hconst'⟩ := constantOf_cases witver'
      · have hfar : back.length = 58 := by
          simp only [hzero', true_and, ne_eq, not_true_eq_false, false_and, or_false] at hgroups'
          simp only [hzero, ne_eq, not_false_eq_true, true_and, false_and, false_or] at hgroups
          omega
        rw [hfar, hconst, hconst', Nat.xor_comm bech32mConst] at hxor
        exact version_change _ (xor_toNat_lt hd hd') hxor
      · rw [hconst, hconst', Nat.xor_self] at hxor
        exact hmoved hxor

theorem any_lowercase_set (hhrp : hrp ∈ supported) (rest : List Char) (i : ℕ) (c : Char) :
    ((hrp ++ rest).set i c).any isAsciiLowercase := by
  obtain ⟨-, -, -, x, y, tail, rfl, hx, hy⟩ := supported_plain hrp hhrp
  rw [List.any_eq_true]
  cases i with
  | zero => exact ⟨y, by simp, hy⟩
  | succ i => exact ⟨x, by simp, hx⟩

theorem not_spells_hrp (hhrp : hrp ∈ supported) (hi : i < hrp.length) (hc : isAscii c) (hne : hrp[i] ≠ c)
    (h : Spells hrp witver witprog symbols) : ¬ Spells (hrp.set i c) witver' witprog' symbols := by
  intro h'
  obtain ⟨hplain, -, hlen, -⟩ := supported_plain hrp hhrp
  have hsplit : hrp = hrp.take i ++ hrp[i] :: hrp.drop (i + 1) := by
    rw [List.getElem_cons_drop, List.take_append_drop]
  have hset : hrp.set i c = hrp.take i ++ c :: hrp.drop (i + 1) := List.set_eq_take_append_cons_drop.trans (if_pos hi)
  have hascii : isAscii hrp[i] := List.all_eq_true.mp (all_ascii_of_plain hplain) _ (List.getElem_mem hi)
  have hlength : (hrp.take i).length + (hrp.drop (i + 1)).length + 1 ≤ 4 := by
    rw [List.length_take, List.length_drop]
    omega
  have hdiffer := residueOf_hrp_ne hlength hascii hc hne symbols
  rw [← hset, ← hsplit] at hdiffer
  have hver : witver' = witver := by
    obtain ⟨-, narrow, -, hsymbols⟩ := h
    obtain ⟨-, narrow', -, hsymbols'⟩ := h'
    rw [hsymbols, List.cons_append, List.cons_append, List.cons.injEq] at hsymbols'
    exact hsymbols'.1.symm
  rw [h.residue, h'.residue, hver] at hdiffer
  exact hdiffer rfl

theorem toLowercase_set (hlower : LowersAscii lower) {a : List Char} (ha : a.all isPlain) (hi : i < a.length)
    {c' : Char} (hc : lower (a.take i) c (a.drop (i + 1)) = [c']) : toLowercase lower (a.set i c) = a.set i c' := by
  have hplain : ∀ before s : List Char, s.all isPlain → lowerFrom lower before s = s := by
    intro before s
    induction s generalizing before with
    | nil => exact fun _ => rfl
    | cons x rest ih =>
      intro hs
      rw [List.all_cons, Bool.and_eq_true, isPlain, Bool.and_eq_true] at hs
      rw [lowerFrom, hlower.ascii _ _ _ hs.1.1, ih _ hs.2,
        toLower_of_not_upper hs.1.1 (by simpa using hs.1.2), List.singleton_append]
  have happend : ∀ before front rest : List Char, front.all isPlain →
      lowerFrom lower before (front ++ rest) = front ++ lowerFrom lower (before ++ front) rest := by
    intro before front rest
    induction front generalizing before with
    | nil => simp
    | cons x front ih =>
      intro hs
      rw [List.all_cons, Bool.and_eq_true, isPlain, Bool.and_eq_true] at hs
      rw [List.cons_append, lowerFrom, hlower.ascii _ _ _ hs.1.1, ih _ hs.2,
        toLower_of_not_upper hs.1.1 (by simpa using hs.1.2), List.append_assoc, List.singleton_append,
        List.singleton_append]
      rfl
  rw [List.all_eq_true] at ha
  have hfront : (a.take i).all isPlain := List.all_eq_true.mpr fun x hx => ha x (List.mem_of_mem_take hx)
  have hback : (a.drop (i + 1)).all isPlain := List.all_eq_true.mpr fun x hx => ha x (List.mem_of_mem_drop hx)
  rw [toLowercase, List.set_eq_take_append_cons_drop, if_pos hi, happend [] _ _ hfront, lowerFrom, List.nil_append, hc,
    hplain _ _ hback, List.set_eq_take_append_cons_drop, if_pos hi]
  rfl

/-- The address with one character replaced, as it is after lower-casing, makes no other address, nor a
short one, unless the character is read as the one before or separates. -/
theorem not_reads_lowered (hhrp : hrp ∈ supported) (h : Spells hrp witver witprog symbols) {s : List Char}
    (hi : i < (hrp ++ '1' :: symbols.map symbolAt).length) (hone : i < hrp.length ∨ c ≠ '1')
    (hsame : toLowercase lower s = (hrp ++ '1' :: symbols.map symbolAt).set i c)
    (hne : (if i ≤ hrp.length then c else lowByte c) ≠ (hrp ++ '1' :: symbols.map symbolAt)[i])
    (hparts : Parts lower s hrp' symbols') :
    39 ≤ symbols'.length ∧ ∀ witver' witprog', ¬ Spells hrp' witver' witprog' symbols' := by
  have hlength := (Spells.length h).1
  obtain ⟨dataPart, heq, hwrites⟩ := hparts.split
  rw [hsame] at heq
  have hnot := separator_notMem_symbols h.lt
  have hsplit := splitSeparator_eq_some.mpr ⟨heq, hwrites.separator_notMem⟩
  by_cases hfront : i < hrp.length
  · have hset : (hrp ++ '1' :: symbols.map symbolAt).set i c = hrp.set i c ++ '1' :: symbols.map symbolAt :=
      List.set_append_left i c hfront
    rw [hset, splitSeparator_append hnot, Option.some.injEq, Prod.mk.injEq] at hsplit
    obtain ⟨rfl, rfl⟩ := hsplit
    have hsymbols := hwrites.unique (writes_symbols h.lt)
    subst hsymbols
    have hc : isAscii c := List.all_eq_true.mp hparts.part.ascii _ (List.mem_set hfront c)
    rw [if_pos hfront.le, List.getElem_append_left hfront] at hne
    exact ⟨hlength, fun _ _ => not_spells_hrp hhrp hfront hc hne.symm h⟩
  · replace hone := hone.resolve_left hfront
    rw [List.set_append_right i c (by omega)] at hsplit
    cases hj : i - hrp.length with
    | zero =>
      have hnone : '1' ∉ hrp ++ c :: symbols.map symbolAt := by
        have hhrp' := (supported_plain hrp hhrp).2.1
        simp only [List.mem_append, List.mem_cons, not_or]
        exact ⟨hhrp', fun h => hone h.symm, hnot⟩
      rw [hj, List.set_cons_zero, splitSeparator_eq_none.mpr hnone] at hsplit
      cases hsplit
    | succ j =>
      have hj' : j < (symbols.map symbolAt).length := by
        rw [List.length_append, List.length_cons] at hi
        omega
      have hset : (symbols.map symbolAt).set j c =
          (symbols.map symbolAt).take j ++ c :: (symbols.map symbolAt).drop (j + 1) :=
        List.set_eq_take_append_cons_drop.trans (if_pos hj')
      have hnot' : '1' ∉ (symbols.map symbolAt).set j c := by
        intro hmem
        obtain hin | heq := List.mem_or_eq_of_mem_set hmem
        · exact hnot hin
        · exact hone heq.symm
      rw [hj, List.set_cons_succ, splitSeparator_append hnot', Option.some.injEq, Prod.mk.injEq] at hsplit
      obtain ⟨rfl, rfl⟩ := hsplit
      have hget : (hrp ++ '1' :: symbols.map symbolAt)[i] = (symbols.map symbolAt)[j] := by
        rw [List.getElem_append_right (by omega)]
        simp only [hj, List.getElem_cons_succ]
      have hold : Writes ((symbols.map symbolAt).take j ++
          (symbols.map symbolAt)[j] :: (symbols.map symbolAt).drop (j + 1)) symbols := by
        rw [List.getElem_cons_drop, List.take_append_drop]
        exact writes_symbols h.lt
      rw [hset] at hwrites
      obtain ⟨front, d, back, rfl, hbefore, hd, hafter⟩ := Writes.split hold
      obtain ⟨front', d', back', rfl, hbefore', hd', hafter'⟩ := Writes.split hwrites
      have hfronts := hbefore.unique hbefore'
      have hbacks := hafter.unique hafter'
      subst hfronts hbacks
      have hdiffer : d ≠ d' := by
        intro heq
        apply hne
        have hplainGet : isAscii ((List.map symbolAt (front ++ d :: back))[j]) :=
          List.all_eq_true.mp (all_ascii_of_plain (symbols_plain h.lt)) _ (List.getElem_mem hj')
        rw [if_neg (by omega), hget, ← lowByte_of_ascii hplainGet, hd, heq, ← hd']
      refine ⟨?_, fun _ _ => not_spells_substituted hdiffer h⟩
      simpa using hlength

end Substitutions

section Reading

variable {lower : Lowering} {s hrp a : List Char} {witver : UInt8} {witprog : List UInt8} {i : ℕ} {c : Char}

/-- Reading ends with an error. -/
def Rejects (lower : Lowering) (s : List Char) : Prop := ∃ e, decode lower s = .error (.error e)

theorem rejects_iff : Rejects lower s ↔ ¬ (TooShort lower s ∨ SpellsAddress lower s) := by
  constructor
  · rintro ⟨e, he⟩ (hshort | ⟨hrp, witver, witprog, hreads⟩)
    · rw [decode_eq_underflow.mpr hshort] at he
      cases he
    · rw [decode_eq_ok.mpr hreads] at he
      cases he
  · intro h
    obtain ⟨hshort, hspells⟩ := not_or.mp h
    cases hdecode : decode lower s with
    | ok r =>
      obtain ⟨hrp, witver, witprog⟩ := r
      exact absurd ⟨hrp, witver, witprog, decode_eq_ok.mp hdecode⟩ hspells
    | error e =>
      cases e with
      | underflow => exact absurd (decode_eq_underflow.mp hdecode) hshort
      | error e => exact ⟨e, hdecode⟩

theorem rejects_of_not_readable (h : ¬ ReadableString s) : Rejects lower s := by
  rw [rejects_iff]
  rintro (⟨hrp, symbols, hparts, -⟩ | ⟨hrp, witver, witprog, hreads⟩)
  · exact h hparts.string
  · exact h hreads.1

/-- A character that is not ASCII changes neither the case of an address nor its length by much. -/
theorem readable_set (ha : a.all isPlain) (hlength : 8 ≤ a.length ∧ a.length ≤ 87) (hi : i < a.length)
    (hc : ¬ isAscii c) : ReadableString (a.set i c) := by
  have hascii := List.all_eq_true.mp (all_ascii_of_plain ha)
  have hfront := @utf8Length_ascii (a.take i) (List.all_eq_true.mpr fun x hx => hascii x (List.mem_of_mem_take hx))
  have hback := @utf8Length_ascii (a.drop (i + 1)) (List.all_eq_true.mpr fun x hx => hascii x (List.mem_of_mem_drop hx))
  have hsum : utf8Length (a.set i c) = utf8Length (a.take i) + (c.utf8Size + utf8Length (a.drop (i + 1))) := by
    rw [List.set_eq_take_append_cons_drop, if_pos hi]
    simp [utf8Length]
  rw [hfront, hback, List.length_take, List.length_drop] at hsum
  have hpos := c.utf8Size_pos
  have hfour := c.utf8Size_le_four
  refine ⟨by omega, by omega, fun hmixed => ?_⟩
  obtain ⟨x, hx, hup⟩ := List.any_eq_true.mp hmixed.2
  obtain hin | rfl := List.mem_or_eq_of_mem_set hx
  · exact no_upper_of_plain ha (List.any_eq_true.mpr ⟨x, hin, hup⟩)
  · apply hc
    simp only [isAsciiUppercase, Bool.and_eq_true, decide_eq_true_eq] at hup
    simp only [isAscii, decide_eq_true_eq]
    omega

/-- A substitution whose character has one lower-case form is noticed unless that form is not the
separator within the data part, comes from a character that is not ASCII, and is read as what stood
there before: the whole form up to the separator, its low byte behind it. -/
theorem rejects_set_iff (hlower : LowersAscii lower) (hhrp : hrp ∈ supported) (ha : encode hrp witver witprog = .ok a)
    (hi : i < a.length) (hne : a[i] ≠ c) {c' : Char} (hc' : lower (a.take i) c (a.drop (i + 1)) = [c'])
    (hplace : i ≤ hrp.length ∨ c' ≠ '1') :
    Rejects lower (a.set i c) ↔ isAscii c ∨ (if i ≤ hrp.length then c' else lowByte c') ≠ a[i] := by
  obtain ⟨hpart, -, symbols, hspells, rfl⟩ := encode_eq_ok.mp ha
  have hplain := address_plain hhrp hspells.lt
  have hset := toLowercase_set hlower hplain hi hc'
  by_cases hread : (if i ≤ hrp.length then c' else lowByte c') = (hrp ++ '1' :: symbols.map symbolAt)[i]
  · by_cases hc : isAscii c
    · -- only an upper case letter is read as another character
      refine iff_of_true (rejects_of_not_readable fun hreadable => hreadable.2.2 ?_) (.inl hc)
      refine ⟨any_lowercase_set hhrp _ i c, List.any_eq_true.mpr ⟨c, List.mem_set hi c, ?_⟩⟩
      by_contra hup
      rw [hlower.ascii _ _ _ hc, toLower_of_not_upper hc hup, List.singleton_inj] at hc'
      subst hc'
      rw [lowByte_of_ascii hc, ite_self] at hread
      exact hne hread.symm
    · refine iff_of_false (fun hrejects => rejects_iff.mp hrejects (.inr ⟨hrp, witver, witprog, ?_⟩))
        (not_or.mpr ⟨hc, not_not_intro hread⟩)
      have hlength := Spells.length hspells
      have hlimit := (supported_plain hrp hhrp).2.2.1
      refine ⟨readable_set hplain ?_ hi hc, hpart, ?_⟩
      · simp only [List.length_append, List.length_cons, List.length_map]
        omega
      · by_cases hfront : i ≤ hrp.length
        · rw [if_pos hfront] at hread
          refine ⟨_, symbols, ?_, writes_symbols hspells.lt, hspells⟩
          rw [hset, hread, List.set_getElem_self]
        · rw [if_neg hfront] at hread
          obtain ⟨j, rfl⟩ : ∃ j, i = hrp.length + (j + 1) := ⟨i - hrp.length - 1, by omega⟩
          refine ⟨(symbols.map symbolAt).set j c', symbols, ?_, ⟨?_, hspells.lt⟩, hspells⟩
          · rw [hset, List.set_append_right _ _ (by omega), Nat.add_sub_cancel_left, List.set_cons_succ]
          · have hj : j < (symbols.map symbolAt).length := by
              rw [List.length_append, List.length_cons] at hi
              omega
            have hget : (hrp ++ '1' :: symbols.map symbolAt)[hrp.length + (j + 1)] = (symbols.map symbolAt)[j] := by
              rw [List.getElem_append_right (by omega)]
              simp only [Nat.add_sub_cancel_left, List.getElem_cons_succ]
            rw [List.map_set, hread, hget, map_lowByte_ascii (all_ascii_of_plain (symbols_plain hspells.lt)),
              List.set_getElem_self]
  · refine iff_of_true ?_ (.inr hread)
    have hone : i < hrp.length ∨ c' ≠ '1' := by
      by_contra hnot
      obtain ⟨hbehind, hsep⟩ := not_or.mp hnot
      have hat : i = hrp.length := by
        rcases hplace with hle | hnot'
        · omega
        · exact absurd hnot' hsep
      apply hread
      rw [if_pos hat.le, not_not.mp hsep]
      simp [hat]
    rw [rejects_iff]
    rintro (⟨hrp', symbols', hparts, hshort⟩ | ⟨hrp', witver', witprog', hreads⟩)
    · have hlong := (not_reads_lowered hhrp hspells hi hone hset hread hparts).1
      omega
    · obtain ⟨symbols', hparts, hspells'⟩ := hreads.parts
      exact (not_reads_lowered hhrp hspells hi hone hset hread hparts).2 _ _ hspells'

/-- The constant of the other versions. -/
def otherConstantOf (witver : UInt8) : ℕ := if witver = 0 then bech32mConst else bech32Const

theorem decode_wrong_constant (hlower : LowersAscii lower) (hhrp : hrp ∈ supported) {narrow : List UInt8}
    (haccepts : Accepts witver witprog) (hgrouped : Grouped witprog narrow)
    (ha : encodeBech32Inner hrp (witver :: narrow) (otherConstantOf witver) = .ok a) :
    decode lower a = .error (.error .invalidChecksum) := by
  have hdata : ∀ d ∈ witver :: narrow, d < 32 := by
    intro d hd
    rw [List.mem_cons] at hd
    obtain rfl | hin := hd
    · exact UInt8.lt_of_le_of_lt haccepts.1 (by decide)
    · exact hgrouped.lt d hin
  obtain ⟨hpart, -, rfl⟩ := (encodeBech32Inner_eq_ok hdata).mp ha
  let ends := checksumOf hrp (witver :: narrow) (otherConstantOf witver)
  have hlt : ∀ d ∈ witver :: narrow ++ ends, d < 32 := by
    intro d hd
    rw [List.mem_append] at hd
    obtain hin | hin := hd
    · exact hdata d hin
    · exact checksumOf_lt d hin
  have hlength : 39 ≤ (witver :: narrow ++ ends).length ∧ (witver :: narrow ++ ends).length ≤ 71 := by
    have hgroups := grouped_length haccepts hgrouped
    rw [List.length_append, List.length_cons, checksumOf_length]
    omega
  have hconstant : otherConstantOf witver < 2 ^ 30 := by
    unfold otherConstantOf
    split <;> decide
  have hresidue : residueOf hrp (witver :: narrow ++ ends) = otherConstantOf witver :=
    (residueOf_append_iff hconstant (checksumOf_length ..) checksumOf_lt).mpr rfl
  have hparts : Parts lower (hrp ++ '1' :: (witver :: narrow ++ ends).map symbolAt) hrp
      (witver :: narrow ++ ends) := by
    refine ⟨address_readable hhrp hlt hlength, hpart, address_split hlower hhrp hlt, ?_⟩
    rw [hresidue]
    unfold otherConstantOf
    split
    · exact .inr rfl
    · exact .inl rfl
  obtain ⟨-, hnone⟩ | ⟨hrp', symbols, hparts', hdetect⟩ :=
    decodeBech32Detect_cases lower (hrp ++ '1' :: (witver :: narrow ++ ends).map symbolAt)
  · exact absurd hparts (hnone hrp _)
  · obtain ⟨rfl, rfl⟩ := hparts.unique hparts'
    have htake : (witver :: narrow ++ ends).take ((witver :: narrow ++ ends).length - 6) =
        witver :: narrow := by
      rw [List.length_append, checksumOf_length, Nat.add_sub_cancel, List.take_left]
    rw [if_neg (by omega), htake, hresidue] at hdetect
    have hother : otherConstantOf witver ≠ constantOf witver := by
      unfold otherConstantOf constantOf
      split <;> decide
    have hver : ¬ 16 < witver := UInt8.not_lt.mpr haccepts.1
    rw [decode, hdetect]
    simp only [bind, Except.bind, if_neg hver, if_pos hother]
    rfl

/-- How exactly addresses are read, for any lower-casing that agrees with ASCII: what is written
is read back; a string is read exactly when it is ASCII or spells no address, and no checksum
stands over fewer than six symbols; a substitution with one lower-case form is noticed unless it
comes from outside ASCII and is read as what stood there before, or separates within the data; and
the wrong constant is rejected. -/
theorem reading_exact_iff (hlower : LowersAscii lower) : (∀ hrp ∈ supported, ∀ witver witprog, Fits witver witprog →
        ∃ a, encode hrp witver witprog = .ok a ∧ decode lower a = .ok (hrp, witver, witprog)) ∧
      (∀ s, (Exact lower s ↔ ¬ TooShort lower s ∧ (s.all isAscii ∨ ¬ SpellsAddress lower s)) ∧
        (Rejects lower s ↔ ¬ (TooShort lower s ∨ SpellsAddress lower s))) ∧
        (∀ hrp ∈ supported, ∀ witver witprog a, encode hrp witver witprog = .ok a →
          ∀ (i : ℕ) (hi : i < a.length) (c : Char), a[i] ≠ c →
            ∀ c', lower (a.take i) c (a.drop (i + 1)) = [c'] → (i ≤ hrp.length ∨ c' ≠ '1') →
              (Rejects lower (a.set i c) ↔
                isAscii c ∨ (if i ≤ hrp.length then c' else lowByte c') ≠ a[i])) ∧
          ∀ hrp ∈ supported, ∀ witver witprog narrow a, Fits witver witprog →
            convertBits witprog 8 5 true = .ok narrow →
              encodeBech32Inner hrp (witver :: narrow) (otherConstantOf witver) = .ok a →
                decode lower a = .error (.error .invalidChecksum) := by
  refine ⟨?_, fun _ => ⟨exact_iff hlower, rejects_iff⟩, ?_, ?_⟩
  · intro hrp hhrp witver witprog hfits
    obtain ⟨a, ha⟩ := encode_of_fits hhrp hfits
    exact ⟨a, ha, decode_encode hlower hhrp ha⟩
  · intro hrp hhrp witver witprog a ha i hi c hne c' hc' hplace
    exact rejects_set_iff hlower hhrp ha hi hne hc' hplace
  · intro hrp hhrp witver witprog narrow a hfits hconvert ha
    obtain ⟨narrow', hconvert', hgrouped⟩ := convertBits_encode witprog
    rw [hconvert, Except.ok.injEq] at hconvert'
    exact decode_wrong_constant hlower hhrp hfits.accepts (hconvert' ▸ hgrouped) ha

/-- Lower-casing of ASCII and of the Kelvin sign. -/
def kelvinLower : Lowering := fun _ c _ => if c = Char.ofNat 0x212a then ['k'] else [c.toLower]

theorem kelvinLower_ascii : LowersAscii kelvinLower where
  ascii := by
    intro before c after hc
    apply if_neg
    rintro rfl
    revert hc
    decide

theorem kelvinLower_exact : (∀ hrp ∈ supported, ∀ witver witprog, Fits witver witprog →
        ∃ a, encode hrp witver witprog = .ok a ∧
          decode kelvinLower a = .ok (hrp, witver, witprog)) ∧
      (∀ s, (Exact kelvinLower s ↔
          ¬ TooShort kelvinLower s ∧ (s.all isAscii ∨ ¬ SpellsAddress kelvinLower s)) ∧
        (Rejects kelvinLower s ↔ ¬ (TooShort kelvinLower s ∨ SpellsAddress kelvinLower s))) ∧
        (∀ hrp ∈ supported, ∀ witver witprog a, encode hrp witver witprog = .ok a →
          ∀ (i : ℕ) (hi : i < a.length) (c : Char), a[i] ≠ c →
            ∀ c', kelvinLower (a.take i) c (a.drop (i + 1)) = [c'] → (i ≤ hrp.length ∨ c' ≠ '1') →
              (Rejects kelvinLower (a.set i c) ↔
                isAscii c ∨ (if i ≤ hrp.length then c' else lowByte c') ≠ a[i])) ∧
          ∀ hrp ∈ supported, ∀ witver witprog narrow a, Fits witver witprog →
            convertBits witprog 8 5 true = .ok narrow →
              encodeBech32Inner hrp (witver :: narrow) (otherConstantOf witver) = .ok a →
                decode kelvinLower a = .error (.error .invalidChecksum) :=
  reading_exact_iff kelvinLower_ascii

/-- An address of twenty zero bytes whose first `q` is the small letter u with a double acute. -/
def doubleAcute : List Char :=
  ['k', 'b', '1', Char.ofNat 0x171] ++ List.replicate 32 'q' ++ ['y', 'q', 'e', 'v', 'c', '6']

/-- A human-readable part with a checksum over five symbols. -/
def fiveSymbols : List Char := ['k', 'b', 'a', 'q', '1', 'd', '2', 'h', 'f', 'r']

/-- A letter of another alphabet is read by its last byte, and five symbols pass for a checksum. -/
theorem doubleAcute_read : decode kelvinLower fiveSymbols = .error .underflow ∧
      ¬ ∀ lower, LowersAscii lower → ∀ s, Exact lower s := by
  refine ⟨by decide +kernel, ?_⟩
  intro h
  have hread : decode kelvinLower doubleAcute = .ok (hrpMainnet, 0, List.replicate 20 0) := by
    decide +kernel
  obtain ⟨a, ha, heq⟩ := (h kelvinLower kelvinLower_ascii doubleAcute).2 _ _ _ hread
  have haddress : encode hrpMainnet 0 (List.replicate 20 0) = .ok (doubleAcute.set 3 'q') := by
    decide +kernel
  rw [haddress, Except.ok.injEq] at ha
  rw [← ha] at heq
  revert heq
  decide +kernel

end Reading

end KuberCoin.Bech32Substitutions
