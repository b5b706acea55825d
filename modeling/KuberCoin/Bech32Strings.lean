import KuberCoin.Bech32Registers
import KuberCoin.Bech32Programs

/-!
What an address spells. The data part of an address is the version, the groups of the program
and six symbols of checksum. Reading takes a string as an address when it is one after
lower-casing and after its data characters are cut to their last byte.
-/
namespace KuberCoin.Bech32Strings

open FeedbackRegisters Bech32Codes Bech32Registers Bech32Programs

section Symbols

variable {c : Char} {dataPart : List Char} {symbols : List UInt8}

/-- A byte as a character. -/
def charOf (b : UInt8) : Char := Char.ofNat b.toNat

/-- A character cut to its last byte. -/
def lowByte (c : Char) : Char := charOf (asU8 c)

theorem toNat_charOf (b : UInt8) : (charOf b).toNat = b.toNat := by
  have hvalid : b.toNat.isValidChar := Or.inl (by have := b.toNat_lt; omega)
  unfold charOf Char.ofNat
  rw [dif_pos hvalid]
  unfold Char.ofNatAux Char.toNat
  simp

theorem charOf_injective {b b' : UInt8} (h : charOf b = charOf b') : b = b' := by
  have hnat := congrArg Char.toNat h
  rw [toNat_charOf, toNat_charOf] at hnat
  exact UInt8.toNat_inj.mp hnat

theorem lowByte_of_ascii (h : isAscii c) : lowByte c = c := by
  have hlt : c.toNat < 128 := by simpa [isAscii] using h
  apply Char.toNat_inj.mp
  rw [lowByte, toNat_charOf, asU8, UInt8.toNat_ofNat']
  omega

theorem symbolAt_eq (d : UInt8) : symbolAt d = charOf (charset.getD d.toNat 0) := rfl

theorem charset_find : ∀ d < 32, charset.findIdx? (· == charset.getD d 0) = some d := by decide

theorem symbolOf_eq_ok {d : UInt8} : symbolOf c = .ok d ↔ lowByte c = symbolAt d ∧ d < 32 := by
  unfold symbolOf
  constructor
  · intro h
    cases hfind : charset.findIdx? (· == asU8 c) with
    | none => simp [hfind] at h
    | some pos =>
      have hd : UInt8.ofNat pos = d := by simpa [hfind] using h
      obtain ⟨hpos, hbyte, -⟩ := List.findIdx?_eq_some_iff_getElem.mp hfind
      have hlt : pos < 32 := hpos
      have hnat : d.toNat = pos := by
        rw [← hd, UInt8.toNat_ofNat']
        omega
      refine ⟨?_, UInt8.lt_iff_toNat_lt.mpr (by rw [hnat]; exact hlt)⟩
      rw [symbolAt_eq, hnat, List.getD_eq_getElem _ _ hpos, lowByte]
      congr 1
      exact (beq_iff_eq.mp hbyte).symm
  · rintro ⟨hchar, hlt⟩
    have hbyte : asU8 c = charset.getD d.toNat 0 := charOf_injective hchar
    rw [hbyte, charset_find d.toNat (UInt8.lt_iff_toNat_lt.mp hlt)]
    simp

theorem symbolOf_ne_underflow (c : Char) : symbolOf c ≠ .error .underflow := by
  unfold symbolOf
  split <;> simp

/-- The characters of a data part, cut to their last byte, write these symbols. -/
def Writes (dataPart : List Char) (symbols : List UInt8) : Prop :=
  dataPart.map lowByte = symbols.map symbolAt ∧ ∀ d ∈ symbols, d < 32

theorem mapM_symbolOf_eq_ok : dataPart.mapM symbolOf = .ok symbols ↔ Writes dataPart symbols := by
  induction dataPart generalizing symbols with
  | nil =>
    cases symbols with
    | nil => simp [Writes, pure, Except.pure]
    | cons d rest => simp [Writes, pure, Except.pure]
  | cons c dataPart ih =>
    rw [List.mapM_cons]
    constructor
    · intro h
      cases hc : symbolOf c with
      | error e => simp [hc, bind, Except.bind] at h
      | ok d =>
        cases hrest : dataPart.mapM symbolOf with
        | error e => simp [hc, hrest, bind, Except.bind] at h
        | ok ds =>
          have heq : d :: ds = symbols := by
            simpa [hc, hrest, bind, Except.bind, pure, Except.pure] using h
          subst heq
          obtain ⟨hchar, hlt⟩ := symbolOf_eq_ok.mp hc
          obtain ⟨hchars, hlts⟩ := ih.mp hrest
          exact ⟨by simp [hchar, hchars], by simpa [hlt] using hlts⟩
    · rintro ⟨hchars, hlts⟩
      cases symbols with
      | nil => simp at hchars
      | cons d ds =>
        rw [List.map_cons, List.map_cons, List.cons.injEq] at hchars
        have hc := symbolOf_eq_ok.mpr ⟨hchars.1, hlts d (by simp)⟩
        have hrest := ih.mpr ⟨hchars.2, fun u hu => hlts u (by simp [hu])⟩
        simp [hc, hrest, bind, Except.bind, pure, Except.pure]

theorem mapM_symbolOf_ne_underflow (dataPart : List Char) : dataPart.mapM symbolOf ≠ .error .underflow := by
  induction dataPart with
  | nil => simp [pure, Except.pure]
  | cons c dataPart ih =>
    rw [List.mapM_cons]
    cases hc : symbolOf c with
    | error e =>
      have hne := symbolOf_ne_underflow c
      rw [hc] at hne
      simpa [bind, Except.bind] using hne
    | ok d =>
      cases hrest : dataPart.mapM symbolOf with
      | error e =>
        rw [hrest] at ih
        simpa [bind, Except.bind] using ih
      | ok ds => simp [bind, Except.bind, pure, Except.pure]

theorem Writes.length (h : Writes dataPart symbols) : dataPart.length = symbols.length := by
  have hlength := congrArg List.length h.1
  simpa using hlength

theorem Writes.unique {symbols' : List UInt8} (h : Writes dataPart symbols) (h' : Writes dataPart symbols') :
    symbols = symbols' := by
  have hok := mapM_symbolOf_eq_ok.mpr h
  rw [mapM_symbolOf_eq_ok.mpr h', Except.ok.injEq] at hok
  exact hok.symm

end Symbols

section Separators

variable {dataPart hrp s : List Char}

theorem splitSeparator_eq_none : splitSeparator s = none ↔ '1' ∉ s := by
  induction s with
  | nil => simp [splitSeparator]
  | cons c rest ih =>
    rw [splitSeparator]
    cases hrest : splitSeparator rest with
    | some parts =>
      have hin : '1' ∈ rest := by
        by_contra hnot
        rw [ih.mpr hnot] at hrest
        cases hrest
      simp [hin]
    | none =>
      have hnot := ih.mp hrest
      by_cases hc : c = '1'
      · simp [hc]
      · have hne : '1' ≠ c := fun h => hc h.symm
        simp [hc, hne, hnot]

theorem splitSeparator_append (hdata : '1' ∉ dataPart) (hrp : List Char) :
    splitSeparator (hrp ++ '1' :: dataPart) = some (hrp, dataPart) := by
  induction hrp with
  | nil => simp [splitSeparator, splitSeparator_eq_none.mpr hdata]
  | cons c rest ih => simp [splitSeparator, ih]

theorem append_of_splitSeparator (h : splitSeparator s = some (hrp, dataPart)) :
    s = hrp ++ '1' :: dataPart ∧ '1' ∉ dataPart := by
  induction s generalizing hrp with
  | nil => simp [splitSeparator] at h
  | cons c rest ih =>
    rw [splitSeparator] at h
    cases hrest : splitSeparator rest with
    | some parts =>
      simp only [hrest, Option.some.injEq, Prod.mk.injEq] at h
      obtain ⟨rfl, rfl⟩ := h
      obtain ⟨heq, hnot⟩ := ih hrest
      exact ⟨by rw [List.cons_append, ← heq], hnot⟩
    | none =>
      simp only [hrest] at h
      split at h
      case isTrue hc =>
        simp only [Option.some.injEq, Prod.mk.injEq] at h
        obtain ⟨rfl, rfl⟩ := h
        exact ⟨by rw [hc]; rfl, splitSeparator_eq_none.mp hrest⟩
      case isFalse => simp at h

theorem splitSeparator_eq_some :
    splitSeparator s = some (hrp, dataPart) ↔ s = hrp ++ '1' :: dataPart ∧ '1' ∉ dataPart := by
  constructor
  · exact append_of_splitSeparator
  · rintro ⟨rfl, hnot⟩
    exact splitSeparator_append hnot hrp

end Separators

section Detection

variable {hrp : List Char} {symbols : List UInt8}

/-- A human-readable part of printable characters. -/
def ReadablePart (hrp : List Char) : Prop := hrp ≠ [] ∧ hrp.all printable

/-- A string of a length that is looked at, in one case. -/
def ReadableString (s : List Char) : Prop :=
  8 ≤ utf8Length s ∧ utf8Length s ≤ 90 ∧ ¬ (s.any isAsciiLowercase ∧ s.any isAsciiUppercase)

/-- The human-readable part as symbols. -/
def expand (hrp : List Char) : List UInt8 :=
  hrp.map (fun c => asU8 c >>> 5) ++ 0 :: hrp.map fun c => asU8 c &&& 31

theorem ReadablePart.ascii (h : ReadablePart hrp) : hrp.all isAscii := by
  rw [List.all_eq_true]
  intro c hc
  have hprint := List.all_eq_true.mp h.2 c hc
  rw [printable, Bool.and_eq_true] at hprint
  exact hprint.1

theorem hrpExpand_eq (h : hrp.all isAscii) : hrpExpand hrp = .ok (expand hrp) :=
  if_pos h

/-- The register after a human-readable part and some symbols. -/
def residueOf (hrp : List Char) (symbols : List UInt8) : ℕ := polymod (expand hrp ++ symbols)

/-- What is read before the checksum is looked at. -/
structure Parts (lower : Lowering) (s hrp : List Char) (symbols : List UInt8) : Prop where
  string : ReadableString s
  part : ReadablePart hrp
  split : ∃ dataPart, toLowercase lower s = hrp ++ '1' :: dataPart ∧ Writes dataPart symbols
  residue : residueOf hrp symbols = bech32Const ∨ residueOf hrp symbols = bech32mConst

theorem separator_notMem_symbols (h : ∀ d ∈ symbols, d < 32) : '1' ∉ symbols.map symbolAt := by
  have hall : ∀ n < 32, symbolAt (UInt8.ofNat n) ≠ '1' := by decide
  intro hmem
  obtain ⟨d, hd, heq⟩ := List.mem_map.mp hmem
  have hne := hall d.toNat (UInt8.lt_iff_toNat_lt.mp (h d hd))
  rw [UInt8.ofNat_toNat] at hne
  exact hne heq

theorem Writes.separator_notMem {dataPart : List Char} (h : Writes dataPart symbols) : '1' ∉ dataPart := by
  intro hmem
  have hlow : lowByte '1' ∈ dataPart.map lowByte := List.mem_map_of_mem hmem
  have hone : lowByte '1' = '1' := lowByte_of_ascii (by decide)
  rw [h.1, hone] at hlow
  exact separator_notMem_symbols h.2 hlow

theorem Parts.unique {lower : Lowering} {s hrp' : List Char} {symbols' : List UInt8} (h : Parts lower s hrp symbols)
    (h' : Parts lower s hrp' symbols') : hrp = hrp' ∧ symbols = symbols' := by
  obtain ⟨dataPart, heq, hwrites⟩ := h.split
  obtain ⟨dataPart', heq', hwrites'⟩ := h'.split
  have hsplit := splitSeparator_eq_some.mpr ⟨heq, hwrites.separator_notMem⟩
  rw [splitSeparator_eq_some.mpr ⟨heq', hwrites'.separator_notMem⟩, Option.some.injEq,
    Prod.mk.injEq] at hsplit
  obtain ⟨rfl, rfl⟩ := hsplit
  exact ⟨rfl, hwrites.unique hwrites'⟩

/-- The ends of reading: an error, or parts whose symbols hold a checksum, or parts that are too
short for one. -/
theorem decodeBech32Detect_cases (lower : Lowering) (s : List Char) :
    ((∃ e, decodeBech32Detect lower s = .error (.error e)) ∧
        ∀ hrp symbols, ¬ Parts lower s hrp symbols) ∨
      ∃ hrp symbols, Parts lower s hrp symbols ∧
        decodeBech32Detect lower s =
          if symbols.length < 6 then .error .underflow
          else .ok (hrp, symbols.take (symbols.length - 6), residueOf hrp symbols) := by
  have hsplits : ∀ {hrp dataPart}, splitSeparator (toLowercase lower s) = some (hrp, dataPart) →
      ∀ {hrp' symbols'}, Parts lower s hrp' symbols' → hrp' = hrp ∧ Writes dataPart symbols' := by
    intro hrp dataPart hsplit hrp' symbols' hparts
    obtain ⟨dataPart', heq, hwrites⟩ := hparts.split
    rw [splitSeparator_eq_some.mpr ⟨heq, hwrites.separator_notMem⟩, Option.some.injEq,
      Prod.mk.injEq] at hsplit
    exact ⟨hsplit.1, hsplit.2 ▸ hwrites⟩
  unfold decodeBech32Detect
  by_cases hlength : utf8Length s < 8 ∨ 90 < utf8Length s
  · refine .inl ⟨⟨.invalidLength (utf8Length s), if_pos hlength⟩, ?_⟩
    intro hrp symbols hparts
    have hstring := hparts.string
    unfold ReadableString at hstring
    omega
  by_cases hcase : s.any isAsciiLowercase ∧ s.any isAsciiUppercase
  · refine .inl ⟨⟨.mixedCase, by rw [if_neg hlength]; exact if_pos hcase⟩, ?_⟩
    intro hrp symbols hparts
    exact hparts.string.2.2 hcase
  rw [if_neg hlength, if_neg hcase]
  cases hsplit : splitSeparator (toLowercase lower s) with
  | none =>
    refine .inl ⟨⟨.noSeparator, rfl⟩, ?_⟩
    intro hrp symbols hparts
    obtain ⟨dataPart, heq, -⟩ := hparts.split
    exact splitSeparator_eq_none.mp hsplit (by simp [heq])
  | some parts =>
    obtain ⟨hrp, dataPart⟩ := parts
    by_cases hempty : hrp = []
    · refine .inl ⟨⟨.invalidHrp, if_pos (by simp [hempty])⟩, ?_⟩
      intro hrp' symbols hparts
      exact hparts.part.1 ((hsplits hsplit hparts).1.trans hempty)
    by_cases hprint : hrp.all printable
    · have hpart : ReadablePart hrp := ⟨hempty, hprint⟩
      have hisEmpty : ¬ hrp.isEmpty := by simpa using hempty
      simp only [if_neg hisEmpty, if_neg (not_not.mpr hprint), hrpExpand_eq hpart.ascii]
      cases hmap : dataPart.mapM symbolOf with
      | error e =>
        cases e with
        | underflow => exact absurd hmap (mapM_symbolOf_ne_underflow dataPart)
        | error e =>
          refine .inl ⟨⟨e, rfl⟩, ?_⟩
          intro hrp' symbols hparts
          rw [mapM_symbolOf_eq_ok.mpr (hsplits hsplit hparts).2] at hmap
          cases hmap
      | ok symbols =>
        have hwrites := mapM_symbolOf_eq_ok.mp hmap
        obtain ⟨heq, -⟩ := splitSeparator_eq_some.mp hsplit
        have hstring : ReadableString s := ⟨by omega, by omega, hcase⟩
        by_cases hresidue : residueOf hrp symbols = bech32Const ∨ residueOf hrp symbols = bech32mConst
        · refine .inr ⟨hrp, symbols, ⟨hstring, hpart, ⟨dataPart, heq, hwrites⟩, hresidue⟩, ?_⟩
          exact if_neg (by unfold residueOf at hresidue; tauto)
        · refine .inl ⟨⟨.invalidChecksum, if_pos (not_or.mp hresidue)⟩, ?_⟩
          intro hrp' symbols' hparts
          obtain ⟨rfl, hwrites'⟩ := hsplits hsplit hparts
          rw [hwrites.unique hwrites'] at hresidue
          exact hresidue hparts.residue
    · refine .inl ⟨⟨.invalidHrp, ?_⟩, ?_⟩
      · have hisEmpty : ¬ hrp.isEmpty := by simpa using hempty
        simp only [if_neg hisEmpty, if_pos hprint]
        rfl
      · intro hrp' symbols hparts
        exact hprint ((hsplits hsplit hparts).1 ▸ hparts.part.2)

end Detection

section Spelling

variable {a hrp : List Char} {data symbols witprog : List UInt8} {constant : ℕ} {witver : UInt8}

/-- The six symbols that end the data part. -/
def checksumOf (hrp : List Char) (data : List UInt8) (constant : ℕ) : List UInt8 :=
  (List.range 6).map fun i =>
    UInt8.ofNat (((residueOf hrp (data ++ List.replicate 6 0) ^^^ constant) >>> (5 * (5 - i))) &&& 31)

theorem createChecksumWith_eq (h : hrp.all isAscii) (data : List UInt8) (constant : ℕ) :
    createChecksumWith hrp data constant = .ok (checksumOf hrp data constant) := by
  simp only [createChecksumWith, hrpExpand_eq h, checksumOf, residueOf, List.append_assoc]
  rfl

theorem and_lt (n : ℕ) : n &&& 31 < 2 ^ 5 := Nat.and_lt_two_pow n (by norm_num)

theorem checksumOf_toNat (hrp : List Char) (data : List UInt8) (constant : ℕ) :
    (checksumOf hrp data constant).map UInt8.toNat =
      topDigits 5 6 (residueOf hrp (data ++ List.replicate 6 0) ^^^ constant) := by
  unfold checksumOf topDigits
  rw [List.map_map]
  apply List.map_congr_left
  intro i hi
  exact ofNat_toNat (by omega) (and_lt _)

@[simp]
theorem checksumOf_length (hrp : List Char) (data : List UInt8) (constant : ℕ) :
    (checksumOf hrp data constant).length = 6 := by simp [checksumOf]

theorem checksumOf_lt : ∀ d ∈ checksumOf hrp data constant, d < 32 := by
  intro d hd
  have hmem : d.toNat ∈ (checksumOf hrp data constant).map UInt8.toNat := List.mem_map_of_mem hd
  rw [checksumOf_toNat] at hmem
  exact UInt8.lt_iff_toNat_lt.mpr (topDigits_lt hmem)

theorem residueOf_eq (hrp : List Char) (symbols : List UInt8) :
    residueOf hrp symbols = run move 1 ((expand hrp).map UInt8.toNat ++ symbols.map UInt8.toNat) := by
  rw [residueOf, polymod_eq, List.map_append]

theorem residueOf_append_iff {hrp : List Char} {data ends : List UInt8} {constant : ℕ} (hconstant : constant < 2 ^ 30)
    (hlength : ends.length = 6) (hends : ∀ d ∈ ends, d < 32) :
    residueOf hrp (data ++ ends) = constant ↔ ends = checksumOf hrp data constant := by
  have hvalues : ∀ v ∈ (expand hrp).map UInt8.toNat ++ data.map UInt8.toNat, v < 256 := by
    intro v hv
    rw [← List.map_append] at hv
    obtain ⟨b, -, rfl⟩ := List.mem_map.mp hv
    exact b.toNat_lt
  have hdigits : ∀ d ∈ ends.map UInt8.toNat, d < 32 := by
    intro d hd
    obtain ⟨b, hb, rfl⟩ := List.mem_map.mp hd
    exact UInt8.lt_iff_toNat_lt.mp (hends b hb)
  have hiff := run_checksum_iff hvalues hconstant (by simpa using hlength) hdigits
  have hzeros : run move 1 ((expand hrp).map UInt8.toNat ++ data.map UInt8.toNat ++ List.replicate 6 0) =
      residueOf hrp (data ++ List.replicate 6 0) := by
    rw [residueOf_eq, List.map_append, List.append_assoc]
    rfl
  rw [residueOf_eq, List.map_append, ← List.append_assoc, hiff, hzeros, ← checksumOf_toNat]
  constructor
  · exact map_toNat_injective
  · intro h
    rw [← h]

theorem constantOf_lt (witver : UInt8) : constantOf witver < 2 ^ 30 := by
  unfold constantOf
  split <;> decide

/-- A version and a program that both directions accept. -/
def Accepts (witver : UInt8) (witprog : List UInt8) : Prop :=
  witver ≤ 16 ∧ checkProgram witver witprog = .ok ()

theorem Accepts.length (h : Accepts witver witprog) : (witver = 0 ∧ (witprog.length = 20 ∨ witprog.length = 32)) ∨
      (witver ≠ 0 ∧ (witprog.length = 32 ∨ witprog.length = 40)) := by
  have hcheck := h.2
  unfold checkProgram at hcheck
  split at hcheck
  · cases hcheck
  split at hcheck
  · cases hcheck
  rename_i hfirst
  split at hcheck
  · cases hcheck
  rename_i hlater
  by_cases hzero : witver = 0
  · rw [hzero, eq_self, true_and] at hfirst
    refine .inl ⟨hzero, ?_⟩
    omega
  · have hone : 1 ≤ witver := by
      rw [UInt8.le_iff_toNat_le]
      have hne : witver.toNat ≠ 0 := fun h0 => hzero (UInt8.toNat_inj.mp h0)
      exact Nat.one_le_iff_ne_zero.mpr hne
    rw [eq_true hone, true_and] at hlater
    refine .inr ⟨hzero, ?_⟩
    omega

/-- The symbols of the data part of an address. -/
def Spells (hrp : List Char) (witver : UInt8) (witprog symbols : List UInt8) : Prop :=
  Accepts witver witprog ∧ ∃ narrow, Grouped witprog narrow ∧
    symbols = witver :: narrow ++ checksumOf hrp (witver :: narrow) (constantOf witver)

theorem Spells.lt (h : Spells hrp witver witprog symbols) : ∀ d ∈ symbols, d < 32 := by
  obtain ⟨⟨hver, -⟩, narrow, hgrouped, rfl⟩ := h
  intro d hd
  rw [List.mem_append, List.mem_cons] at hd
  obtain (rfl | hin) | hin := hd
  · exact UInt8.lt_of_le_of_lt hver (by decide)
  · exact hgrouped.lt d hin
  · exact checksumOf_lt d hin

theorem Spells.residue (h : Spells hrp witver witprog symbols) : residueOf hrp symbols = constantOf witver := by
  obtain ⟨-, narrow, -, rfl⟩ := h
  exact (residueOf_append_iff (constantOf_lt witver) (by simp) checksumOf_lt).mpr rfl

theorem encodeBech32Inner_eq_ok (hdata : ∀ d ∈ data, d < 32) : encodeBech32Inner hrp data constant = .ok a ↔
      ReadablePart hrp ∧ utf8Length hrp ≤ 83 ∧
        a = hrp ++ '1' :: (data ++ checksumOf hrp data constant).map symbolAt := by
  have hany : ¬ data.any fun d => 32 ≤ d := by
    rw [List.any_eq_true]
    rintro ⟨d, hd, hle⟩
    have hlt := UInt8.lt_iff_toNat_lt.mp (hdata d hd)
    have hge := UInt8.le_iff_toNat_le.mp (of_decide_eq_true hle)
    exact absurd hlt (Nat.not_lt_of_le hge)
  unfold encodeBech32Inner
  constructor
  · intro h
    split at h
    · cases h
    rename_i hshort
    split at h
    · cases h
    rename_i hprint
    obtain ⟨hempty, hlength⟩ := not_or.mp hshort
    have hpart : ReadablePart hrp := ⟨by simpa using hempty, not_not.mp hprint⟩
    rw [createChecksumWith_eq hpart.ascii] at h
    simp only [bind, Except.bind, pure, Except.pure, Except.ok.injEq] at h
    exact ⟨hpart, by omega, by rw [← h, List.map_append]⟩
  · rintro ⟨hpart, hlength, rfl⟩
    have hempty : ¬ hrp.isEmpty := by simpa using hpart.1
    rw [if_neg (not_or.mpr ⟨hempty, by omega⟩), if_neg (not_not.mpr hpart.2),
      createChecksumWith_eq hpart.ascii]
    simp only [bind, Except.bind, if_neg hany, pure, Except.pure, List.map_append]

theorem encode_eq_ok : encode hrp witver witprog = .ok a ↔
      ReadablePart hrp ∧ utf8Length hrp ≤ 83 ∧
        ∃ symbols, Spells hrp witver witprog symbols ∧ a = hrp ++ '1' :: symbols.map symbolAt := by
  obtain ⟨narrow, hconvert, hgrouped⟩ := convertBits_encode witprog
  unfold encode
  by_cases hver : 16 < witver
  · simp only [if_pos hver, reduceCtorEq, false_iff]
    rintro ⟨-, -, symbols, ⟨⟨hle, -⟩, -⟩, -⟩
    exact absurd hver (UInt8.not_lt.mpr hle)
  · rw [if_neg hver]
    have hle : witver ≤ 16 := UInt8.not_lt.mp hver
    cases hcheck : checkProgram witver witprog with
    | error e =>
      simp only [bind, Except.bind, reduceCtorEq, false_iff]
      rintro ⟨-, -, symbols, ⟨⟨-, hok⟩, -⟩, -⟩
      rw [hcheck] at hok
      cases hok
    | ok u =>
      have haccepts : Accepts witver witprog := ⟨hle, hcheck⟩
      have hdata : ∀ d ∈ witver :: narrow, d < 32 := by
        intro d hd
        rw [List.mem_cons] at hd
        obtain rfl | hin := hd
        · exact UInt8.lt_of_le_of_lt hle (by decide)
        · exact hgrouped.lt d hin
      simp only [hconvert, bind, Except.bind]
      rw [encodeBech32Inner_eq_ok hdata]
      constructor
      · rintro ⟨hpart, hlength, rfl⟩
        exact ⟨hpart, hlength, _, ⟨haccepts, narrow, hgrouped, rfl⟩, rfl⟩
      · rintro ⟨hpart, hlength, symbols, ⟨-, narrow', hgrouped', rfl⟩, rfl⟩
        rw [hgrouped.unique hgrouped']
        exact ⟨hpart, hlength, rfl⟩

end Spelling

section Reading

/-- The string spells an address once it is lower-cased and its data characters are cut to
their last byte. -/
def Reads (lower : Lowering) (s hrp : List Char) (witver : UInt8) (witprog : List UInt8) : Prop :=
  ReadableString s ∧ ReadablePart hrp ∧ ∃ dataPart symbols,
    toLowercase lower s = hrp ++ '1' :: dataPart ∧ Writes dataPart symbols ∧
      Spells hrp witver witprog symbols

variable {lower : Lowering} {s hrp : List Char} {witver : UInt8} {witprog : List UInt8}

theorem Reads.parts (h : Reads lower s hrp witver witprog) :
    ∃ symbols, Parts lower s hrp symbols ∧ Spells hrp witver witprog symbols := by
  obtain ⟨hstring, hpart, dataPart, symbols, heq, hwrites, hspells⟩ := h
  refine ⟨symbols, ⟨hstring, hpart, ⟨dataPart, heq, hwrites⟩, ?_⟩, hspells⟩
  rw [hspells.residue]
  unfold constantOf
  split
  · exact .inl rfl
  · exact .inr rfl

theorem decode_of_error {e : Failure} (h : decodeBech32Detect lower s = .error e) : decode lower s = .error e := by
  rw [decode, h]
  rfl

theorem decode_of_ok (witver : UInt8) (witprog : List UInt8) {data : List UInt8} {checksumConst : ℕ}
    (h : decodeBech32Detect lower s = .ok (hrp, data, checksumConst)) : (decode lower s = .ok (hrp, witver, witprog) ↔
        ∃ narrow, data = witver :: narrow ∧ checksumConst = constantOf witver ∧
          Accepts witver witprog ∧ Grouped witprog narrow) ∧
      decode lower s ≠ .error .underflow ∧
        ∀ r, decode lower s = .ok r → r.1 = hrp := by
  rw [decode, h]
  simp only [bind, Except.bind]
  cases data with
  | nil => simp [fail]
  | cons v narrow =>
    by_cases hver : 16 < v
    · have hnot : ¬ v ≤ 16 := UInt8.not_le.mpr hver
      simp only [if_pos hver, fail, reduceCtorEq, false_iff, ne_eq, Except.error.injEq, not_false_eq_true,
        false_imp_iff, implies_true, and_true]
      rintro ⟨narrow', heq, -, haccepts, -⟩
      rw [List.cons.injEq] at heq
      exact hnot (heq.1 ▸ haccepts.1)
    by_cases hconst : checksumConst = constantOf v
    · simp only [if_neg hver, if_neg (not_not.mpr hconst)]
      cases hconvert : convertBits narrow 5 8 false with
      | error e =>
        simp only [lift, fail, reduceCtorEq, false_iff, ne_eq, Except.error.injEq, not_false_eq_true,
          false_imp_iff, implies_true, and_true]
        rintro ⟨narrow', heq, -, -, hgrouped⟩
        rw [List.cons.injEq] at heq
        rw [← heq.2] at hgrouped
        rw [convertBits_decode_iff.mpr hgrouped] at hconvert
        cases hconvert
      | ok program =>
        have hgrouped := convertBits_decode_iff.mp hconvert
        cases hcheck : checkProgram v program with
        | error e =>
          simp only [lift, fail, hcheck, reduceCtorEq, false_iff, ne_eq, Except.error.injEq,
            not_false_eq_true, false_imp_iff, implies_true, and_true]
          rintro ⟨narrow', heq, -, haccepts, hgrouped'⟩
          rw [List.cons.injEq] at heq
          rw [← heq.2, ← convertBits_decode_iff, hconvert, Except.ok.injEq] at hgrouped'
          rw [← heq.1, ← hgrouped'] at haccepts
          rw [haccepts.2] at hcheck
          cases hcheck
        | ok u =>
          simp only [lift, hcheck, pure, Except.pure, Except.ok.injEq, Prod.mk.injEq, true_and,
            reduceCtorEq, ne_eq, not_false_eq_true]
          refine ⟨?_, ?_⟩
          · constructor
            · rintro ⟨rfl, rfl⟩
              exact ⟨narrow, rfl, hconst, ⟨UInt8.not_lt.mp hver, hcheck⟩, hgrouped⟩
            · rintro ⟨narrow', heq, -, -, hgrouped'⟩
              rw [List.cons.injEq] at heq
              rw [← heq.2, ← convertBits_decode_iff, hconvert, Except.ok.injEq] at hgrouped'
              exact ⟨heq.1, hgrouped'⟩
          · rintro r rfl
            rfl
    · simp only [if_neg hver, if_pos hconst, fail, reduceCtorEq, false_iff, ne_eq, Except.error.injEq,
        not_false_eq_true, false_imp_iff, implies_true, and_true]
      rintro ⟨narrow', heq, hconst', -⟩
      rw [List.cons.injEq] at heq
      exact hconst (heq.1 ▸ hconst')

/-- Reading runs below zero where the symbols hold a checksum but are fewer than six. -/
theorem decode_eq_underflow :
    decode lower s = .error .underflow ↔ ∃ hrp symbols, Parts lower s hrp symbols ∧ symbols.length < 6 := by
  obtain ⟨⟨e, herr⟩, hnone⟩ | ⟨hrp, symbols, hparts, hdetect⟩ := decodeBech32Detect_cases lower s
  · rw [decode_of_error herr]
    simp only [Except.error.injEq, reduceCtorEq, false_iff]
    rintro ⟨hrp, symbols, hparts, -⟩
    exact hnone hrp symbols hparts
  · by_cases hshort : symbols.length < 6
    · rw [if_pos hshort] at hdetect
      rw [decode_of_error hdetect]
      exact ⟨fun _ => ⟨hrp, symbols, hparts, hshort⟩, fun _ => rfl⟩
    · rw [if_neg hshort] at hdetect
      have hne := (decode_of_ok 0 [] hdetect).2.1
      refine ⟨fun h => absurd h hne, ?_⟩
      rintro ⟨hrp', symbols', hparts', hshort'⟩
      rw [(hparts.unique hparts').2] at hshort
      exact absurd hshort' hshort

theorem decode_eq_ok : decode lower s = .ok (hrp, witver, witprog) ↔ Reads lower s hrp witver witprog := by
  obtain ⟨⟨e, herr⟩, hnone⟩ | ⟨hrp', symbols, hparts, hdetect⟩ := decodeBech32Detect_cases lower s
  · rw [decode_of_error herr]
    simp only [reduceCtorEq, false_iff]
    intro hreads
    obtain ⟨symbols, hparts, -⟩ := hreads.parts
    exact hnone hrp symbols hparts
  · by_cases hshort : symbols.length < 6
    · rw [if_pos hshort] at hdetect
      rw [decode_of_error hdetect]
      simp only [reduceCtorEq, false_iff]
      intro hreads
      obtain ⟨symbols', hparts', -, narrow, -, heq⟩ := hreads.parts
      rw [(hparts.unique hparts').2, heq] at hshort
      simp at hshort
      omega
    · rw [if_neg hshort] at hdetect
      constructor
      · intro hok
        have hhrp : hrp = hrp' := (decode_of_ok witver witprog hdetect).2.2 _ hok
        subst hhrp
        obtain ⟨narrow, htake, hconst, haccepts, hgrouped⟩ := (decode_of_ok witver witprog hdetect).1.mp hok
        obtain ⟨dataPart, heq, hwrites⟩ := hparts.split
        refine ⟨hparts.string, hparts.part, dataPart, symbols, heq, hwrites, haccepts, narrow, hgrouped, ?_⟩
        have hsplit := List.take_append_drop (symbols.length - 6) symbols
        rw [htake] at hsplit
        have hdrop : symbols.drop (symbols.length - 6) =
            checksumOf hrp (witver :: narrow) (constantOf witver) := by
          apply (residueOf_append_iff (constantOf_lt witver) _ _).mp
          · rw [hsplit, hconst]
          · rw [List.length_drop]
            omega
          · intro d hd
            exact hwrites.2 d (List.mem_of_mem_drop hd)
        rw [← hdrop, hsplit]
      · intro hreads
        obtain ⟨symbols', hparts', hspells⟩ := hreads.parts
        obtain ⟨rfl, rfl⟩ := hparts.unique hparts'
        obtain ⟨haccepts, narrow, hgrouped, heq⟩ := id hspells
        refine (decode_of_ok witver witprog hdetect).1.mpr ⟨narrow, ?_, hspells.residue, haccepts, hgrouped⟩
        have hlength : symbols.length - 6 = (witver :: narrow).length := by simp [heq]
        rw [hlength, heq, List.take_left]

end Reading

end KuberCoin.Bech32Strings
