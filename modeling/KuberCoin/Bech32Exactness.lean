import KuberCoin.Bech32Strings

/-!
How exactly addresses are read. What is written is read back, and ASCII text is read only when it
is what was written, in one case. Other characters are cut to their last byte, and a checksum over
fewer than six symbols takes the length below zero. A changed character moves the register, so a
substitution is noticed unless it brings a separator or a character that is not ASCII.
-/
namespace KuberCoin.Bech32Exactness

open FeedbackRegisters Bech32Codes Bech32Registers Bech32Programs Bech32Strings

section Characters

variable {c : Char}

/-- Lower-casing as the standard library documents it for ASCII. -/
structure LowersAscii (lower : Lowering) : Prop where
  ascii : ∀ before c after, isAscii c → lower before c after = [c.toLower]

theorem ascii_cases {P : Char → Prop} (h : ∀ n < 128, P (charOf (UInt8.ofNat n))) (hc : isAscii c) : P c := by
  have hlt : c.toNat < 128 := by simpa [isAscii] using hc
  have hbyte : (asU8 c).toNat = c.toNat := by
    rw [asU8, UInt8.toNat_ofNat']
    omega
  have hp := h (asU8 c).toNat (by omega)
  rw [UInt8.ofNat_toNat] at hp
  rwa [← lowByte_of_ascii hc]

theorem toLower_of_not_upper (hc : isAscii c) (h : ¬ isAsciiUppercase c) : c.toLower = c :=
  ascii_cases (P := fun c => ¬ isAsciiUppercase c → c.toLower = c) (by decide) hc h

theorem toUpper_toLower (hc : isAscii c) (h : ¬ isAsciiLowercase c) : c.toLower.toUpper = c :=
  ascii_cases (P := fun c => ¬ isAsciiLowercase c → c.toLower.toUpper = c) (by decide) hc h

theorem isAscii_toLower (hc : isAscii c) : isAscii c.toLower :=
  ascii_cases (P := fun c => isAscii c.toLower) (by decide) hc

theorem isAscii_toUpper (hc : isAscii c) : isAscii c.toUpper :=
  ascii_cases (P := fun c => isAscii c.toUpper) (by decide) hc

theorem utf8Size_of_ascii (hc : isAscii c) : c.utf8Size = 1 :=
  ascii_cases (P := fun c => c.utf8Size = 1) (by decide) hc

/-- The characters of an address that no lower-casing changes. -/
def isPlain (c : Char) : Bool := isAscii c && !isAsciiUppercase c

theorem isPlain_symbolAt {d : UInt8} (h : d < 32) : isPlain (symbolAt d) := by
  have hall : ∀ n < 32, isPlain (symbolAt (UInt8.ofNat n)) := by decide
  have hplain := hall d.toNat (UInt8.lt_iff_toNat_lt.mp h)
  rwa [UInt8.ofNat_toNat] at hplain

end Characters

section Lowering

variable {lower : Lowering} {s : List Char} {symbols : List UInt8}

theorem utf8Length_ascii {s : List Char} (h : s.all isAscii) : utf8Length s = s.length := by
  induction s with
  | nil => rfl
  | cons c rest ih =>
    rw [List.all_cons, Bool.and_eq_true] at h
    have hrest := ih h.2
    unfold utf8Length at hrest ⊢
    rw [List.map_cons, List.sum_cons, utf8Size_of_ascii h.1, hrest, List.length_cons, Nat.add_comm]

theorem toLowercase_ascii (hlower : LowersAscii lower) (h : s.all isAscii) :
    toLowercase lower s = s.map Char.toLower := by
  have hfrom : ∀ before, lowerFrom lower before s = s.map Char.toLower := by
    induction s with
    | nil => exact fun _ => rfl
    | cons c rest ih =>
      rw [List.all_cons, Bool.and_eq_true] at h
      intro before
      rw [lowerFrom, hlower.ascii _ _ _ h.1, ih h.2]
      rfl
  exact hfrom []

theorem all_ascii_of_plain (h : s.all isPlain) : s.all isAscii := by
  rw [List.all_eq_true] at h ⊢
  intro c hc
  have hplain := h c hc
  rw [isPlain, Bool.and_eq_true] at hplain
  exact hplain.1

theorem no_upper_of_plain (h : s.all isPlain) : ¬ s.any isAsciiUppercase := by
  rw [List.any_eq_true]
  rintro ⟨c, hc, hup⟩
  have hplain := List.all_eq_true.mp h c hc
  simp [isPlain, hup] at hplain

theorem map_toLower_of_no_upper (h : s.all isAscii) (hup : ¬ s.any isAsciiUppercase) : s.map Char.toLower = s := by
  rw [List.any_eq_true, not_exists] at hup
  rw [List.all_eq_true] at h
  calc
    s.map Char.toLower = s.map id := by
      apply List.map_congr_left
      intro c hc
      exact toLower_of_not_upper (h c hc) fun hc' => hup c ⟨hc, hc'⟩
    _ = s := List.map_id s

theorem toLowercase_plain (hlower : LowersAscii lower) (h : s.all isPlain) : toLowercase lower s = s := by
  rw [toLowercase_ascii hlower (all_ascii_of_plain h),
    map_toLower_of_no_upper (all_ascii_of_plain h) (no_upper_of_plain h)]

theorem map_lowByte_ascii (h : s.all isAscii) : s.map lowByte = s := by
  rw [List.all_eq_true] at h
  calc
    s.map lowByte = s.map id := List.map_congr_left fun c hc => lowByte_of_ascii (h c hc)
    _ = s := List.map_id s

theorem symbols_plain (h : ∀ d ∈ symbols, d < 32) : (symbols.map symbolAt).all isPlain := by
  rw [List.all_map, List.all_eq_true]
  intro d hd
  exact isPlain_symbolAt (h d hd)

theorem writes_symbols (h : ∀ d ∈ symbols, d < 32) : Writes (symbols.map symbolAt) symbols :=
  ⟨map_lowByte_ascii (all_ascii_of_plain (symbols_plain h)), h⟩

end Lowering

section RoundTrips

/-- The human-readable parts of the networks. -/
def supported : List (List Char) := [hrpMainnet, hrpTestnet, hrpRegtest]

theorem supported_plain : ∀ hrp ∈ supported, hrp.all isPlain ∧ '1' ∉ hrp ∧
    (hrp.length = 2 ∨ hrp.length = 4) ∧ ∃ x y rest, hrp = x :: y :: rest ∧
      isAsciiLowercase x ∧ isAsciiLowercase y := by
  intro hrp h
  simp only [supported, List.mem_cons, List.not_mem_nil, or_false] at h
  obtain rfl | rfl | rfl := h
  · exact ⟨by decide, by decide, by decide, 'k', 'b', [], rfl, by decide, by decide⟩
  · exact ⟨by decide, by decide, by decide, 't', 'b', [], rfl, by decide, by decide⟩
  · exact ⟨by decide, by decide, by decide, 'k', 'b', ['r', 't'], rfl, by decide, by decide⟩

variable {lower : Lowering} {hrp a : List Char} {witver : UInt8} {witprog symbols : List UInt8}

theorem grouped_length {narrow : List UInt8} (haccepts : Accepts witver witprog) (hgrouped : Grouped witprog narrow) :
    (witver = 0 ∧ (narrow.length = 32 ∨ narrow.length = 52)) ∨
      (witver ≠ 0 ∧ (narrow.length = 52 ∨ narrow.length = 64)) := by
  obtain ⟨spare, hspare, hlength⟩ := hgrouped.length
  obtain ⟨hzero, hlen⟩ | ⟨hzero, hlen⟩ := haccepts.length
  · refine .inl ⟨hzero, ?_⟩
    omega
  · refine .inr ⟨hzero, ?_⟩
    omega

theorem Spells.length (h : Spells hrp witver witprog symbols) : 39 ≤ symbols.length ∧ symbols.length ≤ 71 := by
  obtain ⟨haccepts, narrow, hgrouped, rfl⟩ := h
  have hlength := grouped_length haccepts hgrouped
  rw [List.length_append, List.length_cons, checksumOf_length]
  omega

theorem supported_readable (hhrp : hrp ∈ supported) : ReadablePart hrp := by
  simp only [supported, List.mem_cons, List.not_mem_nil, or_false] at hhrp
  obtain rfl | rfl | rfl := hhrp
  all_goals exact ⟨by decide, by decide⟩

theorem address_plain (hhrp : hrp ∈ supported) (hlt : ∀ d ∈ symbols, d < 32) :
    (hrp ++ '1' :: symbols.map symbolAt).all isPlain := by
  have hone : isPlain '1' := by decide
  rw [List.all_append, List.all_cons, (supported_plain hrp hhrp).1, hone, symbols_plain hlt]
  rfl

theorem address_readable (hhrp : hrp ∈ supported) (hlt : ∀ d ∈ symbols, d < 32)
    (hlength : 39 ≤ symbols.length ∧ symbols.length ≤ 71) : ReadableString (hrp ++ '1' :: symbols.map symbolAt) := by
  have hplain := address_plain hhrp hlt
  have hlen := (supported_plain hrp hhrp).2.2.1
  unfold ReadableString
  rw [utf8Length_ascii (all_ascii_of_plain hplain), List.length_append, List.length_cons, List.length_map]
  exact ⟨by omega, by omega, fun h => no_upper_of_plain hplain h.2⟩

theorem address_split (hlower : LowersAscii lower) (hhrp : hrp ∈ supported) (hlt : ∀ d ∈ symbols, d < 32) :
    ∃ dataPart, toLowercase lower (hrp ++ '1' :: symbols.map symbolAt) = hrp ++ '1' :: dataPart ∧
      Writes dataPart symbols :=
  ⟨_, toLowercase_plain hlower (address_plain hhrp hlt), writes_symbols hlt⟩

theorem decode_encode (hlower : LowersAscii lower) (hhrp : hrp ∈ supported) (ha : encode hrp witver witprog = .ok a) :
    decode lower a = .ok (hrp, witver, witprog) := by
  obtain ⟨hpart, -, symbols, hspells, rfl⟩ := encode_eq_ok.mp ha
  obtain ⟨dataPart, heq, hwrites⟩ := address_split hlower hhrp hspells.lt
  rw [decode_eq_ok]
  exact ⟨address_readable hhrp hspells.lt (Spells.length hspells), hpart, dataPart, symbols, heq, hwrites,
    hspells⟩

/-- The programs that have an address. -/
def Fits (witver : UInt8) (witprog : List UInt8) : Prop :=
  (witver = 0 ∧ (witprog.length = 20 ∨ witprog.length = 32)) ∨
    (1 ≤ witver ∧ witver ≤ 16 ∧ (witprog.length = 32 ∨ witprog.length = 40))

theorem Fits.accepts (h : Fits witver witprog) : Accepts witver witprog := by
  obtain ⟨rfl, hlen⟩ | ⟨hone, hle, hlen⟩ := h
  · refine ⟨by decide, ?_⟩
    have hone : ¬ (1 : UInt8) ≤ 0 := by decide
    unfold checkProgram
    rw [if_neg, if_neg, if_neg]
    · exact fun h => hone h.1
    · omega
    · rw [List.isEmpty_iff, ← List.length_eq_zero_iff]
      omega
  · refine ⟨hle, ?_⟩
    have hzero : witver ≠ 0 := by
      rintro rfl
      exact absurd hone (by decide)
    unfold checkProgram
    rw [if_neg, if_neg, if_neg]
    · omega
    · exact fun h => hzero h.1
    · rw [List.isEmpty_iff, ← List.length_eq_zero_iff]
      omega

theorem encode_of_fits (hhrp : hrp ∈ supported) (h : Fits witver witprog) : ∃ a, encode hrp witver witprog = .ok a := by
  obtain ⟨narrow, -, hgrouped⟩ := convertBits_encode witprog
  obtain ⟨hplain, -, hlen, -⟩ := supported_plain hrp hhrp
  refine ⟨_, encode_eq_ok.mpr ⟨supported_readable hhrp, ?_, _, ⟨h.accepts, narrow, hgrouped, rfl⟩, rfl⟩⟩
  rw [utf8Length_ascii (all_ascii_of_plain hplain)]
  omega

end RoundTrips

section Exactness

/-- Reading the string neither runs below zero nor takes it for an address it is not, in one
case. -/
def Exact (lower : Lowering) (s : List Char) : Prop :=
  decode lower s ≠ .error .underflow ∧
    ∀ hrp witver witprog, decode lower s = .ok (hrp, witver, witprog) →
      ∃ a, encode hrp witver witprog = .ok a ∧ (s = a ∨ s = a.map Char.toUpper)

/-- Fewer than six symbols hold a checksum. -/
def TooShort (lower : Lowering) (s : List Char) : Prop :=
  ∃ hrp symbols, Parts lower s hrp symbols ∧ symbols.length < 6

/-- The string spells some address. -/
def SpellsAddress (lower : Lowering) (s : List Char) : Prop :=
  ∃ hrp witver witprog, Reads lower s hrp witver witprog

variable {lower : Lowering} {s hrp a : List Char} {witver : UInt8} {witprog : List UInt8}

theorem encode_ascii (ha : encode hrp witver witprog = .ok a) : a.all isAscii := by
  obtain ⟨hpart, -, symbols, hspells, rfl⟩ := encode_eq_ok.mp ha
  have hone : isAscii '1' := by decide
  rw [List.all_append, List.all_cons, hpart.ascii, hone, all_ascii_of_plain (symbols_plain hspells.lt)]
  rfl

theorem encode_of_reads (hlower : LowersAscii lower) (hascii : s.all isAscii) (h : Reads lower s hrp witver witprog) :
    ∃ a, encode hrp witver witprog = .ok a ∧ (s = a ∨ s = a.map Char.toUpper) := by
  obtain ⟨hstring, hpart, dataPart, symbols, heq, hwrites, hspells⟩ := h
  rw [toLowercase_ascii hlower hascii] at heq
  have hall : (s.map Char.toLower).all isAscii := by
    rw [List.all_map, List.all_eq_true]
    intro c hc
    exact isAscii_toLower (List.all_eq_true.mp hascii c hc)
  have hdata : dataPart.all isAscii := by
    rw [heq, List.all_append, List.all_cons, Bool.and_eq_true, Bool.and_eq_true] at hall
    exact hall.2.2
  have hsymbols : dataPart = symbols.map symbolAt := by
    rw [← hwrites.1, map_lowByte_ascii hdata]
  have hlength := congrArg List.length heq
  have hlong := (Spells.length hspells).1
  have hlimit := hstring.2.1
  rw [utf8Length_ascii hascii] at hlimit
  rw [List.length_map, List.length_append, List.length_cons, hsymbols, List.length_map] at hlength
  refine ⟨s.map Char.toLower, ?_, ?_⟩
  · rw [encode_eq_ok, utf8Length_ascii hpart.ascii]
    exact ⟨hpart, by omega, symbols, hspells, by rw [heq, hsymbols]⟩
  · by_cases hup : s.any isAsciiUppercase
    · have hlow : ¬ s.any isAsciiLowercase := fun hlow => hstring.2.2 ⟨hlow, hup⟩
      rw [List.any_eq_true, not_exists] at hlow
      refine .inr ?_
      rw [List.map_map]
      calc
        s = s.map id := (List.map_id s).symm
        _ = s.map (Char.toUpper ∘ Char.toLower) := by
          apply List.map_congr_left
          intro c hc
          exact (toUpper_toLower (List.all_eq_true.mp hascii c hc) fun hc' => hlow c ⟨hc, hc'⟩).symm
    · exact .inl (map_toLower_of_no_upper hascii hup).symm

/-- A string is read exactly when it is ASCII or spells no address, and no checksum stands over
fewer than six symbols. -/
theorem exact_iff (hlower : LowersAscii lower) :
    Exact lower s ↔ ¬ TooShort lower s ∧ (s.all isAscii ∨ ¬ SpellsAddress lower s) := by
  constructor
  · rintro ⟨hflow, hexact⟩
    refine ⟨fun hshort => hflow (decode_eq_underflow.mpr hshort), ?_⟩
    by_cases hreads : SpellsAddress lower s
    · obtain ⟨hrp, witver, witprog, hreads⟩ := hreads
      obtain ⟨a, ha, rfl | rfl⟩ := hexact hrp witver witprog (decode_eq_ok.mpr hreads)
      · exact .inl (encode_ascii ha)
      · refine .inl ?_
        rw [List.all_map, List.all_eq_true]
        intro c hc
        exact isAscii_toUpper (List.all_eq_true.mp (encode_ascii ha) c hc)
    · exact .inr hreads
  · rintro ⟨hshort, hascii⟩
    refine ⟨fun hflow => hshort (decode_eq_underflow.mp hflow), ?_⟩
    intro hrp witver witprog hok
    have hreads := decode_eq_ok.mp hok
    obtain hascii | hnone := hascii
    · exact encode_of_reads hlower hascii hreads
    · exact absurd ⟨hrp, witver, witprog, hreads⟩ hnone

end Exactness

end KuberCoin.Bech32Exactness
