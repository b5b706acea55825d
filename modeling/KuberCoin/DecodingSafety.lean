import KuberCoin.UtxoCodec
import Mathlib.Computability.Language

/-!
Which bytes take the decoders of the compressed UTXO set out of range (crate `chain`,
`utxo`). The fields of the format are described here without the decoders: a variable
length integer, a script, a coin, an entry. The end of a raw script is the sum of its
start and of a length that the data chooses; the sum wraps below the start for the
lengths from 2^64 - 10 on, and passes the check against the length of the data.
-/
namespace KuberCoin.DecodingSafety

open Bytes Transactions UtxoSets UtxoCodec

section Outcomes

variable {α β : Type} {x : Outcome α} {f : α → Outcome β}

theorem bind_eq_outOfRange : x >>= f = .outOfRange ↔ x = .outOfRange ∨ ∃ a, x = .found a ∧ f a = .outOfRange := by
  cases x <;> simp [Bind.bind, Outcome.bind]

theorem bind_eq_found {b : β} : x >>= f = .found b ↔ ∃ a, x = .found a ∧ f a = .found b := by
  cases x <;> simp [Bind.bind, Outcome.bind]

@[simp] theorem malformed_bind (f : α → Outcome β) : (.malformed >>= f) = .malformed := rfl

@[simp] theorem outOfRange_bind (f : α → Outcome β) : (.outOfRange >>= f) = .outOfRange := rfl

@[simp] theorem ofOption_none : Outcome.ofOption (none : Option α) = .malformed := rfl

@[simp] theorem ofOption_ne_outOfRange (o : Option α) : Outcome.ofOption o ≠ .outOfRange := by
  cases o <;> simp [Outcome.ofOption]

@[simp] theorem ofOption_eq_found {o : Option α} {a : α} : Outcome.ofOption o = .found a ↔ o = some a := by
  cases o <;> simp [Outcome.ofOption]

end Outcomes

section Readers

variable {α β γ : Type} {read : List UInt8 → Outcome (α × ℕ)} {fields overrun : Language UInt8}

/-- A reader of the field at the start of the data: it finds exactly the fields of one
language, with their length, and leaves the data exactly on another. No byte vector is
longer than 2^63 - 1. -/
structure Reads (read : List UInt8 → Outcome (α × ℕ)) (fields overrun : Language UInt8) :
    Prop where
  of_found : ∀ {data : List UInt8} {a : α} {n : ℕ}, data.length < 2 ^ 63 →
    read data = .found (a, n) → ∃ field ∈ fields, ∃ rest, field ++ rest = data ∧ field.length = n
  found : ∀ {field rest : List UInt8}, field ∈ fields → (field ++ rest).length < 2 ^ 63 →
    ∃ a, read (field ++ rest) = .found (a, field.length)
  outOfRange_iff : ∀ {data : List UInt8}, data.length < 2 ^ 63 →
    (read data = .outOfRange ↔ data ∈ overrun)

/-- One field behind another. -/
def readThen (first : List UInt8 → Outcome (α × ℕ)) (second : List UInt8 → Outcome (β × ℕ))
    (data : List UInt8) : Outcome ((α × β) × ℕ) := do
  let (a, n) ← first data
  let (b, m) ← second (data.drop n)
  return ((a, b), n + m)

theorem Reads.readThen {second : List UInt8 → Outcome (β × ℕ)} {fields' overrun' : Language UInt8}
    (h : Reads read fields overrun) (h' : Reads second fields' overrun') :
    Reads (readThen read second) (fields * fields') (overrun + fields * overrun') where
  of_found := by
    intro data x k hdata hread
    obtain ⟨⟨a, n⟩, hfirst, hread⟩ := bind_eq_found.mp hread
    obtain ⟨⟨b, m⟩, hsecond, hlast⟩ := bind_eq_found.mp hread
    have hk : n + m = k := congrArg Prod.snd (Outcome.found.inj hlast)
    obtain ⟨field, hfield, rest, rfl, hn⟩ := h.of_found hdata hfirst
    simp only [← hn, List.drop_left] at hsecond
    rw [List.length_append] at hdata
    obtain ⟨field', hfield', rest', rfl, hm⟩ := h'.of_found (by omega) hsecond
    refine ⟨field ++ field', Language.append_mem_mul hfield hfield', rest', ?_, ?_⟩
    · rw [List.append_assoc]
    · rw [List.length_append, hn, hm, ← hk]
  found := by
    intro both rest hboth hdata
    obtain ⟨field, hfield, field', hfield', rfl⟩ := Language.mem_mul.mp hboth
    rw [List.append_assoc] at hdata ⊢
    obtain ⟨a, ha⟩ := h.found hfield hdata
    rw [List.length_append] at hdata
    have hlast : (field' ++ rest).length < 2 ^ 63 := by omega
    obtain ⟨b, hb⟩ := h'.found hfield' hlast
    refine ⟨(a, b), ?_⟩
    simp only [DecodingSafety.readThen, ha, Outcome.found_bind, List.drop_left, hb,
      List.length_append]
    rfl
  outOfRange_iff := by
    intro data hdata
    rw [Language.mem_add, Language.mem_mul, DecodingSafety.readThen, bind_eq_outOfRange,
      h.outOfRange_iff hdata]
    refine or_congr_right ?_
    constructor
    · rintro ⟨⟨a, n⟩, hfirst, hread⟩
      obtain ⟨field, hfield, rest, rfl, hn⟩ := h.of_found hdata hfirst
      rw [List.length_append] at hdata
      simp only [← hn, List.drop_left] at hread
      refine ⟨field, hfield, rest, ?_, rfl⟩
      obtain hover | ⟨b, -, hb⟩ := bind_eq_outOfRange.mp hread
      · exact (h'.outOfRange_iff (by omega)).mp hover
      · exact absurd hb (by simp)
    · rintro ⟨field, hfield, rest, hrest, rfl⟩
      obtain ⟨a, ha⟩ := h.found hfield hdata
      rw [List.length_append] at hdata
      refine ⟨(a, field.length), ha, ?_⟩
      simp only [List.drop_left, (h'.outOfRange_iff (by omega)).mpr hrest]
      rfl

theorem Reads.map {read' : List UInt8 → Outcome (β × ℕ)} (f : α → β) (h : Reads read fields overrun)
    (heq : ∀ data : List UInt8, data.length < 2 ^ 63 →
      read' data = read data >>= fun x => .found (f x.1, x.2)) : Reads read' fields overrun where
  of_found := by
    intro data b n hdata hread
    rw [heq data hdata] at hread
    obtain ⟨⟨a, n'⟩, hfirst, hlast⟩ := bind_eq_found.mp hread
    have hn : n' = n := congrArg Prod.snd (Outcome.found.inj hlast)
    exact hn ▸ h.of_found hdata hfirst
  found := by
    intro field rest hfield hdata
    obtain ⟨a, ha⟩ := h.found hfield hdata
    exact ⟨f a, by rw [heq _ hdata, ha]; rfl⟩
  outOfRange_iff := by
    intro data hdata
    rw [heq data hdata, bind_eq_outOfRange, ← h.outOfRange_iff hdata]
    simp

end Readers

section Varints

variable {n width : ℕ} {v : UInt64}

/-- `data[i]`. -/
def index (data : List UInt8) (i : ℕ) : Outcome UInt8 :=
  match data[i]? with
  | some byte => .found byte
  | none => .outOfRange

/-- `[data[start], data[start + 1], ..]`. -/
def indexFrom (data : List UInt8) (start : ℕ) : ℕ → Outcome (List UInt8)
  | 0 => .found []
  | width + 1 => do
      let byte ← index data start
      let rest ← indexFrom data (start + 1) width
      return byte :: rest

/-- The bytes behind the first one are read one index at a time. -/
def indexedFixed (data : List UInt8) (width : ℕ) : Outcome (UInt64 × ℕ) :=
  if data.length < width + 1 then .malformed
  else do
    let bytes ← indexFrom data 1 width
    return (UInt64.ofNat (leValue bytes), width + 1)

/-- `decode_varint` with its index expressions. -/
def indexedVarint (data : List UInt8) : Outcome (UInt64 × ℕ) :=
  match data.head? with
  | none => .malformed
  | some first =>
      if first ≤ 0xFC then .found (first.toUInt64, 1)
      else if first = 0xFD then indexedFixed data 2
      else if first = 0xFE then indexedFixed data 4
      else indexedFixed data 8

theorem indexFrom_eq (data : List UInt8) {start : ℕ} (h : start + width ≤ data.length) :
    indexFrom data start width = .found ((data.drop start).take width) := by
  induction width generalizing start with
  | zero => rfl
  | succ width ih =>
    have hget : index data start = .found data[start] := by
      simp only [index, List.getElem?_eq_getElem (show start < data.length by omega)]
    have hdrop : data.drop start = data[start] :: data.drop (start + 1) :=
      List.drop_eq_getElem_cons (by omega)
    rw [indexFrom, hget, Outcome.found_bind, ih (by omega), Outcome.found_bind, hdrop]
    rfl

theorem indexedFixed_cons (first : UInt8) (rest : List UInt8) (width : ℕ) :
    indexedFixed (first :: rest) width = Outcome.ofOption (decodeFixed rest width) := by
  unfold indexedFixed decodeFixed
  by_cases hlen : rest.length < width
  · rw [if_pos (by rw [List.length_cons]; omega), if_pos hlen]
    rfl
  · rw [if_neg (by rw [List.length_cons]; omega), if_neg hlen,
      indexFrom_eq _ (by rw [List.length_cons]; omega)]
    rfl

theorem indexedVarint_eq (data : List UInt8) : indexedVarint data = Outcome.ofOption (decodeVarint data) := by
  cases data with
  | nil => rfl
  | cons first rest =>
    simp only [indexedVarint, List.head?_cons, decodeVarint, indexedFixed_cons]
    split_ifs <;> rfl

/-- The bytes of a variable length integer, the shortest form or not, and its value. -/
inductive VarintField : List UInt8 → ℕ → Prop
  | short {byte : UInt8} (h : byte ≤ 0xFC) : VarintField [byte] byte.toNat
  | two {bytes : List UInt8} (h : bytes.length = 2) : VarintField (0xFD :: bytes) (leValue bytes)
  | four {bytes : List UInt8} (h : bytes.length = 4) : VarintField (0xFE :: bytes) (leValue bytes)
  | eight {bytes : List UInt8} (h : bytes.length = 8) : VarintField (0xFF :: bytes) (leValue bytes)

variable {field : List UInt8} {value : ℕ}

theorem decodeFixed_field {bytes : List UInt8} (h : bytes.length = width) (rest : List UInt8) :
    decodeFixed (bytes ++ rest) width = some (UInt64.ofNat (leValue bytes), width + 1) := by
  unfold decodeFixed
  rw [if_neg (by rw [List.length_append]; omega), List.take_left' h]

theorem VarintField.decode (h : VarintField field value) (rest : List UInt8) :
    decodeVarint (field ++ rest) = some (UInt64.ofNat value, field.length) := by
  cases h with
  | @short byte h =>
    rw [List.singleton_append, decodeVarint, if_pos h, ← UInt8.toNat_toUInt64,
      UInt64.ofNat_toNat]
    rfl
  | two h =>
    rw [List.length_cons, h]
    exact decodeFixed_field h rest
  | four h =>
    rw [List.length_cons, h]
    exact decodeFixed_field h rest
  | eight h =>
    rw [List.length_cons, h]
    exact decodeFixed_field h rest

theorem VarintField.value_lt (h : VarintField field value) : value < 2 ^ 64 := by
  cases h with
  | @short byte h =>
    have hbyte : byte.toNat < 256 := byte.toNat_lt
    omega
  | @two bytes h => exact (leValue_lt bytes).trans_le (by rw [h]; decide)
  | @four bytes h => exact (leValue_lt bytes).trans_le (by rw [h]; decide)
  | @eight bytes h => exact (leValue_lt bytes).trans_le (by rw [h]; decide)

/-- A length from which a sum with the at most ten bytes before it leaves 64 bits has
the longest form. -/
theorem VarintField.eight_of_wide (h : VarintField field value) (hwide : 2 ^ 64 - 10 ≤ value) :
    ∃ bytes, field = 0xFF :: bytes ∧ bytes.length = 8 ∧ value = leValue bytes := by
  cases h with
  | @short byte h =>
    have hbyte : byte.toNat < 256 := byte.toNat_lt
    omega
  | @two bytes h =>
    have hlt := leValue_lt bytes
    rw [h] at hlt
    omega
  | @four bytes h =>
    have hlt := leValue_lt bytes
    rw [h] at hlt
    omega
  | @eight bytes h => exact ⟨bytes, rfl, h, rfl⟩

theorem VarintField.length_le (h : VarintField field value) : field.length ≤ 9 := by
  cases h with
  | short h => simp
  | two h => simp [h]
  | four h => simp [h]
  | eight h => simp [h]

theorem decodeFixed_eq_some {rest : List UInt8} (h : decodeFixed rest width = some (v, n)) :
    width ≤ rest.length ∧ v = UInt64.ofNat (leValue (rest.take width)) ∧ n = width + 1 := by
  unfold decodeFixed at h
  split_ifs at h with hlen
  injection h with h
  injection h with hv hn
  exact ⟨by omega, hv.symm, hn.symm⟩

theorem field_of_decodeVarint {data : List UInt8} (h : decodeVarint data = some (v, n)) :
    ∃ field rest, data = field ++ rest ∧ field.length = n ∧ VarintField field v.toNat := by
  have hfixed : ∀ {tag : UInt8} {tail : List UInt8} {width : ℕ}, width ≤ 8 →
      (∀ bytes : List UInt8, bytes.length = width → VarintField (tag :: bytes) (leValue bytes)) →
      decodeFixed tail width = some (v, n) →
      ∃ field rest, tag :: tail = field ++ rest ∧ field.length = n ∧ VarintField field v.toNat := by
    intro tag tail width hwidth hfield hread
    obtain ⟨hlen, hv, hn⟩ := decodeFixed_eq_some hread
    have htake : (tail.take width).length = width := List.length_take_of_le hlen
    have hlt : leValue (tail.take width) < 2 ^ 64 := by
      refine (leValue_lt _).trans_le ?_
      rw [htake]
      exact Nat.pow_le_pow_right (by decide) hwidth
    refine ⟨tag :: tail.take width, tail.drop width, ?_, ?_, ?_⟩
    · rw [List.cons_append, List.take_append_drop]
    · rw [List.length_cons, htake, hn]
    · rw [hv, UInt64.toNat_ofNat', Nat.mod_eq_of_lt hlt]
      exact hfield _ htake
  cases data with
  | nil => exact absurd h (by simp [decodeVarint])
  | cons first tail =>
    rw [decodeVarint] at h
    split_ifs at h with h₁ h₂ h₃
    · injection h with h
      injection h with hv hn
      refine ⟨[first], tail, rfl, hn, ?_⟩
      rw [← hv]
      exact .short h₁
    · rw [h₂]
      exact hfixed (by decide) (fun bytes hlen => .two hlen) h
    · rw [h₃]
      exact hfixed (by decide) (fun bytes hlen => .four hlen) h
    · have hlast : first = 0xFF := by
        have hbyte : first.toNat < 256 := first.toNat_lt
        rw [UInt8.le_iff_toNat_le] at h₁
        rw [← UInt8.toNat_inj] at h₂ h₃ ⊢
        change ¬ first.toNat ≤ 252 at h₁
        change ¬ first.toNat = 253 at h₂
        change ¬ first.toNat = 254 at h₃
        change first.toNat = 255
        omega
      rw [hlast]
      exact hfixed (by decide) (fun bytes hlen => .eight hlen) h

end Varints

section Scripts

variable {rest script : List UInt8} {n : ℕ}

/-- The bytes of a compressed script. -/
inductive ScriptField : List UInt8 → Prop
  | p2pkh {hash : List UInt8} (h : hash.length = 20) : ScriptField (scriptP2pkh :: hash)
  | p2wpkh {hash : List UInt8} (h : hash.length = 20) : ScriptField (scriptP2wpkh :: hash)
  | p2tr {key : List UInt8} (h : key.length = 32) : ScriptField (scriptP2tr :: key)
  | raw {len script : List UInt8} (h : VarintField len script.length) :
      ScriptField (scriptRaw :: (len ++ script))

/-- A raw script whose length is from 2^64 - 10 on. -/
def WrapsScript (data : List UInt8) : Prop :=
  ∃ len rest, data = scriptRaw :: 0xFF :: (len ++ rest) ∧ len.length = 8 ∧
    2 ^ 64 - 10 ≤ leValue len

variable {data : List UInt8}

theorem template_of_found {tag : UInt8} {opening closing : List UInt8} {width : ℕ}
    (h : decompressTemplate (tag :: rest) opening closing width = .found (script, n)) :
    ∃ payload tail, tag :: rest = tag :: payload ++ tail ∧ payload.length = width ∧
      (tag :: payload).length = n := by
  unfold decompressTemplate at h
  split_ifs at h with hlen
  rw [List.length_cons] at hlen
  have htake : (rest.take width).length = width := List.length_take_of_le (by omega)
  injection h with h
  injection h with hscript hn
  refine ⟨rest.take width, rest.drop width, ?_, htake, ?_⟩
  · rw [List.cons_append, List.take_append_drop]
  · rw [List.length_cons, htake, hn]

/-- The sum of the start of a raw script and its length either stays in 64 bits or falls
below the start. -/
theorem decompressRaw_field {len : List UInt8} {k : ℕ} (h : VarintField len k)
    (hdata : (scriptRaw :: (len ++ rest)).length < 2 ^ 63) : decompressRaw (scriptRaw :: (len ++ rest)) =
      if 2 ^ 64 - 10 ≤ k then .outOfRange
      else if rest.length < k then .malformed
      else .found (rest.take k, 1 + len.length + k) := by
  have hk := h.value_lt
  have hle := h.length_le
  have htail : sliceFrom (scriptRaw :: (len ++ rest)) 1 = .found (len ++ rest) :=
    sliceFrom_append [scriptRaw] (len ++ rest)
  have hstart : addPos 1 len.length = 1 + len.length := addPos_eq (by omega)
  have hnat : (UInt64.ofNat k).toNat = k := by
    rw [UInt64.toNat_ofNat', Nat.mod_eq_of_lt hk]
  have hwhole : (scriptRaw :: (len ++ rest)).length = 1 + len.length + rest.length := by
    simp only [List.length_cons, List.length_append]
    omega
  unfold decompressRaw
  rw [htail]
  simp only [Outcome.found_bind, h.decode, Outcome.ofOption_some, hstart, hnat]
  rw [hwhole] at hdata ⊢
  by_cases hwide : 2 ^ 64 - 10 ≤ k
  · obtain ⟨bytes, rfl, hbytes, -⟩ := h.eight_of_wide hwide
    have hnine : (0xFF :: bytes).length = 9 := by rw [List.length_cons, hbytes]
    rw [hnine] at hwhole hdata ⊢
    have hstop : addPos (1 + 9) k = 10 + k - 2 ^ 64 := by
      unfold addPos
      omega
    rw [if_pos hwide, hstop, if_neg (by omega)]
    simp only [slice]
    rw [if_neg (by omega)]
    rfl
  · have hstop : addPos (1 + len.length) k = 1 + len.length + k := addPos_eq (by omega)
    rw [if_neg hwide, hstop]
    by_cases hshort : rest.length < k
    · rw [if_pos (by omega), if_pos hshort]
    · have hslice : slice (scriptRaw :: (len ++ rest)) (1 + len.length) (1 + len.length + k) =
          .found (rest.take k) := by
        unfold slice
        rw [if_pos (by omega), Nat.add_sub_cancel_left, Nat.add_comm 1, List.drop_succ_cons,
          List.drop_left]
      rw [if_neg (by omega), if_neg hshort, hslice]
      rfl

/-- The scripts the decoder finds, as a language of the format. -/
def scriptFields : Language UInt8 := {field | ScriptField field}

def scriptOverrun : Language UInt8 := {data | WrapsScript data}

theorem scriptField_found {field : List UInt8} (h : ScriptField field) (hdata : (field ++ rest).length < 2 ^ 63) :
    ∃ script, decompressScript (field ++ rest) = .found (script, field.length) := by
  cases h with
  | @p2pkh hash h => exact ⟨_, decompressTemplate_append h scriptP2pkh rest _ _⟩
  | @p2wpkh hash h => exact ⟨_, decompressTemplate_append h scriptP2wpkh rest _ _⟩
  | @p2tr key h => exact ⟨_, decompressTemplate_append h scriptP2tr rest _ _⟩
  | @raw len script h =>
    rw [List.cons_append, List.append_assoc] at hdata ⊢
    have hraw := decompressRaw_field h hdata
    simp only [List.length_cons, List.length_append] at hdata
    rw [if_neg (by omega), if_neg (by rw [List.length_append]; omega)] at hraw
    refine ⟨(script ++ rest).take script.length, hraw.trans ?_⟩
    rw [List.length_cons, List.length_append, show 1 + len.length + script.length =
      len.length + script.length + 1 by omega]

theorem raw_of_found (hdata : (scriptRaw :: rest).length < 2 ^ 63)
    (h : decompressRaw (scriptRaw :: rest) = .found (script, n)) :
    ∃ field ∈ scriptFields, ∃ tail, field ++ tail = scriptRaw :: rest ∧ field.length = n := by
  have htail : sliceFrom (scriptRaw :: rest) 1 = .found rest := sliceFrom_append [scriptRaw] rest
  have hread := h
  unfold decompressRaw at hread
  rw [htail, Outcome.found_bind] at hread
  obtain ⟨⟨v, k⟩, hvarint, -⟩ := bind_eq_found.mp hread
  obtain ⟨len, body, rfl, -, hlen⟩ := field_of_decodeVarint (ofOption_eq_found.mp hvarint)
  rw [decompressRaw_field hlen hdata] at h
  split_ifs at h with hwide hshort
  have hn : 1 + len.length + v.toNat = n := congrArg Prod.snd (Outcome.found.inj h)
  have htake : (body.take v.toNat).length = v.toNat := List.length_take_of_le (by omega)
  refine ⟨scriptRaw :: (len ++ body.take v.toNat), .raw ?_, body.drop v.toNat, ?_, ?_⟩
  · rwa [htake]
  · rw [List.cons_append, List.append_assoc, List.take_append_drop]
  · rw [List.length_cons, List.length_append, htake]
    omega

theorem raw_outOfRange_iff (hdata : (scriptRaw :: rest).length < 2 ^ 63) :
    decompressRaw (scriptRaw :: rest) = .outOfRange ↔ WrapsScript (scriptRaw :: rest) := by
  constructor
  · intro h
    have htail : sliceFrom (scriptRaw :: rest) 1 = .found rest :=
      sliceFrom_append [scriptRaw] rest
    cases hvarint : decodeVarint rest with
    | none =>
      unfold decompressRaw at h
      rw [htail, Outcome.found_bind, hvarint] at h
      exact absurd h (by simp [Outcome.ofOption, Bind.bind, Outcome.bind])
    | some read =>
      obtain ⟨len, body, rfl, -, hlen⟩ := field_of_decodeVarint hvarint
      rw [decompressRaw_field hlen hdata] at h
      split_ifs at h with hwide
      obtain ⟨bytes, rfl, hbytes, hvalue⟩ := hlen.eight_of_wide hwide
      exact ⟨bytes, body, rfl, hbytes, hvalue ▸ hwide⟩
  · rintro ⟨len, body, heq, hlen, hwide⟩
    obtain rfl : rest = 0xFF :: len ++ body := (List.cons.inj heq).2
    rw [decompressRaw_field (.eight hlen) hdata, if_pos hwide]

theorem reads_script : Reads decompressScript scriptFields scriptOverrun where
  of_found := by
    intro data script n hdata h
    cases data with
    | nil => exact absurd h (by simp [decompressScript])
    | cons tag rest =>
      simp only [decompressScript, List.head?_cons] at h
      split_ifs at h with h₁ h₂ h₃ h₄
      · obtain ⟨hash, tail, hsplit, hlen, hn⟩ := template_of_found h
        exact ⟨tag :: hash, h₁ ▸ .p2pkh hlen, tail, hsplit.symm, hn⟩
      · obtain ⟨hash, tail, hsplit, hlen, hn⟩ := template_of_found h
        exact ⟨tag :: hash, h₂ ▸ .p2wpkh hlen, tail, hsplit.symm, hn⟩
      · obtain ⟨key, tail, hsplit, hlen, hn⟩ := template_of_found h
        exact ⟨tag :: key, h₃ ▸ .p2tr hlen, tail, hsplit.symm, hn⟩
      · subst h₄
        exact raw_of_found hdata h
  found := scriptField_found
  outOfRange_iff := by
    intro data hdata
    have htemplate : ∀ (data opening closing : List UInt8) (width : ℕ),
        decompressTemplate data opening closing width ≠ .outOfRange := by
      intro data opening closing width
      unfold decompressTemplate
      split_ifs <;> simp
    change _ ↔ WrapsScript data
    cases data with
    | nil => simp [decompressScript, WrapsScript]
    | cons tag rest =>
      have htag : WrapsScript (tag :: rest) → tag = scriptRaw := by
        rintro ⟨len, body, heq, -⟩
        exact (List.cons.inj heq).1
      simp only [decompressScript, List.head?_cons]
      split_ifs with h₁ h₂ h₃ h₄
      · exact iff_of_false (htemplate _ _ _ _)
          fun hw => absurd (h₁.symm.trans (htag hw)) (by decide)
      · exact iff_of_false (htemplate _ _ _ _)
          fun hw => absurd (h₂.symm.trans (htag hw)) (by decide)
      · exact iff_of_false (htemplate _ _ _ _)
          fun hw => absurd (h₃.symm.trans (htag hw)) (by decide)
      · subst h₄
        exact raw_outOfRange_iff hdata
      · exact iff_of_false (by simp) fun hw => h₄ (htag hw)

end Scripts

section Entries

variable {data front rest : List UInt8}

def varintFields : Language UInt8 := {field | ∃ value, VarintField field value}

theorem reads_varint : Reads (fun data => .ofOption (decodeVarint data)) varintFields 0 where
  of_found := by
    intro data v n _ h
    obtain ⟨field, rest, hsplit, hn, hfield⟩ := field_of_decodeVarint (ofOption_eq_found.mp h)
    exact ⟨field, ⟨_, hfield⟩, rest, hsplit.symm, hn⟩
  found := by
    rintro field rest ⟨value, h⟩ -
    exact ⟨_, by rw [h.decode]; rfl⟩
  outOfRange_iff := by
    intro data _
    exact iff_of_false (ofOption_ne_outOfRange _) (Language.notMem_zero data)

theorem sliceFrom_drop {n : ℕ} (h : n ≤ data.length) : sliceFrom data n = .found (data.drop n) := if_pos h

/-- A compressed coin: code, value and script. -/
def coinFields : Language UInt8 := varintFields * (varintFields * scriptFields)

def coinOverrun : Language UInt8 := varintFields * (varintFields * scriptOverrun)

theorem decompressUtxo_eq (hdata : data.length < 2 ^ 63) : decompressUtxo data =
      readThen (fun rest => .ofOption (decodeVarint rest))
        (readThen (fun rest => .ofOption (decodeVarint rest)) decompressScript) data >>=
        fun x => .found (⟨⟨x.1.2.1, x.1.2.2⟩, (x.1.1 >>> 1).toNat, x.1.1 &&& 1 = 1⟩, x.2) := by
  simp only [decompressUtxo, readThen]
  cases hcode : decodeVarint data with
  | none => simp only [ofOption_none, malformed_bind]
  | some x =>
    obtain ⟨code, c₁⟩ := x
    obtain ⟨field₁, rest₁, rfl, rfl, -⟩ := field_of_decodeVarint hcode
    have hlen₁ : (field₁ ++ rest₁).length = field₁.length + rest₁.length := List.length_append
    simp only [Outcome.ofOption_some, Outcome.found_bind,
      sliceFrom_drop (show field₁.length ≤ (field₁ ++ rest₁).length by omega), List.drop_left]
    cases hvalue : decodeVarint rest₁ with
    | none => simp only [ofOption_none, malformed_bind]
    | some x =>
      obtain ⟨value, c₂⟩ := x
      obtain ⟨field₂, rest₂, rfl, rfl, -⟩ := field_of_decodeVarint hvalue
      have hlen₂ : (field₂ ++ rest₂).length = field₂.length + rest₂.length := List.length_append
      have hpos : addPos field₁.length field₂.length = field₁.length + field₂.length :=
        addPos_eq (by omega)
      have hskip : sliceFrom (field₁ ++ (field₂ ++ rest₂)) (field₁.length + field₂.length) =
          .found rest₂ := by
        rw [← List.append_assoc, ← List.length_append]
        exact sliceFrom_append _ _
      simp only [Outcome.ofOption_some, Outcome.found_bind, hpos, hskip, List.drop_left]
      cases hscript : decompressScript rest₂ with
      | malformed => simp only [malformed_bind]
      | outOfRange => simp only [outOfRange_bind]
      | found x =>
        obtain ⟨script, c₃⟩ := x
        obtain ⟨field₃, -, rest₃, rfl, rfl⟩ := reads_script.of_found (by omega) hscript
        have hlen₃ : (field₃ ++ rest₃).length = field₃.length + rest₃.length := List.length_append
        have hend : addPos (field₁.length + field₂.length) field₃.length =
            field₁.length + (field₂.length + field₃.length) := by
          rw [addPos_eq (by omega), Nat.add_assoc]
        simp only [Outcome.found_bind, Outcome.pure_eq, hend]

theorem reads_coin : Reads decompressUtxo coinFields coinOverrun := by
  have h := (reads_varint.readThen (reads_varint.readThen reads_script)).map
    (fun x : UInt64 × UInt64 × List UInt8 =>
      (⟨⟨x.2.1, x.2.2⟩, (x.1 >>> 1).toNat, x.1 &&& 1 = 1⟩ : UTXO))
    fun data => decompressUtxo_eq
  simpa only [coinFields, coinOverrun, zero_add, mul_add, mul_zero] using h

def txidFields : Language UInt8 := {field | field.length = 32}

def readTxid (data : List UInt8) : Outcome (Bytes32 × ℕ) :=
  if data.length < 32 then .malformed else .found (Bytes32.ofBytes (data.take 32), 32)

theorem reads_txid : Reads readTxid txidFields 0 where
  of_found := by
    intro data txid n _ h
    unfold readTxid at h
    split_ifs at h with hlen
    have htake : (data.take 32).length = 32 := List.length_take_of_le (by omega)
    have hn : 32 = n := congrArg Prod.snd (Outcome.found.inj h)
    exact ⟨data.take 32, htake, data.drop 32, List.take_append_drop _ _, htake.trans hn⟩
  found := by
    intro field rest hfield _
    have hlen : field.length = 32 := hfield
    refine ⟨Bytes32.ofBytes field, ?_⟩
    unfold readTxid
    rw [if_neg (by rw [List.length_append]; omega), List.take_left' hlen, hlen]
  outOfRange_iff := by
    intro data _
    refine iff_of_false ?_ (Language.notMem_zero data)
    unfold readTxid
    split_ifs <;> simp

/-- An entry of the set: txid, index and coin. -/
def readEntry : List UInt8 → Outcome ((Bytes32 × UInt64 × UTXO) × ℕ) :=
  readThen readTxid (readThen (fun rest => .ofOption (decodeVarint rest)) decompressUtxo)

def entryFields : Language UInt8 := txidFields * (varintFields * coinFields)

def entryOverrun : Language UInt8 := txidFields * (varintFields * coinOverrun)

theorem reads_entry : Reads readEntry entryFields entryOverrun := by
  have h := reads_txid.readThen (reads_varint.readThen reads_coin)
  simpa only [readEntry, entryFields, entryOverrun, zero_add, mul_add, mul_zero] using h

theorem decompressEntries_succ (count : ℕ) (set : UtxoSet) (hdata : (front ++ rest).length < 2 ^ 63) :
    decompressEntries (front ++ rest) (count + 1) front.length set =
      readEntry rest >>= fun x =>
        decompressEntries (front ++ rest) count (front.length + x.2)
          (set.insert ⟨x.1.1, x.1.2.1.toUInt32⟩ x.1.2.2) := by
  have hlen : (front ++ rest).length = front.length + rest.length := List.length_append
  have hpos : addPos front.length 32 = front.length + 32 := addPos_eq (by omega)
  simp only [decompressEntries, readEntry, readThen, readTxid, hpos]
  by_cases hshort : rest.length < 32
  · rw [if_pos (by omega), if_pos hshort]
    simp only [malformed_bind]
  · have htxid : slice (front ++ rest) front.length (front.length + 32) =
        .found (rest.take 32) := by
      unfold slice
      rw [if_pos (by omega), List.drop_left, Nat.add_sub_cancel_left]
    have htail : sliceFrom (front ++ rest) (front.length + 32) = .found (rest.drop 32) := by
      rw [sliceFrom_drop (by omega), ← List.drop_drop, List.drop_left]
    rw [if_neg (by omega), if_neg hshort]
    simp only [htxid, htail, Outcome.found_bind]
    cases hindex : decodeVarint (rest.drop 32) with
    | none => simp only [ofOption_none, malformed_bind]
    | some x =>
      obtain ⟨vout, vi⟩ := x
      obtain ⟨field, body, hsplit, rfl, -⟩ := field_of_decodeVarint hindex
      have hbody := congrArg List.length hsplit
      rw [List.length_drop, List.length_append] at hbody
      have hpos₂ : addPos (front.length + 32) field.length = front.length + 32 + field.length :=
        addPos_eq (by omega)
      have hskip : sliceFrom (front ++ rest) (front.length + 32 + field.length) = .found body := by
        rw [sliceFrom_drop (by omega), ← List.drop_drop, ← List.drop_drop, List.drop_left, hsplit,
          List.drop_left]
      simp only [Outcome.ofOption_some, Outcome.found_bind, hpos₂, hskip, hsplit, List.drop_left]
      cases hcoin : decompressUtxo body with
      | malformed => simp only [malformed_bind]
      | outOfRange => simp only [outOfRange_bind]
      | found x =>
        obtain ⟨utxo, consumed⟩ := x
        obtain ⟨coin, -, tail, rfl, rfl⟩ := reads_coin.of_found (by omega) hcoin
        rw [List.length_append] at hbody
        have hend : addPos (front.length + 32 + field.length) coin.length =
            front.length + (32 + (field.length + coin.length)) := by
          rw [addPos_eq (by omega)]
          omega
        simp only [Outcome.found_bind, Outcome.pure_eq, hend]

/-- The loop overruns in the entry behind some complete ones that it still reads. -/
theorem decompressEntries_outOfRange_iff (count : ℕ) (set : UtxoSet) (hdata : (front ++ rest).length < 2 ^ 63) :
    decompressEntries (front ++ rest) count front.length set = .outOfRange ↔
      ∃ k < count, rest ∈ entryFields ^ k * entryOverrun := by
  induction count generalizing front rest set with
  | zero => simp [decompressEntries]
  | succ count ih =>
    have hrest : rest.length < 2 ^ 63 := by
      rw [List.length_append] at hdata
      omega
    rw [decompressEntries_succ count set hdata, bind_eq_outOfRange,
      reads_entry.outOfRange_iff hrest]
    constructor
    · rintro (hover | ⟨x, hread, hloop⟩)
      · exact ⟨0, Nat.succ_pos count, by rwa [pow_zero, one_mul]⟩
      · obtain ⟨entry, hentry, tail, rfl, hn⟩ := reads_entry.of_found hrest hread
        rw [← hn, ← List.length_append, ← List.append_assoc] at hloop
        rw [← List.append_assoc] at hdata
        obtain ⟨k, hk, htail⟩ := (ih _ hdata).mp hloop
        refine ⟨k + 1, by omega, ?_⟩
        rw [pow_succ', mul_assoc]
        exact Language.append_mem_mul hentry htail
    · rintro ⟨k, hk, hmem⟩
      cases k with
      | zero => exact .inl (by rwa [pow_zero, one_mul] at hmem)
      | succ k =>
        rw [pow_succ', mul_assoc] at hmem
        obtain ⟨entry, hentry, tail, htail, rfl⟩ := Language.mem_mul.mp hmem
        obtain ⟨x, hread⟩ := reads_entry.found hentry hrest
        refine .inr ⟨(x, entry.length), hread, ?_⟩
        simp only []
        rw [← List.length_append, ← List.append_assoc]
        rw [← List.append_assoc] at hdata
        exact (ih _ hdata).mpr ⟨k, by omega, htail⟩

end Entries

section Sets

/-- The data of a set whose count announces an entry with an overlong raw script, behind
complete entries. -/
def setOverrun : Language UInt8 :=
  {data | ∃ count n k, VarintField count n ∧ k < n ∧
    data ∈ {compressedMagic} * ({count} * (entryFields ^ k * entryOverrun))}

theorem decompressUtxoSet_outOfRange_iff {data : List UInt8} (hdata : data.length < 2 ^ 63) :
    decompressUtxoSet data = .outOfRange ↔ data ∈ setOverrun := by
  have hloop : ∀ {count rest : List UInt8} {n : ℕ}, VarintField count n →
      (compressedMagic ++ (count ++ rest)).length < 2 ^ 63 →
      (decompressUtxoSet (compressedMagic ++ (count ++ rest)) = .outOfRange ↔
        ∃ k < n, rest ∈ entryFields ^ k * entryOverrun) := by
    intro count rest n hcount hdata
    have hmagic : ¬ ((compressedMagic ++ (count ++ rest)).length < 4 ∨
        (compressedMagic ++ (count ++ rest)).take 4 ≠ compressedMagic) := by
      rw [not_or, not_not, List.length_append]
      exact ⟨Nat.not_lt.mpr (Nat.le_add_right 4 _), rfl⟩
    have hskip : sliceFrom (compressedMagic ++ (count ++ rest)) 4 = .found (count ++ rest) :=
      sliceFrom_append compressedMagic _
    have hpos : addPos 4 count.length = (compressedMagic ++ count).length := by
      rw [List.length_append]
      exact addPos_eq (show 4 + count.length < 2 ^ 64 by have := hcount.length_le; omega)
    have hnat : (UInt64.ofNat n).toNat = n := by
      rw [UInt64.toNat_ofNat', Nat.mod_eq_of_lt hcount.value_lt]
    unfold decompressUtxoSet
    rw [if_neg hmagic, hskip]
    simp only [Outcome.found_bind, hcount.decode, Outcome.ofOption_some, hpos, hnat]
    rw [← List.append_assoc] at hdata ⊢
    exact decompressEntries_outOfRange_iff n ∅ hdata
  constructor
  · intro h
    have hread := h
    unfold decompressUtxoSet at hread
    split_ifs at hread with hmagic
    rw [not_or, not_lt, not_not] at hmagic
    obtain ⟨rest, rfl⟩ : ∃ rest, data = compressedMagic ++ rest :=
      ⟨data.drop 4, by rw [← hmagic.2, List.take_append_drop]⟩
    have hskip : sliceFrom (compressedMagic ++ rest) 4 = .found rest :=
      sliceFrom_append compressedMagic _
    rw [hskip, Outcome.found_bind, bind_eq_outOfRange] at hread
    obtain hread | ⟨⟨v, vi⟩, hcount, -⟩ := hread
    · exact absurd hread (ofOption_ne_outOfRange _)
    · obtain ⟨count, rest, rfl, -, hcount⟩ := field_of_decodeVarint (ofOption_eq_found.mp hcount)
      obtain ⟨k, hk, hrest⟩ := (hloop hcount hdata).mp h
      exact ⟨count, _, k, hcount, hk, Language.append_mem_mul rfl
        (Language.append_mem_mul rfl hrest)⟩
  · rintro ⟨count, n, k, hcount, hk, hmem⟩
    obtain ⟨_, rfl, behind, hbehind, rfl⟩ := Language.mem_mul.mp hmem
    obtain ⟨_, rfl, rest, hrest, rfl⟩ := Language.mem_mul.mp hbehind
    exact (hloop hcount hdata).mpr ⟨k, hk, hrest⟩

/-- The decoders stay in the data exactly on the inputs without an overlong raw script
where they read one. -/
theorem decoders_inRange_iff (data : List UInt8) (hdata : data.length < 2 ^ 63) : indexedVarint data ≠ .outOfRange ∧
      (decompressScript data ≠ .outOfRange ↔ data ∉ scriptOverrun) ∧
      (decompressUtxo data ≠ .outOfRange ↔ data ∉ coinOverrun) ∧
      (decompressUtxoSet data ≠ .outOfRange ↔ data ∉ setOverrun) := by
  refine ⟨?_, ?_, ?_, ?_⟩
  · rw [indexedVarint_eq]
    exact ofOption_ne_outOfRange _
  · exact not_congr (reads_script.outOfRange_iff hdata)
  · exact not_congr (reads_coin.outOfRange_iff hdata)
  · exact not_congr (decompressUtxoSet_outOfRange_iff hdata)

/-- A raw script that ends with its data. -/
theorem return_script_inRange : ([3, 1, 0x6a] : List UInt8).length < 2 ^ 63 ∧
      ([3, 1, 0x6a] : List UInt8) ∉ scriptOverrun := by
  have hlen : ([3, 1, 0x6a] : List UInt8).length < 2 ^ 63 := by decide
  refine ⟨hlen, (decoders_inRange_iff [3, 1, 0x6a] hlen).2.1.mp ?_⟩
  have hread : decompressScript [3, 1, 0x6a] = .found ([0x6a], 3) := rfl
  rw [hread]
  simp

/-- A set of one entry whose script announces 2^64 - 1 bytes. -/
theorem overlong_set_outOfRange :
    ¬ ∀ data : List UInt8, data.length < 2 ^ 63 → decompressUtxoSet data ≠ .outOfRange := by
  intro h
  refine h (compressedMagic ++ 1 :: (List.replicate 32 0 ++ 0 :: 2 :: 0 :: scriptRaw ::
    List.replicate 9 0xFF)) (by decide) ?_
  rfl

end Sets

end KuberCoin.DecodingSafety
