import KuberCoin.UtxoSets

/-!
The compressed form of a UTXO set (crate `chain`, `utxo`): variable-length
integers, scripts with three templates and a raw fallback, entries, and the set
as a concatenation of entries behind a magic and a count.
The decoders work on positions in the whole data, as the source does: additions of
positions are modulo 2^64, and a slice outside the data is an outcome of its own.
-/
namespace KuberCoin.UtxoCodec

open Bytes Maps Transactions UtxoSets

/-- What a decoder does: find a value, return `None`, or slice outside the data. -/
inductive Outcome (α : Type) where
  | found (a : α)
  | malformed
  | outOfRange

namespace Outcome

def bind {α β : Type} (x : Outcome α) (f : α → Outcome β) : Outcome β :=
  match x with
  | .found a => f a
  | .malformed => .malformed
  | .outOfRange => .outOfRange

def ofOption {α : Type} : Option α → Outcome α
  | some a => .found a
  | none => .malformed

instance : Monad Outcome where
  pure := .found
  bind := Outcome.bind

@[simp] theorem found_bind {α β : Type} (a : α) (f : α → Outcome β) : (Outcome.found a >>= f) = f a := rfl

@[simp] theorem pure_eq {α : Type} (a : α) : (pure a : Outcome α) = .found a := rfl

@[simp] theorem ofOption_some {α : Type} (a : α) : ofOption (some a) = .found a := rfl

end Outcome

section Slices

/-- `&data[start..]`. -/
def sliceFrom (data : List UInt8) (start : ℕ) : Outcome (List UInt8) :=
  if start ≤ data.length then .found (data.drop start) else .outOfRange

/-- `&data[start..stop]`. -/
def slice (data : List UInt8) (start stop : ℕ) : Outcome (List UInt8) :=
  if start ≤ stop ∧ stop ≤ data.length then .found ((data.drop start).take (stop - start))
  else .outOfRange

/-- Addition of positions, which wraps in the release profile. -/
def addPos (a b : ℕ) : ℕ := (a + b) % 2 ^ 64

theorem addPos_eq {a b : ℕ} (h : a + b < 2 ^ 64) : addPos a b = a + b := Nat.mod_eq_of_lt h

theorem sliceFrom_append (front back : List UInt8) : sliceFrom (front ++ back) front.length = .found back := by
  unfold sliceFrom
  rw [if_pos (by simp), List.drop_left]

theorem slice_append (front middle back : List UInt8) :
    slice (front ++ (middle ++ back)) front.length (front.length + middle.length) =
      .found middle := by
  unfold slice
  rw [if_pos (by simp), List.drop_left, Nat.add_sub_cancel_left, List.take_left]

end Slices

section Varints

def encodeVarint (val : UInt64) : List UInt8 :=
  if val ≤ 0xFC then [val.toUInt8]
  else if val ≤ 0xFFFF then 0xFD :: leBytes 2 val.toNat
  else if val ≤ 0xFFFFFFFF then 0xFE :: leBytes 4 val.toNat
  else 0xFF :: leBytes 8 val.toNat

/-- The `width` bytes behind the first one, and how many bytes were read. -/
def decodeFixed (rest : List UInt8) (width : ℕ) : Option (UInt64 × ℕ) :=
  if rest.length < width then none
  else some (UInt64.ofNat (leValue (rest.take width)), width + 1)

/-- A value and the number of bytes consumed. -/
def decodeVarint : List UInt8 → Option (UInt64 × ℕ)
  | [] => none
  | first :: rest =>
      if first ≤ 0xFC then some (first.toUInt64, 1)
      else if first = 0xFD then decodeFixed rest 2
      else if first = 0xFE then decodeFixed rest 4
      else decodeFixed rest 8

theorem decodeFixed_append {width : ℕ} {val : UInt64} (h : val.toNat < 256 ^ width) (rest : List UInt8) :
    decodeFixed (leBytes width val.toNat ++ rest) width = some (val, width + 1) := by
  have hlen := leBytes_length width val.toNat
  have htake : (leBytes width val.toNat ++ rest).take width = leBytes width val.toNat := by
    conv_lhs => rw [← hlen]
    rw [hlen]
    exact List.take_left' hlen
  unfold decodeFixed
  rw [if_neg (by rw [List.length_append, hlen]; omega), htake, leValue_leBytes,
    Nat.mod_eq_of_lt h, UInt64.ofNat_toNat]

theorem decodeVarint_encodeVarint (val : UInt64) (rest : List UInt8) :
    decodeVarint (encodeVarint val ++ rest) = some (val, (encodeVarint val).length) := by
  have hle : ∀ n : UInt64, val ≤ n ↔ val.toNat ≤ n.toNat := fun n => UInt64.le_iff_toNat_le
  unfold encodeVarint
  by_cases h1 : val ≤ 0xFC
  · have hnat : val.toNat ≤ 252 := (hle _).mp h1
    have hbyte : val.toUInt8.toNat = val.toNat := by
      rw [UInt64.toNat_toUInt8, Nat.mod_eq_of_lt (by omega)]
    have hfirst : val.toUInt8 ≤ 0xFC := by
      rw [UInt8.le_iff_toNat_le, hbyte]
      exact hnat
    have hback : val.toUInt8.toUInt64 = val := by
      apply UInt64.toNat_inj.mp
      rw [UInt8.toNat_toUInt64, hbyte]
    simp only [if_pos h1, List.singleton_append, decodeVarint, if_pos hfirst, hback,
      List.length_singleton]
  · by_cases h2 : val ≤ 0xFFFF
    · have hnat : val.toNat ≤ 65535 := (hle _).mp h2
      rw [if_neg h1, if_pos h2]
      change decodeFixed (leBytes 2 val.toNat ++ rest) 2 = _
      rw [decodeFixed_append (by omega), List.length_cons, leBytes_length]
    · by_cases h3 : val ≤ 0xFFFFFFFF
      · have hnat : val.toNat ≤ 4294967295 := (hle _).mp h3
        rw [if_neg h1, if_neg h2, if_pos h3]
        change decodeFixed (leBytes 4 val.toNat ++ rest) 4 = _
        rw [decodeFixed_append (by omega), List.length_cons, leBytes_length]
      · have hnat : val.toNat < 2 ^ 64 := val.toNat_lt
        rw [if_neg h1, if_neg h2, if_neg h3]
        change decodeFixed (leBytes 8 val.toNat ++ rest) 8 = _
        rw [decodeFixed_append (by omega), List.length_cons, leBytes_length]

end Varints

section Scripts

variable {script : List UInt8}

def scriptP2pkh : UInt8 := 0x00
def scriptP2wpkh : UInt8 := 0x01
def scriptP2tr : UInt8 := 0x02
def scriptRaw : UInt8 := 0x03

def compressScript (script : List UInt8) : List UInt8 :=
  if script.length = 25 ∧ script.getD 0 0 = 0x76 ∧ script.getD 1 0 = 0xa9 ∧
      script.getD 2 0 = 0x14 ∧ script.getD 23 0 = 0x88 ∧ script.getD 24 0 = 0xac then
    scriptP2pkh :: (script.drop 3).take 20
  else if script.length = 22 ∧ script.getD 0 0 = 0x00 ∧ script.getD 1 0 = 0x14 then
    scriptP2wpkh :: script.drop 2
  else if script.length = 34 ∧ script.getD 0 0 = 0x51 ∧ script.getD 1 0 = 0x20 then
    scriptP2tr :: script.drop 2
  else scriptRaw :: (encodeVarint (UInt64.ofNat script.length) ++ script)

/-- A template with `width` bytes of payload between its opcodes. -/
def decompressTemplate (data opening closing : List UInt8) (width : ℕ) :
    Outcome (List UInt8 × ℕ) :=
  if data.length < width + 1 then .malformed
  else .found (opening ++ (data.drop 1).take width ++ closing, width + 1)

def decompressRaw (data : List UInt8) : Outcome (List UInt8 × ℕ) := do
  let tail ← sliceFrom data 1
  let (len, viSize) ← Outcome.ofOption (decodeVarint tail)
  let start := addPos 1 viSize
  let stop := addPos start len.toNat
  if data.length < stop then .malformed
  else do
    let script ← slice data start stop
    return (script, stop)

def decompressScript (data : List UInt8) : Outcome (List UInt8 × ℕ) :=
  match data.head? with
  | none => .malformed
  | some tag =>
      if tag = scriptP2pkh then decompressTemplate data [0x76, 0xa9, 0x14] [0x88, 0xac] 20
      else if tag = scriptP2wpkh then decompressTemplate data [0x00, 0x14] [] 20
      else if tag = scriptP2tr then decompressTemplate data [0x51, 0x20] [] 32
      else if tag = scriptRaw then decompressRaw data
      else .malformed

theorem decompressTemplate_append {payload : List UInt8} {width : ℕ} (hlen : payload.length = width) (tag : UInt8)
    (rest opening closing : List UInt8) : decompressTemplate (tag :: payload ++ rest) opening closing width =
      .found (opening ++ payload ++ closing, (tag :: payload).length) := by
  unfold decompressTemplate
  rw [if_neg (by simp only [List.length_append, List.length_cons]; omega), List.cons_append,
    List.drop_one, List.tail_cons, List.take_left' hlen, List.length_cons, hlen]

theorem eq_of_getD {l t : List UInt8} (hlen : l.length = t.length) (hget : ∀ i < t.length, l.getD i 0 = t.getD i 0) :
    l = t := by
  apply List.ext_getElem hlen
  intro i hl ht
  simpa [List.getD_eq_getElem?_getD, hl, ht] using hget i ht

/-- A script that starts with the bytes of a template, one by one. -/
theorem take_eq_of_getD {opening : List UInt8} {n : ℕ} (hn : opening.length = n) (hle : n ≤ script.length)
    (hget : ∀ i < n, script.getD i 0 = opening.getD i 0) : script.take n = opening := by
  apply eq_of_getD
  · rw [List.length_take]
    omega
  · intro i hi
    rw [← hget i (hn ▸ hi), List.getD_eq_getElem?_getD, List.getD_eq_getElem?_getD,
      List.getElem?_take_of_lt (hn ▸ hi)]

theorem p2pkh_eq (hlen : script.length = 25) (b0 : script.getD 0 0 = 0x76) (b1 : script.getD 1 0 = 0xa9)
    (b2 : script.getD 2 0 = 0x14) (b23 : script.getD 23 0 = 0x88) (b24 : script.getD 24 0 = 0xac) :
    [0x76, 0xa9, 0x14] ++ (script.drop 3).take 20 ++ [0x88, 0xac] = script := by
  have hopening : script.take 3 = [0x76, 0xa9, 0x14] := by
    refine take_eq_of_getD rfl (by omega : 3 ≤ script.length) ?_
    intro i hi
    have : i = 0 ∨ i = 1 ∨ i = 2 := by omega
    rcases this with rfl | rfl | rfl <;> assumption
  have hclosing : script.drop 23 = [0x88, 0xac] := by
    apply eq_of_getD (by simp [hlen])
    intro i hi
    have : i = 0 ∨ i = 1 := by
      simp only [List.length_cons, List.length_nil] at hi
      omega
    rw [List.getD_eq_getElem?_getD, List.getElem?_drop, ← List.getD_eq_getElem?_getD]
    rcases this with rfl | rfl <;> assumption
  rw [← hopening, ← hclosing, List.append_assoc, show 23 = 3 + 20 from rfl, ← List.drop_drop,
    List.take_append_drop, List.take_append_drop]

theorem witnessProgram_eq {version width : UInt8} (hlen : 2 ≤ script.length) (b0 : script.getD 0 0 = version)
    (b1 : script.getD 1 0 = width) : [version, width] ++ script.drop 2 ++ [] = script := by
  have hopening : script.take 2 = [version, width] := by
    refine take_eq_of_getD rfl hlen ?_
    intro i hi
    have : i = 0 ∨ i = 1 := by omega
    rcases this with rfl | rfl <;> assumption
  rw [List.append_nil, ← hopening, List.take_append_drop]

theorem decompressRaw_append (rest : List UInt8)
    (hfit : (scriptRaw :: (encodeVarint (UInt64.ofNat script.length) ++ script)).length < 2 ^ 64) :
    decompressRaw (scriptRaw :: (encodeVarint (UInt64.ofNat script.length) ++ script) ++ rest) =
      .found (script,
        (scriptRaw :: (encodeVarint (UInt64.ofNat script.length) ++ script)).length) := by
  set count := encodeVarint (UInt64.ofNat script.length) with hcount
  set opening := scriptRaw :: count with hopening
  have hdata : scriptRaw :: (count ++ script) ++ rest = opening ++ (script ++ rest) := by
    simp [hopening]
  have hstop : (scriptRaw :: (count ++ script)).length = opening.length + script.length := by
    simp only [hopening, List.length_cons, List.length_append]
    omega
  have hopen : opening.length = 1 + count.length := by
    rw [hopening, List.length_cons, Nat.add_comm]
  rw [hstop] at hfit ⊢
  have hlen : (UInt64.ofNat script.length).toNat = script.length := by
    rw [UInt64.toNat_ofNat', Nat.mod_eq_of_lt (by omega)]
  have htail : sliceFrom (opening ++ (script ++ rest)) 1 = .found (count ++ (script ++ rest)) :=
    sliceFrom_append [scriptRaw] (count ++ (script ++ rest))
  have hvarint := decodeVarint_encodeVarint (UInt64.ofNat script.length) (script ++ rest)
  rw [← hcount] at hvarint
  have hin : ¬ (opening ++ (script ++ rest)).length < opening.length + script.length := by
    simp only [List.length_append]
    omega
  have hstart : addPos 1 count.length = opening.length := by
    rw [addPos_eq (by omega), hopen]
  unfold decompressRaw
  rw [hdata, htail]
  simp only [Outcome.found_bind, hvarint, Outcome.ofOption_some]
  rw [hstart, hlen, addPos_eq hfit, if_neg hin, slice_append]
  rfl

theorem decompressScript_compressScript (hfit : (compressScript script).length < 2 ^ 64) (rest : List UInt8) :
    decompressScript (compressScript script ++ rest) =
      .found (script, (compressScript script).length) := by
  unfold compressScript at hfit ⊢
  split_ifs at hfit ⊢ with h1 h2 h3
  · obtain ⟨hlen, b0, b1, b2, b23, b24⟩ := h1
    have hpayload : ((script.drop 3).take 20).length = 20 := by simp [hlen]
    refine (decompressTemplate_append hpayload scriptP2pkh rest _ _).trans ?_
    rw [p2pkh_eq hlen b0 b1 b2 b23 b24]
  · obtain ⟨hlen, b0, b1⟩ := h2
    have hpayload : (script.drop 2).length = 20 := by simp [hlen]
    refine (decompressTemplate_append hpayload scriptP2wpkh rest _ _).trans ?_
    rw [witnessProgram_eq (by omega) b0 b1]
  · obtain ⟨hlen, b0, b1⟩ := h3
    have hpayload : (script.drop 2).length = 32 := by simp [hlen]
    refine (decompressTemplate_append hpayload scriptP2tr rest _ _).trans ?_
    rw [witnessProgram_eq (by omega) b0 b1]
  · exact decompressRaw_append rest hfit

end Scripts

section Entries

/-- `(height << 1) | is_coinbase`. -/
def entryCode (utxo : UTXO) : UInt64 :=
  (UInt64.ofNat utxo.height <<< 1) ||| (if utxo.isCoinbase then 1 else 0)

def compressUtxo (utxo : UTXO) : List UInt8 :=
  encodeVarint (entryCode utxo) ++ encodeVarint utxo.output.value ++
    compressScript utxo.output.scriptPubkey

def decompressUtxo (data : List UInt8) : Outcome (UTXO × ℕ) := do
  let (code, c1) ← Outcome.ofOption (decodeVarint data)
  let rest₁ ← sliceFrom data c1
  let (value, c2) ← Outcome.ofOption (decodeVarint rest₁)
  let rest₂ ← sliceFrom data (addPos c1 c2)
  let (script, c3) ← decompressScript rest₂
  return (⟨⟨value, script⟩, (code >>> 1).toNat, code &&& 1 = 1⟩, addPos (addPos c1 c2) c3)

/-- The shift drops the top bit of the height. -/
theorem entryCode_toNat (utxo : UTXO) :
    (entryCode utxo).toNat = 2 * (utxo.height % 2 ^ 63) + if utxo.isCoinbase then 1 else 0 := by
  have hshift : (UInt64.ofNat utxo.height <<< 1).toNat = 2 * (utxo.height % 2 ^ 63) := by
    rw [UInt64.toNat_shiftLeft, UInt64.toNat_ofNat']
    change (utxo.height % 2 ^ 64) <<< 1 % 2 ^ 64 = _
    rw [Nat.shiftLeft_eq]
    omega
  have hor : ∀ b < 2 ^ 1, 2 ^ 1 * (utxo.height % 2 ^ 63) + b = 2 ^ 1 * (utxo.height % 2 ^ 63) ||| b :=
    fun b hb => Nat.two_pow_add_eq_or_of_lt hb _
  unfold entryCode
  rw [UInt64.toNat_or, hshift]
  cases utxo.isCoinbase with
  | false => exact (hor 0 (by decide)).symm
  | true => exact (hor 1 (by decide)).symm

theorem entryCode_height (utxo : UTXO) : (entryCode utxo >>> 1).toNat = utxo.height % 2 ^ 63 := by
  rw [UInt64.toNat_shiftRight, entryCode_toNat]
  change (2 * (utxo.height % 2 ^ 63) + _) >>> 1 = _
  rw [Nat.shiftRight_eq_div_pow]
  split <;> omega

theorem entryCode_coinbase (utxo : UTXO) : decide (entryCode utxo &&& 1 = 1) = utxo.isCoinbase := by
  have hbit : (entryCode utxo &&& 1).toNat = if utxo.isCoinbase then 1 else 0 := by
    rw [UInt64.toNat_and, entryCode_toNat]
    change (2 * (utxo.height % 2 ^ 63) + _) &&& 1 = _
    rw [Nat.and_one_is_mod]
    split <;> omega
  cases hflag : utxo.isCoinbase with
  | false =>
    rw [hflag] at hbit
    refine decide_eq_false ?_
    intro heq
    rw [heq] at hbit
    exact absurd hbit (by decide)
  | true =>
    rw [hflag] at hbit
    exact decide_eq_true (UInt64.toNat_inj.mp hbit)

/-- What an entry reads back as. -/
def shortHeight (utxo : UTXO) : UTXO := { utxo with height := utxo.height % 2 ^ 63 }

theorem shortHeight_eq {utxo : UTXO} (h : utxo.height < 2 ^ 63) : shortHeight utxo = utxo := by
  rw [shortHeight, Nat.mod_eq_of_lt h]

theorem decompressUtxo_compressUtxo {utxo : UTXO} (hfit : (compressUtxo utxo).length < 2 ^ 64) (rest : List UInt8) :
    decompressUtxo (compressUtxo utxo ++ rest) =
      .found (shortHeight utxo, (compressUtxo utxo).length) := by
  set code := encodeVarint (entryCode utxo) with hcode
  set value := encodeVarint utxo.output.value with hvalue
  set script := compressScript utxo.output.scriptPubkey with hscript
  have hlen : (compressUtxo utxo).length = code.length + value.length + script.length := by
    simp only [compressUtxo, List.length_append, ← hcode, ← hvalue, ← hscript]
  rw [hlen] at hfit
  have hdata : compressUtxo utxo ++ rest = code ++ (value ++ (script ++ rest)) := by
    simp only [compressUtxo, List.append_assoc, hcode, hvalue, hscript]
  have hread₁ := decodeVarint_encodeVarint (entryCode utxo) (value ++ (script ++ rest))
  have hread₂ := decodeVarint_encodeVarint utxo.output.value (script ++ rest)
  have hread₃ := decompressScript_compressScript (by omega : script.length < 2 ^ 64) rest
  have hskip : sliceFrom (code ++ (value ++ (script ++ rest))) (code.length + value.length) =
      .found (script ++ rest) := by
    rw [← List.append_assoc, ← List.length_append]
    exact sliceFrom_append _ _
  rw [← hcode] at hread₁
  rw [← hvalue] at hread₂
  rw [← hscript] at hread₃
  unfold decompressUtxo
  rw [hdata, hread₁]
  simp only [Outcome.ofOption_some, Outcome.found_bind, sliceFrom_append, hread₂]
  rw [addPos_eq (by omega), hskip]
  simp only [Outcome.found_bind, hread₃, Outcome.pure_eq, entryCode_height, entryCode_coinbase]
  rw [addPos_eq hfit, hlen]
  rfl

end Entries

section Sets

/-- `b"CUTX"`. -/
def compressedMagic : List UInt8 := [0x43, 0x55, 0x54, 0x58]

def compressEntry (e : OutPoint × UTXO) : List UInt8 :=
  e.1.txid.bytes ++ encodeVarint e.1.vout.toUInt64 ++ compressUtxo e.2

/-- The set given by its entries, in the order its hash map is iterated. -/
def compressUtxoSet (entries : List (OutPoint × UTXO)) : List UInt8 :=
  compressedMagic ++ encodeVarint (UInt64.ofNat entries.length) ++ entries.flatMap compressEntry

/-- The loop over the entries, from position `pos` on. -/
def decompressEntries (data : List UInt8) : ℕ → ℕ → UtxoSet → Outcome UtxoSet
  | 0, _, set => .found set
  | count + 1, pos, set =>
      if data.length < addPos pos 32 then .malformed
      else do
        let txid ← slice data pos (addPos pos 32)
        let pos₁ := addPos pos 32
        let rest₁ ← sliceFrom data pos₁
        let (vout, vi₂) ← Outcome.ofOption (decodeVarint rest₁)
        let pos₂ := addPos pos₁ vi₂
        let rest₂ ← sliceFrom data pos₂
        let (utxo, consumed) ← decompressUtxo rest₂
        decompressEntries data count (addPos pos₂ consumed)
          (set.insert ⟨Bytes32.ofBytes txid, vout.toUInt32⟩ utxo)

def decompressUtxoSet (data : List UInt8) : Outcome UtxoSet :=
  if data.length < 4 ∨ data.take 4 ≠ compressedMagic then .malformed
  else do
    let rest ← sliceFrom data 4
    let (count, vi) ← Outcome.ofOption (decodeVarint rest)
    decompressEntries data count.toNat (addPos 4 vi) ∅

variable {entries : List (OutPoint × UTXO)}

theorem decompressEntries_cons {e : OutPoint × UTXO} (count : ℕ) (set : UtxoSet) (front rest : List UInt8)
    (hfit : (front ++ compressEntry e).length < 2 ^ 64) :
    decompressEntries (front ++ (compressEntry e ++ rest)) (count + 1) front.length set =
      decompressEntries (front ++ (compressEntry e ++ rest)) count
        (front ++ compressEntry e).length (set.insert e.1 (shortHeight e.2)) := by
  obtain ⟨⟨txid, vout⟩, utxo⟩ := e
  set index := encodeVarint vout.toUInt64 with hindex
  have hentry : compressEntry (⟨txid, vout⟩, utxo) = txid.bytes ++ (index ++ compressUtxo utxo) := by
    simp only [compressEntry, List.append_assoc, hindex]
  have hlen : (front ++ compressEntry (⟨txid, vout⟩, utxo)).length =
      front.length + 32 + index.length + (compressUtxo utxo).length := by
    simp only [hentry, List.length_append, txid.length_eq]
    omega
  rw [hlen] at hfit ⊢
  have hdata : front ++ (compressEntry (⟨txid, vout⟩, utxo) ++ rest) =
      front ++ (txid.bytes ++ (index ++ (compressUtxo utxo ++ rest))) := by
    simp only [hentry, List.append_assoc]
  rw [hdata]
  set data := front ++ (txid.bytes ++ (index ++ (compressUtxo utxo ++ rest))) with hwhole
  have hread₁ : slice data front.length (front.length + 32) = .found txid.bytes := by
    have := slice_append front txid.bytes (index ++ (compressUtxo utxo ++ rest))
    rwa [txid.length_eq] at this
  have hskip₁ : sliceFrom data (front.length + 32) =
      .found (index ++ (compressUtxo utxo ++ rest)) := by
    have := sliceFrom_append (front ++ txid.bytes) (index ++ (compressUtxo utxo ++ rest))
    rwa [List.length_append, txid.length_eq, List.append_assoc] at this
  have hskip₂ : sliceFrom data (front.length + 32 + index.length) =
      .found (compressUtxo utxo ++ rest) := by
    have := sliceFrom_append (front ++ txid.bytes ++ index) (compressUtxo utxo ++ rest)
    rwa [List.length_append, List.length_append, txid.length_eq, List.append_assoc,
      List.append_assoc] at this
  have hread₂ := decodeVarint_encodeVarint vout.toUInt64 (compressUtxo utxo ++ rest)
  have hread₃ := decompressUtxo_compressUtxo (by omega : (compressUtxo utxo).length < 2 ^ 64) rest
  have hin : ¬ data.length < front.length + 32 := by
    simp only [hwhole, List.length_append, txid.length_eq]
    omega
  rw [← hindex] at hread₂
  rw [decompressEntries, addPos_eq (by omega), if_neg hin, hread₁]
  simp only [Outcome.found_bind, hskip₁, hread₂, Outcome.ofOption_some]
  rw [addPos_eq (by omega), hskip₂]
  simp only [Outcome.found_bind, hread₃, Bytes32.ofBytes_bytes, UInt32.toUInt32_toUInt64]
  rw [addPos_eq hfit]

/-- What the entries of a set read back as. -/
def shortHeights (entries : List (OutPoint × UTXO)) : List (OutPoint × UTXO) :=
  entries.map fun e => (e.1, shortHeight e.2)

theorem decompressEntries_flatMap (set : UtxoSet) (front : List UInt8)
    (hfit : (front ++ entries.flatMap compressEntry).length < 2 ^ 64) :
    decompressEntries (front ++ entries.flatMap compressEntry) entries.length front.length set =
      .found (insertAll set (shortHeights entries)) := by
  induction entries generalizing set front with
  | nil => rfl
  | cons e rest ih =>
    rw [List.flatMap_cons, ← List.append_assoc] at hfit
    have hone : (front ++ compressEntry e).length < 2 ^ 64 := by
      rw [List.length_append] at hfit
      omega
    rw [List.flatMap_cons, List.length_cons, decompressEntries_cons _ _ _ _ hone,
      ← List.append_assoc]
    exact ih (set.insert e.1 (shortHeight e.2)) _ hfit

theorem decompressUtxoSet_entries (hfit : (compressUtxoSet entries).length < 2 ^ 64) :
    decompressUtxoSet (compressUtxoSet entries) = .found (insertAll ∅ (shortHeights entries)) := by
  set count := encodeVarint (UInt64.ofNat entries.length) with hcount
  have hdata : compressUtxoSet entries =
      compressedMagic ++ (count ++ entries.flatMap compressEntry) := by
    simp only [compressUtxoSet, List.append_assoc, hcount]
  have hbody : entries.length ≤ (entries.flatMap compressEntry).length := by
    rw [List.length_flatMap]
    refine le_trans ?_ (List.length_le_sum_of_one_le _ ?_)
    · rw [List.length_map]
    · intro n hn
      obtain ⟨e, -, rfl⟩ := List.mem_map.mp hn
      simp only [compressEntry, List.length_append, e.1.txid.length_eq]
      omega
  have hmagic : compressedMagic.length = 4 := rfl
  have hstart : 4 + count.length = (compressedMagic ++ count).length := by
    rw [List.length_append, hmagic]
  rw [hdata] at hfit ⊢
  simp only [List.length_append, hmagic] at hfit
  have hlen : (UInt64.ofNat entries.length).toNat = entries.length := by
    rw [UInt64.toNat_ofNat', Nat.mod_eq_of_lt (by omega)]
  have hopen : ¬ ((compressedMagic ++ (count ++ entries.flatMap compressEntry)).length < 4 ∨
      (compressedMagic ++ (count ++ entries.flatMap compressEntry)).take 4 ≠ compressedMagic) := by
    rw [not_or, not_not, List.length_append, hmagic]
    exact ⟨by omega, rfl⟩
  have hskip : sliceFrom (compressedMagic ++ (count ++ entries.flatMap compressEntry)) 4 =
      .found (count ++ entries.flatMap compressEntry) := sliceFrom_append compressedMagic _
  have hread := decodeVarint_encodeVarint (UInt64.ofNat entries.length)
    (entries.flatMap compressEntry)
  rw [← hcount] at hread
  unfold decompressUtxoSet
  rw [if_neg hopen, hskip]
  simp only [Outcome.found_bind, hread, Outcome.ofOption_some]
  rw [addPos_eq (by omega), hlen, hstart, ← List.append_assoc]
  refine decompressEntries_flatMap ∅ _ ?_
  simp only [List.length_append, hmagic]
  omega

/-- Decompressing a compressed set restores it, in whatever order its entries were
written. The bound on the data is the one every byte vector meets. -/
theorem utxoSet_roundtrip {u : UtxoSet} (hlists : Lists u entries)
    (hheight : ∀ o utxo, u.lookup o = some utxo → utxo.height < 2 ^ 63)
    (hfit : (compressUtxoSet entries).length < 2 ^ 64) : decompressUtxoSet (compressUtxoSet entries) = .found u := by
  have hsame : shortHeights entries = entries := by
    refine (List.map_congr_left ?_).trans (List.map_id entries)
    rintro ⟨o, utxo⟩ he
    rw [shortHeight_eq (hheight o utxo ((hlists.mem o utxo).mp he))]
    rfl
  rw [decompressUtxoSet_entries hfit, hsame, hlists.insertAll_empty]

/-- A key-hash output at the largest height and a script one byte short of the template. -/
theorem utxoSet_roundtrip_near_template :
    let o₁ : OutPoint := ⟨Bytes32.zero, 0⟩
    let o₂ : OutPoint := ⟨Bytes32.zero, 0xffffffff⟩
    let c₁ : UTXO := ⟨⟨0xffffffffffffffff, [0x76, 0xa9, 0x14] ++ List.replicate 20 7 ++ [0x88, 0xac]⟩,
      2 ^ 63 - 1, true⟩
    let c₂ : UTXO := ⟨⟨0, [0x76, 0xa9, 0x14] ++ List.replicate 20 7 ++ [0x88]⟩, 0, false⟩
    decompressUtxoSet (compressUtxoSet [(o₂, c₂), (o₁, c₁)]) =
      .found ((((∅ : UtxoSet).insert o₁ c₁)).insert o₂ c₂) := by
  intro o₁ o₂ c₁ c₂
  have hne : ((∅ : UtxoSet).insert o₁ c₁).lookup o₂ = none := by
    rw [lookup_insert_eq, if_neg (by decide), Finmap.lookup_empty]
  refine utxoSet_roundtrip ((Lists.nil.cons (by simp)).cons hne) ?_ (by decide +kernel)
  intro o utxo h
  rw [lookup_insert_eq, lookup_insert_eq, Finmap.lookup_empty] at h
  split_ifs at h with h₂ h₁
  · cases h
    decide
  · cases h
    decide

end Sets

end KuberCoin.UtxoCodec
