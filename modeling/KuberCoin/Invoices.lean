import KuberCoin.Bech32Bursts
import KuberCoin.MiniscriptTexts
import Mathlib.Data.Nat.Size

/-!
Invoices as text (crate `lightning`, `invoice.rs`). An invoice is written as tagged fields of
five-bit groups behind an amount, with a checksum over both. The length of a field is written in
two groups, so a field of 1024 groups or more is not read back.
-/
namespace KuberCoin.Invoices

open Bytes FeedbackRegisters Bech32Codes Bech32Registers Bech32Programs Bech32Strings Bech32Exactness
open Bech32Substitutions Bech32Bursts TextReaders
open MiniscriptTexts (HexCodec lowerHexCodec)

section Model

structure RouteHint where
  pubkey : String
  channelId : Bytes32
  feeBaseMsat : UInt32
  feeProportionalMillionths : UInt32
  cltvExpiryDelta : UInt16
  deriving DecidableEq

structure Invoice where
  paymentHash : Bytes32
  amount : Option UInt64
  description : String
  timestamp : UInt64
  expiry : UInt64
  payeePubkey : List Char
  routeHints : List RouteHint
  features : UInt64
  deriving DecidableEq

/-- `str::as_bytes`. -/
def asBytes (s : String) : List UInt8 := s.toUTF8.data.toList

/-- `String::from_utf8_lossy`; of what it does with other bytes nothing is said. -/
structure LossyUtf8 where
  decode : List UInt8 → String
  valid : ∀ s : String, decode (asBytes s) = s

/-- A turn of the loop of both regroupings: what a value brings in is cut by a mask. -/
def readStep (width width' mask : ℕ) (b : Bits) (v : UInt8) : Bits :=
  drain width' (b.bits + width)
    { acc := (b.acc <<< width) % 2 ^ 32 ||| (v.toNat &&& mask), bits := b.bits + width, result := b.result }

def readGroups (width width' mask : ℕ) (data : List UInt8) : Bits := data.foldl (readStep width width' mask) Bits.start

def bytesTo5bit (data : List UInt8) : List UInt8 :=
  let b := readGroups 8 5 0xff data
  if 0 < b.bits then b.result ++ [UInt8.ofNat ((b.acc <<< (5 - b.bits)) % 2 ^ 32 &&& 0x1f)] else b.result

/-- The last byte is dropped where it is not complete. -/
def bits5ToBytes (data : List UInt8) : List UInt8 := (readGroups 5 8 0x1f data).result

def pushU64As5bit (val : UInt64) (count : ℕ) : List UInt8 :=
  (List.range count).reverse.map fun i => if 64 ≤ i * 5 then 0 else UInt8.ofNat (val.toNat >>> (i * 5) &&& 0x1f)

def readU64From5bit (data : List UInt8) : UInt64 :=
  UInt64.ofNat (data.foldl (fun val v => (val <<< 5) % 2 ^ 64 ||| (v.toNat &&& 0x1f)) 0)

def taggedField (tag : UInt8) (fieldData : List UInt8) : List UInt8 :=
  [tag &&& 0x1f, UInt8.ofNat (fieldData.length >>> 5 &&& 0x1f), UInt8.ofNat (fieldData.length &&& 0x1f)] ++ fieldData

def encodeU64Minimal5bit (val : UInt64) : List UInt8 :=
  if val = 0 then [0] else pushU64As5bit val ((Nat.size val.toNat + 4) / 5)

/-- The characters of the human-readable part, expanded for the checksum. -/
def expandHrp (hrp : List Char) : List UInt8 :=
  hrp.map (fun c => asU8 c >>> 5) ++ 0 :: hrp.map fun c => asU8 c &&& 0x1f

def bolt11Checksum (hrp : List Char) (data : List UInt8) : List UInt8 :=
  let pm := polymod (expandHrp hrp ++ data ++ List.replicate 6 0) ^^^ 1
  (List.range 6).map fun i => UInt8.ofNat (pm >>> (5 * (5 - i)) &&& 0x1f)

def hrpOf (amount : Option UInt64) : List Char :=
  match amount with
  | some amt => "lnkc".toList ++ Nat.toDigits 10 amt.toNat
  | none => "lnkc".toList

/-- The field of the payee's key, which is left out when the key is not hexadecimal. -/
def payeeField (codec : HexCodec) (payeePubkey : List Char) : List UInt8 :=
  match codec.decode payeePubkey with
  | some bytes => taggedField 19 (bytesTo5bit bytes)
  | none => []

/-- The fields of an invoice in groups of five bits. -/
def dataOf (codec : HexCodec) (i : Invoice) : List UInt8 :=
  pushU64As5bit i.timestamp 7 ++ taggedField 1 (bytesTo5bit i.paymentHash.bytes) ++
    taggedField 13 (bytesTo5bit (asBytes i.description)) ++ taggedField 6 (encodeU64Minimal5bit i.expiry) ++
    payeeField codec i.payeePubkey

def encodeBolt11 (codec : HexCodec) (i : Invoice) : List Char :=
  let hrp := hrpOf i.amount
  let data := dataOf codec i
  hrp ++ '1' :: (data ++ bolt11Checksum hrp data).map symbolAt

/-- `CHARSET.find`, by bytes: no byte of another character than an ASCII one is found. -/
def valueAt (c : Char) : Option UInt8 :=
  if isAscii c then (charset.findIdx? (· == asU8 c)).map UInt8.ofNat else none

structure Fields where
  paymentHash : Bytes32
  description : String
  expiry : UInt64
  payeePubkey : List Char

/-- What is assumed of a field that is not there. -/
def Fields.start : Fields := ⟨Bytes32.zero, "", 3600, []⟩

def readField (codec : HexCodec) (utf8 : LossyUtf8) (tag : UInt8) (fieldData : List UInt8) (f : Fields) : Fields :=
  if tag = 1 then
    let bytes := bits5ToBytes fieldData
    if 32 ≤ bytes.length then { f with paymentHash := Bytes32.ofBytes bytes } else f
  else if tag = 13 then { f with description := utf8.decode (bits5ToBytes fieldData) }
  else if tag = 6 then { f with expiry := readU64From5bit fieldData }
  else if tag = 19 then { f with payeePubkey := codec.encode (bits5ToBytes fieldData) }
  else f

/-- The loop over the tagged fields; each takes three groups at least. -/
def readFields (codec : HexCodec) (utf8 : LossyUtf8) : ℕ → List UInt8 → Fields → Fields
  | 0, _, f => f
  | fuel + 1, payload, f =>
    if payload.length < 3 then f
    else
      let len := (payload.getD 1 0).toNat * 32 + (payload.getD 2 0).toNat
      let rest := payload.drop 3
      if rest.length < len then f
      else readFields codec utf8 fuel (rest.drop len) (readField codec utf8 (payload.getD 0 0) (rest.take len) f)

def parseAmount (text : List Char) : Option (Option UInt64) :=
  if text = [] then some none else (parseUnsigned 64 text).map fun amt => some (UInt64.ofNat amt)

/-- The fields of a payload whose checksum is right. -/
def readPayload (codec : HexCodec) (utf8 : LossyUtf8) (amount : Option UInt64) (payload : List UInt8) : Option Invoice :=
  if payload.length < 7 then none
  else
    let f := readFields codec utf8 payload.length (payload.drop 7) Fields.start
    some ⟨f.paymentHash, amount, f.description, readU64From5bit (payload.take 7), f.expiry, f.payeePubkey, [], 0⟩

def decodeBolt11 (codec : HexCodec) (utf8 : LossyUtf8) (lower : Lowering) (s : List Char) : Option Invoice :=
  match splitSeparator (toLowercase lower s) with
  | none => none
  | some (hrp, dataStr) =>
    if hrp = [] then none
    else if "lnkc".toList.isPrefixOf hrp = false then none
    else
      match parseAmount (hrp.drop 4) with
      | none => none
      | some amount =>
        match dataStr.mapM valueAt with
        | none => none
        | some data5 =>
          if data5.length < 6 then none
          else
            let payload := data5.take (data5.length - 6)
            if data5.drop (data5.length - 6) ≠ bolt11Checksum hrp payload then none
            else readPayload codec utf8 amount payload

end Model

section Groups

variable {width width' mask : ℕ} {data : List UInt8}

theorem foldlM_convertStep (hdata : ∀ v ∈ data, v.toNat < 2 ^ width ∧ v.toNat &&& mask = v.toNat) (b : Bits) :
    data.foldlM (convertStep width width') b = .ok (data.foldl (readStep width width' mask) b) := by
  induction data generalizing b with
  | nil => rfl
  | cons v rest ih =>
    obtain ⟨⟨hlt, hmask⟩, hrest⟩ := List.forall_mem_cons.mp hdata
    have hstep : convertStep width width' b v = .ok (readStep width width' mask b v) := by
      rw [readStep, hmask]
      exact if_neg (Nat.not_le_of_lt hlt)
    rw [List.foldlM_cons, hstep, List.foldl_cons]
    exact ih hrest _

theorem and_mask {v : UInt8} {k : ℕ} (h : v.toNat < 2 ^ k) : v.toNat < 2 ^ k ∧ v.toNat &&& (2 ^ k - 1) = v.toNat :=
  ⟨h, by rw [Nat.and_two_pow_sub_one_eq_mod, Nat.mod_eq_of_lt h]⟩

theorem bytesTo5bit_grouped (data : List UInt8) : Grouped data (bytesTo5bit data) := by
  obtain ⟨narrow, hconvert, hgrouped⟩ := convertBits_encode data
  have hfold : data.foldlM (convertStep 8 5) Bits.start = .ok (readGroups 8 5 0xff data) :=
    foldlM_convertStep (fun v _ => and_mask v.toNat_lt) Bits.start
  have hsame : convertBits data 8 5 true = .ok (bytesTo5bit data) := by
    unfold convertBits bytesTo5bit
    rw [hfold]
    simp only [bind, Except.bind, if_true]
    split <;> rfl
  rw [hsame, Except.ok.injEq] at hconvert
  rwa [hconvert]

theorem bits5ToBytes_bytesTo5bit (data : List UInt8) : bits5ToBytes (bytesTo5bit data) = data := by
  have h := bytesTo5bit_grouped data
  have hconvert := convertBits_decode_iff.mpr h
  have hfold : (bytesTo5bit data).foldlM (convertStep 5 8) Bits.start = .ok (readGroups 5 8 0x1f (bytesTo5bit data)) :=
    foldlM_convertStep (fun v hv => @and_mask v 5 (UInt8.lt_iff_toNat_lt.mp (h.lt v hv))) Bits.start
  unfold convertBits at hconvert
  rw [hfold] at hconvert
  simp only [bind, Except.bind, Bool.false_eq_true, if_false] at hconvert
  split at hconvert
  · cases hconvert
  · exact Except.ok.inj hconvert

theorem length_bytesTo5bit (h : data.length ≤ 639) : (bytesTo5bit data).length < 1024 := by
  obtain ⟨spare, hspare, hlength⟩ := (bytesTo5bit_grouped data).length
  omega

end Groups

section Numbers

theorem parseUnsigned_toDigits {v : ℕ} (h : v < 2 ^ 64) : parseUnsigned 64 (Nat.toDigits 10 v) = some v := by
  obtain ⟨hne, hdigits, hvalue⟩ := toDigits_mem_numberTexts v
  have hsign : (Nat.toDigits 10 v).head? ≠ some '+' := by
    intro hhead
    have := hdigits '+' (List.mem_of_head? hhead)
    exact absurd this (by decide)
  have hall : (Nat.toDigits 10 v).all Char.isDigit = true := by
    simpa using hdigits
  rw [parseUnsigned, if_neg hsign, hall, hvalue, if_pos h]
  simp [hne]

theorem pushU64As5bit_succ (val : UInt64) (count : ℕ) : pushU64As5bit val (count + 1) =
      (if 64 ≤ count * 5 then 0 else UInt8.ofNat (val.toNat >>> (count * 5) &&& 0x1f)) :: pushU64As5bit val count := by
  unfold pushU64As5bit
  rw [List.range_succ, List.reverse_append, List.reverse_singleton, List.singleton_append, List.map_cons]

theorem map_pushU64As5bit (val : UInt64) (count : ℕ) :
    (pushU64As5bit val count).map UInt8.toNat = topDigits 5 count val.toNat := by
  induction count with
  | zero => rfl
  | succ count ih =>
    rw [pushU64As5bit_succ, topDigits_succ, List.map_cons, ih, Nat.mul_comm 5 count]
    congr 1
    split
    · rename_i hwide
      have hzero : val.toNat >>> (count * 5) = 0 := by
        rw [Nat.shiftRight_eq_div_pow]
        exact Nat.div_eq_of_lt (val.toNat_lt.trans_le (Nat.pow_le_pow_right (by omega) hwide))
      rw [hzero, Nat.zero_and]
      rfl
    · exact ofNat_toNat (by omega) (and_lt _)

theorem length_pushU64As5bit (val : UInt64) (count : ℕ) : (pushU64As5bit val count).length = count := by
  simp [pushU64As5bit]

theorem pushU64As5bit_lt {val : UInt64} {count : ℕ} : ∀ d ∈ pushU64As5bit val count, d < 32 := by
  intro d hd
  have hmem : d.toNat ∈ (pushU64As5bit val count).map UInt8.toNat := List.mem_map_of_mem hd
  rw [map_pushU64As5bit] at hmem
  exact UInt8.lt_iff_toNat_lt.mpr (topDigits_lt hmem)

/-- Groups are read as the number they spell, of which the register keeps the low bits. -/
theorem foldl_valueOf {data : List UInt8} (h : ∀ d ∈ data, d < 32) :
    data.foldl (fun val v => (val <<< 5) % 2 ^ 64 ||| (v.toNat &&& 0x1f)) 0 =
      Regroupings.valueOf 5 (data.map UInt8.toNat) % 2 ^ 64 := by
  induction data using List.reverseRecOn with
  | nil => rfl
  | append_singleton data d ih =>
    have hd : d.toNat < 2 ^ 5 := UInt8.lt_iff_toNat_lt.mp (h d (by simp))
    have hmask : d.toNat &&& 0x1f = d.toNat := (and_mask hd).2
    rw [List.foldl_append, ih fun v hv => h v (by simp [hv]), List.foldl_cons, List.foldl_nil, List.map_append,
      List.map_singleton, Regroupings.valueOf_snoc, hmask]
    have hword : ((Regroupings.valueOf 5 (data.map UInt8.toNat) % 2 ^ 64) <<< 5) % 2 ^ 64 =
        (Regroupings.valueOf 5 (data.map UInt8.toNat) <<< 5) % 2 ^ 64 := by
      rw [Nat.shiftLeft_eq, Nat.shiftLeft_eq, Nat.mod_mul_mod]
    have hsmall : d.toNat = d.toNat % 2 ^ 64 := (Nat.mod_eq_of_lt (by omega)).symm
    rw [hword, Nat.add_comm, Nat.two_pow_add_eq_or_of_lt hd, Nat.or_mod_two_pow, ← hsmall, Nat.shiftLeft_eq,
      Nat.mul_comm (2 ^ 5)]

theorem readU64From5bit_pushU64As5bit (val : UInt64) (count : ℕ) :
    readU64From5bit (pushU64As5bit val count) = UInt64.ofNat (val.toNat % 2 ^ (5 * count)) := by
  unfold readU64From5bit
  rw [foldl_valueOf pushU64As5bit_lt, map_pushU64As5bit, Regroupings.valueOf, ofDigits_topDigits]
  apply UInt64.toNat_inj.mp
  simp

theorem readU64From5bit_minimal (val : UInt64) : readU64From5bit (encodeU64Minimal5bit val) = val := by
  unfold encodeU64Minimal5bit
  split
  case isTrue hzero => rw [hzero]; rfl
  case isFalse =>
    have hlt : val.toNat < 2 ^ (5 * ((Nat.size val.toNat + 4) / 5)) :=
      (Nat.lt_size_self val.toNat).trans_le (Nat.pow_le_pow_right (by omega) (by omega))
    rw [readU64From5bit_pushU64As5bit, Nat.mod_eq_of_lt hlt, UInt64.ofNat_toNat]

theorem encodeU64Minimal5bit_lt {val : UInt64} : ∀ d ∈ encodeU64Minimal5bit val, d < 32 := by
  unfold encodeU64Minimal5bit
  split
  · simp
  · exact pushU64As5bit_lt

theorem length_encodeU64Minimal5bit (val : UInt64) : (encodeU64Minimal5bit val).length < 1024 := by
  have hsize : Nat.size val.toNat ≤ 64 := Nat.size_le.mpr val.toNat_lt
  unfold encodeU64Minimal5bit
  split
  · simp
  · rw [length_pushU64As5bit]
    omega

end Numbers

section TaggedFields

variable {codec : HexCodec} {utf8 : LossyUtf8} {tag : UInt8} {fieldData rest : List UInt8} {f : Fields}

theorem length_parts {n : ℕ} (h : n < 1024) :
    (UInt8.ofNat (n >>> 5 &&& 0x1f)).toNat * 32 + (UInt8.ofNat (n &&& 0x1f)).toNat = n := by
  rw [@ofNat_toNat 5 _ (by omega) (and_lt _), @ofNat_toNat 5 _ (by omega) (and_lt _)]
  have hlow : n &&& 0x1f = n % 32 := Nat.and_two_pow_sub_one_eq_mod n 5
  have hhigh : n >>> 5 &&& 0x1f = n / 32 % 32 := by
    rw [Nat.shiftRight_eq_div_pow]
    exact Nat.and_two_pow_sub_one_eq_mod _ 5
  omega

theorem taggedField_lt (h : ∀ d ∈ fieldData, d < 32) : ∀ d ∈ taggedField tag fieldData, d < 32 := by
  have hmask : ∀ b : UInt8, b &&& 0x1f < 32 := by
    intro b
    rw [UInt8.lt_iff_toNat_lt, UInt8.toNat_and]
    exact and_lt _
  have hgroup : ∀ n : ℕ, UInt8.ofNat (n &&& 0x1f) < 32 := by
    intro n
    rw [UInt8.lt_iff_toNat_lt, @ofNat_toNat 5 _ (by omega) (and_lt _)]
    exact and_lt n
  intro d hd
  simp only [taggedField, List.cons_append, List.nil_append, List.mem_cons] at hd
  obtain rfl | rfl | rfl | hin := hd
  · exact hmask tag
  · exact hgroup _
  · exact hgroup _
  · exact h d hin

theorem readFields_taggedField (htag : tag &&& 0x1f = tag) (h : fieldData.length < 1024) (fuel : ℕ) :
    readFields codec utf8 (fuel + 1) (taggedField tag fieldData ++ rest) f =
      readFields codec utf8 fuel rest (readField codec utf8 tag fieldData f) := by
  have hlen := length_parts h
  simp only [taggedField, List.cons_append, List.nil_append, readFields, List.length_cons, List.getD_cons_zero,
    List.getD_cons_succ, List.drop_succ_cons, List.drop_zero, List.length_append, htag, hlen, List.take_left,
    List.drop_left]
  rw [if_neg (by omega), if_neg (by omega)]

theorem readFields_nil (fuel : ℕ) : readFields codec utf8 fuel [] f = f := by
  cases fuel with
  | zero => rfl
  | succ fuel => exact if_pos (by decide)

theorem readField_hash (hash : Bytes32) :
    readField codec utf8 1 (bytesTo5bit hash.bytes) f = { f with paymentHash := hash } := by
  unfold readField
  rw [if_pos rfl, bits5ToBytes_bytesTo5bit]
  simp only [hash.length_eq, le_refl, if_true, Bytes32.ofBytes_bytes]

theorem readField_description (text : String) :
    readField codec utf8 13 (bytesTo5bit (asBytes text)) f = { f with description := text } := by
  unfold readField
  rw [if_neg (by decide), if_pos rfl, bits5ToBytes_bytesTo5bit, utf8.valid]

theorem readField_expiry (expiry : UInt64) :
    readField codec utf8 6 (encodeU64Minimal5bit expiry) f = { f with expiry := expiry } := by
  unfold readField
  rw [if_neg (by decide), if_neg (by decide), if_pos rfl, readU64From5bit_minimal]

theorem readField_payee (bytes : List UInt8) :
    readField codec utf8 19 (bytesTo5bit bytes) f = { f with payeePubkey := codec.encode bytes } := by
  unfold readField
  rw [if_neg (by decide), if_neg (by decide), if_neg (by decide), if_pos rfl, bits5ToBytes_bytesTo5bit]

end TaggedFields

section Payloads

variable {codec : HexCodec} {i : Invoice}

/-- What a payee key comes back as: its bytes in lower case, or nothing when it is not hexadecimal. -/
def payeeText (codec : HexCodec) (payeePubkey : List Char) : List Char :=
  match codec.decode payeePubkey with
  | some bytes => codec.encode bytes
  | none => []

/-- What an invoice comes back as. -/
def returned (codec : HexCodec) (i : Invoice) : Invoice :=
  ⟨i.paymentHash, i.amount, i.description, UInt64.ofNat (i.timestamp.toNat % 2 ^ 35), i.expiry,
    payeeText codec i.payeePubkey, [], 0⟩

/-- The fields that are not too long to have their length written. -/
structure FieldsFit (codec : HexCodec) (i : Invoice) : Prop where
  description : (asBytes i.description).length ≤ 639
  payee : ∀ bytes, codec.decode i.payeePubkey = some bytes → bytes.length ≤ 639

theorem dataOf_lt : ∀ d ∈ dataOf codec i, d < 32 := by
  have hpayee : ∀ d ∈ payeeField codec i.payeePubkey, d < 32 := by
    unfold payeeField
    split
    case h_1 bytes _ => exact taggedField_lt (bytesTo5bit_grouped bytes).lt
    case h_2 => simp
  intro d hd
  rw [dataOf, List.mem_append, List.mem_append, List.mem_append, List.mem_append] at hd
  obtain (((htime | hhash) | htext) | hexpiry) | hkey := hd
  · exact pushU64As5bit_lt d htime
  · exact taggedField_lt (bytesTo5bit_grouped _).lt d hhash
  · exact taggedField_lt (bytesTo5bit_grouped _).lt d htext
  · exact taggedField_lt encodeU64Minimal5bit_lt d hexpiry
  · exact hpayee d hkey

theorem readFields_dataOf (utf8 : LossyUtf8) (hfit : FieldsFit codec i) (fuel : ℕ) :
    readFields codec utf8 (fuel + 4) ((dataOf codec i).drop 7) Fields.start =
      ⟨i.paymentHash, i.description, i.expiry, payeeText codec i.payeePubkey⟩ := by
  have hhash : (bytesTo5bit i.paymentHash.bytes).length < 1024 :=
    length_bytesTo5bit (by rw [i.paymentHash.length_eq]; omega)
  have hdrop : (dataOf codec i).drop 7 = taggedField 1 (bytesTo5bit i.paymentHash.bytes) ++
      (taggedField 13 (bytesTo5bit (asBytes i.description)) ++ (taggedField 6 (encodeU64Minimal5bit i.expiry) ++
        payeeField codec i.payeePubkey)) := by
    unfold dataOf
    rw [List.append_assoc, List.append_assoc, List.append_assoc,
      List.drop_left' (length_pushU64As5bit i.timestamp 7)]
  rw [hdrop, readFields_taggedField rfl hhash, readField_hash,
    readFields_taggedField rfl (length_bytesTo5bit hfit.description), readField_description,
    readFields_taggedField rfl (length_encodeU64Minimal5bit i.expiry), readField_expiry, payeeText, payeeField]
  cases hdecode : codec.decode i.payeePubkey with
  | none => exact readFields_nil _
  | some bytes =>
    have hread := @readFields_taggedField codec utf8 19 (bytesTo5bit bytes) []
      ⟨i.paymentHash, i.description, i.expiry, []⟩ rfl (length_bytesTo5bit (hfit.payee bytes hdecode)) fuel
    rw [List.append_nil, readField_payee, readFields_nil] at hread
    exact hread

theorem readPayload_dataOf (utf8 : LossyUtf8) (hfit : FieldsFit codec i) :
    readPayload codec utf8 i.amount (dataOf codec i) = some (returned codec i) := by
  have hlength : 7 ≤ (dataOf codec i).length := by
    simp only [dataOf, List.length_append, length_pushU64As5bit]
    omega
  obtain ⟨fuel, hfuel⟩ := Nat.exists_eq_add_of_le' (show 4 ≤ (dataOf codec i).length by omega)
  have htime : (dataOf codec i).take 7 = pushU64As5bit i.timestamp 7 := by
    unfold dataOf
    rw [List.append_assoc, List.append_assoc, List.append_assoc,
      List.take_left' (length_pushU64As5bit i.timestamp 7)]
  have hfields := readFields_dataOf utf8 hfit fuel
  rw [← hfuel] at hfields
  unfold readPayload
  rw [if_neg (by omega), hfields, htime, readU64From5bit_pushU64As5bit]
  rfl

end Payloads

section Texts

variable {codec : HexCodec} {utf8 : LossyUtf8} {lower : Lowering} {hrp dataPart : List Char} {symbols : List UInt8}
  {c : Char}

theorem bolt11Checksum_eq (hrp : List Char) (data : List UInt8) :
    bolt11Checksum hrp data = checksumOf hrp data bech32Const := by
  simp only [bolt11Checksum, checksumOf, residueOf, List.append_assoc]
  rfl

theorem checked_lt (hrp : List Char) (h : ∀ d ∈ symbols, d < 32) :
    ∀ d ∈ symbols ++ bolt11Checksum hrp symbols, d < 32 := by
  intro d hd
  obtain hin | hin := List.mem_append.mp hd
  · exact h d hin
  · rw [bolt11Checksum_eq] at hin
    exact checksumOf_lt d hin

theorem ascii_of_plain (h : isPlain c) : isAscii c := by
  rw [isPlain, Bool.and_eq_true] at h
  exact h.1

theorem valueAt_eq_some {d : UInt8} : valueAt c = some d ↔ c = symbolAt d ∧ d < 32 := by
  have hsymbol : valueAt c = some d ↔ isAscii c ∧ symbolOf c = .ok d := by
    unfold valueAt symbolOf
    cases charset.findIdx? (· == asU8 c) <;> by_cases hc : isAscii c <;> simp [hc]
  rw [hsymbol, symbolOf_eq_ok]
  constructor
  · rintro ⟨hc, hchar, hlt⟩
    exact ⟨by rw [← hchar, lowByte_of_ascii hc], hlt⟩
  · rintro ⟨rfl, hlt⟩
    have hascii := ascii_of_plain (isPlain_symbolAt hlt)
    exact ⟨hascii, lowByte_of_ascii hascii, hlt⟩

theorem mapM_valueAt_eq_some : dataPart.mapM valueAt = some symbols ↔
    dataPart = symbols.map symbolAt ∧ ∀ d ∈ symbols, d < 32 := by
  induction dataPart generalizing symbols with
  | nil => cases symbols <;> simp
  | cons c rest ih =>
    rw [List.mapM_cons]
    cases symbols with
    | nil => cases valueAt c <;> cases rest.mapM valueAt <;> simp
    | cons d ds =>
      have hstep : (do
          let d' ← valueAt c
          let ds' ← rest.mapM valueAt
          pure (d' :: ds')) = some (d :: ds) ↔ valueAt c = some d ∧ rest.mapM valueAt = some ds := by
        cases valueAt c <;> cases rest.mapM valueAt <;> simp
      rw [hstep, valueAt_eq_some, ih]
      simp only [List.map_cons, List.cons.injEq, List.mem_cons, forall_eq_or_imp]
      tauto

theorem decodeBolt11_parts (hplain : (hrp ++ '1' :: dataPart).all isPlain) (hlower : LowersAscii lower)
    (hsep : '1' ∉ dataPart) {i : Invoice} : decodeBolt11 codec utf8 lower (hrp ++ '1' :: dataPart) = some i ↔
      ∃ amountText amount payload, hrp = "lnkc".toList ++ amountText ∧ parseAmount amountText = some amount ∧
        dataPart = (payload ++ bolt11Checksum hrp payload).map symbolAt ∧ (∀ d ∈ payload, d < 32) ∧
        readPayload codec utf8 amount payload = some i := by
  have hlow := toLowercase_plain hlower hplain
  have hsplit := splitSeparator_append hsep hrp
  constructor
  · intro h
    simp only [decodeBolt11, hlow, hsplit] at h
    split at h
    · cases h
    split at h
    · cases h
    rename_i hne hname
    obtain ⟨amountText, rfl⟩ := List.isPrefixOf_iff_prefix.mp (Bool.eq_true_of_not_eq_false hname)
    split at h
    · cases h
    rename_i amount hamount
    split at h
    · cases h
    rename_i data5 hdata5
    split at h
    · cases h
    rename_i hlength
    split at h
    · cases h
    rename_i hchecksum
    obtain ⟨hmap, hlt⟩ := mapM_valueAt_eq_some.mp hdata5
    refine ⟨amountText, amount, data5.take (data5.length - 6), rfl, hamount, ?_, ?_, h⟩
    · rw [hmap, ← not_not.mp hchecksum, List.take_append_drop]
    · intro d hd
      exact hlt d (List.mem_of_mem_take hd)
  · rintro ⟨amountText, amount, payload, rfl, hamount, rfl, hlt, hread⟩
    have hlength : (payload ++ bolt11Checksum ("lnkc".toList ++ amountText) payload).length = payload.length + 6 := by
      rw [List.length_append, bolt11Checksum_eq, checksumOf_length]
    have hname : "lnkc".toList.isPrefixOf ("lnkc".toList ++ amountText) = true :=
      List.isPrefixOf_iff_prefix.mpr (List.prefix_append _ _)
    have hdrop : ("lnkc".toList ++ amountText).drop 4 = amountText := rfl
    have hvalues := mapM_valueAt_eq_some.mpr ⟨rfl, checked_lt ("lnkc".toList ++ amountText) hlt⟩
    simp only [decodeBolt11, hlow, hsplit, hname, hdrop, hamount, hvalues, hlength, Nat.add_sub_cancel,
      List.take_left, List.drop_left]
    simpa using hread

theorem digit_plain (h : c.isDigit = true) : isPlain c = true := by
  rw [Char.isDigit, Bool.and_eq_true, decide_eq_true_eq, decide_eq_true_eq] at h
  obtain ⟨-, hle⟩ := h
  have hnat : c.toNat ≤ 57 := hle
  simp only [isPlain, isAscii, isAsciiUppercase, Bool.and_eq_true, decide_eq_true_eq, Bool.not_eq_true',
    Bool.and_eq_false_imp, decide_eq_false_iff_not]
  omega

theorem parseAmount_hrpOf (amount : Option UInt64) : ∃ amountText, hrpOf amount = "lnkc".toList ++ amountText ∧
    parseAmount amountText = some amount ∧ amountText.all isPlain := by
  cases amount with
  | none => exact ⟨[], rfl, rfl, rfl⟩
  | some amt =>
    refine ⟨Nat.toDigits 10 amt.toNat, rfl, ?_, ?_⟩
    · unfold parseAmount
      rw [if_neg Nat.toDigits_ne_nil, parseUnsigned_toDigits amt.toNat_lt]
      simp
    · rw [List.all_eq_true]
      intro c hc
      exact digit_plain (Nat.isDigit_of_mem_toDigits (by decide) (by decide) hc)

theorem encodeBolt11_plain (i : Invoice) :
    (encodeBolt11 codec i).all isPlain ∧ '1' ∉ ((dataOf codec i ++ bolt11Checksum (hrpOf i.amount) (dataOf codec i)).map symbolAt) := by
  obtain ⟨amountText, hhrp, -, hplain⟩ := parseAmount_hrpOf i.amount
  have hall := checked_lt (hrpOf i.amount) (@dataOf_lt codec i)
  have hone : isPlain '1' = true := by decide
  have hname : "lnkc".toList.all isPlain = true := by decide
  refine ⟨?_, separator_notMem_symbols hall⟩
  unfold encodeBolt11
  rw [hhrp, List.all_append, List.all_append, List.all_cons, hname, hplain, hone, ← hhrp, symbols_plain hall]
  rfl

theorem decodeBolt11_encodeBolt11 (hlower : LowersAscii lower) {i : Invoice} (hfit : FieldsFit codec i) :
    decodeBolt11 codec utf8 lower (encodeBolt11 codec i) = some (returned codec i) := by
  obtain ⟨hplain, hsep⟩ := @encodeBolt11_plain codec i
  obtain ⟨amountText, hhrp, hamount, -⟩ := parseAmount_hrpOf i.amount
  exact (decodeBolt11_parts hplain hlower hsep).mpr
    ⟨amountText, i.amount, dataOf codec i, hhrp, hamount, rfl, dataOf_lt, readPayload_dataOf utf8 hfit⟩

theorem encode_decode_hex {text : List Char} (h : ∃ bytes, text = codec.encode bytes) :
    payeeText codec text = text := by
  obtain ⟨bytes, rfl⟩ := h
  have hlower : (codec.encode bytes).map lowerHex = codec.encode bytes := by
    calc
      (codec.encode bytes).map lowerHex = (codec.encode bytes).map id :=
        List.map_congr_left fun c hc => (codec.encode_digits bytes c hc).2
      _ = codec.encode bytes := List.map_id _
  rw [payeeText, (codec.decode_eq_some_iff _ _ fun c hc => (codec.encode_digits bytes c hc).1).mpr hlower]

theorem payeeText_encoded (text : List Char) : ∃ bytes, payeeText codec text = codec.encode bytes := by
  unfold payeeText
  split
  case h_1 bytes _ => exact ⟨bytes, rfl⟩
  case h_2 => exact ⟨[], (List.length_eq_zero_iff.mp (codec.encode_length [])).symm⟩

/-- An invoice whose fields fit is read back, and as it was when its time takes 35 bits, its payee's key is
written in hexadecimal and it has neither hints nor features. -/
theorem read_back_iff (utf8 : LossyUtf8) (hlower : LowersAscii lower) {i : Invoice} (hfit : FieldsFit codec i) :
    decodeBolt11 codec utf8 lower (encodeBolt11 codec i) = some (returned codec i) ∧
      (returned codec i = i ↔ i.timestamp.toNat < 2 ^ 35 ∧ (∃ bytes, i.payeePubkey = codec.encode bytes) ∧
        i.routeHints = [] ∧ i.features = 0) := by
  refine ⟨decodeBolt11_encodeBolt11 hlower hfit, ?_⟩
  cases i with
  | mk paymentHash amount description timestamp expiry payeePubkey routeHints features =>
    simp only [returned, Invoice.mk.injEq, true_and]
    constructor
    · rintro ⟨htime, hkey, hhints, hfeatures⟩
      refine ⟨?_, ?_, hhints.symm, hfeatures.symm⟩
      · have hnat := congrArg UInt64.toNat htime
        rw [UInt64.toNat_ofNat_of_lt' ((Nat.mod_le _ _).trans_lt timestamp.toNat_lt)] at hnat
        omega
      · obtain ⟨bytes, hbytes⟩ := @payeeText_encoded codec payeePubkey
        exact ⟨bytes, hkey.symm.trans hbytes⟩
    · rintro ⟨htime, hkey, rfl, rfl⟩
      exact ⟨by rw [Nat.mod_eq_of_lt htime, UInt64.ofNat_toNat], encode_decode_hex hkey, rfl, rfl⟩

end Texts

section Witnesses

/-- Text that is read as it stands, and nothing of other bytes. -/
def strictUtf8 : LossyUtf8 where
  decode bytes := (String.fromUTF8? ⟨bytes.toArray⟩).getD ""
  valid := by
    intro s
    have hdata : (⟨(asBytes s).toArray⟩ : ByteArray) = s.toByteArray := by simp [asBytes]
    rw [hdata, String.fromUTF8?, dif_pos s.isValidUTF8]
    rfl

/-- An invoice over five coins for the key `02`. -/
def coffee : Invoice := ⟨Bytes32.zero, some 5, "coffee", 1700000000, 60, ['0', '2'], [], 1⟩

theorem coffee_fits : FieldsFit lowerHexCodec coffee where
  description := by decide +kernel
  payee := by decide +kernel

theorem coffee_read_back : FieldsFit lowerHexCodec coffee ∧
    decodeBolt11 lowerHexCodec strictUtf8 kelvinLower (encodeBolt11 lowerHexCodec coffee) =
      some { coffee with features := 0 } := by
  have hread := (@read_back_iff lowerHexCodec kelvinLower strictUtf8 kelvinLower_ascii coffee coffee_fits).1
  have hreturned : returned lowerHexCodec coffee = { coffee with features := 0 } := by decide +kernel
  rw [hreturned] at hread
  exact ⟨coffee_fits, hread⟩

end Witnesses

section Substitutions

variable {codec : HexCodec} {utf8 : LossyUtf8} {lower : Lowering} {hrp dataPart before after : List Char} {x c : Char}
  {i : Invoice}

/-- A changed character of the human-readable part whose high bits stay the same changes the register. -/
theorem residueOf_low_ne (hx : isAscii x) (hc : isAscii c) (hne : x ≠ c) (hhigh : asU8 x >>> 5 = asU8 c >>> 5)
    (symbols : List UInt8) : residueOf (before ++ x :: after) symbols ≠ residueOf (before ++ c :: after) symbols := by
  have hword : ∀ e : Char, asU8 x >>> 5 = asU8 e >>> 5 → residueOf (before ++ e :: after) symbols =
      run move 1 ((before.map (fun e => (asU8 e >>> 5).toNat) ++ (asU8 x >>> 5).toNat ::
        (after.map (fun e => (asU8 e >>> 5).toNat) ++ 0 :: before.map fun e => (asU8 e &&& 31).toNat)) ++
          [(asU8 e &&& 31).toNat] ++ (after.map (fun e => (asU8 e &&& 31).toNat) ++ symbols.map UInt8.toNat)) := by
    intro e he
    rw [residueOf_eq, he]
    congr 1
    simp [expand, Function.comp_def]
  have hlt : ∀ b : UInt8, ∀ d ∈ [(b &&& 31).toNat], d < 2 ^ 5 := by
    intro b d hd
    rw [List.mem_singleton.mp hd, low_toNat]
    omega
  rw [hword x rfl, hword c hhigh]
  refine run_burst_ne move_additive (by omega) move_shift move_lt move_eq_zero 1 _ _ rfl (by simp) (hlt _) (hlt _) ?_
  intro hlow
  rw [List.singleton_inj, low_toNat, low_toNat] at hlow
  have hhighNat := congrArg UInt8.toNat hhigh
  rw [high_toNat, high_toNat] at hhighNat
  have hbyte : asU8 x = asU8 c := UInt8.toNat_inj.mp (by omega)
  apply hne
  rw [← lowByte_of_ascii hx, ← lowByte_of_ascii hc, lowByte, lowByte, hbyte]

theorem residue_of_decodeBolt11 (hplain : (hrp ++ '1' :: dataPart).all isPlain) (hlower : LowersAscii lower)
    (hsep : '1' ∉ dataPart) (h : decodeBolt11 codec utf8 lower (hrp ++ '1' :: dataPart) = some i) :
    ∃ symbols, Writes dataPart symbols ∧ residueOf hrp symbols = bech32Const := by
  obtain ⟨amountText, amount, payload, -, -, hdata, hlt, -⟩ := (decodeBolt11_parts hplain hlower hsep).mp h
  have hresidue := (@residueOf_append_iff hrp payload _ bech32Const (by decide) (checksumOf_length hrp payload bech32Const)
    checksumOf_lt).mpr rfl
  rw [← bolt11Checksum_eq] at hresidue
  exact ⟨_, by rw [hdata]; exact writes_symbols (checked_lt hrp hlt), hresidue⟩

/-- What a number is read from: digits, of which a plus sign may stand in front. -/
theorem amount_chars {text : List Char} {amount : Option UInt64} (h : parseAmount text = some amount) :
    ∀ e ∈ text, isAscii e ∧ asU8 e >>> 5 = 1 := by
  have hdigit : ∀ e : Char, e.isDigit = true → isAscii e ∧ asU8 e >>> 5 = 1 := by
    intro e he
    have hascii := ascii_of_plain (digit_plain he)
    rw [Char.isDigit, Bool.and_eq_true, decide_eq_true_eq, decide_eq_true_eq] at he
    have hlow : 48 ≤ e.toNat := he.1
    have hhigh : e.toNat ≤ 57 := he.2
    have hbyte : (asU8 e).toNat = e.toNat := by
      rw [asU8, UInt8.toNat_ofNat']
      omega
    refine ⟨hascii, UInt8.toNat_inj.mp ?_⟩
    rw [high_toNat, hbyte]
    show e.toNat / 32 = 1
    omega
  unfold parseAmount at h
  split at h
  case isTrue hempty => simp [hempty]
  case isFalse hne =>
    obtain ⟨v, hv, -⟩ := Option.map_eq_some_iff.mp h
    have hall : ∀ e ∈ (if text.head? = some '+' then text.tail else text), e.isDigit = true := by
      unfold parseUnsigned at hv
      generalize (if text.head? = some '+' then text.tail else text) = digits at hv ⊢
      by_cases hbad : (digits.isEmpty || !digits.all Char.isDigit) = true
      · simp [hbad] at hv
      · rw [Bool.or_eq_true, not_or, Bool.not_eq_true', Bool.not_eq_false, List.all_eq_true] at hbad
        exact hbad.2
    intro e he
    by_cases hplus : text.head? = some '+'
    · rw [if_pos hplus] at hall
      obtain ⟨rest, rfl⟩ : ∃ rest, text = '+' :: rest := ⟨text.tail, (List.cons_head?_tail hplus).symm⟩
      obtain rfl | hin := List.mem_cons.mp he
      · exact ⟨by decide, by decide⟩
      · exact hdigit e (hall e hin)
    · rw [if_neg hplus] at hall
      exact hdigit e (hall e he)

theorem not_read_of_hrp (hlower : LowersAscii lower) (hplain : (before ++ x :: after ++ '1' :: dataPart).all isPlain)
    (hsep : '1' ∉ dataPart) (h : decodeBolt11 codec utf8 lower (before ++ x :: after ++ '1' :: dataPart) = some i)
    (hc : isPlain c) (hne : c ≠ x) :
    decodeBolt11 codec utf8 lower (before ++ c :: after ++ '1' :: dataPart) = none := by
  have hplain' : (before ++ c :: after ++ '1' :: dataPart).all isPlain := by
    simp only [List.all_append, List.all_cons, Bool.and_eq_true] at hplain ⊢
    exact ⟨⟨hplain.1.1, hc, hplain.1.2.2⟩, hplain.2⟩
  rw [Option.eq_none_iff_forall_ne_some]
  intro j hj
  obtain ⟨symbols, hwrites, hresidue⟩ := residue_of_decodeBolt11 hplain hlower hsep h
  obtain ⟨symbols', hwrites', hresidue'⟩ := residue_of_decodeBolt11 hplain' hlower hsep hj
  obtain rfl := hwrites.unique hwrites'
  obtain ⟨text, amount, -, htext, hamount, -⟩ := (decodeBolt11_parts hplain hlower hsep).mp h
  obtain ⟨text', amount', -, htext', hamount', -⟩ := (decodeBolt11_parts hplain' hlower hsep).mp hj
  have hx : ("lnkc".toList ++ text)[before.length]? = some x := by
    rw [← htext, List.getElem?_append_right le_rfl, Nat.sub_self]
    rfl
  have hc' : ("lnkc".toList ++ text')[before.length]? = some c := by
    rw [← htext', List.getElem?_append_right le_rfl, Nat.sub_self]
    rfl
  have hfar : ("lnkc".toList).length ≤ before.length := by
    by_contra hnear
    rw [List.getElem?_append_left (by omega)] at hx hc'
    rw [hx, Option.some.injEq] at hc'
    exact hne hc'.symm
  rw [List.getElem?_append_right hfar] at hx hc'
  obtain ⟨hxascii, hxhigh⟩ := amount_chars hamount x (List.mem_of_getElem? hx)
  obtain ⟨hcascii, hchigh⟩ := amount_chars hamount' c (List.mem_of_getElem? hc')
  exact residueOf_low_ne hxascii hcascii (fun heq => hne heq.symm) (hxhigh.trans hchigh.symm) symbols
    (hresidue.trans hresidue'.symm)

theorem not_read_of_data {xs ys : List Char} (hlower : LowersAscii lower)
    (hplain : (hrp ++ '1' :: (before ++ xs ++ after)).all isPlain) (hsep : '1' ∉ before ++ xs ++ after)
    (h : decodeBolt11 codec utf8 lower (hrp ++ '1' :: (before ++ xs ++ after)) = some i)
    (hlength : xs.length = ys.length) (hsix : xs.length ≤ 6) (hys : ys.all isPlain) (hone : '1' ∉ ys) (hne : xs ≠ ys) :
    decodeBolt11 codec utf8 lower (hrp ++ '1' :: (before ++ ys ++ after)) = none := by
  have hxs : xs.all isPlain := by
    simp only [List.all_append, List.all_cons, Bool.and_eq_true] at hplain
    exact hplain.2.2.1.2
  have hplain' : (hrp ++ '1' :: (before ++ ys ++ after)).all isPlain := by
    simp only [List.all_append, List.all_cons, Bool.and_eq_true] at hplain ⊢
    exact ⟨hplain.1, hplain.2.1, ⟨hplain.2.2.1.1, hys⟩, hplain.2.2.2⟩
  have hsep' : '1' ∉ before ++ ys ++ after := by
    simp only [List.mem_append, not_or] at hsep ⊢
    exact ⟨⟨hsep.1.1, hone⟩, hsep.2⟩
  rw [Option.eq_none_iff_forall_ne_some]
  intro j hj
  obtain ⟨symbols, hwrites, hresidue⟩ := residue_of_decodeBolt11 hplain hlower hsep h
  obtain ⟨symbols', hwrites', hresidue'⟩ := residue_of_decodeBolt11 hplain' hlower hsep' hj
  exact residueOf_written_ne hwrites hwrites' hlength hsix (all_ascii_of_plain hxs) (all_ascii_of_plain hys) hne
    (hresidue.trans hresidue'.symm)

/-- In a text that is read, no other character can stand for one of the name or the amount, and no others for
six of the data side by side. -/
theorem changed_not_read (hlower : LowersAscii lower) (hplain : (hrp ++ '1' :: dataPart).all isPlain)
    (hsep : '1' ∉ dataPart) (h : decodeBolt11 codec utf8 lower (hrp ++ '1' :: dataPart) = some i) :
    (∀ before x c after, hrp = before ++ x :: after → isPlain c → c ≠ x →
        decodeBolt11 codec utf8 lower (before ++ c :: after ++ '1' :: dataPart) = none) ∧
      ∀ before xs ys after, dataPart = before ++ xs ++ after → xs.length = ys.length → xs.length ≤ 6 →
        ys.all isPlain → '1' ∉ ys → xs ≠ ys →
          decodeBolt11 codec utf8 lower (hrp ++ '1' :: (before ++ ys ++ after)) = none := by
  constructor
  · rintro before x c after rfl hc hne
    exact not_read_of_hrp hlower hplain hsep h hc hne
  · rintro before xs ys after rfl hlength hsix hys hone hne
    exact not_read_of_data hlower hplain hsep h hlength hsix hys hone hne

theorem coffee_price_kept : decodeBolt11 lowerHexCodec strictUtf8 kelvinLower ("lnkc".toList ++ ['6'] ++ '1' ::
      (dataOf lowerHexCodec coffee ++
        bolt11Checksum ("lnkc".toList ++ ['5']) (dataOf lowerHexCodec coffee)).map symbolAt) = none := by
  have hread := @decodeBolt11_encodeBolt11 lowerHexCodec strictUtf8 kelvinLower kelvinLower_ascii coffee coffee_fits
  obtain ⟨hplain, hsep⟩ := @encodeBolt11_plain lowerHexCodec coffee
  exact (@changed_not_read lowerHexCodec strictUtf8 kelvinLower ("lnkc".toList ++ ['5']) _ _
    kelvinLower_ascii hplain hsep hread).1 "lnkc".toList '5' '6' [] rfl (by decide) (by decide)

end Substitutions

end KuberCoin.Invoices
