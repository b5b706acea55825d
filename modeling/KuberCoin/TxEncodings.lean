import KuberCoin.UtxoCodec

/-!
The wire encoding of a transaction without witness data determines everything else of it.
Each part is cancelled from the front of two equal encodings; what remains is equal again.
-/
namespace KuberCoin.TxEncodings

open Bytes Transactions UtxoCodec

/-- An input without its witness. -/
def bareInput (i : TxInput) : TxInput := { i with witness := Witness.empty }

/-- A transaction without witness data. -/
def withoutWitness (tx : Transaction) : Transaction := { tx with inputs := tx.inputs.map bareInput }

/-- All lengths are 64-bit numbers. -/
structure ShortFields (tx : Transaction) : Prop where
  inputs : tx.inputs.length < 2 ^ 64
  outputs : tx.outputs.length < 2 ^ 64
  scriptSigs : ∀ i ∈ tx.inputs, i.scriptSig.length < 2 ^ 64
  scriptPubkeys : ∀ o ∈ tx.outputs, o.scriptPubkey.length < 2 ^ 64

theorem writeCompactSize_eq {n : ℕ} (h : n < 2 ^ 64) : writeCompactSize n = encodeVarint (UInt64.ofNat n) := by
  have hnat : (UInt64.ofNat n).toNat = n := by rw [UInt64.toNat_ofNat', Nat.mod_eq_of_lt h]
  have hle : ∀ m : UInt64, UInt64.ofNat n ≤ m ↔ n ≤ m.toNat := by
    intro m
    rw [UInt64.le_iff_toNat_le, hnat]
  have hsmall : UInt64.ofNat n ≤ 0xFC ↔ n < 0xfd := by
    rw [hle]
    exact Nat.lt_succ_iff.symm
  have hmiddle : UInt64.ofNat n ≤ 0xFFFF ↔ n ≤ 0xffff := hle _
  have hlarge : UInt64.ofNat n ≤ 0xFFFFFFFF ↔ n ≤ 0xffffffff := hle _
  have hbyte : (UInt64.ofNat n).toUInt8 = UInt8.ofNat n := by
    apply UInt8.toNat_inj.mp
    rw [UInt64.toNat_toUInt8, hnat, UInt8.toNat_ofNat']
  unfold writeCompactSize encodeVarint
  simp only [hsmall, hmiddle, hlarge, hnat, hbyte]

theorem writeCompactSize_append_inj {m n : ℕ} {x y : List UInt8} (hm : m < 2 ^ 64) (hn : n < 2 ^ 64)
    (h : writeCompactSize m ++ x = writeCompactSize n ++ y) : m = n ∧ x = y := by
  rw [writeCompactSize_eq hm, writeCompactSize_eq hn] at h
  have hread := congrArg decodeVarint h
  rw [decodeVarint_encodeVarint, decodeVarint_encodeVarint, Option.some.injEq, Prod.mk.injEq] at hread
  have hvalue := congrArg UInt64.toNat hread.1
  rw [UInt64.toNat_ofNat', UInt64.toNat_ofNat', Nat.mod_eq_of_lt hm, Nat.mod_eq_of_lt hn] at hvalue
  subst hvalue
  exact ⟨rfl, List.append_cancel_left h⟩

/-- A byte string behind its length. -/
theorem sized_append_inj {a b x y : List UInt8} (ha : a.length < 2 ^ 64) (hb : b.length < 2 ^ 64)
    (h : writeCompactSize a.length ++ (a ++ x) = writeCompactSize b.length ++ (b ++ y)) : a = b ∧ x = y := by
  obtain ⟨hlen, hrest⟩ := writeCompactSize_append_inj ha hb h
  exact List.append_inj hrest hlen

theorem leBytes_append_inj {width m n : ℕ} {x y : List UInt8} (hm : m < 256 ^ width) (hn : n < 256 ^ width)
    (h : leBytes width m ++ x = leBytes width n ++ y) : m = n ∧ x = y := by
  obtain ⟨hbytes, hrest⟩ := List.append_inj h (by rw [leBytes_length, leBytes_length])
  exact ⟨leBytes_injective hm hn hbytes, hrest⟩

theorem serializeInput_append_inj {i j : TxInput} {x y : List UInt8} (hi : i.scriptSig.length < 2 ^ 64)
    (hj : j.scriptSig.length < 2 ^ 64) (h : Transaction.serializeInput i ++ x = Transaction.serializeInput j ++ y) :
    bareInput i = bareInput j ∧ x = y := by
  obtain ⟨⟨txid₁, vout₁⟩, sig₁, seq₁, w₁⟩ := i
  obtain ⟨⟨txid₂, vout₂⟩, sig₂, seq₂, w₂⟩ := j
  simp only [Transaction.serializeInput, List.append_assoc] at h
  obtain ⟨htxid, h⟩ := List.append_inj h (by rw [txid₁.length_eq, txid₂.length_eq])
  obtain ⟨hvout, h⟩ := leBytes_append_inj vout₁.toNat_lt vout₂.toNat_lt h
  obtain ⟨hsig, h⟩ := sized_append_inj hi hj h
  obtain ⟨hseq, h⟩ := leBytes_append_inj seq₁.toNat_lt seq₂.toNat_lt h
  refine ⟨?_, h⟩
  have e₁ : txid₁ = txid₂ := Bytes32.ext_bytes htxid
  have e₂ : vout₁ = vout₂ := UInt32.toNat_inj.mp hvout
  have e₃ : seq₁ = seq₂ := UInt32.toNat_inj.mp hseq
  have e₄ : sig₁ = sig₂ := hsig
  rw [e₁, e₂, e₃, e₄]
  rfl

theorem serializeOutput_append_inj {o p : TxOutput} {x y : List UInt8} (ho : o.scriptPubkey.length < 2 ^ 64)
    (hp : p.scriptPubkey.length < 2 ^ 64)
    (h : Transaction.serializeOutput o ++ x = Transaction.serializeOutput p ++ y) : o = p ∧ x = y := by
  obtain ⟨value₁, spk₁⟩ := o
  obtain ⟨value₂, spk₂⟩ := p
  simp only [Transaction.serializeOutput, List.append_assoc] at h
  obtain ⟨hvalue, h⟩ := leBytes_append_inj value₁.toNat_lt value₂.toNat_lt h
  obtain ⟨hspk, h⟩ := sized_append_inj ho hp h
  refine ⟨?_, h⟩
  have e₁ : value₁ = value₂ := UInt64.toNat_inj.mp hvalue
  have e₂ : spk₁ = spk₂ := hspk
  rw [e₁, e₂]

theorem flatMap_append_inj {α β : Type} {encode : α → List UInt8} {image : α → β} {short : α → Prop}
    (hone : ∀ a b x y, short a → short b → encode a ++ x = encode b ++ y → image a = image b ∧ x = y) {l₁ l₂ : List α}
    {x y : List UInt8} (h₁ : ∀ a ∈ l₁, short a) (h₂ : ∀ a ∈ l₂, short a) (hlen : l₁.length = l₂.length)
    (h : l₁.flatMap encode ++ x = l₂.flatMap encode ++ y) : l₁.map image = l₂.map image ∧ x = y := by
  induction l₁ generalizing l₂ with
  | nil =>
    obtain rfl := List.length_eq_zero_iff.mp hlen.symm
    exact ⟨rfl, h⟩
  | cons a rest₁ ih =>
    cases l₂ with
    | nil => simp at hlen
    | cons b rest₂ =>
      rw [List.flatMap_cons, List.flatMap_cons, List.append_assoc, List.append_assoc] at h
      rw [List.forall_mem_cons] at h₁ h₂
      obtain ⟨hhead, htail⟩ := hone a b _ _ h₁.1 h₂.1 h
      obtain ⟨hrest, hxy⟩ := ih h₁.2 h₂.2 (by simpa using hlen) htail
      rw [List.map_cons, List.map_cons, hhead, hrest]
      exact ⟨rfl, hxy⟩

theorem lists_append_inj {tx tx' : Transaction} {x y : List UInt8} (hs : ShortFields tx) (hs' : ShortFields tx')
    (h : writeCompactSize tx.inputs.length ++ (tx.inputs.flatMap Transaction.serializeInput ++
        (writeCompactSize tx.outputs.length ++ (tx.outputs.flatMap Transaction.serializeOutput ++ x))) =
      writeCompactSize tx'.inputs.length ++ (tx'.inputs.flatMap Transaction.serializeInput ++
        (writeCompactSize tx'.outputs.length ++ (tx'.outputs.flatMap Transaction.serializeOutput ++ y)))) :
    tx.inputs.map bareInput = tx'.inputs.map bareInput ∧ tx.outputs = tx'.outputs ∧ x = y := by
  obtain ⟨hcount, h⟩ := writeCompactSize_append_inj hs.inputs hs'.inputs h
  obtain ⟨hinputs, h⟩ := flatMap_append_inj (fun i j x y hi hj => serializeInput_append_inj hi hj)
    hs.scriptSigs hs'.scriptSigs hcount h
  obtain ⟨hcount', h⟩ := writeCompactSize_append_inj hs.outputs hs'.outputs h
  obtain ⟨houtputs, h⟩ := @flatMap_append_inj _ _ _ id _
    (fun o p x y ho hp => serializeOutput_append_inj ho hp) _ _ _ _ hs.scriptPubkeys
    hs'.scriptPubkeys hcount' h
  rw [List.map_id, List.map_id] at houtputs
  exact ⟨hinputs, houtputs, h⟩

theorem withoutWitness_eq {tx tx' : Transaction} (hs : ShortFields tx) (hs' : ShortFields tx')
    (h : tx.serializeNoWitness = tx'.serializeNoWitness) : withoutWitness tx = withoutWitness tx' := by
  obtain ⟨version, inputs, outputs, lockTime⟩ := tx
  obtain ⟨version', inputs', outputs', lockTime'⟩ := tx'
  simp only [Transaction.serializeNoWitness, List.append_assoc] at h
  obtain ⟨hversion, h⟩ := leBytes_append_inj version.toNat_lt version'.toNat_lt h
  obtain ⟨hinputs, houtputs, h⟩ := lists_append_inj hs hs' h
  have e₁ : version = version' := UInt32.toNat_inj.mp hversion
  have e₂ : lockTime = lockTime' :=
    UInt32.toNat_inj.mp (leBytes_injective lockTime.toNat_lt lockTime'.toNat_lt h)
  have e₃ : outputs = outputs' := houtputs
  have e₄ : inputs.map bareInput = inputs'.map bareInput := hinputs
  simp only [withoutWitness]
  rw [e₁, e₂, e₃, e₄]

end KuberCoin.TxEncodings
