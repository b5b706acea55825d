import KuberCoin.TxEncodings

/-!
What the two encodings of a transaction, and the ids hashed from them, determine.
The marker of the encoding with witness data is the encoding of an empty input list, and its
flag the one of a single output: a transaction without inputs can have the bytes of one with
witness data, and this is the only way for two transactions to have the same bytes.
-/
namespace KuberCoin.TransactionIds

open Bytes Transactions TxEncodings

/-- All lengths are 64-bit numbers, those of the witness stacks too. -/
structure ShortLists (tx : Transaction) : Prop extends ShortFields tx where
  witnesses : ∀ i ∈ tx.inputs, i.witness.stack.length < 2 ^ 64
  items : ∀ i ∈ tx.inputs, ∀ item ∈ i.witness.stack, item.length < 2 ^ 64

/-- The encoding of the first, without inputs and with one output, can be read as one with witness data. -/
def Overlaps (tx tx' : Transaction) : Prop :=
  tx.inputs = [] ∧ tx.outputs.length = 1 ∧ tx'.hasWitness = true

section Encodings

variable {tx tx' : Transaction}

theorem serializeWitness_append_inj {v w : Witness} {x y : List UInt8}
    (hv : v.stack.length < 2 ^ 64 ∧ ∀ item ∈ v.stack, item.length < 2 ^ 64)
    (hw : w.stack.length < 2 ^ 64 ∧ ∀ item ∈ w.stack, item.length < 2 ^ 64)
    (h : Transaction.serializeWitness v ++ x = Transaction.serializeWitness w ++ y) : v = w ∧ x = y := by
  obtain ⟨stack⟩ := v
  obtain ⟨stack'⟩ := w
  simp only [Transaction.serializeWitness, List.append_assoc] at h
  obtain ⟨hcount, h⟩ := writeCompactSize_append_inj hv.1 hw.1 h
  have hone : ∀ a b x y : List UInt8, a.length < 2 ^ 64 → b.length < 2 ^ 64 →
      (writeCompactSize a.length ++ a) ++ x = (writeCompactSize b.length ++ b) ++ y → id a = id b ∧ x = y := by
    intro a b x y ha hb h
    rw [List.append_assoc, List.append_assoc] at h
    exact sized_append_inj ha hb h
  obtain ⟨hstack, hrest⟩ := flatMap_append_inj hone hv.2 hw.2 hcount h
  rw [List.map_id, List.map_id] at hstack
  exact ⟨congrArg Witness.mk hstack, hrest⟩

theorem eq_of_bareInput {i j : TxInput} (h : bareInput i = bareInput j) (hwitness : i.witness = j.witness) : i = j := by
  obtain ⟨prevOutput, scriptSig, sequence, witness⟩ := i
  obtain ⟨prevOutput', scriptSig', sequence', witness'⟩ := j
  simp only [bareInput, TxInput.mk.injEq, and_true] at h
  obtain ⟨rfl, rfl, rfl⟩ := h
  exact congrArg _ hwitness

theorem inputs_eq {l l' : List TxInput} (h : l.map bareInput = l'.map bareInput)
    (hwitness : l.map TxInput.witness = l'.map TxInput.witness) : l = l' := by
  have hlength : l.length = l'.length := by
    have hmap := congrArg List.length h
    rwa [List.length_map, List.length_map] at hmap
  apply List.ext_getElem hlength
  intro n hn hn'
  have hbare := List.getElem_of_eq h (by rwa [List.length_map])
  have hone := List.getElem_of_eq hwitness (by rwa [List.length_map])
  rw [List.getElem_map, List.getElem_map] at hbare hone
  exact eq_of_bareInput hbare hone

theorem eq_of_withoutWitness (hplain : tx.hasWitness = false) (hplain' : tx'.hasWitness = false)
    (h : withoutWitness tx = withoutWitness tx') : tx = tx' := by
  have hempty : ∀ {t : Transaction}, t.hasWitness = false → withoutWitness t = t := by
    intro t ht
    have hinput : ∀ i ∈ t.inputs, bareInput i = i := by
      intro i hi
      have hnone := List.any_eq_false.mp ht i hi
      have hstack : i.witness.stack = [] := by
        simpa [TxInput.hasWitness, Witness.isEmpty] using hnone
      exact eq_of_bareInput rfl (congrArg Witness.mk hstack.symm)
    rw [withoutWitness, List.map_congr_left hinput, List.map_id']
  rwa [hempty hplain, hempty hplain'] at h

theorem eq_of_witnesses (hs : ShortLists tx) (hs' : ShortLists tx') (hw : tx.hasWitness = true)
    (hw' : tx'.hasWitness = true) (h : tx.serializeWithWitness = tx'.serializeWithWitness) : tx = tx' := by
  rw [Transaction.serializeWithWitness, Transaction.serializeWithWitness, if_pos hw, if_pos hw'] at h
  obtain ⟨version, inputs, outputs, lockTime⟩ := tx
  obtain ⟨version', inputs', outputs', lockTime'⟩ := tx'
  simp only [List.append_assoc] at h
  obtain ⟨hversion, h⟩ := leBytes_append_inj version.toNat_lt version'.toNat_lt h
  obtain ⟨hinputs, houtputs, h⟩ := lists_append_inj hs.toShortFields hs'.toShortFields (List.append_cancel_left h)
  have hcount : inputs.length = inputs'.length := by
    have hmap := congrArg List.length hinputs
    rwa [List.length_map, List.length_map] at hmap
  have hone : ∀ i j : TxInput, ∀ x y : List UInt8,
      (i.witness.stack.length < 2 ^ 64 ∧ ∀ item ∈ i.witness.stack, item.length < 2 ^ 64) →
      (j.witness.stack.length < 2 ^ 64 ∧ ∀ item ∈ j.witness.stack, item.length < 2 ^ 64) →
      Transaction.serializeWitness i.witness ++ x = Transaction.serializeWitness j.witness ++ y →
      i.witness = j.witness ∧ x = y := fun i j x y hi hj h => serializeWitness_append_inj hi hj h
  obtain ⟨hwitnesses, hlock⟩ := flatMap_append_inj hone (fun i hi => ⟨hs.witnesses i hi, hs.items i hi⟩)
    (fun i hi => ⟨hs'.witnesses i hi, hs'.items i hi⟩) hcount h
  obtain rfl : version = version' := UInt32.toNat_inj.mp hversion
  obtain rfl : lockTime = lockTime' :=
    UInt32.toNat_inj.mp (leBytes_injective lockTime.toNat_lt lockTime'.toNat_lt hlock)
  obtain rfl : outputs = outputs' := houtputs
  have hsame : inputs = inputs' := inputs_eq hinputs hwitnesses
  rw [hsame]

/-- An encoding that goes on like one with witness data has no inputs and one output. -/
theorem overlaps_of_eq (hs : ShortFields tx) (hw : tx'.hasWitness = true)
    (h : tx.serializeNoWitness = tx'.serializeWithWitness) : Overlaps tx tx' := by
  rw [Transaction.serializeWithWitness, if_pos hw] at h
  obtain ⟨version, inputs, outputs, lockTime⟩ := tx
  simp only [Transaction.serializeNoWitness, List.append_assoc] at h
  obtain ⟨-, h⟩ := leBytes_append_inj version.toNat_lt tx'.version.toNat_lt h
  have hmarker : ∀ rest : List UInt8, [0x00, 0x01] ++ rest = writeCompactSize 0 ++ (writeCompactSize 1 ++ rest) :=
    fun _ => rfl
  rw [hmarker] at h
  obtain ⟨hnone, h⟩ := writeCompactSize_append_inj hs.inputs (by norm_num) h
  obtain rfl : inputs = [] := List.length_eq_zero_iff.mp hnone
  obtain ⟨hone, -⟩ := writeCompactSize_append_inj hs.outputs (by norm_num) h
  exact ⟨rfl, hone, hw⟩

end Encodings

section Ids

/-- Two byte strings do not have one double hash. -/
def Separates (sha256 : Sha256) (x y : List UInt8) : Prop := sha256d sha256 x = sha256d sha256 y → x = y

theorem wtxid_eq (sha256 : Sha256) (tx : Transaction) : tx.wtxid sha256 = sha256d sha256 tx.serializeWithWitness := by
  unfold Transaction.wtxid Transaction.serializeWithWitness
  split
  next => rfl
  next => rfl

/-- The encoding without witness data determines all but the witnesses, and the one with witness
data all, but where one transaction has no inputs, a single output, and the other has witness data. -/
theorem encodings_identify {tx tx' : Transaction} (hs : ShortLists tx) (hs' : ShortLists tx') :
    (tx.serializeNoWitness = tx'.serializeNoWitness → withoutWitness tx = withoutWitness tx') ∧
    (¬ Overlaps tx tx' → ¬ Overlaps tx' tx →
      (tx.serializeWithWitness = tx'.serializeWithWitness → tx = tx') ∧
      (tx'.hasWitness = true → tx.serializeNoWitness ≠ tx'.serializeWithWitness) ∧
      ∀ sha256, Separates sha256 tx.serializeWithWitness tx'.serializeWithWitness →
        tx.wtxid sha256 = tx'.wtxid sha256 → tx = tx') ∧
    ∀ sha256, Separates sha256 tx.serializeNoWitness tx'.serializeNoWitness →
      tx.txid sha256 = tx'.txid sha256 → withoutWitness tx = withoutWitness tx' := by
  have hplain := @withoutWitness_eq tx tx' hs.toShortFields hs'.toShortFields
  refine ⟨hplain, fun hno hno' => ?_, fun sha256 hsep hid => hplain (hsep hid)⟩
  have hmixed : ∀ {a b : Transaction}, ShortLists a → ¬ Overlaps a b → b.hasWitness = true →
      a.serializeNoWitness ≠ b.serializeWithWitness := fun ha hno hb h =>
    hno (overlaps_of_eq ha.toShortFields hb h)
  have hsegwit : tx.serializeWithWitness = tx'.serializeWithWitness → tx = tx' := by
    intro h
    cases hw : tx.hasWitness with
    | true =>
      cases hw' : tx'.hasWitness with
      | true => exact eq_of_witnesses hs hs' hw hw' h
      | false =>
        rw [show tx'.serializeWithWitness = tx'.serializeNoWitness by simp [Transaction.serializeWithWitness, hw']] at h
        exact absurd h.symm (hmixed hs' hno' hw)
    | false =>
      rw [show tx.serializeWithWitness = tx.serializeNoWitness by simp [Transaction.serializeWithWitness, hw]] at h
      cases hw' : tx'.hasWitness with
      | true => exact absurd h (hmixed hs hno hw')
      | false =>
        rw [show tx'.serializeWithWitness = tx'.serializeNoWitness by simp [Transaction.serializeWithWitness, hw']] at h
        exact eq_of_withoutWitness hw hw' (hplain h)
  refine ⟨hsegwit, fun hw => hmixed hs hno hw, fun sha256 hsep hid => ?_⟩
  rw [wtxid_eq, wtxid_eq] at hid
  exact hsegwit (hsep hid)

/-- A spend of one input, with an empty item as its witness. -/
def spend : Transaction where
  version := 1
  inputs := [⟨⟨⟨List.replicate 7 0 ++ 36 :: List.replicate 24 0, rfl⟩, 0⟩, [], 0, ⟨[[]]⟩⟩]
  outputs := []
  lockTime := 0

/-- The same without a witness. -/
def payment : Transaction := { spend with inputs := spend.inputs.map bareInput }

theorem spend_and_payment_differ : spend.serializeNoWitness = payment.serializeNoWitness ∧
    spend.serializeWithWitness ≠ payment.serializeWithWitness := by
  have hspend : ShortLists spend := ⟨⟨by decide, by decide, by decide, by decide⟩, by decide, by decide⟩
  have hpayment : ShortLists payment := ⟨⟨by decide, by decide, by decide, by decide⟩, by decide, by decide⟩
  have hsame := ((encodings_identify hspend hpayment).2.1 (by simp [Overlaps, spend])
    (by simp [Overlaps, spend, payment])).1
  exact ⟨by decide, fun h => absurd (hsame h) (by decide)⟩

/-- A transaction without inputs, with one output. -/
def grant : Transaction where
  version := 1
  inputs := []
  outputs := [⟨1, List.replicate 34 0 ++ [1, 0]⟩]
  lockTime := 0

/-- The two have the same bytes. -/
theorem grant_read_as_spend :
    spend.serializeWithWitness = grant.serializeWithWitness ∧ grant.hasWitness = false ∧ spend ≠ grant := by
  decide

end Ids

end KuberCoin.TransactionIds
