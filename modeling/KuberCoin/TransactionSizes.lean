import KuberCoin.PoolRejections
import KuberCoin.WireBlocks

/-!
The sizes of a transaction. `base_size` and `total_size` add up lengths by their own
arithmetic, and agree with the two serializers. Block assembly counts four times the
`bincode` size instead, in which every length takes eight bytes, so it never counts less
than the weight.
-/
namespace KuberCoin.TransactionSizes

open Bytes Transactions Sighashes Mempools Mempools.Mempool PoolAccounting PoolEvictions PoolRejections WireBlocks

/-- `Transaction::weight`. -/
def weight (tx : Transaction) : ℕ := tx.baseSize * 3 + tx.totalSize

/-- Every length that is written fits into 32 bits. -/
structure ShortLengths (tx : Transaction) : Prop where
  inputs : tx.inputs.length < 2 ^ 32
  outputs : tx.outputs.length < 2 ^ 32
  scriptSigs : ∀ i ∈ tx.inputs, i.scriptSig.length < 2 ^ 32
  witnesses : ∀ i ∈ tx.inputs, i.witness.stack.length < 2 ^ 32
  items : ∀ i ∈ tx.inputs, ∀ item ∈ i.witness.stack, item.length < 2 ^ 32
  scriptPubkeys : ∀ o ∈ tx.outputs, o.scriptPubkey.length < 2 ^ 32

section Serializers

theorem writeCompactSize_length (n : ℕ) : (writeCompactSize n).length = compactSizeLen n := by
  unfold writeCompactSize compactSizeLen
  split_ifs <;> simp [leBytes_length]

theorem serializeInput_length (i : TxInput) : (Transaction.serializeInput i).length = inputBase i := by
  unfold Transaction.serializeInput inputBase
  simp only [List.length_append, leBytes_length, writeCompactSize_length, i.prevOutput.txid.length_eq]

theorem serializeOutput_length (o : TxOutput) :
    (Transaction.serializeOutput o).length = 8 + compactSizeLen o.scriptPubkey.length + o.scriptPubkey.length := by
  unfold Transaction.serializeOutput
  simp only [List.length_append, leBytes_length, writeCompactSize_length]

theorem serializeWitness_length (w : Witness) : (Transaction.serializeWitness w).length = w.size := by
  have hitems := length_flatMap_eq (fun item : List UInt8 => writeCompactSize item.length ++ item)
    (fun item => compactSizeLen item.length + item.length) w.stack
    (fun item => by rw [List.length_append, writeCompactSize_length])
  unfold Transaction.serializeWitness Witness.size
  rw [List.length_append, writeCompactSize_length, hitems]

theorem serializeNoWitness_length (tx : Transaction) : tx.serializeNoWitness.length = tx.baseSize := by
  have hinputs := length_flatMap_eq Transaction.serializeInput inputBase tx.inputs serializeInput_length
  have houtputs := length_flatMap_eq Transaction.serializeOutput
    (fun o => 8 + compactSizeLen o.scriptPubkey.length + o.scriptPubkey.length) tx.outputs serializeOutput_length
  have hbase : tx.baseSize = 8 + compactSizeLen tx.inputs.length + (tx.inputs.map inputBase).sum +
      compactSizeLen tx.outputs.length +
        (tx.outputs.map fun o => 8 + compactSizeLen o.scriptPubkey.length + o.scriptPubkey.length).sum := rfl
  unfold Transaction.serializeNoWitness
  simp only [List.length_append, leBytes_length, writeCompactSize_length, hinputs, houtputs]
  omega

theorem serializeWithWitness_length (tx : Transaction) : tx.serializeWithWitness.length = tx.totalSize := by
  have hstacks := length_flatMap_eq (fun i : TxInput => Transaction.serializeWitness i.witness)
    (fun i => i.witness.size) tx.inputs (fun i => serializeWitness_length i.witness)
  have hplain := serializeNoWitness_length tx
  unfold Transaction.serializeWithWitness Transaction.totalSize
  split
  · unfold Transaction.serializeNoWitness at hplain
    simp only [List.length_append, List.length_cons, List.length_nil, leBytes_length] at hplain ⊢
    rw [hstacks]
    omega
  · exact hplain

end Serializers

section Weights

theorem compactSizeLen_short {n : ℕ} (h : n < 2 ^ 32) : compactSizeLen n ≤ 5 := by
  unfold compactSizeLen
  split_ifs <;> omega

theorem witnessSize_le {w : Witness} (hstack : w.stack.length < 2 ^ 32)
    (hitems : ∀ item ∈ w.stack, item.length < 2 ^ 32) : w.size ≤ 5 + (w.stack.map fun item => 8 + item.length).sum := by
  have hcount := compactSizeLen_short hstack
  have hsum : (w.stack.map fun item => compactSizeLen item.length + item.length).sum ≤
      (w.stack.map fun item => 8 + item.length).sum := by
    apply List.sum_le_sum
    intro item hitem
    have := compactSizeLen_short (hitems item hitem)
    omega
  unfold Witness.size
  omega

theorem inputWeight_le {i : TxInput} (hscript : i.scriptSig.length < 2 ^ 32) (hstack : i.witness.stack.length < 2 ^ 32)
    (hitems : ∀ item ∈ i.witness.stack, item.length < 2 ^ 32) :
    4 * inputBase i + i.witness.size ≤ 4 * inputBytes i := by
  have hlen := compactSizeLen_short hscript
  have hwitness := witnessSize_le hstack hitems
  unfold inputBase inputBytes
  omega

theorem outputWeight_le {o : TxOutput} (hscript : o.scriptPubkey.length < 2 ^ 32) :
    4 * (8 + compactSizeLen o.scriptPubkey.length + o.scriptPubkey.length) ≤ 4 * outputBytes o := by
  have hlen := compactSizeLen_short hscript
  unfold outputBytes
  omega

theorem weight_le {tx : Transaction} (h : ShortLengths tx) : weight tx ≤ 4 * txSize tx := by
  have hinputs : (tx.inputs.map fun i => 4 * inputBase i + i.witness.size).sum ≤
      (tx.inputs.map fun i => 4 * inputBytes i).sum :=
    List.sum_le_sum fun i hi => inputWeight_le (h.scriptSigs i hi) (h.witnesses i hi) (h.items i hi)
  have houtputs : (tx.outputs.map fun o =>
      4 * (8 + compactSizeLen o.scriptPubkey.length + o.scriptPubkey.length)).sum ≤
      (tx.outputs.map fun o => 4 * outputBytes o).sum :=
    List.sum_le_sum fun o ho => outputWeight_le (h.scriptPubkeys o ho)
  rw [List.sum_map_add, List.sum_map_mul_left, List.sum_map_mul_left] at hinputs
  rw [List.sum_map_mul_left, List.sum_map_mul_left] at houtputs
  have hincount := compactSizeLen_short h.inputs
  have houtcount := compactSizeLen_short h.outputs
  have hbase : tx.baseSize = 8 + compactSizeLen tx.inputs.length + (tx.inputs.map inputBase).sum +
      compactSizeLen tx.outputs.length +
        (tx.outputs.map fun o => 8 + compactSizeLen o.scriptPubkey.length + o.scriptPubkey.length).sum := rfl
  have htotal : tx.totalSize ≤ tx.baseSize + 2 + (tx.inputs.map fun i => i.witness.size).sum := by
    unfold Transaction.totalSize
    split <;> omega
  have hsize : txSize tx = transactionBytes tx := bincodeTransaction_length tx
  rw [hsize]
  unfold weight transactionBytes
  omega

theorem entries_weight_le {sha256 : Sha256} {m : Mempool} (h : Accounted sha256 m) {entries : List MempoolEntry}
    (hentries : ∀ e ∈ entries, (∃ txid, m.transactions.lookup txid = some e) ∧ ShortLengths e.tx) :
    (entries.map fun e => weight e.tx).sum ≤ (entries.map fun e => 4 * e.size).sum := by
  apply List.sum_le_sum
  intro e he
  obtain ⟨⟨txid, hlookup⟩, hshort⟩ := hentries e he
  rw [h.sized txid e hlookup]
  exact weight_le hshort

/-- The size formulas agree with the serializers, four times the `bincode` size bounds the weight, and so
entries of a pool that fit into a budget by their sizes fit into it by their weights. -/
theorem sizes_match_serializers {tx : Transaction} (h : ShortLengths tx) (rates : FeeRates) (sha256 : Sha256)
    (maxSize : ℕ) (ops : List Op) {entries : List MempoolEntry} {budget : ℕ} (hentries : ∀ e ∈ entries,
      (∃ txid, (run rates sha256 maxSize ops).transactions.lookup txid = some e) ∧ ShortLengths e.tx)
    (hbudget : (entries.map fun e => 4 * e.size).sum ≤ budget) :
    tx.baseSize = tx.serializeNoWitness.length ∧ tx.totalSize = tx.serializeWithWitness.length ∧
      weight tx ≤ 4 * txSize tx ∧ (entries.map fun e => weight e.tx).sum ≤ budget :=
  ⟨(serializeNoWitness_length tx).symm, (serializeWithWitness_length tx).symm, weight_le h,
    (entries_weight_le (accounted_run rates sha256 maxSize ops).1 hentries).trans hbudget⟩

theorem childTx_sizes :
    childTx.baseSize = childTx.serializeNoWitness.length ∧ childTx.totalSize = childTx.serializeWithWitness.length ∧
      weight childTx ≤ 4 * txSize childTx ∧
      ([newEntry (callAt 0) childTx 1000 ∅].map fun e => weight e.tx).sum ≤ 320 := by
  have hshort : ShortLengths childTx := ⟨by decide, by decide, by decide, by decide, by decide, by decide⟩
  have hbudget : ([newEntry (callAt 0) childTx 1000 ∅].map fun e => 4 * e.size).sum ≤ 320 := by
    change 4 * txSize childTx + 0 ≤ 320
    have hsize := txSize_samples.1
    omega
  refine sizes_match_serializers hshort exactRates Sha256.sha256 80 [.addTransactionWithFee (callAt 0) childTx 1000]
    ?_ hbudget
  intro e he
  rw [List.mem_singleton.mp he, smallPool_run]
  exact ⟨⟨childTx.txid Sha256.sha256, Finmap.lookup_insert _⟩, hshort⟩

end Weights

end KuberCoin.TransactionSizes
