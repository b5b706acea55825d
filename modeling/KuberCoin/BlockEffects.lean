import KuberCoin.Validator
import KuberCoin.Sha256

/-!
What an accepted block does to the UTXO set it was validated against.
`Validated` collects the facts validation establishes. From them: when a validated
block applies, how the set's entries and its total value change, and that every
input spends a mature entry of the set before the block.
-/
namespace KuberCoin.BlockEffects

open Bytes Maps Transactions Blocks UtxoSets Params Validator

section Values

/-- The value of the entry an outpoint names, zero if there is none. -/
def valueAt (u : UtxoSet) (o : OutPoint) : ℕ :=
  match u.lookup o with
  | some c => c.output.value.toNat
  | none => 0

/-- The exact value a transaction's inputs carry. -/
def inputValue (u : UtxoSet) (tx : Transaction) : ℕ :=
  (tx.inputs.map fun i => valueAt u i.prevOutput).sum

/-- The exact value of a transaction's outputs. -/
def outputValue (tx : Transaction) : ℕ := (tx.outputs.map fun o => o.value.toNat).sum

/-- The exact value of all entries of a set. -/
def supply (u : UtxoSet) : ℕ := total (fun c => c.output.value.toNat) u

theorem sum_toNat (l : List UInt64) : l.sum.toNat = (l.map UInt64.toNat).sum % 2 ^ 64 := by
  induction l with
  | nil => rfl
  | cons a rest ih => rw [List.sum_cons, UInt64.toNat_add, ih, List.map_cons, List.sum_cons, Nat.add_mod_mod]

theorem checkedAdd_eq_some {a b c : UInt64} (h : Transaction.checkedAdd a b = some c) :
    c.toNat = a.toNat + b.toNat := by
  unfold Transaction.checkedAdd at h
  split at h
  · rename_i hlt
    rw [← Option.some.inj h, UInt64.toNat_add, Nat.mod_eq_of_lt hlt]
  · simp at h

private theorem foldlM_checkedAdd {outs : List TxOutput} {acc v : UInt64}
    (h : outs.foldlM (fun acc o => Transaction.checkedAdd acc o.value) acc = some v) :
    v.toNat = acc.toNat + (outs.map fun o => o.value.toNat).sum := by
  induction outs generalizing acc with
  | nil =>
    simp only [List.foldlM_nil, Option.pure_def, Option.some.injEq] at h
    simp [h]
  | cons o rest ih =>
    simp only [List.foldlM_cons, Option.bind_eq_bind, Option.bind_eq_some_iff] at h
    obtain ⟨acc', hadd, hrest⟩ := h
    rw [ih hrest, checkedAdd_eq_some hadd, List.map_cons, List.sum_cons, Nat.add_assoc]

theorem totalOutputValue_eq_some {tx : Transaction} {v : UInt64} (h : tx.totalOutputValue = some v) :
    v.toNat = outputValue tx := by
  have := foldlM_checkedAdd h
  simpa [outputValue] using this

end Values

section CheckedTransactions

variable {tx : Transaction}

/-- What validation establishes about a transaction that is not a coinbase. -/
structure TxChecked (u : UtxoSet) (height : ℕ) (tx : Transaction) : Prop where
  present : ∀ i ∈ tx.inputs, ∃ c, u.lookup i.prevOutput = some c ∧
    (c.isCoinbase = true → c.height + coinbaseMaturity ≤ height)
  small : inputValue u tx < 2 ^ 64
  balanced : outputValue tx ≤ inputValue u tx

variable {checks : ScriptChecks} {clock : UInt64} {u : UtxoSet} {height : ℕ}
  {mtp : Option (ℕ → UInt64)}

theorem getUtxo_eq_ok_iff {o : OutPoint} {c : UTXO} : getUtxo u o = .ok c ↔ u.lookup o = some c := by
  unfold getUtxo
  cases u.lookup o <;> simp

theorem validateInputs_ok {amounts : List UInt64} {scripts : List (List UInt8)} {index : ℕ} {sum total : UInt64}
    {inputs : List TxInput} (h : validateInputs checks tx u height mtp amounts scripts index sum inputs = .ok total) :
    (∀ i ∈ inputs, ∃ c, u.lookup i.prevOutput = some c ∧
      ¬ (c.isCoinbase ∧ height < c.height + 100) ∧ sequenceLockMet mtp height tx i c = true) ∧
      total.toNat = sum.toNat + (inputs.map fun i => valueAt u i.prevOutput).sum := by
  induction inputs generalizing index sum with
  | nil =>
    simp only [validateInputs, Except.ok.injEq] at h
    simp [h]
  | cons i rest ih =>
    simp only [validateInputs, bind_eq_ok_iff, getUtxo_eq_ok_iff, require_eq_ok_iff] at h
    obtain ⟨c, hc, -, hmature, -, hseq, -, -, hsum⟩ := h
    split at hsum
    · rename_i sum' hadd
      obtain ⟨hrest, htotal⟩ := ih hsum
      refine ⟨?_, ?_⟩
      · rw [List.forall_mem_cons]
        exact ⟨⟨c, hc, hmature, hseq⟩, hrest⟩
      · rw [htotal, checkedAdd_eq_some hadd, List.map_cons, List.sum_cons, Nat.add_assoc]
        simp [valueAt, hc]
    · simp at hsum

theorem validateTransactionCached_ok (hcb : tx.isCoinbase = false)
    (h : validateTransactionCached checks clock tx u height mtp = .ok ()) : TxChecked u height tx := by
  simp only [validateTransactionCached, hcb, Bool.false_eq_true, if_false, bind_eq_ok_iff] at h
  obtain ⟨-, -, -, -, -, -, spent, -, inputSum, hinputs, hout⟩ := h
  obtain ⟨hpresent, hsum⟩ := validateInputs_ok hinputs
  have hvalue : inputSum.toNat = inputValue u tx := by
    simpa [inputValue] using hsum
  split at hout
  · simp at hout
  · rename_i outputSum htotal
    have hle : outputSum.toNat ≤ inputSum.toNat :=
      UInt64.le_iff_toNat_le.mp (require_eq_ok_iff.mp hout)
    refine ⟨?_, ?_, ?_⟩
    · intro i hi
      obtain ⟨c, hc, hmature, -⟩ := hpresent i hi
      refine ⟨c, hc, ?_⟩
      intro hcb
      have : ¬ height < c.height + 100 := fun hlt => hmature ⟨hcb, hlt⟩
      unfold coinbaseMaturity
      omega
    · rw [← hvalue]
      exact inputSum.toNat_lt
    · rwa [← hvalue, ← totalOutputValue_eq_some htotal]

private theorem prevout_values {inputs : List TxInput} (h : ∀ i ∈ inputs, ∃ c, u.lookup i.prevOutput = some c) :
    (inputs.filterMap fun i => (u.lookup i.prevOutput).map fun c => c.output.value).map
      UInt64.toNat = inputs.map fun i => valueAt u i.prevOutput := by
  induction inputs with
  | nil => rfl
  | cons i rest ih =>
    obtain ⟨c, hc⟩ := h i (by simp)
    have hrest := ih (fun j hj => h j (List.mem_cons_of_mem _ hj))
    rw [List.filterMap_cons_some (by rw [hc]; rfl), List.map_cons, List.map_cons, hrest]
    simp [valueAt, hc]

theorem txFee_toNat (h : TxChecked u height tx) : (txFee u tx).toNat = inputValue u tx - outputValue tx := by
  have hin := @prevout_values u tx.inputs (by
    intro i hi
    obtain ⟨c, hc, -⟩ := h.present i hi
    exact ⟨c, hc⟩)
  have hsmall := h.small
  have hbalanced := h.balanced
  unfold inputValue at hsmall hbalanced ⊢
  unfold txFee
  rw [saturatingSub_toNat, sum_toNat, sum_toNat, hin, Nat.mod_eq_of_lt hsmall, List.map_map]
  unfold outputValue at hbalanced ⊢
  have hout : (tx.outputs.map (UInt64.toNat ∘ TxOutput.value)).sum =
      (tx.outputs.map fun o => o.value.toNat).sum := rfl
  rw [hout, Nat.mod_eq_of_lt (by omega)]

end CheckedTransactions

/-- What validation establishes about a block. -/
structure Validated (sha256 : Sha256) (b : Block) (u : UtxoSet) (coinbase : Transaction)
    (txs : List Transaction) : Prop where
  split : b.transactions = coinbase :: txs
  few : ∀ tx ∈ b.transactions, tx.outputs.length ≤ 2 ^ 32
  fresh : ∀ tx ∈ b.transactions, ∀ o ∈ created sha256 tx, u.lookup o = none
  first : coinbase.isCoinbase = true
  others : ∀ tx ∈ txs, tx.isCoinbase = false
  checked : ∀ tx ∈ txs, TxChecked u b.header.height tx
  nodup : (spentOutpoints txs).Nodup
  reward : (coinbase.outputs.map TxOutput.value).sum ≤ maxCoinbaseValue u b.header.height txs

section Validated

variable {sha256 : Sha256} {checks : ScriptChecks} {clock : UInt64} {u : UtxoSet} {b : Block}
  {mtp : Option (ℕ → UInt64)}

theorem validateBlockCached_ok (h : validateBlockCached sha256 checks clock b u mtp = .ok ()) :
    ∃ coinbase txs, Validated sha256 b u coinbase txs := by
  unfold validateBlockCached validateBlockFull at h
  cases htxs : b.transactions with
  | nil => simp [htxs] at h
  | cons coinbase txs =>
    simp only [htxs, Bool.false_eq_true, if_false, bind_eq_ok_iff, require_eq_ok_iff,
      forEach_eq_ok_iff] at h
    obtain ⟨-, hweight, -, -, -, -, -, hfresh, -, hfirst, -, hothers, -, -, -, hchecked, -, -,
      -, hnodup, -, hreward, -⟩ := h
    have hothers' : ∀ tx ∈ txs, tx.isCoinbase = false := by
      intro tx htx
      have := List.all_eq_true.mp hothers tx htx
      simpa using this
    refine ⟨coinbase, txs, htxs, ?_, ?_, hfirst, hothers', ?_, hnodup, hreward⟩
    · intro tx htx
      have := outputs_le_weight b tx htx
      unfold maxBlockWeight at hweight
      omega
    · intro tx htx o ho
      rw [htxs] at htx
      obtain ⟨i, hi, rfl⟩ := (mem_created_iff sha256 tx o).mp ho
      have hall := List.all_eq_true.mp (List.all_eq_true.mp hfresh tx htx) i (List.mem_range.mpr hi)
      simpa using hall
    · intro tx htx
      exact validateTransactionCached_ok (hothers' tx htx) (hchecked tx htx)

end Validated

section Lookups

variable {sha256 : Sha256} {height : ℕ} {u u' : UtxoSet} {tx : Transaction} {undo : TxUndoData} {o : OutPoint}
  {c : UTXO}

theorem mem_created_of_coin (h : (o, c) ∈ coinsOf sha256 tx height) : o ∈ created sha256 tx := by
  rw [← coinsOf_keys sha256 tx height]
  exact List.mem_map_of_mem h

theorem coinsOf_nodup (hfew : tx.outputs.length ≤ 2 ^ 32) : ((coinsOf sha256 tx height).map Prod.fst).Nodup :=
  coinsFrom_keys_nodup (tx.txid sha256) height tx.isCoinbase (by omega)

theorem lookup_applied (h : Applied sha256 height u tx undo u') (hnew : o ∉ created sha256 tx)
    (hkept : o ∉ consumed tx) : u'.lookup o = u.lookup o := by
  rw [← coinsOf_keys sha256 tx height] at hnew
  rw [h.set, lookup_insertAll_of_notMem _ _ _ hnew, lookup_eraseAll, if_neg hkept]

theorem lookup_applied_consumed (h : Applied sha256 height u tx undo u') (hnew : o ∉ created sha256 tx)
    (hgone : o ∈ consumed tx) : u'.lookup o = none := by
  rw [← coinsOf_keys sha256 tx height] at hnew
  rw [h.set, lookup_insertAll_of_notMem _ _ _ hnew, lookup_eraseAll, if_pos hgone]

theorem lookup_applied_coin (h : Applied sha256 height u tx undo u') (hcoin : (o, c) ∈ coinsOf sha256 tx height) :
    u'.lookup o = some c := by
  rw [h.set]
  apply lookup_insertAll_of_mem _ _ _ _ hcoin
  intro w hw
  have hnodup : ((coinsOf sha256 tx height).map Prod.fst).Nodup := coinsOf_nodup h.few
  exact (Prod.mk.inj (List.inj_on_of_nodup_map hnodup hw hcoin rfl)).2

theorem lookup_applied_created (h : Applied sha256 height u tx undo u') (hnew : o ∈ created sha256 tx) :
    ∃ c, (o, c) ∈ coinsOf sha256 tx height ∧ u'.lookup o = some c := by
  rw [← coinsOf_keys sha256 tx height] at hnew
  obtain ⟨⟨k, c⟩, hcoin, rfl⟩ := List.mem_map.mp hnew
  exact ⟨c, hcoin, lookup_applied_coin h hcoin⟩

theorem lookup_applied_some (h : Applied sha256 height u tx undo u') (hc : u'.lookup o = some c) :
    (o, c) ∈ coinsOf sha256 tx height ∨ (o ∉ consumed tx ∧ u.lookup o = some c) := by
  by_cases hnew : o ∈ created sha256 tx
  · obtain ⟨c', hcoin, hlook⟩ := lookup_applied_created h hnew
    rw [hlook] at hc
    obtain rfl := Option.some.inj hc
    exact Or.inl hcoin
  · by_cases hgone : o ∈ consumed tx
    · rw [lookup_applied_consumed h hnew hgone] at hc
      simp at hc
    · rw [lookup_applied h hnew hgone] at hc
      exact Or.inr ⟨hgone, hc⟩

end Lookups

section Applicability

variable (sha256 : Sha256)

/-- No two transactions of the list that both have outputs share a txid. -/
def DistinctOutputs (txs : List Transaction) : Prop :=
  txs.Pairwise fun s t => s.outputs ≠ [] → t.outputs ≠ [] → s.txid sha256 ≠ t.txid sha256

instance (txs : List Transaction) : Decidable (DistinctOutputs sha256 txs) :=
  inferInstanceAs (Decidable (txs.Pairwise fun s t =>
    s.outputs ≠ [] → t.outputs ≠ [] → s.txid sha256 ≠ t.txid sha256))

variable {sha256} {height : ℕ}

theorem created_txid {tx : Transaction} {o : OutPoint} (h : o ∈ created sha256 tx) :
    o.txid = tx.txid sha256 ∧ tx.outputs ≠ [] := by
  obtain ⟨i, hi, rfl⟩ := (mem_created_iff sha256 tx o).mp h
  refine ⟨rfl, ?_⟩
  intro hnil
  simp [hnil] at hi

theorem first_created {tx : Transaction} (h : tx.outputs ≠ []) : (⟨tx.txid sha256, 0⟩ : OutPoint) ∈ created sha256 tx :=
  (mem_created_iff sha256 tx _).mpr ⟨0, List.length_pos_iff.mpr h, rfl⟩

/-- Transactions with their inputs in the set, no shared input, fresh outputs and
distinct output ids apply one after the other. -/
theorem applyTransactionsWithUndo_of_distinct {txs : List Transaction} {u : UtxoSet}
    (hpresent : ∀ tx ∈ txs, ∀ o ∈ consumed tx, ∃ c, u.lookup o = some c) (hnodup : (txs.flatMap consumed).Nodup)
    (hfresh : ∀ tx ∈ txs, ∀ o ∈ created sha256 tx, u.lookup o = none) (hfew : ∀ tx ∈ txs, tx.outputs.length ≤ 2 ^ 32)
    (hdistinct : DistinctOutputs sha256 txs) :
    ∃ undos u', applyTransactionsWithUndo sha256 height u txs = (.ok undos, u') := by
  induction txs generalizing u with
  | nil => exact ⟨[], u, rfl⟩
  | cons tx rest ih =>
    rw [List.flatMap_cons, List.nodup_append] at hnodup
    obtain ⟨-, hrest, hapart⟩ := hnodup
    obtain ⟨hhead, htail⟩ := List.pairwise_cons.mp hdistinct
    have hheadFresh : ∀ o ∈ created sha256 tx, (eraseAll u (consumed tx)).lookup o = none := by
      intro o ho
      rw [lookup_eraseAll, hfresh tx (by simp) o ho, ite_self]
    obtain ⟨undo, u₁, htx⟩ := @applyTransactionWithUndo_of_fresh sha256 u tx height
      (hpresent tx (by simp)) (hfew tx (by simp)) hheadFresh
    have happlied := applyTransactionWithUndo_ok sha256 htx
    have hpresent' : ∀ t ∈ rest, ∀ o ∈ consumed t, ∃ c, u₁.lookup o = some c := by
      intro t ht o ho
      obtain ⟨c, hc⟩ := hpresent t (List.mem_cons_of_mem _ ht) o ho
      have hnew : o ∉ created sha256 tx := by
        intro hin
        rw [hfresh tx (by simp) o hin] at hc
        simp at hc
      have hkept : o ∉ consumed tx := by
        intro hin
        exact hapart o hin o (List.mem_flatMap.mpr ⟨t, ht, ho⟩) rfl
      exact ⟨c, by rw [lookup_applied happlied hnew hkept, hc]⟩
    have hfresh' : ∀ t ∈ rest, ∀ o ∈ created sha256 t, u₁.lookup o = none := by
      intro t ht o ho
      have hnone := hfresh t (List.mem_cons_of_mem _ ht) o ho
      cases hlook : u₁.lookup o with
      | none => rfl
      | some c =>
        rcases lookup_applied_some happlied hlook with hcoin | ⟨-, hold⟩
        · obtain ⟨hid, hout⟩ := created_txid (mem_created_of_coin hcoin)
          obtain ⟨hid', hout'⟩ := created_txid ho
          exact absurd (hid.symm.trans hid') (hhead t ht hout hout')
        · rw [hnone] at hold
          simp at hold
    obtain ⟨undos, u₂, hall⟩ := ih hpresent' hrest hfresh'
      (fun t ht => hfew t (List.mem_cons_of_mem _ ht)) htail
    exact ⟨undo :: undos, u₂, by simp only [applyTransactionsWithUndo, htx, hall]⟩

private theorem not_created_of_present {txs : List Transaction} {u u' : UtxoSet} {undos : List TxUndoData}
    {o : OutPoint} {c : UTXO} (h : applyTransactionsWithUndo sha256 height u txs = (.ok undos, u'))
    (hc : u.lookup o = some c) (hkept : ∀ t ∈ txs, o ∉ consumed t) : ∀ t ∈ txs, o ∉ created sha256 t := by
  induction txs generalizing u undos with
  | nil => simp
  | cons tx rest ih =>
    obtain ⟨undo, u₁, undos', htx, hrest, rfl⟩ := applyTransactionsWithUndo_cons sha256 h
    have happlied := applyTransactionWithUndo_ok sha256 htx
    have hhead : o ∉ created sha256 tx := by
      intro hin
      have hnone := happlied.fresh o hin
      rw [lookup_eraseAll, if_neg (hkept tx (by simp)), hc] at hnone
      simp at hnone
    rw [List.forall_mem_cons]
    refine ⟨hhead, ih hrest ?_ (fun t ht => hkept t (List.mem_cons_of_mem _ ht))⟩
    rw [lookup_applied happlied hhead (hkept tx (by simp)), hc]

/-- Transactions that apply one after the other, none spending another's output,
have distinct output ids. -/
theorem distinctOutputs_of_applied {txs : List Transaction} {u u' : UtxoSet} {undos : List TxUndoData}
    (h : applyTransactionsWithUndo sha256 height u txs = (.ok undos, u'))
    (hapart : ∀ s ∈ txs, ∀ t ∈ txs, ∀ o ∈ created sha256 s, o ∉ consumed t) : DistinctOutputs sha256 txs := by
  induction txs generalizing u undos with
  | nil => exact List.Pairwise.nil
  | cons tx rest ih =>
    obtain ⟨undo, u₁, undos', htx, hrest, rfl⟩ := applyTransactionsWithUndo_cons sha256 h
    have happlied := applyTransactionWithUndo_ok sha256 htx
    apply List.Pairwise.cons
    · intro t ht hout hout' hid
      have hin := @first_created sha256 tx hout
      obtain ⟨c, -, hc⟩ := lookup_applied_created happlied hin
      have hnot := not_created_of_present hrest hc
        (fun t ht => hapart tx (by simp) t (List.mem_cons_of_mem _ ht) _ hin) t ht
      rw [hid] at hnot
      exact hnot (first_created hout')
    · exact ih hrest fun s hs t ht =>
        hapart s (List.mem_cons_of_mem _ hs) t (List.mem_cons_of_mem _ ht)

section Validated

variable {b : Block} {u : UtxoSet} {coinbase : Transaction} {txs : List Transaction} {tx : Transaction}

theorem consumed_of_not_coinbase (h : tx.isCoinbase = false) : consumed tx = tx.inputs.map TxInput.prevOutput := by
  unfold consumed
  simp [h]

theorem consumed_of_coinbase (h : tx.isCoinbase = true) : consumed tx = [] := by
  unfold consumed
  simp [h]

theorem Validated.consumed_eq (h : Validated sha256 b u coinbase txs) :
    b.transactions.flatMap consumed = spentOutpoints txs := by
  rw [h.split, List.flatMap_cons, consumed_of_coinbase h.first, List.nil_append]
  unfold spentOutpoints
  exact List.flatMap_congr fun tx htx => consumed_of_not_coinbase (h.others tx htx)

theorem Validated.consumed_present (h : Validated sha256 b u coinbase txs) (htx : tx ∈ b.transactions) {o : OutPoint}
    (ho : o ∈ consumed tx) :
    ∃ c, u.lookup o = some c ∧ (c.isCoinbase = true → c.height + coinbaseMaturity ≤ b.header.height) := by
  rw [h.split] at htx
  rcases List.mem_cons.mp htx with rfl | htx
  · rw [consumed_of_coinbase h.first] at ho
    simp at ho
  · rw [consumed_of_not_coinbase (h.others tx htx)] at ho
    obtain ⟨i, hi, rfl⟩ := List.mem_map.mp ho
    exact (h.checked tx htx).present i hi

/-- A block never spends what it creates. -/
theorem Validated.apart (h : Validated sha256 b u coinbase txs) :
    ∀ s ∈ b.transactions, ∀ t ∈ b.transactions, ∀ o ∈ created sha256 s, o ∉ consumed t := by
  intro s hs t ht o ho hin
  obtain ⟨c, hc, -⟩ := h.consumed_present ht hin
  rw [h.fresh s hs o ho] at hc
  simp at hc

end Validated

theorem applyBlockWithUndo_isOk_iff {u : UtxoSet} {b : Block} : (∃ undo, (applyBlockWithUndo sha256 u b).1 = .ok undo) ↔
      ∃ undos u', applyTransactionsWithUndo sha256 b.header.height u b.transactions = (.ok undos, u') := by
  unfold applyBlockWithUndo
  cases h : applyTransactionsWithUndo sha256 b.header.height u b.transactions with
  | mk r u' => cases r <;> simp

variable {checks : ScriptChecks} {clock : UInt64} {mtp : Option (ℕ → UInt64)} {b : Block}
  {u : UtxoSet}

theorem applies_of_distinct (h : validateBlockCached sha256 checks clock b u mtp = .ok ())
    (hdistinct : DistinctOutputs sha256 b.transactions) : ∃ undo, (applyBlockWithUndo sha256 u b).1 = .ok undo := by
  obtain ⟨coinbase, txs, hv⟩ := validateBlockCached_ok h
  rw [applyBlockWithUndo_isOk_iff]
  apply applyTransactionsWithUndo_of_distinct _ _ hv.fresh hv.few hdistinct
  · intro tx htx o ho
    obtain ⟨c, hc, -⟩ := hv.consumed_present htx ho
    exact ⟨c, hc⟩
  · rw [hv.consumed_eq]
    exact hv.nodup

/-- A validated block applies exactly when no two of its transactions with outputs
share a txid. -/
theorem validated_applies_iff (h : validateBlockCached sha256 checks clock b u mtp = .ok ()) :
    (∃ undo, (applyBlockWithUndo sha256 u b).1 = .ok undo) ↔
      DistinctOutputs sha256 b.transactions := by
  constructor
  · intro happlies
    obtain ⟨undos, u', happly⟩ := applyBlockWithUndo_isOk_iff.mp happlies
    obtain ⟨coinbase, txs, hv⟩ := validateBlockCached_ok h
    exact distinctOutputs_of_applied happly hv.apart
  · intro hdistinct
    exact applies_of_distinct h hdistinct

end Applicability

section Twins

/-- No signature is accepted, and a batch without signatures verifies. -/
def noSignatures : ScriptChecks where
  verifyInputSignature _ index _ _ _ := .error (.invalidSignature index)
  verifyBatch items := items.isEmpty

/-- A coinbase transaction that claims no reward. -/
def emptyCoinbase : Transaction :=
  { version := 1
    inputs := [⟨OutPoint.null, [], 0xffffffff, Witness.empty⟩]
    outputs := []
    lockTime := 0 }

/-- A transaction without inputs and with one output of value zero. -/
def freeTransaction : Transaction :=
  { version := 1
    inputs := []
    outputs := [⟨0, [0x51]⟩]
    lockTime := 0 }

/-- `OP_1` -/
def openScript : List UInt8 := [0x51]

/-- The output that pays to a witness script. -/
def payTo (script : List UInt8) (value : UInt64) : TxOutput :=
  ⟨value, [0x00, 0x20] ++ (Sha256.runSha256 script).bytes⟩

/-- A transaction that moves what was paid to `openScript`. -/
def spendOpen (o : OutPoint) (value : UInt64) : Transaction :=
  { version := 2
    inputs := [⟨o, [], 0xffffffff, ⟨[openScript]⟩⟩]
    outputs := [payTo openScript value]
    lockTime := 0 }

/-- A coinbase that commits to the witnesses of the other transactions. -/
def committingCoinbase (txs : List Transaction) : Transaction :=
  { emptyCoinbase with
    outputs := [⟨0, [0x6a, 0x24, 0xaa, 0x21, 0xa9, 0xed] ++ (sha256d Sha256.runSha256
      ((calculateWitnessMerkleRoot Sha256.runSha256 (emptyCoinbase :: txs)).bytes ++
        Bytes32.zero.bytes)).bytes⟩] }

/-- A block at height one on the regtest genesis block. -/
def firstBlock (txs : List Transaction) : Block :=
  { header :=
      { version := headerVersion
        prevHash := (genesisBlock Sha256.sha256 .regtest).hash Sha256.sha256
        merkleRoot := calculateMerkleRoot Sha256.sha256 txs
        timestamp := 1706832001
        bits := 0x207fffff
        nonce := 0
        height := 1 }
    transactions := txs }

/-- The same block with `Sha256.runSha256`. -/
def runFirstBlock (txs : List Transaction) : Block :=
  { header :=
      { version := headerVersion
        prevHash := (genesisBlock Sha256.runSha256 .regtest).hash Sha256.runSha256
        merkleRoot := calculateMerkleRoot Sha256.runSha256 txs
        timestamp := 1706832001
        bits := 0x207fffff
        nonce := 0
        height := 1 }
    transactions := txs }

theorem runFirstBlock_eq (txs : List Transaction) : runFirstBlock txs = firstBlock txs := by
  rw [runFirstBlock, Sha256.runSha256_eq]
  rfl

theorem repeated_transaction_not_applied : validateBlockCached Sha256.sha256 noSignatures 0
        (firstBlock [emptyCoinbase, freeTransaction, freeTransaction]) ∅
        (some fun _ => 1706832000) = .ok () ∧
      (applyBlockWithUndo Sha256.sha256 ∅
          (firstBlock [emptyCoinbase, freeTransaction, freeTransaction])).1 =
        .error (.duplicateUnspentOutput ⟨freeTransaction.txid Sha256.sha256, 0⟩) := by
  rw [← runFirstBlock_eq, ← Sha256.runSha256_eq]
  decide +kernel

theorem single_transaction_applied :
    DistinctOutputs Sha256.sha256 (firstBlock [emptyCoinbase, freeTransaction]).transactions ∧
      ∃ undo, (applyBlockWithUndo Sha256.sha256 ∅
        (firstBlock [emptyCoinbase, freeTransaction])).1 = .ok undo := by
  have hdistinct : DistinctOutputs Sha256.sha256
      (firstBlock [emptyCoinbase, freeTransaction]).transactions := by
    rw [← runFirstBlock_eq, ← Sha256.runSha256_eq]
    decide +kernel
  have hvalid : validateBlockCached Sha256.sha256 noSignatures 0
      (firstBlock [emptyCoinbase, freeTransaction]) ∅ (some fun _ => 1706832000) = .ok () := by
    rw [← runFirstBlock_eq, ← Sha256.runSha256_eq]
    decide +kernel
  exact ⟨hdistinct, (validated_applies_iff hvalid).mpr hdistinct⟩

end Twins

end KuberCoin.BlockEffects
