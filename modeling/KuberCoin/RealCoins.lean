import KuberCoin.ProvenWork

/-!
The outpoints a node knows. A block is small, so no output position reaches the last one, which
stands in the input of a coinbase. The UTXO set never holds an entry there: not after a call that
failed half-way, and not after a roll-back either, since the undo records hold only entries
that were in the set.
-/
namespace KuberCoin.RealCoins

open Bytes Maps Transactions Blocks UtxoSets Params Validator Storage NodeStates NodeStates.NodeState
  AddBlock Frames BlockEffects StepCases Runs ChainInvariants

variable {cx : Context} {env : Env} {Q : OutPoint → Prop}

/-- Every entry has an outpoint with the property. -/
def Within (Q : OutPoint → Prop) (u : UtxoSet) : Prop := ∀ o c, u.lookup o = some c → Q o

/-- Every entry that the record puts back has one. -/
def Restores (Q : OutPoint → Prop) (undo : BlockUndoData) : Prop :=
  ∀ t ∈ undo.txUndo, ∀ c ∈ t.spentUtxos, Q c.1

section Sets

variable {u u' : UtxoSet} {height : ℕ}

theorem Within.shrink (h : Within Q u) (hsub : ∀ o c, u'.lookup o = some c → u.lookup o = some c) : Within Q u' :=
  fun o c hc => h o c (hsub o c hc)

theorem Within.insertAll (h : Within Q u) {kvs : List (OutPoint × UTXO)} (hkvs : ∀ kv ∈ kvs, Q kv.1) :
    Within Q (insertAll u kvs) := by
  intro o c hc
  by_cases hmem : o ∈ kvs.map Prod.fst
  · obtain ⟨kv, hkv, rfl⟩ := List.mem_map.mp hmem
    exact hkvs kv hkv
  · rw [lookup_insertAll_of_notMem u kvs o hmem] at hc
    exact h o c hc

theorem Within.eraseAll (h : Within Q u) (os : List OutPoint) : Within Q (eraseAll u os) :=
  h.shrink (shrinks_eraseAll u os)

theorem Within.disconnectBlock {undo : BlockUndoData} (h : Within Q u) (hundo : Restores Q undo) :
    Within Q (disconnectBlock u undo) := by
  unfold UtxoSets.disconnectBlock
  have hall : ∀ t ∈ undo.txUndo.reverse, ∀ c ∈ t.spentUtxos, Q c.1 :=
    fun t ht => hundo t (List.mem_reverse.mp ht)
  generalize undo.txUndo.reverse = l at hall
  induction l generalizing u with
  | nil => exact h
  | cons t rest ih =>
    obtain ⟨ht, hrest⟩ := List.forall_mem_cons.mp hall
    exact ih ((h.eraseAll _).insertAll ht) hrest

variable {sha256 : Sha256}

theorem Within.applyTransaction {tx : Transaction} {r : Except ChainError TxUndoData} (h : Within Q u)
    (hfew : tx.outputs.length ≤ 2 ^ 32) (hcreated : ∀ o ∈ created sha256 tx, Q o)
    (happly : applyTransactionWithUndo sha256 u tx height = (r, u')) :
    Within Q u' ∧ ∀ undo, r = .ok undo → ∀ c ∈ undo.spentUtxos, Q c.1 := by
  unfold applyTransactionWithUndo at happly
  simp only at happly
  generalize hspent : (if tx.isCoinbase = true then ([], u) else spendInputs u tx.inputs) = spent at happly
  have hset : Within Q spent.2 ∧ ∀ c ∈ spent.1, Q c.1 := by
    rw [← hspent]
    split
    · exact ⟨h, by simp⟩
    · refine ⟨?_, fun c hc => ?_⟩
      · rw [spendInputs_set]
        exact h.eraseAll _
      · exact h c.1 c.2 ((mem_spendInputs u tx.inputs c.1 c.2).mp hc).2
  split at happly
  next =>
    cases happly
    exact ⟨h, by simp⟩
  next =>
    split at happly
    next =>
      cases happly
      exact ⟨hset.1, by simp⟩
    next =>
      rw [createOutputs_eq (tx.txid sha256) height tx.isCoinbase spent.2 (by omega)] at happly
      cases happly
      refine ⟨hset.1.insertAll fun kv hkv => ?_, fun undo hundo => ?_⟩
      · exact hcreated kv.1 (mem_created_of_coin hkv)
      · cases hundo
        exact hset.2

theorem Within.applyTransactions {txs : List Transaction} {r : Except ChainError (List TxUndoData)} (h : Within Q u)
    (hfew : ∀ tx ∈ txs, tx.outputs.length ≤ 2 ^ 32) (hcreated : ∀ tx ∈ txs, ∀ o ∈ created sha256 tx, Q o)
    (happly : applyTransactionsWithUndo sha256 height u txs = (r, u')) :
    Within Q u' ∧ ∀ undos, r = .ok undos → ∀ t ∈ undos, ∀ c ∈ t.spentUtxos, Q c.1 := by
  induction txs generalizing u r with
  | nil =>
    cases happly
    refine ⟨h, fun undos hundos => ?_⟩
    cases hundos
    simp
  | cons tx txs ih =>
    obtain ⟨hfirst, hrest⟩ := List.forall_mem_cons.mp hfew
    obtain ⟨hmade, hmore⟩ := List.forall_mem_cons.mp hcreated
    unfold applyTransactionsWithUndo at happly
    split at happly
    next e u₁ hone =>
      cases happly
      exact ⟨(h.applyTransaction hfirst hmade hone).1, by simp⟩
    next undo u₁ hone =>
      obtain ⟨hset, hspent⟩ := h.applyTransaction hfirst hmade hone
      split at happly
      next e u₂ hothers =>
        cases happly
        exact ⟨(ih hset hrest hmore hothers).1, by simp⟩
      next undos u₂ hothers =>
        cases happly
        obtain ⟨hlast, hundos⟩ := ih hset hrest hmore hothers
        refine ⟨hlast, fun l hl => ?_⟩
        cases hl
        exact List.forall_mem_cons.mpr ⟨hspent undo rfl, hundos undos rfl⟩

end Sets

section Blocks

variable {sha256 : Sha256} {b : Block} {u : UtxoSet}

/-- The outpoint is not the one in the input of a coinbase. -/
def Real (o : OutPoint) : Prop := o ≠ OutPoint.null

theorem created_real {tx : Transaction} (hfew : tx.outputs.length ≤ 4000000) {o : OutPoint}
    (ho : o ∈ created sha256 tx) : Real o := by
  obtain ⟨i, hi, rfl⟩ := (mem_created_iff sha256 tx o).mp ho
  intro hnull
  have hvout : (UInt32.ofNat i).toNat = 4294967295 := congrArg (fun o : OutPoint => o.vout.toNat) hnull
  rw [UInt32.toNat_ofNat', Nat.mod_eq_of_lt (by omega)] at hvout
  omega

/-- The weight limit bounds the number of outputs. -/
theorem outputs_few {checks : ScriptChecks} {clock : UInt64} {mtp : Option (ℕ → UInt64)}
    (h : validateBlockCached sha256 checks clock b u mtp = .ok ()) :
    ∀ tx ∈ b.transactions, tx.outputs.length ≤ 4000000 := by
  intro tx htx
  have hle := outputs_le_weight b tx htx
  unfold validateBlockCached validateBlockFull at h
  split at h
  next => cases h
  next =>
    simp only [bind_eq_ok_iff, require_eq_ok_iff] at h
    obtain ⟨-, hweight, -⟩ := h
    unfold maxBlockWeight at hweight
    omega

theorem applyBlock_real {u' : UtxoSet} {r : Except ChainError BlockUndoData} (h : Within Real u)
    (hfew : ∀ tx ∈ b.transactions, tx.outputs.length ≤ 4000000) (happly : applyBlockWithUndo cx.sha256 u b = (r, u')) :
    Within Real u' ∧ ∀ undo, r = .ok undo → Restores Real undo := by
  have htxs : ∀ {r' : Except ChainError (List TxUndoData)} {v : UtxoSet},
      applyTransactionsWithUndo cx.sha256 b.header.height u b.transactions = (r', v) →
      Within Real v ∧ ∀ undos, r' = .ok undos → ∀ t ∈ undos, ∀ c ∈ t.spentUtxos, Real c.1 :=
    fun happly => h.applyTransactions (fun tx htx => (hfew tx htx).trans (by omega))
      (fun tx htx o => created_real (hfew tx htx)) happly
  unfold applyBlockWithUndo at happly
  split at happly
  next e u₁ heq =>
    cases happly
    exact ⟨(htxs heq).1, by simp⟩
  next undos u₁ heq =>
    cases happly
    refine ⟨(htxs heq).1, fun undo hundo => ?_⟩
    cases hundo
    exact (htxs heq).2 undos rfl

end Blocks

section Nodes

variable {s s' : NodeState} {u : UtxoSet} {undo : BlockUndoData} {b : Block} {work : Bytes32}

/-- No entry at the null outpoint, in the set or in an undo record. -/
structure RealNode (s : NodeState) : Prop where
  set : Within Real s.utxoSet
  undo : ∀ k undo, s.store.disk.undo.lookup k = some undo → Restores Real undo

theorem RealNode.frame (h : RealNode s) (hf : Frame s s') : RealNode s' where
  set := hf.utxoSet ▸ h.set
  undo k undo hundo := h.undo k undo (hf.undo ▸ hundo)

theorem RealNode.congr (h : RealNode s) (hset : s'.utxoSet = s.utxoSet)
    (hundo : s'.store.disk.undo = s.store.disk.undo) : RealNode s' where
  set := hset ▸ h.set
  undo k undo hk := h.undo k undo (hundo ▸ hk)

theorem RealNode.withSet (h : RealNode s) (hu : Within Real u) : RealNode { s with utxoSet := u } := ⟨hu, h.undo⟩

theorem RealNode.putUndo (h : RealNode s) {k : Bytes32} (hundo : Restores Real undo) :
    RealNode { s with store := s.store.perform [.putUndo k undo] } where
  set := h.set
  undo := ProvenWork.forall_insert h.undo hundo (Shrinks.refl _)

theorem RealNode.persist {tip : Bytes32} {height : ℕ} (h : RealNode s)
    (hs : persistState cx env s tip height = some s') : RealNode s' := by
  have hpersisted : RealNode (persisted cx s tip height) := by
    refine ⟨h.set, fun k undo hundo => h.undo k undo ?_⟩
    rw [@persisted_disk cx s tip height] at hundo
    exact shrinks_eraseAll _ _ k undo hundo
  exact hpersisted.frame (persistState_eq_some hs).1

theorem RealNode.apply {clock : UInt64} {mtp : Option (ℕ → UInt64)} (h : RealNode s)
    (hvalid : validateBlockCached cx.sha256 cx.checks clock b s.utxoSet mtp = .ok ())
    (happly : applyBlockWithUndo cx.sha256 s.utxoSet b = (.ok undo, u)) (k : Bytes32) :
    RealNode { s with utxoSet := u } ∧
      RealNode ({ ({ s with utxoSet := u } : NodeState) with
        store := s.store.perform [.putUndo k undo] } : NodeState) := by
  obtain ⟨hset, hundo⟩ := applyBlock_real h.set (outputs_few hvalid) happly
  exact ⟨h.withSet hset, (h.withSet hset).putUndo (hundo undo rfl)⟩

theorem RealNode.connectTip (h : RealNode s) : RealNode (connectTip cx env s b work).2 := by
  unfold AddBlock.connectTip
  simp only
  split
  next => exact h
  next htip =>
    rw [validateTip_eq] at htip
    split
    next e u happly => exact h.withSet (applyBlock_real h.set (outputs_few htip) happly).1
    next undo u happly =>
      obtain ⟨hset, hwritten⟩ := h.apply htip happly (b.hash cx.sha256)
      split
      next => exact hset
      next s₁ hw =>
        obtain rfl := write_eq_some hw
        have hadvanced : RealNode (advanceTip cx
            ({ ({ s with utxoSet := u } : NodeState) with
              store := s.store.perform [.putUndo (b.hash cx.sha256) undo] } : NodeState) b work) :=
          hwritten.congr rfl rfl
        split
        next => exact hadvanced
        next s₃ hpersist =>
          have hpersisted := hadvanced.persist hpersist
          split
          next => exact hpersisted
          next s₄ hw₄ =>
            obtain rfl := write_eq_some hw₄
            have hput : RealNode ({ s₃ with
                store := s₃.store.perform [.putBlock (b.hash cx.sha256) b] } : NodeState) :=
              hpersisted.congr rfl rfl
            exact hput.frame (indexBlock_frame _ b _).toFrame

theorem RealNode.connectBlocks {s : NodeState} (h : RealNode s) (hashes : List Bytes32) :
    RealNode (connectBlocks cx env s hashes).2 := by
  induction hashes generalizing s with
  | nil => exact h
  | cons hash rest ih =>
    have hone : RealNode (connectBlock cx env s hash).2 := by
      unfold connectBlock
      split
      next => exact h
      next b hb =>
        split
        next => exact h
        next hvalid =>
          split
          next e u happly => exact h.withSet (applyBlock_real h.set (outputs_few hvalid) happly).1
          next undo u happly =>
            obtain ⟨hset, hwritten⟩ := h.apply hvalid happly hash
            split
            next => exact hset
            next s₁ hw =>
              obtain rfl := write_eq_some hw
              exact hwritten.congr rfl rfl
    unfold AddBlock.connectBlocks
    split
    next e s' heq =>
      rw [heq] at hone
      exact hone
    next s' heq =>
      rw [heq] at hone
      exact ih hone

theorem RealNode.disconnectBlocks {hashes : List Bytes32} {r : Except AddBlockError Unit} (h : RealNode s)
    (hs : disconnectBlocks s hashes = (r, s')) : RealNode s' := by
  induction hashes generalizing s with
  | nil =>
    cases hs
    exact h
  | cons hash rest ih =>
    unfold AddBlock.disconnectBlocks at hs
    split at hs
    next =>
      cases hs
      exact h
    next undo hundo => exact ih (h.withSet (h.set.disconnectBlock (h.undo hash undo hundo))) hs

theorem RealNode.reorganize (h : RealNode s) : RealNode (reorganize cx env s b work).2 := by
  unfold AddBlock.reorganize
  simp only
  split
  next => exact h
  next disconnect connect _ =>
    split
    next => exact h
    next =>
      split
      next => exact h
      next =>
        split
        next e s₁ hs₁ => exact h.disconnectBlocks hs₁
        next s₁ hs₁ =>
          have hnew := @RealNode.connectBlocks cx env s₁ (h.disconnectBlocks hs₁) connect
          split
          next e s₂ hs₂ =>
            rw [hs₂] at hnew
            exact hnew
          next s₂ hs₂ =>
            rw [hs₂] at hnew
            have hmoved : RealNode (moveTip cx s₂ b work) := hnew.congr rfl rfl
            split
            next => exact hmoved
            next s₄ hpersist => exact (hmoved.persist hpersist).frame (rebuildIndexes_frame _).toFrame

theorem RealNode.storeSide {s₁ : NodeState} (h : RealNode s) (hs : storeSide cx env s b work = some s₁) :
    RealNode s₁ := by
  unfold AddBlock.storeSide at hs
  obtain ⟨s₂, hw, rfl⟩ := Option.map_eq_some_iff.mp hs
  obtain rfl := write_eq_some hw
  exact h.congr rfl rfl

theorem RealNode.step {s : NodeState} {b : Block} (h : RealNode s) : RealNode (addBlockStep cx env s b).2 := by
  unfold addBlockStep
  split
  next => exact h
  next =>
    split
    next =>
      obtain ⟨pool, children, heq, -⟩ := addOrphan_eq env s (b.hash cx.sha256) b
      simp only [heq]
      exact h.congr rfl rfl
    next =>
      split
      next => exact h
      next =>
        split
        next => exact h.connectTip
        next =>
          unfold connectSide
          split
          next => exact h
          next s₁ hstored =>
            have hside := h.storeSide hstored
            split
            next => exact hside
            next => exact hside.reorganize

theorem RealNode.fresh (h : FreshNode cx s) : RealNode s := by
  refine ⟨?_, fun k undo hundo => ?_⟩
  · have happlied := h.applied
    rw [applyBlock_eq] at happlied
    have hempty : Within Real (∅ : UtxoSet) := fun o c hc => by simp at hc
    have hgenesis : ∀ tx ∈ cx.genesis.transactions, tx.outputs.length ≤ 4000000 := by
      intro tx htx
      obtain rfl := List.mem_singleton.mp htx
      change 1 ≤ 4000000
      omega
    rw [← (Prod.mk.inj happlied).2]
    exact (applyBlock_real hempty hgenesis rfl).1
  · rw [h.undo] at hundo
    simp at hundo

theorem run_real {calls : List Call} (hrun : Run cx s calls) : RealNode s :=
  (run_keeps (fun _ _ h => RealNode.fresh (freshNode h))
    (fun _ _ _ h (_ : True) => h.step) (fun _ _ _ _ h _ => h.congr rfl rfl)
    (fun _ s tipHeight h => h.frame (maybePrune_frame s tipHeight)) hrun fun _ _ => trivial).1

end Nodes

end KuberCoin.RealCoins
