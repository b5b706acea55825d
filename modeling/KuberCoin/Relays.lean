import KuberCoin.Admissions
import KuberCoin.Peers

/-!
Transactions that one peer delivers. `TxMsg` validates a transaction against the confirmed set
alone, and the text by which it tells an orphan from an invalid transaction is not the text of the
error it gets, so a child of an unconfirmed parent is refused in any order and costs
the peer points. Transactions that spend nothing from each other all arrive, unless
the peer exceeds the rate limit.
-/
namespace KuberCoin.Relays

open Relation Bytes Maps Transactions Blocks UtxoSets Params Validator NodeStates NodeStates.NodeState
  BlockEffects Mempools Mempool PoolAccounting PoolEvictions AncestorPackages Worklists ChainLimits
  Templates Handlers Peers Admissions

variable {cx : Context} {rates : FeeRates}

section Accounts

variable {J : App → Prop} {sur : Surroundings} {p : Adding} {a a' : App}

theorem resolveOrphan_keeps (horphans : ∀ a w, J a → J { a with orphans := w })
    (hadd : ∀ a call tx, J a → validateTransaction cx a.node tx = .ok () →
      J { a with mempool := (a.mempool.addTransactionWithFee rates call cx.sha256 tx
        ((computeTxFee a.node tx).getD 0)).1 }) {further : Adding → Bytes32 → Adding}
    (hfurther : ∀ p txid, J p.app → J (further p txid).app) (h : J p.app) (tx : Transaction) :
    J (resolveOrphan cx rates sur further p tx).app := by
  have hremoved := horphans p.app (p.app.orphans.removeOrphan (tx.txid cx.sha256)) h
  unfold resolveOrphan
  simp only
  split
  next => exact hremoved
  next =>
    split
    next => exact h
    next hvalid =>
      have hadded := hadd _ (sur.calls p.tried) tx hremoved hvalid
      split
      next p' e hresult =>
        rw [← congrArg (fun r => r.1.app) hresult]
        exact hadded
      next p' hresult =>
        refine hfurther _ _ ?_
        rw [← congrArg (fun r => r.1.app) hresult]
        exact hadded

theorem processOrphansForTx_keeps (horphans : ∀ a w, J a → J { a with orphans := w })
    (hadd : ∀ a call tx, J a → validateTransaction cx a.node tx = .ok () →
      J { a with mempool := (a.mempool.addTransactionWithFee rates call cx.sha256 tx
        ((computeTxFee a.node tx).getD 0)).1 }) (fuel : ℕ) (h : J p.app) (txid : Bytes32) :
    J (processOrphansForTx cx rates sur fuel p txid).app := by
  induction fuel generalizing p txid with
  | zero => exact h
  | succ fuel ih =>
    unfold processOrphansForTx
    generalize p.app.orphans.orphansForParent txid = waiting
    induction waiting generalizing p with
    | nil => exact h
    | cons tx waiting ihw => exact ihw (resolveOrphan_keeps horphans hadd (fun _ _ hp => ih hp _) h tx)

theorem txMsg_keeps {J : App → Prop} (horphans : ∀ a w, J a → J { a with orphans := w })
    (hadd : ∀ a call tx, J a → validateTransaction cx a.node tx = .ok () →
      J { a with mempool := (a.mempool.addTransactionWithFee rates call cx.sha256 tx
        ((computeTxFee a.node tx).getD 0)).1 }) {sur : Surroundings} {blockRelayOnly : Bool} {a : App} (h : J a)
    (tx : Transaction) : J (txMsg cx rates sur blockRelayOnly a tx).app := by
  unfold txMsg
  simp only
  split
  next => exact h
  next =>
    split
    next => exact h
    next =>
      split
      next => exact h
      next =>
        split
        next =>
          split
          next => exact horphans _ _ h
          next => exact h
        next hvalid =>
          have hadded := hadd a (sur.calls 0) tx h hvalid
          split
          next p e hresult =>
            change J p.app
            rw [← congrArg (fun r => r.1.app) hresult]
            exact hadded
          next p hresult =>
            refine processOrphansForTx_keeps horphans hadd _ ?_ _
            rw [← congrArg (fun r => r.1.app) hresult]
            exact hadded

theorem accounted_add {m : Mempool} (h : Accounted cx.sha256 m) (call : Mempools.Call) (tx : Transaction)
    (fee : UInt64) : Accounted cx.sha256 (m.addTransactionWithFee rates call cx.sha256 tx fee).1 :=
  h.apply (.addTransactionWithFee call tx fee)

theorem accounted_accept {i : ℕ} {b : Block} {result : Except AddBlock.AddBlockError AddBlock.Exit}
    (h : Accounted cx.sha256 a.mempool) (ha : acceptBlock cx sur i a b = some (a', result)) :
    Accounted cx.sha256 a'.mempool := by
  obtain ⟨o, -, heq⟩ := Option.map_eq_some_iff.mp ha
  cases hresult : o.result with
  | error e =>
    rw [hresult] at heq
    cases heq
    exact h
  | ok exit =>
    rw [hresult] at heq
    cases heq
    exact h.removeAll _

theorem accounted_generate {script : List UInt8} {n : ℕ} (h : Accounted cx.sha256 a.mempool)
    (ha : generateBlocks cx rates sur script n a = some a') : Accounted cx.sha256 a'.mempool := by
  induction n generalizing a with
  | zero =>
    cases ha
    exact h
  | succ n ih =>
    unfold generateBlocks at ha
    split at ha
    next => cases ha
    next a₁ e haccept =>
      cases ha
      exact accounted_accept h haccept
    next a₁ exit haccept => exact ih (accounted_accept h haccept) ha

theorem accounted_txMsg {sur : Surroundings} {blockRelayOnly : Bool} {a : App} (h : Accounted cx.sha256 a.mempool)
    (tx : Transaction) : Accounted cx.sha256 (txMsg cx rates sur blockRelayOnly a tx).app.mempool := by
  refine @txMsg_keeps cx rates (fun a => Accounted cx.sha256 a.mempool) (fun _ _ h => h) ?_ sur
    blockRelayOnly a h tx
  intro a call tx h _
  exact accounted_add h call tx _

theorem accounted_submit (h : Accounted cx.sha256 a.mempool) (tx : Transaction) :
    Accounted cx.sha256 (submitTransaction cx rates sur a tx).app.mempool := by
  unfold submitTransaction
  split
  next => exact h
  next => exact accounted_add h _ _ _

theorem accounted_handle {e : Event} {r : Handled} (h : Accounted cx.sha256 a.mempool)
    (hr : handle cx rates sur a e = some r) : Accounted cx.sha256 r.app.mempool := by
  cases e with
  | blockMsg b =>
    simp only [handle, blockMsg] at hr
    split at hr
    next =>
      cases hr
      exact h
    next =>
      split at hr
      next =>
        cases hr
        exact h
      next =>
        obtain ⟨⟨a', result⟩, haccept, rfl⟩ := Option.map_eq_some_iff.mp hr
        have haccounted := accounted_accept h haccept
        cases result with
        | error e => exact haccounted
        | ok exit => exact haccounted
  | submitblock b =>
    simp only [handle, submitblock] at hr
    split at hr
    next =>
      cases hr
      exact h
    next =>
      obtain ⟨⟨a', result⟩, haccept, rfl⟩ := Option.map_eq_some_iff.mp hr
      exact accounted_accept h haccept
  | generatetoaddress nblocks script =>
    simp only [handle, generatetoaddress] at hr
    split at hr
    next =>
      cases hr
      exact h
    next =>
      obtain ⟨a', hgenerate, rfl⟩ := Option.map_eq_some_iff.mp hr
      exact accounted_generate h hgenerate
  | txMsg blockRelayOnly tx =>
    rw [← Option.some.inj hr]
    exact accounted_txMsg h tx
  | sendrawtransaction tx | submitTx tx =>
    rw [← Option.some.inj hr]
    exact accounted_submit h tx
  | sendtoaddress w destScript amount =>
    rw [← Option.some.inj hr]
    unfold sendtoaddress
    split
    next => exact h
    next => exact accounted_submit h _
  | bumpfee txid targetFee =>
    rw [← Option.some.inj hr]
    unfold bumpfee
    split
    next => exact h
    next => exact accounted_add h _ _ _
  | sync state =>
    rw [← Option.some.inj hr]
    exact h

theorem nodeRun_accounted {steps : List Step} (hrun : NodeRun cx rates a steps) : Accounted cx.sha256 a.mempool := by
  induction hrun with
  | fresh h maxSize => exact accounted_empty maxSize
  | step hrun h ih => exact accounted_handle ih h

end Accounts

section Limits

variable {pool whole : Pool} {tx : Transaction} {t : Bytes32} {e : MempoolEntry} {call : Mempools.Call}

/-- Every entry of a pool is in the larger one, with the same transaction. -/
def Part (pool whole : Pool) : Prop :=
  ∀ x e, pool.lookup x = some e → ∃ e', whole.lookup x = some e' ∧ e'.tx = e.tx

theorem Part.mem (h : Part pool whole) {x : Bytes32} (hx : x ∈ pool) : x ∈ whole := by
  obtain ⟨e, he⟩ := (mem_iff_lookup _ _).mp hx
  obtain ⟨e', he', -⟩ := h x e he
  exact (mem_iff_lookup _ _).mpr ⟨e', he'⟩

theorem Part.spends (h : Part pool whole) {x y : Bytes32} (hxy : Spends pool x y) : Spends whole x y := by
  obtain ⟨e, he, hy, hi⟩ := hxy
  obtain ⟨e', he', htx⟩ := h x e he
  rw [← htx] at hi
  exact ⟨e', he', h.mem hy, hi⟩

theorem ancestor_within (h : Part pool whole) (ht : whole.lookup t = some e) (htx : e.tx = tx) {a : Bytes32}
    (ha : Ancestor pool tx a) : TransGen (Spends whole) t a := by
  induction ha with
  | @parent i hi hin => exact TransGen.single ⟨e, ht, h.mem hin, i, htx ▸ hi, rfl⟩
  | @further p f j hp hf hj hin ih => exact ih.tail (h.spends ⟨f, hf, hin, j, hj, rfl⟩)

theorem countAncestors_within (h : Part pool whole) (hfresh : t ∉ pool) (ht : whole.lookup t = some e)
    (htx : e.tx = tx) : countAncestors pool tx ≤ (poolAncestors whole t).card := by
  rw [countAncestors, ← List.toFinset_card_of_nodup visitedAncestors_nodup]
  refine Finset.card_le_card fun a ha => ?_
  have hancestor := mem_visitedAncestors.mp (List.mem_toFinset.mp ha)
  rw [mem_poolAncestors]
  refine ⟨?_, ancestor_within h ht htx hancestor⟩
  rintro rfl
  exact hfresh hancestor.mem

theorem descendant_within (h : Part pool whole) {q c : Bytes32} (hq : q ∈ pool)
    (hpath : ReflTransGen (Edge fun x => some (children call pool x)) q c) :
    c = q ∨ (c ∈ pool ∧ TransGen (Spends whole) c q) := by
  induction hpath with
  | refl => exact Or.inl rfl
  | @tail b c hpath hedge ih =>
    obtain ⟨succs, hsuccs, hmem⟩ := hedge
    cases hsuccs
    obtain ⟨f, hf, hany⟩ := mem_children.mp hmem
    obtain ⟨j, hj, hjb⟩ := List.any_eq_true.mp hany
    have hc : c ∈ pool := (mem_iff_lookup _ _).mpr ⟨f, hf⟩
    have hspends : b ∈ pool → Spends whole c b :=
      fun hb => h.spends ⟨f, hf, hb, j, hj, beq_iff_eq.mp hjb⟩
    right
    rcases ih with rfl | ⟨hb, hup⟩
    · exact ⟨hc, TransGen.single (hspends hq)⟩
    · exact ⟨hc, TransGen.head (hspends hb) hup⟩

/-- The new transaction is one descendant more in the larger pool. -/
theorem countDescendants_within (call : Mempools.Call) (h : Part pool whole) (hfresh : t ∉ pool)
    (ht : whole.lookup t = some e) (htx : e.tx = tx) {i : TxInput} (hi : i ∈ tx.inputs)
    (hin : i.prevOutput.txid ∈ pool) :
    countDescendants call pool i.prevOutput.txid + 1 ≤ (poolDescendants whole i.prevOutput.txid).card := by
  have hself : t ∈ poolDescendants whole i.prevOutput.txid := by
    rw [mem_poolDescendants]
    refine ⟨?_, TransGen.single ⟨e, ht, h.mem hin, i, htx ▸ hi, rfl⟩⟩
    rintro rfl
    exact hfresh hin
  have hsub : ∀ fuel c, c ∈ explore (fun x => some (children call pool x)) fuel [i.prevOutput.txid] [] →
      c ∈ insert i.prevOutput.txid ((poolDescendants whole i.prevOutput.txid).erase t) := by
    intro fuel c hc
    rcases reached_of_mem_explore hc with hnil | ⟨-, x, hx, hpath⟩
    · cases hnil
    · rw [List.mem_singleton.mp hx] at hpath
      have hchain := descendant_within h hin hpath
      rcases hchain with rfl | ⟨hc, hup⟩
      · exact Finset.mem_insert_self _ _
      · by_cases heq : c = i.prevOutput.txid
        · rw [heq]
          exact Finset.mem_insert_self _ _
        · refine Finset.mem_insert_of_mem (Finset.mem_erase.mpr ⟨?_, mem_poolDescendants.mpr ⟨heq, hup⟩⟩)
          rintro rfl
          exact hfresh hc
  unfold countDescendants
  generalize 1 + (pool.keys.card + 1) * pool.keys.card = fuel
  have hnodup : (explore (fun x => some (children call pool x)) fuel [i.prevOutput.txid] []).Nodup :=
    nodup_explore _ _ _ (by simp)
  have hcard := Finset.card_le_card (fun c hc => hsub fuel c (List.mem_toFinset.mp hc))
  rw [List.toFinset_card_of_nodup hnodup] at hcard
  have hinsert := Finset.card_insert_le i.prevOutput.txid
    ((poolDescendants whole i.prevOutput.txid).erase t)
  have herase := Finset.card_erase_of_mem hself
  have hpos := Finset.card_pos.mpr ⟨t, hself⟩
  omega

theorem chainLimits_within (h : Part pool whole) (hfresh : t ∉ pool) (ht : whole.lookup t = some e) (htx : e.tx = tx)
    (hlimits : WithinLimits whole) : chainLimits call tx pool = .ok () := by
  have hmem : t ∈ whole := (mem_iff_lookup _ _).mpr ⟨e, ht⟩
  have hancestors := (countAncestors_within h hfresh ht htx).trans (hlimits.ancestors t hmem)
  have hdescendants : ∀ inputs : List TxInput, (∀ i ∈ inputs, i ∈ tx.inputs) →
      descendantLimits call pool inputs = .ok () := by
    intro inputs
    induction inputs with
    | nil => exact fun _ => rfl
    | cons i inputs ih =>
      intro hinputs
      rw [List.forall_mem_cons] at hinputs
      rw [descendantLimits, if_neg]
      · exact ih hinputs.2
      · rintro ⟨hin, hmany⟩
        have hcount := (countDescendants_within call h hfresh ht htx hinputs.1 hin).trans
          (hlimits.descendants _ (h.mem hin))
        omega
  rw [chainLimits, if_neg (by omega)]
  exact hdescendants _ fun _ hi => hi

end Limits

section Views

variable {s : NodeState} {u u' : UtxoSet} {tx : Transaction} {height : ℕ} {txs : List Transaction}

/-- Validation reads the entries that the inputs name, and no others. -/
theorem validateTransactionCached_lookups {checks : ScriptChecks} {clock : UInt64} {mtp : Option (ℕ → UInt64)}
    (h : ∀ i ∈ tx.inputs, u.lookup i.prevOutput = u'.lookup i.prevOutput) :
    validateTransactionCached checks clock tx u height mtp =
      validateTransactionCached checks clock tx u' height mtp := by
  have hprevouts : ∀ inputs : List TxInput, (∀ i ∈ inputs, i ∈ tx.inputs) →
      prevouts u inputs = prevouts u' inputs := by
    intro inputs
    induction inputs with
    | nil => exact fun _ => rfl
    | cons i inputs ih =>
      intro hsub
      rw [List.forall_mem_cons] at hsub
      simp only [prevouts, getUtxo, h i hsub.1, ih hsub.2]
  have hinputs : ∀ amounts scripts index sum, ∀ inputs : List TxInput, (∀ i ∈ inputs, i ∈ tx.inputs) →
      validateInputs checks tx u height mtp amounts scripts index sum inputs =
        validateInputs checks tx u' height mtp amounts scripts index sum inputs := by
    intro amounts scripts index sum inputs
    induction inputs generalizing index sum with
    | nil => exact fun _ => rfl
    | cons i inputs ih =>
      intro hsub
      rw [List.forall_mem_cons] at hsub
      simp only [validateInputs, getUtxo, h i hsub.1, ih _ _ hsub.2]
  simp only [validateTransactionCached, hprevouts tx.inputs fun _ hi => hi,
    hinputs _ _ _ _ tx.inputs fun _ hi => hi]

theorem txFee_lookups (h : ∀ i ∈ tx.inputs, u.lookup i.prevOutput = u'.lookup i.prevOutput) :
    txFee u tx = txFee u' tx := by
  have hvalues : (tx.inputs.filterMap fun i => (u.lookup i.prevOutput).map fun c => c.output.value) =
      tx.inputs.filterMap fun i => (u'.lookup i.prevOutput).map fun c => c.output.value :=
    List.filterMap_congr fun i hi => by rw [h i hi]
  rw [txFee, txFee, hvalues]

theorem lookup_before {sha256 : Sha256} (h : applyTransaction sha256 u tx height = (.ok (), u')) {o : OutPoint}
    {c : UTXO} (ho : o.txid ≠ tx.txid sha256) (hc : u'.lookup o = some c) : u.lookup o = some c := by
  rw [applyTransaction_eq] at h
  obtain ⟨undo, u₁, hundo⟩ : ∃ undo u₁, applyTransactionWithUndo sha256 u tx height = (.ok undo, u₁) := by
    cases hresult : applyTransactionWithUndo sha256 u tx height with
    | mk r u₁ =>
      cases r with
      | error e =>
        rw [hresult] at h
        cases h
      | ok undo => exact ⟨undo, u₁, rfl⟩
  rw [hundo] at h
  obtain rfl := (Prod.mk.inj h).2
  rw [(applyTransactionWithUndo_ok sha256 hundo).set, lookup_insertAll_of_notMem, lookup_eraseAll] at hc
  · split at hc
    next => cases hc
    next => exact hc
  · rw [coinsOf_keys, mem_created_iff]
    rintro ⟨i, -, rfl⟩
    exact ho rfl

/-- The transactions are valid one after another on top of a set, each with a fee that is
relayed. -/
def ValidInTurn (cx : Context) (rates : FeeRates) (s : NodeState) : UtxoSet → List Transaction → Prop
  | _, [] => True
  | u, tx :: txs =>
      tx.isCoinbase = false ∧ validateTransaction cx { s with utxoSet := u } tx = .ok () ∧
        relayPolicy rates tx (txFee u tx) = .ok () ∧
        ∃ u', applyTransaction cx.sha256 u tx (s.height + 1) = (.ok (), u') ∧ ValidInTurn cx rates s u' txs

theorem ValidInTurn.plain (h : ValidInTurn cx rates s u txs) (htx : tx ∈ txs) : tx.isCoinbase = false := by
  induction txs generalizing u with
  | nil => cases htx
  | cons head txs ih =>
    obtain ⟨hplain, -, -, u', -, hrest⟩ := h
    rcases List.mem_cons.mp htx with rfl | hlater
    · exact hplain
    · exact ih hrest hlater

theorem ValidInTurn.alone (h : ValidInTurn cx rates s u txs) (htx : tx ∈ txs)
    (hindependent : ∀ i ∈ tx.inputs, ∀ t ∈ txs, i.prevOutput.txid ≠ t.txid cx.sha256) :
    tx.isCoinbase = false ∧ validateTransaction cx { s with utxoSet := u } tx = .ok () ∧
      relayPolicy rates tx (txFee u tx) = .ok () := by
  induction txs generalizing u with
  | nil => cases htx
  | cons head txs ih =>
    obtain ⟨hplain, hvalid, hrelayed, u', happly, hrest⟩ := h
    rcases List.mem_cons.mp htx with rfl | hlater
    · exact ⟨hplain, hvalid, hrelayed⟩
    · obtain ⟨hplain', hvalid', hrelayed'⟩ :=
        ih hrest hlater fun i hi t ht => hindependent i hi t (List.mem_cons_of_mem _ ht)
      have hpresent := (validateTransactionCached_ok hplain' hvalid').present
      have hsame : ∀ i ∈ tx.inputs, u.lookup i.prevOutput = u'.lookup i.prevOutput := by
        intro i hi
        obtain ⟨c, hc, -⟩ := hpresent i hi
        rw [hc]
        exact lookup_before happly (hindependent i hi head List.mem_cons_self) hc
      refine ⟨hplain', ?_, ?_⟩
      · rw [← hvalid']
        exact validateTransactionCached_lookups hsame
      · rw [txFee_lookups hsame]
        exact hrelayed'

end Views

section Waiting

variable {a a' : App} {w : OrphanTxs} {id : Bytes32} {e : OrphanEntry} {tx : Transaction}

/-- No waiting transaction is valid by itself. -/
def Idle (cx : Context) (a : App) : Prop :=
  ∀ id e, a.orphans.orphanTxs.lookup id = some e → validateTransaction cx a.node e.tx ≠ .ok ()

/-- The same node, with no other waiting transactions. -/
structure Still (a a' : App) : Prop where
  node : a'.node = a.node
  mempool : a'.mempool = a.mempool
  syncState : a'.syncState = a.syncState
  waiting : ∀ id e, a'.orphans.orphanTxs.lookup id = some e → a.orphans.orphanTxs.lookup id = some e

theorem Still.refl (a : App) : Still a a := ⟨rfl, rfl, rfl, fun _ _ h => h⟩

theorem Still.trans {a'' : App} (h : Still a a') (h' : Still a' a'') : Still a a'' where
  node := h'.node.trans h.node
  mempool := h'.mempool.trans h.mempool
  syncState := h'.syncState.trans h.syncState
  waiting id e he := h.waiting id e (h'.waiting id e he)

theorem Still.idle (h : Still a a') (hidle : Idle cx a) : Idle cx a' := by
  intro id e he
  rw [h.node]
  exact hidle id e (h.waiting id e he)

theorem lookup_removeOrphan {txid : Bytes32} (h : (w.removeOrphan txid).orphanTxs.lookup id = some e) :
    w.orphanTxs.lookup id = some e := by
  unfold OrphanTxs.removeOrphan at h
  split at h
  next => exact h
  next =>
    rw [lookup_erase_eq] at h
    split at h
    next => cases h
    next => exact h

theorem lookup_addOrphan {now : UInt64} {victim : Option Bytes32} {parents : List Bytes32}
    (h : (w.addOrphan cx.sha256 now victim tx parents).orphanTxs.lookup id = some e) :
    e.tx = tx ∨ w.orphanTxs.lookup id = some e := by
  unfold OrphanTxs.addOrphan at h
  simp only at h
  split at h
  next => exact Or.inr h
  next =>
    simp only [lookup_insert_eq] at h
    split at h
    next => exact Or.inl (by rw [← Option.some.inj h])
    next =>
      right
      split at h
      next =>
        cases victim with
        | none => exact h
        | some v => exact lookup_removeOrphan h
      next => exact h

theorem mem_orphansForParent {parent : Bytes32} (h : tx ∈ w.orphansForParent parent) :
    ∃ id e, w.orphanTxs.lookup id = some e ∧ e.tx = tx := by
  obtain ⟨id, -, hmap⟩ := List.mem_filterMap.mp h
  obtain ⟨e, he, htx⟩ := Option.map_eq_some_iff.mp hmap
  exact ⟨id, e, he, htx⟩

theorem resolveOrphan_still {sur : Surroundings} {further : Adding → Bytes32 → Adding} {p : Adding} {tx : Transaction}
    (hinvalid : validateTransaction cx p.app.node tx ≠ .ok ()) :
    Still p.app (resolveOrphan cx rates sur further p tx).app := by
  unfold resolveOrphan
  simp only
  split
  next => exact ⟨rfl, rfl, rfl, fun _ _ he => lookup_removeOrphan he⟩
  next =>
    split
    next => exact Still.refl _
    next hvalid => exact absurd hvalid hinvalid

theorem processOrphansForTx_still {sur : Surroundings} {fuel : ℕ} {p : Adding} {txid : Bytes32}
    (hidle : Idle cx p.app) : Still p.app (processOrphansForTx cx rates sur fuel p txid).app := by
  cases fuel with
  | zero => exact Still.refl _
  | succ fuel =>
    unfold processOrphansForTx
    have hwaiting : ∀ tx ∈ p.app.orphans.orphansForParent txid,
        validateTransaction cx p.app.node tx ≠ .ok () := by
      intro tx htx
      obtain ⟨id, e, he, rfl⟩ := mem_orphansForParent htx
      exact hidle id e he
    generalize p.app.orphans.orphansForParent txid = waiting at hwaiting
    clear hidle
    induction waiting generalizing p with
    | nil => exact Still.refl _
    | cons tx waiting ih =>
      rw [List.forall_mem_cons] at hwaiting
      have hfirst := @resolveOrphan_still cx rates sur (processOrphansForTx cx rates sur fuel) p tx
        hwaiting.1
      refine hfirst.trans (ih ?_)
      rw [hfirst.node]
      exact hwaiting.2

/-- What `TxMsg` makes of a transaction: it is not looked at, or it is not valid, or it is offered to
the pool with its fee. -/
inductive Heard (cx : Context) (rates : FeeRates) (sur : Surroundings) (blockRelayOnly : Bool) (a : App)
    (tx : Transaction) (r : Handled) : Prop where
  | ignored
      (hwhy : blockRelayOnly = true ∨ a.syncState ≠ .synced ∨ tx.txid cx.sha256 ∈ a.mempool.transactions)
      (happ : r.app = a) (hfree : r.penalty = 0)
  | refused (hnew : tx.txid cx.sha256 ∉ a.mempool.transactions)
      (hinvalid : validateTransaction cx a.node tx ≠ .ok ())
      (hnode : r.app.node = a.node) (hpool : r.app.mempool = a.mempool) (hsync : r.app.syncState = a.syncState)
  | offered (hnew : tx.txid cx.sha256 ∉ a.mempool.transactions) (hrelay : blockRelayOnly = false)
      (hvalid : validateTransaction cx a.node tx = .ok ())
      (hnode : r.app.node = a.node)
      (hpool : r.app.mempool = (a.mempool.addTransactionWithFee rates (sur.calls 0) cx.sha256 tx
        ((computeTxFee a.node tx).getD 0)).1)
      (hsync : r.app.syncState = a.syncState) (hfree : r.penalty = 0)

theorem app_of_add {sur : Surroundings} {p p' : Adding} {fee : UInt64} {result : Except String Unit}
    (h : p.add cx rates sur tx fee = (p', result)) : p'.app.node = p.app.node ∧
      p'.app.mempool =
        (p.app.mempool.addTransactionWithFee rates (sur.calls p.tried) cx.sha256 tx fee).1 ∧
      p'.app.syncState = p.app.syncState := by
  have hp : p' = (p.add cx rates sur tx fee).1 := (congrArg Prod.fst h).symm
  rw [hp]
  exact ⟨rfl, rfl, rfl⟩

theorem txMsg_heard {sur : Surroundings} {blockRelayOnly : Bool} {a : App} {tx : Transaction} (hidle : Idle cx a) :
    Heard cx rates sur blockRelayOnly a tx (txMsg cx rates sur blockRelayOnly a tx) ∧
      Idle cx (txMsg cx rates sur blockRelayOnly a tx).app := by
  unfold txMsg
  simp only
  split
  next hrelay => exact ⟨.ignored (Or.inl hrelay) rfl rfl, hidle⟩
  next hrelay =>
    split
    next hsync => exact ⟨.ignored (Or.inr (Or.inl hsync)) rfl rfl, hidle⟩
    next =>
      split
      next hin => exact ⟨.ignored (Or.inr (Or.inr hin)) rfl rfl, hidle⟩
      next hnew =>
        split
        next e herror =>
          have hinvalid : validateTransaction cx a.node tx ≠ .ok () := by
            rw [herror]
            exact fun h => by cases h
          split
          next =>
            refine ⟨.refused hnew hinvalid rfl rfl rfl, fun id e he => ?_⟩
            rcases lookup_addOrphan he with htx | hold
            · rw [htx]
              exact hinvalid
            · exact hidle id e hold
          next => exact ⟨.refused hnew hinvalid rfl rfl rfl, hidle⟩
        next hvalid =>
          have hadded : Idle cx ((Adding.start a).add cx rates sur tx
              ((computeTxFee a.node tx).getD 0)).1.app := hidle
          split
          next p e hresult =>
            obtain ⟨hnode, hpool, hsync⟩ := app_of_add hresult
            rw [hresult] at hadded
            exact ⟨.offered hnew (by simpa using hrelay) hvalid hnode hpool hsync rfl, hadded⟩
          next p hresult =>
            obtain ⟨hnode, hpool, hsync⟩ := app_of_add hresult
            rw [hresult] at hadded
            have hstill := @processOrphansForTx_still cx rates sur
              (p.app.orphans.orphanTxs.keys.card + 1) p (tx.txid cx.sha256) hadded
            exact ⟨.offered hnew (by simpa using hrelay) hvalid (hstill.node.trans hnode)
              (hstill.mempool.trans hpool) (hstill.syncState.trans hsync) rfl, hstill.idle hadded⟩

end Waiting

section Deliveries

/-- When a message arrives, and what its handler meets. -/
abbrev Arrival := ℕ × Surroundings

/-- A `TxMsg` of the peer. -/
def deliver (cx : Context) (rates : FeeRates) (banThreshold : UInt32) (c : Connection)
    (m : Arrival × Transaction) : Connection :=
  c.read banThreshold m.1.1 fun p a => txMsg cx rates m.1.2 p.isBlockRelayOnly a m.2

def deliverAll (cx : Context) (rates : FeeRates) (banThreshold : UInt32) (c : Connection)
    (messages : List (Arrival × Transaction)) : Connection :=
  messages.foldl (deliver cx rates banThreshold) c

variable {banThreshold : UInt32} {c : Connection} {m : Arrival × Transaction}

theorem mem_of_add {pool : Mempool} (h : Accounted cx.sha256 pool) {call : Mempools.Call} {tx : Transaction}
    {fee : UInt64} {id : Bytes32} (hid : id ∈ (pool.addTransactionWithFee rates call cx.sha256 tx fee).1.transactions) :
    id ∈ pool.transactions ∨ id = tx.txid cx.sha256 := by
  obtain ⟨e, he⟩ := (mem_iff_lookup _ _).mp hid
  let o : Offer := ⟨call, tx, fee⟩
  change (o.op.apply rates cx.sha256 pool).transactions.lookup id = some e at he
  rcases @offer_cases rates _ _ h o with ⟨roomy, henters⟩ | ⟨-, hsub⟩
  · rw [apply_of_enters henters] at he
    rcases lookup_of_insertEntry he with ⟨heq, -⟩ | ⟨-, hold⟩
    · exact Or.inr heq
    · have hmem := (lookup_of_removeAll (henters.subset h hold)).2
      exact Or.inl ((mem_iff_lookup _ _).mpr ⟨e, hmem⟩)
  · exact Or.inl ((mem_iff_lookup _ _).mpr ⟨e, hsub id e he⟩)

/-- The node looks at a message: the peer is there, within the limit and relays transactions. -/
def Listens (c : Connection) (now : ℕ) : Prop :=
  ∃ p, c.peer = some p ∧ (p.checkRateLimit now).2 = false ∧ p.direction ≠ .blockRelayOnly

/-- What a message can do: at most its own transaction enters the pool, and only if it is valid
and looked at. -/
structure Delivered (cx : Context) (c : Connection) (m : Arrival × Transaction) (c' : Connection) : Prop where
  node : c'.app.node = c.app.node
  idle : Idle cx c'.app
  accounted : Accounted cx.sha256 c'.app.mempool
  books : ∀ q, c'.peer = some q →
    ∃ p, c.peer = some p ∧ q.direction = p.direction ∧ q.window = (p.checkRateLimit m.1.1).1.window
  entries : ∀ id ∈ c'.app.mempool.transactions, id ∈ c.app.mempool.transactions ∨
    id = m.2.txid cx.sha256 ∧ validateTransaction cx c.app.node m.2 = .ok () ∧ Listens c m.1.1

theorem deliver_delivered (hidle : Idle cx c.app) (hacc : Accounted cx.sha256 c.app.mempool) :
    Delivered cx c m (deliver cx rates banThreshold c m) := by
  unfold deliver Connection.read
  cases hpeer : c.peer with
  | none =>
    refine ⟨rfl, hidle, hacc, fun q hq => ?_, fun id hid => Or.inl hid⟩
    rw [hpeer] at hq
    cases hq
  | some p =>
    simp only
    cases hrate : (p.checkRateLimit m.1.1).2 with
    | true =>
      refine ⟨rfl, hidle, hacc, fun q hq => ⟨p, hpeer, ?_⟩, fun id hid => Or.inl hid⟩
      obtain ⟨hdirection, hwindow⟩ := PeerInfo.addMisbehaviour_keeps hq
      exact ⟨hdirection.trans PeerInfo.checkRateLimit_direction, hwindow⟩
    | false =>
      have hacc' := @accounted_txMsg cx rates m.1.2 (p.checkRateLimit m.1.1).1.isBlockRelayOnly c.app hacc m.2
      obtain ⟨hheard, hidle'⟩ := @txMsg_heard cx rates m.1.2 (p.checkRateLimit m.1.1).1.isBlockRelayOnly
        c.app m.2 hidle
      simp only [Bool.false_eq_true, if_false]
      generalize txMsg cx rates m.1.2 (p.checkRateLimit m.1.1).1.isBlockRelayOnly c.app m.2 = r at *
      have hbooks : ∀ q, (p.checkRateLimit m.1.1).1.penalise banThreshold m.1.1 r.penalty = some q →
          ∃ p, c.peer = some p ∧ q.direction = p.direction ∧
            q.window = (p.checkRateLimit m.1.1).1.window := by
        intro q hq
        obtain ⟨hdirection, hwindow⟩ := PeerInfo.penalise_keeps hq
        exact ⟨p, hpeer, hdirection.trans PeerInfo.checkRateLimit_direction, hwindow⟩
      cases hheard with
      | ignored hwhy happ hfree =>
        exact ⟨by rw [happ], hidle', hacc', hbooks, fun id hid => Or.inl (happ ▸ hid)⟩
      | refused hnew hinvalid hnode hpool hsync =>
        exact ⟨hnode, hidle', hacc', hbooks, fun id hid => Or.inl (hpool ▸ hid)⟩
      | offered hnew hrelay hvalid hnode hpool hsync hfree =>
        refine ⟨hnode, hidle', hacc', hbooks, fun id hid => ?_⟩
        rw [hpool] at hid
        rcases mem_of_add hacc hid with hold | heq
        · exact Or.inl hold
        · refine Or.inr ⟨heq, hvalid, p, hpeer, hrate, ?_⟩
          simpa [PeerInfo.isBlockRelayOnly] using hrelay

/-- What is in the pool after the messages was there before, or is one of them that was valid, came
within the limit and was looked at. -/
theorem mem_deliverAll {messages : List (Arrival × Transaction)} (hidle : Idle cx c.app)
    (hacc : Accounted cx.sha256 c.app.mempool) {id : Bytes32}
    (hid : id ∈ (deliverAll cx rates banThreshold c messages).app.mempool.transactions) :
    id ∈ c.app.mempool.transactions ∨
      ∃ before m after p, messages = before ++ m :: after ∧ m.2.txid cx.sha256 = id ∧
        validateTransaction cx c.app.node m.2 = .ok () ∧ c.peer = some p ∧
        p.direction ≠ .blockRelayOnly ∧
        ((p.windowAfter (before.map fun m => m.1.1)).checkRateLimit m.1.1).2 = false := by
  induction messages generalizing c with
  | nil => exact Or.inl hid
  | cons first messages ih =>
    have hfirst := @deliver_delivered cx rates banThreshold c first hidle hacc
    rcases ih hfirst.idle hfirst.accounted hid with
      hin | ⟨before, m, after, q, rfl, hm, hvalid, hq, hrelay, hrate⟩
    · rcases hfirst.entries id hin with hold | ⟨heq, hvalid, p, hp, hrate, hrelay⟩
      · exact Or.inl hold
      · exact Or.inr ⟨[], first, messages, p, rfl, heq.symm, hvalid, hp, hrelay, hrate⟩
    · obtain ⟨p, hp, hdirection, hwindow⟩ := hfirst.books q hq
      rw [hfirst.node] at hvalid
      refine Or.inr ⟨first :: before, m, after, p, rfl, hm, hvalid, hp, hdirection ▸ hrelay, ?_⟩
      rw [← hrate]
      exact (PeerInfo.checkRateLimit_window (PeerInfo.windowAfter_window hwindow.symm _)).1

end Deliveries

section Texts

theorem hexDigit_mem (n : ℕ) : hexDigit n ∈ "0123456789abcdef".toList := by
  unfold hexDigit
  rw [List.getD_eq_getElem?_getD]
  cases h : "0123456789abcdef".toList[n]? with
  | none => simp
  | some d => exact List.mem_of_getElem? h

theorem isDigit_of_mem_toString {n : ℕ} {d : Char} (h : d ∈ (toString n).toList) : d.isDigit = true := by
  have hdigits : (toString n).toList = Nat.toDigits 10 n := by simp [toString]
  rw [hdigits] at h
  exact Nat.isDigit_of_mem_toDigits (by decide) (by decide) h

theorem mem_message {o : OutPoint} {d : Char} (h : d ∈ message (.missingInput o)) :
    d ∈ "Missing input: ".toList ∨ d ∈ "0123456789abcdef".toList ∨ d ∈ ":".toList ∨ d.isDigit = true := by
  unfold message at h
  rw [List.mem_append, List.mem_append, List.mem_append] at h
  rcases h with ((hword | hhex) | hcolon) | hdigits
  · exact Or.inl hword
  · obtain ⟨b, -, hb⟩ := List.mem_flatMap.mp hhex
    rw [List.mem_cons, List.mem_singleton] at hb
    right
    left
    rcases hb with rfl | rfl
    · exact hexDigit_mem _
    · exact hexDigit_mem _
  · exact Or.inr (Or.inr (Or.inl hcolon))
  · exact Or.inr (Or.inr (Or.inr (isDigit_of_mem_toString hdigits)))

theorem looksOrphaned_missingInput (o : OutPoint) : looksOrphaned (.missingInput o) = false := by
  have hfound : ¬ "input not found".toList <:+: message (.missingInput o) := by
    intro h
    have hletter : 'o' ∈ "input not found".toList := by simp
    have hno := mem_message (h.subset hletter)
    simp at hno
  have hmissing : ¬ "missing input".toList <:+: message (.missingInput o) := by
    intro h
    have hletter : 'm' ∈ "missing input".toList := by simp
    have hno := mem_message (h.subset hletter)
    simp at hno
  unfold looksOrphaned
  rw [decide_eq_false hfound, decide_eq_false hmissing]
  rfl

end Texts

section Orders

variable {tx : Transaction}

/-- The pool with one more transaction in it; what else is in an entry does not matter. -/
def withOne (sha256 : Sha256) (pool : Pool) (tx : Transaction) : Pool :=
  if tx.txid sha256 ∈ pool then pool
  else pool.insert (tx.txid sha256) ⟨tx, 0, 0, txSize tx, 0, 0, 0⟩

def withAll (sha256 : Sha256) (pool : Pool) (txs : List Transaction) : Pool :=
  txs.foldl (withOne sha256) pool

/-- Transactions that a node can take: distinct, unconfirmed, valid one after another with a fee
that is relayed, in conflict neither with each other nor with the pool, and together within
the size and the limits of the pool. -/
structure Deliverable (cx : Context) (rates : FeeRates) (a : App) (txs : List Transaction) : Prop where
  distinct : (txs.map (Transaction.txid cx.sha256)).Nodup
  unconfirmed : ∀ tx ∈ txs, ∀ o c, a.node.utxoSet.lookup o = some c → o.txid ≠ tx.txid cx.sha256
  valid : ValidInTurn cx rates a.node a.node.utxoSet txs
  apart : ∀ t ∈ txs, ∀ t' ∈ txs, t ≠ t' → ∀ i ∈ t.inputs, ∀ j ∈ t'.inputs, j.prevOutput ≠ i.prevOutput
  free : ∀ t ∈ txs, ∀ id e, a.mempool.transactions.lookup id = some e → id ≠ t.txid cx.sha256 →
    ∀ i ∈ t.inputs, ∀ j ∈ e.tx.inputs, j.prevOutput ≠ i.prevOutput
  room : a.mempool.currentSize + (txs.map txSize).sum ≤ a.mempool.maxSize
  bounded : a.mempool.maxSize < 2 ^ 64
  limits : WithinLimits (withAll cx.sha256 a.mempool.transactions txs)

/-- The connection relays transactions, no message is over the rate limit, and no transaction that
is still to be admitted spends an output of another one. -/
structure OneByOne (cx : Context) (a : App) (p : PeerInfo) (times : List ℕ) (txs : List Transaction) :
    Prop where
  relays : p.direction ≠ .blockRelayOnly
  within : p.withinRate times = true
  independent : ∀ tx ∈ txs, tx.txid cx.sha256 ∉ a.mempool.transactions →
    ∀ i ∈ tx.inputs, ∀ t ∈ txs, i.prevOutput.txid ≠ t.txid cx.sha256

/-- In every order, all transactions are in the pool in the end, and the score of the peer is what
it was. -/
def AlwaysArrive (cx : Context) (rates : FeeRates) (banThreshold : UInt32) (a : App) (p : PeerInfo)
    (arrivals : List Arrival) (txs : List Transaction) : Prop :=
  ∀ order, order.Perm txs →
    let c := deliverAll cx rates banThreshold ⟨a, some p⟩ (arrivals.zip order)
    (∀ tx ∈ txs, tx.txid cx.sha256 ∈ c.app.mempool.transactions) ∧
      c.peer.map PeerInfo.misbehaviourScore = some p.misbehaviourScore

variable {banThreshold : UInt32} {a : App} {p : PeerInfo} {txs : List Transaction}

theorem lookup_withAll {sha256 : Sha256} {pool : Pool} {x : Bytes32} {e : MempoolEntry} (h : pool.lookup x = some e) :
    (withAll sha256 pool txs).lookup x = some e := by
  induction txs generalizing pool with
  | nil => exact h
  | cons tx txs ih =>
    refine ih ?_
    unfold withOne
    split
    next => exact h
    next hnew =>
      rw [lookup_insert_eq, if_neg]
      · exact h
      · rintro rfl
        exact hnew ((mem_iff_lookup _ _).mpr ⟨e, h⟩)

theorem lookup_withAll_new {sha256 : Sha256} {pool : Pool} (hdistinct : (txs.map (Transaction.txid sha256)).Nodup)
    (htx : tx ∈ txs) (hnew : tx.txid sha256 ∉ pool) :
    ∃ e, (withAll sha256 pool txs).lookup (tx.txid sha256) = some e ∧ e.tx = tx := by
  induction txs generalizing pool with
  | nil => cases htx
  | cons first txs ih =>
    rw [List.map_cons, List.nodup_cons] at hdistinct
    rcases List.mem_cons.mp htx with rfl | hlater
    · have hadded : (withOne sha256 pool tx).lookup (tx.txid sha256) =
          some ⟨tx, 0, 0, txSize tx, 0, 0, 0⟩ := by
        rw [withOne, if_neg hnew, lookup_insert_eq, if_pos rfl]
      exact ⟨_, @lookup_withAll txs sha256 _ _ _ hadded, rfl⟩
    · refine ih hdistinct.2 hlater ?_
      unfold withOne
      split
      next => exact hnew
      next =>
        rw [Finmap.mem_insert]
        rintro (heq | hin)
        · exact hdistinct.1 (heq ▸ List.mem_map_of_mem hlater)
        · exact hnew hin

/-- The transactions that have arrived are in the pool, next to what was there; there is
room for the rest. -/
structure Filled (cx : Context) (a : App) (txs rest : List Transaction) (app : App) : Prop where
  node : app.node = a.node
  synced : app.syncState = .synced
  idle : Idle cx app
  maxSize : app.mempool.maxSize = a.mempool.maxSize
  room : app.mempool.currentSize + (rest.map txSize).sum ≤ a.mempool.maxSize
  entries : ∀ id e, app.mempool.transactions.lookup id = some e →
    a.mempool.transactions.lookup id = some e ∨
      ∃ t ∈ txs, t ∉ rest ∧ id = t.txid cx.sha256 ∧ e.tx = t ∧ id ∉ a.mempool.transactions
  kept : ∀ id ∈ a.mempool.transactions, id ∈ app.mempool.transactions
  arrived : ∀ t ∈ txs, t ∉ rest → t.txid cx.sha256 ∈ app.mempool.transactions

theorem Filled.offer (h : Deliverable cx rates a txs) {rest : List Transaction} {app : App}
    (hfilled : Filled cx a txs (tx :: rest) app) (htx : tx ∈ txs) (hlater : tx ∉ rest)
    (hindependent : tx.txid cx.sha256 ∉ a.mempool.transactions →
      ∀ i ∈ tx.inputs, ∀ t ∈ txs, i.prevOutput.txid ≠ t.txid cx.sha256) (sur : Surroundings) :
    Filled cx a txs rest (txMsg cx rates sur false app tx).app ∧
      (txMsg cx rates sur false app tx).penalty = 0 := by
  have hroom := hfilled.room
  rw [List.map_cons, List.sum_cons] at hroom
  obtain ⟨hheard, hidle⟩ := @txMsg_heard cx rates sur false app tx hfilled.idle
  have hothers : ∀ t, t ∉ rest → t ≠ tx → t ∉ tx :: rest := by
    intro t ht hne hmem
    rcases List.mem_cons.mp hmem with heq | hin
    · exact hne heq
    · exact ht hin
  have hready : tx.txid cx.sha256 ∉ app.mempool.transactions →
      tx.isCoinbase = false ∧ validateTransaction cx app.node tx = .ok () ∧
        relayPolicy rates tx (txFee app.node.utxoSet tx) = .ok () := by
    intro hnew
    have hnew' : tx.txid cx.sha256 ∉ a.mempool.transactions := fun hin => hnew (hfilled.kept _ hin)
    rw [hfilled.node]
    exact h.valid.alone htx (hindependent hnew')
  generalize txMsg cx rates sur false app tx = r at hheard hidle ⊢
  cases hheard with
  | ignored hwhy happ hfree =>
    have hin : tx.txid cx.sha256 ∈ app.mempool.transactions := by
      rcases hwhy with hrelay | hsync | hin
      · cases hrelay
      · exact absurd hfilled.synced hsync
      · exact hin
    rw [happ] at hidle ⊢
    refine ⟨⟨hfilled.node, hfilled.synced, hidle, hfilled.maxSize, by omega, ?_, hfilled.kept, ?_⟩, hfree⟩
    · intro id e he
      rcases hfilled.entries id e he with hold | ⟨t, ht, hnot, hid, hetx, hnew⟩
      · exact Or.inl hold
      · exact Or.inr ⟨t, ht, fun hmem => hnot (List.mem_cons_of_mem _ hmem), hid, hetx, hnew⟩
    · intro t ht hnot
      by_cases heq : t = tx
      · rw [heq]
        exact hin
      · exact hfilled.arrived t ht (hothers t hnot heq)
  | refused hnew hinvalid hnode hpool hsync => exact absurd (hready hnew).2.1 hinvalid
  | offered hnew hrelay hvalid hnode hpool hsync hfree =>
    obtain ⟨hplain, -, hrelayed⟩ := hready hnew
    have hnew' : tx.txid cx.sha256 ∉ a.mempool.transactions := fun hin => hnew (hfilled.kept _ hin)
    have hfee := computeTxFee_eq (validateTransactionCached_ok hplain hvalid)
    -- Nothing in the pool spends what the transaction spends.
    have hfreeInputs : ∀ id e, app.mempool.transactions.lookup id = some e →
        ∀ i ∈ tx.inputs, ∀ j ∈ e.tx.inputs, j.prevOutput ≠ i.prevOutput := by
      intro id e he
      rcases hfilled.entries id e he with hold | ⟨t, ht, hnot, hid, hetx, -⟩
      · refine h.free tx htx id e hold ?_
        rintro rfl
        exact hnew' ((mem_iff_lookup _ _).mpr ⟨e, hold⟩)
      · rw [hetx]
        refine h.apart tx htx t ht ?_
        rintro rfl
        exact hnot List.mem_cons_self
    have hpart : Part app.mempool.transactions (withAll cx.sha256 a.mempool.transactions txs) := by
      intro id e he
      rcases hfilled.entries id e he with hold | ⟨t, ht, -, rfl, hetx, hfresh⟩
      · exact ⟨e, lookup_withAll hold, rfl⟩
      · obtain ⟨e', he', htx'⟩ := lookup_withAll_new h.distinct ht hfresh
        exact ⟨e', he', htx'.trans hetx.symm⟩
    obtain ⟨whole, hwhole, hwholeTx⟩ := lookup_withAll_new h.distinct htx hnew'
    have hlimits := @chainLimits_within _ _ _ _ _ (sur.calls 0) hpart hnew hwhole hwholeTx h.limits
    have hmax := hfilled.maxSize
    have hbounded := h.bounded
    have hadd : app.mempool.addTransactionWithFee rates (sur.calls 0) cx.sha256 tx
        ((computeTxFee app.node tx).getD 0) =
        (app.mempool.insertEntry (tx.txid cx.sha256)
          (newEntry (sur.calls 0) tx (txFee app.node.utxoSet tx) app.mempool.transactions), .ok ()) := by
      rw [hfee, Option.getD_some, addTransactionWithFee, hrelayed]
      exact addTransactionUnchecked_fits hnew hfreeInputs hlimits (by omega) (by omega)
    rw [hadd] at hpool
    refine ⟨⟨hnode.trans hfilled.node, hsync.trans hfilled.synced, hidle, ?_, ?_, ?_, ?_, ?_⟩, hfree⟩
    · rw [hpool]
      exact hmax
    · rw [hpool]
      have hsize : (newEntry (sur.calls 0) tx (txFee app.node.utxoSet tx)
          app.mempool.transactions).size = txSize tx := rfl
      simp only [insertEntry, hsize]
      omega
    · intro id e he
      rw [hpool] at he
      rcases lookup_of_insertEntry he with ⟨rfl, rfl⟩ | ⟨-, hold⟩
      · exact Or.inr ⟨tx, htx, hlater, rfl, rfl, hnew'⟩
      · rcases hfilled.entries id e hold with hold | ⟨t, ht, hnot, hid, hetx, hfresh⟩
        · exact Or.inl hold
        · exact Or.inr ⟨t, ht, fun hmem => hnot (List.mem_cons_of_mem _ hmem), hid, hetx, hfresh⟩
    · intro id hid
      rw [hpool]
      exact Finmap.mem_insert.mpr (Or.inr (hfilled.kept id hid))
    · intro t ht hnot
      rw [hpool]
      by_cases heq : t = tx
      · rw [heq]
        exact Finmap.mem_insert.mpr (Or.inl rfl)
      · exact Finmap.mem_insert.mpr (Or.inr (hfilled.arrived t ht (hothers t hnot heq)))

theorem Filled.deliver (h : Deliverable cx rates a txs) {tx : Transaction} {rest : List Transaction} {c : Connection}
    (hfilled : Filled cx a txs (tx :: rest) c.app) (htx : tx ∈ txs) (hlater : tx ∉ rest)
    (hindependent : tx.txid cx.sha256 ∉ a.mempool.transactions →
      ∀ i ∈ tx.inputs, ∀ t ∈ txs, i.prevOutput.txid ≠ t.txid cx.sha256) {q : PeerInfo} (hpeer : c.peer = some q)
    (hrelays : q.direction ≠ .blockRelayOnly) {arrival : Arrival} (hrate : (q.checkRateLimit arrival.1).2 = false) :
    Filled cx a txs rest (deliver cx rates banThreshold c (arrival, tx)).app ∧
      (Relays.deliver cx rates banThreshold c (arrival, tx)).peer = some (q.checkRateLimit arrival.1).1 := by
  have hdirection : (q.checkRateLimit arrival.1).1.isBlockRelayOnly = false := by
    simpa [PeerInfo.isBlockRelayOnly] using hrelays
  obtain ⟨hnext, hfree⟩ := hfilled.offer h htx hlater hindependent arrival.2
  unfold Relays.deliver Connection.read
  simp only [hpeer, hrate, hdirection, Bool.false_eq_true, if_false, hfree, PeerInfo.penalise_zero]
  exact ⟨hnext, trivial⟩

theorem deliverAll_filled (h : Deliverable cx rates a txs) {order : List Transaction} {arrivals : List Arrival}
    {c : Connection} {q : PeerInfo} (hindependent : ∀ tx ∈ txs, tx.txid cx.sha256 ∉ a.mempool.transactions →
      ∀ i ∈ tx.inputs, ∀ t ∈ txs, i.prevOutput.txid ≠ t.txid cx.sha256) (hfilled : Filled cx a txs order c.app)
    (horder : ∀ tx ∈ order, tx ∈ txs) (hnodup : order.Nodup) (hlength : arrivals.length = order.length)
    (hpeer : c.peer = some q) (hrelays : q.direction ≠ .blockRelayOnly)
    (hwithin : q.withinRate (arrivals.map Prod.fst) = true) :
    Filled cx a txs [] (deliverAll cx rates banThreshold c (arrivals.zip order)).app ∧
      (deliverAll cx rates banThreshold c (arrivals.zip order)).peer.map PeerInfo.misbehaviourScore =
        some q.misbehaviourScore := by
  induction order generalizing arrivals c q with
  | nil =>
    rw [List.zip_nil_right]
    exact ⟨hfilled, by rw [deliverAll, List.foldl_nil, hpeer]; rfl⟩
  | cons tx order ih =>
    obtain ⟨arrival, arrivals, rfl⟩ := List.exists_cons_of_length_eq_add_one hlength
    rw [List.forall_mem_cons] at horder
    rw [List.nodup_cons] at hnodup
    simp only [List.map_cons, PeerInfo.withinRate, Bool.and_eq_true, Bool.not_eq_true'] at hwithin
    obtain ⟨hnext, hpeer'⟩ := @Filled.deliver cx rates banThreshold a txs h tx order c hfilled horder.1
      hnodup.1 (hindependent tx horder.1) q hpeer hrelays arrival hwithin.1
    have hlength' : arrivals.length = order.length := by simpa using hlength
    obtain ⟨hall, hscore⟩ := ih hnext horder.2 hnodup.2 hlength' hpeer'
      (by rw [PeerInfo.checkRateLimit_direction]; exact hrelays) hwithin.2
    refine ⟨hall, hscore.trans ?_⟩
    rw [PeerInfo.checkRateLimit_score]

theorem exists_order (htx : tx ∈ txs) {k : ℕ} (hk : k < txs.length) :
    ∃ before after, (before ++ tx :: after).Perm txs ∧ before.length = k := by
  obtain ⟨left, right, rfl⟩ := List.append_of_mem htx
  refine ⟨(left ++ right).take k, (left ++ right).drop k, ?_, ?_⟩
  · refine List.perm_middle.trans ?_
    rw [List.take_append_drop]
    exact List.perm_middle.symm
  · simp only [List.length_append, List.length_cons] at hk
    rw [List.length_take, List.length_append]
    omega

/-- Wherever a transaction is delivered, it was looked at when it ends up in the pool. -/
theorem looked_at {arrivals : List Arrival} (hidle : Idle cx a) (hacc : Accounted cx.sha256 a.mempool)
    (hdistinct : (txs.map (Transaction.txid cx.sha256)).Nodup) (hlength : arrivals.length = txs.length)
    (harrive : AlwaysArrive cx rates banThreshold a p arrivals txs) {tx : Transaction} (htx : tx ∈ txs)
    (hnew : tx.txid cx.sha256 ∉ a.mempool.transactions) {earlier later : List Arrival} {arrival : Arrival}
    (hsplit : arrivals = earlier ++ arrival :: later) :
    validateTransaction cx a.node tx = .ok () ∧ p.direction ≠ .blockRelayOnly ∧
      ((p.windowAfter (earlier.map Prod.fst)).checkRateLimit arrival.1).2 = false := by
  have hk : earlier.length < txs.length := by
    rw [← hlength, hsplit, List.length_append, List.length_cons]
    omega
  obtain ⟨before, after, hperm, hbefore⟩ := exists_order htx hk
  obtain ⟨hall, -⟩ := harrive _ hperm
  have hzip : arrivals.zip (before ++ tx :: after) =
      earlier.zip before ++ (arrival, tx) :: later.zip after := by
    rw [hsplit, List.zip_append hbefore.symm, List.zip_cons_cons]
  rcases mem_deliverAll hidle hacc (hall tx htx) with hold | ⟨pre, m, post, q, hmsgs, hm, hvalid, hq, hrelay, hrate⟩
  · exact absurd hold hnew
  · obtain rfl : p = q := Option.some.inj hq
    -- Only one message carries a transaction of this identifier.
    have hdistinct' : ((before ++ tx :: after).map (Transaction.txid cx.sha256)).Nodup :=
      (hperm.map _).nodup_iff.mpr hdistinct
    have hids : ((arrivals.zip (before ++ tx :: after)).map fun m => m.2.txid cx.sha256).Nodup := by
      have hsnd : (arrivals.zip (before ++ tx :: after)).map Prod.snd = before ++ tx :: after :=
        List.map_snd_zip (by rw [hlength, hperm.length_eq])
      rwa [← Function.comp_def (Transaction.txid cx.sha256) Prod.snd, ← List.map_map, hsnd]
    have hpre : pre.length = (earlier.zip before).length := by
      have hboth := congrArg (List.map fun m : Arrival × Transaction => m.2.txid cx.sha256)
        (hmsgs.symm.trans hzip)
      rw [hzip] at hids
      simp only [List.map_append, List.map_cons, hm] at hboth hids
      rw [List.nodup_middle, List.nodup_cons, List.mem_append, not_or] at hids
      have hfirst := ((List.append_cons_inj_of_notMem hids.1.1 hids.1.2).mp hboth.symm).1
      simpa using (congrArg List.length hfirst).symm
    obtain ⟨hpairs, hrest⟩ := List.append_inj (hmsgs.symm.trans hzip) hpre
    obtain ⟨rfl, -⟩ := List.cons.inj hrest
    have htimes : (pre.map fun m => m.1.1) = earlier.map Prod.fst := by
      have hfst := congrArg (List.map Prod.fst) (@List.map_fst_zip _ _ earlier before (by omega))
      rw [List.map_map] at hfst
      rw [hpairs]
      exact hfst
    rw [htimes] at hrate
    exact ⟨hvalid, hrelay, hrate⟩

/-- Transactions that a node can take all arrive, in whatever order one peer delivers them, without a
change of its score, if they do not spend from each other and the peer keeps to
the rate limit. As soon as one of them is new, these conditions are necessary. -/
theorem all_arrive_iff_one_by_one {steps : List Step} (hrun : NodeRun cx rates a steps)
    (hsynced : a.syncState = .synced) (hidle : Idle cx a) (h : Deliverable cx rates a txs) {arrivals : List Arrival}
    (hlength : arrivals.length = txs.length) :
    (OneByOne cx a p (arrivals.map Prod.fst) txs → AlwaysArrive cx rates banThreshold a p arrivals txs) ∧
      ((∃ tx ∈ txs, tx.txid cx.sha256 ∉ a.mempool.transactions) →
        (AlwaysArrive cx rates banThreshold a p arrivals txs ↔
          OneByOne cx a p (arrivals.map Prod.fst) txs)) := by
  have hnodup : txs.Nodup := List.Nodup.of_map _ h.distinct
  have henough : OneByOne cx a p (arrivals.map Prod.fst) txs →
      AlwaysArrive cx rates banThreshold a p arrivals txs := by
    intro hone order hperm
    have hstart : Filled cx a txs order a := by
      refine ⟨rfl, hsynced, hidle, rfl, ?_, fun id e he => Or.inl he, fun id hid => hid, ?_⟩
      · rw [(hperm.map txSize).sum_eq]
        exact h.room
      · intro t ht hnot
        exact absurd (hperm.mem_iff.mpr ht) hnot
    obtain ⟨hall, hscore⟩ := @deliverAll_filled cx rates banThreshold a txs h order arrivals
      ⟨a, some p⟩ p hone.independent hstart (fun tx htx => hperm.mem_iff.mp htx) (hperm.nodup_iff.mpr hnodup)
      (hlength.trans hperm.length_eq.symm) rfl hone.relays hone.within
    exact ⟨fun tx htx => hall.arrived tx htx (by simp), hscore⟩
  refine ⟨henough, fun hnew => ⟨fun harrive => ?_, henough⟩⟩
  obtain ⟨new, hmem, hnotin⟩ := hnew
  have hlook := @looked_at cx rates banThreshold a p txs arrivals hidle (nodeRun_accounted hrun)
    h.distinct hlength harrive
  have hpos : 0 < arrivals.length := hlength ▸ List.length_pos_of_mem hmem
  obtain ⟨first, others, hfirst⟩ := List.exists_cons_of_length_pos hpos
  refine ⟨(hlook hmem hnotin (show arrivals = [] ++ first :: others from hfirst)).2.1, ?_, ?_⟩
  · rw [PeerInfo.withinRate_iff]
    intro before now after hsplit
    obtain ⟨earlier, rest, rfl, rfl, hrest⟩ := List.map_eq_append_iff.mp hsplit
    obtain ⟨arrival, later, rfl, rfl, -⟩ := List.map_eq_cons_iff.mp hrest
    exact (hlook hmem hnotin rfl).2.2
  · intro tx htx hfresh i hi t ht heq
    obtain ⟨hvalid, -, -⟩ := hlook htx hfresh (show arrivals = [] ++ first :: others from hfirst)
    obtain ⟨c, hc, -⟩ := (validateTransactionCached_ok (h.valid.plain htx) hvalid).present i hi
    exact h.unconfirmed t ht _ c hc heq

end Orders

section Families

open RipeChains Runs

theorem withinLimits_of_small {pool : Pool} (h : pool.keys.card ≤ maxAncestors) : WithinLimits pool where
  ancestors x _ := by
    refine (Finset.card_le_card fun a ha => ?_).trans h
    exact Finmap.mem_keys.mpr (transGen_right (mem_poolAncestors.mp ha).2)
  descendants x _ := by
    refine (Finset.card_le_card fun d hd => ?_).trans h
    exact Finmap.mem_keys.mpr (transGen_left (mem_poolDescendants.mp hd).2)

theorem card_withAll (sha256 : Sha256) (pool : Pool) (txs : List Transaction) :
    (withAll sha256 pool txs).keys.card ≤ pool.keys.card + txs.length := by
  induction txs generalizing pool with
  | nil => exact le_rfl
  | cons tx txs ih =>
    have hone : (withOne sha256 pool tx).keys.card ≤ pool.keys.card + 1 := by
      unfold withOne
      split
      next => omega
      next => exact card_keys_insert_le _ _ _
    have hrest := ih (withOne sha256 pool tx)
    rw [List.length_cons]
    change (withAll sha256 (withOne sha256 pool tx) txs).keys.card ≤ _
    omega

/-- The transactions have no time locks and are valid one after another at height 101. -/
def inTurnOk : UtxoSet → List Transaction → Bool
  | _, [] => true
  | u, tx :: txs =>
      !tx.isCoinbase && decide (tx.lockTime = 0) &&
        tx.inputs.all (fun i => decide (i.sequence &&& 0x400000 = 0 ∨ i.sequence &&& 0x80000000 ≠ 0)) &&
        (validateTransactionCached scriptNode.checks 0 tx u 101 (some fun _ => 0)).isOk &&
        (relayPolicy exactRates tx (txFee u tx)).isOk &&
        (applyTransaction Sha256.runSha256 u tx 102).1.isOk &&
        inTurnOk (applyTransaction Sha256.runSha256 u tx 102).2 txs

theorem validInTurn_of_check {s : NodeState} (hheight : s.height = 101) {u : UtxoSet} {txs : List Transaction}
    (h : inTurnOk u txs = true) : ValidInTurn scriptNode exactRates s u txs := by
  induction txs generalizing u with
  | nil => trivial
  | cons tx txs ih =>
    simp only [inTurnOk, Bool.and_eq_true, Bool.not_eq_true', decide_eq_true_eq, List.all_eq_true] at h
    obtain ⟨⟨⟨⟨⟨⟨hplain, hlock⟩, hseq⟩, hvalid⟩, hrelayed⟩, happly⟩, hrest⟩ := h
    refine ⟨hplain, ?_, ok_of_isOk hrelayed, _, ?_, ih hrest⟩
    · rw [validateTransaction]
      change validateTransactionCached _ 0 tx u s.height _ = _
      rw [hheight, validateTransactionCached_untimed _ (fun _ => 0) hlock hseq]
      exact ok_of_isOk hvalid
    · rw [hheight, ← ok_of_isOk happly]
      simp only [Sha256.runSha256_eq]
      rfl

/-- A synced node on the ripe chain with an empty pool. -/
structure Ready (a : App) (steps : List Step) : Prop where
  run : NodeRun scriptNode exactRates a steps
  synced : a.syncState = .synced
  mempool : a.mempool = Mempool.new 100000
  orphans : a.orphans = OrphanTxs.empty
  height : a.node.height = 101
  set : a.node.utxoSet = fundedSet

theorem exists_ready : ∃ a steps, Ready a steps := by
  obtain ⟨a, steps, h⟩ := exists_ripened exactRates (le_refl 100)
  obtain ⟨hheight, hset, -⟩ := h.chain le_rfl
  have hrun := @NodeRun.step _ _ _ _ calmDay (.sync .synced) _ h.run rfl
  exact ⟨_, _, hrun, rfl, h.mempool, h.orphans, hheight, hset⟩

theorem Ready.idle {a : App} {steps : List Step} (h : Ready a steps) : Idle scriptNode a := by
  intro id e he
  rw [h.orphans] at he
  cases he

theorem txid_of_funded {o : OutPoint} {c : UTXO} (h : fundedSet.lookup o = some c) :
    o.txid = fundingTxid ∨ o.txid = genesisTxid := by
  simp only [fundedSet, lookup_insert_eq] at h
  split at h
  next heq => exact Or.inl (by rw [heq])
  next =>
    split at h
    next heq => exact Or.inl (by rw [heq])
    next =>
      split at h
      next heq => exact Or.inr (by rw [heq])
      next => simp at h

theorem Ready.deliverable {a : App} {steps : List Step} (h : Ready a steps) {txs : List Transaction}
    (hcheck : inTurnOk fundedSet txs = true)
    (hdistinct : (fundingTxid :: genesisTxid :: txs.map (Transaction.txid Sha256.runSha256)).Nodup)
    (hapart : ∀ t ∈ txs, ∀ t' ∈ txs, t ≠ t' → ∀ i ∈ t.inputs, ∀ j ∈ t'.inputs, j.prevOutput ≠ i.prevOutput)
    (hroom : (txs.map txSize).sum ≤ 100000) (hfew : txs.length ≤ maxAncestors) :
    Deliverable scriptNode exactRates a txs := by
  rw [Sha256.runSha256_eq, List.nodup_cons, List.nodup_cons, List.mem_cons, not_or] at hdistinct
  obtain ⟨⟨-, hfunding⟩, hgenesis, hnodup⟩ := hdistinct
  refine ⟨hnodup, ?_, ?_, hapart, ?_, ?_, ?_, ?_⟩
  · intro tx htx o c hc heq
    rw [h.set] at hc
    have hmem : o.txid ∈ txs.map (Transaction.txid Sha256.sha256) := heq ▸ List.mem_map_of_mem htx
    rcases txid_of_funded hc with hf | hg
    · exact hfunding (hf ▸ hmem)
    · exact hgenesis (hg ▸ hmem)
  · rw [h.set]
    exact validInTurn_of_check h.height hcheck
  · intro t _ id e he
    rw [h.mempool] at he
    simp [Mempool.new] at he
  · rw [h.mempool]
    change 0 + _ ≤ 100000
    omega
  · rw [h.mempool]
    change 100000 < 2 ^ 64
    omega
  · refine withinLimits_of_small ((card_withAll _ _ _).trans ?_)
    rw [h.mempool]
    change (∅ : Pool).keys.card + _ ≤ _
    rw [Finmap.keys_empty, Finset.card_empty]
    omega

/-- A peer that has finished the handshake. -/
def readyPeer : PeerInfo := { PeerInfo.new 0 .inbound with handshake := .ready }

/-- Two messages in the first seconds of the connection. -/
def twoArrivals : List Arrival := [(10 ^ 9, calmDay), (2 * 10 ^ 9, calmDay)]

/-- The two outputs of the first block are spent by one transaction each. -/
def coinPair : List Transaction :=
  [spendFunding delayedScript 0 5 999990000, spendFunding openScript 1 5 999990000]

theorem pair_arrives : ∃ a steps, NodeRun scriptNode exactRates a steps ∧ Deliverable scriptNode exactRates a coinPair ∧
      OneByOne scriptNode a readyPeer (twoArrivals.map Prod.fst) coinPair ∧
      AlwaysArrive scriptNode exactRates 100 a readyPeer twoArrivals coinPair := by
  obtain ⟨a, steps, h⟩ := exists_ready
  have hdeliverable := @Ready.deliverable a steps h coinPair (by decide +kernel)
    (by decide +kernel) (by decide +kernel) (by decide +kernel) (by decide)
  have hone : OneByOne scriptNode a readyPeer (twoArrivals.map Prod.fst) coinPair := by
    refine ⟨by decide, by decide +kernel, fun tx htx _ => ?_⟩
    have hapart : ∀ tx ∈ coinPair, ∀ i ∈ tx.inputs, ∀ t ∈ coinPair,
        i.prevOutput.txid ≠ t.txid Sha256.runSha256 := by decide +kernel
    rw [Sha256.runSha256_eq] at hapart
    exact hapart tx htx
  exact ⟨a, steps, h.run, hdeliverable, hone,
    (all_arrive_iff_one_by_one h.run h.synced h.idle hdeliverable rfl).1 hone⟩

/-- One output of the first block is spent, and the child spends the new output. -/
def parentSpend : Transaction := spendFunding openScript 1 0xffffffff 999990000

def childSpend : Transaction :=
  { version := 2
    inputs := [⟨⟨parentSpend.txid Sha256.runSha256, 0⟩, [], 0xffffffff, ⟨[openScript]⟩⟩]
    outputs := [payTo openScript 999980000]
    lockTime := 0 }

theorem txMsg_of_error {sur : Surroundings} {a : App} {tx : Transaction} {e : ValidationError}
    (hsync : a.syncState = .synced) (hnew : tx.txid cx.sha256 ∉ a.mempool.transactions)
    (herror : validateTransaction cx a.node tx = .error e) (hlooks : looksOrphaned e = false) :
    txMsg cx rates sur false a tx = a.penalised 5 := by
  unfold txMsg
  simp only [hsync, hnew, herror, hlooks, ne_eq, not_true_eq_false, Bool.false_eq_true, if_false]

theorem validate_child {s : NodeState} (hheight : s.height = 101) (hset : s.utxoSet = fundedSet) :
    validateTransaction scriptNode s childSpend =
      .error (.missingInput ⟨parentSpend.txid Sha256.runSha256, 0⟩) := by
  rw [validateTransaction_ripe hheight hset rfl (by decide +kernel)]
  decide +kernel

/-- The child of an unconfirmed parent is refused after its parent, and it costs the peer five
points. -/
theorem child_is_refused :
    ∃ a steps, NodeRun scriptNode exactRates a steps ∧ a.syncState = .synced ∧ Idle scriptNode a ∧
      Deliverable scriptNode exactRates a [parentSpend, childSpend] ∧
      readyPeer.withinRate (twoArrivals.map Prod.fst) = true ∧
      let c := deliverAll scriptNode exactRates 100 ⟨a, some readyPeer⟩
        (twoArrivals.zip [parentSpend, childSpend])
      childSpend.txid scriptNode.sha256 ∉ c.app.mempool.transactions ∧
        c.peer.map PeerInfo.misbehaviourScore = some 5 := by
  obtain ⟨a, steps, h⟩ := exists_ready
  have hids : (fundingTxid :: genesisTxid :: [parentSpend, childSpend].map
      (Transaction.txid Sha256.runSha256)).Nodup := by decide +kernel
  have hdeliverable := @Ready.deliverable a steps h [parentSpend, childSpend] (by decide +kernel)
    hids (by decide +kernel) (by decide +kernel) (by decide)
  refine ⟨a, steps, h.run, h.synced, h.idle, hdeliverable, by decide +kernel, ?_⟩
  have hstart : Filled scriptNode a [parentSpend, childSpend] [parentSpend, childSpend] a :=
    ⟨rfl, h.synced, h.idle, rfl, hdeliverable.room, fun id e he => Or.inl he, fun id hid => hid,
      fun t ht hnot => absurd ht hnot⟩
  have hne : childSpend ≠ parentSpend := by decide +kernel
  have hindependent : ∀ i ∈ parentSpend.inputs, ∀ t ∈ [parentSpend, childSpend],
      i.prevOutput.txid ≠ t.txid Sha256.runSha256 := by decide +kernel
  rw [Sha256.runSha256_eq] at hindependent
  obtain ⟨hfirst, hpeer⟩ := @Filled.deliver scriptNode exactRates 100 a _ hdeliverable parentSpend
    [childSpend] ⟨a, some readyPeer⟩ hstart (by simp) (by simpa using hne.symm) (fun _ => hindependent)
    readyPeer rfl (by decide) (10 ^ 9, calmDay) (by decide +kernel)
  have hnew : childSpend.txid scriptNode.sha256 ∉ (deliver scriptNode exactRates 100 ⟨a, some readyPeer⟩
      ((10 ^ 9, calmDay), parentSpend)).app.mempool.transactions := by
    intro hin
    obtain ⟨e, he⟩ := (mem_iff_lookup _ _).mp hin
    rcases hfirst.entries _ e he with hold | ⟨t, ht, hnot, hid, -⟩
    · rw [h.mempool] at hold
      simp [Mempool.new] at hold
    · have hother : childSpend.txid Sha256.runSha256 ≠ parentSpend.txid Sha256.runSha256 := by
        decide +kernel
      rw [Sha256.runSha256_eq] at hother
      rcases List.mem_cons.mp ht with rfl | hlast
      · exact hother hid
      · exact hnot hlast
  have hrefused := @txMsg_of_error scriptNode exactRates calmDay _ childSpend _ hfirst.synced hnew
    (hfirst.node ▸ validate_child h.height h.set) (looksOrphaned_missingInput _)
  have hwindow : ((readyPeer.checkRateLimit (10 ^ 9)).1.checkRateLimit (2 * 10 ^ 9)).2 = false := by
    decide +kernel
  have hdirection : ((readyPeer.checkRateLimit (10 ^ 9)).1.checkRateLimit
      (2 * 10 ^ 9)).1.isBlockRelayOnly = false := by decide +kernel
  have hscore : (((readyPeer.checkRateLimit (10 ^ 9)).1.checkRateLimit (2 * 10 ^ 9)).1.penalise 100
      (2 * 10 ^ 9) 5).map PeerInfo.misbehaviourScore = some 5 := by decide +kernel
  rw [← hscore]
  simp only [twoArrivals, List.zip_cons_cons, List.zip_nil_left, deliverAll, List.foldl_cons, List.foldl_nil]
  generalize deliver scriptNode exactRates 100 ⟨a, some readyPeer⟩ ((10 ^ 9, calmDay), parentSpend) = c at *
  simp only [deliver, Connection.read, hpeer, hwindow, hdirection, hrefused, Bool.false_eq_true, if_false]
  exact ⟨hnew, rfl⟩

end Families

end KuberCoin.Relays
