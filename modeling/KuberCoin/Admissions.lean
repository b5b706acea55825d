import KuberCoin.ChainLimits
import KuberCoin.RealCoins
import KuberCoin.RipeChains

/-!
What enters the pool of a node.
`add_transaction_with_fee` checks neither scripts nor fees, so that rests on the handlers. All of
them but one validate the transaction and compute its fee from the same set. `bumpfee` edits a
transaction that is in the pool and adds it as it is: the result is sound if it still
validates, if the difference was taken from an output, and if the fee of the original
entry was right.
-/
namespace KuberCoin.Admissions

open Bytes Maps Transactions Blocks UtxoSets Params Validator NodeStates NodeStates.NodeState AddBlock
  BlockEffects Runs Mempools Mempool PoolAccounting PoolEvictions ChainLimits Templates Handlers
  ProvenWork RealCoins

variable {cx : Context} {rates : FeeRates}

section Nodes

variable {sur : Surroundings} {a a' : App} {steps : List Step}

theorem accept_run {i : ℕ} {b : Block} {result : Except AddBlockError Exit} (h : ∃ calls, Run cx a.node calls)
    (ha : acceptBlock cx sur i a b = some (a', result)) : ∃ calls, Run cx a'.node calls := by
  obtain ⟨calls, hrun⟩ := h
  obtain ⟨o, ho, heq⟩ := Option.map_eq_some_iff.mp ha
  refine ⟨calls ++ o.calls, ?_⟩
  have hadd := Run.add hrun ho
  cases hresult : o.result with
  | error e =>
    rw [hresult] at heq
    cases heq
    exact hadd
  | ok exit =>
    rw [hresult] at heq
    cases heq
    exact hadd


theorem generate_run {script : List UInt8} {n : ℕ} (h : ∃ calls, Run cx a.node calls)
    (ha : generateBlocks cx rates sur script n a = some a') : ∃ calls, Run cx a'.node calls := by
  induction n generalizing a with
  | zero =>
    cases ha
    exact h
  | succ n ih =>
    unfold generateBlocks at ha
    split at ha
    next => cases ha
    next a₁ e haccept =>
      cases ha
      exact accept_run h haccept
    next a₁ exit haccept => exact ih (accept_run h haccept) ha

theorem handle_run {e : Event} {r : Handled} (h : ∃ calls, Run cx a.node calls)
    (hr : handle cx rates sur a e = some r) : ∃ calls, Run cx r.app.node calls := by
  cases e with
  | blockMsg b =>
    simp only [handle, blockMsg] at hr
    split at hr
    next =>
      cases hr
      exact h
    next =>
      split at hr
      next =>
        cases hr
        exact h
      next =>
        obtain ⟨⟨a', result⟩, haccept, rfl⟩ := Option.map_eq_some_iff.mp hr
        have hrun := accept_run h haccept
        cases result with
        | error e => exact hrun
        | ok exit => exact hrun
  | submitblock b =>
    simp only [handle, submitblock] at hr
    split at hr
    next =>
      cases hr
      exact h
    next =>
      obtain ⟨⟨a', result⟩, haccept, rfl⟩ := Option.map_eq_some_iff.mp hr
      exact accept_run h haccept
  | generatetoaddress nblocks script =>
    simp only [handle, generatetoaddress] at hr
    split at hr
    next =>
      cases hr
      exact h
    next =>
      obtain ⟨a', hgenerate, rfl⟩ := Option.map_eq_some_iff.mp hr
      exact generate_run h hgenerate
  | txMsg | sendrawtransaction | submitTx | sendtoaddress | bumpfee | sync =>
    rw [handle_node rfl hr]
    exact h

theorem nodeRun_run (hrun : NodeRun cx rates a steps) : ∃ calls, Run cx a.node calls := by
  induction hrun with
  | fresh h maxSize => exact ⟨[], Run.fresh h⟩
  | step hrun h ih => exact handle_run ih h

theorem nodeRun_real (hrun : NodeRun cx rates a steps) : RealNode a.node := by
  obtain ⟨calls, hcalls⟩ := nodeRun_run hrun
  exact run_real hcalls

end Nodes

section Fees

variable {s : NodeState} {tx : Transaction}

theorem input_of_coinbase (h : RealNode s) (hcb : tx.isCoinbase = true) :
    ∃ i, tx.inputs = [i] ∧ s.utxoSet.lookup i.prevOutput = none := by
  unfold Transaction.isCoinbase at hcb
  split at hcb
  next i hinputs =>
    have hnull : i.prevOutput = OutPoint.null := by
      simp only [TxInput.isCoinbase, OutPoint.isNull, Bool.and_eq_true, beq_iff_eq] at hcb
      obtain ⟨htxid, hvout⟩ := hcb
      cases hout : i.prevOutput with
      | mk txid vout =>
        rw [hout] at htxid hvout
        exact congrArg₂ OutPoint.mk htxid hvout
    refine ⟨i, hinputs, ?_⟩
    cases hlook : s.utxoSet.lookup i.prevOutput with
    | none => rfl
    | some c => exact absurd hnull (h.set _ c hlook)
  next => cases hcb

theorem fee_of_coinbase (h : RealNode s) (hcb : tx.isCoinbase = true) :
    txFee s.utxoSet tx = 0 ∧ computeTxFee s tx = none := by
  obtain ⟨i, hinputs, hnone⟩ := input_of_coinbase h hcb
  refine ⟨?_, ?_⟩
  · have hzero : (tx.inputs.filterMap fun i =>
        (s.utxoSet.lookup i.prevOutput).map fun c => c.output.value).sum = 0 := by
      simp only [hinputs, List.filterMap_cons, hnone, Option.map_none, List.filterMap_nil, List.sum_nil]
    apply UInt64.toNat.inj
    rw [txFee, hzero, saturatingSub_toNat]
    exact Nat.zero_sub _
  · simp only [computeTxFee, hinputs, List.mapM_cons, hnone, Option.map_none]
    rfl

/-- Where everything a transaction spends is there, the two ways to compute a fee agree. -/
theorem computeTxFee_eq {height : ℕ} (h : TxChecked s.utxoSet height tx) :
    computeTxFee s tx = some (txFee s.utxoSet tx) := by
  have hvalues : ∀ inputs : List TxInput, (∀ i ∈ inputs, i ∈ tx.inputs) →
      inputs.mapM (fun i => (s.utxoSet.lookup i.prevOutput).map fun c => c.output.value) =
        some (inputs.filterMap fun i => (s.utxoSet.lookup i.prevOutput).map fun c => c.output.value) := by
    intro inputs hsub
    induction inputs with
    | nil => rfl
    | cons i rest ih =>
      obtain ⟨hi, hrest⟩ := List.forall_mem_cons.mp hsub
      obtain ⟨c, hc, -⟩ := h.present i hi
      simp only [List.mapM_cons, ih hrest, hc, Option.map_some, List.filterMap_cons]
      rfl
  unfold computeTxFee
  rw [hvalues tx.inputs fun _ hi => hi]
  rfl

end Fees

section Soundness

/-- The transaction was accepted by validation in the state it was added in, all that it
spends was there, and the fee is what it spends without what it pays. -/
structure Sound (cx : Context) (i : Insertion) : Prop where
  accepted : validateTransaction cx i.node i.tx = .ok ()
  funded : ∀ input ∈ i.tx.inputs, ∃ c, i.node.utxoSet.lookup input.prevOutput = some c
  fee : i.fee.toNat + outputValue i.tx = inputValue i.node.utxoSet i.tx

theorem Sound.not_coinbase {i : Insertion} (h : Sound cx i) (hreal : RealNode i.node) : i.tx.isCoinbase = false := by
  by_contra hcb
  obtain ⟨input, hinputs, hnone⟩ := input_of_coinbase hreal (by simpa using hcb)
  obtain ⟨c, hc⟩ := h.funded input (by rw [hinputs]; exact List.mem_cons_self)
  rw [hnone] at hc
  cases hc

variable {s : NodeState} {tx : Transaction}

theorem sound_of_validated (hreal : RealNode s) (h : validateTransaction cx s tx = .ok ())
    (hfee : txFee s.utxoSet tx ≠ 0) : Sound cx ⟨s, tx, txFee s.utxoSet tx⟩ := by
  have hcb : tx.isCoinbase = false := by
    by_contra hcb
    exact hfee (fee_of_coinbase hreal (by simpa using hcb)).1
  have hchecked := validateTransactionCached_ok hcb h
  refine ⟨h, fun input hinput => ?_, ?_⟩
  · obtain ⟨c, hc, -⟩ := hchecked.present input hinput
    exact ⟨c, hc⟩
  · have hbalanced := hchecked.balanced
    change (txFee s.utxoSet tx).toNat + outputValue tx = inputValue s.utxoSet tx
    rw [txFee_toNat hchecked]
    omega

theorem sound_of_computed (hreal : RealNode s) (h : validateTransaction cx s tx = .ok ())
    (hfee : (computeTxFee s tx).getD 0 ≠ 0) : Sound cx ⟨s, tx, (computeTxFee s tx).getD 0⟩ := by
  have hcb : tx.isCoinbase = false := by
    by_contra hcb
    rw [(fee_of_coinbase hreal (by simpa using hcb)).2] at hfee
    exact hfee rfl
  have heq := computeTxFee_eq (validateTransactionCached_ok hcb h)
  rw [heq, Option.getD_some] at hfee ⊢
  exact sound_of_validated hreal h hfee

end Soundness

section Adding

/-- Every insertion so far was sound, and every entry of the pool was one of them. -/
structure Vetted (cx : Context) (a : App) (log : List Insertion) : Prop where
  accounted : Accounted cx.sha256 a.mempool
  sound : ∀ i ∈ log, Sound cx i
  plain : ∀ i ∈ log, i.tx.isCoinbase = false
  logged : ∀ txid e, a.mempool.transactions.lookup txid = some e → ∃ i ∈ log, i.tx = e.tx ∧ i.fee = e.fee

variable {sur : Surroundings} {log : List Insertion}

theorem fee_ne_zero {tx : Transaction} {fee : UInt64} (h : relayPolicy rates tx fee = .ok ()) : fee ≠ 0 := by
  rintro rfl
  rw [relayPolicy, if_pos (txSize_pos tx), if_pos rfl] at h
  cases h

theorem Vetted.add {p : Adding} (h : Vetted cx p.app (log ++ p.inserted)) (hreal : RealNode p.app.node)
    {tx : Transaction} {fee : UInt64} (hsound : fee ≠ 0 → Sound cx ⟨p.app.node, tx, fee⟩) :
    Vetted cx (p.add cx rates sur tx fee).1.app (log ++ (p.add cx rates sur tx fee).1.inserted) := by
  let o : Offer := ⟨sur.calls p.tried, tx, fee⟩
  have hacc : Accounted cx.sha256 (o.op.apply rates cx.sha256 p.app.mempool) := h.accounted.apply o.op
  rcases @offer_cases rates _ _ h.accounted o with ⟨roomy, henters⟩ | ⟨hno, hsub⟩
  · have hresult := result_of_enters henters
    have hinserted : (p.add cx rates sur tx fee).1.inserted =
        p.inserted ++ [⟨p.app.node, tx, fee⟩] := by
      simp only [Adding.add, show p.app.mempool.addTransactionWithFee rates (sur.calls p.tried) cx.sha256
        tx fee = _ from hresult]
    have hnew : Sound cx ⟨p.app.node, tx, fee⟩ := hsound (fee_ne_zero henters.relayed)
    refine ⟨hacc, ?_, ?_, ?_⟩
    · rw [hinserted, ← List.append_assoc]
      intro i hi
      rcases List.mem_append.mp hi with hold | hlast
      · exact h.sound i hold
      · rw [List.mem_singleton.mp hlast]
        exact hnew
    · rw [hinserted, ← List.append_assoc]
      intro i hi
      rcases List.mem_append.mp hi with hold | hlast
      · exact h.plain i hold
      · rw [List.mem_singleton.mp hlast]
        exact hnew.not_coinbase hreal
    · intro txid e he
      rw [hinserted, ← List.append_assoc]
      change (o.op.apply rates cx.sha256 p.app.mempool).transactions.lookup txid = some e at he
      rw [apply_of_enters henters] at he
      rcases lookup_of_insertEntry he with ⟨-, rfl⟩ | ⟨-, hold⟩
      · exact ⟨⟨p.app.node, tx, fee⟩, by simp, rfl, rfl⟩
      · have hmem := (lookup_of_removeAll (henters.subset h.accounted hold)).2
        obtain ⟨i, hi, heq⟩ := h.logged txid e hmem
        exact ⟨i, List.mem_append_left _ hi, heq⟩
  · have hinserted : (p.add cx rates sur tx fee).1.inserted = p.inserted := by
      simp only [Adding.add]
      split
      next hok => exact absurd (enters_of_ok (o := o) hok) hno
      next => rfl
    rw [hinserted]
    exact ⟨hacc, h.sound, h.plain, fun txid e he => h.logged txid e (hsub txid e he)⟩

/-- A handler that is adding transactions, on a node without an entry at the null outpoint. -/
structure Vetting (cx : Context) (log : List Insertion) (p : Adding) : Prop where
  real : RealNode p.app.node
  vetted : Vetted cx p.app (log ++ p.inserted)

theorem Vetting.add {p : Adding} (h : Vetting cx log p) {tx : Transaction} {fee : UInt64}
    (hsound : fee ≠ 0 → Sound cx ⟨p.app.node, tx, fee⟩) :
    Vetting cx log (p.add cx rates sur tx fee).1 := ⟨h.real, h.vetted.add h.real hsound⟩

theorem Vetting.removeOrphan {p : Adding} (h : Vetting cx log p) (w : OrphanTxs) :
    Vetting cx log { p with app := { p.app with orphans := w } } :=
  ⟨h.real, h.vetted.accounted, h.vetted.sound, h.vetted.plain, h.vetted.logged⟩

theorem Vetting.resolveOrphan {further : Adding → Bytes32 → Adding}
    (hfurther : ∀ p txid, Vetting cx log p → Vetting cx log (further p txid)) {p : Adding} (h : Vetting cx log p)
    (tx : Transaction) : Vetting cx log (resolveOrphan cx rates sur further p tx) := by
  unfold Handlers.resolveOrphan
  simp only
  split
  next => exact h.removeOrphan _
  next =>
    split
    next => exact h
    next hvalid =>
      have hadded := @Vetting.add cx rates sur log _
        (h.removeOrphan (p.app.orphans.removeOrphan (tx.txid cx.sha256))) tx
        ((computeTxFee p.app.node tx).getD 0) (sound_of_computed h.real hvalid)
      split
      next p' e hadd =>
        rw [hadd] at hadded
        exact hadded
      next p' hadd =>
        rw [hadd] at hadded
        exact hfurther _ _ hadded

theorem Vetting.processOrphans {p : Adding} (h : Vetting cx log p) (fuel : ℕ) (txid : Bytes32) :
    Vetting cx log (processOrphansForTx cx rates sur fuel p txid) := by
  induction fuel generalizing p txid with
  | zero => exact h
  | succ fuel ih =>
    unfold processOrphansForTx
    generalize p.app.orphans.orphansForParent txid = waiting
    induction waiting generalizing p with
    | nil => exact h
    | cons tx waiting ihw => exact ihw (h.resolveOrphan (fun _ _ hp => ih hp _) tx)

end Adding

section Handlers

variable {sur : Surroundings} {log : List Insertion} {a : App} {tx : Transaction} {txid : Bytes32}
  {targetFee : ℕ → UInt64} {a' : App}

theorem Vetted.start (hreal : RealNode a.node) (h : Vetted cx a log) : Vetting cx log (Adding.start a) := by
  refine ⟨hreal, ?_⟩
  rw [show (Adding.start a).inserted = [] from rfl, List.append_nil]
  exact h

theorem Vetted.quiet (h : Vetted cx a log) : Vetted cx a.quiet.app (log ++ a.quiet.inserted) := by
  rw [show a.quiet.inserted = [] from rfl, List.append_nil]
  exact h

theorem Vetted.txMsg (hreal : RealNode a.node) (h : Vetted cx a log) (blockRelayOnly : Bool) (tx : Transaction) :
    Vetted cx (txMsg cx rates sur blockRelayOnly a tx).app
      (log ++ (txMsg cx rates sur blockRelayOnly a tx).inserted) := by
  unfold Handlers.txMsg
  simp only
  split
  next => exact h.quiet
  next =>
    split
    next => exact h.quiet
    next =>
      split
      next => exact h.quiet
      next =>
        split
        next =>
          split
          next => exact Vetted.quiet ⟨h.accounted, h.sound, h.plain, h.logged⟩
          next => exact h.quiet
        next hvalid =>
          have hadded := @Vetting.add cx rates sur log _ (h.start hreal) tx
            ((computeTxFee a.node tx).getD 0) (sound_of_computed hreal hvalid)
          split
          next p e hadd =>
            rw [hadd] at hadded
            exact hadded.vetted
          next p hadd =>
            rw [hadd] at hadded
            exact (hadded.processOrphans _ _).vetted

theorem Vetted.submit (hreal : RealNode a.node) (h : Vetted cx a log) (tx : Transaction) :
    Vetted cx (submitTransaction cx rates sur a tx).app
      (log ++ (submitTransaction cx rates sur a tx).inserted) := by
  unfold submitTransaction
  split
  next => exact h.quiet
  next hvalid => exact ((h.start hreal).add (sound_of_validated hreal hvalid)).vetted

/-- The call of `bumpfee` edits a transaction with an output, the edited one still validates,
and the fee recorded for the original is its fee. -/
def SoundBump (cx : Context) (a : App) (txid : Bytes32) (targetFee : ℕ → UInt64) : Prop :=
  ∀ entry tx fee, a.mempool.transactions.lookup txid = some entry →
    bumped a.mempool txid targetFee = some (tx, fee) →
      entry.tx.outputs ≠ [] ∧ validateTransaction cx a.node tx = .ok () ∧
        entry.fee.toNat + outputValue entry.tx = inputValue a.node.utxoSet entry.tx

theorem replaceable_inputs (u : UtxoSet) (tx : Transaction) : inputValue u (replaceable tx) = inputValue u tx ∧
      (replaceable tx).isCoinbase = tx.isCoinbase := by
  refine ⟨?_, ?_⟩
  · simp only [inputValue, replaceable, List.map_map, Function.comp_def]
  · simp only [Transaction.isCoinbase, replaceable]
    cases tx.inputs with
    | nil => rfl
    | cons i rest =>
      cases rest with
      | nil => rfl
      | cons j rest => rfl

theorem takeFromLast_spec {delta : UInt64} {tx' : Transaction} (h : takeFromLast delta tx = some tx')
    (hout : tx.outputs ≠ []) : tx'.inputs = tx.inputs ∧ ∃ rest last, outputValue tx = rest + last.toNat ∧
      outputValue tx' = rest + (last - delta).toNat := by
  unfold takeFromLast at h
  rw [List.getLast?_eq_some_getLast hout] at h
  simp only at h
  split at h
  next => cases h
  next =>
    obtain rfl := Option.some.inj h
    refine ⟨rfl, (tx.outputs.dropLast.map fun o => o.value.toNat).sum,
      (tx.outputs.getLast hout).value, ?_, ?_⟩
    · have hsplit := List.dropLast_append_getLast hout
      rw [outputValue]
      conv_lhs => rw [← hsplit]
      simp only [List.map_append, List.sum_append, List.map_cons, List.map_nil, List.sum_cons,
        List.sum_nil, Nat.add_zero]
    · simp only [outputValue, List.map_append, List.sum_append, List.map_cons, List.map_nil,
        List.sum_cons, List.sum_nil, Nat.add_zero]

theorem sound_of_bumped {entry : MempoolEntry} {fee : UInt64} (hentry : a.mempool.transactions.lookup txid = some entry)
    (hplain : entry.tx.isCoinbase = false) (hbump : bumped a.mempool txid targetFee = some (tx, fee))
    (h : SoundBump cx a txid targetFee) : Sound cx ⟨a.node, tx, fee⟩ := by
  obtain ⟨hout, hvalid, hfee⟩ := h entry tx fee hentry hbump
  unfold bumped at hbump
  rw [hentry, Option.bind_some] at hbump
  split at hbump
  next => cases hbump
  next =>
    simp only at hbump
    split at hbump
    next => cases hbump
    next hdelta =>
      obtain ⟨tx', htake, heq⟩ := Option.map_eq_some_iff.mp hbump
      cases heq
      generalize htarget : targetFee _ = target at hdelta htake hvalid ⊢
      obtain ⟨hinputs, hcoinbase⟩ := replaceable_inputs a.node.utxoSet entry.tx
      obtain ⟨hsame, rest, last, hbefore, hafter⟩ := takeFromLast_spec htake hout
      have hcb : tx.isCoinbase = false := by
        rw [← hplain, ← hcoinbase, Transaction.isCoinbase, Transaction.isCoinbase, hsame]
      have hchecked := validateTransactionCached_ok hcb hvalid
      have hvalue : inputValue a.node.utxoSet tx = inputValue a.node.utxoSet entry.tx := by
        rw [← hinputs, inputValue, inputValue, hsame]
      refine ⟨hvalid, fun input hinput => ?_, ?_⟩
      · obtain ⟨c, hc, -⟩ := hchecked.present input hinput
        exact ⟨c, hc⟩
      · have hbalanced := hchecked.balanced
        have hout' : outputValue (replaceable entry.tx) = outputValue entry.tx := rfl
        have hsub := saturatingSub_toNat target entry.fee
        have hpos : (saturatingSub target entry.fee).toNat ≠ 0 :=
          fun hzero => hdelta (UInt64.toNat.inj hzero)
        have hwrap := UInt64.toNat_sub last (saturatingSub target entry.fee)
        have htop := target.toNat_lt
        have hlast := last.toNat_lt
        change target.toNat + outputValue tx = inputValue a.node.utxoSet tx
        rw [hvalue, ← hfee] at hbalanced ⊢
        rw [hafter] at hbalanced ⊢
        rw [← hout', hbefore] at hbalanced ⊢
        -- The output of a difference larger than itself would exceed what is spent.
        rcases Nat.lt_or_ge last.toNat (saturatingSub target entry.fee).toNat with hlarge | hfits
        · rw [Nat.mod_eq_of_lt (by omega)] at hwrap
          omega
        · rw [show 2 ^ 64 - (saturatingSub target entry.fee).toNat + last.toNat =
            last.toNat - (saturatingSub target entry.fee).toNat + 2 ^ 64 by omega,
            Nat.add_mod_right, Nat.mod_eq_of_lt (by omega)] at hwrap
          omega

theorem Vetted.bumpfee (hreal : RealNode a.node) (h : Vetted cx a log) (hbump : SoundBump cx a txid targetFee) :
    Vetted cx (bumpfee cx rates sur a txid targetFee).app
      (log ++ (bumpfee cx rates sur a txid targetFee).inserted) := by
  unfold Handlers.bumpfee
  split
  next => exact h.quiet
  next tx fee hbumped =>
    have hentry : ∃ entry, a.mempool.transactions.lookup txid = some entry := by
      cases hlook : a.mempool.transactions.lookup txid with
      | none =>
        rw [bumped, hlook] at hbumped
        cases hbumped
      | some entry => exact ⟨entry, rfl⟩
    obtain ⟨entry, hentry⟩ := hentry
    obtain ⟨i, hi, htx, -⟩ := h.logged txid entry hentry
    have hplain := htx ▸ h.plain i hi
    exact ((h.start hreal).add fun _ => sound_of_bumped hentry hplain hbumped hbump).vetted

theorem Vetted.accept {i : ℕ} {b : Block} {result : Except AddBlockError Exit} (h : Vetted cx a log)
    (ha : acceptBlock cx sur i a b = some (a', result)) : Vetted cx a' log := by
  obtain ⟨o, -, heq⟩ := Option.map_eq_some_iff.mp ha
  cases hresult : o.result with
  | error e =>
    rw [hresult] at heq
    cases heq
    exact ⟨h.accounted, h.sound, h.plain, h.logged⟩
  | ok exit =>
    rw [hresult] at heq
    cases heq
    exact ⟨h.accounted.removeAll _, h.sound, h.plain,
      fun txid e he => h.logged txid e (lookup_of_removeAll he).2⟩

theorem Vetted.generate {script : List UInt8} {n : ℕ} (h : Vetted cx a log)
    (ha : generateBlocks cx rates sur script n a = some a') : Vetted cx a' log := by
  induction n generalizing a with
  | zero =>
    cases ha
    exact h
  | succ n ih =>
    unfold generateBlocks at ha
    split at ha
    next => cases ha
    next a₁ e haccept =>
      cases ha
      exact h.accept haccept
    next a₁ exit haccept => exact ih (h.accept haccept) ha

/-- The step is not an unsound call of `bumpfee`. -/
def BumpsSoundly (cx : Context) (st : Step) : Prop :=
  ∀ txid targetFee, st.event = .bumpfee txid targetFee → SoundBump cx st.before txid targetFee

theorem Vetted.handle {st : Step} (hreal : RealNode st.before.node) (h : Vetted cx st.before log)
    (hbump : BumpsSoundly cx st) (hst : handle cx rates st.sur st.before st.event = some st.handled) :
    Vetted cx st.handled.app (log ++ st.handled.inserted) := by
  obtain ⟨a, sur, e, r⟩ := st
  cases e with
  | blockMsg b =>
    simp only [Handlers.handle, blockMsg] at hst
    split at hst
    next =>
      cases hst
      exact h.quiet
    next =>
      split at hst
      next =>
        cases hst
        exact h.quiet
      next =>
        obtain ⟨⟨a', result⟩, haccept, rfl⟩ := Option.map_eq_some_iff.mp hst
        have hvetted := (h.accept haccept).quiet
        cases result with
        | error e => exact hvetted
        | ok exit => exact hvetted
  | submitblock b =>
    simp only [Handlers.handle, submitblock] at hst
    split at hst
    next =>
      cases hst
      exact h.quiet
    next =>
      obtain ⟨⟨a', result⟩, haccept, rfl⟩ := Option.map_eq_some_iff.mp hst
      exact (h.accept haccept).quiet
  | generatetoaddress nblocks script =>
    simp only [Handlers.handle, generatetoaddress] at hst
    split at hst
    next =>
      cases hst
      exact h.quiet
    next =>
      obtain ⟨a', hgenerate, rfl⟩ := Option.map_eq_some_iff.mp hst
      exact (h.generate hgenerate).quiet
  | txMsg blockRelayOnly tx =>
    rw [← Option.some.inj hst]
    exact h.txMsg hreal blockRelayOnly tx
  | sendrawtransaction tx =>
    rw [← Option.some.inj hst]
    exact h.submit hreal tx
  | submitTx tx =>
    rw [← Option.some.inj hst]
    exact h.submit hreal tx
  | sendtoaddress w destScript amount =>
    rw [← Option.some.inj hst]
    unfold sendtoaddress
    split
    next => exact h.quiet
    next => exact h.submit hreal _
  | bumpfee txid targetFee =>
    rw [← Option.some.inj hst]
    exact h.bumpfee hreal (hbump txid targetFee rfl)
  | sync state =>
    rw [← Option.some.inj hst]
    exact Vetted.quiet ⟨h.accounted, h.sound, h.plain, h.logged⟩

end Handlers

section Runs

/-- What the pool took in a run, in order. -/
def insertions (steps : List Step) : List Insertion := steps.flatMap fun st => st.handled.inserted

theorem nodeRun_vetted {a : App} {steps : List Step} (hrun : NodeRun cx rates a steps)
    (hbumps : ∀ st ∈ steps, BumpsSoundly cx st) : Vetted cx a (insertions steps) := by
  induction hrun with
  | fresh h maxSize =>
    exact ⟨accounted_empty maxSize, by simp [insertions], by simp [insertions],
      fun txid e he => by simp [Mempool.new] at he⟩
  | @step a steps sur e r hrun h ih =>
    have hbefore := ih fun st hst => hbumps st (List.mem_append_left _ hst)
    have hlast := hbumps ⟨a, sur, e, r⟩ (by simp)
    have hafter := @Vetted.handle cx rates _ ⟨a, sur, e, r⟩ (nodeRun_real hrun) hbefore hlast h
    rwa [show insertions (steps ++ [⟨a, sur, e, r⟩]) = insertions steps ++ r.inserted by
      simp [insertions]]

/-- In every run whose calls of `bumpfee` are sound, each transaction that the pool took was accepted
by validation at that moment and recorded with its fee; and each entry of the pool is one
of them. -/
theorem insertions_sound {a : App} {steps : List Step} (hrun : NodeRun cx rates a steps)
    (hbumps : ∀ st ∈ steps, BumpsSoundly cx st) : (∀ st ∈ steps, ∀ i ∈ st.handled.inserted, Sound cx i) ∧
      ∀ txid e, a.mempool.transactions.lookup txid = some e →
        ∃ st ∈ steps, ∃ i ∈ st.handled.inserted, i.tx = e.tx ∧ i.fee = e.fee := by
  have hvetted := nodeRun_vetted hrun hbumps
  refine ⟨fun st hst i hi => ?_, fun txid e he => ?_⟩
  · exact hvetted.sound i (List.mem_flatMap.mpr ⟨st, hst, hi⟩)
  · obtain ⟨i, hi, heq⟩ := hvetted.logged txid e he
    obtain ⟨st, hst, hmem⟩ := List.mem_flatMap.mp hi
    exact ⟨st, hst, i, hmem, heq⟩

end Runs

section Bumps

open RipeChains

theorem handled_add {a : App} {tx : Transaction} {fee : UInt64} (hok : (offered a.mempool tx fee).2 = .ok ()) :
    ((Adding.start a).add scriptNode exactRates calmDay tx fee).1.handled =
      ⟨{ a with mempool := (offered a.mempool tx fee).1 }, 0, [], [⟨a.node, tx, fee⟩]⟩ := by
  have hadd : a.mempool.addTransactionWithFee exactRates (calmDay.calls 0) scriptNode.sha256 tx fee =
      ((offered a.mempool tx fee).1, .ok ()) := by
    rw [← hok]
    simp only [offered, Sha256.runSha256_eq]
    rfl
  simp only [Adding.add, Adding.start, Adding.handled, hadd, List.nil_append]

theorem bump_run (script : List UInt8) (vout : UInt32)
    (hvalid : validateTransactionCached scriptNode.checks 0 (spendFunding script vout 5 999990000) fundedSet 101
      (some fun _ => 0) = .ok ()) (hfee : txFee fundedSet (spendFunding script vout 5 999990000) = 10000)
    (hfirst : (offered (Mempool.new 100000) (spendFunding script vout 5 999990000) 10000).2 = .ok ())
    (hbumped : bumped (offered (Mempool.new 100000) (spendFunding script vout 5 999990000) 10000).1
      ((spendFunding script vout 5 999990000).txid Sha256.runSha256) (fun _ => 20000) =
        some (spendFunding script vout 0xfffffffd 999980000, 20000))
    (hsecond : (offered (offered (Mempool.new 100000) (spendFunding script vout 5 999990000) 10000).1
      (spendFunding script vout 0xfffffffd 999980000) 20000).2 = .ok ()) :
    ∃ a steps st, NodeRun scriptNode exactRates a (steps ++ [st]) ∧
      (∀ st ∈ steps, ∀ txid targetFee, st.event ≠ .bumpfee txid targetFee) ∧
      st.event = .bumpfee ((spendFunding script vout 5 999990000).txid Sha256.runSha256)
        (fun _ => 20000) ∧
      st.handled.inserted = [⟨st.before.node, spendFunding script vout 0xfffffffd 999980000, 20000⟩] ∧
      st.before.mempool = (offered (Mempool.new 100000) (spendFunding script vout 5 999990000) 10000).1 ∧
      st.before.node.height = 101 ∧ st.before.node.utxoSet = fundedSet := by
  obtain ⟨a, steps, h⟩ := exists_ripened exactRates (le_refl 100)
  obtain ⟨hheight, hset, -⟩ := h.chain le_rfl
  have hready : ∀ i ∈ (spendFunding script vout 5 999990000).inputs,
      i.sequence &&& 0x400000 = 0 ∨ i.sequence &&& 0x80000000 ≠ 0 := by
    intro i hi
    rw [List.mem_singleton.mp hi]
    left
    change (5 : UInt32) &&& 0x400000 = 0
    decide
  have hsent : handle scriptNode exactRates calmDay a
      (.sendrawtransaction (spendFunding script vout 5 999990000)) =
      some ⟨{ a with mempool := (offered (Mempool.new 100000) (spendFunding script vout 5 999990000)
        10000).1 }, 0, [], [⟨a.node, spendFunding script vout 5 999990000, 10000⟩]⟩ := by
    have hok := (validateTransaction_ripe hheight hset rfl hready).trans hvalid
    rw [← h.mempool] at hfirst ⊢
    simp only [handle, sendrawtransaction, submitTransaction, hok, hset, hfee, handled_add hfirst]
  have hrun := NodeRun.step h.run hsent
  have hraised := @NodeRun.step _ _ _ _ calmDay
    (.bumpfee ((spendFunding script vout 5 999990000).txid Sha256.runSha256) fun _ => 20000) _ hrun rfl
  refine ⟨_, _, _, hraised, ?_, rfl, ?_, rfl, hheight, hset⟩
  · intro st hst txid targetFee hevent
    rcases List.mem_append.mp hst with hold | hlast
    · obtain ⟨b, hb⟩ := h.events st hold
      rw [hb] at hevent
      cases hevent
    · rw [List.mem_singleton.mp hlast] at hevent
      cases hevent
  · simp only [bumpfee, hbumped]
    rw [handled_add hsecond]

theorem ok_of_isOk {ε : Type} {x : Except ε Unit} (h : x.isOk = true) : x = .ok () := by
  cases x with
  | error e => cases h
  | ok u => rfl

theorem bumped_disabled (script : List UInt8) (vout : UInt32) :
    ∀ i ∈ (spendFunding script vout 0xfffffffd 999980000).inputs,
      i.sequence &&& 0x400000 = 0 ∨ i.sequence &&& 0x80000000 ≠ 0 := by
  intro i hi
  rw [List.mem_singleton.mp hi]
  right
  change (0xfffffffd : UInt32) &&& 0x80000000 ≠ 0
  decide

/-- The input of a script without conditions can be bumped. -/
theorem open_bump_is_sound : ∃ a steps st txid targetFee, NodeRun scriptNode exactRates a (steps ++ [st]) ∧
      st.event = .bumpfee txid targetFee ∧ st.handled.inserted ≠ [] ∧
      (∀ st' ∈ steps ++ [st], BumpsSoundly scriptNode st') ∧
      (∀ st' ∈ steps ++ [st], ∀ i ∈ st'.handled.inserted, Sound scriptNode i) ∧
      ∀ txid e, a.mempool.transactions.lookup txid = some e →
        ∃ st' ∈ steps ++ [st], ∃ i ∈ st'.handled.inserted, i.tx = e.tx ∧ i.fee = e.fee := by
  have hbump : bumped (offered (Mempool.new 100000) (spendFunding openScript 1 5 999990000) 10000).1
      ((spendFunding openScript 1 5 999990000).txid Sha256.runSha256) (fun _ => 20000) =
        some (spendFunding openScript 1 0xfffffffd 999980000, 20000) := by decide +kernel
  obtain ⟨a, steps, st, hrun, hothers, hevent, hinserted, hpool, hheight, hset⟩ :=
    bump_run openScript 1 (ok_of_isOk (by decide +kernel)) (by decide +kernel)
      (ok_of_isOk (by decide +kernel)) hbump (ok_of_isOk (by decide +kernel))
  have hentry : ((offered (Mempool.new 100000) (spendFunding openScript 1 5 999990000)
      10000).1.transactions.lookup ((spendFunding openScript 1 5 999990000).txid Sha256.runSha256)).map
        (fun e => (e.tx, e.fee)) = some (spendFunding openScript 1 5 999990000, 10000) := by
    decide +kernel
  have hsound : SoundBump scriptNode st.before
      ((spendFunding openScript 1 5 999990000).txid Sha256.runSha256) (fun _ => 20000) := by
    intro entry tx fee hlook hbumped
    rw [hpool] at hlook hbumped
    rw [hlook, Option.map_some] at hentry
    obtain ⟨htx, hfee⟩ := Prod.mk.inj (Option.some.inj hentry)
    obtain ⟨rfl, rfl⟩ := Prod.mk.inj (Option.some.inj (hbump.symm.trans hbumped))
    rw [htx, hfee, hset, validateTransaction_ripe hheight hset rfl (bumped_disabled openScript 1)]
    exact ⟨by simp [spendFunding], ok_of_isOk (by decide +kernel), by decide +kernel⟩
  have hsteps : ∀ st' ∈ steps ++ [st], BumpsSoundly scriptNode st' := by
    intro st' hst txid targetFee hbumps
    rcases List.mem_append.mp hst with hold | hlast
    · exact absurd hbumps (hothers st' hold txid targetFee)
    · rw [List.mem_singleton.mp hlast] at hbumps ⊢
      obtain ⟨rfl, rfl⟩ := Event.bumpfee.inj (hevent.symm.trans hbumps)
      exact hsound
  exact ⟨a, steps, st, _, _, hrun, hevent, by rw [hinserted]; simp, hsteps, insertions_sound hrun hsteps⟩

/-- A script that counts on the sequence of its input: the bumped transaction is in the pool and
does not validate. -/
theorem delayed_bump_is_unsound : ∃ a steps, NodeRun scriptNode exactRates a steps ∧
      ∃ st ∈ steps, ∃ i ∈ st.handled.inserted, validateTransaction scriptNode i.node i.tx ≠ .ok () := by
  obtain ⟨a, steps, st, hrun, -, -, hinserted, -, hheight, hset⟩ :=
    bump_run delayedScript 0 (ok_of_isOk (by decide +kernel)) (by decide +kernel)
      (ok_of_isOk (by decide +kernel)) (by decide +kernel) (ok_of_isOk (by decide +kernel))
  refine ⟨a, _, hrun, st, by simp, _, by rw [hinserted]; exact List.mem_cons_self, ?_⟩
  simp only
  rw [validateTransaction_ripe hheight hset rfl (bumped_disabled delayedScript 0)]
  intro hok
  have hfails : (validateTransactionCached scriptNode.checks 0
      (spendFunding delayedScript 0 0xfffffffd 999980000) fundedSet 101 (some fun _ => 0)).isOk = false := by
    decide +kernel
  rw [hok] at hfails
  cases hfails

end Bumps

end KuberCoin.Admissions
