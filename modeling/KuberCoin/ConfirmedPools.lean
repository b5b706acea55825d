import KuberCoin.OrphanWalks
import KuberCoin.Relays
import KuberCoin.Spending

/-!
The pool of a node and its best chain. A handler that adds a block takes the transactions of that block out
of the pool, and what conflicts with them, whatever became of the block. So pool and chain agree as
long as a block that is only kept shares nothing with the pool, and neither does any other block that
comes to the best chain together with the delivered one.
-/
namespace KuberCoin.ConfirmedPools

open Bytes Maps Transactions Blocks UtxoSets Params Validator NodeStates NodeStates.NodeState AddBlock
  BlockEffects Branches ChainInvariants Spending Mempools Mempool PoolAccounting PoolEvictions Worklists
  ChainLimits Templates Handlers RealCoins Admissions Relays OrphanWalks

variable {cx : Context} {rates : FeeRates} {K : Block → Prop}

section Agreement

variable (cx)

/-- The entry is of a transaction of the block, or spends what the block spends. -/
def Clashes (x : Block) (txid : Bytes32) (e : MempoolEntry) : Prop :=
  txid ∈ x.transactions.map (Transaction.txid cx.sha256) ∨ ∃ i ∈ e.tx.inputs, Spends x i.prevOutput

/-- No entry clashes with the block. -/
def Apart (pool : Pool) (x : Block) : Prop := ∀ txid e, pool.lookup txid = some e → ¬ Clashes cx x txid e

/-- The pool holds no transaction of the best chain, and none that spends what is spent there. -/
def Agrees (a : App) : Prop := ∀ x, OnChain a.node x → Apart cx a.mempool.transactions x

/-- An entry that clashes with the best chain, or a descendant of one. -/
inductive Confirmed (pool : Pool) (s : NodeState) : Bytes32 → Prop where
  | clash {txid : Bytes32} {e : MempoolEntry} {x : Block} (he : pool.lookup txid = some e) (hx : OnChain s x)
      (h : Clashes cx x txid e) : Confirmed pool s txid
  | child {p txid : Bytes32} {e : MempoolEntry} (hp : Confirmed pool s p) (he : pool.lookup txid = some e)
      (hspends : e.spends p = true) : Confirmed pool s txid

/-- What left the pool clashes with the best chain, or descends from an entry that does. -/
def RemovedOnly (before after : App) : Prop :=
  ∀ txid e, before.mempool.transactions.lookup txid = some e →
    after.mempool.transactions.lookup txid = none →
    Confirmed cx before.mempool.transactions after.node txid

/-- The handler gets to `add_block` with the block. -/
def Reaches (st : Step) (b : Block) : Prop :=
  verifyPow cx.sha256 b.header = true ∧
    (st.event = .submitblock b ∨
      st.event = .blockMsg b ∧ st.before.node.getBlock (b.hash cx.sha256) = none)

/-- No two blocks of the best chain create one outpoint. -/
def NoRepeat (s : NodeState) : Prop :=
  ∀ o x y, OnChain s x → OnChain s y → Creates cx.sha256 x o → Creates cx.sha256 y o → x = y

/-- A block that overtakes comes to the chain with blocks that share nothing with the pool; one that does
not shares nothing with it itself. -/
def Harmless (a : App) (b : Block) : Prop :=
  (Overtakes a.node b → ∀ x, Waits cx a.node b x ∨ Below a.node b x ∧ ¬ OnChain a.node x →
      Apart cx a.mempool.transactions x) ∧
    (¬ Overtakes a.node b → Apart cx a.mempool.transactions b)

/-- The condition on a handler call: a block is harmless if it is accepted, and no `add_block` fails
half-way; a transaction arrives while the chain repeats no outpoint. -/
def Careful (st : Step) : Prop :=
  (∀ b, Reaches cx st b → ∀ o, addBlockFuel cx st.sur.env st.sur.fuel st.before.node b = some o →
      (∀ c ∈ o.calls, Clean cx c) ∧ ∀ exit, o.result = .ok exit → Harmless cx st.before b) ∧
    ∀ blockRelayOnly tx, st.event = .txMsg blockRelayOnly tx → NoRepeat cx st.before.node

/-- Transactions and blocks from peers and miners, and the other messages. -/
def Covered : Event → Prop
  | .blockMsg _ => True
  | .submitblock _ => True
  | .txMsg _ _ => True
  | .sync _ => True
  | _ => False

end Agreement

section Coins

theorem not_spent_of_lookup {s : NodeState} (hnode : NodeInv cx K s) (hrepeat : NoRepeat cx s) {o : OutPoint} {c : UTXO}
    (hc : s.utxoSet.lookup o = some c) {x : Block} (hx : OnChain s x) : ¬ Spends x o := by
  intro hspends
  obtain ⟨bs, hbs⟩ := hnode.chain
  obtain ⟨m, hm⟩ := List.getElem?_of_mem (List.mem_reverse.mpr ((onChain_iff hbs).mp hx))
  obtain ⟨k, t, horigin, -⟩ := ValidBranch.origin hbs.branch hc
  obtain ⟨y, hy, ht⟩ := horigin.block
  obtain ⟨k', t', hk', horigin', -⟩ := ValidBranch.origin_of_spends hbs.branch hm hspends
  obtain ⟨y', hy', ht'⟩ := horigin'.block
  rw [List.getElem?_take, if_pos hk'] at hy'
  -- the outpoint was created before it was spent, and again after that
  have hlate : m < k := by
    by_contra hle
    exact horigin.unspent m x (by omega) hm hspends
  have hon : ∀ (i : ℕ) z, bs.reverse[i]? = some z → OnChain s z := fun i z hz =>
    (onChain_iff hbs).mpr (List.mem_reverse.mp (List.mem_of_getElem? hz))
  have hsame : y = y' := hrepeat o y y' (hon k y hy) (hon k' y' hy') ⟨t, ht, horigin.created⟩
    ⟨t', ht', horigin'.created⟩
  have hheight := hbs.branch.height_getElem? hy
  rw [hsame, hbs.branch.height_getElem? hy'] at hheight
  omega

end Coins

section Removal

variable {m : Mempool} {call : Mempools.Call} {b : Block} {txid : Bytes32} {o : OutPoint} {e : MempoolEntry}

theorem toRemove_eq_markFrom : toRemove call cx.sha256 m b =
    markFrom (children call m.transactions) (1 + m.transactions.keys.card) (conflictingRoots call cx.sha256 m b)
      (exactConfirmed call cx.sha256 m b) := rfl

theorem mem_exactConfirmed : txid ∈ exactConfirmed call cx.sha256 m b ↔
      (∃ e, m.transactions.lookup txid = some e) ∧ txid ∈ confirmedTxids cx.sha256 b := by
  unfold exactConfirmed
  rw [List.mem_filter, List.mem_map]
  refine and_congr ?_ (by simp)
  constructor
  · rintro ⟨⟨id, e⟩, hkv, rfl⟩
    exact ⟨e, ((call.lists m.transactions).mem id e).mp hkv⟩
  · rintro ⟨e, he⟩
    exact ⟨(txid, e), ((call.lists m.transactions).mem txid e).mpr he, rfl⟩

theorem mem_conflictingRoots : txid ∈ conflictingRoots call cx.sha256 m b ↔
      ∃ e, m.transactions.lookup txid = some e ∧ txid ∉ confirmedTxids cx.sha256 b ∧
        ∃ i ∈ e.tx.inputs, i.prevOutput ∈ confirmedSpends b := by
  unfold conflictingRoots
  rw [List.mem_map]
  constructor
  · rintro ⟨⟨id, e⟩, hkv, rfl⟩
    rw [List.mem_filter] at hkv
    refine ⟨e, ((call.lists m.transactions).mem id e).mp hkv.1, ?_⟩
    simpa using hkv.2
  · rintro ⟨e, he, hid, i, hi, ho⟩
    refine ⟨(txid, e), List.mem_filter.mpr ⟨((call.lists m.transactions).mem txid e).mpr he, ?_⟩, rfl⟩
    simpa using ⟨hid, i, hi, ho⟩

theorem spends_of_confirmed (h : o ∈ confirmedSpends b) : Spends b o := by
  unfold confirmedSpends at h
  obtain ⟨hmem, -⟩ := List.mem_filter.mp h
  obtain ⟨i, hi, rfl⟩ := List.mem_map.mp hmem
  obtain ⟨tx, htx, hi'⟩ := List.mem_flatMap.mp hi
  obtain ⟨hin, hcb⟩ := List.mem_filter.mp htx
  refine ⟨tx, hin, ?_⟩
  rw [consumed_of_not_coinbase (by simpa using hcb)]
  exact List.mem_map_of_mem hi'

theorem confirmed_of_spends (h : Spends b o) (hreal : o.isNull = false) : o ∈ confirmedSpends b := by
  obtain ⟨tx, htx, ho⟩ := h
  have hcb : tx.isCoinbase = false := by
    by_contra hcb
    rw [consumed_of_coinbase (by simpa using hcb)] at ho
    cases ho
  rw [consumed_of_not_coinbase hcb] at ho
  obtain ⟨i, hi, rfl⟩ := List.mem_map.mp ho
  refine List.mem_filter.mpr ⟨List.mem_map_of_mem (List.mem_flatMap.mpr ⟨tx, ?_, hi⟩), by simp [hreal]⟩
  exact List.mem_filter.mpr ⟨htx, by simp [hcb]⟩

theorem not_spent_of_kept (h : (m.removeBlockTransactions call cx.sha256 b).1.transactions.lookup txid = some e)
    {i : TxInput} (hi : i ∈ e.tx.inputs) (hreal : i.prevOutput.isNull = false) : ¬ Spends b i.prevOutput := by
  obtain ⟨hnot, hold⟩ := lookup_of_removeAll h
  intro hspends
  apply hnot
  rw [toRemove_eq_markFrom]
  by_cases hid : txid ∈ confirmedTxids cx.sha256 b
  · exact subset_markFrom _ _ _ (mem_exactConfirmed.mpr ⟨⟨e, hold⟩, hid⟩)
  · exact roots_subset_markFrom _ _ _ (mem_conflictingRoots.mpr
      ⟨e, hold, hid, i, hi, confirmed_of_spends hspends hreal⟩)

theorem confirmed_of_removed {s : NodeState} (hb : OnChain s b) (he : m.transactions.lookup txid = some e)
    (hgone : (m.removeBlockTransactions call cx.sha256 b).1.transactions.lookup txid = none) :
    Confirmed cx m.transactions s txid := by
  have hmem : txid ∈ toRemove call cx.sha256 m b := by
    by_contra hnot
    simp only [removeBlockTransactions] at hgone
    rw [lookup_removeAll, if_neg hnot, he] at hgone
    cases hgone
  have hids : ∀ id, id ∈ confirmedTxids cx.sha256 b → id ∈ b.transactions.map (Transaction.txid cx.sha256) := by
    intro id hid
    obtain ⟨tx, htx, rfl⟩ := List.mem_map.mp hid
    exact List.mem_map_of_mem (List.mem_filter.mp htx).1
  rw [toRemove_eq_markFrom] at hmem
  have hfound := markFrom_induction (motive := Confirmed cx m.transactions s) (1 + m.transactions.keys.card)
    (fun x hx => by
      obtain ⟨e', he', -, i, hi, ho⟩ := mem_conflictingRoots.mp hx
      exact .clash he' hb (.inr ⟨i, hi, spends_of_confirmed ho⟩))
    (fun x hx y hy _ => by
      obtain ⟨e', he', hspends⟩ := mem_children.mp hy
      exact .child hx he' hspends) txid hmem
  rcases hfound with hexact | hconfirmed
  · exact .clash he hb (.inl (hids txid (mem_exactConfirmed.mp hexact).2))
  · exact hconfirmed

theorem kept_of_apart (h : Apart cx m.transactions b) (he : m.transactions.lookup txid = some e) :
    (m.removeBlockTransactions call cx.sha256 b).1.transactions.lookup txid = some e := by
  have hnone : exactConfirmed call cx.sha256 m b = [] ∧ conflictingRoots call cx.sha256 m b = [] := by
    constructor
    · refine List.eq_nil_iff_forall_not_mem.mpr fun id hid => ?_
      obtain ⟨⟨e', he'⟩, hconfirmed⟩ := mem_exactConfirmed.mp hid
      obtain ⟨tx, htx, rfl⟩ := List.mem_map.mp hconfirmed
      exact h _ e' he' (.inl (List.mem_map_of_mem (List.mem_filter.mp htx).1))
    · refine List.eq_nil_iff_forall_not_mem.mpr fun id hid => ?_
      obtain ⟨e', he', -, i, hi, ho⟩ := mem_conflictingRoots.mp hid
      exact h id e' he' (.inr ⟨i, hi, spends_of_confirmed ho⟩)
  simp only [removeBlockTransactions]
  rw [lookup_removeAll, toRemove_eq_markFrom, hnone.1, hnone.2, if_neg (by simp [markFrom]), he]

end Removal

section Invariant

variable {s : NodeState} {tx : Transaction} {a : App} {sur : Surroundings}

/-- A transaction that spends real outpoints, at least one, and none that the chain has spent. -/
structure Spendable (s : NodeState) (tx : Transaction) : Prop where
  inputs : tx.inputs ≠ []
  real : ∀ i ∈ tx.inputs, i.prevOutput.isNull = false
  unspent : ∀ i ∈ tx.inputs, ∀ x, OnChain s x → ¬ Spends x i.prevOutput

variable (cx K) in
/-- The node is on a valid branch, and every entry of the pool can be spent on it. -/
structure Settled (a : App) : Prop where
  node : NodeInv cx K a.node
  links : OrphanLinks cx K a.node
  accounted : Accounted cx.sha256 a.mempool
  entries : ∀ txid e, a.mempool.transactions.lookup txid = some e → Spendable a.node e.tx

theorem isNull_of_real (hreal : RealNode s) {o : OutPoint} {c : UTXO} (h : s.utxoSet.lookup o = some c) :
    o.isNull = false := by
  by_contra hnull
  have hnull' : o = OutPoint.null := by
    obtain ⟨txid, vout⟩ := o
    simpa [OutPoint.isNull, OutPoint.null] using hnull
  exact hreal.set o c h hnull'

theorem spendable_of_valid (hnode : NodeInv cx K s) (hreal : RealNode s) (hrepeat : NoRepeat cx s)
    (hvalid : validateTransaction cx s tx = .ok ()) (hfee : (computeTxFee s tx).getD 0 ≠ 0) : Spendable s tx := by
  have hsound := sound_of_computed hreal hvalid hfee
  refine ⟨?_, ?_, ?_⟩
  · intro hnil
    have hbalance := hsound.fee
    simp only [inputValue, hnil, List.map_nil, List.sum_nil] at hbalance
    apply hfee
    apply UInt64.toNat_inj.mp
    show _ = 0
    omega
  · intro i hi
    obtain ⟨c, hc⟩ := hsound.funded i hi
    exact isNull_of_real hreal hc
  · intro i hi x hx
    obtain ⟨c, hc⟩ := hsound.funded i hi
    exact not_spent_of_lookup hnode hrepeat hc hx

theorem Settled.add {a : App} (h : Settled cx K a) (hreal : RealNode a.node) (hrepeat : NoRepeat cx a.node)
    (call : Mempools.Call) {tx : Transaction} (hvalid : validateTransaction cx a.node tx = .ok ()) :
    Settled cx K { a with mempool := (a.mempool.addTransactionWithFee rates call cx.sha256 tx
      ((computeTxFee a.node tx).getD 0)).1 } := by
  let o : Offer := ⟨call, tx, (computeTxFee a.node tx).getD 0⟩
  refine ⟨h.node, h.links, accounted_add h.accounted call tx _, ?_⟩
  intro txid e he
  change (o.op.apply rates cx.sha256 a.mempool).transactions.lookup txid = some e at he
  rcases @offer_cases rates _ _ h.accounted o with ⟨roomy, henters⟩ | ⟨-, hsub⟩
  · rw [apply_of_enters henters] at he
    rcases lookup_of_insertEntry he with ⟨-, rfl⟩ | ⟨-, hold⟩
    · exact spendable_of_valid h.node hreal hrepeat hvalid (fee_ne_zero henters.relayed)
    · exact h.entries txid e (lookup_of_removeAll (henters.subset h.accounted hold)).2
  · exact h.entries txid e (hsub txid e he)

theorem Settled.txMsg (h : Settled cx K a) (hreal : RealNode a.node) (hrepeat : NoRepeat cx a.node)
    {blockRelayOnly : Bool} (tx : Transaction) : Settled cx K (txMsg cx rates sur blockRelayOnly a tx).app := by
  suffices hkeeps : Settled cx K (Handlers.txMsg cx rates sur blockRelayOnly a tx).app ∧
      RealNode (Handlers.txMsg cx rates sur blockRelayOnly a tx).app.node ∧
      NoRepeat cx (Handlers.txMsg cx rates sur blockRelayOnly a tx).app.node from hkeeps.1
  refine txMsg_keeps (J := fun a' => Settled cx K a' ∧ RealNode a'.node ∧ NoRepeat cx a'.node) ?_ ?_
    ⟨h, hreal, hrepeat⟩ tx
  · intro a' w ha'
    exact ⟨⟨ha'.1.node, ha'.1.links, ha'.1.accounted, ha'.1.entries⟩, ha'.2⟩
  · intro a' call tx' ha' hvalid
    exact ⟨ha'.1.add ha'.2.1 ha'.2.2 call hvalid, ha'.2⟩

theorem Spendable.of_chain {s' : NodeState} (h : Spendable s tx)
    (hchain : ∀ x, OnChain s' x → OnChain s x ∨ ∀ i ∈ tx.inputs, ¬ Spends x i.prevOutput) : Spendable s' tx where
  inputs := h.inputs
  real := h.real
  unspent i hi x hx := (hchain x hx).elim (h.unspent i hi x) fun hnot => hnot i hi

theorem Settled.accept (hcf : CollisionFree cx K) (hdistinct : Distinct cx K) {a' : App} (h : Settled cx K a) {n : ℕ}
    {b : Block} (hb : K b) {result : Except AddBlockError Exit} (ha : acceptBlock cx sur n a b = some (a', result))
    (hcareful : ∀ o, addBlockFuel cx sur.env sur.fuel a.node b = some o →
      (∀ c ∈ o.calls, Clean cx c) ∧ ∀ exit, o.result = .ok exit → Harmless cx a b) :
    Settled cx K a' ∧ RemovedOnly cx a a' := by
  obtain ⟨o, ho, heq⟩ := Option.map_eq_some_iff.mp ha
  obtain ⟨hclean, hharmless⟩ := hcareful o ho
  obtain ⟨hnode, hlinks, hgrows⟩ := grows_of_call hcf hdistinct h.node h.links hb ho hclean
  cases hresult : o.result with
  | error e =>
    rw [hresult] at heq
    cases heq
    have hsame := onChain_of_error ho hclean hresult
    refine ⟨⟨hnode, hlinks, h.accounted, fun txid e' he => ?_⟩, fun txid e' he hgone => ?_⟩
    · exact (h.entries txid e' he).of_chain fun x hx => .inl ((hsame x).mp hx)
    · exact absurd (he.symm.trans hgone) (by simp)
  | ok exit =>
    rw [hresult] at heq
    cases heq
    obtain ⟨hover, hkept⟩ := onChain_of_call hcf hdistinct h.node h.links hb ho hclean hresult
    obtain ⟨hnear, hapart⟩ := hharmless exit hresult
    by_cases hovertakes : Overtakes a.node b
    · refine ⟨⟨hnode, hlinks, h.accounted.removeAll _, fun txid e he => ?_⟩, fun txid e he hgone => ?_⟩
      · have hold := h.entries txid e (lookup_of_removeAll he).2
        refine hold.of_chain fun x hx => ?_
        rcases hgrows.near x hx with hon | (rfl | hwaits) | hbelow
        · exact .inl hon
        · exact .inr fun i hi => not_spent_of_kept he hi (hold.real i hi)
        · exact .inr fun i hi hspends => hnear hovertakes x (.inl hwaits) txid e (lookup_of_removeAll he).2
            (.inr ⟨i, hi, hspends⟩)
        · by_cases hon : OnChain a.node x
          · exact .inl hon
          · exact .inr fun i hi hspends => hnear hovertakes x (.inr ⟨hbelow, hon⟩) txid e
              (lookup_of_removeAll he).2 (.inr ⟨i, hi, hspends⟩)
      · exact confirmed_of_removed (hover hovertakes) he hgone
    · have hsame := hkept hovertakes
      refine ⟨⟨hnode, hlinks, h.accounted.removeAll _, fun txid e he => ?_⟩, fun txid e he hgone => ?_⟩
      · exact (h.entries txid e (lookup_of_removeAll he).2).of_chain fun x hx => .inl ((hsame x).mp hx)
      · rw [kept_of_apart (hapart hovertakes) he] at hgone
        cases hgone

end Invariant

section Runs

variable (cx K) in
/-- A transaction of the log and one of a known block with the same txid spend the same outpoints. -/
def TxidsTell (log : List Insertion) : Prop :=
  ∀ i ∈ log, ∀ x, K x → ∀ t ∈ x.transactions, i.tx.txid cx.sha256 = t.txid cx.sha256 →
    i.tx.inputs.map TxInput.prevOutput = t.inputs.map TxInput.prevOutput

theorem not_coinbase_of_prevOutputs {tx t : Transaction}
    (hsame : tx.inputs.map TxInput.prevOutput = t.inputs.map TxInput.prevOutput)
    (hreal : ∀ i ∈ tx.inputs, i.prevOutput.isNull = false) : t.isCoinbase = false := by
  unfold Transaction.isCoinbase
  split
  next j hj =>
    have hmem : j.prevOutput ∈ tx.inputs.map TxInput.prevOutput := by
      rw [hsame, hj]
      exact List.mem_cons_self
    obtain ⟨i, hi, heq⟩ := List.mem_map.mp hmem
    unfold TxInput.isCoinbase
    rw [← heq]
    exact hreal i hi
  next => rfl

/-- Where the entries can be spent on the chain, the pool holds nothing of it. -/
theorem Settled.agrees {a : App} (h : Settled cx K a) {log : List Insertion} (hvetted : Vetted cx a log)
    (htell : TxidsTell cx K log) : Agrees cx a := by
  intro x hx txid e he hclash
  have hspendable := h.entries txid e he
  rcases hclash with hid | ⟨i, hi, hspends⟩
  · obtain ⟨t, ht, htxid⟩ := List.mem_map.mp hid
    obtain ⟨i, hi, htx, -⟩ := hvetted.logged txid e he
    obtain ⟨bs, hbs⟩ := h.node.chain
    have hsame := htell i hi x (hbs.known x ((onChain_iff hbs).mp hx)) t ht (by rw [htx, htxid, h.accounted.keyed txid e he])
    rw [htx] at hsame
    obtain ⟨j, hj⟩ := List.exists_mem_of_ne_nil _ hspendable.inputs
    refine hspendable.unspent j hj x hx ⟨t, ht, ?_⟩
    rw [consumed_of_not_coinbase (not_coinbase_of_prevOutputs hsame hspendable.real), ← hsame]
    exact List.mem_map_of_mem hj
  · exact hspendable.unspent i hi x hx hspends

theorem handled_block {sur : Surroundings} {a : App} {e : Event} {r : Handled} {b : Block}
    (he : e = .blockMsg b ∨ e = .submitblock b) (h : handle cx rates sur a e = some r) :
    r.app = a ∨ Reaches cx ⟨a, sur, e, r⟩ b ∧
      ∃ result, acceptBlock cx sur 0 a b = some (r.app, result) := by
  rcases he with rfl | rfl
  · simp only [handle, Handlers.blockMsg] at h
    split at h
    next =>
      cases h
      exact .inl rfl
    next hnew =>
      split at h
      next =>
        cases h
        exact .inl rfl
      next hpow =>
        obtain ⟨⟨a', result⟩, haccept, rfl⟩ := Option.map_eq_some_iff.mp h
        have hget : a.node.getBlock (b.hash cx.sha256) = none := by simpa using hnew
        refine .inr ⟨⟨by simpa using hpow, .inr ⟨rfl, hget⟩⟩, result, ?_⟩
        rw [haccept]
        cases result <;> rfl
  · simp only [handle, Handlers.submitblock] at h
    split at h
    next =>
      cases h
      exact .inl rfl
    next hpow =>
      obtain ⟨⟨a', result⟩, haccept, rfl⟩ := Option.map_eq_some_iff.mp h
      exact .inr ⟨⟨by simpa using hpow, .inl rfl⟩, result, haccept⟩

theorem Settled.handle (hcf : CollisionFree cx K) (hdistinct : Distinct cx K) {st : Step} (h : Settled cx K st.before)
    (hreal : RealNode st.before.node) (hevent : Covered st.event)
    (hknown : ∀ b, st.event = .blockMsg b ∨ st.event = .submitblock b → K b) (hcareful : Careful cx st)
    (hhandled : handle cx rates st.sur st.before st.event = some st.handled) : Settled cx K st.handled.app ∧
      ∀ b, st.event = .blockMsg b ∨ st.event = .submitblock b → RemovedOnly cx st.before st.handled.app := by
  have hblock : ∀ b, st.event = .blockMsg b ∨ st.event = .submitblock b →
      Settled cx K st.handled.app ∧ RemovedOnly cx st.before st.handled.app := by
    intro b hb
    rcases handled_block hb hhandled with hsame | ⟨hreaches, result, haccept⟩
    · rw [hsame]
      exact ⟨h, fun txid e he hgone => absurd (he.symm.trans hgone) (by simp)⟩
    · exact h.accept hcf hdistinct (hknown b hb) haccept (hcareful.1 b hreaches)
  refine ⟨?_, fun b hb => (hblock b hb).2⟩
  cases hevents : st.event with
  | blockMsg b => exact (hblock b (.inl hevents)).1
  | submitblock b => exact (hblock b (.inr hevents)).1
  | txMsg blockRelayOnly tx =>
    rw [hevents] at hhandled
    rw [← Option.some.inj hhandled]
    exact h.txMsg hreal (hcareful.2 blockRelayOnly tx hevents) tx
  | sync state =>
    rw [hevents] at hhandled
    rw [← Option.some.inj hhandled]
    exact ⟨h.node, h.links, h.accounted, h.entries⟩
  | generatetoaddress | sendrawtransaction | submitTx | sendtoaddress | bumpfee =>
    rw [hevents] at hevent
    exact hevent.elim

theorem settled_fresh (hcf : CollisionFree cx K) {env : Env} {s : NodeState}
    (h : NodeState.new cx env Storage.Disk.empty = .ok s) (maxSize : ℕ) :
    Settled cx K ⟨s, Mempool.new maxSize, OrphanTxs.empty, .headerSync⟩ := by
  have hfresh := freshNode h
  refine ⟨NodeInv.fresh hcf hfresh, ⟨?_, ?_⟩, accounted_empty maxSize, ?_⟩
  · intro k b hb
    simp only [hfresh.orphanBlocks] at hb
    simp at hb
  · intro p b _ hb
    simp only [hfresh.orphansByParent] at hb
    simp at hb
  · intro txid e he
    simp [Mempool.new] at he

/-- In every run whose handler calls are careful, the pool and the best chain agree after each of them, and
a call that delivers a block takes nothing out of the pool but what the best chain confirms or conflicts
with, and descendants of that. -/
theorem pool_agrees_with_chain {a : App} {steps : List Step} (hrun : NodeRun cx rates a steps)
    (hcf : CollisionFree cx K) (hdistinct : Distinct cx K) (hevents : ∀ st ∈ steps, Covered st.event)
    (hknown : ∀ st ∈ steps, ∀ b, st.event = .blockMsg b ∨ st.event = .submitblock b → K b)
    (htell : TxidsTell cx K (insertions steps)) (hcareful : ∀ st ∈ steps, Careful cx st) :
    ∀ st ∈ steps, Agrees cx st.handled.app ∧
      ∀ b, st.event = .blockMsg b ∨ st.event = .submitblock b → RemovedOnly cx st.before st.handled.app := by
  suffices hall : Settled cx K a ∧ ∀ st ∈ steps, Agrees cx st.handled.app ∧
      ∀ b, st.event = .blockMsg b ∨ st.event = .submitblock b → RemovedOnly cx st.before st.handled.app from hall.2
  induction hrun with
  | fresh h maxSize => exact ⟨settled_fresh hcf h maxSize, by simp⟩
  | @step a steps sur e r hrun h ih =>
    have hold : ∀ st ∈ steps, st ∈ steps ++ [⟨a, sur, e, r⟩] := fun st hst => List.mem_append_left _ hst
    have hlast : (⟨a, sur, e, r⟩ : Step) ∈ steps ++ [⟨a, sur, e, r⟩] := by simp
    obtain ⟨hbefore, hsteps⟩ := ih (fun st hst => hevents st (hold st hst))
      (fun st hst => hknown st (hold st hst))
      (fun i hi => htell i (by
        obtain ⟨st, hst, hmem⟩ := List.mem_flatMap.mp hi
        exact List.mem_flatMap.mpr ⟨st, hold st hst, hmem⟩))
      (fun st hst => hcareful st (hold st hst))
    obtain ⟨hafter, hremoved⟩ := @Settled.handle cx rates K hcf hdistinct ⟨a, sur, e, r⟩ hbefore
      (nodeRun_real hrun) (hevents _ hlast) (hknown _ hlast) (hcareful _ hlast) h
    have hbumps : ∀ st ∈ steps ++ [⟨a, sur, e, r⟩], BumpsSoundly cx st := by
      intro st hst txid targetFee hbump
      have hcovered := hevents st hst
      rw [hbump] at hcovered
      exact hcovered.elim
    have hagrees := hafter.agrees (nodeRun_vetted (NodeRun.step hrun h) hbumps) htell
    refine ⟨hafter, fun st hst => ?_⟩
    rcases List.mem_append.mp hst with hst | hst
    · exact hsteps st hst
    · rw [List.mem_singleton.mp hst]
      exact ⟨hagrees, hremoved⟩

end Runs

section Ripe

variable {i : ℕ} {s : NodeState} {b x : Block} {st : Step} {a : App} {txid : Bytes32}

open RipeChains BlockTrees Runs

theorem ripe_transactions {t : Transaction} (ht : t ∈ (ripeChain i).transactions) :
    t.isCoinbase = true ∧ parentSpend.txid Sha256.sha256 ≠ t.txid Sha256.sha256 := by
  have hgenesis : ∀ t ∈ scriptNode.genesis.transactions,
      t.isCoinbase = true ∧ parentSpend.txid Sha256.runSha256 ≠ t.txid Sha256.runSha256 := by decide +kernel
  have hfunding : ∀ t ∈ fundingBlock.transactions,
      t.isCoinbase = true ∧ parentSpend.txid Sha256.runSha256 ≠ t.txid Sha256.runSha256 := by decide +kernel
  have hplain : emptyCoinbase.isCoinbase = true ∧
      parentSpend.txid Sha256.runSha256 ≠ emptyCoinbase.txid Sha256.runSha256 := by decide +kernel
  rw [Sha256.runSha256_eq] at hgenesis hfunding hplain
  match i with
  | 0 => exact hgenesis t ht
  | 1 => exact hfunding t ht
  | i + 2 =>
    rw [List.mem_singleton.mp ht]
    exact hplain

/-- The first two blocks create outputs, the other ones do not. -/
theorem ripe_creates {o : OutPoint} (h : Creates Sha256.sha256 (ripeChain i) o) :
    i = 0 ∧ o.txid = genesisTxid ∨ i = 1 ∧ o.txid = fundingTxid := by
  have hgenesis : ∀ t ∈ scriptNode.genesis.transactions, t.txid Sha256.runSha256 = genesisTxid := by decide +kernel
  have hfunding : ∀ t ∈ fundingBlock.transactions, t.txid Sha256.runSha256 = fundingTxid := by decide +kernel
  rw [Sha256.runSha256_eq] at hgenesis hfunding
  obtain ⟨t, ht, ho⟩ := h
  obtain ⟨hid, hout⟩ := created_txid ho
  match i with
  | 0 => exact .inl ⟨rfl, hid.trans (hgenesis t ht)⟩
  | 1 => exact .inr ⟨rfl, hid.trans (hfunding t ht)⟩
  | i + 2 =>
    rw [List.mem_singleton.mp ht] at hout
    exact absurd rfl hout

theorem ripe_of_onChain (h : TreeInv scriptNode ripeBlocks s) (hx : OnChain s x) : ∃ i ≤ 101, x = ripeChain i := by
  obtain ⟨bs, hbs⟩ := h.node.chain
  exact ripeMember (hbs.known x ((onChain_iff hbs).mp hx))

theorem ripe_noRepeat (h : TreeInv scriptNode ripeBlocks s) : NoRepeat scriptNode s := by
  intro o x y hx hy hcreates hcreates'
  obtain ⟨i, -, rfl⟩ := ripe_of_onChain h hx
  obtain ⟨j, -, rfl⟩ := ripe_of_onChain h hy
  have hne : genesisTxid ≠ fundingTxid := by decide
  rcases ripe_creates hcreates with ⟨rfl, hi⟩ | ⟨rfl, hi⟩
  · rcases ripe_creates hcreates' with ⟨rfl, -⟩ | ⟨-, hj⟩
    · rfl
    · exact absurd (hi.symm.trans hj) hne
  · rcases ripe_creates hcreates' with ⟨-, hj⟩ | ⟨rfl, -⟩
    · exact absurd (hj.symm.trans hi) hne
    · rfl

theorem apart_empty (maxSize : ℕ) (x : Block) : Apart cx (Mempool.new maxSize).transactions x := by
  intro txid e he
  simp [Mempool.new] at he

theorem careful_of_empty {s' : NodeState} (hevent : st.event = .submitblock b)
    (hpool : st.before.mempool = Mempool.new 100000)
    (hcall : addBlockFuel cx st.sur.env st.sur.fuel st.before.node b =
      some ⟨.ok .connected, s', [⟨st.sur.env, st.before.node, b, .ok .connected⟩]⟩) : Careful cx st := by
  refine ⟨?_, ?_⟩
  · intro b' hreaches o ho
    obtain rfl : b' = b := by
      rcases hreaches.2 with heq | ⟨heq, -⟩
      · exact (Event.submitblock.inj (hevent.symm.trans heq)).symm
      · cases hevent.symm.trans heq
    obtain rfl := Option.some.inj (hcall.symm.trans ho)
    refine ⟨?_, fun exit _ => ⟨fun _ x _ => ?_, fun _ => ?_⟩⟩
    · intro c hc
      rw [List.mem_singleton.mp hc]
      exact .inl ⟨.connected, rfl⟩
    · rw [hpool]
      exact apart_empty 100000 x
    · rw [hpool]
      exact apart_empty 100000 b'
  · intro blockRelayOnly tx heq
    cases hevent.symm.trans heq

/-- The pool with the pending transaction. -/
def pendingPool : Mempool := (offered (Mempool.new 100000) parentSpend 10000).1

/-- A synced node on the ripe chain has taken a transaction in the last step. -/
structure Pending (a : App) (steps : List Step) : Prop where
  run : NodeRun scriptNode exactRates a steps
  mempool : a.mempool = pendingPool
  tree : TreeInv scriptNode ripeBlocks a.node
  covered : ∀ st ∈ steps, Covered st.event
  careful : ∀ st ∈ steps, Careful scriptNode st
  ripe : ∀ st ∈ steps, ∀ b, st.event = .blockMsg b ∨ st.event = .submitblock b → ripeBlocks b
  inserted : ∀ i ∈ insertions steps, i.tx = parentSpend
  last : ∃ st ∈ steps, st.handled.app = a

theorem txMsg_of_taken {tx : Transaction} {fee : UInt64} (hsync : a.syncState = .synced)
    (hnew : tx.txid scriptNode.sha256 ∉ a.mempool.transactions) (horphans : a.orphans = OrphanTxs.empty)
    (hvalid : validateTransaction scriptNode a.node tx = .ok ()) (hfee : (computeTxFee a.node tx).getD 0 = fee)
    (hok : (offered a.mempool tx fee).2 = .ok ()) : txMsg scriptNode exactRates calmDay false a tx =
      ⟨{ a with mempool := (offered a.mempool tx fee).1 }, 0, [], [⟨a.node, tx, fee⟩]⟩ := by
  have hadd : a.mempool.addTransactionWithFee exactRates (calmDay.calls 0) scriptNode.sha256 tx fee =
      ((offered a.mempool tx fee).1, .ok ()) := by
    rw [← hok]
    simp only [offered, Sha256.runSha256_eq]
    rfl
  unfold txMsg
  simp only [hsync, hnew, hvalid, hfee, ne_eq, not_true_eq_false, Bool.false_eq_true, if_false, Adding.start,
    Adding.add, hadd, processOrphansForTx, horphans]
  rfl

theorem nodeRun_handled {steps : List Step} (hrun : NodeRun cx rates a steps) :
    ∀ st ∈ steps, handle cx rates st.sur st.before st.event = some st.handled := by
  induction hrun with
  | fresh => simp
  | @step a steps sur e r _ h ih =>
    intro st hst
    rcases List.mem_append.mp hst with hst | hst
    · exact ih st hst
    · rw [List.mem_singleton.mp hst]
      exact h

theorem submitblock_inserts {sur : Surroundings} {r : Handled} (h : handle cx rates sur a (.submitblock b) = some r) :
    r.inserted = [] := by
  simp only [handle, Handlers.submitblock] at h
  split at h
  next =>
    cases h
    rfl
  next =>
    obtain ⟨r', -, rfl⟩ := Option.map_eq_some_iff.mp h
    rfl

theorem careful_of_other (hblocks : ∀ b, st.event ≠ .blockMsg b ∧ st.event ≠ .submitblock b)
    (htx : ∀ blockRelayOnly tx, st.event = .txMsg blockRelayOnly tx → NoRepeat cx st.before.node) : Careful cx st := by
  refine ⟨fun b hreaches => ?_, htx⟩
  rcases hreaches.2 with heq | ⟨heq, -⟩
  · exact absurd heq (hblocks b).2
  · exact absurd heq (hblocks b).1

theorem exists_pending : ∃ a steps, Pending a steps := by
  obtain ⟨a, steps, h⟩ := exists_ripened exactRates (le_refl 100)
  obtain ⟨hheight, hset, -⟩ := h.chain le_rfl
  let a₁ : App := { a with syncState := .synced }
  have hsync : NodeRun scriptNode exactRates a₁ (steps ++ [⟨a, calmDay, .sync .synced, a₁.quiet⟩]) :=
    @NodeRun.step _ _ _ _ calmDay (.sync .synced) a₁.quiet h.run rfl
  have hvalid : validateTransaction scriptNode a₁.node parentSpend = .ok () := by
    rw [validateTransaction_ripe hheight hset rfl (by decide +kernel)]
    exact ok_of_isOk (by decide +kernel)
  have hfee : (computeTxFee a₁.node parentSpend).getD 0 = 10000 := by
    show (computeTxFee a.node parentSpend).getD 0 = 10000
    unfold computeTxFee
    rw [hset]
    decide +kernel
  have hempty : a₁.mempool = Mempool.new 100000 := h.mempool
  have hok : (offered a₁.mempool parentSpend 10000).2 = .ok () := by
    rw [hempty]
    exact ok_of_isOk (by decide +kernel)
  have hfresh : parentSpend.txid scriptNode.sha256 ∉ a₁.mempool.transactions := by
    rw [hempty]
    exact Finmap.notMem_empty
  have htaken := txMsg_of_taken (a := a₁) rfl hfresh h.orphans hvalid hfee hok
  rw [hempty, show (offered (Mempool.new 100000) parentSpend 10000).1 = pendingPool by rw [pendingPool]] at htaken
  have hrun := @NodeRun.step _ _ _ _ calmDay (.txMsg false parentSpend) _ hsync (congrArg some htaken)
  have hmempool : ({ a₁ with mempool := pendingPool } : App).mempool = pendingPool := by dsimp only
  refine ⟨_, _, hrun, hmempool, h.tree, ?_, ?_, ?_, ?_,
    ⟨_, List.mem_append_right _ (List.mem_singleton_self _), rfl⟩⟩
  · intro st hst
    rcases List.mem_append.mp hst with hst | hst
    · rcases List.mem_append.mp hst with hst | hst
      · obtain ⟨b, hevent⟩ := h.events st hst
        rw [hevent]
        trivial
      · rw [List.mem_singleton.mp hst]
        trivial
    · rw [List.mem_singleton.mp hst]
      trivial
  · intro st hst
    rcases List.mem_append.mp hst with hst | hst
    · rcases List.mem_append.mp hst with hst | hst
      · obtain ⟨b, s', hevent, -, hpool, hcall⟩ := h.calls st hst
        exact careful_of_empty hevent hpool hcall
      · rw [List.mem_singleton.mp hst]
        exact careful_of_other (by simp) (by simp)
    · rw [List.mem_singleton.mp hst]
      exact careful_of_other (by simp) fun _ _ _ => ripe_noRepeat h.tree
  · intro st hst b hb
    rcases List.mem_append.mp hst with hst | hst
    · rcases List.mem_append.mp hst with hst | hst
      · obtain ⟨b', s', hevent, hripe, -⟩ := h.calls st hst
        rw [hevent] at hb
        rcases hb with heq | heq
        · cases heq
        · rw [← Event.submitblock.inj heq]
          exact hripe
      · rw [List.mem_singleton.mp hst] at hb
        rcases hb with heq | heq <;> cases heq
    · rw [List.mem_singleton.mp hst] at hb
      rcases hb with heq | heq <;> cases heq
  · intro i hi
    obtain ⟨st, hst, hmem⟩ := List.mem_flatMap.mp hi
    rcases List.mem_append.mp hst with hst | hst
    · rcases List.mem_append.mp hst with hst | hst
      · obtain ⟨b, hevent⟩ := h.events st hst
        have hhandled := nodeRun_handled h.run st hst
        rw [hevent] at hhandled
        rw [submitblock_inserts hhandled] at hmem
        cases hmem
      · rw [List.mem_singleton.mp hst] at hmem
        cases hmem
    · rw [List.mem_singleton.mp hst] at hmem
      rw [List.mem_singleton.mp hmem]

theorem pendingPool_lookup : ∃ e, pendingPool.transactions.lookup (parentSpend.txid scriptNode.sha256) = some e := by
  have hpool : (pendingPool.transactions.lookup (parentSpend.txid Sha256.runSha256)).isSome = true := by
    decide +kernel
  rw [Sha256.runSha256_eq] at hpool
  exact Option.isSome_iff_exists.mp hpool

theorem pendingPool_keys {e : MempoolEntry} (he : pendingPool.transactions.lookup txid = some e) :
    txid = parentSpend.txid Sha256.sha256 := by
  have hkeys : ∀ txid ∈ pendingPool.transactions.keys, txid = parentSpend.txid Sha256.runSha256 := by
    decide +kernel
  rw [Sha256.runSha256_eq] at hkeys
  apply hkeys
  rw [Finmap.mem_keys, ← Finmap.lookup_isSome, he]
  rfl

/-- The hypotheses hold in the run in which the node takes the transaction. -/
theorem pending_agrees : ∃ a steps e, NodeRun scriptNode exactRates a steps ∧
    a.mempool.transactions.lookup (parentSpend.txid scriptNode.sha256) = some e ∧ Agrees scriptNode a := by
  obtain ⟨a, steps, h⟩ := exists_pending
  obtain ⟨st, hst, hlast⟩ := h.last
  have hcf : CollisionFree scriptNode (Member scriptNode ripeBlocks) :=
    ⟨.inl rfl, fun x y hx hy heq => congrArg Block.header (ripe_injective hx hy heq), fun x hx => ripe_ne_zero hx⟩
  have hdistinct : Distinct scriptNode (Member scriptNode ripeBlocks) := fun x y hx hy heq =>
    ripe_injective hx hy heq
  have htell : TxidsTell scriptNode (Member scriptNode ripeBlocks) (insertions steps) := by
    intro i hi x hx t ht hsame
    obtain ⟨height, -, rfl⟩ := ripeMember hx
    rw [h.inserted i hi] at hsame
    exact absurd hsame (ripe_transactions ht).2
  have hagrees := (pool_agrees_with_chain h.run hcf hdistinct h.covered (fun st hst b hb => .inr (h.ripe st hst b hb))
    htell h.careful st hst).1
  rw [hlast] at hagrees
  obtain ⟨e, he⟩ := pendingPool_lookup
  rw [← h.mempool] at he
  exact ⟨a, steps, e, h.run, he, hagrees⟩

/-- A block with the pending transaction, above a parent that nobody has. -/
def strayBlock : Block :=
  { header :=
      { version := headerVersion
        prevHash := ⟨List.replicate 32 0xff, rfl⟩
        merkleRoot := calculateMerkleRoot Sha256.runSha256 [emptyCoinbase, parentSpend]
        timestamp := 1706832300
        bits := 0x207fffff
        nonce := 3
        height := 102 }
    transactions := [emptyCoinbase, parentSpend] }

theorem ripe_ne_strayParent (hx : Member scriptNode ripeBlocks x) :
    x.hash scriptNode.sha256 ≠ strayBlock.header.prevHash := by
  intro heq
  obtain ⟨seen, hwalked⟩ := ripeChain_walked
  obtain ⟨i, hi, rfl⟩ := ripeMember hx
  rcases Nat.eq_zero_or_pos i with rfl | hpos
  · have hgenesis : scriptNode.genesis.hash Sha256.runSha256 ≠ strayBlock.header.prevHash := by decide +kernel
    rw [Sha256.runSha256_eq] at hgenesis
    exact hgenesis heq
  · -- the hash of a mined block is below the target
    have hvalue : hashAt i = value strayBlock.header.prevHash.bytes :=
      congrArg (fun x : Bytes32 => value x.bytes) heq
    have hproven := hwalked.proven i hpos hi
    have hbig : easyTarget < value strayBlock.header.prevHash.bytes := by decide +kernel
    omega

theorem strayParent_unknown (h : TreeInv scriptNode ripeBlocks s) :
    parentKnown s strayBlock.header.prevHash = false := by
  have hcached : s.blocks.lookup strayBlock.header.prevHash = none := by
    rw [Option.eq_none_iff_forall_ne_some]
    intro x hx
    obtain ⟨hhash, hmember, -⟩ := h.node.store.cached _ x hx
    exact ripe_ne_strayParent hmember hhash
  have hstored : s.store.disk.blocks.lookup strayBlock.header.prevHash = none := by
    rw [Option.eq_none_iff_forall_ne_some]
    intro x hx
    obtain ⟨hhash, hmember, -⟩ := h.node.store.stored _ x hx
    exact ripe_ne_strayParent hmember hhash
  unfold parentKnown
  rw [hcached, hstored]
  decide

theorem strayBlock_orphaned (h : TreeInv scriptNode ripeBlocks s) : addBlockStep scriptNode today s strayBlock =
      (.ok .orphaned, addOrphan today s (strayBlock.hash scriptNode.sha256) strayBlock) := by
  have hearly : earlyChecks scriptNode today strayBlock = .ok () := by decide +kernel
  unfold addBlockStep
  simp only [hearly, strayParent_unknown h]
  rfl

theorem strayBlock_removes : (pendingPool.removeBlockTransactions (calmDay.calls 0) scriptNode.sha256
    strayBlock).1.transactions.lookup (parentSpend.txid scriptNode.sha256) = none := by
  have hgone : (pendingPool.removeBlockTransactions (callAt 1706900000) Sha256.runSha256
      strayBlock).1.transactions.lookup (parentSpend.txid Sha256.runSha256) = none := by decide +kernel
  rw [Sha256.runSha256_eq] at hgone
  exact hgone

theorem pendingPool_unconfirmed (hripe : ∀ x, OnChain s x → ∃ i ≤ 101, x = ripeChain i)
    (hconfirmed : Confirmed scriptNode pendingPool.transactions s txid) : False := by
  induction hconfirmed with
  | @clash txid e x he hx hclash =>
    obtain ⟨i, -, rfl⟩ := hripe x hx
    rcases hclash with htxid | ⟨input, -, t, ht, hspent⟩
    · obtain ⟨t, ht, rfl⟩ := List.mem_map.mp htxid
      have hkey := pendingPool_keys he
      exact (ripe_transactions ht).2 hkey.symm
    · rw [consumed, if_pos (ripe_transactions ht).1] at hspent
      cases hspent
  | child _ _ _ ih => exact ih

/-- A block that is only put aside as an orphan takes a transaction of its own out of the pool. -/
theorem stray_block_takes_transaction : ∃ a steps r o, NodeRun scriptNode exactRates a steps ∧
    (∀ st ∈ steps, Covered st.event) ∧
    handle scriptNode exactRates calmDay a (.submitblock strayBlock) = some r ∧
    addBlockFuel scriptNode calmDay.env calmDay.fuel a.node strayBlock = some o ∧ o.result = .ok .orphaned ∧
    ¬ RemovedOnly scriptNode a r.app := by
  obtain ⟨a, steps, h⟩ := exists_pending
  have hcall : addBlockFuel scriptNode calmDay.env calmDay.fuel a.node strayBlock =
      some ⟨.ok .orphaned, addOrphan today a.node (strayBlock.hash scriptNode.sha256) strayBlock,
        [⟨today, a.node, strayBlock, .ok .orphaned⟩]⟩ := by
    show addBlockFuel scriptNode today 2 a.node strayBlock = _
    rw [addBlockFuel, strayBlock_orphaned h.tree]
  have hpow : verifyPow scriptNode.sha256 strayBlock.header = true := by
    show verifyPow Sha256.sha256 strayBlock.header = true
    rw [← Sha256.runSha256_eq]
    decide +kernel
  have hhandle : handle scriptNode exactRates calmDay a (.submitblock strayBlock) =
      some (App.quiet { a with
        node := addOrphan today a.node (strayBlock.hash scriptNode.sha256) strayBlock
        mempool := (a.mempool.removeBlockTransactions (calmDay.calls 0) scriptNode.sha256 strayBlock).1 }) := by
    simp only [handle, Handlers.submitblock, hpow, acceptBlock, hcall]
    rfl
  refine ⟨a, steps, _, _, h.run, h.covered, hhandle, hcall, rfl, fun honly => ?_⟩
  obtain ⟨e, he⟩ := pendingPool_lookup
  rw [← h.mempool] at he
  have hgone : (a.mempool.removeBlockTransactions (calmDay.calls 0) scriptNode.sha256
      strayBlock).1.transactions.lookup (parentSpend.txid scriptNode.sha256) = none := by
    rw [h.mempool]
    exact strayBlock_removes
  have hconfirmed := honly _ e he hgone
  rw [h.mempool] at hconfirmed
  have hchain := (chain_of_kept (strayBlock_orphaned h.tree) (by decide)).2
  exact pendingPool_unconfirmed (fun x hx => ripe_of_onChain h.tree ((hchain x).mp hx)) hconfirmed

end Ripe

end KuberCoin.ConfirmedPools
