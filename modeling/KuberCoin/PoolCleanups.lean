import KuberCoin.AncestorPackages

/-!
What leaves the pool when a block is connected. The walk over the descendants of the conflicting entries
stops at the entries of the block, which are marked from the start. That cuts nothing off as long as no
transaction of the block spends an output of an entry that conflicts with it.
-/
namespace KuberCoin.PoolCleanups

open Bytes Maps Transactions Blocks Worklists Mempools Mempool PoolAccounting PoolEvictions AncestorPackages

section Removal

variable {call : Call} {sha256 : Sha256} {m : Mempool} {b : Block} {txid : Bytes32}

/-- The entries that go: those of the block, and those that the walk reaches. -/
theorem mem_toRemove : txid ∈ toRemove call sha256 m b ↔
    txid ∈ m.transactions ∧ txid ∈ confirmedTxids sha256 b ∨ Doomed sha256 m.transactions b txid := by
  constructor
  · intro h
    rw [toRemove_eq_markFrom] at h
    have hfound := markFrom_induction (motive := Doomed sha256 m.transactions b) (1 + m.transactions.keys.card)
      (fun x hx => by
        obtain ⟨e, he, hnot, i, hi, hspent⟩ := mem_conflictingRoots.mp hx
        exact .root he hnot hi hspent)
      (fun x hx y hy hfresh => by
        obtain ⟨e, he, hspends⟩ := mem_children.mp hy
        exact .child hx he hspends fun hin =>
          hfresh (mem_exactConfirmed.mpr ⟨(mem_iff_lookup _ _).mpr ⟨e, he⟩, hin⟩)) txid h
    exact hfound.imp mem_exactConfirmed.mp id
  · rintro (h | h)
    · rw [toRemove_eq_markFrom]
      exact subset_markFrom _ _ _ (mem_exactConfirmed.mpr h)
    · exact mem_toRemove_of_doomed h

theorem doomed_mem (h : Doomed sha256 m.transactions b txid) : txid ∈ m.transactions := by
  cases h with
  | root he _ _ _ => exact (mem_iff_lookup _ _).mpr ⟨_, he⟩
  | child _ he _ _ => exact (mem_iff_lookup _ _).mpr ⟨_, he⟩

theorem toRemove_mem (h : txid ∈ toRemove call sha256 m b) : txid ∈ m.transactions := by
  rcases mem_toRemove.mp h with hexact | hdoomed
  · exact hexact.1
  · exact doomed_mem hdoomed

theorem nodup_toRemove : (toRemove call sha256 m b).Nodup := by
  have hexact : (exactConfirmed call sha256 m b).Nodup := (call.lists m.transactions).nodup.filter _
  rw [toRemove_eq_markFrom]
  exact nodup_markFrom _ _ _ hexact

theorem card_removeAll {txids : List Bytes32} (hnodup : txids.Nodup) (hmem : ∀ txid ∈ txids, txid ∈ m.transactions) :
    (m.removeAll txids).transactions.keys.card + txids.length = m.transactions.keys.card := by
  induction txids generalizing m with
  | nil => rfl
  | cons txid rest ih =>
    obtain ⟨hnot, hrest⟩ := List.nodup_cons.mp hnodup
    obtain ⟨e, he⟩ := (mem_iff_lookup _ _).mp (hmem txid (List.mem_cons_self ..))
    have herased : (m.removeTransaction txid).1.transactions = m.transactions.erase txid := by
      unfold removeTransaction
      rw [he]
    have hleft : ∀ a ∈ rest, a ∈ (m.removeTransaction txid).1.transactions := by
      intro a ha
      have hne : a ≠ txid := by
        rintro rfl
        exact hnot ha
      rw [mem_iff_lookup, lookup_removeTransaction, if_neg hne, ← mem_iff_lookup]
      exact hmem a (List.mem_cons_of_mem _ ha)
    have hcount := ih hrest hleft
    have hcard : (m.removeTransaction txid).1.transactions.keys.card + 1 = m.transactions.keys.card := by
      rw [herased, Finmap.keys_erase]
      exact Finset.card_erase_add_one (Finmap.mem_keys.mpr (hmem txid (List.mem_cons_self ..)))
    change ((m.removeTransaction txid).1.removeAll rest).transactions.keys.card + (rest.length + 1) = _
    omega

end Removal

section Exactness

variable {call : Call} {sha256 : Sha256} {m : Mempool} {b : Block} {txid : Bytes32}

/-- The entries in conflict with a block: those that spend what one of its transactions spends without being
one of them, and their descendants. -/
inductive InConflict (sha256 : Sha256) (pool : Pool) (b : Block) : Bytes32 → Prop where
  | spends {txid : Bytes32} {e : MempoolEntry} (he : pool.lookup txid = some e)
      (hnot : txid ∉ confirmedTxids sha256 b) {i : TxInput} (hi : i ∈ e.tx.inputs)
      (hspent : i.prevOutput ∈ confirmedSpends b) : InConflict sha256 pool b txid
  | child {p txid : Bytes32} {e : MempoolEntry} (hp : InConflict sha256 pool b p)
      (he : pool.lookup txid = some e) (hspends : e.spends p = true) : InConflict sha256 pool b txid

/-- The transactions of the block spend no output of an entry in conflict with it. -/
def SpendsSettled (sha256 : Sha256) (pool : Pool) (b : Block) : Prop :=
  ∀ t ∈ confirmed b, ∀ i ∈ t.inputs, ¬ InConflict sha256 pool b i.prevOutput.txid

/-- A transaction of the block and an entry of the pool with the same txid spend the same outpoints. -/
def TxidsTell (sha256 : Sha256) (pool : Pool) (b : Block) : Prop :=
  ∀ t ∈ confirmed b, ∀ e, pool.lookup (t.txid sha256) = some e →
    e.tx.inputs.map TxInput.prevOutput = t.inputs.map TxInput.prevOutput

theorem InConflict.not_confirmed (hsettled : SpendsSettled sha256 m.transactions b)
    (htell : TxidsTell sha256 m.transactions b) (h : InConflict sha256 m.transactions b txid) :
    txid ∉ confirmedTxids sha256 b := by
  cases h with
  | spends _ hnot _ _ => exact hnot
  | child hp he hspends =>
    intro hin
    obtain ⟨t, ht, rfl⟩ := List.mem_map.mp hin
    obtain ⟨j, hj, hparent⟩ := List.any_eq_true.mp hspends
    have hsame := htell t ht _ he
    have hout : j.prevOutput ∈ t.inputs.map TxInput.prevOutput := by
      rw [← hsame]
      exact List.mem_map_of_mem hj
    obtain ⟨i, hi, hout⟩ := List.mem_map.mp hout
    refine hsettled t ht i hi ?_
    rw [hout, beq_iff_eq.mp hparent]
    exact hp

/-- The walk misses no entry in conflict with such a block. -/
theorem doomed_iff (hsettled : SpendsSettled sha256 m.transactions b) (htell : TxidsTell sha256 m.transactions b) :
    Doomed sha256 m.transactions b txid ↔ InConflict sha256 m.transactions b txid := by
  constructor
  · intro h
    induction h with
    | root he hnot hi hspent => exact .spends he hnot hi hspent
    | child _ he hspends _ ih => exact .child ih he hspends
  · intro h
    induction h with
    | spends he hnot hi hspent => exact .root he hnot hi hspent
    | child hp he hspends ih => exact .child ih he hspends ((InConflict.child hp he hspends).not_confirmed hsettled htell)

/-- What a call of `remove_block_transactions` is to do. -/
structure Exact (call : Call) (sha256 : Sha256) (m : Mempool) (b : Block) : Prop where
  removed : ∀ txid, txid ∈ m.transactions → txid ∈ confirmedTxids sha256 b ∨ InConflict sha256 m.transactions b txid →
    (m.removeBlockTransactions call sha256 b).1.transactions.lookup txid = none
  kept : ∀ txid, ¬ (txid ∈ confirmedTxids sha256 b ∨ InConflict sha256 m.transactions b txid) →
    (m.removeBlockTransactions call sha256 b).1.transactions.lookup txid = m.transactions.lookup txid
  counted : (m.removeBlockTransactions call sha256 b).1.transactions.keys.card +
    (m.removeBlockTransactions call sha256 b).2 = m.transactions.keys.card

theorem cleanup_exact (call : Call) (sha256 : Sha256) (m : Mempool) (b : Block)
    (hsettled : SpendsSettled sha256 m.transactions b) (htell : TxidsTell sha256 m.transactions b) :
    Exact call sha256 m b where
  removed txid hin h := by
    have hmem : txid ∈ toRemove call sha256 m b := by
      rw [mem_toRemove, doomed_iff hsettled htell]
      exact h.imp (fun hc => ⟨hin, hc⟩) id
    unfold removeBlockTransactions
    rw [lookup_removeAll, if_pos hmem]
  kept txid h := by
    have hmem : txid ∉ toRemove call sha256 m b := by
      rw [mem_toRemove, doomed_iff hsettled htell]
      exact fun hin => h (hin.imp And.right id)
    unfold removeBlockTransactions
    rw [lookup_removeAll, if_neg hmem]
  counted := card_removeAll nodup_toRemove fun _ => toRemove_mem

/-- A block with one transaction. -/
def blockOf (tx : Transaction) : Block := ⟨⟨1, Bytes32.zero, Bytes32.zero, 0, 0, 0, 1⟩, [tx]⟩

/-- A block confirms the parent; its child stays. -/
theorem confirmed_parent_removed : Exact (callAt 0) Sha256.sha256 (family 0 0) (blockOf parentTx) := by
  have hconfirmed : ∀ t ∈ confirmed (blockOf parentTx), t = parentTx := by
    intro t ht
    exact List.mem_singleton.mp (List.mem_filter.mp ht).1
  refine cleanup_exact (callAt 0) Sha256.sha256 (family 0 0) (blockOf parentTx) ?_ ?_
  · intro t ht i hi hconflict
    obtain rfl := hconfirmed t ht
    have hnone : (family 0 0).transactions.lookup i.prevOutput.txid = none := by
      have hzero : i.prevOutput.txid = Bytes32.zero := by
        rw [List.mem_singleton.mp hi]
        rfl
      rw [hzero, family_lookup, if_neg (by decide), if_neg (by decide)]
    cases hconflict with
    | spends he _ _ _ =>
      rw [hnone] at he
      cases he
    | child _ he _ =>
      rw [hnone] at he
      cases he
  · intro t ht e he
    obtain rfl := hconfirmed t ht
    rw [parentTx_txid, family_lookup, if_neg (by decide), if_pos rfl] at he
    cases he
    rfl

theorem not_doomed_of_coinbase (hnone : confirmed b = []) : ¬ Doomed sha256 m.transactions b txid := by
  intro h
  induction h with
  | root _ _ _ hspent =>
    rw [confirmedSpends, hnone] at hspent
    cases hspent
  | child _ _ _ _ ih => exact ih

/-- A coinbase transaction. -/
def mintTx : Transaction := ⟨1, [inputOf OutPoint.null], [⟨1000, []⟩], 0⟩

/-- A pool that was given the coinbase transaction of a block keeps it when the block is connected. -/
theorem coinbase_entry_kept :
    Accounted Sha256.sha256 (run exactRates Sha256.sha256 100000 [.addTransactionWithFee (callAt 0) mintTx 1000]) ∧
      (∀ t ∈ (blockOf mintTx).transactions, t.isCoinbase = true) ∧
      mintTx.txid Sha256.sha256 ∈ (blockOf mintTx).transactions.map (Transaction.txid Sha256.sha256) ∧
      ∃ e, ((run exactRates Sha256.sha256 100000
        [.addTransactionWithFee (callAt 0) mintTx 1000]).removeBlockTransactions (callAt 0) Sha256.sha256
          (blockOf mintTx)).1.transactions.lookup (mintTx.txid Sha256.sha256) = some e := by
  have hcoinbase : ∀ t ∈ (blockOf mintTx).transactions, t.isCoinbase = true := by decide
  have hnone : confirmed (blockOf mintTx) = [] := by decide
  have hpool : run exactRates Sha256.sha256 100000 [.addTransactionWithFee (callAt 0) mintTx 1000] =
      (Mempool.new 100000).insertEntry (mintTx.txid Sha256.sha256) (newEntry (callAt 0) mintTx 1000 ∅) :=
    apply_first (callAt 0) (by decide)
  refine ⟨(accounted_run _ _ _ _).1, hcoinbase, List.mem_cons_self .., newEntry (callAt 0) mintTx 1000 ∅, ?_⟩
  have hmem : mintTx.txid Sha256.sha256 ∉ toRemove (callAt 0) Sha256.sha256
      (run exactRates Sha256.sha256 100000 [.addTransactionWithFee (callAt 0) mintTx 1000]) (blockOf mintTx) := by
    rw [mem_toRemove]
    rintro (⟨-, hin⟩ | hdoomed)
    · rw [confirmedTxids, hnone] at hin
      cases hin
    · exact not_doomed_of_coinbase hnone hdoomed
  unfold removeBlockTransactions
  rw [lookup_removeAll, if_neg hmem, hpool]
  change (Finmap.insert _ _ (∅ : Pool)).lookup _ = _
  rw [lookup_insert_eq, if_pos rfl]

end Exactness

end KuberCoin.PoolCleanups
