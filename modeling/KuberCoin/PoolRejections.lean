import KuberCoin.PoolEvictions

/-!
What a refused transaction leaves of the pool. The entries it replaces are removed before the chain
limits and the capacity are looked at, and the eviction for room takes entries out one by one before it
knows whether there are enough of them.
-/
namespace KuberCoin.PoolRejections

open Bytes Maps Transactions Worklists Mempools Mempool PoolAccounting PoolEvictions

section Outcomes

variable {rates : FeeRates} {call : Call} {sha256 : Sha256} {m : Mempool} {tx : Transaction} {fee : UInt64}

/-- The pool with the entries and the counter it had. -/
structure Untouched (m m' : Mempool) : Prop where
  entries : m'.transactions = m.transactions
  size : m'.currentSize = m.currentSize

theorem Untouched.refl (m : Mempool) : Untouched m m := ⟨rfl, rfl⟩

/-- A call that fails leaves the pool as it was. -/
def KeepsOnError (rates : FeeRates) (call : Call) (sha256 : Sha256) (m : Mempool) (tx : Transaction) (fee : UInt64) :
    Prop :=
  ∀ e, (m.addTransactionWithFee rates call sha256 tx fee).2 = .error e →
    Untouched m (m.addTransactionWithFee rates call sha256 tx fee).1

/-- The checks before the first removal are passed: relay policy, duplicates and the rules of replacement. -/
structure Started (rates : FeeRates) (call : Call) (sha256 : Sha256) (m : Mempool) (tx : Transaction) (fee : UInt64) :
    Prop where
  relayed : relayPolicy rates tx fee = .ok ()
  fresh : tx.txid sha256 ∉ m.transactions
  replaces : replacement call tx fee m.transactions = .ok (allEvict call tx m.transactions)

theorem untouched_of_not_started (h : ¬ Started rates call sha256 m tx fee) :
    (m.addTransactionWithFee rates call sha256 tx fee).1 = m := by
  unfold addTransactionWithFee
  cases hrelay : relayPolicy rates tx fee with
  | error e => rfl
  | ok _ =>
    unfold addTransactionUnchecked
    by_cases hfresh : tx.txid sha256 ∈ m.transactions
    · rw [if_pos hfresh]
    · rw [if_neg hfresh]
      cases hrep : replacement call tx fee m.transactions with
      | error e => rfl
      | ok evicted =>
        obtain rfl := replacement_eq_ok hrep
        exact absurd ⟨hrelay, hfresh, hrep⟩ h

theorem add_of_started (h : Started rates call sha256 m tx fee) : m.addTransactionWithFee rates call sha256 tx fee =
      match chainLimits call tx (replacedPool call m tx).transactions with
      | .error e => (replacedPool call m tx, .error e)
      | .ok () =>
        match makeRoom rates call sha256 (replacedPool call m tx) (txSize tx) with
        | (full, .error e) => (full, .error e)
        | (roomy, .ok ()) => (roomy.insertEntry (tx.txid sha256)
            (newEntry call tx fee (replacedPool call m tx).transactions), .ok ()) := by
  unfold addTransactionWithFee addTransactionUnchecked
  rw [h.relayed]
  simp only [if_neg h.fresh, h.replaces]
  rfl

/-- The transaction is larger than the room that is left and all the entries of the pool together. -/
def TooLarge (m : Mempool) (size : ℕ) : Prop := m.maxSize < m.currentSize + size ∧ m.currentSize < size

theorem evictLoop_succeeds_iff (needed fuel freed : ℕ) (h : Accounted sha256 m)
    (hfuel : m.transactions.keys.card < fuel) :
    (evictLoop rates call sha256 needed fuel freed m).2 = true ↔ needed ≤ freed + m.currentSize := by
  constructor
  · intro hok
    have room := (h.evictLoop rates call needed fuel freed).2.2.2 hok
    omega
  · intro henough
    induction fuel generalizing freed m with
    | zero => omega
    | succ fuel ih =>
      rw [evictLoop]
      by_cases hfreed : freed < needed
      · rw [if_pos hfreed]
        cases hv : lowestFeerate rates call m.transactions with
        | none =>
          have empty : m.transactions = ∅ := by
            apply Finmap.ext_lookup
            intro txid
            rw [Finmap.lookup_empty]
            cases hq : m.transactions.lookup txid with
            | none => rfl
            | some q =>
              have hmem := mem_evictable call hq (size_pos h hq)
              rw [List.argmin_eq_none.mp hv] at hmem
              cases hmem
          have nothing : m.currentSize = 0 := by
            rw [h.size_eq, empty]
            rfl
          omega
        | some v =>
          have size := h.size_removed (h.victim hv)
          refine ih (freed + v.size) (h.removeTransaction _) ?_ ?_
          · rw [transactions_victim_removed h hv]
            have hcard := card_keys_erase_lt m.transactions (v.tx.txid sha256)
              ((mem_iff_lookup _ _).mpr ⟨v, h.victim hv⟩)
            omega
          · omega
      · rw [if_neg hfreed]

theorem empty_of_lookup {pool : Pool} (h : ∀ txid, pool.lookup txid = none) : pool = ∅ := by
  apply Finmap.ext_lookup
  intro txid
  rw [h txid, Finmap.lookup_empty]

/-- Making room fails where the counter would overflow, or where the transaction is too large: then the
pool is emptied first. -/
theorem makeRoom_cases (h : Accounted sha256 m) (size : ℕ) :
    (2 ^ 64 ≤ m.currentSize + size ∧ ∃ e, makeRoom rates call sha256 m size = (m, .error e)) ∨
      (m.currentSize + size < 2 ^ 64 ∧ TooLarge m size ∧
        ∃ e emptied, makeRoom rates call sha256 m size = (emptied, .error e) ∧ emptied.transactions = ∅ ∧
          Accounted sha256 emptied) ∨
      (m.currentSize + size < 2 ^ 64 ∧ ¬ TooLarge m size ∧
        ∃ roomy, makeRoom rates call sha256 m size = (roomy, .ok ())) := by
  unfold makeRoom
  by_cases hbound : 2 ^ 64 ≤ m.currentSize + size
  · rw [if_pos hbound]
    exact .inl ⟨hbound, _, rfl⟩
  rw [if_neg hbound]
  by_cases hfull : m.maxSize < m.currentSize + size
  · rw [if_pos hfull]
    have succeeds := @evictLoop_succeeds_iff rates call sha256 m size (m.transactions.keys.card + 1) 0 h (by omega)
    by_cases hlarge : m.currentSize < size
    · have hfail : (evictLowestFeerate rates call sha256 m size).2 = false :=
        Bool.eq_false_iff.mpr fun hok => by
          have := succeeds.mp hok
          omega
      simp only [hfail, Bool.false_eq_true, if_false]
      exact .inr (.inl ⟨by omega, ⟨hfull, hlarge⟩, _, _, rfl,
        empty_of_lookup (empty_of_evict_fails size _ 0 h (by omega) hfail), (h.evictLoop rates call _ _ 0).1⟩)
    · have hok : (evictLowestFeerate rates call sha256 m size).2 = true := succeeds.mpr (by omega)
      simp only [hok, if_true]
      exact .inr (.inr ⟨by omega, fun large => hlarge large.2, _, rfl⟩)
  · rw [if_neg hfull]
    exact .inr (.inr ⟨by omega, fun large => hfull large.1, _, rfl⟩)

theorem replacedPool_of_nothing (h : allEvict call tx m.transactions = []) : replacedPool call m tx = m := by
  rw [replacedPool, h]
  rfl

/-- A replacement that removes something is not undone. -/
theorem changed_of_evicted (h : allEvict call tx m.transactions ≠ []) : ¬ Untouched m (replacedPool call m tx) := by
  intro same
  obtain ⟨txid, hmem⟩ := List.exists_mem_of_ne_nil _ h
  obtain ⟨e, he⟩ : ∃ e, m.transactions.lookup txid = some e := by
    cases mem_allEvict.mp hmem with
    | conflict he => exact ⟨_, he⟩
    | child _ he => exact ⟨_, he⟩
  rw [← same.entries] at he
  exact (lookup_of_removeAll he).1 hmem

/-- The call fails after it has removed entries: a replacement is turned down by the chain limits or by
the counter, or a transaction is too large for a pool that is not empty. -/
structure Wastes (rates : FeeRates) (call : Call) (sha256 : Sha256) (m : Mempool) (tx : Transaction) (fee : UInt64) :
    Prop where
  started : Started rates call sha256 m tx fee
  late :
    allEvict call tx m.transactions ≠ [] ∧ (chainLimits call tx (replacedPool call m tx).transactions ≠ .ok () ∨
      2 ^ 64 ≤ (replacedPool call m tx).currentSize + txSize tx) ∨
    m.transactions ≠ ∅ ∧ chainLimits call tx (replacedPool call m tx).transactions = .ok () ∧
      (replacedPool call m tx).currentSize + txSize tx < 2 ^ 64 ∧ TooLarge (replacedPool call m tx) (txSize tx)

theorem replacedPool_untouched_iff : Untouched m (replacedPool call m tx) ↔ allEvict call tx m.transactions = [] := by
  constructor
  · intro same
    by_contra h
    exact changed_of_evicted h same
  · intro h
    rw [replacedPool_of_nothing h]
    exact .refl m

/-- The pool is emptied in vain unless it was empty before. -/
theorem emptied_untouched_iff {emptied : Mempool} (h : Accounted sha256 m) (hempty : emptied.transactions = ∅)
    (hemptied : Accounted sha256 emptied) : Untouched m emptied ↔ m.transactions = ∅ := by
  constructor
  · intro same
    exact same.entries.symm.trans hempty
  · intro nothing
    refine ⟨hempty.trans nothing.symm, ?_⟩
    rw [hemptied.size_eq, h.size_eq, hempty, nothing]

theorem keepsOnError_of_error {m' : Mempool} {e : String}
    (h : m.addTransactionWithFee rates call sha256 tx fee = (m', .error e)) :
    KeepsOnError rates call sha256 m tx fee ↔ Untouched m m' := by
  unfold KeepsOnError
  rw [h]
  exact ⟨fun keeps => keeps e rfl, fun same _ _ => same⟩

theorem keepsOnError_iff (h : Accounted sha256 m) :
    KeepsOnError rates call sha256 m tx fee ↔ ¬ Wastes rates call sha256 m tx fee := by
  by_cases hstarted : Started rates call sha256 m tx fee
  · have hrest : Accounted sha256 (replacedPool call m tx) := h.removeAll _
    have hadd := add_of_started hstarted
    have early (failed : chainLimits call tx (replacedPool call m tx).transactions ≠ .ok () ∨
          2 ^ 64 ≤ (replacedPool call m tx).currentSize + txSize tx) :
        Wastes rates call sha256 m tx fee ↔ allEvict call tx m.transactions ≠ [] := by
      constructor
      · rintro ⟨-, hearly | ⟨-, hlimits, hbound, -⟩⟩
        · exact hearly.1
        · rcases failed with hfail | hover
          · exact absurd hlimits hfail
          · exact absurd hover (Nat.not_le.mpr hbound)
      · exact fun hsome => ⟨hstarted, .inl ⟨hsome, failed⟩⟩
    cases hlimits : chainLimits call tx (replacedPool call m tx).transactions with
    | error e =>
      have failed : chainLimits call tx (replacedPool call m tx).transactions ≠ .ok () := by
        rw [hlimits]
        exact fun hok => by cases hok
      simp only [hlimits] at hadd
      rw [keepsOnError_of_error hadd, early (.inl failed), not_not, replacedPool_untouched_iff]
    | ok _ =>
      simp only [hlimits] at hadd
      have passed (hbound : (replacedPool call m tx).currentSize + txSize tx < 2 ^ 64) :
          ¬ (chainLimits call tx (replacedPool call m tx).transactions ≠ .ok () ∨
            2 ^ 64 ≤ (replacedPool call m tx).currentSize + txSize tx) := by
        rintro (hfail | hover)
        · exact hfail hlimits
        · exact absurd hover (Nat.not_le.mpr hbound)
      obtain ⟨hbound, e, hroom⟩ | ⟨hbound, hlarge, e, emptied, hroom, hempty, hemptied⟩ | ⟨hbound, hsmall, roomy, hroom⟩ :=
        @makeRoom_cases rates call sha256 (replacedPool call m tx) hrest (txSize tx)
      · simp only [hroom] at hadd
        rw [keepsOnError_of_error hadd, early (.inr hbound), not_not, replacedPool_untouched_iff]
      · simp only [hroom] at hadd
        rw [keepsOnError_of_error hadd, emptied_untouched_iff h hempty hemptied]
        constructor
        · rintro nothing ⟨-, hearly | hlate⟩
          · exact passed hbound hearly.2
          · exact hlate.1 nothing
        · intro hkept
          by_contra hsome
          exact hkept ⟨hstarted, .inr ⟨hsome, hlimits, hbound, hlarge⟩⟩
      · simp only [hroom] at hadd
        refine iff_of_true (fun e he => ?_) ?_
        · rw [hadd] at he
          cases he
        · rintro ⟨-, hearly | hlate⟩
          · exact passed hbound hearly.2
          · exact hsmall hlate.2.2.2
  · refine iff_of_true (fun e _ => ?_) fun wastes => hstarted wastes.started
    rw [untouched_of_not_started hstarted]
    exact .refl m

end Outcomes

section States

/-- In every state of the pool: a call that fails leaves it as it was, unless it fails after a removal. -/
theorem rejected_untouched_iff (rates : FeeRates) (sha256 : Sha256) (maxSize : ℕ) (ops : List Op) (call : Call)
    (tx : Transaction) (fee : UInt64) : KeepsOnError rates call sha256 (run rates sha256 maxSize ops) tx fee ↔
      ¬ Wastes rates call sha256 (run rates sha256 maxSize ops) tx fee :=
  keepsOnError_iff (accounted_run rates sha256 maxSize ops).1

/-- A pool with room for one small transaction, and that transaction. -/
def smallPool : Mempool :=
  (Mempool.new 80).insertEntry (childTx.txid Sha256.sha256) (newEntry (callAt 0) childTx 1000 ∅)

theorem txSize_samples : txSize childTx = 80 ∧ txSize parentTx = 96 := by decide

theorem smallPool_run :
    run exactRates Sha256.sha256 80 [.addTransactionWithFee (callAt 0) childTx 1000] = smallPool := by
  have hsize := txSize_samples.1
  have hadd : (Mempool.new 80).addTransactionUnchecked exactRates (callAt 0) Sha256.sha256 childTx 1000 =
      (smallPool, .ok ()) := by
    apply addTransactionUnchecked_plain
    · exact Finmap.notMem_empty
    · exact fun _ _ h => by simp [Mempool.new] at h
    · change (∅ : Pool).keys.card < 25
      simp
    · change 0 + txSize childTx ≤ 80
      omega
    · change 0 + txSize childTx < 2 ^ 64
      omega
  have hfold : run exactRates Sha256.sha256 80 [.addTransactionWithFee (callAt 0) childTx 1000] =
      (Op.addTransactionWithFee (callAt 0) childTx 1000).apply exactRates Sha256.sha256 (Mempool.new 80) := rfl
  rw [hfold]
  simp only [Op.apply, addTransactionWithFee, relayPolicy_ok (hsize.trans_le (by omega)), hadd]

/-- A transaction of 96 bytes is refused by a pool of 80 bytes, and takes the entry that was there with
it. -/
theorem oversized_empties_pool : ¬ KeepsOnError exactRates (callAt 0) Sha256.sha256
      (run exactRates Sha256.sha256 80 [.addTransactionWithFee (callAt 0) childTx 1000]) parentTx 1000 := by
  obtain ⟨hchild, hparent⟩ := txSize_samples
  have hacc := (accounted_run exactRates Sha256.sha256 80 [.addTransactionWithFee (callAt 0) childTx 1000]).1
  rw [keepsOnError_iff hacc, not_not, smallPool_run]
  have hlookup : ∀ txid e, smallPool.transactions.lookup txid = some e →
      txid = childTx.txid Sha256.sha256 ∧ e = newEntry (callAt 0) childTx 1000 ∅ := by
    intro txid e he
    rcases lookup_of_insertEntry he with ⟨rfl, rfl⟩ | ⟨-, he⟩
    · exact ⟨rfl, rfl⟩
    · simp [Mempool.new] at he
  have hfree : ∀ txid e, smallPool.transactions.lookup txid = some e →
      ∀ i ∈ parentTx.inputs, ∀ j ∈ e.tx.inputs, j.prevOutput ≠ i.prevOutput := by
    intro txid e he
    obtain ⟨-, rfl⟩ := hlookup txid e he
    change ∀ i ∈ parentTx.inputs, ∀ j ∈ childTx.inputs, j.prevOutput ≠ i.prevOutput
    decide
  have hfresh : parentTx.txid Sha256.sha256 ∉ smallPool.transactions := by
    intro hin
    obtain ⟨e, he⟩ := (mem_iff_lookup _ _).mp hin
    have hsame := (hlookup _ e he).1
    rw [parentTx_txid, childTx_txid] at hsame
    exact absurd hsame (by decide)
  have hconflicts := conflicts_of_free (callAt 0) hfree
  have hevict : allEvict (callAt 0) parentTx smallPool.transactions = [] := by
    rw [allEvict, hconflicts]
    rfl
  have hreplace : replacement (callAt 0) parentTx 1000 smallPool.transactions =
      .ok (allEvict (callAt 0) parentTx smallPool.transactions) := by
    simp [replacement, hconflicts, hevict]
  have hsmall : smallPool.transactions.keys.card < maxDescendants := by
    have hcard := card_keys_insert_le (∅ : Pool) (childTx.txid Sha256.sha256) (newEntry (callAt 0) childTx 1000 ∅)
    change ((∅ : Pool).insert _ _).keys.card < 25
    simp only [Finmap.keys_empty, Finset.card_empty] at hcard
    omega
  have hcurrent : smallPool.currentSize = 80 := by
    change min (0 + txSize childTx) (2 ^ 64 - 1) = 80
    omega
  have hmax : smallPool.maxSize = 80 := rfl
  have hsome : smallPool.transactions ≠ ∅ := by
    intro hempty
    have hin : smallPool.transactions.lookup (childTx.txid Sha256.sha256) =
        some (newEntry (callAt 0) childTx 1000 ∅) := by
      change ((∅ : Pool).insert _ _).lookup _ = _
      rw [lookup_insert_eq, if_pos rfl]
    rw [hempty, Finmap.lookup_empty] at hin
    cases hin
  refine ⟨⟨relayPolicy_ok (by omega), hfresh, hreplace⟩, .inr ⟨hsome, ?_⟩⟩
  rw [replacedPool_of_nothing hevict, TooLarge]
  exact ⟨chainLimits_of_small hsmall, by omega, by omega, by omega⟩

end States

end KuberCoin.PoolRejections
