import KuberCoin.Mempools

/-!
What every operation of the pool preserves: the size counter is the sum of the sizes
and within the limit, an entry is stored under its own txid with its own size, and no
two entries spend one output. An insertion is a removal of replaced entries, a removal
of cheap entries and, if both leave enough room, one new entry.
-/
namespace KuberCoin.PoolAccounting

open Bytes Maps Transactions Blocks UtxoSets Validator Worklists Mempools Mempool

section Removal

variable {m : Mempool}

theorem lookup_removeTransaction (txid a : Bytes32) : (m.removeTransaction txid).1.transactions.lookup a =
      if a = txid then none else m.transactions.lookup a := by
  unfold removeTransaction
  cases h : m.transactions.lookup txid with
  | none =>
    by_cases ha : a = txid
    · rw [if_pos ha, ha]
      exact h
    · rw [if_neg ha]
  | some entry => exact lookup_erase_eq _ _ _

theorem maxSize_removeTransaction (txid : Bytes32) : (m.removeTransaction txid).1.maxSize = m.maxSize := by
  unfold removeTransaction
  cases m.transactions.lookup txid <;> rfl

theorem lookup_removeAll (txids : List Bytes32) (a : Bytes32) : (m.removeAll txids).transactions.lookup a =
      if a ∈ txids then none else m.transactions.lookup a := by
  induction txids generalizing m with
  | nil => simp [removeAll]
  | cons txid txids ih =>
    change (removeAll (m.removeTransaction txid).1 txids).transactions.lookup a = _
    rw [ih, lookup_removeTransaction]
    by_cases hrest : a ∈ txids <;> by_cases ha : a = txid <;> simp [hrest, ha]

theorem lookup_of_removeAll {txids : List Bytes32} {a : Bytes32} {e : MempoolEntry}
    (h : (m.removeAll txids).transactions.lookup a = some e) : a ∉ txids ∧ m.transactions.lookup a = some e := by
  rw [lookup_removeAll] at h
  by_cases ha : a ∈ txids
  · simp [ha] at h
  · exact ⟨ha, by simpa only [ha, if_false] using h⟩

theorem maxSize_removeAll (txids : List Bytes32) : (m.removeAll txids).maxSize = m.maxSize := by
  induction txids generalizing m with
  | nil => rfl
  | cons txid txids ih =>
    change (removeAll (m.removeTransaction txid).1 txids).maxSize = _
    rw [ih, maxSize_removeTransaction]

end Removal

/-- The counter and the keys of a pool are right, and its entries are free of conflicts. -/
structure Accounted (sha256 : Sha256) (m : Mempool) : Prop where
  size_eq : m.currentSize = total MempoolEntry.size m.transactions
  bounded : m.currentSize ≤ m.maxSize
  keyed : ∀ txid e, m.transactions.lookup txid = some e → e.tx.txid sha256 = txid
  sized : ∀ txid e, m.transactions.lookup txid = some e → e.size = txSize e.tx
  conflictFree : ∀ txid e txid' e', m.transactions.lookup txid = some e →
    m.transactions.lookup txid' = some e' → txid ≠ txid' →
    ∀ i ∈ e.tx.inputs, ∀ j ∈ e'.tx.inputs, i.prevOutput ≠ j.prevOutput

section Preservation

variable {rates : FeeRates} {call : Call} {sha256 : Sha256} {m : Mempool} {e : MempoolEntry}

theorem accounted_empty (maxSize : ℕ) : Accounted sha256 ⟨∅, maxSize, 0⟩ where
  size_eq := rfl
  bounded := Nat.zero_le maxSize
  keyed _ _ h := by simp at h
  sized _ _ h := by simp at h
  conflictFree _ _ _ _ h := by simp at h

theorem Accounted.size_removed (h : Accounted sha256 m) {txid : Bytes32} (he : m.transactions.lookup txid = some e) :
    (m.removeTransaction txid).1.currentSize + e.size = m.currentSize := by
  have htotal := total_erase MempoolEntry.size m.transactions txid e he
  have heq := h.size_eq
  unfold removeTransaction
  rw [he]
  simp only
  omega

theorem Accounted.removeTransaction (h : Accounted sha256 m) (txid : Bytes32) :
    Accounted sha256 (m.removeTransaction txid).1 := by
  cases he : m.transactions.lookup txid with
  | none =>
    unfold Mempool.removeTransaction
    rw [he]
    exact h
  | some e =>
    have hsize := h.size_removed he
    have hold : ∀ a e', (m.removeTransaction txid).1.transactions.lookup a = some e' →
        m.transactions.lookup a = some e' := by
      intro a e' ha
      rw [lookup_removeTransaction] at ha
      by_cases hne : a = txid
      · simp [hne] at ha
      · simpa only [hne, if_false] using ha
    constructor
    · have htotal := total_erase MempoolEntry.size m.transactions txid e he
      have heq := h.size_eq
      have hpool : (m.removeTransaction txid).1.transactions = m.transactions.erase txid := by
        unfold Mempool.removeTransaction
        rw [he]
      rw [hpool]
      omega
    · rw [maxSize_removeTransaction]
      have := h.bounded
      omega
    · exact fun a e' ha => h.keyed a e' (hold a e' ha)
    · exact fun a e' ha => h.sized a e' (hold a e' ha)
    · exact fun a e' b f ha hb => h.conflictFree a e' b f (hold a e' ha) (hold b f hb)

theorem Accounted.removeAll (h : Accounted sha256 m) (txids : List Bytes32) : Accounted sha256 (m.removeAll txids) := by
  induction txids generalizing m with
  | nil => exact h
  | cons txid txids ih => exact ih (h.removeTransaction txid)

theorem mem_lowestFeerate {pool : Pool} (h : lowestFeerate rates call pool = some e) :
    ∃ txid, pool.lookup txid = some e := by
  have hmem := List.argmin_mem h
  obtain ⟨⟨txid, e'⟩, hkv, rfl⟩ := List.mem_map.mp (List.mem_filter.mp hmem).1
  exact ⟨txid, (call.lists pool).mem txid e' |>.mp hkv⟩

theorem Accounted.victim (h : Accounted sha256 m) (he : lowestFeerate rates call m.transactions = some e) :
    m.transactions.lookup (e.tx.txid sha256) = some e := by
  obtain ⟨txid, hlook⟩ := mem_lowestFeerate he
  rw [h.keyed txid e hlook]
  exact hlook

/-- What the eviction loop leaves: a part of the pool, with the requested room if it succeeds. -/
theorem Accounted.evictLoop (h : Accounted sha256 m) (rates : FeeRates) (call : Call) (needed fuel freed : ℕ) :
    Accounted sha256 (Mempool.evictLoop rates call sha256 needed fuel freed m).1 ∧
      (Mempool.evictLoop rates call sha256 needed fuel freed m).1.maxSize = m.maxSize ∧
      (∀ a e, (Mempool.evictLoop rates call sha256 needed fuel freed m).1.transactions.lookup a =
        some e → m.transactions.lookup a = some e) ∧
      ((Mempool.evictLoop rates call sha256 needed fuel freed m).2 = true →
        (Mempool.evictLoop rates call sha256 needed fuel freed m).1.currentSize + needed ≤
          m.currentSize + freed) := by
  induction fuel generalizing freed m with
  | zero =>
    refine ⟨h, rfl, fun a e ha => ha, ?_⟩
    intro hok
    have hle : needed ≤ freed := by simpa [Mempool.evictLoop] using hok
    exact Nat.add_le_add_left hle _
  | succ fuel ih =>
    rw [Mempool.evictLoop]
    by_cases hfreed : freed < needed
    · rw [if_pos hfreed]
      cases he : lowestFeerate rates call m.transactions with
      | none => exact ⟨h, rfl, fun a e ha => ha, fun hok => by simp at hok⟩
      | some e =>
        obtain ⟨hacc, hmax, hsub, hroom⟩ := ih (h.removeTransaction (e.tx.txid sha256)) (freed + e.size)
        have hsize := h.size_removed (h.victim he)
        refine ⟨hacc, hmax.trans (maxSize_removeTransaction _), ?_, ?_⟩
        · intro a e' ha
          have hmid := hsub a e' ha
          rw [lookup_removeTransaction] at hmid
          by_cases hne : a = e.tx.txid sha256
          · simp [hne] at hmid
          · simpa only [hne, if_false] using hmid
        · intro hok
          refine le_trans (hroom hok) ?_
          omega
    · rw [if_neg hfreed]
      refine ⟨h, rfl, fun a e ha => ha, fun _ => ?_⟩
      simp only
      omega

end Preservation

section Insertion

variable {rates : FeeRates} {call : Call} {sha256 : Sha256} {m : Mempool} {tx : Transaction}
  {fee : UInt64} {pool : Pool} {txid : Bytes32} {e entry : MempoolEntry}

/-- The pool in which the new entry finds room: the pool itself, or what eviction leaves. -/
inductive Room (rates : FeeRates) (call : Call) (sha256 : Sha256) (m : Mempool) (size : ℕ) :
    Mempool → Prop where
  | free (hfits : m.currentSize + size ≤ m.maxSize) : Room rates call sha256 m size m
  | evicted (hfull : m.maxSize < m.currentSize + size)
      (hok : (evictLowestFeerate rates call sha256 m size).2 = true) :
      Room rates call sha256 m size (evictLowestFeerate rates call sha256 m size).1

/-- The pool without the entries that `tx` replaces. -/
def replacedPool (call : Call) (m : Mempool) (tx : Transaction) : Mempool :=
  m.removeAll (allEvict call tx m.transactions)

/-- The checks an insertion passes before it makes room. -/
structure Admitted (call : Call) (sha256 : Sha256) (m : Mempool) (tx : Transaction) (fee : UInt64) :
    Prop where
  fresh : tx.txid sha256 ∉ m.transactions
  replaces : replacement call tx fee m.transactions = .ok (allEvict call tx m.transactions)
  limits : chainLimits call tx (replacedPool call m tx).transactions = .ok ()

/-- What an insertion can do to the pool. -/
inductive AddOutcome (rates : FeeRates) (call : Call) (sha256 : Sha256) (m : Mempool)
    (tx : Transaction) (fee : UInt64) : Mempool → Prop where
  | unchanged : AddOutcome rates call sha256 m tx fee m
  | replaced : AddOutcome rates call sha256 m tx fee (replacedPool call m tx)
  | full (hadmitted : Admitted call sha256 m tx fee)
      (hfull : (replacedPool call m tx).maxSize < (replacedPool call m tx).currentSize + txSize tx)
      (hfail : (evictLowestFeerate rates call sha256 (replacedPool call m tx) (txSize tx)).2 = false) :
      AddOutcome rates call sha256 m tx fee
        (evictLowestFeerate rates call sha256 (replacedPool call m tx) (txSize tx)).1
  | added (hadmitted : Admitted call sha256 m tx fee)
      (hbound : (replacedPool call m tx).currentSize + txSize tx < 2 ^ 64) {roomy : Mempool}
      (hroom : Room rates call sha256 (replacedPool call m tx) (txSize tx) roomy) :
      AddOutcome rates call sha256 m tx fee (roomy.insertEntry (tx.txid sha256)
        (newEntry call tx fee (replacedPool call m tx).transactions))

theorem replacement_eq_ok {evicted : List Bytes32} (h : replacement call tx fee pool = .ok evicted) :
    evicted = allEvict call tx pool := by
  unfold replacement at h
  simp only at h
  split at h
  · cases h
  · split at h
    · cases h
    · split at h
      · cases h
      · cases h
        rfl

theorem addTransactionUnchecked_outcome :
    AddOutcome rates call sha256 m tx fee (m.addTransactionUnchecked rates call sha256 tx fee).1 := by
  unfold addTransactionUnchecked
  by_cases hfresh : tx.txid sha256 ∈ m.transactions
  · rw [if_pos hfresh]
    exact .unchanged
  · rw [if_neg hfresh]
    cases hrep : replacement call tx fee m.transactions with
    | error e => exact .unchanged
    | ok evicted =>
      obtain rfl := replacement_eq_ok hrep
      have hpool : m.removeAll (allEvict call tx m.transactions) = replacedPool call m tx := rfl
      simp only [hpool]
      cases hlimits : chainLimits call tx (replacedPool call m tx).transactions with
      | error e => exact .replaced
      | ok _ =>
        have hadmitted : Admitted call sha256 m tx fee := ⟨hfresh, hrep, hlimits⟩
        simp only [makeRoom]
        by_cases hbound : 2 ^ 64 ≤ (replacedPool call m tx).currentSize + txSize tx
        · simp only [hbound, if_true]
          exact .replaced
        · simp only [hbound, if_false]
          by_cases hfull : (replacedPool call m tx).maxSize <
              (replacedPool call m tx).currentSize + txSize tx
          · simp only [hfull, if_true]
            cases hev : (evictLowestFeerate rates call sha256 (replacedPool call m tx)
                (txSize tx)).2 with
            | false => exact .full hadmitted hfull hev
            | true => exact .added hadmitted (not_le.mp hbound) (.evicted hfull hev)
          · simp only [hfull, if_false]
            exact .added hadmitted (not_le.mp hbound) (.free (not_lt.mp hfull))

theorem mem_conflicts : txid ∈ conflicts call tx pool ↔ ∃ e, pool.lookup txid = some e ∧
      ∃ i ∈ tx.inputs, ∃ j ∈ e.tx.inputs, j.prevOutput = i.prevOutput := by
  unfold conflicts
  simp only [List.mem_flatMap, List.mem_map, List.mem_filter, List.any_eq_true, beq_iff_eq]
  constructor
  · rintro ⟨i, hi, ⟨txid', e⟩, ⟨hkv, j, hj, hij⟩, rfl⟩
    exact ⟨e, ((call.lists pool).mem _ e).mp hkv, i, hi, j, hj, hij⟩
  · rintro ⟨e, he, i, hi, j, hj, hij⟩
    exact ⟨i, hi, (txid, e), ⟨((call.lists pool).mem _ e).mpr he, j, hj, hij⟩, rfl⟩

theorem allEvict_eq_markFrom : allEvict call tx pool =
      markFrom (children call pool) (1 + pool.keys.card) (conflicts call tx pool) [] :=
  rfl

theorem replaced_no_conflict (h : (replacedPool call m tx).transactions.lookup txid = some e) :
    ∀ i ∈ tx.inputs, ∀ j ∈ e.tx.inputs, j.prevOutput ≠ i.prevOutput := by
  obtain ⟨hnot, hold⟩ := lookup_of_removeAll h
  intro i hi j hj hij
  apply hnot
  rw [allEvict_eq_markFrom]
  exact roots_subset_markFrom _ _ _ (mem_conflicts.mpr ⟨e, hold, i, hi, j, hj, hij⟩)

theorem lookup_of_insertEntry {a : Bytes32} (h : (m.insertEntry txid entry).transactions.lookup a = some e) :
    (a = txid ∧ e = entry) ∨ (a ≠ txid ∧ m.transactions.lookup a = some e) := by
  change (m.transactions.insert txid entry).lookup a = some e at h
  rw [lookup_insert_eq] at h
  by_cases hne : a = txid
  · rw [if_pos hne] at h
    exact Or.inl ⟨hne, (Option.some.inj h).symm⟩
  · rw [if_neg hne] at h
    exact Or.inr ⟨hne, h⟩

theorem Accounted.insertEntry (h : Accounted sha256 m) (hfresh : m.transactions.lookup (tx.txid sha256) = none)
    (htx : entry.tx = tx) (hsize : entry.size = txSize tx) (hfits : m.currentSize + txSize tx ≤ m.maxSize)
    (hbound : m.currentSize + txSize tx < 2 ^ 64) (hfree : ∀ txid e, m.transactions.lookup txid = some e →
      ∀ i ∈ tx.inputs, ∀ j ∈ e.tx.inputs, j.prevOutput ≠ i.prevOutput) :
    Accounted sha256 (m.insertEntry (tx.txid sha256) entry) := by
  have hcount : (m.insertEntry (tx.txid sha256) entry).currentSize = m.currentSize + txSize tx := by
    change min (m.currentSize + entry.size) (2 ^ 64 - 1) = _
    omega
  constructor
  · have htotal := total_insert MempoolEntry.size m.transactions (tx.txid sha256) entry hfresh
    have heq := h.size_eq
    change _ = total MempoolEntry.size (m.transactions.insert (tx.txid sha256) entry)
    omega
  · rw [hcount]
    exact hfits
  · intro a e ha
    rcases lookup_of_insertEntry ha with ⟨rfl, rfl⟩ | ⟨-, ha⟩
    · rw [htx]
    · exact h.keyed a e ha
  · intro a e ha
    rcases lookup_of_insertEntry ha with ⟨rfl, rfl⟩ | ⟨-, ha⟩
    · rw [htx, hsize]
    · exact h.sized a e ha
  · intro a e b f ha hb hne i hi j hj
    rcases lookup_of_insertEntry ha with ⟨rfl, rfl⟩ | ⟨-, hold⟩
    · rcases lookup_of_insertEntry hb with ⟨rfl, rfl⟩ | ⟨-, hold'⟩
      · exact absurd rfl hne
      · exact (hfree b f hold' i (htx ▸ hi) j hj).symm
    · rcases lookup_of_insertEntry hb with ⟨rfl, rfl⟩ | ⟨-, hold'⟩
      · exact hfree a e hold j (htx ▸ hj) i hi
      · exact h.conflictFree a e b f hold hold' hne i hi j hj

theorem Room.accounted {size : ℕ} {roomy : Mempool} (h : Accounted sha256 m)
    (hroom : Room rates call sha256 m size roomy) : Accounted sha256 roomy ∧ roomy.currentSize + size ≤ roomy.maxSize ∧
      roomy.currentSize ≤ m.currentSize ∧
      ∀ a e, roomy.transactions.lookup a = some e → m.transactions.lookup a = some e := by
  cases hroom with
  | free hfits => exact ⟨h, hfits, le_rfl, fun a e ha => ha⟩
  | evicted hfull hok =>
    obtain ⟨hacc, hmax, hsub, hleft⟩ := h.evictLoop rates call size (m.transactions.keys.card + 1) 0
    have hle : (evictLowestFeerate rates call sha256 m size).1.currentSize + size ≤ m.currentSize :=
      hleft hok
    have hbound := h.bounded
    refine ⟨hacc, ?_, by omega, hsub⟩
    rw [show (evictLowestFeerate rates call sha256 m size).1.maxSize = m.maxSize from hmax]
    omega

theorem AddOutcome.accounted {m' : Mempool} (h : Accounted sha256 m)
    (houtcome : AddOutcome rates call sha256 m tx fee m') : Accounted sha256 m' := by
  cases houtcome with
  | unchanged => exact h
  | replaced => exact h.removeAll _
  | full hadmitted hfull hfail => exact ((h.removeAll _).evictLoop _ _ _ _ _).1
  | added hadmitted hbound hroom =>
    have hreplaced : Accounted sha256 (replacedPool call m tx) := h.removeAll _
    obtain ⟨hacc, hfits, hle, hsub⟩ := hroom.accounted hreplaced
    refine hacc.insertEntry ?_ rfl rfl hfits (by omega) ?_
    · cases hlook : Finmap.lookup (tx.txid sha256) _ with
      | none => rfl
      | some e =>
        obtain ⟨-, hold⟩ := lookup_of_removeAll (hsub _ e hlook)
        exact absurd ((mem_iff_lookup _ _).mpr ⟨e, hold⟩) hadmitted.fresh
    · exact fun a e ha => replaced_no_conflict (hsub a e ha)

end Insertion

section Runs

variable {rates : FeeRates} {sha256 : Sha256} {m : Mempool}

/-- Insertions one after another, each on the pool the one before it has left. -/
inductive Tried (rates : FeeRates) (sha256 : Sha256) (m : Mempool) : List Attempt → Mempool → Prop where
  | nil : Tried rates sha256 m [] m
  | snoc {tried : List Attempt} {a : Attempt} (h : Tried rates sha256 m tried a.pool) :
      Tried rates sha256 m (tried ++ [a]) (a.after rates sha256)

theorem Tried.accounted {tried : List Attempt} {m' : Mempool} (h : Tried rates sha256 m tried m')
    (hm : Accounted sha256 m) : Accounted sha256 m' := by
  induction h with
  | nil => exact hm
  | snoc _ ih => exact addTransactionUnchecked_outcome.accounted ih

section Package

variable (calls : ℕ → Call) {s : PackageState}

theorem tryAdd_tried (h : Tried rates sha256 m s.tried s.pool) (tx : Transaction) :
    Tried rates sha256 m (s.tryAdd rates calls sha256 tx).1.tried
      (s.tryAdd rates calls sha256 tx).1.pool :=
  .snoc (a := ⟨calls s.tried.length, s.pool, tx, 0⟩) h

theorem addStaged_tried (h : Tried rates sha256 m s.tried s.pool) :
    Tried rates sha256 m (s.addStaged rates calls sha256).tried
      (s.addStaged rates calls sha256).pool := by
  unfold PackageState.addStaged
  generalize s.staged = staged
  induction staged generalizing s with
  | nil => exact h
  | cons tx staged ih => exact ih (tryAdd_tried calls h tx)

theorem round_tried (h : Tried rates sha256 m s.tried s.pool) (tx : Transaction) :
    Tried rates sha256 m (s.round rates calls sha256 tx).tried
      (s.round rates calls sha256 tx).pool := by
  unfold PackageState.round
  by_cases hin : tx.txid sha256 ∈ s.pool.transactions
  · rw [if_pos hin]
    exact h
  · rw [if_neg hin]
    have hfirst := tryAdd_tried calls h tx
    revert hfirst
    rcases s.tryAdd rates calls sha256 tx with ⟨s₁, _ | _⟩
    · intro hfirst
      have hsecond := tryAdd_tried calls (addStaged_tried calls hfirst) tx
      revert hsecond
      simp only
      rcases (s₁.addStaged rates calls sha256).tryAdd rates calls sha256 tx with ⟨s₂, _ | _⟩
      · exact fun hsecond => hsecond
      · exact fun hsecond => hsecond
    · exact fun hfirst => hfirst

theorem packageRun_tried (txs : List Transaction) : Tried rates sha256 m (packageRun rates calls sha256 m txs).tried
      (packageRun rates calls sha256 m txs).pool := by
  have hloop : ∀ s : PackageState, Tried rates sha256 m s.tried s.pool →
      Tried rates sha256 m (txs.foldl (PackageState.round rates calls sha256) s).tried
        (txs.foldl (PackageState.round rates calls sha256) s).pool := by
    induction txs with
    | nil => exact fun s h => h
    | cons tx txs ih => exact fun s h => ih _ (round_tried calls h tx)
  unfold packageRun
  split
  · exact .nil
  · exact addStaged_tried calls (hloop _ .nil)

end Package

theorem loadRun_tried (calls : ℕ → Call) (decode : List UInt8 → Option Transaction)
    (entries : List (List UInt8 × UInt64)) : Tried rates sha256 m (loadRun rates calls sha256 decode m entries).tried
      (loadRun rates calls sha256 decode m entries).pool := by
  have hrecord : ∀ (s : LoadState) (entry : List UInt8 × UInt64),
      Tried rates sha256 m s.tried s.pool →
      Tried rates sha256 m (s.record rates calls sha256 decode entry).tried
        (s.record rates calls sha256 decode entry).pool := by
    intro s entry h
    unfold LoadState.record
    cases decode entry.1 with
    | none => exact h
    | some tx =>
      simp only
      cases relayPolicy rates tx entry.2 with
      | error e => exact h
      | ok _ => exact .snoc (a := ⟨calls s.tried.length, s.pool, tx, entry.2⟩) h
  have hloop : ∀ s : LoadState, Tried rates sha256 m s.tried s.pool →
      Tried rates sha256 m (entries.foldl (LoadState.record rates calls sha256 decode) s).tried
        (entries.foldl (LoadState.record rates calls sha256 decode) s).pool := by
    induction entries with
    | nil => exact fun s h => h
    | cons entry entries ih => exact fun s h => ih _ (hrecord s entry h)
  exact hloop _ .nil

theorem lookup_setSigopCost (txid a : Bytes32) (cost : ℕ) : (m.setSigopCost txid cost).transactions.lookup a =
      if a = txid then (m.transactions.lookup a).map fun e => { e with sigopCost := cost }
      else m.transactions.lookup a := by
  unfold setSigopCost
  cases h : m.transactions.lookup txid with
  | none =>
    by_cases ha : a = txid
    · rw [if_pos ha, ha, h]
      rfl
    · rw [if_neg ha]
  | some entry =>
    change (m.transactions.insert txid _).lookup a = _
    rw [lookup_insert_eq]
    by_cases ha : a = txid
    · rw [if_pos ha, if_pos ha, ha, h]
      rfl
    · rw [if_neg ha, if_neg ha]

theorem lookup_of_setSigopCost {txid a : Bytes32} {cost : ℕ} {e : MempoolEntry}
    (h : (m.setSigopCost txid cost).transactions.lookup a = some e) :
    ∃ e₀, m.transactions.lookup a = some e₀ ∧ e = { e₀ with sigopCost := e.sigopCost } := by
  rw [lookup_setSigopCost] at h
  by_cases ha : a = txid
  · rw [if_pos ha, Option.map_eq_some_iff] at h
    obtain ⟨e₀, he₀, rfl⟩ := h
    exact ⟨e₀, he₀, rfl⟩
  · rw [if_neg ha] at h
    exact ⟨e, h, rfl⟩

theorem total_setSigopCost (txid : Bytes32) (cost : ℕ) :
    total MempoolEntry.size (m.setSigopCost txid cost).transactions =
      total MempoolEntry.size m.transactions := by
  unfold setSigopCost
  cases h : m.transactions.lookup txid with
  | none => rfl
  | some entry =>
    have hins := total_insert MempoolEntry.size (m.transactions.erase txid) txid
      { entry with sigopCost := cost } (Finmap.lookup_erase txid _)
    have herase := total_erase MempoolEntry.size m.transactions txid entry h
    have hsame : (m.transactions.erase txid).insert txid { entry with sigopCost := cost } =
        m.transactions.insert txid { entry with sigopCost := cost } := by
      apply Finmap.ext_lookup
      intro a
      rw [lookup_insert_eq, lookup_insert_eq, lookup_erase_eq]
      by_cases ha : a = txid
      · rw [if_pos ha, if_pos ha]
      · rw [if_neg ha, if_neg ha, if_neg ha]
    rw [hsame] at hins
    change total MempoolEntry.size (m.transactions.insert txid _) = _
    rw [hins]
    simp only
    omega

theorem Accounted.setSigopCost (h : Accounted sha256 m) (txid : Bytes32) (cost : ℕ) :
    Accounted sha256 (m.setSigopCost txid cost) := by
  have hcounter : (m.setSigopCost txid cost).currentSize = m.currentSize ∧
      (m.setSigopCost txid cost).maxSize = m.maxSize := by
    unfold Mempool.setSigopCost
    cases m.transactions.lookup txid <;> exact ⟨rfl, rfl⟩
  constructor
  · rw [hcounter.1, total_setSigopCost]
    exact h.size_eq
  · rw [hcounter.1, hcounter.2]
    exact h.bounded
  · intro a e ha
    obtain ⟨e₀, he₀, heq⟩ := lookup_of_setSigopCost ha
    rw [heq]
    exact h.keyed a e₀ he₀
  · intro a e ha
    obtain ⟨e₀, he₀, heq⟩ := lookup_of_setSigopCost ha
    rw [heq]
    exact h.sized a e₀ he₀
  · intro a e b f ha hb
    obtain ⟨e₀, he₀, heq⟩ := lookup_of_setSigopCost ha
    obtain ⟨f₀, hf₀, hfeq⟩ := lookup_of_setSigopCost hb
    rw [heq, hfeq]
    exact h.conflictFree a e₀ b f₀ he₀ hf₀

theorem apply_of_adds (rates : FeeRates) {op : Op} (h : op.adds = true) :
    ∃ m', Tried rates sha256 m (op.attempts rates sha256 m) m' ∧
      (op.apply rates sha256 m = m' ∨
        ∃ txid cost, op.apply rates sha256 m = m'.setSigopCost txid cost) := by
  cases op with
  | addTransactionWithFee call tx fee =>
    simp only [Op.attempts, Op.apply, addTransactionWithFee]
    cases relayPolicy rates tx fee with
    | error e => exact ⟨m, .nil, Or.inl rfl⟩
    | ok _ => exact ⟨_, .snoc (a := ⟨call, m, tx, fee⟩) .nil, Or.inl rfl⟩
  | addTransactionChecked call tx fee u =>
    simp only [Op.attempts, Op.apply, addTransactionChecked, addTransactionWithFee]
    by_cases hcost : maxStandardTxSigopsCost < txSigopCost tx u
    · simp only [hcost, if_true]
      exact ⟨m, .nil, Or.inl rfl⟩
    · simp only [hcost, if_false]
      cases relayPolicy rates tx fee with
      | error e => exact ⟨m, .nil, Or.inl rfl⟩
      | ok _ =>
        refine ⟨_, .snoc (a := ⟨call, m, tx, fee⟩) .nil, ?_⟩
        unfold Attempt.after
        simp only
        rcases m.addTransactionUnchecked rates call sha256 tx fee with ⟨m', _ | _⟩
        · exact Or.inl rfl
        · exact Or.inr ⟨_, _, rfl⟩
  | addPackage calls txs => exact ⟨_, packageRun_tried calls txs, Or.inl rfl⟩
  | load calls decode file =>
    cases file with
    | error e => exact ⟨m, .nil, Or.inl rfl⟩
    | ok entries => exact ⟨_, loadRun_tried calls decode entries, Or.inl rfl⟩
  | removeTransaction txid => cases h
  | removeBlockTransactions call b => cases h
  | expireOldEntries call => cases h
  | clear => cases h

theorem maxSize_setSigopCost (txid : Bytes32) (cost : ℕ) : (m.setSigopCost txid cost).maxSize = m.maxSize := by
  unfold setSigopCost
  cases m.transactions.lookup txid <;> rfl

theorem AddOutcome.maxSize_eq {call : Call} {tx : Transaction} {fee : UInt64} {m' : Mempool} (h : Accounted sha256 m)
    (houtcome : AddOutcome rates call sha256 m tx fee m') : m'.maxSize = m.maxSize := by
  have hreplaced : (replacedPool call m tx).maxSize = m.maxSize := maxSize_removeAll _
  have hevict := fun fuel => ((h.removeAll (allEvict call tx m.transactions)).evictLoop rates call
    (txSize tx) fuel 0).2.1
  cases houtcome with
  | unchanged => rfl
  | replaced => exact hreplaced
  | full hadmitted hfull hfail => exact (hevict _).trans hreplaced
  | added hadmitted hbound hroom =>
    cases hroom with
    | free hfits => exact hreplaced
    | evicted hfull hok => exact (hevict _).trans hreplaced

theorem maxSize_apply (h : Accounted sha256 m) (op : Op) : (op.apply rates sha256 m).maxSize = m.maxSize := by
  by_cases hadds : op.adds = true
  · have htried : ∀ {tried : List Attempt} {m' : Mempool}, Tried rates sha256 m tried m' →
        m'.maxSize = m.maxSize := by
      intro tried m' htried
      induction htried with
      | nil => rfl
      | snoc hbefore ih =>
        exact (addTransactionUnchecked_outcome.maxSize_eq (hbefore.accounted h)).trans ih
    obtain ⟨m', hm', heq | ⟨txid, cost, heq⟩⟩ := apply_of_adds rates hadds
    · rw [heq]
      exact htried hm'
    · rw [heq, maxSize_setSigopCost]
      exact htried hm'
  · cases op with
    | removeTransaction txid => exact maxSize_removeTransaction txid
    | removeBlockTransactions call b => exact maxSize_removeAll _
    | expireOldEntries call => exact maxSize_removeAll _
    | clear => rfl
    | _ => exact absurd rfl hadds

theorem Accounted.apply (h : Accounted sha256 m) (op : Op) : Accounted sha256 (op.apply rates sha256 m) := by
  by_cases hadds : op.adds = true
  · obtain ⟨m', htried, heq | ⟨txid, cost, heq⟩⟩ := apply_of_adds rates hadds
    · rw [heq]
      exact htried.accounted h
    · rw [heq]
      exact (htried.accounted h).setSigopCost txid cost
  · cases op with
    | removeTransaction txid => exact h.removeTransaction txid
    | removeBlockTransactions call b => exact h.removeAll _
    | expireOldEntries call => exact h.removeAll _
    | clear => exact accounted_empty m.maxSize
    | _ => exact absurd rfl hadds

theorem accounted_run (rates : FeeRates) (sha256 : Sha256) (maxSize : ℕ) (ops : List Op) :
    Accounted sha256 (run rates sha256 maxSize ops) ∧
      (run rates sha256 maxSize ops).maxSize = maxSize := by
  have hfold : ∀ m, Accounted sha256 m → m.maxSize = maxSize →
      Accounted sha256 (ops.foldl (fun m op => op.apply rates sha256 m) m) ∧
        (ops.foldl (fun m op => op.apply rates sha256 m) m).maxSize = maxSize := by
    induction ops with
    | nil => exact fun m h hmax => ⟨h, hmax⟩
    | cons op ops ih => exact fun m h hmax => ih _ (h.apply op) ((maxSize_apply h op).trans hmax)
  exact hfold _ (accounted_empty maxSize) rfl

/-- In every state a pool can reach, the size counter is the sum of the sizes and within the
limit, every entry is stored under its own txid, and no two entries spend one output. -/
theorem run_accounted (rates : FeeRates) (sha256 : Sha256) (maxSize : ℕ) (ops : List Op) :
    let m := run rates sha256 maxSize ops
    m.currentSize = total MempoolEntry.size m.transactions ∧ m.currentSize ≤ maxSize ∧
      (∀ txid e, m.transactions.lookup txid = some e → e.tx.txid sha256 = txid) ∧
      ∀ txid e txid' e', m.transactions.lookup txid = some e →
        m.transactions.lookup txid' = some e' → txid ≠ txid' →
        ∀ i ∈ e.tx.inputs, ∀ j ∈ e'.tx.inputs, i.prevOutput ≠ j.prevOutput := by
  obtain ⟨h, hmax⟩ := accounted_run rates sha256 maxSize ops
  have hbounded := h.bounded
  rw [hmax] at hbounded
  exact ⟨h.size_eq, hbounded, h.keyed, h.conflictFree⟩

end Runs

end KuberCoin.PoolAccounting
