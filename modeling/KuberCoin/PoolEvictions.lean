import KuberCoin.PoolAccounting
import KuberCoin.Sha256
import Mathlib.Algebra.Order.Ring.Rat

/-!
Which entries leave a pool. Replacement takes the conflicting entries with all their
descendants. Capacity eviction takes the cheapest entries: one whose cheaper entries
already amount to the requested bytes stays, and one goes whose not dearer entries
fall short of them. From this, when no entry stays behind that spends an output of one
that has left.
-/
namespace KuberCoin.PoolEvictions

open Bytes Maps Transactions Blocks UtxoSets Worklists Mempools Mempool PoolAccounting

theorem txSize_pos (tx : Transaction) : 0 < txSize tx := by
  simp only [txSize, Sighashes.bincodeTransaction, List.length_append, leBytes_length]
  omega

section Cheapest

variable (rates : FeeRates) {pool : Pool} {txid : Bytes32} {e q : MempoolEntry}

/-- The bytes of the entries with a lower fee rate than `e`. -/
def cheaperBytes (pool : Pool) (e : MempoolEntry) : ℕ :=
  total (fun q => if rates.rate q.fee q.size < rates.rate e.fee e.size then q.size else 0) pool

/-- The bytes of the entries whose fee rate is not higher than that of `e`. -/
def notDearerBytes (pool : Pool) (e : MempoolEntry) : ℕ :=
  total (fun q => if rates.rate q.fee q.size ≤ rates.rate e.fee e.size then q.size else 0) pool

variable {rates} {call : Call} {sha256 : Sha256} {m : Mempool}

theorem mem_evictable (call : Call) (hq : pool.lookup txid = some q) (hsize : 0 < q.size) :
    q ∈ ((call.iter pool).map Prod.snd).filter fun e => 0 < e.size := by
  refine List.mem_filter.mpr ⟨List.mem_map.mpr ⟨(txid, q), ?_, rfl⟩, by simpa using hsize⟩
  exact ((call.lists pool).mem txid q).mpr hq

theorem size_pos (h : Accounted sha256 m) (he : m.transactions.lookup txid = some e) : 0 < e.size := by
  rw [h.sized txid e he]
  exact txSize_pos e.tx

theorem lowestFeerate_le (he : lowestFeerate rates call pool = some e) (hq : pool.lookup txid = some q)
    (hsize : 0 < q.size) : rates.rate e.fee e.size ≤ rates.rate q.fee q.size := by
  exact List.le_of_mem_argmin (mem_evictable call hq hsize) he

theorem lookup_victim_removed (h : Accounted sha256 m) (he : lowestFeerate rates call m.transactions = some e)
    (hq : m.transactions.lookup txid = some q) :
    q = e ∨ (m.removeTransaction (e.tx.txid sha256)).1.transactions.lookup txid = some q := by
  rw [lookup_removeTransaction]
  by_cases hid : txid = e.tx.txid sha256
  · have hvictim := h.victim he
    rw [← hid, hq] at hvictim
    exact Or.inl (Option.some.inj hvictim)
  · exact Or.inr (by rw [if_neg hid]; exact hq)

theorem transactions_victim_removed (h : Accounted sha256 m) (he : lowestFeerate rates call m.transactions = some e) :
    (m.removeTransaction (e.tx.txid sha256)).1.transactions =
      m.transactions.erase (e.tx.txid sha256) := by
  have hvictim := h.victim he
  unfold removeTransaction
  rw [hvictim]

theorem cheaperBytes_of_evicted (needed fuel freed : ℕ) (h : Accounted sha256 m)
    (he : m.transactions.lookup txid = some e)
    (hgone : (evictLoop rates call sha256 needed fuel freed m).1.transactions.lookup txid = none) :
    cheaperBytes rates m.transactions e + freed < needed := by
  induction fuel generalizing freed m with
  | zero =>
    change m.transactions.lookup txid = none at hgone
    rw [he] at hgone
    cases hgone
  | succ fuel ih =>
    rw [evictLoop] at hgone
    by_cases hfreed : freed < needed
    · rw [if_pos hfreed] at hgone
      cases hv : lowestFeerate rates call m.transactions with
      | none =>
        rw [hv] at hgone
        change m.transactions.lookup txid = none at hgone
        rw [he] at hgone
        cases hgone
      | some v =>
        rw [hv] at hgone
        rcases lookup_victim_removed h hv he with rfl | hkept
        · -- nothing is cheaper than the victim
          have hzero : cheaperBytes rates m.transactions e = 0 := by
            apply total_eq_zero
            intro k q hq
            exact if_neg (not_lt.mpr (lowestFeerate_le hv hq (size_pos h hq)))
          omega
        · have hrest := ih (freed + v.size) (h.removeTransaction _) hkept hgone
          have hsplit : cheaperBytes rates (m.removeTransaction (v.tx.txid sha256)).1.transactions e +
              (if rates.rate v.fee v.size < rates.rate e.fee e.size then v.size else 0) =
              cheaperBytes rates m.transactions e := by
            rw [transactions_victim_removed h hv]
            exact total_erase _ _ _ v (h.victim hv)
          have hle : (if rates.rate v.fee v.size < rates.rate e.fee e.size then v.size else 0) ≤
              v.size := by
            split <;> omega
          omega
    · rw [if_neg hfreed] at hgone
      change m.transactions.lookup txid = none at hgone
      rw [he] at hgone
      cases hgone

/-- An entry stays after a successful eviction only if the not dearer ones make enough room
without it. -/
theorem notDearerBytes_of_kept (needed fuel freed : ℕ) (h : Accounted sha256 m)
    (hkept : (evictLoop rates call sha256 needed fuel freed m).1.transactions.lookup txid = some e)
    (hok : (evictLoop rates call sha256 needed fuel freed m).2 = true) :
    needed + e.size ≤ notDearerBytes rates m.transactions e + freed := by
  have hself : ∀ {m : Mempool}, m.transactions.lookup txid = some e →
      e.size ≤ notDearerBytes rates m.transactions e := by
    intro m he
    have hle : (if rates.rate e.fee e.size ≤ rates.rate e.fee e.size then e.size else 0) ≤
        notDearerBytes rates m.transactions e :=
      le_total (fun q => if rates.rate q.fee q.size ≤ rates.rate e.fee e.size then q.size else 0)
        m.transactions txid e he
    rwa [if_pos le_rfl] at hle
  induction fuel generalizing freed m with
  | zero =>
    have hle : needed ≤ freed := by simpa [evictLoop] using hok
    have := hself (m := m) hkept
    omega
  | succ fuel ih =>
    rw [evictLoop] at hkept hok
    by_cases hfreed : freed < needed
    · rw [if_pos hfreed] at hkept hok
      cases hv : lowestFeerate rates call m.transactions with
      | none =>
        rw [hv] at hok
        cases hok
      | some v =>
        rw [hv] at hkept hok
        have hrest := ih (freed + v.size) (h.removeTransaction _) hkept hok
        obtain ⟨-, -, hsub, -⟩ := (h.removeTransaction (v.tx.txid sha256)).evictLoop rates call
          needed fuel (freed + v.size)
        have hmid := hsub txid e hkept
        rw [lookup_removeTransaction] at hmid
        have hold : m.transactions.lookup txid = some e := by
          by_cases hid : txid = v.tx.txid sha256
          · simp [hid] at hmid
          · simpa only [hid, if_false] using hmid
        have hsplit : notDearerBytes rates (m.removeTransaction (v.tx.txid sha256)).1.transactions e +
            (if rates.rate v.fee v.size ≤ rates.rate e.fee e.size then v.size else 0) =
            notDearerBytes rates m.transactions e := by
          rw [transactions_victim_removed h hv]
          exact total_erase _ _ _ v (h.victim hv)
        rw [if_pos (lowestFeerate_le hv hold (size_pos h hold))] at hsplit
        omega
    · rw [if_neg hfreed] at hkept
      have := hself (m := m) hkept
      omega

/-- The loop gives up only when nothing is left. -/
theorem empty_of_evict_fails (needed fuel freed : ℕ) (h : Accounted sha256 m) (hfuel : m.transactions.keys.card < fuel)
    (hfail : (evictLoop rates call sha256 needed fuel freed m).2 = false) (txid : Bytes32) :
    (evictLoop rates call sha256 needed fuel freed m).1.transactions.lookup txid = none := by
  induction fuel generalizing freed m with
  | zero => omega
  | succ fuel ih =>
    rw [evictLoop] at hfail ⊢
    by_cases hfreed : freed < needed
    · rw [if_pos hfreed] at hfail ⊢
      cases hv : lowestFeerate rates call m.transactions with
      | none =>
        cases hq : m.transactions.lookup txid with
        | none => rfl
        | some q =>
          have hmem := mem_evictable call hq (size_pos h hq)
          rw [List.argmin_eq_none.mp hv] at hmem
          cases hmem
      | some v =>
        rw [hv] at hfail
        refine ih (freed + v.size) (h.removeTransaction _) ?_ hfail
        rw [transactions_victim_removed h hv]
        have hcard := card_keys_erase_lt m.transactions (v.tx.txid sha256)
          ((mem_iff_lookup _ _).mpr ⟨v, h.victim hv⟩)
        omega
    · rw [if_neg hfreed] at hfail
      cases hfail

end Cheapest

section Replacement

variable {call : Call} {m : Mempool} {tx : Transaction} {pool : Pool} {txid : Bytes32} {e : MempoolEntry}

/-- The entries a transaction replaces: those that spend what it spends, and their descendants. -/
inductive Replaced (pool : Pool) (tx : Transaction) : Bytes32 → Prop where
  | conflict {txid : Bytes32} {e : MempoolEntry} (he : pool.lookup txid = some e) {i j : TxInput}
      (hi : i ∈ tx.inputs) (hj : j ∈ e.tx.inputs) (hij : j.prevOutput = i.prevOutput) :
      Replaced pool tx txid
  | child {p txid : Bytes32} {e : MempoolEntry} (hp : Replaced pool tx p)
      (he : pool.lookup txid = some e) (hspends : e.spends p = true) : Replaced pool tx txid

theorem mem_children {p : Bytes32} :
    txid ∈ children call pool p ↔ ∃ e, pool.lookup txid = some e ∧ e.spends p = true := by
  unfold children
  simp only [List.mem_map, List.mem_filter]
  constructor
  · rintro ⟨⟨txid', e⟩, ⟨hkv, hspends⟩, rfl⟩
    exact ⟨e, ((call.lists pool).mem _ e).mp hkv, hspends⟩
  · rintro ⟨e, he, hspends⟩
    exact ⟨(txid, e), ⟨((call.lists pool).mem _ e).mpr he, hspends⟩, rfl⟩

theorem children_known (p txid : Bytes32) (h : txid ∈ children call pool p) : txid ∈ pool.keys := by
  obtain ⟨e, he, -⟩ := mem_children.mp h
  exact Finmap.mem_keys.mpr ((mem_iff_lookup _ _).mpr ⟨e, he⟩)

theorem mem_allEvict : txid ∈ allEvict call tx pool ↔ Replaced pool tx txid := by
  rw [allEvict_eq_markFrom]
  constructor
  · intro h
    have hfound := markFrom_induction (motive := Replaced pool tx) (1 + pool.keys.card)
      (fun x hx => by
        obtain ⟨e, he, i, hi, j, hj, hij⟩ := mem_conflicts.mp hx
        exact .conflict he hi hj hij)
      (fun x hx y hy _ => by
        obtain ⟨e, he, hspends⟩ := mem_children.mp hy
        exact .child hx he hspends) txid h
    exact hfound.resolve_left (by simp)
  · intro h
    induction h with
    | conflict he hi hj hij =>
      exact roots_subset_markFrom _ _ _ (mem_conflicts.mpr ⟨_, he, _, hi, _, hj, hij⟩)
    | child _ he hspends ih =>
      exact markFrom_closed children_known le_rfl _ ih (by simp) _ (mem_children.mpr ⟨_, he, hspends⟩)

theorem lookup_of_replacedPool (h : (replacedPool call m tx).transactions.lookup txid = some e) :
    ¬ Replaced m.transactions tx txid ∧ m.transactions.lookup txid = some e := by
  obtain ⟨hnot, hold⟩ := lookup_of_removeAll h
  exact ⟨fun hr => hnot (mem_allEvict.mpr hr), hold⟩

theorem lookup_replacedPool (call : Call) (h : m.transactions.lookup txid = some e)
    (hkept : ¬ Replaced m.transactions tx txid) : (replacedPool call m tx).transactions.lookup txid = some e := by
  unfold replacedPool
  rw [lookup_removeAll, if_neg (fun hr => hkept (mem_allEvict.mp hr))]
  exact h

end Replacement

section Children

variable {rates : FeeRates} {sha256 : Sha256} {m : Mempool} {call : Call} {tx : Transaction} {c p : Bytes32}
  {e f : MempoolEntry} {a : Attempt} {m' : Mempool}

/-- No entry of `m'` spends an output of an entry of `m` that has left. -/
def NoDangling (m m' : Mempool) : Prop :=
  ∀ p ∈ m.transactions, p ∉ m'.transactions → ∀ c f, m'.transactions.lookup c = some f →
    f.spends p = false

/-- Making room for `size` bytes separates no entry from one that spends it: the spent entry
is dear enough to stay or the spending one cheap enough to go. -/
def RoomSafe (rates : FeeRates) (m : Mempool) (tx : Transaction) : Prop :=
  m.currentSize + txSize tx ≤ m.maxSize ∨
    (∀ p e c f, m.transactions.lookup p = some e → m.transactions.lookup c = some f →
      f.spends p = true → txSize tx ≤ cheaperBytes rates m.transactions e ∨
        notDearerBytes rates m.transactions f < txSize tx + f.size) ∧
    ∀ p e, m.transactions.lookup p = some e → (∃ i ∈ tx.inputs, i.prevOutput.txid = p) →
      txSize tx ≤ cheaperBytes rates m.transactions e

/-- An insertion that gets as far as making room spends no entry that it replaces, and the
room is made at the expense of no spent entry. -/
structure SafeAttempt (rates : FeeRates) (sha256 : Sha256) (a : Attempt) : Prop where
  parents : Admitted a.call sha256 a.pool a.tx a.fee →
    ∀ i ∈ a.tx.inputs, ¬ Replaced a.pool.transactions a.tx i.prevOutput.txid
  room : Admitted a.call sha256 a.pool a.tx a.fee →
    RoomSafe rates (replacedPool a.call a.pool a.tx) a.tx

/-- What leaves when room is made safely: no entry that stays spends it, nor does the
transaction the room is for. -/
theorem room_noDangling {roomy : Mempool} (h : Accounted sha256 m) (hsafe : RoomSafe rates m tx)
    (hroom : Room rates call sha256 m (txSize tx) roomy) (hp : m.transactions.lookup p = some e)
    (hgone : roomy.transactions.lookup p = none) : (∀ c f, roomy.transactions.lookup c = some f → f.spends p = false) ∧
      ¬ ∃ i ∈ tx.inputs, i.prevOutput.txid = p := by
  cases hroom with
  | free hfits =>
    rw [hp] at hgone
    cases hgone
  | evicted hfull hok =>
    obtain ⟨-, -, hsub, -⟩ := h.evictLoop rates call (txSize tx) (m.transactions.keys.card + 1) 0
    have hcheap := cheaperBytes_of_evicted _ _ _ h hp hgone
    rcases hsafe with hfits | ⟨hpairs, hinputs⟩
    · omega
    · constructor
      · intro c f hc
        by_contra hspends
        rw [Bool.not_eq_false] at hspends
        have hdear := notDearerBytes_of_kept _ _ _ h hc hok
        rcases hpairs p e c f hp (hsub c f hc) hspends with hstays | hgoes <;> omega
      · intro hin
        have := hinputs p e hp hin
        omega

theorem spends_iff (htx : e.tx = tx) : e.spends p = true ↔ ∃ i ∈ tx.inputs, i.prevOutput.txid = p := by
  unfold MempoolEntry.spends
  rw [htx]
  simp only [List.any_eq_true, beq_iff_eq]

theorem spends_replaced (hp : Replaced m.transactions tx p)
    (hc : (replacedPool call m tx).transactions.lookup c = some f) : f.spends p = false := by
  obtain ⟨hnot, hold⟩ := lookup_of_replacedPool hc
  by_contra hspends
  exact hnot (.child hp hold (by simpa using hspends))

theorem SafeAttempt.noDangling (h : Accounted sha256 a.pool) (hsafe : SafeAttempt rates sha256 a) :
    NoDangling a.pool (a.after rates sha256) := by
  have houtcome : AddOutcome rates a.call sha256 a.pool a.tx a.fee (a.after rates sha256) :=
    addTransactionUnchecked_outcome
  have hreplaced : Accounted sha256 (replacedPool a.call a.pool a.tx) := h.removeAll _
  generalize a.after rates sha256 = m' at houtcome
  intro p hp hgone c f hc
  obtain ⟨e, he⟩ := (mem_iff_lookup _ _).mp hp
  by_cases hrep : Replaced a.pool.transactions a.tx p
  · cases houtcome with
    | unchanged => exact absurd hp hgone
    | replaced => exact spends_replaced hrep hc
    | full hadmitted hfull hfail =>
      obtain ⟨-, -, hsub, -⟩ := hreplaced.evictLoop rates a.call (txSize a.tx) _ 0
      exact spends_replaced hrep (hsub c f hc)
    | added hadmitted hbound hroom =>
      obtain ⟨-, -, -, hsub⟩ := hroom.accounted hreplaced
      rcases lookup_of_insertEntry hc with ⟨-, rfl⟩ | ⟨-, hc⟩
      · by_contra hspends
        rw [Bool.not_eq_false, spends_iff rfl] at hspends
        obtain ⟨i, hi, rfl⟩ := hspends
        exact hsafe.parents hadmitted i hi hrep
      · exact spends_replaced hrep (hsub c f hc)
  · have hp' := lookup_replacedPool a.call he hrep
    cases houtcome with
    | unchanged => exact absurd hp hgone
    | replaced => exact absurd ((mem_iff_lookup _ _).mpr ⟨e, hp'⟩) hgone
    | full hadmitted hfull hfail =>
      have hempty := empty_of_evict_fails _ _ _ hreplaced (Nat.lt_succ_self _) hfail c
      change (evictLoop _ _ _ _ _ _ _).1.transactions.lookup c = some f at hc
      rw [hempty] at hc
      cases hc
    | added hadmitted hbound hroom =>
      have hleft : p ∉ _ := fun hin => hgone (Finmap.mem_insert.mpr (Or.inr hin))
      obtain ⟨hothers, hinput⟩ := room_noDangling hreplaced (hsafe.room hadmitted) hroom hp'
        (Finmap.lookup_eq_none.mpr hleft)
      rcases lookup_of_insertEntry hc with ⟨-, rfl⟩ | ⟨-, hc⟩
      · by_contra hspends
        rw [Bool.not_eq_false, spends_iff rfl] at hspends
        exact hinput hspends
      · exact hothers c f hc

theorem lookup_of_after (h : Accounted sha256 a.pool) (hc : (a.after rates sha256).transactions.lookup c = some f) :
    a.pool.transactions.lookup c = some f ∨ f.tx = a.tx := by
  have houtcome : AddOutcome rates a.call sha256 a.pool a.tx a.fee (a.after rates sha256) :=
    addTransactionUnchecked_outcome
  have hreplaced : Accounted sha256 (replacedPool a.call a.pool a.tx) := h.removeAll _
  generalize a.after rates sha256 = m' at houtcome hc
  cases houtcome with
  | unchanged => exact Or.inl hc
  | replaced => exact Or.inl (lookup_of_replacedPool hc).2
  | full hadmitted hfull hfail =>
    obtain ⟨-, -, hsub, -⟩ := hreplaced.evictLoop rates a.call (txSize a.tx) _ 0
    exact Or.inl (lookup_of_replacedPool (hsub c f hc)).2
  | added hadmitted hbound hroom =>
    obtain ⟨-, -, -, hsub⟩ := hroom.accounted hreplaced
    rcases lookup_of_insertEntry hc with ⟨-, rfl⟩ | ⟨-, hc⟩
    · exact Or.inr rfl
    · exact Or.inl (lookup_of_replacedPool (hsub c f hc)).2

theorem noDangling_of_tried {tried : List Attempt} (h : Tried rates sha256 m tried m') (hm : Accounted sha256 m)
    (hsafe : ∀ a ∈ tried, SafeAttempt rates sha256 a ∧
      ∀ i ∈ a.tx.inputs, i.prevOutput.txid ∈ m.transactions →
        i.prevOutput.txid ∈ a.pool.transactions) : NoDangling m m' := by
  induction h with
  | nil => exact fun p hp hgone => absurd hp hgone
  | @snoc tried a h ih =>
    obtain ⟨hstep, hinputs⟩ := hsafe a (by simp)
    have hbefore := ih fun b hb => hsafe b (List.mem_append_left [a] hb)
    have hacc := h.accounted hm
    intro p hp hgone c f hc
    by_cases hmid : p ∈ a.pool.transactions
    · exact hstep.noDangling hacc p hmid hgone c f hc
    · rcases lookup_of_after hacc hc with hold | hnew
      · exact hbefore p hp hmid c f hold
      · by_contra hspends
        rw [Bool.not_eq_false, spends_iff hnew] at hspends
        obtain ⟨i, hi, rfl⟩ := hspends
        exact hmid (hinputs i hi hp)

theorem noDangling_removeAll {txids : List Bytes32}
    (h : ∀ p e c f, m.transactions.lookup p = some e → m.transactions.lookup c = some f →
      f.spends p = true → p ∈ txids → c ∈ txids) : NoDangling m (m.removeAll txids) := by
  intro p hp hgone c f hc
  obtain ⟨e, he⟩ := (mem_iff_lookup _ _).mp hp
  obtain ⟨hstays, hold⟩ := lookup_of_removeAll hc
  by_contra hspends
  rw [Bool.not_eq_false] at hspends
  by_cases hin : p ∈ txids
  · exact hstays (h p e c f he hold hspends hin)
  · apply hgone
    rw [mem_iff_lookup, lookup_removeAll, if_neg hin]
    exact ⟨e, he⟩

theorem noDangling_setSigopCost (h : NoDangling m m') (txid : Bytes32) (cost : ℕ) :
    NoDangling m (m'.setSigopCost txid cost) := by
  intro p hp hgone c f hc
  obtain ⟨f₀, hf₀, heq⟩ := lookup_of_setSigopCost hc
  have hleft : p ∉ m'.transactions := by
    intro hin
    obtain ⟨e, he⟩ := (mem_iff_lookup _ _).mp hin
    apply hgone
    rw [mem_iff_lookup, lookup_setSigopCost, he]
    by_cases hid : p = txid
    · exact ⟨_, by rw [if_pos hid]; rfl⟩
    · exact ⟨e, by rw [if_neg hid]⟩
  have hspends := h p hp hleft c f₀ hf₀
  rw [heq]
  exact hspends

/-- The condition on an operation. An explicit removal and the confirmation of a block are
not meant. -/
def SafeOp (rates : FeeRates) (sha256 : Sha256) (m : Mempool) : Op → Prop
  | .removeTransaction _ => False
  | .removeBlockTransactions _ _ => False
  | .clear => True
  | .expireOldEntries call =>
      ∀ p e c f, m.transactions.lookup p = some e → m.transactions.lookup c = some f →
        f.spends p = true → e.addedTime < saturatingSub call.now mempoolExpirySecs →
        f.addedTime < saturatingSub call.now mempoolExpirySecs
  | op =>
      ∀ a ∈ op.attempts rates sha256 m, SafeAttempt rates sha256 a ∧
        ∀ i ∈ a.tx.inputs, i.prevOutput.txid ∈ m.transactions →
          i.prevOutput.txid ∈ a.pool.transactions

theorem mem_expired {txid : Bytes32} : txid ∈ expired call m ↔ ∃ e, m.transactions.lookup txid = some e ∧
      e.addedTime < saturatingSub call.now mempoolExpirySecs := by
  unfold expired
  simp only [List.mem_map, List.mem_filter, decide_eq_true_eq]
  constructor
  · rintro ⟨⟨txid', e⟩, ⟨hkv, hold⟩, rfl⟩
    exact ⟨e, ((call.lists _).mem _ e).mp hkv, hold⟩
  · rintro ⟨e, he, hold⟩
    exact ⟨(txid, e), ⟨((call.lists _).mem _ e).mpr he, hold⟩, rfl⟩

theorem noDangling_of_adds {op : Op} (hadds : op.adds = true) (hm : Accounted sha256 m)
    (h : ∀ a ∈ op.attempts rates sha256 m, SafeAttempt rates sha256 a ∧
      ∀ i ∈ a.tx.inputs, i.prevOutput.txid ∈ m.transactions →
        i.prevOutput.txid ∈ a.pool.transactions) : NoDangling m (op.apply rates sha256 m) := by
  obtain ⟨m', htried, heq | ⟨txid, cost, heq⟩⟩ := apply_of_adds rates hadds
  · rw [heq]
    exact noDangling_of_tried htried hm h
  · rw [heq]
    exact noDangling_setSigopCost (noDangling_of_tried htried hm h) txid cost

/-- From every reachable pool, an operation that meets the condition leaves no entry behind
that spends an output of an entry it has driven out. -/
theorem run_no_dangling (maxSize : ℕ) (ops : List Op) (op : Op)
    (h : SafeOp rates sha256 (run rates sha256 maxSize ops) op) : NoDangling (run rates sha256 maxSize ops)
      (op.apply rates sha256 (run rates sha256 maxSize ops)) := by
  have hm := (accounted_run rates sha256 maxSize ops).1
  cases op with
  | removeTransaction txid => exact h.elim
  | removeBlockTransactions call b => exact h.elim
  | clear =>
    intro p hp hgone c f hc
    change (∅ : Pool).lookup c = some f at hc
    simp at hc
  | expireOldEntries call =>
    refine noDangling_removeAll fun p e c f he hf hspends hin => ?_
    obtain ⟨e', he', hold⟩ := mem_expired.mp hin
    rw [he] at he'
    cases he'
    exact mem_expired.mpr ⟨f, hf, h p e c f he hf hspends hold⟩
  | addTransactionWithFee call tx fee => exact noDangling_of_adds rfl hm h
  | addTransactionChecked call tx fee u => exact noDangling_of_adds rfl hm h
  | addPackage calls txs => exact noDangling_of_adds rfl hm h
  | load calls decode file => exact noDangling_of_adds rfl hm h

end Children

section PlainInsertions

variable {rates : FeeRates} {call : Call} {sha256 : Sha256} {m : Mempool} {tx : Transaction}
  {fee : UInt64}

theorem parents_ne_none {pool : Pool} {txid : Bytes32} : parents pool txid ≠ none ↔ txid ∈ pool := by
  unfold parents
  rw [mem_iff_lookup]
  cases pool.lookup txid <;> simp

theorem countAncestors_le (pool : Pool) (tx : Transaction) : countAncestors pool tx ≤ pool.keys.card := by
  have hnodup : (visitedAncestors pool tx).Nodup := nodup_explore _ _ _ (by simp)
  rw [countAncestors, ← List.toFinset_card_of_nodup hnodup]
  refine Finset.card_le_card fun txid hmem => ?_
  rcases reached_of_mem_explore (List.mem_toFinset.mp hmem) with hnil | ⟨hin, -⟩
  · cases hnil
  · exact Finmap.mem_keys.mpr (parents_ne_none.mp hin)

theorem countDescendants_le (call : Call) (pool : Pool) (txid : Bytes32) :
    countDescendants call pool txid ≤ pool.keys.card := by
  have hsub : ∀ (fuel : ℕ) (c : Bytes32),
      c ∈ explore (fun x => some (children call pool x)) fuel [txid] [] → c ∈ insert txid pool.keys := by
    intro fuel c hmem
    rcases reached_of_mem_explore hmem with hnil | ⟨-, x, hx, hpath⟩
    · cases hnil
    · rw [List.mem_singleton.mp hx] at hpath
      rcases Relation.ReflTransGen.cases_tail hpath with rfl | ⟨p, -, succs, hsuccs, hc⟩
      · exact Finset.mem_insert_self _ _
      · cases hsuccs
        exact Finset.mem_insert_of_mem (children_known p c hc)
  unfold countDescendants
  generalize 1 + (pool.keys.card + 1) * pool.keys.card = fuel
  have hnodup : (explore (fun x => some (children call pool x)) fuel [txid] []).Nodup :=
    nodup_explore _ _ _ (by simp)
  have hcard := Finset.card_le_card (fun c hc => hsub fuel c (List.mem_toFinset.mp hc))
  rw [List.toFinset_card_of_nodup hnodup] at hcard
  have := Finset.card_insert_le txid pool.keys
  omega

theorem chainLimits_of_small {pool : Pool} (hsmall : pool.keys.card < maxDescendants) :
    chainLimits call tx pool = .ok () := by
  have hdesc : ∀ inputs : List TxInput, descendantLimits call pool inputs = .ok () := by
    intro inputs
    induction inputs with
    | nil => rfl
    | cons i inputs ih =>
      have hle := countDescendants_le call pool i.prevOutput.txid
      rw [descendantLimits, if_neg (by omega)]
      exact ih
  have hle := countAncestors_le pool tx
  have hlimit : maxDescendants = maxAncestors := rfl
  rw [chainLimits, if_neg (by omega)]
  exact hdesc _

theorem conflicts_of_free (call : Call) (hfree : ∀ txid e, m.transactions.lookup txid = some e →
      ∀ i ∈ tx.inputs, ∀ j ∈ e.tx.inputs, j.prevOutput ≠ i.prevOutput) : conflicts call tx m.transactions = [] := by
  rw [List.eq_nil_iff_forall_not_mem]
  intro txid hmem
  obtain ⟨e, he, i, hi, j, hj, hij⟩ := mem_conflicts.mp hmem
  exact hfree txid e he i hi j hj hij

theorem addTransactionUnchecked_fits (hfresh : tx.txid sha256 ∉ m.transactions)
    (hfree : ∀ txid e, m.transactions.lookup txid = some e →
      ∀ i ∈ tx.inputs, ∀ j ∈ e.tx.inputs, j.prevOutput ≠ i.prevOutput)
    (hlimits : chainLimits call tx m.transactions = .ok ()) (hfits : m.currentSize + txSize tx ≤ m.maxSize)
    (hbound : m.currentSize + txSize tx < 2 ^ 64) : m.addTransactionUnchecked rates call sha256 tx fee =
      (m.insertEntry (tx.txid sha256) (newEntry call tx fee m.transactions), .ok ()) := by
  have hconflicts := conflicts_of_free call hfree
  have hevict : allEvict call tx m.transactions = [] := by
    rw [allEvict, hconflicts]
    rfl
  have hreplace : replacement call tx fee m.transactions = .ok [] := by
    simp [replacement, hconflicts, hevict]
  have hkeep : m.removeAll [] = m := rfl
  have hroom : makeRoom rates call sha256 m (txSize tx) = (m, .ok ()) := by
    rw [makeRoom, if_neg (by omega), if_neg (by omega)]
  rw [addTransactionUnchecked, if_neg hfresh, hreplace]
  simp only [hkeep, hlimits, hroom]

theorem addTransactionUnchecked_plain (hfresh : tx.txid sha256 ∉ m.transactions)
    (hfree : ∀ txid e, m.transactions.lookup txid = some e →
      ∀ i ∈ tx.inputs, ∀ j ∈ e.tx.inputs, j.prevOutput ≠ i.prevOutput)
    (hsmall : m.transactions.keys.card < maxDescendants) (hfits : m.currentSize + txSize tx ≤ m.maxSize)
    (hbound : m.currentSize + txSize tx < 2 ^ 64) : m.addTransactionUnchecked rates call sha256 tx fee =
      (m.insertEntry (tx.txid sha256) (newEntry call tx fee m.transactions), .ok ()) :=
  addTransactionUnchecked_fits hfresh hfree (chainLimits_of_small hsmall) hfits hbound

end PlainInsertions

section Expiry

variable {first tx : Transaction} {m : Mempool}

/-- Fee rates as exact quotients. -/
def exactRates : FeeRates where
  Rate := ℚ
  order := inferInstance
  rate fee size := fee.toNat / size
  minRelayFeeRate := 1
  format r := toString r

theorem bytes32_rank_injective : Function.Injective fun b : Bytes32 => value b.bytes := by
  intro a b h
  exact Bytes32.ext_bytes (value_injective (a.length_eq.trans b.length_eq.symm) h)

/-- A call at a given time that reads the map in the order of the keys. -/
def callAt (now : UInt64) : Call where
  now := now
  iter pool := sortedBindings _ bytes32_rank_injective pool
  lists pool := lists_sortedBindings _ bytes32_rank_injective pool

def inputOf (o : OutPoint) : TxInput := ⟨o, [], 0xffffffff, Witness.empty⟩

def parentTx : Transaction := ⟨2, [inputOf ⟨Bytes32.zero, 0⟩], [⟨1000, []⟩], 0⟩

def parentTxid : Bytes32 :=
  ⟨[98, 66, 227, 7, 115, 57, 233, 156, 35, 120, 146, 0, 21, 56, 58, 225, 94, 187, 15, 36, 186, 136,
    133, 136, 62, 90, 3, 247, 101, 223, 50, 150], rfl⟩

def childTx : Transaction := ⟨2, [inputOf ⟨parentTxid, 0⟩], [], 0⟩

def childTxid : Bytes32 :=
  ⟨[122, 197, 108, 21, 211, 253, 94, 79, 13, 247, 74, 21, 128, 213, 144, 83, 219, 217, 29, 211, 173,
    249, 109, 105, 211, 8, 160, 177, 36, 232, 235, 228], rfl⟩

theorem parentTx_txid : parentTx.txid Sha256.sha256 = parentTxid := by decide +kernel

theorem childTx_txid : childTx.txid Sha256.sha256 = childTxid := by decide +kernel

theorem relayPolicy_ok (hsize : txSize tx ≤ 1000) : relayPolicy exactRates tx 1000 = .ok () := by
  have hpos := txSize_pos tx
  have hrate : ¬ exactRates.rate 1000 (txSize tx) < exactRates.minRelayFeeRate := by
    change ¬ (((1000 : UInt64).toNat : ℚ) / (txSize tx : ℚ) < 1)
    have hpos' : (0 : ℚ) < txSize tx := by exact_mod_cast hpos
    have hsize' : (txSize tx : ℚ) ≤ 1000 := by exact_mod_cast hsize
    rw [not_lt, le_div_iff₀ hpos', one_mul]
    exact hsize'
  rw [relayPolicy, if_pos hpos, if_neg (by decide), if_neg hrate]

theorem apply_plain (call : Call) (hsmall : txSize tx ≤ 1000) (hfresh : tx.txid Sha256.sha256 ∉ m.transactions)
    (hfree : ∀ txid e, m.transactions.lookup txid = some e →
      ∀ i ∈ tx.inputs, ∀ j ∈ e.tx.inputs, j.prevOutput ≠ i.prevOutput)
    (hfew : m.transactions.keys.card < maxDescendants) (hsize : m.currentSize ≤ 2000) (hmax : m.maxSize = 100000) :
    (Op.addTransactionWithFee call tx 1000).apply exactRates Sha256.sha256 m =
      m.insertEntry (tx.txid Sha256.sha256) (newEntry call tx 1000 m.transactions) := by
  have hadd : m.addTransactionUnchecked exactRates call Sha256.sha256 tx 1000 = _ :=
    addTransactionUnchecked_plain hfresh hfree hfew (by omega) (by omega)
  simp only [Op.apply, addTransactionWithFee, relayPolicy_ok hsmall, hadd]

theorem apply_first (call : Call) (hfirst : txSize first ≤ 1000) :
    (Op.addTransactionWithFee call first 1000).apply exactRates Sha256.sha256 (Mempool.new 100000) =
      (Mempool.new 100000).insertEntry (first.txid Sha256.sha256) (newEntry call first 1000 ∅) := by
  apply apply_plain call hfirst
  · exact Finmap.notMem_empty
  · exact fun _ _ h => by simp [Mempool.new] at h
  · change (∅ : Pool).keys.card < 25
    simp
  · exact Nat.zero_le _
  · rfl

theorem not_mem_insertEntry {a txid : Bytes32} {e : MempoolEntry} (hne : a ≠ txid) (hnot : a ∉ m.transactions) :
    a ∉ (m.insertEntry txid e).transactions := by
  intro hin
  rcases Finmap.mem_insert.mp hin with heq | hin
  · exact hne heq
  · exact hnot hin

theorem insertEntry_size (m : Mempool) (txid : Bytes32) (e : MempoolEntry) :
    (m.insertEntry txid e).currentSize ≤ m.currentSize + e.size := by
  exact Nat.min_le_left _ _

theorem run_pair {second : Transaction} (call₁ call₂ : Call)
    (hids : second.txid Sha256.sha256 ≠ first.txid Sha256.sha256)
    (hfree : ∀ i ∈ second.inputs, ∀ j ∈ first.inputs, j.prevOutput ≠ i.prevOutput) (hfirst : txSize first ≤ 1000)
    (hsecond : txSize second ≤ 1000) : run exactRates Sha256.sha256 100000
        [.addTransactionWithFee call₁ first 1000, .addTransactionWithFee call₂ second 1000] =
      ((Mempool.new 100000).insertEntry (first.txid Sha256.sha256)
        (newEntry call₁ first 1000 ∅)).insertEntry (second.txid Sha256.sha256)
          (newEntry call₂ second 1000 ((∅ : Pool).insert (first.txid Sha256.sha256)
            (newEntry call₁ first 1000 ∅))) := by
  have hfold : run exactRates Sha256.sha256 100000
      [.addTransactionWithFee call₁ first 1000, .addTransactionWithFee call₂ second 1000] =
      (Op.addTransactionWithFee call₂ second 1000).apply exactRates Sha256.sha256
        ((Op.addTransactionWithFee call₁ first 1000).apply exactRates Sha256.sha256
          (Mempool.new 100000)) := rfl
  rw [hfold, apply_first call₁ hfirst]
  apply apply_plain call₂ hsecond
  · exact not_mem_insertEntry hids Finmap.notMem_empty
  · intro txid e he
    rcases lookup_of_insertEntry he with ⟨-, rfl⟩ | ⟨-, he⟩
    · exact hfree
    · simp [Mempool.new] at he
  · have hcard := card_keys_insert_le (∅ : Pool) (first.txid Sha256.sha256)
      (newEntry call₁ first 1000 ∅)
    change ((∅ : Pool).insert _ _).keys.card < 25
    simp only [Finmap.keys_empty, Finset.card_empty] at hcard
    omega
  · have hsize := insertEntry_size (Mempool.new 100000) (first.txid Sha256.sha256) (newEntry call₁ first 1000 ∅)
    change _ ≤ 0 + txSize first at hsize
    omega
  · rfl

def parentEntry (time : UInt64) : MempoolEntry := newEntry (callAt time) parentTx 1000 ∅

/-- The child of the parent above, added at another time. -/
def childEntry (parentTime childTime : UInt64) : MempoolEntry :=
  newEntry (callAt childTime) childTx 1000 ((∅ : Pool).insert parentTxid (parentEntry parentTime))

def family (parentTime childTime : UInt64) : Mempool :=
  run exactRates Sha256.sha256 100000
    [.addTransactionWithFee (callAt parentTime) parentTx 1000,
      .addTransactionWithFee (callAt childTime) childTx 1000]

theorem family_eq (parentTime childTime : UInt64) :
    family parentTime childTime = ((Mempool.new 100000).insertEntry parentTxid (parentEntry parentTime)).insertEntry
      childTxid (childEntry parentTime childTime) := by
  have hids : childTx.txid Sha256.sha256 ≠ parentTx.txid Sha256.sha256 := by
    rw [childTx_txid, parentTx_txid]
    decide
  rw [family, run_pair _ _ hids (by decide) (by decide) (by decide), childTx_txid, parentTx_txid]
  rfl

theorem family_lookup (parentTime childTime : UInt64) (a : Bytes32) :
    (family parentTime childTime).transactions.lookup a =
      if a = childTxid then some (childEntry parentTime childTime)
      else if a = parentTxid then some (parentEntry parentTime) else none := by
  rw [family_eq]
  change (Finmap.insert childTxid (childEntry parentTime childTime)
    ((∅ : Pool).insert parentTxid (parentEntry parentTime))).lookup a = _
  rw [lookup_insert_eq, lookup_insert_eq, Finmap.lookup_empty]

/-- A transaction that has nothing to do with the family. -/
def strangerTx : Transaction := ⟨2, [inputOf ⟨Bytes32.zero, 1⟩], [⟨1000, []⟩], 0⟩

def strangerTxid : Bytes32 :=
  ⟨[91, 21, 226, 130, 15, 8, 83, 120, 79, 226, 188, 231, 159, 106, 252, 36, 38, 37, 96, 71, 54, 86, 249,
    215, 120, 245, 176, 84, 36, 240, 4, 89], rfl⟩

theorem strangerTx_txid : strangerTx.txid Sha256.sha256 = strangerTxid := by decide +kernel

def strangerEntry : MempoolEntry := newEntry (callAt 1209600) strangerTx 1000 (family 0 0).transactions

/-- The family, and the stranger two weeks later. -/
def household : Mempool :=
  run exactRates Sha256.sha256 100000
    [.addTransactionWithFee (callAt 0) parentTx 1000, .addTransactionWithFee (callAt 0) childTx 1000,
      .addTransactionWithFee (callAt 1209600) strangerTx 1000]

theorem household_lookup (a : Bytes32) : household.transactions.lookup a =
      if a = strangerTxid then some strangerEntry
      else if a = childTxid then some (childEntry 0 0)
      else if a = parentTxid then some (parentEntry 0) else none := by
  have hfold : household = (Op.addTransactionWithFee (callAt 1209600) strangerTx 1000).apply exactRates
      Sha256.sha256 (family 0 0) := rfl
  rw [hfold, apply_plain (callAt 1209600) (by decide), strangerTx_txid, ← family_lookup]
  · exact lookup_insert_eq _ _ _ _
  · rw [mem_iff_lookup, family_lookup, strangerTx_txid, if_neg (by decide), if_neg (by decide)]
    simp
  · intro txid e he
    rw [family_lookup] at he
    split at he
    · cases he
      decide
    · split at he
      · cases he
        decide
      · cases he
  · rw [family_eq]
    decide +kernel
  · rw [family_eq]
    decide +kernel
  · rw [family_eq]
    rfl

/-- Both entries of the family are old enough: they expire together, and the stranger stays. -/
theorem family_expires_together : NoDangling household (household.expireOldEntries (callAt 1209601)) ∧
      ∀ a, (household.expireOldEntries (callAt 1209601)).transactions.lookup a =
        if a = strangerTxid then some strangerEntry else none := by
  have hold : ∀ a e, household.transactions.lookup a = some e →
      (e.addedTime < saturatingSub (1209601 : UInt64) mempoolExpirySecs ↔ a ≠ strangerTxid) := by
    intro a e he
    rw [household_lookup] at he
    by_cases hstranger : a = strangerTxid
    · rw [if_pos hstranger] at he
      cases he
      exact iff_of_false (by decide) (not_not_intro hstranger)
    · rw [if_neg hstranger] at he
      refine iff_of_true ?_ hstranger
      split at he
      · cases he
        decide
      · split at he
        · cases he
          decide
        · cases he
  constructor
  · refine run_no_dangling 100000 _ (.expireOldEntries (callAt 1209601)) ?_
    intro p e c f he hf hspends _
    refine (hold c f hf).mpr ?_
    rintro rfl
    -- the stranger spends nothing that is in the pool
    have hstranger : household.transactions.lookup strangerTxid = some f := hf
    rw [household_lookup, if_pos rfl] at hstranger
    cases hstranger
    obtain rfl : Bytes32.zero = p := by
      simpa [MempoolEntry.spends, strangerEntry, newEntry, strangerTx, inputOf] using hspends
    have hzero : household.transactions.lookup Bytes32.zero = some e := he
    rw [household_lookup, if_neg (by decide), if_neg (by decide), if_neg (by decide)] at hzero
    cases hzero
  · intro a
    rw [expireOldEntries, lookup_removeAll]
    cases hlookup : household.transactions.lookup a with
    | none =>
      rw [ite_self, if_neg]
      rintro rfl
      rw [household_lookup, if_pos rfl] at hlookup
      cases hlookup
    | some e =>
      by_cases hstranger : a = strangerTxid
      · have hkept : a ∉ expired (callAt 1209601) household := by
          intro hin
          obtain ⟨e', he', hage⟩ := mem_expired.mp hin
          exact (hold a e' he').mp hage hstranger
        rw [if_neg hkept, if_pos hstranger, ← hlookup, household_lookup, if_pos hstranger]
      · rw [if_pos (mem_expired.mpr ⟨e, hlookup, (hold a e hlookup).mpr hstranger⟩), if_neg hstranger]

/-- The parent is two weeks older than its child and expires alone. -/
theorem expired_parent_leaves_child :
    ¬ NoDangling (family 0 1209600) ((family 0 1209600).expireOldEntries (callAt 1209601)) := by
  intro h
  have hparent : (family 0 1209600).transactions.lookup parentTxid = some (parentEntry 0) := by
    rw [family_lookup, if_neg (by decide), if_pos rfl]
  have hchild : (family 0 1209600).transactions.lookup childTxid = some (childEntry 0 1209600) := by
    rw [family_lookup, if_pos rfl]
  have hexpired : parentTxid ∈ expired (callAt 1209601) (family 0 1209600) :=
    mem_expired.mpr ⟨_, hparent, by decide⟩
  have hkept : childTxid ∉ expired (callAt 1209601) (family 0 1209600) := by
    intro hin
    obtain ⟨e, he, hold⟩ := mem_expired.mp hin
    rw [hchild] at he
    cases he
    revert hold
    decide
  have hspends := h parentTxid ((mem_iff_lookup _ _).mpr ⟨_, hparent⟩)
    (by
      rw [mem_iff_lookup, expireOldEntries, lookup_removeAll, if_pos hexpired]
      simp)
    childTxid (childEntry 0 1209600) (by
      rw [expireOldEntries, lookup_removeAll, if_neg hkept]
      exact hchild)
  revert hspends
  decide

end Expiry

end KuberCoin.PoolEvictions
