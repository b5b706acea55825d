import KuberCoin.AddedNodes
import KuberCoin.AncestorPackages

/-!
The limits on ancestors and descendants in the pool. An insertion is checked for the ancestors
of the new transaction and for the descendants of its parents, in a pool whose entries are
otherwise left alone. It gives one more descendant to each ancestor, not only to the parents,
and where children came first it gives its ancestors and descendants to each other.
-/
namespace KuberCoin.ChainLimits

open Relation Bytes Maps Transactions Mempools Mempool PoolAccounting PoolEvictions AncestorPackages
  Worklists AddedNodes

section Relatives

/-- An entry of the pool spends an output of another one. -/
def Spends (pool : Pool) (c p : Bytes32) : Prop :=
  ∃ e, pool.lookup c = some e ∧ p ∈ pool ∧ ∃ i ∈ e.tx.inputs, i.prevOutput.txid = p

open Classical in
/-- The other entries that an entry spends from, directly or through others. -/
noncomputable def poolAncestors (pool : Pool) (x : Bytes32) : Finset Bytes32 :=
  pool.keys.filter fun a => a ≠ x ∧ TransGen (Spends pool) x a

open Classical in
/-- The other entries that spend from an entry, directly or through others. -/
noncomputable def poolDescendants (pool : Pool) (x : Bytes32) : Finset Bytes32 :=
  pool.keys.filter fun d => d ≠ x ∧ TransGen (Spends pool) d x

/-- No entry has too many ancestors or descendants in the pool. -/
structure WithinLimits (pool : Pool) : Prop where
  ancestors : ∀ x ∈ pool, (poolAncestors pool x).card ≤ maxAncestors
  descendants : ∀ x ∈ pool, (poolDescendants pool x).card ≤ maxDescendants

variable {pool pool' : Pool} {tx : Transaction} {x y a d : Bytes32}

theorem Spends.left (h : Spends pool x y) : x ∈ pool := by
  obtain ⟨e, he, _⟩ := h
  exact (mem_iff_lookup _ _).mpr ⟨e, he⟩

theorem Spends.right (h : Spends pool x y) : y ∈ pool := h.choose_spec.2.1

theorem transGen_left (h : TransGen (Spends pool) x y) : x ∈ pool := by
  obtain ⟨_, edge, _⟩ := TransGen.head'_iff.mp h
  exact edge.left

theorem transGen_right (h : TransGen (Spends pool) x y) : y ∈ pool := by
  obtain ⟨_, _, edge⟩ := TransGen.tail'_iff.mp h
  exact edge.right

theorem mem_poolAncestors : a ∈ poolAncestors pool x ↔ a ≠ x ∧ TransGen (Spends pool) x a := by
  simp only [poolAncestors, Finset.mem_filter, Finmap.mem_keys]
  exact ⟨And.right, fun h => ⟨transGen_right h.2, h⟩⟩

theorem mem_poolDescendants : d ∈ poolDescendants pool x ↔ d ≠ x ∧ TransGen (Spends pool) d x := by
  simp only [poolDescendants, Finset.mem_filter, Finmap.mem_keys]
  exact ⟨And.right, fun h => ⟨transGen_left h.2, h⟩⟩

theorem Spends.mono (sub : ∀ x e, pool.lookup x = some e → pool'.lookup x = some e) (h : Spends pool x y) :
    Spends pool' x y := by
  obtain ⟨e, he, hy, hi⟩ := h
  obtain ⟨f, hf⟩ := (mem_iff_lookup _ _).mp hy
  exact ⟨e, sub x e he, (mem_iff_lookup _ _).mpr ⟨f, sub y f hf⟩, hi⟩

theorem WithinLimits.mono (sub : ∀ x e, pool.lookup x = some e → pool'.lookup x = some e) (h : WithinLimits pool') :
    WithinLimits pool := by
  have chains {x y : Bytes32} : TransGen (Spends pool) x y → TransGen (Spends pool') x y :=
    TransGen.lift id (fun _ _ => Spends.mono sub) _ _
  have mem {x : Bytes32} (hx : x ∈ pool) : x ∈ pool' := by
    obtain ⟨e, he⟩ := (mem_iff_lookup _ _).mp hx
    exact (mem_iff_lookup _ _).mpr ⟨e, sub x e he⟩
  constructor
  · intro x hx
    refine (Finset.card_le_card fun a ha => ?_).trans (h.ancestors x (mem hx))
    rw [mem_poolAncestors] at ha ⊢
    exact ⟨ha.1, chains ha.2⟩
  · intro x hx
    refine (Finset.card_le_card fun d hd => ?_).trans (h.descendants x (mem hx))
    rw [mem_poolDescendants] at hd ⊢
    exact ⟨hd.1, chains hd.2⟩

end Relatives

section Insertion

open Classical in
/-- The entries that spend from a transaction which is not in the pool. -/
noncomputable def newDescendants (pool : Pool) (t : Bytes32) : Finset Bytes32 :=
  pool.keys.filter fun d => ∃ c e, pool.lookup c = some e ∧
    (∃ i ∈ e.tx.inputs, i.prevOutput.txid = t) ∧ ReflTransGen (Spends pool) d c

/-- There is room in a pool for one more transaction: each of its ancestors can take it and its
descendants as descendants, each of its descendants can take it and its ancestors as ancestors,
and its descendants are not too many themselves. -/
structure Fits (pool : Pool) (tx : Transaction) (t : Bytes32) : Prop where
  above : ∀ a ∈ ancestors pool tx,
    ((insert t (poolDescendants pool a ∪ newDescendants pool t)).erase a).card ≤ maxDescendants
  self : (newDescendants pool t).card ≤ maxDescendants
  below : ∀ d ∈ newDescendants pool t,
    ((insert t (poolAncestors pool d ∪ ancestors pool tx)).erase d).card ≤ maxAncestors

variable {pool : Pool} {tx : Transaction} {t : Bytes32} {entry : MempoolEntry} {x y d : Bytes32}

theorem spends_insert (fresh : t ∉ pool) (htx : entry.tx = tx) : Adds (Spends pool) (Spends (pool.insert t entry)) t
      (fun p => p ∈ pool ∧ ∃ i ∈ tx.inputs, i.prevOutput.txid = p)
      (fun c => ∃ e, pool.lookup c = some e ∧ ∃ i ∈ e.tx.inputs, i.prevOutput.txid = t) where
  old_left h := fun heq => fresh (heq ▸ h.left)
  old_right h := fun heq => fresh (heq ▸ h.right)
  old {x y} hx hy := by
    unfold Spends
    rw [lookup_insert_eq, if_neg hx, Finmap.mem_insert, or_iff_right hy]
  leaves {y} hy := by
    unfold Spends
    rw [lookup_insert_eq, if_pos rfl, Finmap.mem_insert, or_iff_right hy]
    constructor
    · rintro ⟨e, he, hspends⟩
      cases he
      rw [htx] at hspends
      exact hspends
    · intro hspends
      refine ⟨entry, rfl, ?_⟩
      rw [htx]
      exact hspends
  enters {x} hx := by
    unfold Spends
    rw [lookup_insert_eq, if_neg hx]
    constructor
    · rintro ⟨e, he, -, hspends⟩
      exact ⟨e, he, hspends⟩
    · rintro ⟨e, he, hspends⟩
      exact ⟨e, he, Finmap.mem_insert.mpr (Or.inl rfl), hspends⟩

theorem ancestor_iff (fresh : t ∉ pool) :
    Ancestor pool tx y ↔ ∃ p, p ≠ t ∧ (p ∈ pool ∧ ∃ i ∈ tx.inputs, i.prevOutput.txid = p) ∧
      ReflTransGen (Spends pool) p y := by
  constructor
  · intro h
    induction h with
    | parent hi hin => exact ⟨_, fun heq => fresh (heq ▸ hin), ⟨hin, _, hi, rfl⟩, .refl⟩
    | further hp he hj hin ih =>
      obtain ⟨p, hne, hparent, path⟩ := ih
      exact ⟨p, hne, hparent, path.tail ⟨_, he, hin, _, hj, rfl⟩⟩
  · rintro ⟨p, -, ⟨hin, i, hi, rfl⟩, path⟩
    induction path with
    | refl => exact .parent hi hin
    | tail _ edge ih =>
      obtain ⟨e, he, hmem, j, hj, rfl⟩ := edge
      exact .further ih he hj hmem

theorem mem_newDescendants (fresh : t ∉ pool) : d ∈ newDescendants pool t ↔ ∃ c, c ≠ t ∧
      (∃ e, pool.lookup c = some e ∧ ∃ i ∈ e.tx.inputs, i.prevOutput.txid = t) ∧
      ReflTransGen (Spends pool) d c := by
  simp only [newDescendants, Finset.mem_filter, Finmap.mem_keys]
  constructor
  · rintro ⟨-, c, e, he, hspends, path⟩
    exact ⟨c, fun heq => fresh (heq ▸ (mem_iff_lookup _ _).mpr ⟨e, he⟩), ⟨e, he, hspends⟩, path⟩
  · rintro ⟨c, -, ⟨e, he, hspends⟩, path⟩
    refine ⟨?_, c, e, he, hspends, path⟩
    rcases ReflTransGen.cases_head path with rfl | ⟨_, edge, -⟩
    · exact (mem_iff_lookup _ _).mpr ⟨e, he⟩
    · exact edge.left

theorem above_insert (fresh : t ∉ pool) (htx : entry.tx = tx) (hy : y ≠ t) :
    TransGen (Spends (pool.insert t entry)) t y ↔ y ∈ ancestors pool tx := by
  rw [(spends_insert fresh htx).transGen_from hy, mem_ancestors, ancestor_iff fresh]

theorem below_insert (fresh : t ∉ pool) (htx : entry.tx = tx) (hx : x ≠ t) :
    TransGen (Spends (pool.insert t entry)) x t ↔ x ∈ newDescendants pool t := by
  rw [(spends_insert fresh htx).transGen_to hx, mem_newDescendants fresh]

theorem mem_of_ancestors (h : y ∈ ancestors pool tx) : y ∈ pool := (mem_ancestors.mp h).mem

theorem mem_of_newDescendants (h : d ∈ newDescendants pool t) : d ∈ pool := by
  simp only [newDescendants, Finset.mem_filter, Finmap.mem_keys] at h
  exact h.1

theorem poolAncestors_self (fresh : t ∉ pool) (htx : entry.tx = tx) :
    poolAncestors (pool.insert t entry) t = ancestors pool tx := by
  ext a
  rw [mem_poolAncestors]
  constructor
  · rintro ⟨hne, chain⟩
    exact (above_insert fresh htx hne).mp chain
  · intro ha
    have hne : a ≠ t := fun heq => fresh (heq ▸ mem_of_ancestors ha)
    exact ⟨hne, (above_insert fresh htx hne).mpr ha⟩

theorem poolDescendants_self (fresh : t ∉ pool) (htx : entry.tx = tx) :
    poolDescendants (pool.insert t entry) t = newDescendants pool t := by
  ext d
  rw [mem_poolDescendants]
  constructor
  · rintro ⟨hne, chain⟩
    exact (below_insert fresh htx hne).mp chain
  · intro hd
    have hne : d ≠ t := fun heq => fresh (heq ▸ mem_of_newDescendants hd)
    exact ⟨hne, (below_insert fresh htx hne).mpr hd⟩

theorem poolAncestors_insert (fresh : t ∉ pool) (htx : entry.tx = tx) (hx : x ≠ t) :
    poolAncestors (pool.insert t entry) x =
      if x ∈ newDescendants pool t then (insert t (poolAncestors pool x ∪ ancestors pool tx)).erase x
      else poolAncestors pool x := by
  have hto := below_insert fresh htx hx
  ext a
  rw [mem_poolAncestors]
  by_cases hat : a = t
  · subst hat
    have hold : a ∉ poolAncestors pool x := fun h => fresh (transGen_right (mem_poolAncestors.mp h).2)
    rw [hto]
    by_cases hd : x ∈ newDescendants pool a
    · simp [hd, hx.symm]
    · simp [hd, hold]
  · rw [(spends_insert fresh htx).transGen_between hx hat, hto, above_insert fresh htx hat]
    by_cases hd : x ∈ newDescendants pool t
    · rw [if_pos hd, Finset.mem_erase, Finset.mem_insert, Finset.mem_union, mem_poolAncestors]
      tauto
    · rw [if_neg hd, mem_poolAncestors]
      tauto

theorem poolDescendants_insert (fresh : t ∉ pool) (htx : entry.tx = tx) (hx : x ≠ t) :
    poolDescendants (pool.insert t entry) x =
      if x ∈ ancestors pool tx then (insert t (poolDescendants pool x ∪ newDescendants pool t)).erase x
      else poolDescendants pool x := by
  have hfrom := above_insert fresh htx hx
  ext d
  rw [mem_poolDescendants]
  by_cases hdt : d = t
  · subst hdt
    have hold : d ∉ poolDescendants pool x := fun h => fresh (transGen_left (mem_poolDescendants.mp h).2)
    rw [hfrom]
    by_cases ha : x ∈ ancestors pool tx
    · simp [ha, hx.symm]
    · simp [ha, hold]
  · rw [(spends_insert fresh htx).transGen_between hdt hx, hfrom, below_insert fresh htx hdt]
    by_cases ha : x ∈ ancestors pool tx
    · rw [if_pos ha, Finset.mem_erase, Finset.mem_insert, Finset.mem_union, mem_poolDescendants]
      tauto
    · rw [if_neg ha, mem_poolDescendants]
      tauto

theorem withinLimits_insert (fresh : t ∉ pool) (htx : entry.tx = tx) (h : WithinLimits pool)
    (hown : (ancestors pool tx).card ≤ maxAncestors) : WithinLimits (pool.insert t entry) ↔ Fits pool tx t := by
  have hself : t ∈ pool.insert t entry := Finmap.mem_insert.mpr (Or.inl rfl)
  have hother {x : Bytes32} (hx : x ∈ pool) : x ∈ pool.insert t entry :=
    Finmap.mem_insert.mpr (Or.inr hx)
  have hne {x : Bytes32} (hx : x ∈ pool) : x ≠ t := fun heq => fresh (heq ▸ hx)
  constructor
  · intro hall
    refine ⟨fun a ha => ?_, ?_, fun d hd => ?_⟩
    · have hmem := mem_of_ancestors ha
      have hcard := hall.descendants a (hother hmem)
      rw [poolDescendants_insert fresh htx (hne hmem), if_pos ha] at hcard
      exact hcard
    · have hcard := hall.descendants t hself
      rw [poolDescendants_self fresh htx] at hcard
      exact hcard
    · have hmem := mem_of_newDescendants hd
      have hcard := hall.ancestors d (hother hmem)
      rw [poolAncestors_insert fresh htx (hne hmem), if_pos hd] at hcard
      exact hcard
  · intro hfits
    constructor
    · intro x hx
      by_cases hxt : x = t
      · rw [hxt, poolAncestors_self fresh htx]
        exact hown
      · have hmem := (Finmap.mem_insert.mp hx).resolve_left hxt
        rw [poolAncestors_insert fresh htx hxt]
        by_cases hd : x ∈ newDescendants pool t
        · rw [if_pos hd]
          exact hfits.below x hd
        · rw [if_neg hd]
          exact h.ancestors x hmem
    · intro x hx
      by_cases hxt : x = t
      · rw [hxt, poolDescendants_self fresh htx]
        exact hfits.self
      · have hmem := (Finmap.mem_insert.mp hx).resolve_left hxt
        rw [poolDescendants_insert fresh htx hxt]
        by_cases ha : x ∈ ancestors pool tx
        · rw [if_pos ha]
          exact hfits.above x ha
        · rw [if_neg ha]
          exact h.descendants x hmem

end Insertion

section Calls

/-- The arguments of a call of `add_transaction_with_fee`. -/
structure Offer where
  call : Call
  tx : Transaction
  fee : UInt64

def Offer.op (o : Offer) : Op := .addTransactionWithFee o.call o.tx o.fee

/-- The transaction passes the checks of the call; `roomy` is what replacement and eviction leave
of the pool for it. -/
structure Enters (rates : FeeRates) (sha256 : Sha256) (m : Mempool) (o : Offer) (roomy : Mempool) :
    Prop where
  relayed : relayPolicy rates o.tx o.fee = .ok ()
  admitted : Admitted o.call sha256 m o.tx o.fee
  bound : (replacedPool o.call m o.tx).currentSize + txSize o.tx < 2 ^ 64
  room : Room rates o.call sha256 (replacedPool o.call m o.tx) (txSize o.tx) roomy

variable {rates : FeeRates} {sha256 : Sha256} {m roomy : Mempool} {o : Offer}

theorem result_of_enters (h : Enters rates sha256 m o roomy) : m.addTransactionWithFee rates o.call sha256 o.tx o.fee =
      (roomy.insertEntry (o.tx.txid sha256)
        (newEntry o.call o.tx o.fee (replacedPool o.call m o.tx).transactions), .ok ()) := by
  have hpool : m.removeAll (allEvict o.call o.tx m.transactions) = replacedPool o.call m o.tx := rfl
  have hroom : makeRoom rates o.call sha256 (replacedPool o.call m o.tx) (txSize o.tx) =
      (roomy, .ok ()) := by
    rw [makeRoom, if_neg (not_le.mpr h.bound)]
    cases h.room with
    | free hfits => rw [if_neg (not_lt.mpr hfits)]
    | evicted hfull hok =>
      rw [if_pos hfull]
      simp only [hok, if_true]
  simp only [addTransactionWithFee, h.relayed]
  rw [addTransactionUnchecked, if_neg h.admitted.fresh, h.admitted.replaces]
  simp only [hpool, h.admitted.limits, hroom]

theorem apply_of_enters (h : Enters rates sha256 m o roomy) :
    o.op.apply rates sha256 m = roomy.insertEntry (o.tx.txid sha256)
      (newEntry o.call o.tx o.fee (replacedPool o.call m o.tx).transactions) :=
  congrArg Prod.fst (result_of_enters h)

theorem enters_of_ok (h : (m.addTransactionWithFee rates o.call sha256 o.tx o.fee).2 = .ok ()) :
    ∃ roomy, Enters rates sha256 m o roomy := by
  unfold addTransactionWithFee at h
  split at h
  next => cases h
  next hrelayed =>
    unfold addTransactionUnchecked at h
    split at h
    next => cases h
    next hfresh =>
      split at h
      next => cases h
      next evicted hreplaces =>
        obtain rfl := replacement_eq_ok hreplaces
        simp only at h
        split at h
        next => cases h
        next hlimits =>
          have hadmitted : Admitted o.call sha256 m o.tx o.fee := ⟨hfresh, hreplaces, hlimits⟩
          split at h
          next => cases h
          next roomy hroom =>
            change makeRoom rates o.call sha256 (replacedPool o.call m o.tx) (txSize o.tx) = _ at hroom
            unfold makeRoom at hroom
            split at hroom
            next => cases hroom
            next hbound =>
              split at hroom
              next hfull =>
                have hok : (evictLowestFeerate rates o.call sha256 (replacedPool o.call m o.tx)
                    (txSize o.tx)).2 = true := by
                  by_contra hfails
                  simp only [if_neg hfails] at hroom
                  cases hroom
                exact ⟨_, hrelayed, hadmitted, not_le.mp hbound, .evicted hfull hok⟩
              next hfits => exact ⟨_, hrelayed, hadmitted, not_le.mp hbound, .free (not_lt.mp hfits)⟩

/-- A call puts the transaction into what is left of the pool, or only removes entries. -/
theorem offer_cases (hm : Accounted sha256 m) (o : Offer) : (∃ roomy, Enters rates sha256 m o roomy) ∨
      (¬ ∃ roomy, Enters rates sha256 m o roomy) ∧
        ∀ x e, (o.op.apply rates sha256 m).transactions.lookup x = some e →
          m.transactions.lookup x = some e := by
  by_cases hin : ∃ roomy, Enters rates sha256 m o roomy
  · exact Or.inl hin
  · refine Or.inr ⟨hin, ?_⟩
    cases hrelay : relayPolicy rates o.tx o.fee with
    | error e =>
      simp only [Offer.op, Op.apply, addTransactionWithFee, hrelay]
      exact fun _ _ h => h
    | ok _ =>
      simp only [Offer.op, Op.apply, addTransactionWithFee, hrelay]
      have houtcome : AddOutcome rates o.call sha256 m o.tx o.fee
          (m.addTransactionUnchecked rates o.call sha256 o.tx o.fee).1 :=
        addTransactionUnchecked_outcome
      generalize (m.addTransactionUnchecked rates o.call sha256 o.tx o.fee).1 = m' at houtcome
      cases houtcome with
      | unchanged => exact fun _ _ h => h
      | replaced => exact fun _ _ h => (lookup_of_removeAll h).2
      | full hadmitted hfull hfail =>
        have hreplaced : Accounted sha256 (replacedPool o.call m o.tx) := hm.removeAll _
        intro x e h
        exact (lookup_of_removeAll ((hreplaced.evictLoop _ _ _ _ _).2.2.1 x e h)).2
      | added hadmitted hbound hroom => exact absurd ⟨_, hrelay, hadmitted, hbound, hroom⟩ hin

theorem Enters.subset (hm : Accounted sha256 m) (h : Enters rates sha256 m o roomy) {x : Bytes32} {e : MempoolEntry}
    (he : roomy.transactions.lookup x = some e) : (replacedPool o.call m o.tx).transactions.lookup x = some e :=
  (h.room.accounted (hm.removeAll _)).2.2.2 x e he

theorem Enters.fresh (hm : Accounted sha256 m) (h : Enters rates sha256 m o roomy) :
    o.tx.txid sha256 ∉ roomy.transactions := by
  intro hin
  obtain ⟨e, he⟩ := (mem_iff_lookup _ _).mp hin
  have hold := (lookup_of_removeAll (h.subset hm he)).2
  exact h.admitted.fresh ((mem_iff_lookup _ _).mpr ⟨e, hold⟩)

theorem Enters.ancestors_le (hm : Accounted sha256 m) (h : Enters rates sha256 m o roomy) :
    (ancestors roomy.transactions o.tx).card ≤ maxAncestors := by
  have hcount : countAncestors (replacedPool o.call m o.tx).transactions o.tx ≤ maxAncestors := by
    have hlimits := h.admitted.limits
    rw [chainLimits] at hlimits
    by_contra hover
    rw [if_pos (not_le.mp hover)] at hlimits
    cases hlimits
  rw [countAncestors, ← List.toFinset_card_of_nodup visitedAncestors_nodup] at hcount
  refine (Finset.card_le_card fun a ha => ?_).trans hcount
  rw [List.mem_toFinset, mem_visitedAncestors]
  rw [mem_ancestors] at ha
  have hmem {a : Bytes32} (ha : a ∈ roomy.transactions) :
      a ∈ (replacedPool o.call m o.tx).transactions := by
    obtain ⟨e, he⟩ := (mem_iff_lookup _ _).mp ha
    exact (mem_iff_lookup _ _).mpr ⟨e, h.subset hm he⟩
  induction ha with
  | parent hi hin => exact .parent hi (hmem hin)
  | further _ he hj hin ih => exact .further ih (h.subset hm he) hj (hmem hin)

theorem withinLimits_apply (hm : Accounted sha256 m) (h : WithinLimits m.transactions) :
    WithinLimits (o.op.apply rates sha256 m).transactions ↔
      ∀ roomy, Enters rates sha256 m o roomy →
        Fits roomy.transactions o.tx (o.tx.txid sha256) := by
  have hstep {roomy : Mempool} (hin : Enters rates sha256 m o roomy) :
      WithinLimits (o.op.apply rates sha256 m).transactions ↔
        Fits roomy.transactions o.tx (o.tx.txid sha256) := by
    rw [apply_of_enters hin]
    have hroomy : WithinLimits roomy.transactions :=
      h.mono fun _ _ he => (lookup_of_removeAll (hin.subset hm he)).2
    exact withinLimits_insert (hin.fresh hm) rfl hroomy (hin.ancestors_le hm)
  constructor
  · exact fun hall roomy hin => (hstep hin).mp hall
  · intro hfits
    rcases @offer_cases rates _ _ hm o with ⟨roomy, hin⟩ | ⟨-, hsub⟩
    · exact (hstep hin).mpr (hfits roomy hin)
    · exact h.mono hsub

/-- The pool after a sequence of calls on an empty one. -/
def poolAfter (rates : FeeRates) (sha256 : Sha256) (maxSize : ℕ) (offers : List Offer) : Mempool :=
  run rates sha256 maxSize (offers.map Offer.op)

theorem poolAfter_snoc (maxSize : ℕ) (before : List Offer) : poolAfter rates sha256 maxSize (before ++ [o]) =
      o.op.apply rates sha256 (poolAfter rates sha256 maxSize before) := by
  simp [poolAfter, run]

theorem poolAfter_accounted (maxSize : ℕ) (offers : List Offer) :
    Accounted sha256 (poolAfter rates sha256 maxSize offers) :=
  (accounted_run rates sha256 maxSize (offers.map Offer.op)).1

theorem withinLimits_empty : WithinLimits (∅ : Pool) where
  ancestors _ h := absurd h Finmap.notMem_empty
  descendants _ h := absurd h Finmap.notMem_empty

/-- The limits hold in every pool that a sequence of calls goes through exactly if every
transaction that enters fits into what is left of the pool before it. -/
theorem limits_hold_iff_fits (rates : FeeRates) (sha256 : Sha256) (maxSize : ℕ) (offers : List Offer) :
    (∀ before after, offers = before ++ after →
      WithinLimits (poolAfter rates sha256 maxSize before).transactions) ↔
    ∀ before o after, offers = before ++ o :: after →
      ∀ roomy, Enters rates sha256 (poolAfter rates sha256 maxSize before) o roomy →
        Fits roomy.transactions o.tx (o.tx.txid sha256) := by
  constructor
  · intro hall before o after heq
    have hafter := hall (before ++ [o]) after (by simp [heq])
    rw [poolAfter_snoc] at hafter
    exact (withinLimits_apply (poolAfter_accounted _ _) (hall before _ heq)).mp hafter
  · intro hfits before
    induction before using List.reverseRecOn with
    | nil => exact fun _ _ => withinLimits_empty
    | append_singleton before o ih =>
      intro after heq
      have hbefore := ih (o :: after) (by simp [heq])
      rw [poolAfter_snoc, withinLimits_apply (poolAfter_accounted _ _) hbefore]
      exact hfits before o after (by simp [heq])

end Calls

section Crowd

variable {call : Call} {pool : Pool} {tx : Transaction}

theorem chainLimits_of_no_parents (h : ∀ i ∈ tx.inputs, i.prevOutput.txid ∉ pool) :
    chainLimits call tx pool = .ok () := by
  have hnone : visitedAncestors pool tx = [] := by
    rw [List.eq_nil_iff_forall_not_mem]
    intro a ha
    rw [mem_visitedAncestors] at ha
    induction ha with
    | parent hi hin => exact h _ hi hin
    | further _ _ _ _ ih => exact ih
  have hlimits : ∀ inputs : List TxInput, (∀ i ∈ inputs, i.prevOutput.txid ∉ pool) →
      descendantLimits call pool inputs = .ok () := by
    intro inputs
    induction inputs with
    | nil => exact fun _ => rfl
    | cons i inputs ih =>
      intro hinputs
      rw [descendantLimits, if_neg fun hin => hinputs i (by simp) hin.1]
      exact ih fun j hj => hinputs j (List.mem_cons_of_mem i hj)
  rw [chainLimits, countAncestors, hnone, if_neg (by simp)]
  exact hlimits _ h

/-- The later transaction has nothing to do with the earlier one, unless it is spent by it. -/
def Apart (earlier later : Transaction) : Prop :=
  later.txid Sha256.sha256 ≠ earlier.txid Sha256.sha256 ∧
    ∀ i ∈ later.inputs, i.prevOutput.txid ≠ earlier.txid Sha256.sha256 ∧
      ∀ j ∈ earlier.inputs, j.prevOutput ≠ i.prevOutput

/-- Small transactions at a fee that is high enough for them. -/
def smallOffer (tx : Transaction) : Offer := ⟨callAt 0, tx, 1000⟩

theorem poolAfter_apart (txs : List Transaction) (hsmall : ∀ tx ∈ txs, txSize tx ≤ 1000) (hcount : txs.length ≤ 100)
    (hapart : txs.Pairwise Apart) :
    let m := poolAfter exactRates Sha256.sha256 100000 (txs.map smallOffer)
    m.currentSize ≤ 1000 * txs.length ∧
      (∀ a e, m.transactions.lookup a = some e → e.tx ∈ txs ∧ a = e.tx.txid Sha256.sha256) ∧
      ∀ tx ∈ txs, ∃ e, m.transactions.lookup (tx.txid Sha256.sha256) = some e ∧ e.tx = tx := by
  induction txs using List.reverseRecOn with
  | nil =>
    refine ⟨le_rfl, fun a e h => ?_, fun tx h => by simp at h⟩
    simp [poolAfter, run, Mempool.new] at h
  | append_singleton txs tx ih =>
    rw [List.pairwise_append] at hapart
    obtain ⟨hbefore, -, hlast⟩ := hapart
    have hlast : ∀ earlier ∈ txs, Apart earlier tx := fun earlier he => hlast earlier he tx (by simp)
    rw [List.length_append, List.length_singleton] at hcount
    obtain ⟨hsize, hin, hout⟩ := ih (fun t ht => hsmall t (List.mem_append_left [tx] ht)) (by omega)
      hbefore
    rw [List.map_append, List.map_singleton, poolAfter_snoc]
    have hmax := (accounted_run exactRates Sha256.sha256 100000 ((txs.map smallOffer).map Offer.op)).2
    change (poolAfter exactRates Sha256.sha256 100000 (txs.map smallOffer)).maxSize = 100000 at hmax
    have hown : txSize tx ≤ 1000 := hsmall tx (by simp)
    generalize poolAfter exactRates Sha256.sha256 100000 (txs.map smallOffer) = m at hsize hin hout hmax
    have hfree : ∀ a e, m.transactions.lookup a = some e →
        ∀ i ∈ tx.inputs, ∀ j ∈ e.tx.inputs, j.prevOutput ≠ i.prevOutput := by
      intro a e he i hi
      exact ((hlast e.tx (hin a e he).1).2 i hi).2
    have hnone : conflicts (callAt 0) tx m.transactions = [] := conflicts_of_free (callAt 0) hfree
    have hevict : allEvict (callAt 0) tx m.transactions = [] := by
      rw [allEvict, hnone]
      rfl
    have hreplaced : replacedPool (callAt 0) m tx = m := by
      rw [replacedPool, hevict]
      rfl
    have hfresh : tx.txid Sha256.sha256 ∉ m.transactions := by
      intro hmem
      obtain ⟨e, he⟩ := (mem_iff_lookup _ _).mp hmem
      obtain ⟨htx, hid⟩ := hin _ e he
      exact (hlast e.tx htx).1 hid
    have henters : Enters exactRates Sha256.sha256 m (smallOffer tx) m := by
      refine ⟨relayPolicy_ok hown, ⟨hfresh, ?_, ?_⟩, ?_, ?_⟩
      · simp [smallOffer, replacement, hnone, hevict]
      · refine chainLimits_of_no_parents fun i hi hmem => ?_
        obtain ⟨e, he⟩ := (mem_iff_lookup _ _).mp hmem
        rw [smallOffer, hreplaced] at he
        obtain ⟨htx, hid⟩ := hin _ e he
        exact ((hlast e.tx htx).2 i hi).1 hid
      · simp only [smallOffer, hreplaced]
        omega
      · simp only [smallOffer, hreplaced]
        exact .free (by omega)
    rw [apply_of_enters henters]
    refine ⟨?_, fun a e he => ?_, fun t ht => ?_⟩
    · change min (m.currentSize + txSize tx) (2 ^ 64 - 1) ≤ _
      rw [List.length_append, List.length_singleton]
      omega
    · rcases lookup_of_insertEntry he with ⟨rfl, rfl⟩ | ⟨-, he⟩
      · exact ⟨by simp [newEntry, smallOffer], rfl⟩
      · exact ⟨List.mem_append_left _ (hin a e he).1, (hin a e he).2⟩
    · change ∃ e, (m.transactions.insert _ _).lookup _ = some e ∧ _
      rw [lookup_insert_eq]
      rcases List.mem_append.mp ht with ht | ht
      · rw [if_neg fun heq => (hlast t ht).1 heq.symm]
        exact hout t ht
      · rw [List.mem_singleton.mp ht, if_pos (show tx.txid _ = (smallOffer tx).tx.txid _ from rfl)]
        exact ⟨_, rfl, rfl⟩

/-- A transaction with 26 outputs. -/
def crowdParent : Transaction :=
  ⟨2, [inputOf ⟨Bytes32.zero, 0⟩], List.replicate 26 ⟨1000, []⟩, 0⟩

def crowdParentTxid : Bytes32 :=
  ⟨[93, 78, 241, 251, 31, 232, 90, 239, 124, 160, 81, 234, 62, 208, 163, 122, 182, 105, 28, 147, 241,
    138, 14, 228, 171, 85, 206, 142, 30, 209, 33, 64], rfl⟩

theorem crowdParent_txid : crowdParent.txid Sha256.sha256 = crowdParentTxid := by
  rw [← Sha256.runSha256_eq]
  decide +kernel

/-- The transaction that spends one of the outputs. -/
def crowdChild (k : ℕ) : Transaction := ⟨2, [inputOf ⟨crowdParentTxid, UInt32.ofNat k⟩], [], 0⟩

theorem crowdChild_prefixes : (List.range 26).map (fun k => ((crowdChild k).txid Sha256.sha256).bytes.take 2) =
      [[26, 37], [232, 54], [87, 182], [170, 228], [212, 243], [111, 15], [80, 209], [61, 5], [9, 201],
        [98, 136], [135, 245], [242, 134], [255, 248], [165, 149], [252, 52], [134, 228], [105, 162],
        [85, 94], [232, 252], [119, 54], [4, 153], [47, 205], [151, 67], [31, 141], [183, 221],
        [218, 145]] := by
  rw [← Sha256.runSha256_eq]
  decide +kernel

theorem crowdChild_prefix_mem {k : ℕ} (hk : k < 26) (bytes : List UInt8)
    (h : bytes ∉ (List.range 26).map fun k => ((crowdChild k).txid Sha256.sha256).bytes.take 2) :
    ((crowdChild k).txid Sha256.sha256).bytes.take 2 ≠ bytes := by
  intro heq
  exact h (List.mem_map.mpr ⟨k, List.mem_range.mpr hk, heq⟩)

theorem crowdChild_txid_injOn {k k' : ℕ} (hk : k < 26) (hk' : k' < 26)
    (h : (crowdChild k).txid Sha256.sha256 = (crowdChild k').txid Sha256.sha256) : k = k' := by
  have hnodup : ((List.range 26).map fun k =>
      ((crowdChild k).txid Sha256.sha256).bytes.take 2).Nodup := by
    rw [crowdChild_prefixes]
    decide
  have hinj := List.inj_on_of_nodup_map hnodup
  exact hinj (List.mem_range.mpr hk) (List.mem_range.mpr hk') (by rw [h])

theorem crowdChild_txid_ne {k : ℕ} (hk : k < 26) : (crowdChild k).txid Sha256.sha256 ≠ crowdParentTxid ∧
      (crowdChild k).txid Sha256.sha256 ≠ Bytes32.zero := by
  constructor
  · intro heq
    refine crowdChild_prefix_mem hk (crowdParentTxid.bytes.take 2) ?_ (by rw [heq])
    rw [crowdChild_prefixes]
    decide
  · intro heq
    refine crowdChild_prefix_mem hk (Bytes32.zero.bytes.take 2) ?_ (by rw [heq])
    rw [crowdChild_prefixes]
    decide

theorem crowd_apart : ((List.range 26).map crowdChild ++ [crowdParent]).Pairwise Apart := by
  rw [List.pairwise_append, List.pairwise_map]
  refine ⟨?_, List.pairwise_singleton _ _, ?_⟩
  · refine List.Pairwise.imp_of_mem ?_ List.pairwise_lt_range
    intro k k' hk hk' hlt
    rw [List.mem_range] at hk hk'
    refine ⟨fun heq => absurd (crowdChild_txid_injOn hk' hk heq) (by omega), ?_⟩
    simp only [crowdChild, inputOf, List.mem_singleton, forall_eq]
    refine ⟨fun heq => (crowdChild_txid_ne hk).1 heq.symm, fun heq => ?_⟩
    have hnat := congrArg (fun o => o.vout.toNat) heq
    simp only [UInt32.toNat_ofNat'] at hnat
    omega
  · intro child hchild parent hparent
    obtain ⟨k, hk, rfl⟩ := List.mem_map.mp hchild
    rw [List.mem_range] at hk
    rw [List.mem_singleton.mp hparent]
    have hne := crowdChild_txid_ne hk
    refine ⟨?_, ?_⟩
    · rw [crowdParent_txid]
      exact hne.1.symm
    · simp only [crowdParent, crowdChild, inputOf, List.mem_singleton, forall_eq]
      refine ⟨hne.2.symm, fun heq => ?_⟩
      have hid : crowdParentTxid = Bytes32.zero := congrArg OutPoint.txid heq
      exact absurd hid (by decide)

/-- 26 children that arrive before their parent: the parent has too many descendants. -/
theorem late_parent_over_limit : ¬ WithinLimits (poolAfter exactRates Sha256.sha256 100000
      (((List.range 26).map crowdChild ++ [crowdParent]).map smallOffer)).transactions := by
  have hsmall : ∀ tx ∈ (List.range 26).map crowdChild ++ [crowdParent], txSize tx ≤ 1000 := by
    intro tx htx
    rcases List.mem_append.mp htx with htx | htx
    · obtain ⟨k, -, rfl⟩ := List.mem_map.mp htx
      have hsize : txSize (crowdChild k) = 80 := rfl
      omega
    · rw [List.mem_singleton.mp htx]
      decide +kernel
  obtain ⟨-, -, hin⟩ := poolAfter_apart _ hsmall (by simp) crowd_apart
  intro hlimits
  generalize (poolAfter exactRates Sha256.sha256 100000
    (((List.range 26).map crowdChild ++ [crowdParent]).map smallOffer)).transactions = pool at hin hlimits
  have hparent : crowdParentTxid ∈ pool := by
    obtain ⟨e, he, -⟩ := hin crowdParent (by simp)
    rw [crowdParent_txid] at he
    exact (mem_iff_lookup _ _).mpr ⟨e, he⟩
  have hchildren : ((Finset.range 26).image fun k => (crowdChild k).txid Sha256.sha256) ⊆
      poolDescendants pool crowdParentTxid := by
    intro d hd
    obtain ⟨k, hk, rfl⟩ := Finset.mem_image.mp hd
    rw [Finset.mem_range] at hk
    obtain ⟨e, he, htx⟩ := hin (crowdChild k) (by simp; exact Or.inl ⟨k, hk, rfl⟩)
    rw [mem_poolDescendants]
    refine ⟨(crowdChild_txid_ne hk).1, .single ⟨e, he, hparent, ?_⟩⟩
    rw [htx]
    exact ⟨_, List.mem_singleton.mpr rfl, rfl⟩
  have hcard := Finset.card_le_card hchildren
  rw [Finset.card_image_of_injOn fun k hk k' hk' h =>
    crowdChild_txid_injOn (Finset.mem_range.mp hk) (Finset.mem_range.mp hk') h,
    Finset.card_range] at hcard
  have hlimit := hlimits.descendants crowdParentTxid hparent
  rw [maxDescendants] at hlimit
  omega

end Crowd

end KuberCoin.ChainLimits
