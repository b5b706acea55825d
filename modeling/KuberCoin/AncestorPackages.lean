import KuberCoin.PoolEvictions
import Mathlib.Algebra.Order.BigOperators.Group.Finset

/-!
The package of an entry: its fee and size together with those of all its ancestors in
the pool. The source computes the two sums when the entry is added and never again.
They stay right as long as no entry joins the pool below one that is already in it, no
entry leaves while another one that spends it stays, and the fees add up without
wrapping.
-/
namespace KuberCoin.AncestorPackages

open Bytes Maps Transactions Blocks UtxoSets Worklists Mempools Mempool PoolAccounting PoolEvictions

section Ancestors

variable {p : Bytes32}

/-- The entries of a pool whose outputs a transaction spends, directly or through others. -/
inductive Ancestor (pool : Pool) (tx : Transaction) : Bytes32 → Prop where
  | parent {i : TxInput} (hi : i ∈ tx.inputs) (hin : i.prevOutput.txid ∈ pool) :
      Ancestor pool tx i.prevOutput.txid
  | further {p : Bytes32} {e : MempoolEntry} {j : TxInput} (hp : Ancestor pool tx p)
      (he : pool.lookup p = some e) (hj : j ∈ e.tx.inputs) (hin : j.prevOutput.txid ∈ pool) :
      Ancestor pool tx j.prevOutput.txid

variable {pool pool' : Pool} {tx : Transaction} {fee : UInt64} {size : ℕ}

theorem Ancestor.mem (h : Ancestor pool tx p) : p ∈ pool := by
  cases h with
  | parent _ hin => exact hin
  | further _ _ _ hin => exact hin

open Classical in
/-- The ancestors of a transaction in the pool. -/
noncomputable def ancestors (pool : Pool) (tx : Transaction) : Finset Bytes32 :=
  pool.keys.filter (Ancestor pool tx)

theorem mem_ancestors : p ∈ ancestors pool tx ↔ Ancestor pool tx p := by
  simp only [ancestors, Finset.mem_filter, Finmap.mem_keys]
  exact ⟨fun h => h.2, fun h => ⟨h.mem, h⟩⟩

/-- The fee of a transaction and its ancestors. -/
noncomputable def packageFee (pool : Pool) (tx : Transaction) (fee : UInt64) : ℕ :=
  fee.toNat + ∑ p ∈ ancestors pool tx, (pool.lookup p).elim 0 fun e => e.fee.toNat

/-- The size of a transaction and its ancestors. -/
noncomputable def packageSize (pool : Pool) (tx : Transaction) (size : ℕ) : ℕ :=
  size + ∑ p ∈ ancestors pool tx, (pool.lookup p).elim 0 MempoolEntry.size

/-- Every entry carries the sums of its package. -/
def AncestorsCounted (pool : Pool) : Prop :=
  ∀ txid e, pool.lookup txid = some e →
    e.ancestorFee.toNat = packageFee pool e.tx e.fee ∧ e.ancestorSize = packageSize pool e.tx e.size

theorem edge_parents_iff {q : Bytes32} : Edge (parents pool) p q ↔
      ∃ e, pool.lookup p = some e ∧ ∃ j ∈ e.tx.inputs, j.prevOutput.txid = q := by
  unfold Edge parents
  cases h : pool.lookup p with
  | none => simp
  | some e => simp

theorem reached_iff_ancestor : Reached (parents pool) (tx.inputs.map fun i => i.prevOutput.txid).reverse p ↔
      Ancestor pool tx p := by
  constructor
  · rintro ⟨hin, x, hx, hpath⟩
    obtain ⟨i, hi, rfl⟩ := List.mem_map.mp (List.mem_reverse.mp hx)
    induction hpath with
    | refl => exact .parent hi (parents_ne_none.mp hin)
    | tail _ hedge ih =>
      obtain ⟨e, he, j, hj, rfl⟩ := edge_parents_iff.mp hedge
      have hmid := ih (parents_ne_none.mpr ((mem_iff_lookup _ _).mpr ⟨e, he⟩))
      exact .further hmid he hj (parents_ne_none.mp hin)
  · intro h
    induction h with
    | parent hi hin =>
      exact ⟨parents_ne_none.mpr hin, _, List.mem_reverse.mpr (List.mem_map.mpr ⟨_, hi, rfl⟩),
        Relation.ReflTransGen.refl⟩
    | further _ he hj hin ih =>
      obtain ⟨-, x, hx, hpath⟩ := ih
      exact ⟨parents_ne_none.mpr hin, x, hx,
        hpath.tail (edge_parents_iff.mpr ⟨_, he, _, hj, rfl⟩)⟩

/-- The search of the source finds the ancestors; its fuel is the number of inputs it can
take from the stack. -/
theorem mem_visitedAncestors : p ∈ visitedAncestors pool tx ↔ Ancestor pool tx p := by
  have hknown : ∀ x, parents pool x ≠ none → x ∈ pool.keys := fun x hx =>
    Finmap.mem_keys.mpr (parents_ne_none.mp hx)
  have hsum : ∑ x ∈ pool.keys, ((parents pool x).getD []).length =
      total (fun e => e.tx.inputs.length) pool := by
    rw [total_eq_sum]
    refine Finset.sum_congr rfl fun x _ => ?_
    unfold parents
    cases pool.lookup x <;> simp
  have hfuel : popsLeft (parents pool) pool.keys
      (tx.inputs.map fun i => i.prevOutput.txid).reverse [] ≤
      tx.inputs.length + total (fun e => e.tx.inputs.length) pool := by
    simp [popsLeft, hsum]
  rw [visitedAncestors, mem_explore_iff hknown hfuel, reached_iff_ancestor]

theorem visitedAncestors_nodup : (visitedAncestors pool tx).Nodup := nodup_explore _ _ _ (by simp)

theorem sum_visited (g : MempoolEntry → ℕ) : (((visitedAncestors pool tx).reverse.filterMap pool.lookup).map g).sum =
      ∑ p ∈ ancestors pool tx, (pool.lookup p).elim 0 g := by
  have hset : ancestors pool tx = (visitedAncestors pool tx).reverse.toFinset := by
    ext p
    rw [mem_ancestors, List.mem_toFinset, List.mem_reverse, mem_visitedAncestors]
  have hlist : ∀ l : List Bytes32, ((l.filterMap pool.lookup).map g).sum =
      (l.map fun p => (pool.lookup p).elim 0 g).sum := by
    intro l
    induction l with
    | nil => rfl
    | cons p l ih =>
      cases h : pool.lookup p with
      | none => simp [h, ih]
      | some e => simp [h, ih]
  rw [hset, List.sum_toFinset _ (List.nodup_reverse.mpr visitedAncestors_nodup), hlist]

theorem foldl_fee (l : List MempoolEntry) (fee : UInt64) : (l.foldl (fun total e => total + e.fee) fee).toNat =
      (fee.toNat + (l.map fun e => e.fee.toNat).sum) % 2 ^ 64 := by
  induction l generalizing fee with
  | nil => simp [Nat.mod_eq_of_lt fee.toNat_lt]
  | cons e l ih =>
    rw [List.foldl_cons, ih, UInt64.toNat_add, List.map_cons, List.sum_cons]
    omega

theorem foldl_size (l : List MempoolEntry) (size : ℕ) :
    l.foldl (fun total e => total + e.size) size = size + (l.map MempoolEntry.size).sum := by
  induction l generalizing size with
  | nil => simp
  | cons e l ih =>
    rw [List.foldl_cons, ih, List.map_cons, List.sum_cons]
    omega

theorem computeAncestorPackage_fee :
    (computeAncestorPackage pool tx fee size).1.toNat = packageFee pool tx fee % 2 ^ 64 := by
  rw [computeAncestorPackage, foldl_fee, sum_visited, packageFee]

theorem computeAncestorPackage_size : (computeAncestorPackage pool tx fee size).2 = packageSize pool tx size := by
  rw [computeAncestorPackage, foldl_size, sum_visited, packageSize]

theorem package_congr (tx : Transaction) (fee : UInt64) (size : ℕ)
    (hanc : ∀ p, Ancestor pool' tx p ↔ Ancestor pool tx p)
    (hsame : ∀ p, Ancestor pool tx p → (pool'.lookup p).map (fun e => (e.fee, e.size)) =
      (pool.lookup p).map fun e => (e.fee, e.size)) : packageFee pool' tx fee = packageFee pool tx fee ∧
      packageSize pool' tx size = packageSize pool tx size := by
  have hset : ancestors pool' tx = ancestors pool tx := by
    ext p
    rw [mem_ancestors, mem_ancestors, hanc]
  have hsum : ∀ g : UInt64 × ℕ → ℕ,
      ∑ p ∈ ancestors pool' tx, (pool'.lookup p).elim 0 (fun e => g (e.fee, e.size)) =
        ∑ p ∈ ancestors pool tx, (pool.lookup p).elim 0 fun e => g (e.fee, e.size) := by
    intro g
    rw [hset]
    refine Finset.sum_congr rfl fun p hp => ?_
    have heq := congrArg (fun o => Option.elim o 0 g) (hsame p (mem_ancestors.mp hp))
    simp only [Option.elim_map] at heq
    exact heq
  exact ⟨congrArg _ (hsum fun v => v.1.toNat), congrArg _ (hsum fun v => v.2)⟩

theorem packageFee_le : packageFee pool tx fee ≤ fee.toNat + total (fun e => e.fee.toNat) pool := by
  rw [packageFee, total_eq_sum]
  refine Nat.add_le_add_left (Finset.sum_le_sum_of_subset ?_) _
  intro p hp
  exact Finmap.mem_keys.mpr (mem_ancestors.mp hp).mem

end Ancestors

section Changes

variable {tx : Transaction} {m m' : Mempool}

theorem ancestor_part (hsub : ∀ a e, m'.transactions.lookup a = some e → m.transactions.lookup a = some e)
    (hclosed : NoDangling m m')
    (htx : ∀ p ∈ m.transactions, p ∉ m'.transactions → ¬ ∃ i ∈ tx.inputs, i.prevOutput.txid = p) (p : Bytes32) :
    Ancestor m'.transactions tx p ↔ Ancestor m.transactions tx p := by
  have hmem : ∀ {a : Bytes32}, a ∈ m'.transactions → a ∈ m.transactions := by
    intro a ha
    obtain ⟨e, he⟩ := (mem_iff_lookup _ _).mp ha
    exact (mem_iff_lookup _ _).mpr ⟨e, hsub a e he⟩
  constructor
  · intro h
    induction h with
    | parent hi hin => exact .parent hi (hmem hin)
    | further _ he hj hin ih => exact .further ih (hsub _ _ he) hj (hmem hin)
  · intro h
    induction h with
    | @parent i hi hin =>
      refine .parent hi ?_
      by_contra hgone
      exact htx _ hin hgone ⟨i, hi, rfl⟩
    | @further q e j _ he hj hin ih =>
      obtain ⟨e', he'⟩ := (mem_iff_lookup _ _).mp ih.mem
      have heq := hsub _ _ he'
      rw [he] at heq
      cases heq
      refine .further ih he' hj ?_
      by_contra hgone
      have hspends := hclosed _ hin hgone _ _ he'
      have : e.spends j.prevOutput.txid = true := (spends_iff rfl).mpr ⟨j, hj, rfl⟩
      rw [hspends] at this
      cases this

theorem package_part (fee : UInt64) (size : ℕ)
    (hsub : ∀ a e, m'.transactions.lookup a = some e → m.transactions.lookup a = some e) (hclosed : NoDangling m m')
    (htx : ∀ p ∈ m.transactions, p ∉ m'.transactions → ¬ ∃ i ∈ tx.inputs, i.prevOutput.txid = p) :
    packageFee m'.transactions tx fee = packageFee m.transactions tx fee ∧
      packageSize m'.transactions tx size = packageSize m.transactions tx size := by
  have hanc := ancestor_part hsub hclosed htx
  refine package_congr tx fee size hanc fun p hp => ?_
  obtain ⟨e, he⟩ := (mem_iff_lookup _ _).mp ((hanc p).mpr hp).mem
  rw [he, hsub p e he]

theorem AncestorsCounted.part (h : AncestorsCounted m.transactions)
    (hsub : ∀ a e, m'.transactions.lookup a = some e → m.transactions.lookup a = some e) (hclosed : NoDangling m m') :
    AncestorsCounted m'.transactions := by
  intro txid e he
  have hkept : ∀ p ∈ m.transactions, p ∉ m'.transactions →
      ¬ ∃ i ∈ e.tx.inputs, i.prevOutput.txid = p := by
    intro p hp hgone hin
    have hspends := hclosed p hp hgone txid e he
    rw [(spends_iff rfl).mpr hin] at hspends
    cases hspends
  obtain ⟨hfee, hsize⟩ := package_part e.fee e.size hsub hclosed hkept
  rw [hfee, hsize]
  exact h txid e (hsub txid e he)

theorem package_insert (fee : UInt64) (size : ℕ) (entry : MempoolEntry) {pool : Pool} {txid : Bytes32}
    (hnone : ∀ c f, pool.lookup c = some f → f.spends txid = false) (hfresh : txid ∉ pool)
    (htx : ∀ i ∈ tx.inputs, i.prevOutput.txid ≠ txid) :
    packageFee (pool.insert txid entry) tx fee = packageFee pool tx fee ∧
      packageSize (pool.insert txid entry) tx size = packageSize pool tx size := by
  have hmem : ∀ {a : Bytes32}, a ∈ pool.insert txid entry → a ≠ txid → a ∈ pool := by
    intro a ha hne
    exact (Finmap.mem_insert.mp ha).resolve_left hne
  have hother : ∀ {c : Bytes32} {e : MempoolEntry}, pool.lookup c = some e →
      ∀ j ∈ e.tx.inputs, j.prevOutput.txid ≠ txid := by
    intro c e he j hj heq
    have hspends := hnone c e he
    rw [(spends_iff rfl).mpr ⟨j, hj, heq⟩] at hspends
    cases hspends
  have hlook : ∀ {a : Bytes32}, a ∈ pool → (pool.insert txid entry).lookup a = pool.lookup a := by
    intro a ha
    rw [lookup_insert_eq, if_neg (fun heq : a = txid => hfresh (heq ▸ ha))]
  refine package_congr tx fee size (fun p => ⟨fun h => ?_, fun h => ?_⟩) fun p hp => by rw [hlook hp.mem]
  · induction h with
    | parent hi hin => exact .parent hi (hmem hin (htx _ hi))
    | further _ he hj hin ih =>
      rw [hlook ih.mem] at he
      exact .further ih he hj (hmem hin (hother he _ hj))
  · induction h with
    | parent hi hin => exact .parent hi (Finmap.mem_insert.mpr (Or.inr hin))
    | further hp he hj hin ih =>
      exact .further ih ((hlook hp.mem).trans he) hj (Finmap.mem_insert.mpr (Or.inr hin))

end Changes

section Operations

variable {rates : FeeRates} {sha256 : Sha256} {m : Mempool} {pool : Pool} {b : Block} {txid : Bytes32} {call : Call}
  {op : Op}

/-- An insertion that gets as far as making room joins the pool below no entry, drives out no
entry that is spent, and its package fee is a 64-bit number. -/
structure CountedAttempt (rates : FeeRates) (sha256 : Sha256) (a : Attempt) : Prop where
  unspent : Admitted a.call sha256 a.pool a.tx a.fee →
    ∀ c f, (replacedPool a.call a.pool a.tx).transactions.lookup c = some f →
      f.spends (a.tx.txid sha256) = false
  acyclic : Admitted a.call sha256 a.pool a.tx a.fee →
    ∀ i ∈ a.tx.inputs, i.prevOutput.txid ≠ a.tx.txid sha256
  room : Admitted a.call sha256 a.pool a.tx a.fee →
    RoomSafe rates (replacedPool a.call a.pool a.tx) a.tx
  fee : Admitted a.call sha256 a.pool a.tx a.fee →
    packageFee (replacedPool a.call a.pool a.tx).transactions a.tx a.fee < 2 ^ 64

theorem replacedPool_noDangling (call : Call) (m : Mempool) (tx : Transaction) :
    NoDangling m (replacedPool call m tx) := by
  intro p hp hgone c f hc
  obtain ⟨e, he⟩ := (mem_iff_lookup _ _).mp hp
  by_cases hrep : Replaced m.transactions tx p
  · exact spends_replaced hrep hc
  · exact absurd ((mem_iff_lookup _ _).mpr ⟨e, lookup_replacedPool call he hrep⟩) hgone

theorem CountedAttempt.counted {a : Attempt} (h : Accounted sha256 a.pool)
    (hcounted : AncestorsCounted a.pool.transactions) (ha : CountedAttempt rates sha256 a) :
    AncestorsCounted (a.after rates sha256).transactions := by
  have houtcome : AddOutcome rates a.call sha256 a.pool a.tx a.fee (a.after rates sha256) :=
    addTransactionUnchecked_outcome
  have hreplaced : Accounted sha256 (replacedPool a.call a.pool a.tx) := h.removeAll _
  have hrest : AncestorsCounted (replacedPool a.call a.pool a.tx).transactions :=
    hcounted.part (fun _ _ hc => (lookup_of_replacedPool hc).2) (replacedPool_noDangling _ _ _)
  generalize a.after rates sha256 = m' at houtcome
  cases houtcome with
  | unchanged => exact hcounted
  | replaced => exact hrest
  | full hadmitted hfull hfail =>
    intro c f hc
    have hempty := empty_of_evict_fails _ _ _ hreplaced (Nat.lt_succ_self _) hfail c
    change (evictLoop _ _ _ _ _ _ _).1.transactions.lookup c = some f at hc
    rw [hempty] at hc
    cases hc
  | @added hadmitted hbound roomy hroom =>
    obtain ⟨-, -, -, hsub⟩ := hroom.accounted hreplaced
    have hgone := fun (p : Bytes32) (e : MempoolEntry) =>
      room_noDangling (p := p) (e := e) hreplaced (ha.room hadmitted) hroom
    have hleft : ∀ p ∈ (replacedPool a.call a.pool a.tx).transactions, p ∉ roomy.transactions →
        (∀ c f, roomy.transactions.lookup c = some f → f.spends p = false) ∧
          ¬ ∃ i ∈ a.tx.inputs, i.prevOutput.txid = p := by
      intro p hp hnot
      obtain ⟨e, he⟩ := (mem_iff_lookup _ _).mp hp
      exact hgone p e he (Finmap.lookup_eq_none.mpr hnot)
    have hclosed : NoDangling (replacedPool a.call a.pool a.tx) roomy := fun p hp hnot =>
      (hleft p hp hnot).1
    have hroomy : AncestorsCounted roomy.transactions := hrest.part hsub hclosed
    have hnone : ∀ c f, roomy.transactions.lookup c = some f →
        f.spends (a.tx.txid sha256) = false := fun c f hc =>
      ha.unspent hadmitted c f (hsub c f hc)
    have hfresh : a.tx.txid sha256 ∉ roomy.transactions := by
      intro hin
      obtain ⟨e, he⟩ := (mem_iff_lookup _ _).mp hin
      exact hadmitted.fresh ((mem_iff_lookup _ _).mpr ⟨e, (lookup_of_replacedPool (hsub _ e he)).2⟩)
    intro c f hc
    rcases lookup_of_insertEntry hc with ⟨-, rfl⟩ | ⟨hne, hold⟩
    · -- the sums were taken before room was made; no ancestor has been driven out since
      obtain ⟨hfee, hsize⟩ := package_insert a.fee (txSize a.tx)
        (newEntry a.call a.tx a.fee (replacedPool a.call a.pool a.tx).transactions) hnone hfresh
        (ha.acyclic hadmitted)
      obtain ⟨hfee', hsize'⟩ := package_part a.fee (txSize a.tx) hsub hclosed
        fun p hp hnot => (hleft p hp hnot).2
      constructor
      · change (computeAncestorPackage _ a.tx a.fee (txSize a.tx)).1.toNat = _
        rw [computeAncestorPackage_fee, Nat.mod_eq_of_lt (ha.fee hadmitted)]
        exact (hfee.trans hfee').symm
      · change (computeAncestorPackage _ a.tx a.fee (txSize a.tx)).2 = _
        rw [computeAncestorPackage_size]
        exact (hsize.trans hsize').symm
    · have hinputs : ∀ i ∈ f.tx.inputs, i.prevOutput.txid ≠ a.tx.txid sha256 := by
        intro i hi heq
        have hspends := hnone c f hold
        rw [(spends_iff rfl).mpr ⟨i, hi, heq⟩] at hspends
        cases hspends
      obtain ⟨hfee, hsize⟩ := package_insert f.fee f.size
        (newEntry a.call a.tx a.fee (replacedPool a.call a.pool a.tx).transactions) hnone hfresh
        hinputs
      obtain ⟨hfee', hsize'⟩ := hroomy c f hold
      exact ⟨hfee'.trans hfee.symm, hsize'.trans hsize.symm⟩

theorem counted_of_tried {tried : List Attempt} {m' : Mempool} (h : Tried rates sha256 m tried m')
    (hm : Accounted sha256 m) (hcounted : AncestorsCounted m.transactions)
    (ha : ∀ a ∈ tried, CountedAttempt rates sha256 a) : AncestorsCounted m'.transactions := by
  induction h with
  | nil => exact hcounted
  | @snoc tried a h ih =>
    have hbefore := ih fun b hb => ha b (List.mem_append_left [a] hb)
    exact (ha a (by simp)).counted (h.accounted hm) hbefore

theorem map_setSigopCost {β : Type} (core : MempoolEntry → β)
    (hcore : ∀ e cost, core { e with sigopCost := cost } = core e) (txid p : Bytes32) (cost : ℕ) :
    ((m.setSigopCost txid cost).transactions.lookup p).map core =
      (m.transactions.lookup p).map core := by
  rw [lookup_setSigopCost]
  by_cases hp : p = txid
  · rw [if_pos hp, Option.map_map]
    refine congrArg (fun g => Option.map g _) (funext fun e => ?_)
    exact hcore e cost
  · rw [if_neg hp]

theorem ancestor_of_same_txs {pool' : Pool} {tx : Transaction}
    (h : ∀ p, (pool'.lookup p).map MempoolEntry.tx = (pool.lookup p).map MempoolEntry.tx) {p : Bytes32}
    (hp : Ancestor pool tx p) : Ancestor pool' tx p := by
  have hentry : ∀ {a : Bytes32} {e : MempoolEntry}, pool.lookup a = some e →
      ∃ e', pool'.lookup a = some e' ∧ e'.tx = e.tx := by
    intro a e he
    have heq := h a
    rw [he, Option.map_some, Option.map_eq_some_iff] at heq
    exact heq
  have hmem : ∀ {a : Bytes32}, a ∈ pool → a ∈ pool' := by
    intro a ha
    obtain ⟨e, he⟩ := (mem_iff_lookup _ _).mp ha
    obtain ⟨e', he', -⟩ := hentry he
    exact (mem_iff_lookup _ _).mpr ⟨e', he'⟩
  induction hp with
  | parent hi hin => exact .parent hi (hmem hin)
  | further _ he hj hin ih =>
    obtain ⟨e', he', htx⟩ := hentry he
    exact .further ih he' (htx ▸ hj) (hmem hin)

theorem AncestorsCounted.setSigopCost (h : AncestorsCounted m.transactions) (txid : Bytes32) (cost : ℕ) :
    AncestorsCounted (m.setSigopCost txid cost).transactions := by
  have htxs := fun p => map_setSigopCost (m := m) MempoolEntry.tx (fun _ _ => rfl) txid p cost
  have hsums := fun p => map_setSigopCost (m := m) (fun e => (e.fee, e.size)) (fun _ _ => rfl) txid p
    cost
  intro a e ha
  obtain ⟨e₀, he₀, heq⟩ := lookup_of_setSigopCost ha
  obtain ⟨hfee, hsize⟩ := package_congr e₀.tx e₀.fee e₀.size
    (fun p => ⟨ancestor_of_same_txs fun p => (htxs p).symm, ancestor_of_same_txs htxs⟩)
    fun p _ => hsums p
  rw [heq]
  simp only
  rw [hfee, hsize]
  exact h a e₀ he₀

/-- The entries that go because a block spends what they spend: the conflicting ones, and
their descendants up to the confirmed ones. -/
inductive Doomed (sha256 : Sha256) (pool : Pool) (b : Block) : Bytes32 → Prop where
  | root {txid : Bytes32} {e : MempoolEntry} (he : pool.lookup txid = some e)
      (hnot : txid ∉ confirmedTxids sha256 b) {i : TxInput} (hi : i ∈ e.tx.inputs)
      (hspent : i.prevOutput ∈ confirmedSpends b) : Doomed sha256 pool b txid
  | child {p txid : Bytes32} {e : MempoolEntry} (hp : Doomed sha256 pool b p)
      (he : pool.lookup txid = some e) (hspends : e.spends p = true)
      (hnot : txid ∉ confirmedTxids sha256 b) : Doomed sha256 pool b txid

theorem Doomed.not_confirmed (h : Doomed sha256 pool b txid) : txid ∉ confirmedTxids sha256 b := by
  cases h with
  | root _ hnot _ _ => exact hnot
  | child _ _ _ hnot => exact hnot

theorem mem_exactConfirmed : txid ∈ exactConfirmed call sha256 m b ↔
      txid ∈ m.transactions ∧ txid ∈ confirmedTxids sha256 b := by
  unfold exactConfirmed
  simp only [List.mem_filter, List.mem_map, decide_eq_true_eq, and_congr_left_iff]
  intro _
  rw [mem_iff_lookup]
  constructor
  · rintro ⟨⟨txid', e⟩, hkv, rfl⟩
    exact ⟨e, ((call.lists _).mem _ e).mp hkv⟩
  · rintro ⟨e, he⟩
    exact ⟨(txid, e), ((call.lists _).mem _ e).mpr he, rfl⟩

theorem mem_conflictingRoots : txid ∈ conflictingRoots call sha256 m b ↔ ∃ e, m.transactions.lookup txid = some e ∧
      txid ∉ confirmedTxids sha256 b ∧ ∃ i ∈ e.tx.inputs, i.prevOutput ∈ confirmedSpends b := by
  unfold conflictingRoots
  simp only [List.mem_map, List.mem_filter, decide_eq_true_eq, List.any_eq_true]
  constructor
  · rintro ⟨⟨txid', e⟩, ⟨hkv, hnot, hi⟩, rfl⟩
    exact ⟨e, ((call.lists _).mem _ e).mp hkv, hnot, hi⟩
  · rintro ⟨e, he, hnot, hi⟩
    exact ⟨(txid, e), ⟨((call.lists _).mem _ e).mpr he, hnot, hi⟩, rfl⟩

theorem toRemove_eq_markFrom : toRemove call sha256 m b = markFrom (children call m.transactions)
      (1 + m.transactions.keys.card) (conflictingRoots call sha256 m b)
      (exactConfirmed call sha256 m b) :=
  rfl

theorem mem_toRemove_of_doomed (h : Doomed sha256 m.transactions b txid) : txid ∈ toRemove call sha256 m b := by
  rw [toRemove_eq_markFrom]
  induction h with
  | root he hnot hi hspent =>
    exact roots_subset_markFrom _ _ _ (mem_conflictingRoots.mpr ⟨_, he, hnot, _, hi, hspent⟩)
  | child hp he hspends hnot ih =>
    refine markFrom_closed children_known le_rfl _ ih ?_ _ (mem_children.mpr ⟨_, he, hspends⟩)
    exact fun hin => hp.not_confirmed (mem_exactConfirmed.mp hin).2

/-- The condition on an operation. -/
def CountedOp (rates : FeeRates) (sha256 : Sha256) (m : Mempool) : Op → Prop
  | .clear => True
  | .removeTransaction txid =>
      txid ∈ m.transactions → ∀ c f, m.transactions.lookup c = some f → c ≠ txid →
        f.spends txid = false
  | .removeBlockTransactions _ b =>
      ∀ p c f, p ∈ m.transactions → p ∈ confirmedTxids sha256 b →
        m.transactions.lookup c = some f → f.spends p = true →
        c ∈ confirmedTxids sha256 b ∨ Doomed sha256 m.transactions b c
  | .expireOldEntries call =>
      ∀ p e c f, m.transactions.lookup p = some e → m.transactions.lookup c = some f →
        f.spends p = true → e.addedTime < saturatingSub call.now mempoolExpirySecs →
        f.addedTime < saturatingSub call.now mempoolExpirySecs
  | op => ∀ a ∈ op.attempts rates sha256 m, CountedAttempt rates sha256 a

theorem AncestorsCounted.removeAll {txids : List Bytes32} (h : AncestorsCounted m.transactions)
    (hclosed : ∀ p e c f, m.transactions.lookup p = some e → m.transactions.lookup c = some f →
      f.spends p = true → p ∈ txids → c ∈ txids) : AncestorsCounted (m.removeAll txids).transactions :=
  h.part (fun _ _ hc => (lookup_of_removeAll hc).2) (noDangling_removeAll hclosed)

theorem counted_of_adds (hadds : op.adds = true) (hm : Accounted sha256 m) (hcounted : AncestorsCounted m.transactions)
    (h : ∀ a ∈ op.attempts rates sha256 m, CountedAttempt rates sha256 a) :
    AncestorsCounted (op.apply rates sha256 m).transactions := by
  obtain ⟨m', htried, heq | ⟨txid, cost, heq⟩⟩ := apply_of_adds rates hadds
  · rw [heq]
    exact counted_of_tried htried hm hcounted h
  · rw [heq]
    exact (counted_of_tried htried hm hcounted h).setSigopCost txid cost

theorem AncestorsCounted.apply (hm : Accounted sha256 m) (hcounted : AncestorsCounted m.transactions)
    (h : CountedOp rates sha256 m op) : AncestorsCounted (op.apply rates sha256 m).transactions := by
  cases op with
  | clear =>
    intro c f hc
    change (∅ : Pool).lookup c = some f at hc
    simp at hc
  | removeTransaction txid =>
    have hclosed : ∀ p e c f, m.transactions.lookup p = some e →
        m.transactions.lookup c = some f → f.spends p = true → p ∈ [txid] → c ∈ [txid] := by
      intro p e c f he hf hspends hin
      rw [List.mem_singleton] at hin ⊢
      subst hin
      by_contra hne
      have hnot := h ((mem_iff_lookup _ _).mpr ⟨e, he⟩) c f hf hne
      rw [hspends] at hnot
      cases hnot
    exact hcounted.removeAll hclosed
  | removeBlockTransactions call b =>
    refine AncestorsCounted.removeAll hcounted fun p e c f he hf hspends hin => ?_
    by_cases hconf : p ∈ exactConfirmed call sha256 m b
    · obtain ⟨hp, hb⟩ := mem_exactConfirmed.mp hconf
      rcases h p c f hp hb hf hspends with hc | hc
      · rw [toRemove_eq_markFrom]
        exact subset_markFrom _ _ _
          (mem_exactConfirmed.mpr ⟨(mem_iff_lookup _ _).mpr ⟨f, hf⟩, hc⟩)
      · exact mem_toRemove_of_doomed hc
    · rw [toRemove_eq_markFrom] at hin ⊢
      exact markFrom_closed children_known le_rfl p hin hconf c (mem_children.mpr ⟨f, hf, hspends⟩)
  | expireOldEntries call =>
    refine AncestorsCounted.removeAll hcounted fun p e c f he hf hspends hin => ?_
    obtain ⟨e', he', hold⟩ := mem_expired.mp hin
    rw [he] at he'
    cases he'
    exact mem_expired.mpr ⟨f, hf, h p e c f he hf hspends hold⟩
  | addTransactionWithFee call tx fee => exact counted_of_adds rfl hm hcounted h
  | addTransactionChecked call tx fee u => exact counted_of_adds rfl hm hcounted h
  | addPackage calls txs => exact counted_of_adds rfl hm hcounted h
  | load calls decode file => exact counted_of_adds rfl hm hcounted h

/-- Every operation of a sequence meets the condition in the pool it finds. -/
def CountedOps (rates : FeeRates) (sha256 : Sha256) : Mempool → List Op → Prop
  | _, [] => True
  | m, op :: ops =>
      CountedOp rates sha256 m op ∧ CountedOps rates sha256 (op.apply rates sha256 m) ops

/-- After every sequence of operations that meet the condition, every entry carries the sums
of its package. -/
theorem run_ancestors_counted (maxSize : ℕ) (ops : List Op) (h : CountedOps rates sha256 (Mempool.new maxSize) ops) :
    AncestorsCounted (run rates sha256 maxSize ops).transactions := by
  have hfold : ∀ m, Accounted sha256 m → AncestorsCounted m.transactions →
      CountedOps rates sha256 m ops →
      AncestorsCounted (ops.foldl (fun m op => op.apply rates sha256 m) m).transactions := by
    clear h
    induction ops with
    | nil => exact fun m _ hcounted _ => hcounted
    | cons op ops ih =>
      intro m hm hcounted hops
      exact ih _ (hm.apply op) (AncestorsCounted.apply hm hcounted hops.1) hops.2
  refine hfold _ (accounted_empty maxSize) ?_ h
  intro c f hc
  simp [Mempool.new] at hc

end Operations

section Families

theorem countedAttempt_plain {rates : FeeRates} {sha256 : Sha256} {a : Attempt}
    (hfree : ∀ txid e, a.pool.transactions.lookup txid = some e →
      ∀ i ∈ a.tx.inputs, ∀ j ∈ e.tx.inputs, j.prevOutput ≠ i.prevOutput)
    (hunspent : ∀ c f, a.pool.transactions.lookup c = some f → f.spends (a.tx.txid sha256) = false)
    (hacyclic : ∀ i ∈ a.tx.inputs, i.prevOutput.txid ≠ a.tx.txid sha256)
    (hfits : a.pool.currentSize + txSize a.tx ≤ a.pool.maxSize)
    (hfee : a.fee.toNat + total (fun e => e.fee.toNat) a.pool.transactions < 2 ^ 64) :
    CountedAttempt rates sha256 a := by
  have hpool : replacedPool a.call a.pool a.tx = a.pool := by
    rw [replacedPool, allEvict, conflicts_of_free a.call hfree]
    rfl
  refine ⟨fun _ => ?_, fun _ => hacyclic, fun _ => ?_, fun _ => ?_⟩
  · rw [hpool]
    exact hunspent
  · rw [hpool]
    exact Or.inl hfits
  · rw [hpool]
    exact lt_of_le_of_lt packageFee_le hfee

/-- A parent and then its child. -/
theorem family_counted : AncestorsCounted (family 0 0).transactions := by
  have hsizes : txSize parentTx ≤ 1000 ∧ txSize childTx ≤ 1000 := by decide
  refine run_ancestors_counted 100000 _ ⟨?_, ?_, trivial⟩
  · intro a ha
    simp only [Op.attempts, relayPolicy_ok hsizes.1, List.mem_singleton] at ha
    subst ha
    refine countedAttempt_plain ?_ ?_ ?_ ?_ ?_
    · exact fun _ _ h => by simp [Mempool.new] at h
    · exact fun _ _ h => by simp [Mempool.new] at h
    · rw [parentTx_txid]
      decide
    · decide
    · decide
  · rw [apply_first _ hsizes.1, parentTx_txid]
    intro a ha
    simp only [Op.attempts, relayPolicy_ok hsizes.2, List.mem_singleton] at ha
    subst ha
    refine countedAttempt_plain ?_ ?_ ?_ ?_ ?_
    · intro txid e he
      rcases lookup_of_insertEntry he with ⟨-, rfl⟩ | ⟨-, he⟩
      · decide
      · simp [Mempool.new] at he
    · intro c f hc
      rcases lookup_of_insertEntry hc with ⟨-, rfl⟩ | ⟨-, hc⟩
      · rw [childTx_txid]
        decide
      · simp [Mempool.new] at hc
    · rw [childTx_txid]
      decide
    · decide
    · decide

/-- A child and then its parent: the child keeps the sums of a transaction without ancestors. -/
theorem late_parent_not_counted : ¬ AncestorsCounted (run exactRates Sha256.sha256 100000
      [.addTransactionWithFee (callAt 0) childTx 1000,
        .addTransactionWithFee (callAt 0) parentTx 1000]).transactions := by
  have hids : parentTx.txid Sha256.sha256 ≠ childTx.txid Sha256.sha256 := by
    rw [childTx_txid, parentTx_txid]
    decide
  rw [run_pair _ _ hids (by decide) (by decide) (by decide), childTx_txid, parentTx_txid]
  generalize hpool : ((Mempool.new 100000).insertEntry childTxid (newEntry (callAt 0) childTx 1000 ∅)).insertEntry
    parentTxid (newEntry (callAt 0) parentTx 1000
      ((∅ : Pool).insert childTxid (newEntry (callAt 0) childTx 1000 ∅))) = m
  have hlook : ∀ a, m.transactions.lookup a =
      if a = parentTxid then some (newEntry (callAt 0) parentTx 1000
        ((∅ : Pool).insert childTxid (newEntry (callAt 0) childTx 1000 ∅)))
      else if a = childTxid then some (newEntry (callAt 0) childTx 1000 ∅) else none := by
    intro a
    rw [← hpool]
    change (Finmap.insert parentTxid _ ((∅ : Pool).insert childTxid _)).lookup a = _
    rw [lookup_insert_eq, lookup_insert_eq, Finmap.lookup_empty]
  have hparent : m.transactions.lookup parentTxid = some (newEntry (callAt 0) parentTx 1000
      ((∅ : Pool).insert childTxid (newEntry (callAt 0) childTx 1000 ∅))) := by
    rw [hlook, if_pos rfl]
  have hchild : m.transactions.lookup childTxid = some (newEntry (callAt 0) childTx 1000 ∅) := by
    rw [hlook, if_neg (by decide), if_pos rfl]
  have hanc : parentTxid ∈ ancestors m.transactions childTx :=
    mem_ancestors.mpr (.parent (i := inputOf ⟨parentTxid, 0⟩) (by simp [childTx])
      ((mem_iff_lookup _ _).mpr ⟨_, hparent⟩))
  intro h
  have hfee := (h childTxid _ hchild).1
  have hle := Finset.single_le_sum
    (f := fun p => (m.transactions.lookup p).elim 0 fun e => e.fee.toNat) (fun _ _ => Nat.zero_le _)
    hanc
  simp only [hparent, Option.elim_some] at hle
  have hown : (newEntry (callAt 0) childTx 1000 ∅).ancestorFee.toNat = 1000 := by decide
  have hpaid : (newEntry (callAt 0) parentTx 1000
      ((∅ : Pool).insert childTxid (newEntry (callAt 0) childTx 1000 ∅))).fee.toNat = 1000 := rfl
  have hself : (newEntry (callAt 0) childTx 1000 ∅).fee.toNat = 1000 := rfl
  rw [packageFee, hown, hself] at hfee
  have htx : (newEntry (callAt 0) childTx 1000 ∅).tx = childTx := rfl
  rw [htx] at hfee
  omega

end Families

end KuberCoin.AncestorPackages
