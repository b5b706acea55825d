import KuberCoin.PostOrders
import KuberCoin.PoolEvictions
import KuberCoin.Templates

/-!
The transactions of a block template. Each package is collected over the parents in the pool, without
what was selected before, and goes behind it as a whole or not at all: so parents come first, nothing
comes twice, and both budgets hold.
-/
namespace KuberCoin.TemplateOrders

open Bytes Maps Transactions Worklists Validator Mempools Mempool PoolAccounting PoolEvictions Templates PostOrders

section Packages

variable {sha256 : Sha256} {pool : Pool} {selected : List Bytes32}

theorem collectPackage_eq (fuel : ℕ) (tx : Transaction) (out : List Bytes32) :
    collectPackage pool selected fuel tx out =
      collect (parents pool) selected fuel (tx.inputs.map fun i => i.prevOutput.txid) out := by
  induction fuel generalizing tx out with
  | zero => rfl
  | succ fuel ih =>
    rw [collectPackage, collect, List.foldl_map]
    congr 1
    funext out i
    dsimp only
    cases hp : pool.lookup i.prevOutput.txid with
    | none => simp [parents, hp]
    | some e => simp [parents, hp, ih]

/-- No transaction of the pool is its own ancestor. -/
def AcyclicPool (pool : Pool) : Prop := Acyclic (parents pool)

theorem package_ordered (acyclic : AcyclicPool pool) {e : MempoolEntry} {txid : Bytes32}
    (he : pool.lookup txid = some e) (hnew : txid ∉ selected) :
    Ordered (parents pool) selected (collectPackage pool selected (pool.keys.card + 1) e.tx [] ++ [txid]) := by
  have hparents : parents pool txid = some (e.tx.inputs.map fun i => i.prevOutput.txid) := by
    rw [parents, he]
    rfl
  have hknown : ∀ x, parents pool x ≠ none → x ∈ pool.keys := by
    intro x hx
    exact Finmap.mem_keys.mpr (parents_ne_none.mp hx)
  have hwithin : Within (parents pool) (pool.keys.card + 1) (e.tx.inputs.map fun i => i.prevOutput.txid) :=
    within_of_acyclic acyclic hknown (Nat.le_succ _)
  rw [collectPackage_eq]
  exact (collected_visit acyclic hparents ⟨hnew, List.not_mem_nil⟩
    (collect_collected acyclic hwithin trivial)).ordered

end Packages

section Selection

variable {sha256 : Sha256} {pool : Pool} {maxWeight : ℕ} {s : Selected} {pkg : List Bytes32}

/-- The weight of the entries of a list of txids. -/
def weightOf (pool : Pool) (txids : List Bytes32) : ℕ := ((txids.filterMap pool.lookup).map fun e => e.size * 4).sum

def sigopsOf (pool : Pool) (txids : List Bytes32) : ℕ := ((txids.filterMap pool.lookup).map MempoolEntry.sigopCost).sum

theorem weightOf_append (txids txids' : List Bytes32) :
    weightOf pool (txids ++ txids') = weightOf pool txids + weightOf pool txids' := by
  rw [weightOf, List.filterMap_append, List.map_append, List.sum_append]
  rfl

theorem sigopsOf_append (txids txids' : List Bytes32) :
    sigopsOf pool (txids ++ txids') = sigopsOf pool txids + sigopsOf pool txids' := by
  rw [sigopsOf, List.filterMap_append, List.map_append, List.sum_append]
  rfl

theorem weightOf_singleton (txid : Bytes32) : weightOf pool [txid] = (pool.lookup txid).elim 0 fun e => e.size * 4 := by
  cases h : pool.lookup txid with
  | none => simp [weightOf, h]
  | some e => simp [weightOf, h]

theorem sigopsOf_singleton (txid : Bytes32) :
    sigopsOf pool [txid] = (pool.lookup txid).elim 0 MempoolEntry.sigopCost := by
  cases h : pool.lookup txid with
  | none => simp [sigopsOf, h]
  | some e => simp [sigopsOf, h]

/-- What has been selected at any time: an order of entries within the budgets. -/
structure Chosen (pool : Pool) (maxWeight : ℕ) (s : Selected) : Prop where
  ordered : Ordered (parents pool) [] s.order
  weight : s.totalWeight = weightOf pool s.order
  sigops : s.totalSigops = sigopsOf pool s.order
  light : s.totalWeight ≤ maxWeight
  cheap : s.totalSigops ≤ maxBlockSigopsCost

theorem chosen_nothing : Chosen pool maxWeight ⟨[], 0, 0⟩ :=
  ⟨trivial, rfl, rfl, Nat.zero_le _, Nat.zero_le _⟩

theorem foldl_push (h : Ordered (parents pool) s.order pkg) : pkg.foldl (Selected.push pool) s =
      ⟨s.order ++ pkg, s.totalWeight + weightOf pool pkg, s.totalSigops + sigopsOf pool pkg⟩ := by
  induction pkg generalizing s with
  | nil =>
    rw [List.append_nil]
    rfl
  | cons txid rest ih =>
    obtain ⟨⟨hnew, -, -⟩, htail⟩ := h
    have hpush : Selected.push pool s txid = ⟨s.order ++ [txid], s.totalWeight + weightOf pool [txid],
        s.totalSigops + sigopsOf pool [txid]⟩ := by
      rw [Selected.push, if_neg hnew, weightOf_singleton, sigopsOf_singleton]
    have hsplit : txid :: rest = [txid] ++ rest := rfl
    rw [List.foldl_cons, hpush, ih htail, hsplit, weightOf_append, sigopsOf_append, List.append_assoc,
      Nat.add_assoc, Nat.add_assoc]

theorem Chosen.append (h : Chosen pool maxWeight s) (hpkg : Ordered (parents pool) s.order pkg)
    (light : s.totalWeight + weightOf pool pkg ≤ maxWeight)
    (cheap : s.totalSigops + sigopsOf pool pkg ≤ maxBlockSigopsCost) : Chosen pool maxWeight
      ⟨s.order ++ pkg, s.totalWeight + weightOf pool pkg, s.totalSigops + sigopsOf pool pkg⟩ where
  ordered := ordered_append.mpr ⟨h.ordered, hpkg⟩
  weight := by rw [weightOf_append, h.weight]
  sigops := by rw [sigopsOf_append, h.sigops]
  light := light
  cheap := cheap

theorem Chosen.consider (h : Chosen pool maxWeight s) (acyclic : AcyclicPool pool) {entry : MempoolEntry}
    (hentry : pool.lookup (entry.tx.txid sha256) = some entry) :
    Chosen pool maxWeight (s.consider sha256 pool maxWeight entry) := by
  unfold Selected.consider
  dsimp only
  split_ifs with hin hheavy hcostly
  · exact h
  · exact h
  · exact h
  · have hpkg := package_ordered acyclic hentry hin
    rw [foldl_push hpkg]
    exact h.append hpkg (Nat.not_lt.mp hheavy) (Nat.not_lt.mp hcostly)

theorem chosen_of_candidates (acyclic : AcyclicPool pool) {entries : List MempoolEntry}
    (hentries : ∀ e ∈ entries, pool.lookup (e.tx.txid sha256) = some e) (h : Chosen pool maxWeight s) :
    Chosen pool maxWeight (entries.foldl (Selected.consider sha256 pool maxWeight) s) := by
  induction entries generalizing s with
  | nil => exact h
  | cons e rest ih =>
    exact ih (fun e' he' => hentries e' (List.mem_cons_of_mem _ he'))
      (h.consider acyclic (hentries e (List.mem_cons_self ..)))

end Selection

section Templates

variable {rates : FeeRates} {call : Call} {sha256 : Sha256} {m : Mempool} {maxWeight : ℕ} {pool : Pool}
  {order : List Bytes32}

/-- What a selection of transactions of a pool is to be. -/
structure Template (sha256 : Sha256) (pool : Pool) (maxWeight : ℕ) (txs : List Transaction) : Prop where
  members : ∀ tx ∈ txs, ∃ e, pool.lookup (tx.txid sha256) = some e ∧ e.tx = tx
  distinct : (txs.map (Transaction.txid sha256)).Nodup
  parentsFirst : ∀ before tx after, txs = before ++ tx :: after → ∀ i ∈ tx.inputs, i.prevOutput.txid ∈ pool →
    i.prevOutput.txid ∈ before.map (Transaction.txid sha256)
  light : weightOf pool (txs.map (Transaction.txid sha256)) ≤ maxWeight
  cheap : sigopsOf pool (txs.map (Transaction.txid sha256)) ≤ 80000

/-- The transactions of an order of entries. -/
def emitted (pool : Pool) (order : List Bytes32) : List Transaction :=
  order.filterMap fun txid => (pool.lookup txid).map MempoolEntry.tx

/-- Entries are stored under the txid of their transaction. -/
def Keyed (sha256 : Sha256) (pool : Pool) : Prop :=
  ∀ txid e, pool.lookup txid = some e → e.tx.txid sha256 = txid

theorem emitted_txids (keyed : Keyed sha256 pool) (known : ∀ txid ∈ order, parents pool txid ≠ none) :
    (emitted pool order).map (Transaction.txid sha256) = order := by
  induction order with
  | nil => rfl
  | cons txid rest ih =>
    obtain ⟨e, he⟩ := (mem_iff_lookup _ _).mp (parents_ne_none.mp (known txid (List.mem_cons_self ..)))
    have htail := ih fun id hid => known id (List.mem_cons_of_mem _ hid)
    rw [emitted, List.filterMap_cons, he]
    exact congrArg₂ List.cons (keyed txid e he) htail

theorem emitted_member (keyed : Keyed sha256 pool) {tx : Transaction} (h : tx ∈ emitted pool order) :
    ∃ e, pool.lookup (tx.txid sha256) = some e ∧ e.tx = tx := by
  obtain ⟨txid, -, hread⟩ := List.mem_filterMap.mp h
  obtain ⟨e, he, rfl⟩ := Option.map_eq_some_iff.mp hread
  rw [keyed txid e he]
  exact ⟨e, he, rfl⟩

theorem candidates_keyed (keyed : Keyed sha256 pool) :
    ∀ e ∈ candidates rates call pool, pool.lookup (e.tx.txid sha256) = some e := by
  intro e he
  obtain ⟨⟨txid, e'⟩, hkv, rfl⟩ := List.mem_map.mp ((List.mem_insertionSort _).mp he)
  have hlookup := ((call.lists pool).mem txid e').mp hkv
  rw [keyed txid e' hlookup]
  exact hlookup

theorem template_of_chosen (keyed : Keyed sha256 pool) {s : Selected} (h : Chosen pool maxWeight s) :
    Template sha256 pool maxWeight (emitted pool s.order) := by
  have txids := emitted_txids keyed h.ordered.known
  refine ⟨fun tx htx => emitted_member keyed htx, ?_, ?_, ?_, ?_⟩
  · rw [txids]
    exact h.ordered.fresh.1
  · intro before tx after hsplit i hi hin
    have hmem : tx ∈ emitted pool s.order := by
      rw [hsplit]
      simp
    obtain ⟨e, he, rfl⟩ := emitted_member keyed hmem
    have horder : s.order = before.map (Transaction.txid sha256) ++
        e.tx.txid sha256 :: after.map (Transaction.txid sha256) := by
      rw [← txids, hsplit, List.map_append, List.map_cons]
    have hedge : Edge (parents pool) (e.tx.txid sha256) i.prevOutput.txid := by
      refine ⟨e.tx.inputs.map fun i => i.prevOutput.txid, ?_, List.mem_map_of_mem hi⟩
      rw [parents, he]
      rfl
    exact (horder ▸ h.ordered).before hedge (parents_ne_none.mpr hin)
  · rw [txids, ← h.weight]
    exact h.light
  · rw [txids, ← h.sigops]
    exact h.cheap

/-- In every state of the pool in which no transaction is its own ancestor. -/
theorem selection_is_template (rates : FeeRates) (sha256 : Sha256) (maxSize : ℕ) (ops : List Op) (call : Call)
    (maxWeight : ℕ) (acyclic : AcyclicPool (run rates sha256 maxSize ops).transactions) :
    Template sha256 (run rates sha256 maxSize ops).transactions maxWeight
      (getBlockTransactions rates call sha256 (run rates sha256 maxSize ops) maxWeight) := by
  have keyed : Keyed sha256 (run rates sha256 maxSize ops).transactions :=
    (accounted_run rates sha256 maxSize ops).1.keyed
  exact template_of_chosen keyed (chosen_of_candidates acyclic (candidates_keyed keyed) chosen_nothing)

/-- The parent has no parent in the pool, and its child only this one. -/
theorem family_acyclic : AcyclicPool (family 0 0).transactions := by
  refine acyclic_of_rank (fun txid => if txid = childTxid then 2 else if txid = parentTxid then 1 else 0) ?_
  intro x y ⟨succs, hx, hy⟩
  rw [parents, family_lookup] at hx
  by_cases hchild : x = childTxid
  · rw [if_pos hchild] at hx
    cases hx
    obtain rfl : y = parentTxid := List.mem_singleton.mp hy
    rw [hchild]
    decide
  · by_cases hparent : x = parentTxid
    · rw [if_neg hchild, if_pos hparent] at hx
      cases hx
      obtain rfl : y = Bytes32.zero := List.mem_singleton.mp hy
      rw [hparent]
      decide
    · rw [if_neg hchild, if_neg hparent] at hx
      cases hx

theorem family_template : Template Sha256.sha256 (family 0 0).transactions 1000
    (getBlockTransactions exactRates (callAt 0) Sha256.sha256 (family 0 0) 1000) :=
  selection_is_template exactRates Sha256.sha256 100000 _ (callAt 0) 1000 family_acyclic

end Templates

end KuberCoin.TemplateOrders
