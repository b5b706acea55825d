import KuberCoin.StoredBodies

/-!
The chain a node is on.
After a run in which every call succeeded, the height map lists one chain from genesis
to the tip, the blocks found under its hashes are linked, and the UTXO set is what
applying them one after the other to the empty set leaves.
-/
namespace KuberCoin.BestChain

open Bytes Maps Transactions Blocks UtxoSets Params Difficulty Validator Storage NodeStates
  NodeStates.NodeState AddBlock Frames BlockEffects StepCases Runs Branches ChainInvariants
  StoredBodies

variable {cx : Context}

section Replay

variable {u : UtxoSet} {bs : List Block} {b : Block}

/-- Apply blocks one after the other, up to the first that fails. -/
def applyBlocks (sha256 : Sha256) : UtxoSet → List Block → Except ChainError Unit × UtxoSet
  | u, [] => (.ok (), u)
  | u, b :: rest =>
      match applyBlock sha256 u b with
      | (.error e, u') => (.error e, u')
      | (.ok (), u') => applyBlocks sha256 u' rest

theorem applyBlocks_append {sha256 : Sha256} {u' u'' : UtxoSet} (h : applyBlocks sha256 u bs = (.ok (), u'))
    (hb : applyBlock sha256 u' b = (.ok (), u'')) : applyBlocks sha256 u (bs ++ [b]) = (.ok (), u'') := by
  induction bs generalizing u with
  | nil =>
    simp only [applyBlocks, Prod.mk.injEq, true_and] at h
    subst h
    simp [applyBlocks, hb]
  | cons a rest ih =>
    rw [applyBlocks] at h
    split at h
    next => simp at h
    next u₁ hu₁ =>
      rw [List.cons_append, applyBlocks, hu₁]
      exact ih h

theorem ValidBranch.replay (h : ValidBranch cx bs u) : applyBlocks cx.sha256 ∅ bs.reverse = (.ok (), u) := by
  induction h with
  | genesis happly => simp [applyBlocks, happly]
  | extend hbranch hprev hheight hvalid happly ih =>
    rw [List.reverse_cons]
    apply applyBlocks_append ih
    rw [applyBlock_eq, happly]
    rfl

theorem ValidBranch.linked (h : ValidBranch cx bs u) {i : ℕ} {a : Block} (ha : bs.reverse[i]? = some a)
    (hb : bs.reverse[i + 1]? = some b) : b.header.prevHash = a.hash cx.sha256 := by
  induction h with
  | genesis happly => simp at hb
  | @extend c parent rest _ _ _ _ _ hbranch hprev hheight hvalid happly ih =>
    rw [List.reverse_cons, List.getElem?_append, List.length_reverse] at ha hb
    by_cases hi : i + 1 < (parent :: rest).length
    · rw [if_pos hi] at hb
      rw [if_pos (by omega)] at ha
      exact ih ha hb
    · rw [if_neg hi] at hb
      have htop : i + 1 = (parent :: rest).length := by
        have := (List.getElem?_eq_some_iff.mp hb).1
        simp only [List.length_singleton] at this
        omega
      rw [htop, Nat.sub_self, List.getElem?_cons_zero, Option.some.injEq] at hb
      rw [if_pos (by omega), List.reverse_cons, List.getElem?_append_right (by simp at htop ⊢; omega)] at ha
      have hzero : i - rest.reverse.length = 0 := by
        rw [List.length_reverse]
        simp only [List.length_cons] at htop
        omega
      rw [hzero, List.getElem?_cons_zero, Option.some.injEq] at ha
      rw [← hb, ← ha]
      exact hprev

end Replay

variable (cx) in
/-- The node is on `chain`, a list from genesis to the tip. -/
structure Consistent (s : NodeState) (chain : List Block) : Prop where
  keys : ∀ i, i ∈ s.heightMap ↔ i ≤ s.height
  entries : ∀ i, s.heightMap.lookup i = (chain[i]?).map (Block.hash cx.sha256)
  genesis : chain[0]? = some cx.genesis
  tip : s.heightMap.lookup s.height = some s.tip
  found : ∀ i b, chain[i]? = some b → ∃ x, s.getBlock (b.hash cx.sha256) = some x ∧
    x.header = b.header ∧ (0 < i → x = b)
  linked : ∀ i a b, chain[i]? = some a → chain[i + 1]? = some b →
    b.header.prevHash = a.hash cx.sha256
  replayed : applyBlocks cx.sha256 ∅ chain = (.ok (), s.utxoSet)

theorem eq_of_found {calls : List Call} (hcf : CollisionFree cx (Known cx calls))
    (hsame : ∀ c ∈ calls, ∀ c' ∈ calls, c.block.hash cx.sha256 = c'.block.hash cx.sha256 →
      c.block = c'.block) {b x : Block} (hb : Known cx calls b) (hx : Known cx calls x)
    (hhash : x.hash cx.sha256 = b.hash cx.sha256) (hheight : 0 < b.header.height) : x = b := by
  have hheader := hcf.header_eq x b hx hb hhash
  have hgenesis : ∀ y : Block, y.header = b.header → y ≠ cx.genesis := by
    intro y hy heq
    rw [← hy, heq] at hheight
    exact absurd hheight (by decide : ¬ 0 < 0)
  rcases hb with rfl | ⟨c, hc, rfl⟩
  · exact absurd rfl (hgenesis _ rfl)
  · rcases hx with rfl | ⟨c', hc', rfl⟩
    · exact absurd rfl (hgenesis _ hheader)
    · exact hsame c' hc' c hc hhash

theorem consistent_of_branch {s : NodeState} {bs : List Block} (hbranch : ValidBranch cx bs s.utxoSet)
    (htip : (hashes cx bs).head? = some s.tip) (hheight : bs.length = s.height + 1)
    (hmap : ∀ i, s.heightMap.lookup i = (hashes cx bs).reverse[i]?)
    (hfound : ∀ i b, bs.reverse[i]? = some b → ∃ x, s.getBlock (b.hash cx.sha256) = some x ∧
      x.header = b.header ∧ (0 < i → x = b)) : Consistent cx s bs.reverse := by
  refine ⟨?_, ?_, ?_, ?_, hfound, ?_, ValidBranch.replay hbranch⟩
  · intro i
    rw [mem_iff_lookup]
    constructor
    · rintro ⟨h, hi⟩
      have := (List.getElem?_eq_some_iff.mp ((hmap i).symm.trans hi)).1
      rw [List.length_reverse, hashes_length] at this
      omega
    · intro hi
      refine ⟨_, (hmap i).trans (List.getElem?_eq_getElem ?_)⟩
      rw [List.length_reverse, hashes_length]
      omega
  · intro i
    rw [hmap, hashes, ← List.map_reverse, List.getElem?_map]
  · obtain ⟨pre, b, hsplit⟩ : ∃ pre b, bs = pre ++ [b] := by
      obtain ⟨b, rest, rfl⟩ := hbranch.exists_cons
      exact ⟨_, _, (List.dropLast_append_getLast (List.cons_ne_nil b rest)).symm⟩
    subst hsplit
    rw [hbranch.last]
    simp
  · obtain ⟨t, rest, rfl⟩ := hbranch.exists_cons
    rw [List.length_cons] at hheight
    rw [hmap, hashes_reverse_cons, List.getElem?_append_right, List.length_reverse,
      hashes_length, show s.height - rest.length = 0 by omega]
    · exact htip
    · rw [List.length_reverse, hashes_length]
      omega
  · intro i a b ha hb
    exact ValidBranch.linked hbranch ha hb

theorem run_consistent_branch {s : NodeState} {calls : List Call} (hrun : Run cx s calls)
    (hok : ∀ c ∈ calls, ∃ x, c.result = .ok x) (hprune : cx.pruneDepth = none) (hcf : CollisionFree cx (Known cx calls))
    (hsame : ∀ c ∈ calls, ∀ c' ∈ calls, c.block.hash cx.sha256 = c'.block.hash cx.sha256 →
      c.block = c'.block) : ∃ bs, ValidBranch cx bs s.utxoSet ∧ Consistent cx s bs.reverse := by
  have hknown : ∀ c ∈ calls, Known cx calls c.block := fun c hc => Or.inr ⟨c, hc, rfl⟩
  obtain ⟨⟨hstore, bs, hbs⟩, -⟩ := run_nodeInv hcf hrun hknown (fun c hc => Or.inl (hok c hc))
  have hbody : BodyInv (fun _ => False) s :=
    (run_bodyInv hprune hrun (fun c hc => ⟨fun h => h.elim, Or.inr (hok c hc)⟩)).1
  refine ⟨bs, hbs.branch, consistent_of_branch hbs.branch hbs.tip hbs.height hbs.heightMap ?_⟩
  intro i b hb
  have hmap : s.heightMap.lookup i = some (b.hash cx.sha256) := by
    rw [hbs.heightMap, hashes, ← List.map_reverse, List.getElem?_map, hb]
    rfl
  obtain ⟨x, hx, -⟩ := hbody.stored i _ hmap
  have hget : s.getBlock (b.hash cx.sha256) = some x := (hbody.getBlock _).trans hx
  obtain ⟨hhash, hKx, -⟩ := hstore.getBlock _ _ hget
  have hKb := hbs.known b (List.mem_reverse.mp (List.mem_of_getElem? hb))
  refine ⟨x, hget, hcf.header_eq x b hKx hKb hhash, ?_⟩
  intro hi
  apply eq_of_found hcf hsame hKb hKx hhash
  rw [hbs.branch.height_getElem? hb]
  exact hi

/-- After a run of successful calls without pruning, in which blocks with equal hashes are
equal, the node is on one chain. -/
theorem run_consistent {s : NodeState} {calls : List Call} (hrun : Run cx s calls)
    (hok : ∀ c ∈ calls, ∃ x, c.result = .ok x) (hprune : cx.pruneDepth = none) (hcf : CollisionFree cx (Known cx calls))
    (hsame : ∀ c ∈ calls, ∀ c' ∈ calls, c.block.hash cx.sha256 = c'.block.hash cx.sha256 →
      c.block = c'.block) : ∃ chain, Consistent cx s chain := by
  obtain ⟨bs, -, hbs⟩ := run_consistent_branch hrun hok hprune hcf hsame
  exact ⟨bs.reverse, hbs⟩

theorem switched_consistent : ∃ s calls chain, Run scriptNode s calls ∧ s.height = 2 ∧
      calls.map Call.block = [firstBranch, firstBranch, paidBranch, spendingTip] ∧
      Consistent scriptNode s chain := by
  obtain ⟨s, calls, o, -, h⟩ := exists_switched
  obtain ⟨chain, hchain⟩ := run_consistent h.fullRun (fun c hc => (h.calm c hc).result) rfl
    (Switched.collisionFree h) (Switched.same h)
  exact ⟨_, _, chain, h.fullRun, h.height, h.blocks, hchain⟩

end KuberCoin.BestChain
