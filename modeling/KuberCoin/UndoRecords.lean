import KuberCoin.BestChain

/-!
The undo records a node keeps.
Persisting at a height deletes the records a hundred blocks and more below it. As long as
a node above that height never moves to a lower one, the records of the last hundred blocks
stay, and no permitted switch stops for a missing one.
-/
namespace KuberCoin.UndoRecords

open Bytes Maps Transactions Blocks UtxoSets Params Difficulty Validator Storage NodeStates
  NodeStates.NodeState AddBlock Frames BlockEffects StepCases Runs Branches ChainInvariants
  BestChain

/-- The last hundred blocks above genesis have undo records. -/
def UndoCover (s : NodeState) : Prop :=
  ∀ i h, s.heightMap.lookup i = some h → 0 < i → s.height < i + maxReorgDepth →
    (s.store.disk.undo.lookup h).isSome = true

/-- Given the undo records it needs, the call does not fail half-way. -/
structure Sound (cx : Context) (env : Env) (s : NodeState) (b : Block) : Prop where
  writes : ∀ log ops, env.writeOk log ops = true
  extend : Admitted cx env s b → b.header.prevHash = s.tip → validateTip cx env s b = .ok () →
    DistinctOutputs cx.sha256 b.transactions
  switch : Admitted cx env s b → b.header.prevHash ≠ s.tip →
    ∀ s₁, storeSide cx env s b (cumulativeWork s b) = some s₁ →
    compareWork (cumulativeWork s b) s.chainwork = .gt →
    ∀ disconnect connect, forkOf cx s₁ b = .ok (disconnect, connect) → Permitted cx s₁ disconnect →
    (∀ hash ∈ disconnect, (s₁.store.disk.undo.lookup hash).isSome = true) →
    ConnectsThrough cx env (disconnectBlocks s₁ disconnect).2 connect

/-- Above the height where records are deleted, a block with more work than the tip is not
lower than it. -/
def KeepsHeight (s : NodeState) (b : Block) : Prop :=
  maxReorgDepth < s.height → compareWork (cumulativeWork s b) s.chainwork = .gt →
    s.height ≤ b.header.height

variable {cx : Context} {K : Block → Prop}

section Records

variable {s : NodeState} {k : Bytes32} {bs : List Block}

theorem connectBlocks_undo {env : Env} {s' : NodeState} {l : List Bytes32} (h : connectBlocks cx env s l = (.ok (), s'))
    (hk : k ∈ l ∨ (s.store.disk.undo.lookup k).isSome = true) : (s'.store.disk.undo.lookup k).isSome = true := by
  induction l generalizing s with
  | nil =>
    simp only [connectBlocks, Prod.mk.injEq, true_and] at h
    subst h
    simpa using hk
  | cons hash rest ih =>
    rw [connectBlocks] at h
    split at h
    next => simp at h
    next s₁ hs₁ =>
      obtain ⟨b, undo, u, -, -, -, rfl⟩ := connectBlock_ok hs₁
      apply ih h
      change k ∈ rest ∨ ((s.store.disk.undo.insert hash undo).lookup k).isSome = true
      rw [lookup_insert_eq]
      rcases hk with hk | hk
      · rcases List.mem_cons.mp hk with rfl | hk
        · right
          rw [if_pos rfl]
          rfl
        · exact Or.inl hk
      · right
        split
        · rfl
        · exact hk

/-- The records persisting deletes are not those of the last hundred blocks. -/
theorem notMem_staleUndo (hcf : CollisionFree cx K) (h : ChainInv cx K s bs) {i : ℕ}
    (hk : s.heightMap.lookup i = some k) (hi : s.height < i + maxReorgDepth) : k ∉ staleUndo s s.height := by
  unfold staleUndo
  split
  · intro hmem
    obtain ⟨j, hj, hjk⟩ := List.mem_filterMap.mp hmem
    obtain ⟨x, hx, hxk⟩ := h.block_at hk
    obtain ⟨y, hy, hyk⟩ := h.block_at hjk
    have hij := h.branch.eq_of_hash hcf h.known hx hy (hxk.trans hyk.symm)
    rw [List.mem_range] at hj
    omega
  · simp

theorem undo_of_fork (hcf : CollisionFree cx K) {b : Block} (h : ChainInv cx K s bs) (hstore : StoreInv cx K s)
    (hcover : UndoCover s) {disconnect connect : List Bytes32} (hfork : forkOf cx s b = .ok (disconnect, connect))
    (hdepth : disconnect.length ≤ maxReorgDepth) :
    ∀ hash ∈ disconnect, (s.store.disk.undo.lookup hash).isSome = true := by
  obtain ⟨t, rest, rfl⟩ := h.branch.exists_cons
  have htip : t.hash cx.sha256 = s.tip := by
    have := h.tip
    simpa only [hashes, List.map_cons, List.head?_cons, Option.some.injEq] using this
  unfold forkOf at hfork
  rw [← htip] at hfork
  obtain ⟨old, f, common, trace, hsplit, rfl, rfl, -⟩ :=
    findForkBlocks_ok hcf hstore.getBlock h.branch h.known hfork
  intro hash hmem
  obtain ⟨j, hj⟩ := List.getElem?_of_mem (List.mem_reverse.mpr hmem)
  have hlen := h.height
  have hjlt := (List.getElem?_eq_some_iff.mp hj).1
  rw [List.length_reverse, hashes_length] at hjlt
  rw [hashes_length] at hdepth
  rw [hsplit, List.length_append, List.length_cons] at hlen
  -- the blocks above the fork point stand right after it in the height map
  have hat : s.heightMap.lookup ((f :: common).length + j) = some hash := by
    rw [h.heightMap, hsplit]
    simp only [hashes, List.map_append, List.reverse_append] at hj ⊢
    rw [List.getElem?_append_right (by simp), ← hj]
    congr 1
    simp
  apply hcover _ hash hat
  · simp
  · rw [List.length_cons]
    omega

end Records

section Steps

theorem UndoCover.extended (hcf : CollisionFree cx K) {s s' : NodeState} {b : Block} {bs : List Block}
    {undo : BlockUndoData} (h : UndoCover s) (hbs : ChainInv cx K s bs) (hbs' : ChainInv cx K s' (b :: bs))
    (hext : Extended cx s b undo s') : UndoCover s' := by
  intro i k hk hpos hi
  have hstale := notMem_staleUndo hcf hbs' hk hi
  rw [hext.undo, lookup_eraseAll, ← hext.height, if_neg hstale, lookup_insert_eq]
  split
  · rfl
  · rename_i hne
    have hlen := hbs.height
    have hlen' := hbs'.height
    rw [List.length_cons] at hlen'
    rw [hext.heightMap, lookup_insert_eq] at hk
    split at hk
    · exact absurd (Option.some.inj hk).symm hne
    · exact h i k hk hpos (by omega)

theorem UndoCover.reorganized (hcf : CollisionFree cx K) {env : Env} {s s₁ s₂ s' : NodeState} {b : Block}
    {bs : List Block} {disconnect connect : List Bytes32} (h : UndoCover s) (hbs : ChainInv cx K s bs)
    (hstore : StoreInv cx K s) (hb : K b) (hreorg : Reorganized cx env s b disconnect connect s₁ s₂ s')
    (hheight : s.height ≤ maxReorgDepth ∨ s.height ≤ b.header.height) : UndoCover s' := by
  obtain ⟨old, f, common, new, hsplit, -, hconnect, hbs', -⟩ := hbs.reorganized hcf hstore hb hreorg
  intro i k hk hpos hi
  have hstale := notMem_staleUndo hcf hbs' hk hi
  rw [hreorg.undo, lookup_eraseAll, ← hreorg.height, if_neg hstale]
  apply connectBlocks_undo hreorg.reconnected
  rw [disconnectBlocks_eq hreorg.disconnected]
  obtain ⟨x, hx, rfl⟩ := hbs'.block_at hk
  rw [List.reverse_append, List.getElem?_append] at hx
  split at hx
  · right
    rename_i hlow
    apply h i _ _ hpos
    · rw [hreorg.height] at hi
      rcases hheight with hlow | hhigh
      · omega
      · omega
    · rw [hbs.heightMap, hsplit]
      simp only [hashes, List.map_append, List.reverse_append]
      rw [List.getElem?_append_left (by simpa using hlow), ← List.map_reverse, List.getElem?_map, hx]
      rfl
  · left
    rw [hconnect, List.mem_reverse]
    exact List.mem_map_of_mem (List.mem_reverse.mp (List.mem_of_getElem? hx))

theorem Sound.runsThrough (hcf : CollisionFree cx K) {env : Env} {s : NodeState} {b : Block} (h : Sound cx env s b)
    (hinv : NodeInv cx K s) (hcover : UndoCover s) (hb : K b) : RunsThrough cx env s b := by
  refine ⟨h.writes, h.extend, ?_⟩
  intro hadm htip s₁ hstore hmore disconnect connect hfork hperm
  have hside := storeSide_eq_some hstore
  obtain ⟨bs, hbs⟩ := hinv.chain
  have hcover₁ : UndoCover s₁ := by
    intro i k hk hpos hi
    rw [hside.heightMap] at hk
    rw [hside.height] at hi
    rw [hside.undo]
    exact hcover i k hk hpos hi
  have hundo := undo_of_fork hcf (hbs.sideStored hside) (hinv.store.sideStored hcf hb hadm hside)
    hcover₁ hfork hperm.1
  exact ⟨hundo, h.switch hadm htip s₁ hstore hmore disconnect connect hfork hperm hundo⟩

/-- Calls that succeed or are sound keep the chain and its undo records. -/
theorem UndoCover.step (hcf : CollisionFree cx K) {env : Env} {s : NodeState} {b : Block} (h : UndoCover s)
    (hinv : NodeInv cx K s) (hb : K b) (hkeeps : KeepsHeight s b)
    (hclean : (∃ x, (addBlockStep cx env s b).1 = .ok x) ∨ RunsThrough cx env s b) :
    UndoCover (addBlockStep cx env s b).2 := by
  have hcases := @addBlockStep_cases cx env s b
  generalize (addBlockStep cx env s b).1 = r at hcases hclean
  generalize (addBlockStep cx env s b).2 = s' at hcases
  have hside : ∀ s₁, SideStored cx s b s₁ → UndoCover s₁ := by
    intro s₁ hs₁ i k hk hpos hi
    rw [hs₁.heightMap] at hk
    rw [hs₁.height] at hi
    rw [hs₁.undo]
    exact h i k hk hpos hi
  cases hcases with
  | rejected => exact h
  | orphaned =>
    obtain ⟨pool, children, heq, -⟩ := addOrphan_eq env s (b.hash cx.sha256) b
    rw [heq]
    exact h
  | extended hadm htip hext =>
    obtain ⟨bs, hbs⟩ := hinv.chain
    exact h.extended hcf hbs (hbs.extended hcf hinv.store hb hadm htip hext) hext
  | stored _ _ hs₁ _ => exact hside _ hs₁
  | @reorganized s₁ _ _ _ _ _ hadm htip hs₁ hmore hreorg _ =>
    obtain ⟨bs, hbs⟩ := hinv.chain
    apply (hside s₁ hs₁).reorganized hcf (hbs.sideStored hs₁) (hinv.store.sideStored hcf hb hadm hs₁) hb
      hreorg
    rw [hs₁.height]
    by_cases hlow : s.height ≤ maxReorgDepth
    · exact Or.inl hlow
    · exact Or.inr (hkeeps (by omega) hmore)
  | broken e s' hnot _ =>
    rcases hclean with ⟨x, hx⟩ | hthrough
    · simp at hx
    · exact absurd hthrough hnot

end Steps

end KuberCoin.UndoRecords
