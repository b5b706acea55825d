import KuberCoin.PlainBlocks

/-!
Undo records for every permitted switch.
As long as a node above the depth limit never moves to a lower height, the records of the last
hundred blocks are stored at every point of a run. A difficulty change breaks this: a branch
with fewer blocks and more work wins, and the records at the bottom of the last hundred blocks
are already gone.
-/
namespace KuberCoin.UndoCoverage

open Bytes Maps Transactions Blocks UtxoSets Params Difficulty Validator Storage NodeStates
  NodeStates.NodeState AddBlock Frames BlockEffects StepCases Runs Branches ChainInvariants
  BestChain UndoRecords WorkPaths BranchReads BlockTrees PlainBlocks

variable {cx : Context} {K : Block → Prop}

section Runs

variable {s : NodeState} {get : Bytes32 → Option Block} {fuel : ℕ} {cursor hash work : Bytes32} {b : Block}
  {env : Env}

variable (cx) in
/-- The node is on `chain`, and the undo records of its last hundred blocks are stored and roll
the UTXO set back from after the block to before it. -/
structure UndoReady (s : NodeState) (chain : List Block) : Prop where
  height : chain.length = s.height + 1
  entries : ∀ i, s.heightMap.lookup i = (chain[i]?).map (Block.hash cx.sha256)
  current : applyBlocks cx.sha256 ∅ chain = (.ok (), s.utxoSet)
  undo : ∀ i b, chain[i]? = some b → 0 < i → s.height < i + maxReorgDepth →
    ∃ r u₀ u₁, s.store.disk.undo.lookup (b.hash cx.sha256) = some r ∧
      applyBlocks cx.sha256 ∅ (chain.take i) = (.ok (), u₀) ∧
      applyBlocks cx.sha256 ∅ (chain.take (i + 1)) = (.ok (), u₁) ∧ disconnectBlock u₁ r = u₀

theorem undoReady (h : NodeInv cx K s) (hcover : UndoCover s) : ∃ chain, UndoReady cx s chain := by
  obtain ⟨bs, hbs⟩ := h.chain
  have hentries : ∀ i, s.heightMap.lookup i = (bs.reverse[i]?).map (Block.hash cx.sha256) := by
    intro i
    rw [hbs.heightMap, hashes, ← List.map_reverse, List.getElem?_map]
  refine ⟨bs.reverse, by rw [List.length_reverse, hbs.height], hentries,
    ValidBranch.replay hbs.branch, ?_⟩
  intro i b hb hpos hi
  obtain ⟨r, hr⟩ := Option.isSome_iff_exists.mp
    (hcover i (b.hash cx.sha256) (by rw [hentries, hb]; rfl) hpos hi)
  -- the branch up to the block, which has a parent because it is above genesis
  obtain ⟨hlt, hget⟩ := List.getElem?_eq_some_iff.mp hb
  have hcut : bs.reverse.take (i + 1) = bs.reverse.take i ++ [b] := by
    rw [List.take_succ_eq_append_getElem hlt, hget]
  have hsplit : bs = (bs.reverse.drop (i + 1)).reverse ++ b :: (bs.reverse.take i).reverse := by
    have hall := congrArg List.reverse (List.take_append_drop (i + 1) bs.reverse)
    rw [hcut, List.reverse_append, List.reverse_append, List.reverse_reverse] at hall
    exact hall.symm
  obtain ⟨parent, rest, hparent⟩ : ∃ parent rest, (bs.reverse.take i).reverse = parent :: rest := by
    apply List.exists_cons_of_ne_nil
    intro hnil
    have hlen := congrArg List.length hnil
    rw [List.length_reverse, List.length_take, List.length_nil] at hlen
    omega
  rw [hparent] at hsplit
  obtain ⟨u₀, u₁, hbranch, happly⟩ := hbs.undo _ b parent rest hsplit r hr
  have htake : bs.reverse.take i = (parent :: rest).reverse := by
    rw [← hparent, List.reverse_reverse]
  refine ⟨r, u₀, u₁, hr, ?_, ?_, disconnectBlock_applyBlockWithUndo cx.sha256 happly⟩
  · rw [htake]
    exact ValidBranch.replay hbranch
  · rw [hcut, htake]
    apply applyBlocks_append (ValidBranch.replay hbranch)
    rw [applyBlock_eq, happly]
    rfl

theorem connectBlock_ne_missingUndo {env : Env} {s : NodeState} {k hash : Bytes32} :
    (connectBlock cx env s k).1 ≠ .error (.missingUndo hash) := by
  unfold connectBlock
  split
  · simp
  · split
    · simp
    · split
      · simp
      · split <;> simp

theorem connectBlocks_ne_missingUndo {env : Env} {s : NodeState} {l : List Bytes32} {hash : Bytes32} :
    (connectBlocks cx env s l).1 ≠ .error (.missingUndo hash) := by
  induction l generalizing s with
  | nil => simp [connectBlocks]
  | cons k rest ih =>
    have hfirst := @connectBlock_ne_missingUndo cx env s k hash
    rw [connectBlocks]
    split
    next e s₁ hs₁ =>
      rw [hs₁] at hfirst
      simpa using hfirst
    next => exact ih

theorem traceNew_ne_missingUndo {old : List Bytes32} : traceNew get old fuel cursor ≠ .error (.missingUndo hash) := by
  induction fuel generalizing cursor with
  | zero => simp [traceNew]
  | succ fuel ih =>
    intro h
    rw [traceNew] at h
    split at h
    · simp at h
    · split at h
      · simp at h
      · split at h
        next e he =>
          rw [Except.error.injEq] at h
          subst h
          exact ih he
        next => simp at h

theorem traceOld_ne_missingUndo {fork : Bytes32} : traceOld get fork fuel cursor ≠ .error (.missingUndo hash) := by
  induction fuel generalizing cursor with
  | zero => simp [traceOld]
  | succ fuel ih =>
    intro h
    rw [traceOld] at h
    split at h
    · simp at h
    · split at h
      · simp at h
      · split at h
        next e he =>
          rw [Except.error.injEq] at h
          subst h
          exact ih he
        next => simp at h

theorem forkOf_ne_missingUndo : forkOf cx s b ≠ .error (.missingUndo hash) := by
  intro h
  unfold forkOf findForkBlocks at h
  split at h
  next e he =>
    rw [Except.error.injEq] at h
    subst h
    exact traceNew_ne_missingUndo he
  next =>
    split at h
    next e he =>
      rw [Except.error.injEq] at h
      subst h
      exact traceOld_ne_missingUndo he
    next => simp at h

theorem earlyChecks_ne_missingUndo : earlyChecks cx env b ≠ .error (.missingUndo hash) := by
  unfold earlyChecks
  simp only
  split
  · simp
  · split <;> simp

theorem headerChecks_ne_missingUndo : headerChecks cx s b ≠ .error (.missingUndo hash) := by
  unfold headerChecks
  simp only
  split
  · split
    · simp
    · split <;> simp
  · split
    · simp
    · split
      · simp
      · split <;> simp

theorem connectTip_ne_missingUndo : (connectTip cx env s b work).1 ≠ .error (.missingUndo hash) := by
  unfold connectTip
  simp only
  split
  · simp
  · split
    · simp
    · split
      · simp
      · split
        · simp
        · split <;> simp

theorem reorganize_missingUndo (h : (reorganize cx env s b work).1 = .error (.missingUndo hash)) :
    ∃ disconnect connect, forkOf cx s b = .ok (disconnect, connect) ∧ Permitted cx s disconnect ∧
      ∃ k ∈ disconnect, s.store.disk.undo.lookup k = none := by
  unfold reorganize at h
  simp only at h
  split at h
  next e hfork =>
    simp only [Except.error.injEq] at h
    subst h
    exact absurd hfork forkOf_ne_missingUndo
  next disconnect connect hfork =>
    split at h
    next => simp at h
    next hshallow =>
      split at h
      next => simp at h
      next hallowed =>
        have hpermitted : Permitted cx s disconnect := ⟨by omega, not_not.mp hallowed⟩
        split at h
        next e s₂ hdisconnect =>
          exact ⟨disconnect, connect, hfork, hpermitted, disconnectBlocks_error hdisconnect⟩
        next s₂ hdisconnect =>
          have hconnects := @connectBlocks_ne_missingUndo cx env s₂ connect hash
          split at h
          next e s₃ hconnect =>
            simp only [Except.error.injEq] at h
            subst h
            rw [hconnect] at hconnects
            exact absurd rfl hconnects
          next =>
            split at h
            · simp at h
            · simp at h

theorem addBlockStep_missingUndo (h : (addBlockStep cx env s b).1 = .error (.missingUndo hash)) :
    Admitted cx env s b ∧ b.header.prevHash ≠ s.tip ∧
      ∃ s₁, storeSide cx env s b (cumulativeWork s b) = some s₁ ∧
        compareWork (cumulativeWork s b) s.chainwork = .gt ∧
        (reorganize cx env s₁ b (cumulativeWork s b)).1 = .error (.missingUndo hash) := by
  unfold addBlockStep at h
  split at h
  next e hearly =>
    simp only [Except.error.injEq] at h
    subst h
    exact absurd hearly earlyChecks_ne_missingUndo
  next hearly =>
    split at h
    next => simp at h
    next hparent =>
      split at h
      next e hheader =>
        simp only [Except.error.injEq] at h
        subst h
        exact absurd hheader headerChecks_ne_missingUndo
      next hheader =>
        split at h
        next => exact absurd h connectTip_ne_missingUndo
        next htip =>
          refine ⟨⟨hearly, not_not.mp hparent, hheader⟩, htip, ?_⟩
          unfold connectSide at h
          split at h
          next => simp at h
          next s₁ hstore =>
            rw [(storeSide_eq_some hstore).chainwork] at h
            split at h
            next => simp at h
            next hgt => exact ⟨s₁, hstore, not_not.mp hgt, h⟩

theorem missingUndo_ne (h : RunsThrough cx env s b) (hash : Bytes32) :
    (addBlockStep cx env s b).1 ≠ .error (.missingUndo hash) := by
  intro herror
  obtain ⟨hadm, htip, s₁, hstore, hmore, hreorg⟩ := addBlockStep_missingUndo herror
  obtain ⟨disconnect, connect, hfork, hpermitted, k, hmem, hnone⟩ := reorganize_missingUndo hreorg
  have hrecord := (h.switch hadm htip s₁ hstore hmore disconnect connect hfork hpermitted).1 k hmem
  rw [hnone] at hrecord
  simp at hrecord

/-- In every run whose calls succeed or are sound and keep the height, the undo records of the
last hundred blocks are stored and exact at every point, and no call stops for a missing one. -/
theorem run_undo_ready {s : NodeState} {calls : List Call} (hrun : Run cx s calls)
    (hcf : CollisionFree cx (Known cx calls))
    (hsound : ∀ c ∈ calls, (∃ x, c.result = .ok x) ∨ Sound cx c.env c.before c.block)
    (hkeeps : ∀ c ∈ calls, KeepsHeight c.before c.block) : (∃ chain, UndoReady cx s chain) ∧
      ∀ c ∈ calls, (∃ chain, UndoReady cx c.before chain) ∧
        ∀ hash, c.result ≠ .error (.missingUndo hash) := by
  have hgood : ∀ c ∈ calls, Known cx calls c.block ∧ KeepsHeight c.before c.block ∧
      ((∃ x, c.result = .ok x) ∨ Sound cx c.env c.before c.block) :=
    fun c hc => ⟨Or.inr ⟨c, hc, rfl⟩, hkeeps c hc, hsound c hc⟩
  have hthrough : ∀ env s b, NodeInv cx (Known cx calls) s → UndoCover s → Known cx calls b →
      ((∃ x, (addBlockStep cx env s b).1 = .ok x) ∨ Sound cx env s b) →
      (∃ x, (addBlockStep cx env s b).1 = .ok x) ∨ RunsThrough cx env s b := by
    intro env s b hinv hcover hb hclean
    rcases hclean with hok | hs
    · exact Or.inl hok
    · exact Or.inr (hs.runsThrough hcf hinv hcover hb)
  have hstep : ∀ env s b, NodeInv cx (Known cx calls) s ∧ UndoCover s →
      (Known cx calls b ∧ KeepsHeight s b ∧
        ((∃ x, (addBlockStep cx env s b).1 = .ok x) ∨ Sound cx env s b)) →
      NodeInv cx (Known cx calls) (addBlockStep cx env s b).2 ∧
        UndoCover (addBlockStep cx env s b).2 := by
    rintro env s b ⟨hinv, hcover⟩ ⟨hb, hkeep, hclean⟩
    have hclean' := hthrough env s b hinv hcover hb hclean
    exact ⟨hinv.step hcf hb hclean', hcover.step hcf hinv hb hkeep hclean'⟩
  obtain ⟨⟨hinv, hcover⟩, hbefore⟩ := run_keeps
    (by
      intro env s hnew
      have hfresh := freshNode hnew
      refine ⟨NodeInv.fresh hcf hfresh, ?_⟩
      intro i h hi hpos _
      rw [hfresh.heightMap, lookup_insert_eq, if_neg (by omega)] at hi
      simp at hi)
    hstep
    (fun s parent child b h _ => ⟨h.1.takeOrphan parent child, h.2⟩)
    (by
      rintro env s tipHeight ⟨hinv, hcover⟩
      have hframe := @maybePrune_frame cx env s tipHeight
      refine ⟨hinv.frame hframe, ?_⟩
      intro i h hi hpos hlow
      rw [hframe.heightMap] at hi
      rw [hframe.height] at hlow
      rw [hframe.undo]
      exact hcover i h hi hpos hlow)
    hrun hgood
  refine ⟨undoReady hinv hcover, ?_⟩
  intro c hc
  obtain ⟨⟨hinv', hcover'⟩, hstepped⟩ := hbefore c hc
  refine ⟨undoReady hinv' hcover', ?_⟩
  intro hash
  have hresult : c.result = (addBlockStep cx c.env c.before c.block).1 := hstepped
  rw [hresult]
  have hclean := hsound c hc
  rw [hresult] at hclean
  rcases hthrough _ _ _ hinv' hcover' (hgood c hc).1 hclean with ⟨x, hx⟩ | h
  · rw [hx]
    simp
  · exact missingUndo_ne h hash

theorem switched_undo_ready : ∃ s calls chain, Run scriptNode s calls ∧ s.height = 2 ∧
      calls.map Call.block = [firstBranch, firstBranch, paidBranch, spendingTip] ∧
      UndoReady scriptNode s chain := by
  obtain ⟨s, calls, o, -, h⟩ := exists_switched
  have hkeeps : ∀ c ∈ calls ++ o.calls, KeepsHeight c.before c.block := by
    intro c hc hhigh
    exact absurd ((h.calm c hc).low.trans (by decide)) (Nat.not_le_of_lt hhigh)
  obtain ⟨⟨chain, hchain⟩, -⟩ := run_undo_ready h.fullRun (Switched.collisionFree h)
    (fun c hc => Or.inl (h.calm c hc).result) hkeeps
  exact ⟨_, _, chain, h.fullRun, h.height, h.blocks, hchain⟩

end Runs

section LowerChains

variable {s s' : NodeState} {k : Bytes32} {b : Block} {env : Env}

/-- The records persisting deletes are gone. -/
def Trimmed (s : NodeState) : Prop :=
  maxReorgDepth < s.height → ∀ i k, s.heightMap.lookup i = some k → i + maxReorgDepth ≤ s.height →
    s.store.disk.undo.lookup k = none

theorem mem_staleUndo {height i : ℕ} (hhigh : maxReorgDepth < height) (hk : s.heightMap.lookup i = some k)
    (hi : i + maxReorgDepth ≤ height) : k ∈ staleUndo s height := by
  unfold staleUndo
  rw [if_pos hhigh]
  refine List.mem_filterMap.mpr ⟨i, ?_, hk⟩
  rw [List.mem_range]
  omega

theorem Trimmed.extended {undo : BlockUndoData} (h : Extended cx s b undo s') : Trimmed s' := by
  intro hhigh i k hk hi
  rw [h.height] at hhigh hi
  rw [h.undo, lookup_eraseAll, if_pos (mem_staleUndo hhigh hk hi)]

theorem connectBlocks_undo_none {l : List Bytes32} (h : connectBlocks cx env s l = (.ok (), s')) (hk : k ∉ l)
    (hnone : s.store.disk.undo.lookup k = none) : s'.store.disk.undo.lookup k = none := by
  induction l generalizing s with
  | nil =>
    simp only [connectBlocks, Prod.mk.injEq, true_and] at h
    rwa [← h]
  | cons hash rest ih =>
    rw [connectBlocks] at h
    split at h
    next => simp at h
    next s₁ hs₁ =>
      obtain ⟨b, undo, u, -, -, -, rfl⟩ := connectBlock_ok hs₁
      rw [List.mem_cons, not_or] at hk
      apply ih h hk.2
      change (s.store.disk.undo.insert hash undo).lookup k = none
      rwa [lookup_insert_eq, if_neg hk.1]

theorem ValidBranch.above {pre rest : List Block} {u : UtxoSet} (h : ValidBranch cx (pre ++ b :: rest) u) :
    ∀ x ∈ pre, rest.length < x.header.height := by
  intro x hx
  obtain ⟨front, back, rfl⟩ := List.append_of_mem hx
  rw [List.append_assoc, List.cons_append] at h
  obtain ⟨u', hx'⟩ := h.suffix
  rw [hx'.height_eq, List.length_append, List.length_cons]
  omega

/-- A switch to a lower height, from above the height where records are deleted, leaves blocks
within the depth limit without a record. -/
theorem lower_switch_uncovers (hcf : CollisionFree cx K) {s₁ s₂ : NodeState} {bs : List Block}
    {disconnect connect : List Bytes32} (h : ChainInv cx K s bs) (hstore : StoreInv cx K s) (hb : K b)
    (htrim : Trimmed s) (hreorg : Reorganized cx env s b disconnect connect s₁ s₂ s') (hhigh : maxReorgDepth < s.height)
    (hlow : b.header.height < s.height) : ¬ ∃ chain, UndoReady cx s' chain := by
  rintro ⟨chain, hchain⟩
  obtain ⟨old, f, common, new, hsplit, hdisconnect, hconnect, hbs', -⟩ :=
    h.reorganized hcf hstore hb hreorg
  have hdepth := hreorg.permitted.1
  have hlen := h.height
  rw [hdisconnect, hashes_length] at hdepth
  rw [hsplit, List.length_append, List.length_cons] at hlen
  -- the lowest of the blocks that a switch from the new height may disconnect
  obtain ⟨i, hpos, hfar, hnear⟩ : ∃ i, 0 < i ∧ i + maxReorgDepth ≤ s.height ∧
      b.header.height < i + maxReorgDepth := by
    refine ⟨max 1 (b.header.height + 1 - maxReorgDepth), ?_, ?_, ?_⟩ <;> omega
  have hcommon : i < (f :: common).length := by
    rw [List.length_cons]
    omega
  obtain ⟨x, hx⟩ : ∃ x, (f :: common).reverse[i]? = some x :=
    ⟨_, List.getElem?_eq_getElem (by rw [List.length_reverse]; exact hcommon)⟩
  have hread : ∀ pre : List Block, (hashes cx (pre ++ f :: common)).reverse[i]? =
      some (x.hash cx.sha256) := by
    intro pre
    rw [hashes, ← List.map_reverse, List.getElem?_map, List.reverse_append,
      List.getElem?_append_left (by rw [List.length_reverse]; exact hcommon), hx]
    rfl
  have hmap : s.heightMap.lookup i = some (x.hash cx.sha256) := by
    rw [h.heightMap, hsplit]
    exact hread old
  have hmap' : s'.heightMap.lookup i = some (x.hash cx.sha256) := by
    rw [hbs'.heightMap]
    exact hread new
  have hgone : s'.store.disk.undo.lookup (x.hash cx.sha256) = none := by
    rw [hreorg.undo, lookup_eraseAll]
    split
    · rfl
    · apply connectBlocks_undo_none hreorg.reconnected
      · rw [hconnect, List.mem_reverse]
        intro hmem
        obtain ⟨y, hy, hhash⟩ := List.mem_map.mp hmem
        have hxmem : x ∈ f :: common := List.mem_reverse.mp (List.mem_of_getElem? hx)
        have hKx := hbs'.known x (List.mem_append_right _ hxmem)
        have hKy := hbs'.known y (List.mem_append_left _ hy)
        obtain ⟨u', hf⟩ := hbs'.branch.suffix
        have hheight := hf.height_getElem? hx
        have habove := ValidBranch.above hbs'.branch y hy
        rw [hcf.header_eq y x hKy hKx hhash, hheight] at habove
        rw [List.length_cons] at hcommon
        omega
      · rw [disconnectBlocks_eq hreorg.disconnected]
        exact htrim hhigh i _ hmap hfar
  rw [hchain.entries, Option.map_eq_some_iff] at hmap'
  obtain ⟨y, hy, hhash⟩ := hmap'
  obtain ⟨r, -, -, hr, -⟩ := hchain.undo i y hy hpos (by rw [hreorg.height]; exact hnear)
  rw [hhash, hgone] at hr
  simp at hr

end LowerChains

end KuberCoin.UndoCoverage
