import KuberCoin.ChainInvariants

/-!
The bodies a node keeps for its chain.
The store and the cache are keyed by header hashes, so a block that repeats a header
with other transactions replaces the body. As long as no block does so for a hash of
the height map, the body found there is the one that was connected, also after calls
that fail half-way.
-/
namespace KuberCoin.StoredBodies

open Bytes Maps Transactions Blocks UtxoSets Params Difficulty Validator Storage NodeStates
  NodeStates.NodeState AddBlock Frames BlockEffects StepCases Runs ChainInvariants

/-- The cache agrees with the store, and the hashes of the height map are stored, those in
`S` with the block that was connected. -/
structure BodyInv (S : Bytes32 → Prop) (s : NodeState) : Prop where
  cached : Shrinks s.store.disk.blocks s.blocks
  stored : ∀ i h, s.heightMap.lookup i = some h →
    ∃ b, s.store.disk.blocks.lookup h = some b ∧ (S h → s.connected.lookup h = some b)

/-- A block whose hash is in the height map is the block found under it. -/
def SameBody (cx : Context) (S : Bytes32 → Prop) (s : NodeState) (b : Block) : Prop :=
  S (b.hash cx.sha256) → ∀ i, s.heightMap.lookup i = some (b.hash cx.sha256) →
    s.getBlock (b.hash cx.sha256) = some b

variable {cx : Context} {S : Bytes32 → Prop}

section Steps

variable {s s' : NodeState} {b : Block}

theorem BodyInv.getBlock (h : BodyInv S s) (hash : Bytes32) : s.getBlock hash = s.store.disk.blocks.lookup hash := by
  unfold NodeState.getBlock
  cases hb : s.blocks.lookup hash with
  | none => rfl
  | some b => exact (h.cached hash b hb).symm

theorem BodyInv.congr (h : BodyInv S s) (hblocks : s'.blocks = s.blocks)
    (hdisk : s'.store.disk.blocks = s.store.disk.blocks) (hmap : s'.heightMap = s.heightMap)
    (hconnected : s'.connected = s.connected) : BodyInv S s' := by
  refine ⟨?_, ?_⟩
  · rw [hblocks, hdisk]
    exact h.cached
  · rw [hdisk, hmap, hconnected]
    exact h.stored

theorem BodyInv.connect {hash : Bytes32} {i : ℕ} (h : BodyInv S s) (hb : s.getBlock hash = some b)
    (hblocks : s'.blocks = s.blocks) (hdisk : s'.store.disk.blocks = s.store.disk.blocks)
    (hmap : s'.heightMap = s.heightMap.insert i hash) (hconnected : s'.connected = s.connected.insert hash b) :
    BodyInv S s' := by
  rw [h.getBlock] at hb
  refine ⟨?_, ?_⟩
  · rw [hblocks, hdisk]
    exact h.cached
  · intro j k hk
    rw [hdisk, hconnected, lookup_insert_eq]
    rw [hmap, lookup_insert_eq] at hk
    by_cases heq : k = hash
    · subst heq
      exact ⟨b, hb, fun _ => if_pos rfl⟩
    · rw [if_neg heq]
      split at hk
      · exact absurd (Option.some.inj hk).symm heq
      · exact h.stored j k hk

theorem BodyInv.connectBlocks {env : Env} {s : NodeState} (h : BodyInv S s) (hashes : List Bytes32) :
    BodyInv S (connectBlocks cx env s hashes).2 := by
  induction hashes generalizing s with
  | nil => exact h
  | cons hash rest ih =>
    have hone : BodyInv S (connectBlock cx env s hash).2 := by
      unfold connectBlock
      split
      next => exact h
      next b hb =>
        split
        next => exact h
        next =>
          split
          next => exact h.congr rfl rfl rfl rfl
          next undo u _ =>
            split
            next => exact h.congr rfl rfl rfl rfl
            next s₁ hw =>
              obtain rfl := write_eq_some hw
              exact h.connect hb rfl rfl rfl rfl
    unfold AddBlock.connectBlocks
    split
    next e s' heq =>
      rw [heq] at hone
      exact hone
    next s' heq =>
      rw [heq] at hone
      exact ih hone

theorem BodyInv.extended {undo : BlockUndoData} (hprune : cx.pruneDepth = none) (h : BodyInv S s)
    (hext : Extended cx s b undo s') : BodyInv S s' := by
  refine ⟨?_, ?_⟩
  · rw [hext.unpruned hprune]
    exact (h.cached.insert _ _).trans hext.cached
  · intro i k hk
    rw [hext.unpruned hprune, hext.connected, lookup_insert_eq, lookup_insert_eq]
    rw [hext.heightMap, lookup_insert_eq] at hk
    by_cases heq : k = b.hash cx.sha256
    · rw [if_pos heq, if_pos heq]
      exact ⟨b, rfl, fun _ => rfl⟩
    · rw [if_neg heq, if_neg heq]
      split at hk
      · exact absurd (Option.some.inj hk).symm heq
      · exact h.stored i k hk

theorem BodyInv.sideStored (h : BodyInv S s) (hsame : SameBody cx S s b) (hside : SideStored cx s b s') :
    BodyInv S s' := by
  refine ⟨?_, ?_⟩
  · rw [hside.diskBlocks]
    exact (h.cached.insert _ _).trans hside.cached
  · intro i k hk
    rw [hside.diskBlocks, hside.connected, lookup_insert_eq]
    rw [hside.heightMap] at hk
    obtain ⟨x, hx, hconnected⟩ := h.stored i k hk
    by_cases heq : k = b.hash cx.sha256
    · subst heq
      refine ⟨b, if_pos rfl, ?_⟩
      intro hS
      have hfound := hsame hS i hk
      rw [h.getBlock, hx] at hfound
      rw [hconnected hS, hfound]
    · rw [if_neg heq]
      exact ⟨x, hx, hconnected⟩

/-- Every call keeps the bodies right when no write fails, and every call that succeeds does. -/
theorem BodyInv.step (hprune : cx.pruneDepth = none) {env : Env} {s : NodeState} {b : Block} (h : BodyInv S s)
    (hsame : SameBody cx S s b)
    (hwrites : (∀ log ops, env.writeOk log ops = true) ∨ ∃ x, (addBlockStep cx env s b).1 = .ok x) :
    BodyInv S (addBlockStep cx env s b).2 := by
  have hcases := @addBlockStep_cases cx env s b
  generalize (addBlockStep cx env s b).1 = r at hcases hwrites
  generalize (addBlockStep cx env s b).2 = s' at hcases
  cases hcases with
  | rejected => exact h
  | orphaned =>
    obtain ⟨pool, children, heq, -⟩ := addOrphan_eq env s (b.hash cx.sha256) b
    rw [heq]
    exact h.congr rfl rfl rfl rfl
  | extended _ _ hext => exact h.extended hprune hext
  | stored _ _ hside _ => exact h.sideStored hsame hside
  | @reorganized s₁ s₂ s₃ _ disconnect connect _ _ hside _ hreorg _ =>
    have hrolled : BodyInv S s₂ := by
      rw [disconnectBlocks_eq hreorg.disconnected]
      exact (h.sideStored hsame hside).congr rfl rfl rfl rfl
    have hconnected := @BodyInv.connectBlocks cx S env s₂ hrolled connect
    rw [hreorg.reconnected] at hconnected
    obtain ⟨hblocks, hdisk⟩ := hreorg.unpruned hprune
    refine ⟨?_, ?_⟩
    · rw [hblocks, hdisk]
      exact hconnected.cached
    · intro i k hk
      rw [hreorg.heightMap] at hk
      rw [hdisk, hreorg.connected]
      exact hconnected.stored i k (shrinks_eraseAll _ _ i k hk)
  | broken e s' hnot hpart =>
    rcases hwrites with hwrites | ⟨x, hx⟩
    · rcases hpart hwrites with ⟨u, rfl⟩ | ⟨s₁, u, hashes, -, hside, rfl⟩
      · exact h.congr rfl rfl rfl rfl
      · have hrolled : BodyInv S { s₁ with utxoSet := u } :=
          (h.sideStored hsame hside).congr rfl rfl rfl rfl
        exact hrolled.connectBlocks hashes
    · simp at hx

theorem BodyInv.fresh (h : FreshNode cx s) : BodyInv S s := by
  refine ⟨?_, ?_⟩
  · rw [h.diskBlocks]
    exact h.cached
  · intro i k hk
    rw [h.heightMap, lookup_insert_eq] at hk
    split at hk
    · obtain rfl := Option.some.inj hk
      rw [h.diskBlocks, h.connected]
      exact ⟨cx.genesis, Finmap.lookup_insert _, fun _ => Finmap.lookup_insert _⟩
    · simp at hk

end Steps

section Runs

theorem run_bodyInv (hprune : cx.pruneDepth = none) {s : NodeState} {calls : List Call} (hrun : Run cx s calls)
    (hgood : ∀ c ∈ calls, SameBody cx S c.before c.block ∧
      ((∀ log ops, c.env.writeOk log ops = true) ∨ ∃ x, c.result = .ok x)) :
    BodyInv S s ∧ ∀ c ∈ calls, BodyInv S c.before ∧ Stepped cx c := by
  have hstep : ∀ env s b, BodyInv S s → (SameBody cx S s b ∧
      ((∀ log ops, env.writeOk log ops = true) ∨ ∃ x, (addBlockStep cx env s b).1 = .ok x)) →
      BodyInv S (addBlockStep cx env s b).2 := by
    intro env s b h hgood
    exact h.step hprune hgood.1 hgood.2
  refine run_keeps ?_ hstep ?_ ?_ hrun hgood
  · intro env s h
    exact BodyInv.fresh (freshNode h)
  · intro s parent child b h _
    exact h.congr rfl rfl rfl rfl
  · intro env s tipHeight h
    rw [maybePrune_none hprune]
    exact h

/-- A block that repeats no header of the chain with another body, given to a node whose
writes succeed. -/
structure Unchanged (cx : Context) (c : Call) : Prop where
  writes : ∀ log ops, c.env.writeOk log ops = true
  body : ∀ i, c.before.heightMap.lookup i = some (c.block.hash cx.sha256) →
    c.before.getBlock (c.block.hash cx.sha256) = some c.block

/-- Without pruning, the body found for a hash of the height map is the one that was
connected, as long as no call repeats a header of the chain with another body. -/
theorem getBlock_eq_connected (hprune : cx.pruneDepth = none) {s : NodeState} {calls : List Call}
    (hrun : Run cx s calls) (hgood : ∀ c ∈ calls, Unchanged cx c) {i : ℕ} {h : Bytes32}
    (hi : s.heightMap.lookup i = some h) : ∃ b, s.connected.lookup h = some b ∧ s.getBlock h = some b := by
  have hinv : BodyInv (fun _ => True) s := by
    refine (run_bodyInv hprune hrun ?_).1
    intro c hc
    exact ⟨fun _ => (hgood c hc).body, Or.inl (hgood c hc).writes⟩
  obtain ⟨b, hb, hconnected⟩ := hinv.stored i h hi
  exact ⟨b, hconnected trivial, (hinv.getBlock h).trans hb⟩

theorem switched_getBlock : ∃ s calls h b, Run scriptNode s calls ∧
      calls.map Call.block = [firstBranch, firstBranch, paidBranch, spendingTip] ∧
      s.heightMap.lookup 1 = some h ∧ s.connected.lookup h = some b ∧ s.getBlock h = some b := by
  obtain ⟨s, calls, o, -, h⟩ := exists_switched
  have hgood : ∀ c ∈ calls ++ o.calls, Unchanged scriptNode c := by
    intro c hc
    refine ⟨fun _ _ => ?_, (h.calm c hc).body⟩
    rw [(h.calm c hc).env]
    rfl
  obtain ⟨b, hconnected, hfound⟩ := getBlock_eq_connected rfl h.fullRun hgood h.heightMap
  exact ⟨_, _, _, b, h.fullRun, h.blocks, h.heightMap, hconnected, hfound⟩

/-- A block that repeats the header of the tip without its transactions replaces the body. -/
theorem repeated_header_replaces_body : ∃ s calls h b b', Run regtest s calls ∧ s.heightMap.lookup 1 = some h ∧
      s.connected.lookup h = some b ∧ s.getBlock h = some b' ∧ b' ≠ b := by
  have hevaluated : ((nodeAfter regtest today 2
      [firstBranch, { firstBranch with transactions := [] }]).any fun s =>
      decide (s.heightMap.lookup 1 = some (firstBranch.hash Sha256.sha256) ∧
        s.connected.lookup (firstBranch.hash Sha256.sha256) = some firstBranch ∧
        s.getBlock (firstBranch.hash Sha256.sha256) =
          some { firstBranch with transactions := [] })) = true := by
    rw [← runRegtest_eq, ← runFirstBranch_eq, ← Sha256.runSha256_eq, ← runNodeAfter_eq]
    decide +kernel
  obtain ⟨s, hs, hstate⟩ := Option.any_eq_true _ _ |>.mp hevaluated
  obtain ⟨hmap, hconnected, hfound⟩ := of_decide_eq_true hstate
  obtain ⟨calls, hrun⟩ := run_nodeAfter hs
  refine ⟨s, calls, _, _, _, hrun, hmap, hconnected, hfound, ?_⟩
  intro heq
  have := congrArg Block.transactions heq
  simp [firstBranch, childOf] at this

end Runs

end KuberCoin.StoredBodies
