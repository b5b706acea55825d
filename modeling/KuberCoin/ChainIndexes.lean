import KuberCoin.StoredBodies

/-!
The transaction, script and height indexes of a node. A block on the tip is appended to
them, a switch of chains rebuilds them from the height map. Both give the indexes of the
chain, which are defined by adding its blocks from genesis upwards.
-/
namespace KuberCoin.ChainIndexes

open Bytes Maps Transactions Blocks UtxoSets Params Difficulty Validator Storage NodeStates
  NodeStates.NodeState AddBlock Frames BlockEffects StepCases Runs Branches ChainInvariants
  StoredBodies

/-- The three derived maps. -/
structure Indexes where
  tx : Map Bytes32 ℕ
  scriptPubkey : Map (List UInt8) (List Bytes32)
  chainHeight : Map Bytes32 ℕ

namespace Indexes

def empty : Indexes := ⟨∅, ∅, ∅⟩

variable (sha256 : Sha256)

def addTransaction (height : ℕ) (ix : Indexes) (tx : Transaction) : Indexes :=
  { ix with
    tx := ix.tx.insert (tx.txid sha256) height
    scriptPubkey := tx.outputs.foldl (fun m out =>
      m.insert out.scriptPubkey ((m.lookup out.scriptPubkey).getD [] ++ [tx.txid sha256]))
      ix.scriptPubkey }

def addBlock (ix : Indexes) (b : Block) (height : ℕ) : Indexes :=
  b.transactions.foldl (addTransaction sha256 height)
    { ix with chainHeight := ix.chainHeight.insert (b.hash sha256) height }

/-- The indexes of a chain, given from its tip downwards. -/
def ofBranch : List Block → Indexes
  | [] => empty
  | b :: bs => addBlock sha256 (ofBranch bs) b bs.length

end Indexes

/-- The indexes a node holds. -/
def indexes (s : NodeState) : Indexes := ⟨s.txIndex, s.scriptPubkeyIndex, s.chainHeightIndex⟩

section Updates

variable {cx : Context} {env : Env} {s : NodeState} {bs : List Block}

theorem indexes_tryWrite (s : NodeState) (ops : List WriteOp) : indexes (s.tryWrite env ops) = indexes s := by
  unfold tryWrite NodeState.write
  split <;> rfl

theorem indexes_saveIndexes (s : NodeState) : indexes (saveIndexes env s) = indexes s := by
  unfold saveIndexes
  simp only [indexes_tryWrite]

theorem indexes_indexTransactions (height : ℕ) (s : NodeState) (b : Block) : indexes (indexTransactions cx height s b) =
      b.transactions.foldl (Indexes.addTransaction cx.sha256 height) (indexes s) := by
  unfold indexTransactions
  generalize b.transactions = txs
  induction txs generalizing s with
  | nil => rfl
  | cons tx txs ih =>
    rw [List.foldl_cons, List.foldl_cons, ih]
    rfl

theorem indexes_indexBlock (s : NodeState) (b : Block) (height : ℕ) :
    indexes (indexBlock cx env s b height) = (indexes s).addBlock cx.sha256 b height := by
  unfold indexBlock
  rw [indexes_saveIndexes, indexes_indexTransactions]
  rfl

theorem indexes_indexHeight {h : ℕ} {b : Block} (hmap : s.heightMap.lookup h = some (b.hash cx.sha256))
    (hget : s.getBlock (b.hash cx.sha256) = some b) :
    indexes (indexHeight cx s h) = (indexes s).addBlock cx.sha256 b h := by
  unfold indexHeight
  rw [getBlockHash, hmap]
  simp only
  rw [hget]
  simp only
  rw [indexes_indexTransactions]
  rfl

theorem IndexFrame.getBlock_eq {s' : NodeState} (h : IndexFrame s s') : s'.getBlock = s.getBlock := by
  funext hash
  unfold NodeState.getBlock
  rw [h.blocks, h.diskBlocks]

theorem indexes_rebuild_prefix (hmap : ∀ i, s.heightMap.lookup i = (hashes cx bs).reverse[i]?)
    (hget : ∀ b ∈ bs, s.getBlock (b.hash cx.sha256) = some b) {n : ℕ} (hn : n ≤ bs.length) {t : NodeState}
    (hframe : IndexFrame s t) (hempty : indexes t = Indexes.empty) :
    IndexFrame s ((List.range n).foldl (indexHeight cx) t) ∧
      indexes ((List.range n).foldl (indexHeight cx) t) =
        Indexes.ofBranch cx.sha256 (bs.drop (bs.length - n)) := by
  induction n with
  | zero =>
    refine ⟨hframe, ?_⟩
    rw [Nat.sub_zero, List.drop_length]
    exact hempty
  | succ n ih =>
    obtain ⟨hbelow, hindexes⟩ := ih (by omega)
    rw [List.range_succ, List.foldl_append]
    refine ⟨hbelow.trans (indexHeight_frame _ n), ?_⟩
    -- the block at height `n`, counted from the tip
    have hlt : bs.length - (n + 1) < bs.length := by omega
    have hdrop : bs.drop (bs.length - (n + 1)) =
        bs[bs.length - (n + 1)] :: bs.drop (bs.length - n) := by
      rw [List.drop_eq_getElem_cons hlt, show bs.length - (n + 1) + 1 = bs.length - n by omega]
    have hat : s.heightMap.lookup n = some (bs[bs.length - (n + 1)].hash cx.sha256) := by
      rw [hmap, hashes, ← List.map_reverse, List.getElem?_map, List.getElem?_reverse (by omega),
        show bs.length - 1 - n = bs.length - (n + 1) by omega, List.getElem?_eq_getElem hlt]
      rfl
    have hfound := hget _ (List.getElem_mem hlt)
    rw [← hbelow.heightMap] at hat
    rw [← IndexFrame.getBlock_eq hbelow] at hfound
    rw [List.foldl_cons, List.foldl_nil, indexes_indexHeight hat hfound, hindexes, hdrop,
      Indexes.ofBranch, List.length_drop, show bs.length - (bs.length - n) = n by omega]

theorem indexes_rebuildIndexes (hheight : bs.length = s.height + 1)
    (hmap : ∀ i, s.heightMap.lookup i = (hashes cx bs).reverse[i]?)
    (hget : ∀ b ∈ bs, s.getBlock (b.hash cx.sha256) = some b) :
    indexes (rebuildIndexes cx env s) = Indexes.ofBranch cx.sha256 bs := by
  have hclear : IndexFrame s { s with txIndex := ∅, scriptPubkeyIndex := ∅, chainHeightIndex := ∅ } :=
    ⟨⟨rfl, rfl, rfl, rfl, rfl, rfl, rfl, rfl, rfl, rfl, rfl, Shrinks.refl _, Shrinks.refl _⟩, rfl, rfl,
      [], Performed.nil rfl, by simp⟩
  obtain ⟨-, hrebuilt⟩ := indexes_rebuild_prefix hmap hget (n := s.height + 1) (by omega) hclear rfl
  unfold rebuildIndexes
  rw [indexes_saveIndexes, hrebuilt, hheight, Nat.sub_self, List.drop_zero]

end Updates

section Steps

variable {cx : Context} {env : Env} {K : Block → Prop} {s s' : NodeState} {b : Block} {work : Bytes32} {x : Exit}
  {bs : List Block}

theorem indexes_write {ops : List WriteOp} (h : s.write env ops = some s') : indexes s' = indexes s := by
  obtain rfl := write_eq_some h
  rfl

theorem indexes_persistState (hprune : cx.pruneDepth = none) {tip : Bytes32} {height : ℕ}
    (h : persistState cx env s tip height = some s') : indexes s' = indexes s := by
  obtain ⟨s₁, hwrite, rfl⟩ := Option.map_eq_some_iff.mp h
  have hkeep : autoPrune cx env s₁ = s₁ := by
    unfold autoPrune
    rw [hprune]
  rw [hkeep]
  exact indexes_write hwrite

theorem indexes_connectTip (hprune : cx.pruneDepth = none) (h : connectTip cx env s b work = (.ok x, s')) :
    x = .connected ∧ indexes s' = (indexes s).addBlock cx.sha256 b b.header.height := by
  unfold connectTip at h
  simp only at h
  split at h
  next => simp at h
  next =>
    split at h
    next => simp at h
    next undo u happly =>
      split at h
      next => simp at h
      next s₁ hundo =>
        split at h
        next => simp at h
        next s₃ hpersist =>
          split at h
          next => simp at h
          next s₄ hblock =>
            obtain ⟨hx, rfl⟩ := Prod.mk.inj h
            refine ⟨(Except.ok.inj hx).symm, ?_⟩
            have hadvance : indexes (advanceTip cx s₁ b work) = indexes s₁ := rfl
            rw [indexes_indexBlock, indexes_write hblock, indexes_persistState hprune hpersist,
              hadvance, indexes_write hundo]
            rfl

theorem reorganize_rebuilds (h : reorganize cx env s b work = (.ok x, s')) :
    x = .connected ∧ ∃ s₄, s' = rebuildIndexes cx env s₄ := by
  unfold reorganize at h
  simp only at h
  split at h
  next => simp at h
  next =>
    split at h
    next => simp at h
    next =>
      split at h
      next => simp at h
      next =>
        split at h
        next => simp at h
        next =>
          split at h
          next => simp at h
          next =>
            split at h
            next => simp at h
            next s₄ _ =>
              obtain ⟨hx, hs⟩ := Prod.mk.inj h
              exact ⟨(Except.ok.inj hx).symm, s₄, hs.symm⟩

theorem indexes_step (hprune : cx.pruneDepth = none) (h : addBlockStep cx env s b = (.ok x, s')) :
    (x ≠ .connected ∧ indexes s' = indexes s) ∨
      (x = .connected ∧ b.header.prevHash = s.tip ∧
        indexes s' = (indexes s).addBlock cx.sha256 b b.header.height) ∨
      (x = .connected ∧ b.header.prevHash ≠ s.tip ∧ ∃ s₄, s' = rebuildIndexes cx env s₄) := by
  unfold addBlockStep at h
  split at h
  next => simp at h
  next =>
    split at h
    next =>
      obtain ⟨hx, rfl⟩ := Prod.mk.inj h
      obtain rfl := Except.ok.inj hx
      obtain ⟨pool, children, heq, -⟩ := addOrphan_eq env s (b.hash cx.sha256) b
      rw [heq]
      exact Or.inl ⟨by simp, rfl⟩
    next =>
      split at h
      next => simp at h
      next =>
        split at h
        next htip =>
          obtain ⟨hx, hadded⟩ := indexes_connectTip hprune h
          exact Or.inr (Or.inl ⟨hx, htip, hadded⟩)
        next htip =>
          unfold connectSide at h
          split at h
          next => simp at h
          next s₁ hside =>
            split at h
            next =>
              obtain ⟨hx, rfl⟩ := Prod.mk.inj h
              obtain rfl := Except.ok.inj hx
              obtain ⟨s₀, hwrite, rfl⟩ := Option.map_eq_some_iff.mp hside
              obtain rfl := write_eq_some hwrite
              exact Or.inl ⟨by simp, rfl⟩
            next =>
              obtain ⟨hx, hrebuilt⟩ := reorganize_rebuilds h
              exact Or.inr (Or.inr ⟨hx, htip, hrebuilt⟩)

theorem getBlock_of_chain (hsame : ∀ a b, K a → K b → a.hash cx.sha256 = b.hash cx.sha256 → a = b)
    (hstore : StoreInv cx K s) (hbody : BodyInv (fun _ => False) s) (hchain : ChainInv cx K s bs) :
    ∀ b ∈ bs, s.getBlock (b.hash cx.sha256) = some b := by
  intro b hb
  obtain ⟨i, hi⟩ := List.mem_iff_getElem?.mp (List.mem_reverse.mpr hb)
  have hmap : s.heightMap.lookup i = some (b.hash cx.sha256) := by
    rw [hchain.heightMap, hashes, ← List.map_reverse, List.getElem?_map, hi]
    rfl
  obtain ⟨x, hx, -⟩ := hbody.stored i _ hmap
  have hget : s.getBlock (b.hash cx.sha256) = some x := (hbody.getBlock _).trans hx
  obtain ⟨hhash, hKx, -⟩ := hstore.getBlock _ _ hget
  rw [hget, hsame x b hKx (hchain.known b hb) hhash]

theorem indexes_of_found (hget : ∀ b ∈ bs, (rebuildIndexes cx env s).getBlock (b.hash cx.sha256) = some b)
    (hchain : ChainInv cx K (rebuildIndexes cx env s) bs) :
    indexes (rebuildIndexes cx env s) = Indexes.ofBranch cx.sha256 bs := by
  have hframe := @rebuildIndexes_frame cx env s
  rw [IndexFrame.getBlock_eq hframe] at hget
  refine indexes_rebuildIndexes ?_ ?_ hget
  · rw [hchain.height, hframe.height]
  · intro i
    rw [← hchain.heightMap, hframe.heightMap]

/-- A clean call keeps the indexes those of the chain, if the blocks of the chain are found after
it. -/
theorem indexes_follow (hprune : cx.pruneDepth = none) (hcf : CollisionFree cx K) (hstore : StoreInv cx K s)
    (hbs : ChainInv cx K s bs) (heq : indexes s = Indexes.ofBranch cx.sha256 bs) (hb : K b)
    (hclean : (∃ x, (addBlockStep cx env s b).1 = .ok x) ∨ RunsThrough cx env s b)
    (hfound : ∀ bs', ChainInv cx K (addBlockStep cx env s b).2 bs' →
      ∀ x ∈ bs', (addBlockStep cx env s b).2.getBlock (x.hash cx.sha256) = some x) :
    ∃ bs', ChainInv cx K (addBlockStep cx env s b).2 bs' ∧
      indexes (addBlockStep cx env s b).2 = Indexes.ofBranch cx.sha256 bs' := by
  have hnode := NodeInv.step hcf ⟨hstore, bs, hbs⟩ hb hclean
  have hcases := @addBlockStep_cases cx env s b
  obtain ⟨r, s', hstep⟩ : ∃ r s', addBlockStep cx env s b = (r, s') := ⟨_, _, rfl⟩
  rw [hstep] at hcases hclean hfound hnode ⊢
  simp only at hcases hclean hfound hnode ⊢
  cases hcases with
  | rejected => exact ⟨bs, hbs, heq⟩
  | orphaned =>
    obtain ⟨pool, children, hpool, -⟩ := addOrphan_eq env s (b.hash cx.sha256) b
    rw [hpool]
    exact ⟨bs, ⟨hbs.branch, hbs.known, hbs.tip, hbs.height, hbs.heightMap, hbs.undo, hbs.connected⟩, heq⟩
  | extended hadm htip hext =>
    have hchain := hbs.extended hcf hstore hb hadm htip hext
    refine ⟨b :: bs, hchain, ?_⟩
    obtain ⟨hne, -⟩ | ⟨-, -, hadded⟩ | ⟨-, hoff, -⟩ := indexes_step hprune hstep
    · exact absurd rfl hne
    · rw [hadded, heq, hchain.branch.height_eq]
      rfl
    · exact absurd htip hoff
  | stored hadm _ hside _ =>
    have hkept : indexes s' = indexes s := by
      unfold indexes
      rw [hside.txIndex, hside.scriptPubkeyIndex, hside.chainHeightIndex]
    exact ⟨bs, hbs.sideStored hside, hkept.trans heq⟩
  | reorganized _ hoff =>
    obtain ⟨bs', hbs'⟩ := hnode.chain
    refine ⟨bs', hbs', ?_⟩
    obtain ⟨hne, -⟩ | ⟨-, htip, -⟩ | ⟨-, -, s₄, hs₄⟩ := indexes_step hprune hstep
    · exact absurd rfl hne
    · exact absurd htip hoff
    · have hget := hfound bs' hbs'
      simp only [hs₄] at hget hbs' ⊢
      exact indexes_of_found hget hbs'
  | broken e s' hnot _ =>
    obtain ⟨x, hx⟩ | hthrough := hclean
    · cases hx
    · exact absurd hthrough hnot

end Steps

section Runs

variable {cx : Context} {K : Block → Prop} {s : NodeState} {env : Env}

/-- The node holds its chain, and the indexes of it. -/
structure IndexInv (cx : Context) (K : Block → Prop) (s : NodeState) : Prop where
  store : StoreInv cx K s
  body : BodyInv (fun _ => False) s
  chain : ∃ bs, ChainInv cx K s bs ∧ indexes s = Indexes.ofBranch cx.sha256 bs

theorem IndexInv.rebuilt (hsame : ∀ a b, K a → K b → a.hash cx.sha256 = b.hash cx.sha256 → a = b) (env : Env)
    (h : IndexInv cx K s) : indexes (rebuildIndexes cx env s) = indexes s := by
  obtain ⟨bs, hbs, heq⟩ := h.chain
  rw [heq]
  exact indexes_rebuildIndexes hbs.height hbs.heightMap (getBlock_of_chain hsame h.store h.body hbs)

theorem new_rebuilds (h : NodeState.new cx env Disk.empty = .ok s) : ∃ s₂, s = rebuildIndexes cx env s₂ := by
  change initGenesis cx env (blank Disk.empty) = .ok s at h
  unfold initGenesis at h
  split at h
  next => simp at h
  next =>
    split at h
    next => simp at h
    next =>
      split at h
      next => simp at h
      next s₂ _ => exact ⟨s₂, (Except.ok.inj h).symm⟩

theorem IndexInv.fresh (hcf : CollisionFree cx K)
    (hsame : ∀ a b, K a → K b → a.hash cx.sha256 = b.hash cx.sha256 → a = b)
    (h : NodeState.new cx env Disk.empty = .ok s) : IndexInv cx K s := by
  have hnode := NodeInv.fresh hcf (freshNode h)
  have hbody : BodyInv (fun _ => False) s := BodyInv.fresh (freshNode h)
  obtain ⟨bs, hbs⟩ := hnode.chain
  refine ⟨hnode.store, hbody, bs, hbs, ?_⟩
  obtain ⟨s₂, rfl⟩ := new_rebuilds h
  exact indexes_of_found (getBlock_of_chain hsame hnode.store hbody hbs) hbs

theorem IndexInv.step (hprune : cx.pruneDepth = none) (hcf : CollisionFree cx K)
    (hsame : ∀ a b, K a → K b → a.hash cx.sha256 = b.hash cx.sha256 → a = b) {env : Env} {s : NodeState} {b : Block}
    (h : IndexInv cx K s) (hb : K b) (hok : ∃ x, (addBlockStep cx env s b).1 = .ok x) :
    IndexInv cx K (addBlockStep cx env s b).2 := by
  have hbody := h.body.step hprune (fun hfalse => hfalse.elim) (Or.inr hok)
  obtain ⟨bs, hbs, heq⟩ := h.chain
  have hnode : NodeInv cx K (addBlockStep cx env s b).2 :=
    NodeInv.step hcf ⟨h.store, bs, hbs⟩ hb (Or.inl hok)
  exact ⟨hnode.store, hbody, indexes_follow hprune hcf h.store hbs heq hb (Or.inl hok)
    fun bs' hbs' => getBlock_of_chain hsame hnode.store hbody hbs'⟩

/-- After a run of successful calls without pruning, in which blocks with equal hashes are
equal, the indexes are the ones a rebuild computes. -/
theorem run_indexes_rebuilt {s : NodeState} {calls : List Call} (hrun : Run cx s calls)
    (hok : ∀ c ∈ calls, ∃ x, c.result = .ok x) (hprune : cx.pruneDepth = none)
    (hsame : ∀ a b, Known cx calls a → Known cx calls b → a.hash cx.sha256 = b.hash cx.sha256 → a = b)
    (hzero : ∀ a, Known cx calls a → a.hash cx.sha256 ≠ Bytes32.zero) (env : Env) :
    (rebuildIndexes cx env s).txIndex = s.txIndex ∧
      (rebuildIndexes cx env s).scriptPubkeyIndex = s.scriptPubkeyIndex ∧
      (rebuildIndexes cx env s).chainHeightIndex = s.chainHeightIndex := by
  have hcf : CollisionFree cx (Known cx calls) :=
    ⟨Or.inl rfl, fun a b ha hb heq => congrArg Block.header (hsame a b ha hb heq), hzero⟩
  have hgood : ∀ c ∈ calls, Known cx calls c.block ∧ ∃ x, c.result = .ok x := fun c hc =>
    ⟨Or.inr ⟨c, hc, rfl⟩, hok c hc⟩
  have hinv : IndexInv cx (Known cx calls) s := by
    refine (run_keeps ?_ ?_ ?_ ?_ hrun hgood).1
    · exact fun env s h => IndexInv.fresh hcf hsame h
    · exact fun env s b h hb => h.step hprune hcf hsame hb.1 hb.2
    · intro s parent child b h _
      obtain ⟨bs, hbs, heq⟩ := h.chain
      refine ⟨⟨h.store.cached, h.store.stored, ?_⟩, h.body.congr rfl rfl rfl rfl, bs, ?_, heq⟩
      · exact fun k b hb => h.store.orphans k b (shrinks_erase _ _ k b hb)
      · exact ⟨hbs.branch, hbs.known, hbs.tip, hbs.height, hbs.heightMap, hbs.undo, hbs.connected⟩
    · intro env s tipHeight h
      rw [maybePrune_none hprune]
      exact h
  have hrebuilt := hinv.rebuilt hsame env
  exact ⟨congrArg Indexes.tx hrebuilt, congrArg Indexes.scriptPubkey hrebuilt,
    congrArg Indexes.chainHeight hrebuilt⟩

theorem switched_indexes_rebuilt : ∃ s calls, Run scriptNode s calls ∧
      calls.map Call.block = [firstBranch, firstBranch, paidBranch, spendingTip] ∧
      (rebuildIndexes scriptNode today s).txIndex = s.txIndex ∧
      (rebuildIndexes scriptNode today s).scriptPubkeyIndex = s.scriptPubkeyIndex ∧
      (rebuildIndexes scriptNode today s).chainHeightIndex = s.chainHeightIndex := by
  obtain ⟨s, calls, o, -, h⟩ := exists_switched
  exact ⟨o.state, _, h.fullRun, h.blocks, run_indexes_rebuilt h.fullRun (fun c hc => (h.calm c hc).result) rfl
    (fun _ _ => eq_of_nodup (fun _ => Switched.known h) switched_nodup) (Switched.collisionFree h).ne_zero today⟩

end Runs

end KuberCoin.ChainIndexes
