import KuberCoin.AddBlock

/-!
What the helpers of `add_block` leave alone.
`Frame s s'` says that `s'` differs from `s` only in the derived indexes, the header
index, the log, and in blocks missing from the cache or the store. Index updates and
pruning are frames; persisting and caching are described up to a frame.
-/
namespace KuberCoin.Frames

open Bytes Maps Transactions Blocks UtxoSets Params Difficulty Validator Storage NodeStates
  NodeStates.NodeState AddBlock

/-- The values `persist_state` writes, apart from the header index. -/
structure ChainRecord where
  tip : Option Bytes32
  height : Option ℕ
  utxoSet : Option UtxoSet
  utxoHash : Option Bytes32
  heightMap : Option (Map ℕ Bytes32)
  chainwork : Option Bytes32
  blockWork : Option (Map Bytes32 Bytes32)

def chainRecord (d : Disk) : ChainRecord :=
  ⟨d.tip, d.height, d.utxoSet, d.utxoHash, d.heightMap, d.chainwork, d.blockWork⟩

/-- Every binding of the second map is one of the first. -/
def Shrinks {K V : Type} [DecidableEq K] (m m' : Map K V) : Prop :=
  ∀ k v, m'.lookup k = some v → m.lookup k = some v

theorem Shrinks.refl {K V : Type} [DecidableEq K] (m : Map K V) : Shrinks m m := fun _ _ h => h

theorem Shrinks.trans {K V : Type} [DecidableEq K] {m m' m'' : Map K V} (h : Shrinks m m') (h' : Shrinks m' m'') :
    Shrinks m m'' := fun k v hk => h k v (h' k v hk)

theorem shrinks_erase {K V : Type} [DecidableEq K] (m : Map K V) (k : K) : Shrinks m (m.erase k) := by
  intro a v ha
  rw [lookup_erase_eq] at ha
  split at ha
  · simp at ha
  · exact ha

theorem Shrinks.card_le {K V : Type} [DecidableEq K] {m m' : Map K V} (h : Shrinks m m') :
    m'.keys.card ≤ m.keys.card := by
  apply Finset.card_le_card
  intro k hk
  obtain ⟨v, hv⟩ := (mem_iff_lookup m' k).mp (Finmap.mem_keys.mp hk)
  exact Finmap.mem_keys.mpr ((mem_iff_lookup m k).mpr ⟨v, h k v hv⟩)

theorem Shrinks.insert {K V : Type} [DecidableEq K] {m m' : Map K V} (h : Shrinks m m') (k : K) (v : V) :
    Shrinks (m.insert k v) (m'.insert k v) := by
  intro a w ha
  rw [lookup_insert_eq] at ha ⊢
  by_cases hk : a = k
  · rwa [if_pos hk] at ha ⊢
  · rw [if_neg hk] at ha ⊢
    exact h a w ha

structure Frame (s s' : NodeState) : Prop where
  tip : s'.tip = s.tip
  height : s'.height = s.height
  heightMap : s'.heightMap = s.heightMap
  utxoSet : s'.utxoSet = s.utxoSet
  chainwork : s'.chainwork = s.chainwork
  blockWork : s'.blockWork = s.blockWork
  orphanBlocks : s'.orphanBlocks = s.orphanBlocks
  orphansByParent : s'.orphansByParent = s.orphansByParent
  connected : s'.connected = s.connected
  record : chainRecord s'.store.disk = chainRecord s.store.disk
  undo : s'.store.disk.undo = s.store.disk.undo
  cached : Shrinks s.blocks s'.blocks
  stored : Shrinks s.store.disk.blocks s'.store.disk.blocks

namespace Frame

theorem refl (s : NodeState) : Frame s s :=
  ⟨rfl, rfl, rfl, rfl, rfl, rfl, rfl, rfl, rfl, rfl, rfl, Shrinks.refl _, Shrinks.refl _⟩

theorem trans {s s' s'' : NodeState} (h : Frame s s') (h' : Frame s' s'') : Frame s s'' where
  tip := h'.tip.trans h.tip
  height := h'.height.trans h.height
  heightMap := h'.heightMap.trans h.heightMap
  utxoSet := h'.utxoSet.trans h.utxoSet
  chainwork := h'.chainwork.trans h.chainwork
  blockWork := h'.blockWork.trans h.blockWork
  orphanBlocks := h'.orphanBlocks.trans h.orphanBlocks
  orphansByParent := h'.orphansByParent.trans h.orphansByParent
  connected := h'.connected.trans h.connected
  record := h'.record.trans h.record
  undo := h'.undo.trans h.undo
  cached := h.cached.trans h'.cached
  stored := h.stored.trans h'.stored

theorem foldl {α : Type} {f : NodeState → α → NodeState} (hf : ∀ s a, Frame s (f s a)) (l : List α) (s : NodeState) :
    Frame s (l.foldl f s) := by
  induction l generalizing s with
  | nil => exact refl s
  | cons a rest ih => exact (hf s a).trans (ih (f s a))

end Frame

/-- The batches performed on the way from one state to another. -/
structure Performed (s s' : NodeState) (l : List (List WriteOp)) : Prop where
  log : s'.store.log = s.store.log ++ l
  disk : s'.store.disk = s.store.disk.replay l

theorem Performed.nil {s s' : NodeState} (h : s'.store = s.store) : Performed s s' [] := by
  refine ⟨?_, ?_⟩
  · rw [h, List.append_nil]
  · rw [h]
    rfl

theorem Performed.trans {s s' s'' : NodeState} {l l' : List (List WriteOp)} (h : Performed s s' l)
    (h' : Performed s' s'' l') : Performed s s'' (l ++ l') := by
  refine ⟨?_, ?_⟩
  · rw [h'.log, h.log, List.append_assoc]
  · rw [h'.disk, h.disk, Disk.replay_append]

theorem Performed.one {s s' : NodeState} {ops : List WriteOp} (h : s'.store = s.store.perform ops) :
    Performed s s' [ops] := by
  refine ⟨?_, ?_⟩
  · rw [h]
    rfl
  · rw [h]
    rfl

/-- A batch that writes neither the values of `persist_state` nor a block. -/
def Quiet (ops : List WriteOp) : Prop :=
  ∀ d : Disk, chainRecord (d.applyBatch ops) = chainRecord d ∧ (d.applyBatch ops).blocks = d.blocks

theorem replay_quiet {l : List (List WriteOp)} (h : ∀ ops ∈ l, Quiet ops) (d : Disk) :
    chainRecord (d.replay l) = chainRecord d ∧ (d.replay l).blocks = d.blocks := by
  induction l generalizing d with
  | nil => exact ⟨rfl, rfl⟩
  | cons ops rest ih =>
    obtain ⟨hrecord, hblocks⟩ := h ops (by simp) d
    obtain ⟨hrecord', hblocks'⟩ := ih (fun x hx => h x (List.mem_cons_of_mem _ hx)) (d.applyBatch ops)
    exact ⟨hrecord'.trans hrecord, hblocks'.trans hblocks⟩

/-- A frame that keeps the blocks as well and performs quiet batches only. -/
structure IndexFrame (s s' : NodeState) : Prop extends Frame s s' where
  blocks : s'.blocks = s.blocks
  diskBlocks : s'.store.disk.blocks = s.store.disk.blocks
  writes : ∃ l, Performed s s' l ∧ ∀ ops ∈ l, Quiet ops

namespace IndexFrame

theorem refl (s : NodeState) : IndexFrame s s :=
  ⟨Frame.refl s, rfl, rfl, [], Performed.nil rfl, by simp⟩

theorem trans {s s' s'' : NodeState} (h : IndexFrame s s') (h' : IndexFrame s' s'') : IndexFrame s s'' := by
  refine ⟨h.toFrame.trans h'.toFrame, h'.blocks.trans h.blocks, h'.diskBlocks.trans h.diskBlocks, ?_⟩
  obtain ⟨l, hl, hquiet⟩ := h.writes
  obtain ⟨l', hl', hquiet'⟩ := h'.writes
  refine ⟨l ++ l', hl.trans hl', ?_⟩
  intro ops hops
  rcases List.mem_append.mp hops with hops | hops
  · exact hquiet ops hops
  · exact hquiet' ops hops

theorem foldl {α : Type} {f : NodeState → α → NodeState} (hf : ∀ s a, IndexFrame s (f s a)) (l : List α)
    (s : NodeState) : IndexFrame s (l.foldl f s) := by
  induction l generalizing s with
  | nil => exact refl s
  | cons a rest ih => exact (hf s a).trans (ih (f s a))

end IndexFrame

variable {cx : Context} {env : Env}

section Writes

/-- Operations on the stored indexes. -/
def IndexOp : WriteOp → Prop
  | .putIndexTip _ => True
  | .putIndexTx _ => True
  | .putIndexSpk _ => True
  | .putIndexHeight _ => True
  | _ => False

theorem write_eq_some {s s' : NodeState} {ops : List WriteOp} (h : s.write env ops = some s') :
    s' = { s with store := s.store.perform ops } := by
  unfold write at h
  split at h
  · exact (Option.some.inj h).symm
  · simp at h

theorem tryWrite_index (s : NodeState) (op : WriteOp) (hop : IndexOp op) : IndexFrame s (s.tryWrite env [op]) := by
  unfold tryWrite
  cases h : s.write env [op] with
  | none => exact IndexFrame.refl s
  | some s' =>
    rw [write_eq_some h]
    have hquiet : ∀ ops ∈ [[op]], Quiet ops := by
      intro ops hops d
      rw [List.mem_singleton.mp hops]
      cases op <;> first
        | exact hop.elim
        | exact ⟨rfl, rfl⟩
    cases op <;> first
      | exact hop.elim
      | exact ⟨⟨rfl, rfl, rfl, rfl, rfl, rfl, rfl, rfl, rfl, rfl, rfl, Shrinks.refl _, Shrinks.refl _⟩,
          rfl, rfl, _, Performed.one rfl, hquiet⟩

theorem saveIndexes_frame (s : NodeState) : IndexFrame s (saveIndexes env s) := by
  unfold saveIndexes
  refine (tryWrite_index s _ ?_).trans ((tryWrite_index _ _ ?_).trans
    ((tryWrite_index _ _ ?_).trans (tryWrite_index _ _ ?_))) <;> trivial

theorem indexTransactions_frame (height : ℕ) (s : NodeState) (b : Block) :
    IndexFrame s (indexTransactions cx height s b) := by
  unfold indexTransactions
  apply IndexFrame.foldl
  intro s tx
  exact ⟨⟨rfl, rfl, rfl, rfl, rfl, rfl, rfl, rfl, rfl, rfl, rfl, Shrinks.refl _, Shrinks.refl _⟩,
    rfl, rfl, [], Performed.nil rfl, by simp⟩

private theorem heightIndex_frame (s : NodeState) (m : Map Bytes32 ℕ) : IndexFrame s { s with chainHeightIndex := m } :=
  ⟨⟨rfl, rfl, rfl, rfl, rfl, rfl, rfl, rfl, rfl, rfl, rfl, Shrinks.refl _, Shrinks.refl _⟩, rfl, rfl,
    [], Performed.nil rfl, by simp⟩

theorem indexBlock_frame (s : NodeState) (b : Block) (height : ℕ) : IndexFrame s (indexBlock cx env s b height) :=
  (heightIndex_frame s _).trans ((indexTransactions_frame height _ b).trans (saveIndexes_frame _))

theorem indexHeight_frame (s : NodeState) (h : ℕ) : IndexFrame s (indexHeight cx s h) := by
  unfold indexHeight
  split
  · exact IndexFrame.refl s
  · split
    · exact heightIndex_frame s _
    · exact (heightIndex_frame s _).trans (indexTransactions_frame h _ _)

theorem rebuildIndexes_frame (s : NodeState) : IndexFrame s (rebuildIndexes cx env s) := by
  have hclear : IndexFrame s { s with txIndex := ∅, scriptPubkeyIndex := ∅, chainHeightIndex := ∅ } :=
    ⟨⟨rfl, rfl, rfl, rfl, rfl, rfl, rfl, rfl, rfl, rfl, rfl, Shrinks.refl _, Shrinks.refl _⟩, rfl, rfl,
      [], Performed.nil rfl, by simp⟩
  exact hclear.trans ((IndexFrame.foldl indexHeight_frame _ _).trans (saveIndexes_frame _))

end Writes

section Pruning

private theorem applyBatch_deleteBlocks (d : Disk) (hashes : List Bytes32) :
    d.applyBatch (hashes.map WriteOp.deleteBlock) = { d with blocks := eraseAll d.blocks hashes } := by
  induction hashes generalizing d with
  | nil => rfl
  | cons h rest ih =>
    change Disk.applyBatch (d.applyOp (.deleteBlock h)) (rest.map WriteOp.deleteBlock) = _
    rw [ih]
    rfl

theorem shrinks_eraseAll {K V : Type} [DecidableEq K] (m : Map K V) (ks : List K) : Shrinks m (eraseAll m ks) := by
  intro a v ha
  rw [lookup_eraseAll] at ha
  split at ha
  · simp at ha
  · exact ha

private theorem markPruned_frame (s : NodeState) (hashes : List Bytes32) : Frame s (markPruned s hashes) :=
  ⟨rfl, rfl, rfl, rfl, rfl, rfl, rfl, rfl, rfl, rfl, rfl, Shrinks.refl _, Shrinks.refl _⟩

theorem pruneBlocks_frame (s : NodeState) (keepDepth : ℕ) : Frame s (pruneBlocks env s keepDepth) := by
  unfold pruneBlocks
  simp only
  split
  · exact Frame.refl s
  · split
    · exact markPruned_frame s _
    · cases h : s.write env _ with
      | none => exact Frame.refl s
      | some s' =>
        rw [write_eq_some h]
        refine Frame.trans ?_ (markPruned_frame _ _)
        refine ⟨rfl, rfl, rfl, rfl, rfl, rfl, rfl, rfl, rfl, ?_, ?_, Shrinks.refl _, ?_⟩
        · simp only [Store.perform, applyBatch_deleteBlocks]
          rfl
        · simp only [Store.perform, applyBatch_deleteBlocks]
        · simp only [Store.perform, applyBatch_deleteBlocks]
          exact shrinks_eraseAll _ _

theorem autoPrune_frame (s : NodeState) : Frame s (autoPrune cx env s) := by
  unfold autoPrune
  split
  · split
    · exact pruneBlocks_frame s _
    · exact Frame.refl s
  · exact Frame.refl s

theorem autoPrune_none (h : cx.pruneDepth = none) (s : NodeState) : autoPrune cx env s = s := by
  simp [autoPrune, h]

private theorem pruneHash_frame (s : NodeState) (hash : Bytes32) : Frame s (pruneHash env s hash) := by
  unfold pruneHash tryWrite
  cases h : s.write env [.deleteBlock hash] with
  | none =>
    exact ⟨rfl, rfl, rfl, rfl, rfl, rfl, rfl, rfl, rfl, rfl, rfl, shrinks_erase _ _, Shrinks.refl _⟩
  | some s' =>
    rw [write_eq_some h]
    exact ⟨rfl, rfl, rfl, rfl, rfl, rfl, rfl, rfl, rfl, rfl, rfl, shrinks_erase _ _, shrinks_erase _ _⟩

theorem maybePrune_frame (s : NodeState) (tipHeight : ℕ) : Frame s (maybePrune cx env s tipHeight) := by
  unfold maybePrune
  split
  · exact Frame.refl s
  · split
    · exact Frame.refl s
    · exact Frame.foldl pruneHash_frame _ _

theorem maybePrune_none (h : cx.pruneDepth = none) (s : NodeState) (tipHeight : ℕ) :
    maybePrune cx env s tipHeight = s := by
  simp [maybePrune, h]

end Pruning

section Persisting

/-- The undo records that persisting at a height deletes. -/
def staleUndo (s : NodeState) (height : ℕ) : List Bytes32 :=
  if maxReorgDepth < height then s.hashesUpTo (height - maxReorgDepth) else []

/-- The store after `persist_state`'s batch. -/
def persistedDisk (cx : Context) (s : NodeState) (tip : Bytes32) (height : ℕ) : Disk :=
  { s.store.disk with
    tip := some tip
    height := some height
    utxoSet := some s.utxoSet
    utxoHash := some (commitmentHash cx.sha256 s.utxoSet)
    heightMap := some s.heightMap
    chainwork := some s.chainwork
    blockWork := some s.blockWork
    blockIndex := some s.blockIndex
    undo := eraseAll s.store.disk.undo (staleUndo s height) }

private theorem applyBatch_deleteUndo (d : Disk) (hashes : List Bytes32) :
    d.applyBatch (hashes.map WriteOp.deleteUndo) = { d with undo := eraseAll d.undo hashes } := by
  induction hashes generalizing d with
  | nil => rfl
  | cons h rest ih =>
    change Disk.applyBatch (d.applyOp (.deleteUndo h)) (rest.map WriteOp.deleteUndo) = _
    rw [ih]
    rfl

theorem applyBatch_persistOps (s : NodeState) (tip : Bytes32) (height : ℕ) :
    s.store.disk.applyBatch (persistOps cx s tip height) = persistedDisk cx s tip height := by
  unfold persistOps persistedDisk staleUndo
  rw [Disk.applyBatch, List.foldl_append]
  split
  · exact applyBatch_deleteUndo _ _
  · rfl

/-- The state right after `persist_state`'s batch. -/
def persisted (cx : Context) (s : NodeState) (tip : Bytes32) (height : ℕ) : NodeState :=
  { s with store := s.store.perform (persistOps cx s tip height) }

theorem persistState_eq_some {s s' : NodeState} {tip : Bytes32} {height : ℕ}
    (h : persistState cx env s tip height = some s') : Frame (persisted cx s tip height) s' ∧
      (cx.pruneDepth = none → s' = persisted cx s tip height) := by
  unfold persistState at h
  cases hw : s.write env (persistOps cx s tip height) with
  | none => simp [hw] at h
  | some s₁ =>
    rw [hw, Option.map_some, Option.some.injEq, write_eq_some hw] at h
    subst h
    exact ⟨autoPrune_frame _, fun hp => autoPrune_none hp _⟩

theorem persisted_disk (s : NodeState) (tip : Bytes32) (height : ℕ) :
    (persisted cx s tip height).store.disk = persistedDisk cx s tip height :=
  applyBatch_persistOps s tip height

/-- A batch that writes the values of `persist_state` and no block. -/
def Persists (r : ChainRecord) (ops : List WriteOp) : Prop :=
  ∀ d : Disk, chainRecord (d.applyBatch ops) = r ∧ (d.applyBatch ops).blocks = d.blocks

theorem persistOps_persists (s : NodeState) (tip : Bytes32) (height : ℕ) :
    Persists ⟨some tip, some height, some s.utxoSet, some (commitmentHash cx.sha256 s.utxoSet),
      some s.heightMap, some s.chainwork, some s.blockWork⟩ (persistOps cx s tip height) := by
  intro d
  -- the batch does not depend on the store it is performed on
  have hdisk : d.applyBatch (persistOps cx s tip height) =
      persistedDisk cx { s with store := ⟨d, []⟩ } tip height :=
    applyBatch_persistOps { s with store := ⟨d, []⟩ } tip height
  rw [hdisk]
  exact ⟨rfl, rfl⟩

end Persisting

section Caching

theorem evict_shrinks (cap : ℕ) (blocks : Map Bytes32 Block) (order : List Bytes32) :
    Shrinks blocks (evict cap blocks order).1 := by
  induction order generalizing blocks with
  | nil => exact Shrinks.refl _
  | cons old rest ih =>
    unfold evict
    split
    · exact (shrinks_erase blocks old).trans (ih _)
    · exact Shrinks.refl _

end Caching

end KuberCoin.Frames
