import KuberCoin.ProvenWork
import KuberCoin.Sessions

/-!
The cache of blocks with its eviction queue (crate `node`, `state.rs`), over runs of a node that
may be opened again on its store. The queue can hold a hash twice, and hashes of blocks that are
gone from the cache, but every cached block has its hash in it. So the eviction loop ends before
the queue is empty, and what it evicts is still in the store.
-/
namespace KuberCoin.BlockCaches

open Bytes Maps Transactions Blocks Params Difficulty Validator Storage NodeStates NodeStates.NodeState AddBlock
  Frames StepCases Runs ChainInvariants Sessions ProvenWork

section Eviction

variable {blocks : Map Bytes32 Block} {order : List Bytes32}

/-- The eviction loop, with a bound on its rounds; a round with an empty queue removes nothing. -/
def evictionLoop (cap : ℕ) : ℕ → Map Bytes32 Block → List Bytes32 → Option (Map Bytes32 Block × List Bytes32)
  | rounds, blocks, order =>
    if cap < blocks.keys.card then
      match rounds with
      | 0 => none
      | rounds + 1 =>
        match order with
        | [] => evictionLoop cap rounds blocks []
        | old :: order => evictionLoop cap rounds (blocks.erase old) order
    else some (blocks, order)

/-- Every cached block has its hash in the queue. -/
def Covers (blocks : Map Bytes32 Block) (order : List Bytes32) : Prop :=
  ∀ k b, blocks.lookup k = some b → k ∈ order

theorem Covers.erase {old : Bytes32} (h : Covers blocks (old :: order)) : Covers (blocks.erase old) order := by
  intro k b hk
  rw [lookup_erase_eq] at hk
  by_cases hold : k = old
  · rw [if_pos hold] at hk
    cases hk
  · rw [if_neg hold] at hk
    exact (List.mem_cons.mp (h k b hk)).resolve_left hold

theorem Covers.insert (h : Covers blocks order) (hash : Bytes32) (b : Block) :
    Covers (blocks.insert hash b) (order ++ [hash]) := by
  intro k x hk
  rw [lookup_insert_eq] at hk
  by_cases hash_eq : k = hash
  · exact List.mem_append_right order (List.mem_singleton.mpr hash_eq)
  · rw [if_neg hash_eq] at hk
    exact List.mem_append_left [hash] (h k x hk)

/-- The loop takes at most a round for each entry of the queue. -/
theorem Covers.evict {cap : ℕ} {blocks : Map Bytes32 Block} {order : List Bytes32} (h : Covers blocks order) :
    evictionLoop cap order.length blocks order = some (evict cap blocks order) ∧
      (evict cap blocks order).1.keys.card ≤ cap ∧ Covers (evict cap blocks order).1 (evict cap blocks order).2 := by
  induction order generalizing blocks with
  | nil =>
    have hempty : blocks.keys = ∅ := by
      refine Finset.eq_empty_of_forall_notMem fun k hk => ?_
      obtain ⟨b, hb⟩ := (mem_iff_lookup blocks k).mp (Finmap.mem_keys.mp hk)
      exact List.not_mem_nil (h k b hb)
    have hcard : blocks.keys.card = 0 := by rw [hempty, Finset.card_empty]
    refine ⟨?_, by rw [NodeState.evict, hcard]; exact Nat.zero_le cap, h⟩
    unfold evictionLoop
    rw [if_neg (by omega), NodeState.evict]
  | cons old order ih =>
    obtain ⟨hloop, hcard, hcovers⟩ := ih h.erase
    by_cases hfull : cap < blocks.keys.card
    · rw [List.length_cons, NodeState.evict, if_pos hfull]
      unfold evictionLoop
      rw [if_pos hfull]
      exact ⟨hloop, hcard, hcovers⟩
    · rw [NodeState.evict, if_neg hfull]
      unfold evictionLoop
      rw [if_neg hfull]
      exact ⟨rfl, Nat.le_of_not_lt hfull, h⟩

end Eviction

section Moving

variable {cx : Context} {env : Env} {S : Bytes32 → Block → Prop} {W : Block → Prop} {s s' s'' : NodeState} {k : Bytes32}
  {b : Block}

/-- The queue covers the cache, and what the node holds has the properties `S` and `W`. -/
structure Kept (S : Bytes32 → Block → Prop) (W : Block → Prop) (s : NodeState) : Prop where
  covered : Covers s.blocks s.cacheOrder
  cached : ∀ k b, s.blocks.lookup k = some b → S k b
  stored : ∀ k b, s.store.disk.blocks.lookup k = some b → S k b
  orphans : ∀ k b, s.orphanBlocks.lookup k = some b → W b

/-- A step that keeps this and, with pruning off, a stored block under each hash that has one. -/
structure Moves (cx : Context) (S : Bytes32 → Block → Prop) (W : Block → Prop) (s s' : NodeState) : Prop where
  kept : Kept S W s → Kept S W s'
  retained : cx.pruneDepth = none → ∀ k b, s.store.disk.blocks.lookup k = some b →
    ∃ b', s'.store.disk.blocks.lookup k = some b'

theorem Moves.refl (s : NodeState) : Moves cx S W s s := ⟨id, fun _ _ b hb => ⟨b, hb⟩⟩

theorem Moves.trans (h : Moves cx S W s s') (h' : Moves cx S W s' s'') : Moves cx S W s s'' where
  kept hs := h'.kept (h.kept hs)
  retained hoff k b hb := by
    obtain ⟨b', hb'⟩ := h.retained hoff k b hb
    exact h'.retained hoff k b' hb'

theorem Moves.of_frame (hf : Frame s s') (horder : s'.cacheOrder = s.cacheOrder)
    (hdisk : cx.pruneDepth = none → s'.store.disk.blocks = s.store.disk.blocks) : Moves cx S W s s' where
  kept hs := by
    refine ⟨fun k b hb => ?_, fun k b hb => hs.cached k b (hf.cached k b hb),
      fun k b hb => hs.stored k b (hf.stored k b hb), fun k b hb => hs.orphans k b (hf.orphanBlocks ▸ hb)⟩
    rw [horder]
    exact hs.covered k b (hf.cached k b hb)
  retained hoff k b hb := ⟨b, by rw [hdisk hoff]; exact hb⟩

theorem Moves.of_eq (hblocks : s'.blocks = s.blocks) (horder : s'.cacheOrder = s.cacheOrder)
    (hdisk : s'.store.disk.blocks = s.store.disk.blocks) (horphans : s'.orphanBlocks = s.orphanBlocks) :
    Moves cx S W s s' where
  kept hs := by
    refine ⟨?_, fun k b hb => hs.cached k b (hblocks ▸ hb), fun k b hb => hs.stored k b (hdisk ▸ hb),
      fun k b hb => hs.orphans k b (horphans ▸ hb)⟩
    rw [hblocks, horder]
    exact hs.covered
  retained _ k b hb := ⟨b, by rw [hdisk]; exact hb⟩

theorem Moves.cache (s : NodeState) (hb : S k b) : Moves cx S W s (insertBlockCache cx s k b) where
  kept hs := ⟨(hs.covered.insert k b).evict.2.2, forall_insert hs.cached hb (evict_shrinks _ _ _), hs.stored, hs.orphans⟩
  retained _ _ x hx := ⟨x, hx⟩

theorem Moves.put (s : NodeState) (hb : S k b) :
    Moves cx S W s { s with store := s.store.perform [.putBlock k b] } where
  kept hs := ⟨hs.covered, hs.cached, forall_insert hs.stored hb (Shrinks.refl _), hs.orphans⟩
  retained _ a x hx := by
    show ∃ b', (s.store.disk.blocks.insert k b).lookup a = some b'
    rw [lookup_insert_eq]
    by_cases hak : a = k
    · exact ⟨b, if_pos hak⟩
    · exact ⟨x, by rw [if_neg hak]; exact hx⟩

end Moving

section Orders

variable {cx : Context} {env : Env}

theorem tryWrite_order (s : NodeState) (ops : List WriteOp) : (s.tryWrite env ops).cacheOrder = s.cacheOrder := by
  unfold tryWrite
  cases h : s.write env ops with
  | none => rfl
  | some s' =>
    rw [write_eq_some h]
    rfl

theorem saveIndexes_order (s : NodeState) : (saveIndexes env s).cacheOrder = s.cacheOrder := by
  simp only [saveIndexes, tryWrite_order]

theorem foldl_order {α : Type} {f : NodeState → α → NodeState} (hf : ∀ s a, (f s a).cacheOrder = s.cacheOrder)
    (l : List α) (s : NodeState) : (l.foldl f s).cacheOrder = s.cacheOrder := by
  induction l generalizing s with
  | nil => rfl
  | cons a rest ih => exact (ih (f s a)).trans (hf s a)

theorem indexTransactions_order (height : ℕ) (s : NodeState) (b : Block) :
    (indexTransactions cx height s b).cacheOrder = s.cacheOrder := by
  unfold indexTransactions
  refine foldl_order (fun s tx => ?_) _ s
  rfl

theorem indexBlock_order (s : NodeState) (b : Block) (height : ℕ) :
    (indexBlock cx env s b height).cacheOrder = s.cacheOrder :=
  (saveIndexes_order _).trans (indexTransactions_order height _ b)

theorem indexHeight_order (s : NodeState) (h : ℕ) : (indexHeight cx s h).cacheOrder = s.cacheOrder := by
  unfold indexHeight
  split
  next => rfl
  next =>
    split
    next => rfl
    next => exact indexTransactions_order h _ _

theorem rebuildIndexes_order (s : NodeState) : (rebuildIndexes cx env s).cacheOrder = s.cacheOrder :=
  (saveIndexes_order _).trans (foldl_order indexHeight_order _ _)

theorem pruneBlocks_order (s : NodeState) (keepDepth : ℕ) :
    (pruneBlocks env s keepDepth).cacheOrder = s.cacheOrder := by
  unfold pruneBlocks
  simp only
  split
  next => rfl
  next =>
    split
    next => rfl
    next =>
      split
      next => rfl
      next s' hw =>
        rw [write_eq_some hw]
        rfl

theorem autoPrune_order (s : NodeState) : (autoPrune cx env s).cacheOrder = s.cacheOrder := by
  unfold autoPrune
  split
  next =>
    split
    next => exact pruneBlocks_order s _
    next => rfl
  next => rfl

theorem maybePrune_order (s : NodeState) (tipHeight : ℕ) :
    (maybePrune cx env s tipHeight).cacheOrder = s.cacheOrder := by
  unfold maybePrune
  split
  next => rfl
  next =>
    split
    next => rfl
    next =>
      refine foldl_order (fun s hash => ?_) _ s
      exact tryWrite_order s [.deleteBlock hash]

end Orders

section Steps

variable {cx : Context} {env : Env} {S : Bytes32 → Block → Prop} {W : Block → Prop} {s s' : NodeState} {b : Block}
  {d : Disk}

theorem Moves.index (s : NodeState) (b : Block) (height : ℕ) : Moves cx S W s (indexBlock cx env s b height) :=
  .of_frame (indexBlock_frame s b height).toFrame (indexBlock_order s b height)
    fun _ => (indexBlock_frame s b height).diskBlocks

theorem Moves.rebuild (s : NodeState) : Moves cx S W s (rebuildIndexes cx env s) :=
  .of_frame (rebuildIndexes_frame s).toFrame (rebuildIndexes_order s) fun _ => (rebuildIndexes_frame s).diskBlocks

theorem Moves.maybePrune (s : NodeState) (tipHeight : ℕ) : Moves cx S W s (maybePrune cx env s tipHeight) :=
  .of_frame (maybePrune_frame s tipHeight) (maybePrune_order s tipHeight) fun hoff => by rw [maybePrune_none hoff]

theorem Moves.persist {tip : Bytes32} {height : ℕ} (h : persistState cx env s tip height = some s') :
    Moves cx S W s s' := by
  have hdisk : (persisted cx s tip height).store.disk.blocks = s.store.disk.blocks := by
    rw [persisted_disk]
    rfl
  have hwritten : Moves cx S W s (persisted cx s tip height) := .of_eq rfl rfl hdisk rfl
  obtain ⟨hframe, hnone⟩ := persistState_eq_some h
  refine hwritten.trans (.of_frame hframe ?_ fun hoff => by rw [hnone hoff])
  obtain ⟨s₁, hw, rfl⟩ := Option.map_eq_some_iff.mp h
  rw [autoPrune_order, write_eq_some hw]
  rfl

theorem Moves.connectTip (s : NodeState) (work : Bytes32) (hb : S (b.hash cx.sha256) b) :
    Moves cx S W s (connectTip cx env s b work).2 := by
  unfold AddBlock.connectTip
  simp only
  split
  next => exact .refl s
  next =>
    split
    next => exact .of_eq rfl rfl rfl rfl
    next undo u _ =>
      split
      next => exact .of_eq rfl rfl rfl rfl
      next s₁ hw =>
        have hwritten : Moves cx S W s s₁ := by
          rw [write_eq_some hw]
          exact .of_eq rfl rfl rfl rfl
        have hadvanced : Moves cx S W s (advanceTip cx s₁ b work) :=
          (hwritten.trans (.cache s₁ hb)).trans (.of_eq rfl rfl rfl rfl)
        split
        next => exact hadvanced
        next s₃ hpersist =>
          have hpersisted := hadvanced.trans (.persist hpersist)
          split
          next => exact hpersisted
          next s₄ hw₄ =>
            rw [write_eq_some hw₄]
            exact (hpersisted.trans (.put s₃ hb)).trans (.index _ b _)

theorem Moves.connectBlocks (s : NodeState) (hashes : List Bytes32) :
    Moves cx S W s (connectBlocks cx env s hashes).2 := by
  induction hashes generalizing s with
  | nil => exact .refl s
  | cons hash rest ih =>
    have hone : Moves cx S W s (connectBlock cx env s hash).2 := by
      unfold connectBlock
      split
      next => exact .refl s
      next b hb =>
        split
        next => exact .refl s
        next =>
          split
          next => exact .of_eq rfl rfl rfl rfl
          next undo u _ =>
            split
            next => exact .of_eq rfl rfl rfl rfl
            next s₁ hw =>
              rw [write_eq_some hw]
              exact .of_eq rfl rfl rfl rfl
    unfold AddBlock.connectBlocks
    split
    next e s' heq =>
      rw [heq] at hone
      exact hone
    next s' heq =>
      rw [heq] at hone
      exact hone.trans (ih s')

theorem Moves.reorganize (s : NodeState) (b : Block) (work : Bytes32) :
    Moves cx S W s (reorganize cx env s b work).2 := by
  have hrolled : ∀ {r s₁ hashes}, disconnectBlocks s hashes = (r, s₁) → Moves cx S W s s₁ := by
    intro r s₁ hashes h
    rw [disconnectBlocks_eq h]
    exact .of_eq rfl rfl rfl rfl
  unfold AddBlock.reorganize
  simp only
  split
  next => exact .refl s
  next disconnect connect _ =>
    split
    next => exact .refl s
    next =>
      split
      next => exact .refl s
      next =>
        split
        next e s₁ hs₁ => exact hrolled hs₁
        next s₁ hs₁ =>
          have hnew := (hrolled hs₁).trans (@Moves.connectBlocks cx env S W s₁ connect)
          split
          next e s₂ hs₂ =>
            rw [hs₂] at hnew
            exact hnew
          next s₂ hs₂ =>
            rw [hs₂] at hnew
            have hmoved : Moves cx S W s (moveTip cx s₂ b work) := hnew.trans (.of_eq rfl rfl rfl rfl)
            split
            next => exact hmoved
            next s₄ hpersist => exact (hmoved.trans (.persist hpersist)).trans (.rebuild s₄)

theorem Moves.storeSide {s₁ : NodeState} {work : Bytes32} (hb : S (b.hash cx.sha256) b)
    (hs : storeSide cx env s b work = some s₁) : Moves cx S W s s₁ := by
  unfold AddBlock.storeSide at hs
  obtain ⟨s₂, hw, rfl⟩ := Option.map_eq_some_iff.mp hs
  obtain rfl := write_eq_some hw
  exact ((Moves.put s hb).trans (.cache _ hb)).trans (.of_eq rfl rfl rfl rfl)

theorem Moves.step (s : NodeState) {b : Block} (hb : S (b.hash cx.sha256) b) (hwaits : W b) :
    Moves cx S W s (addBlockStep cx env s b).2 := by
  unfold addBlockStep
  split
  next => exact .refl s
  next =>
    split
    next =>
      obtain ⟨pool, children, heq, hpool⟩ := addOrphan_eq env s (b.hash cx.sha256) b
      simp only [heq]
      exact ⟨fun hs => ⟨hs.covered, hs.cached, hs.stored, forall_insert hs.orphans hwaits hpool⟩,
        fun _ _ x hx => ⟨x, hx⟩⟩
    next =>
      split
      next => exact .refl s
      next =>
        split
        next => exact .connectTip s _ hb
        next =>
          unfold connectSide
          split
          next => exact .refl s
          next s₁ hstored =>
            have hside : Moves cx S W s s₁ := .storeSide hb hstored
            split
            next => exact hside
            next => exact hside.trans (.reorganize s₁ b _)

theorem Moves.takeOrphan (s : NodeState) (parent child : Bytes32) : Moves cx S W s (takeOrphan s parent child) where
  kept hs := ⟨hs.covered, hs.cached, hs.stored, fun k b hb => hs.orphans k b (shrinks_erase _ _ k b hb)⟩
  retained _ _ b hb := ⟨b, hb⟩

end Steps

section Serving

variable (cx : Context) {given : List Block} {b : Block} {s : NodeState} {env : Env}

/-- The states of a node from `s₀` on, between calls of `add_block` and before the calls for the
orphans in them, with the blocks it was given. -/
inductive Serves (s₀ : NodeState) : NodeState → List Block → Prop where
  | here : Serves s₀ s₀ []
  | added {env : Env} {fuel : ℕ} {s : NodeState} {given : List Block} {b : Block} {o : Outcome} (hs : Serves s₀ s given)
      (h : addBlockFuel cx env fuel s b = some o) : Serves s₀ o.state (given ++ [b])
  | during {env : Env} {fuel : ℕ} {s : NodeState} {given : List Block} {b : Block} {o : Outcome} {c : Call}
      (hs : Serves s₀ s given) (h : addBlockFuel cx env fuel s b = some o) (hc : c ∈ o.calls) :
      Serves s₀ c.before (given ++ [b])
  | reopened {env : Env} {s s' : NodeState} {given : List Block} (hs : Serves s₀ s given)
      (h : NodeState.new cx env s.store.disk = .ok s') : Serves s₀ s' given

/-- A block the node has or was given. -/
def Given (given : List Block) (b : Block) : Prop := b ∈ cx.genesis :: given

/-- A block under its own hash. -/
def GivenAt (given : List Block) (k : Bytes32) (b : Block) : Prop := b.hash cx.sha256 = k ∧ Given cx given b

variable {cx}

theorem Given.append (h : Given cx given b) (more : List Block) : Given cx (given ++ more) b := by
  rw [Given, ← List.cons_append]
  exact List.mem_append_left more h

theorem Given.last (given : List Block) (b : Block) : Given cx (given ++ [b]) b :=
  List.mem_cons_of_mem _ (List.mem_append_right given (List.mem_singleton.mpr rfl))

theorem Kept.append (h : Kept (GivenAt cx given) (Given cx given) s) (more : List Block) :
    Kept (GivenAt cx (given ++ more)) (Given cx (given ++ more)) s where
  covered := h.covered
  cached k b hb := ⟨(h.cached k b hb).1, (h.cached k b hb).2.append more⟩
  stored k b hb := ⟨(h.stored k b hb).1, (h.stored k b hb).2.append more⟩
  orphans k b hb := (h.orphans k b hb).append more

theorem Kept.getBlock (h : Kept (GivenAt cx given) (Given cx given) s) {k : Bytes32}
    (hb : s.store.disk.blocks.lookup k = some b) :
    ∃ b', s.getBlock k = some b' ∧ b'.hash cx.sha256 = k ∧ b' ∈ cx.genesis :: given := by
  unfold NodeState.getBlock
  cases hcache : s.blocks.lookup k with
  | some b' => exact ⟨b', rfl, h.cached k b' hcache⟩
  | none => exact ⟨b, hb, h.stored k b hb⟩

end Serving

end KuberCoin.BlockCaches
