import KuberCoin.Frames
import KuberCoin.BlockEffects

/-!
Everything one call of `add_block` can do, said once.
A call rejects its block, keeps it as an orphan, extends the tip, keeps it on a side
chain, or switches to its chain; or it fails after it has begun to change the chain.
`RunsThrough` is the condition under which the last cannot happen.
-/
namespace KuberCoin.StepCases

open Bytes Maps Transactions Blocks UtxoSets Params Difficulty Validator Storage NodeStates
  NodeStates.NodeState AddBlock Frames BlockEffects

variable (cx : Context) (env : Env)

/-- The block passed the checks that come before validation. -/
structure Admitted (s : NodeState) (b : Block) : Prop where
  early : earlyChecks cx env b = .ok ()
  parent : parentKnown s b.header.prevHash = true
  header : headerChecks cx s b = .ok ()

section Inversions

variable {cx env} {s : NodeState} {b : Block}

theorem earlyChecks_genesis (h : earlyChecks cx env b = .ok ()) (hheight : b.header.height = 0) :
    b.hash cx.sha256 = cx.genesisHash := by
  unfold earlyChecks at h
  simp only [hheight] at h
  by_contra hne
  simp [verifyCheckpoint, checkpoints, Ne.symm hne] at h

/-- A block that passes the header checks is a root with the bits of genesis, or one above its
parent with the expected bits. -/
theorem headerChecks_cases (h : headerChecks cx s b = .ok ()) : b.header.prevHash = Bytes32.zero ∧ b.header.height = 0 ∧
        b.header.bits = cx.networkParams.genesisBits ∨
      b.header.prevHash ≠ Bytes32.zero ∧ ∃ parent, s.getBlock b.header.prevHash = some parent ∧
        b.header.height = parent.header.height + 1 ∧
        b.header.bits = calculateNextBitsForParentAndTimestamp cx s.getBlock b.header.prevHash
          b.header.height (some b.header.timestamp) := by
  unfold headerChecks at h
  simp only at h
  split at h
  next hzero =>
    split at h
    next => cases h
    next hheight =>
      split at h
      next => cases h
      next hbits => exact Or.inl ⟨hzero, not_not.mp hheight, not_not.mp hbits⟩
  next hne =>
    split at h
    next => cases h
    next parent hparent =>
      split at h
      next => cases h
      next hheight =>
        split at h
        next => cases h
        next hbits => exact Or.inr ⟨hne, parent, hparent, not_not.mp hheight, not_not.mp hbits⟩

end Inversions

/-- The block was validated and applied on top of the tip, and everything was stored. -/
structure Extended (s : NodeState) (b : Block) (undo : BlockUndoData) (s' : NodeState) : Prop where
  validated : ∃ clock, validateBlockCached cx.sha256 cx.checks clock b s.utxoSet (some s.getMtp) = .ok ()
  applied : applyBlockWithUndo cx.sha256 s.utxoSet b = (.ok undo, s'.utxoSet)
  tip : s'.tip = b.hash cx.sha256
  height : s'.height = b.header.height
  heightMap : s'.heightMap = s.heightMap.insert b.header.height (b.hash cx.sha256)
  chainwork : s'.chainwork = cumulativeWork s b
  blockWork : s'.blockWork = s.blockWork.insert (b.hash cx.sha256) (cumulativeWork s b)
  orphanBlocks : s'.orphanBlocks = s.orphanBlocks
  orphansByParent : s'.orphansByParent = s.orphansByParent
  connected : s'.connected = s.connected.insert (b.hash cx.sha256) b
  record : chainRecord s'.store.disk =
    ⟨some s'.tip, some s'.height, some s'.utxoSet, some (commitmentHash cx.sha256 s'.utxoSet),
      some s'.heightMap, some s'.chainwork, some s'.blockWork⟩
  writes : cx.pruneDepth = none → ∃ ops l,
    Performed s s' ([[.putUndo (b.hash cx.sha256) undo], ops, [.putBlock (b.hash cx.sha256) b]] ++ l) ∧
      Persists (chainRecord s'.store.disk) ops ∧ .putTip (b.hash cx.sha256) ∈ ops ∧
      ∀ ops ∈ l, Quiet ops
  undo : s'.store.disk.undo =
    eraseAll (s.store.disk.undo.insert (b.hash cx.sha256) undo) (staleUndo s' b.header.height)
  cached : Shrinks (s.blocks.insert (b.hash cx.sha256) b) s'.blocks
  stored : Shrinks (s.store.disk.blocks.insert (b.hash cx.sha256) b) s'.store.disk.blocks
  kept : s'.store.disk.blocks.lookup (b.hash cx.sha256) = some b
  unpruned : cx.pruneDepth = none →
    s'.store.disk.blocks = s.store.disk.blocks.insert (b.hash cx.sha256) b

/-- The block was written to the store, the cache and the work table. -/
structure SideStored (s : NodeState) (b : Block) (s' : NodeState) : Prop where
  tip : s'.tip = s.tip
  height : s'.height = s.height
  heightMap : s'.heightMap = s.heightMap
  utxoSet : s'.utxoSet = s.utxoSet
  chainwork : s'.chainwork = s.chainwork
  blockWork : s'.blockWork = s.blockWork.insert (b.hash cx.sha256) (cumulativeWork s b)
  orphanBlocks : s'.orphanBlocks = s.orphanBlocks
  orphansByParent : s'.orphansByParent = s.orphansByParent
  connected : s'.connected = s.connected
  txIndex : s'.txIndex = s.txIndex
  scriptPubkeyIndex : s'.scriptPubkeyIndex = s.scriptPubkeyIndex
  chainHeightIndex : s'.chainHeightIndex = s.chainHeightIndex
  record : chainRecord s'.store.disk = chainRecord s.store.disk
  undo : s'.store.disk.undo = s.store.disk.undo
  cached : Shrinks (s.blocks.insert (b.hash cx.sha256) b) s'.blocks
  diskBlocks : s'.store.disk.blocks = s.store.disk.blocks.insert (b.hash cx.sha256) b
  writes : Performed s s' [[.putBlock (b.hash cx.sha256) b]]

/-- The hashes to disconnect and to connect for a switch to the chain of `b`. -/
def forkOf (s : NodeState) (b : Block) : Except AddBlockError (List Bytes32 × List Bytes32) :=
  findForkBlocks s.getBlock (s.height + b.header.height + 2) s.tip (b.hash cx.sha256)

/-- The switch passes the limits on depth and checkpoints. -/
def Permitted (s : NodeState) (disconnect : List Bytes32) : Prop :=
  disconnect.length ≤ maxReorgDepth ∧
    reorgAllowed (checkpoints cx) (s.height - disconnect.length) = true

/-- The node switched from its chain to the one that ends in `b`. -/
structure Reorganized (s : NodeState) (b : Block) (disconnect connect : List Bytes32)
    (s₁ s₂ s' : NodeState) : Prop where
  fork : forkOf cx s b = .ok (disconnect, connect)
  permitted : Permitted cx s disconnect
  disconnected : disconnectBlocks s disconnect = (.ok (), s₁)
  reconnected : connectBlocks cx env s₁ connect = (.ok (), s₂)
  tip : s'.tip = b.hash cx.sha256
  height : s'.height = b.header.height
  heightMap : s'.heightMap =
    eraseAll s₂.heightMap (List.range' (b.header.height + 1) (s₂.height - b.header.height))
  utxoSet : s'.utxoSet = s₂.utxoSet
  blockWork : s'.blockWork = s₂.blockWork
  orphanBlocks : s'.orphanBlocks = s₂.orphanBlocks
  orphansByParent : s'.orphansByParent = s₂.orphansByParent
  connected : s'.connected = s₂.connected
  record : chainRecord s'.store.disk =
    ⟨some s'.tip, some s'.height, some s'.utxoSet, some (commitmentHash cx.sha256 s'.utxoSet),
      some s'.heightMap, some s'.chainwork, some s'.blockWork⟩
  undo : s'.store.disk.undo = eraseAll s₂.store.disk.undo (staleUndo s' b.header.height)
  cached : Shrinks s₂.blocks s'.blocks
  stored : Shrinks s₂.store.disk.blocks s'.store.disk.blocks
  unpruned : cx.pruneDepth = none → s'.blocks = s₂.blocks ∧
    s'.store.disk.blocks = s₂.store.disk.blocks
  writes : cx.pruneDepth = none → ∃ ops l, Performed s₂ s' (ops :: l) ∧
    Persists (chainRecord s'.store.disk) ops ∧ ∀ ops ∈ l, Quiet ops

/-- Every block of the new chain is found, validates on the set the ones before it leave,
and has distinct output ids. -/
def ConnectsThrough : NodeState → List Bytes32 → Prop
  | _, [] => True
  | s, hash :: rest =>
      ∃ b, s.getBlock hash = some b ∧
        validateBlockCached cx.sha256 cx.checks (env.now hash) b s.utxoSet (some s.getMtp) = .ok () ∧
        DistinctOutputs cx.sha256 b.transactions ∧
        ConnectsThrough (connectBlock cx env s hash).2 rest

/-- Nothing fails once the call has begun to change the chain. -/
structure RunsThrough (s : NodeState) (b : Block) : Prop where
  writes : ∀ log ops, env.writeOk log ops = true
  extend : Admitted cx env s b → b.header.prevHash = s.tip → validateTip cx env s b = .ok () →
    DistinctOutputs cx.sha256 b.transactions
  switch : Admitted cx env s b → b.header.prevHash ≠ s.tip →
    ∀ s₁, storeSide cx env s b (cumulativeWork s b) = some s₁ →
    compareWork (cumulativeWork s b) s.chainwork = .gt →
    ∀ disconnect connect, forkOf cx s₁ b = .ok (disconnect, connect) → Permitted cx s₁ disconnect →
    (∀ hash ∈ disconnect, (s₁.store.disk.undo.lookup hash).isSome = true) ∧
      ConnectsThrough cx env (disconnectBlocks s₁ disconnect).2 connect

/-- What a call that fails half-way leaves behind when no write fails: another UTXO set,
or the stored block with a part of its chain connected. -/
def PartlyDone (s : NodeState) (b : Block) (s' : NodeState) : Prop :=
  (∃ u, s' = { s with utxoSet := u }) ∨
    ∃ s₁ u hashes, Admitted cx env s b ∧ SideStored cx s b s₁ ∧
      s' = (connectBlocks cx env { s₁ with utxoSet := u } hashes).2

/-- What a call can do. -/
inductive StepCase (s : NodeState) (b : Block) : Except AddBlockError Exit → NodeState → Prop where
  | rejected (e : AddBlockError)
      (why : ¬ Admitted cx env s b ∨
        (b.header.prevHash = s.tip ∧ validateTip cx env s b ≠ .ok ()) ∨
        ∃ ops, env.writeOk s.store.log ops = false) :
      StepCase s b (.error e) s
  | orphaned (parent : parentKnown s b.header.prevHash = false)
      (early : earlyChecks cx env b = .ok ()) :
      StepCase s b (.ok .orphaned) (addOrphan env s (b.hash cx.sha256) b)
  | extended {undo : BlockUndoData} {s' : NodeState} (admitted : Admitted cx env s b)
      (onTip : b.header.prevHash = s.tip) (h : Extended cx s b undo s') :
      StepCase s b (.ok .connected) s'
  | stored {s₁ : NodeState} {r : Except AddBlockError Exit} (admitted : Admitted cx env s b)
      (offTip : b.header.prevHash ≠ s.tip) (h : SideStored cx s b s₁)
      (why : (r = .ok .stored ∧ compareWork (cumulativeWork s b) s.chainwork ≠ .gt) ∨
        (compareWork (cumulativeWork s b) s.chainwork = .gt ∧ (∃ e, r = .error e) ∧
          ∀ disconnect connect, forkOf cx s₁ b = .ok (disconnect, connect) →
            ¬ Permitted cx s₁ disconnect)) :
      StepCase s b r s₁
  | reorganized {s₁ s₂ s₃ s' : NodeState} {disconnect connect : List Bytes32}
      (admitted : Admitted cx env s b) (offTip : b.header.prevHash ≠ s.tip)
      (h₁ : SideStored cx s b s₁)
      (more : compareWork (cumulativeWork s b) s.chainwork = .gt)
      (h : Reorganized cx env s₁ b disconnect connect s₂ s₃ s')
      (chainwork : s'.chainwork = cumulativeWork s b) :
      StepCase s b (.ok .connected) s'
  | broken (e : AddBlockError) (s' : NodeState) (h : ¬ RunsThrough cx env s b)
      (partly : (∀ log ops, env.writeOk log ops = true) → PartlyDone cx env s b s') :
      StepCase s b (.error e) s'

variable {cx env}

theorem StepCase.ofWrites {s s' : NodeState} {b : Block} {e : AddBlockError}
    (h : ¬ ∀ log ops, env.writeOk log ops = true) : StepCase cx env s b (.error e) s' :=
  .broken e s' (fun hthrough => h hthrough.writes) (fun hwrites => absurd hwrites h)

theorem skipScripts_eq_false (s : NodeState) (b : Block) : skipScripts cx s b = false := by
  unfold skipScripts Context.networkParams NetworkParams.forNetwork
  cases cx.network <;> rfl

theorem validateTip_eq (s : NodeState) (b : Block) :
    validateTip cx env s b = validateBlockCached cx.sha256 cx.checks (env.now (b.hash cx.sha256)) b
      s.utxoSet (some s.getMtp) := by
  simp [validateTip, skipScripts_eq_false]

/-- Once a block is validated, only a repeated txid makes its application fail. -/
theorem not_distinct_of_apply_error {clock : UInt64} {b : Block} {u u' : UtxoSet} {mtp : Option (ℕ → UInt64)}
    {e : ChainError} (hvalid : validateBlockCached cx.sha256 cx.checks clock b u mtp = .ok ())
    (h : applyBlockWithUndo cx.sha256 u b = (.error e, u')) : ¬ DistinctOutputs cx.sha256 b.transactions := by
  intro hdistinct
  obtain ⟨undo, hok⟩ := applies_of_distinct hvalid hdistinct
  rw [h] at hok
  simp at hok

section FastPath

theorem write_isSome (h : ∀ log ops, env.writeOk log ops = true) (s : NodeState) (ops : List WriteOp) :
    s.write env ops ≠ none := by
  simp [write, h]

theorem persistState_isSome (h : ∀ log ops, env.writeOk log ops = true) (s : NodeState) (tip : Bytes32) (height : ℕ) :
    persistState cx env s tip height ≠ none := by
  simp [persistState, write, h]

private theorem extended_of_writes {s s₃ : NodeState} {b : Block} {undo : BlockUndoData} {u : UtxoSet} {clock : UInt64}
    (hvalid : validateBlockCached cx.sha256 cx.checks clock b s.utxoSet (some s.getMtp) = .ok ())
    (happly : applyBlockWithUndo cx.sha256 s.utxoSet b = (.ok undo, u)) (hpersist : persistState cx env
      (advanceTip cx { s with
        utxoSet := u
        store := s.store.perform [.putUndo (b.hash cx.sha256) undo] } b (cumulativeWork s b))
      (b.hash cx.sha256) b.header.height = some s₃) : Extended cx s b undo (indexBlock cx env
      { s₃ with store := s₃.store.perform [.putBlock (b.hash cx.sha256) b] } b b.header.height) := by
  obtain ⟨hframe, hexact⟩ := persistState_eq_some hpersist
  have hindex := @indexBlock_frame cx env
    { s₃ with store := s₃.store.perform [.putBlock (b.hash cx.sha256) b] } b b.header.height
  set s' := indexBlock cx env
    { s₃ with store := s₃.store.perform [.putBlock (b.hash cx.sha256) b] } b b.header.height
  have htip : s'.tip = b.hash cx.sha256 := hindex.tip.trans hframe.tip
  have hheight : s'.height = b.header.height := hindex.height.trans hframe.height
  have hmap : s'.heightMap = s.heightMap.insert b.header.height (b.hash cx.sha256) :=
    hindex.heightMap.trans hframe.heightMap
  have hutxo : s'.utxoSet = u := hindex.utxoSet.trans hframe.utxoSet
  have hwork : s'.chainwork = cumulativeWork s b := hindex.chainwork.trans hframe.chainwork
  have hworks : s'.blockWork = s.blockWork.insert (b.hash cx.sha256) (cumulativeWork s b) :=
    hindex.blockWork.trans hframe.blockWork
  have hblocks : s'.store.disk.blocks = s₃.store.disk.blocks.insert (b.hash cx.sha256) b :=
    hindex.diskBlocks
  have hpersisted := @persisted_disk cx (advanceTip cx { s with
    utxoSet := u
    store := s.store.perform [.putUndo (b.hash cx.sha256) undo] } b (cumulativeWork s b))
    (b.hash cx.sha256) b.header.height
  refine
    { validated := ⟨clock, hvalid⟩
      applied := by rw [hutxo]; exact happly
      tip := htip
      height := hheight
      heightMap := hmap
      chainwork := hwork
      blockWork := hworks
      orphanBlocks := hindex.orphanBlocks.trans hframe.orphanBlocks
      orphansByParent := hindex.orphansByParent.trans hframe.orphansByParent
      connected := hindex.connected.trans hframe.connected
      record := ?_
      undo := ?_
      cached := ?_
      stored := ?_
      kept := by rw [hblocks, Finmap.lookup_insert]
      unpruned := ?_
      writes := ?_ }
  · rw [htip, hheight, hutxo, hmap, hwork, hworks]
    refine hindex.record.trans ((?_ : _ = chainRecord s₃.store.disk).trans (hframe.record.trans ?_))
    · rfl
    · rw [hpersisted]
      rfl
  · intro hprune
    obtain ⟨l, hl, hquiet⟩ := hindex.writes
    refine ⟨persistOps cx (advanceTip cx { s with
        utxoSet := u
        store := s.store.perform [.putUndo (b.hash cx.sha256) undo] } b (cumulativeWork s b))
      (b.hash cx.sha256) b.header.height, l, Performed.trans ?_ hl, ?_, by simp [persistOps], hquiet⟩
    · rw [hexact hprune]
      refine ⟨?_, rfl⟩
      simp [persisted, advanceTip, insertBlockCache, Store.perform]
    · have hrecord : chainRecord s'.store.disk = chainRecord s₃.store.disk := hindex.record
      rw [hrecord, hframe.record, hpersisted]
      exact persistOps_persists _ _ _
  · have hstale : staleUndo s' b.header.height = staleUndo (advanceTip cx { s with
        utxoSet := u
        store := s.store.perform [.putUndo (b.hash cx.sha256) undo] } b (cumulativeWork s b))
        b.header.height := by
      unfold staleUndo hashesUpTo getBlockHash
      rw [hmap]
      rfl
    rw [hstale]
    refine hindex.undo.trans ((?_ : _ = s₃.store.disk.undo).trans (hframe.undo.trans ?_))
    · rfl
    · rw [hpersisted]
      rfl
  · rw [hindex.blocks]
    exact (evict_shrinks _ _ _).trans hframe.cached
  · rw [hblocks]
    have hstored := hframe.stored
    rw [hpersisted] at hstored
    exact hstored.insert _ _
  · intro hprune
    rw [hblocks, hexact hprune, hpersisted]
    rfl

theorem connectTip_cases {s : NodeState} {b : Block} (hadm : Admitted cx env s b) (htip : b.header.prevHash = s.tip) :
    StepCase cx env s b (connectTip cx env s b (cumulativeWork s b)).1
      (connectTip cx env s b (cumulativeWork s b)).2 := by
  unfold connectTip
  simp only
  split
  next e hvalid =>
    exact .rejected _ (Or.inr (Or.inl ⟨htip, by rw [hvalid]; simp⟩))
  next hvalid =>
    have hvalid' := hvalid
    rw [validateTip_eq] at hvalid'
    split
    next e u happly =>
      refine .broken _ _ ?_ (fun _ => Or.inl ⟨u, rfl⟩)
      intro hthrough
      exact not_distinct_of_apply_error hvalid' happly (hthrough.extend hadm htip hvalid)
    next undo u happly =>
      split
      next hw => exact .ofWrites fun hwrites => write_isSome hwrites _ _ hw
      next s₁ hw =>
        obtain rfl := write_eq_some hw
        split
        next hp => exact .ofWrites fun hwrites => persistState_isSome hwrites _ _ _ hp
        next s₃ hp =>
          split
          next hw' => exact .ofWrites fun hwrites => write_isSome hwrites _ _ hw'
          next s₄ hw' =>
            obtain rfl := write_eq_some hw'
            exact .extended hadm htip (extended_of_writes hvalid' happly hp)

end FastPath

section Switch

variable {s s' s₁ : NodeState} {b : Block} {hashes : List Bytes32} {e : AddBlockError}

theorem storeSide_eq_some (h : storeSide cx env s b (cumulativeWork s b) = some s₁) : SideStored cx s b s₁ := by
  unfold storeSide at h
  simp only at h
  cases hw : s.write env [.putBlock (b.hash cx.sha256) b] with
  | none => simp [hw] at h
  | some s' =>
    rw [hw, Option.map_some, Option.some.injEq] at h
    obtain rfl := write_eq_some hw
    subst h
    exact
      { tip := rfl
        height := rfl
        heightMap := rfl
        utxoSet := rfl
        chainwork := rfl
        blockWork := rfl
        orphanBlocks := rfl
        orphansByParent := rfl
        connected := rfl
        txIndex := rfl
        scriptPubkeyIndex := rfl
        chainHeightIndex := rfl
        record := rfl
        undo := rfl
        cached := evict_shrinks _ _ _
        diskBlocks := rfl
        writes := Performed.one rfl }

theorem disconnectBlocks_eq {l : List Bytes32} {r : Except AddBlockError Unit} (h : disconnectBlocks s l = (r, s')) :
    s' = { s with utxoSet := s'.utxoSet } := by
  induction l generalizing s with
  | nil =>
    simp only [disconnectBlocks, Prod.mk.injEq] at h
    rw [← h.2]
  | cons hash rest ih =>
    unfold disconnectBlocks at h
    split at h
    next =>
      simp only [Prod.mk.injEq] at h
      rw [← h.2]
    next undo _ =>
      have hrec := ih h
      exact hrec

theorem disconnectBlocks_error (h : disconnectBlocks s hashes = (.error e, s')) :
    ∃ hash ∈ hashes, s.store.disk.undo.lookup hash = none := by
  induction hashes generalizing s with
  | nil => simp [disconnectBlocks] at h
  | cons hash rest ih =>
    unfold disconnectBlocks at h
    split at h
    next hnone => exact ⟨hash, by simp, hnone⟩
    next undo hsome =>
      obtain ⟨hash', hmem, hnone⟩ := ih h
      exact ⟨hash', List.mem_cons_of_mem _ hmem, hnone⟩

theorem connectBlocks_error (hwrites : ∀ log ops, env.writeOk log ops = true)
    (h : connectBlocks cx env s hashes = (.error e, s')) : ¬ ConnectsThrough cx env s hashes := by
  induction hashes generalizing s with
  | nil => simp [connectBlocks] at h
  | cons hash rest ih =>
    rintro ⟨b, hget, hvalid, hdistinct, hrest⟩
    unfold connectBlocks at h
    cases hconnect : connectBlock cx env s hash with
    | mk r s₁ =>
      rw [hconnect] at h hrest
      cases r with
      | ok _ => exact ih h hrest
      | error e' =>
        unfold connectBlock at hconnect
        simp only [hget, hvalid] at hconnect
        split at hconnect
        next e'' u happly => exact not_distinct_of_apply_error hvalid happly hdistinct
        next undo u happly =>
          split at hconnect
          next hw => exact write_isSome hwrites _ _ hw
          next => simp at hconnect

/-- What connecting blocks leaves alone. -/
structure ConnectFrame (s s' : NodeState) : Prop where
  tip : s'.tip = s.tip
  height : s'.height = s.height
  chainwork : s'.chainwork = s.chainwork
  blockWork : s'.blockWork = s.blockWork
  blocks : s'.blocks = s.blocks
  orphanBlocks : s'.orphanBlocks = s.orphanBlocks
  orphansByParent : s'.orphansByParent = s.orphansByParent
  diskBlocks : s'.store.disk.blocks = s.store.disk.blocks
  record : chainRecord s'.store.disk = chainRecord s.store.disk
  writes : ∃ l, Performed s s' l ∧ ∀ ops ∈ l, Quiet ops

theorem ConnectFrame.utxoSet (s : NodeState) (u : UtxoSet) : ConnectFrame s { s with utxoSet := u } :=
  ⟨rfl, rfl, rfl, rfl, rfl, rfl, rfl, rfl, rfl, [], Performed.nil rfl, by simp⟩

theorem ConnectFrame.trans {s'' : NodeState} (h : ConnectFrame s s') (h' : ConnectFrame s' s'') :
    ConnectFrame s s'' := by
  refine ⟨h'.tip.trans h.tip, h'.height.trans h.height, h'.chainwork.trans h.chainwork,
    h'.blockWork.trans h.blockWork, h'.blocks.trans h.blocks, h'.orphanBlocks.trans h.orphanBlocks,
    h'.orphansByParent.trans h.orphansByParent, h'.diskBlocks.trans h.diskBlocks,
    h'.record.trans h.record, ?_⟩
  obtain ⟨l, hl, hquiet⟩ := h.writes
  obtain ⟨l', hl', hquiet'⟩ := h'.writes
  refine ⟨l ++ l', hl.trans hl', ?_⟩
  intro ops hops
  rcases List.mem_append.mp hops with hops | hops
  · exact hquiet ops hops
  · exact hquiet' ops hops

theorem connectBlock_frame (s : NodeState) (hash : Bytes32) : ConnectFrame s (connectBlock cx env s hash).2 := by
  have hsame : ConnectFrame s s := ConnectFrame.utxoSet s s.utxoSet
  unfold connectBlock
  split
  next => exact hsame
  next b _ =>
    split
    next => exact hsame
    next =>
      split
      next => exact ConnectFrame.utxoSet s _
      next undo u _ =>
        split
        next => exact ConnectFrame.utxoSet s _
        next s₁ hw =>
          obtain rfl := write_eq_some hw
          refine ⟨rfl, rfl, rfl, rfl, rfl, rfl, rfl, rfl, rfl, [[.putUndo hash undo]],
            Performed.one rfl, ?_⟩
          intro ops hops d
          rw [List.mem_singleton.mp hops]
          exact ⟨rfl, rfl⟩

theorem connectBlocks_frame (s : NodeState) (hashes : List Bytes32) :
    ConnectFrame s (connectBlocks cx env s hashes).2 := by
  induction hashes generalizing s with
  | nil => exact ConnectFrame.utxoSet s s.utxoSet
  | cons hash rest ih =>
    have hone := @connectBlock_frame cx env s hash
    unfold connectBlocks
    split
    next e s' heq => rwa [heq] at hone
    next s' heq =>
      rw [heq] at hone
      exact hone.trans (ih s')

private theorem reorganized_of_persist {s₂ s₄ : NodeState} {work : Bytes32} {disconnect connect : List Bytes32}
    (hfork : forkOf cx s b = .ok (disconnect, connect)) (hpermitted : Permitted cx s disconnect)
    (hdisconnect : disconnectBlocks s disconnect = (.ok (), s₁))
    (hconnect : connectBlocks cx env s₁ connect = (.ok (), s₂))
    (hpersist : persistState cx env (moveTip cx s₂ b work) (b.hash cx.sha256) b.header.height = some s₄) :
    Reorganized cx env s b disconnect connect s₁ s₂ (rebuildIndexes cx env s₄) ∧
      (rebuildIndexes cx env s₄).chainwork = work := by
  obtain ⟨hframe, hexact⟩ := persistState_eq_some hpersist
  have hindex := @rebuildIndexes_frame cx env s₄
  have hpersisted := @persisted_disk cx (moveTip cx s₂ b work) (b.hash cx.sha256) b.header.height
  set s' := rebuildIndexes cx env s₄
  have htip : s'.tip = b.hash cx.sha256 := hindex.tip.trans hframe.tip
  have hheight : s'.height = b.header.height := hindex.height.trans hframe.height
  have hmap : s'.heightMap =
      eraseAll s₂.heightMap (List.range' (b.header.height + 1) (s₂.height - b.header.height)) :=
    hindex.heightMap.trans hframe.heightMap
  have hutxo : s'.utxoSet = s₂.utxoSet := hindex.utxoSet.trans hframe.utxoSet
  have hwork : s'.chainwork = work := hindex.chainwork.trans hframe.chainwork
  have hworks : s'.blockWork = s₂.blockWork := hindex.blockWork.trans hframe.blockWork
  refine ⟨?_, hwork⟩
  refine
    { fork := hfork
      permitted := hpermitted
      disconnected := hdisconnect
      reconnected := hconnect
      tip := htip
      height := hheight
      heightMap := hmap
      utxoSet := hutxo
      blockWork := hworks
      orphanBlocks := hindex.orphanBlocks.trans hframe.orphanBlocks
      orphansByParent := hindex.orphansByParent.trans hframe.orphansByParent
      connected := hindex.connected.trans hframe.connected
      record := ?_
      undo := ?_
      cached := ?_
      stored := ?_
      unpruned := ?_
      writes := ?_ }
  · rw [htip, hheight, hutxo, hmap, hwork, hworks]
    refine hindex.record.trans (hframe.record.trans ?_)
    rw [hpersisted]
    rfl
  · have hstale : staleUndo s' b.header.height = staleUndo (moveTip cx s₂ b work) b.header.height := by
      unfold staleUndo hashesUpTo getBlockHash
      rw [hmap]
      rfl
    rw [hstale]
    refine hindex.undo.trans (hframe.undo.trans ?_)
    rw [hpersisted]
    rfl
  · rw [hindex.blocks]
    exact hframe.cached
  · rw [hindex.diskBlocks]
    have hstored := hframe.stored
    rwa [hpersisted] at hstored
  · intro hprune
    rw [hindex.blocks, hindex.diskBlocks, hexact hprune, hpersisted]
    exact ⟨rfl, rfl⟩
  · intro hprune
    obtain ⟨l, hl, hquiet⟩ := hindex.writes
    refine ⟨persistOps cx (moveTip cx s₂ b work) (b.hash cx.sha256) b.header.height, l, ?_, ?_, hquiet⟩
    · change Performed s₂ s' ([_] ++ l)
      refine Performed.trans ?_ hl
      rw [hexact hprune]
      exact Performed.one rfl
    · have hrecord := hindex.record.trans hframe.record
      rw [hpersisted] at hrecord
      rw [hrecord]
      exact persistOps_persists _ _ _

/-- The side path keeps the block and stops, switches chains, or is broken. -/
theorem connectSide_cases (hadm : Admitted cx env s b) (htip : b.header.prevHash ≠ s.tip) :
    StepCase cx env s b (connectSide cx env s b (cumulativeWork s b)).1
      (connectSide cx env s b (cumulativeWork s b)).2 := by
  unfold connectSide
  split
  next hnone =>
    apply StepCase.rejected
    refine Or.inr (Or.inr ⟨[.putBlock (b.hash cx.sha256) b], ?_⟩)
    simpa [storeSide, write] using hnone
  next s₁ hstore =>
    have hside := storeSide_eq_some hstore
    rw [hside.chainwork]
    split
    next hle => exact .stored hadm htip hside (Or.inl ⟨rfl, hle⟩)
    next hgt =>
      have hmore : compareWork (cumulativeWork s b) s.chainwork = .gt := not_not.mp hgt
      have hbroken : ∀ disconnect connect, forkOf cx s₁ b = .ok (disconnect, connect) →
          Permitted cx s₁ disconnect → RunsThrough cx env s b →
          (∀ hash ∈ disconnect, (s₁.store.disk.undo.lookup hash).isSome = true) ∧
            ConnectsThrough cx env (disconnectBlocks s₁ disconnect).2 connect :=
        fun disconnect connect hfork hperm hthrough =>
          hthrough.switch hadm htip s₁ hstore hmore disconnect connect hfork hperm
      unfold reorganize
      simp only
      cases hfork : forkOf cx s₁ b with
      | error e =>
        have hfork' := hfork
        unfold forkOf at hfork'
        simp only [hfork']
        refine .stored hadm htip hside (Or.inr ⟨hmore, ⟨e, rfl⟩, ?_⟩)
        intro disconnect connect h
        rw [hfork] at h
        simp at h
      | ok p =>
        obtain ⟨disconnect, connect⟩ := p
        have hfork' := hfork
        unfold forkOf at hfork'
        simp only [hfork']
        have hrefuse : ¬ Permitted cx s₁ disconnect → ∀ e : AddBlockError,
            StepCase cx env s b (.error e) s₁ := by
          intro hnot e
          refine .stored hadm htip hside (Or.inr ⟨hmore, ⟨e, rfl⟩, ?_⟩)
          intro disconnect' connect' h
          rw [hfork] at h
          simp only [Except.ok.injEq, Prod.mk.injEq] at h
          rwa [← h.1]
        split
        next hdeep =>
          apply hrefuse
          intro hperm
          have := hperm.1
          omega
        next hshallow =>
          split
          next hbelow => exact hrefuse (fun hperm => hbelow hperm.2) _
          next hallowed =>
            have hperm : Permitted cx s₁ disconnect := ⟨by omega, not_not.mp hallowed⟩
            have hthrough := hbroken disconnect connect hfork hperm
            split
            next e s₂ hdisconnect =>
              have hpart : PartlyDone cx env s b s₂ :=
                Or.inr ⟨s₁, _, [], hadm, hside, disconnectBlocks_eq hdisconnect⟩
              refine .broken _ _ ?_ (fun _ => hpart)
              intro h
              obtain ⟨hash, hmem, hnone⟩ := disconnectBlocks_error hdisconnect
              have := (hthrough h).1 hash hmem
              simp [hnone] at this
            next s₂ hdisconnect =>
              rw [hdisconnect] at hthrough
              split
              next e s₃ hconnect =>
                have hpart : PartlyDone cx env s b s₃ := by
                  refine Or.inr ⟨s₁, s₂.utxoSet, connect, hadm, hside, ?_⟩
                  rw [← disconnectBlocks_eq hdisconnect, hconnect]
                refine .broken _ _ ?_ (fun _ => hpart)
                intro h
                exact connectBlocks_error h.writes hconnect (hthrough h).2
              next s₃ hconnect =>
                split
                next hp => exact .ofWrites fun hwrites => persistState_isSome hwrites _ _ _ hp
                next s₄ hp =>
                  obtain ⟨hreorg, hwork⟩ := reorganized_of_persist hfork hperm hdisconnect hconnect hp
                  exact .reorganized hadm htip hside hmore hreorg hwork

end Switch

theorem addBlockStep_cases (s : NodeState) (b : Block) :
    StepCase cx env s b (addBlockStep cx env s b).1 (addBlockStep cx env s b).2 := by
  unfold addBlockStep
  split
  next e hearly =>
    refine .rejected e (Or.inl ?_)
    intro hadm
    rw [hadm.early] at hearly
    simp at hearly
  next hearly =>
    split
    next hparent => exact .orphaned (by simpa using hparent) hearly
    next hparent =>
      split
      next e hheader =>
        refine .rejected e (Or.inl ?_)
        intro hadm
        rw [hadm.header] at hheader
        simp at hheader
      next hheader =>
        have hadm : Admitted cx env s b := ⟨hearly, not_not.mp hparent, hheader⟩
        split
        next htip => exact connectTip_cases hadm htip
        next htip => exact connectSide_cases hadm htip

end KuberCoin.StepCases
