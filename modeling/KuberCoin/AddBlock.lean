import KuberCoin.NodeStates

/-!
Adding blocks to a node (crate `node`, `NodeState::add_block`).
`addBlockStep` is one call up to the point where the source starts to reconnect
orphans; `addBlockFuel` is the whole call, which adds the waiting orphans in turn,
each by a nested call. Fuel bounds the nesting and the orphan queue: `none` says
that the fuel was not enough. The outcome lists every call made, nested ones included.
-/
namespace KuberCoin.AddBlock

open Bytes Maps Transactions Blocks UtxoSets Params Difficulty Validator Storage NodeStates
  NodeStates.NodeState

/-- Maximum number of orphan blocks kept in memory. -/
def maxOrphanBlocks : ℕ := 100

inductive AddBlockError where
  | checkpoint (height : ℕ)
  | futureTimestamp (timestamp limit : UInt64)
  | genesisParentHeight (height : ℕ)
  | genesisParentBits (bits expected : UInt32)
  | missingParent (hash : Bytes32)
  | wrongHeight (height parentHeight : ℕ)
  | wrongBits (bits expected : UInt32) (height : ℕ)
  | validation (e : ValidationError)
  | application (e : ChainError)
  | storage
  | untraced (hash : Bytes32)
  | endlessWalk
  | reorgTooDeep (depth : ℕ)
  | reorgBelowCheckpoint (height : ℕ)
  | missingUndo (hash : Bytes32)
  | missingBlock (hash : Bytes32)
  | reorgValidation (hash : Bytes32) (e : ValidationError)
  | reorgApplication (hash : Bytes32) (e : ChainError)
deriving DecidableEq

/-- How a call that succeeds ends. -/
inductive Exit where
  | orphaned
  | stored
  | connected
deriving DecidableEq

section Checkpoints

structure Checkpoint where
  height : ℕ
  hash : Bytes32

/-- The checkpoints of a node: its genesis block. -/
def checkpoints (cx : Context) : List Checkpoint := [⟨0, cx.genesisHash⟩]

def verifyCheckpoint (cps : List Checkpoint) (height : ℕ) (hash : Bytes32) : Bool :=
  match cps.find? fun cp => cp.height = height with
  | some cp => cp.hash = hash
  | none => true

def reorgAllowed (cps : List Checkpoint) (reorgTarget : ℕ) : Bool :=
  match cps.getLast? with
  | some last => last.height ≤ reorgTarget
  | none => true

end Checkpoints

variable (cx : Context) (env : Env)

section Orphans

/-- Remove a hash from the children of a parent; a parent without children goes. -/
def dropChild (m : Map Bytes32 (List Bytes32)) (parent child : Bytes32) :
    Map Bytes32 (List Bytes32) :=
  match m.lookup parent with
  | none => m
  | some children =>
      if (children.erase child).isEmpty then m.erase parent
      else m.insert parent (children.erase child)

/-- Make room in the orphan pool. Every round removes one block, so the size of the
pool is enough fuel. -/
def evictOrphans : ℕ → NodeState → NodeState
  | 0, s => s
  | fuel + 1, s =>
      if maxOrphanBlocks ≤ s.orphanBlocks.keys.card then
        let victim := env.victim s.orphanBlocks
        match s.orphanBlocks.lookup victim with
        | none => s
        | some b =>
            evictOrphans fuel { s with
              orphanBlocks := s.orphanBlocks.erase victim
              orphansByParent := dropChild s.orphansByParent b.header.prevHash victim }
      else s

def addOrphan (s : NodeState) (hash : Bytes32) (b : Block) : NodeState :=
  let s₁ := evictOrphans env s.orphanBlocks.keys.card s
  let children := (s₁.orphansByParent.lookup b.header.prevHash).getD []
  { s₁ with
    orphanBlocks := s₁.orphanBlocks.insert hash b
    orphansByParent := s₁.orphansByParent.insert b.header.prevHash
      (if hash ∈ children then children else hash :: children) }

end Orphans

section Checks

def parentKnown (s : NodeState) (prev : Bytes32) : Bool :=
  prev = Bytes32.zero || (s.blocks.lookup prev).isSome || (s.store.disk.blocks.lookup prev).isSome

/-- Checkpoint and clock, before the parent is looked up. -/
def earlyChecks (b : Block) : Except AddBlockError Unit :=
  let hash := b.hash cx.sha256
  let limit := saturatingAdd (env.now hash) maxFutureBlockTimeSecs
  if ¬ verifyCheckpoint (checkpoints cx) b.header.height hash then .error (.checkpoint b.header.height)
  else if limit < b.header.timestamp then .error (.futureTimestamp b.header.timestamp limit)
  else .ok ()

/-- Height and difficulty against the parent. -/
def headerChecks (s : NodeState) (b : Block) : Except AddBlockError Unit :=
  let height := b.header.height
  let prev := b.header.prevHash
  let params := cx.networkParams
  if prev = Bytes32.zero then
    if height ≠ 0 then .error (.genesisParentHeight height)
    else if b.header.bits ≠ params.genesisBits then
      .error (.genesisParentBits b.header.bits params.genesisBits)
    else .ok ()
  else
    match s.getBlock prev with
    | none => .error (.missingParent prev)
    | some parent =>
        let expected := calculateNextBitsForParentAndTimestamp cx s.getBlock prev height
          (some b.header.timestamp)
        if height ≠ parent.header.height + 1 then .error (.wrongHeight height parent.header.height)
        else if b.header.bits ≠ expected then .error (.wrongBits b.header.bits expected height)
        else .ok ()

/-- The cumulative work of a block; an unknown parent counts as zero. -/
def cumulativeWork (s : NodeState) (b : Block) : Bytes32 :=
  addWork ((s.blockWork.lookup b.header.prevHash).getD Bytes32.zero) (workFromCompact b.header.bits)

/-- The height below which scripts are skipped for an assume-valid hash. -/
def assumeValidHeight (s : NodeState) (hash : Bytes32) : ℕ :=
  match (List.range (s.height + 1)).find? fun h => s.getBlockHash h = some hash with
  | some h => h
  | none => 2 ^ 64 - 1

def skipScripts (s : NodeState) (b : Block) : Bool :=
  match cx.networkParams.assumeValidBlock with
  | none => false
  | some hash => b.hash cx.sha256 = hash || b.header.height < assumeValidHeight s hash

/-- Validation of a block that extends the tip. -/
def validateTip (s : NodeState) (b : Block) : Except ValidationError Unit :=
  let clock := env.now (b.hash cx.sha256)
  if skipScripts cx s b then
    validateBlockNoScriptsWithMtp cx.sha256 cx.checks clock b s.utxoSet (some s.getMtp)
  else validateBlockCached cx.sha256 cx.checks clock b s.utxoSet (some s.getMtp)

end Checks

section FastPath

/-- The state after the tip moved to `b` in memory: cache, height map, tip and work. -/
def advanceTip (s : NodeState) (b : Block) (work : Bytes32) : NodeState :=
  let hash := b.hash cx.sha256
  let s₁ := insertBlockCache cx s hash b
  { s₁ with
    heightMap := s₁.heightMap.insert b.header.height hash
    connected := s₁.connected.insert hash b
    tip := hash
    height := b.header.height
    chainwork := work
    blockWork := s₁.blockWork.insert hash work }

/-- Fast path: validate, apply and persist a block on top of the tip. -/
def connectTip (s : NodeState) (b : Block) (work : Bytes32) :
    Except AddBlockError Exit × NodeState :=
  let hash := b.hash cx.sha256
  match validateTip cx env s b with
  | .error e => (.error (.validation e), s)
  | .ok () =>
      match applyBlockWithUndo cx.sha256 s.utxoSet b with
      | (.error e, u) => (.error (.application e), { s with utxoSet := u })
      | (.ok undo, u) =>
          match ({ s with utxoSet := u } : NodeState).write env [.putUndo hash undo] with
          | none => (.error .storage, { s with utxoSet := u })
          | some s₁ =>
              let s₂ := advanceTip cx s₁ b work
              match persistState cx env s₂ hash b.header.height with
              | none => (.error .storage, s₂)
              | some s₃ =>
                  match s₃.write env [.putBlock hash b] with
                  | none => (.error .storage, s₃)
                  | some s₄ => (.ok .connected, indexBlock cx env s₄ b b.header.height)

end FastPath

section ForkSearch

variable (get : Bytes32 → Option Block)

/-- The hashes from a tip back to genesis or to the first missing block. -/
def ancestors : ℕ → Bytes32 → List Bytes32
  | 0, cursor => [cursor]
  | fuel + 1, cursor =>
      cursor ::
        match get cursor with
        | some b => if b.header.prevHash = Bytes32.zero then [] else ancestors fuel b.header.prevHash
        | none => []

/-- Walk the new chain back to a hash of the old one; returns the hashes on the way,
tip first, and the fork point. -/
def traceNew (old : List Bytes32) : ℕ → Bytes32 → Except AddBlockError (List Bytes32 × Bytes32)
  | 0, _ => .error .endlessWalk
  | fuel + 1, cursor =>
      if cursor ∈ old then .ok ([], cursor)
      else
        match get cursor with
        | none => .error (.untraced cursor)
        | some b =>
            match traceNew old fuel b.header.prevHash with
            | .error e => .error e
            | .ok (hashes, fork) => .ok (cursor :: hashes, fork)

/-- Walk the old chain back to the fork point; returns the hashes on the way, tip first. -/
def traceOld (fork : Bytes32) : ℕ → Bytes32 → Except AddBlockError (List Bytes32)
  | 0, _ => .error .endlessWalk
  | fuel + 1, cursor =>
      if cursor = fork then .ok []
      else
        match get cursor with
        | none => .error (.untraced cursor)
        | some b =>
            match traceOld fork fuel b.header.prevHash with
            | .error e => .error e
            | .ok hashes => .ok (cursor :: hashes)

/-- Hashes to disconnect, tip first, and to connect, ancestor first. Stored blocks are one
higher than their parents, so the two heights are enough fuel. -/
def findForkBlocks (fuel : ℕ) (oldTip newTip : Bytes32) :
    Except AddBlockError (List Bytes32 × List Bytes32) :=
  match traceNew get (ancestors get fuel oldTip) fuel newTip with
  | .error e => .error e
  | .ok (new, fork) =>
      match traceOld get fork fuel oldTip with
      | .error e => .error e
      | .ok old => .ok (old, new.reverse)

end ForkSearch

section Reorg

/-- Roll the UTXO set back; stops at the first missing undo record. -/
def disconnectBlocks : NodeState → List Bytes32 → Except AddBlockError Unit × NodeState
  | s, [] => (.ok (), s)
  | s, hash :: rest =>
      match s.store.disk.undo.lookup hash with
      | none => (.error (.missingUndo hash), s)
      | some undo => disconnectBlocks { s with utxoSet := disconnectBlock s.utxoSet undo } rest

/-- Validate and apply one block of the new chain. -/
def connectBlock (s : NodeState) (hash : Bytes32) : Except AddBlockError Unit × NodeState :=
  match s.getBlock hash with
  | none => (.error (.missingBlock hash), s)
  | some b =>
      match validateBlockCached cx.sha256 cx.checks (env.now hash) b s.utxoSet (some s.getMtp) with
      | .error e => (.error (.reorgValidation hash e), s)
      | .ok () =>
          match applyBlockWithUndo cx.sha256 s.utxoSet b with
          | (.error e, u) => (.error (.reorgApplication hash e), { s with utxoSet := u })
          | (.ok undo, u) =>
              match ({ s with utxoSet := u } : NodeState).write env [.putUndo hash undo] with
              | none => (.error .storage, { s with utxoSet := u })
              | some s₁ =>
                  (.ok (), { s₁ with
                    heightMap := s₁.heightMap.insert b.header.height hash
                    connected := s₁.connected.insert hash b })

def connectBlocks : NodeState → List Bytes32 → Except AddBlockError Unit × NodeState
  | s, [] => (.ok (), s)
  | s, hash :: rest =>
      match connectBlock cx env s hash with
      | (.error e, s') => (.error e, s')
      | (.ok (), s') => connectBlocks s' rest

/-- The state after the new chain is connected: heights above it go, tip and work move. -/
def moveTip (s : NodeState) (b : Block) (work : Bytes32) : NodeState :=
  { s with
    heightMap := eraseAll s.heightMap
      (List.range' (b.header.height + 1) (s.height - b.header.height))
    tip := b.hash cx.sha256
    height := b.header.height
    chainwork := work }

/-- Switch from the current chain to the one that ends in `b`. -/
def reorganize (s : NodeState) (b : Block) (work : Bytes32) :
    Except AddBlockError Exit × NodeState :=
  let hash := b.hash cx.sha256
  match findForkBlocks s.getBlock (s.height + b.header.height + 2) s.tip hash with
  | .error e => (.error e, s)
  | .ok (disconnect, connect) =>
      if maxReorgDepth < disconnect.length then (.error (.reorgTooDeep disconnect.length), s)
      else if ¬ reorgAllowed (checkpoints cx) (s.height - disconnect.length) then
        (.error (.reorgBelowCheckpoint (s.height - disconnect.length)), s)
      else
        match disconnectBlocks s disconnect with
        | (.error e, s₁) => (.error e, s₁)
        | (.ok (), s₁) =>
            match connectBlocks cx env s₁ connect with
            | (.error e, s₂) => (.error e, s₂)
            | (.ok (), s₂) =>
                let s₃ := moveTip cx s₂ b work
                match persistState cx env s₃ hash b.header.height with
                | none => (.error .storage, s₃)
                | some s₄ => (.ok .connected, rebuildIndexes cx env s₄)

/-- Keep a side-chain block: in the store, the cache and the work table. -/
def storeSide (s : NodeState) (b : Block) (work : Bytes32) : Option NodeState :=
  let hash := b.hash cx.sha256
  (s.write env [.putBlock hash b]).map fun s₁ =>
    let s₂ := insertBlockCache cx s₁ hash b
    { s₂ with blockWork := s₂.blockWork.insert hash work }

/-- Side chain: keep the block, and switch to its chain if that has more work. -/
def connectSide (s : NodeState) (b : Block) (work : Bytes32) :
    Except AddBlockError Exit × NodeState :=
  match storeSide cx env s b work with
  | none => (.error .storage, s)
  | some s₁ =>
      if compareWork work s₁.chainwork ≠ .gt then (.ok .stored, s₁) else reorganize cx env s₁ b work

end Reorg

/-- A call of `add_block` without the orphans that follow it. -/
def addBlockStep (s : NodeState) (b : Block) : Except AddBlockError Exit × NodeState :=
  match earlyChecks cx env b with
  | .error e => (.error e, s)
  | .ok () =>
      if ¬ parentKnown s b.header.prevHash then
        (.ok .orphaned, addOrphan env s (b.hash cx.sha256) b)
      else
        match headerChecks cx s b with
        | .error e => (.error e, s)
        | .ok () =>
            if b.header.prevHash = s.tip then connectTip cx env s b (cumulativeWork s b)
            else connectSide cx env s b (cumulativeWork s b)

section Calls

/-- One call of `add_block`: the state before it, the block and how it ended. -/
structure Call where
  env : Env
  before : NodeState
  block : Block
  result : Except AddBlockError Exit

structure Outcome where
  result : Except AddBlockError Exit
  state : NodeState
  calls : List Call

/-- Take an orphan out of the pool to add it. -/
def takeOrphan (s : NodeState) (parent child : Bytes32) : NodeState :=
  { s with
    orphanBlocks := s.orphanBlocks.erase child
    orphansByParent := dropChild s.orphansByParent parent child }

/-- Add the waiting children of a parent. Returns the hashes of those that were accepted. -/
def reconnectChildren (add : NodeState → Block → Option Outcome) (parent : Bytes32) :
    NodeState → List Bytes32 → Option (NodeState × List Bytes32 × List Call)
  | s, [] => some (s, [], [])
  | s, child :: rest =>
      match s.orphanBlocks.lookup child with
      | none => reconnectChildren add parent s rest
      | some b =>
          match add (takeOrphan s parent child) b with
          | none => none
          | some o =>
              match reconnectChildren add parent o.state rest with
              | none => none
              | some (s', accepted, calls) =>
                  some (s', (if o.result.isOk then child :: accepted else accepted), o.calls ++ calls)

/-- The queue of `process_orphans`; its end is the head of the list. -/
def processOrphans (add : NodeState → Block → Option Outcome) :
    ℕ → NodeState → List Bytes32 → Option (NodeState × List Call)
  | _, s, [] => some (s, [])
  | 0, _, _ :: _ => none
  | fuel + 1, s, parent :: queue =>
      let children := env.childOrder ((s.orphansByParent.lookup parent).getD [])
      match reconnectChildren add parent s children with
      | none => none
      | some (s₁, accepted, calls) =>
          match processOrphans add fuel s₁ (accepted.reverse ++ queue) with
          | none => none
          | some (s₂, calls') => some (s₂, calls ++ calls')

def addBlockFuel : ℕ → NodeState → Block → Option Outcome
  | 0, _, _ => none
  | fuel + 1, s, b =>
      match addBlockStep cx env s b with
      | (.ok .connected, s₁) =>
          match processOrphans env (addBlockFuel fuel) fuel s₁ [b.hash cx.sha256] with
          | none => none
          | some (s₂, calls) =>
              some ⟨.ok .connected, maybePrune cx env s₂ b.header.height,
                ⟨env, s, b, .ok .connected⟩ :: calls⟩
      | (r, s₁) => some ⟨r, s₁, [⟨env, s, b, r⟩]⟩

end Calls

/-- A run of a node: it is opened on an empty store and blocks are added. The list
holds every call made, nested ones included. -/
inductive Run : NodeState → List Call → Prop where
  | fresh {env : Env} {s : NodeState} (h : NodeState.new cx env Disk.empty = .ok s) : Run s []
  | add {s : NodeState} {calls : List Call} {env : Env} {b : Block} {fuel : ℕ} {o : Outcome}
      (hrun : Run s calls) (h : addBlockFuel cx env fuel s b = some o) :
      Run o.state (calls ++ o.calls)

end KuberCoin.AddBlock
