import KuberCoin.Storage
import KuberCoin.Difficulty
import KuberCoin.Validator

/-!
The state of a node (crate `node`, `state`) and the parts of it that do not add
blocks: block lookup with its cache, median time past, the next difficulty, the
derived indexes, persisting and pruning, and opening a node on a store.
`connected` is not in the source: it records, for each hash, the block that was
applied to the UTXO set when that hash was last connected.
-/
namespace KuberCoin.NodeStates

open Bytes Maps Transactions Blocks UtxoSets Params Difficulty Validator Storage

/-- What is fixed for a node: its configuration and the functions it calls. -/
structure Context where
  sha256 : Sha256
  checks : ScriptChecks
  network : Network
  maxBlockCache : ℕ
  pruneDepth : Option ℕ

namespace Context

variable (cx : Context)

def networkParams : NetworkParams := NetworkParams.forNetwork cx.network

def genesis : Block := genesisBlock cx.sha256 cx.network

def genesisHash : Bytes32 := cx.genesis.hash cx.sha256

def genesisWork : Bytes32 := workFromCompact cx.genesis.header.bits

end Context

/-- What a call meets outside the node's control: the clock when a block is added,
which writes succeed, the order in which a hash set is iterated, and which key a
hash map yields first. -/
structure Env where
  now : Bytes32 → UInt64
  writeOk : List (List WriteOp) → List WriteOp → Bool
  childOrder : List Bytes32 → List Bytes32
  childOrder_perm : ∀ l, (childOrder l).Perm l
  victim : Map Bytes32 Block → Bytes32
  victim_mem : ∀ m : Map Bytes32 Block, m ≠ ∅ → victim m ∈ m

/-- An environment with a fixed clock in which every write succeeds. -/
def Env.reliable (clock : UInt64) : Env where
  now _ := clock
  writeOk _ _ := true
  childOrder l := l
  childOrder_perm l := List.Perm.refl l
  victim := leastKey (fun h : Bytes32 => value h.bytes) (by
    intro a b h
    exact workValue_injective h) Bytes32.zero
  victim_mem m hm := leastKey_mem _ _ _ m hm

structure NodeState where
  tip : Bytes32
  height : ℕ
  blocks : Map Bytes32 Block
  cacheOrder : List Bytes32
  heightMap : Map ℕ Bytes32
  utxoSet : UtxoSet
  chainwork : Bytes32
  blockWork : Map Bytes32 Bytes32
  orphanBlocks : Map Bytes32 Block
  orphansByParent : Map Bytes32 (List Bytes32)
  blockIndex : Map Bytes32 BlockIndex
  txIndex : Map Bytes32 ℕ
  scriptPubkeyIndex : Map (List UInt8) (List Bytes32)
  chainHeightIndex : Map Bytes32 ℕ
  store : Store
  connected : Map Bytes32 Block

namespace NodeState

/-- A storage write; `none` when it fails. -/
def write (env : Env) (s : NodeState) (ops : List WriteOp) : Option NodeState :=
  if env.writeOk s.store.log ops then some { s with store := s.store.perform ops } else none

/-- A storage write whose failure the source ignores. -/
def tryWrite (env : Env) (s : NodeState) (ops : List WriteOp) : NodeState :=
  (s.write env ops).getD s

section Blocks

def getBlock (s : NodeState) (hash : Bytes32) : Option Block :=
  match s.blocks.lookup hash with
  | some b => some b
  | none => s.store.disk.blocks.lookup hash

def getBlockHash (s : NodeState) (height : ℕ) : Option Bytes32 := s.heightMap.lookup height

/-- Evict from the front of the queue while the cache is over capacity. -/
def evict (cap : ℕ) : Map Bytes32 Block → List Bytes32 → Map Bytes32 Block × List Bytes32
  | blocks, [] => (blocks, [])
  | blocks, old :: order =>
      if cap < blocks.keys.card then evict cap (blocks.erase old) order else (blocks, old :: order)

def insertBlockCache (cx : Context) (s : NodeState) (hash : Bytes32) (b : Block) : NodeState :=
  let r := evict cx.maxBlockCache (s.blocks.insert hash b) (s.cacheOrder ++ [hash])
  { s with blocks := r.1, cacheOrder := r.2 }

/-- The timestamps of the up to eleven blocks below `height` on the best chain. -/
def recentTimestamps (s : NodeState) (height : ℕ) : List UInt64 :=
  (List.range' (height - 11) (height - (height - 11))).filterMap fun h =>
    ((s.getBlockHash h).bind s.getBlock).map fun b => b.header.timestamp

/-- The upper median; zero for no timestamps. -/
def medianTime (timestamps : List UInt64) : UInt64 :=
  (timestamps.insertionSort (· ≤ ·)).getD (timestamps.length / 2) 0

def getMtp (s : NodeState) (height : ℕ) : UInt64 := medianTime (s.recentTimestamps height)

end Blocks

section NextBits

variable (cx : Context) (get : Bytes32 → Option Block)

/-- Walk back over minimum-difficulty blocks. The heights on the way fall, so the
height of the first block is enough fuel. -/
def lastRegularBlock : ℕ → Block → Block
  | 0, cursor => cursor
  | fuel + 1, cursor =>
      let params := cx.networkParams
      if 0 < cursor.header.height ∧ cursor.header.height % params.difficultyAdjustmentInterval ≠ 0 ∧
          cursor.header.bits = params.genesisBits then
        match get cursor.header.prevHash with
        | some prev => lastRegularBlock fuel prev
        | none => cursor
      else cursor

/-- Walk back to the block at which the period starts; `none` if a block is missing. -/
def periodStart (start : ℕ) : ℕ → Block → Option Block
  | 0, cursor => some cursor
  | fuel + 1, cursor =>
      if start < cursor.header.height then
        match get cursor.header.prevHash with
        | some prev => periodStart start fuel prev
        | none => none
      else some cursor

/-- The target for the period after `parent`, whose first block is `first`. -/
def nextTarget (parent first : Block) : Bytes32 :=
  let params := cx.networkParams
  let clamp := params.maxDifficultyAdjustmentFactor
  let actualTimespan := saturatingSub parent.header.timestamp first.header.timestamp
  let targetTimespan := UInt64.ofNat params.difficultyAdjustmentInterval * params.targetBlockTime
  let minTs := max (targetTimespan / clamp) 1
  let maxTs := targetTimespan * clamp
  let clamped := min (max actualTimespan minTs) maxTs
  retargetTarget (bitsToTarget parent.header.bits) clamped targetTimespan
    (bitsToTarget params.genesisBits)

def calculateNextBitsForParentAndTimestamp (parentHash : Bytes32) (height : ℕ)
    (candidateTimestamp : Option UInt64) : UInt32 :=
  let params := cx.networkParams
  let interval := params.difficultyAdjustmentInterval
  if height = 0 then params.genesisBits else
  match get parentHash with
  | none => params.genesisBits
  | some parent =>
      if height ≤ 1 then parent.header.bits
      else if height % interval ≠ 0 then
        match params.allowMinDifficultyBlocks, candidateTimestamp with
        | true, some timestamp =>
            if saturatingAdd parent.header.timestamp (params.targetBlockTime * 2) < timestamp then
              params.genesisBits
            else (lastRegularBlock cx get parent.header.height parent).header.bits
        | _, _ => parent.header.bits
      else
        match periodStart get (height - interval) parent.header.height parent with
        | none => params.genesisBits
        | some first =>
            if first.header.height ≠ height - interval then params.genesisBits
            else targetToBits (nextTarget cx parent first)

end NextBits

section Indexes

variable (cx : Context) (env : Env)

/-- Add a block's transactions to the transaction and script indexes. -/
def indexTransactions (height : ℕ) (s : NodeState) (b : Block) : NodeState :=
  b.transactions.foldl (fun s tx =>
    let txid := tx.txid cx.sha256
    { s with
      txIndex := s.txIndex.insert txid height
      scriptPubkeyIndex := tx.outputs.foldl (fun m out =>
        m.insert out.scriptPubkey ((m.lookup out.scriptPubkey).getD [] ++ [txid])) s.scriptPubkeyIndex }) s

def saveIndexes (s : NodeState) : NodeState :=
  let s₁ := s.tryWrite env [.putIndexTip s.tip]
  let s₂ := s₁.tryWrite env [.putIndexTx s.txIndex]
  let s₃ := s₂.tryWrite env [.putIndexSpk s.scriptPubkeyIndex]
  s₃.tryWrite env [.putIndexHeight s.chainHeightIndex]

def indexBlock (s : NodeState) (b : Block) (height : ℕ) : NodeState :=
  let hash := b.hash cx.sha256
  saveIndexes env (indexTransactions cx height
    { s with chainHeightIndex := s.chainHeightIndex.insert hash height } b)

/-- Index the block at one height of the best chain, if there is one. -/
def indexHeight (s : NodeState) (h : ℕ) : NodeState :=
  match s.getBlockHash h with
  | none => s
  | some hash =>
      let s₁ := { s with chainHeightIndex := s.chainHeightIndex.insert hash h }
      match s.getBlock hash with
      | none => s₁
      | some b => indexTransactions cx h s₁ b

def rebuildIndexes (s : NodeState) : NodeState :=
  let cleared := { s with txIndex := ∅, scriptPubkeyIndex := ∅, chainHeightIndex := ∅ }
  saveIndexes env ((List.range (s.height + 1)).foldl (indexHeight cx) cleared)

/-- Load the stored indexes if they are stamped with the current tip. -/
def tryLoadIndexes (s : NodeState) : Option NodeState := do
  let d := s.store.disk
  let stamp ← d.indexTip
  if stamp ≠ s.tip then none
  let tx ← d.indexTx
  let spk ← d.indexSpk
  let heights ← d.indexHeight
  return { s with txIndex := tx, scriptPubkeyIndex := spk, chainHeightIndex := heights }

end Indexes

/-- Maximum reorganization depth. -/
def maxReorgDepth : ℕ := 100

section Persist

variable (cx : Context) (env : Env)

/-- The hashes of the best chain at heights `0..top`. -/
def hashesUpTo (s : NodeState) (top : ℕ) : List Bytes32 :=
  (List.range (top + 1)).filterMap s.getBlockHash

/-- The batch of `persist_state`: eight values and the undo records that are too deep. -/
def persistOps (s : NodeState) (tip : Bytes32) (height : ℕ) : List WriteOp :=
  [.putTip tip, .putHeight height, .putUtxoSet s.utxoSet,
    .putUtxoHash (commitmentHash cx.sha256 s.utxoSet), .putHeightMap s.heightMap,
    .putChainwork s.chainwork, .putBlockWork s.blockWork, .putBlockIndex s.blockIndex] ++
    if maxReorgDepth < height then (s.hashesUpTo (height - maxReorgDepth)).map .deleteUndo else []

/-- Note in the header index that block data is gone. -/
def markPruned (s : NodeState) (hashes : List Bytes32) : NodeState :=
  { s with
    blockIndex := hashes.foldl (fun m hash =>
      match m.lookup hash with
      | some bi => m.insert hash { bi with haveData := false }
      | none => m) s.blockIndex }

def pruneBlocks (s : NodeState) (keepDepth : ℕ) : NodeState :=
  if s.height ≤ keepDepth then s else
    let hashes := s.hashesUpTo (s.height - keepDepth)
    let ops := (hashes.filter fun h => (s.store.disk.blocks.lookup h).isSome).map WriteOp.deleteBlock
    if ops.isEmpty then markPruned s hashes
    else
      match s.write env ops with
      | none => s
      | some s' => markPruned s' hashes

def autoPrune (s : NodeState) : NodeState :=
  match cx.pruneDepth with
  | some depth => if 0 < depth then pruneBlocks env s depth else s
  | none => s

def persistState (s : NodeState) (tip : Bytes32) (height : ℕ) : Option NodeState :=
  (s.write env (persistOps cx s tip height)).map (autoPrune cx env)

/-- Delete one old block from the store and the cache. -/
def pruneHash (s : NodeState) (hash : Bytes32) : NodeState :=
  let s₁ := s.tryWrite env [.deleteBlock hash]
  { s₁ with blocks := s₁.blocks.erase hash }

def maybePrune (s : NodeState) (tipHeight : ℕ) : NodeState :=
  match cx.pruneDepth with
  | none => s
  | some depth =>
      if depth = 0 ∨ tipHeight ≤ depth then s
      else
        ((List.range (tipHeight - depth)).filterMap s.getBlockHash).foldl (pruneHash env) s

end Persist

section Open

variable (cx : Context) (env : Env)

inductive InitError where
  | genesisApplication (e : ChainError)
  | storage
  | utxoIntegrity
deriving DecidableEq

/-- A node before `init`. -/
def blank (d : Disk) : NodeState :=
  { tip := Bytes32.zero
    height := 0
    blocks := ∅
    cacheOrder := []
    heightMap := ∅
    utxoSet := ∅
    chainwork := Bytes32.zero
    blockWork := ∅
    orphanBlocks := ∅
    orphansByParent := ∅
    blockIndex := ∅
    txIndex := ∅
    scriptPubkeyIndex := ∅
    chainHeightIndex := ∅
    store := ⟨d, []⟩
    connected := ∅ }

/-- The header index entry of the genesis block. -/
def genesisIndex : BlockIndex :=
  { hash := cx.genesisHash
    prevHash := cx.genesis.header.prevHash
    height := cx.genesis.header.height
    bits := cx.genesis.header.bits
    cumulativeWork := cx.genesisWork
    haveData := true
    haveUndo := false }

/-- Read the stored values; a missing one leaves the blank node's. -/
def load (s : NodeState) (tip : Bytes32) : NodeState :=
  let d := s.store.disk
  { s with
    tip := tip
    height := d.height.getD s.height
    utxoSet := d.utxoSet.getD s.utxoSet
    heightMap := d.heightMap.getD s.heightMap
    chainwork := d.chainwork.getD s.chainwork
    blockWork := d.blockWork.getD s.blockWork
    blockIndex := d.blockIndex.getD s.blockIndex }

/-- Insert a binding unless the key is bound already. -/
def orInsert {K V : Type} [DecidableEq K] (m : Map K V) (k : K) (v : V) : Map K V :=
  if (m.lookup k).isSome then m else m.insert k v

def ensureGenesisBlockAvailable (s : NodeState) : Except InitError NodeState :=
  let stored :=
    if (s.getBlock cx.genesisHash).isNone then
      (insertBlockCache cx s cx.genesisHash cx.genesis).write env [.putBlock cx.genesisHash cx.genesis]
    else some s
  match stored with
  | none => .error .storage
  | some s₁ =>
      .ok { s₁ with
        heightMap := orInsert s₁.heightMap 0 cx.genesisHash
        blockWork := orInsert s₁.blockWork cx.genesisHash cx.genesisWork
        blockIndex := orInsert s₁.blockIndex cx.genesisHash (genesisIndex cx) }

/-- The state in memory once the genesis block is applied, with the set it leaves. -/
def atGenesis (s : NodeState) (u : UtxoSet) : NodeState :=
  let s₁ := insertBlockCache cx { s with utxoSet := u } cx.genesisHash cx.genesis
  { s₁ with
    heightMap := s₁.heightMap.insert 0 cx.genesisHash
    blockWork := s₁.blockWork.insert cx.genesisHash cx.genesisWork
    blockIndex := s₁.blockIndex.insert cx.genesisHash (genesisIndex cx)
    connected := s₁.connected.insert cx.genesisHash cx.genesis
    tip := cx.genesisHash
    height := 0
    chainwork := cx.genesisWork }

/-- Start from the genesis block on a store without a tip. -/
def initGenesis (s : NodeState) : Except InitError NodeState :=
  match applyBlock cx.sha256 s.utxoSet cx.genesis with
  | (.error e, _) => .error (.genesisApplication e)
  | (.ok (), u) =>
      match persistState cx env (atGenesis cx s u) cx.genesisHash 0 with
      | none => .error .storage
      | some s₁ =>
          match s₁.write env [.putBlock cx.genesisHash cx.genesis] with
          | none => .error .storage
          | some s₂ => .ok (rebuildIndexes cx env s₂)

/-- Open a node on what a store holds. -/
def new (d : Disk) : Except InitError NodeState :=
  let s := blank d
  match d.tip with
  | none => initGenesis cx env s
  | some tip =>
      let s₁ := load s tip
      if d.utxoHash.any (· ≠ commitmentHash cx.sha256 s₁.utxoSet) then .error .utxoIntegrity
      else
        match ensureGenesisBlockAvailable cx env s₁ with
        | .error e => .error e
        | .ok s₂ => .ok ((tryLoadIndexes s₂).getD (rebuildIndexes cx env s₂))

end Open

end NodeState

end KuberCoin.NodeStates
