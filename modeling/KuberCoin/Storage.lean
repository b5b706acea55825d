import KuberCoin.UtxoSets

/-!
The key-value store of a node (crate `storage`), one field for each key.
A value is kept as what its bytes decode to. A write is a batch of operations that
is performed as a whole or fails; a single `put` or `delete` is a batch of one.
The log lists the batches performed, oldest first.
-/
namespace KuberCoin.Storage

open Bytes Maps Blocks UtxoSets

/-- An entry of the header index. -/
structure BlockIndex where
  hash : Bytes32
  prevHash : Bytes32
  height : ℕ
  bits : UInt32
  cumulativeWork : Bytes32
  haveData : Bool
  haveUndo : Bool
deriving DecidableEq

/-- The contents of the store. -/
structure Disk where
  tip : Option Bytes32
  height : Option ℕ
  utxoSet : Option UtxoSet
  utxoHash : Option Bytes32
  heightMap : Option (Map ℕ Bytes32)
  chainwork : Option Bytes32
  blockWork : Option (Map Bytes32 Bytes32)
  blockIndex : Option (Map Bytes32 BlockIndex)
  indexTip : Option Bytes32
  indexTx : Option (Map Bytes32 ℕ)
  indexSpk : Option (Map (List UInt8) (List Bytes32))
  indexHeight : Option (Map Bytes32 ℕ)
  blocks : Map Bytes32 Block
  undo : Map Bytes32 BlockUndoData

inductive WriteOp where
  | putTip (hash : Bytes32)
  | putHeight (height : ℕ)
  | putUtxoSet (u : UtxoSet)
  | putUtxoHash (hash : Bytes32)
  | putHeightMap (m : Map ℕ Bytes32)
  | putChainwork (work : Bytes32)
  | putBlockWork (m : Map Bytes32 Bytes32)
  | putBlockIndex (m : Map Bytes32 BlockIndex)
  | putIndexTip (hash : Bytes32)
  | putIndexTx (m : Map Bytes32 ℕ)
  | putIndexSpk (m : Map (List UInt8) (List Bytes32))
  | putIndexHeight (m : Map Bytes32 ℕ)
  | putBlock (hash : Bytes32) (b : Block)
  | deleteBlock (hash : Bytes32)
  | putUndo (hash : Bytes32) (undo : BlockUndoData)
  | deleteUndo (hash : Bytes32)

namespace Disk

def empty : Disk :=
  { tip := none
    height := none
    utxoSet := none
    utxoHash := none
    heightMap := none
    chainwork := none
    blockWork := none
    blockIndex := none
    indexTip := none
    indexTx := none
    indexSpk := none
    indexHeight := none
    blocks := ∅
    undo := ∅ }

def applyOp (d : Disk) : WriteOp → Disk
  | .putTip hash => { d with tip := some hash }
  | .putHeight height => { d with height := some height }
  | .putUtxoSet u => { d with utxoSet := some u }
  | .putUtxoHash hash => { d with utxoHash := some hash }
  | .putHeightMap m => { d with heightMap := some m }
  | .putChainwork work => { d with chainwork := some work }
  | .putBlockWork m => { d with blockWork := some m }
  | .putBlockIndex m => { d with blockIndex := some m }
  | .putIndexTip hash => { d with indexTip := some hash }
  | .putIndexTx m => { d with indexTx := some m }
  | .putIndexSpk m => { d with indexSpk := some m }
  | .putIndexHeight m => { d with indexHeight := some m }
  | .putBlock hash b => { d with blocks := d.blocks.insert hash b }
  | .deleteBlock hash => { d with blocks := d.blocks.erase hash }
  | .putUndo hash undo => { d with undo := d.undo.insert hash undo }
  | .deleteUndo hash => { d with undo := d.undo.erase hash }

def applyBatch (d : Disk) (ops : List WriteOp) : Disk := ops.foldl applyOp d

/-- The store after a sequence of batches. -/
def replay (d : Disk) (log : List (List WriteOp)) : Disk := log.foldl applyBatch d

theorem replay_append (d : Disk) (log log' : List (List WriteOp)) :
    d.replay (log ++ log') = (d.replay log).replay log' := List.foldl_append

end Disk

/-- An open store with the batches performed since it was opened. -/
structure Store where
  disk : Disk
  log : List (List WriteOp)

namespace Store

def perform (st : Store) (ops : List WriteOp) : Store :=
  ⟨st.disk.applyBatch ops, st.log ++ [ops]⟩

end Store

end KuberCoin.Storage
