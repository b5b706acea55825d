import KuberCoin.Transactions
import Mathlib.Algebra.Order.BigOperators.Group.List

/-!
Block headers and blocks (crate `chain`): header hash, merkle root, weight.
A height is a natural number: it counts the blocks below a block, and no chain
has 2^64 blocks. The other header fields keep their machine types.
-/
namespace KuberCoin.Blocks

open Bytes Transactions

structure BlockHeader where
  version : Int32
  prevHash : Bytes32
  merkleRoot : Bytes32
  timestamp : UInt64
  bits : UInt32
  nonce : UInt64
  height : ℕ
deriving DecidableEq

namespace BlockHeader

/-- The bincode encoding of a header: fixed-width little-endian integers and raw arrays. -/
def serialize (h : BlockHeader) : List UInt8 :=
  leBytes 4 h.version.toUInt32.toNat ++ h.prevHash.bytes ++ h.merkleRoot.bytes ++
    leBytes 8 h.timestamp.toNat ++ leBytes 4 h.bits.toNat ++ leBytes 8 h.nonce.toNat ++
    leBytes 8 h.height

def hash (sha256 : Sha256) (h : BlockHeader) : Bytes32 := sha256d sha256 h.serialize

end BlockHeader

structure Block where
  header : BlockHeader
  transactions : List Transaction
deriving DecidableEq

/-- One level of the merkle tree; a node without a sibling is paired with itself. -/
def merkleLevel (sha256 : Sha256) : List Bytes32 → List Bytes32
  | a :: b :: rest => sha256d sha256 (a.bytes ++ b.bytes) :: merkleLevel sha256 rest
  | [a] => [sha256d sha256 (a.bytes ++ a.bytes)]
  | [] => []

/-- Levels are formed while more than one node is left; each halves the number of
nodes, so as many levels as there are leaves always suffice. -/
def merkleFold (sha256 : Sha256) : ℕ → List Bytes32 → Bytes32
  | 0, hashes => hashes.headD Bytes32.zero
  | n + 1, hashes =>
      if 1 < hashes.length then merkleFold sha256 n (merkleLevel sha256 hashes)
      else hashes.headD Bytes32.zero

def merkleRootOf (sha256 : Sha256) (hashes : List Bytes32) : Bytes32 :=
  merkleFold sha256 hashes.length hashes

def calculateMerkleRoot (sha256 : Sha256) (txs : List Transaction) : Bytes32 :=
  merkleRootOf sha256 (txs.map (Transaction.txid sha256))

/-- The witness merkle root; the coinbase counts as the zero hash. -/
def calculateWitnessMerkleRoot (sha256 : Sha256) : List Transaction → Bytes32
  | [] => Bytes32.zero
  | _ :: rest => merkleRootOf sha256 (Bytes32.zero :: rest.map (Transaction.wtxid sha256))

namespace Block

def hash (sha256 : Sha256) (b : Block) : Bytes32 := b.header.hash sha256

def verifyMerkleRoot (sha256 : Sha256) (b : Block) : Bool :=
  calculateMerkleRoot sha256 b.transactions == b.header.merkleRoot

def baseSize (b : Block) : ℕ :=
  96 + compactSizeLen b.transactions.length + (b.transactions.map Transaction.baseSize).sum

def totalSize (b : Block) : ℕ :=
  96 + compactSizeLen b.transactions.length + (b.transactions.map Transaction.totalSize).sum

def weight (b : Block) : ℕ := b.baseSize * 3 + b.totalSize

end Block

/-- The weight limit of a block. -/
def maxBlockWeight : ℕ := 4000000

theorem outputs_le_weight (b : Block) (tx : Transaction) (htx : tx ∈ b.transactions) :
    tx.outputs.length ≤ b.weight := by
  have hsum : tx.outputs.length ≤
      (tx.outputs.map fun o => 8 + compactSizeLen o.scriptPubkey.length + o.scriptPubkey.length).sum := by
    induction tx.outputs with
    | nil => simp
    | cons o rest ih =>
      simp only [List.length_cons, List.map_cons, List.sum_cons]
      omega
  have hbase : tx.outputs.length ≤ tx.baseSize := by
    unfold Transaction.baseSize
    omega
  have hmem : tx.baseSize ≤ (b.transactions.map Transaction.baseSize).sum :=
    List.le_sum_of_mem (List.mem_map_of_mem htx)
  unfold Block.weight Block.baseSize
  omega

end KuberCoin.Blocks
