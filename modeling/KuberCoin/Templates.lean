import KuberCoin.Mempools
import KuberCoin.AddBlock

/-!
Blocks that the node builds itself (crate `node`, `rpc_mining` and the template part of
`mempool`): the choice of pool entries by the fee rate of their packages, their check against
a view that evolves with them, the coinbase with its witness commitment, the template of
`getblocktemplate` and the search for a nonce in `generatetoaddress`.
The payout script is taken as it comes out of `resolve_coinbase_script`.
-/
namespace KuberCoin.Templates

open Bytes Maps Transactions Blocks UtxoSets Params Difficulty Validator NodeStates
  NodeStates.NodeState Mempools

/-- The header hash is at most the target, both read as big-endian numbers. -/
def verifyPow (sha256 : Sha256) (h : BlockHeader) : Bool :=
  compareBytes (h.hash sha256).bytes (bitsToTarget h.bits).bytes != .gt

section Selection

structure BlockTemplateEntry where
  tx : Transaction
  txid : Bytes32
  fee : UInt64
  sigops : ℕ
  weight : ℕ
  depends : List ℕ

/-- The order of the candidates: the fee rate of an entry with its ancestors. -/
def packageRate (rates : FeeRates) (e : MempoolEntry) : rates.Rate :=
  if 0 < e.ancestorSize then rates.rate e.ancestorFee e.ancestorSize else rates.rate 0 1

/-- The unselected parents of a transaction in the pool, ancestors first. Fuel bounds the
length of a chain of parents; no chain is longer than the pool. -/
def collectPackage (pool : Pool) (selected : List Bytes32) :
    ℕ → Transaction → List Bytes32 → List Bytes32
  | 0, _, out => out
  | fuel + 1, tx, out =>
      tx.inputs.foldl (fun out i =>
        let parentTxid := i.prevOutput.txid
        if parentTxid ∈ selected ∨ parentTxid ∈ out then out
        else
          match pool.lookup parentTxid with
          | some e => collectPackage pool selected fuel e.tx out ++ [parentTxid]
          | none => out) out

/-- The local variables of `get_block_transactions`. -/
structure Selected where
  order : List Bytes32
  totalWeight : ℕ
  totalSigops : ℕ

namespace Selected

variable (sha256 : Sha256) (pool : Pool) (maxWeight : ℕ)

def push (s : Selected) (txid : Bytes32) : Selected :=
  if txid ∈ s.order then s
  else
    { order := s.order ++ [txid]
      totalWeight := s.totalWeight + (pool.lookup txid).elim 0 fun e => e.size * 4
      totalSigops := s.totalSigops + (pool.lookup txid).elim 0 MempoolEntry.sigopCost }

/-- One round of the loop: the package of an entry is added as a whole or not at all. -/
def consider (s : Selected) (entry : MempoolEntry) : Selected :=
  let txid := entry.tx.txid sha256
  if txid ∈ s.order then s
  else
    let pkg := collectPackage pool s.order (pool.keys.card + 1) entry.tx [] ++ [txid]
    let pkgWeight := ((pkg.filterMap pool.lookup).map fun e => e.size * 4).sum
    let pkgSigops := ((pkg.filterMap pool.lookup).map MempoolEntry.sigopCost).sum
    if maxWeight < s.totalWeight + pkgWeight then s
    else if maxBlockSigopsCost < s.totalSigops + pkgSigops then s
    else pkg.foldl (push pool) s

end Selected

variable (rates : FeeRates) (call : Call) (sha256 : Sha256)

/-- The pool entries by falling package rate; entries of one rate stay in the map's order. -/
def candidates (pool : Pool) : List MempoolEntry :=
  ((call.iter pool).map Prod.snd).insertionSort
    fun a b => packageRate rates b ≤ packageRate rates a

def getBlockTransactions (m : Mempool) (maxWeight : ℕ) : List Transaction :=
  let selected := (candidates rates call m.transactions).foldl
    (Selected.consider sha256 m.transactions maxWeight) ⟨[], 0, 0⟩
  selected.order.filterMap fun txid => (m.transactions.lookup txid).map MempoolEntry.tx

/-- The metadata of the chosen transactions, from index `i` on. -/
def templateEntries (pool : Pool) : ℕ → Map Bytes32 ℕ → List Transaction → List BlockTemplateEntry
  | _, _, [] => []
  | i, indexMap, tx :: txs =>
      let txid := tx.txid sha256
      let indexMap := indexMap.insert txid i
      let entry := pool.lookup txid
      { tx := tx
        txid := txid
        fee := entry.elim 0 MempoolEntry.fee
        sigops := entry.elim 0 MempoolEntry.sigopCost
        weight := entry.elim 0 MempoolEntry.size * 4
        depends := tx.inputs.filterMap fun inp => indexMap.lookup inp.prevOutput.txid } ::
        templateEntries pool (i + 1) indexMap txs

def getBlockTemplateEntries (m : Mempool) (maxWeight : ℕ) : List BlockTemplateEntry :=
  templateEntries sha256 m.transactions 0 ∅ (getBlockTransactions rates call sha256 m maxWeight)

end Selection

section Building

variable (cx : Context) (rates : FeeRates) (call : Call)

/-- Keep the entries that are valid one after another. The view goes on as the failing
application leaves it. -/
def filterTemplateEntries (nextHeight : ℕ) (mtp : ℕ → UInt64) :
    UtxoSet → List BlockTemplateEntry → List BlockTemplateEntry
  | _, [] => []
  | view, entry :: entries =>
      match validateTransactionCached cx.checks call.now entry.tx view nextHeight (some mtp) with
      | .error _ => filterTemplateEntries nextHeight mtp view entries
      | .ok () =>
          match applyTransaction cx.sha256 view entry.tx nextHeight with
          | (.error _, view') => filterTemplateEntries nextHeight mtp view' entries
          | (.ok (), view') => entry :: filterTemplateEntries nextHeight mtp view' entries

def validatedTemplateEntries (s : NodeState) (m : Mempool) (maxWeight nextHeight : ℕ) :
    List BlockTemplateEntry :=
  filterTemplateEntries cx call nextHeight s.getMtp s.utxoSet
    (getBlockTemplateEntries rates call cx.sha256 m maxWeight)

def chooseBlockTimestamp (now mtp parentTimestamp : UInt64) : UInt64 :=
  max (max now (saturatingAdd mtp 1)) (saturatingAdd parentTimestamp 1)

/-- BIP-34: the length of the height and its little-endian bytes; eight bytes are enough. -/
def heightBytes : ℕ → ℕ → List UInt8
  | 0, _ => []
  | fuel + 1, h => if h = 0 then [] else UInt8.ofNat h :: heightBytes fuel (h / 256)

def encodeBip34Height (height : ℕ) : List UInt8 :=
  if height = 0 then [0x01, 0x00]
  else UInt8.ofNat (heightBytes 8 height).length :: heightBytes 8 height

/-- `Transaction::new_coinbase`. -/
def newCoinbase (height : ℕ) (value : UInt64) (scriptPubkey : List UInt8) : Transaction :=
  { version := 1
    inputs := [⟨OutPoint.null, encodeBip34Height height ++ "KuberCoin".toUTF8.toList, 0xffffffff,
      Witness.empty⟩]
    outputs := [⟨value, scriptPubkey⟩]
    lockTime := 0 }

/-- `txs` are the transactions of the block, the coinbase first. -/
def appendWitnessCommitmentIfNeeded (coinbase : Transaction) (txs : List Transaction) : Transaction :=
  if (txs.drop 1).any fun tx => tx.inputs.any fun i => !i.witness.isEmpty then
    let nonce := Bytes32.zero.bytes
    let committed := { coinbase with
      inputs := coinbase.inputs.modifyHead fun i => { i with witness := ⟨[nonce]⟩ } }
    let root := calculateWitnessMerkleRoot cx.sha256 (committed :: txs.drop 1)
    let commitment := sha256d cx.sha256 (root.bytes ++ nonce)
    { committed with
      outputs := committed.outputs ++
        [⟨0, [0x6a, 0x24, 0xaa, 0x21, 0xa9, 0xed] ++ commitment.bytes⟩] }
  else coinbase

def calculateNextBitsWithTimestamp (s : NodeState) (height : ℕ) (timestamp : UInt64) : UInt32 :=
  if height = 0 then cx.networkParams.genesisBits
  else
    match s.getBlockHash (height - 1) with
    | none => cx.networkParams.genesisBits
    | some parentHash =>
        calculateNextBitsForParentAndTimestamp cx s.getBlock parentHash height (some timestamp)

/-- The timestamp of the next block, from the clock of the call. -/
def nextTimestamp (s : NodeState) : UInt64 :=
  chooseBlockTimestamp call.now (s.getMtp (s.height + 1))
    ((s.getBlock s.tip).elim 0 fun b => b.header.timestamp)

/-- The block on the tip with a coinbase of a given value and the chosen transactions. -/
def assembleBlock (s : NodeState) (value : UInt64) (script : List UInt8) (txs : List Transaction) :
    Block :=
  let height := s.height + 1
  let plain := newCoinbase height value script
  let coinbase := appendWitnessCommitmentIfNeeded cx plain (plain :: txs)
  { header :=
      { version := headerVersion
        prevHash := s.tip
        merkleRoot := calculateMerkleRoot cx.sha256 (coinbase :: txs)
        timestamp := nextTimestamp call s
        bits := calculateNextBitsWithTimestamp cx s height (nextTimestamp call s)
        nonce := 0
        height := height }
    transactions := coinbase :: txs }

/-- The subsidy by the network's parameters; all networks halve it every 210000 blocks. -/
def blockReward (height : ℕ) : UInt64 :=
  let halvings := height / 210000
  if halvings ≥ 64 then 0 else cx.networkParams.initialBlockReward >>> UInt64.ofNat halvings

/-- The block of `getblocktemplate`. -/
def getblocktemplate (s : NodeState) (m : Mempool) (script : List UInt8) : Block :=
  let entries := validatedTemplateEntries cx rates call s m 4000000 (s.height + 1)
  assembleBlock cx call s
    (saturatingAdd (blockReward cx (s.height + 1)) (entries.map BlockTemplateEntry.fee).sum) script
    (entries.map BlockTemplateEntry.tx)

/-- The loop over the nonces from `nonce` on; the header keeps the last one tried. -/
def searchNonce (sha256 : Sha256) : ℕ → ℕ → BlockHeader → BlockHeader
  | 0, _, header => header
  | rounds + 1, nonce, header =>
      let tried := { header with nonce := UInt64.ofNat nonce }
      if verifyPow sha256 tried then tried else searchNonce sha256 rounds (nonce + 1) tried

/-- `for nonce in 0..u64::MAX`. -/
def mine (sha256 : Sha256) (header : BlockHeader) : BlockHeader :=
  searchNonce sha256 (2 ^ 64 - 1) 0 header

/-- A block of `generatetoaddress`; its coinbase claims the subsidy without the fees. -/
def generatedBlock (s : NodeState) (m : Mempool) (script : List UInt8) : Block :=
  let entries := validatedTemplateEntries cx rates call s m 4000000 (s.height + 1)
  let block := assembleBlock cx call s (blockSubsidy (s.height + 1)) script
    (entries.map BlockTemplateEntry.tx)
  { block with header := mine cx.sha256 block.header }

end Building

end KuberCoin.Templates
