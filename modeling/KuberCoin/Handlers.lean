import KuberCoin.Templates

/-!
The handlers of a node that change its chain or its pool: the messages `BlockMsg` and
`TxMsg` (`network/server.rs`), `submitblock` and `generatetoaddress` (`rpc_mining.rs`),
`sendrawtransaction`, `POST /api/tx`, `sendtoaddress` and `bumpfee`. A handler call is one
step. Next to the state it leaves, it returns what it adds to the sender's misbehaviour score,
the blocks it announces and the transactions it put into the pool.
-/
namespace KuberCoin.Handlers

open Bytes Maps Transactions Blocks UtxoSets Params Validator NodeStates NodeStates.NodeState AddBlock
  Mempools Mempool Templates

section Waiting

/-- Maximum number of orphan transactions held in the pool. -/
def maxOrphanTxs : ℕ := 100

structure OrphanEntry where
  tx : Transaction
  addedTime : UInt64

/-- The transactions that wait for their parents, and the index by parent. -/
structure OrphanTxs where
  orphanTxs : Map Bytes32 OrphanEntry
  orphansByParent : Map Bytes32 (List Bytes32)

namespace OrphanTxs

def empty : OrphanTxs := ⟨∅, ∅⟩

/-- Take a transaction out of the list of one parent; a parent without children goes. -/
def unlink (txid : Bytes32) (m : Map Bytes32 (List Bytes32)) (i : TxInput) :
    Map Bytes32 (List Bytes32) :=
  match m.lookup i.prevOutput.txid with
  | none => m
  | some children =>
      let left := children.filter fun id => id ≠ txid
      if left.isEmpty then m.erase i.prevOutput.txid else m.insert i.prevOutput.txid left

def removeOrphan (w : OrphanTxs) (txid : Bytes32) : OrphanTxs :=
  match w.orphanTxs.lookup txid with
  | none => w
  | some entry =>
      { orphanTxs := w.orphanTxs.erase txid
        orphansByParent := entry.tx.inputs.foldl (unlink txid) w.orphansByParent }

/-- `victim` is the key that the hash map yields first. -/
def addOrphan (sha256 : Sha256) (now : UInt64) (victim : Option Bytes32) (w : OrphanTxs)
    (tx : Transaction) (missingParents : List Bytes32) : OrphanTxs :=
  let txid := tx.txid sha256
  if (w.orphanTxs.lookup txid).isSome then w
  else
    let w₁ := if maxOrphanTxs ≤ w.orphanTxs.keys.card then victim.elim w w.removeOrphan else w
    { orphanTxs := w₁.orphanTxs.insert txid ⟨tx, now⟩
      orphansByParent := missingParents.foldl
        (fun m parent => m.insert parent ((m.lookup parent).getD [] ++ [txid])) w₁.orphansByParent }

def orphansForParent (w : OrphanTxs) (parentTxid : Bytes32) : List Transaction :=
  ((w.orphansByParent.lookup parentTxid).getD []).filterMap fun id =>
    (w.orphanTxs.lookup id).map OrphanEntry.tx

end OrphanTxs

end Waiting

inductive SyncState where
  | headerSync
  | blockSync
  | synced
deriving DecidableEq

/-- What the handlers of a node share. -/
structure App where
  node : NodeState
  mempool : Mempool
  orphans : OrphanTxs
  syncState : SyncState

/-- What a handler call meets outside the node's control: the environment of the blocks it
adds, the clock and the map order of its calls into the pool, the first key of the
waiting transactions, and how much fuel `add_block` gets. -/
structure Surroundings where
  env : Env
  calls : ℕ → Mempools.Call
  victim : Map Bytes32 OrphanEntry → Option Bytes32
  fuel : ℕ

/-- A transaction that the pool took, with the fee it was recorded with and the state of the
chain at that moment. -/
structure Insertion where
  node : NodeState
  tx : Transaction
  fee : UInt64

/-- What a handler call leaves. -/
structure Handled where
  app : App
  penalty : ℕ
  announced : List Block
  inserted : List Insertion

def App.quiet (a : App) : Handled := ⟨a, 0, [], []⟩

def App.penalised (a : App) (score : ℕ) : Handled := ⟨a, score, [], []⟩

section Texts

def hexDigit (n : ℕ) : Char := "0123456789abcdef".toList.getD n '0'

def hexEncode (bytes : List UInt8) : List Char :=
  bytes.flatMap fun b => [hexDigit (b.toNat / 16), hexDigit (b.toNat % 16)]

/-- The text of an error, as a list of characters. -/
def message : ValidationError → List Char
  | .missingInput o =>
      "Missing input: ".toList ++ hexEncode o.txid.bytes ++ ":".toList ++ (toString o.vout.toNat).toList
  | .invalidSignature index => s!"Invalid signature at input {index}".toList
  | .invalidCoinbasePosition => "Coinbase must be first transaction".toList
  | .multipleCoinbase => "Multiple coinbase transactions".toList
  | .insufficientFunds => "Input sum less than output sum".toList
  | .immatureCoinbase => "Spending immature coinbase output".toList
  | .doubleSpend => "Double spend detected".toList
  | .invalidScript text => ("Invalid script: " ++ text).toList
  | .lockedUntilFuture => "Transaction locked until future block height or timestamp".toList
  | .sequenceLockNotMet => "BIP-68 relative lock-time (CSV) not satisfied".toList
  | .tooManySigops => "Block exceeds maximum signature operations".toList
  | .blockTooHeavy => "Block exceeds maximum weight".toList
  | .excessiveCoinbaseReward => "Coinbase reward exceeds subsidy + fees".toList
  | .invalidMerkleRoot => "Block merkle root does not match transactions".toList
  | .timestampBeforeMTP => "Block timestamp before median-time-past".toList
  | .badBlockVersion => "Block version too low".toList
  | .duplicateTxid => "Duplicate txid in block (BIP-30)".toList

/-- How the handler tells an orphan from an invalid transaction. -/
def looksOrphaned (e : ValidationError) : Bool :=
  decide ("input not found".toList <:+: message e) || decide ("missing input".toList <:+: message e)

end Texts

section Transactions

variable (cx : Context) (rates : FeeRates)

/-- `NodeState::validate_transaction`. -/
def validateTransaction (s : NodeState) (tx : Transaction) : Except ValidationError Unit :=
  validateTransactionCached cx.checks 0 tx s.utxoSet s.height (some s.getMtp)

/-- `NodeState::compute_tx_fee`; the sums wrap as in the release profile. -/
def computeTxFee (s : NodeState) (tx : Transaction) : Option UInt64 :=
  (tx.inputs.mapM fun i => (s.utxoSet.lookup i.prevOutput).map fun c => c.output.value).map
    fun values => saturatingSub values.sum (tx.outputs.map TxOutput.value).sum

/-- A handler that is adding transactions: the state and what the pool took so far; the number
of calls into the pool says which clock and map order the next one reads. -/
structure Adding where
  app : App
  tried : ℕ
  inserted : List Insertion

def Adding.start (a : App) : Adding := ⟨a, 0, []⟩

def Adding.handled (p : Adding) : Handled := ⟨p.app, 0, [], p.inserted⟩

/-- `add_transaction_with_fee` on the pool of the node. -/
def Adding.add (sur : Surroundings) (p : Adding) (tx : Transaction) (fee : UInt64) :
    Adding × Except String Unit :=
  let result := p.app.mempool.addTransactionWithFee rates (sur.calls p.tried) cx.sha256 tx fee
  ({ app := { p.app with mempool := result.1 }
     tried := p.tried + 1
     inserted := match result.2 with
       | .ok () => p.inserted ++ [⟨p.app.node, tx, fee⟩]
       | .error _ => p.inserted }, result.2)

/-- One waiting child of an accepted transaction. -/
def resolveOrphan (sur : Surroundings) (further : Adding → Bytes32 → Adding) (p : Adding)
    (tx : Transaction) : Adding :=
  let txid := tx.txid cx.sha256
  let removed := { p with app := { p.app with orphans := p.app.orphans.removeOrphan txid } }
  if txid ∈ p.app.mempool.transactions then removed
  else
    match validateTransaction cx p.app.node tx with
    | .error _ => p
    | .ok () =>
        match removed.add cx rates sur tx ((computeTxFee p.app.node tx).getD 0) with
        | (p', .error _) => p'
        | (p', .ok ()) => further p' txid

/-- `process_orphans_for_tx`. Every nested call has taken a transaction out of the waiting ones,
so their number bounds the nesting. -/
def processOrphansForTx (sur : Surroundings) : ℕ → Adding → Bytes32 → Adding
  | 0, p, _ => p
  | fuel + 1, p, parentTxid =>
      (p.app.orphans.orphansForParent parentTxid).foldl
        (resolveOrphan cx rates sur (processOrphansForTx sur fuel)) p

/-- The `TxMsg` handler. -/
def txMsg (sur : Surroundings) (blockRelayOnly : Bool) (a : App) (tx : Transaction) : Handled :=
  let txid := tx.txid cx.sha256
  if blockRelayOnly then a.quiet
  else if a.syncState ≠ .synced then a.quiet
  else if txid ∈ a.mempool.transactions then a.quiet
  else
    match validateTransaction cx a.node tx with
    | .error e =>
        if looksOrphaned e then
          App.quiet { a with
            orphans := a.orphans.addOrphan cx.sha256 (sur.calls 0).now (sur.victim a.orphans.orphanTxs) tx
              (tx.inputs.map fun i => i.prevOutput.txid) }
        else a.penalised 5
    | .ok () =>
        match (Adding.start a).add cx rates sur tx ((computeTxFee a.node tx).getD 0) with
        | (p, .error _) => p.handled
        | (p, .ok ()) =>
            (processOrphansForTx cx rates sur (p.app.orphans.orphanTxs.keys.card + 1) p txid).handled

/-- The common part of `sendrawtransaction`, `POST /api/tx` and `sendtoaddress`: validate, compute
the fee from the entries that are there, add. -/
def submitTransaction (sur : Surroundings) (a : App) (tx : Transaction) : Handled :=
  match validateTransaction cx a.node tx with
  | .error _ => a.quiet
  | .ok () => ((Adding.start a).add cx rates sur tx (txFee a.node.utxoSet tx)).1.handled

/-- `sendrawtransaction` with a transaction that decodes. -/
def sendrawtransaction (sur : Surroundings) (a : App) (tx : Transaction) : Handled :=
  submitTransaction cx rates sur a tx

/-- `POST /api/tx` with a transaction that decodes. -/
def submitTx (sur : Surroundings) (a : App) (tx : Transaction) : Handled :=
  submitTransaction cx rates sur a tx

section Payments

/-- What `sendtoaddress` takes from the loaded wallet: whether it can sign, the scripts of its
addresses, the order in which it sees the entries of the set, and the signing of one input
(position, value, key and script of the coin). -/
structure Wallet where
  watchOnly : Bool
  unlocked : Bool
  keyCount : ℕ
  scripts : List (List UInt8)
  iter : UtxoSet → List (OutPoint × UTXO)
  signInput : ℕ → UInt64 → ℕ → List UInt8 → Transaction → Except String Transaction

structure Coin where
  outpoint : OutPoint
  value : UInt64
  key : ℕ
  script : List UInt8

def isMature (c : UTXO) (height : ℕ) : Bool := !c.isCoinbase || c.height + 100 ≤ height

/-- The coins of the wallet, the most valuable first. -/
def Wallet.available (w : Wallet) (s : NodeState) : List Coin :=
  ((w.iter s.utxoSet).filterMap fun (o, c) =>
    if isMature c s.height then
      (w.scripts.findIdx? (· == c.output.scriptPubkey)).map fun key =>
        ⟨o, c.output.value, key, c.output.scriptPubkey⟩
    else none).insertionSort fun a b => b.value ≤ a.value

/-- Take coins until they reach the goal; returns their value next to them. -/
def selectCoins (goal : UInt64) : UInt64 → List Coin → List Coin × UInt64
  | total, [] => ([], total)
  | total, c :: rest =>
      if goal ≤ total + c.value then ([c], total + c.value)
      else (c :: (selectCoins goal (total + c.value) rest).1, (selectCoins goal (total + c.value) rest).2)

/-- The transaction that `sendtoaddress` builds and signs. -/
def Wallet.payment (w : Wallet) (s : NodeState) (destScript : List UInt8) (amount : UInt64) :
    Except String Transaction :=
  let fee : UInt64 := 1000
  let (selected, totalIn) := selectCoins (amount + fee) 0 (w.available s)
  let change := totalIn - amount - fee
  let outputs := ⟨amount, destScript⟩ ::
    if 546 < change then (w.scripts.head?.map fun script => (⟨change, script⟩ : TxOutput)).toList else []
  if w.watchOnly then .error "watch-only wallet cannot sign"
  else if ¬ w.unlocked then .error "wallet is locked; call walletpassphrase first"
  else if w.keyCount = 0 then .error "wallet has no private keys"
  else if totalIn < amount + fee then .error "insufficient funds"
  else
    selected.zipIdx.foldlM (fun tx c => w.signInput c.2 c.1.value (c.1.key % w.keyCount) c.1.script tx)
      { version := 2
        inputs := selected.map fun c => ⟨c.outpoint, [], 0xffffffff, Witness.empty⟩
        outputs := outputs
        lockTime := 0 }

def sendtoaddress (sur : Surroundings) (w : Wallet) (a : App) (destScript : List UInt8)
    (amount : UInt64) : Handled :=
  match w.payment a.node destScript amount with
  | .error _ => a.quiet
  | .ok tx => submitTransaction cx rates sur a tx

/-- Every input signals replacement. -/
def replaceable (tx : Transaction) : Transaction :=
  { tx with inputs := tx.inputs.map fun i => { i with sequence := 0xfffffffd } }

/-- Take the difference from the last output, if there is one that can pay it. -/
def takeFromLast (delta : UInt64) (tx : Transaction) : Option Transaction :=
  match tx.outputs.getLast? with
  | none => some tx
  | some last =>
      if last.value < delta + 546 then none
      else some { tx with outputs := tx.outputs.dropLast ++ [{ last with value := last.value - delta }] }

/-- The transaction and the fee that `bumpfee` offers to the pool. `targetFee` is the `f64` product
of the requested rate and a size. -/
def bumped (m : Mempool) (txid : Bytes32) (targetFee : ℕ → UInt64) : Option (Transaction × UInt64) :=
  (m.transactions.lookup txid).bind fun entry =>
    if ¬ signalsRbf entry.tx then none
    else
      let newTx := replaceable entry.tx
      let vsize := max ((newTx.baseSize * 3 + newTx.totalSize) / 4) 1
      let delta := saturatingSub (targetFee vsize) entry.fee
      if delta = 0 then none else (takeFromLast delta newTx).map fun tx => (tx, targetFee vsize)

/-- `bumpfee`: the edited transaction goes to the pool as it is. -/
def bumpfee (sur : Surroundings) (a : App) (txid : Bytes32) (targetFee : ℕ → UInt64) : Handled :=
  match bumped a.mempool txid targetFee with
  | none => a.quiet
  | some (tx, fee) => ((Adding.start a).add cx rates sur tx fee).1.handled

end Payments

end Transactions

section Blocks

variable (cx : Context) (rates : FeeRates)

/-- `add_block` and, if it succeeds, the removal of the block's transactions from the pool. -/
def acceptBlock (sur : Surroundings) (i : ℕ) (a : App) (b : Block) :
    Option (App × Except AddBlockError Exit) :=
  (addBlockFuel cx sur.env sur.fuel a.node b).map fun o =>
    let added := { a with node := o.state }
    match o.result with
    | .ok exit =>
        ({ added with mempool := (a.mempool.removeBlockTransactions (sur.calls i) cx.sha256 b).1 },
          .ok exit)
    | .error e => (added, .error e)

/-- The `BlockMsg` handler. -/
def blockMsg (sur : Surroundings) (a : App) (b : Block) : Option Handled :=
  if (a.node.getBlock (b.hash cx.sha256)).isSome then some a.quiet
  else if ¬ verifyPow cx.sha256 b.header then some (a.penalised 100)
  else
    (acceptBlock cx sur 0 a b).map fun (a', result) =>
      match result with
      | .ok _ => ⟨a', 0, [b], []⟩
      | .error _ => a'.penalised 20

/-- `submitblock` with a block that decodes. -/
def submitblock (sur : Surroundings) (a : App) (b : Block) : Option Handled :=
  if ¬ verifyPow cx.sha256 b.header then some a.quiet
  else (acceptBlock cx sur 0 a b).map fun r => r.1.quiet

/-- The loop of `generatetoaddress`; it stops at the first block that is not accepted. -/
def generateBlocks (sur : Surroundings) (script : List UInt8) : ℕ → App → Option App
  | 0, a => some a
  | n + 1, a =>
      match acceptBlock cx sur (2 * n + 1) a
        (generatedBlock cx rates (sur.calls (2 * n)) a.node a.mempool script) with
      | none => none
      | some (a', .error _) => some a'
      | some (a', .ok _) => generateBlocks sur script n a'

/-- `generatetoaddress` with a payout script that decodes. -/
def generatetoaddress (sur : Surroundings) (a : App) (nblocks : ℕ) (script : List UInt8) :
    Option Handled :=
  if cx.network = .mainnet then some a.quiet
  else (generateBlocks cx rates sur script (min nblocks 500) a).map App.quiet

end Blocks

section Unchanged

variable {cx : Context} {rates : FeeRates} {sur : Surroundings} {a : App} {tx : Transaction}

theorem resolveOrphan_node {further : Adding → Bytes32 → Adding}
    (hfurther : ∀ p txid, (further p txid).app.node = p.app.node) (p : Adding) (tx : Transaction) :
    (resolveOrphan cx rates sur further p tx).app.node = p.app.node := by
  unfold resolveOrphan
  simp only
  split
  next => rfl
  next =>
    split
    next => rfl
    next =>
      split
      next p' e hadd =>
        rw [← congrArg (fun r => r.1.app.node) hadd]
        rfl
      next p' hadd =>
        rw [hfurther, ← congrArg (fun r => r.1.app.node) hadd]
        rfl

theorem processOrphansForTx_node (fuel : ℕ) (p : Adding) (txid : Bytes32) :
    (processOrphansForTx cx rates sur fuel p txid).app.node = p.app.node := by
  induction fuel generalizing p txid with
  | zero => rfl
  | succ fuel ih =>
    unfold processOrphansForTx
    generalize p.app.orphans.orphansForParent txid = waiting
    induction waiting generalizing p with
    | nil => rfl
    | cons tx waiting ihw =>
      rw [List.foldl_cons, ihw, resolveOrphan_node ih]

theorem txMsg_node {blockRelayOnly : Bool} : (txMsg cx rates sur blockRelayOnly a tx).app.node = a.node := by
  unfold txMsg
  simp only
  split
  next => rfl
  next =>
    split
    next => rfl
    next =>
      split
      next => rfl
      next =>
        split
        next =>
          split
          next => rfl
          next => rfl
        next =>
          split
          next p e hadd =>
            change p.app.node = _
            rw [← congrArg (fun r => r.1.app.node) hadd]
            rfl
          next p hadd =>
            change (processOrphansForTx cx rates sur _ p _).app.node = _
            rw [processOrphansForTx_node, ← congrArg (fun r => r.1.app.node) hadd]
            rfl

theorem submitTransaction_node : (submitTransaction cx rates sur a tx).app.node = a.node := by
  unfold submitTransaction
  split
  next => rfl
  next => rfl

theorem sendtoaddress_node {w : Wallet} {destScript : List UInt8} {amount : UInt64} :
    (sendtoaddress cx rates sur w a destScript amount).app.node = a.node := by
  unfold sendtoaddress
  split
  next => rfl
  next => exact submitTransaction_node

theorem bumpfee_node {txid : Bytes32} {targetFee : ℕ → UInt64} :
    (bumpfee cx rates sur a txid targetFee).app.node = a.node := by
  unfold bumpfee
  split
  next => rfl
  next => rfl

end Unchanged

section Runs

/-- A handler call with what it is called with; the last one stands for the other messages of
the protocol, which only move the synchronisation on. -/
inductive Event where
  | blockMsg (b : Block)
  | submitblock (b : Block)
  | generatetoaddress (nblocks : ℕ) (script : List UInt8)
  | txMsg (blockRelayOnly : Bool) (tx : Transaction)
  | sendrawtransaction (tx : Transaction)
  | submitTx (tx : Transaction)
  | sendtoaddress (w : Wallet) (destScript : List UInt8) (amount : UInt64)
  | bumpfee (txid : Bytes32) (targetFee : ℕ → UInt64)
  | sync (state : SyncState)

variable (cx : Context) (rates : FeeRates)

def handle (sur : Surroundings) (a : App) : Event → Option Handled
  | .blockMsg b => blockMsg cx sur a b
  | .submitblock b => submitblock cx sur a b
  | .generatetoaddress nblocks script => generatetoaddress cx rates sur a nblocks script
  | .txMsg blockRelayOnly tx => some (txMsg cx rates sur blockRelayOnly a tx)
  | .sendrawtransaction tx => some (sendrawtransaction cx rates sur a tx)
  | .submitTx tx => some (submitTx cx rates sur a tx)
  | .sendtoaddress w destScript amount => some (sendtoaddress cx rates sur w a destScript amount)
  | .bumpfee txid targetFee => some (bumpfee cx rates sur a txid targetFee)
  | .sync state => some (App.quiet { a with syncState := state })

/-- The handlers that add blocks. -/
def Event.addsBlocks : Event → Bool
  | .blockMsg _ => true
  | .submitblock _ => true
  | .generatetoaddress .. => true
  | _ => false

variable {cx rates} in
theorem handle_node {sur : Surroundings} {a : App} {e : Event} {r : Handled} (he : e.addsBlocks = false)
    (h : handle cx rates sur a e = some r) : r.app.node = a.node := by
  cases e with
  | blockMsg b => cases he
  | submitblock b => cases he
  | generatetoaddress nblocks script => cases he
  | txMsg blockRelayOnly tx =>
    rw [← Option.some.inj h]
    exact txMsg_node
  | sendrawtransaction tx =>
    rw [← Option.some.inj h]
    exact submitTransaction_node
  | submitTx tx =>
    rw [← Option.some.inj h]
    exact submitTransaction_node
  | sendtoaddress w destScript amount =>
    rw [← Option.some.inj h]
    exact sendtoaddress_node
  | bumpfee txid targetFee =>
    rw [← Option.some.inj h]
    exact bumpfee_node
  | sync state =>
    rw [← Option.some.inj h]
    rfl

/-- One handler call of a run. -/
structure Step where
  before : App
  sur : Surroundings
  event : Event
  handled : Handled

/-- A run of a node from an empty store and an empty pool, with the handler calls made so far. -/
inductive NodeRun : App → List Step → Prop where
  | fresh {env : Env} {s : NodeState} (h : NodeState.new cx env Storage.Disk.empty = .ok s) (maxSize : ℕ) :
      NodeRun ⟨s, Mempool.new maxSize, OrphanTxs.empty, .headerSync⟩ []
  | step {a : App} {steps : List Step} {sur : Surroundings} {e : Event} {r : Handled}
      (hrun : NodeRun a steps) (h : handle cx rates sur a e = some r) :
      NodeRun r.app (steps ++ [⟨a, sur, e, r⟩])

end Runs

end KuberCoin.Handlers
