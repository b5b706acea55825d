import KuberCoin.Worklists
import KuberCoin.Sighashes
import KuberCoin.Validator
import Mathlib.Data.List.MinMax

/-!
The transaction pool of the node (crate `node`, `mempool.rs`): insertion with
replace-by-fee, chain limits and capacity eviction, removal, expiry, packages and
the pool file. Every operation returns the pool next to its result, because a failing
insertion keeps the evictions it has made. Sizes are natural numbers, fees keep
their machine type and wrap as in a release build. The waiting room for transactions
with missing parents and the block template are not part of this model.
-/
namespace KuberCoin.Mempools

open Bytes Maps Transactions Blocks UtxoSets Sighashes Validator Worklists

def maxAncestors : ℕ := 25
def maxDescendants : ℕ := 25
def maxRbfConflicts : ℕ := 100
def mempoolExpirySecs : UInt64 := 14 * 24 * 60 * 60
def maxStandardTxSigopsCost : ℕ := 16000

structure MempoolEntry where
  tx : Transaction
  fee : UInt64
  addedTime : UInt64
  size : ℕ
  sigopCost : ℕ
  ancestorFee : UInt64
  ancestorSize : ℕ
deriving DecidableEq

abbrev Pool := Map Bytes32 MempoolEntry

structure Mempool where
  transactions : Pool
  maxSize : ℕ
  currentSize : ℕ

/-- The fee rates of the source are `f64` quotients of a fee and a positive size, never NaN;
only their order and their text are used. -/
structure FeeRates where
  Rate : Type
  order : LinearOrder Rate
  rate : UInt64 → ℕ → Rate
  minRelayFeeRate : Rate
  format : Rate → String

instance (rates : FeeRates) : LinearOrder rates.Rate := rates.order

/-- What one call reads besides the pool: the clock, and the order in which the hash map is
iterated as long as the call does not change it. -/
structure Call where
  now : UInt64
  iter : Pool → List (Bytes32 × MempoolEntry)
  lists : ∀ pool, Lists pool (iter pool)

/-- `bincode::serialize(&tx)?.len()`. -/
def txSize (tx : Transaction) : ℕ := (bincodeTransaction tx).length

namespace MempoolEntry

/-- Whether a transaction has an input that refers to `txid`. -/
def spends (e : MempoolEntry) (txid : Bytes32) : Bool :=
  e.tx.inputs.any fun i => i.prevOutput.txid == txid

end MempoolEntry

section Graph

variable (call : Call) (pool : Pool)

/-- The entries that spend an output of `txid`, in the order of the map. -/
def children (txid : Bytes32) : List Bytes32 :=
  ((call.iter pool).filter fun kv => kv.2.spends txid).map Prod.fst

/-- The transactions an entry of the pool refers to, in the order of its inputs. -/
def parents (txid : Bytes32) : Option (List Bytes32) :=
  (pool.lookup txid).map fun e => e.tx.inputs.map fun i => i.prevOutput.txid

/-- The entries `count_ancestors` and `compute_ancestor_package` visit. Every pop takes an
input of `tx` or of a visited entry from the stack. -/
def visitedAncestors (tx : Transaction) : List Bytes32 :=
  explore (parents pool) (tx.inputs.length + total (fun e => e.tx.inputs.length) pool)
    (tx.inputs.map fun i => i.prevOutput.txid).reverse []

def countAncestors (tx : Transaction) : ℕ := (visitedAncestors pool tx).length

/-- Every visited entry puts at most the whole pool on the stack. -/
def countDescendants (txid : Bytes32) : ℕ :=
  (explore (fun x => some (children call pool x))
    (1 + (pool.keys.card + 1) * pool.keys.card) [txid] []).length - 1

def computeAncestorPackage (tx : Transaction) (fee : UInt64) (size : ℕ) : UInt64 × ℕ :=
  let visited := (visitedAncestors pool tx).reverse.filterMap pool.lookup
  (visited.foldl (fun total e => total + e.fee) fee,
    visited.foldl (fun total e => total + e.size) size)

def collectDescendants (txid : Bytes32) (out : List Bytes32) : List Bytes32 :=
  mark (children call pool) (1 + pool.keys.card) [txid] out

end Graph

namespace Mempool

def new (maxSize : ℕ) : Mempool := ⟨∅, maxSize, 0⟩

section Removal

variable (call : Call) (sha256 : Sha256) (m : Mempool)

def removeTransaction (txid : Bytes32) : Mempool × Option Transaction :=
  match m.transactions.lookup txid with
  | some entry =>
      ({ m with
          transactions := m.transactions.erase txid
          currentSize := m.currentSize - entry.size }, some entry.tx)
  | none => (m, none)

/-- The removals of a loop over a set of txids. -/
def removeAll (m : Mempool) (txids : List Bytes32) : Mempool :=
  txids.foldl (fun m txid => (m.removeTransaction txid).1) m

/-- The non-coinbase transactions of a block. -/
def confirmed (b : Block) : List Transaction := b.transactions.filter fun tx => !tx.isCoinbase

def confirmedTxids (b : Block) : List Bytes32 := (confirmed b).map (Transaction.txid sha256)

def confirmedSpends (b : Block) : List OutPoint :=
  (((confirmed b).flatMap Transaction.inputs).map TxInput.prevOutput).filter fun o => !o.isNull

/-- The entries whose transaction is in the block. -/
def exactConfirmed (b : Block) : List Bytes32 :=
  ((call.iter m.transactions).map Prod.fst).filter fun txid => txid ∈ confirmedTxids sha256 b

/-- The other entries that spend what a transaction of the block spends. -/
def conflictingRoots (b : Block) : List Bytes32 :=
  ((call.iter m.transactions).filter fun kv =>
    kv.1 ∉ confirmedTxids sha256 b ∧
      kv.2.tx.inputs.any fun i => i.prevOutput ∈ confirmedSpends b).map Prod.fst

def toRemove (b : Block) : List Bytes32 :=
  (conflictingRoots call sha256 m b).foldl
    (fun out txid => collectDescendants call m.transactions txid (insertNew txid out))
    (exactConfirmed call sha256 m b)

def removeBlockTransactions (b : Block) : Mempool × ℕ :=
  (m.removeAll (toRemove call sha256 m b), (toRemove call sha256 m b).length)

def expired : List Bytes32 :=
  ((call.iter m.transactions).filter fun kv =>
    kv.2.addedTime < saturatingSub call.now mempoolExpirySecs).map Prod.fst

def expireOldEntries : Mempool := m.removeAll (expired call m)

def clear : Mempool := { m with transactions := ∅, currentSize := 0 }

end Removal

section Eviction

variable (rates : FeeRates) (call : Call) (sha256 : Sha256)

/-- The first entry of least fee rate. -/
def lowestFeerate (pool : Pool) : Option MempoolEntry :=
  (((call.iter pool).map Prod.snd).filter fun e => 0 < e.size).argmin
    fun e => rates.rate e.fee e.size

/-- The loop of `evict_lowest_feerate`; every round takes one entry from the pool. -/
def evictLoop (needed : ℕ) : ℕ → ℕ → Mempool → Mempool × Bool
  | 0, freed, m => (m, needed ≤ freed)
  | fuel + 1, freed, m =>
    if freed < needed then
      match lowestFeerate rates call m.transactions with
      | some e => evictLoop needed fuel (freed + e.size) (m.removeTransaction (e.tx.txid sha256)).1
      | none => (m, false)
    else (m, true)

def evictLowestFeerate (m : Mempool) (needed : ℕ) : Mempool × Bool :=
  evictLoop rates call sha256 needed (m.transactions.keys.card + 1) 0 m

end Eviction

section Insertion

variable (rates : FeeRates) (call : Call) (sha256 : Sha256) (m : Mempool) (tx : Transaction)
  (fee : UInt64)

def signalsRbf (tx : Transaction) : Bool := tx.inputs.any fun i => i.sequence < 0xfffffffe

/-- One element for every input and every entry that spends the same output. -/
def conflicts (pool : Pool) : List Bytes32 :=
  tx.inputs.flatMap fun i =>
    ((call.iter pool).filter fun kv =>
      kv.2.tx.inputs.any fun j => j.prevOutput == i.prevOutput).map Prod.fst

/-- The conflicting entries and their descendants. -/
def allEvict (pool : Pool) : List Bytes32 :=
  (conflicts call tx pool).foldl
    (fun out txid => collectDescendants call pool txid (insertNew txid out)) []

def aggregateFee (pool : Pool) : UInt64 :=
  (((allEvict call tx pool).filterMap pool.lookup).map MempoolEntry.fee).sum

/-- The BIP-125 rules: the entries that are replaced. -/
def replacement (pool : Pool) : Except String (List Bytes32) :=
  let toEvict := conflicts call tx pool
  if toEvict ≠ [] ∧ ¬ signalsRbf tx then
    .error "Conflict with existing tx and new tx does not signal BIP-125 RBF"
  else if maxRbfConflicts < toEvict.length then
    .error s!"RBF replacement conflicts with too many transactions ({toEvict.length})"
  else if allEvict call tx pool ≠ [] ∧ fee ≤ aggregateFee call tx pool then
    .error s!"RBF replacement fee ({fee}) must exceed aggregate of evicted txs ({aggregateFee call tx pool})"
  else .ok (allEvict call tx pool)

/-- The limit on the descendants of each parent, in the order of the inputs. -/
def descendantLimits (pool : Pool) : List TxInput → Except String Unit
  | [] => .ok ()
  | i :: inputs =>
    let desc := countDescendants call pool i.prevOutput.txid
    if i.prevOutput.txid ∈ pool ∧ maxDescendants < desc + 1 then
      .error s!"Too many in-mempool descendants ({desc + 1} > {maxDescendants})"
    else descendantLimits pool inputs

def chainLimits (pool : Pool) : Except String Unit :=
  let ancestorCount := countAncestors pool tx
  if maxAncestors < ancestorCount then
    .error s!"Too many in-mempool ancestors ({ancestorCount} > {maxAncestors})"
  else descendantLimits call pool tx.inputs

/-- The pool capacity: the lowest fee rates make room for `size` bytes. -/
def makeRoom (size : ℕ) : Mempool × Except String Unit :=
  if 2 ^ 64 ≤ m.currentSize + size then (m, .error "Mempool size overflow")
  else if m.maxSize < m.currentSize + size then
    let evicted := evictLowestFeerate rates call sha256 m size
    (evicted.1, if evicted.2 then .ok () else .error "Mempool full")
  else (m, .ok ())

def newEntry (pool : Pool) : MempoolEntry where
  tx := tx
  fee := fee
  addedTime := call.now
  size := txSize tx
  sigopCost := 0
  ancestorFee := (computeAncestorPackage pool tx fee (txSize tx)).1
  ancestorSize := (computeAncestorPackage pool tx fee (txSize tx)).2

def insertEntry (txid : Bytes32) (entry : MempoolEntry) : Mempool :=
  { m with
    transactions := m.transactions.insert txid entry
    currentSize := min (m.currentSize + entry.size) (2 ^ 64 - 1) }

def addTransactionUnchecked : Mempool × Except String Unit :=
  if tx.txid sha256 ∈ m.transactions then (m, .error "Transaction already in mempool")
  else
    match replacement call tx fee m.transactions with
    | .error e => (m, .error e)
    | .ok evicted =>
      let replaced := m.removeAll evicted
      match chainLimits call tx replaced.transactions with
      | .error e => (replaced, .error e)
      | .ok () =>
        let entry := newEntry call tx fee replaced.transactions
        match makeRoom rates call sha256 replaced (txSize tx) with
        | (full, .error e) => (full, .error e)
        | (roomy, .ok ()) => (roomy.insertEntry (tx.txid sha256) entry, .ok ())

/-- Fee 0, without the relay policy. -/
def addTransaction : Mempool × Except String Unit :=
  addTransactionUnchecked rates call sha256 m tx 0

/-- The relay policy of `add_transaction_with_fee`. -/
def relayPolicy : Except String Unit :=
  if 0 < txSize tx then
    if fee = 0 then .error "Zero-fee transactions are not relayed; include the computed fee"
    else if rates.rate fee (txSize tx) < rates.minRelayFeeRate then
      .error ("Transaction fee rate (" ++ rates.format (rates.rate fee (txSize tx)) ++
        " sat/byte) below minimum relay fee (1 sat/byte)")
    else .ok ()
  else .ok ()

def addTransactionWithFee : Mempool × Except String Unit :=
  match relayPolicy rates tx fee with
  | .error e => (m, .error e)
  | .ok () => addTransactionUnchecked rates call sha256 m tx fee

def setSigopCost (txid : Bytes32) (cost : ℕ) : Mempool :=
  match m.transactions.lookup txid with
  | some entry => { m with transactions := m.transactions.insert txid { entry with sigopCost := cost } }
  | none => m

def addTransactionChecked (u : UtxoSet) : Mempool × Except String Unit :=
  let sigopCost := txSigopCost tx u
  if maxStandardTxSigopsCost < sigopCost then
    (m, .error s!"Transaction sigop cost ({sigopCost}) exceeds policy limit ({maxStandardTxSigopsCost})")
  else
    match addTransactionWithFee rates call sha256 m tx fee with
    | (m', .error e) => (m', .error e)
    | (m', .ok ()) => (m'.setSigopCost (tx.txid sha256) sigopCost, .ok ())

end Insertion

end Mempool

section Packages

variable (rates : FeeRates) (calls : ℕ → Call) (sha256 : Sha256)

/-- One insertion that an operation tries, with the pool before it. -/
structure Attempt where
  call : Call
  pool : Mempool
  tx : Transaction
  fee : UInt64

/-- The pool after the attempt. -/
def Attempt.after (a : Attempt) : Mempool :=
  (a.pool.addTransactionUnchecked rates a.call sha256 a.tx a.fee).1

/-- The local variables of `add_package`. The insertions tried so far are recorded; each of
them reads the clock and the map order of its own call. -/
structure PackageState where
  pool : Mempool
  added : ℕ
  staged : List Transaction
  tried : List Attempt

namespace PackageState

/-- Try to add a transaction of the package. -/
def tryAdd (s : PackageState) (tx : Transaction) : PackageState × Bool :=
  let call := calls s.tried.length
  let result := s.pool.addTransaction rates call sha256 tx
  ({ s with pool := result.1, tried := s.tried ++ [⟨call, s.pool, tx, 0⟩] },
    match result.2 with
    | .ok () => true
    | .error _ => false)

/-- `let _ = self.add_transaction(..)` for every staged transaction. -/
def addStaged (s : PackageState) : PackageState :=
  s.staged.foldl (fun s tx => (tryAdd rates calls sha256 s tx).1) s

def stage (s : PackageState) (tx : Transaction) : PackageState :=
  { s with added := s.added + 1, staged := s.staged ++ [tx] }

/-- One round of the loop over the package. -/
def round (s : PackageState) (tx : Transaction) : PackageState :=
  if tx.txid sha256 ∈ s.pool.transactions then s.stage tx
  else
    match tryAdd rates calls sha256 s tx with
    | (s, true) => s.stage tx
    | (s, false) =>
      match tryAdd rates calls sha256 (s.addStaged rates calls sha256) tx with
      | (s, true) => s.stage tx
      | (s, false) => s

end PackageState

/-- The whole run of `add_package`. -/
def packageRun (m : Mempool) (txs : List Transaction) : PackageState :=
  if txs = [] then ⟨m, 0, [], []⟩
  else
    (txs.foldl (PackageState.round rates calls sha256) ⟨m, 0, [], []⟩).addStaged rates calls sha256

def Mempool.addPackage (m : Mempool) (txs : List Transaction) : Mempool × ℕ :=
  ((packageRun rates calls sha256 m txs).pool, (packageRun rates calls sha256 m txs).added)

end Packages

section Persistence

variable (rates : FeeRates) (calls : ℕ → Call) (sha256 : Sha256)

/-- The records of the pool file, in the order of the map. -/
def Mempool.save (call : Call) (m : Mempool) : List (List UInt8 × UInt64) :=
  (call.iter m.transactions).map fun kv => (bincodeTransaction kv.2.tx, kv.2.fee)

/-- The local variables of `load`. -/
structure LoadState where
  pool : Mempool
  loaded : ℕ
  tried : List Attempt

/-- One record of the file; one that does not decode or is not accepted is skipped. -/
def LoadState.record (decode : List UInt8 → Option Transaction) (s : LoadState)
    (entry : List UInt8 × UInt64) : LoadState :=
  match decode entry.1 with
  | none => s
  | some tx =>
    match Mempool.relayPolicy rates tx entry.2 with
    | .error _ => s
    | .ok () =>
      let call := calls s.tried.length
      let result := s.pool.addTransactionUnchecked rates call sha256 tx entry.2
      { pool := result.1
        loaded := match result.2 with
          | .ok () => s.loaded + 1
          | .error _ => s.loaded
        tried := s.tried ++ [⟨call, s.pool, tx, entry.2⟩] }

def loadRun (decode : List UInt8 → Option Transaction) (m : Mempool)
    (entries : List (List UInt8 × UInt64)) : LoadState :=
  entries.foldl (LoadState.record rates calls sha256 decode) ⟨m, 0, []⟩

/-- `load` of a file that `bincode` reads as `entries`; a file that cannot be read leaves the
pool as it is. -/
def Mempool.load (decode : List UInt8 → Option Transaction) (m : Mempool)
    (file : Except String (List (List UInt8 × UInt64))) : Mempool × Except String ℕ :=
  match file with
  | .error e => (m, .error e)
  | .ok entries =>
    ((loadRun rates calls sha256 decode m entries).pool,
      .ok (loadRun rates calls sha256 decode m entries).loaded)

end Persistence

section Operations

variable (rates : FeeRates) (sha256 : Sha256)

/-- The operations on a pool, with what each of them reads. -/
inductive Op where
  | addTransactionWithFee (call : Call) (tx : Transaction) (fee : UInt64)
  | addTransactionChecked (call : Call) (tx : Transaction) (fee : UInt64) (u : UtxoSet)
  | addPackage (calls : ℕ → Call) (txs : List Transaction)
  | removeTransaction (txid : Bytes32)
  | removeBlockTransactions (call : Call) (b : Block)
  | expireOldEntries (call : Call)
  | clear
  | load (calls : ℕ → Call) (decode : List UInt8 → Option Transaction)
      (file : Except String (List (List UInt8 × UInt64)))

/-- The operations that try insertions. -/
def Op.adds : Op → Bool
  | .addTransactionWithFee .. => true
  | .addTransactionChecked .. => true
  | .addPackage .. => true
  | .load .. => true
  | _ => false

def Op.apply (m : Mempool) : Op → Mempool
  | .addTransactionWithFee call tx fee => (m.addTransactionWithFee rates call sha256 tx fee).1
  | .addTransactionChecked call tx fee u => (m.addTransactionChecked rates call sha256 tx fee u).1
  | .addPackage calls txs => (m.addPackage rates calls sha256 txs).1
  | .removeTransaction txid => (m.removeTransaction txid).1
  | .removeBlockTransactions call b => (m.removeBlockTransactions call sha256 b).1
  | .expireOldEntries call => m.expireOldEntries call
  | .clear => m.clear
  | .load calls decode file => (m.load rates calls sha256 decode file).1

/-- The pool after a sequence of operations on an empty one. -/
def run (maxSize : ℕ) (ops : List Op) : Mempool :=
  ops.foldl (fun m op => op.apply rates sha256 m) (Mempool.new maxSize)

/-- The insertions an operation tries. -/
def Op.attempts (m : Mempool) : Op → List Attempt
  | .addTransactionWithFee call tx fee =>
      match Mempool.relayPolicy rates tx fee with
      | .error _ => []
      | .ok () => [⟨call, m, tx, fee⟩]
  | .addTransactionChecked call tx fee u =>
      if maxStandardTxSigopsCost < txSigopCost tx u then []
      else
        match Mempool.relayPolicy rates tx fee with
        | .error _ => []
        | .ok () => [⟨call, m, tx, fee⟩]
  | .addPackage calls txs => (packageRun rates calls sha256 m txs).tried
  | .load calls decode (.ok entries) => (loadRun rates calls sha256 decode m entries).tried
  | _ => []

end Operations

end KuberCoin.Mempools
