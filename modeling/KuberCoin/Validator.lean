import KuberCoin.UtxoSets
import KuberCoin.Params

/-!
Transaction and block validation (crate `consensus`, `validator`), in the order
of the source's checks and without a signature cache, as the node calls it.
Signature verification is given by a record of functions: a block is validated
against whatever they decide.
-/
namespace KuberCoin.Validator

open Bytes Maps Transactions Blocks UtxoSets Params

inductive ValidationError where
  | missingInput (outpoint : OutPoint)
  | invalidSignature (index : ℕ)
  | invalidCoinbasePosition
  | multipleCoinbase
  | insufficientFunds
  | immatureCoinbase
  | doubleSpend
  | invalidScript (message : String)
  | lockedUntilFuture
  | sequenceLockNotMet
  | tooManySigops
  | blockTooHeavy
  | excessiveCoinbaseReward
  | invalidMerkleRoot
  | timestampBeforeMTP
  | badBlockVersion
  | duplicateTxid
deriving DecidableEq

/-- Fail with `e` unless the condition holds. -/
def require (p : Prop) [Decidable p] (e : ValidationError) : Except ValidationError Unit :=
  if p then .ok () else .error e

/-- Run a check on each element and stop at the first error. -/
def forEach {α : Type} (check : α → Except ValidationError Unit) :
    List α → Except ValidationError Unit
  | [] => .ok ()
  | a :: rest => do
      check a
      forEach check rest

theorem bind_eq_ok_iff {α β : Type} {x : Except ValidationError α} {f : α → Except ValidationError β} {b : β} :
    (x >>= f) = .ok b ↔ ∃ a, x = .ok a ∧ f a = .ok b := by
  cases x with
  | error e => simp [bind, Except.bind]
  | ok a => simp [bind, Except.bind]

theorem require_eq_ok_iff {p : Prop} [Decidable p] {e : ValidationError} {a : Unit} : require p e = .ok a ↔ p := by
  unfold require
  split <;> simp_all

theorem forEach_eq_ok_iff {α : Type} {check : α → Except ValidationError Unit} {l : List α} {a : Unit} :
    forEach check l = .ok a ↔ ∀ x ∈ l, check x = .ok () := by
  induction l with
  | nil => simp [forEach]
  | cons x rest ih =>
    rw [List.forall_mem_cons, ← ih, forEach, bind_eq_ok_iff]
    constructor
    · rintro ⟨⟨⟩, hx, hrest⟩
      exact ⟨hx, hrest⟩
    · rintro ⟨hx, hrest⟩
      exact ⟨(), hx, hrest⟩

/-- A taproot key-path signature collected for batch verification. -/
structure BatchItem where
  tx : Transaction
  inputIndex : ℕ
  prevoutAmounts : List UInt64
  prevoutScripts : List (List UInt8)
  sigBytes : List UInt8
  sighashType : UInt8
  outputKey : List UInt8

/-- The signature checks: `verify_input_signature` on a transaction, an input index, the
spent entry and all prevout amounts and scripts; and the Schnorr batch verification. -/
structure ScriptChecks where
  verifyInputSignature :
    Transaction → ℕ → UTXO → List UInt64 → List (List UInt8) → Except ValidationError Unit
  verifyBatch : List BatchItem → Bool

section Sigops

/-- The loop of `count_sigops_internal` on the rest of a script. Every round consumes
at least one byte, so the length of the script is enough fuel. -/
def countSigopsLoop (accurate : Bool) : ℕ → UInt8 → List UInt8 → ℕ
  | 0, _, _ => 0
  | _ + 1, _, [] => 0
  | fuel + 1, lastOpcode, op :: rest =>
      if 0x01 ≤ op ∧ op ≤ 0x4b then
        countSigopsLoop accurate fuel op (rest.drop op.toNat)
      else if op = 0x4c then
        countSigopsLoop accurate fuel op
          (if 1 ≤ rest.length then rest.drop (1 + leValue (rest.take 1)) else rest)
      else if op = 0x4d then
        countSigopsLoop accurate fuel op
          (if 2 ≤ rest.length then rest.drop (2 + leValue (rest.take 2)) else rest)
      else if op = 0x4e then
        countSigopsLoop accurate fuel op
          (if 4 ≤ rest.length then rest.drop (4 + leValue (rest.take 4)) else rest)
      else if op = 0xac ∨ op = 0xad then
        1 + countSigopsLoop accurate fuel op rest
      else if op = 0xae ∨ op = 0xaf then
        (if accurate ∧ 0x51 ≤ lastOpcode ∧ lastOpcode ≤ 0x60 then (lastOpcode - 0x50).toNat else 20) +
          countSigopsLoop accurate fuel op rest
      else countSigopsLoop accurate fuel op rest

def countSigopsInternal (script : List UInt8) (accurate : Bool) : ℕ :=
  countSigopsLoop accurate script.length 0xff script

def countSigops (script : List UInt8) : ℕ := countSigopsInternal script false

def countSigopsAccurate (script : List UInt8) : ℕ := countSigopsInternal script true

/-- The loop of `last_push_data`; a truncated push ends it. -/
def lastPushLoop : ℕ → Option (List UInt8) → List UInt8 → Option (List UInt8)
  | 0, last, _ => last
  | _ + 1, last, [] => last
  | fuel + 1, last, op :: rest =>
      let push := fun (width len : ℕ) =>
        if width ≤ rest.length ∧ width + len ≤ rest.length then
          lastPushLoop fuel (some ((rest.drop width).take len)) (rest.drop (width + len))
        else last
      if 0x01 ≤ op ∧ op ≤ 0x4b then push 0 op.toNat
      else if op = 0x4c then push 1 (leValue (rest.take 1))
      else if op = 0x4d then push 2 (leValue (rest.take 2))
      else if op = 0x4e then push 4 (leValue (rest.take 4))
      else lastPushLoop fuel last rest

def lastPushData (script : List UInt8) : Option (List UInt8) :=
  lastPushLoop script.length none script

def isP2sh (spk : List UInt8) : Bool :=
  spk.length = 23 && spk.getD 0 0 = 0xa9 && spk.getD 1 0 = 0x14 && spk.getD 22 0 = 0x87

def isP2wsh (spk : List UInt8) : Bool :=
  spk.length = 34 && spk.getD 0 0 = 0x00 && spk.getD 1 0 = 0x20

def isP2wpkh (spk : List UInt8) : Bool :=
  spk.length = 22 && spk.getD 0 0 = 0x00 && spk.getD 1 0 = 0x14

/-- The witness sigops of an input that spends an output with script `spk`. -/
def witnessSigops (i : TxInput) (spk : List UInt8) : ℕ :=
  let isP2shP2wsh := isP2sh spk && ((lastPushData i.scriptSig).map isP2wsh).getD false
  if i.witness.isEmpty then 0
  else if isP2wsh spk || isP2shP2wsh then
    (i.witness.stack.getLast?.map countSigopsAccurate).getD 0
  else if isP2wpkh spk then 1
  else 0

def inputSigopCost (u : UtxoSet) (i : TxInput) : ℕ :=
  countSigops i.scriptSig * 4 +
    match u.lookup i.prevOutput with
    | none => 0
    | some utxo =>
        let spk := utxo.output.scriptPubkey
        (if isP2sh spk then ((lastPushData i.scriptSig).map countSigopsAccurate).getD 0 * 4 else 0) +
          witnessSigops i spk

def txSigopCost (tx : Transaction) (u : UtxoSet) : ℕ :=
  (tx.inputs.map (inputSigopCost u)).sum +
    (tx.outputs.map fun o => countSigops o.scriptPubkey * 4).sum

def maxBlockSigopsCost : ℕ := 80000

end Sigops

section Transactions

variable (checks : ScriptChecks) (clock : UInt64)

def getUtxo (u : UtxoSet) (o : OutPoint) : Except ValidationError UTXO :=
  match u.lookup o with
  | some utxo => .ok utxo
  | none => .error (.missingInput o)

/-- The entries the inputs name, or the first one that is missing. -/
def prevouts (u : UtxoSet) : List TxInput → Except ValidationError (List UTXO)
  | [] => .ok []
  | i :: rest => do
      let utxo ← getUtxo u i.prevOutput
      let utxos ← prevouts u rest
      return utxo :: utxos

/-- The time a timestamp-based lock time is compared with; the clock without an MTP. -/
def lockClock (mtp : Option (ℕ → UInt64)) (height : ℕ) : UInt64 :=
  match mtp with
  | some f => f height
  | none => clock

def lockTimeMet (mtp : Option (ℕ → UInt64)) (height : ℕ) (tx : Transaction) : Bool :=
  if tx.lockTime ≠ 0 ∧ ¬ tx.inputs.all (fun i => i.sequence == 0xffffffff) then
    if tx.lockTime < 500000000 then tx.lockTime.toNat ≤ height
    else tx.lockTime.toUInt64 ≤ lockClock clock mtp height
  else true

/-- BIP-68. -/
def sequenceLockMet (mtp : Option (ℕ → UInt64)) (height : ℕ) (tx : Transaction) (i : TxInput)
    (utxo : UTXO) : Bool :=
  if tx.version ≥ 2 ∧ i.sequence &&& 0x80000000 = 0 then
    if i.sequence &&& 0x400000 ≠ 0 then
      match mtp with
      | some f =>
          saturatingAdd (f utxo.height) ((i.sequence &&& 0xffff).toUInt64 * 512) ≤ f height
      | none => false
    else utxo.height + (i.sequence &&& 0xffff).toNat ≤ height
  else true

/-- Validate the inputs from position `index` on, adding their values to `sum`. -/
def validateInputs (tx : Transaction) (u : UtxoSet) (height : ℕ) (mtp : Option (ℕ → UInt64))
    (amounts : List UInt64) (scripts : List (List UInt8)) :
    ℕ → UInt64 → List TxInput → Except ValidationError UInt64
  | _, sum, [] => .ok sum
  | index, sum, i :: rest => do
      let utxo ← getUtxo u i.prevOutput
      require (¬ (utxo.isCoinbase ∧ height < utxo.height + 100)) .immatureCoinbase
      require (sequenceLockMet mtp height tx i utxo) .sequenceLockNotMet
      checks.verifyInputSignature tx index utxo amounts scripts
      match Transaction.checkedAdd sum utxo.output.value with
      | some sum' => validateInputs tx u height mtp amounts scripts (index + 1) sum' rest
      | none => .error .insufficientFunds

def validateTransactionCached (tx : Transaction) (u : UtxoSet) (height : ℕ)
    (mtp : Option (ℕ → UInt64)) : Except ValidationError Unit :=
  if tx.isCoinbase then .ok () else do
    require (¬ (tx.version = 0 ∨ tx.version > 2))
      (.invalidScript s!"Non-standard transaction version: {tx.version} (expected 1 or 2)")
    forEach (fun o => require (o.1.value ≤ maxSupply)
        (.invalidScript s!"Output {o.2} value {o.1.value} exceeds MAX_SUPPLY {maxSupply}"))
      tx.outputs.zipIdx
    require (lockTimeMet clock mtp height tx) .lockedUntilFuture
    let spent ← prevouts u tx.inputs
    let inputSum ← validateInputs checks tx u height mtp (spent.map fun c => c.output.value)
      (spent.map fun c => c.output.scriptPubkey) 0 0 tx.inputs
    match tx.totalOutputValue with
    | none => .error .insufficientFunds
    | some outputSum => require (outputSum ≤ inputSum) .insufficientFunds

end Transactions

section Blocks

variable (sha256 : Sha256) (checks : ScriptChecks) (clock : UInt64)

/-- The batch item of a taproot key-path input, if it is one. -/
def batchItem (u : UtxoSet) (tx : Transaction) (index : ℕ) (i : TxInput) : Option BatchItem :=
  (u.lookup i.prevOutput).bind fun utxo =>
  let spk := utxo.output.scriptPubkey
  let stack := i.witness.stack
  let hasAnnex := stack.length ≥ 2 && (stack.getLast?.map fun a => a.head? == some 0x50).getD false
  let effLen := if hasAnnex then stack.length - 1 else stack.length
  let sigElem := stack.getD 0 []
  let spent := tx.inputs.filterMap fun j => u.lookup j.prevOutput
  if spk.length ≠ 34 ∨ spk.getD 0 0 ≠ 0x51 ∨ spk.getD 1 0 ≠ 0x20 then none
  else if effLen ≠ 1 then none
  else if sigElem.length ≠ 64 ∧ sigElem.length ≠ 65 then none
  else if spent.length ≠ tx.inputs.length then none
  else
    some
      { tx := tx
        inputIndex := index
        prevoutAmounts := spent.map fun c => c.output.value
        prevoutScripts := spent.map fun c => c.output.scriptPubkey
        sigBytes := sigElem.take 64
        sighashType := if sigElem.length = 65 then sigElem.getD 64 0 else 0x00
        outputKey := spk.drop 2 }

def batchItems (u : UtxoSet) (txs : List Transaction) : List BatchItem :=
  txs.flatMap fun tx => tx.inputs.zipIdx.filterMap fun i => batchItem u tx i.2 i.1

/-- BIP-113: the block's timestamp is after the median time past of its parent. -/
def timestampAfterMtp (b : Block) (mtp : Option (ℕ → UInt64)) : Bool :=
  match mtp with
  | some f => b.header.height = 0 || f (b.header.height - 1) < b.header.timestamp
  | none => true

def versionBitsTopMask : Int32 := 0x20000000

/-- No output of the transaction is in the set. -/
def outputsFresh (u : UtxoSet) (tx : Transaction) : Bool :=
  (List.range tx.outputs.length).all fun idx =>
    (u.lookup ⟨tx.txid sha256, UInt32.ofNat idx⟩).isNone

/-- All outpoints the transactions spend, in order. -/
def spentOutpoints (txs : List Transaction) : List OutPoint :=
  txs.flatMap fun tx => tx.inputs.map TxInput.prevOutput

/-- The fee of a transaction; the sums wrap as in the release profile. -/
def txFee (u : UtxoSet) (tx : Transaction) : UInt64 :=
  saturatingSub
    (tx.inputs.filterMap fun i => (u.lookup i.prevOutput).map fun c => c.output.value).sum
    (tx.outputs.map TxOutput.value).sum

def maxCoinbaseValue (u : UtxoSet) (height : ℕ) (txs : List Transaction) : UInt64 :=
  saturatingAdd (blockSubsidy height) (txs.map (txFee u)).sum

/-- BIP-141: a block with witness data commits to it in the coinbase. -/
def checkWitnessCommitment (coinbase : Transaction) (txs : List Transaction) :
    Except ValidationError Unit :=
  if txs.any fun tx => tx.inputs.any fun i => !i.witness.isEmpty then do
    let stack := (coinbase.inputs.map fun i => i.witness.stack).headD []
    let nonce := stack.headD Bytes32.zero.bytes
    require (nonce.length = 32) (.invalidScript "Witness nonce must be 32 bytes")
    let root := calculateWitnessMerkleRoot sha256 (coinbase :: txs)
    let commitment := sha256d sha256 (root.bytes ++ nonce)
    require (coinbase.outputs.any fun out =>
        out.scriptPubkey.length ≥ 38 &&
          out.scriptPubkey.take 38 == [0x6a, 0x24, 0xaa, 0x21, 0xa9, 0xed] ++ commitment.bytes)
      (.invalidScript "Missing or invalid BIP-141 witness commitment in coinbase")
  else .ok ()

def validateBlockFull (b : Block) (u : UtxoSet) (mtp : Option (ℕ → UInt64)) (skipScripts : Bool) :
    Except ValidationError Unit :=
  match b.transactions with
  | [] => .error .invalidCoinbasePosition
  | coinbase :: txs => do
      require (b.weight ≤ maxBlockWeight) .blockTooHeavy
      require (timestampAfterMtp b mtp) .timestampBeforeMTP
      require (¬ (b.header.version < 0 ∨ b.header.version &&& versionBitsTopMask = 0)) .badBlockVersion
      require (b.transactions.all (outputsFresh sha256 u)) .duplicateTxid
      require coinbase.isCoinbase .invalidCoinbasePosition
      require (txs.all fun tx => !tx.isCoinbase) .multipleCoinbase
      require ((txs.map fun tx => txSigopCost tx u).sum ≤ maxBlockSigopsCost) .tooManySigops
      if skipScripts then .ok () else do
        forEach (fun tx => validateTransactionCached checks clock tx u b.header.height mtp) txs
        require (checks.verifyBatch (batchItems u txs)) (.invalidSignature 0)
      require (spentOutpoints txs).Nodup .doubleSpend
      require ((coinbase.outputs.map TxOutput.value).sum ≤ maxCoinbaseValue u b.header.height txs)
        .excessiveCoinbaseReward
      require (b.verifyMerkleRoot sha256) .invalidMerkleRoot
      checkWitnessCommitment sha256 coinbase txs

def validateBlockCached (b : Block) (u : UtxoSet) (mtp : Option (ℕ → UInt64)) :
    Except ValidationError Unit :=
  validateBlockFull sha256 checks clock b u mtp false

def validateBlockNoScriptsWithMtp (b : Block) (u : UtxoSet) (mtp : Option (ℕ → UInt64)) :
    Except ValidationError Unit :=
  validateBlockFull sha256 checks clock b u mtp true

end Blocks

end KuberCoin.Validator
