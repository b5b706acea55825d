import KuberCoin.FailingPrograms
import KuberCoin.PsbtVersion2
import KuberCoin.TxEncodings

/-!
Partially signed transactions (crate `tx`, `psbt.rs`): how they are built, written and read.
What is read back of a PSBT is the PSBT without the version of its transactions, the
witnesses of their inputs and the taproot derivations, and with the taproot script
signatures under keys that are cut after 32 and 64 bytes.
Positions in the bytes are the bytes still to be read; a slice out of range, at which the
program panics, is an error of its own.
-/
namespace KuberCoin.Psbts

open Bytes Maps Transactions TxEncodings Sighashes Decoders Records CommitmentTxs
open PsbtVersion2.PsbtV2 (readU32 readU64 readU32_leBytes readU64_leBytes)

inductive PsbtError
  | indexOutOfBounds (what : String)
  | invalidFormat (text : String)
  | missingData (text : String)
  | parse (text : String)
  | combineMismatch
  | validation (text : String)
  | transaction (text : String)
  | panicked
  deriving DecidableEq

/-- A fingerprint and a path. -/
abbrev KeySource := UInt32 × List UInt32

/-- By x-only key: the hashes of leaves and where the key comes from. -/
abbrev TapBip32Derivation := Map (List UInt8) (List (List UInt8) × KeySource)

structure PsbtInput where
  nonWitnessUtxo : Option Transaction
  witnessUtxo : Option TxOutput
  partialSigs : Map (List UInt8) (List UInt8)
  sighashType : Option UInt32
  redeemScript : Option (List UInt8)
  witnessScript : Option (List UInt8)
  bip32Derivation : Map (List UInt8) KeySource
  finalScriptSig : Option (List UInt8)
  finalScriptWitness : Option (List (List UInt8))
  tapKeySig : Option (List UInt8)
  /-- By control block and script. -/
  tapScriptSig : Map (List UInt8 × List UInt8) (List UInt8)
  /-- By control block: a script and its leaf version. -/
  tapLeafScript : Map (List UInt8) (List UInt8 × UInt8)
  tapBip32Derivation : TapBip32Derivation
  tapInternalKey : Option (List UInt8)
  tapMerkleRoot : Option (List UInt8)
  proprietary : Map (List UInt8) (List UInt8)

def PsbtInput.default : PsbtInput :=
  ⟨none, none, ∅, none, none, none, ∅, none, none, none, ∅, ∅, ∅, none, none, ∅⟩

structure PsbtOutput where
  redeemScript : Option (List UInt8)
  witnessScript : Option (List UInt8)
  bip32Derivation : Map (List UInt8) KeySource
  tapInternalKey : Option (List UInt8)
  tapTree : Map (List UInt8) (List UInt8 × UInt8)
  tapBip32Derivation : TapBip32Derivation
  proprietary : Map (List UInt8) (List UInt8)

def PsbtOutput.default : PsbtOutput := ⟨none, none, ∅, none, ∅, ∅, ∅⟩

structure Psbt where
  unsignedTx : Transaction
  version : UInt32
  inputs : List PsbtInput
  outputs : List PsbtOutput
  xpubs : Map (List UInt8) (List UInt8)
  proprietary : Map (List UInt8) (List UInt8)

namespace Psbt

section Building

def new (unsignedTx : Transaction) : Except PsbtError Psbt :=
  if unsignedTx.inputs = [] then .error (.validation "Transaction must have at least one input")
  else .ok ⟨unsignedTx, 0, List.replicate unsignedTx.inputs.length .default,
    List.replicate unsignedTx.outputs.length .default, ∅, ∅⟩

/-- A method that changes one input, after its checks. -/
def onInput (p : Psbt) (index : ℕ) (check : Except PsbtError Unit) (change : PsbtInput → PsbtInput) :
    Except PsbtError Psbt := do
  if index ≥ p.inputs.length then throw (.indexOutOfBounds "Input")
  check
  return { p with inputs := p.inputs.modify index change }

/-- A method that changes one output, after its checks. -/
def onOutput (p : Psbt) (index : ℕ) (check : Except PsbtError Unit) (change : PsbtOutput → PsbtOutput) :
    Except PsbtError Psbt := do
  if index ≥ p.outputs.length then throw (.indexOutOfBounds "Output")
  check
  return { p with outputs := p.outputs.modify index change }

/-- The check of a length, with the name of the field and the lengths it may have. -/
def checkLength (field : String) (lengths : List ℕ) (expected : String) (bytes : List UInt8) : Except PsbtError Unit :=
  if bytes.length ∈ lengths then .ok ()
  else .error (.invalidFormat s!"Invalid {field} length: {bytes.length} (expected {expected})")

def addWitnessUtxo (p : Psbt) (index : ℕ) (utxo : TxOutput) : Except PsbtError Psbt :=
  p.onInput index (.ok ()) fun i => { i with witnessUtxo := some utxo }

def addRedeemScript (p : Psbt) (index : ℕ) (script : List UInt8) : Except PsbtError Psbt :=
  p.onInput index (.ok ()) fun i => { i with redeemScript := some script }

def addBip32Derivation (p : Psbt) (index : ℕ) (pubkey : List UInt8) (fingerprint : UInt32) (path : List UInt32) :
    Except PsbtError Psbt :=
  p.onInput index (.ok ()) fun i =>
    { i with bip32Derivation := i.bip32Derivation.insert pubkey (fingerprint, path) }

def signInput (sha256 : Sha256) (p : Psbt) (index : ℕ) (key : PrivateKey) : Except PsbtError Psbt := do
  if index ≥ p.inputs.length then throw (.indexOutOfBounds "Input")
  let sighash ← (signatureHash sha256 p.unsignedTx index).mapError .transaction
  return { p with
    inputs := p.inputs.modify index fun i =>
      { i with partialSigs := i.partialSigs.insert key.publicKey (key.sign sighash ++ [0x01]) } }

/-- What `combine` makes of an input and the other one. -/
def combineInput (input other : PsbtInput) : PsbtInput :=
  { input with
    nonWitnessUtxo := input.nonWitnessUtxo.or other.nonWitnessUtxo
    witnessUtxo := input.witnessUtxo.or other.witnessUtxo
    partialSigs := input.partialSigs ∪ other.partialSigs
    redeemScript := input.redeemScript.or other.redeemScript
    witnessScript := input.witnessScript.or other.witnessScript
    bip32Derivation := input.bip32Derivation ∪ other.bip32Derivation }

def combineOutput (output other : PsbtOutput) : PsbtOutput :=
  { output with
    redeemScript := output.redeemScript.or other.redeemScript
    witnessScript := output.witnessScript.or other.witnessScript }

/-- The loop over the maps of the other PSBT; what goes beyond ours is passed over. -/
def combineAll {α : Type} (merge : α → α → α) : List α → List α → List α
  | a :: as, b :: bs => merge a b :: combineAll merge as bs
  | as, _ => as

def combine (sha256 : Sha256) (p other : Psbt) : Except PsbtError Psbt :=
  if p.unsignedTx.txid sha256 ≠ other.unsignedTx.txid sha256 then .error .combineMismatch
  else .ok { p with
    inputs := combineAll combineInput p.inputs other.inputs
    outputs := combineAll combineOutput p.outputs other.outputs }

def addTapKeySig (p : Psbt) (index : ℕ) (signature : List UInt8) : Except PsbtError Psbt :=
  p.onInput index (checkLength "Schnorr signature" [64] "64" signature) fun i =>
    { i with tapKeySig := some signature }

def addTapScriptSig (p : Psbt) (index : ℕ) (controlBlock script signature : List UInt8) : Except PsbtError Psbt :=
  p.onInput index (checkLength "Schnorr signature" [64, 65] "64 or 65" signature) fun i =>
    { i with tapScriptSig := i.tapScriptSig.insert (controlBlock, script) signature }

def addTapLeafScript (p : Psbt) (index : ℕ) (controlBlock script : List UInt8) (leafVersion : UInt8) :
    Except PsbtError Psbt :=
  p.onInput index (.ok ()) fun i =>
    { i with tapLeafScript := i.tapLeafScript.insert controlBlock (script, leafVersion) }

def addTapBip32Derivation (p : Psbt) (index : ℕ) (pubkeyXOnly : List UInt8) (leafHashes : List (List UInt8))
    (fingerprint : UInt32) (path : List UInt32) : Except PsbtError Psbt :=
  p.onInput index (checkLength "x-only pubkey" [32] "32" pubkeyXOnly) fun i =>
    { i with tapBip32Derivation := i.tapBip32Derivation.insert pubkeyXOnly (leafHashes, (fingerprint, path)) }

def addTapInternalKey (p : Psbt) (index : ℕ) (internalKey : List UInt8) : Except PsbtError Psbt :=
  p.onInput index (checkLength "internal key" [32] "32" internalKey) fun i =>
    { i with tapInternalKey := some internalKey }

def addTapMerkleRoot (p : Psbt) (index : ℕ) (merkleRoot : List UInt8) : Except PsbtError Psbt :=
  p.onInput index (checkLength "merkle root" [32] "32" merkleRoot) fun i =>
    { i with tapMerkleRoot := some merkleRoot }

def addOutputTapInternalKey (p : Psbt) (index : ℕ) (internalKey : List UInt8) : Except PsbtError Psbt :=
  p.onOutput index (checkLength "internal key" [32] "32" internalKey) fun o =>
    { o with tapInternalKey := some internalKey }

def addOutputTapTree (p : Psbt) (index : ℕ) (controlBlock script : List UInt8) (leafVersion : UInt8) :
    Except PsbtError Psbt :=
  p.onOutput index (.ok ()) fun o => { o with tapTree := o.tapTree.insert controlBlock (script, leafVersion) }

def addOutputTapBip32Derivation (p : Psbt) (index : ℕ) (pubkeyXOnly : List UInt8)
    (leafHashes : List (List UInt8)) (fingerprint : UInt32) (path : List UInt32) : Except PsbtError Psbt :=
  p.onOutput index (checkLength "x-only pubkey" [32] "32" pubkeyXOnly) fun o =>
    { o with tapBip32Derivation := o.tapBip32Derivation.insert pubkeyXOnly (leafHashes, (fingerprint, path)) }

end Building

section Writing

variable (order : MapOrder)

/-- `serialize_transaction`: without witnesses. -/
def serializeTransaction (tx : Transaction) : List UInt8 :=
  leBytes 4 tx.version.toNat ++ writeCompactSize tx.inputs.length ++ tx.inputs.flatMap Transaction.serializeInput ++
    writeCompactSize tx.outputs.length ++ tx.outputs.flatMap Transaction.serializeOutput ++ leBytes 4 tx.lockTime.toNat

def writeKeySource (source : KeySource) : List UInt8 :=
  leBytes 4 source.1.toNat ++ source.2.flatMap fun n => leBytes 4 n.toNat

def writeStack (stack : List (List UInt8)) : List UInt8 :=
  writeCompactSize stack.length ++ stack.flatMap writeSized

def globalRecords (p : Psbt) : List (List Record) :=
  [[⟨[0x00], serializeTransaction p.unsignedTx⟩],
   if 0 < p.version then [⟨[0xfb], leBytes 4 p.version.toNat⟩] else [],
   (order.iter p.xpubs).map fun e => ⟨0x01 :: e.1, e.2⟩,
   (order.iter p.proprietary).map fun e => ⟨0xfc :: e.1, e.2⟩]

/-- The records of `serialize_input`, field by field. -/
def inputRecords (i : PsbtInput) : List (List Record) :=
  [i.nonWitnessUtxo.toList.map fun tx => ⟨[0x00], serializeTransaction tx⟩,
   i.witnessUtxo.toList.map fun utxo => ⟨[0x01], Transaction.serializeOutput utxo⟩,
   (order.iter i.partialSigs).map fun e => ⟨0x02 :: e.1, e.2⟩,
   i.sighashType.toList.map fun t => ⟨[0x03], leBytes 4 t.toNat⟩,
   i.redeemScript.toList.map fun script => ⟨[0x04], script⟩,
   i.witnessScript.toList.map fun script => ⟨[0x05], script⟩,
   (order.iter i.bip32Derivation).map fun e => ⟨0x06 :: e.1, writeKeySource e.2⟩,
   i.tapKeySig.toList.map fun sig => ⟨[0x13], sig⟩,
   i.tapInternalKey.toList.map fun key => ⟨[0x17], key⟩,
   i.tapMerkleRoot.toList.map fun root => ⟨[0x18], root⟩,
   i.finalScriptSig.toList.map fun script => ⟨[0x07], script⟩,
   i.finalScriptWitness.toList.map fun stack => ⟨[0x08], writeStack stack⟩,
   (order.iter i.tapScriptSig).map fun e => ⟨0x14 :: (e.1.1 ++ e.1.2), e.2⟩,
   (order.iter i.tapLeafScript).map fun e => ⟨0x15 :: e.1, e.2.1 ++ [e.2.2]⟩,
   (order.iter i.proprietary).map fun e => ⟨0xfc :: e.1, e.2⟩]

/-- The records of `serialize_output`, field by field. -/
def outputRecords (o : PsbtOutput) : List (List Record) :=
  [o.redeemScript.toList.map fun script => ⟨[0x00], script⟩,
   o.witnessScript.toList.map fun script => ⟨[0x01], script⟩,
   (order.iter o.bip32Derivation).map fun e => ⟨0x02 :: e.1, writeKeySource e.2⟩,
   o.tapInternalKey.toList.map fun key => ⟨[0x05], key⟩,
   (order.iter o.tapTree).map fun e => ⟨0x06 :: e.1, e.2.1 ++ [e.2.2]⟩,
   (order.iter o.proprietary).map fun e => ⟨0xfc :: e.1, e.2⟩]

def magic : List UInt8 := [0x70, 0x73, 0x62, 0x74, 0xff]

def serialize (p : Psbt) : List UInt8 :=
  magic ++ writeRecords (globalRecords order p).flatten ++
    p.inputs.flatMap (fun i => writeRecords (inputRecords order i).flatten) ++
    p.outputs.flatMap fun o => writeRecords (outputRecords order o).flatten

end Writing

section Reading

/-- A reader takes a value from the front of the bytes. -/
abbrev Reader := StateT (List UInt8) (Except PsbtError)

/-- `read_compact_size`, where a size of eight bytes fits the platform. -/
def readCompactSize : Reader ℕ := fun bytes =>
  match compactSize bytes with
  | some r => .ok r
  | none =>
      .error (.parse (if bytes = [] then "Empty data for compact size" else "Not enough bytes for compact size"))

/-- The next bytes, so many; the error where there are fewer. -/
def readBytes (n : ℕ) (error : PsbtError) : Reader (List UInt8) := fun bytes =>
  if n ≤ bytes.length then .ok (bytes.take n, bytes.drop n) else .error error

/-- Bytes behind their size. -/
def readSized (error : PsbtError) : Reader (List UInt8) := do
  let len ← readCompactSize
  readBytes len error

def readTxInput : Reader TxInput := do
  let outpoint ← readBytes 36 (.parse "Input extends past end")
  let scriptSig ← readSized (.parse "Script extends past end")
  let sequence ← readBytes 4 (.parse "Sequence extends past end")
  return ⟨⟨Bytes32.ofBytes (outpoint.take 32), readU32 (outpoint.drop 32)⟩, scriptSig, readU32 sequence, Witness.empty⟩

def readTxOutput : Reader TxOutput := do
  let value ← readBytes 8 (.parse "Output value extends past end")
  let scriptPubkey ← readSized (.parse "Script pubkey extends past end")
  return ⟨readU64 value, scriptPubkey⟩

/-- `deserialize_transaction` up to its result. `Transaction::new` gives the version 2, whatever
version was read. -/
def readTransaction : Reader Transaction := do
  let _version ← readBytes 4 (.parse "Transaction too short")
  let inputCount ← readCompactSize
  let inputs ← readMany readTxInput inputCount
  let outputCount ← readCompactSize
  let outputs ← readMany readTxOutput outputCount
  let lockTime ← readBytes 4 (.parse "Locktime extends past end")
  return ⟨2, inputs, outputs, readU32 lockTime⟩

/-- What stands behind the lock time is not looked at. -/
def deserializeTransaction (bytes : List UInt8) : Except PsbtError Transaction := do
  if bytes.length < 10 then throw (.parse "Transaction too short")
  let (tx, _) ← readTransaction bytes
  return tx

/-- The texts of the errors of a map: no byte left, a key and a value that are too long. -/
structure MapTexts where
  atEnd : String
  inKey : String
  inValue : String

def globalTexts : MapTexts :=
  ⟨"Unexpected end of PSBT globals", "Key extends past end of data", "Value extends past end of data"⟩

def inputTexts : MapTexts :=
  ⟨"Unexpected end of input data", "Input key extends past end", "Input value extends past end"⟩

def outputTexts : MapTexts :=
  ⟨"Unexpected end of output data", "Output key extends past end", "Output value extends past end"⟩

/-- The next record of a map, or its end. After a key of no length one byte is passed over,
in however many bytes its length was written. -/
def parseRecord (texts : MapTexts) : Reader (Option Record) := fun bytes => do
  if bytes = [] then throw (.parse texts.atEnd)
  let (keyLen, rest) ← readCompactSize bytes
  if keyLen = 0 then return (none, bytes.drop 1)
  let (key, rest) ← readBytes keyLen (.parse texts.inKey) rest
  let (value, rest) ← readSized (.parse texts.inValue) rest
  return (some ⟨key, value⟩, rest)

def readMap {σ : Type} (texts : MapTexts) (absorb : σ → Record → Except PsbtError σ) (start : σ) : Reader σ :=
  fun bytes => readRecords (parseRecord texts) absorb (bytes.length + 1) start bytes

/-- The numbers of a path; up to three bytes at the end are not looked at. -/
def readPath : List UInt8 → List UInt32
  | a :: b :: c :: d :: rest => UInt32.ofNat (leValue [a, b, c, d]) :: readPath rest
  | _ => []

def readKeySource (value : List UInt8) : KeySource := (readU32 value, readPath (value.drop 4))

/-- The elements of a final witness. -/
def readStack : Reader (List (List UInt8)) := do
  let count ← readCompactSize
  readMany (readSized .panicked) count

/-- The global map as far as it is read. -/
structure Globals where
  unsignedTx : Option Transaction
  version : UInt32
  xpubs : Map (List UInt8) (List UInt8)
  proprietary : Map (List UInt8) (List UInt8)

def absorbGlobal (g : Globals) (r : Record) : Except PsbtError Globals :=
  let keyType := r.key.headD 0
  let keyData := r.key.tail
  if keyType = 0x00 then do
    let tx ← deserializeTransaction r.value
    return { g with unsignedTx := some tx }
  else if keyType = 0x01 then .ok { g with xpubs := g.xpubs.insert keyData r.value }
  else if keyType = 0xfb then .ok (if 4 ≤ r.value.length then { g with version := readU32 r.value } else g)
  else if keyType = 0xfc then .ok { g with proprietary := g.proprietary.insert keyData r.value }
  else .ok g

/-- The witness UTXO of a record; the slice of its script may be out of range. -/
def readWitnessUtxo (value : List UInt8) : Except PsbtError TxOutput := do
  let (script, _) ← readSized .panicked (value.drop 8)
  return ⟨readU64 value, script⟩

/-- The signature is entered under the key cut after 32 and 64 bytes. -/
def enterTapScriptSig (m : Map (List UInt8 × List UInt8) (List UInt8)) (keyData sig : List UInt8) :
    Map (List UInt8 × List UInt8) (List UInt8) :=
  if 64 ≤ keyData.length then m.insert (keyData.take 32, (keyData.drop 32).take 32) sig else m

def enterLeaf (m : Map (List UInt8) (List UInt8 × UInt8)) (keyData value : List UInt8) :
    Map (List UInt8) (List UInt8 × UInt8) :=
  if value = [] then m else m.insert keyData (value.dropLast, value.getLastD 0)

def enterKeySource (m : Map (List UInt8) KeySource) (keyData value : List UInt8) : Map (List UInt8) KeySource :=
  if 4 ≤ value.length then m.insert keyData (readKeySource value) else m

/-- The match of `deserialize_input`. -/
def absorbInput (i : PsbtInput) (r : Record) : Except PsbtError PsbtInput :=
  let keyType := r.key.headD 0
  let keyData := r.key.tail
  if keyType = 0x00 then do
    let tx ← deserializeTransaction r.value
    return { i with nonWitnessUtxo := some tx }
  else if keyType = 0x01 then
    if 9 ≤ r.value.length then do
      let utxo ← readWitnessUtxo r.value
      return { i with witnessUtxo := some utxo }
    else .ok i
  else if keyType = 0x02 then .ok { i with partialSigs := i.partialSigs.insert keyData r.value }
  else if keyType = 0x03 then
    .ok (if 4 ≤ r.value.length then { i with sighashType := some (readU32 r.value) } else i)
  else if keyType = 0x04 then .ok { i with redeemScript := some r.value }
  else if keyType = 0x05 then .ok { i with witnessScript := some r.value }
  else if keyType = 0x06 then .ok { i with bip32Derivation := enterKeySource i.bip32Derivation keyData r.value }
  else if keyType = 0x07 then .ok { i with finalScriptSig := some r.value }
  else if keyType = 0x08 then
    if r.value = [] then .ok { i with finalScriptWitness := some [] }
    else do
      let (stack, _) ← readStack r.value
      return { i with finalScriptWitness := some stack }
  else if keyType = 0x13 then .ok { i with tapKeySig := some r.value }
  else if keyType = 0x14 then .ok { i with tapScriptSig := enterTapScriptSig i.tapScriptSig keyData r.value }
  else if keyType = 0x15 then .ok { i with tapLeafScript := enterLeaf i.tapLeafScript keyData r.value }
  else if keyType = 0x17 then .ok { i with tapInternalKey := some r.value }
  else if keyType = 0x18 then .ok { i with tapMerkleRoot := some r.value }
  else if keyType = 0xfc then .ok { i with proprietary := i.proprietary.insert keyData r.value }
  else .ok i

/-- The match of `deserialize_output`. -/
def absorbOutput (o : PsbtOutput) (r : Record) : Except PsbtError PsbtOutput :=
  let keyType := r.key.headD 0
  let keyData := r.key.tail
  if keyType = 0x00 then .ok { o with redeemScript := some r.value }
  else if keyType = 0x01 then .ok { o with witnessScript := some r.value }
  else if keyType = 0x02 then .ok { o with bip32Derivation := enterKeySource o.bip32Derivation keyData r.value }
  else if keyType = 0x05 then .ok { o with tapInternalKey := some r.value }
  else if keyType = 0x06 then .ok { o with tapTree := enterLeaf o.tapTree keyData r.value }
  else if keyType = 0xfc then .ok { o with proprietary := o.proprietary.insert keyData r.value }
  else .ok o

def deserialize (bytes : List UInt8) : Except PsbtError Psbt := do
  if bytes.length < 5 then throw (.parse "PSBT too short")
  if bytes.take 4 ≠ magic.take 4 then throw (.parse "Invalid PSBT magic")
  if (bytes.drop 4).headD 0 ≠ 0xff then throw (.parse "Invalid PSBT separator")
  let (globals, rest) ← readMap globalTexts absorbGlobal ⟨none, 0, ∅, ∅⟩ (bytes.drop 5)
  match globals.unsignedTx with
  | none => throw (.missingData "Missing unsigned transaction")
  | some unsignedTx => do
      let (inputs, rest) ← readMany (readMap inputTexts absorbInput .default) unsignedTx.inputs.length rest
      let (outputs, _) ← readMany (readMap outputTexts absorbOutput .default) unsignedTx.outputs.length rest
      return ⟨unsignedTx, globals.version, inputs, outputs, globals.xpubs, globals.proprietary⟩

end Reading

section Takes

variable {α β : Type} {r : Reader α} {bytes : List UInt8} {a : α} {n : ℕ} {error : PsbtError}

/-- The reader takes exactly these bytes for this value, whatever follows them. -/
def Takes (r : Reader α) (bytes : List UInt8) (a : α) : Prop := ∀ rest, r (bytes ++ rest) = .ok (a, rest)

theorem Takes.bind {f : α → Reader β} {bytes' : List UInt8} {b : β} (h : Takes r bytes a) (h' : Takes (f a) bytes' b) :
    Takes (r >>= f) (bytes ++ bytes') b := by
  intro rest
  show (r (bytes ++ bytes' ++ rest) >>= fun x => f x.1 x.2) = _
  rw [List.append_assoc, h]
  exact h' rest

theorem Takes.last {r : Reader α} {f : α → β} {bytes : List UInt8} {a : α} {b : β} (h : Takes r bytes a)
    (heq : f a = b) : Takes (r >>= fun a => pure (f a)) bytes b := by
  intro rest
  show (r (bytes ++ rest) >>= fun x => _) = _
  rw [h, ← heq]
  rfl

theorem Takes.all (h : Takes r bytes a) : r bytes = .ok (a, []) := by
  simpa using h []

theorem takes_compactSize (h : n < 2 ^ 64) : Takes readCompactSize (writeCompactSize n) n := by
  intro rest
  simp [readCompactSize, reads_compactSize h rest]

theorem takes_bytes (h : bytes.length = n) : Takes (readBytes n error) bytes bytes := by
  subst h
  intro rest
  simp [readBytes]

theorem takes_sized (h : bytes.length < 2 ^ 64) : Takes (readSized error) (writeSized bytes) bytes :=
  (takes_compactSize h).bind (takes_bytes rfl)

theorem takes_many {r : Reader α} {write : β → List UInt8} {image : β → α} {values : List β}
    (h : ∀ b ∈ values, Takes r (write b) (image b)) :
    Takes (readMany r values.length) (values.flatMap write) (values.map image) :=
  fun rest => readMany_write h rest

end Takes

section ReadTransactions

theorem length_serializeInput (i : TxInput) : i.scriptSig.length < (Transaction.serializeInput i).length := by
  have := length_lt_writeSized i.scriptSig
  simp only [writeSized, List.length_append] at this
  simp only [Transaction.serializeInput, List.length_append]
  omega

theorem length_serializeOutput (o : TxOutput) : o.scriptPubkey.length + 8 < (Transaction.serializeOutput o).length := by
  have := length_lt_writeSized o.scriptPubkey
  simp only [writeSized, List.length_append] at this
  simp only [Transaction.serializeOutput, List.length_append, leBytes_length]
  omega

theorem takes_txInput {i : TxInput} (h : i.scriptSig.length < 2 ^ 64) :
    Takes readTxInput (Transaction.serializeInput i) (bareInput i) := by
  have hbytes : Transaction.serializeInput i = (i.prevOutput.txid.bytes ++ leBytes 4 i.prevOutput.vout.toNat) ++
      (writeSized i.scriptSig ++ leBytes 4 i.sequence.toNat) := by
    simp [Transaction.serializeInput, writeSized]
  have htxid := i.prevOutput.txid.length_eq
  rw [hbytes]
  refine (takes_bytes (by rw [List.length_append, htxid, leBytes_length])).bind ((takes_sized h).bind ?_)
  refine (takes_bytes (leBytes_length 4 _)).last ?_
  rw [List.take_left' htxid, List.drop_left' htxid, readU32_leBytes, readU32_leBytes, Bytes32.ofBytes_bytes]
  rfl

theorem takes_txOutput {o : TxOutput} (h : o.scriptPubkey.length < 2 ^ 64) :
    Takes readTxOutput (Transaction.serializeOutput o) o := by
  have hbytes : Transaction.serializeOutput o = leBytes 8 o.value.toNat ++ writeSized o.scriptPubkey := by
    simp [Transaction.serializeOutput, writeSized]
  have hvalue : readU64 (leBytes 8 o.value.toNat) = o.value := by simpa using readU64_leBytes o.value []
  rw [hbytes]
  refine (takes_bytes (leBytes_length 8 _)).bind ((takes_sized h).last ?_)
  rw [hvalue]

/-- What is read of a transaction: not its version and not the witnesses. -/
def carriedTx (tx : Transaction) : Transaction := { tx with version := 2, inputs := tx.inputs.map bareInput }

theorem deserializeTransaction_serialize {tx : Transaction} (h : (serializeTransaction tx).length < 2 ^ 64) :
    deserializeTransaction (serializeTransaction tx) = .ok (carriedTx tx) := by
  have hbytes : serializeTransaction tx = leBytes 4 tx.version.toNat ++ (writeCompactSize tx.inputs.length ++
      (tx.inputs.flatMap Transaction.serializeInput ++ (writeCompactSize tx.outputs.length ++
        (tx.outputs.flatMap Transaction.serializeOutput ++ leBytes 4 tx.lockTime.toNat)))) := by
    simp [serializeTransaction]
  have hlengths := congrArg List.length hbytes
  simp only [List.length_append, leBytes_length] at hlengths
  have hinputs := length_le_flatMap (fun i => Nat.zero_lt_of_lt (length_serializeInput i)) tx.inputs
  have houtputs := length_le_flatMap (fun o => Nat.zero_lt_of_lt (length_serializeOutput o)) tx.outputs
  have hinputCount := List.length_pos_iff.mpr (writeCompactSize_ne_nil tx.inputs.length)
  have houtputCount := List.length_pos_iff.mpr (writeCompactSize_ne_nil tx.outputs.length)
  have hinput : ∀ i ∈ tx.inputs, Takes readTxInput (Transaction.serializeInput i) (bareInput i) := by
    intro i hi
    have hle := @length_le_flatMap_of_mem _ Transaction.serializeInput _ _ hi
    have := length_serializeInput i
    exact takes_txInput (by omega)
  have houtput : ∀ o ∈ tx.outputs, Takes readTxOutput (Transaction.serializeOutput o) (id o) := by
    intro o ho
    have hle := @length_le_flatMap_of_mem _ Transaction.serializeOutput _ _ ho
    have := length_serializeOutput o
    exact takes_txOutput (by omega)
  have hread : Takes readTransaction (serializeTransaction tx) (carriedTx tx) := by
    rw [hbytes]
    refine (takes_bytes (leBytes_length 4 _)).bind ((takes_compactSize (by omega)).bind ?_)
    refine (takes_many hinput).bind ((takes_compactSize (by omega)).bind ((takes_many houtput).bind ?_))
    refine (takes_bytes (leBytes_length 4 _)).last ?_
    rw [readU32_leBytes, List.map_id]
    rfl
  unfold deserializeTransaction
  rw [if_neg (by omega)]
  show (readTransaction _ >>= _) = _
  rw [hread.all]
  rfl

end ReadTransactions

section ReadMaps

variable {order : MapOrder} {texts : MapTexts} {r : Record} {σ : Type} {records : List Record} {i : PsbtInput}

theorem parseRecord_write (hkey : r.key ≠ []) (hsize : r.write.length < 2 ^ 64) (rest : List UInt8) :
    parseRecord texts (r.write ++ rest) = .ok (some r, rest) := by
  obtain ⟨hkeySize, hvalueSize⟩ := r.length_lt_write
  have hpos := List.length_pos_iff.mpr hkey
  have hbytes : r.write ++ rest = writeCompactSize r.key.length ++ (r.key ++ (writeSized r.value ++ rest)) := by
    simp [Record.write, writeSized]
  have hne : r.write ++ rest ≠ [] := by
    simp [hbytes, writeCompactSize_ne_nil]
  unfold parseRecord
  rw [if_neg hne]
  show (readCompactSize _ >>= _) = _
  rw [hbytes, takes_compactSize (by omega)]
  show (if r.key.length = 0 then _ else _) = _
  rw [if_neg (by omega)]
  show (readBytes _ _ _ >>= _) = _
  rw [takes_bytes rfl]
  show (readSized _ _ >>= _) = _
  rw [takes_sized (by omega)]
  rfl

theorem parseRecord_end (rest : List UInt8) : parseRecord texts (0x00 :: rest) = .ok (none, rest) := rfl

theorem readMap_write {absorb : σ → Record → Except PsbtError σ} {start s : σ} (hkeys : ∀ r ∈ records, r.key ≠ [])
    (hsize : (writeRecords records).length < 2 ^ 64) (habsorb : records.foldlM absorb start = .ok s) :
    Takes (readMap texts absorb start) (writeRecords records) s := by
  intro rest
  have hfuel := length_lt_writeRecords records
  refine readRecords_write (fun r hr => parseRecord_write (hkeys r hr) ?_) parseRecord_end habsorb ?_ rest
  · have := Record.length_le_writeRecords hr
    omega
  · simp only [List.length_append]
    omega

theorem readPath_write (path : List UInt32) : readPath (path.flatMap fun n => leBytes 4 n.toNat) = path := by
  induction path with
  | nil => rfl
  | cons n path ih =>
    have hn : UInt32.ofNat (leValue (leBytes 4 n.toNat)) = n := by
      have := readU32_leBytes n
      rwa [readU32, List.take_of_length_le (by rw [leBytes_length])] at this
    rw [List.flatMap_cons]
    show UInt32.ofNat (leValue (leBytes 4 n.toNat)) :: readPath (path.flatMap _) = _
    rw [hn, ih]

theorem readKeySource_write (source : KeySource) : readKeySource (writeKeySource source) = source := by
  have hfingerprint : readU32 (writeKeySource source) = source.1 := by
    rw [readU32, writeKeySource, List.take_left' (leBytes_length 4 _)]
    have := readU32_leBytes source.1
    rwa [readU32, List.take_of_length_le (by rw [leBytes_length])] at this
  rw [readKeySource, hfingerprint, writeKeySource, List.drop_left' (leBytes_length 4 _), readPath_write]

theorem enterKeySource_write (m : Map (List UInt8) KeySource) (key : List UInt8) (source : KeySource) :
    enterKeySource m key (writeKeySource source) = m.insert key source := by
  have hlen : 4 ≤ (writeKeySource source).length := by simp [writeKeySource, leBytes_length]
  rw [enterKeySource, if_pos hlen, readKeySource_write]

theorem enterLeaf_write (m : Map (List UInt8) (List UInt8 × UInt8)) (key : List UInt8) (leaf : List UInt8 × UInt8) :
    enterLeaf m key (leaf.1 ++ [leaf.2]) = m.insert key leaf := by
  simp [enterLeaf]

theorem readWitnessUtxo_write {utxo : TxOutput} (h : utxo.scriptPubkey.length < 2 ^ 64) :
    readWitnessUtxo (Transaction.serializeOutput utxo) = .ok utxo := by
  have hbytes : Transaction.serializeOutput utxo = leBytes 8 utxo.value.toNat ++ writeSized utxo.scriptPubkey := by
    simp [Transaction.serializeOutput, writeSized]
  unfold readWitnessUtxo
  rw [hbytes, List.drop_left' (leBytes_length 8 _), (takes_sized h).all, readU64_leBytes]
  rfl

theorem foldlM_map {K V : Type} [DecidableEq K] {absorb : σ → Record → Except PsbtError σ} (set : σ → Map K V → σ)
    (get : σ → Map K V) {write : K × V → Record} (m : Map K V) {s : σ}
    (hstep : ∀ e s, absorb s (write e) = .ok (set s ((get s).insert e.1 e.2))) (hget : ∀ s b, get (set s b) = b)
    (hset : ∀ s b b', set (set s b) b' = set s b') (hself : ∀ s, set s (get s) = s) (hempty : get s = ∅) :
    ((order.iter m).map write).foldlM absorb s = .ok (set s m) := by
  have hall := foldlM_entries set get (fun m e => m.insert e.1 e.2) (order.iter m) (s := s)
    (fun e _ s => hstep e s) hget hset hself
  rw [hall, hempty]
  show Except.ok (set s (insertAll ∅ (order.iter m))) = _
  rw [(order.lists m).insertAll_empty]

theorem absorbGlobal_records {p : Psbt} (h : (serializeTransaction p.unsignedTx).length < 2 ^ 64) :
    (globalRecords order p).flatten.foldlM absorbGlobal ⟨none, 0, ∅, ∅⟩ =
      .ok ⟨some (carriedTx p.unsignedTx), p.version, p.xpubs, p.proprietary⟩ := by
  have htx : [Record.mk [0x00] (serializeTransaction p.unsignedTx)].foldlM absorbGlobal ⟨none, 0, ∅, ∅⟩ =
      .ok ⟨some (carriedTx p.unsignedTx), 0, ∅, ∅⟩ := by
    simp [absorbGlobal, deserializeTransaction_serialize h, bind, Except.bind, pure, Except.pure]
  have hversion : (if 0 < p.version then [Record.mk [0xfb] (leBytes 4 p.version.toNat)] else []).foldlM absorbGlobal
      ⟨some (carriedTx p.unsignedTx), 0, ∅, ∅⟩ = .ok ⟨some (carriedTx p.unsignedTx), p.version, ∅, ∅⟩ := by
    split
    · simp [absorbGlobal, leBytes_length, readU32_leBytes]
    · next hzero =>
      have : p.version = 0 := by
        rw [UInt32.lt_iff_toNat_lt] at hzero
        exact UInt32.toNat_inj.mp (by simpa using hzero)
      rw [this]
      rfl
  refine foldlM_group htx (foldlM_group hversion ?_)
  refine foldlM_group (foldlM_map (fun g m => { g with xpubs := m }) Globals.xpubs p.xpubs
    (fun _ _ => rfl) (fun _ _ => rfl) (fun _ _ _ => rfl) (fun _ => rfl) rfl) ?_
  refine foldlM_group (foldlM_map (fun g m => { g with proprietary := m }) Globals.proprietary p.proprietary
    (fun _ _ => rfl) (fun _ _ => rfl) (fun _ _ _ => rfl) (fun _ => rfl) rfl) ?_
  rfl

/-- The fields of an input that are cut to be read have sizes that are. -/
structure InputSized (i : PsbtInput) : Prop where
  tx : ∀ tx, i.nonWitnessUtxo = some tx → (serializeTransaction tx).length < 2 ^ 64
  utxo : ∀ utxo, i.witnessUtxo = some utxo → utxo.scriptPubkey.length < 2 ^ 64
  stack : ∀ stack, i.finalScriptWitness = some stack →
    stack.length < 2 ^ 64 ∧ ∀ item ∈ stack, item.length < 2 ^ 64

/-- What is read of the taproot script signatures. -/
def carriedScriptSigs (order : MapOrder) (m : Map (List UInt8 × List UInt8) (List UInt8)) :
    Map (List UInt8 × List UInt8) (List UInt8) :=
  (order.iter m).foldl (fun m e => enterTapScriptSig m (e.1.1 ++ e.1.2) e.2) ∅

/-- What is read of an input. -/
def carriedInput (order : MapOrder) (i : PsbtInput) : PsbtInput :=
  { i with
    nonWitnessUtxo := i.nonWitnessUtxo.map carriedTx
    tapScriptSig := carriedScriptSigs order i.tapScriptSig
    tapBip32Derivation := ∅ }

theorem absorbInput_stack {stack : List (List UInt8)} (hlen : stack.length < 2 ^ 64)
    (hitems : ∀ item ∈ stack, item.length < 2 ^ 64) :
    absorbInput i ⟨[0x08], writeStack stack⟩ = .ok { i with finalScriptWitness := some stack } := by
  have hread : Takes readStack (writeStack stack) stack := by
    have hmany := @takes_many _ _ (readSized .panicked) writeSized id stack fun item hitem => takes_sized (hitems item hitem)
    rw [List.map_id] at hmany
    exact (takes_compactSize hlen).bind hmany
  have hne : writeStack stack ≠ [] := by simp [writeStack, writeCompactSize_ne_nil]
  show (if writeStack stack = [] then _ else _) = _
  rw [if_neg hne]
  show (readStack _ >>= _) = _
  rw [hread.all]
  rfl

theorem absorbInput_records (hsized : InputSized i) :
    (inputRecords order i).flatten.foldlM absorbInput .default = .ok (carriedInput order i) := by
  refine foldlM_group (foldlM_option (fun s o => { s with nonWitnessUtxo := o.map carriedTx }) i.nonWitnessUtxo
    (fun tx htx => ?_) rfl) ?_
  · show (deserializeTransaction (serializeTransaction tx) >>= _) = _
    rw [deserializeTransaction_serialize (hsized.tx tx htx)]
    rfl
  refine foldlM_group (foldlM_option (fun s o => { s with witnessUtxo := o }) i.witnessUtxo
    (fun utxo hutxo => ?_) rfl) ?_
  · have hlen := length_serializeOutput utxo
    show (if 9 ≤ (Transaction.serializeOutput utxo).length then _ else _) = _
    rw [if_pos (by omega)]
    show (readWitnessUtxo _ >>= _) = _
    rw [readWitnessUtxo_write (hsized.utxo utxo hutxo)]
    rfl
  refine foldlM_group (foldlM_map (fun s m => { s with partialSigs := m }) PsbtInput.partialSigs i.partialSigs
    (fun _ _ => rfl) (fun _ _ => rfl) (fun _ _ _ => rfl) (fun _ => rfl) rfl) ?_
  refine foldlM_group (foldlM_option (fun s o => { s with sighashType := o }) i.sighashType (fun t _ => ?_) rfl) ?_
  · show Except.ok (if 4 ≤ (leBytes 4 t.toNat).length then _ else _) = _
    rw [if_pos (by rw [leBytes_length]), readU32_leBytes]
  refine foldlM_group (foldlM_option (fun s o => { s with redeemScript := o }) i.redeemScript (fun _ _ => rfl) rfl) ?_
  refine foldlM_group (foldlM_option (fun s o => { s with witnessScript := o }) i.witnessScript (fun _ _ => rfl) rfl) ?_
  refine foldlM_group (foldlM_map (fun s m => { s with bip32Derivation := m }) PsbtInput.bip32Derivation
    i.bip32Derivation (fun e s => ?_) (fun _ _ => rfl) (fun _ _ _ => rfl) (fun _ => rfl) rfl) ?_
  · show Except.ok { s with bip32Derivation := enterKeySource _ _ _ } = _
    rw [enterKeySource_write]
    rfl
  refine foldlM_group (foldlM_option (fun s o => { s with tapKeySig := o }) i.tapKeySig (fun _ _ => rfl) rfl) ?_
  refine foldlM_group (foldlM_option (fun s o => { s with tapInternalKey := o }) i.tapInternalKey
    (fun _ _ => rfl) rfl) ?_
  refine foldlM_group (foldlM_option (fun s o => { s with tapMerkleRoot := o }) i.tapMerkleRoot
    (fun _ _ => rfl) rfl) ?_
  refine foldlM_group (foldlM_option (fun s o => { s with finalScriptSig := o }) i.finalScriptSig
    (fun _ _ => rfl) rfl) ?_
  refine foldlM_group (foldlM_option (fun s o => { s with finalScriptWitness := o }) i.finalScriptWitness
    (fun stack hstack => absorbInput_stack (hsized.stack stack hstack).1 (hsized.stack stack hstack).2) rfl) ?_
  refine foldlM_group (foldlM_entries (fun s m => { s with tapScriptSig := m }) PsbtInput.tapScriptSig
    (fun m e => enterTapScriptSig m (e.1.1 ++ e.1.2) e.2) (order.iter i.tapScriptSig)
    (fun _ _ _ => rfl) (fun _ _ => rfl) (fun _ _ _ => rfl) (fun _ => rfl)) ?_
  refine foldlM_group (foldlM_map (fun s m => { s with tapLeafScript := m }) PsbtInput.tapLeafScript
    i.tapLeafScript (fun e s => ?_) (fun _ _ => rfl) (fun _ _ _ => rfl) (fun _ => rfl) rfl) ?_
  · show Except.ok { s with tapLeafScript := enterLeaf _ _ _ } = _
    rw [enterLeaf_write]
    rfl
  refine foldlM_group (foldlM_map (fun s m => { s with proprietary := m }) PsbtInput.proprietary i.proprietary
    (fun _ _ => rfl) (fun _ _ => rfl) (fun _ _ _ => rfl) (fun _ => rfl) rfl) ?_
  rfl

/-- What is read of an output. -/
def carriedOutput (o : PsbtOutput) : PsbtOutput := { o with tapBip32Derivation := ∅ }

theorem absorbOutput_records (o : PsbtOutput) :
    (outputRecords order o).flatten.foldlM absorbOutput .default = .ok (carriedOutput o) := by
  refine foldlM_group (foldlM_option (fun s v => { s with redeemScript := v }) o.redeemScript (fun _ _ => rfl) rfl) ?_
  refine foldlM_group (foldlM_option (fun s v => { s with witnessScript := v }) o.witnessScript (fun _ _ => rfl) rfl) ?_
  refine foldlM_group (foldlM_map (fun s m => { s with bip32Derivation := m }) PsbtOutput.bip32Derivation
    o.bip32Derivation (fun e s => ?_) (fun _ _ => rfl) (fun _ _ _ => rfl) (fun _ => rfl) rfl) ?_
  · show Except.ok { s with bip32Derivation := enterKeySource _ _ _ } = _
    rw [enterKeySource_write]
    rfl
  refine foldlM_group (foldlM_option (fun s v => { s with tapInternalKey := v }) o.tapInternalKey
    (fun _ _ => rfl) rfl) ?_
  refine foldlM_group (foldlM_map (fun s m => { s with tapTree := m }) PsbtOutput.tapTree
    o.tapTree (fun e s => ?_) (fun _ _ => rfl) (fun _ _ _ => rfl) (fun _ => rfl) rfl) ?_
  · show Except.ok { s with tapTree := enterLeaf _ _ _ } = _
    rw [enterLeaf_write]
    rfl
  refine foldlM_group (foldlM_map (fun s m => { s with proprietary := m }) PsbtOutput.proprietary o.proprietary
    (fun _ _ => rfl) (fun _ _ => rfl) (fun _ _ _ => rfl) (fun _ => rfl) rfl) ?_
  rfl

theorem keys_globalRecords (p : Psbt) : ∀ r ∈ (globalRecords order p).flatten, r.key ≠ [] := by
  simp only [globalRecords, List.flatten_cons, List.flatten_nil, List.append_nil, List.forall_mem_append,
    List.forall_mem_map]
  split <;> simp

theorem keys_inputRecords (i : PsbtInput) : ∀ r ∈ (inputRecords order i).flatten, r.key ≠ [] := by
  simp only [inputRecords, List.flatten_cons, List.flatten_nil, List.append_nil, List.forall_mem_append,
    List.forall_mem_map]
  simp

theorem keys_outputRecords (o : PsbtOutput) : ∀ r ∈ (outputRecords order o).flatten, r.key ≠ [] := by
  simp only [outputRecords, List.flatten_cons, List.flatten_nil, List.append_nil, List.forall_mem_append,
    List.forall_mem_map]
  simp

/-- A record of a map is shorter than what is written of the map. -/
theorem value_lt_writeRecords (h : r ∈ records) : r.value.length < (writeRecords records).length :=
  lt_of_lt_of_le r.length_lt_write.2 (Record.length_le_writeRecords h)

theorem inputSized_of_length (h : (writeRecords (inputRecords order i).flatten).length < 2 ^ 64) : InputSized i where
  tx tx htx := by
    have hmem : Record.mk [0x00] (serializeTransaction tx) ∈ (inputRecords order i).flatten := by
      simp [inputRecords, htx]
    exact lt_trans (value_lt_writeRecords hmem) h
  utxo utxo hutxo := by
    have hmem : Record.mk [0x01] (Transaction.serializeOutput utxo) ∈ (inputRecords order i).flatten := by
      simp [inputRecords, hutxo]
    have hvalue := value_lt_writeRecords hmem
    have hscript := length_serializeOutput utxo
    dsimp only at hvalue
    omega
  stack stack hstack := by
    have hmem : Record.mk [0x08] (writeStack stack) ∈ (inputRecords order i).flatten := by
      simp [inputRecords, hstack]
    have hvalue := value_lt_writeRecords hmem
    have hcount := length_le_flatMap (fun item => Nat.zero_lt_of_lt (length_lt_writeSized item)) stack
    simp only [writeStack, List.length_append] at hvalue
    refine ⟨by omega, fun item hitem => ?_⟩
    have hwritten := @length_le_flatMap_of_mem _ writeSized _ _ hitem
    have := length_lt_writeSized item
    omega

end ReadMaps

section RoundTrip

variable {order : MapOrder} {p q : Psbt} {K V α : Type} {index : ℕ} {check : Except PsbtError Unit} {sha256 : Sha256}

/-- What is read of a PSBT. -/
def carried (order : MapOrder) (p : Psbt) : Psbt :=
  { p with
    unsignedTx := carriedTx p.unsignedTx
    inputs := p.inputs.map (carriedInput order)
    outputs := p.outputs.map carriedOutput }

/-- There is a map for every input and every output. -/
structure Counted (p : Psbt) : Prop where
  inputs : p.inputs.length = p.unsignedTx.inputs.length
  outputs : p.outputs.length = p.unsignedTx.outputs.length

theorem deserialize_serialize (hcounted : Counted p) (hsize : (p.serialize order).length < 2 ^ 64) :
    deserialize (p.serialize order) = .ok (p.carried order) := by
  have hbytes : p.serialize order = magic ++ (writeRecords (globalRecords order p).flatten ++
      (p.inputs.flatMap (fun i => writeRecords (inputRecords order i).flatten) ++
        (p.outputs.flatMap (fun o => writeRecords (outputRecords order o).flatten) ++ []))) := by
    simp [serialize]
  have hlengths := congrArg List.length hbytes
  simp only [List.length_append] at hlengths
  have htx : (serializeTransaction p.unsignedTx).length < 2 ^ 64 := by
    have hmem : Record.mk [0x00] (serializeTransaction p.unsignedTx) ∈ (globalRecords order p).flatten := by
      simp [globalRecords]
    have hvalue := value_lt_writeRecords hmem
    dsimp only at hvalue
    omega
  have hglobals : Takes (readMap globalTexts absorbGlobal ⟨none, 0, ∅, ∅⟩)
      (writeRecords (globalRecords order p).flatten) _ :=
    readMap_write (keys_globalRecords p) (by omega) (absorbGlobal_records htx)
  have hinput : ∀ i ∈ p.inputs, Takes (readMap inputTexts absorbInput .default)
      (writeRecords (inputRecords order i).flatten) (carriedInput order i) := by
    intro i hi
    have hle := @length_le_flatMap_of_mem _ (fun i => writeRecords (inputRecords order i).flatten) _ _ hi
    have hshort : (writeRecords (inputRecords order i).flatten).length < 2 ^ 64 := by omega
    exact readMap_write (keys_inputRecords i) hshort (absorbInput_records (inputSized_of_length hshort))
  have houtput : ∀ o ∈ p.outputs, Takes (readMap outputTexts absorbOutput .default)
      (writeRecords (outputRecords order o).flatten) (carriedOutput o) := by
    intro o ho
    have hle := @length_le_flatMap_of_mem _ (fun o => writeRecords (outputRecords order o).flatten) _ _ ho
    exact readMap_write (keys_outputRecords o) (by omega) (absorbOutput_records o)
  rw [hbytes]
  unfold deserialize
  rw [if_neg (by simp [magic]), if_neg (by simp [magic]), if_neg (by simp [magic])]
  show (readMap globalTexts absorbGlobal _ ((magic ++ _).drop magic.length) >>= _) = _
  rw [List.drop_left, hglobals]
  show (readMany _ (p.unsignedTx.inputs.map bareInput).length _ >>= _) = _
  rw [List.length_map, ← hcounted.inputs, takes_many hinput]
  show (readMany _ p.unsignedTx.outputs.length _ >>= _) = _
  rw [← hcounted.outputs, takes_many houtput]
  rfl

/-- A PSBT made by the functions of its interface and by assignments to its fields. Each `add`
method is `onInput` or `onOutput` with its check and its change, and so is an assignment to a
field of an input or an output; a method that fails leaves the PSBT as it is. -/
inductive Built (sha256 : Sha256) : Psbt → Prop
  | new {tx : Transaction} {p : Psbt} : Psbt.new tx = .ok p → Built sha256 p
  | onInput {p q : Psbt} {index : ℕ} {check : Except PsbtError Unit} {change : PsbtInput → PsbtInput} :
      Built sha256 p → p.onInput index check change = .ok q → Built sha256 q
  | onOutput {p q : Psbt} {index : ℕ} {check : Except PsbtError Unit} {change : PsbtOutput → PsbtOutput} :
      Built sha256 p → p.onOutput index check change = .ok q → Built sha256 q
  | signInput {p q : Psbt} {index : ℕ} {key : PrivateKey} :
      Built sha256 p → p.signInput sha256 index key = .ok q → Built sha256 q
  | combine {p other q : Psbt} : Built sha256 p → p.combine sha256 other = .ok q → Built sha256 q
  | setGlobals {p : Psbt} (version : UInt32) (xpubs proprietary : Map (List UInt8) (List UInt8)) :
      Built sha256 p → Built sha256 { p with version := version, xpubs := xpubs, proprietary := proprietary }

theorem combineAll_length {merge : α → α → α} (as bs : List α) : (combineAll merge as bs).length = as.length := by
  induction as generalizing bs with
  | nil => cases bs <;> rfl
  | cons a as ih =>
    cases bs with
    | nil => rfl
    | cons b bs => simp [combineAll, ih]

theorem onInput_eq {change : PsbtInput → PsbtInput} (h : p.onInput index check change = .ok q) :
    q = { p with inputs := p.inputs.modify index change } := by
  unfold onInput at h
  split at h
  · cases h
  · cases check with
    | error e => cases h
    | ok u =>
      cases h
      rfl

theorem onOutput_eq {change : PsbtOutput → PsbtOutput} (h : p.onOutput index check change = .ok q) :
    q = { p with outputs := p.outputs.modify index change } := by
  unfold onOutput at h
  split at h
  · cases h
  · cases check with
    | error e => cases h
    | ok u =>
      cases h
      rfl

theorem signInput_eq {key : PrivateKey} (h : p.signInput sha256 index key = .ok q) :
    ∃ change, q = { p with inputs := p.inputs.modify index change } := by
  unfold signInput at h
  split at h
  · cases h
  · cases hhash : signatureHash sha256 p.unsignedTx index with
    | error e => simp [hhash, Except.mapError, bind, Except.bind] at h
    | ok sighash =>
      simp only [hhash, Except.mapError, bind, Except.bind, pure, Except.pure, Except.ok.injEq] at h
      exact ⟨_, h.symm⟩

theorem Built.counted (h : Built sha256 p) : Counted p := by
  induction h with
  | new hnew =>
    unfold Psbt.new at hnew
    split at hnew
    · cases hnew
    · cases hnew
      exact ⟨List.length_replicate, List.length_replicate⟩
  | onInput _ hon ih =>
    rw [onInput_eq hon]
    exact ⟨by simp [ih.inputs], ih.outputs⟩
  | onOutput _ hon ih =>
    rw [onOutput_eq hon]
    exact ⟨ih.inputs, by simp [ih.outputs]⟩
  | signInput _ hsign ih =>
    obtain ⟨change, rfl⟩ := signInput_eq hsign
    exact ⟨by simp [ih.inputs], ih.outputs⟩
  | combine _ hcombine ih =>
    unfold Psbt.combine at hcombine
    split at hcombine
    · cases hcombine
    · cases hcombine
      exact ⟨by simp [combineAll_length, ih.inputs], by simp [combineAll_length, ih.outputs]⟩
  | setGlobals version xpubs proprietary _ ih => exact ⟨ih.inputs, ih.outputs⟩

/-- A transaction of version 2 without witnesses. -/
structure Plain (tx : Transaction) : Prop where
  version : tx.version = 2
  witnesses : ∀ i ∈ tx.inputs, i.witness = Witness.empty

theorem bareInput_eq_iff {i : TxInput} : bareInput i = i ↔ i.witness = Witness.empty := by
  constructor
  · intro h
    rw [← h]
    rfl
  · intro h
    rw [bareInput, ← h]

theorem map_eq_self_iff {f : α → α} {l : List α} : l.map f = l ↔ ∀ a ∈ l, f a = a := by
  conv_lhs => rw [← List.map_id l, List.map_map]
  exact List.map_inj_left

theorem carriedTx_eq_iff {tx : Transaction} : carriedTx tx = tx ↔ Plain tx := by
  have hfields : carriedTx tx = tx ↔ 2 = tx.version ∧ tx.inputs.map bareInput = tx.inputs := by
    constructor
    · intro h
      exact ⟨congrArg Transaction.version h, congrArg Transaction.inputs h⟩
    · intro ⟨hversion, hinputs⟩
      rw [carriedTx, hversion, hinputs]
  rw [hfields, map_eq_self_iff]
  constructor
  · intro ⟨hversion, hinputs⟩
    exact ⟨hversion.symm, fun i hi => bareInput_eq_iff.mp (hinputs i hi)⟩
  · intro h
    exact ⟨h.version.symm, fun i hi => bareInput_eq_iff.mpr (h.witnesses i hi)⟩

/-- The keys under which taproot script signatures are read. -/
def ShortKeys (m : Map (List UInt8 × List UInt8) (List UInt8)) : Prop :=
  ∀ key ∈ m, key.1.length = 32 ∧ key.2.length = 32

theorem shortKeys_empty : ShortKeys ∅ := fun _ hkey => absurd hkey Finmap.notMem_empty

theorem shortKeys_enter {m : Map (List UInt8 × List UInt8) (List UInt8)} (h : ShortKeys m) (keyData sig : List UInt8) :
    ShortKeys (enterTapScriptSig m keyData sig) := by
  unfold enterTapScriptSig
  split
  · next hlen =>
    intro key hkey
    rcases Finmap.mem_insert.mp hkey with rfl | hold
    · simp only [List.length_take, List.length_drop]
      omega
    · exact h key hold
  · exact h

theorem carriedScriptSigs_short (m : Map (List UInt8 × List UInt8) (List UInt8)) :
    ShortKeys (carriedScriptSigs order m) := by
  have hrun : ∀ (l : List ((List UInt8 × List UInt8) × List UInt8)) (start : Map _ _), ShortKeys start →
      ShortKeys (l.foldl (fun m e => enterTapScriptSig m (e.1.1 ++ e.1.2) e.2) start) := by
    intro l
    induction l with
    | nil => exact fun start h => h
    | cons e l ih => exact fun start h => ih _ (shortKeys_enter h _ _)
  exact hrun _ ∅ shortKeys_empty

theorem carriedScriptSigs_eq_iff {m : Map (List UInt8 × List UInt8) (List UInt8)} :
    carriedScriptSigs order m = m ↔ ShortKeys m := by
  constructor
  · intro h
    rw [← h]
    exact carriedScriptSigs_short m
  · intro h
    have henter : ∀ acc, ∀ e ∈ order.iter m,
        enterTapScriptSig acc (e.1.1 ++ e.1.2) e.2 = acc.insert e.1 e.2 := by
      intro acc e he
      have hmem := Finmap.mem_of_lookup_eq_some (((order.lists m).mem e.1 e.2).mp he)
      obtain ⟨hfirst, hsecond⟩ := h e.1 hmem
      have hlen : 64 ≤ (e.1.1 ++ e.1.2).length := by
        rw [List.length_append]
        omega
      rw [enterTapScriptSig, if_pos hlen, List.take_left' hfirst, List.drop_left' hfirst,
        List.take_of_length_le (by omega)]
    rw [carriedScriptSigs, List.foldl_ext _ _ _ henter]
    exact (order.lists m).insertAll_empty

theorem carriedInput_eq_iff {i : PsbtInput} : carriedInput order i = i ↔
      (∀ tx, i.nonWitnessUtxo = some tx → Plain tx) ∧ ShortKeys i.tapScriptSig ∧ i.tapBip32Derivation = ∅ := by
  have hutxo : i.nonWitnessUtxo.map carriedTx = i.nonWitnessUtxo ↔ ∀ tx, i.nonWitnessUtxo = some tx → Plain tx := by
    cases i.nonWitnessUtxo with
    | none => simp
    | some tx => simp [carriedTx_eq_iff]
  rw [← hutxo, ← @carriedScriptSigs_eq_iff order]
  constructor
  · intro h
    exact ⟨congrArg PsbtInput.nonWitnessUtxo h, congrArg PsbtInput.tapScriptSig h,
      (congrArg PsbtInput.tapBip32Derivation h).symm⟩
  · intro ⟨htx, hsigs, hderivations⟩
    rw [carriedInput, htx, hsigs, ← hderivations]

theorem carriedOutput_eq_iff {o : PsbtOutput} : carriedOutput o = o ↔ o.tapBip32Derivation = ∅ := by
  constructor
  · intro h
    exact (congrArg PsbtOutput.tapBip32Derivation h).symm
  · intro h
    rw [carriedOutput, ← h]

/-- The PSBT has nothing that is not written or not read. -/
structure Lossless (p : Psbt) : Prop where
  unsignedTx : Plain p.unsignedTx
  nonWitnessUtxo : ∀ i ∈ p.inputs, ∀ tx, i.nonWitnessUtxo = some tx → Plain tx
  tapScriptSig : ∀ i ∈ p.inputs, ShortKeys i.tapScriptSig
  inputDerivations : ∀ i ∈ p.inputs, i.tapBip32Derivation = ∅
  outputDerivations : ∀ o ∈ p.outputs, o.tapBip32Derivation = ∅

theorem carried_eq_iff : p.carried order = p ↔ Lossless p := by
  have hfields : p.carried order = p ↔ carriedTx p.unsignedTx = p.unsignedTx ∧
      p.inputs.map (carriedInput order) = p.inputs ∧ p.outputs.map carriedOutput = p.outputs := by
    constructor
    · intro h
      exact ⟨congrArg Psbt.unsignedTx h, congrArg Psbt.inputs h, congrArg Psbt.outputs h⟩
    · intro ⟨htx, hinputs, houtputs⟩
      rw [carried, htx, hinputs, houtputs]
  rw [hfields, carriedTx_eq_iff, map_eq_self_iff, map_eq_self_iff]
  simp only [carriedInput_eq_iff, carriedOutput_eq_iff]
  constructor
  · intro ⟨htx, hinputs, houtputs⟩
    exact ⟨htx, fun i hi => (hinputs i hi).1, fun i hi => (hinputs i hi).2.1, fun i hi => (hinputs i hi).2.2, houtputs⟩
  · intro h
    exact ⟨h.unsignedTx, fun i hi => ⟨h.nonWitnessUtxo i hi, h.tapScriptSig i hi, h.inputDerivations i hi⟩,
      h.outputDerivations⟩

/-- A PSBT is read back as it was written where it has nothing that gets lost. -/
theorem psbt_transport_iff (sha256 : Sha256) (order : MapOrder) (p : Psbt) (hbuilt : Built sha256 p)
    (hsize : (p.serialize order).length < 2 ^ 64) : deserialize (p.serialize order) = .ok p ↔ Lossless p := by
  rw [deserialize_serialize hbuilt.counted hsize, Except.ok.injEq]
  exact carried_eq_iff

theorem iter_empty [DecidableEq K] : order.iter (∅ : Map K V) = [] := by
  refine List.eq_nil_iff_forall_not_mem.mpr fun e he => ?_
  have hlook := ((order.lists ∅).mem e.1 e.2).mp he
  simp at hlook

/-- One input and one output, of a version. -/
def smallTx (version : UInt32) : Transaction :=
  ⟨version, [⟨⟨Bytes32.zero, 0⟩, [], 0xffffffff, Witness.empty⟩], [⟨50, []⟩], 0⟩

def smallPsbt (version : UInt32) : Psbt := ⟨smallTx version, 0, [.default], [.default], ∅, ∅⟩

theorem smallPsbt_bytes (version : UInt32) : (smallPsbt version).serialize order =
      magic ++ writeRecords [⟨[0x00], serializeTransaction (smallTx version)⟩] ++ [0x00, 0x00] := by
  simp [smallPsbt, serialize, globalRecords, inputRecords, outputRecords, iter_empty, PsbtInput.default,
    PsbtOutput.default, writeRecords]

theorem iter_insert_empty [DecidableEq K] (k : K) (v : V) : order.iter (Finmap.insert k v ∅ : Map K V) = [(k, v)] :=
  MapOrder.iter_singleton (card_keys_insert_le ∅ k v) (Finmap.lookup_insert ∅)

/-- A key and its signature, as bytes. -/
def signingKey : PrivateKey :=
  ⟨0x02 :: List.replicate 32 1, fun _ => [0x30, 0x06, 0x02, 0x01, 0x01, 0x02, 0x01, 0x01]⟩

/-- The calls of a signer who adds a UTXO, a derivation, a signature and taproot fields. -/
def fillSmallPsbt : Except PsbtError Psbt :=
  Psbt.new (smallTx 2) >>= fun p => p.addWitnessUtxo 0 ⟨60, [0x51]⟩ >>= fun p =>
    p.addBip32Derivation 0 signingKey.publicKey 7 [0x80000054, 3] >>= fun p =>
      p.signInput Sha256.sha256 0 signingKey >>= fun p =>
        p.addTapScriptSig 0 (List.replicate 32 4) (List.replicate 32 5) (List.replicate 64 6) >>= fun p =>
          p.addTapInternalKey 0 (List.replicate 32 8) >>= fun p =>
            p.addOutputTapInternalKey 0 (List.replicate 32 9)

def filledPsbt : Psbt :=
  { smallPsbt 2 with
    inputs :=
      [{ PsbtInput.default with
          witnessUtxo := some ⟨60, [0x51]⟩
          bip32Derivation := Finmap.insert signingKey.publicKey (7, [0x80000054, 3]) ∅
          partialSigs := Finmap.insert signingKey.publicKey (signingKey.sign Bytes32.zero ++ [0x01]) ∅
          tapScriptSig := Finmap.insert (List.replicate 32 4, List.replicate 32 5) (List.replicate 64 6) ∅
          tapInternalKey := some (List.replicate 32 8) }]
    outputs := [{ PsbtOutput.default with tapInternalKey := some (List.replicate 32 9) }] }

theorem filledPsbt_built : Built Sha256.sha256 filledPsbt := by
  have hfill : fillSmallPsbt = .ok filledPsbt := rfl
  simp only [fillSmallPsbt, FailingPrograms.except_bind_eq_ok] at hfill
  obtain ⟨_, hnew, _, hutxo, _, hpath, _, hsign, _, hscript, _, hkey, houtput⟩ := hfill
  have hsigned := Built.signInput (.onInput (.onInput (.new hnew) hutxo) hpath) hsign
  exact .onOutput (.onInput (.onInput hsigned hscript) hkey) houtput

/-- All of it comes back. -/
theorem filledPsbt_transports : deserialize (filledPsbt.serialize MapOrder.any) = .ok filledPsbt := by
  have hsize : (filledPsbt.serialize MapOrder.any).length < 2 ^ 64 := by
    simp only [serialize, globalRecords, filledPsbt, smallPsbt, PsbtInput.default, PsbtOutput.default,
      List.flatMap_cons, List.flatMap_nil, inputRecords, outputRecords, iter_empty, iter_insert_empty]
    decide +kernel
  refine (psbt_transport_iff Sha256.sha256 MapOrder.any filledPsbt filledPsbt_built hsize).mpr ?_
  have hshort : ShortKeys (Finmap.insert (List.replicate 32 4, List.replicate 32 5) (List.replicate 64 6) ∅) := by
    intro key hkey
    obtain rfl := (Finmap.mem_insert.mp hkey).resolve_right Finmap.notMem_empty
    simp
  exact
    { unsignedTx := ⟨rfl, by simp [filledPsbt, smallPsbt, smallTx]⟩
      nonWitnessUtxo := by simp [filledPsbt, PsbtInput.default]
      tapScriptSig := by simpa [filledPsbt] using hshort
      inputDerivations := by simp [filledPsbt, PsbtInput.default]
      outputDerivations := by simp [filledPsbt, PsbtOutput.default] }

/-- Version 1 comes back as version 2. -/
theorem smallPsbt_loses_version :
    ¬ ∀ (sha256 : Sha256) (order : MapOrder) (p : Psbt), Built sha256 p → deserialize (p.serialize order) = .ok p := by
  intro h
  have hbuilt : Built Sha256.sha256 (smallPsbt 1) := @Built.new _ (smallTx 1) _ rfl
  have hsize : ((smallPsbt 1).serialize MapOrder.any).length < 2 ^ 64 := by
    rw [smallPsbt_bytes]
    decide
  have hback := h Sha256.sha256 MapOrder.any (smallPsbt 1) hbuilt
  rw [deserialize_serialize hbuilt.counted hsize, Except.ok.injEq] at hback
  exact absurd (carried_eq_iff.mp hback).unsignedTx.version (by decide)

end RoundTrip

end Psbt

end KuberCoin.Psbts
