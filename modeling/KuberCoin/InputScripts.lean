import KuberCoin.Sighashes
import KuberCoin.Validator

/-!
Verifying the script of one input (crate `consensus`, `verify_input_signature`),
branch by branch: key-hash and script-hash witness programs, taproot key and script
paths, P2SH with its wrapped witness programs, and P2PKH.
The script interpreters, the curve arithmetic and RIPEMD-160 are given by a record of
functions, and every result holds for whatever they compute. What a verification reads
is the transaction, the position of the input, the output it spends and the amounts
and scripts of all spent outputs.
-/
namespace KuberCoin.InputScripts

open Bytes Maps Transactions UtxoSets Validator Sighashes

/-- A script interpreter with its state. -/
structure Interpreter where
  State : Type
  new : State
  setSegwitContext : State → List UInt8 → UInt64 → State
  pushData : State → List UInt8 → State
  execute : State → List UInt8 → Transaction → ℕ → Except String State
  popTop : State → Except String (List UInt8 × State)
  stackLen : State → ℕ
  stackTopTrue : State → Bool

/-- What `verify_input_signature` calls. -/
structure Engine where
  sha256 : Sha256
  ripemd160 : List UInt8 → List UInt8
  interpreter : Interpreter
  /-- `PublicKey::from_bytes`, with the message of its error. -/
  publicKey : List UInt8 → Except String Unit
  /-- `ecdsa::Signature::from_der` finds a signature. -/
  fromDer : List UInt8 → Bool
  verifyEcdsa : List UInt8 → List UInt8 → Bytes32 → Bool
  /-- `SchnorrSignature::from_bytes` finds a signature. -/
  schnorrFromBytes : List UInt8 → Bool
  verifySchnorr : List UInt8 → Bytes32 → List UInt8 → Bool
  /-- The script path: control block, script, its inputs, the output key and the digest for each
  type. -/
  tapscript : List UInt8 → List UInt8 → List (List UInt8) → List UInt8 →
    (UInt8 → Except String Bytes32) → ℕ → Except ValidationError Unit
  verifyP2sh : List UInt8 → List UInt8 → Bytes32 → Except String Bool
  verifyP2pkh : List UInt8 → List UInt8 → Bytes32 → Except String Bool

/-- `map_err(|e| ValidationError::InvalidScript(e.to_string()))`. -/
def asInvalidScript {α : Type} : Except String α → Except ValidationError α
  | .ok a => .ok a
  | .error e => .error (.invalidScript e)

section Verification

variable (eng : Engine) (tx : Transaction) (index : ℕ)

/-- The spend of a 20-byte witness program. -/
def verifyKeyHash (program : List UInt8) (prevoutValue : UInt64) (stack : List (List UInt8)) :
    Except ValidationError Unit := do
  require (stack.length = 2) (.invalidSignature index)
  let sigBytes := stack.getD 0 []
  let pubkeyBytes := stack.getD 1 []
  require (eng.ripemd160 (eng.sha256 pubkeyBytes).bytes = program) (.invalidSignature index)
  let scriptCode := [0x76, 0xa9, 0x14] ++ program ++ [0x88, 0xac]
  let sighash ← asInvalidScript (segwitV0SignatureHash eng.sha256 tx index scriptCode prevoutValue)
  asInvalidScript (eng.publicKey pubkeyBytes)
  let derSig := if sigBytes.getLast? = some 0x01 then sigBytes.dropLast else sigBytes
  require (eng.fromDer derSig) (.invalidSignature index)
  require (eng.verifyEcdsa pubkeyBytes derSig sighash) (.invalidSignature index)

/-- The spend of a 32-byte witness program of version 0. -/
def verifyWitnessScript (program : List UInt8) (prevoutValue : UInt64)
    (stack : List (List UInt8)) : Except ValidationError Unit :=
  match stack.getLast? with
  | none => .error (.invalidSignature index)
  | some witnessScript => do
      require ((eng.sha256 witnessScript).bytes = program) (.invalidSignature index)
      let vm := eng.interpreter
      let start := stack.dropLast.foldl vm.pushData (vm.setSegwitContext vm.new witnessScript prevoutValue)
      let final ← asInvalidScript (vm.execute start witnessScript tx index)
      require (vm.stackLen final = 1)
        (.invalidScript "CLEANSTACK: witness script must leave exactly one stack element")
      require (vm.stackTopTrue final) (.invalidSignature index)

/-- The signature and the digest type of a key-path spend. -/
def splitSchnorr (element : List UInt8) : Except ValidationError (List UInt8 × UInt8) :=
  if element.length = 65 then
    let hashType := element.getD 64 0
    if hashType &&& 0x1f > 0x03 ∨ hashType &&& 0x7e ≠ 0 then .error (.invalidSignature index)
    else .ok (element.take 64, hashType)
  else .ok (element, 0x00)

/-- The witness without its annex. -/
def effectiveStack (stack : List (List UInt8)) : List (List UInt8) :=
  if 2 ≤ stack.length ∧ (stack.getLast?.map fun a => a.head? == some 0x50).getD false then
    stack.dropLast
  else stack

def verifyTaproot (outputKey : List UInt8) (amounts : List UInt64) (scripts : List (List UInt8))
    (witness : List (List UInt8)) : Except ValidationError Unit :=
  let stack := effectiveStack witness
  let element := stack.getD 0 []
  if stack.length = 1 ∧ (element.length = 64 ∨ element.length = 65) then do
    let (sigBytes, hashType) ← splitSchnorr index element
    require (eng.schnorrFromBytes sigBytes) (.invalidSignature index)
    let sighash ← asInvalidScript (taprootSignatureHash eng.sha256 tx index amounts scripts hashType)
    require (eng.verifySchnorr sigBytes sighash outputKey) (.invalidSignature index)
  else if 2 ≤ stack.length then
    eng.tapscript (stack.getD (stack.length - 1) []) (stack.getD (stack.length - 2) [])
      (stack.take (stack.length - 2)) outputKey
      (taprootSignatureHash eng.sha256 tx index amounts scripts) index
  else .error (.invalidSignature index)

def verifyScriptHash (scriptSig spk : List UInt8) (prevoutValue : UInt64)
    (witness : List (List UInt8)) : Except ValidationError Unit := do
  let vm := eng.interpreter
  let sighash ← asInvalidScript (signatureHash eng.sha256 tx index)
  let validHash ← asInvalidScript (eng.verifyP2sh scriptSig spk sighash)
  require validHash (.invalidSignature index)
  let pushed ← asInvalidScript (vm.execute vm.new scriptSig tx index)
  let hashed ← asInvalidScript (vm.execute pushed spk tx index)
  require (vm.stackTopTrue hashed) (.invalidSignature index)
  let again ← asInvalidScript (vm.execute vm.new scriptSig tx index)
  let (redeem, rest) ← asInvalidScript (vm.popTop again)
  if isP2wpkh redeem then verifyKeyHash eng tx index (redeem.drop 2) prevoutValue witness
  else if isP2wsh redeem then verifyWitnessScript eng tx index (redeem.drop 2) prevoutValue witness
  else do
    let final ← asInvalidScript (vm.execute rest redeem tx index)
    require (vm.stackLen final = 1)
      (.invalidScript "CLEANSTACK: P2SH redeem script must leave exactly one stack element")
    require (vm.stackTopTrue final) (.invalidSignature index)

/-- `verify_input_signature` without a cache, on the output spent. The callers pass positions
of inputs only. -/
def verifyOutput (output : TxOutput) (amounts : List UInt64) (scripts : List (List UInt8)) :
    Except ValidationError Unit :=
  match tx.inputs[index]? with
  | none => .error (.invalidSignature index)
  | some input =>
      let spk := output.scriptPubkey
      let witness := input.witness.stack
      let prevoutValue := amounts.getD index 0
      if isP2wpkh spk then verifyKeyHash eng tx index (spk.drop 2) prevoutValue witness
      else if isP2wsh spk then verifyWitnessScript eng tx index (spk.drop 2) prevoutValue witness
      else if spk.length = 34 ∧ spk.getD 0 0 = 0x51 ∧ spk.getD 1 0 = 0x20 then
        verifyTaproot eng tx index (spk.drop 2) amounts scripts witness
      else if isP2sh spk then verifyScriptHash eng tx index input.scriptSig spk prevoutValue witness
      else do
        let sighash ← asInvalidScript (signatureHash eng.sha256 tx index)
        let valid ← asInvalidScript (eng.verifyP2pkh input.scriptSig spk sighash)
        require valid (.invalidSignature index)

end Verification

/-- The batch verification of taproot key-path signatures; what does not parse is skipped. -/
def verifyBatchItem (eng : Engine) (item : BatchItem) : Bool :=
  match taprootSignatureHash eng.sha256 item.tx item.inputIndex item.prevoutAmounts
      item.prevoutScripts item.sighashType with
  | .error _ => true
  | .ok sighash =>
      !eng.schnorrFromBytes item.sigBytes || eng.verifySchnorr item.sigBytes sighash item.outputKey

/-- The checks of a block validated with these functions. -/
def scriptChecks (eng : Engine) : ScriptChecks where
  verifyInputSignature tx index utxo amounts scripts := verifyOutput eng tx index utxo.output amounts scripts
  verifyBatch items := items.all (verifyBatchItem eng)

end KuberCoin.InputScripts
