import KuberCoin.ScriptRuns

/-!
Pay-to-script-hash (crate `tx`, `p2sh.rs`), and the verification of an input with the
script interpreter in place. `verify_p2sh` takes the redeem script out of the bytes of the
script by a parser of its own, which knows short pushes and `OP_PUSHDATA1` only, and runs it
with a transaction that has no inputs.
-/
namespace KuberCoin.PayToScriptHash

open Bytes Transactions Validator Sighashes InputScripts FailingPrograms ScriptInterpreters ScriptRuns

section Hashes

variable (prims : Primitives)

def hash160 (data : List UInt8) : List UInt8 := prims.ripemd160 (prims.sha256 data).bytes

/-- The hash of a script in its output: the script is hashed twice with SHA-256. -/
def hashScript (script : List UInt8) : List UInt8 := hash160 prims (prims.sha256 script).bytes

def createP2shOutput (scriptHash : List UInt8) : List UInt8 := [0xa9, 20] ++ scriptHash ++ [0x87]

theorem hashScript_length (script : List UInt8) : (hashScript prims script).length = 20 :=
  prims.ripemd160_length _

end Hashes

section Extraction

/-- `Display` of `TxError::P2sh`. -/
def p2shError (message : String) : String := "P2SH error: " ++ message

/-- The loop of `extract_redeem_script` over the bytes left; `last` is what was pushed last. -/
def extractLoop : ℕ → List UInt8 → List UInt8 → Except String (List UInt8)
  | fuel + 1, op :: rest, last =>
      if op = 0 then extractLoop fuel rest last
      else if op < 0x4c then
        if rest.length < op.toNat then .error (p2shError "script parsing overflow")
        else extractLoop fuel (rest.drop op.toNat) (rest.take op.toNat)
      else if op = 0x4c then
        match rest with
        | [] => .error (p2shError "invalid OP_PUSHDATA1")
        | len :: data =>
            if data.length < len.toNat then .error (p2shError "script parsing overflow")
            else extractLoop fuel (data.drop len.toNat) (data.take len.toNat)
      else .error (p2shError "unsupported push opcode")
  | _, _, last => if last = [] then .error (p2shError "no redeem script found") else .ok last

def extractRedeemScript (scriptSig : List UInt8) : Except String (List UInt8) :=
  if scriptSig = [] then .error (p2shError "empty scriptSig")
  else extractLoop scriptSig.length scriptSig []

def extractP2shHash (spk : List UInt8) : List UInt8 := (spk.drop 2).take 20

end Extraction

section Verification

variable (prims : Primitives)

def dummyTx : Transaction := ⟨2, [], [], 0⟩

/-- `verify_p2sh`; the message it is given is not used. -/
def verifyP2sh (scriptSig spk : List UInt8) : Except String Bool := do
  if !isP2sh spk then throw (p2shError "script is not a P2SH output")
  let redeem ← extractRedeemScript scriptSig
  if hashScript prims redeem ≠ extractP2shHash spk then
    throw (p2shError "redeem script hash mismatch")
  let (_, pushed) ← (execute prims dummyTx 0 scriptSig .new).mapError fun e =>
    p2shError ("scriptSig execution failed: " ++ e.message)
  let (top, rest) ← (pop pushed).mapError fun e =>
    p2shError ("failed to pop redeem script: " ++ e.message)
  let (_, final) ← (execute prims dummyTx 0 top rest).mapError fun e =>
    p2shError ("redeem script execution failed: " ++ e.message)
  if !final.stackTopTrue then throw (p2shError "redeem script evaluated to false")
  return true

/-- The interpreter of the crate, with errors as the texts they print. -/
def scriptInterpreter : Interpreter where
  State := ScriptInterpreter
  new := .new
  setSegwitContext := ScriptInterpreter.setSegwitContext
  pushData := ScriptInterpreter.pushData
  execute s script tx index :=
    ((execute prims tx index script s).mapError ScriptInterpreterError.message).map Prod.snd
  popTop s := (pop s).mapError ScriptInterpreterError.message
  stackLen := ScriptInterpreter.stackLen
  stackTopTrue := ScriptInterpreter.stackTopTrue

/-- Input verification that runs scripts with this interpreter; taproot and P2PKH are as in `eng`. -/
def scriptEngine (eng : Engine) : Engine :=
  { eng with
    sha256 := prims.sha256
    ripemd160 := prims.ripemd160
    interpreter := scriptInterpreter prims
    publicKey := prims.publicKey
    fromDer := fun bytes => (prims.fromDer bytes).toBool
    verifyEcdsa := prims.verifyEcdsa
    verifyP2sh := fun scriptSig spk _ => verifyP2sh prims scriptSig spk }

/-- Verification with the interpreter on scripts that check no signature. -/
def keylessEngine : Engine where
  sha256 := keyless.sha256
  ripemd160 := keyless.ripemd160
  interpreter := scriptInterpreter keyless
  publicKey := keyless.publicKey
  fromDer _ := false
  verifyEcdsa := keyless.verifyEcdsa
  schnorrFromBytes _ := false
  verifySchnorr _ _ _ := false
  tapscript _ _ _ _ _ index := .error (.invalidSignature index)
  verifyP2sh scriptSig spk _ := verifyP2sh keyless scriptSig spk
  verifyP2pkh _ _ _ := .ok false

end Verification

section Pushes

/-- The shortest push of data that is not empty. -/
def minimalPush (data : List UInt8) : List UInt8 :=
  match data with
  | [0x81] => [0x4f]
  | [b] => if 1 ≤ b ∧ b ≤ 16 then [0x50 + b] else [1, b]
  | data =>
      if data.length ≤ 75 then UInt8.ofNat data.length :: data
      else if data.length ≤ 255 then [0x4c, UInt8.ofNat data.length] ++ data
      else if data.length ≤ 65535 then [0x4d] ++ leBytes 2 data.length ++ data
      else [0x4e] ++ leBytes 4 data.length ++ data

/-- The input script that pushes the data in order and the redeem script last. -/
def spendingScript (pushes : List (List UInt8)) (redeem : List UInt8) : List UInt8 :=
  (pushes ++ [redeem]).flatMap minimalPush

end Pushes

end KuberCoin.PayToScriptHash
