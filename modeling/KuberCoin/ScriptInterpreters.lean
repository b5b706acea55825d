import KuberCoin.InputScripts
import KuberCoin.FailingPrograms

/-!
The script interpreter (crate `tx`, `script_interpreter.rs`), opcode by opcode. A stack
is a list with its top first. Numbers are 64-bit and wrap as in a release build. The
curve and the hash functions are given by a record of functions; what a signature signs
is the digest of the transaction, or the BIP-143 digest where a segwit context is set.
-/
namespace KuberCoin.ScriptInterpreters

open Bytes Transactions Sighashes FailingPrograms

inductive ScriptInterpreterError
  | stackUnderflow
  | altStackUnderflow
  | stackOverflow
  | elementTooLarge
  | scriptTooLarge
  | tooManyOps
  | dataOutOfBounds (message : String)
  | unknownOpcode (opcode : UInt8)
  | opReturn
  | flowControl (message : String)
  | verifyFailed
  | crypto (message : String)
  | locktime (message : String)
  | sequence (message : String)
  | multisig (message : String)
  | transaction (message : String)
  | disabledOpcode (opcode : UInt8)
  | nullDummyViolation
  | nonMinimalScriptNum
  | nonMinimalPush
  deriving DecidableEq

def hexDigit (n : ℕ) : Char := (Nat.digitChar n)

/-- `{0:02x}` of a byte. -/
def hexByte (b : UInt8) : String := String.ofList [hexDigit (b.toNat / 16), hexDigit (b.toNat % 16)]

/-- `Display` of an error. -/
def ScriptInterpreterError.message : ScriptInterpreterError → String
  | stackUnderflow => "Stack underflow"
  | altStackUnderflow => "Alt stack underflow"
  | stackOverflow => "Stack overflow"
  | elementTooLarge => "Element too large"
  | scriptTooLarge => "Script too large"
  | tooManyOps => "Too many operations"
  | dataOutOfBounds m => m
  | unknownOpcode b => "Unknown opcode: 0x" ++ hexByte b
  | opReturn => "OP_RETURN executed"
  | flowControl m => m
  | verifyFailed => "OP_VERIFY failed"
  | crypto m => m
  | locktime m => m
  | sequence m => m
  | multisig m => m
  | transaction m => m
  | disabledOpcode b => "Disabled opcode: 0x" ++ hexByte b
  | nullDummyViolation => "BIP-147: NULLDUMMY — OP_CHECKMULTISIG dummy element must be empty"
  | nonMinimalScriptNum => "Non-minimal script number encoding"
  | nonMinimalPush => "Non-minimal push: data could be pushed with a smaller opcode"

def maxScriptSize : ℕ := 10000
def maxStackSize : ℕ := 1000
def maxElementSize : ℕ := 520
def maxOpsPerScript : ℕ := 201

structure SegwitContext where
  scriptCode : List UInt8
  value : UInt64
  deriving DecidableEq

structure ScriptInterpreter where
  stack : List (List UInt8)
  altStack : List (List UInt8)
  conditionStack : List Bool
  opCount : ℕ
  lastCodeseparatorPos : Option UInt32
  segwitContext : Option SegwitContext
  deriving DecidableEq

/-- What the opcodes call: hash functions, and the curve by the encodings it reads. -/
structure Primitives where
  sha256 : Sha256
  ripemd160 : List UInt8 → List UInt8
  sha1 : List UInt8 → List UInt8
  ripemd160_length : ∀ b, (ripemd160 b).length = 20
  sha1_length : ∀ b, (sha1 b).length = 20
  /-- `PublicKey::from_bytes` -/
  publicKey : List UInt8 → Except String Unit
  /-- `PublicKey::to_bytes` of a key that is read: its compressed encoding. -/
  serializeKey : List UInt8 → List UInt8
  /-- `ecdsa::Signature::from_der` -/
  fromDer : List UInt8 → Except String Unit
  /-- `normalize_s` leaves the signature as it is. -/
  lowS : List UInt8 → Bool
  verifyEcdsa : List UInt8 → List UInt8 → Bytes32 → Bool

abbrev Op (α : Type) := StateT ScriptInterpreter (Except ScriptInterpreterError) α

namespace ScriptInterpreter

def new : ScriptInterpreter := ⟨[], [], [], 0, none, none⟩

def setSegwitContext (s : ScriptInterpreter) (scriptCode : List UInt8) (value : UInt64) :
    ScriptInterpreter := { s with segwitContext := some ⟨scriptCode, value⟩ }

def pushData (s : ScriptInterpreter) (data : List UInt8) : ScriptInterpreter :=
  { s with stack := data :: s.stack }

def shouldExecute (s : ScriptInterpreter) : Bool := s.conditionStack.all id

def stackTopTrue (s : ScriptInterpreter) : Bool :=
  match s.stack with
  | [] => false
  | top :: _ => if top = [0x80] then false else top.any (· ≠ 0)

def stackLen (s : ScriptInterpreter) : ℕ := s.stack.length

end ScriptInterpreter

section Stack

def push (data : List UInt8) : Op Unit := do
  if data.length > maxElementSize then throw .elementTooLarge
  let s ← get
  if s.stack.length ≥ maxStackSize then throw .stackOverflow
  set { s with stack := data :: s.stack }

def pop : Op (List UInt8) := do
  let s ← get
  match s.stack with
  | [] => throw .stackUnderflow
  | top :: rest => do
      set { s with stack := rest }
      return top

def peek (depth : ℕ) : Op (List UInt8) := do
  let s ← get
  match s.stack[depth]? with
  | none => throw .stackUnderflow
  | some value => return value

def isTrue (value : List UInt8) : Bool := value.any (· ≠ 0)

end Stack

section Numbers

/-- `value |= (byte as i64) << (8 * i)` for the bytes from position `i` on; the last one without
its sign bit. A shift by 64 or more wraps. -/
def orBytes (value : Int64) (i : ℕ) : List UInt8 → Int64
  | [] => value
  | [last] => value ||| (Int64.ofNat (last &&& 0x7f).toNat <<< Int64.ofNat (8 * i % 64))
  | byte :: rest => orBytes (value ||| (Int64.ofNat byte.toNat <<< Int64.ofNat (8 * i % 64))) (i + 1) rest

/-- The last byte carries a sign the byte before it leaves no room for. -/
def nonMinimal (bytes : List UInt8) : Bool :=
  let last := bytes.getD (bytes.length - 1) 0
  let prev := bytes.getD (bytes.length - 2) 0
  bytes.length > 1 && (last == 0x00 || last == 0x80) && prev &&& 0x80 == 0

def bytesToInt (bytes : List UInt8) : Except ScriptInterpreterError Int64 :=
  if bytes = [] then .ok 0
  else if nonMinimal bytes then .error .nonMinimalScriptNum
  else
    let value := orBytes 0 0 bytes
    .ok (if bytes.getD (bytes.length - 1) 0 &&& 0x80 ≠ 0 then -value else value)

/-- The bytes of a number, least significant first and without leading zeros. -/
def littleEndian : ℕ → ℕ → List UInt8
  | 0, _ => []
  | fuel + 1, v => if v = 0 then [] else UInt8.ofNat v :: littleEndian fuel (v / 256)

def intToBytes (value : Int64) : List UInt8 :=
  let negative := value < 0
  let bytes := littleEndian 8 value.abs.toUInt64.toNat
  match bytes.getLast? with
  | none => []
  | some last =>
      if last &&& 0x80 ≠ 0 then bytes ++ [if negative then 0x80 else 0x00]
      else if negative then bytes.dropLast ++ [last ||| 0x80]
      else bytes

/-- `value as usize`. -/
def asUsize (value : Int64) : ℕ := value.toUInt64.toNat

def ofBool (b : Bool) : Int64 := if b then 1 else 0

def popInt : Op Int64 := do
  let value ← pop
  bytesToInt value

end Numbers

section FlowControl

def opIf : Op Unit := do
  let s ← get
  if s.shouldExecute then
    let value ← pop
    modify fun s => { s with conditionStack := isTrue value :: s.conditionStack }
  else modify fun s => { s with conditionStack := false :: s.conditionStack }

def opNotif : Op Unit := do
  let s ← get
  if s.shouldExecute then
    let value ← pop
    modify fun s => { s with conditionStack := (!isTrue value) :: s.conditionStack }
  else modify fun s => { s with conditionStack := false :: s.conditionStack }

def opElse : Op Unit := do
  let s ← get
  match s.conditionStack with
  | [] => throw (.flowControl "OP_ELSE without OP_IF")
  | cond :: rest => set { s with conditionStack := (!cond) :: rest }

def opEndif : Op Unit := do
  let s ← get
  match s.conditionStack with
  | [] => throw (.flowControl "OP_ENDIF without OP_IF")
  | _ :: rest => set { s with conditionStack := rest }

def opVerify : Op Unit := do
  let value ← pop
  if !isTrue value then throw .verifyFailed

end FlowControl

section StackOpcodes

def opToaltstack : Op Unit := do
  let value ← pop
  modify fun s => { s with altStack := value :: s.altStack }

def opFromaltstack : Op Unit := do
  let s ← get
  match s.altStack with
  | [] => throw .altStackUnderflow
  | value :: rest => do
      set { s with altStack := rest }
      push value

def opIfdup : Op Unit := do
  let top ← peek 0
  if isTrue top then push top

def opDepth : Op Unit := do
  let s ← get
  push (intToBytes (Int64.ofNat s.stack.length))

def opDrop : Op Unit := do
  let _ ← pop

def opDup : Op Unit := do
  let top ← peek 0
  push top

def opNip : Op Unit := do
  let top ← pop
  let _ ← pop
  push top

def opOver : Op Unit := do
  let second ← peek 1
  push second

def opRot : Op Unit := do
  let top ← pop
  let second ← pop
  let third ← pop
  push second
  push top
  push third

def opSwap : Op Unit := do
  let top ← pop
  let second ← pop
  push top
  push second

def opTuck : Op Unit := do
  let top ← pop
  let second ← pop
  push top
  push second
  push top

def opPick : Op Unit := do
  let n ← popInt
  let value ← peek (asUsize n)
  push value

/-- The element moved is pushed without a check. -/
def opRoll : Op Unit := do
  let n ← popInt
  let s ← get
  match s.stack[asUsize n]? with
  | none => throw .stackUnderflow
  | some value => set { s with stack := value :: s.stack.eraseIdx (asUsize n) }

def op2drop : Op Unit := do
  let _ ← pop
  let _ ← pop

def op2dup : Op Unit := do
  let second ← peek 1
  let first ← peek 0
  push second
  push first

def op3dup : Op Unit := do
  let third ← peek 2
  let second ← peek 1
  let first ← peek 0
  push third
  push second
  push first

def op2over : Op Unit := do
  let fourth ← peek 3
  let third ← peek 2
  push fourth
  push third

def op2rot : Op Unit := do
  let sixth ← pop
  let fifth ← pop
  let fourth ← pop
  let third ← pop
  let second ← pop
  let first ← pop
  push third
  push fourth
  push fifth
  push sixth
  push first
  push second

def op2swap : Op Unit := do
  let fourth ← pop
  let third ← pop
  let second ← pop
  let first ← pop
  push third
  push fourth
  push first
  push second

def opSize : Op Unit := do
  let top ← peek 0
  push (intToBytes (Int64.ofNat top.length))

def opEqual : Op Unit := do
  let b ← pop
  let a ← pop
  push (if a = b then [1] else [])

def opEqualverify : Op Unit := do
  opEqual
  opVerify

end StackOpcodes

section Arithmetic

/-- An opcode on the number on top. -/
def unary (f : Int64 → Int64) : Op Unit := do
  let a ← popInt
  push (intToBytes (f a))

/-- An opcode on the two numbers on top; the second operand is the upper one. -/
def binary (f : Int64 → Int64 → Int64) : Op Unit := do
  let bVal ← pop
  let aVal ← pop
  let b ← bytesToInt bVal
  let a ← bytesToInt aVal
  push (intToBytes (f a b))

def op1add : Op Unit := unary (· + 1)
def op1sub : Op Unit := unary (· - 1)
def opNegate : Op Unit := unary (- ·)
def opAbs : Op Unit := unary Int64.abs
def opNot : Op Unit := unary fun a => ofBool (a = 0)
def op0notequal : Op Unit := unary fun a => ofBool (a ≠ 0)
def opAdd : Op Unit := binary (· + ·)
def opSub : Op Unit := binary (· - ·)
def opBooland : Op Unit := binary fun a b => ofBool (a ≠ 0 ∧ b ≠ 0)
def opBoolor : Op Unit := binary fun a b => ofBool (a ≠ 0 ∨ b ≠ 0)
def opNumequal : Op Unit := binary fun a b => ofBool (a = b)
def opNumnotequal : Op Unit := binary fun a b => ofBool (a ≠ b)
def opLessthan : Op Unit := binary fun a b => ofBool (a < b)
def opGreaterthan : Op Unit := binary fun a b => ofBool (b < a)
def opLessthanorequal : Op Unit := binary fun a b => ofBool (a ≤ b)
def opGreaterthanorequal : Op Unit := binary fun a b => ofBool (b ≤ a)
def opMin : Op Unit := binary fun a b => if a ≤ b then a else b
def opMax : Op Unit := binary fun a b => if a ≤ b then b else a

def opNumequalverify : Op Unit := do
  opNumequal
  opVerify

def opWithin : Op Unit := do
  let maxVal ← pop
  let minVal ← pop
  let xVal ← pop
  let max ← bytesToInt maxVal
  let min ← bytesToInt minVal
  let x ← bytesToInt xVal
  push (intToBytes (ofBool (min ≤ x ∧ x < max)))

end Arithmetic

section Crypto

variable (prims : Primitives) (tx : Transaction) (index : ℕ)

/-- An opcode that replaces the top by its hash. -/
def hashTop (hash : List UInt8 → List UInt8) : Op Unit := do
  let data ← pop
  push (hash data)

def opRipemd160 : Op Unit := hashTop prims.ripemd160
def opSha1 : Op Unit := hashTop prims.sha1
def opSha256 : Op Unit := hashTop fun data => (prims.sha256 data).bytes
def opHash160 : Op Unit := hashTop fun data => prims.ripemd160 (prims.sha256 data).bytes
def opHash256 : Op Unit := hashTop fun data => (prims.sha256 (prims.sha256 data).bytes).bytes

/-- The digest a signature signs: BIP-143 where a segwit context is set, else the legacy one. -/
def contextDigest (s : ScriptInterpreter) : Except ScriptInterpreterError Bytes32 :=
  let digest :=
    match s.segwitContext with
    | some ctx => segwitV0SignatureHash prims.sha256 tx index ctx.scriptCode ctx.value
    | none => signatureHash prims.sha256 tx index
  digest.mapError .transaction

/-- What `op_checksig` does with a signature that is not empty. -/
def checkSignature (s : ScriptInterpreter) (pubkeyBytes sigBytes : List UInt8) :
    Except ScriptInterpreterError Unit := do
  let signatureBytes := sigBytes.dropLast
  let sighash ← contextDigest prims tx index s
  (prims.publicKey pubkeyBytes).mapError fun e => .crypto ("Invalid public key: " ++ e)
  (prims.fromDer signatureBytes).mapError fun e => .crypto ("Invalid signature: " ++ e)
  if !prims.lowS signatureBytes then
    throw (.crypto "BIP-146: signature S value is unnecessarily high (non-low-S)")
  if !prims.verifyEcdsa pubkeyBytes signatureBytes sighash then
    throw (.crypto "BIP-146 NULLFAIL: non-empty signature failed verification")

def opChecksig : Op Unit := do
  let pubkeyBytes ← pop
  let sigBytes ← pop
  if sigBytes = [] then push []
  else do
    let s ← get
    checkSignature prims tx index s pubkeyBytes sigBytes
    push [1]

def opChecksigverify : Op Unit := do
  opChecksig prims tx index
  opVerify

def popMany : ℕ → Op (List (List UInt8))
  | 0 => return []
  | n + 1 => do
      let first ← pop
      let rest ← popMany n
      return first :: rest

/-- A key and a signature of `op_checkmultisig` that verify. -/
def signs (sighash : Bytes32) (key sig : List UInt8) : Bool :=
  (prims.publicKey key).toBool && (prims.fromDer sig.dropLast).toBool &&
    prims.verifyEcdsa key sig.dropLast sighash

/-- The signatures that verify, keys and signatures taken in order; an empty signature is
passed over without using up a key. -/
def validSigs (sighash : Bytes32) : List (List UInt8) → List (List UInt8) → ℕ
  | [], _ => 0
  | key :: keys, sigs =>
      match sigs.dropWhile (· = []) with
      | [] => 0
      | sig :: rest =>
          if signs prims sighash key sig then validSigs sighash keys rest + 1
          else validSigs sighash keys (sig :: rest)

def opCheckmultisig : Op Unit := do
  let n ← popInt
  if asUsize n > 20 then throw (.multisig "Too many public keys")
  let pubkeys ← popMany (asUsize n)
  let m ← popInt
  if asUsize m > asUsize n then
    throw (.multisig "More signatures required than keys available")
  let signatures ← popMany (asUsize m)
  let dummy ← pop
  if dummy ≠ [] then throw .nullDummyViolation
  let s ← get
  let sighash ← contextDigest prims tx index s
  push (if validSigs prims sighash pubkeys signatures ≥ asUsize m then [1] else [])

def opCheckmultisigverify : Op Unit := do
  opCheckmultisig prims tx index
  opVerify

end Crypto

section Locktime

variable (tx : Transaction) (index : ℕ)

def locktimeThreshold : ℕ := 500000000

def checkLocktime (value : Int64) : Except ScriptInterpreterError Unit := do
  if value < 0 then throw (.locktime "Negative locktime")
  let locktime := value.toUInt64.toNat
  let txLocktime := tx.lockTime.toNat
  if (tx.inputs[index]?.map TxInput.sequence) = some 0xffffffff then
    throw (.locktime "Input sequence is final (0xFFFFFFFF); locktime disabled")
  if decide (locktime ≥ locktimeThreshold) ≠ decide (txLocktime ≥ locktimeThreshold) then
    throw (.locktime "Locktime type mismatch: cannot compare block height with timestamp")
  if txLocktime < locktime then throw (.locktime "Locktime not met")

def opChecklocktimeverify : Op Unit := do
  let locktimeVal ← peek 0
  let locktime ← bytesToInt locktimeVal
  checkLocktime tx index locktime

def sequenceDisableFlag : UInt32 := 0x80000000
def sequenceTypeFlag : UInt32 := 0x00400000
def sequenceMask : UInt32 := 0x0000ffff

def checkSequence (value : Int64) : Except ScriptInterpreterError Unit := do
  if value < 0 then throw (.sequence "Negative sequence")
  if value > 0xffffffff then throw (.sequence "Sequence value exceeds u32 range")
  let sequence := value.toUInt64.toUInt32
  if sequence &&& sequenceDisableFlag ≠ 0 then return
  match tx.inputs[index]? with
  | none => throw (.sequence "Invalid input index")
  | some input => do
      if input.sequence &&& sequenceDisableFlag ≠ 0 then
        throw (.sequence "Input sequence has disable flag set")
      if decide (sequence &&& sequenceTypeFlag ≠ 0) ≠
          decide (input.sequence &&& sequenceTypeFlag ≠ 0) then
        throw (.sequence "Sequence type mismatch: cannot compare block-based with time-based")
      if input.sequence &&& sequenceMask < sequence &&& sequenceMask then
        throw (.sequence "Sequence not met")

def opChecksequenceverify : Op Unit := do
  let sequenceVal ← peek 0
  let sequence ← bytesToInt sequenceVal
  checkSequence tx index sequence

end Locktime

section Execution

variable (prims : Primitives) (tx : Transaction) (index : ℕ)

/-- The arms of the match of `execute_opcode` that neither push data nor read the position. -/
def opcodeTable : List (UInt8 × Op Unit) :=
  [(0x4f, push [0x81]),
   (0x61, pure ()),
   (0x63, opIf), (0x64, opNotif), (0x67, opElse), (0x68, opEndif), (0x69, opVerify),
   (0x6a, throw .opReturn),
   (0x6b, opToaltstack), (0x6c, opFromaltstack), (0x73, opIfdup), (0x74, opDepth),
   (0x75, opDrop), (0x76, opDup), (0x77, opNip), (0x78, opOver), (0x79, opPick),
   (0x7a, opRoll), (0x7b, opRot), (0x7c, opSwap), (0x7d, opTuck), (0x6d, op2drop),
   (0x6e, op2dup), (0x6f, op3dup), (0x70, op2over), (0x71, op2rot), (0x72, op2swap),
   (0x8b, op1add), (0x8c, op1sub), (0x8f, opNegate), (0x90, opAbs), (0x91, opNot),
   (0x92, op0notequal), (0x93, opAdd), (0x94, opSub), (0x9a, opBooland), (0x9b, opBoolor),
   (0x9c, opNumequal), (0x9d, opNumequalverify), (0x9e, opNumnotequal), (0x9f, opLessthan),
   (0xa0, opGreaterthan), (0xa1, opLessthanorequal), (0xa2, opGreaterthanorequal),
   (0xa3, opMin), (0xa4, opMax), (0xa5, opWithin),
   (0xa6, opRipemd160 prims), (0xa7, opSha1 prims), (0xa8, opSha256 prims),
   (0xa9, opHash160 prims), (0xaa, opHash256 prims),
   (0xac, opChecksig prims tx index), (0xad, opChecksigverify prims tx index),
   (0xae, opCheckmultisig prims tx index), (0xaf, opCheckmultisigverify prims tx index),
   (0xb1, opChecklocktimeverify tx index), (0xb2, opChecksequenceverify tx index),
   (0xb0, pure ()), (0xb3, pure ()), (0xb4, pure ()), (0xb5, pure ()), (0xb6, pure ()),
   (0xb7, pure ()), (0xb8, pure ()), (0xb9, pure ()),
   (0x87, opEqual), (0x88, opEqualverify), (0x82, opSize)]

def disabledOpcodes : List UInt8 :=
  [0xba, 0x7e, 0x7f, 0x80, 0x81, 0x83, 0x84, 0x85, 0x86, 0x8d, 0x8e, 0x95, 0x96, 0x97, 0x98, 0x99]

/-- Push the `len` bytes at `pc`; the new position. -/
def pushBytes (bytes : List UInt8) (pc len : ℕ) (message : String) : Op ℕ := do
  if pc + len > bytes.length then throw (.dataOutOfBounds message)
  push ((bytes.drop pc).take len)
  return pc + len

/-- A push of 1 to 75 bytes. A single byte that has an opcode of its own is refused. -/
def pushShort (bytes : List UInt8) (pc len : ℕ) : Op ℕ := do
  if pc + len > bytes.length then throw (.dataOutOfBounds "Push data out of bounds")
  let data := (bytes.drop pc).take len
  if data.length = 1 ∧ (data.getD 0 0 ≤ 16 ∨ data.getD 0 0 = 0x81) then throw .nonMinimalPush
  push data
  return pc + len

/-- `OP_PUSHDATA1`, `2` and `4`: the length is in the `width` bytes at `pc`, and more than
`bound`. -/
def pushPrefixed (bytes : List UInt8) (pc width bound : ℕ) : Op ℕ := do
  let name := "OP_PUSHDATA" ++ toString width
  if pc + width > bytes.length then throw (.dataOutOfBounds (name ++ " missing length"))
  let len := leValue ((bytes.drop pc).take width)
  if len ≤ bound then throw .nonMinimalPush
  pushBytes bytes (pc + width) len (name ++ " data out of bounds")

/-- `execute_opcode`: `pc` is the position after the opcode, and the result the one to go on
from. -/
def executeOpcode (opcode : UInt8) (bytes : List UInt8) (pc : ℕ) : Op ℕ :=
  if opcode = 0x00 then do
    push []
    return pc
  else if 0x51 ≤ opcode ∧ opcode ≤ 0x60 then do
    push [opcode - 0x50]
    return pc
  else if opcode ≤ 0x4b then pushShort bytes pc opcode.toNat
  else if opcode = 0x4c then pushPrefixed bytes pc 1 75
  else if opcode = 0x4d then pushPrefixed bytes pc 2 255
  else if opcode = 0x4e then pushPrefixed bytes pc 4 65535
  else if opcode = 0xab then do
    modify fun s => { s with lastCodeseparatorPos := some (UInt32.ofNat pc) }
    return pc
  else
    match (opcodeTable prims tx index).lookup opcode with
    | some op => do
        op
        return pc
    | none => if opcode ∈ disabledOpcodes then throw (.disabledOpcode opcode)
        else throw (.unknownOpcode opcode)

def isFlowControlOp (opcode : UInt8) : Bool :=
  opcode = 0x63 || opcode = 0x64 || opcode = 0x67 || opcode = 0x68

/-- Opcodes above `OP_16` count toward the limit, also where they are skipped. -/
def countOp (opcode : UInt8) : Op Unit := do
  if opcode > 0x60 then
    let s ← get
    if s.opCount + 1 > maxOpsPerScript then throw .tooManyOps
    set { s with opCount := s.opCount + 1 }

/-- One turn of the loop of `execute`, at the opcode in front of `pc`. -/
def step (bytes : List UInt8) (opcode : UInt8) (pc : ℕ) : Op ℕ := do
  countOp opcode
  let s ← get
  if !s.shouldExecute && !isFlowControlOp opcode then return pc
  else executeOpcode prims tx index opcode bytes pc

/-- The loop of `execute` from `pc`, for at most `fuel` turns. -/
def executeFrom (bytes : List UInt8) : ℕ → ℕ → Op Unit
  | 0, _ => return
  | fuel + 1, pc =>
      match bytes[pc]? with
      | none => return
      | some opcode => do
          let next ← step prims tx index bytes opcode (pc + 1)
          executeFrom bytes fuel next

def execute (script : List UInt8) : Op Unit := do
  if script.length > maxScriptSize then throw .scriptTooLarge
  executeFrom prims tx index script script.length 0
  let s ← get
  if s.conditionStack ≠ [] then throw (.flowControl "Unbalanced conditional")

end Execution

end KuberCoin.ScriptInterpreters
