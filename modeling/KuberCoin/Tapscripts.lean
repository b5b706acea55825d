import KuberCoin.ScriptInterpreters

/-!
The interpreter of leaf scripts (crate `tx`, `tapscript.rs`), opcode by opcode. A stack is
a list with its top first, and numbers wrap as in a release build. The interpreter is given
the script, its witness and a context that holds one digest for each signature type; of the
transaction it sees nothing else. The Schnorr verification of the curve library is a
function that every definition takes.
-/
namespace KuberCoin.Tapscripts

open Bytes Transactions Sighashes ScriptInterpreters FailingPrograms

inductive TapscriptError
  | scriptTooLarge (size : ℕ)
  | elementTooLarge (size : ℕ)
  | tooManyOps (count : ℕ)
  | stackOverflow
  | invalidStackOperation
  | opReturn
  | verifyFailed
  | unexpectedEndOfScript
  | invalidSignature
  | invalidPublicKey
  | unknownOpcode (opcode : UInt8)
  | disabledOpcode (name : String)
  | numberTooLarge
  | unbalancedConditional
  | elseWithoutIf
  | endifWithoutIf
  | multipleElse
  | sigopsBudgetExceeded
  deriving DecidableEq

/-- `Display` of an error. -/
def TapscriptError.message : TapscriptError → String
  | scriptTooLarge size => s!"Script too large: {size} bytes (max 10000)"
  | elementTooLarge size => s!"Stack element too large: {size} bytes (max 520)"
  | tooManyOps count => s!"Too many operations: {count} (max 201)"
  | stackOverflow => "Stack overflow"
  | invalidStackOperation => "Invalid stack operation"
  | opReturn => "OP_RETURN encountered"
  | verifyFailed => "OP_VERIFY failed"
  | unexpectedEndOfScript => "Unexpected end of script"
  | invalidSignature => "Invalid signature"
  | invalidPublicKey => "Invalid public key"
  | unknownOpcode opcode => "Unknown opcode: 0x" ++ hexByte opcode
  | disabledOpcode name => "Disabled opcode: " ++ name
  | numberTooLarge => "Number too large"
  | unbalancedConditional => "Unbalanced conditional (IF without ENDIF)"
  | elseWithoutIf => "ELSE without matching IF"
  | endifWithoutIf => "ENDIF without matching IF"
  | multipleElse => "Multiple ELSE in same IF block"
  | sigopsBudgetExceeded => "BIP-342 sigops budget exceeded"

def sigopsBudgetCost : ℕ := 50

structure TapLeaf where
  version : UInt8
  script : List UInt8
  deriving DecidableEq

def TapLeaf.tapscript (script : List UInt8) : TapLeaf := ⟨0xc0, script⟩

def TapLeaf.hash (sha256 : Sha256) (leaf : TapLeaf) : Bytes32 :=
  taggedHash sha256 "TapLeaf".toUTF8.toList
    ([leaf.version] ++ writeCompactSize leaf.script.length ++ leaf.script)

structure TapscriptContext where
  sighash : Bytes32
  internalKey : List UInt8
  tapleaf : TapLeaf
  sighashMap : List (UInt8 × Bytes32)

def TapscriptContext.getSighash (context : TapscriptContext) (sighashType : UInt8) : Option Bytes32 :=
  if sighashType = 0x00 then some context.sighash else context.sighashMap.lookup sighashType

/-- The interpreter without its script, which never changes. -/
structure TapscriptInterpreter where
  stack : List (List UInt8)
  altStack : List (List UInt8)
  opCount : ℕ
  /-- For each open conditional, whether its branch is executed and whether `OP_ELSE` was seen. -/
  ifStack : List (Bool × Bool)
  codeSeparatorPos : UInt32
  sigopsBudget : ℕ
  deriving DecidableEq

namespace TapscriptInterpreter

def new (script : List UInt8) : Except TapscriptError TapscriptInterpreter :=
  if script.length > maxScriptSize then .error (.scriptTooLarge script.length)
  else .ok ⟨[], [], 0, [], 0xffffffff, sigopsBudgetCost⟩

def shouldExecute (s : TapscriptInterpreter) : Bool := s.ifStack.all Prod.fst

end TapscriptInterpreter

abbrev TapOp (α : Type) := StateT TapscriptInterpreter (Except TapscriptError) α

section Numbers

def isTrue (data : List UInt8) : Bool := data ≠ [0x80] && data.any (· ≠ 0)

/-- As `int_to_bytes` of the other interpreter. -/
def encodeNumber (n : Int64) : List UInt8 := intToBytes n

def decodeNumber (data : List UInt8) : Except TapscriptError Int64 :=
  if data = [] then .ok 0
  else if data.length > 8 then .error .numberTooLarge
  else if nonMinimal data then .error .numberTooLarge
  else
    let value := orBytes 0 0 data
    .ok (if data.getD (data.length - 1) 0 &&& 0x80 ≠ 0 then -value else value)

def truth (b : Bool) : List UInt8 := if b then [0x01] else []

end Numbers

section Stack

def push (data : List UInt8) : TapOp Unit :=
  modify fun s => { s with stack := data :: s.stack }

def popStack : TapOp (List UInt8) := do
  let s ← get
  match s.stack with
  | [] => throw .invalidStackOperation
  | top :: rest => do
      set { s with stack := rest }
      return top

def popAltStack : TapOp (List UInt8) := do
  let s ← get
  match s.altStack with
  | [] => throw .invalidStackOperation
  | top :: rest => do
      set { s with altStack := rest }
      return top

/-- An opcode that rearranges the stack, unless there is too little on it. -/
def rearrange (f : List (List UInt8) → Option (List (List UInt8))) : TapOp Unit := do
  let s ← get
  match f s.stack with
  | none => throw .invalidStackOperation
  | some stack => set { s with stack := stack }

def popNumber : TapOp Int64 := do
  let bytes ← popStack
  decodeNumber bytes

/-- The position of an element that a number on the stack names. -/
def popIndex : TapOp ℕ := do
  let n ← popNumber
  if n < 0 then throw .invalidStackOperation
  return n.toUInt64.toNat

def opToaltstack : TapOp Unit := do
  let item ← popStack
  modify fun s => { s with altStack := item :: s.altStack }

def opFromaltstack : TapOp Unit := do
  let item ← popAltStack
  push item

def op2drop : TapOp Unit := rearrange fun
  | _ :: _ :: rest => some rest
  | _ => none

def op2dup : TapOp Unit := rearrange fun
  | b :: a :: rest => some (b :: a :: b :: a :: rest)
  | _ => none

def op3dup : TapOp Unit := rearrange fun
  | c :: b :: a :: rest => some (c :: b :: a :: c :: b :: a :: rest)
  | _ => none

def op2over : TapOp Unit := rearrange fun
  | d :: c :: b :: a :: rest => some (b :: a :: d :: c :: b :: a :: rest)
  | _ => none

def op2rot : TapOp Unit := rearrange fun
  | f :: e :: d :: c :: b :: a :: rest => some (b :: a :: f :: e :: d :: c :: rest)
  | _ => none

def op2swap : TapOp Unit := rearrange fun
  | d :: c :: b :: a :: rest => some (b :: a :: d :: c :: rest)
  | _ => none

def opIfdup : TapOp Unit := rearrange fun
  | top :: rest => some (if isTrue top then top :: top :: rest else top :: rest)
  | _ => none

def opDepth : TapOp Unit := do
  let s ← get
  push (encodeNumber (Int64.ofNat s.stack.length))

def opDrop : TapOp Unit := rearrange fun
  | _ :: rest => some rest
  | _ => none

def opDup : TapOp Unit := rearrange fun
  | top :: rest => some (top :: top :: rest)
  | _ => none

def opNip : TapOp Unit := rearrange fun
  | top :: _ :: rest => some (top :: rest)
  | _ => none

def opOver : TapOp Unit := rearrange fun
  | top :: second :: rest => some (second :: top :: second :: rest)
  | _ => none

def opPick : TapOp Unit := do
  let n ← popIndex
  rearrange fun stack => stack[n]?.map fun item => item :: stack

def opRoll : TapOp Unit := do
  let n ← popIndex
  rearrange fun stack => stack[n]?.map fun item => item :: stack.eraseIdx n

def opRot : TapOp Unit := rearrange fun
  | c :: b :: a :: rest => some (a :: c :: b :: rest)
  | _ => none

def opSwap : TapOp Unit := rearrange fun
  | b :: a :: rest => some (a :: b :: rest)
  | _ => none

def opTuck : TapOp Unit := rearrange fun
  | top :: second :: rest => some (top :: second :: top :: rest)
  | _ => none

def opSize : TapOp Unit := rearrange fun
  | top :: rest => some (encodeNumber (Int64.ofNat top.length) :: top :: rest)
  | _ => none

end Stack

section Arithmetic

/-- An opcode on the two elements on top; the second operand is the upper one. -/
def onPair (f : List UInt8 → List UInt8 → Except TapscriptError (List UInt8)) : TapOp Unit := do
  let b ← popStack
  let a ← popStack
  let result ← f a b
  push result

def unary (f : Int64 → Int64) : TapOp Unit := do
  let a ← popNumber
  push (encodeNumber (f a))

/-- An opcode on the two numbers on top. -/
def binary (f : Int64 → Int64 → List UInt8) : TapOp Unit :=
  onPair fun aBytes bBytes => do
    let b ← decodeNumber bBytes
    let a ← decodeNumber aBytes
    return f a b

/-- `OP_VERIFY` on the result of the opcode before it. -/
def opVerify : TapOp Unit := do
  let top ← popStack
  if !isTrue top then throw .verifyFailed

def opEqual : TapOp Unit := onPair fun a b => .ok (truth (a = b))
def opEqualverify : TapOp Unit := do
  opEqual
  opVerify
def op1add : TapOp Unit := unary (· + 1)
def op1sub : TapOp Unit := unary (· - 1)
def opNegate : TapOp Unit := unary (- ·)
def opAbs : TapOp Unit := unary Int64.abs
def opNot : TapOp Unit := do
  let a ← popStack
  push (truth (!isTrue a))
def op0notequal : TapOp Unit := do
  let a ← popStack
  push (truth (isTrue a))
def opAdd : TapOp Unit := binary fun a b => encodeNumber (a + b)
def opSub : TapOp Unit := binary fun a b => encodeNumber (a - b)
def opBooland : TapOp Unit := onPair fun a b => .ok (truth (isTrue a && isTrue b))
def opBoolor : TapOp Unit := onPair fun a b => .ok (truth (isTrue a || isTrue b))
def opNumequal : TapOp Unit := binary fun a b => truth (a = b)
def opNumequalverify : TapOp Unit := do
  opNumequal
  opVerify
def opNumnotequal : TapOp Unit := binary fun a b => truth (a ≠ b)
def opLessthan : TapOp Unit := binary fun a b => truth (a < b)
def opGreaterthan : TapOp Unit := binary fun a b => truth (b < a)
def opLessthanorequal : TapOp Unit := binary fun a b => truth (a ≤ b)
def opGreaterthanorequal : TapOp Unit := binary fun a b => truth (b ≤ a)
def opMin : TapOp Unit := binary fun a b => encodeNumber (if a ≤ b then a else b)
def opMax : TapOp Unit := binary fun a b => encodeNumber (if a ≤ b then b else a)

def opWithin : TapOp Unit := do
  let maxBytes ← popStack
  let minBytes ← popStack
  let xBytes ← popStack
  let max ← decodeNumber maxBytes
  let min ← decodeNumber minBytes
  let x ← decodeNumber xBytes
  push (truth (min ≤ x ∧ x < max))

end Arithmetic

section Signatures

variable (verifySchnorr : List UInt8 → Bytes32 → List UInt8 → Bool) (context : TapscriptContext)

/-- A key that is not empty takes its part of the budget. -/
def consumeBudget (pubkeyBytes : List UInt8) : TapOp Unit := do
  if pubkeyBytes ≠ [] then
    let s ← get
    if s.sigopsBudget < sigopsBudgetCost then throw .sigopsBudgetExceeded
    set { s with sigopsBudget := s.sigopsBudget - sigopsBudgetCost }

/-- The signature and its type; without a type byte it is `SIGHASH_DEFAULT`. -/
def splitSignature (sigBytes : List UInt8) : Except TapscriptError (List UInt8 × UInt8) :=
  if sigBytes.length = 65 then
    if sigBytes.getD 64 0 = 0x00 then .error .invalidSignature
    else .ok (sigBytes.take 64, sigBytes.getD 64 0)
  else if sigBytes.length = 64 then .ok (sigBytes, 0x00)
  else .error .invalidSignature

/-- Whether a signature that is not empty is one of the context's digest for its type. -/
def checkSchnorr (sigBytes pubkeyBytes : List UInt8) : Except TapscriptError Bool := do
  let (rawSig, sighashType) ← splitSignature sigBytes
  if pubkeyBytes.length ≠ 32 then throw .invalidPublicKey
  match context.getSighash sighashType with
  | none => throw .invalidSignature
  | some sighash => return verifySchnorr rawSig sighash pubkeyBytes

def opChecksig : TapOp Unit := do
  let pubkeyBytes ← popStack
  let sigBytes ← popStack
  consumeBudget pubkeyBytes
  if sigBytes = [] then push []
  else
    let valid ← checkSchnorr verifySchnorr context sigBytes pubkeyBytes
    push (truth valid)

def opChecksigadd : TapOp Unit := do
  let pubkeyBytes ← popStack
  let sigBytes ← popStack
  let nBytes ← popStack
  let n ← decodeNumber nBytes
  consumeBudget pubkeyBytes
  if sigBytes = [] then push (encodeNumber n)
  else
    let valid ← checkSchnorr verifySchnorr context sigBytes pubkeyBytes
    push (encodeNumber (if valid then n + 1 else n))

end Signatures

section FlowControl

/-- `OP_IF` and `OP_NOTIF`, by which truth of the element on top they enter their branch. -/
def branchOn (wanted : Bool) : TapOp Unit := do
  let s ← get
  if s.shouldExecute then
    let condition ← popStack
    modify fun s => { s with ifStack := (isTrue condition == wanted, false) :: s.ifStack }
  else modify fun s => { s with ifStack := (false, false) :: s.ifStack }

def opIf : TapOp Unit := branchOn true
def opNotif : TapOp Unit := branchOn false

def opElse : TapOp Unit := do
  let s ← get
  match s.ifStack with
  | [] => throw .elseWithoutIf
  | (executing, elseSeen) :: rest =>
      if elseSeen then throw .multipleElse
      else
        let outer := { s with ifStack := rest }
        set { s with ifStack := (outer.shouldExecute && !executing, true) :: rest }

def opEndif : TapOp Unit := do
  let s ← get
  match s.ifStack with
  | [] => throw .endifWithoutIf
  | _ :: rest => set { s with ifStack := rest }

end FlowControl

section Execution

variable (sha256 : Sha256) (verifySchnorr : List UInt8 → Bytes32 → List UInt8 → Bool)
variable (context : TapscriptContext)

def opSha256 : TapOp Unit := do
  let data ← popStack
  push (sha256 data).bytes

/-- The arms of the match of `execute_opcode` that neither push data nor read the position. The
two lock opcodes are among those that do nothing. -/
def opcodeTable : List (UInt8 × TapOp Unit) :=
  [(0x4f, push [0x81]),
   (0x6a, throw .opReturn),
   (0x6b, opToaltstack), (0x6c, opFromaltstack), (0x6d, op2drop), (0x6e, op2dup), (0x6f, op3dup),
   (0x70, op2over), (0x71, op2rot), (0x72, op2swap), (0x73, opIfdup), (0x74, opDepth),
   (0x75, opDrop), (0x76, opDup), (0x77, opNip), (0x78, opOver), (0x79, opPick), (0x7a, opRoll),
   (0x7b, opRot), (0x7c, opSwap), (0x7d, opTuck), (0x82, opSize), (0x87, opEqual),
   (0x88, opEqualverify), (0x8b, op1add), (0x8c, op1sub), (0x8f, opNegate), (0x90, opAbs),
   (0x91, opNot), (0x92, op0notequal), (0x93, opAdd), (0x94, opSub), (0x9a, opBooland),
   (0x9b, opBoolor), (0x9c, opNumequal), (0x9d, opNumequalverify), (0x9e, opNumnotequal),
   (0x9f, opLessthan), (0xa0, opGreaterthan), (0xa1, opLessthanorequal),
   (0xa2, opGreaterthanorequal), (0xa3, opMin), (0xa4, opMax), (0xa5, opWithin),
   (0xa8, opSha256 sha256), (0xac, opChecksig verifySchnorr context),
   (0xba, opChecksigadd verifySchnorr context),
   (0x63, opIf), (0x64, opNotif), (0x67, opElse), (0x68, opEndif), (0x69, opVerify),
   (0x61, throw (.disabledOpcode "OP_NOP")),
   (0x65, throw (.disabledOpcode "OP_VER family")),
   (0xae, throw (.disabledOpcode "OP_CHECKMULTISIG")),
   (0xaf, throw (.disabledOpcode "OP_CHECKMULTISIGVERIFY")),
   (0xb0, pure ()), (0xb1, pure ()), (0xb2, pure ()), (0xb3, pure ()), (0xb4, pure ()),
   (0xb5, pure ()), (0xb6, pure ()), (0xb7, pure ()), (0xb8, pure ()), (0xb9, pure ())]

/-- The `OP_SUCCESS` opcodes above `0x60`. -/
def isOpSuccess (opcode : UInt8) : Bool :=
  opcode = 0x62 || (0x7e ≤ opcode && opcode ≤ 0x81) || (0x83 ≤ opcode && opcode ≤ 0x86) ||
    (0x89 ≤ opcode && opcode ≤ 0x8a) || (0x8d ≤ opcode && opcode ≤ 0x8e) ||
    (0x95 ≤ opcode && opcode ≤ 0x99) || (0xbb ≤ opcode && opcode ≤ 0xfe)

/-- Push the `len` bytes at `pc`; the new position. -/
def pushBytes (script : List UInt8) (pc len : ℕ) : TapOp ℕ := do
  if pc + len > script.length then throw .unexpectedEndOfScript
  push ((script.drop pc).take len)
  return pc + len

/-- `OP_PUSHDATA1`. -/
def pushPrefixed (script : List UInt8) (pc : ℕ) : TapOp ℕ := do
  match script[pc]? with
  | none => throw .unexpectedEndOfScript
  | some len => do
      if pc + 1 + len.toNat > script.length then throw .unexpectedEndOfScript
      let data := (script.drop (pc + 1)).take len.toNat
      if data.length > maxElementSize then throw (.elementTooLarge data.length)
      push data
      return pc + 1 + len.toNat

/-- `execute_opcode`: `pc` is the position after the opcode, and the result the one to go on
from. An `OP_SUCCESS` goes on from the end of the script. -/
def executeOpcode (script : List UInt8) (opcode : UInt8) (pc : ℕ) : TapOp ℕ :=
  if opcode = 0x00 then do
    push []
    return pc
  else if opcode ≤ 0x4b then pushBytes script pc opcode.toNat
  else if opcode = 0x4c then pushPrefixed script pc
  else if 0x51 ≤ opcode ∧ opcode ≤ 0x60 then do
    push [opcode - 0x50]
    return pc
  else if opcode = 0xab then do
    modify fun s => { s with codeSeparatorPos := UInt32.ofNat (pc - 1) }
    return pc
  else if opcode = 0x50 ∨ isOpSuccess opcode then return script.length
  else
    match (opcodeTable sha256 verifySchnorr context).lookup opcode with
    | some op => do
        op
        return pc
    | none => throw (.unknownOpcode opcode)

def isCountedOp (opcode : UInt8) : Bool := 0x60 < opcode && !isOpSuccess opcode

/-- The position after an opcode that is not executed: the data of a direct push and of
`OP_PUSHDATA1` is passed over. -/
def skipOpcode (script : List UInt8) (opcode : UInt8) (pc : ℕ) : ℕ :=
  if 0x01 ≤ opcode ∧ opcode ≤ 0x4b then pc + opcode.toNat
  else if opcode = 0x4c then
    match script[pc]? with
    | some n => pc + (1 + n.toNat)
    | none => pc
  else pc

def countOp (opcode : UInt8) : TapOp Unit := do
  if isCountedOp opcode then
    let s ← get
    if s.opCount + 1 > maxOpsPerScript then throw (.tooManyOps (s.opCount + 1))
    set { s with opCount := s.opCount + 1 }

/-- The check after an opcode. -/
def checkStackSize : TapOp Unit := do
  let s ← get
  if s.stack.length > maxStackSize then throw .stackOverflow

/-- One turn of the loop of `execute`, at the opcode in front of `pc`. -/
def step (script : List UInt8) (opcode : UInt8) (pc : ℕ) : TapOp ℕ := do
  let s ← get
  if s.shouldExecute then do
    countOp opcode
    let next ← executeOpcode sha256 verifySchnorr context script opcode pc
    checkStackSize
    return next
  else if isFlowControlOp opcode then executeOpcode sha256 verifySchnorr context script opcode pc
  else return skipOpcode script opcode pc

/-- The loop of `execute` from `pc`, for at most `fuel` turns. -/
def executeFrom (script : List UInt8) : ℕ → ℕ → TapOp Unit
  | 0, _ => return
  | fuel + 1, pc =>
      match script[pc]? with
      | none => return
      | some opcode => do
          let next ← step sha256 verifySchnorr context script opcode (pc + 1)
          executeFrom script fuel next

/-- The witness put on the stack, its last element on top. -/
def loadWitness : List (List UInt8) → TapOp Unit
  | [] => return
  | element :: rest => do
      if element.length > maxElementSize then throw (.elementTooLarge element.length)
      push element
      loadWitness rest

/-- Whether the script leaves a true element on top. -/
def finish : TapOp Bool := do
  let s ← get
  if s.ifStack ≠ [] then throw .unbalancedConditional
  return s.stack.head?.any isTrue

/-- `execute`. Every turn moves on, so the length of the script is enough fuel. -/
def execute (script : List UInt8) (witness : List (List UInt8)) : TapOp Bool := do
  loadWitness witness
  executeFrom sha256 verifySchnorr context script script.length 0
  finish

end Execution

section Runs

variable (sha256 : Sha256) (verifySchnorr : List UInt8 → Bytes32 → List UInt8 → Bool)
variable (context : TapscriptContext) (script : List UInt8)

/-- The loop of `execute`, standing at the first position in the first state, comes to stand at the
second position in the second state. -/
inductive Visits : ℕ → TapscriptInterpreter → ℕ → TapscriptInterpreter → Prop
  | here (pc : ℕ) (s : TapscriptInterpreter) : Visits pc s pc s
  | turn {pc next last : ℕ} {s mid final : TapscriptInterpreter} {opcode : UInt8}
      (read : script[pc]? = some opcode)
      (run : step sha256 verifySchnorr context script opcode (pc + 1) s = .ok (next, mid))
      (rest : Visits next mid last final) : Visits pc s last final

variable {sha256 verifySchnorr context script} {pc : ℕ} {opcode : UInt8} {s : TapscriptInterpreter}

theorem pushBytes_progress {len : ℕ} : Ensures (pushBytes script pc len) s fun next _ => pc ≤ next := by
  simp [pushBytes, push]

theorem pushPrefixed_progress : Ensures (pushPrefixed script pc) s fun next _ => pc ≤ next := by
  unfold pushPrefixed
  cases hlen : script[pc]? with
  | none => simp
  | some len =>
    simp only [push, ensures_bind, ensures_ite, ensures_throw, ensures_modify, ensures_pure]
    exact ⟨fun _ => trivial, fun _ => ⟨fun _ => trivial, fun _ => by omega⟩⟩

theorem executeOpcode_progress (inside : pc ≤ script.length) :
    Ensures (executeOpcode sha256 verifySchnorr context script opcode pc) s fun next _ => pc ≤ next := by
  unfold executeOpcode
  split
  · simp [push]
  split
  · exact pushBytes_progress
  split
  · exact pushPrefixed_progress
  split
  · simp [push]
  split
  · simp
  split
  · simpa using inside
  cases (opcodeTable sha256 verifySchnorr context).lookup opcode with
  | none => simp
  | some op =>
    rw [ensures_bind]
    exact ensures_of_forall fun _ _ => by simp

theorem le_skipOpcode : pc ≤ skipOpcode script opcode pc := by
  unfold skipOpcode
  split
  · omega
  split
  · split
    · omega
    · exact le_rfl
  · exact le_rfl

theorem step_progress (read : script[pc]? = some opcode) :
    Ensures (step sha256 verifySchnorr context script opcode (pc + 1)) s fun next _ => pc + 1 ≤ next := by
  have inside : pc < script.length := (List.getElem?_eq_some_iff.mp read).1
  have forward := fun s => @executeOpcode_progress sha256 verifySchnorr context script (pc + 1) opcode s (by omega)
  unfold step
  simp only [ensures_bind, ensures_get, ensures_ite, ensures_pure]
  refine ⟨fun _ => ensures_of_forall fun _ mid => (forward mid).mono fun next _ hnext => ?_, fun _ =>
    ⟨fun _ => forward s, fun _ => le_skipOpcode⟩⟩
  exact ensures_of_forall fun _ _ => hnext

theorem executeFrom_turn {fuel : ℕ} (read : script[pc]? = some opcode) :
    executeFrom sha256 verifySchnorr context script (fuel + 1) pc =
      step sha256 verifySchnorr context script opcode (pc + 1) >>=
        executeFrom sha256 verifySchnorr context script fuel := by
  rw [executeFrom, read]

theorem executeFrom_end {fuel : ℕ} (ended : script[pc]? = none) :
    executeFrom sha256 verifySchnorr context script fuel pc = pure () := by
  cases fuel with
  | zero => rfl
  | succ fuel => rw [executeFrom, ended]

end Runs

end KuberCoin.Tapscripts
