import KuberCoin.AssumeValid
import KuberCoin.ScriptHashSpends
import KuberCoin.Tapscripts

/-!
Spending a taproot output by one of its leaf scripts (crate `tx`, `taproot.rs`, and the script
path of `verify_input_signature`). The control block must commit the output key to the leaf
script, which then runs on the rest of the witness. The interpreter leaves the two lock opcodes
to a check of the transaction, and no such check exists: a leaf script succeeds whatever the
lock time and the sequences of the transaction are.
-/
namespace KuberCoin.TaprootSpends

open Bytes Transactions UtxoSets Validator Sighashes InputScripts Tapscripts FailingPrograms
open ScriptHashSpends (mapError_eq_ok)
open ScriptInterpreters (hexByte bytesToInt checkLocktime checkSequence ScriptInterpreterError sequenceDisableFlag)

section Commitment

/-- The errors of `taproot.rs` that a script path meets. -/
inductive TaprootError
  | invalidInternalKey
  | tweakOutOfRange
  | invalidControlBlockSize (size : ℕ)
  | invalidLeafVersion (version : UInt8)
  deriving DecidableEq

def TaprootError.message : TaprootError → String
  | invalidInternalKey => "Invalid internal key (x-only key parsing failed)"
  | tweakOutOfRange => "Tweak value out of range for secp256k1"
  | invalidControlBlockSize size => s!"Invalid control block size: {size} (must be 33 + N*32)"
  | invalidLeafVersion version => "Invalid leaf version: 0x" ++ hexByte version

/-- The x-only keys of the curve library. -/
structure XOnlyKeys where
  /-- `XOnlyPublicKey::from_slice` finds a key. -/
  parses : List UInt8 → Bool
  /-- `Scalar::from_be_bytes` finds a scalar. -/
  inRange : Bytes32 → Bool
  /-- `add_tweak`, with the bytes of the key it returns. -/
  addTweak : List UInt8 → Bytes32 → Option (List UInt8)

structure ControlBlock where
  leafVersion : UInt8
  parity : Bool
  internalKey : List UInt8
  merkleProof : List (List UInt8)
  deriving DecidableEq

def ControlBlock.new (leafVersion : UInt8) (parity : Bool) (internalKey : List UInt8)
    (merkleProof : List (List UInt8)) : Except TaprootError ControlBlock :=
  if leafVersion > 0xfe ∨ leafVersion &&& 1 ≠ 0 then .error (.invalidLeafVersion leafVersion)
  else .ok ⟨leafVersion, parity, internalKey, merkleProof⟩

def ControlBlock.fromBytes (bytes : List UInt8) : Except TaprootError ControlBlock :=
  if bytes.length < 33 then .error (.invalidControlBlockSize bytes.length)
  else if (bytes.length - 33) % 32 ≠ 0 then .error (.invalidControlBlockSize bytes.length)
  else
    let firstByte := bytes.getD 0 0
    let proof := (List.range ((bytes.length - 33) / 32)).map fun i => (bytes.drop (33 + i * 32)).take 32
    ControlBlock.new (firstByte &&& 0xfe) (firstByte &&& 1 ≠ 0) ((bytes.drop 1).take 32) proof

variable (sha256 : Sha256)

/-- `TapBranch::hash`: the children in lexicographic order. -/
def branchHash (left right : List UInt8) : Bytes32 :=
  let (min, max) := if compareBytes left right = .gt then (right, left) else (left, right)
  taggedHash sha256 "TapBranch".toUTF8.toList (min ++ max)

def computeTaptweak (internalKey : List UInt8) (commitment : Option Bytes32) : Bytes32 :=
  taggedHash sha256 "TapTweak".toUTF8.toList (internalKey ++ (commitment.map Bytes32.bytes).getD [])

def tweakPublicKey (keys : XOnlyKeys) (internalKey : List UInt8) (commitment : Option Bytes32) :
    Except TaprootError (List UInt8) :=
  if !keys.parses internalKey then .error .invalidInternalKey
  else
    let tweak := computeTaptweak sha256 internalKey commitment
    if !keys.inRange tweak then .error .tweakOutOfRange
    else
      match keys.addTweak internalKey tweak with
      | none => .error .tweakOutOfRange
      | some outputKey => .ok outputKey

/-- The root of the tree that holds the leaf, by its proof. -/
def merkleRoot (leafHash : Bytes32) (proof : List (List UInt8)) : Bytes32 :=
  proof.foldl (fun current sibling => branchHash sha256 current.bytes sibling) leafHash

/-- The checks of a script path before its script runs: the control block it names. -/
def checkCommitment (keys : XOnlyKeys) (controlBytes script outputKey : List UInt8) :
    Except ValidationError ControlBlock := do
  let block ← (ControlBlock.fromBytes controlBytes).mapError fun e =>
    .invalidScript ("bad control block: " ++ e.message)
  require (block.leafVersion = 0xc0)
    (.invalidScript ("unsupported leaf version 0x" ++ hexByte block.leafVersion))
  let root := merkleRoot sha256 ((TapLeaf.tapscript script).hash sha256) block.merkleProof
  let expected ← (tweakPublicKey sha256 keys block.internalKey (some root)).mapError fun e =>
    .invalidScript ("tweak failed: " ++ e.message)
  require (expected = outputKey) (.invalidScript "Taproot output key mismatch")
  return block

end Commitment

section ScriptPath

variable (keys : XOnlyKeys) (eng : Engine)

/-- The types whose digests are computed beforehand. -/
def standardTypes : List UInt8 := [0x01, 0x02, 0x03, 0x81, 0x82, 0x83]

/-- The context a leaf script runs in: one digest for each type. -/
def leafContext (digests : UInt8 → Except String Bytes32) (internalKey script : List UInt8) :
    Except ValidationError TapscriptContext := do
  let sighash ← asInvalidScript (digests 0x00)
  return { sighash := sighash
           internalKey := internalKey
           tapleaf := TapLeaf.tapscript script
           sighashMap := standardTypes.filterMap fun t => (digests t).toOption.map fun d => (t, d) }

/-- A leaf script run on its part of the witness, in a new interpreter. -/
def runLeaf (context : TapscriptContext) (script : List UInt8) (inputs : List (List UInt8)) :
    Except ValidationError Bool := do
  let start ← (TapscriptInterpreter.new script).mapError fun e =>
    .invalidScript ("tapscript init: " ++ e.message)
  let result ← (execute eng.sha256 eng.verifySchnorr context script inputs start).mapError fun e =>
    .invalidScript ("tapscript exec: " ++ e.message)
  return result.1

/-- The script path of `verify_input_signature`. -/
def verifyScriptPath (controlBytes script : List UInt8) (inputs : List (List UInt8))
    (outputKey : List UInt8) (digests : UInt8 → Except String Bytes32) (index : ℕ) :
    Except ValidationError Unit := do
  let block ← checkCommitment eng.sha256 keys controlBytes script outputKey
  let context ← leafContext digests block.internalKey script
  let result ← runLeaf eng context script inputs
  require result (.invalidSignature index)

/-- Input verification with the script path in place. -/
def taprootEngine : Engine := { eng with tapscript := verifyScriptPath keys eng }

end ScriptPath

section Locks

variable {opcode : UInt8} {b : Bool} {final : TapscriptInterpreter} {n : Int64}

/-- What the interpreter of other scripts requires of a number at one of the two lock opcodes. -/
def lockRule (tx : Transaction) (index : ℕ) (opcode : UInt8) (n : Int64) : Except ScriptInterpreterError Unit :=
  if opcode = 0xb1 then checkLocktime tx index n
  else if opcode = 0xb2 then checkSequence tx index n
  else .ok ()

/-- The number on top of the stack, in a branch that is executed. -/
def numberOnTop (s : TapscriptInterpreter) : Option Int64 :=
  if s.shouldExecute then s.stack.head?.bind fun top => (bytesToInt top).toOption else none

/-- The interpreter as it stands before the first opcode. -/
def startLeaf (script : List UInt8) (inputs : List (List UInt8)) : Except TapscriptError TapscriptInterpreter := do
  let start ← TapscriptInterpreter.new script
  let (_, loaded) ← loadWitness inputs start
  return loaded

variable (eng : Engine) (context : TapscriptContext) (script : List UInt8)

/-- From here on, the loop reaches only locks that the transaction meets. -/
def MetFrom (tx : Transaction) (index pc : ℕ) (s : TapscriptInterpreter) : Prop :=
  ∀ last final opcode n, Visits eng.sha256 eng.verifySchnorr context script pc s last final →
    script[last]? = some opcode → numberOnTop final = some n → lockRule tx index opcode n = .ok ()

/-- The run of a leaf script reaches only locks that the transaction meets. -/
def LocksMet (tx : Transaction) (index : ℕ) (inputs : List (List UInt8)) : Prop :=
  ∀ start, startLeaf script inputs = .ok start → MetFrom eng context script tx index 0 start

/-- The lock opcodes as the other interpreter has them, in front of the opcode that does nothing. -/
def checkLocks (tx : Transaction) (index : ℕ) (opcode : UInt8) : TapOp Unit := do
  let s ← get
  match numberOnTop s with
  | none => return
  | some n =>
      match lockRule tx index opcode n with
      | .ok _ => return
      | .error _ => throw .verifyFailed

/-- The loop of `execute` with locks that are checked. -/
def checkedFrom (tx : Transaction) (index : ℕ) : ℕ → ℕ → TapOp Unit
  | 0, _ => return
  | fuel + 1, pc =>
      match script[pc]? with
      | none => return
      | some opcode => do
          checkLocks tx index opcode
          let next ← step eng.sha256 eng.verifySchnorr context script opcode (pc + 1)
          checkedFrom tx index fuel next

/-- The leaf script, with locks that are checked, succeeds. -/
def CheckedLeaf (tx : Transaction) (index : ℕ) (inputs : List (List UInt8)) : Prop :=
  ∃ start final, startLeaf script inputs = .ok start ∧
    checkedFrom eng context script tx index script.length 0 start = .ok ((), final) ∧
    finish final = .ok (true, final)

/-- The run reaches no lock that a transaction may fail to meet: no `OP_CHECKLOCKTIMEVERIFY` with a
number, and no `OP_CHECKSEQUENCEVERIFY` with a number that does not disable it. -/
def LockFree (inputs : List (List UInt8)) : Prop :=
  ∀ start last final opcode n, startLeaf script inputs = .ok start →
    Visits eng.sha256 eng.verifySchnorr context script 0 start last final → script[last]? = some opcode →
    numberOnTop final = some n → opcode ≠ 0xb1 ∧
      (opcode = 0xb2 → 0 ≤ n ∧ n ≤ 0xffffffff ∧ n.toUInt64.toUInt32 &&& sequenceDisableFlag ≠ 0)

variable {eng context script} {tx : Transaction} {index pc : ℕ} {s : TapscriptInterpreter} {inputs : List (List UInt8)}

theorem checkLocks_eq_ok {s' : TapscriptInterpreter} : checkLocks tx index opcode s = .ok ((), s') ↔
      s' = s ∧ ∀ n, numberOnTop s = some n → lockRule tx index opcode n = .ok () := by
  unfold checkLocks
  rw [get_bind]
  cases htop : numberOnTop s with
  | none =>
    show (Except.ok ((), s) : Except TapscriptError (Unit × TapscriptInterpreter)) = .ok ((), s') ↔ _
    simpa using eq_comm
  | some n =>
    cases hrule : lockRule tx index opcode n with
    | ok _ =>
      simp only [hrule]
      show (Except.ok ((), s) : Except TapscriptError (Unit × TapscriptInterpreter)) = .ok ((), s') ↔ _
      simpa [hrule] using eq_comm
    | error e => simp [hrule, throw, throwThe, MonadExceptOf.throw, StateT.lift, bind, Except.bind]

theorem metFrom_turn (read : script[pc]? = some opcode) : MetFrom eng context script tx index pc s ↔
      (∀ n, numberOnTop s = some n → lockRule tx index opcode n = .ok ()) ∧
        ∀ next mid, step eng.sha256 eng.verifySchnorr context script opcode (pc + 1) s = .ok (next, mid) →
          MetFrom eng context script tx index next mid := by
  constructor
  · intro h
    refine ⟨fun n htop => h pc s opcode n (.here pc s) read htop, fun next mid run last final op n hvisit => ?_⟩
    exact h last final op n (.turn read run hvisit)
  · rintro ⟨hhere, hnext⟩ last final op n hvisit hread htop
    cases hvisit with
    | here =>
      rw [read] at hread
      cases hread
      exact hhere n htop
    | turn read' run rest =>
      rw [read] at read'
      cases read'
      exact hnext _ _ run last final op n rest hread htop

theorem metFrom_end (ended : script[pc]? = none) : MetFrom eng context script tx index pc s := by
  intro last final opcode n hvisit hread htop
  cases hvisit with
  | here => simp [ended] at hread
  | turn read _ _ => simp [ended] at read

/-- The checked loop succeeds exactly where the loop does and all locks are met. -/
theorem checkedFrom_eq_ok {fuel : ℕ} {final : TapscriptInterpreter} (enough : script.length ≤ pc + fuel) :
    checkedFrom eng context script tx index fuel pc s = .ok ((), final) ↔
      executeFrom eng.sha256 eng.verifySchnorr context script fuel pc s = .ok ((), final) ∧
        MetFrom eng context script tx index pc s := by
  induction fuel generalizing pc s with
  | zero =>
    have hmet : MetFrom eng context script tx index pc s := metFrom_end (List.getElem?_eq_none (by omega))
    simp [checkedFrom, executeFrom, hmet]
  | succ fuel ih =>
    cases read : script[pc]? with
    | none => simp [checkedFrom, executeFrom_end read, read, metFrom_end read]
    | some opcode =>
      rw [checkedFrom, read, executeFrom_turn read, metFrom_turn read, bind_eq_ok, bind_eq_ok]
      have forward := fun next mid (run : step eng.sha256 eng.verifySchnorr context script opcode (pc + 1) s =
          .ok (next, mid)) => (step_progress read).apply run
      constructor
      · rintro ⟨_, _, hchecked, hturn⟩
        obtain ⟨rfl, hlock⟩ := checkLocks_eq_ok.mp hchecked
        obtain ⟨next, mid, run, rest⟩ := bind_eq_ok.mp hturn
        obtain ⟨hrest, hmet⟩ := (ih (by have := forward next mid run; omega)).mp rest
        refine ⟨⟨next, mid, run, hrest⟩, hlock, fun next' mid' run' => ?_⟩
        rw [run] at run'
        cases run'
        exact hmet
      · rintro ⟨⟨next, mid, run, rest⟩, hlock, hmet⟩
        have hrest := (ih (by have := forward next mid run; omega)).mpr ⟨rest, hmet next mid run⟩
        exact ⟨(), s, checkLocks_eq_ok.mpr ⟨rfl, hlock⟩, bind_eq_ok.mpr ⟨next, mid, run, hrest⟩⟩

theorem finish_eq_ok (h : finish s = .ok (b, final)) : final = s := by
  unfold finish at h
  simp only [get_bind] at h
  split at h
  · cases h
  · cases h
    rfl

theorem execute_eq_ok : execute eng.sha256 eng.verifySchnorr context script inputs s = .ok (b, final) ↔
      ∃ start, loadWitness inputs s = .ok ((), start) ∧
        executeFrom eng.sha256 eng.verifySchnorr context script script.length 0 start = .ok ((), final) ∧
        finish final = .ok (b, final) := by
  rw [execute, bind_eq_ok]
  constructor
  · rintro ⟨⟨⟩, start, hstart, hrest⟩
    obtain ⟨⟨⟩, mid, hrun, hfinish⟩ := bind_eq_ok.mp hrest
    obtain rfl := finish_eq_ok hfinish
    exact ⟨start, hstart, hrun, hfinish⟩
  · rintro ⟨start, hstart, hrun, hfinish⟩
    exact ⟨(), start, hstart, bind_eq_ok.mpr ⟨(), final, hrun, hfinish⟩⟩

theorem startLeaf_eq_ok {start : TapscriptInterpreter} : startLeaf script inputs = .ok start ↔
      ∃ s, TapscriptInterpreter.new script = .ok s ∧ loadWitness inputs s = .ok ((), start) := by
  unfold startLeaf
  rw [except_bind_eq_ok]
  refine exists_congr fun s => and_congr_right fun _ => ?_
  rw [except_bind_eq_ok]
  constructor
  · rintro ⟨⟨⟨⟩, loaded⟩, hload, hstart⟩
    cases hstart
    exact hload
  · intro hload
    exact ⟨((), start), hload, rfl⟩

theorem runLeaf_eq_ok :
    runLeaf eng context script inputs = .ok true ↔ ∃ start final, startLeaf script inputs = .ok start ∧
      executeFrom eng.sha256 eng.verifySchnorr context script script.length 0 start = .ok ((), final) ∧
      finish final = .ok (true, final) := by
  unfold runLeaf
  simp only [except_bind_eq_ok, mapError_eq_ok, startLeaf_eq_ok]
  constructor
  · rintro ⟨s, hnew, ⟨b, final⟩, hrun, hb⟩
    cases hb
    obtain ⟨start, hload, hloop, hfinish⟩ := execute_eq_ok.mp hrun
    exact ⟨start, final, ⟨s, hnew, hload⟩, hloop, hfinish⟩
  · rintro ⟨start, final, ⟨s, hnew, hload⟩, hloop, hfinish⟩
    exact ⟨s, hnew, (true, final), execute_eq_ok.mpr ⟨start, hload, hloop, hfinish⟩, rfl⟩

/-- A leaf script succeeds with checked locks exactly where it succeeds and the transaction meets the
locks it reaches. -/
theorem checkedLeaf_iff : CheckedLeaf eng context script tx index inputs ↔
      runLeaf eng context script inputs = .ok true ∧ LocksMet eng context script tx index inputs := by
  rw [runLeaf_eq_ok]
  have hchecked := fun start final =>
    @checkedFrom_eq_ok eng context script tx index 0 start script.length final (by omega)
  constructor
  · rintro ⟨start, final, hstart, hrun, hfinish⟩
    obtain ⟨hloop, hmet⟩ := (hchecked start final).mp hrun
    refine ⟨⟨start, final, hstart, hloop, hfinish⟩, fun start' hstart' => ?_⟩
    rw [hstart] at hstart'
    cases hstart'
    exact hmet
  · rintro ⟨⟨start, final, hstart, hloop, hfinish⟩, hmet⟩
    exact ⟨start, final, hstart, (hchecked start final).mpr ⟨hloop, hmet start hstart⟩, hfinish⟩

/-- A transaction whose one input is final. -/
def finalTx : Transaction := ⟨1, [⟨⟨Bytes32.zero, 0⟩, [], 0xffffffff, ⟨[]⟩⟩], [], 0⟩

theorem finalTx_unlocked : checkLocktime finalTx 0 n ≠ .ok () := by
  unfold checkLocktime
  by_cases hneg : n < 0
  · simp [hneg, bind, Except.bind, throw, throwThe, MonadExceptOf.throw]
  · simp [hneg, finalTx, bind, Except.bind, throw, throwThe, MonadExceptOf.throw]

theorem checkSequence_finalTx (h : checkSequence finalTx 0 n = .ok ()) :
    0 ≤ n ∧ n ≤ 0xffffffff ∧ n.toUInt64.toUInt32 &&& sequenceDisableFlag ≠ 0 := by
  unfold checkSequence at h
  by_cases hneg : n < 0
  · simp [hneg, bind, Except.bind, throw, throwThe, MonadExceptOf.throw] at h
  by_cases hlarge : n > 0xffffffff
  · simp [hneg, hlarge, bind, Except.bind, throw, throwThe, MonadExceptOf.throw] at h
  by_cases hflag : n.toUInt64.toUInt32 &&& sequenceDisableFlag = 0
  · have hdisabled : (0xffffffff : UInt32) &&& sequenceDisableFlag ≠ 0 := by decide
    simp [hneg, hlarge, hflag, hdisabled, finalTx, bind, Except.bind, throw, throwThe, MonadExceptOf.throw] at h
  · exact ⟨Int64.not_lt.mp hneg, Int64.not_lt.mp hlarge, hflag⟩

theorem checkSequence_disabled (hpos : 0 ≤ n) (hle : n ≤ 0xffffffff)
    (hflag : n.toUInt64.toUInt32 &&& sequenceDisableFlag ≠ 0) : checkSequence tx index n = .ok () := by
  unfold checkSequence
  simp [Int64.not_lt.mpr hpos, Int64.not_lt.mpr hle, hflag, pure, Except.pure]

/-- As the interpreter sees nothing of a transaction but its digests, all transactions meet the locks
of a leaf script only if there are none. -/
theorem locksMet_iff_lockFree : (∀ tx index, index < tx.inputs.length → LocksMet eng context script tx index inputs) ↔
      LockFree eng context script inputs := by
  constructor
  · intro h start last final opcode n hstart hvisit hread htop
    have hrule := h finalTx 0 (by decide) start hstart last final opcode n hvisit hread htop
    unfold lockRule at hrule
    constructor
    · rintro rfl
      exact finalTx_unlocked (by simpa using hrule)
    · rintro rfl
      exact checkSequence_finalTx (by simpa using hrule)
  · intro h tx index _ start hstart last final opcode n hvisit hread htop
    obtain ⟨hcltv, hcsv⟩ := h start last final opcode n hstart hvisit hread htop
    unfold lockRule
    rw [if_neg hcltv]
    split
    next hop =>
      obtain ⟨hpos, hle, hflag⟩ := hcsv hop
      exact checkSequence_disabled hpos hle hflag
    next => rfl

end Locks

section Spends

variable {checks : ScriptChecks} {clock : UInt64} {tx : Transaction} {u : UtxoSet} {height : ℕ}
  {mtp : Option (ℕ → UInt64)}

theorem validateInputs_signatures {amounts : List UInt64} {scripts : List (List UInt8)} {index : ℕ} {sum total : UInt64}
    {inputs : List TxInput} (h : validateInputs checks tx u height mtp amounts scripts index sum inputs = .ok total) :
    ∀ (k : ℕ) i c, inputs[k]? = some i → u.lookup i.prevOutput = some c →
      checks.verifyInputSignature tx (index + k) c amounts scripts = .ok () := by
  induction inputs generalizing index sum with
  | nil =>
    intro k i c hi
    simp at hi
  | cons first rest ih =>
    simp only [validateInputs, bind_eq_ok_iff, BlockEffects.getUtxo_eq_ok_iff] at h
    obtain ⟨c', hc', -, -, -, -, ⟨⟩, hsig, hrest⟩ := h
    intro k i c hi hc
    cases k with
    | zero =>
      cases hi
      rw [hc'] at hc
      cases hc
      exact hsig
    | succ k =>
      split at hrest
      next sum' _ =>
        have := ih hrest k i c hi hc
        rwa [show index + 1 + k = index + (k + 1) from by omega] at this
      next => cases hrest

theorem signaturesPass_of_accepted (hcoinbase : tx.isCoinbase = false)
    (h : validateTransactionCached checks clock tx u height mtp = .ok ()) : AssumeValid.SignaturesPass checks u tx := by
  intro spent hspent index i c hi hc
  simp only [validateTransactionCached, hcoinbase, Bool.false_eq_true, if_false,
    bind_eq_ok_iff] at h
  obtain ⟨-, -, -, -, -, -, spent', hspent', inputSum, hinputs, -⟩ := h
  rw [hspent] at hspent'
  cases hspent'
  have := validateInputs_signatures hinputs index i c hi hc
  rwa [Nat.zero_add] at this

def IsTaproot (spk : List UInt8) : Prop := spk.length = 34 ∧ spk.getD 0 0 = 0x51 ∧ spk.getD 1 0 = 0x20

instance (spk : List UInt8) : Decidable (IsTaproot spk) := inferInstanceAs (Decidable (_ ∧ _))

/-- An input of a transaction spends a taproot output by a leaf script, which runs on these elements of
the witness in this context. -/
structure SpendsLeaf (eng : Engine) (tx : Transaction) (u : UtxoSet) (index : ℕ) (script : List UInt8)
    (inputs : List (List UInt8)) (context : TapscriptContext) : Prop where
  ordinary : tx.isCoinbase = false
  spends : ∃ i c spent control block, tx.inputs[index]? = some i ∧ u.lookup i.prevOutput = some c ∧
    IsTaproot c.output.scriptPubkey ∧ prevouts u tx.inputs = .ok spent ∧
    effectiveStack i.witness.stack = inputs ++ [script, control] ∧ ControlBlock.fromBytes control = .ok block ∧
    leafContext (taprootSignatureHash eng.sha256 tx index (spent.map fun c => c.output.value)
      (spent.map fun c => c.output.scriptPubkey)) block.internalKey script = .ok context

variable {keys : XOnlyKeys} {eng : Engine} {index : ℕ} {script control : List UInt8} {inputs : List (List UInt8)}
  {context : TapscriptContext} {amounts : List UInt64} {scripts : List (List UInt8)}

theorem verifyOutput_taproot {output : TxOutput} {i : TxInput} (hi : tx.inputs[index]? = some i)
    (htaproot : IsTaproot output.scriptPubkey) : verifyOutput eng tx index output amounts scripts =
      verifyTaproot eng tx index (output.scriptPubkey.drop 2) amounts scripts i.witness.stack := by
  obtain ⟨hlength, hversion, hpush⟩ := htaproot
  have hkey : isP2wpkh output.scriptPubkey = false := by simp [isP2wpkh, hlength]
  have hscript : isP2wsh output.scriptPubkey = false := by
    simp only [isP2wsh, hversion, Bool.and_eq_false_iff, decide_eq_false_iff_not]
    exact .inl (.inr (by decide))
  rw [verifyOutput, hi]
  simp only [hkey, hscript, Bool.false_eq_true, if_false]
  rw [if_pos ⟨hlength, hversion, hpush⟩]

theorem verifyTaproot_leaf {outputKey : List UInt8} {witness : List (List UInt8)}
    (hstack : effectiveStack witness = inputs ++ [script, control]) :
    verifyTaproot eng tx index outputKey amounts scripts witness =
      eng.tapscript control script inputs outputKey
        (taprootSignatureHash eng.sha256 tx index amounts scripts) index := by
  have hlength : (inputs ++ [script, control]).length = inputs.length + 2 := by simp
  have hnotkey : ¬ ((inputs ++ [script, control]).length = 1 ∧
      (((inputs ++ [script, control]).getD 0 []).length = 64 ∨
        ((inputs ++ [script, control]).getD 0 []).length = 65)) := by
    rintro ⟨hone, -⟩
    omega
  simp only [verifyTaproot, hstack]
  rw [if_neg hnotkey, if_pos (by omega), hlength]
  simp

theorem SpendsLeaf.runs (hspend : SpendsLeaf eng tx u index script inputs context)
    (haccepted : validateTransactionCached (scriptChecks (taprootEngine keys eng)) clock tx u height mtp = .ok ()) :
    runLeaf eng context script inputs = .ok true := by
  obtain ⟨i, c, spent, control, block, hi, hc, htaproot, hspent, hstack, hblock, hcontext⟩ := hspend.spends
  have hverified := signaturesPass_of_accepted hspend.ordinary haccepted spent hspent index i c hi hc
  simp only [scriptChecks] at hverified
  rw [verifyOutput_taproot hi htaproot, verifyTaproot_leaf hstack] at hverified
  simp only [taprootEngine, verifyScriptPath, bind_eq_ok_iff, require_eq_ok_iff] at hverified
  obtain ⟨block', hcommit, context', hcontext', result, hrun, rfl⟩ := hverified
  obtain rfl : block = block' := by
    simp only [checkCommitment, bind_eq_ok_iff, mapError_eq_ok, hblock] at hcommit
    obtain ⟨_, ⟨⟩, _, -, _, -, _, -, ⟨⟩⟩ := hcommit
    rfl
  rw [hcontext] at hcontext'
  cases hcontext'
  exact hrun

/-- The locks of an accepted transaction are met exactly if its leaf scripts also succeed with locks
that are checked; and whatever the transaction is, only if they reach none. -/
theorem tapscript_locks_met_iff (keys : XOnlyKeys) (eng : Engine) : (∀ clock tx u height mtp,
      validateTransactionCached (scriptChecks (taprootEngine keys eng)) clock tx u height mtp = .ok () →
      ((∀ index script inputs context, SpendsLeaf eng tx u index script inputs context →
          LocksMet eng context script tx index inputs) ↔
        ∀ index script inputs context, SpendsLeaf eng tx u index script inputs context →
          CheckedLeaf eng context script tx index inputs)) ∧
    ∀ script inputs context, runLeaf eng context script inputs = .ok true →
      ((∀ tx index, index < tx.inputs.length → LocksMet eng context script tx index inputs) ↔
        LockFree eng context script inputs) := by
  constructor
  · intro clock tx u height mtp haccepted
    constructor
    · intro hmet index script inputs context hspend
      exact checkedLeaf_iff.mpr ⟨hspend.runs haccepted, hmet index script inputs context hspend⟩
    · intro hchecked index script inputs context hspend
      exact (checkedLeaf_iff.mp (hchecked index script inputs context hspend)).2
  · intro script inputs context _
    exact locksMet_iff_lockFree

end Spends

section UnmetLock

/-- `1000 OP_CHECKLOCKTIMEVERIFY OP_CHECKSEQUENCEVERIFY`. -/
def lockScript : List UInt8 := [0x02, 0xe8, 0x03, 0xb1, 0xb2]

/-- The generator of the curve, as an x-only key. -/
def generatorKey : List UInt8 :=
  [0x79, 0xbe, 0x66, 0x7e, 0xf9, 0xdc, 0xbb, 0xac, 0x55, 0xa0, 0x62, 0x95, 0xce, 0x87, 0x0b, 0x07,
   0x02, 0x9b, 0xfc, 0xdb, 0x2d, 0xce, 0x28, 0xd9, 0x59, 0xf2, 0x81, 0x5b, 0x16, 0xf8, 0x17, 0x98]

/-- The tweak of this key by the tree with the lock script as its one leaf. -/
def lockTweak : List UInt8 :=
  [0x46, 0xb0, 0xd0, 0x85, 0x56, 0x3e, 0x2f, 0x29, 0x1f, 0x38, 0x7a, 0xfd, 0x45, 0x39, 0xbe, 0x03,
   0xec, 0x87, 0x58, 0xe8, 0x91, 0xb4, 0x91, 0x2f, 0x36, 0x8d, 0x74, 0xad, 0x2a, 0x1b, 0x51, 0x93]

/-- The key plus this multiple of the generator. -/
def lockedKey : List UInt8 :=
  [0x20, 0x6d, 0x0c, 0x6c, 0x79, 0x36, 0xbe, 0x16, 0xcd, 0xe2, 0xcd, 0x95, 0xde, 0x90, 0xbe, 0x9f,
   0xb0, 0xc7, 0x95, 0xdd, 0xe6, 0x1e, 0xab, 0xfc, 0xd9, 0xfd, 0xf5, 0xa6, 0x2d, 0x14, 0x82, 0x52]

/-- The curve library on this key and this tweak. -/
def generatorKeys : XOnlyKeys where
  parses key := key = generatorKey
  inRange tweak := tweak.bytes = lockTweak
  addTweak key tweak := if key = generatorKey ∧ tweak.bytes = lockTweak then some lockedKey else none

def lockedOutput : TxOutput := ⟨1000, [0x51, 0x20] ++ lockedKey⟩

def lockedSet : UtxoSet := (∅ : UtxoSet).insert ⟨Bytes32.zero, 0⟩ ⟨lockedOutput, 1, false⟩

/-- A transaction without lock time, of a final input that shows the leaf script. -/
def lockedSpend : Transaction :=
  { version := 2
    inputs := [⟨⟨Bytes32.zero, 0⟩, [], 0xffffffff, ⟨[lockScript, 0xc0 :: generatorKey]⟩⟩]
    outputs := [⟨900, [0x51]⟩]
    lockTime := 0 }

theorem lockScript_committed : checkCommitment Sha256.sha256 generatorKeys (0xc0 :: generatorKey) lockScript lockedKey =
      .ok ⟨0xc0, false, generatorKey, []⟩ := by
  decide +kernel

theorem lockScript_runs (context : TapscriptContext) :
    runLeaf PayToScriptHash.keylessEngine context lockScript [] = .ok true := by
  rfl

/-- The context of the leaf script in this transaction. -/
def lockedContext : Except ValidationError TapscriptContext :=
  leafContext (taprootSignatureHash Sha256.sha256 lockedSpend 0 [1000] [lockedOutput.scriptPubkey]) generatorKey
    lockScript

theorem lockedContext_ok : ∃ context, lockedContext = .ok context := ⟨_, rfl⟩

theorem lockedSpend_accepted :
    validateTransactionCached (scriptChecks (taprootEngine generatorKeys PayToScriptHash.keylessEngine)) 0
      lockedSpend lockedSet 10 none = .ok () := by
  obtain ⟨context, hcontext⟩ := lockedContext_ok
  have hverified : verifyOutput (taprootEngine generatorKeys PayToScriptHash.keylessEngine) lockedSpend 0
      lockedOutput [1000] [lockedOutput.scriptPubkey] = .ok () := by
    rw [verifyOutput_taproot rfl (by decide), @verifyTaproot_leaf _ _ _ lockScript (0xc0 :: generatorKey) [] _ _ _ _ rfl]
    show verifyScriptPath generatorKeys PayToScriptHash.keylessEngine _ _ _ lockedKey _ _ = _
    simp only [verifyScriptPath, bind_eq_ok_iff, require_eq_ok_iff]
    exact ⟨_, lockScript_committed, context, hcontext, true, lockScript_runs context, rfl⟩
  have hsum : validateTransactionCached (scriptChecks (taprootEngine generatorKeys PayToScriptHash.keylessEngine)) 0
      lockedSpend lockedSet 10 none =
      (verifyOutput (taprootEngine generatorKeys PayToScriptHash.keylessEngine) lockedSpend 0 lockedOutput [1000]
        [lockedOutput.scriptPubkey] >>= fun _ => .ok (1000 : UInt64)) >>=
      fun sum => require (900 ≤ sum) .insufficientFunds := rfl
  rw [hsum, hverified]
  rfl

theorem lockedSpend_leaf {context : TapscriptContext} (hcontext : lockedContext = .ok context) :
    SpendsLeaf PayToScriptHash.keylessEngine lockedSpend lockedSet 0 lockScript [] context where
  ordinary := rfl
  spends := ⟨_, ⟨lockedOutput, 1, false⟩, [⟨lockedOutput, 1, false⟩], 0xc0 :: generatorKey,
    ⟨0xc0, false, generatorKey, []⟩, rfl, rfl, by decide, rfl, rfl, by decide, hcontext⟩

/-- The run comes to the first lock opcode with 1000 on the stack, which the lock time 0 of a final
input does not meet. -/
theorem lockScript_unmet (context : TapscriptContext) :
    ¬ LocksMet PayToScriptHash.keylessEngine context lockScript lockedSpend 0 [] := by
  intro h
  have hrule := h ⟨[], [], 0, [], 0xffffffff, 50⟩ rfl 3 ⟨[[0xe8, 0x03]], [], 0, [], 0xffffffff, 50⟩ 0xb1 1000
    (.turn (@rfl _ (some 0x02)) rfl (.here _ _)) rfl (by decide)
  exact absurd hrule (by decide)

/-- An accepted transaction spends a taproot output by a leaf script whose locks it does not meet. -/
theorem tapscript_lock_unmet :
    validateTransactionCached (scriptChecks (taprootEngine generatorKeys PayToScriptHash.keylessEngine)) 0
        lockedSpend lockedSet 10 none = .ok () ∧
      ∃ context, SpendsLeaf PayToScriptHash.keylessEngine lockedSpend lockedSet 0 lockScript [] context ∧
        ¬ LocksMet PayToScriptHash.keylessEngine context lockScript lockedSpend 0 [] := by
  obtain ⟨context, hcontext⟩ := lockedContext_ok
  exact ⟨lockedSpend_accepted, context, lockedSpend_leaf hcontext, lockScript_unmet context⟩

end UnmetLock

end KuberCoin.TaprootSpends
