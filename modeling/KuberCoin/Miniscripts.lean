import KuberCoin.ScriptLimits
import KuberCoin.ScriptNumbers

/-!
Miniscript expressions and the scripts they compile to (crate `tx`, `miniscript.rs`), and
what the interpreter does with such a script: fragment after fragment what the expression
says, with the second operand of an `or_d` passed over byte by byte where the first one held.
-/
namespace KuberCoin.Miniscripts

open Bytes Transactions Sighashes FailingPrograms ScriptInterpreters ScriptRuns ScriptHashSpends ScriptNumbers

/-- `[u8; 20]` -/
structure Bytes20 where
  bytes : List UInt8
  length_eq : bytes.length = 20
  deriving DecidableEq

inductive Miniscript
  | pk (key : List UInt8)
  | pkH (hash : List UInt8)
  | older (n : UInt32)
  | after (n : UInt32)
  | sha256 (hash : Bytes32)
  | hash256 (hash : Bytes32)
  | hash160 (hash : Bytes20)
  | ripemd160 (hash : Bytes20)
  | andV (x y : Miniscript)
  | andB (x y : Miniscript)
  | orB (x z : Miniscript)
  | orD (x z : Miniscript)
  | thresh (k : UInt64) (subs : List Miniscript)
  | multi (k : UInt64) (keys : List (List UInt8))
  | just (op : UInt8)

section Compiling

def pushData (data : List UInt8) : List UInt8 :=
  if data.length = 0 then [0x00]
  else if data.length ≤ 75 then UInt8.ofNat data.length :: data
  else if data.length ≤ 255 then 0x4c :: UInt8.ofNat data.length :: data
  else if data.length ≤ 65535 then 0x4d :: leBytes 2 data.length ++ data
  else 0x4e :: leBytes 4 data.length ++ data

/-- The encoding of a number outside of `1..=16` is the one of `int_to_bytes`. -/
def pushScriptnum (n : Int64) : List UInt8 :=
  if n = 0 then [0x00]
  else if 1 ≤ n ∧ n ≤ 16 then [0x50 + n.toUInt64.toUInt8]
  else pushData (intToBytes n)

/-- The check of a preimage of 32 bytes, with the opcode of the hash function. -/
def compileHash (opcode : UInt8) (hash : List UInt8) : List UInt8 :=
  0x82 :: pushScriptnum 32 ++ [0x88, opcode] ++ pushData hash ++ [0x87]

mutual

def compile : Miniscript → List UInt8
  | .pk key => pushData key ++ [0xac]
  | .pkH hash => [0x76, 0xa9] ++ pushData hash ++ [0x88, 0xac]
  | .older n => pushScriptnum (Int64.ofNat n.toNat) ++ [0xb2]
  | .after n => pushScriptnum (Int64.ofNat n.toNat) ++ [0xb1]
  | .sha256 hash => compileHash 0xa8 hash.bytes
  | .hash256 hash => compileHash 0xaa hash.bytes
  | .hash160 hash => compileHash 0xa9 hash.bytes
  | .ripemd160 hash => compileHash 0xa6 hash.bytes
  | .andV x y => compile x ++ compile y
  | .andB x y => compile x ++ compile y ++ [0x9a]
  | .orB x z => compile x ++ compile z ++ [0x9b]
  | .orD x z => compile x ++ [0x73, 0x64] ++ compile z ++ [0x68]
  | .thresh _ [] => []
  | .thresh k (first :: rest) => compile first ++ compileSummands rest ++ pushScriptnum k.toInt64 ++ [0x87]
  | .multi k keys =>
      pushScriptnum k.toInt64 ++ keys.flatMap pushData ++ pushScriptnum (Int64.ofNat keys.length) ++ [0xae]
  | .just op => [op]

/-- The loop of `thresh` over its operands from the second one on. -/
def compileSummands : List Miniscript → List UInt8
  | [] => []
  | sub :: rest => compile sub ++ [0x93] ++ compileSummands rest

end

end Compiling

section Blocks

variable (prims : Primitives) (tx : Transaction) (index : ℕ) {opcode : UInt8} {data : List UInt8}

/-- The loop of `execute` from a position to the end of the script. -/
def resume (bytes : List UInt8) (pc : ℕ) : Op Unit := executeFrom prims tx index bytes bytes.length pc

/-- Wherever the code stands in a script, an executing interpreter runs it as this program. -/
def Block (code : List UInt8) (op : Op Unit) : Prop :=
  ∀ before after s, s.shouldExecute = true →
    resume prims tx index (before ++ code ++ after) before.length s =
      (op >>= fun _ => resume prims tx index (before ++ code ++ after) (before ++ code).length) s

/-- The program leaves the branches and the digest as they are. -/
def Keeps (op : Op Unit) : Prop :=
  ∀ s, Ensures op s fun _ s' => s'.conditionStack = s.conditionStack ∧ s'.segwitContext = s.segwitContext

/-- An opcode, counted. -/
def perform (opcode : UInt8) (op : Op Unit) : Op Unit := do
  countOp opcode
  op

variable {prims tx index} {bytes : List UInt8} {pc : ℕ} {s : ScriptInterpreter} {code code' : List UInt8} {op op' : Op Unit}

theorem resume_turn (read : bytes[pc]? = some opcode) : resume prims tx index bytes pc s =
      (step prims tx index bytes opcode (pc + 1) >>= resume prims tx index bytes) s := by
  have inside : pc < bytes.length := (List.getElem?_eq_some_iff.mp read).1
  obtain ⟨n, size⟩ : ∃ n, bytes.length = n + 1 := ⟨bytes.length - 1, by omega⟩
  have turn := congrFun (@executeFrom_turn prims tx index bytes pc n opcode read) s
  rw [resume, size, turn]
  refine bind_congr_of_ensures rfl ((step_progress read).mono fun next mid ahead => ?_)
  exact executeFrom_fuel (by omega) (by omega)

theorem Keeps.bind (h : Keeps op) (h' : Keeps op') : Keeps (op >>= fun _ => op') := by
  intro s
  rw [ensures_bind]
  refine (h s).mono fun _ mid kept => (h' mid).mono fun _ s' kept' => ?_
  exact ⟨kept'.1.trans kept.1, kept'.2.trans kept.2⟩

theorem shouldExecute_of_eq {s' : ScriptInterpreter} (h : s'.conditionStack = s.conditionStack) :
    s'.shouldExecute = s.shouldExecute := by
  rw [ScriptInterpreter.shouldExecute, ScriptInterpreter.shouldExecute, h]

theorem Block.append (h : Block prims tx index code op) (keeps : Keeps op) (h' : Block prims tx index code' op') :
    Block prims tx index (code ++ code') (op >>= fun _ => op') := by
  intro before after s executing
  have shape : before ++ (code ++ code') ++ after = before ++ code ++ (code' ++ after) := by simp
  have shape' : before ++ (code ++ code') ++ after = (before ++ code) ++ code' ++ after := by simp
  have ends : (before ++ (code ++ code')).length = ((before ++ code) ++ code').length := by simp
  rw [bind_assoc, shape, h before (code' ++ after) s executing, ← shape]
  refine bind_congr_of_ensures rfl ((keeps s).mono fun _ mid kept => ?_)
  rw [ends, shape']
  exact h' (before ++ code) after mid ((shouldExecute_of_eq kept.1).trans executing)

theorem step_executing (executing : s.shouldExecute = true) : step prims tx index bytes opcode pc s =
      (countOp opcode >>= fun _ => executeOpcode prims tx index opcode bytes pc) s := by
  unfold step
  refine bind_congr_of_ensures rfl (ensures_countOp_of fun n => ?_)
  rw [get_bind, shouldExecute_opCount, executing]
  rfl

theorem keeps_countOp (opcode : UInt8) : Keeps (countOp opcode) :=
  fun _ => ensures_countOp_of fun _ => ⟨rfl, rfl⟩

theorem read_append (before after : List UInt8) (b : UInt8) : (before ++ [b] ++ after)[before.length]? = some b := by
  simp

theorem block_opcode (high : 0x60 < opcode) (separator : opcode ≠ 0xab)
    (entry : (opcodeTable prims tx index).lookup opcode = some op) :
    Block prims tx index [opcode] (perform opcode op) := by
  intro before after s executing
  rw [resume_turn (read_append before after opcode), List.length_append]
  show (step _ _ _ _ _ _ s >>= fun p => resume _ _ _ _ p.1 p.2) = _
  rw [step_executing executing, executeOpcode_table high separator entry]
  show ((countOp opcode >>= fun _ => op >>= fun _ => pure (before.length + 1)) >>= resume _ _ _ _) s = _
  simp only [perform, bind_assoc, pure_bind, List.length_singleton]

theorem resume_flow {opcode : UInt8} (flow : isFlowControlOp opcode = true) (high : 0x60 < opcode)
    (separator : opcode ≠ 0xab) (entry : (opcodeTable prims tx index).lookup opcode = some op)
    (before after : List UInt8) (s : ScriptInterpreter) :
    resume prims tx index (before ++ [opcode] ++ after) before.length s =
      (perform opcode op >>= fun _ =>
        resume prims tx index (before ++ [opcode] ++ after) (before ++ [opcode]).length) s := by
  rw [resume_turn (read_append before after opcode), List.length_append]
  have turn : step prims tx index (before ++ [opcode] ++ after) opcode (before.length + 1) =
      (countOp opcode >>= fun _ => op >>= fun _ => pure (before.length + 1)) := by
    unfold step
    simp only [flow, Bool.not_true, Bool.and_false, Bool.false_eq_true, if_false,
      executeOpcode_table high separator entry]
    rfl
  rw [turn]
  simp only [perform, bind_assoc, pure_bind, List.length_singleton]

theorem block_endif (before after : List UInt8) (s : ScriptInterpreter) :
    resume prims tx index (before ++ [0x68] ++ after) before.length s =
      (perform 0x68 opEndif >>= fun _ =>
        resume prims tx index (before ++ [0x68] ++ after) (before ++ [0x68]).length) s :=
  resume_flow rfl (by decide) (by decide) rfl before after s

/-- What the interpreter does at a push of up to 75 bytes. -/
def pushElement (data : List UInt8) : Op Unit :=
  if data.length = 1 ∧ (data.getD 0 0 ≤ 16 ∨ data.getD 0 0 = 0x81) then throw .nonMinimalPush else push data

def pushNumber (n : Int64) : Op Unit :=
  if 1 ≤ n ∧ n ≤ 16 then push (intToBytes n) else pushElement (intToBytes n)

theorem countOp_low (low : opcode ≤ 0x60) : countOp opcode = pure () := by
  rw [countOp, if_neg (UInt8.not_lt.mpr low)]

theorem resume_low {before rest : List UInt8} (low : opcode ≤ 0x60) (executing : s.shouldExecute = true) :
    resume prims tx index (before ++ opcode :: rest) before.length s =
      (executeOpcode prims tx index opcode (before ++ opcode :: rest) (before.length + 1) >>=
        resume prims tx index (before ++ opcode :: rest)) s := by
  have read : (before ++ opcode :: rest)[before.length]? = some opcode := by simp
  rw [resume_turn read]
  show (step _ _ _ _ _ _ s >>= fun p => resume _ _ _ _ p.1 p.2) = _
  rw [step_executing executing, countOp_low low]
  rfl

theorem block_zero : Block prims tx index [0x00] (push []) := by
  intro before after s executing
  have shape : before ++ [0x00] ++ after = before ++ 0x00 :: after := by simp
  rw [shape, resume_low (by decide) executing, List.length_append]
  show ((push [] >>= fun _ => pure (before.length + 1)) >>= resume _ _ _ _) s = _
  simp only [bind_assoc, pure_bind, List.length_singleton]

theorem executeOpcode_short {len : ℕ} (pos : 0 < len) (short : len ≤ 75) :
    executeOpcode prims tx index (UInt8.ofNat len) bytes pc = pushShort bytes pc len := by
  have size : (UInt8.ofNat len).toNat = len := by
    rw [UInt8.toNat_ofNat', Nat.mod_eq_of_lt (by omega)]
  have nonzero : UInt8.ofNat len ≠ 0x00 := by
    intro zero
    rw [zero] at size
    exact pos.ne size
  have low : ¬ (0x51 ≤ UInt8.ofNat len ∧ UInt8.ofNat len ≤ 0x60) := by
    rw [UInt8.le_iff_toNat_le, size]
    simp only [UInt8.reduceToNat]
    omega
  have data : UInt8.ofNat len ≤ 0x4b := by
    rw [UInt8.le_iff_toNat_le, size]
    exact short
  rw [executeOpcode, if_neg nonzero, if_neg low, if_pos data, size]

theorem block_pushElement (nonempty : data ≠ []) (short : data.length ≤ 75) :
    Block prims tx index (UInt8.ofNat data.length :: data) (pushElement data) := by
  intro before after s executing
  have pos := List.length_pos_iff.mpr nonempty
  have shape : before ++ (UInt8.ofNat data.length :: data) ++ after =
      before ++ UInt8.ofNat data.length :: (data ++ after) := by simp
  have shape' : before ++ UInt8.ofNat data.length :: (data ++ after) =
      (before ++ [UInt8.ofNat data.length]) ++ data ++ after := by simp
  have low : UInt8.ofNat data.length ≤ 0x60 := by
    rw [UInt8.le_iff_toNat_le, UInt8.toNat_ofNat', Nat.mod_eq_of_lt (by omega)]
    show data.length ≤ 96
    omega
  have pushes : pushShort (before ++ UInt8.ofNat data.length :: (data ++ after)) (before.length + 1) data.length =
      (pushElement data >>= fun _ => pure (before.length + 1 + data.length)) := by
    have start : before.length + 1 = (before ++ [UInt8.ofNat data.length]).length := by simp
    have inside : ¬ (before ++ [UInt8.ofNat data.length]).length + data.length >
        ((before ++ [UInt8.ofNat data.length]) ++ data ++ after).length := by
      simp only [List.length_append]
      omega
    rw [shape', start, pushShort, if_neg inside]
    simp only [slice_append, pushElement]
    split
    · rfl
    · rfl
  have ends : (before ++ (UInt8.ofNat data.length :: data)).length = before.length + 1 + data.length := by
    simp
    omega
  rw [shape, resume_low low executing, executeOpcode_short pos short, pushes, ends]
  simp only [bind_assoc, pure_bind]

theorem block_pushData (short : data.length ≤ 75) : Block prims tx index (pushData data) (pushElement data) := by
  by_cases empty : data = []
  · subst empty
    exact block_zero
  · have pos := List.length_pos_iff.mpr empty
    rw [pushData, if_neg (by omega), if_pos short]
    exact block_pushElement empty short

theorem block_small {opcode : UInt8} (range : 0x51 ≤ opcode ∧ opcode ≤ 0x60) :
    Block prims tx index [opcode] (push [opcode - 0x50]) := by
  intro before after s executing
  have nonzero : opcode ≠ 0x00 := by
    rintro rfl
    exact absurd range.1 (by decide)
  have shape : before ++ [opcode] ++ after = before ++ opcode :: after := by simp
  rw [shape, resume_low range.2 executing, List.length_append, executeOpcode, if_neg nonzero, if_pos range]
  simp only [bind_assoc, pure_bind, List.length_singleton]

theorem small_number {n : Int64} (range : 1 ≤ n ∧ n ≤ 16) : ∃ m, 1 ≤ m ∧ m ≤ 16 ∧ n = Int64.ofNat m := by
  obtain ⟨low, high⟩ := range
  rw [Int64.le_iff_toInt_le] at low high
  have one : (1 : Int64).toInt = 1 := rfl
  have sixteen : (16 : Int64).toInt = 16 := rfl
  refine ⟨n.toInt.toNat, by omega, by omega, ?_⟩
  apply Int64.toInt_inj.mp
  rw [Int64.toInt_ofNat_of_lt (by omega)]
  omega

theorem block_pushScriptnum (n : Int64) : Block prims tx index (pushScriptnum n) (pushNumber n) := by
  rw [pushScriptnum, pushNumber]
  split
  next zero =>
    subst zero
    exact block_zero
  next =>
    split
    next range =>
      obtain ⟨m, low, high, rfl⟩ := small_number range
      have codes : ∀ m < 17, 1 ≤ m → 0x51 ≤ 0x50 + (Int64.ofNat m).toUInt64.toUInt8 ∧
          0x50 + (Int64.ofNat m).toUInt64.toUInt8 ≤ 0x60 ∧
            intToBytes (Int64.ofNat m) = [0x50 + (Int64.ofNat m).toUInt64.toUInt8 - 0x50] := by
        decide +kernel
      obtain ⟨above, below, bytes⟩ := codes m (by omega) low
      rw [bytes]
      exact block_small ⟨above, below⟩
    next =>
      have short := length_intToBytes n
      exact block_pushData (by omega)

end Blocks

section Skipping

variable {prims : Primitives} {tx : Transaction} {index : ℕ} {s : ScriptInterpreter} {b : UInt8} {inner : List Bool}
  {bytes : List UInt8} {pc : ℕ}

/-- Read byte by byte at this depth of branches inside the one that is not executed, the code
opens no branch that it does not close, and it neither ends nor turns the branch it is in. -/
def skips : ℕ → List UInt8 → Bool
  | d, [] => d == 0
  | d, b :: rest =>
      if b = 0x63 ∨ b = 0x64 then skips (d + 1) rest
      else if b = 0x67 then 0 < d && skips d rest
      else if b = 0x68 then 0 < d && skips (d - 1) rest
      else skips d rest

/-- The bytes of a branch that is not executed are counted as opcodes. -/
def countAll (code : List UInt8) : Op Unit := code.forM countOp

theorem countAll_cons (b : UInt8) (code : List UInt8) :
    countAll (b :: code) = countOp b >>= fun _ => countAll code := rfl

theorem countOp_branches (b : UInt8) (s : ScriptInterpreter) :
    (∀ branches, countOp b { s with conditionStack := branches } = .error .tooManyOps) ∨
      ∃ n, ∀ branches, countOp b { s with conditionStack := branches } =
        .ok ((), { s with conditionStack := branches, opCount := n }) := by
  by_cases high : b > 0x60
  · by_cases many : s.opCount + 1 > maxOpsPerScript
    · left
      intro branches
      rw [countOp, if_pos high, get_bind, if_pos many]
      rfl
    · right
      refine ⟨s.opCount + 1, fun branches => ?_⟩
      rw [countOp, if_pos high, get_bind, if_neg many]
      rfl
  · right
    refine ⟨s.opCount, fun branches => ?_⟩
    rw [countOp, if_neg high]
    rfl

/-- What a byte of a branch that is not executed does to the branches inside of it. -/
inductive Turned (b : UInt8) : List Bool → List Bool → Prop
  | opened {inner : List Bool} (h : b = 0x63 ∨ b = 0x64) : Turned b inner (false :: inner)
  | turned {c : Bool} {inner : List Bool} (h : b = 0x67) : Turned b (c :: inner) ((!c) :: inner)
  | closed {c : Bool} {inner : List Bool} (h : b = 0x68) : Turned b (c :: inner) inner
  | passed {inner : List Bool} (h : isFlowControlOp b = false) : Turned b inner inner

theorem turned_of_skips {code : List UInt8} (balanced : skips inner.length (b :: code) = true) :
    ∃ inner', Turned b inner inner' ∧ skips inner'.length code = true := by
  rw [skips] at balanced
  split at balanced
  next opens => exact ⟨false :: inner, .opened opens, balanced⟩
  next notOpen =>
    split at balanced
    next turns =>
      rw [Bool.and_eq_true, decide_eq_true_eq] at balanced
      obtain ⟨c, inner, rfl⟩ := List.exists_cons_of_length_pos balanced.1
      exact ⟨_, .turned turns, balanced.2⟩
    next notTurn =>
      split at balanced
      next closes =>
        rw [Bool.and_eq_true, decide_eq_true_eq] at balanced
        obtain ⟨c, inner, rfl⟩ := List.exists_cons_of_length_pos balanced.1
        exact ⟨_, .closed closes, balanced.2⟩
      next notClose =>
        have idle : isFlowControlOp b = false := by
          simp only [not_or] at notOpen
          simp [isFlowControlOp, notOpen.1, notOpen.2, notTurn, notClose]
        exact ⟨inner, .passed idle, balanced⟩

theorem flow_step {op : Op Unit} {mid mid' : ScriptInterpreter} (flow : isFlowControlOp b = true) (high : 0x60 < b)
    (separator : b ≠ 0xab) (entry : (opcodeTable prims tx index).lookup b = some op) (run : op mid = .ok ((), mid')) :
    (if (!false && !isFlowControlOp b) = true then pure pc else executeOpcode prims tx index b bytes pc : Op ℕ) mid =
      .ok (pc, mid') := by
  rw [flow, executeOpcode_table high separator entry]
  exact (bind_of_ok run).trans rfl

theorem step_skipped {n : ℕ} {inner' outer : List Bool} (turned : Turned b inner inner')
    (counted : ∀ branches, countOp b { s with conditionStack := branches } =
      .ok ((), { s with conditionStack := branches, opCount := n })) :
    step prims tx index bytes b pc { s with conditionStack := inner ++ false :: outer } =
      .ok (pc, { s with conditionStack := inner' ++ false :: outer, opCount := n }) := by
  have skipped (branches : List Bool) : ScriptInterpreter.shouldExecute
      { s with conditionStack := branches ++ false :: outer, opCount := n } = false := by
    simp [ScriptInterpreter.shouldExecute]
  rw [step, bind_of_ok (counted _), get_bind, skipped]
  cases turned with
  | opened h =>
    rcases h with rfl | rfl
    · refine flow_step rfl (by decide) (by decide) rfl ?_
      rw [opIf, get_bind, skipped]
      rfl
    · refine flow_step rfl (by decide) (by decide) rfl ?_
      rw [opNotif, get_bind, skipped]
      rfl
  | turned h =>
    subst h
    exact flow_step rfl (by decide) (by decide) rfl rfl
  | closed h =>
    subst h
    exact flow_step rfl (by decide) (by decide) rfl rfl
  | passed h =>
    rw [h]
    rfl

/-- A branch that is not executed, with the branches open inside of it. -/
theorem resume_skipped {code : List UInt8} {inner outer : List Bool} (balanced : skips inner.length code = true)
    (before after : List UInt8) (s : ScriptInterpreter) : resume prims tx index (before ++ code ++ after) before.length
        { s with conditionStack := inner ++ false :: outer } =
      (countAll code >>= fun _ => resume prims tx index (before ++ code ++ after) (before ++ code).length)
        { s with conditionStack := false :: outer } := by
  induction code generalizing inner before s with
  | nil =>
    have : inner = [] := by simpa [skips] using balanced
    subst this
    simp [countAll]
  | cons b code ih =>
    have read : (before ++ b :: code ++ after)[before.length]? = some b := by simp
    have shape : before ++ b :: code ++ after = (before ++ [b]) ++ code ++ after := by simp
    have start : before.length + 1 = (before ++ [b]).length := by simp
    have ends : (before ++ b :: code).length = ((before ++ [b]) ++ code).length := by simp
    obtain ⟨inner', turned, rest⟩ := turned_of_skips balanced
    rw [resume_turn read, countAll_cons, bind_assoc]
    rcases countOp_branches b s with full | ⟨n, counted⟩
    · have failed : step prims tx index (before ++ b :: code ++ after) b (before.length + 1)
          { s with conditionStack := inner ++ false :: outer } = .error .tooManyOps := bind_of_error (full _)
      rw [bind_of_error failed, bind_of_error (full _)]
    · rw [bind_of_ok (step_skipped turned counted), bind_of_ok (counted _), shape, start, ends]
      exact ih rest (before ++ [b]) { s with opCount := n }

end Skipping

section Evaluation

variable (prims : Primitives) (tx : Transaction) (index : ℕ)

/-- The check of a preimage, with the opcode of the hash function. -/
def evalHash (opcode : UInt8) (hash : Op Unit) (image : List UInt8) : Op Unit := do
  perform 0x82 opSize
  pushNumber 32
  perform 0x88 opEqualverify
  perform opcode hash
  pushElement image
  perform 0x87 opEqual

def pushKeys : List (List UInt8) → Op Unit
  | [] => pure ()
  | key :: keys => do
      pushElement key
      pushKeys keys

/-- The branch of an `or_d`: its second operand, or the count of its bytes. -/
def evalBranch (code : List UInt8) (op : Op Unit) : Op Unit := do
  let s ← get
  if s.shouldExecute then op else countAll code

mutual

/-- What the interpreter does with the script of an expression. -/
def eval : Miniscript → Op Unit
  | .pk key => do
      pushElement key
      perform 0xac (opChecksig prims tx index)
  | .pkH hash => do
      perform 0x76 opDup
      perform 0xa9 (opHash160 prims)
      pushElement hash
      perform 0x88 opEqualverify
      perform 0xac (opChecksig prims tx index)
  | .older n => do
      pushNumber (Int64.ofNat n.toNat)
      perform 0xb2 (opChecksequenceverify tx index)
  | .after n => do
      pushNumber (Int64.ofNat n.toNat)
      perform 0xb1 (opChecklocktimeverify tx index)
  | .sha256 hash => evalHash 0xa8 (opSha256 prims) hash.bytes
  | .hash256 hash => evalHash 0xaa (opHash256 prims) hash.bytes
  | .hash160 hash => evalHash 0xa9 (opHash160 prims) hash.bytes
  | .ripemd160 hash => evalHash 0xa6 (opRipemd160 prims) hash.bytes
  | .andV x y => do
      eval x
      eval y
  | .andB x y => do
      eval x
      eval y
      perform 0x9a opBooland
  | .orB x z => do
      eval x
      eval z
      perform 0x9b opBoolor
  | .orD x z => do
      eval x
      perform 0x73 opIfdup
      perform 0x64 opNotif
      evalBranch (compile z) (eval z)
      perform 0x68 opEndif
  | .thresh _ [] => pure ()
  | .thresh k (first :: rest) => do
      eval first
      evalSummands rest
      pushNumber k.toInt64
      perform 0x87 opEqual
  | .multi k keys => do
      pushNumber k.toInt64
      pushKeys keys
      pushNumber (Int64.ofNat keys.length)
      perform 0xae (opCheckmultisig prims tx index)
  | .just _ => pure ()

def evalSummands : List Miniscript → Op Unit
  | [] => pure ()
  | sub :: rest => do
      eval sub
      perform 0x93 opAdd
      evalSummands rest

end

end Evaluation

section Forms

def ValidKey (key : List UInt8) : Prop := key.length = 33 ∨ key.length = 65

mutual

/-- No raw opcode, and keys and hashes of the right lengths. -/
def WellFormed : Miniscript → Prop
  | .pk key => ValidKey key
  | .pkH hash => hash.length = 20
  | .andV x y => WellFormed x ∧ WellFormed y
  | .andB x y => WellFormed x ∧ WellFormed y
  | .orB x z => WellFormed x ∧ WellFormed z
  | .orD x z => WellFormed x ∧ WellFormed z
  | .thresh _ subs => AllWellFormed subs
  | .multi _ keys => ∀ key ∈ keys, ValidKey key
  | .just _ => False
  | _ => True

def AllWellFormed : List Miniscript → Prop
  | [] => True
  | sub :: rest => WellFormed sub ∧ AllWellFormed rest

end

mutual

/-- The second operand of every `or_d` can be passed over. -/
def Skippable : Miniscript → Prop
  | .andV x y => Skippable x ∧ Skippable y
  | .andB x y => Skippable x ∧ Skippable y
  | .orB x z => Skippable x ∧ Skippable z
  | .orD x z => Skippable x ∧ Skippable z ∧ skips 0 (compile z) = true
  | .thresh _ subs => AllSkippable subs
  | _ => True

def AllSkippable : List Miniscript → Prop
  | [] => True
  | sub :: rest => Skippable sub ∧ AllSkippable rest

end

end Forms

section Compilation

variable {prims : Primitives} {tx : Transaction} {index : ℕ} {op : Op Unit} {opcode : UInt8} {code : List UInt8}

theorem keeps_push (data : List UInt8) : Keeps (push data) := by
  intro s
  simp

theorem keeps_pushElement (data : List UInt8) : Keeps (pushElement data) := by
  intro s
  unfold pushElement
  simp

theorem keeps_pushNumber (n : Int64) : Keeps (pushNumber n) := by
  unfold pushNumber
  split
  · exact keeps_push _
  · exact keeps_pushElement _

theorem Keeps.perform (h : Keeps op) (opcode : UInt8) : Keeps (perform opcode op) :=
  (keeps_countOp opcode).bind h

theorem keeps_opEqual : Keeps opEqual := by
  intro s
  simp [opEqual]

theorem keeps_opVerify : Keeps opVerify := by
  intro s
  simp [opVerify]

theorem keeps_hashTop (hash : List UInt8 → List UInt8) : Keeps (hashTop hash) := by
  intro s
  simp [hashTop]

theorem keeps_binary (f : Int64 → Int64 → Int64) : Keeps (binary f) := by
  intro s
  simp [binary]

theorem keeps_opSize : Keeps opSize := by
  intro s
  simp [opSize]

theorem keeps_opDup : Keeps opDup := by
  intro s
  simp [opDup]

theorem keeps_opIfdup : Keeps opIfdup := by
  intro s
  simp [opIfdup]

theorem keeps_opEqualverify : Keeps opEqualverify := keeps_opEqual.bind keeps_opVerify

theorem keeps_opChecksig : Keeps (opChecksig prims tx index) := by
  intro s
  simp [opChecksig]

theorem keeps_locktime : Keeps (opChecklocktimeverify tx index) := by
  intro s
  simp [opChecklocktimeverify]

theorem keeps_sequence : Keeps (opChecksequenceverify tx index) := by
  intro s
  simp [opChecksequenceverify]

theorem keeps_opCheckmultisig : Keeps (opCheckmultisig prims tx index) := by
  intro s
  simp [opCheckmultisig]

theorem keeps_pushKeys (keys : List (List UInt8)) : Keeps (pushKeys keys) := by
  induction keys with
  | nil => exact fun s => by simp [pushKeys]
  | cons key keys ih => exact (keeps_pushElement key).bind ih

theorem keeps_evalHash (hash : List UInt8 → List UInt8) (image : List UInt8) :
    Keeps (evalHash opcode (hashTop hash) image) :=
  (keeps_opSize.perform _).bind ((keeps_pushNumber _).bind ((keeps_opEqualverify.perform _).bind
    (((keeps_hashTop hash).perform _).bind ((keeps_pushElement _).bind (keeps_opEqual.perform _)))))

theorem keeps_countAll (code : List UInt8) : Keeps (countAll code) := by
  induction code with
  | nil => exact fun s => by simp [countAll]
  | cons b code ih =>
    rw [countAll_cons]
    exact (keeps_countOp b).bind ih

theorem keeps_evalBranch (h : Keeps op) : Keeps (evalBranch code op) := by
  intro s
  rw [evalBranch, ensures_bind, ensures_get]
  split
  · exact h s
  · exact keeps_countAll code s

theorem opened_branch (s : ScriptInterpreter) : Ensures (perform 0x64 opNotif) s fun _ s' =>
    ∃ b, s'.conditionStack = b :: s.conditionStack ∧ s'.segwitContext = s.segwitContext := by
  simp [perform, opNotif]

theorem keeps_branch (h : Keeps op) :
    Keeps (perform 0x64 opNotif >>= fun _ => op >>= fun _ => perform 0x68 opEndif) := by
  intro s
  have closed (t : ScriptInterpreter) (b : Bool) (branches : List Bool) (top : t.conditionStack = b :: branches) :
      Ensures (perform 0x68 opEndif) t fun _ s' =>
        s'.conditionStack = branches ∧ s'.segwitContext = t.segwitContext := by
    simp [perform, opEndif, top]
  rw [ensures_bind]
  refine (opened_branch s).mono fun _ t htop => ?_
  obtain ⟨b, top, digest⟩ := htop
  rw [ensures_bind]
  refine (h t).mono fun _ t' kept => ?_
  refine (closed t' b s.conditionStack (kept.1.trans top)).mono fun _ s' done => ?_
  exact ⟨done.1, done.2.trans (kept.2.trans digest)⟩

mutual

theorem keeps_eval : (e : Miniscript) → Keeps (eval prims tx index e)
  | .pk key => by
    rw [eval]
    exact (keeps_pushElement key).bind (keeps_opChecksig.perform _)
  | .pkH hash => by
    rw [eval]
    exact (keeps_opDup.perform _).bind (((keeps_hashTop _).perform _).bind ((keeps_pushElement hash).bind
      ((keeps_opEqualverify.perform _).bind (keeps_opChecksig.perform _))))
  | .older n => by
    rw [eval]
    exact (keeps_pushNumber _).bind (keeps_sequence.perform _)
  | .after n => by
    rw [eval]
    exact (keeps_pushNumber _).bind (keeps_locktime.perform _)
  | .sha256 hash => by
    rw [eval]
    exact keeps_evalHash _ _
  | .hash256 hash => by
    rw [eval]
    exact keeps_evalHash _ _
  | .hash160 hash => by
    rw [eval]
    exact keeps_evalHash _ _
  | .ripemd160 hash => by
    rw [eval]
    exact keeps_evalHash _ _
  | .andV x y => by
    rw [eval]
    exact (keeps_eval x).bind (keeps_eval y)
  | .andB x y => by
    rw [eval]
    exact (keeps_eval x).bind ((keeps_eval y).bind ((keeps_binary _).perform _))
  | .orB x z => by
    rw [eval]
    exact (keeps_eval x).bind ((keeps_eval z).bind ((keeps_binary _).perform _))
  | .orD x z => by
    rw [eval]
    exact (keeps_eval x).bind ((keeps_opIfdup.perform _).bind (keeps_branch (keeps_evalBranch (keeps_eval z))))
  | .thresh _ [] => by
    rw [eval]
    exact fun s => by simp
  | .thresh k (first :: rest) => by
    rw [eval]
    exact (keeps_eval first).bind ((keeps_evalSummands rest).bind ((keeps_pushNumber _).bind
      (keeps_opEqual.perform _)))
  | .multi k keys => by
    rw [eval]
    exact (keeps_pushNumber _).bind ((keeps_pushKeys keys).bind ((keeps_pushNumber _).bind
      (keeps_opCheckmultisig.perform _)))
  | .just _ => by
    rw [eval]
    exact fun s => by simp

theorem keeps_evalSummands : (subs : List Miniscript) → Keeps (evalSummands prims tx index subs)
  | [] => by
    rw [evalSummands]
    exact fun s => by simp
  | sub :: rest => by
    rw [evalSummands]
    exact (keeps_eval sub).bind (((keeps_binary _).perform _).bind (keeps_evalSummands rest))

end

theorem block_nil : Block prims tx index [] (pure ()) := by
  intro before after s _
  simp

theorem block_pushElements {items : List (List UInt8)} (short : ∀ item ∈ items, item.length ≤ 75) :
    Block prims tx index (items.flatMap pushData) (pushKeys items) := by
  induction items with
  | nil => exact block_nil
  | cons item items ih =>
    rw [List.forall_mem_cons] at short
    exact (block_pushData short.1).append (keeps_pushElement item) (ih short.2)

theorem block_pushKeys {keys : List (List UInt8)} (valid : ∀ key ∈ keys, ValidKey key) :
    Block prims tx index (keys.flatMap pushData) (pushKeys keys) := by
  refine block_pushElements fun key hkey => ?_
  have := valid key hkey
  unfold ValidKey at this
  omega

theorem block_hash {hash : List UInt8 → List UInt8} {image : List UInt8} (high : 0x60 < opcode)
    (separator : opcode ≠ 0xab) (entry : (opcodeTable prims tx index).lookup opcode = some (hashTop hash))
    (short : image.length ≤ 75) :
    Block prims tx index (compileHash opcode image) (evalHash opcode (hashTop hash) image) := by
  have size : Block prims tx index [0x82] (perform 0x82 opSize) := block_opcode (by decide) (by decide) rfl
  have verify : Block prims tx index [0x88] (perform 0x88 opEqualverify) := block_opcode (by decide) (by decide) rfl
  have equal : Block prims tx index [0x87] (perform 0x87 opEqual) := block_opcode (by decide) (by decide) rfl
  have block := size.append (keeps_opSize.perform _) ((block_pushScriptnum 32).append (keeps_pushNumber _)
    (verify.append (keeps_opEqualverify.perform _) ((block_opcode high separator entry).append
      ((keeps_hashTop hash).perform _) ((block_pushData short).append (keeps_pushElement _) equal))))
  have shape : compileHash opcode image =
      [0x82] ++ (pushScriptnum 32 ++ ([0x88] ++ ([opcode] ++ (pushData image ++ [0x87])))) := by
    simp [compileHash]
  rw [shape]
  exact block

/-- A branch in a script that is being executed: its code is run, or passed over. -/
theorem block_branch (h : Block prims tx index code op) (balanced : skips 0 code = true) :
    Block prims tx index ([0x64] ++ (code ++ [0x68]))
      (perform 0x64 opNotif >>= fun _ => evalBranch code op >>= fun _ => perform 0x68 opEndif) := by
  intro before after s executing
  have notif : Block prims tx index [0x64] (perform 0x64 opNotif) := block_opcode (by decide) (by decide) rfl
  have shape : before ++ ([0x64] ++ (code ++ [0x68])) ++ after = before ++ [0x64] ++ (code ++ [0x68] ++ after) := by
    simp
  have shape' : before ++ [0x64] ++ (code ++ [0x68] ++ after) = (before ++ [0x64]) ++ code ++ ([0x68] ++ after) := by
    simp
  have shape'' : (before ++ [0x64]) ++ code ++ ([0x68] ++ after) = (before ++ [0x64] ++ code) ++ [0x68] ++ after := by
    simp
  have ends : (before ++ ([0x64] ++ (code ++ [0x68]))).length = (before ++ [0x64] ++ code ++ [0x68]).length := by
    simp
  -- after the branch, whichever way it went, stands the opcode that closes it
  have closing : ∀ mid, resume prims tx index (before ++ [0x64] ++ code ++ ([0x68] ++ after))
      (before ++ [0x64] ++ code).length mid = (perform 0x68 opEndif >>= fun _ =>
        resume prims tx index (before ++ [0x64] ++ code ++ ([0x68] ++ after))
          (before ++ [0x64] ++ code ++ [0x68]).length) mid := by
    intro mid
    rw [shape'']
    exact block_endif _ after mid
  rw [shape, notif before _ s executing, bind_assoc, ends, shape']
  refine bind_congr_of_ensures rfl ((opened_branch s).mono fun _ mid opened => ?_)
  obtain ⟨b, top, _⟩ := opened
  rw [bind_assoc, evalBranch, bind_assoc, get_bind]
  split
  next runs =>
    rw [h (before ++ [0x64]) ([0x68] ++ after) mid runs]
    exact bind_congr_of_ensures rfl (ensures_of_forall fun _ mid' => closing mid')
  next stopped =>
    have closed : b = false := by
      rw [ScriptInterpreter.shouldExecute] at stopped executing
      rw [top, List.all_cons, executing, Bool.and_true] at stopped
      simpa using stopped
    have state : mid = { mid with conditionStack := [] ++ false :: s.conditionStack } := by
      rw [closed] at top
      rw [List.nil_append, ← top]
    have skipped := @resume_skipped prims tx index code [] s.conditionStack balanced (before ++ [0x64])
      ([0x68] ++ after) mid
    rw [← state] at skipped
    rw [List.nil_append] at state
    rw [skipped, ← state]
    exact bind_congr_of_ensures rfl (ensures_of_forall fun _ mid' => closing mid')

mutual

/-- The script of an expression does what the expression says. -/
theorem compile_block : (e : Miniscript) → WellFormed e → Skippable e →
    Block prims tx index (compile e) (eval prims tx index e)
  | .pk key, valid, _ => by
    rw [WellFormed, ValidKey] at valid
    rw [compile, eval]
    exact (block_pushData (by omega)).append (keeps_pushElement key) (block_opcode (by decide) (by decide) rfl)
  | .pkH hash, valid, _ => by
    rw [WellFormed] at valid
    have shape : [0x76, 0xa9] ++ pushData hash ++ [0x88, 0xac] =
        [0x76] ++ ([0xa9] ++ (pushData hash ++ ([0x88] ++ [0xac]))) := by simp
    rw [compile, eval, shape]
    exact (block_opcode (by decide) (by decide) rfl).append (keeps_opDup.perform _)
      ((block_opcode (by decide) (by decide) rfl).append ((keeps_hashTop _).perform _)
        ((block_pushData (by omega)).append (keeps_pushElement hash)
          ((block_opcode (by decide) (by decide) rfl).append (keeps_opEqualverify.perform _)
            (block_opcode (by decide) (by decide) rfl))))
  | .older n, _, _ => by
    rw [compile, eval]
    exact (block_pushScriptnum _).append (keeps_pushNumber _) (block_opcode (by decide) (by decide) rfl)
  | .after n, _, _ => by
    rw [compile, eval]
    exact (block_pushScriptnum _).append (keeps_pushNumber _) (block_opcode (by decide) (by decide) rfl)
  | .sha256 hash, _, _ => by
    rw [compile, eval]
    exact block_hash (by decide) (by decide) rfl (by rw [hash.length_eq]; omega)
  | .hash256 hash, _, _ => by
    rw [compile, eval]
    exact block_hash (by decide) (by decide) rfl (by rw [hash.length_eq]; omega)
  | .hash160 hash, _, _ => by
    rw [compile, eval]
    exact block_hash (by decide) (by decide) rfl (by rw [hash.length_eq]; omega)
  | .ripemd160 hash, _, _ => by
    rw [compile, eval]
    exact block_hash (by decide) (by decide) rfl (by rw [hash.length_eq]; omega)
  | .andV x y, valid, skip => by
    rw [WellFormed] at valid
    rw [Skippable] at skip
    rw [compile, eval]
    exact (compile_block x valid.1 skip.1).append (keeps_eval x) (compile_block y valid.2 skip.2)
  | .andB x y, valid, skip => by
    rw [WellFormed] at valid
    rw [Skippable] at skip
    rw [compile, eval, List.append_assoc]
    exact (compile_block x valid.1 skip.1).append (keeps_eval x) ((compile_block y valid.2 skip.2).append
      (keeps_eval y) (block_opcode (by decide) (by decide) rfl))
  | .orB x z, valid, skip => by
    rw [WellFormed] at valid
    rw [Skippable] at skip
    rw [compile, eval, List.append_assoc]
    exact (compile_block x valid.1 skip.1).append (keeps_eval x) ((compile_block z valid.2 skip.2).append
      (keeps_eval z) (block_opcode (by decide) (by decide) rfl))
  | .orD x z, valid, skip => by
    rw [WellFormed] at valid
    rw [Skippable] at skip
    have shape : compile x ++ [0x73, 0x64] ++ compile z ++ [0x68] =
        compile x ++ ([0x73] ++ ([0x64] ++ (compile z ++ [0x68]))) := by simp
    rw [compile, eval, shape]
    exact (compile_block x valid.1 skip.1).append (keeps_eval x)
      ((block_opcode (by decide) (by decide) rfl).append (keeps_opIfdup.perform _)
        (block_branch (compile_block z valid.2 skip.2.1) skip.2.2))
  | .thresh _ [], _, _ => by
    rw [compile, eval]
    exact block_nil
  | .thresh k (first :: rest), valid, skip => by
    rw [WellFormed, AllWellFormed] at valid
    rw [Skippable, AllSkippable] at skip
    rw [compile, eval, List.append_assoc, List.append_assoc]
    exact (compile_block first valid.1 skip.1).append (keeps_eval first)
      ((compileSummands_block rest valid.2 skip.2).append (keeps_evalSummands rest)
        ((block_pushScriptnum _).append (keeps_pushNumber _) (block_opcode (by decide) (by decide) rfl)))
  | .multi k keys, valid, _ => by
    rw [WellFormed] at valid
    rw [compile, eval, List.append_assoc, List.append_assoc]
    exact (block_pushScriptnum _).append (keeps_pushNumber _) ((block_pushKeys valid).append (keeps_pushKeys keys)
      ((block_pushScriptnum _).append (keeps_pushNumber _) (block_opcode (by decide) (by decide) rfl)))
  | .just _, valid, _ => by
    rw [WellFormed] at valid
    exact valid.elim

theorem compileSummands_block : (subs : List Miniscript) → AllWellFormed subs → AllSkippable subs →
    Block prims tx index (compileSummands subs) (evalSummands prims tx index subs)
  | [], _, _ => by
    rw [compileSummands, evalSummands]
    exact block_nil
  | sub :: rest, valid, skip => by
    rw [AllWellFormed] at valid
    rw [AllSkippable] at skip
    rw [compileSummands, evalSummands, List.append_assoc]
    exact (compile_block sub valid.1 skip.1).append (keeps_eval sub)
      ((block_opcode (by decide) (by decide) rfl).append ((keeps_binary _).perform _)
        (compileSummands_block rest valid.2 skip.2))

end

theorem execute_block {code : List UInt8} {op : Op Unit} (block : Block prims tx index code op) (keeps : Keeps op)
    {s final : ScriptInterpreter} (branches : s.conditionStack = []) :
    execute prims tx index code s = .ok ((), final) ↔ code.length ≤ maxScriptSize ∧ op s = .ok ((), final) := by
  have executing : s.shouldExecute = true := by
    rw [ScriptInterpreter.shouldExecute, branches]
    rfl
  have run := block [] [] s executing
  rw [List.nil_append, List.append_nil, List.length_nil] at run
  have ended (t : ScriptInterpreter) : resume prims tx index code code.length t = .ok ((), t) :=
    executeFrom_end (List.getElem?_eq_none (Nat.le_refl _))
  rw [execute_eq_ok]
  refine and_congr_right fun _ => ?_
  show _ ∧ resume prims tx index code 0 s = _ ↔ _
  rw [run, bind_eq_ok]
  constructor
  · rintro ⟨_, ⟨⟩, mid, evaluated, last⟩
    rw [ended] at last
    cases last
    exact evaluated
  · intro evaluated
    exact ⟨((keeps s).apply evaluated).1.trans branches, (), final, evaluated, ended final⟩

end Compilation

end KuberCoin.Miniscripts
