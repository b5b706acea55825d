import KuberCoin.Ripemd160
import KuberCoin.ScriptInterpreters

/-!
The loop of `execute` as a run over positions and states. Each turn reads one opcode and
goes on behind it or, where it executes a push, behind what is pushed. In a branch that is
not executed every turn goes on by one byte, so a push there is not skipped as a whole: its
length bytes and its payload are read as opcodes.
-/
namespace KuberCoin.ScriptRuns

open Bytes Transactions FailingPrograms ScriptInterpreters

section Lengths

/-- How many bytes behind the opcode in front of `pc` belong to its instruction. -/
def payloadLength (opcode : UInt8) (bytes : List UInt8) (pc : ℕ) : ℕ :=
  if opcode ≤ 0x4b then opcode.toNat
  else if opcode = 0x4c then 1 + leValue ((bytes.drop pc).take 1)
  else if opcode = 0x4d then 2 + leValue ((bytes.drop pc).take 2)
  else if opcode = 0x4e then 4 + leValue ((bytes.drop pc).take 4)
  else 0

/-- Where the instruction after the one at `pc` begins. -/
def nextInstruction (bytes : List UInt8) (pc : ℕ) : ℕ :=
  match bytes[pc]? with
  | none => pc + 1
  | some opcode => pc + 1 + payloadLength opcode bytes (pc + 1)

/-- An instruction of the script begins at `pc`. -/
def Boundary (bytes : List UInt8) (pc : ℕ) : Prop := ∃ n, (nextInstruction bytes)^[n] 0 = pc

/-- A push with bytes behind its opcode. -/
def CarriesPayload (opcode : UInt8) : Prop := 0x01 ≤ opcode ∧ opcode ≤ 0x4e

instance (opcode : UInt8) : Decidable (CarriesPayload opcode) := by
  unfold CarriesPayload
  infer_instance

variable {bytes : List UInt8} {pc : ℕ} {opcode : UInt8}

theorem lt_nextInstruction : pc < nextInstruction bytes pc := by
  unfold nextInstruction
  cases bytes[pc]? with
  | none => exact Nat.lt_succ_self pc
  | some opcode => exact Nat.lt_of_lt_of_le (Nat.lt_succ_self pc) (Nat.le_add_right ..)

theorem payloadLength_pos (h : CarriesPayload opcode) : 0 < payloadLength opcode bytes pc := by
  obtain ⟨low, high⟩ := h
  rw [UInt8.le_iff_toNat_le] at low high
  unfold payloadLength
  by_cases small : opcode ≤ 0x4b
  · rw [if_pos small]
    exact low
  · rw [UInt8.le_iff_toNat_le] at small
    have cases3 : opcode = 0x4c ∨ opcode = 0x4d ∨ opcode = 0x4e := by
      simp only [← UInt8.toNat_inj]
      simp only [UInt8.reduceToNat] at small high ⊢
      omega
    obtain rfl | rfl | rfl := cases3
    · simp
    · simp
    · simp

theorem payloadLength_eq_zero (h : ¬ CarriesPayload opcode) : payloadLength opcode bytes pc = 0 := by
  unfold CarriesPayload at h
  simp only [UInt8.le_iff_toNat_le, UInt8.reduceToNat] at h
  unfold payloadLength
  simp only [UInt8.le_iff_toNat_le, ← UInt8.toNat_inj, UInt8.reduceToNat]
  split_ifs <;> omega

theorem boundary_zero : Boundary bytes 0 := ⟨0, rfl⟩

theorem Boundary.next (h : Boundary bytes pc) : Boundary bytes (nextInstruction bytes pc) := by
  obtain ⟨n, rfl⟩ := h
  exact ⟨n + 1, Function.iterate_succ_apply' ..⟩

theorem Boundary.not_inside {inner : ℕ} (h : Boundary bytes pc) (h' : Boundary bytes inner) (behind : pc < inner) :
    nextInstruction bytes pc ≤ inner := by
  have mono : StrictMono fun n => (nextInstruction bytes)^[n] 0 := by
    refine strictMono_nat_of_lt_succ fun n => ?_
    rw [Function.iterate_succ_apply']
    exact lt_nextInstruction
  obtain ⟨n, rfl⟩ := h
  obtain ⟨m, rfl⟩ := h'
  have less : n < m := mono.lt_iff_lt.mp behind
  have next : (nextInstruction bytes)^[n + 1] 0 ≤ (nextInstruction bytes)^[m] 0 :=
    mono.monotone less
  rwa [Function.iterate_succ_apply'] at next

end Lengths

variable (prims : Primitives) (tx : Transaction) (index : ℕ)

section Turns

variable {prims tx index} {bytes bytes' : List UInt8} {pc : ℕ} {opcode : UInt8} {s : ScriptInterpreter}
  {Q : Unit → ScriptInterpreter → Prop} {bound len width : ℕ}

@[simp] theorem ensures_push {data : List UInt8} :
    Ensures (push data) s Q ↔ (data.length ≤ maxElementSize → s.stack.length < maxStackSize →
      Q () { s with stack := data :: s.stack }) := by
  simp [push]

@[simp] theorem ensures_pop {Q : List UInt8 → ScriptInterpreter → Prop} :
    Ensures pop s Q ↔ ∀ top rest, s.stack = top :: rest → Q top { s with stack := rest } := by
  unfold pop
  simp only [ensures_bind, ensures_get]
  cases s.stack with
  | nil => simp
  | cons top rest => simp

@[simp] theorem ensures_peek {depth : ℕ} {Q : List UInt8 → ScriptInterpreter → Prop} :
    Ensures (peek depth) s Q ↔ ∀ value, s.stack[depth]? = some value → Q value s := by
  unfold peek
  simp only [ensures_bind, ensures_get]
  cases s.stack[depth]? with
  | none => simp
  | some value => simp

@[simp] theorem ensures_countOp : Ensures (countOp opcode) s Q ↔
      (opcode > 0x60 → s.opCount < maxOpsPerScript → Q () { s with opCount := s.opCount + 1 }) ∧
        (¬ opcode > 0x60 → Q () s) := by
  simp [countOp]

theorem ensures_countOp_of (h : ∀ n, Q () { s with opCount := n }) : Ensures (countOp opcode) s Q := by
  rw [ensures_countOp]
  exact ⟨fun _ _ => h _, fun _ => h s.opCount⟩

theorem shouldExecute_opCount (n : ℕ) : ScriptInterpreter.shouldExecute { s with opCount := n } = s.shouldExecute := rfl

theorem mem_of_lookup {α : Type} {table : List (UInt8 × α)} {op : α} (h : table.lookup opcode = some op) :
    (opcode, op) ∈ table := by
  obtain ⟨before, after, rfl, _⟩ := List.lookup_eq_some_iff.mp h
  exact List.mem_append_right _ (List.mem_cons_self ..)

theorem pushBytes_pc {message : String} : Ensures (pushBytes bytes pc len message) s fun next _ => next = pc + len := by
  simp [pushBytes]

theorem pushShort_pc : Ensures (pushShort bytes pc len) s fun next _ => next = pc + len := by
  simp [pushShort]

theorem pushPrefixed_pc : Ensures (pushPrefixed bytes pc width bound) s fun next _ =>
      next = pc + (width + leValue ((bytes.drop pc).take width)) := by
  simp only [pushPrefixed, ensures_bind, ensures_ite, ensures_throw]
  refine ⟨fun _ => trivial, fun _ => ⟨fun _ => trivial, fun _ => ?_⟩⟩
  refine pushBytes_pc.mono fun next _ h => ?_
  rw [h, Nat.add_assoc]

theorem executeOpcode_pc : Ensures (executeOpcode prims tx index opcode bytes pc) s
    fun next _ => next = pc + payloadLength opcode bytes pc := by
  unfold executeOpcode payloadLength
  by_cases zero : opcode = 0x00
  · simp [zero]
  rw [if_neg zero]
  by_cases small : 0x51 ≤ opcode ∧ opcode ≤ 0x60
  · have none : payloadLength opcode bytes pc = 0 := by
      refine payloadLength_eq_zero fun h => ?_
      have both := And.intro small.1 h.2
      simp only [UInt8.le_iff_toNat_le, UInt8.reduceToNat] at both
      omega
    rw [payloadLength] at none
    rw [if_pos small, none]
    simp
  rw [if_neg small]
  by_cases short : opcode ≤ 0x4b
  · rw [if_pos short, if_pos short]
    exact pushShort_pc
  rw [if_neg short, if_neg short]
  by_cases one : opcode = 0x4c
  · rw [if_pos one, if_pos one]
    exact pushPrefixed_pc
  rw [if_neg one, if_neg one]
  by_cases two : opcode = 0x4d
  · rw [if_pos two, if_pos two]
    exact pushPrefixed_pc
  rw [if_neg two, if_neg two]
  by_cases four : opcode = 0x4e
  · rw [if_pos four, if_pos four]
    exact pushPrefixed_pc
  rw [if_neg four, if_neg four]
  by_cases separator : opcode = 0xab
  · rw [if_pos separator]
    simp
  rw [if_neg separator]
  cases (opcodeTable prims tx index).lookup opcode with
  | some op =>
    rw [ensures_bind]
    exact ensures_of_forall fun _ _ => by simp
  | none =>
    simp

theorem step_pc (read : bytes[pc]? = some opcode) : Ensures (step prims tx index bytes opcode (pc + 1)) s fun next _ =>
      if s.shouldExecute || isFlowControlOp opcode then next = nextInstruction bytes pc
      else next = pc + 1 := by
  unfold step
  rw [ensures_bind]
  refine ensures_countOp_of fun n => ?_
  have next : nextInstruction bytes pc = pc + 1 + payloadLength opcode bytes (pc + 1) := by
    simp [nextInstruction, read]
  cases exec : s.shouldExecute || isFlowControlOp opcode with
  | false =>
    simp only [Bool.or_eq_false_iff] at exec
    simp [exec, shouldExecute_opCount]
  | true =>
    have go : (!s.shouldExecute && !isFlowControlOp opcode) = false := by
      rw [← Bool.not_or, exec, Bool.not_true]
    simp only [ensures_bind, ensures_get, shouldExecute_opCount, go, next]
    exact executeOpcode_pc

theorem step_progress (read : bytes[pc]? = some opcode) :
    Ensures (step prims tx index bytes opcode (pc + 1)) s fun next _ => pc + 1 ≤ next := by
  refine (step_pc read).mono fun next _ h => ?_
  have behind : pc < nextInstruction bytes pc := lt_nextInstruction
  split at h
  · omega
  · omega

theorem pushPrefixed_congr (same : bytes.length = bytes'.length)
    (agree : (bytes.drop pc).take (width + leValue ((bytes.drop pc).take width)) =
      (bytes'.drop pc).take (width + leValue ((bytes.drop pc).take width))) :
    pushPrefixed bytes pc width bound = pushPrefixed bytes' pc width bound := by
  have front : (bytes.drop pc).take width = (bytes'.drop pc).take width := by
    have h := congrArg (List.take width) agree
    rwa [List.take_take, List.take_take, Nat.min_eq_left (Nat.le_add_right ..)] at h
  have back : (bytes.drop (pc + width)).take (leValue ((bytes.drop pc).take width)) =
      (bytes'.drop (pc + width)).take (leValue ((bytes.drop pc).take width)) := by
    have h := congrArg (List.drop width) agree
    rwa [List.drop_take, List.drop_take, Nat.add_sub_cancel_left, List.drop_drop,
      List.drop_drop] at h
  simp only [pushPrefixed, pushBytes, ← same, ← front, back]

/-- An opcode reads no bytes of the script but those of its own instruction. -/
theorem executeOpcode_congr (same : bytes.length = bytes'.length)
    (agree : (bytes.drop pc).take (payloadLength opcode bytes pc) =
      (bytes'.drop pc).take (payloadLength opcode bytes pc)) :
    executeOpcode prims tx index opcode bytes pc = executeOpcode prims tx index opcode bytes' pc := by
  unfold executeOpcode
  by_cases short : opcode ≤ 0x4b
  · rw [payloadLength, if_pos short] at agree
    simp only [if_pos short, pushShort, same, agree]
  by_cases one : opcode = 0x4c
  · rw [payloadLength, if_neg short, if_pos one] at agree
    have prefixed : pushPrefixed bytes pc 1 75 = pushPrefixed bytes' pc 1 75 :=
      pushPrefixed_congr same agree
    simp only [if_neg short, if_pos one, prefixed]
  by_cases two : opcode = 0x4d
  · rw [payloadLength, if_neg short, if_neg one, if_pos two] at agree
    have prefixed : pushPrefixed bytes pc 2 255 = pushPrefixed bytes' pc 2 255 :=
      pushPrefixed_congr same agree
    simp only [if_neg short, if_neg one, if_pos two, prefixed]
  by_cases four : opcode = 0x4e
  · rw [payloadLength, if_neg short, if_neg one, if_neg two, if_pos four] at agree
    have prefixed : pushPrefixed bytes pc 4 65535 = pushPrefixed bytes' pc 4 65535 :=
      pushPrefixed_congr same agree
    simp only [if_neg short, if_neg one, if_neg two, if_pos four, prefixed]
  simp only [if_neg short, if_neg one, if_neg two, if_neg four]

theorem step_congr (same : bytes.length = bytes'.length) (agree : (s.shouldExecute || isFlowControlOp opcode) = true →
      (bytes.drop pc).take (payloadLength opcode bytes pc) =
        (bytes'.drop pc).take (payloadLength opcode bytes pc)) :
    step prims tx index bytes opcode pc s = step prims tx index bytes' opcode pc s := by
  unfold step
  refine bind_congr_of_ensures rfl (ensures_countOp_of fun n => ?_)
  refine bind_congr_of_ensures rfl (ensures_get.mpr ?_)
  rw [shouldExecute_opCount]
  cases exec : s.shouldExecute || isFlowControlOp opcode with
  | false =>
    rw [← Bool.not_or, exec]
    rfl
  | true => rw [executeOpcode_congr same (agree exec)]

/-- Bytes up to `0x60` that open no branch are passed over without effect. -/
theorem step_inert (inert : opcode ≤ 0x60) (skipped : s.shouldExecute = false) :
    step prims tx index bytes opcode pc s = .ok (pc, s) := by
  have plain : isFlowControlOp opcode = false := by
    simp only [UInt8.le_iff_toNat_le, UInt8.reduceToNat] at inert
    simp only [isFlowControlOp, ← UInt8.toNat_inj, UInt8.reduceToNat, Bool.or_eq_false_iff,
      decide_eq_false_iff_not]
    omega
  have uncounted : ¬ opcode > 0x60 := UInt8.not_lt.mpr inert
  have count : countOp opcode s = .ok ((), s) := by
    rw [countOp, if_neg uncounted]
    rfl
  rw [step, bind_of_ok count, get_bind]
  simp [skipped, plain]
  rfl

end Turns

section Runs

variable {fuel limit : ℕ} {final : ScriptInterpreter} {after before payload : List UInt8}

/-- The positions and states at which the loop of `execute` stands when it is started in
`start`. -/
inductive Visits (bytes : List UInt8) (start : ScriptInterpreter) : ℕ → ScriptInterpreter → Prop
  | start : Visits bytes start 0 start
  | turn {pc next : ℕ} {s s' : ScriptInterpreter} {opcode : UInt8} (before : Visits bytes start pc s)
      (read : bytes[pc]? = some opcode)
      (run : step prims tx index bytes opcode (pc + 1) s = .ok (next, s')) : Visits bytes start next s'

variable {prims tx index} {bytes bytes' : List UInt8} {start s : ScriptInterpreter} {pc : ℕ}

theorem executeFrom_turn {fuel : ℕ} {opcode : UInt8} (read : bytes[pc]? = some opcode) :
    executeFrom prims tx index bytes (fuel + 1) pc =
      step prims tx index bytes opcode (pc + 1) >>= executeFrom prims tx index bytes fuel := by
  rw [executeFrom, read]

theorem executeFrom_end (ended : bytes[pc]? = none) : executeFrom prims tx index bytes fuel pc s = .ok ((), s) := by
  cases fuel with
  | zero => rfl
  | succ fuel =>
    rw [executeFrom, ended]
    rfl

/-- Turns beyond the length of the script change nothing. -/
theorem executeFrom_fuel {fuel' : ℕ} (enough : bytes.length ≤ pc + fuel) (enough' : bytes.length ≤ pc + fuel') :
    executeFrom prims tx index bytes fuel pc s = executeFrom prims tx index bytes fuel' pc s := by
  induction fuel generalizing fuel' pc s with
  | zero =>
    have ended : bytes[pc]? = none := List.getElem?_eq_none (by omega)
    rw [executeFrom_end ended, executeFrom_end ended]
  | succ fuel ih =>
    cases read : bytes[pc]? with
    | none => rw [executeFrom_end read, executeFrom_end read]
    | some opcode =>
      have inside : pc < bytes.length := (List.getElem?_eq_some_iff.mp read).1
      obtain ⟨more, rfl⟩ : ∃ more, fuel' = more + 1 := ⟨fuel' - 1, by omega⟩
      rw [executeFrom_turn read, executeFrom_turn read]
      refine bind_congr_of_ensures rfl ((step_progress read).mono fun next mid ahead => ?_)
      exact ih (by omega) (by omega)

theorem Visits.executeFrom_eq (h : Visits prims tx index bytes start pc s) :
    executeFrom prims tx index bytes bytes.length 0 start =
      executeFrom prims tx index bytes bytes.length pc s := by
  induction h with
  | start => rfl
  | @turn pc next s s' opcode before read run ih =>
    have inside : pc < bytes.length := (List.getElem?_eq_some_iff.mp read).1
    have ahead : pc + 1 ≤ next := (step_progress read).apply run
    obtain ⟨n, size⟩ : ∃ n, bytes.length = n + 1 := ⟨bytes.length - 1, by omega⟩
    rw [ih, size, executeFrom_turn read, bind_of_ok run]
    exact executeFrom_fuel (by omega) (by omega)

theorem Visits.of_executeFrom (h : Visits prims tx index bytes start pc s) (enough : bytes.length ≤ pc + fuel)
    (run : executeFrom prims tx index bytes fuel pc s = .ok ((), final)) :
    ∃ last, bytes.length ≤ last ∧ Visits prims tx index bytes start last final := by
  induction fuel generalizing pc s with
  | zero =>
    cases run
    exact ⟨pc, by omega, h⟩
  | succ fuel ih =>
    cases read : bytes[pc]? with
    | none =>
      rw [executeFrom_end read] at run
      cases run
      exact ⟨pc, List.getElem?_eq_none_iff.mp read, h⟩
    | some opcode =>
      rw [executeFrom_turn read] at run
      obtain ⟨next, mid, first, rest⟩ := bind_eq_ok.mp run
      have ahead : pc + 1 ≤ next := (step_progress read).apply first
      exact ih (h.turn read first) (by omega) rest

theorem execute_large (large : bytes.length > maxScriptSize) :
    execute prims tx index bytes start = .error .scriptTooLarge := by
  rw [execute, if_pos large]
  rfl

/-- The check of `execute` after its loop. -/
def closeBranches : Op Unit := do
  let s ← get
  if s.conditionStack ≠ [] then throw (.flowControl "Unbalanced conditional")

theorem execute_run (size : ¬ bytes.length > maxScriptSize) : execute prims tx index bytes start =
      (executeFrom prims tx index bytes bytes.length 0 >>= fun _ => closeBranches) start := by
  rw [execute, if_neg size]
  rfl

theorem closeBranches_ok : closeBranches s = .ok ((), final) ↔ s = final ∧ final.conditionStack = [] := by
  rw [closeBranches, get_bind]
  by_cases closed : s.conditionStack = []
  · rw [if_neg (not_not.mpr closed)]
    constructor
    · intro h
      cases h
      exact ⟨rfl, closed⟩
    · rintro ⟨rfl, _⟩
      rfl
  · rw [if_pos closed]
    refine iff_of_false (fun h => by cases h) ?_
    rintro ⟨rfl, h⟩
    exact closed h

theorem execute_eq_ok : execute prims tx index bytes start = .ok ((), final) ↔
      bytes.length ≤ maxScriptSize ∧ final.conditionStack = [] ∧
        executeFrom prims tx index bytes bytes.length 0 start = .ok ((), final) := by
  by_cases size : bytes.length > maxScriptSize
  · rw [execute_large size]
    exact iff_of_false (by simp) (by omega)
  rw [execute_run size, bind_eq_ok]
  simp only [closeBranches_ok]
  constructor
  · rintro ⟨⟨⟩, mid, loop, rfl, closed⟩
    exact ⟨by omega, closed, loop⟩
  · rintro ⟨_, closed, loop⟩
    exact ⟨(), final, loop, rfl, closed⟩

/-- `execute` succeeds exactly when its loop visits a state behind the end of the script in
which every branch is closed. -/
theorem execute_ok_iff : execute prims tx index bytes start = .ok ((), final) ↔
      bytes.length ≤ maxScriptSize ∧ final.conditionStack = [] ∧
        ∃ last, bytes.length ≤ last ∧ Visits prims tx index bytes start last final := by
  rw [execute_eq_ok]
  refine and_congr_right fun _ => and_congr_right fun _ => ⟨fun run => ?_, ?_⟩
  · exact Visits.start.of_executeFrom (by omega) run
  · rintro ⟨last, behind, visited⟩
    rw [visited.executeFrom_eq]
    exact executeFrom_end (List.getElem?_eq_none behind)

theorem slice_of_take {n : ℕ} (agree : bytes.take limit = bytes'.take limit) (inside : pc + n ≤ limit) :
    (bytes.drop pc).take n = (bytes'.drop pc).take n := by
  have h := congrArg (fun l => (l.drop pc).take n) agree
  simp only [List.drop_take, List.take_take] at h
  rwa [Nat.min_eq_left (by omega)] at h

/-- Up to a position the run visits, it reads nothing behind it. -/
theorem Visits.of_take (h : Visits prims tx index bytes start pc s) (inside : pc ≤ limit)
    (same : bytes.length = bytes'.length) (agree : bytes.take limit = bytes'.take limit) :
    Visits prims tx index bytes' start pc s := by
  induction h with
  | start => exact .start
  | @turn pc next s s' opcode before read run ih =>
    have ahead : pc + 1 ≤ next := (step_progress read).apply run
    have read' : bytes'[pc]? = some opcode := by
      rw [← List.getElem?_take_of_lt (show pc < limit by omega), ← agree,
        List.getElem?_take_of_lt (by omega), read]
    have run' := run
    rw [step_congr same fun exec => ?_] at run'
    · exact (ih (by omega)).turn read' run'
    · have here := (step_pc read).apply run
      rw [if_pos exec] at here
      have whole : nextInstruction bytes pc = pc + 1 + payloadLength opcode bytes (pc + 1) := by
        simp [nextInstruction, read]
      exact slice_of_take agree (by omega)

theorem executeFrom_congr (behind : limit ≤ pc) (same : bytes.length = bytes'.length)
    (agree : bytes.drop limit = bytes'.drop limit) :
    executeFrom prims tx index bytes fuel pc s = executeFrom prims tx index bytes' fuel pc s := by
  have suffix {p : ℕ} (hp : limit ≤ p) : bytes.drop p = bytes'.drop p := by
    have h := congrArg (List.drop (p - limit)) agree
    rwa [List.drop_drop, List.drop_drop, Nat.add_sub_cancel' hp] at h
  induction fuel generalizing pc s with
  | zero => rfl
  | succ fuel ih =>
    have reads : bytes[pc]? = bytes'[pc]? := by
      have h := congrArg (·[0]?) (suffix behind)
      simpa using h
    cases read : bytes[pc]? with
    | none => rw [executeFrom_end read, executeFrom_end (reads ▸ read)]
    | some opcode =>
      rw [executeFrom_turn read, executeFrom_turn (reads ▸ read)]
      have turn : step prims tx index bytes opcode (pc + 1) s =
          step prims tx index bytes' opcode (pc + 1) s :=
        step_congr same fun _ => by rw [suffix (by omega)]
      refine bind_congr_of_ensures turn ((step_progress read).mono fun next mid ahead => ?_)
      exact ih (by omega)

/-- Bytes up to `0x60` in a branch that is not executed are passed over one by one. -/
theorem Visits.skip (h : Visits prims tx index (before ++ payload ++ after) start before.length s)
    (skipped : s.shouldExecute = false) (inert : ∀ b ∈ payload, b ≤ 0x60) :
    Visits prims tx index (before ++ payload ++ after) start (before.length + payload.length) s := by
  induction payload generalizing before with
  | nil => exact h
  | cons b rest ih =>
    have read : (before ++ b :: rest ++ after)[before.length]? = some b := by simp
    have one := h.turn read (step_inert (inert b (List.mem_cons_self ..)) skipped)
    have shape : before ++ b :: rest ++ after = (before ++ [b]) ++ rest ++ after := by simp
    rw [shape] at one ⊢
    have size : before.length + (b :: rest).length = (before ++ [b]).length + rest.length := by
      simp only [List.length_append, List.length_cons, List.length_nil]
      omega
    rw [size]
    refine ih ?_ fun c hc => inert c (List.mem_cons_of_mem _ hc)
    simpa using one

/-- Where the run reaches bytes up to `0x60` in a branch that is not executed, other such bytes in
their place make no difference. -/
theorem execute_replace {payload' : List UInt8} (same : payload.length = payload'.length)
    (h : Visits prims tx index (before ++ payload ++ after) start before.length s) (skipped : s.shouldExecute = false)
    (inert : ∀ b ∈ payload, b ≤ 0x60) (inert' : ∀ b ∈ payload', b ≤ 0x60) :
    execute prims tx index (before ++ payload' ++ after) start =
      execute prims tx index (before ++ payload ++ after) start := by
  have lengths : (before ++ payload ++ after).length = (before ++ payload' ++ after).length := by
    simp only [List.length_append, same]
  have front : (before ++ payload ++ after).take before.length =
      (before ++ payload' ++ after).take before.length := by simp
  have back : (before ++ payload ++ after).drop (before.length + payload.length) =
      (before ++ payload' ++ after).drop (before.length + payload.length) := by
    rw [← List.length_append, List.drop_left, List.length_append, same, ← List.length_append,
      List.drop_left]
  have h' := h.of_take (Nat.le_refl _) lengths front
  have through := (h.skip skipped inert).executeFrom_eq
  have through' := (h'.skip skipped inert').executeFrom_eq
  rw [← same] at through'
  have loops : executeFrom prims tx index (before ++ payload' ++ after)
      (before ++ payload' ++ after).length 0 start =
        executeFrom prims tx index (before ++ payload ++ after)
          (before ++ payload ++ after).length 0 start := by
    rw [through, through', ← lengths]
    exact (executeFrom_congr (Nat.le_refl _) lengths back).symm
  by_cases large : (before ++ payload ++ after).length > maxScriptSize
  · rw [execute_large large, execute_large (lengths ▸ large)]
  rw [execute_run large, execute_run (lengths ▸ large)]
  exact bind_congr_of_ensures loops (ensures_of_forall fun _ _ => rfl)

/-- Where a run reads an opcode, an instruction begins, if it skips no push with bytes behind it. -/
theorem Visits.boundary (h : Visits prims tx index bytes start pc s)
    (bare : ∀ pc s opcode, Visits prims tx index bytes start pc s → bytes[pc]? = some opcode →
      s.shouldExecute = false → CarriesPayload opcode → bytes.length ≤ pc + 1) :
    bytes.length ≤ pc ∨ Boundary bytes pc := by
  induction h with
  | start => exact .inr boundary_zero
  | @turn pc next s s' opcode before read run ih =>
    have inside : pc < bytes.length := (List.getElem?_eq_some_iff.mp read).1
    have here : Boundary bytes pc := ih.resolve_left (by omega)
    have whole : nextInstruction bytes pc = pc + 1 + payloadLength opcode bytes (pc + 1) := by
      simp [nextInstruction, read]
    have ahead := (step_pc read).apply run
    cases exec : s.shouldExecute || isFlowControlOp opcode with
    | true =>
      rw [exec, if_pos rfl] at ahead
      exact .inr (ahead ▸ here.next)
    | false =>
      rw [exec, if_neg (by simp)] at ahead
      rw [Bool.or_eq_false_iff] at exec
      by_cases carries : CarriesPayload opcode
      · have last := bare pc s opcode before read exec.1 carries
        exact .inl (by omega)
      · rw [payloadLength_eq_zero carries, Nat.add_zero] at whole
        exact .inr (ahead ▸ whole ▸ here.next)

end Runs

section Skipping

variable {prims tx index}

theorem skips_whole_instructions_iff (bytes : List UInt8) (start : ScriptInterpreter) :
    ((∀ pc s, Visits prims tx index bytes start pc s → pc < bytes.length → Boundary bytes pc) ↔
      ∀ pc s opcode, Visits prims tx index bytes start pc s → bytes[pc]? = some opcode →
        s.shouldExecute = false → CarriesPayload opcode → bytes.length ≤ pc + 1) ∧
    ∀ before payload payload' after s, bytes = before ++ payload ++ after →
      payload.length = payload'.length →
      Visits prims tx index bytes start before.length s → s.shouldExecute = false →
      (∀ b ∈ payload, b ≤ 0x60) → (∀ b ∈ payload', b ≤ 0x60) →
      execute prims tx index (before ++ payload' ++ after) start =
        execute prims tx index bytes start := by
  refine ⟨⟨fun whole pc s opcode visited read skipped carries => ?_, fun bare pc s visited inside => ?_⟩, ?_⟩
  · by_contra more
    have inside : pc + 1 < bytes.length := by omega
    have plain : opcode ≤ 0x60 := UInt8.le_trans carries.2 (by decide)
    have next := visited.turn read (step_inert plain skipped)
    have here := whole pc s visited (by omega)
    have there := whole (pc + 1) s next inside
    have beyond := here.not_inside there (Nat.lt_succ_self pc)
    have size : nextInstruction bytes pc = pc + 1 + payloadLength opcode bytes (pc + 1) := by
      simp [nextInstruction, read]
    have pos : 0 < payloadLength opcode bytes (pc + 1) := payloadLength_pos carries
    omega
  · exact (visited.boundary bare).resolve_left (by omega)
  · rintro before payload payload' after s rfl same visited skipped inert inert'
    exact execute_replace same visited skipped inert inert'

end Skipping

section SkippedPush

/-- The hash functions with a curve on which no key parses, for scripts that check no
signature and do not call SHA-1. -/
def keyless : Primitives where
  sha256 := Sha256.sha256
  ripemd160 := Ripemd160.ripemd160
  sha1 _ := List.replicate 20 0
  ripemd160_length := Ripemd160.ripemd160_length
  sha1_length _ := List.length_replicate
  publicKey _ := .error "malformed public key"
  serializeKey key := key
  fromDer _ := .error "malformed signature"
  lowS _ := true
  verifyEcdsa _ _ _ := false

def emptyTx : Transaction := ⟨1, [], [], 0⟩

/-- `OP_0 OP_IF <0x68> OP_ENDIF OP_1`: the byte pushed in the branch that is not executed closes
the branch, and the `OP_ENDIF` after it fails. With `0x60` in its place the script succeeds. -/
theorem skipped_payload_closes_branch : execute keyless emptyTx 0 [0x00, 0x63, 0x01, 0x68, 0x68, 0x51] .new =
        .error (.flowControl "OP_ENDIF without OP_IF") ∧
      execute keyless emptyTx 0 [0x00, 0x63, 0x01, 0x60, 0x68, 0x51] .new =
        .ok ((), { ScriptInterpreter.new with stack := [[1]], opCount := 2 }) := by
  constructor
  · decide +kernel
  · decide +kernel

end SkippedPush

end KuberCoin.ScriptRuns
