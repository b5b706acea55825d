import KuberCoin.PayToScriptHash

/-!
The limits on the stacks of the interpreter. `push` bounds an element and the main stack;
nothing counts the alternate stack with it, and `push_data` bounds neither. So the limits hold
at every step of a run that starts within them, as long as each opcode that adds elements
finds room in both stacks together.
-/
namespace KuberCoin.ScriptLimits

open Bytes Transactions Validator InputScripts FailingPrograms ScriptInterpreters ScriptRuns
  PayToScriptHash

section Limits

def elements (s : ScriptInterpreter) : List (List UInt8) := s.stack ++ s.altStack

/-- No element is longer than the limit. -/
def Short (s : ScriptInterpreter) : Prop := ∀ e ∈ elements s, e.length ≤ maxElementSize

structure WithinLimits (s : ScriptInterpreter) : Prop where
  count : (elements s).length ≤ maxStackSize
  short : Short s

/-- How many elements an opcode adds to the two stacks together. -/
def growth (opcode : UInt8) (s : ScriptInterpreter) : ℕ :=
  if opcode ≤ 0x60 then 1
  else if opcode = 0x73 then if isTrue (s.stack.headD []) then 1 else 0
  else if opcode ∈ [0x74, 0x76, 0x78, 0x7d, 0x82] then 1
  else if opcode ∈ [0x6e, 0x70] then 2
  else if opcode = 0x6f then 3
  else 0

/-- What an opcode that adds `k` elements has done: it found room for them on the main stack. -/
structure Grown (k : ℕ) (s s' : ScriptInterpreter) : Prop where
  short : Short s → Short s'
  count : (elements s').length ≤ (elements s).length + k
  room : 0 < k → s.stack.length + k ≤ maxStackSize

end Limits

section Opcodes

variable {prims : Primitives} {tx : Transaction} {index : ℕ} {s s' : ScriptInterpreter}
  {bytes : List UInt8} {pc : ℕ} {opcode : UInt8}

@[grind =] theorem short_iff : Short s ↔
    (∀ e ∈ s.stack, e.length ≤ maxElementSize) ∧ ∀ e ∈ s.altStack, e.length ≤ maxElementSize := by
  unfold Short elements
  simp only [List.mem_append]
  exact ⟨fun h => ⟨fun e he => h e (.inl he), fun e he => h e (.inr he)⟩,
    fun h e he => he.elim (h.1 e) (h.2 e)⟩

@[grind =] theorem elements_length : (elements s).length = s.stack.length + s.altStack.length :=
  List.length_append

@[simp] theorem ensures_popInt {Q : Int64 → ScriptInterpreter → Prop} :
    Ensures popInt s Q ↔ ∀ top rest, s.stack = top :: rest →
      ∀ a, bytesToInt top = .ok a → Q a { s with stack := rest } := by
  simp [popInt]

theorem Grown.of_same (stack : s'.stack = s.stack) (alt : s'.altStack = s.altStack) : Grown 0 s s' := by
  constructor <;> grind

theorem Grown.of_split {new rest : List (List UInt8)} (short : ∀ e ∈ new, e.length ≤ maxElementSize)
    (kept : ∀ e ∈ rest, e ∈ s.stack) (stack : s'.stack = new ++ rest) (alt : s'.altStack = s.altStack)
    (count : new.length + rest.length ≤ s.stack.length) : Grown 0 s s' := by
  refine ⟨fun before => ?_, ?_, fun h => by omega⟩
  · rw [short_iff] at before ⊢
    rw [stack, alt]
    refine ⟨fun e he => ?_, before.2⟩
    exact (List.mem_append.mp he).elim (short e) fun h => before.1 e (kept e h)
  · rw [elements_length, elements_length, stack, alt, List.length_append]
    omega

theorem push_grown (data : List UInt8) : Ensures (push data) s fun _ s' => Grown 1 s s' := by
  simp only [ensures_push]
  intros
  constructor <;> grind

theorem opIf_grown : Ensures opIf s fun _ s' => Grown 0 s s' := by
  simp only [opIf, ensures_bind, ensures_get, ensures_ite, ensures_pop, ensures_modify]
  refine ⟨fun _ top rest _ => ?_, fun _ => Grown.of_same rfl rfl⟩
  constructor <;> grind

theorem opNotif_grown : Ensures opNotif s fun _ s' => Grown 0 s s' := by
  simp only [opNotif, ensures_bind, ensures_get, ensures_ite, ensures_pop, ensures_modify]
  refine ⟨fun _ top rest _ => ?_, fun _ => Grown.of_same rfl rfl⟩
  constructor <;> grind

theorem opElse_grown : Ensures opElse s fun _ s' => Grown 0 s s' := by
  simp only [opElse, ensures_bind, ensures_get]
  cases s.conditionStack with
  | nil => simp
  | cons cond rest => exact ensures_set.mpr (Grown.of_same rfl rfl)

theorem opEndif_grown : Ensures opEndif s fun _ s' => Grown 0 s s' := by
  simp only [opEndif, ensures_bind, ensures_get]
  cases s.conditionStack with
  | nil => simp
  | cons cond rest => exact ensures_set.mpr (Grown.of_same rfl rfl)

theorem opVerify_grown : Ensures opVerify s fun _ s' => Grown 0 s s' := by
  simp only [opVerify, ensures_bind, ensures_pop, ensures_ite, ensures_throw, ensures_pure]
  refine fun top rest _ => ⟨fun _ => trivial, fun _ => ?_⟩
  constructor <;> grind

theorem opToaltstack_grown : Ensures opToaltstack s fun _ s' => Grown 0 s s' := by
  simp only [opToaltstack, ensures_bind, ensures_pop, ensures_modify]
  intros
  constructor <;> grind

/-- An element comes back from the alternate stack: the total stays. -/
theorem opFromaltstack_grown : Ensures opFromaltstack s fun _ s' => Grown 0 s s' := by
  simp only [opFromaltstack, ensures_bind, ensures_get]
  cases alt : s.altStack with
  | nil => simp
  | cons value rest =>
    simp only [ensures_bind, ensures_set, ensures_push]
    intros
    constructor <;> grind

theorem opIfdup_grown : Ensures opIfdup s fun _ s' =>
    Grown (if isTrue (s.stack.headD []) then 1 else 0) s s' := by
  simp only [opIfdup, ensures_bind, ensures_peek, ensures_ite, ensures_push, ensures_pure]
  intro top htop
  have head : s.stack.headD [] = top := by
    rw [List.headD_eq_head?_getD, List.head?_eq_getElem?, htop]
    rfl
  rw [head]
  refine ⟨fun true _ _ => ?_, fun false => ?_⟩
  · rw [if_pos true]
    constructor <;> grind
  · rw [if_neg false]
    exact Grown.of_same rfl rfl

theorem opDepth_grown : Ensures opDepth s fun _ s' => Grown 1 s s' := by
  simp only [opDepth, ensures_bind, ensures_get]
  exact push_grown _

theorem opDrop_grown : Ensures opDrop s fun _ s' => Grown 0 s s' := by
  simp only [opDrop, ensures_bind, ensures_pop, ensures_pure]
  intros
  constructor <;> grind

theorem copy_grown (depth : ℕ) : Ensures (do push (← peek depth)) s fun _ s' => Grown 1 s s' := by
  simp only [ensures_bind, ensures_peek]
  intros
  exact push_grown _

theorem opNip_grown : Ensures opNip s fun _ s' => Grown 0 s s' := by
  simp only [opNip, ensures_bind, ensures_pop, ensures_push]
  intros
  constructor <;> grind

theorem opRot_grown : Ensures opRot s fun _ s' => Grown 0 s s' := by
  simp only [opRot, ensures_bind, ensures_pop, ensures_push]
  intros
  constructor <;> grind

theorem opSwap_grown : Ensures opSwap s fun _ s' => Grown 0 s s' := by
  simp only [opSwap, ensures_bind, ensures_pop, ensures_push]
  intros
  constructor <;> grind

theorem opTuck_grown : Ensures opTuck s fun _ s' => Grown 1 s s' := by
  simp only [opTuck, ensures_bind, ensures_pop, ensures_push]
  intros
  constructor <;> grind

theorem op2rot_grown : Ensures op2rot s fun _ s' => Grown 0 s s' := by
  simp only [op2rot, ensures_bind, ensures_pop, ensures_push]
  rintro a _ hs b _ rfl c _ rfl d _ rfl e _ rfl f rest rfl hd _ hc _ hb _ ha _ hf _ he _
  have shorts : ∀ x ∈ [e, f, a, b, c, d], x.length ≤ maxElementSize := by
    simp [ha, hb, hc, hd, he, hf]
  have kept : ∀ x ∈ rest, x ∈ s.stack := fun x hx => by simp [hs, hx]
  have count : [e, f, a, b, c, d].length + rest.length ≤ s.stack.length := by
    simp only [hs, List.length_cons, List.length_nil]
    omega
  exact Grown.of_split shorts kept rfl rfl count

theorem op2swap_grown : Ensures op2swap s fun _ s' => Grown 0 s s' := by
  simp only [op2swap, ensures_bind, ensures_pop, ensures_push]
  intros
  constructor <;> grind

theorem op2drop_grown : Ensures op2drop s fun _ s' => Grown 0 s s' := by
  simp only [op2drop, ensures_bind, ensures_pop, ensures_pure]
  intros
  constructor <;> grind

theorem op2dup_grown : Ensures op2dup s fun _ s' => Grown 2 s s' := by
  simp only [op2dup, ensures_bind, ensures_peek, ensures_push]
  intros
  constructor <;> grind

theorem op2over_grown : Ensures op2over s fun _ s' => Grown 2 s s' := by
  simp only [op2over, ensures_bind, ensures_peek, ensures_push]
  intros
  constructor <;> grind

theorem op3dup_grown : Ensures op3dup s fun _ s' => Grown 3 s s' := by
  simp only [op3dup, ensures_bind, ensures_peek, ensures_push]
  intros
  constructor <;> grind

theorem opPick_grown : Ensures opPick s fun _ s' => Grown 0 s s' := by
  simp only [opPick, ensures_bind, ensures_popInt, ensures_peek, ensures_push]
  intros
  constructor <;> grind

theorem opRoll_grown : Ensures opRoll s fun _ s' => Grown 0 s s' := by
  simp only [opRoll, ensures_bind, ensures_popInt, ensures_get]
  intro n rest hs a _
  cases h : rest[asUsize a]? with
  | none => simp
  | some value =>
    rw [ensures_set]
    have moved : value ∈ rest := List.mem_of_getElem? h
    have kept : ∀ e ∈ rest.eraseIdx (asUsize a), e ∈ rest := fun e => List.mem_of_mem_eraseIdx
    have size := List.length_eraseIdx_of_lt (List.getElem?_eq_some_iff.mp h).1
    have inside := (List.getElem?_eq_some_iff.mp h).1
    constructor <;> grind

theorem opSize_grown : Ensures opSize s fun _ s' => Grown 1 s s' := by
  simp only [opSize, ensures_bind, ensures_peek]
  intros
  exact push_grown _

theorem opEqual_grown : Ensures opEqual s fun _ s' => Grown 0 s s' := by
  simp only [opEqual, ensures_bind, ensures_pop, ensures_push]
  intros
  constructor <;> grind

theorem unary_grown (f : Int64 → Int64) : Ensures (unary f) s fun _ s' => Grown 0 s s' := by
  simp only [unary, ensures_bind, ensures_popInt, ensures_push]
  intros
  constructor <;> grind

theorem binary_grown (f : Int64 → Int64 → Int64) : Ensures (binary f) s fun _ s' => Grown 0 s s' := by
  simp only [binary, ensures_bind, ensures_pop, ensures_lift, ensures_push]
  intros
  constructor <;> grind

theorem opWithin_grown : Ensures opWithin s fun _ s' => Grown 0 s s' := by
  simp only [opWithin, ensures_bind, ensures_pop, ensures_lift, ensures_push]
  intros
  constructor <;> grind

theorem hashTop_grown (hash : List UInt8 → List UInt8) : Ensures (hashTop hash) s fun _ s' => Grown 0 s s' := by
  simp only [hashTop, ensures_bind, ensures_pop, ensures_push]
  intros
  constructor <;> grind

theorem opChecksig_grown : Ensures (opChecksig prims tx index) s fun _ s' => Grown 0 s s' := by
  simp only [opChecksig, ensures_bind, ensures_pop, ensures_ite, ensures_push, ensures_get,
    ensures_lift]
  refine fun key rest _ sig rest' _ => ⟨fun _ _ _ => ?_, fun _ _ _ _ _ => ?_⟩
  · constructor <;> grind
  · constructor <;> grind

@[simp] theorem ensures_popMany {n : ℕ} {Q : List (List UInt8) → ScriptInterpreter → Prop} : Ensures (popMany n) s Q ↔
      (n ≤ s.stack.length → Q (s.stack.take n) { s with stack := s.stack.drop n }) := by
  induction n generalizing s Q with
  | zero => simp [popMany]
  | succ n ih =>
    simp only [popMany, ensures_bind, ensures_pop, ih, ensures_pure]
    cases hs : s.stack with
    | nil => simp
    | cons top rest => simp

theorem opCheckmultisig_grown : Ensures (opCheckmultisig prims tx index) s fun _ s' => Grown 0 s s' := by
  simp only [opCheckmultisig, ensures_bind, ensures_popInt, ensures_ite, ensures_throw,
    ensures_popMany, ensures_pop, ensures_get, ensures_lift, ensures_push]
  refine fun _ keys hn n _ => ⟨fun _ => trivial, fun _ _ => ?_⟩
  refine fun _ sigs hm m _ => ⟨fun _ => trivial, fun _ _ => ?_⟩
  refine fun _ rest hd => ⟨fun _ => trivial, fun _ digest _ short _ => ?_⟩
  have fromSigs : ∀ e ∈ rest, e ∈ sigs := fun e he =>
    List.mem_of_mem_drop (hd ▸ List.mem_cons_of_mem _ he)
  have fromKeys : ∀ e ∈ sigs, e ∈ keys := fun e he =>
    List.mem_of_mem_drop (hm ▸ List.mem_cons_of_mem _ he)
  have kept : ∀ e ∈ rest, e ∈ s.stack := fun e he =>
    hn ▸ List.mem_cons_of_mem _ (fromKeys e (fromSigs e he))
  have sizes := And.intro (congrArg List.length hm) (congrArg List.length hd)
  simp only [List.length_drop, List.length_cons] at sizes
  refine Grown.of_split (fun e he => List.mem_singleton.mp he ▸ short) kept rfl rfl ?_
  simp only [hn, List.length_cons, List.length_nil]
  omega

theorem andVerify_grown {op : Op Unit} (h : ∀ s, Ensures op s fun _ s' => Grown 0 s s') :
    Ensures (do op; opVerify) s fun _ s' => Grown 0 s s' := by
  rw [ensures_bind]
  refine (h s).mono fun _ mid first => opVerify_grown.mono fun _ s' second => ?_
  constructor
  · exact fun short => second.short (first.short short)
  · exact second.count.trans first.count
  · simp

theorem checked_grown {check : Int64 → Except ScriptInterpreterError Unit} :
    Ensures (do check (← liftM (bytesToInt (← peek 0)))) s fun _ s' => Grown 0 s s' := by
  simp only [ensures_bind, ensures_peek, ensures_lift]
  intros
  exact Grown.of_same rfl rfl

theorem opcodeTable_grown : ∀ e ∈ opcodeTable prims tx index, ∀ s,
    Ensures e.2 s fun _ s' => Grown (growth e.1 s) s s' := by
  have none {s : ScriptInterpreter} : Ensures (pure () : Op Unit) s fun _ s' => Grown 0 s s' :=
    ensures_pure.mpr (Grown.of_same rfl rfl)
  simp only [opcodeTable, List.forall_mem_cons, List.not_mem_nil, false_implies, implies_true, and_true]
  refine ⟨fun s => push_grown _, fun s => none, fun s => opIf_grown, fun s => opNotif_grown,
    fun s => opElse_grown, fun s => opEndif_grown, fun s => opVerify_grown,
    fun s => ensures_throw.mpr trivial, fun s => opToaltstack_grown, fun s => opFromaltstack_grown,
    fun s => opIfdup_grown, fun s => opDepth_grown, fun s => opDrop_grown, fun s => copy_grown 0,
    fun s => opNip_grown, fun s => copy_grown 1, fun s => opPick_grown, fun s => opRoll_grown,
    fun s => opRot_grown, fun s => opSwap_grown, fun s => opTuck_grown, fun s => op2drop_grown,
    fun s => op2dup_grown, fun s => op3dup_grown, fun s => op2over_grown, fun s => op2rot_grown,
    fun s => op2swap_grown, fun s => unary_grown _, fun s => unary_grown _, fun s => unary_grown _,
    fun s => unary_grown _, fun s => unary_grown _, fun s => unary_grown _, fun s => binary_grown _,
    fun s => binary_grown _, fun s => binary_grown _, fun s => binary_grown _,
    fun s => binary_grown _, fun s => andVerify_grown fun _ => binary_grown _,
    fun s => binary_grown _, fun s => binary_grown _, fun s => binary_grown _,
    fun s => binary_grown _, fun s => binary_grown _, fun s => binary_grown _,
    fun s => binary_grown _, fun s => opWithin_grown, fun s => hashTop_grown _,
    fun s => hashTop_grown _, fun s => hashTop_grown _, fun s => hashTop_grown _,
    fun s => hashTop_grown _, fun s => opChecksig_grown,
    fun s => andVerify_grown fun _ => opChecksig_grown, fun s => opCheckmultisig_grown,
    fun s => andVerify_grown fun _ => opCheckmultisig_grown, fun s => checked_grown,
    fun s => checked_grown, fun s => none, fun s => none, fun s => none, fun s => none, fun s => none,
    fun s => none, fun s => none, fun s => none, fun s => opEqual_grown,
    fun s => andVerify_grown fun _ => opEqual_grown, fun s => opSize_grown⟩

theorem pushed_grown {data : List UInt8} {next : ℕ} :
    Ensures (do push data; return next) s fun _ s' => Grown 1 s s' := by
  rw [ensures_bind]
  exact (push_grown data).mono fun _ _ h => ensures_pure.mpr h

theorem pushShort_grown {len : ℕ} : Ensures (pushShort bytes pc len) s fun _ s' => Grown 1 s s' := by
  simp only [pushShort, ensures_ite, ensures_bind, ensures_throw]
  exact ⟨fun _ => trivial, fun _ => ⟨fun _ => trivial, fun _ => ensures_bind.mp pushed_grown⟩⟩

theorem pushPrefixed_grown {width bound : ℕ} :
    Ensures (pushPrefixed bytes pc width bound) s fun _ s' => Grown 1 s s' := by
  simp only [pushPrefixed, pushBytes, ensures_ite, ensures_bind, ensures_throw]
  exact ⟨fun _ => trivial, fun _ => ⟨fun _ => trivial, fun _ => ⟨fun _ => trivial,
    fun _ => ensures_bind.mp pushed_grown⟩⟩⟩

theorem growth_of_le (h : opcode ≤ 0x60) : growth opcode s = 1 := if_pos h

theorem executeOpcode_grown : Ensures (executeOpcode prims tx index opcode bytes pc) s fun _ s' =>
      Grown (growth opcode s) s s' := by
  unfold executeOpcode
  simp only [ensures_ite]
  refine ⟨fun zero => ?_, fun _ => ⟨fun small => ?_, fun _ => ⟨fun short => ?_, fun _ => ⟨fun one => ?_,
    fun _ => ⟨fun two => ?_, fun _ => ⟨fun four => ?_, fun _ => ⟨fun separator => ?_, fun _ => ?_⟩⟩⟩⟩⟩⟩⟩
  · rw [growth_of_le (by rw [zero]; decide)]
    exact pushed_grown
  · rw [growth_of_le small.2]
    exact pushed_grown
  · rw [growth_of_le (UInt8.le_trans short (by decide))]
    exact pushShort_grown
  · rw [growth_of_le (by rw [one]; decide)]
    exact pushPrefixed_grown
  · rw [growth_of_le (by rw [two]; decide)]
    exact pushPrefixed_grown
  · rw [growth_of_le (by rw [four]; decide)]
    exact pushPrefixed_grown
  · subst separator
    simp only [ensures_bind, ensures_modify, ensures_pure]
    exact Grown.of_same rfl rfl
  · cases found : (opcodeTable prims tx index).lookup opcode with
    | none => simp
    | some op =>
      rw [ensures_bind]
      exact (opcodeTable_grown _ (mem_of_lookup found) s).mono fun _ _ h => ensures_pure.mpr h

end Opcodes

section Runs

variable {prims : Primitives} {tx : Transaction} {index : ℕ} {bytes : List UInt8}
  {start s : ScriptInterpreter} {pc : ℕ} {opcode : UInt8}

theorem growth_flowControl (h : isFlowControlOp opcode = true) : growth opcode s = 0 := by
  simp only [isFlowControlOp, Bool.or_eq_true, decide_eq_true_eq] at h
  obtain ((rfl | rfl) | rfl) | rfl := h
  · rfl
  · rfl
  · rfl
  · rfl

/-- A step adds to the stacks what its opcode adds, and nothing where it is skipped. -/
theorem step_grown : Ensures (step prims tx index bytes opcode pc) s fun _ s' =>
    Grown (if s.shouldExecute then growth opcode s else 0) s s' := by
  unfold step
  rw [ensures_bind]
  refine ensures_countOp_of fun n => ?_
  simp only [ensures_bind, ensures_get, ensures_ite, ensures_pure, shouldExecute_opCount]
  refine ⟨fun skip => ?_, fun run => ?_⟩
  · have skipped : s.shouldExecute = false := by simpa using (Bool.and_eq_true_iff.mp skip).1
    rw [skipped]
    exact Grown.of_same rfl rfl
  · have amount : (if s.shouldExecute then growth opcode s else 0) = growth opcode s := by
      cases exec : s.shouldExecute with
      | true => rfl
      | false =>
        have flow : isFlowControlOp opcode = true := by simpa [exec] using run
        rw [growth_flowControl flow]
        rfl
    rw [amount]
    exact executeOpcode_grown.mono fun _ _ h => ⟨h.short, h.count, h.room⟩

/-- An opcode that is executed finds room in both stacks together where it finds room on the main
stack. -/
def HasRoom (opcode : UInt8) (s : ScriptInterpreter) : Prop :=
  s.shouldExecute = true → 0 < growth opcode s → s.stack.length + growth opcode s ≤ maxStackSize →
    (elements s).length + growth opcode s ≤ maxStackSize

theorem step_withinLimits (room : HasRoom opcode s) (h : WithinLimits s) :
    Ensures (step prims tx index bytes opcode pc) s fun _ s' => WithinLimits s' := by
  refine step_grown.mono fun _ s' grown => ⟨?_, grown.short h.short⟩
  by_cases adds : 0 < if s.shouldExecute then growth opcode s else 0
  · have exec : s.shouldExecute = true := by
      by_contra no
      rw [if_neg no] at adds
      omega
    rw [if_pos exec] at adds grown
    exact grown.count.trans (room exec adds (grown.room adds))
  · have none : (if s.shouldExecute then growth opcode s else 0) = 0 := by omega
    rw [none] at grown
    exact grown.count.trans h.count

/-- Each step of the run that executes an opcode finds room for what the opcode adds. -/
def RoomInRun (prims : Primitives) (tx : Transaction) (index : ℕ) (bytes : List UInt8)
    (start : ScriptInterpreter) : Prop :=
  ∀ pc s opcode, Visits prims tx index bytes start pc s → bytes[pc]? = some opcode → HasRoom opcode s

theorem run_withinLimits (h : WithinLimits start) (room : RoomInRun prims tx index bytes start)
    (visited : Visits prims tx index bytes start pc s) : WithinLimits s := by
  induction visited with
  | start => exact h
  | turn before read run ih => exact (step_withinLimits (room _ _ _ before read) ih).apply run

theorem growth_le : growth opcode s ≤ 3 := by
  unfold growth
  split_ifs <;> omega

theorem roomInRun_of_short (short : (elements start).length + 3 * bytes.length ≤ maxStackSize) :
    RoomInRun prims tx index bytes start := by
  have count {pc : ℕ} {s : ScriptInterpreter} (visited : Visits prims tx index bytes start pc s) :
      (elements s).length ≤ (elements start).length + 3 * pc := by
    induction visited with
    | start => omega
    | @turn pc next s s' opcode before read run ih =>
      have grown := (step_grown.apply run).count
      have ahead : pc + 1 ≤ next := (step_progress read).apply run
      have small : (if s.shouldExecute then growth opcode s else 0) ≤ 3 := by
        split
        · exact growth_le
        · omega
      omega
  intro pc s opcode visited read _ _ _
  have inside : pc < bytes.length := (List.getElem?_eq_some_iff.mp read).1
  have total := count visited
  have small : growth opcode s ≤ 3 := growth_le
  omega

end Runs

section Inputs

variable (prims : Primitives) (tx : Transaction) (index : ℕ)

/-- The state in which the run of a witness script starts. -/
def witnessStart (script : List UInt8) (value : UInt64) (items : List (List UInt8)) :
    ScriptInterpreter :=
  items.foldl ScriptInterpreter.pushData (ScriptInterpreter.new.setSegwitContext script value)

/-- A run of the interpreter: the transaction and position it is given, the script and the state
it starts in. -/
structure Run where
  tx : Transaction
  index : ℕ
  script : List UInt8
  start : ScriptInterpreter

/-- The runs of the interpreter that verifying an input starts: in the check of a script hash, on
the input script followed by the output script, on the input script followed by the redeem
script, and on a witness script. -/
inductive Started (input : TxInput) (spk : List UInt8) (value : UInt64) : Run → Prop
  | witness {script : List UInt8} (kind : isP2wsh spk = true)
      (last : input.witness.stack.getLast? = some script)
      (hash : (prims.sha256 script).bytes = spk.drop 2) :
      Started input spk value
        ⟨tx, index, script, witnessStart script value input.witness.stack.dropLast⟩
  | dummySig (kind : isP2sh spk = true) {redeem : List UInt8}
      (extracted : extractRedeemScript input.scriptSig = .ok redeem)
      (hash : hashScript prims redeem = extractP2shHash spk) :
      Started input spk value ⟨dummyTx, 0, input.scriptSig, .new⟩
  | dummyRedeem (kind : isP2sh spk = true) {pushed rest : ScriptInterpreter} {redeem top : List UInt8}
      (extracted : extractRedeemScript input.scriptSig = .ok redeem)
      (hash : hashScript prims redeem = extractP2shHash spk)
      (run : execute prims dummyTx 0 input.scriptSig .new = .ok ((), pushed))
      (popped : pop pushed = .ok (top, rest)) :
      Started input spk value ⟨dummyTx, 0, top, rest⟩
  | sig (kind : isP2sh spk = true) (hash : verifyP2sh prims input.scriptSig spk = .ok true) :
      Started input spk value ⟨tx, index, input.scriptSig, .new⟩
  | output (kind : isP2sh spk = true) (hash : verifyP2sh prims input.scriptSig spk = .ok true)
      {pushed : ScriptInterpreter}
      (run : execute prims tx index input.scriptSig .new = .ok ((), pushed)) :
      Started input spk value ⟨tx, index, spk, pushed⟩
  | redeem (kind : isP2sh spk = true) (hash : verifyP2sh prims input.scriptSig spk = .ok true)
      {pushed hashed rest : ScriptInterpreter} {top : List UInt8}
      (run : execute prims tx index input.scriptSig .new = .ok ((), pushed))
      (output : execute prims tx index spk pushed = .ok ((), hashed)) (passed : hashed.stackTopTrue = true)
      (popped : pop pushed = .ok (top, rest)) (plain : isP2wpkh top = false ∧ isP2wsh top = false) :
      Started input spk value ⟨tx, index, top, rest⟩
  | wrapped (kind : isP2sh spk = true) (hash : verifyP2sh prims input.scriptSig spk = .ok true)
      {pushed hashed rest : ScriptInterpreter} {top script : List UInt8}
      (run : execute prims tx index input.scriptSig .new = .ok ((), pushed))
      (output : execute prims tx index spk pushed = .ok ((), hashed)) (passed : hashed.stackTopTrue = true)
      (popped : pop pushed = .ok (top, rest)) (program : isP2wsh top = true)
      (last : input.witness.stack.getLast? = some script)
      (digest : (prims.sha256 script).bytes = top.drop 2) :
      Started input spk value
        ⟨tx, index, script, witnessStart script value input.witness.stack.dropLast⟩

variable {prims tx index} {input : TxInput} {spk : List UInt8} {value : UInt64}

theorem new_withinLimits : WithinLimits .new := ⟨Nat.zero_le _, fun _ he => by cases he⟩

theorem pop_withinLimits {s s' : ScriptInterpreter} {top : List UInt8} (h : WithinLimits s)
    (popped : pop s = .ok (top, s')) : WithinLimits s' := by
  have kept : Ensures pop s fun _ s' => Grown 0 s s' := by
    rw [ensures_pop]
    intros
    constructor <;> grind
  have grown := kept.apply popped
  exact ⟨grown.count.trans h.count, grown.short h.short⟩

theorem execute_withinLimits {bytes : List UInt8} {start final : ScriptInterpreter} (h : WithinLimits start)
    (room : RoomInRun prims tx index bytes start) (run : execute prims tx index bytes start = .ok ((), final)) :
    WithinLimits final := by
  obtain ⟨_, _, last, _, visited⟩ := execute_ok_iff.mp run
  exact run_withinLimits h room visited

theorem witnessStart_stack {script : List UInt8} {items : List (List UInt8)} :
    (witnessStart script value items).stack = items.reverse ∧
      (witnessStart script value items).altStack = [] := by
  have push (s : ScriptInterpreter) : (items.foldl ScriptInterpreter.pushData s).stack =
      items.reverse ++ s.stack ∧ (items.foldl ScriptInterpreter.pushData s).altStack = s.altStack := by
    induction items generalizing s with
    | nil => exact ⟨rfl, rfl⟩
    | cons item rest ih =>
      have h := ih (s.pushData item)
      rw [List.foldl_cons, h.1, h.2]
      exact ⟨by simp [ScriptInterpreter.pushData], rfl⟩
  have h := push (ScriptInterpreter.new.setSegwitContext script value)
  exact ⟨h.1.trans (List.append_nil _), h.2⟩

theorem witnessStart_withinLimits {script : List UInt8} {items : List (List UInt8)}
    (count : items.length ≤ maxStackSize) (short : ∀ e ∈ items, e.length ≤ maxElementSize) :
    WithinLimits (witnessStart script value items) := by
  obtain ⟨stack, alt⟩ := @witnessStart_stack value script items
  constructor
  · simpa only [elements_length, stack, alt, List.length_reverse, List.length_nil, Nat.add_zero] using count
  · rw [short_iff, stack, alt]
    exact ⟨fun e he => short e (List.mem_reverse.mp he), fun e he => by cases he⟩

/-- Where the witness items below a witness script are within the limits, and each opcode that
adds elements finds room in both stacks together, the limits hold at every step of every run. -/
theorem started_runs_withinLimits (input : TxInput) (spk : List UInt8) (value : UInt64)
    (items : (∃ script, Started prims tx index input spk value
        ⟨tx, index, script, witnessStart script value input.witness.stack.dropLast⟩) →
      input.witness.stack.dropLast.length ≤ maxStackSize ∧
        ∀ e ∈ input.witness.stack.dropLast, e.length ≤ maxElementSize)
    (room : ∀ run, Started prims tx index input spk value run →
      RoomInRun prims run.tx run.index run.script run.start) :
    ∀ run, Started prims tx index input spk value run → ∀ pc s,
      Visits prims run.tx run.index run.script run.start pc s → WithinLimits s := by
  suffices starts : ∀ run, Started prims tx index input spk value run → WithinLimits run.start from
    fun run started pc s visited => run_withinLimits (starts run started) (room run started) visited
  intro run started
  cases started with
  | witness kind last hash =>
    have fits := items ⟨_, .witness kind last hash⟩
    exact witnessStart_withinLimits fits.1 fits.2
  | dummySig kind extracted hash => exact new_withinLimits
  | dummyRedeem kind extracted hash run popped =>
    have before := room _ (.dummySig kind extracted hash)
    exact pop_withinLimits (execute_withinLimits new_withinLimits before run) popped
  | sig kind hash => exact new_withinLimits
  | output kind hash run =>
    exact execute_withinLimits new_withinLimits (room _ (.sig kind hash)) run
  | redeem kind hash run output passed popped plain =>
    have before := room _ (.sig kind hash)
    exact pop_withinLimits (execute_withinLimits new_withinLimits before run) popped
  | wrapped kind hash run output passed popped program last digest =>
    have fits := items ⟨_, .wrapped kind hash run output passed popped program last digest⟩
    exact witnessStart_withinLimits fits.1 fits.2

end Inputs

section WitnessItems

/-- `OP_DROP OP_1`. -/
def dropScript : List UInt8 := [0x75, 0x51]

def dropInput (item : List UInt8) : TxInput := ⟨⟨Bytes32.zero, 0⟩, [], 0xffffffff, ⟨[item, dropScript]⟩⟩

def dropTx (item : List UInt8) : Transaction := ⟨2, [dropInput item], [⟨900, [0x51]⟩], 0⟩

def dropOutput : List UInt8 := [0x00, 0x20] ++ (keyless.sha256 dropScript).bytes

theorem dropOutput_not_p2sh : isP2sh dropOutput = false := by
  have size := (keyless.sha256 dropScript).length_eq
  simp [isP2sh, dropOutput, size]

theorem dropTx_roomInRun (item : List UInt8) : ∀ run,
    Started keyless (dropTx item) 0 (dropInput item) dropOutput 1000 run →
      RoomInRun keyless run.tx run.index run.script run.start := by
  have plain := dropOutput_not_p2sh
  intro run started
  cases started with
  | witness kind last hash =>
    cases last
    obtain ⟨stack, alt⟩ := @witnessStart_stack 1000 dropScript [item]
    refine roomInRun_of_short ?_
    show (elements (witnessStart dropScript 1000 [item])).length + 3 * 2 ≤ 1000
    rw [elements_length, stack, alt, List.length_reverse, List.length_singleton, List.length_nil]
    omega
  | dummySig kind => simp [plain] at kind
  | dummyRedeem kind => simp [plain] at kind
  | sig kind => simp [plain] at kind
  | output kind => simp [plain] at kind
  | redeem kind => simp [plain] at kind
  | wrapped kind => simp [plain] at kind

theorem small_item_withinLimits : (∃ run, Started keyless (dropTx [5, 6]) 0 (dropInput [5, 6]) dropOutput 1000 run) ∧
      ∀ run, Started keyless (dropTx [5, 6]) 0 (dropInput [5, 6]) dropOutput 1000 run → ∀ pc s,
        Visits keyless run.tx run.index run.script run.start pc s → WithinLimits s := by
  refine ⟨⟨_, @Started.witness _ _ _ _ _ _ dropScript ?_ rfl ?_⟩, ?_⟩
  · decide +kernel
  · rfl
  · exact started_runs_withinLimits (dropInput [5, 6]) dropOutput 1000
      (fun _ => ⟨by decide, by decide⟩) (dropTx_roomInRun [5, 6])

/-- A witness item of 521 bytes goes on the stack unchecked, and the input is accepted. -/
theorem long_item_on_stack : verifyOutput keylessEngine (dropTx (List.replicate 521 0)) 0 ⟨1000, dropOutput⟩ [1000]
        [dropOutput] = .ok () ∧
      ∃ run, Started keyless (dropTx (List.replicate 521 0)) 0 (dropInput (List.replicate 521 0))
        dropOutput 1000 run ∧ ∃ pc s, Visits keyless run.tx run.index run.script run.start pc s ∧
          ¬ WithinLimits s := by
  refine ⟨by decide +kernel, _, @Started.witness _ _ _ _ _ _ dropScript ?_ rfl ?_, 0, _, .start, ?_⟩
  · decide +kernel
  · rfl
  · intro h
    have long := h.short (List.replicate 521 0) (by decide +kernel)
    rw [List.length_replicate, maxElementSize] at long
    omega

end WitnessItems

end KuberCoin.ScriptLimits
