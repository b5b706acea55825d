import KuberCoin.ScriptNumbers
import KuberCoin.TaprootSpends

/-!
The resources of a leaf script (crate `tx`, `tapscript.rs`). Every key that is checked takes its part
of a budget that only `set_witness_size` raises; and the path that spends an output never calls it.
-/
namespace KuberCoin.TapscriptBudgets

open Bytes Transactions FailingPrograms Tapscripts TaprootSpends InputScripts
open ScriptInterpreters (maxElementSize maxStackSize maxOpsPerScript isFlowControlOp)
open ScriptNumbers (length_intToBytes)
open ScriptRuns (mem_of_lookup)

section Stacks

variable {data : List UInt8}

/-- No element of either stack is longer than the limit. -/
def Short (s : TapscriptInterpreter) : Prop :=
  (∀ e ∈ s.stack, e.length ≤ maxElementSize) ∧ ∀ e ∈ s.altStack, e.length ≤ maxElementSize

/-- The interpreter with another main stack, which is not longer in any element. -/
def Restacked (s s' : TapscriptInterpreter) : Prop :=
  ∃ stack, s' = { s with stack := stack } ∧ (Short s → ∀ e ∈ stack, e.length ≤ maxElementSize)

variable {s s' s'' : TapscriptInterpreter}

@[simp] theorem ensures_popStack {Q : List UInt8 → TapscriptInterpreter → Prop} :
    Ensures popStack s Q ↔ ∀ top rest, s.stack = top :: rest → Q top { s with stack := rest } := by
  simp only [popStack, ensures_bind, ensures_get]
  cases hs : s.stack with
  | nil => simp
  | cons top rest => simp

@[simp] theorem ensures_push {Q : Unit → TapscriptInterpreter → Prop} :
    Ensures (push data) s Q ↔ Q () { s with stack := data :: s.stack } := ensures_modify

theorem Restacked.of_short {stack : List (List UInt8)} (h : Short s → ∀ e ∈ stack, e.length ≤ maxElementSize) :
    Restacked s { s with stack := stack } := ⟨stack, rfl, h⟩

theorem Restacked.short (h : Restacked s s') (before : Short s) : Short s' := by
  obtain ⟨stack, rfl, hstack⟩ := h
  exact ⟨hstack before, before.2⟩

theorem Restacked.trans (first : Restacked s s') (second : Restacked s' s'') : Restacked s s'' := by
  have hshort := first.short
  obtain ⟨stack, rfl, -⟩ := first
  obtain ⟨stack', rfl, hstack'⟩ := second
  exact ⟨stack', rfl, fun before => hstack' (hshort before)⟩

theorem restacked_rest {top : List UInt8} {rest : List (List UInt8)} (h : s.stack = top :: rest) :
    Restacked s { s with stack := rest } :=
  .of_short fun before e he => before.1 e (h ▸ List.mem_cons_of_mem _ he)

theorem restacked_push (h : data.length ≤ maxElementSize) : Restacked s { s with stack := data :: s.stack } :=
  .of_short fun before => List.forall_mem_cons.mpr ⟨h, before.1⟩

theorem truth_short (b : Bool) : (truth b).length ≤ maxElementSize := by
  cases b <;> decide

theorem encodeNumber_short (n : Int64) : (encodeNumber n).length ≤ maxElementSize := by
  have := length_intToBytes n
  unfold encodeNumber maxElementSize
  omega

/-- An opcode that changes the main stack only. -/
def Restacks (op : TapOp Unit) : Prop := ∀ s, Ensures op s fun _ s' => Restacked s s'

theorem push_restacks (h : data.length ≤ maxElementSize) : Restacks (push data) :=
  fun _ => ensures_push.mpr (restacked_push h)

theorem rearrange_restacks {f : List (List UInt8) → Option (List (List UInt8))}
    (h : ∀ stack stack', f stack = some stack' → ∀ e ∈ stack', e ∈ stack ∨ e.length ≤ maxElementSize) :
    Restacks (rearrange f) := by
  intro s
  simp only [rearrange, ensures_bind, ensures_get]
  cases hf : f s.stack with
  | none => simp
  | some stack =>
    rw [ensures_set]
    exact .of_short fun before e he => (h _ _ hf e he).elim (before.1 e) id

theorem index_restacks {f : ℕ → TapOp Unit} (h : ∀ n, Restacks (f n)) : Restacks (do f (← popIndex)) := by
  intro s
  simp only [popIndex, popNumber, ensures_bind, ensures_popStack, ensures_lift, ensures_ite, ensures_throw, ensures_pure]
  intro top rest hs n _
  exact ⟨fun _ => trivial, fun _ => (h _ _).mono fun _ s' hs' => (restacked_rest hs).trans hs'⟩

theorem onPair_restacks {f : List UInt8 → List UInt8 → Except TapscriptError (List UInt8)}
    (h : ∀ a b c, f a b = .ok c → c.length ≤ maxElementSize) : Restacks (onPair f) := by
  intro s
  simp only [onPair, ensures_bind, ensures_popStack, ensures_lift, ensures_push]
  intro b below hb a rest ha c hc
  exact ((restacked_rest hb).trans (restacked_rest ha)).trans (restacked_push (h a b c hc))

theorem unary_restacks (f : Int64 → Int64) : Restacks (unary f) := by
  intro s
  simp only [unary, popNumber, ensures_bind, ensures_popStack, ensures_lift, ensures_push]
  intro a rest ha n _
  exact (restacked_rest ha).trans (restacked_push (encodeNumber_short _))

theorem binary_restacks {f : Int64 → Int64 → List UInt8} (h : ∀ a b, (f a b).length ≤ maxElementSize) :
    Restacks (binary f) := by
  refine onPair_restacks fun a b c hc => ?_
  obtain ⟨m, -, hc⟩ := except_bind_eq_ok.mp hc
  obtain ⟨n, -, hc⟩ := except_bind_eq_ok.mp hc
  cases hc
  exact h n m

theorem compare_restacks (f : Int64 → Int64 → Bool) : Restacks (binary fun a b => truth (f a b)) :=
  binary_restacks fun _ _ => truth_short _

theorem onTop_restacks {f : List UInt8 → List UInt8} (h : ∀ a, (f a).length ≤ maxElementSize) :
    Restacks (do push (f (← popStack))) := by
  intro s
  simp only [ensures_bind, ensures_popStack, ensures_push]
  intro a rest ha
  exact (restacked_rest ha).trans (restacked_push (h a))

theorem opVerify_restacks : Restacks opVerify := by
  intro s
  simp only [opVerify, ensures_bind, ensures_popStack, ensures_ite, ensures_throw, ensures_pure]
  exact fun top rest hs => ⟨fun _ => trivial, fun _ => restacked_rest hs⟩

theorem andVerify_restacks {op : TapOp Unit} (h : Restacks op) : Restacks (do op; opVerify) := by
  intro s
  rw [ensures_bind]
  exact (h s).mono fun _ mid first => (opVerify_restacks mid).mono fun _ s' second => first.trans second

theorem opWithin_restacks : Restacks opWithin := by
  intro s
  simp only [opWithin, ensures_bind, ensures_popStack, ensures_lift, ensures_push]
  intro c below hc b below' hb a rest ha _ _ _ _ _ _
  exact (((restacked_rest hc).trans (restacked_rest hb)).trans (restacked_rest ha)).trans
    (restacked_push (truth_short _))

theorem opDepth_restacks : Restacks opDepth := by
  intro s
  simp only [opDepth, ensures_bind, ensures_get]
  exact push_restacks (encodeNumber_short _) s

theorem opPick_restacks : Restacks opPick := by
  refine index_restacks fun n => rearrange_restacks fun stack stack' h e he => ?_
  obtain ⟨item, hitem, rfl⟩ := Option.map_eq_some_iff.mp h
  obtain rfl | he := List.mem_cons.mp he
  · exact .inl (List.mem_of_getElem? hitem)
  · exact .inl he

theorem opRoll_restacks : Restacks opRoll := by
  refine index_restacks fun n => rearrange_restacks fun stack stack' h e he => ?_
  obtain ⟨item, hitem, rfl⟩ := Option.map_eq_some_iff.mp h
  obtain rfl | he := List.mem_cons.mp he
  · exact .inl (List.mem_of_getElem? hitem)
  · exact .inl (List.mem_of_mem_eraseIdx he)

theorem opSize_restacks : Restacks opSize := by
  refine rearrange_restacks fun stack stack' h e he => ?_
  cases stack with
  | nil => cases h
  | cons top rest =>
    cases h
    obtain rfl | he := List.mem_cons.mp he
    · exact .inr (encodeNumber_short _)
    · exact .inl he

theorem opIfdup_restacks : Restacks opIfdup := by
  refine rearrange_restacks fun stack stack' h e he => ?_
  cases stack with
  | nil => cases h
  | cons top rest =>
    cases h
    split at he <;> simp_all

theorem moves_restack : ∀ op ∈ [op2drop, op2dup, op3dup, op2over, op2rot, op2swap, opDrop, opDup, opNip, opOver,
    opRot, opSwap, opTuck], Restacks op := by
  simp only [List.forall_mem_cons, List.not_mem_nil, false_implies, implies_true, and_true]
  refine ⟨?_, ?_, ?_, ?_, ?_, ?_, ?_, ?_, ?_, ?_, ?_, ?_, ?_⟩ <;>
  · refine rearrange_restacks fun stack stack' h e he => ?_
    split at h
    · cases h
      simp only [List.mem_cons] at he ⊢
      tauto
    · cases h

end Stacks

section Effects

variable {key script : List UInt8} {op : TapOp Unit} {pc : ℕ}

/-- How many keys a turn at this opcode checks: one, if it has a key that is not empty. -/
def keyChecks (opcode : UInt8) (s : TapscriptInterpreter) : ℕ :=
  if s.shouldExecute ∧ (opcode = 0xac ∨ opcode = 0xba) ∧ s.stack.headD [] ≠ [] then 1 else 0

/-- What an opcode does to the interpreter, its main stack apart. -/
structure Effect (opcode : UInt8) (s s' : TapscriptInterpreter) : Prop where
  alt : s'.altStack.length ≤ s.altStack.length + if isCountedOp opcode then 1 else 0
  ops : s'.opCount = s.opCount
  conditionals : s'.ifStack.length ≤ s.ifStack.length + 1
  budget : sigopsBudgetCost * keyChecks opcode s + s'.sigopsBudget = s.sigopsBudget
  short : Short s → Short s'

variable {sha256 : Sha256} {verifySchnorr : List UInt8 → Bytes32 → List UInt8 → Bool}
  {context : TapscriptContext} {opcode : UInt8} {s s' : TapscriptInterpreter}

theorem keyChecks_other (h : opcode ≠ 0xac ∧ opcode ≠ 0xba) : keyChecks opcode s = 0 :=
  if_neg fun ⟨_, hsig, _⟩ => hsig.elim h.1 h.2

theorem Restacked.effect (h : opcode ≠ 0xac ∧ opcode ≠ 0xba) (hs : Restacked s s') : Effect opcode s s' := by
  have hshort := hs.short
  obtain ⟨stack, rfl, -⟩ := hs
  exact ⟨Nat.le_add_right _ _, rfl, Nat.le_succ _, by rw [keyChecks_other h, Nat.mul_zero, Nat.zero_add], hshort⟩

theorem effect_of_restacks {op : TapOp Unit} (h : opcode ≠ 0xac ∧ opcode ≠ 0xba) (hop : Restacks op) :
    ∀ s : TapscriptInterpreter, s.shouldExecute → Ensures op s fun _ s' => Effect opcode s s' :=
  fun s _ => (hop s).mono fun _ _ => Restacked.effect h

theorem sig_effect (hexec : s.shouldExecute) (hsig : opcode = 0xac ∨ opcode = 0xba) {rest below : List (List UInt8)}
    (hs : s.stack = key :: rest) (hbelow : ∀ e ∈ below, e ∈ rest) (hop : Restacks op) :
    Ensures (do consumeBudget key; op) { s with stack := below } fun _ s' => Effect opcode s s' := by
  have hkeep : Short s → Short { s with stack := below } := fun before =>
    ⟨fun e he => before.1 e (hs ▸ List.mem_cons_of_mem _ (hbelow e he)), before.2⟩
  simp only [consumeBudget, ensures_bind, ensures_ite, ensures_get, ensures_throw, ensures_pure, ensures_set]
  constructor
  · intro hkey
    have hchecks : keyChecks opcode s = 1 := if_pos ⟨hexec, hsig, by rw [hs]; exact hkey⟩
    refine ⟨fun _ => trivial, fun hbudget => (hop _).mono fun _ s' h => ?_⟩
    have hshort := h.short
    obtain ⟨stack, rfl, -⟩ := h
    exact ⟨Nat.le_add_right _ _, rfl, Nat.le_succ _, by rw [hchecks]; simp only; omega,
      fun before => hshort (hkeep before)⟩
  · intro hkey
    have hchecks : keyChecks opcode s = 0 := if_neg fun h => hkey (by simpa [hs] using h.2.2)
    refine (hop _).mono fun _ s' h => ?_
    have hshort := h.short
    obtain ⟨stack, rfl, -⟩ := h
    exact ⟨Nat.le_add_right _ _, rfl, Nat.le_succ _, by rw [hchecks, Nat.mul_zero, Nat.zero_add],
      fun before => hshort (hkeep before)⟩

theorem checked_restacks {sig : List UInt8} {f : Bool → List UInt8} (hf : ∀ b, (f b).length ≤ maxElementSize) :
    Restacks (do push (f (← checkSchnorr verifySchnorr context sig key))) := by
  intro s
  simp only [ensures_bind, ensures_lift]
  exact fun _ _ => push_restacks (hf _) s

theorem opChecksig_effect (hexec : s.shouldExecute) :
    Ensures (opChecksig verifySchnorr context) s fun _ s' => Effect 0xac s s' := by
  simp only [opChecksig, ensures_bind (m := popStack), ensures_popStack]
  intro key rest hs sig below hbelow
  refine sig_effect hexec (.inl rfl) hs (fun e he => ?_) fun s => ?_
  · obtain rfl : rest = sig :: below := hbelow
    exact List.mem_cons_of_mem _ he
  · rw [ensures_ite]
    exact ⟨fun _ => push_restacks (by decide) s, fun _ => checked_restacks truth_short s⟩

theorem opChecksigadd_effect (hexec : s.shouldExecute) :
    Ensures (opChecksigadd verifySchnorr context) s fun _ s' => Effect 0xba s s' := by
  simp only [opChecksigadd, ensures_bind (m := popStack), ensures_popStack]
  intro key rest hs sig below hbelow n under hunder
  obtain rfl : rest = sig :: below := hbelow
  obtain rfl : below = n :: under := hunder
  rw [ensures_bind, ensures_lift]
  intro v _
  refine sig_effect hexec (.inr rfl) hs (fun e he => by simp [he]) fun s => ?_
  rw [ensures_ite]
  exact ⟨fun _ => push_restacks (encodeNumber_short _) s, fun _ => checked_restacks (fun _ => encodeNumber_short _) s⟩

/-- A conditional opens or closes: only the list of conditionals changes, and where the branch is
executed, the condition is taken off the stack. -/
structure Turns (s s' : TapscriptInterpreter) : Prop where
  rest : ∃ stack conditionals, s' = { s with stack := stack, ifStack := conditionals } ∧
    conditionals.length ≤ s.ifStack.length + 1
  kept : ∀ e ∈ s'.stack, e ∈ s.stack
  idle : s.shouldExecute = false → s'.stack = s.stack

theorem branchOn_turns (wanted : Bool) : Ensures (branchOn wanted) s fun _ s' => Turns s s' := by
  simp only [branchOn, ensures_bind, ensures_get, ensures_ite, ensures_popStack, ensures_modify]
  refine ⟨fun hexec top rest hs => ⟨⟨rest, _, rfl, le_rfl⟩, fun e he => ?_, fun hidle => ?_⟩, fun _ =>
    ⟨⟨s.stack, _, rfl, le_rfl⟩, fun e he => he, fun _ => rfl⟩⟩
  · rw [hs]
    exact List.mem_cons_of_mem _ he
  · rw [hexec] at hidle
    cases hidle

theorem opElse_turns : Ensures opElse s fun _ s' => Turns s s' := by
  simp only [opElse, ensures_bind, ensures_get]
  cases hif : s.ifStack with
  | nil => simp
  | cons top rest =>
    obtain ⟨executing, elseSeen⟩ := top
    simp only [ensures_ite, ensures_throw, ensures_set]
    exact ⟨fun _ => trivial, fun _ => ⟨⟨s.stack, _, rfl, by simp [hif]⟩, fun e he => he, fun _ => rfl⟩⟩

theorem opEndif_turns : Ensures opEndif s fun _ s' => Turns s s' := by
  simp only [opEndif, ensures_bind, ensures_get]
  cases hif : s.ifStack with
  | nil => simp
  | cons top rest =>
    rw [ensures_set]
    refine ⟨⟨s.stack, rest, rfl, ?_⟩, fun e he => he, fun _ => rfl⟩
    simp only [hif, List.length_cons]
    omega

theorem Turns.effect (h : opcode ≠ 0xac ∧ opcode ≠ 0xba) (hs : Turns s s') : Effect opcode s s' := by
  obtain ⟨⟨stack, conditionals, rfl, hlength⟩, hkept, -⟩ := hs
  exact ⟨Nat.le_add_right _ _, rfl, hlength, by rw [keyChecks_other h, Nat.mul_zero, Nat.zero_add],
    fun before => ⟨fun e he => before.1 e (hkept e he), before.2⟩⟩

theorem effect_of_turns (h : opcode ≠ 0xac ∧ opcode ≠ 0xba) (hop : ∀ s, Ensures op s fun _ s' => Turns s s') :
    ∀ s : TapscriptInterpreter, s.shouldExecute → Ensures op s fun _ s' => Effect opcode s s' :=
  fun s _ => (hop s).mono fun _ _ => Turns.effect h

theorem opToaltstack_effect : Ensures opToaltstack s fun _ s' => Effect 0x6b s s' := by
  simp only [opToaltstack, ensures_bind, ensures_popStack, ensures_modify]
  intro top rest hs
  refine ⟨le_rfl, rfl, Nat.le_succ _, by rw [keyChecks_other (by decide), Nat.mul_zero, Nat.zero_add], fun before => ?_⟩
  have htop := before.1 top (by simp [hs])
  exact ⟨fun e he => before.1 e (by simp [hs, he]), List.forall_mem_cons.mpr ⟨htop, before.2⟩⟩

theorem opFromaltstack_effect : Ensures opFromaltstack s fun _ s' => Effect 0x6c s s' := by
  simp only [opFromaltstack, popAltStack, ensures_bind, ensures_get]
  cases halt : s.altStack with
  | nil => simp
  | cons top rest =>
    simp only [ensures_bind, ensures_set, ensures_pure, ensures_push]
    refine ⟨?_, rfl, Nat.le_succ _, by rw [keyChecks_other (by decide), Nat.mul_zero, Nat.zero_add], fun before => ?_⟩
    · simp only [halt, List.length_cons]
      omega
    · have hshort := before.2
      rw [halt] at hshort
      obtain ⟨htop, hrest⟩ := List.forall_mem_cons.mp hshort
      exact ⟨List.forall_mem_cons.mpr ⟨htop, before.1⟩, hrest⟩

theorem opcodeTable_effect : ∀ e ∈ opcodeTable sha256 verifySchnorr context, ∀ s : TapscriptInterpreter,
    s.shouldExecute → Ensures e.2 s fun _ s' => Effect e.1 s s' := by
  have moved {opcode : UInt8} {op : TapOp Unit} (h : opcode ≠ 0xac ∧ opcode ≠ 0xba) (hop : op ∈ [op2drop, op2dup,
      op3dup, op2over, op2rot, op2swap, opDrop, opDup, opNip, opOver, opRot, opSwap, opTuck]) :=
    effect_of_restacks h (moves_restack op hop)
  have failed {opcode : UInt8} (e : TapscriptError) (s : TapscriptInterpreter) (_ : s.shouldExecute = true) :
      Ensures (throw e : TapOp Unit) s fun _ s' => Effect opcode s s' := ensures_throw.mpr trivial
  have numbers (f : Int64 → Int64 → Int64) : Restacks (binary fun a b => encodeNumber (f a b)) :=
    binary_restacks fun _ _ => encodeNumber_short _
  have test {f : List UInt8 → List UInt8 → Bool} : Restacks (onPair fun a b => .ok (truth (f a b))) :=
    onPair_restacks fun a b c hc => by cases hc; exact truth_short _
  have idle {opcode : UInt8} (h : opcode ≠ 0xac ∧ opcode ≠ 0xba) :=
    @effect_of_restacks opcode (pure ()) h fun s => ensures_pure.mpr (Restacked.of_short fun before => before.1)
  simp only [opcodeTable, List.forall_mem_cons, List.not_mem_nil, false_implies, implies_true, and_true]
  refine ⟨effect_of_restacks (by decide) (push_restacks (by decide)), failed _,
    fun s _ => opToaltstack_effect, fun s _ => opFromaltstack_effect, moved (by decide) (by simp),
    moved (by decide) (by simp), moved (by decide) (by simp), moved (by decide) (by simp), moved (by decide) (by simp),
    moved (by decide) (by simp), effect_of_restacks (by decide) opIfdup_restacks,
    effect_of_restacks (by decide) opDepth_restacks, moved (by decide) (by simp),
    moved (by decide) (by simp), moved (by decide) (by simp), moved (by decide) (by simp),
    effect_of_restacks (by decide) opPick_restacks, effect_of_restacks (by decide) opRoll_restacks,
    moved (by decide) (by simp), moved (by decide) (by simp), moved (by decide) (by simp),
    effect_of_restacks (by decide) opSize_restacks, effect_of_restacks (by decide) test,
    effect_of_restacks (by decide) (andVerify_restacks test),
    effect_of_restacks (by decide) (unary_restacks _), effect_of_restacks (by decide) (unary_restacks _),
    effect_of_restacks (by decide) (unary_restacks _), effect_of_restacks (by decide) (unary_restacks _),
    effect_of_restacks (by decide) (onTop_restacks fun _ => truth_short _),
    effect_of_restacks (by decide) (onTop_restacks fun _ => truth_short _),
    effect_of_restacks (by decide) (numbers _), effect_of_restacks (by decide) (numbers _),
    effect_of_restacks (by decide) test, effect_of_restacks (by decide) test,
    effect_of_restacks (by decide) (compare_restacks _),
    effect_of_restacks (by decide) (andVerify_restacks (compare_restacks _)),
    effect_of_restacks (by decide) (compare_restacks _), effect_of_restacks (by decide) (compare_restacks _),
    effect_of_restacks (by decide) (compare_restacks _), effect_of_restacks (by decide) (compare_restacks _),
    effect_of_restacks (by decide) (compare_restacks _), effect_of_restacks (by decide) (numbers _),
    effect_of_restacks (by decide) (numbers _), effect_of_restacks (by decide) opWithin_restacks,
    effect_of_restacks (by decide) (onTop_restacks fun _ => ?_),
    fun s => opChecksig_effect, fun s => opChecksigadd_effect, effect_of_turns (by decide) fun s => branchOn_turns _,
    effect_of_turns (by decide) fun s => branchOn_turns _, effect_of_turns (by decide) fun s => opElse_turns,
    effect_of_turns (by decide) fun s => opEndif_turns, effect_of_restacks (by decide) opVerify_restacks,
    failed _, failed _, failed _, failed _, idle (by decide), idle (by decide), idle (by decide), idle (by decide),
    idle (by decide), idle (by decide), idle (by decide), idle (by decide), idle (by decide), idle (by decide)⟩
  rw [Bytes32.length_eq]
  decide

theorem lookup_effect (hexec : s.shouldExecute = true)
    (h : (opcodeTable sha256 verifySchnorr context).lookup opcode = some op) :
    Ensures op s fun _ s' => Effect opcode s s' :=
  opcodeTable_effect _ (mem_of_lookup h) s hexec

theorem executeOpcode_effect (hexec : s.shouldExecute = true) :
    Ensures (executeOpcode sha256 verifySchnorr context script opcode pc) s fun _ s' => Effect opcode s s' := by
  have low (bound : UInt8) (hb : bound < 0xac) (h : opcode ≤ bound) : opcode ≠ 0xac ∧ opcode ≠ 0xba := by
    constructor
    · rintro rfl
      exact absurd h (UInt8.not_le.mpr hb)
    · rintro rfl
      exact absurd (UInt8.lt_of_le_of_lt h hb) (by decide)
  unfold executeOpcode
  simp only [ensures_ite]
  refine ⟨fun zero => ?_, fun _ => ⟨fun short => ?_, fun _ => ⟨fun one => ?_, fun _ => ⟨fun small => ?_,
    fun _ => ⟨fun separator => ?_, fun _ => ⟨fun success => ?_, fun _ => ?_⟩⟩⟩⟩⟩⟩
  · simp only [ensures_bind, ensures_push, ensures_pure]
    exact (restacked_push (by decide)).effect (low 0 (by decide) (by rw [zero]; exact UInt8.le_refl 0))
  · simp only [pushBytes, ensures_bind, ensures_ite, ensures_throw, ensures_push, ensures_pure]
    refine ⟨fun _ => trivial, fun _ => (restacked_push ?_).effect (low 0x4b (by decide) short)⟩
    have hlen := UInt8.le_iff_toNat_le.mp short
    refine (List.length_take_le _ _).trans (hlen.trans (by decide))
  · simp only [pushPrefixed]
    cases hlen : script[pc]? with
    | none => simp
    | some len =>
      simp only [ensures_bind, ensures_ite, ensures_throw, ensures_push, ensures_pure]
      refine ⟨fun _ => trivial, fun _ => ⟨fun _ => trivial, fun hdata => (restacked_push ?_).effect ?_⟩⟩
      · omega
      · rw [one]
        decide
  · simp only [ensures_bind, ensures_push, ensures_pure]
    have hone : [opcode - 0x50].length ≤ maxElementSize := (by decide : 1 ≤ maxElementSize)
    exact (restacked_push hone).effect (low 0x60 (by decide) small.2)
  · simp only [ensures_bind, ensures_modify, ensures_pure]
    have hother : opcode ≠ 0xac ∧ opcode ≠ 0xba := by rw [separator]; decide
    exact ⟨Nat.le_add_right _ _, rfl, Nat.le_succ _, by rw [keyChecks_other hother, Nat.mul_zero, Nat.zero_add], id⟩
  · rw [ensures_pure]
    refine Restacked.effect ?_ (Restacked.of_short fun before => before.1)
    obtain rfl | hsuccess := success
    · decide
    · constructor
      · rintro rfl
        exact absurd hsuccess (by decide)
      · rintro rfl
        exact absurd hsuccess (by decide)
  · cases found : (opcodeTable sha256 verifySchnorr context).lookup opcode with
    | none => simp
    | some op =>
      simp only [ensures_bind, ensures_pure]
      exact lookup_effect hexec found

/-- The opcodes of conditionals also run in a branch that is not executed. -/
theorem executeOpcode_turns (hflow : isFlowControlOp opcode = true) :
    Ensures (executeOpcode sha256 verifySchnorr context script opcode pc) s fun _ s' => Turns s s' := by
  simp only [isFlowControlOp, Bool.or_eq_true, decide_eq_true_eq] at hflow
  obtain ((rfl | rfl) | rfl) | rfl := hflow
  · show Ensures (do opIf; return pc) s _
    simp only [ensures_bind, ensures_pure]
    exact branchOn_turns _
  · show Ensures (do opNotif; return pc) s _
    simp only [ensures_bind, ensures_pure]
    exact branchOn_turns _
  · show Ensures (do opElse; return pc) s _
    simp only [ensures_bind, ensures_pure]
    exact opElse_turns
  · show Ensures (do opEndif; return pc) s _
    simp only [ensures_bind, ensures_pure]
    exact opEndif_turns

end Effects

section Runs

variable (sha256 : Sha256) (verifySchnorr : List UInt8 → Bytes32 → List UInt8 → Bool) {witness : List (List UInt8)}
variable (context : TapscriptContext) (script : List UInt8)

/-- The loop of `execute` comes from the first position and state to the last, and checks so many keys
on the way. -/
inductive Pays : ℕ → ℕ → TapscriptInterpreter → ℕ → TapscriptInterpreter → Prop
  | here (pc : ℕ) (s : TapscriptInterpreter) : Pays 0 pc s pc s
  | turn {checks pc next last : ℕ} {s mid final : TapscriptInterpreter} {opcode : UInt8}
      (read : script[pc]? = some opcode)
      (run : step sha256 verifySchnorr context script opcode (pc + 1) s = .ok (next, mid))
      (rest : Pays checks next mid last final) : Pays (keyChecks opcode s + checks) pc s last final

/-- The limits of a run on so many elements of the witness and with this budget, after so many keys. -/
structure Within (inputs budget checks pc : ℕ) (s : TapscriptInterpreter) : Prop where
  stack : s.stack.length ≤ max maxStackSize inputs
  alt : s.altStack.length ≤ s.opCount
  ops : s.opCount ≤ maxOpsPerScript
  conditionals : s.ifStack.length ≤ pc
  budget : sigopsBudgetCost * checks + s.sigopsBudget = budget
  short : Short s

variable {sha256 verifySchnorr context script} {inputs budget checks pc last : ℕ} {opcode : UInt8}
  {s final : TapscriptInterpreter}

theorem countOp_counts (hops : s.opCount ≤ maxOpsPerScript) : Ensures (countOp opcode) s fun _ s' =>
      s' = { s with opCount := s.opCount + if isCountedOp opcode then 1 else 0 } ∧ s'.opCount ≤ maxOpsPerScript := by
  simp only [countOp, ensures_ite, ensures_bind, ensures_get, ensures_throw, ensures_pure, ensures_set]
  constructor
  · intro hcounted
    refine ⟨fun _ => trivial, fun hroom => ⟨?_, Nat.not_lt.mp hroom⟩⟩
    rw [if_pos hcounted]
  · intro hfree
    rw [if_neg hfree]
    exact ⟨rfl, hops⟩

theorem keyChecks_idle (h : s.shouldExecute = false) : keyChecks opcode s = 0 :=
  if_neg fun hchecks => by simp [h] at hchecks

theorem step_within (read : script[pc]? = some opcode) (h : Within inputs budget checks pc s) :
    Ensures (step sha256 verifySchnorr context script opcode (pc + 1)) s fun next s' =>
      Within inputs budget (checks + keyChecks opcode s) next s' := by
  have forward := @step_progress sha256 verifySchnorr context script pc opcode s read
  suffices hlimits : Ensures (step sha256 verifySchnorr context script opcode (pc + 1)) s fun _ s' =>
      Within inputs budget (checks + keyChecks opcode s) (pc + 1) s' by
    intro next s' run
    have hnext := forward.apply run
    have hs' := hlimits.apply run
    exact { hs' with conditionals := hs'.conditionals.trans hnext }
  unfold step
  simp only [ensures_bind, ensures_get, ensures_ite, ensures_pure]
  refine ⟨fun hexec => (countOp_counts h.ops).mono fun _ mid counted => ?_, fun hidle => ⟨fun hflow => ?_, fun _ => ?_⟩⟩
  · obtain ⟨hmid, hops⟩ := counted
    have hkeys : keyChecks opcode mid = keyChecks opcode s := by
      rw [hmid]
      rfl
    have hmidexec : mid.shouldExecute = true := by
      rw [hmid]
      exact hexec
    refine (executeOpcode_effect hmidexec).mono fun _ s' effect => ?_
    simp only [checkStackSize, ensures_bind, ensures_get, ensures_ite, ensures_throw, ensures_pure]
    refine ⟨fun _ => trivial, fun hroom => ?_⟩
    obtain ⟨halt, hcount, hconditionals, hbudget, hshort⟩ := effect
    rw [hkeys] at hbudget
    subst hmid
    simp only at halt hcount hconditionals hbudget hops
    have hbefore := h.budget
    exact { stack := by omega
            alt := by have := h.alt; omega
            ops := by omega
            conditionals := hconditionals.trans (Nat.succ_le_succ h.conditionals)
            budget := by rw [Nat.mul_add]; omega
            short := hshort h.short }
  · rw [keyChecks_idle (by simpa using hidle)]
    refine (executeOpcode_turns hflow).mono fun _ s' turns => ?_
    have hstack := turns.idle (by simpa using hidle)
    obtain ⟨⟨stack, conditionals, rfl, hlength⟩, hkept, -⟩ := turns
    exact { stack := by rw [hstack]; exact h.stack
            alt := h.alt
            ops := h.ops
            conditionals := hlength.trans (Nat.succ_le_succ h.conditionals)
            budget := h.budget
            short := ⟨fun e he => h.short.1 e (hkept e he), h.short.2⟩ }
  · rw [keyChecks_idle (by simpa using hidle)]
    exact { h with conditionals := h.conditionals.trans (Nat.le_succ pc) }

theorem within_of_pays {n : ℕ} (h : Within inputs budget checks pc s)
    (hpays : Pays sha256 verifySchnorr context script n pc s last final) :
    Within inputs budget (checks + n) last final := by
  induction hpays generalizing checks with
  | here => exact h
  | turn read run rest ih =>
    rw [← Nat.add_assoc]
    exact ih ((step_within read h).apply run)

theorem loadWitness_loads : Ensures (loadWitness witness) s fun _ s' =>
      s' = { s with stack := witness.reverse ++ s.stack } ∧ ∀ e ∈ witness, e.length ≤ maxElementSize := by
  induction witness generalizing s with
  | nil => simp [loadWitness]
  | cons element rest ih =>
    simp only [loadWitness, ensures_bind, ensures_ite, ensures_throw, ensures_push]
    refine ⟨fun _ => trivial, fun hlength => ih.mono fun _ s' loaded => ⟨?_, ?_⟩⟩
    · rw [loaded.1]
      simp
    · exact List.forall_mem_cons.mpr ⟨Nat.not_lt.mp hlength, loaded.2⟩

/-- `set_witness_size`, with a sum that wraps around as `usize` does. -/
def setWitnessSize (witnessBytes : ℕ) (s : TapscriptInterpreter) : TapscriptInterpreter :=
  { s with sigopsBudget := (sigopsBudgetCost + witnessBytes) % 2 ^ 64 }

theorem within_start {budget : ℕ} {new start : TapscriptInterpreter} (hnew : TapscriptInterpreter.new script = .ok new)
    (hstart : loadWitness witness { new with sigopsBudget := budget } = .ok ((), start)) :
    Within witness.length budget 0 0 start := by
  unfold TapscriptInterpreter.new at hnew
  split at hnew
  · cases hnew
  · cases hnew
    obtain ⟨rfl, hshort⟩ := loadWitness_loads.apply hstart
    exact { stack := by simp
            alt := le_rfl
            ops := Nat.zero_le _
            conditionals := le_rfl
            budget := by simp
            short := ⟨fun e he => hshort e (by simpa using he), fun e he => by cases he⟩ }

theorem pays_of_executeFrom {fuel : ℕ} (enough : script.length ≤ pc + fuel)
    (h : executeFrom sha256 verifySchnorr context script fuel pc s = .ok ((), final)) :
    ∃ n last, Pays sha256 verifySchnorr context script n pc s last final ∧ script.length ≤ last := by
  induction fuel generalizing pc s with
  | zero =>
    cases h
    exact ⟨0, pc, .here pc _, by omega⟩
  | succ fuel ih =>
    cases read : script[pc]? with
    | none =>
      rw [executeFrom_end read] at h
      cases h
      exact ⟨0, pc, .here pc _, by simpa using read⟩
    | some opcode =>
      rw [executeFrom_turn read, bind_eq_ok] at h
      obtain ⟨next, mid, run, hrest⟩ := h
      have forward := (step_progress read).apply run
      obtain ⟨n, last, hpays, hlast⟩ := ih (by omega) hrest
      exact ⟨_, last, .turn read run hpays, hlast⟩

end Runs

section Leaves

variable {sha256 : Sha256} {verifySchnorr : List UInt8 → Bytes32 → List UInt8 → Bool} {eng : Engine}
  {context : TapscriptContext} {script : List UInt8} {inputs : List (List UInt8)}

/-- A run in which `set_witness_size` has set the budget stays within the limits at every turn, and has
checked no more keys than the budget pays for. -/
theorem leaf_run_limits {witnessBytes n last : ℕ} {new start final : TapscriptInterpreter}
    (hnew : TapscriptInterpreter.new script = .ok new)
    (hstart : loadWitness inputs (setWitnessSize witnessBytes new) = .ok ((), start))
    (hpays : Pays sha256 verifySchnorr context script n 0 start last final) :
    Within inputs.length ((sigopsBudgetCost + witnessBytes) % 2 ^ 64) n last final ∧
      n ≤ 1 + witnessBytes / sigopsBudgetCost := by
  have hwithin := within_of_pays (within_start hnew hstart) hpays
  rw [Nat.zero_add] at hwithin
  have hbudget := hwithin.budget
  refine ⟨hwithin, ?_⟩
  unfold sigopsBudgetCost at hbudget ⊢
  omega

/-- The context of an empty leaf. -/
def blankLeaf : TapscriptContext := ⟨Bytes32.zero, [], ⟨0xc0, []⟩, []⟩

/-- `OP_1 OP_CHECKSIG` on an empty signature: the key `0x01` is paid for. -/
theorem one_key_limits :
    ∃ start final, loadWitness [[]] (setWitnessSize 2 ⟨[], [], 0, [], 0xffffffff, 50⟩) = .ok ((), start) ∧
      Pays Sha256.sha256 (fun _ _ _ => true) blankLeaf [0x51, 0xac] 1 0 start 2 final ∧
      Within 1 (50 + 2) 1 2 final ∧ 1 ≤ 1 + 2 / 50 := by
  have hpays : Pays Sha256.sha256 (fun _ _ _ => true) blankLeaf [0x51, 0xac]
      (keyChecks 0x51 ⟨[[]], [], 0, [], 0xffffffff, 52⟩ + (keyChecks 0xac ⟨[[0x01], []], [], 0, [], 0xffffffff, 52⟩ + 0))
      0 ⟨[[]], [], 0, [], 0xffffffff, 52⟩ 2 ⟨[[]], [], 1, [], 0xffffffff, 2⟩ :=
    .turn (@rfl _ (some 0x51)) rfl (.turn (@rfl _ (some 0xac)) rfl (.here 2 _))
  exact ⟨_, _, rfl, hpays, @leaf_run_limits _ _ blankLeaf [0x51, 0xac] [[]] 2 _ 2 ⟨[], [], 0, [], 0xffffffff, 50⟩ _ _
    rfl rfl hpays⟩

/-- The path that spends an output leaves the budget as it is, so a leaf script that succeeds there has
checked at most one key. -/
theorem accepted_leaf_checks_one_key (h : runLeaf eng context script inputs = .ok true) :
    ∃ start final n last, startLeaf script inputs = .ok start ∧
      Pays eng.sha256 eng.verifySchnorr context script n 0 start last final ∧ script.length ≤ last ∧ n ≤ 1 := by
  obtain ⟨start, final, hstart, hrun, -⟩ := runLeaf_eq_ok.mp h
  obtain ⟨n, last, hpays, hlast⟩ := pays_of_executeFrom (by omega) hrun
  obtain ⟨new, hnew, hload⟩ := startLeaf_eq_ok.mp hstart
  have hbudget : new = setWitnessSize 0 new := by
    unfold TapscriptInterpreter.new at hnew
    split at hnew
    · cases hnew
    · cases hnew
      rfl
  rw [hbudget] at hload
  have hwithin := within_of_pays (within_start hnew hload) hpays
  have hpaid := hwithin.budget
  refine ⟨start, final, n, last, hstart, hpays, hlast, ?_⟩
  unfold sigopsBudgetCost at hpaid
  omega

/-- `OP_1 OP_CHECKSIG OP_NOT` on an empty signature: the key `0x01` is checked. -/
theorem keyScript_checks_one_key :
    (∃ final, Pays PayToScriptHash.keylessEngine.sha256 PayToScriptHash.keylessEngine.verifySchnorr blankLeaf
        [0x51, 0xac, 0x91] 1 0 ⟨[[]], [], 0, [], 0xffffffff, 50⟩ 3 final) ∧
      ∃ start final n last, startLeaf [0x51, 0xac, 0x91] [[]] = .ok start ∧
        Pays PayToScriptHash.keylessEngine.sha256 PayToScriptHash.keylessEngine.verifySchnorr blankLeaf
          [0x51, 0xac, 0x91] n 0 start last final ∧ [0x51, 0xac, 0x91].length ≤ last ∧ n ≤ 1 := by
  have hpays : Pays PayToScriptHash.keylessEngine.sha256 PayToScriptHash.keylessEngine.verifySchnorr blankLeaf
      [0x51, 0xac, 0x91]
      (keyChecks 0x51 ⟨[[]], [], 0, [], 0xffffffff, 50⟩ + (keyChecks 0xac ⟨[[0x01], []], [], 0, [], 0xffffffff, 50⟩ +
        (keyChecks 0x91 ⟨[[]], [], 1, [], 0xffffffff, 0⟩ + 0)))
      0 ⟨[[]], [], 0, [], 0xffffffff, 50⟩ 3 ⟨[[0x01]], [], 2, [], 0xffffffff, 0⟩ :=
    .turn (@rfl _ (some 0x51)) rfl (.turn (@rfl _ (some 0xac)) rfl (.turn (@rfl _ (some 0x91)) rfl (.here 3 _)))
  exact ⟨⟨_, hpays⟩, @accepted_leaf_checks_one_key _ blankLeaf [0x51, 0xac, 0x91] [[]] rfl⟩

end Leaves

section SuccessOpcodes

variable {eng : Engine} {context : TapscriptContext} {script : List UInt8} {inputs : List (List UInt8)}
  {pc last : ℕ} {opcode : UInt8} {start s final : TapscriptInterpreter}

theorem executeFrom_visits {fuel : ℕ} (enough : script.length ≤ pc + fuel)
    (h : Visits eng.sha256 eng.verifySchnorr context script pc s last final) : ∃ left, script.length ≤ last + left ∧
      executeFrom eng.sha256 eng.verifySchnorr context script fuel pc s =
        executeFrom eng.sha256 eng.verifySchnorr context script left last final := by
  induction h generalizing fuel with
  | here => exact ⟨fuel, enough, rfl⟩
  | @turn pc next last s mid final opcode read run rest ih =>
    have inside : pc < script.length := (List.getElem?_eq_some_iff.mp read).1
    have forward := (step_progress read).apply run
    cases fuel with
    | zero => omega
    | succ fuel =>
      obtain ⟨left, hleft, heq⟩ := @ih fuel (by omega)
      refine ⟨left, hleft, ?_⟩
      rw [executeFrom_turn read, bind_of_ok run, heq]

theorem visits_turn {next : ℕ} {mid : TapscriptInterpreter} {first : ℕ}
    (h : Visits eng.sha256 eng.verifySchnorr context script first start pc s) (read : script[pc]? = some opcode)
    (run : step eng.sha256 eng.verifySchnorr context script opcode (pc + 1) s = .ok (next, mid)) :
    Visits eng.sha256 eng.verifySchnorr context script first start next mid := by
  induction h with
  | here => exact .turn read run (.here next mid)
  | turn read' run' rest ih => exact .turn read' run' (ih read run)

theorem success_bytes (opcode : UInt8) : opcode = 0x50 ∨ isOpSuccess opcode = true →
    ¬ opcode = 0x00 ∧ ¬ opcode ≤ 0x4b ∧ ¬ opcode = 0x4c ∧ ¬ (0x51 ≤ opcode ∧ opcode ≤ 0x60) ∧ ¬ opcode = 0xab ∧
      isCountedOp opcode = false ∧ isFlowControlOp opcode = false ∧ skipOpcode [] opcode 0 = 0 := by
  revert opcode
  exact ScriptNumbers.byte_forall (by decide +kernel)

/-- An opcode that a future version may give a meaning to ends the loop, in a branch that is executed. -/
theorem step_success (hexec : s.shouldExecute = true) (hsuccess : opcode = 0x50 ∨ isOpSuccess opcode = true) :
    step eng.sha256 eng.verifySchnorr context script opcode (pc + 1) s =
      if s.stack.length > maxStackSize then .error .stackOverflow else .ok (script.length, s) := by
  obtain ⟨hzero, hpush, hprefixed, hsmall, hseparator, hfree, -⟩ := success_bytes opcode hsuccess
  have hopcode : executeOpcode eng.sha256 eng.verifySchnorr context script opcode (pc + 1) = pure script.length := by
    rw [executeOpcode, if_neg hzero, if_neg hpush, if_neg hprefixed, if_neg hsmall, if_neg hseparator, if_pos hsuccess]
  have hcount : countOp opcode = pure () := by
    simp [countOp, hfree]
  unfold step
  rw [get_bind, if_pos hexec, hcount, hopcode, pure_bind, pure_bind, checkStackSize, bind_assoc, get_bind]
  split <;> rfl

theorem step_skipped_success (hidle : s.shouldExecute = false) (hsuccess : opcode = 0x50 ∨ isOpSuccess opcode = true) :
    step eng.sha256 eng.verifySchnorr context script opcode (pc + 1) s = .ok (pc + 1, s) := by
  obtain ⟨-, hpush, hprefixed, -, -, -, hflow, -⟩ := success_bytes opcode hsuccess
  unfold step
  rw [get_bind, hidle, hflow]
  simp only [Bool.false_eq_true, if_false]
  rw [skipOpcode, if_neg (fun h => hpush h.2), if_neg hprefixed]
  rfl

/-- A leaf script that comes to such an opcode in a branch that is executed succeeds exactly if every
conditional is closed and what is on top of the stack is true, whatever follows. In a branch that is
not executed the opcode changes nothing. -/
theorem success_opcode_ends (hstart : startLeaf script inputs = .ok start)
    (hvisit : Visits eng.sha256 eng.verifySchnorr context script 0 start pc s) (read : script[pc]? = some opcode)
    (hsuccess : opcode = 0x50 ∨ isOpSuccess opcode = true) :
    (s.shouldExecute = true → (runLeaf eng context script inputs = .ok true ↔
        s.stack.length ≤ maxStackSize ∧ s.ifStack = [] ∧ s.stack.head?.any isTrue = true)) ∧
      (s.shouldExecute = false →
        Visits eng.sha256 eng.verifySchnorr context script 0 start (pc + 1) s) := by
  constructor
  · intro hexec
    obtain ⟨left, hleft, hrun⟩ := @executeFrom_visits eng context script 0 pc start s script.length (by omega) hvisit
    have inside : pc < script.length := (List.getElem?_eq_some_iff.mp read).1
    obtain ⟨fuel, rfl⟩ : ∃ fuel, left = fuel + 1 := ⟨left - 1, by omega⟩
    rw [executeFrom_turn read] at hrun
    rw [runLeaf_eq_ok]
    by_cases hroom : s.stack.length > maxStackSize
    · have hfail : executeFrom eng.sha256 eng.verifySchnorr context script script.length 0 start = .error .stackOverflow := by
        rw [hrun]
        exact bind_of_error (by rw [step_success hexec hsuccess, if_pos hroom])
      constructor
      · rintro ⟨start', final, hstart', hloop, -⟩
        rw [hstart] at hstart'
        cases hstart'
        rw [hfail] at hloop
        cases hloop
      · rintro ⟨hle, -⟩
        omega
    · have hend : executeFrom eng.sha256 eng.verifySchnorr context script script.length 0 start = .ok ((), s) := by
        rw [hrun, bind_of_ok (by rw [step_success hexec hsuccess, if_neg hroom]),
          executeFrom_end (List.getElem?_eq_none le_rfl)]
        rfl
      have hfinish : finish s = .ok (true, s) ↔ s.ifStack = [] ∧ s.stack.head?.any isTrue = true := by
        unfold finish
        rw [get_bind]
        by_cases hopen : s.ifStack = []
        · rw [if_neg (not_not.mpr hopen)]
          show (Except.ok (s.stack.head?.any isTrue, s) : Except TapscriptError _) = .ok (true, s) ↔ _
          simp [hopen]
        · rw [if_pos hopen]
          refine iff_of_false (fun h => by cases h) fun h => hopen h.1
      constructor
      · rintro ⟨start', final, hstart', hloop, hverdict⟩
        rw [hstart] at hstart'
        cases hstart'
        rw [hend] at hloop
        cases hloop
        exact ⟨Nat.not_lt.mp hroom, hfinish.mp hverdict⟩
      · rintro ⟨-, hverdict⟩
        exact ⟨start, s, hstart, hend, hfinish.mpr hverdict⟩
  · intro hidle
    exact visits_turn hvisit read (step_skipped_success hidle hsuccess)

/-- `OP_0` and then such an opcode: the leaf fails. -/
theorem success_after_false : runLeaf PayToScriptHash.keylessEngine blankLeaf [0x00, 0x50] [] ≠ .ok true := by
  have hvisit : Visits PayToScriptHash.keylessEngine.sha256 PayToScriptHash.keylessEngine.verifySchnorr blankLeaf
      [0x00, 0x50] 0 ⟨[], [], 0, [], 0xffffffff, 50⟩ 1 ⟨[[]], [], 0, [], 0xffffffff, 50⟩ :=
    .turn (@rfl _ (some 0x00)) rfl (.here 1 _)
  intro h
  have hverdict := ((success_opcode_ends rfl hvisit (@rfl _ (some 0x50)) (.inl rfl)).1 rfl).mp h
  exact absurd hverdict.2.2 (by decide)

end SuccessOpcodes

end KuberCoin.TapscriptBudgets
