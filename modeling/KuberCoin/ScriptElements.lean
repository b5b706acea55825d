import KuberCoin.ScriptHashSpends
import KuberCoin.ScriptNumbers

/-!
Where the elements on the stacks of the interpreter come from. An opcode moves and copies elements,
pushes bytes of the script, or pushes a number, a truth value or a hash: so an element longer than a
hash is a slice of the script.
-/
namespace KuberCoin.ScriptElements

open Bytes Transactions FailingPrograms ScriptInterpreters ScriptNumbers ScriptRuns ScriptLimits
  ScriptHashSpends

section Keeping

/-- Signatures sign in the context, and every element of the two stacks has the property. -/
structure Sourced (P : List UInt8 → Prop) (context : Option SegwitContext) (s : ScriptInterpreter) : Prop where
  context : s.segwitContext = context
  stack : ∀ e ∈ s.stack, P e
  altStack : ∀ e ∈ s.altStack, P e

variable (P : List UInt8 → Prop) (context : Option SegwitContext)

variable {P context} {prims : Primitives} {tx : Transaction} {index : ℕ} {s : ScriptInterpreter}

@[grind =] theorem sourced_iff : Sourced P context s ↔
    s.segwitContext = context ∧ (∀ e ∈ s.stack, P e) ∧ ∀ e ∈ s.altStack, P e :=
  ⟨fun h => ⟨h.context, h.stack, h.altStack⟩, fun h => ⟨h.1, h.2.1, h.2.2⟩⟩

theorem Sourced.push {data : List UInt8} (h : Sourced P context s) (new : P data) :
    Sourced P context { s with stack := data :: s.stack } :=
  ⟨h.context, List.forall_mem_cons.mpr ⟨new, h.stack⟩, h.altStack⟩

end Keeping

section Table

variable {P : List UInt8 → Prop} {context : Option SegwitContext} {prims : Primitives} {tx : Transaction} {index : ℕ}
  {bytes : List UInt8} {start s final : ScriptInterpreter} {pc : ℕ} {opcode : UInt8}
  (small : ∀ e : List UInt8, e.length ≤ 32 → P e)

include small

theorem small_number (n : Int64) : P (intToBytes n) := small _ ((length_intToBytes n).trans (by decide))

end Table

section Runs

variable {prims : Primitives} {tx : Transaction} {index : ℕ} {bytes : List UInt8} {start final : ScriptInterpreter}

end Runs

section Pushes

/-- Every instruction of the script is a push. -/
def PushOnly (bytes : List UInt8) : Prop :=
  ∀ pc opcode, Boundary bytes pc → bytes[pc]? = some opcode → opcode ≤ 0x60

/-- A push of up to 75 bytes by their number. -/
def directPush (data : List UInt8) : List UInt8 := UInt8.ofNat data.length :: data

def Direct (data : List UInt8) : Prop := 2 ≤ data.length ∧ data.length ≤ 75

variable {prims : Primitives} {tx : Transaction} {index : ℕ} {bytes : List UInt8} {s final : ScriptInterpreter} {pc : ℕ}
  {opcode : UInt8}

theorem nextInstruction_append {front : List UInt8} :
    nextInstruction (front ++ bytes) (front.length + pc) = front.length + nextInstruction bytes pc := by
  have read : (front ++ bytes)[front.length + pc]? = bytes[pc]? := by
    rw [List.getElem?_append_right (Nat.le_add_right ..), Nat.add_sub_cancel_left]
  unfold nextInstruction
  rw [read]
  cases bytes[pc]? with
  | none => exact Nat.add_assoc ..
  | some opcode =>
    have rest : (front ++ bytes).drop (front.length + pc + 1) = bytes.drop (pc + 1) := by
      rw [Nat.add_assoc, ← List.drop_drop, List.drop_left]
    simp only [payloadLength, rest]
    omega

theorem PushOnly.directPush {data : List UInt8} (h : PushOnly bytes) (short : data.length ≤ 75) :
    PushOnly (directPush data ++ bytes) := by
  have number : UInt8.ofNat data.length ≤ 0x4b := by
    rw [UInt8.le_iff_toNat_le, toNat_ofNat_length (by omega)]
    exact short
  have behind {pc : ℕ} (boundary : Boundary (ScriptElements.directPush data ++ bytes) pc) :
      pc = 0 ∨ ∃ k, pc = (ScriptElements.directPush data).length + k ∧ Boundary bytes k := by
    obtain ⟨n, rfl⟩ := boundary
    induction n with
    | zero => exact .inl rfl
    | succ n ih =>
      rw [Function.iterate_succ_apply']
      rcases ih with first | ⟨k, later, here⟩
      · refine .inr ⟨0, ?_, boundary_zero⟩
        have size : (UInt8.ofNat data.length).toNat = data.length := toNat_ofNat_length (by omega)
        rw [first]
        simp [nextInstruction, ScriptElements.directPush, payloadLength, number, size, Nat.add_comm]
      · rw [later, nextInstruction_append]
        exact .inr ⟨_, rfl, here.next⟩
  intro pc opcode boundary read
  rcases behind boundary with rfl | ⟨k, rfl, here⟩
  · cases read
    exact UInt8.le_trans number (by decide)
  · rw [List.getElem?_append_right (Nat.le_add_right ..), Nat.add_sub_cancel_left] at read
    exact h k opcode here read

/-- A push puts one element on the stack, and one of 2 to 75 bytes is pushed by their number. -/
structure Pushed (bytes : List UInt8) (pc next : ℕ) (s s' : ScriptInterpreter) : Prop where
  branches : s'.conditionStack = s.conditionStack
  element : ∃ data, s'.stack = data :: s.stack ∧ (Direct data → bytes.take next = bytes.take pc ++ directPush data)

end Pushes

end KuberCoin.ScriptElements
