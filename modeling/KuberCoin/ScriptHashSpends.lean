import KuberCoin.ScriptLimits

/-!
Spending a pay-to-script-hash output with pushes of data and the redeem script. The parser of
`verify_p2sh` takes the redeem script out of the input script as long as every push is of 1 to 255
bytes and has no opcode of its own; the interpreter then pushes the same data.
-/
namespace KuberCoin.ScriptHashSpends

open Bytes Transactions Validator Sighashes InputScripts FailingPrograms ScriptInterpreters ScriptRuns
  PayToScriptHash

section Extraction

variable {data last rest : List UInt8} {fuel : ℕ} {items : List (List UInt8)}

/-- Data that the parser of `verify_p2sh` reads behind its shortest push. -/
def Extractable (data : List UInt8) : Prop :=
  data.length ≤ 255 ∧ ∀ b, data = [b] → ¬ (1 ≤ b ∧ b ≤ 16) ∧ b ≠ 0x81

theorem minimalPush_of_long (h : 2 ≤ data.length) : minimalPush data =
      if data.length ≤ 75 then UInt8.ofNat data.length :: data
      else if data.length ≤ 255 then [0x4c, UInt8.ofNat data.length] ++ data
      else if data.length ≤ 65535 then [0x4d] ++ leBytes 2 data.length ++ data
      else [0x4e] ++ leBytes 4 data.length ++ data := by
  match data, h with
  | _ :: _ :: _, _ => simp [minimalPush]

theorem minimalPush_short (h : Extractable data) (nonempty : data ≠ []) (short : data.length ≤ 75) :
    minimalPush data = UInt8.ofNat data.length :: data := by
  match data, nonempty with
  | [b], _ =>
    obtain ⟨small, negate⟩ := h.2 b rfl
    unfold minimalPush
    split
    · simp_all
    · simp_all
    · simp_all
  | _ :: _ :: _, _ => rw [minimalPush_of_long (by simp), if_pos short]

theorem minimalPush_medium (h : Extractable data) (long : 75 < data.length) :
    minimalPush data = 0x4c :: UInt8.ofNat data.length :: data := by
  rw [minimalPush_of_long (by omega), if_neg (by omega), if_pos h.1]
  rfl

theorem minimalPush_unsupported (h : ¬ Extractable data) (nonempty : data ≠ []) :
    ∃ op rest, minimalPush data = op :: rest ∧ 0x4c < op := by
  match data, nonempty with
  | [b], _ =>
    have coded : (1 ≤ b ∧ b ≤ 16) ∨ b = 0x81 := by
      by_contra plain
      refine h ⟨by simp, fun c hc => ?_⟩
      cases hc
      tauto
    rcases coded with small | rfl
    · have notNegate : b ≠ 0x81 := by
        rintro rfl
        exact absurd small.2 (by decide)
      refine ⟨0x50 + b, [], ?_, ?_⟩
      · unfold minimalPush
        split
        · simp_all
        · simp_all
        · simp_all
      · have bounds := And.intro small.1 small.2
        simp only [UInt8.le_iff_toNat_le, UInt8.reduceToNat] at bounds
        simp only [UInt8.lt_iff_toNat_lt, UInt8.toNat_add, UInt8.reduceToNat]
        omega
    · exact ⟨0x4f, [], rfl, by decide⟩
  | c :: d :: rest, _ =>
    have long : 255 < (c :: d :: rest).length := by
      by_contra short
      refine h ⟨by omega, fun b hb => ?_⟩
      simp at hb
    rw [minimalPush_of_long (by omega), if_neg (by omega), if_neg (by omega)]
    split
    · exact ⟨0x4d, _, rfl, by decide⟩
    · exact ⟨0x4e, _, rfl, by decide⟩

theorem toNat_ofNat_length (h : data.length ≤ 255) : (UInt8.ofNat data.length).toNat = data.length :=
  UInt8.toNat_ofNat_of_lt' (Nat.lt_succ_of_le h)

theorem extractLoop_cons {op : UInt8} : extractLoop (fuel + 1) (op :: rest) last =
      if op = 0 then extractLoop fuel rest last
      else if op < 0x4c then
        if rest.length < op.toNat then .error (p2shError "script parsing overflow")
        else extractLoop fuel (rest.drop op.toNat) (rest.take op.toNat)
      else if op = 0x4c then
        match rest with
        | [] => .error (p2shError "invalid OP_PUSHDATA1")
        | len :: data =>
            if data.length < len.toNat then .error (p2shError "script parsing overflow")
            else extractLoop fuel (data.drop len.toNat) (data.take len.toNat)
      else .error (p2shError "unsupported push opcode") := rfl

theorem extractLoop_push (h : Extractable data) (nonempty : data ≠ []) :
    extractLoop (fuel + 1) (minimalPush data ++ rest) last = extractLoop fuel rest data := by
  have size := toNat_ofNat_length h.1
  have pos : 0 < data.length := List.length_pos_of_ne_nil nonempty
  by_cases short : data.length ≤ 75
  · have nonzero : UInt8.ofNat data.length ≠ 0 := by
      rw [Ne, ← UInt8.toNat_inj, size]
      simp only [UInt8.reduceToNat]
      omega
    have small : UInt8.ofNat data.length < 0x4c := by
      rw [UInt8.lt_iff_toNat_lt, size]
      simp only [UInt8.reduceToNat]
      omega
    have room : ¬ (data ++ rest).length < data.length := by simp
    rw [minimalPush_short h nonempty short, List.cons_append, extractLoop_cons, if_neg nonzero,
      if_pos small, size, if_neg room, List.drop_left, List.take_left]
  · have room : ¬ (data ++ rest).length < data.length := by simp
    rw [minimalPush_medium h (by omega), List.cons_append, List.cons_append, extractLoop_cons,
      if_neg (by decide), if_neg (by decide), if_pos rfl]
    simp only [size, if_neg room, List.drop_left, List.take_left]

theorem extractLoop_items {redeem : List UInt8} (enough : items.length ≤ fuel) (nonempty : ∀ d ∈ items, d ≠ []) :
    extractLoop fuel (items.flatMap minimalPush) last = .ok redeem ↔
      (∀ d ∈ items, Extractable d) ∧ items.getLastD last = redeem ∧ redeem ≠ [] := by
  induction items generalizing fuel last with
  | nil =>
    have stop : extractLoop fuel [] last =
        if last = [] then .error (p2shError "no redeem script found") else .ok last := by
      cases fuel with
      | zero => rfl
      | succ fuel => rfl
    rw [List.flatMap_nil, stop]
    by_cases empty : last = []
    · rw [if_pos empty]
      subst empty
      simp only [List.getLastD_nil]
      exact iff_of_false (by simp) (by rintro ⟨_, rfl, h⟩; exact h rfl)
    · rw [if_neg empty]
      simp only [Except.ok.injEq, List.not_mem_nil, false_implies, implies_true, List.getLastD_nil,
        true_and]
      exact ⟨fun h => ⟨h, h ▸ empty⟩, And.left⟩
  | cons d rest ih =>
    obtain ⟨more, rfl⟩ : ∃ more, fuel = more + 1 := ⟨fuel - 1, by simp at enough; omega⟩
    rw [List.flatMap_cons, List.forall_mem_cons, List.getLastD_cons]
    have here := nonempty d (List.mem_cons_self ..)
    by_cases extractable : Extractable d
    · rw [extractLoop_push extractable here,
        ih (by simpa using enough) fun e he => nonempty e (List.mem_cons_of_mem _ he)]
      simp only [extractable, true_and]
    · obtain ⟨op, tail, push, big⟩ := minimalPush_unsupported extractable here
      have nonzero : op ≠ 0 := by
        rintro rfl
        exact absurd big (by decide)
      have notSmall : ¬ op < 0x4c := UInt8.lt_asymm big
      have notOne : op ≠ 0x4c := by
        rintro rfl
        exact absurd big (by decide)
      rw [push, List.cons_append, extractLoop_cons, if_neg nonzero, if_neg notSmall, if_neg notOne]
      exact iff_of_false (by simp) fun h => extractable h.1.1

theorem minimalPush_ne_nil (nonempty : data ≠ []) : minimalPush data ≠ [] := by
  by_cases h : Extractable data
  · by_cases short : data.length ≤ 75
    · simp [minimalPush_short h nonempty short]
    · simp [minimalPush_medium h (by omega)]
  · obtain ⟨op, rest, push, _⟩ := minimalPush_unsupported h nonempty
    simp [push]

theorem length_le_flatMap_minimalPush (nonempty : ∀ d ∈ items, d ≠ []) :
    items.length ≤ (items.flatMap minimalPush).length := by
  induction items with
  | nil => simp
  | cons d rest ih =>
    have tail := ih fun e he => nonempty e (List.mem_cons_of_mem _ he)
    have head := List.length_pos_of_ne_nil (minimalPush_ne_nil (nonempty d (List.mem_cons_self ..)))
    rw [List.flatMap_cons, List.length_append, List.length_cons]
    omega

variable {pushes : List (List UInt8)} {redeem : List UInt8}

theorem items_ne_nil (nonempty : ∀ d ∈ pushes, d ≠ []) (size : redeem ≠ []) : ∀ d ∈ pushes ++ [redeem], d ≠ [] := by
  intro d hd
  rcases List.mem_append.mp hd with h | h
  · exact nonempty d h
  · exact List.mem_singleton.mp h ▸ size

theorem extract_spendingScript {taken : List UInt8} (nonempty : ∀ d ∈ pushes, d ≠ []) (size : redeem ≠ []) :
    extractRedeemScript (spendingScript pushes redeem) = .ok taken ↔
      (∀ d ∈ pushes ++ [redeem], Extractable d) ∧ taken = redeem := by
  have items := items_ne_nil nonempty size
  have long := length_le_flatMap_minimalPush items
  have some_ : spendingScript pushes redeem ≠ [] := by
    rw [← List.length_pos_iff, spendingScript]
    rw [List.length_append, List.length_singleton] at long
    omega
  rw [extractRedeemScript, if_neg some_, spendingScript, extractLoop_items long items,
    List.getLastD_concat]
  constructor
  · rintro ⟨h, rfl, _⟩
    exact ⟨h, rfl⟩
  · rintro ⟨h, rfl⟩
    exact ⟨h, rfl, size⟩

end Extraction

section Pushing

variable {prims : Primitives} {tx : Transaction} {index : ℕ} {s : ScriptInterpreter}
  {after before bytes data : List UInt8} {opcode : UInt8} {pc : ℕ} {final start : ScriptInterpreter}
  {items : List (List UInt8)}

theorem push_eq (short : data.length ≤ maxElementSize) :
    push data s = if s.stack.length < maxStackSize then .ok ((), s.pushData data)
      else .error .stackOverflow := by
  have size : ¬ data.length > maxElementSize := by omega
  rw [push, if_neg size]
  show (if s.stack.length ≥ maxStackSize then throw .stackOverflow else set (s.pushData data) : Op Unit) s = _
  by_cases room : s.stack.length < maxStackSize
  · rw [if_pos room, if_neg (by omega)]
    rfl
  · rw [if_neg room, if_pos (by omega)]
    rfl

/-- What a push of extractable data does: the interpreter refuses a single zero byte. -/
def pushed (data : List UInt8) (next : ℕ) (s : ScriptInterpreter) :
    Except ScriptInterpreterError (ℕ × ScriptInterpreter) :=
  if data = [0] then .error .nonMinimalPush
  else if s.stack.length < maxStackSize then .ok (next, s.pushData data)
  else .error .stackOverflow

theorem push_next {next : ℕ} (short : data.length ≤ maxElementSize) (nonzero : data ≠ [0]) :
    (do push data; return next : Op ℕ) s = pushed data next s := by
  rw [pushed, if_neg nonzero]
  have run := push_eq (s := s) short
  by_cases room : s.stack.length < maxStackSize
  · rw [if_pos room] at run ⊢
    rw [bind_of_ok run]
    rfl
  · rw [if_neg room] at run ⊢
    exact bind_of_error run

theorem step_plain (plain : opcode ≤ 0x60) (open_ : s.conditionStack = []) :
    step prims tx index bytes opcode pc s = executeOpcode prims tx index opcode bytes pc s := by
  have uncounted : ¬ opcode > 0x60 := UInt8.not_lt.mpr plain
  have count : countOp opcode s = .ok ((), s) := by
    rw [countOp, if_neg uncounted]
    rfl
  have exec : s.shouldExecute = true := by simp [ScriptInterpreter.shouldExecute, open_]
  rw [step, bind_of_ok count, get_bind, exec]
  rfl

theorem slice_append : ((before ++ data ++ after).drop before.length).take data.length = data := by
  rw [List.append_assoc, List.drop_left, List.take_left]

theorem pushShort_eq (h : Extractable data) (short : data.length ≤ 75) :
    pushShort (before ++ data ++ after) before.length data.length s =
      pushed data (before.length + data.length) s := by
  have inside : ¬ before.length + data.length > (before ++ data ++ after).length := by simp
  have refused : (data.length = 1 ∧ (data.getD 0 0 ≤ 16 ∨ data.getD 0 0 = 0x81)) ↔ data = [0] := by
    constructor
    · rintro ⟨one, small⟩
      obtain ⟨b, rfl⟩ := List.length_eq_one_iff.mp one
      obtain ⟨coded, negate⟩ := h.2 b rfl
      have low : b ≤ 16 := small.resolve_right negate
      have zero : ¬ 1 ≤ b := fun one => coded ⟨one, low⟩
      simp only [UInt8.le_iff_toNat_le, UInt8.reduceToNat] at zero
      have value : b = 0 := by
        simp only [← UInt8.toNat_inj, UInt8.reduceToNat]
        omega
      rw [value]
    · rintro rfl
      exact ⟨rfl, .inl (by decide)⟩
  rw [pushShort, if_neg inside]
  simp only [slice_append, refused]
  by_cases zero : data = [0]
  · rw [if_pos zero, pushed, if_pos zero]
    rfl
  · rw [if_neg zero]
    exact push_next (by unfold maxElementSize; omega) zero

theorem pushPrefixed_eq (h : Extractable data) (long : 75 < data.length) :
    pushPrefixed (before ++ UInt8.ofNat data.length :: data ++ after) before.length 1 75 s =
      pushed data (before.length + (1 + data.length)) s := by
  have size := toNat_ofNat_length h.1
  have nonzero : data ≠ [0] := by
    rintro rfl
    simp at long
  have shape : before ++ UInt8.ofNat data.length :: data ++ after =
      (before ++ [UInt8.ofNat data.length]) ++ data ++ after := by simp
  have prefix_ : leValue (((before ++ UInt8.ofNat data.length :: data ++ after).drop
      before.length).take 1) = data.length := by
    rw [List.append_assoc, List.drop_left]
    simp [leValue, value, size]
  have first : ¬ before.length + 1 > (before ++ UInt8.ofNat data.length :: data ++ after).length := by
    simp
  have inside : ¬ before.length + 1 + data.length >
      (before ++ UInt8.ofNat data.length :: data ++ after).length := by
    simp
    omega
  have slice : ((before ++ UInt8.ofNat data.length :: data ++ after).drop (before.length + 1)).take
      data.length = data := by
    rw [shape]
    have at_ : before.length + 1 = (before ++ [UInt8.ofNat data.length]).length := by simp
    rw [at_, slice_append]
  simp only [pushPrefixed, pushBytes, prefix_, if_neg first, if_neg inside, if_neg (not_le.mpr long), slice]
  rw [← Nat.add_assoc]
  exact push_next (by have := h.1; unfold maxElementSize; omega) nonzero

variable (prims tx index) in
theorem step_push (before after : List UInt8) (h : Extractable data) (nonempty : data ≠ [])
    (open_ : s.conditionStack = []) : ∃ opcode, (before ++ minimalPush data ++ after)[before.length]? = some opcode ∧
      step prims tx index (before ++ minimalPush data ++ after) opcode (before.length + 1) s =
        pushed data (before.length + (minimalPush data).length) s := by
  have size := toNat_ofNat_length h.1
  have pos : 0 < data.length := List.length_pos_of_ne_nil nonempty
  by_cases short : data.length ≤ 75
  · rw [minimalPush_short h nonempty short]
    have shape : before ++ UInt8.ofNat data.length :: data ++ after =
        (before ++ [UInt8.ofNat data.length]) ++ data ++ after := by simp
    have at_ : before.length + 1 = (before ++ [UInt8.ofNat data.length]).length := by simp
    have low : UInt8.ofNat data.length ≤ 0x4b := by
      rw [UInt8.le_iff_toNat_le, size]
      exact short
    have nonzero : UInt8.ofNat data.length ≠ 0x00 := by
      simp only [ne_eq, ← UInt8.toNat_inj, size, UInt8.reduceToNat]
      omega
    have small : ¬ (0x51 ≤ UInt8.ofNat data.length ∧ UInt8.ofNat data.length ≤ 0x60) := by
      simp only [UInt8.le_iff_toNat_le, size, UInt8.reduceToNat]
      omega
    refine ⟨UInt8.ofNat data.length, by simp, ?_⟩
    rw [step_plain (UInt8.le_trans low (by decide)) open_, executeOpcode, if_neg nonzero, if_neg small,
      if_pos low, size, shape, at_, pushShort_eq h short]
    congr 1
    simp only [List.length_append, List.length_cons, List.length_nil]
    omega
  · rw [minimalPush_medium h (by omega)]
    have shape : before ++ 0x4c :: UInt8.ofNat data.length :: data ++ after =
        (before ++ [0x4c]) ++ UInt8.ofNat data.length :: data ++ after := by simp
    have at_ : before.length + 1 = (before ++ [(0x4c : UInt8)]).length := by simp
    refine ⟨0x4c, by simp, ?_⟩
    rw [step_plain (by decide) open_, executeOpcode, if_neg (by decide), if_neg (by decide),
      if_neg (by decide), if_pos rfl, shape, at_, pushPrefixed_eq h (by omega)]
    congr 1
    simp only [List.length_append, List.length_cons, List.length_nil]
    omega

theorem execute_of_failing {e : ScriptInterpreterError} (visited : Visits prims tx index bytes start pc s)
    (read : bytes[pc]? = some opcode) (fails : step prims tx index bytes opcode (pc + 1) s = .error e) :
    execute prims tx index bytes start ≠ .ok ((), final) := by
  intro run
  obtain ⟨_, _, loop⟩ := execute_eq_ok.mp run
  have inside : pc < bytes.length := (List.getElem?_eq_some_iff.mp read).1
  obtain ⟨n, size⟩ : ∃ n, bytes.length = n + 1 := ⟨bytes.length - 1, by omega⟩
  rw [visited.executeFrom_eq, size, executeFrom_turn read, bind_of_error fails] at loop
  cases loop

/-- The state after a list of items is pushed. -/
def pushAll (s : ScriptInterpreter) (items : List (List UInt8)) : ScriptInterpreter :=
  items.foldl ScriptInterpreter.pushData s

theorem pushAll_stack (items : List (List UInt8)) : pushAll s items = { s with stack := items.reverse ++ s.stack } := by
  induction items generalizing s with
  | nil => rfl
  | cons d rest ih =>
    show pushAll (s.pushData d) rest = _
    rw [ih]
    simp [ScriptInterpreter.pushData]

theorem visits_items (plain : ∀ d ∈ items, Extractable d ∧ d ≠ [] ∧ d ≠ [0])
    (room : s.stack.length + items.length ≤ maxStackSize) (open_ : s.conditionStack = [])
    (visited : Visits prims tx index (before ++ items.flatMap minimalPush ++ after) start before.length s) :
    Visits prims tx index (before ++ items.flatMap minimalPush ++ after) start
      (before ++ items.flatMap minimalPush).length (pushAll s items) := by
  induction items generalizing before s with
  | nil => simpa [pushAll] using visited
  | cons d rest ih =>
    obtain ⟨extractable, nonempty, nonzero⟩ := plain d (List.mem_cons_self ..)
    have shape : before ++ (d :: rest).flatMap minimalPush ++ after =
        before ++ minimalPush d ++ (rest.flatMap minimalPush ++ after) := by simp
    have shape' : before ++ (d :: rest).flatMap minimalPush =
        (before ++ minimalPush d) ++ rest.flatMap minimalPush := by simp
    have tail : before ++ minimalPush d ++ (rest.flatMap minimalPush ++ after) =
        (before ++ minimalPush d) ++ rest.flatMap minimalPush ++ after := by simp
    have space : s.stack.length < maxStackSize := by
      simp only [List.length_cons] at room
      omega
    obtain ⟨opcode, read, run⟩ := step_push prims tx index before
      (rest.flatMap minimalPush ++ after) extractable nonempty open_
    rw [pushed, if_neg nonzero, if_pos space] at run
    rw [shape] at visited
    have next := visited.turn read run
    rw [tail, ← List.length_append] at next
    rw [shape']
    refine ih (fun e he => plain e (List.mem_cons_of_mem _ he)) ?_ open_ next
    simp only [ScriptInterpreter.pushData, List.length_cons] at room ⊢
    omega

theorem items_of_execute (plain : ∀ d ∈ items, Extractable d ∧ d ≠ []) (small : s.stack.length ≤ maxStackSize)
    (open_ : s.conditionStack = [])
    (visited : Visits prims tx index (before ++ items.flatMap minimalPush ++ after) start before.length s)
    (run : execute prims tx index (before ++ items.flatMap minimalPush ++ after) start = .ok ((), final)) :
    (∀ d ∈ items, d ≠ [0]) ∧ s.stack.length + items.length ≤ maxStackSize := by
  induction items generalizing before s with
  | nil => exact ⟨by simp, small⟩
  | cons d rest ih =>
    obtain ⟨extractable, nonempty⟩ := plain d (List.mem_cons_self ..)
    have shape : before ++ (d :: rest).flatMap minimalPush ++ after =
        before ++ minimalPush d ++ (rest.flatMap minimalPush ++ after) := by simp
    have tail : before ++ minimalPush d ++ (rest.flatMap minimalPush ++ after) =
        (before ++ minimalPush d) ++ rest.flatMap minimalPush ++ after := by simp
    obtain ⟨opcode, read, turn⟩ := step_push prims tx index before
      (rest.flatMap minimalPush ++ after) extractable nonempty open_
    rw [shape] at visited run
    rw [pushed] at turn
    by_cases zero : d = [0]
    · rw [if_pos zero] at turn
      exact absurd run (execute_of_failing visited read turn)
    rw [if_neg zero] at turn
    by_cases space : s.stack.length < maxStackSize
    · rw [if_pos space] at turn
      have next := visited.turn read turn
      rw [tail, ← List.length_append] at next
      rw [tail] at run
      have fits : (s.pushData d).stack.length ≤ maxStackSize := space
      have more := ih (fun e he => plain e (List.mem_cons_of_mem _ he)) fits open_ next run
      rw [List.forall_mem_cons, List.length_cons]
      refine ⟨⟨zero, more.1⟩, ?_⟩
      have count := more.2
      simp only [ScriptInterpreter.pushData, List.length_cons] at count
      omega
    · rw [if_neg space] at turn
      exact absurd run (execute_of_failing visited read turn)

/-- Running pushes of extractable items: they are pushed if none is a single zero byte, they fit the
stack and the script is not too large. -/
theorem execute_items_iff (plain : ∀ d ∈ items, Extractable d ∧ d ≠ []) :
    execute prims tx index (items.flatMap minimalPush) .new = .ok ((), final) ↔
      ((∀ d ∈ items, d ≠ [0]) ∧ items.length ≤ maxStackSize ∧
        (items.flatMap minimalPush).length ≤ maxScriptSize) ∧ final = pushAll .new items := by
  have begins : Visits prims tx index ([] ++ items.flatMap minimalPush ++ []) .new
      ([] : List UInt8).length .new := .start
  have shape : [] ++ items.flatMap minimalPush ++ [] = items.flatMap minimalPush := by simp
  constructor
  · intro run
    have size := (execute_eq_ok.mp run).1
    rw [← shape] at run
    obtain ⟨nonzero, count⟩ := items_of_execute plain (Nat.zero_le _) rfl begins run
    have room : items.length ≤ maxStackSize := by simpa [ScriptInterpreter.new] using count
    refine ⟨⟨nonzero, room, size⟩, ?_⟩
    have visited := visits_items (fun d hd => ⟨(plain d hd).1, (plain d hd).2, nonzero d hd⟩) count
      rfl begins
    rw [shape] at run visited
    have loop := (execute_eq_ok.mp run).2.2
    rw [visited.executeFrom_eq] at loop
    rw [executeFrom_end (by simp)] at loop
    cases loop
    rfl
  · rintro ⟨⟨nonzero, count, size⟩, rfl⟩
    have room : ScriptInterpreter.new.stack.length + items.length ≤ maxStackSize := by
      simpa [ScriptInterpreter.new] using count
    have visited := visits_items (fun d hd => ⟨(plain d hd).1, (plain d hd).2, nonzero d hd⟩) room
      rfl begins
    rw [shape] at visited
    refine execute_ok_iff.mpr ⟨size, ?_, _, ?_, visited⟩
    · rw [pushAll_stack]
      rfl
    · simp

end Pushing

section OutputScript

variable {prims : Primitives} {tx : Transaction} {index : ℕ} {s : ScriptInterpreter} {opcode : UInt8} {op : Op Unit}
  {top : List UInt8} {rest : List (List UInt8)} {next : ℕ}

theorem executeOpcode_table {bytes : List UInt8} {pc : ℕ} (high : 0x60 < opcode) (separator : opcode ≠ 0xab)
    (entry : (opcodeTable prims tx index).lookup opcode = some op) :
    executeOpcode prims tx index opcode bytes pc = do op; return pc := by
  have above {b : UInt8} (h : b ≤ 0x60) : ¬ opcode ≤ b := fun h' =>
    absurd (UInt8.le_trans h' h) (UInt8.not_le.mpr high)
  have other {b : UInt8} (h : b ≤ 0x60) : opcode ≠ b := fun h' => above h (h' ▸ UInt8.le_refl _)
  have small : ¬ (0x51 ≤ opcode ∧ opcode ≤ 0x60) := fun h => above (UInt8.le_refl _) h.2
  rw [executeOpcode, if_neg (other (by decide)), if_neg small, if_neg (above (by decide)),
    if_neg (other (by decide)), if_neg (other (by decide)), if_neg (other (by decide)),
    if_neg separator, entry]

variable (prims tx index) in
theorem step_table (bytes : List UInt8) (pc : ℕ) (open_ : s.conditionStack = []) (high : 0x60 < opcode)
    (separator : opcode ≠ 0xab) (count : s.opCount < maxOpsPerScript)
    (entry : (opcodeTable prims tx index).lookup opcode = some op) : step prims tx index bytes opcode pc s =
      (do op; return pc : Op ℕ) { s with opCount := s.opCount + 1 } := by
  have counted : countOp opcode s = .ok ((), { s with opCount := s.opCount + 1 }) := by
    rw [countOp, if_pos high, get_bind, if_neg (by omega)]
    rfl
  have exec : ScriptInterpreter.shouldExecute { s with opCount := s.opCount + 1 } = true := by
    simp [ScriptInterpreter.shouldExecute, open_]
  rw [step, bind_of_ok counted, get_bind, exec, if_neg (by simp), executeOpcode_table high separator entry]

theorem pop_eq (stack : s.stack = top :: rest) : pop s = .ok (top, { s with stack := rest }) := by
  rw [pop, get_bind, stack]
  rfl

theorem hashTop_next {hash : List UInt8 → List UInt8} (stack : s.stack = top :: rest) (short : (hash top).length = 20)
    (fits : s.stack.length ≤ maxStackSize) :
    (do hashTop hash; return next : Op ℕ) s = .ok (next, { s with stack := hash top :: rest }) := by
  have room : rest.length < maxStackSize := by
    rw [stack, List.length_cons] at fits
    omega
  have small : (hash top).length ≤ maxElementSize := by
    rw [short, maxElementSize]
    omega
  have run : hashTop hash s = .ok ((), { s with stack := hash top :: rest }) := by
    rw [hashTop, bind_of_ok (pop_eq stack), push_eq small, if_pos room]
    rfl
  rw [bind_of_ok run]
  rfl

theorem opEqual_next {a b : List UInt8} (stack : s.stack = b :: a :: rest) (fits : s.stack.length ≤ maxStackSize) :
    (do opEqual; return next : Op ℕ) s =
      .ok (next, { s with stack := (if a = b then [1] else []) :: rest }) := by
  have room : rest.length < maxStackSize := by
    rw [stack, List.length_cons, List.length_cons] at fits
    omega
  have small : (if a = b then [1] else [] : List UInt8).length ≤ maxElementSize := by
    split
    · decide
    · decide
  have run : opEqual s = .ok ((), { s with stack := (if a = b then [1] else []) :: rest }) := by
    rw [opEqual, bind_of_ok (pop_eq stack), bind_of_ok (pop_eq rfl), push_eq small, if_pos room]
    rfl
  rw [bind_of_ok run]
  rfl

/-- What the output script leaves on the stack: whether the hashes agree. -/
def compared (prims : Primitives) (hash top : List UInt8) (rest : List (List UInt8))
    (s : ScriptInterpreter) : ScriptInterpreter :=
  { s with stack := (if hash160 prims top = hash then [1] else []) :: rest, opCount := s.opCount + 2 }

/-- The output script needs room for two elements over those below the redeem script. -/
theorem execute_output {hash : List UInt8} {final : ScriptInterpreter} (size : hash.length = 20)
    (stack : s.stack = top :: rest) (open_ : s.conditionStack = []) (count : s.opCount + 2 ≤ maxOpsPerScript)
    (fits : s.stack.length ≤ maxStackSize) : execute prims tx index (createP2shOutput hash) s = .ok ((), final) ↔
      rest.length + 2 ≤ maxStackSize ∧ final = compared prims hash top rest s := by
  have extractable : Extractable hash := ⟨by omega, fun b hb => by simp [hb] at size⟩
  have nonempty : hash ≠ [] := by
    rintro rfl
    cases size
  have nonzero : hash ≠ [0] := by
    rintro rfl
    cases size
  have push : minimalPush hash = 20 :: hash := by
    rw [minimalPush_short extractable nonempty (by omega), size]
    rfl
  have shape : createP2shOutput hash = [0xa9] ++ minimalPush hash ++ [0x87] := by
    rw [push, createP2shOutput]
    rfl
  have length : (createP2shOutput hash).length = 23 := by
    simp [createP2shOutput, size]
  -- OP_HASH160 replaces the redeem script
  have calls : (opcodeTable prims tx index).lookup 0xa9 = some (opHash160 prims) := rfl
  have first := (step_table prims tx index (createP2shOutput hash) (0 + 1) open_ (by decide)
    (by decide) (by omega) calls).trans (hashTop_next stack (prims.ripemd160_length _) fits)
  have hashed := Visits.start.turn (by rfl) first
  -- the hash of the output is pushed on top of it
  obtain ⟨opcode, read, second⟩ := step_push prims tx index [0xa9] [0x87] (s := { s with
      stack := hash160 prims top :: rest, opCount := s.opCount + 1 }) extractable nonempty open_
  rw [← shape] at read second
  rw [pushed, if_neg nonzero] at second
  by_cases room : rest.length + 2 ≤ maxStackSize
  · rw [if_pos (by simp only [List.length_cons]; omega)] at second
    have loaded := hashed.turn read second
    -- and OP_EQUAL compares the two
    have last : (createP2shOutput hash)[[(0xa9 : UInt8)].length + (minimalPush hash).length]? =
        some 0x87 := by
      rw [shape, ← List.length_append, List.getElem?_concat_length]
    have compares : (opcodeTable prims tx index).lookup 0x87 = some opEqual := rfl
    have third := (step_table prims tx index (createP2shOutput hash)
      ([(0xa9 : UInt8)].length + (minimalPush hash).length + 1) (s := ScriptInterpreter.pushData { s with
        stack := hash160 prims top :: rest, opCount := s.opCount + 1 } hash) open_ (by decide) (by decide)
      (Nat.lt_of_succ_le count) compares).trans (opEqual_next rfl room)
    have ended := loaded.turn last third
    have closed : (createP2shOutput hash).length ≤
        [(0xa9 : UInt8)].length + (minimalPush hash).length + 1 := by
      rw [length, push]
      simp [size]
    have runs : execute prims tx index (createP2shOutput hash) s =
        .ok ((), compared prims hash top rest s) :=
      execute_ok_iff.mpr ⟨by rw [length]; decide, open_, _, closed, ended⟩
    rw [runs]
    constructor
    · intro h
      cases h
      exact ⟨room, rfl⟩
    · rintro ⟨_, rfl⟩
      rfl
  · rw [if_neg (by simp only [List.length_cons]; omega)] at second
    exact iff_of_false (execute_of_failing hashed read second) fun h => room h.1

end OutputScript

section Acceptance

variable {prims : Primitives} {eng : Engine} {tx : Transaction} {index : ℕ} {α ε : Type}
  {scriptSig spk top : List UInt8} {s s' : ScriptInterpreter} {value : UInt64} {witness : List (List UInt8)}

theorem mapError_eq_ok {ε' : Type} {x : Except ε α} {f : ε → ε'} {a : α} : x.mapError f = .ok a ↔ x = .ok a := by
  cases x with
  | error e => exact iff_of_false (fun h => by cases h) (fun h => by cases h)
  | ok b =>
    show (Except.ok b : Except ε' α) = .ok a ↔ _
    simp

theorem asInvalidScript_eq_ok {x : Except String α} {a : α} : asInvalidScript x = .ok a ↔ x = .ok a := by
  cases x with
  | error e => exact iff_of_false (fun h => by cases h) (fun h => by cases h)
  | ok b =>
    show Except.ok b = Except.ok a ↔ _
    simp

theorem check_eq_ok {β : Type} {p : Prop} [Decidable p] {e : ε} {f : α → Except ε β} {x : Except ε β} {b : β} :
    (if p then throw e >>= f else x) = .ok b ↔ ¬ p ∧ x = .ok b := by
  by_cases h : p
  · rw [if_pos h]
    exact iff_of_false (fun run => by cases run) (fun run => run.1 h)
  · rw [if_neg h]
    exact (and_iff_right h).symm

theorem verifyP2sh_eq_ok (kind : isP2sh spk = true) : verifyP2sh prims scriptSig spk = .ok true ↔
      ∃ redeem, extractRedeemScript scriptSig = .ok redeem ∧
        hashScript prims redeem = extractP2shHash spk ∧
        ∃ pushed, execute prims dummyTx 0 scriptSig .new = .ok ((), pushed) ∧
          ∃ top rest, pop pushed = .ok (top, rest) ∧
            ∃ final, execute prims dummyTx 0 top rest = .ok ((), final) ∧
              final.stackTopTrue = true := by
  unfold verifyP2sh
  simp only [kind, Bool.not_true, Bool.false_eq_true, if_false, except_bind_eq_ok, check_eq_ok,
    mapError_eq_ok, Prod.exists, Bool.not_eq_true', Bool.not_eq_false, ne_eq, not_not]
  constructor
  · rintro ⟨redeem, extracted, hash, ⟨⟩, pushed, run, top, rest, popped, ⟨⟩, final, last, true_, _⟩
    exact ⟨redeem, extracted, hash, pushed, run, top, rest, popped, final, last, true_⟩
  · rintro ⟨redeem, extracted, hash, pushed, run, top, rest, popped, final, last, true_⟩
    exact ⟨redeem, extracted, hash, (), pushed, run, top, rest, popped, (), final, last, true_, rfl⟩

theorem interpreter_execute_eq_ok {script : List UInt8} : (scriptInterpreter prims).execute s script tx index = .ok s' ↔
      execute prims tx index script s = .ok ((), s') := by
  show ((execute prims tx index script s).mapError _).map Prod.snd = .ok s' ↔ _
  cases execute prims tx index script s with
  | error e => exact iff_of_false (fun h => by cases h) (fun h => by cases h)
  | ok p =>
    obtain ⟨⟨⟩, final⟩ := p
    show (Except.ok final : Except String _) = .ok s' ↔ _
    simp

theorem interpreter_popTop_eq_ok :
    (scriptInterpreter prims).popTop s = .ok (top, s') ↔ pop s = .ok (top, s') := mapError_eq_ok

theorem redeem_branch_eq_ok {rest : ScriptInterpreter} : (do
      let final ← asInvalidScript ((scriptInterpreter prims).execute rest top tx index)
      require ((scriptInterpreter prims).stackLen final = 1)
        (.invalidScript "CLEANSTACK: P2SH redeem script must leave exactly one stack element")
      require ((scriptInterpreter prims).stackTopTrue final) (.invalidSignature index)) = .ok () ↔
      ∃ final, execute prims tx index top rest = .ok ((), final) ∧ final.stackLen = 1 ∧
        final.stackTopTrue = true := by
  simp only [bind_eq_ok_iff, require_eq_ok_iff, asInvalidScript_eq_ok]
  constructor
  · rintro ⟨final, run, ⟨⟩, clean, true_⟩
    exact ⟨final, interpreter_execute_eq_ok.mp run, clean, true_⟩
  · rintro ⟨final, run, clean, true_⟩
    exact ⟨final, interpreter_execute_eq_ok.mpr run, (), clean, true_⟩

theorem verifyP2sh_of_accepted
    (accepted : verifyScriptHash (scriptEngine prims eng) tx index scriptSig spk value witness = .ok ()) :
    verifyP2sh prims scriptSig spk = .ok true := by
  unfold verifyScriptHash at accepted
  simp only [bind_eq_ok_iff, require_eq_ok_iff, asInvalidScript_eq_ok] at accepted
  obtain ⟨_, _, _, hash, ⟨⟩, rfl, _⟩ := accepted
  exact hash

theorem verifyScriptHash_eq_ok {redeem : List UInt8} (plain : isP2wpkh redeem = false ∧ isP2wsh redeem = false)
    (last : ∀ pushed top rest, execute prims tx index scriptSig .new = .ok ((), pushed) →
      pop pushed = .ok (top, rest) → top = redeem) :
    verifyScriptHash (scriptEngine prims eng) tx index scriptSig spk value witness = .ok () ↔
      (∃ sighash, signatureHash prims.sha256 tx index = .ok sighash) ∧
      verifyP2sh prims scriptSig spk = .ok true ∧
      ∃ pushed, execute prims tx index scriptSig .new = .ok ((), pushed) ∧
        (∃ hashed, execute prims tx index spk pushed = .ok ((), hashed) ∧ hashed.stackTopTrue = true) ∧
        ∃ rest, pop pushed = .ok (redeem, rest) ∧
          ∃ final, execute prims tx index redeem rest = .ok ((), final) ∧ final.stackLen = 1 ∧
            final.stackTopTrue = true := by
  unfold verifyScriptHash
  simp only [bind_eq_ok_iff, require_eq_ok_iff, asInvalidScript_eq_ok]
  constructor
  · rintro ⟨sighash, digest, valid, hash, ⟨⟩, rfl, pushed, run, hashed, output, ⟨⟩, true_, again, run',
      ⟨top, rest⟩, popped, branch⟩
    have ran := interpreter_execute_eq_ok.mp run
    have same : again = pushed := by
      rw [run] at run'
      cases run'
      rfl
    subst same
    have taken := interpreter_popTop_eq_ok.mp popped
    obtain rfl := last again top rest ran taken
    rw [plain.1, plain.2] at branch
    exact ⟨⟨sighash, digest⟩, hash, again, ran, ⟨hashed, interpreter_execute_eq_ok.mp output, true_⟩,
      rest, taken, redeem_branch_eq_ok.mp branch⟩
  · rintro ⟨⟨sighash, digest⟩, hash, pushed, run, ⟨hashed, output, true_⟩, rest, popped, branch⟩
    refine ⟨sighash, digest, true, hash, (), rfl, pushed, interpreter_execute_eq_ok.mpr run, hashed,
      interpreter_execute_eq_ok.mpr output, (), true_, pushed, interpreter_execute_eq_ok.mpr run,
      (redeem, rest), interpreter_popTop_eq_ok.mpr popped, ?_⟩
    simp only [plain.1, plain.2]
    exact redeem_branch_eq_ok.mpr branch

end Acceptance

section Spending

variable {hash redeem : List UInt8} {pushes : List (List UInt8)}

/-- Data that both the parser and the interpreter push. -/
def Plain (data : List UInt8) : Prop := data.length ≤ 255 ∧ ∀ b, data = [b] → 16 < b ∧ b ≠ 0x81

/-- What it takes to spend the output: the hash functions have to collide in one place, no push
may need an opcode of its own or be longer than 255 bytes, and the redeem script has to succeed
without a transaction too. -/
structure Spendable (prims : Primitives) (pushes : List (List UInt8)) (redeem : List UInt8) : Prop where
  hashes : hashScript prims redeem = hash160 prims redeem
  plain : ∀ d ∈ pushes ++ [redeem], Plain d
  count : pushes.length ≤ 998
  size : (spendingScript pushes redeem).length ≤ maxScriptSize
  inputless : ∃ final, execute prims dummyTx 0 redeem (pushAll .new pushes) = .ok ((), final) ∧
    final.stackTopTrue = true

theorem plain_iff {data : List UInt8} : Plain data ↔ Extractable data ∧ data ≠ [0] := by
  constructor
  · intro h
    refine ⟨⟨h.1, fun b hb => ⟨fun low => ?_, (h.2 b hb).2⟩⟩, ?_⟩
    · exact absurd low.2 (UInt8.not_le.mpr (h.2 b hb).1)
    · rintro rfl
      exact absurd (h.2 0 rfl).1 (by decide)
  · rintro ⟨h, nonzero⟩
    refine ⟨h.1, fun b hb => ⟨?_, (h.2 b hb).2⟩⟩
    have coded := (h.2 b hb).1
    have zero : b ≠ 0 := by
      rintro rfl
      exact nonzero hb
    simp only [UInt8.le_iff_toNat_le, UInt8.lt_iff_toNat_lt, ne_eq, ← UInt8.toNat_inj,
      UInt8.reduceToNat] at coded zero ⊢
    omega

variable {prims : Primitives} {eng : Engine} {tx : Transaction} {index : ℕ}

theorem signatureHash_of_input {input : TxInput} (read : tx.inputs[index]? = some input) :
    ∃ sighash, signatureHash prims.sha256 tx index = .ok sighash := by
  have inside : ¬ tx.inputs.length ≤ index := not_le.mpr (List.getElem?_eq_some_iff.mp read).1
  unfold signatureHash signatureHashWithType
  rw [if_neg inside]
  split
  · exact ⟨_, rfl⟩
  · exact ⟨_, rfl⟩

theorem isP2sh_createP2shOutput (size : hash.length = 20) :
    isP2sh (createP2shOutput hash) = true ∧ isP2wpkh (createP2shOutput hash) = false ∧
      isP2wsh (createP2shOutput hash) = false ∧ (createP2shOutput hash).length ≠ 34 ∧
      extractP2shHash (createP2shOutput hash) = hash := by
  have length : (createP2shOutput hash).length = 23 := by
    simp [createP2shOutput, size]
  have last : (createP2shOutput hash).getD 22 0 = 0x87 := by
    rw [createP2shOutput, List.getD_eq_getElem?_getD, List.getElem?_append_right (by simp [size])]
    simp [size]
  refine ⟨?_, ?_, ?_, ?_, ?_⟩
  · simp only [isP2sh, length, last]
    rfl
  · simp [isP2wpkh, length]
  · simp [isP2wsh, length]
  · rw [length]
    decide
  · show (hash ++ [0x87]).take 20 = hash
    rw [← size, List.take_left]

theorem verifyOutput_p2sh {input : TxInput} {value : UInt64} {amounts : List UInt64} {scripts : List (List UInt8)}
    (size : hash.length = 20) (read : tx.inputs[index]? = some input) :
    verifyOutput (scriptEngine prims eng) tx index ⟨value, createP2shOutput hash⟩ amounts scripts =
      verifyScriptHash (scriptEngine prims eng) tx index input.scriptSig (createP2shOutput hash)
        (amounts.getD index 0) input.witness.stack := by
  obtain ⟨kind, notKeyHash, notScript, notTaproot, _⟩ := isP2sh_createP2shOutput size
  unfold verifyOutput
  simp only [read, kind, notKeyHash, notScript, notTaproot, false_and, if_false, if_true,
    Bool.false_eq_true]

theorem pop_pushAll : pop (pushAll .new (pushes ++ [redeem])) = .ok (redeem, pushAll .new pushes) := by
  rw [pushAll_stack, pushAll_stack]
  exact pop_eq (by simp)

theorem spendingScript_top (pushable : ∀ d ∈ pushes ++ [redeem], Extractable d ∧ d ≠ []) (pushed : ScriptInterpreter)
    (top : List UInt8) (rest : ScriptInterpreter)
    (run : execute prims tx index (spendingScript pushes redeem) .new = .ok ((), pushed))
    (popped : pop pushed = .ok (top, rest)) : top = redeem := by
  obtain ⟨_, rfl⟩ := (execute_items_iff pushable).mp run
  rw [pop_pushAll] at popped
  cases popped
  rfl

theorem execute_output_pushAll {final : ScriptInterpreter} (length : hash.length = 20)
    (count : (pushes ++ [redeem]).length ≤ maxStackSize) :
    execute prims tx index (createP2shOutput hash) (pushAll .new (pushes ++ [redeem])) =
        .ok ((), final) ↔
      pushes.length ≤ 998 ∧
        final = compared prims hash redeem pushes.reverse (pushAll .new (pushes ++ [redeem])) := by
  have state := pushAll_stack (s := .new) (pushes ++ [redeem])
  have stack : (pushAll .new (pushes ++ [redeem])).stack = redeem :: pushes.reverse := by
    rw [state]
    simp [ScriptInterpreter.new]
  have room : pushes.reverse.length + 2 ≤ maxStackSize ↔ pushes.length ≤ 998 := by
    rw [List.length_reverse, maxStackSize]
    omega
  have opened : (pushAll .new (pushes ++ [redeem])).opCount + 2 ≤ maxOpsPerScript := by
    rw [state]
    show 0 + 2 ≤ 201
    omega
  rw [execute_output length stack (by rw [state]; rfl) opened, room]
  rw [stack, List.length_cons, List.length_reverse]
  simpa using count

theorem p2sh_spendable_iff (input : TxInput) {redeem : List UInt8} {pushes : List (List UInt8)} (value : UInt64)
    (amounts : List UInt64) (scripts : List (List UInt8)) (read : tx.inputs[index]? = some input)
    (sig : input.scriptSig = spendingScript pushes redeem) (size : 1 ≤ redeem.length ∧ redeem.length ≤ 520)
    (plain : isP2wpkh redeem = false ∧ isP2wsh redeem = false) (nonempty : ∀ d ∈ pushes, d ≠ [])
    (runs : ∃ final, execute prims tx index redeem (pushAll .new pushes) = .ok ((), final) ∧
      final.stackLen = 1 ∧ final.stackTopTrue = true) : (verifyOutput (scriptEngine prims eng) tx index
        ⟨value, createP2shOutput (hashScript prims redeem)⟩ amounts scripts = .ok () ∧
      hashScript prims redeem = hash160 prims redeem) ↔ Spendable prims pushes redeem := by
  have some_ : redeem ≠ [] := List.ne_nil_of_length_pos size.1
  have items := items_ne_nil nonempty some_
  have length := hashScript_length prims redeem
  obtain ⟨kind, _, _, _, hashed⟩ := isP2sh_createP2shOutput length
  rw [verifyOutput_p2sh length read, sig]
  constructor
  · rintro ⟨accepted, collide⟩
    obtain ⟨taken, extracted, _, pushed, run, top, rest, popped, final, last, true_⟩ :=
      (verifyP2sh_eq_ok kind).mp (verifyP2sh_of_accepted accepted)
    obtain ⟨extractable, rfl⟩ := (extract_spendingScript nonempty some_).mp extracted
    have pushable : ∀ d ∈ pushes ++ [taken], Extractable d ∧ d ≠ [] := fun d hd =>
      ⟨extractable d hd, items d hd⟩
    obtain ⟨⟨nonzero, count, small⟩, rfl⟩ := (execute_items_iff pushable).mp run
    rw [pop_pushAll] at popped
    cases popped
    obtain ⟨_, _, _, run', ⟨out, output, _⟩, _⟩ :=
      (verifyScriptHash_eq_ok plain (spendingScript_top pushable)).mp accepted
    obtain ⟨_, rfl⟩ := (execute_items_iff pushable).mp run'
    have room := ((execute_output_pushAll length count).mp output).1
    exact ⟨collide, fun d hd => plain_iff.mpr ⟨extractable d hd, nonzero d hd⟩, room, small, final,
      last, true_⟩
  · intro h
    have pushable : ∀ d ∈ pushes ++ [redeem], Extractable d ∧ d ≠ [] := fun d hd =>
      ⟨(plain_iff.mp (h.plain d hd)).1, items d hd⟩
    have nonzero : ∀ d ∈ pushes ++ [redeem], d ≠ [0] := fun d hd => (plain_iff.mp (h.plain d hd)).2
    have below := h.count
    have count : (pushes ++ [redeem]).length ≤ maxStackSize := by
      rw [List.length_append, List.length_singleton, maxStackSize]
      omega
    have pushes_ {tx : Transaction} {index : ℕ} :
        execute prims tx index (spendingScript pushes redeem) .new =
          .ok ((), pushAll .new (pushes ++ [redeem])) :=
      (execute_items_iff pushable).mpr ⟨⟨nonzero, count, h.size⟩, rfl⟩
    obtain ⟨final, last, true_⟩ := h.inputless
    have hash : verifyP2sh prims (spendingScript pushes redeem)
        (createP2shOutput (hashScript prims redeem)) = .ok true :=
      (verifyP2sh_eq_ok kind).mpr ⟨redeem, (extract_spendingScript nonempty some_).mpr
        ⟨fun d hd => (pushable d hd).1, rfl⟩, hashed.symm, _, pushes_, redeem, _, pop_pushAll, final, last,
        true_⟩
    refine ⟨(verifyScriptHash_eq_ok plain (spendingScript_top pushable)).mpr
      ⟨signatureHash_of_input read, hash, _, pushes_, ⟨_, (execute_output_pushAll length count).mpr
        ⟨below, rfl⟩, ?_⟩, _, pop_pushAll, runs⟩, h.hashes⟩
    simp [compared, ScriptInterpreter.stackTopTrue, h.hashes]

/-- An input that spends with the redeem script `OP_1` and nothing else. -/
def opOneInput : TxInput := ⟨⟨Bytes32.zero, 0⟩, [0x01, 0x51], 0xffffffff, ⟨[]⟩⟩

def opOneTx : Transaction := ⟨2, [opOneInput], [⟨900, [0x51]⟩], 0⟩

theorem opOne_runs : execute keyless opOneTx 0 [0x51] (pushAll .new []) =
    .ok ((), { ScriptInterpreter.new with stack := [[1]] }) := by
  decide +kernel

/-- An input that pushes two elements and a redeem script that drops them and leaves one. -/
def dropsInput : TxInput :=
  ⟨⟨Bytes32.zero, 0⟩, [0x02, 0xaa, 0xbb, 0x57, 0x03, 0x75, 0x75, 0x51], 0xffffffff, ⟨[]⟩⟩

def dropsTx : Transaction := ⟨2, [dropsInput], [⟨900, [0x51]⟩], 0⟩

theorem drops_spendable_iff : (verifyOutput (scriptEngine keyless keylessEngine) dropsTx 0
        ⟨1000, createP2shOutput (hashScript keyless [0x75, 0x75, 0x51])⟩ [1000] [] = .ok () ∧
      hashScript keyless [0x75, 0x75, 0x51] = hash160 keyless [0x75, 0x75, 0x51]) ↔
        Spendable keyless [[0xaa, 0xbb], [0x07]] [0x75, 0x75, 0x51] := by
  have hrun : execute keyless dropsTx 0 [0x75, 0x75, 0x51] (pushAll .new [[0xaa, 0xbb], [0x07]]) =
      .ok ((), { ScriptInterpreter.new with stack := [[1]], opCount := 2 }) := by
    decide +kernel
  exact p2sh_spendable_iff dropsInput 1000 [1000] [] rfl rfl ⟨by decide, by decide⟩
    ⟨by decide, by decide⟩ (by decide) ⟨_, hrun, rfl, by decide⟩

/-- The redeem script `OP_1` succeeds on its own, but an input that pushes it does not spend the
output that pays to its hash: `hash_script` is not what `OP_HASH160` computes. -/
theorem opOne_not_spendable : (execute keyless opOneTx 0 [0x51] (pushAll .new []) =
        .ok ((), { ScriptInterpreter.new with stack := [[1]] })) ∧
      verifyOutput (scriptEngine keyless keylessEngine) opOneTx 0
          ⟨1000, createP2shOutput (hashScript keyless [0x51])⟩ [1000] [] =
        .error (.invalidSignature 0) ∧
      hashScript keyless [0x51] ≠ hash160 keyless [0x51] := by
  refine ⟨opOne_runs, ?_, ?_⟩
  · decide +kernel
  · decide +kernel

end Spending

end KuberCoin.ScriptHashSpends
