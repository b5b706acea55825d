import KuberCoin.ScriptHashSpends

/-!
The input scripts that `create_p2sh_input` writes, read back by the parser of `verify_p2sh` and run by
the interpreter. Both readers take a length from 76 on only behind `OP_PUSHDATA1`, and the parser knows
no longer prefix; the writer puts the length of a signature in front of it as a bare byte.
-/
namespace KuberCoin.ScriptHashInputs

open Bytes Transactions FailingPrograms ScriptInterpreters ScriptRuns PayToScriptHash ScriptHashSpends

section Writing

/-- A signature in `create_p2sh_input`. -/
def signaturePush (sig : List UInt8) : List UInt8 :=
  if sig ≠ [] ∧ sig.length < 256 then UInt8.ofNat sig.length :: sig else []

/-- The redeem script in `create_p2sh_input`. -/
def redeemPush (script : List UInt8) : List UInt8 :=
  if script.length < 76 then UInt8.ofNat script.length :: script
  else if script.length < 256 then [0x4c, UInt8.ofNat script.length] ++ script
  else if script.length < 65536 then [0x4d] ++ leBytes 2 script.length ++ script
  else []

def createP2shInput (signatures : List (List UInt8)) (redeemScript : List UInt8) : List UInt8 :=
  signatures.flatMap signaturePush ++ redeemPush redeemScript

/-- The bytes a reader consumes for a push that leaves `data`. -/
def pushLength (data : List UInt8) : ℕ := data.length + if data.length ≤ 75 then 1 else 2

theorem succ_length_le_pushLength (data : List UInt8) : data.length + 1 ≤ pushLength data := by
  unfold pushLength
  split
  · omega
  · omega

variable {signatures : List (List UInt8)} {redeem : List UInt8}

theorem redeemPush_length (short : redeem.length ≤ 255) : (redeemPush redeem).length = pushLength redeem := by
  by_cases direct : redeem.length ≤ 75
  · rw [redeemPush, if_pos (by omega), pushLength, if_pos direct, List.length_cons]
  · rw [redeemPush, if_neg (by omega), if_pos (by omega), pushLength, if_neg direct]
    simp only [List.length_append, List.length_cons, List.length_nil]
    omega

theorem signatures_length (given : ∀ sig ∈ signatures, sig ≠ [] ∧ sig.length < 256) :
    (signatures.flatMap signaturePush).length = (signatures.map fun sig => sig.length + 1).sum := by
  induction signatures with
  | nil => simp
  | cons sig rest ih =>
    have here := given sig (List.mem_cons_self ..)
    have tail := ih fun e he => given e (List.mem_cons_of_mem _ he)
    rw [List.flatMap_cons, List.length_append, tail, signaturePush, if_pos here]
    simp

/-- Data that both readers take as it is is written with its shortest push. -/
theorem createP2shInput_eq (given : ∀ sig ∈ signatures, sig ≠ [] ∧ sig.length ≤ 75) (nonempty : redeem ≠ [])
    (plain : ∀ d ∈ signatures ++ [redeem], Plain d) :
    createP2shInput signatures redeem = spendingScript signatures redeem := by
  have extractable {d : List UInt8} (hd : d ∈ signatures ++ [redeem]) : Extractable d :=
    (plain_iff.mp (plain d hd)).1
  have each : signatures.flatMap signaturePush = signatures.flatMap minimalPush := by
    refine List.flatMap_congr fun sig hsig => ?_
    obtain ⟨some_, short⟩ := given sig hsig
    have readable := extractable (List.mem_append_left _ hsig)
    rw [signaturePush, if_pos ⟨some_, by omega⟩, minimalPush_short readable some_ short]
  have last : redeemPush redeem = minimalPush redeem := by
    have readable := extractable (List.mem_append_right _ (List.mem_singleton.mpr rfl))
    by_cases direct : redeem.length ≤ 75
    · rw [redeemPush, if_pos (by omega), minimalPush_short readable nonempty direct]
    · rw [redeemPush, if_neg (by omega), if_pos (by have := readable.1; omega),
        minimalPush_medium readable (by omega)]
      rfl
  rw [createP2shInput, each, last, spendingScript, List.flatMap_append]
  simp

end Writing

section Reading

variable {prims : Primitives} {tx : Transaction} {index : ℕ} {s s' start final : ScriptInterpreter} {fuel next : ℕ}
  {after before data last redeem rest : List UInt8}

/-- The parser returns nothing longer than a length byte can say. -/
theorem extractLoop_length (short : last.length ≤ 255) (parsed : extractLoop fuel rest last = .ok redeem) :
    redeem.length ≤ 255 := by
  have stops {last : List UInt8} (short : last.length ≤ 255)
      (h : (if last = [] then .error (p2shError "no redeem script found") else .ok last :
        Except String (List UInt8)) = .ok redeem) : redeem.length ≤ 255 := by
    by_cases empty : last = []
    · rw [if_pos empty] at h
      cases h
    · rw [if_neg empty] at h
      cases h
      exact short
  have fits (len : UInt8) (data : List UInt8) : (data.take len.toNat).length ≤ 255 := by
    have byte := len.toNat_lt
    rw [List.length_take]
    omega
  induction fuel generalizing rest last with
  | zero => exact stops short parsed
  | succ fuel ih =>
    match rest with
    | [] => exact stops short parsed
    | op :: rest =>
      rw [extractLoop_cons] at parsed
      split_ifs at parsed with zero direct inside prefixed
      · exact ih short parsed
      · exact ih (fits op rest) parsed
      · match rest with
        | [] => cases parsed
        | len :: data =>
          dsimp only at parsed
          split_ifs at parsed
          exact ih (fits len data) parsed

theorem turn_of_execute {bytes : List UInt8} {pc : ℕ} {opcode : UInt8}
    (visited : Visits prims tx index bytes start pc s) (read : bytes[pc]? = some opcode)
    (run : execute prims tx index bytes start = .ok ((), final)) :
    ∃ next s', step prims tx index bytes opcode (pc + 1) s = .ok (next, s') ∧
      Visits prims tx index bytes start next s' := by
  cases turn : step prims tx index bytes opcode (pc + 1) s with
  | error e => exact absurd run (execute_of_failing visited read turn)
  | ok result =>
    obtain ⟨next, s'⟩ := result
    exact ⟨next, s', rfl, visited.turn read turn⟩

/-- What a push that succeeds has done. -/
structure Pushed (data : List UInt8) (s s' : ScriptInterpreter) : Prop where
  state : s' = s.pushData data
  room : s.stack.length < maxStackSize
  plain : Plain data

theorem pushed_of_push {next' : ℕ} (plain : Plain data) (run : (do push data; return next : Op ℕ) s = .ok (next', s')) :
    next' = next ∧ Pushed data s s' := by
  have small : data.length ≤ maxElementSize := by
    have := plain.1
    unfold maxElementSize
    omega
  have pushes := push_eq (s := s) small
  by_cases room : s.stack.length < maxStackSize
  · rw [if_pos room] at pushes
    rw [bind_of_ok pushes] at run
    cases run
    exact ⟨rfl, rfl, room, plain⟩
  · rw [if_neg room] at pushes
    rw [bind_of_error pushes] at run
    cases run

theorem pushed_of_pushShort (short : data.length ≤ 75)
    (run : pushShort (before ++ data ++ after) before.length data.length s = .ok (next, s')) :
    next = before.length + data.length ∧ Pushed data s s' := by
  have inside : ¬ before.length + data.length > (before ++ data ++ after).length := by simp
  rw [pushShort, if_neg inside] at run
  simp only [slice_append] at run
  by_cases coded : data.length = 1 ∧ (data.getD 0 0 ≤ 16 ∨ data.getD 0 0 = 0x81)
  · rw [if_pos coded] at run
    cases run
  · rw [if_neg coded] at run
    refine pushed_of_push ⟨by omega, fun b hb => ?_⟩ run
    subst hb
    simp only [List.length_singleton, List.getD_cons_zero, true_and, not_or] at coded
    exact ⟨UInt8.not_le.mp coded.1, coded.2⟩

theorem pushed_of_pushPrefixed (size : data.length ≤ 255)
    (run : pushPrefixed (before ++ UInt8.ofNat data.length :: data ++ after) before.length 1 75 s =
      .ok (next, s')) : 75 < data.length ∧ next = before.length + (1 + data.length) ∧ Pushed data s s' := by
  have first : ¬ before.length + 1 > (before ++ UInt8.ofNat data.length :: data ++ after).length := by
    simp
  have width : leValue (((before ++ UInt8.ofNat data.length :: data ++ after).drop
      before.length).take 1) = data.length := by
    rw [List.append_assoc, List.drop_left]
    simp [leValue, value, toNat_ofNat_length size]
  by_cases long : 75 < data.length
  · have extractable : Extractable data := ⟨size, fun b hb => by simp [hb] at long⟩
    have plain : Plain data := ⟨size, fun b hb => by simp [hb] at long⟩
    have nonzero : data ≠ [0] := fun h => by simp [h] at long
    rw [pushPrefixed_eq extractable long, pushed, if_neg nonzero] at run
    split_ifs at run with room
    cases run
    exact ⟨long, rfl, rfl, room, plain⟩
  · simp only [pushPrefixed, width, if_neg first, if_pos (not_lt.mp long)] at run
    cases run

theorem turn_direct {before data after : List UInt8} {next : ℕ} (short : data.length ≤ 75)
    (open_ : s.conditionStack = []) (turn : step prims tx index (before ++ UInt8.ofNat data.length :: data ++ after)
      (UInt8.ofNat data.length) (before.length + 1) s = .ok (next, s')) :
    next = (before ++ UInt8.ofNat data.length :: data).length ∧ Pushed data s s' := by
  have size : (UInt8.ofNat data.length).toNat = data.length := toNat_ofNat_length (by omega)
  have shape : before ++ UInt8.ofNat data.length :: data ++ after =
      (before ++ [UInt8.ofNat data.length]) ++ data ++ after := by simp
  have at_ : before.length + 1 = (before ++ [UInt8.ofNat data.length]).length := by simp
  have low : UInt8.ofNat data.length ≤ 0x4b := by
    rw [UInt8.le_iff_toNat_le, size]
    exact short
  have small : ¬ (0x51 ≤ UInt8.ofNat data.length ∧ UInt8.ofNat data.length ≤ 0x60) := by
    simp only [UInt8.le_iff_toNat_le, size, UInt8.reduceToNat]
    omega
  rw [step_plain (UInt8.le_trans low (by decide)) open_, executeOpcode] at turn
  by_cases zero : UInt8.ofNat data.length = 0x00
  · have empty : data = [] := by
      rw [← List.length_eq_zero_iff, ← size, zero]
      decide
    rw [if_pos zero] at turn
    obtain ⟨rfl, done⟩ := pushed_of_push ⟨by simp, fun b hb => by cases hb⟩ turn
    subst empty
    exact ⟨by simp, done⟩
  · rw [if_neg zero, if_neg small, if_pos low, size, shape, at_] at turn
    obtain ⟨rfl, done⟩ := pushed_of_pushShort short turn
    refine ⟨?_, done⟩
    simp only [List.length_append, List.length_cons, List.length_nil]
    omega

theorem turn_prefixed {before data after : List UInt8} {next : ℕ} (size : data.length ≤ 255)
    (open_ : s.conditionStack = [])
    (turn : step prims tx index (before ++ 0x4c :: UInt8.ofNat data.length :: data ++ after) 0x4c
      (before.length + 1) s = .ok (next, s')) :
    75 < data.length ∧ next = (before ++ 0x4c :: UInt8.ofNat data.length :: data).length ∧
      Pushed data s s' := by
  have shape : before ++ 0x4c :: UInt8.ofNat data.length :: data ++ after =
      (before ++ [0x4c]) ++ UInt8.ofNat data.length :: data ++ after := by simp
  have at_ : before.length + 1 = (before ++ [(0x4c : UInt8)]).length := by simp
  rw [step_plain (by decide) open_, executeOpcode, if_neg (by decide), if_neg (by decide),
    if_neg (by decide), if_pos rfl, shape, at_] at turn
  obtain ⟨long, rfl, done⟩ := pushed_of_pushPrefixed size turn
  refine ⟨long, ?_, done⟩
  simp only [List.length_append, List.length_cons, List.length_nil]
  omega

/-- The pushes of `items` take `length` bytes, and lead from `s` to `final`. -/
structure Pushes (items : List (List UInt8)) (length : ℕ) (s final : ScriptInterpreter) : Prop where
  stack : final.stack = items.reverse ++ s.stack
  bytes : length = (items.map pushLength).sum
  plain : ∀ d ∈ items, Plain d
  room : s.stack.length + items.length ≤ maxStackSize

theorem Pushes.cons {items : List (List UInt8)} {data : List UInt8} {length : ℕ} (first : Pushed data s s')
    (rest : Pushes items length s' final) : Pushes (data :: items) (pushLength data + length) s final := by
  have state := first.state
  subst state
  refine ⟨?_, ?_, ?_, ?_⟩
  · rw [rest.stack]
    simp [ScriptInterpreter.pushData]
  · rw [List.map_cons, List.sum_cons, rest.bytes]
  · exact List.forall_mem_cons.mpr ⟨first.plain, rest.plain⟩
  · have count := rest.room
    simp only [ScriptInterpreter.pushData, List.length_cons] at count ⊢
    omega

theorem open_of_pushed (first : Pushed data s s') (open_ : s.conditionStack = []) : s'.conditionStack = [] := by
  rw [first.state]
  exact open_

theorem pushes_nil (small : s.stack.length ≤ maxStackSize)
    (visited : Visits prims tx index (before ++ []) start before.length s)
    (run : execute prims tx index (before ++ []) start = .ok ((), final)) : Pushes [] 0 s final := by
  have loop := (execute_eq_ok.mp run).2.2
  rw [visited.executeFrom_eq, executeFrom_end (by simp)] at loop
  cases loop
  exact ⟨rfl, rfl, by simp, small⟩

/-- Where the parser takes a script, all of it is pushes for the interpreter as well. The induction
follows the parser. -/
theorem pushes_of_extractLoop (enough : rest.length ≤ fuel) (parsed : extractLoop fuel rest last = .ok redeem)
    (open_ : s.conditionStack = []) (small : s.stack.length ≤ maxStackSize)
    (visited : Visits prims tx index (before ++ rest) start before.length s)
    (run : execute prims tx index (before ++ rest) start = .ok ((), final)) :
    ∃ items, Pushes items rest.length s final := by
  induction fuel generalizing before rest last s with
  | zero =>
    obtain rfl := List.eq_nil_of_length_eq_zero (Nat.le_zero.mp enough)
    exact ⟨[], pushes_nil small visited run⟩
  | succ fuel ih =>
    match rest with
    | [] => exact ⟨[], pushes_nil small visited run⟩
    | op :: rest =>
      have read : (before ++ op :: rest)[before.length]? = some op := by simp
      obtain ⟨next, s', turn, visits⟩ := turn_of_execute visited read run
      -- the turn has pushed `data`, and the parser stands behind it as well
      have goOn (data header : List UInt8) {after last : List UInt8} (shape : op :: rest = header ++ after)
          (size : header.length = pushLength data)
          (pushed : next = (before ++ header).length ∧ Pushed data s s')
          (parsed : extractLoop fuel after last = .ok redeem) :
          ∃ items, Pushes items (op :: rest).length s final := by
        obtain ⟨at_, first⟩ := pushed
        rw [shape, ← List.append_assoc] at visits run
        rw [at_] at visits
        have positive := succ_length_le_pushLength data
        have total := congrArg List.length shape
        rw [List.length_append, size] at total
        have left : after.length ≤ fuel := by
          rw [total] at enough
          omega
        have fits : s'.stack.length ≤ maxStackSize := by
          rw [first.state]
          exact first.room
        obtain ⟨items, rest⟩ := ih left parsed (open_of_pushed first open_) fits visits run
        rw [total]
        exact ⟨data :: items, rest.cons first⟩
      have byte := op.toNat_lt
      rw [extractLoop_cons] at parsed
      split_ifs at parsed with zero direct outside prefixed
      · subst zero
        have turn' : step prims tx index (before ++ UInt8.ofNat ([] : List UInt8).length :: [] ++ rest)
            (UInt8.ofNat ([] : List UInt8).length) (before.length + 1) s = .ok (next, s') := by
          simpa using turn
        exact goOn [] [0] rfl rfl (turn_direct (by simp) open_ turn') parsed
      · have low : op.toNat ≤ 75 := by
          rw [UInt8.lt_iff_toNat_lt] at direct
          exact Nat.le_of_lt_succ direct
        have size : (rest.take op.toNat).length = op.toNat := by
          rw [List.length_take]
          omega
        have same : UInt8.ofNat (rest.take op.toNat).length = op := by rw [size, UInt8.ofNat_toNat]
        have shape : op :: rest = (op :: rest.take op.toNat) ++ rest.drop op.toNat := by simp
        refine goOn (rest.take op.toNat) _ shape ?_ ?_ parsed
        · rw [List.length_cons, pushLength, size, if_pos low]
        · rw [shape, ← List.append_assoc] at turn
          have here := @turn_direct prims tx index s s' before (rest.take op.toNat) (rest.drop op.toNat)
            next (by omega) open_ (by rw [same]; exact turn)
          rwa [same] at here
      · subst prefixed
        match rest with
        | [] => cases parsed
        | len :: data =>
          have small' := len.toNat_lt
          dsimp only at parsed
          split_ifs at parsed with outside
          have size : (data.take len.toNat).length = len.toNat := by
            rw [List.length_take]
            omega
          have same : UInt8.ofNat (data.take len.toNat).length = len := by
            rw [size, UInt8.ofNat_toNat]
          have shape : 0x4c :: len :: data =
              (0x4c :: len :: data.take len.toNat) ++ data.drop len.toNat := by simp
          rw [shape, ← List.append_assoc] at turn
          have here := @turn_prefixed prims tx index s s' before (data.take len.toNat) (data.drop len.toNat)
            next (by omega) open_ (by rw [same]; exact turn)
          rw [same] at here
          refine goOn (data.take len.toNat) _ shape ?_ here.2 parsed
          rw [List.length_cons, List.length_cons, pushLength, if_neg (not_le.mpr here.1)]

end Reading

section RoundTrip

variable (prims : Primitives) (tx : Transaction) (index : ℕ) (signatures : List (List UInt8))
  (redeem : List UInt8)

/-- The redeem script is read back, and the interpreter is left with the data in the order written if
each element is within its limit. -/
structure RoundTrips : Prop where
  extracted : extractRedeemScript (createP2shInput signatures redeem) = .ok redeem
  executed : (∀ d ∈ signatures ++ [redeem], d.length ≤ maxElementSize) →
    ∃ final, execute prims tx index (createP2shInput signatures redeem) .new = .ok ((), final) ∧
      final.stack = redeem :: signatures.reverse

/-- The signatures need no length prefix, the redeem script at most one byte of it, nothing has an
opcode of its own, and all of it is within the limits of the interpreter. -/
structure Fits : Prop where
  direct : ∀ sig ∈ signatures, sig.length ≤ 75
  plain : ∀ d ∈ signatures ++ [redeem], Plain d
  room : signatures.length < maxStackSize
  small : (signatures.map fun sig => sig.length + 1).sum + pushLength redeem ≤ maxScriptSize

variable {prims tx index signatures redeem}

theorem direct_of_sum (same : (signatures.map fun sig => sig.length + 1).sum = (signatures.map pushLength).sum) :
    ∀ sig ∈ signatures, sig.length ≤ 75 := by
  have below (rest : List (List UInt8)) :
      (rest.map fun sig => sig.length + 1).sum ≤ (rest.map pushLength).sum :=
    List.sum_le_sum fun sig _ => succ_length_le_pushLength sig
  induction signatures with
  | nil => simp
  | cons sig rest ih =>
    have here := succ_length_le_pushLength sig
    have tail := below rest
    simp only [List.map_cons, List.sum_cons] at same
    refine List.forall_mem_cons.mpr ⟨?_, ih (by omega)⟩
    by_contra long
    have prefixed : pushLength sig = sig.length + 2 := by rw [pushLength, if_neg long]
    omega

theorem createP2shInput_length (given : ∀ sig ∈ signatures, sig ≠ [] ∧ sig.length < 256) (short : redeem.length ≤ 255) :
    (createP2shInput signatures redeem).length =
      (signatures.map fun sig => sig.length + 1).sum + pushLength redeem := by
  rw [createP2shInput, List.length_append, signatures_length given, redeemPush_length short]

theorem fits_of_roundTrips (given : ∀ sig ∈ signatures, sig ≠ [] ∧ sig.length < 256)
    (h : RoundTrips prims tx index signatures redeem) : Fits signatures redeem := by
  have parsed := h.extracted
  rw [extractRedeemScript] at parsed
  split_ifs at parsed
  have short := extractLoop_length (by simp) parsed
  have limits : ∀ d ∈ signatures ++ [redeem], d.length ≤ maxElementSize := by
    intro d hd
    unfold maxElementSize
    rcases List.mem_append.mp hd with hsig | hredeem
    · have := (given d hsig).2
      omega
    · obtain rfl := List.mem_singleton.mp hredeem
      omega
  obtain ⟨final, run, stack⟩ := h.executed limits
  have begins : Visits prims tx index ([] ++ createP2shInput signatures redeem) .new
      ([] : List UInt8).length .new := .start
  obtain ⟨items, pushes⟩ := pushes_of_extractLoop (le_refl _) parsed rfl (Nat.zero_le _) begins run
  have order : items = signatures ++ [redeem] := by
    have reversed := pushes.stack.symm.trans stack
    have left : items.reverse = redeem :: signatures.reverse := by
      simpa [ScriptInterpreter.new] using reversed
    rw [← List.reverse_inj, left]
    simp
  have bytes := pushes.bytes
  have room := pushes.room
  have size := (execute_eq_ok.mp run).1
  rw [createP2shInput_length given short] at bytes size
  subst order
  simp only [List.map_append, List.sum_append, List.map_cons, List.map_nil, List.sum_cons, List.sum_nil,
    Nat.add_zero] at bytes
  simp only [ScriptInterpreter.new, List.length_append, List.length_cons, List.length_nil] at room
  exact ⟨direct_of_sum (by omega), pushes.plain, by omega, size⟩

theorem roundTrips_of_fits (given : ∀ sig ∈ signatures, sig ≠ []) (nonempty : redeem ≠ [])
    (h : Fits signatures redeem) : RoundTrips prims tx index signatures redeem := by
  have items := items_ne_nil given nonempty
  have extractable : ∀ d ∈ signatures ++ [redeem], Extractable d := fun d hd =>
    (plain_iff.mp (h.plain d hd)).1
  have written := createP2shInput_eq (fun sig hsig => ⟨given sig hsig, h.direct sig hsig⟩) nonempty
    h.plain
  have bound : ∀ sig ∈ signatures, sig ≠ [] ∧ sig.length < 256 := fun sig hsig =>
    ⟨given sig hsig, by have := h.direct sig hsig; omega⟩
  have last : Plain redeem := h.plain redeem (by simp)
  have size : ((signatures ++ [redeem]).flatMap minimalPush).length ≤ maxScriptSize := by
    show (spendingScript signatures redeem).length ≤ maxScriptSize
    rw [← written, createP2shInput_length bound last.1]
    exact h.small
  have room : (signatures ++ [redeem]).length ≤ maxStackSize := by
    have := h.room
    simp only [List.length_append, List.length_singleton]
    omega
  have run : execute prims tx index (spendingScript signatures redeem) .new =
      .ok ((), pushAll .new (signatures ++ [redeem])) :=
    (execute_items_iff fun d hd => ⟨extractable d hd, items d hd⟩).mpr
      ⟨⟨fun d hd => (plain_iff.mp (h.plain d hd)).2, room, size⟩, rfl⟩
  refine ⟨?_, fun _ => ?_⟩
  · rw [written]
    exact (extract_spendingScript given nonempty).mpr ⟨extractable, rfl⟩
  · rw [written]
    refine ⟨_, run, ?_⟩
    rw [pushAll_stack]
    simp [ScriptInterpreter.new]

/-- The input script survives both readers exactly when it fits. -/
theorem input_round_trip_iff (given : ∀ sig ∈ signatures, sig ≠ [] ∧ sig.length < 256) (nonempty : redeem ≠ []) :
    RoundTrips prims tx index signatures redeem ↔ Fits signatures redeem :=
  ⟨fits_of_roundTrips given, roundTrips_of_fits (fun sig hsig => (given sig hsig).1) nonempty⟩

theorem one_signature_round_trips : RoundTrips keyless emptyTx 0 [[0x30, 0x01]] [0x51] ↔ Fits [[0x30, 0x01]] [0x51] :=
  input_round_trip_iff (by decide) (by decide)

/-- A redeem script of 256 bytes is written behind `OP_PUSHDATA2`, which the parser does not know; a
signature of 76 bytes is written behind a byte that means `OP_PUSHDATA1`. -/
theorem long_elements_lost : ¬ RoundTrips keyless emptyTx 0 [] (List.replicate 256 0x61) ∧
      ¬ RoundTrips keyless emptyTx 0 [List.replicate 76 0x30] [0x51] := by
  refine ⟨fun h => ?_, fun h => ?_⟩
  · have none_ : ∀ sig ∈ ([] : List (List UInt8)), sig ≠ [] ∧ sig.length < 256 := fun _ hsig => by
      cases hsig
    have long := ((fits_of_roundTrips none_ h).plain _ (List.mem_singleton.mpr rfl)).1
    rw [List.length_replicate] at long
    omega
  · have one : ∀ sig ∈ [List.replicate 76 (0x30 : UInt8)], sig ≠ [] ∧ sig.length < 256 := fun sig hsig => by
      rw [List.mem_singleton.mp hsig]
      decide
    have long := (fits_of_roundTrips one h).direct _ (List.mem_singleton.mpr rfl)
    rw [List.length_replicate] at long
    omega

end RoundTrip

end KuberCoin.ScriptHashInputs
