import KuberCoin.MiniscriptPolicies

/-!
How an expression is satisfied. The fragments are put one behind the other without the wrappers
that keep the results of operands apart: an operand that reads the stack reads the result of the
operand before it, a lock that is not met ends the script also where another alternative holds, and
a threshold is compared with the sum of whatever was pushed. Where none of this happens, the
elements that satisfy an expression are put together from those of its operands.
-/
namespace KuberCoin.MiniscriptSatisfactions

open Bytes Transactions Sighashes Validator InputScripts FailingPrograms ScriptInterpreters ScriptRuns ScriptLimits
  PayToScriptHash ScriptHashSpends ScriptNumbers Miniscripts TaprootDigests
  MiniscriptPolicies

section Soundness

mutual

/-- The opcodes that are counted on the longest way through the script; in an `or_d` the second
operand is executed, or each of its bytes above `OP_16` counts. -/
def ops : Miniscript → ℕ
  | .pk _ => 1
  | .pkH _ => 4
  | .older _ => 1
  | .after _ => 1
  | .sha256 _ => 4
  | .hash256 _ => 4
  | .hash160 _ => 4
  | .ripemd160 _ => 4
  | .andV x y => ops x + ops y
  | .andB x y => ops x + ops y + 1
  | .orB x z => ops x + ops z + 1
  | .orD x z => ops x + max (ops z) ((compile z).countP (· > 0x60)) + 3
  | .thresh _ [] => 0
  | .thresh _ (first :: rest) => ops first + opsSummands rest + 1
  | .multi _ _ => 1
  | .just _ => 1

def opsSummands : List Miniscript → ℕ
  | [] => 0
  | sub :: rest => ops sub + 1 + opsSummands rest

end

/-- Expressions that read nothing from the stack: they push a positive number where their policy holds
at these times, and elsewhere the script fails. -/
inductive Lock (times : Times) : Miniscript → Prop
  | older (n : UInt32) (pos : n ≠ 0) : Lock times (.older n)
  | after (n : UInt32) (pos : n ≠ 0) : Lock times (.after n)
  | andB (x y : Miniscript) (hx : Lock times x) (hy : Lock times y) : Lock times (.andB x y)
  | orB (x z : Miniscript) (hx : Lock times x) (hz : Lock times z) (same : Sure times x ↔ Sure times z) :
      Lock times (.orB x z)
  | orD (x z : Miniscript) (hx : Lock times x)
      (covered : ∀ (prims : Primitives) (party : Party prims) (digest : Except String Bytes32),
        Holds party times digest z → Sure times x)
      (skippable : Skippable (.orD x z)) : Lock times (.orD x z)
  | thresh (k : UInt64) (first : Miniscript) (rest : List Miniscript) (h : Lock times first) (one : unit first = true)
      (locks : ∀ l ∈ rest, Lock times l) (ones : ∀ l ∈ rest, unit l = true)
      (all : k.toNat = rest.length + 1 ∨
        (∃ l ∈ first :: rest, ¬ Sure times l) ∧ ¬ Sure times (.thresh k (first :: rest))) :
      Lock times (.thresh k (first :: rest))

/-- Expressions that everybody can make leave the empty element, at times that meet their locks. -/
inductive Deniable (times : Times) : Miniscript → Prop
  | pk (key : List UInt8) : Deniable times (.pk key)
  | sha256 (hash : Bytes32) : Deniable times (.sha256 hash)
  | hash256 (hash : Bytes32) : Deniable times (.hash256 hash)
  | hash160 (hash : Bytes20) : Deniable times (.hash160 hash)
  | ripemd160 (hash : Bytes20) : Deniable times (.ripemd160 hash)
  | multi (k : UInt64) (keys : List (List UInt8)) (pos : 0 < k.toNat) (enough : k.toNat ≤ keys.length)
      (few : keys.length ≤ 20) : Deniable times (.multi k keys)
  | andB (x y : Miniscript) (hx : Deniable times x) (lock : Lock times y) (met : Sure times y) :
      Deniable times (.andB x y)
  | orD (x z : Miniscript) (hx : Deniable times x) (hz : Deniable times z) : Deniable times (.orD x z)
  | thresh (k : UInt64) (first : Miniscript) (rest : List Miniscript) (h : Deniable times first)
      (locks : ∀ l ∈ rest, Lock times l) (ones : ∀ l ∈ rest, unit l = true) (met : ∀ l ∈ rest, Sure times l)
      (differs : k.toNat ≠ rest.length) (coded : k.toInt64 ≠ -1) : Deniable times (.thresh k (first :: rest))

/-- Expressions in which no operand reads the result of another one, no lock stands in the way of
an alternative at these times, and the operands of a threshold push ones and zeros. -/
inductive Sound (times : Times) : Miniscript → Prop
  | pk (key : List UInt8) : Sound times (.pk key)
  | pkH (hash : List UInt8) : Sound times (.pkH hash)
  | lock (e : Miniscript) (h : Lock times e) : Sound times e
  | sha256 (hash : Bytes32) : Sound times (.sha256 hash)
  | hash256 (hash : Bytes32) : Sound times (.hash256 hash)
  | hash160 (hash : Bytes20) : Sound times (.hash160 hash)
  | ripemd160 (hash : Bytes20) : Sound times (.ripemd160 hash)
  | multi (k : UInt64) (keys : List (List UInt8)) (few : keys.length ≤ 20 ∨ keys.length < k.toNat) :
      Sound times (.multi k keys)
  | andB (x y : Miniscript) (hx : Sound times x) (lock : Lock times y) : Sound times (.andB x y)
  | orB (x z : Miniscript) (hx : Sound times x) (runs : Deniable times x ∨ Sure times x) (lock : Lock times z)
      (met : Sure times z) : Sound times (.orB x z)
  | orD (x z : Miniscript) (hx : Sound times x) (runs : Deniable times x ∨ Sure times x)
      (hz : Sound times z) (balanced : skips 0 (compile z) = true) : Sound times (.orD x z)
  | thresh (k : UInt64) (first : Miniscript) (rest : List Miniscript) (h : Sound times first)
      (one : unit first = true) (locks : ∀ l ∈ rest, Lock times l) (ones : ∀ l ∈ rest, unit l = true)
      (all : rest.length < k.toNat) : Sound times (.thresh k (first :: rest))
  | threshRest (k : UInt64) (first : Miniscript) (rest : List Miniscript) (h : Sound times first)
      (deniable : Deniable times first) (locks : ∀ l ∈ rest, Lock times l) (ones : ∀ l ∈ rest, unit l = true)
      (met : ∀ l ∈ rest, Sure times l) (count : k.toNat = rest.length) : Sound times (.thresh k (first :: rest))

/-- The script is within the limits of the interpreter. -/
structure Fits (e : Miniscript) : Prop where
  size : (compile e).length ≤ maxScriptSize
  ops : ops e ≤ maxOpsPerScript

end Soundness

section Moving

variable {s : ScriptInterpreter} {op op' : Op Unit} {stack stack' stack'' : List (List UInt8)} {n n' n'' : ℕ}
  {a data top : List UInt8}

/-- From this stack and this count of opcodes the program gets to those. -/
def Moves (op : Op Unit) (s : ScriptInterpreter) (stack : List (List UInt8)) (n : ℕ) (stack' : List (List UInt8))
    (n' : ℕ) : Prop :=
  op { s with stack := stack, opCount := n } = .ok ((), { s with stack := stack', opCount := n' })

theorem Moves.bind (h : Moves op s stack n stack' n') (h' : Moves op' s stack' n' stack'' n'') :
    Moves (op >>= fun _ => op') s stack n stack'' n'' := (bind_of_ok h).trans h'

theorem Moves.perform {opcode : UInt8} (high : opcode > 0x60) (count : n < maxOpsPerScript)
    (h : Moves op s stack (n + 1) stack' n') : Moves (perform opcode op) s stack n stack' n' :=
  (perform_ok high count).trans h

theorem moves_push (short : data.length ≤ maxElementSize) (room : stack.length < maxStackSize) :
    Moves (push data) s stack n (data :: stack) n := push_ok short room

theorem moves_pushElement (plain : data.length ≠ 1) (short : data.length ≤ maxElementSize)
    (room : stack.length < maxStackSize) : Moves (pushElement data) s stack n (data :: stack) n := by
  rw [pushElement_eq plain]
  exact moves_push short room

theorem moves_pushNumber {v : Int64} (h : v ≠ -1) (room : stack.length < maxStackSize) :
    Moves (pushNumber v) s stack n (intToBytes v :: stack) n := by
  have short := length_intToBytes v
  rw [pushNumber_eq h]
  exact moves_push (by unfold maxElementSize; omega) room

theorem moves_hashTop {hash : List UInt8 → List UInt8} {top : List UInt8} (short : (hash top).length ≤ maxElementSize)
    (room : stack.length < maxStackSize) : Moves (hashTop hash) s (top :: stack) n (hash top :: stack) n := by
  rw [hashTop]
  exact (bind_of_ok (pop_eq rfl)).trans (moves_push short room)

theorem moves_equal {b : List UInt8} (room : stack.length < maxStackSize) :
    Moves opEqual s (b :: a :: stack) n ((if a = b then num 1 else num 0) :: stack) n := by
  have short : (if a = b then num 1 else num 0 : List UInt8).length ≤ maxElementSize := by
    split
    · exact length_num 1
    · exact length_num 0
  rw [opEqual]
  refine (bind_of_ok (pop_eq rfl)).trans ((bind_of_ok (pop_eq rfl)).trans ?_)
  rw [← num_one, ← num_zero]
  exact moves_push short room

theorem moves_equalverify (room : stack.length < maxStackSize) : Moves opEqualverify s (a :: a :: stack) n stack n := by
  rw [opEqualverify]
  refine Moves.bind (moves_equal room) ?_
  rw [if_pos rfl, num_one]
  rfl

theorem moves_binary {f : Int64 → Int64 → Int64} {a b : ℕ} (room : stack.length < maxStackSize) :
    Moves (binary f) s (num b :: num a :: stack) n (intToBytes (f (Int64.ofNat a) (Int64.ofNat b)) :: stack) n := by
  have short := length_intToBytes (f (Int64.ofNat a) (Int64.ofNat b))
  rw [binary]
  refine (bind_of_ok (pop_eq rfl)).trans ((bind_of_ok (pop_eq rfl)).trans ((bind_of_ok (lift_ok (bytesToInt_num b))).trans
    ((bind_of_ok (lift_ok (bytesToInt_num a))).trans (moves_push (by unfold maxElementSize; omega) room))))

end Moving

section Leaving

variable {prims : Primitives} (party : Party prims) (tx : Transaction) (index : ℕ) (script : List UInt8) (value : UInt64)

/-- On these elements the program leaves this result, within so many counted opcodes. -/
def Leaves (op : Op Unit) (cost : ℕ) (elements : List (List UInt8)) (result : List UInt8) : Prop :=
  ∀ s rest n, Ready script value s → n + cost ≤ maxOpsPerScript →
    elements.length + rest.length + 22 + cost ≤ maxStackSize →
      ∃ m ≤ n + cost, Moves op s (elements ++ rest) n (result :: rest) m

/-- A lock: it pushes this number where its policy holds, and fails elsewhere. -/
structure Pushes (e : Miniscript) (v : ℕ) : Prop where
  fails : ∀ s, s.shouldExecute = true → Ensures (eval prims tx index e) s fun _ s' =>
    Holds party (timesOf tx index) (spendDigest tx index script value prims) e ∧ s'.stack = num v :: s.stack
  leaves : Holds party (timesOf tx index) (spendDigest tx index script value prims) e →
    Leaves script value (eval prims tx index e) (ops e) [] (num v)

end Leaving

section Programs

variable {script : List UInt8} {value : UInt64} {op op' : Op Unit} {cost cost' : ℕ} {elements : List (List UInt8)}
  {result result' : List UInt8}

theorem Leaves.bind {below : List (List UInt8)} (pos : 0 < elements.length + cost)
    (h : Leaves script value op cost elements result) (h' : Leaves script value op' cost' (result :: below) result') :
    Leaves script value (op >>= fun _ => op') (cost + cost') (elements ++ below) result' := by
  intro s rest n ready count room
  rw [List.length_append] at room
  obtain ⟨m, hm, run⟩ := h s (below ++ rest) n ready (by omega) (by rw [List.length_append]; omega)
  obtain ⟨m', hm', run'⟩ := h' s rest m ready (by omega) (by rw [List.length_cons]; omega)
  refine ⟨m', by omega, ?_⟩
  rw [List.append_assoc]
  exact run.bind run'

theorem Leaves.congr (h : Leaves script value op cost elements result) (same : result = result') :
    Leaves script value op cost elements result' := same ▸ h

theorem Leaves.mono (h : Leaves script value op cost elements result) (le : cost ≤ cost') :
    Leaves script value op cost' elements result := by
  intro s rest n ready count room
  obtain ⟨m, hm, run⟩ := h s rest n ready (by omega) (by omega)
  exact ⟨m, by omega, run⟩

theorem Leaves.of_few (h : cost ≤ maxOpsPerScript → Leaves script value op cost elements result) :
    Leaves script value op cost elements result :=
  fun s rest n ready count => h (by omega) s rest n ready count

theorem leaves_binary {opcode : UInt8} {f : Int64 → Int64 → Int64} {a b : ℕ} (high : opcode > 0x60)
    (h : Leaves script value op cost [] (num b)) :
    Leaves script value (op >>= fun _ => perform opcode (binary f)) (cost + 1) [num a]
      (intToBytes (f (Int64.ofNat a) (Int64.ofNat b))) := by
  intro s rest n ready count room
  rw [List.length_singleton] at room
  obtain ⟨m, hm, run⟩ := h s (num a :: rest) n ready (by omega)
    (by rw [List.length_nil, List.length_cons]; omega)
  exact ⟨m + 1, by omega, run.bind (Moves.perform high (by omega) (moves_binary (by omega)))⟩

theorem leaves_equal {k : Int64} {a : ℕ} (hk : k ≠ -1) :
    Leaves script value (pushNumber k >>= fun _ => perform 0x87 opEqual) 1 [num a]
      (if num a = intToBytes k then num 1 else num 0) := by
  intro s rest n ready count room
  rw [List.length_singleton] at room
  have pushed : Moves (pushNumber k) s (num a :: rest) n (intToBytes k :: num a :: rest) n :=
    moves_pushNumber hk (by rw [List.length_cons]; omega)
  exact ⟨n + 1, le_rfl, pushed.bind (Moves.perform (by decide) (by omega) (moves_equal (by omega)))⟩

end Programs

section Satisfactions

variable {prims : Primitives} {party : Party prims} {tx : Transaction} {index : ℕ} {script : List UInt8} {value : UInt64}
  {s : ScriptInterpreter} {key result sig : List UInt8} {keys rest sigs : List (List UInt8)} {a b n : ℕ}
  {opcode : UInt8} {k : UInt64} {d : Bytes32} {e : Miniscript}

/-- What `OP_CHECKSIG` leaves for a signature: zero for the empty one, one for a good one. -/
def Checks (prims : Primitives) (tx : Transaction) (index : ℕ) (script : List UInt8) (value : UInt64)
    (key sig result : List UInt8) : Prop :=
  sig = [] ∧ result = num 0 ∨ sig ≠ [] ∧ result = num 1 ∧
    ∃ d, spendDigest tx index script value prims = .ok d ∧ signs prims d key sig = true ∧ prims.lowS sig.dropLast = true

theorem toInt64_ne_minus (h : k.toNat < 2 ^ 64 - 1) : k.toInt64 ≠ -1 := by
  intro same
  have value := congrArg asUsize same
  have minus : asUsize (-1) = 2 ^ 64 - 1 := rfl
  rw [asUsize_toInt64] at value
  omega

theorem ofNat_ne_minus (h : n < 2 ^ 64 - 1) : Int64.ofNat n ≠ -1 := by
  intro same
  have := ofNat_injective (by omega) (by omega) (same.trans (by decide : (-1 : Int64) = Int64.ofNat (2 ^ 64 - 1)))
  omega

theorem pushes_lock {n : UInt32} {check : Int64 → Except ScriptInterpreterError Unit}
    (heval : eval prims tx index e = pushNumber (Int64.ofNat n.toNat) >>= fun _ => perform opcode (do
      let x ← peek 0
      let v ← bytesToInt x
      check v)) (high : opcode > 0x60) (cost : ops e = 1)
    (met : check (Int64.ofNat n.toNat) = .ok () ↔ Holds party (timesOf tx index) (spendDigest tx index script value prims) e) :
    Pushes party tx index script value e n.toNat where
  fails := fun s _ => by
    rw [heval, ensures_bind]
    refine ensures_pushNumber (ensures_perform fun count => ?_)
    simp only [ensures_bind, ensures_peek, ensures_lift, List.getElem?_cons_zero, Option.some.injEq]
    rintro _ rfl v read _ checked
    rw [bytesToInt_intToBytes, Except.ok.injEq] at read
    rw [← read] at checked
    exact ⟨met.mp checked, rfl⟩
  leaves := fun holds s rest count ready few room => by
    have hlt := n.toNat_lt
    rw [List.length_nil] at room
    rw [cost] at few ⊢
    refine ⟨count + 1, le_rfl, ?_⟩
    have pushed : Moves (pushNumber (Int64.ofNat n.toNat)) s rest count (num n.toNat :: rest) count :=
      moves_pushNumber (ofNat_ne_minus (by omega)) (by omega)
    rw [heval]
    refine pushed.bind (Moves.perform high (by omega) ?_)
    exact (bind_of_ok rfl).trans ((bind_of_ok (lift_ok (bytesToInt_num _))).trans (lift_ok (met.mpr holds)))

theorem pushes_older (n : UInt32) : Pushes party tx index script value (.older n) n.toNat := by
  refine pushes_lock (by rw [eval]; rfl) (by decide) rfl ?_
  rw [Holds]
  exact checkSequence_iff

theorem pushes_after (n : UInt32) : Pushes party tx index script value (.after n) n.toNat := by
  refine pushes_lock (by rw [eval]; rfl) (by decide) rfl ?_
  rw [Holds]
  exact checkLocktime_iff

theorem Pushes.yields {v : ℕ} (h : Pushes party tx index script value e v) (small : v < 2 ^ 32)
    (one : unit e = true → v ≤ 1) : Yields party tx index script value e := by
  intro s ready _
  refine (h.fails s ready.executing).mono fun _ s' left => ?_
  exact ⟨v, s.stack, small, left.2, List.suffix_rfl, fun _ => left.1, one⟩

theorem ofBool_num (p : Prop) [Decidable p] : intToBytes (ofBool p) = if p then num 1 else num 0 := by
  by_cases h : p
  · simp [ofBool, h, num]
  · simp [ofBool, h, num]

theorem ofNat_eq_zero (h : n < 2 ^ 64) : Int64.ofNat n = 0 ↔ n = 0 := by
  constructor
  · intro same
    exact ofNat_injective h (by omega) same
  · rintro rfl
    rfl

theorem booland_num (ha : a < 2 ^ 64) (hb : b < 2 ^ 64) :
    intToBytes (ofBool (Int64.ofNat a ≠ 0 ∧ Int64.ofNat b ≠ 0)) = if a ≠ 0 ∧ b ≠ 0 then num 1 else num 0 := by
  simp only [ofBool_num, ne_eq, ofNat_eq_zero ha, ofNat_eq_zero hb]

theorem boolor_num (ha : a < 2 ^ 64) (hb : b < 2 ^ 64) :
    intToBytes (ofBool (Int64.ofNat a ≠ 0 ∨ Int64.ofNat b ≠ 0)) = if a ≠ 0 ∨ b ≠ 0 then num 1 else num 0 := by
  simp only [ofBool_num, ne_eq, ofNat_eq_zero ha, ofNat_eq_zero hb]

theorem toInt64_num (k : UInt64) : intToBytes k.toInt64 = num k.toNat := by
  have same : k.toInt64 = Int64.ofNat k.toNat := by
    show k.toInt64 = (UInt64.ofNat k.toNat).toInt64
    rw [UInt64.ofNat_toNat]
  rw [same, num]

end Satisfactions

section Locks

variable {prims : Primitives} {party : Party prims} {tx : Transaction} {index : ℕ} {script : List UInt8} {value : UInt64}
  {s : ScriptInterpreter} {k : UInt64} {rest : List Miniscript} {a b : ℕ} {below elements : List (List UInt8)}
  {x : Miniscript}

theorem length_le_ops (rest : List Miniscript) : rest.length ≤ opsSummands rest := by
  induction rest with
  | nil => exact Nat.zero_le _
  | cons sub rest ih =>
    rw [List.length_cons, opsSummands]
    omega

theorem holdsAll_eq (times : Times) (subs : List Miniscript) (digest : Except String Bytes32) :
    holdsAll party times digest subs = subs.map (Holds party times digest) := by
  induction subs with
  | nil => rw [holdsAll, List.map_nil]
  | cons sub rest ih => rw [holdsAll, List.map_cons, ih]

theorem holds_thresh_all {subs : List Miniscript} {digest : Except String Bytes32} (all : subs.length = k.toNat) :
    Holds party (timesOf tx index) digest (.thresh k subs) ↔ ∀ sub ∈ subs, Holds party (timesOf tx index) digest sub := by
  rw [Holds, holdsAll_eq]
  constructor
  · intro h sub mem
    exact h.all (by rw [List.length_map]; omega) _ (List.mem_map_of_mem mem)
  · intro h
    have statements : ∀ p ∈ subs.map (Holds party (timesOf tx index) digest), p := by
      intro p hp
      obtain ⟨sub, mem, rfl⟩ := List.mem_map.mp hp
      exact h sub mem
    have := atLeast_of_all statements
    rwa [List.length_map, all] at this

theorem Pushes.run {e : Miniscript} {v : ℕ} (h : Pushes party tx index script value e v)
    (executing : s.shouldExecute = true) : Ensures (eval prims tx index e) s fun _ s' =>
      (Holds party (timesOf tx index) (spendDigest tx index script value prims) e ∧ s'.stack = num v :: s.stack) ∧
        s'.shouldExecute = true :=
  fun _ _ run => ⟨(h.fails s executing).apply run,
    (shouldExecute_of_eq ((keeps_eval e s).apply run).1).trans executing⟩

theorem fails_summands (locks : ∀ l ∈ rest, Pushes party tx index script value l 1) (executing : s.shouldExecute = true)
    (hstack : s.stack = num a :: below) : Ensures (evalSummands prims tx index rest) s fun _ s' =>
      (∀ l ∈ rest, Holds party (timesOf tx index) (spendDigest tx index script value prims) l) ∧
        s'.stack = num (a + rest.length) :: below := by
  induction rest generalizing s a with
  | nil =>
    rw [evalSummands, ensures_pure]
    exact ⟨List.forall_mem_nil _, hstack⟩
  | cons l rest ih =>
    rw [List.forall_mem_cons] at locks
    rw [evalSummands, ensures_bind]
    refine (locks.1.run executing).mono fun _ t ran => ?_
    obtain ⟨pushed, executing'⟩ := ran
    rw [ensures_bind]
    refine ensures_perform fun count => ensures_binary (pushed.2.trans (by rw [hstack])) ?_
    rw [← Int64.ofNat_add]
    refine (ih locks.2 (by exact executing') rfl).mono fun _ s' left => ?_
    refine ⟨List.forall_mem_cons.mpr ⟨pushed.1, left.1⟩, left.2.trans ?_⟩
    rw [List.length_cons, Nat.add_assoc, Nat.add_comm 1]

theorem leaves_summands (locks : ∀ l ∈ rest, Pushes party tx index script value l 1)
    (holds : ∀ l ∈ rest, Holds party (timesOf tx index) (spendDigest tx index script value prims) l) (a : ℕ) :
    Leaves script value (evalSummands prims tx index rest) (opsSummands rest) [num a] (num (a + rest.length)) := by
  induction rest generalizing a with
  | nil =>
    intro s rest n _ _ _
    rw [evalSummands]
    exact ⟨n, Nat.le_add_right n _, rfl⟩
  | cons l rest ih =>
    rw [List.forall_mem_cons] at locks holds
    have counted : intToBytes (Int64.ofNat a + Int64.ofNat 1) = num (a + 1) := by rw [← Int64.ofNat_add, num]
    have pushed : Leaves script value (eval prims tx index l >>= fun _ => perform 0x93 opAdd) (ops l + 1) [num a]
        (num (a + 1)) := (leaves_binary (by decide) (locks.1.leaves holds.1)).congr counted
    have summed := pushed.bind (Nat.succ_pos _) (ih locks.2 holds.2 (a + 1))
    have total : a + 1 + rest.length = a + (l :: rest).length := by
      rw [List.length_cons]
      omega
    rw [bind_assoc, total] at summed
    rw [evalSummands, opsSummands]
    exact summed

theorem leaves_andB {y : Miniscript} (pos : 0 < ops x)
    (hx : Leaves script value (eval prims tx index x) (ops x) elements (num a))
    (hy : Leaves script value (eval prims tx index y) (ops y) [] (num b)) (ha : a < 2 ^ 64) (hb : b < 2 ^ 64) :
    Leaves script value (eval prims tx index (.andB x y)) (ops (.andB x y)) elements
      (if a ≠ 0 ∧ b ≠ 0 then num 1 else num 0) := by
  have both : Leaves script value (eval prims tx index y >>= fun _ => perform 0x9a opBooland) (ops y + 1) [num a]
      (if a ≠ 0 ∧ b ≠ 0 then num 1 else num 0) := (leaves_binary (by decide) hy).congr (booland_num ha hb)
  have run := hx.bind (by omega) both
  rw [List.append_nil] at run
  rw [eval, ops]
  exact run

theorem leaves_orB {z : Miniscript} (pos : 0 < ops x)
    (hx : Leaves script value (eval prims tx index x) (ops x) elements (num a))
    (hz : Leaves script value (eval prims tx index z) (ops z) [] (num b)) (ha : a < 2 ^ 64) (hb : b < 2 ^ 64) :
    Leaves script value (eval prims tx index (.orB x z)) (ops (.orB x z)) elements
      (if a ≠ 0 ∨ b ≠ 0 then num 1 else num 0) := by
  have either : Leaves script value (eval prims tx index z >>= fun _ => perform 0x9b opBoolor) (ops z + 1) [num a]
      (if a ≠ 0 ∨ b ≠ 0 then num 1 else num 0) := (leaves_binary (by decide) hz).congr (boolor_num ha hb)
  have run := hx.bind (by omega) either
  rw [List.append_nil] at run
  rw [eval, ops]
  exact run

/-- The operands of a threshold after the first one, and the comparison. -/
theorem fails_count (locks : ∀ l ∈ rest, Pushes party tx index script value l 1) (executing : s.shouldExecute = true)
    (hstack : s.stack = num a :: below) :
    Ensures (evalSummands prims tx index rest >>= fun _ => pushNumber k.toInt64 >>= fun _ => perform 0x87 opEqual) s
      fun _ s' => (∀ l ∈ rest, Holds party (timesOf tx index) (spendDigest tx index script value prims) l) ∧
        s'.stack = (if num (a + rest.length) = num k.toNat then num 1 else num 0) :: below := by
  rw [ensures_bind]
  refine (fails_summands locks executing hstack).mono fun _ t counted => ?_
  rw [ensures_bind]
  refine ensures_pushNumber (ensures_perform fun count => ?_)
  rw [toInt64_num, counted.2]
  exact ensures_opEqual rfl ⟨counted.1, rfl⟩

theorem leaves_thresh {first : Miniscript} (pos : 0 < ops first)
    (coded : ops (.thresh k (first :: rest)) ≤ maxOpsPerScript → k.toInt64 ≠ -1)
    (h : Leaves script value (eval prims tx index first) (ops first) elements (num a))
    (locks : ∀ l ∈ rest, Pushes party tx index script value l 1)
    (holds : ∀ l ∈ rest, Holds party (timesOf tx index) (spendDigest tx index script value prims) l) :
    Leaves script value (eval prims tx index (.thresh k (first :: rest))) (ops (.thresh k (first :: rest))) elements
      (if num (a + rest.length) = num k.toNat then num 1 else num 0) := by
  refine Leaves.of_few fun few => ?_
  have compared := @leaves_equal script value k.toInt64 (a + rest.length) (coded few)
  rw [toInt64_num] at compared
  have summed : Leaves script value (evalSummands prims tx index rest >>= fun _ => pushNumber k.toInt64 >>= fun _ =>
      perform 0x87 opEqual) (opsSummands rest + 1) [num a] (if num (a + rest.length) = num k.toNat then num 1 else num 0) :=
    (leaves_summands locks holds a).bind (Nat.lt_of_lt_of_le Nat.one_pos (Nat.le_add_right _ _)) compared
  have run := h.bind (by omega) summed
  rw [List.append_nil] at run
  rw [eval, ops, Nat.add_assoc]
  exact run

end Locks

section Branches

variable {prims : Primitives} {party : Party prims} {tx : Transaction} {index : ℕ} {script : List UInt8} {value : UInt64}
  {s : ScriptInterpreter} {code top : List UInt8} {op : Op Unit} {stack : List (List UInt8)} {n : ℕ}

/-- The interpreter inside a branch. -/
def inBranch (s : ScriptInterpreter) (b : Bool) : ScriptInterpreter :=
  { s with conditionStack := b :: s.conditionStack }

theorem ready_inBranch (h : Ready script value s) : Ready script value (inBranch s true) := by
  refine ⟨?_, h.context⟩
  have := h.executing
  rw [ScriptInterpreter.shouldExecute] at this ⊢
  rw [inBranch, List.all_cons, this]
  rfl

theorem opens (executing : s.shouldExecute = true) {top : List UInt8} {stack : List (List UInt8)} {n : ℕ}
    (count : n < maxOpsPerScript) : perform 0x64 opNotif { s with stack := top :: stack, opCount := n } =
      .ok ((), { inBranch s (!ScriptInterpreters.isTrue top) with stack := stack, opCount := n + 1 }) := by
  refine (perform_ok (by decide) count).trans ?_
  have runs : { s with stack := top :: stack, opCount := n + 1 }.shouldExecute = true := executing
  rw [opNotif, get_bind, if_pos runs]
  exact bind_of_ok (pop_eq rfl)

theorem closes {b : Bool} {stack : List (List UInt8)} {n : ℕ} (count : n < maxOpsPerScript) :
    perform 0x68 opEndif { inBranch s b with stack := stack, opCount := n } =
      .ok ((), { s with stack := stack, opCount := n + 1 }) := by
  refine (perform_ok (by decide) count).trans ?_
  rw [opEndif, get_bind]
  rfl

theorem countAll_ok (code : List UInt8) {s : ScriptInterpreter}
    (few : s.opCount + code.countP (· > 0x60) ≤ maxOpsPerScript) :
    countAll code s = .ok ((), { s with opCount := s.opCount + code.countP (· > 0x60) }) := by
  induction code generalizing s with
  | nil => rfl
  | cons b code ih =>
    by_cases high : b > 0x60
    · have one : (b :: code).countP (· > 0x60) = code.countP (· > 0x60) + 1 :=
        List.countP_cons_of_pos (by simpa using high)
      rw [one] at few ⊢
      rw [countAll_cons, bind_of_ok (countOp_high high (by omega)), ih (by show s.opCount + 1 + _ ≤ _; omega),
        Nat.add_right_comm, Nat.add_assoc s.opCount]
    · have same : (b :: code).countP (· > 0x60) = code.countP (· > 0x60) :=
        List.countP_cons_of_neg (by simpa using high)
      rw [same] at few ⊢
      rw [countAll_cons, countOp_low (by simpa using high)]
      exact ih few

theorem moves_skipped (executing : s.shouldExecute = true) (holds : ScriptInterpreters.isTrue top = true)
    (few : n + code.countP (· > 0x60) + 2 ≤ maxOpsPerScript) :
    Moves (perform 0x64 opNotif >>= fun _ => evalBranch code op >>= fun _ => perform 0x68 opEndif) s (top :: stack) n
      stack (n + code.countP (· > 0x60) + 2) := by
  have opened := @opens s executing top stack n (by omega)
  rw [holds] at opened
  refine (bind_of_ok opened).trans ?_
  have passed : evalBranch code op { inBranch s false with stack := stack, opCount := n + 1 } =
      .ok ((), { inBranch s false with stack := stack, opCount := n + 1 + code.countP (· > 0x60) }) := by
    rw [evalBranch, get_bind]
    exact countAll_ok code (by show n + 1 + _ ≤ _; omega)
  refine (bind_of_ok passed).trans ((closes (by omega)).trans ?_)
  rw [Nat.add_right_comm n 1]

theorem moves_ifdup {top : List UInt8} {stack : List (List UInt8)} {n : ℕ} (short : top.length ≤ maxElementSize)
    (room : stack.length + 1 < maxStackSize) : Moves opIfdup s (top :: stack) n
      (if ScriptInterpreters.isTrue top then top :: top :: stack else top :: stack) n := by
  rw [opIfdup]
  refine (bind_of_ok rfl).trans ?_
  split
  · exact moves_push short room
  · rfl

variable {x z : Miniscript} {elements below : List (List UInt8)} {result : List UInt8} {a : ℕ}

theorem leaves_orD_left (pos : 0 < ops x) (hx : Leaves script value (eval prims tx index x) (ops x) elements (num a))
    (ha : a ≠ 0) (small : a < 2 ^ 64) :
    Leaves script value (eval prims tx index (.orD x z)) (ops (.orD x z)) elements (num a) := by
  have holds : ScriptInterpreters.isTrue (num a) = true := (isTrue_num small).mpr ha
  have taken : Leaves script value (perform 0x73 opIfdup >>= fun _ => perform 0x64 opNotif >>= fun _ =>
      evalBranch (compile z) (eval prims tx index z) >>= fun _ => perform 0x68 opEndif)
      ((compile z).countP (· > 0x60) + 3) [num a] (num a) := by
    intro s rest n ready count room
    rw [List.length_singleton] at room
    have dup : Moves (perform 0x73 opIfdup) s (num a :: rest) n (num a :: num a :: rest) (n + 1) := by
      have := @moves_ifdup s (num a) rest (n + 1) (length_num a) (by omega)
      rw [if_pos holds] at this
      exact this.perform (by decide) (by omega)
    exact ⟨_, by omega, dup.bind (moves_skipped ready.executing holds (by omega))⟩
  have run := hx.bind (by omega) taken
  rw [List.append_nil] at run
  rw [eval, ops]
  exact run.mono (by omega)

end Branches

section Pushing

variable {prims : Primitives} {party : Party prims} {tx : Transaction} {index : ℕ} {script : List UInt8} {value : UInt64}
  {s : ScriptInterpreter} {rest : List Miniscript} {times : Times} {e first x z : Miniscript} {a b : ℕ} {k : UInt64}

theorem ensures_countAll (code : List UInt8) : Ensures (countAll code) s fun _ s' => s'.stack = s.stack := by
  induction code generalizing s with
  | nil => simp [countAll]
  | cons b code ih =>
    rw [countAll_cons, ensures_bind]
    exact ensures_countOp_of fun _ => ih

theorem ensures_branch {P : List (List UInt8) → Prop} {code top : List UInt8} {op : Op Unit} {below : List (List UInt8)}
    (executing : s.shouldExecute = true) (hstack : s.stack = top :: below)
    (passed : ScriptInterpreters.isTrue top = true → P below) (ran : ScriptInterpreters.isTrue top = false → ∀ count,
      Ensures op (inBranch { s with stack := below, opCount := count } true) fun _ u => P u.stack) :
    Ensures (perform 0x64 opNotif >>= fun _ => evalBranch code op >>= fun _ => perform 0x68 opEndif) s
      fun _ s' => P s'.stack := by
  have closed (u : ScriptInterpreter) (h : P u.stack) : Ensures (perform 0x68 opEndif) u fun _ s' => P s'.stack := by
    refine ensures_perform fun count => ?_
    rw [opEndif, ensures_bind, ensures_get]
    split
    · exact ensures_throw.mpr trivial
    · exact ensures_set.mpr h
  have branch (count : ℕ) : Ensures (evalBranch code op)
      (inBranch { s with stack := below, opCount := count } (!ScriptInterpreters.isTrue top)) fun _ u => P u.stack := by
    rw [evalBranch, ensures_bind, ensures_get]
    cases htop : ScriptInterpreters.isTrue top with
    | true =>
      refine (ensures_countAll code).mono fun _ u kept => ?_
      rw [kept]
      exact passed htop
    | false =>
      have runs : (inBranch { s with stack := below, opCount := count } true).shouldExecute = true := executing
      rw [Bool.not_false, if_pos runs]
      exact ran htop count
  rw [ensures_bind]
  refine ensures_perform fun count => ?_
  have runs : { s with opCount := count }.shouldExecute = true := executing
  rw [opNotif, ensures_bind, ensures_get, if_pos runs, ensures_bind, ensures_pop]
  intro value rest popped
  rw [hstack, List.cons.injEq] at popped
  rw [ensures_modify, ensures_bind, ← popped.1, ← popped.2]
  exact (branch count).mono fun _ u held => closed u held

theorem ensures_opIfdup {Q : Unit → ScriptInterpreter → Prop} {top : List UInt8} {rest : List (List UInt8)}
    (hstack : s.stack = top :: rest)
    (h : Q () { s with stack := if ScriptInterpreters.isTrue top then top :: top :: rest else top :: rest }) :
    Ensures opIfdup s Q := by
  rw [opIfdup, ensures_bind, ensures_peek, hstack]
  intro value peeked
  have same : top = value := by simpa using peeked
  rw [← same, ensures_ite, ensures_push]
  refine ⟨fun holds _ _ => ?_, fun fails => ensures_pure.mpr ?_⟩
  · rw [if_pos holds] at h
    rwa [hstack]
  · rw [if_neg fails, ← hstack] at h
    exact h

theorem Lock.pos (h : Lock times e) : 0 < ops e := by
  cases h <;> exact Nat.succ_pos _

theorem Lock.holds_of_holds (h : Lock times e) {prims prims' : Primitives} (party : Party prims) (party' : Party prims')
    (digest digest' : Except String Bytes32) (holds : Holds party times digest e) : Holds party' times digest' e := by
  induction h generalizing prims prims' digest digest' with
  | older n pos =>
    rw [Holds] at holds ⊢
    exact holds
  | after n pos =>
    rw [Holds] at holds ⊢
    exact holds
  | andB x y hx hy ihx ihy =>
    rw [Holds] at holds ⊢
    exact ⟨ihx _ _ _ _ holds.1, ihy _ _ _ _ holds.2⟩
  | orB x z hx hz same ihx ihz =>
    have sure : Holds party times digest z → Sure times z := fun second prims' party' digest' =>
      ihz party party' digest digest' second
    rw [Holds] at holds ⊢
    exact .inl (holds.elim (ihx _ _ _ _) fun second => same.mpr (sure second) _ _ _)
  | orD x z hx covered skippable ihx =>
    rw [Holds] at holds ⊢
    exact .inl (holds.elim (ihx _ _ _ _) fun second => covered _ _ _ second _ _ _)
  | thresh k first rest h one locks ones all ih ihs =>
    have each : ∀ l ∈ first :: rest, Holds party times digest l = Holds party' times digest' l := by
      rw [List.forall_mem_cons]
      exact ⟨propext ⟨ih _ _ _ _, ih _ _ _ _⟩, fun l mem => propext ⟨ihs l mem _ _ _ _, ihs l mem _ _ _ _⟩⟩
    rw [Holds, holdsAll_eq] at holds ⊢
    rwa [← List.map_congr_left each]

theorem Lock.holds_iff (h : Lock times e) (digest : Except String Bytes32) :
    Holds party times digest e ↔ Sure times e :=
  ⟨fun holds _ party' digest' => h.holds_of_holds party party' digest digest' holds,
    fun sure => sure prims party digest⟩

theorem Pushes.andB {y : Miniscript} (hx : Pushes party tx index script value x a)
    (hy : Pushes party tx index script value y b) (pos : 0 < ops x) (ha : 0 < a ∧ a < 2 ^ 64)
    (hb : 0 < b ∧ b < 2 ^ 64) : Pushes party tx index script value (.andB x y) 1 where
  fails := fun s executing => by
    rw [eval, ensures_bind]
    refine (hx.run executing).mono fun _ t ran => ?_
    obtain ⟨pushed, executing'⟩ := ran
    rw [ensures_bind]
    refine (hy.fails t executing').mono fun _ u pushed' => ?_
    refine ensures_perform fun count => ensures_binary (pushed'.2.trans (by rw [pushed.2])) ?_
    rw [Holds, booland_num ha.2 hb.2, if_pos (by omega)]
    exact ⟨⟨pushed.1, pushed'.1⟩, rfl⟩
  leaves := fun holds => by
    rw [Holds] at holds
    have both := leaves_andB pos (hx.leaves holds.1) (hy.leaves holds.2) ha.2 hb.2
    exact both.congr (if_pos (by omega))

theorem Pushes.orB (hx : Pushes party tx index script value x a) (hz : Pushes party tx index script value z b)
    (pos : 0 < ops x) (ha : 0 < a ∧ a < 2 ^ 64) (hb : b < 2 ^ 64)
    (same : Holds party (timesOf tx index) (spendDigest tx index script value prims) x ↔
      Holds party (timesOf tx index) (spendDigest tx index script value prims) z) :
    Pushes party tx index script value (.orB x z) 1 where
  fails := fun s executing => by
    rw [eval, ensures_bind]
    refine (hx.run executing).mono fun _ t ran => ?_
    obtain ⟨pushed, executing'⟩ := ran
    rw [ensures_bind]
    refine (hz.fails t executing').mono fun _ u pushed' => ?_
    refine ensures_perform fun count => ensures_binary (pushed'.2.trans (by rw [pushed.2])) ?_
    rw [Holds, boolor_num ha.2 hb, if_pos (by omega)]
    exact ⟨.inl pushed.1, rfl⟩
  leaves := fun holds => by
    rw [Holds, ← same, or_self] at holds
    have either := leaves_orB pos (hx.leaves holds) (hz.leaves (same.mp holds)) ha.2 hb
    exact either.congr (if_pos (by omega))

theorem Pushes.orD (hx : Pushes party tx index script value x a) (pos : 0 < ops x) (ha : 0 < a ∧ a < 2 ^ 64)
    (covered : Holds party (timesOf tx index) (spendDigest tx index script value prims) z →
      Holds party (timesOf tx index) (spendDigest tx index script value prims) x) :
    Pushes party tx index script value (.orD x z) a where
  fails := fun s executing => by
    rw [eval, ensures_bind]
    refine (hx.run executing).mono fun _ t ran => ?_
    obtain ⟨pushed, executing'⟩ := ran
    have met : ScriptInterpreters.isTrue (num a) = true := (isTrue_num ha.2).mpr (by omega)
    rw [ensures_bind]
    refine ensures_perform fun count => ensures_opIfdup pushed.2 ?_
    have runs : { t with stack := num a :: num a :: s.stack, opCount := count }.shouldExecute = true := executing'
    rw [if_pos met]
    refine @ensures_branch _ (fun stack => Holds party (timesOf tx index) (spendDigest tx index script value prims)
      (.orD x z) ∧ stack = num a :: s.stack) _ _ _ _ runs rfl (fun _ => ⟨?_, rfl⟩) fun fails => ?_
    · rw [Holds]
      exact .inl pushed.1
    · exact absurd met (by rw [fails]; exact Bool.false_ne_true)
  leaves := fun holds => by
    rw [Holds] at holds
    exact leaves_orD_left pos (hx.leaves (holds.elim id covered)) (by omega) ha.2

theorem coded_count (all : k.toNat ≤ rest.length + 1) (few : ops (.thresh k (first :: rest)) ≤ maxOpsPerScript) :
    k.toInt64 ≠ -1 := by
  have counted := length_le_ops rest
  rw [ops, maxOpsPerScript] at few
  exact toInt64_ne_minus (by omega)

theorem Pushes.thresh {k : UInt64} {first : Miniscript} {rest : List Miniscript}
    (h : Pushes party tx index script value first 1) (pos : 0 < ops first)
    (locks : ∀ l ∈ rest, Pushes party tx index script value l 1) (all : k.toNat = rest.length + 1) :
    Pushes party tx index script value (.thresh k (first :: rest)) 1 where
  fails := fun s executing => by
    rw [eval, ensures_bind]
    refine (h.run executing).mono fun _ t ran => ?_
    obtain ⟨pushed, executing'⟩ := ran
    refine (fails_count locks executing' pushed.2).mono fun _ s' counted => ?_
    rw [Nat.add_comm 1, ← all, if_pos rfl] at counted
    have size : (first :: rest).length = k.toNat := all.symm
    exact ⟨(holds_thresh_all size).mpr (List.forall_mem_cons.mpr ⟨pushed.1, counted.1⟩), counted.2⟩
  leaves := fun holds => by
    have size : (first :: rest).length = k.toNat := all.symm
    have each := List.forall_mem_cons.mp ((holds_thresh_all size).mp holds)
    have run := leaves_thresh pos (coded_count all.le) (h.leaves each.1) locks each.2
    exact run.congr (if_pos (by rw [all, Nat.add_comm]))

theorem Pushes.stopped (h : Pushes party tx index script value first 1)
    (locks : ∀ l ∈ rest, Pushes party tx index script value l 1)
    (unmet : ¬ ∀ l ∈ first :: rest, Holds party (timesOf tx index) (spendDigest tx index script value prims) l)
    (never : ¬ Holds party (timesOf tx index) (spendDigest tx index script value prims) (.thresh k (first :: rest))) :
    Pushes party tx index script value (.thresh k (first :: rest)) 1 where
  fails := fun s executing => by
    rw [eval, ensures_bind]
    refine (h.run executing).mono fun _ t ran => ?_
    obtain ⟨pushed, executing'⟩ := ran
    refine (fails_count locks executing' pushed.2).mono fun _ s' counted => ?_
    exact absurd (List.forall_mem_cons.mpr ⟨pushed.1, counted.1⟩) unmet
  leaves := fun holds => absurd holds never

theorem number_unit {n : UInt32} (one : n = 1) : n.toNat = 1 := by
  rw [one]
  rfl

/-- A lock pushes a positive number, the same whenever it is met. -/
theorem Lock.pushes {e : Miniscript} (h : Lock (timesOf tx index) e) :
    ∃ v, 0 < v ∧ v < 2 ^ 32 ∧ (unit e = true → v = 1) ∧ Pushes party tx index script value e v := by
  induction h with
  | older n pos =>
    have positive : n.toNat ≠ 0 := fun h => pos (UInt32.toNat_inj.mp h)
    exact ⟨n.toNat, by omega, n.toNat_lt, fun one => number_unit (by simpa [unit] using one), pushes_older n⟩
  | after n pos =>
    have positive : n.toNat ≠ 0 := fun h => pos (UInt32.toNat_inj.mp h)
    exact ⟨n.toNat, by omega, n.toNat_lt, fun one => number_unit (by simpa [unit] using one), pushes_after n⟩
  | andB x y hx hy ihx ihy =>
    obtain ⟨a, posa, smalla, _, pushesa⟩ := ihx
    obtain ⟨b, posb, smallb, _, pushesb⟩ := ihy
    exact ⟨1, by omega, by omega, fun _ => rfl, pushesa.andB pushesb hx.pos ⟨posa, by omega⟩ ⟨posb, by omega⟩⟩
  | orB x z hx hz same ihx ihz =>
    obtain ⟨a, posa, smalla, _, pushesa⟩ := ihx
    obtain ⟨b, posb, smallb, _, pushesb⟩ := ihz
    exact ⟨1, by omega, by omega, fun _ => rfl, pushesa.orB pushesb hx.pos ⟨posa, by omega⟩ (by omega)
      ((hx.holds_iff _).trans (same.trans (hz.holds_iff _).symm))⟩
  | orD x z hx covered skippable ih =>
    obtain ⟨a, posa, smalla, one, pushesa⟩ := ih
    refine ⟨a, posa, smalla, fun ones => one ?_, pushesa.orD hx.pos ⟨posa, by omega⟩
      fun second => (hx.holds_iff _).mpr (covered _ _ _ second)⟩
    rw [unit, Bool.and_eq_true] at ones
    exact ones.1
  | thresh k first rest h one locks ones all ih ihs =>
    obtain ⟨a, _, _, unita, pushesa⟩ := ih
    rw [unita one] at pushesa
    have each : ∀ l ∈ rest, Pushes party tx index script value l 1 := by
      intro l mem
      obtain ⟨b, _, _, unitb, pushesb⟩ := ihs l mem
      rwa [unitb (ones l mem)] at pushesb
    refine ⟨1, by omega, by omega, fun _ => rfl, ?_⟩
    obtain counted | ⟨⟨l, mem, unmet⟩, never⟩ := all
    · exact pushesa.thresh h.pos each counted
    · have lock : ∀ l ∈ first :: rest, Lock (timesOf tx index) l := List.forall_mem_cons.mpr ⟨h, locks⟩
      have whole := @Lock.thresh (timesOf tx index) k first rest h one locks ones (.inr ⟨⟨l, mem, unmet⟩, never⟩)
      exact pushesa.stopped each (fun met => unmet (((lock l mem).holds_iff _).mp (met l mem)))
        (mt (whole.holds_iff _).mp never)

theorem pushes_ones (locks : ∀ l ∈ rest, Lock (timesOf tx index) l) (ones : ∀ l ∈ rest, unit l = true) :
    ∀ l ∈ rest, Pushes party tx index script value l 1 := by
  intro l mem
  obtain ⟨v, _, _, one, pushes⟩ := @Lock.pushes prims party tx index script value l (locks l mem)
  rwa [one (ones l mem)] at pushes

end Pushing

section Denials

variable {prims : Primitives} {party : Party prims} {tx : Transaction} {index : ℕ} {script : List UInt8} {value : UInt64}
  {e : Miniscript} {hash : List UInt8 → List UInt8} {opcode : UInt8} {image : List UInt8}

theorem Deniable.pos (h : Deniable (timesOf tx index) e) : 0 < ops e := by
  cases h <;> exact Nat.succ_pos _

end Denials

section Satisfaction

variable {prims : Primitives} {party : Party prims} {tx : Transaction} {index : ℕ} {script : List UInt8} {value : UInt64}
  {e : Miniscript}

theorem Sound.pos (h : Sound (timesOf tx index) e) : 0 < ops e := by
  cases h with
  | lock _ h => exact h.pos
  | _ => exact Nat.succ_pos _

end Satisfaction

section Outcomes

variable {prims : Primitives} {party : Party prims} {tx : Transaction} {index : ℕ} {script : List UInt8} {value : UInt64}
  {s : ScriptInterpreter}

variable {x z : Miniscript}

theorem Yields.run (h : Yields party tx index script value x) (ready : Ready script value s)
    (own : ∀ e ∈ s.stack, e ∈ party.elements) : Ensures (eval prims tx index x) s fun _ t =>
      Outcome party tx index script value x s.stack t.stack ∧ t.shouldExecute = true :=
  fun _ _ run => ⟨(h s ready own).apply run,
    (shouldExecute_of_eq ((keeps_eval x s).apply run).1).trans ready.executing⟩

theorem yields_orD (hx : Yields party tx index script value x) (hz : Yields party tx index script value z) :
    Yields party tx index script value (.orD x z) := by
  intro s ready own
  rw [eval, ensures_bind]
  have first : Ensures (eval prims tx index x) s fun _ t => Outcome party tx index script value x s.stack t.stack ∧
      t.conditionStack = s.conditionStack ∧ t.segwitContext = s.segwitContext :=
    fun _ t run => ⟨(hx s ready own).apply run, (keeps_eval x s).apply run⟩
  refine first.mono fun _ t left => ?_
  obtain ⟨⟨n, rest, small, hstack, suffix, holds, one⟩, branches, digest⟩ := left
  rw [ensures_bind]
  refine ensures_perform fun count => ensures_opIfdup hstack ?_
  have executing : t.shouldExecute = true := (shouldExecute_of_eq branches).trans ready.executing
  by_cases zero : n = 0
  · -- the second operand is executed, on what the first one left below its zero
    have fails : ScriptInterpreters.isTrue (num n) = false := by
      rw [zero]
      rfl
    have runs : { t with stack := num n :: rest, opCount := count }.shouldExecute = true := executing
    rw [if_neg (by rw [fails]; exact Bool.false_ne_true)]
    refine @ensures_branch _ (Outcome party tx index script value (.orD x z) s.stack) _ _ _ _ runs rfl
      (fun met => absurd met (by rw [fails]; exact Bool.false_ne_true))
      fun _ count' => ?_
    have ready' : Ready script value { t with stack := rest, opCount := count' } :=
      ⟨executing, digest.trans ready.context⟩
    refine (hz _ (ready_inBranch ready') fun x mem => own x (suffix.subset mem)).mono fun _ u left' => ?_
    obtain ⟨m, rest', small', hstack', suffix', holds', one'⟩ := left'
    refine ⟨m, rest', small', hstack', suffix'.trans suffix, fun ne => ?_, fun ones => one' ?_⟩
    · rw [Holds]
      exact .inr (holds' ne)
    · rw [unit, Bool.and_eq_true] at ones
      exact ones.2
  · have met : ScriptInterpreters.isTrue (num n) = true := (isTrue_num (by omega)).mpr zero
    have runs : { t with stack := num n :: num n :: rest, opCount := count }.shouldExecute = true := executing
    rw [if_pos met]
    refine @ensures_branch _ (Outcome party tx index script value (.orD x z) s.stack) _ _ _ _ runs rfl
      (fun _ => ?_) fun fails => absurd met (by rw [fails]; exact Bool.false_ne_true)
    refine ⟨n, rest, small, rfl, suffix, fun ne => ?_, fun ones => one ?_⟩
    · rw [Holds]
      exact .inl (holds ne)
    · rw [unit, Bool.and_eq_true] at ones
      exact ones.1

/-- The elements below are those of the party. -/
theorem Sound.yields {e : Miniscript} (h : Sound (timesOf tx index) e) : Yields party tx index script value e := by
  induction h with
  | pk key => exact yields_pk key
  | pkH hash => exact yields_pkH hash
  | lock e h =>
    obtain ⟨v, _, small, one, pushes⟩ := @Lock.pushes prims party tx index script value e h
    exact pushes.yields small fun ones => (one ones).le
  | sha256 hash => exact yields_of_hash (by rw [eval]; rfl) (by rw [Holds])
  | hash256 hash => exact yields_of_hash (by rw [eval]; rfl) (by rw [Holds])
  | hash160 hash => exact yields_of_hash (by rw [eval]; rfl) (by rw [Holds])
  | ripemd160 hash => exact yields_of_hash (by rw [eval]; rfl) (by rw [Holds])
  | multi k keys few =>
    have := k.toNat_lt
    exact yields_multi (by omega)
  | andB x y hx lock ih =>
    intro s ready own
    obtain ⟨v, pos, smallv, _, pushes⟩ := @Lock.pushes prims party tx index script value y lock
    rw [eval, ensures_bind]
    refine (Yields.run ih ready own).mono fun _ t ran => ?_
    obtain ⟨left, executing'⟩ := ran
    obtain ⟨n, rest, small, hstack, suffix, holds, _⟩ := left
    rw [ensures_bind]
    refine (pushes.fails t executing').mono fun _ u pushed => ?_
    refine ensures_perform fun count => ensures_binary (pushed.2.trans (by rw [hstack])) ?_
    rw [booland_num (by omega) (by omega)]
    by_cases zero : n = 0
    · exact ⟨0, rest, by omega, by rw [if_neg (by omega)], suffix, fun ne => absurd rfl ne, fun _ => by omega⟩
    · refine ⟨1, rest, by omega, by rw [if_pos (by omega)], suffix, fun _ => ?_, fun _ => by omega⟩
      rw [Holds]
      exact ⟨holds zero, pushed.1⟩
  | orB x z hx runs lock met ih =>
    intro s ready own
    obtain ⟨v, pos, smallv, _, pushes⟩ := @Lock.pushes prims party tx index script value z lock
    rw [eval, ensures_bind]
    refine (Yields.run ih ready own).mono fun _ t ran => ?_
    obtain ⟨left, executing'⟩ := ran
    obtain ⟨n, rest, small, hstack, suffix, _, _⟩ := left
    rw [ensures_bind]
    refine (pushes.fails t executing').mono fun _ u pushed => ?_
    refine ensures_perform fun count => ensures_binary (pushed.2.trans (by rw [hstack])) ?_
    rw [boolor_num (by omega) (by omega), if_pos (by omega)]
    refine ⟨1, rest, by omega, rfl, suffix, fun _ => ?_, fun _ => by omega⟩
    rw [Holds]
    exact .inr pushed.1
  | orD x z hx runs hz balanced ihx ihz => exact yields_orD ihx ihz
  | thresh k first rest h one locks ones all ih =>
    intro s ready own
    have hk := k.toNat_lt
    rw [eval, ensures_bind]
    refine (Yields.run ih ready own).mono fun _ t ran => ?_
    obtain ⟨left, executing'⟩ := ran
    obtain ⟨n, below, small, hstack, suffix, holds, single⟩ := left
    have pushes : ∀ l ∈ rest, Pushes party tx index script value l 1 := pushes_ones locks ones
    refine (fails_count pushes executing' hstack).mono fun _ s' counted => ?_
    have le := single one
    by_cases same : num (n + rest.length) = num k.toNat
    · have sum := num_injective (by omega) (by omega) same
      have size : (first :: rest).length = k.toNat := by
        rw [List.length_cons]
        omega
      rw [if_pos same] at counted
      refine ⟨1, below, by omega, counted.2, suffix, fun _ => (holds_thresh_all size).mpr ?_, fun _ => by omega⟩
      exact List.forall_mem_cons.mpr ⟨holds (by omega), counted.1⟩
    · rw [if_neg same] at counted
      exact ⟨0, below, by omega, counted.2, suffix, fun ne => absurd rfl ne, fun _ => by omega⟩
  | threshRest k first rest h deniable locks ones met count ih =>
    intro s ready own
    rw [eval, ensures_bind]
    refine (Yields.run ih ready own).mono fun _ t ran => ?_
    obtain ⟨left, executing'⟩ := ran
    obtain ⟨n, below, small, hstack, suffix, _, _⟩ := left
    have pushes : ∀ l ∈ rest, Pushes party tx index script value l 1 := pushes_ones locks ones
    refine (fails_count pushes executing' hstack).mono fun _ s' counted => ?_
    have holds : Holds party (timesOf tx index) (spendDigest tx index script value prims) (.thresh k (first :: rest)) := by
      have statements : ∀ p ∈ rest.map (Holds party (timesOf tx index) (spendDigest tx index script value prims)), p := by
        intro p hp
        obtain ⟨l, mem, rfl⟩ := List.mem_map.mp hp
        exact counted.1 l mem
      have others := atLeast_of_all statements
      rw [List.length_map, ← count] at others
      rw [Holds, holdsAll_eq, List.map_cons]
      exact others.skip
    by_cases same : num (n + rest.length) = num k.toNat
    · rw [if_pos same] at counted
      exact ⟨1, below, by omega, counted.2, suffix, fun _ => holds, fun _ => by omega⟩
    · rw [if_neg same] at counted
      exact ⟨0, below, by omega, counted.2, suffix, fun _ => holds, fun _ => by omega⟩

end Outcomes

end KuberCoin.MiniscriptSatisfactions
