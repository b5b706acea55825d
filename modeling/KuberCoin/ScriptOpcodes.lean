import KuberCoin.OrderedMatchings
import KuberCoin.ScriptHashSpends

/-!
What the opcodes that test an element and the multisignature opcode decide. The five
sites that ask whether an element is true are compared with the zero of sign and
magnitude; `op_checkmultisig` is compared with matchings that keep the order of keys and
signatures.
-/
namespace KuberCoin.ScriptOpcodes

open Bytes Transactions Sighashes FailingPrograms ScriptInterpreters ScriptRuns ScriptHashSpends
  OrderedMatchings

section Truth

/-- All bytes are zero, except that the last one may hold a sign. -/
def EncodesZero (x : List UInt8) : Prop :=
  ∃ n, x = List.replicate n 0 ∨ x = List.replicate n 0 ++ [0x80]

/-- The zero with a sign. -/
def NegativeZero (x : List UInt8) : Prop := ∃ n, x = List.replicate n 0 ++ [0x80]

/-- The five sites agree on the element on top of the stack, where opcodes execute. -/
structure OneTruth (truth : Prop) (x : List UInt8) (s : ScriptInterpreter) : Prop where
  takes_if : ∀ rest, s.stack = x :: rest → s.shouldExecute = true →
    (opIf s = .ok ((), { s with stack := rest, conditionStack := true :: s.conditionStack }) ↔ truth)
  skips_notif : ∀ rest, s.stack = x :: rest → s.shouldExecute = true →
    (opNotif s = .ok ((), { s with stack := rest, conditionStack := false :: s.conditionStack }) ↔
      truth)
  passes_verify : ∀ rest, s.stack = x :: rest →
    (opVerify s = .ok ((), { s with stack := rest }) ↔ truth)
  duplicates : ∀ rest, s.stack = x :: rest → (opIfdup s = push x s ↔ truth)
  top_true : ∀ rest, s.stack = x :: rest → (s.stackTopTrue = true ↔ truth)

variable {x : List UInt8} {rest : List (List UInt8)} {s : ScriptInterpreter}

theorem isTrue_eq_false_iff : ScriptInterpreters.isTrue x = false ↔ ∃ n, x = List.replicate n 0 := by
  constructor
  · intro h
    refine ⟨x.length, List.eq_replicate_iff.mpr ⟨rfl, fun b hb => ?_⟩⟩
    have hall : ∀ b ∈ x, b = 0 := by simpa [ScriptInterpreters.isTrue] using h
    exact hall b hb
  · rintro ⟨n, rfl⟩
    simp [ScriptInterpreters.isTrue]

theorem encodesZero_iff : EncodesZero x ↔ ScriptInterpreters.isTrue x = false ∨ NegativeZero x := by
  rw [isTrue_eq_false_iff]
  exact exists_or

theorem NegativeZero.isTrue (h : NegativeZero x) : ScriptInterpreters.isTrue x = true := by
  obtain ⟨n, rfl⟩ := h
  simp [ScriptInterpreters.isTrue]

theorem opIf_eq (hstack : s.stack = x :: rest) (hexec : s.shouldExecute = true) : opIf s = .ok ((), { s with
      stack := rest, conditionStack := ScriptInterpreters.isTrue x :: s.conditionStack }) := by
  rw [opIf, get_bind, hexec, if_pos rfl, bind_of_ok (pop_eq hstack)]
  rfl

theorem opNotif_eq (hstack : s.stack = x :: rest) (hexec : s.shouldExecute = true) : opNotif s = .ok ((), { s with
      stack := rest, conditionStack := (!ScriptInterpreters.isTrue x) :: s.conditionStack }) := by
  rw [opNotif, get_bind, hexec, if_pos rfl, bind_of_ok (pop_eq hstack)]
  rfl

theorem opVerify_eq (hstack : s.stack = x :: rest) :
    opVerify s = if ScriptInterpreters.isTrue x then .ok ((), { s with stack := rest })
      else .error .verifyFailed := by
  rw [opVerify, bind_of_ok (pop_eq hstack)]
  cases ScriptInterpreters.isTrue x <;> rfl

theorem opIfdup_eq (hstack : s.stack = x :: rest) :
    opIfdup s = if ScriptInterpreters.isTrue x then push x s else .ok ((), s) := by
  have hpeek : peek 0 s = .ok (x, s) := by
    rw [peek, get_bind, hstack]
    rfl
  rw [opIfdup, bind_of_ok hpeek]
  cases ScriptInterpreters.isTrue x <;> rfl

theorem push_ne_self (data : List UInt8) (s : ScriptInterpreter) : push data s ≠ .ok ((), s) := by
  intro h
  by_cases hshort : data.length ≤ maxElementSize
  · rw [push_eq hshort] at h
    split_ifs at h with hroom
    have hlen := congrArg (fun r : Except ScriptInterpreterError (Unit × ScriptInterpreter) =>
      (r.toOption.map fun p => p.2.stack.length)) h
    simp [ScriptInterpreter.pushData, Except.toOption] at hlen
  · rw [push, if_pos (by omega)] at h
    cases h

theorem stackTopTrue_eq (hstack : s.stack = x :: rest) :
    s.stackTopTrue = (ScriptInterpreters.isTrue x && decide (x ≠ [0x80])) := by
  rw [ScriptInterpreter.stackTopTrue, hstack]
  by_cases hneg : x = [0x80] <;> simp [hneg, ScriptInterpreters.isTrue]

theorem opcodes_agree (x : List UInt8) (s : ScriptInterpreter) (hshort : x ≠ [0x80]) :
    OneTruth (ScriptInterpreters.isTrue x = true) x s where
  takes_if rest hstack hexec := by
    rw [opIf_eq hstack hexec]
    cases ScriptInterpreters.isTrue x <;> simp
  skips_notif rest hstack hexec := by
    rw [opNotif_eq hstack hexec]
    cases ScriptInterpreters.isTrue x <;> simp
  passes_verify rest hstack := by
    rw [opVerify_eq hstack]
    cases ScriptInterpreters.isTrue x <;> simp
  duplicates rest hstack := by
    rw [opIfdup_eq hstack]
    cases ScriptInterpreters.isTrue x with
    | false => simpa using (push_ne_self x s).symm
    | true => simp
  top_true rest hstack := by
    rw [stackTopTrue_eq hstack]
    simp [hshort]

/-- The sites share one notion of truth, that of a number other than zero, on every element
but a zero with a sign. -/
theorem one_truth_iff (x : List UInt8) : (∀ s, OneTruth (¬ EncodesZero x) x s) ↔ ¬ NegativeZero x := by
  rw [encodesZero_iff]
  constructor
  · intro h hneg
    have hif := (h ⟨[x], [], [], 0, none, none⟩).takes_if [] rfl rfl
    rw [opIf_eq rfl rfl, hneg.isTrue] at hif
    exact hif.mp rfl (.inr hneg)
  · intro h s
    have hshort : x ≠ [0x80] := fun heq => h ⟨0, heq⟩
    have htruth : ¬ (ScriptInterpreters.isTrue x = false ∨ NegativeZero x) ↔
        ScriptInterpreters.isTrue x = true := by
      simp [h]
    rw [htruth]
    exact opcodes_agree x s hshort

/-- `OP_IF` takes its branch on a zero with a sign, and the end of a script does not. -/
theorem negative_zero_two_truths : ¬ ∀ (x : List UInt8) (s : ScriptInterpreter), OneTruth (¬ EncodesZero x) x s := by
  intro h
  have hone := h [0x80] ⟨[[0x80]], [], [], 0, none, none⟩
  have hif := hone.takes_if [] rfl rfl
  exact hif.mp rfl ⟨0, .inr rfl⟩

end Truth

section Multisig

variable {prims : Primitives} {tx : Transaction} {index : ℕ} {s : ScriptInterpreter}
  {keys sigs rest : List (List UInt8)} {sighash : Bytes32}

/-- A key verifies a signature, as a relation. -/
def Signs (prims : Primitives) (sighash : Bytes32) (key sig : List UInt8) : Prop :=
  signs prims sighash key sig = true

instance (key sig : List UInt8) : Decidable (Signs prims sighash key sig) :=
  inferInstanceAs (Decidable (_ = true))

theorem filter_dropWhile_empty (sigs : List (List UInt8)) :
    (sigs.dropWhile (· = [])).filter (· ≠ []) = sigs.filter (· ≠ []) := by
  induction sigs with
  | nil => rfl
  | cons sig sigs ih =>
    by_cases h : sig = []
    · rw [List.dropWhile_cons_of_pos (by simpa using h), ih, List.filter_cons_of_neg (by simpa using h)]
    · rw [List.dropWhile_cons_of_neg (by simpa using h)]

/-- The two cursors serve the signatures that are not empty greedily. -/
theorem validSigs_eq (keys sigs : List (List UInt8)) : validSigs prims sighash keys sigs =
      greedy (Signs prims sighash) keys (sigs.filter (· ≠ [])) := by
  induction keys generalizing sigs with
  | nil => rfl
  | cons key keys ih =>
    rw [validSigs, ← filter_dropWhile_empty]
    cases hdrop : sigs.dropWhile (· = []) with
    | nil => rfl
    | cons sig others =>
      have hne : sig ≠ [] := by
        have := List.head?_dropWhile_not (· = []) sigs
        rw [hdrop] at this
        simpa using this
      have hkeep := ih (sig :: others)
      rw [List.filter_cons_of_pos (by simpa using hne)] at hkeep ⊢
      simp only [greedy, ih others, hkeep]
      rfl

theorem validSigs_ge_iff (keys sigs : List (List UInt8)) : validSigs prims sighash keys sigs ≥ sigs.length ↔
      (∀ sig ∈ sigs, sig ≠ []) ∧ OrderedMatching (Signs prims sighash) keys sigs := by
  have hle := greedy_le (Signs prims sighash) keys (sigs.filter (· ≠ []))
  rw [validSigs_eq]
  by_cases hall : ∀ sig ∈ sigs, sig ≠ []
  · have hfilter : sigs.filter (· ≠ []) = sigs :=
      List.filter_eq_self.mpr fun sig hsig => decide_eq_true (hall sig hsig)
    rw [hfilter] at hle ⊢
    rw [← greedy_eq_length_iff]
    constructor
    · exact fun h => ⟨hall, by omega⟩
    · exact fun h => h.2.ge
  · refine iff_of_false ?_ fun h => hall h.1
    push Not at hall
    obtain ⟨sig, hsig, hempty⟩ := hall
    have hlt : (sigs.filter (· ≠ [])).length < sigs.length :=
      List.length_filter_lt_length_iff_exists.mpr ⟨sig, hsig, by simp [hempty]⟩
    omega

theorem popMany_eq (items rest : List (List UInt8)) (s : ScriptInterpreter) (hstack : s.stack = items ++ rest) :
    popMany items.length s = .ok (items, { s with stack := rest }) := by
  induction items generalizing s with
  | nil =>
    cases hstack
    rfl
  | cons item items ih =>
    rw [List.length_cons, popMany, bind_of_ok (pop_eq hstack), bind_of_ok (ih _ rfl)]
    rfl

theorem popInt_eq {top : List UInt8} {value : Int64} (hstack : s.stack = top :: rest)
    (hvalue : bytesToInt top = .ok value) : popInt s = .ok (value, { s with stack := rest }) := by
  rw [popInt, bind_of_ok (pop_eq hstack), hvalue]
  rfl

theorem asUsize_ofNat {n : ℕ} (h : n ≤ 20) : asUsize (Int64.ofNat n) = n := by
  interval_cases n <;> rfl

theorem opCheckmultisig_eq {nVal mVal : List UInt8} (hstack : s.stack = nVal :: (keys ++ mVal :: (sigs ++ [] :: rest)))
    (hn : bytesToInt nVal = .ok (Int64.ofNat keys.length)) (hm : bytesToInt mVal = .ok (Int64.ofNat sigs.length))
    (hle : sigs.length ≤ keys.length) (hmax : keys.length ≤ 20)
    (hdigest : contextDigest prims tx index s = .ok sighash) : opCheckmultisig prims tx index s =
      push (if validSigs prims sighash keys sigs ≥ sigs.length then [1] else [])
        { s with stack := rest } := by
  have hdigest' : contextDigest prims tx index { s with stack := rest } = .ok sighash := hdigest
  rw [opCheckmultisig, bind_of_ok (popInt_eq hstack hn), asUsize_ofNat hmax, if_neg (by omega)]
  beta_reduce
  rw [bind_of_ok (popMany_eq keys _ _ rfl), bind_of_ok (popInt_eq rfl hm),
    asUsize_ofNat (hle.trans hmax), if_neg (by omega)]
  beta_reduce
  rw [bind_of_ok (popMany_eq sigs _ _ rfl), bind_of_ok (pop_eq rfl), if_neg (not_not.mpr rfl)]
  beta_reduce
  rw [get_bind, hdigest']
  rfl

/-- `OP_CHECKMULTISIG` decides whether the signatures, in the order they were pushed, can be
given keys in the order these were pushed. -/
theorem checkmultisig_decides_matching (prims : Primitives) (tx : Transaction) (index : ℕ) (s : ScriptInterpreter)
    (keys sigs rest : List (List UInt8)) (nVal mVal : List UInt8) (sighash : Bytes32)
    (hstack : s.stack = nVal :: (keys.reverse ++ mVal :: (sigs.reverse ++ [] :: rest)))
    (hn : bytesToInt nVal = .ok (Int64.ofNat keys.length)) (hm : bytesToInt mVal = .ok (Int64.ofNat sigs.length))
    (hle : sigs.length ≤ keys.length) (hmax : keys.length ≤ 20)
    (hdigest : contextDigest prims tx index s = .ok sighash) :
    s.stack.length = sigs.length + keys.length + 3 + rest.length ∧
    ∃ matched : Bool,
      opCheckmultisig prims tx index s =
        push (if matched then [1] else []) { s with stack := rest } ∧
      (matched = true ↔ (∀ sig ∈ sigs, sig ≠ []) ∧
        ∃ f : Fin sigs.length → Fin keys.length, StrictMono f ∧
          ∀ i, signs prims sighash (keys.get (f i)) (sigs.get i) = true) := by
  refine ⟨?_, decide (validSigs prims sighash keys.reverse sigs.reverse ≥ sigs.length), ?_, ?_⟩
  · simp only [hstack, List.length_cons, List.length_append, List.length_reverse]
    omega
  · have hkeys : keys.reverse.length = keys.length := List.length_reverse
    have hsigs : sigs.reverse.length = sigs.length := List.length_reverse
    rw [← hkeys] at hn hle hmax
    rw [← hsigs] at hm hle
    have hrun := opCheckmultisig_eq hstack hn hm hle hmax hdigest
    rw [hsigs] at hrun
    simpa using hrun
  · have hge := @validSigs_ge_iff prims sighash keys.reverse sigs.reverse
    rw [List.length_reverse, orderedMatching_reverse, orderedMatching_iff_strictMono] at hge
    rw [decide_eq_true_iff, hge]
    simp only [List.mem_reverse]
    rfl

/-- A curve on which a key verifies itself. -/
def echo : Primitives :=
  { keyless with
    publicKey := fun _ => .ok ()
    fromDer := fun _ => .ok ()
    verifyEcdsa := fun key sig _ => key = sig }

/-- The first and the last of three keys sign, in this order. -/
def twoOfThree : ScriptInterpreter :=
  { ScriptInterpreter.new with
    stack := [3] :: ([[7], [6], [5]] ++ [2] :: ([[7, 1], [5, 1]] ++ [] :: [[9]])) }

theorem two_of_three_matches : opCheckmultisig echo opOneTx 0 twoOfThree =
      .ok ((), { ScriptInterpreter.new with stack := [[1], [9]] }) := by
  obtain ⟨sighash, hdigest⟩ : ∃ sighash, contextDigest echo opOneTx 0 twoOfThree = .ok sighash := by
    obtain ⟨digest, hdigest⟩ := @signatureHash_of_input echo opOneTx 0 opOneInput rfl
    refine ⟨digest, ?_⟩
    change (signatureHash echo.sha256 opOneTx 0).mapError .transaction = .ok digest
    rw [hdigest]
    rfl
  obtain ⟨-, matched, hrun, hmatched⟩ := checkmultisig_decides_matching echo opOneTx 0 twoOfThree
    [[5], [6], [7]] [[5, 1], [7, 1]] [[9]] [3] [2] sighash rfl rfl rfl (by decide) (by decide) hdigest
  have htrue : matched = true := by
    refine hmatched.mpr ⟨by decide, ![0, 2], by decide, ?_⟩
    intro i
    fin_cases i <;> rfl
  rw [hrun, htrue]
  rfl

end Multisig

end KuberCoin.ScriptOpcodes
