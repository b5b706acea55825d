import KuberCoin.Miniscripts
import KuberCoin.TaprootDigests

/-!
What a Miniscript expression asks for, and what its script can leave on the stack. A party is
known by the elements it can put into a witness. Whatever elements the script of a fragment is run
on, what it leaves is zero unless the party meets the policy of the fragment.
-/
namespace KuberCoin.MiniscriptPolicies

open Bytes Transactions Sighashes Validator InputScripts FailingPrograms ScriptInterpreters ScriptRuns ScriptLimits
  PayToScriptHash ScriptHashSpends ScriptNumbers Miniscripts TaprootDigests

section Policies

/-- The four functions an expression may ask a preimage of. -/
def hashFunctions (prims : Primitives) : List (List UInt8 → List UInt8) :=
  [fun x => (prims.sha256 x).bytes, fun x => (prims.sha256 (prims.sha256 x).bytes).bytes,
   fun x => prims.ripemd160 (prims.sha256 x).bytes, prims.ripemd160]

/-- A party, by the elements it can put into a witness. Everybody can write the empty element and
32 bytes that are no preimage, and whoever has a signature has the one with the low S. -/
structure Party (prims : Primitives) where
  elements : Set (List UInt8)
  sized : ∀ x ∈ elements, x.length < 2 ^ 64
  empty : [] ∈ elements
  wrongPreimage : ∀ hash ∈ hashFunctions prims, ∀ image, ∃ x ∈ elements, x.length = 32 ∧ hash x ≠ image
  normalizes : ∀ digest key, ∀ sig ∈ elements, sig ≠ [] → signs prims digest key sig = true →
    ∃ low ∈ elements, low ≠ [] ∧ signs prims digest key low = true ∧ prims.lowS low.dropLast = true

/-- BIP-65: the input is not final, and the lock time of the transaction is of the same kind and
not before `n`. -/
def AfterMet (tx : Transaction) (index : ℕ) (n : UInt32) : Prop :=
  tx.inputs[index]?.map TxInput.sequence ≠ some 0xffffffff ∧
    (locktimeThreshold ≤ n.toNat ↔ locktimeThreshold ≤ tx.lockTime.toNat) ∧ n.toNat ≤ tx.lockTime.toNat

/-- BIP-112: the number disables the lock, or the sequence of the input is of the same kind and
not below it. -/
def OlderMet (tx : Transaction) (index : ℕ) (n : UInt32) : Prop :=
  n &&& sequenceDisableFlag ≠ 0 ∨ ∃ input, tx.inputs[index]? = some input ∧
    input.sequence &&& sequenceDisableFlag = 0 ∧
      (n &&& sequenceTypeFlag ≠ 0 ↔ input.sequence &&& sequenceTypeFlag ≠ 0) ∧
        n &&& sequenceMask ≤ input.sequence &&& sequenceMask

/-- The lock numbers that are met. -/
structure Times where
  older : UInt32 → Prop
  after : UInt32 → Prop

def timesOf (tx : Transaction) (index : ℕ) : Times := ⟨OlderMet tx index, AfterMet tx index⟩

/-- So many of the statements hold. -/
def AtLeast (k : ℕ) (statements : List Prop) : Prop :=
  ∃ chosen : List Prop, chosen.Sublist statements ∧ chosen.length = k ∧ ∀ p ∈ chosen, p

variable {prims : Primitives} (party : Party prims) (times : Times) (digest : Except String Bytes32)

/-- The party has a signature of the digest. -/
def CanSign (key : List UInt8) : Prop :=
  ∃ d, digest = .ok d ∧ ∃ sig ∈ party.elements, sig ≠ [] ∧ signs prims d key sig = true

/-- The party has a preimage of 32 bytes. -/
def Knows (hash : List UInt8 → List UInt8) (image : List UInt8) : Prop :=
  ∃ x ∈ party.elements, x.length = 32 ∧ hash x = image

mutual

/-- The policy of an expression holds for a party, at these times. -/
def Holds : Miniscript → Prop
  | .pk key => CanSign party digest key
  | .pkH hash => ∃ key ∈ party.elements, prims.ripemd160 (prims.sha256 key).bytes = hash ∧ CanSign party digest key
  | .older n => times.older n
  | .after n => times.after n
  | .sha256 hash => Knows party (fun x => (prims.sha256 x).bytes) hash.bytes
  | .hash256 hash => Knows party (fun x => (prims.sha256 (prims.sha256 x).bytes).bytes) hash.bytes
  | .hash160 hash => Knows party (fun x => prims.ripemd160 (prims.sha256 x).bytes) hash.bytes
  | .ripemd160 hash => Knows party prims.ripemd160 hash.bytes
  | .andV x y => Holds x ∧ Holds y
  | .andB x y => Holds x ∧ Holds y
  | .orB x z => Holds x ∨ Holds z
  | .orD x z => Holds x ∨ Holds z
  | .thresh k subs => AtLeast k.toNat (holdsAll subs)
  | .multi k keys => AtLeast k.toNat (keys.map (CanSign party digest))
  | .just _ => False

def holdsAll : List Miniscript → List Prop
  | [] => []
  | sub :: rest => Holds sub :: holdsAll rest

end

/-- The policy holds for everybody. -/
def Sure (times : Times) (e : Miniscript) : Prop :=
  ∀ (prims : Primitives) (party : Party prims) (digest : Except String Bytes32), Holds party times digest e

/-- What the expression leaves when it holds is the number one. -/
def unit : Miniscript → Bool
  | .older n => n = 1
  | .after n => n = 1
  | .orD x z => unit x && unit z
  | _ => true

end Policies

section Counting

variable {k : ℕ} {p : Prop} {statements : List Prop}

theorem atLeast_zero : AtLeast 0 statements := ⟨[], List.nil_sublist _, rfl, fun _ h => by cases h⟩

theorem AtLeast.skip (h : AtLeast k statements) : AtLeast k (p :: statements) := by
  obtain ⟨chosen, sub, size, all⟩ := h
  exact ⟨chosen, sub.cons p, size, all⟩

theorem AtLeast.take (hp : p) (h : AtLeast k statements) : AtLeast (k + 1) (p :: statements) := by
  obtain ⟨chosen, sub, size, all⟩ := h
  exact ⟨p :: chosen, sub.cons_cons p, by simp [size], List.forall_mem_cons.mpr ⟨hp, all⟩⟩

theorem AtLeast.mono {j : ℕ} (h : AtLeast k statements) (le : j ≤ k) : AtLeast j statements := by
  obtain ⟨chosen, sub, size, all⟩ := h
  refine ⟨chosen.take j, (List.take_sublist j chosen).trans sub, by simp [size, le], fun p hp => ?_⟩
  exact all p (List.mem_of_mem_take hp)

theorem AtLeast.reverse (h : AtLeast k statements) : AtLeast k statements.reverse := by
  obtain ⟨chosen, sub, size, all⟩ := h
  exact ⟨chosen.reverse, sub.reverse, by simp [size], fun p hp => all p (List.mem_reverse.mp hp)⟩

theorem AtLeast.all (h : AtLeast k statements) (enough : statements.length ≤ k) : ∀ p ∈ statements, p := by
  obtain ⟨chosen, sub, size, all⟩ := h
  rwa [← sub.eq_of_length_le (by omega)]

theorem atLeast_of_all (h : ∀ p ∈ statements, p) : AtLeast statements.length statements :=
  ⟨statements, List.Sublist.refl _, rfl, h⟩

end Counting

section Steps

variable {s : ScriptInterpreter} {m n : ℕ} {a b data : List UInt8} {opcode : UInt8} {op : Op Unit} {v : Int64}
  {rest : List (List UInt8)}

/-- The number as scripts write it. -/
def num (n : ℕ) : List UInt8 := intToBytes (Int64.ofNat n)

theorem num_zero : num 0 = [] := by decide

theorem num_one : num 1 = [1] := by decide

theorem length_num (n : ℕ) : (num n).length ≤ maxElementSize := by
  have := length_intToBytes (Int64.ofNat n)
  unfold num maxElementSize
  omega

theorem ofNat_injective (hm : m < 2 ^ 64) (hn : n < 2 ^ 64) (h : Int64.ofNat m = Int64.ofNat n) : m = n := by
  have hbits := congrArg (fun v : Int64 => v.toBitVec.toNat) h
  simp only [Int64.toBitVec_ofNat', BitVec.toNat_ofNat] at hbits
  rwa [Nat.mod_eq_of_lt hm, Nat.mod_eq_of_lt hn] at hbits

theorem num_injective (hm : m < 2 ^ 64) (hn : n < 2 ^ 64) (h : num m = num n) : m = n :=
  ofNat_injective hm hn (intToBytes_injective h)

theorem isTrue_num (hn : n < 2 ^ 64) : ScriptInterpreters.isTrue (num n) = true ↔ n ≠ 0 := by
  constructor
  · rintro htrue rfl
    rw [num_zero] at htrue
    cases htrue
  · intro hne
    refine (truth_intToBytes fun hzero => hne ?_).1
    exact ofNat_injective hn (by omega) hzero

theorem bytesToInt_num (n : ℕ) : bytesToInt (num n) = .ok (Int64.ofNat n) := bytesToInt_intToBytes _

theorem push_ok (short : data.length ≤ maxElementSize) (room : s.stack.length < maxStackSize) :
    push data s = .ok ((), { s with stack := data :: s.stack }) := by
  rw [push_eq short, if_pos room]
  rfl

theorem countOp_high (high : opcode > 0x60) (count : s.opCount < maxOpsPerScript) :
    countOp opcode s = .ok ((), { s with opCount := s.opCount + 1 }) := by
  rw [countOp, if_pos high, get_bind, if_neg (by omega)]
  rfl

theorem perform_ok (high : opcode > 0x60) (count : s.opCount < maxOpsPerScript) :
    perform opcode op s = op { s with opCount := s.opCount + 1 } := bind_of_ok (countOp_high high count)

theorem lift_ok {α : Type} {x : Except ScriptInterpreterError α} {a : α} (h : x = .ok a) :
    (liftM x : Op α) s = .ok (a, s) := by
  rw [h]
  rfl

theorem pushElement_eq (h : data.length ≠ 1) : pushElement data = push data := by
  rw [pushElement, if_neg fun refused => h refused.1]

theorem bytesToInt_coded (b : UInt8) : b ≤ 16 ∨ b = 0x81 →
    bytesToInt [b] = .ok 0 ∨ bytesToInt [b] = .ok (-1) ∨
      (bytesToInt [b] = .ok (Int64.ofNat b.toNat) ∧ 1 ≤ Int64.ofNat b.toNat ∧ Int64.ofNat b.toNat ≤ 16) := by
  revert b
  exact byte_forall (by decide +kernel)

theorem pushNumber_eq (h : v ≠ -1) : pushNumber v = push (intToBytes v) := by
  rw [pushNumber]
  split
  next => rfl
  next notSmall =>
    rw [pushElement, if_neg]
    rintro ⟨single, coded⟩
    obtain ⟨b, hb⟩ := List.length_eq_one_iff.mp single
    have hback := bytesToInt_intToBytes v
    rw [hb] at hback coded
    rcases bytesToInt_coded b coded with hzero | hminus | ⟨hvalue, hsmall⟩
    · rw [hback, Except.ok.injEq] at hzero
      rw [hzero] at hb
      cases hb
    · rw [hback, Except.ok.injEq] at hminus
      exact h hminus
    · rw [hback, Except.ok.injEq] at hvalue
      rw [hvalue] at notSmall
      exact notSmall hsmall

variable {Q : Unit → ScriptInterpreter → Prop}

theorem ensures_pushElement (h : Q () { s with stack := data :: s.stack }) : Ensures (pushElement data) s Q := by
  unfold pushElement
  rw [ensures_ite, ensures_push]
  exact ⟨fun _ => ensures_throw.mpr trivial, fun _ _ _ => h⟩

theorem ensures_pushNumber (h : Q () { s with stack := intToBytes v :: s.stack }) : Ensures (pushNumber v) s Q := by
  unfold pushNumber
  rw [ensures_ite, ensures_push]
  exact ⟨fun _ _ _ => h, fun _ => ensures_pushElement h⟩

theorem ensures_perform (h : ∀ n, Ensures op { s with opCount := n } Q) : Ensures (perform opcode op) s Q := by
  rw [perform, ensures_bind]
  exact ensures_countOp_of h

theorem ensures_opEqual (hstack : s.stack = b :: a :: rest)
    (h : Q () { s with stack := (if a = b then num 1 else num 0) :: rest }) : Ensures opEqual s Q := by
  unfold opEqual
  simp only [ensures_bind, ensures_pop, hstack, List.cons.injEq, ensures_push]
  rintro _ _ ⟨rfl, rfl⟩ _ _ ⟨rfl, rfl⟩ _ _
  rwa [num_one, num_zero] at h

theorem ensures_opEqualverify (hstack : s.stack = b :: a :: rest) (h : a = b → Q () { s with stack := rest }) :
    Ensures opEqualverify s Q := by
  unfold opEqualverify
  rw [ensures_bind]
  refine ensures_opEqual hstack ?_
  unfold opVerify
  simp only [ensures_bind, ensures_pop, List.cons.injEq]
  rintro _ _ ⟨rfl, rfl⟩
  by_cases same : a = b
  · rw [if_pos same, num_one]
    simpa [ScriptInterpreters.isTrue] using h same
  · rw [if_neg same, num_zero]
    simp [ScriptInterpreters.isTrue]

theorem ensures_hashTop {hash : List UInt8 → List UInt8} {top : List UInt8} (hstack : s.stack = top :: rest)
    (h : Q () { s with stack := hash top :: rest }) : Ensures (hashTop hash) s Q := by
  unfold hashTop
  simp only [ensures_bind, ensures_pop, hstack, List.cons.injEq, ensures_push]
  rintro _ _ ⟨rfl, rfl⟩ _ _
  exact h

theorem ensures_binary {f : Int64 → Int64 → Int64} {a b : ℕ} (hstack : s.stack = num b :: num a :: rest)
    (h : Q () { s with stack := intToBytes (f (Int64.ofNat a) (Int64.ofNat b)) :: rest }) : Ensures (binary f) s Q := by
  unfold binary
  simp only [ensures_bind, ensures_pop, hstack, List.cons.injEq, ensures_lift, ensures_push]
  rintro _ _ ⟨rfl, rfl⟩ _ _ ⟨rfl, rfl⟩ y hy x hx _ _
  rw [bytesToInt_num, Except.ok.injEq] at hx hy
  rw [← hx, ← hy]
  exact h

end Steps

section Specs

variable {prims : Primitives} (party : Party prims) (tx : Transaction) (index : ℕ) (script : List UInt8) (value : UInt64)

/-- The digest of a spend with this script. -/
def spendDigest (prims : Primitives) : Except String Bytes32 := segwitV0SignatureHash prims.sha256 tx index script value

/-- The interpreter executes, and signatures sign the digest of the spend. -/
structure Ready (s : ScriptInterpreter) : Prop where
  executing : s.shouldExecute = true
  context : s.segwitContext = some ⟨script, value⟩

/-- Of the elements some are replaced by a number, which is zero unless the policy holds. -/
abbrev Outcome (e : Miniscript) (elements stack : List (List UInt8)) : Prop :=
  ∃ n rest, n < 2 ^ 32 ∧ stack = num n :: rest ∧ rest <:+ elements ∧
    (n ≠ 0 → Holds party (timesOf tx index) (spendDigest tx index script value prims) e) ∧ (unit e = true → n ≤ 1)

/-- The outcome of the expression on whatever elements of the party. -/
def Yields (e : Miniscript) : Prop :=
  ∀ s, Ready script value s → (∀ x ∈ s.stack, x ∈ party.elements) →
    Ensures (eval prims tx index e) s fun _ s' => Outcome party tx index script value e s.stack s'.stack

end Specs

section Fragments

variable {prims : Primitives} {party : Party prims} {tx : Transaction} {index : ℕ} {script : List UInt8} {value : UInt64}
  {s : ScriptInterpreter} {d : Bytes32} {image key sig : List UInt8} {opcode : UInt8} {hash : List UInt8 → List UInt8}
  {n : ℕ} {k : UInt64} {keys : List (List UInt8)}

theorem contextDigest_ready (h : Ready script value s) :
    contextDigest prims tx index s = .ok d ↔ spendDigest tx index script value prims = .ok d := by
  unfold contextDigest
  rw [h.context]
  exact mapError_eq_ok

theorem toBool_iff {x : Except String Unit} : x.toBool = true ↔ x = .ok () := by
  cases x with
  | error e => exact iff_of_false (by simp [Except.toBool]) (by simp)
  | ok u => exact iff_of_true rfl rfl

theorem signs_iff : signs prims d key sig = true ↔
    prims.publicKey key = .ok () ∧ prims.fromDer sig.dropLast = .ok () ∧
      prims.verifyEcdsa key sig.dropLast d = true := by
  rw [signs, Bool.and_eq_true, Bool.and_eq_true, toBool_iff, toBool_iff, and_assoc]

theorem checkSignature_of_digest {result : Except String Bytes32}
    (h : ∀ d, contextDigest prims tx index s = .ok d ↔ result = .ok d) :
    checkSignature prims tx index s key sig = .ok () ↔
      ∃ d, result = .ok d ∧ signs prims d key sig = true ∧ prims.lowS sig.dropLast = true := by
  unfold checkSignature
  simp only [except_bind_eq_ok, h, mapError_eq_ok, check_eq_ok, signs_iff]
  constructor
  · rintro ⟨d, digest, ⟨⟩, keyed, ⟨⟩, parsed, low, verified⟩
    refine ⟨d, digest, ⟨keyed, parsed, ?_⟩, by simpa using low⟩
    cases hverify : prims.verifyEcdsa key sig.dropLast d with
    | true => rfl
    | false =>
      rw [hverify] at verified
      cases verified
  · rintro ⟨d, digest, ⟨keyed, parsed, verified⟩, low⟩
    refine ⟨d, digest, (), keyed, (), parsed, by simp [low], ?_⟩
    rw [verified]
    rfl

theorem checkSignature_ready (h : Ready script value s) : checkSignature prims tx index s key sig = .ok () ↔
      ∃ d, spendDigest tx index script value prims = .ok d ∧ signs prims d key sig = true ∧
        prims.lowS sig.dropLast = true :=
  checkSignature_of_digest fun _ => contextDigest_ready h

theorem ensures_opChecksig {key : List UInt8} {below : List (List UInt8)} (hstack : s.stack = key :: below) :
    Ensures (opChecksig prims tx index) s fun _ s' => ∃ sig rest, below = sig :: rest ∧
      (s'.stack = [] :: rest ∨ s'.stack = [1] :: rest ∧ sig ≠ [] ∧
        checkSignature prims tx index { s with stack := rest } key sig = .ok ()) := by
  unfold opChecksig
  simp only [ensures_bind, ensures_pop, hstack, List.cons.injEq]
  rintro _ _ ⟨rfl, rfl⟩ sig rest rfl
  rw [ensures_ite, ensures_push, ensures_bind, ensures_get, ensures_bind, ensures_lift]
  refine ⟨fun _ _ _ => ⟨sig, rest, rfl, .inl rfl⟩, fun signed _ ok => ?_⟩
  rw [ensures_push]
  exact fun _ _ => ⟨sig, rest, rfl, .inr ⟨rfl, signed, ok⟩⟩

theorem checksig_result (ready : Ready script value s) {key : List UInt8} {below : List (List UInt8)}
    (hstack : s.stack = key :: below) :
    Ensures (opChecksig prims tx index) s fun _ s' => ∃ sig rest, below = sig :: rest ∧
      (s'.stack = num 0 :: rest ∨ s'.stack = num 1 :: rest ∧ sig ≠ [] ∧
        ∃ d, spendDigest tx index script value prims = .ok d ∧ signs prims d key sig = true) := by
  refine (ensures_opChecksig hstack).mono ?_
  rintro _ s' ⟨sig, rest, rfl, empty | ⟨one, signed, ok⟩⟩
  · exact ⟨sig, rest, rfl, .inl empty⟩
  · have ready' : Ready script value { s with stack := rest } := ⟨ready.executing, ready.context⟩
    obtain ⟨d, digest, verified, _⟩ := (checkSignature_ready ready').mp ok
    exact ⟨sig, rest, rfl, .inr ⟨by rw [one, num_one], signed, d, digest, verified⟩⟩

theorem yields_pk (key : List UInt8) : Yields party tx index script value (.pk key) := by
  intro s ready own
  rw [eval, ensures_bind]
  refine ensures_pushElement (ensures_perform fun count => ?_)
  have result := @checksig_result prims tx index script value { s with stack := key :: s.stack, opCount := count }
    ⟨ready.executing, ready.context⟩ key s.stack rfl
  refine result.mono fun _ s' left => ?_
  obtain ⟨sig, rest, hstack, zero | ⟨one, signed, d, digest, verified⟩⟩ := left
  · exact ⟨0, rest, by omega, zero, ⟨[sig], hstack.symm⟩, fun h => absurd rfl h, fun _ => by omega⟩
  · refine ⟨1, rest, by omega, one, ⟨[sig], hstack.symm⟩, fun _ => ?_, fun _ => by omega⟩
    rw [Holds]
    exact ⟨d, digest, sig, own sig (by rw [hstack]; exact List.mem_cons_self), signed, verified⟩

theorem yields_pkH (hash : List UInt8) : Yields party tx index script value (.pkH hash) := by
  intro s ready own
  rw [eval, ensures_bind]
  refine ensures_perform fun count => ?_
  unfold opDup
  simp only [ensures_bind, ensures_peek, ensures_push]
  intro key hkey _ _
  obtain ⟨below, hstack⟩ : ∃ below, s.stack = key :: below := by
    cases hs : s.stack with
    | nil => simp [hs] at hkey
    | cons top below => exact ⟨below, by simpa [hs] using hkey⟩
  refine ensures_perform fun count => ensures_hashTop rfl ?_
  refine ensures_pushElement (ensures_perform fun count => ensures_opEqualverify rfl fun hashed => ?_)
  refine ensures_perform fun count => ?_
  have result := @checksig_result prims tx index script value { s with opCount := count }
    ⟨ready.executing, ready.context⟩ key below hstack
  refine result.mono fun _ s' left => ?_
  obtain ⟨sig, rest, hbelow, zero | ⟨one, signed, d, digest, verified⟩⟩ := left
  · exact ⟨0, rest, by omega, zero, ⟨[key, sig], by rw [hstack, hbelow]; rfl⟩, fun h => absurd rfl h, fun _ => by omega⟩
  · refine ⟨1, rest, by omega, one, ⟨[key, sig], by rw [hstack, hbelow]; rfl⟩, fun _ => ?_, fun _ => by omega⟩
    rw [Holds]
    exact ⟨key, own key (by simp [hstack]), hashed, d, digest, sig, own sig (by simp [hstack, hbelow]), signed, verified⟩

theorem evalHash_result (own : ∀ x ∈ s.stack, x ∈ party.elements) :
    Ensures (evalHash opcode (hashTop hash) image) s fun _ s' => ∃ n rest, n < 2 ^ 32 ∧ s'.stack = num n :: rest ∧
      rest <:+ s.stack ∧ (n ≠ 0 → Knows party hash image) ∧ n ≤ 1 := by
  rw [evalHash, ensures_bind]
  refine ensures_perform fun count => ?_
  unfold opSize
  simp only [ensures_bind, ensures_peek, ensures_push]
  intro x hx _ _
  obtain ⟨below, hstack⟩ : ∃ below, s.stack = x :: below := by
    cases hs : s.stack with
    | nil => simp [hs] at hx
    | cons top below => exact ⟨below, by simpa [hs] using hx⟩
  have mine := own x (by simp [hstack])
  refine ensures_pushNumber (ensures_perform fun count => ensures_opEqualverify rfl fun size => ?_)
  have length : x.length = 32 := ofNat_injective (party.sized x mine) (by omega) (intToBytes_injective size)
  refine ensures_perform fun count => ensures_hashTop hstack ?_
  refine ensures_pushElement (ensures_perform fun count => ensures_opEqual rfl ?_)
  have suffix : below <:+ s.stack := ⟨[x], hstack.symm⟩
  by_cases same : hash x = image
  · rw [if_pos same]
    exact ⟨1, below, by omega, rfl, suffix, fun _ => ⟨x, mine, length, same⟩, by omega⟩
  · rw [if_neg same]
    exact ⟨0, below, by omega, rfl, suffix, fun h => absurd rfl h, by omega⟩

theorem yields_of_hash {e : Miniscript} (heval : eval prims tx index e = evalHash opcode (hashTop hash) image)
    (hholds : Holds party (timesOf tx index) (spendDigest tx index script value prims) e = Knows party hash image) :
    Yields party tx index script value e := by
  intro s _ own
  rw [heval]
  unfold Outcome
  rw [hholds]
  refine (evalHash_result own).mono fun _ s' left => ?_
  obtain ⟨n, rest, small, stack, suffix, known, one⟩ := left
  exact ⟨n, rest, small, stack, suffix, known, fun _ => one⟩

theorem ofNat_nonneg (h : n < 2 ^ 63) : ¬ Int64.ofNat n < 0 := by
  have zero : (0 : Int64).toInt = 0 := rfl
  rw [Int64.lt_iff_toInt_lt, Int64.toInt_ofNat_of_lt h, zero]
  omega

theorem toUInt64_ofNat (h : n < 2 ^ 64) : (Int64.ofNat n).toUInt64.toNat = n := by
  show (Int64.ofNat n).toBitVec.toNat = n
  rw [Int64.toBitVec_ofNat', BitVec.toNat_ofNat, Nat.mod_eq_of_lt h]

theorem guard_eq_ok {p : Prop} [Decidable p] {e : ScriptInterpreterError} :
    (if p then throw e else pure () : Except ScriptInterpreterError Unit) = .ok () ↔ ¬ p := by
  by_cases h : p
  · rw [if_pos h]
    exact iff_of_false (fun run => by cases run) (not_not.mpr h)
  · rw [if_neg h]
    exact iff_of_true rfl h

theorem checkLocktime_iff {n : UInt32} :
    checkLocktime tx index (Int64.ofNat n.toNat) = .ok () ↔ AfterMet tx index n := by
  have hlt := n.toNat_lt
  unfold checkLocktime AfterMet
  simp only [toUInt64_ofNat (by omega : n.toNat < 2 ^ 64), check_eq_ok, guard_eq_ok]
  rw [and_iff_right (ofNat_nonneg (by omega)), ne_eq, ne_eq, decide_eq_decide, not_not, not_lt]

theorem checkSequence_iff {n : UInt32} :
    checkSequence tx index (Int64.ofNat n.toNat) = .ok () ↔ OlderMet tx index n := by
  have hlt := n.toNat_lt
  have hword : (Int64.ofNat n.toNat).toUInt64.toUInt32 = n := by
    apply UInt32.toNat_inj.mp
    rw [UInt64.toNat_toUInt32, toUInt64_ofNat (by omega), Nat.mod_eq_of_lt hlt]
  have hrange : ¬ Int64.ofNat n.toNat > 0xffffffff := by
    have bound : (0xffffffff : Int64).toInt = 2 ^ 32 - 1 := rfl
    rw [gt_iff_lt, Int64.lt_iff_toInt_lt, Int64.toInt_ofNat_of_lt (by omega), bound]
    omega
  unfold checkSequence OlderMet
  simp only [hword, check_eq_ok]
  rw [and_iff_right (ofNat_nonneg (by omega)), and_iff_right hrange]
  by_cases disabled : n &&& sequenceDisableFlag ≠ 0
  · rw [if_pos disabled]
    exact iff_of_true rfl (.inl disabled)
  · rw [if_neg disabled, or_iff_right disabled]
    cases tx.inputs[index]? with
    | none => exact iff_of_false (fun run => by cases run) (by simp)
    | some input =>
      simp only [check_eq_ok, guard_eq_ok, ne_eq, decide_eq_decide, not_not, Option.some.injEq, exists_eq_left',
        UInt32.not_lt]

theorem atLeast_validSigs (hdigest : spendDigest tx index script value prims = .ok d) (keys sigs : List (List UInt8))
    (own : ∀ x ∈ sigs, x ∈ party.elements) : AtLeast (validSigs prims d keys sigs)
      (keys.map (CanSign party (spendDigest tx index script value prims))) := by
  induction keys generalizing sigs with
  | nil => exact atLeast_zero
  | cons key keys ih =>
    rw [validSigs, List.map_cons]
    have used : ∀ x ∈ sigs.dropWhile (· = []), x ∈ party.elements := fun x hx =>
      own x (List.dropWhile_sublist _ |>.subset hx)
    cases hsigs : sigs.dropWhile (· = []) with
    | nil => exact atLeast_zero
    | cons sig rest =>
      rw [hsigs] at used
      have signed : sig ≠ [] := by
        have := List.head?_dropWhile_not (fun x : List UInt8 => decide (x = [])) sigs
        rw [hsigs] at this
        simpa using this
      simp only
      split
      next verified =>
        have mine : CanSign party (spendDigest tx index script value prims) key :=
          ⟨d, hdigest, sig, used sig List.mem_cons_self, signed, verified⟩
        exact (ih rest fun x hx => used x (List.mem_cons_of_mem sig hx)).take mine
      next => exact (ih (sig :: rest) used).skip

theorem ensures_pushKeys {Q : Unit → ScriptInterpreter → Prop} (keys : List (List UInt8))
    (h : Q () { s with stack := keys.reverse ++ s.stack }) : Ensures (pushKeys keys) s Q := by
  induction keys generalizing s with
  | nil => exact ensures_pure.mpr h
  | cons key keys ih =>
    rw [pushKeys, ensures_bind]
    refine ensures_pushElement (ih ?_)
    simpa using h

theorem asUsize_toInt64 (k : UInt64) : asUsize k.toInt64 = k.toNat := rfl

theorem multi_result (hlen : keys.length < 2 ^ 64) (ready : Ready script value s) :
    Ensures (eval prims tx index (.multi k keys)) s fun _ s' => keys.length ≤ 20 ∧ k.toNat ≤ keys.length ∧
      ∃ d rest, spendDigest tx index script value prims = .ok d ∧ s.stack.drop k.toNat = [] :: rest ∧
        s'.stack = (if validSigs prims d keys.reverse (s.stack.take k.toNat) ≥ k.toNat then num 1 else num 0) :: rest := by
  have size : asUsize (Int64.ofNat keys.length) = keys.length := toUInt64_ofNat hlen
  rw [eval, ensures_bind]
  refine ensures_pushNumber ?_
  rw [ensures_bind]
  refine ensures_pushKeys keys ?_
  rw [ensures_bind]
  refine ensures_pushNumber (ensures_perform fun count => ?_)
  unfold opCheckmultisig
  simp only [ensures_bind, ensures_popInt, ensures_ite, ensures_throw, ensures_popMany, ensures_pop, ensures_get,
    ensures_lift, ensures_push, List.cons.injEq]
  rintro _ _ ⟨rfl, rfl⟩ n hn
  rw [bytesToInt_intToBytes, Except.ok.injEq] at hn
  subst hn
  rw [size]
  refine ⟨fun _ => trivial, fun few _ => ?_⟩
  have below : (keys.reverse ++ intToBytes k.toInt64 :: s.stack).drop keys.length = intToBytes k.toInt64 :: s.stack :=
    List.drop_left' List.length_reverse
  have above : (keys.reverse ++ intToBytes k.toInt64 :: s.stack).take keys.length = keys.reverse :=
    List.take_left' List.length_reverse
  simp only [below, above, List.cons.injEq]
  rintro _ _ ⟨rfl, rfl⟩ m hm
  rw [bytesToInt_intToBytes, Except.ok.injEq] at hm
  subst hm
  rw [asUsize_toInt64]
  refine ⟨fun _ => trivial, fun enough _ dummy rest hrest => ⟨fun _ => trivial, fun empty d digest _ _ => ?_⟩⟩
  have ready' : Ready script value { s with stack := rest, opCount := count } := ⟨ready.executing, ready.context⟩
  refine ⟨by omega, by omega, d, rest, (contextDigest_ready ready').mp digest, ?_, ?_⟩
  · rw [hrest, not_not.mp empty]
  · rw [num_one, num_zero]
    exact ⟨rfl, rfl⟩

theorem yields_multi (hlen : keys.length < 2 ^ 64) : Yields party tx index script value (.multi k keys) := by
  intro s ready own
  refine (multi_result hlen ready).mono fun _ s' left => ?_
  obtain ⟨_, _, d, rest, digest, hdrop, hstack⟩ := left
  have suffix : rest <:+ s.stack := (List.suffix_cons [] rest).trans (hdrop ▸ List.drop_suffix _ _)
  split at hstack
  next many =>
    refine ⟨1, rest, by omega, hstack, suffix, fun _ => ?_, fun _ => by omega⟩
    have counted := (atLeast_validSigs digest keys.reverse (s.stack.take k.toNat)
      fun x hx => own x (List.mem_of_mem_take hx)).mono many
    rw [Holds]
    have back := counted.reverse
    rwa [← List.map_reverse, List.reverse_reverse] at back
  next => exact ⟨0, rest, by omega, hstack, suffix, fun h => absurd rfl h, fun _ => by omega⟩

end Fragments

end KuberCoin.MiniscriptPolicies
