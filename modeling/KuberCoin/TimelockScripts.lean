import KuberCoin.MiniscriptSatisfactions

/-!
Scripts with a time lock (crate `tx`, `timelock.rs`) and what the interpreter makes of them.
A contract of a hash and a time lock has a branch for the receiver and one for the sender; the
branch that is not taken is passed over byte by byte, its hash, keys and lock time included.
-/
namespace KuberCoin.TimelockScripts

open Bytes Transactions FailingPrograms ScriptInterpreters ScriptRuns ScriptHashSpends ScriptNumbers Miniscripts
  MiniscriptPolicies MiniscriptSatisfactions

section Building

/-- The encoding of `push_scriptnum`, outside of `0..=16`. -/
def scriptnumBytes (n : Int64) : List UInt8 :=
  let negative := n < 0
  let buf := littleEndian 8 n.abs.toUInt64.toNat
  match buf.getLast? with
  | none => []
  | some last =>
      if last &&& 0x80 ≠ 0 then buf ++ [if negative then 0x80 else 0x00]
      else if negative then buf.dropLast ++ [last ||| 0x80]
      else buf

/-- No encoding has more than the 75 bytes that `push_scriptnum` asserts. -/
def pushScriptnum (n : Int64) : List UInt8 :=
  if n = 0 then [0x00]
  else if 1 ≤ n ∧ n ≤ 16 then [0x50 + n.toUInt64.toUInt8]
  else UInt8.ofNat (scriptnumBytes n).length :: scriptnumBytes n

def buildCltvScript (locktime : UInt32) (pubkey : List UInt8) : List UInt8 :=
  pushScriptnum (Int64.ofNat locktime.toNat) ++ [0xb1, 0x75, UInt8.ofNat pubkey.length] ++ pubkey ++ [0xac]

def buildCsvScript (sequence : UInt32) (pubkey : List UInt8) : List UInt8 :=
  pushScriptnum (Int64.ofNat sequence.toNat) ++ [0xb2, 0x75, UInt8.ofNat pubkey.length] ++ pubkey ++ [0xac]

/-- The branch of the receiver. -/
def claimBranch (paymentHash : Bytes32) (receiverPubkey : List UInt8) : List UInt8 :=
  [0xa8, 32] ++ paymentHash.bytes ++ [0x88, UInt8.ofNat receiverPubkey.length] ++ receiverPubkey ++ [0xac]

/-- The branch of the sender. -/
def refundBranch (senderPubkey : List UInt8) (timeout : UInt32) : List UInt8 :=
  pushScriptnum (Int64.ofNat timeout.toNat) ++ [0xb1, 0x75, UInt8.ofNat senderPubkey.length] ++ senderPubkey ++ [0xac]

def buildHtlcScript (paymentHash : Bytes32) (receiverPubkey senderPubkey : List UInt8) (timeout : UInt32) : List UInt8 :=
  [0x63] ++ claimBranch paymentHash receiverPubkey ++ [0x67] ++ refundBranch senderPubkey timeout ++ [0x68]

end Building

section Terms

variable (prims : Primitives) (tx : Transaction) (index : ℕ) (ctx : Option SegwitContext)

/-- The interpreter before a script is run on these elements. -/
def start (stack : List (List UInt8)) : ScriptInterpreter :=
  { ScriptInterpreter.new with stack := stack, segwitContext := ctx }

/-- The run ends with a single element, which is true. -/
def Accepts (script : List UInt8) (stack : List (List UInt8)) : Prop :=
  ∃ final, execute prims tx index script (start ctx stack) = .ok ((), final) ∧ final.stackLen = 1 ∧
    final.stackTopTrue = true

/-- There is a signature, and it verifies for the key. -/
def Verifies (key sig : List UInt8) : Prop :=
  sig ≠ [] ∧ checkSignature prims tx index (start ctx []) key sig = .ok ()

variable (paymentHash : Bytes32) (receiver sender : List UInt8) (timeout : UInt32) (sig preimage : List UInt8)

def ClaimEnforced : Prop :=
  Accepts prims tx index ctx (buildHtlcScript paymentHash receiver sender timeout) [[1], preimage, sig] ↔
    prims.sha256 preimage = paymentHash ∧ Verifies prims tx index ctx receiver sig

def RefundEnforced : Prop :=
  Accepts prims tx index ctx (buildHtlcScript paymentHash receiver sender timeout) [[], sig] ↔
    Verifies prims tx index ctx sender sig ∧ AfterMet tx index timeout

def CltvEnforced : Prop :=
  Accepts prims tx index ctx (buildCltvScript timeout sender) [sig] ↔
    Verifies prims tx index ctx sender sig ∧ AfterMet tx index timeout

def CsvEnforced : Prop :=
  Accepts prims tx index ctx (buildCsvScript timeout sender) [sig] ↔
    Verifies prims tx index ctx sender sig ∧ OlderMet tx index timeout

/-- The terms of the contract, for the elements of either party, and those of the two locks. -/
structure Enforced : Prop where
  claim : ClaimEnforced prims tx index ctx paymentHash receiver sender timeout sig preimage
  refund : RefundEnforced prims tx index ctx paymentHash receiver sender timeout sig
  cltv : CltvEnforced prims tx index ctx sender timeout sig
  csv : CsvEnforced prims tx index ctx sender timeout sig

end Terms

section Checks

variable (prims : Primitives) (tx : Transaction) (index : ℕ)

def keyCheck (key : List UInt8) : Op Unit := do
  pushElement key
  perform 0xac (opChecksig prims tx index)

/-- The lock opcodes leave their number, and it is dropped. -/
def lockCheck (opcode : UInt8) (op : Op Unit) (n : UInt32) (key : List UInt8) : Op Unit := do
  pushNumber (Int64.ofNat n.toNat)
  perform opcode op
  perform 0x75 opDrop
  keyCheck prims tx index key

def preimageCheck (hash : Bytes32) (key : List UInt8) : Op Unit := do
  perform 0xa8 (opSha256 prims)
  pushElement hash.bytes
  perform 0x88 opEqualverify
  keyCheck prims tx index key

variable {prims tx index} {s : ScriptInterpreter} {ctx : Option SegwitContext} {key sig : List UInt8}

theorem scriptnumBytes_eq (n : Int64) : scriptnumBytes n = intToBytes n := rfl

theorem pushScriptnum_eq (n : Int64) : pushScriptnum n = Miniscripts.pushScriptnum n := by
  rw [pushScriptnum, Miniscripts.pushScriptnum, scriptnumBytes_eq]
  by_cases hzero : n = 0
  · rw [if_pos hzero, if_pos hzero]
  · have hlength := length_intToBytes n
    have hne : (intToBytes n).length ≠ 0 := by
      intro h
      have hback := bytesToInt_intToBytes n
      rw [List.length_eq_zero_iff.mp h] at hback
      exact hzero (Except.ok.inj hback).symm
    have hpush : UInt8.ofNat (intToBytes n).length :: intToBytes n = pushData (intToBytes n) := by
      rw [pushData, if_neg hne, if_pos (by omega)]
    rw [if_neg hzero, if_neg hzero, hpush]

theorem block_key (hkey : key.length = 33) :
    Block prims tx index ([UInt8.ofNat key.length] ++ key ++ [0xac]) (keyCheck prims tx index key) := by
  have hne : key ≠ [] := List.ne_nil_of_length_pos (by omega)
  exact (block_pushElement hne (by omega)).append (keeps_pushElement key) (block_opcode (by decide) (by decide) rfl)

theorem keeps_keyCheck : Keeps (keyCheck prims tx index key) :=
  (keeps_pushElement key).bind (keeps_opChecksig.perform _)

theorem keeps_opDrop : Keeps opDrop := by
  intro s
  simp [opDrop]

theorem block_lock {opcode : UInt8} {op : Op Unit} {n : UInt32} (hhigh : 0x60 < opcode) (hseparator : opcode ≠ 0xab)
    (hentry : (opcodeTable prims tx index).lookup opcode = some op) (hkeeps : Keeps op) (hkey : key.length = 33) :
    Block prims tx index (pushScriptnum (Int64.ofNat n.toNat) ++ [opcode, 0x75, UInt8.ofNat key.length] ++ key ++ [0xac])
      (lockCheck prims tx index opcode op n key) := by
  have hdrop : Block prims tx index [0x75] (perform 0x75 opDrop) := block_opcode (by decide) (by decide) rfl
  have hblock := (block_pushScriptnum (Int64.ofNat n.toNat)).append (keeps_pushNumber _)
    ((block_opcode hhigh hseparator hentry).append (hkeeps.perform _) (hdrop.append (keeps_opDrop.perform _) (block_key hkey)))
  rw [pushScriptnum_eq]
  have hshape : Miniscripts.pushScriptnum (Int64.ofNat n.toNat) ++ [opcode, 0x75, UInt8.ofNat key.length] ++ key ++ [0xac] =
      Miniscripts.pushScriptnum (Int64.ofNat n.toNat) ++ ([opcode] ++ ([0x75] ++
        ([UInt8.ofNat key.length] ++ key ++ [0xac]))) := by
    simp
  rw [hshape]
  exact hblock

theorem keeps_lockCheck {opcode : UInt8} {op : Op Unit} {n : UInt32} (hkeeps : Keeps op) :
    Keeps (lockCheck prims tx index opcode op n key) :=
  (keeps_pushNumber _).bind ((hkeeps.perform _).bind ((keeps_opDrop.perform _).bind keeps_keyCheck))

theorem block_preimage {hash : Bytes32} (hkey : key.length = 33) :
    Block prims tx index (claimBranch hash key) (preimageCheck prims tx index hash key) := by
  have hlength : hash.bytes.length = 32 := hash.length_eq
  have hne : hash.bytes ≠ [] := List.ne_nil_of_length_pos (by omega)
  have hsha : Block prims tx index [0xa8] (perform 0xa8 (opSha256 prims)) := block_opcode (by decide) (by decide) rfl
  have hequal : Block prims tx index [0x88] (perform 0x88 opEqualverify) := block_opcode (by decide) (by decide) rfl
  have hblock := hsha.append ((keeps_hashTop _).perform _) ((block_pushElement hne (by omega)).append (keeps_pushElement _)
    (hequal.append (keeps_opEqualverify.perform _) (block_key hkey)))
  have hshape : claimBranch hash key = [0xa8] ++ (UInt8.ofNat hash.bytes.length :: hash.bytes ++ ([0x88] ++
      ([UInt8.ofNat key.length] ++ key ++ [0xac]))) := by
    simp [claimBranch, hlength]
  rw [hshape]
  exact hblock

theorem keeps_preimageCheck {hash : Bytes32} : Keeps (preimageCheck prims tx index hash key) :=
  ((keeps_hashTop _).perform _).bind ((keeps_pushElement _).bind ((keeps_opEqualverify.perform _).bind keeps_keyCheck))

end Checks

section Outcomes

variable {prims : Primitives} {tx : Transaction} {index : ℕ} {s : ScriptInterpreter} {ctx : Option SegwitContext}
  {key sig : List UInt8} {rest : List (List UInt8)} {n : ℕ}

theorem checkSignature_start (hctx : s.segwitContext = ctx) :
    checkSignature prims tx index s key sig = checkSignature prims tx index (start ctx []) key sig := by
  have hdigest : contextDigest prims tx index s = contextDigest prims tx index (start ctx []) := by
    rw [contextDigest, contextDigest, hctx]
    rfl
  rw [checkSignature, checkSignature, hdigest]

theorem moves_keyCheck (hctx : s.segwitContext = ctx) (hkey : key.length = 33)
    (hsig : Verifies prims tx index ctx key sig) (hcount : n < maxOpsPerScript)
    (hroom : rest.length + 1 < maxStackSize) :
    Moves (keyCheck prims tx index key) s (sig :: rest) n ([1] :: rest) (n + 1) := by
  have hpush : Moves (pushElement key) s (sig :: rest) n (key :: sig :: rest) n :=
    moves_pushElement (by omega) (by unfold maxElementSize; omega) hroom
  refine hpush.bind (Moves.perform (by decide) hcount ?_)
  have hchecked : checkSignature prims tx index { s with stack := rest, opCount := n + 1 } key sig = .ok () :=
    (checkSignature_start hctx).trans hsig.2
  rw [opChecksig]
  refine (bind_of_ok (pop_eq rfl)).trans ((bind_of_ok (pop_eq rfl)).trans ?_)
  rw [if_neg hsig.1, get_bind]
  exact (bind_of_ok (lift_ok hchecked)).trans (moves_push (by decide) (by omega))

theorem ensures_keyCheck (hctx : s.segwitContext = ctx) (hstack : s.stack = sig :: rest) :
    Ensures (keyCheck prims tx index key) s fun _ s' =>
      s'.stack = [] :: rest ∨ s'.stack = [1] :: rest ∧ Verifies prims tx index ctx key sig := by
  rw [keyCheck, ensures_bind]
  refine ensures_pushElement (ensures_perform fun count => ?_)
  have hpushed : ({ s with stack := key :: s.stack, opCount := count } : ScriptInterpreter).stack =
      key :: sig :: rest := by rw [hstack]
  refine (ensures_opChecksig hpushed).mono ?_
  rintro _ s' ⟨_, _, ⟨rfl, rfl⟩, hempty | ⟨hone, hsome, hchecked⟩⟩
  · exact .inl hempty
  · exact .inr ⟨hone, hsome, (checkSignature_start (by exact hctx)).symm.trans hchecked⟩

/-- A check of the number on top, which stays there. -/
def lockOp (check : Int64 → Except ScriptInterpreterError Unit) : Op Unit := do
  let value ← peek 0
  let number ← bytesToInt value
  check number

theorem keeps_lockOp (check : Int64 → Except ScriptInterpreterError Unit) : Keeps (lockOp check) := by
  intro s
  simp [lockOp]

variable {check : Int64 → Except ScriptInterpreterError Unit} {opcode : UInt8} {lock : UInt32}

theorem moves_lockCheck (hhigh : opcode > 0x60) (hmet : check (Int64.ofNat lock.toNat) = .ok ())
    (hctx : s.segwitContext = ctx) (hkey : key.length = 33) (hsig : Verifies prims tx index ctx key sig)
    (hcount : n + 3 < maxOpsPerScript) (hroom : rest.length + 2 < maxStackSize) :
    Moves (lockCheck prims tx index opcode (lockOp check) lock key) s (sig :: rest) n ([1] :: rest) (n + 3) := by
  have hlt := lock.toNat_lt
  have htwo : (sig :: rest).length = rest.length + 1 := rfl
  have hpush : Moves (pushNumber (Int64.ofNat lock.toNat)) s (sig :: rest) n (num lock.toNat :: sig :: rest) n :=
    moves_pushNumber (ofNat_ne_minus (by omega)) (by omega)
  have hlock : Moves (lockOp check) s (num lock.toNat :: sig :: rest) (n + 1) (num lock.toNat :: sig :: rest) (n + 1) :=
    (bind_of_ok rfl).trans ((bind_of_ok (lift_ok (bytesToInt_num _))).trans (lift_ok hmet))
  have hdrop : Moves opDrop s (num lock.toNat :: sig :: rest) (n + 2) (sig :: rest) (n + 2) := by
    rw [opDrop]
    exact (bind_of_ok (pop_eq rfl)).trans rfl
  exact hpush.bind ((Moves.perform hhigh (by omega) hlock).bind ((Moves.perform (by decide) (by omega) hdrop).bind
    (moves_keyCheck hctx hkey hsig (by omega) (by omega))))

theorem ensures_lockCheck (hctx : s.segwitContext = ctx) (hstack : s.stack = sig :: rest) :
    Ensures (lockCheck prims tx index opcode (lockOp check) lock key) s fun _ s' =>
      s'.stack = [] :: rest ∨ s'.stack = [1] :: rest ∧ Verifies prims tx index ctx key sig ∧
        check (Int64.ofNat lock.toNat) = .ok () := by
  rw [lockCheck, ensures_bind]
  refine ensures_pushNumber ?_
  rw [ensures_bind]
  refine ensures_perform fun count => ?_
  simp only [lockOp, ensures_bind, ensures_peek, ensures_lift, List.getElem?_cons_zero, Option.some.injEq]
  rintro _ rfl number hnumber _ hmet
  rw [bytesToInt_intToBytes, Except.ok.injEq] at hnumber
  rw [← hnumber] at hmet
  refine ensures_perform fun count' => ?_
  simp only [opDrop, ensures_bind, ensures_pop, List.cons.injEq, ensures_pure]
  rintro _ _ ⟨rfl, rfl⟩
  have hleft := @ensures_keyCheck prims tx index { s with opCount := count' } ctx key sig rest hctx hstack
  refine hleft.mono fun _ s' h => h.imp id ?_
  exact fun hgood => ⟨hgood.1, hgood.2, hmet⟩

theorem moves_preimageCheck {hash : Bytes32} {preimage : List UInt8} (hhash : prims.sha256 preimage = hash)
    (hctx : s.segwitContext = ctx) (hkey : key.length = 33) (hsig : Verifies prims tx index ctx key sig)
    (hcount : n + 3 < maxOpsPerScript) (hroom : rest.length + 3 < maxStackSize) :
    Moves (preimageCheck prims tx index hash key) s (preimage :: sig :: rest) n ([1] :: rest) (n + 3) := by
  have hlength : hash.bytes.length = 32 := hash.length_eq
  have htwo : (sig :: rest).length = rest.length + 1 := rfl
  have hthree : (hash.bytes :: sig :: rest).length = rest.length + 2 := rfl
  have hsha : Moves (opSha256 prims) s (preimage :: sig :: rest) (n + 1) (hash.bytes :: sig :: rest) (n + 1) := by
    have hhashed := @moves_hashTop s (sig :: rest) (n + 1) (fun data => (prims.sha256 data).bytes) preimage
    rw [hhash] at hhashed
    exact hhashed (by unfold maxElementSize; omega) (by omega)
  have hpush : Moves (pushElement hash.bytes) s (hash.bytes :: sig :: rest) (n + 1) (hash.bytes :: hash.bytes :: sig :: rest)
      (n + 1) := moves_pushElement (by omega) (by unfold maxElementSize; omega) (by omega)
  exact (Moves.perform (by decide) (by omega) hsha).bind (hpush.bind
    ((Moves.perform (by decide) (by omega) (moves_equalverify (by omega))).bind
      (moves_keyCheck hctx hkey hsig (by omega) (by omega))))

theorem ensures_preimageCheck {hash : Bytes32} {preimage : List UInt8} (hctx : s.segwitContext = ctx)
    (hstack : s.stack = preimage :: sig :: rest) : Ensures (preimageCheck prims tx index hash key) s fun _ s' =>
      s'.stack = [] :: rest ∨ s'.stack = [1] :: rest ∧ prims.sha256 preimage = hash ∧
        Verifies prims tx index ctx key sig := by
  rw [preimageCheck, ensures_bind]
  refine ensures_perform fun count => ensures_hashTop hstack ?_
  rw [ensures_bind]
  refine ensures_pushElement ?_
  rw [ensures_bind]
  refine ensures_perform fun count' => ensures_opEqualverify rfl fun hsame => ?_
  have hleft := @ensures_keyCheck prims tx index { s with stack := sig :: rest, opCount := count' } ctx key sig rest hctx rfl
  refine hleft.mono fun _ s' h => h.imp id ?_
  exact fun hgood => ⟨hgood.1, Bytes32.ext_bytes hsame, hgood.2⟩

end Outcomes

section Branching

variable {prims : Primitives} {tx : Transaction} {index : ℕ} {s : ScriptInterpreter} {first second top : List UInt8}
  {op op' : Op Unit} {rest : List (List UInt8)}

theorem shouldExecute_of_top {t : ScriptInterpreter} (h : t.conditionStack = [true]) : t.shouldExecute = true := by
  rw [ScriptInterpreter.shouldExecute, h]
  rfl

theorem ensures_opened (hopen : s.conditionStack = []) (hstack : s.stack = top :: rest) :
    Ensures (perform 0x63 opIf) s fun _ mid =>
      mid.conditionStack = [ScriptInterpreters.isTrue top] ∧ mid.stack = rest ∧ mid.segwitContext = s.segwitContext := by
  refine ensures_perform fun count => ?_
  have hexec : ScriptInterpreter.shouldExecute { s with opCount := count } = true := by
    rw [ScriptInterpreter.shouldExecute, hopen]
    rfl
  rw [opIf, ensures_bind, ensures_get, if_pos hexec]
  simp [hstack, hopen]

theorem ensures_turned {b : Bool} (hopen : s.conditionStack = [b]) : Ensures (perform 0x67 opElse) s fun _ mid =>
      mid.conditionStack = [!b] ∧ mid.stack = s.stack ∧ mid.segwitContext = s.segwitContext := by
  refine ensures_perform fun count => ?_
  simp [opElse, hopen]

theorem ensures_closed (s : ScriptInterpreter) :
    Ensures (perform 0x68 opEndif) s fun _ final => final.stack = s.stack := by
  refine ensures_perform fun count => ?_
  rw [opEndif, ensures_bind, ensures_get]
  split
  · exact ensures_throw.mpr trivial
  · simp

theorem resume_closing (before : List UInt8) (s : ScriptInterpreter) :
    resume prims tx index (before ++ [0x68]) before.length s = perform 0x68 opEndif s := by
  have hflow := @block_endif prims tx index before [] s
  rw [List.append_nil] at hflow
  have hended (t : ScriptInterpreter) : resume prims tx index (before ++ [0x68]) (before ++ [0x68]).length t = .ok ((), t) :=
    executeFrom_end (List.getElem?_eq_none (Nat.le_refl _))
  have hpure : (fun _ => resume prims tx index (before ++ [0x68]) (before ++ [0x68]).length : Unit → Op Unit) = pure := by
    funext _ t
    exact hended t
  rw [hflow, hpure, bind_pure]

theorem resume_passed {code : List UInt8} (hskips : skips 0 code = true) (before after : List UInt8)
    (hclosed : s.conditionStack = [false]) : resume prims tx index (before ++ code ++ after) before.length s =
      (countAll code >>= fun _ => resume prims tx index (before ++ code ++ after) (before ++ code).length) s := by
  have hpassed := @resume_skipped prims tx index code [] [] hskips before after s
  have hsame : { s with conditionStack := [] ++ false :: [] } = s := by
    rw [List.nil_append, ← hclosed]
  rw [hsame] at hpassed
  rw [hpassed]
  have hsame : { s with conditionStack := [false] } = s := by rw [← hclosed]
  rw [hsame]

theorem resume_opened (hopen : s.conditionStack = []) :
    resume prims tx index ([0x63] ++ first ++ [0x67] ++ second ++ [0x68]) 0 s = (perform 0x63 opIf >>= fun _ =>
      resume prims tx index ([0x63] ++ first ++ [0x67] ++ second ++ [0x68]) [(0x63 : UInt8)].length) s := by
  have hopens : Block prims tx index [0x63] (perform 0x63 opIf) := block_opcode (by decide) (by decide) rfl
  have hexec : s.shouldExecute = true := by
    rw [ScriptInterpreter.shouldExecute, hopen]
    rfl
  have hstart := hopens [] (first ++ [0x67] ++ second ++ [0x68]) s hexec
  simp only [List.nil_append, List.length_nil, ← List.append_assoc] at hstart
  exact hstart

theorem resume_turned :
    resume prims tx index ([0x63] ++ first ++ [0x67] ++ second ++ [0x68]) ([0x63] ++ first).length s = (perform 0x67 opElse >>= fun _ =>
      resume prims tx index ([0x63] ++ first ++ [0x67] ++ second ++ [0x68]) ([0x63] ++ first ++ [0x67]).length) s := by
  have hturn := @resume_flow prims tx index opElse 0x67 rfl (by decide) (by decide) rfl ([0x63] ++ first)
    (second ++ [0x68]) s
  simp only [← List.append_assoc] at hturn
  exact hturn

/-- The first of two branches is executed, the second one passed over. -/
theorem resume_first (hblock : Block prims tx index first op) (hkeeps : Keeps op) (hskips : skips 0 second = true)
    (hopen : s.conditionStack = []) (hstack : s.stack = top :: rest) (htop : ScriptInterpreters.isTrue top = true) :
    resume prims tx index ([0x63] ++ first ++ [0x67] ++ second ++ [0x68]) 0 s =
      (perform 0x63 opIf >>= fun _ => op >>= fun _ => perform 0x67 opElse >>= fun _ => countAll second >>= fun _ =>
        perform 0x68 opEndif) s := by
  rw [resume_opened hopen]
  refine bind_congr_of_ensures rfl ((ensures_opened hopen hstack).mono fun _ mid hmid => ?_)
  rw [htop] at hmid
  have hrun := hblock [0x63] ([0x67] ++ second ++ [0x68]) mid (shouldExecute_of_top hmid.1)
  simp only [← List.append_assoc] at hrun
  rw [hrun]
  refine bind_congr_of_ensures rfl ((hkeeps mid).mono fun _ mid' hmid' => ?_)
  rw [resume_turned]
  refine bind_congr_of_ensures rfl ((ensures_turned (hmid'.1.trans hmid.1)).mono fun _ closed hclosed => ?_)
  rw [resume_passed hskips ([0x63] ++ first ++ [0x67]) [0x68] hclosed.1]
  exact bind_congr_of_ensures rfl (ensures_of_forall fun _ final => resume_closing _ final)

/-- The first of two branches is passed over, the second one executed. -/
theorem resume_second (hblock : Block prims tx index second op) (hskips : skips 0 first = true)
    (hopen : s.conditionStack = []) (hstack : s.stack = top :: rest) (htop : ScriptInterpreters.isTrue top = false) :
    resume prims tx index ([0x63] ++ first ++ [0x67] ++ second ++ [0x68]) 0 s =
      (perform 0x63 opIf >>= fun _ => countAll first >>= fun _ => perform 0x67 opElse >>= fun _ => op >>= fun _ =>
        perform 0x68 opEndif) s := by
  rw [resume_opened hopen]
  refine bind_congr_of_ensures rfl ((ensures_opened hopen hstack).mono fun _ mid hmid => ?_)
  rw [htop] at hmid
  have hpass := @resume_passed prims tx index mid first hskips [0x63] ([0x67] ++ second ++ [0x68]) hmid.1
  simp only [← List.append_assoc] at hpass
  rw [hpass]
  refine bind_congr_of_ensures rfl (((keeps_countAll first) mid).mono fun _ mid' hmid' => ?_)
  rw [resume_turned]
  refine bind_congr_of_ensures rfl ((ensures_turned (hmid'.1.trans hmid.1)).mono fun _ opened hopened => ?_)
  have hrun := hblock ([0x63] ++ first ++ [0x67]) [0x68] opened (shouldExecute_of_top hopened.1)
  rw [hrun]
  exact bind_congr_of_ensures rfl (ensures_of_forall fun _ final => resume_closing _ final)

end Branching

section Enforcement

variable {prims : Primitives} {tx : Transaction} {index : ℕ} {ctx : Option SegwitContext} {hash : Bytes32}
  {receiver sender key sig preimage : List UInt8} {timeout lock : UInt32} {final : ScriptInterpreter}

theorem single_one (h : final.stack = [[1]]) : final.stackLen = 1 ∧ final.stackTopTrue = true := by
  rw [ScriptInterpreter.stackLen, ScriptInterpreter.stackTopTrue, h]
  decide

theorem of_single_true {p : Prop} (h : final.stack = [[]] ∨ final.stack = [[1]] ∧ p)
    (htrue : final.stackTopTrue = true) : p := by
  obtain hempty | ⟨-, hp⟩ := h
  · rw [ScriptInterpreter.stackTopTrue, hempty] at htrue
    exact absurd htrue (by decide)
  · exact hp

theorem length_pushScriptnum (n : Int64) : (pushScriptnum n).length ≤ 10 := by
  have hlength := length_intToBytes n
  rw [pushScriptnum, scriptnumBytes_eq]
  split
  · decide
  · split
    · rw [List.length_singleton]
      omega
    · rw [List.length_cons]
      omega

theorem accepts_lock {opcode : UInt8} {check : Int64 → Except ScriptInterpreterError Unit} (hhigh : 0x60 < opcode)
    (hseparator : opcode ≠ 0xab) (hentry : (opcodeTable prims tx index).lookup opcode = some (lockOp check))
    (hkey : key.length = 33) : Accepts prims tx index ctx
        (pushScriptnum (Int64.ofNat lock.toNat) ++ [opcode, 0x75, UInt8.ofNat key.length] ++ key ++ [0xac]) [sig] ↔
      Verifies prims tx index ctx key sig ∧ check (Int64.ofNat lock.toNat) = .ok () := by
  have hblock := @block_lock prims tx index key opcode _ lock hhigh hseparator hentry (keeps_lockOp check) hkey
  have hrun {final : ScriptInterpreter} := @execute_block prims tx index _ _ hblock (keeps_lockCheck (keeps_lockOp check))
    (start ctx [sig]) final rfl
  constructor
  · rintro ⟨final, hfinal, -, htrue⟩
    have hleft := @ensures_lockCheck prims tx index (start ctx [sig]) ctx key sig [] check opcode lock rfl rfl
    exact of_single_true (hleft.apply (hrun.mp hfinal).2) htrue
  · rintro ⟨hsig, hmet⟩
    have hmoves := @moves_lockCheck prims tx index (start ctx []) ctx key sig [] 0 check opcode lock hhigh hmet rfl hkey hsig
      (by decide) (by decide)
    refine ⟨_, hrun.mpr ⟨?_, hmoves⟩, single_one rfl⟩
    have hshort := length_pushScriptnum (Int64.ofNat lock.toNat)
    simp only [List.length_append, List.length_cons, List.length_nil, hkey]
    unfold maxScriptSize
    omega

theorem length_claimBranch (hkey : receiver.length = 33) : (claimBranch hash receiver).length = 70 := by
  have hlength : hash.bytes.length = 32 := hash.length_eq
  simp [claimBranch, hlength, hkey]

theorem length_refundBranch (hkey : sender.length = 33) : (refundBranch sender timeout).length ≤ 47 := by
  have hshort := length_pushScriptnum (Int64.ofNat timeout.toNat)
  simp only [refundBranch, List.length_append, List.length_cons, List.length_nil, hkey]
  omega

theorem length_buildHtlcScript (hreceiver : receiver.length = 33) (hsender : sender.length = 33) :
    (buildHtlcScript hash receiver sender timeout).length ≤ maxScriptSize := by
  have hclaim := @length_claimBranch hash receiver hreceiver
  have hrefund := @length_refundBranch sender timeout hsender
  simp only [buildHtlcScript, List.length_append, List.length_singleton]
  unfold maxScriptSize
  omega

theorem opens_if {top : List UInt8} {stack : List (List UInt8)} : perform 0x63 opIf (start ctx (top :: stack)) =
      .ok ((), { inBranch (start ctx []) (ScriptInterpreters.isTrue top) with stack := stack, opCount := 1 }) := by
  have hfirst : (start ctx (top :: stack)).opCount < maxOpsPerScript := by
    show 0 < 201
    omega
  refine (perform_ok (by decide) hfirst).trans ?_
  rw [opIf, get_bind, if_pos (by rfl)]
  exact bind_of_ok (pop_eq rfl)

theorem turns_else {b : Bool} {stack : List (List UInt8)} {n : ℕ} (hcount : n < maxOpsPerScript) :
    perform 0x67 opElse { inBranch (start ctx []) b with stack := stack, opCount := n } =
      .ok ((), { inBranch (start ctx []) (!b) with stack := stack, opCount := n + 1 }) := by
  refine (perform_ok (by decide) hcount).trans ?_
  rw [opElse, get_bind]
  rfl

/-- What stands between the branches and behind them leaves the stack as it is. -/
theorem ensures_closing (code : List UInt8) (s : ScriptInterpreter) :
    Ensures (perform 0x67 opElse >>= fun _ => countAll code >>= fun _ => perform 0x68 opEndif) s fun _ final =>
      final.stack = s.stack := by
  rw [ensures_bind]
  refine ensures_perform fun count => ?_
  rw [opElse, ensures_bind, ensures_get]
  split
  · exact ensures_throw.mpr trivial
  · rw [ensures_set, ensures_bind]
    refine (ensures_countAll code).mono fun _ mid hmid => ?_
    exact (ensures_closed mid).mono fun _ final hfinal => hfinal.trans hmid

theorem accepts_claim (hreceiver : receiver.length = 33) (hsender : sender.length = 33)
    (hskips : skips 0 (refundBranch sender timeout) = true) :
    Accepts prims tx index ctx (buildHtlcScript hash receiver sender timeout) [[1], preimage, sig] ↔
      prims.sha256 preimage = hash ∧ Verifies prims tx index ctx receiver sig := by
  have hresume := @resume_first prims tx index (start ctx [[1], preimage, sig]) _ _ _ _ _
    (@block_preimage prims tx index receiver hash hreceiver) keeps_preimageCheck hskips rfl rfl rfl
  constructor
  · rintro ⟨final, hfinal, -, htrue⟩
    have hrun := (execute_eq_ok.mp hfinal).2.2
    change resume prims tx index (buildHtlcScript hash receiver sender timeout) 0 _ = _ at hrun
    rw [buildHtlcScript, hresume] at hrun
    obtain ⟨_, mid, hopen, hrun⟩ := bind_eq_ok.mp hrun
    obtain ⟨-, hstack, hctx⟩ := (ensures_opened rfl rfl).apply hopen
    obtain ⟨_, mid', hcheck, hrun⟩ := bind_eq_ok.mp hrun
    have hleft := (ensures_preimageCheck hctx hstack).apply hcheck
    rw [← (ensures_closing _ mid').apply hrun] at hleft
    exact of_single_true hleft htrue
  · rintro ⟨hhash, hsig⟩
    have hcheck := @moves_preimageCheck prims tx index (inBranch (start ctx []) true) ctx receiver sig [] 1 hash preimage
      hhash rfl hreceiver hsig (by decide) (by decide)
    have hcount : (refundBranch sender timeout).countP (· > 0x60) ≤ 47 :=
      List.countP_le_length.trans (length_refundBranch hsender)
    have hpassed := @countAll_ok (refundBranch sender timeout)
      { inBranch (start ctx []) false with stack := [[1]], opCount := 5 }
      (show 5 + (refundBranch sender timeout).countP (· > 0x60) ≤ 201 by omega)
    refine ⟨{ start ctx [] with stack := [[1]], opCount := 5 + (refundBranch sender timeout).countP (· > 0x60) + 1 },
      execute_eq_ok.mpr ⟨length_buildHtlcScript hreceiver hsender, rfl, ?_⟩, single_one rfl⟩
    change resume prims tx index (buildHtlcScript hash receiver sender timeout) 0 _ = _
    rw [buildHtlcScript, hresume]
    refine (bind_of_ok opens_if).trans ((bind_of_ok hcheck).trans ((bind_of_ok (turns_else (by decide))).trans
      ((bind_of_ok hpassed).trans ?_)))
    exact @closes (start ctx []) false [[1]] _ (show 5 + (refundBranch sender timeout).countP (· > 0x60) < 201 by omega)

theorem accepts_refund (hreceiver : receiver.length = 33) (hsender : sender.length = 33)
    (hskips : skips 0 (claimBranch hash receiver) = true) :
    Accepts prims tx index ctx (buildHtlcScript hash receiver sender timeout) [[], sig] ↔
      Verifies prims tx index ctx sender sig ∧ AfterMet tx index timeout := by
  have hblock := @block_lock prims tx index sender 0xb1 (lockOp (checkLocktime tx index)) timeout (by decide) (by decide) rfl
    (keeps_lockOp _) hsender
  have hshape : refundBranch sender timeout = pushScriptnum (Int64.ofNat timeout.toNat) ++
      [0xb1, 0x75, UInt8.ofNat sender.length] ++ sender ++ [0xac] := rfl
  have hresume := @resume_second prims tx index (start ctx [[], sig]) _ _ _ _ _ hblock hskips rfl rfl rfl
  rw [← checkLocktime_iff]
  constructor
  · rintro ⟨final, hfinal, -, htrue⟩
    have hrun := (execute_eq_ok.mp hfinal).2.2
    change resume prims tx index (buildHtlcScript hash receiver sender timeout) 0 _ = _ at hrun
    rw [buildHtlcScript, hshape, hresume] at hrun
    obtain ⟨_, mid, hopen, hrun⟩ := bind_eq_ok.mp hrun
    obtain ⟨hclosed, hstack, hctx⟩ := (ensures_opened rfl rfl).apply hopen
    obtain ⟨_, mid₁, hpass, hrun⟩ := bind_eq_ok.mp hrun
    have hkept := (keeps_countAll _ mid).apply hpass
    have hsame := (ensures_countAll _).apply hpass
    obtain ⟨_, mid₂, hturn, hrun⟩ := bind_eq_ok.mp hrun
    obtain ⟨-, hsame', hctx'⟩ := (ensures_turned (hkept.1.trans hclosed)).apply hturn
    obtain ⟨_, mid₃, hcheck, hrun⟩ := bind_eq_ok.mp hrun
    have hleft := (ensures_lockCheck (hctx'.trans (hkept.2.trans hctx)) (hsame'.trans (hsame.trans hstack))).apply hcheck
    rw [← (ensures_closed mid₃).apply hrun] at hleft
    exact of_single_true hleft htrue
  · rintro ⟨hsig, hmet⟩
    have hcount : (claimBranch hash receiver).countP (· > 0x60) ≤ 70 := by
      rw [← @length_claimBranch hash receiver hreceiver]
      exact List.countP_le_length
    have hpassed := @countAll_ok (claimBranch hash receiver)
      { inBranch (start ctx []) false with stack := [sig], opCount := 1 }
      (show 1 + (claimBranch hash receiver).countP (· > 0x60) ≤ 201 by omega)
    have hcheck := @moves_lockCheck prims tx index (inBranch (start ctx []) true) ctx sender sig []
      (1 + (claimBranch hash receiver).countP (· > 0x60) + 1) (checkLocktime tx index) 0xb1 timeout (by decide) hmet rfl
      hsender hsig (show 1 + (claimBranch hash receiver).countP (· > 0x60) + 1 + 3 < 201 by omega) (by decide)
    have hturn := @turns_else ctx false [sig] (1 + (claimBranch hash receiver).countP (· > 0x60))
      (show 1 + (claimBranch hash receiver).countP (· > 0x60) < 201 by omega)
    refine ⟨{ start ctx [] with stack := [[1]], opCount := 1 + (claimBranch hash receiver).countP (· > 0x60) + 1 + 3 + 1 },
      execute_eq_ok.mpr ⟨length_buildHtlcScript hreceiver hsender, rfl, ?_⟩, single_one rfl⟩
    change resume prims tx index (buildHtlcScript hash receiver sender timeout) 0 _ = _
    rw [buildHtlcScript, hshape, hresume]
    refine (bind_of_ok opens_if).trans ((bind_of_ok hpassed).trans ((bind_of_ok hturn).trans ((bind_of_ok hcheck).trans ?_)))
    exact @closes (start ctx []) true [[1]] _ (show 1 + (claimBranch hash receiver).countP (· > 0x60) + 1 + 3 < 201 by omega)

/-- A party is held to its terms where the bytes of the other one's branch open and close branches
of their own only, and a lock always holds. -/
theorem timelocks_enforced (prims : Primitives) (tx : Transaction) (index : ℕ) (ctx : Option SegwitContext)
    (hash : Bytes32) (receiver sender : List UInt8) (timeout : UInt32) (sig preimage : List UInt8)
    (hreceiver : receiver.length = 33) (hsender : sender.length = 33) : (skips 0 (refundBranch sender timeout) = true →
        ClaimEnforced prims tx index ctx hash receiver sender timeout sig preimage) ∧
      (skips 0 (claimBranch hash receiver) = true →
        RefundEnforced prims tx index ctx hash receiver sender timeout sig) ∧
      CltvEnforced prims tx index ctx sender timeout sig ∧ CsvEnforced prims tx index ctx sender timeout sig := by
  refine ⟨accepts_claim hreceiver hsender, accepts_refund hreceiver hsender, ?_, ?_⟩
  · rw [CltvEnforced, ← checkLocktime_iff]
    exact accepts_lock (by decide) (by decide) rfl hsender
  · rw [CsvEnforced, ← checkSequence_iff]
    exact accepts_lock (by decide) (by decide) rfl hsender

end Enforcement

section Example

/-- The generator of the curve, and six times the generator: one of its bytes is `0x68`. -/
def plainKey : List UInt8 :=
  [0x02, 0x79, 0xbe, 0x66, 0x7e, 0xf9, 0xdc, 0xbb, 0xac, 0x55, 0xa0, 0x62, 0x95, 0xce, 0x87, 0x0b, 0x07, 0x02, 0x9b,
    0xfc, 0xdb, 0x2d, 0xce, 0x28, 0xd9, 0x59, 0xf2, 0x81, 0x5b, 0x16, 0xf8, 0x17, 0x98]

def closingKey : List UInt8 :=
  [0x03, 0xff, 0xf9, 0x7b, 0xd5, 0x75, 0x5e, 0xee, 0xa4, 0x20, 0x45, 0x3a, 0x14, 0x35, 0x52, 0x35, 0xd3, 0x82, 0xf6,
    0x47, 0x2f, 0x85, 0x68, 0xa1, 0x8b, 0x2f, 0x05, 0x7a, 0x14, 0x60, 0x29, 0x75, 0x56]

/-- A hash whose first byte is `0x63`. -/
def openingHash : Bytes32 := ⟨0x63 :: List.replicate 31 0, by decide⟩

def lockedTx : Transaction := ⟨2, [⟨⟨Bytes32.zero, 0⟩, [], 5, ⟨[]⟩⟩], [⟨900, [0x51]⟩], 5⟩

/-- The signature whose two numbers are one, and the two keys for which it signs the digest of the
input of `lockedTx`. -/
def unitSignature : List UInt8 := [0x30, 0x06, 0x02, 0x01, 0x01, 0x02, 0x01, 0x01]

def receiverKey : List UInt8 :=
  [0x02, 0xc2, 0x65, 0x09, 0x80, 0x02, 0x47, 0x5f, 0xd9, 0x8c, 0x62, 0xc6, 0x2f, 0x6f, 0xbd, 0xbe, 0x45, 0x73, 0xc3,
    0xa8, 0x6a, 0xd9, 0xe5, 0x00, 0xa5, 0x93, 0x74, 0x4c, 0x7f, 0x51, 0x48, 0xe9, 0x7a]

def senderKey : List UInt8 :=
  [0x03, 0x70, 0xc6, 0xc9, 0xfd, 0x01, 0xb2, 0xfc, 0xc0, 0xf6, 0x80, 0x8e, 0x6e, 0x93, 0x8a, 0x2f, 0xe8, 0x2c, 0x3f,
    0xbf, 0x56, 0x23, 0x1e, 0x8e, 0x4c, 0xa8, 0x0a, 0x0a, 0x2c, 0xe3, 0x1a, 0x00, 0xb8]

/-- The curve where these are the only keys and this is the only signature. -/
def unitCurve : Primitives :=
  { keyless with
    publicKey := fun key => if key = receiverKey ∨ key = senderKey then .ok () else .error "malformed public key"
    fromDer := fun sig => if sig = unitSignature then .ok () else .error "malformed signature"
    verifyEcdsa := fun key sig _ => (key = receiverKey ∨ key = senderKey) ∧ sig = unitSignature }

/-- The receiver shows a preimage, the sender waits until the lock is met. -/
theorem either_party_spends : Accepts unitCurve lockedTx 0 none
        (buildHtlcScript (Sha256.sha256 (List.replicate 32 1)) receiverKey senderKey 5)
        [[1], List.replicate 32 1, unitSignature ++ [1]] ∧
      Accepts unitCurve lockedTx 0 none
          (buildHtlcScript (Sha256.sha256 (List.replicate 32 1)) receiverKey senderKey 5)
          [[], unitSignature ++ [1]] ∧
        Accepts unitCurve lockedTx 0 none (buildCltvScript 5 senderKey) [unitSignature ++ [1]] ∧
          Accepts unitCurve lockedTx 0 none (buildCsvScript 5 senderKey) [unitSignature ++ [1]] := by
  have hreceiver : Verifies unitCurve lockedTx 0 none receiverKey (unitSignature ++ [1]) :=
    ⟨by decide, by decide +kernel⟩
  have hsender : Verifies unitCurve lockedTx 0 none senderKey (unitSignature ++ [1]) :=
    ⟨by decide, by decide +kernel⟩
  have hafter : AfterMet lockedTx 0 5 := ⟨by decide, by decide, by decide⟩
  have holder : OlderMet lockedTx 0 5 := .inr ⟨_, rfl, by decide, by decide, by decide⟩
  obtain ⟨hclaim, hrefund, hcltv, hcsv⟩ := timelocks_enforced unitCurve lockedTx 0 none
    (Sha256.sha256 (List.replicate 32 1)) receiverKey senderKey 5 (unitSignature ++ [1]) (List.replicate 32 1)
    (by decide) (by decide)
  exact ⟨(hclaim (by decide +kernel)).mpr ⟨rfl, hreceiver⟩,
    (hrefund (by decide +kernel)).mpr ⟨hsender, hafter⟩, hcltv.mpr ⟨hsender, hafter⟩, hcsv.mpr ⟨hsender, holder⟩⟩

/-- The hash opens a branch in the branch that is passed over, and the key of the sender closes it:
nothing is checked, and a single byte refunds the contract. -/
theorem refund_unchecked : ¬ Enforced keyless emptyTx 0 none openingHash plainKey closingKey 500000 [0x01] [] := by
  intro h
  have hrun : execute keyless emptyTx 0 (buildHtlcScript openingHash plainKey closingKey 500000) (start none [[], [0x01]]) =
      .ok ((), { start none [[0x01]] with opCount := 49 }) := by
    decide +kernel
  have hverifies := (h.refund.mp ⟨_, hrun, by decide, by decide⟩).1.2
  have hnokey : checkSignature keyless emptyTx 0 (start none []) closingKey [0x01] ≠ .ok () := by
    decide +kernel
  exact hnokey hverifies

end Example

end KuberCoin.TimelockScripts
