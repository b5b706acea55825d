import KuberCoin.TaprootSpends

/-!
What a Schnorr signature of a taproot input signs. A signature may be checked for a key-path
spend, or in a leaf script with an annex and behind a code separator; the digest knows
nothing of this. It is computed from the transaction, the position of the input, the outputs
spent and the type alone, so a signature made in one context is one in every other.
-/
namespace KuberCoin.TaprootDigests

open ScriptHashSpends (asInvalidScript_eq_ok)
open Bytes Transactions UtxoSets Validator Sighashes InputScripts Tapscripts TaprootSpends FailingPrograms

/-- How a signature is used: by the key path, or in a leaf script behind the code separator that was
executed last; in either case with the annex of the witness. -/
inductive SpendContext where
  | keyPath (annex : Option (List UInt8))
  | leaf (script : List UInt8) (annex : Option (List UInt8)) (codeSeparator : UInt32)
  deriving DecidableEq

/-- The annex of a witness. -/
def annexOf (witness : List (List UInt8)) : Option (List UInt8) :=
  if effectiveStack witness = witness then none else witness.getLast?

/-- The transaction with another witness at one input. -/
def withWitness (tx : Transaction) (index : ℕ) (witness : List (List UInt8)) : Transaction :=
  { tx with inputs := tx.inputs.modify index fun i => { i with witness := ⟨witness⟩ } }

section Digests

variable (keys : XOnlyKeys) (eng : Engine) (tx : Transaction) (index : ℕ) (outputKey : List UInt8) {hashType : UInt8}
  {context : SpendContext} {digest : Bytes32} {witness : List (List UInt8)}
variable (amounts : List UInt64) (scripts : List (List UInt8))

/-- `verify_input_signature` on an input with this witness checks a signature, in this context and of
this type, against this digest. -/
inductive Checks : List (List UInt8) → SpendContext → UInt8 → Bytes32 → Prop
  | keyPath {witness : List (List UInt8)} {element sigBytes : List UInt8} {hashType : UInt8} {digest : Bytes32}
      (stack : effectiveStack witness = [element]) (size : element.length = 64 ∨ element.length = 65)
      (split : splitSchnorr index element = .ok (sigBytes, hashType)) (parsed : eng.schnorrFromBytes sigBytes = true)
      (digested : taprootSignatureHash eng.sha256 (withWitness tx index witness) index amounts scripts hashType =
        .ok digest) :
      Checks witness (.keyPath (annexOf witness)) hashType digest
  | leaf {witness inputs : List (List UInt8)} {script control : List UInt8} {block : ControlBlock}
      {context : TapscriptContext} {start s : TapscriptInterpreter} {pc : ℕ} {opcode : UInt8}
      {pubkey sig rawSig : List UInt8} {below : List (List UInt8)} {hashType : UInt8} {digest : Bytes32}
      (stack : effectiveStack witness = inputs ++ [script, control])
      (committed : checkCommitment eng.sha256 keys control script outputKey = .ok block)
      (made : leafContext (taprootSignatureHash eng.sha256 (withWitness tx index witness) index amounts scripts)
        block.internalKey script = .ok context)
      (started : startLeaf script inputs = .ok start)
      (visit : Visits eng.sha256 eng.verifySchnorr context script 0 start pc s)
      (read : script[pc]? = some opcode) (signature : opcode = 0xac ∨ opcode = 0xba)
      (executing : s.shouldExecute = true) (operands : s.stack = pubkey :: sig :: below)
      (ran : ∃ r, step eng.sha256 eng.verifySchnorr context script opcode (pc + 1) s = .ok r)
      (split : splitSignature sig = .ok (rawSig, hashType))
      (digested : context.getSighash hashType = some digest) :
      Checks witness (.leaf script (annexOf witness) s.codeSeparatorPos) hashType digest

/-- Signatures of this type are checked against different digests in different contexts. -/
def PairwiseDifferent (hashType : UInt8) : Prop :=
  ∀ witness witness' context context' digest digest',
    Checks keys eng tx index outputKey amounts scripts witness context hashType digest →
    Checks keys eng tx index outputKey amounts scripts witness' context' hashType digest' →
    context ≠ context' → digest ≠ digest'

variable {keys eng tx index outputKey amounts scripts}

@[simp] theorem withWitness_length (witness : List (List UInt8)) :
    (withWitness tx index witness).inputs.length = tx.inputs.length := by
  simp [withWitness]

theorem flatMap_modify {α : Type} (f : TxInput → List α) (g : TxInput → TxInput) (hfg : ∀ i, f (g i) = f i)
    (l : List TxInput) (k : ℕ) : (l.modify k g).flatMap f = l.flatMap f := by
  induction l generalizing k with
  | nil => cases k <;> rfl
  | cons first rest ih =>
    cases k with
    | zero => simp [List.modify, hfg]
    | succ k => simp [ih]

/-- The digest is a function of what the transaction says of its inputs and outputs besides their
scripts and witnesses. -/
theorem taprootSignatureHash_congr {tx' : Transaction} {i i' : TxInput} (hi : tx.inputs[index]? = some i)
    (hi' : tx'.inputs[index]? = some i') (hprevout : i'.prevOutput = i.prevOutput)
    (hsequence : i'.sequence = i.sequence) (hlength : tx'.inputs.length = tx.inputs.length)
    (hprevouts : (tx'.inputs.flatMap fun i => digestOutpoint i.prevOutput) =
      tx.inputs.flatMap fun i => digestOutpoint i.prevOutput)
    (hsequences : (tx'.inputs.flatMap fun i => leBytes 4 i.sequence.toNat) =
      tx.inputs.flatMap fun i => leBytes 4 i.sequence.toNat) (houtputs : tx'.outputs = tx.outputs)
    (hversion : tx'.version = tx.version) (hlock : tx'.lockTime = tx.lockTime) :
    taprootSignatureHash eng.sha256 tx' index amounts scripts hashType =
      taprootSignatureHash eng.sha256 tx index amounts scripts hashType := by
  simp only [taprootSignatureHash, hi, hi', hprevout, hsequence, hlength, hprevouts, hsequences, houtputs,
    hversion, hlock]

theorem taprootSignatureHash_outside (hi : tx.inputs[index]? = none) :
    taprootSignatureHash eng.sha256 tx index amounts scripts hashType = .error (indexOutOfBounds tx index) := by
  unfold taprootSignatureHash
  rw [hi]

theorem taprootSignatureHash_withWitness (witness : List (List UInt8)) :
    taprootSignatureHash eng.sha256 (withWitness tx index witness) index amounts scripts =
      taprootSignatureHash eng.sha256 tx index amounts scripts := by
  funext hashType
  cases hi : tx.inputs[index]? with
  | none =>
    have hread : (withWitness tx index witness).inputs[index]? = none := by simpa [withWitness] using hi
    have htext : indexOutOfBounds (withWitness tx index witness) index = indexOutOfBounds tx index := by
      unfold indexOutOfBounds
      rw [withWitness_length]
    rw [taprootSignatureHash_outside hi, taprootSignatureHash_outside hread, htext]
  | some i =>
    have hread : (withWitness tx index witness).inputs[index]? = some { i with witness := ⟨witness⟩ } := by
      simp [withWitness, hi]
    have hinputs := fun (f : TxInput → List UInt8) (hf : ∀ i w, f { i with witness := w } = f i) =>
      flatMap_modify f (fun i => { i with witness := ⟨witness⟩ }) (fun i => hf i _) tx.inputs index
    exact taprootSignatureHash_congr hi hread rfl rfl (withWitness_length witness)
      (hinputs _ fun _ _ => rfl) (hinputs _ fun _ _ => rfl) rfl rfl rfl

theorem leafContext_getSighash {digests : UInt8 → Except String Bytes32} {internalKey script : List UInt8}
    {context : TapscriptContext} (made : leafContext digests internalKey script = .ok context)
    (digested : context.getSighash hashType = some digest) : digests hashType = .ok digest := by
  simp only [leafContext, bind_eq_ok_iff, asInvalidScript_eq_ok] at made
  obtain ⟨sighash, hdefault, ⟨⟩⟩ := made
  unfold TapscriptContext.getSighash at digested
  split at digested
  next hzero =>
    cases digested
    rwa [hzero]
  next hzero =>
    obtain ⟨before, after, hmap, -⟩ := List.lookup_eq_some_iff.mp digested
    have hmem : (hashType, digest) ∈ before ++ (hashType, digest) :: after := by simp
    rw [← hmap] at hmem
    obtain ⟨-, hdigest⟩ : hashType ∈ standardTypes ∧ (digests hashType).toOption = some digest := by
      simpa using hmem
    cases hresult : digests hashType with
    | error e => simp [hresult, Except.toOption] at hdigest
    | ok d =>
      rw [hresult] at hdigest
      rw [Option.some.inj hdigest]

theorem Checks.digest_eq (h : Checks keys eng tx index outputKey amounts scripts witness context hashType digest) :
    taprootSignatureHash eng.sha256 tx index amounts scripts hashType = .ok digest := by
  cases h with
  | keyPath stack size split parsed digested => rwa [taprootSignatureHash_withWitness] at digested
  | leaf stack committed made started visit read signature executing operands ran split digested =>
    rw [taprootSignatureHash_withWitness] at made
    exact leafContext_getSighash made digested

/-- The witness with another annex. -/
def reannex (witness : List (List UInt8)) (annex : List UInt8) : List (List UInt8) :=
  effectiveStack witness ++ [0x50 :: annex]

theorem effectiveStack_reannex (annex : List UInt8) (hne : effectiveStack witness ≠ []) :
    effectiveStack (reannex witness annex) = effectiveStack witness := by
  have hpos : 0 < (effectiveStack witness).length := List.length_pos_iff.mpr hne
  unfold reannex
  generalize effectiveStack witness = stack at hpos
  unfold effectiveStack
  rw [if_pos ⟨by simp; omega, by simp⟩, List.dropLast_concat]

theorem annexOf_reannex (annex : List UInt8) (hne : effectiveStack witness ≠ []) :
    annexOf (reannex witness annex) = some (0x50 :: annex) := by
  unfold annexOf
  rw [effectiveStack_reannex annex hne, if_neg]
  · simp [reannex]
  · intro h
    have := congrArg List.length h
    simp [reannex] at this

/-- A context with another annex is another context of the same script, and the same signatures are
checked in it against the same digests. -/
theorem Checks.reannexed (h : Checks keys eng tx index outputKey amounts scripts witness context hashType digest)
    (annex : List UInt8) (hother : annexOf witness ≠ some (0x50 :: annex)) : ∃ context', context ≠ context' ∧
      Checks keys eng tx index outputKey amounts scripts (reannex witness annex) context' hashType digest := by
  cases h with
  | keyPath stack size split parsed digested =>
    have hne : effectiveStack witness ≠ [] := by simp [stack]
    refine ⟨_, ?_, .keyPath (by rw [effectiveStack_reannex annex hne, stack]) size split parsed ?_⟩
    · rw [annexOf_reannex annex hne]
      simpa using hother
    · rwa [taprootSignatureHash_withWitness] at digested ⊢
  | leaf stack committed made started visit read signature executing operands ran split digested =>
    have hne : effectiveStack witness ≠ [] := by simp [stack]
    refine ⟨_, ?_, .leaf (by rw [effectiveStack_reannex annex hne, stack]) committed ?_ started visit read signature
      executing operands ran split digested⟩
    · rw [annexOf_reannex annex hne]
      simpa using hother
    · rwa [taprootSignatureHash_withWitness] at made ⊢

theorem verifyTaproot_withWitness {witness' : List (List UInt8)}
    (h : effectiveStack witness' = effectiveStack witness) :
    verifyTaproot eng (withWitness tx index witness') index outputKey amounts scripts witness' =
      verifyTaproot eng (withWitness tx index witness) index outputKey amounts scripts witness := by
  unfold verifyTaproot
  rw [h, taprootSignatureHash_withWitness, taprootSignatureHash_withWitness]

theorem effectiveStack_of_verified (h : verifyTaproot eng tx index outputKey amounts scripts witness = .ok ()) :
    effectiveStack witness ≠ [] := by
  intro hnil
  simp [verifyTaproot, hnil] at h

theorem verifyOutput_reannex {output : TxOutput} (annex : List UInt8) (htaproot : IsTaproot output.scriptPubkey)
    (h : verifyOutput eng (withWitness tx index witness) index output amounts scripts = .ok ()) :
    verifyOutput eng (withWitness tx index (reannex witness annex)) index output amounts scripts = .ok () := by
  cases hi : tx.inputs[index]? with
  | none =>
    have hread : (withWitness tx index witness).inputs[index]? = none := by simpa [withWitness] using hi
    rw [verifyOutput, hread] at h
    cases h
  | some i =>
    have hread : ∀ w, (withWitness tx index w).inputs[index]? = some { i with witness := ⟨w⟩ } := by
      simp [withWitness, hi]
    rw [verifyOutput_taproot (hread _) htaproot] at h ⊢
    have hne := effectiveStack_of_verified h
    rw [← h]
    exact verifyTaproot_withWitness (effectiveStack_reannex annex hne)

theorem exists_annex (annex : Option (List UInt8)) : ∃ other, annex ≠ some (0x50 :: other) := by
  cases annex with
  | none => exact ⟨[], by simp⟩
  | some a =>
    refine ⟨a, fun h => ?_⟩
    have := congrArg List.length (Option.some.inj h)
    simp at this

/-- Digests of one type are different in different contexts only if no signature of this type is
checked at all: they are always the same, and what is accepted with one annex is with every other. -/
theorem taproot_digests_differ_iff (keys : XOnlyKeys) (eng : Engine) (tx : Transaction) (index : ℕ)
    (outputKey : List UInt8) (amounts : List UInt64) (scripts : List (List UInt8)) (hashType : UInt8) :
    (PairwiseDifferent keys eng tx index outputKey amounts scripts hashType ↔
      ∀ witness context digest,
        ¬ Checks keys eng tx index outputKey amounts scripts witness context hashType digest) ∧
    (∀ witness witness' context context' digest digest',
      Checks keys eng tx index outputKey amounts scripts witness context hashType digest →
      Checks keys eng tx index outputKey amounts scripts witness' context' hashType digest' → digest = digest') ∧
    ∀ output witness annex, IsTaproot output.scriptPubkey →
      verifyOutput (taprootEngine keys eng) (withWitness tx index witness) index output amounts scripts = .ok () →
      verifyOutput (taprootEngine keys eng) (withWitness tx index (reannex witness annex)) index output amounts
        scripts = .ok () := by
  refine ⟨⟨fun h witness context digest hcheck => ?_, fun h witness _ context _ digest _ hcheck => ?_⟩, ?_,
    fun _ _ annex htaproot hverified => verifyOutput_reannex annex htaproot hverified⟩
  · obtain ⟨annex, hother⟩ := exists_annex (annexOf witness)
    obtain ⟨context', hne, hcheck'⟩ := hcheck.reannexed annex hother
    exact h _ _ _ _ _ _ hcheck hcheck' hne rfl
  · exact absurd hcheck (h witness context digest)
  · intro witness witness' context context' digest digest' hcheck hcheck'
    have hdigest := hcheck.digest_eq
    rw [hcheck'.digest_eq] at hdigest
    exact (Except.ok.inj hdigest).symm

end Digests

section SharedDigest

/-- Every 64 bytes are a signature, as in `SchnorrSignature::from_bytes`. -/
def parsingEngine : Engine := { PayToScriptHash.keylessEngine with schnorrFromBytes := fun sig => sig.length = 64 }

/-- A key-path signature is checked against one digest without an annex and with one. -/
theorem annex_shares_digest :
    ¬ PairwiseDifferent generatorKeys parsingEngine finalTx 0 lockedKey [1000] [lockedOutput.scriptPubkey] 0x00 := by
  intro h
  have hcheck : Checks generatorKeys parsingEngine finalTx 0 lockedKey [1000] [lockedOutput.scriptPubkey]
      [List.replicate 64 0] (.keyPath (annexOf [List.replicate 64 0])) 0x00 _ :=
    .keyPath rfl (.inl rfl) rfl rfl rfl
  obtain ⟨context', hne, hcheck'⟩ := hcheck.reannexed [] (by decide)
  exact h _ _ _ _ _ _ hcheck hcheck' hne rfl

end SharedDigest

end KuberCoin.TaprootDigests
