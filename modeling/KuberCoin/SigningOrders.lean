import KuberCoin.CommitmentTxs
import KuberCoin.WireBlocks

/-!
What stays of a signature hash while the inputs of a transaction are filled.
A signer leaves a script signature or a witness in one input. The legacy digest clears every
script signature before it encodes the transaction, but it encodes the witnesses, so it
survives a filling exactly when the witnesses it commits to stay as they were. The BIP-143
digest survives every filling.
-/
namespace KuberCoin.SigningOrders

open Bytes Transactions Sighashes WireBlocks CommitmentTxs

section Fillings

/-- What is left in one input. -/
inductive Filling where
  | scriptSig (index : ℕ) (script : List UInt8)
  | witness (index : ℕ) (stack : List (List UInt8))

def Filling.apply (tx : Transaction) : Filling → Transaction
  | .scriptSig index script =>
      { tx with inputs := tx.inputs.modify index fun i => { i with scriptSig := script } }
  | .witness index stack =>
      { tx with inputs := tx.inputs.modify index fun i => { i with witness := ⟨stack⟩ } }

/-- The transaction after some fillings, made in this order. -/
def fill (tx : Transaction) (fillings : List Filling) : Transaction := fillings.foldl Filling.apply tx

/-- An input before it is signed. -/
def bare (i : TxInput) : TxInput := { i with scriptSig := [], witness := Witness.empty }

/-- The transaction before its inputs are signed. -/
def skeleton (tx : Transaction) : Transaction := { tx with inputs := tx.inputs.map bare }

theorem map_modify_bare {f : TxInput → TxInput} (hf : ∀ i, bare (f i) = bare i) (inputs : List TxInput) (index : ℕ) :
    (inputs.modify index f).map bare = inputs.map bare := by
  induction inputs generalizing index with
  | nil => cases index <;> rfl
  | cons i rest ih =>
    cases index with
    | zero => simp [List.modify, hf]
    | succ index => simp [ih]

theorem skeleton_apply (tx : Transaction) (f : Filling) : skeleton (f.apply tx) = skeleton tx := by
  cases f with
  | scriptSig index script =>
    have hmap := @map_modify_bare (fun i => { i with scriptSig := script }) (fun _ => rfl) tx.inputs index
    simp only [skeleton, Filling.apply, hmap]
  | witness index stack =>
    have hmap := @map_modify_bare (fun i => { i with witness := ⟨stack⟩ }) (fun _ => rfl) tx.inputs index
    simp only [skeleton, Filling.apply, hmap]

theorem skeleton_fill (tx : Transaction) (fillings : List Filling) : skeleton (fill tx fillings) = skeleton tx := by
  induction fillings generalizing tx with
  | nil => rfl
  | cons f rest ih =>
    calc
      skeleton (fill tx (f :: rest)) = skeleton (fill (f.apply tx) rest) := rfl
      _ = skeleton (f.apply tx) := ih (f.apply tx)
      _ = skeleton tx := skeleton_apply tx f

end Fillings

section LegacyDigest

/-- The inputs the legacy digest encodes, before their sequences are cleared. -/
def signedInputs (tx : Transaction) (index : ℕ) (sighashType : UInt32) : List TxInput :=
  let cleared := tx.inputs.map fun i => { i with scriptSig := [] }
  if sighashType &&& sighashAnyonecanpay ≠ 0 then (cleared.drop index).take 1 else cleared

/-- The witnesses the legacy digest commits to: none when it is no digest of the transaction, one
with `SIGHASH_ANYONECANPAY`, and all of them otherwise. -/
def committedWitnesses (tx : Transaction) (index : ℕ) (sighashType : UInt32) : List Witness :=
  if tx.inputs.length ≤ index ∨ (sighashType &&& 0x1f = sighashSingle ∧ tx.outputs.length ≤ index) then []
  else if sighashType &&& sighashAnyonecanpay ≠ 0 then
    ((tx.inputs.map TxInput.witness).drop index).take 1
  else tx.inputs.map TxInput.witness

variable {tx tx' : Transaction} {index : ℕ} {sighashType : UInt32}

theorem length_of_skeleton (h : skeleton tx' = skeleton tx) : tx'.inputs.length = tx.inputs.length := by
  have hlen := congrArg (fun t => t.inputs.length) h
  simpa [skeleton] using hlen

theorem outputs_of_skeleton (h : skeleton tx' = skeleton tx) : tx'.outputs = tx.outputs := by
  have houtputs := congrArg Transaction.outputs h
  exact houtputs

theorem witnesses_signedInputs : (signedInputs tx index sighashType).map TxInput.witness =
      if sighashType &&& sighashAnyonecanpay ≠ 0 then ((tx.inputs.map TxInput.witness).drop index).take 1
      else tx.inputs.map TxInput.witness := by
  have hcleared : (tx.inputs.map fun i => { i with scriptSig := [] }).map TxInput.witness =
      tx.inputs.map TxInput.witness := by
    rw [List.map_map]
    rfl
  unfold signedInputs
  split
  · rw [List.map_take, List.map_drop, hcleared]
  · exact hcleared

/-- Clearing sequences keeps the witnesses. -/
theorem witnesses_signedCopy : (signedCopy tx index sighashType).inputs.map TxInput.witness =
      (signedInputs tx index sighashType).map TxInput.witness := by
  have hunsequenced : ∀ inputs : List TxInput, (inputs.zipIdx.map fun i =>
      if i.2 ≠ index ∧ ¬ sighashType &&& sighashAnyonecanpay ≠ 0 then { i.1 with sequence := 0 } else i.1).map
        TxInput.witness = inputs.map TxInput.witness := by
    intro inputs
    have hkept : ∀ i : TxInput × ℕ, TxInput.witness
        (if i.2 ≠ index ∧ ¬ sighashType &&& sighashAnyonecanpay ≠ 0 then { i.1 with sequence := 0 } else i.1) =
        TxInput.witness i.1 := by
      intro i
      split <;> rfl
    rw [List.map_map]
    calc
      inputs.zipIdx.map _ = inputs.zipIdx.map (TxInput.witness ∘ Prod.fst) := List.map_congr_left fun i _ => hkept i
      _ = inputs.map TxInput.witness := by rw [← List.map_map, List.zipIdx_map_fst]
  unfold signedCopy
  simp only
  split
  · exact hunsequenced _
  · split
    · exact hunsequenced _
    · rfl

theorem eq_of_bare {inputs inputs' : List TxInput} (hbare : inputs'.map bare = inputs.map bare)
    (hwitness : inputs'.map TxInput.witness = inputs.map TxInput.witness) (hempty : ∀ i ∈ inputs', i.scriptSig = [])
    (hempty' : ∀ i ∈ inputs, i.scriptSig = []) : inputs' = inputs := by
  induction inputs' generalizing inputs with
  | nil =>
    cases inputs with
    | nil => rfl
    | cons i rest => simp at hbare
  | cons i' rest' ih =>
    cases inputs with
    | nil => simp at hbare
    | cons i rest =>
      simp only [List.map_cons, List.cons.injEq] at hbare hwitness
      have hscript' := hempty i' List.mem_cons_self
      have hscript := hempty' i List.mem_cons_self
      have hrest := ih hbare.2 hwitness.2 (fun j hj => hempty j (List.mem_cons_of_mem _ hj))
        fun j hj => hempty' j (List.mem_cons_of_mem _ hj)
      obtain ⟨prevOutput, script, sequence, witness⟩ := i
      obtain ⟨prevOutput', script', sequence', witness'⟩ := i'
      simp_all [bare]

theorem signedCopy_eq_iff (h : skeleton tx' = skeleton tx) :
    signedCopy tx' index sighashType = signedCopy tx index sighashType ↔
      (signedInputs tx' index sighashType).map TxInput.witness =
        (signedInputs tx index sighashType).map TxInput.witness := by
  constructor
  · intro heq
    rw [← witnesses_signedCopy, heq, witnesses_signedCopy]
  · intro hwitness
    have hbare := congrArg Transaction.inputs h
    have hversion := congrArg Transaction.version h
    have hlock := congrArg Transaction.lockTime h
    simp only [skeleton] at hbare hversion hlock
    have hcleared : ∀ t : Transaction, (t.inputs.map fun i => { i with scriptSig := [] }).map bare =
        t.inputs.map bare := by
      intro t
      rw [List.map_map]
      rfl
    have hscripts : ∀ t : Transaction, ∀ i ∈ signedInputs t index sighashType, i.scriptSig = [] := by
      intro t i hi
      have hmem : i ∈ t.inputs.map fun i => { i with scriptSig := [] } := by
        unfold signedInputs at hi
        split at hi
        · exact List.mem_of_mem_drop (List.mem_of_mem_take hi)
        · exact hi
      obtain ⟨x, -, rfl⟩ := List.mem_map.mp hmem
      rfl
    have hsame : signedInputs tx' index sighashType = signedInputs tx index sighashType := by
      apply eq_of_bare _ hwitness (hscripts tx') (hscripts tx)
      unfold signedInputs
      split
      · rw [List.map_take, List.map_drop, List.map_take, List.map_drop, hcleared, hcleared, hbare]
      · rw [hcleared, hcleared, hbare]
    unfold signedInputs at hsame
    unfold signedCopy
    simp only [hsame, outputs_of_skeleton h, hversion, hlock]

/-- A digest function that gives different digests for two messages, when they differ. -/
def TellsApart (sha256 : Sha256) (a b : List UInt8) : Prop := sha256d sha256 a = sha256d sha256 b → a = b

/-- The message of the legacy digest. -/
def legacyMessage (tx : Transaction) (index : ℕ) (sighashType : UInt32) : List UInt8 :=
  bincodeTransaction (signedCopy tx index sighashType) ++ leBytes 4 sighashType.toNat

theorem legacyMessage_eq_iff (hsize : transactionBytes (signedCopy tx index sighashType) < 2 ^ 64)
    (hsize' : transactionBytes (signedCopy tx' index sighashType) < 2 ^ 64) :
    legacyMessage tx' index sighashType = legacyMessage tx index sighashType ↔
      signedCopy tx' index sighashType = signedCopy tx index sighashType := by
  refine ⟨fun heq => ?_, fun heq => by rw [legacyMessage, legacyMessage, heq]⟩
  have hread := reads_transaction hsize (leBytes 4 sighashType.toNat)
  have hread' := reads_transaction hsize' (leBytes 4 sighashType.toNat)
  unfold legacyMessage at heq
  rw [heq, hread] at hread'
  exact (Prod.mk.inj (Option.some.inj hread')).1.symm

end LegacyDigest

section WitnessDigest

variable {sha256 : Sha256} {tx tx' : Transaction}

/-- The BIP-143 digest reads the skeleton alone. -/
theorem segwitV0SignatureHash_skeleton (index : ℕ) (scriptCode : List UInt8) (value : UInt64) (sighashType : UInt32) :
    segwitV0SignatureHashWithType sha256 (skeleton tx) index scriptCode value sighashType =
      segwitV0SignatureHashWithType sha256 tx index scriptCode value sighashType := by
  have hprevouts : (skeleton tx).inputs.flatMap (fun i => digestOutpoint i.prevOutput) =
      tx.inputs.flatMap fun i => digestOutpoint i.prevOutput := by
    simp only [skeleton, List.flatMap_map]
    rfl
  have hsequences : (skeleton tx).inputs.flatMap (fun i => leBytes 4 i.sequence.toNat) =
      tx.inputs.flatMap fun i => leBytes 4 i.sequence.toNat := by
    simp only [skeleton, List.flatMap_map]
    rfl
  have hinput : (skeleton tx).inputs[index]? = tx.inputs[index]?.map bare := List.getElem?_map ..
  have hlen : (skeleton tx).inputs.length = tx.inputs.length := List.length_map ..
  unfold segwitV0SignatureHashWithType
  rw [hinput, hprevouts, hsequences]
  unfold indexOutOfBounds
  rw [hlen]
  cases tx.inputs[index]? <;> rfl

theorem segwitV0SignatureHash_congr (h : skeleton tx' = skeleton tx) (index : ℕ) (scriptCode : List UInt8)
    (value : UInt64) (sighashType : UInt32) :
    segwitV0SignatureHashWithType sha256 tx' index scriptCode value sighashType =
      segwitV0SignatureHashWithType sha256 tx index scriptCode value sighashType := by
  rw [← segwitV0SignatureHash_skeleton, h, segwitV0SignatureHash_skeleton]

end WitnessDigest

section Survival

/-- Whatever is left in the inputs, and in whichever order, the BIP-143 digests stay, and a legacy
digest stays exactly when the witnesses it commits to do. -/
theorem digests_survive_iff (sha256 : Sha256) (tx : Transaction) (fillings : List Filling) (index : ℕ)
    (sighashType : UInt32) (hsize : transactionBytes (signedCopy tx index sighashType) < 2 ^ 64)
    (hsize' : transactionBytes (signedCopy (fill tx fillings) index sighashType) < 2 ^ 64)
    (hapart : TellsApart sha256 (legacyMessage (fill tx fillings) index sighashType)
      (legacyMessage tx index sighashType)) : (signatureHashWithType sha256 (fill tx fillings) index sighashType =
        signatureHashWithType sha256 tx index sighashType ↔
      committedWitnesses (fill tx fillings) index sighashType = committedWitnesses tx index sighashType) ∧
    ∀ scriptCode value witnessType,
      segwitV0SignatureHashWithType sha256 (fill tx fillings) index scriptCode value witnessType =
        segwitV0SignatureHashWithType sha256 tx index scriptCode value witnessType := by
  have hskeleton := skeleton_fill tx fillings
  refine ⟨?_, segwitV0SignatureHash_congr hskeleton index⟩
  unfold signatureHashWithType committedWitnesses indexOutOfBounds
  rw [length_of_skeleton hskeleton, outputs_of_skeleton hskeleton]
  by_cases hrange : tx.inputs.length ≤ index
  · simp only [if_pos hrange, if_pos (Or.inl hrange : _ ∨ _)]
  · rw [if_neg hrange, if_neg hrange]
    by_cases hsingle : sighashType &&& 0x1f = sighashSingle ∧ tx.outputs.length ≤ index
    · simp only [if_pos hsingle, if_pos (Or.inr hsingle : _ ∨ _)]
    · have hdigest : ¬ (tx.inputs.length ≤ index ∨
          (sighashType &&& 0x1f = sighashSingle ∧ tx.outputs.length ≤ index)) := not_or.mpr ⟨hrange, hsingle⟩
      rw [if_neg hsingle, if_neg hsingle, if_neg hdigest, if_neg hdigest, ← witnesses_signedInputs,
        ← witnesses_signedInputs, ← signedCopy_eq_iff hskeleton, ← legacyMessage_eq_iff hsize hsize']
      rw [Except.ok.injEq]
      exact ⟨hapart, congrArg (sha256d sha256)⟩

/-- A transaction with two unsigned inputs and one output. -/
def twoInputs : Transaction :=
  ⟨2, [⟨⟨Bytes32.zero, 0⟩, [], 0xffffffff, Witness.empty⟩, ⟨⟨Bytes32.zero, 1⟩, [], 0xffffffff, Witness.empty⟩],
    [⟨1000, []⟩], 0⟩

theorem twoInputs_survive :
    (signatureHashWithType Sha256.sha256 (fill twoInputs [.scriptSig 1 [0x51], .scriptSig 0 [0x52]]) 0 sighashAll =
        signatureHashWithType Sha256.sha256 twoInputs 0 sighashAll ↔
      committedWitnesses (fill twoInputs [.scriptSig 1 [0x51], .scriptSig 0 [0x52]]) 0 sighashAll =
        committedWitnesses twoInputs 0 sighashAll) ∧
    ∀ scriptCode value witnessType,
      segwitV0SignatureHashWithType Sha256.sha256 (fill twoInputs [.scriptSig 1 [0x51], .scriptSig 0 [0x52]]) 0
          scriptCode value witnessType =
        segwitV0SignatureHashWithType Sha256.sha256 twoInputs 0 scriptCode value witnessType :=
  digests_survive_iff Sha256.sha256 twoInputs [.scriptSig 1 [0x51], .scriptSig 0 [0x52]] 0 sighashAll (by decide)
    (by decide) fun _ => by decide

/-- The second input gets a witness, and the legacy digest of the first one changes. -/
theorem witness_changes_digest :
    signatureHashWithType Sha256.sha256 (fill twoInputs [.witness 1 [[0x01]]]) 0 sighashAll ≠
      signatureHashWithType Sha256.sha256 twoInputs 0 sighashAll := by
  rw [← Sha256.runSha256_eq]
  decide +kernel

end Survival

end KuberCoin.SigningOrders
