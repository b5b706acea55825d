import KuberCoin.CommitmentTxs
import KuberCoin.ScriptHashSpends

/-!
The delayed output of a commitment transaction, and who can spend it. Its script is none of the
templates that `verify_input_signature` knows, so it is checked as a P2PKH script (crate `tx`,
`Script::verify_p2pkh`), which refuses every script that does not have 25 bytes.
-/
namespace KuberCoin.DelayedOutputs

open Bytes Transactions Validator Sighashes InputScripts ScriptInterpreters ScriptRuns PayToScriptHash
  ScriptHashSpends Channels CommitmentTxs

section KeyHash

variable (prims : Primitives)

/-- `Display` of `TxError::Script`. -/
def scriptError (message : String) : String := "script error: " ++ message

def maxScriptSize : ℕ := 10 * 1024

/-- `Script::verify_p2pkh`. Its counters stay below their limits, and its time is not modelled. -/
def verifyP2pkh (scriptSig spk : List UInt8) (message : Bytes32) : Except String Bool :=
  let sigLen := (scriptSig.getD 0 0).toNat
  let sigBytes := (scriptSig.drop 1).take sigLen
  let pubkeyLen := (scriptSig.getD (1 + sigLen) 0).toNat
  let pubkeyBytes := (scriptSig.drop (1 + sigLen + 1)).take pubkeyLen
  if maxScriptSize < scriptSig.length then .error (scriptError "signature exceeds maximum size")
  else if maxScriptSize < spk.length then .error (scriptError "pubkey exceeds maximum size")
  else if scriptSig.length < 2 then .error (scriptError "signature validation failed")
  else if sigLen = 0 ∨ 256 < sigLen then .error (scriptError "signature validation failed")
  else if scriptSig.length < 1 + sigLen + 1 then .error (scriptError "signature validation failed")
  else if (prims.fromDer sigBytes).toBool = false then .error (scriptError "signature validation failed")
  else if pubkeyLen = 0 ∨ 256 < pubkeyLen then .error (scriptError "signature validation failed")
  else if scriptSig.length < 1 + sigLen + 1 + pubkeyLen then .error (scriptError "signature validation failed")
  else if (prims.publicKey pubkeyBytes).toBool = false then .error (scriptError "signature validation failed")
  else if spk.length ≠ 25 then .error (scriptError "validation failed")
  else if spk.getD 0 0 ≠ 0x76 ∨ spk.getD 1 0 ≠ 0xa9 ∨ spk.getD 2 0 ≠ 20 ∨ spk.getD 23 0 ≠ 0x88 ∨
      spk.getD 24 0 ≠ 0xac then .error (scriptError "validation failed")
  else if (spk.drop 3).take 20 ≠ keyHash prims.sha256 prims.ripemd160 (prims.serializeKey pubkeyBytes) then .ok false
  else .ok (prims.verifyEcdsa pubkeyBytes sigBytes message)

/-- Input verification with the interpreter and the P2PKH check in place; taproot is as in `eng`. -/
def fullEngine (eng : Engine) : Engine := { scriptEngine prims eng with verifyP2pkh := verifyP2pkh prims }

variable {prims}

theorem verifyP2pkh_length {scriptSig spk : List UInt8} {message : Bytes32}
    (h : verifyP2pkh prims scriptSig spk message = .ok true) : spk.length = 25 := by
  by_contra hlength
  unfold verifyP2pkh at h
  simp only [hlength, ne_eq, not_false_eq_true, if_true] at h
  repeat' split at h
  all_goals cases h

/-- An output that is none of the templates is checked as a P2PKH output. -/
theorem length_of_verified {eng : Engine} {tx : Transaction} {index : ℕ} {output : TxOutput} {amounts : List UInt64}
    {scripts : List (List UInt8)} (h : verifyOutput (fullEngine prims eng) tx index output amounts scripts = .ok ()) :
    output.scriptPubkey.length = 22 ∨ output.scriptPubkey.length = 34 ∨ output.scriptPubkey.length = 23 ∨
      output.scriptPubkey.length = 25 := by
  unfold verifyOutput at h
  split at h
  next => cases h
  next input hinput =>
    simp only at h
    split at h
    next hkind =>
      simp only [isP2wpkh, Bool.and_eq_true, decide_eq_true_iff] at hkind
      exact .inl hkind.1.1
    next =>
      split at h
      next hkind =>
        simp only [isP2wsh, Bool.and_eq_true, decide_eq_true_iff] at hkind
        exact .inr (.inl hkind.1.1)
      next =>
        split at h
        next hkind => exact .inr (.inl hkind.1)
        next =>
          split at h
          next hkind =>
            simp only [isP2sh, Bool.and_eq_true, decide_eq_true_iff] at hkind
            exact .inr (.inr (.inl hkind.1.1.1))
          next =>
            obtain ⟨sighash, -, h⟩ := bind_eq_ok_iff.mp h
            obtain ⟨valid, hvalid, h⟩ := bind_eq_ok_iff.mp h
            rw [require_eq_ok_iff] at h
            have hok := asInvalidScript_eq_ok.mp hvalid
            rw [h] at hok
            exact .inr (.inr (.inr (verifyP2pkh_length hok)))

end KeyHash

section Scripts

theorem lowBytes_length_le (fuel : ℕ) {n k : ℕ} (h : n < 256 ^ k) : (lowBytes fuel n).length ≤ k := by
  induction fuel generalizing n k with
  | zero => exact Nat.zero_le k
  | succ fuel ih =>
    rw [lowBytes]
    split
    next => exact Nat.zero_le k
    next hpos =>
      cases k with
      | zero =>
        rw [pow_zero] at h
        omega
      | succ k =>
        have hdiv : n / 256 < 256 ^ k := Nat.div_lt_of_lt_mul (by rwa [pow_succ, Nat.mul_comm] at h)
        rw [List.length_cons]
        exact Nat.succ_le_succ (ih hdiv)

theorem withSign_length_le (negative : Bool) (buf : List UInt8) : (withSign negative buf).length ≤ buf.length + 1 := by
  unfold withSign
  split
  next => omega
  next last hlast =>
    split
    next => simp
    next =>
      split
      next => simp
      next => omega

theorem pushNumber_length (delay : UInt32) :
    1 ≤ (pushNumber (Int64.ofNat delay.toNat)).length ∧ (pushNumber (Int64.ofNat delay.toNat)).length ≤ 6 := by
  have hdelay := delay.toNat_lt
  have hint : (Int64.ofNat delay.toNat).toInt = delay.toNat := Int64.toInt_ofNat_of_lt (by omega)
  unfold pushNumber
  split
  next => simp
  next =>
    split
    next => simp
    next =>
      have hlow : (lowBytes 8 (Int64.ofNat delay.toNat).toInt.natAbs).length ≤ 4 := by
        apply lowBytes_length_le
        rw [hint]
        simpa using hdelay
      have hsign := withSign_length_le (decide (Int64.ofNat delay.toNat < 0))
        (lowBytes 8 (Int64.ofNat delay.toNat).toInt.natAbs)
      simp only [List.length_cons]
      omega

theorem buildCsvScript_length (delay : UInt32) {pubkeyHash : List UInt8} (h : pubkeyHash.length = 20) :
    28 ≤ (buildCsvScript delay pubkeyHash).length ∧ (buildCsvScript delay pubkeyHash).length ≤ 33 := by
  obtain ⟨hpos, hle⟩ := pushNumber_length delay
  unfold buildCsvScript
  simp only [List.length_append, List.length_cons, List.length_nil, h]
  omega

end Scripts

section Claims

variable {prims : Primitives} {eng : Engine}

theorem csv_output_rejected (delay : UInt32) (pubkey : List UInt8) (value : UInt64) (spend : Transaction) (index : ℕ)
    (amounts : List UInt64) (scripts : List (List UInt8)) : verifyOutput (fullEngine prims eng) spend index
      ⟨value, buildCsvScript delay (keyHash prims.sha256 prims.ripemd160 pubkey)⟩ amounts scripts ≠ .ok () := by
  intro h
  have hlength := length_of_verified h
  have hcsv := buildCsvScript_length delay (prims.ripemd160_length (prims.sha256 pubkey).bytes)
  unfold keyHash at hlength
  simp only at hlength
  omega

/-- The transaction with the script of one input filled in. -/
def withScriptSig (tx : Transaction) (index : ℕ) (scriptSig : List UInt8) : Transaction :=
  { tx with inputs := tx.inputs.modify index fun i => { i with scriptSig := scriptSig } }

/-- The sequence is a relative lock in blocks, of the given number. -/
def BlockSequence (sequence : UInt32) (blocks : ℕ) : Prop :=
  sequence &&& 0x80000000 = 0 ∧ sequence &&& 0x400000 = 0 ∧ (sequence &&& 0xffff).toNat = blocks

variable (prims eng) in
/-- The output is spendable with the key from the delay on, and not before. -/
def Claimable (output : TxOutput) (delay : UInt32) (pubkey : List UInt8) : Prop :=
  ∀ (spend : Transaction) (index : ℕ) (input : TxInput) (blocks : ℕ) (amounts : List UInt64)
    (scripts : List (List UInt8)), spend.inputs[index]? = some input → BlockSequence input.sequence blocks →
    (delay.toNat ≤ blocks → ∃ signature,
      verifyOutput (fullEngine prims eng) (withScriptSig spend index (newP2pkhSig signature pubkey)) index output
        amounts scripts = .ok ()) ∧
    (blocks < delay.toNat → ∀ signature,
      verifyOutput (fullEngine prims eng) (withScriptSig spend index (newP2pkhSig signature pubkey)) index output
        amounts scripts ≠ .ok ())

theorem not_claimable (delay : UInt32) (hdelay : delay.toNat ≤ 65535) (pubkey : List UInt8) (value : UInt64) :
    ¬ Claimable prims eng ⟨value, buildCsvScript delay (keyHash prims.sha256 prims.ripemd160 pubkey)⟩ delay
      pubkey := by
  intro h
  let input : TxInput := ⟨OutPoint.null, [], 0xffff, Witness.empty⟩
  have hsequence : BlockSequence input.sequence 65535 := ⟨by decide, by decide, by decide⟩
  obtain ⟨signature, hok⟩ := (h ⟨2, [input], [], 0⟩ 0 input 65535 [] [] rfl hsequence).1 hdelay
  exact csv_output_rejected delay pubkey value _ 0 [] [] hok

theorem delayed_output_mem {c : Channel} {localKey : PrivateKey} {remotePubkey : List UInt8} {csvDelay : UInt32}
    {fee : UInt64} {tx : Transaction}
    (hbuild : buildCommitmentTx prims.sha256 prims.ripemd160 c localKey remotePubkey csvDelay fee = .ok tx)
    (hshare : 546 < saturatingSub c.localBalance (fee / 2)) : ⟨saturatingSub c.localBalance (fee / 2),
      buildCsvScript csvDelay (keyHash prims.sha256 prims.ripemd160 localKey.publicKey)⟩ ∈ tx.outputs := by
  unfold buildCommitmentTx at hbuild
  rw [spendFunding_outputs hbuild, List.mem_append]
  right
  unfold outputAboveDust
  rw [if_pos hshare]
  exact List.mem_singleton_self _

/-- The delayed output of a commitment transaction cannot be claimed, whatever the channel, the keys, the
delay and the fee are. -/
theorem delayed_output_not_claimable (prims : Primitives) (eng : Engine) (c : Channel) (localKey : PrivateKey)
    (remotePubkey : List UInt8) (csvDelay : UInt32) (hdelay : csvDelay.toNat ≤ 65535) (fee : UInt64) (tx : Transaction)
    (hbuild : buildCommitmentTx prims.sha256 prims.ripemd160 c localKey remotePubkey csvDelay fee = .ok tx)
    (hshare : 546 < saturatingSub c.localBalance (fee / 2)) : ∃ output ∈ tx.outputs,
      output.scriptPubkey = buildCsvScript csvDelay (keyHash prims.sha256 prims.ripemd160 localKey.publicKey) ∧
      (∀ spend index amounts scripts,
        verifyOutput (fullEngine prims eng) spend index output amounts scripts ≠ .ok ()) ∧
      ¬ Claimable prims eng output csvDelay localKey.publicKey :=
  ⟨_, delayed_output_mem hbuild hshare, rfl, fun spend index amounts scripts =>
    csv_output_rejected csvDelay _ _ spend index amounts scripts, not_claimable csvDelay hdelay _ _⟩

/-- Every key, signature and digest is accepted. -/
def permissive : Primitives :=
  { keyless with publicKey := fun _ => .ok (), fromDer := fun _ => .ok (), verifyEcdsa := fun _ _ _ => true }

theorem sample_commitment_ok :
    ∃ tx, buildCommitmentTx permissive.sha256 permissive.ripemd160 (sampleChannel 60000) blankKey [3] 144 2000 =
      .ok tx := by
  refine spendFunding_eq_ok.mpr fun h => ?_
  have hnil := (List.append_eq_nil_iff.mp h).1
  unfold outputAboveDust at hnil
  rw [if_pos (by decide)] at hnil
  cases hnil

theorem sample_output_not_claimable :
    ∃ tx, buildCommitmentTx permissive.sha256 permissive.ripemd160 (sampleChannel 60000) blankKey [3] 144 2000 =
        .ok tx ∧
      ∃ output ∈ tx.outputs, ¬ Claimable permissive keylessEngine output 144 blankKey.publicKey := by
  obtain ⟨tx, htx⟩ := sample_commitment_ok
  obtain ⟨output, hmem, -, -, hnot⟩ := delayed_output_not_claimable permissive keylessEngine (sampleChannel 60000)
    blankKey [3] 144 (by decide) 2000 tx htx (by decide)
  exact ⟨tx, htx, output, hmem, hnot⟩

/-- Even where every signature is valid, the output with a delay of 144 blocks cannot be claimed. -/
theorem delayed_output_burnt :
    ∃ tx, buildCommitmentTx permissive.sha256 permissive.ripemd160 (sampleChannel 60000) blankKey [3] 144 2000 =
        .ok tx ∧
      ∃ output ∈ tx.outputs,
        output.scriptPubkey = buildCsvScript 144 (keyHash permissive.sha256 permissive.ripemd160 blankKey.publicKey) ∧
        ¬ Claimable permissive keylessEngine output 144 blankKey.publicKey := by
  obtain ⟨tx, htx⟩ := sample_commitment_ok
  exact ⟨tx, htx, _, delayed_output_mem htx (by decide), rfl, not_claimable 144 (by decide) _ _⟩

end Claims

end KuberCoin.DelayedOutputs
