import KuberCoin.BlockEffects
import KuberCoin.PayToScriptHash

/-!
The assume-valid path of block validation, which skips scripts.
The flag skips the validator of each transaction as a whole. When all signatures verify,
the two paths agree exactly on the blocks that fail another check or whose
transactions keep the rules of that validator by themselves.
-/
namespace KuberCoin.AssumeValid

open Bytes Maps Transactions Blocks UtxoSets Params Validator InputScripts Sighashes BlockEffects PayToScriptHash

section Rules

/-- The rules of the transaction validator other than its scripts. -/
structure TransactionRules (clock : UInt64) (u : UtxoSet) (height : ℕ) (mtp : Option (ℕ → UInt64))
    (tx : Transaction) : Prop where
  version : ¬ (tx.version = 0 ∨ tx.version > 2)
  range : ∀ o ∈ tx.outputs, o.value ≤ maxSupply
  lockTime : lockTimeMet clock mtp height tx = true
  inputs : ∀ i ∈ tx.inputs, ∃ c, u.lookup i.prevOutput = some c ∧
    ¬ (c.isCoinbase ∧ height < c.height + 100) ∧ sequenceLockMet mtp height tx i c = true
  small : inputValue u tx < 2 ^ 64
  balanced : outputValue tx ≤ inputValue u tx

/-- Every signature of a transaction verifies, if what it spends is there. -/
def SignaturesPass (checks : ScriptChecks) (u : UtxoSet) (tx : Transaction) : Prop :=
  ∀ spent, prevouts u tx.inputs = .ok spent → ∀ (index : ℕ) i c, tx.inputs[index]? = some i →
    u.lookup i.prevOutput = some c →
    checks.verifyInputSignature tx index c (spent.map fun c => c.output.value)
      (spent.map fun c => c.output.scriptPubkey) = .ok ()

variable {checks : ScriptChecks} {clock : UInt64} {u : UtxoSet} {height : ℕ}
  {mtp : Option (ℕ → UInt64)} {tx : Transaction}

theorem checkedAdd_of_lt {a b : UInt64} (h : a.toNat + b.toNat < 2 ^ 64) :
    Transaction.checkedAdd a b = some (a + b) := if_pos h

theorem validateInputs_of_rules {amounts : List UInt64} {scripts : List (List UInt8)} {inputs : List TxInput}
    {index : ℕ} {sum : UInt64} (hinputs : ∀ i ∈ inputs, ∃ c, u.lookup i.prevOutput = some c ∧
      ¬ (c.isCoinbase ∧ height < c.height + 100) ∧ sequenceLockMet mtp height tx i c = true)
    (hsigs : ∀ (k : ℕ) i c, inputs[k]? = some i → u.lookup i.prevOutput = some c →
      checks.verifyInputSignature tx (index + k) c amounts scripts = .ok ())
    (hsmall : sum.toNat + (inputs.map fun i => valueAt u i.prevOutput).sum < 2 ^ 64) :
    ∃ total, validateInputs checks tx u height mtp amounts scripts index sum inputs = .ok total := by
  induction inputs generalizing index sum with
  | nil => exact ⟨sum, rfl⟩
  | cons i rest ih =>
    rw [List.forall_mem_cons] at hinputs
    obtain ⟨⟨c, hc, hmature, hseq⟩, hrest⟩ := hinputs
    rw [List.map_cons, List.sum_cons] at hsmall
    have hvalue : valueAt u i.prevOutput = c.output.value.toNat := by simp [valueAt, hc]
    rw [hvalue] at hsmall
    have hadd := @checkedAdd_of_lt sum c.output.value (by omega)
    have hsum : (sum + c.output.value).toNat = sum.toNat + c.output.value.toNat := by
      rw [UInt64.toNat_add, Nat.mod_eq_of_lt (by omega)]
    have hsig := hsigs 0 i c rfl hc
    obtain ⟨total, htotal⟩ := @ih (index + 1) (sum + c.output.value) hrest (by
      intro k j d hj hd
      have := hsigs (k + 1) j d hj hd
      rwa [show index + (k + 1) = index + 1 + k from by omega] at this) (by rw [hsum]; omega)
    refine ⟨total, ?_⟩
    simp only [validateInputs, bind_eq_ok_iff, getUtxo_eq_ok_iff, require_eq_ok_iff]
    exact ⟨c, hc, (), hmature, (), hseq, (), hsig, by rw [hadd]; exact htotal⟩

theorem prevouts_of_present {inputs : List TxInput} (h : ∀ i ∈ inputs, ∃ c, u.lookup i.prevOutput = some c) :
    prevouts u inputs = .ok (inputs.filterMap fun i => u.lookup i.prevOutput) := by
  induction inputs with
  | nil => rfl
  | cons i rest ih =>
    rw [List.forall_mem_cons] at h
    obtain ⟨⟨c, hc⟩, hrest⟩ := h
    simp only [prevouts, getUtxo, hc, ih hrest, List.filterMap_cons]
    rfl

theorem totalOutputValue_of_lt {outs : List TxOutput} {acc : UInt64}
    (h : acc.toNat + (outs.map fun o => o.value.toNat).sum < 2 ^ 64) :
    ∃ v, outs.foldlM (fun acc o => Transaction.checkedAdd acc o.value) acc = some v := by
  induction outs generalizing acc with
  | nil => exact ⟨acc, rfl⟩
  | cons o rest ih =>
    rw [List.map_cons, List.sum_cons] at h
    have hsum : (acc + o.value).toNat = acc.toNat + o.value.toNat := by
      rw [UInt64.toNat_add, Nat.mod_eq_of_lt (by omega)]
    obtain ⟨v, hv⟩ := @ih (acc + o.value) (by rw [hsum]; omega)
    refine ⟨v, ?_⟩
    rw [List.foldlM_cons, checkedAdd_of_lt (by omega)]
    exact hv

theorem validateTransactionCached_ok_iff (hcb : tx.isCoinbase = false) (hsigs : SignaturesPass checks u tx) :
    validateTransactionCached checks clock tx u height mtp = .ok () ↔
      TransactionRules clock u height mtp tx := by
  constructor
  · intro h
    have hchecked := validateTransactionCached_ok hcb h
    simp only [validateTransactionCached, hcb, Bool.false_eq_true, if_false, bind_eq_ok_iff,
      require_eq_ok_iff, forEach_eq_ok_iff] at h
    obtain ⟨-, hversion, -, hrange, -, hlock, spent, -, inputSum, hinputs, -⟩ := h
    refine ⟨hversion, ?_, hlock, ?_, hchecked.small, hchecked.balanced⟩
    · intro o ho
      obtain ⟨k, hk, rfl⟩ := List.getElem_of_mem ho
      exact hrange (tx.outputs[k], k) (List.mem_zipIdx_iff_getElem?.mpr (by simp [hk]))
    · exact (validateInputs_ok hinputs).1
  · intro h
    have hpresent : ∀ i ∈ tx.inputs, ∃ c, u.lookup i.prevOutput = some c := by
      intro i hi
      obtain ⟨c, hc, -⟩ := h.inputs i hi
      exact ⟨c, hc⟩
    have hspent := prevouts_of_present hpresent
    have hsmall := h.small
    have hbalanced := h.balanced
    obtain ⟨total, htotal⟩ := @validateInputs_of_rules checks u height mtp tx _ _ tx.inputs 0 0
      h.inputs (fun k i c hi hc => by
        rw [Nat.zero_add]
        exact hsigs _ hspent k i c hi hc) (by simpa [inputValue] using hsmall)
    have hsum : total.toNat = inputValue u tx := by
      simpa [inputValue] using (validateInputs_ok htotal).2
    obtain ⟨out, hout⟩ := @totalOutputValue_of_lt tx.outputs 0 (by
      rw [outputValue] at hbalanced
      simpa using lt_of_le_of_lt hbalanced hsmall)
    have hle : out ≤ total := by
      rw [UInt64.le_iff_toNat_le, totalOutputValue_eq_some hout, hsum]
      exact hbalanced
    simp only [validateTransactionCached, hcb, Bool.false_eq_true, if_false, bind_eq_ok_iff,
      require_eq_ok_iff, forEach_eq_ok_iff]
    refine ⟨(), h.version, (), ?_, (), h.lockTime, _, hspent, total, htotal, ?_⟩
    · rintro ⟨o, k⟩ ho
      exact h.range o (List.fst_mem_of_mem_zipIdx ho)
    · rw [Transaction.totalOutputValue, hout]
      exact require_eq_ok_iff.mpr hle

end Rules

section Batches

variable {eng : Engine} {u : UtxoSet} {tx : Transaction}

theorem present_of_length {inputs : List TxInput}
    (h : (inputs.filterMap fun i => u.lookup i.prevOutput).length = inputs.length) :
    ∀ i ∈ inputs, ∃ c, u.lookup i.prevOutput = some c := by
  rw [List.length_filterMap_eq_countP, List.countP_eq_length] at h
  intro i hi
  exact Option.isSome_iff_exists.mp (h i hi)

theorem verifyBatchItem_of_taproot {index : ℕ} {outputKey : List UInt8} {amounts : List UInt64}
    {scripts witness : List (List UInt8)} (h : verifyTaproot eng tx index outputKey amounts scripts witness = .ok ())
    (hone : (effectiveStack witness).length = 1) (hlen : ((effectiveStack witness).getD 0 []).length = 64 ∨
      ((effectiveStack witness).getD 0 []).length = 65) : verifyBatchItem eng
      { tx := tx
        inputIndex := index
        prevoutAmounts := amounts
        prevoutScripts := scripts
        sigBytes := ((effectiveStack witness).getD 0 []).take 64
        sighashType :=
          if ((effectiveStack witness).getD 0 []).length = 65 then
            ((effectiveStack witness).getD 0 []).getD 64 0
          else 0x00
        outputKey := outputKey } = true := by
  unfold verifyTaproot at h
  simp only [hone, hlen, and_self, if_true] at h
  generalize hsig : (effectiveStack witness).getD 0 [] = element at h hlen ⊢
  have hsplit : ∀ r, splitSchnorr index element = .ok r →
      r = (element.take 64, if element.length = 65 then element.getD 64 0 else 0x00) := by
    intro r hr
    simp only [splitSchnorr] at hr
    by_cases h65 : element.length = 65
    · rw [if_pos h65] at hr ⊢
      split at hr
      · cases hr
      · exact (Except.ok.inj hr).symm
    · rw [if_neg h65] at hr ⊢
      rw [List.take_of_length_le (by omega)]
      exact (Except.ok.inj hr).symm
  rw [bind_eq_ok_iff] at h
  obtain ⟨r, hr, h⟩ := h
  rw [hsplit r hr] at h
  simp only [bind_eq_ok_iff, require_eq_ok_iff] at h
  obtain ⟨-, -, sighash, hsighash, hverified⟩ := h
  unfold verifyBatchItem
  cases hdigest : taprootSignatureHash eng.sha256 tx index amounts scripts
      (if element.length = 65 then element.getD 64 0 else 0x00) with
  | error e => rfl
  | ok digest =>
    rw [hdigest] at hsighash
    obtain rfl := Except.ok.inj hsighash
    simp [hverified]

theorem effectiveStack_length (stack : List (List UInt8)) :
    (if (stack.length ≥ 2 && (stack.getLast?.map fun a => a.head? == some 0x50).getD false) = true
      then stack.length - 1 else stack.length) = (effectiveStack stack).length := by
  unfold effectiveStack
  by_cases h : 2 ≤ stack.length ∧
      (stack.getLast?.map fun a => a.head? == some 0x50).getD false = true
  · rw [if_pos h, if_pos (by simpa using h), List.length_dropLast]
  · rw [if_neg h, if_neg (by simpa using h)]

theorem effectiveStack_head {stack : List (List UInt8)} (h : (effectiveStack stack).length = 1) :
    (effectiveStack stack).getD 0 [] = stack.getD 0 [] := by
  unfold effectiveStack at h ⊢
  split_ifs at h ⊢ with hannex
  · cases stack with
    | nil => simp at hannex
    | cons a rest =>
      cases rest with
      | nil => simp at hannex
      | cons b rest => rfl
  · rfl

theorem batchItem_verifies {index : ℕ} {i : TxInput} {item : BatchItem} (hsigs : SignaturesPass (scriptChecks eng) u tx)
    (hi : tx.inputs[index]? = some i) (hitem : batchItem u tx index i = some item) :
    verifyBatchItem eng item = true := by
  unfold batchItem at hitem
  obtain ⟨c, hc, hitem⟩ := Option.bind_eq_some_iff.mp hitem
  simp only [effectiveStack_length] at hitem
  by_cases hspk : c.output.scriptPubkey.length ≠ 34 ∨ c.output.scriptPubkey.getD 0 0 ≠ 0x51 ∨
      c.output.scriptPubkey.getD 1 0 ≠ 0x20
  · rw [if_pos hspk] at hitem
    cases hitem
  by_cases hone : (effectiveStack i.witness.stack).length ≠ 1
  · rw [if_neg hspk, if_pos hone] at hitem
    cases hitem
  by_cases hsig : (i.witness.stack.getD 0 []).length ≠ 64 ∧ (i.witness.stack.getD 0 []).length ≠ 65
  · rw [if_neg hspk, if_neg hone, if_pos hsig] at hitem
    cases hitem
  by_cases hall : (tx.inputs.filterMap fun j => u.lookup j.prevOutput).length ≠ tx.inputs.length
  · rw [if_neg hspk, if_neg hone, if_neg hsig, if_pos hall] at hitem
    cases hitem
  rw [if_neg hspk, if_neg hone, if_neg hsig, if_neg hall] at hitem
  simp only [not_or, not_not] at hspk hone hall
  obtain ⟨hlen, b0, b1⟩ := hspk
  have hspent := prevouts_of_present (present_of_length hall)
  have hverified := hsigs _ hspent index i c hi hc
  have hpkh : isP2wpkh c.output.scriptPubkey = false := by simp [isP2wpkh, hlen]
  have hwsh : isP2wsh c.output.scriptPubkey = false := by
    unfold isP2wsh
    rw [b0]
    simp
  have htaproot : verifyTaproot eng tx index (c.output.scriptPubkey.drop 2)
      ((tx.inputs.filterMap fun j => u.lookup j.prevOutput).map fun c => c.output.value)
      ((tx.inputs.filterMap fun j => u.lookup j.prevOutput).map fun c => c.output.scriptPubkey)
      i.witness.stack = .ok () := by
    change verifyOutput eng tx index c.output _ _ = .ok () at hverified
    unfold verifyOutput at hverified
    simp only [hi, hpkh, hwsh, Bool.false_eq_true, if_false] at hverified
    rwa [if_pos ⟨hlen, b0, b1⟩] at hverified
  have hbatch := verifyBatchItem_of_taproot htaproot hone (by
    rw [effectiveStack_head hone]
    by_contra hneither
    exact hsig (not_or.mp hneither))
  rw [effectiveStack_head hone] at hbatch
  rw [← Option.some.inj hitem]
  exact hbatch

theorem batchItems_verify {txs : List Transaction} (hsigs : ∀ tx ∈ txs, SignaturesPass (scriptChecks eng) u tx) :
    (scriptChecks eng).verifyBatch (batchItems u txs) = true := by
  refine List.all_eq_true.mpr ?_
  intro item hitem
  obtain ⟨tx, htx, hitem⟩ := List.mem_flatMap.mp hitem
  obtain ⟨⟨i, index⟩, hi, hitem⟩ := List.mem_filterMap.mp hitem
  exact batchItem_verifies (hsigs tx htx) (List.mem_zipIdx_iff_getElem?.mp hi) hitem

end Batches

section Blocks

variable {sha256 : Sha256} {eng : Engine} {clock : UInt64} {b : Block} {u : UtxoSet}
  {mtp : Option (ℕ → UInt64)}

theorem validateBlockCached_ok_iff (hsigs : ∀ tx ∈ b.transactions.tail, SignaturesPass (scriptChecks eng) u tx) :
    validateBlockCached sha256 (scriptChecks eng) clock b u mtp = .ok () ↔
      validateBlockNoScriptsWithMtp sha256 (scriptChecks eng) clock b u mtp = .ok () ∧
        ∀ tx ∈ b.transactions.tail, TransactionRules clock u b.header.height mtp tx := by
  unfold validateBlockCached validateBlockNoScriptsWithMtp validateBlockFull
  cases htxs : b.transactions with
  | nil => simp
  | cons coinbase txs =>
    rw [htxs, List.tail_cons] at hsigs
    have hbatch := batchItems_verify hsigs
    simp only [List.tail_cons, Bool.false_eq_true, if_false, if_true, bind_eq_ok_iff,
      require_eq_ok_iff, forEach_eq_ok_iff]
    constructor
    · rintro ⟨-, hweight, -, htime, -, hversion, -, hfresh, -, hfirst, -, hothers, -, hsigops, -,
        hchecked, -, -, -, hnodup, -, hreward, -, hroot, hwitness⟩
      refine ⟨⟨(), hweight, (), htime, (), hversion, (), hfresh, (), hfirst, (), hothers, (), hsigops,
        (), trivial, (), hnodup, (), hreward, (), hroot, hwitness⟩, ?_⟩
      intro tx htx
      have hcb : tx.isCoinbase = false := by simpa using List.all_eq_true.mp hothers tx htx
      exact (validateTransactionCached_ok_iff hcb (hsigs tx htx)).mp (hchecked tx htx)
    · rintro ⟨⟨-, hweight, -, htime, -, hversion, -, hfresh, -, hfirst, -, hothers, -, hsigops, -,
        -, -, hnodup, -, hreward, -, hroot, hwitness⟩, hrules⟩
      refine ⟨(), hweight, (), htime, (), hversion, (), hfresh, (), hfirst, (), hothers, (), hsigops,
        (), ?_, (), hbatch, (), hnodup, (), hreward, (), hroot, hwitness⟩
      intro tx htx
      have hcb : tx.isCoinbase = false := by simpa using List.all_eq_true.mp hothers tx htx
      exact (validateTransactionCached_ok_iff hcb (hsigs tx htx)).mpr (hrules tx htx)

/-- When every signature verifies, the two paths accept a block or reject it together, unless the
short path accepts it although one of its transactions breaks a rule of the validator. -/
theorem assume_valid_agrees_iff (hsigs : ∀ tx ∈ b.transactions.tail, SignaturesPass (scriptChecks eng) u tx) :
    (validateBlockNoScriptsWithMtp sha256 (scriptChecks eng) clock b u mtp = .ok () ↔
        validateBlockCached sha256 (scriptChecks eng) clock b u mtp = .ok ()) ↔
      (validateBlockNoScriptsWithMtp sha256 (scriptChecks eng) clock b u mtp = .ok () →
        ∀ tx ∈ b.transactions.tail, TransactionRules clock u b.header.height mtp tx) := by
  rw [validateBlockCached_ok_iff hsigs]
  constructor
  · intro hagree hshort
    exact (hagree.mp hshort).2
  · intro hrules
    constructor
    · intro hshort
      exact ⟨hshort, hrules hshort⟩
    · rintro ⟨hshort, -⟩
      exact hshort

/-- Scripts that all fail. -/
def rejectingEngine : Engine where
  sha256 := Sha256.sha256
  ripemd160 _ := []
  interpreter :=
    { State := Unit
      new := ()
      setSegwitContext _ _ _ := ()
      pushData _ _ := ()
      execute _ _ _ _ := .error ""
      popTop _ := .error ""
      stackLen _ := 0
      stackTopTrue _ := false }
  publicKey _ := .error ""
  fromDer _ := false
  verifyEcdsa _ _ _ := false
  schnorrFromBytes _ := false
  verifySchnorr _ _ _ := false
  tapscript _ _ _ _ _ index := .error (.invalidSignature index)
  verifyP2sh _ _ _ := .ok false
  verifyP2pkh _ _ _ := .ok false

/-- A set with one output, the transaction that spends it, and the block of the latter. -/
def openSet : UtxoSet := (∅ : UtxoSet).insert ⟨Bytes32.zero, 1⟩ ⟨payTo openScript 1000, 0, false⟩

def openTransaction : Transaction := spendOpen ⟨Bytes32.zero, 1⟩ 900

def openTransactions : List Transaction := [committingCoinbase [openTransaction], openTransaction]

/-- The witness script runs, and the block is valid with and without it. -/
theorem openTransaction_agrees : SignaturesPass (scriptChecks keylessEngine) openSet openTransaction ∧
    validateBlockNoScriptsWithMtp Sha256.sha256 (scriptChecks keylessEngine) 0 (firstBlock openTransactions)
        openSet (some fun _ => 1706832000) = .ok () ∧
    validateBlockCached Sha256.sha256 (scriptChecks keylessEngine) 0 (firstBlock openTransactions)
        openSet (some fun _ => 1706832000) = .ok () := by
  have hcoin : openSet.lookup ⟨Bytes32.zero, 1⟩ = some ⟨payTo openScript 1000, 0, false⟩ := Finmap.lookup_insert _
  have hpass : SignaturesPass (scriptChecks keylessEngine) openSet openTransaction := by
    intro spent hspent index i c hi hc
    obtain ⟨rfl, rfl⟩ : 0 = index ∧ (⟨⟨Bytes32.zero, 1⟩, [], 0xffffffff, ⟨[openScript]⟩⟩ : TxInput) = i := by
      cases index with
      | zero => exact ⟨rfl, Option.some.inj hi⟩
      | succ index => cases hi
    obtain rfl := Option.some.inj (hcoin.symm.trans hc)
    have hrun : prevouts openSet openTransaction.inputs = .ok [⟨payTo openScript 1000, 0, false⟩] := by
      decide +kernel
    obtain rfl := Except.ok.inj (hrun.symm.trans hspent)
    decide +kernel
  have hshort : validateBlockNoScriptsWithMtp Sha256.sha256 (scriptChecks keylessEngine) 0
      (firstBlock openTransactions) openSet (some fun _ => 1706832000) = .ok () := by
    rw [← runFirstBlock_eq, ← Sha256.runSha256_eq]
    decide +kernel
  have hrules : TransactionRules 0 openSet 1 (some fun _ => 1706832000) openTransaction := by
    refine ⟨by decide, ?_, by decide, ?_, by decide +kernel, by decide +kernel⟩
    · intro o ho
      rw [List.mem_singleton.mp ho]
      decide
    · intro i hi
      rw [List.mem_singleton.mp hi]
      exact ⟨_, hcoin, by decide, by decide⟩
  have hagree := (@assume_valid_agrees_iff Sha256.sha256 keylessEngine 0 (firstBlock openTransactions) openSet
    (some fun _ => 1706832000) (fun tx htx => (List.mem_singleton.mp htx) ▸ hpass)).mpr
      fun _ tx htx => (List.mem_singleton.mp htx) ▸ hrules
  exact ⟨hpass, hshort, hagree.mp hshort⟩

/-- A transaction that spends an output that does not exist and creates a thousand satoshis. -/
def mintingTransaction : Transaction :=
  { version := 1
    inputs := [⟨⟨Bytes32.zero, 0⟩, [], 0xffffffff, Witness.empty⟩]
    outputs := [⟨1000, [0x51]⟩]
    lockTime := 0 }

/-- No signature is ever looked at, and the short path accepts what the full path rejects. -/
theorem missing_input_assumed_valid : (∀ tx ∈ (firstBlock [emptyCoinbase, mintingTransaction]).transactions.tail,
      SignaturesPass (scriptChecks rejectingEngine) ∅ tx) ∧
    validateBlockNoScriptsWithMtp Sha256.sha256 (scriptChecks rejectingEngine) 0
        (firstBlock [emptyCoinbase, mintingTransaction]) ∅ (some fun _ => 1706832000) = .ok () ∧
    validateBlockCached Sha256.sha256 (scriptChecks rejectingEngine) 0
        (firstBlock [emptyCoinbase, mintingTransaction]) ∅ (some fun _ => 1706832000) =
      .error (.missingInput ⟨Bytes32.zero, 0⟩) := by
  rw [← runFirstBlock_eq, ← Sha256.runSha256_eq]
  refine ⟨?_, by decide +kernel, by decide +kernel⟩
  intro tx htx spent hspent
  obtain rfl : tx = mintingTransaction := List.mem_singleton.mp htx
  have hmissing : prevouts ∅ mintingTransaction.inputs = .error (.missingInput ⟨Bytes32.zero, 0⟩) := by
    decide
  rw [hmissing] at hspent
  cases hspent

end Blocks

end KuberCoin.AssumeValid
