import KuberCoin.Maps
import KuberCoin.Blocks
import Mathlib.Algebra.BigOperators.Group.List.Basic

/-!
The UTXO set (crate `chain`): applying transactions and blocks with and without
undo data, rolling a block back, and the commitment hash.
Operations return the set next to the result, because the source changes the set
in place: a failing application leaves behind what it had done so far.
-/
namespace KuberCoin.UtxoSets

open Bytes Maps Transactions Blocks

structure UTXO where
  output : TxOutput
  height : ℕ
  isCoinbase : Bool
deriving DecidableEq

abbrev UtxoSet := Map OutPoint UTXO

/-- Confirmations a coinbase output needs before it can be spent. -/
def coinbaseMaturity : ℕ := 100

/-- `ChainError::Validation`, one constructor for each message. -/
inductive ChainError where
  | missingInput (outpoint : OutPoint)
  | outputIndexExceedsU32
  | duplicateUnspentOutput (outpoint : OutPoint)
deriving DecidableEq

structure TxUndoData where
  spentUtxos : List (OutPoint × UTXO)
  createdOutpoints : List OutPoint
deriving DecidableEq

structure BlockUndoData where
  txUndo : List TxUndoData
deriving DecidableEq

variable (sha256 : Sha256)

/-- The first input outpoint that is not in the set. -/
def firstMissing (u : UtxoSet) (inputs : List TxInput) : Option OutPoint :=
  (inputs.map TxInput.prevOutput).find? fun o => (u.lookup o).isNone

/-- Spend the inputs in order, recording each removed entry. -/
def spendInputs : UtxoSet → List TxInput → List (OutPoint × UTXO) × UtxoSet
  | u, [] => ([], u)
  | u, i :: rest =>
      match u.lookup i.prevOutput with
      | some utxo =>
          let r := spendInputs (u.erase i.prevOutput) rest
          ((i.prevOutput, utxo) :: r.1, r.2)
      | none => spendInputs u rest

/-- The outpoint of an output position, which must fit in `u32`. -/
def outpointAt (txid : Bytes32) (vout : ℕ) : Except ChainError OutPoint :=
  if vout < 2 ^ 32 then .ok ⟨txid, UInt32.ofNat vout⟩ else .error .outputIndexExceedsU32

/-- BIP-30: no output of the transaction may exist already. -/
def checkFresh (u : UtxoSet) (txid : Bytes32) : ℕ → List TxOutput → Except ChainError Unit
  | _, [] => .ok ()
  | vout, _ :: rest =>
      match outpointAt txid vout with
      | .error e => .error e
      | .ok o =>
          if (u.lookup o).isSome then .error (.duplicateUnspentOutput o)
          else checkFresh u txid (vout + 1) rest

def createOutputs (txid : Bytes32) (height : ℕ) (coinbase : Bool) :
    UtxoSet → ℕ → List TxOutput → Except ChainError (List OutPoint) × UtxoSet
  | u, _, [] => (.ok [], u)
  | u, vout, out :: rest =>
      match outpointAt txid vout with
      | .error e => (.error e, u)
      | .ok o =>
          match createOutputs txid height coinbase (u.insert o ⟨out, height, coinbase⟩) (vout + 1) rest with
          | (.error e, u') => (.error e, u')
          | (.ok os, u') => (.ok (o :: os), u')

def applyTransaction (u : UtxoSet) (tx : Transaction) (height : ℕ) :
    Except ChainError Unit × UtxoSet :=
  let missing := if tx.isCoinbase then none else firstMissing u tx.inputs
  match missing with
  | some o => (.error (.missingInput o), u)
  | none =>
      let u₁ := if tx.isCoinbase then u else eraseAll u (tx.inputs.map TxInput.prevOutput)
      match checkFresh u₁ (tx.txid sha256) 0 tx.outputs with
      | .error e => (.error e, u₁)
      | .ok () =>
          match createOutputs (tx.txid sha256) height tx.isCoinbase u₁ 0 tx.outputs with
          | (.error e, u₂) => (.error e, u₂)
          | (.ok _, u₂) => (.ok (), u₂)

def applyTransactionWithUndo (u : UtxoSet) (tx : Transaction) (height : ℕ) :
    Except ChainError TxUndoData × UtxoSet :=
  let missing := if tx.isCoinbase then none else firstMissing u tx.inputs
  match missing with
  | some o => (.error (.missingInput o), u)
  | none =>
      let spent := if tx.isCoinbase then ([], u) else spendInputs u tx.inputs
      match checkFresh spent.2 (tx.txid sha256) 0 tx.outputs with
      | .error e => (.error e, spent.2)
      | .ok () =>
          match createOutputs (tx.txid sha256) height tx.isCoinbase spent.2 0 tx.outputs with
          | (.error e, u₂) => (.error e, u₂)
          | (.ok created, u₂) => (.ok ⟨spent.1, created⟩, u₂)

def applyTransactions (height : ℕ) : UtxoSet → List Transaction → Except ChainError Unit × UtxoSet
  | u, [] => (.ok (), u)
  | u, tx :: rest =>
      match applyTransaction sha256 u tx height with
      | (.error e, u') => (.error e, u')
      | (.ok (), u') => applyTransactions height u' rest

def applyBlock (u : UtxoSet) (b : Block) : Except ChainError Unit × UtxoSet :=
  applyTransactions sha256 b.header.height u b.transactions

def applyTransactionsWithUndo (height : ℕ) :
    UtxoSet → List Transaction → Except ChainError (List TxUndoData) × UtxoSet
  | u, [] => (.ok [], u)
  | u, tx :: rest =>
      match applyTransactionWithUndo sha256 u tx height with
      | (.error e, u') => (.error e, u')
      | (.ok undo, u') =>
          match applyTransactionsWithUndo height u' rest with
          | (.error e, u'') => (.error e, u'')
          | (.ok undos, u'') => (.ok (undo :: undos), u'')

def applyBlockWithUndo (u : UtxoSet) (b : Block) : Except ChainError BlockUndoData × UtxoSet :=
  match applyTransactionsWithUndo sha256 b.header.height u b.transactions with
  | (.error e, u') => (.error e, u')
  | (.ok undos, u') => (.ok ⟨undos⟩, u')

/-- Remove what a transaction created, then put back what it spent. -/
def disconnectTransaction (u : UtxoSet) (undo : TxUndoData) : UtxoSet :=
  insertAll (eraseAll u undo.createdOutpoints) undo.spentUtxos

/-- Roll a block back, last transaction first. The source never fails here. -/
def disconnectBlock (u : UtxoSet) (undo : BlockUndoData) : UtxoSet :=
  undo.txUndo.reverse.foldl disconnectTransaction u

/-- The bytes of one entry in the commitment. -/
def commitmentEntry (o : OutPoint) (utxo : UTXO) : List UInt8 :=
  o.txid.bytes ++ leBytes 4 o.vout.toNat ++ leBytes 8 utxo.output.value.toNat ++
    utxo.output.scriptPubkey ++ leBytes 8 utxo.height ++ [if utxo.isCoinbase then 1 else 0]

def commitmentBytes (u : UtxoSet) : List UInt8 :=
  (sortedKeys OutPoint.rank OutPoint.rank_injective u).flatMap fun o =>
    match u.lookup o with
    | some utxo => commitmentEntry o utxo
    | none => []

def commitmentHash (u : UtxoSet) : Bytes32 := sha256 (commitmentBytes u)

section Outputs

variable {vout : ℕ} {outs : List TxOutput}

/-- The entries a transaction's outputs become, from output position `vout` on. -/
def coinsFrom (txid : Bytes32) (height : ℕ) (coinbase : Bool) : ℕ → List TxOutput → List (OutPoint × UTXO)
  | _, [] => []
  | vout, out :: rest =>
      (⟨txid, UInt32.ofNat vout⟩, ⟨out, height, coinbase⟩) ::
        coinsFrom txid height coinbase (vout + 1) rest

variable (txid : Bytes32) (height : ℕ) (coinbase : Bool)

theorem mem_coinsFrom {o : OutPoint} {c : UTXO} : (o, c) ∈ coinsFrom txid height coinbase vout outs ↔
      ∃ i out, outs[i]? = some out ∧ o = ⟨txid, UInt32.ofNat (vout + i)⟩ ∧
        c = ⟨out, height, coinbase⟩ := by
  induction outs generalizing vout with
  | nil => simp [coinsFrom]
  | cons out rest ih =>
    simp only [coinsFrom, List.mem_cons, Prod.mk.injEq, ih]
    constructor
    · rintro (⟨rfl, rfl⟩ | ⟨i, out', hi, rfl, rfl⟩)
      · exact ⟨0, out, rfl, by simp, rfl⟩
      · exact ⟨i + 1, out', by simpa using hi, by rw [Nat.add_right_comm, Nat.add_assoc], rfl⟩
    · rintro ⟨i, out', hi, rfl, rfl⟩
      cases i with
      | zero =>
        simp only [List.getElem?_cons_zero, Option.some.injEq] at hi
        subst hi
        exact Or.inl ⟨by simp, rfl⟩
      | succ i =>
        refine Or.inr ⟨i, out', by simpa using hi, ?_, rfl⟩
        rw [Nat.add_right_comm, Nat.add_assoc]

omit txid height coinbase in
theorem coinsFrom_keys (txid : Bytes32) (height height' : ℕ) (coinbase : Bool) (vout : ℕ) (outs : List TxOutput) :
    (coinsFrom txid height coinbase vout outs).map Prod.fst =
      (coinsFrom txid height' coinbase vout outs).map Prod.fst := by
  induction outs generalizing vout with
  | nil => rfl
  | cons out rest ih => simp only [coinsFrom, List.map_cons, ih]

private theorem ofNat_inj_of_lt {a b : ℕ} (ha : a < 2 ^ 32) (hb : b < 2 ^ 32) (h : UInt32.ofNat a = UInt32.ofNat b) :
    a = b := by
  have hnat := congrArg UInt32.toNat h
  rwa [UInt32.toNat_ofNat', UInt32.toNat_ofNat', Nat.mod_eq_of_lt ha, Nat.mod_eq_of_lt hb] at hnat

theorem coinsFrom_keys_nodup (hfit : vout + outs.length ≤ 2 ^ 32) :
    ((coinsFrom txid height coinbase vout outs).map Prod.fst).Nodup := by
  induction outs generalizing vout with
  | nil => simp [coinsFrom]
  | cons out rest ih =>
    simp only [List.length_cons] at hfit
    simp only [coinsFrom, List.map_cons, List.nodup_cons]
    refine ⟨?_, ih (by omega)⟩
    intro hin
    obtain ⟨⟨k, c⟩, hkc, hk⟩ := List.mem_map.mp hin
    obtain ⟨i, out', hi, hkeq, -⟩ := (mem_coinsFrom txid height coinbase).mp hkc
    have hlt : i < rest.length := (List.getElem?_eq_some_iff.mp hi).1
    simp only at hk
    rw [hk, OutPoint.mk.injEq] at hkeq
    have := ofNat_inj_of_lt (by omega) (by omega) hkeq.2
    omega

theorem checkFresh_eq_ok_iff (u : UtxoSet) (hfit : vout + outs.length ≤ 2 ^ 32) : checkFresh u txid vout outs = .ok () ↔
      ∀ o ∈ (coinsFrom txid height coinbase vout outs).map Prod.fst, u.lookup o = none := by
  induction outs generalizing vout with
  | nil => simp [checkFresh, coinsFrom]
  | cons out rest ih =>
    simp only [List.length_cons] at hfit
    have hlt : vout < 2 ^ 32 := by omega
    simp only [checkFresh, outpointAt, if_pos hlt, coinsFrom, List.map_cons, List.forall_mem_cons]
    cases hlook : u.lookup ⟨txid, UInt32.ofNat vout⟩ with
    | none => simpa using ih (by omega)
    | some c => simp

theorem checkFresh_ok_length (u : UtxoSet) (hv : vout ≤ 2 ^ 32) (h : checkFresh u txid vout outs = .ok ()) :
    vout + outs.length ≤ 2 ^ 32 := by
  induction outs generalizing vout with
  | nil => simpa using hv
  | cons out rest ih =>
    by_cases hlt : vout < 2 ^ 32
    · simp only [checkFresh, outpointAt, if_pos hlt] at h
      split at h
      · simp at h
      · have := ih (by omega) h
        simp only [List.length_cons]
        omega
    · simp only [checkFresh, outpointAt, if_neg hlt, reduceCtorEq] at h

theorem createOutputs_eq (u : UtxoSet) (hfit : vout + outs.length ≤ 2 ^ 32) :
    createOutputs txid height coinbase u vout outs =
      (.ok ((coinsFrom txid height coinbase vout outs).map Prod.fst),
        insertAll u (coinsFrom txid height coinbase vout outs)) := by
  induction outs generalizing u vout with
  | nil => rfl
  | cons out rest ih =>
    simp only [List.length_cons] at hfit
    have hlt : vout < 2 ^ 32 := by omega
    have hfit' : vout + 1 + rest.length ≤ 2 ^ 32 := by omega
    have hrec := ih (u.insert ⟨txid, UInt32.ofNat vout⟩ ⟨out, height, coinbase⟩) hfit'
    simp only [createOutputs, outpointAt, if_pos hlt, hrec]
    rfl

end Outputs

section Inputs

theorem spendInputs_set (u : UtxoSet) (inputs : List TxInput) :
    (spendInputs u inputs).2 = eraseAll u (inputs.map TxInput.prevOutput) := by
  induction inputs generalizing u with
  | nil => rfl
  | cons i rest ih =>
    change _ = eraseAll (u.erase i.prevOutput) (rest.map TxInput.prevOutput)
    cases hlook : u.lookup i.prevOutput with
    | some utxo => simp only [spendInputs, hlook, ih]
    | none =>
      have herase : u.erase i.prevOutput = u := by
        apply Finmap.ext_lookup
        intro a
        rw [lookup_erase_eq]
        by_cases ha : a = i.prevOutput
        · rw [if_pos ha, ha, hlook]
        · rw [if_neg ha]
      simp only [spendInputs, hlook, ih, herase]

theorem mem_spendInputs (u : UtxoSet) (inputs : List TxInput) (o : OutPoint) (c : UTXO) :
    (o, c) ∈ (spendInputs u inputs).1 ↔
      o ∈ inputs.map TxInput.prevOutput ∧ u.lookup o = some c := by
  induction inputs generalizing u with
  | nil => simp [spendInputs]
  | cons i rest ih =>
    cases hlook : u.lookup i.prevOutput with
    | none =>
      simp only [spendInputs, hlook, ih, List.map_cons, List.mem_cons]
      constructor
      · rintro ⟨ho, hc⟩
        exact ⟨Or.inr ho, hc⟩
      · rintro ⟨rfl | ho, hc⟩
        · simp [hlook] at hc
        · exact ⟨ho, hc⟩
    | some utxo =>
      simp only [spendInputs, hlook, List.mem_cons, Prod.mk.injEq, ih, List.map_cons,
        lookup_erase_eq]
      constructor
      · rintro (⟨rfl, rfl⟩ | ⟨ho, hc⟩)
        · exact ⟨Or.inl rfl, hlook⟩
        · by_cases heq : o = i.prevOutput
          · simp [heq] at hc
          · rw [if_neg heq] at hc
            exact ⟨Or.inr ho, hc⟩
      · rintro ⟨ho, hc⟩
        by_cases heq : o = i.prevOutput
        · rw [heq, hlook] at hc
          exact Or.inl ⟨heq, (Option.some.inj hc).symm⟩
        · rw [if_neg heq]
          exact Or.inr ⟨ho.resolve_left heq, hc⟩

theorem firstMissing_eq_none_iff (u : UtxoSet) (inputs : List TxInput) :
    firstMissing u inputs = none ↔ ∀ o ∈ inputs.map TxInput.prevOutput, ∃ c, u.lookup o = some c := by
  simp only [firstMissing, List.find?_eq_none, Option.isNone_iff_eq_none, ← Option.ne_none_iff_exists']

end Inputs

/-- The outpoints a transaction removes from the set. -/
def consumed (tx : Transaction) : List OutPoint :=
  if tx.isCoinbase then [] else tx.inputs.map TxInput.prevOutput

/-- The entries a transaction adds to the set. -/
def coinsOf (tx : Transaction) (height : ℕ) : List (OutPoint × UTXO) :=
  coinsFrom (tx.txid sha256) height tx.isCoinbase 0 tx.outputs

/-- The outpoints a transaction creates. -/
def created (tx : Transaction) : List OutPoint := (coinsOf sha256 tx 0).map Prod.fst

theorem coinsOf_keys (tx : Transaction) (height : ℕ) : (coinsOf sha256 tx height).map Prod.fst = created sha256 tx :=
  coinsFrom_keys (tx.txid sha256) height 0 tx.isCoinbase 0 tx.outputs

theorem mem_created_iff (tx : Transaction) (o : OutPoint) :
    o ∈ created sha256 tx ↔ ∃ i < tx.outputs.length, o = ⟨tx.txid sha256, UInt32.ofNat i⟩ := by
  simp only [created, coinsOf, List.mem_map, Prod.exists, exists_and_right, exists_eq_right,
    mem_coinsFrom, Nat.zero_add]
  constructor
  · rintro ⟨c, i, out, hi, rfl, -⟩
    exact ⟨i, (List.getElem?_eq_some_iff.mp hi).1, rfl⟩
  · rintro ⟨i, hi, rfl⟩
    exact ⟨_, i, tx.outputs[i], List.getElem?_eq_getElem hi, rfl, rfl⟩

/-- What a successful application of a transaction did. -/
structure Applied (height : ℕ) (u : UtxoSet) (tx : Transaction) (undo : TxUndoData)
    (u' : UtxoSet) : Prop where
  present : ∀ o ∈ consumed tx, ∃ c, u.lookup o = some c
  few : tx.outputs.length ≤ 2 ^ 32
  fresh : ∀ o ∈ created sha256 tx, (eraseAll u (consumed tx)).lookup o = none
  spent : ∀ o c, (o, c) ∈ undo.spentUtxos ↔ o ∈ consumed tx ∧ u.lookup o = some c
  made : undo.createdOutpoints = created sha256 tx
  set : u' = insertAll (eraseAll u (consumed tx)) (coinsOf sha256 tx height)

private theorem missing_eq_none_iff (u : UtxoSet) (tx : Transaction) :
    (if tx.isCoinbase then none else firstMissing u tx.inputs) = none ↔
      ∀ o ∈ consumed tx, ∃ c, u.lookup o = some c := by
  unfold consumed
  split
  · simp
  · exact firstMissing_eq_none_iff u tx.inputs

private theorem spent_set (u : UtxoSet) (tx : Transaction) :
    (if tx.isCoinbase then (([] : List (OutPoint × UTXO)), u) else spendInputs u tx.inputs).2 =
      eraseAll u (consumed tx) := by
  unfold consumed
  split
  · rfl
  · exact spendInputs_set u tx.inputs

private theorem spent_entries (u : UtxoSet) (tx : Transaction) (o : OutPoint) (c : UTXO) :
    (o, c) ∈ (if tx.isCoinbase then (([] : List (OutPoint × UTXO)), u)
        else spendInputs u tx.inputs).1 ↔ o ∈ consumed tx ∧ u.lookup o = some c := by
  unfold consumed
  split
  · simp
  · exact mem_spendInputs u tx.inputs o c

theorem applyTransactionWithUndo_of_fresh {u : UtxoSet} {tx : Transaction} {height : ℕ}
    (hpresent : ∀ o ∈ consumed tx, ∃ c, u.lookup o = some c) (hfew : tx.outputs.length ≤ 2 ^ 32)
    (hfresh : ∀ o ∈ created sha256 tx, (eraseAll u (consumed tx)).lookup o = none) :
    ∃ undo u', applyTransactionWithUndo sha256 u tx height = (.ok undo, u') := by
  have hfit : 0 + tx.outputs.length ≤ 2 ^ 32 := by omega
  have hcheck := (checkFresh_eq_ok_iff (tx.txid sha256) height tx.isCoinbase
    (eraseAll u (consumed tx)) hfit).mpr (by
      intro o ho
      exact hfresh o (by rwa [← coinsOf_keys sha256 tx height]))
  simp only [applyTransactionWithUndo, (missing_eq_none_iff u tx).mpr hpresent, spent_set, hcheck,
    createOutputs_eq (tx.txid sha256) height tx.isCoinbase _ hfit]
  exact ⟨_, _, rfl⟩

theorem applyTransactionWithUndo_ok {u u' : UtxoSet} {tx : Transaction} {height : ℕ} {undo : TxUndoData}
    (h : applyTransactionWithUndo sha256 u tx height = (.ok undo, u')) : Applied sha256 height u tx undo u' := by
  unfold applyTransactionWithUndo at h
  simp only at h
  split at h
  · simp at h
  next hmissing =>
    split at h
    · simp at h
    next hcheck =>
      have hfit := checkFresh_ok_length (tx.txid sha256) _ (Nat.zero_le _) hcheck
      have hfresh := (checkFresh_eq_ok_iff (tx.txid sha256) height tx.isCoinbase _ hfit).mp hcheck
      rw [createOutputs_eq (tx.txid sha256) height tx.isCoinbase _ hfit] at h
      simp only [Prod.mk.injEq, Except.ok.injEq] at h
      obtain ⟨rfl, rfl⟩ := h
      refine ⟨(missing_eq_none_iff u tx).mp hmissing, by omega, ?_, spent_entries u tx, ?_, ?_⟩
      · intro o ho
        rw [← spent_set u tx]
        apply hfresh o
        rw [← coinsOf_keys sha256 tx height] at ho
        exact ho
      · exact coinsOf_keys sha256 tx height
      · rw [spent_set]
        rfl

theorem applyTransaction_eq (u : UtxoSet) (tx : Transaction) (height : ℕ) : applyTransaction sha256 u tx height =
      ((applyTransactionWithUndo sha256 u tx height).1.map fun _ => (),
        (applyTransactionWithUndo sha256 u tx height).2) := by
  have hset : (if tx.isCoinbase then u else eraseAll u (tx.inputs.map TxInput.prevOutput)) =
      eraseAll u (consumed tx) := by
    unfold consumed
    split <;> rfl
  unfold applyTransaction applyTransactionWithUndo
  simp only [spent_set, hset]
  split
  · rfl
  · split
    · rfl
    · split <;> rfl

theorem disconnectTransaction_applied {u u' : UtxoSet} {tx : Transaction} {height : ℕ} {undo : TxUndoData}
    (h : Applied sha256 height u tx undo u') : disconnectTransaction u' undo = u := by
  unfold disconnectTransaction
  rw [h.set, h.made, ← coinsOf_keys sha256 tx height, eraseAll_insertAll]
  · exact insertAll_eraseAll u (consumed tx) undo.spentUtxos h.spent
  · intro o ho
    exact h.fresh o (by rwa [← coinsOf_keys sha256 tx height])

theorem applyTransactionsWithUndo_cons {height : ℕ} {u u'' : UtxoSet} {tx : Transaction} {rest : List Transaction}
    {undos : List TxUndoData} (h : applyTransactionsWithUndo sha256 height u (tx :: rest) = (.ok undos, u'')) :
    ∃ undo u' undos', applyTransactionWithUndo sha256 u tx height = (.ok undo, u') ∧
      applyTransactionsWithUndo sha256 height u' rest = (.ok undos', u'') ∧
      undos = undo :: undos' := by
  unfold applyTransactionsWithUndo at h
  split at h
  · simp at h
  next undo u' htx =>
    split at h
    · simp at h
    next undos' v hrest =>
      simp only [Prod.mk.injEq, Except.ok.injEq] at h
      obtain ⟨rfl, rfl⟩ := h
      exact ⟨undo, u', undos', htx, hrest, rfl⟩

theorem applyTransactions_eq (height : ℕ) (u : UtxoSet) (txs : List Transaction) :
    applyTransactions sha256 height u txs =
      ((applyTransactionsWithUndo sha256 height u txs).1.map fun _ => (),
        (applyTransactionsWithUndo sha256 height u txs).2) := by
  induction txs generalizing u with
  | nil => rfl
  | cons tx rest ih =>
    simp only [applyTransactions, applyTransactionsWithUndo, applyTransaction_eq]
    cases htx : applyTransactionWithUndo sha256 u tx height with
    | mk r u' =>
      cases r with
      | error e => rfl
      | ok undo =>
        simp only [Except.map, ih]
        cases hrest : applyTransactionsWithUndo sha256 height u' rest with
        | mk r' u'' => cases r' <;> rfl

theorem applyBlock_eq (u : UtxoSet) (b : Block) :
    applyBlock sha256 u b = ((applyBlockWithUndo sha256 u b).1.map fun _ => (),
      (applyBlockWithUndo sha256 u b).2) := by
  unfold applyBlock applyBlockWithUndo
  rw [applyTransactions_eq]
  cases h : applyTransactionsWithUndo sha256 b.header.height u b.transactions with
  | mk r u' => cases r <;> rfl

private theorem disconnect_transactions {height : ℕ} {u u' : UtxoSet} {txs : List Transaction} {undos : List TxUndoData}
    (h : applyTransactionsWithUndo sha256 height u txs = (.ok undos, u')) :
    undos.reverse.foldl disconnectTransaction u' = u := by
  induction txs generalizing u undos with
  | nil =>
    simp only [applyTransactionsWithUndo, Prod.mk.injEq, Except.ok.injEq] at h
    obtain ⟨rfl, rfl⟩ := h
    rfl
  | cons tx rest ih =>
    obtain ⟨undo, u₁, undos', htx, hrest, rfl⟩ := applyTransactionsWithUndo_cons sha256 h
    rw [List.reverse_cons, List.foldl_append, ih hrest]
    exact disconnectTransaction_applied sha256 (applyTransactionWithUndo_ok sha256 htx)

theorem applyBlockWithUndo_ok {u u' : UtxoSet} {b : Block} {undo : BlockUndoData}
    (h : applyBlockWithUndo sha256 u b = (.ok undo, u')) :
    applyTransactionsWithUndo sha256 b.header.height u b.transactions = (.ok undo.txUndo, u') := by
  unfold applyBlockWithUndo at h
  split at h
  · simp at h
  next undos v htxs =>
    simp only [Prod.mk.injEq, Except.ok.injEq] at h
    obtain ⟨rfl, rfl⟩ := h
    exact htxs

theorem disconnectBlock_applyBlockWithUndo {u u' : UtxoSet} {b : Block} {undo : BlockUndoData}
    (h : applyBlockWithUndo sha256 u b = (.ok undo, u')) : disconnectBlock u' undo = u :=
  disconnect_transactions sha256 (applyBlockWithUndo_ok sha256 h)

end KuberCoin.UtxoSets
