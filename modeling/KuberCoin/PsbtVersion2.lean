import KuberCoin.CommitmentTxs
import KuberCoin.Records

/-!
Partially signed transactions of version 2 (crate `tx`, `psbt_v2.rs`): how they are built,
written, read and finalized. A hash map is read in whatever order. Of the fields, those are
modelled that one of these functions reads; the locks an input requires, the key derivations,
the taproot fields and the unknown fields are never written and never looked at.
-/
namespace KuberCoin.PsbtVersion2

open Bytes Maps Transactions Sighashes Decoders Records CommitmentTxs

inductive PsbtV2Error
  | invalidVersion
  | inputCountMismatch
  | outputCountMismatch
  | notModifiable
  | missingUtxo
  | invalidSignature
  | incompletePsbt
  deriving DecidableEq

structure ModifiableFlags where
  inputsModifiable : Bool
  outputsModifiable : Bool
  sighashSingle : Bool
  deriving DecidableEq

structure PsbtV2Global where
  version : UInt32
  txVersion : UInt32
  fallbackLocktime : Option UInt32
  inputCount : ℕ
  outputCount : ℕ
  modifiable : ModifiableFlags
  proprietary : Map (List UInt8) (Map (List UInt8) (List UInt8))

structure TxOut where
  amount : UInt64
  scriptPubkey : List UInt8
  deriving DecidableEq

structure PsbtV2Input where
  previousTxid : Bytes32
  previousVout : UInt32
  sequence : Option UInt32
  partialSigs : Map (List UInt8) (List UInt8)
  redeemScript : Option (List UInt8)
  witnessScript : Option (List UInt8)
  finalScriptSig : Option (List UInt8)
  finalScriptWitness : Option (List (List UInt8))
  witnessUtxo : Option TxOut

def PsbtV2Input.default : PsbtV2Input := ⟨Bytes32.zero, 0, none, ∅, none, none, none, none, none⟩

structure PsbtV2Output where
  amount : Option UInt64
  scriptPubkey : List UInt8
  deriving DecidableEq

def PsbtV2Output.default : PsbtV2Output := ⟨none, []⟩

structure PsbtV2 where
  global : PsbtV2Global
  inputs : List PsbtV2Input
  outputs : List PsbtV2Output

def psbtVersion2 : UInt32 := 2

namespace PsbtV2

section Building

def new (txVersion : UInt32) (inputCount outputCount : ℕ) : PsbtV2 where
  global :=
    { version := psbtVersion2
      txVersion := txVersion
      fallbackLocktime := none
      inputCount := inputCount
      outputCount := outputCount
      modifiable := ⟨true, true, false⟩
      proprietary := ∅ }
  inputs := List.replicate inputCount .default
  outputs := List.replicate outputCount .default

def addInput (p : PsbtV2) (input : PsbtV2Input) : PsbtV2 × Except PsbtV2Error Unit :=
  if !p.global.modifiable.inputsModifiable then (p, .error .notModifiable)
  else
    ({ p with
        inputs := p.inputs ++ [input]
        global := { p.global with inputCount := p.global.inputCount + 1 } }, .ok ())

def addOutput (p : PsbtV2) (output : PsbtV2Output) : PsbtV2 × Except PsbtV2Error Unit :=
  if !p.global.modifiable.outputsModifiable then (p, .error .notModifiable)
  else
    ({ p with
        outputs := p.outputs ++ [output]
        global := { p.global with outputCount := p.global.outputCount + 1 } }, .ok ())

def removeInput (p : PsbtV2) (index : ℕ) : PsbtV2 × Except PsbtV2Error Unit :=
  if !p.global.modifiable.inputsModifiable then (p, .error .notModifiable)
  else if index ≥ p.inputs.length then (p, .error .inputCountMismatch)
  else
    ({ p with
        inputs := p.inputs.eraseIdx index
        global := { p.global with inputCount := p.global.inputCount - 1 } }, .ok ())

def addProprietaryGlobal (p : PsbtV2) (nmspace key value : List UInt8) : PsbtV2 :=
  { p with
    global :=
      { p.global with
        proprietary := p.global.proprietary.insert nmspace
          (((p.global.proprietary.lookup nmspace).getD ∅).insert key value) } }

def toUnsignedTx (p : PsbtV2) : Transaction where
  version := p.global.txVersion
  inputs := p.inputs.map fun i => ⟨⟨i.previousTxid, i.previousVout⟩, [], i.sequence.getD 0xffffffff, Witness.empty⟩
  outputs := p.outputs.map fun o => ⟨o.amount.getD 0, o.scriptPubkey⟩
  lockTime := p.global.fallbackLocktime.getD 0

def signInput (sha256 : Sha256) (p : PsbtV2) (index : ℕ) (key : PrivateKey) : PsbtV2 × Except PsbtV2Error Unit :=
  if index ≥ p.inputs.length then (p, .error .inputCountMismatch)
  else
    match signatureHash sha256 p.toUnsignedTx index with
    | .error _ => (p, .error .invalidSignature)
    | .ok sighash =>
        ({ p with
            inputs := p.inputs.modify index fun i =>
              { i with partialSigs := i.partialSigs.insert key.publicKey (key.sign sighash ++ [0x01]) } }, .ok ())

/-- What `combine` makes of an input and the other one. -/
def combineInput (input other : PsbtV2Input) : PsbtV2Input :=
  { input with
    partialSigs := input.partialSigs ∪ other.partialSigs
    witnessUtxo := input.witnessUtxo.or other.witnessUtxo
    redeemScript := input.redeemScript.or other.redeemScript
    witnessScript := input.witnessScript.or other.witnessScript }

/-- The loop of `combine`. Its positions are in range where the counts are right. -/
def combineInputs : List PsbtV2Input → List PsbtV2Input → List PsbtV2Input
  | input :: inputs, other :: others => combineInput input other :: combineInputs inputs others
  | inputs, _ => inputs

def combine (p other : PsbtV2) : PsbtV2 × Except PsbtV2Error Unit :=
  if p.global.inputCount ≠ other.global.inputCount ∨ p.global.outputCount ≠ other.global.outputCount then
    (p, .error .inputCountMismatch)
  else ({ p with inputs := combineInputs p.inputs other.inputs }, .ok ())

end Building

section Finalizing

variable (order : MapOrder)

def isReady (p : PsbtV2) : Bool :=
  p.inputs.all fun i => i.finalScriptSig.isSome || i.finalScriptWitness.isSome || !(order.iter i.partialSigs).isEmpty

/-- The scriptSig of a signature and a key; their lengths are cut to a byte. -/
def p2pkhScriptSig (sig pubkey : List UInt8) : List UInt8 :=
  UInt8.ofNat sig.length :: sig ++ UInt8.ofNat pubkey.length :: pubkey

/-- One turn of the loop of `finalize`: the input of the PSBT and that of the transaction. -/
def finalizeInput (input : PsbtV2Input) (i : TxInput) : Except PsbtV2Error (PsbtV2Input × TxInput) :=
  match input.finalScriptSig with
  | some finalSig => .ok (input, { i with scriptSig := finalSig })
  | none =>
      match input.finalScriptWitness with
      | some witness => .ok (input, { i with witness := ⟨witness⟩ })
      | none =>
          match order.iter input.partialSigs with
          | (pubkey, sig) :: _ =>
              let scriptSig := p2pkhScriptSig sig pubkey
              .ok ({ input with finalScriptSig := some scriptSig }, { i with scriptSig := scriptSig })
          | [] => .error .incompletePsbt

def finalizeInputs : List PsbtV2Input → List TxInput → Except PsbtV2Error (List PsbtV2Input × List TxInput)
  | input :: inputs, i :: is => do
      let (input, i) ← finalizeInput order input i
      let (inputs, is) ← finalizeInputs inputs is
      return (input :: inputs, i :: is)
  | _, _ => .ok ([], [])

/-- `finalize`. As `is_ready` holds before the loop, no turn of it fails. -/
def finalize (p : PsbtV2) : PsbtV2 × Except PsbtV2Error Transaction :=
  if !p.isReady order then (p, .error .incompletePsbt)
  else
    match finalizeInputs order p.inputs p.toUnsignedTx.inputs with
    | .error e => (p, .error e)
    | .ok (inputs, is) => ({ p with inputs := inputs }, .ok { p.toUnsignedTx with inputs := is })

end Finalizing

section Transport

variable (order : MapOrder)

def magic : List UInt8 := [0x70, 0x73, 0x62, 0x74, 0xff]

/-- `write_kv` writes this record. -/
def kv (keyType : UInt8) (keyData value : List UInt8) : Record := ⟨keyType :: keyData, value⟩

def modifiableByte (flags : ModifiableFlags) : UInt8 :=
  (if flags.inputsModifiable then 1 else 0) ||| (if flags.outputsModifiable then 2 else 0) |||
    (if flags.sighashSingle then 4 else 0)

def globalRecords (g : PsbtV2Global) : List Record :=
  [kv 0xfb [] (leBytes 4 g.version.toNat), kv 0x02 [] (leBytes 4 g.txVersion.toNat)] ++
    (g.fallbackLocktime.toList.map fun lt => kv 0x03 [] (leBytes 4 lt.toNat)) ++
    [kv 0x04 [] (writeCompactSize g.inputCount), kv 0x05 [] (writeCompactSize g.outputCount),
     kv 0x06 [] [modifiableByte g.modifiable]]

def writeWitnessUtxo (utxo : TxOut) : List UInt8 := leBytes 8 utxo.amount.toNat ++ writeSized utxo.scriptPubkey

def writeStack (stack : List (List UInt8)) : List UInt8 :=
  writeCompactSize stack.length ++ stack.flatMap writeSized

def inputRecords (i : PsbtV2Input) : List Record :=
  [kv 0x0e [] i.previousTxid.bytes, kv 0x0f [] (leBytes 4 i.previousVout.toNat)] ++
    (i.sequence.toList.map fun seq => kv 0x10 [] (leBytes 4 seq.toNat)) ++
    ((order.iter i.partialSigs).map fun s => kv 0x02 s.1 s.2) ++
    (i.witnessUtxo.toList.map fun utxo => kv 0x01 [] (writeWitnessUtxo utxo)) ++
    (i.finalScriptSig.toList.map fun fs => kv 0x07 [] fs) ++
    (i.finalScriptWitness.toList.map fun fw => kv 0x08 [] (writeStack fw))

def outputRecords (o : PsbtV2Output) : List Record :=
  (o.amount.toList.map fun amount => kv 0x03 [] (leBytes 8 amount.toNat)) ++ [kv 0x04 [] o.scriptPubkey]

def serialize (p : PsbtV2) : List UInt8 :=
  magic ++ writeRecords (globalRecords p.global) ++ p.inputs.flatMap (fun i => writeRecords (inputRecords order i)) ++
    p.outputs.flatMap fun o => writeRecords (outputRecords o)

/-- `read_kv`, where the bytes neither are at an end nor begin with the byte that ends a map. -/
def readKv (bytes : List UInt8) : Option (Record × List UInt8) :=
  match sized bytes with
  | some (key, rest) =>
      if key = [] then none else (sized rest).map fun r => (⟨key, r.1⟩, r.2)
  | none => none

/-- The next record of a map, or its end. The end of the data also ends a map. -/
def parseRecord (bytes : List UInt8) : Except PsbtV2Error (Option Record × List UInt8) :=
  match bytes with
  | [] => .ok (none, [])
  | first :: rest =>
      if first = 0x00 then .ok (none, rest)
      else
        match readKv bytes with
        | none => .error .invalidVersion
        | some (r, rest) => .ok (some r, rest)

def readU32 (value : List UInt8) : UInt32 := UInt32.ofNat (leValue (value.take 4))

def readU64 (value : List UInt8) : UInt64 := UInt64.ofNat (leValue (value.take 8))

/-- The match over the records of the global map. -/
def absorbGlobal (g : PsbtV2Global) (r : Record) : PsbtV2Global :=
  let keyType := r.key.headD 0
  let keyData := r.key.tail
  if keyType = 0xfb then if 4 ≤ r.value.length then { g with version := readU32 r.value } else g
  else if keyType = 0x02 ∧ keyData = [] then
    if 4 ≤ r.value.length then { g with txVersion := readU32 r.value } else g
  else if keyType = 0x03 ∧ keyData = [] then
    if 4 ≤ r.value.length then { g with fallbackLocktime := some (readU32 r.value) } else g
  else if keyType = 0x04 then { g with inputCount := ((compactSize r.value).map Prod.fst).getD 0 }
  else if keyType = 0x05 then { g with outputCount := ((compactSize r.value).map Prod.fst).getD 0 }
  else if keyType = 0x06 then
    match r.value with
    | [] => g
    | flags :: _ => { g with modifiable := ⟨flags &&& 1 ≠ 0, flags &&& 2 ≠ 0, flags &&& 4 ≠ 0⟩ }
  else g

/-- The script behind its size; all the bytes where no size can be read or it is too large. -/
def readScript (spk : List UInt8) : List UInt8 :=
  match compactSize spk with
  | some (len, rest) => if len ≤ rest.length then rest.take len else spk
  | none => spk

/-- The loop over the elements of a final witness, from the position of the next one. A size that
cannot be read is taken for zero, and reading goes on from the beginning of the value. -/
def readStack (value : List UInt8) : ℕ → List UInt8 → List (List UInt8)
  | 0, _ => []
  | n + 1, bytes =>
      let (len, rest) := (compactSize bytes).getD (0, value)
      if len ≤ rest.length then rest.take len :: readStack value n (rest.drop len) else readStack value n rest

/-- The match over the records of an input map. -/
def absorbInput (i : PsbtV2Input) (r : Record) : PsbtV2Input :=
  let keyType := r.key.headD 0
  let keyData := r.key.tail
  if keyType = 0x0e then if h : r.value.length = 32 then { i with previousTxid := ⟨r.value, h⟩ } else i
  else if keyType = 0x0f then if 4 ≤ r.value.length then { i with previousVout := readU32 r.value } else i
  else if keyType = 0x10 then if 4 ≤ r.value.length then { i with sequence := some (readU32 r.value) } else i
  else if keyType = 0x02 then { i with partialSigs := i.partialSigs.insert keyData r.value }
  else if keyType = 0x01 ∧ keyData = [] then
    if 8 ≤ r.value.length then
      { i with witnessUtxo := some ⟨readU64 r.value, readScript (r.value.drop 8)⟩ }
    else i
  else if keyType = 0x07 then { i with finalScriptSig := some r.value }
  else if keyType = 0x08 then
    let (count, rest) := (compactSize r.value).getD (0, r.value)
    { i with finalScriptWitness := some (readStack r.value count rest) }
  else i

/-- The match over the records of an output map. -/
def absorbOutput (o : PsbtV2Output) (r : Record) : PsbtV2Output :=
  let keyType := r.key.headD 0
  if keyType = 0x03 then if 8 ≤ r.value.length then { o with amount := some (readU64 r.value) } else o
  else if keyType = 0x04 then { o with scriptPubkey := r.value }
  else o

def readMap {σ : Type} (absorb : σ → Record → σ) (start : σ) (bytes : List UInt8) :
    Except PsbtV2Error (σ × List UInt8) :=
  readRecords parseRecord (fun s r => .ok (absorb s r)) (bytes.length + 1) start bytes

/-- The global map before its first record. -/
def startGlobal : PsbtV2Global := ⟨psbtVersion2, 2, none, 0, 0, ⟨false, false, false⟩, ∅⟩

def deserialize (data : List UInt8) : Except PsbtV2Error PsbtV2 := do
  if data.length < 5 ∨ data.take 5 ≠ magic then throw .invalidVersion
  let (global, rest) ← readMap absorbGlobal startGlobal (data.drop 5)
  let (inputs, rest) ← readMany (readMap absorbInput .default) global.inputCount rest
  let (outputs, _) ← readMany (readMap absorbOutput .default) global.outputCount rest
  return ⟨global, inputs, outputs⟩

end Transport

section RoundTrip

variable {order : MapOrder} {value : List UInt8} {i : PsbtV2Input}

theorem parseRecord_write {r : Record} (hkey : r.key ≠ []) (hsize : r.write.length < 2 ^ 64) (rest : List UInt8) :
    parseRecord (r.write ++ rest) = .ok (some r, rest) := by
  obtain ⟨hkeySize, hvalueSize⟩ := r.length_lt_write
  have hread : readKv (r.write ++ rest) = some (r, rest) := by
    unfold readKv
    rw [Record.write, List.append_assoc, reads_sized (by omega)]
    simp only [hkey, if_false]
    rw [reads_sized (by omega)]
    rfl
  have hhead : ∃ first tail, r.write ++ rest = first :: tail ∧ first ≠ 0 := by
    have hsome := head_writeCompactSize (List.length_pos_iff.mpr hkey)
    cases hsizes : writeCompactSize r.key.length with
    | nil => exact absurd hsizes (writeCompactSize_ne_nil _)
    | cons first tail =>
      rw [hsizes] at hsome
      exact ⟨first, _, by rw [Record.write, writeSized, hsizes]; rfl, by simpa using hsome⟩
  obtain ⟨first, tail, hbytes, hne⟩ := hhead
  rw [hbytes] at hread ⊢
  simp [parseRecord, hne, hread]

theorem readMap_write {σ : Type} {absorb : σ → Record → σ} {start : σ} {records : List Record}
    (hkeys : ∀ r ∈ records, r.key ≠ []) (hsize : (writeRecords records).length < 2 ^ 64) (rest : List UInt8) :
    readMap absorb start (writeRecords records ++ rest) = .ok (records.foldl absorb start, rest) := by
  have hfuel := length_lt_writeRecords records
  refine readRecords_write (fun r hr => parseRecord_write (hkeys r hr) ?_) (fun _ => rfl) ?_ ?_ rest
  · have := Record.length_le_writeRecords hr
    omega
  · exact List.foldlM_pure
  · simp only [List.length_append]
    omega

theorem readU32_leBytes (n : UInt32) : readU32 (leBytes 4 n.toNat) = n := by
  have hlt := n.toNat_lt
  rw [readU32, List.take_of_length_le (by rw [leBytes_length]), leValue_leBytes, Nat.mod_eq_of_lt (by omega)]
  exact UInt32.ofNat_toNat

theorem readU64_leBytes (n : UInt64) (rest : List UInt8) : readU64 (leBytes 8 n.toNat ++ rest) = n := by
  have hlt := n.toNat_lt
  rw [readU64, List.take_left' (leBytes_length 8 _), leValue_leBytes, Nat.mod_eq_of_lt (by omega)]
  exact UInt64.ofNat_toNat

theorem modifiableByte_flags (flags : ModifiableFlags) :
    (⟨modifiableByte flags &&& 1 ≠ 0, modifiableByte flags &&& 2 ≠ 0, modifiableByte flags &&& 4 ≠ 0⟩ : ModifiableFlags) =
      flags := by
  obtain ⟨inputs, outputs, single⟩ := flags
  cases inputs <;> cases outputs <;> cases single <;> decide

theorem compactSize_write {n : ℕ} (h : n < 2 ^ 64) : compactSize (writeCompactSize n) = some (n, []) := by
  simpa using reads_compactSize h []

theorem absorbGlobal_records {g : PsbtV2Global} (hin : g.inputCount < 2 ^ 64) (hout : g.outputCount < 2 ^ 64) :
    (globalRecords g).foldl absorbGlobal startGlobal = { g with proprietary := ∅ } := by
  have hflags := modifiableByte_flags g.modifiable
  obtain ⟨version, txVersion, locktime, inputCount, outputCount, modifiable, proprietary⟩ := g
  cases locktime with
  | none =>
    simpa [globalRecords, kv, absorbGlobal, startGlobal, leBytes_length, readU32_leBytes, compactSize_write hin,
      compactSize_write hout] using hflags
  | some lt =>
    simpa [globalRecords, kv, absorbGlobal, startGlobal, leBytes_length, readU32_leBytes, compactSize_write hin,
      compactSize_write hout] using hflags

theorem readScript_write {script : List UInt8} (h : script.length < 2 ^ 64) :
    readScript (writeSized script) = script := by
  have hread : compactSize (writeSized script) = some (script.length, script) := reads_compactSize h script
  simp [readScript, hread]

theorem readStack_write {stack : List (List UInt8)} (h : ∀ item ∈ stack, item.length < 2 ^ 64) :
    readStack value stack.length (stack.flatMap writeSized) = stack := by
  induction stack with
  | nil => rfl
  | cons item stack ih =>
    have hread := reads_compactSize (h item List.mem_cons_self) (item ++ stack.flatMap writeSized)
    have hrest := ih fun x hx => h x (List.mem_cons_of_mem item hx)
    rw [List.flatMap_cons, writeSized, List.append_assoc, List.length_cons, readStack, hread]
    simp [hrest]

/-- What is read of an input: the scripts of its script hashes are not written. -/
def carriedInput (i : PsbtV2Input) : PsbtV2Input := { i with redeemScript := none, witnessScript := none }

theorem absorbInput_partialSigs (i : PsbtV2Input) (sigs : List (List UInt8 × List UInt8)) :
    (sigs.map fun s => kv 0x02 s.1 s.2).foldl absorbInput i =
      { i with partialSigs := insertAll i.partialSigs sigs } := by
  induction sigs generalizing i with
  | nil => rfl
  | cons s sigs ih =>
    rw [List.map_cons, List.foldl_cons, ih]
    simp [absorbInput, kv, insertAll]

/-- The sizes in an input that can be written. -/
structure InputSized (i : PsbtV2Input) : Prop where
  utxo : ∀ utxo, i.witnessUtxo = some utxo → utxo.scriptPubkey.length < 2 ^ 64
  items : ∀ stack, i.finalScriptWitness = some stack → stack.length < 2 ^ 64 ∧ ∀ item ∈ stack, item.length < 2 ^ 64

theorem absorbInput_sequence (hnone : i.sequence = none) (sequence : Option UInt32) :
    (sequence.toList.map fun seq => kv 0x10 [] (leBytes 4 seq.toNat)).foldl absorbInput i =
      { i with sequence := sequence } := by
  cases sequence with
  | none =>
    cases i
    cases hnone
    rfl
  | some seq => simp [absorbInput, kv, leBytes_length, readU32_leBytes]

theorem absorbInput_witnessUtxo (hnone : i.witnessUtxo = none) (utxo : Option TxOut)
    (hsize : ∀ u, utxo = some u → u.scriptPubkey.length < 2 ^ 64) :
    (utxo.toList.map fun u => kv 0x01 [] (writeWitnessUtxo u)).foldl absorbInput i = { i with witnessUtxo := utxo } := by
  cases utxo with
  | none =>
    cases i
    cases hnone
    rfl
  | some u =>
    have hdrop : (writeWitnessUtxo u).drop 8 = writeSized u.scriptPubkey := List.drop_left' (leBytes_length 8 _)
    have hlength : 8 ≤ (writeWitnessUtxo u).length := by simp [writeWitnessUtxo, leBytes_length]
    have hamount : readU64 (writeWitnessUtxo u) = u.amount := readU64_leBytes u.amount _
    simp [absorbInput, kv, hdrop, hlength, hamount, readScript_write (hsize u rfl)]

theorem absorbInput_finalScriptSig (hnone : i.finalScriptSig = none) (sig : Option (List UInt8)) :
    (sig.toList.map fun fs => kv 0x07 [] fs).foldl absorbInput i = { i with finalScriptSig := sig } := by
  cases sig with
  | none =>
    cases i
    cases hnone
    rfl
  | some fs => simp [absorbInput, kv]

theorem absorbInput_finalScriptWitness (hnone : i.finalScriptWitness = none) (witness : Option (List (List UInt8)))
    (hsize : ∀ stack, witness = some stack → stack.length < 2 ^ 64 ∧ ∀ item ∈ stack, item.length < 2 ^ 64) :
    (witness.toList.map fun fw => kv 0x08 [] (writeStack fw)).foldl absorbInput i =
      { i with finalScriptWitness := witness } := by
  cases witness with
  | none =>
    cases i
    cases hnone
    rfl
  | some stack =>
    obtain ⟨hcount, hitems⟩ := hsize stack rfl
    have hread : compactSize (writeStack stack) = some (stack.length, stack.flatMap writeSized) :=
      reads_compactSize hcount _
    simp [absorbInput, kv, hread, readStack_write hitems]

theorem absorbInput_records (hsized : InputSized i) :
    (inputRecords order i).foldl absorbInput .default = carriedInput i := by
  have hsigs := (order.lists i.partialSigs).insertAll_empty
  have hfirst : [kv 0x0e [] i.previousTxid.bytes, kv 0x0f [] (leBytes 4 i.previousVout.toNat)].foldl absorbInput
      .default = { PsbtV2Input.default with previousTxid := i.previousTxid, previousVout := i.previousVout } := by
    simp [absorbInput, kv, i.previousTxid.length_eq, leBytes_length, readU32_leBytes]
  simp only [inputRecords, List.foldl_append]
  rw [hfirst, absorbInput_sequence rfl, absorbInput_partialSigs, absorbInput_witnessUtxo rfl _ hsized.utxo,
    absorbInput_finalScriptSig rfl, absorbInput_finalScriptWitness rfl _ hsized.items]
  simp only [PsbtV2Input.default, hsigs, carriedInput]

theorem absorbOutput_records (o : PsbtV2Output) : (outputRecords o).foldl absorbOutput .default = o := by
  have hamount : ∀ a : UInt64, readU64 (leBytes 8 a.toNat) = a := by
    intro a
    simpa using readU64_leBytes a []
  obtain ⟨amount, script⟩ := o
  cases amount with
  | none => rfl
  | some amount => simp [outputRecords, kv, absorbOutput, PsbtV2Output.default, leBytes_length, hamount]

/-- What is read of a PSBT. -/
def carried (p : PsbtV2) : PsbtV2 where
  global := { p.global with proprietary := ∅ }
  inputs := p.inputs.map carriedInput
  outputs := p.outputs

/-- The counts of a PSBT are those of its maps. -/
structure Counted (p : PsbtV2) : Prop where
  inputs : p.global.inputCount = p.inputs.length
  outputs : p.global.outputCount = p.outputs.length

theorem keys_globalRecords (g : PsbtV2Global) : ∀ r ∈ globalRecords g, r.key ≠ [] := by
  intro r hr
  simp only [globalRecords, kv, List.mem_append, List.mem_cons, List.mem_map, List.not_mem_nil, or_false] at hr
  rcases hr with ((rfl | rfl) | ⟨lt, -, rfl⟩) | rfl | rfl | rfl <;> simp

theorem keys_inputRecords (i : PsbtV2Input) : ∀ r ∈ inputRecords order i, r.key ≠ [] := by
  intro r hr
  simp only [inputRecords, kv, List.mem_append, List.mem_cons, List.mem_map, List.not_mem_nil, or_false] at hr
  rcases hr with (((((rfl | rfl) | ⟨_, -, rfl⟩) | ⟨_, -, rfl⟩) | ⟨_, -, rfl⟩) | ⟨_, -, rfl⟩) | ⟨_, -, rfl⟩ <;> simp

theorem keys_outputRecords (o : PsbtV2Output) : ∀ r ∈ outputRecords o, r.key ≠ [] := by
  intro r hr
  simp only [outputRecords, kv, List.mem_append, List.mem_cons, List.mem_map, List.not_mem_nil, or_false] at hr
  rcases hr with ⟨_, -, rfl⟩ | rfl <;> simp

theorem value_le_inputRecords {keyType : UInt8} {keyData : List UInt8}
    (h : kv keyType keyData value ∈ inputRecords order i) :
    value.length < (writeRecords (inputRecords order i)).length :=
  lt_of_lt_of_le (kv keyType keyData value).length_lt_write.2 (Record.length_le_writeRecords h)

theorem inputSized_of_length (h : (writeRecords (inputRecords order i)).length < 2 ^ 64) : InputSized i where
  utxo utxo hutxo := by
    have hmem : kv 0x01 [] (writeWitnessUtxo utxo) ∈ inputRecords order i := by simp [inputRecords, hutxo]
    have hvalue := value_le_inputRecords hmem
    have hscript := length_lt_writeSized utxo.scriptPubkey
    simp only [writeWitnessUtxo, List.length_append] at hvalue
    omega
  items stack hstack := by
    have hmem : kv 0x08 [] (writeStack stack) ∈ inputRecords order i := by simp [inputRecords, hstack]
    have hvalue := value_le_inputRecords hmem
    have hcount := length_le_flatMap (fun item => Nat.zero_lt_of_lt (length_lt_writeSized item)) stack
    simp only [writeStack, List.length_append] at hvalue
    refine ⟨by omega, fun item hitem => ?_⟩
    have hwritten := @length_le_flatMap_of_mem _ writeSized _ _ hitem
    have := length_lt_writeSized item
    omega

theorem deserialize_serialize {p : PsbtV2} (hcounted : Counted p) (hsize : (p.serialize order).length < 2 ^ 64) :
    deserialize (p.serialize order) = .ok p.carried := by
  have hbytes : p.serialize order = magic ++ (writeRecords (globalRecords p.global) ++
      (p.inputs.flatMap (fun i => writeRecords (inputRecords order i)) ++
        (p.outputs.flatMap (fun o => writeRecords (outputRecords o)) ++ []))) := by
    simp [serialize]
  have hlengths := congrArg List.length hbytes
  simp only [List.length_append] at hlengths
  have hins := length_le_flatMap
    (fun i => Nat.zero_lt_of_lt (length_lt_writeRecords (inputRecords order i))) p.inputs
  have houts := length_le_flatMap (fun o => Nat.zero_lt_of_lt (length_lt_writeRecords (outputRecords o))) p.outputs
  have hglobal := @absorbGlobal_records p.global (by rw [hcounted.inputs]; omega) (by rw [hcounted.outputs]; omega)
  have hinput : ∀ i ∈ p.inputs, ∀ rest, readMap absorbInput .default (writeRecords (inputRecords order i) ++ rest) =
      .ok (carriedInput i, rest) := by
    intro i hi rest
    have hle := @length_le_flatMap_of_mem _ (fun i => writeRecords (inputRecords order i)) _ _ hi
    have hshort : (writeRecords (inputRecords order i)).length < 2 ^ 64 := by omega
    rw [readMap_write (keys_inputRecords i) hshort, absorbInput_records (inputSized_of_length hshort)]
  have houtput : ∀ o ∈ p.outputs, ∀ rest, readMap absorbOutput .default (writeRecords (outputRecords o) ++ rest) =
      .ok (o, rest) := by
    intro o ho rest
    have hle := @length_le_flatMap_of_mem _ (fun o => writeRecords (outputRecords o)) _ _ ho
    rw [readMap_write (keys_outputRecords o) (by omega), absorbOutput_records]
  rw [hbytes]
  unfold deserialize
  rw [if_neg (by simp [magic])]
  show (readMap absorbGlobal startGlobal ((magic ++ _).drop magic.length) >>= _) = _
  rw [List.drop_left, readMap_write (keys_globalRecords p.global) (by omega), hglobal]
  show (readMany (readMap absorbInput .default) p.global.inputCount _ >>= _) = _
  rw [hcounted.inputs, readMany_write hinput]
  show (readMany (readMap absorbOutput .default) p.global.outputCount _ >>= _) = _
  rw [hcounted.outputs, @readMany_write _ _ _ _ (fun o => writeRecords (outputRecords o)) id _ houtput, List.map_id]
  simp only [carried, hcounted.inputs, hcounted.outputs]
  rfl

end RoundTrip

section Extraction

variable {order order' : MapOrder}

theorem isReady_carried {p : PsbtV2} (hone : ∀ i ∈ p.inputs, i.partialSigs.keys.card ≤ 1) :
    p.carried.isReady order = p.isReady order' := by
  have hinputs : p.carried.inputs = p.inputs.map carriedInput := rfl
  rw [isReady, isReady, hinputs, List.all_map, Bool.eq_iff_iff, List.all_eq_true, List.all_eq_true]
  refine forall₂_congr fun i hi => ?_
  simp only [carriedInput, Function.comp, @MapOrder.iter_eq order order' _ _ _ _ (hone i hi)]

theorem finalizeInput_carried {input : PsbtV2Input} (hone : input.partialSigs.keys.card ≤ 1) (i : TxInput) :
    (finalizeInput order (carriedInput input) i).map Prod.snd = (finalizeInput order' input i).map Prod.snd := by
  unfold finalizeInput carriedInput
  cases input.finalScriptSig with
  | some sig => rfl
  | none =>
    cases input.finalScriptWitness with
    | some witness => rfl
    | none =>
      simp only [@MapOrder.iter_eq order order' _ _ _ _ hone]
      cases order'.iter input.partialSigs with
      | nil => rfl
      | cons e rest => rfl

theorem finalizeInputs_cons (input : PsbtV2Input) (inputs : List PsbtV2Input) (i : TxInput) (is : List TxInput) :
    (finalizeInputs order (input :: inputs) (i :: is)).map Prod.snd =
      ((finalizeInput order input i).map Prod.snd).bind fun i =>
        ((finalizeInputs order inputs is).map Prod.snd).map (i :: ·) := by
  rw [finalizeInputs]
  cases finalizeInput order input i with
  | error e => rfl
  | ok r =>
    show Except.map _ (finalizeInputs order inputs is >>= _) = Except.map _ _
    cases finalizeInputs order inputs is with
    | error e => rfl
    | ok rs => rfl

theorem finalizeInputs_carried {inputs : List PsbtV2Input} (hone : ∀ i ∈ inputs, i.partialSigs.keys.card ≤ 1)
    (is : List TxInput) : (finalizeInputs order (inputs.map carriedInput) is).map Prod.snd =
      (finalizeInputs order' inputs is).map Prod.snd := by
  induction inputs generalizing is with
  | nil => rfl
  | cons input inputs ih =>
    rw [List.forall_mem_cons] at hone
    cases is with
    | nil => rfl
    | cons i is =>
      rw [List.map_cons, finalizeInputs_cons, finalizeInputs_cons, finalizeInput_carried hone.1, ih hone.2]

theorem finalize_snd (p : PsbtV2) : (p.finalize order).2 = if p.isReady order then
      ((finalizeInputs order p.inputs p.toUnsignedTx.inputs).map Prod.snd).map fun is =>
        { p.toUnsignedTx with inputs := is } else .error .incompletePsbt := by
  unfold finalize
  cases p.isReady order with
  | false => rfl
  | true =>
    cases finalizeInputs order p.inputs p.toUnsignedTx.inputs with
    | error e => rfl
    | ok r => rfl

/-- A PSBT made by the functions of its interface and by assignments to its fields. -/
inductive Built (sha256 : Sha256) (order : MapOrder) : PsbtV2 → Prop
  | new (txVersion : UInt32) (inputCount outputCount : ℕ) : Built sha256 order (new txVersion inputCount outputCount)
  | addInput {p : PsbtV2} (input : PsbtV2Input) : Built sha256 order p → Built sha256 order (p.addInput input).1
  | addOutput {p : PsbtV2} (output : PsbtV2Output) : Built sha256 order p → Built sha256 order (p.addOutput output).1
  | removeInput {p : PsbtV2} (index : ℕ) : Built sha256 order p → Built sha256 order (p.removeInput index).1
  | addProprietaryGlobal {p : PsbtV2} (nmspace key value : List UInt8) :
      Built sha256 order p → Built sha256 order (p.addProprietaryGlobal nmspace key value)
  | signInput {p : PsbtV2} (index : ℕ) (key : PrivateKey) :
      Built sha256 order p → Built sha256 order (p.signInput sha256 index key).1
  | combine {p other : PsbtV2} : Built sha256 order p → Built sha256 order other → Built sha256 order (p.combine other).1
  | finalize {p : PsbtV2} : Built sha256 order p → Built sha256 order (p.finalize order).1
  | setGlobal {p : PsbtV2} (version txVersion : UInt32) (locktime : Option UInt32) (flags : ModifiableFlags) :
      Built sha256 order p → Built sha256 order
        { p with
          global := { p.global with
            version := version, txVersion := txVersion, fallbackLocktime := locktime, modifiable := flags } }
  | setInput {p : PsbtV2} (index : ℕ) (input : PsbtV2Input) :
      Built sha256 order p → Built sha256 order { p with inputs := p.inputs.set index input }
  | setOutput {p : PsbtV2} (index : ℕ) (output : PsbtV2Output) :
      Built sha256 order p → Built sha256 order { p with outputs := p.outputs.set index output }

theorem combineInputs_length (inputs others : List PsbtV2Input) :
    (combineInputs inputs others).length = inputs.length := by
  induction inputs generalizing others with
  | nil => cases others <;> rfl
  | cons input inputs ih =>
    cases others with
    | nil => rfl
    | cons other others => simp [combineInputs, ih]

theorem finalizeInputs_length {inputs : List PsbtV2Input} {is : List TxInput} {r : List PsbtV2Input × List TxInput}
    (hlen : is.length = inputs.length) (h : finalizeInputs order inputs is = .ok r) : r.1.length = inputs.length := by
  induction inputs generalizing is r with
  | nil =>
    cases h
    rfl
  | cons input inputs ih =>
    cases is with
    | nil => simp at hlen
    | cons i is =>
      rw [finalizeInputs] at h
      cases hfirst : finalizeInput order input i with
      | error e => simp [hfirst, bind, Except.bind] at h
      | ok first =>
        cases hrest : finalizeInputs order inputs is with
        | error e => simp [hfirst, hrest, bind, Except.bind] at h
        | ok rest =>
          simp only [hfirst, hrest, bind, Except.bind, pure, Except.pure, Except.ok.injEq] at h
          rw [← h, List.length_cons, List.length_cons, ih (by simpa using hlen) hrest]

theorem Built.counted {sha256 : Sha256} {p : PsbtV2} (h : Built sha256 order p) : Counted p := by
  induction h with
  | new txVersion inputCount outputCount => exact ⟨by simp [PsbtV2.new], by simp [PsbtV2.new]⟩
  | addInput input _ ih =>
    unfold PsbtV2.addInput
    split
    · exact ih
    · exact ⟨by simp [ih.inputs], ih.outputs⟩
  | addOutput output _ ih =>
    unfold PsbtV2.addOutput
    split
    · exact ih
    · exact ⟨ih.inputs, by simp [ih.outputs]⟩
  | removeInput index _ ih =>
    unfold PsbtV2.removeInput
    split
    · exact ih
    · split
      · exact ih
      · next hlt => exact ⟨by simp [ih.inputs, List.length_eraseIdx]; omega, ih.outputs⟩
  | addProprietaryGlobal nmspace key value _ ih => exact ⟨ih.inputs, ih.outputs⟩
  | signInput index key _ ih =>
    unfold PsbtV2.signInput
    split
    · exact ih
    · split
      · exact ih
      · exact ⟨by simp [ih.inputs], ih.outputs⟩
  | combine _ _ ih _ =>
    unfold PsbtV2.combine
    split
    · exact ih
    · exact ⟨by simp [combineInputs_length, ih.inputs], ih.outputs⟩
  | finalize _ ih =>
    unfold PsbtV2.finalize
    split
    · exact ih
    · split
      · exact ih
      · next inputs is hfinal =>
        exact ⟨by simpa [ih.inputs] using (finalizeInputs_length (by simp [toUnsignedTx]) hfinal).symm, ih.outputs⟩
  | setGlobal version txVersion locktime flags _ ih => exact ⟨ih.inputs, ih.outputs⟩
  | setInput index input _ ih => exact ⟨by simp [ih.inputs], ih.outputs⟩
  | setOutput index output _ ih => exact ⟨ih.inputs, by simp [ih.outputs]⟩

/-- What is read back of a PSBT with at most one signature an input finalizes as the PSBT does. -/
theorem psbtV2_transport_finalizes (sha256 : Sha256) (built order order' order'' : MapOrder) (p : PsbtV2)
    (hbuilt : Built sha256 built p) (hone : ∀ i ∈ p.inputs, i.partialSigs.keys.card ≤ 1)
    (hsize : (p.serialize order).length < 2 ^ 64) :
    ∃ q, deserialize (p.serialize order) = .ok q ∧ (q.finalize order').2 = (p.finalize order'').2 := by
  refine ⟨p.carried, deserialize_serialize hbuilt.counted hsize, ?_⟩
  have hunsigned : p.carried.toUnsignedTx = p.toUnsignedTx := by
    simp [toUnsignedTx, carried, carriedInput]
  have hinputs : p.carried.inputs = p.inputs.map carriedInput := rfl
  rw [finalize_snd, finalize_snd, @isReady_carried order' order'' p hone, hinputs, hunsigned,
    @finalizeInputs_carried order' order'' p.inputs hone]

def oneSignature : Map (List UInt8) (List UInt8) := (∅ : Map _ _).insert [0x02] [0x30, 0x01]

/-- One input with a signature, and one output. -/
def signedOnce : PsbtV2 :=
  { new 2 1 1 with inputs := (new 2 1 1).inputs.set 0 { PsbtV2Input.default with partialSigs := oneSignature } }

theorem oneSignature_card : oneSignature.keys.card ≤ 1 := by
  refine Finset.card_le_one.mpr fun a ha b hb => ?_
  simp only [oneSignature, Finmap.mem_keys, Finmap.mem_insert, Finmap.notMem_empty, or_false] at ha hb
  rw [ha, hb]

theorem signedOnce_transports : ∃ q, deserialize (signedOnce.serialize MapOrder.any) = .ok q ∧
      (q.finalize MapOrder.any).2 = (signedOnce.finalize MapOrder.any).2 := by
  have hiter : MapOrder.any.iter oneSignature = [([0x02], [0x30, 0x01])] :=
    MapOrder.iter_singleton oneSignature_card (Finmap.lookup_insert _)
  refine psbtV2_transport_finalizes Sha256.sha256 MapOrder.any MapOrder.any MapOrder.any MapOrder.any signedOnce
    (.setInput 0 _ (.new 2 1 1)) ?_ ?_
  · intro i hi
    simp only [signedOnce, new, List.replicate_one, List.set_cons_zero, List.mem_singleton] at hi
    subst hi
    exact oneSignature_card
  · simp [signedOnce, new, serialize, globalRecords, inputRecords, outputRecords, hiter, PsbtV2Input.default,
      PsbtV2Output.default]
    decide

end Extraction

end PsbtV2

end KuberCoin.PsbtVersion2
