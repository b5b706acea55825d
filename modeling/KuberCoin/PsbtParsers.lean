import KuberCoin.GuardedReads
import KuberCoin.Psbts

/-!
The reader of PSBTs (crate `tx`, `psbt.rs`) with the positions, slices and capacities it
computes. Where it neither leaves the array nor makes room for more than there is, it reads
what `Psbt.deserialize` reads.
-/
namespace KuberCoin.PsbtParsers

open Bytes Maps Transactions Sighashes Decoders Records Psbts GuardedReads
open PsbtVersion2.PsbtV2 (readU32 readU64)

section Sizes

/-- `read_compact_size(&bytes[cursor..])`. -/
def readCompactSize (data : List UInt8) : Cursor PsbtError ℕ := fun cursor => do
  let bytes ← slice data cursor data.length
  match bytes with
  | [] => .error (.err (.parse "Empty data for compact size"))
  | first :: _ =>
      if first ≤ 0xfc then .ok (first.toNat, add cursor 1)
      else if bytes.length < sizeBytes first + 1 then .error (.err (.parse "Not enough bytes for compact size"))
      else do
        let n ← slice bytes 1 (sizeBytes first + 1)
        .ok (leValue n, add cursor (sizeBytes first + 1))

theorem covers_compactSize : Covers readCompactSize Psbt.readCompactSize fun _ => ∅ where
  faults := fun _ _ hmem => hmem.elim
  agrees := by
    intro data cursor hdata hcursor _
    have hslice : slice (ε := PsbtError) data cursor data.length = .ok (data.drop cursor) := by
      rw [slice_eq hcursor le_rfl, List.take_of_length_le (by rw [List.length_drop])]
    unfold readCompactSize Psbt.readCompactSize
    rw [hslice]
    show Agrees data cursor _ (match data.drop cursor with | [] => _ | first :: _ => _)
    cases hbytes : data.drop cursor with
    | nil => exact .error
    | cons first tail =>
      have htail : data.drop (cursor + 1) = tail := by
        rw [← List.drop_drop, hbytes, List.drop_one, List.tail_cons]
      have hlen : data.length = cursor + (tail.length + 1) := by
        have := congrArg List.length hbytes
        rw [List.length_drop, List.length_cons] at this
        omega
      rw [compactSize_cons]
      by_cases hsmall : first ≤ 0xfc
      · simp only [if_pos hsmall]
        rw [add_eq (by omega), ← htail]
        exact .ok (by omega) (by omega)
      · simp only [if_neg hsmall]
        by_cases hshort : tail.length < sizeBytes first
        · have hcons : (first :: tail).length < sizeBytes first + 1 := by
            rw [List.length_cons]
            omega
          simp only [if_neg (show ¬ sizeBytes first ≤ tail.length by omega), if_pos hcons, List.cons_ne_nil, if_false]
          exact .error
        · have hcons : ¬ (first :: tail).length < sizeBytes first + 1 := by
            rw [List.length_cons]
            omega
          have hread : slice (ε := PsbtError) (first :: tail) 1 (sizeBytes first + 1) = .ok (tail.take (sizeBytes first)) := by
            rw [slice_eq (by omega) (by rw [List.length_cons]; omega)]
            rfl
          simp only [if_pos (show sizeBytes first ≤ tail.length by omega), if_neg hcons, hread]
          show Agrees data cursor _ (.ok (_, add cursor (sizeBytes first + 1)))
          rw [add_eq (by omega), ← htail, List.drop_drop, Nat.add_assoc, Nat.add_comm 1]
          exact .ok (by omega) (by omega)

end Sizes

section Fields

/-- Bytes behind their size, looked at before they are taken. -/
def readSized (error : PsbtError) (data : List UInt8) : Cursor PsbtError (List UInt8) := do
  let len ← readCompactSize data
  check len error data
  word len data

/-- Bytes behind their size, taken without a look. -/
def takeSized (data : List UInt8) : Cursor PsbtError (List UInt8) := do
  let len ← readCompactSize data
  word len data

theorem readCompactSize_eq_ok {bytes rest : List UInt8} {n : ℕ} :
    Psbt.readCompactSize bytes = .ok (n, rest) ↔ compactSize bytes = some (n, rest) := by
  unfold Psbt.readCompactSize
  cases compactSize bytes with
  | none => simp
  | some r => simp

theorem mem_after_size {next : ℕ → Hazard} {total : ℕ} {bytes : List UInt8} :
    bytes ∈ after Psbt.readCompactSize next total ↔
      ∃ n rest, compactSize bytes = some (n, rest) ∧ rest ∈ next n total :=
  exists₂_congr fun _ _ => and_congr_left fun _ => readCompactSize_eq_ok

theorem covers_readSized (error : PsbtError) : Covers (readSized error) (Psbt.readSized error) longSize :=
  (covers_compactSize.andThen fun hread =>
    (covers_checked (compactSize_bounds (readCompactSize_eq_ok.mp hread)).1 error).congr fun _ => rfl).imp
      fun _ _ => mem_after_size

theorem covers_takeSized (error : PsbtError) : Covers takeSized (Psbt.readSized error) fun _ => overSize :=
  (covers_compactSize.andThen fun hread =>
    (covers_word (compactSize_bounds (readCompactSize_eq_ok.mp hread)).1).congr fun _ => rfl).imp
      fun _ _ => mem_after_size

end Fields

section ReadTransactions

variable {n : ℕ} {error : PsbtError} {bytes value : List UInt8} {α : Type}

/-- The outpoint of an input, in a slice of 32 bytes and four single ones. -/
def readOutPoint (data : List UInt8) : Cursor PsbtError OutPoint := do
  check 36 (.parse "Input extends past end") data
  let txid ← word 32 data
  let vout ← word 4 data
  return ⟨Bytes32.ofBytes txid, readU32 vout⟩

def readTxInput (data : List UInt8) : Cursor PsbtError TxInput := do
  let outpoint ← readOutPoint data
  let scriptSig ← readSized (.parse "Script extends past end") data
  check 4 (.parse "Sequence extends past end") data
  let sequence ← word 4 data
  return ⟨outpoint, scriptSig, readU32 sequence, Witness.empty⟩

def readTxOutput (data : List UInt8) : Cursor PsbtError TxOutput := do
  check 8 (.parse "Output value extends past end") data
  let value ← word 8 data
  let scriptPubkey ← readSized (.parse "Script pubkey extends past end") data
  return ⟨readU64 value, scriptPubkey⟩

/-- `deserialize_transaction` behind its first check. -/
def readTransaction (data : List UInt8) : Cursor PsbtError Transaction := do
  let _version ← word 4 data
  let inputCount ← readCompactSize data
  reserve inputCount data
  let inputs ← turns readTxInput inputCount data
  let outputCount ← readCompactSize data
  reserve outputCount data
  let outputs ← turns readTxOutput outputCount data
  check 4 (.parse "Locktime extends past end") data
  let lockTime ← word 4 data
  return ⟨2, inputs, outputs, readU32 lockTime⟩

def deserializeTransaction (bytes : List UInt8) : Except (Stop PsbtError) Transaction :=
  if bytes.length < 10 then .error (.err (.parse "Transaction too short"))
  else (readTransaction bytes 0).map Prod.fst

/-- A script that is longer than every position, behind the outpoint of an input. -/
def inputHazard : Hazard := skip 36 longSize

/-- Such a script behind the value of an output. -/
def outputHazard : Hazard := skip 8 longSize

/-- The hazards of a transaction: in its inputs or, behind them, in its outputs. -/
def txHazard : Hazard := skip 4 <| after Psbt.readCompactSize fun n total =>
  listHazard Psbt.readTxInput inputHazard n total ∪
    after (readMany Psbt.readTxInput n) (fun _ =>
      after Psbt.readCompactSize (listHazard Psbt.readTxOutput outputHazard)) total

/-- The values at which `deserialize_transaction` fails. -/
def badTx : Set (List UInt8) := {value | 10 ≤ value.length ∧ value ∈ txHazard value.length}

theorem readBytes_eq_ok {field rest : List UInt8} :
    Psbt.readBytes n error bytes = .ok (field, rest) ↔ n ≤ bytes.length ∧ field = bytes.take n ∧ rest = bytes.drop n :=
  bytesOr_eq_ok

theorem mem_after_bytes {next : List UInt8 → Hazard} {total : ℕ} :
    bytes ∈ after (Psbt.readBytes n error) next total ↔ bytes ∈ skip n (next (bytes.take n)) total :=
  mem_after_bytesOr

theorem covers_field {reader : List UInt8 → List UInt8 → Cursor PsbtError α} {ideal : List UInt8 → Ideal PsbtError α}
    {hazard : Hazard} (hn : n ≤ 2 ^ 63) (h : ∀ field, Covers (reader field) (ideal field) hazard) :
    Covers (fun data => check n error data >>= fun _ => word n data >>= fun field => reader field data)
      (Psbt.readBytes n error >>= ideal) (skip n hazard) := by
  have hfixed : Covers (fun data => check n error data >>= fun _ => word n data) (Psbt.readBytes n error) fun _ => ∅ :=
    (covers_fixed hn).congr fun _ => rfl
  have hassoc : ∀ data, (check n error data >>= fun _ => word n data >>= fun field => reader field data) =
      ((check n error data >>= fun _ => word n data) >>= fun field => reader field data) :=
    fun data => (bind_assoc _ _ _).symm
  simp only [hassoc]
  exact (hfixed.andThen fun _ => h _).imp fun _ _ => mem_after_bytes

theorem covers_last (hn : n ≤ 2 ^ 63) (error : PsbtError) (f : List UInt8 → α) :
    Covers (fun data => check n error data >>= fun _ => word n data >>= fun field => pure (f field))
      (Psbt.readBytes n error >>= fun field => pure (f field)) fun _ => ∅ :=
  (covers_field hn fun _ => covers_pure _).imp fun _ _ => and_iff_right_of_imp False.elim

theorem covers_outPoint : Covers readOutPoint
      (Psbt.readBytes 36 (.parse "Input extends past end") >>= fun outpoint =>
        pure ⟨Bytes32.ofBytes (outpoint.take 32), readU32 (outpoint.drop 32)⟩) fun _ => ∅ where
  faults := fun _ _ hmem => hmem.elim
  agrees := by
    intro data cursor hdata hcursor _
    by_cases hlen : data.length < cursor + 36
    · have hcheck : check 36 (PsbtError.parse "Input extends past end") data cursor = .error (.err _) :=
        if_pos (by rw [add_eq (by omega)]; exact hlen)
      have hideal : Psbt.readBytes 36 (.parse "Input extends past end") (data.drop cursor) = .error _ :=
        if_neg (by rw [List.length_drop]; omega)
      show Agrees data cursor (Psbt.readBytes 36 _ _ >>= fun _ => _) (check 36 _ data cursor >>= fun _ => _)
      rw [hcheck, hideal]
      exact .error
    · have hcheck : check 36 (PsbtError.parse "Input extends past end") data cursor = .ok ((), cursor) :=
        if_neg (by rw [add_eq (by omega)]; exact hlen)
      have hideal : Psbt.readBytes 36 (.parse "Input extends past end") (data.drop cursor) = .ok (_, _) :=
        if_pos (by rw [List.length_drop]; omega)
      show Agrees data cursor (Psbt.readBytes 36 _ _ >>= fun _ => _) (check 36 _ data cursor >>= fun _ => _)
      rw [hcheck, hideal]
      show Agrees data cursor _ (word 32 data cursor >>= fun _ => _)
      rw [word_eq hdata (by omega)]
      show Agrees data cursor _ (word 4 data (cursor + 32) >>= fun _ => _)
      rw [word_eq hdata (by omega)]
      have hvout : ((data.drop cursor).take 36).drop 32 = (data.drop (cursor + 32)).take 4 := by
        rw [List.drop_take, List.drop_drop]
      have htxid : ((data.drop cursor).take 36).take 32 = (data.drop cursor).take 32 := by
        rw [List.take_take]
        rfl
      show Agrees data cursor (.ok (_, (data.drop cursor).drop 36)) _
      rw [hvout, htxid, List.drop_drop]
      exact .ok (by omega) (by omega)

theorem covers_txInput : Covers readTxInput Psbt.readTxInput inputHazard := by
  have hbehind : ∀ outpoint : OutPoint,
      Covers (fun data => readSized (.parse "Script extends past end") data >>= fun scriptSig =>
          check 4 (.parse "Sequence extends past end") data >>= fun _ => word 4 data >>= fun sequence =>
            pure (⟨outpoint, scriptSig, readU32 sequence, Witness.empty⟩ : TxInput))
        (Psbt.readSized (.parse "Script extends past end") >>= fun scriptSig =>
          Psbt.readBytes 4 (.parse "Sequence extends past end") >>= fun sequence =>
            pure (⟨outpoint, scriptSig, readU32 sequence, Witness.empty⟩ : TxInput)) longSize :=
    fun _ => (covers_readSized _).thenSafe fun _ => covers_last (by decide) _ _
  refine ((covers_outPoint.andThen fun _ => hbehind _).congr fun bytes => ?_).imp fun {total bytes} _ _ => ?_
  · rw [bind_assoc]
    rfl
  · exact mem_after_map.trans mem_after_bytes

theorem covers_txOutput : Covers readTxOutput Psbt.readTxOutput outputHazard :=
  covers_field (by decide) fun value =>
    (covers_readSized _).map fun scriptPubkey => (⟨readU64 value, scriptPubkey⟩ : TxOutput)

theorem consumes_size : Consumes Psbt.readCompactSize := fun _ _ _ hread =>
  (compactSize_bounds (readCompactSize_eq_ok.mp hread)).2

theorem consumes_sized (error : PsbtError) : Consumes (Psbt.readSized error) :=
  consumes_size.bind fun _ => shrinks_bytesOr error

theorem consumes_txInput : Consumes Psbt.readTxInput :=
  Consumes.bind (consumes_bytesOr _ (by decide)) fun _ => (consumes_sized _).shrinks.bind fun _ =>
    Shrinks.bind (shrinks_bytesOr _) fun _ => shrinks_pure _

theorem consumes_txOutput : Consumes Psbt.readTxOutput :=
  Consumes.bind (consumes_bytesOr _ (by decide)) fun _ => (consumes_sized _).shrinks.bind fun _ => shrinks_pure _

theorem covers_transaction :
    Covers readTransaction Psbt.readTransaction fun total => {bytes | bytes.length < 4} ∪ txHazard total := by
  have hlast : ∀ (inputs : List TxInput) (outputs : List TxOutput), Covers
      (fun data => check 4 (.parse "Locktime extends past end") data >>= fun _ => word 4 data >>= fun lockTime =>
        pure (⟨2, inputs, outputs, readU32 lockTime⟩ : Transaction))
      (Psbt.readBytes 4 (.parse "Locktime extends past end") >>= fun lockTime =>
        pure (⟨2, inputs, outputs, readU32 lockTime⟩ : Transaction)) fun _ => ∅ :=
    fun inputs outputs => covers_last (by decide) _ _
  have houtputs : ∀ (inputs : List TxInput) (m : ℕ), Covers
      (fun data => reserve m data >>= fun _ => turns readTxOutput m data >>= fun outputs =>
        check 4 (.parse "Locktime extends past end") data >>= fun _ => word 4 data >>= fun lockTime =>
        pure (⟨2, inputs, outputs, readU32 lockTime⟩ : Transaction))
      ((readMany Psbt.readTxOutput m : Ideal PsbtError _) >>= fun outputs =>
        Psbt.readBytes 4 (.parse "Locktime extends past end") >>= fun lockTime =>
        pure (⟨2, inputs, outputs, readU32 lockTime⟩ : Transaction)) (listHazard Psbt.readTxOutput outputHazard m) := by
    intro inputs m
    have h := (covers_list (n := m) covers_txOutput consumes_txOutput).thenSafe (hlast inputs)
    simpa only [bind_assoc] using h
  have hinputs : ∀ n : ℕ, Covers
      (fun data => reserve n data >>= fun _ => turns readTxInput n data >>= fun inputs =>
        readCompactSize data >>= fun m => reserve m data >>= fun _ => turns readTxOutput m data >>= fun outputs =>
        check 4 (.parse "Locktime extends past end") data >>= fun _ => word 4 data >>= fun lockTime =>
        pure (⟨2, inputs, outputs, readU32 lockTime⟩ : Transaction))
      ((readMany Psbt.readTxInput n : Ideal PsbtError _) >>= fun inputs => Psbt.readCompactSize >>= fun m =>
        (readMany Psbt.readTxOutput m : Ideal PsbtError _) >>= fun outputs =>
        Psbt.readBytes 4 (.parse "Locktime extends past end") >>= fun lockTime =>
        pure (⟨2, inputs, outputs, readU32 lockTime⟩ : Transaction)) fun total =>
      listHazard Psbt.readTxInput inputHazard n total ∪ after (readMany Psbt.readTxInput n) (fun _ =>
        after Psbt.readCompactSize (listHazard Psbt.readTxOutput outputHazard)) total := by
    intro n
    have h := (covers_list (n := n) covers_txInput consumes_txInput).bind
      fun {inputs _ _} _ => covers_compactSize.andThen fun {m _ _} _ => houtputs inputs m
    simpa only [bind_assoc] using h
  have hversion : Covers (word 4) (Psbt.readBytes 4 (.parse "Transaction too short")) fun _ =>
      {bytes | bytes.length < 4} := (covers_word (by decide)).congr fun _ => rfl
  have h := hversion.bind fun _ => covers_compactSize.andThen fun {n _ _} _ => hinputs n
  exact h.imp fun {total bytes} _ _ => or_congr_right mem_after_bytes

theorem deserializeTransaction_faults (hvalue : value.length < 2 ^ 63) (h : value ∈ badTx) :
    Faults (deserializeTransaction value) := by
  obtain ⟨hlen, hin⟩ := h
  have hmem : value.drop 0 ∈ ({bytes | bytes.length < 4} ∪ txHazard value.length : Set (List UInt8)) := Or.inr hin
  obtain ⟨fault, hfault⟩ := covers_transaction.faults hvalue (Nat.zero_le _) hmem
  refine ⟨fault, ?_⟩
  rw [deserializeTransaction, if_neg (by omega), hfault]
  rfl

theorem deserializeTransaction_eq (hvalue : value.length < 2 ^ 63) (h : value ∉ badTx) :
    deserializeTransaction value = lift (Psbt.deserializeTransaction value) := by
  unfold deserializeTransaction Psbt.deserializeTransaction
  by_cases hshort : value.length < 10
  · rw [if_pos hshort, if_pos hshort]
    rfl
  · have hmem : value.drop 0 ∉ ({bytes | bytes.length < 4} ∪ txHazard value.length : Set (List UInt8)) := by
      rintro (hfour | hin)
      · have : value.length < 4 := hfour
        omega
      · exact h ⟨by omega, hin⟩
    have hagree := covers_transaction.agrees hvalue (Nat.zero_le _) hmem
    rw [List.drop_zero] at hagree
    rw [if_neg hshort, if_neg hshort]
    show _ = lift (Psbt.readTransaction value >>= fun x => pure x.1)
    generalize Psbt.readTransaction value = i, readTransaction value 0 = r at hagree ⊢
    cases hagree with
    | ok => rfl
    | error => rfl

end ReadTransactions

section Values

variable {bytes value : List UInt8}

/-- The script of a witness UTXO is taken without a look at its length. -/
def readWitnessUtxo (value : List UInt8) : Except (Stop PsbtError) TxOutput := do
  let amount ← slice value 0 8
  let (script, _) ← takeSized value 8
  return ⟨readU64 amount, script⟩

/-- The numbers of a path, four bytes each. -/
def readPath (value : List UInt8) : ℕ → ℕ → Except (Stop PsbtError) (List UInt32)
  | 0, _ => .error (.fault .idle)
  | fuel + 1, i =>
      if add i 4 ≤ value.length then do
        let number ← slice value i (add i 4)
        let path ← readPath value fuel (add i 4)
        return UInt32.ofNat (leValue number) :: path
      else .ok []

def readKeySource (value : List UInt8) : Except (Stop PsbtError) KeySource := do
  let fingerprint ← slice value 0 4
  let path ← readPath value (value.length + 1) 4
  return (readU32 fingerprint, path)

/-- The elements of a final witness are taken without a look at their lengths. -/
def readStack (value : List UInt8) : Except (Stop PsbtError) (List (List UInt8)) :=
  if value = [] then .ok []
  else ((readCompactSize value >>= fun count => turns takeSized count value) 0).map Prod.fst

/-- The script and the version of a leaf: the last byte of the value. -/
def readLeaf (value : List UInt8) : Except (Stop PsbtError) (List UInt8 × UInt8) := do
  let version ← index value (value.length - 1)
  let script ← slice value 0 (value.length - 1)
  return (script, version)

/-- The values at which the script of a witness UTXO is out of range. -/
def badUtxo : Set (List UInt8) := {value | 9 ≤ value.length ∧ value.drop 8 ∈ overSize}

/-- The values at which an element of a final witness is out of range. -/
def badStack : Set (List UInt8) :=
  {value | ∃ count rest, compactSize value = some (count, rest) ∧
    rest ∈ among (Psbt.readSized .panicked) (fun _ => overSize) count value.length}

theorem readU32_take (value : List UInt8) : readU32 (value.take 4) = readU32 value := by
  rw [readU32, readU32, List.take_take]
  rfl

theorem readU64_take (value : List UInt8) : readU64 (value.take 8) = readU64 value := by
  rw [readU64, readU64, List.take_take]
  rfl

theorem path_step (h : 4 ≤ bytes.length) :
    Psbt.readPath bytes = UInt32.ofNat (leValue (bytes.take 4)) :: Psbt.readPath (bytes.drop 4) := by
  match bytes, h with
  | a :: b :: c :: d :: rest, _ => rfl

theorem path_end (h : bytes.length < 4) : Psbt.readPath bytes = [] := by
  match bytes, h with
  | [], _ => rfl
  | [_], _ => rfl
  | [_, _], _ => rfl
  | [_, _, _], _ => rfl

theorem readPath_eq (hvalue : value.length < 2 ^ 63) (fuel i : ℕ) (hi : i ≤ value.length)
    (hfuel : value.length - i < fuel) : readPath value fuel i = .ok (Psbt.readPath (value.drop i)) := by
  induction fuel generalizing i with
  | zero => omega
  | succ fuel ih =>
    rw [readPath, add_eq (by omega)]
    by_cases hnext : i + 4 ≤ value.length
    · have hpath : Psbt.readPath (value.drop i) = _ := path_step (by rw [List.length_drop]; omega)
      rw [if_pos hnext, slice_eq (by omega) hnext, ih (i + 4) hnext (by omega), hpath, List.drop_drop,
        Nat.add_sub_cancel_left]
      rfl
    · rw [if_neg hnext, path_end (by rw [List.length_drop]; omega)]

theorem readKeySource_eq (hvalue : value.length < 2 ^ 63) (h : 4 ≤ value.length) :
    readKeySource value = .ok (Psbt.readKeySource value) := by
  rw [readKeySource, slice_front h, readPath_eq hvalue _ 4 h (by omega), Psbt.readKeySource, ← readU32_take value]
  rfl

theorem readLeaf_eq (h : value ≠ []) : readLeaf value = .ok (value.dropLast, value.getLastD 0) := by
  have hlast : index (ε := PsbtError) value (value.length - 1) = .ok (value.getLastD 0) := by
    rw [index, ← List.getLast?_eq_getElem?, List.getLast?_eq_some_getLast h, List.getLastD_eq_getLast?,
      List.getLast?_eq_some_getLast h]
    rfl
  rw [readLeaf, hlast, slice_front (by omega), List.dropLast_eq_take]
  rfl

theorem readWitnessUtxo_faults (hvalue : value.length < 2 ^ 63) (h : value ∈ badUtxo) :
    Faults (readWitnessUtxo value) := by
  obtain ⟨hlen, hin⟩ := h
  obtain ⟨fault, hfault⟩ := (covers_takeSized .panicked).faults hvalue (by omega : 8 ≤ value.length) hin
  refine ⟨fault, ?_⟩
  rw [readWitnessUtxo, slice_front (by omega), hfault]
  rfl

theorem readWitnessUtxo_eq (hvalue : value.length < 2 ^ 63) (hlen : 9 ≤ value.length) (h : value ∉ badUtxo) :
    readWitnessUtxo value = lift (Psbt.readWitnessUtxo value) := by
  have hagree := (covers_takeSized .panicked).agrees hvalue (by omega : 8 ≤ value.length) fun hin => h ⟨hlen, hin⟩
  rw [readWitnessUtxo, Psbt.readWitnessUtxo, slice_front (by omega), ← readU64_take value]
  show (takeSized value 8 >>= fun x => pure (⟨readU64 (value.take 8), x.1⟩ : TxOutput)) =
    lift (Psbt.readSized .panicked (value.drop 8) >>= fun x => pure ⟨readU64 (value.take 8), x.1⟩)
  generalize Psbt.readSized .panicked (value.drop 8) = i, takeSized value 8 = r at hagree ⊢
  cases hagree with
  | ok => rfl
  | error => rfl

theorem covers_stack :
    Covers (fun data => readCompactSize data >>= fun count => turns takeSized count data) Psbt.readStack fun total =>
      {value | ∃ count rest, compactSize value = some (count, rest) ∧
        rest ∈ among (Psbt.readSized .panicked) (fun _ => overSize) count total} :=
  (covers_compactSize.andThen fun _ =>
    ((covers_takeSized .panicked).advancing_of_consumes (consumes_sized _)).turns).imp fun _ _ => mem_after_size

theorem readStack_faults (hvalue : value.length < 2 ^ 63) (h : value ∈ badStack) : Faults (readStack value) := by
  have hne : value ≠ [] := by
    rintro rfl
    obtain ⟨count, rest, hread, -⟩ := h
    cases hread
  obtain ⟨fault, hfault⟩ := covers_stack.faults hvalue (Nat.zero_le _) h
  exact ⟨fault, by rw [readStack, if_neg hne, hfault]; rfl⟩

theorem readStack_eq (hvalue : value.length < 2 ^ 63) (h : value ∉ badStack) :
    readStack value = if value = [] then .ok [] else lift ((Psbt.readStack value).map Prod.fst) := by
  unfold readStack
  split
  next => rfl
  next hne =>
    have hagree := covers_stack.agrees hvalue (Nat.zero_le _) h
    rw [List.drop_zero] at hagree
    generalize Psbt.readStack value = i,
      (readCompactSize value >>= fun count => turns takeSized count value) 0 = r at hagree ⊢
    cases hagree with
    | ok => rfl
    | error => rfl

end Values

section Absorbing

/-- The match over the records of the global map. -/
def absorbGlobal (g : Psbt.Globals) (r : Record) : Except (Stop PsbtError) Psbt.Globals := do
  let keyType ← index r.key 0
  if keyType = 0x00 then do
    let tx ← deserializeTransaction r.value
    return { g with unsignedTx := some tx }
  else if keyType = 0x01 then do
    let xpub ← keyData r.key
    return { g with xpubs := g.xpubs.insert xpub r.value }
  else if keyType = 0xfb then
    if 4 ≤ r.value.length then do
      let version ← slice r.value 0 4
      return { g with version := readU32 version }
    else return g
  else if keyType = 0xfc then do
    let key ← keyData r.key
    return { g with proprietary := g.proprietary.insert key r.value }
  else return g

/-- The match over the records of an input map; those that are entered as they stand are
left to `Psbt.absorbInput`. -/
def absorbInput (i : PsbtInput) (r : Record) : Except (Stop PsbtError) PsbtInput := do
  let keyType ← index r.key 0
  if keyType = 0x00 then do
    let tx ← deserializeTransaction r.value
    return { i with nonWitnessUtxo := some tx }
  else if keyType = 0x01 then
    if 9 ≤ r.value.length then do
      let utxo ← readWitnessUtxo r.value
      return { i with witnessUtxo := some utxo }
    else return i
  else if keyType = 0x02 then do
    let pubkey ← keyData r.key
    return { i with partialSigs := i.partialSigs.insert pubkey r.value }
  else if keyType = 0x03 then
    if 4 ≤ r.value.length then do
      let sighashType ← slice r.value 0 4
      return { i with sighashType := some (readU32 sighashType) }
    else return i
  else if keyType = 0x06 then
    if 4 ≤ r.value.length then do
      let source ← readKeySource r.value
      let pubkey ← keyData r.key
      return { i with bip32Derivation := i.bip32Derivation.insert pubkey source }
    else return i
  else if keyType = 0x08 then do
    let items ← readStack r.value
    return { i with finalScriptWitness := some items }
  else if keyType = 0x14 then
    if 65 ≤ r.key.length then do
      let xonlyPk ← slice r.key 1 33
      let leafHash ← slice r.key 33 65
      return { i with tapScriptSig := i.tapScriptSig.insert (xonlyPk, leafHash) r.value }
    else return i
  else if keyType = 0x15 then
    if r.value = [] then return i
    else do
      let controlBlock ← keyData r.key
      let leaf ← readLeaf r.value
      return { i with tapLeafScript := i.tapLeafScript.insert controlBlock leaf }
  else if keyType = 0xfc then do
    let key ← keyData r.key
    return { i with proprietary := i.proprietary.insert key r.value }
  else lift (Psbt.absorbInput i r)

/-- The match over the records of an output map. -/
def absorbOutput (o : PsbtOutput) (r : Record) : Except (Stop PsbtError) PsbtOutput := do
  let keyType ← index r.key 0
  if keyType = 0x02 then
    if 4 ≤ r.value.length then do
      let source ← readKeySource r.value
      let pubkey ← keyData r.key
      return { o with bip32Derivation := o.bip32Derivation.insert pubkey source }
    else return o
  else if keyType = 0x06 then
    if r.value = [] then return o
    else do
      let controlBlock ← keyData r.key
      let leaf ← readLeaf r.value
      return { o with tapTree := o.tapTree.insert controlBlock leaf }
  else if keyType = 0xfc then do
    let key ← keyData r.key
    return { o with proprietary := o.proprietary.insert key r.value }
  else lift (Psbt.absorbOutput o r)

/-- A global record with a transaction that fails. -/
def badGlobal : Set Record := {r | r.key.headD 0 = 0x00 ∧ r.value ∈ badTx}

/-- An input record with a transaction, a witness UTXO or a final witness that fails. -/
def badInput : Set Record :=
  {r | r.key.headD 0 = 0x00 ∧ r.value ∈ badTx ∨ r.key.headD 0 = 0x01 ∧ r.value ∈ badUtxo ∨
    r.key.headD 0 = 0x08 ∧ r.value ∈ badStack}

theorem enters_global : Enters absorbGlobal Psbt.absorbGlobal badGlobal where
  faults := by
    rintro g ⟨_ | ⟨keyType, rest⟩, value⟩ hheld ⟨htype, hvalue⟩
    · exact absurd rfl hheld.key_ne
    · obtain ⟨fault, hfault⟩ := deserializeTransaction_faults hheld.value_lt hvalue
      cases show keyType = 0x00 from htype
      exact ⟨fault, by rw [absorbGlobal]; show (deserializeTransaction value >>= fun tx => _) = _; rw [hfault]; rfl⟩
  agrees := by
    rintro g ⟨_ | ⟨keyType, rest⟩, value⟩ hheld hgood
    · exact absurd rfl hheld.key_ne
    · have htx : keyType = 0x00 → deserializeTransaction value = lift (Psbt.deserializeTransaction value) :=
        fun htype => deserializeTransaction_eq hheld.value_lt fun hbad => hgood ⟨htype, hbad⟩
      show (if keyType = 0x00 then _ else if keyType = 0x01 then _ else if keyType = 0xfb then _
          else if keyType = 0xfc then _ else _) =
        lift (if keyType = 0x00 then _ else if keyType = 0x01 then _ else if keyType = 0xfb then _
          else if keyType = 0xfc then _ else _)
      split_ifs with h0 h1 hversion hlen hproprietary
      · rw [htx h0]
        cases Psbt.deserializeTransaction value <;> rfl
      · rw [keyData_cons]
        rfl
      · rw [slice_front hlen]
        show Except.ok { g with version := readU32 (value.take 4) } = _
        rw [readU32_take]
        rfl
      · rfl
      · rw [keyData_cons]
        rfl
      · rfl

theorem enters_input : Enters absorbInput Psbt.absorbInput badInput where
  faults := by
    rintro i ⟨_ | ⟨keyType, rest⟩, value⟩ hheld hbad
    · exact absurd rfl hheld.key_ne
    · obtain ⟨htype, hvalue⟩ | ⟨htype, hvalue⟩ | ⟨htype, hvalue⟩ := hbad
      · obtain ⟨fault, hfault⟩ := deserializeTransaction_faults hheld.value_lt hvalue
        cases show keyType = 0x00 from htype
        refine ⟨fault, ?_⟩
        show (deserializeTransaction value >>= fun tx => pure { i with nonWitnessUtxo := some tx }) = _
        rw [hfault]
        rfl
      · obtain ⟨fault, hfault⟩ := readWitnessUtxo_faults hheld.value_lt hvalue
        cases show keyType = 0x01 from htype
        refine ⟨fault, ?_⟩
        show (if 9 ≤ value.length then
          readWitnessUtxo value >>= fun utxo => pure { i with witnessUtxo := some utxo } else pure i) = _
        rw [if_pos hvalue.1, hfault]
        rfl
      · obtain ⟨fault, hfault⟩ := readStack_faults hheld.value_lt hvalue
        cases show keyType = 0x08 from htype
        refine ⟨fault, ?_⟩
        show (readStack value >>= fun items => pure { i with finalScriptWitness := some items }) = _
        rw [hfault]
        rfl
  agrees := by
    rintro i ⟨_ | ⟨keyType, rest⟩, value⟩ hheld hgood
    · exact absurd rfl hheld.key_ne
    · have htx : keyType = 0x00 → deserializeTransaction value = lift (Psbt.deserializeTransaction value) :=
        fun htype => deserializeTransaction_eq hheld.value_lt fun hbad => hgood (Or.inl ⟨htype, hbad⟩)
      have hutxo : keyType = 0x01 → 9 ≤ value.length → readWitnessUtxo value = lift (Psbt.readWitnessUtxo value) :=
        fun htype hlen => readWitnessUtxo_eq hheld.value_lt hlen fun hbad => hgood (Or.inr (Or.inl ⟨htype, hbad⟩))
      have hstack : keyType = 0x08 → readStack value = if value = [] then .ok [] else
          lift ((Psbt.readStack value).map Prod.fst) :=
        fun htype => readStack_eq hheld.value_lt fun hbad => hgood (Or.inr (Or.inr ⟨htype, hbad⟩))
      show (if keyType = 0x00 then _ else if keyType = 0x01 then _ else if keyType = 0x02 then _
        else if keyType = 0x03 then _ else if keyType = 0x06 then _ else if keyType = 0x08 then _
        else if keyType = 0x14 then _ else if keyType = 0x15 then _ else if keyType = 0xfc then _ else _) = _
      by_cases h0 : keyType = 0x00
      · rw [if_pos h0]
        cases h0
        show _ = lift (Psbt.deserializeTransaction value >>= fun tx => pure { i with nonWitnessUtxo := some tx })
        rw [htx rfl]
        cases Psbt.deserializeTransaction value <;> rfl
      rw [if_neg h0]
      by_cases h1 : keyType = 0x01
      · rw [if_pos h1]
        cases h1
        by_cases hlen : 9 ≤ value.length
        · rw [if_pos hlen]
          show _ = lift (if 9 ≤ value.length then
            Psbt.readWitnessUtxo value >>= fun utxo => pure { i with witnessUtxo := some utxo } else .ok i)
          rw [if_pos hlen, hutxo rfl hlen]
          cases Psbt.readWitnessUtxo value <;> rfl
        · rw [if_neg hlen]
          show _ = lift (if 9 ≤ value.length then _ else .ok i)
          rw [if_neg hlen]
          rfl
      rw [if_neg h1]
      by_cases h2 : keyType = 0x02
      · rw [if_pos h2]
        cases h2
        rw [keyData_cons]
        rfl
      rw [if_neg h2]
      by_cases h3 : keyType = 0x03
      · rw [if_pos h3]
        cases h3
        by_cases hlen : 4 ≤ value.length
        · rw [if_pos hlen]
          show _ = lift (.ok (if 4 ≤ value.length then { i with sighashType := some (readU32 value) } else i))
          rw [if_pos hlen, slice_front hlen, ← readU32_take value]
          rfl
        · rw [if_neg hlen]
          show _ = lift (.ok (if 4 ≤ value.length then { i with sighashType := some (readU32 value) } else i))
          rw [if_neg hlen]
          rfl
      rw [if_neg h3]
      by_cases h6 : keyType = 0x06
      · rw [if_pos h6]
        cases h6
        by_cases hlen : 4 ≤ value.length
        · rw [if_pos hlen]
          rw [keyData_cons, readKeySource_eq hheld.value_lt hlen]
          show _ = lift (.ok { i with bip32Derivation := Psbt.enterKeySource i.bip32Derivation rest value })
          rw [Psbt.enterKeySource, if_pos hlen]
          rfl
        · rw [if_neg hlen]
          show _ = lift (.ok { i with bip32Derivation := Psbt.enterKeySource i.bip32Derivation rest value })
          rw [Psbt.enterKeySource, if_neg hlen]
          rfl
      rw [if_neg h6]
      by_cases h8 : keyType = 0x08
      · rw [if_pos h8]
        cases h8
        rw [hstack rfl]
        show _ = lift (if value = [] then .ok { i with finalScriptWitness := some [] }
          else Psbt.readStack value >>= fun x => pure { i with finalScriptWitness := some x.1 })
        split
        · rfl
        · cases Psbt.readStack value <;> rfl
      rw [if_neg h8]
      by_cases h14 : keyType = 0x14
      · rw [if_pos h14]
        cases h14
        by_cases hlen : 65 ≤ (0x14 :: rest : List UInt8).length
        · rw [if_pos hlen]
          have hslices : 64 ≤ rest.length := by
            simp only [List.length_cons] at hlen
            omega
          rw [slice_eq (by omega) (by rw [List.length_cons]; omega), slice_eq (by omega) (by rw [List.length_cons]; omega)]
          show _ = lift (.ok { i with tapScriptSig := Psbt.enterTapScriptSig i.tapScriptSig rest value })
          rw [Psbt.enterTapScriptSig, if_pos hslices]
          rfl
        · rw [if_neg hlen]
          have hslices : ¬ 64 ≤ rest.length := by
            simp only [List.length_cons] at hlen
            omega
          show _ = lift (.ok { i with tapScriptSig := Psbt.enterTapScriptSig i.tapScriptSig rest value })
          rw [Psbt.enterTapScriptSig, if_neg hslices]
          rfl
      rw [if_neg h14]
      by_cases h15 : keyType = 0x15
      · rw [if_pos h15]
        cases h15
        by_cases hempty : value = []
        · rw [if_pos hempty]
          show _ = lift (.ok { i with tapLeafScript := Psbt.enterLeaf i.tapLeafScript rest value })
          rw [Psbt.enterLeaf, if_pos hempty]
          rfl
        · rw [if_neg hempty]
          rw [keyData_cons, readLeaf_eq hempty]
          show _ = lift (.ok { i with tapLeafScript := Psbt.enterLeaf i.tapLeafScript rest value })
          rw [Psbt.enterLeaf, if_neg hempty]
          rfl
      rw [if_neg h15]
      by_cases hfc : keyType = 0xfc
      · rw [if_pos hfc]
        cases hfc
        rw [keyData_cons]
        rfl
      rw [if_neg hfc]

theorem enters_output : Enters absorbOutput Psbt.absorbOutput ∅ where
  faults := fun _ hbad => hbad.elim
  agrees := by
    rintro o ⟨_ | ⟨keyType, rest⟩, value⟩ hheld -
    · exact absurd rfl hheld.key_ne
    · show (if keyType = 0x02 then _ else if keyType = 0x06 then _ else if keyType = 0xfc then _ else _) = _
      split_ifs with h2 hlen h6 hempty hfc
      · cases h2
        rw [keyData_cons, readKeySource_eq hheld.value_lt hlen]
        show _ = lift (.ok { o with bip32Derivation := Psbt.enterKeySource o.bip32Derivation rest value })
        rw [Psbt.enterKeySource, if_pos hlen]
        rfl
      · cases h2
        show _ = lift (.ok { o with bip32Derivation := Psbt.enterKeySource o.bip32Derivation rest value })
        rw [Psbt.enterKeySource, if_neg hlen]
        rfl
      · cases h6
        show _ = lift (.ok { o with tapTree := Psbt.enterLeaf o.tapTree rest value })
        rw [Psbt.enterLeaf, if_pos hempty]
        rfl
      · cases h6
        rw [keyData_cons, readLeaf_eq hempty]
        show _ = lift (.ok { o with tapTree := Psbt.enterLeaf o.tapTree rest value })
        rw [Psbt.enterLeaf, if_neg hempty]
        rfl
      · cases hfc
        rw [keyData_cons]
        rfl
      · rfl

end Absorbing

section ReadMaps

/-- The next record of a map. Behind a key of no length one byte is passed over. -/
def parseRecord (texts : Psbt.MapTexts) (data : List UInt8) : Cursor PsbtError (Option Record) := fun cursor =>
  if data.length ≤ cursor then .error (.err (.parse texts.atEnd))
  else
    match readCompactSize data cursor with
    | .error stop => .error stop
    | .ok (keyLen, next) =>
        if keyLen = 0 then .ok (none, add cursor 1)
        else ((do
          check keyLen (.parse texts.inKey) data
          let key ← word keyLen data
          let value ← readSized (.parse texts.inValue) data
          return some ⟨key, value⟩ : Cursor PsbtError (Option Record))) next

def readMap {σ : Type} (texts : Psbt.MapTexts) (absorb : σ → Record → Except (Stop PsbtError) σ) (start : σ)
    (data : List UInt8) : Cursor PsbtError σ :=
  loopRecords (parseRecord texts) absorb (data.length + 1) start data

/-- `Psbt::deserialize` behind the magic bytes. Each map of an input or an output is read
from a slice of its own. -/
def readPsbt (bytes : List UInt8) : Cursor PsbtError Psbt := do
  let globals ← readMap Psbt.globalTexts absorbGlobal ⟨none, 0, ∅, ∅⟩ bytes
  match globals.unsignedTx with
  | none => throw (.err (.missingData "Missing unsigned transaction"))
  | some unsignedTx => do
      reserve unsignedTx.inputs.length bytes
      let inputs ← turns (within (readMap Psbt.inputTexts absorbInput .default)) unsignedTx.inputs.length bytes
      reserve unsignedTx.outputs.length bytes
      let outputs ← turns (within (readMap Psbt.outputTexts absorbOutput .default)) unsignedTx.outputs.length bytes
      return ⟨unsignedTx, globals.version, inputs, outputs, globals.xpubs, globals.proprietary⟩

def deserialize (bytes : List UInt8) : Except (Stop PsbtError) Psbt :=
  if bytes.length < 5 then .error (.err (.parse "PSBT too short"))
  else if bytes.take 4 ≠ Psbt.magic.take 4 then .error (.err (.parse "Invalid PSBT magic"))
  else if (bytes.drop 4).headD 0 ≠ 0xff then .error (.err (.parse "Invalid PSBT separator"))
  else (readPsbt bytes 5).map Prod.fst

theorem covers_keyed (texts : Psbt.MapTexts) {n : ℕ} (hn : n < 2 ^ 64) :
    Covers (fun data => check n (.parse texts.inKey) data >>= fun _ => word n data >>= fun key =>
        readSized (.parse texts.inValue) data >>= fun value => pure (some (⟨key, value⟩ : Record)))
      (Psbt.readBytes n (.parse texts.inKey) >>= fun key => Psbt.readSized (.parse texts.inValue) >>= fun value =>
        pure (some (⟨key, value⟩ : Record)))
      fun total => wraps n total ∪ after (Psbt.readBytes n (.parse texts.inKey)) (fun _ => longSize) total := by
  have hkey : Covers (fun data => check n (.parse texts.inKey) data >>= fun _ => word n data)
      (Psbt.readBytes n (.parse texts.inKey)) (wraps n) := (covers_checked hn _).congr fun _ => rfl
  have h := hkey.bind fun {key _ _} _ =>
    (covers_readSized (.parse texts.inValue)).map fun value => some (⟨key, value⟩ : Record)
  simpa only [bind_assoc] using h

theorem parseRecord_eq {texts : Psbt.MapTexts} {bytes : List UInt8} (h : bytes ≠ []) :
    Psbt.parseRecord texts bytes = Psbt.readCompactSize bytes >>= fun x =>
      if x.1 = 0 then .ok (none, bytes.drop 1)
      else (Psbt.readBytes x.1 (.parse texts.inKey) >>= fun key => Psbt.readSized (.parse texts.inValue) >>= fun value =>
        pure (some (⟨key, value⟩ : Record)) : Ideal PsbtError _) x.2 := by
  rw [Psbt.parseRecord, if_neg h]
  rfl

theorem covers_record (texts : Psbt.MapTexts) : Covers (parseRecord texts) (Psbt.parseRecord texts) longField where
  faults := by
    intro data cursor hdata hcursor hin
    obtain ⟨n, mid, hread, hn⟩ := longField_size hdata hin
    have hsize := covers_compactSize.agrees hdata hcursor (Set.notMem_empty _)
    have hideal := readCompactSize_eq_ok.mpr hread
    have hcur : ¬ data.length ≤ cursor := by
      have := (compactSize_bounds hread).2
      rw [List.length_drop] at this
      omega
    have hmid := (longField_iff (PsbtError.parse texts.inKey) hread hn).mp hin
    rw [parseRecord, if_neg hcur]
    generalize readCompactSize data cursor = r at hsize ⊢
    rw [hideal] at hsize
    cases hsize with
    | ok hle hlen =>
      simp only [if_neg hn]
      exact (covers_keyed texts (compactSize_bounds hread).1).faults hdata hlen hmid
  agrees := by
    intro data cursor hdata hcursor hin
    by_cases hcur : data.length ≤ cursor
    · have hnil : data.drop cursor = [] := List.drop_eq_nil_of_le hcur
      rw [parseRecord, if_pos hcur, hnil]
      exact .error
    · have hne : data.drop cursor ≠ [] := by
        rw [Ne, List.drop_eq_nil_iff]
        exact hcur
      have hsize := covers_compactSize.agrees hdata hcursor (Set.notMem_empty _)
      rw [parseRecord, if_neg hcur, parseRecord_eq hne]
      generalize readCompactSize data cursor = r, hread : Psbt.readCompactSize (data.drop cursor) = i at hsize ⊢
      cases hsize with
      | error => exact .error
      | @ok n next hle hlen =>
        have hread := readCompactSize_eq_ok.mp hread
        show Agrees data cursor (if n = 0 then _ else _) (if n = 0 then _ else _)
        by_cases hn : n = 0
        · rw [if_pos hn, if_pos hn, add_eq (by omega), List.drop_drop]
          exact .ok (by omega) (by omega)
        · rw [if_neg hn, if_neg hn]
          have hmid := fun hmid => hin ((longField_iff (PsbtError.parse texts.inKey) hread hn).mpr hmid)
          exact ((covers_keyed texts (compactSize_bounds hread).1).agrees hdata hlen hmid).mono hle

theorem parses_record (texts : Psbt.MapTexts) : Parses (Psbt.parseRecord texts) := by
  intro bytes rest r hread
  have hne : bytes ≠ [] := by
    rintro rfl
    cases hread
  rw [parseRecord_eq hne] at hread
  cases hsize : Psbt.readCompactSize bytes with
  | error e =>
    rw [hsize] at hread
    cases hread
  | ok x =>
    rw [hsize] at hread
    have hbounds := (compactSize_bounds (readCompactSize_eq_ok.mp hsize)).2
    have hread : (if x.1 = 0 then _ else _) = _ := hread
    by_cases hn : x.1 = 0
    · rw [if_pos hn] at hread
      cases hread
    · rw [if_neg hn] at hread
      obtain ⟨key, mid, hkey, hread⟩ := bind_eq_ok.mp hread
      obtain ⟨value, last, hvalue, hread⟩ := bind_eq_ok.mp hread
      cases hread
      obtain ⟨hle, rfl, rfl⟩ := readBytes_eq_ok.mp hkey
      obtain ⟨n, mid', hsized, hvalue⟩ := bind_eq_ok.mp hvalue
      obtain ⟨hle', rfl, rfl⟩ := readBytes_eq_ok.mp hvalue
      have hbounds' := (compactSize_bounds (readCompactSize_eq_ok.mp hsized)).2
      simp only [List.length_take, List.length_drop] at hbounds' ⊢
      refine ⟨?_, by omega⟩
      intro hnil
      have hlen := congrArg List.length hnil
      rw [List.length_take, List.length_nil] at hlen
      omega

theorem covers_map {σ : Type} (texts : Psbt.MapTexts) {absorb : σ → Record → Except (Stop PsbtError) σ}
    {enter : σ → Record → Except PsbtError σ} {bad : Set Record} (henters : Enters absorb enter bad) (start : σ) :
    Covers (readMap texts absorb start) (Psbt.readMap texts enter start)
      (alongMap (Psbt.parseRecord texts) enter longField bad start) :=
  GuardedReads.covers_map (covers_record texts) henters (parses_record texts) start

theorem consumes_record (texts : Psbt.MapTexts) : Consumes (Psbt.parseRecord texts) := by
  intro bytes rest found hread
  cases found with
  | some r =>
    have := (parses_record texts hread).2
    omega
  | none =>
    have hne : bytes ≠ [] := by
      rintro rfl
      cases hread
    have hlen := List.length_pos_iff.mpr hne
    rw [parseRecord_eq hne] at hread
    cases hsize : Psbt.readCompactSize bytes with
    | error e =>
      rw [hsize] at hread
      cases hread
    | ok x =>
      rw [hsize] at hread
      have hread : (if x.1 = 0 then _ else _) = _ := hread
      by_cases hn : x.1 = 0
      · rw [if_pos hn] at hread
        cases hread
        rw [List.length_drop]
        omega
      · rw [if_neg hn] at hread
        obtain ⟨key, mid, -, hread⟩ := bind_eq_ok.mp hread
        obtain ⟨value, last, -, hread⟩ := bind_eq_ok.mp hread
        cases hread

theorem consumes_map {σ : Type} (texts : Psbt.MapTexts) (enter : σ → Record → Except PsbtError σ) (start : σ) :
    Consumes (Psbt.readMap texts enter start) := fun _ _ _ hread =>
  readRecords_consumes (consumes_record texts) (Nat.lt_succ_self _) hread

end ReadMaps

section Survival

variable {bytes : List UInt8}

/-- Maps that are read from slices of their own: more of them than there are bytes, or a
hazard in one of them. -/
def mapsHazard {σ : Type} (texts : Psbt.MapTexts) (enter : σ → Record → Except PsbtError σ) (bad : Set Record)
    (start : σ) (n : ℕ) : Hazard :=
  listHazard (Psbt.readMap texts enter start)
    (fun _ => {bytes | bytes ∈ alongMap (Psbt.parseRecord texts) enter longField bad start bytes.length}) n

/-- The hazards of the maps of inputs and outputs behind the global map. -/
def bodyHazard (globals : Psbt.Globals) : Hazard :=
  match globals.unsignedTx with
  | none => fun _ => ∅
  | some tx => fun total =>
      mapsHazard Psbt.inputTexts Psbt.absorbInput badInput .default tx.inputs.length total ∪
        after (readMany (Psbt.readMap Psbt.inputTexts Psbt.absorbInput .default) tx.inputs.length)
          (fun _ => mapsHazard Psbt.outputTexts Psbt.absorbOutput ∅ .default tx.outputs.length) total

/-- The hazards of a PSBT behind its magic bytes. -/
def psbtHazard : Hazard := fun total =>
  alongMap (Psbt.parseRecord Psbt.globalTexts) Psbt.absorbGlobal longField badGlobal ⟨none, 0, ∅, ∅⟩ total ∪
    after (Psbt.readMap Psbt.globalTexts Psbt.absorbGlobal ⟨none, 0, ∅, ∅⟩) bodyHazard total

/-- The byte strings at which `Psbt::deserialize` fails. -/
def badPsbt : Set (List UInt8) := {bytes | bytes.take 5 = Psbt.magic ∧ bytes.drop 5 ∈ psbtHazard bytes.length}

/-- What is read behind the magic bytes. -/
def idealPsbt : Ideal PsbtError Psbt := do
  let globals ← Psbt.readMap Psbt.globalTexts Psbt.absorbGlobal ⟨none, 0, ∅, ∅⟩
  match globals.unsignedTx with
  | none => throw (.missingData "Missing unsigned transaction")
  | some tx => do
      let inputs ← readMany (Psbt.readMap Psbt.inputTexts Psbt.absorbInput .default) tx.inputs.length
      let outputs ← readMany (Psbt.readMap Psbt.outputTexts Psbt.absorbOutput .default) tx.outputs.length
      return ⟨tx, globals.version, inputs, outputs, globals.xpubs, globals.proprietary⟩

theorem covers_maps {σ : Type} (texts : Psbt.MapTexts) {absorb : σ → Record → Except (Stop PsbtError) σ}
    {enter : σ → Record → Except PsbtError σ} {bad : Set Record} (henters : Enters absorb enter bad) (start : σ)
    (n : ℕ) : Covers (fun data => reserve n data >>= fun _ => turns (within (readMap texts absorb start)) n data)
      (readMany (Psbt.readMap texts enter start) n) (mapsHazard texts enter bad start n) :=
  covers_list (covers_map texts henters start).within (consumes_map texts enter start)

theorem covers_psbt : Covers readPsbt idealPsbt psbtHazard := by
  refine (covers_map Psbt.globalTexts enters_global _).bind fun {globals _ _} _ => ?_
  unfold bodyHazard
  cases globals.unsignedTx with
  | none => exact covers_throw _
  | some tx =>
    have houtputs := fun inputs => (covers_maps Psbt.outputTexts enters_output .default tx.outputs.length).map
      fun outputs => (⟨tx, globals.version, inputs, outputs, globals.xpubs, globals.proprietary⟩ : Psbt)
    have h := (covers_maps Psbt.inputTexts enters_input .default tx.inputs.length).bind fun {inputs _ _} _ => houtputs inputs
    simpa only [bind_assoc] using h

theorem header_iff : bytes.take 5 = Psbt.magic ↔
      ¬ bytes.length < 5 ∧ bytes.take 4 = Psbt.magic.take 4 ∧ (bytes.drop 4).headD 0 = 0xff := by
  constructor
  · intro h
    have hlen := congrArg List.length h
    have htake := congrArg (List.take 4) h
    have hdrop := congrArg (fun l => (List.drop 4 l).headD 0) h
    rw [List.length_take, show Psbt.magic.length = 5 from rfl] at hlen
    rw [List.take_take] at htake
    rw [List.drop_take] at hdrop
    refine ⟨by omega, htake, ?_⟩
    cases hrest : bytes.drop 4 with
    | nil =>
      have := congrArg List.length hrest
      rw [List.length_drop, List.length_nil] at this
      omega
    | cons b rest =>
      rw [hrest] at hdrop
      exact hdrop
  · rintro ⟨hlen, htake, hhead⟩
    cases hrest : bytes.drop 4 with
    | nil =>
      have := congrArg List.length hrest
      rw [List.length_drop, List.length_nil] at this
      omega
    | cons b rest =>
      rw [hrest] at hhead
      have hsplit : bytes = bytes.take 4 ++ b :: rest := by rw [← hrest, List.take_append_drop]
      rw [hsplit, htake, show b = 0xff from hhead]
      rfl

theorem deserialize_of_header (h : bytes.take 5 = Psbt.magic) :
    Psbt.deserialize bytes = (idealPsbt (bytes.drop 5)).map Prod.fst := by
  obtain ⟨hlen, htake, hhead⟩ := header_iff.mp h
  rw [Psbt.deserialize, if_neg hlen, if_neg (not_not.mpr htake), if_neg (not_not.mpr hhead)]
  unfold idealPsbt
  show (Psbt.readMap Psbt.globalTexts Psbt.absorbGlobal ⟨none, 0, ∅, ∅⟩ (bytes.drop 5) >>= fun x => _) =
    (Psbt.readMap Psbt.globalTexts Psbt.absorbGlobal ⟨none, 0, ∅, ∅⟩ (bytes.drop 5) >>= fun x => _).map Prod.fst
  cases Psbt.readMap Psbt.globalTexts Psbt.absorbGlobal ⟨none, 0, ∅, ∅⟩ (bytes.drop 5) with
  | error e => rfl
  | ok x =>
    obtain ⟨⟨tx, version, xpubs, proprietary⟩, rest⟩ := x
    cases tx with
    | none => rfl
    | some tx =>
      show (readMany _ tx.inputs.length rest >>= fun x => _) = (readMany _ tx.inputs.length rest >>= fun x => _).map Prod.fst
      cases readMany (Psbt.readMap Psbt.inputTexts Psbt.absorbInput .default) tx.inputs.length rest with
      | error e => rfl
      | ok y =>
        show (readMany _ tx.outputs.length y.2 >>= fun x => _) =
          (readMany _ tx.outputs.length y.2 >>= fun x => _).map Prod.fst
        cases readMany (Psbt.readMap Psbt.outputTexts Psbt.absorbOutput .default) tx.outputs.length y.2 <;> rfl

theorem deserialize_faults (hbytes : bytes.length < 2 ^ 63) (h : bytes ∈ badPsbt) : Faults (deserialize bytes) := by
  obtain ⟨hmagic, hin⟩ := h
  obtain ⟨hlen, htake, hhead⟩ := header_iff.mp hmagic
  obtain ⟨fault, hfault⟩ := covers_psbt.faults hbytes (by omega) hin
  exact ⟨fault, by rw [deserialize, if_neg hlen, if_neg (not_not.mpr htake), if_neg (not_not.mpr hhead), hfault]; rfl⟩

theorem deserialize_eq (hbytes : bytes.length < 2 ^ 63) (h : bytes ∉ badPsbt) :
    deserialize bytes = lift (Psbt.deserialize bytes) := by
  by_cases hmagic : bytes.take 5 = Psbt.magic
  · obtain ⟨hlen, htake, hhead⟩ := header_iff.mp hmagic
    have hagree := covers_psbt.agrees hbytes (by omega) fun hin => h ⟨hmagic, hin⟩
    rw [deserialize_of_header hmagic, deserialize, if_neg hlen, if_neg (not_not.mpr htake), if_neg (not_not.mpr hhead)]
    generalize idealPsbt (bytes.drop 5) = i, readPsbt bytes 5 = r at hagree ⊢
    cases hagree with
    | ok => rfl
    | error => rfl
  · rw [header_iff] at hmagic
    unfold deserialize Psbt.deserialize
    by_cases hlen : bytes.length < 5
    · rw [if_pos hlen, if_pos hlen]
      rfl
    · rw [if_neg hlen, if_neg hlen]
      by_cases htake : bytes.take 4 = Psbt.magic.take 4
      · have hhead : (bytes.drop 4).headD 0 ≠ 0xff := fun hhead => hmagic ⟨hlen, htake, hhead⟩
        rw [if_neg (not_not.mpr htake), if_neg (not_not.mpr htake), if_pos hhead, if_pos hhead]
        rfl
      · rw [if_pos htake, if_pos htake]
        rfl

end Survival

end KuberCoin.PsbtParsers
