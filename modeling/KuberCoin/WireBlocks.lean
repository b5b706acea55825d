import KuberCoin.Decoders
import KuberCoin.HeaderCommitments
import KuberCoin.SyncStates

/-!
Blocks on the wire (`network/message.rs`, `network/server.rs`). The payload of a `BlockMsg` is its `bincode`
encoding, in which every length takes eight bytes; a reader refuses a payload above four megabytes. The
consensus limit counts the weight of a block, in which the length of a short witness item takes one unit.
So a valid block with very many short witness items cannot be relayed.
-/
namespace KuberCoin.WireBlocks

open Bytes Transactions Blocks UtxoSets Validator Sighashes HeaderCommitments
  BlockEffects Params Runs SyncStates Decoders

section Wire

def maxMessageSize : ℕ := 4 * 1024 * 1024

/-- `bincode::serialize` of a block. -/
def bincodeBlock (b : Block) : List UInt8 :=
  b.header.serialize ++ (leBytes 8 b.transactions.length ++ b.transactions.flatMap bincodeTransaction)

/-- The position of `BlockMsg` among the messages. -/
def blockMsgTag : ℕ := 12

/-- `bincode::serialize` of `Message::BlockMsg`. -/
def blockPayload (b : Block) : List UInt8 := leBytes 4 blockMsgTag ++ bincodeBlock b

def payloadChecksum (sha256 : Sha256) (payload : List UInt8) : List UInt8 :=
  (sha256d sha256 payload).bytes.take 4

/-- `u32::to_be_bytes` of a length, which is cut to 32 bits. -/
def beLength (n : ℕ) : List UInt8 := (leBytes 4 (n % 2 ^ 32)).reverse

/-- `encode_for_network` of a block message. -/
def encodeForNetwork (sha256 : Sha256) (magic : List.Vector UInt8 4) (b : Block) : List UInt8 :=
  magic.toList ++ (beLength (blockPayload b).length ++
    (payloadChecksum sha256 (blockPayload b) ++ blockPayload b))

inductive ReadError where
  | unexpectedEof
  | badMagic
  | messageTooLarge
  | checksumMismatch
  | decode
deriving DecidableEq

/-- `read_exact` on what is left of the stream. -/
def readExact (n : ℕ) (stream : List UInt8) : Except ReadError (List UInt8 × List UInt8) :=
  if n ≤ stream.length then .ok (stream.take n, stream.drop n) else .error .unexpectedEof

def decodeHeader : Decoder BlockHeader := do
  let version ← uint 4
  let prevHash ← exactly 32
  let merkleRoot ← exactly 32
  let timestamp ← uint 8
  let bits ← uint 4
  let nonce ← uint 8
  let height ← uint 8
  pure
    { version := (UInt32.ofNat version).toInt32
      prevHash := Bytes32.ofBytes prevHash
      merkleRoot := Bytes32.ofBytes merkleRoot
      timestamp := UInt64.ofNat timestamp
      bits := UInt32.ofNat bits
      nonce := UInt64.ofNat nonce
      height := height }

def decodeInput : Decoder TxInput := do
  let txid ← exactly 32
  let vout ← uint 4
  let scriptSig ← bytesVec
  let sequence ← uint 4
  let stack ← vec bytesVec
  pure ⟨⟨Bytes32.ofBytes txid, UInt32.ofNat vout⟩, scriptSig, UInt32.ofNat sequence, ⟨stack⟩⟩

def decodeOutput : Decoder TxOutput := do
  let value ← uint 8
  let scriptPubkey ← bytesVec
  pure ⟨UInt64.ofNat value, scriptPubkey⟩

def decodeTransaction : Decoder Transaction := do
  let version ← uint 4
  let inputs ← vec decodeInput
  let outputs ← vec decodeOutput
  let lockTime ← uint 4
  pure ⟨UInt32.ofNat version, inputs, outputs, UInt32.ofNat lockTime⟩

def decodeBlock : Decoder Block := do
  let header ← decodeHeader
  let transactions ← vec decodeTransaction
  pure ⟨header, transactions⟩

/-- `decode` of a payload that holds a `BlockMsg`; bytes behind it are ignored, and of the other messages
nothing is said. -/
def decodeBlockMsg (payload : List UInt8) : Option Block :=
  (uint 4 payload).bind fun r => if r.1 = blockMsgTag then (decodeBlock r.2).map Prod.fst else none

/-- `read_message` of a block message; what is left of the stream comes with it. -/
def readMessage (sha256 : Sha256) (expectedMagic : List.Vector UInt8 4) (stream : List UInt8) :
    Except ReadError (Block × List UInt8) := do
  let (magic, stream) ← readExact 4 stream
  if magic ≠ expectedMagic.toList then .error .badMagic else do
    let (lenBuf, stream) ← readExact 4 stream
    let len := leValue lenBuf.reverse
    if maxMessageSize < len then .error .messageTooLarge else do
      let (checksum, stream) ← readExact 4 stream
      let (payload, stream) ← readExact len stream
      if checksum ≠ payloadChecksum sha256 payload then .error .checksumMismatch else
        match decodeBlockMsg payload with
        | none => .error .decode
        | some b => .ok (b, stream)

/-- The payload is within the limit, and the frame is read back as the block, whatever follows it. -/
def Relayed (sha256 : Sha256) (magic : List.Vector UInt8 4) (b : Block) : Prop :=
  (blockPayload b).length ≤ maxMessageSize ∧
    ∀ rest, readMessage sha256 magic (encodeForNetwork sha256 magic b ++ rest) = .ok (b, rest)

end Wire

section Sizes

/-- The bytes of an input: 56, the script, and eight more than its length for each witness item. -/
def inputBytes (i : TxInput) : ℕ :=
  56 + i.scriptSig.length + (i.witness.stack.map fun item => 8 + item.length).sum

def outputBytes (o : TxOutput) : ℕ := 16 + o.scriptPubkey.length

def transactionBytes (tx : Transaction) : ℕ :=
  24 + (tx.inputs.map inputBytes).sum + (tx.outputs.map outputBytes).sum

/-- The bytes of a block message: 108 and those of the transactions. -/
def blockBytes (b : Block) : ℕ := 108 + (b.transactions.map transactionBytes).sum

theorem length_flatMap_eq {α : Type} (encode : α → List UInt8) (bytes : α → ℕ) (values : List α)
    (h : ∀ a, (encode a).length = bytes a) : (values.flatMap encode).length = (values.map bytes).sum := by
  rw [List.length_flatMap]
  exact congrArg List.sum (List.map_congr_left fun a _ => h a)

theorem bytes32_length (h : Bytes32) : h.bytes.length = 32 := h.2

theorem bincodeInput_length (i : TxInput) : (bincodeInput i).length = inputBytes i := by
  have hitems : (i.witness.stack.flatMap bincodeBytes).length =
      (i.witness.stack.map fun item => 8 + item.length).sum :=
    length_flatMap_eq _ _ _ fun item => by rw [bincodeBytes, List.length_append, leBytes_length]
  unfold bincodeInput inputBytes
  simp only [bincodeBytes, List.length_append, leBytes_length, bytes32_length]
  have hitems' : (i.witness.stack.flatMap fun bytes => leBytes 8 bytes.length ++ bytes).length = _ := hitems
  omega

theorem bincodeOutput_length (o : TxOutput) : (bincodeOutput o).length = outputBytes o := by
  unfold bincodeOutput outputBytes
  simp only [bincodeBytes, List.length_append, leBytes_length]
  omega

theorem bincodeTransaction_length (tx : Transaction) : (bincodeTransaction tx).length = transactionBytes tx := by
  have hinputs := length_flatMap_eq bincodeInput inputBytes tx.inputs bincodeInput_length
  have houtputs := length_flatMap_eq bincodeOutput outputBytes tx.outputs bincodeOutput_length
  unfold bincodeTransaction transactionBytes
  simp only [List.length_append, leBytes_length, hinputs, houtputs]
  omega

theorem blockPayload_length (b : Block) : (blockPayload b).length = blockBytes b := by
  have htxs := length_flatMap_eq bincodeTransaction transactionBytes b.transactions bincodeTransaction_length
  unfold blockPayload bincodeBlock BlockHeader.serialize blockBytes
  simp only [List.length_append, leBytes_length, bytes32_length, htxs]
  omega

end Sizes

section RoundTrip

theorem reads_uint32 (v : UInt32) : Reads (uint 4) (leBytes 4 v.toNat) v.toNat :=
  reads_uint (by have := v.toNat_lt; omega)

theorem reads_uint64 (v : UInt64) : Reads (uint 8) (leBytes 8 v.toNat) v.toNat :=
  reads_uint (by have := v.toNat_lt; omega)

theorem reads_bytes32 (h : Bytes32) : Reads (exactly 32) h.bytes h.bytes := by
  have hread := reads_exactly h.bytes
  rwa [bytes32_length] at hread

theorem reads_header {h : BlockHeader} (hheight : h.height < 2 ^ 64) : Reads decodeHeader h.serialize h := by
  have hread : Reads decodeHeader h.serialize
      { version := (UInt32.ofNat h.version.toUInt32.toNat).toInt32
        prevHash := Bytes32.ofBytes h.prevHash.bytes
        merkleRoot := Bytes32.ofBytes h.merkleRoot.bytes
        timestamp := UInt64.ofNat h.timestamp.toNat
        bits := UInt32.ofNat h.bits.toNat
        nonce := UInt64.ofNat h.nonce.toNat
        height := h.height } := by
    unfold decodeHeader BlockHeader.serialize
    simp only [List.append_assoc]
    exact (reads_uint32 _).bind <| (reads_bytes32 _).bind <| (reads_bytes32 _).bind <|
      (reads_uint64 _).bind <| (reads_uint32 _).bind <| (reads_uint64 _).bind (reads_uint (by omega)).last
  simpa only [Bytes32.ofBytes_bytes, UInt32.ofNat_toNat, UInt64.ofNat_toNat, Int32.toInt32_toUInt32] using hread

theorem reads_witness {w : Witness} (h : (w.stack.map fun item => 8 + item.length).sum < 2 ^ 64) :
    Reads (vec bytesVec) (leBytes 8 w.stack.length ++ w.stack.flatMap bincodeBytes) w.stack := by
  have hcount : w.stack.length ≤ (w.stack.map fun item => 8 + item.length).sum :=
    length_le_sum fun item _ => by omega
  refine reads_vec (by omega) fun item hitem => reads_bytesVec ?_
  have hle := List.le_sum_of_mem (List.mem_map_of_mem (f := fun item : List UInt8 => 8 + item.length) hitem)
  omega

theorem reads_input {i : TxInput} (h : inputBytes i < 2 ^ 64) : Reads decodeInput (bincodeInput i) i := by
  unfold inputBytes at h
  have hread : Reads decodeInput (bincodeInput i)
      ⟨⟨Bytes32.ofBytes i.prevOutput.txid.bytes, UInt32.ofNat i.prevOutput.vout.toNat⟩, i.scriptSig,
        UInt32.ofNat i.sequence.toNat, ⟨i.witness.stack⟩⟩ := by
    unfold decodeInput bincodeInput
    simp only [List.append_assoc]
    exact (reads_bytes32 _).bind <| (reads_uint32 _).bind <| (reads_bytesVec (by omega)).bind <|
      (reads_uint32 _).bind (reads_witness (by omega)).last
  simpa only [Bytes32.ofBytes_bytes, UInt32.ofNat_toNat] using hread

theorem reads_output {o : TxOutput} (h : outputBytes o < 2 ^ 64) : Reads decodeOutput (bincodeOutput o) o := by
  unfold outputBytes at h
  have hread : Reads decodeOutput (bincodeOutput o) ⟨UInt64.ofNat o.value.toNat, o.scriptPubkey⟩ :=
    (reads_uint64 _).bind (reads_bytesVec (by omega)).last
  simpa only [UInt64.ofNat_toNat] using hread

theorem reads_transaction {tx : Transaction} (h : transactionBytes tx < 2 ^ 64) :
    Reads decodeTransaction (bincodeTransaction tx) tx := by
  unfold transactionBytes at h
  have hins : tx.inputs.length ≤ (tx.inputs.map inputBytes).sum :=
    length_le_sum fun i _ => by unfold inputBytes; omega
  have houts : tx.outputs.length ≤ (tx.outputs.map outputBytes).sum :=
    length_le_sum fun o _ => by unfold outputBytes; omega
  have hinputs : Reads (vec decodeInput) (leBytes 8 tx.inputs.length ++ tx.inputs.flatMap bincodeInput) tx.inputs :=
    reads_vec (by omega) fun i hi => reads_input (by
      have hle := List.le_sum_of_mem (List.mem_map_of_mem (f := inputBytes) hi)
      omega)
  have houtputs : Reads (vec decodeOutput) (leBytes 8 tx.outputs.length ++ tx.outputs.flatMap bincodeOutput)
      tx.outputs :=
    reads_vec (by omega) fun o ho => reads_output (by
      have hle := List.le_sum_of_mem (List.mem_map_of_mem (f := outputBytes) ho)
      omega)
  have hread : Reads decodeTransaction (bincodeTransaction tx)
      ⟨UInt32.ofNat tx.version.toNat, tx.inputs, tx.outputs, UInt32.ofNat tx.lockTime.toNat⟩ := by
    have hbytes : bincodeTransaction tx = leBytes 4 tx.version.toNat ++
        ((leBytes 8 tx.inputs.length ++ tx.inputs.flatMap bincodeInput) ++
          ((leBytes 8 tx.outputs.length ++ tx.outputs.flatMap bincodeOutput) ++ leBytes 4 tx.lockTime.toNat)) := by
      unfold bincodeTransaction
      simp only [List.append_assoc]
    rw [hbytes]
    exact (reads_uint32 _).bind <| hinputs.bind <| houtputs.bind (reads_uint32 _).last
  simpa only [UInt32.ofNat_toNat] using hread

theorem reads_block {b : Block} (hheight : b.header.height < 2 ^ 64) (h : blockBytes b < 2 ^ 64) :
    Reads decodeBlock (bincodeBlock b) b := by
  unfold blockBytes at h
  have htxs : b.transactions.length ≤ (b.transactions.map transactionBytes).sum :=
    length_le_sum fun tx _ => by unfold transactionBytes; omega
  have htransactions : Reads (vec decodeTransaction)
      (leBytes 8 b.transactions.length ++ b.transactions.flatMap bincodeTransaction) b.transactions :=
    reads_vec (by omega) fun tx htx => reads_transaction (by
      have hle := List.le_sum_of_mem (List.mem_map_of_mem (f := transactionBytes) htx)
      omega)
  exact (reads_header hheight).bind htransactions.last

end RoundTrip

section Frames

variable {n : ℕ} {b : Block}

theorem readExact_append {bytes : List UInt8} (h : bytes.length = n) (rest : List UInt8) :
    readExact n (bytes ++ rest) = .ok (bytes, rest) := by
  unfold readExact
  rw [if_pos (by rw [List.length_append]; omega), ← h, List.take_left, List.drop_left]

theorem payloadChecksum_length (sha256 : Sha256) (payload : List UInt8) :
    (payloadChecksum sha256 payload).length = 4 := by
  unfold payloadChecksum
  rw [List.length_take, bytes32_length]
  rfl

theorem leValue_beLength (h : n < 2 ^ 32) : leValue (beLength n).reverse = n := by
  unfold beLength
  rw [List.reverse_reverse, leValue_leBytes]
  omega

theorem decodeBlockMsg_payload (hheight : b.header.height < 2 ^ 64) (h : blockBytes b < 2 ^ 64) :
    decodeBlockMsg (blockPayload b) = some b := by
  have htag : Reads (uint 4) (leBytes 4 blockMsgTag) blockMsgTag := reads_uint (by decide)
  have hblock := reads_block hheight h []
  rw [List.append_nil] at hblock
  unfold decodeBlockMsg blockPayload
  rw [htag, Option.bind_some, if_pos rfl, hblock]
  rfl

theorem readMessage_frame (sha256 : Sha256) (magic : List.Vector UInt8 4) {lenBuf checksum payload : List UInt8}
    (hbuf : lenBuf.length = 4) (hlen : leValue lenBuf.reverse = payload.length) (hsum : checksum.length = 4)
    (hcheck : checksum = payloadChecksum sha256 payload) (rest : List UInt8) :
    readMessage sha256 magic (magic.toList ++ (lenBuf ++ (checksum ++ payload)) ++ rest) =
      if maxMessageSize < payload.length then .error .messageTooLarge
      else match decodeBlockMsg payload with
        | none => .error .decode
        | some b => .ok (b, rest) := by
  have hmagic : magic.toList.length = 4 := magic.toList_length
  unfold readMessage
  simp only [List.append_assoc]
  rw [readExact_append hmagic]
  show (if magic.toList ≠ magic.toList then _ else _) = _
  rw [if_neg (by simp), readExact_append hbuf]
  show (if maxMessageSize < leValue lenBuf.reverse then _ else _) = _
  rw [hlen]
  by_cases hlarge : maxMessageSize < payload.length
  · rw [if_pos hlarge, if_pos hlarge]
  · rw [if_neg hlarge, if_neg hlarge, readExact_append hsum]
    show Except.bind (readExact payload.length _) _ = _
    rw [readExact_append rfl]
    show (if checksum ≠ payloadChecksum sha256 payload then _ else _) = _
    rw [if_neg (fun hne => hne hcheck)]

theorem readMessage_encoded (sha256 : Sha256) (magic : List.Vector UInt8 4) (hlen : blockBytes b < 2 ^ 32)
    (rest : List UInt8) : readMessage sha256 magic (encodeForNetwork sha256 magic b ++ rest) =
      if maxMessageSize < blockBytes b then .error .messageTooLarge
      else match decodeBlockMsg (blockPayload b) with
        | none => .error .decode
        | some b => .ok (b, rest) := by
  have hpayload := blockPayload_length b
  have hbuf : (beLength (blockPayload b).length).length = 4 := by
    unfold beLength
    rw [List.length_reverse, leBytes_length]
  have hvalue := leValue_beLength (n := (blockPayload b).length) (by omega)
  have hread := readMessage_frame sha256 magic hbuf hvalue (payloadChecksum_length sha256 _) rfl rest
  unfold encodeForNetwork
  rw [hread, hpayload]

theorem relayed_iff_blockBytes (sha256 : Sha256) (magic : List.Vector UInt8 4) (hheight : b.header.height < 2 ^ 64) :
    Relayed sha256 magic b ↔ blockBytes b ≤ maxMessageSize := by
  unfold Relayed
  rw [blockPayload_length]
  constructor
  · intro h
    exact h.1
  · intro h
    have hlen : blockBytes b < 2 ^ 32 := Nat.lt_of_le_of_lt h (by decide)
    refine ⟨h, fun rest => ?_⟩
    rw [readMessage_encoded sha256 magic hlen, if_neg (by omega),
      decodeBlockMsg_payload hheight (by omega)]

end Frames

section Weights

def witnessItems (tx : Transaction) : ℕ := (tx.inputs.map fun i => i.witness.stack.length).sum

/-- The witness items of a block, of whatever length. -/
def blockWitnessItems (b : Block) : ℕ := (b.transactions.map witnessItems).sum

theorem compactSizeLen_pos (n : ℕ) : 1 ≤ compactSizeLen n := by
  unfold compactSizeLen
  split_ifs <;> omega

theorem items_le_size (w : Witness) : (w.stack.map fun item => 8 + item.length).sum ≤ w.size + 7 * w.stack.length := by
  have hitems : (w.stack.map fun item => 8 + item.length).sum ≤
      (w.stack.map fun item => compactSizeLen item.length + item.length + 7).sum := by
    refine List.sum_le_sum fun item _ => ?_
    have hpos := compactSizeLen_pos item.length
    omega
  have hsplit : (w.stack.map fun item => compactSizeLen item.length + item.length + 7).sum =
      (w.stack.map fun item => compactSizeLen item.length + item.length).sum + 7 * w.stack.length := by
    rw [List.sum_map_add, List.map_const', List.sum_replicate, smul_eq_mul, Nat.mul_comm]
  unfold Witness.size
  omega

/-- The bytes of an input outside its witness. -/
def inputBase (i : TxInput) : ℕ := 36 + compactSizeLen i.scriptSig.length + i.scriptSig.length + 4

theorem inputBytes_le_of_witness (i : TxInput) :
    inputBytes i ≤ 4 * inputBase i + (i.witness.size + 7 * i.witness.stack.length) := by
  have hitems := items_le_size i.witness
  have hpos := compactSizeLen_pos i.scriptSig.length
  unfold inputBytes inputBase
  omega

theorem inputBytes_le_of_empty {i : TxInput} (h : i.hasWitness = false) : inputBytes i ≤ 4 * inputBase i := by
  have hpos := compactSizeLen_pos i.scriptSig.length
  have hempty : i.witness.stack = [] := by simpa [TxInput.hasWitness, Witness.isEmpty] using h
  unfold inputBytes inputBase
  rw [hempty, List.map_nil, List.sum_nil]
  omega

theorem outputBytes_le (o : TxOutput) :
    outputBytes o ≤ 4 * (8 + compactSizeLen o.scriptPubkey.length + o.scriptPubkey.length) := by
  have hpos := compactSizeLen_pos o.scriptPubkey.length
  unfold outputBytes
  omega

theorem inputsBytes_le (tx : Transaction) : (tx.inputs.map inputBytes).sum + tx.baseSize ≤
      4 * (tx.inputs.map inputBase).sum + (tx.totalSize + 7 * witnessItems tx) := by
  unfold Transaction.totalSize witnessItems
  split
  · have hsum : (tx.inputs.map inputBytes).sum ≤ (tx.inputs.map fun i =>
        4 * inputBase i + (i.witness.size + 7 * i.witness.stack.length)).sum :=
      List.sum_le_sum fun i _ => inputBytes_le_of_witness i
    simp only [List.sum_map_add, List.sum_map_mul_left] at hsum
    omega
  · next hwitness =>
    have hnone : ∀ i ∈ tx.inputs, i.hasWitness = false := by
      simpa [Transaction.hasWitness] using hwitness
    have hsum : (tx.inputs.map inputBytes).sum ≤ (tx.inputs.map fun i => 4 * inputBase i).sum :=
      List.sum_le_sum fun i hi => inputBytes_le_of_empty (hnone i hi)
    rw [List.sum_map_mul_left] at hsum
    omega

theorem transactionBytes_le (tx : Transaction) :
    transactionBytes tx ≤ tx.baseSize * 3 + tx.totalSize + 7 * witnessItems tx := by
  have hins := inputsBytes_le tx
  have houts : (tx.outputs.map outputBytes).sum ≤ (tx.outputs.map fun o =>
      4 * (8 + compactSizeLen o.scriptPubkey.length + o.scriptPubkey.length)).sum :=
    List.sum_le_sum fun o _ => outputBytes_le o
  rw [List.sum_map_mul_left] at houts
  have hbase : tx.baseSize = 8 + compactSizeLen tx.inputs.length + (tx.inputs.map inputBase).sum +
      compactSizeLen tx.outputs.length +
      (tx.outputs.map fun o => 8 + compactSizeLen o.scriptPubkey.length + o.scriptPubkey.length).sum := rfl
  unfold transactionBytes
  omega

theorem blockBytes_le_weight (b : Block) : blockBytes b ≤ b.weight + 7 * blockWitnessItems b := by
  have htxs : (b.transactions.map transactionBytes).sum ≤ (b.transactions.map fun tx =>
      tx.baseSize * 3 + tx.totalSize + 7 * witnessItems tx).sum :=
    List.sum_le_sum fun tx _ => transactionBytes_le tx
  simp only [List.sum_map_add, List.sum_map_mul_left, List.sum_map_mul_right] at htxs
  unfold blockBytes blockWitnessItems Block.weight Block.baseSize Block.totalSize
  omega

theorem witnessItems_le (tx : Transaction) : witnessItems tx ≤ tx.totalSize := by
  unfold witnessItems Transaction.totalSize
  split
  · have hsizes : (tx.inputs.map fun i => i.witness.stack.length).sum ≤
        (tx.inputs.map fun i => i.witness.size).sum := by
      refine List.sum_le_sum fun i _ => ?_
      have hitems : i.witness.stack.length ≤
          (i.witness.stack.map fun item => compactSizeLen item.length + item.length).sum := by
        refine length_le_sum fun item _ => ?_
        have hpos := compactSizeLen_pos item.length
        omega
      unfold Witness.size
      omega
    omega
  · next hwitness =>
    have hnone : ∀ i ∈ tx.inputs, i.witness.stack = [] := by
      simpa [Transaction.hasWitness, TxInput.hasWitness, Witness.isEmpty] using hwitness
    have hzero : (tx.inputs.map fun i => i.witness.stack.length).sum = 0 := by
      refine List.sum_eq_zero fun n hn => ?_
      obtain ⟨i, hi, rfl⟩ := List.mem_map.mp hn
      rw [hnone i hi, List.length_nil]
    omega

theorem blockWitnessItems_le (b : Block) : blockWitnessItems b ≤ b.weight := by
  have hsum : (b.transactions.map witnessItems).sum ≤ (b.transactions.map Transaction.totalSize).sum :=
    List.sum_le_sum fun tx _ => witnessItems_le tx
  unfold blockWitnessItems Block.weight Block.totalSize
  omega

end Weights

section Relay

variable {sha256 : Sha256} {checks : ScriptChecks} {clock : UInt64} {b : Block} {u : UtxoSet}
  {mtp : Option (ℕ → UInt64)}

/-- The length of a valid block's message fits the four bytes of the frame. -/
theorem blockBytes_lt_of_valid (h : validateBlockCached sha256 checks clock b u mtp = .ok ()) :
    blockBytes b < 2 ^ 32 := by
  have hweight := (validateBlockCached_root h).1
  have hbytes := blockBytes_le_weight b
  have hitems := blockWitnessItems_le b
  unfold maxBlockWeight at hweight
  omega

/-- A valid block is relayed exactly when 108 bytes, 24 for each transaction, 56 for each input, 16 for each
output, 8 for each witness item and all scripts and items together are within four megabytes; so it is with
at most 27757 witness items. A longer message is refused by its reader. -/
theorem valid_block_relayed_iff (magic : List.Vector UInt8 4)
    (h : validateBlockCached sha256 checks clock b u mtp = .ok ()) (hheight : b.header.height < 2 ^ 64) :
    (Relayed sha256 magic b ↔ blockBytes b ≤ maxMessageSize) ∧
      (blockWitnessItems b ≤ 27757 → Relayed sha256 magic b) ∧
      (maxMessageSize < blockBytes b → ∀ rest,
        readMessage sha256 magic (encodeForNetwork sha256 magic b ++ rest) = .error .messageTooLarge) := by
  have hiff := relayed_iff_blockBytes sha256 magic hheight
  refine ⟨hiff, fun hitems => hiff.mpr ?_, fun hlarge rest => ?_⟩
  · have hweight := (validateBlockCached_root h).1
    have hbytes := blockBytes_le_weight b
    unfold maxBlockWeight at hweight
    unfold maxMessageSize
    omega
  · rw [readMessage_encoded sha256 magic (blockBytes_lt_of_valid h), if_pos hlarge]

end Relay

section Stuffed

/-- The empty coinbase with so many empty witness items. -/
def stuffedCoinbase (n : ℕ) : Transaction :=
  { emptyCoinbase with inputs := [⟨OutPoint.null, [], 0xffffffff, ⟨List.replicate n []⟩⟩] }

/-- The mined block with the witness items in its coinbase; the header does not commit to them. -/
def stuffedBlock (n : ℕ) : Block := ⟨minedBlock.header, [stuffedCoinbase n]⟩

theorem stuffedBlock_bytes (n : ℕ) : blockBytes (stuffedBlock n) = 188 + 8 * n := by
  have hitems : ((List.replicate n ([] : List UInt8)).map fun item => 8 + item.length).sum = 8 * n := by
    rw [List.map_replicate, List.sum_replicate, smul_eq_mul, Nat.mul_comm]
    rfl
  show 108 + (24 + (56 + 0 + ((List.replicate n ([] : List UInt8)).map fun item => 8 + item.length).sum + 0) +
    0 + 0) = _
  omega

theorem compactSizeLen_le (n : ℕ) : compactSizeLen n ≤ 9 := by
  unfold compactSizeLen
  split_ifs <;> omega

theorem stuffedBlock_weight_le (n : ℕ) : (stuffedBlock n).weight ≤ 603 + n := by
  have hitems : ((List.replicate n ([] : List UInt8)).map fun item =>
      compactSizeLen item.length + item.length).sum = n := by
    rw [List.map_replicate, List.sum_replicate, smul_eq_mul]
    exact Nat.mul_one n
  have hsize : (⟨List.replicate n []⟩ : Witness).size ≤ 9 + n := by
    have hlen := compactSizeLen_le (List.replicate n ([] : List UInt8)).length
    show compactSizeLen (List.replicate n ([] : List UInt8)).length +
      ((List.replicate n ([] : List UInt8)).map fun item => compactSizeLen item.length + item.length).sum ≤ 9 + n
    omega
  have hbase : (stuffedCoinbase n).baseSize = 51 := rfl
  have htotal : (stuffedCoinbase n).totalSize ≤ 62 + n := by
    unfold Transaction.totalSize
    rw [hbase]
    split
    · show 51 + 2 + ((⟨List.replicate n []⟩ : Witness).size + 0) ≤ _
      omega
    · omega
  show (96 + 1 + ((stuffedCoinbase n).baseSize + 0)) * 3 + (96 + 1 + ((stuffedCoinbase n).totalSize + 0)) ≤ _
  omega

/-- The witness of the coinbase counts for nothing but the weight of the block. -/
theorem stuffedBlock_valid {n : ℕ} (hn : n ≤ 3999397) :
    validateBlockCached Sha256.sha256 noSignatures 0 (stuffedBlock n) ∅ none = .ok () := by
  have hweight : (stuffedBlock n).weight ≤ maxBlockWeight := by
    have hle := stuffedBlock_weight_le n
    unfold maxBlockWeight
    omega
  have hversion : ¬ (headerVersion < 0 ∨ headerVersion &&& versionBitsTopMask = 0) := by decide
  have hroot : (stuffedBlock n).verifyMerkleRoot Sha256.sha256 = true := by
    show (minedBlock.header.merkleRoot == minedBlock.header.merkleRoot) = true
    exact beq_self_eq_true _
  have htxs : (stuffedBlock n).transactions = [stuffedCoinbase n] := rfl
  unfold validateBlockCached validateBlockFull
  simp only [htxs, bind_eq_ok_iff, require_eq_ok_iff]
  refine ⟨(), hweight, (), rfl, (), hversion, (), rfl, (), rfl, (), rfl, (), Nat.zero_le _, ?_⟩
  rw [if_neg (by simp)]
  simp only [bind_eq_ok_iff, require_eq_ok_iff, forEach_eq_ok_iff]
  exact ⟨(), by simp, (), rfl, (), List.nodup_nil, (), UInt64.zero_le, (), hroot, rfl⟩

theorem stuffedBlock_height (n : ℕ) : (stuffedBlock n).header.height < 2 ^ 64 := by
  show Runs.regtest.genesis.header.height + 1 < 2 ^ 64
  decide

/-- The magic bytes of regtest. -/
def regtestMagic : List.Vector UInt8 4 := ⟨[0x4b, 0x43, 0x52, 0x01], rfl⟩

/-- With a hundred empty items the block is relayed. -/
theorem hundredItems_relayed : validateBlockCached Sha256.sha256 noSignatures 0 (stuffedBlock 100) ∅ none = .ok () ∧
      Relayed Sha256.sha256 regtestMagic (stuffedBlock 100) := by
  have hvalid := stuffedBlock_valid (n := 100) (by decide)
  refine ⟨hvalid, (valid_block_relayed_iff regtestMagic hvalid (stuffedBlock_height 100)).1.mpr ?_⟩
  rw [stuffedBlock_bytes]
  decide

/-- With six hundred thousand empty items it is as valid, and no peer reads it. -/
theorem stuffedBlock_not_relayed :
    validateBlockCached Sha256.sha256 noSignatures 0 (stuffedBlock 600000) ∅ none = .ok () ∧
      ¬ Relayed Sha256.sha256 regtestMagic (stuffedBlock 600000) ∧
      readMessage Sha256.sha256 regtestMagic (encodeForNetwork Sha256.sha256 regtestMagic (stuffedBlock 600000)) =
        .error .messageTooLarge := by
  have hbytes := stuffedBlock_bytes 600000
  have hlarge : maxMessageSize < blockBytes (stuffedBlock 600000) := by
    rw [hbytes]
    decide
  have hread := readMessage_encoded Sha256.sha256 regtestMagic (b := stuffedBlock 600000) (by omega) []
  rw [List.append_nil, if_pos hlarge] at hread
  refine ⟨stuffedBlock_valid (by decide), fun hrelayed => ?_, hread⟩
  have hle := (relayed_iff_blockBytes Sha256.sha256 regtestMagic (stuffedBlock_height 600000)).mp hrelayed
  omega

end Stuffed

end KuberCoin.WireBlocks
