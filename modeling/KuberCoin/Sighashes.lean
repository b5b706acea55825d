import KuberCoin.Transactions

/-!
Digests that signatures commit to (crate `tx`): the bincode encoding of a
transaction, the legacy digest over it, the BIP-143 digest of version 0 witness
programs and the BIP-341 digest of taproot outputs.
-/
namespace KuberCoin.Sighashes

open Bytes Transactions

section Bincode

/-- A byte vector behind its length as a 64-bit number. -/
def bincodeBytes (bytes : List UInt8) : List UInt8 := leBytes 8 bytes.length ++ bytes

def bincodeInput (i : TxInput) : List UInt8 :=
  i.prevOutput.txid.bytes ++ leBytes 4 i.prevOutput.vout.toNat ++ bincodeBytes i.scriptSig ++
    leBytes 4 i.sequence.toNat ++ leBytes 8 i.witness.stack.length ++
    i.witness.stack.flatMap bincodeBytes

def bincodeOutput (o : TxOutput) : List UInt8 :=
  leBytes 8 o.value.toNat ++ bincodeBytes o.scriptPubkey

/-- `bincode::serialize` of a transaction, witness data included. -/
def bincodeTransaction (tx : Transaction) : List UInt8 :=
  leBytes 4 tx.version.toNat ++ leBytes 8 tx.inputs.length ++ tx.inputs.flatMap bincodeInput ++
    leBytes 8 tx.outputs.length ++ tx.outputs.flatMap bincodeOutput ++ leBytes 4 tx.lockTime.toNat

end Bincode

section Digests

variable (sha256 : Sha256) (tx : Transaction) (index : ℕ)

def sighashAll : UInt32 := 0x01
def sighashNone : UInt32 := 0x02
def sighashSingle : UInt32 := 0x03
def sighashAnyonecanpay : UInt32 := 0x80

def indexOutOfBounds : String := s!"index out of bounds: input {index} of {tx.inputs.length}"

/-- The transaction the legacy digest is taken of, for the types other than an out-of-range
single output. -/
def signedCopy (sighashType : UInt32) : Transaction :=
  let baseType := sighashType &&& 0x1f
  let anyoneCanPay := sighashType &&& sighashAnyonecanpay ≠ 0
  let cleared := tx.inputs.map fun i => { i with scriptSig := [] }
  let inputs := if anyoneCanPay then (cleared.drop index).take 1 else cleared
  let unsequenced := inputs.zipIdx.map fun i =>
    if i.2 ≠ index ∧ ¬ anyoneCanPay then { i.1 with sequence := 0 } else i.1
  if baseType = sighashNone then { tx with inputs := unsequenced, outputs := [] }
  else if baseType = sighashSingle then
    { tx with
      inputs := unsequenced
      outputs := List.replicate index ⟨0xffffffffffffffff, []⟩ ++ (tx.outputs.drop index).take 1 }
  else { tx with inputs := inputs }

def signatureHashWithType (sighashType : UInt32) : Except String Bytes32 :=
  if tx.inputs.length ≤ index then .error (indexOutOfBounds tx index)
  else if sighashType &&& 0x1f = sighashSingle ∧ tx.outputs.length ≤ index then
    .ok (Bytes32.ofBytes [1])
  else
    .ok (sha256d sha256
      (bincodeTransaction (signedCopy tx index sighashType) ++ leBytes 4 sighashType.toNat))

def signatureHash : Except String Bytes32 := signatureHashWithType sha256 tx index sighashAll

/-- The compact size the digests write: at most four bytes of length. -/
def shortCompactSize (len : ℕ) : List UInt8 :=
  if len < 0xfd then [UInt8.ofNat len]
  else if len ≤ 0xffff then 0xfd :: leBytes 2 len
  else 0xfe :: leBytes 4 len

def digestOutput (o : TxOutput) : List UInt8 :=
  leBytes 8 o.value.toNat ++ shortCompactSize o.scriptPubkey.length ++ o.scriptPubkey

def digestOutpoint (o : OutPoint) : List UInt8 := o.txid.bytes ++ leBytes 4 o.vout.toNat

def segwitV0SignatureHashWithType (scriptCode : List UInt8) (value : UInt64)
    (sighashType : UInt32) : Except String Bytes32 :=
  match tx.inputs[index]? with
  | none => .error (indexOutOfBounds tx index)
  | some input =>
      let baseType := sighashType &&& 0x1f
      let anyoneCanPay := sighashType &&& sighashAnyonecanpay ≠ 0
      let hashPrevouts :=
        if anyoneCanPay then Bytes32.zero
        else sha256d sha256 (tx.inputs.flatMap fun i => digestOutpoint i.prevOutput)
      let hashSequence :=
        if anyoneCanPay ∨ baseType = sighashNone ∨ baseType = sighashSingle then Bytes32.zero
        else sha256d sha256 (tx.inputs.flatMap fun i => leBytes 4 i.sequence.toNat)
      let hashOutputs :=
        if baseType = sighashNone then Bytes32.zero
        else if baseType = sighashSingle then
          match tx.outputs[index]? with
          | some out => sha256d sha256 (digestOutput out)
          | none => Bytes32.zero
        else sha256d sha256 (tx.outputs.flatMap digestOutput)
      .ok (sha256d sha256
        (leBytes 4 tx.version.toNat ++ hashPrevouts.bytes ++ hashSequence.bytes ++
          digestOutpoint input.prevOutput ++ shortCompactSize scriptCode.length ++ scriptCode ++
          leBytes 8 value.toNat ++ leBytes 4 input.sequence.toNat ++ hashOutputs.bytes ++
          leBytes 4 tx.lockTime.toNat ++ leBytes 4 sighashType.toNat))

def segwitV0SignatureHash (scriptCode : List UInt8) (value : UInt64) : Except String Bytes32 :=
  segwitV0SignatureHashWithType sha256 tx index scriptCode value sighashAll

/-- BIP-340: the digest of a message under a tag. -/
def taggedHash (tag message : List UInt8) : Bytes32 :=
  sha256 ((sha256 tag).bytes ++ (sha256 tag).bytes ++ message)

def digestScript (script : List UInt8) : List UInt8 := shortCompactSize script.length ++ script

def taprootSignatureHash (prevoutAmounts : List UInt64) (prevoutScripts : List (List UInt8))
    (hashType : UInt8) : Except String Bytes32 :=
  match tx.inputs[index]? with
  | none => .error (indexOutOfBounds tx index)
  | some input =>
      if prevoutAmounts.length ≠ tx.inputs.length ∨ prevoutScripts.length ≠ tx.inputs.length then
        .error "serialization error: prevout_amounts/prevout_scripts length mismatch"
      else
        let baseType := hashType &&& 0x1f
        let anyoneCanPay := hashType &&& 0x80 ≠ 0
        let common :=
          if anyoneCanPay then []
          else
            (sha256 (tx.inputs.flatMap fun i => digestOutpoint i.prevOutput)).bytes ++
              (sha256 (prevoutAmounts.flatMap fun a => leBytes 8 a.toNat)).bytes ++
              (sha256 (prevoutScripts.flatMap digestScript)).bytes ++
              (sha256 (tx.inputs.flatMap fun i => leBytes 4 i.sequence.toNat)).bytes
        let outputs :=
          if baseType = 0x00 ∨ baseType = 0x01 then
            (sha256 (tx.outputs.flatMap digestOutput)).bytes
          else []
        let own :=
          if anyoneCanPay then
            digestOutpoint input.prevOutput ++ leBytes 8 (prevoutAmounts.getD index 0).toNat ++
              digestScript (prevoutScripts.getD index []) ++ leBytes 4 input.sequence.toNat
          else leBytes 4 index
        let single :=
          if baseType = 0x03 then
            match tx.outputs[index]? with
            | some out => (sha256 (digestOutput out)).bytes
            | none => Bytes32.zero.bytes
          else []
        .ok (taggedHash sha256 "TapSighash".toUTF8.toList
          ([0x00, hashType] ++ leBytes 4 tx.version.toNat ++ leBytes 4 tx.lockTime.toNat ++ common ++
            outputs ++ [0x00] ++ own ++ single))

end Digests

end KuberCoin.Sighashes
