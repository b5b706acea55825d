import KuberCoin.Bytes

/-!
Transactions (crate `tx`): outpoints, inputs with witness stacks, outputs, the
wire serialization without and with witness data, transaction ids and sizes.
SHA-256 is a parameter: everything here is stated for the digest function given.
-/
namespace KuberCoin.Transactions

open Bytes

/-- The digest function of the `sha2` crate. -/
abbrev Sha256 := List UInt8 → Bytes32

/-- Double SHA-256. -/
def sha256d (sha256 : Sha256) (data : List UInt8) : Bytes32 := sha256 (sha256 data).bytes

structure OutPoint where
  txid : Bytes32
  vout : UInt32
deriving DecidableEq

namespace OutPoint

/-- The outpoint of a coinbase input. -/
def null : OutPoint := ⟨Bytes32.zero, 0xffffffff⟩

def isNull (o : OutPoint) : Bool := o.txid == Bytes32.zero && o.vout == 0xffffffff

/-- The position of an outpoint in the order by txid, then by output index. -/
def rank (o : OutPoint) : ℕ := value o.txid.bytes * 2 ^ 32 + o.vout.toNat

theorem rank_injective : Function.Injective rank := by
  intro a b h
  have ha : a.vout.toNat < 2 ^ 32 := a.vout.toNat_lt
  have hb : b.vout.toNat < 2 ^ 32 := b.vout.toNat_lt
  simp only [rank] at h
  have htxid : value a.txid.bytes = value b.txid.bytes := by omega
  have hvout : a.vout.toNat = b.vout.toNat := by omega
  have hlen : a.txid.bytes.length = b.txid.bytes.length := by
    rw [a.txid.length_eq, b.txid.length_eq]
  cases a
  cases b
  simp only [OutPoint.mk.injEq]
  exact ⟨Bytes32.ext_bytes (value_injective hlen htxid), UInt32.toNat_inj.mp hvout⟩

end OutPoint

/-- Witness data of an input (BIP-141); empty for legacy inputs. -/
structure Witness where
  stack : List (List UInt8)
deriving DecidableEq

namespace Witness

def empty : Witness := ⟨[]⟩

def isEmpty (w : Witness) : Bool := w.stack.isEmpty

end Witness

structure TxInput where
  prevOutput : OutPoint
  scriptSig : List UInt8
  sequence : UInt32
  witness : Witness
deriving DecidableEq

namespace TxInput

def isCoinbase (i : TxInput) : Bool := i.prevOutput.isNull

def hasWitness (i : TxInput) : Bool := !i.witness.isEmpty

end TxInput

structure TxOutput where
  value : UInt64
  scriptPubkey : List UInt8
deriving DecidableEq

structure Transaction where
  version : UInt32
  inputs : List TxInput
  outputs : List TxOutput
  lockTime : UInt32
deriving DecidableEq

/-- Compact-size length of a count. -/
def compactSizeLen (n : ℕ) : ℕ :=
  if n < 0xfd then 1 else if n ≤ 0xffff then 3 else if n ≤ 0xffffffff then 5 else 9

def writeCompactSize (n : ℕ) : List UInt8 :=
  if n < 0xfd then [UInt8.ofNat n]
  else if n ≤ 0xffff then 0xfd :: leBytes 2 n
  else if n ≤ 0xffffffff then 0xfe :: leBytes 4 n
  else 0xff :: leBytes 8 n

/-- Serialized size of a witness stack. -/
def Witness.size (w : Witness) : ℕ :=
  compactSizeLen w.stack.length +
    (w.stack.map fun item => compactSizeLen item.length + item.length).sum

namespace Transaction

def serializeInput (i : TxInput) : List UInt8 :=
  i.prevOutput.txid.bytes ++ leBytes 4 i.prevOutput.vout.toNat ++
    writeCompactSize i.scriptSig.length ++ i.scriptSig ++ leBytes 4 i.sequence.toNat

def serializeOutput (o : TxOutput) : List UInt8 :=
  leBytes 8 o.value.toNat ++ writeCompactSize o.scriptPubkey.length ++ o.scriptPubkey

def serializeWitness (w : Witness) : List UInt8 :=
  writeCompactSize w.stack.length ++
    w.stack.flatMap fun item => writeCompactSize item.length ++ item

def hasWitness (tx : Transaction) : Bool := tx.inputs.any TxInput.hasWitness

def serializeNoWitness (tx : Transaction) : List UInt8 :=
  leBytes 4 tx.version.toNat ++ writeCompactSize tx.inputs.length ++
    tx.inputs.flatMap serializeInput ++ writeCompactSize tx.outputs.length ++
    tx.outputs.flatMap serializeOutput ++ leBytes 4 tx.lockTime.toNat

def serializeWithWitness (tx : Transaction) : List UInt8 :=
  if tx.hasWitness then
    leBytes 4 tx.version.toNat ++ [0x00, 0x01] ++ writeCompactSize tx.inputs.length ++
      tx.inputs.flatMap serializeInput ++ writeCompactSize tx.outputs.length ++
      tx.outputs.flatMap serializeOutput ++
      (tx.inputs.flatMap fun i => serializeWitness i.witness) ++ leBytes 4 tx.lockTime.toNat
  else tx.serializeNoWitness

def txid (sha256 : Sha256) (tx : Transaction) : Bytes32 := sha256d sha256 tx.serializeNoWitness

def wtxid (sha256 : Sha256) (tx : Transaction) : Bytes32 :=
  if tx.hasWitness then sha256d sha256 tx.serializeWithWitness else tx.txid sha256

def baseSize (tx : Transaction) : ℕ :=
  8 + compactSizeLen tx.inputs.length +
    (tx.inputs.map fun i => 36 + compactSizeLen i.scriptSig.length + i.scriptSig.length + 4).sum +
    compactSizeLen tx.outputs.length +
    (tx.outputs.map fun o => 8 + compactSizeLen o.scriptPubkey.length + o.scriptPubkey.length).sum

def totalSize (tx : Transaction) : ℕ :=
  if tx.hasWitness then tx.baseSize + 2 + (tx.inputs.map fun i => i.witness.size).sum
  else tx.baseSize

/-- One input, and that input is the null outpoint. -/
def isCoinbase (tx : Transaction) : Bool :=
  match tx.inputs with
  | [i] => i.isCoinbase
  | _ => false

/-- `u64::checked_add`. -/
def checkedAdd (a b : UInt64) : Option UInt64 :=
  if a.toNat + b.toNat < 2 ^ 64 then some (a + b) else none

/-- The sum of the output values, `none` on overflow of `u64`. -/
def totalOutputValue (tx : Transaction) : Option UInt64 :=
  tx.outputs.foldlM (fun acc o => checkedAdd acc o.value) 0

end Transaction

/-- `u64::saturating_add`. -/
def saturatingAdd (a b : UInt64) : UInt64 :=
  if a.toNat + b.toNat < 2 ^ 64 then a + b else 0xffffffffffffffff

theorem saturatingAdd_toNat (a b : UInt64) : (saturatingAdd a b).toNat = min (a.toNat + b.toNat) (2 ^ 64 - 1) := by
  unfold saturatingAdd
  by_cases h : a.toNat + b.toNat < 2 ^ 64
  · rw [if_pos h, UInt64.toNat_add, Nat.mod_eq_of_lt h]
    omega
  · rw [if_neg h]
    have : (0xffffffffffffffff : UInt64).toNat = 2 ^ 64 - 1 := by decide
    omega

/-- `u64::saturating_sub`. -/
def saturatingSub (a b : UInt64) : UInt64 := if b ≤ a then a - b else 0

theorem saturatingSub_toNat (a b : UInt64) : (saturatingSub a b).toNat = a.toNat - b.toNat := by
  unfold saturatingSub
  by_cases h : b ≤ a
  · rw [if_pos h, UInt64.toNat_sub_of_le _ _ h]
  · rw [if_neg h]
    have : ¬ b.toNat ≤ a.toNat := fun hle => h (UInt64.le_iff_toNat_le.mpr hle)
    simp
    omega

end KuberCoin.Transactions
