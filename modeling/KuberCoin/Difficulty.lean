import KuberCoin.Bytes
import Mathlib.Algebra.Order.Ring.Nat

/-!
Compact targets, retargeting and chain work (crate `consensus`, `difficulty`).
Targets and work are big-endian 256-bit numbers in 32-byte arrays, and every
function works on the bytes as the source does.
-/
namespace KuberCoin.Difficulty

open Bytes

/-- Write one byte of an array. -/
def setByte (a : Bytes32) (i : ℕ) (v : UInt8) : Bytes32 :=
  ⟨a.bytes.set i v, by simp [a.length_eq]⟩

def getByte (a : Bytes32) (i : ℕ) : UInt8 := a.bytes.getD i 0

/-- Add two arrays and a carry; the final carry is dropped. -/
def addBytes (a b : Bytes32) (carry : ℕ) : Bytes32 :=
  ⟨(addCarry a.bytes b.bytes carry).1, by
    rw [addCarry_length _ _ _ (by rw [a.length_eq, b.length_eq]), a.length_eq]⟩

def bitsToTarget (bits : UInt32) : Bytes32 :=
  let size := (bits >>> 24).toNat
  let word := bits &&& 0x007fffff
  let b₁ := (word >>> 16).toUInt8
  let b₂ := (word >>> 8).toUInt8
  let b₃ := word.toUInt8
  if bits = 0 then Bytes32.zero
  else if size = 0 then Bytes32.zero
  else if size ≤ 3 then
    let offset := 3 - size
    let t₁ := if 29 + offset < 32 then setByte Bytes32.zero (29 + offset) b₁ else Bytes32.zero
    let t₂ := if size ≥ 2 ∧ 30 + offset < 32 then setByte t₁ (30 + offset) b₂ else t₁
    if size = 3 ∧ 31 + offset < 32 then setByte t₂ (31 + offset) b₃ else t₂
  else if size ≤ 32 then
    let start := 32 - size
    if start + 2 < 32 then
      setByte (setByte (setByte Bytes32.zero start b₁) (start + 1) b₂) (start + 2) b₃
    else Bytes32.zero
  else Bytes32.zero

def targetToBits (target : Bytes32) : UInt32 :=
  match target.bytes.findIdx? (· ≠ 0) with
  | none => 0
  | some i =>
      let size := 32 - i
      let byte := fun j => (getByte target j).toUInt32
      let compact :=
        if size ≤ 3 then
          ((byte 29 <<< 16) ||| (byte 30 <<< 8) ||| byte 31) >>> UInt32.ofNat (8 * (3 - size))
        else (byte i <<< 16) ||| (byte (i + 1) <<< 8) ||| byte (i + 2)
      if compact &&& 0x00800000 ≠ 0 then (compact >>> 8) ||| (UInt32.ofNat (size + 1) <<< 24)
      else compact ||| (UInt32.ofNat size <<< 24)

/-- Multiply a byte list by a factor; returns the low bytes and the final carry. -/
def mulCarry (factor : ℕ) : List UInt8 → List UInt8 × ℕ
  | [] => ([], 0)
  | b :: bs =>
      let low := mulCarry factor bs
      let v := b.toNat * factor + low.2
      (UInt8.ofNat v :: low.1, v / 256)

/-- Long division of a byte list; one quotient for each byte, the remainder in `u64`. -/
def divBytes (divisor : ℕ) : ℕ → List UInt8 → List ℕ
  | _, [] => []
  | remainder, b :: bs =>
      let v := remainder * 256 % 2 ^ 64 + b.toNat
      v / divisor :: divBytes divisor (v % divisor) bs

theorem mulCarry_length (factor : ℕ) (bs : List UInt8) : (mulCarry factor bs).1.length = bs.length := by
  induction bs with
  | nil => rfl
  | cons b bs ih => simp [mulCarry, ih]

theorem divBytes_length (divisor remainder : ℕ) (bs : List UInt8) :
    (divBytes divisor remainder bs).length = bs.length := by
  induction bs generalizing remainder with
  | nil => rfl
  | cons b bs ih => simp [divBytes, ih]

/-- The 40-byte product of a target and a timespan. -/
def product (target : Bytes32) (timespan : UInt64) : List UInt8 :=
  let low := mulCarry timespan.toNat target.bytes
  (leBytes 8 low.2).reverse ++ low.1

theorem product_length (target : Bytes32) (timespan : UInt64) : (product target timespan).length = 40 := by
  simp [product, leBytes_length, mulCarry_length, target.length_eq]

def retargetTarget (oldTarget : Bytes32) (actualTimespan targetTimespan : UInt64)
    (maxTarget : Bytes32) : Bytes32 :=
  let quotients := divBytes targetTimespan.toNat 0 (product oldTarget actualTimespan)
  let overflow := (quotients.take 8).any (· ≠ 0)
  let result : Bytes32 := ⟨(quotients.drop 8).map UInt8.ofNat, by
    simp [quotients, divBytes_length, product_length]⟩
  if targetTimespan = 0 then maxTarget
  else if actualTimespan = 0 then Bytes32.zero
  else if overflow || compareBytes result.bytes maxTarget.bytes == .gt then maxTarget
  else result

/-- Subtract byte lists of one length; returns the difference and the final borrow. -/
def subBorrow : List UInt8 → List UInt8 → List UInt8 × ℕ
  | a :: as, b :: bs =>
      let low := subBorrow as bs
      if a.toNat < b.toNat + low.2 then
        (UInt8.ofNat (a.toNat + 256 - b.toNat - low.2) :: low.1, 1)
      else (UInt8.ofNat (a.toNat - b.toNat - low.2) :: low.1, 0)
  | _, _ => ([], 0)

theorem subBorrow_length (as bs : List UInt8) (hlen : as.length = bs.length) :
    (subBorrow as bs).1.length = as.length := by
  induction as generalizing bs with
  | nil => rfl
  | cons a as ih =>
    cases bs with
    | nil => simp at hlen
    | cons b bs =>
      have hrec := ih bs (by simpa using hlen)
      unfold subBorrow
      simp only
      split <;> simp [hrec]

def subBytes (a b : Bytes32) : Bytes32 :=
  ⟨(subBorrow a.bytes b.bytes).1, by
    rw [subBorrow_length _ _ (by rw [a.length_eq, b.length_eq]), a.length_eq]⟩

/-- One round of the restoring division: quotient and remainder after bit `b`. -/
def div256Round (dividend divisor : Bytes32) (s : Bytes32 × Bytes32) (b : ℕ) : Bytes32 × Bytes32 :=
  let byteIdx := b / 8
  let bitIdx := UInt8.ofNat (7 - b % 8)
  let dividendBit := (getByte dividend byteIdx >>> bitIdx) &&& 1
  let remainder := addBytes s.2 s.2 dividendBit.toNat
  if compareBytes remainder.bytes divisor.bytes ≠ .lt then
    (setByte s.1 byteIdx (getByte s.1 byteIdx ||| (1 <<< bitIdx)), subBytes remainder divisor)
  else (s.1, remainder)

def div256 (dividend divisor : Bytes32) : Bytes32 :=
  if divisor = Bytes32.zero then Bytes32.zero
  else ((List.range 256).foldl (div256Round dividend divisor) (Bytes32.zero, Bytes32.zero)).1

def complement (a : Bytes32) : Bytes32 := ⟨a.bytes.map (~~~ ·), by simp [a.length_eq]⟩

/-- `(~target) / (target + 1) + 1`. -/
def workFromCompact (bits : UInt32) : Bytes32 :=
  let target := bitsToTarget bits
  if target = Bytes32.zero then Bytes32.zero
  else if (addCarry target.bytes Bytes32.zero.bytes 1).2 ≠ 0 then setByte Bytes32.zero 31 1
  else
    let quotient := div256 (complement target) (addBytes target Bytes32.zero 1)
    addBytes quotient Bytes32.zero 1

def addWork (a b : Bytes32) : Bytes32 := addBytes a b 0

def compareWork (a b : Bytes32) : Ordering := compareBytes a.bytes b.bytes

/-- The number of a work array. -/
def workValue (w : Bytes32) : ℕ := value w.bytes

theorem workValue_lt (w : Bytes32) : workValue w < 2 ^ 256 := by
  have h := value_lt w.bytes
  rw [w.length_eq] at h
  calc
    workValue w < 256 ^ 32 := h
    _ = 2 ^ 256 := by norm_num

theorem workValue_zero : workValue Bytes32.zero = 0 := value_replicate_zero 32

theorem workValue_injective {a b : Bytes32} (h : workValue a = workValue b) : a = b :=
  Bytes32.ext_bytes (value_injective (by rw [a.length_eq, b.length_eq]) h)

theorem workValue_addWork (a b : Bytes32) : workValue (addWork a b) = (workValue a + workValue b) % 2 ^ 256 := by
  have h := addCarry_value_mod a.bytes b.bytes (by rw [a.length_eq, b.length_eq])
  rw [a.length_eq] at h
  have hpow : (256 : ℕ) ^ 32 = 2 ^ 256 := by norm_num
  rw [hpow] at h
  exact h

theorem compareWork_eq_gt_iff (a b : Bytes32) : compareWork a b = .gt ↔ workValue b < workValue a :=
  compareBytes_eq_gt_iff (by rw [a.length_eq, b.length_eq])

end KuberCoin.Difficulty
