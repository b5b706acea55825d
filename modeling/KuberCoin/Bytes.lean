import Mathlib.Data.List.Basic
import Mathlib.Tactic.Ring
import Mathlib.Tactic.Linarith

/-!
Fixed-width byte arrays read as big-endian numbers.
The arithmetic works on byte lists from the last byte to the first with a carry,
the way multi-precision loops over arrays do; the value lemmas relate each loop
to the arithmetic of natural numbers.
-/
namespace KuberCoin.Bytes

/-- A 32-byte array. -/
structure Bytes32 where
  bytes : List UInt8
  length_eq : bytes.length = 32
deriving DecidableEq

namespace Bytes32

/-- The all-zero array. -/
def zero : Bytes32 := ⟨List.replicate 32 0, by simp⟩

/-- The array a list of 32 bytes fills; other lists are cut or padded with zeros. -/
def ofBytes (bs : List UInt8) : Bytes32 :=
  ⟨(bs ++ List.replicate 32 0).take 32, by simp⟩

theorem ext_bytes {a b : Bytes32} (h : a.bytes = b.bytes) : a = b := by
  cases a
  cases b
  simpa using h

theorem ofBytes_bytes (a : Bytes32) : ofBytes a.bytes = a :=
  ext_bytes (List.take_left' a.length_eq)

end Bytes32

/-- The number a byte list denotes, most significant byte first. -/
def value : List UInt8 → ℕ
  | [] => 0
  | b :: bs => b.toNat * 256 ^ bs.length + value bs

/-- The `width` low bytes of a number, least significant byte first. -/
def leBytes : ℕ → ℕ → List UInt8
  | 0, _ => []
  | width + 1, n => UInt8.ofNat n :: leBytes width (n / 256)

/-- The number a byte list denotes, least significant byte first. -/
def leValue (bytes : List UInt8) : ℕ := value bytes.reverse

/-- Add two arrays of one length; returns the low bytes and the final carry. -/
def addCarry : List UInt8 → List UInt8 → ℕ → List UInt8 × ℕ
  | a :: as, b :: bs, carry =>
      let low := addCarry as bs carry
      let sum := a.toNat + b.toNat + low.2
      (UInt8.ofNat sum :: low.1, sum / 256)
  | _, _, carry => ([], carry)

/-- Lexicographic comparison of byte lists. -/
def compareBytes : List UInt8 → List UInt8 → Ordering
  | a :: as, b :: bs => if a < b then .lt else if b < a then .gt else compareBytes as bs
  | [], [] => .eq
  | [], _ :: _ => .lt
  | _ :: _, [] => .gt

theorem leBytes_length (width n : ℕ) : (leBytes width n).length = width := by
  induction width generalizing n with
  | zero => rfl
  | succ width ih => simp [leBytes, ih]

theorem value_append (as bs : List UInt8) : value (as ++ bs) = value as * 256 ^ bs.length + value bs := by
  induction as with
  | nil => simp [value]
  | cons a as ih =>
    simp only [List.cons_append, value, ih, List.length_append, pow_add]
    ring

theorem leValue_cons (b : UInt8) (bs : List UInt8) : leValue (b :: bs) = b.toNat + 256 * leValue bs := by
  simp only [leValue, List.reverse_cons, value_append, value, List.length_cons, List.length_nil]
  ring

theorem leValue_leBytes (width n : ℕ) : leValue (leBytes width n) = n % 256 ^ width := by
  induction width generalizing n with
  | zero => simp [leBytes, leValue, value, Nat.mod_one]
  | succ width ih =>
    have hbyte : (UInt8.ofNat n).toNat = n % 256 := by simp
    rw [leBytes, leValue_cons, ih, hbyte, pow_succ, mul_comm (256 ^ width), Nat.mod_mul]

theorem leBytes_injective {width m n : ℕ} (hm : m < 256 ^ width) (hn : n < 256 ^ width)
    (h : leBytes width m = leBytes width n) : m = n := by
  have hvalue := congrArg leValue h
  rwa [leValue_leBytes, leValue_leBytes, Nat.mod_eq_of_lt hm, Nat.mod_eq_of_lt hn] at hvalue

theorem value_lt (bs : List UInt8) : value bs < 256 ^ bs.length := by
  induction bs with
  | nil => simp [value]
  | cons b bs ih =>
    have hb : b.toNat < 256 := b.toNat_lt
    calc
      b.toNat * 256 ^ bs.length + value bs
          < b.toNat * 256 ^ bs.length + 256 ^ bs.length := by omega
      _ = (b.toNat + 1) * 256 ^ bs.length := by ring
      _ ≤ 256 * 256 ^ bs.length := Nat.mul_le_mul_right _ (by omega)
      _ = 256 ^ (b :: bs).length := by rw [List.length_cons, pow_succ]; ring

theorem leValue_lt (bytes : List UInt8) : leValue bytes < 256 ^ bytes.length := by
  have := value_lt bytes.reverse
  rwa [List.length_reverse] at this

theorem value_replicate_zero (n : ℕ) : value (List.replicate n 0) = 0 := by
  induction n with
  | zero => rfl
  | succ n ih => simp [List.replicate_succ, value, ih]

theorem value_injective {as bs : List UInt8} (hlen : as.length = bs.length) (h : value as = value bs) : as = bs := by
  induction as generalizing bs with
  | nil => exact (List.length_eq_zero_iff.mp hlen.symm).symm
  | cons a as ih =>
    cases bs with
    | nil => simp at hlen
    | cons b bs =>
      have hlen' : as.length = bs.length := by simpa using hlen
      have ha := value_lt as
      have hb := value_lt bs
      simp only [value, hlen'] at h ha
      have hdiv : a.toNat = b.toNat := by
        have hcancel : ∀ n v, v < 256 ^ bs.length →
            (n * 256 ^ bs.length + v) / 256 ^ bs.length = n := by
          intro n v hv
          rw [Nat.add_comm, Nat.add_mul_div_right _ _ (Nat.pow_pos (by omega)),
            Nat.div_eq_of_lt hv, Nat.zero_add]
        rw [← hcancel a.toNat _ ha, ← hcancel b.toNat _ hb, h]
      have htail : value as = value bs := by
        rw [hdiv] at h
        omega
      rw [UInt8.toNat_inj.mp hdiv, ih hlen' htail]

theorem addCarry_length (as bs : List UInt8) (carry : ℕ) (hlen : as.length = bs.length) :
    (addCarry as bs carry).1.length = as.length := by
  induction as generalizing bs with
  | nil => simp [addCarry]
  | cons a as ih =>
    cases bs with
    | nil => simp at hlen
    | cons b bs => simpa [addCarry] using ih bs (by simpa using hlen)

theorem addCarry_value (as bs : List UInt8) (carry : ℕ) (hlen : as.length = bs.length) :
    value (addCarry as bs carry).1 + (addCarry as bs carry).2 * 256 ^ as.length =
      value as + value bs + carry := by
  induction as generalizing bs with
  | nil =>
    cases bs with
    | nil => simp [addCarry, value]
    | cons b bs => simp at hlen
  | cons a as ih =>
    cases bs with
    | nil => simp at hlen
    | cons b bs =>
      have hlen' : as.length = bs.length := by simpa using hlen
      have hrec := ih bs hlen'
      have hwidth := addCarry_length as bs carry hlen'
      set low := addCarry as bs carry with hlow
      set sum := a.toNat + b.toNat + low.2 with hsum
      have hbyte : (UInt8.ofNat sum).toNat = sum % 256 := by simp
      have hsplit : sum % 256 + 256 * (sum / 256) = sum := Nat.mod_add_div sum 256
      simp only [addCarry, ← hlow, ← hsum, value, List.length_cons, hbyte, hwidth, ← hlen']
      calc
        sum % 256 * 256 ^ as.length + value low.1 + sum / 256 * 256 ^ (as.length + 1)
            = (sum % 256 + 256 * (sum / 256)) * 256 ^ as.length + value low.1 := by ring
        _ = sum * 256 ^ as.length + value low.1 := by rw [hsplit]
        _ = (a.toNat + b.toNat) * 256 ^ as.length +
              (value low.1 + low.2 * 256 ^ as.length) := by rw [hsum]; ring
        _ = (a.toNat + b.toNat) * 256 ^ as.length + (value as + value bs + carry) := by rw [hrec]
        _ = a.toNat * 256 ^ as.length + value as +
              (b.toNat * 256 ^ as.length + value bs) + carry := by ring

theorem addCarry_value_mod (as bs : List UInt8) (hlen : as.length = bs.length) :
    value (addCarry as bs 0).1 = (value as + value bs) % 256 ^ as.length := by
  have hsum := addCarry_value as bs 0 hlen
  have hlt : value (addCarry as bs 0).1 < 256 ^ as.length := by
    have h := value_lt (addCarry as bs 0).1
    rwa [addCarry_length as bs 0 hlen] at h
  rw [Nat.add_zero] at hsum
  rw [← hsum, Nat.add_mul_mod_self_right, Nat.mod_eq_of_lt hlt]

theorem compareBytes_eq_gt_iff {as bs : List UInt8} (hlen : as.length = bs.length) :
    compareBytes as bs = .gt ↔ value bs < value as := by
  induction as generalizing bs with
  | nil =>
    cases bs with
    | nil => simp [compareBytes, value]
    | cons b bs => simp at hlen
  | cons a as ih =>
    cases bs with
    | nil => simp at hlen
    | cons b bs =>
      have hlen' : as.length = bs.length := by simpa using hlen
      have ha := value_lt as
      have hb := value_lt bs
      rw [hlen'] at ha
      simp only [compareBytes, value, hlen']
      by_cases hab : a < b
      · have hnat : a.toNat + 1 ≤ b.toNat := UInt8.lt_iff_toNat_lt.mp hab
        have hmul := Nat.mul_le_mul_right (256 ^ bs.length) hnat
        have : ¬ b.toNat * 256 ^ bs.length + value bs < a.toNat * 256 ^ bs.length + value as := by
          rw [Nat.add_mul] at hmul
          omega
        simp [hab, this]
      · by_cases hba : b < a
        · have hnat : b.toNat + 1 ≤ a.toNat := UInt8.lt_iff_toNat_lt.mp hba
          have hmul := Nat.mul_le_mul_right (256 ^ bs.length) hnat
          have : b.toNat * 256 ^ bs.length + value bs < a.toNat * 256 ^ bs.length + value as := by
            rw [Nat.add_mul] at hmul
            omega
          simp [hab, hba, this]
        · have heq : a.toNat = b.toNat := by
            have h1 : ¬ a.toNat < b.toNat := fun h => hab (UInt8.lt_iff_toNat_lt.mpr h)
            have h2 : ¬ b.toNat < a.toNat := fun h => hba (UInt8.lt_iff_toNat_lt.mpr h)
            omega
          simp only [hab, hba, if_false, ih hlen', heq]
          omega

end KuberCoin.Bytes
