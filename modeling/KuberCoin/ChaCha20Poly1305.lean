import KuberCoin.Sha256
import Mathlib.Algebra.BigOperators.Group.List.Basic
import Mathlib.Algebra.Group.Action.Defs

/-!
ChaCha20-Poly1305 without associated data, as the crate of that name computes it: the cipher is
a stream of 64-byte blocks, and the tag a polynomial in the 16-byte chunks of the ciphertext and its
length, with a one-time key from the block 0. What was encrypted is decrypted again; a ciphertext is
16 bytes longer than its plaintext.
-/
namespace KuberCoin.ChaCha20Poly1305

open Bytes Sha256

section Stream

-- words are numbers below 2 ^ 32

/-- The sum of two words. -/
def addWords (x y : ℕ) : ℕ := Nat.mod (Nat.add x y) 4294967296

/-- The word `x` xored with `y` and rotated by `n` to the left; `m` is `32 - n`. -/
def mix (x y n m : ℕ) : ℕ :=
  Nat.lor (Nat.mod (Nat.shiftLeft (Nat.xor x y) n) 4294967296) (Nat.shiftRight (Nat.xor x y) m)

/-- One quarter round on four words. The words are evaluated as they come. -/
def quarterRound {α : Type} (a b c d : ℕ) (next : ℕ → ℕ → ℕ → ℕ → α) : α :=
  force (addWords a b) fun a =>
  force (mix d a 16 16) fun d =>
  force (addWords c d) fun c =>
  force (mix b c 12 20) fun b =>
  force (addWords a b) fun a =>
  force (mix d a 8 24) fun d =>
  force (addWords c d) fun c =>
  force (mix b c 7 25) fun b =>
  next a b c d

/-- Double rounds: the four columns of the state, then its four diagonals. -/
def rounds : ℕ → ℕ → ℕ → ℕ → ℕ → ℕ → ℕ → ℕ → ℕ → ℕ → ℕ → ℕ → ℕ → ℕ → ℕ → ℕ → ℕ → List ℕ
  | 0, s₀, s₁, s₂, s₃, s₄, s₅, s₆, s₇, s₈, s₉, s₁₀, s₁₁, s₁₂, s₁₃, s₁₄, s₁₅ =>
      [s₀, s₁, s₂, s₃, s₄, s₅, s₆, s₇, s₈, s₉, s₁₀, s₁₁, s₁₂, s₁₃, s₁₄, s₁₅]
  | n + 1, s₀, s₁, s₂, s₃, s₄, s₅, s₆, s₇, s₈, s₉, s₁₀, s₁₁, s₁₂, s₁₃, s₁₄, s₁₅ =>
      quarterRound s₀ s₄ s₈ s₁₂ fun s₀ s₄ s₈ s₁₂ =>
      quarterRound s₁ s₅ s₉ s₁₃ fun s₁ s₅ s₉ s₁₃ =>
      quarterRound s₂ s₆ s₁₀ s₁₄ fun s₂ s₆ s₁₀ s₁₄ =>
      quarterRound s₃ s₇ s₁₁ s₁₅ fun s₃ s₇ s₁₁ s₁₅ =>
      quarterRound s₀ s₅ s₁₀ s₁₅ fun s₀ s₅ s₁₀ s₁₅ =>
      quarterRound s₁ s₆ s₁₁ s₁₂ fun s₁ s₆ s₁₁ s₁₂ =>
      quarterRound s₂ s₇ s₈ s₁₃ fun s₂ s₇ s₈ s₁₃ =>
      quarterRound s₃ s₄ s₉ s₁₄ fun s₃ s₄ s₉ s₁₄ =>
      rounds n s₀ s₁ s₂ s₃ s₄ s₅ s₆ s₇ s₈ s₉ s₁₀ s₁₁ s₁₂ s₁₃ s₁₄ s₁₅

/-- The `i`-th little-endian word of a byte list. -/
def wordAt (bytes : List UInt8) (i : ℕ) : ℕ := leValue ((bytes.drop (4 * i)).take 4)

/-- The state of a block: four constants, the key, the counter and the nonce. -/
def initialState (key nonce : List UInt8) (counter : ℕ) : List ℕ :=
  [0x61707865, 0x3320646e, 0x79622d32, 0x6b206574] ++ (List.range 8).map (wordAt key) ++
    [counter % 4294967296] ++ (List.range 3).map (wordAt nonce)

/-- Ten double rounds. -/
def permute : List ℕ → List ℕ
  | [s₀, s₁, s₂, s₃, s₄, s₅, s₆, s₇, s₈, s₉, s₁₀, s₁₁, s₁₂, s₁₃, s₁₄, s₁₅] =>
      rounds 10 s₀ s₁ s₂ s₃ s₄ s₅ s₆ s₇ s₈ s₉ s₁₀ s₁₁ s₁₂ s₁₃ s₁₄ s₁₅
  | other => other

def block (key nonce : List UInt8) (counter : ℕ) : List UInt8 :=
  let start := initialState key nonce counter
  (List.zipWith addWords (permute start) start).flatMap fun w => leBytes 4 w

/-- The first blocks of the stream after the block 0, enough for `n` bytes. -/
def stream (key nonce : List UInt8) (n : ℕ) : List UInt8 :=
  (List.range ((n + 63) / 64)).flatMap fun i => block key nonce (i + 1)

def applyStream (key nonce : List UInt8) (bytes : List UInt8) : List UInt8 :=
  List.zipWith (· ^^^ ·) bytes (stream key nonce bytes.length)

end Stream

section Tag

/-- The Poly1305 accumulator over the 16-byte chunks of a list. -/
def accumulate (r : ℕ) : ℕ → List UInt8 → ℕ → ℕ
  | 0, _, acc => acc
  | chunks + 1, bytes, acc =>
      accumulate r chunks (bytes.drop 16)
        ((acc + leValue (bytes.take 16 ++ [1])) * r % (2 ^ 130 - 5))

def poly1305 (oneTimeKey bytes : List UInt8) : List UInt8 :=
  let r := leValue (oneTimeKey.take 16) &&& 0x0ffffffc0ffffffc0ffffffc0fffffff
  let s := leValue ((oneTimeKey.drop 16).take 16)
  leBytes 16 (accumulate r ((bytes.length + 15) / 16) bytes 0 + s)

/-- The bytes under the tag: the ciphertext, filled up to whole chunks, and the two lengths. -/
def authenticated (ciphertext : List UInt8) : List UInt8 :=
  ciphertext ++ List.replicate ((16 - ciphertext.length % 16) % 16) 0 ++ leBytes 8 0 ++
    leBytes 8 ciphertext.length

def tag (key nonce ciphertext : List UInt8) : List UInt8 :=
  poly1305 ((block key nonce 0).take 32) (authenticated ciphertext)

end Tag

def encrypt (key nonce plaintext : List UInt8) : List UInt8 :=
  applyStream key nonce plaintext ++ tag key nonce (applyStream key nonce plaintext)

def decrypt (key nonce ciphertext : List UInt8) : Option (List UInt8) :=
  let body := ciphertext.take (ciphertext.length - 16)
  if 16 ≤ ciphertext.length ∧ tag key nonce body = ciphertext.drop (ciphertext.length - 16) then
    some (applyStream key nonce body)
  else none

section Facts

theorem rounds_length (n s₀ s₁ s₂ s₃ s₄ s₅ s₆ s₇ s₈ s₉ s₁₀ s₁₁ s₁₂ s₁₃ s₁₄ s₁₅ : ℕ) :
    (rounds n s₀ s₁ s₂ s₃ s₄ s₅ s₆ s₇ s₈ s₉ s₁₀ s₁₁ s₁₂ s₁₃ s₁₄ s₁₅).length = 16 := by
  induction n generalizing s₀ s₁ s₂ s₃ s₄ s₅ s₆ s₇ s₈ s₉ s₁₀ s₁₁ s₁₂ s₁₃ s₁₄ s₁₅ with
  | zero => simp [rounds]
  | succ n ih => simp only [rounds, quarterRound, force_eq, ih]

theorem permute_length (s : List ℕ) : (permute s).length = s.length := by
  unfold permute
  split
  · exact rounds_length ..
  · rfl

theorem block_length (key nonce : List UInt8) (counter : ℕ) : (block key nonce counter).length = 64 := by
  have hstart : (initialState key nonce counter).length = 16 := by simp [initialState]
  simp only [block, List.length_flatMap, leBytes_length]
  rw [List.map_const', List.sum_replicate, List.length_zipWith, permute_length, hstart]
  rfl

theorem stream_length (key nonce : List UInt8) (n : ℕ) : n ≤ (stream key nonce n).length := by
  simp only [stream, List.length_flatMap, block_length]
  rw [List.map_const', List.sum_replicate, List.length_range, smul_eq_mul]
  omega

@[simp] theorem applyStream_length (key nonce bytes : List UInt8) :
    (applyStream key nonce bytes).length = bytes.length := by
  have := stream_length key nonce bytes.length
  rw [applyStream, List.length_zipWith]
  omega

theorem zipWith_xor_twice : ∀ {a b : List UInt8}, a.length ≤ b.length →
    List.zipWith (· ^^^ ·) (List.zipWith (· ^^^ ·) a b) b = a
  | [], _, _ => by simp
  | x :: a, [], h => by simp at h
  | x :: a, y :: b, h => by
    have hab : a.length ≤ b.length := by simpa using h
    simp only [List.zipWith_cons_cons, zipWith_xor_twice hab, UInt8.xor_assoc, UInt8.xor_self, UInt8.xor_zero]

theorem applyStream_twice (key nonce bytes : List UInt8) :
    applyStream key nonce (applyStream key nonce bytes) = bytes := by
  have hlen := applyStream_length key nonce bytes
  conv_lhs => rw [applyStream, hlen, applyStream]
  exact zipWith_xor_twice (stream_length key nonce bytes.length)

theorem tag_length (key nonce ciphertext : List UInt8) : (tag key nonce ciphertext).length = 16 :=
  leBytes_length 16 _

theorem encrypt_length (key nonce plaintext : List UInt8) :
    (encrypt key nonce plaintext).length = plaintext.length + 16 := by
  rw [encrypt, List.length_append, applyStream_length, tag_length]

theorem decrypt_encrypt (key nonce plaintext : List UInt8) :
    decrypt key nonce (encrypt key nonce plaintext) = some plaintext := by
  have hlen : (encrypt key nonce plaintext).length - 16 = (applyStream key nonce plaintext).length := by
    rw [encrypt_length, applyStream_length]
    omega
  have htake : (encrypt key nonce plaintext).take ((encrypt key nonce plaintext).length - 16) =
      applyStream key nonce plaintext := by
    rw [hlen, encrypt, List.take_left]
  have hdrop : (encrypt key nonce plaintext).drop ((encrypt key nonce plaintext).length - 16) =
      tag key nonce (applyStream key nonce plaintext) := by
    rw [hlen, encrypt, List.drop_left]
  simp only [decrypt, htake, hdrop]
  rw [if_pos ⟨by rw [encrypt_length]; omega, trivial⟩, applyStream_twice]

example :
    encrypt ((List.range 32).map fun i => UInt8.ofNat (0x80 + i))
        ([7, 0, 0, 0] ++ (List.range 8).map fun i => UInt8.ofNat (0x40 + i))
        [104, 101, 108, 108, 111, 32, 66, 73, 80, 45, 51, 50, 52] =
      [247, 30, 133, 49, 110, 221, 2, 243, 69, 207, 188, 201, 2, 2, 250, 23, 27, 140, 183, 18, 44, 227,
        31, 196, 154, 128, 254, 34, 31] := by
  decide +kernel

end Facts

end KuberCoin.ChaCha20Poly1305
