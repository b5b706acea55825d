import KuberCoin.Sha256

/-!
RIPEMD-160 on natural numbers below 2^32, for evaluating scripts on concrete inputs.
A line is five rounds of sixteen steps, each with its own mixing function and constant;
the right line goes through the mixing functions in the opposite order.
-/
namespace KuberCoin.Ripemd160

open Bytes Sha256

structure Registers where
  a : ℕ
  b : ℕ
  c : ℕ
  d : ℕ
  e : ℕ

def rotateLeft (x n : ℕ) : ℕ := (x <<< n) % 2 ^ 32 ||| (x >>> (32 - n))

def invert (x : ℕ) : ℕ := 2 ^ 32 - 1 - x

def mixers : List (ℕ → ℕ → ℕ → ℕ) :=
  [fun x y z => x ^^^ y ^^^ z,
   fun x y z => (x &&& y) ||| (invert x &&& z),
   fun x y z => (x ||| invert y) ^^^ z,
   fun x y z => (x &&& z) ||| (y &&& invert z),
   fun x y z => x ^^^ (y ||| invert z)]

def leftConstants : List ℕ := [0x00000000, 0x5a827999, 0x6ed9eba1, 0x8f1bbcdc, 0xa953fd4e]

def rightConstants : List ℕ := [0x50a28be6, 0x5c4dd124, 0x6d703ef3, 0x7a6d76e9, 0x00000000]

/-- The word and the rotation of each step, round by round. -/
def leftSteps : List (List (ℕ × ℕ)) :=
  [[(0, 11), (1, 14), (2, 15), (3, 12), (4, 5), (5, 8), (6, 7), (7, 9), (8, 11), (9, 13), (10, 14),
    (11, 15), (12, 6), (13, 7), (14, 9), (15, 8)],
   [(7, 7), (4, 6), (13, 8), (1, 13), (10, 11), (6, 9), (15, 7), (3, 15), (12, 7), (0, 12), (9, 15),
    (5, 9), (2, 11), (14, 7), (11, 13), (8, 12)],
   [(3, 11), (10, 13), (14, 6), (4, 7), (9, 14), (15, 9), (8, 13), (1, 15), (2, 14), (7, 8), (0, 13),
    (6, 6), (13, 5), (11, 12), (5, 7), (12, 5)],
   [(1, 11), (9, 12), (11, 14), (10, 15), (0, 14), (8, 15), (12, 9), (4, 8), (13, 9), (3, 14), (7, 5),
    (15, 6), (14, 8), (5, 6), (6, 5), (2, 12)],
   [(4, 9), (0, 15), (5, 5), (9, 11), (7, 6), (12, 8), (2, 13), (10, 12), (14, 5), (1, 12), (3, 13),
    (8, 14), (11, 11), (6, 8), (15, 5), (13, 6)]]

def rightSteps : List (List (ℕ × ℕ)) :=
  [[(5, 8), (14, 9), (7, 9), (0, 11), (9, 13), (2, 15), (11, 15), (4, 5), (13, 7), (6, 7), (15, 8),
    (8, 11), (1, 14), (10, 14), (3, 12), (12, 6)],
   [(6, 9), (11, 13), (3, 15), (7, 7), (0, 12), (13, 8), (5, 9), (10, 11), (14, 7), (15, 7), (8, 12),
    (12, 7), (4, 6), (9, 15), (1, 13), (2, 11)],
   [(15, 9), (5, 7), (1, 15), (3, 11), (7, 8), (14, 6), (6, 6), (9, 14), (11, 12), (8, 13), (12, 5),
    (2, 14), (10, 13), (0, 13), (4, 7), (13, 5)],
   [(8, 15), (6, 5), (4, 8), (1, 11), (3, 14), (11, 14), (15, 6), (0, 14), (5, 6), (12, 9), (2, 12),
    (13, 9), (9, 12), (7, 5), (10, 15), (14, 8)],
   [(12, 8), (15, 5), (10, 12), (4, 9), (1, 12), (5, 5), (8, 14), (7, 6), (6, 8), (2, 13), (13, 6),
    (14, 5), (0, 15), (3, 13), (9, 11), (11, 11)]]

def steps (words : List ℕ) (mix : ℕ → ℕ → ℕ → ℕ) (k : ℕ) : List (ℕ × ℕ) → Registers → Registers
  | [], r => r
  | (word, turn) :: rest, ⟨a, b, c, d, e⟩ =>
      force ((a + mix b c d + words.getD word 0 + k) % 2 ^ 32) fun t =>
      force ((rotateLeft t turn + e) % 2 ^ 32) fun b' =>
      force (rotateLeft c 10) fun d' => steps words mix k rest ⟨e, b', b, d', d⟩

def line (words : List ℕ) :
    List (ℕ → ℕ → ℕ → ℕ) → List ℕ → List (List (ℕ × ℕ)) → Registers → Registers
  | mix :: mixes, k :: ks, round :: rounds, r => line words mixes ks rounds (steps words mix k round r)
  | _, _, _, r => r

def compress (h : Registers) (words : List ℕ) : Registers :=
  let l := line words mixers leftConstants leftSteps h
  let r := line words mixers.reverse rightConstants rightSteps h
  ⟨(h.b + l.c + r.d) % 2 ^ 32, (h.c + l.d + r.e) % 2 ^ 32, (h.d + l.e + r.a) % 2 ^ 32,
    (h.e + l.a + r.b) % 2 ^ 32, (h.a + l.b + r.c) % 2 ^ 32⟩

/-- Little-endian words of a padded message. -/
def wordsOf : List UInt8 → List ℕ
  | a :: b :: c :: d :: rest => force (leValue [a, b, c, d]) fun x => x :: wordsOf rest
  | _ => []

def pad (message : List UInt8) : List UInt8 :=
  message ++ [0x80] ++ List.replicate ((119 - message.length % 64) % 64) 0 ++
    leBytes 8 (8 * message.length)

def compressAll : ℕ → Registers → List ℕ → Registers
  | 0, h, _ => h
  | n + 1, h, words => compressAll n (compress h (words.take 16)) (words.drop 16)

def initial : Registers := ⟨0x67452301, 0xefcdab89, 0x98badcfe, 0x10325476, 0xc3d2e1f0⟩

def ripemd160 (message : List UInt8) : List UInt8 :=
  let words := wordsOf (pad message)
  let h := compressAll (words.length / 16) initial words
  leBytes 4 h.a ++ leBytes 4 h.b ++ leBytes 4 h.c ++ leBytes 4 h.d ++ leBytes 4 h.e

theorem ripemd160_length (message : List UInt8) : (ripemd160 message).length = 20 := by
  simp [ripemd160, leBytes_length]

example : (ripemd160 [0x61, 0x62, 0x63]).take 4 = [0x8e, 0xb2, 0x08, 0xf7] := by
  decide +kernel

end KuberCoin.Ripemd160
