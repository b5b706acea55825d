import KuberCoin.Transactions

/-!
SHA-256 as specified in FIPS 180-4, on natural numbers below 2^32.
The theorems hold for every digest function; concrete chains are evaluated with
this one. `force` evaluates a number before it is passed on, so that the rounds
run eagerly.
-/
namespace KuberCoin.Sha256

open Bytes

def roundConstants : List ℕ := [
  0x428a2f98, 0x71374491, 0xb5c0fbcf, 0xe9b5dba5, 0x3956c25b, 0x59f111f1, 0x923f82a4, 0xab1c5ed5,
  0xd807aa98, 0x12835b01, 0x243185be, 0x550c7dc3, 0x72be5d74, 0x80deb1fe, 0x9bdc06a7, 0xc19bf174,
  0xe49b69c1, 0xefbe4786, 0x0fc19dc6, 0x240ca1cc, 0x2de92c6f, 0x4a7484aa, 0x5cb0a9dc, 0x76f988da,
  0x983e5152, 0xa831c66d, 0xb00327c8, 0xbf597fc7, 0xc6e00bf3, 0xd5a79147, 0x06ca6351, 0x14292967,
  0x27b70a85, 0x2e1b2138, 0x4d2c6dfc, 0x53380d13, 0x650a7354, 0x766a0abb, 0x81c2c92e, 0x92722c85,
  0xa2bfe8a1, 0xa81a664b, 0xc24b8b70, 0xc76c51a3, 0xd192e819, 0xd6990624, 0xf40e3585, 0x106aa070,
  0x19a4c116, 0x1e376c08, 0x2748774c, 0x34b0bcb5, 0x391c0cb3, 0x4ed8aa4a, 0x5b9cca4f, 0x682e6ff3,
  0x748f82ee, 0x78a5636f, 0x84c87814, 0x8cc70208, 0x90befffa, 0xa4506ceb, 0xbef9a3f7, 0xc67178f2]

def initialHash : List ℕ :=
  [0x6a09e667, 0xbb67ae85, 0x3c6ef372, 0xa54ff53a, 0x510e527f, 0x9b05688c, 0x1f83d9ab, 0x5be0cd19]

def force {α : Type} (x : ℕ) (f : ℕ → α) : α :=
  match x with
  | 0 => f 0
  | n + 1 => f (n + 1)

def rotateRight (x n : ℕ) : ℕ := (x >>> n) ||| ((x <<< (32 - n)) % 2 ^ 32)

def bigSigma0 (x : ℕ) : ℕ := rotateRight x 2 ^^^ rotateRight x 13 ^^^ rotateRight x 22

def bigSigma1 (x : ℕ) : ℕ := rotateRight x 6 ^^^ rotateRight x 11 ^^^ rotateRight x 25

def smallSigma0 (x : ℕ) : ℕ := rotateRight x 7 ^^^ rotateRight x 18 ^^^ (x >>> 3)

def smallSigma1 (x : ℕ) : ℕ := rotateRight x 17 ^^^ rotateRight x 19 ^^^ (x >>> 10)

def choose (x y z : ℕ) : ℕ := (x &&& y) ^^^ ((2 ^ 32 - 1 - x) &&& z)

def majority (x y z : ℕ) : ℕ := (x &&& y) ^^^ (x &&& z) ^^^ (y &&& z)

/-- The remaining rounds; the schedule is a window of sixteen words. -/
def rounds : List ℕ → List ℕ → ℕ → ℕ → ℕ → ℕ → ℕ → ℕ → ℕ → ℕ → List ℕ
  | k :: ks, w :: ws, a, b, c, d, e, f, g, h =>
      force (h + bigSigma1 e + choose e f g + k + w) fun t₁ =>
      force ((t₁ + bigSigma0 a + majority a b c) % 2 ^ 32) fun a' =>
      force ((d + t₁) % 2 ^ 32) fun e' =>
      force ((smallSigma1 (ws.getD 13 0) + ws.getD 8 0 + smallSigma0 (ws.getD 0 0) + w) % 2 ^ 32)
        fun w' => rounds ks (ws ++ [w']) a' a b c e' e f g
  | _, _, a, b, c, d, e, f, g, h => [a, b, c, d, e, f, g, h]

def addWords : List ℕ → List ℕ → List ℕ
  | a :: as, b :: bs => force ((a + b) % 2 ^ 32) fun x => x :: addWords as bs
  | _, _ => []

def compress (state words : List ℕ) : List ℕ :=
  match state with
  | [a, b, c, d, e, f, g, h] => addWords state (rounds roundConstants words a b c d e f g h)
  | _ => state

/-- Big-endian words of a padded message. -/
def wordsOf : List UInt8 → List ℕ
  | a :: b :: c :: d :: rest =>
      force (value [a, b, c, d]) fun x => x :: wordsOf rest
  | _ => []

def pad (message : List UInt8) : List UInt8 :=
  message ++ [0x80] ++ List.replicate ((119 - message.length % 64) % 64) 0 ++
    (leBytes 8 (8 * message.length)).reverse

def compressAll : ℕ → List ℕ → List ℕ → List ℕ
  | 0, state, _ => state
  | n + 1, state, words => compressAll n (compress state (words.take 16)) (words.drop 16)

def digestBytes (message : List UInt8) : List UInt8 :=
  let words := wordsOf (pad message)
  (compressAll (words.length / 16) initialHash words).flatMap fun w => (leBytes 4 w).reverse

theorem force_eq {α : Type} (x : ℕ) (f : ℕ → α) : force x f = f x := by
  cases x <;> rfl

theorem rounds_length (ks ws : List ℕ) (a b c d e f g h : ℕ) : (rounds ks ws a b c d e f g h).length = 8 := by
  induction ks generalizing ws a b c d e f g h with
  | nil => rfl
  | cons k ks ih =>
    cases ws with
    | nil => rfl
    | cons w ws => simp only [rounds, force_eq, ih]

theorem addWords_length (as bs : List ℕ) (hlen : as.length = bs.length) : (addWords as bs).length = as.length := by
  induction as generalizing bs with
  | nil => rfl
  | cons a as ih =>
    cases bs with
    | nil => simp at hlen
    | cons b bs => simpa [addWords, force_eq] using ih bs (by simpa using hlen)

theorem compress_length (state words : List ℕ) (hstate : state.length = 8) : (compress state words).length = 8 := by
  unfold compress
  split
  · rw [addWords_length _ _ (by rw [rounds_length]; rfl)]
    rfl
  · exact hstate

theorem compressAll_length (n : ℕ) (state words : List ℕ) (hstate : state.length = 8) :
    (compressAll n state words).length = 8 := by
  induction n generalizing state words with
  | zero => exact hstate
  | succ n ih => exact ih _ _ (compress_length _ _ hstate)

theorem digestBytes_length (message : List UInt8) : (digestBytes message).length = 32 := by
  simp [digestBytes, List.length_flatMap, leBytes_length, compressAll_length, initialHash]

def sha256 : Transactions.Sha256 := fun message =>
  ⟨digestBytes message, digestBytes_length message⟩

example : (sha256 [0x61, 0x62, 0x63]).bytes.take 4 = [0xba, 0x78, 0x16, 0xbf] := by
  decide +kernel

section Evaluation

/-!
The same digest with the schedule in arguments and the operations on numbers by their own
names. The kernel evaluates it an order of magnitude faster.
-/

def turn (x n m : ℕ) : ℕ := Nat.lor (Nat.shiftRight x n) (Nat.mod (Nat.shiftLeft x m) 4294967296)

def runRounds : List ℕ → ℕ → ℕ → ℕ → ℕ → ℕ → ℕ → ℕ → ℕ → ℕ → ℕ → ℕ → ℕ → ℕ → ℕ → ℕ → ℕ →
    ℕ → ℕ → ℕ → ℕ → ℕ → ℕ → ℕ → ℕ → List ℕ
  | [], _, _, _, _, _, _, _, _, _, _, _, _, _, _, _, _, a, b, c, d, e, f, g, h => [a, b, c, d, e, f, g, h]
  | k :: ks, w₀, w₁, w₂, w₃, w₄, w₅, w₆, w₇, w₈, w₉, w₁₀, w₁₁, w₁₂, w₁₃, w₁₄, w₁₅, a, b, c, d, e, f, g, h =>
      force (Nat.add (Nat.add (Nat.add
        (Nat.add h (Nat.xor (Nat.xor (turn e 6 26) (turn e 11 21)) (turn e 25 7)))
        (Nat.xor (Nat.land e f) (Nat.land (Nat.sub 4294967295 e) g))) k) w₀) fun t₁ =>
      force (Nat.mod (Nat.add
        (Nat.add t₁ (Nat.xor (Nat.xor (turn a 2 30) (turn a 13 19)) (turn a 22 10)))
        (Nat.xor (Nat.xor (Nat.land a b) (Nat.land a c)) (Nat.land b c))) 4294967296) fun a' =>
      force (Nat.mod (Nat.add d t₁) 4294967296) fun e' =>
      force (Nat.mod (Nat.add (Nat.add (Nat.add
        (Nat.xor (Nat.xor (turn w₁₄ 17 15) (turn w₁₄ 19 13)) (Nat.shiftRight w₁₄ 10)) w₉)
        (Nat.xor (Nat.xor (turn w₁ 7 25) (turn w₁ 18 14)) (Nat.shiftRight w₁ 3))) w₀) 4294967296)
        fun w' => runRounds ks w₁ w₂ w₃ w₄ w₅ w₆ w₇ w₈ w₉ w₁₀ w₁₁ w₁₂ w₁₃ w₁₄ w₁₅ w' a' a b c e' e f g

theorem runRounds_eq (ks : List ℕ) (w₀ w₁ w₂ w₃ w₄ w₅ w₆ w₇ w₈ w₉ w₁₀ w₁₁ w₁₂ w₁₃ w₁₄ w₁₅ a b c d e f g h : ℕ) :
    runRounds ks w₀ w₁ w₂ w₃ w₄ w₅ w₆ w₇ w₈ w₉ w₁₀ w₁₁ w₁₂ w₁₃ w₁₄ w₁₅ a b c d e f g h =
      rounds ks [w₀, w₁, w₂, w₃, w₄, w₅, w₆, w₇, w₈, w₉, w₁₀, w₁₁, w₁₂, w₁₃, w₁₄, w₁₅]
        a b c d e f g h := by
  induction ks generalizing w₀ w₁ w₂ w₃ w₄ w₅ w₆ w₇ w₈ w₉ w₁₀ w₁₁ w₁₂ w₁₃ w₁₄ w₁₅ a b c d e f g h with
  | nil => rfl
  | cons k ks ih =>
    simp only [runRounds, rounds, force_eq, ih]
    rfl

def runCompress (state words : List ℕ) : List ℕ :=
  match state, words with
  | [a, b, c, d, e, f, g, h],
      [w₀, w₁, w₂, w₃, w₄, w₅, w₆, w₇, w₈, w₉, w₁₀, w₁₁, w₁₂, w₁₃, w₁₄, w₁₅] =>
      addWords state (runRounds roundConstants w₀ w₁ w₂ w₃ w₄ w₅ w₆ w₇ w₈ w₉ w₁₀ w₁₁ w₁₂ w₁₃ w₁₄ w₁₅
        a b c d e f g h)
  | _, _ => compress state words

theorem runCompress_eq (state words : List ℕ) : runCompress state words = compress state words := by
  unfold runCompress
  split
  · rw [runRounds_eq]
    rfl
  · rfl

def runCompressAll : ℕ → List ℕ → List ℕ → List ℕ
  | 0, state, _ => state
  | n + 1, state, words => runCompressAll n (runCompress state (words.take 16)) (words.drop 16)

theorem runCompressAll_eq (n : ℕ) (state words : List ℕ) :
    runCompressAll n state words = compressAll n state words := by
  induction n generalizing state words with
  | zero => rfl
  | succ n ih => rw [runCompressAll, compressAll, ih, runCompress_eq]

def runDigest (message : List UInt8) : List UInt8 :=
  let words := wordsOf (pad message)
  (runCompressAll (words.length / 16) initialHash words).flatMap fun w => (leBytes 4 w).reverse

theorem runDigest_eq (message : List UInt8) : runDigest message = digestBytes message := by
  simp only [runDigest, digestBytes, runCompressAll_eq]

def runSha256 : Transactions.Sha256 := fun message =>
  ⟨runDigest message, by rw [runDigest_eq, digestBytes_length]⟩

theorem runSha256_eq : runSha256 = sha256 := by
  funext message
  exact Bytes32.ext_bytes (runDigest_eq message)

/-!
The double digest of a message given by its words: the second message is made of the words of the first
digest, so no byte is formed between the two.
-/

def bytesOf (words : List ℕ) : List UInt8 := words.flatMap fun w => (leBytes 4 w).reverse

def runWords (words : List ℕ) : List ℕ := runCompressAll (words.length / 16) initialHash words

def digestPadding : List ℕ := [0x80000000, 0, 0, 0, 0, 0, 0, 256]

def runWordsTwice (words : List ℕ) : List ℕ := runWords (runWords words ++ digestPadding)

theorem wordsOf_append (as bs : List UInt8) (haligned : as.length % 4 = 0) :
    wordsOf (as ++ bs) = wordsOf as ++ wordsOf bs := by
  induction as using wordsOf.induct with
  | case1 a b c d rest ih =>
    have hrest : rest.length % 4 = 0 := by
      simp only [List.length_cons] at haligned
      omega
    simp only [List.cons_append, wordsOf, force_eq, ih hrest]
  | case2 as hshort =>
    rcases as with _ | ⟨a, _ | ⟨b, _ | ⟨c, _ | ⟨d, rest⟩⟩⟩⟩
    · rfl
    · simp at haligned
    · simp at haligned
    · simp at haligned
    · exact absurd rfl (hshort a b c d rest)

theorem leValue_word {w : ℕ} (hw : w < 2 ^ 32) : value (leBytes 4 w).reverse = w := by
  have hvalue := leValue_leBytes 4 w
  rw [Nat.mod_eq_of_lt (by omega)] at hvalue
  exact hvalue

theorem wordsOf_word {w : ℕ} (hw : w < 2 ^ 32) : wordsOf (leBytes 4 w).reverse = [w] := by
  have hvalue := leValue_word hw
  simp only [leBytes, List.reverse_cons, List.reverse_nil, List.nil_append, List.cons_append] at hvalue ⊢
  rw [wordsOf, force_eq, hvalue]
  rfl

theorem wordsOf_bytesOf {words : List ℕ} (hwords : ∀ w ∈ words, w < 2 ^ 32) : wordsOf (bytesOf words) = words := by
  induction words with
  | nil => rfl
  | cons w words ih =>
    rw [List.forall_mem_cons] at hwords
    rw [bytesOf, List.flatMap_cons, wordsOf_append _ _ (by simp [leBytes_length]), wordsOf_word hwords.1]
    exact congrArg (w :: ·) (ih hwords.2)

theorem bytesOf_length (words : List ℕ) : (bytesOf words).length = 4 * words.length := by
  induction words with
  | nil => rfl
  | cons w words ih =>
    have hbytes : (leBytes 4 w).reverse.length = 4 := by rw [List.length_reverse, leBytes_length]
    rw [bytesOf, List.flatMap_cons, List.length_append, hbytes, List.length_cons]
    unfold bytesOf at ih
    omega

/-- The number of a list of words, most significant word first. -/
def wordsValue (words : List ℕ) : ℕ :=
  words.foldl (fun n w => Nat.add (Nat.mul n 4294967296) w) 0

theorem value_bytesOf {words : List ℕ} (hwords : ∀ w ∈ words, w < 2 ^ 32) :
    value (bytesOf words) = wordsValue words := by
  have hfold : ∀ n, words.foldl (fun n w => Nat.add (Nat.mul n 4294967296) w) n =
      n * 256 ^ (4 * words.length) + value (bytesOf words) := by
    induction words with
    | nil =>
      intro n
      simp [bytesOf, value]
    | cons w words ih =>
      intro n
      rw [List.forall_mem_cons] at hwords
      have hsplit : bytesOf (w :: words) = (leBytes 4 w).reverse ++ bytesOf words := List.flatMap_cons
      rw [List.foldl_cons, ih hwords.2, hsplit, value_append, leValue_word hwords.1, bytesOf_length,
        List.length_cons, Nat.mul_add, Nat.pow_add]
      simp only [Nat.add_eq, Nat.mul_eq, Nat.reducePow, Nat.mul_one]
      ring
  rw [wordsValue, hfold 0, Nat.zero_mul, Nat.zero_add]

theorem addWords_bounded (as bs : List ℕ) : ∀ w ∈ addWords as bs, w < 2 ^ 32 := by
  induction as generalizing bs with
  | nil => simp [addWords]
  | cons a as ih =>
    cases bs with
    | nil => simp [addWords]
    | cons b bs =>
      rw [addWords, force_eq, List.forall_mem_cons]
      exact ⟨Nat.mod_lt _ (by decide), ih bs⟩

theorem compressAll_bounded (n : ℕ) {state : List ℕ} (words : List ℕ) (hstate : ∀ w ∈ state, w < 2 ^ 32) :
    ∀ w ∈ compressAll n state words, w < 2 ^ 32 := by
  induction n generalizing state words with
  | zero => exact hstate
  | succ n ih =>
    refine ih (words.drop 16) ?_
    unfold compress
    split
    · exact addWords_bounded _ _
    · exact hstate

theorem runWords_bounded (words : List ℕ) : ∀ w ∈ runWords words, w < 2 ^ 32 := by
  rw [runWords, runCompressAll_eq]
  exact compressAll_bounded _ words (by decide)

theorem runWords_length (words : List ℕ) : (runWords words).length = 8 := by
  rw [runWords, runCompressAll_eq]
  exact compressAll_length _ _ _ rfl

theorem runSha256_bytes (message : List UInt8) :
    (runSha256 message).bytes = bytesOf (runWords (wordsOf (pad message))) := rfl

theorem wordsOf_pad_digest (message : List UInt8) :
    wordsOf (pad (runSha256 message).bytes) = runWords (wordsOf (pad message)) ++ digestPadding := by
  have hpad : pad (runSha256 message).bytes =
      (runSha256 message).bytes ++ ([0x80] ++ List.replicate 23 0 ++ (leBytes 8 256).reverse) := by
    rw [pad, (runSha256 message).length_eq]
    simp only [List.append_assoc]
  have hend : wordsOf ([0x80] ++ List.replicate 23 0 ++ (leBytes 8 256).reverse) = digestPadding := by decide +kernel
  rw [hpad, wordsOf_append _ _ (by rw [(runSha256 message).length_eq]), runSha256_bytes,
    wordsOf_bytesOf (runWords_bounded _), hend]

theorem runSha256_twice (message : List UInt8) :
    (Transactions.sha256d runSha256 message).bytes = bytesOf (runWordsTwice (wordsOf (pad message))) := by
  rw [Transactions.sha256d, runSha256_bytes, wordsOf_pad_digest]
  rfl

theorem runWordsTwice_bounded (words : List ℕ) : ∀ w ∈ runWordsTwice words, w < 2 ^ 32 := runWords_bounded _

end Evaluation

end KuberCoin.Sha256
