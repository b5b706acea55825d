import KuberCoin.BitGroups
import KuberCoin.Sha256
import KuberCoin.TextPieces

/-!
Mnemonic phrases (crate `tx`, `bip39.rs`). The words stand for groups of eleven bits: the entropy
and then a checksum, of which `from_entropy` writes the bits in the order of their values and
`from_phrase` reads them in the order of the hash.
-/
namespace KuberCoin.Mnemonics

open Bytes Transactions Regroupings BitGroups TextPieces

section Model

/-- A letter of the words. -/
def IsLetter (c : Char) : Prop := 'a' ≤ c ∧ c ≤ 'z'

/-- `WORDLIST`. -/
structure WordList where
  words : List (List Char)
  length_eq : words.length = 2048
  nodup : words.Nodup
  letters : ∀ w ∈ words, w ≠ [] ∧ ∀ c ∈ w, IsLetter c

/-- `str::to_lowercase`. -/
structure Lowercase where
  map : List Char → List Char
  letters : ∀ w, (∀ c ∈ w, IsLetter c) → map w = w

inductive Bip39Error where
  | invalidWordCount
  | invalidWord (word : List Char)
  | invalidChecksum
  | invalidEntropyLength
deriving DecidableEq

structure Mnemonic where
  words : List (List Char)
  entropy : List UInt8
deriving DecidableEq

variable (sha256 : Sha256) (wordList : WordList) (lower : Lowercase)

/-- The first byte of the hash of the entropy. -/
def hashByte (entropy : List UInt8) : ℕ := ((sha256 entropy).bytes.getD 0 0).toNat

/-- The words of groups of eleven bits. -/
def wordsOf (bits : List ℕ) : List (List Char) :=
  (chunks 11 bits).map fun chunk => wordList.words.getD (placed 10 chunk) []

def fromEntropy (entropy : List UInt8) : Except Bip39Error Mnemonic :=
  let entropyBits := entropy.length * 8
  if ¬ [128, 160, 192, 224, 256].contains entropyBits then .error .invalidEntropyLength
  else
    let checksumBits := entropyBits / 32
    let checksum := hashByte sha256 entropy
    let bits := entropy.flatMap (fun byte => bitsOf 8 byte.toNat) ++
      (List.range checksumBits).reverse.map fun i => checksum >>> (7 - i) &&& 1
    .ok ⟨wordsOf wordList bits, entropy⟩

def toPhrase (m : Mnemonic) : List Char := joinWords m.words

def fromPhrase (phrase : List Char) : Except Bip39Error Mnemonic :=
  let words := (splitWhitespace phrase).map lower.map
  if ¬ [12, 15, 18, 21, 24].contains words.length then .error .invalidWordCount
  else
    match words.find? fun w => !wordList.words.contains w with
    | some w => .error (.invalidWord w)
    | none =>
        let bits := words.flatMap fun w => bitsOf 11 (wordList.words.idxOf w)
        let entropyBits := bits.length * 32 / 33
        let checksumBits := bits.length - entropyBits
        let entropy := (chunks 8 (bits.take entropyBits)).map fun chunk => UInt8.ofNat (placed 7 chunk)
        let expectedChecksum := hashByte sha256 entropy >>> (8 - checksumBits)
        let actualChecksum := placed (checksumBits - 1) (bits.drop entropyBits)
        if actualChecksum ≠ expectedChecksum then .error .invalidChecksum else .ok ⟨words, entropy⟩

end Model

section Words

variable {wordList : WordList} {bits : List ℕ}

theorem not_whitespace_of_letter {c : Char} (h : IsLetter c) : isWhitespace c = false := by
  have h₁ : 97 ≤ c.toNat := h.1
  have h₂ : c.toNat ≤ 122 := h.2
  unfold isWhitespace
  simp only [Bool.or_eq_false_iff, Bool.and_eq_false_iff, decide_eq_false_iff_not]
  refine ⟨⟨.inr (by omega), .inl (by omega)⟩, ?_⟩
  rw [List.contains_eq_mem, decide_eq_false_iff_not]
  intro hmem
  simp only [List.mem_cons, List.not_mem_nil, or_false] at hmem
  omega

theorem wordsOf_spec (hbits : ∀ b ∈ bits, b < 2) {k : ℕ} (hlength : bits.length = 11 * k) :
    (wordsOf wordList bits).length = k ∧ (∀ w ∈ wordsOf wordList bits, w ∈ wordList.words) ∧
      (wordsOf wordList bits).flatMap (fun w => bitsOf 11 (wordList.words.idxOf w)) = bits := by
  obtain ⟨hcount, hflat, hpieces⟩ := chunks_even (by decide : 0 < 11) hlength
  have hgroup : ∀ piece ∈ chunks 11 bits, ∀ b ∈ piece, b < 2 := by
    intro piece hpiece b hb
    refine hbits b ?_
    rw [← hflat]
    exact List.mem_flatten.mpr ⟨piece, hpiece, hb⟩
  have hvalue : ∀ piece ∈ chunks 11 bits, placed 10 piece = valueOf 1 piece ∧ placed 10 piece < wordList.words.length := by
    intro piece hpiece
    have hplaced := placed_eq (hpieces piece hpiece) (hgroup piece hpiece)
    have hlt := valueOf_lt (hgroup piece hpiece)
    rw [hpieces piece hpiece] at hlt
    exact ⟨hplaced, by rw [wordList.length_eq, hplaced]; exact hlt⟩
  refine ⟨by rw [wordsOf, List.length_map, hcount], fun w hw => ?_, ?_⟩
  · obtain ⟨piece, hpiece, rfl⟩ := List.mem_map.mp hw
    rw [List.getD_eq_getElem _ _ (hvalue piece hpiece).2]
    exact List.getElem_mem _
  · rw [wordsOf, List.flatMap_map]
    have hone : ∀ piece ∈ chunks 11 bits,
        bitsOf 11 (wordList.words.idxOf (wordList.words.getD (placed 10 piece) [])) = piece := by
      intro piece hpiece
      obtain ⟨hplaced, hlt⟩ := hvalue piece hpiece
      rw [List.getD_eq_getElem _ _ hlt, wordList.nodup.idxOf_getElem, hplaced, ← hpieces piece hpiece]
      exact bitsOf_valueOf (hgroup piece hpiece)
    rw [List.flatMap_def, List.map_congr_left hone, List.map_id', hflat]

theorem split_phrase (lower : Lowercase) {words : List (List Char)} (h : ∀ w ∈ words, w ∈ wordList.words) :
    (splitWhitespace (joinWords words)).map lower.map = words := by
  rw [splitWhitespace_joinWords (fun w hw => (wordList.letters w (h w hw)).1)
    fun w hw c hc => not_whitespace_of_letter ((wordList.letters w (h w hw)).2 c hc)]
  exact (List.map_congr_left fun w hw => lower.letters w (wordList.letters w (h w hw)).2).trans (List.map_id' _)

end Words

section Checksums

variable (sha256 : Sha256) (wordList : WordList) (lower : Lowercase)

/-- The bits of the entropy. -/
def entropyBits (entropy : List UInt8) : List ℕ := entropy.flatMap fun byte => bitsOf 8 byte.toNat

/-- The checksum of BIP-39: the first bits of the hash, one for every 32 of the entropy. -/
def checksum (entropy : List UInt8) : List ℕ := (bitsOf 8 (hashByte sha256 entropy)).take (entropy.length * 8 / 32)

/-- The words of BIP-39: the groups of eleven bits of the entropy with its checksum, as numbers. -/
def bip39Words (entropy : List UInt8) : List (List Char) :=
  (chunks 11 (entropyBits entropy ++ checksum sha256 entropy)).map fun group =>
    wordList.words.getD (valueOf 1 group) []

variable {sha256 wordList lower} {entropy : List UInt8}

theorem entropyBits_lt : ∀ b ∈ entropyBits entropy, b < 2 := by
  intro b hb
  obtain ⟨byte, -, hbyte⟩ := List.mem_flatMap.mp hb
  exact bitsOf_lt hbyte

theorem checksum_lt : ∀ b ∈ checksum sha256 entropy, b < 2 := fun _ hb => bitsOf_lt (List.mem_of_mem_take hb)

theorem hashByte_lt : hashByte sha256 entropy < 256 := UInt8.toNat_lt _

theorem length_entropyBits : (entropyBits entropy).length = entropy.length * 8 := by
  rw [entropyBits, List.length_flatMap]
  simp

theorem exists_width (h : entropy.length ∈ [16, 20, 24, 28, 32]) :
    ∃ n, 4 ≤ n ∧ n ≤ 8 ∧ entropy.length = 4 * n ∧ entropy.length * 8 / 32 = n := by
  simp only [List.mem_cons, List.not_mem_nil, or_false] at h
  exact ⟨entropy.length / 4, by omega, by omega, by omega, by omega⟩

/-- What `from_entropy` appends is the checksum backwards. -/
theorem written_checksum {n : ℕ} (hn : n ≤ 8) (v : ℕ) :
    ((List.range n).reverse.map fun i => v >>> (7 - i) &&& 1) = ((bitsOf 8 v).take n).reverse := by
  have height : (List.range 8).reverse = (List.range 8).map (7 - ·) := by decide
  rw [bitsOf, height, List.map_map, ← List.map_take, List.take_range, Nat.min_eq_left hn, ← List.map_reverse]
  rfl

theorem fromEntropy_eq (h : entropy.length ∈ [16, 20, 24, 28, 32]) : fromEntropy sha256 wordList entropy =
      .ok ⟨wordsOf wordList (entropyBits entropy ++ (checksum sha256 entropy).reverse), entropy⟩ := by
  obtain ⟨n, -, hn, hlength, hwidth⟩ := exists_width h
  have haccepted : [128, 160, 192, 224, 256].contains (entropy.length * 8) = true := by
    simp only [List.mem_cons, List.not_mem_nil, or_false] at h
    rw [List.contains_iff_mem]
    simp only [List.mem_cons, List.not_mem_nil, or_false]
    omega
  unfold fromEntropy
  simp only [haccepted, not_true_eq_false, if_false]
  rw [written_checksum (by omega), checksum, entropyBits]

theorem fromPhrase_joinWords (h : entropy.length ∈ [16, 20, 24, 28, 32]) {bits : List ℕ} (hbits : ∀ b ∈ bits, b < 2)
    (hlength : bits.length = (checksum sha256 entropy).length) :
    fromPhrase sha256 wordList lower (joinWords (wordsOf wordList (entropyBits entropy ++ bits))) =
      if valueOf 1 bits ≠ valueOf 1 (checksum sha256 entropy) then .error .invalidChecksum
      else .ok ⟨wordsOf wordList (entropyBits entropy ++ bits), entropy⟩ := by
  obtain ⟨n, hn₄, hn₈, hbytes, hwidth⟩ := exists_width h
  have hchecksum : (checksum sha256 entropy).length = n := by
    rw [checksum, hwidth, List.length_take_of_le (by rw [length_bitsOf]; exact hn₈)]
  have hentropy : (entropyBits entropy).length = 32 * n := by
    rw [length_entropyBits, hbytes]
    omega
  have hall : (entropyBits entropy ++ bits).length = 11 * (3 * n) := by
    rw [List.length_append, hentropy, hlength, hchecksum]
    omega
  have hgroups : ∀ b ∈ entropyBits entropy ++ bits, b < 2 := fun b hb =>
    (List.mem_append.mp hb).elim (entropyBits_lt b) (hbits b)
  obtain ⟨hcount, hknown, hread⟩ := @wordsOf_spec wordList _ hgroups _ hall
  have haccepted : [12, 15, 18, 21, 24].contains (wordsOf wordList (entropyBits entropy ++ bits)).length = true := by
    rw [hcount, List.contains_iff_mem]
    simp only [List.mem_cons, List.not_mem_nil, or_false]
    simp only [List.mem_cons, List.not_mem_nil, or_false] at h
    omega
  have hnone : (wordsOf wordList (entropyBits entropy ++ bits)).find? (fun w => !wordList.words.contains w) = none := by
    rw [List.find?_eq_none]
    intro w hw
    simp [hknown w hw]
  have hsize : (entropyBits entropy ++ bits).length * 32 / 33 = 32 * n := by
    rw [hall]
    omega
  have hrest : (entropyBits entropy ++ bits).length - 32 * n = n := by
    rw [hall]
    omega
  have hread₈ : (chunks 8 (entropyBits entropy)).map (fun chunk => UInt8.ofNat (placed 7 chunk)) = entropy := by
    rw [entropyBits, chunks_flatMap (by decide) (fun byte => length_bitsOf 8 _), List.map_map]
    refine (List.map_congr_left fun byte _ => ?_).trans (List.map_id' entropy)
    show UInt8.ofNat (placed 7 (bitsOf 8 byte.toNat)) = byte
    rw [placed_eq (length_bitsOf 8 _) fun b hb => bitsOf_lt hb, valueOf_bitsOf byte.toNat_lt, UInt8.ofNat_toNat]
  have hexpected : hashByte sha256 entropy >>> (8 - n) = valueOf 1 (checksum sha256 entropy) := by
    have hsplit : bitsOf 8 (hashByte sha256 entropy) = bitsOf n (hashByte sha256 entropy >>> (8 - n)) ++
        bitsOf (8 - n) (hashByte sha256 entropy) := by
      rw [← bitsOf_add]
      congr 1
      omega
    rw [checksum, hwidth, hsplit, List.take_left' (length_bitsOf _ _), valueOf_bitsOf]
    rw [Nat.shiftRight_eq_div_pow]
    refine Nat.div_lt_of_lt_mul ?_
    rw [← Nat.pow_add, show 8 - n + n = 8 by omega]
    exact hashByte_lt
  unfold fromPhrase
  simp only [split_phrase lower hknown, haccepted, not_true_eq_false, if_false, hnone, hread, hsize, hrest]
  rw [List.take_left' hentropy, List.drop_left' hentropy, hread₈, hexpected,
    placed_eq (by rw [hlength, hchecksum]; omega) hbits]

/-- The mnemonic is that of BIP-39, and its phrase reads back to the same words and entropy. -/
def RoundTrips (sha256 : Sha256) (wordList : WordList) (lower : Lowercase) (entropy : List UInt8) : Prop :=
  ∃ m, fromEntropy sha256 wordList entropy = .ok m ∧ m.words = bip39Words sha256 wordList entropy ∧
    fromPhrase sha256 wordList lower (toPhrase m) = .ok ⟨m.words, entropy⟩

theorem fromPhrase_reversed (h : entropy.length ∈ [16, 20, 24, 28, 32]) :
    fromPhrase sha256 wordList lower (joinWords (wordsOf wordList (entropyBits entropy ++ (checksum sha256 entropy).reverse))) =
      if valueOf 1 (checksum sha256 entropy).reverse ≠ valueOf 1 (checksum sha256 entropy) then .error .invalidChecksum
      else .ok ⟨wordsOf wordList (entropyBits entropy ++ (checksum sha256 entropy).reverse), entropy⟩ :=
  fromPhrase_joinWords h (fun b hb => checksum_lt b (List.mem_reverse.mp hb)) List.length_reverse

theorem RoundTrips.palindrome (h : entropy.length ∈ [16, 20, 24, 28, 32])
    (hround : RoundTrips sha256 wordList lower entropy) :
    (checksum sha256 entropy).reverse = checksum sha256 entropy := by
  obtain ⟨m, hm, -, hread⟩ := hround
  rw [fromEntropy_eq h] at hm
  obtain rfl := Except.ok.inj hm
  rw [toPhrase, fromPhrase_reversed h] at hread
  split at hread
  next => cases hread
  next hvalue =>
    exact valueOf_injective one_ne_zero List.length_reverse (fun b hb => checksum_lt b (List.mem_reverse.mp hb))
      checksum_lt (not_not.mp hvalue)

/-- This is so exactly when the checksum reads the same backwards. -/
theorem round_trips_iff (h : entropy.length ∈ [16, 20, 24, 28, 32]) :
    RoundTrips sha256 wordList lower entropy ↔ (checksum sha256 entropy).reverse = checksum sha256 entropy := by
  refine ⟨fun hround => hround.palindrome h, fun hsame => ⟨_, fromEntropy_eq h, ?_, ?_⟩⟩
  · obtain ⟨n, -, hn, hbytes, hwidth⟩ := exists_width h
    have hall : (entropyBits entropy ++ checksum sha256 entropy).length = 11 * (3 * n) := by
      rw [List.length_append, length_entropyBits, checksum, hwidth,
        List.length_take_of_le (by rw [length_bitsOf]; exact hn)]
      omega
    obtain ⟨-, hflat, hpieces⟩ := chunks_even (by decide : 0 < 11) hall
    show wordsOf wordList _ = _
    rw [hsame, wordsOf, bip39Words]
    refine List.map_congr_left fun group hgroup => ?_
    rw [placed_eq (hpieces group hgroup)]
    intro b hb
    have hmem : b ∈ entropyBits entropy ++ checksum sha256 entropy := by
      rw [← hflat]
      exact List.mem_flatten.mpr ⟨group, hgroup, hb⟩
    exact (List.mem_append.mp hmem).elim (entropyBits_lt b) (checksum_lt b)
  · rw [toPhrase, fromPhrase_reversed h, hsame, if_neg (not_not.mpr rfl)]

/-- Three letters for each number. -/
def letterWord (i : ℕ) : List Char := [i / 676, i / 26 % 26, i % 26].map fun k => Char.ofNat (97 + k)

theorem letter_spec {k : ℕ} (h : k < 26) : (Char.ofNat (97 + k)).toNat = 97 + k ∧ IsLetter (Char.ofNat (97 + k)) := by
  have hall : ∀ k < 26, (Char.ofNat (97 + k)).toNat = 97 + k ∧ 'a' ≤ Char.ofNat (97 + k) ∧ Char.ofNat (97 + k) ≤ 'z' := by
    decide
  exact hall k h

def letterWords : WordList where
  words := (List.range 2048).map letterWord
  length_eq := by rw [List.length_map, List.length_range]
  nodup := by
    refine List.nodup_range.map_on fun i hi j hj heq => ?_
    have hi := List.mem_range.mp hi
    have hj := List.mem_range.mp hj
    simp only [letterWord, List.map_cons, List.map_nil, List.cons.injEq, and_true] at heq
    obtain ⟨h₁, h₂, h₃⟩ := heq
    have h₁ := congrArg Char.toNat h₁
    have h₂ := congrArg Char.toNat h₂
    have h₃ := congrArg Char.toNat h₃
    rw [(letter_spec (by omega)).1, (letter_spec (by omega)).1] at h₁ h₂ h₃
    omega
  letters := by
    intro w hw
    obtain ⟨i, hi, rfl⟩ := List.mem_map.mp hw
    have hi := List.mem_range.mp hi
    refine ⟨by simp [letterWord], fun c hc => ?_⟩
    obtain ⟨k, hk, rfl⟩ := List.mem_map.mp hc
    simp only [List.mem_cons, List.not_mem_nil, or_false] at hk
    exact (letter_spec (by omega)).2

/-- The letters of ASCII in lower case. -/
def asciiLower : Lowercase where
  map w := w.map Char.toLower
  letters w hw := by
    refine (List.map_congr_left fun c hc => ?_).trans (List.map_id' w)
    have hletter : 97 ≤ c.toNat := (hw c hc).1
    unfold Char.toLower
    split
    next hupper =>
      have hle : c.toNat ≤ 90 := hupper.2
      omega
    next => rfl

/-- The first bits of the hash are 1001. -/
theorem fours_round_trip : RoundTrips Sha256.sha256 letterWords asciiLower (List.replicate 16 4) :=
  (round_trips_iff (by decide)).mpr (by rw [← Sha256.runSha256_eq]; decide +kernel)

/-- The first bits of the hash of zeros are 0011, and the last word is that of 1100. -/
theorem zeros_not_round_trip : ¬ RoundTrips Sha256.sha256 letterWords asciiLower (List.replicate 16 0) := by
  intro hround
  have hsame := hround.palindrome (by decide)
  rw [← Sha256.runSha256_eq] at hsame
  revert hsame
  decide +kernel

end Checksums

end KuberCoin.Mnemonics
