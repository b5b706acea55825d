import KuberCoin.FailingPrograms
import Mathlib.Computability.Language
import Mathlib.Data.List.DropRight
import Mathlib.Data.List.TakeWhile
import Mathlib.Order.CompletePartialOrder
import Mathlib.Data.Nat.Digits.Defs

/-!
Readers of texts: programs that take characters from the front of a text, and fail or return
what they have read. `Reads` says that what a reader takes is a text of what it returns;
`Takes` says that it does take the texts of a language, whatever may follow them. The last
part is about two kinds of text, numbers in decimal digits and bytes in hexadecimal ones.
-/
namespace KuberCoin.TextReaders

open FailingPrograms

/-- A reader leaves the text that it has not taken. -/
abbrev Reader (ε : Type) := StateT (List Char) (Except ε)

variable {ε α β : Type}

section Readers

/-- The longest front of such characters. -/
def readWhile (p : Char → Bool) : Reader ε (List Char) := fun s => .ok (s.takeWhile p, s.dropWhile p)

def peek : Reader ε (Option Char) := fun s => .ok (s.head?, s)

/-- The next character, which has to be this one; the errors of another one and of none. -/
def readChar (c : Char) (other atEnd : ε) : Reader ε Unit := fun s =>
  match s with
  | [] => .error atEnd
  | d :: rest => if d = c then .ok ((), rest) else .error other

end Readers

section Reading

variable {r r' : Reader ε α} {f : α → Reader ε β} {P P' : α → Language Char} {R : β → Language Char}

/-- What the reader takes is a text of what it returns. -/
def Reads (r : Reader ε α) (P : α → Language Char) : Prop :=
  ∀ s, Ensures r s fun a rest => ∃ t ∈ P a, t ++ rest = s

theorem Reads.mono (h : Reads r P) (weaker : ∀ a, P a ≤ P' a) : Reads r P' := fun s =>
  (h s).mono fun a _ ⟨t, ht, hs⟩ => ⟨t, weaker a ht, hs⟩

/-- What a first part has taken stands in front of what the second one takes. -/
theorem Reads.bind (h : Reads r P) (h' : ∀ a, ∀ u ∈ P a, Reads (f a) fun b => {v | u ++ v ∈ R b}) :
    Reads (r >>= f) R := by
  intro s
  rw [ensures_bind]
  refine (h s).mono fun a rest hread => ?_
  obtain ⟨u, hu, rfl⟩ := hread
  refine (h' a u hu rest).mono fun b rest' hread => ?_
  obtain ⟨v, hv, rfl⟩ := hread
  exact ⟨u ++ v, hv, List.append_assoc u v rest'⟩

theorem reads_pure (a : α) (hP : [] ∈ P a) : Reads (pure a : Reader ε α) P := by
  intro s
  rw [ensures_pure]
  exact ⟨[], hP, rfl⟩

theorem reads_get {f : List Char → Reader ε β} (h : ∀ text, Reads (f text) R) : Reads (get >>= f) R := fun s => h s s

theorem reads_end {R : α → Language Char} {u : List Char} (a : α) (hu : u ∈ R a) :
    Reads (pure a : Reader ε α) fun b => {v | u ++ v ∈ R b} :=
  reads_pure a (by
    show u ++ [] ∈ R a
    rw [List.append_nil]
    exact hu)

theorem reads_throw (e : ε) : Reads (throw e : Reader ε α) P := fun _ => ensures_throw.mpr trivial

theorem Reads.ite {c : Prop} [Decidable c] (h : c → Reads r P) (h' : ¬ c → Reads r' P) :
    Reads (if c then r else r') P := by
  split
  next hc => exact h hc
  next hc => exact h' hc

theorem reads_while (p : Char → Bool) :
    Reads (readWhile p : Reader ε (List Char)) fun u => {t | t = u ∧ ∀ c ∈ t, p c = true} := by
  rintro s _ _ ⟨⟩
  exact ⟨s.takeWhile p, ⟨rfl, fun c hc => List.mem_takeWhile_imp hc⟩, List.takeWhile_append_dropWhile⟩

theorem reads_peek : Reads (peek : Reader ε (Option Char)) fun _ => 1 := by
  rintro s _ _ ⟨⟩
  exact ⟨[], rfl, rfl⟩

theorem reads_char (c : Char) (other atEnd : ε) : Reads (readChar c other atEnd) fun _ => {[c]} := by
  intro s _ rest h
  cases s with
  | nil => cases h
  | cons d s =>
    by_cases heq : d = c
    · simp only [readChar, if_pos heq] at h
      cases h
      exact ⟨[c], rfl, by rw [heq, List.singleton_append]⟩
    · simp only [readChar, if_neg heq] at h
      cases h

end Reading

section Taking

variable {n : ℕ} {r : Reader ε α} {f : α → Reader ε β} {a : α} {b : β} {L L' : Language Char}
  {ends ends' : List Char → Prop}

/-- The reader takes the texts of up to `n` characters and returns `a`, whatever may come after. -/
def Takes (n : ℕ) (r : Reader ε α) (L : Language Char) (a : α) (ends : List Char → Prop) : Prop :=
  ∀ t ∈ L, t.length ≤ n → ∀ rest, ends rest → r (t ++ rest) = .ok (a, rest)

theorem Takes.bind (h : Takes n r L a ends) (h' : Takes n (f a) L' b ends')
    (hends : ∀ t ∈ L', ∀ rest, ends' rest → ends (t ++ rest)) : Takes n (r >>= f) (L * L') b ends' := by
  intro t ht hn rest hrest
  obtain ⟨u, hu, v, hv, rfl⟩ := Language.mem_mul.mp ht
  rw [List.length_append] at hn
  rw [List.append_assoc, bind_of_ok (h u hu (by omega) _ (hends v hv rest hrest))]
  exact h' v hv (by omega) rest hrest

theorem takes_pure (a : α) : Takes n (pure a : Reader ε α) 1 a ends := by
  intro t ht _ rest _
  rw [(Language.mem_one t).mp ht]
  rfl

theorem Takes.single (h : Takes n r L a ends) {t : List Char} (ht : t ∈ L) : Takes n r {t} a ends := by
  intro u hu
  rw [show u = t from hu]
  exact h t ht

theorem takes_while (p : Char → Bool) (t : List Char) (ht : ∀ c ∈ t, p c = true) :
    Takes n (readWhile p : Reader ε (List Char)) {t} t fun rest => ∀ c ∈ rest.head?, p c = false := by
  rintro _ rfl _ rest hrest
  have hempty : rest.takeWhile p = [] ∧ rest.dropWhile p = rest := by
    cases rest with
    | nil => exact ⟨rfl, rfl⟩
    | cons c rest =>
      have hc : p c = false := hrest c rfl
      simp [hc]
  rw [readWhile, List.takeWhile_append_of_pos ht, List.dropWhile_append_of_pos ht, hempty.1, hempty.2, List.append_nil]

/-- Texts of such characters, each before something else, are told apart. -/
theorem append_unique {p : Char → Bool} {t u x y : List Char} (ht : ∀ c ∈ t, p c = true) (hu : ∀ c ∈ u, p c = true)
    (hx : ∀ c ∈ x.head?, p c = false) (hy : ∀ c ∈ y.head?, p c = false) (h : t ++ x = u ++ y) : t = u ∧ x = y := by
  have hread : (readWhile p : Reader Unit (List Char)) (t ++ x) = .ok (t, x) := takes_while p t ht t rfl le_rfl x hx
  have hread' : (readWhile p : Reader Unit (List Char)) (u ++ y) = .ok (u, y) := takes_while p u hu u rfl le_rfl y hy
  rw [h, hread'] at hread
  cases hread
  exact ⟨rfl, rfl⟩

theorem peek_bind {f : Option Char → Reader ε β} {s : List Char} : (peek >>= f) s = f s.head? s := rfl

theorem takes_char (c : Char) (other atEnd : ε) : Takes n (readChar c other atEnd) {[c]} () fun _ => True := by
  rintro _ rfl _ rest _
  rw [List.singleton_append, readChar, if_pos rfl]

end Taking

section Numbers

def decimal (t : List Char) : ℕ := Nat.ofDigitChars 10 t 0

/-- The digits of a number, with zeros in front of it or without. -/
def numberTexts (v : ℕ) : Language Char := {t | t ≠ [] ∧ (∀ c ∈ t, c.isDigit = true) ∧ decimal t = v}

theorem toDigits_mem_numberTexts (v : ℕ) : Nat.toDigits 10 v ∈ numberTexts v :=
  ⟨Nat.toDigits_ne_nil, fun _ hc => Nat.isDigit_of_mem_toDigits (by decide) (by decide) hc, Nat.ofDigitChars_ten_toDigits⟩

/-- `str::parse` for an unsigned number of some width: digits, perhaps with a plus sign in front. -/
def parseUnsigned (width : ℕ) (text : List Char) : Option ℕ :=
  let digits := if text.head? = some '+' then text.tail else text
  if digits.isEmpty || !digits.all Char.isDigit then none
  else if decimal digits < 2 ^ width then some (decimal digits) else none

end Numbers

section Hex

variable {c : Char} {t : List Char} {bytes : List UInt8}

def isHexDigit (c : Char) : Bool := "0123456789abcdefABCDEF".toList.contains c

def lowerHex (c : Char) : Char :=
  if c = 'A' then 'a' else if c = 'B' then 'b' else if c = 'C' then 'c'
  else if c = 'D' then 'd' else if c = 'E' then 'e' else if c = 'F' then 'f' else c

/-- Two digits for a byte, the letters in lower case. -/
def hexText (bytes : List UInt8) : List Char :=
  bytes.flatMap fun b => [Nat.digitChar (b.toNat / 16), Nat.digitChar (b.toNat % 16)]

/-- The digits of bytes, the letters in lower or upper case. -/
def HexText (bytes : List UInt8) (t : List Char) : Prop := t.map lowerHex = hexText bytes

def hexValue (c : Char) : ℕ := "0123456789abcdef".toList.idxOf (lowerHex c)

/-- The bytes of hexadecimal digits, of which there has to be an even number. -/
def decodeHex : List Char → Option (List UInt8)
  | [] => some []
  | [_] => none
  | c :: d :: rest => (decodeHex rest).map fun bytes => UInt8.ofNat (16 * hexValue c + hexValue d) :: bytes

theorem hexDigit_value : ∀ c ∈ "0123456789abcdefABCDEF".toList,
    hexValue c < 16 ∧ Nat.digitChar (hexValue c) = lowerHex c := by
  have hall : ("0123456789abcdefABCDEF".toList.all fun c =>
      hexValue c < 16 ∧ Nat.digitChar (hexValue c) = lowerHex c) = true := by decide
  exact fun c hc => of_decide_eq_true (List.all_eq_true.mp hall c hc)

theorem isHexDigit_iff : isHexDigit c = true ↔ c ∈ "0123456789abcdefABCDEF".toList := by
  rw [isHexDigit, List.contains_iff_mem]

theorem isHexDigit_of_digit (h : c.isDigit = true) : isHexDigit c = true := by
  have hall : ∀ i < 10, Char.ofNat (48 + i) ∈ "0123456789abcdefABCDEF".toList := by decide
  have hbounds : 48 ≤ c.toNat ∧ c.toNat ≤ 57 := by
    simp only [Char.isDigit, Bool.and_eq_true, decide_eq_true_eq] at h
    exact ⟨h.1, h.2⟩
  have hmem := hall (c.toNat - 48) (by omega)
  rw [Nat.add_sub_cancel' hbounds.1, Char.ofNat_toNat] at hmem
  exact isHexDigit_iff.mpr hmem

theorem isHexDigit_of_lower {v : ℕ} (hv : v < 16) (h : lowerHex c = Nat.digitChar v) :
    isHexDigit c = true ∧ hexValue c = v := by
  have hlower : ∀ v < 16, Nat.digitChar v ∈ "0123456789abcdef".toList ∧
      "0123456789abcdef".toList.idxOf (Nat.digitChar v) = v := by decide
  obtain ⟨hmem, hindex⟩ := hlower v hv
  refine ⟨isHexDigit_iff.mpr ?_, by rw [hexValue, h, hindex]⟩
  have hsub : "0123456789abcdef".toList ⊆ "0123456789abcdefABCDEF".toList := by decide
  unfold lowerHex at h
  split_ifs at h with hA hB hC hD hE hF
  all_goals first | (subst_vars; decide) | exact hsub (h ▸ hmem)

theorem decodeHex_eq_some (hdigits : ∀ c ∈ t, isHexDigit c = true) (h : decodeHex t = some bytes) :
    HexText bytes t := by
  induction t using decodeHex.induct generalizing bytes with
  | case1 =>
    cases h
    rfl
  | case2 c => cases h
  | case3 c d rest ih =>
    rw [decodeHex] at h
    obtain ⟨later, hlater, rfl⟩ := Option.map_eq_some_iff.mp h
    obtain ⟨hc, hcd⟩ := hexDigit_value c (isHexDigit_iff.mp (hdigits c (by simp)))
    obtain ⟨hd, hdd⟩ := hexDigit_value d (isHexDigit_iff.mp (hdigits d (by simp)))
    have hrest := ih (fun e he => hdigits e (by simp [he])) hlater
    have hbyte : (UInt8.ofNat (16 * hexValue c + hexValue d)).toNat = 16 * hexValue c + hexValue d := by
      rw [UInt8.toNat_ofNat', Nat.mod_eq_of_lt (by omega)]
    unfold HexText at hrest ⊢
    rw [List.map_cons, List.map_cons, hrest, hexText, hexText, List.flatMap_cons, hbyte,
      show (16 * hexValue c + hexValue d) / 16 = hexValue c by omega,
      show (16 * hexValue c + hexValue d) % 16 = hexValue d by omega, hcd, hdd]
    rfl

theorem HexText.decode (h : HexText bytes t) : (∀ c ∈ t, isHexDigit c = true) ∧ decodeHex t = some bytes := by
  induction bytes generalizing t with
  | nil =>
    rw [HexText, hexText, List.flatMap_nil, List.map_eq_nil_iff] at h
    subst h
    exact ⟨by simp, rfl⟩
  | cons b bytes ih =>
    rw [HexText, hexText, List.flatMap_cons, List.cons_append, List.cons_append, List.nil_append,
      List.map_eq_cons_iff] at h
    obtain ⟨c, t, rfl, hc, h⟩ := h
    obtain ⟨d, later, rfl, hd, h⟩ := List.map_eq_cons_iff.mp h
    have hlt := b.toNat_lt
    obtain ⟨hcdigit, hcvalue⟩ := isHexDigit_of_lower (by omega) hc
    obtain ⟨hddigit, hdvalue⟩ := isHexDigit_of_lower (by omega) hd
    obtain ⟨hdigits, hdecode⟩ := ih h
    refine ⟨List.forall_mem_cons.mpr ⟨hcdigit, List.forall_mem_cons.mpr ⟨hddigit, hdigits⟩⟩, ?_⟩
    rw [decodeHex, hdecode, hcvalue, hdvalue, Option.map_some, Nat.div_add_mod, UInt8.ofNat_toNat]

theorem length_hexText (bytes : List UInt8) : (hexText bytes).length = 2 * bytes.length := by
  induction bytes with
  | nil => rfl
  | cons b bytes ih =>
    rw [hexText, List.flatMap_cons, List.length_append]
    show 2 + (hexText bytes).length = 2 * (bytes.length + 1)
    omega

theorem lower_hexText (hc : c ∈ hexText bytes) : isHexDigit c = true ∧ lowerHex c = c := by
  have hlower : ∀ v < 16, isHexDigit (Nat.digitChar v) = true ∧ lowerHex (Nat.digitChar v) = Nat.digitChar v := by decide
  obtain ⟨b, -, hb⟩ := List.mem_flatMap.mp hc
  have hlt := b.toNat_lt
  simp only [List.mem_cons, List.not_mem_nil, or_false] at hb
  obtain rfl | rfl := hb
  · exact hlower _ (by omega)
  · exact hlower _ (by omega)

theorem decodeHex_eq_some_iff (hdigits : ∀ c ∈ t, isHexDigit c = true) :
    decodeHex t = some bytes ↔ t.map lowerHex = hexText bytes :=
  ⟨decodeHex_eq_some hdigits, fun h => (HexText.decode h).2⟩

end Hex

end KuberCoin.TextReaders
