import KuberCoin.Miniscripts
import KuberCoin.TextPieces
import KuberCoin.TextReaders

/-!
The text of miniscript expressions (crate `tx`, `miniscript.rs`): the parser on its cursor and
the display. An expression is a list of tokens, and a way of spelling says which texts a
token has: the display has one, the parser takes more, with blanks, letters of either case and
zeros in front. The parser stops at the end of an expression, whatever follows, and cuts the
number of a lock to 32 bits.
-/
namespace KuberCoin.MiniscriptTexts

open Bytes Transactions FailingPrograms Miniscripts TextReaders
open TextPieces (isWhitespace)

inductive MiniscriptError
  | unexpectedEnd
  | expected (text : List Char)
  | unknownFragment (name : List Char)
  | invalidNumber
  | invalidHex
  | invalidThreshold
  deriving DecidableEq

section Characters

/-- `char::is_alphanumeric`; of the Unicode table only what it says of ASCII and of blanks. -/
structure Alphanumeric where
  test : Char → Bool
  ascii : ∀ c : Char, c.toNat < 128 → test c = c.isAlphanum
  not_whitespace : ∀ c, isWhitespace c = true → test c = false

/-- The `hex` crate: lower case digits are written, digits of either case are read. -/
structure HexCodec where
  encode : List UInt8 → List Char
  decode : List Char → Option (List UInt8)
  encode_length : ∀ bytes, (encode bytes).length = 2 * bytes.length
  encode_digits : ∀ bytes, ∀ c ∈ encode bytes, isHexDigit c = true ∧ lowerHex c = c
  decode_eq_some_iff : ∀ t bytes, (∀ c ∈ t, isHexDigit c = true) →
    (decode t = some bytes ↔ t.map lowerHex = encode bytes)

end Characters

abbrev Cursor := Reader MiniscriptError

section Parser

variable {α : Type} (alnum : Alphanumeric) (codec : HexCodec)

def expect (ch : Char) : Cursor Unit := readChar ch (.expected [ch]) (.expected [ch])

def readIdent : Cursor (List Char) := readWhile fun c => alnum.test c || c == '_'

def readNumber : Cursor UInt64 := do
  let digits ← readWhile Char.isDigit
  if digits = [] ∨ 2 ^ 64 ≤ decimal digits then throw .invalidNumber else return UInt64.ofNat (decimal digits)

def readHex : Cursor (List UInt8) := do
  let digits ← readWhile isHexDigit
  match codec.decode digits with
  | some bytes => return bytes
  | none => throw .invalidHex

def skipWs : Cursor Unit := do
  let _ ← readWhile isWhitespace

def parseHash (length : ℕ) : Cursor { bytes : List UInt8 // bytes.length = length } := do
  let bytes ← readHex codec
  if h : bytes.length = length then return ⟨bytes, h⟩ else throw .invalidHex

def parseHash32 : Cursor Bytes32 := do
  let ⟨bytes, hlength⟩ ← parseHash codec 32
  return ⟨bytes, hlength⟩

def parseHash20 : Cursor Bytes20 := do
  let ⟨bytes, hlength⟩ ← parseHash codec 20
  return ⟨bytes, hlength⟩

/-- A fragment with one argument. -/
def parseUnary (argument : Cursor α) (fragment : α → Miniscript) : Cursor Miniscript := do
  expect '('
  let x ← argument
  expect ')'
  return fragment x

def parseBinary (node : Cursor Miniscript) (fragment : Miniscript → Miniscript → Miniscript) :
    Cursor Miniscript := do
  expect '('
  let x ← node
  skipWs
  expect ','
  let y ← node
  expect ')'
  return fragment x y

/-- The loop over the items after a threshold, up to the closing bracket. -/
def parseItems (item : Cursor α) : ℕ → Cursor (List α)
  | 0 => throw .unexpectedEnd
  | n + 1 => do
    skipWs
    if (← peek) = some ')' then return []
    else do
      expect ','
      let x ← item
      let xs ← parseItems item n
      return x :: xs

/-- A threshold and as many items as the text can hold. -/
def parseThreshold (item : Cursor α) (fragment : UInt64 → List α → Miniscript) : Cursor Miniscript := do
  expect '('
  let k ← readNumber
  let text ← get
  let subs ← parseItems item (text.length + 1)
  expect ')'
  if k < 1 ∨ subs.length < k.toNat then throw .invalidThreshold else return fragment k subs

def parseKey : Cursor (List UInt8) := do
  skipWs
  readHex codec

def fragments (node : Cursor Miniscript) : List (List Char × Cursor Miniscript) :=
  [("pk".toList, parseUnary (readHex codec) .pk),
    ("pk_h".toList, parseUnary (readHex codec) .pkH),
    ("older".toList, parseUnary readNumber fun n => .older n.toUInt32),
    ("after".toList, parseUnary readNumber fun n => .after n.toUInt32),
    ("sha256".toList, parseUnary (parseHash32 codec) .sha256),
    ("hash256".toList, parseUnary (parseHash32 codec) .hash256),
    ("hash160".toList, parseUnary (parseHash20 codec) .hash160),
    ("ripemd160".toList, parseUnary (parseHash20 codec) .ripemd160),
    ("and_v".toList, parseBinary node .andV),
    ("and_b".toList, parseBinary node .andB),
    ("or_b".toList, parseBinary node .orB),
    ("or_d".toList, parseBinary node .orD),
    ("thresh".toList, parseThreshold node .thresh),
    ("multi".toList, parseThreshold (parseKey codec) .multi)]

/-- Nodes nested up to a depth, which the length of the text bounds. -/
def parseNode : ℕ → Cursor Miniscript
  | 0 => throw .unexpectedEnd
  | depth + 1 => do
    skipWs
    let ident ← readIdent alnum
    skipWs
    match (fragments codec (parseNode depth)).lookup ident with
    | some fragment => fragment
    | none => throw (if ident = [] then .unexpectedEnd else .unknownFragment ident)

def parse (input : List Char) : Except MiniscriptError Miniscript :=
  (parseNode alnum codec (input.length + 1) input).map Prod.fst

/-- A name with its arguments in brackets. -/
def written (name arguments : List Char) : List Char := name ++ '(' :: (arguments ++ [')'])

mutual

def display : Miniscript → List Char
  | .pk key => written "pk".toList (codec.encode key)
  | .pkH hash => written "pk_h".toList (codec.encode hash)
  | .older n => written "older".toList (Nat.toDigits 10 n.toNat)
  | .after n => written "after".toList (Nat.toDigits 10 n.toNat)
  | .sha256 hash => written "sha256".toList (codec.encode hash.bytes)
  | .hash256 hash => written "hash256".toList (codec.encode hash.bytes)
  | .hash160 hash => written "hash160".toList (codec.encode hash.bytes)
  | .ripemd160 hash => written "ripemd160".toList (codec.encode hash.bytes)
  | .andV x y => written "and_v".toList (display x ++ ',' :: display y)
  | .andB x y => written "and_b".toList (display x ++ ',' :: display y)
  | .orB x z => written "or_b".toList (display x ++ ',' :: display z)
  | .orD x z => written "or_d".toList (display x ++ ',' :: display z)
  | .thresh k subs => written "thresh".toList (Nat.toDigits 10 k.toNat ++ displayItems subs)
  | .multi k keys =>
      written "multi".toList (Nat.toDigits 10 k.toNat ++ keys.flatMap fun key => ',' :: codec.encode key)
  | .just op => written "just".toList ('0' :: 'x' :: hexText [op])

def displayItems : List Miniscript → List Char
  | [] => []
  | s :: rest => ',' :: display s ++ displayItems rest

end

end Parser

section Spellings

variable (codec : HexCodec)

inductive Token
  | blank
  | word (w : List Char)
  | hex (bytes : List UInt8)
  | number (k : UInt64)
  | lock (n : UInt32)

/-- The texts of the tokens that can be spelled in more than one way. -/
structure Spelling where
  blank : Language Char
  hex : List UInt8 → Language Char
  number : UInt64 → Language Char
  lock : UInt32 → Language Char

/-- The spelling of the display. -/
def Spelling.exact : Spelling where
  blank := 1
  hex bytes := {codec.encode bytes}
  number k := {Nat.toDigits 10 k.toNat}
  lock n := {Nat.toDigits 10 n.toNat}

/-- The spelling of the display up to the case of hex letters and the zeros in front of numbers. -/
def Spelling.alike : Spelling where
  blank := 1
  hex bytes := {t | t.map lowerHex = codec.encode bytes}
  number k := numberTexts k.toNat
  lock n := numberTexts n.toNat

/-- What the parser reads, where the number of a lock is below a limit. -/
def Spelling.accepted (limit : ℕ) : Spelling where
  blank := {t | ∀ c ∈ t, isWhitespace c = true}
  hex bytes := {t | (∀ c ∈ t, isHexDigit c = true) ∧ codec.decode t = some bytes}
  number k := numberTexts k.toNat
  lock n := {t | ∃ v < limit, t ∈ numberTexts v ∧ UInt32.ofNat v = n}

abbrev Spelling.parsed : Spelling := .accepted codec (2 ^ 64)

def Token.texts (S : Spelling) : Token → Language Char
  | .blank => S.blank
  | .word w => {w}
  | .hex bytes => S.hex bytes
  | .number k => S.number k
  | .lock n => S.lock n

def texts (S : Spelling) (ts : List Token) : Language Char := (ts.map (Token.texts S)).prod

def bracketed (arguments : List Token) : List Token := .word ['('] :: arguments ++ [.word [')']]

def named (name : List Char) (arguments : List Token) : List Token :=
  [.blank, .word name, .blank] ++ bracketed arguments

def pairTokens (x y : List Token) : List Token := x ++ [.blank, .word [',']] ++ y

def itemTokens {α : Type} (f : α → List Token) (items : List α) : List Token :=
  items.flatMap fun item => [.blank, .word [',']] ++ f item

def keyTokens (key : List UInt8) : List Token := [.blank, .hex key]

mutual

def tokens : Miniscript → List Token
  | .pk key => named "pk".toList [.hex key]
  | .pkH hash => named "pk_h".toList [.hex hash]
  | .older n => named "older".toList [.lock n]
  | .after n => named "after".toList [.lock n]
  | .sha256 hash => named "sha256".toList [.hex hash.bytes]
  | .hash256 hash => named "hash256".toList [.hex hash.bytes]
  | .hash160 hash => named "hash160".toList [.hex hash.bytes]
  | .ripemd160 hash => named "ripemd160".toList [.hex hash.bytes]
  | .andV x y => named "and_v".toList (pairTokens (tokens x) (tokens y))
  | .andB x y => named "and_b".toList (pairTokens (tokens x) (tokens y))
  | .orB x z => named "or_b".toList (pairTokens (tokens x) (tokens z))
  | .orD x z => named "or_d".toList (pairTokens (tokens x) (tokens z))
  | .thresh k subs => named "thresh".toList (.number k :: tokensAll subs ++ [.blank])
  | .multi k keys =>
      named "multi".toList (.number k :: itemTokens keyTokens keys ++ [.blank])
  | .just op => named "just".toList [.word ('0' :: 'x' :: hexText [op])]

def tokensAll : List Miniscript → List Token
  | [] => []
  | s :: rest => [.blank, .word [',']] ++ tokens s ++ tokensAll rest

end

/-- No `just`, and in every threshold `1 <= k <= n`. -/
inductive Shaped : Miniscript → Prop
  | pk (key) : Shaped (.pk key)
  | pkH (hash) : Shaped (.pkH hash)
  | older (n) : Shaped (.older n)
  | after (n) : Shaped (.after n)
  | sha256 (hash) : Shaped (.sha256 hash)
  | hash256 (hash) : Shaped (.hash256 hash)
  | hash160 (hash) : Shaped (.hash160 hash)
  | ripemd160 (hash) : Shaped (.ripemd160 hash)
  | andV {x y} : Shaped x → Shaped y → Shaped (.andV x y)
  | andB {x y} : Shaped x → Shaped y → Shaped (.andB x y)
  | orB {x z} : Shaped x → Shaped z → Shaped (.orB x z)
  | orD {x z} : Shaped x → Shaped z → Shaped (.orD x z)
  | thresh {k : UInt64} {subs} : 1 ≤ k → k.toNat ≤ subs.length → (∀ s ∈ subs, Shaped s) → Shaped (.thresh k subs)
  | multi {k : UInt64} {keys} : 1 ≤ k → k.toNat ≤ keys.length → Shaped (.multi k keys)

/-- The texts of an expression. -/
def Spelled (S : Spelling) (m : Miniscript) : Language Char := texts S (tokens m)

def stripped (t : List Char) : List Char := t.filter fun c => ! isWhitespace c

/-- The text is the display up to blanks, the case of hex letters and the zeros in front of numbers. -/
def Alike (s : List Char) (m : Miniscript) : Prop := stripped s ∈ Spelled (.alike codec) m

@[simp] theorem texts_nil (S : Spelling) : texts S [] = 1 := rfl

@[simp] theorem texts_cons (S : Spelling) (t : Token) (ts : List Token) :
    texts S (t :: ts) = t.texts S * texts S ts := by
  simp [texts]

@[simp] theorem texts_append (S : Spelling) (ts us : List Token) : texts S (ts ++ us) = texts S ts * texts S us := by
  simp [texts]

theorem tokensAll_eq (subs : List Miniscript) : tokensAll subs = itemTokens tokens subs := by
  induction subs with
  | nil => rfl
  | cons s rest ih =>
    rw [tokensAll, ih]
    rfl

end Spellings

section Reading

variable {α : Type} {alnum : Alphanumeric} {codec : HexCodec} {name : List Char} {node : Cursor Miniscript}
  {item : Cursor α} {good : α → Prop} {f : α → List Token}

theorem reads_expect (c : Char) : Reads (expect c) fun _ => {[c]} := reads_char c _ _

theorem reads_skipWs : Reads skipWs fun _ => (Spelling.parsed codec).blank := by
  refine (reads_while isWhitespace).bind fun u t hu => ?_
  exact reads_end () hu.2

theorem reads_hex : Reads (readHex codec) (Spelling.parsed codec).hex := by
  refine (reads_while isHexDigit).bind fun u t hu => ?_
  obtain ⟨rfl, hdigits⟩ := hu
  cases hdecode : codec.decode t with
  | none => exact reads_throw _
  | some bytes =>
    exact reads_end bytes ⟨hdigits, hdecode⟩

theorem reads_number : Reads readNumber (Spelling.parsed codec).number := by
  refine (reads_while Char.isDigit).bind fun u t hu => ?_
  obtain ⟨rfl, hdigits⟩ := hu
  refine Reads.ite (fun _ => reads_throw _) fun hfits => ?_
  push Not at hfits
  exact reads_end (UInt64.ofNat (decimal t)) ⟨hfits.1, hdigits, (UInt64.toNat_ofNat_of_lt' hfits.2).symm⟩

theorem reads_lock : Reads readNumber fun k => (Spelling.parsed codec).lock k.toUInt32 :=
  (@reads_number codec).mono fun k _ ht => ⟨k.toNat, k.toNat_lt, ht, rfl⟩

theorem reads_hash (length : ℕ) : Reads (parseHash codec length) fun hash => (Spelling.parsed codec).hex hash.1 := by
  refine reads_hex.bind fun bytes t ht => ?_
  by_cases hlength : bytes.length = length
  · rw [dif_pos hlength]
    exact reads_end (⟨bytes, hlength⟩ : { bytes : List UInt8 // bytes.length = length }) ht
  · rw [dif_neg hlength]
    exact reads_throw _

theorem reads_hash32 : Reads (parseHash32 codec) fun hash => (Spelling.parsed codec).hex hash.bytes :=
  (reads_hash 32).bind fun hash _ ht => reads_end (⟨hash.1, hash.2⟩ : Bytes32) ht

theorem reads_hash20 : Reads (parseHash20 codec) fun hash => (Spelling.parsed codec).hex hash.bytes :=
  (reads_hash 20).bind fun hash _ ht => reads_end (⟨hash.1, hash.2⟩ : Bytes20) ht

/-- What stands after the name of an expression. -/
def AfterName (codec : HexCodec) (name : List Char) (m : Miniscript) : Language Char :=
  {t | Shaped m ∧ ∃ arguments, tokens m = named name arguments ∧ t ∈ texts (.parsed codec) (bracketed arguments)}

theorem reads_unary {r : Cursor α} {fragment : α → Miniscript} {token : α → Token}
    (hr : Reads r fun a => (token a).texts (.parsed codec)) (hshaped : ∀ a, Shaped (fragment a))
    (htokens : ∀ a, tokens (fragment a) = named name [token a]) :
    Reads (parseUnary r fragment) (AfterName codec name) := by
  refine (reads_expect '(').bind fun _ u hu => hr.bind fun a v hv => (reads_expect ')').bind fun _ w hw => ?_
  refine reads_end (fragment a) ⟨hshaped a, [token a], htokens a, ?_⟩
  simp only [bracketed, texts_cons, texts_nil, mul_one, List.cons_append, List.nil_append]
  exact Language.append_mem_mul hu (Language.append_mem_mul hv hw)

theorem reads_binary {fragment : Miniscript → Miniscript → Miniscript}
    (hnode : Reads node fun m => {t | Shaped m ∧ t ∈ Spelled (.parsed codec) m})
    (hshaped : ∀ {x y}, Shaped x → Shaped y → Shaped (fragment x y))
    (htokens : ∀ x y, tokens (fragment x y) = named name (pairTokens (tokens x) (tokens y))) :
    Reads (parseBinary node fragment) (AfterName codec name) := by
  refine (reads_expect '(').bind fun _ u hu => hnode.bind fun x v hv => (@reads_skipWs codec).bind fun _ b hb =>
    (reads_expect ',').bind fun _ c hc => hnode.bind fun y w hw => (reads_expect ')').bind fun _ d hd => ?_
  refine reads_end (fragment x y) ⟨hshaped hv.1 hw.1, pairTokens (tokens x) (tokens y), htokens x y, ?_⟩
  simp only [bracketed, pairTokens, texts_cons, texts_append, texts_nil, mul_one, List.cons_append, mul_assoc]
  exact Language.append_mem_mul hu (Language.append_mem_mul hv.2 (Language.append_mem_mul hb
    (Language.append_mem_mul hc (Language.append_mem_mul hw.2 hd))))

theorem reads_items (hitem : Reads item fun a => {t | good a ∧ t ∈ texts (.parsed codec) (f a)}) (n : ℕ) :
    Reads (parseItems item n) fun xs =>
      {t | (∀ a ∈ xs, good a) ∧ t ∈ texts (.parsed codec) (itemTokens f xs ++ [.blank])} := by
  induction n with
  | zero => exact reads_throw _
  | succ n ih =>
    refine (@reads_skipWs codec).bind fun _ b hb => reads_peek.bind fun next e he => Reads.ite (fun _ => ?_) fun _ => ?_
    · refine reads_end [] ⟨by simp, ?_⟩
      rw [(Language.mem_one e).mp he, List.append_nil]
      simp only [itemTokens, List.flatMap_nil, List.nil_append, texts_cons, texts_nil, mul_one]
      exact hb
    · refine (reads_expect ',').bind fun _ c hc => hitem.bind fun x u hu => ih.bind fun xs v hv => ?_
      refine reads_end (x :: xs) ⟨List.forall_mem_cons.mpr ⟨hu.1, hv.1⟩, ?_⟩
      rw [(Language.mem_one e).mp he, List.nil_append, itemTokens, List.flatMap_cons]
      simp only [texts_cons, texts_append, texts_nil, mul_one, List.cons_append, List.nil_append, mul_assoc]
      have hv' := hv.2
      simp only [texts_cons, texts_append, texts_nil, mul_one] at hv'
      exact Language.append_mem_mul hb (Language.append_mem_mul hc (Language.append_mem_mul hu.2 hv'))

theorem reads_threshold {fragment : UInt64 → List α → Miniscript}
    (hitem : Reads item fun a => {t | good a ∧ t ∈ texts (.parsed codec) (f a)})
    (hshaped : ∀ {k xs}, 1 ≤ k → k.toNat ≤ xs.length → (∀ x ∈ xs, good x) → Shaped (fragment k xs))
    (htokens : ∀ k xs, tokens (fragment k xs) = named name (.number k :: itemTokens f xs ++ [.blank])) :
    Reads (parseThreshold item fragment) (AfterName codec name) := by
  refine (reads_expect '(').bind fun _ u hu => (@reads_number codec).bind fun k v hv => ?_
  refine reads_get fun text => (reads_items hitem (text.length + 1)).bind fun xs w hw =>
    (reads_expect ')').bind fun _ c hc => Reads.ite (fun _ => reads_throw _) fun hk => ?_
  rw [not_or, UInt64.not_lt, Nat.not_lt] at hk
  refine reads_end (fragment k xs) ⟨hshaped hk.1 hk.2 hw.1, _, htokens k xs, ?_⟩
  have hw' := hw.2
  simp only [bracketed, texts_cons, texts_append, texts_nil, mul_one, List.cons_append, mul_assoc] at hw' ⊢
  rw [← mul_assoc (texts _ (itemTokens f xs))]
  exact Language.append_mem_mul hu (Language.append_mem_mul hv (Language.append_mem_mul hw' hc))

theorem reads_key : Reads (parseKey codec) fun key => texts (.parsed codec) (keyTokens key) := by
  refine (@reads_skipWs codec).bind fun _ b hb => reads_hex.mono fun key t ht => ?_
  simp only [keyTokens, texts_cons, texts_nil, mul_one]
  exact Language.append_mem_mul hb ht

theorem reads_fragments (hnode : Reads node fun m => {t | Shaped m ∧ t ∈ Spelled (.parsed codec) m}) :
    ∀ p ∈ fragments codec node, Reads p.2 (AfterName codec p.1) := by
  have hkey : Reads (parseKey codec) fun key => {t | True ∧ t ∈ texts (.parsed codec) (keyTokens key)} :=
    reads_key.mono fun _ _ ht => ⟨trivial, ht⟩
  have hlock : Reads readNumber fun k => (Token.lock k.toUInt32).texts (.parsed codec) := reads_lock
  simp only [fragments, List.forall_mem_cons, List.not_mem_nil, false_implies, implies_true, and_true]
  refine ⟨reads_unary reads_hex .pk fun _ => rfl, reads_unary reads_hex .pkH fun _ => rfl,
    reads_unary hlock (fun _ => .older _) fun _ => rfl, reads_unary hlock (fun _ => .after _) fun _ => rfl,
    reads_unary reads_hash32 .sha256 fun _ => rfl, reads_unary reads_hash32 .hash256 fun _ => rfl,
    reads_unary reads_hash20 .hash160 fun _ => rfl, reads_unary reads_hash20 .ripemd160 fun _ => rfl,
    reads_binary hnode .andV fun _ _ => rfl, reads_binary hnode .andB fun _ _ => rfl,
    reads_binary hnode .orB fun _ _ => rfl, reads_binary hnode .orD fun _ _ => rfl,
    reads_threshold hnode .thresh fun _ _ => ?_, reads_threshold hkey (fun h h' _ => .multi h h') fun _ _ => rfl⟩
  rw [tokens, tokensAll_eq]

/-- What the parser takes is a text of what it returns. -/
theorem reads_node (depth : ℕ) :
    Reads (parseNode alnum codec depth) fun m => {t | Shaped m ∧ t ∈ Spelled (.parsed codec) m} := by
  induction depth with
  | zero => exact reads_throw _
  | succ depth ih =>
    refine (@reads_skipWs codec).bind fun _ b hb => (reads_while _).bind fun ident u hu => (@reads_skipWs codec).bind fun _ c hc => ?_
    obtain ⟨rfl, -⟩ := hu
    cases hfragment : (fragments codec (parseNode alnum codec depth)).lookup u with
    | none => exact reads_throw _
    | some fragment =>
      obtain ⟨front, back, hsplit, -⟩ := List.lookup_eq_some_iff.mp hfragment
      have hmem : (u, fragment) ∈ fragments codec (parseNode alnum codec depth) := by simp [hsplit]
      refine (reads_fragments ih (u, fragment) hmem).mono fun m t ht => ?_
      obtain ⟨hshaped, arguments, htokens, ht⟩ := ht
      refine ⟨hshaped, ?_⟩
      rw [Spelled, htokens, named]
      simp only [texts_cons, texts_append, texts_nil, mul_one, mul_assoc]
      exact Language.append_mem_mul hb (Language.append_mem_mul rfl (Language.append_mem_mul hc ht))

end Reading

section Taking

variable {α : Type} {alnum : Alphanumeric} {codec : HexCodec} {n : ℕ} {c : Char} {rest t : List Char} {m : Miniscript}
  {f : α → List Token} {xs : List α} {item : Cursor α} {fuel : ℕ}

/-- What may follow an argument: a comma or a closing bracket, after blanks. -/
def Closes (rest : List Char) : Prop := ∀ c ∈ (rest.dropWhile isWhitespace).head?, c = ',' ∨ c = ')'

theorem not_whitespace_of_hexDigit (h : isHexDigit c = true) : isWhitespace c = false ∧ c ≠ ',' ∧ c ≠ ')' := by
  have hall : ("0123456789abcdefABCDEF".toList.all fun c => isWhitespace c = false ∧ c ≠ ',' ∧ c ≠ ')') = true := by
    decide
  exact of_decide_eq_true (List.all_eq_true.mp hall c (isHexDigit_iff.mp h))

theorem Closes.not_hexDigit (h : Closes rest) : ∀ c ∈ rest.head?, isHexDigit c = false := by
  intro c hc
  by_contra hdigit
  obtain ⟨hblank, hcomma, hbracket⟩ := not_whitespace_of_hexDigit (Bool.not_eq_false _ ▸ hdigit)
  cases rest with
  | nil => cases hc
  | cons d rest =>
    cases hc
    have hends := h c (by rw [List.dropWhile_cons_of_neg (by simp [hblank])]; rfl)
    exact hends.elim hcomma hbracket

theorem Closes.not_digit (h : Closes rest) : ∀ c ∈ rest.head?, c.isDigit = false := by
  intro c hc
  have hdigit := mt isHexDigit_of_digit (Bool.not_eq_true _ ▸ h.not_hexDigit c hc)
  exact Bool.not_eq_true _ ▸ hdigit

theorem takes_expect (c : Char) : Takes n (expect c) {[c]} () fun _ => True := takes_char c _ _

theorem expect_cons (c : Char) (rest : List Char) : expect c (c :: rest) = .ok ((), rest) := if_pos rfl

theorem takes_skipWs :
    Takes n skipWs (Spelling.parsed codec).blank () fun rest => ∀ c ∈ rest.head?, isWhitespace c = false := by
  intro t ht hn rest hrest
  rw [skipWs, bind_of_ok (takes_while isWhitespace t ht t rfl hn rest hrest)]
  rfl

theorem takes_hex (bytes : List UInt8) : Takes n (readHex codec) ((Spelling.parsed codec).hex bytes) bytes Closes := by
  intro t ht hn rest hrest
  rw [readHex, bind_of_ok (takes_while isHexDigit t ht.1 t rfl hn rest hrest.not_hexDigit)]
  simp only [ht.2]
  rfl

theorem takes_number {v : ℕ} (hv : v < 2 ^ 64) : Takes n readNumber (numberTexts v) (UInt64.ofNat v) Closes := by
  intro t ht hn rest hrest
  obtain ⟨hne, hdigits, rfl⟩ := ht
  rw [readNumber, bind_of_ok (takes_while Char.isDigit t hdigits t rfl hn rest hrest.not_digit),
    if_neg (not_or.mpr ⟨hne, Nat.not_le.mpr hv⟩)]
  rfl

theorem closes_bracket (ht : t ∈ ({[')']} : Language Char)) (rest : List Char) : Closes (t ++ rest) := by
  rw [show t = [')'] from ht]
  intro c hc
  cases hc
  exact .inr rfl

theorem takes_closing (m : Miniscript) : Takes n (do expect ')'; return m) {[')']} m fun _ => True := by
  have hend : Takes n (do expect ')'; return m) ({[')']} * 1) m fun _ => True :=
    (takes_expect ')').bind (takes_pure m) fun _ _ _ _ => trivial
  rw [mul_one] at hend
  exact hend

theorem takes_hash {length : ℕ} (hash : { bytes : List UInt8 // bytes.length = length }) :
    Takes n (parseHash codec length) ((Spelling.parsed codec).hex hash.1) hash Closes := by
  intro t ht hn rest hrest
  rw [parseHash, bind_of_ok (takes_hex hash.1 t ht hn rest hrest), dif_pos hash.2]
  rfl

theorem takes_hash32 (hash : Bytes32) :
    Takes n (parseHash32 codec) ((Spelling.parsed codec).hex hash.bytes) hash Closes := by
  intro t ht hn rest hrest
  rw [parseHash32, bind_of_ok (takes_hash ⟨hash.bytes, hash.length_eq⟩ t ht hn rest hrest)]
  rfl

theorem takes_hash20 (hash : Bytes20) :
    Takes n (parseHash20 codec) ((Spelling.parsed codec).hex hash.bytes) hash Closes := by
  intro t ht hn rest hrest
  rw [parseHash20, bind_of_ok (takes_hash ⟨hash.bytes, hash.length_eq⟩ t ht hn rest hrest)]
  rfl

theorem takes_unary {r : Cursor α} {fragment : α → Miniscript} {token : Token}
    (hr : ∀ t ∈ token.texts (.parsed codec), ∃ a, fragment a = m ∧ Takes n r {t} a Closes) :
    Takes n (parseUnary r fragment) (texts (.parsed codec) (bracketed [token])) m fun _ => True := by
  simp only [bracketed, texts_cons, texts_nil, mul_one, List.cons_append, List.nil_append]
  refine (takes_expect '(').bind (fun t ht hn rest hrest => ?_) fun _ _ _ _ => trivial
  obtain ⟨u, hu, v, hv, rfl⟩ := Language.mem_mul.mp ht
  obtain ⟨a, rfl, ha⟩ := hr u hu
  exact ha.bind (takes_closing (fragment a)) (fun t ht rest _ => closes_bracket ht rest) (u ++ v)
    (Language.append_mem_mul rfl hv) hn rest hrest

theorem takes_lock {fragment : UInt32 → Miniscript} {lock : UInt32} (ht : t ∈ (Token.lock lock).texts (.parsed codec)) :
    ∃ k : UInt64, fragment k.toUInt32 = fragment lock ∧ Takes n readNumber {t} k Closes := by
  obtain ⟨v, hv, ht, rfl⟩ := ht
  exact ⟨UInt64.ofNat v, by rw [UInt64.toUInt32_ofNat'], (takes_number hv).single ht⟩

theorem takes_binary {node : Cursor Miniscript} {fragment : Miniscript → Miniscript → Miniscript} {x y : Miniscript}
    (hx : Takes n node (Spelled (.parsed codec) x) x fun _ => True)
    (hy : Takes n node (Spelled (.parsed codec) y) y fun _ => True) :
    Takes n (parseBinary node fragment) (texts (.parsed codec) (bracketed (pairTokens (tokens x) (tokens y))))
      (fragment x y) fun _ => True := by
  simp only [bracketed, pairTokens, texts_cons, texts_append, texts_nil, mul_one, List.cons_append, mul_assoc]
  refine (takes_expect '(').bind ?_ fun _ _ _ _ => trivial
  refine hx.bind ?_ fun _ _ _ _ => trivial
  refine (@takes_skipWs codec n).bind ?_ fun t ht rest _ c hc => ?_
  · refine (takes_expect ',').bind ?_ fun _ _ _ _ => trivial
    exact hy.bind (takes_closing (fragment x y)) fun _ _ _ _ => trivial
  · obtain ⟨u, hu, v, hv, rfl⟩ := Language.mem_mul.mp ht
    rw [show u = [','] from hu] at hc
    cases hc
    decide

theorem closes_blank (ht : t ∈ (Spelling.parsed codec).blank) (hrest : Closes rest) : Closes (t ++ rest) := by
  rw [Closes, List.dropWhile_append_of_pos ht]
  exact hrest

theorem closes_cons (hc : c = ',' ∨ c = ')') (rest : List Char) : Closes (c :: rest) := by
  have hblank : isWhitespace c = false := by
    obtain rfl | rfl := hc
    · decide
    · decide
  intro d hd
  rw [List.dropWhile_cons_of_neg (by simp [hblank])] at hd
  cases hd
  exact hc

theorem closes_of_head (hrest : rest.head? = some ')') : Closes rest := by
  cases rest with
  | nil => cases hrest
  | cons c rest =>
    cases hrest
    exact closes_cons (.inr rfl) rest

theorem texts_items_cons (S : Spelling) (f : α → List Token) (x : α) (xs : List α) :
    texts S (itemTokens f (x :: xs) ++ [.blank]) =
      S.blank * ({[',']} * (texts S (f x) * texts S (itemTokens f xs ++ [.blank]))) := by
  simp only [itemTokens, List.flatMap_cons, texts_append, texts_cons, texts_nil, mul_one, mul_assoc]
  rfl

theorem closes_items (ht : t ∈ texts (.parsed codec) (itemTokens f xs ++ [.blank])) (hrest : rest.head? = some ')') :
    Closes (t ++ rest) := by
  cases xs with
  | nil =>
    simp only [itemTokens, List.flatMap_nil, List.nil_append, texts_cons, texts_nil, mul_one] at ht
    exact closes_blank ht (closes_of_head hrest)
  | cons x xs =>
    rw [texts_items_cons] at ht
    obtain ⟨b, hb, u, hu, rfl⟩ := Language.mem_mul.mp ht
    obtain ⟨comma, rfl, v, -, rfl⟩ := Language.mem_mul.mp hu
    rw [List.append_assoc]
    exact closes_blank hb (closes_cons (.inl rfl) _)

/-- The reader takes the texts, with or without some of the blanks that come after them. -/
def TakesItem (n : ℕ) (item : Cursor α) (L : Language Char) (x : α) : Prop :=
  ∀ t ∈ L, t.length ≤ n → ∀ rest, Closes rest →
    ∃ mid, item (t ++ rest) = .ok (x, mid) ∧ mid.dropWhile isWhitespace = rest.dropWhile isWhitespace

theorem parseItems_blank {mid : List Char} (h : mid.dropWhile isWhitespace = rest.dropWhile isWhitespace) :
    parseItems item fuel mid = parseItems item fuel rest := by
  cases fuel with
  | zero => rfl
  | succ fuel =>
    have hskip : ∀ s, skipWs s = .ok ((), s.dropWhile isWhitespace) := fun _ => rfl
    rw [parseItems, bind_of_ok (hskip mid), bind_of_ok (hskip rest), h]

theorem takes_items (hitem : ∀ x ∈ xs, TakesItem n item (texts (.parsed codec) (f x)) x) (hfuel : xs.length < fuel) :
    Takes n (parseItems item fuel) (texts (.parsed codec) (itemTokens f xs ++ [.blank])) xs
      fun rest => rest.head? = some ')' := by
  induction xs generalizing fuel with
  | nil =>
    intro t ht hn rest hrest
    obtain ⟨fuel, rfl⟩ := Nat.exists_eq_succ_of_ne_zero (Nat.pos_iff_ne_zero.mp hfuel)
    simp only [itemTokens, List.flatMap_nil, List.nil_append, texts_cons, texts_nil, mul_one] at ht
    have hends : ∀ c ∈ rest.head?, isWhitespace c = false := by
      rw [hrest]
      intro c hc
      obtain rfl := Option.some.inj hc
      rfl
    rw [parseItems, bind_of_ok (@takes_skipWs codec n t ht hn rest hends), peek_bind, if_pos hrest]
    rfl
  | cons x xs ih =>
    obtain ⟨fuel, rfl⟩ := Nat.exists_eq_succ_of_ne_zero (Nat.ne_of_gt (Nat.zero_lt_of_lt hfuel))
    have hlater := ih (fun y hy => hitem y (List.mem_cons_of_mem x hy)) (Nat.lt_of_succ_lt_succ hfuel)
    intro t ht hn rest hrest
    rw [texts_items_cons] at ht
    obtain ⟨b, hb, u, hu, rfl⟩ := Language.mem_mul.mp ht
    obtain ⟨comma, rfl, v, hv, rfl⟩ := Language.mem_mul.mp hu
    obtain ⟨first, hfirst, later, hlater', rfl⟩ := Language.mem_mul.mp hv
    simp only [List.length_append, List.length_cons, List.length_nil] at hn
    obtain ⟨mid, hread, hmid⟩ := hitem x (List.mem_cons_self ..) first hfirst (by omega) (later ++ rest)
      (closes_items hlater' hrest)
    have hskip := @takes_skipWs codec n b hb (by omega) (',' :: (first ++ (later ++ rest))) (by
      rintro _ ⟨⟩
      decide)
    have hsplit : b ++ ([','] ++ (first ++ later)) ++ rest = b ++ ',' :: (first ++ (later ++ rest)) := by simp
    rw [hsplit, parseItems, bind_of_ok hskip, peek_bind, if_neg (by simp), bind_of_ok (expect_cons ',' _), bind_of_ok hread]
    have hblank := (parseItems_blank hmid).trans (hlater later hlater' (by omega) rest hrest)
    rw [bind_of_ok hblank]
    rfl

theorem length_items_le (ht : t ∈ texts (.parsed codec) (itemTokens f xs ++ [.blank])) : xs.length ≤ t.length := by
  induction xs generalizing t with
  | nil => exact Nat.zero_le _
  | cons x xs ih =>
    rw [texts_items_cons] at ht
    obtain ⟨b, -, u, hu, rfl⟩ := Language.mem_mul.mp ht
    obtain ⟨comma, rfl, v, hv, rfl⟩ := Language.mem_mul.mp hu
    obtain ⟨first, -, later, hlater, rfl⟩ := Language.mem_mul.mp hv
    have hle := ih hlater
    simp only [List.length_append, List.length_cons, List.length_nil]
    omega

theorem takes_threshold {fragment : UInt64 → List α → Miniscript} {k : UInt64}
    (hitem : ∀ x ∈ xs, TakesItem n item (texts (.parsed codec) (f x)) x) (hk : 1 ≤ k) (hk' : k.toNat ≤ xs.length) :
    Takes n (parseThreshold item fragment)
      (texts (.parsed codec) (bracketed (.number k :: itemTokens f xs ++ [.blank]))) (fragment k xs) fun _ => True := by
  have hlast : Takes n (do
      expect ')'
      if k < 1 ∨ xs.length < k.toNat then throw .invalidThreshold else return fragment k xs)
      {[')']} (fragment k xs) fun _ => True := by
    rw [if_neg (not_or.mpr ⟨UInt64.not_lt.mpr hk, Nat.not_lt.mpr hk'⟩)]
    exact takes_closing (fragment k xs)
  have hlanguage : texts (.parsed codec) (bracketed (.number k :: itemTokens f xs ++ [.blank])) =
      {['(']} * (numberTexts k.toNat * (texts (.parsed codec) (itemTokens f xs ++ [.blank]) * {[')']})) := by
    simp only [bracketed, texts_cons, texts_append, texts_nil, mul_one, List.cons_append, mul_assoc]
    rfl
  rw [hlanguage]
  refine (takes_expect '(').bind ?_ fun _ _ _ _ => trivial
  have hnumber := @takes_number n k.toNat k.toNat_lt
  rw [UInt64.ofNat_toNat] at hnumber
  refine hnumber.bind (fun t ht hn rest hrest => ?_) fun t ht rest _ => ?_
  · obtain ⟨u, hu, v, hv, rfl⟩ := Language.mem_mul.mp ht
    have hfuel : xs.length < (u ++ v ++ rest).length + 1 := by
      have hle := length_items_le hu
      simp only [List.length_append]
      omega
    rw [get_bind]
    have hitems : Takes n (do
        let subs ← parseItems item ((u ++ v ++ rest).length + 1)
        expect ')'
        if k < 1 ∨ subs.length < k.toNat then throw .invalidThreshold else return fragment k subs)
        (texts (.parsed codec) (itemTokens f xs ++ [.blank]) * {[')']}) (fragment k xs) fun _ => True := by
      refine (takes_items hitem hfuel).bind hlast fun t ht rest _ => ?_
      rw [show t = [')'] from ht]
      rfl
    exact hitems (u ++ v) ht hn rest trivial
  · obtain ⟨u, hu, v, hv, rfl⟩ := Language.mem_mul.mp ht
    rw [List.append_assoc]
    exact closes_items hu (by rw [show v = [')'] from hv]; rfl)

theorem takesItem_key (key : List UInt8) :
    TakesItem n (parseKey codec) (texts (.parsed codec) (keyTokens key)) key := by
  intro t ht hn rest hrest
  simp only [keyTokens, texts_cons, texts_nil, mul_one] at ht
  obtain ⟨b, hb, u, hu, rfl⟩ := Language.mem_mul.mp ht
  rw [List.length_append] at hn
  cases u with
  | nil =>
    -- the blanks after an empty key are taken for those before it
    have hskip : skipWs (b ++ [] ++ rest) = .ok ((), rest.dropWhile isWhitespace) := by
      rw [List.append_nil, ← List.dropWhile_append_of_pos hb]
      rfl
    refine ⟨rest.dropWhile isWhitespace, ?_, List.dropWhile_idempotent _ _⟩
    rw [parseKey, bind_of_ok hskip]
    have hcloses : Closes (rest.dropWhile isWhitespace) := by
      rw [Closes, List.dropWhile_idempotent]
      exact hrest
    exact takes_hex key [] hu (Nat.zero_le n) _ hcloses
  | cons c u =>
    refine ⟨rest, ?_, rfl⟩
    have hread : Takes n (parseKey codec) ((Spelling.parsed codec).blank * {c :: u}) key Closes := by
      refine (@takes_skipWs codec n).bind (fun t ht => takes_hex key t ?_) fun t ht rest _ d hd => ?_
      · rw [show t = c :: u from ht]
        exact hu
      · rw [show t = c :: u from ht] at hd
        cases hd
        exact (not_whitespace_of_hexDigit (hu.1 c (List.mem_cons_self ..))).1
    exact hread _ (Language.append_mem_mul hb rfl) (by simpa using hn) rest hrest

def nameChars (name : List Char) : Bool :=
  !name.isEmpty && name.all fun c => c.toNat < 128 ∧ (c.isAlphanum ∨ c = '_')

theorem not_whitespace_of_nameChar {c : Char} (h : c.toNat < 128 ∧ (c.isAlphanum ∨ c = '_')) :
    (alnum.test c || c == '_') = true ∧ isWhitespace c = false := by
  obtain ⟨hascii, halnum | rfl⟩ := h
  · have htest := (alnum.ascii c hascii).trans halnum
    refine ⟨by rw [htest, Bool.true_or], ?_⟩
    by_contra hblank
    have hnot := alnum.not_whitespace c (Bool.not_eq_false _ ▸ hblank)
    rw [htest] at hnot
    cases hnot
  · exact ⟨by simp, by decide⟩

theorem ends_name {b : List Char} (hb : ∀ c ∈ b, isWhitespace c = true) (rest : List Char) :
    ∀ c ∈ (b ++ '(' :: rest).head?, (alnum.test c || c == '_') = false := by
  intro c hc
  cases b with
  | nil =>
    cases hc
    rw [alnum.ascii '(' (by decide)]
    decide
  | cons d b =>
    cases hc
    have hblank := hb c (List.mem_cons_self ..)
    have hne : c ≠ '_' := by
      rintro rfl
      cases hblank
    simp [alnum.not_whitespace c hblank, hne]

theorem takes_named {name : List Char} {arguments : List Token} (hname : nameChars name = true)
    (h : ∀ depth, ∃ fragment, (fragments codec (parseNode alnum codec depth)).lookup name = some fragment ∧
      Takes depth fragment (texts (.parsed codec) (bracketed arguments)) m fun _ => True) (depth : ℕ) :
    Takes depth (parseNode alnum codec depth) (texts (.parsed codec) (named name arguments)) m fun _ => True := by
  intro t ht hn rest hrest
  simp only [nameChars, Bool.and_eq_true, Bool.not_eq_true', List.isEmpty_eq_false_iff, List.all_eq_true,
    decide_eq_true_eq] at hname
  obtain ⟨hne, hchars⟩ := hname
  obtain ⟨first, later, rfl⟩ := List.exists_cons_of_ne_nil hne
  simp only [named, texts_append, texts_cons, texts_nil, mul_one, mul_assoc] at ht
  obtain ⟨b, hb, u, hu, rfl⟩ := Language.mem_mul.mp ht
  obtain ⟨name, rfl, v, hv, rfl⟩ := Language.mem_mul.mp hu
  obtain ⟨c, hc, w, hw, rfl⟩ := Language.mem_mul.mp hv
  simp only [List.length_append, List.length_cons] at hn
  cases depth with
  | zero => omega
  | succ depth =>
    obtain ⟨fragment, hlookup, hfragment⟩ := h depth
    have hbracket : ∃ w', w = '(' :: w' := by
      simp only [bracketed, texts_cons, List.cons_append] at hw
      obtain ⟨bracket, rfl, w', -, rfl⟩ := Language.mem_mul.mp hw
      exact ⟨w', rfl⟩
    have hblank : skipWs (b ++ (first :: later ++ (c ++ (w ++ rest)))) = .ok ((), first :: later ++ (c ++ (w ++ rest))) :=
      @takes_skipWs codec depth b hb (by omega) _ fun d hd => by
        cases hd
        exact (@not_whitespace_of_nameChar alnum _ (hchars first (List.mem_cons_self ..))).2
    have hident : readIdent alnum (first :: later ++ (c ++ (w ++ rest))) = .ok (first :: later, c ++ (w ++ rest)) := by
      refine takes_while _ (first :: later) (fun d hd => (not_whitespace_of_nameChar (hchars d hd)).1) _ rfl le_rfl _ ?_
      obtain ⟨w', rfl⟩ := hbracket
      exact ends_name hc (w' ++ rest)
    have hblank' : skipWs (c ++ (w ++ rest)) = .ok ((), w ++ rest) :=
      @takes_skipWs codec depth c hc (by omega) _ fun d hd => by
        obtain ⟨w', rfl⟩ := hbracket
        cases hd
        decide
    have hsplit : b ++ (first :: later ++ (c ++ w)) ++ rest = b ++ (first :: later ++ (c ++ (w ++ rest))) := by simp
    rw [hsplit, parseNode, bind_of_ok hblank, bind_of_ok hident, bind_of_ok hblank']
    simp only [hlookup]
    exact hfragment w hw (by omega) rest trivial

theorem takes_node (hm : Shaped m) (depth : ℕ) :
    Takes depth (parseNode alnum codec depth) (Spelled (.parsed codec) m) m fun _ => True := by
  have hitem : ∀ {x depth}, Takes depth (parseNode alnum codec depth) (Spelled (.parsed codec) x) x (fun _ => True) →
      TakesItem depth (parseNode alnum codec depth) (texts (.parsed codec) (tokens x)) x :=
    fun h t ht hn rest _ => ⟨rest, h t ht hn rest trivial, rfl⟩
  induction hm generalizing depth with
  | pk key =>
    refine takes_named (by decide) (fun d => ⟨_, rfl, takes_unary fun t ht => ?_⟩) depth
    exact ⟨key, rfl, (takes_hex key).single ht⟩
  | pkH hash =>
    refine takes_named (by decide) (fun d => ⟨_, rfl, takes_unary fun t ht => ?_⟩) depth
    exact ⟨hash, rfl, (takes_hex hash).single ht⟩
  | older n =>
    refine takes_named (by decide) (fun d => ⟨_, rfl, ?_⟩) depth
    exact takes_unary fun t ht => takes_lock ht
  | after n =>
    refine takes_named (by decide) (fun d => ⟨_, rfl, ?_⟩) depth
    exact takes_unary fun t ht => takes_lock ht
  | sha256 hash =>
    refine takes_named (by decide) (fun d => ⟨_, rfl, takes_unary fun t ht => ?_⟩) depth
    exact ⟨hash, rfl, (takes_hash32 hash).single ht⟩
  | hash256 hash =>
    refine takes_named (by decide) (fun d => ⟨_, rfl, takes_unary fun t ht => ?_⟩) depth
    exact ⟨hash, rfl, (takes_hash32 hash).single ht⟩
  | hash160 hash =>
    refine takes_named (by decide) (fun d => ⟨_, rfl, takes_unary fun t ht => ?_⟩) depth
    exact ⟨hash, rfl, (takes_hash20 hash).single ht⟩
  | ripemd160 hash =>
    refine takes_named (by decide) (fun d => ⟨_, rfl, takes_unary fun t ht => ?_⟩) depth
    exact ⟨hash, rfl, (takes_hash20 hash).single ht⟩
  | andV _ _ ihx ihy =>
    refine takes_named (by decide) (fun d => ⟨_, rfl, ?_⟩) depth
    exact takes_binary (ihx d) (ihy d)
  | andB _ _ ihx ihy =>
    refine takes_named (by decide) (fun d => ⟨_, rfl, ?_⟩) depth
    exact takes_binary (ihx d) (ihy d)
  | orB _ _ ihx ihz =>
    refine takes_named (by decide) (fun d => ⟨_, rfl, ?_⟩) depth
    exact takes_binary (ihx d) (ihz d)
  | orD _ _ ihx ihz =>
    refine takes_named (by decide) (fun d => ⟨_, rfl, ?_⟩) depth
    exact takes_binary (ihx d) (ihz d)
  | thresh hk hk' _ ih =>
    rw [Spelled, tokens, tokensAll_eq]
    refine takes_named (by decide) (fun d => ⟨_, rfl, ?_⟩) depth
    exact takes_threshold (fun s hs => hitem (ih s hs d)) hk hk'
  | multi hk hk' =>
    refine takes_named (by decide) (fun d => ⟨_, rfl, ?_⟩) depth
    exact takes_threshold (fun key _ => takesItem_key key) hk hk'

end Taking

section Displaying

variable {codec : HexCodec}

def Token.shown (codec : HexCodec) : Token → List Char
  | .blank => []
  | .word w => w
  | .hex bytes => codec.encode bytes
  | .number k => Nat.toDigits 10 k.toNat
  | .lock n => Nat.toDigits 10 n.toNat

@[simp] theorem shown_named (name : List Char) (arguments : List Token) :
    (named name arguments).flatMap (Token.shown codec) = written name (arguments.flatMap (Token.shown codec)) := by
  simp only [named, bracketed, List.flatMap_append, List.flatMap_cons, List.flatMap_nil, Token.shown, List.append_nil,
    List.nil_append, List.cons_append, written]

@[simp] theorem shown_pair (x y : List Token) : (pairTokens x y).flatMap (Token.shown codec) =
      x.flatMap (Token.shown codec) ++ ',' :: y.flatMap (Token.shown codec) := by
  simp [pairTokens, Token.shown]

mutual

theorem display_eq : ∀ m : Miniscript, display codec m = (tokens m).flatMap (Token.shown codec)
  | .pk key => by simp [display, tokens, Token.shown]
  | .pkH hash => by simp [display, tokens, Token.shown]
  | .older n => by simp [display, tokens, Token.shown]
  | .after n => by simp [display, tokens, Token.shown]
  | .sha256 hash => by simp [display, tokens, Token.shown]
  | .hash256 hash => by simp [display, tokens, Token.shown]
  | .hash160 hash => by simp [display, tokens, Token.shown]
  | .ripemd160 hash => by simp [display, tokens, Token.shown]
  | .andV x y => by simp [display, tokens, display_eq x, display_eq y]
  | .andB x y => by simp [display, tokens, display_eq x, display_eq y]
  | .orB x z => by simp [display, tokens, display_eq x, display_eq z]
  | .orD x z => by simp [display, tokens, display_eq x, display_eq z]
  | .thresh k subs => by simp [display, tokens, Token.shown, displayItems_eq subs]
  | .multi k keys => by simp [display, tokens, itemTokens, keyTokens, Token.shown, List.flatMap_assoc]
  | .just op => by simp [display, tokens, Token.shown]

theorem displayItems_eq :
    ∀ subs : List Miniscript, displayItems codec subs = (tokensAll subs).flatMap (Token.shown codec)
  | [] => rfl
  | s :: rest => by simp [displayItems, tokensAll, Token.shown, display_eq s, displayItems_eq rest]

end

theorem texts_mono {S S' : Spelling} (h : ∀ token : Token, token.texts S ≤ token.texts S') (ts : List Token) :
    texts S ts ≤ texts S' ts := by
  induction ts with
  | nil => exact le_rfl
  | cons token ts ih =>
    rw [texts_cons, texts_cons]
    exact mul_le_mul' (h token) ih

theorem shown_mem_texts (ts : List Token) : ts.flatMap (Token.shown codec) ∈ texts (.exact codec) ts := by
  induction ts with
  | nil => rfl
  | cons token ts ih =>
    rw [List.flatMap_cons, texts_cons]
    refine Language.append_mem_mul ?_ ih
    cases token with
    | _ => rfl

theorem display_mem_exact (m : Miniscript) : display codec m ∈ Spelled (.exact codec) m := by
  rw [display_eq]
  exact shown_mem_texts (tokens m)

theorem exact_le_parsed (token : Token) : token.texts (.exact codec) ≤ token.texts (.parsed codec) := by
  intro t ht
  cases token with
  | blank =>
    rw [show t = [] from ht]
    exact fun c hc => absurd hc (List.not_mem_nil)
  | word w => exact ht
  | hex bytes =>
    rw [show t = codec.encode bytes from ht]
    have hdigits := codec.encode_digits bytes
    have hlower : (codec.encode bytes).map lowerHex = codec.encode bytes :=
      (List.map_congr_left fun c hc => (hdigits c hc).2).trans (List.map_id _)
    exact ⟨fun c hc => (hdigits c hc).1, (codec.decode_eq_some_iff _ bytes fun c hc => (hdigits c hc).1).mpr hlower⟩
  | number k =>
    rw [show t = Nat.toDigits 10 k.toNat from ht]
    exact toDigits_mem_numberTexts k.toNat
  | lock n =>
    rw [show t = Nat.toDigits 10 n.toNat from ht]
    exact ⟨n.toNat, n.toNat_lt.trans (by decide), toDigits_mem_numberTexts n.toNat, UInt32.ofNat_toNat⟩

theorem display_mem_parsed (m : Miniscript) : display codec m ∈ Spelled (.parsed codec) m :=
  texts_mono exact_le_parsed (tokens m) (display_mem_exact m)

end Displaying

section Settling

variable {codec : HexCodec} {ts : List Token} {c : Char} {α : Type} {t : List Char}

/-- A comma or a closing bracket comes next, after blanks. -/
def Ends (ts : List Token) : Prop :=
  ∃ c later, (c = ',' ∨ c = ')') ∧ (ts = .word [c] :: later ∨ ts = .blank :: .word [c] :: later)

/-- The words have no blanks, and the numbers end before something else than a digit. -/
def Delimited : List Token → Prop
  | [] => True
  | .word w :: ts => (∀ c ∈ w, isWhitespace c = false) ∧ Delimited ts
  | .number _ :: ts => Ends ts ∧ Delimited ts
  | .lock _ :: ts => Ends ts ∧ Delimited ts
  | _ :: ts => Delimited ts

theorem Ends.append (h : Ends ts) (us : List Token) : Ends (ts ++ us) := by
  obtain ⟨c, later, hc, rfl | rfl⟩ := h
  · exact ⟨c, later ++ us, hc, .inl rfl⟩
  · exact ⟨c, later ++ us, hc, .inr rfl⟩

theorem Delimited.append {us : List Token} (h : Delimited ts) (h' : Delimited us) : Delimited (ts ++ us) := by
  induction ts with
  | nil => exact h'
  | cons token ts ih =>
    cases token with
    | blank => exact ih h
    | hex bytes => exact ih h
    | word w => exact ⟨h.1, ih h.2⟩
    | number k => exact ⟨h.1.append us, ih h.2⟩
    | lock n => exact ⟨h.1.append us, ih h.2⟩

theorem delimited_char (ts : List Token) (hc : isWhitespace c = false) (h : Delimited ts) :
    Delimited (.word [c] :: ts) :=
  ⟨List.forall_mem_singleton.mpr hc, h⟩

theorem delimited_named {name : List Char} {arguments : List Token} (hname : (name.all fun c => !isWhitespace c) = true)
    (h : Delimited (arguments ++ [.word [')']])) : Delimited (named name arguments) :=
  ⟨fun c hc => by simpa using List.all_eq_true.mp hname c hc, delimited_char _ rfl h⟩

theorem delimited_pair {x y : List Token} (hx : Delimited x) (hy : Delimited y) :
    Delimited (pairTokens x y ++ [.word [')']]) := by
  have hcomma : Delimited [.blank, .word [',']] := delimited_char [] rfl trivial
  have hlast : Delimited [.word [')']] := delimited_char [] rfl trivial
  exact ((hx.append hcomma).append hy).append hlast

theorem delimited_items {f : α → List Token} {xs : List α} (h : ∀ x ∈ xs, Delimited (f x)) :
    Delimited (itemTokens f xs) := by
  induction xs with
  | nil => trivial
  | cons x xs ih =>
    rw [itemTokens, List.flatMap_cons]
    have hfirst : Delimited ([.blank, .word [',']] ++ f x) := delimited_char (f x) rfl (h x (List.mem_cons_self ..))
    exact hfirst.append (ih fun y hy => h y (List.mem_cons_of_mem x hy))

theorem delimited_threshold {f : α → List Token} {xs : List α} (k : UInt64) (h : ∀ x ∈ xs, Delimited (f x)) :
    Delimited (.number k :: itemTokens f xs ++ [.blank] ++ [.word [')']]) := by
  have hend : Delimited [.blank, .word [')']] := delimited_char [] rfl trivial
  have hitems := (delimited_items h).append hend
  rw [List.append_assoc]
  refine ⟨?_, hitems⟩
  cases xs with
  | nil => exact ⟨')', [], .inr rfl, .inr rfl⟩
  | cons x xs => exact ⟨',', _, .inl rfl, .inr rfl⟩

theorem delimited_tokens {m : Miniscript} (hm : Shaped m) : Delimited (tokens m) := by
  have hlast : Delimited [.word [')']] := delimited_char [] rfl trivial
  induction hm with
  | pk | pkH | sha256 | hash256 | hash160 | ripemd160 => exact delimited_named (by decide) hlast
  | older | after => exact delimited_named (by decide) ⟨⟨')', [], .inr rfl, .inl rfl⟩, hlast⟩
  | andV _ _ ihx ihy => exact delimited_named (by decide) (delimited_pair ihx ihy)
  | andB _ _ ihx ihy => exact delimited_named (by decide) (delimited_pair ihx ihy)
  | orB _ _ ihx ihz => exact delimited_named (by decide) (delimited_pair ihx ihz)
  | orD _ _ ihx ihz => exact delimited_named (by decide) (delimited_pair ihx ihz)
  | thresh _ _ _ ih =>
    rw [tokens, tokensAll_eq]
    exact delimited_named (by decide) (delimited_threshold _ ih)
  | multi => exact delimited_named (by decide) (delimited_threshold _ fun _ _ => trivial)

theorem stripped_append (t u : List Char) : stripped (t ++ u) = stripped t ++ stripped u := List.filter_append ..

theorem stripped_eq_self (h : ∀ c ∈ t, isWhitespace c = false) : stripped t = t :=
  List.filter_eq_self.mpr fun c hc => by rw [h c hc]; rfl

theorem stripped_eq_nil : stripped t = [] ↔ ∀ c ∈ t, isWhitespace c = true := by
  simp [stripped, List.filter_eq_nil_iff]

theorem not_whitespace_of_digit (h : c.isDigit = true) : isWhitespace c = false :=
  (not_whitespace_of_hexDigit (isHexDigit_of_digit h)).1

theorem Ends.exists_cons {S : Spelling} (h : Ends ts) (ht : t ∈ texts S ts) :
    ∃ b c later, (b = [] ∨ b ∈ S.blank) ∧ (c = ',' ∨ c = ')') ∧ t = b ++ c :: later := by
  obtain ⟨c, ts, hc, rfl | rfl⟩ := h
  · rw [texts_cons] at ht
    obtain ⟨w, rfl, later, -, rfl⟩ := Language.mem_mul.mp ht
    exact ⟨[], c, later, .inl rfl, hc, rfl⟩
  · rw [texts_cons, texts_cons] at ht
    obtain ⟨b, hb, u, hu, rfl⟩ := Language.mem_mul.mp ht
    obtain ⟨w, rfl, later, -, rfl⟩ := Language.mem_mul.mp hu
    exact ⟨b, c, later, .inr hb, hc, rfl⟩

theorem Ends.stripped_not_digit (h : Ends ts) (ht : t ∈ texts (.parsed codec) ts) (v : List Char) :
    ∀ c ∈ (stripped t ++ v).head?, c.isDigit = false := by
  obtain ⟨b, c, later, hb, hc, rfl⟩ := h.exists_cons ht
  have hblank : stripped b = [] := by
    obtain rfl | hb := hb
    · rfl
    · exact stripped_eq_nil.mpr hb
  have hcons : stripped (c :: later) = c :: stripped later := by
    obtain rfl | rfl := hc
    · rfl
    · rfl
  rw [stripped_append, hblank, hcons]
  intro d hd
  cases hd
  obtain rfl | rfl := hc
  · decide
  · decide

theorem Ends.not_digit (h : Ends ts) (ht : t ∈ texts (.alike codec) ts) (v : List Char) :
    ∀ c ∈ (t ++ v).head?, c.isDigit = false := by
  obtain ⟨b, c, later, hb, hc, rfl⟩ := h.exists_cons ht
  have hblank : b = [] := by
    obtain rfl | hb := hb
    · rfl
    · exact hb
  rw [hblank]
  intro d hd
  cases hd
  obtain rfl | rfl := hc
  · decide
  · decide

/-- A text that the parser reads and that begins like the display has no lock above 32 bits. -/
theorem settle (hts : Delimited ts) {u v w : List Char} (ht : t ∈ texts (.parsed codec) ts)
    (hu : u ∈ texts (.alike codec) ts) (h : stripped t ++ v = u ++ w) :
    stripped t = u ∧ t ∈ texts (.accepted codec (2 ^ 32)) ts := by
  induction ts generalizing t u v w with
  | nil =>
    rw [texts_nil] at ht hu ⊢
    rw [(Language.mem_one t).mp ht, (Language.mem_one u).mp hu]
    exact ⟨rfl, rfl⟩
  | cons token ts ih =>
    rw [texts_cons] at ht hu ⊢
    obtain ⟨t, hread, t', ht', rfl⟩ := Language.mem_mul.mp ht
    obtain ⟨u, hshown, u', hu', rfl⟩ := Language.mem_mul.mp hu
    rw [stripped_append, List.append_assoc, List.append_assoc] at h
    -- the token first, then the others
    have hfinish : Delimited ts → stripped t = u → t ∈ token.texts (.accepted codec (2 ^ 32)) →
        stripped (t ++ t') = u ++ u' ∧
          t ++ t' ∈ token.texts (.accepted codec (2 ^ 32)) * texts (.accepted codec (2 ^ 32)) ts := by
      intro hts heq hmem
      rw [heq] at h
      obtain ⟨hrest, hmem'⟩ := ih hts ht' hu' (List.append_cancel_left h)
      exact ⟨by rw [stripped_append, heq, hrest], Language.append_mem_mul hmem hmem'⟩
    cases token with
    | blank =>
      refine hfinish hts ?_ hread
      rw [show u = [] from hshown]
      exact stripped_eq_nil.mpr hread
    | word word =>
      rw [show t = word from hread] at hfinish ⊢
      rw [show u = word from hshown] at hfinish ⊢
      exact hfinish hts.2 (stripped_eq_self hts.1) rfl
    | hex bytes =>
      have hlower := (codec.decode_eq_some_iff t bytes hread.1).mp hread.2
      have hlength : t.length = u.length := by
        have hmap := congrArg List.length (hlower.trans (show u.map lowerHex = codec.encode bytes from hshown).symm)
        rwa [List.length_map, List.length_map] at hmap
      have hstripped := stripped_eq_self fun c hc => (not_whitespace_of_hexDigit (hread.1 c hc)).1
      refine hfinish hts ?_ hread
      rw [hstripped] at h ⊢
      exact (List.append_inj h hlength).1
    | number k =>
      have hstripped := stripped_eq_self fun c hc => not_whitespace_of_digit (hread.2.1 c hc)
      refine hfinish hts.2 ?_ hread
      rw [hstripped] at h ⊢
      exact (append_unique hread.2.1 hshown.2.1 (hts.1.stripped_not_digit ht' v) (hts.1.not_digit hu' w) h).1
    | lock n =>
      obtain ⟨value, -, hread, -⟩ := hread
      have hstripped := stripped_eq_self fun c hc => not_whitespace_of_digit (hread.2.1 c hc)
      have heq : t = u := by
        rw [hstripped] at h
        exact (append_unique hread.2.1 hshown.2.1 (hts.1.stripped_not_digit ht' v) (hts.1.not_digit hu' w) h).1
      refine hfinish hts.2 (hstripped.trans heq) ⟨n.toNat, n.toNat_lt, ?_, UInt32.ofNat_toNat⟩
      rw [heq]
      exact hshown

/-- Without blanks, a text with locks of 32 bits is the display up to letter case and zeros in front. -/
theorem stripped_mem_alike (hts : Delimited ts) (ht : t ∈ texts (.accepted codec (2 ^ 32)) ts) :
    stripped t ∈ texts (.alike codec) ts := by
  induction ts generalizing t with
  | nil =>
    rw [texts_nil] at ht ⊢
    rw [(Language.mem_one t).mp ht]
    rfl
  | cons token ts ih =>
    rw [texts_cons] at ht ⊢
    obtain ⟨t, hread, t', ht', rfl⟩ := Language.mem_mul.mp ht
    rw [stripped_append]
    cases token with
    | blank => exact Language.append_mem_mul (stripped_eq_nil.mpr hread) (ih hts ht')
    | word word =>
      rw [show t = word from hread, stripped_eq_self hts.1]
      exact Language.append_mem_mul rfl (ih hts.2 ht')
    | hex bytes =>
      rw [stripped_eq_self fun c hc => (not_whitespace_of_hexDigit (hread.1 c hc)).1]
      exact Language.append_mem_mul ((codec.decode_eq_some_iff t bytes hread.1).mp hread.2) (ih hts ht')
    | number k =>
      rw [stripped_eq_self fun c hc => not_whitespace_of_digit (hread.2.1 c hc)]
      exact Language.append_mem_mul hread (ih hts.2 ht')
    | lock n =>
      obtain ⟨value, hvalue, hread, rfl⟩ := hread
      rw [stripped_eq_self fun c hc => not_whitespace_of_digit (hread.2.1 c hc)]
      refine Language.append_mem_mul ?_ (ih hts.2 ht')
      show t ∈ numberTexts (UInt32.ofNat value).toNat
      rw [UInt32.toNat_ofNat_of_lt' hvalue]
      exact hread

end Settling

section Exactness

variable (alnum : Alphanumeric) (codec : HexCodec) {m : Miniscript}

/-- After an expression comes more than blanks. -/
def TrailingText (s : List Char) : Prop :=
  ∃ m t rest, s = t ++ rest ∧ Shaped m ∧ t ∈ Spelled (.parsed codec) m ∧ ∃ c ∈ rest, isWhitespace c = false

/-- The expression that the text begins with has a lock that 32 bits do not hold. -/
def WideLock (s : List Char) : Prop :=
  ∃ m t rest, s = t ++ rest ∧ Shaped m ∧ t ∈ Spelled (.parsed codec) m ∧ t ∉ Spelled (.accepted codec (2 ^ 32)) m

variable {alnum codec}

theorem parse_eq_ok {s : List Char} (h : parse alnum codec s = .ok m) :
    ∃ t rest, s = t ++ rest ∧ Shaped m ∧ t ∈ Spelled (.parsed codec) m := by
  unfold parse at h
  cases hrun : parseNode alnum codec (s.length + 1) s with
  | error e =>
    rw [hrun] at h
    cases h
  | ok p =>
    rw [hrun] at h
    obtain ⟨m, rest⟩ := p
    cases h
    obtain ⟨t, ht, hs⟩ := reads_node (s.length + 1) s m rest hrun
    exact ⟨t, rest, hs.symm, ht.1, ht.2⟩

theorem parse_append {m : Miniscript} (hm : Shaped m) {t : List Char} (ht : t ∈ Spelled (.parsed codec) m)
    (rest : List Char) : parse alnum codec (t ++ rest) = .ok m := by
  have hlength : t.length ≤ (t ++ rest).length + 1 := by
    rw [List.length_append]
    omega
  unfold parse
  rw [takes_node hm ((t ++ rest).length + 1) t ht hlength rest trivial]
  rfl

theorem parse_display (hm : Shaped m) : parse alnum codec (display codec m) = .ok m := by
  have hmem : display codec m ∈ Spelled (.parsed codec) m := display_mem_parsed m
  have hparse := @parse_append alnum codec m hm (display codec m) hmem []
  rwa [List.append_nil] at hparse

theorem settled_of_alike (hm : Shaped m) {t rest : List Char} (ht : t ∈ Spelled (.parsed codec) m)
    (h : Alike codec (t ++ rest) m) : stripped rest = [] ∧ t ∈ Spelled (.accepted codec (2 ^ 32)) m := by
  have heq : stripped t ++ stripped rest = stripped (t ++ rest) ++ [] := by
    rw [stripped_append, List.append_nil]
  obtain ⟨hwhole, hnarrow⟩ := settle (delimited_tokens hm) ht h heq
  rw [stripped_append] at hwhole
  exact ⟨List.self_eq_append_right.mp hwhole, hnarrow⟩

/-- The display of an expression is read back, and what is read is the display up to blanks, letter
case and zeros in front, for the texts without more after the expression and without wide locks. -/
theorem text_exact_iff (alnum : Alphanumeric) (codec : HexCodec) (s : List Char) :
    ((∀ m, Shaped m → parse alnum codec (display codec m) = .ok m) ∧
      ∀ m, parse alnum codec s = .ok m → Alike codec s m) ↔ ¬ TrailingText codec s ∧ ¬ WideLock codec s := by
  constructor
  · rintro ⟨-, hread⟩
    constructor
    · rintro ⟨m, t, rest, rfl, hm, ht, c, hc, hsolid⟩
      have hsettled := settled_of_alike hm ht (hread m (parse_append hm ht rest))
      have hblank := stripped_eq_nil.mp hsettled.1 c hc
      rw [hsolid] at hblank
      cases hblank
    · rintro ⟨m, t, rest, rfl, hm, ht, hwide⟩
      exact hwide (settled_of_alike hm ht (hread m (parse_append hm ht rest))).2
  · rintro ⟨htrailing, hwide⟩
    refine ⟨fun m hm => parse_display hm, fun m hparse => ?_⟩
    obtain ⟨t, rest, hs, hm, ht⟩ := parse_eq_ok hparse
    have hnarrow : t ∈ Spelled (.accepted codec (2 ^ 32)) m := by
      by_contra h
      exact hwide ⟨m, t, rest, hs, hm, ht, h⟩
    have hblank : stripped rest = [] := by
      refine stripped_eq_nil.mpr fun c hc => ?_
      by_contra h
      exact htrailing ⟨m, t, rest, hs, hm, ht, c, hc, Bool.not_eq_true _ ▸ h⟩
    rw [Alike, hs, stripped_append, hblank, List.append_nil]
    exact stripped_mem_alike (delimited_tokens hm) hnarrow

def asciiAlphanumeric : Alphanumeric where
  test := Char.isAlphanum
  ascii _ _ := rfl
  not_whitespace c h := by
    simp only [isWhitespace, Bool.or_eq_true, Bool.and_eq_true, decide_eq_true_eq, List.contains_eq_mem, List.mem_cons,
      List.not_mem_nil, or_false] at h
    by_contra halnum
    have hranges : c.isAlphanum = ((decide (c.val ≥ 65) && decide (c.val ≤ 90) ||
        decide (c.val ≥ 97) && decide (c.val ≤ 122)) || decide (c.val ≥ 48) && decide (c.val ≤ 57)) := by
      delta Char.isAlphanum Char.isAlpha Char.isUpper Char.isLower Char.isDigit
      simp
    simp only [hranges, Bool.not_eq_false, Bool.or_eq_true, Bool.and_eq_true, decide_eq_true_eq,
      UInt32.le_iff_toNat_le, ge_iff_le] at halnum
    change ((65 ≤ c.toNat ∧ c.toNat ≤ 90) ∨ (97 ≤ c.toNat ∧ c.toNat ≤ 122)) ∨ (48 ≤ c.toNat ∧ c.toNat ≤ 57) at halnum
    omega

def lowerHexCodec : HexCodec where
  encode := hexText
  decode := decodeHex
  encode_length := length_hexText
  encode_digits _ _ hc := lower_hexText hc
  decode_eq_some_iff _ _ hdigits := decodeHex_eq_some_iff hdigits

/-- A letter after the expression is passed over. -/
theorem trailing_letter_read : parse asciiAlphanumeric lowerHexCodec "pk(ab)x".toList = .ok (.pk [0xab]) ∧
    ¬ Alike lowerHexCodec "pk(ab)x".toList (.pk [0xab]) := by
  have htext : "pk(ab)x".toList = display lowerHexCodec (.pk [0xab]) ++ ['x'] := rfl
  rw [htext]
  refine ⟨parse_append (.pk _) (display_mem_parsed _) ['x'], fun halike => ?_⟩
  have hblank := (settled_of_alike (.pk _) (display_mem_parsed _) halike).1
  cases hblank

end Exactness

end KuberCoin.MiniscriptTexts
