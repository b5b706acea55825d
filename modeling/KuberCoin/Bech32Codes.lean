import KuberCoin.FeedbackRegisters
import KuberCoin.Regroupings

/-!
Writing and reading bech32 and bech32m addresses (crate `tx`, `bech32m`).
A string is the list of its characters. Lower-casing is the one of the standard library: it
sees a character between what stands before and behind it, and may give several characters.
Registers and accumulators are numbers; the shifts that can push bits out of a `u32` are cut.
-/
namespace KuberCoin.Bech32Codes

section Errors

inductive Bech32mError where
  | invalidHrp
  | invalidWitnessVersion (version : UInt8)
  | invalidWitnessProgramLength (length : ℕ)
  | invalidData
  | invalidLength (length : ℕ)
  | mixedCase
  | noSeparator
  | invalidCharacter (c : Char)
  | invalidChecksum
  | invalidPadding
  | invalidNetwork
  | notTaprootAddress (version : UInt8)
  | notSegwitV0Address (version : UInt8)
  deriving DecidableEq

/-- How reading an address ends early: with an error, or with a length below zero. -/
inductive Failure where
  | error (e : Bech32mError)
  | underflow
  deriving DecidableEq

end Errors

section Checksums

def bech32Const : ℕ := 1

def bech32mConst : ℕ := 0x2bc830a3

def gen : List ℕ := [0x3b6a57b2, 0x26508e6d, 0x1ea119fa, 0x3d4233dd, 0x2a1462b3]

def polymodStep (chk value : ℕ) : ℕ :=
  let top := chk >>> 25
  gen.zipIdx.foldl (fun chk g => if (top >>> g.2) &&& 1 ≠ 0 then chk ^^^ g.1 else chk)
    (((chk &&& 0x1ffffff) <<< 5) ^^^ value)

def polymod (values : List UInt8) : ℕ := values.foldl (fun chk value => polymodStep chk value.toNat) 1

/-- `c as u8`. -/
def asU8 (c : Char) : UInt8 := UInt8.ofNat c.toNat

def isAscii (c : Char) : Bool := c.toNat < 128

def hrpExpand (hrp : List Char) : Except Bech32mError (List UInt8) :=
  if hrp.all isAscii then .ok (hrp.map (fun c => asU8 c >>> 5) ++ 0 :: hrp.map fun c => asU8 c &&& 31)
  else .error .invalidHrp

def createChecksumWith (hrp : List Char) (data : List UInt8) (constant : ℕ) :
    Except Bech32mError (List UInt8) := do
  let values ← hrpExpand hrp
  let chk := polymod (values ++ data ++ List.replicate 6 0) ^^^ constant
  return (List.range 6).map fun i => UInt8.ofNat ((chk >>> (5 * (5 - i))) &&& 31)

end Checksums

section Regrouping

/-- What is read but not yet given out, and what is. -/
structure Bits where
  acc : ℕ
  bits : ℕ
  result : List UInt8

def Bits.start : Bits := { acc := 0, bits := 0, result := [] }

/-- The inner loop, which gives out a group as long as there is one. -/
def drain (tobits : ℕ) : ℕ → Bits → Bits
  | 0, b => b
  | fuel + 1, b =>
      if tobits ≤ b.bits then
        drain tobits fuel
          { acc := b.acc
            bits := b.bits - tobits
            result := b.result ++ [UInt8.ofNat ((b.acc >>> (b.bits - tobits)) &&& (2 ^ tobits - 1))] }
      else b

def convertStep (frombits tobits : ℕ) (b : Bits) (value : UInt8) : Except Bech32mError Bits :=
  if 2 ^ frombits ≤ value.toNat then .error .invalidData
  else
    let bits := b.bits + frombits
    -- A group has at least one bit, so there are no more turns than bits.
    .ok (drain tobits bits
      { acc := (b.acc <<< frombits) % 2 ^ 32 ||| value.toNat, bits, result := b.result })

def convertBits (data : List UInt8) (frombits tobits : ℕ) (pad : Bool) :
    Except Bech32mError (List UInt8) := do
  let b ← data.foldlM (convertStep frombits tobits) Bits.start
  let rest := ((b.acc <<< (tobits - b.bits)) % 2 ^ 32) &&& (2 ^ tobits - 1)
  if pad then
    if 0 < b.bits then return b.result ++ [UInt8.ofNat rest] else return b.result
  else if frombits ≤ b.bits ∨ rest ≠ 0 then throw .invalidPadding
  else return b.result

end Regrouping

section Encoding

def charset : List UInt8 :=
  ['q', 'p', 'z', 'r', 'y', '9', 'x', '8', 'g', 'f', '2', 't', 'v', 'd', 'w', '0', 's', '3', 'j', 'n',
    '5', '4', 'k', 'h', 'c', 'e', '6', 'm', 'u', 'a', '7', 'l'].map asU8

/-- `CHARSET[d] as char`. -/
def symbolAt (d : UInt8) : Char := Char.ofNat (charset.getD d.toNat 0).toNat

/-- The length of a string in bytes. -/
def utf8Length (s : List Char) : ℕ := (s.map Char.utf8Size).sum

/-- The characters that may stand in a human-readable part. -/
def printable (c : Char) : Bool := isAscii c && (33 ≤ asU8 c && asU8 c ≤ 126)

def encodeBech32Inner (hrp : List Char) (data : List UInt8) (constant : ℕ) :
    Except Bech32mError (List Char) :=
  if hrp.isEmpty ∨ 83 < utf8Length hrp then .error .invalidHrp
  else if ¬ hrp.all printable then .error .invalidHrp
  else do
    let checksum ← createChecksumWith hrp data constant
    if data.any fun d => 32 ≤ d then .error .invalidData
    else return hrp ++ '1' :: (data.map symbolAt ++ checksum.map symbolAt)

/-- The checksum constant of a witness version. -/
def constantOf (witver : UInt8) : ℕ := if witver = 0 then bech32Const else bech32mConst

/-- The checks of a witness version and its program, made in both directions. -/
def checkProgram (witver : UInt8) (witprog : List UInt8) : Except Bech32mError Unit :=
  if witprog.isEmpty ∨ 40 < witprog.length then .error (.invalidWitnessProgramLength witprog.length)
  else if witver = 0 ∧ witprog.length ≠ 20 ∧ witprog.length ≠ 32 then
    .error (.invalidWitnessProgramLength witprog.length)
  else if 1 ≤ witver ∧ witprog.length ≠ 32 ∧ witprog.length ≠ 40 then
    .error (.invalidWitnessProgramLength witprog.length)
  else .ok ()

def encode (hrp : List Char) (witver : UInt8) (witprog : List UInt8) :
    Except Bech32mError (List Char) :=
  if 16 < witver then .error (.invalidWitnessVersion witver)
  else do
    checkProgram witver witprog
    let narrow ← convertBits witprog 8 5 true
    encodeBech32Inner hrp (witver :: narrow) (constantOf witver)

end Encoding

section Decoding

/-- Lower-casing of a character between what stands before and behind it. -/
abbrev Lowering : Type := List Char → Char → List Char → List Char

def lowerFrom (lower : Lowering) : List Char → List Char → List Char
  | _, [] => []
  | before, c :: after => lower before c after ++ lowerFrom lower (before ++ [c]) after

def toLowercase (lower : Lowering) (s : List Char) : List Char := lowerFrom lower [] s

/-- The parts around the last separator. -/
def splitSeparator : List Char → Option (List Char × List Char)
  | [] => none
  | c :: rest =>
      match splitSeparator rest with
      | some (hrp, data) => some (c :: hrp, data)
      | none => if c = '1' then some ([], rest) else none

def symbolOf (c : Char) : Except Failure UInt8 :=
  match charset.findIdx? (· == asU8 c) with
  | some pos => .ok (UInt8.ofNat pos)
  | none => .error (.error (.invalidCharacter c))

def isAsciiLowercase (c : Char) : Bool := 97 ≤ c.toNat && c.toNat ≤ 122

def isAsciiUppercase (c : Char) : Bool := 65 ≤ c.toNat && c.toNat ≤ 90

/-- An error of reading. -/
def fail {α : Type} (e : Bech32mError) : Except Failure α := .error (.error e)

/-- A step that both directions share. -/
def lift {α : Type} : Except Bech32mError α → Except Failure α
  | .ok a => .ok a
  | .error e => fail e

/-- The end of reading, with the symbols and what the register holds after them. -/
def stripChecksum (hrp : List Char) (data : List UInt8) (residue : ℕ) :
    Except Failure (List Char × List UInt8 × ℕ) :=
  if residue ≠ bech32Const ∧ residue ≠ bech32mConst then fail .invalidChecksum
  -- `data.len() - 6`
  else if data.length < 6 then .error .underflow
  else .ok (hrp, data.take (data.length - 6), residue)

def decodeBech32Detect (lower : Lowering) (s : List Char) :
    Except Failure (List Char × List UInt8 × ℕ) :=
  if utf8Length s < 8 ∨ 90 < utf8Length s then fail (.invalidLength (utf8Length s))
  else if s.any isAsciiLowercase ∧ s.any isAsciiUppercase then fail .mixedCase
  else
    match splitSeparator (toLowercase lower s) with
    | none => fail .noSeparator
    | some (hrp, dataPart) =>
        if hrp.isEmpty then fail .invalidHrp
        else if ¬ hrp.all printable then fail .invalidHrp
        else do
          let data ← dataPart.mapM symbolOf
          let values ← lift (hrpExpand hrp)
          stripChecksum hrp data (polymod (values ++ data))

def decode (lower : Lowering) (addr : List Char) :
    Except Failure (List Char × UInt8 × List UInt8) := do
  let (hrp, data, checksumConst) ← decodeBech32Detect lower addr
  match data with
  | [] => fail .invalidData
  | witver :: narrow =>
      if 16 < witver then fail (.invalidWitnessVersion witver)
      else if checksumConst ≠ constantOf witver then fail .invalidChecksum
      else do
        let witprog ← lift (convertBits narrow 5 8 false)
        lift (checkProgram witver witprog)
        return (hrp, witver, witprog)

end Decoding

section Networks

def hrpMainnet : List Char := ['k', 'b']

def hrpTestnet : List Char := ['t', 'b']

def hrpRegtest : List Char := ['k', 'b', 'r', 't']

end Networks

end KuberCoin.Bech32Codes
