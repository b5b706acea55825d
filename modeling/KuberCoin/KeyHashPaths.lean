import KuberCoin.DelayedOutputs
import KuberCoin.MiniscriptSpends
import KuberCoin.ScriptElements

/-!
Two ways to check a pay-to-public-key-hash input: `Script::verify_p2pkh`, a parser of the two pushes
that the validator calls, and the interpreter run on both scripts. The parser takes the whole first
push for the signature, as `new_p2pkh_sig` writes it; `OP_CHECKSIG` takes its last byte for the type of
the digest.
-/
namespace KuberCoin.KeyHashPaths

open Bytes Transactions Sighashes FailingPrograms ScriptInterpreters ScriptRuns PayToScriptHash
  ScriptHashSpends ScriptElements CommitmentTxs DelayedOutputs Miniscripts MiniscriptPolicies MiniscriptSatisfactions
  MiniscriptSpends

section Parser

variable (prims : Primitives) (tx : Transaction) (index : ℕ) (scriptSig hash : List UInt8) {α ε : Type}
  {message : Bytes32}

/-- `verify_p2pkh` on the digest of the input. -/
def FastPathAccepts : Prop :=
  ∃ sighash, signatureHash prims.sha256 tx index = .ok sighash ∧
    verifyP2pkh prims scriptSig (newP2pkh hash) sighash = .ok true

/-- The signature covers the digest of the input. -/
def Signs (key sig : List UInt8) : Prop :=
  ∃ sighash, signatureHash prims.sha256 tx index = .ok sighash ∧ prims.verifyEcdsa key sig sighash = true

variable {prims tx index scriptSig hash}

end Parser

section Interpreter

variable (prims : Primitives) (tx : Transaction) (index : ℕ) (scriptSig hash : List UInt8) {key sig : List UInt8}
  {hashType : UInt8} {n : ℕ}

/-- The interpreter, run on both scripts, is left with a single true element. -/
def InterpreterAccepts : Prop :=
  ∃ pushed final, execute prims tx index scriptSig .new = .ok ((), pushed) ∧
    execute prims tx index (newP2pkh hash) pushed = .ok ((), final) ∧ final.stackLen = 1 ∧ final.stackTopTrue = true

/-- A signature that verifies, without its type, and a key with the hash. -/
structure Unlocks (sig key : List UInt8) : Prop where
  fromDer : prims.fromDer sig = .ok ()
  lowS : prims.lowS sig = true
  publicKey : prims.publicKey key = .ok ()
  hashed : keyHash prims.sha256 prims.ripemd160 key = hash
  signed : Signs prims tx index key sig

variable {prims tx index scriptSig hash} {s final : ScriptInterpreter}

end Interpreter

section Agreement

variable {prims : Primitives} {tx : Transaction} {index : ℕ} {scriptSig hash key sig : List UInt8}
  {hashType : UInt8} {pushed : ScriptInterpreter}

/-- What the readers of keys and signatures promise: a key has 33 or 65 bytes, a signature that
verifies 8 to 72, and nothing may follow the encoding of a signature. -/
structure Encodings (prims : Primitives) : Prop where
  keys : ∀ key, prims.publicKey key = .ok () → key.length = 33 ∨ key.length = 65
  signatures : ∀ key sig d, prims.fromDer sig = .ok () → prims.verifyEcdsa key sig d = true →
    8 ≤ sig.length ∧ sig.length ≤ 72
  strict : ∀ sig b, prims.fromDer sig = .ok () → prims.fromDer (sig ++ [b]) ≠ .ok ()

/-- Both checks accept, or both refuse. -/
def Agrees (prims : Primitives) (tx : Transaction) (index : ℕ) (scriptSig hash : List UInt8) : Prop :=
  FastPathAccepts prims tx index scriptSig hash ↔ InterpreterAccepts prims tx index scriptSig hash

theorem Unlocks.lengths (enc : Encodings prims) (h : Unlocks prims tx index hash sig key) :
    (8 ≤ sig.length ∧ sig.length ≤ 72) ∧ (key.length = 33 ∨ key.length = 65) := by
  obtain ⟨_, _, verified⟩ := h.signed
  exact ⟨enc.signatures key sig _ h.fromDer verified, enc.keys key h.publicKey⟩

theorem Unlocks.direct (enc : Encodings prims) (h : Unlocks prims tx index hash sig key) (hashType : UInt8) :
    Direct (sig ++ [hashType]) ∧ Direct key := by
  obtain ⟨sigLength, keyLength⟩ := h.lengths enc
  unfold Direct
  rw [List.length_append, List.length_singleton]
  omega

theorem guard_eq_ok {p : Prop} [Decidable p] {e : String}
    (h : (if p then .ok () else .error e : Except String Unit) = .ok ()) : p := by
  by_cases holds : p
  · exact holds
  · rw [if_neg holds] at h
    cases h

/-- The signature whose two numbers are one. -/
def oneSignature : List UInt8 := [0x30, 0x06, 0x02, 0x01, 0x01, 0x02, 0x01, 0x01]

end Agreement

end KuberCoin.KeyHashPaths
