import KuberCoin.Ripemd160
import KuberCoin.Sha256
import KuberCoin.TextPieces
import KuberCoin.TextReaders
import Mathlib.Data.ZMod.Basic

/-!
Hierarchical deterministic wallets (crate `tx`, `hd_wallet.rs`): the derivation of children from a
private and from a public extended key. The private one adds in the exponent what the public one
adds to the point, so it makes no difference where on a path the key is made public.
-/
namespace KuberCoin.HdWallets

open Bytes Transactions TextPieces TextReaders

section Folds

variable {ε ε' α β γ : Type} {step : α → γ → Except ε α} {cs : List γ}

theorem ok_bind {ε α β : Type} (a : α) (g : α → Except ε β) : (Except.ok a >>= g) = g a :=
  rfl

theorem error_bind {ε α β : Type} (e : ε) (g : α → Except ε β) : (Except.error e >>= g) = .error e :=
  rfl

theorem toOption_error {ε α : Type} (e : ε) : (Except.error e : Except ε α).toOption = none :=
  rfl

theorem toOption_bind {ε α β : Type} (x : Except ε α) (g : α → Except ε β) :
    (x >>= g).toOption = x.toOption.bind fun a => (g a).toOption := by
  cases x <;> rfl

/-- Two folds that a map takes to each other step by step, whatever fails where. -/
theorem foldlM_commute {step' : β → γ → Except ε β} {f : α → Except ε β}
    (h : ∀ c ∈ cs, ∀ a, (step a c >>= f).toOption = (f a >>= fun b => step' b c).toOption) (a : α) :
    (cs.foldlM step a >>= f).toOption = (f a >>= fun b => cs.foldlM step' b).toOption := by
  induction cs generalizing a with
  | nil =>
    show (f a).toOption = (f a >>= fun b => pure b).toOption
    rw [bind_pure]
  | cons c cs ih =>
    obtain ⟨hc, hcs⟩ := List.forall_mem_cons.mp h
    have hrest := ih hcs
    calc ((c :: cs).foldlM step a >>= f).toOption
        = (step a c).toOption.bind fun a' => (cs.foldlM step a' >>= f).toOption := by
          rw [List.foldlM_cons, bind_assoc, toOption_bind]
      _ = (step a c).toOption.bind fun a' => (f a').toOption.bind fun b => (cs.foldlM step' b).toOption := by
          simp only [hrest, toOption_bind]
      _ = (step a c >>= f).toOption.bind fun b => (cs.foldlM step' b).toOption := by
          rw [toOption_bind, Option.bind_assoc]
      _ = (f a >>= fun b => step' b c).toOption.bind fun b => (cs.foldlM step' b).toOption := by rw [hc a]
      _ = (f a >>= fun b => (c :: cs).foldlM step' b).toOption := by
          simp only [toOption_bind, Option.bind_assoc, List.foldlM_cons]

theorem foldlM_fails {c : γ} (hc : c ∈ cs) (h : ∀ a, (step a c).toOption = none) (a : α) :
    (cs.foldlM step a).toOption = none := by
  induction cs generalizing a with
  | nil => cases hc
  | cons d cs ih =>
    rw [List.foldlM_cons, toOption_bind]
    rcases List.mem_cons.mp hc with rfl | hrest
    · rw [h a, Option.bind_none]
    · cases (step a d).toOption with
      | none => rw [Option.bind_none]
      | some b => exact ih hrest b

end Folds

section Model

inductive HdWalletError where
  | invalidSeed (text : String)
  | invalidPath (text : String)
  | invalidIndex (text : String)
  | hardenedDerivationNotSupported
  | invalidExtendedKey (text : String)
deriving DecidableEq

structure ExtendedPrivateKey where
  version : UInt32
  depth : UInt8
  parentFingerprint : List UInt8
  childIndex : UInt32
  chainCode : Bytes32
  privateKey : Bytes32

structure ExtendedPublicKey where
  version : UInt32
  depth : UInt8
  parentFingerprint : List UInt8
  childIndex : UInt32
  chainCode : Bytes32
  publicKey : List UInt8
deriving DecidableEq

def mainnetPrivate : UInt32 := 0x0488ADE4

def mainnetPublic : UInt32 := 0x0488B21E

def testnetPublic : UInt32 := 0x043587CF

def hardenedOffset : ℕ := 0x80000000

/-- The order of the group of the crate `secp256k1`. -/
def order : ℕ := 0xFFFFFFFFFFFFFFFFFFFFFFFFFFFFFFFEBAAEDCE6AF48A03BBFD25E8CD0364141

/-- The points of the crate `secp256k1` and their compressed form. -/
structure Curve (P : Type) [AddCommGroup P] where
  base : P
  serialize : P → List UInt8
  parse : List UInt8 → Option P

/-- What holds of them. -/
structure Lawful {P : Type} [AddCommGroup P] (curve : Curve P) : Prop where
  order_eq : ∀ k : ℕ, k • curve.base = 0 ↔ order ∣ k
  parse_serialize : ∀ p, p ≠ 0 → curve.parse (curve.serialize p) = some p
  compressed : ∀ p, p ≠ 0 → (curve.serialize p).getD 0 0 = 2 ∨ (curve.serialize p).getD 0 0 = 3

/-- The bytes of a number, the highest first. -/
def bytesOf (v : ℕ) : Bytes32 := Bytes32.ofBytes (leBytes 32 v).reverse

/-- `SecretKey::from_slice`: the number of a key, from one up to the order. -/
def secretKey (key : Bytes32) : Option ℕ :=
  if 0 < value key.bytes ∧ value key.bytes < order then some (value key.bytes) else none

/-- `SecretKey::add_tweak`. -/
def addTweak (a b : ℕ) : Option ℕ := if (a + b) % order = 0 then none else some ((a + b) % order)

variable {P : Type} [AddCommGroup P] [DecidableEq P] (curve : Curve P)

/-- `PublicKey::add_exp_tweak`. -/
def addExpTweak (p : P) (t : ℕ) : Option P := if p + t • curve.base = 0 then none else some (p + t • curve.base)

/-- The digest functions of the crates `sha2` and `ripemd`. -/
structure Digests where
  sha256 : Sha256
  sha512 : List UInt8 → List UInt8
  ripemd160 : List UInt8 → List UInt8

variable (digests : Digests)

def hmacSha512 (key data : List UInt8) : List UInt8 :=
  let actualKey := if 128 < key.length then digests.sha512 key else key
  let padded := (actualKey ++ List.replicate 128 0).take 128
  let iPad := padded.map (· ^^^ 0x36)
  let oPad := padded.map (· ^^^ 0x5c)
  digests.sha512 (oPad ++ digests.sha512 (iPad ++ data))

def isValidPrivateKey (key : Bytes32) : Bool := (secretKey key).isSome

def isValidPublicKey (key : List UInt8) : Bool := key.getD 0 0 = 2 || key.getD 0 0 = 3

def addPrivateKeys (a b : Bytes32) : Except HdWalletError Bytes32 :=
  match secretKey a with
  | none => .error (.invalidSeed "Invalid key A")
  | some keyA =>
      match secretKey b with
      | none => .error (.invalidSeed "Invalid key B")
      | some keyB =>
          match addTweak keyA keyB with
          | none => .error (.invalidSeed "Key addition failed")
          | some sum => .ok (bytesOf sum)

def addPublicKeys (pubkey : List UInt8) (scalar : Bytes32) : Except HdWalletError (List UInt8) :=
  match curve.parse pubkey with
  | none => .error (.invalidExtendedKey "Invalid pubkey")
  | some p =>
      match secretKey scalar with
      | none => .error (.invalidSeed "Invalid scalar")
      | some t =>
          match addExpTweak curve p t with
          | none => .error (.invalidSeed "Pubkey addition failed")
          | some sum => .ok (curve.serialize sum)

def fingerprintFromPubkey (pubkey : List UInt8) : List UInt8 :=
  (digests.ripemd160 (digests.sha256 pubkey).bytes).take 4

/-- The parts of a path behind its first one. -/
def pathComponents (path : List Char) : List (List Char) := (splitAtEach (· == '/') path).drop 1

/-- Written with `'` or `h` behind the number. -/
def isMarked (component : List Char) : Bool := component.getLast? = some '\'' || component.getLast? = some 'h'

def startsPath (path : List Char) : Bool := path.head? = some 'm' || path.head? = some 'M'

namespace ExtendedPrivateKey

def getPublicKey (k : ExtendedPrivateKey) : Except HdWalletError (List UInt8) :=
  match secretKey k.privateKey with
  | none => .error (.invalidSeed "malformed or out-of-range secret key")
  | some v => .ok (curve.serialize (v • curve.base))

def toExtendedPublicKey (k : ExtendedPrivateKey) : Except HdWalletError ExtendedPublicKey := do
  let publicKey ← k.getPublicKey curve
  let version := if k.version = mainnetPrivate then mainnetPublic else testnetPublic
  .ok ⟨version, k.depth, k.parentFingerprint, k.childIndex, k.chainCode, publicKey⟩

def deriveChild (k : ExtendedPrivateKey) (index : ℕ) : Except HdWalletError ExtendedPrivateKey := do
  let data ← if hardenedOffset ≤ index then .ok (0 :: k.privateKey.bytes) else k.getPublicKey curve
  let hmacResult := hmacSha512 digests k.chainCode.bytes (data ++ (leBytes 4 index).reverse)
  let childKey ← addPrivateKeys (Bytes32.ofBytes (hmacResult.take 32)) k.privateKey
  if ¬ isValidPrivateKey childKey then .error (.invalidIndex "Derived key is invalid (try next index)")
  else do
    let parentPubkey ← k.getPublicKey curve
    .ok
      { version := k.version
        depth := if k.depth = 255 then 255 else k.depth + 1
        parentFingerprint := fingerprintFromPubkey digests parentPubkey
        childIndex := UInt32.ofNat index
        chainCode := Bytes32.ofBytes (hmacResult.drop 32)
        privateKey := childKey }

/-- One round of the loop over the parts of a path. -/
def deriveComponent (k : ExtendedPrivateKey) (component : List Char) : Except HdWalletError ExtendedPrivateKey :=
  if component.isEmpty then .ok k
  else
    let indexStr := if isMarked component then component.dropLast else component
    match parseUnsigned 32 indexStr with
    | none => .error (.invalidPath ("Invalid index: " ++ String.ofList component))
    | some index =>
        if isMarked component then
          if index + hardenedOffset < 2 ^ 32 then k.deriveChild curve digests (index + hardenedOffset)
          else .error (.invalidIndex "Index overflow")
        else k.deriveChild curve digests index

def derivePath (k : ExtendedPrivateKey) (path : List Char) : Except HdWalletError ExtendedPrivateKey :=
  let path := trim path
  if ¬ startsPath path then .error (.invalidPath "Path must start with 'm'")
  else (pathComponents path).foldlM (fun k component => k.deriveComponent curve digests component) k

end ExtendedPrivateKey

namespace ExtendedPublicKey

def deriveChild (x : ExtendedPublicKey) (index : ℕ) : Except HdWalletError ExtendedPublicKey :=
  if hardenedOffset ≤ index then .error .hardenedDerivationNotSupported
  else do
    let hmacResult := hmacSha512 digests x.chainCode.bytes (x.publicKey ++ (leBytes 4 index).reverse)
    let childPubkey ← addPublicKeys curve x.publicKey (Bytes32.ofBytes (hmacResult.take 32))
    if ¬ isValidPublicKey childPubkey then .error (.invalidIndex "Derived pubkey is invalid")
    else
      .ok
        { version := x.version
          depth := if x.depth = 255 then 255 else x.depth + 1
          parentFingerprint := fingerprintFromPubkey digests x.publicKey
          childIndex := UInt32.ofNat index
          chainCode := Bytes32.ofBytes (hmacResult.drop 32)
          publicKey := childPubkey }

def deriveComponent (x : ExtendedPublicKey) (component : List Char) : Except HdWalletError ExtendedPublicKey :=
  if component.isEmpty then .ok x
  else if isMarked component then .error .hardenedDerivationNotSupported
  else
    match parseUnsigned 32 component with
    | none => .error (.invalidPath ("Invalid index: " ++ String.ofList component))
    | some index => x.deriveChild curve digests index

def derivePath (x : ExtendedPublicKey) (path : List Char) : Except HdWalletError ExtendedPublicKey :=
  let path := trim path
  if ¬ startsPath path then .error (.invalidPath "Path must start with 'm'")
  else (pathComponents path).foldlM (fun x component => x.deriveComponent curve digests component) x

end ExtendedPublicKey

end Model

section Children

variable {P : Type} [AddCommGroup P] [DecidableEq P] {curve : Curve P} {digests : Digests} {v : ℕ} {key : Bytes32}
  {component : List Char}

theorem order_lt : order < 256 ^ 32 := by
  unfold order
  norm_num

instance : NeZero order :=
  ⟨by unfold order; norm_num⟩

theorem value_bytesOf (h : v < 256 ^ 32) : value (bytesOf v).bytes = v := by
  have hlength : (leBytes 32 v).reverse.length = 32 := by rw [List.length_reverse, leBytes_length]
  have hbytes : (bytesOf v).bytes = (leBytes 32 v).reverse := List.take_left' hlength
  have hread := leValue_leBytes 32 v
  rw [leValue] at hread
  rw [hbytes, hread, Nat.mod_eq_of_lt h]

theorem secretKey_bytesOf (h₀ : 0 < v) (h : v < order) : secretKey (bytesOf v) = some v := by
  rw [secretKey, value_bytesOf (h.trans order_lt), if_pos ⟨h₀, h⟩]

theorem secretKey_eq_some (h : secretKey key = some v) : 0 < v ∧ v < order := by
  unfold secretKey at h
  split at h
  next hvalid =>
    rw [← Option.some.inj h]
    exact hvalid
  next => cases h

theorem addTweak_eq_some {a b s : ℕ} (h : addTweak a b = some s) : 0 < s ∧ s < order := by
  unfold addTweak at h
  split at h
  next => cases h
  next hzero =>
    rw [← Option.some.inj h]
    exact ⟨Nat.pos_of_ne_zero hzero, Nat.mod_lt _ (Nat.pos_of_ne_zero (NeZero.ne order))⟩

omit [DecidableEq P] in
/-- A key in range has a point. -/
theorem Lawful.smul_ne_zero (hcurve : Lawful curve) (h₀ : 0 < v) (h : v < order) : v • curve.base ≠ 0 :=
  fun hzero => absurd (Nat.le_of_dvd h₀ ((hcurve.order_eq v).mp hzero)) (by omega)

omit [DecidableEq P] in
theorem Lawful.smul_mod (hcurve : Lawful curve) (v : ℕ) : (v % order) • curve.base = v • curve.base := by
  have hwhole : (order * (v / order)) • curve.base = 0 := (hcurve.order_eq _).mpr (dvd_mul_right _ _)
  calc (v % order) • curve.base = (v % order) • curve.base + (order * (v / order)) • curve.base := by
        rw [hwhole, add_zero]
    _ = v • curve.base := by rw [← add_smul, Nat.mod_add_div]

/-- The group law: the sum of two keys and the sum of their points. -/
theorem Lawful.tweak (hcurve : Lawful curve) (t v : ℕ) :
    addExpTweak curve (v • curve.base) t = (addTweak t v).map (· • curve.base) := by
  have hsum : v • curve.base + t • curve.base = (t + v) • curve.base := by rw [add_smul, add_comm]
  have hzero : (t + v) • curve.base = 0 ↔ (t + v) % order = 0 := by
    rw [hcurve.order_eq, Nat.dvd_iff_mod_eq_zero]
  unfold addExpTweak addTweak
  rw [hsum]
  by_cases h : (t + v) % order = 0
  · rw [if_pos (hzero.mpr h), if_pos h]
    rfl
  · rw [if_neg (fun hnot => h (hzero.mp hnot)), if_neg h, Option.map_some, hcurve.smul_mod]

omit [DecidableEq P] in
theorem getPublicKey_eq {k : ExtendedPrivateKey} (h : secretKey key = some v) (hk : k.privateKey = key) :
    k.getPublicKey curve = .ok (curve.serialize (v • curve.base)) := by
  rw [ExtendedPrivateKey.getPublicKey, hk, h]

theorem child_commutes (hcurve : Lawful curve) (k : ExtendedPrivateKey) {index : ℕ} (hindex : index < hardenedOffset) :
    (k.deriveChild curve digests index >>= fun c => c.toExtendedPublicKey curve).toOption =
      (k.toExtendedPublicKey curve >>= fun x => x.deriveChild curve digests index).toOption := by
  have hnormal : ¬ hardenedOffset ≤ index := by omega
  unfold ExtendedPrivateKey.deriveChild ExtendedPrivateKey.toExtendedPublicKey ExtendedPublicKey.deriveChild
  simp only [hnormal, if_false]
  cases hv : secretKey k.privateKey with
  | none =>
    simp only [ExtendedPrivateKey.getPublicKey, hv]
    rfl
  | some v =>
    obtain ⟨hpos, hlt⟩ := secretKey_eq_some hv
    have hparse : curve.parse (curve.serialize (v • curve.base)) = some (v • curve.base) :=
      hcurve.parse_serialize _ (hcurve.smul_ne_zero hpos hlt)
    have hpublic : k.getPublicKey curve = .ok (curve.serialize (v • curve.base)) := getPublicKey_eq hv rfl
    simp only [hpublic, ok_bind]
    generalize hmacSha512 digests k.chainCode.bytes _ = digest
    cases ht : secretKey (Bytes32.ofBytes (digest.take 32)) with
    | none =>
      simp only [addPrivateKeys, addPublicKeys, ht, hparse, error_bind]
      rfl
    | some t =>
      have htweak := hcurve.tweak t v
      cases hs : addTweak t v with
      | none =>
        rw [hs] at htweak
        simp only [addPrivateKeys, addPublicKeys, ht, hv, hs, hparse, htweak, Option.map_none, error_bind]
        rfl
      | some s =>
        obtain ⟨hspos, hslt⟩ := addTweak_eq_some hs
        have hkey := secretKey_bytesOf hspos hslt
        have hvalid : isValidPrivateKey (bytesOf s) = true := by rw [isValidPrivateKey, hkey, Option.isSome_some]
        have hpoint : isValidPublicKey (curve.serialize (s • curve.base)) = true := by
          have hform := hcurve.compressed _ (hcurve.smul_ne_zero hspos hslt)
          simpa only [isValidPublicKey, Bool.or_eq_true, decide_eq_true_eq] using hform
        rw [hs] at htweak
        have hprivateSum : addPrivateKeys (Bytes32.ofBytes (digest.take 32)) k.privateKey = .ok (bytesOf s) := by
          simp only [addPrivateKeys, ht, hv, hs]
        have hpublicSum :
            addPublicKeys curve (curve.serialize (v • curve.base)) (Bytes32.ofBytes (digest.take 32)) =
              .ok (curve.serialize (s • curve.base)) := by
          simp only [addPublicKeys, ht, hparse, htweak, Option.map_some]
        rw [hprivateSum, hpublicSum, ok_bind, ok_bind, if_neg (not_not_intro hvalid), if_neg (not_not_intro hpoint),
          ok_bind, getPublicKey_eq hkey, ok_bind]
        rfl

/-- A part of a path with a hardened index: marked, or a number from `2 ^ 31` on. -/
def IsHardened (component : List Char) : Prop :=
  isMarked component = true ∨ ∃ index, parseUnsigned 32 component = some index ∧ hardenedOffset ≤ index

theorem component_commutes (hcurve : Lawful curve) (k : ExtendedPrivateKey) (hnormal : ¬ IsHardened component) :
    (k.deriveComponent curve digests component >>= fun c => c.toExtendedPublicKey curve).toOption =
      (k.toExtendedPublicKey curve >>= fun x => x.deriveComponent curve digests component).toOption := by
  obtain ⟨hmark, hnumber⟩ := not_or.mp hnormal
  unfold ExtendedPrivateKey.deriveComponent ExtendedPublicKey.deriveComponent
  by_cases hempty : component.isEmpty = true
  · simp only [if_pos hempty, ok_bind]
    exact congrArg Except.toOption (bind_pure _).symm
  · simp only [if_neg hempty, if_neg hmark]
    cases hindex : parseUnsigned 32 component with
    | none => simp only [toOption_bind, toOption_error, Option.bind_none, Option.bind_fun_none]
    | some index => exact child_commutes hcurve k (by_contra fun hle => hnumber ⟨index, hindex, not_lt.mp hle⟩)

theorem component_fails (x : ExtendedPublicKey) (hhard : IsHardened component) :
    (x.deriveComponent curve digests component).toOption = none := by
  unfold ExtendedPublicKey.deriveComponent
  rcases hhard with hmark | ⟨index, hindex, hle⟩
  · have hsome : ¬ component.isEmpty = true := by
      intro hempty
      rw [List.isEmpty_iff.mp hempty] at hmark
      cases hmark
    rw [if_neg hsome, if_pos hmark]
    rfl
  · have hsome : ¬ component.isEmpty = true := by
      intro hempty
      rw [List.isEmpty_iff.mp hempty] at hindex
      cases hindex
    rw [if_neg hsome, hindex]
    split
    · rfl
    · show (x.deriveChild curve digests index).toOption = none
      rw [ExtendedPublicKey.deriveChild, if_pos hle]
      rfl

/-! A curve with the real points of two keys: the master key of the second test vector of BIP-32 and its
child `m/1`. -/

def masterKey : ℕ := 0x4b03d6fc340455b363f51020ad3ecca4f0850280cf436c70c727923f6db46c3e

def childKey : ℕ := 0x63bbae9fe4abd1ff6ac75ab7306ea1d91a743246be33b2c6eb6fef812180924d

def masterPoint : List UInt8 :=
  3 :: (bytesOf 0xcbcaa9c98c877a26977d00825c956a238e8dddfbd322cce4f74b0b5bd6ace4a7).bytes

def childPoint : List UInt8 :=
  3 :: (bytesOf 0xc6300a6eafa84663efc570ee5ad0b320b8c9669d6795ddc33c6ffeb5500719fe).bytes

def twoPoints : Curve (ZMod order) where
  base := 1
  serialize p :=
    if p = masterKey then masterPoint else if p = childKey then childPoint else 2 :: (bytesOf p.val).bytes
  parse bytes :=
    if bytes = masterPoint then some masterKey
    else if bytes = childPoint then some childKey
    else some (value (bytes.drop 1) : ℕ)

theorem twoPoints_lawful : Lawful twoPoints where
  order_eq k := by
    show k • (1 : ZMod order) = 0 ↔ order ∣ k
    rw [nsmul_one, ZMod.natCast_eq_zero_iff]
  parse_serialize p _ := by
    have hdistinct : childPoint ≠ masterPoint := by decide +kernel
    have hother : ∀ v, 2 :: (bytesOf v).bytes ≠ masterPoint ∧ 2 :: (bytesOf v).bytes ≠ childPoint := by
      intro v
      constructor <;> exact fun h => absurd (List.head_eq_of_cons_eq h) (by decide)
    have hval : p.val < order := ZMod.val_lt p
    dsimp only [twoPoints]
    split
    next hmaster => rw [if_pos rfl, hmaster]
    next =>
      split
      next hchild => rw [if_pos rfl, hchild]
      next =>
        rw [if_neg (hother _).1, if_neg (hother _).2, List.drop_one, List.tail_cons,
          value_bytesOf (hval.trans order_lt), ZMod.natCast_zmod_val]
  compressed p _ := by
    dsimp only [twoPoints]
    split
    next => exact Or.inr rfl
    next =>
      split
      next => exact Or.inr rfl
      next => exact Or.inl rfl

/-- The digests of the child `m/1` and of the master key's fingerprint. -/
def vectorDigests : Digests where
  sha256 := Sha256.sha256
  ripemd160 := Ripemd160.ripemd160
  sha512 data := if data.length = 165 then
      (leBytes 64 0xf701d33f7ebeaefe39888a20282f1cb4073e55b985b77b95afc4d89c4ada36b64a8609546438caa1c08c3c8d4437e8f9d3d6441f60d265e3aedfd279f56f5c22).reverse
    else
      (leBytes 64 0x18b7d7a3b0a77c4c06d24a96832fd53429ef2fc5eef0465624485d41b3cc260f009e0528bc0cd2b12baf964a6de3ee6f4c05513fe990b0077ddeb726c017c0f5).reverse

def masterOfVector : ExtendedPrivateKey where
  version := mainnetPrivate
  depth := 0
  parentFingerprint := [0, 0, 0, 0]
  childIndex := 0
  chainCode := bytesOf 0x60499f801b896d83179a4374aeb7822aaeaceaa0db1f85ee3e904c4defbd9689
  privateKey := bytesOf masterKey

/-- A path without hardened indices derives the same watching key from either side, and one with a hardened
index none from the public side. -/
theorem derivations_commute (hcurve : Lawful curve) (digests : Digests) (k : ExtendedPrivateKey) (path : List Char) :
    ((∀ component ∈ pathComponents (trim path), ¬ IsHardened component) →
      (k.derivePath curve digests path >>= fun c => c.toExtendedPublicKey curve).toOption =
        (k.toExtendedPublicKey curve >>= fun x => x.derivePath curve digests path).toOption) ∧
    ((∃ component ∈ pathComponents (trim path), IsHardened component) →
      ∀ x : ExtendedPublicKey, (x.derivePath curve digests path).toOption = none) := by
  unfold ExtendedPrivateKey.derivePath ExtendedPublicKey.derivePath
  by_cases hstart : startsPath (trim path) = true
  · simp only [if_neg (not_not_intro hstart)]
    constructor
    · intro hnormal
      refine foldlM_commute ?_ k
      intro component hmem a
      exact component_commutes hcurve a (hnormal component hmem)
    · rintro ⟨component, hmem, hhard⟩ x
      exact foldlM_fails hmem (fun a => component_fails a hhard) x
  · simp only [if_pos hstart, toOption_bind, toOption_error, Option.bind_none, Option.bind_fun_none]
    exact ⟨fun _ => trivial, fun _ _ => trivial⟩

theorem first_child_watched : (masterOfVector.derivePath twoPoints vectorDigests "m/1".toList >>=
        fun c => c.toExtendedPublicKey twoPoints).toOption =
      (masterOfVector.toExtendedPublicKey twoPoints >>=
        fun x => x.derivePath twoPoints vectorDigests "m/1".toList).toOption := by
  have hparts : pathComponents (trim "m/1".toList) = [['1']] := by decide
  refine (derivations_commute twoPoints_lawful vectorDigests masterOfVector "m/1".toList).1 ?_
  intro component hmem
  rw [hparts, List.mem_singleton] at hmem
  rw [hmem]
  rintro (hmark | ⟨index, hindex, hle⟩)
  · cases hmark
  · rw [show parseUnsigned 32 ['1'] = some 1 by decide] at hindex
    rw [← Option.some.inj hindex] at hle
    exact absurd hle (by decide)

end Children

end KuberCoin.HdWallets
