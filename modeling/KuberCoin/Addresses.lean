import KuberCoin.Bech32Substitutions
import KuberCoin.Miniscripts

/-!
Addresses of the five types (crate `tx`, `address`) over base58 and bech32.
The base58 crate is a pair of functions. An address keeps a version byte for its network, and the
byte of the test network stands for the regression network too, so a regression address is
written again with the prefix of the test network.
-/
namespace KuberCoin.Addresses

open Bytes Transactions Miniscripts Bech32Codes Bech32Programs Bech32Strings Bech32Exactness

section Networks

inductive Network where
  | mainnet
  | testnet
  | signet
  | regtest
  deriving DecidableEq

def hrpForNetwork : Network → List Char
  | .mainnet => hrpMainnet
  | .testnet => hrpTestnet
  | .signet => hrpTestnet
  | .regtest => hrpRegtest

def networkForHrp (hrp : List Char) : Except Bech32mError Network :=
  if hrp = hrpMainnet then .ok .mainnet
  else if hrp = hrpTestnet then .ok .testnet
  else if hrp = hrpRegtest then .ok .regtest
  else .error .invalidHrp

def encodeP2wpkhAddress (pubkeyHash : Bytes20) (network : Network) : Except Bech32mError (List Char) :=
  encode (hrpForNetwork network) 0 pubkeyHash.bytes

def encodeTaprootAddress (outputKey : Bytes32) (network : Network) : Except Bech32mError (List Char) :=
  encode (hrpForNetwork network) 1 outputKey.bytes

/-- Reading a program of one version and one length, on a network. -/
def decodeProgram (lower : Lowering) (version : UInt8) (length : ℕ)
    (notVersion : UInt8 → Bech32mError) (addr : List Char) :
    Except Failure (Network × { p : List UInt8 // p.length = length }) := do
  let (hrp, witver, witprog) ← decode lower addr
  if witver ≠ version then fail (notVersion witver)
  else if h : witprog.length = length then do
    let network ← lift (networkForHrp hrp)
    return (network, ⟨witprog, h⟩)
  else fail (.invalidWitnessProgramLength witprog.length)

def decodeP2wpkhAddress (lower : Lowering) (addr : List Char) : Except Failure (Network × Bytes20) := do
  let (network, p) ← decodeProgram lower 0 20 .notSegwitV0Address addr
  return (network, ⟨p.1, p.2⟩)

def decodeP2wshAddress (lower : Lowering) (addr : List Char) : Except Failure (Network × Bytes32) := do
  let (network, p) ← decodeProgram lower 0 32 .notSegwitV0Address addr
  return (network, ⟨p.1, p.2⟩)

def decodeTaprootAddress (lower : Lowering) (addr : List Char) : Except Failure (Network × Bytes32) := do
  let (network, p) ← decodeProgram lower 1 32 .notTaprootAddress addr
  return (network, ⟨p.1, p.2⟩)

end Networks

section Model

def mainnetAddressVersion : UInt8 := 0x2D

def testnetAddressVersion : UInt8 := 0x6F

def p2shMainnetVersion : UInt8 := 0x32

def p2shTestnetVersion : UInt8 := 0xC4

inductive AddressType where
  | p2pkh
  | p2sh
  | p2wpkh
  | p2wsh
  | p2tr
  deriving DecidableEq

structure Address where
  pubkeyHash : Bytes20
  version : UInt8
  addressType : AddressType
  taprootOutputKey : Option Bytes32
  deriving DecidableEq

/-- Why a string is no address, or that reading it ran below zero. -/
inductive AddressFailure where
  | invalidBase58
  | invalidLength (length : ℕ)
  | invalidChecksum
  | unknownVersion (version : UInt8)
  | underflow
  deriving DecidableEq

def zeroHash : Bytes20 := ⟨List.replicate 20 0, List.length_replicate⟩

def Address.fromPubkeyHashWithVersion (pubkeyHash : Bytes20) (version : UInt8) : Address :=
  { pubkeyHash, version, addressType := .p2pkh, taprootOutputKey := none }

def Address.fromPubkeyP2wpkhWithVersion (pubkeyHash : Bytes20) (version : UInt8) : Address :=
  { pubkeyHash, version, addressType := .p2wpkh, taprootOutputKey := none }

def Address.fromTaprootOutputKeyWithVersion (outputKey : Bytes32) (version : UInt8) : Address :=
  { pubkeyHash := zeroHash, version, addressType := .p2tr, taprootOutputKey := some outputKey }

def Address.fromScriptHashWithVersion (scriptHash : Bytes20) (version : UInt8) : Address :=
  { pubkeyHash := scriptHash, version, addressType := .p2sh, taprootOutputKey := none }

def versionToNetwork (version : UInt8) : Network :=
  if version = mainnetAddressVersion ∨ version = p2shMainnetVersion then .mainnet else .testnet

def networkToVersion : Network → UInt8
  | .mainnet => mainnetAddressVersion
  | _ => testnetAddressVersion

variable (sha256 : Sha256) (bs58Encode : List UInt8 → List Char)
  (bs58Decode : List Char → Option (List UInt8)) (lower : Lowering)

def checksum (payload : List UInt8) : List UInt8 := (sha256d sha256 payload).bytes.take 4

def Address.encodeBase58 (a : Address) : List Char :=
  let payload := a.version :: a.pubkeyHash.bytes
  bs58Encode (payload ++ checksum sha256 payload)

/-- Writing an address; `none` where the code would stop at an `expect`. -/
def Address.encode (a : Address) : Option (List Char) :=
  match a.addressType with
  | .p2pkh => some (a.encodeBase58 sha256 bs58Encode)
  | .p2sh => some (a.encodeBase58 sha256 bs58Encode)
  | .p2wpkh => (encodeP2wpkhAddress a.pubkeyHash (versionToNetwork a.version)).toOption
  | .p2wsh => do
      let witnessProgram ← a.taprootOutputKey
      (Bech32Codes.encode (hrpForNetwork (versionToNetwork a.version)) 0 witnessProgram.bytes).toOption
  | .p2tr => do
      let outputKey ← a.taprootOutputKey
      (encodeTaprootAddress outputKey (versionToNetwork a.version)).toOption

def decodeBase58 (addr : List Char) : Except AddressFailure Address :=
  match bs58Decode addr with
  | none => .error .invalidBase58
  | some bytes =>
      if h : bytes.length = 25 then
        let version := bytes.headD 0
        let pubkeyHash : Bytes20 := ⟨(bytes.drop 1).take 20, by simp [h]⟩
        if bytes.drop 21 ≠ checksum sha256 (bytes.take 21) then .error .invalidChecksum
        else if version = mainnetAddressVersion ∨ version = testnetAddressVersion then
          .ok { pubkeyHash, version, addressType := .p2pkh, taprootOutputKey := none }
        else if version = p2shMainnetVersion ∨ version = p2shTestnetVersion then
          .ok { pubkeyHash, version, addressType := .p2sh, taprootOutputKey := none }
        else .error (.unknownVersion version)
      else .error (.invalidLength bytes.length)

/-- Try one way of reading, and the next where it ends with an error. -/
def orElseRead {α : Type} (read : Except Failure α) (found : α → Address)
    (next : Except AddressFailure Address) : Except AddressFailure Address :=
  match read with
  | .ok a => .ok (found a)
  | .error .underflow => .error .underflow
  | .error (.error _) => next

def Address.decode (addr : List Char) : Except AddressFailure Address :=
  orElseRead (decodeP2wpkhAddress lower addr)
    (fun r =>
      { pubkeyHash := r.2, version := networkToVersion r.1, addressType := .p2wpkh
        taprootOutputKey := none })
    (orElseRead (decodeP2wshAddress lower addr)
      (fun r =>
        { pubkeyHash := zeroHash, version := networkToVersion r.1, addressType := .p2wsh
          taprootOutputKey := some r.2 })
      (orElseRead (decodeTaprootAddress lower addr)
        (fun r =>
          { pubkeyHash := zeroHash, version := networkToVersion r.1, addressType := .p2tr
            taprootOutputKey := some r.2 })
        (decodeBase58 sha256 bs58Decode addr)))

def Address.toScriptPubkey (a : Address) : List UInt8 :=
  match a.addressType with
  | .p2pkh => [0x76, 0xa9, 20] ++ a.pubkeyHash.bytes ++ [0x88, 0xac]
  | .p2sh => [0xa9, 20] ++ a.pubkeyHash.bytes ++ [0x87]
  | .p2wpkh => [0x00, 20] ++ a.pubkeyHash.bytes
  | .p2wsh => [0x00, 32] ++ (a.taprootOutputKey.getD Bytes32.zero).bytes
  | .p2tr => [0x51, 32] ++ (a.taprootOutputKey.getD Bytes32.zero).bytes

end Model

section Reading

variable {lower : Lowering} {s hrp : List Char}

theorem decodeProgram_cases (lower : Lowering) (version : UInt8) (length : ℕ) (notVersion : UInt8 → Bech32mError)
    (s : List Char) : (∃ hrp network p, Reads lower s hrp version p.1 ∧ networkForHrp hrp = .ok network ∧
        decodeProgram lower version length notVersion s = .ok (network, p)) ∨
      (TooShort lower s ∧ decodeProgram lower version length notVersion s = .error .underflow) ∨
        (¬ TooShort lower s ∧ (∃ e, decodeProgram lower version length notVersion s = .error (.error e)) ∧
          ∀ hrp network p, p.length = length → Reads lower s hrp version p →
            networkForHrp hrp ≠ .ok network) := by
  unfold decodeProgram
  cases hdecode : decode lower s with
  | error e =>
    cases e with
    | underflow => exact .inr (.inl ⟨decode_eq_underflow.mp hdecode, rfl⟩)
    | error e =>
      refine .inr (.inr ⟨?_, ⟨e, rfl⟩, ?_⟩)
      · intro hshort
        rw [decode_eq_underflow.mpr hshort] at hdecode
        cases hdecode
      · intro hrp network p _ hreads
        rw [decode_eq_ok.mpr hreads] at hdecode
        cases hdecode
  | ok r =>
    obtain ⟨hrp, witver, witprog⟩ := r
    have hreads := decode_eq_ok.mp hdecode
    have hunique : ∀ {hrp' version' p}, Reads lower s hrp' version' p →
        hrp' = hrp ∧ version' = witver ∧ p = witprog := by
      intro hrp' version' p hreads'
      have hok := decode_eq_ok.mpr hreads'
      rw [hdecode, Except.ok.injEq, Prod.mk.injEq, Prod.mk.injEq] at hok
      exact ⟨hok.1.symm, hok.2.1.symm, hok.2.2.symm⟩
    have hlong : ¬ TooShort lower s := by
      intro hshort
      rw [decode_eq_underflow.mpr hshort] at hdecode
      cases hdecode
    simp only [bind, Except.bind]
    by_cases hver : witver = version
    · by_cases hlength : witprog.length = length
      · cases hnet : networkForHrp hrp with
        | ok network =>
          refine .inl ⟨hrp, network, ⟨witprog, hlength⟩, hver ▸ hreads, hnet, ?_⟩
          rw [if_neg (not_not.mpr hver), dif_pos hlength]
          rfl
        | error e =>
          refine .inr (.inr ⟨hlong, ⟨e, ?_⟩, ?_⟩)
          · rw [if_neg (not_not.mpr hver), dif_pos hlength]
            rfl
          · intro hrp' network p _ hreads'
            rw [(hunique hreads').1, hnet]
            exact fun h => by cases h
      · refine .inr (.inr ⟨hlong, ⟨.invalidWitnessProgramLength witprog.length, ?_⟩, ?_⟩)
        · rw [if_neg (not_not.mpr hver), dif_neg hlength]
          rfl
        · intro hrp' network p hp hreads'
          rw [(hunique hreads').2.2] at hp
          exact absurd hp hlength
    · refine .inr (.inr ⟨hlong, ⟨notVersion witver, if_pos hver⟩, ?_⟩)
      intro hrp' network p _ hreads'
      exact absurd (hunique hreads').2.1.symm hver

/-- The string spells an address of one of the networks, and this is what it is read as. -/
inductive ReadsAs (lower : Lowering) (s hrp : List Char) (network : Network) : Address → Prop where
  | p2wpkh (hash : Bytes20) (h : Reads lower s hrp 0 hash.bytes) :
      ReadsAs lower s hrp network
        { pubkeyHash := hash, version := networkToVersion network, addressType := .p2wpkh
          taprootOutputKey := none }
  | p2wsh (hash : Bytes32) (h : Reads lower s hrp 0 hash.bytes) :
      ReadsAs lower s hrp network
        { pubkeyHash := zeroHash, version := networkToVersion network, addressType := .p2wsh
          taprootOutputKey := some hash }
  | p2tr (key : Bytes32) (h : Reads lower s hrp 1 key.bytes) :
      ReadsAs lower s hrp network
        { pubkeyHash := zeroHash, version := networkToVersion network, addressType := .p2tr
          taprootOutputKey := some key }

variable {sha256 : Sha256} {bs58Encode : List UInt8 → List Char}
  {bs58Decode : List Char → Option (List UInt8)} {network : Network} {a : Address}

theorem decode_cases (sha256 : Sha256) (bs58Decode : List Char → Option (List UInt8)) (lower : Lowering)
    (s : List Char) : (∃ hrp network a, networkForHrp hrp = .ok network ∧ ReadsAs lower s hrp network a ∧
        Address.decode sha256 bs58Decode lower s = .ok a) ∨
      (TooShort lower s ∧ Address.decode sha256 bs58Decode lower s = .error .underflow) ∨
        (¬ TooShort lower s ∧
          (∀ hrp network a, networkForHrp hrp = .ok network → ¬ ReadsAs lower s hrp network a) ∧
            Address.decode sha256 bs58Decode lower s = decodeBase58 sha256 bs58Decode s) := by
  unfold Address.decode decodeP2wpkhAddress decodeP2wshAddress decodeTaprootAddress
  obtain ⟨hrp, network, p, hreads, hnet, hok⟩ | ⟨hshort, hflow⟩ | ⟨hlong, ⟨e, herr⟩, hnone⟩ :=
    decodeProgram_cases lower 0 20 .notSegwitV0Address s
  · refine .inl ⟨hrp, network, _, hnet, .p2wpkh ⟨p.1, p.2⟩ hreads, ?_⟩
    rw [hok]
    rfl
  · refine .inr (.inl ⟨hshort, ?_⟩)
    rw [hflow]
    rfl
  obtain ⟨hrp, network, p, hreads, hnet, hok⟩ | ⟨hshort, hflow⟩ | ⟨-, ⟨e', herr'⟩, hnone'⟩ :=
    decodeProgram_cases lower 0 32 .notSegwitV0Address s
  · refine .inl ⟨hrp, network, _, hnet, .p2wsh ⟨p.1, p.2⟩ hreads, ?_⟩
    rw [herr, hok]
    rfl
  · exact absurd hshort hlong
  obtain ⟨hrp, network, p, hreads, hnet, hok⟩ | ⟨hshort, hflow⟩ | ⟨-, ⟨e'', herr''⟩, hnone''⟩ :=
    decodeProgram_cases lower 1 32 .notTaprootAddress s
  · refine .inl ⟨hrp, network, _, hnet, .p2tr ⟨p.1, p.2⟩ hreads, ?_⟩
    rw [herr, herr', hok]
    rfl
  · exact absurd hshort hlong
  refine .inr (.inr ⟨hlong, ?_, ?_⟩)
  · intro hrp network a hnet hreads
    cases hreads with
    | p2wpkh hash h => exact hnone hrp network _ hash.length_eq h hnet
    | p2wsh hash h => exact hnone' hrp network _ hash.length_eq h hnet
    | p2tr key h => exact hnone'' hrp network _ key.length_eq h hnet
  · rw [herr, herr', herr'']
    rfl

/-- The human-readable part an address of this network is written with. -/
def writtenHrp (network : Network) : List Char :=
  hrpForNetwork (versionToNetwork (networkToVersion network))

theorem ReadsAs.encode (sha256 : Sha256) (bs58Encode : List UInt8 → List Char) (h : ReadsAs lower s hrp network a) :
    ∃ witver witprog, Reads lower s hrp witver witprog ∧
      a.encode sha256 bs58Encode = (Bech32Codes.encode (writtenHrp network) witver witprog).toOption := by
  cases h with
  | p2wpkh hash h => exact ⟨0, hash.bytes, h, rfl⟩
  | p2wsh hash h => exact ⟨0, hash.bytes, h, rfl⟩
  | p2tr key h => exact ⟨1, key.bytes, h, rfl⟩

theorem ReadsAs.type_ne (h : ReadsAs lower s hrp network a) : a.addressType ≠ .p2pkh ∧ a.addressType ≠ .p2sh := by
  cases h with
  | p2wpkh => exact ⟨by simp, by simp⟩
  | p2wsh => exact ⟨by simp, by simp⟩
  | p2tr => exact ⟨by simp, by simp⟩

theorem networkForHrp_eq_ok (h : networkForHrp hrp = .ok network) :
    hrp ∈ supported ∧ (hrp ≠ hrpRegtest → writtenHrp network = hrp) ∧
      (hrp = hrpRegtest → writtenHrp network = hrpTestnet) := by
  unfold networkForHrp at h
  split at h
  case isTrue hmain =>
    rw [Except.ok.injEq] at h
    subst hmain h
    exact ⟨by decide, fun _ => by decide, by decide⟩
  case isFalse =>
    split at h
    case isTrue htest =>
      rw [Except.ok.injEq] at h
      subst htest h
      exact ⟨by decide, fun _ => by decide, by decide⟩
    case isFalse =>
      split at h
      case isTrue hreg =>
        rw [Except.ok.injEq] at h
        subst hreg h
        exact ⟨by decide, fun hne => absurd rfl hne, fun _ => by decide⟩
      case isFalse => cases h

theorem writtenHrp_supported (network : Network) : writtenHrp network ∈ supported := by
  cases network <;> decide

/-- An address that was read is written as the lower-cased string, unless it is one of the
regression network or a character that is not ASCII was taken for a symbol. -/
theorem ReadsAs.encode_eq_iff (hnet : networkForHrp hrp = .ok network) (h : ReadsAs lower s hrp network a) :
    a.encode sha256 bs58Encode = some (toLowercase lower s) ↔
      hrp ≠ hrpRegtest ∧ (toLowercase lower s).all isAscii := by
  obtain ⟨witver, witprog, ⟨hstring, hpart, dataPart, symbols, heq, hwrites, hspells⟩, hencode⟩ :=
    h.encode sha256 bs58Encode
  obtain ⟨hsupported, hsame, hregtest⟩ := networkForHrp_eq_ok hnet
  obtain ⟨haccepts, narrow, hgrouped, hsymbols⟩ := id hspells
  have hlen := utf8Length_ascii (supported_readable (writtenHrp_supported network)).ascii
  have hle : (writtenHrp network).length ≤ 83 := by
    have hlen' := (supported_plain _ (writtenHrp_supported network)).2.2.1
    omega
  by_cases hreg : hrp = hrpRegtest
  · simp only [hreg, ne_eq, not_true_eq_false, false_and, iff_false]
    intro hwritten
    rw [hencode, hregtest hreg] at hwritten
    cases hencoded : Bech32Codes.encode hrpTestnet witver witprog with
    | error e =>
      rw [hencoded] at hwritten
      cases hwritten
    | ok written =>
      obtain ⟨-, -, symbols', -, rfl⟩ := encode_eq_ok.mp hencoded
      rw [hencoded, heq, hreg] at hwritten
      have hhead := congrArg (fun o => o.bind List.head?) hwritten
      revert hhead
      simp [Except.toOption, hrpTestnet, hrpRegtest]
  · rw [hsame hreg] at hencode
    have hencoded : Bech32Codes.encode hrp witver witprog = .ok (hrp ++ '1' :: symbols.map symbolAt) :=
      encode_eq_ok.mpr ⟨hpart, by rw [← hsame hreg]; omega, symbols, hspells, rfl⟩
    rw [hencode, hencoded, heq]
    simp only [Except.toOption, Option.some.injEq, List.append_cancel_left_eq, List.cons.injEq, true_and,
      ne_eq, hreg, not_false_eq_true, List.all_append, List.all_cons, Bool.and_eq_true]
    constructor
    · intro hdata
      rw [← hdata]
      exact ⟨hpart.ascii, by decide, all_ascii_of_plain (symbols_plain hspells.lt)⟩
    · rintro ⟨-, -, hdata⟩
      rw [← hwrites.1, map_lowByte_ascii hdata]

end Reading

end KuberCoin.Addresses
