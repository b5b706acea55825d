import KuberCoin.Addresses
import KuberCoin.Rebasings

/-!
Which addresses come back from their text, and which texts from their addresses.
Base58 text is too short to spell a bech32 address. A bech32 text comes back unless it is one of
the regression network, whose prefix no version byte keeps, or a character of another alphabet
passed for one of its symbols.
-/
namespace KuberCoin.AddressRoundTrips

open Bytes Transactions Miniscripts Bech32Codes Bech32Programs Bech32Strings Bech32Exactness Addresses

section Base58

variable {version : UInt8} {hash : Bytes20} {hrp : List Char}

/-- What the base58 crate is documented to do, with its default alphabet. -/
structure Base58 (bs58Encode : List UInt8 → List Char) (bs58Decode : List Char → Option (List UInt8)) :
    Prop where
  decode_encode : ∀ bytes, bs58Decode (bs58Encode bytes) = some bytes
  encode_decode : ∀ {s bytes}, bs58Decode s = some bytes → bs58Encode bytes = s
  ascii : ∀ bytes, (bs58Encode bytes).all isAscii
  short : ∀ bytes, bytes.length = 25 → (bs58Encode bytes).length ≤ 35

variable {sha256 : Sha256} {bs58Encode : List UInt8 → List Char}
  {bs58Decode : List Char → Option (List UInt8)} {lower : Lowering} {s : List Char} {a : Address}

/-- The text of an address is base58. -/
def IsBase58 (a : Address) : Prop := a.addressType = .p2pkh ∨ a.addressType = .p2sh

instance (a : Address) : Decidable (IsBase58 a) := inferInstanceAs (Decidable (_ ∨ _))

theorem encode_of_isBase58 (h : IsBase58 a) : a.encode sha256 bs58Encode = some (a.encodeBase58 sha256 bs58Encode) := by
  obtain h | h := h
  all_goals simp only [Address.encode, h]

theorem checksum_length (payload : List UInt8) : (checksum sha256 payload).length = 4 := by
  simp [checksum, (sha256d sha256 payload).length_eq]

theorem encode_of_decodeBase58 (hbase : Base58 bs58Encode bs58Decode) (h : decodeBase58 sha256 bs58Decode s = .ok a) :
    IsBase58 a ∧ a.encode sha256 bs58Encode = some s := by
  unfold decodeBase58 at h
  cases hbytes : bs58Decode s with
  | none =>
    rw [hbytes] at h
    cases h
  | some bytes =>
    rw [hbytes] at h
    by_cases hlength : bytes.length = 25
    · simp only [dif_pos hlength] at h
      split at h
      · cases h
      rename_i hcheck
      have hpayload : bytes.headD 0 :: (bytes.drop 1).take 20 = bytes.take 21 := by
        cases bytes with
        | nil => simp at hlength
        | cons b rest => rfl
      have hwritten : bs58Encode ((bytes.headD 0 :: (bytes.drop 1).take 20) ++
          checksum sha256 (bytes.headD 0 :: (bytes.drop 1).take 20)) = s := by
        rw [hpayload, ← not_not.mp hcheck, List.take_append_drop]
        exact hbase.encode_decode hbytes
      split at h
      · rw [Except.ok.injEq] at h
        subst h
        refine ⟨.inl rfl, ?_⟩
        rw [encode_of_isBase58 (.inl rfl)]
        exact congrArg some hwritten
      · split at h
        · rw [Except.ok.injEq] at h
          subst h
          refine ⟨.inr rfl, ?_⟩
          rw [encode_of_isBase58 (.inr rfl)]
          exact congrArg some hwritten
        · cases h
    · simp only [dif_neg hlength] at h
      cases h

/-- The address types that a constructor makes, with the version bytes declared for them. -/
inductive Built : Address → Prop where
  | pubkeyHash (hash : Bytes20) {version : UInt8}
      (h : version = mainnetAddressVersion ∨ version = testnetAddressVersion) :
      Built (.fromPubkeyHashWithVersion hash version)
  | p2wpkh (hash : Bytes20) {version : UInt8}
      (h : version = mainnetAddressVersion ∨ version = testnetAddressVersion) :
      Built (.fromPubkeyP2wpkhWithVersion hash version)
  | taproot (key : Bytes32) {version : UInt8}
      (h : version = mainnetAddressVersion ∨ version = testnetAddressVersion) :
      Built (.fromTaprootOutputKeyWithVersion key version)
  | scriptHash (hash : Bytes20) {version : UInt8}
      (h : version = p2shMainnetVersion ∨ version = p2shTestnetVersion) :
      Built (.fromScriptHashWithVersion hash version)

theorem decodeBase58_eq {bytes : List UInt8} (h : bs58Decode s = some bytes) (hlength : bytes.length = 25)
    (hcheck : bytes.drop 21 = checksum sha256 (bytes.take 21)) (hversion : bytes.headD 0 = version)
    (hhash : (bytes.drop 1).take 20 = hash.bytes) : decodeBase58 sha256 bs58Decode s =
      if version = mainnetAddressVersion ∨ version = testnetAddressVersion then
        .ok (.fromPubkeyHashWithVersion hash version)
      else if version = p2shMainnetVersion ∨ version = p2shTestnetVersion then
        .ok (.fromScriptHashWithVersion hash version)
      else .error (.unknownVersion version) := by
  unfold decodeBase58
  rw [h]
  simp only [dif_pos hlength, hcheck, hhash, hversion, ne_eq, not_true_eq_false, if_false]
  rfl

theorem decodeBase58_payload
    (h : bs58Decode s = some (version :: hash.bytes ++ checksum sha256 (version :: hash.bytes))) :
    decodeBase58 sha256 bs58Decode s =
      if version = mainnetAddressVersion ∨ version = testnetAddressVersion then
        .ok (.fromPubkeyHashWithVersion hash version)
      else if version = p2shMainnetVersion ∨ version = p2shTestnetVersion then
        .ok (.fromScriptHashWithVersion hash version)
      else .error (.unknownVersion version) := by
  have hpayload : (version :: hash.bytes).length = 21 := by rw [List.length_cons, hash.length_eq]
  apply decodeBase58_eq h
  · rw [List.length_append, hpayload, checksum_length]
  · rw [List.drop_left' hpayload, List.take_left' hpayload]
  · rfl
  · exact List.take_left' hash.length_eq

theorem decodeBase58_encodeBase58 (hbase : Base58 bs58Encode bs58Decode) (ha : Built a) (h : IsBase58 a) :
    decodeBase58 sha256 bs58Decode (a.encodeBase58 sha256 bs58Encode) = .ok a := by
  cases ha with
  | pubkeyHash hash hversion =>
    exact (decodeBase58_payload (hbase.decode_encode _)).trans (if_pos hversion)
  | p2wpkh hash hversion => simp [IsBase58, Address.fromPubkeyP2wpkhWithVersion] at h
  | taproot key hversion => simp [IsBase58, Address.fromTaprootOutputKeyWithVersion] at h
  | @scriptHash hash version hversion =>
    have hother : ¬ (version = mainnetAddressVersion ∨ version = testnetAddressVersion) := by
      obtain rfl | rfl := hversion
      all_goals decide
    exact (decodeBase58_payload (hbase.decode_encode _)).trans ((if_neg hother).trans (if_pos hversion))

theorem not_reads_short (hlower : LowersAscii lower) (hascii : s.all isAscii) (hshort : s.length ≤ 35) {witver : UInt8}
    {witprog : List UInt8} : ¬ Reads lower s hrp witver witprog := by
  rintro ⟨-, -, dataPart, symbols, heq, hwrites, hspells⟩
  have hlength := congrArg List.length heq
  have hlong := (Spells.length hspells).1
  rw [toLowercase_ascii hlower hascii, List.length_map, List.length_append, List.length_cons,
    hwrites.length] at hlength
  omega

theorem ReadsAs.reads {network : Network} (h : ReadsAs lower s hrp network a) :
    ∃ witver witprog, Reads lower s hrp witver witprog := by
  cases h with
  | p2wpkh hash h => exact ⟨0, hash.bytes, h⟩
  | p2wsh hash h => exact ⟨0, hash.bytes, h⟩
  | p2tr key h => exact ⟨1, key.bytes, h⟩

theorem encodeBase58_length (sha256 : Sha256) (hbase : Base58 bs58Encode bs58Decode) (a : Address) :
    (a.encodeBase58 sha256 bs58Encode).all isAscii ∧ (a.encodeBase58 sha256 bs58Encode).length ≤ 35 := by
  refine ⟨hbase.ascii _, hbase.short _ ?_⟩
  rw [List.length_append, List.length_cons, a.pubkeyHash.length_eq, checksum_length]

end Base58

section RoundTrips

variable {sha256 : Sha256} {bs58Encode : List UInt8 → List Char}
  {bs58Decode : List Char → Option (List UInt8)} {lower : Lowering} {s hrp hrp' : List Char}
  {network network' : Network} {a a' : Address}

theorem Reads.unique {witver witver' : UInt8} {witprog witprog' : List UInt8} (h : Reads lower s hrp witver witprog)
    (h' : Reads lower s hrp' witver' witprog') : hrp = hrp' ∧ witver = witver' ∧ witprog = witprog' := by
  have hok := decode_eq_ok.mpr h
  rw [decode_eq_ok.mpr h', Except.ok.injEq, Prod.mk.injEq, Prod.mk.injEq] at hok
  exact ⟨hok.1.symm, hok.2.1.symm, hok.2.2.symm⟩

theorem Reads.not_tooShort {witver : UInt8} {witprog : List UInt8} (h : Reads lower s hrp witver witprog) :
    ¬ TooShort lower s := by
  intro hshort
  have hflow := decode_eq_underflow.mpr hshort
  rw [decode_eq_ok.mpr h] at hflow
  cases hflow

theorem ReadsAs.unique (h : ReadsAs lower s hrp network a) (h' : ReadsAs lower s hrp' network' a')
    (hnet : networkForHrp hrp = .ok network) (hnet' : networkForHrp hrp' = .ok network') : a = a' := by
  have hnetworks : hrp = hrp' → network = network' := by
    rintro rfl
    rw [hnet, Except.ok.injEq] at hnet'
    exact hnet'
  have hone : (0 : UInt8) ≠ 1 := by decide
  have hlengths : ∀ (hash : Bytes20) (key : Bytes32), hash.bytes ≠ key.bytes := by
    intro hash key heq
    have hlength := congrArg List.length heq
    rw [hash.length_eq, key.length_eq] at hlength
    omega
  cases h with
  | p2wpkh hash h =>
    cases h' with
    | p2wpkh hash' h' =>
      obtain ⟨hhrp, -, hbytes⟩ := Reads.unique h h'
      have hsame : hash = hash' := by
        cases hash
        cases hash'
        simpa using hbytes
      rw [hsame, hnetworks hhrp]
    | p2wsh hash' h' => exact absurd (Reads.unique h h').2.2 (hlengths hash hash')
    | p2tr key' h' => exact absurd (Reads.unique h h').2.1 hone
  | p2wsh hash h =>
    cases h' with
    | p2wpkh hash' h' => exact absurd (Reads.unique h h').2.2.symm (hlengths hash' hash)
    | p2wsh hash' h' =>
      obtain ⟨hhrp, -, hbytes⟩ := Reads.unique h h'
      rw [Bytes32.ext_bytes hbytes, hnetworks hhrp]
    | p2tr key' h' => exact absurd (Reads.unique h h').2.1 hone
  | p2tr key h =>
    cases h' with
    | p2wpkh hash' h' => exact absurd (Reads.unique h h').2.1.symm hone
    | p2wsh hash' h' => exact absurd (Reads.unique h h').2.1.symm hone
    | p2tr key' h' =>
      obtain ⟨hhrp, -, hbytes⟩ := Reads.unique h h'
      rw [Bytes32.ext_bytes hbytes, hnetworks hhrp]

theorem ReadsAs.decode (h : ReadsAs lower s hrp network a) (hnet : networkForHrp hrp = .ok network) :
    Address.decode sha256 bs58Decode lower s = .ok a := by
  obtain ⟨hrp', network', a', hnet', h', hok⟩ | ⟨hshort, -⟩ | ⟨-, hnone, -⟩ :=
    decode_cases sha256 bs58Decode lower s
  · rw [hok, ReadsAs.unique h h' hnet hnet']
  · obtain ⟨witver, witprog, hreads⟩ := ReadsAs.reads h
    exact absurd hshort (Reads.not_tooShort hreads)
  · exact absurd h (hnone hrp network a hnet)

theorem network_of_version {version : UInt8} (h : version = mainnetAddressVersion ∨ version = testnetAddressVersion) :
    networkToVersion (versionToNetwork version) = version ∧
      networkForHrp (hrpForNetwork (versionToNetwork version)) = .ok (versionToNetwork version) ∧
        hrpForNetwork (versionToNetwork version) ∈ supported := by
  obtain rfl | rfl := h
  all_goals exact ⟨by decide, by decide, by decide⟩

theorem Built.readsAs (hlower : LowersAscii lower) (ha : Built a) (h : ¬ IsBase58 a) :
    ∃ s hrp network, a.encode sha256 bs58Encode = some s ∧ networkForHrp hrp = .ok network ∧
      ReadsAs lower s hrp network a := by
  cases ha with
  | pubkeyHash hash hversion => exact absurd (.inl rfl) h
  | scriptHash hash hversion => exact absurd (.inr rfl) h
  | @p2wpkh hash version hversion =>
    obtain ⟨hkeep, hnet, hhrp⟩ := network_of_version hversion
    obtain ⟨s, hs⟩ := encode_of_fits hhrp (.inl ⟨rfl, .inl hash.length_eq⟩)
    have hreads := decode_eq_ok.mp (decode_encode hlower hhrp hs)
    refine ⟨s, _, _, ?_, hnet, ?_⟩
    · exact congrArg Except.toOption hs
    · have hreadsAs : ReadsAs lower s _ (versionToNetwork version) _ := ReadsAs.p2wpkh hash hreads
      rwa [hkeep] at hreadsAs
  | @taproot key version hversion =>
    obtain ⟨hkeep, hnet, hhrp⟩ := network_of_version hversion
    have hfits : Fits 1 key.bytes := .inr ⟨by decide, by decide, .inl key.length_eq⟩
    obtain ⟨s, hs⟩ := encode_of_fits hhrp hfits
    have hreads := decode_eq_ok.mp (decode_encode hlower hhrp hs)
    refine ⟨s, _, _, ?_, hnet, ?_⟩
    · exact congrArg Except.toOption hs
    · have hreadsAs : ReadsAs lower s _ (versionToNetwork version) _ := ReadsAs.p2tr key hreads
      rwa [hkeep] at hreadsAs

/-- A built address comes back from its text unless the text takes the bech32 reader below
zero. -/
theorem Built.decode_encode (hbase : Base58 bs58Encode bs58Decode) (hlower : LowersAscii lower) (ha : Built a) :
    ∃ s, a.encode sha256 bs58Encode = some s ∧
      ((∃ b, Address.decode sha256 bs58Decode lower s = .ok b ∧ b = a ∧
          b.toScriptPubkey = a.toScriptPubkey) ↔ ¬ TooShort lower s) := by
  by_cases h : IsBase58 a
  · refine ⟨_, encode_of_isBase58 h, ?_⟩
    obtain ⟨hascii, hlength⟩ := encodeBase58_length sha256 hbase a
    obtain ⟨hrp, network, b, -, hreadsAs, -⟩ | ⟨hshort, hflow⟩ | ⟨hlong, -, hdecode⟩ :=
      decode_cases sha256 bs58Decode lower (a.encodeBase58 sha256 bs58Encode)
    · obtain ⟨witver, witprog, hreads⟩ := ReadsAs.reads hreadsAs
      exact absurd hreads (not_reads_short hlower hascii hlength)
    · rw [hflow]
      simp [hshort]
    · rw [hdecode, decodeBase58_encodeBase58 hbase ha h]
      simp [hlong]
  · obtain ⟨s, hrp, network, hs, hnet, hreadsAs⟩ := Built.readsAs hlower ha h
    obtain ⟨witver, witprog, hreads⟩ := ReadsAs.reads hreadsAs
    refine ⟨s, hs, ?_⟩
    rw [ReadsAs.decode hreadsAs hnet]
    simp [Reads.not_tooShort hreads]

/-- The text an address should be written as: bech32 in lower case. -/
def canonical (lower : Lowering) (s : List Char) (a : Address) : List Char :=
  if IsBase58 a then s else toLowercase lower s

/-- A text comes back from its address exactly when it is no address of the regression network and
no other alphabet passes for its symbols. -/
theorem encode_decode_iff (hbase : Base58 bs58Encode bs58Decode) :
    (∀ a, Address.decode sha256 bs58Decode lower s = .ok a →
        a.encode sha256 bs58Encode = some (canonical lower s a)) ↔
      ∀ hrp network a, networkForHrp hrp = .ok network → ReadsAs lower s hrp network a →
        hrp ≠ hrpRegtest ∧ (toLowercase lower s).all isAscii := by
  constructor
  · intro h hrp network a hnet hreadsAs
    have hwritten := h a (ReadsAs.decode hreadsAs hnet)
    have hnot : ¬ IsBase58 a := fun hb => hb.elim hreadsAs.type_ne.1 hreadsAs.type_ne.2
    rw [canonical, if_neg hnot] at hwritten
    exact (hreadsAs.encode_eq_iff hnet).mp hwritten
  · intro h a hok
    obtain ⟨hrp, network, b, hnet, hreadsAs, hb⟩ | ⟨-, hflow⟩ | ⟨-, -, hdecode⟩ :=
      decode_cases sha256 bs58Decode lower s
    · rw [hb, Except.ok.injEq] at hok
      subst hok
      have hnot : ¬ IsBase58 b := fun hb => hb.elim hreadsAs.type_ne.1 hreadsAs.type_ne.2
      rw [canonical, if_neg hnot]
      exact (hreadsAs.encode_eq_iff hnet).mpr (h hrp network b hnet hreadsAs)
    · rw [hflow] at hok
      cases hok
    · rw [hdecode] at hok
      obtain ⟨hb, hwritten⟩ := encode_of_decodeBase58 hbase hok
      rw [canonical, if_pos hb]
      exact hwritten

/-- Every built address comes back from its text unless that takes the bech32 reader below zero,
and a text comes back from its address unless it is one of the regression network or another
alphabet passes for its symbols. -/
theorem address_round_trips_iff (sha256 : Sha256) (hbase : Base58 bs58Encode bs58Decode) (hlower : LowersAscii lower) :
    (∀ a, Built a → ∃ s, a.encode sha256 bs58Encode = some s ∧
        ((∃ b, Address.decode sha256 bs58Decode lower s = .ok b ∧ b = a ∧
            b.toScriptPubkey = a.toScriptPubkey) ↔ ¬ TooShort lower s)) ∧
      ∀ s, (∀ a, Address.decode sha256 bs58Decode lower s = .ok a →
          a.encode sha256 bs58Encode = some (canonical lower s a)) ↔
        ∀ hrp network a, networkForHrp hrp = .ok network → ReadsAs lower s hrp network a →
          hrp ≠ hrpRegtest ∧ (toLowercase lower s).all isAscii :=
  ⟨fun _ ha => Built.decode_encode hbase hlower ha, fun _ => encode_decode_iff hbase⟩

end RoundTrips

section Codec

open Rebasings

/-- The default alphabet of base58. -/
def alphabet : List Char :=
  ['1', '2', '3', '4', '5', '6', '7', '8', '9', 'A', 'B', 'C', 'D', 'E', 'F', 'G', 'H', 'J', 'K', 'L', 'M',
    'N', 'P', 'Q', 'R', 'S', 'T', 'U', 'V', 'W', 'X', 'Y', 'Z', 'a', 'b', 'c', 'd', 'e', 'f', 'g', 'h', 'i',
    'j', 'k', 'm', 'n', 'o', 'p', 'q', 'r', 's', 't', 'u', 'v', 'w', 'x', 'y', 'z']

def digitChar (d : ℕ) : Char := alphabet.getD d '1'

def encodeDigits (bytes : List UInt8) : List Char := (rebase 256 58 (bytes.map UInt8.toNat)).map digitChar

def decodeDigits (s : List Char) : Option (List UInt8) :=
  if s.all fun c => alphabet.contains c then
    some ((rebase 58 256 (s.map fun c => alphabet.idxOf c)).map UInt8.ofNat)
  else none

theorem digitChar_facts : ∀ d < 58, alphabet.contains (digitChar d) ∧ alphabet.idxOf (digitChar d) = d ∧
    isAscii (digitChar d) := by decide

theorem map_ofNat_toNat (bytes : List UInt8) : (bytes.map UInt8.toNat).map UInt8.ofNat = bytes := by
  rw [List.map_map]
  calc
    bytes.map (UInt8.ofNat ∘ UInt8.toNat) = bytes.map id :=
      List.map_congr_left fun b _ => UInt8.ofNat_toNat
    _ = bytes := List.map_id bytes

theorem encodeDigits_base58 : Base58 encodeDigits decodeDigits where
  decode_encode := by
    intro bytes
    have hbytes : ∀ d ∈ bytes.map UInt8.toNat, d < 256 := by
      intro d hd
      obtain ⟨b, -, rfl⟩ := List.mem_map.mp hd
      exact b.toNat_lt
    have hdigits : ∀ d ∈ rebase 256 58 (bytes.map UInt8.toNat), d < 58 := rebase_lt (by omega)
    have hall : (encodeDigits bytes).all fun c => alphabet.contains c := by
      rw [encodeDigits, List.all_map, List.all_eq_true]
      intro d hd
      exact (digitChar_facts d (hdigits d hd)).1
    have hindex : (encodeDigits bytes).map (fun c => alphabet.idxOf c) =
        rebase 256 58 (bytes.map UInt8.toNat) := by
      rw [encodeDigits, List.map_map]
      calc
        _ = (rebase 256 58 (bytes.map UInt8.toNat)).map id :=
          List.map_congr_left fun d hd => (digitChar_facts d (hdigits d hd)).2.1
        _ = _ := List.map_id _
    rw [decodeDigits, if_pos hall, hindex, rebase_rebase 58 (by omega) hbytes, map_ofNat_toNat]
  encode_decode := by
    intro s bytes h
    unfold decodeDigits at h
    split at h
    case isTrue hall =>
      rw [Option.some.injEq] at h
      have hin : ∀ c ∈ s, c ∈ alphabet := by
        intro c hc
        simpa using List.all_eq_true.mp hall c hc
      have hdigits : ∀ d ∈ s.map (fun c => alphabet.idxOf c), d < 58 := by
        intro d hd
        obtain ⟨c, hc, rfl⟩ := List.mem_map.mp hd
        exact List.idxOf_lt_length_of_mem (hin c hc)
      have hwide : ∀ d ∈ rebase 58 256 (s.map fun c => alphabet.idxOf c), d < 256 := rebase_lt (by omega)
      have hbytes : bytes.map UInt8.toNat = rebase 58 256 (s.map fun c => alphabet.idxOf c) := by
        rw [← h, List.map_map]
        calc
          _ = (rebase 58 256 (s.map fun c => alphabet.idxOf c)).map id := by
            apply List.map_congr_left
            intro d hd
            have hd' : d < 2 ^ 8 := hwide d hd
            exact ofNat_toNat le_rfl hd'
          _ = _ := List.map_id _
      rw [encodeDigits, hbytes, rebase_rebase 256 (by omega) hdigits, List.map_map]
      calc
        _ = s.map id := by
          apply List.map_congr_left
          intro c hc
          have hlt := List.idxOf_lt_length_of_mem (hin c hc)
          simp [digitChar, hlt]
        _ = s := List.map_id s
    case isFalse => simp at h
  ascii := by
    intro bytes
    rw [encodeDigits, List.all_map, List.all_eq_true]
    intro d hd
    exact (digitChar_facts d (rebase_lt (by omega) d hd)).2.2
  short := by
    intro bytes hlength
    rw [encodeDigits, List.length_map]
    apply rebase_length_le (by omega) (by omega) (by omega)
    · intro d hd
      obtain ⟨b, -, rfl⟩ := List.mem_map.mp hd
      exact b.toNat_lt
    · rw [List.length_map, hlength]
      norm_num

/-- A digest for which the codecs run. -/
def zeroDigest : Sha256 := fun _ => Bytes32.zero

theorem zeroDigest_round_trips : (∀ a, Built a → ∃ s, a.encode zeroDigest encodeDigits = some s ∧
        ((∃ b, Address.decode zeroDigest decodeDigits Bech32Substitutions.kelvinLower s = .ok b ∧ b = a ∧
            b.toScriptPubkey = a.toScriptPubkey) ↔ ¬ TooShort Bech32Substitutions.kelvinLower s)) ∧
      ∀ s, (∀ a, Address.decode zeroDigest decodeDigits Bech32Substitutions.kelvinLower s = .ok a →
          a.encode zeroDigest encodeDigits = some (canonical Bech32Substitutions.kelvinLower s a)) ↔
        ∀ hrp network a, networkForHrp hrp = .ok network →
          ReadsAs Bech32Substitutions.kelvinLower s hrp network a →
            hrp ≠ hrpRegtest ∧ (toLowercase Bech32Substitutions.kelvinLower s).all isAscii :=
  address_round_trips_iff zeroDigest encodeDigits_base58 Bech32Substitutions.kelvinLower_ascii

/-- The address of twenty zero bytes on the regression network. -/
def regtestText : List Char :=
  ['k', 'b', 'r', 't', '1'] ++ List.replicate 33 'q' ++ ['n', 's', 's', 'm', 'j', 's']

/-- An address of the regression network is written as one of the test network. -/
theorem regtest_text_changes :
    ¬ ∀ (sha256 : Sha256) bs58Encode bs58Decode lower, Base58 bs58Encode bs58Decode → LowersAscii lower →
      ∀ s a, Address.decode sha256 bs58Decode lower s = .ok a →
        a.encode sha256 bs58Encode = some (canonical lower s a) := by
  intro h
  have hread : Address.decode zeroDigest decodeDigits Bech32Substitutions.kelvinLower regtestText =
      .ok (.fromPubkeyP2wpkhWithVersion zeroHash testnetAddressVersion) := by decide +kernel
  have hsame := h zeroDigest encodeDigits decodeDigits _ encodeDigits_base58
    Bech32Substitutions.kelvinLower_ascii regtestText _ hread
  revert hsame
  decide +kernel

end Codec

end KuberCoin.AddressRoundTrips
