import KuberCoin.Channels
import KuberCoin.ChaCha20Poly1305

/-!
Onion packets (crate `lightning`, `onion.rs`). The sender wraps the payloads of a route from the
last hop to the first, each layer masked by a stream and authenticated; a hop unmasks its layer
and passes on the rest. The encoded payload leaves room for the authentication value of the
next hop, but nothing ever fills it: every hop reads zeros there and takes itself for the last.
-/
namespace KuberCoin.OnionPackets

open Bytes Transactions Channels ChaCha20Poly1305

section Payloads

def hopDataSize : ℕ := 65

def maxHops : ℕ := 20

def routingInfoSize : ℕ := hopDataSize * maxHops

structure HopPayload where
  shortChannelId : UInt64
  amtToForward : UInt64
  outgoingCltvValue : UInt32
  extraData : List UInt8
deriving DecidableEq

/-- The `width` low bytes of a number, most significant byte first. -/
def beBytes (width n : ℕ) : List UInt8 := (leBytes width n).reverse

namespace HopPayload

/-- The realm, the three fields and zeros; the last 32 bytes are where the next value belongs. -/
def encode (p : HopPayload) : List UInt8 :=
  0x00 :: (beBytes 8 p.shortChannelId.toNat ++ beBytes 8 p.amtToForward.toNat ++
    beBytes 4 p.outgoingCltvValue.toNat ++ List.replicate 44 0)

def decode (data : List UInt8) : HopPayload where
  shortChannelId := UInt64.ofNat (value ((data.drop 1).take 8))
  amtToForward := UInt64.ofNat (value ((data.drop 9).take 8))
  outgoingCltvValue := UInt32.ofNat (value ((data.drop 17).take 4))
  extraData := []

end HopPayload

theorem beBytes_length (width n : ℕ) : (beBytes width n).length = width := by
  rw [beBytes, List.length_reverse, leBytes_length]

theorem value_beBytes {width n : ℕ} (h : n < 256 ^ width) : value (beBytes width n) = n := by
  have hread := leValue_leBytes width n
  rw [leValue, Nat.mod_eq_of_lt h] at hread
  exact hread

theorem encode_length (p : HopPayload) : p.encode.length = hopDataSize := by
  simp [HopPayload.encode, beBytes_length, hopDataSize]

theorem decode_encode (p : HopPayload) : HopPayload.decode p.encode = { p with extraData := [] } := by
  have hscid := @value_beBytes 8 _ p.shortChannelId.toNat_lt
  have hamt := @value_beBytes 8 _ p.amtToForward.toNat_lt
  have hcltv := @value_beBytes 4 _ p.outgoingCltvValue.toNat_lt
  unfold HopPayload.decode HopPayload.encode
  congr 1
  · rw [List.drop_succ_cons, List.drop_zero, List.append_assoc, List.append_assoc,
      List.take_left' (beBytes_length _ _), hscid, UInt64.ofNat_toNat]
  · rw [List.drop_succ_cons, List.append_assoc, List.append_assoc, List.drop_left' (beBytes_length _ _),
      List.take_left' (beBytes_length _ _), hamt, UInt64.ofNat_toNat]
  · rw [List.drop_succ_cons, List.append_assoc, List.drop_left' (by simp [beBytes_length]),
      List.take_left' (beBytes_length _ _), hcltv, UInt32.ofNat_toNat]

end Payloads

section Packets

variable (sha256 : Sha256)

structure OnionPacket where
  version : UInt8
  ephemeralPubkey : List UInt8
  routingInfo : List UInt8
  hmac : Bytes32
deriving DecidableEq

def deriveSharedSecret (sessionKey : Bytes32) (hopPubkey : List UInt8) : Bytes32 :=
  sha256 ("onion_shared_secret".toUTF8.toList ++ sessionKey.bytes ++ hopPubkey)

/-- Hashes of the secret and a counter, as many as the length needs, cut to it. -/
def generateStream (sharedSecret : Bytes32) (length : ℕ) : List UInt8 :=
  ((List.range ((length + 31) / 32)).flatMap fun counter =>
    (sha256 ("onion_stream".toUTF8.toList ++ sharedSecret.bytes ++ beBytes 8 counter)).bytes).take length

def computeHmac (key : Bytes32) (data : List UInt8) : Bytes32 :=
  sha256 ("onion_hmac".toUTF8.toList ++ key.bytes ++ data)

def blindEphemeralKey (current sharedSecret : Bytes32) : Bytes32 :=
  sha256 ("onion_blind".toUTF8.toList ++ current.bytes ++ sharedSecret.bytes)

/-- The secrets of the hops; each blinds the key for the next. -/
def sharedSecrets (ephemeral : Bytes32) : List (List UInt8) → List Bytes32
  | [] => []
  | pubkey :: rest =>
      let secret := deriveSharedSecret sha256 ephemeral pubkey
      secret :: sharedSecrets (blindEphemeralKey sha256 ephemeral secret) rest

/-- Mask or unmask the routing information. -/
def applyStream (secret : Bytes32) (bytes : List UInt8) : List UInt8 :=
  List.zipWith (· ^^^ ·) bytes (generateStream sha256 secret routingInfoSize)

/-- One round of the loop over the hops, last hop first. -/
def wrapLayer (assocData : List UInt8) (hop : Bytes32 × HopPayload) (inner : List UInt8 × Bytes32) :
    List UInt8 × Bytes32 :=
  let shifted := inner.1.rotateRight hopDataSize
  let routingInfo := applyStream sha256 hop.1 (hop.2.encode ++ shifted.drop hopDataSize)
  (routingInfo, computeHmac sha256 hop.1 (routingInfo ++ assocData))

def createOnionPacket (sessionKey : Bytes32) (hopPubkeys : List (List UInt8)) (payloads : List HopPayload)
    (assocData : List UInt8) : Except LightningError OnionPacket :=
  let numHops := hopPubkeys.length
  if numHops = 0 ∨ maxHops < numHops then .error (.routingFailed s!"invalid hop count: {numHops}")
  else if payloads.length ≠ numHops then .error (.routingFailed "payload count must match hop count")
  else
    let (routingInfo, hmac) := ((sharedSecrets sha256 sessionKey hopPubkeys).zip payloads).foldr
      (wrapLayer sha256 assocData) (List.replicate routingInfoSize 0, Bytes32.zero)
    .ok ⟨0, sessionKey.bytes, routingInfo, hmac⟩

structure PeeledOnion where
  payload : HopPayload
  nextPacket : OnionPacket
  isFinal : Bool

def peelOnionLayer (privateKey : Bytes32) (packet : OnionPacket) (assocData : List UInt8) :
    Except LightningError PeeledOnion :=
  if packet.version ≠ 0 then .error (.routingFailed s!"unsupported onion version: {packet.version}")
  else if packet.ephemeralPubkey.length ≠ 32 then .error (.routingFailed "invalid ephemeral key length")
  else
    let ephemeral := Bytes32.ofBytes packet.ephemeralPubkey
    let sharedSecret := deriveSharedSecret sha256 ephemeral privateKey.bytes
    if computeHmac sha256 sharedSecret (packet.routingInfo ++ assocData) ≠ packet.hmac then
      .error (.routingFailed "onion HMAC mismatch")
    else
      let decrypted := applyStream sha256 sharedSecret packet.routingInfo
      let hopData := decrypted.take hopDataSize
      let nextHmac := Bytes32.ofBytes (hopData.drop (hopDataSize - 32))
      .ok
        { payload := .decode hopData
          nextPacket :=
            { version := 0
              ephemeralPubkey := (blindEphemeralKey sha256 ephemeral sharedSecret).bytes
              routingInfo := decrypted.drop hopDataSize ++ List.replicate hopDataSize 0
              hmac := nextHmac }
          isFinal := nextHmac = Bytes32.zero }

/-- The hops in turn peel the packet, read their payloads, and only the last one is final. -/
def Routes (assocData : List UInt8) : List Bytes32 → List HopPayload → OnionPacket → Prop
  | [], [], _ => True
  | hop :: hops, payload :: payloads, packet =>
      ∃ peeled, peelOnionLayer sha256 hop packet assocData = .ok peeled ∧
        peeled.payload.shortChannelId = payload.shortChannelId ∧
        peeled.payload.amtToForward = payload.amtToForward ∧
        peeled.payload.outgoingCltvValue = payload.outgoingCltvValue ∧
        (peeled.isFinal = true ↔ hops = []) ∧
        Routes assocData hops payloads peeled.nextPacket
  | _, _, _ => False

end Packets

section Layers

variable {sha256 : Sha256} {secret : Bytes32} {assocData bytes : List UInt8} {payload : HopPayload}
  {inner : List UInt8 × Bytes32}

theorem flatMap_length {n : ℕ} (f : ℕ → Bytes32) (l : List ℕ) (h : l.length = n) :
    (l.flatMap fun i => (f i).bytes).length = 32 * n := by
  subst h
  induction l with
  | nil => rfl
  | cons x l ih =>
    rw [List.flatMap_cons, List.length_append, ih, (f x).length_eq, List.length_cons]
    omega

theorem generateStream_length (secret : Bytes32) (length : ℕ) :
    (generateStream sha256 secret length).length = length := by
  rw [generateStream, List.length_take, flatMap_length _ _ List.length_range]
  omega

theorem applyStream_length (h : bytes.length = routingInfoSize) :
    (applyStream sha256 secret bytes).length = routingInfoSize := by
  rw [applyStream, List.length_zipWith, generateStream_length, h, Nat.min_self]

theorem applyStream_applyStream (h : bytes.length = routingInfoSize) :
    applyStream sha256 secret (applyStream sha256 secret bytes) = bytes :=
  zipWith_xor_twice (by rw [generateStream_length, h])

theorem rotateRight_drop (h : bytes.length = routingInfoSize) :
    (bytes.rotateRight hopDataSize).drop hopDataSize = bytes.take (routingInfoSize - hopDataSize) := by
  unfold List.rotateRight
  simp only [h, routingInfoSize, hopDataSize, maxHops]
  norm_num
  exact List.drop_left' (by rw [List.length_drop, h]; rfl)

/-- What a layer masks: the payload and the layers inside, less the last hop data. -/
def layered (payload : HopPayload) (inner : List UInt8) : List UInt8 :=
  payload.encode ++ inner.take (routingInfoSize - hopDataSize)

theorem layered_length {inner : List UInt8} (h : inner.length = routingInfoSize) :
    (layered payload inner).length = routingInfoSize := by
  rw [layered, List.length_append, encode_length, List.length_take, h]
  rfl

theorem wrapLayer_fst (h : inner.1.length = routingInfoSize) : (wrapLayer sha256 assocData (secret, payload) inner).1 =
      applyStream sha256 secret (layered payload inner.1) := by
  show applyStream sha256 secret (payload.encode ++ (inner.1.rotateRight hopDataSize).drop hopDataSize) = _
  rw [rotateRight_drop h]
  rfl

theorem wrapped_length {assocData : List UInt8} (hops : List (Bytes32 × HopPayload)) :
    (hops.foldr (wrapLayer sha256 assocData)
      (List.replicate routingInfoSize 0, Bytes32.zero)).1.length = routingInfoSize := by
  induction hops with
  | nil => exact List.length_replicate
  | cons hop hops ih =>
    rw [List.foldr_cons, wrapLayer_fst ih]
    exact applyStream_length (layered_length ih)

theorem peel_wrapLayer {ephemeral hop : Bytes32} (h : inner.1.length = routingInfoSize) :
    let secret := deriveSharedSecret sha256 ephemeral hop.bytes
    let wrapped := wrapLayer sha256 assocData (secret, payload) inner
    peelOnionLayer sha256 hop ⟨0, ephemeral.bytes, wrapped.1, wrapped.2⟩ assocData =
      .ok
        { payload := { payload with extraData := [] }
          nextPacket := ⟨0, (blindEphemeralKey sha256 ephemeral secret).bytes,
            inner.1.take (routingInfoSize - hopDataSize) ++ List.replicate hopDataSize 0, Bytes32.zero⟩
          isFinal := true } := by
  intro secret wrapped
  have hhmac : computeHmac sha256 secret (wrapped.1 ++ assocData) = wrapped.2 := rfl
  have hdecrypted : applyStream sha256 secret wrapped.1 = layered payload inner.1 := by
    rw [wrapLayer_fst h, applyStream_applyStream (layered_length h)]
  have hdata : (layered payload inner.1).take hopDataSize = payload.encode :=
    List.take_left' (encode_length payload)
  have hrest : (layered payload inner.1).drop hopDataSize = inner.1.take (routingInfoSize - hopDataSize) :=
    List.drop_left' (encode_length payload)
  have hnext : Bytes32.ofBytes (payload.encode.drop (hopDataSize - 32)) = Bytes32.zero := by
    have hzeros : payload.encode.drop (hopDataSize - 32) = List.replicate 32 0 := by
      rw [HopPayload.encode, show hopDataSize - 32 = 32 + 1 from rfl, List.drop_succ_cons, List.drop_append]
      simp [beBytes_length]
    rw [hzeros]
    rfl
  unfold peelOnionLayer
  simp only [ne_eq, not_true_eq_false, if_false, ephemeral.length_eq, Bytes32.ofBytes_bytes]
  rw [if_neg (not_not.mpr hhmac)]
  simp only [secret] at hdecrypted
  simp only [hdecrypted, hdata, hrest, hnext, decode_encode, decide_true]
  rfl

end Layers

section Route

variable {sha256 : Sha256} {assocData : List UInt8}

theorem createOnionPacket_cons (sessionKey hop : Bytes32) (hops : List Bytes32) (payload : HopPayload)
    (payloads : List HopPayload) (hle : hops.length + 1 ≤ maxHops) (hlen : payloads.length = hops.length) :
    ∃ inner : List UInt8 × Bytes32, inner.1.length = routingInfoSize ∧
      createOnionPacket sha256 sessionKey ((hop :: hops).map Bytes32.bytes) (payload :: payloads) assocData =
        .ok ⟨0, sessionKey.bytes,
          (wrapLayer sha256 assocData (deriveSharedSecret sha256 sessionKey hop.bytes, payload) inner).1,
          (wrapLayer sha256 assocData (deriveSharedSecret sha256 sessionKey hop.bytes, payload) inner).2⟩ := by
  let secret := deriveSharedSecret sha256 sessionKey hop.bytes
  let secrets := sharedSecrets sha256 (blindEphemeralKey sha256 sessionKey secret) (hops.map Bytes32.bytes)
  refine ⟨_, @wrapped_length sha256 assocData (secrets.zip payloads), ?_⟩
  unfold createOnionPacket
  rw [if_neg (by simp only [List.length_map, List.length_cons]; omega), if_neg (by simp [hlen])]
  rfl

/-- The first hop always succeeds, reads its own payload and takes itself for the last one. -/
theorem first_hop_final {sessionKey hop : Bytes32} {hops : List Bytes32} {payload : HopPayload}
    {payloads : List HopPayload} {packet : OnionPacket} (hle : hops.length + 1 ≤ maxHops)
    (hlen : payloads.length = hops.length)
    (h : createOnionPacket sha256 sessionKey ((hop :: hops).map Bytes32.bytes) (payload :: payloads) assocData =
      .ok packet) :
    ∃ next, peelOnionLayer sha256 hop packet assocData = .ok ⟨{ payload with extraData := [] }, next, true⟩ ∧
      next.hmac = Bytes32.zero := by
  obtain ⟨inner, hinner, hcreate⟩ :=
    @createOnionPacket_cons sha256 assocData sessionKey hop hops payload payloads hle hlen
  obtain rfl := Except.ok.inj (hcreate.symm.trans h)
  exact ⟨_, peel_wrapLayer hinner, rfl⟩

/-- A packet routes exactly when the route has a single hop. -/
theorem onion_routes_iff (sha256 : Sha256) (sessionKey : Bytes32) (hops : List Bytes32) (payloads : List HopPayload)
    (assocData : List UInt8) (hpos : 1 ≤ hops.length) (hle : hops.length ≤ 20) (hlen : payloads.length = hops.length) :
    (∃ packet, createOnionPacket sha256 sessionKey (hops.map Bytes32.bytes) payloads assocData = .ok packet ∧
      Routes sha256 assocData hops payloads packet) ↔ hops.length = 1 := by
  match hops, payloads, hlen with
  | hop :: hops, payload :: payloads, hlen =>
    have hlen' : payloads.length = hops.length := by simpa using hlen
    constructor
    · rintro ⟨packet, hcreate, peeled, hpeel, -, -, -, hfinal, -⟩
      obtain ⟨next, hfirst, -⟩ := first_hop_final hle hlen' hcreate
      rw [hfirst] at hpeel
      rw [← Except.ok.inj hpeel] at hfinal
      simp [hfinal.mp rfl]
    · intro hone
      obtain rfl : hops = [] := by simpa using hone
      obtain rfl : payloads = [] := by simpa using hlen'
      obtain ⟨inner, -, hcreate⟩ :=
        @createOnionPacket_cons sha256 assocData sessionKey hop [] payload [] hle hlen'
      obtain ⟨next, hfirst, -⟩ := first_hop_final hle hlen' hcreate
      exact ⟨_, hcreate, _, hfirst, rfl, rfl, rfl, by simp, trivial⟩

def plainPayload (scid amount : UInt64) : HopPayload := ⟨scid, amount, 144, []⟩

theorem single_hop_routes :
    ∃ packet, createOnionPacket Sha256.sha256 Bytes32.zero ([Bytes32.zero].map Bytes32.bytes) [plainPayload 0 100000]
        [] = .ok packet ∧
      Routes Sha256.sha256 [] [Bytes32.zero] [plainPayload 0 100000] packet :=
  (onion_routes_iff Sha256.sha256 Bytes32.zero [Bytes32.zero] [plainPayload 0 100000] [] (by decide) (by decide)
    rfl).mpr rfl

/-- On a route of two hops the first one takes itself for the last. -/
theorem two_hops_do_not_route :
    ¬ ∃ packet, createOnionPacket Sha256.sha256 Bytes32.zero ([Bytes32.zero, Bytes32.zero].map Bytes32.bytes)
        [plainPayload 1 100000, plainPayload 0 99900] [] = .ok packet ∧
      Routes Sha256.sha256 [] [Bytes32.zero, Bytes32.zero] [plainPayload 1 100000, plainPayload 0 99900] packet := by
  rintro ⟨packet, hcreate, peeled, hpeel, -, -, -, hfinal, -⟩
  obtain ⟨next, hfirst, -⟩ := first_hop_final (by decide) rfl hcreate
  rw [hfirst] at hpeel
  rw [← Except.ok.inj hpeel] at hfinal
  exact absurd (hfinal.mp rfl) (by simp)

end Route

end KuberCoin.OnionPackets
