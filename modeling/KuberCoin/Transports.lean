import KuberCoin.ChaCha20Poly1305
import KuberCoin.Sha256
import KuberCoin.Transactions

/-!
The v2 transport (`network/v2_transport.rs`): a session holds a key and a counter for each direction, and
a frame is the length of the payload, in the clear, and the payload under an authenticated cipher
with the counter as its nonce. The cipher is a parameter; the model of the network lets an
adversary deliver any frame to either end at any time. With an ideal cipher and different keys
for the two directions the counters of the two ends tie the payloads that one end accepts to
those that the other end encoded.
-/
namespace KuberCoin.Transports

open Bytes Transactions Sha256

section Frames

def aeadTagSize : ℕ := 16

def lengthFieldSize : ℕ := 3

def maxV2Payload : ℕ := 4 * 1024 * 1024

/-- The cipher (crate `chacha20poly1305`), with its key, nonce and text. -/
structure Aead where
  encrypt : Bytes32 → List UInt8 → List UInt8 → List UInt8
  decrypt : Bytes32 → List UInt8 → List UInt8 → Option (List UInt8)

/-- What the crate documents of payloads of this size. -/
structure Aead.Correct (aead : Aead) : Prop where
  decrypt_encrypt : ∀ key nonce plaintext, plaintext.length ≤ maxV2Payload →
    aead.decrypt key nonce (aead.encrypt key nonce plaintext) = some plaintext
  length_encrypt : ∀ key nonce plaintext, plaintext.length ≤ maxV2Payload →
    (aead.encrypt key nonce plaintext).length = plaintext.length + aeadTagSize

structure CipherState where
  key : Bytes32
  nonce : UInt64

namespace CipherState

def new (key : Bytes32) : CipherState := ⟨key, 0⟩

def currentNonce (c : CipherState) : List UInt8 := List.replicate 4 0 ++ leBytes 8 c.nonce.toNat

def advance (c : CipherState) : CipherState := { c with nonce := c.nonce + 1 }

end CipherState

structure V2Session where
  sendCipher : CipherState
  recvCipher : CipherState
  established : Bool

/-- The pad of HMAC: the secret and zeros up to a block, each byte xored with `mask`. -/
def padBlock (secret : Bytes32) (mask : UInt8) : List UInt8 :=
  secret.bytes.map (· ^^^ mask) ++ List.replicate 32 mask

def hkdfSha256 (sha256 : Sha256) (secret : Bytes32) (info : List UInt8) : Bytes32 :=
  sha256 (padBlock secret 0x5c ++ (sha256 (padBlock secret 0x36 ++ info ++ [1])).bytes)

/-- The bytes of `bip324_send_key`. -/
def sendLabel : List UInt8 := [98, 105, 112, 51, 50, 52, 95, 115, 101, 110, 100, 95, 107, 101, 121]

/-- The bytes of `bip324_recv_key`. -/
def recvLabel : List UInt8 := [98, 105, 112, 51, 50, 52, 95, 114, 101, 99, 118, 95, 107, 101, 121]

def V2Session.fromSharedSecret (sha256 : Sha256) (sharedSecret : Bytes32) (initiator : Bool) : V2Session :=
  let sendInfo := if initiator then sendLabel else recvLabel
  let recvInfo := if initiator then recvLabel else sendLabel
  { sendCipher := .new (hkdfSha256 sha256 sharedSecret sendInfo)
    recvCipher := .new (hkdfSha256 sha256 sharedSecret recvInfo)
    established := true }

def lengthBytes (len : ℕ) : List UInt8 :=
  [UInt8.ofNat (len &&& 0xff), UInt8.ofNat (len >>> 8 &&& 0xff), UInt8.ofNat (len >>> 16 &&& 0xff)]

/-- The frame of a payload and the session after it, `none` where the assertion on the length
fails. -/
def encodeV2Frame (aead : Aead) (session : V2Session) (plaintext : List UInt8) :
    Option (List UInt8 × V2Session) :=
  if plaintext.length ≤ maxV2Payload then
    let ciphertext :=
      aead.encrypt session.sendCipher.key session.sendCipher.currentNonce plaintext
    some (lengthBytes plaintext.length ++ ciphertext,
      { session with sendCipher := session.sendCipher.advance })
  else none

def decodeV2Frame (aead : Aead) (session : V2Session) (frame : List UInt8) :
    Except String (List UInt8) × V2Session :=
  if frame.length < lengthFieldSize + aeadTagSize then (.error "v2 frame too short", session)
  else
    let len := (frame.getD 0 0).toNat ||| (frame.getD 1 0).toNat <<< 8 ||| (frame.getD 2 0).toNat <<< 16
    if frame.length ≠ lengthFieldSize + len + aeadTagSize then
      (.error "v2 frame length mismatch", session)
    else
      match aead.decrypt session.recvCipher.key session.recvCipher.currentNonce
          (frame.drop lengthFieldSize) with
      | none => (.error "AEAD authentication failed", session)
      | some plaintext => (.ok plaintext, { session with recvCipher := session.recvCipher.advance })

end Frames

section Codec

variable {aead : Aead} {session : V2Session} {frame payload : List UInt8}

theorem length_of_bytes (len : ℕ) (hlen : len < 2 ^ 24) :
    (UInt8.ofNat (len &&& 0xff)).toNat ||| (UInt8.ofNat (len >>> 8 &&& 0xff)).toNat <<< 8 |||
      (UInt8.ofNat (len >>> 16 &&& 0xff)).toNat <<< 16 = len := by
  have hlow : ∀ n : ℕ, (UInt8.ofNat (n &&& 0xff)).toNat = n % 256 := by
    intro n
    rw [show (0xff : ℕ) = 2 ^ 8 - 1 by norm_num, Nat.and_two_pow_sub_one_eq_mod]
    simp
  rw [hlow, hlow, hlow, Nat.shiftRight_eq_div_pow, Nat.shiftRight_eq_div_pow]
  have h8 : len % 256 ||| (len / 2 ^ 8 % 256) <<< 8 = (len / 2 ^ 8 % 256) * 2 ^ 8 + len % 256 := by
    rw [Nat.or_comm, ← Nat.shiftLeft_add_eq_or_of_lt (by omega), Nat.shiftLeft_eq]
  rw [h8, Nat.or_comm, ← Nat.shiftLeft_add_eq_or_of_lt (by omega), Nat.shiftLeft_eq]
  omega

theorem decodeV2Frame_error {e : String} (h : (decodeV2Frame aead session frame).1 = .error e) :
    (decodeV2Frame aead session frame).2 = session := by
  unfold decodeV2Frame at h ⊢
  split
  · rfl
  · rename_i hlong
    rw [if_neg hlong] at h
    simp only at h ⊢
    split
    · rfl
    · rename_i hlen
      rw [if_neg hlen] at h
      split
      · rfl
      · rename_i plaintext hdec
        simp [hdec] at h

theorem decodeV2Frame_ok {plaintext : List UInt8} (h : (decodeV2Frame aead session frame).1 = .ok plaintext) :
    aead.decrypt session.recvCipher.key session.recvCipher.currentNonce
        (frame.drop lengthFieldSize) = some plaintext ∧
      (decodeV2Frame aead session frame).2 = { session with recvCipher := session.recvCipher.advance } := by
  unfold decodeV2Frame at h ⊢
  split
  · rename_i hshort
    rw [if_pos hshort] at h
    cases h
  · rename_i hlong
    rw [if_neg hlong] at h
    simp only at h ⊢
    split
    · rename_i hlen
      rw [if_pos hlen] at h
      cases h
    · rename_i hlen
      rw [if_neg hlen] at h
      split
      · rename_i hdec
        simp [hdec] at h
      · rename_i p hdec
        simp only [hdec, Except.ok.injEq] at h ⊢
        exact ⟨congrArg some h, trivial⟩

/-- The frame that a session with this key and nonce makes of a payload. -/
def frameOf (aead : Aead) (key : Bytes32) (nonce payload : List UInt8) : List UInt8 :=
  lengthBytes payload.length ++ aead.encrypt key nonce payload

theorem drop_frameOf (aead : Aead) (key : Bytes32) (nonce payload : List UInt8) :
    (frameOf aead key nonce payload).drop lengthFieldSize = aead.encrypt key nonce payload := rfl

theorem decodeV2Frame_frameOf (hcorrect : aead.Correct) (hsize : payload.length ≤ maxV2Payload) :
    decodeV2Frame aead session
        (frameOf aead session.recvCipher.key session.recvCipher.currentNonce payload) =
      (.ok payload, { session with recvCipher := session.recvCipher.advance }) := by
  have hlen : (frameOf aead session.recvCipher.key session.recvCipher.currentNonce payload).length =
      lengthFieldSize + payload.length + aeadTagSize := by
    rw [frameOf, List.length_append, hcorrect.length_encrypt _ _ _ hsize, lengthBytes, lengthFieldSize]
    simp only [List.length_cons, List.length_nil]
    omega
  have hshort : ¬ (frameOf aead session.recvCipher.key session.recvCipher.currentNonce payload).length <
      lengthFieldSize + aeadTagSize := by omega
  have hbytes := length_of_bytes payload.length (lt_of_le_of_lt hsize (by norm_num [maxV2Payload]))
  have hread : ((frameOf aead session.recvCipher.key session.recvCipher.currentNonce payload).getD 0 0).toNat |||
      ((frameOf aead session.recvCipher.key session.recvCipher.currentNonce payload).getD 1 0).toNat <<< 8 |||
      ((frameOf aead session.recvCipher.key session.recvCipher.currentNonce payload).getD 2 0).toNat <<< 16 =
        payload.length := hbytes
  rw [decodeV2Frame, if_neg hshort]
  simp only [hread]
  rw [if_neg (not_not.mpr hlen), drop_frameOf, hcorrect.decrypt_encrypt _ _ _ hsize]

end Codec

section Links

inductive Role where
  | initiator
  | responder
deriving DecidableEq

def Role.other : Role → Role
  | .initiator => .responder
  | .responder => .initiator

/-- Two ends of a connection and what happened between them: the payloads that each end encoded, with
their frames, those that it decoded, and every encryption with its key, nonce and ciphertext. -/
structure Link where
  session : Role → V2Session
  sent : Role → List (List UInt8 × List UInt8)
  received : Role → List (List UInt8)
  encryptions : List (Bytes32 × List UInt8 × List UInt8)

def Link.new (sha256 : Sha256) (sharedSecret : Bytes32) : Link where
  session r := V2Session.fromSharedSecret sha256 sharedSecret (r = .initiator)
  sent _ := []
  received _ := []
  encryptions := []

/-- One end encodes a payload, or the adversary hands any bytes to one end as a frame. -/
inductive Event where
  | send (r : Role) (payload : List UInt8)
  | deliver (r : Role) (frame : List UInt8)

variable (aead : Aead)

def Link.step (l : Link) : Event → Link
  | .send r payload =>
      match encodeV2Frame aead (l.session r) payload with
      | none => l
      | some (frame, session) =>
          { session := Function.update l.session r session
            sent := Function.update l.sent r (l.sent r ++ [(payload, frame)])
            received := l.received
            encryptions := l.encryptions ++
              [((l.session r).sendCipher.key, (l.session r).sendCipher.currentNonce,
                frame.drop lengthFieldSize)] }
  | .deliver r frame =>
      match (decodeV2Frame aead (l.session r) frame).1 with
      | .error _ =>
          { l with
            session := Function.update l.session r (decodeV2Frame aead (l.session r) frame).2 }
      | .ok plaintext =>
          { l with
            session := Function.update l.session r (decodeV2Frame aead (l.session r) frame).2
            received := Function.update l.received r (l.received r ++ [plaintext]) }

def Link.run (l : Link) (events : List Event) : Link := events.foldl (Link.step aead) l

/-- The cipher is ideal for the event: a ciphertext that opens under the key and the nonce of the
receiving end is one that was made under them before. -/
def Event.Unforged (l : Link) : Event → Prop
  | .send .. => True
  | .deliver r frame =>
      aead.decrypt (l.session r).recvCipher.key (l.session r).recvCipher.currentNonce
          (frame.drop lengthFieldSize) ≠ none →
        ((l.session r).recvCipher.key, (l.session r).recvCipher.currentNonce,
          frame.drop lengthFieldSize) ∈ l.encryptions

def Unforged : Link → List Event → Prop
  | _, [] => True
  | l, event :: rest => event.Unforged aead l ∧ Unforged (l.step aead event) rest

end Links

section Order

variable {aead : Aead} {sha256 : Sha256} {secret : Bytes32} {l : Link} {payload : List UInt8}

/-- The key with which an end sends. -/
def keyOf (sha256 : Sha256) (secret : Bytes32) : Role → Bytes32
  | .initiator => hkdfSha256 sha256 secret sendLabel
  | .responder => hkdfSha256 sha256 secret recvLabel

/-- The nonce of the `i`-th frame of a direction. -/
def nonceAt (i : ℕ) : List UInt8 := List.replicate 4 0 ++ leBytes 8 (UInt64.ofNat i).toNat

theorem nonceAt_injOn {i j : ℕ} (hi : i < 2 ^ 64) (hj : j < 2 ^ 64) (h : nonceAt i = nonceAt j) : i = j := by
  have hbytes := List.append_cancel_left h
  rw [UInt64.toNat_ofNat_of_lt' hi, UInt64.toNat_ofNat_of_lt' hj] at hbytes
  exact leBytes_injective hi hj hbytes

theorem keyOf_injective (hkeys : hkdfSha256 sha256 secret sendLabel ≠ hkdfSha256 sha256 secret recvLabel) {r q : Role}
    (h : keyOf sha256 secret r = keyOf sha256 secret q) : r = q := by
  cases r <;> cases q
  · rfl
  · exact absurd h hkeys
  · exact absurd h.symm hkeys
  · rfl

/-- The two ends are in step: their keys and counters, the frames of each direction, and the payloads
that were decoded. -/
structure InOrder (aead : Aead) (sha256 : Sha256) (secret : Bytes32) (l : Link) : Prop where
  sendCipher : ∀ r, (l.session r).sendCipher =
    ⟨keyOf sha256 secret r, UInt64.ofNat (l.sent r).length⟩
  recvCipher : ∀ r, (l.session r).recvCipher =
    ⟨keyOf sha256 secret r.other, UInt64.ofNat (l.received r).length⟩
  frames : ∀ r i entry, (l.sent r)[i]? = some entry → entry.1.length ≤ maxV2Payload ∧
    entry.2 = frameOf aead (keyOf sha256 secret r) (nonceAt i) entry.1
  encryptions : ∀ e ∈ l.encryptions, ∃ r i entry, (l.sent r)[i]? = some entry ∧
    e = (keyOf sha256 secret r, nonceAt i, aead.encrypt (keyOf sha256 secret r) (nonceAt i) entry.1)
  received : ∀ r, l.received r <+: (l.sent r.other).map Prod.fst

theorem InOrder.new (aead : Aead) (sha256 : Sha256) (secret : Bytes32) :
    InOrder aead sha256 secret (Link.new sha256 secret) where
  sendCipher r := by cases r <;> rfl
  recvCipher r := by cases r <;> rfl
  frames r i entry h := by simp [Link.new] at h
  encryptions e he := by simp [Link.new] at he
  received r := List.nil_prefix

theorem ofNat_succ (n : ℕ) : UInt64.ofNat n + 1 = UInt64.ofNat (n + 1) := (UInt64.ofNat_add n 1).symm

theorem getElem?_pushed {α : Type} (f : Role → List α) (r q : Role) (x y : α) (i : ℕ) :
    (Function.update f r (f r ++ [x]) q)[i]? = some y ↔
      (f q)[i]? = some y ∨ q = r ∧ i = (f r).length ∧ y = x := by
  by_cases hq : q = r
  · subst hq
    rw [Function.update_self, List.getElem?_append]
    split
    · rename_i hlt
      constructor
      · exact .inl
      · rintro (h | ⟨-, hi, -⟩)
        · exact h
        · omega
    · rename_i hge
      rw [List.getElem?_eq_none (by omega : (f q).length ≤ i), List.getElem?_singleton]
      constructor
      · intro h
        split at h
        · exact .inr ⟨rfl, by omega, (Option.some.inj h).symm⟩
        · cases h
      · rintro (h | ⟨-, rfl, rfl⟩)
        · cases h
        · simp
  · rw [Function.update_of_ne hq]
    exact ⟨.inl, fun h => h.resolve_right fun h => hq h.1⟩

theorem step_send (l : Link) (r : Role) (hsize : payload.length ≤ maxV2Payload) : l.step aead (.send r payload) =
      { session := Function.update l.session r
          { l.session r with sendCipher := (l.session r).sendCipher.advance }
        sent := Function.update l.sent r (l.sent r ++ [(payload,
          frameOf aead (l.session r).sendCipher.key (l.session r).sendCipher.currentNonce payload)])
        received := l.received
        encryptions := l.encryptions ++
          [((l.session r).sendCipher.key, (l.session r).sendCipher.currentNonce,
            aead.encrypt (l.session r).sendCipher.key (l.session r).sendCipher.currentNonce payload)] } := by
  simp only [Link.step, encodeV2Frame, if_pos hsize]
  rfl

theorem step_send_long (l : Link) (r : Role) (hsize : ¬ payload.length ≤ maxV2Payload) :
    l.step aead (.send r payload) = l := by
  simp only [Link.step, encodeV2Frame, if_neg hsize]

theorem InOrder.send (h : InOrder aead sha256 secret l) (r : Role) (payload : List UInt8) :
    InOrder aead sha256 secret (l.step aead (.send r payload)) := by
  by_cases hsize : payload.length ≤ maxV2Payload
  · have hkey : (l.session r).sendCipher.key = keyOf sha256 secret r := by rw [h.sendCipher r]
    have hnonce : (l.session r).sendCipher.currentNonce = nonceAt (l.sent r).length := by
      rw [h.sendCipher r]
      rfl
    rw [step_send l r hsize, hkey, hnonce]
    refine ⟨?_, ?_, ?_, ?_, ?_⟩
    · intro q
      by_cases hq : q = r
      · subst hq
        simp only [Function.update_self, h.sendCipher q, CipherState.advance, ofNat_succ,
          List.length_append, List.length_singleton]
      · simp only [Function.update_of_ne hq]
        exact h.sendCipher q
    · intro q
      by_cases hq : q = r
      · subst hq
        simp only [Function.update_self]
        exact h.recvCipher q
      · simp only [Function.update_of_ne hq]
        exact h.recvCipher q
    · intro q i entry hentry
      rcases (getElem?_pushed _ _ _ _ _ _).mp hentry with hold | ⟨rfl, rfl, rfl⟩
      · exact h.frames q i entry hold
      · exact ⟨hsize, rfl⟩
    · intro e he
      rcases List.mem_append.mp he with hold | hnew
      · obtain ⟨q, i, entry, hentry, rfl⟩ := h.encryptions e hold
        exact ⟨q, i, entry, (getElem?_pushed _ _ _ _ _ _).mpr (.inl hentry), rfl⟩
      · rw [List.mem_singleton.mp hnew]
        exact ⟨r, (l.sent r).length, (payload, _),
          (getElem?_pushed _ _ _ _ _ _).mpr (.inr ⟨rfl, rfl, rfl⟩), rfl⟩
    · intro q
      by_cases hq : q.other = r
      · subst hq
        simp only [Function.update_self, List.map_append]
        exact (h.received q).trans (List.prefix_append _ _)
      · simp only [Function.update_of_ne hq]
        exact h.received q
  · rw [step_send_long l r hsize]
    exact h

/-- With different keys, and counters that have not wrapped, the only ciphertext that opens at an
end is that of the next frame for it. -/
theorem InOrder.opened (h : InOrder aead sha256 secret l) (hcorrect : aead.Correct)
    (hkeys : hkdfSha256 sha256 secret sendLabel ≠ hkdfSha256 sha256 secret recvLabel) {r : Role}
    (hcount : (l.sent r.other).length < 2 ^ 64) {frame plaintext : List UInt8}
    (hideal : (Event.deliver r frame).Unforged aead l)
    (hopen : aead.decrypt (l.session r).recvCipher.key (l.session r).recvCipher.currentNonce
      (frame.drop lengthFieldSize) = some plaintext) :
    ((l.sent r.other).map Prod.fst)[(l.received r).length]? = some plaintext := by
  have hforged := hideal (by rw [hopen]; exact Option.some_ne_none _)
  obtain ⟨q, i, entry, hentry, heq⟩ := h.encryptions _ hforged
  rw [h.recvCipher r] at heq hopen
  obtain ⟨hkey, hrest⟩ := Prod.mk.inj heq
  obtain ⟨hnonce, hcipher⟩ := Prod.mk.inj hrest
  have hq : r.other = q := keyOf_injective hkeys hkey
  subst hq
  have hlen := (h.received r).length_le
  rw [List.length_map] at hlen
  have hi : i < (l.sent r.other).length := (List.getElem?_eq_some_iff.mp hentry).1
  have hindex : (l.received r).length = i :=
    nonceAt_injOn (by omega) (by omega) hnonce
  rw [hcipher] at hopen
  have hplain : aead.decrypt (keyOf sha256 secret r.other) (nonceAt i)
      (aead.encrypt (keyOf sha256 secret r.other) (nonceAt i) entry.1) = some plaintext := by
    rw [← hindex] at hopen ⊢
    exact hopen
  rw [hcorrect.decrypt_encrypt _ _ _ (h.frames _ _ _ hentry).1] at hplain
  rw [List.getElem?_map, hindex, hentry]
  exact hplain

theorem prefix_concat {α : Type} {a b : List α} {x : α} (h : a <+: b) (hx : b[a.length]? = some x) :
    a ++ [x] <+: b := by
  obtain ⟨rest, rfl⟩ := h
  rw [List.getElem?_append_right (Nat.le_refl _), Nat.sub_self] at hx
  cases rest with
  | nil => cases hx
  | cons y rest =>
    rw [List.getElem?_cons_zero] at hx
    rw [Option.some.inj hx]
    exact ⟨rest, by rw [List.append_assoc]; rfl⟩

theorem InOrder.deliver (h : InOrder aead sha256 secret l) (hcorrect : aead.Correct)
    (hkeys : hkdfSha256 sha256 secret sendLabel ≠ hkdfSha256 sha256 secret recvLabel) {r : Role}
    (hcount : (l.sent r.other).length < 2 ^ 64) {frame : List UInt8}
    (hideal : (Event.deliver r frame).Unforged aead l) :
    InOrder aead sha256 secret (l.step aead (.deliver r frame)) := by
  unfold Link.step
  simp only
  cases hdecode : (decodeV2Frame aead (l.session r) frame).1 with
  | error e =>
    simp only [decodeV2Frame_error hdecode, Function.update_eq_self]
    exact h
  | ok plaintext =>
    obtain ⟨hopen, hsession⟩ := decodeV2Frame_ok hdecode
    have hnext := h.opened hcorrect hkeys hcount hideal hopen
    simp only [hsession]
    refine ⟨?_, ?_, h.frames, h.encryptions, ?_⟩
    · intro q
      by_cases hq : q = r
      · subst hq
        simp only [Function.update_self]
        exact h.sendCipher q
      · simp only [Function.update_of_ne hq]
        exact h.sendCipher q
    · intro q
      by_cases hq : q = r
      · subst hq
        simp only [Function.update_self, h.recvCipher q, CipherState.advance, ofNat_succ,
          List.length_append, List.length_singleton]
      · simp only [Function.update_of_ne hq]
        exact h.recvCipher q
    · intro q
      by_cases hq : q = r
      · subst hq
        simp only [Function.update_self]
        exact prefix_concat (h.received q) hnext
      · simp only [Function.update_of_ne hq]
        exact h.received q

theorem sent_step (l : Link) (event : Event) (r : Role) : (l.sent r).length ≤ ((l.step aead event).sent r).length := by
  cases event with
  | send q payload =>
    by_cases hsize : payload.length ≤ maxV2Payload
    · rw [step_send l q hsize]
      by_cases hq : r = q
      · subst hq
        simp
      · simp [Function.update_of_ne hq]
    · rw [step_send_long l q hsize]
  | deliver q frame =>
    unfold Link.step
    simp only
    split <;> exact Nat.le_refl _

theorem sent_run (l : Link) (events : List Event) (r : Role) :
    (l.sent r).length ≤ ((l.run aead events).sent r).length := by
  induction events generalizing l with
  | nil => exact Nat.le_refl _
  | cons event rest ih => exact (sent_step l event r).trans (ih _)

theorem InOrder.run (h : InOrder aead sha256 secret l) (hcorrect : aead.Correct)
    (hkeys : hkdfSha256 sha256 secret sendLabel ≠ hkdfSha256 sha256 secret recvLabel) {events : List Event}
    (hideal : Unforged aead l events) (hcount : ∀ r, ((l.run aead events).sent r).length < 2 ^ 64) :
    InOrder aead sha256 secret (l.run aead events) := by
  induction events generalizing l with
  | nil => exact h
  | cons event rest ih =>
    obtain ⟨hevent, hrest⟩ := hideal
    refine ih ?_ hrest hcount
    cases event with
    | send r payload => exact h.send r payload
    | deliver r frame =>
      exact h.deliver hcorrect hkeys (Nat.lt_of_le_of_lt (sent_run l _ r.other) (hcount r.other)) hevent

/-- Whatever the adversary delivers, the payloads that an end decodes are a prefix of those that the
other end encoded; a frame that fails leaves the session as it was, and the next genuine frame is
accepted in every state. -/
theorem v2_transport_in_order (aead : Aead) (sha256 : Sha256) (secret : Bytes32) (events : List Event)
    (hcorrect : aead.Correct) (hkeys : hkdfSha256 sha256 secret sendLabel ≠ hkdfSha256 sha256 secret recvLabel)
    (hideal : Unforged aead (Link.new sha256 secret) events)
    (hcount : ∀ r, (((Link.new sha256 secret).run aead events).sent r).length < 2 ^ 64) (r : Role) :
    let l := (Link.new sha256 secret).run aead events
    l.received r <+: (l.sent r.other).map Prod.fst ∧
      (∀ frame e, (decodeV2Frame aead (l.session r) frame).1 = .error e →
        (decodeV2Frame aead (l.session r) frame).2 = l.session r) ∧
      ∀ payload frame, (l.sent r.other)[(l.received r).length]? = some (payload, frame) →
        (decodeV2Frame aead (l.session r) frame).1 = .ok payload := by
  intro l
  have h : InOrder aead sha256 secret l := (InOrder.new aead sha256 secret).run hcorrect hkeys hideal hcount
  refine ⟨h.received r, fun frame e he => decodeV2Frame_error he, ?_⟩
  intro payload frame hnext
  obtain ⟨hsize, hframe⟩ := h.frames _ _ _ hnext
  have hkey : (l.session r).recvCipher.key = keyOf sha256 secret r.other := by rw [h.recvCipher r]
  have hnonce : (l.session r).recvCipher.currentNonce = nonceAt (l.received r).length := by
    rw [h.recvCipher r]
    rfl
  have hdecode := @decodeV2Frame_frameOf aead (l.session r) payload hcorrect hsize
  rw [hkey, hnonce] at hdecode
  simp only at hframe
  rw [hframe, hdecode]

/-- The cipher of the crate. -/
def chacha20Poly1305 : Aead where
  encrypt key nonce plaintext := ChaCha20Poly1305.encrypt key.bytes nonce plaintext
  decrypt key nonce ciphertext := ChaCha20Poly1305.decrypt key.bytes nonce ciphertext

theorem chacha20Poly1305_correct : chacha20Poly1305.Correct where
  decrypt_encrypt key nonce plaintext _ := ChaCha20Poly1305.decrypt_encrypt key.bytes nonce plaintext
  length_encrypt key nonce plaintext _ := ChaCha20Poly1305.encrypt_length key.bytes nonce plaintext

instance (aead : Aead) (l : Link) (event : Event) : Decidable (event.Unforged aead l) :=
  match event with
  | .send .. => inferInstanceAs (Decidable True)
  | .deliver .. => inferInstanceAs (Decidable (_ → _))

instance decidableUnforged (aead : Aead) (l : Link) (events : List Event) :
    Decidable (Unforged aead l events) :=
  match events with
  | [] => inferInstanceAs (Decidable True)
  | event :: rest =>
      have := decidableUnforged aead (l.step aead event) rest
      inferInstanceAs (Decidable (_ ∧ _))

def sharedSecret : Bytes32 := ⟨List.replicate 32 0xab, by decide⟩

/-- A new link between sessions with these keys. -/
def Link.ofKeys (key : Role → Bytes32) : Link where
  session r := ⟨.new (key r), .new (key r.other), true⟩
  sent _ := []
  received _ := []
  encryptions := []

theorem new_eq_ofKeys (sha256 : Sha256) (secret : Bytes32) :
    Link.new sha256 secret = Link.ofKeys (keyOf sha256 secret) := by
  unfold Link.new Link.ofKeys
  congr 1
  funext r
  cases r <;> rfl

/-- The two keys that the secret gives. -/
def sharedKey : Role → Bytes32
  | .initiator => ⟨[141, 167, 50, 30, 192, 161, 132, 34, 167, 176, 185, 123, 255, 181, 156, 125, 253, 249,
      26, 110, 27, 239, 41, 40, 203, 149, 4, 58, 220, 219, 148, 65], by decide⟩
  | .responder => ⟨[93, 236, 92, 23, 87, 75, 246, 101, 76, 34, 95, 100, 183, 91, 175, 104, 198, 176, 75, 6,
      173, 87, 234, 100, 120, 32, 154, 14, 246, 177, 243, 75], by decide⟩

theorem keyOf_sharedSecret : keyOf runSha256 sharedSecret = sharedKey := by
  funext r
  cases r <;> decide +kernel

/-- The `i`-th frame of the initiator, with this payload. -/
def genuine (i : ℕ) (payload : List UInt8) : List UInt8 :=
  frameOf chacha20Poly1305 (sharedKey .initiator) (nonceAt i) payload

/-- Two payloads are sent. The second frame comes too early, the first one is replayed, and then the
second comes again. -/
def tampered : List Event :=
  [.send .initiator [1, 2, 3], .send .initiator [4, 5], .deliver .responder (genuine 1 [4, 5]),
    .deliver .responder (genuine 0 [1, 2, 3]), .deliver .responder (genuine 0 [1, 2, 3]),
    .deliver .responder (genuine 1 [4, 5])]

theorem tampered_in_order : ((Link.new runSha256 sharedSecret).run chacha20Poly1305 tampered).received .responder =
        [[1, 2, 3], [4, 5]] ∧
      ((Link.new runSha256 sharedSecret).run chacha20Poly1305 tampered).received .responder <+:
        (((Link.new runSha256 sharedSecret).run chacha20Poly1305 tampered).sent
          (Role.other .responder)).map Prod.fst := by
  have hkeys : hkdfSha256 runSha256 sharedSecret sendLabel ≠ hkdfSha256 runSha256 sharedSecret recvLabel := by
    show keyOf runSha256 sharedSecret .initiator ≠ keyOf runSha256 sharedSecret .responder
    rw [keyOf_sharedSecret]
    decide
  have hrun : Unforged chacha20Poly1305 (Link.new runSha256 sharedSecret) tampered ∧
      (((Link.new runSha256 sharedSecret).run chacha20Poly1305 tampered).sent .initiator).length < 2 ^ 64 ∧
      (((Link.new runSha256 sharedSecret).run chacha20Poly1305 tampered).sent .responder).length < 2 ^ 64 ∧
      ((Link.new runSha256 sharedSecret).run chacha20Poly1305 tampered).received .responder =
        [[1, 2, 3], [4, 5]] := by
    rw [new_eq_ofKeys, keyOf_sharedSecret]
    decide +kernel
  obtain ⟨hideal, hinitiator, hresponder, hreceived⟩ := hrun
  have hcount : ∀ r, (((Link.new runSha256 sharedSecret).run chacha20Poly1305 tampered).sent r).length <
      2 ^ 64 := by
    intro r
    cases r
    · exact hinitiator
    · exact hresponder
  exact ⟨hreceived, (v2_transport_in_order chacha20Poly1305 runSha256 sharedSecret tampered
    chacha20Poly1305_correct hkeys hideal hcount .responder).1⟩

end Order

end KuberCoin.Transports
