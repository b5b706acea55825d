import KuberCoin.Handlers

/-!
The books a node keeps about a peer (crate `node`, `network/peer.rs`): the window of the rate
limit, the misbehaviour score with its decay, and the ban. Instants are nanoseconds. `read_loop`
(`network/server.rs`) consults the limit before it hands a message to its handler.
-/
namespace KuberCoin.Peers

open Handlers

def rateLimitMsgs : UInt32 := 200

def rateLimitWindow : ℕ := 10 * 10 ^ 9

def scoreDecayPerMin : UInt32 := 1

inductive Direction where
  | inbound
  | outbound
  | feeler
  | blockRelayOnly
deriving DecidableEq

inductive HandshakeState where
  | connected
  | versionSent
  | ready
deriving DecidableEq

structure PeerInfo where
  direction : Direction
  handshake : HandshakeState
  startHeight : Option ℕ
  misbehaviourScore : UInt32
  lastDecay : ℕ
  rateMsgCount : UInt32
  rateWindowStart : ℕ
  sendHeaders : Bool
deriving DecidableEq

namespace PeerInfo

def new (now : ℕ) (direction : Direction) : PeerInfo where
  direction := direction
  handshake := .connected
  startHeight := none
  misbehaviourScore := 0
  lastDecay := now
  rateMsgCount := 0
  rateWindowStart := now
  sendHeaders := false

/-- Returns whether the peer has sent more than the window allows. -/
def checkRateLimit (now : ℕ) (p : PeerInfo) : PeerInfo × Bool :=
  if rateLimitWindow ≤ now - p.rateWindowStart then
    ({ p with rateWindowStart := now, rateMsgCount := 1 }, false)
  else
    ({ p with rateMsgCount := p.rateMsgCount + 1 }, rateLimitMsgs < p.rateMsgCount + 1)

def applyDecay (now : ℕ) (p : PeerInfo) : PeerInfo :=
  let elapsedMins := (now - p.lastDecay) / 10 ^ 9 / 60
  if 0 < elapsedMins then
    let decay := UInt32.ofNat (min ((UInt32.ofNat elapsedMins).toNat * scoreDecayPerMin.toNat) (2 ^ 32 - 1))
    { p with
      misbehaviourScore := p.misbehaviourScore - min decay p.misbehaviourScore
      lastDecay := now }
  else p

/-- The points are added to what the decay leaves; at the threshold the peer is banned and its
books are closed. -/
def addMisbehaviour (banThreshold : UInt32) (now : ℕ) (score : UInt32) (p : PeerInfo) : Option PeerInfo :=
  let p := p.applyDecay now
  let raised := UInt32.ofNat (min (p.misbehaviourScore.toNat + score.toNat) (2 ^ 32 - 1))
  if banThreshold ≤ raised then none else some { p with misbehaviourScore := raised }

/-- `add_misbehaviour` is called for a penalty only. -/
def penalise (banThreshold : UInt32) (now : ℕ) (penalty : ℕ) (p : PeerInfo) : Option PeerInfo :=
  if penalty = 0 then some p else p.addMisbehaviour banThreshold now (UInt32.ofNat penalty)

def isBlockRelayOnly (p : PeerInfo) : Bool := p.direction = .blockRelayOnly

/-- None of the messages that arrive at these instants is over the limit. -/
def withinRate : PeerInfo → List ℕ → Bool
  | _, [] => true
  | p, now :: rest => !(p.checkRateLimit now).2 && withinRate (p.checkRateLimit now).1 rest

/-- What the limit reads. -/
def window (p : PeerInfo) : UInt32 × ℕ := (p.rateMsgCount, p.rateWindowStart)

/-- The books after messages at these instants, as far as the limit is concerned. -/
def windowAfter (p : PeerInfo) (times : List ℕ) : PeerInfo :=
  times.foldl (fun p now => (p.checkRateLimit now).1) p

variable {now : ℕ} {p q : PeerInfo}

@[simp] theorem checkRateLimit_score : (p.checkRateLimit now).1.misbehaviourScore = p.misbehaviourScore := by
  unfold checkRateLimit
  split <;> rfl

@[simp] theorem checkRateLimit_direction : (p.checkRateLimit now).1.direction = p.direction := by
  unfold checkRateLimit
  split <;> rfl

@[simp] theorem checkRateLimit_handshake : (p.checkRateLimit now).1.handshake = p.handshake := by
  unfold checkRateLimit
  split <;> rfl

@[simp] theorem penalise_zero {banThreshold : UInt32} : p.penalise banThreshold now 0 = some p := rfl

theorem addMisbehaviour_keeps {banThreshold score : UInt32} (h : p.addMisbehaviour banThreshold now score = some q) :
    q.direction = p.direction ∧ q.window = p.window := by
  unfold addMisbehaviour at h
  simp only at h
  split at h
  next => cases h
  next =>
    rw [← Option.some.inj h]
    unfold applyDecay
    simp only
    split <;> exact ⟨rfl, rfl⟩

theorem addMisbehaviour_handshake {banThreshold score : UInt32}
    (h : p.addMisbehaviour banThreshold now score = some q) : q.handshake = p.handshake := by
  unfold addMisbehaviour at h
  simp only at h
  split at h
  next => cases h
  next =>
    rw [← Option.some.inj h]
    unfold applyDecay
    simp only
    split <;> rfl

theorem penalise_keeps {banThreshold : UInt32} {penalty : ℕ} (h : p.penalise banThreshold now penalty = some q) :
    q.direction = p.direction ∧ q.window = p.window := by
  unfold penalise at h
  split at h
  next =>
    rw [Option.some.inj h]
    exact ⟨rfl, rfl⟩
  next => exact addMisbehaviour_keeps h

theorem checkRateLimit_window (h : p.window = q.window) : (p.checkRateLimit now).2 = (q.checkRateLimit now).2 ∧
      (p.checkRateLimit now).1.window = (q.checkRateLimit now).1.window := by
  obtain ⟨hcount, hstart⟩ := Prod.mk.inj h
  unfold checkRateLimit
  rw [hcount, hstart]
  split <;> exact ⟨rfl, by simp only [window]⟩

theorem windowAfter_window (h : p.window = q.window) (times : List ℕ) :
    (p.windowAfter times).window = (q.windowAfter times).window := by
  induction times generalizing p q with
  | nil => exact h
  | cons now times ih => exact ih (checkRateLimit_window h).2

theorem withinRate_iff {times : List ℕ} : p.withinRate times = true ↔
      ∀ before now after, times = before ++ now :: after →
        ((p.windowAfter before).checkRateLimit now).2 = false := by
  induction times generalizing p with
  | nil => simp [withinRate]
  | cons first times ih =>
    simp only [withinRate, Bool.and_eq_true, Bool.not_eq_true', ih]
    constructor
    · rintro ⟨hfirst, hrest⟩ before now after heq
      cases before with
      | nil =>
        obtain ⟨rfl, -⟩ := List.cons.inj heq
        exact hfirst
      | cons b before =>
        obtain ⟨rfl, htail⟩ := List.cons.inj heq
        exact hrest before now after htail
    · intro h
      exact ⟨h [] first times rfl, fun before now after heq => h (first :: before) now after (by rw [heq]; rfl)⟩

end PeerInfo

/-- A node and its books about one peer; a banned peer is disconnected. -/
structure Connection where
  app : App
  peer : Option PeerInfo

/-- One round of `read_loop`: a message over the limit is dropped and costs the peer 20 points. -/
def Connection.read (banThreshold : UInt32) (now : ℕ) (handler : PeerInfo → App → Handled)
    (c : Connection) : Connection :=
  match c.peer with
  | none => c
  | some p =>
      let (p, exceeded) := p.checkRateLimit now
      if exceeded then { c with peer := p.addMisbehaviour banThreshold now 20 }
      else
        let r := handler p c.app
        ⟨r.app, p.penalise banThreshold now r.penalty⟩

end KuberCoin.Peers
