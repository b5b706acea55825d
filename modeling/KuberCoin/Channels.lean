import KuberCoin.BlockEffects
import KuberCoin.Sha256

/-!
A payment channel (crate `lightning`, `channel.rs` and `htlc.rs`). Money is in three places: the
balances of the two parties and the pending HTLCs. The calls that move it mix checked and
saturating arithmetic; HTLCs are found by payment hash, and hashes may repeat. A call
returns its result next to the channel it leaves.
-/
namespace KuberCoin.Channels

open Bytes Transactions Validator BlockEffects Sha256

section Data

inductive ChannelState where
  | pending
  | opened
  | closing
  | forceClosing
  | closed
deriving DecidableEq

structure ChannelConfig where
  minHtlcValue : UInt64
  maxHtlcValue : UInt64
  maxHtlcCount : UInt64
  channelReserve : UInt64
deriving DecidableEq

def ChannelConfig.default : ChannelConfig where
  minHtlcValue := 1000
  maxHtlcValue := 100000000
  maxHtlcCount := 30
  channelReserve := 10000

inductive HtlcDirection where
  | outgoing
  | incoming
deriving DecidableEq

inductive HtlcState where
  | pending
  | accepted
  | fulfilled
  | failed
  | timedOut
deriving DecidableEq

structure Htlc where
  id : UInt64
  paymentHash : Bytes32
  amount : UInt64
  expiry : UInt32
  direction : HtlcDirection
  state : HtlcState
deriving DecidableEq

namespace Htlc

def newOutgoing (id : UInt64) (paymentHash : Bytes32) (amount : UInt64) (expiry : UInt32) : Htlc :=
  ⟨id, paymentHash, amount, expiry, .outgoing, .pending⟩

def verifyPreimage (sha256 : Sha256) (h : Htlc) (preimage : Bytes32) : Bool :=
  sha256 preimage.bytes = h.paymentHash

end Htlc

inductive LightningError where
  | insufficientBalance
  | invalidHtlc (text : String)
  | invalidPreimage
  | channelClosed
  | channelNotFound (id : Bytes32)
  | serialization
  | paymentFailed (text : String)
  | routingFailed (text : String)
deriving DecidableEq

structure Channel where
  channelId : Bytes32
  fundingTxid : Bytes32
  fundingVout : UInt32
  capacity : UInt64
  localBalance : UInt64
  remoteBalance : UInt64
  state : ChannelState
  config : ChannelConfig
  pendingHtlcs : List Htlc
  commitmentNumber : UInt64
  localPubkey : String
  remotePubkey : String
  feeratePerKw : UInt32
deriving DecidableEq

end Data

/-- `u32::saturating_mul`. -/
def saturatingMul (a b : UInt32) : UInt32 := UInt32.ofNat (min (a.toNat * b.toNat) (2 ^ 32 - 1))

namespace Channel

def new (channelId fundingTxid : Bytes32) (fundingVout : UInt32) (capacity localBalance : UInt64)
    (localPubkey remotePubkey : String) : Channel :=
  let clamped := min localBalance capacity
  { channelId := channelId
    fundingTxid := fundingTxid
    fundingVout := fundingVout
    capacity := capacity
    localBalance := clamped
    remoteBalance := saturatingSub capacity clamped
    state := .pending
    config := ChannelConfig.default
    pendingHtlcs := []
    commitmentNumber := 0
    localPubkey := localPubkey
    remotePubkey := remotePubkey
    feeratePerKw := 253 }

def setOpen (c : Channel) : Channel := { c with state := .opened }

def canAddHtlc (c : Channel) (amount : UInt64) : Bool :=
  c.state = .opened && c.config.minHtlcValue ≤ amount && amount ≤ c.config.maxHtlcValue &&
    c.pendingHtlcs.length < c.config.maxHtlcCount.toNat &&
    ((Transaction.checkedAdd amount c.config.channelReserve).map fun required =>
      decide (required ≤ c.localBalance)).getD false

def nextCommitment (c : Channel) : UInt64 := saturatingAdd c.commitmentNumber 1

def addHtlc (c : Channel) (h : Htlc) : Except LightningError Unit × Channel :=
  if ¬ c.canAddHtlc h.amount then (.error .insufficientBalance, c)
  else if c.localBalance < h.amount then (.error .insufficientBalance, c)
  else
    (.ok (),
      { c with
        localBalance := c.localBalance - h.amount
        pendingHtlcs := c.pendingHtlcs ++ [h]
        commitmentNumber := c.nextCommitment })

/-- The first pending HTLC with a payment hash, and the others. -/
def takeHtlc (paymentHash : Bytes32) : List Htlc → Option (Htlc × List Htlc)
  | [] => none
  | h :: rest =>
      if h.paymentHash = paymentHash then some (h, rest)
      else (takeHtlc paymentHash rest).map fun r => (r.1, h :: r.2)

def fulfillHtlc (sha256 : Sha256) (c : Channel) (paymentHash preimage : Bytes32) :
    Except LightningError UInt64 × Channel :=
  match takeHtlc paymentHash c.pendingHtlcs with
  | none => (.error (.invalidHtlc "HTLC not found"), c)
  | some (h, rest) =>
      if ¬ h.verifyPreimage sha256 preimage then (.error .invalidPreimage, c)
      else
        (.ok h.amount,
          { c with
            pendingHtlcs := rest
            remoteBalance := saturatingAdd c.remoteBalance h.amount
            commitmentNumber := c.nextCommitment })

def failHtlc (c : Channel) (paymentHash : Bytes32) : Except LightningError UInt64 × Channel :=
  match takeHtlc paymentHash c.pendingHtlcs with
  | none => (.error (.invalidHtlc "HTLC not found"), c)
  | some (h, rest) =>
      (.ok h.amount,
        { c with
          pendingHtlcs := rest
          localBalance := saturatingAdd c.localBalance h.amount
          commitmentNumber := c.nextCommitment })

def updateFee (c : Channel) (rate : UInt32) : Except LightningError Unit × Channel :=
  if c.state ≠ .opened then (.error .channelClosed, c)
  else if rate < 253 then (.error (.invalidHtlc s!"feerate {rate} below minimum 253"), c)
  else if saturatingMul c.feeratePerKw 10 < rate then
    (.error (.invalidHtlc "feerate increase too large"), c)
  else (.ok (), { c with feeratePerKw := rate, commitmentNumber := c.nextCommitment })

def initiateClose (c : Channel) : Channel := { c with state := .closing }

def forceClose (c : Channel) : Channel := { c with state := .forceClosing }

end Channel

section Calls

/-- The calls of a channel, with their arguments. -/
inductive ChannelCall where
  | setOpen
  | addHtlc (h : Htlc)
  | fulfillHtlc (paymentHash preimage : Bytes32)
  | failHtlc (paymentHash : Bytes32)
  | updateFee (rate : UInt32)
  | initiateClose
  | forceClose

/-- The result of a call, without the amount that some of them return. -/
def ChannelCall.apply (sha256 : Sha256) (c : Channel) : ChannelCall → Except LightningError Unit × Channel
  | .setOpen => (.ok (), c.setOpen)
  | .addHtlc h => c.addHtlc h
  | .fulfillHtlc paymentHash preimage =>
      ((c.fulfillHtlc sha256 paymentHash preimage).1.map fun _ => (),
        (c.fulfillHtlc sha256 paymentHash preimage).2)
  | .failHtlc paymentHash => ((c.failHtlc paymentHash).1.map fun _ => (), (c.failHtlc paymentHash).2)
  | .updateFee rate => c.updateFee rate
  | .initiateClose => (.ok (), c.initiateClose)
  | .forceClose => (.ok (), c.forceClose)

def runCalls (sha256 : Sha256) (c : Channel) (calls : List ChannelCall) : Channel :=
  calls.foldl (fun c call => (call.apply sha256 c).2) c

/-- The calls that make a new commitment when they succeed. -/
def ChannelCall.commits : ChannelCall → Bool
  | .addHtlc _ => true
  | .fulfillHtlc .. => true
  | .failHtlc _ => true
  | .updateFee _ => true
  | _ => false

/-- A balance that the call raises would exceed its type. -/
def ChannelCall.overflowsBalance (c : Channel) : ChannelCall → Prop
  | .fulfillHtlc paymentHash _ =>
      ∃ h rest, Channel.takeHtlc paymentHash c.pendingHtlcs = some (h, rest) ∧
        2 ^ 64 ≤ c.remoteBalance.toNat + h.amount.toNat
  | .failHtlc paymentHash =>
      ∃ h rest, Channel.takeHtlc paymentHash c.pendingHtlcs = some (h, rest) ∧
        2 ^ 64 ≤ c.localBalance.toNat + h.amount.toNat
  | _ => False

/-- The bound of `update_fee` would exceed its type. -/
def ChannelCall.overflowsBound (c : Channel) : ChannelCall → Prop
  | .updateFee rate => c.state = .opened ∧ 253 ≤ rate ∧ 2 ^ 32 ≤ c.feeratePerKw.toNat * 10
  | _ => False

/-- The commitments that a run makes. -/
def commitments (sha256 : Sha256) : Channel → List ChannelCall → ℕ
  | _, [] => 0
  | c, call :: rest =>
      (if call.commits ∧ (call.apply sha256 c).1 = .ok () then 1 else 0) +
        commitments sha256 (call.apply sha256 c).2 rest

end Calls

section Outcomes

variable {sha256 : Sha256} {c : Channel} {call : ChannelCall} {paymentHash : Bytes32}
  {l rest : List Htlc} {h : Htlc}

/-- What a call can do: nothing, when it fails; mark the channel; or move money and commit. -/
inductive Outcome (sha256 : Sha256) (c : Channel) :
    ChannelCall → Except LightningError Unit × Channel → Prop where
  | refused (call : ChannelCall) (e : LightningError) : Outcome sha256 c call (.error e, c)
  | marked (call : ChannelCall) (hcall : call.commits = false) (s : ChannelState) :
      Outcome sha256 c call (.ok (), { c with state := s })
  | added (h : Htlc) (hcan : c.canAddHtlc h.amount = true) :
      Outcome sha256 c (.addHtlc h)
        (.ok (),
          { c with
            localBalance := c.localBalance - h.amount
            pendingHtlcs := c.pendingHtlcs ++ [h]
            commitmentNumber := c.nextCommitment })
  | fulfilled (paymentHash preimage : Bytes32) (h : Htlc) (rest : List Htlc)
      (htake : Channel.takeHtlc paymentHash c.pendingHtlcs = some (h, rest)) :
      Outcome sha256 c (.fulfillHtlc paymentHash preimage)
        (.ok (),
          { c with
            pendingHtlcs := rest
            remoteBalance := saturatingAdd c.remoteBalance h.amount
            commitmentNumber := c.nextCommitment })
  | failed (paymentHash : Bytes32) (h : Htlc) (rest : List Htlc)
      (htake : Channel.takeHtlc paymentHash c.pendingHtlcs = some (h, rest)) :
      Outcome sha256 c (.failHtlc paymentHash)
        (.ok (),
          { c with
            pendingHtlcs := rest
            localBalance := saturatingAdd c.localBalance h.amount
            commitmentNumber := c.nextCommitment })
  | repriced (rate : UInt32) :
      Outcome sha256 c (.updateFee rate)
        (.ok (), { c with feeratePerKw := rate, commitmentNumber := c.nextCommitment })

theorem apply_outcome (sha256 : Sha256) (c : Channel) (call : ChannelCall) :
    Outcome sha256 c call (call.apply sha256 c) := by
  cases call with
  | setOpen => exact .marked _ rfl .opened
  | initiateClose => exact .marked _ rfl .closing
  | forceClose => exact .marked _ rfl .forceClosing
  | addHtlc h =>
    show Outcome sha256 c _ (c.addHtlc h)
    unfold Channel.addHtlc
    split
    · exact .refused _ _
    · rename_i hcan
      split
      · exact .refused _ _
      · exact .added h (by simpa using hcan)
  | fulfillHtlc paymentHash preimage =>
    simp only [ChannelCall.apply, Channel.fulfillHtlc]
    split
    · exact .refused _ _
    · rename_i h rest htake
      split
      · exact .refused _ _
      · exact .fulfilled paymentHash preimage h rest htake
  | failHtlc paymentHash =>
    simp only [ChannelCall.apply, Channel.failHtlc]
    split
    · exact .refused _ _
    · rename_i h rest htake
      exact .failed paymentHash h rest htake
  | updateFee rate =>
    show Outcome sha256 c _ (c.updateFee rate)
    unfold Channel.updateFee
    split
    · exact .refused _ _
    · split
      · exact .refused _ _
      · split
        · exact .refused _ _
        · exact .repriced rate

theorem apply_error {e : LightningError} (he : (call.apply sha256 c).1 = .error e) : (call.apply sha256 c).2 = c := by
  have hout := apply_outcome sha256 c call
  generalize call.apply sha256 c = r at he hout
  cases hout with
  | refused => rfl
  | marked | added | fulfilled | failed | repriced => cases he

/-- The HTLC that is taken stood in the list, in front of the others with its hash. -/
theorem takeHtlc_eq_some (htake : Channel.takeHtlc paymentHash l = some (h, rest)) :
    ∃ before after, l = before ++ h :: after ∧ rest = before ++ after ∧
      h.paymentHash = paymentHash ∧ ∀ x ∈ before, x.paymentHash ≠ paymentHash := by
  induction l generalizing rest with
  | nil => cases htake
  | cons x tail ih =>
    unfold Channel.takeHtlc at htake
    split at htake
    · rename_i hx
      obtain ⟨rfl, rfl⟩ := Prod.mk.inj (Option.some.inj htake)
      exact ⟨[], tail, rfl, rfl, hx, by simp⟩
    · rename_i hx
      obtain ⟨⟨y, tail'⟩, htail, heq⟩ := Option.map_eq_some_iff.mp htake
      obtain ⟨rfl, rfl⟩ := Prod.mk.inj heq
      obtain ⟨before, after, rfl, rfl, hy, hbefore⟩ := ih htail
      refine ⟨x :: before, after, rfl, rfl, hy, ?_⟩
      intro z hz
      rcases List.mem_cons.mp hz with rfl | hz
      · exact hx
      · exact hbefore z hz

theorem canAddHtlc_spec (hcan : c.canAddHtlc h.amount = true) : c.pendingHtlcs.length < c.config.maxHtlcCount.toNat ∧
      h.amount.toNat + c.config.channelReserve.toNat ≤ c.localBalance.toNat := by
  simp only [Channel.canAddHtlc, Bool.and_eq_true, decide_eq_true_eq] at hcan
  obtain ⟨⟨-, hcount⟩, hfits⟩ := hcan
  refine ⟨hcount, ?_⟩
  cases hadd : Transaction.checkedAdd h.amount c.config.channelReserve with
  | none => simp [hadd] at hfits
  | some required =>
    have hle : required ≤ c.localBalance := by simpa [hadd] using hfits
    rw [← checkedAdd_eq_some hadd]
    exact UInt64.le_iff_toNat_le.mp hle

theorem addHtlc_of_can (hcan : c.canAddHtlc h.amount = true) : c.addHtlc h =
      (.ok (),
        { c with
          localBalance := c.localBalance - h.amount
          pendingHtlcs := c.pendingHtlcs ++ [h]
          commitmentNumber := c.nextCommitment }) := by
  have hfits := (canAddHtlc_spec hcan).2
  have hle : ¬ c.localBalance < h.amount := by
    intro hlt
    have := UInt64.lt_iff_toNat_lt.mp hlt
    omega
  rw [Channel.addHtlc, if_neg (not_not.mpr hcan), if_neg hle]

end Outcomes

section Funds

variable {sha256 : Sha256} {c : Channel} {call : ChannelCall} {start : ℕ}

def inFlight (l : List Htlc) : ℕ := (l.map fun h => h.amount.toNat).sum

/-- The money of a channel, in the three places where it can be. -/
def Channel.funds (c : Channel) : ℕ :=
  c.localBalance.toNat + c.remoteBalance.toNat + inFlight c.pendingHtlcs

@[simp] theorem inFlight_append (l l' : List Htlc) : inFlight (l ++ l') = inFlight l + inFlight l' := by
  simp [inFlight]

@[simp] theorem inFlight_cons (h : Htlc) (l : List Htlc) : inFlight (h :: l) = h.amount.toNat + inFlight l := by
  simp [inFlight]

@[simp] theorem inFlight_nil : inFlight [] = 0 := rfl

theorem takeHtlc_inFlight {paymentHash : Bytes32} {l rest : List Htlc} {h : Htlc}
    (htake : Channel.takeHtlc paymentHash l = some (h, rest)) :
    inFlight l = h.amount.toNat + inFlight rest ∧ l.length = rest.length + 1 := by
  obtain ⟨before, after, rfl, rfl, -, -⟩ := takeHtlc_eq_some htake
  simp only [inFlight_append, inFlight_cons, List.length_append, List.length_cons]
  omega

/-- The invariant of a channel that started with `start` on the local side: the money is all
there, the HTLCs are not too many, and an HTLC never took the reserve. -/
structure Sound (start : ℕ) (c : Channel) : Prop where
  funds : c.funds = c.capacity.toNat
  count : c.pendingHtlcs.length ≤ c.config.maxHtlcCount.toNat
  reserve : min start c.config.channelReserve.toNat ≤ c.localBalance.toNat

theorem sound_new (channelId fundingTxid : Bytes32) (fundingVout : UInt32) (capacity localBalance : UInt64)
    (localPubkey remotePubkey : String) : Sound (min localBalance.toNat capacity.toNat)
      (Channel.new channelId fundingTxid fundingVout capacity localBalance localPubkey remotePubkey) := by
  have hmin : (min localBalance capacity).toNat = min localBalance.toNat capacity.toNat := by
    rw [UInt64.toNat_min]
  refine ⟨?_, Nat.zero_le _, ?_⟩
  · simp only [Channel.funds, Channel.new, saturatingSub_toNat, inFlight_nil]
    omega
  · simp only [Channel.new]
    omega

/-- A balance and what is in flight fit in the capacity, so no addition to a balance saturates. -/
theorem Sound.not_overflowsBalance (hs : Sound start c) : ¬ call.overflowsBalance c := by
  have hcap := c.capacity.toNat_lt
  have hfunds := hs.funds
  unfold Channel.funds at hfunds
  intro hover
  cases call with
  | fulfillHtlc paymentHash preimage =>
    obtain ⟨h, rest, htake, hlarge⟩ := hover
    have := (takeHtlc_inFlight htake).1
    omega
  | failHtlc paymentHash =>
    obtain ⟨h, rest, htake, hlarge⟩ := hover
    have := (takeHtlc_inFlight htake).1
    omega
  | setOpen | addHtlc | updateFee | initiateClose | forceClose => exact hover

theorem Sound.apply (sha256 : Sha256) (hs : Sound start c) (call : ChannelCall) :
    Sound start (call.apply sha256 c).2 := by
  have hcap := c.capacity.toNat_lt
  have hfunds := hs.funds
  have hcount := hs.count
  have hreserve := hs.reserve
  unfold Channel.funds at hfunds
  have hout := apply_outcome sha256 c call
  generalize call.apply sha256 c = r at hout
  cases hout with
  | refused => exact hs
  | marked => exact ⟨hs.funds, hs.count, hs.reserve⟩
  | repriced => exact ⟨hs.funds, hs.count, hs.reserve⟩
  | added h hcan =>
    obtain ⟨hroom, hfits⟩ := canAddHtlc_spec hcan
    have hsub : (c.localBalance - h.amount).toNat = c.localBalance.toNat - h.amount.toNat :=
      UInt64.toNat_sub_of_le _ _ (UInt64.le_iff_toNat_le.mpr (by omega))
    refine ⟨?_, ?_, ?_⟩
    · simp only [Channel.funds, hsub, inFlight_append, inFlight_cons, inFlight_nil]
      omega
    · simp only [List.length_append, List.length_cons, List.length_nil]
      omega
    · simp only [hsub]
      omega
  | fulfilled paymentHash preimage h rest htake =>
    obtain ⟨hsum, hlen⟩ := takeHtlc_inFlight htake
    refine ⟨?_, ?_, hreserve⟩
    · simp only [Channel.funds, saturatingAdd_toNat]
      omega
    · show rest.length ≤ c.config.maxHtlcCount.toNat
      omega
  | failed paymentHash h rest htake =>
    obtain ⟨hsum, hlen⟩ := takeHtlc_inFlight htake
    refine ⟨?_, ?_, ?_⟩
    · simp only [Channel.funds, saturatingAdd_toNat]
      omega
    · show rest.length ≤ c.config.maxHtlcCount.toNat
      omega
    · simp only [saturatingAdd_toNat]
      omega

theorem Sound.runCalls (sha256 : Sha256) (calls : List ChannelCall) (hs : Sound start c) :
    Sound start (runCalls sha256 c calls) := by
  induction calls generalizing c with
  | nil => exact hs
  | cons call rest ih => exact ih (hs.apply sha256 call)

theorem runCalls_fixed (sha256 : Sha256) (c : Channel) (calls : List ChannelCall) :
    (runCalls sha256 c calls).capacity = c.capacity ∧ (runCalls sha256 c calls).config = c.config := by
  induction calls generalizing c with
  | nil => exact ⟨rfl, rfl⟩
  | cons call rest ih =>
    obtain ⟨hcap, hconfig⟩ := ih (call.apply sha256 c).2
    have hstep : (call.apply sha256 c).2.capacity = c.capacity ∧
        (call.apply sha256 c).2.config = c.config := by
      have hout := apply_outcome sha256 c call
      generalize call.apply sha256 c = r at hout
      cases hout with
      | refused | marked | added | fulfilled | failed | repriced => exact ⟨rfl, rfl⟩
    exact ⟨hcap.trans hstep.1, hconfig.trans hstep.2⟩

theorem apply_commitmentNumber (sha256 : Sha256) (c : Channel) (call : ChannelCall) :
    (call.apply sha256 c).2.commitmentNumber =
      if call.commits ∧ (call.apply sha256 c).1 = .ok () then c.nextCommitment
      else c.commitmentNumber := by
  have hout := apply_outcome sha256 c call
  generalize call.apply sha256 c = r at hout
  cases hout with
  | refused => simp
  | marked _ hcall => simp [hcall]
  | added | fulfilled | failed | repriced => simp [ChannelCall.commits]

theorem runCalls_commitmentNumber (sha256 : Sha256) (c : Channel) (calls : List ChannelCall) :
    (runCalls sha256 c calls).commitmentNumber.toNat =
      min (c.commitmentNumber.toNat + commitments sha256 c calls) (2 ^ 64 - 1) := by
  induction calls generalizing c with
  | nil =>
    have := c.commitmentNumber.toNat_lt
    simp only [runCalls, List.foldl_nil, commitments]
    omega
  | cons call rest ih =>
    show (runCalls sha256 (call.apply sha256 c).2 rest).commitmentNumber.toNat = _
    have hone : (1 : UInt64).toNat = 1 := rfl
    rw [ih, apply_commitmentNumber, commitments]
    by_cases hok : call.commits = true ∧ (call.apply sha256 c).1 = .ok ()
    · rw [if_pos hok, if_pos hok, Channel.nextCommitment, saturatingAdd_toNat]
      omega
    · rw [if_neg hok, if_neg hok]
      omega

theorem saturatingMul_toNat (a b : UInt32) : (saturatingMul a b).toNat = min (a.toNat * b.toNat) (2 ^ 32 - 1) :=
  UInt32.toNat_ofNat_of_lt' (by show min _ _ < 2 ^ 32; omega)

theorem saturated_bound_refuses_nothing (hover : call.overflowsBound c) (rate : UInt32) :
    ¬ saturatingMul c.feeratePerKw 10 < rate := by
  have hlarge : 2 ^ 32 ≤ c.feeratePerKw.toNat * 10 := by
    cases call with
    | updateFee => exact hover.2.2
    | setOpen | addHtlc | fulfillHtlc | failHtlc | initiateClose | forceClose => exact hover.elim
  have hten : (10 : UInt32).toNat = 10 := rfl
  have hmul := saturatingMul_toNat c.feeratePerKw 10
  have hrate := rate.toNat_lt
  intro hlt
  have := UInt32.lt_iff_toNat_lt.mp hlt
  rw [hten] at hmul
  omega

/-- In every state that calls reach from a new channel the money is all there and no addition to
a balance saturates. The other two saturating operations are exact up to the largest number of
their types: the count of commitments, and the bound of `update_fee`. -/
theorem channel_funds_conserved (sha256 : Sha256) (channelId fundingTxid : Bytes32) (fundingVout : UInt32)
    (capacity localBalance : UInt64) (localPubkey remotePubkey : String) (calls : List ChannelCall) :
    let c₀ := Channel.new channelId fundingTxid fundingVout capacity localBalance localPubkey
      remotePubkey
    let c := runCalls sha256 c₀ calls
    c.localBalance.toNat + c.remoteBalance.toNat +
        (c.pendingHtlcs.map fun h => h.amount.toNat).sum = capacity.toNat ∧
      c₀.localBalance ≤ capacity ∧
      (∀ call : ChannelCall, ¬ call.overflowsBalance c) ∧
      c.commitmentNumber.toNat = min (commitments sha256 c₀ calls) (2 ^ 64 - 1) ∧
      (∀ (call : ChannelCall) (rate : UInt32), call.overflowsBound c →
        ¬ saturatingMul c.feeratePerKw 10 < rate) ∧
      c.pendingHtlcs.length ≤ c.config.maxHtlcCount.toNat ∧
      min c₀.localBalance.toNat c.config.channelReserve.toNat ≤ c.localBalance.toNat ∧
      ∀ (call : ChannelCall) (e : LightningError), (call.apply sha256 c).1 = .error e →
        (call.apply sha256 c).2 = c := by
  intro c₀ c
  have hlocal : c₀.localBalance.toNat = min localBalance.toNat capacity.toNat := by
    show (min localBalance capacity).toNat = _
    rw [UInt64.toNat_min]
  have hs : Sound (min localBalance.toNat capacity.toNat) c :=
    (sound_new channelId fundingTxid fundingVout capacity localBalance localPubkey
      remotePubkey).runCalls sha256 calls
  have hcap : c.capacity = capacity := (runCalls_fixed sha256 c₀ calls).1
  have hcount := runCalls_commitmentNumber sha256 c₀ calls
  refine ⟨?_, ?_, fun call => hs.not_overflowsBalance, ?_,
    fun call rate hover => saturated_bound_refuses_nothing hover rate, hs.count, ?_,
    fun call e he => apply_error he⟩
  · rw [← hcap]
    exact hs.funds
  · exact UInt64.le_iff_toNat_le.mpr (by omega)
  · have hzero : c₀.commitmentNumber.toNat = 0 := rfl
    rw [hzero, Nat.zero_add] at hcount
    exact hcount
  · rw [hlocal]
    exact hs.reserve

/-- Seven updates that each raise the fee tenfold. -/
def feeRises : List ChannelCall :=
  [.setOpen, .updateFee 2530, .updateFee 25300, .updateFee 253000, .updateFee 2530000,
    .updateFee 25300000, .updateFee 253000000, .updateFee 2530000000]

/-- After these updates ten times the rate does not fit in `u32`: the multiplication of the next
update saturates. -/
theorem fee_bound_saturates :
    let c := runCalls runSha256
      (Channel.new Bytes32.zero Bytes32.zero 0 1000000 500000 "local" "remote") feeRises
    (ChannelCall.updateFee 2530000000).overflowsBound c ∧
      (saturatingMul c.feeratePerKw 10).toNat ≠ c.feeratePerKw.toNat * 10 := by
  refine ⟨⟨?_, ?_, ?_⟩, ?_⟩ <;> decide +kernel

end Funds

end KuberCoin.Channels
