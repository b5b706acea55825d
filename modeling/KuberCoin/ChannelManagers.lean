import KuberCoin.Channels
import KuberCoin.PoolEvictions

/-!
The channel manager (crate `lightning`, `channel_manager.rs`): the channels and the phases of
their negotiations, in two maps under the channel id. A call returns its result next to the
manager it leaves. What a call reads besides these is in its surroundings: the order in which the
hash map of the channels is iterated, and whether the storage takes a record. The records
themselves are never read back by a call.

A channel opens when `channel_ready` comes, in whatever phase it is, and `funding_signed` moves the
phase of the first funded channel that it does not name. So only the runs whose messages come in
their phase, and in which no second channel is funded, open each channel after its own
negotiation.
-/
namespace KuberCoin.ChannelManagers

open Bytes Transactions Maps Channels Sha256 PoolEvictions

section Data

inductive NegotiationPhase where
  | awaitingAccept
  | awaitingFundingCreated
  | awaitingFundingSigned
  | awaitingChannelReady
  | established
deriving DecidableEq

structure ChannelManager where
  channels : Map Bytes32 Channel
  phases : Map Bytes32 NegotiationPhase
  localNodeId : String

structure OpenChannelMsg where
  chainHash : Bytes32
  temporaryChannelId : Bytes32
  fundingSatoshis : UInt64
  pushMsat : UInt64
  dustLimitSatoshis : UInt64
  maxHtlcValueInFlightMsat : UInt64
  channelReserveSatoshis : UInt64
  htlcMinimumMsat : UInt64
  feeratePerKw : UInt32
  toSelfDelay : UInt16
  maxAcceptedHtlcs : UInt16
  fundingPubkey : List UInt8
  basepoints : List (List UInt8)

structure FundingCreatedMsg where
  temporaryChannelId : Bytes32
  fundingTxid : Bytes32
  fundingOutputIndex : UInt16
  signature : List UInt8

structure UpdateAddHtlcMsg where
  channelId : Bytes32
  htlcId : UInt64
  amountMsat : UInt64
  paymentHash : Bytes32
  cltvExpiry : UInt32
  onionRoutingPacket : List UInt8
deriving DecidableEq

structure UpdateFulfillHtlcMsg where
  channelId : Bytes32
  htlcId : UInt64
  paymentPreimage : Bytes32

structure UpdateFailHtlcMsg where
  channelId : Bytes32
  htlcId : UInt64
  reason : List UInt8

structure UpdateFeeMsg where
  channelId : Bytes32
  feeratePerKw : UInt32

structure ShutdownMsg where
  channelId : Bytes32
  scriptpubkey : List UInt8

/-- What a call reads besides the manager. -/
structure Surroundings where
  iter : Map Bytes32 Channel → List (Bytes32 × Channel)
  lists : ∀ channels, Lists channels (iter channels)
  saved : Channel → Bool

end Data

namespace ChannelManager

def new (localNodeId : String) : ChannelManager := ⟨∅, ∅, localNodeId⟩

def putChannel (m : ChannelManager) (id : Bytes32) (c : Channel) : ChannelManager :=
  { m with channels := m.channels.insert id c }

def putPhase (m : ChannelManager) (id : Bytes32) (phase : NegotiationPhase) : ChannelManager :=
  { m with phases := m.phases.insert id phase }

def initiateOpen (m : ChannelManager) (temporaryChannelId : Bytes32) (remotePubkey : String)
    (fundingSatoshis pushMsat : UInt64) (fundingPubkey : List UInt8) :
    Except LightningError OpenChannelMsg × ChannelManager :=
  let channel := Channel.new temporaryChannelId Bytes32.zero 0 fundingSatoshis
    (saturatingSub fundingSatoshis (pushMsat / 1000)) m.localNodeId remotePubkey
  (.ok
    { chainHash := Bytes32.zero
      temporaryChannelId := temporaryChannelId
      fundingSatoshis := fundingSatoshis
      pushMsat := pushMsat
      dustLimitSatoshis := 546
      maxHtlcValueInFlightMsat := fundingSatoshis * 1000
      channelReserveSatoshis := 10000
      htlcMinimumMsat := 1000
      feeratePerKw := 253
      toSelfDelay := 144
      maxAcceptedHtlcs := 483
      fundingPubkey := fundingPubkey
      basepoints := List.replicate 5 (List.replicate 33 0) },
    (m.putChannel temporaryChannelId channel).putPhase temporaryChannelId .awaitingAccept)

def handleAcceptChannel (m : ChannelManager) (temporaryChannelId : Bytes32) :
    Except LightningError Unit × ChannelManager :=
  match m.phases.lookup temporaryChannelId with
  | none => (.error (.channelNotFound temporaryChannelId), m)
  | some phase =>
      if phase ≠ .awaitingAccept then (.error (.invalidHtlc "unexpected accept_channel"), m)
      else (.ok (), m.putPhase temporaryChannelId .awaitingFundingCreated)

/-- The funding outpoint is written to the channel, if there is one. -/
def fund (m : ChannelManager) (id fundingTxid : Bytes32) (fundingVout : UInt32) : ChannelManager :=
  match m.channels.lookup id with
  | none => m
  | some c => m.putChannel id { c with fundingTxid := fundingTxid, fundingVout := fundingVout }

def sendFundingCreated (m : ChannelManager) (temporaryChannelId fundingTxid : Bytes32)
    (fundingOutputIndex : UInt16) (signature : List UInt8) :
    Except LightningError FundingCreatedMsg × ChannelManager :=
  match m.phases.lookup temporaryChannelId with
  | none => (.error (.channelNotFound temporaryChannelId), m)
  | some phase =>
      if phase ≠ .awaitingFundingCreated then (.error (.invalidHtlc "unexpected funding_created"), m)
      else
        (.ok ⟨temporaryChannelId, fundingTxid, fundingOutputIndex, signature⟩,
          (m.fund temporaryChannelId fundingTxid fundingOutputIndex.toUInt32).putPhase
            temporaryChannelId .awaitingFundingSigned)

def handleFundingSigned (m : ChannelManager) (env : Surroundings) (channelId : Bytes32) :
    Except LightningError Unit × ChannelManager :=
  let found := (env.iter m.channels).find? fun kv =>
    kv.2.channelId ≠ channelId && kv.2.fundingTxid ≠ Bytes32.zero
  let tempId := (found.map Prod.fst).getD channelId
  (.ok (), m.putPhase tempId .awaitingChannelReady)

def handleChannelReady (m : ChannelManager) (env : Surroundings) (channelId : Bytes32) :
    Except LightningError Unit × ChannelManager :=
  match m.channels.lookup channelId with
  | none => (.error (.channelNotFound channelId), m)
  | some c =>
      let m := (m.putChannel channelId c.setOpen).putPhase channelId .established
      (if env.saved c.setOpen then .ok () else .error .serialization, m)

/-- The calls on one channel: it is found, changed and saved. If the record cannot be saved, the
call fails and the change stays. -/
def onChannel {α : Type} (m : ChannelManager) (env : Surroundings) (channelId : Bytes32)
    (f : Channel → Except LightningError α × Channel) : Except LightningError α × ChannelManager :=
  match m.channels.lookup channelId with
  | none => (.error (.channelNotFound channelId), m)
  | some c =>
      let m := m.putChannel channelId (f c).2
      match (f c).1 with
      | .error e => (.error e, m)
      | .ok a => if env.saved (f c).2 then (.ok a, m) else (.error .serialization, m)

def addHtlc (m : ChannelManager) (env : Surroundings) (channelId paymentHash : Bytes32)
    (amountMsat : UInt64) (cltvExpiry : UInt32) :
    Except LightningError UpdateAddHtlcMsg × ChannelManager :=
  m.onChannel env channelId fun c =>
    let amountSat := amountMsat / 1000
    let htlcId := UInt64.ofNat c.pendingHtlcs.length
    let r := c.addHtlc (Htlc.newOutgoing htlcId paymentHash amountSat cltvExpiry)
    (r.1.map fun _ => ⟨channelId, htlcId, amountMsat, paymentHash, cltvExpiry, []⟩, r.2)

def fulfillHtlc (sha256 : Sha256) (m : ChannelManager) (env : Surroundings)
    (channelId paymentHash preimage : Bytes32) :
    Except LightningError UpdateFulfillHtlcMsg × ChannelManager :=
  m.onChannel env channelId fun c =>
    let r := c.fulfillHtlc sha256 paymentHash preimage
    (r.1.map fun _ => ⟨channelId, 0, preimage⟩, r.2)

def failHtlc (m : ChannelManager) (env : Surroundings) (channelId paymentHash : Bytes32)
    (reason : List UInt8) : Except LightningError UpdateFailHtlcMsg × ChannelManager :=
  m.onChannel env channelId fun c =>
    let r := c.failHtlc paymentHash
    (r.1.map fun _ => ⟨channelId, 0, reason⟩, r.2)

def handleUpdateFee (m : ChannelManager) (env : Surroundings) (channelId : Bytes32)
    (feeratePerKw : UInt32) : Except LightningError Unit × ChannelManager :=
  m.onChannel env channelId fun c => c.updateFee feeratePerKw

def sendUpdateFee (m : ChannelManager) (env : Surroundings) (channelId : Bytes32)
    (newFeeratePerKw : UInt32) : Except LightningError UpdateFeeMsg × ChannelManager :=
  m.onChannel env channelId fun c =>
    let r := c.updateFee newFeeratePerKw
    (r.1.map fun _ => ⟨channelId, newFeeratePerKw⟩, r.2)

def initiateShutdown (m : ChannelManager) (env : Surroundings) (channelId : Bytes32)
    (scriptpubkey : List UInt8) : Except LightningError ShutdownMsg × ChannelManager :=
  m.onChannel env channelId fun c => (.ok ⟨channelId, scriptpubkey⟩, c.initiateClose)

def forceClose (m : ChannelManager) (env : Surroundings) (channelId : Bytes32) :
    Except LightningError Unit × ChannelManager :=
  m.onChannel env channelId fun c => (.ok (), c.forceClose)

def sendPayment (m : ChannelManager) (env : Surroundings) (channelId paymentHash : Bytes32)
    (amountMsat : UInt64) (cltvExpiry : UInt32) :
    Except LightningError UpdateAddHtlcMsg × ChannelManager :=
  m.addHtlc env channelId paymentHash amountMsat cltvExpiry

/-- The shards of a payment are sent in turn, up to the first that fails. -/
def sendShards (m : ChannelManager) (env : Surroundings) (paymentHash : Bytes32)
    (cltvExpiry : UInt32) :
    List (Bytes32 × UInt64) → Except LightningError (List UpdateAddHtlcMsg) × ChannelManager
  | [] => (.ok [], m)
  | (channelId, amountMsat) :: rest =>
      match m.sendPayment env channelId paymentHash amountMsat cltvExpiry with
      | (.error e, m) => (.error e, m)
      | (.ok msg, m) =>
          let r := sendShards m env paymentHash cltvExpiry rest
          (r.1.map fun msgs => msg :: msgs, r.2)

def sendPaymentMpp (m : ChannelManager) (env : Surroundings) (paymentHash : Bytes32)
    (shards : List (Bytes32 × UInt64)) (cltvExpiry : UInt32) :
    Except LightningError (List UpdateAddHtlcMsg) × ChannelManager :=
  if shards.isEmpty then (.error (.invalidHtlc "MPP requires at least one shard"), m)
  else m.sendShards env paymentHash cltvExpiry shards

def stateOf (m : ChannelManager) (id : Bytes32) : Option ChannelState :=
  (m.channels.lookup id).map Channel.state

end ChannelManager

section Calls

/-- The calls of a manager, with their arguments. -/
inductive ManagerCall where
  | initiateOpen (id : Bytes32) (remotePubkey : String) (fundingSatoshis pushMsat : UInt64)
      (fundingPubkey : List UInt8)
  | acceptChannel (id : Bytes32)
  | fundingCreated (id fundingTxid : Bytes32) (fundingOutputIndex : UInt16) (signature : List UInt8)
  | fundingSigned (id : Bytes32)
  | channelReady (id : Bytes32)
  | addHtlc (id paymentHash : Bytes32) (amountMsat : UInt64) (cltvExpiry : UInt32)
  | fulfillHtlc (id paymentHash preimage : Bytes32)
  | failHtlc (id paymentHash : Bytes32) (reason : List UInt8)
  | handleUpdateFee (id : Bytes32) (feeratePerKw : UInt32)
  | sendUpdateFee (id : Bytes32) (feeratePerKw : UInt32)
  | initiateShutdown (id : Bytes32) (scriptpubkey : List UInt8)
  | forceClose (id : Bytes32)
  | sendPaymentMpp (paymentHash : Bytes32) (shards : List (Bytes32 × UInt64)) (cltvExpiry : UInt32)

/-- The result of a call, without the message that some of them return. -/
def ManagerCall.apply (sha256 : Sha256) (m : ChannelManager) (env : Surroundings) :
    ManagerCall → Except LightningError Unit × ChannelManager
  | .initiateOpen id remotePubkey fundingSatoshis pushMsat fundingPubkey =>
      let r := m.initiateOpen id remotePubkey fundingSatoshis pushMsat fundingPubkey
      (r.1.map fun _ => (), r.2)
  | .acceptChannel id => m.handleAcceptChannel id
  | .fundingCreated id fundingTxid fundingOutputIndex signature =>
      let r := m.sendFundingCreated id fundingTxid fundingOutputIndex signature
      (r.1.map fun _ => (), r.2)
  | .fundingSigned id => m.handleFundingSigned env id
  | .channelReady id => m.handleChannelReady env id
  | .addHtlc id paymentHash amountMsat cltvExpiry =>
      let r := m.addHtlc env id paymentHash amountMsat cltvExpiry
      (r.1.map fun _ => (), r.2)
  | .fulfillHtlc id paymentHash preimage =>
      let r := m.fulfillHtlc sha256 env id paymentHash preimage
      (r.1.map fun _ => (), r.2)
  | .failHtlc id paymentHash reason =>
      let r := m.failHtlc env id paymentHash reason
      (r.1.map fun _ => (), r.2)
  | .handleUpdateFee id feeratePerKw => m.handleUpdateFee env id feeratePerKw
  | .sendUpdateFee id feeratePerKw =>
      let r := m.sendUpdateFee env id feeratePerKw
      (r.1.map fun _ => (), r.2)
  | .initiateShutdown id scriptpubkey =>
      let r := m.initiateShutdown env id scriptpubkey
      (r.1.map fun _ => (), r.2)
  | .forceClose id => m.forceClose env id
  | .sendPaymentMpp paymentHash shards cltvExpiry =>
      let r := m.sendPaymentMpp env paymentHash shards cltvExpiry
      (r.1.map fun _ => (), r.2)

/-- The channels that a call names. -/
def ManagerCall.names : ManagerCall → List Bytes32
  | .initiateOpen id .. | .acceptChannel id | .fundingCreated id .. | .fundingSigned id
  | .channelReady id | .addHtlc id .. | .fulfillHtlc id .. | .failHtlc id .. | .handleUpdateFee id _
  | .sendUpdateFee id _ | .initiateShutdown id _ | .forceClose id => [id]
  | .sendPaymentMpp _ shards _ => shards.map Prod.fst

/-- The steps of a negotiation. -/
inductive Milestone where
  | accepted
  | fundingCreated
  | fundingSigned
  | channelReady
deriving DecidableEq

/-- The step of the negotiation of `id` that a call handles. A `channel_ready` that opens the channel
counts also when its record cannot be saved. -/
def ManagerCall.milestone (m : ChannelManager) (id : Bytes32) : ManagerCall → Option Milestone
  | .acceptChannel id' =>
      if id' = id ∧ m.phases.lookup id = some .awaitingAccept then some .accepted else none
  | .fundingCreated id' .. =>
      if id' = id ∧ m.phases.lookup id = some .awaitingFundingCreated then some .fundingCreated
      else none
  | .fundingSigned id' => if id' = id then some .fundingSigned else none
  | .channelReady id' => if id' = id ∧ id ∈ m.channels then some .channelReady else none
  | _ => none

variable (sha256 : Sha256)

def runManager (m : ChannelManager) (calls : List (Surroundings × ManagerCall)) : ChannelManager :=
  calls.foldl (fun m call => (call.2.apply sha256 m call.1).2) m

/-- The steps of the negotiation of `id` that a run handles. -/
def milestones (id : Bytes32) : ChannelManager → List (Surroundings × ManagerCall) → List Milestone
  | _, [] => []
  | m, call :: rest =>
      (call.2.milestone m id).toList ++ milestones id (call.2.apply sha256 m call.1).2 rest

end Calls

section Frames

variable {sha256 : Sha256} {m : ChannelManager} {env : Surroundings} {id : Bytes32} {α : Type}
  {f : Channel → Except LightningError α × Channel}

/-- Every channel stands under its own id. -/
def Keyed (m : ChannelManager) : Prop :=
  ∀ id c, m.channels.lookup id = some c → c.channelId = id

/-- The second manager has the phases of the first, and its channels are in the same states. -/
structure SameStages (m m' : ChannelManager) : Prop where
  phases : m'.phases = m.phases
  states : ∀ id, m'.stateOf id = m.stateOf id
  keyed : Keyed m → Keyed m'

theorem SameStages.refl (m : ChannelManager) : SameStages m m := ⟨rfl, fun _ => rfl, fun h => h⟩

theorem SameStages.trans {m m' m'' : ChannelManager} (h : SameStages m m') (h' : SameStages m' m'') :
    SameStages m m'' :=
  ⟨h'.phases.trans h.phases, fun id => (h'.states id).trans (h.states id), fun hk => h'.keyed (h.keyed hk)⟩

theorem stateOf_putChannel (m : ChannelManager) (id id' : Bytes32) (c : Channel) :
    (m.putChannel id c).stateOf id' = if id' = id then some c.state else m.stateOf id' := by
  unfold ChannelManager.stateOf ChannelManager.putChannel
  rw [lookup_insert_eq]
  split <;> rfl

theorem phases_putPhase (m : ChannelManager) (id id' : Bytes32) (phase : NegotiationPhase) :
    (m.putPhase id phase).phases.lookup id' =
      if id' = id then some phase else m.phases.lookup id' :=
  lookup_insert_eq _ _ _ _

theorem Keyed.putChannel (hk : Keyed m) {c : Channel} (hc : c.channelId = id) : Keyed (m.putChannel id c) := by
  intro id' c' hlook
  unfold ChannelManager.putChannel at hlook
  rw [lookup_insert_eq] at hlook
  split at hlook
  · rename_i heq
    rw [← Option.some.inj hlook, hc, heq]
  · exact hk id' c' hlook

theorem onChannel_snd (m : ChannelManager) (env : Surroundings) (id : Bytes32)
    (f : Channel → Except LightningError α × Channel) : (m.onChannel env id f).2 =
      ((m.channels.lookup id).map fun c => m.putChannel id (f c).2).getD m := by
  unfold ChannelManager.onChannel
  cases m.channels.lookup id with
  | none => rfl
  | some c =>
    simp only [Option.map_some, Option.getD_some]
    cases (f c).1 with
    | error e => rfl
    | ok a =>
      simp only
      split <;> rfl

theorem onChannel_phases (m : ChannelManager) (env : Surroundings) (id : Bytes32)
    (f : Channel → Except LightningError α × Channel) : (m.onChannel env id f).2.phases = m.phases := by
  rw [onChannel_snd]
  cases m.channels.lookup id <;> rfl

theorem onChannel_stateOf (m : ChannelManager) (env : Surroundings) (id id' : Bytes32)
    (f : Channel → Except LightningError α × Channel) : (m.onChannel env id f).2.stateOf id' =
      if id' = id then (m.channels.lookup id).map (fun c => (f c).2.state) else m.stateOf id' := by
  rw [onChannel_snd]
  cases hlook : m.channels.lookup id with
  | none =>
    show m.stateOf id' = _
    split
    · rename_i heq
      rw [heq, ChannelManager.stateOf, hlook]
      rfl
    · rfl
  | some c => exact stateOf_putChannel m id id' (f c).2

theorem onChannel_keyed (env : Surroundings) (id : Bytes32) (hf : ∀ c, (f c).2.channelId = c.channelId) (hk : Keyed m) :
    Keyed (m.onChannel env id f).2 := by
  rw [onChannel_snd]
  cases hlook : m.channels.lookup id with
  | none => exact hk
  | some c => exact hk.putChannel ((hf c).trans (hk id c hlook))

theorem onChannel_sameStages (m : ChannelManager) (env : Surroundings) (id : Bytes32)
    (hf : ∀ c, (f c).2.channelId = c.channelId ∧ (f c).2.state = c.state) : SameStages m (m.onChannel env id f).2 where
  phases := onChannel_phases m env id f
  states id' := by
    rw [onChannel_stateOf]
    split
    · rename_i heq
      rw [heq, ChannelManager.stateOf]
      congr 1
      funext c
      exact (hf c).2
    · rfl
  keyed := onChannel_keyed env id fun c => (hf c).1

theorem addHtlc_stages (c : Channel) (h : Htlc) :
    (c.addHtlc h).2.channelId = c.channelId ∧ (c.addHtlc h).2.state = c.state := by
  unfold Channel.addHtlc
  split
  · exact ⟨rfl, rfl⟩
  · split <;> exact ⟨rfl, rfl⟩

theorem fulfillHtlc_stages (c : Channel) (paymentHash preimage : Bytes32) :
    (c.fulfillHtlc sha256 paymentHash preimage).2.channelId = c.channelId ∧
      (c.fulfillHtlc sha256 paymentHash preimage).2.state = c.state := by
  unfold Channel.fulfillHtlc
  split
  · exact ⟨rfl, rfl⟩
  · split <;> exact ⟨rfl, rfl⟩

theorem failHtlc_stages (c : Channel) (paymentHash : Bytes32) : (c.failHtlc paymentHash).2.channelId = c.channelId ∧
      (c.failHtlc paymentHash).2.state = c.state := by
  unfold Channel.failHtlc
  split <;> exact ⟨rfl, rfl⟩

theorem updateFee_stages (c : Channel) (rate : UInt32) :
    (c.updateFee rate).2.channelId = c.channelId ∧ (c.updateFee rate).2.state = c.state := by
  unfold Channel.updateFee
  split
  · exact ⟨rfl, rfl⟩
  · split
    · exact ⟨rfl, rfl⟩
    · split <;> exact ⟨rfl, rfl⟩

theorem addHtlc_sameStages (m : ChannelManager) (env : Surroundings) (id paymentHash : Bytes32) (amountMsat : UInt64)
    (cltvExpiry : UInt32) : SameStages m (m.addHtlc env id paymentHash amountMsat cltvExpiry).2 := by
  apply onChannel_sameStages
  intro c
  exact addHtlc_stages c _

theorem sendShards_sameStages (m : ChannelManager) (env : Surroundings) (paymentHash : Bytes32) (cltvExpiry : UInt32)
    (shards : List (Bytes32 × UInt64)) : SameStages m (m.sendShards env paymentHash cltvExpiry shards).2 := by
  induction shards generalizing m with
  | nil => exact .refl m
  | cons shard rest ih =>
    have hone : SameStages m (m.sendPayment env shard.1 paymentHash shard.2 cltvExpiry).2 :=
      addHtlc_sameStages m env shard.1 paymentHash shard.2 cltvExpiry
    unfold ChannelManager.sendShards
    generalize m.sendPayment env shard.1 paymentHash shard.2 cltvExpiry = r at hone
    obtain ⟨result, m'⟩ := r
    cases result with
    | error e => exact hone
    | ok msg => exact hone.trans (ih m')

/-- The calls that take no part in a negotiation and close no channel. -/
def ManagerCall.movesMoney : ManagerCall → Bool
  | .addHtlc .. | .fulfillHtlc .. | .failHtlc .. | .handleUpdateFee .. | .sendUpdateFee ..
  | .sendPaymentMpp .. => true
  | _ => false

theorem movesMoney_sameStages (sha256 : Sha256) (m : ChannelManager) (env : Surroundings) {call : ManagerCall}
    (hcall : call.movesMoney = true) : SameStages m (call.apply sha256 m env).2 := by
  cases call with
  | addHtlc id paymentHash amountMsat cltvExpiry =>
    exact addHtlc_sameStages m env id paymentHash amountMsat cltvExpiry
  | fulfillHtlc id paymentHash preimage =>
    show SameStages m (m.fulfillHtlc sha256 env id paymentHash preimage).2
    apply onChannel_sameStages
    intro c
    exact fulfillHtlc_stages c _ _
  | failHtlc id paymentHash reason =>
    show SameStages m (m.failHtlc env id paymentHash reason).2
    apply onChannel_sameStages
    intro c
    exact failHtlc_stages c _
  | handleUpdateFee id rate =>
    apply onChannel_sameStages
    intro c
    exact updateFee_stages c _
  | sendUpdateFee id rate =>
    show SameStages m (m.sendUpdateFee env id rate).2
    apply onChannel_sameStages
    intro c
    exact updateFee_stages c _
  | sendPaymentMpp paymentHash shards cltvExpiry =>
    show SameStages m (m.sendPaymentMpp env paymentHash shards cltvExpiry).2
    unfold ChannelManager.sendPaymentMpp
    split
    · exact .refl m
    · exact sendShards_sameStages m env paymentHash cltvExpiry shards
  | initiateOpen | acceptChannel | fundingCreated | fundingSigned | channelReady
  | initiateShutdown | forceClose => cases hcall

end Frames

section Negotiations

variable {sha256 : Sha256} {m m' : ChannelManager} {env : Surroundings} {id : Bytes32}
  {call : ManagerCall} {names : List Bytes32} {step : Option Milestone}

/-- The channel has left the state `Open`, or was closed before it was open. -/
def HasLeft (m : ChannelManager) (id : Bytes32) : Prop :=
  ∃ s, m.stateOf id = some s ∧ s ≠ .pending ∧ s ≠ .opened

/-- The call comes in its turn. A new negotiation does not take the id of a channel that was
closed; `funding_signed` is awaited, and no other channel is funded; `channel_ready` comes after it,
to a channel that was not closed. -/
def ManagerCall.InTurn (m : ChannelManager) : ManagerCall → Prop
  | .initiateOpen id .. => ¬ HasLeft m id
  | .fundingSigned id =>
      m.phases.lookup id = some .awaitingFundingSigned ∧
        ∀ id' c, m.channels.lookup id' = some c → id' ≠ id → c.fundingTxid = Bytes32.zero
  | .channelReady id =>
      id ∈ m.channels → ¬ HasLeft m id ∧
        (m.phases.lookup id = some .awaitingChannelReady ∨ m.phases.lookup id = some .established)
  | _ => True

/-- What a call in its turn, which names the channels `names`, can do to the negotiation and the
state of a channel. -/
inductive Turn (names : List Bytes32) (m m' : ChannelManager) (id : Bytes32) :
    Option Milestone → Prop where
  | same (hstate : m'.stateOf id = m.stateOf id)
      (hphase : m'.phases.lookup id = m.phases.lookup id) : Turn names m m' id none
  | opening (hname : id ∈ names) (hleft : ¬ HasLeft m id) (hstate : m'.stateOf id = some .pending)
      (hphase : m'.phases.lookup id = some .awaitingAccept) : Turn names m m' id none
  | closing (hname : id ∈ names) (hleft : HasLeft m' id)
      (hphase : m'.phases.lookup id = m.phases.lookup id) : Turn names m m' id none
  | accepted (hname : id ∈ names) (hstate : m'.stateOf id = m.stateOf id)
      (hphase : m'.phases.lookup id = some .awaitingFundingCreated) :
      Turn names m m' id (some .accepted)
  | created (hname : id ∈ names) (hstate : m'.stateOf id = m.stateOf id)
      (hbefore : m.phases.lookup id = some .awaitingFundingCreated)
      (hphase : m'.phases.lookup id = some .awaitingFundingSigned) :
      Turn names m m' id (some .fundingCreated)
  | signed (hname : id ∈ names) (hstate : m'.stateOf id = m.stateOf id)
      (hbefore : m.phases.lookup id = some .awaitingFundingSigned)
      (hphase : m'.phases.lookup id = some .awaitingChannelReady) :
      Turn names m m' id (some .fundingSigned)
  | ready (hname : id ∈ names) (hleft : ¬ HasLeft m id) (hstate : m'.stateOf id = some .opened)
      (hbefore : m.phases.lookup id = some .awaitingChannelReady ∨
        m.phases.lookup id = some .established)
      (hphase : m'.phases.lookup id = some .established) : Turn names m m' id (some .channelReady)

theorem stateOf_fund (m : ChannelManager) (id id' fundingTxid : Bytes32) (fundingVout : UInt32) :
    (m.fund id fundingTxid fundingVout).stateOf id' = m.stateOf id' := by
  unfold ChannelManager.fund
  cases hlook : m.channels.lookup id with
  | none => rfl
  | some c =>
    show (m.putChannel id _).stateOf id' = _
    rw [stateOf_putChannel]
    split
    · rename_i heq
      rw [heq, ChannelManager.stateOf, hlook]
      rfl
    · rfl

theorem phases_fund (m : ChannelManager) (id fundingTxid : Bytes32) (fundingVout : UInt32) :
    (m.fund id fundingTxid fundingVout).phases = m.phases := by
  unfold ChannelManager.fund
  cases m.channels.lookup id <;> rfl

theorem handleFundingSigned_of_alone (env : Surroundings) (hk : Keyed m)
    (halone : ∀ id' c, m.channels.lookup id' = some c → id' ≠ id → c.fundingTxid = Bytes32.zero) :
    (m.handleFundingSigned env id).2 = m.putPhase id .awaitingChannelReady := by
  have hnone : (env.iter m.channels).find? (fun kv =>
      kv.2.channelId ≠ id && kv.2.fundingTxid ≠ Bytes32.zero) = none := by
    apply List.find?_eq_none.mpr
    intro kv hkv hfound
    have hlook := ((env.lists m.channels).mem kv.1 kv.2).mp hkv
    simp only [Bool.and_eq_true, decide_eq_true_eq] at hfound
    rw [hk kv.1 kv.2 hlook] at hfound
    exact hfound.2 (halone kv.1 kv.2 hlook hfound.1)
  simp only [ChannelManager.handleFundingSigned, hnone, Option.map_none, Option.getD_none]

theorem apply_keyed (hk : Keyed m) : Keyed (call.apply sha256 m env).2 := by
  cases hmoney : call.movesMoney with
  | true => exact (movesMoney_sameStages sha256 m env hmoney).keyed hk
  | false =>
    cases call with
    | initiateOpen id remotePubkey fundingSatoshis pushMsat fundingPubkey =>
      exact hk.putChannel rfl
    | acceptChannel id =>
      show Keyed (m.handleAcceptChannel id).2
      unfold ChannelManager.handleAcceptChannel
      split
      · exact hk
      · split <;> exact hk
    | fundingCreated id fundingTxid fundingOutputIndex signature =>
      show Keyed (m.sendFundingCreated id fundingTxid fundingOutputIndex signature).2
      unfold ChannelManager.sendFundingCreated ChannelManager.fund
      split
      · exact hk
      · split
        · exact hk
        · cases hlook : m.channels.lookup id with
          | none => exact hk
          | some c =>
            have hc : Channel.channelId
                { c with fundingTxid := fundingTxid, fundingVout := fundingOutputIndex.toUInt32 } = id :=
              hk id c hlook
            exact hk.putChannel hc
    | fundingSigned id => exact hk
    | channelReady id =>
      show Keyed (m.handleChannelReady env id).2
      unfold ChannelManager.handleChannelReady
      cases hlook : m.channels.lookup id with
      | none => exact hk
      | some c => exact @Keyed.putChannel m id hk c.setOpen (hk id c hlook)
    | initiateShutdown id scriptpubkey => exact onChannel_keyed env id (fun c => rfl) hk
    | forceClose id => exact onChannel_keyed env id (fun c => rfl) hk
    | addHtlc | fulfillHtlc | failHtlc | handleUpdateFee | sendUpdateFee | sendPaymentMpp =>
      cases hmoney

theorem SameStages.turn {names : List Bytes32} (h : SameStages m m') : Turn names m m' id none :=
  .same (h.states id) (by rw [h.phases])

theorem onChannel_turn {α : Type} (m : ChannelManager) (env : Surroundings) (id id' : Bytes32)
    {f : Channel → Except LightningError α × Channel} (hf : ∀ c, (f c).2.state ≠ .pending ∧ (f c).2.state ≠ .opened) :
    Turn [id] m (m.onChannel env id f).2 id' none := by
  have hstate := onChannel_stateOf m env id id' f
  have hphase := onChannel_phases m env id f
  by_cases hid : id' = id
  · rw [if_pos hid] at hstate
    cases hlook : m.channels.lookup id with
    | none =>
      refine .same ?_ (by rw [hphase])
      rw [hstate, hid, ChannelManager.stateOf, hlook]
      rfl
    | some c =>
      refine .closing (by simp [hid]) ⟨(f c).2.state, ?_, hf c⟩ (by rw [hphase])
      rw [hstate, hlook]
      rfl
  · rw [if_neg hid] at hstate
    exact .same hstate (by rw [hphase])

theorem handleAcceptChannel_snd (m : ChannelManager) (id : Bytes32) : (m.handleAcceptChannel id).2 =
      if m.phases.lookup id = some .awaitingAccept then m.putPhase id .awaitingFundingCreated else m := by
  unfold ChannelManager.handleAcceptChannel
  cases m.phases.lookup id with
  | none => rfl
  | some phase => cases phase <;> rfl

theorem sendFundingCreated_snd (m : ChannelManager) (id fundingTxid : Bytes32) (fundingOutputIndex : UInt16)
    (signature : List UInt8) : (m.sendFundingCreated id fundingTxid fundingOutputIndex signature).2 =
      if m.phases.lookup id = some .awaitingFundingCreated then
        (m.fund id fundingTxid fundingOutputIndex.toUInt32).putPhase id .awaitingFundingSigned
      else m := by
  unfold ChannelManager.sendFundingCreated
  cases m.phases.lookup id with
  | none => rfl
  | some phase => cases phase <;> rfl

theorem apply_turn (hk : Keyed m) (hturn : call.InTurn m) (id : Bytes32) :
    Turn call.names m (call.apply sha256 m env).2 id (call.milestone m id) := by
  cases hmoney : call.movesMoney with
  | true =>
    have hnone : call.milestone m id = none := by
      cases call with
      | addHtlc | fulfillHtlc | failHtlc | handleUpdateFee | sendUpdateFee | sendPaymentMpp => rfl
      | initiateOpen | acceptChannel | fundingCreated | fundingSigned | channelReady
      | initiateShutdown | forceClose => cases hmoney
    rw [hnone]
    exact (movesMoney_sameStages sha256 m env hmoney).turn
  | false =>
    cases call with
    | initiateOpen id' remotePubkey fundingSatoshis pushMsat fundingPubkey =>
      have hstate := fun c => stateOf_putChannel m id' id c
      have hphase := fun c => phases_putPhase (m.putChannel id' c) id' id .awaitingAccept
      by_cases hid : id = id'
      · subst hid
        refine .opening (.head _) hturn ?_ ?_
        · exact (hstate _).trans (if_pos rfl)
        · exact (hphase _).trans (if_pos rfl)
      · refine .same ?_ ?_
        · exact (hstate _).trans (if_neg hid)
        · exact (hphase _).trans (if_neg hid)
    | acceptChannel id' =>
      show Turn _ m (m.handleAcceptChannel id').2 id
        (if id' = id ∧ m.phases.lookup id = some .awaitingAccept then some .accepted else none)
      rw [handleAcceptChannel_snd]
      by_cases hphase : m.phases.lookup id' = some .awaitingAccept
      · have hput := phases_putPhase m id' id .awaitingFundingCreated
        rw [if_pos hphase]
        by_cases hid : id' = id
        · subst hid
          rw [if_pos ⟨rfl, hphase⟩]
          exact .accepted (.head _) rfl (hput.trans (if_pos rfl))
        · rw [if_neg fun h => hid h.1]
          exact .same rfl (hput.trans (if_neg fun h => hid h.symm))
      · rw [if_neg hphase, if_neg]
        · exact .same rfl rfl
        · rintro ⟨rfl, h⟩
          exact hphase h
    | fundingCreated id' fundingTxid fundingOutputIndex signature =>
      show Turn _ m (m.sendFundingCreated id' fundingTxid fundingOutputIndex signature).2 id
        (if id' = id ∧ m.phases.lookup id = some .awaitingFundingCreated then some .fundingCreated
          else none)
      rw [sendFundingCreated_snd]
      by_cases hphase : m.phases.lookup id' = some .awaitingFundingCreated
      · have hstate := stateOf_fund m id' id fundingTxid fundingOutputIndex.toUInt32
        have hput := phases_putPhase (m.fund id' fundingTxid fundingOutputIndex.toUInt32) id' id
          .awaitingFundingSigned
        rw [if_pos hphase]
        by_cases hid : id' = id
        · subst hid
          rw [if_pos ⟨rfl, hphase⟩]
          exact .created (.head _) hstate hphase (hput.trans (if_pos rfl))
        · rw [if_neg fun h => hid h.1]
          refine .same hstate (hput.trans ?_)
          rw [if_neg (fun h => hid h.symm), phases_fund]
      · rw [if_neg hphase, if_neg]
        · exact .same rfl rfl
        · rintro ⟨rfl, h⟩
          exact hphase h
    | fundingSigned id' =>
      obtain ⟨hawaited, halone⟩ := hturn
      show Turn _ m (m.handleFundingSigned env id').2 id (if _ then _ else _)
      rw [handleFundingSigned_of_alone env hk halone]
      have hphase := phases_putPhase m id' id .awaitingChannelReady
      by_cases hid : id' = id
      · subst hid
        rw [if_pos rfl]
        exact .signed (.head _) rfl hawaited (hphase.trans (if_pos rfl))
      · rw [if_neg hid]
        exact .same rfl (hphase.trans (if_neg fun h => hid h.symm))
    | channelReady id' =>
      show Turn _ m (m.handleChannelReady env id').2 id (if _ then _ else _)
      unfold ChannelManager.handleChannelReady
      cases hlook : m.channels.lookup id' with
      | none =>
        rw [if_neg]
        · exact .same rfl rfl
        · rintro ⟨rfl, hmem⟩
          obtain ⟨c, hc⟩ := (mem_iff_lookup m.channels id').mp hmem
          rw [hlook] at hc
          cases hc
      | some c =>
        have hmem : id' ∈ m.channels := (mem_iff_lookup m.channels id').mpr ⟨c, hlook⟩
        obtain ⟨hleft, hbefore⟩ := hturn hmem
        have hstate := stateOf_putChannel m id' id c.setOpen
        have hphase := phases_putPhase (m.putChannel id' c.setOpen) id' id .established
        by_cases hid : id' = id
        · subst hid
          rw [if_pos ⟨rfl, hmem⟩]
          exact .ready (.head _) hleft (hstate.trans (if_pos rfl)) hbefore (hphase.trans (if_pos rfl))
        · rw [if_neg fun h => hid h.1]
          have hid' : id ≠ id' := fun h => hid h.symm
          exact .same (hstate.trans (if_neg hid')) (hphase.trans (if_neg hid'))
    | initiateShutdown id' scriptpubkey =>
      show Turn _ m (m.initiateShutdown env id' scriptpubkey).2 id none
      apply onChannel_turn
      intro c
      simp [Channel.initiateClose]
    | forceClose id' =>
      show Turn _ m (m.forceClose env id').2 id none
      apply onChannel_turn
      intro c
      simp [Channel.forceClose]
    | addHtlc | fulfillHtlc | failHtlc | handleUpdateFee | sendUpdateFee | sendPaymentMpp =>
      cases hmoney

theorem HasLeft.congr (hstate : m'.stateOf id = m.stateOf id) : HasLeft m' id ↔ HasLeft m id := by
  unfold HasLeft
  rw [hstate]

theorem HasLeft.not_opened (h : HasLeft m id) : m.stateOf id ≠ some .opened := by
  obtain ⟨s, hs, -, hne⟩ := h
  rw [hs]
  exact fun heq => hne (Option.some.inj heq)

/-- A closed channel stays closed. -/
theorem Turn.hasLeft (h : Turn names m m' id step) (hleft : HasLeft m id) : HasLeft m' id := by
  cases h with
  | same hstate | accepted _ hstate | created _ hstate | signed _ hstate =>
    exact (HasLeft.congr hstate).mpr hleft
  | closing _ hleft' => exact hleft'
  | opening _ hnot | ready _ hnot => exact absurd hleft hnot

theorem Turn.other (h : Turn names m m' id step) (hid : id ∉ names) :
    m'.stateOf id = m.stateOf id ∧ m'.phases.lookup id = m.phases.lookup id := by
  cases h with
  | same hstate hphase => exact ⟨hstate, hphase⟩
  | opening hname | closing hname | accepted hname | created hname | signed hname | ready hname =>
    exact absurd hname hid

/-- The steps of the negotiation that a phase stands for. -/
def NegotiationPhase.after : NegotiationPhase → List Milestone
  | .awaitingAccept => []
  | .awaitingFundingCreated => [.accepted]
  | .awaitingFundingSigned => [.accepted, .fundingCreated]
  | .awaitingChannelReady => [.accepted, .fundingCreated, .fundingSigned]
  | .established => [.accepted, .fundingCreated, .fundingSigned, .channelReady]

/-- What the manager says of a channel was handled in this order. -/
structure Told (m : ChannelManager) (id : Bytes32) (log : List Milestone) : Prop where
  phase : ∀ phase, m.phases.lookup id = some phase → phase.after.Sublist log
  opened : m.stateOf id = some .opened → NegotiationPhase.established.after.Sublist log

theorem Told.turn {names : List Bytes32} {step : Option Milestone} {log : List Milestone} (h : Turn names m m' id step)
    (ht : Told m id log) : Told m' id (log ++ step.toList) := by
  -- a step that changes no state is put behind what the phase before stood for
  have key : ∀ (phase : NegotiationPhase) (done : List Milestone),
      m'.phases.lookup id = some phase → phase.after = done ++ step.toList → done.Sublist log →
      (m'.stateOf id = some .opened → NegotiationPhase.established.after.Sublist (log ++ step.toList)) →
      Told m' id (log ++ step.toList) := by
    intro phase done hphase hafter hdone hopen
    refine ⟨?_, hopen⟩
    intro phase' hphase'
    rw [hphase] at hphase'
    rw [← Option.some.inj hphase', hafter]
    exact hdone.append_right _
  have hopen : m'.stateOf id = m.stateOf id → m'.stateOf id = some .opened →
      NegotiationPhase.established.after.Sublist (log ++ step.toList) := by
    intro hstate hopened
    exact (ht.opened (hstate.symm.trans hopened)).trans (List.sublist_append_left _ _)
  cases h with
  | same hstate hphase =>
    refine ⟨?_, hopen hstate⟩
    intro phase hphase'
    exact (ht.phase phase (hphase.symm.trans hphase')).trans (List.sublist_append_left _ _)
  | opening _ _ hstate hphase =>
    refine key _ [] hphase rfl (List.nil_sublist _) ?_
    rw [hstate]
    intro heq
    cases heq
  | closing _ hleft hphase =>
    refine ⟨?_, fun hopened => absurd hopened hleft.not_opened⟩
    intro phase hphase'
    exact (ht.phase phase (hphase.symm.trans hphase')).trans (List.sublist_append_left _ _)
  | accepted _ hstate hphase =>
    exact key _ [] hphase rfl (List.nil_sublist _) (hopen hstate)
  | created _ hstate hbefore hphase =>
    exact key _ _ hphase rfl (ht.phase _ hbefore) (hopen hstate)
  | signed _ hstate hbefore hphase =>
    exact key _ _ hphase rfl (ht.phase _ hbefore) (hopen hstate)
  | ready _ _ hstate hbefore hphase =>
    have hready : NegotiationPhase.established.after.Sublist (log ++ [.channelReady]) := by
      rcases hbefore with hbefore | hbefore
      · exact (ht.phase _ hbefore).append_right [.channelReady]
      · exact (ht.phase _ hbefore).trans (List.sublist_append_left _ _)
    refine ⟨?_, fun _ => hready⟩
    intro phase hphase'
    rw [hphase] at hphase'
    rw [← Option.some.inj hphase']
    exact hready

end Negotiations

section Runs

variable {sha256 : Sha256} {m : ChannelManager} {calls : List (Surroundings × ManagerCall)} {id : Bytes32}

/-- Every call of the run comes in its turn. -/
def RunInTurn (sha256 : Sha256) : ChannelManager → List (Surroundings × ManagerCall) → Prop
  | _, [] => True
  | m, call :: rest => call.2.InTurn m ∧ RunInTurn sha256 (call.2.apply sha256 m call.1).2 rest

theorem runManager_append (m : ChannelManager) (calls calls' : List (Surroundings × ManagerCall)) :
    runManager sha256 m (calls ++ calls') = runManager sha256 (runManager sha256 m calls) calls' :=
  List.foldl_append

theorem runInTurn_append {calls' : List (Surroundings × ManagerCall)} (h : RunInTurn sha256 m (calls ++ calls')) :
    RunInTurn sha256 m calls ∧ RunInTurn sha256 (runManager sha256 m calls) calls' := by
  induction calls generalizing m with
  | nil => exact ⟨trivial, h⟩
  | cons call rest ih =>
    obtain ⟨hcall, hrest⟩ := h
    exact ⟨⟨hcall, (ih hrest).1⟩, (ih hrest).2⟩

theorem runManager_keyed (calls : List (Surroundings × ManagerCall)) (hk : Keyed m) :
    Keyed (runManager sha256 m calls) := by
  induction calls generalizing m with
  | nil => exact hk
  | cons call rest ih => exact ih (apply_keyed hk)

theorem runManager_hasLeft (hk : Keyed m) (hrun : RunInTurn sha256 m calls) (hleft : HasLeft m id) :
    HasLeft (runManager sha256 m calls) id := by
  induction calls generalizing m with
  | nil => exact hleft
  | cons call rest ih =>
    obtain ⟨hcall, hrest⟩ := hrun
    exact ih (apply_keyed hk) hrest ((apply_turn hk hcall id).hasLeft hleft)

theorem runManager_told {log : List Milestone} (hk : Keyed m) (hrun : RunInTurn sha256 m calls) (ht : Told m id log) :
    Told (runManager sha256 m calls) id (log ++ milestones sha256 id m calls) := by
  induction calls generalizing m log with
  | nil =>
    rw [milestones, List.append_nil]
    exact ht
  | cons call rest ih =>
    obtain ⟨hcall, hrest⟩ := hrun
    rw [milestones, ← List.append_assoc]
    exact ih (apply_keyed hk) hrest (ht.turn (apply_turn hk hcall id))

theorem keyed_new (localNodeId : String) : Keyed (ChannelManager.new localNodeId) := by
  intro id c hlook
  rw [ChannelManager.new, Finmap.lookup_empty] at hlook
  cases hlook

theorem told_new (localNodeId : String) (id : Bytes32) : Told (ChannelManager.new localNodeId) id [] where
  phase phase hphase := by
    rw [ChannelManager.new, Finmap.lookup_empty] at hphase
    cases hphase
  opened hopened := by
    rw [ChannelManager.new, ChannelManager.stateOf, Finmap.lookup_empty] at hopened
    cases hopened

/-- In a run whose calls come in their turn, a channel is open only after the four steps of its
own negotiation in their order, each call leaves the phases and states of the channels that it does
not name, and a closed channel is never open again. -/
theorem opens_after_negotiation (sha256 : Sha256) (localNodeId : String) (calls : List (Surroundings × ManagerCall))
    (hrun : RunInTurn sha256 (ChannelManager.new localNodeId) calls) :
    (∀ id, (runManager sha256 (ChannelManager.new localNodeId) calls).stateOf id = some .opened →
      [Milestone.accepted, .fundingCreated, .fundingSigned, .channelReady].Sublist
        (milestones sha256 id (ChannelManager.new localNodeId) calls)) ∧
    (∀ before call after, calls = before ++ call :: after → ∀ id ∉ call.2.names,
      let m := runManager sha256 (ChannelManager.new localNodeId) before
      let m' := (call.2.apply sha256 m call.1).2
      m'.stateOf id = m.stateOf id ∧ m'.phases.lookup id = m.phases.lookup id) ∧
    ∀ before after, calls = before ++ after → ∀ id s,
      (runManager sha256 (ChannelManager.new localNodeId) before).stateOf id = some s →
      s = .closing ∨ s = .forceClosing ∨ s = .closed →
      (runManager sha256 (ChannelManager.new localNodeId) calls).stateOf id ≠ some .opened := by
  have hk := keyed_new localNodeId
  refine ⟨?_, ?_, ?_⟩
  · intro id hopened
    exact (runManager_told hk hrun (told_new localNodeId id)).opened hopened
  · rintro before call after rfl id hid
    obtain ⟨hbefore, hcall, -⟩ := runInTurn_append hrun
    exact (apply_turn (runManager_keyed before hk) hcall id).other hid
  · rintro before after rfl id s hs hclosed
    have hleft : HasLeft (runManager sha256 (ChannelManager.new localNodeId) before) id :=
      ⟨s, hs, by rcases hclosed with rfl | rfl | rfl <;> simp⟩
    rw [runManager_append]
    exact (runManager_hasLeft (runManager_keyed before hk) (runInTurn_append hrun).2
      hleft).not_opened

/-- Surroundings in which the hash map is iterated by id and every record is saved. -/
def saving : Surroundings where
  iter channels := sortedBindings _ bytes32_rank_injective channels
  lists channels := lists_sortedBindings _ bytes32_rank_injective channels
  saved _ := true

theorem hasLeft_iff (m : ChannelManager) (id : Bytes32) :
    HasLeft m id ↔ m.stateOf id ≠ none ∧ m.stateOf id ≠ some .pending ∧ m.stateOf id ≠ some .opened := by
  unfold HasLeft
  cases m.stateOf id <;> simp

theorem alone_iff (m : ChannelManager) (id : Bytes32) :
    (∀ id' c, m.channels.lookup id' = some c → id' ≠ id → c.fundingTxid = Bytes32.zero) ↔
      ∀ kv ∈ saving.iter m.channels, kv.1 ≠ id → kv.2.fundingTxid = Bytes32.zero := by
  constructor
  · intro h kv hkv
    exact h kv.1 kv.2 (((saving.lists m.channels).mem kv.1 kv.2).mp hkv)
  · intro h id' c hlook
    exact h (id', c) (((saving.lists m.channels).mem id' c).mpr hlook)

instance (m : ChannelManager) (id : Bytes32) : Decidable (HasLeft m id) :=
  decidable_of_iff' _ (hasLeft_iff m id)

instance (m : ChannelManager) (call : ManagerCall) : Decidable (call.InTurn m) :=
  match call with
  | .initiateOpen .. => inferInstanceAs (Decidable (¬ _))
  | .fundingSigned id => decidable_of_iff' _ (and_congr_right' (alone_iff m id))
  | .channelReady _ => inferInstanceAs (Decidable (_ → _))
  | .acceptChannel .. | .fundingCreated .. | .addHtlc .. | .fulfillHtlc .. | .failHtlc ..
  | .handleUpdateFee .. | .sendUpdateFee .. | .initiateShutdown .. | .forceClose ..
  | .sendPaymentMpp .. => inferInstanceAs (Decidable True)

instance decidableRunInTurn (sha256 : Sha256) (m : ChannelManager)
    (calls : List (Surroundings × ManagerCall)) : Decidable (RunInTurn sha256 m calls) :=
  match calls with
  | [] => inferInstanceAs (Decidable True)
  | call :: rest =>
      have := decidableRunInTurn sha256 (call.2.apply sha256 m call.1).2 rest
      inferInstanceAs (Decidable (_ ∧ _))

def firstId : Bytes32 := ⟨List.replicate 32 0xaa, by decide⟩

def secondId : Bytes32 := ⟨List.replicate 32 0xbb, by decide⟩

/-- The first channel is opened while the second is negotiated. -/
def negotiation : List (Surroundings × ManagerCall) :=
  [(saving, .initiateOpen firstId "remote" 1000000 0 []), (saving, .acceptChannel firstId),
    (saving, .fundingCreated firstId secondId 0 []), (saving, .fundingSigned firstId),
    (saving, .initiateOpen secondId "remote" 1000000 0 []), (saving, .channelReady firstId),
    (saving, .acceptChannel secondId)]

theorem negotiated_channel_opens :
    (runManager runSha256 (ChannelManager.new "node") negotiation).stateOf firstId = some .opened ∧
      [Milestone.accepted, .fundingCreated, .fundingSigned, .channelReady].Sublist
        (milestones runSha256 firstId (ChannelManager.new "node") negotiation) :=
  have hopen : (runManager runSha256 (ChannelManager.new "node") negotiation).stateOf firstId =
      some .opened := by decide +kernel
  ⟨hopen, (opens_after_negotiation runSha256 "node" negotiation (by decide +kernel)).1 firstId hopen⟩

/-- A channel is open after `open_channel` and `channel_ready` alone; it is open again after it was
force-closed; and `funding_signed` for the second channel moves the phase of the first. -/
theorem channel_opens_unnegotiated :
    let start := ChannelManager.new "node"
    let early := [(saving, ManagerCall.initiateOpen firstId "remote" 1000000 0 []),
      (saving, .channelReady firstId)]
    let closed := early ++ [(saving, ManagerCall.forceClose firstId)]
    let funded := negotiation.take 3 ++ [(saving, .initiateOpen secondId "remote" 1000000 0 [])]
    (runManager runSha256 start early).stateOf firstId = some .opened ∧
      milestones runSha256 firstId start early = [.channelReady] ∧
      (runManager runSha256 start closed).stateOf firstId = some .forceClosing ∧
      (runManager runSha256 start (closed ++ [(saving, .channelReady firstId)])).stateOf firstId =
        some .opened ∧
      (runManager runSha256 start funded).phases.lookup firstId = some .awaitingFundingSigned ∧
      (runManager runSha256 start (funded ++ [(saving, .fundingSigned secondId)])).phases.lookup
        firstId = some .awaitingChannelReady := by
  refine ⟨?_, ?_, ?_, ?_, ?_, ?_⟩ <;> decide +kernel

end Runs

end KuberCoin.ChannelManagers
