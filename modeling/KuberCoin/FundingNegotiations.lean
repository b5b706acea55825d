import KuberCoin.Channels

/-!
The interactive construction of a funding transaction (crate `lightning`, `dual_funding.rs`). Two
flags say who has sent `tx_complete`, a state says whose turn it is. A peer's `tx_complete` is taken
in any state, also right after the peer added something to a transaction that we had agreed to.
Two negotiators that exchange their messages in order never come into that situation.
-/
namespace KuberCoin.FundingNegotiations

open Bytes Transactions Channels

section Data

inductive InteractiveTxState where
  | awaitingPeer
  | ourTurn
  | complete
  | failed
deriving DecidableEq

structure TxAddInput where
  channelId : Bytes32
  serialId : UInt64
  prevtxTxid : Bytes32
  prevtxVout : UInt32
  amount : UInt64
  sequence : UInt32
deriving DecidableEq

structure TxAddOutput where
  channelId : Bytes32
  serialId : UInt64
  amount : UInt64
  script : List UInt8
deriving DecidableEq

structure TxComplete where
  channelId : Bytes32
deriving DecidableEq

structure DualFundingNegotiator where
  channelId : Bytes32
  state : InteractiveTxState
  isInitiator : Bool
  ourInputs : List TxAddInput
  ourOutputs : List TxAddOutput
  peerInputs : List TxAddInput
  peerOutputs : List TxAddOutput
  ourComplete : Bool
  peerComplete : Bool
  nextSerial : UInt64
deriving DecidableEq

end Data

namespace DualFundingNegotiator

def new (channelId : Bytes32) (isInitiator : Bool) : DualFundingNegotiator where
  channelId := channelId
  state := if isInitiator then .ourTurn else .awaitingPeer
  isInitiator := isInitiator
  ourInputs := []
  ourOutputs := []
  peerInputs := []
  peerOutputs := []
  ourComplete := false
  peerComplete := false
  nextSerial := if isInitiator then 0 else 1

/-- The serial numbers wrap around, as in the release profile. -/
def addInput (n : DualFundingNegotiator) (prevtxTxid : Bytes32) (prevtxVout : UInt32) (amount : UInt64) :
    Except LightningError TxAddInput × DualFundingNegotiator :=
  if n.state ≠ .ourTurn then (.error (.paymentFailed "not our turn"), n)
  else
    let input : TxAddInput := ⟨n.channelId, n.nextSerial, prevtxTxid, prevtxVout, amount, 0xfffffffd⟩
    (.ok input, { n with
      nextSerial := n.nextSerial + 2
      ourInputs := n.ourInputs ++ [input]
      ourComplete := false
      state := .awaitingPeer })

def addOutput (n : DualFundingNegotiator) (amount : UInt64) (script : List UInt8) :
    Except LightningError TxAddOutput × DualFundingNegotiator :=
  if n.state ≠ .ourTurn then (.error (.paymentFailed "not our turn"), n)
  else
    let output : TxAddOutput := ⟨n.channelId, n.nextSerial, amount, script⟩
    (.ok output, { n with
      nextSerial := n.nextSerial + 2
      ourOutputs := n.ourOutputs ++ [output]
      ourComplete := false
      state := .awaitingPeer })

def handlePeerInput (n : DualFundingNegotiator) (input : TxAddInput) :
    Except LightningError Unit × DualFundingNegotiator :=
  if n.state ≠ .awaitingPeer then (.error (.paymentFailed "unexpected peer input"), n)
  else if decide (input.serialId % 2 = 1) ≠ n.isInitiator then
    (.error (.paymentFailed "peer serial_id has wrong parity"), n)
  else
    (.ok (), { n with
      peerInputs := n.peerInputs ++ [input]
      peerComplete := false
      state := .ourTurn })

/-- The serial number of an output is not looked at. -/
def handlePeerOutput (n : DualFundingNegotiator) (output : TxAddOutput) :
    Except LightningError Unit × DualFundingNegotiator :=
  if n.state ≠ .awaitingPeer then (.error (.paymentFailed "unexpected peer output"), n)
  else
    (.ok (), { n with
      peerOutputs := n.peerOutputs ++ [output]
      peerComplete := false
      state := .ourTurn })

def sendTxComplete (n : DualFundingNegotiator) : Except LightningError TxComplete × DualFundingNegotiator :=
  if n.state ≠ .ourTurn then (.error (.paymentFailed "not our turn"), n)
  else
    (.ok ⟨n.channelId⟩, { n with
      ourComplete := true
      state := if n.peerComplete then .complete else .awaitingPeer })

/-- No state is refused here. -/
def handlePeerComplete (n : DualFundingNegotiator) : Except LightningError Unit × DualFundingNegotiator :=
  (.ok (), { n with
    peerComplete := true
    state := if n.ourComplete then .complete else .ourTurn })

def isComplete (n : DualFundingNegotiator) : Bool := n.state = .complete

end DualFundingNegotiator

open DualFundingNegotiator

section Runs

variable {act added complete : Act} {acts : List Act} {n : DualFundingNegotiator} {k : ℕ}

/-- A local call, or a message of the peer. -/
inductive Call where
  | addInput (prevtxTxid : Bytes32) (prevtxVout : UInt32) (amount : UInt64)
  | addOutput (amount : UInt64) (script : List UInt8)
  | sendTxComplete
  | peerInput (input : TxAddInput)
  | peerOutput (output : TxAddOutput)
  | peerComplete

/-- What an accepted call means for the agreement. -/
inductive Act where
  | weAdd
  | weComplete
  | peerAdds
  | peerCompletes
deriving DecidableEq

/-- The act of a call; a call that is refused is none. -/
def Call.apply (n : DualFundingNegotiator) : Call → List Act × DualFundingNegotiator
  | .addInput txid vout amount =>
      let r := n.addInput txid vout amount
      (if r.1.isOk then [.weAdd] else [], r.2)
  | .addOutput amount script =>
      let r := n.addOutput amount script
      (if r.1.isOk then [.weAdd] else [], r.2)
  | .sendTxComplete =>
      let r := n.sendTxComplete
      (if r.1.isOk then [.weComplete] else [], r.2)
  | .peerInput input =>
      let r := n.handlePeerInput input
      (if r.1.isOk then [.peerAdds] else [], r.2)
  | .peerOutput output =>
      let r := n.handlePeerOutput output
      (if r.1.isOk then [.peerAdds] else [], r.2)
  | .peerComplete =>
      let r := n.handlePeerComplete
      (if r.1.isOk then [.peerCompletes] else [], r.2)

/-- The acts of a list of calls, oldest first, and the negotiator after them. -/
def runCalls (acts : List Act) (n : DualFundingNegotiator) : List Call → List Act × DualFundingNegotiator
  | [] => (acts, n)
  | call :: calls => runCalls (acts ++ (call.apply n).1) (call.apply n).2 calls

/-- The given `tx_complete` was sent, and after the last one nothing was added by the other side. -/
def SettledAfter (complete added : Act) (acts : List Act) : Prop :=
  ∃ before after, acts = before ++ complete :: after ∧ complete ∉ after ∧ added ∉ after

/-- Both sides agreed to what the transaction holds. -/
def Agreed (acts : List Act) : Prop :=
  SettledAfter .weComplete .peerAdds acts ∧ SettledAfter .peerCompletes .weAdd acts

/-- It is our turn, and we have sent `tx_complete`: the peer added something since. -/
def Stale (n : DualFundingNegotiator) : Prop := n.state = .ourTurn ∧ n.ourComplete = true

/-- What a call can do to the flags and the state. -/
inductive Outcome (n : DualFundingNegotiator) : Call → List Act → DualFundingNegotiator → Prop where
  | refused {call : Call} (other : call ≠ .peerComplete) : Outcome n call [] n
  | weAdd {call : Call} {n' : DualFundingNegotiator} (other : call ≠ .peerComplete) (turn : n.state = .ourTurn)
      (state : n'.state = .awaitingPeer) (ours : n'.ourComplete = false)
      (peers : n'.peerComplete = n.peerComplete) : Outcome n call [.weAdd] n'
  | weComplete {call : Call} {n' : DualFundingNegotiator} (other : call ≠ .peerComplete)
      (turn : n.state = .ourTurn) (state : n'.state = if n.peerComplete then .complete else .awaitingPeer)
      (ours : n'.ourComplete = true) (peers : n'.peerComplete = n.peerComplete) :
      Outcome n call [.weComplete] n'
  | peerAdds {call : Call} {n' : DualFundingNegotiator} (other : call ≠ .peerComplete)
      (waiting : n.state = .awaitingPeer) (state : n'.state = .ourTurn)
      (ours : n'.ourComplete = n.ourComplete) (peers : n'.peerComplete = false) :
      Outcome n call [.peerAdds] n'
  | peerCompletes {n' : DualFundingNegotiator} (state : n'.state = if n.ourComplete then .complete else .ourTurn)
      (ours : n'.ourComplete = n.ourComplete) (peers : n'.peerComplete = true) :
      Outcome n .peerComplete [.peerCompletes] n'

theorem apply_outcome (n : DualFundingNegotiator) (call : Call) : Outcome n call (call.apply n).1 (call.apply n).2 := by
  cases call with
  | addInput txid vout amount =>
    unfold Call.apply DualFundingNegotiator.addInput
    by_cases hturn : n.state = .ourTurn
    · simp only [hturn, ne_eq, not_true_eq_false, if_false]
      exact .weAdd (by simp) hturn rfl rfl rfl
    · simp only [hturn, ne_eq, not_false_eq_true, if_true]
      exact .refused (by simp)
  | addOutput amount script =>
    unfold Call.apply DualFundingNegotiator.addOutput
    by_cases hturn : n.state = .ourTurn
    · simp only [hturn, ne_eq, not_true_eq_false, if_false]
      exact .weAdd (by simp) hturn rfl rfl rfl
    · simp only [hturn, ne_eq, not_false_eq_true, if_true]
      exact .refused (by simp)
  | sendTxComplete =>
    unfold Call.apply DualFundingNegotiator.sendTxComplete
    by_cases hturn : n.state = .ourTurn
    · simp only [hturn, ne_eq, not_true_eq_false, if_false]
      exact .weComplete (by simp) hturn rfl rfl rfl
    · simp only [hturn, ne_eq, not_false_eq_true, if_true]
      exact .refused (by simp)
  | peerInput input =>
    unfold Call.apply handlePeerInput
    by_cases hwaiting : n.state = .awaitingPeer
    · by_cases hparity : decide (input.serialId % 2 = 1) = n.isInitiator
      · simp only [hwaiting, hparity, ne_eq, not_true_eq_false, if_false]
        exact .peerAdds (by simp) hwaiting rfl rfl rfl
      · simp only [hwaiting, hparity, ne_eq, not_true_eq_false, not_false_eq_true, if_false, if_true]
        exact .refused (by simp)
    · simp only [hwaiting, ne_eq, not_false_eq_true, if_true]
      exact .refused (by simp)
  | peerOutput output =>
    unfold Call.apply handlePeerOutput
    by_cases hwaiting : n.state = .awaitingPeer
    · simp only [hwaiting, ne_eq, not_true_eq_false, if_false]
      exact .peerAdds (by simp) hwaiting rfl rfl rfl
    · simp only [hwaiting, ne_eq, not_false_eq_true, if_true]
      exact .refused (by simp)
  | peerComplete => exact .peerCompletes rfl rfl rfl

theorem settledAfter_last (complete added : Act) (acts : List Act) :
    SettledAfter complete added (acts ++ [complete]) := ⟨acts, [], rfl, by simp, by simp⟩

theorem SettledAfter.append (h : SettledAfter complete added acts) (hcomplete : act ≠ complete) (hadded : act ≠ added) :
    SettledAfter complete added (acts ++ [act]) := by
  obtain ⟨before, after, rfl, hlast, hnone⟩ := h
  refine ⟨before, after ++ [act], by simp, ?_, ?_⟩
  · simpa [hlast] using hcomplete.symm
  · simpa [hnone] using hadded.symm

/-- What was added last was not agreed to. -/
theorem not_settledAfter_added (hne : added ≠ complete) (acts : List Act) :
    ¬ SettledAfter complete added (acts ++ [added]) := by
  rintro ⟨before, after, heq, -, hnone⟩
  rcases List.eq_nil_or_concat after with rfl | ⟨after, last, rfl⟩
  · exact hne (List.singleton_inj.mp (List.append_inj_right' heq rfl))
  · rw [List.concat_eq_append, ← List.cons_append, ← List.append_assoc] at heq
    have hlast := List.singleton_inj.mp (List.append_inj_right' heq rfl)
    exact hnone (by simp [hlast])

theorem not_settledAfter_append (h : ¬ SettledAfter complete added acts) (hne : act ≠ complete) :
    ¬ SettledAfter complete added (acts ++ [act]) := by
  rintro ⟨before, after, heq, hlast, hnone⟩
  rcases List.eq_nil_or_concat after with rfl | ⟨after, last, rfl⟩
  · exact hne (List.singleton_inj.mp (List.append_inj_right' heq rfl))
  · rw [List.concat_eq_append, ← List.cons_append, ← List.append_assoc] at heq
    refine h ⟨before, after, List.append_inj_left' heq rfl, ?_, ?_⟩
    · exact fun hmem => hlast (by simp [hmem])
    · exact fun hmem => hnone (by simp [hmem])

/-- What the flags and the state say about the acts so far. -/
structure Tracks (acts : List Act) (n : DualFundingNegotiator) : Prop where
  ours : n.ourComplete = true → n.state ≠ .ourTurn → SettledAfter .weComplete .peerAdds acts
  late : Stale n → ¬ SettledAfter .weComplete .peerAdds acts
  peers : n.peerComplete = true → n.state ≠ .awaitingPeer → SettledAfter .peerCompletes .weAdd acts
  done : n.state = .complete → n.ourComplete = true ∧ n.peerComplete = true

theorem Tracks.agreed (h : Tracks acts n) (hcomplete : n.state = .complete) : Agreed acts := by
  obtain ⟨hours, hpeers⟩ := h.done hcomplete
  exact ⟨h.ours hours (by simp [hcomplete]), h.peers hpeers (by simp [hcomplete])⟩

theorem tracks_new (channelId : Bytes32) (isInitiator : Bool) : Tracks [] (new channelId isInitiator) := by
  refine ⟨?_, ?_, ?_, ?_⟩
  · simp [new]
  · simp [new, Stale]
  · simp [new]
  · cases isInitiator <;> simp [new]

theorem Tracks.apply (h : Tracks acts n) (call : Call) (htimely : call = .peerComplete → ¬ Stale n) :
    Tracks (acts ++ (call.apply n).1) (call.apply n).2 := by
  have houtcome := apply_outcome n call
  revert houtcome
  generalize (call.apply n).1 = new
  generalize (call.apply n).2 = n'
  intro houtcome
  cases houtcome with
  | refused =>
    rw [List.append_nil]
    exact h
  | weAdd _ turn state ours peers =>
    refine ⟨?_, ?_, ?_, ?_⟩ <;> simp [state, ours, Stale]
  | weComplete _ turn state ours peers =>
    refine ⟨fun _ _ => settledAfter_last _ _ _, ?_, ?_, ?_⟩
    · rintro ⟨hturn, -⟩
      rw [state] at hturn
      split at hturn <;> cases hturn
    · intro hpeers _
      exact (h.peers (peers ▸ hpeers) (by simp [turn])).append (by decide) (by decide)
    · intro hcomplete
      rw [state] at hcomplete
      split at hcomplete
      next hpeers => exact ⟨ours, peers.trans hpeers⟩
      next => cases hcomplete
  | peerAdds _ waiting state ours peers =>
    refine ⟨?_, ?_, ?_, ?_⟩
    · exact fun _ hne => absurd state hne
    · exact fun _ => not_settledAfter_added (by decide) acts
    · simp [peers]
    · simp [state]
  | peerCompletes state ours peers =>
    refine ⟨?_, ?_, fun _ _ => settledAfter_last _ _ _, ?_⟩
    · intro hours _
      rw [ours] at hours
      have hturn : n.state ≠ .ourTurn := fun hturn => htimely rfl ⟨hturn, hours⟩
      exact (h.ours hours hturn).append (by decide) (by decide)
    · rintro ⟨hturn, hours⟩
      rw [state, ours.symm.trans hours] at hturn
      cases hturn
    · intro hcomplete
      rw [state] at hcomplete
      split at hcomplete
      next hours => exact ⟨ours.trans hours, peers⟩
      next => cases hcomplete

/-- The acts and the negotiator after the first `k` calls. -/
def reached (channelId : Bytes32) (isInitiator : Bool) (calls : List Call) (k : ℕ) :
    List Act × DualFundingNegotiator := runCalls [] (new channelId isInitiator) (calls.take k)

theorem runCalls_append (acts : List Act) (n : DualFundingNegotiator) (calls : List Call) (call : Call) :
    runCalls acts n (calls ++ [call]) =
      ((runCalls acts n calls).1 ++ (call.apply (runCalls acts n calls).2).1,
        (call.apply (runCalls acts n calls).2).2) := by
  induction calls generalizing acts n with
  | nil => rfl
  | cons c calls ih => exact ih _ _

variable {channelId : Bytes32} {isInitiator : Bool} {calls : List Call}

theorem reached_succ {call : Call} (hcall : calls[k]? = some call) : reached channelId isInitiator calls (k + 1) =
      ((reached channelId isInitiator calls k).1 ++ (call.apply (reached channelId isInitiator calls k).2).1,
        (call.apply (reached channelId isInitiator calls k).2).2) := by
  unfold reached
  rw [List.take_add_one, hcall]
  exact runCalls_append _ _ _ _

theorem reached_beyond (hnone : calls[k]? = none) :
    reached channelId isInitiator calls (k + 1) = reached channelId isInitiator calls k := by
  unfold reached
  rw [List.take_add_one, hnone]
  simp

theorem reached_tracks (htimely : ∀ j < k, calls[j]? = some .peerComplete →
    ¬ Stale (reached channelId isInitiator calls j).2) :
    Tracks (reached channelId isInitiator calls k).1 (reached channelId isInitiator calls k).2 := by
  induction k with
  | zero => exact tracks_new channelId isInitiator
  | succ k ih =>
    have hbefore := ih fun j hj => htimely j (by omega)
    cases hcall : calls[k]? with
    | none =>
      rw [reached_beyond hcall]
      exact hbefore
    | some call =>
      rw [reached_succ hcall]
      exact hbefore.apply call fun heq => htimely k (by omega) (heq ▸ hcall)

/-- A late `tx_complete` ends the negotiation without an agreement. -/
theorem late_complete
    (htracks : Tracks (reached channelId isInitiator calls k).1 (reached channelId isInitiator calls k).2)
    (hcall : calls[k]? = some .peerComplete) (hstale : Stale (reached channelId isInitiator calls k).2) :
    (reached channelId isInitiator calls (k + 1)).2.state = .complete ∧
      ¬ Agreed (reached channelId isInitiator calls (k + 1)).1 := by
  rw [reached_succ hcall]
  refine ⟨?_, fun hagreed => ?_⟩
  · show (if (reached channelId isInitiator calls k).2.ourComplete then _ else _) = InteractiveTxState.complete
    rw [if_pos hstale.2]
  · exact not_settledAfter_append (htracks.late hstale) (by decide) hagreed.1

/-- The negotiator completes only by agreement exactly when no late `tx_complete` is taken. -/
theorem agreed_iff_timely (channelId : Bytes32) (isInitiator : Bool) (calls : List Call) :
    (∀ k, (reached channelId isInitiator calls k).2.state = .complete →
        Agreed (reached channelId isInitiator calls k).1) ↔
      ∀ k, calls[k]? = some .peerComplete → ¬ Stale (reached channelId isInitiator calls k).2 := by
  constructor
  · intro hagreed k
    -- the first late message is the one that shows the failure
    induction k using Nat.strong_induction_on with
    | _ k ih =>
      intro hcall hstale
      obtain ⟨hcomplete, hnot⟩ := late_complete (reached_tracks ih) hcall hstale
      exact hnot (hagreed (k + 1) hcomplete)
  · intro htimely k
    exact (reached_tracks fun j _ => htimely j).agreed

end Runs

section Exchanges

inductive Message where
  | addInput (input : TxAddInput)
  | addOutput (output : TxAddOutput)
  | complete (msg : TxComplete)

inductive LocalCall where
  | addInput (prevtxTxid : Bytes32) (prevtxVout : UInt32) (amount : UInt64)
  | addOutput (amount : UInt64) (script : List UInt8)
  | sendTxComplete

/-- A local call returns the message for the peer. -/
def LocalCall.run (n : DualFundingNegotiator) : LocalCall → Except LightningError Message × DualFundingNegotiator
  | .addInput txid vout amount =>
      let r := n.addInput txid vout amount
      (r.1.map .addInput, r.2)
  | .addOutput amount script =>
      let r := n.addOutput amount script
      (r.1.map .addOutput, r.2)
  | .sendTxComplete =>
      let r := n.sendTxComplete
      (r.1.map .complete, r.2)

def Message.receive (n : DualFundingNegotiator) : Message → Except LightningError Unit × DualFundingNegotiator
  | .addInput input => n.handlePeerInput input
  | .addOutput output => n.handlePeerOutput output
  | .complete _ => n.handlePeerComplete

/-- The initiator is the party `true`. Each party has the messages on the way to it, in order. -/
structure Exchange where
  party : Bool → DualFundingNegotiator
  inbox : Bool → List Message

namespace Exchange

def start (channelId : Bytes32) : Exchange := ⟨new channelId, fun _ => []⟩

def call (e : Exchange) (who : Bool) (c : LocalCall) : Exchange :=
  match c.run (e.party who) with
  | (.ok msg, n) => ⟨Function.update e.party who n, Function.update e.inbox (!who) (e.inbox (!who) ++ [msg])⟩
  | (.error _, n) => { e with party := Function.update e.party who n }

def deliver (e : Exchange) (who : Bool) : Exchange :=
  match e.inbox who with
  | [] => e
  | msg :: rest =>
      ⟨Function.update e.party who (msg.receive (e.party who)).2, Function.update e.inbox who rest⟩

/-- The messages are delivered, and both try to complete. -/
def finishRound (e : Exchange) : Exchange :=
  (((e.deliver true).deliver false).call true .sendTxComplete).call false .sendTxComplete

end Exchange

/-- What two negotiators of a channel can come to by local calls and deliveries. -/
inductive Exchanged (channelId : Bytes32) : Exchange → Prop where
  | start : Exchanged channelId (.start channelId)
  | call {e : Exchange} (h : Exchanged channelId e) (who : Bool) (c : LocalCall) :
      Exchanged channelId (e.call who c)
  | deliver {e : Exchange} (h : Exchanged channelId e) (who : Bool) : Exchanged channelId (e.deliver who)

/-- Each one's own contributions are what the other one has from its peer. -/
structure Mirrored (x y : DualFundingNegotiator) : Prop where
  inputs : x.ourInputs = y.peerInputs
  outputs : x.ourOutputs = y.peerOutputs
  peerInputs : x.peerInputs = y.ourInputs
  peerOutputs : x.peerOutputs = y.ourOutputs

/-- A negotiator numbers its contributions by its role. -/
def Numbered (n : DualFundingNegotiator) : Prop := decide (n.nextSerial % 2 = 1) = !n.isInitiator

/-- Two parties with nothing on the way between them know the same. -/
structure Level (x y : DualFundingNegotiator) : Prop where
  mirrored : Mirrored x y
  ours : x.ourComplete = y.peerComplete
  peers : x.peerComplete = y.ourComplete
  roles : x.isInitiator = !y.isInitiator
  numbered : Numbered x
  numbered' : Numbered y

structure Turn (x y : DualFundingNegotiator) : Prop where
  level : Level x y
  mover : x.state = .ourTurn
  waiter : y.state = .awaitingPeer
  undecided : x.ourComplete = false ∨ x.peerComplete = false

structure Done (x y : DualFundingNegotiator) : Prop where
  level : Level x y
  first : x.state = .complete
  second : y.state = .complete

/-- The states of an exchange: someone's turn, one message on the way, or done. -/
inductive Phase (e : Exchange) : Prop where
  | turn (who : Bool) (quiet : ∀ w, e.inbox w = []) (h : Turn (e.party who) (e.party !who)) : Phase e
  | sent (who : Bool) (msg : Message) (pending : e.inbox who = [msg]) (other : e.inbox (!who) = [])
      (waiter : (e.party who).state = .awaitingPeer) (ok : (msg.receive (e.party who)).1 = .ok ())
      (h : Turn (msg.receive (e.party who)).2 (e.party !who) ∨ Done (msg.receive (e.party who)).2 (e.party !who)) :
      Phase e
  | done (quiet : ∀ w, e.inbox w = []) (h : Done (e.party true) (e.party false)) : Phase e

theorem Done.symm {x y : DualFundingNegotiator} (h : Done x y) : Done y x := by
  obtain ⟨⟨⟨hi, ho, hpi, hpo⟩, hours, hpeers, hroles, hx, hy⟩, hfirst, hsecond⟩ := h
  exact ⟨⟨⟨hpi.symm, hpo.symm, hi.symm, ho.symm⟩, hpeers.symm, hours.symm, by simp [hroles], hy, hx⟩,
    hsecond, hfirst⟩

theorem done_of_party {e : Exchange} (who : Bool) (h : Done (e.party who) (e.party !who)) :
    Done (e.party true) (e.party false) := by
  cases who with
  | true => exact h
  | false => exact h.symm

theorem run_refused {n : DualFundingNegotiator} (h : n.state ≠ .ourTurn) (c : LocalCall) :
    c.run n = (.error (.paymentFailed "not our turn"), n) := by
  cases c <;>
    simp [LocalCall.run, DualFundingNegotiator.addInput, DualFundingNegotiator.addOutput,
      DualFundingNegotiator.sendTxComplete, h, Except.map]

theorem call_refused {e : Exchange} {who : Bool} (h : (e.party who).state ≠ .ourTurn) (c : LocalCall) :
    e.call who c = e := by
  unfold Exchange.call
  rw [run_refused h]
  simp

theorem numbered_add {serial : UInt64} {initiator : Bool} (h : decide (serial % 2 = 1) = !initiator) :
    decide ((serial + 2) % 2 = 1) = !initiator := by
  rw [← h]
  congr 1
  simp only [← UInt64.toNat_inj, UInt64.toNat_mod, UInt64.toNat_add, UInt64.reduceToNat, eq_iff_iff]
  omega

theorem Turn.run {x y : DualFundingNegotiator} (h : Turn x y) (c : LocalCall) :
    ∃ msg, (c.run x).1 = .ok msg ∧ (msg.receive y).1 = .ok () ∧
      (Turn (msg.receive y).2 (c.run x).2 ∨ Done (msg.receive y).2 (c.run x).2) := by
  obtain ⟨⟨⟨hi, ho, hpi, hpo⟩, hours, hpeers, hroles, hx, hy⟩, hmover, hwaiter, hopen⟩ := h
  have hparity : decide (x.nextSerial % 2 = 1) = y.isInitiator := by
    rw [hx, hroles, Bool.not_not]
  cases c with
  | addInput txid vout amount =>
    refine ⟨.addInput ⟨x.channelId, x.nextSerial, txid, vout, amount, 0xfffffffd⟩, ?_, ?_, .inl ?_⟩
    · simp [LocalCall.run, DualFundingNegotiator.addInput, hmover, Except.map]
    · simp [Message.receive, handlePeerInput, hwaiter, hparity]
    · simp only [LocalCall.run, DualFundingNegotiator.addInput, Message.receive, handlePeerInput, hmover,
        hwaiter, hparity, ne_eq, not_true_eq_false, if_false]
      exact ⟨⟨⟨hpi.symm, hpo.symm, by rw [hi], ho.symm⟩, hpeers.symm, rfl, by simp [hroles], hy,
        numbered_add hx⟩, rfl, rfl, .inr rfl⟩
  | addOutput amount script =>
    refine ⟨.addOutput ⟨x.channelId, x.nextSerial, amount, script⟩, ?_, ?_, .inl ?_⟩
    · simp [LocalCall.run, DualFundingNegotiator.addOutput, hmover, Except.map]
    · simp [Message.receive, handlePeerOutput, hwaiter]
    · simp only [LocalCall.run, DualFundingNegotiator.addOutput, Message.receive, handlePeerOutput, hmover,
        hwaiter, ne_eq, not_true_eq_false, if_false]
      exact ⟨⟨⟨hpi.symm, hpo.symm, hi.symm, by rw [ho]⟩, hpeers.symm, rfl, by simp [hroles], hy,
        numbered_add hx⟩, rfl, rfl, .inr rfl⟩
  | sendTxComplete =>
    refine ⟨.complete ⟨x.channelId⟩, ?_, rfl, ?_⟩
    · simp [LocalCall.run, DualFundingNegotiator.sendTxComplete, hmover, Except.map]
    · simp only [LocalCall.run, DualFundingNegotiator.sendTxComplete, Message.receive, handlePeerComplete,
        hmover, ne_eq, not_true_eq_false, if_false]
      have hlevel : ∀ state state', Level { y with peerComplete := true, state := state }
          { x with ourComplete := true, state := state' } := fun _ _ =>
        ⟨⟨hpi.symm, hpo.symm, hi.symm, ho.symm⟩, hpeers.symm, rfl, by simp [hroles], hy, hx⟩
      by_cases hdecided : y.ourComplete = true
      · exact .inr ⟨hlevel _ _, if_pos hdecided, if_pos (hpeers.trans hdecided)⟩
      · have hundecided : x.peerComplete ≠ true := hpeers ▸ hdecided
        exact .inl ⟨hlevel _ _, if_neg hdecided, if_neg hundecided, .inl (by simpa using hdecided)⟩

theorem Turn.complete {x y : DualFundingNegotiator} (h : Turn x y) :
    ∃ msg : TxComplete, (LocalCall.sendTxComplete.run x).1 = .ok (.complete msg) ∧
      ((Message.complete msg).receive y).2.peerComplete = true ∧
      (x.peerComplete = true → Done ((Message.complete msg).receive y).2 (LocalCall.sendTxComplete.run x).2) := by
  obtain ⟨msg, hok, -, hnext⟩ := h.run .sendTxComplete
  have hmsg : msg = .complete ⟨x.channelId⟩ := by
    simpa [LocalCall.run, DualFundingNegotiator.sendTxComplete, h.mover, Except.map] using hok.symm
  subst hmsg
  refine ⟨⟨x.channelId⟩, hok, rfl, fun hpeers => ?_⟩
  rcases hnext with hturn | hdone
  · have hmover := hturn.mover
    have hours : y.ourComplete = true := h.level.peers.symm.trans hpeers
    simp [Message.receive, handlePeerComplete, hours] at hmover
  · exact hdone

theorem call_of_run {e : Exchange} {who : Bool} {c : LocalCall} {msg : Message}
    (hok : (c.run (e.party who)).1 = .ok msg) : e.call who c = ⟨Function.update e.party who (c.run (e.party who)).2,
      Function.update e.inbox (!who) (e.inbox (!who) ++ [msg])⟩ := by
  unfold Exchange.call
  rw [← Prod.mk.eta (p := c.run (e.party who)), hok]

theorem deliver_empty {e : Exchange} {who : Bool} (h : e.inbox who = []) : e.deliver who = e := by
  unfold Exchange.deliver
  rw [h]

theorem deliver_single {e : Exchange} {who : Bool} {msg : Message} (h : e.inbox who = [msg]) : e.deliver who =
      ⟨Function.update e.party who (msg.receive (e.party who)).2, Function.update e.inbox who []⟩ := by
  unfold Exchange.deliver
  rw [h]

theorem eq_or_eq_not (a b : Bool) : a = b ∨ a = !b := by
  cases a <;> cases b <;> simp

/-- A message that is sent in turn is on the way alone. -/
theorem Phase.sending {e : Exchange} {who : Bool} (quiet : ∀ w, e.inbox w = []) (h : Turn (e.party who) (e.party !who))
    (c : LocalCall) : Phase (e.call who c) := by
  obtain ⟨msg, hok, hreceive, hnext⟩ := h.run c
  rw [call_of_run hok]
  refine .sent (!who) msg ?_ ?_ ?_ ?_ ?_
  · simp [quiet]
  · simp [quiet]
  · simpa using h.waiter
  · simpa using hreceive
  · simpa using hnext

theorem Phase.received {e : Exchange} {who : Bool} {msg : Message} (pending : e.inbox who = [msg])
    (other : e.inbox (!who) = [])
    (h : Turn (msg.receive (e.party who)).2 (e.party !who) ∨ Done (msg.receive (e.party who)).2 (e.party !who)) :
    Phase (e.deliver who) ∧ ∀ w, (e.deliver who).inbox w = [] := by
  rw [deliver_single pending]
  have hquiet : ∀ w, Function.update e.inbox who [] w = [] := by
    intro w
    rcases eq_or_eq_not w who with rfl | rfl
    · simp
    · simp [other]
  refine ⟨?_, hquiet⟩
  rcases h with hturn | hdone
  · exact .turn who hquiet (by simpa using hturn)
  · exact .done hquiet (done_of_party who (by simpa using hdone))

theorem Phase.not_turn_of_pending {e : Exchange} {who : Bool} {x : DualFundingNegotiator}
    (waiter : (e.party who).state = .awaitingPeer) (h : Turn x (e.party !who) ∨ Done x (e.party !who)) (w : Bool) :
    (e.party w).state ≠ .ourTurn := by
  rcases eq_or_eq_not w who with rfl | rfl
  · simp [waiter]
  · rcases h with hturn | hdone
    · simp [hturn.waiter]
    · simp [hdone.second]

theorem Phase.call {e : Exchange} (h : Phase e) (who : Bool) (c : LocalCall) : Phase (e.call who c) := by
  cases h with
  | turn mover quiet h =>
    rcases eq_or_eq_not who mover with rfl | rfl
    · exact Phase.sending quiet h c
    · rw [call_refused (by simp [h.waiter])]
      exact .turn mover quiet h
  | sent reader msg pending other waiter ok h =>
    rw [call_refused (Phase.not_turn_of_pending waiter h who)]
    exact .sent reader msg pending other waiter ok h
  | done quiet h =>
    rw [call_refused]
    · exact .done quiet h
    · cases who with
      | true => simp [h.first]
      | false => simp [h.second]

theorem Phase.deliver {e : Exchange} (h : Phase e) (who : Bool) : Phase (e.deliver who) := by
  cases h with
  | turn mover quiet h =>
    rw [deliver_empty (quiet who)]
    exact .turn mover quiet h
  | sent reader msg pending other waiter ok h =>
    rcases eq_or_eq_not who reader with rfl | rfl
    · exact (Phase.received pending other h).1
    · rw [deliver_empty other]
      exact .sent reader msg pending other waiter ok h
  | done quiet h =>
    rw [deliver_empty (quiet who)]
    exact .done quiet h

theorem Exchanged.phase {channelId : Bytes32} {e : Exchange} (h : Exchanged channelId e) : Phase e := by
  induction h with
  | start =>
    have hlevel : Level (new channelId true) (new channelId false) :=
      ⟨⟨rfl, rfl, rfl, rfl⟩, rfl, rfl, rfl, by simp [Numbered, new], by simp [Numbered, new]⟩
    exact .turn true (fun _ => rfl) ⟨hlevel, rfl, rfl, .inl rfl⟩
  | call _ who c ih => exact ih.call who c
  | deliver _ who ih => exact ih.deliver who

/-- How many rounds are left: the last message is on the way, or one that leaves a party with the other's
`tx_complete` and the turn. -/
inductive Remaining (e : Exchange) : ℕ → Prop where
  | done (quiet : ∀ w, e.inbox w = []) (h : Done (e.party true) (e.party false)) : Remaining e 0
  | closing (who : Bool) (msg : Message) (pending : e.inbox who = [msg]) (other : e.inbox (!who) = [])
      (h : Done (msg.receive (e.party who)).2 (e.party !who)) : Remaining e 1
  | agreeing (who : Bool) (msg : Message) (pending : e.inbox who = [msg]) (other : e.inbox (!who) = [])
      (h : Turn (msg.receive (e.party who)).2 (e.party !who))
      (peers : (msg.receive (e.party who)).2.peerComplete = true) : Remaining e 2

theorem Turn.bothComplete {e : Exchange} {who : Bool} (quiet : ∀ w, e.inbox w = [])
    (h : Turn (e.party who) (e.party !who)) :
    ∃ k, Remaining ((e.call true .sendTxComplete).call false .sendTxComplete) k ∧ k ≤ 2 ∧
      ((e.party who).peerComplete = true → k = 1) := by
  have honly : (e.call true .sendTxComplete).call false .sendTxComplete = e.call who .sendTxComplete := by
    have hwaiter : (e.party !who).state ≠ .ourTurn := by simp [h.waiter]
    cases who with
    | true =>
      refine call_refused ?_ _
      obtain ⟨msg, hok, -⟩ := h.run .sendTxComplete
      rw [call_of_run hok]
      exact hwaiter
    | false => rw [show e.call true .sendTxComplete = e from call_refused hwaiter _]
  rw [honly]
  obtain ⟨msg, hok, hpeers, hlast⟩ := h.complete
  obtain ⟨msg', hok', -, hnext⟩ := h.run .sendTxComplete
  obtain rfl : msg' = .complete msg := Except.ok.inj (hok'.symm.trans hok)
  rw [call_of_run hok]
  by_cases hdecided : (e.party who).peerComplete = true
  · refine ⟨1, .closing (!who) (.complete msg) ?_ ?_ ?_, by omega, fun _ => rfl⟩
    · simp [quiet]
    · simp [quiet]
    · simpa using hlast hdecided
  · rcases hnext with hturn | hdone
    · refine ⟨2, .agreeing (!who) (.complete msg) ?_ ?_ ?_ ?_, by omega, fun h => absurd h hdecided⟩
      · simp [quiet]
      · simp [quiet]
      · simpa using hturn
      · simpa using hpeers
    · refine ⟨1, .closing (!who) (.complete msg) ?_ ?_ ?_, by omega, fun _ => rfl⟩
      · simp [quiet]
      · simp [quiet]
      · simpa using hdone

theorem Done.bothComplete {e : Exchange} (h : Done (e.party true) (e.party false)) :
    (e.call true .sendTxComplete).call false .sendTxComplete = e := by
  have hfirst : e.call true .sendTxComplete = e := call_refused (by simp [h.first]) _
  rw [hfirst, call_refused (by simp [h.second])]

theorem deliverBoth_quiet {e : Exchange} (quiet : ∀ w, e.inbox w = []) : (e.deliver true).deliver false = e := by
  rw [deliver_empty (quiet true), deliver_empty (quiet false)]

theorem deliverBoth_pending {e : Exchange} {who : Bool} {msg : Message} (pending : e.inbox who = [msg])
    (other : e.inbox (!who) = []) : (e.deliver true).deliver false = e.deliver who := by
  cases who with
  | true =>
    refine deliver_empty ?_
    rw [deliver_single pending]
    simpa using other
  | false => rw [show e.deliver true = e from deliver_empty other]

theorem Remaining.finishRound {e : Exchange} {k : ℕ} (h : Remaining e k) : Remaining e.finishRound (k - 1) := by
  unfold Exchange.finishRound
  cases h with
  | done quiet h =>
    rw [deliverBoth_quiet quiet, h.bothComplete]
    exact .done quiet h
  | closing who msg pending other h =>
    obtain ⟨-, hquiet⟩ := Phase.received pending other (.inr h)
    have hdone : Done ((e.deliver who).party true) ((e.deliver who).party false) := by
      rw [deliver_single pending]
      exact done_of_party who (by simpa using h)
    rw [deliverBoth_pending pending other, hdone.bothComplete]
    exact .done hquiet hdone
  | agreeing who msg pending other h peers =>
    obtain ⟨-, hquiet⟩ := Phase.received pending other (.inl h)
    have hturn : Turn ((e.deliver who).party who) ((e.deliver who).party !who) := by
      rw [deliver_single pending]
      simpa using h
    obtain ⟨k, hk, -, hlast⟩ := hturn.bothComplete hquiet
    rw [deliverBoth_pending pending other]
    rw [hlast (by simpa [deliver_single pending] using peers)] at hk
    exact hk

theorem Phase.finishRound {e : Exchange} (h : Phase e) : ∃ k ≤ 2, Remaining e.finishRound k := by
  unfold Exchange.finishRound
  cases h with
  | turn who quiet h =>
    rw [deliverBoth_quiet quiet]
    obtain ⟨k, hk, hle, -⟩ := h.bothComplete quiet
    exact ⟨k, hle, hk⟩
  | sent reader msg pending other waiter ok h =>
    rcases h with hturn | hdone
    · obtain ⟨-, hquiet⟩ := Phase.received pending other (.inl hturn)
      have hturn' : Turn ((e.deliver reader).party reader) ((e.deliver reader).party !reader) := by
        rw [deliver_single pending]
        simpa using hturn
      rw [deliverBoth_pending pending other]
      obtain ⟨k, hk, hle, -⟩ := hturn'.bothComplete hquiet
      exact ⟨k, hle, hk⟩
    · exact ⟨0, by omega, (Remaining.closing reader msg pending other hdone).finishRound⟩
  | done quiet h => exact ⟨0, by omega, (Remaining.done quiet h).finishRound⟩

theorem Phase.finishes {e : Exchange} (h : Phase e) : Done (e.finishRound.finishRound.finishRound.party true)
    (e.finishRound.finishRound.finishRound.party false) := by
  obtain ⟨k, hle, hk⟩ := h.finishRound
  have hlast := hk.finishRound.finishRound
  rw [show k - 1 - 1 = 0 by omega] at hlast
  cases hlast with
  | done _ h => exact h

theorem Phase.complete {e : Exchange} (h : Phase e) {who : Bool} (hcomplete : (e.party who).state = .complete)
    (hquiet : ∀ w, e.inbox w = []) : Done (e.party true) (e.party false) := by
  cases h with
  | turn mover quiet h =>
    rcases eq_or_eq_not who mover with rfl | rfl
    · rw [h.mover] at hcomplete
      cases hcomplete
    · rw [h.waiter] at hcomplete
      cases hcomplete
  | sent reader msg pending =>
    rw [hquiet reader] at pending
    cases pending
  | done _ h => exact h

theorem Phase.accepts {e : Exchange} (h : Phase e) {who : Bool} {msg : Message} {rest : List Message}
    (hmsg : e.inbox who = msg :: rest) : (msg.receive (e.party who)).1 = .ok () := by
  cases h with
  | turn _ quiet =>
    rw [quiet who] at hmsg
    cases hmsg
  | sent reader msg' pending other _ ok =>
    rcases eq_or_eq_not who reader with rfl | rfl
    · rw [pending] at hmsg
      cases hmsg
      exact ok
    · rw [other] at hmsg
      cases hmsg
  | done quiet =>
    rw [quiet who] at hmsg
    cases hmsg

end Exchanges

section Consent

/-- Both parties are complete and hold the same contributions. -/
def BothComplete (e : Exchange) : Prop :=
  (∀ who, (e.party who).isComplete = true) ∧ Mirrored (e.party true) (e.party false)

theorem Done.bothAre {e : Exchange} (h : Done (e.party true) (e.party false)) : BothComplete e := by
  refine ⟨fun who => ?_, h.level.mirrored⟩
  cases who with
  | true => simp [isComplete, h.first]
  | false => simp [isComplete, h.second]

/-- A negotiator completes only by agreement exactly in the runs without a late `tx_complete`. Two
negotiators that exchange their messages in order take all of them, complete only together, and
do complete once nobody adds anything. -/
theorem funding_needs_both_consents (channelId : Bytes32) (isInitiator : Bool) (calls : List Call) :
    ((∀ k, (reached channelId isInitiator calls k).2.isComplete = true →
          Agreed (reached channelId isInitiator calls k).1) ↔
        ∀ k, calls[k]? = some .peerComplete → ¬ Stale (reached channelId isInitiator calls k).2) ∧
    ∀ e, Exchanged channelId e →
      (∀ who msg rest, e.inbox who = msg :: rest → (msg.receive (e.party who)).1 = .ok ()) ∧
      (∀ who, (e.party who).isComplete = true → (∀ w, e.inbox w = []) → BothComplete e) ∧
      BothComplete e.finishRound.finishRound.finishRound := by
  refine ⟨?_, fun e he => ⟨?_, ?_, ?_⟩⟩
  · simpa [isComplete] using agreed_iff_timely channelId isInitiator calls
  · exact fun who msg rest hmsg => he.phase.accepts hmsg
  · intro who hcomplete hquiet
    exact (he.phase.complete (of_decide_eq_true hcomplete) hquiet).bothAre
  · exact he.phase.finishes.bothAre

/-- We agree, then the peer adds an input of its own and completes. -/
def lateInput : List Call :=
  [.sendTxComplete, .peerInput ⟨Bytes32.zero, 1, Bytes32.zero, 0, 50000, 0xfffffffd⟩, .peerComplete]

theorem late_input_slips_in : (reached Bytes32.zero true lateInput 3).2.isComplete = true ∧
    (reached Bytes32.zero true lateInput 3).2.peerInputs.length = 1 ∧
    ¬ Agreed (reached Bytes32.zero true lateInput 3).1 := by
  refine ⟨by decide, by decide, fun hagreed => ?_⟩
  have hacts : (reached Bytes32.zero true lateInput 3).1 = [.weComplete, .peerAdds] ++ [.peerCompletes] := by
    decide
  rw [hacts] at hagreed
  exact not_settledAfter_append (not_settledAfter_added (by decide) [.weComplete]) (by decide) hagreed.1

end Consent

end KuberCoin.FundingNegotiations
