import KuberCoin.ChannelManagers

/-!
The messages of a channel's HTLCs (`ChannelManager::add_htlc`, `fulfill_htlc` and `fail_htlc`), and
a peer that replays them. An HTLC gets the length of the queue for its id, and the two messages
that remove one always name the id 0. The peer keeps up exactly as long as each id is free, each
removal is of the HTLC with the id 0, no amount is rounded, and every record is saved.
-/
namespace KuberCoin.HtlcMirrors

open Bytes Transactions Maps Channels ChannelManagers Sha256

section Calls

/-- The three calls, with their arguments. -/
inductive HtlcCall where
  | add (id paymentHash : Bytes32) (amountMsat : UInt64) (cltvExpiry : UInt32)
  | fulfill (id paymentHash preimage : Bytes32)
  | fail (id paymentHash : Bytes32) (reason : List UInt8)

inductive WireMsg where
  | add (msg : UpdateAddHtlcMsg)
  | fulfill (msg : UpdateFulfillHtlcMsg)
  | fail (msg : UpdateFailHtlcMsg)

def HtlcCall.channel : HtlcCall → Bytes32
  | .add id .. | .fulfill id .. | .fail id .. => id

def WireMsg.channelId : WireMsg → Bytes32
  | .add msg => msg.channelId
  | .fulfill msg => msg.channelId
  | .fail msg => msg.channelId

variable (sha256 : Sha256)

def HtlcCall.apply (m : ChannelManager) (env : Surroundings) :
    HtlcCall → Except LightningError WireMsg × ChannelManager
  | .add id paymentHash amountMsat cltvExpiry =>
      let r := m.addHtlc env id paymentHash amountMsat cltvExpiry
      (r.1.map .add, r.2)
  | .fulfill id paymentHash preimage =>
      let r := m.fulfillHtlc sha256 env id paymentHash preimage
      (r.1.map .fulfill, r.2)
  | .fail id paymentHash reason =>
      let r := m.failHtlc env id paymentHash reason
      (r.1.map .fail, r.2)

end Calls

section Peers

/-- The HTLCs that a peer holds, as they were announced to it. -/
abbrev Peer := List UpdateAddHtlcMsg

def Peer.knows (peer : Peer) (htlcId : UInt64) : Bool := peer.any fun e => e.htlcId = htlcId

/-- An announced HTLC is inserted under its id, `none` if the id is in use. -/
def Peer.insert (peer : Peer) (msg : UpdateAddHtlcMsg) : Option Peer :=
  if peer.knows msg.htlcId then none else some (peer ++ [msg])

/-- The HTLC with the id is removed, `none` if the id is unknown. -/
def Peer.remove (peer : Peer) (htlcId : UInt64) : Option Peer :=
  if peer.knows htlcId then some (peer.filter fun e => e.htlcId ≠ htlcId) else none

def Peer.receive (peer : Peer) : WireMsg → Option Peer
  | .add msg => peer.insert msg
  | .fulfill msg => peer.remove msg.htlcId
  | .fail msg => peer.remove msg.htlcId

/-- What the messages say of an HTLC: its amount, its payment hash and its expiry. -/
def told (msg : UpdateAddHtlcMsg) : ℕ × Bytes32 × UInt32 :=
  (msg.amountMsat.toNat, msg.paymentHash, msg.cltvExpiry)

def owed (h : Htlc) : ℕ × Bytes32 × UInt32 := (1000 * h.amount.toNat, h.paymentHash, h.expiry)

/-- The peer holds exactly the pending HTLCs of the channel. -/
def Mirrors (peer : Peer) (c : Channel) : Prop :=
  (peer.map told).Perm (c.pendingHtlcs.map owed)

instance (peer : Peer) (c : Channel) : Decidable (Mirrors peer c) :=
  inferInstanceAs (Decidable (List.Perm _ _))

/-- The peer of the channel `id` mirrors it before and after every call, and can replay every
message of that channel. -/
def AlwaysMirrors (sha256 : Sha256) (id : Bytes32) :
    ChannelManager → Peer → List (Surroundings × HtlcCall) → Prop
  | m, peer, [] => ∀ c ∈ m.channels.lookup id, Mirrors peer c
  | m, peer, call :: rest =>
      (∀ c ∈ m.channels.lookup id, Mirrors peer c) ∧
        match (call.2.apply sha256 m call.1).1 with
        | .error _ => AlwaysMirrors sha256 id (call.2.apply sha256 m call.1).2 peer rest
        | .ok msg =>
            if msg.channelId = id then
              ∃ peer' ∈ peer.receive msg,
                AlwaysMirrors sha256 id (call.2.apply sha256 m call.1).2 peer' rest
            else AlwaysMirrors sha256 id (call.2.apply sha256 m call.1).2 peer rest

/-- The HTLC that `add_htlc` makes. -/
def newHtlc (c : Channel) (paymentHash : Bytes32) (amountMsat : UInt64) (cltvExpiry : UInt32) : Htlc :=
  Htlc.newOutgoing (UInt64.ofNat c.pendingHtlcs.length) paymentHash (amountMsat / 1000) cltvExpiry

/-- The call leaves a peer that mirrors the channel in step with it. A call that the channel refuses
always does. One that adds an HTLC does if the amount is in whole satoshis, the length of the queue is
no id of a pending HTLC and the record is saved; one that removes an HTLC if that one has the
id 0 and the record is saved. -/
def HtlcCall.InStep (sha256 : Sha256) (env : Surroundings) (c : Channel) : HtlcCall → Prop
  | .add _ paymentHash amountMsat cltvExpiry =>
      c.canAddHtlc (amountMsat / 1000) = true →
        amountMsat.toNat % 1000 = 0 ∧
        (∀ h ∈ c.pendingHtlcs, h.id ≠ UInt64.ofNat c.pendingHtlcs.length) ∧
        env.saved (c.addHtlc (newHtlc c paymentHash amountMsat cltvExpiry)).2 = true
  | .fulfill _ paymentHash preimage =>
      ∀ r ∈ Channel.takeHtlc paymentHash c.pendingHtlcs, r.1.verifyPreimage sha256 preimage = true →
        r.1.id = 0 ∧ env.saved (c.fulfillHtlc sha256 paymentHash preimage).2 = true
  | .fail _ paymentHash _ =>
      ∀ r ∈ Channel.takeHtlc paymentHash c.pendingHtlcs,
        r.1.id = 0 ∧ env.saved (c.failHtlc paymentHash).2 = true

/-- Every call on the channel `id` is in step, in the state in which it comes. -/
def AlwaysInStep (sha256 : Sha256) (id : Bytes32) :
    ChannelManager → List (Surroundings × HtlcCall) → Prop
  | _, [] => True
  | m, call :: rest =>
      (call.2.channel = id → ∀ c ∈ m.channels.lookup id, call.2.InStep sha256 call.1 c) ∧
        AlwaysInStep sha256 id (call.2.apply sha256 m call.1).2 rest

end Peers

section Deliveries

variable {sha256 : Sha256} {m : ChannelManager} {env : Surroundings} {c c' : Channel} {call : HtlcCall}
  {id : Bytes32} {α : Type}

/-- What a call does to its channel, with the message that it returns. -/
inductive Delivery (sha256 : Sha256) (env : Surroundings) (c : Channel) :
    HtlcCall → Option WireMsg → Channel → Prop where
  | refused (call : HtlcCall) (hstep : call.InStep sha256 env c) : Delivery sha256 env c call none c
  | added (id paymentHash : Bytes32) (amountMsat : UInt64) (cltvExpiry : UInt32)
      (hcan : c.canAddHtlc (amountMsat / 1000) = true) (c' : Channel)
      (hc' : c'.pendingHtlcs = c.pendingHtlcs ++ [newHtlc c paymentHash amountMsat cltvExpiry])
      (hstep : (HtlcCall.add id paymentHash amountMsat cltvExpiry).InStep sha256 env c ↔
        amountMsat.toNat % 1000 = 0 ∧
          (∀ h ∈ c.pendingHtlcs, h.id ≠ UInt64.ofNat c.pendingHtlcs.length) ∧
          env.saved c' = true) :
      Delivery sha256 env c (.add id paymentHash amountMsat cltvExpiry)
        (if env.saved c' then
          some (.add ⟨id, UInt64.ofNat c.pendingHtlcs.length, amountMsat, paymentHash, cltvExpiry, []⟩)
        else none) c'
  | removed (call : HtlcCall) (paymentHash : Bytes32) (h : Htlc) (rest : List Htlc)
      (htake : Channel.takeHtlc paymentHash c.pendingHtlcs = some (h, rest)) (c' : Channel)
      (hc' : c'.pendingHtlcs = rest) (msg : WireMsg) (hmsg : ∀ peer : Peer, peer.receive msg = peer.remove 0)
      (hstep : call.InStep sha256 env c ↔ h.id = 0 ∧ env.saved c' = true) :
      Delivery sha256 env c call (if env.saved c' then some msg else none) c'

theorem lookup_putChannel (m : ChannelManager) (id : Bytes32) (c : Channel) :
    (m.putChannel id c).channels.lookup id = some c := by
  rw [ChannelManager.putChannel, lookup_insert_eq, if_pos rfl]

/-- A message is returned when the channel does its part and the record is saved. -/
theorem onChannel_delivery {f : Channel → Except LightningError α × Channel} (wrap : α → WireMsg)
    (hlook : m.channels.lookup id = some c) (hf : Delivery sha256 env c call
      ((f c).1.toOption.bind fun a => if env.saved (f c).2 then some (wrap a) else none) (f c).2) :
    ∃ c', (m.onChannel env id f).2.channels.lookup id = some c' ∧
      Delivery sha256 env c call ((m.onChannel env id f).1.map wrap).toOption c' := by
  refine ⟨(f c).2, ?_, ?_⟩
  · rw [onChannel_snd, hlook]
    exact lookup_putChannel m id (f c).2
  · have hresult : ((m.onChannel env id f).1.map wrap).toOption =
        (f c).1.toOption.bind fun a => if env.saved (f c).2 then some (wrap a) else none := by
      unfold ChannelManager.onChannel
      rw [hlook]
      simp only
      cases (f c).1 with
      | error e => rfl
      | ok a => cases env.saved (f c).2 <;> rfl
    rw [hresult]
    exact hf

theorem add_delivery (hlook : m.channels.lookup id = some c) (paymentHash : Bytes32) (amountMsat : UInt64)
    (cltvExpiry : UInt32) : ∃ c', (m.addHtlc env id paymentHash amountMsat cltvExpiry).2.channels.lookup id = some c' ∧
      Delivery sha256 env c (.add id paymentHash amountMsat cltvExpiry)
        ((m.addHtlc env id paymentHash amountMsat cltvExpiry).1.map .add).toOption c' := by
  refine onChannel_delivery .add hlook ?_
  show Delivery sha256 env c _
    (((c.addHtlc (newHtlc c paymentHash amountMsat cltvExpiry)).1.map _).toOption.bind fun a =>
      if env.saved (c.addHtlc (newHtlc c paymentHash amountMsat cltvExpiry)).2 then some (.add a)
      else none)
    (c.addHtlc (newHtlc c paymentHash amountMsat cltvExpiry)).2
  by_cases hcan : c.canAddHtlc (amountMsat / 1000) = true
  · have hok := @addHtlc_of_can c (newHtlc c paymentHash amountMsat cltvExpiry) hcan
    have hstep : (HtlcCall.add id paymentHash amountMsat cltvExpiry).InStep sha256 env c ↔
        amountMsat.toNat % 1000 = 0 ∧
          (∀ h ∈ c.pendingHtlcs, h.id ≠ UInt64.ofNat c.pendingHtlcs.length) ∧
          env.saved (c.addHtlc (newHtlc c paymentHash amountMsat cltvExpiry)).2 = true :=
      ⟨fun h => h hcan, fun h _ => h⟩
    rw [hok] at hstep ⊢
    exact .added id paymentHash amountMsat cltvExpiry hcan _ rfl hstep
  · have hrefused : c.addHtlc (newHtlc c paymentHash amountMsat cltvExpiry) =
        (.error .insufficientBalance, c) := if_pos hcan
    rw [hrefused]
    exact .refused _ fun h => absurd h hcan

theorem fulfill_delivery (hlook : m.channels.lookup id = some c) (paymentHash preimage : Bytes32) :
    ∃ c', (m.fulfillHtlc sha256 env id paymentHash preimage).2.channels.lookup id = some c' ∧
      Delivery sha256 env c (.fulfill id paymentHash preimage)
        ((m.fulfillHtlc sha256 env id paymentHash preimage).1.map .fulfill).toOption c' := by
  refine onChannel_delivery .fulfill hlook ?_
  show Delivery sha256 env c _
    (((c.fulfillHtlc sha256 paymentHash preimage).1.map _).toOption.bind fun a =>
      if env.saved (c.fulfillHtlc sha256 paymentHash preimage).2 then some (.fulfill a) else none)
    (c.fulfillHtlc sha256 paymentHash preimage).2
  cases htake : Channel.takeHtlc paymentHash c.pendingHtlcs with
  | none =>
    have hrefused : c.fulfillHtlc sha256 paymentHash preimage =
        (.error (.invalidHtlc "HTLC not found"), c) := by
      rw [Channel.fulfillHtlc, htake]
    rw [hrefused]
    exact .refused _ fun r hr => by simp [htake] at hr
  | some r =>
    obtain ⟨h, rest⟩ := r
    by_cases hpre : h.verifyPreimage sha256 preimage = true
    · have hok : c.fulfillHtlc sha256 paymentHash preimage =
          (.ok h.amount, { c with
            pendingHtlcs := rest
            remoteBalance := saturatingAdd c.remoteBalance h.amount
            commitmentNumber := c.nextCommitment }) := by
        rw [Channel.fulfillHtlc, htake]
        exact if_neg (not_not.mpr hpre)
      have hstep : (HtlcCall.fulfill id paymentHash preimage).InStep sha256 env c ↔
          h.id = 0 ∧ env.saved (c.fulfillHtlc sha256 paymentHash preimage).2 = true := by
        simp [HtlcCall.InStep, htake, hpre]
      rw [hok] at hstep ⊢
      exact .removed _ paymentHash h rest htake _ rfl _ (fun _ => rfl) hstep
    · have hrefused : c.fulfillHtlc sha256 paymentHash preimage = (.error .invalidPreimage, c) := by
        rw [Channel.fulfillHtlc, htake]
        exact if_pos hpre
      rw [hrefused]
      refine .refused _ ?_
      intro r hr hr'
      rw [htake] at hr
      rw [← Option.some.inj hr] at hr'
      exact absurd hr' hpre

theorem fail_delivery (hlook : m.channels.lookup id = some c) (paymentHash : Bytes32) (reason : List UInt8) :
    ∃ c', (m.failHtlc env id paymentHash reason).2.channels.lookup id = some c' ∧
      Delivery sha256 env c (.fail id paymentHash reason)
        ((m.failHtlc env id paymentHash reason).1.map .fail).toOption c' := by
  refine onChannel_delivery .fail hlook ?_
  show Delivery sha256 env c _
    (((c.failHtlc paymentHash).1.map _).toOption.bind fun a =>
      if env.saved (c.failHtlc paymentHash).2 then some (.fail a) else none)
    (c.failHtlc paymentHash).2
  cases htake : Channel.takeHtlc paymentHash c.pendingHtlcs with
  | none =>
    have hrefused : c.failHtlc paymentHash = (.error (.invalidHtlc "HTLC not found"), c) := by
      rw [Channel.failHtlc, htake]
    rw [hrefused]
    exact .refused _ fun r hr => by simp [htake] at hr
  | some r =>
    obtain ⟨h, rest⟩ := r
    have hok : c.failHtlc paymentHash =
        (.ok h.amount, { c with
          pendingHtlcs := rest
          localBalance := saturatingAdd c.localBalance h.amount
          commitmentNumber := c.nextCommitment }) := by
      rw [Channel.failHtlc, htake]
    have hstep : (HtlcCall.fail id paymentHash reason).InStep sha256 env c ↔
        h.id = 0 ∧ env.saved (c.failHtlc paymentHash).2 = true := by
      simp [HtlcCall.InStep, htake]
    rw [hok] at hstep ⊢
    exact .removed _ paymentHash h rest htake _ rfl _ (fun _ => rfl) hstep

theorem apply_delivery (hlook : m.channels.lookup call.channel = some c) :
    ∃ c', (call.apply sha256 m env).2.channels.lookup call.channel = some c' ∧
      Delivery sha256 env c call (call.apply sha256 m env).1.toOption c' := by
  cases call with
  | add id paymentHash amountMsat cltvExpiry => exact add_delivery hlook paymentHash amountMsat cltvExpiry
  | fulfill id paymentHash preimage => exact fulfill_delivery hlook paymentHash preimage
  | fail id paymentHash reason => exact fail_delivery hlook paymentHash reason

theorem onChannel_other {f : Channel → Except LightningError α × Channel} {id' : Bytes32} (hid : id' ≠ id) :
    (m.onChannel env id f).2.channels.lookup id' = m.channels.lookup id' := by
  rw [onChannel_snd]
  cases m.channels.lookup id with
  | none => rfl
  | some c => exact (lookup_insert_eq _ _ _ _).trans (if_neg hid)

theorem apply_other (hid : id ≠ call.channel) :
    (call.apply sha256 m env).2.channels.lookup id = m.channels.lookup id := by
  cases call with
  | add | fulfill | fail => exact onChannel_other hid

theorem onChannel_ok {f : Channel → Except LightningError α × Channel} {a : α} (h : (m.onChannel env id f).1 = .ok a) :
    ∃ c, (f c).1 = .ok a := by
  unfold ChannelManager.onChannel at h
  split at h
  · cases h
  · rename_i c _
    refine ⟨c, ?_⟩
    simp only at h
    split at h
    · cases h
    · rename_i b hb
      split at h
      · rw [hb]
        exact h
      · cases h

theorem map_eq_ok {β : Type} {f : α → β} {r : Except LightningError α} {b : β} (h : r.map f = .ok b) :
    ∃ a, r = .ok a ∧ f a = b := by
  cases r with
  | error e => cases h
  | ok a => exact ⟨a, rfl, Except.ok.inj h⟩

theorem apply_channelId {msg : WireMsg} (h : (call.apply sha256 m env).1 = .ok msg) : msg.channelId = call.channel := by
  cases call with
  | add | fulfill | fail =>
    obtain ⟨a, hr, rfl⟩ := map_eq_ok h
    obtain ⟨c, hc⟩ := onChannel_ok hr
    obtain ⟨_, -, rfl⟩ := map_eq_ok hc
    rfl

end Deliveries

section Mirroring

variable {sha256 : Sha256} {m : ChannelManager} {env : Surroundings} {c c' : Channel} {call : HtlcCall}
  {id : Bytes32} {peer : Peer} {msg : Option WireMsg} {pending : List Htlc}

/-- The peer after a call: it replays the message, if there is one. -/
def Peer.follow (peer : Peer) : Option WireMsg → Option Peer
  | none => some peer
  | some msg => peer.receive msg

/-- A peer that is in step: it holds the pending HTLCs in their order and under their ids, the ids
are distinct, and only the oldest HTLC can have the id 0. -/
structure Tied (peer : Peer) (pending : List Htlc) : Prop where
  same : peer.map (fun e => (e.htlcId, told e)) = pending.map fun h => (h.id, owed h)
  distinct : (pending.map Htlc.id).Nodup
  oldest : ∀ h ∈ pending.tail, h.id ≠ 0

theorem Tied.nil : Tied [] [] := ⟨rfl, List.nodup_nil, by simp⟩

theorem Tied.mirrors (ht : Tied peer pending) : peer.map told = pending.map owed := by
  have := congrArg (List.map Prod.snd) ht.same
  rwa [List.map_map, List.map_map] at this

theorem Tied.ids (ht : Tied peer pending) : peer.map UpdateAddHtlcMsg.htlcId = pending.map Htlc.id := by
  have := congrArg (List.map Prod.fst) ht.same
  rwa [List.map_map, List.map_map] at this

theorem knows_iff (peer : Peer) (htlcId : UInt64) :
    peer.knows htlcId = true ↔ htlcId ∈ peer.map UpdateAddHtlcMsg.htlcId := by
  simp only [Peer.knows, List.any_eq_true, decide_eq_true_eq, List.mem_map]

theorem newHtlc_owed_iff (c : Channel) (paymentHash : Bytes32) (amountMsat : UInt64) (cltvExpiry : UInt32) :
    (amountMsat.toNat, paymentHash, cltvExpiry) =
        owed (newHtlc c paymentHash amountMsat cltvExpiry) ↔ amountMsat.toNat % 1000 = 0 := by
  have hdiv : (amountMsat / 1000).toNat = amountMsat.toNat / 1000 := UInt64.toNat_div _ _
  simp only [owed, newHtlc, Htlc.newOutgoing, hdiv, Prod.mk.injEq, and_true]
  omega

/-- The length of a queue with room fits in `u64`, so it is 0 only for the empty queue. -/
theorem ofNat_length_ne_zero (hcan : c.canAddHtlc amount = true) (hne : c.pendingHtlcs ≠ []) :
    UInt64.ofNat c.pendingHtlcs.length ≠ 0 := by
  have hroom := (@canAddHtlc_spec c (Htlc.newOutgoing 0 Bytes32.zero amount 0) hcan).1
  have hsmall := c.config.maxHtlcCount.toNat_lt
  have hpos := List.length_pos_iff.mpr hne
  intro hzero
  have := congrArg UInt64.toNat hzero
  rw [UInt64.toNat_ofNat_of_lt' (by show _ < 2 ^ 64; omega)] at this
  have hz : (0 : UInt64).toNat = 0 := rfl
  omega

theorem Tied.head {pending : List Htlc} (ht : Tied peer pending) (hmem : (0 : UInt64) ∈ pending.map Htlc.id) :
    ∃ h tail, pending = h :: tail ∧ h.id = 0 := by
  obtain ⟨h, hh, hid⟩ := List.mem_map.mp hmem
  cases pending with
  | nil => cases hh
  | cons x tail =>
    rcases List.mem_cons.mp hh with rfl | hh
    · exact ⟨h, tail, rfl, hid⟩
    · exact absurd hid (ht.oldest h hh)

theorem Tied.remove {h : Htlc} {tail : List Htlc} (ht : Tied peer (h :: tail)) (hid : h.id = 0) :
    ∃ peer', peer.remove 0 = some peer' ∧ Tied peer' tail := by
  have hids := ht.ids
  have hsame := ht.same
  obtain ⟨e, peer', rfl⟩ : ∃ e peer', peer = e :: peer' := by
    cases peer with
    | nil => cases hsame
    | cons e peer' => exact ⟨e, peer', rfl⟩
  simp only [List.map_cons, List.cons.injEq] at hids hsame
  have hknown : Peer.knows (e :: peer') 0 = true := by
    rw [knows_iff, List.map_cons, hids.1, hid]
    exact .head _
  refine ⟨peer', ?_, hsame.2, (List.nodup_cons.mp ht.distinct).2, ?_⟩
  · rw [Peer.remove, if_pos hknown, List.filter_cons_of_neg (by simp [hids.1, hid])]
    congr 1
    apply List.filter_eq_self.mpr
    intro x hx
    have hmem : x.htlcId ∈ tail.map Htlc.id := by
      rw [← hids.2]
      exact List.mem_map_of_mem hx
    obtain ⟨y, hy, hxy⟩ := List.mem_map.mp hmem
    rw [← hxy]
    simpa using ht.oldest y hy
  · intro x hx
    exact ht.oldest x (List.mem_of_mem_tail hx)

theorem Tied.follow (ht : Tied peer c.pendingHtlcs) (hd : Delivery sha256 env c call msg c')
    (hstep : call.InStep sha256 env c) : ∃ peer', peer.follow msg = some peer' ∧ Tied peer' c'.pendingHtlcs := by
  cases hd with
  | refused => exact ⟨peer, rfl, ht⟩
  | added id paymentHash amountMsat cltvExpiry hcan c' hc' hiff =>
    obtain ⟨hwhole, hfree, hsaved⟩ := hiff.mp hstep
    have hunknown : ¬ peer.knows (UInt64.ofNat c.pendingHtlcs.length) = true := by
      rw [knows_iff, ht.ids]
      intro hmem
      obtain ⟨h, hh, hid⟩ := List.mem_map.mp hmem
      exact hfree h hh hid
    rw [if_pos hsaved]
    refine ⟨_, if_neg hunknown, ?_, ?_, ?_⟩
    · have howed := (newHtlc_owed_iff c paymentHash amountMsat cltvExpiry).mpr hwhole
      rw [hc', List.map_append, List.map_append, ht.same, List.map_singleton, List.map_singleton,
        told, howed]
      rfl
    · rw [hc', List.map_append]
      refine List.nodup_append.mpr ⟨ht.distinct, by simp, ?_⟩
      intro x hx y hy hxy
      obtain ⟨h, hh, rfl⟩ := List.mem_map.mp hx
      rw [List.map_singleton, List.mem_singleton] at hy
      exact hfree h hh (hxy.trans hy)
    · rw [hc']
      intro h hh
      by_cases hempty : c.pendingHtlcs = []
      · rw [hempty] at hh
        cases hh
      · rw [List.tail_append_of_ne_nil hempty] at hh
        rcases List.mem_append.mp hh with hh | hh
        · exact ht.oldest h hh
        · rw [List.mem_singleton.mp hh]
          exact ofNat_length_ne_zero hcan hempty
  | removed _ paymentHash h rest htake c' hc' msg hmsg hiff =>
    obtain ⟨hid, hsaved⟩ := hiff.mp hstep
    obtain ⟨before, after, hpending, hrest, -, -⟩ := takeHtlc_eq_some htake
    rw [if_pos hsaved]
    have hmem : (0 : UInt64) ∈ c.pendingHtlcs.map Htlc.id := by
      rw [hpending, ← hid]
      exact List.mem_map_of_mem (by simp)
    obtain ⟨h', tail, hhead, hid'⟩ := ht.head hmem
    -- the HTLC that was taken is the oldest, since the ids are distinct
    have hbefore : before = [] := by
      cases before with
      | nil => rfl
      | cons x before' =>
        rw [hpending] at ht
        exact absurd hid (ht.oldest h (by simp))
    subst hbefore
    rw [hpending] at ht
    obtain ⟨peer', hremove, ht'⟩ := Tied.remove ht hid
    refine ⟨peer', (hmsg peer).trans hremove, ?_⟩
    rw [hc', hrest]
    exact ht'

theorem Tied.inStep (ht : Tied peer c.pendingHtlcs) (hd : Delivery sha256 env c call msg c') {peer' : Peer}
    (hfollow : peer.follow msg = some peer') (hmirror : Mirrors peer' c') : call.InStep sha256 env c := by
  have hlen : peer.length = c.pendingHtlcs.length := by
    have := congrArg List.length ht.same
    simpa using this
  have hlen' := hmirror.length_eq
  rw [List.length_map, List.length_map] at hlen'
  cases hd with
  | refused _ hstep => exact hstep
  | added id paymentHash amountMsat cltvExpiry hcan c' hc' hiff =>
    have hsaved : env.saved c' = true := by
      by_contra hnot
      rw [if_neg hnot] at hfollow
      rw [← Option.some.inj hfollow, hc', List.length_append, List.length_singleton] at hlen'
      omega
    rw [if_pos hsaved] at hfollow
    have hunknown : ¬ peer.knows (UInt64.ofNat c.pendingHtlcs.length) = true := by
      intro hknown
      rw [Peer.follow, Peer.receive, Peer.insert, if_pos hknown] at hfollow
      cases hfollow
    rw [Peer.follow, Peer.receive, Peer.insert, if_neg hunknown] at hfollow
    refine hiff.mpr ⟨?_, ?_, hsaved⟩
    · unfold Mirrors at hmirror
      rw [← Option.some.inj hfollow, hc', List.map_append, List.map_append, ht.mirrors] at hmirror
      have hlast := (List.perm_append_left_iff _).mp hmirror
      rw [List.map_singleton, List.map_singleton] at hlast
      exact (newHtlc_owed_iff c paymentHash amountMsat cltvExpiry).mp
        (List.singleton_perm_singleton.mp hlast)
    · intro h hh hid
      apply hunknown
      rw [knows_iff, ht.ids, ← hid]
      exact List.mem_map_of_mem hh
  | removed _ paymentHash h rest htake c' hc' msg hmsg hiff =>
    obtain ⟨before, after, hpending, hrest, hhash, hothers⟩ := takeHtlc_eq_some htake
    have hsaved : env.saved c' = true := by
      by_contra hnot
      rw [if_neg hnot] at hfollow
      rw [← Option.some.inj hfollow, hc', hrest, hlen, hpending] at hlen'
      simp at hlen'
    rw [if_pos hsaved, Peer.follow, hmsg] at hfollow
    refine hiff.mpr ⟨?_, hsaved⟩
    have hmem : (0 : UInt64) ∈ c.pendingHtlcs.map Htlc.id := by
      rw [← ht.ids, ← knows_iff]
      by_contra hnot
      rw [Peer.remove, if_neg hnot] at hfollow
      cases hfollow
    obtain ⟨h₀, tail, hhead, hid⟩ := ht.head hmem
    cases before with
    | nil =>
      rw [hhead, List.nil_append] at hpending
      rw [← (List.cons.inj hpending).1]
      exact hid
    | cons x before' =>
      -- the peer lost the oldest HTLC, and the channel one with another hash
      rw [hhead, List.cons_append] at hpending
      obtain ⟨rfl, rfl⟩ := List.cons.inj hpending
      rw [hhead] at ht
      obtain ⟨peer'', hremove, ht'⟩ := Tied.remove ht hid
      rw [hremove] at hfollow
      rw [← Option.some.inj hfollow, Mirrors, ht'.mirrors, hc', hrest] at hmirror
      have hperm : (owed h :: (before' ++ after).map owed).Perm
          (owed h₀ :: (before' ++ after).map owed) := by
        refine List.Perm.trans ?_ hmirror
        rw [← List.map_cons]
        exact (List.perm_middle.symm).map owed
      have howed : owed h = owed h₀ := by
        have hc := hperm.count_eq (owed h)
        rw [List.count_cons_self, List.count_cons] at hc
        split at hc
        · rename_i heq
          exact (beq_iff_eq.mp heq).symm
        · omega
      have hhash₀ : h.paymentHash = h₀.paymentHash := congrArg (fun o => o.2.1) howed
      exact absurd (hhash₀.symm.trans hhash) (hothers h₀ (.head _))

end Mirroring

section Runs

variable {sha256 : Sha256} {m : ChannelManager} {c : Channel} {id : Bytes32} {peer : Peer}
  {call : Surroundings × HtlcCall} {rest : List (Surroundings × HtlcCall)}

theorem AlwaysMirrors.now {calls : List (Surroundings × HtlcCall)} (h : AlwaysMirrors sha256 id m peer calls)
    (hlook : m.channels.lookup id = some c) : Mirrors peer c := by
  cases calls with
  | nil => exact h c hlook
  | cons call rest => exact h.1 c hlook

theorem alwaysMirrors_own (hid : call.2.channel = id) : AlwaysMirrors sha256 id m peer (call :: rest) ↔
      (∀ c ∈ m.channels.lookup id, Mirrors peer c) ∧
        ∃ peer', peer.follow (call.2.apply sha256 m call.1).1.toOption = some peer' ∧
          AlwaysMirrors sha256 id (call.2.apply sha256 m call.1).2 peer' rest := by
  rw [AlwaysMirrors]
  apply and_congr_right'
  cases hr : (call.2.apply sha256 m call.1).1 with
  | error e =>
    constructor
    · intro h
      exact ⟨peer, rfl, h⟩
    · rintro ⟨peer', hpeer, h⟩
      rw [← Option.some.inj hpeer] at h
      exact h
  | ok msg =>
    have hmsg : msg.channelId = id := (apply_channelId hr).trans hid
    show (if msg.channelId = id then _ else _) ↔ _
    rw [if_pos hmsg]
    rfl

theorem alwaysMirrors_other (hid : call.2.channel ≠ id) : AlwaysMirrors sha256 id m peer (call :: rest) ↔
      (∀ c ∈ m.channels.lookup id, Mirrors peer c) ∧
        AlwaysMirrors sha256 id (call.2.apply sha256 m call.1).2 peer rest := by
  rw [AlwaysMirrors]
  apply and_congr_right'
  cases hr : (call.2.apply sha256 m call.1).1 with
  | error e => rfl
  | ok msg =>
    have hmsg : msg.channelId ≠ id := fun h => hid ((apply_channelId hr).symm.trans h)
    show (if msg.channelId = id then _ else _) ↔ _
    rw [if_neg hmsg]

/-- From a state in step, the peer mirrors the channel all the way exactly if every call is in
step. -/
theorem alwaysMirrors_iff_of_tied (calls : List (Surroundings × HtlcCall)) (hlook : m.channels.lookup id = some c)
    (ht : Tied peer c.pendingHtlcs) : AlwaysMirrors sha256 id m peer calls ↔ AlwaysInStep sha256 id m calls := by
  have hnow : ∀ c' ∈ m.channels.lookup id, Mirrors peer c' := by
    intro c' hc'
    rw [hlook] at hc'
    rw [← Option.some.inj hc', Mirrors, ht.mirrors]
  induction calls generalizing m c peer with
  | nil => exact ⟨fun _ => trivial, fun _ => hnow⟩
  | cons call rest ih =>
    have hnext : ∀ {m' : ChannelManager} {c' : Channel} {peer' : Peer},
        m'.channels.lookup id = some c' → Tied peer' c'.pendingHtlcs →
        (AlwaysMirrors sha256 id m' peer' rest ↔ AlwaysInStep sha256 id m' rest) := by
      intro m' c' peer' hlook' ht'
      refine ih hlook' ht' ?_
      intro c'' hc''
      rw [hlook'] at hc''
      rw [← Option.some.inj hc'', Mirrors, ht'.mirrors]
    by_cases hid : call.2.channel = id
    · obtain ⟨c', hlook', hd⟩ := @apply_delivery sha256 m call.1 c call.2 (hid ▸ hlook)
      rw [hid] at hlook'
      rw [alwaysMirrors_own hid, AlwaysInStep]
      constructor
      · rintro ⟨-, peer', hfollow, hrest⟩
        have hstep := ht.inStep hd hfollow (hrest.now hlook')
        obtain ⟨peer'', hfollow', ht'⟩ := ht.follow hd hstep
        rw [hfollow'] at hfollow
        rw [← Option.some.inj hfollow] at hrest
        refine ⟨?_, (hnext hlook' ht').mp hrest⟩
        intro _ c'' hc''
        rw [hlook] at hc''
        rw [← Option.some.inj hc'']
        exact hstep
      · rintro ⟨hstep, hrest⟩
        obtain ⟨peer', hfollow, ht'⟩ := ht.follow hd (hstep hid c hlook)
        exact ⟨hnow, peer', hfollow, (hnext hlook' ht').mpr hrest⟩
    · have hlook' := (@apply_other sha256 m call.1 call.2 id (Ne.symm hid)).trans hlook
      rw [alwaysMirrors_other hid, AlwaysInStep, hnext hlook' ht]
      exact ⟨fun h => ⟨fun heq => absurd heq hid, h.2⟩, fun h => ⟨hnow, h.2⟩⟩

/-- A peer that starts with a channel without pending HTLCs can replay every message and always
holds exactly the pending HTLCs, if and only if every call on the channel is in step in the state in
which it comes. -/
theorem peer_mirrors_iff_in_step (sha256 : Sha256) (m : ChannelManager) (id : Bytes32) (c : Channel)
    (hlook : m.channels.lookup id = some c) (hnone : c.pendingHtlcs = []) (calls : List (Surroundings × HtlcCall)) :
    AlwaysMirrors sha256 id m [] calls ↔ AlwaysInStep sha256 id m calls := by
  refine alwaysMirrors_iff_of_tied calls hlook ?_
  rw [hnone]
  exact .nil

/-- A manager with one open channel. -/
def openManager : ChannelManager := runManager runSha256 (ChannelManager.new "node") negotiation

instance (sha256 : Sha256) (env : Surroundings) (c : Channel) (call : HtlcCall) :
    Decidable (call.InStep sha256 env c) :=
  match call with
  | .add .. => inferInstanceAs (Decidable (_ → _))
  | .fulfill .. => inferInstanceAs (Decidable (∀ r ∈ _, _))
  | .fail .. => inferInstanceAs (Decidable (∀ r ∈ _, _))

instance decidableAlwaysInStep (sha256 : Sha256) (id : Bytes32) (m : ChannelManager)
    (calls : List (Surroundings × HtlcCall)) : Decidable (AlwaysInStep sha256 id m calls) :=
  match calls with
  | [] => inferInstanceAs (Decidable True)
  | call :: rest =>
      have := decidableAlwaysInStep sha256 id (call.2.apply sha256 m call.1).2 rest
      inferInstanceAs (Decidable (_ ∧ _))

/-- Two HTLCs of the open channel, one after the other: 50000 satoshis, and 60000 satoshis. -/
def oneByOne : List (Surroundings × HtlcCall) :=
  [(saving, .add firstId firstId 50000000 500), (saving, .fail firstId firstId []),
    (saving, .add firstId secondId 60000000 500)]

theorem one_by_one_is_mirrored : AlwaysMirrors runSha256 firstId openManager [] oneByOne :=
  (peer_mirrors_iff_in_step runSha256 openManager firstId
    ((openManager.channels.lookup firstId).get (by decide +kernel)) (by decide +kernel)
    (by decide +kernel) oneByOne).mpr (by decide +kernel)

/-- With two HTLCs pending, the second fails: the message names the id 0, and the peer drops the
first. -/
theorem failed_second_htlc_drops_first : ¬ AlwaysMirrors runSha256 firstId openManager []
      [(saving, .add firstId firstId 50000000 500), (saving, .add firstId secondId 60000000 500),
        (saving, .fail firstId secondId [])] := by
  have hlook : openManager.channels.lookup firstId =
      some ((openManager.channels.lookup firstId).get (by decide +kernel)) :=
    (Option.some_get _).symm
  have hnone : ((openManager.channels.lookup firstId).get (by decide +kernel)).pendingHtlcs = [] := by
    decide +kernel
  rw [alwaysMirrors_iff_of_tied _ hlook (by rw [hnone]; exact .nil)]
  decide +kernel

end Runs

end KuberCoin.HtlcMirrors
