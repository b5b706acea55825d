import KuberCoin.ChannelManagers

/-!
Payments split over channels (crate `lightning`, `channel_manager.rs`), with the records of the store.
The shards are added one after another, each with a save that can fail. A payment that fails at a
later shard leaves the earlier ones in place, and one that fails at a save leaves its channel changed.
-/
namespace KuberCoin.ShardedPayments

open Bytes Transactions Maps Channels ChannelManagers

section Model

/-- A channel manager with the records of its store. -/
structure Node where
  manager : ChannelManager
  records : Map Bytes32 Channel

namespace Node

def putChannel (n : Node) (id : Bytes32) (c : Channel) : Node := { n with manager := n.manager.putChannel id c }

/-- `ChannelStore::save`; the storage takes the record or does not. -/
def save (n : Node) (accepts : Bool) (c : Channel) : Except LightningError Unit × Node :=
  if accepts then (.ok (), { n with records := n.records.insert c.channelId c })
  else (.error .serialization, n)

def addHtlc (n : Node) (accepts : Bool) (channelId paymentHash : Bytes32) (amountMsat : UInt64)
    (cltvExpiry : UInt32) : Except LightningError UpdateAddHtlcMsg × Node :=
  match n.manager.channels.lookup channelId with
  | none => (.error (.channelNotFound channelId), n)
  | some c =>
      let amountSat := amountMsat / 1000
      let htlcId := UInt64.ofNat c.pendingHtlcs.length
      match c.addHtlc (Htlc.newOutgoing htlcId paymentHash amountSat cltvExpiry) with
      | (.error e, c') => (.error e, n.putChannel channelId c')
      | (.ok (), c') =>
          match (n.putChannel channelId c').save accepts c' with
          | (.error e, n') => (.error e, n')
          | (.ok (), n') => (.ok ⟨channelId, htlcId, amountMsat, paymentHash, cltvExpiry, []⟩, n')

/-- The shards in turn, up to the first that fails; shard `i` is saved if `accepts i`. -/
def sendShards (n : Node) (accepts : ℕ → Bool) (paymentHash : Bytes32) (cltvExpiry : UInt32) (i : ℕ) :
    List (Bytes32 × UInt64) → Except LightningError (List UpdateAddHtlcMsg) × Node
  | [] => (.ok [], n)
  | (channelId, amountMsat) :: rest =>
      match n.addHtlc (accepts i) channelId paymentHash amountMsat cltvExpiry with
      | (.error e, n') => (.error e, n')
      | (.ok msg, n') =>
          let r := n'.sendShards accepts paymentHash cltvExpiry (i + 1) rest
          (r.1.map fun msgs => msg :: msgs, r.2)

def sendPaymentMpp (n : Node) (accepts : ℕ → Bool) (paymentHash : Bytes32) (shards : List (Bytes32 × UInt64))
    (cltvExpiry : UInt32) : Except LightningError (List UpdateAddHtlcMsg) × Node :=
  if shards.isEmpty then (.error (.invalidHtlc "MPP requires at least one shard"), n)
  else n.sendShards accepts paymentHash cltvExpiry 0 shards

theorem addHtlc_manager (n : Node) (env : Surroundings) (accepts : Bool) (henv : env.saved = fun _ => accepts)
    (channelId paymentHash : Bytes32) (amountMsat : UInt64) (cltvExpiry : UInt32) :
    ((n.addHtlc accepts channelId paymentHash amountMsat cltvExpiry).1,
        (n.addHtlc accepts channelId paymentHash amountMsat cltvExpiry).2.manager) =
      n.manager.addHtlc env channelId paymentHash amountMsat cltvExpiry := by
  unfold addHtlc ChannelManager.addHtlc ChannelManager.onChannel
  cases n.manager.channels.lookup channelId with
  | none => rfl
  | some c =>
    simp only [henv]
    cases c.addHtlc (Htlc.newOutgoing (UInt64.ofNat c.pendingHtlcs.length) paymentHash (amountMsat / 1000) cltvExpiry) with
    | mk r c' =>
      cases r with
      | error e => rfl
      | ok u => cases accepts <;> rfl

end Node

end Model

section Money

/-- What a payment can change in a channel. -/
def money (c : Channel) : UInt64 × UInt64 × List Htlc × UInt64 :=
  (c.localBalance, c.remoteBalance, c.pendingHtlcs, c.commitmentNumber)

/-- The same money in all channels and all records. -/
def SameMoney (n n' : Node) : Prop :=
  ∀ id, (n'.manager.channels.lookup id).map money = (n.manager.channels.lookup id).map money ∧
    (n'.records.lookup id).map money = (n.records.lookup id).map money

/-- A channel with one more outgoing HTLC. -/
def sent (paymentHash : Bytes32) (cltvExpiry : UInt32) (c : Channel) (amount : UInt64) : Channel :=
  { c with
    localBalance := c.localBalance - amount
    pendingHtlcs := c.pendingHtlcs ++
      [Htlc.newOutgoing (UInt64.ofNat c.pendingHtlcs.length) paymentHash amount cltvExpiry]
    commitmentNumber := c.nextCommitment }

/-- The amounts, in satoshis, that shards send over a channel. -/
def amountsOn (id : Bytes32) (shards : List (Bytes32 × UInt64)) : List UInt64 :=
  (shards.filter fun s => s.1 = id).map fun s => s.2 / 1000

/-- The channel can take one more HTLC after some others. -/
structure Room (c : Channel) (earlier : List UInt64) (amount : UInt64) : Prop where
  opened : c.state = .opened
  least : c.config.minHtlcValue ≤ amount
  most : amount ≤ c.config.maxHtlcValue
  count : c.pendingHtlcs.length + earlier.length < c.config.maxHtlcCount.toNat
  balance : (earlier.map UInt64.toNat).sum + amount.toNat + c.config.channelReserve.toNat ≤ c.localBalance.toNat

variable {paymentHash : Bytes32} {cltvExpiry : UInt32}

theorem canAddHtlc_iff {c : Channel} {amount : UInt64} : c.canAddHtlc amount = true ↔ Room c [] amount := by
  unfold Channel.canAddHtlc Transaction.checkedAdd
  constructor
  · intro h
    simp only [Bool.and_eq_true, decide_eq_true_eq] at h
    obtain ⟨⟨⟨⟨hopened, hleast⟩, hmost⟩, hcount⟩, hbalance⟩ := h
    split at hbalance
    next hfits =>
      simp only [Option.map_some, Option.getD_some, decide_eq_true_eq, UInt64.le_iff_toNat_le, UInt64.toNat_add] at hbalance
      rw [Nat.mod_eq_of_lt hfits] at hbalance
      exact ⟨hopened, hleast, hmost, by simpa using hcount, by simpa using hbalance⟩
    next => simp at hbalance
  · intro h
    have hbalance := h.balance
    have hcount := h.count
    simp only [List.map_nil, List.sum_nil, List.length_nil] at hbalance hcount
    have hbound := c.localBalance.toNat_lt
    rw [if_pos (by omega)]
    simp only [Bool.and_eq_true, decide_eq_true_eq, Option.map_some, Option.getD_some, UInt64.le_iff_toNat_le,
      UInt64.toNat_add]
    rw [Nat.mod_eq_of_lt (by omega)]
    refine ⟨⟨⟨⟨h.opened, UInt64.le_iff_toNat_le.mp h.least⟩, UInt64.le_iff_toNat_le.mp h.most⟩, by omega⟩, by omega⟩

theorem Room.sent {c : Channel} {earlier : List UInt64} {first amount : UInt64} (hfirst : first ≤ c.localBalance) :
    Room (sent paymentHash cltvExpiry c first) earlier amount ↔ Room c (first :: earlier) amount := by
  have hbalance : (ShardedPayments.sent paymentHash cltvExpiry c first).localBalance.toNat =
      c.localBalance.toNat - first.toNat := UInt64.toNat_sub_of_le _ _ hfirst
  have hcount : (ShardedPayments.sent paymentHash cltvExpiry c first).pendingHtlcs.length = c.pendingHtlcs.length + 1 := by
    simp [ShardedPayments.sent]
  have hle := UInt64.le_iff_toNat_le.mp hfirst
  constructor
  · intro h
    have h₁ := h.count
    have h₂ := h.balance
    rw [hcount] at h₁
    rw [hbalance] at h₂
    change _ < c.config.maxHtlcCount.toNat at h₁
    change _ + c.config.channelReserve.toNat ≤ _ at h₂
    refine ⟨h.opened, h.least, h.most, ?_, ?_⟩
    · rw [List.length_cons]
      omega
    · rw [List.map_cons, List.sum_cons]
      omega
  · intro h
    have h₁ := h.count
    have h₂ := h.balance
    rw [List.length_cons] at h₁
    rw [List.map_cons, List.sum_cons] at h₂
    refine ⟨h.opened, h.least, h.most, ?_, ?_⟩
    · rw [hcount]
      change _ < c.config.maxHtlcCount.toNat
      omega
    · rw [hbalance]
      change _ + c.config.channelReserve.toNat ≤ _
      omega

theorem foldl_sent_pending (c : Channel) (amounts : List UInt64) :
    (amounts.foldl (sent paymentHash cltvExpiry) c).pendingHtlcs = c.pendingHtlcs ++ amounts.mapIdx fun k a =>
      Htlc.newOutgoing (UInt64.ofNat (c.pendingHtlcs.length + k)) paymentHash a cltvExpiry := by
  induction amounts generalizing c with
  | nil => simp
  | cons a amounts ih =>
    rw [List.foldl_cons, ih, List.mapIdx_cons]
    simp [sent, Nat.add_assoc, Nat.add_comm 1]

end Money

section Shards

variable (accepts : ℕ → Bool) (paymentHash : Bytes32) (cltvExpiry : UInt32)

/-- Each shard of a list finds its channel with room after the earlier ones, and is saved. -/
def AllFit (channels : Map Bytes32 Channel) (i : ℕ) (shards : List (Bytes32 × UInt64)) : Prop :=
  ∀ before id amountMsat after, shards = before ++ (id, amountMsat) :: after →
    (∃ c, channels.lookup id = some c ∧ Room c (amountsOn id before) (amountMsat / 1000)) ∧
      accepts (i + before.length) = true

variable {accepts paymentHash cltvExpiry}

theorem amountsOn_cons (id : Bytes32) (shard : Bytes32 × UInt64) (shards : List (Bytes32 × UInt64)) :
    amountsOn id (shard :: shards) =
      if shard.1 = id then shard.2 / 1000 :: amountsOn id shards else amountsOn id shards := by
  unfold amountsOn
  by_cases h : shard.1 = id
  · simp [h]
  · simp [h]

theorem lookup_putChannel (n : Node) (id id' : Bytes32) (c : Channel) :
    (n.putChannel id c).manager.channels.lookup id' = if id' = id then some c else n.manager.channels.lookup id' :=
  lookup_insert_eq n.manager.channels id id' c

theorem allFit_cons {n : Node} {i : ℕ} {id : Bytes32} {amountMsat : UInt64} {rest : List (Bytes32 × UInt64)}
    {c : Channel} (hc : n.manager.channels.lookup id = some c) (hroom : Room c [] (amountMsat / 1000)) :
    AllFit accepts n.manager.channels i ((id, amountMsat) :: rest) ↔ accepts i = true ∧
      AllFit accepts (n.putChannel id (sent paymentHash cltvExpiry c (amountMsat / 1000))).manager.channels (i + 1) rest := by
  have hle : amountMsat / 1000 ≤ c.localBalance := by
    have hbalance := hroom.balance
    rw [UInt64.le_iff_toNat_le]
    simp only [List.map_nil, List.sum_nil] at hbalance
    omega
  -- a later shard finds the room the channel has after the first
  have hlater : ∀ before id' amountMsat',
      (∃ c', (n.putChannel id (sent paymentHash cltvExpiry c (amountMsat / 1000))).manager.channels.lookup id' = some c' ∧
        Room c' (amountsOn id' before) amountMsat') ↔
      ∃ c', n.manager.channels.lookup id' = some c' ∧ Room c' (amountsOn id' ((id, amountMsat) :: before)) amountMsat' := by
    intro before id' amountMsat'
    rw [lookup_putChannel, amountsOn_cons]
    by_cases hid : id' = id
    · subst hid
      rw [if_pos rfl, if_pos rfl, hc]
      simp only [Option.some.injEq, exists_eq_left']
      exact Room.sent hle
    · simp only [if_neg hid, if_neg (Ne.symm hid)]
  constructor
  · intro h
    refine ⟨by simpa using (h [] id amountMsat rest rfl).2, fun before id' amountMsat' after hsplit => ?_⟩
    obtain ⟨hfits, hsaved⟩ := h ((id, amountMsat) :: before) id' amountMsat' after (by rw [hsplit]; rfl)
    refine ⟨(hlater _ _ _).mpr hfits, ?_⟩
    rw [List.length_cons] at hsaved
    rwa [show i + 1 + before.length = i + (before.length + 1) by omega]
  · rintro ⟨hsaved, h⟩ before id' amountMsat' after hsplit
    cases before with
    | nil =>
      obtain ⟨hhead, -⟩ := List.cons.inj hsplit
      obtain ⟨rfl, rfl⟩ := Prod.mk.inj hhead
      exact ⟨⟨c, hc, hroom⟩, by simpa using hsaved⟩
    | cons first before =>
      obtain ⟨rfl, hrest⟩ := List.cons.inj hsplit
      obtain ⟨hfits, hsaved'⟩ := h before id' amountMsat' after hrest
      refine ⟨(hlater _ _ _).mp hfits, ?_⟩
      rwa [List.length_cons, show i + (before.length + 1) = i + 1 + before.length by omega]

/-- What a shard does that finds room. -/
theorem addHtlc_room {n : Node} {id : Bytes32} {amountMsat : UInt64} {c : Channel} (saved : Bool)
    (hc : n.manager.channels.lookup id = some c) (hroom : Room c [] (amountMsat / 1000)) :
    n.addHtlc saved id paymentHash amountMsat cltvExpiry =
      if saved then
        (.ok ⟨id, UInt64.ofNat c.pendingHtlcs.length, amountMsat, paymentHash, cltvExpiry, []⟩,
          { n.putChannel id (sent paymentHash cltvExpiry c (amountMsat / 1000)) with
            records := n.records.insert c.channelId (sent paymentHash cltvExpiry c (amountMsat / 1000)) })
      else (.error .serialization, n.putChannel id (sent paymentHash cltvExpiry c (amountMsat / 1000))) := by
  have hcan : c.canAddHtlc (amountMsat / 1000) = true := canAddHtlc_iff.mpr hroom
  unfold Node.addHtlc
  simp only [hc]
  rw [addHtlc_of_can (h := Htlc.newOutgoing _ paymentHash (amountMsat / 1000) cltvExpiry) hcan]
  cases saved <;> rfl

theorem addHtlc_no_room {n : Node} {id : Bytes32} {amountMsat : UInt64} (saved : Bool)
    (h : ∀ c, n.manager.channels.lookup id = some c → ¬ Room c [] (amountMsat / 1000)) :
    ∃ e, (n.addHtlc saved id paymentHash amountMsat cltvExpiry).1 = .error e ∧
      SameMoney n (n.addHtlc saved id paymentHash amountMsat cltvExpiry).2 := by
  unfold Node.addHtlc
  cases hc : n.manager.channels.lookup id with
  | none => exact ⟨_, rfl, fun _ => ⟨rfl, rfl⟩⟩
  | some c =>
    have hcan : ¬ c.canAddHtlc (amountMsat / 1000) = true := fun hcan => h c hc (canAddHtlc_iff.mp hcan)
    have hrefused : c.addHtlc (Htlc.newOutgoing (UInt64.ofNat c.pendingHtlcs.length) paymentHash (amountMsat / 1000)
        cltvExpiry) = (.error .insufficientBalance, c) := if_pos hcan
    simp only [hrefused]
    refine ⟨_, rfl, fun id' => ⟨?_, rfl⟩⟩
    rw [lookup_putChannel]
    by_cases hid : id' = id
    · rw [if_pos hid, hid, hc]
    · rw [if_neg hid]

theorem sendShards_error {n : Node} {i : ℕ} {id : Bytes32} {amountMsat : UInt64} {rest : List (Bytes32 × UInt64)}
    {e : LightningError} (h : (n.addHtlc (accepts i) id paymentHash amountMsat cltvExpiry).1 = .error e) :
    n.sendShards accepts paymentHash cltvExpiry i ((id, amountMsat) :: rest) =
      (.error e, (n.addHtlc (accepts i) id paymentHash amountMsat cltvExpiry).2) := by
  unfold Node.sendShards
  split
  next e' n' hadd =>
    rw [hadd] at h ⊢
    rw [Except.error.inj h]
  next msg n' hadd =>
    rw [hadd] at h
    cases h

/-- No shard takes an HTLC away. -/
def pendingCount (n : Node) (id : Bytes32) : ℕ := ((n.manager.channels.lookup id).map fun c => c.pendingHtlcs.length).getD 0

theorem SameMoney.pendingCount {n n' : Node} (h : SameMoney n n') (id : Bytes32) :
    pendingCount n' id = pendingCount n id := by
  have hsame := congrArg (Option.map fun m : UInt64 × UInt64 × List Htlc × UInt64 => m.2.2.1.length) (h id).1
  rw [Option.map_map, Option.map_map] at hsame
  exact congrArg (Option.getD · 0) hsame

theorem pendingCount_sent {n : Node} {id : Bytes32} {c : Channel} (hc : n.manager.channels.lookup id = some c)
    (amount : UInt64) (id' : Bytes32) : pendingCount (n.putChannel id (sent paymentHash cltvExpiry c amount)) id' =
      pendingCount n id' + (if id' = id then 1 else 0) := by
  unfold pendingCount
  rw [lookup_putChannel]
  by_cases hid : id' = id
  · rw [if_pos hid, if_pos hid, hid, hc]
    simp [sent]
  · rw [if_neg hid, if_neg hid, Nat.add_zero]

theorem pendingCount_addHtlc (n : Node) (saved : Bool) (id : Bytes32) (amountMsat : UInt64) (id' : Bytes32) :
    pendingCount n id' ≤ pendingCount (n.addHtlc saved id paymentHash amountMsat cltvExpiry).2 id' := by
  by_cases h : ∃ c, n.manager.channels.lookup id = some c ∧ Room c [] (amountMsat / 1000)
  · obtain ⟨c, hc, hroom⟩ := h
    have hsent := @pendingCount_sent paymentHash cltvExpiry n id c hc (amountMsat / 1000) id'
    have hstep : pendingCount (n.addHtlc saved id paymentHash amountMsat cltvExpiry).2 id' =
        pendingCount (n.putChannel id (sent paymentHash cltvExpiry c (amountMsat / 1000))) id' := by
      rw [addHtlc_room saved hc hroom]
      cases saved <;> rfl
    omega
  · obtain ⟨e, -, hsame⟩ := @addHtlc_no_room paymentHash cltvExpiry n id amountMsat saved fun c hc hroom => h ⟨c, hc, hroom⟩
    exact (hsame.pendingCount id').ge

theorem pendingCount_sendShards (n : Node) (i : ℕ) (shards : List (Bytes32 × UInt64)) (id : Bytes32) :
    pendingCount n id ≤ pendingCount (n.sendShards accepts paymentHash cltvExpiry i shards).2 id := by
  induction shards generalizing n i with
  | nil => exact le_rfl
  | cons shard rest ih =>
    have hone := @pendingCount_addHtlc paymentHash cltvExpiry n (accepts i) shard.1 shard.2 id
    unfold Node.sendShards
    split
    next e n' hadd =>
      rw [hadd] at hone
      exact hone
    next msg n' hadd =>
      rw [hadd] at hone
      exact hone.trans (ih n' (i + 1))

theorem sendShards_ok_iff (n : Node) (i : ℕ) (shards : List (Bytes32 × UInt64)) :
    ((∃ msgs, (n.sendShards accepts paymentHash cltvExpiry i shards).1 = .ok msgs) ↔
        AllFit accepts n.manager.channels i shards) ∧
      ∀ msgs, (n.sendShards accepts paymentHash cltvExpiry i shards).1 = .ok msgs →
        msgs.length = shards.length ∧
          ∀ id, (n.sendShards accepts paymentHash cltvExpiry i shards).2.manager.channels.lookup id =
            (n.manager.channels.lookup id).map fun c => (amountsOn id shards).foldl (sent paymentHash cltvExpiry) c := by
  induction shards generalizing n i with
  | nil =>
    refine ⟨iff_of_true ⟨[], rfl⟩ fun before id amountMsat after hsplit => ?_, fun msgs hok => ?_⟩
    · exact absurd hsplit (by simp)
    · obtain rfl := Except.ok.inj hok
      exact ⟨rfl, fun id => by simp [amountsOn, Node.sendShards]⟩
  | cons shard rest ih =>
    obtain ⟨id, amountMsat⟩ := shard
    by_cases hroom : ∃ c, n.manager.channels.lookup id = some c ∧ Room c [] (amountMsat / 1000)
    · obtain ⟨c, hc, hroom⟩ := hroom
      have hadd := @addHtlc_room paymentHash cltvExpiry n id amountMsat c (accepts i) hc hroom
      rw [@allFit_cons accepts paymentHash cltvExpiry n i id amountMsat rest c hc hroom]
      unfold Node.sendShards
      cases hsaved : accepts i with
      | false =>
        rw [hsaved] at hadd
        simp only [hadd]
        simp
      | true =>
        rw [hsaved] at hadd
        simp only [hadd, if_true, true_and]
        set n' : Node := { n.putChannel id (sent paymentHash cltvExpiry c (amountMsat / 1000)) with
          records := n.records.insert c.channelId (sent paymentHash cltvExpiry c (amountMsat / 1000)) } with hn'
        obtain ⟨hiff, hspec⟩ := ih n' (i + 1)
        refine ⟨?_, fun msgs hok => ?_⟩
        · rw [← show n'.manager.channels = (n.putChannel id
            (sent paymentHash cltvExpiry c (amountMsat / 1000))).manager.channels from rfl, ← hiff]
          cases (n'.sendShards accepts paymentHash cltvExpiry (i + 1) rest).1 with
          | error e => simp [Except.map]
          | ok msgs => simp [Except.map]
        · cases hrest : (n'.sendShards accepts paymentHash cltvExpiry (i + 1) rest).1 with
          | error e =>
            rw [hrest] at hok
            cases hok
          | ok msgs' =>
            rw [hrest] at hok
            obtain rfl := Except.ok.inj hok
            obtain ⟨hlength, hchannels⟩ := hspec msgs' hrest
            refine ⟨by rw [List.length_cons, List.length_cons, hlength], fun id' => ?_⟩
            rw [hchannels id', hn']
            change Option.map _ ((n.putChannel id
              (sent paymentHash cltvExpiry c (amountMsat / 1000))).manager.channels.lookup id') = _
            rw [lookup_putChannel, amountsOn_cons]
            by_cases hid : id' = id
            · rw [if_pos hid, if_pos hid.symm, hid, hc]
              rfl
            · rw [if_neg hid, if_neg (Ne.symm hid)]
    · obtain ⟨e, he, -⟩ := @addHtlc_no_room paymentHash cltvExpiry n id amountMsat (accepts i)
        fun c hc hc' => hroom ⟨c, hc, hc'⟩
      rw [sendShards_error he]
      refine ⟨iff_of_false (by simp) fun hfit => ?_, fun msgs hok => by cases hok⟩
      exact hroom (hfit [] id amountMsat rest rfl).1

/-- A payment that fails changes no money; one that succeeds adds one HTLC for each shard. -/
def AllOrNothing (n : Node) (paymentHash : Bytes32) (cltvExpiry : UInt32) (shards : List (Bytes32 × UInt64))
    (r : Except LightningError (List UpdateAddHtlcMsg) × Node) : Prop :=
  match r.1 with
  | .error _ => SameMoney n r.2
  | .ok msgs => msgs.length = shards.length ∧
      ∀ id, (r.2.manager.channels.lookup id).map Channel.pendingHtlcs = (n.manager.channels.lookup id).map fun c =>
        c.pendingHtlcs ++ (amountsOn id shards).mapIdx fun k amount =>
          Htlc.newOutgoing (UInt64.ofNat (c.pendingHtlcs.length + k)) paymentHash amount cltvExpiry

/-- All or nothing holds exactly when the first shard already finds no room, or all shards fit
and all saves succeed. -/
theorem mpp_all_or_nothing_iff (n : Node) (accepts : ℕ → Bool) (paymentHash : Bytes32)
    (shards : List (Bytes32 × UInt64)) (cltvExpiry : UInt32) :
    AllOrNothing n paymentHash cltvExpiry shards (n.sendPaymentMpp accepts paymentHash shards cltvExpiry) ↔
      (∀ id amountMsat rest, shards = (id, amountMsat) :: rest →
        ∀ c, n.manager.channels.lookup id = some c → ¬ Room c [] (amountMsat / 1000)) ∨
        AllFit accepts n.manager.channels 0 shards := by
  cases shards with
  | nil => exact iff_of_true (fun _ => ⟨rfl, rfl⟩) (.inl fun _ _ _ h => by cases h)
  | cons shard rest =>
    obtain ⟨id, amountMsat⟩ := shard
    obtain ⟨hiff, hspec⟩ := @sendShards_ok_iff accepts paymentHash cltvExpiry n 0 ((id, amountMsat) :: rest)
    have hcall : n.sendPaymentMpp accepts paymentHash ((id, amountMsat) :: rest) cltvExpiry =
        n.sendShards accepts paymentHash cltvExpiry 0 ((id, amountMsat) :: rest) := rfl
    rw [hcall]
    by_cases hroom : ∃ c, n.manager.channels.lookup id = some c ∧ Room c [] (amountMsat / 1000)
    · rw [← hiff]
      have hnot : ¬ ∀ id' amountMsat' rest', (id, amountMsat) :: rest = (id', amountMsat') :: rest' →
          ∀ c, n.manager.channels.lookup id' = some c → ¬ Room c [] (amountMsat' / 1000) := by
        obtain ⟨c, hc, hfits⟩ := hroom
        exact fun h => h id amountMsat rest rfl c hc hfits
      cases hresult : (n.sendShards accepts paymentHash cltvExpiry 0 ((id, amountMsat) :: rest)).1 with
      | ok msgs =>
        refine iff_of_true ?_ (.inr ⟨msgs, rfl⟩)
        obtain ⟨hlength, hchannels⟩ := hspec msgs hresult
        unfold AllOrNothing
        rw [hresult]
        refine ⟨hlength, fun id' => ?_⟩
        rw [hchannels id', Option.map_map]
        exact congrFun (congrArg Option.map (funext fun c => foldl_sent_pending c _)) _
      | error e =>
        refine iff_of_false ?_ (by simpa using hnot)
        obtain ⟨c, hc, hfits⟩ := hroom
        -- the first shard is in the channel, and nothing takes it out again
        have hmore : pendingCount n id <
            pendingCount (n.sendShards accepts paymentHash cltvExpiry 0 ((id, amountMsat) :: rest)).2 id := by
          have hadd := @addHtlc_room paymentHash cltvExpiry n id amountMsat c (accepts 0) hc hfits
          have hsent := @pendingCount_sent paymentHash cltvExpiry n id c hc (amountMsat / 1000) id
          rw [if_pos rfl] at hsent
          have hlt := Nat.lt_of_lt_of_eq (Nat.lt_succ_self _) hsent.symm
          unfold Node.sendShards
          cases hsaved : accepts 0 with
          | false =>
            rw [hsaved] at hadd
            simp only [hadd]
            exact hlt
          | true =>
            rw [hsaved] at hadd
            simp only [hadd, if_true]
            refine Nat.lt_of_lt_of_le hlt ?_
            exact pendingCount_sendShards { n.putChannel id (sent paymentHash cltvExpiry c (amountMsat / 1000)) with
              records := n.records.insert c.channelId (sent paymentHash cltvExpiry c (amountMsat / 1000)) } 1 rest id
        unfold AllOrNothing
        rw [hresult]
        intro hsame
        exact absurd (hsame.pendingCount id) hmore.ne'
    · refine iff_of_true ?_ (.inl fun id' amountMsat' rest' hsplit c hc hfits => ?_)
      · obtain ⟨e, he, hsame⟩ := @addHtlc_no_room paymentHash cltvExpiry n id amountMsat (accepts 0)
          fun c hc hc' => hroom ⟨c, hc, hc'⟩
        rw [sendShards_error he]
        exact hsame
      · obtain ⟨hhead, -⟩ := List.cons.inj hsplit
        obtain ⟨rfl, rfl⟩ := Prod.mk.inj hhead
        exact hroom ⟨c, hc, hfits⟩

/-- One open channel, not yet in the store. -/
def oneChannel : Node where
  manager := (ChannelManager.new "").putChannel firstId (Channel.new firstId Bytes32.zero 0 1000000 500000 "" "").setOpen
  records := ∅

/-- The second shard names a channel that is not there; the first stays in its channel. -/
theorem first_shard_stays : ¬ AllOrNothing oneChannel Bytes32.zero 144 [(firstId, 2000000), (secondId, 2000000)]
      (oneChannel.sendPaymentMpp (fun _ => true) Bytes32.zero [(firstId, 2000000), (secondId, 2000000)] 144) := by
  intro h
  have hmoney : ((oneChannel.sendPaymentMpp (fun _ => true) Bytes32.zero [(firstId, 2000000), (secondId, 2000000)]
      144).2.manager.channels.lookup firstId).map money = (oneChannel.manager.channels.lookup firstId).map money :=
    (h firstId).1
  revert hmoney
  decide +kernel

end Shards

end KuberCoin.ShardedPayments
