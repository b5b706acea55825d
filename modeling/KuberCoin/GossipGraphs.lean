import KuberCoin.Handlers
import Mathlib.Data.List.DropRight

/-!
The routing graph and the gossip that feeds it (crate `lightning`, `routing.rs` and `gossip.rs`). The
graph keeps its channels in one map and, for every node, the ids of its channels in another. A
channel that is added again is pushed again. An announcement resets the entries of both its nodes,
and an update replaces the policy of its channel whatever its timestamp.
-/
namespace KuberCoin.GossipGraphs

open Bytes Maps Transactions UtxoSets Handlers

section Graph

/-- Node keys are hexadecimal texts. -/
abbrev NodeKey := List Char

structure GraphNode where
  pubkey : NodeKey
  nodeAlias : List Char
  channels : List Bytes32
  lastUpdate : UInt64
deriving DecidableEq

structure GraphChannel where
  channelId : Bytes32
  node1 : NodeKey
  node2 : NodeKey
  capacity : UInt64
  feeBaseMsat : UInt32
  feeRateMillionths : UInt32
  cltvDelta : UInt16
  enabled : Bool
deriving DecidableEq

structure NetworkGraph where
  nodes : Map NodeKey GraphNode
  channels : Map Bytes32 GraphChannel
  adjacency : Map NodeKey (List Bytes32)

namespace NetworkGraph

def new : NetworkGraph := ⟨∅, ∅, ∅⟩

/-- The list of a node; a missing one is empty. -/
def adjacent (g : NetworkGraph) (n : NodeKey) : List Bytes32 := (g.adjacency.lookup n).getD []

def addNode (g : NetworkGraph) (node : GraphNode) : NetworkGraph :=
  { g with
    adjacency := g.adjacency.insert node.pubkey (g.adjacent node.pubkey)
    nodes := g.nodes.insert node.pubkey node }

/-- `entry(n).or_default().push(id)`. -/
def pushAdjacent (g : NetworkGraph) (n : NodeKey) (id : Bytes32) : NetworkGraph :=
  { g with adjacency := g.adjacency.insert n (g.adjacent n ++ [id]) }

def addChannel (g : NetworkGraph) (channel : GraphChannel) : NetworkGraph :=
  let g₁ := (g.pushAdjacent channel.node1 channel.channelId).pushAdjacent channel.node2 channel.channelId
  { g₁ with channels := g₁.channels.insert channel.channelId channel }

/-- Take an id out of the list of a node that has one. -/
def retainOthers (g : NetworkGraph) (n : NodeKey) (id : Bytes32) : NetworkGraph :=
  match g.adjacency.lookup n with
  | none => g
  | some ids => { g with adjacency := g.adjacency.insert n (ids.filter fun x => x ≠ id) }

def removeChannel (g : NetworkGraph) (id : Bytes32) : NetworkGraph :=
  match g.channels.lookup id with
  | none => g
  | some channel =>
      (({ g with channels := g.channels.erase id } : NetworkGraph).retainOthers channel.node1 id).retainOthers
        channel.node2 id

end NetworkGraph

end Graph

section Gossip

def maxGossipAgeSecs : UInt64 := 14 * 24 * 3600

def maxSeenSet : ℕ := 100000

/-- The eight bytes of the number and zeros. -/
def scidToBytes (scid : UInt64) : Bytes32 := Bytes32.ofBytes (leBytes 8 scid.toNat).reverse

structure ChannelAnnouncementMsg where
  shortChannelId : UInt64
  nodeId1 : List UInt8
  nodeId2 : List UInt8
deriving DecidableEq

structure ChannelUpdateMsg where
  shortChannelId : UInt64
  timestamp : UInt32
  channelFlags : UInt8
  cltvExpiryDelta : UInt16
  feeBaseMsat : UInt32
  feeProportionalMillionths : UInt32
deriving DecidableEq

structure NodeAnnouncementMsg where
  timestamp : UInt32
  nodeId : List UInt8
  nodeAlias : List UInt8
deriving DecidableEq

inductive LightningMessage where
  | channelAnnouncement (msg : ChannelAnnouncementMsg)
  | nodeAnnouncement (msg : NodeAnnouncementMsg)
  | channelUpdate (msg : ChannelUpdateMsg)
  | other

structure GossipRelay where
  seen : Finset Bytes32
  firstTimestamp : UInt64
  timestampRange : UInt64

/-- The order in which a hash set yields its elements. -/
structure SetOrder where
  iter : Finset Bytes32 → List Bytes32
  lists : ∀ s, (iter s).Nodup ∧ (iter s).toFinset = s

namespace GossipRelay

def new (now : UInt64) : GossipRelay := ⟨∅, saturatingSub now maxGossipAgeSecs, maxGossipAgeSecs⟩

/-- Insert into the set, which is halved when it is full; tells whether the id is new. -/
def markSeen (r : GossipRelay) (order : SetOrder) (id : Bytes32) : Bool × GossipRelay :=
  let seen := if maxSeenSet ≤ r.seen.card then ((order.iter r.seen).drop (maxSeenSet / 2)).toFinset else r.seen
  (id ∉ seen, { r with seen := insert id seen })

/-- The timestamp is within the filter. -/
def recent (r : GossipRelay) (timestamp : UInt32) : Bool :=
  r.firstTimestamp ≤ timestamp.toUInt64 &&
    timestamp.toUInt64 ≤ saturatingAdd r.firstTimestamp r.timestampRange

end GossipRelay

/-- The entry that a channel announcement makes for a node. -/
def blankNode (nodeId : List UInt8) : GraphNode := ⟨hexEncode nodeId, [], [], 0⟩

/-- The channel of an announcement, before any update. -/
def announcedChannel (msg : ChannelAnnouncementMsg) : GraphChannel where
  channelId := scidToBytes msg.shortChannelId
  node1 := hexEncode msg.nodeId1
  node2 := hexEncode msg.nodeId2
  capacity := 0
  feeBaseMsat := 0
  feeRateMillionths := 0
  cltvDelta := 0
  enabled := true

def processChannelAnnouncement (r : GossipRelay) (order : SetOrder) (msg : ChannelAnnouncementMsg)
    (g : NetworkGraph) : Bool × GossipRelay × NetworkGraph :=
  let marked := r.markSeen order (scidToBytes msg.shortChannelId)
  if ¬ marked.1 then (false, marked.2, g)
  else
    (true, marked.2,
      ((g.addNode (blankNode msg.nodeId1)).addNode (blankNode msg.nodeId2)).addChannel (announcedChannel msg))

/-- The channel with the policy of an update. -/
def GraphChannel.withPolicy (ch : GraphChannel) (msg : ChannelUpdateMsg) : GraphChannel :=
  { ch with
    feeBaseMsat := msg.feeBaseMsat
    feeRateMillionths := msg.feeProportionalMillionths
    cltvDelta := msg.cltvExpiryDelta
    enabled := msg.channelFlags &&& 2 = 0 }

def processChannelUpdate (r : GossipRelay) (msg : ChannelUpdateMsg) (g : NetworkGraph) :
    Bool × GossipRelay × NetworkGraph :=
  if ¬ r.recent msg.timestamp then (false, r, g)
  else
    let id := scidToBytes msg.shortChannelId
    match g.channels.lookup id with
    | some ch => (true, r, { g with channels := g.channels.insert id (ch.withPolicy msg) })
    | none => (false, r, g)

variable (fromUtf8Lossy : List UInt8 → List Char)

/-- The text of an alias, without the zeros at its end. -/
def aliasText (bytes : List UInt8) : List Char := (fromUtf8Lossy bytes).rdropWhile fun c => c = Char.ofNat 0

def processNodeAnnouncement (r : GossipRelay) (msg : NodeAnnouncementMsg) (g : NetworkGraph) :
    Bool × GossipRelay × NetworkGraph :=
  if ¬ r.recent msg.timestamp then (false, r, g)
  else
    let key := hexEncode msg.nodeId
    match g.nodes.lookup key with
    | some node =>
        if msg.timestamp.toUInt64 ≤ node.lastUpdate then (false, r, g)
        else
          (true, r, { g with
            nodes := g.nodes.insert key { node with
              nodeAlias := aliasText fromUtf8Lossy msg.nodeAlias
              lastUpdate := msg.timestamp.toUInt64 } })
    | none => (true, r, g.addNode ⟨key, aliasText fromUtf8Lossy msg.nodeAlias, [], msg.timestamp.toUInt64⟩)

def processMessage (r : GossipRelay) (order : SetOrder) (msg : LightningMessage) (g : NetworkGraph) :
    Bool × GossipRelay × NetworkGraph :=
  match msg with
  | .channelAnnouncement m => processChannelAnnouncement r order m g
  | .nodeAnnouncement m => processNodeAnnouncement fromUtf8Lossy r m g
  | .channelUpdate m => processChannelUpdate r m g
  | .other => (false, r, g)

end Gossip

section Consistency

variable (fromUtf8Lossy : List UInt8 → List Char)

/-- A call that changes the graph. -/
inductive GraphCall where
  | addNode (node : GraphNode)
  | addChannel (channel : GraphChannel)
  | removeChannel (id : Bytes32)
  | processMessage (order : SetOrder) (msg : LightningMessage)

def GraphCall.apply (s : GossipRelay × NetworkGraph) : GraphCall → GossipRelay × NetworkGraph
  | .addNode node => (s.1, s.2.addNode node)
  | .addChannel channel => (s.1, s.2.addChannel channel)
  | .removeChannel id => (s.1, s.2.removeChannel id)
  | .processMessage order msg => (GossipGraphs.processMessage fromUtf8Lossy s.1 order msg s.2).2

/-- The channel that a call adds, if it adds one. -/
def GraphCall.added (s : GossipRelay × NetworkGraph) : GraphCall → Option GraphChannel
  | .addChannel channel => some channel
  | .processMessage order (.channelAnnouncement msg) =>
      if (s.1.markSeen order (scidToBytes msg.shortChannelId)).1 then some (announcedChannel msg) else none
  | _ => none

/-- The channel has two different ends and its id is not in use. -/
def Fresh (g : NetworkGraph) (ch : GraphChannel) : Prop := ch.node1 ≠ ch.node2 ∧ ch.channelId ∉ g.channels

def Endpoint (g : NetworkGraph) (n : NodeKey) (id : Bytes32) : Prop :=
  ∃ ch, g.channels.lookup id = some ch ∧ (ch.node1 = n ∨ ch.node2 = n)

/-- A list of a node has the ids of its channels once each, and no others. -/
def Consistent (g : NetworkGraph) : Prop :=
  ∀ n id, (Endpoint g n id → (g.adjacent n).count id = 1) ∧ (¬ Endpoint g n id → (g.adjacent n).count id = 0)

variable {g g' : NetworkGraph}

/-- The graphs have the same lists, and their channels the same ends. -/
def SameShape (g g' : NetworkGraph) : Prop :=
  (∀ n, g'.adjacent n = g.adjacent n) ∧ ∀ n id, Endpoint g' n id ↔ Endpoint g n id

theorem Consistent.congr (h : Consistent g) (hsame : SameShape g g') : Consistent g' := by
  intro n id
  rw [hsame.1, hsame.2]
  exact h n id

theorem consistent_new : Consistent .new := by
  intro n id
  have hnone : ¬ Endpoint .new n id := by
    rintro ⟨ch, hch, -⟩
    simp [NetworkGraph.new] at hch
  exact ⟨fun h => absurd h hnone, fun _ => by simp [NetworkGraph.new, NetworkGraph.adjacent]⟩

theorem adjacent_insert (g : NetworkGraph) (m n : NodeKey) (ids : List Bytes32) :
    ({ g with adjacency := g.adjacency.insert m ids } : NetworkGraph).adjacent n =
      if m = n then ids else g.adjacent n := by
  unfold NetworkGraph.adjacent
  simp only [lookup_insert_eq, eq_comm]
  split <;> rfl

theorem sameShape_addNode (g : NetworkGraph) (node : GraphNode) : SameShape g (g.addNode node) := by
  refine ⟨fun n => ?_, fun n id => Iff.rfl⟩
  show ({ g with adjacency := g.adjacency.insert node.pubkey (g.adjacent node.pubkey) } : NetworkGraph).adjacent n = _
  rw [adjacent_insert]
  split
  next heq => rw [heq]
  next => rfl

theorem SameShape.trans {g₁ g₂ g₃ : NetworkGraph} (h : SameShape g₁ g₂) (h' : SameShape g₂ g₃) : SameShape g₁ g₃ :=
  ⟨fun n => (h'.1 n).trans (h.1 n), fun n id => (h'.2 n id).trans (h.2 n id)⟩

theorem sameShape_policy {id : Bytes32} {ch ch' : GraphChannel} (hch : g.channels.lookup id = some ch)
    (hfirst : ch'.node1 = ch.node1) (hsecond : ch'.node2 = ch.node2) :
    SameShape g { g with channels := g.channels.insert id ch' } := by
  refine ⟨fun n => rfl, fun n i => ?_⟩
  unfold Endpoint
  simp only [lookup_insert_eq]
  split
  next heq =>
    subst heq
    simp [hch, hfirst, hsecond]
  next => rfl

theorem pushAdjacent_adjacent (g : NetworkGraph) (m n : NodeKey) (id : Bytes32) :
    (g.pushAdjacent m id).adjacent n = if m = n then g.adjacent m ++ [id] else g.adjacent n :=
  adjacent_insert g m n _

/-- Both ends of a channel get its id, a single end twice. -/
theorem count_addChannel (g : NetworkGraph) (ch : GraphChannel) (n : NodeKey) (id : Bytes32) :
    ((g.addChannel ch).adjacent n).count id = (g.adjacent n).count id +
      (if ch.channelId = id ∧ ch.node1 = n then 1 else 0) + (if ch.channelId = id ∧ ch.node2 = n then 1 else 0) := by
  show (((g.pushAdjacent ch.node1 ch.channelId).pushAdjacent ch.node2 ch.channelId).adjacent n).count id = _
  have hpush : ∀ (g : NetworkGraph) m, ((g.pushAdjacent m ch.channelId).adjacent n).count id =
      (g.adjacent n).count id + if ch.channelId = id ∧ m = n then 1 else 0 := by
    intro g m
    rw [pushAdjacent_adjacent]
    by_cases hm : m = n
    · subst hm
      by_cases hid : ch.channelId = id <;> simp [hid, List.count_append]
    · simp [hm]
  rw [hpush, hpush]

theorem endpoint_addChannel (g : NetworkGraph) (ch : GraphChannel) (n : NodeKey) (id : Bytes32) :
    Endpoint (g.addChannel ch) n id ↔
      if ch.channelId = id then ch.node1 = n ∨ ch.node2 = n else Endpoint g n id := by
  unfold Endpoint NetworkGraph.addChannel
  simp only [lookup_insert_eq]
  by_cases hid : ch.channelId = id
  · simp [hid]
  · have hne : id ≠ ch.channelId := Ne.symm hid
    simp only [hid, hne, if_false]
    rfl

theorem not_endpoint_of_notMem {id : Bytes32} (h : id ∉ g.channels) (n : NodeKey) : ¬ Endpoint g n id := by
  rintro ⟨ch, hch, -⟩
  exact h ((mem_iff_lookup _ _).mpr ⟨ch, hch⟩)

theorem consistent_addChannel_iff (h : Consistent g) (ch : GraphChannel) :
    Consistent (g.addChannel ch) ↔ Fresh g ch := by
  constructor
  · intro h'
    have hend : ∀ n, (ch.node1 = n ∨ ch.node2 = n) → ((g.addChannel ch).adjacent n).count ch.channelId = 1 :=
      fun n hn => (h' n ch.channelId).1 ((endpoint_addChannel _ _ _ _).mpr (by simpa using hn))
    have hfirst := hend ch.node1 (.inl rfl)
    have hsecond := hend ch.node2 (.inr rfl)
    rw [count_addChannel] at hfirst hsecond
    have hne : ch.node1 ≠ ch.node2 := by
      intro heq
      simp only [true_and, heq, if_true] at hfirst
      omega
    refine ⟨hne, fun hmem => ?_⟩
    obtain ⟨old, hold⟩ := (mem_iff_lookup _ _).mp hmem
    have hcount := (h old.node1 ch.channelId).1 ⟨old, hold, .inl rfl⟩
    by_cases hends : ch.node1 = old.node1 ∨ ch.node2 = old.node1
    · rcases hends with heq | heq
      · rw [heq] at hfirst
        simp only [true_and, if_true] at hfirst
        omega
      · rw [heq] at hsecond
        simp only [true_and, if_true] at hsecond
        omega
    · -- an end that the channel had before keeps the id
      have hnone := (h' old.node1 ch.channelId).2 fun hend' =>
        hends (by simpa using (endpoint_addChannel _ _ _ _).mp hend')
      rw [count_addChannel] at hnone
      omega
  · rintro ⟨hne, hnew⟩ n id
    rw [endpoint_addChannel, count_addChannel]
    by_cases hid : ch.channelId = id
    · subst hid
      have hzero := (h n ch.channelId).2 (not_endpoint_of_notMem hnew n)
      rw [hzero]
      by_cases hfirst : ch.node1 = n
      · have hsecond : ch.node2 ≠ n := fun heq => hne (hfirst.trans heq.symm)
        simp [hfirst, hsecond]
      · by_cases hsecond : ch.node2 = n <;> simp [hfirst, hsecond]
    · simpa [hid] using h n id

theorem retainOthers_count (g : NetworkGraph) (m n : NodeKey) (id i : Bytes32) :
    ((g.retainOthers m id).adjacent n).count i = if m = n ∧ id = i then 0 else (g.adjacent n).count i := by
  unfold NetworkGraph.retainOthers
  cases hm : g.adjacency.lookup m with
  | none =>
    by_cases hboth : m = n ∧ id = i
    · rw [if_pos hboth]
      obtain ⟨rfl, -⟩ := hboth
      simp [NetworkGraph.adjacent, hm]
    · rw [if_neg hboth]
  | some ids =>
    simp only [adjacent_insert]
    by_cases hn : m = n
    · subst hn
      by_cases hi : id = i
      · subst hi
        simp [List.count_eq_zero]
      · have hne : i ≠ id := Ne.symm hi
        simp [hi, hne, NetworkGraph.adjacent, hm, List.count_filter]
    · simp [hn]

theorem retainOthers_channels (g : NetworkGraph) (m : NodeKey) (id : Bytes32) :
    (g.retainOthers m id).channels = g.channels := by
  unfold NetworkGraph.retainOthers
  split <;> rfl

theorem consistent_removeChannel (h : Consistent g) (id : Bytes32) : Consistent (g.removeChannel id) := by
  unfold NetworkGraph.removeChannel
  split
  next => exact h
  next ch hch =>
    intro n i
    have hends : Endpoint (((({ g with channels := g.channels.erase id } : NetworkGraph).retainOthers ch.node1
        id).retainOthers ch.node2 id)) n i ↔ id ≠ i ∧ Endpoint g n i := by
      unfold Endpoint
      rw [retainOthers_channels, retainOthers_channels]
      simp only [lookup_erase_eq]
      by_cases hi : id = i
      · simp [hi]
      · simp [hi, Ne.symm hi]
    have hadjacent : ({ g with channels := g.channels.erase id } : NetworkGraph).adjacent n = g.adjacent n := rfl
    rw [hends, retainOthers_count, retainOthers_count, hadjacent]
    by_cases hi : id = i
    · subst hi
      by_cases hfirst : ch.node1 = n
      · simp [hfirst]
      · by_cases hsecond : ch.node2 = n
        · simp [hsecond]
        · have hnot : ¬ Endpoint g n id := by
            rintro ⟨ch', hch', hend⟩
            rw [Option.some.inj (hch.symm.trans hch')] at hfirst hsecond
            exact hend.elim hfirst hsecond
          simpa [hfirst, hsecond] using (h n id).2 hnot
    · simpa [hi] using h n i

/-- What a call does to the shape of the graph. -/
inductive Change (s : GossipRelay × NetworkGraph) (call : GraphCall) (g' : NetworkGraph) : Prop where
  | added (ch : GraphChannel) (base : NetworkGraph) (adds : call.added s = some ch) (shape : SameShape s.2 base)
      (channels : base.channels = s.2.channels) (h : g' = base.addChannel ch) : Change s call g'
  | removed (id : Bytes32) (adds : call.added s = none) (h : g' = s.2.removeChannel id) : Change s call g'
  | kept (adds : call.added s = none) (shape : SameShape s.2 g') : Change s call g'

theorem sameShape_refl (g : NetworkGraph) : SameShape g g := ⟨fun _ => rfl, fun _ _ => Iff.rfl⟩

theorem apply_change (s : GossipRelay × NetworkGraph) (call : GraphCall) :
    Change s call (call.apply fromUtf8Lossy s).2 := by
  cases call with
  | addNode node => exact .kept rfl (sameShape_addNode s.2 node)
  | addChannel channel => exact .added channel s.2 rfl (sameShape_refl s.2) rfl rfl
  | removeChannel id => exact .removed id rfl rfl
  | processMessage order msg =>
    cases msg with
    | channelAnnouncement m =>
      show Change s _ (processChannelAnnouncement s.1 order m s.2).2.2
      unfold processChannelAnnouncement
      by_cases hnew : (s.1.markSeen order (scidToBytes m.shortChannelId)).1 = true
      · simp only [hnew, not_true_eq_false, if_false]
        refine .added (announcedChannel m) ((s.2.addNode (blankNode m.nodeId1)).addNode (blankNode m.nodeId2)) ?_ ?_
          rfl rfl
        · simp [GraphCall.added, hnew]
        · exact (sameShape_addNode s.2 _).trans (sameShape_addNode _ _)
      · simp only [hnew]
        exact .kept (by simp [GraphCall.added, hnew]) (sameShape_refl s.2)
    | nodeAnnouncement m =>
      refine .kept rfl ?_
      show SameShape s.2 (processNodeAnnouncement fromUtf8Lossy s.1 m s.2).2.2
      unfold processNodeAnnouncement
      split
      next => exact sameShape_refl s.2
      next =>
        simp only
        split
        next =>
          split
          next => exact sameShape_refl s.2
          next => exact ⟨fun _ => rfl, fun _ _ => Iff.rfl⟩
        next => exact sameShape_addNode s.2 _
    | channelUpdate m =>
      refine .kept rfl ?_
      show SameShape s.2 (processChannelUpdate s.1 m s.2).2.2
      unfold processChannelUpdate
      split
      next => exact sameShape_refl s.2
      next =>
        simp only
        split
        next ch hch => exact sameShape_policy hch rfl rfl
        next => exact sameShape_refl s.2
    | other => exact .kept rfl (sameShape_refl s.2)

theorem consistent_apply_iff {s : GossipRelay × NetworkGraph} (h : Consistent s.2) (call : GraphCall) :
    Consistent (call.apply fromUtf8Lossy s).2 ↔ ∀ ch, call.added s = some ch → Fresh s.2 ch := by
  cases apply_change fromUtf8Lossy s call with
  | added ch base adds shape channels heq =>
    rw [heq, consistent_addChannel_iff (h.congr shape) ch, adds]
    simp [Fresh, channels]
  | removed id adds heq =>
    rw [heq, adds]
    simp [consistent_removeChannel h id]
  | kept adds shape =>
    rw [adds]
    simp [h.congr shape]

/-- The relay and the graph after a list of calls. -/
def graphAfter (relay : GossipRelay) (calls : List GraphCall) : GossipRelay × NetworkGraph :=
  calls.foldl (fun s call => call.apply fromUtf8Lossy s) (relay, .new)

theorem graphAfter_take_succ {relay : GossipRelay} {calls : List GraphCall} {k : ℕ} {call : GraphCall}
    (hcall : calls[k]? = some call) : graphAfter fromUtf8Lossy relay (calls.take (k + 1)) =
      call.apply fromUtf8Lossy (graphAfter fromUtf8Lossy relay (calls.take k)) := by
  unfold graphAfter
  rw [List.take_add_one, hcall, List.foldl_append]
  rfl

theorem consistent_iff_fresh (relay : GossipRelay) (calls : List GraphCall) :
    (∀ k, Consistent (graphAfter fromUtf8Lossy relay (calls.take k)).2) ↔
      ∀ k call ch, calls[k]? = some call →
        call.added (graphAfter fromUtf8Lossy relay (calls.take k)) = some ch →
        Fresh (graphAfter fromUtf8Lossy relay (calls.take k)).2 ch := by
  constructor
  · intro hall k call ch hcall hadds
    have hnext := hall (k + 1)
    rw [graphAfter_take_succ fromUtf8Lossy hcall] at hnext
    exact (consistent_apply_iff fromUtf8Lossy (hall k) call).mp hnext ch hadds
  · intro hfresh k
    induction k with
    | zero => exact consistent_new
    | succ k ih =>
      cases hcall : calls[k]? with
      | none =>
        rw [List.take_add_one, hcall]
        simpa using ih
      | some call =>
        rw [graphAfter_take_succ fromUtf8Lossy hcall]
        exact (consistent_apply_iff fromUtf8Lossy ih call).mpr fun ch hadds => hfresh k call ch hcall hadds

end Consistency

section Convergence

variable (fromUtf8Lossy : List UInt8 → List Char) {m : NodeAnnouncementMsg} {node : GraphNode}
  {ns : List NodeAnnouncementMsg}

/-- A message that counts: an announcement that is not a repetition, an update of a known channel or a
node announcement within the time filter. -/
inductive Heard where
  | announced (id : Bytes32)
  | updated (msg : ChannelUpdateMsg)
  | named (msg : NodeAnnouncementMsg)

/-- A relay with its graph, and what it has heard so far. -/
structure Listener where
  relay : GossipRelay
  graph : NetworkGraph
  log : List Heard

def Listener.new (relay : GossipRelay) : Listener := ⟨relay, .new, []⟩

def Listener.hears (s : Listener) (order : SetOrder) : LightningMessage → List Heard
  | .channelAnnouncement m =>
      let id := scidToBytes m.shortChannelId
      if (s.relay.markSeen order id).1 then [.announced id] else []
  | .channelUpdate m =>
      if s.relay.recent m.timestamp = true ∧ scidToBytes m.shortChannelId ∈ s.graph.channels then [.updated m] else []
  | .nodeAnnouncement m => if s.relay.recent m.timestamp then [.named m] else []
  | .other => []

def Listener.receive (s : Listener) (order : SetOrder) (msg : LightningMessage) : Listener :=
  let r := processMessage fromUtf8Lossy s.relay order msg s.graph
  ⟨r.2.1, r.2.2, s.log ++ s.hears order msg⟩

/-- The updates of a channel since its last announcement. -/
def updatesSince (id : Bytes32) (log : List Heard) : List ChannelUpdateMsg :=
  log.foldl (fun us x =>
    match x with
    | .announced i => if i = id then [] else us
    | .updated m => if scidToBytes m.shortChannelId = id then us ++ [m] else us
    | .named _ => us) []

/-- The announcements of a node. -/
def namesOf (key : NodeKey) (log : List Heard) : List NodeAnnouncementMsg :=
  log.filterMap fun x =>
    match x with
    | .named m => if hexEncode m.nodeId = key then some m else none
    | _ => none

/-- Fees, delta and flag of the channel are those of the update. -/
def HasPolicy (ch : GraphChannel) (msg : ChannelUpdateMsg) : Prop :=
  ch.feeBaseMsat = msg.feeBaseMsat ∧ ch.feeRateMillionths = msg.feeProportionalMillionths ∧
    ch.cltvDelta = msg.cltvExpiryDelta ∧ ch.enabled = decide (msg.channelFlags &&& 2 = 0)

/-- Fees, delta and flag are as announced. -/
def Unpriced (ch : GraphChannel) : Prop :=
  ch.feeBaseMsat = 0 ∧ ch.feeRateMillionths = 0 ∧ ch.cltvDelta = 0 ∧ ch.enabled = true

/-- Channels have the policy of their newest update, nodes the name of their newest announcement. -/
def Current (s : Listener) : Prop :=
  (∀ id ch, s.graph.channels.lookup id = some ch →
    (updatesSince id s.log = [] → Unpriced ch) ∧
    (updatesSince id s.log ≠ [] → ∃ u ∈ updatesSince id s.log,
      (∀ v ∈ updatesSince id s.log, v.timestamp ≤ u.timestamp) ∧ HasPolicy ch u)) ∧
  ∀ key node, s.graph.nodes.lookup key = some node →
    (namesOf key s.log = [] → node.nodeAlias = []) ∧
    (namesOf key s.log ≠ [] → ∃ m ∈ namesOf key s.log,
      (∀ m' ∈ namesOf key s.log, m'.timestamp ≤ m.timestamp) ∧
      node.nodeAlias = aliasText fromUtf8Lossy m.nodeAlias)

/-- The condition on a message: a channel is announced between nodes that have no name yet, an update is
not older than an earlier one since the announcement, and a node announcement has a timestamp. -/
def Timely (s : Listener) : LightningMessage → Prop
  | .channelAnnouncement m => ∀ id, id = m.nodeId1 ∨ id = m.nodeId2 →
      ∀ node, s.graph.nodes.lookup (hexEncode id) = some node → node = blankNode id
  | .channelUpdate m => ∀ u ∈ updatesSince (scidToBytes m.shortChannelId) s.log, u.timestamp ≤ m.timestamp
  | .nodeAnnouncement m => m.timestamp ≠ 0
  | .other => True

/-- Every message of the list is timely when it comes. -/
def AllTimely : Listener → List (SetOrder × LightningMessage) → Prop
  | _, [] => True
  | s, (order, msg) :: msgs => Timely s msg ∧ AllTimely (s.receive fromUtf8Lossy order msg) msgs

def listen (s : Listener) (msgs : List (SetOrder × LightningMessage)) : Listener :=
  msgs.foldl (fun s m => s.receive fromUtf8Lossy m.1 m.2) s

/-- The policy of a channel follows its last update, which is the newest one. -/
def PolicyFrom (ch : GraphChannel) (us : List ChannelUpdateMsg) : Prop :=
  (us = [] → Unpriced ch) ∧
    ∀ older u, us = older ++ [u] → (∀ v ∈ us, v.timestamp ≤ u.timestamp) ∧ HasPolicy ch u

/-- The entry of a node has the name and the time of its newest announcement. -/
def NameFrom (node : GraphNode) (ns : List NodeAnnouncementMsg) : Prop :=
  (ns = [] → node.nodeAlias = [] ∧ node.lastUpdate = 0) ∧
    (ns ≠ [] → ∃ m ∈ ns, m.timestamp.toUInt64 = node.lastUpdate ∧
      node.nodeAlias = aliasText fromUtf8Lossy m.nodeAlias) ∧
    ∀ m ∈ ns, m.timestamp.toUInt64 ≤ node.lastUpdate

structure Tracked (s : Listener) : Prop where
  channels : ∀ id ch, s.graph.channels.lookup id = some ch → PolicyFrom ch (updatesSince id s.log)
  nodes : ∀ key node, s.graph.nodes.lookup key = some node → NameFrom fromUtf8Lossy node (namesOf key s.log)
  unknown : ∀ key, s.graph.nodes.lookup key = none → namesOf key s.log = []

variable {fromUtf8Lossy} {s : Listener}

theorem updatesSince_append (id : Bytes32) (log : List Heard) (x : Heard) : updatesSince id (log ++ [x]) =
      match x with
      | .announced i => if i = id then [] else updatesSince id log
      | .updated m =>
          if scidToBytes m.shortChannelId = id then updatesSince id log ++ [m] else updatesSince id log
      | .named _ => updatesSince id log := by
  unfold updatesSince
  rw [List.foldl_append]
  rfl

theorem namesOf_append (key : NodeKey) (log : List Heard) (x : Heard) : namesOf key (log ++ [x]) = namesOf key log ++
      match x with
      | .named m => if hexEncode m.nodeId = key then [m] else []
      | _ => [] := by
  unfold namesOf
  rw [List.filterMap_append]
  congr 1
  cases x with
  | named m => by_cases hkey : hexEncode m.nodeId = key <;> simp [hkey]
  | announced => rfl
  | updated => rfl

theorem Tracked.current (h : Tracked fromUtf8Lossy s) : Current fromUtf8Lossy s := by
  refine ⟨fun id ch hch => ⟨(h.channels id ch hch).1, fun hne => ?_⟩, fun key node hnode => ⟨fun hnil => ?_, fun hne => ?_⟩⟩
  · have hlast := List.dropLast_append_getLast hne
    obtain ⟨hnewest, hpolicy⟩ := (h.channels id ch hch).2 _ _ hlast.symm
    exact ⟨_, List.getLast_mem hne, hnewest, hpolicy⟩
  · exact ((h.nodes key node hnode).1 hnil).1
  · obtain ⟨-, hname, hnewest⟩ := h.nodes key node hnode
    obtain ⟨m, hm, htime, halias⟩ := hname hne
    refine ⟨m, hm, fun m' hm' => ?_, halias⟩
    have hle := hnewest m' hm'
    rw [← htime, UInt64.le_iff_toNat_le] at hle
    rw [UInt32.le_iff_toNat_le]
    simpa using hle

theorem tracked_new (relay : GossipRelay) : Tracked fromUtf8Lossy (.new relay) := by
  refine ⟨?_, ?_, fun _ _ => rfl⟩
  · intro id ch hch
    simp [Listener.new, NetworkGraph.new] at hch
  · intro key node hnode
    simp [Listener.new, NetworkGraph.new] at hnode

theorem Tracked.congr (h : Tracked fromUtf8Lossy s) (relay : GossipRelay) :
    Tracked fromUtf8Lossy ⟨relay, s.graph, s.log ++ []⟩ := by
  rw [List.append_nil]
  exact ⟨h.channels, h.nodes, h.unknown⟩

theorem nameFrom_blank (nodeId : List UInt8) : NameFrom fromUtf8Lossy (blankNode nodeId) [] := by
  simp [NameFrom, blankNode]

/-- An announcement resets the policy of its channel; its nodes had nothing to lose. -/
theorem Tracked.announced (h : Tracked fromUtf8Lossy s) {m : ChannelAnnouncementMsg}
    (htimely : Timely s (.channelAnnouncement m)) (relay : GossipRelay) :
    Tracked fromUtf8Lossy ⟨relay, ((s.graph.addNode (blankNode m.nodeId1)).addNode
      (blankNode m.nodeId2)).addChannel (announcedChannel m),
      s.log ++ [.announced (scidToBytes m.shortChannelId)]⟩ := by
  have hblank : ∀ id, id = m.nodeId1 ∨ id = m.nodeId2 →
      NameFrom fromUtf8Lossy (blankNode id) (namesOf (hexEncode id) s.log) := by
    intro id hid
    cases hnode : s.graph.nodes.lookup (hexEncode id) with
    | none =>
      rw [h.unknown _ hnode]
      exact nameFrom_blank id
    | some node => exact htimely id hid node hnode ▸ h.nodes _ node hnode
  have hlookup : ∀ key, (((s.graph.addNode (blankNode m.nodeId1)).addNode (blankNode m.nodeId2)).addChannel
      (announcedChannel m)).nodes.lookup key =
        if key = hexEncode m.nodeId2 then some (blankNode m.nodeId2)
        else if key = hexEncode m.nodeId1 then some (blankNode m.nodeId1) else s.graph.nodes.lookup key := by
    intro key
    show ((s.graph.nodes.insert _ _).insert _ _).lookup key = _
    rw [lookup_insert_eq, lookup_insert_eq]
    rfl
  refine ⟨?_, ?_, ?_⟩
  · intro id ch hch
    change (s.graph.channels.insert (scidToBytes m.shortChannelId) (announcedChannel m)).lookup id = some ch at hch
    rw [lookup_insert_eq] at hch
    simp only [updatesSince_append]
    by_cases hid : id = scidToBytes m.shortChannelId
    · rw [if_pos hid] at hch
      rw [if_pos hid.symm, ← Option.some.inj hch]
      exact ⟨fun _ => ⟨rfl, rfl, rfl, rfl⟩, by simp⟩
    · rw [if_neg hid] at hch
      rw [if_neg (Ne.symm hid)]
      exact h.channels id ch hch
  · intro key node hnode
    rw [hlookup] at hnode
    simp only [namesOf_append, List.append_nil]
    split at hnode
    next hkey =>
      rw [← Option.some.inj hnode, hkey]
      exact hblank _ (.inr rfl)
    next =>
      split at hnode
      next hkey =>
        rw [← Option.some.inj hnode, hkey]
        exact hblank _ (.inl rfl)
      next => exact h.nodes key node hnode
  · intro key hnode
    rw [hlookup] at hnode
    simp only [namesOf_append, List.append_nil]
    split at hnode
    next => cases hnode
    next =>
      split at hnode
      next => cases hnode
      next => exact h.unknown key hnode

theorem Tracked.updated (h : Tracked fromUtf8Lossy s) {m : ChannelUpdateMsg} (htimely : Timely s (.channelUpdate m))
    {ch : GraphChannel} : Tracked fromUtf8Lossy ⟨s.relay, { s.graph with
      channels := s.graph.channels.insert (scidToBytes m.shortChannelId) (ch.withPolicy m) },
      s.log ++ [.updated m]⟩ := by
  refine ⟨?_, ?_, ?_⟩
  · intro id ch' hch
    simp only [lookup_insert_eq] at hch
    simp only [updatesSince_append]
    by_cases hid : id = scidToBytes m.shortChannelId
    · subst hid
      rw [if_pos rfl] at hch
      rw [if_pos rfl, ← Option.some.inj hch]
      refine ⟨by simp, fun older u heq => ?_⟩
      obtain rfl : m = u := List.singleton_inj.mp (List.append_inj_right' heq rfl)
      refine ⟨fun v hv => ?_, rfl, rfl, rfl, rfl⟩
      rcases List.mem_append.mp hv with hv | hv
      · exact htimely v hv
      · rw [List.mem_singleton.mp hv]
        exact UInt32.le_refl _
    · rw [if_neg hid] at hch
      rw [if_neg (Ne.symm hid)]
      exact h.channels id ch' hch
  · intro key node hnode
    simp only [namesOf_append, List.append_nil]
    exact h.nodes key node hnode
  · intro key hnode
    simp only [namesOf_append, List.append_nil]
    exact h.unknown key hnode

theorem NameFrom.older (h : NameFrom fromUtf8Lossy node ns) (hpos : m.timestamp ≠ 0)
    (hle : m.timestamp.toUInt64 ≤ node.lastUpdate) : NameFrom fromUtf8Lossy node (ns ++ [m]) := by
  obtain ⟨hnil, hname, hnewest⟩ := h
  refine ⟨by simp, fun _ => ?_, fun m' hm' => ?_⟩
  · have hne : ns ≠ [] := by
      intro heq
      rw [(hnil heq).2, UInt64.le_iff_toNat_le] at hle
      apply hpos
      rw [← UInt32.toNat_inj]
      simpa using hle
    obtain ⟨m', hm', htime, halias⟩ := hname hne
    exact ⟨m', List.mem_append_left _ hm', htime, halias⟩
  · rcases List.mem_append.mp hm' with hm' | hm'
    · exact hnewest m' hm'
    · rw [List.mem_singleton.mp hm']
      exact hle

theorem NameFrom.newer (h : NameFrom fromUtf8Lossy node ns) (hlt : ¬ m.timestamp.toUInt64 ≤ node.lastUpdate) :
    NameFrom fromUtf8Lossy { node with
      nodeAlias := aliasText fromUtf8Lossy m.nodeAlias
      lastUpdate := m.timestamp.toUInt64 } (ns ++ [m]) := by
  refine ⟨by simp, fun _ => ⟨m, by simp, rfl, rfl⟩, fun m' hm' => ?_⟩
  rcases List.mem_append.mp hm' with hm' | hm'
  · have hold := h.2.2 m' hm'
    rw [UInt64.le_iff_toNat_le] at hold hlt ⊢
    simp only at hold ⊢
    omega
  · rw [List.mem_singleton.mp hm']
    exact UInt64.le_refl _

theorem Tracked.named (h : Tracked fromUtf8Lossy s) {m : NodeAnnouncementMsg} {g' : NetworkGraph} {node : GraphNode}
    (hnode : NameFrom fromUtf8Lossy node (namesOf (hexEncode m.nodeId) s.log ++ [m]))
    (hchannels : g'.channels = s.graph.channels) (hnodes : ∀ key, g'.nodes.lookup key =
      if key = hexEncode m.nodeId then some node else s.graph.nodes.lookup key) :
    Tracked fromUtf8Lossy ⟨s.relay, g', s.log ++ [.named m]⟩ := by
  refine ⟨?_, ?_, ?_⟩
  · intro id ch hch
    simp only [hchannels] at hch
    simp only [updatesSince_append]
    exact h.channels id ch hch
  · intro key node' hnode'
    simp only [hnodes] at hnode'
    simp only [namesOf_append]
    by_cases hkey : key = hexEncode m.nodeId
    · subst hkey
      rw [if_pos rfl] at hnode'
      rw [if_pos rfl, ← Option.some.inj hnode']
      exact hnode
    · rw [if_neg hkey] at hnode'
      rw [if_neg (Ne.symm hkey), List.append_nil]
      exact h.nodes key node' hnode'
  · intro key hnone
    simp only [hnodes] at hnone
    simp only [namesOf_append]
    by_cases hkey : key = hexEncode m.nodeId
    · rw [if_pos hkey] at hnone
      cases hnone
    · rw [if_neg hkey] at hnone
      rw [if_neg (Ne.symm hkey), List.append_nil]
      exact h.unknown key hnone

theorem Tracked.receive (h : Tracked fromUtf8Lossy s) {msg : LightningMessage} (htimely : Timely s msg)
    (order : SetOrder) : Tracked fromUtf8Lossy (s.receive fromUtf8Lossy order msg) := by
  unfold Listener.receive
  cases msg with
  | channelAnnouncement m =>
    by_cases hnew : (s.relay.markSeen order (scidToBytes m.shortChannelId)).1 = true
    · simp only [processMessage, processChannelAnnouncement, Listener.hears, hnew, not_true_eq_false, if_false,
        if_true]
      exact h.announced htimely _
    · simp only [processMessage, processChannelAnnouncement, Listener.hears, hnew]
      exact h.congr _
  | channelUpdate m =>
    by_cases hrecent : s.relay.recent m.timestamp = true
    · cases hch : s.graph.channels.lookup (scidToBytes m.shortChannelId) with
      | none =>
        have hnot : scidToBytes m.shortChannelId ∉ s.graph.channels := by
          rw [mem_iff_lookup, hch]
          simp
        simp only [processMessage, processChannelUpdate, Listener.hears, hrecent, hch, hnot, and_false,
          not_true_eq_false, if_false]
        exact h.congr _
      | some ch =>
        have hmem : scidToBytes m.shortChannelId ∈ s.graph.channels := (mem_iff_lookup _ _).mpr ⟨ch, hch⟩
        simp only [processMessage, processChannelUpdate, Listener.hears, hrecent, hch, hmem, and_self,
          not_true_eq_false, if_false, if_true]
        exact h.updated htimely
    · simp only [processMessage, processChannelUpdate, Listener.hears, hrecent]
      exact h.congr _
  | nodeAnnouncement m =>
    by_cases hrecent : s.relay.recent m.timestamp = true
    · cases hnode : s.graph.nodes.lookup (hexEncode m.nodeId) with
      | none =>
        simp only [processMessage, processNodeAnnouncement, Listener.hears, hrecent, hnode, not_true_eq_false,
          if_false, if_true]
        refine @Tracked.named fromUtf8Lossy s h m _
          ⟨hexEncode m.nodeId, aliasText fromUtf8Lossy m.nodeAlias, [], m.timestamp.toUInt64⟩ ?_ rfl fun key => ?_
        · rw [h.unknown _ hnode]
          exact ⟨by simp, fun _ => ⟨m, by simp, rfl, rfl⟩, by simp⟩
        · exact lookup_insert_eq _ _ _ _
      | some node =>
        by_cases hle : m.timestamp.toUInt64 ≤ node.lastUpdate
        · simp only [processMessage, processNodeAnnouncement, Listener.hears, hrecent, hnode, hle,
            not_true_eq_false, if_false, if_true]
          refine h.named ((h.nodes _ node hnode).older htimely hle) rfl fun key => ?_
          split
          next hkey => rw [hkey, hnode]
          next => rfl
        · simp only [processMessage, processNodeAnnouncement, Listener.hears, hrecent, hnode, hle,
            not_true_eq_false, if_false, if_true]
          exact h.named ((h.nodes _ node hnode).newer hle) rfl fun key => lookup_insert_eq _ _ _ _
    · simp only [processMessage, processNodeAnnouncement, Listener.hears, hrecent]
      exact h.congr _
  | other => exact h.congr _

theorem Tracked.listen (h : Tracked fromUtf8Lossy s) {msgs : List (SetOrder × LightningMessage)}
    (htimely : AllTimely fromUtf8Lossy s msgs) : Tracked fromUtf8Lossy (listen fromUtf8Lossy s msgs) := by
  induction msgs generalizing s with
  | nil => exact h
  | cons m msgs ih =>
    obtain ⟨hfirst, hrest⟩ := htimely
    exact ih (h.receive hfirst m.1) hrest

/-- The lists of the nodes are right after every call exactly when every channel that was added was fresh;
and timely gossip leaves every channel and node with its newest data. -/
theorem graph_and_gossip_agree (fromUtf8Lossy : List UInt8 → List Char) (relay : GossipRelay) :
    (∀ calls : List GraphCall, (∀ k, Consistent (graphAfter fromUtf8Lossy relay (calls.take k)).2) ↔
      ∀ (k : ℕ) (call : GraphCall) (ch : GraphChannel), calls[k]? = some call →
        call.added (graphAfter fromUtf8Lossy relay (calls.take k)) = some ch →
        Fresh (graphAfter fromUtf8Lossy relay (calls.take k)).2 ch) ∧
    ∀ msgs, AllTimely fromUtf8Lossy (.new relay) msgs →
      Current fromUtf8Lossy (listen fromUtf8Lossy (.new relay) msgs) :=
  ⟨fun calls => consistent_iff_fresh fromUtf8Lossy relay calls,
    fun _ htimely => ((tracked_new relay).listen htimely).current⟩

end Convergence

section Samples

/-- Any order of the elements will do here. -/
noncomputable def someOrder : SetOrder := ⟨Finset.toList, fun s => ⟨s.nodup_toList, s.toList_toFinset⟩⟩

/-- Texts of single bytes. -/
def asciiText (bytes : List UInt8) : List Char := bytes.map fun b => Char.ofNat b.toNat

def smallChannel : GraphChannel := ⟨Bytes32.zero, ['a'], ['b'], 1000, 0, 0, 0, true⟩

def firstAnnouncement : ChannelAnnouncementMsg := ⟨1, [0xaa], [0xbb]⟩

def updateAt (timestamp fee : UInt32) : ChannelUpdateMsg := ⟨1, timestamp, 0, 40, fee, 50⟩

noncomputable def lateUpdate : List (SetOrder × LightningMessage) :=
  [(someOrder, .channelAnnouncement firstAnnouncement), (someOrder, .channelUpdate (updateAt 2000000 100)),
    (someOrder, .channelUpdate (updateAt 1999000 7))]

noncomputable def renamedNode : List (SetOrder × LightningMessage) :=
  [(someOrder, .nodeAnnouncement ⟨2000000, [0xaa], [0x41]⟩), (someOrder, .channelAnnouncement firstAnnouncement)]

/-- An update replaces an older one, and a name is not replaced by an older one. -/
noncomputable def timelyGossip : List (SetOrder × LightningMessage) :=
  [(someOrder, .channelAnnouncement firstAnnouncement), (someOrder, .channelUpdate (updateAt 1999000 7)),
    (someOrder, .nodeAnnouncement ⟨2000000, [0xaa], [0x41]⟩), (someOrder, .channelUpdate (updateAt 2000000 100)),
    (someOrder, .nodeAnnouncement ⟨1999000, [0xaa], [0x42]⟩)]

theorem timely_gossip_agrees : Current asciiText (listen asciiText (.new (.new 2500000)) timelyGossip) ∧
      ((listen asciiText (.new (.new 2500000)) timelyGossip).graph.channels.lookup (scidToBytes 1)).map
        GraphChannel.feeBaseMsat = some 100 ∧
      ((listen asciiText (.new (.new 2500000)) timelyGossip).graph.nodes.lookup (hexEncode [0xaa])).map
        GraphNode.nodeAlias = some ['A'] := by
  refine ⟨(graph_and_gossip_agree asciiText (.new 2500000)).2 _ ?_, by decide +kernel, by decide +kernel⟩
  refine ⟨?_, ?_, ?_, ?_, ?_, trivial⟩
  · intro id _ node hnode
    cases hnode
  · show ∀ u ∈ updatesSince _ _, _
    decide +kernel
  · show _ ≠ _
    decide
  · show ∀ u ∈ updatesSince _ _, _
    decide +kernel
  · show _ ≠ _
    decide

theorem added_twice_inconsistent : ¬ Consistent (graphAfter asciiText (.new 2500000)
    [.addChannel smallChannel, .addChannel smallChannel]).2 := by
  intro h
  have hcount := (h ['a'] Bytes32.zero).1 ⟨smallChannel, by decide +kernel, .inl rfl⟩
  exact absurd hcount (by decide +kernel)

theorem late_update_wins : ¬ Current asciiText (listen asciiText (.new (.new 2500000)) lateUpdate) := by
  rintro ⟨hchannels, -⟩
  have hlog : updatesSince (scidToBytes 1) (listen asciiText (.new (.new 2500000)) lateUpdate).log =
      [updateAt 2000000 100, updateAt 1999000 7] := by decide +kernel
  have hch : (listen asciiText (.new (.new 2500000)) lateUpdate).graph.channels.lookup (scidToBytes 1) =
      some ((announcedChannel firstAnnouncement).withPolicy (updateAt 1999000 7)) := by decide +kernel
  obtain ⟨-, hnewest⟩ := hchannels _ _ hch
  rw [hlog] at hnewest
  obtain ⟨u, hu, hmax, hpolicy⟩ := hnewest (by simp)
  rcases List.mem_cons.mp hu with rfl | hu
  · exact absurd hpolicy.1 (by decide)
  · rw [List.mem_singleton.mp hu] at hmax
    exact absurd (hmax _ List.mem_cons_self) (by decide)

theorem announcement_erases_name : ¬ Current asciiText (listen asciiText (.new (.new 2500000)) renamedNode) := by
  rintro ⟨-, hnodes⟩
  have hlog : namesOf (hexEncode [0xaa]) (listen asciiText (.new (.new 2500000)) renamedNode).log =
      [⟨2000000, [0xaa], [0x41]⟩] := by decide +kernel
  have hnode : (listen asciiText (.new (.new 2500000)) renamedNode).graph.nodes.lookup (hexEncode [0xaa]) =
      some (blankNode [0xaa]) := by decide +kernel
  obtain ⟨-, hname⟩ := hnodes _ _ hnode
  rw [hlog] at hname
  obtain ⟨m, hm, -, halias⟩ := hname (by simp)
  rw [List.mem_singleton.mp hm] at halias
  exact absurd halias (by decide)

/-- The graph can lose its consistency, and gossip its order. -/
theorem graph_and_gossip_fail :
    ¬ Consistent (graphAfter asciiText (.new 2500000) [.addChannel smallChannel, .addChannel smallChannel]).2 ∧
      ¬ Current asciiText (listen asciiText (.new (.new 2500000)) lateUpdate) ∧
      ¬ Current asciiText (listen asciiText (.new (.new 2500000)) renamedNode) :=
  ⟨added_twice_inconsistent, late_update_wins, announcement_erases_name⟩

end Samples

end KuberCoin.GossipGraphs
