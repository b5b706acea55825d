import KuberCoin.Greetings
import KuberCoin.Relays

/-!
The sync state of a server (`network/server.rs`), which the handlers of `Verack` and `Headers` read and write
while the handlers of other peers run. A handler reads the state under one lock and writes it under
another, and looks up each header by itself, so that a step here is one such access.

`Synced` is entered from `HeaderSync` only. A `Headers` message that names a block which the node lacks
moves `HeaderSync` to `BlockSync`, and nothing moves it from there.
-/
namespace KuberCoin.SyncStates

open Bytes Maps Transactions Blocks NodeStates NodeStates.NodeState AddBlock Mempools Handlers Peers PeerManagers
  SessionRegistries Servers Handshakes Greetings

section Data

/-- Where the handler of a session stands: a `Verack` before the comparison of the heights, before it
reads the sync state, or before it sets it; the same for an empty `Headers` message; or in the loop
over headers, before it reads the sync state, before it sets it, and before it asks for the blocks. -/
inductive Doing where
  | verack
  | verackReads
  | verackSets
  | emptyReads
  | emptySets
  | checking (prev : Bytes32) (requests : List Bytes32) (rest headers : List BlockHeader)
  | headersReads (requests : List Bytes32) (headers : List BlockHeader)
  | headersSets (requests : List Bytes32) (headers : List BlockHeader)
  | asking (requests : List Bytes32) (headers : List BlockHeader)

/-- A session, and what its handler is doing, if it is in one that reads the sync state. -/
structure Station where
  addr : SocketAddr
  dir : Direction
  doing : Option Doing

/-- A server with its sessions. Recorded are the blocks that were requested after `Headers` messages,
the blocks that were accepted, and the last `Headers` message from each peer. -/
structure Syncing where
  server : Server
  stations : Map ℕ Station
  requested : List Bytes32
  accepted : List Bytes32
  lastHeaders : Map ℕ (List BlockHeader)

/-- The steps: a session begins or ends, its next message arrives, its handler goes on, or
something else changes the chain, the pool or the peers. -/
inductive SyncStep where
  | connect (id : ℕ) (addr : SocketAddr) (dir : Direction)
  | receive (id : ℕ) (m : Message)
  | advance (id : ℕ)
  | disconnect (id : ℕ)
  | work (node : NodeState) (mempool : Mempool) (orphans : OrphanTxs) (peers : PeerManager)

end Data

section Steps

variable (cx : Context) (rates : FeeRates)

namespace Syncing

def isIbd (n : Syncing) : Bool := n.server.app.syncState ≠ .synced

def put (n : Syncing) (id : ℕ) (st : Station) (doing : Option Doing) : Syncing :=
  { n with stations := n.stations.insert id { st with doing := doing } }

def withPeers (n : Syncing) (peers : PeerManager) : Syncing :=
  { n with server := { n.server with peers := peers } }

def setSyncState (n : Syncing) (state : SyncState) : Syncing := { n with server := n.server.setSyncState state }

/-- The handler of a `Headers` message is done. -/
def finish (n : Syncing) (id : ℕ) (st : Station) (headers : List BlockHeader) : Syncing :=
  { n.put id st none with lastHeaders := n.lastHeaders.insert id headers }

/-- The headers do not connect: points, and a ban ends the session. -/
def disconnected (n : Syncing) (arrival : Arrival) (id : ℕ) (st : Station) (headers : List BlockHeader) :
    Syncing :=
  let o := n.server.penalise arrival st.addr 10 "protocol violation"
  let n := { n with server := o.server }
  if o.closed then
    { n with stations := n.stations.erase id, lastHeaders := n.lastHeaders.insert id headers }
  else n.finish id st headers

/-- The next access of a handler. -/
def advance (n : Syncing) (arrival : Arrival) (id : ℕ) (st : Station) : Doing → Syncing
  | .verack =>
      if n.server.app.node.height < (peerHeight n.server.peers st.addr).getD 0 then n.put id st none
      else n.put id st (some .verackReads)
  | .verackReads =>
      if n.server.app.syncState = .headerSync then n.put id st (some .verackSets) else n.put id st none
  | .verackSets => (n.setSyncState .synced).put id st none
  | .emptyReads =>
      if n.server.app.syncState = .headerSync then n.put id st (some .emptySets) else n.finish id st []
  | .emptySets => (n.setSyncState .synced).finish id st []
  | .checking _ requests [] headers =>
      if requests = [] then n.finish id st headers else n.put id st (some (.headersReads requests headers))
  | .checking prev requests (hdr :: rest) headers =>
      match checkHeader cx.sha256 n.server.app.node (prev, requests) hdr with
      | none => n.disconnected arrival id st headers
      | some (prev, requests) => n.put id st (some (.checking prev requests rest headers))
  | .headersReads requests headers =>
      if n.server.app.syncState = .headerSync then n.put id st (some (.headersSets requests headers))
      else n.put id st (some (.asking requests headers))
  | .headersSets requests headers =>
      (n.setSyncState .blockSync).put id st (some (.asking requests headers))
  | .asking requests headers =>
      { n.finish id st headers with requested := n.requested ++ requests }

/-- A message that is handled: `Verack` and `Headers` step by step, the others at once. A block whose handler
runs out of fuel is not taken. -/
def handle (n : Syncing) (arrival : Arrival) (id : ℕ) (st : Station) : Message → Syncing
  | .verack =>
      (n.withPeers (setHandshake n.server.peers st.addr .ready)).put id st (some .verack)
  | .headers [] => n.put id st (some .emptyReads)
  | .headers (hdr :: rest) =>
      n.put id st (some (.checking n.server.app.node.tip [] (hdr :: rest) (hdr :: rest)))
  | m =>
      match n.server.handleMessage cx rates arrival st.addr st.dir m with
      | none => n
      | some o =>
          { n with
            server := o.server
            accepted := n.accepted ++ o.announced.map (Block.hash cx.sha256)
            stations := if o.closed then n.stations.erase id else n.stations }

/-- A message over the limit is dropped and costs 20 points. -/
def dropped (n : Syncing) (arrival : Arrival) (id : ℕ) (st : Station) (m : Message) : Syncing :=
  let o := n.server.penalise arrival st.addr 20 "message rate limit exceeded"
  { n with
    server := o.server
    stations := if o.closed then n.stations.erase id else n.stations
    lastHeaders := match m with
      | .headers headers => n.lastHeaders.insert id headers
      | _ => n.lastHeaders }

/-- One round of `read_loop`, when the handler of the message before is done. -/
def receive (n : Syncing) (arrival : Arrival) (id : ℕ) (st : Station) (m : Message) : Syncing :=
  if st.doing.isSome then n
  else
    let (exceeded, peers) := checkRateLimit n.server.peers arrival.clock st.addr
    let n := n.withPeers peers
    if exceeded then n.dropped arrival id st m else n.handle cx rates arrival id st m

end Syncing

def SyncStep.apply (n : Syncing) (arrival : Arrival) : SyncStep → Syncing
  | .connect id addr dir =>
      if id ∈ n.stations then n else { n with stations := n.stations.insert id ⟨addr, dir, none⟩ }
  | .receive id m => (n.stations.lookup id).elim n fun st => n.receive cx rates arrival id st m
  | .advance id =>
      (n.stations.lookup id).elim n fun st => st.doing.elim n fun doing => n.advance cx arrival id st doing
  | .disconnect id => { n with stations := n.stations.erase id }
  | .work node mempool orphans peers =>
      { n with
        server := { n.server with
          app := { n.server.app with node := node, mempool := mempool, orphans := orphans }
          peers := peers } }

def runSync (n : Syncing) (steps : List (Arrival × SyncStep)) : Syncing :=
  steps.foldl (fun n step => step.2.apply cx rates n step.1) n

/-- A server as `P2PServer::new` leaves it. -/
def Syncing.new (s : Server) : Syncing := ⟨s.setSyncState .headerSync, ∅, [], [], ∅⟩

end Steps

section Statements

/-- If every block that was requested has been accepted and the last `Headers` message of a peer was not
a full one, the initial download is over. -/
def Ended (n : Syncing) : Prop :=
  (∀ h ∈ n.requested, h ∈ n.accepted) → ∀ id headers, n.lastHeaders.lookup id = some headers →
    headers.length < maxHeadersPerMsg → n.server.app.syncState = .synced ∧ n.isIbd = false

/-- The next access of a handler is not one of those that go wrong in `HeaderSync`: to find that blocks are
missing, or to end with headers that are neither none nor a full batch. -/
def Doing.Careful (sha256 : Sha256) (n : Syncing) : Doing → Prop
  | .headersReads _ _ => n.server.app.syncState ≠ .headerSync
  | .checking _ [] [] headers => headers.length < maxHeadersPerMsg → n.server.app.syncState ≠ .headerSync
  | .checking prev requests (hdr :: _) headers =>
      checkHeader sha256 n.server.app.node (prev, requests) hdr = none →
        headers.length < maxHeadersPerMsg → n.server.app.syncState ≠ .headerSync
  | _ => True

/-- A `Headers` message that is not a full one. -/
def shortHeaders : Message → Bool
  | .headers headers => headers.length < maxHeadersPerMsg
  | _ => false

/-- In `HeaderSync` no `Headers` message is found to name a block that the node lacks, and none that is
neither empty nor full is handled to its end; none but a full one is dropped by the rate limit. -/
def SyncStep.Careful (sha256 : Sha256) (n : Syncing) (arrival : Arrival) : SyncStep → Prop
  | .receive id m => ∀ st, n.stations.lookup id = some st → st.doing = none →
      (checkRateLimit n.server.peers arrival.clock st.addr).1 = true → shortHeaders m = true →
      n.server.app.syncState ≠ .headerSync
  | .advance id => ∀ st, n.stations.lookup id = some st → ∀ doing, st.doing = some doing →
      doing.Careful sha256 n
  | _ => True

def AlwaysCareful (cx : Context) (rates : FeeRates) : Syncing → List (Arrival × SyncStep) → Prop
  | _, [] => True
  | n, step :: rest =>
      step.2.Careful cx.sha256 n step.1 ∧ AlwaysCareful cx rates (step.2.apply cx rates n step.1) rest

end Statements

section Handlers

variable {cx : Context} {rates : FeeRates} {s : Server} {arrival : Arrival} {addr : SocketAddr} {dir : Direction}
  {m : Message} {o : Response}

theorem reply_app (s : Server) (arrival : Arrival) (messages : List Message) :
    (s.reply arrival messages).server.app = s.app := by rw [reply_server]

theorem blockMsg_syncState {a : App} {b : Block} {sur : Surroundings} {r : Handled} (h : blockMsg cx sur a b = some r) :
    r.app.syncState = a.syncState := by
  unfold blockMsg at h
  split at h
  · rw [← Option.some.inj h]
    rfl
  · split at h
    · rw [← Option.some.inj h]
      rfl
    · obtain ⟨⟨a', result⟩, haccept, rfl⟩ := Option.map_eq_some_iff.mp h
      obtain ⟨added, -, hadded⟩ := Option.map_eq_some_iff.mp haccept
      have hsame : a'.syncState = a.syncState := by
        rw [← congrArg (fun r => r.1.syncState) hadded]
        simp only
        split <;> rfl
      cases result <;> exact hsame

theorem settle_syncState (s : Server) (h : Handled) :
    (s.settle arrival addr h).server.app.syncState = h.app.syncState := by
  unfold Server.settle
  simp only
  split <;> rfl

theorem handleMessage_syncState (hverack : m ≠ .verack) (hheaders : ∀ headers, m ≠ .headers headers)
    (h : s.handleMessage cx rates arrival addr dir m = some o) : o.server.app.syncState = s.app.syncState := by
  cases m with
  | verack => exact absurd rfl hverack
  | headers headers => exact absurd rfl (hheaders headers)
  | version v =>
    rw [← Option.some.inj h]
    show (s.onVersion arrival addr dir v).server.app.syncState = _
    unfold Server.onVersion
    split
    · simp only
      split
      · split
        · rw [reply_app]
        · rfl
      · rw [reply_app]
    · rfl
  | blockMsg b =>
    obtain ⟨r, hr, rfl⟩ := Option.map_eq_some_iff.mp h
    rw [settle_syncState]
    exact blockMsg_syncState hr
  | txMsg tx =>
    rw [← Option.some.inj h, settle_syncState]
    exact @Relays.txMsg_keeps cx rates (fun a => a.syncState = s.app.syncState) (fun _ _ ha => ha)
      (fun _ _ _ ha _ => ha) arrival.sur _ s.app rfl tx
  | addr entries =>
    rw [← Option.some.inj h]
    show (s.onAddr arrival addr entries).server.app.syncState = _
    unfold Server.onAddr
    split
    · rfl
    · split <;> rfl
  | inv items =>
    rw [← Option.some.inj h]
    show (s.onInv arrival addr items).server.app.syncState = _
    unfold Server.onInv
    split
    · rfl
    · rw [reply_app]
  | getData items =>
    rw [← Option.some.inj h]
    show (s.onGetData arrival addr items).server.app.syncState = _
    unfold Server.onGetData
    split
    · rfl
    · rw [reply_app]
  | cmpctBlock compact =>
    rw [← Option.some.inj h]
    show (s.onCmpctBlock cx.sha256 arrival compact).server.app.syncState = _
    unfold Server.onCmpctBlock
    simp only
    split
    · rfl
    · split <;> rw [reply_app]
  | getBlockTxn blockhash indices =>
    rw [← Option.some.inj h]
    show (s.onGetBlockTxn arrival blockhash indices).server.app.syncState = _
    unfold Server.onGetBlockTxn
    split
    · rfl
    · rw [reply_app]
  | blockTxn blockhash transactions =>
    rw [← Option.some.inj h]
    show (s.onBlockTxn arrival blockhash).server.app.syncState = _
    unfold Server.onBlockTxn
    split
    · rw [reply_app]
    · rfl
  | getAddr | ping nonce | getBlocks locator stopHash | getHeaders locator stopHash =>
    rw [← Option.some.inj h, reply_app]
  | sendHeaders | pong | notFound | reject | sendCmpct | feeFilter | wtxidRelay | sendAddrV2 | addrV2 =>
    rw [← Option.some.inj h]
    rfl

end Handlers

section Invariant

variable {cx : Context} {rates : FeeRates} {n : Syncing} {arrival : Arrival} {id : ℕ} {st : Station}
  {doing : Option Doing} {id' : ℕ} {headers : List BlockHeader}

/-- What a handler may be doing: it never sets `BlockSync`, and it asks for blocks in `Synced` only. -/
def Doing.Allowed (state : SyncState) : Doing → Prop
  | .headersSets _ _ => False
  | .asking _ _ => state = .synced
  | _ => True

/-- `BlockSync` is not entered, and a `Headers` message that was not a full one has left `Synced`. -/
structure Steady (n : Syncing) : Prop where
  notBlockSync : n.server.app.syncState ≠ .blockSync
  doing : ∀ id st doing, n.stations.lookup id = some st → st.doing = some doing →
    doing.Allowed n.server.app.syncState
  heard : ∀ id headers, n.lastHeaders.lookup id = some headers → headers.length < maxHeadersPerMsg →
    n.server.app.syncState = .synced

theorem Steady.ended (h : Steady n) : Ended n := by
  intro _ id headers hlook hshort
  have hsynced := h.heard id headers hlook hshort
  exact ⟨hsynced, by simp [Syncing.isIbd, hsynced]⟩

theorem Steady.synced_of_ne (h : Steady n) (hne : n.server.app.syncState ≠ .headerSync) :
    n.server.app.syncState = .synced := by
  cases hstate : n.server.app.syncState with
  | headerSync => exact absurd hstate hne
  | blockSync => exact absurd hstate h.notBlockSync
  | synced => rfl

theorem Doing.Allowed.synced {doing : Doing} {state : SyncState} (h : doing.Allowed state) : doing.Allowed .synced := by
  cases doing <;> first | exact h | exact rfl

/-- The sync state stays, or becomes `Synced`; a session may go, and one handler may go on. -/
theorem Steady.step {n' : Syncing} (h : Steady n)
    (hstate : n'.server.app.syncState = n.server.app.syncState ∨ n'.server.app.syncState = .synced)
    (hdoing : ∀ id st doing, n'.stations.lookup id = some st → st.doing = some doing →
      (∃ st', n.stations.lookup id = some st' ∧ st'.doing = some doing) ∨
        doing.Allowed n'.server.app.syncState) (hheard : ∀ id headers, n'.lastHeaders.lookup id = some headers →
      n.lastHeaders.lookup id = some headers ∨
        (headers.length < maxHeadersPerMsg → n'.server.app.syncState = .synced)) : Steady n' where
  notBlockSync := by
    rcases hstate with hsame | hsynced
    · rw [hsame]
      exact h.notBlockSync
    · rw [hsynced]
      exact fun hcontra => by cases hcontra
  doing id st doing hlook hdo := by
    rcases hdoing id st doing hlook hdo with ⟨st', hlook', hdo'⟩ | hallowed
    · have hold := h.doing id st' doing hlook' hdo'
      rcases hstate with hsame | hsynced
      · rw [hsame]
        exact hold
      · rw [hsynced]
        exact hold.synced
    · exact hallowed
  heard id headers hlook hshort := by
    rcases hheard id headers hlook with hold | hnew
    · rcases hstate with hsame | hsynced
      · rw [hsame]
        exact h.heard id headers hold hshort
      · exact hsynced
    · exact hnew hshort

theorem lookup_put {st' : Station} {d : Doing} (hlook : (n.put id st doing).stations.lookup id' = some st')
    (hdo : st'.doing = some d) : (∃ t, n.stations.lookup id' = some t ∧ t.doing = some d) ∨ doing = some d := by
  change (n.stations.insert id _).lookup id' = some st' at hlook
  rw [lookup_insert_eq] at hlook
  split at hlook
  · rw [← Option.some.inj hlook] at hdo
    exact .inr hdo
  · exact .inl ⟨st', hlook, hdo⟩

theorem Steady.put (h : Steady n) (id : ℕ) (st : Station)
    (hallowed : ∀ d, doing = some d → d.Allowed n.server.app.syncState) : Steady (n.put id st doing) := by
  refine h.step (.inl rfl) (fun id' st' d hlook hdo => ?_) fun id' headers hlook => .inl hlook
  rcases lookup_put hlook hdo with hold | hnew
  · exact .inl hold
  · exact .inr (hallowed d hnew)

theorem Steady.finish (h : Steady n) (id : ℕ) (st : Station)
    (hsynced : headers.length < maxHeadersPerMsg → n.server.app.syncState = .synced) :
    Steady (n.finish id st headers) := by
  refine h.step (.inl rfl) (fun id' st' d hlook hdo => ?_) fun id' headers' hlook => ?_
  · rcases lookup_put hlook hdo with hold | hnew
    · exact .inl hold
    · cases hnew
  · change (n.lastHeaders.insert id headers).lookup id' = some headers' at hlook
    rw [lookup_insert_eq] at hlook
    split at hlook
    · rw [← Option.some.inj hlook]
      exact .inr hsynced
    · exact .inl hlook

theorem Steady.setSynced (h : Steady n) : Steady (n.setSyncState .synced) :=
  h.step (.inr rfl) (fun _ st' _ hlook hdo => .inl ⟨st', hlook, hdo⟩) fun _ _ hlook => .inl hlook

/-- Sessions may go, and everything but the sync state may change. -/
theorem Steady.server (h : Steady n) (server : Server) (hsame : server.app.syncState = n.server.app.syncState)
    (stations : Map ℕ Station) (hsub : ∀ id st, stations.lookup id = some st → n.stations.lookup id = some st)
    (requested accepted : List Bytes32) : Steady ⟨server, stations, requested, accepted, n.lastHeaders⟩ :=
  h.step (.inl hsame) (fun id' st' _ hlook hdo => .inl ⟨st', hsub id' st' hlook, hdo⟩) fun _ _ hlook => .inl hlook

theorem lookup_ite_erase {stations : Map ℕ Station} {closed : Bool} {id : ℕ} {st : Station}
    (h : (if closed then stations.erase id else stations).lookup id' = some st) : stations.lookup id' = some st := by
  split at h
  · rw [lookup_erase_eq] at h
    split at h
    · cases h
    · exact h
  · exact h

theorem Steady.disconnected (h : Steady n) (id : ℕ) (st : Station)
    (hsynced : headers.length < maxHeadersPerMsg → n.server.app.syncState = .synced) :
    Steady (n.disconnected arrival id st headers) := by
  have hpenalised : Steady { n with
      server := (n.server.penalise arrival st.addr 10 "protocol violation").server } :=
    h.server (n.server.penalise arrival st.addr 10 "protocol violation").server rfl n.stations (fun _ _ hlook => hlook) n.requested n.accepted
  unfold Syncing.disconnected
  simp only
  split
  · refine hpenalised.step (.inl rfl) (fun id' st' d hlook hdo => .inl ⟨st', ?_, hdo⟩) fun id' headers' hlook => ?_
    · change (n.stations.erase id).lookup id' = some st' at hlook
      rw [lookup_erase_eq] at hlook
      split at hlook
      · cases hlook
      · exact hlook
    · change (n.lastHeaders.insert id headers).lookup id' = some headers' at hlook
      rw [lookup_insert_eq] at hlook
      split at hlook
      · rw [← Option.some.inj hlook]
        exact .inr hsynced
      · exact .inl hlook
  · exact hpenalised.finish id st hsynced

theorem Steady.advance (h : Steady n) {doing : Doing} (hlook : n.stations.lookup id = some st)
    (hdo : st.doing = some doing) (hcareful : (SyncStep.advance id).Careful cx.sha256 n arrival) :
    Steady (n.advance cx arrival id st doing) := by
  have hstep := hcareful st hlook doing hdo
  have hallowed := h.doing id st doing hlook hdo
  have hnone : ∀ d : Doing, (none : Option Doing) = some d → d.Allowed n.server.app.syncState :=
    fun d hd => by cases hd
  cases doing with
  | verack =>
    simp only [Syncing.advance]
    split
    · exact h.put id st hnone
    · exact h.put id st fun d hd => Option.some.inj hd ▸ trivial
  | verackReads =>
    simp only [Syncing.advance]
    split
    · exact h.put id st fun d hd => Option.some.inj hd ▸ trivial
    · exact h.put id st hnone
  | verackSets => exact h.setSynced.put id st fun d hd => by cases hd
  | emptyReads =>
    simp only [Syncing.advance]
    split
    · exact h.put id st fun d hd => Option.some.inj hd ▸ trivial
    · rename_i hstate
      exact h.finish id st fun _ => h.synced_of_ne hstate
  | emptySets => exact h.setSynced.finish id st fun _ => rfl
  | checking prev requests rest headers =>
    cases rest with
    | nil =>
      simp only [Syncing.advance]
      split
      · rename_i hempty
        subst hempty
        exact h.finish id st fun hshort => h.synced_of_ne (hstep hshort)
      · exact h.put id st fun d hd => Option.some.inj hd ▸ trivial
    | cons hdr rest =>
      simp only [Syncing.advance]
      split
      · rename_i hcheck
        refine h.disconnected id st fun hshort => h.synced_of_ne ?_
        cases requests <;> exact hstep hcheck hshort
      · exact h.put id st fun d hd => Option.some.inj hd ▸ trivial
  | headersReads requests headers =>
    simp only [Syncing.advance]
    rw [if_neg hstep]
    exact h.put id st fun d hd => Option.some.inj hd ▸ h.synced_of_ne hstep
  | headersSets requests headers => exact hallowed.elim
  | asking requests headers =>
    have hfinish : Steady (n.finish id st headers) := h.finish id st fun _ => hallowed
    exact hfinish.server n.server rfl _ (fun _ _ hlook => hlook) _ _

theorem Steady.receive (h : Steady n) (hlook : n.stations.lookup id = some st) {m : Message}
    (hcareful : (SyncStep.receive id m).Careful cx.sha256 n arrival) : Steady (n.receive cx rates arrival id st m) := by
  unfold Syncing.receive
  split
  · exact h
  · rename_i hidle
    have hnone : st.doing = none := by
      cases hdo : st.doing with
      | none => rfl
      | some d => rw [hdo] at hidle; exact absurd rfl hidle
    generalize hlimit : checkRateLimit n.server.peers arrival.clock st.addr = result
    obtain ⟨exceeded, peers⟩ := result
    simp only
    have hcounted : Steady (n.withPeers peers) :=
      h.server { n.server with peers := peers } rfl n.stations (fun _ _ hlook => hlook) n.requested n.accepted
    split
    · rename_i hexceeded
      subst hexceeded
      refine hcounted.step (.inl rfl) (fun id' st' d hlook' hdo => .inl ⟨st', lookup_ite_erase hlook', hdo⟩) ?_
      intro id' headers hlook'
      cases m with
      | headers dropped =>
        change (n.lastHeaders.insert id dropped).lookup id' = some headers at hlook'
        rw [lookup_insert_eq] at hlook'
        split at hlook'
        · rw [← Option.some.inj hlook']
          refine .inr fun hshort => h.synced_of_ne ?_
          exact hcareful st hlook hnone (by rw [hlimit]) (decide_eq_true hshort)
        · exact .inl hlook'
      | _ => exact .inl hlook'
    · by_cases hm : m = .verack ∨ ∃ headers, m = .headers headers
      · rcases hm with rfl | ⟨headers, rfl⟩
        · have hready : Steady ((n.withPeers peers).withPeers
              (setHandshake (n.withPeers peers).server.peers st.addr .ready)) :=
            hcounted.server { n.server with peers := setHandshake peers st.addr .ready } rfl _
              (fun _ _ hlook => hlook) _ _
          exact hready.put id st fun d hd => Option.some.inj hd ▸ trivial
        · cases headers with
          | nil => exact hcounted.put id st fun d hd => Option.some.inj hd ▸ trivial
          | cons hdr rest => exact hcounted.put id st fun d hd => Option.some.inj hd ▸ trivial
      · simp only [not_or, not_exists] at hm
        have hhandle : Steady (match (n.withPeers peers).server.handleMessage cx rates arrival st.addr st.dir m with
            | none => n.withPeers peers
            | some o =>
                { n.withPeers peers with
                  server := o.server
                  accepted := (n.withPeers peers).accepted ++ o.announced.map (Block.hash cx.sha256)
                  stations := if o.closed then (n.withPeers peers).stations.erase id
                    else (n.withPeers peers).stations }) := by
          split
          · exact hcounted
          · rename_i o ho
            exact hcounted.server o.server (handleMessage_syncState hm.1 hm.2 ho) _ (fun _ _ => lookup_ite_erase) _ _
        cases m with
        | verack => exact absurd rfl hm.1
        | headers headers => exact absurd rfl (hm.2 headers)
        | _ => exact hhandle

theorem Steady.apply (h : Steady n) {step : SyncStep} (hcareful : step.Careful cx.sha256 n arrival) :
    Steady (step.apply cx rates n arrival) := by
  cases step with
  | connect id addr dir =>
    simp only [SyncStep.apply]
    split
    · exact h
    · refine h.step (.inl rfl) (fun id' st' d hlook hdo => .inl ⟨st', ?_, hdo⟩) fun _ _ hlook => .inl hlook
      change (n.stations.insert id _).lookup id' = some st' at hlook
      rw [lookup_insert_eq] at hlook
      split at hlook
      · rw [← Option.some.inj hlook] at hdo
        cases hdo
      · exact hlook
  | receive id m =>
    simp only [SyncStep.apply]
    cases hlook : n.stations.lookup id with
    | none => exact h
    | some st => exact h.receive hlook hcareful
  | advance id =>
    simp only [SyncStep.apply]
    cases hlook : n.stations.lookup id with
    | none => exact h
    | some st =>
      cases hdo : st.doing with
      | none => simpa only [Option.elim_some, hdo, Option.elim_none] using h
      | some doing =>
        simp only [Option.elim_some, hdo]
        exact h.advance hlook hdo hcareful
  | disconnect id =>
    refine h.server n.server rfl _ (fun id' st' hlook => ?_) _ _
    rw [lookup_erase_eq] at hlook
    split at hlook
    · cases hlook
    · exact hlook
  | work node mempool orphans peers =>
    exact h.server { n.server with
      app := { n.server.app with node := node, mempool := mempool, orphans := orphans }
      peers := peers } rfl _ (fun _ _ hlook => hlook) _ _

theorem Steady.run (h : Steady n) {steps : List (Arrival × SyncStep)} (hcareful : AlwaysCareful cx rates n steps) :
    Steady (runSync cx rates n steps) := by
  induction steps generalizing n with
  | nil => exact h
  | cons step steps ih =>
    obtain ⟨hfirst, hrest⟩ := hcareful
    exact ih (h.apply hfirst) hrest

theorem steady_new (s : Server) : Steady (Syncing.new s) where
  notBlockSync := fun hcontra => by cases hcontra
  doing id st doing hlook := by
    rw [Syncing.new, Finmap.lookup_empty] at hlook
    cases hlook
  heard id headers hlook := by
    rw [Syncing.new, Finmap.lookup_empty] at hlook
    cases hlook

end Invariant

section Download

open Runs BlockEffects

/-- In every run of careful steps, in whatever order the handlers of the peers take them, the initial
download is over as soon as the requested blocks are there and a peer has no more headers. -/
theorem download_ends (cx : Context) (rates : FeeRates) (s : Server) (steps : List (Arrival × SyncStep))
    (hcareful : AlwaysCareful cx rates (Syncing.new s) steps) : Ended (runSync cx rates (Syncing.new s) steps) :=
  ((steady_new s).run hcareful).ended

instance decidableForallSome {α : Type} (o : Option α) (p : α → Prop) [DecidablePred p] :
    Decidable (∀ x, o = some x → p x) :=
  match o with
  | none => isTrue fun _ h => by cases h
  | some a => decidable_of_iff (p a) ⟨fun ha x hx => Option.some.inj hx ▸ ha, fun h => h a rfl⟩

instance decidableDoingCareful (sha256 : Sha256) (n : Syncing) (doing : Doing) :
    Decidable (doing.Careful sha256 n) :=
  match doing with
  | .headersReads _ _ => inferInstanceAs (Decidable (_ ≠ _))
  | .checking _ [] [] _ => inferInstanceAs (Decidable (_ → _))
  | .checking _ [] (_ :: _) _ => inferInstanceAs (Decidable (_ → _))
  | .checking _ (_ :: _) (_ :: _) _ => inferInstanceAs (Decidable (_ → _))
  | .checking _ (_ :: _) [] _ => inferInstanceAs (Decidable True)
  | .verack | .verackReads | .verackSets | .emptyReads | .emptySets | .headersSets _ _ | .asking _ _ =>
      inferInstanceAs (Decidable True)

instance decidableCareful (sha256 : Sha256) (n : Syncing) (arrival : Arrival) (step : SyncStep) :
    Decidable (step.Careful sha256 n arrival) :=
  match step with
  | .receive id m =>
      inferInstanceAs (Decidable (∀ st, n.stations.lookup id = some st → st.doing = none →
        (checkRateLimit n.server.peers arrival.clock st.addr).1 = true → shortHeaders m = true →
        n.server.app.syncState ≠ .headerSync))
  | .advance id =>
      inferInstanceAs (Decidable (∀ st, n.stations.lookup id = some st → ∀ doing, st.doing = some doing →
        doing.Careful sha256 n))
  | .connect .. | .disconnect _ | .work .. => inferInstanceAs (Decidable True)

instance decidableAlwaysCareful (cx : Context) (rates : FeeRates) (n : Syncing) :
    (steps : List (Arrival × SyncStep)) → Decidable (AlwaysCareful cx rates n steps)
  | [] => inferInstanceAs (Decidable True)
  | step :: rest =>
      have := decidableAlwaysCareful cx rates (step.2.apply cx rates n step.1) rest
      inferInstanceAs (Decidable (_ ∧ _))

/-- A block on the regtest genesis block with its proof of work. -/
def minedBlock : Block := childOf regtest.genesis [emptyCoinbase] 2

def runMinedBlock : Block := runChildOf runRegtest.genesis [emptyCoinbase] 2

theorem runMinedBlock_eq : runMinedBlock = minedBlock := by
  rw [runMinedBlock, runChildOf_eq, runRegtest_eq, minedBlock]

/-- A server with one registered peer. -/
def serverAt (s : NodeState) : Server :=
  ⟨ProvenWork.opened s, (PeerManager.new .default).insertPeer (momentAt 0) firstAddr .outbound, 7⟩

/-- A peer has no headers at first, then announces a block and sends it. -/
def lateBlock : List (Arrival × SyncStep) :=
  [(arrivalAt 1, .connect 0 firstAddr .outbound), (arrivalAt 2, .receive 0 (.headers [])),
    (arrivalAt 3, .advance 0), (arrivalAt 4, .advance 0),
    (arrivalAt 5, .receive 0 (.headers [minedBlock.header])), (arrivalAt 6, .advance 0),
    (arrivalAt 7, .advance 0), (arrivalAt 8, .advance 0), (arrivalAt 9, .advance 0),
    (arrivalAt 10, .receive 0 (.blockMsg minedBlock))]

theorem lateBlock_ends : ∃ s, nodeAfter regtest today 1 [] = some s ∧
      Ended (runSync regtest PoolEvictions.exactRates (Syncing.new (serverAt s)) lateBlock) ∧
      (runSync regtest PoolEvictions.exactRates (Syncing.new (serverAt s)) lateBlock).accepted =
        [minedBlock.hash regtest.sha256] ∧
      (runSync regtest PoolEvictions.exactRates (Syncing.new (serverAt s)) lateBlock).requested =
        [minedBlock.hash regtest.sha256] := by
  have hrun : ((nodeAfter regtest today 1 []).any fun s =>
      decide (AlwaysCareful regtest PoolEvictions.exactRates (Syncing.new (serverAt s)) lateBlock) &&
      decide ((runSync regtest PoolEvictions.exactRates (Syncing.new (serverAt s)) lateBlock).accepted =
        [minedBlock.hash regtest.sha256]) &&
      decide ((runSync regtest PoolEvictions.exactRates (Syncing.new (serverAt s)) lateBlock).requested =
        [minedBlock.hash regtest.sha256])) = true := by
    unfold lateBlock
    rw [← runRegtest_eq, ← runMinedBlock_eq]
    decide +kernel
  obtain ⟨s, hs, hall⟩ := (Option.any_eq_true _ _).mp hrun
  simp only [Bool.and_eq_true, decide_eq_true_iff] at hall
  obtain ⟨⟨hcareful, haccepted⟩, hrequested⟩ := hall
  exact ⟨s, hs, download_ends regtest PoolEvictions.exactRates (serverAt s) lateBlock hcareful, haccepted,
    hrequested⟩

/-- A peer announces a block and sends it, and has no more headers. -/
def plainDownload : List (Arrival × SyncStep) :=
  [(arrivalAt 1, .connect 0 firstAddr .outbound), (arrivalAt 2, .receive 0 (.headers [minedBlock.header])),
    (arrivalAt 3, .advance 0), (arrivalAt 4, .advance 0), (arrivalAt 5, .advance 0), (arrivalAt 6, .advance 0),
    (arrivalAt 7, .advance 0), (arrivalAt 8, .receive 0 (.blockMsg minedBlock)),
    (arrivalAt 9, .receive 0 (.headers [])), (arrivalAt 10, .advance 0)]

/-- The plainest download leaves the node in `BlockSync` for good. -/
theorem plainDownload_stuck : ∃ s, nodeAfter regtest today 1 [] = some s ∧
      (runSync regtest PoolEvictions.exactRates (Syncing.new (serverAt s)) plainDownload).server.app.syncState =
        .blockSync ∧
      ¬ Ended (runSync regtest PoolEvictions.exactRates (Syncing.new (serverAt s)) plainDownload) := by
  have hrun : ((nodeAfter regtest today 1 []).any fun s =>
      let n := runSync regtest PoolEvictions.exactRates (Syncing.new (serverAt s)) plainDownload
      decide (n.server.app.syncState = .blockSync) && decide (∀ h ∈ n.requested, h ∈ n.accepted) &&
        decide (n.lastHeaders.lookup 0 = some [])) = true := by
    unfold plainDownload
    rw [← runRegtest_eq, ← runMinedBlock_eq]
    decide +kernel
  obtain ⟨s, hs, hall⟩ := (Option.any_eq_true _ _).mp hrun
  simp only [Bool.and_eq_true, decide_eq_true_iff] at hall
  obtain ⟨⟨hstate, hthere⟩, hlast⟩ := hall
  refine ⟨s, hs, hstate, fun hended => ?_⟩
  obtain ⟨hsynced, -⟩ := hended hthere 0 [] hlast (by decide)
  rw [hstate] at hsynced
  cases hsynced

end Download

end KuberCoin.SyncStates
