import KuberCoin.Servers

/-!
The handshake states of the peers (`network/server.rs`). A `Version` is checked, a `Verack` makes the entry
ready, and nothing ties the `Verack` to a `Version` that was accepted before: an entry that is ready belongs to
a peer with an accepted `Version` exactly if every `Verack` is handled after one.
-/
namespace KuberCoin.Handshakes

open Maps NodeStates AddBlock Mempools Handlers Peers PeerManagers SessionRegistries Servers

section Handling

variable {cx : Context} {rates : FeeRates} {s : Server} {arrival : Arrival} {addr : SocketAddr} {dir : Direction}
  {m : Message} {o : Response}

/-- No handshake state appears that was not there; entries may disappear. -/
def Keeps (s : Server) (o : Response) : Prop :=
  ∀ a state, handshakeAt o.server.peers a = some state → handshakeAt s.peers a = some state

theorem keeps_of_peers (h : ∀ a, handshakeAt o.server.peers a = handshakeAt s.peers a) : Keeps s o :=
  fun a _ hstate => (h a).symm.trans hstate

theorem reply_server (s : Server) (arrival : Arrival) (messages : List Message) :
    (s.reply arrival messages).server = s := by
  unfold Server.reply
  split <;> rfl

theorem reply_keeps {s s' : Server} (h : ∀ a, handshakeAt s'.peers a = handshakeAt s.peers a) (arrival : Arrival)
    (messages : List Message) : Keeps s (s'.reply arrival messages) := by
  refine keeps_of_peers fun a => ?_
  rw [reply_server]
  exact h a

theorem penalise_keeps {s s' : Server} (h : s'.peers = s.peers) (arrival : Arrival) (addr : SocketAddr) (score : UInt32)
    (reason : String) : Keeps s (s'.penalise arrival addr score reason) := by
  intro a state hstate
  have hafter := handshakeAt_addMisbehaviour s'.peers arrival.clock addr score reason a
  rw [show handshakeAt (s'.penalise arrival addr score reason).server.peers a = _ from hafter] at hstate
  split at hstate
  · cases hstate
  · rw [← h]
    exact hstate

theorem settle_keeps (h : Handled) : Keeps s (s.settle arrival addr h) := by
  unfold Server.settle
  simp only
  split
  · exact keeps_of_peers fun a => rfl
  · exact penalise_keeps rfl arrival addr _ _

/-- Messages other than `Version` and `Verack`. -/
def handshakeMessage : Message → Bool
  | .version _ => true
  | .verack => true
  | _ => false

theorem handleMessage_keeps (hm : handshakeMessage m = false)
    (h : s.handleMessage cx rates arrival addr dir m = some o) : Keeps s o := by
  have hsame : ∀ a, handshakeAt s.peers a = handshakeAt s.peers a := fun a => rfl
  have hstay : Keeps s s.stay := keeps_of_peers hsame
  cases m with
  | version v => cases hm
  | verack => cases hm
  | blockMsg b =>
    obtain ⟨r, -, rfl⟩ := Option.map_eq_some_iff.mp h
    exact settle_keeps r
  | txMsg tx =>
    rw [← Option.some.inj h]
    exact settle_keeps _
  | addr entries =>
    rw [← Option.some.inj h]
    unfold Server.onAddr
    split
    · exact hstay
    · split
      · exact penalise_keeps rfl arrival addr _ _
      · exact hstay
  | inv items =>
    rw [← Option.some.inj h]
    unfold Server.onInv
    split
    · exact penalise_keeps rfl arrival addr _ _
    · exact reply_keeps hsame arrival _
  | getData items =>
    rw [← Option.some.inj h]
    unfold Server.onGetData
    split
    · exact penalise_keeps rfl arrival addr _ _
    · exact reply_keeps hsame arrival _
  | headers headers =>
    rw [← Option.some.inj h]
    unfold Server.onHeaders
    split
    · refine keeps_of_peers fun a => ?_
      show handshakeAt (if s.app.syncState = .headerSync then s.setSyncState .synced else s).peers a = _
      split <;> rfl
    · split
      · exact penalise_keeps rfl arrival addr _ _
      · refine reply_keeps (fun a => ?_) arrival _
        split <;> rfl
  | cmpctBlock compact =>
    rw [← Option.some.inj h]
    unfold Server.onCmpctBlock
    simp only
    split
    · exact hstay
    · split <;> exact reply_keeps hsame arrival _
  | getBlockTxn blockhash indices =>
    rw [← Option.some.inj h]
    unfold Server.onGetBlockTxn
    split
    · exact hstay
    · exact reply_keeps hsame arrival _
  | blockTxn blockhash transactions =>
    rw [← Option.some.inj h]
    unfold Server.onBlockTxn
    split
    · exact reply_keeps hsame arrival _
    · exact hstay
  | sendHeaders =>
    rw [← Option.some.inj h]
    exact keeps_of_peers fun a => handshakeAt_setSendHeaders s.peers addr a
  | getAddr | ping nonce | getBlocks locator stopHash | getHeaders locator stopHash =>
    rw [← Option.some.inj h]
    exact reply_keeps hsame arrival _
  | pong | notFound | reject | sendCmpct | feeFilter | wtxidRelay | sendAddrV2 | addrV2 =>
    rw [← Option.some.inj h]
    exact hstay

theorem onVerack_handshakes (s : Server) (arrival : Arrival) (addr a : SocketAddr) :
    handshakeAt (s.onVerack arrival addr).server.peers a =
      if a = addr then (handshakeAt s.peers a).map fun _ => .ready else handshakeAt s.peers a := by
  rw [← handshakeAt_setHandshake]
  unfold Server.onVerack
  simp only
  split
  · rfl
  · split
    · rw [reply_server]
    · split
      · rw [reply_server]
        rfl
      · rw [reply_server]

theorem ready_of_handleMessage (h : s.handleMessage cx rates arrival addr dir m = some o) {a : SocketAddr}
    (hready : handshakeAt o.server.peers a = some .ready) :
    handshakeAt s.peers a = some .ready ∨ a = addr ∧ m = .verack := by
  by_cases hm : handshakeMessage m = true
  · cases m with
    | verack =>
      rw [← Option.some.inj h, onVerack_handshakes] at hready
      split at hready
      · exact .inr ⟨‹_›, rfl⟩
      · exact .inl hready
    | version v =>
      left
      rw [← Option.some.inj h] at hready
      unfold Server.onVersion at hready
      split at hready
      · simp only at hready
        split at hready
        · split at hready
          · rw [reply_server, handshakeAt_setHandshake] at hready
            split at hready
            · cases hlook : handshakeAt (setVersion s.peers addr v) a <;> rw [hlook] at hready <;> cases hready
            · rw [handshakeAt_setVersion] at hready
              exact hready
          · rw [← handshakeAt_setVersion s.peers addr v a]
            exact hready
        · rw [reply_server, handshakeAt_setVersion] at hready
          exact hready
      · exact hready
    | _ => cases hm
  · exact .inl (handleMessage_keeps (Bool.not_eq_true _ ▸ hm) h a _ hready)

end Handling

section Sessions

/-- A session: registered, in its read loop, or on its way out. -/
inductive LinkPhase where
  | registered
  | reading
  | leaving
deriving DecidableEq

/-- A session of the server; `accepted` when a `Version` passed the checks in it. -/
structure Link where
  addr : SocketAddr
  dir : Direction
  phase : LinkPhase
  accepted : Bool
deriving DecidableEq

/-- The server with its sessions, and the session that made an entry ready last. -/
structure Node where
  server : Server
  links : Map ℕ Link
  readyBy : Map SocketAddr ℕ

/-- The steps of the sessions and of the rest of the node. A session starts after its dial, unless it is
inbound; for the direction `Outbound` it writes a `Version` first. -/
inductive LinkEvent where
  | register (id : ℕ) (addr : SocketAddr) (dir : Direction)
  | start (id : ℕ) (dialed written : Bool)
  | receive (id : ℕ) (m : Message)
  | fail (id : ℕ)
  | finish (id : ℕ)
  | banIp (ip : IpAddr) (reason : String)
  | unbanIp (ip : IpAddr)
  | disconnectPeer (addr : SocketAddr)
  | work (app : App)

namespace Node

def withPeers (n : Node) (peers : PeerManager) : Node := { n with server := { n.server with peers := peers } }

def register (n : Node) (clock : Moment) (id : ℕ) (addr : SocketAddr) (dir : Direction) : Node :=
  if id ∈ n.links then n
  else
    let (ok, peers) := n.server.peers.register clock addr dir
    let n := n.withPeers peers
    if ok then { n with links := n.links.insert id ⟨addr, dir, .registered, false⟩ } else n

/-- A failed dial returns at once; a `Version` that cannot be written ends the session. -/
def start (n : Node) (id : ℕ) (l : Link) (dialed written : Bool) : Node :=
  if l.phase ≠ .registered then n
  else if l.dir ≠ .inbound ∧ ¬ dialed then { n with links := n.links.erase id }
  else if l.dir = .outbound then
    if written then
      { n.withPeers (setHandshake n.server.peers l.addr .versionSent) with
        links := n.links.insert id { l with phase := .reading } }
    else { n with links := n.links.insert id { l with phase := .leaving } }
  else { n with links := n.links.insert id { l with phase := .reading } }

/-- Whether the message is handled and is a `Version` that passes the checks. -/
def greets (n : Node) (clock : Moment) (l : Link) : Message → Bool
  | .version v => !(checkRateLimit n.server.peers clock l.addr).1 && n.server.acceptsVersion v
  | _ => false

/-- The session that made each entry ready, after a message. -/
def readyAfter (n : Node) (clock : Moment) (id : ℕ) (l : Link) : Message → Map SocketAddr ℕ
  | .verack =>
      if (checkRateLimit n.server.peers clock l.addr).1 then n.readyBy else n.readyBy.insert l.addr id
  | _ => n.readyBy

/-- A message in a read loop; a block whose handler runs out of fuel is not taken. -/
def receive (cx : Context) (rates : FeeRates) (n : Node) (arrival : Arrival) (id : ℕ) (l : Link)
    (m : Message) : Node :=
  if l.phase ≠ .reading then n
  else
    match n.server.read cx rates arrival l.addr l.dir m with
    | none => n
    | some o =>
        { server := o.server
          links := n.links.insert id
            { l with
              phase := if o.closed then .leaving else .reading
              accepted := l.accepted || n.greets arrival.clock l m }
          readyBy := n.readyAfter arrival.clock id l m }

def onLink (n : Node) (id : ℕ) (f : Link → Node) : Node := (n.links.lookup id).elim n f

end Node

def LinkEvent.apply (cx : Context) (rates : FeeRates) (n : Node) (arrival : Arrival) : LinkEvent → Node
  | .register id addr dir => n.register arrival.clock id addr dir
  | .start id dialed written => n.onLink id fun l => n.start id l dialed written
  | .receive id m => n.onLink id fun l => n.receive cx rates arrival id l m
  | .fail id => n.onLink id fun l =>
      if l.phase = .reading then { n with links := n.links.insert id { l with phase := .leaving } } else n
  | .finish id => n.onLink id fun l =>
      if l.phase = .leaving then { n.withPeers (n.server.peers.remove l.addr) with links := n.links.erase id }
      else n
  | .banIp ip reason => n.withPeers (n.server.peers.banIp arrival.clock ip reason)
  | .unbanIp ip => n.withPeers (n.server.peers.unbanIp ip)
  | .disconnectPeer addr => n.withPeers (n.server.peers.disconnectPeer addr)
  | .work app => { n with server := { n.server with app := app } }

/-- An entry is ready only if a `Version` of its peer passed the checks in the session that made it so. -/
def Safe (n : Node) : Prop :=
  ∀ a, handshakeAt n.server.peers a = some .ready →
    ∃ id l, n.readyBy.lookup a = some id ∧ n.links.lookup id = some l ∧ l.addr = a ∧ l.accepted = true

def AlwaysSafe (cx : Context) (rates : FeeRates) : Node → List (Arrival × LinkEvent) → Prop
  | n, [] => Safe n
  | n, e :: rest => Safe n ∧ AlwaysSafe cx rates (e.2.apply cx rates n e.1) rest

/-- A `Verack` that is handled for an entry comes after a `Version` that passed the checks in the same
session. -/
def LinkEvent.Greeted (n : Node) (arrival : Arrival) : LinkEvent → Prop
  | .receive id .verack => ∀ l, n.links.lookup id = some l → l.phase = .reading → l.addr ∈ n.server.peers.peers →
      (checkRateLimit n.server.peers arrival.clock l.addr).1 = false → l.accepted = true
  | _ => True

def AlwaysGreeted (cx : Context) (rates : FeeRates) : Node → List (Arrival × LinkEvent) → Prop
  | _, [] => True
  | n, e :: rest => e.2.Greeted n e.1 ∧ AlwaysGreeted cx rates (e.2.apply cx rates n e.1) rest

section Books

variable {s : PeerManager} {clock : Moment} {a addr : SocketAddr}

theorem ready_of_banIp {ip : IpAddr} {reason : String} (h : handshakeAt (s.banIp clock ip reason) a = some .ready) :
    handshakeAt s a = some .ready := by
  unfold handshakeAt PeerManager.banIp at h
  simp only [PeerManager.ban, lookup_eraseAll] at h
  split at h
  · cases h
  · exact h

theorem ready_of_remove (h : handshakeAt (s.remove addr) a = some .ready) :
    a ≠ addr ∧ handshakeAt s a = some .ready := by
  rw [handshakeAt_remove] at h
  split at h
  · cases h
  · exact ⟨‹_›, h⟩

theorem ready_of_insertPeer {dir : Direction} (h : handshakeAt (s.insertPeer clock addr dir) a = some .ready) :
    handshakeAt s a = some .ready := by
  rw [PeerManager.insertPeer, handshakeAt_insert] at h
  split at h
  · cases h
  · exact h

theorem ready_of_register {addr : SocketAddr} {dir : Direction}
    (h : handshakeAt (s.register clock addr dir).2 a = some .ready) : handshakeAt s a = some .ready := by
  obtain ⟨hpeers, -, -⟩ := isBanned_peers s clock addr.ip
  have hsame : handshakeAt (s.isBanned clock addr.ip).2 a = handshakeAt s a := by
    rw [handshakeAt, handshakeAt, hpeers]
  rw [← hsame]
  unfold PeerManager.register at h
  generalize s.isBanned clock addr.ip = result at h
  obtain ⟨banned, s'⟩ := result
  simp only at h ⊢
  split at h
  · exact h
  · split at h
    · split at h
      · split at h
        · exact h
        · exact (ready_of_remove (ready_of_insertPeer h)).2
      · exact h
    · exact ready_of_insertPeer h

end Books

section Reading

variable {cx : Context} {rates : FeeRates} {s : Server} {arrival : Arrival} {addr : SocketAddr} {dir : Direction}
  {m : Message} {o : Response}

theorem ready_of_read (h : s.read cx rates arrival addr dir m = some o) {a : SocketAddr}
    (hready : handshakeAt o.server.peers a = some .ready) : handshakeAt s.peers a = some .ready ∨
      a = addr ∧ m = .verack ∧ (checkRateLimit s.peers arrival.clock addr).1 = false := by
  have hkept := handshakeAt_checkRateLimit s.peers arrival.clock addr a
  unfold Server.read at h
  generalize checkRateLimit s.peers arrival.clock addr = result at h hkept
  obtain ⟨exceeded, peers⟩ := result
  simp only at h hkept
  split at h
  · rw [← Option.some.inj h] at hready
    left
    rw [← hkept]
    exact @penalise_keeps { s with peers := peers } _ rfl arrival addr _ _ a _ hready
  · rename_i hfree
    rcases ready_of_handleMessage h hready with hbefore | ⟨ha, hm⟩
    · exact .inl (hkept ▸ hbefore)
    · exact .inr ⟨ha, hm, Bool.not_eq_true _ ▸ hfree⟩

theorem read_verack (cx : Context) (rates : FeeRates) (dir : Direction)
    (hfree : (checkRateLimit s.peers arrival.clock addr).1 = false) :
    ∃ o, s.read cx rates arrival addr dir .verack = some o ∧
      handshakeAt o.server.peers addr = (handshakeAt s.peers addr).map fun _ => .ready := by
  have hkept := handshakeAt_checkRateLimit s.peers arrival.clock addr addr
  unfold Server.read
  generalize checkRateLimit s.peers arrival.clock addr = result at hfree hkept
  obtain ⟨exceeded, peers⟩ := result
  simp only at hfree hkept
  subst hfree
  refine ⟨_, rfl, ?_⟩
  rw [onVerack_handshakes, if_pos rfl, hkept]

end Reading

section Safety

variable {cx : Context} {rates : FeeRates} {n : Node} {arrival : Arrival} {id : ℕ} {l : Link}
  {e : LinkEvent}

/-- Besides the safety: a session that has not started has accepted nothing. -/
structure Sound (n : Node) : Prop where
  safe : Safe n
  fresh : ∀ id l, n.links.lookup id = some l → l.phase = .registered → l.accepted = false

/-- What is ready was ready before, and the session that made it so is still there. -/
theorem Safe.carry {n' : Node} (h : Safe n) (hby : n'.readyBy = n.readyBy)
    (hready : ∀ a, handshakeAt n'.server.peers a = some .ready → handshakeAt n.server.peers a = some .ready)
    (hlinks : ∀ a id l, handshakeAt n'.server.peers a = some .ready → n.links.lookup id = some l → l.addr = a →
      l.accepted = true → ∃ l', n'.links.lookup id = some l' ∧ l'.addr = a ∧ l'.accepted = true) : Safe n' := by
  intro a ha
  obtain ⟨id, l, hid, hlook, haddr, hacc⟩ := h a (hready a ha)
  obtain ⟨l', hlook', haddr', hacc'⟩ := hlinks a id l ha hlook haddr hacc
  exact ⟨id, l', hby ▸ hid, hlook', haddr', hacc'⟩

theorem Sound.setLink {server : Server} (h : Sound n) {l' : Link} (hlook : n.links.lookup id = some l)
    (haddr : l'.addr = l.addr) (hacc : l.accepted = true → l'.accepted = true) (hphase : l'.phase ≠ .registered)
    (hready : ∀ a, handshakeAt server.peers a = some .ready → handshakeAt n.server.peers a = some .ready) :
    Sound ⟨server, n.links.insert id l', n.readyBy⟩ where
  safe := by
    refine h.safe.carry rfl hready fun a id' t _ hlook' ha hacc' => ?_
    show ∃ t', (n.links.insert id l').lookup id' = some t' ∧ t'.addr = a ∧ t'.accepted = true
    rw [lookup_insert_eq]
    split
    · rename_i heq
      rw [heq, hlook] at hlook'
      rw [← Option.some.inj hlook'] at ha hacc'
      exact ⟨l', rfl, haddr.trans ha, hacc hacc'⟩
    · exact ⟨t, hlook', ha, hacc'⟩
  fresh id' t hlook' hnew := by
    change (n.links.insert id l').lookup id' = some t at hlook'
    rw [lookup_insert_eq] at hlook'
    split at hlook'
    · rw [← Option.some.inj hlook'] at hnew
      exact absurd hnew hphase
    · exact h.fresh id' t hlook' hnew

theorem Sound.dropLink {server : Server} (h : Sound n)
    (hready : ∀ a, handshakeAt server.peers a = some .ready → handshakeAt n.server.peers a = some .ready)
    (hfree : ∀ t, n.links.lookup id = some t → t.accepted = true →
      handshakeAt server.peers t.addr ≠ some .ready) : Sound ⟨server, n.links.erase id, n.readyBy⟩ where
  safe := by
    refine h.safe.carry rfl hready fun a id' t ha hlook' haddr hacc => ⟨t, ?_, haddr, hacc⟩
    show (n.links.erase id).lookup id' = some t
    rw [lookup_erase_eq]
    split
    · rename_i heq
      exact absurd ha (haddr ▸ hfree t (heq ▸ hlook') hacc)
    · exact hlook'
  fresh id' t hlook' := by
    change (n.links.erase id).lookup id' = some t at hlook'
    rw [lookup_erase_eq] at hlook'
    split at hlook'
    · cases hlook'
    · exact h.fresh id' t hlook'

theorem Sound.server {server : Server} (h : Sound n)
    (hready : ∀ a, handshakeAt server.peers a = some .ready → handshakeAt n.server.peers a = some .ready) :
    Sound { n with server := server } where
  safe := h.safe.carry rfl hready fun _ _ t _ hlook haddr hacc => ⟨t, hlook, haddr, hacc⟩
  fresh := h.fresh

theorem Sound.register (h : Sound n) (clock : Moment) (id : ℕ) (addr : SocketAddr) (dir : Direction) :
    Sound (n.register clock id addr dir) := by
  unfold Node.register
  split
  · exact h
  · rename_i hfresh
    have hready := fun a => @ready_of_register n.server.peers clock a addr dir
    generalize n.server.peers.register clock addr dir = result at hready
    obtain ⟨ok, peers⟩ := result
    simp only at hready ⊢
    have hserver : Sound (n.withPeers peers) := h.server hready
    split
    · refine ⟨?_, ?_⟩
      · refine hserver.safe.carry rfl (fun a ha => ha) fun a id' t _ hlook haddr hacc => ⟨t, ?_, haddr, hacc⟩
        have hid : id' ≠ id := by
          rintro rfl
          exact hfresh ((mem_iff_lookup n.links id').mpr ⟨t, hlook⟩)
        exact (lookup_insert_eq _ _ _ _).trans ((if_neg hid).trans hlook)
      · intro id' t hlook hphase
        change (n.links.insert id _).lookup id' = some t at hlook
        rw [lookup_insert_eq] at hlook
        split at hlook
        · rw [← Option.some.inj hlook]
        · exact h.fresh id' t hlook hphase
    · exact hserver

theorem Sound.start (h : Sound n) (hlook : n.links.lookup id = some l) (dialed written : Bool) :
    Sound (n.start id l dialed written) := by
  unfold Node.start
  split
  · exact h
  · rename_i hphase
    have hnew : l.accepted = false := h.fresh id l hlook (not_not.mp hphase)
    split
    · refine h.dropLink (fun a ha => ha) fun t hlook' hacc => ?_
      rw [hlook] at hlook'
      rw [← Option.some.inj hlook', hnew] at hacc
      cases hacc
    · split
      · split
        · refine h.setLink hlook rfl (fun hacc => hacc) (by simp) fun a ha => ?_
          change handshakeAt (setHandshake n.server.peers l.addr .versionSent) a = _ at ha
          rw [handshakeAt_setHandshake] at ha
          split at ha
          · cases hentry : handshakeAt n.server.peers a <;> rw [hentry] at ha <;> cases ha
          · exact ha
        · exact h.setLink hlook rfl (fun hacc => hacc) (by simp) fun a ha => ha
      · exact h.setLink hlook rfl (fun hacc => hacc) (by simp) fun a ha => ha

theorem Sound.receive (h : Sound n) (hlook : n.links.lookup id = some l) {m : Message}
    (hgreeted : (LinkEvent.receive id m).Greeted n arrival) : Sound (n.receive cx rates arrival id l m) := by
  unfold Node.receive
  split
  · exact h
  · rename_i hphase
    have hreading : l.phase = .reading := not_not.mp hphase
    cases hread : n.server.read cx rates arrival l.addr l.dir m with
    | none => exact h
    | some o =>
      have hleft : ∀ p : LinkPhase, p = (if o.closed then .leaving else .reading) → p ≠ .registered := by
        intro p hp
        rw [hp]
        split <;> simp
      by_cases hby : m = .verack ∧ (checkRateLimit n.server.peers arrival.clock l.addr).1 = false
      · obtain ⟨rfl, hfree⟩ := hby
        simp only [Node.readyAfter, hfree, Bool.false_eq_true, if_false]
        -- the entry that becomes ready belongs to a session that has accepted a `Version`
        have hacc : l.addr ∈ n.server.peers.peers → l.accepted = true :=
          fun hmem => hgreeted l hlook hreading hmem hfree
        refine ⟨?_, ?_⟩
        · intro a ha
          by_cases haddr : a = l.addr
          · have hmem : l.addr ∈ n.server.peers.peers := by
              obtain ⟨o', hread', hstate⟩ := read_verack cx rates l.dir hfree
              rw [hread] at hread'
              rw [haddr, Option.some.inj hread', hstate] at ha
              rw [mem_iff_lookup]
              unfold handshakeAt at ha
              cases hentry : n.server.peers.peers.lookup l.addr with
              | none => rw [hentry] at ha; cases ha
              | some e => exact ⟨e, rfl⟩
            refine ⟨id, _, ?_, (lookup_insert_eq _ _ _ _).trans (if_pos rfl), haddr.symm, ?_⟩
            · rw [haddr]
              exact (lookup_insert_eq _ _ _ _).trans (if_pos rfl)
            · simp only [hacc hmem, Bool.true_or]
          · have hold : handshakeAt n.server.peers a = some .ready :=
              (ready_of_read hread ha).resolve_right fun hcase => haddr hcase.1
            obtain ⟨id', t, hid, hlook', hta, htacc⟩ := h.safe a hold
            have hne : id' ≠ id := by
              rintro rfl
              rw [hlook] at hlook'
              exact haddr (hta.symm.trans (congrArg Link.addr (Option.some.inj hlook')).symm)
            exact ⟨id', t, (lookup_insert_eq _ _ _ _).trans ((if_neg haddr).trans hid),
              (lookup_insert_eq _ _ _ _).trans ((if_neg hne).trans hlook'), hta, htacc⟩
        · intro id' t hlook' hnew
          change (n.links.insert id _).lookup id' = some t at hlook'
          rw [lookup_insert_eq] at hlook'
          split at hlook'
          · rw [← Option.some.inj hlook'] at hnew
            exact absurd hnew (hleft _ rfl)
          · exact h.fresh id' t hlook' hnew
      · have hready : ∀ a, handshakeAt o.server.peers a = some .ready →
            handshakeAt n.server.peers a = some .ready :=
          fun a ha => (ready_of_read hread ha).resolve_right fun hcase => hby hcase.2
        have hkeep : n.readyAfter arrival.clock id l m = n.readyBy := by
          cases m with
          | verack =>
            have hover : (checkRateLimit n.server.peers arrival.clock l.addr).1 = true := by
              rw [← Bool.not_eq_false]
              exact fun hfree => hby ⟨rfl, hfree⟩
            exact if_pos hover
          | _ => rfl
        simp only
        rw [hkeep]
        refine h.setLink hlook rfl ?_ (hleft _ rfl) hready
        intro hacc
        simp only [hacc, Bool.true_or]

theorem Sound.apply (h : Sound n) (hgreeted : e.Greeted n arrival) : Sound (e.apply cx rates n arrival) := by
  have honLink : ∀ id (f : Link → Node), (∀ l, n.links.lookup id = some l → Sound (f l)) →
      Sound (n.onLink id f) := by
    intro id f hf
    unfold Node.onLink
    cases hlook : n.links.lookup id with
    | none => exact h
    | some l => exact hf l hlook
  cases e with
  | register id addr dir => exact h.register arrival.clock id addr dir
  | start id dialed written => exact honLink id _ fun l hlook => h.start hlook dialed written
  | receive id m => exact honLink id _ fun l hlook => h.receive hlook hgreeted
  | fail id =>
    refine honLink id _ fun l hlook => ?_
    split
    · exact h.setLink hlook rfl (fun hacc => hacc) (by simp) fun a ha => ha
    · exact h
  | finish id =>
    refine honLink id _ fun l hlook => ?_
    split
    · refine h.dropLink (fun a ha => (ready_of_remove ha).2) fun t hlook' _ ha => ?_
      rw [hlook] at hlook'
      rw [← Option.some.inj hlook'] at ha
      exact (ready_of_remove ha).1 rfl
    · exact h
  | banIp ip reason => exact h.server fun a ha => ready_of_banIp ha
  | unbanIp ip => exact h.server fun a ha => ha
  | disconnectPeer addr => exact h.server fun a ha => (ready_of_remove ha).2
  | work app => exact h.server fun a ha => ha

/-- A `Verack` without a `Version` shows at once. -/
theorem greeted_of_safe (h : Safe (e.apply cx rates n arrival)) : e.Greeted n arrival := by
  cases e with
  | receive id m =>
    cases m with
    | verack =>
      intro l hlook hreading hmem hfree
      obtain ⟨o, hread, hstate⟩ := read_verack cx rates l.dir hfree
      obtain ⟨entry, hentry⟩ := (mem_iff_lookup _ _).mp hmem
      have hnew : (LinkEvent.receive id .verack).apply cx rates n arrival =
          { server := o.server
            links := n.links.insert id
              { l with phase := if o.closed then .leaving else .reading, accepted := l.accepted || false }
            readyBy := n.readyBy.insert l.addr id } := by
        simp only [LinkEvent.apply, Node.onLink, hlook, Option.elim_some, Node.receive, hreading, hread,
          ne_eq, not_true_eq_false, if_false, hfree, Node.greets, Node.readyAfter, Bool.false_eq_true]
      rw [hnew] at h
      have hready : handshakeAt o.server.peers l.addr = some .ready := by
        rw [hstate, handshakeAt, hentry]
        rfl
      obtain ⟨id', t, hid, hlook', -, hacc⟩ := h l.addr hready
      simp only [lookup_insert_eq, if_true, Option.some.injEq] at hid
      subst hid
      simp only [lookup_insert_eq, if_true, Option.some.injEq] at hlook'
      rw [← hlook', Bool.or_false] at hacc
      exact hacc
    | _ => trivial
  | _ => trivial

theorem alwaysSafe_iff (h : Sound n) (events : List (Arrival × LinkEvent)) :
    AlwaysSafe cx rates n events ↔ AlwaysGreeted cx rates n events := by
  induction events generalizing n with
  | nil => exact ⟨fun _ => trivial, fun _ => h.safe⟩
  | cons e rest ih =>
    constructor
    · rintro ⟨-, hrest⟩
      have hnext : Safe (e.2.apply cx rates n e.1) := by
        cases rest with
        | nil => exact hrest
        | cons _ _ => exact hrest.1
      have hgreeted := greeted_of_safe hnext
      exact ⟨hgreeted, (ih (h.apply hgreeted)).mp hrest⟩
    · rintro ⟨hgreeted, hrest⟩
      exact ⟨h.safe, (ih (h.apply hgreeted)).mpr hrest⟩

end Safety

end Sessions

end KuberCoin.Handshakes
