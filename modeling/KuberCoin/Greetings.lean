import KuberCoin.Handshakes
import KuberCoin.ProvenWork

/-!
The handshake of two nodes (`network/server.rs`). The end that dials sends its `Version`, the
other one answers with its own and a `Verack`, which is answered with a `Verack`. Messages arrive in
order, with pings in between. `run_peer` sends the first `Version` for the direction `Outbound` only, so that
a node that dials for block relay only and the node that it dials wait for each other.
-/
namespace KuberCoin.Greetings

open Maps NodeStates AddBlock Mempools Handlers Peers PeerManagers SessionRegistries Servers Handshakes

section Pairs

/-- One end of a connection: the address and the direction of the other end in its books, the
messages that are on their way to it, whether its session has ended, and whether its entry
has been ready. -/
structure End where
  server : Server
  addr : SocketAddr
  dir : Direction
  queue : List Message
  closed : Bool
  reached : Bool

/-- The end that dials, which reads after it has started, and the end that accepts. -/
structure Pair where
  dialer : End
  acceptor : End
  started : Bool

def End.send (e : End) (messages : List Message) : End := { e with queue := e.queue ++ messages }

/-- The steps of a connection: the dialing end starts, an end handles the next message, the ping
timer of an end fires. -/
inductive PairStep where
  | start
  | toDialer
  | toAcceptor
  | pingDialer (nonce : UInt64)
  | pingAcceptor (nonce : UInt64)

/-- The next message is handled; with the end that is left, the answers. -/
def End.deliver (cx : Context) (rates : FeeRates) (e : End) (arrival : Arrival) : End × List Message :=
  match e.queue with
  | [] => (e, [])
  | m :: rest =>
      if e.closed then (e, [])
      else
        match e.server.read cx rates arrival e.addr e.dir m with
        | none => (e, [])
        | some o =>
            ({ e with
               server := o.server
               queue := rest
               closed := o.closed
               reached := e.reached || handshakeAt o.server.peers e.addr == some .ready }, o.replies)

/-- The first part of `run_peer`. -/
def Pair.start (p : Pair) (arrival : Arrival) : Pair :=
  if p.started then p
  else if p.dialer.dir = .outbound then
    { dialer := { p.dialer with
        server := { p.dialer.server with
          peers := setHandshake p.dialer.server.peers p.dialer.addr .versionSent } }
      acceptor := p.acceptor.send [p.dialer.server.buildVersion arrival]
      started := true }
  else { p with started := true }

def PairStep.apply (cx : Context) (rates : FeeRates) (p : Pair) (arrival : Arrival) : PairStep → Pair
  | .start => p.start arrival
  | .toDialer =>
      if p.started then
        { p with
          dialer := (p.dialer.deliver cx rates arrival).1
          acceptor := p.acceptor.send (p.dialer.deliver cx rates arrival).2 }
      else p
  | .toAcceptor =>
      { p with
        acceptor := (p.acceptor.deliver cx rates arrival).1
        dialer := p.dialer.send (p.acceptor.deliver cx rates arrival).2 }
  | .pingDialer nonce =>
      if p.started ∧ ¬ p.dialer.closed then { p with acceptor := p.acceptor.send [.ping nonce] } else p
  | .pingAcceptor nonce => if p.acceptor.closed then p else { p with dialer := p.dialer.send [.ping nonce] }

def runPair (cx : Context) (rates : FeeRates) (p : Pair) (steps : List (Arrival × PairStep)) : Pair :=
  steps.foldl (fun p step => step.2.apply cx rates p step.1) p

/-- The connection is reliable and the next message of an end is within its rate limit. -/
def End.Smooth (e : End) (arrival : Arrival) : Prop :=
  arrival.writable = true ∧ (checkRateLimit e.server.peers arrival.clock e.addr).1 = false

def PairStep.Smooth (p : Pair) (arrival : Arrival) : PairStep → Prop
  | .toDialer => p.dialer.Smooth arrival
  | .toAcceptor => p.acceptor.Smooth arrival
  | _ => True

def AlwaysSmooth (cx : Context) (rates : FeeRates) : Pair → List (Arrival × PairStep) → Prop
  | _, [] => True
  | p, step :: rest => step.2.Smooth p step.1 ∧ AlwaysSmooth cx rates (step.2.apply cx rates p step.1) rest

/-- No `Version` and no `Verack` is on its way to an end that still reads. -/
def End.settled (e : End) : Prop := e.closed = true ∨ ∀ m ∈ e.queue, handshakeMessage m = false

/-- Nothing of the handshake is left to do. -/
def Pair.Maximal (p : Pair) : Prop := p.started = true ∧ p.dialer.settled ∧ p.acceptor.settled

/-- Both ends have registered each other and nothing has happened yet. -/
structure Connecting (p : Pair) (dir : Direction) : Prop where
  dialerDir : p.dialer.dir = dir
  acceptorDir : p.acceptor.dir = .inbound
  dialerEntry : handshakeAt p.dialer.server.peers p.dialer.addr = some .connected
  acceptorEntry : handshakeAt p.acceptor.server.peers p.acceptor.addr = some .connected
  dialerQueue : p.dialer.queue = []
  acceptorQueue : p.acceptor.queue = []
  fresh : p.started = false ∧ p.dialer.closed = false ∧ p.acceptor.closed = false ∧
    p.dialer.reached = false ∧ p.acceptor.reached = false

section Progress

variable {cx : Context} {rates : FeeRates} {e : End} {arrival : Arrival} {dir : Direction} {nonce : UInt64}
  {m : Message} {rest q r : List Message} {p : Pair}

/-- An end whose session runs and whose entry is there and not ready yet. -/
structure Fresh (e : End) (dir : Direction) (nonce : UInt64) : Prop where
  dir : e.dir = dir
  nonce : e.server.localNonce = nonce
  running : e.closed = false ∧ e.reached = false
  entry : ∃ state, handshakeAt e.server.peers e.addr = some state ∧ state ≠ .ready

/-- Pings and their answers. -/
def Quiet (q : List Message) : Prop := ∀ m ∈ q, (∃ n, m = .ping n) ∨ ∃ n, m = .pong n

/-- A `Version` that another node accepts. -/
def Hello (nonce : UInt64) (m : Message) : Prop :=
  ∃ v, m = .version v ∧ v.nonce = nonce ∧ v.version = protocolVersion ∧ v.services = 0x01

/-- Behind pings comes a `Verack`. -/
def Pending (q : List Message) : Prop := ∃ a b, q = a ++ .verack :: b ∧ Quiet a

theorem quiet_append (hq : Quiet q) (hr : Quiet r) : Quiet (q ++ r) := by
  intro m hm
  rcases List.mem_append.mp hm with hm | hm
  · exact hq m hm
  · exact hr m hm

theorem quiet_ping (n : UInt64) : Quiet [.ping n] := by
  intro m hm
  exact .inl ⟨n, List.mem_singleton.mp hm⟩

theorem Quiet.tail (h : Quiet (m :: rest)) : Quiet rest := fun x hx => h x (List.mem_cons_of_mem m hx)

theorem Pending.append (h : Pending q) (r : List Message) : Pending (q ++ r) := by
  obtain ⟨a, b, rfl, ha⟩ := h
  exact ⟨a, b ++ r, by simp, ha⟩

theorem Fresh.send (h : Fresh e dir nonce) (q : List Message) : Fresh (e.send q) dir nonce :=
  ⟨h.dir, h.nonce, h.running, h.entry⟩

theorem hello_buildVersion (s : Server) (arrival : Arrival) : Hello s.localNonce (s.buildVersion arrival) :=
  ⟨_, rfl, rfl, rfl, rfl⟩

theorem deliver_of_read {o : Response} (hqueue : e.queue = m :: rest) (hopen : e.closed = false)
    (hread : e.server.read cx rates arrival e.addr e.dir m = some o) : e.deliver cx rates arrival =
      ({ e with
         server := o.server
         queue := rest
         closed := o.closed
         reached := e.reached || handshakeAt o.server.peers e.addr == some .ready }, o.replies) := by
  unfold End.deliver
  rw [hqueue]
  simp only [hopen, Bool.false_eq_true, if_false, hread]

theorem Server.read_smooth (s : Server) (addr : SocketAddr) (dir : Direction) (m : Message)
    (hfree : (checkRateLimit s.peers arrival.clock addr).1 = false) : s.read cx rates arrival addr dir m =
      { s with peers := (checkRateLimit s.peers arrival.clock addr).2 }.handleMessage cx rates arrival addr dir
        m := by
  unfold Server.read
  generalize checkRateLimit s.peers arrival.clock addr = result at hfree ⊢
  obtain ⟨exceeded, peers⟩ := result
  simp only at hfree
  simp only [hfree, Bool.false_eq_true, if_false]

theorem Fresh.deliver (h : Fresh e dir nonce) (hqueue : e.queue = m :: rest) {server : Server} {replies : List Message}
    (hread : e.server.read cx rates arrival e.addr e.dir m = some ⟨server, replies, [], false⟩)
    (hnonce : server.localNonce = e.server.localNonce)
    (hentry : ∃ state, handshakeAt server.peers e.addr = some state ∧ state ≠ .ready) :
    Fresh (e.deliver cx rates arrival).1 dir nonce ∧ (e.deliver cx rates arrival).1.queue = rest ∧
      (e.deliver cx rates arrival).2 = replies := by
  rw [deliver_of_read hqueue h.running.1 hread]
  obtain ⟨state, hstate, hnot⟩ := hentry
  refine ⟨⟨h.dir, hnonce.trans h.nonce, ⟨rfl, ?_⟩, state, hstate, hnot⟩, rfl, rfl⟩
  simp only [h.running.2, hstate, Bool.false_or, beq_eq_false_iff_ne, ne_eq, Option.some.injEq]
  exact hnot

theorem Fresh.deliver_quiet (h : Fresh e dir nonce) (hsmooth : e.Smooth arrival) (hqueue : e.queue = m :: rest)
    (hm : Quiet [m]) : Fresh (e.deliver cx rates arrival).1 dir nonce ∧ (e.deliver cx rates arrival).1.queue = rest ∧
      Quiet (e.deliver cx rates arrival).2 := by
  obtain ⟨hwritable, hfree⟩ := hsmooth
  have hentry : ∃ state, handshakeAt (checkRateLimit e.server.peers arrival.clock e.addr).2 e.addr = some state ∧
      state ≠ .ready := by
    rw [handshakeAt_checkRateLimit]
    exact h.entry
  rcases hm m (List.mem_singleton.mpr rfl) with ⟨n, rfl⟩ | ⟨n, rfl⟩
  · have hread : e.server.read cx rates arrival e.addr e.dir (.ping n) = some
        ⟨{ e.server with peers := (checkRateLimit e.server.peers arrival.clock e.addr).2 }, [.pong n], [],
          false⟩ := by
      rw [Server.read_smooth e.server e.addr e.dir _ hfree]
      simp only [Server.handleMessage, Server.reply, hwritable, true_or, if_true]
    obtain ⟨hfresh, hrest, hreplies⟩ := h.deliver hqueue hread rfl hentry
    refine ⟨hfresh, hrest, ?_⟩
    rw [hreplies]
    intro x hx
    exact .inr ⟨n, List.mem_singleton.mp hx⟩
  · have hread : e.server.read cx rates arrival e.addr e.dir (.pong n) = some
        ⟨{ e.server with peers := (checkRateLimit e.server.peers arrival.clock e.addr).2 }, [], [], false⟩ := by
      rw [Server.read_smooth e.server e.addr e.dir _ hfree]
      rfl
    obtain ⟨hfresh, hrest, hreplies⟩ := h.deliver hqueue hread rfl hentry
    refine ⟨hfresh, hrest, ?_⟩
    rw [hreplies]
    intro x hx
    cases hx

theorem Hello.accepted {s : Server} {v : VersionPayload} (h : Hello nonce (.version v)) (hne : nonce ≠ s.localNonce) :
    s.acceptsVersion v = true := by
  obtain ⟨w, hw, hnonce, hversion, hservices⟩ := h
  obtain rfl := Message.version.inj hw
  unfold Server.acceptsVersion
  rw [hnonce, hversion, hservices, decide_eq_true_iff]
  exact ⟨hne, by decide, by decide⟩

theorem Fresh.deliver_hello_inbound {other : UInt64} (h : Fresh e .inbound nonce) (hsmooth : e.Smooth arrival)
    (hqueue : e.queue = m :: rest) (hm : Hello other m) (hne : other ≠ nonce) :
    Fresh (e.deliver cx rates arrival).1 .inbound nonce ∧ (e.deliver cx rates arrival).1.queue = rest ∧
      ∃ answer, Hello nonce answer ∧ (e.deliver cx rates arrival).2 = [answer, .verack] := by
  obtain ⟨hwritable, hfree⟩ := hsmooth
  obtain ⟨v, rfl, hv⟩ := hm
  let known : Server := { e.server with peers := (checkRateLimit e.server.peers arrival.clock e.addr).2 }
  have haccept : known.acceptsVersion v = true := Hello.accepted ⟨v, rfl, hv⟩ (h.nonce ▸ hne)
  have hread : e.server.read cx rates arrival e.addr e.dir (.version v) = some
      ⟨{ known with peers := setHandshake (setVersion known.peers e.addr v) e.addr .versionSent },
        [known.buildVersion arrival, .verack], [], false⟩ := by
    rw [Server.read_smooth e.server e.addr e.dir _ hfree, h.dir]
    show some (known.onVersion arrival e.addr .inbound v) = _
    simp only [Server.onVersion, haccept, if_true, hwritable, Server.reply, true_or]
  obtain ⟨state, hstate, -⟩ := h.entry
  obtain ⟨hfresh, hrest, hreplies⟩ := h.deliver hqueue hread rfl ⟨.versionSent, by
    rw [handshakeAt_setHandshake, if_pos rfl, handshakeAt_setVersion]
    show (handshakeAt (checkRateLimit e.server.peers arrival.clock e.addr).2 e.addr).map _ = _
    rw [handshakeAt_checkRateLimit, hstate]
    rfl, by simp⟩
  exact ⟨hfresh, hrest, known.buildVersion arrival, h.nonce ▸ hello_buildVersion known arrival, hreplies⟩

theorem Fresh.deliver_hello_outbound {other : UInt64} (h : Fresh e .outbound nonce) (hsmooth : e.Smooth arrival)
    (hqueue : e.queue = m :: rest) (hm : Hello other m) (hne : other ≠ nonce) :
    Fresh (e.deliver cx rates arrival).1 .outbound nonce ∧ (e.deliver cx rates arrival).1.queue = rest ∧
      (e.deliver cx rates arrival).2 = [.verack] := by
  obtain ⟨hwritable, hfree⟩ := hsmooth
  obtain ⟨v, rfl, hv⟩ := hm
  let known : Server := { e.server with peers := (checkRateLimit e.server.peers arrival.clock e.addr).2 }
  have haccept : known.acceptsVersion v = true := Hello.accepted ⟨v, rfl, hv⟩ (h.nonce ▸ hne)
  have hread : e.server.read cx rates arrival e.addr e.dir (.version v) = some
      ⟨{ known with peers := setVersion known.peers e.addr v }, [.verack], [], false⟩ := by
    rw [Server.read_smooth e.server e.addr e.dir _ hfree, h.dir]
    show some (known.onVersion arrival e.addr .outbound v) = _
    simp only [Server.onVersion, haccept, if_true, reduceCtorEq, if_false, hwritable, Server.reply, true_or]
  refine h.deliver hqueue hread rfl ?_
  rw [handshakeAt_setVersion]
  show ∃ state, handshakeAt (checkRateLimit e.server.peers arrival.clock e.addr).2 e.addr = some state ∧ _
  rw [handshakeAt_checkRateLimit]
  exact h.entry

theorem Fresh.deliver_verack (h : Fresh e dir nonce) (hsmooth : e.Smooth arrival) (hqueue : e.queue = .verack :: rest) :
    (e.deliver cx rates arrival).1.reached = true := by
  obtain ⟨o, hread, hready⟩ := read_verack cx rates e.dir hsmooth.2
  obtain ⟨state, hstate, -⟩ := h.entry
  rw [deliver_of_read hqueue h.running.1 hread]
  simp [hready, hstate]

theorem deliver_reached (h : e.reached = true) : (e.deliver cx rates arrival).1.reached = true := by
  unfold End.deliver
  split
  · exact h
  · split
    · exact h
    · split
      · exact h
      · simp only [h, Bool.true_or]

theorem Pending.cases (h : Pending q) : ∃ m rest, q = m :: rest ∧ (m = .verack ∨ Quiet [m] ∧ Pending rest) := by
  obtain ⟨a, b, rfl, ha⟩ := h
  cases a with
  | nil => exact ⟨_, b, rfl, .inl rfl⟩
  | cons m a =>
    refine ⟨m, a ++ .verack :: b, rfl, .inr ⟨?_, a, b, rfl, ha.tail⟩⟩
    intro x hx
    rw [List.mem_singleton.mp hx]
    exact ha m List.mem_cons_self

variable {dn an : UInt64}

/-- The stages of a handshake between a dialing end (direction `Outbound`, nonce `dn`) and an accepting end
(nonce `an`). -/
inductive Stage (dn an : UInt64) (p : Pair) : Prop where
  | idle (hstart : p.started = false) (hd : Fresh p.dialer .outbound dn) (ha : Fresh p.acceptor .inbound an)
      (hqd : Quiet p.dialer.queue) (hqa : Quiet p.acceptor.queue)
  | greeting (hstart : p.started = true) (hd : Fresh p.dialer .outbound dn) (ha : Fresh p.acceptor .inbound an)
      (hqd : Quiet p.dialer.queue) (a b : List Message) (m : Message) (hqa : p.acceptor.queue = a ++ m :: b)
      (hquiet : Quiet a ∧ Quiet b) (hm : Hello dn m)
  | answering (hstart : p.started = true) (hd : Fresh p.dialer .outbound dn) (ha : Fresh p.acceptor .inbound an)
      (hqa : Quiet p.acceptor.queue) (a b : List Message) (m : Message) (hqd : p.dialer.queue = a ++ m :: b)
      (hquiet : Quiet a ∧ Pending b) (hm : Hello an m)
  | crossing (hstart : p.started = true) (hd : Fresh p.dialer .outbound dn) (ha : Fresh p.acceptor .inbound an)
      (hqd : Pending p.dialer.queue) (hqa : Pending p.acceptor.queue)
  | dialerLeft (hstart : p.started = true) (hd : Fresh p.dialer .outbound dn) (hqd : Pending p.dialer.queue)
      (hreached : p.acceptor.reached = true)
  | acceptorLeft (hstart : p.started = true) (ha : Fresh p.acceptor .inbound an)
      (hqa : Pending p.acceptor.queue) (hreached : p.dialer.reached = true)
  | done (hstart : p.started = true) (hd : p.dialer.reached = true) (ha : p.acceptor.reached = true)

theorem Stage.sendAcceptor (h : Stage dn an p) (hq : Quiet q) :
    Stage dn an { p with acceptor := p.acceptor.send q } := by
  cases h with
  | idle hstart hd ha hqd hqa => exact .idle hstart hd (ha.send q) hqd (quiet_append hqa hq)
  | greeting hstart hd ha hqd a b m hqa hquiet hm =>
    refine .greeting hstart hd (ha.send q) hqd a (b ++ q) m ?_ ⟨hquiet.1, quiet_append hquiet.2 hq⟩ hm
    simp [End.send, hqa]
  | answering hstart hd ha hqa a b m hqd hquiet hm =>
    exact .answering hstart hd (ha.send q) (quiet_append hqa hq) a b m hqd hquiet hm
  | crossing hstart hd ha hqd hqa => exact .crossing hstart hd (ha.send q) hqd (hqa.append q)
  | dialerLeft hstart hd hqd hreached => exact .dialerLeft hstart hd hqd hreached
  | acceptorLeft hstart ha hqa hreached => exact .acceptorLeft hstart (ha.send q) (hqa.append q) hreached
  | done hstart hd ha => exact .done hstart hd ha

theorem Stage.sendDialer (h : Stage dn an p) (hq : Quiet q) : Stage dn an { p with dialer := p.dialer.send q } := by
  cases h with
  | idle hstart hd ha hqd hqa => exact .idle hstart (hd.send q) ha (quiet_append hqd hq) hqa
  | greeting hstart hd ha hqd a b m hqa hquiet hm =>
    exact .greeting hstart (hd.send q) ha (quiet_append hqd hq) a b m hqa hquiet hm
  | answering hstart hd ha hqa a b m hqd hquiet hm =>
    refine .answering hstart (hd.send q) ha hqa a (b ++ q) m ?_ ⟨hquiet.1, hquiet.2.append q⟩ hm
    simp [End.send, hqd]
  | crossing hstart hd ha hqd hqa => exact .crossing hstart (hd.send q) ha (hqd.append q) hqa
  | dialerLeft hstart hd hqd hreached => exact .dialerLeft hstart (hd.send q) (hqd.append q) hreached
  | acceptorLeft hstart ha hqa hreached => exact .acceptorLeft hstart ha hqa hreached
  | done hstart hd ha => exact .done hstart hd ha

theorem Stage.start (h : Stage dn an p) : Stage dn an (p.start arrival) := by
  unfold Pair.start
  split
  · exact h
  · rename_i hnot
    cases h with
    | idle hstart hd ha hqd hqa =>
      rw [if_pos hd.dir]
      obtain ⟨state, hstate, -⟩ := hd.entry
      have hentry : handshakeAt (setHandshake p.dialer.server.peers p.dialer.addr .versionSent) p.dialer.addr =
          some .versionSent := by
        rw [handshakeAt_setHandshake, if_pos rfl, hstate]
        rfl
      refine .greeting rfl ⟨hd.dir, hd.nonce, hd.running, .versionSent, hentry, by simp⟩ (ha.send _) hqd
        p.acceptor.queue [] _ rfl ⟨hqa, ?_⟩ (hd.nonce ▸ hello_buildVersion p.dialer.server arrival)
      intro x hx
      cases hx
    | greeting hstart | answering hstart | crossing hstart | dialerLeft hstart | acceptorLeft hstart
    | done hstart => exact absurd hstart hnot

theorem Stage.toDialer (h : Stage dn an p) (hne : an ≠ dn) (hsmooth : p.dialer.Smooth arrival)
    (hstarted : p.started = true) : Stage dn an { p with
      dialer := (p.dialer.deliver cx rates arrival).1
      acceptor := p.acceptor.send (p.dialer.deliver cx rates arrival).2 } := by
  -- a ping is answered and changes no stage
  have hquietStep : ∀ {m rest}, Fresh p.dialer .outbound dn → p.dialer.queue = m :: rest → Quiet [m] →
      Stage dn an { p with dialer := (p.dialer.deliver cx rates arrival).1 } →
      Stage dn an { p with
        dialer := (p.dialer.deliver cx rates arrival).1
        acceptor := p.acceptor.send (p.dialer.deliver cx rates arrival).2 } := by
    intro m rest hd hqueue hm hstage
    exact hstage.sendAcceptor (hd.deliver_quiet hsmooth hqueue hm).2.2
  have hempty : p.dialer.queue = [] → Stage dn an { p with
      dialer := (p.dialer.deliver cx rates arrival).1
      acceptor := p.acceptor.send (p.dialer.deliver cx rates arrival).2 } := by
    intro hqueue
    have hdeliver : p.dialer.deliver cx rates arrival = (p.dialer, []) := by
      unfold End.deliver
      rw [hqueue]
    rw [hdeliver]
    exact h.sendAcceptor fun x hx => by cases hx
  cases h with
  | idle hstart hd ha hqd hqa =>
    rw [hstart] at hstarted
    cases hstarted
  | greeting hstart hd ha hqd a b m hqa hquiet hm =>
    cases hqueue : p.dialer.queue with
    | nil => exact hempty hqueue
    | cons x rest =>
      rw [hqueue] at hqd
      have hx : Quiet [x] := fun y hy => hqd y (by rw [List.mem_singleton.mp hy]; exact List.mem_cons_self)
      obtain ⟨hfresh, hrest, -⟩ := hd.deliver_quiet hsmooth hqueue hx
      exact hquietStep hd hqueue hx (.greeting hstart hfresh ha (hrest ▸ hqd.tail) a b m hqa hquiet hm)
  | answering hstart hd ha hqa a b m hqd hquiet hm =>
    cases a with
    | nil =>
      obtain ⟨hfresh, hrest, hreplies⟩ := hd.deliver_hello_outbound hsmooth hqd hm hne
      rw [hreplies]
      refine .crossing hstart hfresh (ha.send _) ?_ ⟨p.acceptor.queue, [], rfl, hqa⟩
      show Pending (p.dialer.deliver cx rates arrival).1.queue
      rw [hrest]
      exact hquiet.2
    | cons x a =>
      have hx : Quiet [x] :=
        fun y hy => hquiet.1 y (by rw [List.mem_singleton.mp hy]; exact List.mem_cons_self)
      obtain ⟨hfresh, hrest, -⟩ := hd.deliver_quiet hsmooth hqd hx
      exact hquietStep hd hqd hx
        (.answering hstart hfresh ha hqa a b m hrest ⟨hquiet.1.tail, hquiet.2⟩ hm)
  | crossing hstart hd ha hqd hqa =>
    obtain ⟨x, rest, hqueue, rfl | ⟨hx, hrest'⟩⟩ := hqd.cases
    · exact .acceptorLeft hstart (ha.send _) (hqa.append _) (hd.deliver_verack hsmooth hqueue)
    · obtain ⟨hfresh, hrest, -⟩ := hd.deliver_quiet hsmooth hqueue hx
      exact hquietStep hd hqueue hx (.crossing hstart hfresh ha (hrest ▸ hrest') hqa)
  | dialerLeft hstart hd hqd hreached =>
    obtain ⟨x, rest, hqueue, rfl | ⟨hx, hrest'⟩⟩ := hqd.cases
    · exact .done hstart (hd.deliver_verack hsmooth hqueue) hreached
    · obtain ⟨hfresh, hrest, -⟩ := hd.deliver_quiet hsmooth hqueue hx
      exact hquietStep hd hqueue hx (.dialerLeft hstart hfresh (hrest ▸ hrest') hreached)
  | acceptorLeft hstart ha hqa hreached =>
    exact .acceptorLeft hstart (ha.send _) (hqa.append _) (deliver_reached hreached)
  | done hstart hd ha => exact .done hstart (deliver_reached hd) ha

theorem Stage.toAcceptor (h : Stage dn an p) (hne : dn ≠ an) (hsmooth : p.acceptor.Smooth arrival) :
    Stage dn an { p with
      acceptor := (p.acceptor.deliver cx rates arrival).1
      dialer := p.dialer.send (p.acceptor.deliver cx rates arrival).2 } := by
  have hquietStep : ∀ {m rest}, Fresh p.acceptor .inbound an → p.acceptor.queue = m :: rest → Quiet [m] →
      Stage dn an { p with acceptor := (p.acceptor.deliver cx rates arrival).1 } →
      Stage dn an { p with
        acceptor := (p.acceptor.deliver cx rates arrival).1
        dialer := p.dialer.send (p.acceptor.deliver cx rates arrival).2 } := by
    intro m rest ha hqueue hm hstage
    exact hstage.sendDialer (ha.deliver_quiet hsmooth hqueue hm).2.2
  have hempty : p.acceptor.queue = [] → Stage dn an { p with
      acceptor := (p.acceptor.deliver cx rates arrival).1
      dialer := p.dialer.send (p.acceptor.deliver cx rates arrival).2 } := by
    intro hqueue
    have hdeliver : p.acceptor.deliver cx rates arrival = (p.acceptor, []) := by
      unfold End.deliver
      rw [hqueue]
    rw [hdeliver]
    exact h.sendDialer fun x hx => by cases hx
  have hhead : ∀ {x : Message} {l : List Message}, Quiet (x :: l) → Quiet [x] :=
    fun hq y hy => hq y (by rw [List.mem_singleton.mp hy]; exact List.mem_cons_self)
  cases h with
  | idle hstart hd ha hqd hqa =>
    cases hqueue : p.acceptor.queue with
    | nil => exact hempty hqueue
    | cons x rest =>
      rw [hqueue] at hqa
      obtain ⟨hfresh, hrest, -⟩ := ha.deliver_quiet hsmooth hqueue (hhead hqa)
      exact hquietStep ha hqueue (hhead hqa) (.idle hstart hd hfresh hqd (hrest ▸ hqa.tail))
  | greeting hstart hd ha hqd a b m hqa hquiet hm =>
    cases a with
    | nil =>
      obtain ⟨hfresh, hrest, answer, hanswer, hreplies⟩ := ha.deliver_hello_inbound hsmooth hqa hm hne
      rw [hreplies]
      refine .answering hstart (hd.send _) hfresh ?_ p.dialer.queue [.verack] answer rfl ⟨hqd, [], [], rfl, ?_⟩
        hanswer
      · show Quiet (p.acceptor.deliver cx rates arrival).1.queue
        rw [hrest]
        exact hquiet.2
      · intro x hx
        cases hx
    | cons x a =>
      obtain ⟨hfresh, hrest, -⟩ := ha.deliver_quiet hsmooth hqa (hhead hquiet.1)
      exact hquietStep ha hqa (hhead hquiet.1)
        (.greeting hstart hd hfresh hqd a b m hrest ⟨hquiet.1.tail, hquiet.2⟩ hm)
  | answering hstart hd ha hqa a b m hqd hquiet hm =>
    cases hqueue : p.acceptor.queue with
    | nil => exact hempty hqueue
    | cons x rest =>
      rw [hqueue] at hqa
      obtain ⟨hfresh, hrest, -⟩ := ha.deliver_quiet hsmooth hqueue (hhead hqa)
      exact hquietStep ha hqueue (hhead hqa)
        (.answering hstart hd hfresh (hrest ▸ hqa.tail) a b m hqd hquiet hm)
  | crossing hstart hd ha hqd hqa =>
    obtain ⟨x, rest, hqueue, rfl | ⟨hx, hrest'⟩⟩ := hqa.cases
    · exact .dialerLeft hstart (hd.send _) (hqd.append _) (ha.deliver_verack hsmooth hqueue)
    · obtain ⟨hfresh, hrest, -⟩ := ha.deliver_quiet hsmooth hqueue hx
      exact hquietStep ha hqueue hx (.crossing hstart hd hfresh hqd (hrest ▸ hrest'))
  | dialerLeft hstart hd hqd hreached =>
    exact .dialerLeft hstart (hd.send _) (hqd.append _) (deliver_reached hreached)
  | acceptorLeft hstart ha hqa hreached =>
    obtain ⟨x, rest, hqueue, rfl | ⟨hx, hrest'⟩⟩ := hqa.cases
    · exact .done hstart hreached (ha.deliver_verack hsmooth hqueue)
    · obtain ⟨hfresh, hrest, -⟩ := ha.deliver_quiet hsmooth hqueue hx
      exact hquietStep ha hqueue hx (.acceptorLeft hstart hfresh (hrest ▸ hrest') hreached)
  | done hstart hd ha => exact .done hstart hd (deliver_reached ha)

theorem Stage.run (h : Stage dn an p) (hne : dn ≠ an) {steps : List (Arrival × PairStep)}
    (hsmooth : AlwaysSmooth cx rates p steps) : Stage dn an (runPair cx rates p steps) := by
  induction steps generalizing p with
  | nil => exact h
  | cons step steps ih =>
    obtain ⟨hstep, hrest⟩ := hsmooth
    refine ih ?_ hrest
    obtain ⟨arrival, step⟩ := step
    cases step with
    | start => exact h.start
    | toDialer =>
      simp only [PairStep.apply]
      split
      · rename_i hstarted
        exact h.toDialer hne.symm hstep hstarted
      · exact h
    | toAcceptor => exact h.toAcceptor hne hstep
    | pingDialer nonce =>
      simp only [PairStep.apply]
      split
      · exact h.sendAcceptor (quiet_ping nonce)
      · exact h
    | pingAcceptor nonce =>
      simp only [PairStep.apply]
      split
      · exact h
      · exact h.sendDialer (quiet_ping nonce)

theorem not_settled (hopen : e.closed = false) {a b : List Message} (hqueue : e.queue = a ++ m :: b)
    (hm : handshakeMessage m = true) : ¬ e.settled := by
  rintro (hclosed | hnone)
  · rw [hopen] at hclosed
    cases hclosed
  · have hmem : m ∈ e.queue := by
      rw [hqueue]
      exact List.mem_append_right a List.mem_cons_self
    rw [hnone m hmem] at hm
    cases hm

theorem Hello.handshake (h : Hello nonce m) : handshakeMessage m = true := by
  obtain ⟨v, rfl, -⟩ := h
  rfl

theorem Stage.reached (h : Stage dn an p) (hmax : p.Maximal) : p.dialer.reached = true ∧ p.acceptor.reached = true := by
  obtain ⟨hstarted, hdialer, hacceptor⟩ := hmax
  cases h with
  | idle hstart =>
    rw [hstart] at hstarted
    cases hstarted
  | greeting hstart hd ha hqd a b m hqa hquiet hm =>
    exact absurd hacceptor (not_settled ha.running.1 hqa hm.handshake)
  | answering hstart hd ha hqa a b m hqd hquiet hm =>
    exact absurd hdialer (not_settled hd.running.1 hqd hm.handshake)
  | crossing hstart hd ha hqd hqa =>
    obtain ⟨a, b, hqueue, -⟩ := hqd
    exact absurd hdialer (not_settled hd.running.1 hqueue rfl)
  | dialerLeft hstart hd hqd hreached =>
    obtain ⟨a, b, hqueue, -⟩ := hqd
    exact absurd hdialer (not_settled hd.running.1 hqueue rfl)
  | acceptorLeft hstart ha hqa hreached =>
    obtain ⟨a, b, hqueue, -⟩ := hqa
    exact absurd hacceptor (not_settled ha.running.1 hqueue rfl)
  | done hstart hd ha => exact ⟨hd, ha⟩

theorem Connecting.stage (h : Connecting p .outbound) :
    Stage p.dialer.server.localNonce p.acceptor.server.localNonce p := by
  obtain ⟨hstart, hdc, hac, hdr, har⟩ := h.fresh
  have hnothing : Quiet [] := fun x hx => by cases hx
  exact .idle hstart ⟨h.dialerDir, rfl, ⟨hdc, hdr⟩, .connected, h.dialerEntry, by simp⟩
    ⟨h.acceptorDir, rfl, ⟨hac, har⟩, .connected, h.acceptorEntry, by simp⟩
    (h.dialerQueue ▸ hnothing) (h.acceptorQueue ▸ hnothing)

/-- A node that dials for block relay only starts without a `Version`, and the other end waits for one. -/
theorem Connecting.stuck (cx : Context) (rates : FeeRates) (arrival : Arrival) (h : Connecting p dir)
    (hdir : dir ≠ .outbound) : (runPair cx rates p [(arrival, .start)]).Maximal ∧
      (runPair cx rates p [(arrival, .start)]).dialer.reached = false := by
  obtain ⟨hstart, hdc, hac, hdr, har⟩ := h.fresh
  have hrun : runPair cx rates p [(arrival, .start)] = { p with started := true } := by
    show p.start arrival = _
    unfold Pair.start
    rw [if_neg (by rw [hstart]; exact Bool.false_ne_true), if_neg (h.dialerDir ▸ hdir)]
  rw [hrun]
  refine ⟨⟨rfl, .inr ?_, .inr ?_⟩, hdr⟩
  · show ∀ m ∈ p.dialer.queue, _
    rw [h.dialerQueue]
    intro m hm
    cases hm
  · show ∀ m ∈ p.acceptor.queue, _
    rw [h.acceptorQueue]
    intro m hm
    cases hm

end Progress

end Pairs

section Handshake

variable (cx : Context) (rates : FeeRates)

/-- A server without peers and sessions. -/
def Node.idle (s : Server) : Node := ⟨{ s with peers := { s.peers with peers := ∅, senders := ∅ } }, ∅, ∅⟩

theorem sound_idle (s : Server) : Sound (Node.idle s) where
  safe a ha := by
    rw [handshakeAt, Node.idle, Finmap.lookup_empty] at ha
    cases ha
  fresh id l hlook := by
    rw [Node.idle, Finmap.lookup_empty] at hlook
    cases hlook

/-- A message that arrives at an instant on a quiet day. -/
def arrivalAt (now : ℕ) : Arrival := ⟨momentAt now, ProvenWork.quietDay, true, none, []⟩

/-- In every run of a node, with whatever its peers send, entries are ready only after an accepted `Version`
exactly if no `Verack` is handled before one; and two nodes complete every handshake exactly if
the end that dials is `Outbound`. -/
theorem handshake_safe_and_live_iff : (∀ (s : Server) (events : List (Arrival × LinkEvent)),
      AlwaysSafe cx rates (Node.idle s) events ↔ AlwaysGreeted cx rates (Node.idle s) events) ∧
    ∀ (p : Pair) (dir : Direction), dir = .outbound ∨ dir = .blockRelayOnly → Connecting p dir →
      p.dialer.server.localNonce ≠ p.acceptor.server.localNonce →
      ((∀ steps, AlwaysSmooth cx rates p steps → (runPair cx rates p steps).Maximal →
        (runPair cx rates p steps).dialer.reached = true ∧ (runPair cx rates p steps).acceptor.reached = true) ↔
          dir = .outbound) := by
  refine ⟨fun s events => alwaysSafe_iff (sound_idle s) events, ?_⟩
  intro p dir hdir hconn hne
  constructor
  · intro hall
    by_contra hother
    obtain ⟨hmax, hnot⟩ := hconn.stuck cx rates (arrivalAt 0) hother
    obtain ⟨hreached, -⟩ := hall [(arrivalAt 0, .start)] ⟨trivial, trivial⟩ hmax
    rw [hnot] at hreached
    cases hreached
  · rintro rfl steps hsmooth hmax
    exact (hconn.stage.run hne hsmooth).reached hmax

end Handshake

section Connections

open Runs

/-- A node with a session that has just been registered. -/
def endAt (s : NodeState) (nonce : UInt64) (addr : SocketAddr) (dir : Direction) : End :=
  { server := ⟨ProvenWork.opened s, (PeerManager.new .default).insertPeer (momentAt 0) addr dir, nonce⟩
    addr := addr
    dir := dir
    queue := []
    closed := false
    reached := false }

def pairAt (s : NodeState) (dir : Direction) : Pair :=
  ⟨endAt s 7 firstAddr dir, endAt s 11 secondAddr .inbound, false⟩

theorem pairAt_connecting (s : NodeState) (dir : Direction) : Connecting (pairAt s dir) dir := by
  refine ⟨rfl, rfl, ?_, ?_, rfl, rfl, rfl, rfl, rfl, rfl, rfl⟩
  · show handshakeAt ((PeerManager.new .default).insertPeer (momentAt 0) firstAddr dir) firstAddr = _
    rw [PeerManager.insertPeer, handshakeAt_insert, if_pos rfl]
    rfl
  · show handshakeAt ((PeerManager.new .default).insertPeer (momentAt 0) secondAddr .inbound) secondAddr = _
    rw [PeerManager.insertPeer, handshakeAt_insert, if_pos rfl]
    rfl

instance decidableSmooth (p : Pair) (arrival : Arrival) (step : PairStep) : Decidable (step.Smooth p arrival) :=
  match step with
  | .toDialer => inferInstanceAs (Decidable (_ ∧ _))
  | .toAcceptor => inferInstanceAs (Decidable (_ ∧ _))
  | .start | .pingDialer _ | .pingAcceptor _ => inferInstanceAs (Decidable True)

instance decidableAlwaysSmooth (cx : Context) (rates : FeeRates) (p : Pair) :
    (steps : List (Arrival × PairStep)) → Decidable (AlwaysSmooth cx rates p steps)
  | [] => inferInstanceAs (Decidable True)
  | step :: rest =>
      have := decidableAlwaysSmooth cx rates (step.2.apply cx rates p step.1) rest
      inferInstanceAs (Decidable (_ ∧ _))

/-- The four messages of a handshake, with a ping at its beginning. -/
def handshakeSteps : List (Arrival × PairStep) :=
  [(arrivalAt 1, .pingAcceptor 3), (arrivalAt 2, .start), (arrivalAt 3, .toAcceptor), (arrivalAt 4, .toDialer),
    (arrivalAt 5, .toDialer), (arrivalAt 6, .toAcceptor), (arrivalAt 7, .toDialer), (arrivalAt 8, .toAcceptor)]

instance decidableSettled (e : End) : Decidable e.settled := inferInstanceAs (Decidable (_ ∨ _))

instance decidableMaximal (p : Pair) : Decidable p.Maximal := inferInstanceAs (Decidable (_ ∧ _ ∧ _))

theorem handshakeSteps_complete : ∃ p, Connecting p .outbound ∧
      (runPair regtest PoolEvictions.exactRates p handshakeSteps).dialer.reached = true ∧
      (runPair regtest PoolEvictions.exactRates p handshakeSteps).acceptor.reached = true := by
  have hrun : ((nodeAfter regtest today 1 []).any fun s =>
      decide (AlwaysSmooth regtest PoolEvictions.exactRates (pairAt s .outbound) handshakeSteps) &&
      decide (runPair regtest PoolEvictions.exactRates (pairAt s .outbound) handshakeSteps).Maximal) = true := by
    rw [← runRegtest_eq]
    decide +kernel
  obtain ⟨s, -, hboth⟩ := (Option.any_eq_true _ _).mp hrun
  obtain ⟨hsmooth, hmax⟩ := (Bool.and_eq_true _ _).mp hboth
  have hconn := pairAt_connecting s .outbound
  exact ⟨pairAt s .outbound, hconn,
    ((handshake_safe_and_live_iff regtest PoolEvictions.exactRates).2 _ _ (.inl rfl) hconn (by simp [pairAt, endAt])).mpr
      rfl handshakeSteps (of_decide_eq_true hsmooth) (of_decide_eq_true hmax)⟩

/-- An inbound session that has just begun to read. -/
def firstReading (s : NodeState) : Node :=
  [(arrivalAt 1, LinkEvent.register 0 firstAddr .inbound), (arrivalAt 2, .start 0 true true)].foldl
    (fun n e => e.2.apply regtest PoolEvictions.exactRates n e.1)
    (Node.idle ⟨ProvenWork.opened s, PeerManager.new .default, 7⟩)

/-- A peer that sends nothing but a `Verack` is ready, and a node that dials for block relay only never is. -/
theorem handshake_unsafe_and_stuck : ∃ s, nodeAfter regtest today 1 [] = some s ∧
      ¬ AlwaysSafe regtest PoolEvictions.exactRates
        (Node.idle ⟨ProvenWork.opened s, PeerManager.new .default, 7⟩)
        [(arrivalAt 1, .register 0 firstAddr .inbound), (arrivalAt 2, .start 0 true true),
          (arrivalAt 3, .receive 0 .verack)] ∧
      Connecting (pairAt s .blockRelayOnly) .blockRelayOnly ∧
      (runPair regtest PoolEvictions.exactRates (pairAt s .blockRelayOnly) [(arrivalAt 1, .start)]).Maximal ∧
      (runPair regtest PoolEvictions.exactRates (pairAt s .blockRelayOnly)
        [(arrivalAt 1, .start)]).dialer.reached = false := by
  have hreading : ((nodeAfter regtest today 1 []).any fun s =>
      decide ((firstReading s).links.lookup 0 = some ⟨firstAddr, .inbound, .reading, false⟩) &&
      decide (firstAddr ∈ (firstReading s).server.peers.peers) &&
      decide ((checkRateLimit (firstReading s).server.peers (momentAt 3) firstAddr).1 = false)) = true := by
    rw [← runRegtest_eq]
    decide +kernel
  obtain ⟨s, hs, hall⟩ := (Option.any_eq_true _ _).mp hreading
  simp only [Bool.and_eq_true, decide_eq_true_iff] at hall
  obtain ⟨⟨hlook, hmem⟩, hfree⟩ := hall
  have hconn := pairAt_connecting s .blockRelayOnly
  refine ⟨s, hs, ?_, hconn, hconn.stuck _ _ (arrivalAt 1) (by simp)⟩
  intro hsafe
  obtain ⟨-, -, hlast, -⟩ := (alwaysSafe_iff (sound_idle _) _).mp hsafe
  have haccepted := hlast ⟨firstAddr, .inbound, .reading, false⟩ hlook rfl hmem hfree
  cases haccepted

end Connections

end KuberCoin.Greetings
