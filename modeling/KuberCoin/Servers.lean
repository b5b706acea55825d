import KuberCoin.SessionRegistries

/-!
The messages of the network (`network/message.rs`) and what `handle_message` (`network/server.rs`) does
with each of them. A handler leaves the chain, the pool and the books of the peers, and returns what it
sends back to the peer. A message that cannot be sent, because the writer of the session has
stopped, ends the handler.
-/
namespace KuberCoin.Servers

open Bytes Maps Transactions Blocks NodeStates NodeStates.NodeState AddBlock Mempools Handlers Peers PeerManagers
  SessionRegistries Sighashes

section Data

def protocolVersion : UInt32 := 70016

def minProtocolVersion : UInt32 := 70015

/-- The service bit of a peer that serves full blocks. -/
def nodeNetwork : UInt64 := 0x01

def maxAddrPerMsg : ℕ := 1000

def maxInvSize : ℕ := 50000

def maxHeadersPerMsg : ℕ := 2000

inductive InvType where
  | block
  | tx
deriving DecidableEq

structure InvItem where
  invType : InvType
  hash : Bytes32
deriving DecidableEq

structure VersionPayload where
  version : UInt32
  services : UInt64
  timestamp : UInt64
  startHeight : ℕ
  nonce : UInt64
  userAgent : String

structure AddrEntry where
  timestamp : UInt64
  services : UInt64
  addr : SocketAddr

/-- A compact block, as far as its handler reads it before the reconstruction. -/
structure CompactBlock where
  header : BlockHeader
  nonce : UInt64

inductive Message where
  | version (v : VersionPayload)
  | verack
  | getAddr
  | addr (entries : List AddrEntry)
  | ping (nonce : UInt64)
  | pong (nonce : UInt64)
  | inv (items : List InvItem)
  | getData (items : List InvItem)
  | notFound (items : List InvItem)
  | getBlocks (locator : List Bytes32) (stopHash : Bytes32)
  | getHeaders (locator : List Bytes32) (stopHash : Bytes32)
  | headers (headers : List BlockHeader)
  | blockMsg (b : Block)
  | txMsg (tx : Transaction)
  | reject (message reason : String)
  | sendCmpct (announce : Bool) (version : UInt64)
  | cmpctBlock (compact : CompactBlock)
  | getBlockTxn (blockhash : Bytes32) (indices : List UInt64)
  | blockTxn (blockhash : Bytes32) (transactions : List (List UInt8))
  | feeFilter (rate : UInt64)
  | sendHeaders
  | wtxidRelay
  | sendAddrV2
  | addrV2 (entries : List (List UInt8 × UInt16))

/-- What the handlers of a node share, its books about the peers, and the nonce of its own
`Version` messages. -/
structure Server where
  app : App
  peers : PeerManager
  localNonce : UInt64

/-- What a handler meets outside the server: the clocks and map orders of its calls, whether the
writer takes its messages, what is missing for a compact block (nothing if it can be
reconstructed), and the addresses that the address book gives out. -/
structure Arrival where
  clock : Moment
  sur : Surroundings
  writable : Bool
  missing : Option (List UInt64)
  addrs : List AddrEntry

/-- What a handler leaves; `closed` when it ends the session. -/
structure Response where
  server : Server
  replies : List Message
  announced : List Block
  closed : Bool

end Data

section Books

/-- `PeerManager::set_handshake`. -/
def setHandshake (s : PeerManager) (addr : SocketAddr) (state : HandshakeState) : PeerManager :=
  match s.peers.lookup addr with
  | none => s
  | some e => { s with peers := s.peers.insert addr { e with info := { e.info with handshake := state } } }

/-- `PeerManager::set_version`; of the payload only the height is read again. -/
def setVersion (s : PeerManager) (addr : SocketAddr) (v : VersionPayload) : PeerManager :=
  match s.peers.lookup addr with
  | none => s
  | some e =>
      { s with peers := s.peers.insert addr { e with info := { e.info with startHeight := some v.startHeight } } }

/-- `PeerManager::set_send_headers`. -/
def setSendHeaders (s : PeerManager) (addr : SocketAddr) : PeerManager :=
  match s.peers.lookup addr with
  | none => s
  | some e => { s with peers := s.peers.insert addr { e with info := { e.info with sendHeaders := true } } }

/-- `PeerManager::peer_height`. -/
def peerHeight (s : PeerManager) (addr : SocketAddr) : Option ℕ :=
  (s.peers.lookup addr).bind fun e => e.info.startHeight

/-- `PeerManager::is_block_relay_only`. -/
def isBlockRelayOnly (s : PeerManager) (addr : SocketAddr) : Bool :=
  (s.peers.lookup addr).any fun e => e.info.isBlockRelayOnly

/-- The handshake state of the entry under an address. -/
def handshakeAt (s : PeerManager) (a : SocketAddr) : Option HandshakeState :=
  (s.peers.lookup a).map fun e => e.info.handshake

theorem handshakeAt_insert (s : PeerManager) (addr : SocketAddr) (e : PeerEntry) (a : SocketAddr) :
    handshakeAt { s with peers := s.peers.insert addr e } a =
      if a = addr then some e.info.handshake else handshakeAt s a := by
  unfold handshakeAt
  rw [lookup_insert_eq]
  split <;> rfl

theorem handshakeAt_remove (s : PeerManager) (addr a : SocketAddr) :
    handshakeAt (s.remove addr) a = if a = addr then none else handshakeAt s a := by
  unfold handshakeAt PeerManager.remove
  rw [lookup_erase_eq]
  split <;> rfl

theorem handshakeAt_update {s : PeerManager} {addr : SocketAddr} {e e' : PeerEntry}
    (hlook : s.peers.lookup addr = some e) (hsame : e'.info.handshake = e.info.handshake) (a : SocketAddr) :
    handshakeAt { s with peers := s.peers.insert addr e' } a = handshakeAt s a := by
  rw [handshakeAt_insert]
  split
  · rename_i heq
    rw [heq, handshakeAt, hlook, hsame]
    rfl
  · rfl

theorem handshakeAt_setHandshake (s : PeerManager) (addr : SocketAddr) (state : HandshakeState) (a : SocketAddr) :
    handshakeAt (setHandshake s addr state) a =
      if a = addr then (handshakeAt s a).map fun _ => state else handshakeAt s a := by
  unfold setHandshake
  cases hlook : s.peers.lookup addr with
  | none =>
    simp only
    split
    · rename_i heq
      rw [heq, handshakeAt, hlook]
      rfl
    · rfl
  | some e =>
    simp only
    rw [handshakeAt_insert]
    split
    · rename_i heq
      rw [heq, handshakeAt, hlook]
      rfl
    · rfl

@[simp] theorem handshakeAt_setVersion (s : PeerManager) (addr : SocketAddr) (v : VersionPayload) (a : SocketAddr) :
    handshakeAt (setVersion s addr v) a = handshakeAt s a := by
  unfold setVersion
  split
  · rfl
  · rename_i e hlook
    exact @handshakeAt_update s addr e { e with info := { e.info with startHeight := some v.startHeight } }
      hlook rfl a

@[simp] theorem handshakeAt_setSendHeaders (s : PeerManager) (addr a : SocketAddr) :
    handshakeAt (setSendHeaders s addr) a = handshakeAt s a := by
  unfold setSendHeaders
  split
  · rfl
  · rename_i e hlook
    exact @handshakeAt_update s addr e { e with info := { e.info with sendHeaders := true } } hlook rfl a

@[simp] theorem handshakeAt_checkRateLimit (s : PeerManager) (clock : Moment) (addr a : SocketAddr) :
    handshakeAt (checkRateLimit s clock addr).2 a = handshakeAt s a := by
  unfold checkRateLimit
  cases hlook : s.peers.lookup addr with
  | none => rfl
  | some e => exact handshakeAt_update hlook PeerInfo.checkRateLimit_handshake a

theorem handshakeAt_addMisbehaviour (s : PeerManager) (clock : Moment) (addr : SocketAddr) (score : UInt32)
    (reason : String) (a : SocketAddr) : handshakeAt (s.addMisbehaviourWithReason clock addr score reason).2 a =
      if (s.addMisbehaviourWithReason clock addr score reason).1 = true ∧ a = addr then none
      else handshakeAt s a := by
  rcases addMisbehaviour_result s clock addr score reason with h | h | ⟨e, e', hlook, -, hsame, h⟩
  · simp only [h, true_and]
    exact handshakeAt_remove (s.ban clock addr.ip reason) addr a
  · simp [h]
  · simp only [h, Bool.false_eq_true, false_and, if_false]
    exact handshakeAt_update hlook hsame a

end Books

section Chains

variable (sha256 : Sha256) (s : NodeState)

/-- The loop of `build_locator` from a height down, with the hashes found so far; `none` if it has not
ended when the fuel is used up. -/
def locatorLoop : ℕ → ℕ → ℕ → List Bytes32 → Option (List Bytes32)
  | 0, _, _, _ => none
  | fuel + 1, h, step, locator =>
      let locator := locator ++ (s.getBlockHash h).toList
      if h = 0 then some locator
      else locatorLoop fuel (h - step) (if 10 ≤ locator.length then step * 2 else step) locator

/-- `build_locator`: each round goes down, so that one round for each height is enough. -/
def buildLocator : List Bytes32 := (locatorLoop s (s.height + 1) s.height 1 []).getD []

/-- The height of the first hash of a locator whose block is known. -/
def startHeight (locator : List Bytes32) : ℕ :=
  (locator.findSome? fun h => (s.getBlock h).map fun b => b.header.height).getD 0

/-- The loop of the `GetHeaders` handler. -/
def collectHeaders (stopHash : Bytes32) : List ℕ → List BlockHeader → List BlockHeader
  | [], headers => headers
  | h :: heights, headers =>
      match (s.getBlockHash h).bind fun hash => (s.getBlock hash).map (Prod.mk hash) with
      | none => collectHeaders stopHash heights headers
      | some (hash, b) =>
          if hash = stopHash ∨ maxHeadersPerMsg ≤ (headers ++ [b.header]).length then headers ++ [b.header]
          else collectHeaders stopHash heights (headers ++ [b.header])

/-- The answer to `GetHeaders`. -/
def headersReply (locator : List Bytes32) (stopHash : Bytes32) : List BlockHeader :=
  collectHeaders s stopHash
    (List.range' (startHeight s locator + 1) (s.height - startHeight s locator)) []

/-- The loop of the `GetBlocks` handler. -/
def collectInv (stopHash : Bytes32) : List ℕ → List InvItem → List InvItem
  | [], items => items
  | h :: heights, items =>
      match s.getBlockHash h with
      | none => collectInv stopHash heights items
      | some hash =>
          if hash = stopHash ∨ 500 ≤ (items ++ [InvItem.mk .block hash]).length then items ++ [⟨.block, hash⟩]
          else collectInv stopHash heights (items ++ [⟨.block, hash⟩])

/-- The answer to `GetBlocks`. -/
def invReply (locator : List Bytes32) (stopHash : Bytes32) : List InvItem :=
  collectInv s stopHash (List.range' (startHeight s locator + 1) (s.height - startHeight s locator)) []

/-- A header must follow the one before it, or a stored block. The state of the loop is the hash of
the header before and the hashes to request. -/
def checkHeader (p : Bytes32 × List Bytes32) (hdr : BlockHeader) : Option (Bytes32 × List Bytes32) :=
  if hdr.prevHash ≠ p.1 ∧ s.getBlock hdr.prevHash = none then none
  else
    some (hdr.hash sha256, if s.getBlock (hdr.hash sha256) = none then p.2 ++ [hdr.hash sha256] else p.2)

/-- The loop of the `Headers` handler: the hashes to request, `none` if the headers do not connect. -/
def checkHeaders (headers : List BlockHeader) : Option (List Bytes32) :=
  (headers.foldlM (checkHeader sha256 s) (s.tip, [])).map Prod.snd

end Chains

namespace Server

def stay (s : Server) : Response := ⟨s, [], [], false⟩

def close (s : Server) : Response := ⟨s, [], [], true⟩

/-- Messages for the peer; if the writer has stopped, the handler ends. -/
def reply (s : Server) (arrival : Arrival) (messages : List Message) : Response :=
  if arrival.writable ∨ messages = [] then ⟨s, messages, [], false⟩ else s.close

/-- Points for the peer; a ban ends the session. -/
def penalise (s : Server) (arrival : Arrival) (addr : SocketAddr) (score : UInt32) (reason : String) :
    Response :=
  let (banned, peers) := s.peers.addMisbehaviourWithReason arrival.clock addr score reason
  ⟨{ s with peers := peers }, [], [], banned⟩

def setSyncState (s : Server) (state : SyncState) : Server := { s with app := { s.app with syncState := state } }

/-- `build_version`. -/
def buildVersion (s : Server) (arrival : Arrival) : Message :=
  .version
    { version := protocolVersion
      services := 0x01
      timestamp := arrival.clock.unix
      startHeight := s.app.node.height
      nonce := s.localNonce
      userAgent := "/kubercoin:1.0.19/" }

/-- The nonce, the protocol version and the service bit of a `Version` message. -/
def acceptsVersion (s : Server) (v : VersionPayload) : Bool :=
  v.nonce ≠ s.localNonce ∧ minProtocolVersion ≤ v.version ∧ v.services &&& nodeNetwork ≠ 0

def onVersion (s : Server) (arrival : Arrival) (addr : SocketAddr) (dir : Direction) (v : VersionPayload) :
    Response :=
  if s.acceptsVersion v then
    let known := { s with peers := setVersion s.peers addr v }
    if dir = .inbound then
      if arrival.writable then
        { known with peers := setHandshake known.peers addr .versionSent }.reply arrival
          [s.buildVersion arrival, .verack]
      else known.close
    else known.reply arrival [.verack]
  else s.close

/-- What a node sends when the handshake is complete. -/
def greeting : List Message := [.sendHeaders, .wtxidRelay, .sendAddrV2, .feeFilter 1000, .getAddr]

def onVerack (s : Server) (arrival : Arrival) (addr : SocketAddr) : Response :=
  let ready := { s with peers := setHandshake s.peers addr .ready }
  if ¬ arrival.writable then ready.close
  else if s.app.node.height < (peerHeight ready.peers addr).getD 0 then
    ready.reply arrival (greeting ++ [.getHeaders (buildLocator s.app.node) Bytes32.zero])
  else if s.app.syncState = .headerSync then (ready.setSyncState .synced).reply arrival greeting
  else ready.reply arrival greeting

def onInv (s : Server) (arrival : Arrival) (addr : SocketAddr) (items : List InvItem) : Response :=
  if maxInvSize < items.length then s.penalise arrival addr 20 "oversized Inv"
  else
    let needed := items.filter fun i =>
      match i.invType with
      | .block => (s.app.node.getBlock i.hash).isNone
      | .tx => i.hash ∉ s.app.mempool.transactions
    s.reply arrival (if needed.isEmpty then [] else [.getData needed])

def dataReply (s : Server) (item : InvItem) : Message :=
  match item.invType with
  | .block =>
      match s.app.node.getBlock item.hash with
      | some b => .blockMsg b
      | none => .notFound [item]
  | .tx =>
      match s.app.mempool.transactions.lookup item.hash with
      | some e => .txMsg e.tx
      | none => .notFound [item]

def onGetData (s : Server) (arrival : Arrival) (addr : SocketAddr) (items : List InvItem) : Response :=
  if maxInvSize < items.length then s.penalise arrival addr 20 "oversized GetData"
  else s.reply arrival (items.map s.dataReply)

def onHeaders (sha256 : Sha256) (s : Server) (arrival : Arrival) (addr : SocketAddr)
    (headers : List BlockHeader) : Response :=
  match headers.getLast? with
  | none => (if s.app.syncState = .headerSync then s.setSyncState .synced else s).stay
  | some last =>
      match checkHeaders sha256 s.app.node headers with
      | none => s.penalise arrival addr 10 "protocol violation"
      | some requests =>
          let syncing :=
            if requests ≠ [] ∧ s.app.syncState = .headerSync then s.setSyncState .blockSync else s
          syncing.reply arrival
            ((if requests = [] then [] else [.getData (requests.map (InvItem.mk .block))]) ++
              if maxHeadersPerMsg ≤ headers.length then [.getHeaders [last.hash sha256] Bytes32.zero] else [])

def onAddr (s : Server) (arrival : Arrival) (addr : SocketAddr) (entries : List AddrEntry) : Response :=
  if isBlockRelayOnly s.peers addr then s.stay
  else if maxAddrPerMsg < entries.length then s.penalise arrival addr 10 "oversized Addr"
  else s.stay

/-- A compact block is only announced this way: the block itself is requested, or what is missing. -/
def onCmpctBlock (sha256 : Sha256) (s : Server) (arrival : Arrival) (compact : CompactBlock) : Response :=
  let hash := compact.header.hash sha256
  if (s.app.node.getBlock hash).isSome then s.stay
  else
    match arrival.missing with
    | none => s.reply arrival [.getData [⟨.block, hash⟩]]
    | some missing => s.reply arrival (if missing.isEmpty then [] else [.getBlockTxn hash missing])

def onGetBlockTxn (s : Server) (arrival : Arrival) (blockhash : Bytes32) (indices : List UInt64) : Response :=
  match s.app.node.getBlock blockhash with
  | none => s.stay
  | some b =>
      s.reply arrival
        [.blockTxn blockhash (indices.filterMap fun i => (b.transactions[i.toNat]?).map bincodeTransaction)]

def onBlockTxn (s : Server) (arrival : Arrival) (blockhash : Bytes32) : Response :=
  if (s.app.node.getBlock blockhash).isNone then s.reply arrival [.getData [⟨.block, blockhash⟩]] else s.stay

/-- What the handler of a block or a transaction leaves, with the points that it gives. -/
def settle (s : Server) (arrival : Arrival) (addr : SocketAddr) (h : Handled) : Response :=
  let s := { s with app := h.app }
  if h.penalty = 0 then ⟨s, [], h.announced, false⟩
  else s.penalise arrival addr (UInt32.ofNat h.penalty) "protocol violation"

/-- `handle_message`; `none` if `add_block` runs out of its fuel. -/
def handleMessage (cx : Context) (rates : FeeRates) (s : Server) (arrival : Arrival) (addr : SocketAddr)
    (dir : Direction) : Message → Option Response
  | .version v => some (s.onVersion arrival addr dir v)
  | .verack => some (s.onVerack arrival addr)
  | .getAddr => some (s.reply arrival [.addr arrival.addrs])
  | .addr entries => some (s.onAddr arrival addr entries)
  | .ping nonce => some (s.reply arrival [.pong nonce])
  | .inv items => some (s.onInv arrival addr items)
  | .getData items => some (s.onGetData arrival addr items)
  | .getBlocks locator stopHash =>
      some (s.reply arrival
        (if invReply s.app.node locator stopHash = [] then [] else [.inv (invReply s.app.node locator stopHash)]))
  | .getHeaders locator stopHash =>
      some (s.reply arrival [.headers (headersReply s.app.node locator stopHash)])
  | .headers headers => some (s.onHeaders cx.sha256 arrival addr headers)
  | .blockMsg b => (blockMsg cx arrival.sur s.app b).map (s.settle arrival addr)
  | .txMsg tx =>
      some (s.settle arrival addr (txMsg cx rates arrival.sur (isBlockRelayOnly s.peers addr) s.app tx))
  | .cmpctBlock compact => some (s.onCmpctBlock cx.sha256 arrival compact)
  | .getBlockTxn blockhash indices => some (s.onGetBlockTxn arrival blockhash indices)
  | .blockTxn blockhash _ => some (s.onBlockTxn arrival blockhash)
  | .sendHeaders => some { s with peers := setSendHeaders s.peers addr }.stay
  | .pong _ | .notFound _ | .reject _ _ | .sendCmpct _ _ | .feeFilter _ | .wtxidRelay | .sendAddrV2
  | .addrV2 _ => some s.stay

/-- One round of `read_loop`: a message over the limit is dropped and costs 20 points. -/
def read (cx : Context) (rates : FeeRates) (s : Server) (arrival : Arrival) (addr : SocketAddr)
    (dir : Direction) (m : Message) : Option Response :=
  let (exceeded, peers) := checkRateLimit s.peers arrival.clock addr
  let s := { s with peers := peers }
  if exceeded then some (s.penalise arrival addr 20 "message rate limit exceeded")
  else s.handleMessage cx rates arrival addr dir m

end Server

end KuberCoin.Servers
