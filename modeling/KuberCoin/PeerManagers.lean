import KuberCoin.Peers
import KuberCoin.Maps
import Mathlib.Data.List.Sort

/-!
The peer manager (`network/peer.rs`): the books of the connected peers and their send channels under
their socket addresses, and the bans under their IP addresses. A call reads the clock and iterates
the hash map of the peers in some order. What is written to the ban file is not read by these calls.

Bans are recorded exactly, but they are enforced under socket addresses: a ban for misbehaviour
removes one entry of the peers and no send channel, `ban_ip` the channels of known peers only, and
`register_sender` asks for no ban. The calls at which this shows are the only ones that leave
a banned peer in the books.
-/
namespace KuberCoin.PeerManagers

open Bytes Peers Maps

section Addresses

inductive IpAddr where
  | v4 (octets : List.Vector UInt8 4)
  | v6 (octets : List.Vector UInt8 16)
deriving DecidableEq

structure SocketAddr where
  ip : IpAddr
  port : UInt16
deriving DecidableEq

/-- The group of an address: two octets of an IPv4 address, also of a mapped one, and six of
another IPv6 address. -/
def networkGroup : IpAddr → List UInt8
  | .v4 octets => octets.toList.take 2
  | .v6 octets =>
      if octets.toList.take 12 = List.replicate 10 0 ++ [0xff, 0xff] then
        (octets.toList.drop 12).take 2
      else octets.toList.take 6

end Addresses

section Data

/-- 24 hours, in nanoseconds. -/
def banDuration : ℕ := 24 * 60 * 60 * 10 ^ 9

structure PeerLimits where
  maxOutbound : ℕ
  maxInbound : ℕ
  banThreshold : UInt32

def PeerLimits.default : PeerLimits := ⟨8, 117, 100⟩

/-- The books of a peer with the instant of its connection. -/
structure PeerEntry where
  info : PeerInfo
  connectedAt : ℕ
deriving DecidableEq

structure PeerManager where
  peers : Map SocketAddr PeerEntry
  banned : Map IpAddr ℕ
  bannedUnix : Map IpAddr UInt64
  banReasons : Map IpAddr String
  senders : Map SocketAddr ℕ
  limits : PeerLimits

/-- What a call reads besides the manager: the two clocks, and the order of the hash map. -/
structure Moment where
  now : ℕ
  unix : UInt64
  iter : Map SocketAddr PeerEntry → List (SocketAddr × PeerEntry)
  lists : ∀ peers, Lists peers (iter peers)

end Data

section Eviction

/-- The element that beats every one before it and is beaten by none after it, as a fold finds it. -/
def foldBest {α : Type} (keeps : α → α → Bool) : List α → Option α
  | [] => none
  | a :: rest => some (rest.foldl (fun best x => if keeps best x then best else x) a)

/-- The longest connected of some peers, the first of them if there are several. -/
def oldest (entries : List (SocketAddr × PeerEntry)) : Option (SocketAddr × PeerEntry) :=
  foldBest (fun best x => best.2.connectedAt ≤ x.2.connectedAt) entries

/-- The peer with the highest score, the latest connected among these, the last of them if there
are several. -/
def worst (entries : List (SocketAddr × PeerEntry)) : Option (SocketAddr × PeerEntry) :=
  foldBest (fun best x =>
    x.2.info.misbehaviourScore < best.2.info.misbehaviourScore ||
      (x.2.info.misbehaviourScore = best.2.info.misbehaviourScore &&
        x.2.connectedAt < best.2.connectedAt)) entries

/-- The peers that are not evicted as long as there is another: the longest connected of each
group, and the four longest connected of all. -/
def protectedPeers (inbound : List (SocketAddr × PeerEntry)) : List SocketAddr :=
  inbound.filterMap (fun p =>
      (oldest (inbound.filter fun q => networkGroup q.1.ip = networkGroup p.1.ip)).map Prod.fst) ++
    ((inbound.insertionSort fun p q => p.2.connectedAt ≤ q.2.connectedAt).take 4).map Prod.fst

def pickEvictionCandidate (entries : List (SocketAddr × PeerEntry)) : Option SocketAddr :=
  let inbound := entries.filter fun p => p.2.info.direction = .inbound
  let evictable := inbound.filter fun p => p.1 ∉ protectedPeers inbound
  (worst (if evictable.isEmpty then inbound else evictable)).map Prod.fst

end Eviction

namespace PeerManager

def maxFeelers : ℕ := 2

def maxBlockRelayOnly : ℕ := 2

def new (limits : PeerLimits) : PeerManager := ⟨∅, ∅, ∅, ∅, ∅, limits⟩

def limit (s : PeerManager) : Direction → ℕ
  | .inbound => s.limits.maxInbound
  | .outbound => s.limits.maxOutbound
  | .feeler => maxFeelers
  | .blockRelayOnly => maxBlockRelayOnly

def count (s : PeerManager) (clock : Moment) (dir : Direction) : ℕ :=
  ((clock.iter s.peers).filter fun p => p.2.info.direction = dir).length

/-- Whether the ban of an address has not expired. -/
def bannedAt (s : PeerManager) (now : ℕ) (ip : IpAddr) : Bool :=
  (s.banned.lookup ip).any fun t => now - t < banDuration

/-- A ban that has expired is removed. -/
def isBanned (s : PeerManager) (clock : Moment) (ip : IpAddr) : Bool × PeerManager :=
  match s.banned.lookup ip with
  | none => (false, s)
  | some t =>
      if clock.now - t < banDuration then (true, s)
      else (false, { s with banned := s.banned.erase ip, bannedUnix := s.bannedUnix.erase ip })

def remove (s : PeerManager) (addr : SocketAddr) : PeerManager := { s with peers := s.peers.erase addr }

def removeSender (s : PeerManager) (addr : SocketAddr) : PeerManager :=
  { s with senders := s.senders.erase addr }

def disconnectPeer (s : PeerManager) (addr : SocketAddr) : PeerManager := (s.remove addr).removeSender addr

def insertPeer (s : PeerManager) (clock : Moment) (addr : SocketAddr) (dir : Direction) : PeerManager :=
  { s with peers := s.peers.insert addr ⟨PeerInfo.new clock.now dir, clock.now⟩ }

def register (s : PeerManager) (clock : Moment) (addr : SocketAddr) (dir : Direction) :
    Bool × PeerManager :=
  let (banned, s) := s.isBanned clock addr.ip
  if banned then (false, s)
  else if s.limit dir ≤ s.count clock dir then
    if dir = .inbound then
      match pickEvictionCandidate (clock.iter s.peers) with
      | none => (false, s)
      | some victim => (true, (s.disconnectPeer victim).insertPeer clock addr dir)
    else (false, s)
  else (true, s.insertPeer clock addr dir)

def registerSender (s : PeerManager) (addr : SocketAddr) (sender : ℕ) : PeerManager :=
  { s with senders := s.senders.insert addr sender }

/-- The three records of a ban. -/
def ban (s : PeerManager) (clock : Moment) (ip : IpAddr) (reason : String) : PeerManager :=
  { s with
    banned := s.banned.insert ip clock.now
    bannedUnix := s.bannedUnix.insert ip clock.unix
    banReasons := s.banReasons.insert ip reason }

def addMisbehaviourWithReason (s : PeerManager) (clock : Moment) (addr : SocketAddr) (score : UInt32)
    (reason : String) : Bool × PeerManager :=
  match s.peers.lookup addr with
  | none => (false, s)
  | some entry =>
      match entry.info.addMisbehaviour s.limits.banThreshold clock.now score with
      | none => (true, (s.ban clock addr.ip reason).remove addr)
      | some info => (false, { s with peers := s.peers.insert addr { entry with info := info } })

def addMisbehaviour (s : PeerManager) (clock : Moment) (addr : SocketAddr) (score : UInt32) :
    Bool × PeerManager :=
  s.addMisbehaviourWithReason clock addr score "protocol violation"

def banIp (s : PeerManager) (clock : Moment) (ip : IpAddr) (reason : String) : PeerManager :=
  let s := s.ban clock ip reason
  let toRemove := ((clock.iter s.peers).map Prod.fst).filter fun a => a.ip = ip
  { s with peers := eraseAll s.peers toRemove, senders := eraseAll s.senders toRemove }

def unbanIp (s : PeerManager) (ip : IpAddr) : PeerManager :=
  { s with
    banned := s.banned.erase ip
    bannedUnix := s.bannedUnix.erase ip
    banReasons := s.banReasons.erase ip }

end PeerManager

section Calls

/-- The calls that touch the peers, the channels or the bans. -/
inductive PeerCall where
  | register (addr : SocketAddr) (dir : Direction)
  | registerSender (addr : SocketAddr) (sender : ℕ)
  | removeSender (addr : SocketAddr)
  | addMisbehaviour (addr : SocketAddr) (score : UInt32) (reason : String)
  | isBanned (ip : IpAddr)
  | banIp (ip : IpAddr) (reason : String)
  | unbanIp (ip : IpAddr)
  | disconnectPeer (addr : SocketAddr)
  | remove (addr : SocketAddr)

def PeerCall.apply (s : PeerManager) (clock : Moment) : PeerCall → PeerManager
  | .register addr dir => (s.register clock addr dir).2
  | .registerSender addr sender => s.registerSender addr sender
  | .removeSender addr => s.removeSender addr
  | .addMisbehaviour addr score reason => (s.addMisbehaviourWithReason clock addr score reason).2
  | .isBanned ip => (s.isBanned clock ip).2
  | .banIp ip reason => s.banIp clock ip reason
  | .unbanIp ip => s.unbanIp ip
  | .disconnectPeer addr => s.disconnectPeer addr
  | .remove addr => s.remove addr

def runPeerCalls (s : PeerManager) (calls : List (Moment × PeerCall)) : PeerManager :=
  calls.foldl (fun s call => call.2.apply s call.1) s

/-- The address that a call bans: by hand, or because the score of a peer reaches the threshold. -/
def PeerCall.bans (s : PeerManager) (clock : Moment) : PeerCall → Option IpAddr
  | .banIp ip _ => some ip
  | .addMisbehaviour addr score _ =>
      if (s.peers.lookup addr).any fun entry =>
        (entry.info.addMisbehaviour s.limits.banThreshold clock.now score).isNone
      then some addr.ip
      else none
  | _ => none

/-- The address whose ban a call lifts. -/
def PeerCall.lifts : PeerCall → Option IpAddr
  | .unbanIp ip => some ip
  | _ => none

/-- The instant of the last ban of each address, if it was not lifted since. -/
def lastBans : PeerManager → (IpAddr → Option ℕ) → List (Moment × PeerCall) → IpAddr → Option ℕ
  | _, log, [] => log
  | s, log, call :: rest =>
      lastBans (call.2.apply s call.1)
        (fun ip =>
          if call.2.lifts = some ip then none
          else if call.2.bans s call.1 = some ip then some call.1.now
          else log ip)
        rest

/-- The clock does not go back. -/
def Timely : ℕ → List (Moment × PeerCall) → Prop
  | _, [] => True
  | now, call :: rest => now ≤ call.1.now ∧ Timely call.1.now rest

/-- The instant of the last call. -/
def lastInstant : ℕ → List (Moment × PeerCall) → ℕ
  | now, [] => now
  | _, call :: rest => lastInstant call.1.now rest

/-- From now on no peer and no channel is under an address that is banned. -/
def Enforced (s : PeerManager) (now : ℕ) : Prop :=
  ∀ later, now ≤ later → ∀ addr : SocketAddr, addr ∈ s.peers ∨ addr ∈ s.senders →
    s.bannedAt later addr.ip = false

/-- Bans are enforced at the start and after every call. -/
def AlwaysEnforced : PeerManager → ℕ → List (Moment × PeerCall) → Prop
  | s, now, [] => Enforced s now
  | s, now, call :: rest =>
      Enforced s now ∧ AlwaysEnforced (call.2.apply s call.1) call.1.now rest

/-- The call leaves nobody under a banned address in the books: a channel is registered for an address
that is not banned; a peer whose score reaches the threshold is the only one with its IP
address and has no channel, nor has another with that address; an address that is banned by hand
has no channel without a peer. -/
def PeerCall.Clean (s : PeerManager) (clock : Moment) : PeerCall → Prop
  | .registerSender addr _ => s.bannedAt clock.now addr.ip = false
  | .addMisbehaviour addr score reason =>
      (PeerCall.addMisbehaviour addr score reason).bans s clock = some addr.ip →
        ∀ other : SocketAddr, other.ip = addr.ip → (other ∈ s.peers → other = addr) ∧ other ∉ s.senders
  | .banIp ip _ => ∀ addr : SocketAddr, addr.ip = ip → addr ∈ s.senders → addr ∈ s.peers
  | _ => True

def AlwaysClean : PeerManager → List (Moment × PeerCall) → Prop
  | _, [] => True
  | s, call :: rest => call.2.Clean s call.1 ∧ AlwaysClean (call.2.apply s call.1) rest

end Calls

section Bans

variable {s : PeerManager} {clock : Moment} {ip : IpAddr} {now later : ℕ}

theorem bannedAt_iff (s : PeerManager) (now : ℕ) (ip : IpAddr) :
    s.bannedAt now ip = true ↔ ∃ t, s.banned.lookup ip = some t ∧ now - t < banDuration := by
  unfold PeerManager.bannedAt
  cases s.banned.lookup ip <;> simp

theorem bannedAt_mono (hle : now ≤ later) (h : s.bannedAt later ip = true) : s.bannedAt now ip = true := by
  obtain ⟨t, ht, hyoung⟩ := (bannedAt_iff s later ip).mp h
  exact (bannedAt_iff s now ip).mpr ⟨t, ht, by omega⟩

theorem isBanned_fst (s : PeerManager) (clock : Moment) (ip : IpAddr) :
    (s.isBanned clock ip).1 = s.bannedAt clock.now ip := by
  unfold PeerManager.isBanned PeerManager.bannedAt
  cases s.banned.lookup ip with
  | none => rfl
  | some t =>
    simp only [Option.any_some]
    split
    · rename_i hyoung
      exact (decide_eq_true hyoung).symm
    · rename_i hold
      exact (decide_eq_false hold).symm

/-- The lazy removal of a ban that has expired changes nothing from now on. -/
theorem isBanned_bannedAt (s : PeerManager) (ip : IpAddr) (hle : clock.now ≤ later) (ip' : IpAddr) :
    (s.isBanned clock ip).2.bannedAt later ip' = s.bannedAt later ip' := by
  unfold PeerManager.isBanned
  cases hlook : s.banned.lookup ip with
  | none => rfl
  | some t =>
    simp only
    split
    · rfl
    · rename_i hold
      rw [Bool.eq_iff_iff, bannedAt_iff, bannedAt_iff]
      simp only [lookup_erase_eq]
      by_cases hip : ip' = ip
      · subst hip
        simp only [if_true, hlook, Option.some.injEq]
        constructor
        · rintro ⟨_, hnone, -⟩
          cases hnone
        · rintro ⟨t', rfl, hyoung⟩
          omega
      · simp only [if_neg hip]

theorem isBanned_peers (s : PeerManager) (clock : Moment) (ip : IpAddr) :
    (s.isBanned clock ip).2.peers = s.peers ∧ (s.isBanned clock ip).2.senders = s.senders ∧
      (s.isBanned clock ip).2.limits = s.limits := by
  unfold PeerManager.isBanned
  cases s.banned.lookup ip with
  | none => exact ⟨rfl, rfl, rfl⟩
  | some t =>
    simp only
    split <;> exact ⟨rfl, rfl, rfl⟩

theorem register_frame (s : PeerManager) (clock : Moment) (addr : SocketAddr) (dir : Direction) :
    (∀ ip, clock.now ≤ later → (s.register clock addr dir).2.bannedAt later ip = s.bannedAt later ip) ∧
      (∀ a, a ∈ (s.register clock addr dir).2.peers →
        a ∈ s.peers ∨ a = addr ∧ s.bannedAt clock.now addr.ip = false) ∧
      ∀ a, a ∈ (s.register clock addr dir).2.senders → a ∈ s.senders := by
  have hban := fun ip (hle : clock.now ≤ later) => isBanned_bannedAt s addr.ip hle ip
  obtain ⟨hpeers, hsenders, -⟩ := isBanned_peers s clock addr.ip
  have hbanned := isBanned_fst s clock addr.ip
  unfold PeerManager.register
  generalize s.isBanned clock addr.ip = r at hban hpeers hsenders hbanned
  obtain ⟨banned, s'⟩ := r
  simp only at hban hpeers hsenders hbanned ⊢
  cases banned with
  | true => exact ⟨hban, fun a ha => .inl (hpeers ▸ ha), fun a ha => hsenders ▸ ha⟩
  | false =>
    have hinsert : ∀ {m : Map SocketAddr PeerEntry} {e : PeerEntry} {a : SocketAddr},
        (∀ a, a ∈ m → a ∈ s.peers) → a ∈ m.insert addr e →
        a ∈ s.peers ∨ a = addr ∧ s.bannedAt clock.now addr.ip = false := by
      intro m e a hm ha
      rcases (Finmap.mem_insert).mp ha with rfl | ha
      · exact .inr ⟨rfl, hbanned.symm⟩
      · exact .inl (hm a ha)
    have hall : ∀ a, a ∈ s'.peers → a ∈ s.peers := fun a ha => hpeers ▸ ha
    simp only [Bool.false_eq_true, if_false]
    split
    · split
      · split
        · exact ⟨hban, fun a ha => .inl (hall a ha), fun a ha => hsenders ▸ ha⟩
        · rename_i victim _
          refine ⟨hban, fun a ha => hinsert (fun b hb => hall b ?_) ha, fun a ha => hsenders ▸ ?_⟩
          · exact ((Finmap.mem_erase).mp hb).2
          · exact ((Finmap.mem_erase).mp ha).2
      · exact ⟨hban, fun a ha => .inl (hall a ha), fun a ha => hsenders ▸ ha⟩
    · exact ⟨hban, fun a ha => hinsert hall ha, fun a ha => hsenders ▸ ha⟩

theorem ban_bannedAt (s : PeerManager) (clock : Moment) (ip : IpAddr) (reason : String) (ip' : IpAddr) :
    (s.ban clock ip reason).bannedAt later ip' =
      if ip' = ip then decide (later - clock.now < banDuration) else s.bannedAt later ip' := by
  unfold PeerManager.bannedAt PeerManager.ban
  rw [lookup_insert_eq]
  split <;> rfl

theorem unbanIp_bannedAt (s : PeerManager) (ip ip' : IpAddr) :
    (s.unbanIp ip).bannedAt later ip' = if ip' = ip then false else s.bannedAt later ip' := by
  unfold PeerManager.bannedAt PeerManager.unbanIp
  rw [lookup_erase_eq]
  split <;> rfl

theorem addMisbehaviour_cases (s : PeerManager) (clock : Moment) (addr : SocketAddr) (score : UInt32)
    (reason : String) : (PeerCall.addMisbehaviour addr score reason).bans s clock = none ∧
        ((s.addMisbehaviourWithReason clock addr score reason).2 = s ∨
          addr ∈ s.peers ∧ ∃ entry, (s.addMisbehaviourWithReason clock addr score reason).2 =
            { s with peers := s.peers.insert addr entry }) ∨
      (PeerCall.addMisbehaviour addr score reason).bans s clock = some addr.ip ∧
        (s.addMisbehaviourWithReason clock addr score reason).2 =
          (s.ban clock addr.ip reason).remove addr := by
  unfold PeerManager.addMisbehaviourWithReason
  cases hlook : s.peers.lookup addr with
  | none =>
    refine .inl ⟨?_, .inl rfl⟩
    simp [PeerCall.bans, hlook]
  | some entry =>
    simp only
    cases hscore : entry.info.addMisbehaviour s.limits.banThreshold clock.now score with
    | none =>
      refine .inr ⟨?_, rfl⟩
      simp [PeerCall.bans, hlook, hscore]
    | some info =>
      refine .inl ⟨?_, .inr ⟨(mem_iff_lookup s.peers addr).mpr ⟨entry, hlook⟩, _, rfl⟩⟩
      simp [PeerCall.bans, hlook, hscore]

theorem apply_bannedAt (call : PeerCall) (hle : clock.now ≤ later) (ip : IpAddr) :
    (call.apply s clock).bannedAt later ip =
      if call.lifts = some ip then false
      else if call.bans s clock = some ip then decide (later - clock.now < banDuration)
      else s.bannedAt later ip := by
  cases call with
  | register addr dir =>
    simp only [PeerCall.apply, PeerCall.lifts, PeerCall.bans, reduceCtorEq, if_false]
    exact (register_frame s clock addr dir).1 ip hle
  | registerSender | removeSender | disconnectPeer | remove =>
    simp only [PeerCall.apply, PeerCall.lifts, PeerCall.bans, reduceCtorEq, if_false]
    rfl
  | isBanned ip' =>
    simp only [PeerCall.apply, PeerCall.lifts, PeerCall.bans, reduceCtorEq, if_false]
    exact isBanned_bannedAt s ip' hle ip
  | banIp ip' reason =>
    simp only [PeerCall.apply, PeerCall.lifts, PeerCall.bans, reduceCtorEq, if_false,
      Option.some.injEq, eq_comm (a := ip')]
    exact ban_bannedAt s clock ip' reason ip
  | unbanIp ip' =>
    simp only [PeerCall.apply, PeerCall.lifts, PeerCall.bans, reduceCtorEq, if_false,
      Option.some.injEq, eq_comm (a := ip')]
    exact unbanIp_bannedAt s ip' ip
  | addMisbehaviour addr score reason =>
    simp only [PeerCall.apply, PeerCall.lifts, reduceCtorEq, if_false]
    rcases addMisbehaviour_cases s clock addr score reason with ⟨hbans, hs | ⟨-, entry, hs⟩⟩ | ⟨hbans, hs⟩
    · rw [hs, hbans, if_neg (by simp)]
    · rw [hs, hbans, if_neg (by simp)]
      rfl
    · rw [hs, hbans]
      simp only [Option.some.injEq, eq_comm (a := addr.ip)]
      exact ban_bannedAt s clock addr.ip reason ip

/-- The log of the last bans says who is banned. -/
def Logged (s : PeerManager) (log : IpAddr → Option ℕ) (now : ℕ) : Prop :=
  ∀ ip later, now ≤ later →
    (s.bannedAt later ip = true ↔ ∃ t, log ip = some t ∧ later - t < banDuration)

theorem lastBans_logged {log : IpAddr → Option ℕ} (calls : List (Moment × PeerCall)) (htime : Timely now calls)
    (hlog : Logged s log now) : Logged (runPeerCalls s calls) (lastBans s log calls) (lastInstant now calls) := by
  induction calls generalizing s log now with
  | nil => exact hlog
  | cons call rest ih =>
    obtain ⟨hnow, hrest⟩ := htime
    refine ih hrest ?_
    intro ip later hle
    have hold := hlog ip later (by omega)
    rw [apply_bannedAt call.2 hle ip]
    by_cases hlifts : call.2.lifts = some ip
    · simp only [if_pos hlifts, Bool.false_eq_true, reduceCtorEq, false_and, exists_false]
    · simp only [if_neg hlifts]
      by_cases hbans : call.2.bans s call.1 = some ip
      · simp only [if_pos hbans, decide_eq_true_eq, Option.some.injEq, exists_eq_left']
      · simp only [if_neg hbans]
        exact hold

end Bans

section Enforcement

variable {s s' : PeerManager} {clock : Moment} {now : ℕ} {a : SocketAddr} {ip : IpAddr}
  {calls : List (Moment × PeerCall)}

/-- Entries that stay, or come under an address that is not banned, are all right as long as
nobody is banned anew. -/
theorem Enforced.keep (h : Enforced s now) (hle : now ≤ clock.now)
    (hban : ∀ ip later, clock.now ≤ later → s'.bannedAt later ip = true → s.bannedAt later ip = true)
    (hpeers : ∀ a, a ∈ s'.peers → a ∈ s.peers ∨ s.bannedAt clock.now a.ip = false)
    (hsenders : ∀ a, a ∈ s'.senders → a ∈ s.senders ∨ s.bannedAt clock.now a.ip = false) : Enforced s' clock.now := by
  intro later hlater addr haddr
  have hall : (addr ∈ s.peers ∨ addr ∈ s.senders) ∨ s.bannedAt clock.now addr.ip = false := by
    rcases haddr with haddr | haddr
    · exact (hpeers addr haddr).imp_left .inl
    · exact (hsenders addr haddr).imp_left .inr
  rw [Bool.eq_false_iff]
  intro hbanned
  have hold := hban addr.ip later hlater hbanned
  rcases hall with hold' | hfree
  · rw [h later (by omega) addr hold'] at hold
    cases hold
  · rw [bannedAt_mono hlater hold] at hfree
    cases hfree

/-- A new ban is enforced exactly if nothing is left under its address. -/
theorem enforced_ban_iff {ip : IpAddr} (h : Enforced s now) (hle : now ≤ clock.now)
    (hban : ∀ later ip', s'.bannedAt later ip' =
      if ip' = ip then decide (later - clock.now < banDuration) else s.bannedAt later ip')
    (hsub : ∀ a, a ∈ s'.peers ∨ a ∈ s'.senders → a ∈ s.peers ∨ a ∈ s.senders) :
    Enforced s' clock.now ↔ ∀ a : SocketAddr, a.ip = ip → a ∉ s'.peers ∧ a ∉ s'.senders := by
  constructor
  · intro henforced a ha
    have hbanned : s'.bannedAt clock.now a.ip = true := by
      rw [hban, if_pos ha, Nat.sub_self]
      decide
    refine ⟨fun hmem => ?_, fun hmem => ?_⟩
    · rw [henforced clock.now (Nat.le_refl _) a (.inl hmem)] at hbanned
      cases hbanned
    · rw [henforced clock.now (Nat.le_refl _) a (.inr hmem)] at hbanned
      cases hbanned
  · intro hnone later hlater a ha
    have hne : a.ip ≠ ip := by
      intro heq
      rcases ha with ha | ha
      · exact (hnone a heq).1 ha
      · exact (hnone a heq).2 ha
    rw [hban, if_neg hne]
    exact h later (by omega) a (hsub a ha)

theorem mem_insert_known {m : Map SocketAddr PeerEntry} {addr : SocketAddr} {entry : PeerEntry} (hknown : addr ∈ m)
    (h : a ∈ m.insert addr entry) : a ∈ m := by
  rcases Finmap.mem_insert.mp h with rfl | h
  · exact hknown
  · exact h

theorem mem_toRemove {peers : Map SocketAddr PeerEntry} {clock : Moment} :
    a ∈ ((clock.iter peers).map Prod.fst).filter (fun a => a.ip = ip) ↔ a ∈ peers ∧ a.ip = ip := by
  have hkey : a ∈ (clock.iter peers).map Prod.fst ↔ a ∈ peers := by
    rw [mem_iff_lookup]
    constructor
    · intro h
      obtain ⟨kv, hkv, rfl⟩ := List.mem_map.mp h
      exact ⟨kv.2, ((clock.lists peers).mem kv.1 kv.2).mp hkv⟩
    · rintro ⟨v, hv⟩
      exact List.mem_map.mpr ⟨(a, v), ((clock.lists peers).mem a v).mpr hv, rfl⟩
  rw [List.mem_filter, hkey, decide_eq_true_eq]

theorem mem_banIp {V : Type} (m : Map SocketAddr V) (peers : Map SocketAddr PeerEntry) (clock : Moment) :
    a ∈ eraseAll m (((clock.iter peers).map Prod.fst).filter fun a => a.ip = ip) ↔
      a ∈ m ∧ ¬ (a ∈ peers ∧ a.ip = ip) := by
  rw [mem_iff_lookup, mem_iff_lookup m, lookup_eraseAll, ← mem_toRemove]
  split
  · rename_i h
    constructor
    · rintro ⟨v, hv⟩
      cases hv
    · rintro ⟨-, hnot⟩
      exact absurd h hnot
  · rename_i h
    exact ⟨fun hv => ⟨hv, h⟩, fun hv => hv.1⟩

theorem enforced_apply_iff (call : PeerCall) (h : Enforced s now) (hle : now ≤ clock.now) :
    Enforced (call.apply s clock) clock.now ↔ call.Clean s clock := by
  cases call with
  | register addr dir =>
    refine ⟨fun _ => trivial, fun _ => ?_⟩
    have hframe := fun later => @register_frame later s clock addr dir
    refine h.keep hle ?_ ?_ ?_
    · intro ip later hlater hbanned
      exact ((hframe later).1 ip hlater).symm.trans hbanned
    · intro a ha
      rcases (hframe 0).2.1 a ha with ha | ⟨rfl, hfree⟩
      · exact .inl ha
      · exact .inr hfree
    · intro a ha
      exact .inl ((hframe 0).2.2 a ha)
  | registerSender addr sender =>
    constructor
    · intro henforced
      exact henforced clock.now (Nat.le_refl _) addr (.inr (Finmap.mem_insert.mpr (.inl rfl)))
    · intro hfree
      refine h.keep hle (fun ip later _ hbanned => hbanned) (fun a ha => .inl ha) ?_
      intro a ha
      rcases Finmap.mem_insert.mp ha with rfl | ha
      · exact .inr hfree
      · exact .inl ha
  | removeSender addr =>
    refine ⟨fun _ => trivial, fun _ => h.keep hle (fun ip later _ hbanned => hbanned) (fun a ha => .inl ha) ?_⟩
    intro a ha
    exact .inl (Finmap.mem_erase.mp ha).2
  | addMisbehaviour addr score reason =>
    show Enforced (s.addMisbehaviourWithReason clock addr score reason).2 clock.now ↔
      (_ = some addr.ip → _)
    rcases addMisbehaviour_cases s clock addr score reason with ⟨hbans, hs | ⟨hknown, entry, hs⟩⟩ | ⟨hbans, hs⟩
    · rw [hs, hbans]
      refine ⟨fun _ hcontra => absurd hcontra (by simp), fun _ => ?_⟩
      exact h.keep hle (fun ip later _ hb => hb) (fun a ha => .inl ha) (fun a ha => .inl ha)
    · rw [hs, hbans]
      refine ⟨fun _ hcontra => absurd hcontra (by simp), fun _ => ?_⟩
      exact h.keep hle (fun ip later _ hb => hb) (fun a ha => .inl (mem_insert_known hknown ha))
        (fun a ha => .inl ha)
    · rw [hs, hbans, @enforced_ban_iff s ((s.ban clock addr.ip reason).remove addr) clock now addr.ip h hle
        (fun later ip' => ban_bannedAt s clock addr.ip reason ip')]
      · constructor
        · intro hnone _ other hip
          refine ⟨fun hmem => ?_, (hnone other hip).2⟩
          by_contra hne
          exact (hnone other hip).1 (Finmap.mem_erase.mpr ⟨hne, hmem⟩)
        · intro hclean a ha
          refine ⟨fun hmem => ?_, (hclean rfl a ha).2⟩
          obtain ⟨hne, hmem⟩ := Finmap.mem_erase.mp hmem
          exact hne ((hclean rfl a ha).1 hmem)
      · rintro a (ha | ha)
        · exact .inl (Finmap.mem_erase.mp ha).2
        · exact .inr ha
  | isBanned ip =>
    refine ⟨fun _ => trivial, fun _ => ?_⟩
    obtain ⟨hpeers, hsenders, -⟩ := isBanned_peers s clock ip
    refine h.keep hle ?_ (fun a ha => .inl (hpeers ▸ ha)) (fun a ha => .inl (hsenders ▸ ha))
    intro ip' later hlater hbanned
    exact (isBanned_bannedAt s ip hlater ip').symm.trans hbanned
  | banIp ip reason =>
    have hpeers : ∀ a, a ∈ (s.banIp clock ip reason).peers ↔ a ∈ s.peers ∧ ¬ (a ∈ s.peers ∧ a.ip = ip) :=
      fun a => mem_banIp s.peers s.peers clock
    have hsenders : ∀ a, a ∈ (s.banIp clock ip reason).senders ↔
        a ∈ s.senders ∧ ¬ (a ∈ s.peers ∧ a.ip = ip) :=
      fun a => mem_banIp s.senders s.peers clock
    show Enforced (s.banIp clock ip reason) clock.now ↔ _
    rw [@enforced_ban_iff s (s.banIp clock ip reason) clock now ip h hle
      (fun later ip' => ban_bannedAt s clock ip reason ip')]
    · constructor
      · intro hnone a ha hmem
        by_contra hpeer
        exact (hnone a ha).2 ((hsenders a).mpr ⟨hmem, fun hcontra => hpeer hcontra.1⟩)
      · intro hclean a ha
        refine ⟨fun hmem => ?_, fun hmem => ?_⟩
        · obtain ⟨hmem, hnot⟩ := (hpeers a).mp hmem
          exact hnot ⟨hmem, ha⟩
        · obtain ⟨hmem, hnot⟩ := (hsenders a).mp hmem
          exact hnot ⟨hclean a ha hmem, ha⟩
    · rintro a (ha | ha)
      · exact .inl ((hpeers a).mp ha).1
      · exact .inr ((hsenders a).mp ha).1
  | unbanIp ip =>
    refine ⟨fun _ => trivial, fun _ => h.keep hle ?_ (fun a ha => .inl ha) (fun a ha => .inl ha)⟩
    intro ip' later _ hbanned
    rw [PeerCall.apply, unbanIp_bannedAt] at hbanned
    split at hbanned
    · cases hbanned
    · exact hbanned
  | disconnectPeer addr =>
    refine ⟨fun _ => trivial, fun _ => h.keep hle (fun ip later _ hbanned => hbanned) ?_ ?_⟩
    · intro a ha
      exact .inl (Finmap.mem_erase.mp ha).2
    · intro a ha
      exact .inl (Finmap.mem_erase.mp ha).2
  | remove addr =>
    refine ⟨fun _ => trivial, fun _ => h.keep hle (fun ip later _ hbanned => hbanned) ?_ (fun a ha => .inl ha)⟩
    intro a ha
    exact .inl (Finmap.mem_erase.mp ha).2

theorem AlwaysEnforced.first (h : AlwaysEnforced s now calls) : Enforced s now := by
  cases calls with
  | nil => exact h
  | cons call rest => exact h.1

theorem alwaysEnforced_iff (htime : Timely now calls) (h : Enforced s now) :
    AlwaysEnforced s now calls ↔ AlwaysClean s calls := by
  induction calls generalizing s now with
  | nil => exact ⟨fun _ => trivial, fun _ => h⟩
  | cons call rest ih =>
    obtain ⟨hnow, hrest⟩ := htime
    have hstep := @enforced_apply_iff s call.1 now call.2 h hnow
    constructor
    · rintro ⟨-, hall⟩
      exact ⟨hstep.mp hall.first, (ih hrest hall.first).mp hall⟩
    · rintro ⟨hclean, hall⟩
      exact ⟨h, (ih hrest (hstep.mpr hclean)).mpr hall⟩

theorem enforced_new (limits : PeerLimits) : Enforced (PeerManager.new limits) 0 := by
  intro later _ addr haddr
  rcases haddr with haddr | haddr
  · exact absurd haddr (Finmap.notMem_empty)
  · exact absurd haddr (Finmap.notMem_empty)

theorem logged_new (limits : PeerLimits) : Logged (PeerManager.new limits) (fun _ => none) 0 := by
  intro ip later _
  simp [PeerManager.bannedAt, PeerManager.new]

/-- After any calls an address is banned exactly when its last ban, if it was not lifted, is younger
than a day; and no entry of the peers or of the send channels is ever under a banned address if
and only if every call is clean. -/
theorem bans_enforced_iff_clean (limits : PeerLimits) (calls : List (Moment × PeerCall)) (htime : Timely 0 calls) :
    (∀ ip later, lastInstant 0 calls ≤ later →
      ((runPeerCalls (PeerManager.new limits) calls).bannedAt later ip = true ↔
        ∃ t, lastBans (PeerManager.new limits) (fun _ => none) calls ip = some t ∧
          later - t < banDuration)) ∧
      (AlwaysEnforced (PeerManager.new limits) 0 calls ↔ AlwaysClean (PeerManager.new limits) calls) :=
  ⟨lastBans_logged calls htime (logged_new limits), alwaysEnforced_iff htime (enforced_new limits)⟩

def rankIp : IpAddr → ℕ
  | .v4 octets => 2 * value octets.toList
  | .v6 octets => 2 * value octets.toList + 1

theorem rankIp_injective : Function.Injective rankIp := by
  intro a b h
  cases a <;> cases b <;> simp only [rankIp] at h
  · rename_i o o'
    rw [List.Vector.toList_injective (value_injective (by simp) (by omega : value o.toList = value o'.toList))]
  · omega
  · omega
  · rename_i o o'
    rw [List.Vector.toList_injective (value_injective (by simp) (by omega : value o.toList = value o'.toList))]

def SocketAddr.rank (a : SocketAddr) : ℕ := rankIp a.ip * 2 ^ 16 + a.port.toNat

theorem SocketAddr.rank_injective : Function.Injective SocketAddr.rank := by
  rintro ⟨ip, port⟩ ⟨ip', port'⟩ h
  have hport := port.toNat_lt
  have hport' := port'.toNat_lt
  simp only [SocketAddr.rank] at h
  rw [rankIp_injective (by omega : rankIp ip = rankIp ip'), UInt16.toNat_inj.mp (by omega : port.toNat = port'.toNat)]

/-- A moment at which the map is iterated by address. -/
def momentAt (now : ℕ) : Moment where
  now := now
  unix := UInt64.ofNat (now / 10 ^ 9)
  iter peers := sortedBindings _ SocketAddr.rank_injective peers
  lists peers := lists_sortedBindings _ SocketAddr.rank_injective peers

/-- Two connections from one IP address. -/
def firstAddr : SocketAddr := ⟨.v4 ⟨[10, 0, 0, 1], rfl⟩, 5000⟩

def secondAddr : SocketAddr := ⟨.v4 ⟨[10, 0, 0, 1], rfl⟩, 5001⟩

/-- A peer connects and is banned by hand, tries again, and comes back when the ban is lifted. -/
def banByHand : List (Moment × PeerCall) :=
  [(momentAt 1, .register firstAddr .inbound), (momentAt 2, .registerSender firstAddr 0),
    (momentAt 3, .banIp firstAddr.ip "manual"), (momentAt 4, .register firstAddr .inbound),
    (momentAt 5, .unbanIp firstAddr.ip), (momentAt 6, .register firstAddr .inbound)]

theorem banByHand_enforced : AlwaysEnforced (PeerManager.new .default) 0 banByHand ∧
      firstAddr ∈ (runPeerCalls (PeerManager.new .default) banByHand).peers := by
  have htime : Timely 0 banByHand := by
    refine ⟨?_, ?_, ?_, ?_, ?_, ?_, trivial⟩ <;> decide
  refine ⟨(bans_enforced_iff_clean .default banByHand htime).2.mpr ?_, by decide +kernel⟩
  have hfree : (runPeerCalls (PeerManager.new .default) (banByHand.take 1)).bannedAt 2 firstAddr.ip =
      false := by decide +kernel
  refine ⟨trivial, hfree, ?_, trivial, trivial, trivial, trivial⟩
  intro addr _ hsender
  rcases Finmap.mem_insert.mp hsender with rfl | hnone
  · decide +kernel
  · exact absurd hnone Finmap.notMem_empty

/-- The points of one of two connections from an address reach the threshold: the address is banned, and
the other connection stays among the peers. -/
theorem banned_address_stays_connected : ¬ AlwaysEnforced (PeerManager.new .default) 0
      [(momentAt 1, .register firstAddr .inbound), (momentAt 2, .register secondAddr .inbound),
        (momentAt 3, .addMisbehaviour firstAddr 100 "protocol violation")] := by
  rintro ⟨-, -, -, hlast⟩
  have hfree := hlast 3 (Nat.le_refl 3) secondAddr (.inl (by decide +kernel))
  revert hfree
  decide +kernel

end Enforcement

end KuberCoin.PeerManagers
