import KuberCoin.PeerManagers

/-!
The sessions of a node (`network/server.rs`) and the registry of their peers. A session is a task: it
asks for a slot, dials if it is not inbound, reads messages until an error or a ban ends it, and
takes its entries out of the registry. The tasks run between each other at every lock that
they take, so `register` is a check and an insertion with anything in between, and the registry knows
addresses, not sessions.

Entries and sessions stay together as long as each insertion finds its address unused and a slot
free, every dial succeeds, and nobody removes the entry of a session that still runs.
-/
namespace KuberCoin.SessionRegistries

open Peers Maps PeerManagers

section Data

/-- Where a session is: in `register` (up to the insertion), dialing, before its read loop, in it, or in
the two steps of the clean-up. -/
inductive Phase where
  | checking
  | picking
  | evicting (victim : SocketAddr)
  | dropping (victim : SocketAddr)
  | inserting
  | dialing
  | starting
  | reading
  | leaving
  | removing
deriving DecidableEq

structure Session where
  addr : SocketAddr
  dir : Direction
  phase : Phase
deriving DecidableEq

/-- The session dials or runs, so that it needs its entry. -/
def Session.live (t : Session) : Bool :=
  match t.phase with
  | .dialing | .starting | .reading => true
  | _ => false

/-- The session has inserted its entry and not yet removed it. -/
def Session.holds (t : Session) : Bool :=
  match t.phase with
  | .dialing | .starting | .reading | .leaving | .removing => true
  | _ => false

structure Registry where
  manager : PeerManager
  sessions : Map ℕ Session

/-- What `read_loop` meets: an error of the connection or of the handler, or a message with the
points that its handler gives, if any. -/
inductive Reading where
  | failed
  | message (penalty : Option (UInt32 × String))

/-- The steps of the tasks, and the calls of an operator. -/
inductive Action where
  | accept (id : ℕ) (addr : SocketAddr)
  | connect (id : ℕ) (addr : SocketAddr) (blockRelayOnly : Bool)
  | check (id : ℕ)
  | pick (id : ℕ)
  | evict (id : ℕ)
  | dropChannel (id : ℕ)
  | insert (id : ℕ)
  | dialed (id : ℕ) (ok : Bool)
  | start (id : ℕ) (ok : Bool)
  | read (id : ℕ) (event : Reading)
  | leave (id : ℕ)
  | finish (id : ℕ)
  | banIp (ip : IpAddr) (reason : String)
  | unbanIp (ip : IpAddr)
  | disconnectPeer (addr : SocketAddr)

end Data

section Steps

/-- `PeerManager::check_rate_limit`. -/
def checkRateLimit (s : PeerManager) (clock : Moment) (addr : SocketAddr) : Bool × PeerManager :=
  match s.peers.lookup addr with
  | none => (false, s)
  | some entry =>
      ((entry.info.checkRateLimit clock.now).2,
        { s with
          peers := s.peers.insert addr { entry with info := (entry.info.checkRateLimit clock.now).1 } })

namespace Registry

def setPhase (r : Registry) (id : ℕ) (t : Session) (phase : Phase) : Registry :=
  { r with sessions := r.sessions.insert id { t with phase := phase } }

def endTask (r : Registry) (id : ℕ) : Registry := { r with sessions := r.sessions.erase id }

def spawn (r : Registry) (id : ℕ) (addr : SocketAddr) (dir : Direction) : Registry :=
  if id ∈ r.sessions then r else { r with sessions := r.sessions.insert id ⟨addr, dir, .checking⟩ }

/-- The ban check and the limit of `register`, under the read lock. -/
def check (r : Registry) (clock : Moment) (id : ℕ) (t : Session) : Registry :=
  let (banned, manager) := r.manager.isBanned clock t.addr.ip
  let r := { r with manager := manager }
  if banned then r.endTask id
  else if manager.limit t.dir ≤ manager.count clock t.dir then
    if t.dir = .inbound then r.setPhase id t .picking else r.endTask id
  else r.setPhase id t .inserting

/-- Points for the peer of a session; a ban ends its read loop. -/
def penalise (r : Registry) (clock : Moment) (id : ℕ) (t : Session) (score : UInt32) (reason : String) :
    Registry :=
  let (banned, manager) := r.manager.addMisbehaviourWithReason clock t.addr score reason
  let r := { r with manager := manager }
  if banned then r.setPhase id t .leaving else r

/-- One round of `read_loop`. -/
def read (r : Registry) (clock : Moment) (id : ℕ) (t : Session) : Reading → Registry
  | .failed => r.setPhase id t .leaving
  | .message penalty =>
      let (exceeded, manager) := checkRateLimit r.manager clock t.addr
      let r := { r with manager := manager }
      if exceeded then r.penalise clock id t 20 "message rate limit exceeded"
      else
        match penalty with
        | none => r
        | some (score, reason) => r.penalise clock id t score reason

/-- A step of the session `id`, which is in the phase that the step needs. -/
def sessionStep (r : Registry) (clock : Moment) (id : ℕ) (t : Session) : Action → Registry
  | .check _ => if t.phase = .checking then r.check clock id t else r
  | .pick _ =>
      if t.phase = .picking then
        match pickEvictionCandidate (clock.iter r.manager.peers) with
        | none => r.endTask id
        | some victim => r.setPhase id t (.evicting victim)
      else r
  | .evict _ =>
      match t.phase with
      | .evicting victim =>
          { r with manager := r.manager.remove victim }.setPhase id t (.dropping victim)
      | _ => r
  | .dropChannel _ =>
      match t.phase with
      | .dropping victim => { r with manager := r.manager.removeSender victim }.setPhase id t .inserting
      | _ => r
  | .insert _ =>
      if t.phase = .inserting then
        { r with manager := r.manager.insertPeer clock t.addr t.dir }.setPhase id t
          (if t.dir = Direction.inbound then .starting else .dialing)
      else r
  | .dialed _ ok =>
      if t.phase = .dialing then if ok then r.setPhase id t .starting else r.endTask id else r
  | .start _ ok =>
      if t.phase = .starting then
        if ok then { r with manager := r.manager.registerSender t.addr id }.setPhase id t .reading
        else r.setPhase id t .removing
      else r
  | .read _ event => if t.phase = .reading then r.read clock id t event else r
  | .leave _ =>
      if t.phase = .leaving then
        { r with manager := r.manager.removeSender t.addr }.setPhase id t .removing
      else r
  | .finish _ =>
      if t.phase = .removing then { r with manager := r.manager.remove t.addr }.endTask id else r
  | _ => r

end Registry

/-- The session that a step belongs to. -/
def Action.session : Action → Option ℕ
  | .check id | .pick id | .evict id | .dropChannel id | .insert id | .dialed id _ | .start id _
  | .read id _ | .leave id | .finish id => some id
  | _ => none

def Action.apply (r : Registry) (clock : Moment) (action : Action) : Registry :=
  match action with
  | .accept id addr => r.spawn id addr .inbound
  | .connect id addr blockRelayOnly =>
      r.spawn id addr (if blockRelayOnly then .blockRelayOnly else .outbound)
  | .banIp ip reason => { r with manager := r.manager.banIp clock ip reason }
  | .unbanIp ip => { r with manager := r.manager.unbanIp ip }
  | .disconnectPeer addr => { r with manager := r.manager.disconnectPeer addr }
  | action =>
      match action.session.bind fun id => (r.sessions.lookup id).map (Prod.mk id) with
      | none => r
      | some (id, t) => r.sessionStep clock id t action

def runActions (r : Registry) (actions : List (Moment × Action)) : Registry :=
  actions.foldl (fun r action => action.2.apply r action.1) r

end Steps

section Statements

/-- The direction of the entry under an address. -/
def directionAt (s : PeerManager) (addr : SocketAddr) : Option Direction :=
  (s.peers.lookup addr).map fun e => e.info.direction

/-- The number of entries of a direction. -/
def entriesOf (s : PeerManager) (dir : Direction) : ℕ :=
  (s.peers.keys.filter fun a => directionAt s a = some dir).card

/-- Every read loop has the entry of its own direction, every entry is that of a session, and no direction
has more entries than its limit. -/
structure Integrity (r : Registry) : Prop where
  reading : ∀ id t, r.sessions.lookup id = some t → t.phase = .reading →
    directionAt r.manager t.addr = some t.dir
  owned : ∀ a ∈ r.manager.peers, ∃ id t, r.sessions.lookup id = some t ∧ t.addr = a ∧ t.holds = true
  room : ∀ dir, entriesOf r.manager dir ≤ r.manager.limit dir

/-- The conditions on a step, in the state before it: an insertion finds no other session of its
address and a free slot, a dial succeeds, and an entry that is evicted or removed by the operator
is not that of a session that dials or runs. -/
def Action.Careful (r : Registry) : Action → Prop
  | .insert id => ∀ t, r.sessions.lookup id = some t → t.phase = .inserting →
      (∀ id' t', r.sessions.lookup id' = some t' → t'.holds = true → t'.addr ≠ t.addr) ∧
        entriesOf r.manager t.dir < r.manager.limit t.dir
  | .evict id => ∀ t victim, r.sessions.lookup id = some t → t.phase = .evicting victim →
      ∀ id' t', r.sessions.lookup id' = some t' → t'.live = true → t'.addr ≠ victim
  | .dialed id ok => ∀ t, r.sessions.lookup id = some t → t.phase = .dialing → ok = true
  | .banIp ip _ => ∀ id' t', r.sessions.lookup id' = some t' → t'.live = true → t'.addr.ip ≠ ip
  | .disconnectPeer addr => ∀ id' t', r.sessions.lookup id' = some t' → t'.live = true → t'.addr ≠ addr
  | _ => True

def AlwaysCareful : Registry → List (Moment × Action) → Prop
  | _, [] => True
  | r, action :: rest => action.2.Careful r ∧ AlwaysCareful (action.2.apply r action.1) rest

end Statements

section Books

variable {s s' : PeerManager} {clock : Moment}

theorem directionAt_ne_none_iff (s : PeerManager) (a : SocketAddr) : directionAt s a ≠ none ↔ a ∈ s.peers := by
  rw [mem_iff_lookup, directionAt]
  cases s.peers.lookup a <;> simp

theorem directionAt_remove (s : PeerManager) (addr a : SocketAddr) :
    directionAt (s.remove addr) a = if a = addr then none else directionAt s a := by
  unfold directionAt PeerManager.remove
  rw [lookup_erase_eq]
  split <;> rfl

theorem directionAt_insertPeer (s : PeerManager) (clock : Moment) (addr : SocketAddr) (dir : Direction)
    (a : SocketAddr) :
    directionAt (s.insertPeer clock addr dir) a = if a = addr then some dir else directionAt s a := by
  unfold directionAt PeerManager.insertPeer
  rw [lookup_insert_eq]
  split <;> rfl

theorem directionAt_update {addr : SocketAddr} {entry : PeerEntry} (hlook : s.peers.lookup addr = some entry)
    {entry' : PeerEntry} (hdir : entry'.info.direction = entry.info.direction) (a : SocketAddr) :
    directionAt { s with peers := s.peers.insert addr entry' } a = directionAt s a := by
  unfold directionAt
  rw [lookup_insert_eq]
  split
  · rename_i heq
    rw [heq, hlook, Option.map_some, Option.map_some, hdir]
  · rfl

theorem directionAt_checkRateLimit (s : PeerManager) (clock : Moment) (addr a : SocketAddr) :
    directionAt (checkRateLimit s clock addr).2 a = directionAt s a := by
  unfold checkRateLimit
  cases hlook : s.peers.lookup addr with
  | none => rfl
  | some entry => exact directionAt_update hlook PeerInfo.checkRateLimit_direction a

theorem addMisbehaviour_result (s : PeerManager) (clock : Moment) (addr : SocketAddr) (score : UInt32)
    (reason : String) :
    s.addMisbehaviourWithReason clock addr score reason = (true, (s.ban clock addr.ip reason).remove addr) ∨
      s.addMisbehaviourWithReason clock addr score reason = (false, s) ∨
      ∃ entry entry', s.peers.lookup addr = some entry ∧ entry'.info.direction = entry.info.direction ∧
        entry'.info.handshake = entry.info.handshake ∧
        s.addMisbehaviourWithReason clock addr score reason =
          (false, { s with peers := s.peers.insert addr entry' }) := by
  unfold PeerManager.addMisbehaviourWithReason
  cases hlook : s.peers.lookup addr with
  | none => exact .inr (.inl rfl)
  | some entry =>
    simp only
    cases hscore : entry.info.addMisbehaviour s.limits.banThreshold clock.now score with
    | none => exact .inl rfl
    | some info =>
      exact .inr (.inr ⟨entry, { entry with info := info }, rfl, (PeerInfo.addMisbehaviour_keeps hscore).1,
        PeerInfo.addMisbehaviour_handshake hscore, rfl⟩)

/-- Points leave the directions alone, unless they ban the address. -/
theorem directionAt_addMisbehaviour (s : PeerManager) (clock : Moment) (addr : SocketAddr) (score : UInt32)
    (reason : String) (a : SocketAddr) : directionAt (s.addMisbehaviourWithReason clock addr score reason).2 a =
      if (s.addMisbehaviourWithReason clock addr score reason).1 = true ∧ a = addr then none
      else directionAt s a := by
  rcases addMisbehaviour_result s clock addr score reason with h | h | ⟨entry, entry', hlook, hdir, -, h⟩
  · simp only [h, true_and]
    exact directionAt_remove (s.ban clock addr.ip reason) addr a
  · simp [h]
  · simp only [h, Bool.false_eq_true, false_and, if_false]
    exact directionAt_update hlook hdir a

theorem directionAt_banIp (s : PeerManager) (clock : Moment) (ip : IpAddr) (reason : String) (a : SocketAddr) :
    directionAt (s.banIp clock ip reason) a = if a.ip = ip then none else directionAt s a := by
  have hmem : a ∈ ((clock.iter s.peers).map Prod.fst).filter (fun a => a.ip = ip) ↔ a ∈ s.peers ∧ a.ip = ip :=
    mem_toRemove
  unfold directionAt PeerManager.banIp
  simp only [PeerManager.ban, lookup_eraseAll]
  by_cases hip : a.ip = ip
  · rw [if_pos hip]
    split
    · rfl
    · rename_i hnot
      have hout : a ∉ s.peers := fun h => hnot (hmem.mpr ⟨h, hip⟩)
      rw [Finmap.lookup_eq_none.mpr hout]
      rfl
  · rw [if_neg hip, if_neg fun h => hip (hmem.mp h).2]

theorem limits_addMisbehaviour (s : PeerManager) (clock : Moment) (addr : SocketAddr) (score : UInt32)
    (reason : String) : (s.addMisbehaviourWithReason clock addr score reason).2.limits = s.limits := by
  unfold PeerManager.addMisbehaviourWithReason
  split
  · rfl
  · split <;> rfl

theorem limits_checkRateLimit (s : PeerManager) (clock : Moment) (addr : SocketAddr) :
    (checkRateLimit s clock addr).2.limits = s.limits := by
  unfold checkRateLimit
  split <;> rfl

theorem limit_congr (h : s'.limits = s.limits) (dir : Direction) : s'.limit dir = s.limit dir := by
  unfold PeerManager.limit
  rw [h]

theorem entriesOf_mono {dir : Direction} (h : ∀ a, directionAt s' a = some dir → directionAt s a = some dir) :
    entriesOf s' dir ≤ entriesOf s dir := by
  apply Finset.card_le_card
  intro a ha
  obtain ⟨-, hdir⟩ := Finset.mem_filter.mp ha
  refine Finset.mem_filter.mpr ⟨?_, h a hdir⟩
  rw [Finmap.mem_keys, ← directionAt_ne_none_iff, h a hdir]
  exact Option.some_ne_none _

theorem entriesOf_insertPeer (s : PeerManager) (clock : Moment) (addr : SocketAddr) (dir dir' : Direction) :
    entriesOf (s.insertPeer clock addr dir) dir' ≤ entriesOf s dir' + if dir' = dir then 1 else 0 := by
  have hsub : ((s.insertPeer clock addr dir).peers.keys.filter fun a =>
      directionAt (s.insertPeer clock addr dir) a = some dir') ⊆
        (s.peers.keys.filter fun a => directionAt s a = some dir') ∪ if dir' = dir then {addr} else ∅ := by
    intro a ha
    obtain ⟨-, hdir⟩ := Finset.mem_filter.mp ha
    rw [directionAt_insertPeer] at hdir
    apply Finset.mem_union.mpr
    split at hdir
    · rename_i heq
      right
      rw [if_pos (Option.some.inj hdir).symm, heq]
      exact Finset.mem_singleton_self _
    · left
      refine Finset.mem_filter.mpr ⟨?_, hdir⟩
      rw [Finmap.mem_keys, ← directionAt_ne_none_iff, hdir]
      exact Option.some_ne_none _
  refine (Finset.card_le_card hsub).trans ((Finset.card_union_le _ _).trans ?_)
  apply Nat.add_le_add_left
  split <;> simp

end Books

section Invariant

variable {r r' : Registry} {clock : Moment} {id : ℕ} {t : Session} {phase : Phase} {action : Action}

/-- The invariant: what dials or runs has its entry, every entry is that of a session, and no two
sessions hold one address. -/
structure Intact (r : Registry) : Prop where
  booked : ∀ id t, r.sessions.lookup id = some t → t.live = true →
    directionAt r.manager t.addr = some t.dir
  owned : ∀ a, directionAt r.manager a ≠ none →
    ∃ id t, r.sessions.lookup id = some t ∧ t.addr = a ∧ t.holds = true
  single : ∀ id id' t t', r.sessions.lookup id = some t → r.sessions.lookup id' = some t' →
    t.holds = true → t'.holds = true → t.addr = t'.addr → id = id'
  room : ∀ dir, entriesOf r.manager dir ≤ r.manager.limit dir

theorem Session.holds_of_live (h : t.live = true) : t.holds = true := by
  obtain ⟨addr, dir, phase⟩ := t
  cases phase with
  | dialing | starting | reading => rfl
  | checking | picking | evicting | dropping | inserting | leaving | removing => cases h

theorem Intact.integrity (h : Intact r) : Integrity r where
  reading id t hlook hphase := h.booked id t hlook (by rw [Session.live, hphase])
  owned a ha := h.owned a ((directionAt_ne_none_iff r.manager a).mpr ha)
  room := h.room

theorem Intact.manager (h : Intact r) {s : PeerManager} (hdir : ∀ a, directionAt s a = directionAt r.manager a)
    (hlimits : s.limits = r.manager.limits) : Intact { r with manager := s } where
  booked id t hlook hlive := (hdir t.addr).trans (h.booked id t hlook hlive)
  owned a ha := h.owned a (by rwa [hdir a] at ha)
  single := h.single
  room dir := by
    rw [limit_congr hlimits]
    exact (entriesOf_mono fun a ha => (hdir a).symm.trans ha).trans (h.room dir)

/-- Entries are taken out under addresses of which no session dials or runs. -/
theorem Intact.forget (h : Intact r) {s : PeerManager} {gone : SocketAddr → Prop} [DecidablePred gone]
    (hdir : ∀ a, directionAt s a = if gone a then none else directionAt r.manager a)
    (hlimits : s.limits = r.manager.limits)
    (hgone : ∀ id t, r.sessions.lookup id = some t → t.live = true → ¬ gone t.addr) :
    Intact { r with manager := s } where
  booked id t hlook hlive := by
    rw [hdir, if_neg (hgone id t hlook hlive)]
    exact h.booked id t hlook hlive
  owned a ha := by
    rw [hdir] at ha
    split at ha
    · exact absurd rfl ha
    · exact h.owned a ha
  single := h.single
  room dir := by
    rw [limit_congr hlimits]
    refine (entriesOf_mono fun a ha => ?_).trans (h.room dir)
    rw [hdir] at ha
    split at ha
    · cases ha
    · exact ha

/-- A session that goes on does not come to life and does not take or give up its address. -/
theorem Intact.setPhase (h : Intact r) (hlook : r.sessions.lookup id = some t)
    (hlive : ({ t with phase := phase } : Session).live = true → t.live = true)
    (hholds : ({ t with phase := phase } : Session).holds = t.holds) : Intact (r.setPhase id t phase) := by
  have hget : ∀ id' t', (r.setPhase id t phase).sessions.lookup id' = some t' →
      ∃ t'', r.sessions.lookup id' = some t'' ∧ t'.addr = t''.addr ∧ t'.dir = t''.dir ∧
        (t'.live = true → t''.live = true) ∧ t'.holds = t''.holds := by
    intro id' t' hlook'
    rw [Registry.setPhase, lookup_insert_eq] at hlook'
    split at hlook'
    · rename_i heq
      rw [← Option.some.inj hlook', heq]
      exact ⟨t, hlook, rfl, rfl, hlive, hholds⟩
    · exact ⟨t', hlook', rfl, rfl, fun h => h, rfl⟩
  refine ⟨?_, ?_, ?_, h.room⟩
  · intro id' t' hlook' hlive'
    obtain ⟨t'', hlook'', haddr, hdir, hl, -⟩ := hget id' t' hlook'
    rw [haddr, hdir]
    exact h.booked id' t'' hlook'' (hl hlive')
  · intro a ha
    obtain ⟨id', t', hlook', haddr, hh⟩ := h.owned a ha
    by_cases hid : id' = id
    · subst hid
      rw [hlook] at hlook'
      rw [← Option.some.inj hlook'] at haddr hh
      refine ⟨id', { t with phase := phase }, ?_, haddr, hholds.trans hh⟩
      rw [Registry.setPhase, lookup_insert_eq, if_pos rfl]
    · refine ⟨id', t', ?_, haddr, hh⟩
      rw [Registry.setPhase, lookup_insert_eq, if_neg hid]
      exact hlook'
  · intro id₁ id₂ t₁ t₂ h₁ h₂ hh₁ hh₂ haddr
    obtain ⟨u₁, hu₁, ha₁, -, -, hv₁⟩ := hget id₁ t₁ h₁
    obtain ⟨u₂, hu₂, ha₂, -, -, hv₂⟩ := hget id₂ t₂ h₂
    exact h.single id₁ id₂ u₁ u₂ hu₁ hu₂ (hv₁.symm.trans hh₁) (hv₂.symm.trans hh₂)
      (ha₁.symm.trans (haddr.trans ha₂))

theorem Intact.endTask (h : Intact r) (hlook : r.sessions.lookup id = some t)
    (hfree : t.holds = true → directionAt r.manager t.addr = none) : Intact (r.endTask id) := by
  have hget : ∀ id' t', (r.endTask id).sessions.lookup id' = some t' →
      id' ≠ id ∧ r.sessions.lookup id' = some t' := by
    intro id' t' hlook'
    rw [Registry.endTask, lookup_erase_eq] at hlook'
    split at hlook'
    · cases hlook'
    · rename_i hne
      exact ⟨hne, hlook'⟩
  refine ⟨?_, ?_, ?_, h.room⟩
  · intro id' t' hlook' hlive
    exact h.booked id' t' (hget id' t' hlook').2 hlive
  · intro a ha
    obtain ⟨id', t', hlook', haddr, hholds⟩ := h.owned a ha
    have hid : id' ≠ id := by
      rintro rfl
      rw [hlook] at hlook'
      rw [← Option.some.inj hlook'] at haddr hholds
      exact ha (haddr ▸ hfree hholds)
    refine ⟨id', t', ?_, haddr, hholds⟩
    rw [Registry.endTask, lookup_erase_eq, if_neg hid]
    exact hlook'
  · intro id₁ id₂ t₁ t₂ h₁ h₂
    exact h.single id₁ id₂ t₁ t₂ (hget id₁ t₁ h₁).2 (hget id₂ t₂ h₂).2

theorem Intact.spawn (h : Intact r) (id : ℕ) (addr : SocketAddr) (dir : Direction) : Intact (r.spawn id addr dir) := by
  unfold Registry.spawn
  split
  · exact h
  · rename_i hfresh
    have hget : ∀ id' t', (r.sessions.insert id ⟨addr, dir, .checking⟩).lookup id' = some t' →
        t'.holds = true → r.sessions.lookup id' = some t' := by
      intro id' t' hlook' hholds
      rw [lookup_insert_eq] at hlook'
      split at hlook'
      · rw [← Option.some.inj hlook'] at hholds
        cases hholds
      · exact hlook'
    refine ⟨?_, ?_, ?_, h.room⟩
    · intro id' t' hlook' hlive
      exact h.booked id' t' (hget id' t' hlook' (Session.holds_of_live hlive)) hlive
    · intro a ha
      obtain ⟨id', t', hlook', haddr, hholds⟩ := h.owned a ha
      refine ⟨id', t', ?_, haddr, hholds⟩
      have hid : id' ≠ id := by
        rintro rfl
        exact hfresh ((mem_iff_lookup r.sessions id').mpr ⟨t', hlook'⟩)
      rw [lookup_insert_eq, if_neg hid]
      exact hlook'
    · intro id₁ id₂ t₁ t₂ h₁ h₂ hh₁ hh₂
      exact h.single id₁ id₂ t₁ t₂ (hget id₁ t₁ h₁ hh₁) (hget id₂ t₂ h₂ hh₂) hh₁ hh₂

theorem Intact.insert (h : Intact r) (hlook : r.sessions.lookup id = some t) (hphase : t.phase = .inserting)
    (hholds : ({ t with phase := phase } : Session).holds = true)
    (halone : ∀ id' t', r.sessions.lookup id' = some t' → t'.holds = true → t'.addr ≠ t.addr)
    (hslot : entriesOf r.manager t.dir < r.manager.limit t.dir) :
    Intact ({ r with manager := r.manager.insertPeer clock t.addr t.dir }.setPhase id t phase) := by
  have hget : ∀ id' t', (r.sessions.insert id { t with phase := phase }).lookup id' = some t' →
      id' = id ∧ t' = { t with phase := phase } ∨ id' ≠ id ∧ r.sessions.lookup id' = some t' := by
    intro id' t' hlook'
    rw [lookup_insert_eq] at hlook'
    split at hlook'
    · rename_i heq
      exact .inl ⟨heq, (Option.some.inj hlook').symm⟩
    · rename_i hne
      exact .inr ⟨hne, hlook'⟩
  have hdir := directionAt_insertPeer r.manager clock t.addr t.dir
  have hnot : t.holds = false := by rw [Session.holds, hphase]
  refine ⟨?_, ?_, ?_, ?_⟩
  · intro id' t' hlook' hlive
    show directionAt (r.manager.insertPeer clock t.addr t.dir) t'.addr = some t'.dir
    rw [hdir]
    rcases hget id' t' hlook' with ⟨-, rfl⟩ | ⟨-, hold⟩
    · rw [if_pos rfl]
    · rw [if_neg (halone id' t' hold (Session.holds_of_live hlive))]
      exact h.booked id' t' hold hlive
  · intro a ha
    change directionAt (r.manager.insertPeer clock t.addr t.dir) a ≠ none at ha
    rw [hdir] at ha
    split at ha
    · rename_i heq
      refine ⟨id, { t with phase := phase }, ?_, heq.symm, hholds⟩
      exact (lookup_insert_eq _ _ _ _).trans (if_pos rfl)
    · obtain ⟨id', t', hlook', haddr, hh⟩ := h.owned a ha
      have hid : id' ≠ id := by
        rintro rfl
        rw [hlook] at hlook'
        rw [← Option.some.inj hlook', hnot] at hh
        cases hh
      exact ⟨id', t', (lookup_insert_eq _ _ _ _).trans ((if_neg hid).trans hlook'), haddr, hh⟩
  · intro id₁ id₂ t₁ t₂ h₁ h₂ hh₁ hh₂ haddr
    rcases hget id₁ t₁ h₁ with ⟨rfl, rfl⟩ | ⟨-, hold₁⟩
    · rcases hget id₂ t₂ h₂ with ⟨rfl, -⟩ | ⟨-, hold₂⟩
      · rfl
      · exact absurd haddr.symm (halone id₂ t₂ hold₂ hh₂)
    · rcases hget id₂ t₂ h₂ with ⟨rfl, rfl⟩ | ⟨-, hold₂⟩
      · exact absurd haddr (halone id₁ t₁ hold₁ hh₁)
      · exact h.single id₁ id₂ t₁ t₂ hold₁ hold₂ hh₁ hh₂ haddr
  · intro dir
    show entriesOf (r.manager.insertPeer clock t.addr t.dir) dir ≤ r.manager.limit dir
    refine (entriesOf_insertPeer r.manager clock t.addr t.dir dir).trans ?_
    have hroom := h.room dir
    split
    · rename_i heq
      rw [heq]
      exact hslot
    · exact hroom

/-- A peer that is banned in its own read loop loses its entry, and the loop ends. -/
theorem Intact.penalise (h : Intact r) (hlook : r.sessions.lookup id = some t) (hphase : t.phase = .reading)
    (score : UInt32) (reason : String) : Intact (r.penalise clock id t score reason) := by
  have hdir := directionAt_addMisbehaviour r.manager clock t.addr score reason
  have hlimits := limits_addMisbehaviour r.manager clock t.addr score reason
  unfold Registry.penalise
  generalize r.manager.addMisbehaviourWithReason clock t.addr score reason = result at hdir hlimits
  obtain ⟨banned, s⟩ := result
  simp only at hdir hlimits ⊢
  have hholds : t.holds = true := by rw [Session.holds, hphase]
  cases banned with
  | false =>
    simp only [Bool.false_eq_true, false_and, if_false] at hdir ⊢
    exact h.manager hdir hlimits
  | true =>
    simp only [true_and, if_true] at hdir ⊢
    have hleft : Intact (r.setPhase id t .leaving) :=
      h.setPhase hlook (fun hlive => by cases hlive) hholds.symm
    refine @Intact.forget (r.setPhase id t .leaving) hleft s (· = t.addr) _ hdir hlimits ?_
    intro id' t' hlook' hlive haddr
    -- the only session under the address is this one, and it reads no more
    rw [Registry.setPhase, lookup_insert_eq] at hlook'
    split at hlook'
    · rw [← Option.some.inj hlook'] at hlive
      cases hlive
    · rename_i hne
      exact hne (h.single id' id t' t hlook' hlook (Session.holds_of_live hlive) hholds haddr)

theorem Intact.read (h : Intact r) (hlook : r.sessions.lookup id = some t) (hphase : t.phase = .reading)
    (event : Reading) : Intact (r.read clock id t event) := by
  have hholds : t.holds = true := by rw [Session.holds, hphase]
  cases event with
  | failed => exact h.setPhase hlook (fun hlive => by cases hlive) hholds.symm
  | message penalty =>
    have hdir := directionAt_checkRateLimit r.manager clock t.addr
    have hlimits := limits_checkRateLimit r.manager clock t.addr
    unfold Registry.read
    generalize checkRateLimit r.manager clock t.addr = result at hdir hlimits
    obtain ⟨exceeded, s⟩ := result
    have hnew : Intact { r with manager := s } := h.manager hdir hlimits
    simp only
    split
    · exact hnew.penalise hlook hphase 20 _
    · split
      · exact hnew
      · exact hnew.penalise hlook hphase _ _

theorem Intact.check (h : Intact r) (hlook : r.sessions.lookup id = some t) (hphase : t.phase = .checking) :
    Intact (r.check clock id t) := by
  obtain ⟨hpeers, -, hlimits⟩ := isBanned_peers r.manager clock t.addr.ip
  have hholds : t.holds = false := by rw [Session.holds, hphase]
  unfold Registry.check
  generalize r.manager.isBanned clock t.addr.ip = result at hpeers hlimits
  obtain ⟨banned, s⟩ := result
  have hdir : ∀ a, directionAt s a = directionAt r.manager a := by
    intro a
    rw [directionAt, directionAt, hpeers]
  have hnew : Intact { r with manager := s } := h.manager hdir hlimits
  have hend : Intact ({ r with manager := s }.endTask id) :=
    hnew.endTask hlook fun hcontra => by rw [hholds] at hcontra; cases hcontra
  simp only
  split
  · exact hend
  · split
    · split
      · exact hnew.setPhase hlook (fun hlive => by cases hlive) hholds.symm
      · exact hend
    · exact hnew.setPhase hlook (fun hlive => by cases hlive) hholds.symm

theorem Intact.sessionStep (h : Intact r) (hlook : r.sessions.lookup id = some t) (hid : action.session = some id)
    (hcareful : action.Careful r) : Intact (r.sessionStep clock id t action) := by
  cases action with
  | check _ =>
    simp only [Registry.sessionStep]
    split
    · exact h.check hlook ‹_›
    · exact h
  | pick _ =>
    simp only [Registry.sessionStep]
    split
    · rename_i hphase
      have hholds : t.holds = false := by rw [Session.holds, hphase]
      split
      · exact h.endTask hlook fun hcontra => by rw [hholds] at hcontra; cases hcontra
      · exact h.setPhase hlook (fun hlive => by cases hlive) hholds.symm
    · exact h
  | evict _ =>
    obtain rfl := Option.some.inj hid
    simp only [Registry.sessionStep]
    split
    · rename_i victim hphase
      have hholds : t.holds = false := by rw [Session.holds, hphase]
      have hgone : Intact { r with manager := r.manager.remove victim } :=
        h.forget (directionAt_remove r.manager victim) rfl (hcareful t victim hlook hphase)
      exact hgone.setPhase hlook (fun hlive => by cases hlive) hholds.symm
    · exact h
  | dropChannel _ =>
    simp only [Registry.sessionStep]
    split
    · rename_i victim hphase
      have hholds : t.holds = false := by rw [Session.holds, hphase]
      have hnew : Intact { r with manager := r.manager.removeSender victim } := h.manager (fun _ => rfl) rfl
      exact hnew.setPhase hlook (fun hlive => by cases hlive) hholds.symm
    · exact h
  | insert _ =>
    obtain rfl := Option.some.inj hid
    simp only [Registry.sessionStep]
    split
    · rename_i hphase
      obtain ⟨halone, hslot⟩ := hcareful t hlook hphase
      refine h.insert hlook hphase ?_ halone hslot
      split <;> rfl
    · exact h
  | dialed _ ok =>
    obtain rfl := Option.some.inj hid
    simp only [Registry.sessionStep]
    split
    · rename_i hphase
      rw [hcareful t hlook hphase]
      have hholds : t.holds = true := by rw [Session.holds, hphase]
      exact h.setPhase hlook (fun _ => by rw [Session.live, hphase]) hholds.symm
    · exact h
  | start _ ok =>
    simp only [Registry.sessionStep]
    split
    · rename_i hphase
      have hlive : t.live = true := by rw [Session.live, hphase]
      have hholds := Session.holds_of_live hlive
      split
      · have hnew : Intact { r with manager := r.manager.registerSender t.addr id } :=
          h.manager (fun _ => rfl) rfl
        exact hnew.setPhase hlook (fun _ => hlive) hholds.symm
      · exact h.setPhase hlook (fun hcontra => by cases hcontra) hholds.symm
    · exact h
  | read _ event =>
    simp only [Registry.sessionStep]
    split
    · exact h.read hlook ‹_› event
    · exact h
  | leave _ =>
    simp only [Registry.sessionStep]
    split
    · rename_i hphase
      have hholds : t.holds = true := by rw [Session.holds, hphase]
      have hnew : Intact { r with manager := r.manager.removeSender t.addr } := h.manager (fun _ => rfl) rfl
      exact hnew.setPhase hlook (fun hcontra => by cases hcontra) hholds.symm
    · exact h
  | finish _ =>
    simp only [Registry.sessionStep]
    split
    · rename_i hphase
      have hholds : t.holds = true := by rw [Session.holds, hphase]
      have hdir := directionAt_remove r.manager t.addr
      have hgone : Intact { r with manager := r.manager.remove t.addr } := by
        refine h.forget hdir rfl ?_
        intro id' t' hlook' hlive haddr
        have hsame := h.single id' id t' t hlook' hlook (Session.holds_of_live hlive) hholds haddr
        subst hsame
        rw [hlook] at hlook'
        rw [← Option.some.inj hlook', Session.live, hphase] at hlive
        cases hlive
      exact hgone.endTask hlook fun _ => (hdir t.addr).trans (if_pos rfl)
    · exact h
  | accept | connect | banIp | unbanIp | disconnectPeer => exact h

theorem Intact.apply (h : Intact r) (hcareful : action.Careful r) : Intact (action.apply r clock) := by
  have hstep : Intact (match action.session.bind fun id => (r.sessions.lookup id).map (Prod.mk id) with
      | none => r
      | some (id, t) => r.sessionStep clock id t action) := by
    split
    · exact h
    · rename_i id t hfound
      obtain ⟨id', hid, hmap⟩ := Option.bind_eq_some_iff.mp hfound
      obtain ⟨t', hlook, heq⟩ := Option.map_eq_some_iff.mp hmap
      obtain ⟨rfl, rfl⟩ := Prod.mk.inj heq
      exact h.sessionStep hlook hid hcareful
  cases action with
  | accept id addr => exact h.spawn id addr _
  | connect id addr blockRelayOnly => exact h.spawn id addr _
  | banIp ip reason =>
    exact h.forget (directionAt_banIp r.manager clock ip reason) rfl
      fun id t hlook hlive => hcareful id t hlook hlive
  | unbanIp ip => exact h.manager (fun _ => rfl) rfl
  | disconnectPeer addr =>
    exact h.forget (directionAt_remove r.manager addr) rfl fun id t hlook hlive => hcareful id t hlook hlive
  | check | pick | evict | dropChannel | insert | dialed | start | read | leave | finish => exact hstep

theorem Intact.run (h : Intact r) {actions : List (Moment × Action)} (hcareful : AlwaysCareful r actions) :
    Intact (runActions r actions) := by
  induction actions generalizing r with
  | nil => exact h
  | cons action rest ih =>
    obtain ⟨hfirst, hrest⟩ := hcareful
    exact ih (h.apply hfirst) hrest

/-- A manager without peers, whatever is banned, and no sessions. -/
def Registry.idle (s : PeerManager) : Registry := ⟨{ s with peers := ∅, senders := ∅ }, ∅⟩

theorem Intact.idle (s : PeerManager) : Intact (Registry.idle s) where
  booked id t hlook := by
    rw [Registry.idle, Finmap.lookup_empty] at hlook
    cases hlook
  owned a ha := by
    rw [directionAt_ne_none_iff] at ha
    exact absurd ha Finmap.notMem_empty
  single id id' t t' hlook := by
    rw [Registry.idle, Finmap.lookup_empty] at hlook
    cases hlook
  room dir := by
    rw [entriesOf, Registry.idle, Finmap.keys_empty, Finset.filter_empty, Finset.card_empty]
    exact Nat.zero_le _

/-- In every run of careful steps, in whatever order the tasks take them, entries and sessions stay
together. -/
theorem registry_integrity (s : PeerManager) (actions : List (Moment × Action))
    (hcareful : AlwaysCareful (Registry.idle s) actions) : Integrity (runActions (Registry.idle s) actions) :=
  ((Intact.idle s).run hcareful).integrity

end Invariant

section Runs

/-- What holds of every session is checked on the sessions that there are. -/
instance decidableForallSession {m : Map ℕ Session} {p : ℕ → Session → Prop} [∀ id t, Decidable (p id t)] :
    Decidable (∀ id t, m.lookup id = some t → p id t) :=
  decidable_of_iff (∀ id ∈ m.keys, ∀ t ∈ m.lookup id, p id t)
    ⟨fun h id t hlook => h id (Finmap.mem_keys.mpr ((mem_iff_lookup m id).mpr ⟨t, hlook⟩)) t hlook,
      fun h id _ t hlook => h id t hlook⟩

/-- An inbound peer and one that the node dials, from the first step to the end of the inbound session. -/
def twoSessions : List (Moment × Action) :=
  [(momentAt 1, .accept 0 firstAddr), (momentAt 2, .connect 1 secondAddr false), (momentAt 3, .check 1),
    (momentAt 4, .check 0), (momentAt 5, .insert 0), (momentAt 6, .insert 1), (momentAt 7, .start 0 true),
    (momentAt 8, .dialed 1 true), (momentAt 9, .start 1 true),
    (momentAt 10, .read 0 (.message (some (100, "protocol violation")))), (momentAt 11, .leave 0),
    (momentAt 12, .finish 0)]

theorem twoSessions_intact : Integrity (runActions (Registry.idle (PeerManager.new .default)) twoSessions) ∧
      directionAt (runActions (Registry.idle (PeerManager.new .default)) twoSessions).manager secondAddr =
        some .outbound := by
  refine ⟨registry_integrity _ twoSessions ?_, by decide +kernel⟩
  let before (n : ℕ) : Registry := runActions (Registry.idle (PeerManager.new .default)) (twoSessions.take n)
  have hinsert (n id : ℕ) (t : Session) (hlook : (before n).sessions.lookup id = some t)
      (halone : ∀ id' t', (before n).sessions.lookup id' = some t' → t'.holds = true → t'.addr ≠ t.addr)
      (hslot : entriesOf (before n).manager t.dir < (before n).manager.limit t.dir) :
      Action.Careful (before n) (.insert id) := by
    intro t' hlook' _
    rw [hlook] at hlook'
    rw [← Option.some.inj hlook']
    exact ⟨halone, hslot⟩
  have hfirst : Action.Careful (before 4) (.insert 0) :=
    hinsert 4 0 ⟨firstAddr, .inbound, .inserting⟩ (by decide +kernel) (by decide +kernel) (by decide +kernel)
  have hsecond : Action.Careful (before 5) (.insert 1) :=
    hinsert 5 1 ⟨secondAddr, .outbound, .inserting⟩ (by decide +kernel) (by decide +kernel) (by decide +kernel)
  exact ⟨trivial, trivial, trivial, trivial, hfirst, hsecond, trivial, fun _ _ _ => rfl, trivial, trivial,
    trivial, trivial, trivial⟩

/-- A dial that fails leaves its entry behind, and a second session under an address gives the entry
another direction. -/
theorem registry_integrity_fails : ¬ Integrity (runActions (Registry.idle (PeerManager.new .default))
        [(momentAt 1, .connect 0 firstAddr false), (momentAt 2, .check 0), (momentAt 3, .insert 0),
          (momentAt 4, .dialed 0 false)]) ∧
      ¬ Integrity (runActions (Registry.idle (PeerManager.new .default))
        [(momentAt 1, .accept 0 firstAddr), (momentAt 2, .check 0), (momentAt 3, .insert 0),
          (momentAt 4, .start 0 true), (momentAt 5, .connect 1 firstAddr true), (momentAt 6, .check 1),
          (momentAt 7, .insert 1)]) := by
  constructor
  · intro h
    obtain ⟨id, t, hlook, haddr, hholds⟩ := h.owned firstAddr (by decide +kernel)
    have hnone : ∀ id t, (runActions (Registry.idle (PeerManager.new .default))
        [(momentAt 1, .connect 0 firstAddr false), (momentAt 2, .check 0), (momentAt 3, .insert 0),
          (momentAt 4, .dialed 0 false)]).sessions.lookup id = some t → False := by decide +kernel
    exact hnone id t hlook
  · intro h
    have hdir := h.reading 0 ⟨firstAddr, .inbound, .reading⟩ (by decide +kernel) rfl
    revert hdir
    decide +kernel

end Runs

end KuberCoin.SessionRegistries
