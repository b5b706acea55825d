import KuberCoin.WorkPaths

/-!
Nodes that are closed and opened again on the same store.
The work table is written with the rest of the chain state, so a side-chain block stored
since the last such write has no entry after a restart. As long as a node is restarted only
when its table is written, the work of every stored block stays right.
-/
namespace KuberCoin.Sessions

open Bytes Maps Transactions Blocks UtxoSets Params Difficulty Validator Storage NodeStates
  NodeStates.NodeState AddBlock Frames BlockEffects StepCases Runs Branches ChainInvariants WorkPaths

section Opening

variable (cx : Context) {env : Env} {d : Disk} {tip : Bytes32} {s s' : NodeState}

/-- What a node opened on a store with a tip holds. The genesis block is stored again if it is
missing. -/
structure Reopened (d : Disk) (tip : Bytes32) (s : NodeState) : Prop where
  tip : s.tip = tip
  height : s.height = d.height.getD 0
  utxoSet : s.utxoSet = d.utxoSet.getD ∅
  heightMap : s.heightMap = orInsert (d.heightMap.getD ∅) 0 cx.genesisHash
  chainwork : s.chainwork = d.chainwork.getD Bytes32.zero
  blockWork : s.blockWork = orInsert (d.blockWork.getD ∅) cx.genesisHash cx.genesisWork
  orphanBlocks : s.orphanBlocks = ∅
  record : chainRecord s.store.disk = chainRecord d
  blocks : (s.blocks = ∅ ∧ s.store.disk.blocks = d.blocks ∧ (d.blocks.lookup cx.genesisHash).isSome) ∨
    (Shrinks ((∅ : Map Bytes32 Block).insert cx.genesisHash cx.genesis) s.blocks ∧
      s.store.disk.blocks = d.blocks.insert cx.genesisHash cx.genesis ∧
      d.blocks.lookup cx.genesisHash = none)

variable {cx}

theorem ensureGenesisBlockAvailable_ok (h : ensureGenesisBlockAvailable cx env (load (blank d) tip) = .ok s) :
    Reopened cx d tip s := by
  have hload : (load (blank d) tip).getBlock cx.genesisHash = d.blocks.lookup cx.genesisHash := by
    simp [NodeState.getBlock, load, blank]
  unfold ensureGenesisBlockAvailable at h
  simp only [hload] at h
  split at h
  next => simp at h
  next s₁ hstored =>
    simp only [Except.ok.injEq] at h
    subst h
    split at hstored
    next hnone =>
      obtain rfl := write_eq_some hstored
      exact ⟨rfl, rfl, rfl, rfl, rfl, rfl, rfl, rfl,
        Or.inr ⟨evict_shrinks _ _ _, rfl, Option.isNone_iff_eq_none.mp hnone⟩⟩
    next hsome =>
      obtain rfl := Option.some.inj hstored
      refine ⟨rfl, rfl, rfl, rfl, rfl, rfl, rfl, rfl, Or.inl ⟨rfl, rfl, ?_⟩⟩
      simpa [Option.isSome_iff_ne_none] using hsome

theorem Reopened.frame (h : Reopened cx d tip s) (hf : IndexFrame s s') : Reopened cx d tip s' where
  tip := hf.tip.trans h.tip
  height := hf.height.trans h.height
  utxoSet := hf.utxoSet.trans h.utxoSet
  heightMap := hf.heightMap.trans h.heightMap
  chainwork := hf.chainwork.trans h.chainwork
  blockWork := hf.blockWork.trans h.blockWork
  orphanBlocks := hf.orphanBlocks.trans h.orphanBlocks
  record := hf.record.trans h.record
  blocks := by
    rw [hf.blocks, hf.diskBlocks]
    exact h.blocks

theorem tryLoadIndexes_frame (h : tryLoadIndexes s = some s') : IndexFrame s s' := by
  unfold tryLoadIndexes at h
  simp only [Option.bind_eq_bind, Option.bind_eq_some_iff, Option.pure_def] at h
  obtain ⟨stamp, -, h⟩ := h
  split at h
  · simp at h
  simp only [Option.bind_eq_some_iff, Option.some.injEq] at h
  obtain ⟨tx, -, spk, -, heights, -, rfl⟩ := h
  exact ⟨⟨rfl, rfl, rfl, rfl, rfl, rfl, rfl, rfl, rfl, rfl, rfl, Shrinks.refl _, Shrinks.refl _⟩,
    rfl, rfl, [], Performed.nil rfl, by simp⟩

theorem new_reopened (htip : d.tip = some tip) (h : NodeState.new cx env d = .ok s) : Reopened cx d tip s := by
  unfold NodeState.new at h
  simp only [htip] at h
  split at h
  next => simp at h
  next =>
    split at h
    next => simp at h
    next s₁ hs₁ =>
      have hopened := ensureGenesisBlockAvailable_ok hs₁
      simp only [Except.ok.injEq] at h
      cases hload : tryLoadIndexes s₁ with
      | none =>
        rw [hload, Option.getD_none] at h
        rw [← h]
        exact hopened.frame (rebuildIndexes_frame s₁)
      | some s₂ =>
        rw [hload, Option.getD_some] at h
        rw [← h]
        exact hopened.frame (tryLoadIndexes_frame hload)

end Opening

section Sessions

variable (cx : Context)

/-- What happens in a session: calls, nested ones included, and restarts. -/
inductive Event where
  | call (c : Call)
  | restart (before : NodeState)

namespace Event

def before : Event → NodeState
  | call c => c.before
  | restart s => s

end Event

/-- A node that is opened on an empty store, given blocks, and at times closed and opened again
on its store. -/
inductive Session : NodeState → List Event → Prop where
  | fresh {env : Env} {s : NodeState} (h : NodeState.new cx env Disk.empty = .ok s) : Session s []
  | add {s : NodeState} {events : List Event} {env : Env} {b : Block} {fuel : ℕ} {o : Outcome}
      (hsession : Session s events) (h : addBlockFuel cx env fuel s b = some o) :
      Session o.state (events ++ o.calls.map Event.call)
  | reopen {s s' : NodeState} {events : List Event} {env : Env} (hsession : Session s events)
      (h : NodeState.new cx env s.store.disk = .ok s') : Session s' (events ++ [Event.restart s])

/-- The blocks of a session. -/
def KnownIn (events : List Event) (b : Block) : Prop :=
  b = cx.genesis ∨ ∃ c, Event.call c ∈ events ∧ c.block = b

/-- Writes succeed and the work of the chain stays in range in calls; a restart finds the work
table written. -/
def WorkSafe : Event → Prop
  | .call c => (∀ log ops, c.env.writeOk log ops = true) ∧
      (c.block.header.prevHash = c.before.tip →
        workValue c.before.chainwork + blockWorkValue c.block < 2 ^ 256)
  | .restart s => s.store.disk.blockWork = some s.blockWork

/-- The store holds the tip and the work of the node. -/
structure Recorded (s : NodeState) : Prop where
  tip : (chainRecord s.store.disk).tip = some s.tip
  chainwork : (chainRecord s.store.disk).chainwork = some s.chainwork

variable {cx} {K : Block → Prop}

theorem Recorded.step {env : Env} {s : NodeState} {b : Block} (h : Recorded s)
    (hwrites : ∀ log ops, env.writeOk log ops = true) : Recorded (addBlockStep cx env s b).2 := by
  have hcases := @addBlockStep_cases cx env s b
  generalize (addBlockStep cx env s b).1 = r at hcases
  generalize (addBlockStep cx env s b).2 = s' at hcases
  have hside : ∀ s₁, SideStored cx s b s₁ → Recorded s₁ := by
    intro s₁ hs₁
    refine ⟨?_, ?_⟩
    · rw [hs₁.record, hs₁.tip]
      exact h.tip
    · rw [hs₁.record, hs₁.chainwork]
      exact h.chainwork
  cases hcases with
  | rejected => exact h
  | orphaned =>
    obtain ⟨pool, children, heq, -⟩ := addOrphan_eq env s (b.hash cx.sha256) b
    rw [heq]
    exact ⟨h.tip, h.chainwork⟩
  | extended _ _ hext =>
    refine ⟨?_, ?_⟩
    · rw [hext.record]
    · rw [hext.record]
  | stored _ _ hs₁ _ => exact hside _ hs₁
  | reorganized _ _ _ _ hreorg _ =>
    refine ⟨?_, ?_⟩
    · rw [hreorg.record]
    · rw [hreorg.record]
  | broken e s' _ hpart =>
    rcases hpart hwrites with ⟨u, rfl⟩ | ⟨s₁, u, hashes, -, hs₁, rfl⟩
    · exact ⟨h.tip, h.chainwork⟩
    · have hrecorded := hside s₁ hs₁
      have hframe := @connectBlocks_frame cx env { s₁ with utxoSet := u } hashes
      refine ⟨?_, ?_⟩
      · rw [hframe.record, hframe.tip]
        exact hrecorded.tip
      · rw [hframe.record, hframe.chainwork]
        exact hrecorded.chainwork

theorem WorkInv.frame {s s' : NodeState} (h : WorkInv cx K s) (hf : Frame s s') : WorkInv cx K s' := by
  refine ⟨h.store.frame hf, ?_, ?_, ?_, ?_⟩
  · rw [hf.blockWork]
    exact h.entries
  · intro k x hk
    rw [hf.blockWork]
    exact h.cached k x (hf.cached k x hk)
  · intro k x hk
    rw [hf.blockWork]
    exact h.stored k x (hf.stored k x hk)
  · rw [hf.blockWork, hf.tip, hf.chainwork]
    exact h.tip

theorem lookup_orInsert {V : Type} {m : Map Bytes32 V} {k a : Bytes32} {v : V} :
    (orInsert m k v).lookup a = if a = k then some ((m.lookup k).getD v) else m.lookup a := by
  unfold orInsert
  cases hk : m.lookup k with
  | none =>
    rw [if_neg (by simp), lookup_insert_eq, Option.getD_none]
  | some w =>
    rw [Option.isSome_some, if_pos rfl, Option.getD_some]
    split
    · rename_i heq
      rw [heq, hk]
    · rfl

/-- Opening a node again when its table is written. -/
theorem WorkInv.reopened (hcf : CollisionFree cx K) {s s' : NodeState} (h : WorkInv cx K s) (hrecorded : Recorded s)
    (htable : s.store.disk.blockWork = some s.blockWork) (hopened : Reopened cx s.store.disk s.tip s') :
    WorkInv cx K s' ∧ s'.chainwork = s.chainwork := by
  have hwork : s'.chainwork = s.chainwork := by
    have hdisk : s.store.disk.chainwork = some s.chainwork := hrecorded.chainwork
    rw [hopened.chainwork, hdisk, Option.getD_some]
  have hmap : s'.blockWork = orInsert s.blockWork cx.genesisHash cx.genesisWork := by
    rw [hopened.blockWork, htable, Option.getD_some]
  have hkeep : ∀ k w, s.blockWork.lookup k = some w → s'.blockWork.lookup k = some w := by
    intro k w hk
    rw [hmap, lookup_orInsert]
    split
    · rename_i heq
      rw [← heq, hk, Option.getD_some]
    · exact hk
  have hgenesis : ∃ w, s'.blockWork.lookup cx.genesisHash = some w := by
    rw [hmap, lookup_orInsert, if_pos rfl]
    exact ⟨_, rfl⟩
  have hplaced : WellPlaced cx K fun k =>
      ((∅ : Map Bytes32 Block).insert cx.genesisHash cx.genesis).lookup k := by
    apply WellPlaced.insert _ hcf.genesis (Or.inl rfl)
    intro k b hb
    simp at hb
  have hone : ∀ k (x : Block), ((∅ : Map Bytes32 Block).insert cx.genesisHash cx.genesis).lookup k =
      some x → ∃ w, s'.blockWork.lookup k = some w := by
    intro k x hk
    rw [lookup_insert_eq] at hk
    split at hk
    · rename_i heq
      rw [heq]
      exact hgenesis
    · simp at hk
  refine ⟨⟨⟨?_, ?_, ?_⟩, ?_, ?_, ?_, ?_⟩, hwork⟩
  · rcases hopened.blocks with ⟨hcache, -, -⟩ | ⟨hcache, -, -⟩
    · rw [hcache]
      intro k b hb
      simp at hb
    · exact WellPlaced.shrinks hplaced hcache
  · rcases hopened.blocks with ⟨-, hdisk, -⟩ | ⟨-, hdisk, -⟩
    · rw [hdisk]
      exact h.store.stored
    · rw [hdisk]
      exact WellPlaced.insert h.store.stored hcf.genesis (Or.inl rfl)
  · rw [hopened.orphanBlocks]
    intro k b hb
    simp at hb
  · intro k w hk
    rw [hmap, lookup_orInsert] at hk
    split at hk
    · rename_i heq
      subst heq
      cases hold : s.blockWork.lookup cx.genesisHash with
      | none =>
        rw [hold, Option.getD_none, Option.some.injEq] at hk
        rw [← hk]
        exact genesis_entry hcf
      | some w' =>
        rw [hold, Option.getD_some, Option.some.injEq] at hk
        rw [← hk]
        exact h.entries _ _ hold
    · exact h.entries k w hk
  · rcases hopened.blocks with ⟨hcache, -, -⟩ | ⟨hcache, -, -⟩
    · rw [hcache]
      intro k b hb
      simp at hb
    · exact fun k x hk => hone k x (hcache k x hk)
  · rcases hopened.blocks with ⟨-, hdisk, -⟩ | ⟨-, hdisk, -⟩
    · rw [hdisk]
      intro k x hk
      obtain ⟨w, hw⟩ := h.stored k x hk
      exact ⟨w, hkeep k w hw⟩
    · rw [hdisk]
      intro k x hk
      rw [lookup_insert_eq] at hk
      split at hk
      · rename_i heq
        rw [heq]
        exact hgenesis
      · obtain ⟨w, hw⟩ := h.stored k x hk
        exact ⟨w, hkeep k w hw⟩
  · rw [hopened.tip, hwork]
    exact hkeep _ _ h.tip

theorem session_workInv (hcf : CollisionFree cx K) {s : NodeState} {events : List Event}
    (hsession : Session cx s events) (hknown : ∀ c, Event.call c ∈ events → K c.block)
    (hsafe : ∀ e ∈ events, WorkSafe e) : (WorkInv cx K s ∧ Recorded s) ∧
      ∀ e ∈ events, workValue e.before.chainwork ≤ workValue s.chainwork := by
  induction hsession with
  | fresh h =>
    have hfresh := freshNode h
    refine ⟨⟨WorkInv.fresh hcf hfresh, ?_, ?_⟩, by simp⟩
    · rw [hfresh.record]
    · rw [hfresh.record]
  | @add s events env b fuel o hsession h ih =>
    obtain ⟨hinv, hbefore⟩ := ih (fun c hc => hknown c (List.mem_append_left _ hc))
      (fun e he => hsafe e (List.mem_append_left _ he))
    have hcall : ∀ c ∈ o.calls, Event.call c ∈ events ++ o.calls.map Event.call :=
      fun c hc => List.mem_append_right _ (List.mem_map_of_mem hc)
    have hgood : ∀ c ∈ o.calls, K c.block ∧ WorkSafe (.call c) :=
      fun c hc => ⟨hknown c (hcall c hc), hsafe _ (hcall c hc)⟩
    have hkeeps : Keeps (fun s => WorkInv cx K s ∧ Recorded s)
        (fun s s' => workValue s.chainwork ≤ workValue s'.chainwork)
        (fun c => K c.block ∧ WorkSafe (.call c))
        (fun c => (WorkInv cx K c.before ∧ Recorded c.before) ∧ Stepped cx c)
        (addBlockFuel cx env fuel) := by
      refine addBlockFuel_keeps ?_ ?_ ?_ ?_ ?_ fuel
      · exact fun s => le_rfl
      · exact fun s₁ s₂ s₃ => le_trans
      · rintro s b ⟨hwork, hrecorded⟩ ⟨hb, hwrites, hrange⟩
        exact ⟨⟨hwork.step hcf hb (Or.inl hwrites), hrecorded.step hwrites⟩,
          hwork.chainwork_le (Or.inl hwrites) hrange⟩
      · rintro s parent child b ⟨hwork, hrecorded⟩ -
        refine ⟨⟨⟨⟨hwork.store.cached, hwork.store.stored, ?_⟩, hwork.entries, hwork.cached,
          hwork.stored, hwork.tip⟩, hrecorded.tip, hrecorded.chainwork⟩, le_rfl⟩
        exact fun k x hk => hwork.store.orphans k x (shrinks_erase _ _ k x hk)
      · rintro s tipHeight ⟨hwork, hrecorded⟩
        have hframe := @maybePrune_frame cx env s tipHeight
        refine ⟨⟨WorkInv.frame hwork hframe, ?_, ?_⟩, by rw [hframe.chainwork]⟩
        · rw [hframe.record, hframe.tip]
          exact hrecorded.tip
        · rw [hframe.record, hframe.chainwork]
          exact hrecorded.chainwork
    obtain ⟨hinv', hmono, hcalls⟩ := hkeeps s b o h hinv hgood
    refine ⟨hinv', ?_⟩
    intro e he
    rcases List.mem_append.mp he with he | he
    · exact le_trans (hbefore e he) hmono
    · obtain ⟨c, hc, rfl⟩ := List.mem_map.mp he
      exact (hcalls c hc).2
  | @reopen s s' events env hsession h ih =>
    obtain ⟨⟨hwork, hrecorded⟩, hbefore⟩ := ih (fun c hc => hknown c (List.mem_append_left _ hc))
      (fun e he => hsafe e (List.mem_append_left _ he))
    have htable : WorkSafe (.restart s) := hsafe _ (by simp)
    have hopened := new_reopened hrecorded.tip h
    obtain ⟨hwork', hchain⟩ := WorkInv.reopened hcf hwork hrecorded htable hopened
    refine ⟨⟨hwork', ?_, ?_⟩, ?_⟩
    · rw [hopened.record, hopened.tip]
      exact hrecorded.tip
    · rw [hopened.record, hchain]
      exact hrecorded.chainwork
    · intro e he
      rw [hchain]
      rcases List.mem_append.mp he with he | he
      · exact hbefore e he
      · rw [List.mem_singleton.mp he]
        exact le_rfl

/-- In every session of safe events, the work used for a stored block is the work of its path
modulo 2^256, the chain's work is that of the tip, and it never fell. -/
theorem session_work {s : NodeState} {events : List Event} (hsession : Session cx s events)
    (hcf : CollisionFree cx (KnownIn cx events)) (hsafe : ∀ e ∈ events, WorkSafe e) :
    (∀ h b, s.store.disk.blocks.lookup h = some b →
      ∃ rest, Path cx (KnownIn cx events) (b :: rest) ∧
        workValue ((s.blockWork.lookup h).getD Bytes32.zero) = pathWork (b :: rest) % 2 ^ 256) ∧
      (∃ t rest, Path cx (KnownIn cx events) (t :: rest) ∧ t.hash cx.sha256 = s.tip ∧
        (s.blockWork.lookup s.tip).getD Bytes32.zero = s.chainwork ∧
        workValue s.chainwork = pathWork (t :: rest) % 2 ^ 256) ∧
      ∀ e ∈ events, workValue e.before.chainwork ≤ workValue s.chainwork := by
  obtain ⟨⟨hwork, -⟩, hmono⟩ := session_workInv hcf hsession (fun c hc => Or.inr ⟨c, hc, rfl⟩) hsafe
  refine ⟨?_, ?_, hmono⟩
  · intro h b hb
    obtain ⟨w, hw⟩ := hwork.stored h b hb
    obtain ⟨a, rest, hpath, hhash, hvalue⟩ := hwork.entries h w hw
    obtain ⟨hplace, hK, -⟩ := hwork.store.stored h b hb
    have hheader := hcf.header_eq b a hK (hpath.known _ (by simp)) (hplace.trans hhash.symm)
    refine ⟨rest, hpath.replace hK hheader, ?_⟩
    rw [hw, Option.getD_some, hvalue, pathWork_replace hheader]
  · obtain ⟨t, rest, hpath, hhash, hvalue⟩ := hwork.entries _ _ hwork.tip
    exact ⟨t, rest, hpath, hhash, by rw [hwork.tip, Option.getD_some], hvalue⟩

theorem firstBranch_restarted : ∃ s events, Session regtest s events ∧ events.length = 2 ∧
      ∀ h b, s.store.disk.blocks.lookup h = some b →
        ∃ rest, Path regtest (KnownIn regtest events) (b :: rest) ∧
          workValue ((s.blockWork.lookup h).getD Bytes32.zero) = pathWork (b :: rest) % 2 ^ 256 := by
  have hevaluated : ((nodeAfter regtest today 1 []).any fun s₀ =>
      (addBlockFuel regtest today 2 s₀ firstBranch).any fun o =>
        decide (o.result = .ok .connected ∧ o.calls.length = 1 ∧
          o.state.store.disk.blockWork = some o.state.blockWork) &&
        (NodeState.new regtest today o.state.store.disk).isOk) = true := by
    rw [← runRegtest_eq, ← runFirstBranch_eq, ← runNodeAfter_eq, ← runAddBlockFuel_eq]
    decide +kernel
  obtain ⟨s₀, hs₀, hafter⟩ := Option.any_eq_true _ _ |>.mp hevaluated
  obtain ⟨o, ho, hstate⟩ := Option.any_eq_true _ _ |>.mp hafter
  rw [Bool.and_eq_true, decide_eq_true_eq] at hstate
  obtain ⟨⟨hresult, hone, htable⟩, hopen⟩ := hstate
  have hnew := nodeAfter_nil hs₀
  have hcalls : o.calls = [⟨today, s₀, firstBranch, .ok .connected⟩] := by
    rw [calls_eq_singleton ho hone, hresult]
  obtain ⟨s', hs'⟩ : ∃ s', NodeState.new regtest today o.state.store.disk = .ok s' := by
    cases hr : NodeState.new regtest today o.state.store.disk with
    | ok s' => exact ⟨s', rfl⟩
    | error e => simp [hr, Except.isOk, Except.toBool] at hopen
  have hsession := Session.reopen (Session.add (Session.fresh hnew) ho) hs'
  rw [hcalls] at hsession
  have hknown : ∀ b, KnownIn regtest [Event.call ⟨today, s₀, firstBranch, .ok .connected⟩,
      Event.restart o.state] b → b = regtest.genesis ∨ b = firstBranch := by
    rintro b (rfl | ⟨c, hc, rfl⟩)
    · exact Or.inl rfl
    · rcases List.mem_cons.mp hc with heq | hc
      · rw [Event.call.inj heq]
        exact Or.inr rfl
      · simp at hc
  have hsafe : ∀ e ∈ [Event.call ⟨today, s₀, firstBranch, .ok .connected⟩, Event.restart o.state],
      WorkSafe e := by
    rw [List.forall_mem_cons, List.forall_mem_cons]
    refine ⟨⟨fun _ _ => rfl, ?_⟩, htable, by simp⟩
    intro _
    change workValue s₀.chainwork + blockWorkValue firstBranch < 2 ^ 256
    have hgenesis : blockWorkValue regtest.genesis = 2 := blockWorkValue_regtest rfl
    have hfirst : blockWorkValue firstBranch = 2 := blockWorkValue_regtest rfl
    unfold blockWorkValue at hgenesis
    rw [(freshNode hnew).chainwork, Context.genesisWork, hgenesis, hfirst]
    norm_num
  exact ⟨s', _, hsession, rfl,
    (session_work hsession (firstBranch_collisionFree (Or.inl rfl) hknown) hsafe).1⟩

/-- A side-chain block counts as no work after a restart. -/
theorem restart_loses_work : ∃ s events h b rest, Session regtest s events ∧ s.store.disk.blocks.lookup h = some b ∧
      Path regtest (KnownIn regtest events) (b :: rest) ∧
      workValue ((s.blockWork.lookup h).getD Bytes32.zero) ≠ pathWork (b :: rest) % 2 ^ 256 := by
  have hevaluated : ((nodeAfter regtest today 1 []).any fun s₀ =>
      (addBlockFuel regtest today 2 s₀ firstBranch).any fun o₁ =>
        (addBlockFuel regtest today 2 o₁.state secondBranch).any fun o₂ =>
          (NodeState.new regtest today o₂.state.store.disk).toOption.any fun s =>
            decide (s.store.disk.blocks.lookup (secondBranch.hash Sha256.sha256) = some secondBranch ∧
              s.blockWork.lookup (secondBranch.hash Sha256.sha256) = none)) = true := by
    rw [← runRegtest_eq, ← runFirstBranch_eq, ← runSecondBranch_eq, ← Sha256.runSha256_eq,
      ← runNodeAfter_eq, ← runAddBlockFuel_eq]
    decide +kernel
  obtain ⟨s₀, hs₀, hafter⟩ := Option.any_eq_true _ _ |>.mp hevaluated
  obtain ⟨o₁, ho₁, hafter⟩ := Option.any_eq_true _ _ |>.mp hafter
  obtain ⟨o₂, ho₂, hafter⟩ := Option.any_eq_true _ _ |>.mp hafter
  obtain ⟨s, hopen, hstate⟩ := exists_ok_of_any hafter
  obtain ⟨hstored, hlost⟩ := of_decide_eq_true hstate
  have hsession := Session.reopen
    (Session.add (Session.add (Session.fresh (nodeAfter_nil hs₀)) ho₁) ho₂) hopen
  have hcall : Event.call ⟨today, o₁.state, secondBranch, o₂.result⟩ ∈
      (([] ++ o₁.calls.map Event.call) ++ o₂.calls.map Event.call) ++ [Event.restart o₂.state] :=
    List.mem_append_left _ (List.mem_append_right _ (List.mem_map_of_mem (mem_calls ho₂)))
  refine ⟨s, _, _, secondBranch, [regtest.genesis], hsession, hstored, ?_, ?_⟩
  · exact .child (Or.inr ⟨_, hcall, rfl⟩) (.genesis (Or.inl rfl) rfl) rfl
  · rw [hlost, Option.getD_none, workValue_zero]
    have hgenesis : blockWorkValue regtest.genesis = 2 := blockWorkValue_regtest rfl
    have hsecond : blockWorkValue secondBranch = 2 := blockWorkValue_regtest rfl
    simp [pathWork, hgenesis, hsecond]

end Sessions

end KuberCoin.Sessions
