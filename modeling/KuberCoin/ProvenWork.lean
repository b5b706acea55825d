import KuberCoin.Handlers
import KuberCoin.ChainInvariants
import KuberCoin.PoolEvictions

/-!
Proof of work along a run. `add_block` does not look at it: the handlers do, before they add
a block, and a block that waits in the orphan pool or on a side chain has been through one of
them. The difficulty is checked by `add_block` itself when it stores or connects the block.
-/
namespace KuberCoin.ProvenWork

open Bytes Maps Transactions Blocks UtxoSets Params Difficulty Validator Storage NodeStates
  NodeStates.NodeState AddBlock Frames StepCases Runs ChainInvariants Mempools Templates Handlers

variable {cx : Context} {env : Env} {S : Bytes32 → Block → Prop} {W : Block → Prop}

section Held

variable {s s' : NodeState} {k : Bytes32} {b : Block}

/-- What the node holds under a hash has a property `S`, what waits in the orphan pool has a
property `W`, and the hashes of the chain belong to blocks that were connected. -/
structure Holds (S : Bytes32 → Block → Prop) (W : Block → Prop) (s : NodeState) : Prop where
  cached : ∀ k b, s.blocks.lookup k = some b → S k b
  stored : ∀ k b, s.store.disk.blocks.lookup k = some b → S k b
  connected : ∀ k b, s.connected.lookup k = some b → S k b
  mapped : ∀ h k, s.heightMap.lookup h = some k → ∃ b, s.connected.lookup k = some b
  orphans : ∀ k b, s.orphanBlocks.lookup k = some b → W b

theorem Holds.getBlock (h : Holds S W s) (hb : s.getBlock k = some b) : S k b := by
  unfold NodeState.getBlock at hb
  cases hcache : s.blocks.lookup k with
  | none =>
    rw [hcache] at hb
    exact h.stored k b hb
  | some x =>
    rw [hcache] at hb
    cases hb
    exact h.cached k _ hcache

theorem Holds.frame (h : Holds S W s) (hf : Frame s s') : Holds S W s' where
  cached k b hb := h.cached k b (hf.cached k b hb)
  stored k b hb := h.stored k b (hf.stored k b hb)
  connected k b hb := h.connected k b (hf.connected ▸ hb)
  mapped i k hk := by
    rw [hf.connected]
    exact h.mapped i k (hf.heightMap ▸ hk)
  orphans k b hb := h.orphans k b (hf.orphanBlocks ▸ hb)

theorem Holds.congr (h : Holds S W s) (hblocks : s'.blocks = s.blocks)
    (hdisk : s'.store.disk.blocks = s.store.disk.blocks) (hconnected : s'.connected = s.connected)
    (hmap : s'.heightMap = s.heightMap) (horphans : s'.orphanBlocks = s.orphanBlocks) : Holds S W s' where
  cached k b hb := h.cached k b (hblocks ▸ hb)
  stored k b hb := h.stored k b (hdisk ▸ hb)
  connected k b hb := h.connected k b (hconnected ▸ hb)
  mapped i k hk := by
    rw [hconnected]
    exact h.mapped i k (hmap ▸ hk)
  orphans k b hb := h.orphans k b (horphans ▸ hb)

theorem forall_insert {K : Type} [DecidableEq K] {V : Type} {m m' : Map K V} {Q : K → V → Prop} {k : K} {v : V}
    (h : ∀ a w, m.lookup a = some w → Q a w) (hv : Q k v) (hm : Shrinks (m.insert k v) m') :
    ∀ a w, m'.lookup a = some w → Q a w := by
  intro a w ha
  have hin := hm a w ha
  rw [lookup_insert_eq] at hin
  by_cases hak : a = k
  · rw [if_pos hak] at hin
    cases hin
    exact hak ▸ hv
  · rw [if_neg hak] at hin
    exact h a w hin

theorem Holds.cache (h : Holds S W s) (hb : S k b) : Holds S W (insertBlockCache cx s k b) where
  cached := forall_insert h.cached hb (evict_shrinks _ _ _)
  stored := h.stored
  connected := h.connected
  mapped := h.mapped
  orphans := h.orphans

theorem Holds.put (h : Holds S W s) (hb : S k b) : Holds S W { s with store := s.store.perform [.putBlock k b] } where
  cached := h.cached
  stored := forall_insert h.stored hb (Shrinks.refl _)
  connected := h.connected
  mapped := h.mapped
  orphans := h.orphans

theorem Holds.connect (h : Holds S W s) {i : ℕ} (hb : S k b) (hblocks : s'.blocks = s.blocks)
    (hdisk : s'.store.disk.blocks = s.store.disk.blocks) (hconnected : s'.connected = s.connected.insert k b)
    (hmap : s'.heightMap = s.heightMap.insert i k) (horphans : s'.orphanBlocks = s.orphanBlocks) : Holds S W s' where
  cached a x hx := h.cached a x (hblocks ▸ hx)
  stored a x hx := h.stored a x (hdisk ▸ hx)
  connected := forall_insert h.connected hb (hconnected ▸ Shrinks.refl _)
  mapped j a ha := by
    rw [hmap, lookup_insert_eq] at ha
    rw [hconnected, lookup_insert_eq]
    by_cases hak : a = k
    · rw [if_pos hak]
      exact ⟨b, rfl⟩
    · rw [if_neg hak]
      by_cases hj : j = i
      · rw [if_pos hj] at ha
        exact absurd (Option.some.inj ha).symm hak
      · rw [if_neg hj] at ha
        exact h.mapped j a ha
  orphans a x hx := h.orphans a x (horphans ▸ hx)

theorem Holds.persist {tip : Bytes32} {height : ℕ} (h : Holds S W s) (hs : persistState cx env s tip height = some s') :
    Holds S W s' := by
  have hdisk := @persisted_disk cx s tip height
  have hpersisted : Holds S W (persisted cx s tip height) := by
    refine h.congr rfl ?_ rfl rfl rfl
    rw [hdisk]
    rfl
  exact hpersisted.frame (persistState_eq_some hs).1

end Held

section Steps

variable {s : NodeState} {b : Block} {work : Bytes32}

theorem Holds.connectTip (h : Holds S W s) (hb : S (b.hash cx.sha256) b) :
    Holds S W (connectTip cx env s b work).2 := by
  unfold AddBlock.connectTip
  simp only
  split
  next => exact h
  next =>
    split
    next => exact h.congr rfl rfl rfl rfl rfl
    next undo u _ =>
      split
      next => exact h.congr rfl rfl rfl rfl rfl
      next s₁ hw =>
        obtain rfl := write_eq_some hw
        have hwritten : Holds S W
            ({ ({ s with utxoSet := u } : NodeState) with
              store := s.store.perform [.putUndo (b.hash cx.sha256) undo] } : NodeState) :=
          h.congr rfl rfl rfl rfl rfl
        have hadvanced : Holds S W (advanceTip cx _ b work) :=
          (hwritten.cache hb).connect hb rfl rfl rfl rfl rfl
        split
        next => exact hadvanced
        next s₃ hpersist =>
          have hpersisted := hadvanced.persist hpersist
          split
          next => exact hpersisted
          next s₄ hw₄ =>
            obtain rfl := write_eq_some hw₄
            exact (hpersisted.put hb).frame (indexBlock_frame _ b _).toFrame

theorem Holds.connectBlocks {s : NodeState} (h : Holds S W s) (hashes : List Bytes32) :
    Holds S W (connectBlocks cx env s hashes).2 := by
  induction hashes generalizing s with
  | nil => exact h
  | cons hash rest ih =>
    have hone : Holds S W (connectBlock cx env s hash).2 := by
      unfold connectBlock
      split
      next => exact h
      next b hb =>
        split
        next => exact h
        next =>
          split
          next => exact h.congr rfl rfl rfl rfl rfl
          next undo u _ =>
            split
            next => exact h.congr rfl rfl rfl rfl rfl
            next s₁ hw =>
              obtain rfl := write_eq_some hw
              exact h.connect (h.getBlock hb) rfl rfl rfl rfl rfl
    unfold AddBlock.connectBlocks
    split
    next e s' heq =>
      rw [heq] at hone
      exact hone
    next s' heq =>
      rw [heq] at hone
      exact ih hone

theorem Holds.reorganize (h : Holds S W s) : Holds S W (reorganize cx env s b work).2 := by
  unfold AddBlock.reorganize
  simp only
  split
  next => exact h
  next disconnect connect _ =>
    split
    next => exact h
    next =>
      split
      next => exact h
      next =>
        split
        next e s₁ hs₁ =>
          rw [disconnectBlocks_eq hs₁]
          exact h.congr rfl rfl rfl rfl rfl
        next s₁ hs₁ =>
          have hrolled : Holds S W s₁ := by
            rw [disconnectBlocks_eq hs₁]
            exact h.congr rfl rfl rfl rfl rfl
          have hnew := @Holds.connectBlocks cx env S W s₁ hrolled connect
          split
          next e s₂ hs₂ =>
            rw [hs₂] at hnew
            exact hnew
          next s₂ hs₂ =>
            rw [hs₂] at hnew
            have hmoved : Holds S W (moveTip cx s₂ b work) := by
              refine ⟨hnew.cached, hnew.stored, hnew.connected, fun i k hk => ?_, hnew.orphans⟩
              exact hnew.mapped i k (shrinks_eraseAll _ _ i k hk)
            split
            next => exact hmoved
            next s₄ hpersist => exact (hmoved.persist hpersist).frame (rebuildIndexes_frame _).toFrame

theorem Holds.storeSide {s₁ : NodeState} (h : Holds S W s) (hb : S (b.hash cx.sha256) b)
    (hs : storeSide cx env s b work = some s₁) : Holds S W s₁ := by
  unfold AddBlock.storeSide at hs
  obtain ⟨s₂, hw, rfl⟩ := Option.map_eq_some_iff.mp hs
  obtain rfl := write_eq_some hw
  exact ((h.put hb).cache hb).congr rfl rfl rfl rfl rfl

theorem Holds.step {s : NodeState} {b : Block} (h : Holds S W s) (hwaits : W b)
    (hchecked : earlyChecks cx env b = .ok () → headerChecks cx s b = .ok () → S (b.hash cx.sha256) b) :
    Holds S W (addBlockStep cx env s b).2 := by
  unfold addBlockStep
  split
  next => exact h
  next hearly =>
    split
    next =>
      obtain ⟨pool, children, heq, hpool⟩ := addOrphan_eq env s (b.hash cx.sha256) b
      simp only [heq]
      refine ⟨h.cached, h.stored, h.connected, h.mapped, ?_⟩
      exact forall_insert h.orphans hwaits hpool
    next =>
      split
      next => exact h
      next hheader =>
        have hb := hchecked hearly hheader
        split
        next => exact h.connectTip hb
        next =>
          unfold connectSide
          split
          next => exact h
          next s₁ hstored =>
            have hside := h.storeSide hb hstored
            split
            next => exact hside
            next => exact hside.reorganize

theorem Holds.takeOrphan (h : Holds S W s) (parent child : Bytes32) : Holds S W (takeOrphan s parent child) where
  cached := h.cached
  stored := h.stored
  connected := h.connected
  mapped := h.mapped
  orphans k b hb := h.orphans k b (shrinks_erase _ _ k b hb)

theorem Holds.fresh (h : FreshNode cx s) (hgenesis : S cx.genesisHash cx.genesis) : Holds S W s := by
  have hempty {V : Type} {Q : Bytes32 → V → Prop} :
      ∀ k v, (∅ : Map Bytes32 V).lookup k = some v → Q k v := fun k v hv => by simp at hv
  refine ⟨?_, ?_, ?_, ?_, ?_⟩
  · exact forall_insert hempty hgenesis h.cached
  · rw [h.diskBlocks]
    exact forall_insert hempty hgenesis (Shrinks.refl _)
  · rw [h.connected]
    exact forall_insert hempty hgenesis (Shrinks.refl _)
  · intro i k hk
    rw [h.heightMap, lookup_insert_eq] at hk
    rw [h.connected, lookup_insert_eq]
    by_cases hi : i = 0
    · rw [if_pos hi] at hk
      rw [if_pos (Option.some.inj hk).symm]
      exact ⟨cx.genesis, rfl⟩
    · rw [if_neg hi] at hk
      simp at hk
  · rw [h.orphanBlocks]
    exact hempty

end Steps

section Runs

variable {s : NodeState} {b : Block} {calls : List AddBlock.Call}

variable (cx) in
/-- The block is one above its parent, and its difficulty is what the node computes for the
parent in the given state. -/
def RightBits (s : NodeState) (b : Block) : Prop :=
  ∃ parent, s.getBlock b.header.prevHash = some parent ∧
    b.header.height = parent.header.height + 1 ∧
    b.header.bits = calculateNextBitsForParentAndTimestamp cx s.getBlock b.header.prevHash
      b.header.height (some b.header.timestamp)

theorem rightBits_of_checks (hearly : earlyChecks cx env b = .ok ()) (hheader : headerChecks cx s b = .ok ())
    (hne : b.hash cx.sha256 ≠ cx.genesisHash) : RightBits cx s b := by
  obtain ⟨-, hheight, -⟩ | ⟨-, hright⟩ := headerChecks_cases hheader
  · exact absurd (earlyChecks_genesis hearly hheight) hne
  · exact hright

/-- A block that a node holds under its hash; unless it is genesis it has the property of the
blocks of the run, and a call for it has found its difficulty right. -/
def Proven (cx : Context) (W : Block → Prop) (calls : List AddBlock.Call) (k : Bytes32) (b : Block) : Prop :=
  b.hash cx.sha256 = k ∧
    (k ≠ cx.genesisHash → W b ∧ ∃ c ∈ calls, c.block = b ∧ RightBits cx c.before b)

theorem run_holds (hrun : Run cx s calls) (hwork : ∀ c ∈ calls, W c.block) : Holds (Proven cx W calls) W s := by
  have hstep : ∀ env s b, Holds (Proven cx W calls) W s →
      (⟨env, s, b, (addBlockStep cx env s b).1⟩ : AddBlock.Call) ∈ calls →
      Holds (Proven cx W calls) W (addBlockStep cx env s b).2 := by
    intro env s b h hcall
    refine h.step (hwork _ hcall) fun hearly hheader => ⟨rfl, fun hne => ?_⟩
    exact ⟨hwork _ hcall, _, hcall, rfl, rightBits_of_checks hearly hheader hne⟩
  refine (run_keeps ?_ hstep ?_ ?_ hrun fun _ hc => hc).1
  · intro env s h
    exact Holds.fresh (freshNode h) ⟨rfl, fun hne => absurd rfl hne⟩
  · intro s parent child b h _
    exact h.takeOrphan parent child
  · intro env s tipHeight h
    exact h.frame (maybePrune_frame s tipHeight)

theorem run_add (hrun : Run cx s calls) (hwork : ∀ c ∈ calls, W c.block) (hb : W b) {fuel : ℕ} {o : Outcome}
    (h : addBlockFuel cx env fuel s b = some o) :
    Run cx o.state (calls ++ o.calls) ∧ ∀ c ∈ calls ++ o.calls, W c.block := by
  have hkeeps : KeepsFor W (Holds (fun _ _ => True) W) (fun _ _ => True) (fun _ => True)
      (fun c => W c.block ∧ Holds (fun _ _ => True) W c.before ∧ Stepped cx c)
      (addBlockFuel cx env fuel) :=
    addBlockFuel_keepsFor (fun _ => trivial) (fun _ _ _ _ _ => trivial)
      (fun s b hs hw _ => ⟨hs.step hw fun _ _ => trivial, trivial⟩)
      (fun s parent child b hs hb => ⟨hs.orphans child b hb, hs.takeOrphan parent child, trivial⟩)
      (fun s tipHeight hs => ⟨hs.frame (maybePrune_frame s tipHeight), trivial⟩) fuel
  have hholds := run_holds hrun hwork
  have hloose : Holds (fun _ _ => True) W s :=
    ⟨fun _ _ _ => trivial, fun _ _ _ => trivial, fun _ _ _ => trivial, hholds.mapped, hholds.orphans⟩
  obtain ⟨-, -, hcalls⟩ := hkeeps s b o h hloose hb fun _ _ => trivial
  refine ⟨Run.add hrun h, fun c hc => ?_⟩
  rcases List.mem_append.mp hc with hc | hc
  · exact hwork c hc
  · exact (hcalls c hc).1.1

end Runs

section Handling

variable {rates : FeeRates} {sha256 : Sha256} {script : List UInt8} {sur : Surroundings} {a a' : App}

theorem searchNonce_verifies (rounds first : ℕ) (header : BlockHeader)
    (h : ∃ k < rounds, verifyPow sha256 { header with nonce := UInt64.ofNat (first + k) } = true) :
    verifyPow sha256 (searchNonce sha256 rounds first header) = true := by
  induction rounds generalizing first header with
  | zero =>
    obtain ⟨k, hk, -⟩ := h
    omega
  | succ rounds ih =>
    rw [searchNonce]
    by_cases hfirst : verifyPow sha256 { header with nonce := UInt64.ofNat first } = true
    · rw [if_pos hfirst]
      exact hfirst
    · rw [if_neg hfirst]
      obtain ⟨k, hk, hpow⟩ := h
      cases k with
      | zero => exact absurd hpow hfirst
      | succ k =>
        refine ih (first + 1) _ ⟨k, by omega, ?_⟩
        rw [show first + 1 + k = first + (k + 1) by omega]
        exact hpow

/-- One of the nonces `0..u64::MAX` gives the header its work. -/
def Minable (sha256 : Sha256) (header : BlockHeader) : Prop :=
  ∃ nonce < 2 ^ 64 - 1, verifyPow sha256 { header with nonce := UInt64.ofNat nonce } = true

theorem mine_verifies {header : BlockHeader} (h : Minable sha256 header) :
    verifyPow sha256 (mine sha256 header) = true := by
  obtain ⟨nonce, hnonce, hpow⟩ := h
  exact searchNonce_verifies _ 0 header ⟨nonce, hnonce, by rw [Nat.zero_add]; exact hpow⟩

theorem searchNonce_nonce (rounds first : ℕ) (header : BlockHeader) (nonce : UInt64) :
    { searchNonce sha256 rounds first header with nonce := nonce } = { header with nonce := nonce } := by
  induction rounds generalizing first header with
  | zero => rfl
  | succ rounds ih =>
    rw [searchNonce]
    by_cases hfirst : verifyPow sha256 { header with nonce := UInt64.ofNat first } = true
    · rw [if_pos hfirst]
    · rw [if_neg hfirst]
      exact ih (first + 1) _

variable (cx rates) in
/-- Every header that a call of `generatetoaddress` works on can be mined. -/
def FindsNonces (sur : Surroundings) (script : List UInt8) : ℕ → App → Prop
  | 0, _ => True
  | n + 1, a =>
      Minable cx.sha256
        (generatedBlock cx rates (sur.calls (2 * n)) a.node a.mempool script).header ∧
      ∀ a' exit, acceptBlock cx sur (2 * n + 1) a
        (generatedBlock cx rates (sur.calls (2 * n)) a.node a.mempool script) = some (a', .ok exit) →
        FindsNonces sur script n a'

variable (cx rates) in
/-- The searches of a handler call succeed. -/
def MinesBlocks (st : Step) : Prop :=
  ∀ nblocks script, st.event = .generatetoaddress nblocks script →
    FindsNonces cx rates st.sur script (min nblocks 500) st.before

theorem generatedBlock_verifies {call : Mempools.Call} {s : NodeState} {m : Mempool}
    (h : Minable cx.sha256 (generatedBlock cx rates call s m script).header) :
    verifyPow cx.sha256 (generatedBlock cx rates call s m script).header = true := by
  unfold generatedBlock at h ⊢
  apply mine_verifies
  obtain ⟨nonce, hnonce, hpow⟩ := h
  simp only [mine, searchNonce_nonce] at hpow
  exact ⟨nonce, hnonce, hpow⟩

/-- The node of a run is the node of a run of `add_block` in which every block has its work. -/
def Worked (cx : Context) (s : NodeState) : Prop :=
  ∃ calls, Run cx s calls ∧ ∀ c ∈ calls, verifyPow cx.sha256 c.block.header = true

theorem Worked.accept {i : ℕ} {b : Block} {result : Except AddBlockError Exit} (h : Worked cx a.node)
    (hb : verifyPow cx.sha256 b.header = true) (ha : acceptBlock cx sur i a b = some (a', result)) :
    Worked cx a'.node := by
  obtain ⟨calls, hrun, hwork⟩ := h
  obtain ⟨o, ho, heq⟩ := Option.map_eq_some_iff.mp ha
  have hnode : a'.node = o.state := by
    cases hresult : o.result with
    | error e =>
      rw [hresult] at heq
      cases heq
      rfl
    | ok exit =>
      rw [hresult] at heq
      cases heq
      rfl
  rw [hnode]
  have hadd := run_add (W := fun b => verifyPow cx.sha256 b.header = true) hrun hwork hb ho
  exact ⟨_, hadd⟩

theorem Worked.generate {n : ℕ} (h : Worked cx a.node) (hmined : FindsNonces cx rates sur script n a)
    (ha : generateBlocks cx rates sur script n a = some a') : Worked cx a'.node := by
  induction n generalizing a with
  | zero =>
    cases ha
    exact h
  | succ n ih =>
    unfold generateBlocks at ha
    obtain ⟨hminable, hrest⟩ := hmined
    have hpow := generatedBlock_verifies hminable
    split at ha
    next => cases ha
    next a₁ e haccept =>
      cases ha
      exact h.accept hpow haccept
    next a₁ exit haccept => exact ih (h.accept hpow haccept) (hrest a₁ exit haccept) ha

theorem Worked.handle {st : Step} (h : Worked cx st.before.node) (hmined : MinesBlocks cx rates st)
    (hst : handle cx rates st.sur st.before st.event = some st.handled) : Worked cx st.handled.app.node := by
  obtain ⟨a, sur, e, r⟩ := st
  cases e with
  | blockMsg b =>
    simp only [Handlers.handle, blockMsg] at hst
    split at hst
    next =>
      cases hst
      exact h
    next =>
      split at hst
      next =>
        cases hst
        exact h
      next hpow =>
        obtain ⟨⟨a', result⟩, haccept, rfl⟩ := Option.map_eq_some_iff.mp hst
        have hnode := h.accept (by simpa using hpow) haccept
        cases result with
        | error e => exact hnode
        | ok exit => exact hnode
  | submitblock b =>
    simp only [Handlers.handle, submitblock] at hst
    split at hst
    next =>
      cases hst
      exact h
    next hpow =>
      obtain ⟨⟨a', result⟩, haccept, rfl⟩ := Option.map_eq_some_iff.mp hst
      exact h.accept (by simpa using hpow) haccept
  | generatetoaddress nblocks script =>
    simp only [Handlers.handle, generatetoaddress] at hst
    split at hst
    next =>
      cases hst
      exact h
    next =>
      obtain ⟨a', hgenerate, rfl⟩ := Option.map_eq_some_iff.mp hst
      exact h.generate (hmined nblocks script rfl) hgenerate
  | txMsg | sendrawtransaction | submitTx | sendtoaddress | bumpfee | sync =>
    rw [handle_node rfl hst]
    exact h

theorem nodeRun_worked {steps : List Step} (hrun : NodeRun cx rates a steps)
    (hmined : ∀ st ∈ steps, MinesBlocks cx rates st) : Worked cx a.node := by
  induction hrun with
  | fresh h maxSize => exact ⟨[], Run.fresh h, by simp⟩
  | @step a steps sur e r hrun h ih =>
    have hbefore := ih fun st hst => hmined st (List.mem_append_left _ hst)
    exact Worked.handle hbefore (hmined ⟨a, sur, e, r⟩ (by simp)) h

/-- Along every run, a block that is or was on the best chain and is not genesis has its proof of
work, and the call that brought it found its difficulty to be that computed for its parent. -/
theorem best_chain_has_work {a : App} {steps : List Step} (hrun : NodeRun cx rates a steps)
    (hmined : ∀ st ∈ steps, MinesBlocks cx rates st) : ∃ calls, Run cx a.node calls ∧
      (∀ h k, a.node.heightMap.lookup h = some k → ∃ b, a.node.connected.lookup k = some b) ∧
      ∀ k b, a.node.connected.lookup k = some b ∨ a.node.getBlock k = some b →
        b.hash cx.sha256 = k ∧ (k ≠ cx.genesisHash →
          verifyPow cx.sha256 b.header = true ∧
            ∃ c ∈ calls, c.block = b ∧ RightBits cx c.before b) := by
  obtain ⟨calls, hcalls, hwork⟩ := nodeRun_worked hrun hmined
  have hholds := run_holds (W := fun b => verifyPow cx.sha256 b.header = true) hcalls hwork
  refine ⟨calls, hcalls, hholds.mapped, fun k b hb => ?_⟩
  rcases hb with hb | hb
  · exact hholds.connected k b hb
  · exact hholds.getBlock hb

/-- The surroundings of a call made a day after the regtest genesis block. -/
def quietDay : Surroundings := ⟨today, fun _ => PoolEvictions.callAt 1706900000, fun _ => none, 102⟩

/-- A node that was just opened. -/
def opened (s : NodeState) : App := ⟨s, Mempool.new 100000, OrphanTxs.empty, .headerSync⟩

theorem generated_block_has_work : ∃ a steps, NodeRun regtest PoolEvictions.exactRates a steps ∧ a.node.height = 1 ∧
      (∀ st ∈ steps, MinesBlocks regtest PoolEvictions.exactRates st) ∧
      ∃ calls, Run regtest a.node calls ∧
        (∀ h k, a.node.heightMap.lookup h = some k → ∃ b, a.node.connected.lookup k = some b) ∧
        ∀ k b, a.node.connected.lookup k = some b ∨ a.node.getBlock k = some b →
          b.hash regtest.sha256 = k ∧ (k ≠ regtest.genesisHash →
            verifyPow regtest.sha256 b.header = true ∧
              ∃ c ∈ calls, c.block = b ∧ RightBits regtest c.before b) := by
  have hmined : ((nodeAfter regtest today 1 []).any fun s =>
      verifyPow regtest.sha256 { (generatedBlock regtest PoolEvictions.exactRates (quietDay.calls 0) s
        (Mempool.new 100000) [0x51]).header with nonce := 0 } &&
      (generatetoaddress regtest PoolEvictions.exactRates quietDay (opened s) 1 [0x51]).any fun r =>
        decide (r.app.node.height = 1)) = true := by
    rw [← runRegtest_eq]
    decide +kernel
  obtain ⟨s, hs, hboth⟩ := (Option.any_eq_true _ _).mp hmined
  obtain ⟨hpow, hheight⟩ := (Bool.and_eq_true _ _).mp hboth
  obtain ⟨r, hr, hone⟩ := (Option.any_eq_true _ _).mp hheight
  have hrun : NodeRun regtest PoolEvictions.exactRates r.app
      ([] ++ [⟨opened s, quietDay, .generatetoaddress 1 [0x51], r⟩]) :=
    NodeRun.step (NodeRun.fresh (nodeAfter_nil hs) 100000) hr
  have hsteps : ∀ st ∈ [] ++ [(⟨opened s, quietDay, .generatetoaddress 1 [0x51], r⟩ : Step)],
      MinesBlocks regtest PoolEvictions.exactRates st := by
    intro st hst nblocks script hevent
    obtain rfl : st = _ := List.mem_singleton.mp hst
    cases hevent
    exact ⟨⟨0, by omega, hpow⟩, fun _ _ _ => trivial⟩
  exact ⟨r.app, _, hrun, of_decide_eq_true hone, hsteps, best_chain_has_work hrun hsteps⟩

end Handling

end KuberCoin.ProvenWork
