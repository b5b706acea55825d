import KuberCoin.Deliveries

/-!
The blocks that one call of `add_block` works on, and the blocks it brings to the best chain.
The nested calls are for blocks that wait for the block of the call, or for one that waits for it.
What comes to the best chain is the block itself, blocks that waited for it, and blocks that were stored
below it.
-/
namespace KuberCoin.OrphanWalks

open Bytes Maps Blocks UtxoSets Difficulty NodeStates NodeStates.NodeState AddBlock Frames StepCases Runs
  Branches ChainInvariants Deliveries

section Relations

variable (cx : Context)

/-- The block was connected at a height of the best chain. -/
def OnChain (s : NodeState) (x : Block) : Prop :=
  ∃ i k, s.heightMap.lookup i = some k ∧ s.connected.lookup k = some x

/-- A block waits for `b`, or for a block that does. -/
inductive Waits (s : NodeState) (b : Block) : Block → Prop where
  | child {k : Bytes32} {c : Block} (hc : s.orphanBlocks.lookup k = some c)
      (h : c.header.prevHash = b.hash cx.sha256) : Waits s b c
  | further {k : Bytes32} {c d : Block} (hd : Waits s b d) (hc : s.orphanBlocks.lookup k = some c)
      (h : c.header.prevHash = d.hash cx.sha256) : Waits s b c

/-- A block is stored below `b`. -/
inductive Below (s : NodeState) (b : Block) : Block → Prop where
  | parent {x : Block} (h : s.getBlock b.header.prevHash = some x) : Below s b x
  | further {x y : Block} (hy : Below s b y) (h : s.getBlock y.header.prevHash = some x) : Below s b x

/-- The block is `b` or waits for it. -/
def Follows (s : NodeState) (b c : Block) : Prop := c = b ∨ Waits cx s b c

/-- The block has a parent, and is on the tip or has more work than the chain. -/
def Overtakes (s : NodeState) (b : Block) : Prop :=
  parentKnown s b.header.prevHash = true ∧
    (b.header.prevHash = s.tip ∨ compareWork (cumulativeWork s b) s.chainwork = .gt)

variable (K : Block → Prop)

/-- The orphan pool holds known blocks under their hashes, and lists hashes under the parents of their
blocks. -/
structure OrphanLinks (s : NodeState) : Prop where
  blocks : ∀ k b, s.orphanBlocks.lookup k = some b → b.hash cx.sha256 = k ∧ K b
  parent : ∀ p b, K b → b.hash cx.sha256 ∈ (s.orphansByParent.lookup p).getD [] → b.header.prevHash = p

end Relations

variable {cx : Context} {K : Block → Prop} {env : Env} {s : NodeState} {b : Block}

section Links

theorem OrphanLinks.congr {s' : NodeState} (h : OrphanLinks cx K s) (hblocks : s'.orphanBlocks = s.orphanBlocks)
    (hparents : s'.orphansByParent = s.orphansByParent) : OrphanLinks cx K s' :=
  ⟨hblocks ▸ h.blocks, hparents ▸ h.parent⟩

theorem OrphanLinks.drop (h : OrphanLinks cx K s) (parent child : Bytes32) :
    OrphanLinks cx K (takeOrphan s parent child) := by
  refine ⟨?_, ?_⟩
  · intro k x hx
    exact h.blocks k x (shrinks_erase _ _ k x hx)
  · intro p x hK hk
    exact h.parent p x hK (mem_of_mem_dropChild hk)

theorem OrphanLinks.evict (h : OrphanLinks cx K s) (fuel : ℕ) : OrphanLinks cx K (evictOrphans env fuel s) := by
  induction fuel generalizing s with
  | zero => exact h
  | succ fuel ih =>
    unfold evictOrphans
    simp only
    split
    next =>
      split
      next => exact h
      next x hx => exact ih (h.drop x.header.prevHash (env.victim s.orphanBlocks))
    next => exact h

theorem OrphanLinks.add (hcf : CollisionFree cx K) (h : OrphanLinks cx K s) (hb : K b) :
    OrphanLinks cx K (addOrphan env s (b.hash cx.sha256) b) := by
  have hevicted : OrphanLinks cx K (evictOrphans env s.orphanBlocks.keys.card s) := h.evict _
  unfold addOrphan
  refine ⟨?_, ?_⟩
  · intro k x hx
    simp only [lookup_insert_eq] at hx
    split at hx
    next heq =>
      rw [← Option.some.inj hx]
      exact ⟨heq.symm, hb⟩
    next => exact hevicted.blocks k x hx
  · intro p x hK hk
    simp only [lookup_insert_eq] at hk
    split at hk
    next heq =>
      rw [Option.getD_some] at hk
      split at hk
      next => exact heq ▸ hevicted.parent _ x hK hk
      next =>
        rcases List.mem_cons.mp hk with hhash | hk
        · rw [heq, hcf.header_eq x b hK hb hhash]
        · exact heq ▸ hevicted.parent _ x hK hk
    next => exact hevicted.parent p x hK hk

end Links

section Steps

theorem reorganized_frame {disconnect connect : List Bytes32} {s₁ s₂ s₃ s' : NodeState}
    (h : Reorganized cx env s₁ b disconnect connect s₂ s₃ s') : ConnectFrame s₁ s₃ := by
  have hconnect := @connectBlocks_frame cx env s₂ connect
  rw [h.reconnected, disconnectBlocks_eq h.disconnected] at hconnect
  exact (ConnectFrame.utxoSet s₁ _).trans hconnect

/-- A clean call leaves the orphan pool alone, or its block joins the pool. -/
theorem orphans_of_step (hclean : Clean cx ⟨env, s, b, (addBlockStep cx env s b).1⟩) :
    ((addBlockStep cx env s b).2.orphanBlocks = s.orphanBlocks ∧
        (addBlockStep cx env s b).2.orphansByParent = s.orphansByParent) ∨
      (addBlockStep cx env s b).2 = addOrphan env s (b.hash cx.sha256) b := by
  have hcases := @addBlockStep_cases cx env s b
  unfold Clean at hclean
  simp only at hclean
  generalize (addBlockStep cx env s b).1 = r at hcases hclean
  generalize (addBlockStep cx env s b).2 = s' at hcases
  cases hcases with
  | rejected => exact .inl ⟨rfl, rfl⟩
  | orphaned => exact .inr rfl
  | extended _ _ hext => exact .inl ⟨hext.orphanBlocks, hext.orphansByParent⟩
  | stored _ _ hside => exact .inl ⟨hside.orphanBlocks, hside.orphansByParent⟩
  | reorganized _ _ hside _ hreorg =>
    have hframe := reorganized_frame hreorg
    exact .inl ⟨by rw [hreorg.orphanBlocks, hframe.orphanBlocks, hside.orphanBlocks],
      by rw [hreorg.orphansByParent, hframe.orphansByParent, hside.orphansByParent]⟩
  | broken e s' hnot =>
    rcases hclean with ⟨x, hx⟩ | hthrough
    · cases hx
    · exact absurd hthrough hnot

end Steps

section Calls

variable {s₀ : NodeState} {b₀ d : Block} {add : NodeState → Block → Option Outcome} {s' : NodeState}
  {calls : List Call}

variable (cx K) in
/-- A state within a call for `b₀` from `s₀`: no block waits that did not wait before. -/
structure Within (s₀ : NodeState) (b₀ : Block) (s : NodeState) : Prop where
  links : OrphanLinks cx K s
  old : ∀ k c, s.orphanBlocks.lookup k = some c → c = b₀ ∨ ∃ k', s₀.orphanBlocks.lookup k' = some c

theorem follows_of_waiting {k : Bytes32} {c : Block} (h : Within cx K s₀ b₀ s) (hd : Follows cx s₀ b₀ d)
    (hc : s.orphanBlocks.lookup k = some c) (hprev : c.header.prevHash = d.hash cx.sha256) : Follows cx s₀ b₀ c := by
  rcases h.old k c hc with rfl | ⟨k', hk'⟩
  · exact .inl rfl
  · rcases hd with rfl | hwaits
    · exact .inr (.child hk' hprev)
    · exact .inr (.further hwaits hk' hprev)

theorem Within.step (hcf : CollisionFree cx K) (h : Within cx K s₀ b₀ s) {c : Block} (hc : Follows cx s₀ b₀ c)
    (hK : K c) (hclean : Clean cx ⟨env, s, c, (addBlockStep cx env s c).1⟩) :
    Within cx K s₀ b₀ (addBlockStep cx env s c).2 := by
  rcases orphans_of_step hclean with ⟨hblocks, hparents⟩ | heq
  · exact ⟨h.links.congr hblocks hparents, hblocks ▸ h.old⟩
  · rw [heq]
    refine ⟨h.links.add hcf hK, ?_⟩
    intro k x hx
    obtain ⟨pool, children, hadd, hpool⟩ := addOrphan_eq env s (c.hash cx.sha256) c
    rw [hadd] at hx
    have hx' := hpool k x hx
    rw [lookup_insert_eq] at hx'
    split at hx'
    next =>
      rw [← Option.some.inj hx']
      rcases hc with rfl | hwaits
      · exact .inl rfl
      · cases hwaits with
        | child hk _ => exact .inr ⟨_, hk⟩
        | further _ hk _ => exact .inr ⟨_, hk⟩
    next => exact h.old k x hx'

theorem Within.take (h : Within cx K s₀ b₀ s) (parent child : Bytes32) :
    Within cx K s₀ b₀ (takeOrphan s parent child) :=
  ⟨h.links.drop parent child, fun k c hc => h.old k c (shrinks_erase _ _ k c hc)⟩

variable (cx K) in
/-- Adding blocks with `add` from within a call for `b₀` works on blocks that follow `b₀`. -/
def Walks (s₀ : NodeState) (b₀ : Block) (add : NodeState → Block → Option Outcome) : Prop :=
  ∀ s c o, add s c = some o → Within cx K s₀ b₀ s → Follows cx s₀ b₀ c → K c → (∀ x ∈ o.calls, Clean cx x) →
    Within cx K s₀ b₀ o.state ∧ ∀ x ∈ o.calls, Follows cx s₀ b₀ x.block ∧ K x.block

theorem reconnectChildren_walks (hadd : Walks cx K s₀ b₀ add) (hd : Follows cx s₀ b₀ d)
    {children accepted : List Bytes32}
    (hlisted : ∀ k ∈ children, ∀ x, K x → x.hash cx.sha256 = k → x.header.prevHash = d.hash cx.sha256)
    (h : reconnectChildren add (d.hash cx.sha256) s children = some (s', accepted, calls)) (hs : Within cx K s₀ b₀ s)
    (hclean : ∀ x ∈ calls, Clean cx x) : Within cx K s₀ b₀ s' ∧ (∀ x ∈ calls, Follows cx s₀ b₀ x.block ∧ K x.block) ∧
      ∀ k ∈ accepted, ∃ x, Follows cx s₀ b₀ x ∧ x.hash cx.sha256 = k := by
  induction children generalizing s accepted calls with
  | nil =>
    simp only [reconnectChildren, Option.some.injEq, Prod.mk.injEq] at h
    obtain ⟨rfl, rfl, rfl⟩ := h
    exact ⟨hs, by simp, by simp⟩
  | cons child rest ih =>
    have hlisted' := fun k hk => hlisted k (List.mem_cons_of_mem child hk)
    unfold reconnectChildren at h
    split at h
    next => exact ih hlisted' h hs hclean
    next c hc =>
      obtain ⟨hhash, hK⟩ := hs.links.blocks child c hc
      have hprev := hlisted child List.mem_cons_self c hK hhash
      have hfollows := follows_of_waiting hs hd hc hprev
      split at h
      next => simp at h
      next o ho =>
        split at h
        next => simp at h
        next s₁ accepted₁ calls₁ hrest =>
          simp only [Option.some.injEq, Prod.mk.injEq] at h
          obtain ⟨rfl, rfl, rfl⟩ := h
          obtain ⟨hs₁, hcalls₁⟩ := hadd _ c o ho (hs.take _ child) hfollows hK
            fun x hx => hclean x (List.mem_append_left _ hx)
          obtain ⟨hs₂, hcalls₂, haccepted⟩ := ih hlisted' hrest hs₁
            fun x hx => hclean x (List.mem_append_right _ hx)
          refine ⟨hs₂, ?_, ?_⟩
          · intro x hx
            rcases List.mem_append.mp hx with hx | hx
            · exact hcalls₁ x hx
            · exact hcalls₂ x hx
          · intro k hk
            split at hk
            next =>
              rcases List.mem_cons.mp hk with rfl | hk
              · exact ⟨c, hfollows, hhash⟩
              · exact haccepted k hk
            next => exact haccepted k hk

theorem processOrphans_walks (hadd : Walks cx K s₀ b₀ add) {fuel : ℕ} {queue : List Bytes32}
    (hqueue : ∀ k ∈ queue, ∃ x, Follows cx s₀ b₀ x ∧ x.hash cx.sha256 = k)
    (h : processOrphans env add fuel s queue = some (s', calls)) (hs : Within cx K s₀ b₀ s)
    (hclean : ∀ x ∈ calls, Clean cx x) : Within cx K s₀ b₀ s' ∧ ∀ x ∈ calls, Follows cx s₀ b₀ x.block ∧ K x.block := by
  induction fuel generalizing s queue calls with
  | zero =>
    cases queue with
    | nil =>
      simp only [processOrphans, Option.some.injEq, Prod.mk.injEq] at h
      obtain ⟨rfl, rfl⟩ := h
      exact ⟨hs, by simp⟩
    | cons parent queue => simp [processOrphans] at h
  | succ fuel ih =>
    cases queue with
    | nil =>
      simp only [processOrphans, Option.some.injEq, Prod.mk.injEq] at h
      obtain ⟨rfl, rfl⟩ := h
      exact ⟨hs, by simp⟩
    | cons parent queue =>
      obtain ⟨d, hd, rfl⟩ := hqueue parent List.mem_cons_self
      unfold processOrphans at h
      simp only at h
      split at h
      next => simp at h
      next s₁ accepted calls₁ hreconnect =>
        split at h
        next => simp at h
        next s₂ calls₂ hrest =>
          simp only [Option.some.injEq, Prod.mk.injEq] at h
          obtain ⟨rfl, rfl⟩ := h
          have hlisted : ∀ k ∈ env.childOrder ((s.orphansByParent.lookup (d.hash cx.sha256)).getD []),
              ∀ x, K x → x.hash cx.sha256 = k → x.header.prevHash = d.hash cx.sha256 := by
            intro k hk x hK hx
            exact hs.links.parent _ x hK (hx ▸ (env.childOrder_perm _).mem_iff.mp hk)
          obtain ⟨hs₁, hcalls₁, haccepted⟩ := reconnectChildren_walks hadd hd hlisted hreconnect hs
            fun x hx => hclean x (List.mem_append_left _ hx)
          have hqueue' : ∀ k ∈ accepted.reverse ++ queue, ∃ x, Follows cx s₀ b₀ x ∧ x.hash cx.sha256 = k := by
            intro k hk
            rcases List.mem_append.mp hk with hk | hk
            · exact haccepted k (List.mem_reverse.mp hk)
            · exact hqueue k (List.mem_cons_of_mem _ hk)
          obtain ⟨hs₂, hcalls₂⟩ := ih hqueue' hrest hs₁ fun x hx => hclean x (List.mem_append_right _ hx)
          refine ⟨hs₂, ?_⟩
          intro x hx
          rcases List.mem_append.mp hx with hx | hx
          · exact hcalls₁ x hx
          · exact hcalls₂ x hx

/-- All the blocks of a call and its nested calls follow its block. -/
theorem addBlockFuel_walks (hcf : CollisionFree cx K) (fuel : ℕ) : Walks cx K s₀ b₀ (addBlockFuel cx env fuel) := by
  induction fuel with
  | zero =>
    intro s c o h
    simp [addBlockFuel] at h
  | succ fuel ih =>
    intro s c o h hs hc hK hclean
    unfold addBlockFuel at h
    split at h
    next s₁ hs₁ =>
      split at h
      next => simp at h
      next s₂ calls horphans =>
        obtain rfl := Option.some.inj h
        have hfirst : Within cx K s₀ b₀ s₁ := by
          have hstep : Within cx K s₀ b₀ (addBlockStep cx env s c).2 := hs.step hcf hc hK (by
            rw [hs₁]
            exact hclean _ List.mem_cons_self)
          rwa [hs₁] at hstep
        obtain ⟨hs₂, hcalls⟩ := processOrphans_walks ih
          (fun k hk => ⟨c, hc, (List.mem_singleton.mp hk).symm⟩) horphans hfirst
          fun x hx => hclean x (List.mem_cons_of_mem _ hx)
        have hprune := @maybePrune_frame cx env s₂ c.header.height
        refine ⟨⟨hs₂.links.congr hprune.orphanBlocks hprune.orphansByParent, ?_⟩, ?_⟩
        · intro k x hx
          exact hs₂.old k x (hprune.orphanBlocks ▸ hx)
        · intro x hx
          rcases List.mem_cons.mp hx with rfl | hx
          · exact ⟨hc, hK⟩
          · exact hcalls x hx
    next r s₁ _ hs₁ =>
      obtain rfl := Option.some.inj h
      have hfirst : Within cx K s₀ b₀ s₁ := by
        have hstep : Within cx K s₀ b₀ (addBlockStep cx env s c).2 := hs.step hcf hc hK (by
          rw [hs₁]
          exact hclean _ List.mem_cons_self)
        rwa [hs₁] at hstep
      refine ⟨hfirst, ?_⟩
      intro x hx
      rw [List.mem_singleton.mp hx]
      exact ⟨hc, hK⟩

theorem Within.start (h : OrphanLinks cx K s₀) : Within cx K s₀ b₀ s₀ := ⟨h, fun k _ hc => .inr ⟨k, hc⟩⟩

end Calls

section Growth

variable {bs : List Block} {c x : Block} {s' : NodeState} {k : Bytes32} {get : Bytes32 → Option Block}

variable (cx K) in
/-- No two known blocks have one hash. -/
def Distinct : Prop := ∀ x y, K x → K y → x.hash cx.sha256 = y.hash cx.sha256 → x = y

variable {s₀ : NodeState} {b₀ : Block}

theorem onChain_iff (h : ChainInv cx K s bs) : OnChain s x ↔ x ∈ bs := by
  constructor
  · rintro ⟨i, k, hk, hx⟩
    rw [h.heightMap, hashes, ← List.map_reverse, List.getElem?_map] at hk
    obtain ⟨y, hy, rfl⟩ := Option.map_eq_some_iff.mp hk
    have hmem : y ∈ bs := List.mem_reverse.mp (List.mem_of_getElem? hy)
    rw [h.connected y hmem] at hx
    rwa [← Option.some.inj hx]
  · intro hmem
    obtain ⟨i, hi⟩ := List.getElem?_of_mem (List.mem_reverse.mpr hmem)
    refine ⟨i, x.hash cx.sha256, ?_, h.connected x hmem⟩
    rw [h.heightMap, hashes, ← List.map_reverse, List.getElem?_map, hi]
    rfl

theorem OnChain.frame (hf : Frame s s') : OnChain s' x ↔ OnChain s x := by
  unfold OnChain
  rw [hf.heightMap, hf.connected]

variable (cx) in
/-- A block that the call for `b₀` may bring to the chain. -/
def Near (s₀ : NodeState) (b₀ x : Block) : Prop := Follows cx s₀ b₀ x ∨ Below s₀ b₀ x

variable (cx K) in
/-- A state within a call: what is stored was stored before, or is near the block. -/
structure Around (s₀ : NodeState) (b₀ : Block) (s : NodeState) : Prop where
  node : NodeInv cx K s
  stored : ∀ k x, s.getBlock k = some x → s₀.getBlock k = some x ∨ Near cx s₀ b₀ x

theorem Follows.known (h₀ : OrphanLinks cx K s₀) (hb₀ : K b₀) (hc : Follows cx s₀ b₀ c) : K c := by
  rcases hc with rfl | hwaits
  · exact hb₀
  · cases hwaits with
    | child hk _ => exact (h₀.blocks _ _ hk).2
    | further _ hk _ => exact (h₀.blocks _ _ hk).2

theorem Around.parent (hdistinct : Distinct cx K) (h₀ : OrphanLinks cx K s₀) (hb₀ : K b₀) (h : Around cx K s₀ b₀ s)
    {x y : Block} (hy : Near cx s₀ b₀ y) (hx : s.getBlock y.header.prevHash = some x) : Near cx s₀ b₀ x := by
  obtain ⟨hhash, hK, -⟩ := h.node.store.getBlock _ _ hx
  rcases h.stored _ _ hx with hold | hnear
  · rcases hy with (rfl | hwaits) | hbelow
    · exact .inr (.parent hold)
    · cases hwaits with
      | child _ hprev =>
        exact .inl (.inl (hdistinct x b₀ hK hb₀ (hhash.trans hprev)))
      | @further _ _ d hd _ hprev =>
        have hd' : Follows cx s₀ b₀ d := .inr hd
        obtain rfl := hdistinct x d hK (hd'.known h₀ hb₀) (hhash.trans hprev)
        exact .inl hd'
    · exact .inr (.further hbelow hold)
  · exact hnear

theorem getBlock_of_disk (hdistinct : Distinct cx K) (h : StoreInv cx K s)
    (hx : s.store.disk.blocks.lookup k = some x) : s.getBlock k = some x := by
  unfold getBlock
  cases hy : s.blocks.lookup k with
  | none => exact hx
  | some y =>
    obtain ⟨hhash, hK, -⟩ := h.cached k y hy
    obtain ⟨hhash', hK', -⟩ := h.stored k x hx
    rw [hdistinct y x hK hK' (hhash.trans hhash'.symm)]

theorem getBlock_of_stored (hdistinct : Distinct cx K) (h : StoreInv cx K s) {hash : Bytes32}
    (hcached : Shrinks (s.blocks.insert hash c) s'.blocks)
    (hstored : Shrinks (s.store.disk.blocks.insert hash c) s'.store.disk.blocks) (hx : s'.getBlock k = some x) :
    x = c ∨ s.getBlock k = some x := by
  unfold getBlock at hx
  split at hx
  next y hy =>
    have hcache := hcached k y hy
    rw [Option.some.inj hx, lookup_insert_eq] at hcache
    split at hcache
    next => exact .inl (Option.some.inj hcache).symm
    next => exact .inr (by unfold getBlock; rw [hcache])
  next =>
    have hdisk := hstored k x hx
    rw [lookup_insert_eq] at hdisk
    split at hdisk
    next => exact .inl (Option.some.inj hdisk).symm
    next => exact .inr (getBlock_of_disk hdistinct h hdisk)

theorem traced_of_fork {fuel : ℕ} {oldTip newTip : Bytes32} {disconnect connect : List Bytes32}
    (h : findForkBlocks get fuel oldTip newTip = .ok (disconnect, connect)) :
    ∃ fork, Traced get fork newTip connect.reverse := by
  unfold findForkBlocks at h
  split at h
  next => simp at h
  next trace fork hnew =>
    split at h
    next => simp at h
    next old hold =>
      simp only [Except.ok.injEq, Prod.mk.injEq] at h
      obtain ⟨-, rfl⟩ := h
      rw [List.reverse_reverse]
      exact ⟨fork, (traceNew_ok hnew).2⟩

/-- What is found on a traced way has what passes from a block to its parent. -/
theorem traced_all {fork cursor : Bytes32} {trace : List Bytes32} {N : Block → Prop} (h : Traced get fork cursor trace)
    (hfirst : ∀ y, get cursor = some y → N y) (hnext : ∀ x y, N y → get y.header.prevHash = some x → N x) :
    ∀ k ∈ trace, ∃ y, get k = some y ∧ N y := by
  induction h with
  | done => simp
  | @step cursor y rest hget _ ih =>
    intro k hk
    have hy := hfirst y hget
    rcases List.mem_cons.mp hk with rfl | hk
    · exact ⟨y, hget, hy⟩
    · exact ih (fun x hx => hnext x y hy hx) k hk

theorem parent_mem (hcf : CollisionFree cx K) (hdistinct : Distinct cx K) (h : ChainInv cx K s bs) {d : Block}
    (hc : c ∈ bs) (hd : K d) (hprev : c.header.prevHash = d.hash cx.sha256) : d ∈ bs := by
  obtain ⟨pre, rest, rfl⟩ := List.append_of_mem hc
  obtain ⟨u, hbranch⟩ := h.branch.suffix
  cases rest with
  | nil =>
    have hgenesis : c = cx.genesis := @ValidBranch.last cx [] c u hbranch
    rw [hgenesis] at hprev
    exact absurd (hprev.symm.trans rfl) (hcf.ne_zero d hd)
  | cons p rest =>
    obtain ⟨-, -, -, -, -, hp, -⟩ := hbranch.tail
    have hmem : p ∈ pre ++ c :: p :: rest := by simp
    obtain rfl := hdistinct p d (h.known p hmem) hd (hp.symm.trans hprev)
    exact hmem

theorem base_mem (hcf : CollisionFree cx K) (hdistinct : Distinct cx K) (h₀ : OrphanLinks cx K s₀) (hb₀ : K b₀)
    (h : ChainInv cx K s bs) (hc : Follows cx s₀ b₀ c) (hmem : c ∈ bs) : b₀ ∈ bs := by
  rcases hc with rfl | hwaits
  · exact hmem
  · induction hwaits with
    | child _ hprev => exact parent_mem hcf hdistinct h hmem hb₀ hprev
    | @further _ _ d hd _ hprev ih =>
      have hd' : Follows cx s₀ b₀ d := .inr hd
      exact ih (parent_mem hcf hdistinct h hmem (hd'.known h₀ hb₀) hprev)

variable (cx) in
/-- The chain got no blocks but ones near `b₀`, and kept `b₀`. -/
structure Grows (s₀ : NodeState) (b₀ : Block) (s s' : NodeState) : Prop where
  near : ∀ x, OnChain s' x → OnChain s x ∨ Near cx s₀ b₀ x
  keeps : OnChain s b₀ → OnChain s' b₀

theorem Grows.refl (s : NodeState) : Grows cx s₀ b₀ s s := ⟨fun _ hx => .inl hx, fun h => h⟩

theorem Grows.trans {s₁ s₂ s₃ : NodeState} (h : Grows cx s₀ b₀ s₁ s₂) (h' : Grows cx s₀ b₀ s₂ s₃) :
    Grows cx s₀ b₀ s₁ s₃ where
  near x hx := (h'.near x hx).elim (h.near x) .inr
  keeps hb := h'.keeps (h.keeps hb)

theorem Grows.congr (hmap : s'.heightMap = s.heightMap) (hconnected : s'.connected = s.connected) :
    Grows cx s₀ b₀ s s' := by
  have hsame : ∀ x, OnChain s' x ↔ OnChain s x := by
    intro x
    unfold OnChain
    rw [hmap, hconnected]
  exact ⟨fun x hx => .inl ((hsame x).mp hx), (hsame b₀).mpr⟩

theorem Around.frame (hdistinct : Distinct cx K) (h : Around cx K s₀ b₀ s) (hf : Frame s s') :
    Around cx K s₀ b₀ s' := by
  refine ⟨h.node.frame hf, fun k x hx => h.stored k x ?_⟩
  unfold getBlock at hx
  split at hx
  next y hy =>
    have hcache := hf.cached k y hy
    rw [Option.some.inj hx] at hcache
    unfold getBlock
    rw [hcache]
  next => exact getBlock_of_disk hdistinct h.node.store (hf.stored k x hx)

theorem Around.step (hcf : CollisionFree cx K) (hdistinct : Distinct cx K) (h₀ : OrphanLinks cx K s₀) (hb₀ : K b₀)
    (h : Around cx K s₀ b₀ s) {c : Block} (hc : Follows cx s₀ b₀ c) (hK : K c)
    (hclean : Clean cx ⟨env, s, c, (addBlockStep cx env s c).1⟩) :
    Around cx K s₀ b₀ (addBlockStep cx env s c).2 ∧ Grows cx s₀ b₀ s (addBlockStep cx env s c).2 := by
  have hnode : NodeInv cx K (addBlockStep cx env s c).2 := h.node.step hcf hK hclean
  have hcases := @addBlockStep_cases cx env s c
  unfold Clean at hclean
  simp only at hclean
  generalize (addBlockStep cx env s c).1 = r at hcases hclean
  generalize (addBlockStep cx env s c).2 = s' at hcases hnode
  obtain ⟨bs, hbs⟩ := h.node.chain
  have hstored : ∀ k x, x = c ∨ s.getBlock k = some x → s₀.getBlock k = some x ∨ Near cx s₀ b₀ x := by
    intro k x hx
    rcases hx with rfl | hx
    · exact .inr (.inl hc)
    · exact h.stored k x hx
  cases hcases with
  | rejected => exact ⟨h, .refl s⟩
  | orphaned =>
    obtain ⟨pool, children, heq, -⟩ := addOrphan_eq env s (c.hash cx.sha256) c
    rw [heq] at hnode ⊢
    exact ⟨⟨hnode, h.stored⟩, .congr rfl rfl⟩
  | extended hadm htip hext =>
    have hchain := hbs.extended hcf h.node.store hK hadm htip hext
    refine ⟨⟨hnode, fun k x hx => hstored k x
      (getBlock_of_stored hdistinct h.node.store hext.cached hext.stored hx)⟩, ?_, ?_⟩
    · intro x hx
      rcases List.mem_cons.mp ((onChain_iff hchain).mp hx) with rfl | hmem
      · exact .inr (.inl hc)
      · exact .inl ((onChain_iff hbs).mpr hmem)
    · intro hb
      exact (onChain_iff hchain).mpr (List.mem_cons_of_mem _ ((onChain_iff hbs).mp hb))
  | stored hadm _ hside =>
    refine ⟨⟨hnode, fun k x hx => hstored k x
      (getBlock_of_stored hdistinct h.node.store hside.cached (hside.diskBlocks ▸ Shrinks.refl _) hx)⟩,
      .congr hside.heightMap hside.connected⟩
  | @reorganized s₁ s₂ s₃ s' disconnect connect hadm _ hside _ hreorg =>
    have hframe := reorganized_frame hreorg
    have hside' : ∀ k x, s₁.getBlock k = some x → s₀.getBlock k = some x ∨ Near cx s₀ b₀ x := fun k x hx =>
      hstored k x
        (getBlock_of_stored hdistinct h.node.store hside.cached (hside.diskBlocks ▸ Shrinks.refl _) hx)
    have hstore₁ := h.node.store.sideStored hcf hK hadm hside
    have haround₁ : Around cx K s₀ b₀ s₁ := ⟨⟨hstore₁, bs, hbs.sideStored hside⟩, hside'⟩
    obtain ⟨old, f, common, new, rfl, -, hconnect, hchain, -⟩ :=
      (hbs.sideStored hside).reorganized hcf hstore₁ hK hreorg
    refine ⟨⟨hnode, ?_⟩, ?_, ?_⟩
    · intro k x hx
      have hcached : Shrinks (s.blocks.insert (c.hash cx.sha256) c) s'.blocks :=
        hside.cached.trans (hframe.blocks ▸ hreorg.cached)
      have hdisk : Shrinks (s.store.disk.blocks.insert (c.hash cx.sha256) c) s'.store.disk.blocks :=
        hside.diskBlocks ▸ hframe.diskBlocks ▸ hreorg.stored
      exact hstored k x (getBlock_of_stored hdistinct h.node.store hcached hdisk hx)
    · intro x hx
      rcases List.mem_append.mp ((onChain_iff hchain).mp hx) with hnew | hold
      · obtain ⟨fork, htraced⟩ := traced_of_fork hreorg.fork
        have hk : x.hash cx.sha256 ∈ connect.reverse := by
          rw [hconnect, List.reverse_reverse]
          exact List.mem_map_of_mem hnew
        obtain ⟨y, hy, hnear⟩ := traced_all (N := Near cx s₀ b₀) htraced
          (fun y hy => by
            obtain ⟨hhash, hKy, -⟩ := hstore₁.getBlock _ _ hy
            exact .inl (hdistinct y c hKy hK hhash ▸ hc))
          (fun x y hy hx => haround₁.parent hdistinct h₀ hb₀ hy hx) _ hk
        obtain ⟨hhash, hKy, -⟩ := hstore₁.getBlock _ _ hy
        have hKx : K x := hchain.known x (List.mem_append_left _ hnew)
        exact .inr (hdistinct y x hKy hKx hhash ▸ hnear)
      · exact .inl ((onChain_iff hbs).mpr (List.mem_append_right _ hold))
    · intro _
      have hmem : c ∈ new ++ f :: common := by
        obtain ⟨t, rest, hcons⟩ := hchain.branch.exists_cons
        have htip := hchain.tip
        rw [hcons, hreorg.tip] at htip
        have ht : K t := hchain.known t (hcons ▸ List.mem_cons_self)
        have hhash : t.hash cx.sha256 = c.hash cx.sha256 := Option.some.inj htip
        rw [hcons, hdistinct t c ht hK hhash]
        exact List.mem_cons_self
      exact (onChain_iff hchain).mpr (base_mem hcf hdistinct h₀ hb₀ hchain hc hmem)
  | broken e s' hnot =>
    rcases hclean with ⟨x, hx⟩ | hthrough
    · cases hx
    · exact absurd hthrough hnot

end Growth

section Calls

variable {fuel : ℕ} {o : Outcome} {s₁ : NodeState} {exit : Exit}

variable (cx K) in
/-- A call of a walk. -/
def Good (s₀ : NodeState) (b₀ : Block) (c : Call) : Prop :=
  Follows cx s₀ b₀ c.block ∧ K c.block ∧ Clean cx c

variable {s₀ : NodeState} {b₀ : Block}

/-- The nested calls of a walk keep what single calls keep. -/
theorem addBlockFuel_grows (hcf : CollisionFree cx K) (hdistinct : Distinct cx K) (h₀ : OrphanLinks cx K s₀)
    (hb₀ : K b₀) (fuel : ℕ) : KeepsFor (fun _ => True) (Around cx K s₀ b₀) (Grows cx s₀ b₀) (Good cx K s₀ b₀)
      (fun c => True ∧ Around cx K s₀ b₀ c.before ∧ Stepped cx c) (addBlockFuel cx env fuel) := by
  refine addBlockFuel_keepsFor Grows.refl (fun _ _ _ => Grows.trans) ?_ ?_ ?_ fuel
  · intro s c hs _ hgood
    exact hs.step hcf hdistinct h₀ hb₀ hgood.1 hgood.2.1 hgood.2.2
  · intro s parent child c hs _
    exact ⟨trivial, ⟨hs.node.takeOrphan parent child, hs.stored⟩, .congr rfl rfl⟩
  · intro s tipHeight hs
    have hf := @maybePrune_frame cx env s tipHeight
    exact ⟨hs.frame hdistinct hf, .congr hf.heightMap hf.connected⟩

theorem Around.start (h : NodeInv cx K s) : Around cx K s b s := ⟨h, fun _ _ hx => .inl hx⟩

theorem good_of_clean (hcf : CollisionFree cx K) (hlinks : OrphanLinks cx K s) (hb : K b)
    (h : addBlockFuel cx env fuel s b = some o) (hclean : ∀ c ∈ o.calls, Clean cx c) :
    OrphanLinks cx K o.state ∧ ∀ c ∈ o.calls, Good cx K s b c := by
  obtain ⟨hwithin, hcalls⟩ := addBlockFuel_walks hcf fuel s b o h (Within.start hlinks) (.inl rfl) hb hclean
  exact ⟨hwithin.links, fun c hc => ⟨(hcalls c hc).1, (hcalls c hc).2, hclean c hc⟩⟩

theorem overtakes_of_connected (hdistinct : Distinct cx K) (hb : K b)
    (h : addBlockStep cx env s b = (.ok .connected, s₁)) (hnode : NodeInv cx K s₁) : Overtakes s b ∧ OnChain s₁ b := by
  obtain ⟨bs, hbs⟩ := hnode.chain
  have hmem : s₁.tip = b.hash cx.sha256 → OnChain s₁ b := by
    intro htip
    obtain ⟨t, rest, rfl⟩ := hbs.branch.exists_cons
    have ht : K t := hbs.known t List.mem_cons_self
    have hhash : t.hash cx.sha256 = b.hash cx.sha256 := (Option.some.inj hbs.tip).trans htip
    rw [onChain_iff hbs, hdistinct t b ht hb hhash]
    exact List.mem_cons_self
  have hcases := @addBlockStep_cases cx env s b
  rw [h] at hcases
  cases hcases with
  | extended hadm htip hext => exact ⟨⟨hadm.parent, .inl htip⟩, hmem hext.tip⟩
  | stored _ _ _ why =>
    rcases why with ⟨hr, -⟩ | ⟨-, ⟨e, hr⟩, -⟩
    · cases hr
    · cases hr
  | reorganized hadm _ _ hmore hreorg => exact ⟨⟨hadm.parent, .inr hmore⟩, hmem hreorg.tip⟩

theorem chain_of_kept (h : addBlockStep cx env s b = (.ok exit, s₁)) (hkept : exit ≠ .connected) :
    ¬ Overtakes s b ∧ ∀ x, OnChain s₁ x ↔ OnChain s x := by
  have hcases := @addBlockStep_cases cx env s b
  rw [h] at hcases
  cases hcases with
  | orphaned hparent =>
    obtain ⟨pool, children, heq, -⟩ := addOrphan_eq env s (b.hash cx.sha256) b
    refine ⟨fun hover => ?_, fun x => ?_⟩
    · rw [hover.1] at hparent
      cases hparent
    · show OnChain (addOrphan env s (b.hash cx.sha256) b) x ↔ _
      rw [heq]
      exact Iff.rfl
  | extended => exact absurd rfl hkept
  | stored _ hoff hside why =>
    refine ⟨fun hover => ?_, fun x => ?_⟩
    · rcases why with ⟨-, hless⟩ | ⟨-, ⟨e, hr⟩, -⟩
      · exact hover.2.elim hoff hless
      · cases hr
    · unfold OnChain
      rw [hside.heightMap, hside.connected]
  | reorganized => exact absurd rfl hkept

/-- A successful call whose block overtakes the chain leaves it on the chain; with another block the chain
stays as it is. -/
theorem onChain_of_call (hcf : CollisionFree cx K) (hdistinct : Distinct cx K) (hnode : NodeInv cx K s)
    (hlinks : OrphanLinks cx K s) (hb : K b) (h : addBlockFuel cx env fuel s b = some o)
    (hclean : ∀ c ∈ o.calls, Clean cx c) (hok : o.result = .ok exit) :
    (Overtakes s b → OnChain o.state b) ∧ (¬ Overtakes s b → ∀ x, OnChain o.state x ↔ OnChain s x) := by
  have hgood := (good_of_clean hcf hlinks hb h hclean).2
  cases fuel with
  | zero => simp [addBlockFuel] at h
  | succ fuel =>
    unfold addBlockFuel at h
    split at h
    next s₁ hs₁ =>
      split at h
      next => simp at h
      next s₂ calls horphans =>
        obtain rfl := Option.some.inj h
        have hfirst : Around cx K s b (addBlockStep cx env s b).2 :=
          ((Around.start hnode).step hcf hdistinct hlinks hb (.inl rfl) hb (.inl ⟨.connected, by rw [hs₁]⟩)).1
        rw [hs₁] at hfirst
        obtain ⟨hover, hon⟩ := overtakes_of_connected hdistinct hb hs₁ hfirst.node
        have hgrows := (processOrphans_keepsFor Grows.refl (fun _ _ _ => Grows.trans)
          (@addBlockFuel_grows cx K env s b hcf hdistinct hlinks hb fuel)
          (fun s parent child c hs _ =>
            ⟨trivial, ⟨hs.node.takeOrphan parent child, hs.stored⟩, .congr rfl rfl⟩)
          horphans hfirst fun c hc => hgood c (List.mem_cons_of_mem _ hc)).2.1
        have hf := @maybePrune_frame cx env s₂ b.header.height
        exact ⟨fun _ => (OnChain.frame hf).mpr (hgrows.keeps hon), fun hnot => absurd hover hnot⟩
    next r s₁ hne hs₁ =>
      obtain rfl := Option.some.inj h
      simp only at hok
      subst hok
      obtain ⟨hnot, hsame⟩ := chain_of_kept hs₁ fun heq => hne (by rw [heq])
      exact ⟨fun hover => absurd hover hnot, fun _ => hsame⟩

theorem onChain_of_error (h : addBlockFuel cx env fuel s b = some o) (hclean : ∀ c ∈ o.calls, Clean cx c)
    {e : AddBlockError} (herror : o.result = .error e) (x : Block) : OnChain o.state x ↔ OnChain s x := by
  cases fuel with
  | zero => simp [addBlockFuel] at h
  | succ fuel =>
    unfold addBlockFuel at h
    split at h
    next =>
      split at h
      next => simp at h
      next =>
        obtain rfl := Option.some.inj h
        cases herror
    next r s₁ _ hs₁ =>
      obtain rfl := Option.some.inj h
      simp only at herror
      subst herror
      have hcases := @addBlockStep_cases cx env s b
      rw [hs₁] at hcases
      cases hcases with
      | rejected => exact Iff.rfl
      | stored _ _ hside =>
        unfold OnChain
        rw [hside.heightMap, hside.connected]
      | broken _ _ hnot =>
        rcases hclean _ List.mem_cons_self with ⟨x, hx⟩ | hthrough
        · cases hx
        · exact absurd hthrough hnot

theorem grows_of_call (hcf : CollisionFree cx K) (hdistinct : Distinct cx K) (hnode : NodeInv cx K s)
    (hlinks : OrphanLinks cx K s) (hb : K b) (h : addBlockFuel cx env fuel s b = some o)
    (hclean : ∀ c ∈ o.calls, Clean cx c) :
    NodeInv cx K o.state ∧ OrphanLinks cx K o.state ∧ Grows cx s b s o.state := by
  obtain ⟨hlinks', hgood⟩ := good_of_clean hcf hlinks hb h hclean
  obtain ⟨haround, hgrows, -⟩ := @addBlockFuel_grows cx K env s b hcf hdistinct hlinks hb fuel s b o h
    (Around.start hnode) trivial hgood
  exact ⟨haround.node, hlinks', hgrows⟩

end Calls

end KuberCoin.OrphanWalks
