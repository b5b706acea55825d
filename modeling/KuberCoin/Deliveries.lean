import KuberCoin.BlockTrees

/-!
Delivering the blocks of a tree in any order.
A block whose parent is missing waits in the orphan pool; when a block becomes the tip, the
blocks that wait for it are added in turn, and those that wait for them. The queue of that
loop covers, at every point, the blocks whose parents are stored already. A block that is
only kept on a side chain starts no such loop: a block that waits for it is left behind.
As long as that does not happen, the node ends on the heaviest branch it was given.
-/
namespace KuberCoin.Deliveries

open Bytes Maps Transactions Blocks UtxoSets Params Difficulty Validator Storage NodeStates
  NodeStates.NodeState AddBlock Frames BlockEffects StepCases Runs Branches ChainInvariants
  StoredBodies BestChain UndoRecords WorkPaths BranchReads BlockTrees

variable (cx : Context) (T : Block → Prop)

/-- The orphan pool holds blocks of the tree under their hashes, each listed under its parent
and under no other. -/
structure PoolInv (s : NodeState) : Prop where
  blocks : ∀ k b, s.orphanBlocks.lookup k = some b → b.hash cx.sha256 = k ∧ T b
  listed : ∀ k b, s.orphanBlocks.lookup k = some b →
    k ∈ (s.orphansByParent.lookup b.header.prevHash).getD []
  parent : ∀ p b, T b → b.hash cx.sha256 ∈ (s.orphansByParent.lookup p).getD [] →
    b.header.prevHash = p

/-- Only blocks in `W` wait for a parent that is stored. -/
def WaitsOnly (s : NodeState) (W : Block → Prop) : Prop :=
  ∀ k b, s.orphanBlocks.lookup k = some b →
    (s.store.disk.blocks.lookup b.header.prevHash).isSome = true → W b

/-- The block is stored or waits. -/
def Held (s : NodeState) (x : Block) : Prop :=
  Placed cx s x ∨ s.orphanBlocks.lookup (x.hash cx.sha256) = some x

/-- Blocks moved from the pool to the store; nothing was lost or added. -/
structure Moved (s s' : NodeState) : Prop where
  tree : TreeInv cx T s'
  pool : PoolInv cx T s'
  placed : ∀ x, Placed cx s x → Placed cx s' x
  held : ∀ x, Held cx s' x ↔ Held cx s x
  orphans : Shrinks s.orphanBlocks s'.orphanBlocks

/-- What an accepting call does: its block is stored, waiting blocks may move to the store, and
if the block was kept on a side chain, those that wait for it are left behind. -/
structure Accepted (s : NodeState) (b : Block) (o : Outcome) : Prop where
  result : o.result = .ok .connected ∨ o.result = .ok .stored
  calls : ∀ c ∈ o.calls, ∃ x, c.result = .ok x
  tree : TreeInv cx T o.state
  pool : PoolInv cx T o.state
  placed : ∀ x, x = b ∨ Placed cx s x → Placed cx o.state x
  held : ∀ x, Held cx o.state x ↔ x = b ∨ Held cx s x
  orphans : Shrinks s.orphanBlocks o.state.orphanBlocks
  waits : ∀ W, WaitsOnly s W →
    WaitsOnly o.state fun x => W x ∨ (o.result = .ok .stored ∧ x.header.prevHash = b.hash cx.sha256)

/-- `add` accepts every block of the tree whose parent is stored, as long as fewer than `n`
blocks wait. -/
def Accepts (add : NodeState → Block → Option Outcome) (n : ℕ) : Prop :=
  ∀ s b, TreeInv cx T s → PoolInv cx T s → T b →
    (s.store.disk.blocks.lookup b.header.prevHash).isSome = true → s.orphanBlocks.keys.card < n →
    ∃ o, add s b = some o ∧ Accepted cx T s b o

variable {cx T}

section Pools

variable {s : NodeState} {m : Map Bytes32 (List Bytes32)} {child k p parent : Bytes32}

theorem WaitsOnly.mono {W W' : Block → Prop} (h : WaitsOnly s W)
    (hW : ∀ k b, s.orphanBlocks.lookup k = some b → W b → W' b) : WaitsOnly s W' :=
  fun k b hb hparent => hW k b hb (h k b hb hparent)

theorem mem_dropChild (hk : k ∈ (m.lookup p).getD []) (hne : k ≠ child) :
    k ∈ ((dropChild m parent child).lookup p).getD [] := by
  unfold dropChild
  split
  next => exact hk
  next children hchildren =>
    by_cases hp : p = parent
    · subst hp
      rw [hchildren, Option.getD_some] at hk
      have hkept : k ∈ children.erase child := (List.mem_erase_of_ne hne).mpr hk
      split
      next hempty =>
        rw [List.isEmpty_iff.mp hempty] at hkept
        simp at hkept
      next =>
        rw [Finmap.lookup_insert, Option.getD_some]
        exact hkept
    · split
      next => rwa [lookup_erase_eq, if_neg hp]
      next => rwa [lookup_insert_eq, if_neg hp]

theorem mem_of_mem_dropChild (hk : k ∈ ((dropChild m parent child).lookup p).getD []) : k ∈ (m.lookup p).getD [] := by
  unfold dropChild at hk
  split at hk
  next => exact hk
  next children hchildren =>
    by_cases hp : p = parent
    · subst hp
      rw [hchildren, Option.getD_some]
      split at hk
      next =>
        rw [lookup_erase_eq, if_pos rfl] at hk
        simp at hk
      next =>
        rw [Finmap.lookup_insert, Option.getD_some] at hk
        exact List.mem_of_mem_erase hk
    · split at hk
      next => rwa [lookup_erase_eq, if_neg hp] at hk
      next => rwa [lookup_insert_eq, if_neg hp] at hk

theorem PoolInv.takeOrphan (h : PoolInv cx T s) (parent child : Bytes32) :
    PoolInv cx T (takeOrphan s parent child) := by
  have hshrinks : Shrinks s.orphanBlocks (AddBlock.takeOrphan s parent child).orphanBlocks :=
    shrinks_erase _ _
  refine ⟨?_, ?_, ?_⟩
  · intro k b hb
    exact h.blocks k b (hshrinks k b hb)
  · intro k b hb
    apply mem_dropChild (h.listed k b (hshrinks k b hb))
    rintro rfl
    change (s.orphanBlocks.erase k).lookup k = some b at hb
    rw [lookup_erase_eq, if_pos rfl] at hb
    simp at hb
  · intro p b hT hk
    exact h.parent p b hT (mem_of_mem_dropChild hk)

theorem stored_mono {s' : NodeState} (h : TreeInv cx T s) (hplaced : ∀ x, Placed cx s x → Placed cx s' x)
    (hk : (s.store.disk.blocks.lookup k).isSome = true) : (s'.store.disk.blocks.lookup k).isSome = true := by
  obtain ⟨x, hx⟩ := Option.isSome_iff_exists.mp hk
  obtain ⟨rfl, -, -⟩ := h.node.store.stored k x hx
  rw [hplaced x hx]
  rfl

end Pools

section Loops

variable {env : Env} {add : NodeState → Block → Option Outcome} {n : ℕ} {s : NodeState} {parent : Bytes32}

theorem Moved.refl (htree : TreeInv cx T s) (hpool : PoolInv cx T s) : Moved cx T s s :=
  ⟨htree, hpool, fun _ hx => hx, fun _ => Iff.rfl, Shrinks.refl _⟩

theorem Moved.trans {s₁ s₂ s₃ : NodeState} (h : Moved cx T s₁ s₂) (h' : Moved cx T s₂ s₃) : Moved cx T s₁ s₃ :=
  ⟨h'.tree, h'.pool, fun x hx => h'.placed x (h.placed x hx),
    fun x => (h'.held x).trans (h.held x), h.orphans.trans h'.orphans⟩

theorem Moved.taken (hpool : PoolInv cx T s) {child : Bytes32} {b : Block} (hb : s.orphanBlocks.lookup child = some b)
    {o : Outcome} (ho : Accepted cx T (takeOrphan s parent child) b o) : Moved cx T s o.state := by
  obtain ⟨rfl, -⟩ := hpool.blocks child b hb
  have hshrinks : Shrinks s.orphanBlocks
      (takeOrphan s parent (b.hash cx.sha256)).orphanBlocks := shrinks_erase _ _
  refine ⟨ho.tree, ho.pool, fun x hx => ho.placed x (Or.inr hx), ?_, hshrinks.trans ho.orphans⟩
  intro x
  rw [ho.held]
  constructor
  · rintro (rfl | hx | hx)
    · exact Or.inr hb
    · exact Or.inl hx
    · exact Or.inr (hshrinks _ _ hx)
  · rintro (hx | hx)
    · exact Or.inr (Or.inl hx)
    · by_cases heq : x.hash cx.sha256 = b.hash cx.sha256
      · rw [heq, hb] at hx
        exact Or.inl (Option.some.inj hx).symm
      · refine Or.inr (Or.inr ?_)
        change (s.orphanBlocks.erase _).lookup _ = some x
        rwa [lookup_erase_eq, if_neg heq]

/-- Adding the children of a stored parent accepts those that wait. Afterwards only blocks that
waited before for another parent, or wait for an accepted child, have a stored parent. -/
theorem reconnectChildren_spec (hadd : Accepts cx T add n) {children : List Bytes32} (htree : TreeInv cx T s)
    (hpool : PoolInv cx T s) (hparent : (s.store.disk.blocks.lookup parent).isSome = true)
    (hchildren : ∀ k ∈ children, ∀ b, s.orphanBlocks.lookup k = some b → b.header.prevHash = parent)
    (hcard : s.orphanBlocks.keys.card ≤ n) :
    ∃ s' accepted calls, reconnectChildren add parent s children = some (s', accepted, calls) ∧
      Moved cx T s s' ∧ (∀ c ∈ calls, ∃ x, c.result = .ok x) ∧
      accepted.length + s'.orphanBlocks.keys.card ≤ s.orphanBlocks.keys.card ∧
      (∀ k ∈ accepted, (s'.store.disk.blocks.lookup k).isSome = true) ∧
      ∀ W : Block → Prop,
        WaitsOnly s (fun x => W x ∨ (x.header.prevHash = parent ∧ x.hash cx.sha256 ∈ children)) →
        WaitsOnly s' fun x => W x ∨ x.header.prevHash ∈ accepted := by
  induction children generalizing s with
  | nil =>
    refine ⟨s, [], [], rfl, Moved.refl htree hpool, by simp, by simp, by simp, ?_⟩
    intro W hW
    refine hW.mono ?_
    rintro k b _ (hb | ⟨-, hb⟩)
    · exact Or.inl hb
    · simp at hb
  | cons child rest ih =>
    have hrest : ∀ k ∈ rest, ∀ b, s.orphanBlocks.lookup k = some b → b.header.prevHash = parent :=
      fun k hk => hchildren k (List.mem_cons_of_mem _ hk)
    unfold reconnectChildren
    cases hb : s.orphanBlocks.lookup child with
    | none =>
      obtain ⟨s', accepted, calls, heq, hmoved, hcalls, hlen, hstored, hwaits⟩ :=
        ih htree hpool hparent hrest hcard
      refine ⟨s', accepted, calls, heq, hmoved, hcalls, hlen, hstored, ?_⟩
      intro W hW
      apply hwaits W
      refine hW.mono ?_
      rintro k x hx (hWx | ⟨hprev, hmem⟩)
      · exact Or.inl hWx
      · rcases List.mem_cons.mp hmem with heq | hmem
        · rw [(hpool.blocks k x hx).1] at heq
          rw [heq, hb] at hx
          simp at hx
        · exact Or.inr ⟨hprev, hmem⟩
    | some b =>
      have hprev := hchildren child (by simp) b hb
      obtain ⟨hhash, hT⟩ := hpool.blocks child b hb
      have hless : (takeOrphan s parent child).orphanBlocks.keys.card < s.orphanBlocks.keys.card :=
        card_keys_erase_lt _ _ ((mem_iff_lookup _ _).mpr ⟨b, hb⟩)
      obtain ⟨o, ho, haccepted⟩ := hadd (takeOrphan s parent child) b (htree.takeOrphan _ _)
        (hpool.takeOrphan _ _) hT (by rw [hprev]; exact hparent) (by omega)
      have hmoved := Moved.taken hpool hb haccepted
      obtain ⟨s', accepted, calls, heq, hmoved', hcalls, hlen, hstored, hwaits⟩ :=
        ih haccepted.tree haccepted.pool (stored_mono htree hmoved.placed hparent)
          (fun k hk x hx => hrest k hk x (hmoved.orphans k x hx))
          (by have := haccepted.orphans.card_le; omega)
      have hok : o.result.isOk = true := by
        rcases haccepted.result with hr | hr
        · rw [hr]
          rfl
        · rw [hr]
          rfl
      refine ⟨s', child :: accepted, o.calls ++ calls, ?_, hmoved.trans hmoved', ?_, ?_, ?_, ?_⟩
      · simp only [ho, heq, hok, if_true]
      · intro c hc
        rcases List.mem_append.mp hc with hc | hc
        · exact haccepted.calls c hc
        · exact hcalls c hc
      · have := haccepted.orphans.card_le
        rw [List.length_cons]
        omega
      · rw [List.forall_mem_cons]
        refine ⟨?_, hstored⟩
        rw [← hhash, hmoved'.placed b (haccepted.placed b (Or.inl rfl))]
        rfl
      · intro W hW
        -- the child is out of the pool; blocks that wait for it are covered by `accepted`
        have htaken : WaitsOnly (takeOrphan s parent child)
            fun x => W x ∨ (x.header.prevHash = parent ∧ x.hash cx.sha256 ∈ rest) := by
          intro k x hx hstored
          have hx' := shrinks_erase s.orphanBlocks child k x hx
          rcases hW k x hx' hstored with hWx | ⟨hprev', hmem⟩
          · exact Or.inl hWx
          · rcases List.mem_cons.mp hmem with heq | hmem
            · rw [(hpool.blocks k x hx').1] at heq
              change (s.orphanBlocks.erase child).lookup k = some x at hx
              rw [heq, lookup_erase_eq, if_pos rfl] at hx
              simp at hx
            · exact Or.inr ⟨hprev', hmem⟩
        have hafter := hwaits (fun x => W x ∨ x.header.prevHash = child) (by
          refine (haccepted.waits _ htaken).mono ?_
          rintro k x _ ((hWx | hin) | ⟨-, hx⟩)
          · exact Or.inl (Or.inl hWx)
          · exact Or.inr hin
          · exact Or.inl (Or.inr (hx.trans hhash)))
        refine hafter.mono ?_
        rintro k x _ ((hWx | hx) | hmem)
        · exact Or.inl hWx
        · exact Or.inr (by rw [hx]; simp)
        · exact Or.inr (List.mem_cons_of_mem _ hmem)

/-- The loop over the queue ends, and afterwards no block waits for a parent that was queued. -/
theorem processOrphans_spec (hadd : Accepts cx T add n) {fuel : ℕ} {s : NodeState} {queue : List Bytes32}
    (htree : TreeInv cx T s) (hpool : PoolInv cx T s)
    (hqueue : ∀ k ∈ queue, (s.store.disk.blocks.lookup k).isSome = true) (hcard : s.orphanBlocks.keys.card ≤ n)
    (hfuel : queue.length + s.orphanBlocks.keys.card ≤ fuel) :
    ∃ s' calls, processOrphans env add fuel s queue = some (s', calls) ∧ Moved cx T s s' ∧
      (∀ c ∈ calls, ∃ x, c.result = .ok x) ∧
      ∀ W : Block → Prop, WaitsOnly s (fun x => W x ∨ x.header.prevHash ∈ queue) → WaitsOnly s' W := by
  induction fuel generalizing s queue with
  | zero =>
    obtain rfl : queue = [] := List.length_eq_zero_iff.mp (by omega)
    refine ⟨s, [], rfl, Moved.refl htree hpool, by simp, ?_⟩
    intro W hW
    refine hW.mono ?_
    simp
  | succ fuel ih =>
    cases queue with
    | nil =>
      refine ⟨s, [], rfl, Moved.refl htree hpool, by simp, ?_⟩
      intro W hW
      refine hW.mono ?_
      simp
    | cons parent queue =>
      have hperm := env.childOrder_perm ((s.orphansByParent.lookup parent).getD [])
      have hlisted : ∀ k ∈ env.childOrder ((s.orphansByParent.lookup parent).getD []),
          ∀ b, s.orphanBlocks.lookup k = some b → b.header.prevHash = parent := by
        intro k hk b hb
        obtain ⟨rfl, hT⟩ := hpool.blocks k b hb
        exact hpool.parent parent b hT (hperm.mem_iff.mp hk)
      obtain ⟨s₁, accepted, calls, hreconnect, hmoved, hcalls, hlen, hstored, hwaits⟩ :=
        reconnectChildren_spec hadd htree hpool (hqueue parent (by simp))
          hlisted hcard
      rw [List.length_cons] at hfuel
      have hqueue' : ∀ k ∈ accepted.reverse ++ queue,
          (s₁.store.disk.blocks.lookup k).isSome = true := by
        intro k hk
        rcases List.mem_append.mp hk with hk | hk
        · exact hstored k (List.mem_reverse.mp hk)
        · exact stored_mono htree hmoved.placed (hqueue k (List.mem_cons_of_mem _ hk))
      obtain ⟨s₂, calls', hprocess, hmoved', hcalls', hwaits'⟩ := ih hmoved.tree hmoved.pool hqueue'
        (by omega) (by rw [List.length_append, List.length_reverse]; omega)
      refine ⟨s₂, calls ++ calls', ?_, hmoved.trans hmoved', ?_, ?_⟩
      · unfold processOrphans
        simp only [hreconnect, hprocess]
      · intro c hc
        rcases List.mem_append.mp hc with hc | hc
        · exact hcalls c hc
        · exact hcalls' c hc
      · intro W hW
        apply hwaits' W
        have hlisted := hwaits (fun x => W x ∨ x.header.prevHash ∈ queue) (by
          refine hW.mono ?_
          rintro k x hx (hWx | hmem)
          · exact Or.inl (Or.inl hWx)
          · rcases List.mem_cons.mp hmem with heq | hmem
            · have hin := hpool.listed k x hx
              rw [heq] at hin
              rw [(hpool.blocks k x hx).1]
              exact Or.inr ⟨heq, hperm.mem_iff.mpr hin⟩
            · exact Or.inl (Or.inr hmem))
        refine hlisted.mono ?_
        rintro k x _ ((hWx | hmem) | hmem)
        · exact Or.inl hWx
        · exact Or.inr (List.mem_append_right _ hmem)
        · exact Or.inr (List.mem_append_left _ (List.mem_reverse.mpr hmem))

end Loops

section Calls

/-- The step of an accepting call, before the orphans: the pool is as it was, and only blocks
that wait for the new block can have a newly stored parent. -/
theorem step_spec (htree : BlockTree cx T) (hlevel : Level cx T) (hprune : cx.pruneDepth = none) {env : Env}
    (henv : Reliable cx T env) {s : NodeState} (h : TreeInv cx T s) (hpool : PoolInv cx T s) {b : Block} (hT : T b)
    (hparent : (s.store.disk.blocks.lookup b.header.prevHash).isSome = true) :
    TreeInv cx T (addBlockStep cx env s b).2 ∧ PoolInv cx T (addBlockStep cx env s b).2 ∧
      (addBlockStep cx env s b).2.orphanBlocks = s.orphanBlocks ∧
      (∀ x, Placed cx (addBlockStep cx env s b).2 x ↔ x = b ∨ Placed cx s x) ∧
      (∀ x, Held cx (addBlockStep cx env s b).2 x ↔ x = b ∨ Held cx s x) ∧
      ∀ W : Block → Prop, WaitsOnly s W → WaitsOnly (addBlockStep cx env s b).2
        fun x => W x ∨ x.header.prevHash = b.hash cx.sha256 := by
  obtain ⟨htree', hplaced⟩ := h.step htree hprune henv hT hparent
    (h.keepsHeight htree hlevel henv hT hparent)
  obtain ⟨hdisk, horphans, hchildren⟩ := h.stores htree hprune henv hT hparent
  refine ⟨htree', ⟨?_, ?_, ?_⟩, horphans, hplaced, ?_, ?_⟩
  · rw [horphans]
    exact hpool.blocks
  · rw [horphans, hchildren]
    exact hpool.listed
  · rw [hchildren]
    exact hpool.parent
  · intro x
    unfold Held
    rw [hplaced, horphans, or_assoc]
  · intro W hW k x hx hstored
    rw [horphans] at hx
    rw [hdisk, lookup_insert_eq] at hstored
    split at hstored
    next heq => exact Or.inr heq
    next => exact Or.inl (hW k x hx hstored)

/-- A whole call accepts a block whose parent is stored; fuel above the size of the pool is
enough. -/
theorem addBlockFuel_accepts (htree : BlockTree cx T) (hlevel : Level cx T) (hprune : cx.pruneDepth = none) {env : Env}
    (henv : Reliable cx T env) {fuel n : ℕ} (hfuel : n < fuel) : Accepts cx T (addBlockFuel cx env fuel) n := by
  induction fuel generalizing n with
  | zero => omega
  | succ fuel ih =>
    intro s b h hpool hT hparent hcard
    obtain ⟨htree₁, hpool₁, horphans, hplaced, hheld, hwaits⟩ :=
      step_spec htree hlevel hprune henv h hpool hT hparent
    rcases h.accepted htree henv hT hparent with hr | ⟨hr, -⟩
    · generalize hstep : addBlockStep cx env s b = p at *
      obtain ⟨r, s₁⟩ := p
      simp only at hr htree₁ hpool₁ horphans hplaced hheld hwaits
      subst hr
      have hqueue : ∀ k ∈ [b.hash cx.sha256], (s₁.store.disk.blocks.lookup k).isSome = true := by
        intro k hk
        rw [List.mem_singleton.mp hk, (hplaced b).mpr (Or.inl rfl)]
        rfl
      obtain ⟨s₂, calls, hprocess, hmoved, hcalls, hwaits'⟩ :=
        @processOrphans_spec cx T env _ (n - 1) (ih (by omega)) fuel s₁ _ htree₁ hpool₁ hqueue
          (by rw [horphans]; omega) (by rw [horphans, List.length_singleton]; omega)
      refine ⟨⟨.ok .connected, s₂, ⟨env, s, b, .ok .connected⟩ :: calls⟩, ?_, ?_⟩
      · unfold addBlockFuel
        simp only [hstep, hprocess, maybePrune_none hprune]
      · refine ⟨Or.inl rfl, ?_, hmoved.tree, hmoved.pool, ?_, ?_, ?_, ?_⟩
        · rw [List.forall_mem_cons]
          exact ⟨⟨_, rfl⟩, hcalls⟩
        · exact fun x hx => hmoved.placed x ((hplaced x).mpr hx)
        · exact fun x => (hmoved.held x).trans (hheld x)
        · rw [← horphans]
          exact hmoved.orphans
        · intro W hW
          have hall := hwaits' W (by
            refine (hwaits W hW).mono ?_
            rintro k x _ (hWx | hx)
            · exact Or.inl hWx
            · exact Or.inr (List.mem_singleton.mpr hx))
          exact hall.mono fun k x _ hWx => Or.inl hWx
    · generalize hstep : addBlockStep cx env s b = p at *
      obtain ⟨r, s₁⟩ := p
      simp only at hr htree₁ hpool₁ horphans hplaced hheld hwaits
      subst hr
      refine ⟨⟨.ok .stored, s₁, [⟨env, s, b, .ok .stored⟩]⟩, ?_, ?_⟩
      · unfold addBlockFuel
        simp only [hstep]
      · refine ⟨Or.inr rfl, ?_, htree₁, hpool₁, fun x => (hplaced x).mpr, hheld, ?_, ?_⟩
        · intro c hc
          rw [List.mem_singleton.mp hc]
          exact ⟨_, rfl⟩
        · rw [horphans]
          exact Shrinks.refl _
        · intro W hW
          refine (hwaits W hW).mono ?_
          rintro k x _ (hWx | hx)
          · exact Or.inl hWx
          · exact Or.inr ⟨rfl, hx⟩

end Calls

section Deliveries

variable {env : Env} {s : NodeState} {b : Block} {delivered : List Block}

variable (cx T) in
/-- A block that has to wait finds room in the pool, and a block that will be kept on a side
chain is not waited for. -/
structure Fits (s : NodeState) (b : Block) : Prop where
  room : parentKnown s b.header.prevHash = false → s.orphanBlocks.keys.card < maxOrphanBlocks
  unawaited : parentKnown s b.header.prevHash = true → b.header.prevHash ≠ s.tip →
    compareWork (cumulativeWork s b) s.chainwork ≠ .gt →
    ∀ k x, s.orphanBlocks.lookup k = some x → x.header.prevHash ≠ b.hash cx.sha256

variable (cx T) in
/-- A node that was opened on an empty store and given blocks of the tree one after the other,
latest first in the list. -/
inductive Delivery : NodeState → List Block → Prop where
  | fresh {env : Env} {s : NodeState} (h : NodeState.new cx env Disk.empty = .ok s) : Delivery s []
  | add {s : NodeState} {delivered : List Block} {env : Env} {b : Block} {fuel : ℕ} {o : Outcome}
      (hdelivery : Delivery s delivered) (henv : Reliable cx T env) (hT : T b) (hfits : Fits cx s b)
      (hfuel : maxOrphanBlocks + 1 < fuel) (h : addBlockFuel cx env fuel s b = some o) :
      Delivery o.state (b :: delivered)

variable (cx T) in
/-- Between calls: no block waits for a stored parent, and the node holds what it was given. -/
structure Settled (s : NodeState) (delivered : List Block) : Prop where
  tree : TreeInv cx T s
  pool : PoolInv cx T s
  waits : WaitsOnly s fun _ => False
  held : ∀ x, T x → (Held cx s x ↔ x ∈ delivered)
  room : s.orphanBlocks.keys.card ≤ maxOrphanBlocks

theorem stored_inv (h : (addBlockStep cx env s b).1 = .ok .stored) :
    b.header.prevHash ≠ s.tip ∧ compareWork (cumulativeWork s b) s.chainwork ≠ .gt := by
  have hcases := @addBlockStep_cases cx env s b
  generalize (addBlockStep cx env s b).1 = r at hcases h
  generalize (addBlockStep cx env s b).2 = s' at hcases
  cases hcases with
  | rejected => simp at h
  | orphaned => simp at h
  | extended => simp at h
  | stored _ htip _ why =>
    rcases why with ⟨-, hle⟩ | ⟨-, ⟨e, rfl⟩, -⟩
    · exact ⟨htip, hle⟩
    · simp at h
  | reorganized => simp at h
  | broken => simp at h

/-- With room in the pool nothing is evicted. -/
theorem addOrphan_of_room (env : Env) (hroom : s.orphanBlocks.keys.card < maxOrphanBlocks) (hash : Bytes32)
    (b : Block) : addOrphan env s hash b =
      { s with
        orphanBlocks := s.orphanBlocks.insert hash b
        orphansByParent := s.orphansByParent.insert b.header.prevHash
          (if hash ∈ (s.orphansByParent.lookup b.header.prevHash).getD [] then
            (s.orphansByParent.lookup b.header.prevHash).getD []
          else hash :: (s.orphansByParent.lookup b.header.prevHash).getD []) } := by
  have hkeep : evictOrphans env s.orphanBlocks.keys.card s = s := by
    cases hcard : s.orphanBlocks.keys.card with
    | zero => rfl
    | succ m =>
      unfold evictOrphans
      rw [if_neg (by omega)]
  unfold addOrphan
  simp only [hkeep]

theorem PoolInv.addOrphan (htree : BlockTree cx T) {s : NodeState} (h : PoolInv cx T s) {env : Env}
    (hroom : s.orphanBlocks.keys.card < maxOrphanBlocks) {b : Block} (hT : T b) :
    PoolInv cx T (addOrphan env s (b.hash cx.sha256) b) := by
  rw [addOrphan_of_room env hroom]
  have hblocks : ∀ k x, (s.orphanBlocks.insert (b.hash cx.sha256) b).lookup k = some x →
      k = b.hash cx.sha256 ∧ x = b ∨ s.orphanBlocks.lookup k = some x := by
    intro k x hx
    rw [lookup_insert_eq] at hx
    split at hx
    next heq => exact Or.inl ⟨heq, (Option.some.inj hx).symm⟩
    next => exact Or.inr hx
  refine ⟨?_, ?_, ?_⟩
  · intro k x hx
    rcases hblocks k x hx with ⟨rfl, rfl⟩ | hx
    · exact ⟨rfl, hT⟩
    · exact h.blocks k x hx
  · intro k x hx
    simp only [lookup_insert_eq]
    rcases hblocks k x hx with ⟨rfl, rfl⟩ | hx
    · rw [if_pos rfl, Option.getD_some]
      split
      next hmem => exact hmem
      next => simp
    · have hin := h.listed k x hx
      split
      next heq =>
        rw [heq] at hin
        rw [Option.getD_some]
        split
        next => exact hin
        next => exact List.mem_cons_of_mem _ hin
      next => exact hin
  · intro p x hTx hk
    simp only [lookup_insert_eq] at hk
    split at hk
    next heq =>
      rw [Option.getD_some] at hk
      split at hk
      next =>
        rw [heq]
        exact h.parent _ x hTx hk
      next =>
        rcases List.mem_cons.mp hk with hhash | hk
        · rw [heq, htree.hash_injective x b (Or.inr hTx) (Or.inr hT) hhash]
        · rw [heq]
          exact h.parent _ x hTx hk
    next => exact h.parent p x hTx hk

theorem Settled.orphaned (htree : BlockTree cx T) (h : Settled cx T s delivered) (hT : T b)
    (hunknown : (s.store.disk.blocks.lookup b.header.prevHash).isSome = false)
    (hroom : s.orphanBlocks.keys.card < maxOrphanBlocks) :
    Settled cx T (addOrphan env s (b.hash cx.sha256) b) (b :: delivered) := by
  have hpool := @PoolInv.addOrphan cx T htree s h.pool env hroom b hT
  have heq := addOrphan_of_room env hroom (b.hash cx.sha256) b
  rw [heq] at hpool ⊢
  refine ⟨?_, hpool, ?_, ?_, ?_⟩
  · apply h.tree.orphans
    exact fun k x hx => Or.inr (hpool.blocks k x hx).2
  · intro k x hx hstored
    simp only [lookup_insert_eq] at hx
    split at hx
    next =>
      obtain rfl := Option.some.inj hx
      change (s.store.disk.blocks.lookup b.header.prevHash).isSome = true at hstored
      rw [hunknown] at hstored
      simp at hstored
    next => exact h.waits k x hx hstored
  · intro x hTx
    rw [List.mem_cons, ← h.held x hTx]
    unfold Held
    simp only [lookup_insert_eq]
    by_cases hhash : x.hash cx.sha256 = b.hash cx.sha256
    · obtain rfl := htree.hash_injective x b (Or.inr hTx) (Or.inr hT) hhash
      simp
    · rw [if_neg hhash]
      constructor
      · exact Or.inr
      · rintro (rfl | hx)
        · exact absurd rfl hhash
        · exact hx
  · have := card_keys_insert_le s.orphanBlocks (b.hash cx.sha256) b
    simp only
    omega

theorem Settled.add (htree : BlockTree cx T) (hlevel : Level cx T) (hprune : cx.pruneDepth = none) {s : NodeState}
    {delivered : List Block} (h : Settled cx T s delivered) {env : Env} (henv : Reliable cx T env) {b : Block}
    (hT : T b) (hfits : Fits cx s b) {fuel : ℕ} (hfuel : maxOrphanBlocks + 1 < fuel) :
    ∃ o, addBlockFuel cx env fuel s b = some o ∧ (∀ c ∈ o.calls, ∃ x, c.result = .ok x) ∧
      Settled cx T o.state (b :: delivered) := by
  have hknown := h.tree.parentKnown_eq htree hT
  cases hparent : (s.store.disk.blocks.lookup b.header.prevHash).isSome with
  | false =>
    rw [hparent] at hknown
    have hstep : addBlockStep cx env s b = (.ok .orphaned, addOrphan env s (b.hash cx.sha256) b) := by
      unfold addBlockStep
      simp only [htree.earlyChecks_ok henv hT, hknown]
      rfl
    obtain ⟨fuel, rfl⟩ := Nat.exists_eq_succ_of_ne_zero (by omega : fuel ≠ 0)
    refine ⟨⟨.ok .orphaned, addOrphan env s (b.hash cx.sha256) b, [⟨env, s, b, .ok .orphaned⟩]⟩,
      ?_, ?_, h.orphaned htree hT hparent (hfits.room hknown)⟩
    · unfold addBlockFuel
      simp only [hstep]
    · intro c hc
      rw [List.mem_singleton.mp hc]
      exact ⟨_, rfl⟩
  | true =>
    rw [hparent] at hknown
    have hroom := h.room
    obtain ⟨o, ho, haccepted⟩ :=
      addBlockFuel_accepts htree hlevel hprune henv hfuel s b h.tree h.pool hT hparent (by omega)
    refine ⟨o, ho, haccepted.calls, haccepted.tree, haccepted.pool, ?_, ?_, ?_⟩
    · refine (haccepted.waits _ h.waits).mono ?_
      rintro k x hx (hfalse | ⟨hstored, hprev⟩)
      · exact hfalse
      · rw [addBlockFuel_result ho] at hstored
        obtain ⟨htip, hle⟩ := stored_inv hstored
        exact hfits.unawaited hknown htip hle k x (haccepted.orphans k x hx) hprev
    · intro x hTx
      rw [haccepted.held, List.mem_cons, h.held x hTx]
    · exact haccepted.orphans.card_le.trans hroom

theorem Settled.fresh (htree : BlockTree cx T) (h : FreshNode cx s) : Settled cx T s [] := by
  have hnone : ∀ k, s.orphanBlocks.lookup k = none := by
    intro k
    rw [h.orphanBlocks]
    rfl
  refine ⟨TreeInv.fresh htree h, ⟨?_, ?_, ?_⟩, ?_, ?_, ?_⟩
  · intro k b hb
    rw [hnone] at hb
    simp at hb
  · intro k b hb
    rw [hnone] at hb
    simp at hb
  · intro p b _ hk
    rw [h.orphansByParent] at hk
    simp at hk
  · intro k b hb
    rw [hnone] at hb
    simp at hb
  · intro x hTx
    refine ⟨?_, by simp⟩
    rintro (hx | hx)
    · unfold Placed at hx
      rw [h.diskBlocks, lookup_insert_eq] at hx
      split at hx
      · obtain ⟨parent, rest, u, hgood⟩ := htree.branch x hTx
        have hheight : x.header.height = rest.length + 1 := hgood.valid.height_eq
        rw [← Option.some.inj hx] at hheight
        exact absurd hheight (Nat.succ_ne_zero _).symm
      · simp at hx
    · rw [hnone] at hx
      simp at hx
  · rw [h.orphanBlocks]
    simp

theorem Delivery.settled (htree : BlockTree cx T) (hlevel : Level cx T) (hprune : cx.pruneDepth = none)
    (h : Delivery cx T s delivered) : Settled cx T s delivered := by
  induction h with
  | fresh h => exact Settled.fresh htree (freshNode h)
  | add hdelivery henv hT hfits hfuel ho ih =>
    obtain ⟨o, ho', -, hsettled⟩ := ih.add htree hlevel hprune henv hT hfits hfuel
    rw [ho] at ho'
    rwa [Option.some.inj ho']

theorem Settled.placed (h : Settled cx T s delivered) {bs : List Block} {u : UtxoSet} (hbs : GoodBranch cx T bs u)
    (hall : ∀ x ∈ bs, x = cx.genesis ∨ x ∈ delivered) (hgenesis : Placed cx s cx.genesis) :
    ∀ x ∈ bs, Placed cx s x := by
  induction hbs with
  | genesis =>
    intro x hx
    rw [List.mem_singleton.mp hx]
    exact hgenesis
  | @extend b parent rest u u' clock undo hbranch hT hprev hheight hbits hvalid happly ih =>
    have hbelow := ih fun x hx => hall x (List.mem_cons_of_mem _ hx)
    rw [List.forall_mem_cons]
    refine ⟨?_, hbelow⟩
    rcases hall b (by simp) with rfl | hdelivered
    · exact hgenesis
    · rcases (h.held b hT).mpr hdelivered with hplaced | hwaiting
      · exact hplaced
      · -- its parent is stored, so it would have been added
        have hstored : (s.store.disk.blocks.lookup b.header.prevHash).isSome = true := by
          rw [hprev, hbelow parent (by simp)]
          rfl
        exact (h.waits _ b hwaiting hstored).elim

/-- The works of the branches that were delivered in full. -/
def deliveredWorks (cx : Context) (T : Block → Prop) (delivered : List Block) : Set ℕ :=
  { w | ∃ bs u, GoodBranch cx T bs u ∧ (∀ x ∈ bs, x = cx.genesis ∨ x ∈ delivered) ∧ w = pathWork bs }

theorem Settled.heaviest (htree : BlockTree cx T) (h : Settled cx T s delivered) :
    IsGreatest (deliveredWorks cx T delivered) (workValue s.chainwork) := by
  obtain ⟨t, ts, hchain, hgood, -, hplaced, hwork⟩ := h.tree.chain htree
  have hgenesis : Placed cx s cx.genesis := by
    have hsplit := List.dropLast_append_getLast (List.cons_ne_nil t ts)
    have hvalid := hgood.valid
    rw [← hsplit] at hvalid
    rw [← hvalid.last]
    exact hplaced _ (List.getLast_mem _)
  constructor
  · refine ⟨t :: ts, _, hgood, ?_, hwork.symm⟩
    intro x hx
    rcases GoodBranch.member hgood x hx with rfl | hT
    · exact Or.inl rfl
    · exact Or.inr ((h.held x hT).mp (Or.inl (hplaced x hx)))
  · rintro w ⟨bs, u, hbs, hall, rfl⟩
    exact h.tree.heaviest bs u hbs (h.placed hbs hall hgenesis)

/-- In whatever order the blocks of a tree are delivered, the node ends on the heaviest branch
that was delivered in full, two nodes that were given the same blocks have the same work, no
block waits for a stored parent, and the next call returns without an error. -/
theorem delivery_heaviest (htree : BlockTree cx T) (hlevel : Level cx T) (hprune : cx.pruneDepth = none) {s : NodeState}
    {delivered : List Block} (h : Delivery cx T s delivered) :
    IsGreatest (deliveredWorks cx T delivered) (workValue s.chainwork) ∧
      (∀ s' delivered', Delivery cx T s' delivered' → (∀ b, b ∈ delivered ↔ b ∈ delivered') →
        s'.chainwork = s.chainwork) ∧
      (∀ k b, s.orphanBlocks.lookup k = some b → parentKnown s b.header.prevHash = false) ∧
      ∀ env b fuel, Reliable cx T env → T b → Fits cx s b → maxOrphanBlocks + 1 < fuel →
        ∃ o, addBlockFuel cx env fuel s b = some o ∧ ∀ c ∈ o.calls, ∃ x, c.result = .ok x := by
  have hsettled := h.settled htree hlevel hprune
  have hgreatest := hsettled.heaviest htree
  refine ⟨hgreatest, ?_, ?_, ?_⟩
  · intro s' delivered' h' hsame
    have hgreatest' := (h'.settled htree hlevel hprune).heaviest htree
    have hworks : deliveredWorks cx T delivered' = deliveredWorks cx T delivered := by
      simp only [deliveredWorks, hsame]
    rw [hworks] at hgreatest'
    exact workValue_injective (hgreatest'.unique hgreatest)
  · intro k b hb
    rw [hsettled.tree.parentKnown_eq htree (hsettled.pool.blocks k b hb).2]
    rw [← Bool.not_eq_true]
    exact hsettled.waits k b hb
  · intro env b fuel henv hT hfits hfuel
    obtain ⟨o, ho, hcalls, -⟩ := hsettled.add htree hlevel hprune henv hT hfits hfuel
    exact ⟨o, ho, hcalls⟩

end Deliveries

section Forks

variable {b : Block} {bs : List Block} {s : NodeState}

/-- A block on the second of the two blocks on genesis. -/
def secondTip : Block := childOf secondBranch [emptyCoinbase] 3

def runSecondTip : Block := runChildOf runSecondBranch [emptyCoinbase] 3

theorem runSecondTip_eq : runSecondTip = secondTip := by
  rw [runSecondTip, runChildOf_eq, runSecondBranch_eq, secondTip]

/-- Two branches over genesis, of one and of two blocks. -/
def forkBlocks (b : Block) : Prop := b = firstBranch ∨ b = secondBranch ∨ b = secondTip

theorem forkBlocks_member (h : Member regtest forkBlocks b) :
    b ∈ [regtest.genesis, firstBranch, secondBranch, secondTip] := by
  rcases h with rfl | rfl | rfl | rfl <;> simp

theorem forkBlocks_height (h : Member regtest forkBlocks b) : b.header.height ≤ 2 := by
  rcases h with rfl | rfl | rfl | rfl <;> decide

theorem forkBlocks_bits (h : Member regtest forkBlocks b) : b.header.bits = 0x207fffff := by
  rcases h with rfl | rfl | rfl | rfl <;> rfl

theorem forkBranch_length {u : UtxoSet} (h : GoodBranch regtest forkBlocks bs u) : bs.length ≤ 3 := by
  obtain ⟨b, rest, rfl⟩ := h.valid.exists_cons
  have hheight := forkBlocks_height (GoodBranch.member h b (by simp))
  rw [h.valid.height_eq] at hheight
  rw [List.length_cons]
  omega

theorem forkBranches (hsome : (checkBranch regtest bs).isSome = true) (hT : ∀ b ∈ bs.dropLast, forkBlocks b) :
    ∃ u, GoodBranch regtest forkBlocks bs u := by
  obtain ⟨u, hu⟩ := Option.isSome_iff_exists.mp hsome
  exact ⟨u, goodBranch_of_check hu hT⟩

theorem forkTree : BlockTree regtest forkBlocks := by
  have hdistinct : (Bytes32.zero :: [regtest.genesis, firstBranch, secondBranch, secondTip].map
      (Block.hash regtest.sha256)).Nodup := by
    rw [← runRegtest_eq, ← runFirstBranch_eq, ← runSecondBranch_eq, ← runSecondTip_eq]
    decide +kernel
  rw [List.nodup_cons] at hdistinct
  have hlonger : ∃ u, GoodBranch regtest forkBlocks [secondTip, secondBranch, regtest.genesis] u := by
    refine forkBranches ?_ (by simp [forkBlocks])
    rw [← runRegtest_eq, ← runSecondBranch_eq, ← runSecondTip_eq]
    decide +kernel
  refine ⟨?_, ?_, ?_, ?_, ?_⟩
  · intro a b ha hb hhash
    exact List.inj_on_of_nodup_map hdistinct.2 (forkBlocks_member ha) (forkBlocks_member hb) hhash
  · intro b hb hzero
    apply hdistinct.1
    rw [← hzero]
    exact List.mem_map_of_mem (forkBlocks_member hb)
  · rintro b (rfl | rfl | rfl)
    · obtain ⟨u, hu⟩ : ∃ u, GoodBranch regtest forkBlocks [firstBranch, regtest.genesis] u := by
        refine forkBranches ?_ (by simp [forkBlocks])
        rw [← runRegtest_eq, ← runFirstBranch_eq]
        decide +kernel
      exact ⟨_, _, u, hu⟩
    · obtain ⟨u, hu⟩ := hlonger
      obtain ⟨v, hv⟩ := @GoodBranch.suffix regtest forkBlocks [secondTip] _ _ u hu
      exact ⟨_, _, v, hv⟩
    · obtain ⟨u, hu⟩ := hlonger
      exact ⟨_, _, u, hu⟩
  · intro bs u hbs
    have hone : ∀ w ∈ bs.map blockWorkValue, w ≤ 2 := by
      intro w hw
      obtain ⟨b, hb, rfl⟩ := List.mem_map.mp hw
      rw [blockWorkValue_regtest (forkBlocks_bits (GoodBranch.member hbs b hb))]
    have hsum := List.sum_le_card_nsmul (bs.map blockWorkValue) 2 hone
    have hlen := forkBranch_length hbs
    rw [List.length_map, nsmul_eq_mul, Nat.cast_id] at hsum
    unfold pathWork
    omega
  · intro old new f common u v hold _ _ _
    have hlen := forkBranch_length hold
    rw [List.length_append, List.length_cons] at hlen
    unfold maxReorgDepth
    omega

theorem forkBlocks_level : Level regtest forkBlocks := by
  intro bs cs u v hbs _ _ hlong
  have hlen := forkBranch_length hbs
  unfold maxReorgDepth at hlong
  omega

theorem today_reliable : Reliable regtest forkBlocks today := by
  refine ⟨fun _ _ => rfl, ?_⟩
  intro b hb
  have hbefore : b.header.timestamp ≤ 1706832002 := by
    rcases hb with rfl | rfl | rfl <;> decide
  have hlimit : (1706832002 : UInt64) ≤
      saturatingAdd (today.now (b.hash regtest.sha256)) maxFutureBlockTimeSecs := by
    change _ ≤ saturatingAdd 1706900000 maxFutureBlockTimeSecs
    decide
  exact UInt64.le_trans hbefore hlimit

/-- `Fits`, as a test. -/
def fits (cx : Context) (s : NodeState) (b : Block) : Bool :=
  if parentKnown s b.header.prevHash then
    decide (b.header.prevHash = s.tip) || decide (compareWork (cumulativeWork s b) s.chainwork = .gt) ||
      decide (∀ e ∈ s.orphanBlocks.entries, e.2.header.prevHash ≠ b.hash cx.sha256)
  else decide (s.orphanBlocks.keys.card < maxOrphanBlocks)

theorem Fits.of_fits {cx : Context} (h : fits cx s b = true) : Fits cx s b := by
  cases hknown : parentKnown s b.header.prevHash with
  | false =>
    simp only [fits, hknown, Bool.false_eq_true, if_false, decide_eq_true_eq] at h
    exact ⟨fun _ => h, fun hparent => by simp [hknown] at hparent⟩
  | true =>
    simp only [fits, hknown, if_true, Bool.or_eq_true, decide_eq_true_eq] at h
    refine ⟨fun hparent => by simp [hknown] at hparent, fun _ hside hless k x hx => ?_⟩
    exact (h.resolve_left fun h => h.elim hside hless) _ (Finmap.lookup_eq_some_iff.mp hx)

def deliverEach (cx : Context) (add : NodeState → Block → Option Outcome) : NodeState → List Block → Option NodeState
  | s, [] => some s
  | s, b :: rest => if fits cx s b then (add s b).bind fun o => deliverEach cx add o.state rest else none

theorem Delivery.deliverEach {cx : Context} {T : Block → Prop} {env : Env} {fuel : ℕ} (henv : Reliable cx T env)
    (hfuel : maxOrphanBlocks + 1 < fuel) {s' : NodeState} {delivered blocks : List Block}
    (h : Delivery cx T s delivered) (hT : ∀ b ∈ blocks, T b)
    (heach : deliverEach cx (addBlockFuel cx env fuel) s blocks = some s') :
    Delivery cx T s' (blocks.reverse ++ delivered) := by
  induction blocks generalizing s delivered with
  | nil =>
    obtain rfl := Option.some.inj heach
    exact h
  | cons b rest ih =>
    unfold Deliveries.deliverEach at heach
    obtain ⟨hb, hrest⟩ := List.forall_mem_cons.mp hT
    split at heach
    next hfits =>
      obtain ⟨o, ho, hleft⟩ := Option.bind_eq_some_iff.mp heach
      rw [List.reverse_cons, List.append_assoc]
      exact ih (h.add henv hb (Fits.of_fits hfits) hfuel ho) hrest hleft
    next => cases heach

/-- The tip of the longer branch comes first and waits; the shorter branch comes last and stays a
side chain. -/
theorem fork_delivered : ∃ s delivered, Delivery regtest forkBlocks s delivered ∧
      delivered = [firstBranch, secondBranch, secondTip] ∧ workValue s.chainwork = 6 ∧
      IsGreatest (deliveredWorks regtest forkBlocks delivered) (workValue s.chainwork) := by
  have hevaluated : ((nodeAfter regtest today 1 []).any fun s₀ =>
      (deliverEach regtest (addBlockFuel regtest today 102) s₀ [secondTip, secondBranch, firstBranch]).any
        fun s => decide (workValue s.chainwork = 6)) = true := by
    rw [← runRegtest_eq, ← runFirstBranch_eq, ← runSecondBranch_eq, ← runSecondTip_eq, ← runNodeAfter_eq,
      ← runAddBlockFuel_eq]
    decide +kernel
  obtain ⟨s₀, hs₀, hafter⟩ := Option.any_eq_true _ _ |>.mp hevaluated
  obtain ⟨s, hs, hwork⟩ := Option.any_eq_true _ _ |>.mp hafter
  have hstart : Delivery regtest forkBlocks s₀ [] := .fresh (nodeAfter_nil hs₀)
  have hdelivery := hstart.deliverEach today_reliable (by decide)
    (by simp [forkBlocks] : ∀ b ∈ [secondTip, secondBranch, firstBranch], forkBlocks b) hs
  exact ⟨s, _, hdelivery, rfl, of_decide_eq_true hwork, (delivery_heaviest forkTree forkBlocks_level rfl hdelivery).1⟩

/-- The second block of the longer branch is delivered before the first. The first is then kept on
a side chain, and the second stays in the pool; in the other order it becomes the tip. -/
theorem side_block_leaves_orphan :
    BlockTree regtest forkBlocks ∧ Level regtest forkBlocks ∧ Reliable regtest forkBlocks today ∧
      ∃ s s' k b, nodeAfter regtest today 102 [firstBranch, secondTip, secondBranch] = some s ∧
        nodeAfter regtest today 102 [firstBranch, secondBranch, secondTip] = some s' ∧
        workValue s.chainwork = 4 ∧ workValue s'.chainwork = 6 ∧
        s.orphanBlocks.lookup k = some b ∧ parentKnown s b.header.prevHash = true := by
  refine ⟨forkTree, forkBlocks_level, today_reliable, ?_⟩
  have hlate : ((nodeAfter regtest today 102 [firstBranch, secondTip, secondBranch]).any fun s =>
      decide (workValue s.chainwork = 4 ∧
        s.orphanBlocks.lookup (secondTip.hash Sha256.sha256) = some secondTip ∧
        parentKnown s secondTip.header.prevHash = true)) = true := by
    rw [← runRegtest_eq, ← runFirstBranch_eq, ← runSecondBranch_eq, ← runSecondTip_eq,
      ← Sha256.runSha256_eq, ← runNodeAfter_eq]
    decide +kernel
  have hearly : ((nodeAfter regtest today 102 [firstBranch, secondBranch, secondTip]).any fun s =>
      decide (workValue s.chainwork = 6)) = true := by
    rw [← runRegtest_eq, ← runFirstBranch_eq, ← runSecondBranch_eq, ← runSecondTip_eq,
      ← runNodeAfter_eq]
    decide +kernel
  obtain ⟨s, hs, hstate⟩ := Option.any_eq_true _ _ |>.mp hlate
  obtain ⟨s', hs', hstate'⟩ := Option.any_eq_true _ _ |>.mp hearly
  obtain ⟨hwork, hwaits, hknown⟩ := of_decide_eq_true hstate
  exact ⟨s, s', _, _, hs, hs', hwork, of_decide_eq_true hstate', hwaits, hknown⟩

end Forks

end KuberCoin.Deliveries
