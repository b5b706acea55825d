import KuberCoin.ChainInvariants

/-!
The work of a block and its ancestors.
A path is a list of known blocks, each on top of the next one, down to a block with the
genesis header. `WorkInv` says that the work table holds, for every block a node has, the
work of its path modulo 2^256, and that the chain's work is the entry of the tip.
-/
namespace KuberCoin.WorkPaths

open Bytes Maps Transactions Blocks UtxoSets Params Difficulty Validator Storage NodeStates
  NodeStates.NodeState AddBlock Frames BlockEffects StepCases Branches ChainInvariants

variable (cx : Context) (K : Block → Prop)

/-- A block with its ancestors down to genesis. -/
inductive Path : List Block → Prop where
  | genesis {b : Block} (hK : K b) (hheader : b.header = cx.genesis.header) : Path [b]
  | child {b parent : Block} {rest : List Block} (hK : K b) (hpath : Path (parent :: rest))
      (hprev : b.header.prevHash = parent.hash cx.sha256) : Path (b :: parent :: rest)

/-- The work of one block. -/
def blockWorkValue (b : Block) : ℕ := workValue (workFromCompact b.header.bits)

/-- The exact work of a list of blocks. -/
def pathWork (bs : List Block) : ℕ := (bs.map blockWorkValue).sum

variable {cx K}

theorem blockWorkValue_regtest {b : Block} (h : b.header.bits = 0x207fffff) : blockWorkValue b = 2 := by
  unfold blockWorkValue
  rw [h, ← Runs.runWork_eq]
  decide +kernel

theorem Path.known {bs : List Block} (h : Path cx K bs) : ∀ b ∈ bs, K b := by
  induction h with
  | genesis hK _ =>
    intro x hx
    rwa [List.mem_singleton.mp hx]
  | child hK _ _ ih =>
    rw [List.forall_mem_cons]
    exact ⟨hK, ih⟩

theorem Path.work_eq (hcf : CollisionFree cx K) {a b : Block} {as bs : List Block} (ha : Path cx K (a :: as))
    (hb : Path cx K (b :: bs)) (hheader : a.header = b.header) : pathWork (a :: as) = pathWork (b :: bs) := by
  have hone : blockWorkValue a = blockWorkValue b := by
    unfold blockWorkValue
    rw [hheader]
  -- a parent's hash is never the all-zero array that the genesis header names
  have hzero : ∀ {x p : Block}, K p → x.header = cx.genesis.header →
      x.header.prevHash ≠ p.hash cx.sha256 := by
    intro x p hp hx hprev
    rw [hx] at hprev
    exact hcf.ne_zero p hp hprev.symm
  generalize hpath : a :: as = path at ha
  induction ha generalizing a b as bs with
  | genesis hK hgenesis =>
    obtain ⟨rfl, rfl⟩ := List.cons.inj hpath
    cases hb with
    | genesis => simp [pathWork, hone]
    | child hKb hrest hprev =>
      exact absurd hprev (hzero (hrest.known _ (by simp)) (hheader.symm.trans hgenesis))
  | @child a parent rest hK hrest hprev ih =>
    obtain ⟨rfl, rfl⟩ := List.cons.inj hpath
    cases hb with
    | genesis hKb hgenesis =>
      exact absurd hprev (hzero (hrest.known _ (by simp)) (hheader.trans hgenesis))
    | @child _ parent' rest' hKb hrest' hprev' =>
      have hparents : parent.header = parent'.header := by
        apply hcf.header_eq _ _ (hrest.known _ (by simp)) (hrest'.known _ (by simp))
        rw [← hprev, ← hprev', hheader]
      have hbelow := ih hrest' hparents (by unfold blockWorkValue; rw [hparents]) rfl
      simp only [pathWork, List.map_cons, List.sum_cons] at hbelow ⊢
      omega

theorem Path.replace {a b : Block} {rest : List Block} (h : Path cx K (a :: rest)) (hb : K b)
    (hheader : b.header = a.header) : Path cx K (b :: rest) := by
  cases h with
  | genesis _ hgenesis => exact .genesis hb (hheader.trans hgenesis)
  | child _ hpath hprev => exact .child hb hpath (by rw [hheader]; exact hprev)

theorem pathWork_replace {a b : Block} {rest : List Block} (hheader : b.header = a.header) :
    pathWork (b :: rest) = pathWork (a :: rest) := by
  simp only [pathWork, List.map_cons, blockWorkValue, hheader]

variable (cx K) in
/-- An entry of the work table: the work of the path to the block with that hash. -/
def PathEntry (hash work : Bytes32) : Prop :=
  ∃ b rest, Path cx K (b :: rest) ∧ b.hash cx.sha256 = hash ∧
    workValue work = pathWork (b :: rest) % 2 ^ 256

theorem PathEntry.unique (hcf : CollisionFree cx K) {hash w w' : Bytes32} (h : PathEntry cx K hash w)
    (h' : PathEntry cx K hash w') : w = w' := by
  obtain ⟨a, as, ha, hhash, hw⟩ := h
  obtain ⟨b, bs, hb, hhash', hw'⟩ := h'
  apply workValue_injective
  have hheader := hcf.header_eq a b (ha.known _ (by simp)) (hb.known _ (by simp))
    (hhash.trans hhash'.symm)
  rw [hw, hw', ha.work_eq hcf hb hheader]

variable (cx K) in
/-- The work table of a node is right, and the chain's work is the tip's. -/
structure WorkInv (s : NodeState) : Prop where
  store : StoreInv cx K s
  entries : ∀ h w, s.blockWork.lookup h = some w → PathEntry cx K h w
  cached : ∀ h b, s.blocks.lookup h = some b → ∃ w, s.blockWork.lookup h = some w
  stored : ∀ h b, s.store.disk.blocks.lookup h = some b → ∃ w, s.blockWork.lookup h = some w
  tip : s.blockWork.lookup s.tip = some s.chainwork

theorem WorkInv.getBlock {s : NodeState} (h : WorkInv cx K s) {hash : Bytes32} {b : Block}
    (hb : s.getBlock hash = some b) : ∃ w, s.blockWork.lookup hash = some w := by
  unfold NodeState.getBlock at hb
  split at hb
  next x hx => exact h.cached hash x hx
  next => exact h.stored hash b hb

theorem WorkInv.cumulativeWork (hcf : CollisionFree cx K) {env : Env} {s : NodeState} {b : Block} (h : WorkInv cx K s)
    (hb : K b) (hadm : Admitted cx env s b) : PathEntry cx K (b.hash cx.sha256) (cumulativeWork s b) := by
  obtain ⟨hzero, -⟩ | ⟨-, p, hp, -⟩ := headerChecks_cases hadm.header
  · have hgenesis : b.header = cx.genesis.header := by
      rcases linked_of_admitted hcf h.store hb hadm with heq | ⟨p, hp, hhash, -⟩
      · exact heq
      · exact absurd (hhash.trans hzero) (hcf.ne_zero p hp)
    have hnone : s.blockWork.lookup Bytes32.zero = none := by
      cases hlook : s.blockWork.lookup Bytes32.zero with
      | none => rfl
      | some w =>
        obtain ⟨p, rest, hp, hhash, -⟩ := h.entries _ _ hlook
        exact absurd hhash (hcf.ne_zero p (hp.known _ (by simp)))
    refine ⟨b, [], .genesis hb hgenesis, rfl, ?_⟩
    unfold AddBlock.cumulativeWork
    rw [hzero, hnone, Option.getD_none, workValue_addWork, workValue_zero, Nat.zero_add]
    simp [pathWork, blockWorkValue]
  · obtain ⟨w, hw⟩ := h.getBlock hp
    obtain ⟨q, rest, hpath, hhash, hvalue⟩ := h.entries _ _ hw
    refine ⟨b, q :: rest, .child hb hpath hhash.symm, rfl, ?_⟩
    unfold AddBlock.cumulativeWork
    rw [hw, Option.getD_some, workValue_addWork, hvalue]
    have hsum : pathWork (b :: q :: rest) =
        pathWork (q :: rest) + workValue (workFromCompact b.header.bits) := by
      simp only [pathWork, List.map_cons, List.sum_cons, blockWorkValue]
      omega
    rw [hsum, Nat.mod_add_mod]

section Steps

variable {s s' : NodeState} {m : Map Bytes32 Bytes32} {hash work : Bytes32} {b : Block} {env : Env}

theorem WorkInv.congr (h : WorkInv cx K s) (hf : ConnectFrame s s') : WorkInv cx K s' := by
  refine ⟨⟨?_, ?_, ?_⟩, ?_, ?_, ?_, ?_⟩
  · rw [hf.blocks]
    exact h.store.cached
  · rw [hf.diskBlocks]
    exact h.store.stored
  · rw [hf.orphanBlocks]
    exact h.store.orphans
  · rw [hf.blockWork]
    exact h.entries
  · rw [hf.blocks, hf.blockWork]
    exact h.cached
  · rw [hf.diskBlocks, hf.blockWork]
    exact h.stored
  · rw [hf.blockWork, hf.tip, hf.chainwork]
    exact h.tip

theorem entries_insert (h : ∀ k w, m.lookup k = some w → PathEntry cx K k w) (hentry : PathEntry cx K hash work) :
    ∀ k w, (m.insert hash work).lookup k = some w → PathEntry cx K k w := by
  intro k w hk
  rw [lookup_insert_eq] at hk
  split at hk
  · rename_i heq
    rw [heq, ← Option.some.inj hk]
    exact hentry
  · exact h k w hk

theorem covered_insert {blocks blocks' : Map Bytes32 Block}
    (h : ∀ k x, blocks.lookup k = some x → ∃ w, m.lookup k = some w)
    (hblocks : Shrinks (blocks.insert hash b) blocks') :
    ∀ k x, blocks'.lookup k = some x → ∃ w, (m.insert hash work).lookup k = some w := by
  intro k x hk
  have hk' := hblocks k x hk
  rw [lookup_insert_eq] at hk' ⊢
  by_cases heq : k = hash
  · exact ⟨work, if_pos heq⟩
  · rw [if_neg heq] at hk' ⊢
    exact h k x hk'

theorem genesis_entry (hcf : CollisionFree cx K) : PathEntry cx K cx.genesisHash cx.genesisWork := by
  refine ⟨cx.genesis, [], .genesis hcf.genesis rfl, rfl, ?_⟩
  have hsmall : workValue cx.genesisWork < 2 ^ 256 := workValue_lt _
  simp only [pathWork, List.map_cons, List.map_nil, List.sum_cons, List.sum_nil, Nat.add_zero]
  exact (Nat.mod_eq_of_lt hsmall).symm

theorem WorkInv.fresh (hcf : CollisionFree cx K) (h : FreshNode cx s) : WorkInv cx K s := by
  have hone : ∀ k (x : Block), ((∅ : Map Bytes32 Block).insert cx.genesisHash cx.genesis).lookup k =
      some x → ∃ w, s.blockWork.lookup k = some w := by
    intro k x hk
    rw [h.blockWork]
    rw [lookup_insert_eq] at hk ⊢
    split at hk
    · rename_i heq
      exact ⟨_, if_pos heq⟩
    · simp at hk
  refine ⟨(NodeInv.fresh hcf h).store, ?_, ?_, ?_, ?_⟩
  · rw [h.blockWork]
    refine entries_insert ?_ (genesis_entry hcf)
    intro k w hk
    simp at hk
  · exact fun k x hk => hone k x (h.cached k x hk)
  · rw [h.diskBlocks]
    exact hone
  · rw [h.blockWork, h.tip, h.chainwork]
    exact Finmap.lookup_insert _

theorem WorkInv.extended (hcf : CollisionFree cx K) {undo : BlockUndoData} (h : WorkInv cx K s) (hb : K b)
    (hadm : Admitted cx env s b) (hext : Extended cx s b undo s') : WorkInv cx K s' := by
  refine ⟨h.store.extended hcf hb hadm hext, ?_, ?_, ?_, ?_⟩
  · rw [hext.blockWork]
    exact entries_insert h.entries (h.cumulativeWork hcf hb hadm)
  · rw [hext.blockWork]
    exact covered_insert h.cached hext.cached
  · rw [hext.blockWork]
    exact covered_insert h.stored hext.stored
  · rw [hext.blockWork, hext.tip, hext.chainwork]
    exact Finmap.lookup_insert _

theorem WorkInv.sideStored (hcf : CollisionFree cx K) (h : WorkInv cx K s) (hb : K b) (hadm : Admitted cx env s b)
    (hside : SideStored cx s b s') : WorkInv cx K s' := by
  have hentry := h.cumulativeWork hcf hb hadm
  refine ⟨h.store.sideStored hcf hb hadm hside, ?_, ?_, ?_, ?_⟩
  · rw [hside.blockWork]
    exact entries_insert h.entries hentry
  · rw [hside.blockWork]
    exact covered_insert h.cached hside.cached
  · rw [hside.blockWork, hside.diskBlocks]
    exact covered_insert h.stored (Shrinks.refl _)
  · rw [hside.blockWork, hside.tip, hside.chainwork, lookup_insert_eq]
    split
    · rename_i heq
      have hold := h.entries _ _ h.tip
      rw [heq] at hold
      rw [hentry.unique hcf hold]
    · exact h.tip

theorem WorkInv.reorganized {env : Env} {s s₁ s₂ s' : NodeState} {b : Block} {disconnect connect : List Bytes32}
    (h : WorkInv cx K s) (hreorg : Reorganized cx env s b disconnect connect s₁ s₂ s')
    (hwork : s.blockWork.lookup (b.hash cx.sha256) = some s'.chainwork) : WorkInv cx K s' := by
  have hframe : ConnectFrame s s₂ := by
    have hconnect := @connectBlocks_frame cx env s₁ connect
    rw [hreorg.reconnected] at hconnect
    rw [disconnectBlocks_eq hreorg.disconnected] at hconnect
    exact (ConnectFrame.utxoSet s _).trans hconnect
  have h₂ := h.congr hframe
  refine ⟨⟨?_, ?_, ?_⟩, ?_, ?_, ?_, ?_⟩
  · exact WellPlaced.shrinks h₂.store.cached hreorg.cached
  · exact WellPlaced.shrinks h₂.store.stored hreorg.stored
  · rw [hreorg.orphanBlocks]
    exact h₂.store.orphans
  · rw [hreorg.blockWork]
    exact h₂.entries
  · intro k x hk
    rw [hreorg.blockWork]
    exact h₂.cached k x (hreorg.cached k x hk)
  · intro k x hk
    rw [hreorg.blockWork]
    exact h₂.stored k x (hreorg.stored k x hk)
  · rw [hreorg.blockWork, hframe.blockWork, hreorg.tip]
    exact hwork

theorem WorkInv.orphans (h : WorkInv cx K s) {pool : Map Bytes32 Block} {children : Map Bytes32 (List Bytes32)}
    (hpool : ∀ k b, pool.lookup k = some b → K b) :
    WorkInv cx K { s with orphanBlocks := pool, orphansByParent := children } :=
  ⟨⟨h.store.cached, h.store.stored, hpool⟩, h.entries, h.cached, h.stored, h.tip⟩

/-- Every call keeps the work table right when no write fails, and every call that succeeds
does. -/
theorem WorkInv.step (hcf : CollisionFree cx K) {env : Env} {s : NodeState} {b : Block} (h : WorkInv cx K s) (hb : K b)
    (hwrites : (∀ log ops, env.writeOk log ops = true) ∨ ∃ x, (addBlockStep cx env s b).1 = .ok x) :
    WorkInv cx K (addBlockStep cx env s b).2 := by
  have hcases := @addBlockStep_cases cx env s b
  generalize (addBlockStep cx env s b).1 = r at hcases hwrites
  generalize (addBlockStep cx env s b).2 = s' at hcases
  cases hcases with
  | rejected => exact h
  | orphaned =>
    obtain ⟨pool, children, heq, hpool⟩ := addOrphan_eq env s (b.hash cx.sha256) b
    rw [heq]
    apply h.orphans
    intro k x hx
    have hx' := hpool k x hx
    rw [lookup_insert_eq] at hx'
    split at hx'
    · rwa [← Option.some.inj hx']
    · exact h.store.orphans k x hx'
  | extended hadm _ hext => exact h.extended hcf hb hadm hext
  | stored hadm _ hside _ => exact h.sideStored hcf hb hadm hside
  | reorganized hadm _ hside _ hreorg hwork =>
    apply (h.sideStored hcf hb hadm hside).reorganized hreorg
    rw [hside.blockWork, hwork]
    exact Finmap.lookup_insert _
  | broken e s' hnot hpart =>
    rcases hwrites with hwrites | ⟨x, hx⟩
    · rcases hpart hwrites with ⟨u, rfl⟩ | ⟨s₁, u, hashes, hadm, hside, rfl⟩
      · exact h.congr (ConnectFrame.utxoSet s u)
      · exact (h.sideStored hcf hb hadm hside).congr
          ((ConnectFrame.utxoSet s₁ u).trans (connectBlocks_frame _ hashes))
    · simp at hx

/-- The chain's work never falls, as long as a block on the tip does not push it over the range
of a work value. -/
theorem WorkInv.chainwork_le (h : WorkInv cx K s)
    (hwrites : (∀ log ops, env.writeOk log ops = true) ∨ ∃ x, (addBlockStep cx env s b).1 = .ok x)
    (hrange : b.header.prevHash = s.tip → workValue s.chainwork + blockWorkValue b < 2 ^ 256) :
    workValue s.chainwork ≤ workValue (addBlockStep cx env s b).2.chainwork := by
  have hcases := @addBlockStep_cases cx env s b
  generalize (addBlockStep cx env s b).1 = r at hcases hwrites
  generalize (addBlockStep cx env s b).2 = s' at hcases
  cases hcases with
  | rejected => exact le_rfl
  | orphaned =>
    obtain ⟨pool, children, heq, -⟩ := addOrphan_eq env s (b.hash cx.sha256) b
    rw [heq]
  | extended hadm htip hext =>
    have hlt := hrange htip
    unfold blockWorkValue at hlt
    rw [hext.chainwork]
    unfold AddBlock.cumulativeWork
    rw [htip, h.tip, Option.getD_some, workValue_addWork, Nat.mod_eq_of_lt hlt]
    omega
  | stored _ _ hside _ => rw [hside.chainwork]
  | reorganized _ _ _ hmore _ hwork =>
    rw [hwork]
    exact le_of_lt ((compareWork_eq_gt_iff _ _).mp hmore)
  | broken e s' hnot hpart =>
    rcases hwrites with hwrites | ⟨x, hx⟩
    · rcases hpart hwrites with ⟨u, rfl⟩ | ⟨s₁, u, hashes, hadm, hside, rfl⟩
      · exact le_rfl
      · rw [(connectBlocks_frame _ hashes).chainwork]
        change _ ≤ workValue s₁.chainwork
        rw [hside.chainwork]
    · simp at hx

end Steps

end KuberCoin.WorkPaths
