import KuberCoin.Branches

/-!
The invariant of a node: its tip, height, height map and UTXO set describe one valid
branch, and the undo records it holds for the blocks of that branch roll them back.
Every call that succeeds or runs through keeps it, extensions and switches alike.
-/
namespace KuberCoin.ChainInvariants

open Bytes Maps Transactions Blocks UtxoSets Params Difficulty Validator Storage NodeStates
  NodeStates.NodeState AddBlock Frames BlockEffects StepCases Branches

variable (cx : Context) (K : Block → Prop)

/-- The undo records of a branch are those of its blocks. -/
def UndoRight (undo : Map Bytes32 BlockUndoData) (bs : List Block) : Prop :=
  ∀ pre b parent rest, bs = pre ++ b :: parent :: rest →
    ∀ r, undo.lookup (b.hash cx.sha256) = some r →
      ∃ u u', ValidBranch cx (parent :: rest) u ∧ applyBlockWithUndo cx.sha256 u b = (.ok r, u')

/-- The node's chain is the branch `bs`. -/
structure ChainInv (s : NodeState) (bs : List Block) : Prop where
  branch : ValidBranch cx bs s.utxoSet
  known : ∀ b ∈ bs, K b
  tip : (hashes cx bs).head? = some s.tip
  height : bs.length = s.height + 1
  heightMap : ∀ i, s.heightMap.lookup i = (hashes cx bs).reverse[i]?
  undo : UndoRight cx s.store.disk.undo bs
  connected : ∀ b ∈ bs, s.connected.lookup (b.hash cx.sha256) = some b

/-- The blocks a node holds are known blocks in their place. -/
structure StoreInv (s : NodeState) : Prop where
  cached : WellPlaced cx K fun h => s.blocks.lookup h
  stored : WellPlaced cx K fun h => s.store.disk.blocks.lookup h
  orphans : ∀ h b, s.orphanBlocks.lookup h = some b → K b

variable {cx K}

section Frames

variable {m : Map Bytes32 Block} {b : Block} {s s' : NodeState} {bs : List Block} {undo : Map Bytes32 BlockUndoData}

theorem WellPlaced.shrinks {m' : Map Bytes32 Block} (h : WellPlaced cx K fun k => m.lookup k) (hm : Shrinks m m') :
    WellPlaced cx K fun k => m'.lookup k :=
  fun k b hb => h k b (hm k b hb)

theorem WellPlaced.insert (h : WellPlaced cx K fun k => m.lookup k) (hb : K b) (hlinked : Linked cx K b) :
    WellPlaced cx K fun k => (m.insert (b.hash cx.sha256) b).lookup k := by
  intro k x hx
  simp only [lookup_insert_eq] at hx
  split at hx
  next heq =>
    obtain rfl := Option.some.inj hx
    exact ⟨heq.symm, hb, hlinked⟩
  next => exact h k x hx

theorem StoreInv.getBlock (h : StoreInv cx K s) : WellPlaced cx K s.getBlock := by
  intro k b hb
  unfold NodeState.getBlock at hb
  split at hb
  next x hx =>
    obtain rfl := Option.some.inj hb
    exact h.cached k x hx
  next => exact h.stored k b hb

theorem StoreInv.frame (h : StoreInv cx K s) (hf : Frame s s') : StoreInv cx K s' where
  cached := WellPlaced.shrinks h.cached hf.cached
  stored := WellPlaced.shrinks h.stored hf.stored
  orphans := by
    rw [hf.orphanBlocks]
    exact h.orphans

theorem ChainInv.frame (h : ChainInv cx K s bs) (hf : Frame s s') : ChainInv cx K s' bs where
  branch := by
    rw [hf.utxoSet]
    exact h.branch
  known := h.known
  tip := by
    rw [hf.tip]
    exact h.tip
  height := by
    rw [hf.height]
    exact h.height
  heightMap := by
    rw [hf.heightMap]
    exact h.heightMap
  undo := by
    rw [hf.undo]
    exact h.undo
  connected := by
    rw [hf.connected]
    exact h.connected

theorem ChainInv.block_at (h : ChainInv cx K s bs) {i : ℕ} {k : Bytes32} (hk : s.heightMap.lookup i = some k) :
    ∃ x, bs.reverse[i]? = some x ∧ x.hash cx.sha256 = k := by
  rw [h.heightMap, hashes, ← List.map_reverse, List.getElem?_map, Option.map_eq_some_iff] at hk
  exact hk

theorem UndoRight.suffix {undo : Map Bytes32 BlockUndoData} {pre bs : List Block} (h : UndoRight cx undo (pre ++ bs)) :
    UndoRight cx undo bs := by
  intro pre' b parent rest hbs r hr
  exact h (pre ++ pre') b parent rest (by rw [hbs, List.append_assoc]) r hr

theorem UndoRight.shrinks {undo' : Map Bytes32 BlockUndoData} (h : UndoRight cx undo bs) (hs : Shrinks undo undo') :
    UndoRight cx undo' bs := by
  intro pre b parent rest hbs r hr
  exact h pre b parent rest hbs r (hs _ _ hr)

theorem UndoRight.insert (hcf : CollisionFree cx K) {parent : Block} {rest : List Block} {u u' : UtxoSet}
    {r : BlockUndoData} (h : UndoRight cx undo (parent :: rest)) (hbranch : ValidBranch cx (parent :: rest) u)
    (hfull : ValidBranch cx (b :: parent :: rest) u') (hknown : ∀ x ∈ b :: parent :: rest, K x)
    (happly : applyBlockWithUndo cx.sha256 u b = (.ok r, u')) :
    UndoRight cx (undo.insert (b.hash cx.sha256) r) (b :: parent :: rest) := by
  intro pre x p rest' hbs r' hr'
  rw [lookup_insert_eq] at hr'
  cases pre with
  | nil =>
    obtain ⟨rfl, heq⟩ := List.cons.inj hbs
    obtain ⟨rfl, rfl⟩ := List.cons.inj heq
    rw [if_pos rfl] at hr'
    obtain rfl := Option.some.inj hr'
    exact ⟨u, u', hbranch, happly⟩
  | cons a pre =>
    obtain ⟨rfl, heq⟩ := List.cons.inj hbs
    have hx : x ∈ parent :: rest := by
      rw [heq]
      simp
    rw [if_neg (hfull.head_notMem hcf hknown hx)] at hr'
    exact h pre x p rest' heq r' hr'

end Frames

section Linking

theorem linked_of_admitted (hcf : CollisionFree cx K) {env : Env} {s : NodeState} {b : Block} (hstore : StoreInv cx K s)
    (hb : K b) (hadm : Admitted cx env s b) : Linked cx K b := by
  obtain ⟨-, hheight, -⟩ | ⟨-, p, hp, hheight, -⟩ := headerChecks_cases hadm.header
  · exact Or.inl (hcf.header_eq b cx.genesis hb hcf.genesis (earlyChecks_genesis hadm.early hheight))
  · obtain ⟨hhash, hK, -⟩ := hstore.getBlock _ _ hp
    exact Or.inr ⟨p, hK, hhash, hheight⟩

theorem linked_height (hcf : CollisionFree cx K) {b parent : Block} (h : Linked cx K b) (hparent : K parent)
    (hprev : b.header.prevHash = parent.hash cx.sha256) : b.header.height = parent.header.height + 1 := by
  rcases h with hgenesis | ⟨p, hK, hhash, hheight⟩
  · have hzero : b.header.prevHash = Bytes32.zero := by
      rw [hgenesis]
      rfl
    exact absurd (hprev.symm.trans hzero) (hcf.ne_zero parent hparent)
  · rw [hheight, hcf.header_eq p parent hK hparent (hhash.trans hprev)]

end Linking

section Extension

variable {b : Block} {bs : List Block} {i : ℕ} {env : Env} {s s' : NodeState} {undo : BlockUndoData}

theorem hashes_reverse_cons (b : Block) (bs : List Block) :
    (hashes cx (b :: bs)).reverse = (hashes cx bs).reverse ++ [b.hash cx.sha256] := by
  simp [hashes]

theorem hashes_length (bs : List Block) : (hashes cx bs).length = bs.length := by
  simp [hashes]

theorem lookup_heightMap_insert {m : Map ℕ Bytes32} (h : ∀ i < bs.length, m.lookup i = (hashes cx bs).reverse[i]?)
    (hi : i < bs.length + 1) :
    (m.insert bs.length (b.hash cx.sha256)).lookup i = (hashes cx (b :: bs)).reverse[i]? := by
  rw [lookup_insert_eq, hashes_reverse_cons, List.getElem?_append, List.length_reverse, hashes_length]
  by_cases heq : i = bs.length
  · subst heq
    simp
  · rw [if_neg heq, if_pos (by omega), h i (by omega)]

theorem connected_insert (hcf : CollisionFree cx K) {m : Map Bytes32 Block} {u : UtxoSet}
    (h : ∀ x ∈ bs, m.lookup (x.hash cx.sha256) = some x) (hbranch : ValidBranch cx (b :: bs) u)
    (hknown : ∀ x ∈ b :: bs, K x) :
    ∀ x ∈ b :: bs, (m.insert (b.hash cx.sha256) b).lookup (x.hash cx.sha256) = some x := by
  intro x hx
  rw [lookup_insert_eq]
  rcases List.mem_cons.mp hx with rfl | hx
  · rw [if_pos rfl]
  · rw [if_neg (hbranch.head_notMem hcf hknown hx)]
    exact h x hx

theorem getElem?_hashes_eq_none (h : bs.length ≤ i) : (hashes cx bs).reverse[i]? = none := by
  apply List.getElem?_eq_none
  rw [List.length_reverse, hashes_length]
  exact h

theorem ChainInv.extended (hcf : CollisionFree cx K) (h : ChainInv cx K s bs) (hstore : StoreInv cx K s) (hb : K b)
    (hadm : Admitted cx env s b) (htip : b.header.prevHash = s.tip) (hext : Extended cx s b undo s') :
    ChainInv cx K s' (b :: bs) := by
  obtain ⟨parent, rest, rfl⟩ := h.branch.exists_cons
  have hprev : b.header.prevHash = parent.hash cx.sha256 := by
    have := h.tip
    simp only [hashes, List.map_cons, List.head?_cons, Option.some.injEq] at this
    rw [htip, this]
  have hparent : K parent := h.known parent (by simp)
  have hheight := linked_height hcf (linked_of_admitted hcf hstore hb hadm) hparent hprev
  have hlevel : b.header.height = (parent :: rest).length := by
    rw [hheight, h.branch.height_eq, List.length_cons]
  obtain ⟨clock, hvalid⟩ := hext.validated
  have hbranch : ValidBranch cx (b :: parent :: rest) s'.utxoSet :=
    .extend h.branch hprev hheight hvalid hext.applied
  have hknown : ∀ x ∈ b :: parent :: rest, K x := by
    rw [List.forall_mem_cons]
    exact ⟨hb, h.known⟩
  refine ⟨hbranch, hknown, ?_, ?_, ?_, ?_, ?_⟩
  · rw [hext.tip]
    rfl
  · rw [hext.height, hlevel]
    rfl
  · intro i
    rw [hext.heightMap, hlevel]
    by_cases hi : i < (parent :: rest).length + 1
    · exact lookup_heightMap_insert (fun j _ => h.heightMap j) hi
    · rw [lookup_insert_eq, if_neg (by omega), h.heightMap, getElem?_hashes_eq_none (by omega),
        getElem?_hashes_eq_none (by rw [List.length_cons]; omega)]
  · rw [hext.undo]
    exact (h.undo.insert hcf h.branch hbranch hknown hext.applied).shrinks (shrinks_eraseAll _ _)
  · rw [hext.connected]
    exact connected_insert hcf h.connected hbranch hknown

theorem StoreInv.extended (hcf : CollisionFree cx K) (h : StoreInv cx K s) (hb : K b) (hadm : Admitted cx env s b)
    (hext : Extended cx s b undo s') : StoreInv cx K s' := by
  have hlinked := linked_of_admitted hcf h hb hadm
  refine ⟨?_, ?_, ?_⟩
  · exact WellPlaced.shrinks (WellPlaced.insert h.cached hb hlinked) hext.cached
  · exact WellPlaced.shrinks (WellPlaced.insert h.stored hb hlinked) hext.stored
  · rw [hext.orphanBlocks]
    exact h.orphans

theorem StoreInv.sideStored (hcf : CollisionFree cx K) (h : StoreInv cx K s) (hb : K b) (hadm : Admitted cx env s b)
    (hside : SideStored cx s b s') : StoreInv cx K s' := by
  have hlinked := linked_of_admitted hcf h hb hadm
  refine ⟨?_, ?_, ?_⟩
  · exact WellPlaced.shrinks (WellPlaced.insert h.cached hb hlinked) hside.cached
  · rw [hside.diskBlocks]
    exact WellPlaced.insert h.stored hb hlinked
  · rw [hside.orphanBlocks]
    exact h.orphans

theorem ChainInv.sideStored (h : ChainInv cx K s bs) (hside : SideStored cx s b s') : ChainInv cx K s' bs where
  branch := by
    rw [hside.utxoSet]
    exact h.branch
  known := h.known
  tip := by
    rw [hside.tip]
    exact h.tip
  height := by
    rw [hside.height]
    exact h.height
  heightMap := by
    rw [hside.heightMap]
    exact h.heightMap
  undo := by
    rw [hside.undo]
    exact h.undo
  connected := by
    rw [hside.connected]
    exact h.connected

end Extension

section Disconnecting

theorem disconnectBlocks_branch {s s' : NodeState} {old common : List Block} {f : Block}
    (hbranch : ValidBranch cx (old ++ f :: common) s.utxoSet)
    (hundo : UndoRight cx s.store.disk.undo (old ++ f :: common))
    (h : disconnectBlocks s (hashes cx old) = (.ok (), s')) : ValidBranch cx (f :: common) s'.utxoSet := by
  induction old generalizing s with
  | nil =>
    simp only [hashes, List.map_nil, disconnectBlocks, Prod.mk.injEq] at h
    rw [← h.2]
    exact hbranch
  | cons b old ih =>
    obtain ⟨parent, rest, hrest⟩ : ∃ parent rest, old ++ f :: common = parent :: rest := by
      cases old with
      | nil => exact ⟨_, _, rfl⟩
      | cons p old => exact ⟨_, _, rfl⟩
    simp only [hashes, List.map_cons] at h
    unfold disconnectBlocks at h
    split at h
    next => simp at h
    next r hr =>
      rw [List.cons_append, hrest] at hbranch hundo
      obtain ⟨u, u', hlow, happly⟩ := hundo [] b parent rest rfl r hr
      obtain ⟨u₀, -, -, undo, hlow', -, -, happly'⟩ := hbranch.tail
      obtain rfl := hlow.unique hlow'
      rw [happly] at happly'
      obtain ⟨-, rfl⟩ := Prod.mk.inj happly'
      have hback := disconnectBlock_applyBlockWithUndo cx.sha256 happly
      rw [hback] at h
      refine ih ?_ ?_ h
      · rw [hrest]
        exact hlow
      · rw [hrest]
        exact @UndoRight.suffix cx _ [b] _ hundo

end Disconnecting

section Connecting

variable {env : Env} {s s' : NodeState}

theorem connectBlock_ok {hash : Bytes32} (h : connectBlock cx env s hash = (.ok (), s')) :
    ∃ b undo u, s.getBlock hash = some b ∧
      validateBlockCached cx.sha256 cx.checks (env.now hash) b s.utxoSet (some s.getMtp) = .ok () ∧
      applyBlockWithUndo cx.sha256 s.utxoSet b = (.ok undo, u) ∧
      s' = { s with
        utxoSet := u
        store := s.store.perform [.putUndo hash undo]
        heightMap := s.heightMap.insert b.header.height hash
        connected := s.connected.insert hash b } := by
  unfold connectBlock at h
  split at h
  next => simp at h
  next b hb =>
    split at h
    next => simp at h
    next hvalid =>
      split at h
      next => simp at h
      next undo u happly =>
        split at h
        next => simp at h
        next s₁ hw =>
          obtain rfl := write_eq_some hw
          simp only [Prod.mk.injEq, true_and] at h
          exact ⟨b, undo, u, hb, hvalid, happly, h.symm⟩

theorem connectBlocks_append {xs ys : List Bytes32} (h : connectBlocks cx env s (xs ++ ys) = (.ok (), s')) :
    ∃ s₁, connectBlocks cx env s xs = (.ok (), s₁) ∧ connectBlocks cx env s₁ ys = (.ok (), s') := by
  induction xs generalizing s with
  | nil => exact ⟨s, rfl, h⟩
  | cons x xs ih =>
    rw [List.cons_append, connectBlocks] at h
    split at h
    next => simp at h
    next s₁ hs₁ =>
      obtain ⟨s₂, hxs, hys⟩ := ih h
      refine ⟨s₂, ?_, hys⟩
      simp only [connectBlocks, hs₁, hxs]

variable (cx K) in
/-- What a chain switch keeps while it connects blocks: the branch connected so far, the
heights on it, and nothing above the higher of the two chains. -/
structure Connecting (s₀ s : NodeState) (top : ℕ) (bs : List Block) : Prop where
  branch : ValidBranch cx bs s.utxoSet
  known : ∀ b ∈ bs, K b
  low : ∀ i < bs.length, s.heightMap.lookup i = (hashes cx bs).reverse[i]?
  high : ∀ i, top ≤ i → bs.length ≤ i → s.heightMap.lookup i = none
  undo : UndoRight cx s.store.disk.undo bs
  connected : ∀ b ∈ bs, s.connected.lookup (b.hash cx.sha256) = some b
  getBlock : s.getBlock = s₀.getBlock
  blocks : s.blocks = s₀.blocks
  diskBlocks : s.store.disk.blocks = s₀.store.disk.blocks
  orphanBlocks : s.orphanBlocks = s₀.orphanBlocks
  orphansByParent : s.orphansByParent = s₀.orphansByParent
  blockWork : s.blockWork = s₀.blockWork
  height : s.height = s₀.height
  record : chainRecord s.store.disk = chainRecord s₀.store.disk

theorem Connecting.trace (hcf : CollisionFree cx K) {s₀ : NodeState} {top : ℕ} {f : Block} {common : List Block}
    (hget : WellPlaced cx K s₀.getBlock) (h : Connecting cx K s₀ s top (f :: common)) {cursor : Bytes32}
    {trace : List Bytes32} (htrace : Traced s₀.getBlock (f.hash cx.sha256) cursor trace)
    (hconnect : connectBlocks cx env s trace.reverse = (.ok (), s')) :
    ∃ new t rest, new ++ f :: common = t :: rest ∧ t.hash cx.sha256 = cursor ∧
      hashes cx new = trace ∧ Connecting cx K s₀ s' top (t :: rest) := by
  induction htrace generalizing s' with
  | done =>
    simp only [List.reverse_nil, connectBlocks, Prod.mk.injEq, true_and] at hconnect
    subst hconnect
    exact ⟨[], f, common, rfl, rfl, rfl, h⟩
  | @step cursor b trace hb htrace ih =>
    rw [List.reverse_cons] at hconnect
    obtain ⟨s₁, hbelow, hlast⟩ := connectBlocks_append hconnect
    obtain ⟨new, t, rest, hnew, ht, htrace', h₁⟩ := ih hbelow
    unfold connectBlocks at hlast
    split at hlast
    next => simp at hlast
    next s₂ hs₂ =>
      simp only [connectBlocks, Prod.mk.injEq, true_and] at hlast
      subst hlast
      obtain ⟨b', undo, u, hb', hvalid, happly, rfl⟩ := connectBlock_ok hs₂
      rw [h₁.getBlock, hb] at hb'
      obtain rfl := Option.some.inj hb'
      obtain ⟨hhash, hK, hlinked⟩ := hget _ _ hb
      have hparent : K t := h₁.known t (by simp)
      have hheight := linked_height hcf hlinked hparent ht.symm
      have hlevel : b.header.height = (t :: rest).length := by
        rw [hheight, h₁.branch.height_eq, List.length_cons]
      have hbranch : ValidBranch cx (b :: t :: rest) u :=
        .extend h₁.branch ht.symm hheight hvalid happly
      have hknown : ∀ x ∈ b :: t :: rest, K x := by
        rw [List.forall_mem_cons]
        exact ⟨hK, h₁.known⟩
      refine ⟨b :: new, b, t :: rest, by rw [← hnew]; rfl, hhash, ?_, ?_⟩
      · rw [← htrace', ← hhash]
        rfl
      refine
        { branch := hbranch
          known := hknown
          low := ?_
          high := ?_
          undo := ?_
          connected := ?_
          getBlock := h₁.getBlock
          blocks := h₁.blocks
          diskBlocks := h₁.diskBlocks
          orphanBlocks := h₁.orphanBlocks
          orphansByParent := h₁.orphansByParent
          blockWork := h₁.blockWork
          height := h₁.height
          record := h₁.record }
      · intro i hi
        simp only [hlevel]
        rw [← hhash]
        exact lookup_heightMap_insert h₁.low hi
      · intro i htop hi
        simp only [hlevel]
        rw [List.length_cons] at hi
        rw [lookup_insert_eq, if_neg (by omega)]
        exact h₁.high i htop (by omega)
      · have := h₁.undo.insert hcf h₁.branch hbranch hknown happly
        rw [hhash] at this
        exact this
      · have := connected_insert hcf h₁.connected hbranch hknown
        rw [hhash] at this
        exact this

end Connecting

section Switching

theorem ChainInv.reorganized (hcf : CollisionFree cx K) {env : Env} {s s₁ s₂ s' : NodeState} {b : Block}
    {bs : List Block} {disconnect connect : List Bytes32} (h : ChainInv cx K s bs) (hstore : StoreInv cx K s) (hb : K b)
    (hreorg : Reorganized cx env s b disconnect connect s₁ s₂ s') :
    ∃ old f common new, bs = old ++ f :: common ∧ disconnect = hashes cx old ∧
      connect = (hashes cx new).reverse ∧ ChainInv cx K s' (new ++ f :: common) ∧
      Connecting cx K s s₂ bs.length (new ++ f :: common) := by
  obtain ⟨t₀, rest₀, rfl⟩ := h.branch.exists_cons
  have htip : t₀.hash cx.sha256 = s.tip := by
    have := h.tip
    simpa only [hashes, List.map_cons, List.head?_cons, Option.some.injEq] using this
  have hfork := hreorg.fork
  unfold forkOf at hfork
  rw [← htip] at hfork
  obtain ⟨old, f, common, trace, hsplit, rfl, rfl, htraced⟩ :=
    findForkBlocks_ok hcf hstore.getBlock h.branch h.known hfork
  have hsame := disconnectBlocks_eq hreorg.disconnected
  have hlow : ValidBranch cx (f :: common) s₁.utxoSet := by
    apply disconnectBlocks_branch _ _ hreorg.disconnected
    · rw [← hsplit]
      exact h.branch
    · rw [← hsplit]
      exact h.undo
  have hstart : Connecting cx K s s₁ (t₀ :: rest₀).length (f :: common) := by
    rw [hsame]
    have hsub : ∀ x ∈ f :: common, x ∈ t₀ :: rest₀ := by
      intro x hx
      rw [hsplit]
      exact List.mem_append_right _ hx
    refine ⟨hlow, ?_, ?_, ?_, ?_, ?_, rfl, rfl, rfl, rfl, rfl, rfl, rfl, rfl⟩
    · exact fun x hx => h.known x (hsub x hx)
    · intro i hi
      rw [h.heightMap, hsplit]
      simp only [hashes, List.map_append, List.reverse_append]
      rw [List.getElem?_append_left (by simpa using hi)]
    · intro i htop _
      rw [h.heightMap, getElem?_hashes_eq_none htop]
    · have hundo := h.undo
      rw [hsplit] at hundo
      exact hundo.suffix
    · exact fun x hx => h.connected x (hsub x hx)
  obtain ⟨new, t, rest, hnew, ht, htrace, hend⟩ := hstart.trace hcf hstore.getBlock htraced hreorg.reconnected
  have hKt : K t := hend.known t (by simp)
  have hlevel : b.header.height = rest.length := by
    rw [← hend.branch.height_eq, hcf.header_eq b t hb hKt ht.symm]
  refine ⟨old, f, common, new, hsplit, rfl, by rw [htrace], ?_, by rw [hnew]; exact hend⟩
  rw [hnew]
  refine ⟨?_, hend.known, ?_, ?_, ?_, ?_, ?_⟩
  · rw [hreorg.utxoSet]
    exact hend.branch
  · rw [hreorg.tip, ← ht]
    rfl
  · rw [hreorg.height, hlevel]
    rfl
  · intro i
    have hheight := h.height
    have hrange : i ∈ List.range' (rest.length + 1) (s.height - rest.length) ↔
        rest.length + 1 ≤ i ∧ i < rest.length + 1 + (s.height - rest.length) := List.mem_range'_1
    rw [hreorg.heightMap, lookup_eraseAll, hend.height, hlevel]
    by_cases hi : i < (t :: rest).length
    · rw [List.length_cons] at hi
      rw [if_neg (by rw [hrange]; omega)]
      exact hend.low i hi
    · rw [getElem?_hashes_eq_none (by omega)]
      rw [List.length_cons] at hi hheight
      split
      next => rfl
      next hout =>
        rw [hrange] at hout
        exact hend.high i (by rw [List.length_cons]; omega) (by rw [List.length_cons]; omega)
  · rw [hreorg.undo]
    exact hend.undo.shrinks (shrinks_eraseAll _ _)
  · rw [hreorg.connected]
    exact hend.connected

theorem StoreInv.reorganized {env : Env} {s s₁ s₂ s' : NodeState} {b : Block} {bs : List Block}
    {disconnect connect : List Bytes32} {top : ℕ} (h : StoreInv cx K s)
    (hreorg : Reorganized cx env s b disconnect connect s₁ s₂ s') (hend : Connecting cx K s s₂ top bs) :
    StoreInv cx K s' := by
  refine ⟨?_, ?_, ?_⟩
  · apply WellPlaced.shrinks _ hreorg.cached
    rw [hend.blocks]
    exact h.cached
  · apply WellPlaced.shrinks _ hreorg.stored
    rw [hend.diskBlocks]
    exact h.stored
  · rw [hreorg.orphanBlocks, hend.orphanBlocks]
    exact h.orphans

end Switching

section Nodes

variable {s : NodeState}

variable (cx) in
/-- A node that was just opened on an empty store. -/
structure FreshNode (s : NodeState) : Prop where
  applied : applyBlock cx.sha256 ∅ cx.genesis = (.ok (), s.utxoSet)
  tip : s.tip = cx.genesisHash
  height : s.height = 0
  heightMap : s.heightMap = (∅ : Map ℕ Bytes32).insert 0 cx.genesisHash
  chainwork : s.chainwork = cx.genesisWork
  blockWork : s.blockWork = (∅ : Map Bytes32 Bytes32).insert cx.genesisHash cx.genesisWork
  orphanBlocks : s.orphanBlocks = ∅
  orphansByParent : s.orphansByParent = ∅
  connected : s.connected = (∅ : Map Bytes32 Block).insert cx.genesisHash cx.genesis
  record : chainRecord s.store.disk =
    ⟨some s.tip, some s.height, some s.utxoSet, some (commitmentHash cx.sha256 s.utxoSet),
      some s.heightMap, some s.chainwork, some s.blockWork⟩
  undo : s.store.disk.undo = ∅
  cached : Shrinks ((∅ : Map Bytes32 Block).insert cx.genesisHash cx.genesis) s.blocks
  diskBlocks : s.store.disk.blocks = (∅ : Map Bytes32 Block).insert cx.genesisHash cx.genesis

theorem freshNode {env : Env} (h : NodeState.new cx env Disk.empty = .ok s) : FreshNode cx s := by
  change initGenesis cx env (blank Disk.empty) = .ok s at h
  unfold initGenesis at h
  split at h
  next => simp at h
  next u happly =>
    split at h
    next => simp at h
    next s₃ hpersist =>
      split at h
      next => simp at h
      next s₄ hw =>
        obtain rfl := write_eq_some hw
        simp only [Except.ok.injEq] at h
        subst h
        obtain ⟨hframe, -⟩ := persistState_eq_some hpersist
        have hindex := @rebuildIndexes_frame cx env
          { s₃ with store := s₃.store.perform [.putBlock cx.genesisHash cx.genesis] }
        have hpersisted := @persisted_disk cx (atGenesis cx (blank Disk.empty) u) cx.genesisHash 0
        set s' := rebuildIndexes cx env
          { s₃ with store := s₃.store.perform [.putBlock cx.genesisHash cx.genesis] }
        have htip : s'.tip = cx.genesisHash := hindex.tip.trans hframe.tip
        have hheight : s'.height = 0 := hindex.height.trans hframe.height
        have hutxo : s'.utxoSet = u := hindex.utxoSet.trans hframe.utxoSet
        have hmap : s'.heightMap = (∅ : Map ℕ Bytes32).insert 0 cx.genesisHash :=
          hindex.heightMap.trans hframe.heightMap
        have hwork : s'.chainwork = cx.genesisWork := hindex.chainwork.trans hframe.chainwork
        have hworks : s'.blockWork =
            (∅ : Map Bytes32 Bytes32).insert cx.genesisHash cx.genesisWork :=
          hindex.blockWork.trans hframe.blockWork
        refine
          { applied := by rw [hutxo]; exact happly
            tip := htip
            height := hheight
            heightMap := hmap
            chainwork := hwork
            blockWork := hworks
            orphanBlocks := hindex.orphanBlocks.trans hframe.orphanBlocks
            orphansByParent := hindex.orphansByParent.trans hframe.orphansByParent
            connected := hindex.connected.trans hframe.connected
            record := ?_
            undo := ?_
            cached := ?_
            diskBlocks := ?_ }
        · rw [htip, hheight, hutxo, hmap, hwork, hworks]
          refine hindex.record.trans
            ((?_ : _ = chainRecord s₃.store.disk).trans (hframe.record.trans ?_))
          · rfl
          · rw [hpersisted]
            rfl
        · refine hindex.undo.trans ((?_ : _ = s₃.store.disk.undo).trans (hframe.undo.trans ?_))
          · rfl
          · rw [hpersisted]
            rfl
        · rw [hindex.blocks]
          exact (evict_shrinks _ _ _).trans hframe.cached
        · rw [hindex.diskBlocks]
          have hempty : s₃.store.disk.blocks = ∅ := by
            apply Finmap.ext_lookup
            intro k
            cases hk : s₃.store.disk.blocks.lookup k with
            | none => rfl
            | some x =>
              have hx := hframe.stored k x hk
              rw [hpersisted] at hx
              simp [persistedDisk, atGenesis, blank, Disk.empty, insertBlockCache] at hx
          change s₃.store.disk.blocks.insert _ _ = _
          rw [hempty]

variable (cx K) in
/-- The node holds known blocks in their place, and its chain is a valid branch. -/
structure NodeInv (s : NodeState) : Prop where
  store : StoreInv cx K s
  chain : ∃ bs, ChainInv cx K s bs

theorem NodeInv.frame {s' : NodeState} (h : NodeInv cx K s) (hf : Frame s s') : NodeInv cx K s' := by
  obtain ⟨bs, hbs⟩ := h.chain
  exact ⟨h.store.frame hf, bs, hbs.frame hf⟩

theorem NodeInv.fresh (hcf : CollisionFree cx K) (h : FreshNode cx s) : NodeInv cx K s := by
  have hplaced : WellPlaced cx K fun k =>
      ((∅ : Map Bytes32 Block).insert cx.genesisHash cx.genesis).lookup k := by
    apply WellPlaced.insert _ hcf.genesis (Or.inl rfl)
    intro k b hb
    simp at hb
  refine ⟨⟨?_, ?_, ?_⟩, [cx.genesis], ?_⟩
  · exact WellPlaced.shrinks hplaced h.cached
  · rw [h.diskBlocks]
    exact hplaced
  · rw [h.orphanBlocks]
    intro k b hb
    simp at hb
  · refine ⟨.genesis h.applied, ?_, ?_, ?_, ?_, ?_, ?_⟩
    · intro b hb
      rw [List.mem_singleton.mp hb]
      exact hcf.genesis
    · rw [h.tip]
      rfl
    · rw [h.height]
      rfl
    · intro i
      rw [h.heightMap, lookup_insert_eq]
      cases i with
      | zero => rfl
      | succ i => simp [hashes]
    · intro pre b parent rest hbs
      exfalso
      have hlen := congrArg List.length hbs
      simp only [List.length_nil, List.length_append, List.length_cons] at hlen
      omega
    · intro b hb
      rw [List.mem_singleton.mp hb, h.connected]
      exact Finmap.lookup_insert _

theorem evictOrphans_eq (env : Env) (fuel : ℕ) (s : NodeState) : ∃ pool children, evictOrphans env fuel s =
      { s with orphanBlocks := pool, orphansByParent := children } ∧ Shrinks s.orphanBlocks pool := by
  induction fuel generalizing s with
  | zero => exact ⟨_, _, rfl, Shrinks.refl _⟩
  | succ fuel ih =>
    unfold evictOrphans
    simp only
    split
    · split
      · exact ⟨_, _, rfl, Shrinks.refl _⟩
      · obtain ⟨pool, children, heq, hpool⟩ := ih { s with
          orphanBlocks := s.orphanBlocks.erase (env.victim s.orphanBlocks)
          orphansByParent := dropChild s.orphansByParent _ (env.victim s.orphanBlocks) }
        exact ⟨pool, children, heq, (shrinks_erase _ _).trans hpool⟩
    · exact ⟨_, _, rfl, Shrinks.refl _⟩

theorem addOrphan_eq (env : Env) (s : NodeState) (hash : Bytes32) (b : Block) :
    ∃ pool children, addOrphan env s hash b =
      { s with orphanBlocks := pool, orphansByParent := children } ∧
      Shrinks (s.orphanBlocks.insert hash b) pool := by
  obtain ⟨pool, children, heq, hpool⟩ := evictOrphans_eq env s.orphanBlocks.keys.card s
  unfold addOrphan
  simp only [heq]
  exact ⟨_, _, rfl, hpool.insert hash b⟩

theorem NodeInv.orphans (h : NodeInv cx K s) {pool : Map Bytes32 Block} {children : Map Bytes32 (List Bytes32)}
    (hpool : ∀ k b, pool.lookup k = some b → K b) :
    NodeInv cx K { s with orphanBlocks := pool, orphansByParent := children } := by
  obtain ⟨bs, hbs⟩ := h.chain
  exact ⟨⟨h.store.cached, h.store.stored, hpool⟩, bs,
    ⟨hbs.branch, hbs.known, hbs.tip, hbs.height, hbs.heightMap, hbs.undo,
      hbs.connected⟩⟩

theorem NodeInv.takeOrphan (h : NodeInv cx K s) (parent child : Bytes32) :
    NodeInv cx K (takeOrphan s parent child) := by
  apply h.orphans
  intro k b hb
  exact h.store.orphans k b (shrinks_erase _ _ k b hb)

theorem NodeInv.step (hcf : CollisionFree cx K) {env : Env} {s : NodeState} {b : Block} (h : NodeInv cx K s) (hb : K b)
    (hclean : (∃ x, (addBlockStep cx env s b).1 = .ok x) ∨ RunsThrough cx env s b) :
    NodeInv cx K (addBlockStep cx env s b).2 := by
  have hcases := @addBlockStep_cases cx env s b
  generalize hr : (addBlockStep cx env s b).1 = r at hcases hclean
  generalize (addBlockStep cx env s b).2 = s' at hcases
  cases hcases with
  | rejected => exact h
  | orphaned =>
    obtain ⟨pool, children, heq, hpool⟩ := addOrphan_eq env s (b.hash cx.sha256) b
    rw [heq]
    apply h.orphans
    intro k x hx
    have hx' := hpool k x hx
    rw [lookup_insert_eq] at hx'
    split at hx'
    · rwa [← Option.some.inj hx']
    · exact h.store.orphans k x hx'
  | extended hadm htip hext =>
    obtain ⟨bs, hbs⟩ := h.chain
    exact ⟨h.store.extended hcf hb hadm hext, _, hbs.extended hcf h.store hb hadm htip hext⟩
  | stored hadm htip hside =>
    obtain ⟨bs, hbs⟩ := h.chain
    exact ⟨h.store.sideStored hcf hb hadm hside, bs, hbs.sideStored hside⟩
  | reorganized hadm htip hside hmore hreorg =>
    obtain ⟨bs, hbs⟩ := h.chain
    have hstore := h.store.sideStored hcf hb hadm hside
    obtain ⟨old, f, common, new, -, -, -, hchain, hend⟩ :=
      (hbs.sideStored hside).reorganized hcf hstore hb hreorg
    exact ⟨hstore.reorganized hreorg hend, _, hchain⟩
  | broken e s' hnot _ =>
    rcases hclean with ⟨x, hx⟩ | hthrough
    · simp at hx
    · exact absurd hthrough hnot

end Nodes

section Runs

variable (cx) in
/-- The blocks of a run: genesis and every block given to a call. -/
def Known (calls : List Call) (b : Block) : Prop := b = cx.genesis ∨ ∃ c ∈ calls, c.block = b

/-- A call that succeeds or runs through. -/
def Clean (cx : Context) (c : Call) : Prop :=
  (∃ x, c.result = .ok x) ∨ RunsThrough cx c.env c.before c.block

theorem run_nodeInv (hcf : CollisionFree cx K) {s : NodeState} {calls : List Call} (hrun : Run cx s calls)
    (hknown : ∀ c ∈ calls, K c.block) (hclean : ∀ c ∈ calls, Clean cx c) :
    NodeInv cx K s ∧ ∀ c ∈ calls, NodeInv cx K c.before ∧ Runs.Stepped cx c := by
  have hgood : ∀ c ∈ calls, K c.block ∧ Clean cx c := fun c hc => ⟨hknown c hc, hclean c hc⟩
  have hstep : ∀ env s b, NodeInv cx K s →
      (K b ∧ ((∃ x, (addBlockStep cx env s b).1 = .ok x) ∨ RunsThrough cx env s b)) →
      NodeInv cx K (addBlockStep cx env s b).2 := by
    intro env s b h hb
    exact h.step hcf hb.1 hb.2
  refine Runs.run_keeps ?_ hstep ?_ ?_ hrun hgood
  · intro env s h
    exact NodeInv.fresh hcf (freshNode h)
  · intro s parent child b h _
    exact h.takeOrphan parent child
  · intro env s tipHeight h
    exact h.frame (maybePrune_frame s tipHeight)

theorem eq_of_nodup {blocks : List Block} (hK : ∀ b, K b → b ∈ blocks)
    (hnodup : (Bytes32.zero :: blocks.map (Block.hash cx.sha256)).Nodup) {a b : Block} (ha : K a) (hb : K b)
    (h : a.hash cx.sha256 = b.hash cx.sha256) : a = b :=
  List.inj_on_of_nodup_map (List.nodup_cons.mp hnodup).2 (hK a ha) (hK b hb) h

/-- A few blocks whose hashes are all different and not zero. -/
theorem collisionFree_of_nodup {blocks : List Block} (hgenesis : K cx.genesis) (hK : ∀ b, K b → b ∈ blocks)
    (hnodup : (Bytes32.zero :: blocks.map (Block.hash cx.sha256)).Nodup) : CollisionFree cx K := by
  refine ⟨hgenesis, fun a b ha hb h => by rw [eq_of_nodup hK hnodup ha hb h], ?_⟩
  intro a ha hzero
  apply (List.nodup_cons.mp hnodup).1
  rw [← hzero]
  exact List.mem_map_of_mem (hK a ha)

theorem firstBranch_collisionFree (hgenesis : K Runs.regtest.genesis)
    (hknown : ∀ b, K b → b = Runs.regtest.genesis ∨ b = Runs.firstBranch) : CollisionFree Runs.regtest K := by
  apply @collisionFree_of_nodup _ K [Runs.regtest.genesis, Runs.firstBranch] hgenesis
  · intro b hb
    rcases hknown b hb with rfl | rfl <;> simp
  · rw [← Runs.runRegtest_eq, ← Runs.runFirstBranch_eq]
    decide +kernel

theorem firstBranch_known (s₀ : NodeState) : CollisionFree Runs.regtest
      (Known Runs.regtest [⟨Runs.today, s₀, Runs.firstBranch, .ok .connected⟩]) := by
  apply firstBranch_collisionFree (Or.inl rfl)
  rintro b (rfl | ⟨c, hc, rfl⟩)
  · exact Or.inl rfl
  · rw [List.mem_singleton.mp hc]
    exact Or.inr rfl

variable {s : NodeState} {calls : List Call} {o : Outcome} (h : Runs.Switched s calls o)
include h

theorem Switched.known {b : Block} (hb : Known Runs.scriptNode (calls ++ o.calls) b) :
    b ∈ [Runs.scriptNode.genesis, Runs.firstBranch, Runs.paidBranch, Runs.spendingTip] := by
  rcases hb with rfl | ⟨c, hc, rfl⟩
  · exact List.mem_cons_self
  · have hmem : c.block ∈ (calls ++ o.calls).map Call.block := List.mem_map_of_mem hc
    rw [h.blocks] at hmem
    rcases List.mem_cons.mp hmem with heq | hmem
    · rw [heq]
      exact List.mem_cons_of_mem _ List.mem_cons_self
    · exact List.mem_cons_of_mem _ hmem

omit h in
theorem switched_nodup : (Bytes32.zero ::
    [Runs.scriptNode.genesis, Runs.firstBranch, Runs.paidBranch, Runs.spendingTip].map
      (Block.hash Runs.scriptNode.sha256)).Nodup := by
  rw [← Runs.runScriptNode_eq, ← Runs.runFirstBranch_eq, ← Runs.runPaidBranch_eq, ← Runs.runSpendingTip_eq]
  decide +kernel

theorem Switched.collisionFree : CollisionFree Runs.scriptNode (Known Runs.scriptNode (calls ++ o.calls)) :=
  collisionFree_of_nodup (Or.inl rfl) (fun _ => Switched.known h) switched_nodup

theorem Switched.same : ∀ c ∈ calls ++ o.calls, ∀ c' ∈ calls ++ o.calls,
    c.block.hash Runs.scriptNode.sha256 = c'.block.hash Runs.scriptNode.sha256 → c.block = c'.block :=
  fun c hc c' hc' => eq_of_nodup (fun _ => Switched.known h) switched_nodup (Or.inr ⟨c, hc, rfl⟩)
    (Or.inr ⟨c', hc', rfl⟩)

end Runs

end KuberCoin.ChainInvariants
