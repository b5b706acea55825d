import KuberCoin.Runs
import KuberCoin.CompactTargets
import KuberCoin.WorkArithmetic

/-!
The targets of a block tree (crate `node`, `state`). The expected bits of a block are those of
genesis, those of a block below it, or an encoded target that is capped at the target of genesis, so
the cap holds along every branch. At the start of a period the new target is the old one times a
clamped timespan, and between two starts it does not change.
-/
namespace KuberCoin.DifficultyBounds

open Bytes Maps Transactions Params Difficulty Blocks NodeStates NodeStates.NodeState AddBlock StepCases Storage Runs
  CompactTargets WorkArithmetic

/-- The target that compact bits stand for, as a number. -/
def decodedTarget (bits : UInt32) : ℕ := value (bitsToTarget bits).bytes

section Parameters

theorem interval_pos (cx : Context) : 0 < cx.networkParams.difficultyAdjustmentInterval := by
  unfold Context.networkParams
  cases cx.network with
  | mainnet => decide
  | testnet => decide
  | regtest => decide

/-- The planned timespan of a period. -/
def plannedTimespan (params : NetworkParams) : UInt64 :=
  UInt64.ofNat params.difficultyAdjustmentInterval * params.targetBlockTime

theorem plannedTimespan_fits (cx : Context) :
    1 ≤ (plannedTimespan cx.networkParams).toNat ∧ (plannedTimespan cx.networkParams).toNat < 2 ^ 56 ∧
      (plannedTimespan cx.networkParams * cx.networkParams.maxDifficultyAdjustmentFactor).toNat =
        (plannedTimespan cx.networkParams).toNat *
          cx.networkParams.maxDifficultyAdjustmentFactor.toNat := by
  unfold Context.networkParams
  cases cx.network with
  | mainnet => decide
  | testnet => decide
  | regtest => decide

end Parameters

section Retargeting

variable {cx : Context} {parent first : Block}

theorem min_le_snd (a b : UInt64) : min a b ≤ b := by
  change (if a ≤ b then a else b) ≤ b
  split
  next hle => exact hle
  next => exact UInt64.le_rfl

theorem nextTarget_eq (cx : Context) (parent first : Block) : ∃ clamped : UInt64,
      clamped ≤ plannedTimespan cx.networkParams * cx.networkParams.maxDifficultyAdjustmentFactor ∧
      nextTarget cx parent first =
        retargetTarget (bitsToTarget parent.header.bits) clamped (plannedTimespan cx.networkParams)
          (bitsToTarget cx.networkParams.genesisBits) :=
  ⟨_, min_le_snd _ _, rfl⟩

theorem nextTarget_le_max : value (nextTarget cx parent first).bytes ≤ decodedTarget cx.networkParams.genesisBits := by
  obtain ⟨clamped, -, heq⟩ := nextTarget_eq cx parent first
  obtain ⟨hpos, hsmall, -⟩ := plannedTimespan_fits cx
  rw [heq, value_retargetTarget hpos hsmall]
  exact Nat.min_le_left _ _

theorem nextTarget_le_factor : value (nextTarget cx parent first).bytes ≤
      cx.networkParams.maxDifficultyAdjustmentFactor.toNat * decodedTarget parent.header.bits := by
  obtain ⟨clamped, hclamped, heq⟩ := nextTarget_eq cx parent first
  obtain ⟨hpos, hsmall, hfactor⟩ := plannedTimespan_fits cx
  have hle : clamped.toNat ≤ (plannedTimespan cx.networkParams).toNat *
      cx.networkParams.maxDifficultyAdjustmentFactor.toNat :=
    Nat.le_trans (UInt64.le_iff_toNat_le.mp hclamped) (Nat.le_of_eq hfactor)
  rw [heq, value_retargetTarget hpos hsmall]
  refine Nat.le_trans (Nat.min_le_right _ _) (Nat.div_le_of_le_mul ?_)
  calc
    value (bitsToTarget parent.header.bits).bytes * clamped.toNat
      ≤ value (bitsToTarget parent.header.bits).bytes * ((plannedTimespan cx.networkParams).toNat *
          cx.networkParams.maxDifficultyAdjustmentFactor.toNat) := Nat.mul_le_mul_left _ hle
    _ = (plannedTimespan cx.networkParams).toNat *
          (cx.networkParams.maxDifficultyAdjustmentFactor.toNat * decodedTarget parent.header.bits) := by
        unfold decodedTarget
        ring

end Retargeting

section Walks

variable {cx : Context} {tree : Map Bytes32 Block} {get : Bytes32 → Option Block} {k : Bytes32} {b : Block}

/-- Every block of a tree is a root of height zero or one above its parent, which is in the tree. -/
def Rooted (tree : Map Bytes32 Block) : Prop :=
  ∀ k b, tree.lookup k = some b → b.header.prevHash = Bytes32.zero ∧ b.header.height = 0 ∨
    b.header.prevHash ≠ Bytes32.zero ∧ ∃ p, tree.lookup b.header.prevHash = some p ∧
      b.header.height = p.header.height + 1

/-- Every block of a tree can be read. -/
def Available (tree : Map Bytes32 Block) (get : Bytes32 → Option Block) : Prop :=
  ∀ k b, tree.lookup k = some b → get k = some b

theorem Rooted.parent (h : Rooted tree) {k : Bytes32} {b : Block} (hb : tree.lookup k = some b)
    (hheight : 0 < b.header.height) :
    ∃ p, tree.lookup b.header.prevHash = some p ∧ b.header.height = p.header.height + 1 := by
  obtain ⟨-, hzero⟩ | ⟨-, hp⟩ := h k b hb
  · omega
  · exact hp

/-- Walking back over minimum-difficulty blocks stays in the tree. -/
theorem lastRegularBlock_mem (hrooted : Rooted tree) (hget : Available tree get) (fuel : ℕ)
    (hb : tree.lookup k = some b) : ∃ k', tree.lookup k' = some (lastRegularBlock cx get fuel b) := by
  induction fuel generalizing k b with
  | zero => exact ⟨k, hb⟩
  | succ fuel ih =>
    unfold lastRegularBlock
    simp only
    split
    next hregular =>
      obtain ⟨p, hp, -⟩ := hrooted.parent hb hregular.1
      rw [hget _ p hp]
      exact ih hp
    next => exact ⟨k, hb⟩

theorem periodStart_found (hrooted : Rooted tree) (hget : Available tree get) {start : ℕ} (fuel : ℕ)
    (hb : tree.lookup k = some b) (hstart : start ≤ b.header.height) (hfuel : b.header.height ≤ fuel) :
    ∃ first, periodStart get start fuel b = some first ∧ first.header.height = start := by
  induction fuel generalizing k b with
  | zero => exact ⟨b, rfl, by omega⟩
  | succ fuel ih =>
    unfold periodStart
    by_cases habove : start < b.header.height
    · obtain ⟨p, hp, hheight⟩ := hrooted.parent hb (by omega)
      rw [if_pos habove, hget _ p hp]
      exact ih hp (by omega) (by omega)
    · rw [if_neg habove]
      exact ⟨b, rfl, by omega⟩

theorem nextBits_cases (hrooted : Rooted tree) (hget : Available tree get) {parent : Block}
    (hparent : tree.lookup k = some parent) (timestamp : UInt64) {bits : UInt32}
    (hbits : bits = calculateNextBitsForParentAndTimestamp cx get k (parent.header.height + 1)
      (some timestamp)) : bits = parent.header.bits ∧ ((parent.header.height + 1) %
        cx.networkParams.difficultyAdjustmentInterval = 0 → parent.header.height = 0) ∨
    ((parent.header.height + 1) % cx.networkParams.difficultyAdjustmentInterval ≠ 0 ∧
      cx.networkParams.allowMinDifficultyBlocks = true ∧
      (bits = cx.networkParams.genesisBits ∨
        ∃ k' b, tree.lookup k' = some b ∧ bits = b.header.bits)) ∨
    ((parent.header.height + 1) % cx.networkParams.difficultyAdjustmentInterval = 0 ∧
      ∃ first, bits = targetToBits (nextTarget cx parent first)) := by
  unfold calculateNextBitsForParentAndTimestamp at hbits
  simp only [hget k parent hparent] at hbits
  rw [if_neg (Nat.succ_ne_zero _)] at hbits
  by_cases hlow : parent.header.height + 1 ≤ 1
  · rw [if_pos hlow] at hbits
    exact Or.inl ⟨hbits, fun _ => by omega⟩
  · rw [if_neg hlow] at hbits
    by_cases hstart : (parent.header.height + 1) % cx.networkParams.difficultyAdjustmentInterval = 0
    · -- the walk finds the first block of the period, as no ancestor is missing
      have hinterval := interval_pos cx
      have hbelow : parent.header.height + 1 - cx.networkParams.difficultyAdjustmentInterval ≤
          parent.header.height := by omega
      obtain ⟨first, hfirst, hheight⟩ :=
        periodStart_found hrooted hget parent.header.height hparent hbelow (Nat.le_refl _)
      rw [if_neg (not_not.mpr hstart), hfirst] at hbits
      simp only [hheight, ne_eq, not_true_eq_false, if_false] at hbits
      exact Or.inr (Or.inr ⟨hstart, first, hbits⟩)
    · rw [if_pos hstart] at hbits
      cases hallow : cx.networkParams.allowMinDifficultyBlocks with
      | false =>
        rw [hallow] at hbits
        exact Or.inl ⟨hbits, fun h => absurd h hstart⟩
      | true =>
        rw [hallow] at hbits
        refine Or.inr (Or.inl ⟨hstart, rfl, ?_⟩)
        simp only at hbits
        split at hbits
        next => exact Or.inl hbits
        next =>
          have hmem : ∃ k', tree.lookup k' =
              some (lastRegularBlock cx get parent.header.height parent) :=
            lastRegularBlock_mem hrooted hget parent.header.height hparent
          obtain ⟨k', hk'⟩ := hmem
          exact Or.inr ⟨k', _, hk', hbits⟩

end Walks

section Trees

variable {cx : Context} {tree : Map Bytes32 Block} {b first p parent x : Block} {s : NodeState} {k k' : Bytes32}

variable (cx) in
/-- The trees of blocks, by hash, that grow by blocks that a node accepts over a block of the tree or
as a root; the node can read all blocks that are already there. -/
inductive AcceptedTree : Map Bytes32 Block → Prop
  | empty : AcceptedTree ∅
  | add {tree : Map Bytes32 Block} {s : NodeState} {b : Block} (htree : AcceptedTree tree)
      (havailable : Available tree s.getBlock) (hfresh : tree.lookup (b.hash cx.sha256) = none)
      (hparent : b.header.prevHash = Bytes32.zero ∨ ∃ p, tree.lookup b.header.prevHash = some p)
      (hchecks : headerChecks cx s b = .ok ()) : AcceptedTree (tree.insert (b.hash cx.sha256) b)

/-- A block of a tree and its parent. -/
structure Child (tree : Map Bytes32 Block) (b p : Block) : Prop where
  stored : ∃ k, tree.lookup k = some b
  extends_block : b.header.prevHash ≠ Bytes32.zero
  parent : tree.lookup b.header.prevHash = some p

variable (cx) in
/-- The bounds on the targets of a tree: the target of genesis is the largest, a new period changes
the target of the parent by the factor at most, and on a network without minimum-difficulty blocks
only a new period changes it. -/
structure TargetBounds (tree : Map Bytes32 Block) : Prop where
  le_genesis : ∀ k b, tree.lookup k = some b →
    decodedTarget b.header.bits ≤ decodedTarget cx.networkParams.genesisBits
  le_factor : ∀ b p, Child tree b p →
    b.header.height % cx.networkParams.difficultyAdjustmentInterval = 0 →
    decodedTarget b.header.bits ≤
      cx.networkParams.maxDifficultyAdjustmentFactor.toNat * decodedTarget p.header.bits
  inherits : cx.networkParams.allowMinDifficultyBlocks = false → ∀ b p, Child tree b p →
    b.header.height % cx.networkParams.difficultyAdjustmentInterval ≠ 0 →
    decodedTarget b.header.bits = decodedTarget p.header.bits

theorem factor_pos (cx : Context) : 1 ≤ cx.networkParams.maxDifficultyAdjustmentFactor.toNat := by
  unfold Context.networkParams
  cases cx.network with
  | mainnet => decide
  | testnet => decide
  | regtest => decide

theorem encoded_le_max : decodedTarget (targetToBits (nextTarget cx parent first)) ≤
      decodedTarget cx.networkParams.genesisBits :=
  Nat.le_trans (decoded_le _) nextTarget_le_max

theorem encoded_le_factor : decodedTarget (targetToBits (nextTarget cx parent first)) ≤
      cx.networkParams.maxDifficultyAdjustmentFactor.toNat * decodedTarget parent.header.bits :=
  Nat.le_trans (decoded_le _) nextTarget_le_factor

variable (cx) in
/-- What the expected bits of a child have to do with the target of its parent. -/
structure Follows (b p : Block) : Prop where
  le_factor : b.header.height % cx.networkParams.difficultyAdjustmentInterval = 0 →
    decodedTarget b.header.bits ≤
      cx.networkParams.maxDifficultyAdjustmentFactor.toNat * decodedTarget p.header.bits
  inherits : cx.networkParams.allowMinDifficultyBlocks = false →
    b.header.height % cx.networkParams.difficultyAdjustmentInterval ≠ 0 →
    decodedTarget b.header.bits = decodedTarget p.header.bits

theorem accepted_block (hrooted : Rooted tree) (hbounds : TargetBounds cx tree) (havailable : Available tree s.getBlock)
    (hp : tree.lookup b.header.prevHash = some p) (hheight : b.header.height = p.header.height + 1)
    (hbits : b.header.bits = calculateNextBitsForParentAndTimestamp cx s.getBlock
      b.header.prevHash b.header.height (some b.header.timestamp)) :
    decodedTarget b.header.bits ≤ decodedTarget cx.networkParams.genesisBits ∧ Follows cx b p := by
  rw [hheight] at hbits
  have hcases := nextBits_cases hrooted havailable hp b.header.timestamp hbits
  rw [← hheight] at hcases
  obtain ⟨heq, -⟩ | ⟨hperiod, hallow, hmin⟩ | ⟨hperiod, first, heq⟩ := hcases
  · refine ⟨?_, fun _ => ?_, fun _ _ => ?_⟩
    · rw [heq]
      exact hbounds.le_genesis _ p hp
    · rw [heq]
      exact Nat.le_mul_of_pos_left _ (factor_pos cx)
    · rw [heq]
  · refine ⟨?_, fun h => absurd h hperiod, fun h => ?_⟩
    · obtain hgenesis | ⟨k, x, hx, hsame⟩ := hmin
      · rw [hgenesis]
      · rw [hsame]
        exact hbounds.le_genesis k x hx
    · rw [hallow] at h
      cases h
  · refine ⟨?_, fun _ => ?_, fun _ h => absurd hperiod h⟩
    · rw [heq]
      exact encoded_le_max
    · rw [heq]
      exact encoded_le_factor

theorem lookup_fresh (hfresh : tree.lookup k = none) (hx : tree.lookup k' = some x) :
    (tree.insert k b).lookup k' = some x := by
  have hne : k' ≠ k := by
    intro heq
    rw [heq, hfresh] at hx
    cases hx
  rw [lookup_insert_eq, if_neg hne]
  exact hx

theorem lookup_grown (hx : (tree.insert k b).lookup k' = some x) : k' = k ∧ x = b ∨ tree.lookup k' = some x := by
  rw [lookup_insert_eq] at hx
  by_cases heq : k' = k
  · rw [if_pos heq] at hx
    exact Or.inl ⟨heq, (Option.some.inj hx).symm⟩
  · rw [if_neg heq] at hx
    exact Or.inr hx

theorem Rooted.insert (h : Rooted tree) (hfresh : tree.lookup k = none)
    (hb : b.header.prevHash = Bytes32.zero ∧ b.header.height = 0 ∨
      b.header.prevHash ≠ Bytes32.zero ∧ ∃ p, tree.lookup b.header.prevHash = some p ∧
        b.header.height = p.header.height + 1) : Rooted (tree.insert k b) := by
  have hgrown : ∀ x : Block, (x.header.prevHash = Bytes32.zero ∧ x.header.height = 0 ∨
      x.header.prevHash ≠ Bytes32.zero ∧ ∃ p, tree.lookup x.header.prevHash = some p ∧
        x.header.height = p.header.height + 1) →
      (x.header.prevHash = Bytes32.zero ∧ x.header.height = 0 ∨
      x.header.prevHash ≠ Bytes32.zero ∧ ∃ p, (tree.insert k b).lookup x.header.prevHash = some p ∧
        x.header.height = p.header.height + 1) := by
    intro x hx
    obtain hroot | ⟨hne, p, hp, hheight⟩ := hx
    · exact Or.inl hroot
    · exact Or.inr ⟨hne, p, lookup_fresh hfresh hp, hheight⟩
  intro k' x hx
  obtain ⟨-, rfl⟩ | hold := lookup_grown hx
  · exact hgrown x hb
  · exact hgrown x (h k' x hold)

theorem child_grown (hrooted : Rooted tree) (hfresh : tree.lookup k = none)
    (hparent : b.header.prevHash = Bytes32.zero ∨ ∃ q, tree.lookup b.header.prevHash = some q)
    (h : Child (tree.insert k b) x p) :
    x = b ∧ b.header.prevHash ≠ Bytes32.zero ∧ tree.lookup b.header.prevHash = some p ∨
      Child tree x p := by
  obtain ⟨k', hx⟩ := h.stored
  have hsame : ∀ q, tree.lookup x.header.prevHash = some q → q = p := by
    intro q hq
    have hlookup := h.parent
    rw [lookup_fresh hfresh hq] at hlookup
    exact Option.some.inj hlookup
  obtain ⟨-, rfl⟩ | hold := lookup_grown hx
  · obtain hzero | ⟨q, hq⟩ := hparent
    · exact absurd hzero h.extends_block
    · exact Or.inl ⟨rfl, h.extends_block, hsame q hq ▸ hq⟩
  · obtain ⟨hzero, -⟩ | ⟨-, q, hq, -⟩ := hrooted k' x hold
    · exact absurd hzero h.extends_block
    · exact Or.inr ⟨⟨k', hold⟩, h.extends_block, hsame q hq ▸ hq⟩

theorem TargetBounds.insert (hrooted : Rooted tree) (h : TargetBounds cx tree) (hfresh : tree.lookup k = none)
    (hparent : b.header.prevHash = Bytes32.zero ∨ ∃ p, tree.lookup b.header.prevHash = some p)
    (hmax : decodedTarget b.header.bits ≤ decodedTarget cx.networkParams.genesisBits)
    (hfollows : b.header.prevHash ≠ Bytes32.zero → ∀ p, tree.lookup b.header.prevHash = some p →
      Follows cx b p) : TargetBounds cx (tree.insert k b) where
  le_genesis k' x hx := by
    obtain ⟨-, rfl⟩ | hold := lookup_grown hx
    · exact hmax
    · exact h.le_genesis k' x hold
  le_factor x p hx := by
    obtain ⟨rfl, hne, hp⟩ | hold := child_grown hrooted hfresh hparent hx
    · exact (hfollows hne p hp).le_factor
    · exact h.le_factor x p hold
  inherits hallow x p hx := by
    obtain ⟨rfl, hne, hp⟩ | hold := child_grown hrooted hfresh hparent hx
    · exact (hfollows hne p hp).inherits hallow
    · exact h.inherits hallow x p hold

theorem accepted_step (hrooted : Rooted tree) (hbounds : TargetBounds cx tree) (havailable : Available tree s.getBlock)
    (hfresh : tree.lookup (b.hash cx.sha256) = none)
    (hparent : b.header.prevHash = Bytes32.zero ∨ ∃ p, tree.lookup b.header.prevHash = some p)
    (hchecks : headerChecks cx s b = .ok ()) :
    Rooted (tree.insert (b.hash cx.sha256) b) ∧ TargetBounds cx (tree.insert (b.hash cx.sha256) b) := by
  obtain ⟨hzero, hheight, hbits⟩ | ⟨hne, parent, hread, hheight, hbits⟩ := headerChecks_cases hchecks
  · refine ⟨hrooted.insert hfresh (Or.inl ⟨hzero, hheight⟩), ?_⟩
    refine hbounds.insert hrooted hfresh hparent ?_ fun hne => absurd hzero hne
    rw [hbits]
  · obtain ⟨p, hp⟩ := hparent.resolve_left hne
    have hsame : parent = p := by
      rw [havailable _ p hp] at hread
      exact (Option.some.inj hread).symm
    rw [hsame] at hheight
    obtain ⟨hmax, hfollows⟩ := accepted_block hrooted hbounds havailable hp hheight hbits
    refine ⟨hrooted.insert hfresh (Or.inr ⟨hne, p, hp, hheight⟩), ?_⟩
    refine hbounds.insert hrooted hfresh hparent hmax fun _ q hq => ?_
    rw [hp] at hq
    exact Option.some.inj hq ▸ hfollows

/-- Difficulty stays within its bounds in every tree that the checks accept, on every branch. -/
theorem accepted_tree_bounded (h : AcceptedTree cx tree) : TargetBounds cx tree := by
  have hboth : Rooted tree ∧ TargetBounds cx tree := by
    induction h with
    | empty =>
      have hnone : ∀ (k : Bytes32) (b : Block), (∅ : Map Bytes32 Block).lookup k ≠ some b := by
        intro k b hb
        rw [Finmap.lookup_empty] at hb
        cases hb
      refine ⟨fun k b hb => absurd hb (hnone k b), fun k b hb => absurd hb (hnone k b), ?_, ?_⟩
      · intro b p hchild
        exact absurd hchild.parent (hnone _ _)
      · intro _ b p hchild
        exact absurd hchild.parent (hnone _ _)
    | add htree havailable hfresh hparent hchecks ih =>
      exact accepted_step ih.1 ih.2 havailable hfresh hparent hchecks
  exact hboth.2

/-- A node that holds a tree in its cache and nothing else. -/
def treeNode (tree : Map Bytes32 Block) : NodeState :=
  { tip := Bytes32.zero
    height := 0
    blocks := tree
    cacheOrder := []
    heightMap := ∅
    utxoSet := ∅
    chainwork := Bytes32.zero
    blockWork := ∅
    orphanBlocks := ∅
    orphansByParent := ∅
    blockIndex := ∅
    txIndex := ∅
    scriptPubkeyIndex := ∅
    chainHeightIndex := ∅
    store := ⟨Disk.empty, []⟩
    connected := ∅ }

variable (cx) in
/-- Add blocks to a tree, each if the node that holds the tree accepts it. -/
def growTree (tree : Map Bytes32 Block) : List Block → Option (Map Bytes32 Block)
  | [] => some tree
  | b :: rest =>
      if tree.lookup (b.hash cx.sha256) = none ∧
          (b.header.prevHash = Bytes32.zero ∨ (tree.lookup b.header.prevHash).isSome = true) ∧
          headerChecks cx (treeNode tree) b = .ok () then
        growTree (tree.insert (b.hash cx.sha256) b) rest
      else none

theorem acceptedTree_of_grow {tree' : Map Bytes32 Block} {bs : List Block} (h : AcceptedTree cx tree)
    (hgrow : growTree cx tree bs = some tree') : AcceptedTree cx tree' := by
  induction bs generalizing tree with
  | nil => exact Option.some.inj hgrow ▸ h
  | cons b bs ih =>
    unfold growTree at hgrow
    split at hgrow
    next hok =>
      obtain ⟨hfresh, hparent, hchecks⟩ := hok
      refine ih (.add h ?_ hfresh (hparent.imp_right Option.isSome_iff_exists.mp) hchecks) hgrow
      intro k x hx
      unfold getBlock treeNode
      rw [hx]
    next => cases hgrow

/-- A hash function that keeps the last bytes of its input. -/
def tailHash : Sha256 := fun data => Bytes32.ofBytes data.reverse

/-- Regtest over that hash function. -/
def tailNode : Context := { regtest with sha256 := tailHash }

/-- A block on another one with a given timestamp. -/
def timedBlock (parent : Block) (timestamp nonce : UInt64) : Block :=
  { header :=
      { version := headerVersion
        prevHash := parent.hash tailHash
        merkleRoot := Bytes32.zero
        timestamp := timestamp
        bits := 0x207fffff
        nonce := nonce
        height := parent.header.height + 1 }
    transactions := [] }

/-- Genesis, two blocks on it, and a block at a retarget height on the second of them. -/
def forkedBlocks : List Block :=
  let side := timedBlock tailNode.genesis 1706832600 2
  [tailNode.genesis, timedBlock tailNode.genesis 1706832001 1, side, timedBlock side 1706832601 3]

theorem forked_tree_bounded : ∃ tree, growTree tailNode ∅ forkedBlocks = some tree ∧ tree.keys.card = 4 ∧
      TargetBounds tailNode tree := by
  have hgrow : ((growTree tailNode ∅ forkedBlocks).map fun tree => tree.keys.card) = some 4 := by
    decide +kernel
  obtain ⟨tree, htree, hcard⟩ := Option.map_eq_some_iff.mp hgrow
  exact ⟨tree, htree, hcard, accepted_tree_bounded (acceptedTree_of_grow .empty htree)⟩

end Trees

end KuberCoin.DifficultyBounds
