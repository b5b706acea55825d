import KuberCoin.UndoCoverage
import KuberCoin.Deliveries

/-!
A chain with fewer blocks and more work.
On mainnet the difficulty changes after 2016 blocks. Of two branches that part just before,
the one without a break ends its period with four times the difficulty, so its first block of
the new period outweighs three blocks of the other branch. The node moves from height 2017 to
height 2016, and the undo record a hundred blocks below was deleted at the higher tip.
-/
namespace KuberCoin.ShorterChains

open Bytes Maps Transactions Blocks UtxoSets Params Difficulty Validator Storage NodeStates
  NodeStates.NodeState AddBlock Frames BlockEffects StepCases Runs Branches ChainInvariants
  BestChain UndoRecords WorkPaths BranchReads BlockTrees Deliveries PlainBlocks UndoCoverage

section Branches

variable (sha256 : Sha256)

/-- A mainnet node without pruning. -/
def mainnet : Context :=
  { sha256 := sha256
    checks := noSignatures
    network := .mainnet
    maxBlockCache := 512
    pruneDepth := none }

/-- One block a second for almost the whole first period, then a break of two weeks. -/
def stamp (height : ℕ) : UInt64 :=
  if height < 2015 then 1706832000 + UInt64.ofNat height else 1708041600 + UInt64.ofNat height

/-- A chain of plain blocks with those timestamps; its difficulty never changes. -/
def slowChain : ℕ → Block
  | 0 => (mainnet sha256).genesis
  | height + 1 => plainBlock sha256 (slowChain height) (stamp (height + 1)) 0x1d00ffff

/-- The chain up to a height, tip first. -/
def slowBranch : ℕ → List Block
  | 0 => [(mainnet sha256).genesis]
  | height + 1 => slowChain sha256 (height + 1) :: slowBranch height

/-- The last block of the first period without the break. -/
def fastFirst : Block := plainBlock sha256 (slowChain sha256 2014) 1706834015 0x1d00ffff

/-- The block on it: its difficulty is four times as high. -/
def fastSecond : Block := plainBlock sha256 (fastFirst sha256) 1706834016 0x1c3fffc0

def raceBlocks (b : Block) : Prop :=
  (∃ height, 0 < height ∧ height ≤ 2017 ∧ b = slowChain sha256 height) ∨
    b = fastFirst sha256 ∨ b = fastSecond sha256

/-- The hash function tells the blocks of the race apart. -/
structure TellsApart : Prop where
  injective : ∀ a b, Member (mainnet sha256) (raceBlocks sha256) a →
    Member (mainnet sha256) (raceBlocks sha256) b → a.hash sha256 = b.hash sha256 → a = b
  ne_zero : ∀ b, Member (mainnet sha256) (raceBlocks sha256) b → b.hash sha256 ≠ Bytes32.zero

variable {sha256}

theorem stamp_toNat {height : ℕ} (h : height < 4000) :
    (stamp height).toNat = if height < 2015 then 1706832000 + height else 1708041600 + height := by
  have hstart : (1706832000 : UInt64).toNat = 1706832000 := rfl
  have hbreak : (1708041600 : UInt64).toNat = 1708041600 := rfl
  unfold stamp
  split
  · rw [UInt64.toNat_add, UInt64.toNat_ofNat', hstart]
    omega
  · rw [UInt64.toNat_add, UInt64.toNat_ofNat', hbreak]
    omega

theorem slowChain_height (height : ℕ) : (slowChain sha256 height).header.height = height := by
  induction height with
  | zero => rfl
  | succ height ih =>
    change (slowChain sha256 height).header.height + 1 = height + 1
    rw [ih]

theorem slowChain_timestamp (height : ℕ) : (slowChain sha256 height).header.timestamp = stamp height := by
  cases height with
  | zero => rfl
  | succ height => rfl

theorem slowChain_bits (height : ℕ) : (slowChain sha256 height).header.bits = 0x1d00ffff := by
  cases height with
  | zero => rfl
  | succ height => rfl

theorem mem_slowBranch {height : ℕ} {x : Block} (h : x ∈ slowBranch sha256 height) :
    ∃ i ≤ height, x = slowChain sha256 i := by
  induction height with
  | zero => exact ⟨0, le_rfl, List.mem_singleton.mp h⟩
  | succ height ih =>
    rcases List.mem_cons.mp h with rfl | h
    · exact ⟨height + 1, le_rfl, rfl⟩
    · obtain ⟨i, hi, rfl⟩ := ih h
      exact ⟨i, by omega, rfl⟩

theorem slowChain_mem {i height : ℕ} (h : i ≤ height) : slowChain sha256 i ∈ slowBranch sha256 height := by
  induction height with
  | zero =>
    rw [Nat.le_zero.mp h]
    exact List.mem_singleton_self _
  | succ height ih =>
    rcases Nat.eq_or_lt_of_le h with rfl | hlt
    · exact List.mem_cons_self
    · exact List.mem_cons_of_mem _ (ih (by omega))

theorem slowBranch_cons (height : ℕ) :
    ∃ rest, slowBranch sha256 height = slowChain sha256 height :: rest ∧ rest.length = height := by
  induction height with
  | zero => exact ⟨[], rfl, rfl⟩
  | succ height ih =>
    obtain ⟨rest, heq, hlen⟩ := ih
    refine ⟨slowBranch sha256 height, rfl, ?_⟩
    rw [heq, List.length_cons, hlen]

theorem slowBranch_member {height : ℕ} (hle : height ≤ 2017) {x : Block} (hx : x ∈ slowBranch sha256 height) :
    Member (mainnet sha256) (raceBlocks sha256) x := by
  obtain ⟨i, hi, rfl⟩ := mem_slowBranch hx
  rcases Nat.eq_zero_or_pos i with rfl | hpos
  · exact Or.inl rfl
  · exact Or.inr (Or.inl ⟨i, hpos, by omega, rfl⟩)

theorem slowBranch_earlier {height : ℕ} {t : UInt64} (ht : ∀ i ≤ height, (stamp i).toNat < t.toNat) :
    ∀ x ∈ slowBranch sha256 height, x.header.timestamp < t := by
  intro x hx
  obtain ⟨i, hi, rfl⟩ := mem_slowBranch hx
  rw [slowChain_timestamp]
  exact UInt64.lt_iff_toNat_lt.mpr (ht i hi)

theorem race_found (h : TellsApart sha256) {bs : List Block}
    (hm : ∀ x ∈ bs, Member (mainnet sha256) (raceBlocks sha256) x) :
    ∀ x ∈ bs, branchGet (mainnet sha256) bs (x.hash sha256) = some x := by
  intro x hx
  exact branchGet_eq h.injective hm hx

/-- With the break the difficulty stays. -/
theorem slow_retarget : targetToBits (nextTarget (mainnet sha256) (slowChain sha256 2015) (mainnet sha256).genesis) =
      0x1d00ffff := by
  unfold nextTarget
  rw [slowChain_timestamp, slowChain_bits]
  change targetToBits (retargetTarget (bitsToTarget 0x1d00ffff)
    (min (max (saturatingSub (stamp 2015) 1706832000) (max (UInt64.ofNat 2016 * 600 / 4) 1))
      (UInt64.ofNat 2016 * 600 * 4)) (UInt64.ofNat 2016 * 600) (bitsToTarget 0x1d00ffff)) = 0x1d00ffff
  decide +kernel

/-- Without the break it rises by the largest factor. -/
theorem fast_retarget : targetToBits (nextTarget (mainnet sha256) (fastFirst sha256) (mainnet sha256).genesis) =
      0x1c3fffc0 := by
  change targetToBits (retargetTarget (bitsToTarget 0x1d00ffff)
    (min (max (saturatingSub 1706834015 1706832000) (max (UInt64.ofNat 2016 * 600 / 4) 1))
      (UInt64.ofNat 2016 * 600 * 4)) (UInt64.ofNat 2016 * 600) (bitsToTarget 0x1d00ffff)) = 0x1c3fffc0
  decide +kernel

variable {u : UtxoSet}

theorem slowBranch_good (h : TellsApart sha256) (happly : applyBlock sha256 ∅ (mainnet sha256).genesis = (.ok (), u))
    {height : ℕ} (hle : height ≤ 2017) :
    GoodBranch (mainnet sha256) (raceBlocks sha256) (slowBranch sha256 height) u := by
  induction height with
  | zero => exact .genesis happly
  | succ height ih =>
    have hbelow := ih (by omega)
    have hearlier := @slowBranch_earlier sha256 height (stamp (height + 1)) (by
      intro i hi
      rw [stamp_toNat (by omega), stamp_toNat (by omega)]
      split <;> split <;> omega)
    have hfound := race_found h (fun x hx => slowBranch_member (by omega : height ≤ 2017) hx)
    have hheight := @slowChain_height sha256 height
    obtain ⟨rest, hcons, hlen⟩ := @slowBranch_cons sha256 height
    change GoodBranch _ _
      (plainBlock sha256 (slowChain sha256 height) _ _ :: slowBranch sha256 height) u
    rw [hcons] at hbelow hearlier hfound ⊢
    refine GoodBranch.plain rfl hbelow (Or.inl ⟨height + 1, by omega, hle, rfl⟩) hearlier ?_
    by_cases hperiod : height = 2015
    · subst hperiod
      exact (nextBits_retarget hbelow.valid hfound (by rw [hlen]; rfl) (by omega) _).trans slow_retarget
    · rw [hheight]
      refine (nextBits_inside rfl (hfound _ (by simp)) (Nat.succ_pos _) ?_ _).trans (slowChain_bits _)
      change (height + 1) % 2016 ≠ 0
      omega

theorem fastFirst_good (h : TellsApart sha256) (happly : applyBlock sha256 ∅ (mainnet sha256).genesis = (.ok (), u)) :
    GoodBranch (mainnet sha256) (raceBlocks sha256)
      (fastFirst sha256 :: slowBranch sha256 2014) u := by
  have hbelow := slowBranch_good h happly (by omega : 2014 ≤ 2017)
  have hearlier := @slowBranch_earlier sha256 2014 1706834015 (by
    intro i hi
    have hlimit : (1706834015 : UInt64).toNat = 1706834015 := rfl
    rw [stamp_toNat (by omega), if_pos (by omega), hlimit]
    omega)
  have hfound := race_found h (fun x hx => slowBranch_member (by omega : 2014 ≤ 2017) hx)
  have hheight := @slowChain_height sha256 2014
  obtain ⟨rest, hcons, hlen⟩ := @slowBranch_cons sha256 2014
  rw [hcons] at hbelow hearlier hfound ⊢
  refine GoodBranch.plain rfl hbelow (Or.inr (Or.inl rfl)) hearlier ?_
  rw [hheight]
  refine (nextBits_inside rfl (hfound _ (by simp)) (Nat.succ_pos _) ?_ _).trans (slowChain_bits _)
  change 2015 % 2016 ≠ 0
  decide

theorem fastSecond_good (h : TellsApart sha256) (happly : applyBlock sha256 ∅ (mainnet sha256).genesis = (.ok (), u)) :
    GoodBranch (mainnet sha256) (raceBlocks sha256)
      (fastSecond sha256 :: fastFirst sha256 :: slowBranch sha256 2014) u := by
  have hbelow := fastFirst_good h happly
  have hearlier := @slowBranch_earlier sha256 2014 1706834016 (by
    intro i hi
    have hlimit : (1706834016 : UInt64).toNat = 1706834016 := rfl
    rw [stamp_toNat (by omega), if_pos (by omega), hlimit]
    omega)
  have hfound := race_found h (GoodBranch.member hbelow)
  obtain ⟨rest, hcons, hlen⟩ := @slowBranch_cons sha256 2014
  refine GoodBranch.plain rfl hbelow (Or.inr (Or.inr rfl)) ?_ ?_
  · rw [List.forall_mem_cons]
    exact ⟨by change (1706834015 : UInt64) < 1706834016; decide, hearlier⟩
  · refine (nextBits_retarget hbelow.valid hfound ?_ ?_ _).trans fast_retarget
    · rw [hcons, List.length_cons, hlen]
      rfl
    · rw [hcons]
      simp

section Tree

variable {b : Block}

theorem raceBlocks_height (h : Member (mainnet sha256) (raceBlocks sha256) b) : b.header.height ≤ 2017 := by
  have hparent := @slowChain_height sha256 2014
  rcases h with rfl | ⟨height, -, hle, rfl⟩ | rfl | rfl
  · exact Nat.zero_le _
  · rw [slowChain_height]
    exact hle
  · change (slowChain sha256 2014).header.height + 1 ≤ 2017
    omega
  · change (slowChain sha256 2014).header.height + 1 + 1 ≤ 2017
    omega

theorem raceBlocks_low (h : Member (mainnet sha256) (raceBlocks sha256) b) (hlow : b.header.height < 2015) :
    b = slowChain sha256 b.header.height := by
  have hparent := @slowChain_height sha256 2014
  rcases h with rfl | ⟨height, -, hle, rfl⟩ | rfl | rfl
  · rfl
  · rw [slowChain_height]
  · change (slowChain sha256 2014).header.height + 1 < 2015 at hlow
    omega
  · change (slowChain sha256 2014).header.height + 1 + 1 < 2015 at hlow
    omega

theorem slow_work (h : b.header.bits = 0x1d00ffff) : blockWorkValue b = 4295032833 := by
  unfold blockWorkValue
  rw [h]
  decide +kernel

theorem fastSecond_work : blockWorkValue (fastSecond sha256) = 17180131332 := by
  change workValue (workFromCompact 0x1c3fffc0) = 17180131332
  decide +kernel

theorem raceBlocks_work (h : Member (mainnet sha256) (raceBlocks sha256) b) : blockWorkValue b ≤ 17180131332 := by
  rcases h with rfl | ⟨height, -, hle, rfl⟩ | rfl | rfl
  · rw [slow_work rfl]
    omega
  · rw [slow_work (slowChain_bits height)]
    omega
  · rw [slow_work rfl]
    omega
  · exact fastSecond_work.le

theorem raceBranch_length {bs : List Block} (h : GoodBranch (mainnet sha256) (raceBlocks sha256) bs u) :
    bs.length ≤ 2018 := by
  obtain ⟨b, rest, rfl⟩ := h.valid.exists_cons
  have hheight := raceBlocks_height (GoodBranch.member h b (by simp))
  rw [h.valid.height_eq] at hheight
  rw [List.length_cons]
  omega

theorem raceBranch_depth {old new common : List Block} {f : Block} {u v : UtxoSet}
    (hold : GoodBranch (mainnet sha256) (raceBlocks sha256) (old ++ f :: common) u)
    (hnew : GoodBranch (mainnet sha256) (raceBlocks sha256) (new ++ f :: common) v) (hne : new ≠ [])
    (hdisjoint : ∀ x ∈ old, x ∉ new) : old.length ≤ 3 := by
  rcases List.eq_nil_or_concat old with rfl | ⟨old, x, rfl⟩
  · simp
  obtain ⟨new, y, rfl⟩ := (List.eq_nil_or_concat new).resolve_left hne
  have hlen := raceBranch_length hold
  have hx : Member (mainnet sha256) (raceBlocks sha256) x :=
    GoodBranch.member hold x (by simp)
  have hy : Member (mainnet sha256) (raceBlocks sha256) y :=
    GoodBranch.member hnew y (by simp)
  have hheight : ∀ {front : List Block} {z : Block} {w : UtxoSet},
      GoodBranch (mainnet sha256) (raceBlocks sha256) (front ++ [z] ++ f :: common) w →
      z.header.height = common.length + 1 := by
    intro front z w hz
    rw [List.append_assoc, List.singleton_append] at hz
    obtain ⟨w', hz'⟩ := hz.valid.suffix
    exact hz'.height_eq
  rw [List.concat_eq_append] at hold hnew hlen ⊢
  by_contra hlong
  have hlow : common.length + 1 < 2015 := by
    simp only [List.length_append, List.length_cons, List.length_nil] at hlen hlong
    omega
  have hxslow := raceBlocks_low hx (by rw [hheight hold]; exact hlow)
  have hyslow := raceBlocks_low hy (by rw [hheight hnew]; exact hlow)
  rw [hheight hold] at hxslow
  rw [hheight hnew] at hyslow
  exact hdisjoint x (by simp) (by rw [hxslow, ← hyslow]; simp)

theorem raceTree (h : TellsApart sha256) (happly : applyBlock sha256 ∅ (mainnet sha256).genesis = (.ok (), u)) :
    BlockTree (mainnet sha256) (raceBlocks sha256) := by
  refine ⟨h.injective, h.ne_zero, ?_, ?_, ?_⟩
  · rintro b (⟨height, hpos, hle, rfl⟩ | rfl | rfl)
    · obtain ⟨height, rfl⟩ := Nat.exists_eq_succ_of_ne_zero (by omega : height ≠ 0)
      obtain ⟨rest, hcons, -⟩ := @slowBranch_cons sha256 height
      refine ⟨slowChain sha256 height, rest, u, ?_⟩
      rw [← hcons]
      exact slowBranch_good h happly hle
    · obtain ⟨rest, hcons, -⟩ := @slowBranch_cons sha256 2014
      refine ⟨slowChain sha256 2014, rest, u, ?_⟩
      rw [← hcons]
      exact fastFirst_good h happly
    · exact ⟨fastFirst sha256, slowBranch sha256 2014, u, fastSecond_good h happly⟩
  · intro bs v hbs
    have hbound : ∀ w ∈ bs.map blockWorkValue, w ≤ 17180131332 := by
      intro w hw
      obtain ⟨b, hb, rfl⟩ := List.mem_map.mp hw
      exact raceBlocks_work (GoodBranch.member hbs b hb)
    have hsum := List.sum_le_card_nsmul (bs.map blockWorkValue) _ hbound
    have hlen := raceBranch_length hbs
    rw [List.length_map, nsmul_eq_mul, Nat.cast_id] at hsum
    unfold pathWork
    omega
  · intro old new f common v w hold hnew hne hdisjoint
    have hlen := raceBranch_depth hold hnew hne hdisjoint
    unfold maxReorgDepth
    omega

theorem pathWork_cons (b : Block) (bs : List Block) : pathWork (b :: bs) = blockWorkValue b + pathWork bs := by
  simp only [pathWork, List.map_cons, List.sum_cons]

theorem slowBranch_work (height : ℕ) : pathWork (slowBranch sha256 height) = (height + 1) * 4295032833 := by
  induction height with
  | zero =>
    rw [slowBranch, pathWork_cons, slow_work rfl, pathWork, List.map_nil, List.sum_nil]
    omega
  | succ height ih =>
    rw [slowBranch, pathWork_cons, ih, slow_work (slowChain_bits _)]
    omega

theorem fastFirst_path : pathWork (fastFirst sha256 :: slowBranch sha256 2014) = 2016 * 4295032833 := by
  rw [pathWork_cons, slowBranch_work, slow_work rfl]

theorem fastSecond_path : pathWork (fastSecond sha256 :: fastFirst sha256 :: slowBranch sha256 2014) =
      2020 * 4295032833 := by
  rw [pathWork_cons, fastFirst_path, fastSecond_work]

end Tree

end Branches

section Calls

variable {cx : Context}

theorem addBlockFuel_of_noOrphans (hprune : cx.pruneDepth = none) {env : Env} {s s' : NodeState} {b : Block} {x : Exit}
    (hstep : addBlockStep cx env s b = (.ok x, s')) (hnone : s'.orphansByParent = ∅) :
    addBlockFuel cx env 2 s b = some ⟨.ok x, s', [⟨env, s, b, .ok x⟩]⟩ := by
  have hchildren : env.childOrder ((s'.orphansByParent.lookup (b.hash cx.sha256)).getD []) = [] := by
    rw [hnone]
    exact List.perm_nil.mp (env.childOrder_perm [])
  unfold addBlockFuel
  rw [hstep]
  cases x with
  | connected =>
    simp only [processOrphans, hchildren, reconnectChildren, List.reverse_nil, List.nil_append,
      maybePrune_none hprune]
  | stored => rfl
  | orphaned => rfl

end Calls

section Delivered

variable {sha256 : Sha256} {u : UtxoSet} {s : NodeState} {height : ℕ} {calls : List Call} {env : Env} {s₀ : NodeState}

/-- A clock after all timestamps. -/
def later : Env := Env.reliable 1708050000

theorem later_reliable : Reliable (mainnet sha256) (raceBlocks sha256) later := by
  refine ⟨fun _ _ => rfl, ?_⟩
  intro b hb
  have hclock : (1708050000 : UInt64).toNat = 1708050000 := rfl
  have hbefore : b.header.timestamp ≤ 1708050000 := by
    rcases hb with ⟨height, -, hle, rfl⟩ | rfl | rfl
    · rw [slowChain_timestamp, UInt64.le_iff_toNat_le, stamp_toNat (by omega), hclock]
      split <;> omega
    · change (1706834015 : UInt64) ≤ 1708050000
      decide
    · change (1706834016 : UInt64) ≤ 1708050000
      decide
  have hlimit : (1708050000 : UInt64) ≤ saturatingAdd 1708050000 maxFutureBlockTimeSecs := by decide
  exact UInt64.le_trans hbefore hlimit

theorem slow_chain (h : TellsApart sha256) (happly : applyBlock sha256 ∅ (mainnet sha256).genesis = (.ok (), u))
    (hle : height ≤ 2017) (hs : TreeInv (mainnet sha256) (raceBlocks sha256) s)
    (htip : s.tip = (slowChain sha256 height).hash sha256) :
    ChainInv (mainnet sha256) (Member (mainnet sha256) (raceBlocks sha256)) s
        (slowBranch sha256 height) ∧
      (∀ i ≤ height, Placed (mainnet sha256) s (slowChain sha256 i)) ∧ s.height = height ∧
      workValue s.chainwork = (height + 1) * 4295032833 := by
  have htree := raceTree h happly
  obtain ⟨t, rest, hchain, hgood, htop, hplaced, hwork⟩ := hs.chain htree
  obtain ⟨rest', hcons, hlen⟩ := @slowBranch_cons sha256 height
  have hslow := slowBranch_good h happly hle
  have hmember := fun x hx => @slowBranch_member sha256 height hle x hx
  rw [hcons] at hslow hmember
  obtain rfl : t = slowChain sha256 height :=
    h.injective _ _ (GoodBranch.member hgood _ (by simp)) (hmember _ (by simp)) (htop.trans htip)
  obtain rfl := htree.eq_of_head hgood.valid hslow.valid (GoodBranch.member hgood) hmember
  rw [← hcons] at hchain hplaced hwork
  refine ⟨hchain, ?_, ?_, ?_⟩
  · intro i hi
    exact hplaced _ (slowChain_mem hi)
  · have hheight := hchain.height
    rw [hcons, List.length_cons] at hheight
    omega
  · rw [← hwork, slowBranch_work]

/-- The slow chain has been delivered up to a height, every call succeeded, and no block waits. -/
structure Raced (sha256 : Sha256) (s : NodeState) (calls : List Call) (height : ℕ) : Prop where
  run : Run (mainnet sha256) s calls
  succeeded : ∀ c ∈ calls, raceBlocks sha256 c.block ∧ ∃ x, c.result = .ok x
  tree : TreeInv (mainnet sha256) (raceBlocks sha256) s
  tip : s.tip = (slowChain sha256 height).hash sha256
  trimmed : Trimmed s
  noOrphans : s.orphansByParent = ∅

theorem succeeded_append (h : ∀ c ∈ calls, raceBlocks sha256 c.block ∧ ∃ x, c.result = .ok x) {c : Call}
    (hc : raceBlocks sha256 c.block) (hok : ∃ x, c.result = .ok x) :
    ∀ c' ∈ calls ++ [c], raceBlocks sha256 c'.block ∧ ∃ x, c'.result = .ok x := by
  intro c' hc'
  rcases List.mem_append.mp hc' with hmem | hmem
  · exact h c' hmem
  · rw [List.mem_singleton.mp hmem]
    exact ⟨hc, hok⟩

theorem Raced.extend (h : TellsApart sha256) (happly : applyBlock sha256 ∅ (mainnet sha256).genesis = (.ok (), u))
    {calls : List Call} {height : ℕ} (hlt : height < 2017) (hs : Raced sha256 s calls height) :
    ∃ s' calls', Raced sha256 s' calls' (height + 1) := by
  have htree := raceTree h happly
  obtain ⟨-, hplaced, hheight, -⟩ := slow_chain h happly (by omega) hs.tree hs.tip
  have hT : raceBlocks sha256 (slowChain sha256 (height + 1)) :=
    Or.inl ⟨height + 1, by omega, by omega, rfl⟩
  have hprev : (slowChain sha256 (height + 1)).header.prevHash = s.tip := hs.tip.symm
  have hparent : (s.store.disk.blocks.lookup
      (slowChain sha256 (height + 1)).header.prevHash).isSome = true :=
    Option.isSome_iff_exists.mpr ⟨_, hplaced height le_rfl⟩
  have hkeeps : KeepsHeight s (slowChain sha256 (height + 1)) := by
    intro _ _
    rw [slowChain_height]
    omega
  obtain ⟨htree', -⟩ := hs.tree.step htree rfl later_reliable hT hparent hkeeps
  have hok : (addBlockStep (mainnet sha256) later s (slowChain sha256 (height + 1))).1 =
      .ok .connected := by
    rcases hs.tree.accepted htree later_reliable hT hparent with hr | ⟨hr, -⟩
    · exact hr
    · exact absurd hprev (stored_inv hr).1
  have hcases := @addBlockStep_cases (mainnet sha256) later s (slowChain sha256 (height + 1))
  generalize hstep : addBlockStep (mainnet sha256) later s (slowChain sha256 (height + 1)) = p at *
  obtain ⟨r, s'⟩ := p
  simp only at htree' hok hcases
  subst hok
  cases hcases with
  | extended _ _ hext =>
    have hnone : s'.orphansByParent = ∅ := hext.orphansByParent.trans hs.noOrphans
    have hcall := @addBlockFuel_of_noOrphans (mainnet sha256) rfl _ _ _ _ _ hstep hnone
    exact ⟨s', _, hs.run.add hcall, succeeded_append hs.succeeded hT ⟨_, rfl⟩, htree', hext.tip,
      Trimmed.extended hext, hnone⟩
  | stored _ hoff => exact absurd hprev hoff
  | reorganized _ hoff => exact absurd hprev hoff

theorem exists_raced (h : TellsApart sha256) (hnew : NodeState.new (mainnet sha256) env Disk.empty = .ok s₀)
    (hle : height ≤ 2017) : ∃ s calls, Raced sha256 s calls height := by
  have hfresh := freshNode hnew
  induction height with
  | zero =>
    refine ⟨s₀, [], Run.fresh hnew, by simp, TreeInv.fresh (raceTree h hfresh.applied) hfresh,
      hfresh.tip, ?_, hfresh.orphansByParent⟩
    intro hhigh
    rw [hfresh.height] at hhigh
    omega
  | succ height ih =>
    obtain ⟨s, calls, hs⟩ := ih (by omega)
    exact hs.extend h hfresh.applied (by omega)

theorem prevHash_ne_tip (h : TellsApart sha256) {b : Block} (hs : Raced sha256 s calls 2017)
    (hb : Member (mainnet sha256) (raceBlocks sha256) b) (hlow : b.header.height < 2017) : b.hash sha256 ≠ s.tip := by
  intro hhash
  rw [hs.tip] at hhash
  have hmem : Member (mainnet sha256) (raceBlocks sha256) (slowChain sha256 2017) :=
    Or.inr (Or.inl ⟨2017, by omega, le_rfl, rfl⟩)
  rw [h.injective _ _ hb hmem hhash, slowChain_height] at hlow
  omega

theorem fastFirst_height : (fastFirst sha256).header.height = 2015 := by
  change (slowChain sha256 2014).header.height + 1 = 2015
  rw [slowChain_height]

theorem fastSecond_height : (fastSecond sha256).header.height = 2016 := by
  change (fastFirst sha256).header.height + 1 = 2016
  rw [fastFirst_height]

/-- The first block of the other branch has less work than the chain, and is kept beside it. -/
theorem Raced.keepFastFirst (h : TellsApart sha256)
    (happly : applyBlock sha256 ∅ (mainnet sha256).genesis = (.ok (), u)) (hs : Raced sha256 s calls 2017) :
    ∃ s' calls', Raced sha256 s' calls' 2017 ∧ Placed (mainnet sha256) s' (fastFirst sha256) := by
  have htree := raceTree h happly
  obtain ⟨-, hplaced, -, hwork⟩ := slow_chain h happly le_rfl hs.tree hs.tip
  have hT : raceBlocks sha256 (fastFirst sha256) := Or.inr (Or.inl rfl)
  have hoff : (fastFirst sha256).header.prevHash ≠ s.tip :=
    prevHash_ne_tip h hs (Or.inr (Or.inl ⟨2014, by omega, by omega, rfl⟩))
      (by rw [slowChain_height]; omega)
  have hparent : (s.store.disk.blocks.lookup (fastFirst sha256).header.prevHash).isSome = true :=
    Option.isSome_iff_exists.mpr ⟨_, hplaced 2014 (by omega)⟩
  have hless : compareWork (cumulativeWork s (fastFirst sha256)) s.chainwork ≠ .gt := by
    intro hgt
    rw [compareWork_eq_gt_iff, hwork, hs.tree.cumulativeWork_eq htree later_reliable hT hparent
      (fastFirst_good h happly), fastFirst_path] at hgt
    omega
  have hkeeps : KeepsHeight s (fastFirst sha256) := fun _ hgt => absurd hgt hless
  obtain ⟨htree', hadded⟩ := hs.tree.step htree rfl later_reliable hT hparent hkeeps
  have hok := hs.tree.accepted htree later_reliable hT hparent
  have hcases := @addBlockStep_cases (mainnet sha256) later s (fastFirst sha256)
  generalize hstep : addBlockStep (mainnet sha256) later s (fastFirst sha256) = p at *
  obtain ⟨r, s'⟩ := p
  simp only at htree' hok hcases hadded
  cases hcases with
  | rejected => simp at hok
  | orphaned => simp at hok
  | extended _ hon => exact absurd hon hoff
  | stored _ _ hside why =>
    obtain ⟨rfl, -⟩ | ⟨hgt, -⟩ := why
    · have hnone : s'.orphansByParent = ∅ := hside.orphansByParent.trans hs.noOrphans
      have hcall := @addBlockFuel_of_noOrphans (mainnet sha256) rfl _ _ _ _ _ hstep hnone
      refine ⟨s', _, ⟨hs.run.add hcall, succeeded_append hs.succeeded hT ⟨_, rfl⟩, htree',
        hside.tip.trans hs.tip, ?_, hnone⟩, (hadded _).mpr (Or.inl rfl)⟩
      intro hhigh i k hk hi
      rw [hside.height] at hhigh hi
      rw [hside.heightMap] at hk
      rw [hside.undo]
      exact hs.trimmed hhigh i k hk hi
    · exact absurd hgt hless
  | reorganized _ _ _ hgt => exact absurd hgt hless
  | broken => simp at hok

theorem Raced.moveDown (h : TellsApart sha256) (happly : applyBlock sha256 ∅ (mainnet sha256).genesis = (.ok (), u))
    (hs : Raced sha256 s calls 2017) (hfirst : Placed (mainnet sha256) s (fastFirst sha256)) :
    ∃ s' c, Run (mainnet sha256) s' (calls ++ [c]) ∧ raceBlocks sha256 c.block ∧
      (∃ x, c.result = .ok x) ∧ s'.height = 2016 ∧
      ¬ ∃ chain, UndoReady (mainnet sha256) s' chain := by
  have htree := raceTree h happly
  obtain ⟨hchain, -, hheight, hwork⟩ := slow_chain h happly le_rfl hs.tree hs.tip
  have hT : raceBlocks sha256 (fastSecond sha256) := Or.inr (Or.inr rfl)
  have hoff : (fastSecond sha256).header.prevHash ≠ s.tip :=
    prevHash_ne_tip h hs (Or.inr (Or.inr (Or.inl rfl))) (by rw [fastFirst_height]; omega)
  have hparent : (s.store.disk.blocks.lookup (fastSecond sha256).header.prevHash).isSome = true :=
    Option.isSome_iff_exists.mpr ⟨_, hfirst⟩
  have hmore : compareWork (cumulativeWork s (fastSecond sha256)) s.chainwork = .gt := by
    rw [compareWork_eq_gt_iff, hwork, hs.tree.cumulativeWork_eq htree later_reliable hT hparent
      (fastSecond_good h happly), fastSecond_path]
    omega
  have hok : (addBlockStep (mainnet sha256) later s (fastSecond sha256)).1 = .ok .connected :=
    (hs.tree.accepted htree later_reliable hT hparent).resolve_right fun hr => hr.2 hmore
  have horphans := (hs.tree.stores htree rfl later_reliable hT hparent).2.2
  have hcases := @addBlockStep_cases (mainnet sha256) later s (fastSecond sha256)
  generalize hstep : addBlockStep (mainnet sha256) later s (fastSecond sha256) = p at *
  obtain ⟨r, s'⟩ := p
  simp only at hok horphans hcases
  subst hok
  have hcall := @addBlockFuel_of_noOrphans (mainnet sha256) rfl _ _ _ _ _ hstep
    (horphans.trans hs.noOrphans)
  cases hcases with
  | extended _ hon => exact absurd hon hoff
  | stored _ _ _ why =>
    obtain ⟨hr, -⟩ | ⟨-, ⟨e, hr⟩, -⟩ := why
    · simp at hr
    · simp at hr
  | @reorganized s₁ s₂ s₃ _ disconnect connect hadm _ hside _ hreorg _ =>
    refine ⟨s', _, hs.run.add hcall, hT, ⟨_, rfl⟩, hreorg.height.trans fastSecond_height, ?_⟩
    have htrimmed : Trimmed s₁ := by
      intro hhigh i k hk hi
      rw [hside.height] at hhigh hi
      rw [hside.heightMap] at hk
      rw [hside.undo]
      exact hs.trimmed hhigh i k hk hi
    refine lower_switch_uncovers htree.collisionFree (hchain.sideStored hside)
      (hs.tree.node.store.sideStored htree.collisionFree (Or.inr hT) hadm hside) (Or.inr hT)
      htrimmed hreorg ?_ ?_
    · rw [hside.height, hheight]
      decide
    · rw [hside.height, hheight, fastSecond_height]
      omega

/-- With a hash function that tells the blocks apart, the race is a run of successful calls that
leaves blocks within the depth limit without undo records. -/
theorem race_uncovers (h : TellsApart sha256) (hnew : NodeState.new (mainnet sha256) env Disk.empty = .ok s₀) :
    ∃ s calls, Run (mainnet sha256) s calls ∧
      CollisionFree (mainnet sha256) (Known (mainnet sha256) calls) ∧
      (∀ c ∈ calls, ∃ x, c.result = .ok x) ∧ s.height = 2016 ∧
      ¬ ∃ chain, UndoReady (mainnet sha256) s chain := by
  have hfresh := freshNode hnew
  obtain ⟨s₁, calls₁, h₁⟩ := exists_raced h hnew le_rfl
  obtain ⟨s₂, calls₂, h₂, hfirst⟩ := h₁.keepFastFirst h hfresh.applied
  obtain ⟨s, c, hrun, hT, hok, hheight, huncovered⟩ := h₂.moveDown h hfresh.applied hfirst
  have hcalls := succeeded_append h₂.succeeded hT hok
  have hmember : ∀ b, Known (mainnet sha256) (calls₂ ++ [c]) b →
      Member (mainnet sha256) (raceBlocks sha256) b := by
    rintro b (rfl | ⟨c', hc', rfl⟩)
    · exact Or.inl rfl
    · exact Or.inr (hcalls c' hc').1
  refine ⟨s, _, hrun, ⟨Or.inl rfl, ?_, ?_⟩, fun c' hc' => (hcalls c' hc').2, hheight, huncovered⟩
  · intro a b ha hb hhash
    rw [h.injective a b (hmember a ha) (hmember b hb) hhash]
  · exact fun a ha => h.ne_zero a (hmember a ha)

end Delivered

section LastBytes

theorem raceBlocks_eq {sha256 : Sha256} {a b : Block} (ha : Member (mainnet sha256) (raceBlocks sha256) a)
    (hb : Member (mainnet sha256) (raceBlocks sha256) b) (htime : a.header.timestamp = b.header.timestamp)
    (hheight : a.header.height = b.header.height) : a = b := by
  have hslow : ∀ {x : Block}, Member (mainnet sha256) (raceBlocks sha256) x →
      x = slowChain sha256 x.header.height ∨ x = fastFirst sha256 ∨ x = fastSecond sha256 := by
    rintro x (rfl | ⟨height, -, -, rfl⟩ | hx)
    · exact Or.inl rfl
    · rw [slowChain_height]
      exact Or.inl rfl
    · exact Or.inr hx
  have hfirst : (fastFirst sha256).header.timestamp ≠
      (slowChain sha256 (fastFirst sha256).header.height).header.timestamp := by
    rw [fastFirst_height, slowChain_timestamp]
    change (1706834015 : UInt64) ≠ stamp 2015
    decide
  have hsecond : (fastSecond sha256).header.timestamp ≠
      (slowChain sha256 (fastSecond sha256).header.height).header.timestamp := by
    rw [fastSecond_height, slowChain_timestamp]
    change (1706834016 : UInt64) ≠ stamp 2016
    decide
  have hfirst' := @fastFirst_height sha256
  have hsecond' := @fastSecond_height sha256
  rcases hslow ha with hxa | rfl | rfl
  · rcases hslow hb with hxb | rfl | rfl
    · rw [hxa, hxb, hheight]
    · rw [hxa, hheight] at htime
      exact absurd htime.symm hfirst
    · rw [hxa, hheight] at htime
      exact absurd htime.symm hsecond
  · rcases hslow hb with hxb | rfl | rfl
    · rw [hxb, ← hheight] at htime
      exact absurd htime hfirst
    · rfl
    · omega
  · rcases hslow hb with hxb | rfl | rfl
    · rw [hxb, ← hheight] at htime
      exact absurd htime hsecond
    · omega
    · rfl

theorem lastBytes_tellsApart : TellsApart lastBytes := by
  have hheights : ∀ {x : Block}, Member (mainnet lastBytes) (raceBlocks lastBytes) x →
      x.header.height < 256 ^ 8 := by
    intro x hx
    have := raceBlocks_height hx
    omega
  refine ⟨?_, ?_⟩
  · intro a b ha hb hhash
    obtain ⟨htime, hheight⟩ := lastBytes_header (hheights ha) (hheights hb) hhash
    exact raceBlocks_eq ha hb htime hheight
  · intro b hb
    apply lastBytes_ne_zero
    rcases hb with rfl | ⟨height, -, hle, rfl⟩ | rfl | rfl
    · decide
    · rw [slowChain_timestamp]
      intro hzero
      have hnat := congrArg UInt64.toNat hzero
      rw [stamp_toNat (by omega)] at hnat
      have hnone : (0 : UInt64).toNat = 0 := rfl
      split at hnat <;> omega
    · change (1706834015 : UInt64) ≠ 0
      decide
    · change (1706834016 : UInt64) ≠ 0
      decide

/-- The race with a hash function for which it can be followed: every call succeeds, and at the
end undo records within the depth limit are missing. -/
theorem shorter_chain_uncovers : ∃ s calls, Run (mainnet lastBytes) s calls ∧
      CollisionFree (mainnet lastBytes) (Known (mainnet lastBytes) calls) ∧
      (∀ c ∈ calls, ∃ x, c.result = .ok x) ∧ s.height = 2016 ∧
      ¬ ∃ chain, UndoReady (mainnet lastBytes) s chain := by
  have hopens : (NodeState.new (mainnet lastBytes) later Disk.empty).isOk = true := by
    decide +kernel
  cases hnew : NodeState.new (mainnet lastBytes) later Disk.empty with
  | error e => simp [hnew, Except.isOk, Except.toBool] at hopens
  | ok s₀ => exact race_uncovers lastBytes_tellsApart hnew

end LastBytes

end KuberCoin.ShorterChains
