import KuberCoin.BranchReads
import KuberCoin.UndoRecords
import KuberCoin.WorkPaths

/-!
Calls on a tree of blocks that are valid on their own branches.
A node that has the branch below such a block accepts it: it extends the tip, is kept on a
side chain, or becomes the tip of the heavier chain. `TreeInv` is what such calls keep: the
node has whole branches, and none of them is heavier than its own chain.
-/
namespace KuberCoin.BlockTrees

open Bytes Maps Transactions Blocks UtxoSets Params Difficulty Validator Storage NodeStates
  NodeStates.NodeState AddBlock Frames BlockEffects StepCases Runs Branches ChainInvariants
  StoredBodies BestChain UndoRecords WorkPaths BranchReads

variable (cx : Context) (T : Block → Prop)

/-- Genesis or a block of the tree. -/
def Member (b : Block) : Prop := b = cx.genesis ∨ T b

/-- The blocks of `T` form a tree over genesis in which every block is valid on its own branch
and hashes tell blocks apart. Work stays in range, and two branches part at most a hundred
blocks below their tips. -/
structure BlockTree : Prop where
  hash_injective : ∀ a b, Member cx T a → Member cx T b →
    a.hash cx.sha256 = b.hash cx.sha256 → a = b
  ne_zero : ∀ b, Member cx T b → b.hash cx.sha256 ≠ Bytes32.zero
  branch : ∀ b, T b → ∃ parent rest u, GoodBranch cx T (b :: parent :: rest) u
  range : ∀ bs u, GoodBranch cx T bs u → pathWork bs < 2 ^ 256
  depth : ∀ old new f common u v, GoodBranch cx T (old ++ f :: common) u →
    GoodBranch cx T (new ++ f :: common) v → new ≠ [] → (∀ x ∈ old, x ∉ new) →
    old.length ≤ maxReorgDepth

/-- Above the height where undo records are deleted, a heavier branch is not shorter. -/
def Level : Prop :=
  ∀ bs cs u v, GoodBranch cx T bs u → GoodBranch cx T cs v →
    pathWork bs < pathWork cs → maxReorgDepth + 1 < bs.length → bs.length ≤ cs.length

variable {cx T}

section Branches

variable {bs : List Block} {u : UtxoSet} {b : Block}

theorem BlockTree.collisionFree (htree : BlockTree cx T) : CollisionFree cx (Member cx T) where
  genesis := Or.inl rfl
  header_eq a b ha hb h := by rw [htree.hash_injective a b ha hb h]
  ne_zero := htree.ne_zero

theorem GoodBranch.member (h : GoodBranch cx T bs u) : ∀ x ∈ bs, Member cx T x := by
  induction h with
  | genesis =>
    intro x hx
    exact Or.inl (List.mem_singleton.mp hx)
  | extend hbranch hT hprev hheight hbits hvalid happly ih =>
    rw [List.forall_mem_cons]
    exact ⟨Or.inr hT, ih⟩

theorem GoodBranch.suffix {pre : List Block} {b : Block} {rest : List Block} {u : UtxoSet}
    (h : GoodBranch cx T (pre ++ b :: rest) u) : ∃ u', GoodBranch cx T (b :: rest) u' := by
  induction pre generalizing u with
  | nil => exact ⟨u, h⟩
  | cons a pre ih =>
    obtain ⟨p, pre', hp⟩ : ∃ p pre', pre ++ b :: rest = p :: pre' := by
      cases pre with
      | nil => exact ⟨_, _, rfl⟩
      | cons p pre => exact ⟨_, _, rfl⟩
    rw [List.cons_append, hp] at h
    cases h with
    | extend hbranch =>
      rw [← hp] at hbranch
      exact ih hbranch

theorem BlockTree.eq_of_head (htree : BlockTree cx T) {as : List Block} {v : UtxoSet} (ha : ValidBranch cx (b :: as) u)
    (hb : ValidBranch cx (b :: bs) v) (hma : ∀ x ∈ b :: as, Member cx T x) (hmb : ∀ x ∈ b :: bs, Member cx T x) :
    as = bs := by
  have hlen : as.length = bs.length := ha.height_eq.symm.trans hb.height_eq
  induction as generalizing b bs u v with
  | nil => exact (List.length_eq_zero_iff.mp hlen.symm).symm
  | cons p as ih =>
    cases bs with
    | nil => simp at hlen
    | cons q bs =>
      obtain ⟨u₀, -, -, -, hp, hprev, -⟩ := ha.tail
      obtain ⟨v₀, -, -, -, hq, hprev', -⟩ := hb.tail
      obtain rfl : p = q :=
        htree.hash_injective p q (hma p (by simp)) (hmb q (by simp)) (hprev.symm.trans hprev')
      rw [ih hp hq (fun x hx => hma x (List.mem_cons_of_mem _ hx))
        (fun x hx => hmb x (List.mem_cons_of_mem _ hx)) (by simpa using hlen)]

theorem BlockTree.good (htree : BlockTree cx T) (h : ValidBranch cx bs u) (hm : ∀ x ∈ bs, Member cx T x) :
    GoodBranch cx T bs u := by
  obtain ⟨b, rest, rfl⟩ := h.exists_cons
  rcases hm b (by simp) with rfl | hT
  · have hlen : rest.length = 0 := h.height_eq.symm
    obtain rfl := List.length_eq_zero_iff.mp hlen
    cases h with
    | genesis happly => exact .genesis happly
  · obtain ⟨parent, rest', v, hgood⟩ := htree.branch b hT
    obtain rfl := htree.eq_of_head h hgood.valid hm (GoodBranch.member hgood)
    rwa [h.unique hgood.valid]

theorem branchGet_eq {M : Block → Prop} (hinj : ∀ a b, M a → M b → a.hash cx.sha256 = b.hash cx.sha256 → a = b)
    (hm : ∀ x ∈ bs, M x) {x : Block} (hx : x ∈ bs) : branchGet cx bs (x.hash cx.sha256) = some x := by
  unfold branchGet
  cases hfind : bs.find? fun b => b.hash cx.sha256 = x.hash cx.sha256 with
  | none =>
    have := List.find?_eq_none.mp hfind x hx
    simp at this
  | some y =>
    have hhash := List.find?_some hfind
    rw [decide_eq_true_eq] at hhash
    rw [hinj y x (hm y (List.mem_of_find?_eq_some hfind)) (hm x hx) hhash]

theorem GoodBranch.path (h : GoodBranch cx T bs u) : Path cx (Member cx T) bs := by
  induction h with
  | genesis => exact .genesis (Or.inl rfl) rfl
  | extend hbranch hT hprev hheight hbits hvalid happly ih => exact .child (Or.inr hT) ih hprev

theorem BlockTree.work_eq (htree : BlockTree cx T) {rest : List Block} (h : GoodBranch cx T (b :: rest) u) {w : Bytes32}
    (hw : PathEntry cx (Member cx T) (b.hash cx.sha256) w) : workValue w = pathWork (b :: rest) := by
  obtain ⟨c, cs, hpath, hhash, hvalue⟩ := hw
  obtain rfl : c = b := htree.hash_injective c b (hpath.known c (by simp))
    (GoodBranch.member h b (by simp)) hhash
  rw [hvalue, hpath.work_eq htree.collisionFree (GoodBranch.path h) rfl,
    Nat.mod_eq_of_lt (htree.range _ _ h)]

end Branches

section Walks

variable {get : Bytes32 → Option Block} {b t : Block} {rest : List Block} {u : UtxoSet} {fuel : ℕ}

theorem mem_ancestors (h : ValidBranch cx (b :: rest) u) (hne : ∀ x ∈ b :: rest, x.hash cx.sha256 ≠ Bytes32.zero)
    (hget : ∀ x ∈ b :: rest, get (x.hash cx.sha256) = some x) (hfuel : rest.length ≤ fuel) {x : Block}
    (hx : x ∈ b :: rest) : x.hash cx.sha256 ∈ ancestors get fuel (b.hash cx.sha256) := by
  induction rest generalizing b u fuel with
  | nil =>
    rw [List.mem_singleton.mp hx]
    cases fuel with
    | zero => simp [ancestors]
    | succ fuel => simp [ancestors]
  | cons p rest ih =>
    cases fuel with
    | zero => simp at hfuel
    | succ fuel =>
      obtain ⟨u₀, -, -, -, htail, hprev, -⟩ := h.tail
      rw [ancestors, List.mem_cons]
      rcases List.mem_cons.mp hx with rfl | hx
      · exact Or.inl rfl
      · right
        simp only [hget b (by simp), hprev]
        rw [if_neg (hne p (by simp))]
        exact ih htail (fun y hy => hne y (List.mem_cons_of_mem _ hy))
          (fun y hy => hget y (List.mem_cons_of_mem _ hy)) (by simpa using hfuel) hx

theorem traceNew_branch {old : List Bytes32} (h : ValidBranch cx (b :: rest) u)
    (hget : ∀ x ∈ b :: rest, get (x.hash cx.sha256) = some x) (hfuel : rest.length < fuel)
    (hmeet : ∃ x ∈ b :: rest, x.hash cx.sha256 ∈ old) :
    ∃ new f common, b :: rest = new ++ f :: common ∧ f.hash cx.sha256 ∈ old ∧
      (∀ x ∈ new, x.hash cx.sha256 ∉ old) ∧
      traceNew get old fuel (b.hash cx.sha256) = .ok (hashes cx new, f.hash cx.sha256) := by
  induction rest generalizing b u fuel with
  | nil =>
    obtain ⟨fuel, rfl⟩ := Nat.exists_eq_succ_of_ne_zero (by omega : fuel ≠ 0)
    obtain ⟨x, hx, hmem⟩ := hmeet
    rw [List.mem_singleton.mp hx] at hmem
    refine ⟨[], b, [], rfl, hmem, by simp, ?_⟩
    simp [traceNew, hmem, hashes]
  | cons p rest ih =>
    obtain ⟨fuel, rfl⟩ := Nat.exists_eq_succ_of_ne_zero (by omega : fuel ≠ 0)
    by_cases hmem : b.hash cx.sha256 ∈ old
    · refine ⟨[], b, p :: rest, rfl, hmem, by simp, ?_⟩
      simp [traceNew, hmem, hashes]
    · obtain ⟨u₀, -, -, -, htail, hprev, -⟩ := h.tail
      have hmeet' : ∃ x ∈ p :: rest, x.hash cx.sha256 ∈ old := by
        obtain ⟨x, hx, hold⟩ := hmeet
        rcases List.mem_cons.mp hx with rfl | hx
        · exact absurd hold hmem
        · exact ⟨x, hx, hold⟩
      obtain ⟨new, f, common, hsplit, hf, hnew, htrace⟩ := ih htail
        (fun y hy => hget y (List.mem_cons_of_mem _ hy)) (by simpa using hfuel) hmeet'
      refine ⟨b :: new, f, common, by rw [hsplit]; rfl, hf, ?_, ?_⟩
      · rw [List.forall_mem_cons]
        exact ⟨hmem, hnew⟩
      · unfold traceNew
        rw [if_neg hmem]
        simp only [hget b (by simp), hprev, htrace]
        rfl

theorem traceOld_branch {old common : List Block} {f : Block} (hsplit : t :: rest = old ++ f :: common)
    (h : ValidBranch cx (t :: rest) u) (hget : ∀ x ∈ t :: rest, get (x.hash cx.sha256) = some x)
    (hne : ∀ x ∈ old, x.hash cx.sha256 ≠ f.hash cx.sha256) (hfuel : old.length < fuel) :
    traceOld get (f.hash cx.sha256) fuel (t.hash cx.sha256) = .ok (hashes cx old) := by
  induction old generalizing t rest u fuel with
  | nil =>
    obtain ⟨fuel, rfl⟩ := Nat.exists_eq_succ_of_ne_zero (by omega : fuel ≠ 0)
    obtain ⟨rfl, -⟩ := List.cons.inj hsplit
    simp [traceOld, hashes]
  | cons b old ih =>
    obtain ⟨fuel, rfl⟩ := Nat.exists_eq_succ_of_ne_zero (by omega : fuel ≠ 0)
    obtain ⟨rfl, hrest⟩ := List.cons.inj hsplit
    obtain ⟨p, rest', rfl⟩ : ∃ p rest', rest = p :: rest' := by
      cases old with
      | nil => exact ⟨_, _, hrest⟩
      | cons p old => exact ⟨_, _, hrest⟩
    obtain ⟨u₀, -, -, -, htail, hprev, -⟩ := h.tail
    have hbelow := ih hrest htail (fun y hy => hget y (List.mem_cons_of_mem _ hy))
      (fun y hy => hne y (List.mem_cons_of_mem _ hy)) (by simpa using hfuel)
    unfold traceOld
    rw [if_neg (hne t (by simp))]
    simp only [hget t (by simp), hprev, hbelow]
    rfl

theorem BlockTree.findForkBlocks_eq (htree : BlockTree cx T) (hplaced : WellPlaced cx (Member cx T) get)
    {ts bs : List Block} {v : UtxoSet} (ht : GoodBranch cx T (t :: ts) u) (hb : GoodBranch cx T (b :: bs) v)
    (hget : ∀ x ∈ t :: ts, get (x.hash cx.sha256) = some x) (hget' : ∀ x ∈ b :: bs, get (x.hash cx.sha256) = some x)
    (hfuel : ts.length < fuel) (hfuel' : bs.length < fuel) :
    ∃ old new f common, t :: ts = old ++ f :: common ∧ b :: bs = new ++ f :: common ∧
      (∀ x ∈ old, x ∉ new) ∧
      findForkBlocks get fuel (t.hash cx.sha256) (b.hash cx.sha256) =
        .ok (hashes cx old, (hashes cx new).reverse) := by
  have hreach : ∀ x ∈ t :: ts, x.hash cx.sha256 ∈ ancestors get fuel (t.hash cx.sha256) :=
    fun x hx => mem_ancestors ht.valid (fun y hy => htree.ne_zero y (GoodBranch.member ht y hy)) hget
      (by omega) hx
  -- the two branches meet at genesis at the latest
  have hmeet : ∃ x ∈ b :: bs, x.hash cx.sha256 ∈ ancestors get fuel (t.hash cx.sha256) := by
    have hlast : ∀ {c cs w}, GoodBranch cx T (c :: cs) w → cx.genesis ∈ c :: cs := by
      intro c cs w hc
      obtain hnil : c :: cs ≠ [] := List.cons_ne_nil c cs
      have hsplit := List.dropLast_append_getLast hnil
      have hvalid := hc.valid
      rw [← hsplit] at hvalid
      rw [← hvalid.last]
      exact List.getLast_mem hnil
    exact ⟨cx.genesis, hlast hb, hreach _ (hlast ht)⟩
  obtain ⟨new, f, common, hnew, hf, hapart, htrace⟩ := traceNew_branch hb.valid hget' hfuel' hmeet
  have hft : f ∈ t :: ts := by
    have hmem := ancestors_subset htree.collisionFree hplaced fuel ht.valid (GoodBranch.member ht) _ hf
    obtain ⟨y, hy, hhash⟩ := List.mem_map.mp hmem
    have hfm : Member cx T f := GoodBranch.member hb f (by rw [hnew]; simp)
    rwa [← htree.hash_injective y f (GoodBranch.member ht y hy) hfm hhash]
  obtain ⟨old, common', hold⟩ := List.append_of_mem hft
  have hcommon : common' = common := by
    have ht' := ht
    have hb' := hb
    rw [hold] at ht'
    rw [hnew] at hb'
    obtain ⟨u₁, hu₁⟩ := GoodBranch.suffix ht'
    obtain ⟨v₁, hv₁⟩ := GoodBranch.suffix hb'
    exact htree.eq_of_head hu₁.valid hv₁.valid (GoodBranch.member hu₁) (GoodBranch.member hv₁)
  subst hcommon
  have hne : ∀ x ∈ old, x.hash cx.sha256 ≠ f.hash cx.sha256 := by
    intro x hx heq
    have hxm : Member cx T x := GoodBranch.member ht x (by rw [hold]; exact List.mem_append_left _ hx)
    obtain rfl := htree.hash_injective x f hxm (GoodBranch.member ht f hft) heq
    obtain ⟨pre, post, rfl⟩ := List.append_of_mem hx
    have hhigh := ht.valid
    rw [hold, List.append_assoc, List.cons_append] at hhigh
    obtain ⟨u₁, hu₁⟩ := hhigh.suffix
    have hlow := hu₁
    rw [← List.cons_append] at hlow
    obtain ⟨u₂, hu₂⟩ := hlow.suffix
    have hsame := hu₁.height_eq.symm.trans hu₂.height_eq
    rw [List.length_append, List.length_cons] at hsame
    omega
  refine ⟨old, new, f, common', hold, hnew, ?_, ?_⟩
  · intro x hx hxnew
    exact hapart x hxnew (hreach x (by rw [hold]; exact List.mem_append_left _ hx))
  · have hlen := congrArg List.length hold
    rw [List.length_cons, List.length_append, List.length_cons] at hlen
    have hback : traceOld get (f.hash cx.sha256) fuel (t.hash cx.sha256) = .ok (hashes cx old) :=
      traceOld_branch hold ht.valid hget hne (by omega)
    unfold findForkBlocks
    simp only [htrace, hback]

end Walks

variable (cx T) in
/-- The block is stored under its hash. -/
def Placed (s : NodeState) (x : Block) : Prop :=
  s.store.disk.blocks.lookup (x.hash cx.sha256) = some x

variable (cx T) in
/-- A node on the tree: what it has stored are whole branches, and its own chain is the heaviest
of them. -/
structure TreeInv (s : NodeState) : Prop where
  node : NodeInv cx (Member cx T) s
  body : BodyInv (fun _ => True) s
  work : WorkInv cx (Member cx T) s
  undo : UndoCover s
  closed : ∀ x, Placed cx s x →
    ∃ rest u, GoodBranch cx T (x :: rest) u ∧ ∀ y ∈ x :: rest, Placed cx s y
  heaviest : ∀ bs u, GoodBranch cx T bs u → (∀ x ∈ bs, Placed cx s x) →
    pathWork bs ≤ workValue s.chainwork

variable (cx T) in
/-- Writes succeed, and no block of the tree is too far ahead of the clock. -/
structure Reliable (env : Env) : Prop where
  writes : ∀ log ops, env.writeOk log ops = true
  clock : ∀ b, T b →
    b.header.timestamp ≤ saturatingAdd (env.now (b.hash cx.sha256)) maxFutureBlockTimeSecs

section Accepting

variable {s : NodeState} {b x : Block} {env : Env} {clock : UInt64} {u : UtxoSet}

theorem TreeInv.getBlock (h : TreeInv cx T s) (hx : Placed cx s x) : s.getBlock (x.hash cx.sha256) = some x :=
  (h.body.getBlock _).trans hx

theorem TreeInv.placed (htree : BlockTree cx T) (h : TreeInv cx T s) (hx : Member cx T x)
    (hsome : (s.store.disk.blocks.lookup (x.hash cx.sha256)).isSome = true) : Placed cx s x := by
  obtain ⟨y, hy⟩ := Option.isSome_iff_exists.mp hsome
  obtain ⟨hhash, hym, -⟩ := h.node.store.stored _ y hy
  unfold Placed
  rw [hy, htree.hash_injective y x hym hx hhash]

theorem TreeInv.chain (htree : BlockTree cx T) (h : TreeInv cx T s) :
    ∃ t rest, ChainInv cx (Member cx T) s (t :: rest) ∧ GoodBranch cx T (t :: rest) s.utxoSet ∧
      t.hash cx.sha256 = s.tip ∧ (∀ x ∈ t :: rest, Placed cx s x) ∧
      pathWork (t :: rest) = workValue s.chainwork := by
  obtain ⟨bs, hbs⟩ := h.node.chain
  obtain ⟨t, rest, rfl⟩ := hbs.branch.exists_cons
  have hgood := htree.good hbs.branch hbs.known
  have htip : t.hash cx.sha256 = s.tip := by
    have := hbs.tip
    simpa only [hashes, List.map_cons, List.head?_cons, Option.some.injEq] using this
  refine ⟨t, rest, hbs, hgood, htip, ?_, ?_⟩
  · intro x hx
    obtain ⟨i, hi⟩ := List.getElem?_of_mem (List.mem_reverse.mpr hx)
    have hmap : s.heightMap.lookup i = some (x.hash cx.sha256) := by
      rw [hbs.heightMap, hashes, ← List.map_reverse, List.getElem?_map, hi]
      rfl
    obtain ⟨y, hy, -⟩ := h.body.stored i _ hmap
    exact h.placed htree (hbs.known x hx) (by rw [hy]; rfl)
  · have hentry := h.work.entries _ _ h.work.tip
    rw [← htip] at hentry
    exact (htree.work_eq hgood hentry).symm

theorem TreeInv.below (htree : BlockTree cx T) (h : TreeInv cx T s) (hT : T b)
    (hparent : (s.store.disk.blocks.lookup b.header.prevHash).isSome = true) :
    ∃ parent rest u, GoodBranch cx T (b :: parent :: rest) u ∧
      b.header.prevHash = parent.hash cx.sha256 ∧ ∀ x ∈ parent :: rest, Placed cx s x := by
  obtain ⟨parent, rest, u, hgood⟩ := htree.branch b hT
  obtain ⟨u₀, -, -, -, htail, hprev, -⟩ := hgood.valid.tail
  rw [hprev] at hparent
  have hmember := GoodBranch.member hgood
  have hplaced : Placed cx s parent := h.placed htree (hmember parent (by simp)) hparent
  obtain ⟨rest', u', hgood', hall⟩ := h.closed parent hplaced
  have hrest := htree.eq_of_head htail hgood'.valid
    (fun x hx => hmember x (List.mem_cons_of_mem _ hx)) (GoodBranch.member hgood')
  rw [← hrest] at hall
  exact ⟨parent, rest, u, hgood, hprev, hall⟩

theorem BlockTree.earlyChecks_ok (htree : BlockTree cx T) (henv : Reliable cx T env) (hT : T b) :
    earlyChecks cx env b = .ok () := by
  obtain ⟨parent, rest, u, hgood⟩ := htree.branch b hT
  have hheight : b.header.height = rest.length + 1 := hgood.valid.height_eq
  have hclock := henv.clock b hT
  unfold earlyChecks
  simp only
  rw [if_neg, if_neg]
  · exact UInt64.not_lt.mpr hclock
  · simp [verifyCheckpoint, checkpoints, hheight]

theorem TreeInv.parentKnown_eq (htree : BlockTree cx T) (h : TreeInv cx T s) (hT : T b) :
    parentKnown s b.header.prevHash = (s.store.disk.blocks.lookup b.header.prevHash).isSome := by
  obtain ⟨parent, rest, u, hgood⟩ := htree.branch b hT
  obtain ⟨u₀, -, -, -, -, hprev, -⟩ := hgood.valid.tail
  have hne : b.header.prevHash ≠ Bytes32.zero := by
    rw [hprev]
    exact htree.ne_zero parent (GoodBranch.member hgood parent (by simp))
  unfold parentKnown
  cases hcached : s.blocks.lookup b.header.prevHash with
  | none => simp [hne]
  | some x => simp [h.body.cached _ x hcached]

/-- A block whose parent is stored passes the checks before validation. -/
theorem TreeInv.admitted (htree : BlockTree cx T) (henv : Reliable cx T env) (h : TreeInv cx T s) (hT : T b)
    (hparent : (s.store.disk.blocks.lookup b.header.prevHash).isSome = true) : Admitted cx env s b := by
  obtain ⟨parent, rest, u, hgood, hprev, hplaced⟩ := h.below htree hT hparent
  cases hgood with
  | extend hbranch _ _ hheight hbits hvalid happly =>
    refine ⟨htree.earlyChecks_ok henv hT, ?_, ?_⟩
    · unfold parentKnown
      rw [hparent, Bool.or_true]
    · have hne : b.header.prevHash ≠ Bytes32.zero := by
        rw [hprev]
        exact htree.ne_zero parent (GoodBranch.member hbranch parent (by simp))
      have hexpected : calculateNextBitsForParentAndTimestamp cx s.getBlock b.header.prevHash
          b.header.height (some b.header.timestamp) = b.header.bits := by
        rw [hbits, hprev]
        exact calculateNextBits_congr hbranch.valid (fun x hx => h.getBlock (hplaced x hx))
          (fun x hx => branchGet_eq htree.hash_injective (GoodBranch.member hbranch) hx) _ _
      have hfound : s.getBlock b.header.prevHash = some parent := by
        rw [hprev]
        exact h.getBlock (hplaced parent (by simp))
      unfold headerChecks
      simp only [if_neg hne, hfound, hexpected]
      simp [hheight]

/-- A node that has the branch below a block in its height map and its store validates the
block on the set the branch leaves. -/
theorem validates_on_branch {clock' : UInt64} {parent : Block} {rest : List Block}
    (hbranch : ValidBranch cx (parent :: rest) u) (hheight : b.header.height = parent.header.height + 1)
    (hvalid : validateBlockCached cx.sha256 cx.checks clock b u
      (some (branchMtp (parent :: rest))) = .ok ()) (hmap : ∀ i < (parent :: rest).length,
      s.heightMap.lookup i = (hashes cx (parent :: rest)).reverse[i]?)
    (hfound : ∀ x ∈ parent :: rest, s.getBlock (x.hash cx.sha256) = some x) :
    validateBlockCached cx.sha256 cx.checks clock' b u (some s.getMtp) = .ok () := by
  have hlevel : b.header.height = (parent :: rest).length := by
    rw [hheight, hbranch.height_eq, List.length_cons]
  rw [← hvalid]
  apply validateBlockCached_congr
  · intro i hi
    exact getMtp_eq hmap hfound (by omega)
  · intro o c hc
    have := ValidBranch.coin_height_le hbranch hc
    omega

theorem distinctOutputs_of_valid {u' : UtxoSet} {mtp : Option (ℕ → UInt64)} {undo : BlockUndoData}
    (hvalid : validateBlockCached cx.sha256 cx.checks clock b u mtp = .ok ())
    (happly : applyBlockWithUndo cx.sha256 u b = (.ok undo, u')) : DistinctOutputs cx.sha256 b.transactions := by
  obtain ⟨undos, u₁, htxs⟩ := applyBlockWithUndo_isOk_iff.mp ⟨undo, congrArg Prod.fst happly⟩
  obtain ⟨coinbase, txs, hv⟩ := validateBlockCached_ok hvalid
  exact distinctOutputs_of_applied htxs hv.apart

end Accepting

section Switching

/-- Connecting the blocks of a good branch one after the other runs through. The blocks are
listed from the lowest on. -/
theorem connectsThrough_of_good {env : Env} (hwrites : ∀ log ops, env.writeOk log ops = true) {up bs : List Block}
    {s : NodeState} {u : UtxoSet} (hlow : GoodBranch cx T bs s.utxoSet) (hgood : GoodBranch cx T (up.reverse ++ bs) u)
    (hmap : ∀ i < bs.length, s.heightMap.lookup i = (hashes cx bs).reverse[i]?)
    (hfound : ∀ x ∈ up.reverse ++ bs, s.getBlock (x.hash cx.sha256) = some x) :
    ConnectsThrough cx env s (hashes cx up) := by
  induction up generalizing s bs with
  | nil => trivial
  | cons b up ih =>
    rw [List.reverse_cons, List.append_assoc, List.singleton_append] at hgood hfound
    obtain ⟨parent, rest, rfl⟩ := hlow.valid.exists_cons
    obtain ⟨u₁, hb⟩ := GoodBranch.suffix hgood
    cases hb with
    | @extend _ _ _ u₀ _ clock undo hbranch hT hprev hheight hbits hvalid happly =>
      obtain rfl := hbranch.valid.unique hlow.valid
      have hget : s.getBlock (b.hash cx.sha256) = some b := hfound b (by simp)
      have hvalid' : validateBlockCached cx.sha256 cx.checks (env.now (b.hash cx.sha256)) b s.utxoSet
          (some s.getMtp) = .ok () := by
        apply validates_on_branch hbranch.valid hheight hvalid hmap
        intro x hx
        exact hfound x (List.mem_append_right _ (List.mem_cons_of_mem _ hx))
      refine ⟨b, hget, hvalid', distinctOutputs_of_valid hvalid happly, ?_⟩
      have hconnect : (connectBlock cx env s (b.hash cx.sha256)).2 =
          { s with
            utxoSet := u₁
            store := s.store.perform [.putUndo (b.hash cx.sha256) undo]
            heightMap := s.heightMap.insert b.header.height (b.hash cx.sha256)
            connected := s.connected.insert (b.hash cx.sha256) b } := by
        unfold connectBlock
        simp only [hget, hvalid', happly, write, hwrites, if_true]
      rw [hconnect]
      have hlevel : b.header.height = (parent :: rest).length := by
        rw [hheight, hbranch.valid.height_eq, List.length_cons]
      apply ih (.extend hbranch hT hprev hheight hbits hvalid happly) hgood
      · intro i hi
        simp only [hlevel]
        exact lookup_heightMap_insert hmap hi
      · exact hfound

theorem disconnectBlocks_ok {s : NodeState} {l : List Bytes32}
    (h : ∀ hash ∈ l, (s.store.disk.undo.lookup hash).isSome = true) : ∃ s', disconnectBlocks s l = (.ok (), s') := by
  cases hd : disconnectBlocks s l with
  | mk r s' =>
    cases r with
    | ok _ => exact ⟨s', rfl⟩
    | error e =>
      obtain ⟨hash, hmem, hnone⟩ := disconnectBlocks_error hd
      have := h hash hmem
      simp [hnone] at this

end Switching

section Steps

variable {s : NodeState} {b : Block} {env : Env}

theorem TreeInv.member (h : TreeInv cx T s) {x : Block} (hx : Placed cx s x) : Member cx T x :=
  (h.node.store.stored _ x hx).2.1

theorem TreeInv.placed_insert (htree : BlockTree cx T) {s' : NodeState} (h : TreeInv cx T s) (hb : Member cx T b)
    (hdisk : s'.store.disk.blocks = s.store.disk.blocks.insert (b.hash cx.sha256) b) (x : Block) :
    Placed cx s' x ↔ x = b ∨ Placed cx s x := by
  unfold Placed
  rw [hdisk, lookup_insert_eq]
  by_cases heq : x.hash cx.sha256 = b.hash cx.sha256
  · rw [if_pos heq, Option.some.injEq]
    constructor
    · exact fun hx => Or.inl hx.symm
    · rintro (rfl | hx)
      · rfl
      · exact (htree.hash_injective x b (h.member hx) hb heq).symm
  · rw [if_neg heq]
    constructor
    · exact Or.inr
    · rintro (rfl | hplaced)
      · exact absurd rfl heq
      · exact hplaced

theorem TreeInv.sameBody (htree : BlockTree cx T) (h : TreeInv cx T s) (hb : Member cx T b) :
    SameBody cx (fun _ => True) s b := by
  intro _ i hi
  obtain ⟨x, hx, -⟩ := h.body.stored i _ hi
  exact h.getBlock (h.placed htree hb (by rw [hx]; rfl))

theorem TreeInv.cumulativeWork_eq (htree : BlockTree cx T) (henv : Reliable cx T env) (h : TreeInv cx T s) (hT : T b)
    (hparent : (s.store.disk.blocks.lookup b.header.prevHash).isSome = true) {rest : List Block} {u : UtxoSet}
    (hgood : GoodBranch cx T (b :: rest) u) : workValue (cumulativeWork s b) = pathWork (b :: rest) :=
  htree.work_eq hgood
    (h.work.cumulativeWork htree.collisionFree (Or.inr hT) (h.admitted htree henv hT hparent))

/-- A heavier block of the tree is not lower than the tip once records are deleted. -/
theorem TreeInv.keepsHeight (htree : BlockTree cx T) (hlevel : Level cx T) (henv : Reliable cx T env)
    (h : TreeInv cx T s) (hT : T b) (hparent : (s.store.disk.blocks.lookup b.header.prevHash).isSome = true) :
    KeepsHeight s b := by
  intro hhigh hmore
  obtain ⟨parent, rest, u, hgood, -, -⟩ := h.below htree hT hparent
  obtain ⟨t, ts, hchain, hgood', -, -, hwork⟩ := h.chain htree
  have hgt := (compareWork_eq_gt_iff _ _).mp hmore
  rw [h.cumulativeWork_eq htree henv hT hparent hgood, ← hwork] at hgt
  have hlen := hchain.height
  have hle := hlevel _ _ _ _ hgood' hgood hgt (by omega)
  have hlevel := hgood.valid.height_eq
  simp only [List.length_cons] at hlen hle hlevel
  omega

theorem TreeInv.fork (htree : BlockTree cx T) (henv : Reliable cx T env) {s₁ : NodeState} (h : TreeInv cx T s)
    (hT : T b) (hparent : (s.store.disk.blocks.lookup b.header.prevHash).isSome = true) (hside : SideStored cx s b s₁)
    (hmore : compareWork (cumulativeWork s b) s.chainwork = .gt) :
    ∃ old new f common u, ChainInv cx (Member cx T) s (old ++ f :: common) ∧
      GoodBranch cx T (new ++ f :: common) u ∧
      (∀ x ∈ new ++ f :: common, s₁.getBlock (x.hash cx.sha256) = some x) ∧
      forkOf cx s₁ b = .ok (hashes cx old, (hashes cx new).reverse) ∧
      Permitted cx s₁ (hashes cx old) := by
  obtain ⟨parent, rest, u, hgood, -, hplaced⟩ := h.below htree hT hparent
  obtain ⟨t, ts, hchain, hgood', htip, hplaced', hwork⟩ := h.chain htree
  have hb : Member cx T b := Or.inr hT
  have hbody := h.body.sideStored (h.sameBody htree hb) hside
  have hfound : ∀ x, x = b ∨ Placed cx s x → s₁.getBlock (x.hash cx.sha256) = some x := by
    intro x hx
    rw [hbody.getBlock]
    exact (h.placed_insert htree hb hside.diskBlocks x).mpr hx
  have hall : ∀ x ∈ b :: parent :: rest, s₁.getBlock (x.hash cx.sha256) = some x := by
    intro x hx
    rcases List.mem_cons.mp hx with rfl | hx
    · exact hfound x (Or.inl rfl)
    · exact hfound x (Or.inr (hplaced x hx))
  have hstore := h.node.store.sideStored htree.collisionFree hb
    (h.admitted htree henv hT hparent) hside
  have hlen := hchain.height
  have hlevel := hgood.valid.height_eq
  rw [List.length_cons] at hlen
  obtain ⟨old, new, f, common, hold, hnew, hapart, hfork⟩ :
      ∃ old new f common, t :: ts = old ++ f :: common ∧ b :: parent :: rest = new ++ f :: common ∧
        (∀ x ∈ old, x ∉ new) ∧
        findForkBlocks s₁.getBlock (s₁.height + b.header.height + 2) (t.hash cx.sha256)
          (b.hash cx.sha256) = .ok (hashes cx old, (hashes cx new).reverse) :=
    htree.findForkBlocks_eq hstore.getBlock hgood' hgood
      (fun x hx => hfound x (Or.inr (hplaced' x hx))) hall (by rw [hside.height]; omega)
      (by omega)
  rw [htip, ← hside.tip] at hfork
  rw [hold] at hchain hgood'
  have hgood'' := hgood
  rw [hnew] at hgood'' hall
  refine ⟨old, new, f, common, u, hchain, hgood'', hall, hfork, ?_, rfl⟩
  -- a block of the node's own chain is not heavier than that chain
  have hnonempty : new ≠ [] := by
    rintro rfl
    have hgt := (compareWork_eq_gt_iff _ _).mp hmore
    rw [h.cumulativeWork_eq htree henv hT hparent hgood, ← hwork, hold, hnew] at hgt
    simp only [pathWork, List.nil_append, List.map_append, List.sum_append] at hgt
    omega
  rw [hashes_length]
  exact htree.depth old new f common _ _ hgood' hgood'' hnonempty hapart

theorem TreeInv.runsThrough (htree : BlockTree cx T) (henv : Reliable cx T env) (h : TreeInv cx T s) (hT : T b)
    (hparent : (s.store.disk.blocks.lookup b.header.prevHash).isSome = true) : RunsThrough cx env s b := by
  have hcf := htree.collisionFree
  have hb : Member cx T b := Or.inr hT
  have hadm := h.admitted htree henv hT hparent
  refine ⟨henv.writes, ?_, ?_⟩
  · intro _ _ _
    obtain ⟨parent, rest, u, hgood, -, -⟩ := h.below htree hT hparent
    cases hgood with
    | extend _ _ _ _ _ hvalid happly => exact distinctOutputs_of_valid hvalid happly
  · intro _ _ s₁ hstore hmore disconnect connect hfork hperm
    have hside := storeSide_eq_some hstore
    obtain ⟨old, new, f, common, u, hchain, hgood, hfound, hfork', -⟩ :=
      h.fork htree henv hT hparent hside hmore
    rw [hfork'] at hfork
    obtain ⟨rfl, rfl⟩ := Prod.mk.inj (Except.ok.inj hfork)
    have hcover : UndoCover s₁ := by
      intro i k hk hpos hi
      rw [hside.heightMap] at hk
      rw [hside.height] at hi
      rw [hside.undo]
      exact h.undo i k hk hpos hi
    have hchain₁ := hchain.sideStored hside
    have hundo := undo_of_fork hcf hchain₁ (h.node.store.sideStored hcf hb hadm hside) hcover
      hfork' hperm.1
    refine ⟨hundo, ?_⟩
    obtain ⟨s₂, hs₂⟩ := disconnectBlocks_ok hundo
    have hlow := disconnectBlocks_branch hchain₁.branch hchain₁.undo hs₂
    obtain ⟨v, hv⟩ := GoodBranch.suffix hgood
    rw [← hlow.unique hv.valid] at hv
    have hsame := disconnectBlocks_eq hs₂
    rw [hs₂]
    have hup : (hashes cx new).reverse = hashes cx new.reverse := by
      simp only [hashes, List.map_reverse]
    rw [hup]
    apply connectsThrough_of_good henv.writes hv
    · rw [List.reverse_reverse]
      exact hgood
    · intro i hi
      rw [hsame]
      change s₁.heightMap.lookup i = _
      rw [hchain₁.heightMap]
      simp only [hashes, List.map_append, List.reverse_append]
      rw [List.getElem?_append_left (by simpa using hi)]
    · rw [List.reverse_reverse, hsame]
      exact hfound

theorem TreeInv.onTip (htree : BlockTree cx T) (h : TreeInv cx T s) (hT : T b) (htip : b.header.prevHash = s.tip) :
    ∃ t ts u, ChainInv cx (Member cx T) s (t :: ts) ∧ GoodBranch cx T (b :: t :: ts) u ∧
      (∀ x ∈ t :: ts, Placed cx s x) ∧ pathWork (t :: ts) = workValue s.chainwork := by
  obtain ⟨parent, rest, u, hgood⟩ := htree.branch b hT
  obtain ⟨u₀, -, -, -, hbranch, hprev, -⟩ := hgood.valid.tail
  obtain ⟨t, ts, hchain, hgood', htip', hplaced, hwork⟩ := h.chain htree
  have hmember := GoodBranch.member hgood
  obtain rfl : t = parent := by
    apply htree.hash_injective t parent (GoodBranch.member hgood' t (by simp))
      (hmember parent (by simp))
    rw [htip', ← htip, hprev]
  obtain rfl := htree.eq_of_head hgood'.valid hbranch (GoodBranch.member hgood')
    (fun x hx => hmember x (List.mem_cons_of_mem _ hx))
  exact ⟨t, ts, u, hchain, hgood, hplaced, hwork⟩

theorem TreeInv.accepted (htree : BlockTree cx T) (henv : Reliable cx T env) (h : TreeInv cx T s) (hT : T b)
    (hparent : (s.store.disk.blocks.lookup b.header.prevHash).isSome = true) :
    (addBlockStep cx env s b).1 = .ok .connected ∨
      ((addBlockStep cx env s b).1 = .ok .stored ∧
        compareWork (cumulativeWork s b) s.chainwork ≠ .gt) := by
  have hadm := h.admitted htree henv hT hparent
  have hcases := @addBlockStep_cases cx env s b
  generalize (addBlockStep cx env s b).1 = r at hcases
  generalize (addBlockStep cx env s b).2 = s' at hcases
  cases hcases with
  | rejected e why =>
    exfalso
    rcases why with hnot | ⟨htip, hinvalid⟩ | ⟨ops, hfail⟩
    · exact hnot hadm
    · obtain ⟨t, ts, u, hchain, hgood, hplaced, -⟩ := h.onTip htree hT htip
      cases hgood with
      | extend hbranch _ _ hheight _ hvalid _ =>
        obtain rfl := hbranch.valid.unique hchain.branch
        apply hinvalid
        rw [validateTip_eq]
        exact validates_on_branch hbranch.valid hheight hvalid (fun i _ => hchain.heightMap i)
          (fun x hx => h.getBlock (hplaced x hx))
    · rw [henv.writes] at hfail
      simp at hfail
  | orphaned hunknown =>
    rw [hadm.parent] at hunknown
    simp at hunknown
  | extended => exact Or.inl rfl
  | stored _ _ hside why =>
    rcases why with ⟨rfl, hle⟩ | ⟨hmore, -, hnot⟩
    · exact Or.inr ⟨rfl, hle⟩
    · obtain ⟨old, new, f, common, u, -, -, -, hfork, hperm⟩ :=
        h.fork htree henv hT hparent hside hmore
      exact absurd hperm (hnot _ _ hfork)
  | reorganized => exact Or.inl rfl
  | broken e s' hnot _ => exact absurd (h.runsThrough htree henv hT hparent) hnot

theorem TreeInv.stores (htree : BlockTree cx T) (hprune : cx.pruneDepth = none) (henv : Reliable cx T env)
    (h : TreeInv cx T s) (hT : T b) (hparent : (s.store.disk.blocks.lookup b.header.prevHash).isSome = true) :
    (addBlockStep cx env s b).2.store.disk.blocks =
        s.store.disk.blocks.insert (b.hash cx.sha256) b ∧
      (addBlockStep cx env s b).2.orphanBlocks = s.orphanBlocks ∧
      (addBlockStep cx env s b).2.orphansByParent = s.orphansByParent := by
  have hok := h.accepted htree henv hT hparent
  have hadm := h.admitted htree henv hT hparent
  have hcases := @addBlockStep_cases cx env s b
  generalize (addBlockStep cx env s b).1 = r at hcases hok
  generalize (addBlockStep cx env s b).2 = s' at hcases
  cases hcases with
  | rejected => simp at hok
  | orphaned hunknown =>
    rw [hadm.parent] at hunknown
    simp at hunknown
  | extended _ _ hext => exact ⟨hext.unpruned hprune, hext.orphanBlocks, hext.orphansByParent⟩
  | stored _ _ hside _ => exact ⟨hside.diskBlocks, hside.orphanBlocks, hside.orphansByParent⟩
  | @reorganized s₁ s₂ s₃ _ disconnect connect _ _ hside _ hreorg _ =>
    have hframe : ConnectFrame s₁ s₃ := by
      have hconnect := @connectBlocks_frame cx env s₂ connect
      rw [hreorg.reconnected, disconnectBlocks_eq hreorg.disconnected] at hconnect
      exact (ConnectFrame.utxoSet s₁ _).trans hconnect
    refine ⟨?_, ?_, ?_⟩
    · rw [(hreorg.unpruned hprune).2, hframe.diskBlocks, hside.diskBlocks]
    · rw [hreorg.orphanBlocks, hframe.orphanBlocks, hside.orphanBlocks]
    · rw [hreorg.orphansByParent, hframe.orphansByParent, hside.orphansByParent]
  | broken => simp at hok

theorem TreeInv.covers (htree : BlockTree cx T) (henv : Reliable cx T env) (h : TreeInv cx T s) (hT : T b)
    (hparent : (s.store.disk.blocks.lookup b.header.prevHash).isSome = true) :
    workValue s.chainwork ≤ workValue (addBlockStep cx env s b).2.chainwork ∧
      workValue (cumulativeWork s b) ≤ workValue (addBlockStep cx env s b).2.chainwork := by
  have hok := h.accepted htree henv hT hparent
  have hrange : b.header.prevHash = s.tip → workValue s.chainwork + blockWorkValue b < 2 ^ 256 := by
    intro htip
    obtain ⟨t, ts, u, -, hgood, -, hwork⟩ := h.onTip htree hT htip
    have hlt := htree.range _ _ hgood
    rw [← hwork]
    simp only [pathWork, List.map_cons, List.sum_cons] at hlt ⊢
    omega
  refine ⟨h.work.chainwork_le (Or.inl henv.writes) hrange, ?_⟩
  have hcases := @addBlockStep_cases cx env s b
  generalize (addBlockStep cx env s b).1 = r at hcases hok
  generalize (addBlockStep cx env s b).2 = s' at hcases
  cases hcases with
  | rejected => simp at hok
  | orphaned => simp at hok
  | extended _ _ hext => rw [hext.chainwork]
  | stored _ _ hside why =>
    rcases why with ⟨-, hle⟩ | ⟨-, ⟨e, rfl⟩, -⟩
    · rw [hside.chainwork]
      by_contra hlt
      exact hle ((compareWork_eq_gt_iff _ _).mpr (by omega))
    · simp at hok
  | reorganized _ _ _ _ _ hwork => rw [hwork]
  | broken => simp at hok

theorem TreeInv.step (htree : BlockTree cx T) (hprune : cx.pruneDepth = none) {env : Env} (henv : Reliable cx T env)
    {s : NodeState} (h : TreeInv cx T s) {b : Block} (hT : T b)
    (hparent : (s.store.disk.blocks.lookup b.header.prevHash).isSome = true) (hkeeps : KeepsHeight s b) :
    TreeInv cx T (addBlockStep cx env s b).2 ∧
      ∀ x, Placed cx (addBlockStep cx env s b).2 x ↔ x = b ∨ Placed cx s x := by
  have hcf := htree.collisionFree
  have hb : Member cx T b := Or.inr hT
  have hok : ∃ x, (addBlockStep cx env s b).1 = .ok x := by
    rcases h.accepted htree henv hT hparent with hr | ⟨hr, -⟩
    · exact ⟨_, hr⟩
    · exact ⟨_, hr⟩
  have hplaced := h.placed_insert htree hb (h.stores htree hprune henv hT hparent).1
  obtain ⟨hkept, hadded⟩ := h.covers htree henv hT hparent
  obtain ⟨parent, rest, u, hgood, -, hbelow⟩ := h.below htree hT hparent
  refine ⟨⟨h.node.step hcf hb (Or.inl hok), ?_, ?_, ?_, ?_, ?_⟩, hplaced⟩
  · exact h.body.step hprune (h.sameBody htree hb) (Or.inl henv.writes)
  · exact h.work.step hcf hb (Or.inl henv.writes)
  · exact h.undo.step hcf h.node hb hkeeps (Or.inl hok)
  · intro x hx
    rcases (hplaced x).mp hx with rfl | hx
    · refine ⟨parent :: rest, u, hgood, ?_⟩
      rw [List.forall_mem_cons]
      exact ⟨hx, fun y hy => (hplaced y).mpr (Or.inr (hbelow y hy))⟩
    · obtain ⟨xs, v, hv, hall⟩ := h.closed x hx
      exact ⟨xs, v, hv, fun y hy => (hplaced y).mpr (Or.inr (hall y hy))⟩
  · intro bs v hv hall
    obtain ⟨x, xs, rfl⟩ := hv.valid.exists_cons
    rcases (hplaced x).mp (hall x (by simp)) with rfl | hx
    · rwa [← h.cumulativeWork_eq htree henv hT hparent hv]
    · -- a block that was stored before had its whole branch stored before
      obtain ⟨ys, w, hw, hstored⟩ := h.closed x hx
      obtain rfl := htree.eq_of_head hv.valid hw.valid (GoodBranch.member hv) (GoodBranch.member hw)
      exact (h.heaviest _ _ hv hstored).trans hkept

end Steps

section Nodes

variable {s : NodeState}

theorem TreeInv.orphans (h : TreeInv cx T s) {pool : Map Bytes32 Block} {children : Map Bytes32 (List Bytes32)}
    (hpool : ∀ k b, pool.lookup k = some b → Member cx T b) :
    TreeInv cx T { s with orphanBlocks := pool, orphansByParent := children } :=
  ⟨h.node.orphans hpool, h.body.congr rfl rfl rfl rfl, h.work.orphans hpool, h.undo, h.closed,
    h.heaviest⟩

theorem TreeInv.takeOrphan (h : TreeInv cx T s) (parent child : Bytes32) :
    TreeInv cx T (takeOrphan s parent child) := by
  apply h.orphans
  intro k b hb
  exact h.node.store.orphans k b (shrinks_erase _ _ k b hb)

theorem TreeInv.fresh (htree : BlockTree cx T) (h : FreshNode cx s) : TreeInv cx T s := by
  have hcf := htree.collisionFree
  have hgood : GoodBranch cx T [cx.genesis] s.utxoSet := .genesis h.applied
  have hplaced : ∀ x, Placed cx s x ↔ x = cx.genesis := by
    intro x
    unfold Placed
    rw [h.diskBlocks, lookup_insert_eq]
    constructor
    · intro hx
      split at hx
      · exact (Option.some.inj hx).symm
      · simp at hx
    · rintro rfl
      exact if_pos rfl
  refine ⟨NodeInv.fresh hcf h, BodyInv.fresh h, WorkInv.fresh hcf h, ?_, ?_, ?_⟩
  · intro i k hk hpos _
    rw [h.heightMap, lookup_insert_eq, if_neg (by omega)] at hk
    simp at hk
  · intro x hx
    obtain rfl := (hplaced x).mp hx
    refine ⟨[], _, hgood, ?_⟩
    intro y hy
    rw [List.mem_singleton.mp hy]
    exact hx
  · intro bs u hbs hall
    obtain ⟨x, xs, rfl⟩ := hbs.valid.exists_cons
    obtain rfl := (hplaced x).mp (hall x (by simp))
    obtain rfl := htree.eq_of_head hbs.valid hgood.valid (GoodBranch.member hbs)
      (GoodBranch.member hgood)
    rw [h.chainwork]
    simp [pathWork, blockWorkValue, Context.genesisWork]

end Nodes

end KuberCoin.BlockTrees
