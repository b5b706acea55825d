import KuberCoin.Spending

/-!
What the checks of a block read of the chain below it.
Validation reads the median time past of heights up to the block's own, and the expected
difficulty reads ancestors of the block. So both can be said of a branch alone, without a
node, and a node that has the branch comes to the same verdict.
-/
namespace KuberCoin.BranchReads

open Bytes Maps Transactions Blocks UtxoSets Params Difficulty Validator Storage NodeStates
  NodeStates.NodeState AddBlock Frames BlockEffects StepCases Runs Branches ChainInvariants
  BestChain Spending

variable {cx : Context}

section Validation

variable {checks : ScriptChecks} {f g : ℕ → UInt64} {u : UtxoSet} {height : ℕ} {tx : Transaction} {c : UTXO}
  {clock clock' : UInt64}

theorem sequenceLockMet_congr {i : TxInput} (hheight : f height = g height) (hcoin : f c.height = g c.height) :
    sequenceLockMet (some f) height tx i c = sequenceLockMet (some g) height tx i c := by
  unfold sequenceLockMet
  simp only [hheight, hcoin]

theorem validateInputs_congr {amounts : List UInt64} {scripts : List (List UInt8)} (hheight : f height = g height)
    (hcoins : ∀ o c, u.lookup o = some c → f c.height = g c.height) (index : ℕ) (sum : UInt64) (inputs : List TxInput) :
    validateInputs checks tx u height (some f) amounts scripts index sum inputs =
      validateInputs checks tx u height (some g) amounts scripts index sum inputs := by
  induction inputs generalizing index sum with
  | nil => rfl
  | cons i rest ih =>
    unfold validateInputs getUtxo
    cases hc : u.lookup i.prevOutput with
    | none => rfl
    | some c =>
      simp only [ih, bind, Except.bind]
      rw [sequenceLockMet_congr hheight (hcoins _ c hc)]

theorem validateTransactionCached_congr (hheight : f height = g height)
    (hcoins : ∀ o c, u.lookup o = some c → f c.height = g c.height) :
    validateTransactionCached checks clock tx u height (some f) =
      validateTransactionCached checks clock' tx u height (some g) := by
  have hlock : lockTimeMet clock (some f) height tx = lockTimeMet clock' (some g) height tx := by
    unfold lockTimeMet lockClock
    simp only [hheight]
  unfold validateTransactionCached
  simp only [hlock, validateInputs_congr hheight hcoins]

/-- Validation depends on the median times of the block's height, of the height below it and
of the heights of the entries it may spend, and on no clock. -/
theorem validateBlockCached_congr {b : Block} (hmtp : ∀ h ≤ b.header.height, f h = g h)
    (hcoins : ∀ o c, u.lookup o = some c → c.height ≤ b.header.height) :
    validateBlockCached cx.sha256 checks clock b u (some f) =
      validateBlockCached cx.sha256 checks clock' b u (some g) := by
  have htime : timestampAfterMtp b (some f) = timestampAfterMtp b (some g) := by
    unfold timestampAfterMtp
    simp only [hmtp (b.header.height - 1) (Nat.sub_le _ _)]
  have htx : (fun tx => validateTransactionCached checks clock tx u b.header.height (some f)) =
      fun tx => validateTransactionCached checks clock' tx u b.header.height (some g) := by
    funext tx
    exact validateTransactionCached_congr (hmtp _ le_rfl) (fun o c hc => hmtp _ (hcoins o c hc))
  unfold validateBlockCached validateBlockFull
  simp only [htime, htx]

theorem ValidBranch.coin_height_le {bs : List Block} {u : UtxoSet} (h : ValidBranch cx bs u) {o : OutPoint}
    (hc : u.lookup o = some c) : c.height < bs.length := by
  obtain ⟨k, tx, horigin, rfl, -⟩ := ValidBranch.origin h hc
  obtain ⟨a, ha, -⟩ := horigin.block
  have hlt := (List.getElem?_eq_some_iff.mp ha).1
  rwa [List.length_reverse] at hlt

end Validation

section MedianTimes

/-- The median time past on a branch. -/
def branchMtp (bs : List Block) (height : ℕ) : UInt64 :=
  medianTime ((List.range' (height - 11) (height - (height - 11))).filterMap fun h =>
    bs.reverse[h]?.map fun b => b.header.timestamp)

theorem getMtp_eq {s : NodeState} {bs : List Block}
    (hmap : ∀ i < bs.length, s.heightMap.lookup i = (hashes cx bs).reverse[i]?)
    (hfound : ∀ b ∈ bs, s.getBlock (b.hash cx.sha256) = some b) {height : ℕ} (hheight : height ≤ bs.length) :
    s.getMtp height = branchMtp bs height := by
  unfold getMtp branchMtp recentTimestamps
  congr 1
  apply List.filterMap_congr
  intro h hh
  have hlt : h < bs.length := by
    have := (List.mem_range'_1.mp hh).2
    omega
  obtain ⟨b, hb⟩ : ∃ b, bs.reverse[h]? = some b :=
    ⟨_, List.getElem?_eq_getElem (by rw [List.length_reverse]; exact hlt)⟩
  have hlookup : s.heightMap.lookup h = some (b.hash cx.sha256) := by
    rw [hmap h hlt, hashes, ← List.map_reverse, List.getElem?_map, hb]
    rfl
  unfold getBlockHash
  rw [hlookup, Option.bind_some, hfound b (List.mem_reverse.mp (List.mem_of_getElem? hb)), hb]

end MedianTimes

section NextBits

variable {get' : Bytes32 → Option Block} {b : Block} {rest : List Block} {u : UtxoSet}

/-- The blocks of a branch by their hashes. -/
def branchGet (cx : Context) (bs : List Block) (hash : Bytes32) : Option Block :=
  bs.find? fun b => b.hash cx.sha256 = hash

variable {get : Bytes32 → Option Block}

theorem lastRegularBlock_congr (fuel : ℕ) (h : ValidBranch cx (b :: rest) u)
    (hget : ∀ x ∈ b :: rest, get (x.hash cx.sha256) = some x)
    (hget' : ∀ x ∈ b :: rest, get' (x.hash cx.sha256) = some x) :
    lastRegularBlock cx get fuel b = lastRegularBlock cx get' fuel b := by
  induction fuel generalizing b rest u with
  | zero => rfl
  | succ fuel ih =>
    unfold lastRegularBlock
    simp only
    split
    next hregular =>
      cases rest with
      | nil =>
        have := h.height_eq
        simp only [List.length_nil] at this
        omega
      | cons parent rest =>
        obtain ⟨u₀, -, -, -, htail, hprev, -⟩ := h.tail
        rw [hprev, hget parent (by simp), hget' parent (by simp)]
        exact ih htail (fun x hx => hget x (List.mem_cons_of_mem _ hx))
          (fun x hx => hget' x (List.mem_cons_of_mem _ hx))
    next => rfl

theorem periodStart_congr (start fuel : ℕ) (h : ValidBranch cx (b :: rest) u)
    (hget : ∀ x ∈ b :: rest, get (x.hash cx.sha256) = some x)
    (hget' : ∀ x ∈ b :: rest, get' (x.hash cx.sha256) = some x) :
    periodStart get start fuel b = periodStart get' start fuel b := by
  induction fuel generalizing b rest u with
  | zero => rfl
  | succ fuel ih =>
    unfold periodStart
    split
    next habove =>
      cases rest with
      | nil =>
        have := h.height_eq
        simp only [List.length_nil] at this
        omega
      | cons parent rest =>
        obtain ⟨u₀, -, -, -, htail, hprev, -⟩ := h.tail
        rw [hprev, hget parent (by simp), hget' parent (by simp)]
        exact ih htail (fun x hx => hget x (List.mem_cons_of_mem _ hx))
          (fun x hx => hget' x (List.mem_cons_of_mem _ hx))
    next => rfl

theorem calculateNextBits_congr (h : ValidBranch cx (b :: rest) u)
    (hget : ∀ x ∈ b :: rest, get (x.hash cx.sha256) = some x)
    (hget' : ∀ x ∈ b :: rest, get' (x.hash cx.sha256) = some x) (height : ℕ) (timestamp : Option UInt64) :
    calculateNextBitsForParentAndTimestamp cx get (b.hash cx.sha256) height timestamp =
      calculateNextBitsForParentAndTimestamp cx get' (b.hash cx.sha256) height timestamp := by
  unfold calculateNextBitsForParentAndTimestamp
  simp only [hget b (by simp), hget' b (by simp), lastRegularBlock_congr _ h hget hget',
    periodStart_congr _ _ h hget hget']

end NextBits

section GoodBranches

variable (cx) (T : Block → Prop) {bs : List Block} {u : UtxoSet}

/-- A branch of blocks of `T` over genesis, each valid on the branch below it, with the set it
leaves. -/
inductive GoodBranch : List Block → UtxoSet → Prop where
  | genesis {u : UtxoSet} (happly : applyBlock cx.sha256 ∅ cx.genesis = (.ok (), u)) :
      GoodBranch [cx.genesis] u
  | extend {b parent : Block} {rest : List Block} {u u' : UtxoSet} {clock : UInt64}
      {undo : BlockUndoData} (hbranch : GoodBranch (parent :: rest) u) (hT : T b)
      (hprev : b.header.prevHash = parent.hash cx.sha256)
      (hheight : b.header.height = parent.header.height + 1)
      (hbits : b.header.bits = calculateNextBitsForParentAndTimestamp cx
        (branchGet cx (parent :: rest)) b.header.prevHash b.header.height (some b.header.timestamp))
      (hvalid : validateBlockCached cx.sha256 cx.checks clock b u
        (some (branchMtp (parent :: rest))) = .ok ())
      (happly : applyBlockWithUndo cx.sha256 u b = (.ok undo, u')) :
      GoodBranch (b :: parent :: rest) u'

variable {cx T}

theorem GoodBranch.valid (h : GoodBranch cx T bs u) : ValidBranch cx bs u := by
  induction h with
  | genesis happly => exact .genesis happly
  | extend hbranch hT hprev hheight hbits hvalid happly ih =>
    exact .extend ih hprev hheight hvalid happly

variable (cx) in
/-- Check a branch, tip first; returns the set it leaves. -/
def checkBranch : List Block → Option UtxoSet
  | [] => none
  | [b] =>
      match applyBlock cx.sha256 ∅ b with
      | (.error _, _) => none
      | (.ok (), u) => if b = cx.genesis then some u else none
  | b :: parent :: rest =>
      match checkBranch (parent :: rest) with
      | none => none
      | some u =>
          match applyBlockWithUndo cx.sha256 u b with
          | (.error _, _) => none
          | (.ok _, u') =>
              if b.header.prevHash = parent.hash cx.sha256 ∧
                  b.header.height = parent.header.height + 1 ∧
                  b.header.bits = calculateNextBitsForParentAndTimestamp cx
                    (branchGet cx (parent :: rest)) b.header.prevHash b.header.height
                    (some b.header.timestamp) ∧
                  validateBlockCached cx.sha256 cx.checks 0 b u
                    (some (branchMtp (parent :: rest))) = .ok () then some u'
              else none

theorem goodBranch_of_check (h : checkBranch cx bs = some u) (hT : ∀ b ∈ bs.dropLast, T b) : GoodBranch cx T bs u := by
  induction bs generalizing u with
  | nil => simp [checkBranch] at h
  | cons b bs ih =>
    cases bs with
    | nil =>
      unfold checkBranch at h
      split at h
      next => simp at h
      next u₀ happly =>
        split at h
        next hgenesis =>
          obtain rfl := Option.some.inj h
          subst hgenesis
          exact .genesis happly
        next => simp at h
    | cons parent rest =>
      unfold checkBranch at h
      split at h
      next => simp at h
      next u₀ hbelow =>
        split at h
        next => simp at h
        next undo u₁ happly =>
          split at h
          next hchecks =>
            obtain rfl := Option.some.inj h
            obtain ⟨hprev, hheight, hbits, hvalid⟩ := hchecks
            rw [List.dropLast_cons_of_ne_nil (List.cons_ne_nil _ _), List.forall_mem_cons] at hT
            exact .extend (ih hbelow hT.2) hT.1 hprev hheight hbits hvalid happly
          next => simp at h

end GoodBranches

end KuberCoin.BranchReads
