import KuberCoin.BestChain
import KuberCoin.Sessions

/-!
Crashes between the writes of a call.
The store describes a chain it holds the blocks of at every point of a call, except right
after the batch that makes a block the tip and before the block itself is put.
-/
namespace KuberCoin.Crashes

open Bytes Maps Transactions Blocks UtxoSets Params Difficulty Validator Storage NodeStates
  NodeStates.NodeState AddBlock Frames BlockEffects StepCases Runs Branches ChainInvariants
  StoredBodies BestChain Sessions

variable (cx : Context)

/-- The store describes a valid branch and holds its blocks. -/
def GoodDisk (d : Disk) : Prop :=
  ∃ bs u m n, ValidBranch cx bs u ∧ d.tip = (hashes cx bs).head? ∧ d.height = some n ∧
    bs.length = n + 1 ∧ d.utxoSet = some u ∧ d.heightMap = some m ∧
    (∀ i, m.lookup i = (hashes cx bs).reverse[i]?) ∧
    ∀ b ∈ bs, d.blocks.lookup (b.hash cx.sha256) = some b

/-- The crash comes after the batch that makes a block the tip and before the block is put. -/
def Torn (pre post : List (List WriteOp)) : Prop :=
  ∃ front ops hash b rest, pre = front ++ [ops] ∧ WriteOp.putTip hash ∈ ops ∧
    post = [WriteOp.putBlock hash b] :: rest

/-- From a good store on, the store is good after every part of the writes that is not torn. -/
def SafeWrites (s s' : NodeState) : Prop :=
  GoodDisk cx s.store.disk → GoodDisk cx s'.store.disk ∧
    ∃ l, Performed s s' l ∧ ∀ pre post, l = pre ++ post → ¬ Torn pre post →
      GoodDisk cx (s.store.disk.replay pre)

variable {cx} {K : Block → Prop}

section Disks

variable {s s' : NodeState} {l : List (List WriteOp)} {ops : List WriteOp}

theorem GoodDisk.congr {d d' : Disk} (h : GoodDisk cx d) (hrecord : chainRecord d' = chainRecord d)
    (hblocks : d'.blocks = d.blocks) : GoodDisk cx d' := by
  obtain ⟨bs, u, m, n, hbranch, htip, hheight, hlen, hutxo, hmap, hentries, hfound⟩ := h
  have htip' : d'.tip = d.tip := congrArg ChainRecord.tip hrecord
  have hheight' : d'.height = d.height := congrArg ChainRecord.height hrecord
  have hutxo' : d'.utxoSet = d.utxoSet := congrArg ChainRecord.utxoSet hrecord
  have hmap' : d'.heightMap = d.heightMap := congrArg ChainRecord.heightMap hrecord
  exact ⟨bs, u, m, n, hbranch, htip'.trans htip, hheight'.trans hheight, hlen, hutxo'.trans hutxo,
    hmap'.trans hmap, hentries, by rw [hblocks]; exact hfound⟩

theorem GoodDisk.reopened {d : Disk} (h : GoodDisk cx d) {env : Env} {s : NodeState}
    (hopen : NodeState.new cx env d = .ok s) : ∃ chain, Consistent cx s chain := by
  obtain ⟨bs, u, m, n, hbranch, htip, hheight, hlen, hutxo, hmap, hentries, hfound⟩ := h
  obtain ⟨t, rest, rfl⟩ := hbranch.exists_cons
  have hopened := new_reopened htip hopen
  obtain ⟨pre, g, hsplit⟩ : ∃ pre g, t :: rest = pre ++ [g] :=
    ⟨_, _, (List.dropLast_append_getLast (List.cons_ne_nil t rest)).symm⟩
  have hlast : g = cx.genesis := by
    rw [hsplit] at hbranch
    exact hbranch.last
  have hgenesis : d.blocks.lookup cx.genesisHash = some cx.genesis := by
    apply hfound
    rw [hsplit, hlast]
    simp
  -- genesis is stored and at height zero, so opening inserts nothing
  have hblocks : ∀ k, s.getBlock k = d.blocks.lookup k := by
    intro k
    rcases hopened.blocks with ⟨hcache, hdisk, -⟩ | ⟨-, -, hnone⟩
    · unfold NodeState.getBlock
      rw [hcache, hdisk]
      rfl
    · rw [hgenesis] at hnone
      simp at hnone
  have hmap' : s.heightMap = m := by
    rw [hopened.heightMap, hmap, Option.getD_some]
    unfold orInsert
    have hzero : m.lookup 0 = some cx.genesisHash := by
      rw [hentries, hsplit, hlast]
      simp [hashes, Context.genesisHash]
    rw [hzero, Option.isSome_some, if_pos rfl]
  have hutxo' : s.utxoSet = u := by
    rw [hopened.utxoSet, hutxo, Option.getD_some]
  refine ⟨(t :: rest).reverse, consistent_of_branch ?_ ?_ ?_ ?_ ?_⟩
  · rw [hutxo']
    exact hbranch
  · rw [hopened.tip]
    rfl
  · rw [hopened.height, hheight, Option.getD_some]
    exact hlen
  · rw [hmap']
    exact hentries
  · intro i b hb
    refine ⟨b, ?_, rfl, fun _ => rfl⟩
    rw [hblocks]
    exact hfound b (List.mem_reverse.mp (List.mem_of_getElem? hb))

theorem SafeWrites.refl (s : NodeState) : SafeWrites cx s s := by
  intro h
  refine ⟨h, [], Performed.nil rfl, ?_⟩
  intro pre post hl _
  obtain ⟨rfl, -⟩ := List.append_eq_nil_iff.mp hl.symm
  exact h

theorem SafeWrites.trans {s'' : NodeState} (h : SafeWrites cx s s') (h' : SafeWrites cx s' s'') :
    SafeWrites cx s s'' := by
  intro hgood
  obtain ⟨hgood', l, hl, hparts⟩ := h hgood
  obtain ⟨hgood'', l', hl', hparts'⟩ := h' hgood'
  refine ⟨hgood'', l ++ l', hl.trans hl', ?_⟩
  intro pre post hsplit htorn
  rcases List.append_eq_append_iff.mp hsplit with ⟨mid, rfl, rfl⟩ | ⟨mid, rfl, rfl⟩
  · -- the crash comes in the second part
    rw [Disk.replay_append, ← hl.disk]
    apply hparts' mid post rfl
    rintro ⟨front, ops, hash, b, rest, rfl, hops, rfl⟩
    exact htorn ⟨l ++ front, ops, hash, b, rest, by rw [List.append_assoc], hops, rfl⟩
  · -- the crash comes in the first part, or right at its end
    cases mid with
    | nil =>
      rw [List.append_nil] at hl
      rw [← hl.disk]
      exact hgood'
    | cons first mid =>
      apply hparts pre (first :: mid) rfl
      rintro ⟨front, ops, hash, b, rest, hpre, hops, hpost⟩
      obtain ⟨rfl, rfl⟩ := List.cons.inj hpost
      exact htorn ⟨front, ops, hash, b, mid ++ l', hpre, hops, rfl⟩

theorem safeWrites_quiet (hl : Performed s s' l) (hquiet : ∀ ops ∈ l, Quiet ops) : SafeWrites cx s s' := by
  intro hgood
  obtain ⟨hrecord, hblocks⟩ := replay_quiet hquiet s.store.disk
  refine ⟨?_, l, hl, ?_⟩
  · rw [hl.disk]
    exact hgood.congr hrecord hblocks
  · rintro pre post rfl -
    obtain ⟨hrecord', hblocks'⟩ := replay_quiet (fun ops hops => hquiet ops (List.mem_append_left _ hops))
      s.store.disk
    exact hgood.congr hrecord' hblocks'

theorem safeWrites_one (hl : Performed s s' [ops]) (hgood' : GoodDisk cx s'.store.disk) : SafeWrites cx s s' := by
  intro hgood
  refine ⟨hgood', [ops], hl, ?_⟩
  intro pre post hsplit _
  rcases List.append_eq_singleton_iff.mp hsplit.symm with ⟨rfl, -⟩ | ⟨rfl, -⟩
  · exact hgood
  · rw [← hl.disk]
    exact hgood'

/-- The batch that moves the tip to a chain whose blocks are stored. -/
theorem safeWrites_persist (hl : Performed s s' (ops :: l)) (hpersists : Persists (chainRecord s'.store.disk) ops)
    (hquiet : ∀ ops ∈ l, Quiet ops) (hblocks : s'.store.disk.blocks = s.store.disk.blocks)
    (hgood' : GoodDisk cx s'.store.disk) : SafeWrites cx s s' := by
  intro hgood
  refine ⟨hgood', ops :: l, hl, ?_⟩
  intro pre post hsplit _
  cases pre with
  | nil => exact hgood
  | cons first pre =>
    obtain ⟨rfl, rfl⟩ := List.cons.inj hsplit
    obtain ⟨hrecord, hsame⟩ := hpersists s.store.disk
    obtain ⟨hrecord', hsame'⟩ := replay_quiet (fun x hx => hquiet x (List.mem_append_left _ hx))
      (s.store.disk.applyBatch ops)
    apply hgood'.congr
    · exact hrecord'.trans hrecord
    · exact hsame'.trans (hsame.trans hblocks.symm)

end Disks

section Steps

variable {s s' : NodeState}

variable (cx K) in
/-- The node is on a chain, holds its bodies and has it recorded in the store. -/
structure CrashInv (s : NodeState) : Prop where
  node : NodeInv cx K s
  bodies : BodyInv (fun _ => True) s
  tip : s.store.disk.tip = some s.tip
  height : s.store.disk.height = some s.height
  utxoSet : s.store.disk.utxoSet = some s.utxoSet
  heightMap : s.store.disk.heightMap = some s.heightMap

theorem CrashInv.stored (h : CrashInv cx K s) {bs : List Block} (hbs : ChainInv cx K s bs) :
    ∀ b ∈ bs, s.store.disk.blocks.lookup (b.hash cx.sha256) = some b := by
  intro b hb
  obtain ⟨i, hi⟩ := List.getElem?_of_mem (List.mem_reverse.mpr hb)
  have hmap : s.heightMap.lookup i = some (b.hash cx.sha256) := by
    rw [hbs.heightMap, hashes, ← List.map_reverse, List.getElem?_map, hi]
    rfl
  obtain ⟨x, hx, hconnected⟩ := h.bodies.stored i _ hmap
  have := hconnected trivial
  rw [hbs.connected b hb] at this
  rw [hx, this]

theorem CrashInv.goodDisk (h : CrashInv cx K s) : GoodDisk cx s.store.disk := by
  obtain ⟨bs, hbs⟩ := h.node.chain
  exact ⟨bs, s.utxoSet, s.heightMap, s.height, hbs.branch, h.tip.trans hbs.tip.symm, h.height,
    hbs.height, h.utxoSet, h.heightMap, hbs.heightMap, h.stored hbs⟩

theorem CrashInv.of_record (hnode : NodeInv cx K s) (hbodies : BodyInv (fun _ => True) s) {hash work : Option Bytes32}
    {works : Option (Map Bytes32 Bytes32)} (hrecord : chainRecord s.store.disk =
      ⟨some s.tip, some s.height, some s.utxoSet, hash, some s.heightMap, work, works⟩) : CrashInv cx K s :=
  ⟨hnode, hbodies, congrArg ChainRecord.tip hrecord, congrArg ChainRecord.height hrecord,
    congrArg ChainRecord.utxoSet hrecord, congrArg ChainRecord.heightMap hrecord⟩

theorem CrashInv.keep (h : CrashInv cx K s) (hnode : NodeInv cx K s') (hbodies : BodyInv (fun _ => True) s')
    (hrecord : chainRecord s'.store.disk = chainRecord s.store.disk) (htip : s'.tip = s.tip)
    (hheight : s'.height = s.height) (hutxo : s'.utxoSet = s.utxoSet) (hmap : s'.heightMap = s.heightMap) :
    CrashInv cx K s' := by
  refine ⟨hnode, hbodies, ?_, ?_, ?_, ?_⟩
  · rw [htip, ← h.tip]
    exact congrArg ChainRecord.tip hrecord
  · rw [hheight, ← h.height]
    exact congrArg ChainRecord.height hrecord
  · rw [hutxo, ← h.utxoSet]
    exact congrArg ChainRecord.utxoSet hrecord
  · rw [hmap, ← h.heightMap]
    exact congrArg ChainRecord.heightMap hrecord

theorem safeWrites_extended (hprune : cx.pruneDepth = none) {b : Block} {undo : BlockUndoData}
    (hext : Extended cx s b undo s') (hgood' : GoodDisk cx s'.store.disk) : SafeWrites cx s s' := by
  intro hgood
  obtain ⟨ops, l, hl, hpersists, htip, hquiet⟩ := hext.writes hprune
  refine ⟨hgood', _, hl, ?_⟩
  intro pre post hsplit htorn
  match pre with
  | [] => exact hgood
  | [first] =>
    obtain ⟨rfl, -⟩ := List.cons.inj hsplit
    exact hgood.congr rfl rfl
  | [first, second] =>
    obtain ⟨rfl, hrest⟩ := List.cons.inj hsplit
    obtain ⟨rfl, rfl⟩ := List.cons.inj hrest
    exact absurd ⟨[_], ops, _, b, l, rfl, htip, rfl⟩ htorn
  | first :: second :: third :: pre =>
    obtain ⟨rfl, hrest⟩ := List.cons.inj hsplit
    obtain ⟨rfl, hrest'⟩ := List.cons.inj hrest
    obtain ⟨rfl, rfl⟩ := List.cons.inj hrest'
    obtain ⟨hrecord, hblocks⟩ :=
      hpersists (s.store.disk.applyBatch [.putUndo (b.hash cx.sha256) undo])
    obtain ⟨hrecord', hblocks'⟩ := replay_quiet (fun x hx => hquiet x (List.mem_append_left _ hx))
      (((s.store.disk.applyBatch [.putUndo (b.hash cx.sha256) undo]).applyBatch ops).applyBatch
        [.putBlock (b.hash cx.sha256) b])
    apply hgood'.congr
    · exact hrecord'.trans hrecord
    · refine hblocks'.trans ?_
      rw [hext.unpruned hprune]
      change (_ : Disk).blocks.insert _ _ = _
      rw [hblocks]
      rfl

/-- A clean call that repeats no header with another body keeps the invariant, and the store is
good after every part of its writes that is not torn. -/
theorem CrashInv.step (hcf : CollisionFree cx K) (hprune : cx.pruneDepth = none) {env : Env} {s : NodeState} {b : Block}
    (h : CrashInv cx K s) (hb : K b) (hsame : SameBody cx (fun _ => True) s b)
    (hclean : (∃ x, (addBlockStep cx env s b).1 = .ok x) ∨ RunsThrough cx env s b) :
    CrashInv cx K (addBlockStep cx env s b).2 ∧ SafeWrites cx s (addBlockStep cx env s b).2 := by
  have hnode := h.node.step hcf hb hclean
  have hbodies : BodyInv (fun _ => True) (addBlockStep cx env s b).2 := by
    apply h.bodies.step hprune hsame
    rcases hclean with hok | hthrough
    · exact Or.inr hok
    · exact Or.inl hthrough.writes
  have hcases := @addBlockStep_cases cx env s b
  generalize (addBlockStep cx env s b).1 = r at hcases hclean
  generalize (addBlockStep cx env s b).2 = s' at hcases hnode hbodies
  have hside : ∀ s₁, Admitted cx env s b → SideStored cx s b s₁ →
      CrashInv cx K s₁ ∧ SafeWrites cx s s₁ := by
    intro s₁ hadm hs₁
    obtain ⟨bs, hbs⟩ := h.node.chain
    have hinv : CrashInv cx K s₁ :=
      h.keep ⟨h.node.store.sideStored hcf hb hadm hs₁, bs, hbs.sideStored hs₁⟩
        (h.bodies.sideStored hsame hs₁) hs₁.record hs₁.tip hs₁.height hs₁.utxoSet hs₁.heightMap
    exact ⟨hinv, safeWrites_one hs₁.writes hinv.goodDisk⟩
  cases hcases with
  | rejected => exact ⟨h, SafeWrites.refl s⟩
  | orphaned =>
    obtain ⟨pool, children, heq, -⟩ := addOrphan_eq env s (b.hash cx.sha256) b
    rw [heq] at hnode hbodies ⊢
    exact ⟨⟨hnode, hbodies, h.tip, h.height, h.utxoSet, h.heightMap⟩,
      safeWrites_quiet (Performed.nil rfl) (by simp)⟩
  | extended hadm htip hext =>
    have hinv := CrashInv.of_record hnode hbodies hext.record
    exact ⟨hinv, safeWrites_extended hprune hext hinv.goodDisk⟩
  | stored hadm _ hs₁ _ => exact hside _ hadm hs₁
  | @reorganized s₁ s₂ s₃ _ disconnect connect hadm _ hs₁ _ hreorg _ =>
    have hinv := CrashInv.of_record hnode hbodies hreorg.record
    refine ⟨hinv, ?_⟩
    have hframe : ConnectFrame s₁ s₃ := by
      have hconnect := @connectBlocks_frame cx env s₂ connect
      rw [hreorg.reconnected] at hconnect
      rw [disconnectBlocks_eq hreorg.disconnected] at hconnect
      exact (ConnectFrame.utxoSet s₁ _).trans hconnect
    obtain ⟨l, hl, hquiet⟩ := hframe.writes
    obtain ⟨ops, l', hl', hpersists, hquiet'⟩ := hreorg.writes hprune
    refine (hside s₁ hadm hs₁).2.trans ((safeWrites_quiet hl hquiet).trans ?_)
    exact safeWrites_persist hl' hpersists hquiet' (hreorg.unpruned hprune).2 hinv.goodDisk
  | broken e s' hnot _ =>
    rcases hclean with ⟨x, hx⟩ | hthrough
    · simp at hx
    · exact absurd hthrough hnot

theorem CrashInv.fresh (hcf : CollisionFree cx K) (h : FreshNode cx s) : CrashInv cx K s :=
  CrashInv.of_record (NodeInv.fresh hcf h) (BodyInv.fresh h) h.record

theorem CrashInv.takeOrphan (h : CrashInv cx K s) (parent child : Bytes32) :
    CrashInv cx K (takeOrphan s parent child) ∧ SafeWrites cx s (AddBlock.takeOrphan s parent child) :=
  ⟨⟨h.node.takeOrphan parent child, h.bodies.congr rfl rfl rfl rfl, h.tip, h.height, h.utxoSet,
    h.heightMap⟩, safeWrites_quiet (Performed.nil rfl) (by simp)⟩

end Steps

section Runs

variable {s s₀ : NodeState} {calls : List Call} {o : Outcome}

/-- A call that is clean and repeats no header of the chain with another body. -/
def Careful (cx : Context) (c : Call) : Prop :=
  Clean cx c ∧ SameBody cx (fun _ => True) c.before c.block

theorem run_crashInv (hcf : CollisionFree cx K) (hprune : cx.pruneDepth = none) (hrun : Run cx s calls)
    (hgood : ∀ c ∈ calls, K c.block ∧ Careful cx c) : CrashInv cx K s := by
  have hstep : ∀ env s b, CrashInv cx K s → (K b ∧ ((∃ x, (addBlockStep cx env s b).1 = .ok x) ∨
      RunsThrough cx env s b) ∧ SameBody cx (fun _ => True) s b) →
      CrashInv cx K (addBlockStep cx env s b).2 := by
    intro env s b h hcall
    exact (h.step hcf hprune hcall.1 hcall.2.2 hcall.2.1).1
  refine (run_keeps ?_ hstep ?_ ?_ hrun hgood).1
  · intro env s h
    exact CrashInv.fresh hcf (freshNode h)
  · intro s parent child b h _
    exact (h.takeOrphan parent child).1
  · intro env s tipHeight h
    rw [maybePrune_none hprune]
    exact h

theorem call_safeWrites (hcf : CollisionFree cx K) (hprune : cx.pruneDepth = none) {env : Env} {fuel : ℕ} {b : Block}
    (hinv : CrashInv cx K s) (h : addBlockFuel cx env fuel s b = some o)
    (hgood : ∀ c ∈ o.calls, K c.block ∧ Careful cx c) : SafeWrites cx s o.state := by
  have hkeeps : Keeps (CrashInv cx K) (SafeWrites cx) (fun c => K c.block ∧ Careful cx c)
      (fun c => CrashInv cx K c.before ∧ Stepped cx c) (addBlockFuel cx env fuel) := by
    refine addBlockFuel_keeps ?_ ?_ ?_ ?_ ?_ fuel
    · exact SafeWrites.refl
    · exact fun s₁ s₂ s₃ => SafeWrites.trans
    · intro s b h hcall
      exact h.step hcf hprune hcall.1 hcall.2.2 hcall.2.1
    · intro s parent child b h _
      exact h.takeOrphan parent child
    · intro s tipHeight h
      rw [maybePrune_none hprune]
      exact ⟨h, SafeWrites.refl s⟩
  exact (hkeeps s b o h hinv hgood).2.1

/-- In every run of careful calls without pruning, a node that is opened again after any part of
the writes of a call is on a chain whose blocks it finds, unless the crash fell between the batch
that made a block the tip and the put of that block. -/
theorem crash_consistent (hprune : cx.pruneDepth = none) {s : NodeState} {calls : List Call} (hrun : Run cx s calls)
    {env : Env} {fuel : ℕ} {b : Block} {o : Outcome} (h : addBlockFuel cx env fuel s b = some o)
    (hcf : CollisionFree cx (Known cx (calls ++ o.calls))) (hgood : ∀ c ∈ calls ++ o.calls, Careful cx c)
    {pre post : List (List WriteOp)} (hlog : o.state.store.log = s.store.log ++ (pre ++ post)) (htorn : ¬ Torn pre post)
    {env' : Env} {s' : NodeState} (hopen : NodeState.new cx env' (s.store.disk.replay pre) = .ok s') :
    ∃ chain, Consistent cx s' chain := by
  have hcareful : ∀ c ∈ calls ++ o.calls, Known cx (calls ++ o.calls) c.block ∧ Careful cx c :=
    fun c hc => ⟨Or.inr ⟨c, hc, rfl⟩, hgood c hc⟩
  have hinv := run_crashInv hcf hprune hrun fun c hc => hcareful c (List.mem_append_left _ hc)
  obtain ⟨-, l, hl, hparts⟩ := call_safeWrites hcf hprune hinv h
    (fun c hc => hcareful c (List.mem_append_right _ hc)) hinv.goodDisk
  have hsplit : l = pre ++ post := List.append_cancel_left (hl.log.symm.trans hlog)
  exact (hparts pre post hsplit htorn).reopened hopen

theorem firstBranch_careful (hnew : NodeState.new regtest today Disk.empty = .ok s₀) :
    ∀ c ∈ [(⟨today, s₀, firstBranch, .ok .connected⟩ : Call)], Careful regtest c := by
  intro c hc
  rw [List.mem_singleton.mp hc]
  refine ⟨Or.inl ⟨_, rfl⟩, ?_⟩
  intro _ i hi
  have hother : regtest.genesisHash ≠ firstBranch.hash regtest.sha256 := by
    rw [← runRegtest_eq, ← runFirstBranch_eq]
    decide +kernel
  rw [(freshNode hnew).heightMap, lookup_insert_eq] at hi
  split at hi
  · exact absurd (Option.some.inj hi) hother
  · simp at hi

theorem firstBranch_safeWrites (hnew : NodeState.new regtest today Disk.empty = .ok s₀)
    (h : addBlockFuel regtest today 2 s₀ firstBranch = some o)
    (hcalls : o.calls = [⟨today, s₀, firstBranch, .ok .connected⟩]) : ∃ l, Performed s₀ o.state l := by
  have hcf := firstBranch_known s₀
  have hinv : CrashInv regtest _ s₀ := CrashInv.fresh hcf (freshNode hnew)
  have hsafe := call_safeWrites hcf rfl hinv h (by
    rw [hcalls]
    exact fun c hc => ⟨Or.inr ⟨c, hc, rfl⟩, firstBranch_careful hnew c hc⟩)
  obtain ⟨-, l, hl, -⟩ := hsafe hinv.goodDisk
  exact ⟨l, hl⟩

theorem Switched.careful (h : Switched s calls o) : ∀ c ∈ calls ++ o.calls, Careful scriptNode c :=
  fun c hc => ⟨Or.inl (h.calm c hc).result, fun _ => (h.calm c hc).body⟩

def isPutTip : WriteOp → Bool
  | .putTip _ => true
  | _ => false

theorem not_torn_of_all {pre post : List (List WriteOp)}
    (h : (pre.all fun ops => ops.all fun op => !isPutTip op) = true) : ¬ Torn pre post := by
  rintro ⟨front, ops, hash, b, rest, rfl, htip, -⟩
  have hops := List.all_eq_true.mp (List.all_eq_true.mp h ops (by simp)) _ htip
  simp [isPutTip] at hops

/-- The crash falls into the call that switches to the second branch, before the batch: the node is
still on the first one. -/
theorem switched_reopened : ∃ s calls o pre post s' chain, Run scriptNode s calls ∧ calls.length = 3 ∧
      addBlockFuel scriptNode today 3 s spendingTip = some o ∧
      o.state.store.log = s.store.log ++ (pre ++ post) ∧ pre.length = 3 ∧ post ≠ [] ∧
      NodeState.new scriptNode today (s.store.disk.replay pre) = .ok s' ∧
      s'.height = 1 ∧ Consistent scriptNode s' chain := by
  obtain ⟨s, calls, o, hswitched, h⟩ := exists_switched
  have hknown : ∀ c ∈ calls ++ o.calls,
      Known scriptNode (calls ++ o.calls) c.block ∧ Careful scriptNode c :=
    fun c hc => ⟨Or.inr ⟨c, hc, rfl⟩, Switched.careful h c hc⟩
  have hinv := run_crashInv (Switched.collisionFree h) rfl h.run fun c hc => hknown c (List.mem_append_left _ hc)
  obtain ⟨-, l, hl, -⟩ := call_safeWrites (Switched.collisionFree h) rfl hinv h.added
    (fun c hc => hknown c (List.mem_append_right _ hc)) hinv.goodDisk
  have hevaluated : switched.any (fun p =>
      let l := p.2.2.state.store.log.drop p.1.store.log.length
      decide (p.2.1.length = 3 ∧ 3 < l.length) && (l.take 3).all (fun ops => ops.all fun op => !isPutTip op) &&
        (NodeState.new scriptNode today (p.1.store.disk.replay (l.take 3))).toOption.any
          fun s' => decide (s'.height = 1)) = true := by
    rw [← runSwitched_eq, ← runScriptNode_eq]
    decide +kernel
  rw [hswitched, Option.any_some] at hevaluated
  simp only [hl.log, List.drop_left, Bool.and_eq_true, decide_eq_true_eq] at hevaluated
  obtain ⟨⟨⟨hthree, hlong⟩, huntorn⟩, hopens⟩ := hevaluated
  obtain ⟨s', hs', hheight⟩ := exists_ok_of_any hopens
  have hlog : o.state.store.log = s.store.log ++ (l.take 3 ++ l.drop 3) := by
    rw [List.take_append_drop]
    exact hl.log
  obtain ⟨chain, hchain⟩ := crash_consistent rfl h.run h.added (Switched.collisionFree h) (Switched.careful h) hlog
    (not_torn_of_all huntorn) hs'
  refine ⟨s, calls, o, _, _, s', chain, h.run, hthree, h.added, hlog, ?_, ?_, hs', of_decide_eq_true hheight, hchain⟩
  · rw [List.length_take]
    omega
  · exact fun hnil => absurd (List.drop_eq_nil_iff.mp hnil) (Nat.not_le_of_lt hlong)

/-- A crash between the batch and the put leaves a tip without its block. -/
theorem torn_tip_has_no_block : ∃ s b o pre post s', Run regtest s [] ∧ b.header.prevHash = s.tip ∧
      addBlockFuel regtest today 2 s b = some o ∧ o.state.store.log = s.store.log ++ (pre ++ post) ∧
      NodeState.new regtest today (s.store.disk.replay pre) = .ok s' ∧ s'.getBlock s'.tip = none := by
  obtain ⟨s₀, o, hnew, ho, hcalls, -, -⟩ := firstBranch_call
  obtain ⟨l, hl⟩ := firstBranch_safeWrites hnew ho hcalls
  have htorn : ((nodeAfter regtest today 1 []).any fun s =>
      (addBlockFuel regtest today 2 s firstBranch).any fun o =>
        (NodeState.new regtest today
          (s.store.disk.replay ((o.state.store.log.drop s.store.log.length).take 2))).toOption.any
            fun s' => decide (s'.getBlock s'.tip = none)) = true := by
    rw [← runRegtest_eq, ← runFirstBranch_eq]
    decide +kernel
  obtain ⟨s₁, hs₁, hafter⟩ := Option.any_eq_true _ _ |>.mp htorn
  obtain ⟨o₁, ho₁, hopen⟩ := Option.any_eq_true _ _ |>.mp hafter
  obtain rfl : s₁ = s₀ := by
    have hnew₁ := nodeAfter_nil hs₁
    rw [hnew] at hnew₁
    exact (Except.ok.inj hnew₁).symm
  obtain rfl : o₁ = o := Option.some.inj (ho₁.symm.trans ho)
  rw [hl.log, List.drop_left] at hopen
  obtain ⟨s', hs', hlost⟩ := exists_ok_of_any hopen
  refine ⟨s₁, firstBranch, o₁, l.take 2, l.drop 2, s', Run.fresh hnew,
    by rw [(freshNode hnew).tip]; rfl, ho, ?_, hs', of_decide_eq_true hlost⟩
  rw [List.take_append_drop]
  exact hl.log

end Runs

end KuberCoin.Crashes
