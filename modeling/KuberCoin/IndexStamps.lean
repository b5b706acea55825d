import KuberCoin.ChainIndexes
import KuberCoin.Crashes

/-!
The stored indexes and their stamp. `save_indexes` puts the tip stamp first and the three maps after
it, and `try_load_indexes` trusts the maps when the stamp is the stored tip. Between the stamp of a new
tip and the last map the store holds maps of the chain before, under a stamp that says otherwise.
-/
namespace KuberCoin.IndexStamps

open Bytes Maps Transactions Blocks UtxoSets Params Difficulty Validator Storage NodeStates
  NodeStates.NodeState AddBlock Frames BlockEffects StepCases Runs Branches ChainInvariants
  StoredBodies ChainIndexes Sessions Crashes

section Stores

variable (cx : Context) {d : Disk} {s : NodeState}

/-- The chain of the stored tip: from the block stored under it back to genesis. -/
structure StoredChain (d : Disk) (bs : List Block) : Prop where
  branch : ∃ u, ValidBranch cx bs u
  tip : d.tip = (hashes cx bs).head?
  stored : ∀ b ∈ bs, d.blocks.lookup (b.hash cx.sha256) = some b

/-- Maps that are stored under the stamp of the stored tip are those of its chain. -/
def Trustworthy (d : Disk) : Prop :=
  ∀ tip ix, d.tip = some tip → d.indexTip = some tip → d.indexTx = some ix.tx →
    d.indexSpk = some ix.scriptPubkey → d.indexHeight = some ix.chainHeight →
    ∃ bs, StoredChain cx d bs ∧ ix = Indexes.ofBranch cx.sha256 bs

/-- The node opened on the store takes the stored maps, without a rebuild. -/
structure LoadsIndexes (d : Disk) (s : NodeState) : Prop where
  opened : ∃ env, NodeState.new cx env d = .ok s
  loaded : ∃ env tip s₂, d.tip = some tip ∧
    ensureGenesisBlockAvailable cx env (load (blank d) tip) = .ok s₂ ∧ tryLoadIndexes s₂ = some s

variable {cx}

theorem ensureGenesis_indexes {env : Env} {tip : Bytes32}
    (h : ensureGenesisBlockAvailable cx env (load (blank d) tip) = .ok s) :
    s.tip = tip ∧ s.store.disk.indexTip = d.indexTip ∧ s.store.disk.indexTx = d.indexTx ∧
      s.store.disk.indexSpk = d.indexSpk ∧ s.store.disk.indexHeight = d.indexHeight := by
  unfold ensureGenesisBlockAvailable at h
  simp only at h
  split at h
  next => simp at h
  next s₁ hstored =>
    obtain rfl := Except.ok.inj h
    split at hstored
    next =>
      obtain rfl := write_eq_some hstored
      exact ⟨rfl, rfl, rfl, rfl, rfl⟩
    next =>
      obtain rfl := Option.some.inj hstored
      exact ⟨rfl, rfl, rfl, rfl, rfl⟩

theorem tryLoadIndexes_eq_some {s' : NodeState} (h : tryLoadIndexes s = some s') :
    s.store.disk.indexTip = some s.tip ∧ s.store.disk.indexTx = some (indexes s').tx ∧
      s.store.disk.indexSpk = some (indexes s').scriptPubkey ∧
      s.store.disk.indexHeight = some (indexes s').chainHeight := by
  unfold tryLoadIndexes at h
  simp only [Option.bind_eq_bind, Option.bind_eq_some_iff] at h
  obtain ⟨stamp, hstamp, h⟩ := h
  by_cases hsame : stamp = s.tip
  · rw [if_neg (not_not.mpr hsame)] at h
    simp only [Option.bind_eq_some_iff] at h
    obtain ⟨tx, htx, spk, hspk, heights, hheights, h⟩ := h
    obtain rfl := Option.some.inj h
    exact ⟨by rw [hstamp, hsame], htx, hspk, hheights⟩
  · rw [if_pos hsame] at h
    cases h

theorem Trustworthy.loaded (h : Trustworthy cx d) (hs : LoadsIndexes cx d s) :
    ∃ bs, StoredChain cx d bs ∧ indexes s = Indexes.ofBranch cx.sha256 bs := by
  obtain ⟨env, tip, s₂, htip, hgenesis, hload⟩ := hs.loaded
  obtain ⟨htip₂, hstamp, htx, hspk, hheights⟩ := ensureGenesis_indexes hgenesis
  obtain ⟨hstamp', htx', hspk', hheights'⟩ := tryLoadIndexes_eq_some hload
  refine h tip (indexes s) htip ?_ (htx ▸ htx') (hspk ▸ hspk') (hheights ▸ hheights')
  rw [← hstamp, hstamp', htip₂]

end Stores

section Writes

/-- An operation of a call for a block before the indexes are saved: no index, no deleted block, and
no other block. -/
def PlainOp (hash : Bytes32) (b : Block) : WriteOp → Prop
  | .putIndexTip _ => False
  | .putIndexTx _ => False
  | .putIndexSpk _ => False
  | .putIndexHeight _ => False
  | .deleteBlock _ => False
  | .putBlock k x => k = hash ∧ x = b
  | _ => True

def Plain (hash : Bytes32) (b : Block) (ops : List WriteOp) : Prop := ∀ op ∈ ops, PlainOp hash b op

/-- The stored index values. -/
structure SameIndexes (d d' : Disk) : Prop where
  indexTip : d'.indexTip = d.indexTip
  indexTx : d'.indexTx = d.indexTx
  indexSpk : d'.indexSpk = d.indexSpk
  indexHeight : d'.indexHeight = d.indexHeight

theorem SameIndexes.trans {d d' d'' : Disk} (h : SameIndexes d d') (h' : SameIndexes d' d'') : SameIndexes d d'' where
  indexTip := h'.indexTip.trans h.indexTip
  indexTx := h'.indexTx.trans h.indexTx
  indexSpk := h'.indexSpk.trans h.indexSpk
  indexHeight := h'.indexHeight.trans h.indexHeight

variable {hash : Bytes32} {b : Block}

/-- A block that is stored under its hash stays stored, if the block that is put repeats none. -/
def KeepsBlocks (hash : Bytes32) (b : Block) (d d' : Disk) : Prop :=
  ∀ k x, d.blocks.lookup k = some x → (k = hash → x = b) → d'.blocks.lookup k = some x

theorem applyOp_plain {op : WriteOp} (h : PlainOp hash b op) (d : Disk) :
    SameIndexes d (d.applyOp op) ∧ KeepsBlocks hash b d (d.applyOp op) := by
  cases op with
  | putIndexTip | putIndexTx | putIndexSpk | putIndexHeight | deleteBlock => exact h.elim
  | putBlock k x =>
    obtain ⟨rfl, rfl⟩ := h
    refine ⟨⟨rfl, rfl, rfl, rfl⟩, fun k' x' hx hrepeats => ?_⟩
    change (d.blocks.insert k x).lookup k' = some x'
    rw [lookup_insert_eq]
    split
    next hk => rw [hrepeats hk]
    next => exact hx
  | _ => exact ⟨⟨rfl, rfl, rfl, rfl⟩, fun _ _ hx _ => hx⟩

theorem applyBatch_plain {ops : List WriteOp} (h : Plain hash b ops) (d : Disk) :
    SameIndexes d (d.applyBatch ops) ∧ KeepsBlocks hash b d (d.applyBatch ops) := by
  induction ops generalizing d with
  | nil => exact ⟨⟨rfl, rfl, rfl, rfl⟩, fun _ _ hx _ => hx⟩
  | cons op rest ih =>
    obtain ⟨hsame, hkeeps⟩ := applyOp_plain (h op List.mem_cons_self) d
    obtain ⟨hsame', hkeeps'⟩ := ih (fun x hx => h x (List.mem_cons_of_mem _ hx)) (d.applyOp op)
    exact ⟨hsame.trans hsame', fun k x hx hrepeats => hkeeps' k x (hkeeps k x hx hrepeats) hrepeats⟩

theorem replay_plain {l : List (List WriteOp)} (h : ∀ ops ∈ l, Plain hash b ops) (d : Disk) :
    SameIndexes d (d.replay l) ∧ KeepsBlocks hash b d (d.replay l) := by
  induction l generalizing d with
  | nil => exact ⟨⟨rfl, rfl, rfl, rfl⟩, fun _ _ hx _ => hx⟩
  | cons ops rest ih =>
    obtain ⟨hsame, hkeeps⟩ := applyBatch_plain (h ops List.mem_cons_self) d
    obtain ⟨hsame', hkeeps'⟩ := ih (fun x hx => h x (List.mem_cons_of_mem _ hx)) (d.applyBatch ops)
    exact ⟨hsame.trans hsame', fun k x hx hrepeats => hkeeps' k x (hkeeps k x hx hrepeats) hrepeats⟩

/-- The four puts of `save_indexes`. -/
def savedOps (s : NodeState) : List (List WriteOp) :=
  [[.putIndexTip s.tip], [.putIndexTx s.txIndex], [.putIndexSpk s.scriptPubkeyIndex],
    [.putIndexHeight s.chainHeightIndex]]

theorem saveIndexes_performed {env : Env} (hdurable : ∀ log ops, env.writeOk log ops = true) (s : NodeState) :
    Performed s (saveIndexes env s) (savedOps s) := by
  unfold saveIndexes tryWrite write
  simp only [hdurable, if_true, Option.getD_some]
  exact ⟨by simp [Store.perform, savedOps], rfl⟩

end Writes

section Calls

variable {cx : Context} {env : Env} {hash tip work : Bytes32} {b : Block} {s s' : NodeState} {height : ℕ} {x : Exit}

theorem plain_one {op : WriteOp} (h : PlainOp hash b op) : Plain hash b [op] := by
  intro op' hop
  rw [List.mem_singleton.mp hop]
  exact h

theorem plain_persistOps : Plain hash b (persistOps cx s tip height) := by
  have hvalues : ∀ (h : ℕ) (u : UtxoSet) (c : Bytes32) (m : Map ℕ Bytes32) (w : Bytes32)
      (works : Map Bytes32 Bytes32) (index : Map Bytes32 BlockIndex),
      Plain hash b [.putTip tip, .putHeight h, .putUtxoSet u, .putUtxoHash c, .putHeightMap m,
        .putChainwork w, .putBlockWork works, .putBlockIndex index] := by
    intro h u c m w works index
    simp [Plain, PlainOp]
  intro op hop
  unfold persistOps at hop
  obtain hvalue | hundo := List.mem_append.mp hop
  · exact hvalues _ _ _ _ _ _ _ op hvalue
  · split at hundo
    next =>
      obtain ⟨k, -, rfl⟩ := List.mem_map.mp hundo
      trivial
    next => cases hundo

theorem indexTransactions_store (height : ℕ) (s : NodeState) (b : Block) :
    (indexTransactions cx height s b).store = s.store := by
  unfold indexTransactions
  generalize b.transactions = txs
  induction txs generalizing s with
  | nil => rfl
  | cons tx rest ih => exact ih _

theorem indexHeights_store (hs : List ℕ) (s : NodeState) : (hs.foldl (indexHeight cx) s).store = s.store := by
  induction hs generalizing s with
  | nil => rfl
  | cons h rest ih =>
    refine (ih _).trans ?_
    unfold indexHeight
    split
    next => rfl
    next =>
      split
      next => rfl
      next => exact indexTransactions_store h _ _

theorem rebuildIndexes_saves (s : NodeState) :
    ∃ t, t.store = s.store ∧ rebuildIndexes cx env s = saveIndexes env t := by
  refine ⟨(List.range (s.height + 1)).foldl (indexHeight cx)
    { s with txIndex := ∅, scriptPubkeyIndex := ∅, chainHeightIndex := ∅ }, ?_, rfl⟩
  rw [indexHeights_store]

theorem connectBlock_writes {hash : Bytes32} {b : Block} (s : NodeState) (k : Bytes32) :
    ∃ l, Performed s (connectBlock cx env s k).2 l ∧ ∀ ops ∈ l, Plain hash b ops := by
  have hnone : ∀ {s' : NodeState}, s'.store = s.store →
      ∃ l, Performed s s' l ∧ ∀ ops ∈ l, Plain hash b ops := fun h =>
    ⟨[], Performed.nil h, by simp⟩
  unfold connectBlock
  split
  next => exact hnone rfl
  next x _ =>
    split
    next => exact hnone rfl
    next =>
      split
      next => exact hnone rfl
      next undo u _ =>
        split
        next => exact hnone rfl
        next s₁ hw =>
          obtain rfl := write_eq_some hw
          refine ⟨[[.putUndo k undo]], Performed.one rfl, fun ops hops => ?_⟩
          rw [List.mem_singleton.mp hops]
          exact plain_one trivial

theorem connectBlocks_writes {hash : Bytes32} {b : Block} (ks : List Bytes32) (s : NodeState) :
    ∃ l, Performed s (connectBlocks cx env s ks).2 l ∧ ∀ ops ∈ l, Plain hash b ops := by
  induction ks generalizing s with
  | nil => exact ⟨[], Performed.nil rfl, by simp⟩
  | cons k rest ih =>
    obtain ⟨l, hl, hplain⟩ := @connectBlock_writes cx env hash b s k
    unfold connectBlocks
    cases hone : connectBlock cx env s k with
    | mk r s' =>
      rw [hone] at hl
      cases r with
      | error e => exact ⟨l, hl, hplain⟩
      | ok =>
        obtain ⟨l', hl', hplain'⟩ := ih s'
        refine ⟨l ++ l', hl.trans hl', fun ops hops => ?_⟩
        obtain hops | hops := List.mem_append.mp hops
        · exact hplain ops hops
        · exact hplain' ops hops

theorem performed_write {ops : List WriteOp} (h : s.write env ops = some s') : Performed s s' [ops] := by
  obtain rfl := write_eq_some h
  exact Performed.one rfl

theorem performed_persist (hprune : cx.pruneDepth = none) (h : persistState cx env s tip height = some s') :
    Performed s s' [persistOps cx s tip height] := by
  rw [(persistState_eq_some h).2 hprune]
  exact Performed.one rfl

theorem performed_memory {t t' : NodeState} {l : List (List WriteOp)} (h : Performed s t l)
    (hstore : t'.store = t.store) : Performed s t' l := by
  have := h.trans (Performed.nil hstore)
  rwa [List.append_nil] at this

theorem connectTip_writes (hprune : cx.pruneDepth = none) (h : connectTip cx env s b work = (.ok x, s')) :
    ∃ t l, Performed s t l ∧ (∀ ops ∈ l, Plain (b.hash cx.sha256) b ops) ∧ s' = saveIndexes env t := by
  unfold connectTip at h
  simp only at h
  split at h
  next => simp at h
  next =>
    split at h
    next => simp at h
    next undo u _ =>
      split at h
      next => simp at h
      next s₁ hundo =>
        split at h
        next => simp at h
        next s₃ hpersist =>
          split at h
          next => simp at h
          next s₄ hblock =>
            obtain ⟨-, rfl⟩ := Prod.mk.inj h
            have hundone := performed_write hundo
            have hadvanced : Performed s (advanceTip cx s₁ b work) [[.putUndo (b.hash cx.sha256) undo]] :=
              ⟨hundone.log, hundone.disk⟩
            have hput := (hadvanced.trans (performed_persist hprune hpersist)).trans
              (performed_write hblock)
            refine ⟨_, _, performed_memory hput (indexTransactions_store b.header.height
              { s₄ with chainHeightIndex :=
                  s₄.chainHeightIndex.insert (b.hash cx.sha256) b.header.height } b), ?_, rfl⟩
            intro ops hops
            simp only [List.nil_append, List.cons_append, List.mem_cons, List.not_mem_nil, or_false] at hops
            obtain rfl | rfl | rfl := hops
            · exact plain_one trivial
            · exact plain_persistOps
            · exact plain_one ⟨rfl, rfl⟩

theorem reorganize_writes (hprune : cx.pruneDepth = none) {y : Block} (h : reorganize cx env s b work = (.ok x, s')) :
    ∃ t l, Performed s t l ∧ (∀ ops ∈ l, Plain hash y ops) ∧ s' = saveIndexes env t := by
  unfold reorganize at h
  simp only at h
  split at h
  next => simp at h
  next disconnect connect _ =>
    split at h
    next => simp at h
    next =>
      split at h
      next => simp at h
      next =>
        split at h
        next => simp at h
        next s₁ hdisconnect =>
          split at h
          next => simp at h
          next s₂ hconnect =>
            split at h
            next => simp at h
            next s₄ hpersist =>
              obtain ⟨-, rfl⟩ := Prod.mk.inj h
              obtain ⟨l, hl, hplain⟩ := @connectBlocks_writes cx env hash y connect s₁
              rw [hconnect] at hl
              have hstart : Performed s s₂ l := by
                rw [disconnectBlocks_eq hdisconnect] at hl
                exact ⟨hl.log, hl.disk⟩
              have hmoved : Performed s (moveTip cx s₂ b work) l := performed_memory hstart rfl
              have hpersisted := hmoved.trans (performed_persist hprune hpersist)
              obtain ⟨t, ht, hsaved⟩ := @rebuildIndexes_saves cx env s₄
              refine ⟨t, _, performed_memory hpersisted ht, fun ops hops => ?_, hsaved⟩
              obtain hops | hops := List.mem_append.mp hops
              · exact hplain ops hops
              · rw [List.mem_singleton.mp hops]
                exact plain_persistOps

theorem connected_writes (hprune : cx.pruneDepth = none) (h : addBlockStep cx env s b = (.ok .connected, s')) :
    ∃ t l, Performed s t l ∧ (∀ ops ∈ l, Plain (b.hash cx.sha256) b ops) ∧ s' = saveIndexes env t := by
  unfold addBlockStep at h
  split at h
  next => simp at h
  next =>
    split at h
    next => simp at h
    next =>
      split at h
      next => simp at h
      next =>
        split at h
        next => exact connectTip_writes hprune h
        next =>
          unfold connectSide at h
          split at h
          next => simp at h
          next s₁ hside =>
            split at h
            next => simp at h
            next =>
              obtain ⟨s₀, hwrite, rfl⟩ := Option.map_eq_some_iff.mp hside
              have hput := performed_write hwrite
              obtain ⟨t, l, hl, hplain, hsaved⟩ := reorganize_writes hprune h
              refine ⟨t, _, hput.trans ⟨hl.log, hl.disk⟩, fun ops hops => ?_, hsaved⟩
              obtain hops | hops := List.mem_append.mp hops
              · rw [List.mem_singleton.mp hops]
                exact plain_one ⟨rfl, rfl⟩
              · exact hplain ops hops

end Calls

section Crashes

variable {cx : Context} {K : Block → Prop} {tip : Bytes32} {d : Disk} {s s' : NodeState} {b : Block}
  {post : List (List WriteOp)}

/-- A put of one of the three maps. -/
def MapOp : WriteOp → Prop
  | .putIndexTx _ => True
  | .putIndexSpk _ => True
  | .putIndexHeight _ => True
  | _ => False

/-- The next put would be one of the three maps. -/
def MapNext (post : List (List WriteOp)) : Prop := ∃ op rest, post = [op] :: rest ∧ MapOp op

/-- The stored indexes are missing or the given ones. -/
structure Stamp (tip : Bytes32) (ix : Indexes) (d : Disk) : Prop where
  indexTip : ∀ t, d.indexTip = some t → t = tip
  indexTx : ∀ m, d.indexTx = some m → m = ix.tx
  indexSpk : ∀ m, d.indexSpk = some m → m = ix.scriptPubkey
  indexHeight : ∀ m, d.indexHeight = some m → m = ix.chainHeight

theorem Stamp.congr {ix : Indexes} {d' : Disk} (h : Stamp tip ix d) (hsame : SameIndexes d d') : Stamp tip ix d' where
  indexTip t ht := h.indexTip t (hsame.indexTip ▸ ht)
  indexTx m hm := h.indexTx m (hsame.indexTx ▸ hm)
  indexSpk m hm := h.indexSpk m (hsame.indexSpk ▸ hm)
  indexHeight m hm := h.indexHeight m (hsame.indexHeight ▸ hm)

/-- Under the stamp of a stored chain there are the indexes of that chain. -/
theorem Stamp.trustworthy {bs : List Block} {u : UtxoSet} (h : Stamp tip (Indexes.ofBranch cx.sha256 bs) d)
    (hbranch : ValidBranch cx bs u) (htip : (hashes cx bs).head? = some tip)
    (hstored : ∀ b ∈ bs, d.blocks.lookup (b.hash cx.sha256) = some b) : Trustworthy cx d := by
  intro tip' ix hdisk hstamp htx hspk hheights
  have hsame := h.indexTip tip' hstamp
  refine ⟨bs, ⟨⟨u, hbranch⟩, ?_, hstored⟩, ?_⟩
  · rw [hdisk, hsame, htip]
  · obtain ⟨tx, spk, heights⟩ := ix
    rw [show tx = _ from h.indexTx tx htx, show spk = _ from h.indexSpk spk hspk,
      show heights = _ from h.indexHeight heights hheights]

/-- The node holds its chain and the indexes of it, and has stored no others. -/
structure Stamped (cx : Context) (K : Block → Prop) (s : NodeState) : Prop where
  crash : CrashInv cx K s
  chain : ∃ bs, ChainInv cx K s bs ∧ indexes s = Indexes.ofBranch cx.sha256 bs
  stamp : Stamp s.tip (indexes s) s.store.disk

theorem Stamped.now (h : Stamped cx K s) : Trustworthy cx s.store.disk := by
  obtain ⟨bs, hbs, heq⟩ := h.chain
  exact (heq ▸ h.stamp).trustworthy hbs.branch hbs.tip (h.crash.stored hbs)

theorem Stamped.trustworthy (h : Stamped cx K s) (hsame : SameBody cx (fun _ => True) s b) {l : List (List WriteOp)}
    (hl : ∀ ops ∈ l, Plain (b.hash cx.sha256) b ops) : Trustworthy cx (s.store.disk.replay l) := by
  obtain ⟨bs, hbs, heq⟩ := h.chain
  obtain ⟨hindexes, hkeeps⟩ := replay_plain hl s.store.disk
  refine ((heq ▸ h.stamp).congr hindexes).trustworthy hbs.branch hbs.tip fun x hx => ?_
  have hstored := h.crash.stored hbs x hx
  refine hkeeps _ x hstored fun hrepeats => ?_
  -- a block with the hash of a block of the chain is that block
  obtain ⟨i, hi⟩ := List.getElem?_of_mem (List.mem_reverse.mpr hx)
  have hmap : s.heightMap.lookup i = some (b.hash cx.sha256) := by
    rw [← hrepeats, hbs.heightMap, hashes, ← List.map_reverse, List.getElem?_map, hi]
    rfl
  have hfound := hsame trivial i hmap
  rw [h.crash.bodies.getBlock, ← hrepeats, hstored] at hfound
  exact Option.some.inj hfound

variable (cx) in
/-- Until the last write of a way from one state to another the stored indexes can be trusted,
unless a map is put next. -/
def SafeCrashes (s s' : NodeState) : Prop :=
  ∃ l, Performed s s' l ∧ ∀ pre post, l = pre ++ post → post ≠ [] → ¬ MapNext post →
    Trustworthy cx (s.store.disk.replay pre)

theorem SafeCrashes.memory (h : s'.store = s.store) : SafeCrashes cx s s' := by
  refine ⟨[], Performed.nil h, fun pre post hsplit hne _ => ?_⟩
  exact absurd (List.append_eq_nil_iff.mp hsplit.symm).2 hne

theorem MapNext.append (h : MapNext post) (l : List (List WriteOp)) : MapNext (post ++ l) := by
  obtain ⟨op, rest, rfl, hop⟩ := h
  exact ⟨op, rest ++ l, List.cons_append, hop⟩

theorem SafeCrashes.trans {s'' : NodeState} (h : SafeCrashes cx s s') (h' : SafeCrashes cx s' s'') :
    SafeCrashes cx s s'' := by
  obtain ⟨l, hl, hparts⟩ := h
  obtain ⟨l', hl', hparts'⟩ := h'
  refine ⟨l ++ l', hl.trans hl', fun pre post hsplit hne hnext => ?_⟩
  obtain ⟨mid, rfl, rfl⟩ | ⟨mid, rfl, rfl⟩ := List.append_eq_append_iff.mp hsplit
  · rw [Disk.replay_append, ← hl.disk]
    exact hparts' mid post rfl hne hnext
  · by_cases hmid : mid = []
    · subst hmid
      rw [List.append_nil] at hl
      rw [← hl.disk]
      exact hparts' [] l' rfl hne hnext
    · exact hparts pre mid rfl hmid fun hmap => hnext (hmap.append l')

theorem mapNext_of_saved {pre : List (List WriteOp)} (h : savedOps s = pre ++ post) (hpre : pre ≠ [])
    (hpost : post ≠ []) : MapNext post := by
  unfold savedOps at h
  match pre with
  | [] => exact absurd rfl hpre
  | [_] => exact ⟨_, _, (List.cons.inj h).2.symm, trivial⟩
  | [_, _] => exact ⟨_, _, (List.cons.inj (List.cons.inj h).2).2.symm, trivial⟩
  | [_, _, _] => exact ⟨_, _, (List.cons.inj (List.cons.inj (List.cons.inj h).2).2).2.symm, trivial⟩
  | _ :: _ :: _ :: _ :: rest =>
    have hnil := (List.cons.inj (List.cons.inj (List.cons.inj (List.cons.inj h).2).2).2).2
    exact absurd (List.append_eq_nil_iff.mp hnil.symm).2 hpost

theorem unconnected_writes {env : Env} (hne : (addBlockStep cx env s b).1 ≠ .ok .connected)
    (hclean : (∃ x, (addBlockStep cx env s b).1 = .ok x) ∨ RunsThrough cx env s b) :
    ∃ l, Performed s (addBlockStep cx env s b).2 l ∧ (∀ ops ∈ l, Plain (b.hash cx.sha256) b ops) ∧
      (addBlockStep cx env s b).2.tip = s.tip ∧ indexes (addBlockStep cx env s b).2 = indexes s := by
  have hcases := @addBlockStep_cases cx env s b
  generalize (addBlockStep cx env s b).1 = r at hcases hclean hne
  generalize (addBlockStep cx env s b).2 = s' at hcases ⊢
  cases hcases with
  | rejected => exact ⟨[], Performed.nil rfl, by simp, rfl, rfl⟩
  | orphaned =>
    obtain ⟨pool, children, hpool, -⟩ := addOrphan_eq env s (b.hash cx.sha256) b
    rw [hpool]
    exact ⟨[], Performed.nil rfl, by simp, rfl, rfl⟩
  | extended => exact absurd rfl hne
  | stored _ _ hside _ =>
    refine ⟨_, hside.writes, fun ops hops => ?_, hside.tip, ?_⟩
    · rw [List.mem_singleton.mp hops]
      exact plain_one ⟨rfl, rfl⟩
    · unfold indexes
      rw [hside.txIndex, hside.scriptPubkeyIndex, hside.chainHeightIndex]
  | reorganized => exact absurd rfl hne
  | broken e s' hnot _ =>
    obtain ⟨x, hx⟩ | hthrough := hclean
    · cases hx
    · exact absurd hthrough hnot

/-- A save leaves the stored indexes those of the node, whatever they were. -/
theorem stamp_of_saved {t : NodeState} (h : Performed t s (savedOps t)) (htip : s.tip = t.tip)
    (hindexes : indexes s = indexes t) : Stamp s.tip (indexes s) s.store.disk := by
  have hdisk := h.disk
  rw [htip, hindexes, hdisk]
  exact ⟨fun _ ht => (Option.some.inj ht).symm, fun _ hm => (Option.some.inj hm).symm,
    fun _ hm => (Option.some.inj hm).symm, fun _ hm => (Option.some.inj hm).symm⟩

theorem Stamped.step (hcf : CollisionFree cx K) (hprune : cx.pruneDepth = none) {env : Env}
    (hdurable : ∀ log ops, env.writeOk log ops = true) {s : NodeState} {b : Block} (h : Stamped cx K s) (hb : K b)
    (hsame : SameBody cx (fun _ => True) s b)
    (hclean : (∃ x, (addBlockStep cx env s b).1 = .ok x) ∨ RunsThrough cx env s b) :
    Stamped cx K (addBlockStep cx env s b).2 ∧ SafeCrashes cx s (addBlockStep cx env s b).2 := by
  have hcrash := (h.crash.step hcf hprune hb hsame hclean).1
  obtain ⟨bs, hbs, heq⟩ := h.chain
  have hchain := indexes_follow hprune hcf h.crash.node.store hbs heq hb hclean
    fun bs' hbs' x hx => (hcrash.bodies.getBlock _).trans (hcrash.stored hbs' x hx)
  by_cases hconnected : (addBlockStep cx env s b).1 = .ok .connected
  · obtain ⟨t, l, hl, hplain, hsaved⟩ :=
      connected_writes hprune (show addBlockStep cx env s b = (.ok .connected, (addBlockStep cx env s b).2) from
        Prod.ext hconnected rfl)
    have hsave := saveIndexes_performed hdurable t
    have hframe := @saveIndexes_frame env t
    rw [← hsaved] at hsave hframe
    refine ⟨⟨hcrash, hchain, stamp_of_saved hsave hframe.tip ?_⟩, l ++ savedOps t, hl.trans hsave, ?_⟩
    · rw [hsaved, indexes_saveIndexes]
    · intro pre post hsplit hne hnext
      obtain ⟨mid, rfl, hmid⟩ | ⟨mid, rfl, -⟩ := List.append_eq_append_iff.mp hsplit
      · -- the crash comes in the save: at its start, or a map is put next
        by_cases hstart : mid = []
        · rw [hstart, List.append_nil]
          exact h.trustworthy hsame hplain
        · exact absurd (mapNext_of_saved hmid hstart hne) hnext
      · exact h.trustworthy hsame fun ops hops => hplain ops (List.mem_append_left _ hops)
  · obtain ⟨l, hl, hplain, htip, hindexes⟩ := unconnected_writes hconnected hclean
    refine ⟨⟨hcrash, hchain, ?_⟩, l, hl, ?_⟩
    · rw [htip, hindexes, hl.disk]
      exact h.stamp.congr (replay_plain hplain _).1
    · rintro pre post rfl - -
      exact h.trustworthy hsame fun ops hops => hplain ops (List.mem_append_left _ hops)

theorem Stamped.takeOrphan (h : Stamped cx K s) (parent child : Bytes32) :
    Stamped cx K (takeOrphan s parent child) ∧ SafeCrashes cx s (AddBlock.takeOrphan s parent child) := by
  obtain ⟨bs, hbs, heq⟩ := h.chain
  exact ⟨⟨(h.crash.takeOrphan parent child).1, ⟨bs, ⟨hbs.branch, hbs.known, hbs.tip, hbs.height,
    hbs.heightMap, hbs.undo, hbs.connected⟩, heq⟩, h.stamp⟩, SafeCrashes.memory rfl⟩

end Crashes

section Opening

variable {cx : Context} {K : Block → Prop} {env : Env} {s : NodeState} {d : Disk}

/-- The writes of a save that may fail: some of the four puts. -/
theorem saveIndexes_some (s : NodeState) : ∃ l, Performed s (saveIndexes env s) l ∧ ∀ ops ∈ l, ops ∈ savedOps s := by
  have hone : ∀ (t : NodeState) (ops : List WriteOp), ops ∈ savedOps s →
      ∃ l, Performed t (t.tryWrite env ops) l ∧ ∀ x ∈ l, x ∈ savedOps s := by
    intro t ops hops
    unfold tryWrite
    cases hw : t.write env ops with
    | none => exact ⟨[], Performed.nil rfl, by simp⟩
    | some t' =>
      refine ⟨[ops], performed_write hw, fun x hx => ?_⟩
      rw [List.mem_singleton.mp hx]
      exact hops
  unfold saveIndexes
  obtain ⟨l₁, h₁, hin₁⟩ := hone s [.putIndexTip s.tip] (by simp [savedOps])
  obtain ⟨l₂, h₂, hin₂⟩ := hone _ [.putIndexTx s.txIndex] (by simp [savedOps])
  obtain ⟨l₃, h₃, hin₃⟩ := hone _ [.putIndexSpk s.scriptPubkeyIndex] (by simp [savedOps])
  obtain ⟨l₄, h₄, hin₄⟩ := hone _ [.putIndexHeight s.chainHeightIndex] (by simp [savedOps])
  refine ⟨_, ((h₁.trans h₂).trans h₃).trans h₄, fun ops hops => ?_⟩
  simp only [List.mem_append] at hops
  obtain ((hops | hops) | hops) | hops := hops
  · exact hin₁ ops hops
  · exact hin₂ ops hops
  · exact hin₃ ops hops
  · exact hin₄ ops hops

theorem replay_saved {l : List (List WriteOp)} (hl : ∀ ops ∈ l, ops ∈ savedOps s) (h : Stamp s.tip (indexes s) d) :
    Stamp s.tip (indexes s) (d.replay l) ∧ (d.replay l).blocks = d.blocks := by
  induction l generalizing d with
  | nil => exact ⟨h, rfl⟩
  | cons ops rest ih =>
    have hops := hl ops List.mem_cons_self
    have hone : Stamp s.tip (indexes s) (d.applyBatch ops) ∧ (d.applyBatch ops).blocks = d.blocks := by
      simp only [savedOps, List.mem_cons, List.not_mem_nil, or_false] at hops
      obtain rfl | rfl | rfl | rfl := hops
      · exact ⟨⟨fun _ ht => (Option.some.inj ht).symm, h.indexTx, h.indexSpk, h.indexHeight⟩, rfl⟩
      · exact ⟨⟨h.indexTip, fun _ hm => (Option.some.inj hm).symm, h.indexSpk, h.indexHeight⟩, rfl⟩
      · exact ⟨⟨h.indexTip, h.indexTx, fun _ hm => (Option.some.inj hm).symm, h.indexHeight⟩, rfl⟩
      · exact ⟨⟨h.indexTip, h.indexTx, h.indexSpk, fun _ hm => (Option.some.inj hm).symm⟩, rfl⟩
    obtain ⟨hstamp, hblocks⟩ := ih (fun x hx => hl x (List.mem_cons_of_mem _ hx)) hone.1
    exact ⟨hstamp, hblocks.trans hone.2⟩

theorem new_writes (hprune : cx.pruneDepth = none) (h : NodeState.new cx env Disk.empty = .ok s) :
    ∃ t l, Performed (blank Disk.empty) t l ∧
      (∀ ops ∈ l, Plain cx.genesisHash cx.genesis ops) ∧ s = saveIndexes env t := by
  change initGenesis cx env (blank Disk.empty) = .ok s at h
  unfold initGenesis at h
  split at h
  next => simp at h
  next u _ =>
    split at h
    next => simp at h
    next s₁ hpersist =>
      split at h
      next => simp at h
      next s₂ hblock =>
        have hpersisted := performed_persist hprune hpersist
        have hput := (Performed.trans ⟨hpersisted.log, hpersisted.disk⟩ (performed_write hblock) :
          Performed (blank Disk.empty) s₂ _)
        obtain ⟨t, ht, hsaved⟩ := @rebuildIndexes_saves cx env s₂
        refine ⟨t, _, performed_memory hput ht, fun ops hops => ?_, (Except.ok.inj h).symm.trans hsaved⟩
        simp only [List.cons_append, List.nil_append, List.mem_cons, List.not_mem_nil, or_false] at hops
        obtain rfl | rfl := hops
        · exact plain_persistOps
        · exact plain_one ⟨rfl, rfl⟩

/-- A store without a stamp is trusted with nothing. -/
theorem trustworthy_unstamped (h : SameIndexes Disk.empty d) : Trustworthy cx d := by
  intro tip ix _ hstamp
  rw [h.indexTip] at hstamp
  cases hstamp

/-- A crash while a node is opened on an empty store leaves nothing stale. -/
theorem Stamped.fresh (hcf : CollisionFree cx K) (hprune : cx.pruneDepth = none)
    (h : NodeState.new cx env Disk.empty = .ok s) : Stamped cx K s ∧ s.store.disk = Disk.empty.replay s.store.log ∧
      ∀ pre post, s.store.log = pre ++ post → Trustworthy cx (Disk.empty.replay pre) := by
  have hcrash : CrashInv cx K s := CrashInv.fresh hcf (freshNode h)
  obtain ⟨bs, hbs⟩ := hcrash.node.chain
  have hindexes : indexes s = Indexes.ofBranch cx.sha256 bs := by
    have hget : ∀ b ∈ bs, s.getBlock (b.hash cx.sha256) = some b := fun b hb =>
      (hcrash.bodies.getBlock _).trans (hcrash.stored hbs b hb)
    obtain ⟨s₂, rfl⟩ := new_rebuilds h
    exact indexes_of_found hget hbs
  obtain ⟨t, l, hl, hplain, hsaved⟩ := new_writes hprune h
  obtain ⟨l', hl', hin⟩ := @saveIndexes_some env t
  have hframe := @saveIndexes_frame env t
  have hsame : indexes s = indexes t := by rw [hsaved, indexes_saveIndexes]
  rw [← hsaved] at hl' hframe
  have hall := hl.trans hl'
  have hempty := (replay_plain hplain Disk.empty).1
  have hunstamped : Stamp t.tip (indexes t) t.store.disk := by
    rw [hl.disk]
    exact (⟨by simp [Disk.empty], by simp [Disk.empty], by simp [Disk.empty], by simp [Disk.empty]⟩ :
      Stamp t.tip (indexes t) Disk.empty).congr hempty
  obtain ⟨hstamp, hblocks⟩ := replay_saved hin hunstamped
  rw [← hl'.disk] at hstamp hblocks
  refine ⟨⟨hcrash, ⟨bs, hbs, hindexes⟩, by rw [hframe.tip, hsame]; exact hstamp⟩, ?_, ?_⟩
  · rw [hall.disk, hall.log]
    rfl
  · intro pre post hsplit
    have hlog : l ++ l' = pre ++ post := by
      rw [← hsplit, hall.log]
      rfl
    obtain ⟨mid, rfl, rfl⟩ | ⟨mid, rfl, -⟩ := List.append_eq_append_iff.mp hlog
    · -- all blocks are stored before the save begins
      obtain ⟨hpart, hkept⟩ := replay_saved (fun x hx => hin x (List.mem_append_left _ hx)) hunstamped
      rw [← hframe.tip, ← hsame, hindexes] at hpart
      have hdisk : t.store.disk = Disk.empty.replay l := hl.disk
      rw [Disk.replay_append, ← hdisk]
      refine hpart.trustworthy hbs.branch hbs.tip fun b hb => ?_
      rw [hkept, ← hblocks]
      exact hcrash.stored hbs b hb
    · exact trustworthy_unstamped
        (replay_plain (fun x hx => hplain x (List.mem_append_left _ hx)) Disk.empty).1

end Opening

section Runs

variable {cx : Context} {K : Block → Prop} {s : NodeState} {d : Disk}

/-- All writes of a call succeed. -/
def Durable (c : Call) : Prop := ∀ log ops, c.env.writeOk log ops = true

theorem run_stamped (hcf : CollisionFree cx K) (hprune : cx.pruneDepth = none) {calls : List Call}
    (hrun : Run cx s calls) (hgood : ∀ c ∈ calls, K c.block ∧ Careful cx c ∧ Durable c) :
    Stamped cx K s ∧ s.store.disk = Disk.empty.replay s.store.log ∧
      ∀ pre post, s.store.log = pre ++ post → ¬ MapNext post → Trustworthy cx (Disk.empty.replay pre) := by
  induction hrun with
  | fresh h =>
    obtain ⟨hstamped, hdisk, hparts⟩ := Stamped.fresh hcf hprune h
    exact ⟨hstamped, hdisk, fun pre post hsplit _ => hparts pre post hsplit⟩
  | @add s calls env b fuel o hrun h ih =>
    obtain ⟨hstamped, hdisk, hparts⟩ := ih fun c hc => hgood c (List.mem_append_left _ hc)
    have hkeeps : Keeps (Stamped cx K) (SafeCrashes cx) (fun c => K c.block ∧ Careful cx c ∧ Durable c)
        (fun c => Stamped cx K c.before ∧ Stepped cx c) (addBlockFuel cx env fuel) := by
      refine addBlockFuel_keeps ?_ ?_ ?_ ?_ ?_ fuel
      · exact fun s => SafeCrashes.memory rfl
      · exact fun s₁ s₂ s₃ => SafeCrashes.trans
      · intro s b h hcall
        exact h.step hcf hprune hcall.2.2 hcall.1 hcall.2.1.2 hcall.2.1.1
      · intro s parent child b h _
        exact h.takeOrphan parent child
      · intro s tipHeight h
        rw [maybePrune_none hprune]
        exact ⟨h, SafeCrashes.memory rfl⟩
    obtain ⟨hstamped', ⟨l, hl, hparts'⟩, -⟩ :=
      hkeeps s b o h hstamped fun c hc => hgood c (List.mem_append_right _ hc)
    have hdisk' : o.state.store.disk = Disk.empty.replay o.state.store.log := by
      rw [hl.disk, hl.log, Disk.replay_append, hdisk]
    refine ⟨hstamped', hdisk', fun pre post hsplit hnext => ?_⟩
    have hlog := hl.log.symm.trans hsplit
    obtain ⟨mid, rfl, rfl⟩ | ⟨mid, hmid, rfl⟩ := List.append_eq_append_iff.mp hlog
    · -- the crash comes in the last call, or after it
      by_cases hpost : post = []
      · rw [hpost, List.append_nil] at hsplit
        rw [← hsplit, ← hdisk']
        exact hstamped'.now
      · rw [Disk.replay_append, ← hdisk]
        exact hparts' mid post rfl hpost hnext
    · by_cases hlast : mid = []
      · rw [hlast, List.append_nil] at hmid
        rw [← hmid, ← hdisk]
        exact hstamped.now
      · exact hparts pre mid hmid fun hmap => hnext (hmap.append l)

/-- The crash falls into a save that is not the first: after the put of the stamp, or of a map that
is not the last one. -/
def CutSave (pre post : List (List WriteOp)) : Prop :=
  (∃ ops ∈ pre, ∃ m, WriteOp.putIndexHeight m ∈ ops) ∧ MapNext post

theorem indexHeight_unwritten {l : List (List WriteOp)} (hnone : d.indexHeight = none)
    (h : ∀ ops ∈ l, ∀ m, WriteOp.putIndexHeight m ∉ ops) : (d.replay l).indexHeight = none := by
  have hbatch : ∀ (ops : List WriteOp) (d : Disk), d.indexHeight = none →
      (∀ m, WriteOp.putIndexHeight m ∉ ops) → (d.applyBatch ops).indexHeight = none := by
    intro ops
    induction ops with
    | nil => exact fun d hd _ => hd
    | cons op rest ih =>
      intro d hd hops
      refine ih (d.applyOp op) ?_ fun m hm => hops m (List.mem_cons_of_mem _ hm)
      cases op with
      | putIndexHeight m => exact absurd List.mem_cons_self (hops m)
      | _ => exact hd
  induction l generalizing d with
  | nil => exact hnone
  | cons ops rest ih =>
    exact ih (hbatch ops d hnone (h ops List.mem_cons_self)) fun x hx => h x (List.mem_cons_of_mem _ hx)

/-- In every run of careful calls with durable writes and without pruning, indexes that a node loads
after a crash are those of the chain of the stored tip, unless the crash cut a save. -/
theorem loaded_indexes_of_chain (hprune : cx.pruneDepth = none) {s : NodeState} {calls : List Call}
    (hrun : Run cx s calls) (hcf : CollisionFree cx (Known cx calls)) (hgood : ∀ c ∈ calls, Careful cx c ∧ Durable c)
    {pre post : List (List WriteOp)} (hlog : s.store.log = pre ++ post) (hcut : ¬ CutSave pre post) {s' : NodeState}
    (hload : LoadsIndexes cx (Disk.empty.replay pre) s') :
    ∃ bs, StoredChain cx (Disk.empty.replay pre) bs ∧ indexes s' = Indexes.ofBranch cx.sha256 bs := by
  refine Trustworthy.loaded ?_ hload
  by_cases hput : ∃ ops ∈ pre, ∃ m, WriteOp.putIndexHeight m ∈ ops
  · have hall : ∀ c ∈ calls, Known cx calls c.block ∧ Careful cx c ∧ Durable c := fun c hc =>
      ⟨Or.inr ⟨c, hc, rfl⟩, hgood c hc⟩
    exact (run_stamped hcf hprune hrun hall).2.2 pre post hlog fun hnext => hcut ⟨hput, hnext⟩
  · intro tip ix _ _ _ _ hheights
    rw [indexHeight_unwritten rfl fun ops hops m hm => hput ⟨ops, hops, m, hm⟩] at hheights
    cases hheights

/-- The node after a load, or nothing where `try_load_indexes` returns false. -/
def loadedIndexes (cx : Context) (env : Env) (d : Disk) : Option NodeState :=
  d.tip.bind fun tip =>
    match ensureGenesisBlockAvailable cx env (load (blank d) tip) with
    | .error _ => none
    | .ok s => tryLoadIndexes s

theorem loadsIndexes_of_loaded {env : Env} (h : loadedIndexes cx env d = some s)
    (hok : (NodeState.new cx env d).isOk = true) : LoadsIndexes cx d s := by
  obtain ⟨tip, htip, hload⟩ := Option.bind_eq_some_iff.mp h
  split at hload
  next => cases hload
  next s₂ hgenesis =>
    refine ⟨⟨env, ?_⟩, env, tip, s₂, htip, hgenesis, hload⟩
    unfold NodeState.new at hok ⊢
    simp only [htip, hgenesis, hload, Option.getD_some] at hok ⊢
    split at hok
    next => simp [Except.isOk, Except.toBool] at hok
    next hchecked => rw [if_neg hchecked]

theorem LoadsIndexes.tip (h : LoadsIndexes cx d s) : d.tip = some s.tip := by
  obtain ⟨env, tip, s₂, htip, hgenesis, hload⟩ := h.loaded
  have hsame := (ensureGenesis_indexes hgenesis).1
  have hkept : s.tip = s₂.tip := by
    unfold tryLoadIndexes at hload
    simp only [Option.bind_eq_bind, Option.bind_eq_some_iff] at hload
    obtain ⟨stamp, -, hload⟩ := hload
    split at hload
    next => cases hload
    next =>
      simp only [Option.bind_eq_some_iff] at hload
      obtain ⟨tx, -, spk, -, heights, -, hload⟩ := hload
      rw [← Option.some.inj hload]
  rw [htip, hkept, hsame]

theorem ofBranch_tip (sha256 : Sha256) (b : Block) (bs : List Block) :
    (Indexes.ofBranch sha256 (b :: bs)).chainHeight.lookup (b.hash sha256) = some bs.length := by
  have hfold : ∀ (txs : List Transaction) (ix : Indexes),
      (txs.foldl (Indexes.addTransaction sha256 bs.length) ix).chainHeight = ix.chainHeight := by
    intro txs
    induction txs with
    | nil => exact fun _ => rfl
    | cons tx rest ih => exact fun ix => ih _
  rw [Indexes.ofBranch, Indexes.addBlock, hfold, lookup_insert_eq, if_pos rfl]

/-- The writes of the opening and of the call for the first block, cut after the stamp: the maps load,
and lack the height of the tip. -/
theorem firstBranch_cut : ∃ s₀ s, Run regtest s [⟨today, s₀, firstBranch, .ok .connected⟩] ∧
      NodeState.new regtest today Disk.empty = .ok s₀ ∧
      ∃ s', LoadsIndexes regtest (Disk.empty.replay (s.store.log.take 10)) s' ∧
        s'.chainHeightIndex.lookup s'.tip = none := by
  obtain ⟨s₀, o, hnew, ho, hcalls, -, -⟩ := firstBranch_call
  have hevaluated : ((nodeAfter regtest today 1 []).any fun s =>
      (addBlockFuel regtest today 2 s firstBranch).any fun o =>
        (NodeState.new regtest today (Disk.empty.replay (o.state.store.log.take 10))).isOk &&
          (loadedIndexes regtest today (Disk.empty.replay (o.state.store.log.take 10))).any fun s' =>
            decide (s'.chainHeightIndex.lookup s'.tip = none)) = true := by
    rw [← runRegtest_eq, ← runFirstBranch_eq]
    decide +kernel
  obtain ⟨s₁, hs₁, hafter⟩ := Option.any_eq_true _ _ |>.mp hevaluated
  obtain ⟨o₁, ho₁, hboth⟩ := Option.any_eq_true _ _ |>.mp hafter
  obtain ⟨hok, hloaded⟩ := Bool.and_eq_true_iff.mp hboth
  obtain rfl : s₁ = s₀ := by
    have hnew₁ := nodeAfter_nil hs₁
    rw [hnew] at hnew₁
    exact (Except.ok.inj hnew₁).symm
  obtain rfl : o₁ = o := Option.some.inj (ho₁.symm.trans ho)
  obtain ⟨s', hs', hheight⟩ := Option.any_eq_true _ _ |>.mp hloaded
  refine ⟨s₁, o₁.state, ?_, hnew, s', loadsIndexes_of_loaded hs' hok, of_decide_eq_true hheight⟩
  rw [← hcalls]
  exact Run.add (Run.fresh hnew) ho

theorem firstBranch_durable {s₀ : NodeState} (hnew : NodeState.new regtest today Disk.empty = .ok s₀) :
    ∀ c ∈ [(⟨today, s₀, firstBranch, .ok .connected⟩ : Call)], Careful regtest c ∧ Durable c := by
  intro c hc
  refine ⟨firstBranch_careful hnew c hc, ?_⟩
  rw [List.mem_singleton.mp hc]
  exact fun _ _ => rfl

theorem MapNext.single {post : List (List WriteOp)} (h : MapNext post) : post.head?.map List.length = some 1 := by
  obtain ⟨op, rest, rfl, -⟩ := h
  rfl

/-- The crash falls into the call that switches to the second branch, before the batch: the maps are
those of the first branch. -/
theorem switched_loads : ∃ s calls pre post s', Run scriptNode s calls ∧ calls.length = 4 ∧ s.store.log = pre ++ post ∧
      post.length = 5 ∧ LoadsIndexes scriptNode (Disk.empty.replay pre) s' ∧
      s'.tip = firstBranch.hash scriptNode.sha256 ∧
      ∃ bs, StoredChain scriptNode (Disk.empty.replay pre) bs ∧
        indexes s' = Indexes.ofBranch scriptNode.sha256 bs := by
  obtain ⟨s, calls, o, hswitched, h⟩ := exists_switched
  have hgood : ∀ c ∈ calls ++ o.calls, Careful scriptNode c ∧ Durable c := by
    intro c hc
    refine ⟨Switched.careful h c hc, fun _ _ => ?_⟩
    rw [(h.calm c hc).env]
    rfl
  have hevaluated : switched.any (fun p =>
      let log := p.2.2.state.store.log
      decide (log.length = 23 ∧ (p.2.1 ++ p.2.2.calls).length = 4 ∧ (log.drop 18).head?.map List.length = some 8) &&
        (NodeState.new scriptNode today (Disk.empty.replay (log.take 18))).isOk &&
        (loadedIndexes scriptNode today (Disk.empty.replay (log.take 18))).any fun s' =>
          decide (s'.tip = firstBranch.hash Sha256.sha256)) = true := by
    rw [← runSwitched_eq, ← runScriptNode_eq, ← runFirstBranch_eq, ← Sha256.runSha256_eq]
    decide +kernel
  rw [hswitched, Option.any_some] at hevaluated
  simp only [Bool.and_eq_true, decide_eq_true_eq] at hevaluated
  obtain ⟨⟨⟨hlength, hfour, hbatch⟩, hopens⟩, hloaded⟩ := hevaluated
  obtain ⟨s', hs', htip⟩ := Option.any_eq_true _ _ |>.mp hloaded
  have hloads := loadsIndexes_of_loaded hs' hopens
  have hcut : ¬ CutSave (o.state.store.log.take 18) (o.state.store.log.drop 18) := by
    intro hcut
    rw [hcut.2.single] at hbatch
    exact absurd (Option.some.inj hbatch) (by decide)
  refine ⟨o.state, _, _, _, s', h.fullRun, hfour, (List.take_append_drop 18 _).symm, ?_, hloads,
    of_decide_eq_true htip, ?_⟩
  · rw [List.length_drop, hlength]
  · exact loaded_indexes_of_chain rfl h.fullRun (Switched.collisionFree h) hgood
      (List.take_append_drop 18 _).symm hcut hloads

/-- A crash after the stamp of the first block: the maps are those of genesis. -/
theorem stale_indexes_loaded :
    ∃ s calls pre post s', Run regtest s calls ∧ (∀ c ∈ calls, Careful regtest c ∧ Durable c) ∧
      s.store.log = pre ++ post ∧ LoadsIndexes regtest (Disk.empty.replay pre) s' ∧
      ¬ ∃ bs, StoredChain regtest (Disk.empty.replay pre) bs ∧
        indexes s' = Indexes.ofBranch regtest.sha256 bs := by
  obtain ⟨s₀, s, hrun, hnew, s', hs', hheight⟩ := firstBranch_cut
  refine ⟨s, _, s.store.log.take 10, s.store.log.drop 10, s', hrun, firstBranch_durable hnew,
    (List.take_append_drop _ _).symm, hs', ?_⟩
  rintro ⟨bs, hchain, heq⟩
  have htip := hs'.tip
  rw [hchain.tip] at htip
  cases bs with
  | nil => cases htip
  | cons b bs =>
    have hlookup := ofBranch_tip regtest.sha256 b bs
    rw [← heq, show b.hash regtest.sha256 = s'.tip from Option.some.inj htip] at hlookup
    cases hheight.symm.trans hlookup

end Runs

end KuberCoin.IndexStamps
