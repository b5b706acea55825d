import KuberCoin.SyncStates
import KuberCoin.BestChain

/-!
Block locators and the answers to them (`network/server.rs`). A node asks for headers with hashes of its own
chain, from the tip down to genesis; the other node takes the height of the first of them that it has
and sends the headers of its own best chain above that height. The answer is always a segment of that
chain. It starts at a block that the asking node has exactly if the first known block of the locator is on
the best chain of the answering node, or the asking node happens to have the block that is there instead.
-/
namespace KuberCoin.Locators

open Bytes Maps Transactions Blocks NodeStates NodeStates.NodeState AddBlock StepCases Runs Branches ChainInvariants
  StoredBodies Servers

variable {cx : Context} {K : Block → Prop} {s : NodeState} {chain : List Block}

section Serving

variable {i : ℕ}

variable (cx) in
/-- The node serves `chain`, a list from genesis to its tip, by height and by hash. -/
structure Serves (s : NodeState) (chain : List Block) : Prop where
  length : chain.length = s.height + 1
  entries : ∀ i, s.getBlockHash i = (chain[i]?).map (Block.hash cx.sha256)
  found : ∀ b ∈ chain, ∃ x, s.getBlock (b.hash cx.sha256) = some x ∧ x.header = b.header
  linked : ∀ i a b, chain[i]? = some a → chain[i + 1]? = some b → b.header.prevHash = a.hash cx.sha256
  genesis : chain[0]? = some cx.genesis
  tip : s.getBlockHash s.height = some s.tip
  stored : ∀ k b, s.getBlock k = some b → b.hash cx.sha256 = k

/-- A call that succeeds, or whose reorganisation and writes do. -/
def Orderly (cx : Context) (c : Call) : Prop :=
  (∃ x, c.result = .ok x) ∨ RunsThrough cx c.env c.before c.block ∧ ∀ log ops, c.env.writeOk log ops = true

theorem serves_of_run {calls : List Call} (hcf : CollisionFree cx K) (hprune : cx.pruneDepth = none)
    (hrun : Run cx s calls) (hknown : ∀ c ∈ calls, K c.block) (horderly : ∀ c ∈ calls, Orderly cx c) :
    ∃ chain, Serves cx s chain := by
  have hclean : ∀ c ∈ calls, Clean cx c := fun c hc => (horderly c hc).imp_right And.left
  obtain ⟨⟨hstore, bs, hbs⟩, -⟩ := run_nodeInv hcf hrun hknown hclean
  have hbody : BodyInv (fun _ => False) s := by
    refine (run_bodyInv hprune hrun fun c hc => ⟨fun h => h.elim, ?_⟩).1
    rcases horderly c hc with hok | ⟨-, hwrites⟩
    · exact .inr hok
    · exact .inl hwrites
  have hentries : ∀ i : ℕ, s.heightMap.lookup i = (bs.reverse[i]?).map (Block.hash cx.sha256) := by
    intro i
    rw [hbs.heightMap, hashes, ← List.map_reverse, List.getElem?_map]
  have hfound : ∀ (i : ℕ) (b : Block), bs.reverse[i]? = some b →
      ∃ x, s.getBlock (b.hash cx.sha256) = some x ∧ x.header = b.header := by
    intro i b hb
    obtain ⟨x, hx, -⟩ := hbody.stored i (b.hash cx.sha256) (by rw [hentries, hb]; rfl)
    have hget : s.getBlock (b.hash cx.sha256) = some x := (hbody.getBlock _).trans hx
    obtain ⟨hhash, hKx, -⟩ := hstore.getBlock _ _ hget
    exact ⟨x, hget, hcf.header_eq x b hKx (hbs.known b (List.mem_reverse.mp (List.mem_of_getElem? hb))) hhash⟩
  refine ⟨bs.reverse, ?_, hentries, ?_, ?_, ?_, ?_, fun k b hb => (hstore.getBlock k b hb).1⟩
  · rw [List.length_reverse, hbs.height]
  · intro b hb
    obtain ⟨i, hi⟩ := List.getElem?_of_mem hb
    exact hfound i b hi
  · intro i a b ha hb
    exact BestChain.ValidBranch.linked hbs.branch ha hb
  · obtain ⟨pre, b, hsplit⟩ : ∃ pre b, bs = pre ++ [b] := by
      obtain ⟨b, rest, rfl⟩ := hbs.branch.exists_cons
      exact ⟨_, _, (List.dropLast_append_getLast (List.cons_ne_nil b rest)).symm⟩
    have hlast := hbs.branch
    rw [hsplit] at hlast ⊢
    rw [hlast.last]
    simp
  · obtain ⟨t, rest, rfl⟩ := hbs.branch.exists_cons
    have hheight := hbs.height
    rw [List.length_cons] at hheight
    show s.heightMap.lookup s.height = _
    rw [hbs.heightMap, hashes_reverse_cons, List.getElem?_append_right, List.length_reverse, hashes_length,
      show s.height - rest.length = 0 by omega]
    · exact hbs.tip
    · rw [List.length_reverse, hashes_length]
      omega

theorem Serves.block_at (h : Serves cx s chain) (hi : i ≤ s.height) : ∃ b, chain[i]? = some b := by
  have hlt : i < chain.length := by
    rw [h.length]
    omega
  exact ⟨chain[i], List.getElem?_eq_getElem hlt⟩

theorem Serves.hash_at (h : Serves cx s chain) {b : Block} (hb : chain[i]? = some b) :
    s.getBlockHash i = some (b.hash cx.sha256) := by
  rw [h.entries, hb]
  rfl

theorem Serves.has_entry (h : Serves cx s chain) {k : Bytes32} (hk : s.getBlockHash i = some k) :
    s.getBlock k ≠ none := by
  rw [h.entries, Option.map_eq_some_iff] at hk
  obtain ⟨b, hb, rfl⟩ := hk
  obtain ⟨x, hx, -⟩ := h.found b (List.mem_of_getElem? hb)
  rw [hx]
  exact Option.some_ne_none x

theorem Serves.genesis_at (h : Serves cx s chain) : s.getBlockHash 0 = some (cx.genesis.hash cx.sha256) :=
  h.hash_at h.genesis

end Serving

section Building

theorem locatorLoop_eq (h : Serves cx s chain) {fuel height step : ℕ} (hfuel : height < fuel) (hstep : 0 < step)
    (hle : height ≤ s.height) (locator : List Bytes32) : ∃ (heights : List ℕ) (rest : List Bytes32),
      locatorLoop s fuel height step locator = some (locator ++ rest) ∧
      rest.map some = heights.map s.getBlockHash ∧ heights.head? = some height ∧ heights.getLast? = some 0 ∧
      heights.Pairwise (· > ·) ∧ ∀ x ∈ heights, x ≤ height := by
  induction fuel generalizing height step locator with
  | zero => omega
  | succ fuel ih =>
    obtain ⟨b, hb⟩ := h.block_at hle
    have hhash := h.hash_at hb
    unfold locatorLoop
    simp only [hhash, Option.toList_some]
    by_cases hzero : height = 0
    · refine ⟨[0], [b.hash cx.sha256], if_pos hzero, ?_, by rw [hzero]; rfl, rfl, List.pairwise_singleton _ _,
        fun x hx => ?_⟩
      · rw [List.map_singleton, List.map_singleton, ← hzero, hhash]
      · rw [List.mem_singleton.mp hx]
        omega
    · rw [if_neg hzero]
      have hnext : 0 < if 10 ≤ (locator ++ [b.hash cx.sha256]).length then step * 2 else step := by
        split <;> omega
      obtain ⟨heights, rest, hloop, hmap, hhead, hlast, hdecr, hbound⟩ :=
        ih (show height - step < fuel by omega) hnext (by omega) (locator ++ [b.hash cx.sha256])
      refine ⟨height :: heights, b.hash cx.sha256 :: rest, ?_, ?_, rfl, ?_, ?_, ?_⟩
      · rw [hloop, List.append_assoc]
        rfl
      · rw [List.map_cons, List.map_cons, hmap, hhash]
      · cases heights with
        | nil => cases hhead
        | cons x heights => rw [List.getLast?_cons_cons, hlast]
      · refine List.pairwise_cons.mpr ⟨fun x hx => ?_, hdecr⟩
        have hx := hbound x hx
        omega
      · intro x hx
        rcases List.mem_cons.mp hx with rfl | hx
        · exact Nat.le_refl x
        · have hx := hbound x hx
          omega

/-- A locator: hashes of the best chain at falling heights, from the tip to genesis. -/
structure Locates (cx : Context) (s : NodeState) (locator : List Bytes32) (heights : List ℕ) : Prop where
  entries : locator.map some = heights.map s.getBlockHash
  falling : heights.Pairwise (· > ·)
  top : heights.head? = some s.height
  bottom : heights.getLast? = some 0
  tip : locator.head? = some s.tip
  genesis : locator.getLast? = some (cx.genesis.hash cx.sha256)

theorem buildLocator_locates (h : Serves cx s chain) :
    locatorLoop s (s.height + 1) s.height 1 [] = some (buildLocator s) ∧
      ∃ heights, Locates cx s (buildLocator s) heights := by
  obtain ⟨heights, rest, hloop, hmap, hhead, hlast, hdecr, -⟩ :=
    locatorLoop_eq h (Nat.lt_succ_self s.height) Nat.one_pos (Nat.le_refl s.height) []
  have hbuild : buildLocator s = rest := by
    unfold buildLocator
    rw [hloop]
    rfl
  refine ⟨by rw [hbuild]; exact hloop, heights, ?_⟩
  rw [hbuild]
  refine ⟨hmap, hdecr, hhead, hlast, ?_, ?_⟩
  · have hfirst := congrArg List.head? hmap
    rw [List.head?_map, List.head?_map, hhead, Option.map_some, h.tip] at hfirst
    obtain ⟨k, hk, hsame⟩ := Option.map_eq_some_iff.mp hfirst
    rw [hk, hsame]
  · have hend := congrArg List.getLast? hmap
    rw [List.getLast?_map, List.getLast?_map, hlast, Option.map_some, h.genesis_at] at hend
    obtain ⟨k, hk, hsame⟩ := Option.map_eq_some_iff.mp hend
    rw [hk, hsame]

theorem Locates.stored (h : Serves cx s chain) {locator : List Bytes32} {heights : List ℕ}
    (hloc : Locates cx s locator heights) {k : Bytes32} (hk : k ∈ locator) : s.getBlock k ≠ none := by
  have hmem : some k ∈ heights.map s.getBlockHash := by
    rw [← hloc.entries]
    exact List.mem_map_of_mem hk
  obtain ⟨i, -, hi⟩ := List.mem_map.mp hmem
  exact h.has_entry hi

end Building

section Answering

variable {locator : List Bytes32} {stopHash : Bytes32}

theorem collectHeaders_eq (h : Serves cx s chain) (stopHash : Bytes32) {n a : ℕ} (hle : a + n ≤ chain.length)
    (headers : List BlockHeader) : ∃ m, collectHeaders s stopHash (List.range' a n) headers =
      headers ++ ((chain.drop a).take m).map Block.header := by
  induction n generalizing a headers with
  | zero => exact ⟨0, by simp [collectHeaders]⟩
  | succ n ih =>
    have hlt : a < chain.length := by omega
    have hb : chain[a]? = some chain[a] := List.getElem?_eq_getElem hlt
    obtain ⟨x, hx, hheader⟩ := h.found chain[a] (List.getElem_mem hlt)
    have hdrop : chain.drop a = chain[a] :: chain.drop (a + 1) := List.drop_eq_getElem_cons hlt
    rw [List.range'_succ]
    unfold collectHeaders
    simp only [h.hash_at hb, Option.bind_some, hx, Option.map_some]
    split
    · refine ⟨1, ?_⟩
      rw [hdrop, hheader]
      rfl
    · obtain ⟨m, hm⟩ := ih (show a + 1 + n ≤ chain.length by omega) (headers ++ [x.header])
      refine ⟨m + 1, ?_⟩
      rw [hm, hdrop, hheader, List.append_assoc]
      rfl

theorem headersReply_eq (h : Serves cx s chain) (locator : List Bytes32) (stopHash : Bytes32) :
    ∃ m, headersReply s locator stopHash =
      ((chain.drop (startHeight s locator + 1)).take m).map Block.header := by
  unfold headersReply
  by_cases hle : startHeight s locator ≤ s.height
  · exact collectHeaders_eq h stopHash (by rw [h.length]; omega) []
  · refine ⟨0, ?_⟩
    rw [show s.height - startHeight s locator = 0 by omega]
    rfl

theorem headersReply_getElem (h : Serves cx s chain) {k : ℕ} {hdr : BlockHeader}
    (hk : (headersReply s locator stopHash)[k]? = some hdr) :
    ∃ b, chain[startHeight s locator + 1 + k]? = some b ∧ b.header = hdr := by
  obtain ⟨m, hm⟩ := headersReply_eq h locator stopHash
  rw [hm, List.getElem?_map, Option.map_eq_some_iff] at hk
  obtain ⟨b, hb, hheader⟩ := hk
  rw [List.getElem?_take, List.getElem?_drop] at hb
  split at hb
  · exact ⟨b, hb, hheader⟩
  · cases hb

/-- Headers of consecutive blocks of the node's best chain, each linked to the one before. -/
structure Segment (cx : Context) (s : NodeState) (start : ℕ) (headers : List BlockHeader) : Prop where
  placed : ∀ k hdr, headers[k]? = some hdr → s.getBlockHash (start + k) = some (hdr.hash cx.sha256) ∧
    ∃ b, s.getBlock (hdr.hash cx.sha256) = some b ∧ b.header = hdr
  linked : ∀ k a b, headers[k]? = some a → headers[k + 1]? = some b → b.prevHash = a.hash cx.sha256

theorem headersReply_segment (h : Serves cx s chain) (locator : List Bytes32) (stopHash : Bytes32) :
    Segment cx s (startHeight s locator + 1) (headersReply s locator stopHash) where
  placed k hdr hk := by
    obtain ⟨b, hb, rfl⟩ := headersReply_getElem h hk
    exact ⟨h.hash_at hb, h.found b (List.mem_of_getElem? hb)⟩
  linked k a b ha hb := by
    obtain ⟨x, hx, rfl⟩ := headersReply_getElem h ha
    obtain ⟨y, hy, rfl⟩ := headersReply_getElem h hb
    exact h.linked _ x y hx hy

theorem prevHash_headersReply (h : Serves cx s chain) {first : BlockHeader}
    (hfirst : (headersReply s locator stopHash).head? = some first) :
    s.getBlockHash (startHeight s locator) = some first.prevHash := by
  rw [List.head?_eq_getElem?] at hfirst
  obtain ⟨b, hb, rfl⟩ := headersReply_getElem h hfirst
  have hlt : startHeight s locator < chain.length := by
    have := (List.getElem?_eq_some_iff.mp hb).1
    omega
  have ha : chain[startHeight s locator]? = some chain[startHeight s locator] := List.getElem?_eq_getElem hlt
  rw [h.hash_at ha, h.linked _ _ b ha hb]

/-- The first block of a locator that the node has. -/
def firstKnown (s : NodeState) (locator : List Bytes32) : Option Block := locator.findSome? s.getBlock

theorem startHeight_eq (s : NodeState) (locator : List Bytes32) :
    startHeight s locator = ((firstKnown s locator).map fun b => b.header.height).getD 0 := by
  unfold startHeight firstKnown
  induction locator with
  | nil => rfl
  | cons k locator ih =>
    rw [List.findSome?_cons, List.findSome?_cons]
    cases s.getBlock k with
    | none => exact ih
    | some b => rfl

theorem firstKnown_mem {b : Block} (hb : firstKnown s locator = some b) : ∃ k ∈ locator, s.getBlock k = some b := by
  obtain ⟨pre, k, post, hsplit, hk, -⟩ := List.findSome?_eq_some_iff.mp hb
  exact ⟨k, by rw [hsplit]; simp, hk⟩

/-- The first header of an answer follows a block that is known to the node that asked. -/
def Connects (known : Bytes32 → Prop) (headers : List BlockHeader) : Prop :=
  ∀ first, headers.head? = some first → known first.prevHash

/-- The first block of the locator that the answering node has is on its best chain, or the asking node
knows the block that is on it at that height. -/
def Common (cx : Context) (s : NodeState) (known : Bytes32 → Prop) (locator : List Bytes32) : Prop :=
  ∀ b, firstKnown s locator = some b → s.getBlockHash b.header.height = some (b.hash cx.sha256) ∨
    ∃ k, s.getBlockHash b.header.height = some k ∧ known k

theorem connects_iff (h : Serves cx s chain) {known : Bytes32 → Prop} (hlocator : ∀ k ∈ locator, known k)
    (hgenesis : known (cx.genesis.hash cx.sha256)) (hnonempty : headersReply s locator stopHash ≠ []) :
    Connects known (headersReply s locator stopHash) ↔ Common cx s known locator := by
  obtain ⟨first, hfirst⟩ : ∃ first, (headersReply s locator stopHash).head? = some first := by
    cases hreply : headersReply s locator stopHash with
    | nil => exact absurd hreply hnonempty
    | cons first rest => exact ⟨first, rfl⟩
  have hbelow := prevHash_headersReply h hfirst
  have hstart := startHeight_eq s locator
  constructor
  · intro hconnects b hb
    rw [hb, Option.map_some, Option.getD_some] at hstart
    exact .inr ⟨first.prevHash, hstart ▸ hbelow, hconnects first hfirst⟩
  · intro hcommon first' hfirst'
    rw [hfirst] at hfirst'
    rw [← Option.some.inj hfirst']
    cases hb : firstKnown s locator with
    | none =>
      rw [hb, Option.map_none, Option.getD_none] at hstart
      rw [hstart, h.genesis_at] at hbelow
      rw [← Option.some.inj hbelow]
      exact hgenesis
    | some b =>
      rw [hb, Option.map_some, Option.getD_some] at hstart
      rw [hstart] at hbelow
      rcases hcommon b hb with hbest | ⟨k, hk, hknown⟩
      · obtain ⟨k, hmem, hget⟩ := firstKnown_mem hb
        rw [hbest, h.stored k b hget] at hbelow
        rw [← Option.some.inj hbelow]
        exact hlocator k hmem
      · rw [hk] at hbelow
        rw [← Option.some.inj hbelow]
        exact hknown

end Answering

section Requests

/-- What a node asks with, and the hashes that it knows then: its locator, and what it has stored; or the
last hash of a full batch, and the headers of that batch too. -/
inductive Asked (cx : Context) (requester : NodeState) : List Bytes32 → (Bytes32 → Prop) → Prop where
  | locator : Asked cx requester (buildLocator requester) fun k => requester.getBlock k ≠ none
  | further (batch : List BlockHeader) (last : BlockHeader) (hfull : maxHeadersPerMsg ≤ batch.length)
      (hlast : batch.getLast? = some last) :
      Asked cx requester [last.hash cx.sha256] fun k =>
        requester.getBlock k ≠ none ∨ k ∈ batch.map (BlockHeader.hash cx.sha256)

/-- `build_locator` ends, with hashes of the best chain at falling heights from the tip to genesis. A
non-empty answer is a segment of the best chain of the other node, and it connects exactly if the first
known block of the locator is on that chain or replaced there by one that the asking node knows. -/
theorem headers_connect_iff {requester responder : NodeState} {calls calls' : List Call} (hcf : CollisionFree cx K)
    (hprune : cx.pruneDepth = none) (hrequester : Run cx requester calls) (hresponder : Run cx responder calls')
    (hknown : ∀ c ∈ calls ++ calls', K c.block) (horderly : ∀ c ∈ calls ++ calls', Orderly cx c) :
    (locatorLoop requester (requester.height + 1) requester.height 1 [] = some (buildLocator requester) ∧
      ∃ heights, Locates cx requester (buildLocator requester) heights) ∧
    ∀ locator known stopHash, Asked cx requester locator known →
      headersReply responder locator stopHash ≠ [] →
      Segment cx responder (startHeight responder locator + 1) (headersReply responder locator stopHash) ∧
        (Connects known (headersReply responder locator stopHash) ↔ Common cx responder known locator) := by
  have hleft : ∀ c ∈ calls, c ∈ calls ++ calls' := fun c hc => List.mem_append_left _ hc
  have hright : ∀ c ∈ calls', c ∈ calls ++ calls' := fun c hc => List.mem_append_right _ hc
  obtain ⟨own, hown⟩ := serves_of_run hcf hprune hrequester (fun c hc => hknown c (hleft c hc))
    (fun c hc => horderly c (hleft c hc))
  obtain ⟨chain, hchain⟩ := serves_of_run hcf hprune hresponder (fun c hc => hknown c (hright c hc))
    (fun c hc => horderly c (hright c hc))
  have hbuilt := buildLocator_locates hown
  refine ⟨hbuilt, fun locator known stopHash hasked hnonempty => ?_⟩
  refine ⟨headersReply_segment hchain locator stopHash, connects_iff hchain ?_ ?_ hnonempty⟩
  · obtain ⟨-, heights, hlocates⟩ := hbuilt
    cases hasked with
    | locator => exact fun k hk => hlocates.stored hown hk
    | further batch last hfull hlast =>
      intro k hk
      rw [List.mem_singleton.mp hk]
      exact .inr (List.mem_map_of_mem (List.mem_of_getLast? hlast))
  · have hgenesis := hown.has_entry hown.genesis_at
    cases hasked with
    | locator => exact hgenesis
    | further => exact .inl hgenesis

/-- A node with one block answers a node that has only genesis. -/
theorem firstBranch_connects :
    ∃ requester responder calls calls', Run regtest requester calls ∧ Run regtest responder calls' ∧
      headersReply responder (buildLocator requester) Bytes32.zero = [firstBranch.header] ∧
      Connects (fun k => requester.getBlock k ≠ none)
        (headersReply responder (buildLocator requester) Bytes32.zero) := by
  obtain ⟨s₀, o, hnew, ho, hcalls, -, -⟩ := firstBranch_call
  have hanswer : ((NodeState.new regtest today Storage.Disk.empty).toOption.any fun s =>
        (addBlockFuel regtest today 2 s firstBranch).any fun o =>
          decide (headersReply o.state (buildLocator s) Bytes32.zero = [firstBranch.header]) &&
          (firstKnown o.state (buildLocator s)).all fun b =>
            decide (o.state.getBlockHash b.header.height = some (b.hash regtest.sha256))) = true := by
    rw [← runRegtest_eq, ← runFirstBranch_eq]
    decide +kernel
  rw [hnew] at hanswer
  simp only [Except.toOption, ho, Option.any_some, Bool.and_eq_true, decide_eq_true_iff] at hanswer
  obtain ⟨hreply, hbest⟩ := hanswer
  have hrun : Run regtest o.state [⟨today, s₀, firstBranch, .ok .connected⟩] := by
    rw [← hcalls]
    exact Run.add (Run.fresh hnew) ho
  have hnonempty : headersReply o.state (buildLocator s₀) Bytes32.zero ≠ [] := by
    rw [hreply]
    exact List.cons_ne_nil _ _
  obtain ⟨-, hall⟩ := headers_connect_iff (firstBranch_known s₀) rfl (Run.fresh hnew) hrun
    (fun c hc => .inr ⟨c, hc, rfl⟩) (fun c hc => .inl ⟨.connected, by rw [List.mem_singleton.mp hc]⟩)
  refine ⟨s₀, o.state, [], _, Run.fresh hnew, hrun, hreply, ?_⟩
  refine (hall _ _ Bytes32.zero .locator hnonempty).2.mpr fun b hb => .inl ?_
  rw [hb, Option.all_some, decide_eq_true_iff] at hbest
  exact hbest

/-- Two blocks that replace `firstBranch`. -/
def rivalBlock : Block := childOf regtest.genesis [BlockEffects.emptyCoinbase] 2

def rivalTip : Block := childOf rivalBlock [BlockEffects.emptyCoinbase] 2

/-- The tip of the asking node is on a side chain of the other node, whose answer starts above a block that
the asking node does not have. -/
theorem side_chain_answer_disconnected :
    ∃ requester responder, nodeAfter regtest today 3 [firstBranch] = some requester ∧
      nodeAfter regtest today 3 [firstBranch, rivalBlock, rivalTip] = some responder ∧
      headersReply responder (buildLocator requester) Bytes32.zero = [rivalTip.header] ∧
      requester.getBlock rivalTip.header.prevHash = none ∧
      ¬ Connects (fun k => requester.getBlock k ≠ none)
        (headersReply responder (buildLocator requester) Bytes32.zero) := by
  have hanswer : ((nodeAfter regtest today 3 [firstBranch]).any fun requester =>
      (nodeAfter regtest today 3 [firstBranch, rivalBlock, rivalTip]).any fun responder =>
        decide (headersReply responder (buildLocator requester) Bytes32.zero = [rivalTip.header]) &&
        decide (requester.getBlock rivalTip.header.prevHash = none)) = true := by
    unfold rivalTip rivalBlock
    rw [← runChildOf_eq, ← runChildOf_eq, ← runRegtest_eq, ← runFirstBranch_eq, ← runNodeAfter_eq,
      ← runNodeAfter_eq]
    decide +kernel
  obtain ⟨requester, hrequester, hinner⟩ := (Option.any_eq_true _ _).mp hanswer
  obtain ⟨responder, hresponder, hboth⟩ := (Option.any_eq_true _ _).mp hinner
  simp only [Bool.and_eq_true, decide_eq_true_iff] at hboth
  obtain ⟨hreply, hlacks⟩ := hboth
  refine ⟨requester, responder, hrequester, hresponder, hreply, hlacks, fun hconnects => ?_⟩
  rw [hreply] at hconnects
  exact hconnects rivalTip.header rfl hlacks

end Requests

end KuberCoin.Locators
