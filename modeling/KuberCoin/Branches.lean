import KuberCoin.Runs

/-!
Chains of blocks over genesis and how a node's walks follow them.
A branch is a list of blocks, tip first. `ValidBranch` says that it starts at genesis,
that each block is one higher than its parent, and that each was validated against and
applied to the set its parent leaves.
-/
namespace KuberCoin.Branches

open Bytes Maps Transactions Blocks UtxoSets Params Difficulty Validator Storage NodeStates
  NodeStates.NodeState AddBlock Frames BlockEffects StepCases

variable (cx : Context)

/-- A branch with the UTXO set it leaves. -/
inductive ValidBranch : List Block → UtxoSet → Prop where
  | genesis {u : UtxoSet} (happly : applyBlock cx.sha256 ∅ cx.genesis = (.ok (), u)) :
      ValidBranch [cx.genesis] u
  | extend {b parent : Block} {rest : List Block} {u u' : UtxoSet} {clock : UInt64}
      {mtp : Option (ℕ → UInt64)} {undo : BlockUndoData}
      (hbranch : ValidBranch (parent :: rest) u)
      (hprev : b.header.prevHash = parent.hash cx.sha256)
      (hheight : b.header.height = parent.header.height + 1)
      (hvalid : validateBlockCached cx.sha256 cx.checks clock b u mtp = .ok ())
      (happly : applyBlockWithUndo cx.sha256 u b = (.ok undo, u')) :
      ValidBranch (b :: parent :: rest) u'

/-- The hashes of a branch. -/
def hashes (bs : List Block) : List Bytes32 := bs.map (Block.hash cx.sha256)

/-- Block hashes identify headers, and none of them is the all-zero array that stands for
the parent of the genesis block. -/
structure CollisionFree (K : Block → Prop) : Prop where
  genesis : K cx.genesis
  header_eq : ∀ a b, K a → K b → a.hash cx.sha256 = b.hash cx.sha256 → a.header = b.header
  ne_zero : ∀ a, K a → a.hash cx.sha256 ≠ Bytes32.zero

/-- A block with the genesis header, or one above a known parent. -/
def Linked (K : Block → Prop) (b : Block) : Prop :=
  b.header = cx.genesis.header ∨
    ∃ p, K p ∧ p.hash cx.sha256 = b.header.prevHash ∧ b.header.height = p.header.height + 1

/-- Every block found under a hash is a known block with that hash and a known parent. -/
def WellPlaced (K : Block → Prop) (get : Bytes32 → Option Block) : Prop :=
  ∀ h b, get h = some b → b.hash cx.sha256 = h ∧ K b ∧ Linked cx K b

variable {cx}

section Shape

variable {bs : List Block} {u : UtxoSet}

theorem ValidBranch.exists_cons (h : ValidBranch cx bs u) : ∃ b rest, bs = b :: rest := by
  cases h with
  | genesis => exact ⟨_, _, rfl⟩
  | extend => exact ⟨_, _, rfl⟩

theorem ValidBranch.height_eq {b : Block} {rest : List Block} (h : ValidBranch cx (b :: rest) u) :
    b.header.height = rest.length := by
  generalize hbs : b :: rest = bs at h
  induction h generalizing b rest with
  | genesis =>
    obtain ⟨rfl, rfl⟩ := List.cons.inj hbs
    rfl
  | extend hbranch hprev hheight hvalid happly ih =>
    obtain ⟨rfl, rfl⟩ := List.cons.inj hbs
    rw [hheight, ih rfl, List.length_cons]

theorem ValidBranch.tail {b parent : Block} {rest : List Block} {u : UtxoSet}
    (h : ValidBranch cx (b :: parent :: rest) u) : ∃ u₀ clock mtp undo, ValidBranch cx (parent :: rest) u₀ ∧
      b.header.prevHash = parent.hash cx.sha256 ∧
      validateBlockCached cx.sha256 cx.checks clock b u₀ mtp = .ok () ∧
      applyBlockWithUndo cx.sha256 u₀ b = (.ok undo, u) := by
  cases h with
  | extend hbranch hprev hheight hvalid happly =>
    exact ⟨_, _, _, _, hbranch, hprev, hvalid, happly⟩

theorem ValidBranch.suffix {pre : List Block} {b : Block} {rest : List Block} {u : UtxoSet}
    (h : ValidBranch cx (pre ++ b :: rest) u) : ∃ u', ValidBranch cx (b :: rest) u' := by
  induction pre generalizing u with
  | nil => exact ⟨u, h⟩
  | cons a pre ih =>
    obtain ⟨p, pre', hp⟩ : ∃ p pre', pre ++ b :: rest = p :: pre' := by
      cases pre with
      | nil => exact ⟨_, _, rfl⟩
      | cons p pre => exact ⟨_, _, rfl⟩
    rw [List.cons_append, hp] at h
    obtain ⟨u₀, -, -, -, htail, -⟩ := h.tail
    rw [← hp] at htail
    exact ih htail

theorem ValidBranch.unique {u' : UtxoSet} (h : ValidBranch cx bs u) (h' : ValidBranch cx bs u') : u = u' := by
  induction h generalizing u' with
  | genesis happly =>
    cases h' with
    | genesis happly' =>
      rw [happly] at happly'
      exact (Prod.mk.inj happly').2
  | extend hbranch hprev hheight hvalid happly ih =>
    obtain ⟨u₀, -, -, undo, hbranch', -, -, happly'⟩ := h'.tail
    obtain rfl := ih hbranch'
    rw [happly] at happly'
    exact (Prod.mk.inj happly').2

theorem ValidBranch.last {pre : List Block} {b : Block} {u : UtxoSet} (h : ValidBranch cx (pre ++ [b]) u) :
    b = cx.genesis := by
  obtain ⟨u', hb⟩ := h.suffix
  cases hb with
  | genesis => rfl

end Shape

section Distinct

variable {K : Block → Prop} {bs : List Block} {u : UtxoSet} {i : ℕ} {b : Block}

theorem ValidBranch.height_getElem? (h : ValidBranch cx bs u) (hb : bs.reverse[i]? = some b) : b.header.height = i := by
  induction bs generalizing u with
  | nil => simp at hb
  | cons a rest ih =>
    rw [List.reverse_cons, List.getElem?_append] at hb
    split at hb
    next hlt =>
      cases rest with
      | nil => simp at hlt
      | cons p rest =>
        obtain ⟨u₀, -, -, -, htail, -⟩ := h.tail
        exact ih htail hb
    next hge =>
      have hi : i = rest.length := by
        have hlen := (List.getElem?_eq_some_iff.mp hb).1
        simp only [List.length_reverse, List.length_singleton] at hge hlen
        omega
      subst hi
      simp only [List.length_reverse, Nat.sub_self, List.getElem?_cons_zero, Option.some.injEq] at hb
      subst hb
      exact h.height_eq

theorem ValidBranch.eq_of_hash (hcf : CollisionFree cx K) (h : ValidBranch cx bs u) (hknown : ∀ b ∈ bs, K b) {j : ℕ}
    {a : Block} (ha : bs.reverse[i]? = some a) (hb : bs.reverse[j]? = some b)
    (hhash : a.hash cx.sha256 = b.hash cx.sha256) : i = j := by
  have hKa : K a := hknown a (List.mem_reverse.mp (List.mem_of_getElem? ha))
  have hKb : K b := hknown b (List.mem_reverse.mp (List.mem_of_getElem? hb))
  have hheader := hcf.header_eq a b hKa hKb hhash
  rw [← h.height_getElem? ha, ← h.height_getElem? hb, hheader]

theorem ValidBranch.head_notMem {rest : List Block} (hcf : CollisionFree cx K) (h : ValidBranch cx (b :: rest) u)
    (hknown : ∀ x ∈ b :: rest, K x) {x : Block} (hx : x ∈ rest) : x.hash cx.sha256 ≠ b.hash cx.sha256 := by
  intro hhash
  obtain ⟨i, hi⟩ := List.getElem?_of_mem (List.mem_reverse.mpr hx)
  have hlt : i < rest.length := by
    have := (List.getElem?_eq_some_iff.mp hi).1
    rwa [List.length_reverse] at this
  have hx' : (b :: rest).reverse[i]? = some x := by
    rw [List.reverse_cons, List.getElem?_append_left (by rw [List.length_reverse]; exact hlt), hi]
  have hb' : (b :: rest).reverse[rest.length]? = some b := by
    rw [List.reverse_cons, List.getElem?_append_right (by rw [List.length_reverse]),
      List.length_reverse, Nat.sub_self]
    rfl
  have := h.eq_of_hash hcf hknown hx' hb' hhash
  omega

end Distinct

section Walks

variable {K : Block → Prop} {get : Bytes32 → Option Block} {b : Block} {rest : List Block} {u : UtxoSet}
  {fork : Bytes32} {fuel : ℕ} {trace : List Bytes32}

theorem WellPlaced.header_eq (hcf : CollisionFree cx K) (hget : WellPlaced cx K get) {x : Block} (hb : K b)
    (hx : get (b.hash cx.sha256) = some x) : x.header = b.header := by
  obtain ⟨hhash, hK, -⟩ := hget _ _ hx
  exact hcf.header_eq x b hK hb hhash

/-- Walking back from the tip of a branch stays on it. -/
theorem ancestors_subset (hcf : CollisionFree cx K) (hget : WellPlaced cx K get) (fuel : ℕ)
    (h : ValidBranch cx (b :: rest) u) (hknown : ∀ x ∈ b :: rest, K x) :
    ∀ hash ∈ ancestors get fuel (b.hash cx.sha256), hash ∈ hashes cx (b :: rest) := by
  induction fuel generalizing b rest u with
  | zero =>
    intro hash hmem
    simp only [ancestors, List.mem_singleton] at hmem
    simp [hashes, hmem]
  | succ fuel ih =>
    intro hash hmem
    rw [ancestors, List.mem_cons] at hmem
    rcases hmem with rfl | hmem
    · simp [hashes]
    · cases hx : get (b.hash cx.sha256) with
      | none => simp [hx] at hmem
      | some x =>
        have hheader := hget.header_eq hcf (hknown b (by simp)) hx
        simp only [hx, hheader] at hmem
        split at hmem
        · simp at hmem
        · cases rest with
          | nil =>
            rename_i hne
            cases h with
            | genesis => exact absurd rfl hne
          | cons p rest =>
            obtain ⟨u₀, -, -, -, htail, hprev, -⟩ := h.tail
            rw [hprev] at hmem
            have := ih htail (fun x hx => hknown x (List.mem_cons_of_mem _ hx)) hash hmem
            exact List.mem_cons_of_mem _ this

theorem traceOld_ok (hcf : CollisionFree cx K) (hget : WellPlaced cx K get) {bs : List Block} (hbs : bs = b :: rest)
    (h : ValidBranch cx bs u) (hknown : ∀ x ∈ bs, K x) (hfork : fork ∈ hashes cx bs)
    (htrace : traceOld get fork fuel (b.hash cx.sha256) = .ok trace) :
    ∃ old f common, bs = old ++ f :: common ∧ f.hash cx.sha256 = fork ∧ trace = hashes cx old := by
  induction fuel generalizing bs b rest u trace with
  | zero => simp [traceOld] at htrace
  | succ fuel ih =>
    subst hbs
    unfold traceOld at htrace
    split at htrace
    next heq =>
      refine ⟨[], b, rest, rfl, heq, ?_⟩
      simpa [hashes] using htrace.symm
    next hne =>
      cases hx : get (b.hash cx.sha256) with
      | none => simp [hx] at htrace
      | some x =>
        have hheader := hget.header_eq hcf (hknown b (by simp)) hx
        simp only [hx, hheader] at htrace
        cases rest with
        | nil =>
          simp only [hashes, List.map_cons, List.map_nil, List.mem_singleton] at hfork
          exact absurd hfork.symm hne
        | cons p rest =>
          obtain ⟨u₀, -, -, -, htail, hprev, -⟩ := h.tail
          rw [hprev] at htrace
          have hfork' : fork ∈ hashes cx (p :: rest) := by
            rcases List.mem_cons.mp hfork with heq | hmem
            · exact absurd heq.symm hne
            · exact hmem
          cases hrec : traceOld get fork fuel (p.hash cx.sha256) with
          | error e => simp [hrec] at htrace
          | ok trace' =>
            obtain ⟨old, f, common, hsplit, hf, rfl⟩ := ih rfl htail
              (fun x hx => hknown x (List.mem_cons_of_mem _ hx)) hfork' hrec
            refine ⟨b :: old, f, common, by rw [hsplit]; rfl, hf, ?_⟩
            simp only [hrec, Except.ok.injEq] at htrace
            rw [← htrace]
            rfl

/-- The hashes of a traced chain, tip first: each is found and its parent is traced next. -/
inductive Traced (get : Bytes32 → Option Block) (fork : Bytes32) : Bytes32 → List Bytes32 → Prop where
  | done : Traced get fork fork []
  | step {cursor : Bytes32} {b : Block} {rest : List Bytes32} (hget : get cursor = some b)
      (hrest : Traced get fork b.header.prevHash rest) : Traced get fork cursor (cursor :: rest)

theorem traceNew_ok {old : List Bytes32} {cursor : Bytes32} (h : traceNew get old fuel cursor = .ok (trace, fork)) :
    fork ∈ old ∧ Traced get fork cursor trace := by
  induction fuel generalizing cursor trace with
  | zero => simp [traceNew] at h
  | succ fuel ih =>
    unfold traceNew at h
    split at h
    next hmem =>
      simp only [Except.ok.injEq, Prod.mk.injEq] at h
      obtain ⟨rfl, rfl⟩ := h
      exact ⟨hmem, .done⟩
    next hnot =>
      split at h
      next => simp at h
      next b hb =>
        split at h
        next => simp at h
        next trace' fork' hrec =>
          simp only [Except.ok.injEq, Prod.mk.injEq] at h
          obtain ⟨rfl, rfl⟩ := h
          obtain ⟨hmem, htraced⟩ := ih hrec
          exact ⟨hmem, .step hb htraced⟩

/-- The fork search splits the current branch at the fork point and traces the new chain
back to it. -/
theorem findForkBlocks_ok (hcf : CollisionFree cx K) (hget : WellPlaced cx K get) (h : ValidBranch cx (b :: rest) u)
    (hknown : ∀ x ∈ b :: rest, K x) {newTip : Bytes32} {disconnect connect : List Bytes32}
    (hfind : findForkBlocks get fuel (b.hash cx.sha256) newTip = .ok (disconnect, connect)) :
    ∃ old f common trace, b :: rest = old ++ f :: common ∧ disconnect = hashes cx old ∧
      connect = trace.reverse ∧ Traced get (f.hash cx.sha256) newTip trace := by
  unfold findForkBlocks at hfind
  split at hfind
  next => simp at hfind
  next trace fork hnew =>
    obtain ⟨hmem, htraced⟩ := traceNew_ok hnew
    split at hfind
    next => simp at hfind
    next d hold =>
      simp only [Except.ok.injEq, Prod.mk.injEq] at hfind
      obtain ⟨rfl, rfl⟩ := hfind
      have hfork := ancestors_subset hcf hget fuel h hknown fork hmem
      obtain ⟨old, f, common, hsplit, rfl, rfl⟩ := traceOld_ok hcf hget rfl h hknown hfork hold
      exact ⟨old, f, common, trace, hsplit, rfl, rfl, htraced⟩

end Walks

end KuberCoin.Branches
