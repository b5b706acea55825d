import Mathlib.Data.List.Basic
import Mathlib.Order.Basic

/-!
Binary trees that hash their leaves, with proofs of membership that do not say on which side of a
branch they come up: the hash of a pair does not depend on its order. A proof holds the siblings
of the nodes above a leaf, from the leaf up.
-/
namespace KuberCoin.ProofTrees

/-- A tree with its data at the leaves. -/
inductive PairTree (α : Type*)
  | leaf (item : α)
  | node (left right : PairTree α)

/-- What is hashed: the item of a leaf, or the two digests below a branch. -/
inductive Message (α δ : Type*)
  | item (a : α)
  | pair (x y : δ)

/-- Two messages that are the same up to the order of a pair. -/
inductive Same {α δ : Type*} : Message α δ → Message α δ → Prop
  | refl (m : Message α δ) : Same m m
  | swap (x y : δ) : Same (.pair x y) (.pair y x)

variable {α δ : Type*} (leafHash : α → δ) (pairHash : δ → δ → δ)

def digest : Message α δ → δ
  | .item a => leafHash a
  | .pair x y => pairHash x y

def PairTree.root : PairTree α → δ
  | .leaf a => leafHash a
  | .node left right => pairHash left.root right.root

/-- Every item of the tree, with its proof. -/
def PairTree.paths : PairTree α → List (α × List δ)
  | .leaf a => [(a, [])]
  | .node left right =>
      left.paths.map (fun p => (p.1, p.2 ++ [right.root leafHash pairHash])) ++
        right.paths.map (fun p => (p.1, p.2 ++ [left.root leafHash pairHash]))

/-- All that the root of the tree hashes. -/
def PairTree.hashed : PairTree α → List (Message α δ)
  | .leaf a => [.item a]
  | .node left right =>
      .pair (left.root leafHash pairHash) (right.root leafHash pairHash) :: (left.hashed ++ right.hashed)

/-- The digest that a proof leads to from this one. -/
def climb (start : δ) (proof : List δ) : δ := proof.foldl pairHash start

def hashedFrom : δ → List δ → List (Message α δ)
  | _, [] => []
  | current, sibling :: rest => .pair current sibling :: hashedFrom (pairHash current sibling) rest

/-- All that is hashed on the way up from an item. -/
def hashedAlong (a : α) (proof : List δ) : List (Message α δ) :=
  .item a :: hashedFrom pairHash (leafHash a) proof

variable {leafHash pairHash}

theorem climb_concat (start sibling : δ) (proof : List δ) :
    climb pairHash start (proof ++ [sibling]) = pairHash (climb pairHash start proof) sibling := by
  simp [climb]

theorem hashedFrom_concat (start sibling : δ) (proof : List δ) :
    hashedFrom (α := α) pairHash start (proof ++ [sibling]) =
      hashedFrom pairHash start proof ++ [.pair (climb pairHash start proof) sibling] := by
  induction proof generalizing start with
  | nil => rfl
  | cons first rest ih => simp [hashedFrom, ih, climb]

theorem hashedAlong_concat (a : α) (sibling : δ) (proof : List δ) :
    hashedAlong leafHash pairHash a (proof ++ [sibling]) =
      hashedAlong leafHash pairHash a proof ++ [.pair (climb pairHash (leafHash a) proof) sibling] := by
  simp [hashedAlong, hashedFrom_concat]

theorem climb_of_mem_paths (hcomm : ∀ x y, pairHash x y = pairHash y x) {tree : PairTree α} {a : α} {proof : List δ}
    (h : (a, proof) ∈ tree.paths leafHash pairHash) :
    climb pairHash (leafHash a) proof = tree.root leafHash pairHash := by
  induction tree generalizing proof with
  | leaf b =>
    simp only [PairTree.paths, List.mem_singleton, Prod.mk.injEq] at h
    obtain ⟨rfl, rfl⟩ := h
    rfl
  | node left right ihleft ihright =>
    simp only [PairTree.paths, List.mem_append, List.mem_map, Prod.mk.injEq] at h
    obtain ⟨⟨b, below⟩, hbelow, rfl, rfl⟩ | ⟨⟨b, below⟩, hbelow, rfl, rfl⟩ := h
    · rw [climb_concat, ihleft hbelow]
      rfl
    · rw [climb_concat, ihright hbelow, hcomm]
      rfl

/-- No message of the one list has the digest of a different message of the other. -/
def Apart (leafHash : α → δ) (pairHash : δ → δ → δ) (ms ns : List (Message α δ)) : Prop :=
  ∀ m ∈ ms, ∀ n ∈ ns, digest leafHash pairHash m = digest leafHash pairHash n → Same m n

theorem Apart.mono {ms ms' ns ns' : List (Message α δ)} (h : Apart leafHash pairHash ms ns) (hms : ∀ m ∈ ms', m ∈ ms)
    (hns : ∀ n ∈ ns', n ∈ ns) : Apart leafHash pairHash ms' ns' :=
  fun m hm n hn => h m (hms m hm) n (hns n hn)

/-- A proof that leads to the root of the tree is the proof of an item of it. From the top down: the
last step of the proof and the root hash the same pair, so the sibling is one child of the root
and the rest of the proof leads to the other. -/
theorem mem_paths_of_climb {tree : PairTree α} {a : α} {proof : List δ}
    (hapart : Apart leafHash pairHash (tree.hashed leafHash pairHash) (hashedAlong leafHash pairHash a proof))
    (h : climb pairHash (leafHash a) proof = tree.root leafHash pairHash) :
    (a, proof) ∈ tree.paths leafHash pairHash := by
  induction tree generalizing proof with
  | leaf b =>
    have hitem : Message.item b ∈ (PairTree.leaf b).hashed leafHash pairHash := by simp [PairTree.hashed]
    obtain rfl | ⟨below, sibling, rfl⟩ := List.eq_nil_or_concat' proof
    · have hsame := hapart _ hitem (.item a) (by simp [hashedAlong]) h.symm
      cases hsame with
      | refl => simp [PairTree.paths]
    · rw [climb_concat] at h
      have hsame := hapart _ hitem (.pair (climb pairHash (leafHash a) below) sibling)
        (by simp [hashedAlong_concat]) h.symm
      cases hsame
  | node left right ihleft ihright =>
    have hpair : Message.pair (left.root leafHash pairHash) (right.root leafHash pairHash) ∈
        (PairTree.node left right).hashed leafHash pairHash := by simp [PairTree.hashed]
    obtain rfl | ⟨below, sibling, rfl⟩ := List.eq_nil_or_concat' proof
    · have hsame := hapart _ hpair (.item a) (by simp [hashedAlong]) h.symm
      cases hsame
    · rw [climb_concat] at h
      have hsame := hapart _ hpair (.pair (climb pairHash (leafHash a) below) sibling)
        (by simp [hashedAlong_concat]) h.symm
      have hbelow : ∀ n ∈ hashedAlong leafHash pairHash a below,
          n ∈ hashedAlong leafHash pairHash a (below ++ [sibling]) := by
        intro n hn
        rw [hashedAlong_concat]
        exact List.mem_append_left _ hn
      have hleft : Apart leafHash pairHash (left.hashed leafHash pairHash) (hashedAlong leafHash pairHash a below) := by
        refine hapart.mono (fun m hm => ?_) hbelow
        simp [PairTree.hashed, hm]
      have hright : Apart leafHash pairHash (right.hashed leafHash pairHash) (hashedAlong leafHash pairHash a below) := by
        refine hapart.mono (fun m hm => ?_) hbelow
        simp [PairTree.hashed, hm]
      generalize hl : left.root leafHash pairHash = l at hsame
      generalize hr : right.root leafHash pairHash = r at hsame
      generalize hc : climb pairHash (leafHash a) below = c at hsame
      simp only [PairTree.paths, List.mem_append, List.mem_map, Prod.mk.injEq]
      cases hsame with
      | refl => exact .inl ⟨(a, below), ihleft hleft (hc.trans hl.symm), rfl, by rw [hr]⟩
      | swap => exact .inr ⟨(a, below), ihright hright (hc.trans hr.symm), rfl, by rw [hl]⟩

end KuberCoin.ProofTrees
