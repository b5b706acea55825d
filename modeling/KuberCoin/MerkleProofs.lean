import KuberCoin.Blocks
import KuberCoin.Sha256
import Mathlib.Data.Nat.Log
import Mathlib.Tactic.Ring

/-!
Inclusion proofs of transactions (crate `node`, `rpc.rs`). The proof is built level by level with
the halved position, and the root by another loop over the same levels. One level up, the node at
half the position is the hash of the node at the position with the sibling of the proof.
-/
namespace KuberCoin.MerkleProofs

open Bytes Transactions Blocks Sha256

section Model

variable (sha256 : Sha256)

/-- The sibling in a level of so many nodes; a last node without one is its own. -/
def siblingPos (length pos : ℕ) : ℕ := if pos % 2 = 0 then min (pos + 1) (length - 1) else pos - 1

/-- The levels from the leaves to the root; `none` where the index of a sibling is out of range. -/
def collectSiblings : ℕ → List Bytes32 → ℕ → Option (List Bytes32)
  | 0, hashes, _ => if 1 < hashes.length then none else some []
  | n + 1, hashes, pos =>
    if 1 < hashes.length then do
      let sibling ← hashes[siblingPos hashes.length pos]?
      let proof ← collectSiblings n (merkleLevel sha256 hashes) (pos / 2)
      return sibling :: proof
    else some []

/-- A level has fewer nodes than the one below, so as many levels as leaves always suffice. -/
def buildMerkleProof (txids : List Bytes32) (position : ℕ) : Option (List Bytes32) :=
  if txids.length ≤ 1 then some [] else collectSiblings sha256 txids.length txids position

/-- The hash of a node with its sibling, on the right of it or on the left. -/
def hashWith (left : Bool) (node sibling : Bytes32) : Bytes32 :=
  if left then sha256d sha256 (sibling.bytes ++ node.bytes) else sha256d sha256 (node.bytes ++ sibling.bytes)

/-- The fold of a path over a leaf, with the side of a sibling in the bit of the position. -/
def foldPath (position : ℕ) (path : List Bytes32) (leaf : Bytes32) : Bytes32 :=
  path.zipIdx.foldl (fun node level => hashWith sha256 (position.testBit level.2) node level.1) leaf

end Model

section Levels

variable {sha256 : Sha256}

theorem merkleLevel_length (hashes : List Bytes32) : (merkleLevel sha256 hashes).length = (hashes.length + 1) / 2 := by
  induction hashes using merkleLevel.induct with
  | case1 a b rest ih =>
    rw [merkleLevel, List.length_cons, ih, List.length_cons, List.length_cons]
    omega
  | case2 a => simp [merkleLevel]
  | case3 => simp [merkleLevel]

theorem merkleLevel_getElem? {hashes : List Bytes32} {pos : ℕ} {node : Bytes32} (h : hashes[pos]? = some node) :
    ∃ sibling, hashes[siblingPos hashes.length pos]? = some sibling ∧
      (merkleLevel sha256 hashes)[pos / 2]? = some (hashWith sha256 (pos.testBit 0) node sibling) := by
  induction hashes using merkleLevel.induct generalizing pos with
  | case1 a b rest ih =>
    match pos with
    | 0 =>
      cases h
      exact ⟨b, by simp [siblingPos], rfl⟩
    | 1 =>
      cases h
      exact ⟨a, rfl, rfl⟩
    | pos + 2 =>
      have hrest : rest[pos]? = some node := h
      obtain ⟨sibling, hsibling, hup⟩ := ih hrest
      have hlt : pos < rest.length := (List.getElem?_eq_some_iff.mp hrest).1
      have hshift : siblingPos (a :: b :: rest).length (pos + 2) = siblingPos rest.length pos + 2 := by
        unfold siblingPos
        rw [List.length_cons, List.length_cons, Nat.add_mod_right]
        split
        next => omega
        next => omega
      have hbit : (pos + 2).testBit 0 = pos.testBit 0 := by simp [Nat.testBit_zero]
      rw [hshift, hbit, show (pos + 2) / 2 = pos / 2 + 1 by omega]
      exact ⟨sibling, hsibling, hup⟩
  | case2 a =>
    obtain ⟨hlt, -⟩ := List.getElem?_eq_some_iff.mp h
    obtain rfl : pos = 0 := by simpa using hlt
    cases h
    exact ⟨_, rfl, rfl⟩
  | case3 => cases h

theorem collectSiblings_spec {position i n : ℕ} {hashes : List Bytes32} {node : Bytes32} (hn : hashes.length ≤ n)
    (h : hashes[position / 2 ^ i]? = some node) :
    ∃ path, collectSiblings sha256 n hashes (position / 2 ^ i) = some path ∧
      (path.zipIdx i).foldl (fun node level => hashWith sha256 (position.testBit level.2) node level.1) node =
        merkleFold sha256 n hashes ∧
      path.length = Nat.clog 2 hashes.length := by
  induction n generalizing i hashes node with
  | zero =>
    obtain rfl : hashes = [] := List.length_eq_zero_iff.mp (by omega)
    cases h
  | succ n ih =>
    by_cases hmany : 1 < hashes.length
    · obtain ⟨sibling, hsibling, hup⟩ := @merkleLevel_getElem? sha256 _ _ _ h
      have hhalf : position / 2 ^ i / 2 = position / 2 ^ (i + 1) := by
        rw [Nat.div_div_eq_div_mul, pow_succ]
      have hbit : (position / 2 ^ i).testBit 0 = position.testBit i := by
        rw [Nat.testBit_div_two_pow, Nat.zero_add]
      rw [hhalf, hbit] at hup
      have hlength := @merkleLevel_length sha256 hashes
      obtain ⟨path, hpath, hroot, hcount⟩ := ih (by omega) hup
      refine ⟨sibling :: path, ?_, ?_, ?_⟩
      · rw [collectSiblings, if_pos hmany, hsibling, hhalf]
        show (collectSiblings sha256 n (merkleLevel sha256 hashes) (position / 2 ^ (i + 1))).bind _ = _
        rw [hpath]
        rfl
      · rw [List.zipIdx_cons, List.foldl_cons, hroot, merkleFold, if_pos hmany]
      · rw [List.length_cons, hcount, hlength, Nat.clog_of_one_lt (by norm_num) hmany]
        rfl
    · obtain ⟨root, rfl⟩ : ∃ root, hashes = [root] := by
        have hpos := Nat.zero_lt_of_lt (List.getElem?_eq_some_iff.mp h).1
        exact List.length_eq_one_iff.mp (by omega)
      have hzero : position / 2 ^ i = 0 := by
        have hlt := (List.getElem?_eq_some_iff.mp h).1
        simpa using hlt
      rw [hzero] at h
      cases h
      exact ⟨[], by simp [collectSiblings], rfl, by simp⟩

/-- The proof of a transaction leads to the root of the block. -/
theorem merkle_proof_verifies {txs : List Transaction} {p : ℕ} {tx : Transaction} (h : txs[p]? = some tx) :
    ∃ path, buildMerkleProof sha256 (txs.map (Transaction.txid sha256)) p = some path ∧
      foldPath sha256 p path (tx.txid sha256) = calculateMerkleRoot sha256 txs ∧
      path.length = Nat.clog 2 txs.length := by
  have hleaf : (txs.map (Transaction.txid sha256))[p / 2 ^ 0]? = some (tx.txid sha256) := by
    rw [pow_zero, Nat.div_one, List.getElem?_map, h]
    rfl
  obtain ⟨path, hpath, hroot, hcount⟩ := @collectSiblings_spec sha256 p 0 _ _ _ le_rfl hleaf
  rw [List.length_map] at hcount
  refine ⟨path, ?_, hroot, hcount⟩
  unfold buildMerkleProof
  split
  next hfew =>
    -- a single leaf is the root, and its path is empty
    rw [List.length_map] at hfew
    rw [Nat.clog_of_right_le_one hfew] at hcount
    rw [List.length_eq_zero_iff.mp hcount]
  next =>
    rw [pow_zero, Nat.div_one] at hpath
    exact hpath

/-- Three transactions that differ in their lock times. -/
def threeTxs : List Transaction := [⟨1, [], [], 0⟩, ⟨1, [], [], 1⟩, ⟨1, [], [], 2⟩]

/-- The last of three leaves is its own sibling. -/
theorem last_of_three_verifies :
    ∃ path, buildMerkleProof runSha256 (threeTxs.map (Transaction.txid runSha256)) 2 = some path ∧
      foldPath runSha256 2 path ((⟨1, [], [], 2⟩ : Transaction).txid runSha256) = calculateMerkleRoot runSha256 threeTxs ∧
      path.length = Nat.clog 2 threeTxs.length :=
  merkle_proof_verifies rfl

end Levels

end KuberCoin.MerkleProofs
