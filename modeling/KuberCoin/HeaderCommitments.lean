import KuberCoin.MerkleTrees
import KuberCoin.TxEncodings
import KuberCoin.BlockEffects

/-!
What the merkle root in a header says about the transactions of a block.
The tree repeats the last node of an odd level, so a list and the list with its end repeated
have one root. A repeated transaction would spend its inputs twice and is rejected, unless it
has no inputs.
-/
namespace KuberCoin.HeaderCommitments

open Bytes Maps Transactions Blocks UtxoSets Params Validator BlockEffects MerkleTrees TxEncodings

section Trees

variable (sha256 : Sha256) {hashes : List Bytes32} {t : HashTree Bytes32}

/-- The parent of two nodes. -/
def combine (a b : Bytes32) : Bytes32 := sha256d sha256 (a.bytes ++ b.bytes)

def txids (b : Block) : List Bytes32 := b.transactions.map (Transaction.txid sha256)

/-- The merkle tree over a list of hashes. -/
def merkleTree (hashes : List Bytes32) : Option (HashTree Bytes32) :=
  build hashes.length (hashes.map HashTree.leaf)

variable {sha256}

theorem merkleLevel_roots (ts : List (HashTree Bytes32)) :
    merkleLevel sha256 (ts.map (HashTree.root (combine sha256))) =
      (level ts).map (HashTree.root (combine sha256)) := by
  induction ts using level.induct with
  | case1 a b rest ih =>
    simp only [List.map_cons, merkleLevel, level, ih]
    rfl
  | case2 a => rfl
  | case3 => rfl

theorem merkleFold_eq_root {n : ℕ} {ts : List (HashTree Bytes32)} {t : HashTree Bytes32} (h : build n ts = some t) :
    merkleFold sha256 n (ts.map (HashTree.root (combine sha256))) = t.root (combine sha256) := by
  have hhead : ∀ {ts : List (HashTree Bytes32)}, ts.head? = some t →
      (ts.map (HashTree.root (combine sha256))).headD Bytes32.zero = t.root (combine sha256) := by
    intro ts hts
    cases ts with
    | nil => simp at hts
    | cons a rest =>
      obtain rfl : a = t := by simpa using hts
      rfl
  induction n generalizing ts with
  | zero => exact hhead h
  | succ n ih =>
    unfold build at h
    unfold merkleFold
    rw [List.length_map]
    by_cases hlong : 1 < ts.length
    · rw [if_pos hlong] at h ⊢
      rw [merkleLevel_roots]
      exact ih h
    · rw [if_neg hlong] at h ⊢
      exact hhead h

theorem merkleRootOf_eq_root (h : merkleTree hashes = some t) :
    merkleRootOf sha256 hashes = t.root (combine sha256) := by
  have := @merkleFold_eq_root sha256 _ _ _ h
  rw [List.map_map] at this
  simpa [merkleRootOf, Function.comp_def, HashTree.root] using this

theorem merkleTree_leaves (h : merkleTree hashes = some t) : ∃ extra, t.leaves = hashes ++ extra ∧ extra ⊆ hashes := by
  have hleaves : (hashes.map HashTree.leaf).flatMap HashTree.leaves = hashes := by
    rw [List.flatMap_map]
    simp [HashTree.leaves]
  have := build_leaves (by rw [List.length_map]) h
  rwa [hleaves] at this

end Trees

section Blocks

variable (sha256 : Sha256)

/-- The nodes hashed in the tree of a list. -/
def treePairs (hashes : List Bytes32) : List (Bytes32 × Bytes32) :=
  match merkleTree hashes with
  | some t => t.pairs (combine sha256)
  | none => []

/-- The double hash has no collision among the transactions and inner nodes of two blocks, and
no inner node is a transaction id. -/
structure NoCollision (b₁ b₂ : Block) : Prop where
  transactions : ∀ tx ∈ b₁.transactions ++ b₂.transactions,
    ∀ tx' ∈ b₁.transactions ++ b₂.transactions, tx.txid sha256 = tx'.txid sha256 →
      tx.serializeNoWitness = tx'.serializeNoWitness
  nodes : HashTree.Separates (combine sha256)
    (treePairs sha256 (txids sha256 b₁) ++ treePairs sha256 (txids sha256 b₂))
    (txids sha256 b₁ ++ txids sha256 b₂)

variable {sha256}

theorem leaves_of_root {b₁ b₂ : Block} (hcf : NoCollision sha256 b₁ b₂) (h₁ : b₁.transactions ≠ [])
    (h₂ : b₂.transactions ≠ [])
    (hroot : calculateMerkleRoot sha256 b₁.transactions = calculateMerkleRoot sha256 b₂.transactions) :
    ∃ e₁ e₂, txids sha256 b₁ ++ e₁ = txids sha256 b₂ ++ e₂ ∧ e₁ ⊆ txids sha256 b₁ ∧
      e₂ ⊆ txids sha256 b₂ := by
  obtain ⟨t₁, ht₁⟩ : ∃ t, merkleTree (txids sha256 b₁) = some t :=
    build_isSome (by simpa [txids] using h₁)
  obtain ⟨t₂, ht₂⟩ : ∃ t, merkleTree (txids sha256 b₂) = some t :=
    build_isSome (by simpa [txids] using h₂)
  obtain ⟨e₁, hl₁, hs₁⟩ := merkleTree_leaves ht₁
  obtain ⟨e₂, hl₂, hs₂⟩ := merkleTree_leaves ht₂
  have hsame : t₁.root (combine sha256) = t₂.root (combine sha256) := by
    rw [← merkleRootOf_eq_root ht₁, ← merkleRootOf_eq_root ht₂]
    exact hroot
  have hp₁ : t₁.pairs (combine sha256) = treePairs sha256 (txids sha256 b₁) := by
    rw [treePairs, ht₁]
  have hp₂ : t₂.pairs (combine sha256) = treePairs sha256 (txids sha256 b₂) := by
    rw [treePairs, ht₂]
  have htrees := HashTree.root_injective hcf.nodes
    (hp₁ ▸ List.subset_append_left _ _) (hp₂ ▸ List.subset_append_right _ _)
    (by
      rw [hl₁, List.append_subset]
      exact ⟨List.subset_append_left _ _, List.Subset.trans hs₁ (List.subset_append_left _ _)⟩)
    (by
      rw [hl₂, List.append_subset]
      exact ⟨List.subset_append_right _ _, List.Subset.trans hs₂ (List.subset_append_right _ _)⟩)
    hsame
  refine ⟨e₁, e₂, ?_, hs₁, hs₂⟩
  rw [← hl₁, ← hl₂, htrees]

variable {checks : ScriptChecks} {clock : UInt64} {b : Block} {u : UtxoSet}
  {mtp : Option (ℕ → UInt64)}

theorem validateBlockCached_root (h : validateBlockCached sha256 checks clock b u mtp = .ok ()) :
    b.weight ≤ maxBlockWeight ∧ calculateMerkleRoot sha256 b.transactions = b.header.merkleRoot := by
  unfold validateBlockCached validateBlockFull at h
  cases htxs : b.transactions with
  | nil => simp [htxs] at h
  | cons coinbase txs =>
    simp only [htxs, Bool.false_eq_true, if_false, bind_eq_ok_iff, require_eq_ok_iff] at h
    obtain ⟨-, hweight, -, -, -, -, -, -, -, -, -, -, -, -, -, -, -, -, -, -, -, -, -, hroot, -⟩ := h
    refine ⟨hweight, ?_⟩
    rw [Block.verifyMerkleRoot, beq_iff_eq, htxs] at hroot
    exact hroot

theorem length_le_sum {α : Type} {size : α → ℕ} {l : List α} (h : ∀ a ∈ l, 1 ≤ size a) :
    l.length ≤ (l.map size).sum := by
  induction l with
  | nil => simp
  | cons a rest ih =>
    rw [List.forall_mem_cons] at h
    have := ih h.2
    have := h.1
    simp only [List.length_cons, List.map_cons, List.sum_cons]
    omega

theorem shortFields_of_weight (hweight : b.weight ≤ maxBlockWeight) {tx : Transaction} (htx : tx ∈ b.transactions) :
    ShortFields tx := by
  have hbase : tx.baseSize ≤ (b.transactions.map Transaction.baseSize).sum :=
    List.le_sum_of_mem (List.mem_map_of_mem htx)
  have hlimit : tx.baseSize < 2 ^ 64 := by
    unfold Block.weight Block.baseSize maxBlockWeight at hweight
    omega
  unfold Transaction.baseSize at hlimit
  have hin := @length_le_sum _
    (fun i : TxInput => 36 + compactSizeLen i.scriptSig.length + i.scriptSig.length + 4) tx.inputs
    (fun _ _ => by omega)
  have hout := @length_le_sum _
    (fun o : TxOutput => 8 + compactSizeLen o.scriptPubkey.length + o.scriptPubkey.length) tx.outputs
    (fun _ _ => by omega)
  refine ⟨by omega, by omega, ?_, ?_⟩
  · intro i hi
    have := List.le_sum_of_mem (List.mem_map_of_mem
      (f := fun i : TxInput => 36 + compactSizeLen i.scriptSig.length + i.scriptSig.length + 4) hi)
    omega
  · intro o ho
    have := List.le_sum_of_mem (List.mem_map_of_mem
      (f := fun o : TxOutput => 8 + compactSizeLen o.scriptPubkey.length + o.scriptPubkey.length) ho)
    omega

theorem prevOutputs_bare (inputs : List TxInput) :
    (inputs.map bareInput).map TxInput.prevOutput = inputs.map TxInput.prevOutput := by
  rw [List.map_map]
  rfl

theorem isCoinbase_bare (tx : Transaction) : (withoutWitness tx).isCoinbase = tx.isCoinbase := by
  obtain ⟨version, inputs, outputs, lockTime⟩ := tx
  match inputs with
  | [] => rfl
  | [i] => rfl
  | i :: j :: rest => rfl

theorem txids_nodup (h : validateBlockCached sha256 checks clock b u mtp = .ok ())
    (hcf : ∀ tx ∈ b.transactions, ∀ tx' ∈ b.transactions, tx.txid sha256 = tx'.txid sha256 →
      tx.serializeNoWitness = tx'.serializeNoWitness) (hinputs : ∀ tx ∈ b.transactions, tx.inputs ≠ []) :
    (txids sha256 b).Nodup := by
  obtain ⟨hweight, -⟩ := validateBlockCached_root h
  obtain ⟨coinbase, txs, hv⟩ := validateBlockCached_ok h
  have hsame : ∀ tx ∈ b.transactions, ∀ tx' ∈ b.transactions,
      tx.txid sha256 = tx'.txid sha256 → withoutWitness tx = withoutWitness tx' := by
    intro tx htx tx' htx' heq
    exact withoutWitness_eq (shortFields_of_weight hweight htx) (shortFields_of_weight hweight htx')
      (hcf tx htx tx' htx' heq)
  have hspent := List.nodup_flatMap.mp hv.nodup
  rw [hv.split] at hsame hinputs
  rw [txids, hv.split, List.Nodup, List.pairwise_map, List.pairwise_cons]
  constructor
  · intro tx htx heq
    have hbare := hsame coinbase (by simp) tx (List.mem_cons_of_mem _ htx) heq
    have hcb := hv.others tx htx
    rw [← isCoinbase_bare, ← hbare, isCoinbase_bare, hv.first] at hcb
    cases hcb
  · refine hspent.2.imp_of_mem ?_
    intro tx tx' htx htx' hdisjoint heq
    have hbare := hsame tx (List.mem_cons_of_mem _ htx) tx' (List.mem_cons_of_mem _ htx') heq
    have hprev : tx.inputs.map TxInput.prevOutput = tx'.inputs.map TxInput.prevOutput := by
      rw [← prevOutputs_bare, ← prevOutputs_bare tx'.inputs]
      exact congrArg (fun t : Transaction => t.inputs.map TxInput.prevOutput) hbare
    obtain ⟨i, rest, hi⟩ := List.exists_cons_of_ne_nil (hinputs tx (List.mem_cons_of_mem _ htx))
    have hmem : i.prevOutput ∈ tx.inputs.map TxInput.prevOutput := by simp [hi]
    have hmem' : i.prevOutput ∈ tx'.inputs.map TxInput.prevOutput := hprev ▸ hmem
    exact hdisjoint hmem hmem'

/-- Two accepted blocks with one header have the same transaction ids exactly when they have
equally many transactions, and always when every transaction has an input. -/
theorem header_commits_iff {b₁ b₂ : Block} {checks₁ checks₂ : ScriptChecks} {clock₁ clock₂ : UInt64}
    {mtp₁ mtp₂ : Option (ℕ → UInt64)} (hcf : NoCollision sha256 b₁ b₂) (hheader : b₁.header = b₂.header)
    (h₁ : validateBlockCached sha256 checks₁ clock₁ b₁ u mtp₁ = .ok ())
    (h₂ : validateBlockCached sha256 checks₂ clock₂ b₂ u mtp₂ = .ok ()) :
    (txids sha256 b₁ = txids sha256 b₂ ↔ b₁.transactions.length = b₂.transactions.length) ∧
      ((∀ tx ∈ b₁.transactions ++ b₂.transactions, tx.inputs ≠ []) →
        txids sha256 b₁ = txids sha256 b₂) := by
  obtain ⟨-, hroot₁⟩ := validateBlockCached_root h₁
  obtain ⟨-, hroot₂⟩ := validateBlockCached_root h₂
  have hsome : ∀ {checks : ScriptChecks} {clock : UInt64} {b : Block} {mtp : Option (ℕ → UInt64)},
      validateBlockCached sha256 checks clock b u mtp = .ok () → b.transactions ≠ [] := by
    intro checks clock b mtp h
    obtain ⟨coinbase, txs, hv⟩ := validateBlockCached_ok h
    rw [hv.split]
    simp
  obtain ⟨e₁, e₂, hleaves, hs₁, hs₂⟩ := leaves_of_root hcf (hsome h₁) (hsome h₂)
    (by rw [hroot₁, hroot₂, hheader])
  refine ⟨⟨?_, ?_⟩, ?_⟩
  · intro heq
    simpa [txids] using congrArg List.length heq
  · intro hlen
    exact (List.append_inj hleaves (by simpa [txids] using hlen)).1
  · intro hinputs
    refine eq_of_nodup hleaves hs₁ hs₂ (txids_nodup h₁ ?_ ?_) (txids_nodup h₂ ?_ ?_)
    · intro tx htx tx' htx'
      exact hcf.transactions tx (List.mem_append_left _ htx) tx' (List.mem_append_left _ htx')
    · exact fun tx htx => hinputs tx (List.mem_append_left _ htx)
    · intro tx htx tx' htx'
      exact hcf.transactions tx (List.mem_append_right _ htx) tx' (List.mem_append_right _ htx')
    · exact fun tx htx => hinputs tx (List.mem_append_right _ htx)

end Blocks

section Repetition

/-- Another transaction without inputs. -/
def lateTransaction : Transaction := { freeTransaction with lockTime := 1 }

/-- A block of three transactions, and the block with the last of them repeated. -/
def threeBlock : Block := firstBlock [emptyCoinbase, freeTransaction, lateTransaction]

def fourBlock : Block :=
  firstBlock [emptyCoinbase, freeTransaction, lateTransaction, lateTransaction]

theorem threeBlock_noCollision : NoCollision Sha256.sha256 threeBlock fourBlock := by
  unfold threeBlock fourBlock
  rw [← runFirstBlock_eq, ← runFirstBlock_eq, ← Sha256.runSha256_eq]
  exact ⟨by decide +kernel, by decide +kernel, by decide +kernel⟩

theorem threeBlock_accepted : validateBlockCached Sha256.sha256 noSignatures 0 threeBlock ∅ (some fun _ => 1706832000) =
      .ok () := by
  unfold threeBlock
  rw [← runFirstBlock_eq, ← Sha256.runSha256_eq]
  decide +kernel

theorem fourBlock_accepted : validateBlockCached Sha256.sha256 noSignatures 0 fourBlock ∅ (some fun _ => 1706832000) =
      .ok () := by
  unfold fourBlock
  rw [← runFirstBlock_eq, ← Sha256.runSha256_eq]
  decide +kernel

theorem threeBlock_header : threeBlock.header = fourBlock.header := by
  unfold threeBlock fourBlock
  rw [← runFirstBlock_eq, ← runFirstBlock_eq]
  decide +kernel

theorem threeBlock_txids : txids Sha256.sha256 threeBlock ≠ txids Sha256.sha256 fourBlock := by
  intro heq
  have hlen := congrArg List.length heq
  unfold txids at hlen
  rw [List.length_map, List.length_map] at hlen
  exact absurd hlen (by decide)

theorem threeBlock_commits_iff : txids Sha256.sha256 threeBlock = txids Sha256.sha256 fourBlock ↔
      threeBlock.transactions.length = fourBlock.transactions.length :=
  (header_commits_iff threeBlock_noCollision threeBlock_header threeBlock_accepted
    fourBlock_accepted).1

theorem repeated_end_same_header :
    NoCollision Sha256.sha256 threeBlock fourBlock ∧ threeBlock.header = fourBlock.header ∧
      validateBlockCached Sha256.sha256 noSignatures 0 threeBlock ∅ (some fun _ => 1706832000) =
        .ok () ∧
      validateBlockCached Sha256.sha256 noSignatures 0 fourBlock ∅ (some fun _ => 1706832000) =
        .ok () ∧
      txids Sha256.sha256 threeBlock ≠ txids Sha256.sha256 fourBlock :=
  ⟨threeBlock_noCollision, threeBlock_header, threeBlock_accepted, fourBlock_accepted, threeBlock_txids⟩

end Repetition

end KuberCoin.HeaderCommitments
