import KuberCoin.BitGroups
import KuberCoin.ProofTrees
import KuberCoin.ScriptNumbers
import KuberCoin.TaprootSpends
import KuberCoin.TransactionSizes
import KuberCoin.WorkArithmetic

/-!
Script trees under a taproot output (`taproot.rs`, and the script path of `verify_input_signature`).
The output key commits to an internal key and to the root of a tree of leaf scripts. What the script
path of an input then accepts is settled by the tree: a leaf script of it, shown with its own siblings,
that succeeds on the rest of the witness. The parity bit of the control block is read and never
compared, so it is free.
-/
namespace KuberCoin.TaprootTrees

open Bytes Transactions UtxoSets Validator Sighashes InputScripts Tapscripts TaprootSpends ProofTrees
open BitGroups (chunks chunks_flatten chunks_even)
open ScriptNumbers (byte_forall)
open WorkArithmetic (compareBytes_swap compareBytes_eq_compare)
open ScriptHashSpends (mapError_eq_ok)

section ControlBlocks

def controlToBytes (block : ControlBlock) : List UInt8 :=
  (block.leafVersion ||| if block.parity then 1 else 0) :: (block.internalKey ++ block.merkleProof.flatten)

/-- The arrays of a control block have 32 bytes, and its leaf version is even. -/
structure Fits (block : ControlBlock) : Prop where
  version : block.leafVersion &&& 1 = 0
  key : block.internalKey.length = 32
  hashes : ∀ hash ∈ block.merkleProof, hash.length = 32

theorem byte_split (b : UInt8) : (b &&& 0xfe ||| if b &&& 1 ≠ 0 then 1 else 0) = b ∧ (b &&& 0xfe) &&& 1 = 0 := by
  revert b
  exact byte_forall (by decide +kernel)

theorem byte_join (v : UInt8) (parity : Bool) : v &&& 1 = 0 →
    (v ||| if parity then 1 else 0) &&& 0xfe = v ∧
      (decide ((v ||| if parity then 1 else 0) &&& 1 ≠ 0) = parity) ∧ ¬ v > 0xfe := by
  revert v
  cases parity <;> exact byte_forall (by decide +kernel)

theorem proof_eq_chunks {bytes : List UInt8} {n : ℕ} (h : bytes.length = 33 + 32 * n) :
    ((List.range ((bytes.length - 33) / 32)).map fun i => (bytes.drop (33 + i * 32)).take 32) =
      chunks 32 (bytes.drop 33) := by
  unfold chunks
  rw [List.length_drop, show (bytes.length - 33) / 32 = (bytes.length - 33 + 32 - 1) / 32 by omega]
  refine List.map_congr_left fun i _ => ?_
  rw [List.drop_drop, Nat.mul_comm]

theorem fromBytes_eq_ok_iff {bytes : List UInt8} {block : ControlBlock} :
    ControlBlock.fromBytes bytes = .ok block ↔ Fits block ∧ bytes = controlToBytes block := by
  unfold ControlBlock.fromBytes
  constructor
  · intro h
    split at h
    · cases h
    split at h
    · cases h
    obtain ⟨n, hn⟩ : ∃ n, bytes.length = 33 + 32 * n := ⟨(bytes.length - 33) / 32, by omega⟩
    simp only [proof_eq_chunks hn, ControlBlock.new] at h
    split at h
    · cases h
    cases h
    obtain ⟨-, hflatten, hpieces⟩ := chunks_even (n := 32) (k := n) (by omega) (l := bytes.drop 33)
      (by rw [List.length_drop]; omega)
    cases bytes with
    | nil =>
      rw [List.length_nil] at hn
      omega
    | cons first rest =>
      obtain ⟨hsplit, heven⟩ := byte_split first
      refine ⟨⟨heven, ?_, hpieces⟩, ?_⟩
      · simp only [List.drop_one, List.tail_cons, List.length_take]
        simp only [List.length_cons] at hn
        omega
      · simp only [controlToBytes, List.getD_cons_zero, decide_eq_true_eq, hsplit, hflatten, List.drop_one, List.tail_cons]
        rw [List.drop_succ_cons, List.take_append_drop]
  · rintro ⟨⟨hversion, hkey, hhashes⟩, rfl⟩
    obtain ⟨hjoin, hparity, hle⟩ := byte_join block.leafVersion block.parity hversion
    have hflat : block.merkleProof.flatten.length = 32 * block.merkleProof.length := by
      rw [List.length_flatten, List.map_congr_left hhashes]
      simp [Nat.mul_comm]
    have hlength : (controlToBytes block).length = 33 + 32 * block.merkleProof.length := by
      simp [controlToBytes, hkey, hflat]
      omega
    have hrest : (controlToBytes block).drop 33 = block.merkleProof.flatten := by
      rw [controlToBytes, List.drop_succ_cons, List.drop_left' hkey]
    rw [if_neg (by omega), if_neg (by omega)]
    simp only [proof_eq_chunks hlength, hrest, chunks_flatten (by omega : 0 < 32) hhashes]
    have hfirst : (controlToBytes block).getD 0 0 = block.leafVersion ||| if block.parity then 1 else 0 := rfl
    have htake : ((controlToBytes block).drop 1).take 32 = block.internalKey := by
      rw [controlToBytes, List.drop_one, List.tail_cons, List.take_left' hkey]
    rw [hfirst, htake, hjoin, hparity, ControlBlock.new, if_neg (by simp [hversion]; simpa using hle)]

end ControlBlocks

section Trees

variable (sha256 : Sha256)

/-- The hash of a branch over two digests. -/
def branch (left right : Bytes32) : Bytes32 := branchHash sha256 left.bytes right.bytes

/-- The root of a tree of leaf scripts. -/
abbrev treeRoot (tree : PairTree TapLeaf) : Bytes32 := tree.root (TapLeaf.hash sha256) (branch sha256)

/-- The leaves of a tree of leaf scripts, with their siblings from the leaf up. -/
abbrev leafPaths (tree : PairTree TapLeaf) : List (TapLeaf × List Bytes32) :=
  tree.paths (TapLeaf.hash sha256) (branch sha256)

/-- The bytes that a tagged hash digests. -/
def tagged (tag message : List UInt8) : List UInt8 := (sha256 tag).bytes ++ (sha256 tag).bytes ++ message

def leafBytes (leaf : TapLeaf) : List UInt8 := [leaf.version] ++ writeCompactSize leaf.script.length ++ leaf.script

def branchBytes (left right : Bytes32) : List UInt8 :=
  if compareBytes left.bytes right.bytes = .gt then right.bytes ++ left.bytes else left.bytes ++ right.bytes

def preimage : Message TapLeaf Bytes32 → List UInt8
  | .item leaf => tagged sha256 "TapLeaf".toUTF8.toList (leafBytes leaf)
  | .pair left right => tagged sha256 "TapBranch".toUTF8.toList (branchBytes left right)

variable {sha256}

theorem digest_eq (m : Message TapLeaf Bytes32) :
    digest (TapLeaf.hash sha256) (branch sha256) m = sha256 (preimage sha256 m) := by
  cases m with
  | item leaf => rfl
  | pair left right =>
    show branchHash sha256 left.bytes right.bytes = sha256 (tagged sha256 _ (branchBytes left right))
    by_cases horder : compareBytes left.bytes right.bytes = .gt
    · simp only [branchHash, branchBytes, horder, if_true]
      rfl
    · simp only [branchHash, branchBytes, horder, if_false]
      rfl

theorem leafBytes_injective {a b : TapLeaf} (h : leafBytes a = leafBytes b) : a = b := by
  have hsize : a.script.length = b.script.length := by
    have hlength := congrArg List.length h
    simp only [leafBytes, List.length_append, List.length_singleton, TransactionSizes.writeCompactSize_length] at hlength
    unfold compactSizeLen at hlength
    split_ifs at hlength <;> omega
  obtain ⟨hhead, hscript⟩ := List.append_inj' h hsize
  obtain ⟨hversion, -⟩ := List.append_inj hhead rfl
  cases a
  cases b
  exact congrArg₂ TapLeaf.mk (List.cons.inj hversion).1 hscript

theorem same_of_branchBytes {x y x' y' : Bytes32} (h : branchBytes x y = branchBytes x' y') :
    Same (α := TapLeaf) (.pair x y) (.pair x' y') := by
  have split_at {a b c d : Bytes32} (h : a.bytes ++ b.bytes = c.bytes ++ d.bytes) : a = c ∧ b = d := by
    obtain ⟨hleft, hright⟩ := List.append_inj h (by rw [a.length_eq, c.length_eq])
    exact ⟨Bytes32.ext_bytes hleft, Bytes32.ext_bytes hright⟩
  unfold branchBytes at h
  split at h <;> split at h <;> obtain ⟨rfl, rfl⟩ := split_at h
  · exact .refl _
  · exact .swap _ _
  · exact .swap _ _
  · exact .refl _

theorem branch_comm (x y : Bytes32) : branch sha256 x y = branch sha256 y x := by
  have hlength : x.bytes.length = y.bytes.length := by rw [x.length_eq, y.length_eq]
  have hswap := compareBytes_swap x.bytes y.bytes
  have hbytes : branchBytes x y = branchBytes y x := by
    unfold branchBytes
    cases horder : compareBytes x.bytes y.bytes with
    | lt =>
      rw [horder] at hswap
      simp [hswap]
    | eq =>
      have hvalue : value x.bytes = value y.bytes := by
        rw [compareBytes_eq_compare hlength] at horder
        exact Nat.compare_eq_eq.mp horder
      simp [value_injective hlength hvalue]
    | gt =>
      rw [horder] at hswap
      simp [hswap]
  exact (digest_eq (.pair x y)).trans ((congrArg (fun bytes => sha256 (tagged sha256 _ bytes)) hbytes).trans
    (digest_eq (.pair y x)).symm)

/-- Two messages of trees with one preimage are the same, if the two tags are told apart. -/
theorem same_of_preimage {m n : Message TapLeaf Bytes32}
    (htags : sha256 "TapLeaf".toUTF8.toList ≠ sha256 "TapBranch".toUTF8.toList)
    (h : preimage sha256 m = preimage sha256 n) : Same m n := by
  have untag {tag tag' message message' : List UInt8} (h : tagged sha256 tag message = tagged sha256 tag' message') :
      sha256 tag = sha256 tag' ∧ message = message' := by
    simp only [tagged, List.append_assoc] at h
    obtain ⟨htag, h⟩ := List.append_inj h (by rw [Bytes32.length_eq, Bytes32.length_eq])
    obtain ⟨-, hmessage⟩ := List.append_inj h (by rw [Bytes32.length_eq, Bytes32.length_eq])
    exact ⟨Bytes32.ext_bytes htag, hmessage⟩
  cases m with
  | item leaf =>
    cases n with
    | item leaf' =>
      rw [leafBytes_injective (untag h).2]
      exact .refl _
    | pair x y => exact absurd (untag h).1 htags
  | pair x y =>
    cases n with
    | item leaf => exact absurd (untag h).1.symm htags
    | pair x' y' => exact same_of_branchBytes (untag h).2

theorem merkleRoot_eq_climb (leafHash : Bytes32) (proof : List Bytes32) :
    merkleRoot sha256 leafHash (proof.map Bytes32.bytes) = climb (branch sha256) leafHash proof := by
  rw [merkleRoot, List.foldl_map]
  rfl

theorem exists_hashes {proof : List (List UInt8)} (h : ∀ hash ∈ proof, hash.length = 32) :
    ∃ hashes : List Bytes32, proof = hashes.map Bytes32.bytes := by
  induction proof with
  | nil => exact ⟨[], rfl⟩
  | cons first rest ih =>
    obtain ⟨hfirst, hrest⟩ := List.forall_mem_cons.mp h
    obtain ⟨hashes, rfl⟩ := ih hrest
    exact ⟨⟨first, hfirst⟩ :: hashes, rfl⟩

end Trees

section Spends

/-- The output key commits to an internal key and to a tree. -/
def CommitsTo (sha256 : Sha256) (keys : XOnlyKeys) (outputKey : List UInt8) (key : Bytes32)
    (tree : PairTree TapLeaf) : Prop :=
  tweakPublicKey sha256 keys key.bytes (some (treeRoot sha256 tree)) = .ok outputKey

/-- No two of these messages collide. -/
def NoCollision (sha256 : Sha256) (ms ns : List (Message TapLeaf Bytes32)) : Prop :=
  ∀ m ∈ ms, ∀ n ∈ ns, sha256 (preimage sha256 m) = sha256 (preimage sha256 n) →
    preimage sha256 m = preimage sha256 n

/-- What a spender would have to break to show a script from outside the tree: the digests of the
messages at hand, or the commitment of the output key, by a second pair of key and root. -/
structure Binding (sha256 : Sha256) (keys : XOnlyKeys) (outputKey : List UInt8) (key : Bytes32)
    (tree : PairTree TapLeaf) (control script : List UInt8) : Prop where
  tags : sha256 "TapLeaf".toUTF8.toList ≠ sha256 "TapBranch".toUTF8.toList
  messages : ∀ block (proof : List Bytes32), ControlBlock.fromBytes control = .ok block →
    block.merkleProof = proof.map Bytes32.bytes →
    NoCollision sha256 (tree.hashed (TapLeaf.hash sha256) (branch sha256))
      (hashedAlong (TapLeaf.hash sha256) (branch sha256) (TapLeaf.tapscript script) proof)
  opening : ∀ block root, ControlBlock.fromBytes control = .ok block →
    root = merkleRoot sha256 ((TapLeaf.tapscript script).hash sha256) block.merkleProof →
    tweakPublicKey sha256 keys block.internalKey (some root) = .ok outputKey →
    block.internalKey = key.bytes ∧ root = treeRoot sha256 tree

variable {sha256 : Sha256} {keys : XOnlyKeys} {outputKey : List UInt8} {key : Bytes32} {tree : PairTree TapLeaf}
  {control script : List UInt8}

theorem apart_of_noCollision {ms ns : List (Message TapLeaf Bytes32)}
    (htags : sha256 "TapLeaf".toUTF8.toList ≠ sha256 "TapBranch".toUTF8.toList) (h : NoCollision sha256 ms ns) :
    Apart (TapLeaf.hash sha256) (branch sha256) ms ns := by
  intro m hm n hn hdigest
  rw [digest_eq, digest_eq] at hdigest
  exact same_of_preimage htags (h m hm n hn hdigest)

theorem checkCommitment_eq_ok {block : ControlBlock} :
    checkCommitment sha256 keys control script outputKey = .ok block ↔
      ControlBlock.fromBytes control = .ok block ∧ block.leafVersion = 0xc0 ∧
        tweakPublicKey sha256 keys block.internalKey
          (some (merkleRoot sha256 ((TapLeaf.tapscript script).hash sha256) block.merkleProof)) = .ok outputKey := by
  simp only [checkCommitment, bind_eq_ok_iff, mapError_eq_ok, require_eq_ok_iff]
  constructor
  · rintro ⟨block', hblock, _, hversion, expected, hexpected, _, hkey, hreturn⟩
    cases hreturn
    rw [← hkey]
    exact ⟨hblock, hversion, hexpected⟩
  · rintro ⟨hblock, hversion, hexpected⟩
    exact ⟨block, hblock, (), hversion, outputKey, hexpected, (), rfl, rfl⟩

/-- The control blocks that the check accepts for this script: the internal key, and the siblings of
one of the leaves that hold the script. -/
theorem checkCommitment_iff_path (hcommit : CommitsTo sha256 keys outputKey key tree)
    (hbinding : Binding sha256 keys outputKey key tree control script) {block : ControlBlock} :
    checkCommitment sha256 keys control script outputKey = .ok block ↔
      ∃ proof parity, (TapLeaf.tapscript script, proof) ∈ leafPaths sha256 tree ∧
        block = ⟨0xc0, parity, key.bytes, proof.map Bytes32.bytes⟩ ∧ control = controlToBytes block := by
  rw [checkCommitment_eq_ok]
  constructor
  · rintro ⟨hblock, hversion, htweak⟩
    obtain ⟨hfits, hbytes⟩ := fromBytes_eq_ok_iff.mp hblock
    obtain ⟨proof, hproof⟩ := exists_hashes hfits.hashes
    obtain ⟨hkey, hroot⟩ := hbinding.opening block _ hblock rfl htweak
    rw [hproof, merkleRoot_eq_climb] at hroot
    have hapart := apart_of_noCollision hbinding.tags (hbinding.messages block proof hblock hproof)
    refine ⟨proof, block.parity, mem_paths_of_climb hapart hroot, ?_, hbytes⟩
    rw [← hversion, ← hkey, ← hproof]
  · rintro ⟨proof, parity, hpath, rfl, hbytes⟩
    refine ⟨fromBytes_eq_ok_iff.mpr ⟨⟨(by decide : (0xc0 : UInt8) &&& 1 = 0), key.length_eq, ?_⟩, hbytes⟩, rfl, ?_⟩
    · intro hash hmem
      obtain ⟨digest, -, rfl⟩ := List.mem_map.mp hmem
      exact digest.length_eq
    · rw [merkleRoot_eq_climb, climb_of_mem_paths branch_comm hpath]
      exact hcommit

variable {eng : Engine} {tx : Transaction} {index : ℕ} {amounts : List UInt64} {scripts inputs : List (List UInt8)}

/-- An output that commits to a tree is spent by a witness with a control block exactly if the block
is that of a leaf script of the tree, with either parity, and the leaf script succeeds on the
elements before it. -/
theorem script_path_spends_iff {output : TxOutput} {i : TxInput}
    (hcommit : CommitsTo eng.sha256 keys outputKey key tree)
    (hbinding : Binding eng.sha256 keys outputKey key tree control script) (hlength : outputKey.length = 32)
    (houtput : output.scriptPubkey = [0x51, 0x20] ++ outputKey) (hi : tx.inputs[index]? = some i)
    (hstack : effectiveStack i.witness.stack = inputs ++ [script, control]) :
    verifyOutput (taprootEngine keys eng) tx index output amounts scripts = .ok () ↔
      ∃ proof parity context, (TapLeaf.tapscript script, proof) ∈ leafPaths eng.sha256 tree ∧
        control = controlToBytes ⟨0xc0, parity, key.bytes, proof.map Bytes32.bytes⟩ ∧
        leafContext (taprootSignatureHash eng.sha256 tx index amounts scripts) key.bytes script = .ok context ∧
        runLeaf eng context script inputs = .ok true := by
  have htaproot : IsTaproot output.scriptPubkey := by simp [IsTaproot, houtput, hlength]
  rw [verifyOutput_taproot hi htaproot, verifyTaproot_leaf hstack, houtput]
  show verifyScriptPath keys eng control script inputs outputKey
    (taprootSignatureHash eng.sha256 tx index amounts scripts) index = .ok () ↔ _
  simp only [verifyScriptPath, bind_eq_ok_iff, require_eq_ok_iff, checkCommitment_iff_path hcommit hbinding]
  constructor
  · rintro ⟨block, ⟨proof, parity, hpath, rfl, hbytes⟩, context, hcontext, result, hrun, rfl⟩
    exact ⟨proof, parity, context, hpath, hbytes, hcontext, hrun⟩
  · rintro ⟨proof, parity, context, hpath, hbytes, hcontext, hrun⟩
    exact ⟨_, ⟨proof, parity, hpath, rfl, hbytes⟩, context, hcontext, true, hrun, rfl⟩

end Spends

section TwoLeaves

/-- A leaf that is true, and the leaf with the locks. -/
def twoLeaves : PairTree TapLeaf := .node (.leaf (.tapscript [0x51])) (.leaf (.tapscript lockScript))

def lockLeafHash : Bytes32 :=
  ⟨[0xd2, 0xa0, 0xfe, 0xf6, 0x66, 0x00, 0x3c, 0x02, 0x47, 0x73, 0xac, 0x04, 0x5c, 0x38, 0xf3, 0x4d,
    0x51, 0x49, 0xae, 0x4d, 0x1a, 0x37, 0x24, 0x00, 0xf3, 0xf8, 0x78, 0x22, 0x03, 0x2e, 0xe3, 0x41], by decide⟩

/-- The tweak of the generator by this tree, and the sum of the generator and this multiple of it. -/
def twoTweak : List UInt8 :=
  [0x39, 0xc8, 0x3d, 0x82, 0xc8, 0xc6, 0x71, 0x14, 0x79, 0xb5, 0xea, 0x82, 0x24, 0xf0, 0x43, 0x57,
   0x8a, 0x47, 0x76, 0x07, 0x86, 0xe8, 0x1a, 0x19, 0xfc, 0x34, 0x82, 0xa2, 0x00, 0x26, 0xba, 0xd4]

def twoKey : List UInt8 :=
  [0xd9, 0xc7, 0x78, 0xcd, 0x65, 0xb4, 0x34, 0xc4, 0x07, 0x07, 0xd7, 0xc6, 0xd8, 0x95, 0x2e, 0x59,
   0xdf, 0x98, 0x10, 0xf9, 0xf1, 0x66, 0xd7, 0xd0, 0x0a, 0xcf, 0xbd, 0x05, 0xaf, 0xdd, 0xb2, 0xdb]

/-- The curve library on this key and this tweak. -/
def twoKeys : XOnlyKeys where
  parses key := key = generatorKey
  inRange tweak := tweak.bytes = twoTweak
  addTweak key tweak := if key = generatorKey ∧ tweak.bytes = twoTweak then some twoKey else none

def generatorBytes : Bytes32 := ⟨generatorKey, by decide⟩

/-- The control block of the first leaf, with the parity bit set. -/
def trueControl : List UInt8 := controlToBytes ⟨0xc0, true, generatorKey, [lockLeafHash.bytes]⟩

/-- A transaction whose one input shows the leaf that is true. -/
def trueSpend : Transaction := ⟨2, [⟨⟨Bytes32.zero, 0⟩, [], 0xffffffff, ⟨[[0x51], trueControl]⟩⟩], [⟨900, [0x51]⟩], 0⟩

theorem twoKey_commits : CommitsTo Sha256.sha256 twoKeys twoKey generatorBytes twoLeaves := by
  unfold CommitsTo
  decide +kernel

theorem trueControl_read :
    ControlBlock.fromBytes trueControl = .ok ⟨0xc0, true, generatorKey, [lockLeafHash.bytes]⟩ := by
  decide +kernel

theorem trueControl_root :
    merkleRoot Sha256.sha256 ((TapLeaf.tapscript [0x51]).hash Sha256.sha256) [lockLeafHash.bytes] =
      treeRoot Sha256.sha256 twoLeaves := by
  decide +kernel

theorem trueLeaf_noCollision :
    NoCollision Sha256.sha256 (twoLeaves.hashed (TapLeaf.hash Sha256.sha256) (branch Sha256.sha256))
      (hashedAlong (TapLeaf.hash Sha256.sha256) (branch Sha256.sha256) (TapLeaf.tapscript [0x51]) [lockLeafHash]) := by
  unfold NoCollision
  decide +kernel

theorem trueControl_binding : Binding Sha256.sha256 twoKeys twoKey generatorBytes twoLeaves trueControl [0x51] where
  tags := by decide +kernel
  messages block proof hblock hproof := by
    rw [trueControl_read] at hblock
    cases hblock
    have hhashes : proof = [lockLeafHash] :=
      List.map_injective_iff.mpr (fun _ _ => Bytes32.ext_bytes) (hproof.symm.trans rfl)
    rw [hhashes]
    exact trueLeaf_noCollision
  opening block root hblock hroot _ := by
    rw [trueControl_read] at hblock
    cases hblock
    exact ⟨rfl, hroot.trans trueControl_root⟩

theorem trueSpend_verified :
    verifyOutput (taprootEngine twoKeys PayToScriptHash.keylessEngine) trueSpend 0 ⟨1000, [0x51, 0x20] ++ twoKey⟩
      [1000] [[0x51, 0x20] ++ twoKey] = .ok () := by
  obtain ⟨context, hcontext⟩ : ∃ context, leafContext (taprootSignatureHash Sha256.sha256 trueSpend 0 [1000]
      [[0x51, 0x20] ++ twoKey]) generatorKey [0x51] = .ok context := ⟨_, rfl⟩
  refine (@script_path_spends_iff twoKeys twoKey generatorBytes twoLeaves trueControl [0x51] PayToScriptHash.keylessEngine
    trueSpend 0 [1000] [[0x51, 0x20] ++ twoKey] [] ⟨1000, [0x51, 0x20] ++ twoKey⟩ _ twoKey_commits trueControl_binding
    rfl rfl rfl rfl).mpr ⟨[lockLeafHash], true, context, ?_, rfl, hcontext, rfl⟩
  decide +kernel

end TwoLeaves

end KuberCoin.TaprootTrees
