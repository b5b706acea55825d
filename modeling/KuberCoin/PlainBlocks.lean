import KuberCoin.BlockTrees

/-!
Blocks whose only transaction is a coinbase without outputs.
They leave the UTXO set as it is, so a chain of them is good as soon as its timestamps rise and
its difficulty is the expected one. That gives long chains for any hash function that tells
their blocks apart.
-/
namespace KuberCoin.PlainBlocks

open Bytes Maps Transactions Blocks UtxoSets Params Difficulty Validator Storage NodeStates
  NodeStates.NodeState AddBlock Frames BlockEffects StepCases Runs Branches ChainInvariants
  BestChain WorkPaths BranchReads BlockTrees

/-- The block on `parent` with nothing but an empty coinbase. -/
def plainBlock (sha256 : Sha256) (parent : Block) (timestamp : UInt64) (bits : UInt32) : Block :=
  { header :=
      { version := headerVersion
        prevHash := parent.hash sha256
        merkleRoot := calculateMerkleRoot sha256 [emptyCoinbase]
        timestamp := timestamp
        bits := bits
        nonce := 0
        height := parent.header.height + 1 }
    transactions := [emptyCoinbase] }

section Validity

variable {sha256 : Sha256} {checks : ScriptChecks} {u : UtxoSet} {parent : Block}
  {timestamp : UInt64} {bits : UInt32}

theorem plainBlock_applies :
    applyBlockWithUndo sha256 u (plainBlock sha256 parent timestamp bits) = (.ok ⟨[⟨[], []⟩]⟩, u) :=
  rfl

/-- A plain block is valid on any set when it is later than the median time past. -/
theorem plainBlock_valid (hbatch : checks.verifyBatch [] = true) {f : ℕ → UInt64}
    (hlater : f parent.header.height < timestamp) (clock : UInt64) :
    validateBlockCached sha256 checks clock (plainBlock sha256 parent timestamp bits) u (some f) =
      .ok () := by
  have htime : timestampAfterMtp (plainBlock sha256 parent timestamp bits) (some f) = true := by
    simpa [timestampAfterMtp, plainBlock] using hlater
  have hweight : (plainBlock sha256 parent timestamp bits).weight ≤ maxBlockWeight := by
    change (96 + compactSizeLen 1 + (emptyCoinbase.baseSize + 0)) * 3 +
      (96 + compactSizeLen 1 + (emptyCoinbase.totalSize + 0)) ≤ maxBlockWeight
    decide
  have hroot : (plainBlock sha256 parent timestamp bits).verifyMerkleRoot sha256 = true := by
    simp [Block.verifyMerkleRoot, plainBlock]
  have hversion : ¬ (headerVersion < 0 ∨ headerVersion &&& versionBitsTopMask = 0) := by decide
  have hreward : (0 : UInt64) ≤ maxCoinbaseValue u (parent.header.height + 1) [] := UInt64.zero_le
  have htxs : (plainBlock sha256 parent timestamp bits).transactions = [emptyCoinbase] := rfl
  unfold validateBlockCached validateBlockFull
  simp only [htxs, bind_eq_ok_iff, require_eq_ok_iff]
  refine ⟨(), hweight, (), htime, (), hversion, (), rfl, (), rfl, (), rfl, (), Nat.zero_le _, ?_⟩
  rw [if_neg (by simp)]
  simp only [bind_eq_ok_iff, require_eq_ok_iff, forEach_eq_ok_iff]
  exact ⟨(), by simp, (), hbatch, (), List.nodup_nil, (), hreward, (), hroot, rfl⟩

theorem medianTime_lt {timestamps : List UInt64} {t : UInt64} (h : ∀ x ∈ timestamps, x < t) (hpos : 0 < t) :
    medianTime timestamps < t := by
  unfold medianTime
  rw [List.getD_eq_getElem?_getD]
  cases hget : (timestamps.insertionSort (· ≤ ·))[timestamps.length / 2]? with
  | none => exact hpos
  | some x => exact h x ((List.mem_insertionSort _).mp (List.mem_of_getElem? hget))

theorem branchMtp_lt {bs : List Block} {t : UInt64} (h : ∀ x ∈ bs, x.header.timestamp < t) (hpos : 0 < t) (height : ℕ) :
    branchMtp bs height < t := by
  apply medianTime_lt _ hpos
  intro x hx
  obtain ⟨i, -, hi⟩ := List.mem_filterMap.mp hx
  obtain ⟨b, hb, rfl⟩ := Option.map_eq_some_iff.mp hi
  exact h b (List.mem_reverse.mp (List.mem_of_getElem? hb))

end Validity

section Branches

variable {cx : Context} {T : Block → Prop} {parent : Block} {rest : List Block} {u : UtxoSet}
  {get : Bytes32 → Option Block}

/-- A plain block extends a good branch if it is later than all of it and has the expected
difficulty. -/
theorem GoodBranch.plain (hbatch : cx.checks.verifyBatch [] = true) (h : GoodBranch cx T (parent :: rest) u)
    {timestamp : UInt64} {bits : UInt32} (hT : T (plainBlock cx.sha256 parent timestamp bits))
    (hlater : ∀ x ∈ parent :: rest, x.header.timestamp < timestamp)
    (hbits : calculateNextBitsForParentAndTimestamp cx (branchGet cx (parent :: rest))
      (parent.hash cx.sha256) (parent.header.height + 1) (some timestamp) = bits) :
    GoodBranch cx T (plainBlock cx.sha256 parent timestamp bits :: parent :: rest) u := by
  have hpos : 0 < timestamp :=
    UInt64.lt_of_le_of_lt UInt64.zero_le (hlater parent (by simp))
  exact .extend h hT rfl rfl hbits.symm (plainBlock_valid hbatch (branchMtp_lt hlater hpos _) 0)
    plainBlock_applies

theorem nextBits_inside (hregular : cx.networkParams.allowMinDifficultyBlocks = false)
    (hget : get (parent.hash cx.sha256) = some parent) {height : ℕ} (hpos : 0 < height)
    (hinside : height % cx.networkParams.difficultyAdjustmentInterval ≠ 0) (timestamp : Option UInt64) :
    calculateNextBitsForParentAndTimestamp cx get (parent.hash cx.sha256) height timestamp =
      parent.header.bits := by
  unfold calculateNextBitsForParentAndTimestamp
  simp only [hget, hregular]
  rw [if_neg (by omega), if_pos hinside, ite_self]

theorem periodStart_genesis {b : Block} {fuel : ℕ} (h : ValidBranch cx (b :: rest) u)
    (hget : ∀ x ∈ b :: rest, get (x.hash cx.sha256) = some x) (hfuel : rest.length ≤ fuel) :
    periodStart get 0 fuel b = some cx.genesis := by
  induction rest generalizing b u fuel with
  | nil =>
    cases h with
    | genesis =>
      cases fuel with
      | zero => rfl
      | succ fuel => rfl
  | cons p rest ih =>
    have hheight := h.height_eq
    obtain ⟨u₀, -, -, -, htail, hprev, -⟩ := h.tail
    cases fuel with
    | zero => simp at hfuel
    | succ fuel =>
      unfold periodStart
      rw [if_pos (by rw [hheight]; simp), hprev, hget p (by simp)]
      exact ih htail (fun x hx => hget x (List.mem_cons_of_mem _ hx)) (by simpa using hfuel)

/-- The difficulty of the second period depends on the last block of the first and on genesis. -/
theorem nextBits_retarget (h : ValidBranch cx (parent :: rest) u)
    (hget : ∀ x ∈ parent :: rest, get (x.hash cx.sha256) = some x)
    (hperiod : rest.length + 1 = cx.networkParams.difficultyAdjustmentInterval) (hlong : 0 < rest.length)
    (timestamp : Option UInt64) : calculateNextBitsForParentAndTimestamp cx get (parent.hash cx.sha256)
      (parent.header.height + 1) timestamp = targetToBits (nextTarget cx parent cx.genesis) := by
  have hheight := h.height_eq
  have hstart : parent.header.height + 1 - cx.networkParams.difficultyAdjustmentInterval = 0 := by
    omega
  unfold calculateNextBitsForParentAndTimestamp
  simp only [hget parent (by simp), hstart]
  rw [if_neg (by omega), if_neg (by omega), hheight, hperiod, if_neg (by simp),
    periodStart_genesis h hget le_rfl]
  simp only
  rw [if_neg]
  exact not_not.mpr rfl

end Branches

section LastBytes

/-- A stand-in for a hash function: the last 32 bytes of its input. On headers it keeps what
follows the merkle root. -/
def lastBytes : Sha256 := fun bytes =>
  ⟨(Bytes32.zero.bytes ++ bytes).drop bytes.length, by
    rw [List.length_drop, List.length_append, Bytes32.zero.length_eq]
    omega⟩

theorem lastBytes_self (a : Bytes32) : lastBytes a.bytes = a := by
  apply Bytes32.ext_bytes
  change (Bytes32.zero.bytes ++ a.bytes).drop a.bytes.length = a.bytes
  rw [a.length_eq, ← Bytes32.zero.length_eq, List.drop_left]

/-- The bytes at the end of the input are the bytes at the end of the output. -/
theorem lastBytes_suffix {front back : List UInt8} (hlen : back.length ≤ 32) :
    ∃ x, (lastBytes (front ++ back)).bytes = x ++ back := by
  refine ⟨(Bytes32.zero.bytes ++ front).drop (front ++ back).length, ?_⟩
  change (Bytes32.zero.bytes ++ (front ++ back)).drop (front ++ back).length = _
  rw [← List.append_assoc, List.drop_append_of_le_length]
  rw [List.length_append, List.length_append, Bytes32.zero.length_eq]
  omega

theorem lastBytes_hash (b : Block) : ∃ x, (b.hash lastBytes).bytes = x ++
      (leBytes 8 b.header.timestamp.toNat ++ (leBytes 4 b.header.bits.toNat ++
        (leBytes 8 b.header.nonce.toNat ++ leBytes 8 b.header.height))) := by
  have hhash : b.hash lastBytes = lastBytes b.header.serialize := lastBytes_self _
  rw [hhash]
  unfold BlockHeader.serialize
  simp only [List.append_assoc]
  simp only [← List.append_assoc _ _ (leBytes 8 b.header.timestamp.toNat ++ _)]
  apply lastBytes_suffix
  simp [leBytes_length]

theorem timestamp_lt (t : UInt64) : t.toNat < 256 ^ 8 := t.toNat_lt

theorem lastBytes_header {a b : Block} (ha : a.header.height < 256 ^ 8) (hb : b.header.height < 256 ^ 8)
    (h : a.hash lastBytes = b.hash lastBytes) :
    a.header.timestamp = b.header.timestamp ∧ a.header.height = b.header.height := by
  obtain ⟨x, hx⟩ := lastBytes_hash a
  obtain ⟨y, hy⟩ := lastBytes_hash b
  rw [h, hy] at hx
  have htails := (List.append_inj' hx (by simp [leBytes_length])).2
  obtain ⟨htime, hrest⟩ := List.append_inj htails (by simp [leBytes_length])
  obtain ⟨-, hrest⟩ := List.append_inj hrest (by simp [leBytes_length])
  obtain ⟨-, hheight⟩ := List.append_inj hrest (by simp [leBytes_length])
  exact ⟨UInt64.toNat_inj.mp (leBytes_injective (timestamp_lt _) (timestamp_lt _) htime.symm),
    leBytes_injective ha hb hheight.symm⟩

theorem lastBytes_ne_zero {b : Block} (h : b.header.timestamp ≠ 0) : b.hash lastBytes ≠ Bytes32.zero := by
  intro hzero
  obtain ⟨x, hx⟩ := lastBytes_hash b
  have hall : ∀ byte ∈ leBytes 8 b.header.timestamp.toNat, byte = 0 := by
    intro byte hbyte
    have hmem : byte ∈ (b.hash lastBytes).bytes := by
      rw [hx]
      simp [hbyte]
    rw [hzero] at hmem
    exact List.eq_of_mem_replicate hmem
  have hbytes : leBytes 8 b.header.timestamp.toNat = leBytes 8 0 := by
    rw [List.eq_replicate_of_mem hall, leBytes_length]
    rfl
  apply h
  exact UInt64.toNat_inj.mp (leBytes_injective (timestamp_lt _) (by decide) hbytes)

end LastBytes

end KuberCoin.PlainBlocks
