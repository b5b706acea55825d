import KuberCoin.ProvenWork
import KuberCoin.PayToScriptHash
import KuberCoin.ShorterChains

/-!
A regtest node with a coin that can be spent.
The first block pays to two scripts, and a hundred plain blocks follow. The blocks have their
proof of work: their timestamps are chosen so that the header hashes meet the target with the
nonce zero, which the kernel checks by walking the chain of hashes.
-/
namespace KuberCoin.RipeChains

open Bytes Maps Transactions Blocks UtxoSets Params Difficulty Validator Storage NodeStates
  NodeStates.NodeState AddBlock Frames BlockEffects StepCases Runs Branches ChainInvariants
  BestChain UndoRecords WorkPaths BranchReads BlockTrees Deliveries PlainBlocks UndoCoverage
  ShorterChains InputScripts PayToScriptHash ScriptRuns Mempools Mempool Templates Handlers ProvenWork

section Chain

/-- `OP_5 OP_CHECKSEQUENCEVERIFY` -/
def delayedScript : List UInt8 := [0x55, 0xb2]

def fundingCoinbase : Transaction :=
  { emptyCoinbase with outputs := [payTo delayedScript 1000000000, payTo openScript 1000000000] }

def fundingTxid : Bytes32 :=
  ⟨[112, 200, 104, 226, 234, 24, 143, 42, 209, 238, 45, 121, 219, 240, 160, 249, 62, 48, 125, 137,
    133, 139, 184, 121, 115, 187, 146, 42, 246, 190, 170, 203], rfl⟩

def genesisTxid : Bytes32 :=
  ⟨[103, 105, 68, 182, 17, 77, 58, 115, 213, 183, 35, 79, 59, 217, 45, 142, 99, 159, 72, 187, 240, 21,
    228, 103, 139, 77, 107, 94, 244, 153, 198, 196], rfl⟩

def fundingBlock : Block :=
  { header :=
      { version := headerVersion
        prevHash := scriptNode.genesis.hash Sha256.sha256
        merkleRoot := calculateMerkleRoot Sha256.sha256 [fundingCoinbase]
        timestamp := 1706832003
        bits := 0x207fffff
        nonce := 0
        height := 1 }
    transactions := [fundingCoinbase] }

/-- The same block with `Sha256.runSha256`. -/
def runFundingBlock : Block :=
  { header :=
      { version := headerVersion
        prevHash := runScriptNode.genesis.hash Sha256.runSha256
        merkleRoot := calculateMerkleRoot Sha256.runSha256 [fundingCoinbase]
        timestamp := 1706832003
        bits := 0x207fffff
        nonce := 0
        height := 1 }
    transactions := [fundingCoinbase] }

theorem runFundingBlock_eq : runFundingBlock = fundingBlock := by
  rw [runFundingBlock, runScriptNode_eq, Sha256.runSha256_eq]
  rfl

/-- The seconds between a plain block and its parent. -/
def spacings : List ℕ := [
  1, 2, 4, 1, 1, 1, 1, 1, 1, 1, 1, 1, 1, 2, 1, 1, 1, 3, 2, 4, 1, 1, 3, 2, 1, 1, 1, 1, 1, 1, 1, 1, 3, 2,
  2, 3, 1, 1, 1, 2, 2, 2, 3, 2, 1, 1, 2, 5, 2, 1, 2, 4, 1, 1, 1, 1, 6, 2, 2, 1, 1, 1, 3, 6, 1, 1, 2, 1,
  2, 4, 2, 1, 6, 1, 2, 2, 1, 1, 3, 3, 1, 2, 2, 1, 1, 1, 2, 3, 1, 2, 1, 1, 2, 4, 6, 4, 1, 2, 1, 2]

/-- The timestamp of the block at a height, from the first one on. -/
def ripeTime (height : ℕ) : ℕ := 1706832003 + (spacings.take (height - 1)).sum

def ripeChain : ℕ → Block
  | 0 => scriptNode.genesis
  | 1 => fundingBlock
  | height + 2 =>
      plainBlock Sha256.sha256 (ripeChain (height + 1)) (UInt64.ofNat (ripeTime (height + 2))) 0x207fffff

/-- The chain up to a height, tip first. -/
def ripeBranch : ℕ → List Block
  | 0 => [scriptNode.genesis]
  | height + 1 => ripeChain (height + 1) :: ripeBranch height

def ripeBlocks (b : Block) : Prop := ∃ height, 0 < height ∧ height ≤ 101 ∧ b = ripeChain height

end Chain

section Hashes

theorem arrayOf_length (n : ℕ) : (leBytes 32 n).reverse.length = 32 := by
  rw [List.length_reverse, leBytes_length]

/-- The array with a given value. -/
def arrayOf (n : ℕ) : Bytes32 := ⟨(leBytes 32 n).reverse, arrayOf_length n⟩

/-- The header of a plain block; the hash of the parent is given as a number. -/
def plainHeader (root : Bytes32) (height parent time : ℕ) : BlockHeader :=
  { version := headerVersion
    prevHash := arrayOf parent
    merkleRoot := root
    timestamp := UInt64.ofNat time
    bits := 0x207fffff
    nonce := 0
    height := height }

def easyTarget : ℕ := value (bitsToTarget 0x207fffff).bytes

/-- Walk along the chain: every hash is new and meets the target. -/
def walkOk (root : Bytes32) : List ℕ → ℕ → ℕ → ℕ → List ℕ → Bool
  | [], _, _, _, _ => true
  | d :: ds, height, time, parent, seen =>
      Sha256.force (value ((plainHeader root height parent (time + d)).hash Sha256.runSha256).bytes)
        fun hash => !seen.contains hash && (Nat.ble hash easyTarget &&
          walkOk root ds (height + 1) (time + d) hash (hash :: seen))

/-- The walk along the plain blocks, from the hashes of the first two blocks. -/
def chainOk : Bool :=
  Sha256.force (value (calculateMerkleRoot Sha256.runSha256 [emptyCoinbase]).bytes) fun root =>
  Sha256.force (value (scriptNode.genesis.hash Sha256.runSha256).bytes) fun genesis =>
  Sha256.force (value (fundingBlock.hash Sha256.runSha256).bytes) fun funding =>
    !([0, genesis].contains funding) && (genesis != 0 && (Nat.ble funding easyTarget &&
      walkOk (arrayOf root) spacings 2 1706832003 funding [funding, genesis, 0]))

theorem arrayOf_value (a : Bytes32) : arrayOf (value a.bytes) = a := by
  apply Bytes32.ext_bytes
  apply value_injective
  · rw [(arrayOf (value a.bytes)).length_eq, a.length_eq]
  · have hvalue : leValue (leBytes 32 (value a.bytes)) = value a.bytes := by
      rw [leValue_leBytes]
      apply Nat.mod_eq_of_lt
      have hlt := value_lt a.bytes
      rwa [a.length_eq] at hlt
    exact hvalue

/-- The padding of a header. -/
def headerPadding : List UInt8 := [0x80] ++ List.replicate 23 0 ++ (leBytes 8 768).reverse

/-- The padded words of a plain header, from the words of the root and of the parent. -/
def plainWords (root parent : List ℕ) (height time : ℕ) : List ℕ :=
  Sha256.wordsOf (leBytes 4 headerVersion.toUInt32.toNat) ++ (parent ++ (root ++
    Sha256.wordsOf (leBytes 8 (UInt64.ofNat time).toNat ++ (leBytes 4 (0x207fffff : UInt32).toNat ++
      (leBytes 8 (0 : UInt64).toNat ++ (leBytes 8 height ++ headerPadding))))))

theorem wordsOf_plainHeader (root parent : Bytes32) (height time : ℕ) :
    Sha256.wordsOf (Sha256.pad (plainHeader root height (value parent.bytes) time).serialize) =
      plainWords (Sha256.wordsOf root.bytes) (Sha256.wordsOf parent.bytes) height time := by
  have hlength : (plainHeader root height (value parent.bytes) time).serialize.length = 96 := by
    simp only [BlockHeader.serialize, List.length_append, leBytes_length, Bytes32.length_eq]
  have hpad : Sha256.pad (plainHeader root height (value parent.bytes) time).serialize =
      (plainHeader root height (value parent.bytes) time).serialize ++ headerPadding := by
    rw [Sha256.pad, hlength]
    simp only [List.append_assoc, headerPadding]
  rw [hpad, BlockHeader.serialize]
  simp only [List.append_assoc, plainHeader, arrayOf_value]
  rw [Sha256.wordsOf_append _ _ (by rw [leBytes_length]), Sha256.wordsOf_append _ _ (by rw [parent.length_eq]),
    Sha256.wordsOf_append _ _ (by rw [root.length_eq])]
  rfl

theorem plainHeader_hash (root parent : Bytes32) (height time : ℕ) :
    ((plainHeader root height (value parent.bytes) time).hash Sha256.runSha256).bytes =
      Sha256.bytesOf (Sha256.runWordsTwice
        (plainWords (Sha256.wordsOf root.bytes) (Sha256.wordsOf parent.bytes) height time)) := by
  rw [BlockHeader.hash, Sha256.runSha256_twice, wordsOf_plainHeader]

/-- The first word of the hash of every plain block. -/
def firstWords : List ℕ := [
  979783200, 47196910, 6805024, 403983294, 2078475241, 228100371, 1108107960, 833091885, 1169142699,
  1602269917, 599563358, 1196587822, 456012428, 535450264, 995151461, 2113571485, 1655368295, 866249392,
  1139515056, 1159280015, 1902884634, 185936385, 297509982, 488935048, 1890537129, 313686701, 968829410,
  2063984501, 714108027, 639626314, 1051216194, 1424873145, 848465340, 1568112438, 1016713136,
  2129946810, 1454526945, 884034488, 205719002, 1071428015, 199588672, 655111607, 796059307, 1572847791,
  1888210944, 751209107, 1572377243, 1410306493, 1895939403, 1979269357, 1357543226, 174738855,
  1573212990, 994280507, 398476210, 1196288950, 1719189158, 1335187557, 1606463155, 630857659,
  2095803518, 1206048526, 1721937657, 1423687182, 1630613028, 1900057373, 276380475, 518530150,
  262970949, 1396081078, 36040702, 1614802615, 1688082302, 1961101618, 1588785720, 1042980451,
  184578926, 1047980845, 1976358632, 1388442158, 1063301952, 1845634268, 1431384268, 524281940,
  1834523752, 198468149, 324241292, 1246290607, 1091828394, 1433167288, 1520231337, 92769501,
  1423357351, 627075482, 1664489630, 1738177984, 1573798663, 1032356522, 594960487, 653263199]

/-- Walk along the words of the hashes: each starts as listed, and the last one is given. -/
def runWalk (root : List ℕ) : List ℕ → List ℕ → ℕ → ℕ → List ℕ → List ℕ → Bool
  | d :: ds, first :: firsts, height, time, parent, last =>
      Sha256.force (Nat.add time d) fun now =>
      Sha256.force (Nat.add height 1) fun next =>
      let words := Sha256.runWordsTwice (plainWords root parent height now)
      Nat.beq (words.headD 0) first && runWalk root ds firsts next now words last
  | [], [], _, _, parent, last => parent == last
  | _, _, _, _, _, _ => false

theorem runWalk_append {root ds firsts ds' firsts' parent middle last : List ℕ} {height time height' time' : ℕ}
    (h : runWalk root ds firsts height time parent middle = true)
    (h' : runWalk root ds' firsts' height' time' middle last = true) (hheight : height' = height + ds.length)
    (htime : time' = time + ds.sum) : runWalk root (ds ++ ds') (firsts ++ firsts') height time parent last = true := by
  induction ds generalizing firsts height time parent with
  | nil =>
    cases firsts with
    | nil =>
      rw [runWalk, beq_iff_eq] at h
      subst h hheight htime
      exact h'
    | cons => simp [runWalk] at h
  | cons d ds ih =>
    cases firsts with
    | nil => simp [runWalk] at h
    | cons first firsts =>
      simp only [runWalk, Sha256.force_eq, Nat.add_eq, Bool.and_eq_true, List.cons_append] at h ⊢
      rw [List.length_cons] at hheight
      rw [List.sum_cons] at htime
      exact ⟨h.1, ih h.2 (by omega) (by omega)⟩

/-- The first of the eight words of a hash is its upper part. -/
theorem wordsValue_head {words : List ℕ} (hlength : words.length = 8) (hwords : ∀ w ∈ words, w < 2 ^ 32) :
    Sha256.wordsValue words / 2 ^ 224 = words.headD 0 := by
  obtain ⟨a, b, c, d, e, f, g, h, rfl⟩ : ∃ a b c d e f g h, words = [a, b, c, d, e, f, g, h] := by
    rcases words with _ | ⟨a, _ | ⟨b, _ | ⟨c, _ | ⟨d, _ | ⟨e, _ | ⟨f, _ | ⟨g, _ | ⟨h, _ | ⟨i, rest⟩⟩⟩⟩⟩⟩⟩⟩⟩ <;>
      simp only [List.length_cons, List.length_nil] at hlength <;> first | omega | exact ⟨a, b, c, d, e, f, g, h, rfl⟩
  simp only [List.forall_mem_cons] at hwords
  simp only [Sha256.wordsValue, List.foldl_cons, List.foldl_nil, List.headD_cons, Nat.add_eq, Nat.mul_eq]
  omega

theorem walkOk_of_runWalk {root parent : Bytes32} {ds firsts last known seen : List ℕ} {height time : ℕ}
    (h : runWalk (Sha256.wordsOf root.bytes) ds firsts height time (Sha256.wordsOf parent.bytes) last = true)
    (hnew : (firsts ++ known).Nodup) (hpow : ∀ first ∈ firsts, first < 0x7fffff00)
    (hseen : ∀ n ∈ seen, n / 2 ^ 224 ∈ known) : walkOk root ds height time (value parent.bytes) seen = true := by
  induction ds generalizing firsts known seen height time parent with
  | nil => rfl
  | cons d ds ih =>
    cases firsts with
    | nil => simp [runWalk] at h
    | cons first firsts =>
      have hhash := plainHeader_hash root parent height (time + d)
      simp only [runWalk, Sha256.force_eq, Nat.add_eq, Bool.and_eq_true] at h
      generalize plainWords (Sha256.wordsOf root.bytes) (Sha256.wordsOf parent.bytes) height (time + d) =
        message at hhash h
      have hbounded := Sha256.runWordsTwice_bounded message
      have hvalue := Sha256.value_bytesOf hbounded
      have hwords := Sha256.wordsOf_bytesOf hbounded
      have hhead : Sha256.wordsValue (Sha256.runWordsTwice message) / 2 ^ 224 = (Sha256.runWordsTwice message).headD 0 :=
        wordsValue_head (Sha256.runWords_length _) hbounded
      rw [Nat.eq_of_beq_eq_true h.1, ← hvalue, ← hhash] at hhead
      rw [← hhash] at hwords
      rw [walkOk, Sha256.force_eq]
      simp only [Bool.and_eq_true, Bool.not_eq_true', List.contains_eq_mem, decide_eq_false_iff_not, Nat.ble_eq]
      rw [List.cons_append, List.nodup_cons] at hnew
      rw [List.forall_mem_cons] at hpow
      refine ⟨fun hmem => hnew.1 ?_, ?_, ih ?_ (?_ : (firsts ++ first :: known).Nodup) hpow.2 ?_⟩
      · rw [← hhead]
        exact List.mem_append_right _ (hseen _ hmem)
      · have htarget : easyTarget = 0x7fffff * 2 ^ 232 := by decide +kernel
        rw [htarget]
        omega
      · rw [hwords]
        exact h.2
      · exact List.nodup_middle.mpr (List.nodup_cons.mpr hnew)
      · intro n hn
        rcases List.mem_cons.mp hn with rfl | hn
        · rw [hhead]
          exact List.mem_cons_self
        · exact List.mem_cons_of_mem _ (hseen n hn)

/-- The words of the root of a plain block. -/
def plainRoot : List ℕ :=
  [0x7db3e864, 0xcca20b00, 0x4c9a7c40, 0x10966010, 0x533087ba, 0x81f9b611, 0x71cda906, 0x4a9f272b]

theorem plainRoot_eq : Sha256.wordsOf (calculateMerkleRoot Sha256.runSha256 [emptyCoinbase]).bytes = plainRoot := by
  decide +kernel

section Quarters

/-!
The kernel walks along a quarter of the chain at a time, from the words of one hash to those of another.
-/

def fundingWords : List ℕ :=
  [1070793355, 3627971322, 3347897281, 2252283664, 517415324, 297720254, 1455744102, 3948192411]

def quarterWords : List ℕ :=
  [1890537129, 2468709987, 3557143564, 3483878413, 3151784993, 3801176875, 2182071487, 3713310546]

def halfWords : List ℕ :=
  [1979269357, 1456331567, 4075194787, 1999784447, 58781137, 686960299, 1623078400, 567596722]

def lateWords : List ℕ :=
  [1588785720, 1871589578, 2869088307, 3349781626, 258398202, 165428709, 1430283459, 2022303706]

def lastWords : List ℕ :=
  [653263199, 3227124667, 2917017909, 2561758427, 3581250000, 3239747442, 28614985, 1856091328]

theorem fundingWords_eq : Sha256.wordsOf (runFundingBlock.hash Sha256.runSha256).bytes = fundingWords := by
  decide +kernel

theorem runWalk_spacings : runWalk plainRoot spacings firstWords 2 1706832003 fundingWords lastWords = true := by
  have hspacings : spacings =
      spacings.take 25 ++ ((spacings.drop 25).take 25 ++ ((spacings.drop 50).take 25 ++ spacings.drop 75)) := by
    decide +kernel
  have hfirst : firstWords =
      firstWords.take 25 ++ ((firstWords.drop 25).take 25 ++ ((firstWords.drop 50).take 25 ++ firstWords.drop 75)) := by
    decide +kernel
  have hquarter : runWalk plainRoot (spacings.take 25) (firstWords.take 25) 2 1706832003 fundingWords quarterWords =
      true := by
    decide +kernel
  have hhalf : runWalk plainRoot ((spacings.drop 25).take 25) ((firstWords.drop 25).take 25) 27 1706832042 quarterWords
      halfWords = true := by
    decide +kernel
  have hlate : runWalk plainRoot ((spacings.drop 50).take 25) ((firstWords.drop 50).take 25) 52 1706832085 halfWords
      lateWords = true := by
    decide +kernel
  have hlast : runWalk plainRoot (spacings.drop 75) (firstWords.drop 75) 77 1706832140 lateWords lastWords = true := by
    decide +kernel
  have hend := runWalk_append hlate hlast (by decide +kernel) (by decide +kernel)
  have hrest := runWalk_append hhalf hend (by decide +kernel) (by decide +kernel)
  rw [hspacings, hfirst]
  exact runWalk_append hquarter hrest (by decide +kernel) (by decide +kernel)

end Quarters

theorem chainOk_true : chainOk = true := by
  have hwalk : walkOk (calculateMerkleRoot Sha256.runSha256 [emptyCoinbase]) spacings 2 1706832003
      (value (runFundingBlock.hash Sha256.runSha256).bytes)
      [value (runFundingBlock.hash Sha256.runSha256).bytes, value (runScriptNode.genesis.hash Sha256.runSha256).bytes, 0] =
        true := by
    have hrun := runWalk_spacings
    rw [← plainRoot_eq, ← fundingWords_eq] at hrun
    refine @walkOk_of_runWalk _ _ _ _ _ [1070793355, 788451075, 0] _ _ _ hrun (by decide +kernel) (by decide +kernel) ?_
    simp only [List.forall_mem_cons]
    exact ⟨by decide +kernel, by decide +kernel, by decide, List.forall_mem_nil _⟩
  unfold chainOk
  simp only [Sha256.force_eq]
  rw [arrayOf_value, ← runFundingBlock_eq, ← runScriptNode_eq, hwalk]
  decide +kernel

/-- The hash of the block at a height, as a number. -/
def hashAt (height : ℕ) : ℕ := value ((ripeChain height).hash Sha256.sha256).bytes

theorem ripeChain_height (height : ℕ) : (ripeChain height).header.height = height := by
  induction height with
  | zero => rfl
  | succ height ih =>
    cases height with
    | zero => rfl
    | succ height =>
      change (ripeChain (height + 1)).header.height + 1 = height + 2
      rw [ih]

theorem ripeChain_plain (height : ℕ) : (ripeChain (height + 2)).header =
      plainHeader (calculateMerkleRoot Sha256.sha256 [emptyCoinbase]) (height + 2)
        (hashAt (height + 1)) (ripeTime (height + 2)) := by
  have hparent := arrayOf_value ((ripeChain (height + 1)).hash Sha256.sha256)
  have hheight := ripeChain_height (height + 1)
  simp only [ripeChain, plainBlock, plainHeader, hashAt, hparent, hheight]

/-- What the walk has established about the chain up to a height. -/
structure Walked (height : ℕ) (seen : List ℕ) : Prop where
  listed : ∀ i ≤ height, hashAt i ∈ seen
  zero : 0 ∈ seen
  fresh : ∀ i ≤ height, hashAt i ≠ 0 ∧ ∀ j < i, hashAt j ≠ hashAt i
  proven : ∀ i, 0 < i → i ≤ height → hashAt i ≤ easyTarget

theorem Walked.succ {height : ℕ} {seen : List ℕ} (h : Walked height seen) (hnew : hashAt (height + 1) ∉ seen)
    (hpow : hashAt (height + 1) ≤ easyTarget) : Walked (height + 1) (hashAt (height + 1) :: seen) := by
  refine ⟨?_, List.mem_cons_of_mem _ h.zero, ?_, ?_⟩
  · intro i hi
    rcases Nat.lt_or_ge height i with hlt | hle
    · rw [show i = height + 1 by omega]
      exact List.mem_cons_self
    · exact List.mem_cons_of_mem _ (h.listed i hle)
  · intro i hi
    rcases Nat.lt_or_ge height i with hlt | hle
    · obtain rfl : i = height + 1 := by omega
      refine ⟨fun hzero => hnew (hzero ▸ h.zero), fun j hj heq => hnew ?_⟩
      rw [← heq]
      exact h.listed j (by omega)
    · exact h.fresh i hle
  · intro i hpos hi
    rcases Nat.lt_or_ge height i with hlt | hle
    · rw [show i = height + 1 by omega]
      exact hpow
    · exact h.proven i hpos hle

theorem walkOk_sound {ds : List ℕ} {height : ℕ} {seen : List ℕ} (h : Walked (height + 1) seen)
    (hds : spacings.drop height = ds)
    (hok : walkOk (calculateMerkleRoot Sha256.sha256 [emptyCoinbase]) ds (height + 2)
      (ripeTime (height + 1)) (hashAt (height + 1)) seen = true) : ∃ seen', Walked (height + 1 + ds.length) seen' := by
  induction ds generalizing height seen with
  | nil => exact ⟨seen, h⟩
  | cons d ds ih =>
    have htime : ripeTime (height + 1) + d = ripeTime (height + 2) := by
      have hget : spacings[height]? = some d := by
        rw [← List.head?_drop, hds]
        rfl
      obtain ⟨hlt, hd⟩ := List.getElem?_eq_some_iff.mp hget
      simp only [ripeTime, Nat.add_sub_cancel, show height + 2 - 1 = height + 1 by omega,
        List.take_add_one, hget, List.sum_append]
      simp only [Option.toList_some, List.sum_cons, List.sum_nil]
      omega
    have hhash : value ((plainHeader (calculateMerkleRoot Sha256.sha256 [emptyCoinbase]) (height + 2)
        (hashAt (height + 1)) (ripeTime (height + 2))).hash Sha256.runSha256).bytes =
        hashAt (height + 2) := by
      rw [Sha256.runSha256_eq, ← ripeChain_plain]
      rfl
    rw [walkOk, Sha256.force_eq, htime, hhash] at hok
    simp only [Bool.and_eq_true, Bool.not_eq_true', List.contains_eq_mem, decide_eq_false_iff_not, Nat.ble_eq] at hok
    obtain ⟨hnew, hpow, hrest⟩ := hok
    have hdrop : spacings.drop (height + 1) = ds := by
      rw [← List.tail_drop, hds]
      rfl
    obtain ⟨seen', hseen⟩ := ih (h.succ hnew hpow) hdrop hrest
    refine ⟨seen', ?_⟩
    rwa [List.length_cons, show height + 1 + (ds.length + 1) = height + 1 + 1 + ds.length by omega]

theorem ripeChain_walked : ∃ seen, Walked 101 seen := by
  have hok := chainOk_true
  simp only [chainOk, Sha256.force_eq, Sha256.runSha256_eq, arrayOf_value, Bool.and_eq_true,
    Bool.not_eq_true', List.contains_eq_mem, decide_eq_false_iff_not, Nat.ble_eq, bne_iff_ne] at hok
  obtain ⟨hfunding, hgenesis, hpow, hwalk⟩ := hok
  have hzero : Walked 0 [hashAt 0, 0] := by
    refine ⟨?_, by simp, ?_, by omega⟩
    · intro i hi
      rw [Nat.le_zero.mp hi]
      exact List.mem_cons_self
    · intro i hi
      rw [Nat.le_zero.mp hi]
      exact ⟨hgenesis, by omega⟩
  have hone : Walked 1 [hashAt 1, hashAt 0, 0] := by
    refine hzero.succ (fun hmem => hfunding ?_) hpow
    change hashAt 1 ∈ [0, hashAt 0]
    simp only [List.mem_cons, List.not_mem_nil, or_false] at hmem ⊢
    exact hmem.symm
  exact walkOk_sound hone rfl hwalk

end Hashes

section Tree

variable {b : Block} {height i : ℕ} {u : UtxoSet}

theorem ripeMember (h : Member scriptNode ripeBlocks b) : ∃ height ≤ 101, b = ripeChain height := by
  rcases h with rfl | ⟨height, -, hle, rfl⟩
  · exact ⟨0, by omega, rfl⟩
  · exact ⟨height, hle, rfl⟩

theorem ripeChain_member (hle : height ≤ 101) : Member scriptNode ripeBlocks (ripeChain height) := by
  rcases Nat.eq_zero_or_pos height with rfl | hpos
  · exact Or.inl rfl
  · exact Or.inr ⟨height, hpos, hle, rfl⟩

theorem ripe_injective {a : Block} (ha : Member scriptNode ripeBlocks a) (hb : Member scriptNode ripeBlocks b)
    (h : a.hash scriptNode.sha256 = b.hash scriptNode.sha256) : a = b := by
  obtain ⟨seen, hwalked⟩ := ripeChain_walked
  obtain ⟨i, hi, rfl⟩ := ripeMember ha
  obtain ⟨j, hj, rfl⟩ := ripeMember hb
  have hvalues : hashAt i = hashAt j := congrArg (fun x : Bytes32 => value x.bytes) h
  rcases Nat.lt_trichotomy i j with hlt | rfl | hlt
  · exact absurd hvalues ((hwalked.fresh j hj).2 i hlt)
  · rfl
  · exact absurd hvalues.symm ((hwalked.fresh i hi).2 j hlt)

theorem ripe_ne_zero (hb : Member scriptNode ripeBlocks b) : b.hash scriptNode.sha256 ≠ Bytes32.zero := by
  obtain ⟨seen, hwalked⟩ := ripeChain_walked
  obtain ⟨i, hi, rfl⟩ := ripeMember hb
  intro hzero
  have hvalue : hashAt i = value Bytes32.zero.bytes := congrArg (fun x : Bytes32 => value x.bytes) hzero
  exact (hwalked.fresh i hi).1 (hvalue.trans (value_replicate_zero 32))

theorem mem_ripeBranch {x : Block} (h : x ∈ ripeBranch height) : ∃ i ≤ height, x = ripeChain i := by
  induction height with
  | zero => exact ⟨0, le_rfl, List.mem_singleton.mp h⟩
  | succ height ih =>
    rcases List.mem_cons.mp h with rfl | h
    · exact ⟨height + 1, le_rfl, rfl⟩
    · obtain ⟨i, hi, rfl⟩ := ih h
      exact ⟨i, by omega, rfl⟩

theorem ripeChain_mem (h : i ≤ height) : ripeChain i ∈ ripeBranch height := by
  induction height with
  | zero =>
    rw [Nat.le_zero.mp h]
    exact List.mem_singleton_self _
  | succ height ih =>
    rcases Nat.lt_or_ge height i with hlt | hle
    · rw [show i = height + 1 by omega]
      exact List.mem_cons_self
    · exact List.mem_cons_of_mem _ (ih hle)

theorem ripeBranch_cons (height : ℕ) : ∃ rest, ripeBranch height = ripeChain height :: rest ∧ rest.length = height := by
  induction height with
  | zero => exact ⟨[], rfl, rfl⟩
  | succ height ih =>
    obtain ⟨rest, heq, hlen⟩ := ih
    refine ⟨ripeBranch height, rfl, ?_⟩
    rw [heq, List.length_cons, hlen]

theorem ripeBranch_member {height : ℕ} (hle : height ≤ 101) {x : Block} (hx : x ∈ ripeBranch height) :
    Member scriptNode ripeBlocks x := by
  obtain ⟨i, hi, rfl⟩ := mem_ripeBranch hx
  exact ripeChain_member (by omega)

theorem ripeTime_lt {j : ℕ} (hpos : 0 < i) (hij : i < j) (hj : j ≤ 101) : ripeTime i < ripeTime j := by
  have hsteps : ∀ k < 101, 0 < k → ripeTime k < ripeTime (k + 1) := by decide +kernel
  induction j with
  | zero => omega
  | succ j ih =>
    have hstep := hsteps j (by omega) (by omega)
    rcases Nat.lt_or_ge i j with hlt | hle
    · exact (ih hlt (by omega)).trans hstep
    · rwa [show i = j by omega]

theorem ripeTime_le (hle : i ≤ 101) : ripeTime i ≤ 1706832200 := by
  have hall : ∀ k < 102, ripeTime k ≤ 1706832200 := by decide +kernel
  exact hall i (by omega)

theorem ripeChain_timestamp (hpos : 0 < height) (hle : height ≤ 101) :
    (ripeChain height).header.timestamp.toNat = ripeTime height := by
  have hbound := ripeTime_le hle
  obtain ⟨height, rfl⟩ := Nat.exists_eq_succ_of_ne_zero (by omega : height ≠ 0)
  cases height with
  | zero => rfl
  | succ height =>
    change (UInt64.ofNat (ripeTime (height + 2))).toNat = ripeTime (height + 2)
    rw [UInt64.toNat_ofNat', Nat.mod_eq_of_lt]
    change ripeTime (height + 2) ≤ _ at hbound
    omega

theorem ripeBranch_earlier (hpos : 0 < height) (hle : height < 101) :
    ∀ x ∈ ripeBranch height, x.header.timestamp < (ripeChain (height + 1)).header.timestamp := by
  intro x hx
  obtain ⟨i, hi, rfl⟩ := mem_ripeBranch hx
  rw [UInt64.lt_iff_toNat_lt, ripeChain_timestamp (Nat.succ_pos height) (by omega)]
  rcases Nat.eq_zero_or_pos i with rfl | hi'
  · have hfirst : 1706832003 ≤ ripeTime (height + 1) := Nat.le_add_right _ _
    change 1706832000 < ripeTime (height + 1)
    omega
  · rw [ripeChain_timestamp hi' (by omega)]
    exact ripeTime_lt hi' (by omega) (by omega)

theorem ripeChain_bits (height : ℕ) : (ripeChain height).header.bits = 0x207fffff := by
  cases height with
  | zero => rfl
  | succ height =>
    cases height with
    | zero => rfl
    | succ height => rfl

theorem ripeChain_verifies (hpos : 0 < height) (hle : height ≤ 101) :
    verifyPow scriptNode.sha256 (ripeChain height).header = true := by
  obtain ⟨seen, hwalked⟩ := ripeChain_walked
  unfold verifyPow
  rw [ripeChain_bits, bne_iff_ne, ne_eq,
    compareBytes_eq_gt_iff (((ripeChain height).header.hash _).length_eq.trans
      (bitsToTarget 0x207fffff).length_eq.symm)]
  exact Nat.not_lt.mpr (hwalked.proven height hpos hle)

/-- The regtest difficulty never changes. -/
theorem nextBits_easy {get : Bytes32 → Option Block} {parent : Block}
    (hget : get (parent.hash scriptNode.sha256) = some parent) (hbits : parent.header.bits = 0x207fffff)
    (timestamp : Option UInt64) : calculateNextBitsForParentAndTimestamp scriptNode get (parent.hash scriptNode.sha256)
      (parent.header.height + 1) timestamp = 0x207fffff := by
  have hretarget : targetToBits (nextTarget scriptNode parent parent) = 0x207fffff := by
    have hsame : saturatingSub parent.header.timestamp parent.header.timestamp = 0 := by
      unfold saturatingSub
      rw [if_pos UInt64.le_rfl, UInt64.sub_self]
    unfold nextTarget
    rw [hsame, hbits]
    decide +kernel
  have hstart : ∀ fuel, periodStart get parent.header.height fuel parent = some parent := by
    intro fuel
    cases fuel with
    | zero => rfl
    | succ n =>
      unfold periodStart
      rw [if_neg (Nat.lt_irrefl _)]
  have hinterval : scriptNode.networkParams.difficultyAdjustmentInterval = 1 := rfl
  unfold calculateNextBitsForParentAndTimestamp
  simp only [hget, hinterval, Nat.add_sub_cancel, hstart, Nat.mod_one]
  rw [if_neg (Nat.succ_ne_zero _)]
  split
  · exact hbits
  · simp only [ne_eq, not_true_eq_false, if_false]
    exact hretarget

/-- The set after the first block. -/
def fundedSet : UtxoSet :=
  (((∅ : UtxoSet).insert ⟨genesisTxid, 0⟩ ⟨⟨5000000000, [0x51]⟩, 0, true⟩).insert
    ⟨fundingTxid, 0⟩ ⟨payTo delayedScript 1000000000, 1, true⟩).insert
    ⟨fundingTxid, 1⟩ ⟨payTo openScript 1000000000, 1, true⟩

theorem fundedSet_good : GoodBranch scriptNode ripeBlocks (ripeBranch 1) fundedSet := by
  have hcheck : checkBranch scriptNode [fundingBlock, scriptNode.genesis] = some fundedSet := by
    rw [← runFundingBlock_eq, ← runScriptNode_eq]
    decide +kernel
  refine goodBranch_of_check hcheck fun b hb => ?_
  exact ⟨1, by omega, by omega, List.mem_singleton.mp hb⟩

theorem ripeBranch_good (hle : height ≤ 100) :
    GoodBranch scriptNode ripeBlocks (ripeBranch (height + 1)) fundedSet := by
  induction height with
  | zero => exact fundedSet_good
  | succ height ih =>
    have hbelow := ih (by omega)
    have hearlier := ripeBranch_earlier (Nat.succ_pos height) (by omega)
    have hfound : ∀ x ∈ ripeBranch (height + 1),
        branchGet scriptNode (ripeBranch (height + 1)) (x.hash scriptNode.sha256) = some x :=
      fun x hx => branchGet_eq (fun _ _ => ripe_injective)
        (fun y hy => ripeBranch_member (by omega) hy) hx
    obtain ⟨rest, hcons, hlen⟩ := ripeBranch_cons (height + 1)
    change GoodBranch _ _ (plainBlock _ (ripeChain (height + 1)) _ _ :: ripeBranch (height + 1)) _
    rw [hcons] at hbelow hearlier hfound ⊢
    exact GoodBranch.plain rfl hbelow ⟨height + 2, by omega, by omega, rfl⟩ hearlier
      (nextBits_easy (hfound _ List.mem_cons_self) (ripeChain_bits _) _)

theorem ripeBranch_length {bs : List Block} (h : GoodBranch scriptNode ripeBlocks bs u) : bs.length ≤ 102 := by
  obtain ⟨b, rest, rfl⟩ := h.valid.exists_cons
  obtain ⟨i, hi, hb⟩ := ripeMember (GoodBranch.member h b (by simp))
  have hheight := h.valid.height_eq
  rw [hb, ripeChain_height] at hheight
  rw [List.length_cons]
  omega

/-- Two branches that part do so at their ends: there is one block for each height. -/
theorem ripeBranch_depth {old new common : List Block} {f : Block} {v : UtxoSet}
    (hold : GoodBranch scriptNode ripeBlocks (old ++ f :: common) u)
    (hnew : GoodBranch scriptNode ripeBlocks (new ++ f :: common) v) (hne : new ≠ []) (hdisjoint : ∀ x ∈ old, x ∉ new) :
    old = [] := by
  rcases List.eq_nil_or_concat old with rfl | ⟨old, x, rfl⟩
  · rfl
  obtain ⟨new, y, rfl⟩ := (List.eq_nil_or_concat new).resolve_left hne
  have hplace : ∀ {front : List Block} {z : Block} {w : UtxoSet},
      GoodBranch scriptNode ripeBlocks (front ++ [z] ++ f :: common) w →
      z = ripeChain (common.length + 1) := by
    intro front z w hz
    obtain ⟨i, -, hi⟩ := ripeMember (GoodBranch.member hz z (by simp))
    rw [List.append_assoc, List.singleton_append] at hz
    obtain ⟨w', hz'⟩ := hz.valid.suffix
    have hheight := hz'.height_eq
    rw [hi, ripeChain_height] at hheight
    rw [hi, hheight, List.length_cons]
  rw [List.concat_eq_append] at hold hnew hdisjoint
  rw [hplace hold, List.concat_eq_append, hplace hnew] at hdisjoint
  exact absurd (List.mem_append_right _ List.mem_cons_self)
    (hdisjoint _ (List.mem_append_right _ List.mem_cons_self))

theorem ripeTree : BlockTree scriptNode ripeBlocks := by
  refine ⟨fun _ _ => ripe_injective, fun _ => ripe_ne_zero, ?_, ?_, ?_⟩
  · rintro b ⟨height, hpos, hle, rfl⟩
    obtain ⟨height, rfl⟩ := Nat.exists_eq_succ_of_ne_zero (by omega : height ≠ 0)
    obtain ⟨rest, hcons, -⟩ := ripeBranch_cons height
    refine ⟨ripeChain height, rest, fundedSet, ?_⟩
    rw [← hcons]
    exact ripeBranch_good (by omega)
  · intro bs v hbs
    have hone : ∀ w ∈ bs.map blockWorkValue, w ≤ 2 := by
      intro w hw
      obtain ⟨b, hb, rfl⟩ := List.mem_map.mp hw
      obtain ⟨i, -, rfl⟩ := ripeMember (GoodBranch.member hbs b hb)
      rw [blockWorkValue_regtest (ripeChain_bits _)]
    have hsum := List.sum_le_card_nsmul (bs.map blockWorkValue) 2 hone
    have hlen := ripeBranch_length hbs
    rw [List.length_map, nsmul_eq_mul, Nat.cast_id] at hsum
    unfold pathWork
    omega
  · intro old new f common v w hold hnew hne hdisjoint
    rw [ripeBranch_depth hold hnew hne hdisjoint]
    exact Nat.zero_le _

theorem ripe_reliable : Reliable scriptNode ripeBlocks today := by
  refine ⟨fun _ _ => rfl, ?_⟩
  rintro b ⟨height, hpos, hle, rfl⟩
  have htime := ripeChain_timestamp hpos hle
  have hbound := ripeTime_le hle
  have hlimit : (saturatingAdd (today.now ((ripeChain height).hash scriptNode.sha256))
      maxFutureBlockTimeSecs).toNat = 1706907200 := by
    change (saturatingAdd 1706900000 maxFutureBlockTimeSecs).toNat = _
    decide +kernel
  rw [UInt64.le_iff_toNat_le, htime, hlimit]
  omega

end Tree

section Run

variable {rates : FeeRates} {a : App} {steps : List Step} {height : ℕ} {tx : Transaction}

theorem removeBlockTransactions_empty (call : Mempools.Call) (sha256 : Sha256) (maxSize : ℕ) (b : Block) :
    ((Mempool.new maxSize).removeBlockTransactions call sha256 b).1 = Mempool.new maxSize := by
  have hiter : call.iter (Mempool.new maxSize).transactions = [] := by
    rw [List.eq_nil_iff_forall_not_mem]
    rintro ⟨txid, e⟩ hmem
    exact absurd (((call.lists _).mem txid e).mp hmem) (by simp [Mempool.new])
  have hnone : toRemove call sha256 (Mempool.new maxSize) b = [] := by
    simp only [toRemove, conflictingRoots, exactConfirmed, hiter, List.filter_nil, List.map_nil,
      List.foldl_nil]
  simp only [Mempool.removeBlockTransactions, hnone, Mempool.removeAll, List.foldl_nil]

/-- The ripe chain was submitted up to a height, and nothing else happened. -/
structure Ripened (rates : FeeRates) (a : App) (steps : List Step) (height : ℕ) : Prop where
  run : NodeRun scriptNode rates a steps
  mempool : a.mempool = Mempool.new 100000
  orphans : a.orphans = OrphanTxs.empty
  tree : TreeInv scriptNode ripeBlocks a.node
  tip : a.node.tip = (ripeChain height).hash scriptNode.sha256
  noOrphans : a.node.orphansByParent = ∅
  events : ∀ st ∈ steps, ∃ b, st.event = .submitblock b
  calls : ∀ st ∈ steps, ∃ b s', st.event = .submitblock b ∧ ripeBlocks b ∧
    st.before.mempool = Mempool.new 100000 ∧
    addBlockFuel scriptNode st.sur.env st.sur.fuel st.before.node b =
      some ⟨.ok .connected, s', [⟨st.sur.env, st.before.node, b, .ok .connected⟩]⟩

theorem Ripened.chain (h : Ripened rates a steps (height + 1)) (hle : height ≤ 100) :
    a.node.height = height + 1 ∧ a.node.utxoSet = fundedSet ∧
      (∀ i ≤ height + 1, Placed scriptNode a.node (ripeChain i)) := by
  obtain ⟨t, rest, hchain, hgood, htop, hplaced, -⟩ := h.tree.chain ripeTree
  obtain ⟨rest', hcons, hlen⟩ := ripeBranch_cons (height + 1)
  have hripe := ripeBranch_good hle
  have hmember := fun x hx => @ripeBranch_member (height + 1) (by omega) x hx
  rw [hcons] at hripe hmember
  obtain rfl : t = ripeChain (height + 1) :=
    ripe_injective (GoodBranch.member hgood _ List.mem_cons_self) (hmember _ List.mem_cons_self)
      (htop.trans h.tip)
  obtain rfl := ripeTree.eq_of_head hgood.valid hripe.valid (GoodBranch.member hgood) hmember
  refine ⟨?_, ?_, ?_⟩
  · have hheight := hchain.height
    rw [List.length_cons] at hheight
    omega
  · have hreplay := ValidBranch.replay hgood.valid
    rw [ValidBranch.replay hripe.valid] at hreplay
    exact (Prod.mk.inj hreplay).2.symm
  · intro i hi
    apply hplaced
    rw [← hcons]
    exact ripeChain_mem hi

/-- The surroundings in which the chain is submitted. -/
def calmDay : Surroundings := ⟨today, fun _ => PoolEvictions.callAt 1706900000, fun _ => none, 2⟩

theorem Ripened.extend {height : ℕ} (h : Ripened rates a steps height) (hlt : height < 101)
    (hheight : a.node.height = height) (hplaced : Placed scriptNode a.node (ripeChain height)) :
    ∃ a' steps', Ripened rates a' steps' (height + 1) := by
  have hT : ripeBlocks (ripeChain (height + 1)) := ⟨height + 1, by omega, by omega, rfl⟩
  have hprev : (ripeChain (height + 1)).header.prevHash = a.node.tip := by
    rw [h.tip]
    cases height with
    | zero => rfl
    | succ height => rfl
  have hparent : (a.node.store.disk.blocks.lookup
      (ripeChain (height + 1)).header.prevHash).isSome = true := by
    rw [hprev, h.tip]
    exact Option.isSome_iff_exists.mpr ⟨_, hplaced⟩
  have hkeeps : KeepsHeight a.node (ripeChain (height + 1)) := by
    intro _ _
    rw [ripeChain_height]
    omega
  obtain ⟨htree', -⟩ := h.tree.step ripeTree rfl ripe_reliable hT hparent hkeeps
  have hok : (addBlockStep scriptNode today a.node (ripeChain (height + 1))).1 = .ok .connected := by
    rcases h.tree.accepted ripeTree ripe_reliable hT hparent with hr | ⟨hr, -⟩
    · exact hr
    · exact absurd hprev (stored_inv hr).1
  have hcases := @addBlockStep_cases scriptNode today a.node (ripeChain (height + 1))
  generalize hstep : addBlockStep scriptNode today a.node (ripeChain (height + 1)) = p at *
  obtain ⟨r, s'⟩ := p
  simp only at htree' hok hcases
  subst hok
  cases hcases with
  | stored _ hoff => exact absurd hprev hoff
  | reorganized _ hoff => exact absurd hprev hoff
  | extended _ _ hext =>
    have hnone : s'.orphansByParent = ∅ := hext.orphansByParent.trans h.noOrphans
    have hcall := @addBlockFuel_of_noOrphans scriptNode rfl _ _ _ _ _ hstep hnone
    have hhandled : handle scriptNode rates calmDay a (.submitblock (ripeChain (height + 1))) =
        some (App.quiet { a with node := s' }) := by
      have hpow := ripeChain_verifies (Nat.succ_pos height) hlt
      simp only [handle, submitblock, acceptBlock, hpow, not_true_eq_false, if_false]
      rw [show addBlockFuel scriptNode calmDay.env calmDay.fuel a.node (ripeChain (height + 1)) = _
        from hcall, h.mempool]
      simp only [Option.map_some, removeBlockTransactions_empty]
    have hrun := NodeRun.step h.run hhandled
    refine ⟨{ a with node := s' }, _, hrun, h.mempool, h.orphans, htree', hext.tip, hnone, ?_, ?_⟩
    · intro st hst
      rcases List.mem_append.mp hst with hold | hlast
      · exact h.events st hold
      · rw [List.mem_singleton.mp hlast]
        exact ⟨_, rfl⟩
    · intro st hst
      rcases List.mem_append.mp hst with hold | hlast
      · exact h.calls st hold
      · rw [List.mem_singleton.mp hlast]
        exact ⟨_, s', rfl, hT, h.mempool, hcall⟩

theorem exists_ripened (rates : FeeRates) (hle : height ≤ 100) : ∃ a steps, Ripened rates a steps (height + 1) := by
  induction height with
  | zero =>
    have hopens : (nodeAfter scriptNode today 1 []).isSome = true := by
      rw [← runScriptNode_eq]
      decide +kernel
    obtain ⟨s, hs⟩ := Option.isSome_iff_exists.mp hopens
    have hnew := nodeAfter_nil hs
    have hfresh := freshNode hnew
    have htree := TreeInv.fresh ripeTree hfresh
    have hstart : Ripened rates (opened s) [] 0 :=
      ⟨NodeRun.fresh hnew 100000, rfl, rfl, htree, hfresh.tip, hfresh.orphansByParent, by simp, by simp⟩
    refine hstart.extend (by omega) hfresh.height ?_
    unfold Placed
    rw [show (opened s).node = s from rfl, hfresh.diskBlocks, lookup_insert_eq]
    exact if_pos rfl
  | succ height ih =>
    obtain ⟨a, steps, h⟩ := ih (by omega)
    obtain ⟨hheight, -, hplaced⟩ := h.chain (by omega)
    exact h.extend (by omega) hheight (hplaced _ le_rfl)

theorem validateTransactionCached_untimed {checks : ScriptChecks} {clock : UInt64} {u : UtxoSet} (f g : ℕ → UInt64)
    (hlock : tx.lockTime = 0) (hseq : ∀ i ∈ tx.inputs, i.sequence &&& 0x400000 = 0 ∨ i.sequence &&& 0x80000000 ≠ 0) :
    validateTransactionCached checks clock tx u height (some f) =
      validateTransactionCached checks clock tx u height (some g) := by
  have hlocks : ∀ i ∈ tx.inputs, ∀ c,
      sequenceLockMet (some f) height tx i c = sequenceLockMet (some g) height tx i c := by
    intro i hi c
    unfold sequenceLockMet
    rcases hseq i hi with hblocks | hoff
    · simp only [hblocks, ne_eq, not_true_eq_false, if_false]
    · rw [if_neg (fun h => hoff h.2), if_neg (fun h => hoff h.2)]
  have hinputs : ∀ amounts scripts index sum, ∀ inputs, (∀ i ∈ inputs, i ∈ tx.inputs) →
      validateInputs checks tx u height (some f) amounts scripts index sum inputs =
        validateInputs checks tx u height (some g) amounts scripts index sum inputs := by
    intro amounts scripts index sum inputs hsub
    induction inputs generalizing index sum with
    | nil => rfl
    | cons i rest ih =>
      obtain ⟨hi, hrest⟩ := List.forall_mem_cons.mp hsub
      simp only [validateInputs, hlocks i hi, ih _ _ hrest]
  have hmet : lockTimeMet clock (some f) height tx = lockTimeMet clock (some g) height tx := by
    unfold lockTimeMet
    rw [if_neg (fun h => h.1 hlock), if_neg (fun h => h.1 hlock)]
  simp only [validateTransactionCached, hmet, hinputs _ _ _ _ tx.inputs fun _ hi => hi]

theorem validateTransaction_ripe {s : NodeState} (hheight : s.height = 101) (hset : s.utxoSet = fundedSet)
    (hlock : tx.lockTime = 0) (hseq : ∀ i ∈ tx.inputs, i.sequence &&& 0x400000 = 0 ∨ i.sequence &&& 0x80000000 ≠ 0) :
    validateTransaction scriptNode s tx =
      validateTransactionCached scriptNode.checks 0 tx fundedSet 101 (some fun _ => 0) := by
  rw [validateTransaction, hheight, hset]
  exact validateTransactionCached_untimed _ _ hlock hseq

/-- A transaction that spends an output of the first block. -/
def spendFunding (script : List UInt8) (vout sequence : UInt32) (value : UInt64) : Transaction :=
  { version := 2
    inputs := [⟨⟨fundingTxid, vout⟩, [], sequence, ⟨[script]⟩⟩]
    outputs := [payTo openScript value]
    lockTime := 0 }

/-- The result of offering a transaction to a pool. -/
def offered (m : Mempool) (tx : Transaction) (fee : UInt64) : Mempool × Except String Unit :=
  m.addTransactionWithFee PoolEvictions.exactRates (PoolEvictions.callAt 1706900000) Sha256.runSha256 tx fee

end Run

end KuberCoin.RipeChains
