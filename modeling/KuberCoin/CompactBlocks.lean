import KuberCoin.Blocks
import KuberCoin.Maps
import KuberCoin.Sha256

/-!
Compact blocks (crate `chain`, BIP-152). A sender names the transactions of a block by short
ids, except some that it sends in full; their positions are written as gaps. A receiver puts
the full ones into a row of empty slots and fills the empty slots that are left from its pool,
in the order of the short ids.
-/
namespace KuberCoin.CompactBlocks

open Bytes Maps Transactions Blocks

section SipHash

/-- The four words of the SipHash state. -/
structure SipState where
  v0 : UInt64
  v1 : UInt64
  v2 : UInt64
  v3 : UInt64

/-- `u64::rotate_left`. -/
def rotateLeft (x : UInt64) (n : UInt64) : UInt64 := (x <<< n) ||| (x >>> (64 - n))

def sipRound (s : SipState) : SipState :=
  let v0 := s.v0 + s.v1
  let v1 := rotateLeft s.v1 13 ^^^ v0
  let v0 := rotateLeft v0 32
  let v2 := s.v2 + s.v3
  let v3 := rotateLeft s.v3 16 ^^^ v2
  let v0 := v0 + v3
  let v3 := rotateLeft v3 21 ^^^ v0
  let v2 := v2 + v1
  let v1 := rotateLeft v1 17 ^^^ v2
  let v2 := rotateLeft v2 32
  ⟨v0, v1, v2, v3⟩

/-- Two rounds around one word of the message. -/
def sipWord (s : SipState) (m : UInt64) : SipState :=
  let s := sipRound (sipRound { s with v3 := s.v3 ^^^ m })
  { s with v0 := s.v0 ^^^ m }

/-- The words of the message: eight bytes each, the last one with the length on top. -/
def sipWords (length : ℕ) : ℕ → List UInt8 → List UInt64
  | 0, remainder => [UInt64.ofNat (length % 256 * 2 ^ 56 + leValue remainder)]
  | chunks + 1, data => UInt64.ofNat (leValue (data.take 8)) :: sipWords length chunks (data.drop 8)

def siphash24 (data key : List UInt8) : List UInt8 :=
  let k0 := UInt64.ofNat (leValue (key.take 8))
  let k1 := UInt64.ofNat (leValue ((key.drop 8).take 8))
  let start : SipState :=
    ⟨0x736f6d6570736575 ^^^ k0, 0x646f72616e646f6d ^^^ k1, 0x6c7967656e657261 ^^^ k0, 0x7465646279746573 ^^^ k1⟩
  let s := (sipWords data.length (data.length / 8) data).foldl sipWord start
  let s := sipRound (sipRound (sipRound (sipRound { s with v2 := s.v2 ^^^ 0xff })))
  leBytes 8 (s.v0 ^^^ s.v1 ^^^ s.v2 ^^^ s.v3).toNat

end SipHash

/-- A short transaction id of six bytes. -/
structure ShortTxId where
  bytes : List UInt8
  length_eq : bytes.length = 6
deriving DecidableEq

/-- A transaction sent in full; the index counts from the one after the last such transaction. -/
structure PrefilledTransaction where
  index : UInt64
  tx : List UInt8

structure CompactBlock where
  header : BlockHeader
  nonce : UInt64
  shortIds : List ShortTxId
  prefilledTxs : List PrefilledTransaction

inductive CompactBlockError where
  | invalidShortTxId
  | invalidPrefilledIndex
  | duplicateShortTxId
  | missingTransactions
  | invalidBlockHeader
  | invalidNonce
deriving DecidableEq

/-- What a pool holds under short ids. -/
abbrev ShortPool := Map ShortTxId (List UInt8)

section Sender

variable (sha256 : Sha256)

def calculateKey (header : BlockHeader) (nonce : UInt64) : List UInt8 :=
  (sha256 (header.prevHash.bytes ++ header.merkleRoot.bytes ++ leBytes 8 header.timestamp.toNat ++
    leBytes 4 header.bits.toNat ++ leBytes 8 header.nonce.toNat ++ leBytes 8 nonce.toNat)).bytes.take 16

def calculateShortTxid (tx key : List UInt8) : ShortTxId :=
  ⟨(siphash24 (sha256 tx).bytes key).take 6, by simp [siphash24, leBytes_length]⟩

/-- The transactions sent in full: those asked for, and the coinbase. -/
def Prefilled (prefilledIndices : List ℕ) (i : ℕ) : Prop := i = 0 ∨ i ∈ prefilledIndices

instance (prefilledIndices : List ℕ) (i : ℕ) : Decidable (Prefilled prefilledIndices i) :=
  inferInstanceAs (Decidable (_ ∨ _))

/-- The loop of `new` from position `i` on; `last` is one after the last prefilled position. -/
def shorten (key : List UInt8) (prefilledIndices : List ℕ) (i : ℕ) (last : UInt64) :
    List (List UInt8) → List ShortTxId × List PrefilledTransaction
  | [] => ([], [])
  | tx :: rest =>
      if Prefilled prefilledIndices i then
        let diffIndex := saturatingSub (UInt64.ofNat i) last
        let r := shorten key prefilledIndices (i + 1) (saturatingAdd (UInt64.ofNat i) 1) rest
        (r.1, ⟨diffIndex, tx⟩ :: r.2)
      else
        let r := shorten key prefilledIndices (i + 1) last rest
        (calculateShortTxid sha256 tx key :: r.1, r.2)

def CompactBlock.new (header : BlockHeader) (nonce : UInt64) (transactions : List (List UInt8))
    (prefilledIndices : List ℕ) : Except CompactBlockError CompactBlock :=
  let key := calculateKey sha256 header nonce
  let r := shorten sha256 key prefilledIndices 0 0 transactions
  .ok ⟨header, nonce, r.1, r.2⟩

end Sender

section Receiver

def maxBlockTxs : ℕ := 25000

/-- Put the prefilled transactions into their slots. -/
def placePrefilled (slots : List (List UInt8)) (index : UInt64) :
    List PrefilledTransaction → Except CompactBlockError (List (List UInt8))
  | [] => .ok slots
  | prefilled :: rest =>
      let index := index + prefilled.index
      if slots.length ≤ index.toNat then .error .invalidPrefilledIndex
      else placePrefilled (slots.set index.toNat prefilled.tx) (index + 1) rest

/-- Fill the empty slots from the pool. -/
def fillSlots (mempool : ShortPool) :
    List (List UInt8) → List ShortTxId → Except CompactBlockError (List (List UInt8))
  | [], _ => .ok []
  | [] :: _, [] => .error .missingTransactions
  | [] :: rest, shortId :: shortIds =>
      match mempool.lookup shortId with
      | some tx => (fillSlots mempool rest shortIds).map (tx :: ·)
      | none => .error .missingTransactions
  | tx :: rest, shortIds => (fillSlots mempool rest shortIds).map (tx :: ·)

def CompactBlock.reconstruct (c : CompactBlock) (mempool : ShortPool) :
    Except CompactBlockError (List (List UInt8)) :=
  let totalTxs := c.shortIds.length + c.prefilledTxs.length
  if maxBlockTxs < totalTxs then .error .invalidPrefilledIndex
  else
    match placePrefilled (List.replicate totalTxs []) 0 c.prefilledTxs with
    | .error e => .error e
    | .ok slots => fillSlots mempool slots c.shortIds

/-- Mark the prefilled slots; an index out of range marks none. -/
def markPrefilled (marks : List Bool) (index : UInt64) : List PrefilledTransaction → List Bool
  | [] => marks
  | prefilled :: rest =>
      let index := index + prefilled.index
      markPrefilled (marks.set index.toNat true) (index + 1) rest

/-- The next slot that is not prefilled. -/
def nextFree (marks : List Bool) (index : ℕ) : ℕ := index + ((marks.drop index).takeWhile id).length

def missingFrom (mempool : ShortPool) (marks : List Bool) (index : ℕ) : List ShortTxId → List ℕ
  | [] => []
  | shortId :: shortIds =>
      let slot := nextFree marks index
      if (mempool.lookup shortId).isSome then missingFrom mempool marks (slot + 1) shortIds
      else slot :: missingFrom mempool marks (slot + 1) shortIds

def CompactBlock.getMissingIndices (c : CompactBlock) (mempool : ShortPool) : List ℕ :=
  let total := c.shortIds.length + c.prefilledTxs.length
  if maxBlockTxs < total then []
  else missingFrom mempool (markPrefilled (List.replicate total false) 0 c.prefilledTxs) 0 c.shortIds

end Receiver

section RoundTrip

variable (sha256 : Sha256) (key : List UInt8) (prefilledIndices : List ℕ) {i : ℕ} {last : UInt64} {marks : List Bool}

/-- The slots once the prefilled transactions are in place. -/
def blanked (txs : List (List UInt8 × ℕ)) : List (List UInt8) :=
  txs.map fun p => if Prefilled prefilledIndices p.2 then p.1 else []

theorem blanked_cons (tx : List UInt8) (i : ℕ) (rest : List (List UInt8 × ℕ)) :
    blanked prefilledIndices ((tx, i) :: rest) =
      (if Prefilled prefilledIndices i then tx else []) :: blanked prefilledIndices rest := rfl

/-- The positions of the transactions that are neither prefilled nor known to the pool. -/
def absent (mempool : ShortPool) (txs : List (List UInt8 × ℕ)) : List ℕ :=
  (txs.filter fun p => ¬ Prefilled prefilledIndices p.2 ∧
    mempool.lookup (calculateShortTxid sha256 p.1 key) = none).map Prod.snd

variable {sha256 key prefilledIndices} {mempool : ShortPool} {txs : List (List UInt8)}

theorem toNat_position (hi : i < 2 ^ 64) : (UInt64.ofNat i).toNat = i := UInt64.toNat_ofNat_of_lt' hi

theorem add_diffIndex (hlast : last.toNat ≤ i) (hi : i < 2 ^ 64) :
    last + saturatingSub (UInt64.ofNat i) last = UInt64.ofNat i := by
  apply UInt64.toNat.inj
  rw [UInt64.toNat_add, saturatingSub_toNat, toNat_position hi]
  omega

theorem next_prefilled (hi : i + 1 < 2 ^ 64) : saturatingAdd (UInt64.ofNat i) 1 = UInt64.ofNat i + 1 := by
  unfold saturatingAdd
  rw [toNat_position (by omega), if_pos (by simpa using hi)]

theorem toNat_next (hi : i + 1 < 2 ^ 64) : (UInt64.ofNat i + 1).toNat = i + 1 := by
  rw [UInt64.toNat_add, toNat_position (by omega)]
  exact Nat.mod_eq_of_lt hi

theorem shorten_length (i : ℕ) (last : UInt64) : (shorten sha256 key prefilledIndices i last txs).1.length +
      (shorten sha256 key prefilledIndices i last txs).2.length = txs.length := by
  induction txs generalizing i last with
  | nil => rfl
  | cons tx rest ih =>
    unfold shorten
    split
    · have := ih (i + 1) (saturatingAdd (UInt64.ofNat i) 1)
      simp only [List.length_cons]
      omega
    · have := ih (i + 1) last
      simp only [List.length_cons]
      omega

theorem placePrefilled_shorten {done : List (List UInt8)} {i : ℕ} {last : UInt64} (hdone : done.length = i)
    (hlast : last.toNat ≤ i) (hbound : i + txs.length < 2 ^ 64) :
    placePrefilled (done ++ List.replicate txs.length []) last
        (shorten sha256 key prefilledIndices i last txs).2 =
      .ok (done ++ blanked prefilledIndices (txs.zipIdx i)) := by
  induction txs generalizing done i last with
  | nil => rfl
  | cons tx rest ih =>
    rw [List.length_cons] at hbound
    unfold shorten
    split
    next hprefilled =>
      have hslot : (done ++ List.replicate (tx :: rest).length []).set i tx =
          (done ++ [tx]) ++ List.replicate rest.length [] := by
        rw [List.length_cons, List.replicate_succ, List.set_append_right _ _ (by omega), hdone, Nat.sub_self,
          List.set_cons_zero, List.append_assoc, List.singleton_append]
      have hinside : ¬ (done ++ List.replicate (tx :: rest).length ([] : List UInt8)).length ≤ i := by
        rw [List.length_append, List.length_replicate, List.length_cons]
        omega
      simp only [placePrefilled]
      rw [add_diffIndex hlast (by omega), toNat_position (by omega), if_neg hinside, hslot,
        next_prefilled (by omega), ih (by rw [List.length_append, hdone]; rfl) (by rw [toNat_next (by omega)])
          (by omega), List.zipIdx_cons, blanked_cons, if_pos hprefilled, List.append_assoc]
      rfl
    next hprefilled =>
      have hslots : done ++ List.replicate (tx :: rest).length [] =
          (done ++ [[]]) ++ List.replicate rest.length ([] : List UInt8) := by
        rw [List.length_cons, List.replicate_succ, List.append_assoc, List.singleton_append]
      rw [hslots, ih (by rw [List.length_append, hdone]; rfl) (by omega) (by omega), List.zipIdx_cons,
        blanked_cons, if_neg hprefilled, List.append_assoc]
      rfl

theorem markPrefilled_shorten {done : List Bool} {i : ℕ} {last : UInt64} (hdone : done.length = i)
    (hlast : last.toNat ≤ i) (hbound : i + txs.length < 2 ^ 64) :
    markPrefilled (done ++ List.replicate txs.length false) last
        (shorten sha256 key prefilledIndices i last txs).2 =
      done ++ (txs.zipIdx i).map fun p => decide (Prefilled prefilledIndices p.2) := by
  induction txs generalizing done i last with
  | nil => rfl
  | cons tx rest ih =>
    rw [List.length_cons] at hbound
    unfold shorten
    split
    next hprefilled =>
      have hslot : (done ++ List.replicate (tx :: rest).length false).set i true =
          (done ++ [true]) ++ List.replicate rest.length false := by
        rw [List.length_cons, List.replicate_succ, List.set_append_right _ _ (by omega), hdone, Nat.sub_self,
          List.set_cons_zero, List.append_assoc, List.singleton_append]
      simp only [markPrefilled]
      rw [add_diffIndex hlast (by omega), toNat_position (by omega), hslot, next_prefilled (by omega),
        ih (by rw [List.length_append, hdone]; rfl) (by rw [toNat_next (by omega)]) (by omega), List.zipIdx_cons,
        List.map_cons, decide_eq_true hprefilled, List.append_assoc]
      rfl
    next hprefilled =>
      have hslots : done ++ List.replicate (tx :: rest).length false =
          (done ++ [false]) ++ List.replicate rest.length false := by
        rw [List.length_cons, List.replicate_succ, List.append_assoc, List.singleton_append]
      rw [hslots, ih (by rw [List.length_append, hdone]; rfl) (by omega) (by omega), List.zipIdx_cons,
        List.map_cons, decide_eq_false hprefilled, List.append_assoc]
      rfl

theorem fillSlots_cons_of_ne {tx : List UInt8} (htx : tx ≠ []) (rest : List (List UInt8)) (shortIds : List ShortTxId) :
    fillSlots mempool (tx :: rest) shortIds = (fillSlots mempool rest shortIds).map (tx :: ·) := by
  cases tx with
  | nil => exact absurd rfl htx
  | cons byte bytes => rfl

theorem fillSlots_known (hne : ∀ tx ∈ txs, tx ≠ []) (hknown : ∀ p ∈ txs.zipIdx i, ¬ Prefilled prefilledIndices p.2 →
      mempool.lookup (calculateShortTxid sha256 p.1 key) = some p.1) :
    fillSlots mempool (blanked prefilledIndices (txs.zipIdx i))
      (shorten sha256 key prefilledIndices i last txs).1 = .ok txs := by
  induction txs generalizing i last with
  | nil => rfl
  | cons tx rest ih =>
    rw [List.zipIdx_cons, List.forall_mem_cons] at hknown
    rw [List.forall_mem_cons] at hne
    rw [List.zipIdx_cons, blanked_cons]
    unfold shorten
    split
    · rw [fillSlots_cons_of_ne hne.1, ih hne.2 hknown.2]
      rfl
    next hprefilled =>
      simp only [fillSlots]
      rw [hknown.1 hprefilled, ih hne.2 hknown.2]
      rfl

theorem fillSlots_succeeds_iff (hne : ∀ tx ∈ txs, tx ≠ []) :
    (∃ filled, fillSlots mempool (blanked prefilledIndices (txs.zipIdx i))
      (shorten sha256 key prefilledIndices i last txs).1 = .ok filled) ↔
      absent sha256 key prefilledIndices mempool (txs.zipIdx i) = [] := by
  induction txs generalizing i last with
  | nil => exact ⟨fun _ => rfl, fun _ => ⟨[], rfl⟩⟩
  | cons tx rest ih =>
    rw [List.forall_mem_cons] at hne
    have hmap : ∀ (r : Except CompactBlockError (List (List UInt8))) (first : List UInt8),
        (∃ filled, r.map (first :: ·) = .ok filled) ↔ ∃ filled, r = .ok filled := by
      intro r first
      cases r with
      | error e => simp [Except.map]
      | ok filled => simp [Except.map]
    rw [List.zipIdx_cons, blanked_cons]
    unfold shorten absent
    rw [List.filter_cons]
    split
    next hprefilled =>
      rw [fillSlots_cons_of_ne hne.1, hmap, ih hne.2, if_neg (by simp [hprefilled])]
      rfl
    next hprefilled =>
      simp only [fillSlots]
      cases hlookup : mempool.lookup (calculateShortTxid sha256 tx key) with
      | none => simp [hprefilled]
      | some data =>
        simp only
        rw [hmap, ih hne.2, if_neg (by simp)]
        rfl

theorem missingFrom_skip {tail : List Bool} {index : ℕ} (hmarks : marks.drop index = true :: tail)
    (shortIds : List ShortTxId) :
    missingFrom mempool marks index shortIds = missingFrom mempool marks (index + 1) shortIds := by
  have htail : marks.drop (index + 1) = tail := by
    rw [← List.drop_drop, hmarks]
    rfl
  have hfree : nextFree marks index = nextFree marks (index + 1) := by
    unfold nextFree
    rw [hmarks, htail]
    simp only [List.takeWhile_cons, id_eq, if_true, List.length_cons]
    omega
  cases shortIds with
  | nil => rfl
  | cons shortId rest =>
    unfold missingFrom
    simp only [hfree]

theorem missingFrom_shorten
    (hmarks : marks.drop i = (txs.zipIdx i).map fun p => decide (Prefilled prefilledIndices p.2)) :
    missingFrom mempool marks i (shorten sha256 key prefilledIndices i last txs).1 =
      absent sha256 key prefilledIndices mempool (txs.zipIdx i) := by
  induction txs generalizing i last with
  | nil => rfl
  | cons tx rest ih =>
    rw [List.zipIdx_cons, List.map_cons] at hmarks
    have hrest : marks.drop (i + 1) = (rest.zipIdx (i + 1)).map fun p => decide (Prefilled prefilledIndices p.2) := by
      rw [← List.drop_drop, hmarks]
      rfl
    rw [List.zipIdx_cons]
    unfold shorten absent
    rw [List.filter_cons]
    split
    next hprefilled =>
      rw [decide_eq_true hprefilled] at hmarks
      rw [missingFrom_skip hmarks, ih hrest, if_neg (by simp [hprefilled])]
      rfl
    next hprefilled =>
      rw [decide_eq_false hprefilled] at hmarks
      have hfree : nextFree marks i = i := by
        unfold nextFree
        rw [hmarks]
        rfl
      simp only [missingFrom, hfree]
      cases hlookup : mempool.lookup (calculateShortTxid sha256 tx key) with
      | none =>
        rw [if_neg (by simp), ih hrest, if_pos (by simp [hprefilled])]
        rfl
      | some data =>
        rw [if_pos Option.isSome_some, ih hrest, if_neg (by simp)]
        rfl

/-- A compact block of non-empty transactions gives them back when the pool knows those that are not
prefilled; with any pool the missing positions are exactly those of the unknown ones, and there are
none exactly when the block is reconstructed. -/
theorem compact_block_round_trip (sha256 : Sha256) (header : BlockHeader) (nonce : UInt64)
    (transactions : List (List UInt8)) (prefilledIndices : List ℕ) (hcount : transactions.length ≤ 25000)
    (hne : ∀ tx ∈ transactions, tx ≠ []) :
    ∃ c, CompactBlock.new sha256 header nonce transactions prefilledIndices = .ok c ∧
      (∀ mempool : ShortPool, (∀ i tx, transactions[i]? = some tx → ¬ Prefilled prefilledIndices i →
          mempool.lookup (calculateShortTxid sha256 tx (calculateKey sha256 header nonce)) = some tx) →
        c.reconstruct mempool = .ok transactions) ∧
      ∀ mempool : ShortPool,
        c.getMissingIndices mempool = ((transactions.zipIdx).filter fun p => ¬ Prefilled prefilledIndices p.2 ∧
          mempool.lookup (calculateShortTxid sha256 p.1 (calculateKey sha256 header nonce)) = none).map Prod.snd ∧
        (c.getMissingIndices mempool = [] ↔ ∃ txs, c.reconstruct mempool = .ok txs) := by
  set r := shorten sha256 (calculateKey sha256 header nonce) prefilledIndices 0 0 transactions with hr
  refine ⟨⟨header, nonce, r.1, r.2⟩, rfl, ?_⟩
  have hlen := @shorten_length sha256 (calculateKey sha256 header nonce) prefilledIndices transactions 0 0
  have hsmall : ¬ maxBlockTxs < transactions.length := by
    unfold maxBlockTxs
    omega
  have hplace := @placePrefilled_shorten sha256 (calculateKey sha256 header nonce) prefilledIndices transactions []
    0 0 rfl (Nat.zero_le _) (by omega)
  have hmark := @markPrefilled_shorten sha256 (calculateKey sha256 header nonce) prefilledIndices transactions []
    0 0 rfl (Nat.zero_le _) (by omega)
  rw [List.nil_append, List.nil_append, ← hr] at hplace hmark
  rw [← hr] at hlen
  have hfill : ∀ mempool : ShortPool, CompactBlock.reconstruct ⟨header, nonce, r.1, r.2⟩ mempool =
      fillSlots mempool (blanked prefilledIndices transactions.zipIdx) r.1 := by
    intro mempool
    unfold CompactBlock.reconstruct
    simp only [hlen]
    rw [if_neg hsmall, hplace]
  have hmissing : ∀ mempool : ShortPool, CompactBlock.getMissingIndices ⟨header, nonce, r.1, r.2⟩ mempool =
      absent sha256 (calculateKey sha256 header nonce) prefilledIndices mempool transactions.zipIdx := by
    intro mempool
    unfold CompactBlock.getMissingIndices
    simp only [hlen]
    rw [if_neg hsmall, hmark]
    exact missingFrom_shorten rfl
  refine ⟨?_, ?_⟩
  · intro mempool hknown
    rw [hfill]
    apply fillSlots_known hne
    rintro ⟨tx, i⟩ hp hprefilled
    exact hknown i tx (List.mem_zipIdx_iff_getElem?.mp hp) hprefilled
  · intro mempool
    rw [hmissing, hfill]
    exact ⟨rfl, (fillSlots_succeeds_iff hne).symm⟩

def sampleHeader : BlockHeader := ⟨1, Bytes32.zero, Bytes32.zero, 1234567890, 0x1d00ffff, 12345, 0⟩

def sampleTransactions : List (List UInt8) := [[1, 2, 3], [4, 5, 6], [7, 8, 9], [10, 11]]

/-- A pool that knows the second transaction and the fourth. -/
def samplePool (sha256 : Sha256) : ShortPool :=
  let key := calculateKey sha256 sampleHeader 123456789
  ((∅ : ShortPool).insert (calculateShortTxid sha256 [4, 5, 6] key) [4, 5, 6]).insert
    (calculateShortTxid sha256 [10, 11] key) [10, 11]

/-- The third transaction is asked for twice, and a position that there is not. -/
theorem four_transactions_round_trip :
    ∃ c, CompactBlock.new Sha256.sha256 sampleHeader 123456789 sampleTransactions [2, 9, 2] = .ok c ∧
      c.reconstruct (samplePool Sha256.sha256) = .ok sampleTransactions ∧ c.getMissingIndices ∅ = [1, 3] ∧
      ∀ mempool : ShortPool, c.getMissingIndices mempool = [] ↔ ∃ txs, c.reconstruct mempool = .ok txs := by
  obtain ⟨c, hc, hknown, hmissing⟩ := compact_block_round_trip Sha256.sha256 sampleHeader 123456789
    sampleTransactions [2, 9, 2] (by decide) (by decide)
  have hpool : ∀ i < 4, ¬ Prefilled [2, 9, 2] i → (samplePool Sha256.sha256).lookup
      (calculateShortTxid Sha256.sha256 (sampleTransactions.getD i [])
        (calculateKey Sha256.sha256 sampleHeader 123456789)) = some (sampleTransactions.getD i []) := by
    rw [← Sha256.runSha256_eq]
    decide +kernel
  refine ⟨c, hc, hknown _ ?_, ?_, fun mempool => (hmissing mempool).2⟩
  · intro i tx htx hprefilled
    have hlt : i < 4 := (List.getElem?_eq_some_iff.mp htx).1
    have hfound := hpool i hlt hprefilled
    rwa [List.getD_eq_getElem?_getD, htx, Option.getD_some] at hfound
  · rw [(hmissing ∅).1]
    simp only [Finmap.lookup_empty]
    decide

end RoundTrip

end KuberCoin.CompactBlocks
