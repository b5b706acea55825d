import KuberCoin.UtxoCodec
import KuberCoin.Sessions

/-!
Snapshots of the UTXO set (crate `node`, `state`): writing one, importing one, and
what the commitment in it says about the set.
The commitment hashes the entries in order without the lengths of their scripts, so
two sets with one preimage are equal exactly when their scripts have equal lengths.
An import puts the tip, the height and the commitment into the store, but not the set.
-/
namespace KuberCoin.Snapshots

open Bytes Maps Transactions Blocks UtxoSets UtxoCodec Params Storage NodeStates
  NodeStates.NodeState AddBlock BlockEffects Runs Sessions

section Commitments

/-- The entries of a set in the order of the commitment. -/
def sortedEntries (u : UtxoSet) : List (OutPoint × UTXO) :=
  (sortedKeys OutPoint.rank OutPoint.rank_injective u).filterMap fun o =>
    (u.lookup o).map fun utxo => (o, utxo)

/-- The lengths of a set's scripts, in the order of the commitment. -/
def scriptLengths (u : UtxoSet) : List ℕ :=
  (sortedEntries u).map fun e => e.2.output.scriptPubkey.length

/-- Heights are 64-bit numbers. -/
def HeightsFit (u : UtxoSet) : Prop := ∀ o utxo, u.lookup o = some utxo → utxo.height < 2 ^ 64

theorem mem_sortedEntries (u : UtxoSet) (o : OutPoint) (utxo : UTXO) :
    (o, utxo) ∈ sortedEntries u ↔ u.lookup o = some utxo := by
  rw [sortedEntries, List.mem_filterMap]
  constructor
  · rintro ⟨o', -, h⟩
    obtain ⟨utxo', hlook, heq⟩ := Option.map_eq_some_iff.mp h
    obtain ⟨rfl, rfl⟩ := Prod.mk.inj heq
    exact hlook
  · intro hlook
    refine ⟨o, ?_, by rw [hlook]; rfl⟩
    rw [mem_sortedKeys, mem_iff_lookup]
    exact ⟨utxo, hlook⟩

theorem sortedEntries_lists (u : UtxoSet) : Lists u (sortedEntries u) where
  nodup := by
    have hkeys : (sortedEntries u).map Prod.fst =
        sortedKeys OutPoint.rank OutPoint.rank_injective u := by
      rw [sortedEntries, List.map_filterMap]
      refine (List.filterMap_congr ?_).trans List.filterMap_some
      intro o ho
      obtain ⟨utxo, hlook⟩ := (mem_iff_lookup u o).mp ((mem_sortedKeys _ _ u o).mp ho)
      rw [hlook]
      rfl
    rw [hkeys]
    exact sortedKeys_nodup _ _ u
  mem := mem_sortedEntries u

theorem sortedEntries_injective {u₁ u₂ : UtxoSet} (h : sortedEntries u₁ = sortedEntries u₂) : u₁ = u₂ := by
  apply Finmap.ext_lookup
  intro o
  apply Option.ext
  intro utxo
  rw [← mem_sortedEntries, ← mem_sortedEntries, h]

theorem commitmentBytes_eq (u : UtxoSet) :
    commitmentBytes u = (sortedEntries u).flatMap fun e => commitmentEntry e.1 e.2 := by
  unfold commitmentBytes sortedEntries
  generalize sortedKeys OutPoint.rank OutPoint.rank_injective u = keys
  induction keys with
  | nil => rfl
  | cons o rest ih =>
    rw [List.flatMap_cons, ih]
    cases hlook : u.lookup o with
    | none => simp [hlook]
    | some utxo => simp [hlook]

theorem commitmentEntry_length (o : OutPoint) (utxo : UTXO) :
    (commitmentEntry o utxo).length = utxo.output.scriptPubkey.length + 53 := by
  simp only [commitmentEntry, List.length_append, leBytes_length, o.txid.length_eq,
    List.length_singleton]
  omega

theorem commitmentEntry_injective {e₁ e₂ : OutPoint × UTXO} (h₁ : e₁.2.height < 2 ^ 64) (h₂ : e₂.2.height < 2 ^ 64)
    (hlen : e₁.2.output.scriptPubkey.length = e₂.2.output.scriptPubkey.length)
    (h : commitmentEntry e₁.1 e₁.2 = commitmentEntry e₂.1 e₂.2) : e₁ = e₂ := by
  obtain ⟨⟨txid₁, vout₁⟩, ⟨⟨value₁, script₁⟩, height₁, coinbase₁⟩⟩ := e₁
  obtain ⟨⟨txid₂, vout₂⟩, ⟨⟨value₂, script₂⟩, height₂, coinbase₂⟩⟩ := e₂
  unfold commitmentEntry at h
  obtain ⟨h, hflag⟩ := List.append_inj' h rfl
  obtain ⟨h, hheight⟩ := List.append_inj' h (by simp [leBytes_length])
  obtain ⟨h, hscript⟩ := List.append_inj' h hlen
  obtain ⟨h, hvalue⟩ := List.append_inj' h (by simp [leBytes_length])
  obtain ⟨htxid, hvout⟩ := List.append_inj' h (by simp [leBytes_length])
  have e₁ : txid₁ = txid₂ := Bytes32.ext_bytes htxid
  have e₂ : vout₁ = vout₂ :=
    UInt32.toNat_inj.mp (leBytes_injective vout₁.toNat_lt vout₂.toNat_lt hvout)
  have e₃ : value₁ = value₂ :=
    UInt64.toNat_inj.mp (leBytes_injective value₁.toNat_lt value₂.toNat_lt hvalue)
  have e₄ : height₁ = height₂ := leBytes_injective h₁ h₂ hheight
  have e₅ : coinbase₁ = coinbase₂ := by
    cases coinbase₁ <;> cases coinbase₂ <;> simp_all
  simp only at hscript
  rw [e₁, e₂, e₃, e₄, e₅, hscript]

/-- Equal preimages that are cut at the same places consist of equal entries. -/
theorem flatMap_commitmentEntry_injective {l₁ l₂ : List (OutPoint × UTXO)} (h₁ : ∀ e ∈ l₁, e.2.height < 2 ^ 64)
    (h₂ : ∀ e ∈ l₂, e.2.height < 2 ^ 64) (hlen : (l₁.map fun e => e.2.output.scriptPubkey.length) =
      l₂.map fun e => e.2.output.scriptPubkey.length)
    (h : (l₁.flatMap fun e => commitmentEntry e.1 e.2) = l₂.flatMap fun e => commitmentEntry e.1 e.2) : l₁ = l₂ := by
  induction l₁ generalizing l₂ with
  | nil =>
    cases l₂ with
    | nil => rfl
    | cons e₂ rest₂ => simp at hlen
  | cons e₁ rest₁ ih =>
    cases l₂ with
    | nil => simp at hlen
    | cons e₂ rest₂ =>
      rw [List.map_cons, List.map_cons] at hlen
      obtain ⟨hhead, htail⟩ := List.cons.inj hlen
      rw [List.flatMap_cons, List.flatMap_cons] at h
      obtain ⟨hentry, hrest⟩ := List.append_inj h (by
        rw [commitmentEntry_length, commitmentEntry_length, hhead])
      rw [List.forall_mem_cons] at h₁ h₂
      rw [commitmentEntry_injective h₁.1 h₂.1 hhead hentry, ih h₁.2 h₂.2 htail hrest]

theorem eq_of_commitmentBytes {u₁ u₂ : UtxoSet} (h₁ : HeightsFit u₁) (h₂ : HeightsFit u₂)
    (hbytes : commitmentBytes u₁ = commitmentBytes u₂) (hlen : scriptLengths u₁ = scriptLengths u₂) : u₁ = u₂ := by
  rw [commitmentBytes_eq, commitmentBytes_eq] at hbytes
  apply sortedEntries_injective
  refine flatMap_commitmentEntry_injective ?_ ?_ hlen hbytes
  · rintro ⟨o, utxo⟩ he
    exact h₁ o utxo ((mem_sortedEntries u₁ o utxo).mp he)
  · rintro ⟨o, utxo⟩ he
    exact h₂ o utxo ((mem_sortedEntries u₂ o utxo).mp he)

end Commitments

section Model

variable (cx : Context) (env : Env)

/-- The errors of `load_utxo_snapshot`; the last one stands for a slice out of range. -/
inductive SnapshotError where
  | tooShort
  | decompress
  | commitmentMismatch (expected actual : Bytes32)
  | storage
  | outOfRange
deriving DecidableEq

/-- The snapshot of a node, its entries in the order the hash map is iterated. -/
def dumpUtxoSnapshot (s : NodeState) (entries : List (OutPoint × UTXO)) : List UInt8 :=
  s.tip.bytes ++ leBytes 8 s.height ++ (commitmentHash cx.sha256 s.utxoSet).bytes ++
    compressUtxoSet entries

/-- Single puts in order, up to the first one that fails. -/
def putEach : NodeState → List WriteOp → Except SnapshotError Unit × NodeState
  | s, [] => (.ok (), s)
  | s, op :: rest =>
      match s.write env [op] with
      | none => (.error .storage, s)
      | some s' => putEach s' rest

def loadUtxoSnapshot (s : NodeState) (data : List UInt8) :
    Except SnapshotError Unit × NodeState :=
  if data.length < 72 then (.error .tooShort, s)
  else
    let tip := Bytes32.ofBytes (data.take 32)
    let height := leValue ((data.drop 32).take 8)
    let expected := Bytes32.ofBytes ((data.drop 40).take 32)
    match decompressUtxoSet (data.drop 72) with
    | .malformed => (.error .decompress, s)
    | .outOfRange => (.error .outOfRange, s)
    | .found utxo =>
        let actual := commitmentHash cx.sha256 utxo
        if expected ≠ actual then (.error (.commitmentMismatch expected actual), s)
        else
          putEach env { s with utxoSet := utxo, tip := tip, height := height }
            [.putTip tip, .putHeight height, .putUtxoHash actual]

end Model

section Imports

variable {cx : Context} {env : Env} {s s' : NodeState} {d : Disk} {tip : Bytes32} {u : UtxoSet}
  {entries : List (OutPoint × UTXO)}

theorem putEach_ok {ops : List WriteOp} (h : putEach env s ops = (.ok (), s')) :
    s' = { s with store := ⟨s.store.disk.applyBatch ops, s'.store.log⟩ } := by
  induction ops generalizing s with
  | nil =>
    obtain rfl : s = s' := (Prod.mk.inj h).2
    rfl
  | cons op rest ih =>
    unfold putEach at h
    cases hwrite : s.write env [op] with
    | none => simp [hwrite] at h
    | some s₁ =>
      rw [hwrite] at h
      have hrest := ih h
      unfold NodeState.write at hwrite
      split at hwrite
      · cases hwrite
        rw [hrest]
        rfl
      · cases hwrite

/-- What an accepted snapshot installs and writes. -/
theorem loadUtxoSnapshot_ok {data : List UInt8} (h : loadUtxoSnapshot cx env s data = (.ok (), s')) :
    ∃ utxo, decompressUtxoSet (data.drop 72) = .found utxo ∧
      Bytes32.ofBytes ((data.drop 40).take 32) = commitmentHash cx.sha256 utxo ∧
      s'.tip = Bytes32.ofBytes (data.take 32) ∧ s'.height = leValue ((data.drop 32).take 8) ∧
      s'.utxoSet = utxo ∧
      s'.store.disk = { s.store.disk with
        tip := some s'.tip
        height := some s'.height
        utxoHash := some (commitmentHash cx.sha256 utxo) } := by
  unfold loadUtxoSnapshot at h
  split at h
  · cases h
  · cases hset : decompressUtxoSet (data.drop 72) with
    | malformed => simp [hset] at h
    | outOfRange => simp [hset] at h
    | found utxo =>
      simp only [hset] at h
      split at h
      · cases h
      · rename_i hsame
        have hput := putEach_ok h
        refine ⟨utxo, rfl, not_not.mp hsame, ?_⟩
        rw [hput]
        exact ⟨rfl, rfl, rfl, rfl⟩

/-- Start-up on a store with a tip compares the stored commitment with the stored set. -/
theorem new_integrity {hash : Bytes32} (htip : d.tip = some tip) (hhash : d.utxoHash = some hash)
    (h : NodeState.new cx env d = .ok s) : hash = commitmentHash cx.sha256 (d.utxoSet.getD ∅) := by
  unfold NodeState.new at h
  simp only [htip, hhash, Option.any_some] at h
  split at h
  · cases h
  · rename_i hsame
    have hloaded : hash = commitmentHash cx.sha256 (load (blank d) tip).utxoSet := by
      simpa using hsame
    exact hloaded

theorem new_ok (htip : d.tip = some tip) (hhash : d.utxoHash = some (commitmentHash cx.sha256 (d.utxoSet.getD ∅)))
    (hwrites : ∀ log ops, env.writeOk log ops = true) : ∃ s, NodeState.new cx env d = .ok s := by
  have hsame : d.utxoHash.any
      (fun hash => hash ≠ commitmentHash cx.sha256 (load (blank d) tip).utxoSet) = false := by
    rw [hhash]
    simp [load, blank]
  have hgenesis : ∃ s, ensureGenesisBlockAvailable cx env (load (blank d) tip) = .ok s := by
    unfold ensureGenesisBlockAvailable NodeState.write
    simp only [hwrites, if_true]
    split
    next hnone => split at hnone <;> simp at hnone
    next => exact ⟨_, rfl⟩
  obtain ⟨s, hs⟩ := hgenesis
  unfold NodeState.new
  simp only [htip]
  rw [if_neg (by simpa using hsame), hs]
  exact ⟨_, rfl⟩

/-- Two sets with one preimage are equal exactly when their scripts have equal lengths, entry by
entry. Without a collision the same holds of a set that an import or start-up accepts and the
set that was committed to. -/
theorem commitment_identifies_iff {u₁ u₂ : UtxoSet} (h₁ : HeightsFit u₁) (h₂ : HeightsFit u₂) :
    (commitmentBytes u₁ = commitmentBytes u₂ →
      (u₁ = u₂ ↔ scriptLengths u₁ = scriptLengths u₂)) ∧
    ((commitmentHash cx.sha256 u₁ = commitmentHash cx.sha256 u₂ →
        commitmentBytes u₁ = commitmentBytes u₂) →
      (∀ s s' data, loadUtxoSnapshot cx env s data = (.ok (), s') →
        Bytes32.ofBytes ((data.drop 40).take 32) = commitmentHash cx.sha256 u₁ → s'.utxoSet = u₂ →
        (u₁ = u₂ ↔ scriptLengths u₁ = scriptLengths u₂)) ∧
      (∀ d tip s, d.tip = some tip → d.utxoHash = some (commitmentHash cx.sha256 u₁) →
        NodeState.new cx env d = .ok s → s.utxoSet = u₂ →
        (u₁ = u₂ ↔ scriptLengths u₁ = scriptLengths u₂))) := by
  have hpreimage : commitmentBytes u₁ = commitmentBytes u₂ →
      (u₁ = u₂ ↔ scriptLengths u₁ = scriptLengths u₂) := by
    intro hbytes
    constructor
    · rintro rfl
      rfl
    · exact eq_of_commitmentBytes h₁ h₂ hbytes
  refine ⟨hpreimage, fun hcollision => ⟨?_, ?_⟩⟩
  · intro s s' data hload hcommitted hset
    obtain ⟨utxo, -, hhash, -, -, hutxo, -⟩ := loadUtxoSnapshot_ok hload
    apply hpreimage
    apply hcollision
    rw [← hcommitted, hhash, ← hutxo, hset]
  · intro d tip s htip hcommitted hopen hset
    have hutxo := (new_reopened htip hopen).utxoSet
    apply hpreimage
    apply hcollision
    rw [new_integrity htip hcommitted hopen, ← hutxo, hset]

variable (cx) in
/-- What the machine types of the source promise about a node and its snapshot. -/
structure Representable (s : NodeState) (entries : List (OutPoint × UTXO)) : Prop where
  lists : Lists s.utxoSet entries
  heights : HeightsFit s.utxoSet
  height : s.height < 2 ^ 64
  length : (dumpUtxoSnapshot cx s entries).length < 2 ^ 64

/-- The set a snapshot with these entries reads back as. -/
def readBack (entries : List (OutPoint × UTXO)) : UtxoSet := insertAll ∅ (shortHeights entries)

theorem lookup_readBack (h : Lists u entries) (o : OutPoint) :
    (readBack entries).lookup o = (u.lookup o).map shortHeight := by
  have hkeys : ((shortHeights entries).map Prod.fst).Nodup := by
    rw [shortHeights, List.map_map]
    exact h.nodup
  have hback := (lists_insertAll hkeys).mem
  apply Option.ext
  intro utxo
  rw [readBack, ← hback, shortHeights, List.mem_map, Option.map_eq_some_iff]
  constructor
  · rintro ⟨⟨o', utxo'⟩, he, heq⟩
    obtain ⟨rfl, rfl⟩ := Prod.mk.inj heq
    exact ⟨utxo', (h.mem _ _).mp he, rfl⟩
  · rintro ⟨utxo', hlook, rfl⟩
    exact ⟨(o, utxo'), (h.mem _ _).mpr hlook, rfl⟩

theorem scriptLengths_readBack (h : Lists u entries) : scriptLengths (readBack entries) = scriptLengths u := by
  have hkeys : sortedKeys OutPoint.rank OutPoint.rank_injective (readBack entries) =
      sortedKeys OutPoint.rank OutPoint.rank_injective u := by
    apply sortedKeys_congr
    intro o
    rw [mem_iff_lookup, mem_iff_lookup, lookup_readBack h]
    cases u.lookup o with
    | none => simp
    | some utxo => simp
  unfold scriptLengths sortedEntries
  rw [hkeys, List.map_filterMap, List.map_filterMap]
  apply List.filterMap_congr
  intro o _
  rw [lookup_readBack h]
  cases u.lookup o with
  | none => rfl
  | some utxo => rfl

variable (cx) in
theorem dumpUtxoSnapshot_fields (s : NodeState) (entries : List (OutPoint × UTXO)) :
    let data := dumpUtxoSnapshot cx s entries
    Bytes32.ofBytes (data.take 32) = s.tip ∧ leValue ((data.drop 32).take 8) = s.height % 256 ^ 8 ∧
      Bytes32.ofBytes ((data.drop 40).take 32) = commitmentHash cx.sha256 s.utxoSet ∧
      data.drop 72 = compressUtxoSet entries := by
  intro data
  have hdata : data = s.tip.bytes ++ (leBytes 8 s.height ++
      ((commitmentHash cx.sha256 s.utxoSet).bytes ++ compressUtxoSet entries)) := by
    simp only [data, dumpUtxoSnapshot, List.append_assoc]
  have hdrop : ∀ m n, data.drop (m + n) = (data.drop m).drop n := fun m n => (List.drop_drop).symm
  have h32 : data.drop 32 = leBytes 8 s.height ++
      ((commitmentHash cx.sha256 s.utxoSet).bytes ++ compressUtxoSet entries) := by
    rw [hdata, List.drop_left' s.tip.length_eq]
  have h40 : data.drop 40 =
      (commitmentHash cx.sha256 s.utxoSet).bytes ++ compressUtxoSet entries := by
    rw [hdrop 32 8, h32, List.drop_left' (leBytes_length 8 _)]
  refine ⟨?_, ?_, ?_, ?_⟩
  · rw [hdata, List.take_left' s.tip.length_eq, Bytes32.ofBytes_bytes]
  · rw [h32, List.take_left' (leBytes_length 8 _), leValue_leBytes]
  · rw [h40, List.take_left' (commitmentHash cx.sha256 s.utxoSet).length_eq, Bytes32.ofBytes_bytes]
  · rw [hdrop 40 32, h40, List.drop_left' (commitmentHash cx.sha256 s.utxoSet).length_eq]

/-- An accepted snapshot gives the node the tip, height and set of the node that wrote it. The
top bit of a height is lost in the snapshot, which only a collision would hide from the
commitment. -/
theorem load_dump {A B B' : NodeState} (hA : Representable cx A entries)
    (hcollision : commitmentHash cx.sha256 (readBack entries) = commitmentHash cx.sha256 A.utxoSet →
      commitmentBytes (readBack entries) = commitmentBytes A.utxoSet)
    (hload : loadUtxoSnapshot cx env B (dumpUtxoSnapshot cx A entries) = (.ok (), B')) :
    B'.tip = A.tip ∧ B'.height = A.height ∧ B'.utxoSet = A.utxoSet ∧
      B'.store.disk = { B.store.disk with
        tip := some A.tip
        height := some A.height
        utxoHash := some (commitmentHash cx.sha256 A.utxoSet) } := by
  obtain ⟨utxo, hset, hhash, htip, hheight, hutxo, hdisk⟩ := loadUtxoSnapshot_ok hload
  obtain ⟨f₁, f₂, f₃, f₄⟩ := dumpUtxoSnapshot_fields cx A entries
  have hfit : (compressUtxoSet entries).length < 2 ^ 64 := by
    have := hA.length
    rw [dumpUtxoSnapshot, List.length_append] at this
    omega
  rw [f₄, decompressUtxoSet_entries hfit, Outcome.found.injEq] at hset
  rw [f₃, ← hset] at hhash
  have hback : HeightsFit (readBack entries) := by
    intro o c hc
    rw [lookup_readBack hA.lists, Option.map_eq_some_iff] at hc
    obtain ⟨c', -, rfl⟩ := hc
    exact lt_trans (Nat.mod_lt _ (by decide)) (by decide : 2 ^ 63 < 2 ^ 64)
  have hsame : readBack entries = A.utxoSet :=
    eq_of_commitmentBytes hback hA.heights (hcollision hhash.symm) (scriptLengths_readBack hA.lists)
  have hword : (256 : ℕ) ^ 8 = 2 ^ 64 := by norm_num
  have htip' : B'.tip = A.tip := htip.trans f₁
  have hheight' : B'.height = A.height := by
    rw [hheight, f₂, hword, Nat.mod_eq_of_lt hA.height]
  have hutxo' : utxo = A.utxoSet := hset.symm.trans hsame
  refine ⟨htip', hheight', hutxo.trans hutxo', ?_⟩
  rw [hdisk, htip', hheight', hutxo']

/-- After an accepted import, the node and the node re-opened on its store both have the tip,
height and set of the node that wrote the snapshot, exactly when that set was in the store
before. -/
theorem snapshot_durable_iff {A B B' : NodeState} {entries : List (OutPoint × UTXO)} (hA : Representable cx A entries)
    (hcollision : commitmentHash cx.sha256 (readBack entries) = commitmentHash cx.sha256 A.utxoSet →
      commitmentBytes (readBack entries) = commitmentBytes A.utxoSet)
    (hload : loadUtxoSnapshot cx env B (dumpUtxoSnapshot cx A entries) = (.ok (), B')) {later : Env}
    (hwrites : ∀ log ops, later.writeOk log ops = true) :
    ((B'.tip = A.tip ∧ B'.height = A.height ∧ B'.utxoSet = A.utxoSet) ∧
      ∃ C, NodeState.new cx later B'.store.disk = .ok C ∧
        C.tip = A.tip ∧ C.height = A.height ∧ C.utxoSet = A.utxoSet) ↔
      B.store.disk.utxoSet.getD ∅ = A.utxoSet := by
  obtain ⟨htip, hheight, hutxo, hdisk⟩ := load_dump hA hcollision hload
  have hstored : B'.store.disk.utxoSet = B.store.disk.utxoSet := by rw [hdisk]
  have hdiskTip : B'.store.disk.tip = some A.tip := by rw [hdisk]
  have hdiskHeight : B'.store.disk.height = some A.height := by rw [hdisk]
  have hdiskHash : B'.store.disk.utxoHash = some (commitmentHash cx.sha256 A.utxoSet) := by
    rw [hdisk]
  constructor
  · rintro ⟨-, C, hopen, -, -, hset⟩
    rw [← hset, (new_reopened hdiskTip hopen).utxoSet, hstored]
  · intro hsame
    have hcommitted : B'.store.disk.utxoHash =
        some (commitmentHash cx.sha256 (B'.store.disk.utxoSet.getD ∅)) := by
      rw [hdiskHash, hstored, hsame]
    obtain ⟨C, hopen⟩ := new_ok hdiskTip hcommitted hwrites
    have hC := new_reopened hdiskTip hopen
    refine ⟨⟨htip, hheight, hutxo⟩, C, hopen, hC.tip, ?_, ?_⟩
    · rw [hC.height, hdiskHeight]
      rfl
    · rw [hC.utxoSet, hstored, hsame]

end Imports

section Sets

theorem heightsFit_of_all {u : UtxoSet} (h : ((sortedEntries u).all fun e => e.2.height < 2 ^ 64) = true) :
    HeightsFit u := by
  intro o utxo hlook
  have hmem := (mem_sortedEntries u o utxo).mpr hlook
  exact of_decide_eq_true (List.all_eq_true.mp h _ hmem)

/-- Two outputs with short scripts. -/
def splitSet : UtxoSet :=
  ((∅ : UtxoSet).insert ⟨Bytes32.zero, 0⟩ ⟨⟨1, [0x51]⟩, 5, false⟩).insert ⟨Bytes32.zero, 1⟩
    ⟨⟨2, [0x52]⟩, 7, true⟩

/-- One output whose script holds everything between the scripts of the two. -/
def mergedSet : UtxoSet :=
  (∅ : UtxoSet).insert ⟨Bytes32.zero, 0⟩
    ⟨⟨1, [0x51] ++ leBytes 8 5 ++ [0] ++ Bytes32.zero.bytes ++ leBytes 4 1 ++ leBytes 8 2 ++ [0x52]⟩,
      7, true⟩

theorem splitSet_identified_iff : HeightsFit splitSet ∧ HeightsFit mergedSet ∧
      (splitSet = mergedSet ↔ scriptLengths splitSet = scriptLengths mergedSet) := by
  have hsplit : HeightsFit splitSet := heightsFit_of_all (by decide +kernel)
  have hmerged : HeightsFit mergedSet := heightsFit_of_all (by decide +kernel)
  have hidentified := @commitment_identifies_iff regtest today splitSet mergedSet hsplit hmerged
  exact ⟨hsplit, hmerged, hidentified.1 (by decide +kernel)⟩

/-- The two sets have one preimage, and a snapshot that carries the commitment of the first and
the entries of the second is imported. -/
theorem merged_set_imported : HeightsFit splitSet ∧ HeightsFit mergedSet ∧
      commitmentBytes splitSet = commitmentBytes mergedSet ∧ splitSet ≠ mergedSet ∧
      ∃ s s' calls data, Run regtest s calls ∧
        loadUtxoSnapshot regtest today s data = (.ok (), s') ∧
        Bytes32.ofBytes ((data.drop 40).take 32) = commitmentHash Sha256.sha256 splitSet ∧
        s'.utxoSet = mergedSet := by
  have hsplit : HeightsFit splitSet := heightsFit_of_all (by decide +kernel)
  have hmerged : HeightsFit mergedSet := heightsFit_of_all (by decide +kernel)
  set data := Bytes32.zero.bytes ++ leBytes 8 7 ++
    (commitmentHash Sha256.sha256 splitSet).bytes ++ compressUtxoSet (sortedEntries mergedSet) with hdata
  have hevaluated : ((nodeAfter regtest today 2 []).any fun s =>
      decide ((loadUtxoSnapshot regtest today s data).1 = .ok () ∧
        Bytes32.ofBytes ((data.drop 40).take 32) = commitmentHash Sha256.sha256 splitSet ∧
        (loadUtxoSnapshot regtest today s data).2.utxoSet = mergedSet)) = true := by
    rw [hdata, ← runRegtest_eq, ← Sha256.runSha256_eq]
    decide +kernel
  clear_value data
  obtain ⟨s, hs, hstate⟩ := Option.any_eq_true _ _ |>.mp hevaluated
  obtain ⟨hok, hcommitted, hset⟩ := of_decide_eq_true hstate
  obtain ⟨calls, hrun⟩ := run_nodeAfter hs
  exact ⟨hsplit, hmerged, by decide +kernel, by decide +kernel, s, _, calls, data, hrun,
    Prod.ext hok rfl, hcommitted, hset⟩

/-- A block whose coinbase pays one output. -/
def payingBlock : Block :=
  childOf regtest.genesis [{ emptyCoinbase with outputs := [⟨5000000000, [0x51]⟩] }] 1

/-- A node that imports its own snapshot can be opened again. -/
theorem own_snapshot_durable : ∃ A A' calls, Run regtest A calls ∧ A.height = 1 ∧
      loadUtxoSnapshot regtest today A (dumpUtxoSnapshot regtest A (sortedEntries A.utxoSet)) =
        (.ok (), A') ∧
      ∃ C, NodeState.new regtest today A'.store.disk = .ok C ∧
        C.tip = A.tip ∧ C.height = A.height ∧ C.utxoSet = A.utxoSet := by
  have hevaluated : ((nodeAfter regtest today 2 [payingBlock]).any fun A =>
      let data := dumpUtxoSnapshot regtest A (sortedEntries A.utxoSet)
      ((sortedEntries A.utxoSet).all fun e => e.2.height < 2 ^ 64) &&
        decide (A.height = 1 ∧ data.length < 2 ^ 64 ∧
          (loadUtxoSnapshot regtest today A data).1 = .ok () ∧
          readBack (sortedEntries A.utxoSet) = A.utxoSet ∧
          A.store.disk.utxoSet.getD ∅ = A.utxoSet)) = true := by
    unfold payingBlock
    rw [← runChildOf_eq, ← runRegtest_eq]
    decide +kernel
  obtain ⟨A, hA, hstate⟩ := Option.any_eq_true _ _ |>.mp hevaluated
  simp only [Bool.and_eq_true, decide_eq_true_eq] at hstate
  obtain ⟨hheights, hheight, hlength, hok, hback, hstored⟩ := hstate
  obtain ⟨calls, hrun⟩ := run_nodeAfter hA
  have hload : loadUtxoSnapshot regtest today A
      (dumpUtxoSnapshot regtest A (sortedEntries A.utxoSet)) = (.ok (), _) := Prod.ext hok rfl
  have hrepresentable : Representable regtest A (sortedEntries A.utxoSet) :=
    ⟨sortedEntries_lists _, heightsFit_of_all hheights, by omega, hlength⟩
  have hdurable := (snapshot_durable_iff hrepresentable (fun _ => by rw [hback]) hload
    (fun _ _ => rfl : ∀ log ops, today.writeOk log ops = true)).mpr hstored
  exact ⟨A, _, calls, hrun, hheight, hload, hdurable.2⟩

def openingError : Except InitError NodeState → Option InitError
  | .error e => some e
  | .ok _ => none

theorem openingError_eq_some {r : Except InitError NodeState} {e : InitError} :
    openingError r = some e ↔ r = .error e := by
  cases r with
  | error e' => exact ⟨fun h => congrArg _ (Option.some.inj h), fun h => congrArg some (Except.error.inj h)⟩
  | ok s => exact ⟨fun h => (Option.some_ne_none e h.symm).elim, fun h => nomatch h⟩

/-- The import succeeds, but the store keeps the old set next to the new commitment, so it
cannot be opened again. -/
theorem imported_store_unopenable : ∃ A B B' callsA callsB, Run regtest A callsA ∧ Run regtest B callsB ∧
      Representable regtest A (sortedEntries A.utxoSet) ∧
      loadUtxoSnapshot regtest today B (dumpUtxoSnapshot regtest A (sortedEntries A.utxoSet)) =
        (.ok (), B') ∧
      NodeState.new regtest today B'.store.disk = .error .utxoIntegrity := by
  have hevaluated : ((nodeAfter regtest today 2 [payingBlock]).any fun A =>
      (nodeAfter regtest today 2 []).any fun B =>
        let data := dumpUtxoSnapshot regtest A (sortedEntries A.utxoSet)
        let loaded := loadUtxoSnapshot regtest today B data
        ((sortedEntries A.utxoSet).all fun e => e.2.height < 2 ^ 64) &&
          decide (A.height < 2 ^ 64 ∧ data.length < 2 ^ 64 ∧ loaded.1 = .ok ()) &&
          decide (openingError (NodeState.new regtest today loaded.2.store.disk) = some .utxoIntegrity)) = true := by
    unfold payingBlock
    rw [← runChildOf_eq, ← runRegtest_eq]
    decide +kernel
  obtain ⟨A, hA, hafter⟩ := Option.any_eq_true _ _ |>.mp hevaluated
  obtain ⟨B, hB, hstate⟩ := Option.any_eq_true _ _ |>.mp hafter
  simp only [Bool.and_eq_true, decide_eq_true_eq] at hstate
  obtain ⟨⟨hheights, hheight, hlength, hok⟩, hopen⟩ := hstate
  obtain ⟨callsA, hrunA⟩ := run_nodeAfter hA
  obtain ⟨callsB, hrunB⟩ := run_nodeAfter hB
  refine ⟨A, B, _, callsA, callsB, hrunA, hrunB,
    ⟨sortedEntries_lists _, heightsFit_of_all hheights, hheight, hlength⟩, Prod.ext hok rfl, ?_⟩
  exact openingError_eq_some.mp hopen

end Sets

end KuberCoin.Snapshots
