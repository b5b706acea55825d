import KuberCoin.Decoders
import KuberCoin.Transactions
import KuberCoin.Maps

/-!
Maps written as records of a key and a value, each behind its compact size, up to a zero
byte. A reader takes one record after the other and hands each to a function that enters it
into what was read so far; on the records that were written it ends with what the function
makes of them in order.
-/
namespace KuberCoin.Records

open Bytes Maps Transactions Decoders

section CompactSizes

def compactSize : Decoder ℕ
  | [] => none
  | b :: rest =>
      if b ≤ 0xfc then some (b.toNat, rest)
      else if b = 0xfd then uint 2 rest
      else if b = 0xfe then uint 4 rest
      else uint 8 rest

theorem reads_compactSize {n : ℕ} (h : n < 2 ^ 64) : Reads compactSize (writeCompactSize n) n := by
  intro rest
  unfold writeCompactSize
  split
  next hsmall =>
    have hbyte : (UInt8.ofNat n).toNat = n := by
      rw [UInt8.toNat_ofNat', Nat.mod_eq_of_lt (by omega)]
    have hle : UInt8.ofNat n ≤ 0xfc := by
      rw [UInt8.le_iff_toNat_le, hbyte]
      show n ≤ 252
      omega
    simp [compactSize, hle, hbyte]
  next =>
    split
    next => exact reads_uint (by omega) rest
    next =>
      split
      next => exact reads_uint (by omega) rest
      next => exact reads_uint (by omega) rest

theorem writeCompactSize_ne_nil (n : ℕ) : writeCompactSize n ≠ [] := by
  unfold writeCompactSize
  split <;> [skip; split <;> [skip; split]] <;> simp

/-- A size that is not zero does not begin with a zero byte. -/
theorem head_writeCompactSize {n : ℕ} (hpos : 0 < n) : (writeCompactSize n).head? ≠ some 0 := by
  unfold writeCompactSize
  split
  next hsmall =>
    simp only [List.head?_cons, ne_eq, Option.some.injEq]
    intro hzero
    have := congrArg UInt8.toNat hzero
    rw [UInt8.toNat_ofNat', Nat.mod_eq_of_lt (by omega)] at this
    exact hpos.ne' this
  next =>
    split
    next => simp
    next =>
      split
      next => simp
      next => simp

/-- Bytes behind their compact size. -/
def sized : Decoder (List UInt8) := compactSize >>= exactly

def writeSized (bytes : List UInt8) : List UInt8 := writeCompactSize bytes.length ++ bytes

theorem reads_sized {bytes : List UInt8} (h : bytes.length < 2 ^ 64) : Reads sized (writeSized bytes) bytes :=
  (reads_compactSize h).bind (reads_exactly bytes)

theorem length_lt_writeSized (bytes : List UInt8) : bytes.length < (writeSized bytes).length := by
  have := List.length_pos_iff.mpr (writeCompactSize_ne_nil bytes.length)
  simp only [writeSized, List.length_append]
  omega

end CompactSizes

section Lengths

variable {α : Type} {write : α → List UInt8}

theorem length_le_flatMap (hpos : ∀ a, 0 < (write a).length) (l : List α) : l.length ≤ (l.flatMap write).length := by
  induction l with
  | nil => simp
  | cons a l ih =>
    have := hpos a
    simp only [List.flatMap_cons, List.length_append, List.length_cons]
    omega

theorem length_le_flatMap_of_mem {l : List α} {a : α} (h : a ∈ l) : (write a).length ≤ (l.flatMap write).length := by
  induction l with
  | nil => simp at h
  | cons b l ih =>
    rw [List.flatMap_cons, List.length_append]
    rcases List.mem_cons.mp h with rfl | hmem
    · omega
    · have := ih hmem
      omega

end Lengths

section Loops

/-- A key and its value. -/
structure Record where
  key : List UInt8
  value : List UInt8
  deriving DecidableEq

def Record.write (r : Record) : List UInt8 := writeSized r.key ++ writeSized r.value

theorem Record.length_lt_write (r : Record) : r.key.length < r.write.length ∧ r.value.length < r.write.length := by
  have hkey := length_lt_writeSized r.key
  have hvalue := length_lt_writeSized r.value
  simp only [Record.write, List.length_append]
  omega

variable {σ ε : Type}

/-- The loop of a reader: `parse` finds the next record or the end of the map, and `absorb` enters a
record. Every record takes bytes, so their number is enough fuel. -/
def readRecords (parse : List UInt8 → Except ε (Option Record × List UInt8)) (absorb : σ → Record → Except ε σ) :
    ℕ → σ → List UInt8 → Except ε (σ × List UInt8)
  | 0, s, bytes => .ok (s, bytes)
  | fuel + 1, s, bytes => do
      let (next, rest) ← parse bytes
      match next with
      | none => return (s, rest)
      | some r => do
          let s' ← absorb s r
          readRecords parse absorb fuel s' rest

/-- The records of a map and the byte that ends it. -/
def writeRecords (records : List Record) : List UInt8 := records.flatMap Record.write ++ [0x00]

theorem length_lt_writeRecords (records : List Record) : records.length < (writeRecords records).length := by
  have hpos : ∀ r : Record, 0 < r.write.length := fun r => Nat.zero_lt_of_lt r.length_lt_write.1
  have hle := length_le_flatMap hpos records
  simp only [writeRecords, List.length_append, List.length_cons, List.length_nil]
  omega

theorem Record.length_le_writeRecords {records : List Record} {r : Record} (h : r ∈ records) :
    r.write.length ≤ (writeRecords records).length := by
  have := @length_le_flatMap_of_mem _ Record.write _ _ h
  simp only [writeRecords, List.length_append]
  omega

theorem readRecords_write {parse : List UInt8 → Except ε (Option Record × List UInt8)}
    {absorb : σ → Record → Except ε σ} {records : List Record} {s s' : σ} {fuel : ℕ}
    (hparse : ∀ r ∈ records, ∀ rest, parse (r.write ++ rest) = .ok (some r, rest))
    (hend : ∀ rest, parse (0x00 :: rest) = .ok (none, rest)) (habsorb : records.foldlM absorb s = .ok s')
    (hfuel : records.length < fuel) (rest : List UInt8) :
    readRecords parse absorb fuel s (writeRecords records ++ rest) = .ok (s', rest) := by
  induction records generalizing s fuel with
  | nil =>
    obtain ⟨fuel, rfl⟩ : ∃ n, fuel = n + 1 := ⟨fuel - 1, by simp at hfuel; omega⟩
    cases habsorb
    simp [readRecords, writeRecords, hend, bind, Except.bind, pure, Except.pure]
  | cons r records ih =>
    obtain ⟨fuel, rfl⟩ : ∃ n, fuel = n + 1 := ⟨fuel - 1, by simp at hfuel; omega⟩
    rw [List.foldlM_cons] at habsorb
    cases hmid : absorb s r with
    | error e =>
      rw [hmid] at habsorb
      cases habsorb
    | ok mid =>
      rw [hmid] at habsorb
      have hrest := ih (fun x hx => hparse x (List.mem_cons_of_mem r hx)) habsorb
        (by simpa using hfuel : records.length < fuel)
      have hbytes : writeRecords (r :: records) ++ rest = r.write ++ (writeRecords records ++ rest) := by
        simp [writeRecords]
      rw [hbytes, readRecords, hparse r List.mem_cons_self]
      show (absorb s r >>= fun s' => readRecords parse absorb fuel s' _) = _
      rw [hmid]
      exact hrest

/-- So many maps, one after the other. -/
def readMany {α : Type} (read : List UInt8 → Except ε (α × List UInt8)) :
    ℕ → List UInt8 → Except ε (List α × List UInt8)
  | 0, bytes => .ok ([], bytes)
  | n + 1, bytes => do
      let (a, rest) ← read bytes
      let (as, rest) ← readMany read n rest
      return (a :: as, rest)

theorem readMany_write {α β : Type} {read : List UInt8 → Except ε (α × List UInt8)} {write : β → List UInt8}
    {image : β → α} {values : List β} (h : ∀ b ∈ values, ∀ rest, read (write b ++ rest) = .ok (image b, rest))
    (rest : List UInt8) :
    readMany read values.length (values.flatMap write ++ rest) = .ok (values.map image, rest) := by
  induction values with
  | nil => rfl
  | cons b values ih =>
    have htail := ih fun x hx => h x (List.mem_cons_of_mem b hx)
    rw [List.flatMap_cons, List.append_assoc, List.length_cons, readMany, h b List.mem_cons_self]
    show (readMany read values.length _ >>= fun r => _) = _
    rw [htail]
    rfl

end Loops

section MapRecords

/-- The order in which the entries of a map are read. -/
structure MapOrder where
  iter : ∀ {K V : Type} [DecidableEq K], Map K V → List (K × V)
  lists : ∀ {K V : Type} [DecidableEq K] (m : Map K V), Lists m (iter m)

variable {order order' : MapOrder} {K V : Type} [DecidableEq K] {m : Map K V}

theorem MapOrder.iter_singleton {k : K} {v : V} (hone : m.keys.card ≤ 1) (hk : m.lookup k = some v) :
    order.iter m = [(k, v)] := by
  have hmem := ((order.lists m).mem k v).mpr hk
  have hall : ∀ e ∈ order.iter m, e = (k, v) := by
    intro e he
    have hlook := ((order.lists m).mem e.1 e.2).mp he
    have hkey : e.1 = k := Finset.card_le_one.mp hone e.1
      (Finmap.mem_keys.mpr (Finmap.mem_of_lookup_eq_some hlook)) k
      (Finmap.mem_keys.mpr (Finmap.mem_of_lookup_eq_some hk))
    rw [hkey, hk] at hlook
    exact Prod.ext hkey (Option.some.inj hlook).symm
  have hreplicate := List.eq_replicate_of_mem hall
  have hnodup : (order.iter m).Nodup := List.Nodup.of_map _ (order.lists m).nodup
  rw [hreplicate, List.nodup_replicate] at hnodup
  have hpos := List.length_pos_of_mem hmem
  rw [hreplicate, show (order.iter m).length = 1 from by omega]
  rfl

theorem MapOrder.iter_eq (hone : m.keys.card ≤ 1) : order.iter m = order'.iter m := by
  cases hiter : order.iter m with
  | nil =>
    cases hiter' : order'.iter m with
    | nil => rfl
    | cons e rest =>
      have hlook := ((order'.lists m).mem e.1 e.2).mp (by simp [hiter'])
      have := ((order.lists m).mem e.1 e.2).mpr hlook
      simp [hiter] at this
  | cons e rest =>
    have hlook := ((order.lists m).mem e.1 e.2).mp (by simp [hiter])
    rw [← hiter, iter_singleton hone hlook, iter_singleton hone hlook]

/-- Some order of the entries. -/
noncomputable def MapOrder.any : MapOrder where
  iter m := m.entries.toList.map fun e => (e.1, e.2)
  lists m :=
    { nodup := by
        have hkeys := m.nodupKeys
        rw [← m.entries.coe_toList, Multiset.coe_nodupKeys] at hkeys
        rw [List.map_map]
        exact hkeys
      mem := fun k v => by
        rw [List.mem_map]
        constructor
        · rintro ⟨⟨k', v'⟩, hmem, heq⟩
          cases heq
          exact Finmap.mem_lookup_iff.mpr (Multiset.mem_toList.mp hmem)
        · intro hlook
          exact ⟨⟨k, v⟩, Multiset.mem_toList.mpr (Finmap.mem_lookup_iff.mp hlook), rfl⟩ }

end MapRecords

section Groups

variable {σ ε : Type} {absorb : σ → Record → Except ε σ}

theorem foldlM_group {group : List Record} {groups : List (List Record)} {s s' s'' : σ}
    (hfirst : group.foldlM absorb s = .ok s') (hrest : groups.flatten.foldlM absorb s' = .ok s'') :
    (group :: groups).flatten.foldlM absorb s = .ok s'' := by
  rw [List.flatten_cons, List.foldlM_append, hfirst]
  exact hrest

theorem foldlM_option {α : Type} (set : σ → Option α → σ) {write : α → Record} (o : Option α) {s : σ}
    (hset : ∀ a, o = some a → absorb s (write a) = .ok (set s (some a))) (hnone : set s none = s) :
    (o.toList.map write).foldlM absorb s = .ok (set s o) := by
  cases o with
  | none =>
    rw [hnone]
    rfl
  | some a =>
    show (absorb s (write a) >>= fun s' => pure s') = _
    rw [hset a rfl]
    rfl

theorem foldlM_entries {α β : Type} (set : σ → β → σ) (get : σ → β) (enter : β → α → β) {write : α → Record}
    (l : List α) {s : σ} (hstep : ∀ a ∈ l, ∀ s, absorb s (write a) = .ok (set s (enter (get s) a)))
    (hget : ∀ s b, get (set s b) = b) (hset : ∀ s b b', set (set s b) b' = set s b') (hself : ∀ s, set s (get s) = s) :
    (l.map write).foldlM absorb s = .ok (set s (l.foldl enter (get s))) := by
  induction l generalizing s with
  | nil =>
    rw [List.foldl_nil, hself]
    rfl
  | cons a l ih =>
    rw [List.map_cons, List.foldlM_cons, hstep a List.mem_cons_self]
    show (l.map write).foldlM absorb (set s (enter (get s) a)) = _
    rw [ih fun x hx => hstep x (List.mem_cons_of_mem a hx), hget, hset, List.foldl_cons]

end Groups

end KuberCoin.Records
