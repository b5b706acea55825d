import KuberCoin.PsbtParsers

/-!
The reader of PSBTs of version 2 (crate `tx`, `psbt_v2.rs`) with the positions, slices and
capacities it computes. It goes on at the end of the data and behind sizes it cannot read,
so that its loops turn without taking a byte.
-/
namespace KuberCoin.PsbtV2Parsers

open Bytes Maps Transactions Decoders Records PsbtVersion2 GuardedReads
open PsbtVersion2.PsbtV2 (readU32 readU64)
open PsbtParsers (readU32_take readU64_take)

section Sizes

/-- `read_compact_size`: the size and the position behind it. -/
def readCompactSize (data : List UInt8) (pos : ℕ) : Except (Stop PsbtV2Error) (Option (ℕ × ℕ)) :=
  if data.length ≤ pos then .ok none
  else do
    let first ← index data pos
    if first ≤ 0xfc then .ok (some (first.toNat, add pos 1))
    else if data.length < add pos (sizeBytes first + 1) then .ok none
    else do
      let n ← slice data (add pos 1) (add pos (sizeBytes first + 1))
      .ok (some (leValue n, add pos (sizeBytes first + 1)))

theorem readCompactSize_eq {data : List UInt8} {pos : ℕ} (hdata : data.length < 2 ^ 63) : readCompactSize data pos =
      .ok ((compactSize (data.drop pos)).map fun x => (x.1, data.length - x.2.length)) := by
  unfold readCompactSize
  by_cases hend : data.length ≤ pos
  · rw [if_pos hend, List.drop_eq_nil_of_le hend]
    rfl
  · have hlt : pos < data.length := by omega
    have hindex : index (ε := PsbtV2Error) data pos = .ok data[pos] := by
      rw [index, List.getElem?_eq_getElem hlt]
    rw [if_neg hend, List.drop_eq_getElem_cons hlt, compactSize_cons, hindex]
    show (if data[pos] ≤ 0xfc then _ else _) = _
    have hwidth : sizeBytes data[pos] ≤ 8 := sizeBytes_le _
    by_cases hsmall : data[pos] ≤ 0xfc
    · rw [if_pos hsmall, if_pos hsmall, add_eq (by omega)]
      simp only [Option.map_some, List.length_drop]
      congr 4
      omega
    · rw [if_neg hsmall, if_neg hsmall, add_eq (by omega), add_eq (by omega), List.length_drop]
      by_cases hshort : data.length < pos + (sizeBytes data[pos] + 1)
      · rw [if_pos hshort, if_neg (by omega)]
        rfl
      · rw [if_neg hshort, if_pos (by omega), slice_eq (by omega) (by omega)]
        simp only [Option.map_some, List.length_drop]
        show Except.ok (some (leValue _, _)) = _
        congr 4
        · congr 2
          omega
        · omega

/-- `read_compact_size(..).ok_or(InvalidVersion)?`. -/
def sizeOr (data : List UInt8) : Cursor PsbtV2Error ℕ := fun pos =>
  match readCompactSize data pos with
  | .error stop => .error stop
  | .ok none => .error (.err .invalidVersion)
  | .ok (some x) => .ok x

def idealSize : Ideal PsbtV2Error ℕ := fun bytes =>
  match compactSize bytes with
  | none => .error .invalidVersion
  | some x => .ok x

theorem idealSize_eq_ok {bytes rest : List UInt8} {n : ℕ} :
    idealSize bytes = .ok (n, rest) ↔ compactSize bytes = some (n, rest) := by
  unfold idealSize
  cases compactSize bytes with
  | none => simp
  | some x => simp

theorem mem_after_size {next : ℕ → Hazard} {total : ℕ} {bytes : List UInt8} :
    bytes ∈ after idealSize next total ↔ ∃ n rest, compactSize bytes = some (n, rest) ∧ rest ∈ next n total :=
  exists₂_congr fun _ _ => and_congr_left fun _ => idealSize_eq_ok

theorem covers_size : Covers sizeOr idealSize fun _ => ∅ where
  faults := fun _ _ hmem => hmem.elim
  agrees := by
    intro data pos hdata hpos _
    unfold sizeOr idealSize
    rw [readCompactSize_eq hdata]
    cases hread : compactSize (data.drop pos) with
    | none => exact .error
    | some x => exact agrees_suffix x.1 hpos (compactSize_suffix hread)

end Sizes

section ReadRecords

variable {bytes data rest : List UInt8} {cursor n : ℕ}

/-- The type of a key and its data: an index and a slice. -/
def readKey (n : ℕ) (data : List UInt8) : Cursor PsbtV2Error (List UInt8) := fun keyStart => do
  let keyType ← index data keyStart
  let keyData ← slice data (add keyStart 1) (add keyStart n)
  return (keyType :: keyData, add keyStart n)

def readKv (data : List UInt8) : Cursor PsbtV2Error Record := do
  let keyLen ← sizeOr data
  if keyLen = 0 then throw (.err .invalidVersion)
  else do
    check keyLen .invalidVersion data
    let key ← readKey keyLen data
    let valLen ← sizeOr data
    check valLen .invalidVersion data
    let value ← word valLen data
    return ⟨key, value⟩

/-- The condition of a loop over a map and the turn behind it. -/
def parseRecord (data : List UInt8) : Cursor PsbtV2Error (Option Record) := fun cursor =>
  if data.length ≤ cursor then .ok (none, cursor)
  else do
    let first ← index data cursor
    if first = 0x00 then .ok (none, add cursor 1)
    else do
      let (r, next) ← readKv data cursor
      return (some r, next)

def idealKv : Ideal PsbtV2Error Record := do
  let keyLen ← idealSize
  if keyLen = 0 then throw .invalidVersion
  else do
    let key ← bytesOr keyLen .invalidVersion
    let valLen ← idealSize
    let value ← bytesOr valLen .invalidVersion
    return ⟨key, value⟩

theorem index_eq {ε : Type} {b : UInt8} (h : data.drop cursor = b :: rest) : index (ε := ε) data cursor = .ok b := by
  have hlt : cursor < data.length := by
    have := congrArg List.length h
    rw [List.length_drop, List.length_cons] at this
    omega
  rw [List.drop_eq_getElem_cons hlt] at h
  rw [index, List.getElem?_eq_getElem hlt, (List.cons.inj h).1]

/-- The two accesses to a key fail where one slice would. -/
theorem readKey_eq (hn : n ≠ 0) (hlt : n < 2 ^ 64) (hdata : data.length < 2 ^ 63) (hcursor : cursor ≤ data.length) :
    readKey n data cursor = word n data cursor := by
  by_cases hlen : cursor + n ≤ data.length
  · cases hrest : data.drop cursor with
    | nil =>
      have := congrArg List.length hrest
      rw [List.length_drop, List.length_nil] at this
      omega
    | cons b rest =>
      have hnext : data.drop (cursor + 1) = rest := by
        rw [← List.drop_drop, hrest, List.drop_one, List.tail_cons]
      have htake : (b :: rest).take n = b :: rest.take (n - 1) := by
        conv => lhs; rw [show n = n - 1 + 1 by omega, List.take_succ_cons]
      rw [readKey, index_eq hrest, add_eq (by omega), add_eq (by omega), slice_eq (by omega) hlen, hnext,
        word_eq hdata hlen, hrest, htake, show cursor + n - (cursor + 1) = n - 1 by omega]
      rfl
  · rw [word_faults hlt hdata hcursor (by omega), readKey]
    have hslice := not_slice hlt hdata hcursor (by omega : data.length < cursor + n)
    have hkey : ¬ (add cursor 1 ≤ add cursor n ∧ add cursor n ≤ data.length) := by
      rw [add_eq (by omega : cursor + 1 < 2 ^ 64)]
      omega
    rw [slice_fault hkey, index]
    cases data[cursor]? <;> rfl

theorem covers_key (hn : n ≠ 0) (hlt : n < 2 ^ 64) :
    Covers (fun data => check n .invalidVersion data >>= fun _ => readKey n data)
      (bytesOr n PsbtV2Error.invalidVersion) (wraps n) := by
  refine (covers_checked hlt _).of_eq fun {data cursor} hdata hcursor => ?_
  show (check n _ data cursor >>= fun x => readKey n data x.2) = (check n _ data cursor >>= fun x => word n data x.2)
  unfold check
  split
  · rfl
  · exact readKey_eq hn hlt hdata hcursor

theorem covers_keyed (hn : n ≠ 0) (hlt : n < 2 ^ 64) :
    Covers (fun data => check n .invalidVersion data >>= fun _ => readKey n data >>= fun key =>
        sizeOr data >>= fun valLen => check valLen .invalidVersion data >>= fun _ => word valLen data >>= fun value =>
        pure (⟨key, value⟩ : Record))
      (bytesOr n PsbtV2Error.invalidVersion >>= fun key => idealSize >>= fun valLen =>
        bytesOr valLen .invalidVersion >>= fun value => pure (⟨key, value⟩ : Record))
      fun total => wraps n total ∪ after (bytesOr n PsbtV2Error.invalidVersion) (fun _ => longSize) total := by
  have hvalue : ∀ key : List UInt8, Covers
      (fun data => sizeOr data >>= fun valLen => check valLen .invalidVersion data >>= fun _ => word valLen data >>=
        fun value => pure (⟨key, value⟩ : Record))
      (idealSize >>= fun valLen => bytesOr valLen .invalidVersion >>= fun value => pure (⟨key, value⟩ : Record))
      longSize := by
    intro key
    have hvalue : ∀ m : ℕ, m < 2 ^ 64 → Covers
        (fun data => check m .invalidVersion data >>= fun _ => word m data >>= fun value => pure (⟨key, value⟩ : Record))
        (bytesOr m PsbtV2Error.invalidVersion >>= fun value => pure (⟨key, value⟩ : Record)) (wraps m) := by
      intro m hm
      have h := (covers_checked hm PsbtV2Error.invalidVersion).map fun value => (⟨key, value⟩ : Record)
      simpa only [bind_assoc] using h
    exact (covers_size.andThen fun hread => hvalue _ (compactSize_bounds (idealSize_eq_ok.mp hread)).1).imp
      fun _ _ => mem_after_size
  have h := (covers_key hn hlt).bind fun {key _ _} _ => hvalue key
  simpa only [bind_assoc] using h

theorem covers_kv : Covers readKv idealKv longField := by
  have hbehind : ∀ {n : ℕ} {bytes rest : List UInt8}, idealSize bytes = .ok (n, rest) → Covers
      (fun data => if n = 0 then (throw (.err .invalidVersion) : Cursor PsbtV2Error Record) else
        check n .invalidVersion data >>= fun _ => readKey n data >>= fun key =>
        sizeOr data >>= fun valLen => check valLen .invalidVersion data >>= fun _ => word valLen data >>= fun value =>
        pure (⟨key, value⟩ : Record))
      (if n = 0 then throw .invalidVersion else
        bytesOr n PsbtV2Error.invalidVersion >>= fun key => idealSize >>= fun valLen =>
        bytesOr valLen .invalidVersion >>= fun value => pure (⟨key, value⟩ : Record))
      fun total => {mid | n ≠ 0 ∧
        (mid ∈ wraps n total ∨ mid ∈ after (bytesOr n PsbtV2Error.invalidVersion) (fun _ => longSize) total)} := by
    intro n bytes rest hread
    by_cases hn : n = 0
    · simp only [if_pos hn]
      exact (covers_throw _).imp fun _ _ => ⟨False.elim, fun hin => hin.1 hn⟩
    · simp only [if_neg hn]
      exact (covers_keyed hn (compactSize_bounds (idealSize_eq_ok.mp hread)).1).imp fun _ _ =>
        (and_iff_right hn).symm
  refine (covers_size.andThen hbehind).imp fun {total bytes} htotal _ => mem_after_size.trans ?_
  constructor
  · rintro ⟨n, mid, hread, hn, hin⟩
    exact (longField_iff _ hread hn).mpr hin
  · intro hin
    obtain ⟨n, mid, hread, hn⟩ := longField_size htotal hin
    exact ⟨n, mid, hread, hn, (longField_iff _ hread hn).mp hin⟩

theorem idealKv_eq (bytes : List UInt8) : idealKv bytes = match PsbtV2.readKv bytes with
      | none => .error .invalidVersion
      | some x => .ok x := by
  have hsized : ∀ bytes, sized bytes = (compactSize bytes).bind fun x => exactly x.1 x.2 := fun _ => rfl
  have hbytes : ∀ (n : ℕ) (bytes : List UInt8), bytesOr n PsbtV2Error.invalidVersion bytes =
      match exactly n bytes with
      | none => .error .invalidVersion
      | some x => .ok x := by
    intro n bytes
    unfold bytesOr exactly
    split <;> rfl
  show (idealSize bytes >>= fun x => (if x.1 = 0 then throw PsbtV2Error.invalidVersion else
    bytesOr x.1 PsbtV2Error.invalidVersion >>= fun key => idealSize >>= fun valLen =>
    bytesOr valLen .invalidVersion >>= fun value => pure (⟨key, value⟩ : Record) : Ideal PsbtV2Error Record) x.2) = _
  rw [PsbtV2.readKv, hsized, idealSize]
  cases compactSize bytes with
  | none => rfl
  | some x =>
    obtain ⟨n, mid⟩ := x
    show (if n = 0 then throw PsbtV2Error.invalidVersion else _ : Ideal PsbtV2Error Record) mid = _
    by_cases hn : n = 0
    · subst hn
      rfl
    · rw [if_neg hn]
      show (bytesOr n PsbtV2Error.invalidVersion mid >>= fun y => (idealSize >>= fun valLen =>
        bytesOr valLen .invalidVersion >>= fun value => pure (⟨y.1, value⟩ : Record) : Ideal PsbtV2Error Record) y.2) = _
      rw [hbytes, Option.bind_some]
      cases hkey : exactly n mid with
      | none => rfl
      | some y =>
        obtain ⟨key, last⟩ := y
        have hne : key ≠ [] := by
          rintro rfl
          unfold exactly at hkey
          split at hkey
          next hle =>
            have hnil : mid.take n = [] := congrArg Prod.fst (Option.some.inj hkey)
            have hlen := congrArg List.length hnil
            rw [List.length_take, List.length_nil] at hlen
            omega
          next => cases hkey
        show (idealSize last >>= fun z => (bytesOr z.1 PsbtV2Error.invalidVersion >>= fun value =>
          pure (⟨key, value⟩ : Record) : Ideal PsbtV2Error Record) z.2) =
            match (if key = [] then none else (sized last).map fun r => ((⟨key, r.1⟩ : Record), r.2)) with
            | none => .error .invalidVersion
            | some x => .ok x
        rw [if_neg hne, hsized, idealSize]
        cases compactSize last with
        | none => rfl
        | some z =>
          show (bytesOr z.1 PsbtV2Error.invalidVersion z.2 >>= fun w => .ok ((⟨key, w.1⟩ : Record), w.2)) = _
          rw [hbytes, Option.bind_some]
          cases exactly z.1 z.2 <;> rfl

theorem covers_record : Covers parseRecord PsbtV2.parseRecord longField where
  faults := by
    intro data cursor hdata hcursor hin
    obtain ⟨n, mid, hread, hn⟩ := longField_size hdata hin
    obtain ⟨fault, hfault⟩ := covers_kv.faults hdata hcursor hin
    cases hbytes : data.drop cursor with
    | nil =>
      rw [hbytes] at hread
      cases hread
    | cons first rest =>
      have hcur : ¬ data.length ≤ cursor := by
        intro hle
        rw [List.drop_eq_nil_of_le hle] at hbytes
        cases hbytes
      have hfirst : first ≠ 0x00 := by
        rintro rfl
        rw [hbytes, compactSize_cons] at hread
        cases hread
        exact hn rfl
      refine ⟨fault, ?_⟩
      rw [parseRecord, if_neg hcur, index_eq hbytes]
      show (if first = 0x00 then _ else _) = _
      rw [if_neg hfirst, hfault]
      rfl
  agrees := by
    intro data cursor hdata hcursor hin
    rw [parseRecord]
    cases hbytes : data.drop cursor with
    | nil =>
      have hcur : data.length ≤ cursor := List.drop_eq_nil_iff.mp hbytes
      rw [if_pos hcur]
      show Agrees data cursor (.ok (none, [])) (.ok (none, cursor))
      rw [← hbytes]
      exact .ok le_rfl hcursor
    | cons first rest =>
      have hcur : ¬ data.length ≤ cursor := by
        intro hle
        rw [List.drop_eq_nil_of_le hle] at hbytes
        cases hbytes
      rw [if_neg hcur, index_eq hbytes]
      show Agrees data cursor (if first = 0x00 then _ else _) (if first = 0x00 then _ else _)
      by_cases hfirst : first = 0x00
      · have hrest : data.drop (cursor + 1) = rest := by
          rw [← List.drop_drop, hbytes, List.drop_one, List.tail_cons]
        rw [if_pos hfirst, if_pos hfirst, add_eq (by omega), ← hrest]
        exact .ok (by omega) (by omega)
      · have hagree := covers_kv.agrees hdata hcursor hin
        rw [if_neg hfirst, if_neg hfirst]
        rw [hbytes, idealKv_eq] at hagree
        generalize PsbtV2.readKv (first :: rest) = i, readKv data cursor = r at hagree ⊢
        cases i with
        | none =>
          cases hagree
          exact .error
        | some x =>
          obtain ⟨r, last⟩ := x
          cases hagree with
          | ok hle hlen => exact .ok hle hlen

theorem kv_bounds {r : Record} (hread : idealKv bytes = .ok (r, rest)) :
    r.key ≠ [] ∧ rest.length + (r.key.length + r.value.length) < bytes.length := by
  obtain ⟨n, mid, hsize, hread⟩ := bind_eq_ok.mp hread
  have hbounds := (compactSize_bounds (idealSize_eq_ok.mp hsize)).2
  by_cases hn : n = 0
  · rw [if_pos hn] at hread
    cases hread
  · rw [if_neg hn] at hread
    obtain ⟨key, mid', hkey, hread⟩ := bind_eq_ok.mp hread
    obtain ⟨m, mid'', hsize', hread⟩ := bind_eq_ok.mp hread
    obtain ⟨value, last, hvalue, hread⟩ := bind_eq_ok.mp hread
    cases hread
    obtain ⟨hle, rfl, rfl⟩ := bytesOr_eq_ok.mp hkey
    obtain ⟨hle', rfl, rfl⟩ := bytesOr_eq_ok.mp hvalue
    have hbounds' := (compactSize_bounds (idealSize_eq_ok.mp hsize')).2
    simp only [List.length_take, List.length_drop] at hbounds' ⊢
    refine ⟨?_, by omega⟩
    intro hnil
    have hlen := congrArg List.length hnil
    rw [List.length_take, List.length_nil] at hlen
    omega

theorem record_bounds {found : Option Record} (hne : bytes ≠ [])
    (hread : PsbtV2.parseRecord bytes = .ok (found, rest)) :
    rest.length < bytes.length ∧ ∀ r, found = some r → idealKv bytes = .ok (r, rest) := by
  cases bytes with
  | nil => exact absurd rfl hne
  | cons first tail =>
    unfold PsbtV2.parseRecord at hread
    by_cases hfirst : first = 0x00
    · simp only [if_pos hfirst] at hread
      cases hread
      exact ⟨Nat.lt_succ_self _, fun r hr => by cases hr⟩
    · simp only [if_neg hfirst] at hread
      have hideal := idealKv_eq (first :: tail)
      generalize PsbtV2.readKv (first :: tail) = i at hread hideal
      cases i with
      | none => cases hread
      | some x =>
        cases hread
        have := (kv_bounds hideal).2
        refine ⟨by omega, fun r hr => ?_⟩
        cases hr
        exact hideal

theorem parses_record : Parses PsbtV2.parseRecord := by
  intro bytes rest r hread
  have hne : bytes ≠ [] := by
    rintro rfl
    cases hread
  exact kv_bounds ((record_bounds hne hread).2 r rfl)

end ReadRecords

section Values

variable {bytes data rest spk value : List UInt8} {cursor n total : ℕ}

/-- The script of a witness UTXO behind its size, or all the bytes where there is no size or it is too large. -/
def readScript (spk : List UInt8) : Except (Stop PsbtV2Error) (List UInt8) := do
  let (spkLen, off) := (← readCompactSize spk 0).getD (0, 0)
  if 0 < off ∧ add off spkLen ≤ spk.length then slice spk off (add off spkLen)
  else return spk

/-- One turn of the loop over a final witness, from the position of the next element. A size that
cannot be read is taken for zero, and the position for that of the first byte. -/
def readElement (value : List UInt8) : Cursor PsbtV2Error (Option (List UInt8)) := fun wi => do
  let (len, next) := (← readCompactSize value wi).getD (0, 0)
  if add next len ≤ value.length then do
    let item ← slice value next (add next len)
    return (some item, add next len)
  else return (none, next)

def readStack (value : List UInt8) : Except (Stop PsbtV2Error) (List (List UInt8)) := do
  let (count, off) := (← readCompactSize value 0).getD (0, 0)
  let (items, _) ← turns readElement count value off
  return items.reduceOption

/-- An element in the bytes that are left. -/
def idealElement : Ideal PsbtV2Error (Option (List UInt8)) := fun bytes =>
  match compactSize bytes with
  | none => .error .invalidVersion
  | some (len, rest) => if len ≤ rest.length then .ok (some (rest.take len), rest.drop len) else .ok (none, rest)

/-- No size where an element should begin, or one that is longer than every position. -/
def elementHazard : Hazard := fun total => {bytes | compactSize bytes = none} ∪ longSize total

/-- The values at which the script of a witness UTXO is out of range. -/
def badUtxo : Set (List UInt8) := {value | 8 ≤ value.length ∧ value.drop 8 ∈ longSize (value.length - 8)}

/-- The values at which the loop over a final witness fails. -/
def badStack : Set (List UInt8) :=
  {value | ∃ count rest, compactSize value = some (count, rest) ∧
    rest ∈ among idealElement elementHazard count value.length}

theorem readElement_none (hdata : data.length < 2 ^ 63) (hread : compactSize (data.drop cursor) = none) :
    readElement data cursor = .ok (some [], 0) := by
  rw [readElement, readCompactSize_eq hdata, hread]
  show (if add 0 0 ≤ data.length then (slice data 0 (add 0 0) >>= fun item => .ok (some item, add 0 0))
    else .ok (none, 0)) = _
  rw [show add 0 0 = 0 from rfl, if_pos (Nat.zero_le _), slice_eq le_rfl (Nat.zero_le _)]
  rfl

theorem readElement_some {len : ℕ} (hdata : data.length < 2 ^ 63)
    (hread : compactSize (data.drop cursor) = some (len, rest)) : readElement data cursor =
      if add (data.length - rest.length) len ≤ data.length then
        (slice data (data.length - rest.length) (add (data.length - rest.length) len)).map
          fun item => (some item, add (data.length - rest.length) len)
      else .ok (none, data.length - rest.length) := by
  rw [readElement, readCompactSize_eq hdata, hread]
  rfl

theorem covers_element : Covers (advancing readElement) idealElement elementHazard where
  faults := by
    intro data cursor hdata hcursor hin
    unfold advancing
    cases hread : compactSize (data.drop cursor) with
    | none =>
      rw [readElement_none hdata hread]
      exact ⟨.idle, if_pos (Nat.zero_le _)⟩
    | some x =>
      obtain ⟨len, rest⟩ := x
      have hbounds := compactSize_bounds hread
      rw [List.length_drop] at hbounds
      have hwraps : 2 ^ 64 ≤ data.length - rest.length + len := by
        obtain hnone | ⟨len', rest', hread', hwraps⟩ := hin
        · have hnone : compactSize (data.drop cursor) = none := hnone
          rw [hread] at hnone
          cases hnone
        · rw [hread] at hread'
          cases hread'
          exact hwraps
      have hlt := add_lt hbounds.1 hwraps (by omega)
      rw [readElement_some hdata hread, if_pos (by omega), slice_fault (by omega)]
      exact ⟨.outOfRange, rfl⟩
  agrees := by
    intro data cursor hdata hcursor hin
    unfold advancing idealElement
    cases hread : compactSize (data.drop cursor) with
    | none => exact absurd (Or.inl hread) hin
    | some x =>
      obtain ⟨len, rest⟩ := x
      have hbounds := (compactSize_bounds hread).2
      have hrest := List.suffix_iff_eq_drop.mp ((compactSize_suffix hread).trans (List.drop_suffix _ _))
      have hwraps : ¬ 2 ^ 64 ≤ data.length - rest.length + len :=
        fun hwraps => hin (Or.inr ⟨len, rest, hread, hwraps⟩)
      rw [List.length_drop] at hbounds
      rw [readElement_some hdata hread, add_eq (by omega)]
      by_cases hfits : len ≤ rest.length
      · have hslice : slice (ε := PsbtV2Error) data (data.length - rest.length) (data.length - rest.length + len) =
            .ok (rest.take len) := by
          rw [slice_eq (by omega) (by omega), ← hrest, Nat.add_sub_cancel_left]
        have hdrop : rest.drop len = data.drop (data.length - rest.length + len) := by
          rw [← List.drop_drop, ← hrest]
        rw [if_pos (by omega), hslice]
        show Agrees data cursor (if len ≤ rest.length then _ else _) (if _ ≤ cursor then _ else _)
        rw [if_pos hfits, if_neg (by omega), hdrop]
        exact .ok (by omega) (by omega)
      · rw [if_neg (by omega)]
        show Agrees data cursor (if len ≤ rest.length then _ else _) (if _ ≤ cursor then _ else _)
        rw [if_neg hfits, if_neg (by omega)]
        exact agrees_suffix none hcursor (compactSize_suffix hread)

theorem readMany_element {items : List (Option (List UInt8))} (h : readMany idealElement n bytes = .ok (items, rest)) :
    PsbtV2.readStack value n bytes = items.reduceOption := by
  induction n generalizing bytes items rest with
  | zero =>
    cases h
    rfl
  | succ n ih =>
    obtain ⟨item, mid, later, hfirst, hlater, rfl⟩ := readMany_succ_eq_ok.mp h
    unfold idealElement at hfirst
    unfold PsbtV2.readStack
    cases hread : compactSize bytes with
    | none =>
      rw [hread] at hfirst
      cases hfirst
    | some x =>
      rw [hread] at hfirst
      have hfirst : (if x.1 ≤ x.2.length then _ else _) = _ := hfirst
      show (if x.1 ≤ x.2.length then _ else _) = _
      split at hfirst
      next hle =>
        cases hfirst
        rw [if_pos hle, ih hlater]
        rfl
      next hlt =>
        cases hfirst
        rw [if_neg hlt, ih hlater]
        rfl

theorem readScript_faults (hspk : spk.length < 2 ^ 63) (h : spk ∈ longSize spk.length) : Faults (readScript spk) := by
  obtain ⟨len, rest, hread, hwraps⟩ := h
  have hwraps : 2 ^ 64 ≤ spk.length - rest.length + len := hwraps
  have hbounds := compactSize_bounds hread
  have hlt := add_lt hbounds.1 hwraps (by omega)
  refine ⟨.outOfRange, ?_⟩
  rw [readScript, readCompactSize_eq hspk, List.drop_zero, hread]
  show (if 0 < spk.length - rest.length ∧ add (spk.length - rest.length) len ≤ spk.length then
    slice spk (spk.length - rest.length) (add (spk.length - rest.length) len) else .ok spk) = _
  rw [if_pos ⟨by omega, by omega⟩, slice_fault (by omega)]

theorem readScript_eq (hspk : spk.length < 2 ^ 63) (h : spk ∉ longSize spk.length) :
    readScript spk = .ok (PsbtV2.readScript spk) := by
  rw [readScript, readCompactSize_eq hspk, List.drop_zero, PsbtV2.readScript]
  cases hread : compactSize spk with
  | none => rfl
  | some x =>
    obtain ⟨len, rest⟩ := x
    have hbounds := compactSize_bounds hread
    have hwraps : ¬ 2 ^ 64 ≤ spk.length - rest.length + len := fun hwraps => h ⟨len, rest, hread, hwraps⟩
    have hrest := List.suffix_iff_eq_drop.mp (compactSize_suffix hread)
    show (if 0 < spk.length - rest.length ∧ add (spk.length - rest.length) len ≤ spk.length then
      slice spk (spk.length - rest.length) (add (spk.length - rest.length) len) else .ok spk) =
      Except.ok (if len ≤ rest.length then _ else _)
    rw [add_eq (by omega)]
    by_cases hfits : len ≤ rest.length
    · rw [if_pos ⟨by omega, by omega⟩, if_pos hfits, slice_eq (by omega) (by omega), ← hrest, Nat.add_sub_cancel_left]
    · rw [if_neg (by omega), if_neg hfits]

theorem element_found (h : bytes ∉ elementHazard total) : ∃ item rest, idealElement bytes = .ok (item, rest) := by
  unfold idealElement
  cases hread : compactSize bytes with
  | none => exact absurd (Or.inl hread) h
  | some x =>
    by_cases hfits : x.1 ≤ x.2.length
    · exact ⟨_, _, if_pos hfits⟩
    · exact ⟨_, _, if_neg hfits⟩

theorem elements_found (h : bytes ∉ among idealElement elementHazard n total) :
    ∃ items rest, readMany idealElement n bytes = .ok (items, rest) := by
  induction n generalizing bytes with
  | zero => exact ⟨[], bytes, rfl⟩
  | succ n ih =>
    rw [among_succ, not_or] at h
    obtain ⟨item, mid, hfirst⟩ := element_found h.1
    obtain ⟨items, rest, hlater⟩ := ih fun hin => h.2 ⟨item, mid, hfirst, hin⟩
    exact ⟨item :: items, rest, readMany_succ_eq_ok.mpr ⟨item, mid, items, hfirst, hlater, rfl⟩⟩

theorem readStack_faults (hvalue : value.length < 2 ^ 63) (h : value ∈ badStack) : Faults (readStack value) := by
  obtain ⟨count, rest, hread, hin⟩ := h
  have hrest := List.suffix_iff_eq_drop.mp (compactSize_suffix hread)
  rw [hrest] at hin
  obtain ⟨fault, hfault⟩ := covers_element.turns.faults hvalue (Nat.sub_le _ _) hin
  refine ⟨fault, ?_⟩
  rw [readStack, readCompactSize_eq hvalue, List.drop_zero, hread]
  show (turns readElement count value (value.length - rest.length) >>= fun x => _) = _
  rw [hfault]
  rfl

theorem readStack_eq (hvalue : value.length < 2 ^ 63) (h : value ∉ badStack) : readStack value =
      .ok (PsbtV2.readStack value ((compactSize value).getD (0, value)).1 ((compactSize value).getD (0, value)).2) := by
  rw [readStack, readCompactSize_eq hvalue, List.drop_zero]
  cases hread : compactSize value with
  | none => rfl
  | some x =>
    obtain ⟨count, rest⟩ := x
    have hrest := List.suffix_iff_eq_drop.mp (compactSize_suffix hread)
    have hin : rest ∉ among idealElement elementHazard count value.length := fun hin => h ⟨count, rest, hread, hin⟩
    obtain ⟨items, last, hitems⟩ := elements_found hin
    have hagree := covers_element.turns.agrees hvalue (Nat.sub_le _ _) (hrest ▸ hin)
    rw [← hrest, hitems] at hagree
    show (turns readElement count value (value.length - rest.length) >>= fun x => _) =
      Except.ok (PsbtV2.readStack value count rest)
    rw [readMany_element hitems]
    generalize turns readElement count value (value.length - rest.length) = r at hagree ⊢
    cases hagree with
    | ok => rfl

end Values

section Absorbing

/-- The match over the records of the global map. -/
def absorbGlobal (g : PsbtV2Global) (r : Record) : Except (Stop PsbtV2Error) PsbtV2Global :=
  let keyType := r.key.headD 0
  let keyData := r.key.tail
  if keyType = 0xfb then
    if 4 ≤ r.value.length then do
      let version ← slice r.value 0 4
      return { g with version := readU32 version }
    else .ok g
  else if keyType = 0x02 ∧ keyData = [] then
    if 4 ≤ r.value.length then do
      let txVersion ← slice r.value 0 4
      return { g with txVersion := readU32 txVersion }
    else .ok g
  else if keyType = 0x03 ∧ keyData = [] then
    if 4 ≤ r.value.length then do
      let locktime ← slice r.value 0 4
      return { g with fallbackLocktime := some (readU32 locktime) }
    else .ok g
  else if keyType = 0x04 then do
    let (n, _) := (← readCompactSize r.value 0).getD (0, 0)
    return { g with inputCount := n }
  else if keyType = 0x05 then do
    let (n, _) := (← readCompactSize r.value 0).getD (0, 0)
    return { g with outputCount := n }
  else if keyType = 0x06 then
    if r.value = [] then .ok g
    else do
      let flags ← index r.value 0
      return { g with modifiable := ⟨flags &&& 1 ≠ 0, flags &&& 2 ≠ 0, flags &&& 4 ≠ 0⟩ }
  else .ok g

/-- The match over the records of an input map; those that are entered as they stand are left to
`PsbtV2.absorbInput`. -/
def absorbInput (i : PsbtV2Input) (r : Record) : Except (Stop PsbtV2Error) PsbtV2Input :=
  let keyType := r.key.headD 0
  let keyData := r.key.tail
  if keyType = 0x0f then
    if 4 ≤ r.value.length then do
      let vout ← slice r.value 0 4
      return { i with previousVout := readU32 vout }
    else .ok i
  else if keyType = 0x10 then
    if 4 ≤ r.value.length then do
      let sequence ← slice r.value 0 4
      return { i with sequence := some (readU32 sequence) }
    else .ok i
  else if keyType = 0x01 ∧ keyData = [] then
    if 8 ≤ r.value.length then do
      let amount ← slice r.value 0 8
      let spk ← slice r.value 8 r.value.length
      let script ← readScript spk
      return { i with witnessUtxo := some ⟨readU64 amount, script⟩ }
    else .ok i
  else if keyType = 0x08 then do
    let items ← readStack r.value
    return { i with finalScriptWitness := some items }
  else .ok (PsbtV2.absorbInput i r)

/-- The match over the records of an output map. -/
def absorbOutput (o : PsbtV2Output) (r : Record) : Except (Stop PsbtV2Error) PsbtV2Output :=
  if r.key.headD 0 = 0x03 then
    if 8 ≤ r.value.length then do
      let amount ← slice r.value 0 8
      return { o with amount := some (readU64 amount) }
    else .ok o
  else .ok (PsbtV2.absorbOutput o r)

/-- An input record with a witness UTXO or a final witness that fails. -/
def badInput : Set Record :=
  {r | (r.key.headD 0 = 0x01 ∧ r.key.tail = []) ∧ r.value ∈ badUtxo ∨ r.key.headD 0 = 0x08 ∧ r.value ∈ badStack}

theorem readCompactSize_start {value : List UInt8} (hvalue : value.length < 2 ^ 63) :
    readCompactSize value 0 = .ok ((compactSize value).map fun x => (x.1, value.length - x.2.length)) :=
  readCompactSize_eq hvalue

theorem if_congr_then {α : Type} {p : Prop} [Decidable p] {a b c : α} (h : p → a = b) :
    (if p then a else c) = if p then b else c := by
  split
  next hp => exact h hp
  next => rfl

theorem enters_global : Enters absorbGlobal (fun g r => .ok (PsbtV2.absorbGlobal g r)) ∅ where
  faults := fun _ hbad => hbad.elim
  agrees := by
    rintro g ⟨key, value⟩ hheld -
    have hcount := readCompactSize_start hheld.value_lt
    show absorbGlobal g ⟨key, value⟩ = .ok (PsbtV2.absorbGlobal g ⟨key, value⟩)
    rw [absorbGlobal, PsbtV2.absorbGlobal]
    simp only [apply_ite Except.ok]
    by_cases hversion : key.headD 0 = 0xfb
    · simp only [if_pos hversion]
      refine if_congr_then fun hlen => ?_
      rw [slice_front hlen, ← readU32_take value]
      rfl
    simp only [if_neg hversion]
    by_cases htx : key.headD 0 = 0x02 ∧ key.tail = []
    · simp only [if_pos htx]
      refine if_congr_then fun hlen => ?_
      rw [slice_front hlen, ← readU32_take value]
      rfl
    simp only [if_neg htx]
    by_cases hlock : key.headD 0 = 0x03 ∧ key.tail = []
    · simp only [if_pos hlock]
      refine if_congr_then fun hlen => ?_
      rw [slice_front hlen, ← readU32_take value]
      rfl
    simp only [if_neg hlock]
    by_cases hin : key.headD 0 = 0x04
    · simp only [if_pos hin]
      rw [hcount]
      cases compactSize value <;> rfl
    simp only [if_neg hin]
    by_cases hout : key.headD 0 = 0x05
    · simp only [if_pos hout]
      rw [hcount]
      cases compactSize value <;> rfl
    simp only [if_neg hout]
    by_cases hflags : key.headD 0 = 0x06
    · simp only [if_pos hflags]
      cases value <;> rfl
    simp only [if_neg hflags]

theorem enters_input : Enters absorbInput (fun i r => .ok (PsbtV2.absorbInput i r)) badInput where
  faults := by
    rintro i ⟨key, value⟩ hheld (⟨hutxo, hlen, hin⟩ | ⟨hstack, hin⟩)
    · have hspk : (value.drop 8).length < 2 ^ 63 := by
        have := hheld.value_lt
        rw [List.length_drop]
        simp only at this
        omega
      obtain ⟨fault, hfault⟩ := readScript_faults hspk (by rw [List.length_drop]; exact hin)
      refine ⟨fault, ?_⟩
      show absorbInput i ⟨key, value⟩ = _
      have hvout : key.headD 0 ≠ 0x0f := by
        rw [hutxo.1]
        decide
      have hsequence : key.headD 0 ≠ 0x10 := by
        rw [hutxo.1]
        decide
      rw [absorbInput]
      simp only [if_neg hvout, if_neg hsequence, if_pos hutxo, if_pos hlen]
      rw [slice_front hlen, slice_back hlen]
      show (readScript (value.drop 8) >>= fun script => _) = _
      rw [hfault]
      rfl
    · obtain ⟨fault, hfault⟩ := readStack_faults hheld.value_lt hin
      refine ⟨fault, ?_⟩
      show absorbInput i ⟨key, value⟩ = _
      have hvout : key.headD 0 ≠ 0x0f := by
        rw [hstack]
        decide
      have hsequence : key.headD 0 ≠ 0x10 := by
        rw [hstack]
        decide
      have hutxo : ¬ (key.headD 0 = 0x01 ∧ key.tail = []) := by
        rw [hstack]
        exact fun h => absurd h.1 (by decide)
      rw [absorbInput]
      simp only [if_neg hvout, if_neg hsequence, if_neg hutxo, if_pos hstack]
      rw [hfault]
      rfl
  agrees := by
    rintro i ⟨key, value⟩ hheld hgood
    show absorbInput i ⟨key, value⟩ = .ok (PsbtV2.absorbInput i ⟨key, value⟩)
    rw [absorbInput]
    by_cases hvout : key.headD 0 = 0x0f
    · have htxid : key.headD 0 ≠ 0x0e := by
        rw [hvout]
        decide
      rw [PsbtV2.absorbInput]
      simp only [if_pos hvout, if_neg htxid, apply_ite Except.ok]
      refine if_congr_then fun hlen => ?_
      rw [slice_front hlen, ← readU32_take value]
      rfl
    simp only [if_neg hvout]
    by_cases hsequence : key.headD 0 = 0x10
    · have htxid : key.headD 0 ≠ 0x0e := by
        rw [hsequence]
        decide
      rw [PsbtV2.absorbInput]
      simp only [if_neg hvout, if_pos hsequence, if_neg htxid, apply_ite Except.ok]
      refine if_congr_then fun hlen => ?_
      rw [slice_front hlen, ← readU32_take value]
      rfl
    simp only [if_neg hsequence]
    by_cases hutxo : key.headD 0 = 0x01 ∧ key.tail = []
    · have hsig : key.headD 0 ≠ 0x02 := by
        rw [hutxo.1]
        decide
      have htxid : key.headD 0 ≠ 0x0e := by
        rw [hutxo.1]
        decide
      rw [PsbtV2.absorbInput]
      simp only [if_neg hvout, if_neg hsequence, if_neg hsig, if_neg htxid, if_pos hutxo, apply_ite Except.ok]
      refine if_congr_then fun hlen => ?_
      have hspk : (value.drop 8).length < 2 ^ 63 := by
        have := hheld.value_lt
        rw [List.length_drop]
        simp only at this
        omega
      have hscript : value.drop 8 ∉ longSize (value.drop 8).length := by
        rw [List.length_drop]
        exact fun hin => hgood (Or.inl ⟨hutxo, hlen, hin⟩)
      rw [slice_front hlen, slice_back hlen, ← readU64_take value]
      show (readScript (value.drop 8) >>= fun script => _) = _
      rw [readScript_eq hspk hscript]
      rfl
    simp only [if_neg hutxo]
    by_cases hstack : key.headD 0 = 0x08
    · have hother : ∀ t : UInt8, t ≠ 0x08 → key.headD 0 ≠ t := fun t ht h => ht (h.symm.trans hstack)
      rw [PsbtV2.absorbInput]
      simp only [if_neg hvout, if_neg hsequence, if_neg hutxo, if_neg (hother 0x0e (by decide)),
        if_neg (hother 0x02 (by decide)), if_neg (hother 0x07 (by decide)), if_pos hstack]
      rw [readStack_eq hheld.value_lt fun hin => hgood (Or.inr ⟨hstack, hin⟩)]
      rfl
    simp only [if_neg hstack]

theorem enters_output : Enters absorbOutput (fun o r => .ok (PsbtV2.absorbOutput o r)) ∅ where
  faults := fun _ hbad => hbad.elim
  agrees := by
    rintro o ⟨key, value⟩ hheld -
    show absorbOutput o ⟨key, value⟩ = .ok (PsbtV2.absorbOutput o ⟨key, value⟩)
    rw [absorbOutput, PsbtV2.absorbOutput]
    by_cases hamount : key.headD 0 = 0x03
    · simp only [if_pos hamount, apply_ite Except.ok]
      refine if_congr_then fun hlen => ?_
      rw [slice_front hlen, ← readU64_take value]
      rfl
    · simp only [if_neg hamount]

end Absorbing

section ReadMaps

variable {data : List UInt8}

/-- A map, up to its end or that of the data. -/
def readMap {σ : Type} (absorb : σ → Record → Except (Stop PsbtV2Error) σ) (start : σ) (data : List UInt8) :
    Cursor PsbtV2Error σ := loopRecords parseRecord absorb (data.length + 1) start data

def readPsbt (data : List UInt8) : Cursor PsbtV2Error PsbtV2 := do
  let global ← readMap absorbGlobal PsbtV2.startGlobal data
  reserve global.inputCount data
  let inputs ← turns (readMap absorbInput .default) global.inputCount data
  reserve global.outputCount data
  let outputs ← turns (readMap absorbOutput .default) global.outputCount data
  return ⟨global, inputs, outputs⟩

/-- `PsbtV2::deserialize`. -/
def deserialize (data : List UInt8) : Except (Stop PsbtV2Error) PsbtV2 :=
  if data.length < 5 ∨ data.take 5 ≠ PsbtV2.magic then .error (.err .invalidVersion)
  else (readPsbt data 5).map Prod.fst

variable {σ : Type} {absorb : σ → Record → Except (Stop PsbtV2Error) σ} {enter : σ → Record → σ} {bad : Set Record}
  {start : σ}

/-- The hazards of a map. -/
def mapHazard (enter : σ → Record → σ) (bad : Set Record) (start : σ) : Hazard :=
  alongMap PsbtV2.parseRecord (fun s r => .ok (enter s r)) longField bad start

/-- More maps than there are bytes, a map where none is left, or a hazard in one of them. -/
def mapsHazard (enter : σ → Record → σ) (bad : Set Record) (start : σ) (n : ℕ) : Hazard :=
  listHazard (PsbtV2.readMap enter start) (fun total => mapHazard enter bad start total ∪ {[]}) n

/-- The hazards of a PSBT behind its magic bytes. -/
def psbtHazard : Hazard := fun total =>
  mapHazard PsbtV2.absorbGlobal ∅ PsbtV2.startGlobal total ∪
    after (PsbtV2.readMap PsbtV2.absorbGlobal PsbtV2.startGlobal) (fun global total =>
      mapsHazard PsbtV2.absorbInput badInput .default global.inputCount total ∪
        after (readMany (PsbtV2.readMap PsbtV2.absorbInput .default) global.inputCount)
          (fun _ => mapsHazard PsbtV2.absorbOutput ∅ .default global.outputCount) total) total

/-- The byte strings at which `PsbtV2::deserialize` fails. -/
def badPsbt : Set (List UInt8) := {data | data.take 5 = PsbtV2.magic ∧ data.drop 5 ∈ psbtHazard data.length}

theorem shrinks_record : Shrinks PsbtV2.parseRecord := by
  intro bytes rest found hread
  cases bytes with
  | nil =>
    cases hread
    exact le_rfl
  | cons first tail => exact (record_bounds (List.cons_ne_nil _ _) hread).1.le

theorem covers_map (henters : Enters absorb (fun s r => .ok (enter s r)) bad) (start : σ) :
    Covers (readMap absorb start) (PsbtV2.readMap enter start) (mapHazard enter bad start) :=
  GuardedReads.covers_map covers_record henters parses_record start

theorem map_takes {bytes rest : List UInt8} {t : σ} (hne : bytes ≠ [])
    (hread : PsbtV2.readMap enter start bytes = .ok (t, rest)) : rest.length < bytes.length := by
  unfold PsbtV2.readMap readRecords at hread
  cases hfirst : PsbtV2.parseRecord bytes with
  | error e =>
    rw [hfirst] at hread
    cases hread
  | ok x =>
  obtain ⟨found, mid⟩ := x
  rw [hfirst] at hread
  have hmid := (record_bounds hne hfirst).1
  cases found with
  | none =>
    cases hread
    exact hmid
  | some r => exact (readRecords_shrinks shrinks_record _ _ hread).trans_lt hmid

theorem covers_turn (henters : Enters absorb (fun s r => .ok (enter s r)) bad) (start : σ) :
    Covers (advancing (readMap absorb start)) (PsbtV2.readMap enter start)
      fun total => mapHazard enter bad start total ∪ {[]} := by
  refine (covers_map henters start).advancing.imp fun {total bytes} _ _ => or_congr_right ?_
  constructor
  · rintro ⟨t, hread⟩
    by_contra hne
    exact absurd (map_takes hne hread) (lt_irrefl _)
  · intro hnil
    rw [Set.mem_singleton_iff.mp hnil]
    exact ⟨start, rfl⟩

theorem covers_maps (henters : Enters absorb (fun s r => .ok (enter s r)) bad) (start : σ) (n : ℕ) :
    Covers (fun data => reserve n data >>= fun _ => turns (readMap absorb start) n data)
      (readMany (PsbtV2.readMap enter start) n) (mapsHazard enter bad start n) :=
  ((covers_reserve.bind fun _ => (covers_turn henters start).turns).congr fun _ => rfl).imp
    fun _ _ => or_congr_right mem_after_pure

/-- What is read behind the magic bytes. -/
def idealPsbt : Ideal PsbtV2Error PsbtV2 := do
  let global ← PsbtV2.readMap PsbtV2.absorbGlobal PsbtV2.startGlobal
  let inputs ← readMany (PsbtV2.readMap PsbtV2.absorbInput .default) global.inputCount
  let outputs ← readMany (PsbtV2.readMap PsbtV2.absorbOutput .default) global.outputCount
  return ⟨global, inputs, outputs⟩

theorem covers_psbt : Covers readPsbt idealPsbt psbtHazard := by
  have h := (covers_map enters_global PsbtV2.startGlobal).bind fun {global _ _} _ =>
    (covers_maps enters_input .default global.inputCount).bind fun {inputs _ _} _ =>
      (covers_maps enters_output .default global.outputCount).map fun outputs => (⟨global, inputs, outputs⟩ : PsbtV2)
  simp only [bind_assoc] at h
  exact h

theorem deserialize_of_header (h : data.take 5 = PsbtV2.magic) :
    PsbtV2.deserialize data = (idealPsbt (data.drop 5)).map Prod.fst := by
  have hlen : ¬ (data.length < 5 ∨ data.take 5 ≠ PsbtV2.magic) := by
    have := congrArg List.length h
    rw [List.length_take, show PsbtV2.magic.length = 5 from rfl] at this
    rw [not_or, not_not]
    exact ⟨by omega, h⟩
  rw [PsbtV2.deserialize, if_neg hlen]
  show (PsbtV2.readMap PsbtV2.absorbGlobal PsbtV2.startGlobal (data.drop 5) >>= fun x => _) =
    (PsbtV2.readMap PsbtV2.absorbGlobal PsbtV2.startGlobal (data.drop 5) >>= fun x => _).map Prod.fst
  cases PsbtV2.readMap PsbtV2.absorbGlobal PsbtV2.startGlobal (data.drop 5) with
  | error e => rfl
  | ok x =>
    show (readMany _ x.1.inputCount x.2 >>= fun y => _) = (readMany _ x.1.inputCount x.2 >>= fun y => _).map Prod.fst
    cases readMany (PsbtV2.readMap PsbtV2.absorbInput .default) x.1.inputCount x.2 with
    | error e => rfl
    | ok y =>
      show (readMany _ x.1.outputCount y.2 >>= fun z => _) = (readMany _ x.1.outputCount y.2 >>= fun z => _).map Prod.fst
      cases readMany (PsbtV2.readMap PsbtV2.absorbOutput .default) x.1.outputCount y.2 <;> rfl

theorem deserialize_faults (hdata : data.length < 2 ^ 63) (h : data ∈ badPsbt) : Faults (deserialize data) := by
  obtain ⟨hmagic, hin⟩ := h
  have hlen := congrArg List.length hmagic
  rw [List.length_take, show PsbtV2.magic.length = 5 from rfl] at hlen
  obtain ⟨fault, hfault⟩ := covers_psbt.faults hdata (by omega) hin
  exact ⟨fault, by rw [deserialize, if_neg (not_or.mpr ⟨by omega, not_not.mpr hmagic⟩), hfault]; rfl⟩

theorem deserialize_eq (hdata : data.length < 2 ^ 63) (h : data ∉ badPsbt) :
    deserialize data = lift (PsbtV2.deserialize data) := by
  by_cases hmagic : data.take 5 = PsbtV2.magic
  · have hlen := congrArg List.length hmagic
    rw [List.length_take, show PsbtV2.magic.length = 5 from rfl] at hlen
    have hagree := covers_psbt.agrees hdata (by omega) fun hin => h ⟨hmagic, hin⟩
    rw [deserialize_of_header hmagic, deserialize, if_neg (not_or.mpr ⟨by omega, not_not.mpr hmagic⟩)]
    generalize idealPsbt (data.drop 5) = i, readPsbt data 5 = r at hagree ⊢
    cases hagree with
    | ok => rfl
    | error => rfl
  · rw [deserialize, PsbtV2.deserialize, if_pos (Or.inr hmagic), if_pos (Or.inr hmagic)]
    rfl

end ReadMaps

section Survival

/-- Both readers end without a fault exactly where the bytes hold none of these: a length
whose end is beyond 2^64, more inputs or outputs than bytes, a script or an element that
reaches beyond its value, a map or an element where nothing is left. -/
theorem parsers_survive_iff (bytes : List UInt8) (hbytes : bytes.length < 2 ^ 63) :
    (Survives (PsbtParsers.deserialize bytes) ∧ Survives (deserialize bytes)) ↔
      bytes ∉ PsbtParsers.badPsbt ∧ bytes ∉ badPsbt := by
  refine and_congr ?_ ?_
  · rw [survives_iff]
    refine not_congr ⟨fun hfaults => ?_, PsbtParsers.deserialize_faults hbytes⟩
    by_contra hgood
    obtain ⟨fault, hfault⟩ := hfaults
    rw [PsbtParsers.deserialize_eq hbytes hgood] at hfault
    cases hread : Psbts.Psbt.deserialize bytes <;> rw [hread] at hfault <;> cases hfault
  · rw [survives_iff]
    refine not_congr ⟨fun hfaults => ?_, deserialize_faults hbytes⟩
    by_contra hgood
    obtain ⟨fault, hfault⟩ := hfaults
    rw [deserialize_eq hbytes hgood] at hfault
    cases hread : PsbtV2.deserialize bytes <;> rw [hread] at hfault <;> cases hfault

/-- A PSBT of version 0 with a transaction of one input and one output, the type of a signature hash
and a redeem script. -/
def smallPsbt : List UInt8 :=
  PsbtV2.magic ++ [0x01, 0x00, 0x3c, 0x02, 0x00, 0x00, 0x00, 0x01] ++ List.replicate 32 7 ++
    [0x00, 0x00, 0x00, 0x00, 0x00, 0xff, 0xff, 0xff, 0xff, 0x01, 0x32, 0x00, 0x00, 0x00, 0x00, 0x00, 0x00, 0x00, 0x00,
      0x00, 0x00, 0x00, 0x00, 0x00, 0x01, 0x03, 0x04, 0x01, 0x00, 0x00, 0x00, 0x01, 0x04, 0x01, 0x51, 0x00, 0x00]

/-- One of version 2, with an input and an output map of their own. -/
def smallPsbtV2 : List UInt8 :=
  PsbtV2.magic ++ [0x01, 0xfb, 0x04, 0x02, 0x00, 0x00, 0x00, 0x01, 0x04, 0x01, 0x01, 0x01, 0x05, 0x01, 0x01, 0x00, 0x01,
    0x0e, 0x20] ++ List.replicate 32 7 ++ [0x01, 0x0f, 0x04, 0x00, 0x00, 0x00, 0x00, 0x00, 0x01, 0x03, 0x08, 0x32, 0x00,
      0x00, 0x00, 0x00, 0x00, 0x00, 0x00, 0x01, 0x04, 0x01, 0x51, 0x00]

theorem smallPsbts_harmless :
    (smallPsbt ∉ PsbtParsers.badPsbt ∧ smallPsbt ∉ badPsbt) ∧
      smallPsbtV2 ∉ PsbtParsers.badPsbt ∧ smallPsbtV2 ∉ badPsbt :=
  ⟨(parsers_survive_iff smallPsbt (by decide)).mp
      ⟨(by intro fault hfault; cases hfault), (by intro fault hfault; cases hfault)⟩,
    (parsers_survive_iff smallPsbtV2 (by decide)).mp
      ⟨(by intro fault hfault; cases hfault), (by intro fault hfault; cases hfault)⟩⟩

/-- The magic bytes and a key of 2^64 - 1 bytes. -/
def endlessKey : List UInt8 := PsbtV2.magic ++ List.replicate 9 0xff

/-- The end of the key wraps below its start. -/
theorem endlessKey_panics :
    endlessKey.length < 2 ^ 63 ∧ PsbtParsers.deserialize endlessKey = .error (.fault .outOfRange) ∧
      deserialize endlessKey = .error (.fault .outOfRange) := ⟨by decide, rfl, rfl⟩

end Survival

end KuberCoin.PsbtV2Parsers
