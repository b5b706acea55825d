import KuberCoin.Records
import Mathlib.Data.Set.Basic

/-!
Readers of a byte array from a position on, in the arithmetic of a machine: a sum of sizes
wraps. Besides the errors it returns, such a reader may leave the array, make room for more
values than there are bytes left, or turn without taking a byte. `Covers` compares it with
a reader of the bytes that are left, in which nothing wraps: on the hazard the first one
fails so, and elsewhere both end alike.
-/
namespace KuberCoin.GuardedReads

open Bytes Decoders Records

inductive Fault
  | outOfRange
  | overReserve
  | idle
  deriving DecidableEq

/-- Why a reader stops: an error that it returns, or a fault. -/
inductive Stop (ε : Type)
  | err (e : ε)
  | fault (f : Fault)
  deriving DecidableEq

/-- A reader moves a position. -/
abbrev Cursor (ε : Type) := StateT ℕ (Except (Stop ε))

/-- A reader of the bytes that are left. -/
abbrev Ideal (ε : Type) := StateT (List UInt8) (Except ε)

variable {ε α β σ : Type}

/-- A result without a fault. -/
def Survives (r : Except (Stop ε) α) : Prop := ∀ f, r ≠ .error (.fault f)

def Faults (r : Except (Stop ε) α) : Prop := ∃ f, r = .error (.fault f)

theorem survives_iff {r : Except (Stop ε) α} : Survives r ↔ ¬ Faults r := by
  unfold Survives Faults
  push Not
  exact Iff.rfl

def lift : Except ε α → Except (Stop ε) α
  | .ok a => .ok a
  | .error e => .error (.err e)

section Machine

variable {a b hi lo : ℕ} {data : List UInt8}

/-- The sum of two sizes on the machine. -/
def add (a b : ℕ) : ℕ := (a + b) % 2 ^ 64

theorem add_eq (h : a + b < 2 ^ 64) : add a b = a + b := Nat.mod_eq_of_lt h

/-- A sum that wraps ends below both sizes. -/
theorem add_lt (hb : b < 2 ^ 64) (h : 2 ^ 64 ≤ a + b) (ha : a < 2 ^ 64) : add a b < a := by
  have hsub : add a b = a + b - 2 ^ 64 := by
    unfold add
    rw [Nat.mod_eq_sub_mod h, Nat.mod_eq_of_lt (by omega)]
  omega

/-- `&data[lo..hi]`. -/
def slice (data : List UInt8) (lo hi : ℕ) : Except (Stop ε) (List UInt8) :=
  if lo ≤ hi ∧ hi ≤ data.length then .ok ((data.take hi).drop lo) else .error (.fault .outOfRange)

theorem slice_eq (h : lo ≤ hi) (h' : hi ≤ data.length) :
    slice (ε := ε) data lo hi = .ok ((data.drop lo).take (hi - lo)) := by
  rw [slice, if_pos ⟨h, h'⟩, List.drop_take]

theorem slice_fault (h : ¬ (lo ≤ hi ∧ hi ≤ data.length)) :
    slice (ε := ε) data lo hi = .error (.fault .outOfRange) := if_neg h

/-- The next bytes, so many, without a look at how many there are. -/
def word (n : ℕ) (data : List UInt8) : Cursor ε (List UInt8) := fun cursor =>
  (slice data cursor (add cursor n)).map fun bytes => (bytes, add cursor n)

/-- The look at how many there are. -/
def check (n : ℕ) (error : ε) (data : List UInt8) : Cursor ε Unit := fun cursor =>
  if data.length < add cursor n then .error (.err error) else .ok ((), cursor)

/-- Room for so many values, of which each takes a byte at least. -/
def reserve (n : ℕ) (data : List UInt8) : Cursor ε Unit := fun cursor =>
  if data.length - cursor < n then .error (.fault .overReserve) else .ok ((), cursor)

/-- A turn of a loop, which has to take a byte. -/
def advancing (body : List UInt8 → Cursor ε α) (data : List UInt8) : Cursor ε α := fun cursor =>
  match body data cursor with
  | .error stop => .error stop
  | .ok (a, next) => if next ≤ cursor then .error (.fault .idle) else .ok (a, next)

/-- `for _ in 0..n`. -/
def turns (body : List UInt8 → Cursor ε α) : ℕ → List UInt8 → Cursor ε (List α)
  | 0, _ => pure []
  | n + 1, data => do
      let a ← advancing body data
      let as ← turns body n data
      return a :: as

/-- A reader of the bytes from the position on, as an array of its own. -/
def within (reader : List UInt8 → Cursor ε α) (data : List UInt8) : Cursor ε α := fun cursor =>
  match slice data cursor data.length with
  | .error stop => .error stop
  | .ok rest =>
      match reader rest 0 with
      | .error stop => .error stop
      | .ok (a, taken) => .ok (a, add cursor taken)

/-- The loop over the records of a map, up to its end. -/
def loopRecords (parse : List UInt8 → Cursor ε (Option Record)) (absorb : σ → Record → Except (Stop ε) σ) :
    ℕ → σ → List UInt8 → Cursor ε σ
  | 0, _, _ => fun _ => .error (.fault .idle)
  | fuel + 1, s, data => fun cursor =>
      match parse data cursor with
      | .error stop => .error stop
      | .ok (none, next) => .ok (s, next)
      | .ok (some r, next) =>
          match absorb s r with
          | .error stop => .error stop
          | .ok s' =>
              if next ≤ cursor then .error (.fault .idle) else loopRecords parse absorb fuel s' data next

end Machine

section Covering

variable {next : α → Hazard} {f : α → List UInt8 → Cursor ε β} {g : α → Ideal ε β} {total : ℕ} {bytes : List UInt8}

/-- Bytes at the end of an array of a given length. -/
abbrev Hazard := ℕ → Set (List UInt8)

/-- Both readers end alike, at one place. -/
inductive Agrees (data : List UInt8) (cursor : ℕ) : Except ε (α × List UInt8) → Except (Stop ε) (α × ℕ) → Prop
  | ok {a : α} {next : ℕ} (hle : cursor ≤ next) (hlen : next ≤ data.length) :
      Agrees data cursor (.ok (a, data.drop next)) (.ok (a, next))
  | error {e : ε} : Agrees data cursor (.error e) (.error (.err e))

/-- What begins behind a place begins behind every earlier one. -/
theorem Agrees.mono {data : List UInt8} {cursor next : ℕ} {i : Except ε (α × List UInt8)} {r : Except (Stop ε) (α × ℕ)}
    (h : Agrees data next i r) (hle : cursor ≤ next) : Agrees data cursor i r := by
  cases h with
  | ok hle' hlen => exact .ok (hle.trans hle') hlen
  | error => exact .error

theorem agrees_suffix {data rest : List UInt8} {cursor : ℕ} (a : α) (hcursor : cursor ≤ data.length)
    (h : rest <:+ data.drop cursor) :
    Agrees (ε := ε) data cursor (.ok (a, rest)) (.ok (a, data.length - rest.length)) := by
  have hlen := h.length_le
  have hrest := List.suffix_iff_eq_drop.mp (h.trans (List.drop_suffix _ _))
  rw [List.length_drop] at hlen
  conv in Except.ok (a, rest) => rw [hrest]
  exact .ok (by omega) (Nat.sub_le _ _)

/-- No array has more than 2^63 - 1 bytes. -/
structure Covers (reader : List UInt8 → Cursor ε α) (ideal : Ideal ε α) (hazard : Hazard) : Prop where
  faults : ∀ {data : List UInt8} {cursor : ℕ}, data.length < 2 ^ 63 → cursor ≤ data.length →
    data.drop cursor ∈ hazard data.length → Faults (reader data cursor)
  agrees : ∀ {data : List UInt8} {cursor : ℕ}, data.length < 2 ^ 63 → cursor ≤ data.length →
    data.drop cursor ∉ hazard data.length → Agrees data cursor (ideal (data.drop cursor)) (reader data cursor)

/-- A hazard behind what is read first. -/
def after (ideal : Ideal ε α) (next : α → Hazard) : Hazard := fun total =>
  {bytes | ∃ a rest, ideal bytes = .ok (a, rest) ∧ rest ∈ next a total}

/-- A hazard behind fewer values than `n`. -/
def among (ideal : Ideal ε α) (hazard : Hazard) (n : ℕ) : Hazard := fun total =>
  {bytes | ∃ i < n, ∃ as rest, readMany ideal i bytes = .ok (as, rest) ∧ rest ∈ hazard total}

variable {reader : List UInt8 → Cursor ε α} {ideal : Ideal ε α} {hazard hazard' : Hazard} {data : List UInt8}
  {cursor n : ℕ}

theorem drop_length (hcursor : cursor ≤ data.length) : data.length - (data.drop cursor).length = cursor := by
  rw [List.length_drop]
  omega

theorem Covers.imp (h : Covers reader ideal hazard)
    (hiff : ∀ {total : ℕ} {bytes : List UInt8}, total < 2 ^ 63 → bytes.length ≤ total →
      (bytes ∈ hazard total ↔ bytes ∈ hazard' total)) : Covers reader ideal hazard' where
  faults := by
    intro data cursor hdata hcursor hmem
    exact h.faults hdata hcursor ((hiff hdata (by rw [List.length_drop]; omega)).mpr hmem)
  agrees := by
    intro data cursor hdata hcursor hmem
    exact h.agrees hdata hcursor fun hin => hmem ((hiff hdata (by rw [List.length_drop]; omega)).mp hin)

theorem Covers.congr {ideal' : Ideal ε α} (h : Covers reader ideal hazard) (heq : ∀ bytes, ideal bytes = ideal' bytes) :
    Covers reader ideal' hazard := by
  have : ideal = ideal' := funext heq
  exact this ▸ h

theorem covers_pure (a : α) : Covers (fun _ => (pure a : Cursor ε α)) (pure a) fun _ => ∅ where
  faults := fun _ _ hmem => hmem.elim
  agrees := fun _ hcursor _ => .ok le_rfl hcursor

theorem Covers.of_eq {reader' : List UInt8 → Cursor ε α} (h : Covers reader ideal hazard)
    (heq : ∀ {data : List UInt8} {cursor : ℕ}, data.length < 2 ^ 63 → cursor ≤ data.length →
      reader' data cursor = reader data cursor) : Covers reader' ideal hazard where
  faults := fun hdata hcursor hmem => heq hdata hcursor ▸ h.faults hdata hcursor hmem
  agrees := fun hdata hcursor hmem => heq hdata hcursor ▸ h.agrees hdata hcursor hmem

theorem covers_throw (e : ε) : Covers (fun _ => (throw (.err e) : Cursor ε α)) (throw e) fun _ => ∅ where
  faults := fun _ _ hmem => hmem.elim
  agrees := fun _ _ _ => .error

theorem Covers.bind (h : Covers reader ideal hazard)
    (hf : ∀ {a : α} {bytes rest : List UInt8}, ideal bytes = .ok (a, rest) → Covers (f a) (g a) (next a)) :
    Covers (fun data => reader data >>= fun a => f a data) (ideal >>= g)
      fun total => hazard total ∪ after ideal next total where
  faults := by
    intro data cursor hdata hcursor hmem
    show Faults (reader data cursor >>= fun x => f x.1 data x.2)
    by_cases hfirst : data.drop cursor ∈ hazard data.length
    · obtain ⟨fault, hfault⟩ := h.faults hdata hcursor hfirst
      exact ⟨fault, by rw [hfault]; rfl⟩
    · obtain hin | ⟨a, rest, hread, hin⟩ := hmem
      · exact absurd hin hfirst
      · have hagree := h.agrees hdata hcursor hfirst
        generalize reader data cursor = r at hagree ⊢
        rw [hread] at hagree
        cases hagree with
        | ok hle hlen => exact (hf hread).faults hdata hlen hin
  agrees := by
    intro data cursor hdata hcursor hmem
    show Agrees data cursor (ideal (data.drop cursor) >>= fun x => g x.1 x.2)
      (reader data cursor >>= fun x => f x.1 data x.2)
    have hagree := h.agrees hdata hcursor fun hin => hmem (Or.inl hin)
    have hlater : ∀ a rest, ideal (data.drop cursor) = .ok (a, rest) → rest ∉ next a data.length :=
      fun a rest hread hin => hmem (Or.inr ⟨a, rest, hread, hin⟩)
    have hwhere : ∀ a rest, ideal (data.drop cursor) = .ok (a, rest) → Covers (f a) (g a) (next a) :=
      fun a rest hread => hf hread
    generalize reader data cursor = r, ideal (data.drop cursor) = i at hagree hlater hwhere ⊢
    cases hagree with
    | error => exact .error
    | @ok a next' hle hlen =>
      exact ((hwhere a _ rfl).agrees hdata hlen (hlater a _ rfl)).mono hle

theorem Covers.thenSafe (h : Covers reader ideal hazard) (hf : ∀ a : α, Covers (f a) (g a) fun _ => ∅) :
    Covers (fun data => reader data >>= fun a => f a data) (ideal >>= g) hazard :=
  (h.bind fun _ => hf _).imp fun {total bytes} _ _ => by
    refine ⟨?_, Or.inl⟩
    rintro (hin | ⟨_, _, _, hin⟩)
    · exact hin
    · exact hin.elim

theorem Covers.map (h : Covers reader ideal hazard) (f : α → β) :
    Covers (fun data => reader data >>= fun a => pure (f a)) (ideal >>= fun a => pure (f a)) hazard :=
  h.thenSafe fun a => covers_pure (f a)

theorem Covers.andThen (h : Covers reader ideal fun _ => ∅)
    (hf : ∀ {a : α} {bytes rest : List UInt8}, ideal bytes = .ok (a, rest) → Covers (f a) (g a) (next a)) :
    Covers (fun data => reader data >>= fun a => f a data) (ideal >>= g) (after ideal next) :=
  (h.bind hf).imp fun _ _ => or_iff_right (Set.notMem_empty _)

@[simp] theorem mem_after_pure {a : α} : bytes ∈ after (pure a : Ideal ε α) next total ↔ bytes ∈ next a total := by
  constructor
  · rintro ⟨_, _, hread, hin⟩
    cases hread
    exact hin
  · intro hin
    exact ⟨a, bytes, rfl, hin⟩

theorem mem_after_map {f : α → β} {next : β → Hazard} :
    bytes ∈ after (ideal >>= fun a => pure (f a)) next total ↔ bytes ∈ after ideal (fun a => next (f a)) total := by
  have hread : (ideal >>= fun a => (pure (f a) : Ideal ε β)) bytes = (ideal bytes).map fun x => (f x.1, x.2) := by
    show (ideal bytes >>= fun x => _) = _
    cases ideal bytes <;> rfl
  unfold after
  simp only [Set.mem_ofPred_eq, hread]
  cases ideal bytes with
  | error => simp [Except.map]
  | ok x =>
    simp only [Except.map, Except.ok.injEq, Prod.mk.injEq]
    constructor
    · rintro ⟨b, rest, ⟨rfl, rfl⟩, hin⟩
      exact ⟨x.1, x.2, rfl, hin⟩
    · rintro ⟨a, rest, rfl, hin⟩
      exact ⟨f a, rest, ⟨rfl, rfl⟩, hin⟩

end Covering

section Fields

variable {data : List UInt8} {cursor n : ℕ} {error : ε}

/-- The next bytes, so many; the error where there are fewer. -/
def bytesOr (n : ℕ) (error : ε) : Ideal ε (List UInt8) := fun bytes =>
  if n ≤ bytes.length then .ok (bytes.take n, bytes.drop n) else .error error

theorem word_eq (hdata : data.length < 2 ^ 63) (h : cursor + n ≤ data.length) :
    word (ε := ε) n data cursor = .ok ((data.drop cursor).take n, cursor + n) := by
  rw [word, add_eq (by omega), slice_eq (by omega) h, Nat.add_sub_cancel_left]
  rfl

theorem word_agrees (hdata : data.length < 2 ^ 63) (h : cursor + n ≤ data.length) :
    Agrees data cursor (bytesOr n error (data.drop cursor)) (word n data cursor) := by
  rw [bytesOr, if_pos (by rw [List.length_drop]; omega), List.drop_drop, word_eq hdata h]
  exact .ok (by omega) h

/-- The end of a slice that is too long is beyond the array, or wraps below its start. -/
theorem not_slice (hn : n < 2 ^ 64) (hdata : data.length < 2 ^ 63) (hcursor : cursor ≤ data.length)
    (h : data.length < cursor + n) : ¬ (cursor ≤ add cursor n ∧ add cursor n ≤ data.length) := by
  by_cases hwrap : cursor + n < 2 ^ 64
  · rw [add_eq hwrap]
    omega
  · have := add_lt hn (by omega) (by omega : cursor < 2 ^ 64)
    omega

theorem word_faults (hn : n < 2 ^ 64) (hdata : data.length < 2 ^ 63) (hcursor : cursor ≤ data.length)
    (h : data.length < cursor + n) : word (ε := ε) n data cursor = .error (.fault .outOfRange) := by
  rw [word, slice_fault (not_slice hn hdata hcursor h)]
  rfl

theorem covers_word (hn : n < 2 ^ 64) : Covers (word n) (bytesOr n error) fun _ => {bytes | bytes.length < n} where
  faults := by
    intro data cursor hdata hcursor hmem
    have hshort : (data.drop cursor).length < n := hmem
    rw [List.length_drop] at hshort
    exact ⟨_, word_faults hn hdata hcursor (by omega)⟩
  agrees := by
    intro data cursor hdata hcursor hmem
    have hlong : ¬ (data.drop cursor).length < n := hmem
    rw [List.length_drop] at hlong
    exact word_agrees hdata (by omega)

/-- The end of the next `n` bytes is beyond every position of the machine. -/
def wraps (n : ℕ) : Hazard := fun total => {bytes | 2 ^ 64 ≤ total - bytes.length + n}

/-- Of a checked slice only the lengths that wrap are left: they pass the check, and the
slice ends before it begins. -/
theorem covers_checked (hn : n < 2 ^ 64) (error : ε) :
    Covers (fun data => check n error data >>= fun _ => word n data) (bytesOr n error) (wraps n) where
  faults := by
    intro data cursor hdata hcursor hmem
    have hwrap : 2 ^ 64 ≤ data.length - (data.drop cursor).length + n := hmem
    rw [drop_length hcursor] at hwrap
    have hlt := add_lt hn hwrap (by omega : cursor < 2 ^ 64)
    have hcheck : check n error data cursor = .ok ((), cursor) := if_neg (by omega)
    show Faults (check n error data cursor >>= fun x => word n data x.2)
    rw [hcheck]
    exact ⟨_, word_faults hn hdata hcursor (by omega)⟩
  agrees := by
    intro data cursor hdata hcursor hmem
    have hwrap : ¬ 2 ^ 64 ≤ data.length - (data.drop cursor).length + n := hmem
    rw [drop_length hcursor] at hwrap
    show Agrees data cursor _ (check n error data cursor >>= fun x => word n data x.2)
    have hadd : add cursor n = cursor + n := add_eq (by omega)
    by_cases hlen : data.length < cursor + n
    · have hcheck : check n error data cursor = .error (.err error) := if_pos (by rw [hadd]; exact hlen)
      rw [hcheck, bytesOr, if_neg (by rw [List.length_drop]; omega)]
      exact .error
    · have hcheck : check n error data cursor = .ok ((), cursor) := if_neg (by rw [hadd]; exact hlen)
      rw [hcheck]
      exact word_agrees hdata (by omega)

theorem covers_fixed (hn : n ≤ 2 ^ 63) :
    Covers (fun data => check n error data >>= fun _ => word n data) (bytesOr n error) fun _ => ∅ :=
  (covers_checked (by omega) error).imp fun {total bytes} htotal hlen => by
    refine ⟨fun hwrap => ?_, False.elim⟩
    have : 2 ^ 64 ≤ total - bytes.length + n := hwrap
    omega

theorem covers_reserve : Covers (reserve n) (pure () : Ideal ε Unit) fun _ => {bytes | bytes.length < n} where
  faults := by
    intro data cursor hdata hcursor hmem
    have hshort : (data.drop cursor).length < n := hmem
    rw [List.length_drop] at hshort
    exact ⟨.overReserve, if_pos hshort⟩
  agrees := by
    intro data cursor hdata hcursor hmem
    have hlong : ¬ (data.drop cursor).length < n := hmem
    rw [List.length_drop] at hlong
    rw [reserve, if_neg hlong]
    exact .ok le_rfl hcursor

end Fields

section Lengths

variable {ideal : Ideal ε α} {g : α → Ideal ε β} {n : ℕ}

/-- A reader leaves no more bytes than there are. -/
def Shrinks (ideal : Ideal ε α) : Prop :=
  ∀ ⦃bytes rest : List UInt8⦄ ⦃a : α⦄, ideal bytes = .ok (a, rest) → rest.length ≤ bytes.length

/-- A reader takes a byte at least. -/
def Consumes (ideal : Ideal ε α) : Prop :=
  ∀ ⦃bytes rest : List UInt8⦄ ⦃a : α⦄, ideal bytes = .ok (a, rest) → rest.length < bytes.length

theorem Consumes.shrinks (h : Consumes ideal) : Shrinks ideal := fun _ _ _ hread => (h hread).le

theorem bind_eq_ok {bytes rest : List UInt8} {b : β} :
    (ideal >>= g) bytes = .ok (b, rest) ↔ ∃ a mid, ideal bytes = .ok (a, mid) ∧ g a mid = .ok (b, rest) := by
  show (ideal bytes >>= fun x => g x.1 x.2) = _ ↔ _
  cases ideal bytes with
  | error e => simp [bind, Except.bind]
  | ok x =>
    simp only [bind, Except.bind, Except.ok.injEq]
    constructor
    · exact fun h => ⟨x.1, x.2, rfl, h⟩
    · rintro ⟨a, mid, rfl, h⟩
      exact h

theorem shrinks_pure (a : α) : Shrinks (pure a : Ideal ε α) := by
  intro bytes rest b hread
  cases hread
  exact le_rfl

theorem Shrinks.bind (h : Shrinks ideal) (hg : ∀ a, Shrinks (g a)) : Shrinks (ideal >>= g) := by
  intro bytes rest b hread
  obtain ⟨a, mid, hfirst, hsecond⟩ := bind_eq_ok.mp hread
  exact (hg a hsecond).trans (h hfirst)

theorem Consumes.bind (h : Consumes ideal) (hg : ∀ a, Shrinks (g a)) : Consumes (ideal >>= g) := by
  intro bytes rest b hread
  obtain ⟨a, mid, hfirst, hsecond⟩ := bind_eq_ok.mp hread
  exact (hg a hsecond).trans_lt (h hfirst)

theorem shrinks_bytesOr (error : ε) : Shrinks (bytesOr n error) := by
  intro bytes rest field hread
  unfold bytesOr at hread
  split at hread
  next =>
    cases hread
    rw [List.length_drop]
    omega
  next => cases hread

theorem consumes_bytesOr (error : ε) (hn : 0 < n) : Consumes (bytesOr n error) := by
  intro bytes rest field hread
  unfold bytesOr at hread
  split at hread
  next =>
    cases hread
    rw [List.length_drop]
    omega
  next => cases hread

end Lengths

section Loops

variable {reader : List UInt8 → Cursor ε α} {ideal : Ideal ε α} {hazard : Hazard} {data : List UInt8} {cursor n : ℕ}

theorem drop_injective {next : ℕ} (hcursor : cursor ≤ data.length) (hnext : next ≤ data.length)
    (h : data.drop cursor = data.drop next) : cursor = next := by
  have hlen := congrArg List.length h
  rw [List.length_drop, List.length_drop] at hlen
  omega

/-- A turn also fails where the reader takes nothing. -/
theorem Covers.advancing (h : Covers reader ideal hazard) :
    Covers (advancing reader) ideal fun total => hazard total ∪ {bytes | ∃ a, ideal bytes = .ok (a, bytes)} where
  faults := by
    intro data cursor hdata hcursor hmem
    unfold GuardedReads.advancing
    by_cases hin : data.drop cursor ∈ hazard data.length
    · obtain ⟨fault, hfault⟩ := h.faults hdata hcursor hin
      exact ⟨fault, by rw [hfault]⟩
    · obtain hin' | ⟨a, hread⟩ := hmem
      · exact absurd hin' hin
      · have hagree := h.agrees hdata hcursor hin
        generalize reader data cursor = r, hi : ideal (data.drop cursor) = i at hagree hread ⊢
        cases hagree with
        | error => cases hread
        | @ok b next hle hlen =>
          have hrest : data.drop next = data.drop cursor := congrArg Prod.snd (Except.ok.inj hread)
          have hsame := drop_injective hlen hcursor hrest
          exact ⟨.idle, if_pos hsame.le⟩
  agrees := by
    intro data cursor hdata hcursor hmem
    unfold GuardedReads.advancing
    have hagree := h.agrees hdata hcursor fun hin => hmem (Or.inl hin)
    have hmoves : ∀ a, ideal (data.drop cursor) ≠ .ok (a, data.drop cursor) :=
      fun a hread => hmem (Or.inr ⟨a, hread⟩)
    generalize reader data cursor = r, ideal (data.drop cursor) = i at hagree hmoves ⊢
    cases hagree with
    | error => exact .error
    | @ok b next hle hlen =>
      have hne : next ≠ cursor := by
        rintro rfl
        exact hmoves b rfl
      show Agrees data cursor _ (if next ≤ cursor then _ else _)
      rw [if_neg (by omega)]
      exact .ok hle hlen

theorem Covers.advancing_of_consumes (h : Covers reader ideal hazard) (hconsumes : Consumes ideal) :
    Covers (GuardedReads.advancing reader) ideal hazard :=
  h.advancing.imp fun {total bytes} _ _ => by
    refine ⟨?_, Or.inl⟩
    rintro (hin | ⟨a, hread⟩)
    · exact hin
    · exact absurd (hconsumes hread) (lt_irrefl _)

theorem readMany_succ_eq_ok {bytes rest : List UInt8} {l : List α} : readMany ideal (n + 1) bytes = .ok (l, rest) ↔
      ∃ a mid as, ideal bytes = .ok (a, mid) ∧ readMany ideal n mid = .ok (as, rest) ∧ l = a :: as := by
  show (ideal >>= fun a => (readMany ideal n : Ideal ε (List α)) >>= fun as => pure (a :: as)) bytes = _ ↔ _
  rw [bind_eq_ok]
  refine exists₂_congr fun a mid => ?_
  rw [bind_eq_ok]
  constructor
  · rintro ⟨hfirst, as, last, hlater, hpure⟩
    cases hpure
    exact ⟨as, hfirst, hlater, rfl⟩
  · rintro ⟨as, hfirst, hlater, rfl⟩
    exact ⟨hfirst, as, rest, hlater, rfl⟩

theorem among_succ {total : ℕ} {bytes : List UInt8} : bytes ∈ among ideal hazard (n + 1) total ↔
      bytes ∈ hazard total ∨ ∃ a rest, ideal bytes = .ok (a, rest) ∧ rest ∈ among ideal hazard n total := by
  constructor
  · rintro ⟨i, hi, as, rest, hread, hin⟩
    cases i with
    | zero =>
      cases hread
      exact Or.inl hin
    | succ i =>
      obtain ⟨a, mid, later, hfirst, hlater, -⟩ := readMany_succ_eq_ok.mp hread
      exact Or.inr ⟨a, mid, hfirst, i, Nat.lt_of_succ_lt_succ hi, later, rest, hlater, hin⟩
  · rintro (hin | ⟨a, rest, hfirst, i, hi, as, last, hlater, hin⟩)
    · exact ⟨0, Nat.succ_pos n, [], bytes, rfl, hin⟩
    · exact ⟨i + 1, Nat.succ_lt_succ hi, a :: as, last,
        readMany_succ_eq_ok.mpr ⟨a, rest, as, hfirst, hlater, rfl⟩, hin⟩

theorem Covers.turns (h : Covers (GuardedReads.advancing reader) ideal hazard) :
    Covers (turns reader n) (readMany ideal n) (among ideal hazard n) := by
  induction n with
  | zero =>
    refine (covers_pure []).imp fun _ _ => ⟨False.elim, ?_⟩
    rintro ⟨i, hi, -⟩
    exact absurd hi (Nat.not_lt_zero i)
  | succ n ih =>
    have hbind := h.bind (f := fun a data => GuardedReads.turns reader n data >>= fun as => pure (a :: as))
      (g := fun a => (readMany ideal n : Ideal ε (List α)) >>= fun as => pure (a :: as))
      fun {a _ _} _ => ih.map (a :: ·)
    exact (hbind.imp fun {total bytes} _ _ => among_succ.symm).congr fun bytes => rfl

theorem Covers.within (h : Covers reader ideal hazard) :
    Covers (within reader) ideal fun _ => {bytes | bytes ∈ hazard bytes.length} where
  faults := by
    intro data cursor hdata hcursor hmem
    have hin : (data.drop cursor).drop 0 ∈ hazard (data.drop cursor).length := hmem
    have hrest : (data.drop cursor).length < 2 ^ 63 := by
      rw [List.length_drop]
      omega
    obtain ⟨fault, hfault⟩ := h.faults hrest (Nat.zero_le _) hin
    refine ⟨fault, ?_⟩
    rw [GuardedReads.within, slice_eq hcursor le_rfl, List.take_of_length_le (by rw [List.length_drop])]
    show (match reader (data.drop cursor) 0 with | .error stop => _ | .ok (a, taken) => _) = _
    rw [hfault]
  agrees := by
    intro data cursor hdata hcursor hmem
    have hin : (data.drop cursor).drop 0 ∉ hazard (data.drop cursor).length := hmem
    have hrest : (data.drop cursor).length < 2 ^ 63 := by
      rw [List.length_drop]
      omega
    have hagree := h.agrees hrest (Nat.zero_le _) hin
    rw [List.drop_zero] at hagree
    rw [GuardedReads.within, slice_eq hcursor le_rfl, List.take_of_length_le (by rw [List.length_drop])]
    show Agrees data cursor _ (match reader (data.drop cursor) 0 with | .error stop => _ | .ok (a, taken) => _)
    generalize reader (data.drop cursor) 0 = r, ideal (data.drop cursor) = i at hagree ⊢
    cases hagree with
    | error => exact .error
    | @ok b next hle hlen =>
      rw [List.length_drop] at hlen
      rw [List.drop_drop]
      show Agrees data cursor _ (.ok (b, add cursor next))
      rw [add_eq (by omega)]
      exact .ok (by omega) (by omega)

end Loops

section Lists

variable {reader : List UInt8 → Cursor ε α} {ideal : Ideal ε α} {hazard : Hazard} {n : ℕ}

/-- More values than there are bytes for them, or a hazard in one of them. -/
def listHazard (ideal : Ideal ε α) (hazard : Hazard) (n : ℕ) : Hazard := fun total =>
  {bytes | bytes.length < n} ∪ among ideal hazard n total

theorem covers_list (h : Covers reader ideal hazard) (hconsumes : Consumes ideal) :
    Covers (fun data => reserve n data >>= fun _ => turns reader n data) (readMany ideal n)
      (listHazard ideal hazard n) :=
  ((covers_reserve.bind fun _ => (h.advancing_of_consumes hconsumes).turns).congr fun _ => rfl).imp
    fun _ _ => or_congr_right mem_after_pure

end Lists

section Sizes

variable {bytes field rest value : List UInt8} {n total : ℕ} {error : ε}

/-- How many bytes a size takes behind its first byte. -/
def sizeBytes (first : UInt8) : ℕ :=
  if first ≤ 0xfc then 0 else if first = 0xfd then 2 else if first = 0xfe then 4 else 8

theorem sizeBytes_le (first : UInt8) : sizeBytes first ≤ 8 := by
  unfold sizeBytes
  split <;> [skip; split <;> [skip; split]] <;> omega

theorem compactSize_cons (first : UInt8) (rest : List UInt8) : compactSize (first :: rest) =
      if first ≤ 0xfc then some (first.toNat, rest)
      else if sizeBytes first ≤ rest.length then
        some (leValue (rest.take (sizeBytes first)), rest.drop (sizeBytes first))
      else none := by
  have huint : ∀ k : ℕ, uint k rest = if k ≤ rest.length then some (leValue (rest.take k), rest.drop k) else none := by
    intro k
    show (exactly k rest).bind _ = _
    unfold exactly
    split <;> rfl
  unfold sizeBytes
  show (if first ≤ 0xfc then some (first.toNat, rest) else if first = 0xfd then uint 2 rest
    else if first = 0xfe then uint 4 rest else uint 8 rest) = _
  by_cases hsmall : first ≤ 0xfc
  · rw [if_pos hsmall, if_pos hsmall]
  · simp only [if_neg hsmall]
    by_cases htwo : first = 0xfd
    · simp only [if_pos htwo]
      exact huint 2
    · simp only [if_neg htwo]
      by_cases hfour : first = 0xfe
      · simp only [if_pos hfour]
        exact huint 4
      · simp only [if_neg hfour]
        exact huint 8

theorem compactSize_bounds (h : compactSize bytes = some (n, rest)) : n < 2 ^ 64 ∧ rest.length < bytes.length := by
  cases bytes with
  | nil => cases h
  | cons first tail =>
    rw [compactSize_cons] at h
    split at h
    next =>
      cases h
      have := first.toNat_lt
      simp only [List.length_cons]
      omega
    next =>
      split at h
      next hlen =>
        cases h
        have hwidth := sizeBytes_le first
        have hvalue := leValue_lt (tail.take (sizeBytes first))
        have hle : 256 ^ (tail.take (sizeBytes first)).length ≤ 256 ^ 8 :=
          Nat.pow_le_pow_right (by omega) (by rw [List.length_take]; omega)
        simp only [List.length_drop, List.length_cons]
        omega
      next => cases h

theorem compactSize_suffix (h : compactSize bytes = some (n, rest)) : rest <:+ bytes := by
  cases bytes with
  | nil => cases h
  | cons first tail =>
    rw [compactSize_cons] at h
    split at h
    next =>
      cases h
      exact List.suffix_cons first rest
    next =>
      split at h
      next =>
        cases h
        exact (List.drop_suffix _ _).trans (List.suffix_cons first tail)
      next => cases h

theorem sized_eq_some : sized bytes = some (field, rest) ↔ ∃ n mid, compactSize bytes = some (n, mid) ∧
      n ≤ mid.length ∧ field = mid.take n ∧ rest = mid.drop n := by
  show (compactSize bytes).bind (fun x => exactly x.1 x.2) = _ ↔ _
  cases compactSize bytes with
  | none => simp
  | some x =>
    unfold exactly
    simp only [Option.bind_some, Option.some.injEq]
    constructor
    · intro h
      split at h
      next hle =>
        cases h
        exact ⟨x.1, x.2, rfl, hle, rfl, rfl⟩
      next => cases h
    · rintro ⟨n, mid, rfl, hle, rfl, rfl⟩
      rw [if_pos hle]

/-- `data[i]`. -/
def index (data : List UInt8) (i : ℕ) : Except (Stop ε) UInt8 :=
  match data[i]? with
  | some b => .ok b
  | none => .error (.fault .outOfRange)

/-- `&key[1..]`. -/
def keyData (key : List UInt8) : Except (Stop ε) (List UInt8) := slice key 1 key.length

theorem keyData_cons (keyType : UInt8) (rest : List UInt8) : keyData (ε := ε) (keyType :: rest) = .ok rest := by
  rw [keyData, slice_eq (by simp) le_rfl]
  simp

theorem slice_front (h : n ≤ value.length) : slice (ε := ε) value 0 n = .ok (value.take n) := by
  rw [slice_eq (Nat.zero_le _) h]
  rfl

theorem slice_back (h : n ≤ value.length) : slice (ε := ε) value n value.length = .ok (value.drop n) := by
  rw [slice_eq h le_rfl, List.take_of_length_le (by rw [List.length_drop])]

/-- The hazard of what stands behind `n` bytes. -/
def skip (n : ℕ) (hazard : Hazard) : Hazard := fun total => {bytes | n ≤ bytes.length ∧ bytes.drop n ∈ hazard total}

theorem bytesOr_eq_ok :
    bytesOr n error bytes = .ok (field, rest) ↔ n ≤ bytes.length ∧ field = bytes.take n ∧ rest = bytes.drop n := by
  unfold bytesOr
  split
  next hle =>
    simp only [Except.ok.injEq, Prod.mk.injEq, hle, true_and]
    exact and_congr eq_comm eq_comm
  next hlt => simp [hlt]

theorem mem_after_bytesOr {next : List UInt8 → Hazard} :
    bytes ∈ after (bytesOr n error) next total ↔ bytes ∈ skip n (next (bytes.take n)) total := by
  constructor
  · rintro ⟨field, rest, hread, hin⟩
    obtain ⟨hle, rfl, rfl⟩ := bytesOr_eq_ok.mp hread
    exact ⟨hle, hin⟩
  · rintro ⟨hle, hin⟩
    exact ⟨_, _, bytesOr_eq_ok.mpr ⟨hle, rfl, rfl⟩, hin⟩

/-- A size that reaches beyond every position. -/
def longSize : Hazard := fun total => {bytes | ∃ n rest, compactSize bytes = some (n, rest) ∧ rest ∈ wraps n total}

/-- A size that reaches beyond the bytes that are left. -/
def overSize : Set (List UInt8) := {bytes | ∃ n rest, compactSize bytes = some (n, rest) ∧ rest.length < n}

/-- A key or a value that is longer than every position. -/
def longField : Hazard := fun total =>
  longSize total ∪ {bytes | ∃ key rest, sized bytes = some (key, rest) ∧ key ≠ [] ∧ rest ∈ longSize total}

theorem longField_size (htotal : total < 2 ^ 63) (hin : bytes ∈ longField total) :
    ∃ n mid, compactSize bytes = some (n, mid) ∧ n ≠ 0 := by
  obtain ⟨n, mid, hread, hwraps⟩ | ⟨key, rest, hsized, hkey, -⟩ := hin
  · have hlong : 2 ^ 64 ≤ total - mid.length + n := hwraps
    exact ⟨n, mid, hread, by omega⟩
  · obtain ⟨n, mid, hread, -, rfl, -⟩ := sized_eq_some.mp hsized
    refine ⟨n, mid, hread, ?_⟩
    rintro rfl
    exact hkey List.take_zero

theorem longField_iff {mid : List UInt8} (error : ε) (hread : compactSize bytes = some (n, mid)) (hn : n ≠ 0) :
    bytes ∈ longField total ↔
      mid ∈ wraps n total ∨ mid ∈ after (bytesOr n error) (fun _ => longSize) total := by
  rw [mem_after_bytesOr]
  refine or_congr ?_ ?_
  · constructor
    · rintro ⟨n', rest, hread', hin⟩
      rw [hread] at hread'
      cases hread'
      exact hin
    · exact fun hin => ⟨n, mid, hread, hin⟩
  · constructor
    · rintro ⟨key, rest, hsized, -, hin⟩
      obtain ⟨n', mid', hread', hle, rfl, rfl⟩ := sized_eq_some.mp hsized
      rw [hread] at hread'
      cases hread'
      exact ⟨hle, hin⟩
    · rintro ⟨hle, hin⟩
      refine ⟨mid.take n, mid.drop n, sized_eq_some.mpr ⟨n, mid, hread, hle, rfl, rfl⟩, ?_, hin⟩
      intro hnil
      rw [List.take_eq_nil_iff] at hnil
      obtain rfl | rfl := hnil
      · exact hn rfl
      · rw [List.length_nil] at hle
        omega

end Sizes

section Maps

variable {parse : List UInt8 → Cursor ε (Option Record)} {ideal : Ideal ε (Option Record)} {hazard : Hazard}
  {absorb : σ → Record → Except (Stop ε) σ} {enter : σ → Record → Except ε σ} {bad : Set Record}

/-- Records lead from one state and place to another. -/
inductive Leads (ideal : Ideal ε (Option Record)) (enter : σ → Record → Except ε σ) :
    σ → List UInt8 → σ → List UInt8 → Prop
  | here (s : σ) (bytes : List UInt8) : Leads ideal enter s bytes s bytes
  | next {s s' t : σ} {bytes rest last : List UInt8} {r : Record} (hread : ideal bytes = .ok (some r, rest))
      (henter : enter s r = .ok s') (hlater : Leads ideal enter s' rest t last) : Leads ideal enter s bytes t last

/-- A hazard behind the records of a map, or a record that fails where it is entered. -/
def alongMap (ideal : Ideal ε (Option Record)) (enter : σ → Record → Except ε σ) (hazard : Hazard)
    (bad : Set Record) (s : σ) : Hazard := fun total =>
  {bytes | ∃ t last, Leads ideal enter s bytes t last ∧
    (last ∈ hazard total ∨ ∃ r rest, ideal last = .ok (some r, rest) ∧ r ∈ bad)}

/-- A record that an array can hold. -/
structure Held (r : Record) : Prop where
  key_ne : r.key ≠ []
  short : r.key.length + r.value.length < 2 ^ 63

theorem Held.value_lt {r : Record} (h : Held r) : r.value.length < 2 ^ 63 := by
  have := h.short
  omega

/-- The key and the value of a record are among the bytes that it takes. -/
def Parses (ideal : Ideal ε (Option Record)) : Prop :=
  ∀ ⦃bytes rest : List UInt8⦄ ⦃r : Record⦄, ideal bytes = .ok (some r, rest) →
    r.key ≠ [] ∧ rest.length + (r.key.length + r.value.length) < bytes.length

/-- A record fails where it is entered exactly if it is bad. -/
structure Enters (absorb : σ → Record → Except (Stop ε) σ) (enter : σ → Record → Except ε σ) (bad : Set Record) :
    Prop where
  faults : ∀ {s : σ} {r : Record}, Held r → r ∈ bad → Faults (absorb s r)
  agrees : ∀ {s : σ} {r : Record}, Held r → r ∉ bad → absorb s r = lift (enter s r)

theorem alongMap_iff {s : σ} {total : ℕ} {bytes : List UInt8} : bytes ∈ alongMap ideal enter hazard bad s total ↔
      bytes ∈ hazard total ∨ ∃ r rest, ideal bytes = .ok (some r, rest) ∧
        (r ∈ bad ∨ ∃ s', enter s r = .ok s' ∧ rest ∈ alongMap ideal enter hazard bad s' total) := by
  constructor
  · rintro ⟨t, last, hleads, hlast⟩
    cases hleads with
    | here =>
      obtain hin | ⟨r, rest, hread, hbad⟩ := hlast
      · exact Or.inl hin
      · exact Or.inr ⟨r, rest, hread, Or.inl hbad⟩
    | next hread henter hlater => exact Or.inr ⟨_, _, hread, Or.inr ⟨_, henter, t, last, hlater, hlast⟩⟩
  · rintro (hin | ⟨r, rest, hread, hbad | ⟨s', henter, t, last, hlater, hlast⟩⟩)
    · exact ⟨s, bytes, .here s bytes, Or.inl hin⟩
    · exact ⟨s, bytes, .here s bytes, Or.inr ⟨r, rest, hread, hbad⟩⟩
    · exact ⟨t, last, .next hread henter hlater, hlast⟩

theorem loopRecords_covers (hparse : Covers parse ideal hazard) (henters : Enters absorb enter bad)
    (hparses : Parses ideal) {data : List UInt8} (hdata : data.length < 2 ^ 63) (fuel fuel' : ℕ) (s : σ) {cursor : ℕ}
    (hcursor : cursor ≤ data.length) (hfuel : (data.drop cursor).length < fuel)
    (hfuel' : (data.drop cursor).length < fuel') : (data.drop cursor ∈ alongMap ideal enter hazard bad s data.length →
        Faults (loopRecords parse absorb fuel s data cursor)) ∧
      (data.drop cursor ∉ alongMap ideal enter hazard bad s data.length →
        Agrees data cursor (readRecords ideal enter fuel' s (data.drop cursor))
          (loopRecords parse absorb fuel s data cursor)) := by
  induction fuel generalizing fuel' s cursor with
  | zero => exact absurd hfuel (Nat.not_lt_zero _)
  | succ fuel ih =>
    obtain ⟨fuel', rfl⟩ : ∃ n, fuel' = n + 1 := ⟨fuel' - 1, by omega⟩
    rw [alongMap_iff]
    unfold loopRecords readRecords
    by_cases hin : data.drop cursor ∈ hazard data.length
    · obtain ⟨fault, hfault⟩ := hparse.faults hdata hcursor hin
      rw [hfault]
      exact ⟨fun _ => ⟨fault, rfl⟩, fun hmem => absurd (Or.inl hin) hmem⟩
    · have hagree := hparse.agrees hdata hcursor hin
      generalize hr : parse data cursor = r, hi : ideal (data.drop cursor) = i at hagree ⊢
      cases hagree with
      | error =>
        refine ⟨?_, fun _ => .error⟩
        rintro (hin' | ⟨_, _, hread, _⟩)
        · exact absurd hin' hin
        · cases hread
      | @ok found next hle hlen =>
        cases found with
        | none =>
          refine ⟨?_, fun _ => .ok hle hlen⟩
          rintro (hin' | ⟨_, _, hread, _⟩)
          · exact absurd hin' hin
          · cases hread
        | some r =>
          obtain ⟨hkey, hshort⟩ := hparses hi
          have hshort' := hshort
          rw [List.length_drop, List.length_drop] at hshort'
          have hheld : Held r := ⟨hkey, by omega⟩
          have hmoves : ¬ next ≤ cursor := by omega
          by_cases hbad : r ∈ bad
          · obtain ⟨fault, hfault⟩ := henters.faults (s := s) hheld hbad
            refine ⟨fun _ => ⟨fault, ?_⟩, fun hmem => absurd (Or.inr ⟨r, _, rfl, Or.inl hbad⟩) hmem⟩
            simp only [hfault]
          · have henter := henters.agrees (s := s) hheld hbad
            cases hs : enter s r with
            | error e =>
              rw [hs] at henter
              constructor
              · rintro (hin' | ⟨r', rest', hread, hlast⟩)
                · exact absurd hin' hin
                · cases hread
                  obtain hbad' | ⟨s', hs', -⟩ := hlast
                  · exact absurd hbad' hbad
                  · rw [hs] at hs'
                    cases hs'
              · intro _
                show Agrees data cursor (enter s r >>= fun s' => _) _
                simp only [hs, henter, lift]
                exact .error
            | ok s' =>
              rw [hs] at henter
              have hlater := ih fuel' s' hlen (by omega) (by omega)
              constructor
              · rintro (hin' | ⟨r', rest', hread, hlast⟩)
                · exact absurd hin' hin
                · cases hread
                  obtain hbad' | ⟨t, ht, hrest⟩ := hlast
                  · exact absurd hbad' hbad
                  · rw [hs] at ht
                    cases ht
                    simp only [henter, lift, if_neg hmoves]
                    exact hlater.1 hrest
              · intro hmem
                have hrest : data.drop next ∉ alongMap ideal enter hazard bad s' data.length :=
                  fun hrest => hmem (Or.inr ⟨r, _, rfl, Or.inr ⟨s', hs, hrest⟩⟩)
                show Agrees data cursor (enter s r >>= fun s' => readRecords ideal enter fuel' s' (data.drop next)) _
                simp only [hs, henter, lift, if_neg hmoves]
                exact (hlater.2 hrest).mono hle

theorem readRecords_shrinks (hshrinks : Shrinks ideal) (fuel : ℕ) (s : σ) :
    Shrinks (fun bytes => readRecords ideal enter fuel s bytes : Ideal ε σ) := by
  induction fuel generalizing s with
  | zero =>
    intro bytes rest t hread
    cases hread
    exact le_rfl
  | succ fuel ih =>
    intro bytes rest t hread
    have hread : readRecords ideal enter (fuel + 1) s bytes = .ok (t, rest) := hread
    unfold readRecords at hread
    cases hfirst : ideal bytes with
    | error e =>
      rw [hfirst] at hread
      cases hread
    | ok x =>
    obtain ⟨found, mid⟩ := x
    rw [hfirst] at hread
    have hmid := hshrinks hfirst
    cases found with
    | none =>
      cases hread
      exact hmid
    | some r =>
      have hread : (enter s r >>= fun s' => readRecords ideal enter fuel s' mid) = _ := hread
      cases henter : enter s r with
      | error e =>
        rw [henter] at hread
        cases hread
      | ok s' =>
        rw [henter] at hread
        exact (ih s' hread).trans hmid

theorem readRecords_consumes (hconsumes : Consumes ideal) {fuel : ℕ} {s t : σ} {bytes rest : List UInt8}
    (hfuel : bytes.length < fuel) (hread : readRecords ideal enter fuel s bytes = .ok (t, rest)) :
    rest.length < bytes.length := by
  induction fuel generalizing s bytes with
  | zero => exact absurd hfuel (Nat.not_lt_zero _)
  | succ fuel ih =>
    unfold readRecords at hread
    cases hfirst : ideal bytes with
    | error e =>
      rw [hfirst] at hread
      cases hread
    | ok x =>
      obtain ⟨_ | r, mid⟩ := x
      · have hshort := hconsumes hfirst
        rw [hfirst] at hread
        cases hread
        exact hshort
      · have hshort := hconsumes hfirst
        rw [hfirst] at hread
        cases henter : enter s r with
        | error e =>
          have hread : (enter s r >>= fun s' => readRecords ideal enter fuel s' mid) = _ := hread
          rw [henter] at hread
          cases hread
        | ok s' =>
          have hread : (enter s r >>= fun s' => readRecords ideal enter fuel s' mid) = _ := hread
          rw [henter] at hread
          exact (ih (by omega) hread).trans hshort

theorem covers_map (hparse : Covers parse ideal hazard) (henters : Enters absorb enter bad) (hparses : Parses ideal)
    (s : σ) : Covers (fun data => loopRecords parse absorb (data.length + 1) s data)
      (fun bytes => readRecords ideal enter (bytes.length + 1) s bytes) (alongMap ideal enter hazard bad s) where
  faults := fun {data cursor} hdata hcursor hmem =>
    (loopRecords_covers hparse henters hparses hdata _ _ s hcursor
      (by rw [List.length_drop]; omega) (Nat.lt_succ_self _)).1 hmem
  agrees := fun {data cursor} hdata hcursor hmem =>
    (loopRecords_covers hparse henters hparses hdata _ _ s hcursor
      (by rw [List.length_drop]; omega) (Nat.lt_succ_self _)).2 hmem

end Maps

end KuberCoin.GuardedReads
