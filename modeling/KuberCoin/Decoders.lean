import KuberCoin.Bytes

/-!
Decoders of byte strings. A decoder takes a value from the front of the bytes and leaves the rest.
`Reads` says that it takes exactly these bytes for this value, whatever follows them; it is shown field by
field along the decoder.
-/
namespace KuberCoin.Decoders

open Bytes

variable {α β : Type}

/-- A decoder finds a value and the bytes behind it, or fails. -/
def Decoder (α : Type) := List UInt8 → Option (α × List UInt8)

instance : Monad Decoder where
  pure a := fun bytes => some (a, bytes)
  bind d f := fun bytes => (d bytes).bind fun r => f r.1 r.2

/-- The next `n` bytes. -/
def exactly (n : ℕ) : Decoder (List UInt8) := fun bytes =>
  if n ≤ bytes.length then some (bytes.take n, bytes.drop n) else none

/-- A little-endian number of `n` bytes. -/
def uint (n : ℕ) : Decoder ℕ := exactly n >>= fun bytes => pure (leValue bytes)

/-- So many values, one after the other. -/
def times (d : Decoder α) : ℕ → Decoder (List α)
  | 0 => pure []
  | n + 1 => d >>= fun a => times d n >>= fun rest => pure (a :: rest)

/-- The bytes at the front are the encoding of the value. -/
def Reads (d : Decoder α) (bytes : List UInt8) (a : α) : Prop := ∀ rest, d (bytes ++ rest) = some (a, rest)

theorem reads_pure (a : α) : Reads (pure a) [] a := fun _ => rfl

theorem Reads.bind {d : Decoder α} {f : α → Decoder β} {bytes bytes' : List UInt8} {a : α} {b : β} (h : Reads d bytes a)
    (h' : Reads (f a) bytes' b) : Reads (d >>= f) (bytes ++ bytes') b := by
  intro rest
  show (d (bytes ++ bytes' ++ rest)).bind _ = _
  rw [List.append_assoc, h]
  exact h' rest

theorem Reads.last {d : Decoder α} {f : α → β} {bytes : List UInt8} {a : α} (h : Reads d bytes a) :
    Reads (d >>= fun a => pure (f a)) bytes (f a) := by
  intro rest
  show (d (bytes ++ rest)).bind _ = _
  rw [h]
  rfl

theorem reads_exactly (bytes : List UInt8) : Reads (exactly bytes.length) bytes bytes := by
  intro rest
  unfold exactly
  rw [if_pos (by simp), List.take_left, List.drop_left]

theorem reads_uint {n v : ℕ} (h : v < 256 ^ n) : Reads (uint n) (leBytes n v) v := by
  have hbytes : Reads (exactly n) (leBytes n v) (leBytes n v) := by
    have hread := reads_exactly (leBytes n v)
    rwa [leBytes_length] at hread
  have hvalue : leValue (leBytes n v) = v := by rw [leValue_leBytes, Nat.mod_eq_of_lt h]
  have hread := hbytes.last (f := leValue)
  rwa [hvalue] at hread

theorem reads_times {d : Decoder α} {encode : α → List UInt8} {values : List α}
    (h : ∀ a ∈ values, Reads d (encode a) a) : Reads (times d values.length) (values.flatMap encode) values := by
  induction values with
  | nil => exact reads_pure []
  | cons a values ih =>
    rw [List.flatMap_cons]
    have hrest : Reads (times d values.length) (values.flatMap encode) values :=
      ih fun x hx => h x (List.mem_cons_of_mem a hx)
    exact (h a List.mem_cons_self).bind (hrest.last (f := (a :: ·)))

/-- A list behind the number of its elements, in eight bytes. -/
def vec (d : Decoder α) : Decoder (List α) := uint 8 >>= times d

/-- Bytes behind their number, in eight bytes. -/
def bytesVec : Decoder (List UInt8) := uint 8 >>= exactly

theorem reads_vec {d : Decoder α} {encode : α → List UInt8} {values : List α} (hlen : values.length < 2 ^ 64)
    (h : ∀ a ∈ values, Reads d (encode a) a) :
    Reads (vec d) (leBytes 8 values.length ++ values.flatMap encode) values :=
  (reads_uint (by omega)).bind (reads_times h)

theorem reads_bytesVec {bytes : List UInt8} (hlen : bytes.length < 2 ^ 64) :
    Reads bytesVec (leBytes 8 bytes.length ++ bytes) bytes :=
  (reads_uint (by omega)).bind (reads_exactly bytes)

end KuberCoin.Decoders
