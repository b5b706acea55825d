import KuberCoin.Regroupings

/-!
Bits one at a time, the highest first: the bits of a number, the number that a group of bits makes
when each is shifted to its place, and a list cut into chunks of one length.
-/
namespace KuberCoin.BitGroups

open Regroupings

section Bits

variable {top v width : ℕ} {group : List ℕ}

/-- The lowest `width` bits of a number. -/
def bitsOf (width v : ℕ) : List ℕ := (List.range width).reverse.map fun i => v >>> i &&& 1

/-- The number of a group of bits, of which the first goes to the bit `top`. -/
def placed (top : ℕ) (group : List ℕ) : ℕ := group.zipIdx.foldl (fun acc p => acc ||| p.1 <<< (top - p.2)) 0

@[simp]
theorem length_bitsOf (width v : ℕ) : (bitsOf width v).length = width := by simp [bitsOf]

theorem bitsOf_lt {b : ℕ} (h : b ∈ bitsOf width v) : b < 2 := by
  obtain ⟨i, -, rfl⟩ := List.mem_map.mp h
  rw [Nat.and_one_is_mod]
  exact Nat.mod_lt _ Nat.two_pos

theorem bitsOf_succ (width v : ℕ) : bitsOf (width + 1) v = bitsOf width (v / 2) ++ [v % 2] := by
  unfold bitsOf
  rw [List.range_succ_eq_map, List.reverse_cons, List.map_append, ← List.map_reverse, List.map_map]
  refine congrArg₂ (· ++ ·) (List.map_congr_left fun i _ => ?_) ?_
  · show v >>> (i + 1) &&& 1 = (v / 2) >>> i &&& 1
    rw [Nat.shiftRight_eq_div_pow, Nat.shiftRight_eq_div_pow, Nat.pow_succ', Nat.div_div_eq_div_mul]
  · rw [List.map_singleton, Nat.shiftRight_zero, Nat.and_one_is_mod]

theorem bitsOf_add (width width' v : ℕ) :
    bitsOf (width + width') v = bitsOf width (v >>> width') ++ bitsOf width' v := by
  induction width' generalizing v with
  | zero => simp [bitsOf]
  | succ width' ih =>
    rw [← Nat.add_assoc, bitsOf_succ, ih, bitsOf_succ width' v, List.append_assoc, Nat.shiftRight_eq_div_pow,
      Nat.shiftRight_eq_div_pow, Nat.pow_succ', Nat.div_div_eq_div_mul]

theorem valueOf_bitsOf (h : v < 2 ^ width) : valueOf 1 (bitsOf width v) = v := by
  induction width generalizing v with
  | zero =>
    rw [Nat.pow_zero] at h
    rw [Nat.lt_one_iff.mp h]
    rfl
  | succ width ih =>
    rw [bitsOf_succ, valueOf_snoc, ih (by rw [Nat.pow_succ] at h; omega)]
    omega

theorem valueOf_lt (h : ∀ b ∈ group, b < 2) : valueOf 1 group < 2 ^ group.length := by
  have hdigits := @Nat.ofDigits_lt_base_pow_length 2 group.reverse Nat.one_lt_two fun b hb =>
    h b (List.mem_reverse.mp hb)
  rwa [List.length_reverse] at hdigits

theorem bitsOf_valueOf (h : ∀ b ∈ group, b < 2) : bitsOf group.length (valueOf 1 group) = group := by
  exact valueOf_injective one_ne_zero (length_bitsOf _ _) (fun b hb => bitsOf_lt hb) h (valueOf_bitsOf (valueOf_lt h))

theorem placed_shift (hlength : group.length ≤ top + 1) (h : ∀ b ∈ group, b < 2) :
    placed top group = valueOf 1 group <<< (top + 1 - group.length) := by
  induction group using List.reverseRecOn with
  | nil => simp [placed]
  | append_singleton group b ih =>
    rw [List.length_append, List.length_singleton] at hlength
    have hgroup : ∀ b ∈ group, b < 2 := fun b hb => h b (List.mem_append_left _ hb)
    have hb : b < 2 := h b (List.mem_append_right _ (List.mem_singleton.mpr rfl))
    have hstep : placed top (group ++ [b]) = placed top group ||| b <<< (top - group.length) := by
      simp [placed, List.zipIdx_append]
    have hwidth : top + 1 - group.length = 1 + (top - group.length) := by omega
    rw [hstep, ih (by omega) hgroup, valueOf_snoc, List.length_append, List.length_singleton, hwidth,
      Nat.shiftLeft_add, ← Nat.shiftLeft_or_distrib]
    have hsum : valueOf 1 group <<< 1 ||| b = b + 2 ^ 1 * valueOf 1 group := by
      rw [Nat.shiftLeft_eq, Nat.mul_comm, Nat.add_comm b]
      exact (Nat.two_pow_add_eq_or_of_lt (by simpa using hb) _).symm
    rw [hsum]
    congr 1
    omega

theorem placed_eq (hlength : group.length = top + 1) (h : ∀ b ∈ group, b < 2) : placed top group = valueOf 1 group := by
  rw [placed_shift (by omega) h, hlength, Nat.sub_self, Nat.shiftLeft_zero]

end Bits

section Chunks

variable {α β : Type}

/-- `slice::chunks`: pieces of length `n`, the last one perhaps shorter. -/
def chunks (n : ℕ) (l : List α) : List (List α) :=
  (List.range ((l.length + n - 1) / n)).map fun k => (l.drop (n * k)).take n

theorem chunks_append {n : ℕ} (hn : 0 < n) {piece : List α} (hpiece : piece.length = n) (l : List α) :
    chunks n (piece ++ l) = piece :: chunks n l := by
  have hcount : ((piece ++ l).length + n - 1) / n = (l.length + n - 1) / n + 1 := by
    rw [List.length_append, hpiece, show n + l.length + n - 1 = (l.length + n - 1) + n by omega, Nat.add_div_right _ hn]
  unfold chunks
  rw [hcount, List.range_succ_eq_map, List.map_cons, List.map_map]
  refine congrArg₂ List.cons ?_ (List.map_congr_left fun k _ => ?_)
  · rw [Nat.mul_zero, List.drop_zero, List.take_left' hpiece]
  · show ((piece ++ l).drop (n * (k + 1))).take n = (l.drop (n * k)).take n
    rw [Nat.mul_succ, Nat.add_comm, ← List.drop_drop, List.drop_left' hpiece]

theorem chunks_flatten {n : ℕ} (hn : 0 < n) {pieces : List (List α)} (h : ∀ piece ∈ pieces, piece.length = n) :
    chunks n pieces.flatten = pieces := by
  induction pieces with
  | nil =>
    show (List.range ((0 + n - 1) / n)).map _ = []
    rw [Nat.zero_add, Nat.div_eq_of_lt (by omega)]
    rfl
  | cons piece pieces ih =>
    obtain ⟨hpiece, hrest⟩ := List.forall_mem_cons.mp h
    rw [List.flatten_cons, chunks_append hn hpiece, ih hrest]

theorem chunks_flatMap {n : ℕ} (hn : 0 < n) {f : β → List α} (hf : ∀ b, (f b).length = n) (l : List β) :
    chunks n (l.flatMap f) = l.map f := by
  rw [List.flatMap_def]
  refine chunks_flatten hn fun piece hpiece => ?_
  obtain ⟨b, -, rfl⟩ := List.mem_map.mp hpiece
  exact hf b

theorem chunks_even {n k : ℕ} (hn : 0 < n) {l : List α} (h : l.length = n * k) :
    (chunks n l).length = k ∧ (chunks n l).flatten = l ∧ ∀ piece ∈ chunks n l, piece.length = n := by
  induction k generalizing l with
  | zero =>
    obtain rfl := List.eq_nil_of_length_eq_zero h
    have hnone : chunks n ([] : List α) = [] := @chunks_flatten α n hn [] fun _ hpiece => by cases hpiece
    rw [hnone]
    exact ⟨rfl, rfl, fun _ hpiece => by cases hpiece⟩
  | succ k ih =>
    have hle : n ≤ l.length := by rw [h, Nat.mul_succ]; omega
    have htake : (l.take n).length = n := List.length_take_of_le hle
    obtain ⟨hcount, hflat, hpieces⟩ := @ih (l.drop n) (by rw [List.length_drop, h, Nat.mul_succ]; omega)
    rw [← List.take_append_drop n l, chunks_append hn htake]
    refine ⟨by rw [List.length_cons, hcount], by rw [List.flatten_cons, hflat], ?_⟩
    exact List.forall_mem_cons.mpr ⟨htake, hpieces⟩

end Chunks

end KuberCoin.BitGroups
