import KuberCoin.Worklists

/-!
Depth-first collection over an acyclic graph, successors before the nodes that refer to them. Nodes that
were selected before are passed over, and so is what they refer to. With fuel for the longest path, what is
collected goes on where the selected nodes end: every node follows its known successors.
-/
namespace KuberCoin.PostOrders

open Worklists

variable {α : Type}

section Orders

/-- The list goes on behind `done`: every node is known and new, and behind its known successors. -/
def Ordered (next : α → Option (List α)) : List α → List α → Prop
  | _, [] => True
  | done, x :: rest =>
    (x ∉ done ∧ next x ≠ none ∧ ∀ y, Edge next x y → next y ≠ none → y ∈ done) ∧ Ordered next (done ++ [x]) rest

variable {next : α → Option (List α)}

theorem ordered_append {done xs ys : List α} :
    Ordered next done (xs ++ ys) ↔ Ordered next done xs ∧ Ordered next (done ++ xs) ys := by
  induction xs generalizing done with
  | nil => simp [Ordered]
  | cons x xs ih =>
    rw [List.cons_append, Ordered, Ordered, ih, List.append_assoc, List.singleton_append]
    exact and_assoc.symm

theorem Ordered.known {done l : List α} (h : Ordered next done l) : ∀ x ∈ l, next x ≠ none := by
  induction l generalizing done with
  | nil => simp
  | cons x rest ih =>
    obtain ⟨⟨_, known, _⟩, tail⟩ := h
    exact List.forall_mem_cons.mpr ⟨known, ih tail⟩

theorem Ordered.fresh {done l : List α} (h : Ordered next done l) : l.Nodup ∧ ∀ x ∈ l, x ∉ done := by
  induction l generalizing done with
  | nil => simp
  | cons x rest ih =>
    obtain ⟨⟨new, _, _⟩, tail⟩ := h
    obtain ⟨nodup, apart⟩ := ih tail
    refine ⟨List.nodup_cons.mpr ⟨fun again => ?_, nodup⟩, ?_⟩
    · exact apart x again (List.mem_append_right _ (List.mem_singleton.mpr rfl))
    · refine List.forall_mem_cons.mpr ⟨new, fun y hy inside => ?_⟩
      exact apart y hy (List.mem_append_left _ inside)

theorem Ordered.before {done before after : List α} {x y : α} (h : Ordered next done (before ++ x :: after))
    (edge : Edge next x y) (known : next y ≠ none) : y ∈ done ++ before :=
  (ordered_append.mp h).2.1.2.2 y edge known

end Orders

section Collection

/-- The unselected nodes below the roots and the roots themselves, appended to `out`. -/
def collect [DecidableEq α] (next : α → Option (List α)) (selected : List α) : ℕ → List α → List α → List α
  | 0, _, out => out
  | fuel + 1, roots, out =>
      roots.foldl (fun out x =>
        if x ∈ selected ∨ x ∈ out then out
        else
          match next x with
          | some succs => collect next selected fuel succs out ++ [x]
          | none => out) out

/-- No node leads back to itself. -/
def Acyclic (next : α → Option (List α)) : Prop := ∀ x, ¬ Relation.TransGen (Edge next) x x

/-- No path of known nodes from the roots is longer than `n`. -/
def Within (next : α → Option (List α)) : ℕ → List α → Prop
  | 0, roots => ∀ x ∈ roots, next x = none
  | n + 1, roots => ∀ x ∈ roots, ∀ succs, next x = some succs → Within next n succs

variable {next : α → Option (List α)} {selected : List α}

/-- What a collection adds to `out`. -/
structure Collected (next : α → Option (List α)) (selected roots out result : List α) : Prop where
  ordered : Ordered next selected result
  grown : out ⊆ result
  below : ∀ y ∈ result, y ∈ out ∨ ∃ x ∈ roots, Relation.ReflTransGen (Edge next) x y
  closed : ∀ x ∈ roots, next x ≠ none → x ∈ selected ++ result

theorem Collected.append {roots roots' out mid result : List α} (h : Collected next selected roots out mid)
    (h' : Collected next selected roots' mid result) : Collected next selected (roots ++ roots') out result where
  ordered := h'.ordered
  grown := List.Subset.trans h.grown h'.grown
  below y hy := by
    rcases h'.below y hy with inside | ⟨x, hx, path⟩
    · rcases h.below y inside with first | ⟨x, hx, path⟩
      · exact .inl first
      · exact .inr ⟨x, List.mem_append_left _ hx, path⟩
    · exact .inr ⟨x, List.mem_append_right _ hx, path⟩
  closed x hx known := by
    rcases List.mem_append.mp hx with first | second
    · rcases List.mem_append.mp (h.closed x first known) with old | new
      · exact List.mem_append_left _ old
      · exact List.mem_append_right _ (h'.grown new)
    · exact h'.closed x second known

theorem collected_skip {x : α} {out : List α} (hout : Ordered next selected out)
    (passed : next x ≠ none → x ∈ selected ++ out) : Collected next selected [x] out out where
  ordered := hout
  grown := List.Subset.refl out
  below y hy := .inl hy
  closed y hy known := by
    obtain rfl := List.mem_singleton.mp hy
    exact passed known

theorem collected_visit (acyclic : Acyclic next) {x : α} {succs out result : List α} (hx : next x = some succs)
    (new : x ∉ selected ∧ x ∉ out) (h : Collected next selected succs out result) :
    Collected next selected [x] out (result ++ [x]) where
  ordered := by
    refine ordered_append.mpr ⟨h.ordered, ⟨fun inside => ?_, ?_, ?_⟩, trivial⟩
    · rcases List.mem_append.mp inside with old | collected
      · exact new.1 old
      · rcases h.below x collected with first | ⟨y, hy, path⟩
        · exact new.2 first
        · exact acyclic x (Relation.TransGen.head' ⟨succs, hx, hy⟩ path)
    · rw [hx]
      exact Option.some_ne_none succs
    · rintro y ⟨succs', hx', hy⟩ known
      rw [hx] at hx'
      cases hx'
      exact h.closed y hy known
  grown := List.Subset.trans h.grown (List.subset_append_left ..)
  below y hy := by
    rcases List.mem_append.mp hy with inside | last
    · rcases h.below y inside with first | ⟨z, hz, path⟩
      · exact .inl first
      · exact .inr ⟨x, List.mem_singleton.mpr rfl, .head ⟨succs, hx, hz⟩ path⟩
    · exact .inr ⟨x, List.mem_singleton.mpr rfl, List.mem_singleton.mp last ▸ .refl⟩
  closed y hy _ := by
    rw [List.mem_singleton.mp hy]
    simp

/-- With fuel for the longest path the collection is complete and in order. The induction is on the fuel,
and on the roots for each level. -/
theorem collect_collected [DecidableEq α] (acyclic : Acyclic next) {fuel : ℕ} {roots out : List α}
    (within : Within next fuel roots) (hout : Ordered next selected out) :
    Collected next selected roots out (collect next selected fuel roots out) := by
  induction fuel generalizing roots out with
  | zero =>
    exact ⟨hout, List.Subset.refl out, fun y hy => .inl hy, fun x hx known => absurd (within x hx) known⟩
  | succ fuel ih =>
    induction roots generalizing out with
    | nil => exact ⟨hout, List.Subset.refl out, fun y hy => .inl hy, fun x hx => by cases hx⟩
    | cons x rest ihRoots =>
      rw [collect, List.foldl_cons]
      have tail : Within next (fuel + 1) rest := fun y hy => within y (List.mem_cons_of_mem _ hy)
      by_cases passed : x ∈ selected ∨ x ∈ out
      · rw [if_pos passed]
        have first := @collected_skip α next selected x out hout fun _ => List.mem_append.mpr passed
        exact first.append (ihRoots tail hout)
      · rw [if_neg passed]
        cases hx : next x with
        | none =>
          have first := @collected_skip α next selected x out hout fun known => absurd hx known
          exact first.append (ihRoots tail hout)
        | some succs =>
          have below := ih (within x (List.mem_cons_self ..) succs hx) hout
          have first := collected_visit acyclic hx (not_or.mp passed) below
          exact first.append (ihRoots tail first.ordered)

end Collection

section Paths

variable {next : α → Option (List α)} {known : Finset α} {n : ℕ} {roots : List α}

/-- The known nodes at or below the roots. -/
def Below (next : α → Option (List α)) (roots : List α) (y : α) : Prop :=
  ∃ x ∈ roots, Relation.ReflTransGen (Edge next) x y

open Classical in
/-- In an acyclic graph no path has more nodes than are known below the roots. The induction is on their
number: the successors of a node have fewer below them. -/
theorem within_of_card (acyclic : Acyclic next) (hknown : ∀ x, next x ≠ none → x ∈ known)
    (size : (known.filter (Below next roots)).card ≤ n) : Within next n roots := by
  induction n generalizing roots with
  | zero =>
    intro x hx
    by_contra some_
    have inside : x ∈ known.filter (Below next roots) :=
      Finset.mem_filter.mpr ⟨hknown x some_, x, hx, .refl⟩
    exact absurd (Finset.card_pos.mpr ⟨x, inside⟩) (by omega)
  | succ n ih =>
    intro x hx succs hsuccs
    have some_ : next x ≠ none := by
      rw [hsuccs]
      exact Option.some_ne_none succs
    have inside : x ∈ known.filter (Below next roots) :=
      Finset.mem_filter.mpr ⟨hknown x some_, x, hx, .refl⟩
    have fewer : known.filter (Below next succs) ⊂ known.filter (Below next roots) := by
      refine Finset.ssubset_iff_subset_ne.mpr ⟨fun y hy => ?_, fun same => ?_⟩
      · obtain ⟨hy, z, hz, path⟩ := Finset.mem_filter.mp hy
        exact Finset.mem_filter.mpr ⟨hy, x, hx, .head ⟨succs, hsuccs, hz⟩ path⟩
      · rw [← same] at inside
        obtain ⟨_, z, hz, path⟩ := Finset.mem_filter.mp inside
        exact acyclic x (Relation.TransGen.head' ⟨succs, hsuccs, hz⟩ path)
    have less := Finset.card_lt_card fewer
    exact ih (by omega)

theorem within_of_acyclic (acyclic : Acyclic next) (hknown : ∀ x, next x ≠ none → x ∈ known) (size : known.card ≤ n) :
    Within next n roots := by
  classical
  exact within_of_card acyclic hknown ((Finset.card_filter_le _ _).trans size)

theorem acyclic_of_rank (rank : α → ℕ) (falls : ∀ x y, Edge next x y → rank y < rank x) : Acyclic next := by
  intro x cycle
  have lower {y : α} (path : Relation.TransGen (Edge next) x y) : rank y < rank x := by
    induction path with
    | single edge => exact falls _ _ edge
    | tail _ edge ih => exact (falls _ _ edge).trans ih
  exact Nat.lt_irrefl _ (lower cycle)

end Paths

end KuberCoin.PostOrders
