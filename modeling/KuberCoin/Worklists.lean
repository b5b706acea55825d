import Mathlib.Logic.Relation
import Mathlib.Data.Finset.Card
import Mathlib.Algebra.BigOperators.Group.Finset.Basic

/-!
Searches of a finite graph with an explicit stack. A node is marked either when it
is taken from the stack (`explore`) or when it is put on it (`mark`). Both loops run
on fuel; with the stated amounts the stack is empty at the end, so `explore` returns
exactly the reachable nodes and `mark` a set that is closed under successors.
-/
namespace KuberCoin.Worklists

variable {α : Type} [DecidableEq α]

section Explore

variable {fuel : ℕ} {stack succs visited : List α} {known : Finset α} {x : α}

/-- Take a node from the stack; unless it is unknown or visited, visit it and put its
successors on the stack. An unknown node has no list of successors. -/
def explore (next : α → Option (List α)) : ℕ → List α → List α → List α
  | 0, _, visited => visited
  | _, [], visited => visited
  | fuel + 1, x :: stack, visited =>
    match next x with
    | none => explore next fuel stack visited
    | some succs =>
      if x ∈ visited then explore next fuel stack visited
      else explore next fuel (succs.reverse ++ stack) (x :: visited)

/-- One step along a list of successors. -/
def Edge (next : α → Option (List α)) (x y : α) : Prop := ∃ succs, next x = some succs ∧ y ∈ succs

/-- The known nodes that can be reached from a list of nodes. -/
def Reached (next : α → Option (List α)) (starts : List α) (y : α) : Prop :=
  next y ≠ none ∧ ∃ x ∈ starts, Relation.ReflTransGen (Edge next) x y

variable {next : α → Option (List α)}

theorem nodup_explore (fuel : ℕ) (stack visited : List α) (h : visited.Nodup) :
    (explore next fuel stack visited).Nodup := by
  induction fuel generalizing stack visited with
  | zero => simpa only [explore] using h
  | succ fuel ih =>
    cases stack with
    | nil => simpa only [explore] using h
    | cons x stack =>
      rw [explore]
      cases hx : next x with
      | none => exact ih _ _ h
      | some succs =>
        by_cases hv : x ∈ visited
        · simpa only [hv, if_true] using ih _ _ h
        · simpa only [hv, if_false] using ih _ _ (List.nodup_cons.mpr ⟨hv, h⟩)

theorem subset_explore (fuel : ℕ) (stack visited : List α) : visited ⊆ explore next fuel stack visited := by
  induction fuel generalizing stack visited with
  | zero => simp only [explore, List.Subset.refl]
  | succ fuel ih =>
    cases stack with
    | nil => simp only [explore, List.Subset.refl]
    | cons x stack =>
      rw [explore]
      cases hx : next x with
      | none => exact ih _ _
      | some succs =>
        by_cases hv : x ∈ visited
        · simpa only [hv, if_true] using ih _ _
        · simp only [hv, if_false]
          exact List.Subset.trans (List.subset_cons_self x visited) (ih _ _)

theorem reached_of_mem_explore {y : α} (h : y ∈ explore next fuel stack visited) :
    y ∈ visited ∨ Reached next stack y := by
  induction fuel generalizing stack visited with
  | zero => exact Or.inl (by simpa only [explore] using h)
  | succ fuel ih =>
    cases stack with
    | nil => exact Or.inl (by simpa only [explore] using h)
    | cons x stack =>
      have htail : Reached next stack y → Reached next (x :: stack) y := by
        rintro ⟨hy, z, hz, hzy⟩
        exact ⟨hy, z, List.mem_cons_of_mem x hz, hzy⟩
      rw [explore] at h
      cases hx : next x with
      | none =>
        rw [hx] at h
        exact (ih h).imp_right htail
      | some succs =>
        rw [hx] at h
        by_cases hv : x ∈ visited
        · simp only [hv, if_true] at h
          exact (ih h).imp_right htail
        · simp only [hv, if_false] at h
          rcases ih h with hvis | ⟨hy, z, hz, hzy⟩
          · rcases List.mem_cons.mp hvis with rfl | hvis
            · exact Or.inr ⟨by simp [hx], y, by simp, Relation.ReflTransGen.refl⟩
            · exact Or.inl hvis
          · refine Or.inr ?_
            rcases List.mem_append.mp hz with hsucc | hz
            · refine ⟨hy, x, by simp, Relation.ReflTransGen.head ?_ hzy⟩
              exact ⟨succs, hx, List.mem_reverse.mp hsucc⟩
            · exact htail ⟨hy, z, hz, hzy⟩

/-- The pops that are still to come: the stack, and the successors of the nodes of `known`
that are not visited yet. -/
def popsLeft (next : α → Option (List α)) (known : Finset α) (stack visited : List α) : ℕ :=
  stack.length + ∑ x ∈ known.filter (· ∉ visited), ((next x).getD []).length

theorem popsLeft_visit (hknown : x ∈ known) (hx : next x = some succs) (hv : x ∉ visited) :
    popsLeft next known (succs.reverse ++ stack) (x :: visited) + 1 =
      popsLeft next known (x :: stack) visited := by
  have hsplit : known.filter (· ∉ visited) = insert x (known.filter (· ∉ x :: visited)) := by
    ext y
    by_cases hy : y = x
    · subst hy
      simp [hknown, hv]
    · simp [hy]
  have hnew : x ∉ known.filter (· ∉ x :: visited) := by simp
  simp only [popsLeft, hsplit, Finset.sum_insert hnew, hx, Option.getD_some, List.length_append,
    List.length_reverse, List.length_cons]
  omega

/-- The known successors of visited nodes are visited or still on the stack. -/
def Pending (next : α → Option (List α)) (stack visited : List α) : Prop :=
  ∀ x ∈ visited, ∀ y, Edge next x y → next y ≠ none → y ∈ visited ∨ y ∈ stack

omit [DecidableEq α] in
theorem Pending.drop (h : Pending next (x :: stack) visited) (hx : next x = none ∨ x ∈ visited) :
    Pending next stack visited := by
  intro z hz y hzy hy
  rcases h z hz y hzy hy with hin | hin
  · exact Or.inl hin
  · rcases List.mem_cons.mp hin with rfl | hin
    · exact Or.inl (hx.resolve_left hy)
    · exact Or.inr hin

omit [DecidableEq α] in
theorem Pending.visit (h : Pending next (x :: stack) visited) (hx : next x = some succs) :
    Pending next (succs.reverse ++ stack) (x :: visited) := by
  intro z hz y hzy hy
  rcases List.mem_cons.mp hz with rfl | hz
  · obtain ⟨succs', hsuccs, hmem⟩ := hzy
    rw [hx] at hsuccs
    cases hsuccs
    exact Or.inr (by simp [hmem])
  · rcases h z hz y hzy hy with hin | hin
    · exact Or.inl (List.mem_cons_of_mem x hin)
    · rcases List.mem_cons.mp hin with rfl | hin
      · exact Or.inl (by simp)
      · exact Or.inr (by simp [hin])

/-- With enough fuel nothing is left on the stack: every known node of the stack and every
known successor of a visited node is visited. -/
theorem explore_closed (hknown : ∀ x, next x ≠ none → x ∈ known) (hfuel : popsLeft next known stack visited ≤ fuel)
    (hvisited : Pending next stack visited) : (∀ x ∈ stack, next x ≠ none → x ∈ explore next fuel stack visited) ∧
      ∀ x ∈ explore next fuel stack visited, ∀ y, Edge next x y → next y ≠ none →
        y ∈ explore next fuel stack visited := by
  induction fuel generalizing stack visited with
  | zero =>
    have hnil : stack = [] := by
      rw [← List.length_eq_zero_iff]
      unfold popsLeft at hfuel
      omega
    subst hnil
    simp only [explore]
    refine ⟨by simp, fun x hx y hxy hy => ?_⟩
    simpa using hvisited x hx y hxy hy
  | succ fuel ih =>
    cases stack with
    | nil =>
      simp only [explore]
      refine ⟨by simp, fun x hx y hxy hy => ?_⟩
      simpa using hvisited x hx y hxy hy
    | cons x stack =>
      have hpop : popsLeft next known stack visited ≤ fuel := by
        simp only [popsLeft, List.length_cons] at hfuel ⊢
        omega
      rw [explore]
      cases hx : next x with
      | none =>
        obtain ⟨hstack, hclosed⟩ := ih hpop (hvisited.drop (Or.inl hx))
        refine ⟨fun z hz hz' => ?_, hclosed⟩
        rcases List.mem_cons.mp hz with rfl | hz
        · exact absurd hx hz'
        · exact hstack z hz hz'
      | some succs =>
        by_cases hv : x ∈ visited
        · simp only [hv, if_true]
          obtain ⟨hstack, hclosed⟩ := ih hpop (hvisited.drop (Or.inr hv))
          refine ⟨fun z hz hz' => ?_, hclosed⟩
          rcases List.mem_cons.mp hz with rfl | hz
          · exact subset_explore _ _ _ hv
          · exact hstack z hz hz'
        · simp only [hv, if_false]
          have hvisit : popsLeft next known (succs.reverse ++ stack) (x :: visited) + 1 = _ :=
            popsLeft_visit (hknown x (by simp [hx])) hx hv
          obtain ⟨hstack, hclosed⟩ := ih (by omega) (hvisited.visit hx)
          refine ⟨fun z hz hz' => ?_, hclosed⟩
          rcases List.mem_cons.mp hz with rfl | hz
          · exact subset_explore _ _ _ (by simp)
          · exact hstack z (by simp [hz]) hz'

theorem mem_explore_iff (hknown : ∀ x, next x ≠ none → x ∈ known) (hfuel : popsLeft next known stack [] ≤ fuel)
    (y : α) : y ∈ explore next fuel stack [] ↔ Reached next stack y := by
  obtain ⟨hstack, hclosed⟩ := explore_closed hknown hfuel (by simp [Pending])
  constructor
  · intro h
    exact (reached_of_mem_explore h).resolve_left (by simp)
  · rintro ⟨hy, x, hx, hxy⟩
    induction hxy with
    | refl => exact hstack x hx hy
    | tail _ hbc ih =>
      have hb : ∃ succs, next _ = some succs ∧ _ ∈ succs := hbc
      obtain ⟨succs, hsuccs, -⟩ := hb
      exact hclosed _ (ih (by simp [hsuccs])) _ hbc hy

end Explore

section Mark

variable {x : α} {out stack : List α} {known : Finset α}

/-- Put a node into a set kept as a list. -/
def insertNew (x : α) (out : List α) : List α := if x ∈ out then out else x :: out

theorem mem_insertNew {y : α} : y ∈ insertNew x out ↔ y = x ∨ y ∈ out := by
  unfold insertNew
  by_cases hx : x ∈ out
  · rw [if_pos hx]
    constructor
    · exact Or.inr
    · rintro (rfl | hy)
      · exact hx
      · exact hy
  · rw [if_neg hx, List.mem_cons]

theorem nodup_insertNew (h : out.Nodup) : (insertNew x out).Nodup := by
  unfold insertNew
  by_cases hx : x ∈ out
  · rwa [if_pos hx]
  · rw [if_neg hx]
    exact List.nodup_cons.mpr ⟨hx, h⟩

/-- Mark the unmarked nodes of a list and put them on the stack. -/
def markAll : List α → List α → List α → List α × List α
  | [], stack, out => (stack, out)
  | x :: xs, stack, out =>
    if x ∈ out then markAll xs stack out else markAll xs (x :: stack) (x :: out)

/-- Take a node from the stack and mark its successors; each newly marked one goes on the
stack. -/
def mark (next : α → List α) : ℕ → List α → List α → List α
  | 0, _, out => out
  | _, [], out => out
  | fuel + 1, x :: stack, out =>
    mark next fuel (markAll (next x) stack out).1 (markAll (next x) stack out).2

theorem markAll_spec (xs stack out : List α) :
    ∃ new : List α, (∀ x ∈ new, x ∈ xs) ∧ new.Nodup ∧ (∀ x ∈ new, x ∉ out) ∧ xs ⊆ new ++ out ∧
      markAll xs stack out = (new ++ stack, new ++ out) := by
  induction xs generalizing stack out with
  | nil => exact ⟨[], by simp, by simp, by simp, by simp, rfl⟩
  | cons x xs ih =>
    by_cases hx : x ∈ out
    · obtain ⟨new, hsub, hnodup, hfresh, hcover, heq⟩ := ih stack out
      refine ⟨new, fun y hy => List.mem_cons_of_mem x (hsub y hy), hnodup, hfresh, ?_, ?_⟩
      · intro y hy
        rcases List.mem_cons.mp hy with rfl | hy
        · exact List.mem_append_right new hx
        · exact hcover hy
      · rw [markAll, if_pos hx, heq]
    · obtain ⟨new, hsub, hnodup, hfresh, hcover, heq⟩ := ih (x :: stack) (x :: out)
      refine ⟨new ++ [x], ?_, ?_, ?_, ?_, ?_⟩
      · intro y hy
        rcases List.mem_append.mp hy with hy | hy
        · exact List.mem_cons_of_mem x (hsub y hy)
        · rw [List.mem_singleton.mp hy]
          exact List.mem_cons_self
      · refine List.nodup_append.mpr ⟨hnodup, by simp, ?_⟩
        intro y hy z hz hyz
        rw [List.mem_singleton.mp hz] at hyz
        subst hyz
        exact hfresh y hy (by simp)
      · intro y hy hout
        rcases List.mem_append.mp hy with hy | hy
        · exact hfresh y hy (List.mem_cons_of_mem x hout)
        · rw [List.mem_singleton.mp hy] at hout
          exact hx hout
      · intro y hy
        rcases List.mem_cons.mp hy with rfl | hy
        · simp
        · have := hcover hy
          simpa using this
      · rw [markAll, if_neg hx, heq]
        simp

variable {next : α → List α}

theorem subset_mark (fuel : ℕ) (stack out : List α) : out ⊆ mark next fuel stack out := by
  induction fuel generalizing stack out with
  | zero => simp only [mark, List.Subset.refl]
  | succ fuel ih =>
    cases stack with
    | nil => simp only [mark, List.Subset.refl]
    | cons x stack =>
      obtain ⟨new, -, -, -, -, heq⟩ := markAll_spec (next x) stack out
      rw [mark, heq]
      exact List.Subset.trans (List.subset_append_right new out) (ih _ _)

theorem nodup_mark (fuel : ℕ) (stack out : List α) (h : out.Nodup) : (mark next fuel stack out).Nodup := by
  induction fuel generalizing stack out with
  | zero => simpa only [mark] using h
  | succ fuel ih =>
    cases stack with
    | nil => simpa only [mark] using h
    | cons x stack =>
      obtain ⟨new, -, hnodup, hfresh, -, heq⟩ := markAll_spec (next x) stack out
      rw [mark, heq]
      refine ih _ _ (List.nodup_append.mpr ⟨hnodup, h, ?_⟩)
      intro y hy z hz hyz
      exact hfresh y hy (hyz ▸ hz)

/-- A marked node was marked before, or is found along successors that were not. -/
theorem mark_induction {motive : α → Prop} (fuel : ℕ) (hstack : ∀ x ∈ stack, ∀ y ∈ next x, y ∉ out → motive y)
    (hstep : ∀ x, motive x → ∀ y ∈ next x, y ∉ out → motive y) :
    ∀ y ∈ mark next fuel stack out, y ∈ out ∨ motive y := by
  induction fuel generalizing stack out with
  | zero =>
    intro y hy
    exact Or.inl (by simpa only [mark] using hy)
  | succ fuel ih =>
    cases stack with
    | nil =>
      intro y hy
      exact Or.inl (by simpa only [mark] using hy)
    | cons x stack =>
      obtain ⟨new, hsub, -, hfresh, -, heq⟩ := markAll_spec (next x) stack out
      have hnew : ∀ y ∈ new, motive y := fun y hy =>
        hstack x (by simp) y (hsub y hy) (hfresh y hy)
      rw [mark, heq]
      have hrest : ∀ y ∈ mark next fuel (new ++ stack) (new ++ out), y ∈ new ++ out ∨ motive y := by
        apply ih
        · intro z hz y hy hyout
          have hyold : y ∉ out := fun h => hyout (List.mem_append_right new h)
          rcases List.mem_append.mp hz with hz | hz
          · exact hstep z (hnew z hz) y hy hyold
          · exact hstack z (List.mem_cons_of_mem x hz) y hy hyold
        · intro z hz y hy hyout
          exact hstep z hz y hy fun h => hyout (List.mem_append_right new h)
      intro y hy
      rcases hrest y hy with hin | hin
      · rcases List.mem_append.mp hin with hin | hin
        · exact Or.inr (hnew y hin)
        · exact Or.inl hin
      · exact Or.inr hin

theorem card_unmarked {new : List α} (hknown : ∀ y ∈ new, y ∈ known) (hnodup : new.Nodup)
    (hfresh : ∀ y ∈ new, y ∉ out) :
    (known.filter (· ∉ out)).card = new.length + (known.filter (· ∉ new ++ out)).card := by
  have hsplit : known.filter (· ∉ out) = new.toFinset ∪ known.filter (· ∉ new ++ out) := by
    ext y
    simp only [Finset.mem_filter, Finset.mem_union, List.mem_toFinset, List.mem_append, not_or]
    constructor
    · rintro ⟨hk, hout⟩
      by_cases hy : y ∈ new
      · exact Or.inl hy
      · exact Or.inr ⟨hk, hy, hout⟩
    · rintro (hy | ⟨hk, -, hout⟩)
      · exact ⟨hknown y hy, hfresh y hy⟩
      · exact ⟨hk, hout⟩
  have hdisj : Disjoint new.toFinset (known.filter (· ∉ new ++ out)) := by
    rw [Finset.disjoint_left]
    intro y hy hy'
    simp only [Finset.mem_filter, List.mem_append, not_or] at hy'
    exact hy'.2.1 (List.mem_toFinset.mp hy)
  rw [hsplit, Finset.card_union_of_disjoint hdisj, List.toFinset_card_of_nodup hnodup]

theorem mark_closed (hknown : ∀ x, ∀ y ∈ next x, y ∈ known) {fuel : ℕ}
    (hfuel : stack.length + (known.filter (· ∉ out)).card ≤ fuel) :
    (∀ x ∈ stack, ∀ y ∈ next x, y ∈ mark next fuel stack out) ∧
      ∀ x ∈ mark next fuel stack out, x ∉ out → ∀ y ∈ next x, y ∈ mark next fuel stack out := by
  induction fuel generalizing stack out with
  | zero =>
    have hnil : stack = [] := by
      rw [← List.length_eq_zero_iff]
      omega
    subst hnil
    simp only [mark]
    exact ⟨by simp, fun x hx hout => absurd hx hout⟩
  | succ fuel ih =>
    cases stack with
    | nil =>
      simp only [mark]
      exact ⟨by simp, fun x hx hout => absurd hx hout⟩
    | cons x stack =>
      obtain ⟨new, hsub, hnodup, hfresh, hcover, heq⟩ := markAll_spec (next x) stack out
      have hcard := card_unmarked (fun y hy => hknown x y (hsub y hy)) hnodup hfresh
      rw [mark, heq]
      have hless : (new ++ stack).length + (known.filter (· ∉ new ++ out)).card ≤ fuel := by
        simp only [List.length_append, List.length_cons] at hfuel ⊢
        omega
      obtain ⟨hstack, hclosed⟩ := ih hless
      refine ⟨fun z hz y hy => ?_, fun z hz hout y hy => ?_⟩
      · rcases List.mem_cons.mp hz with rfl | hz
        · exact subset_mark _ _ _ (hcover hy)
        · exact hstack z (List.mem_append_right new hz) y hy
      · by_cases hnew : z ∈ new
        · exact hstack z (List.mem_append_left stack hnew) y hy
        · exact hclosed z hz (by simp [hnew, hout]) y hy

end Mark

section Roots

variable {next : α → List α} {out roots : List α}

/-- Mark every root and what can be found from it. -/
def markFrom (next : α → List α) (fuel : ℕ) (roots out : List α) : List α :=
  roots.foldl (fun out x => mark next fuel [x] (insertNew x out)) out

theorem subset_markFrom (fuel : ℕ) (roots out : List α) : out ⊆ markFrom next fuel roots out := by
  induction roots generalizing out with
  | nil => exact List.Subset.refl out
  | cons x roots ih =>
    intro y hy
    have hmarked : y ∈ mark next fuel [x] (insertNew x out) :=
      subset_mark _ _ _ (mem_insertNew.mpr (Or.inr hy))
    exact ih _ hmarked

theorem roots_subset_markFrom (fuel : ℕ) (roots out : List α) : roots ⊆ markFrom next fuel roots out := by
  induction roots generalizing out with
  | nil => simp
  | cons x roots ih =>
    intro y hy
    rcases List.mem_cons.mp hy with rfl | hy
    · have hmarked : y ∈ mark next fuel [y] (insertNew y out) :=
        subset_mark _ _ _ (mem_insertNew.mpr (Or.inl rfl))
      exact subset_markFrom fuel roots _ hmarked
    · exact ih _ hy

theorem nodup_markFrom (fuel : ℕ) (roots out : List α) (h : out.Nodup) : (markFrom next fuel roots out).Nodup := by
  induction roots generalizing out with
  | nil => exact h
  | cons x roots ih => exact ih _ (nodup_mark _ _ _ (nodup_insertNew h))

theorem markFrom_induction {motive : α → Prop} (fuel : ℕ) (hroots : ∀ x ∈ roots, motive x)
    (hstep : ∀ x, motive x → ∀ y ∈ next x, y ∉ out → motive y) :
    ∀ y ∈ markFrom next fuel roots out, y ∈ out ∨ motive y := by
  induction roots generalizing out with
  | nil => exact fun y hy => Or.inl hy
  | cons x roots ih =>
    intro y hy
    have hx : motive x := hroots x (by simp)
    have hkeep : ∀ z, z ∉ insertNew x out → z ∉ out := fun z hz hout =>
      hz (mem_insertNew.mpr (Or.inr hout))
    have hfirst : ∀ y ∈ mark next fuel [x] (insertNew x out), y ∈ insertNew x out ∨ motive y := by
      apply mark_induction
      · intro z hz w hw hout
        rw [List.mem_singleton.mp hz] at hw
        exact hstep x hx w hw (hkeep w hout)
      · exact fun z hz w hw hout => hstep z hz w hw (hkeep w hout)
    have hrest : y ∈ mark next fuel [x] (insertNew x out) ∨ motive y := by
      refine ih (fun z hz => hroots z (List.mem_cons_of_mem x hz)) ?_ y hy
      intro z hz w hw hout
      exact hstep z hz w hw fun h => hout (subset_mark _ _ _ (mem_insertNew.mpr (Or.inr h)))
    rcases hrest with hin | hin
    · rcases hfirst y hin with hin | hin
      · rcases mem_insertNew.mp hin with rfl | hin
        · exact Or.inr hx
        · exact Or.inl hin
      · exact Or.inr hin
    · exact Or.inr hin

theorem markFrom_closed {known : Finset α} (hknown : ∀ x, ∀ y ∈ next x, y ∈ known) {fuel : ℕ}
    (hfuel : 1 + known.card ≤ fuel) :
    ∀ x ∈ markFrom next fuel roots out, x ∉ out → ∀ y ∈ next x, y ∈ markFrom next fuel roots out := by
  induction roots generalizing out with
  | nil => exact fun x hx hout => absurd hx hout
  | cons r roots ih =>
    intro x hx hout y hy
    have hless : [r].length + (known.filter (· ∉ insertNew r out)).card ≤ fuel := by
      have := Finset.card_filter_le known (· ∉ insertNew r out)
      simp only [List.length_cons, List.length_nil]
      omega
    obtain ⟨hroot, hclosed⟩ := mark_closed hknown hless
    by_cases hfirst : x ∈ mark next fuel [r] (insertNew r out)
    · refine subset_markFrom fuel roots _ ?_
      by_cases hr : x = r
      · exact hroot r (by simp) y (hr ▸ hy)
      · exact hclosed x hfirst (fun h => (mem_insertNew.mp h).elim hr hout) y hy
    · exact ih x hx hfirst y hy

end Roots

end KuberCoin.Worklists
