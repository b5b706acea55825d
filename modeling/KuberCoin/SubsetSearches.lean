import Mathlib

/-!
The include-or-exclude search for a subset of weighted items that reaches a goal.
A branch ends where the goal is reached and where the items left cannot reach it. The calls
of the search are listed in order, so that a search with a budget looks at a first part of
the list.
-/
namespace KuberCoin.SubsetSearches

variable {ι : Type*}

section Calls

variable {weight : ι → ℕ} {chosen items : List ι} {goal w : ℕ}

/-- Total weight of some items. -/
def weightOf (weight : ι → ℕ) (items : List ι) : ℕ := (items.map weight).sum

@[simp]
theorem weightOf_nil (weight : ι → ℕ) : weightOf weight [] = 0 := rfl

@[simp]
theorem weightOf_cons (weight : ι → ℕ) (i : ι) (items : List ι) :
    weightOf weight (i :: items) = weight i + weightOf weight items := by
  simp [weightOf]

@[simp]
theorem weightOf_append (weight : ι → ℕ) (items items' : List ι) :
    weightOf weight (items ++ items') = weightOf weight items + weightOf weight items' := by
  simp [weightOf]

theorem weightOf_sublist (h : List.Sublist chosen items) : weightOf weight chosen ≤ weightOf weight items := by
  induction h with
  | slnil => exact le_rfl
  | cons i _ ih => exact ih.trans (by simp)
  | cons_cons i _ ih => simpa using ih

theorem weightOf_perm {items' : List ι} (h : items.Perm items') :
    weightOf weight items = weightOf weight items' := (h.map weight).sum_eq

theorem weightOf_le {weight' : ι → ℕ} (h : ∀ i, weight i ≤ weight' i) (items : List ι) :
    weightOf weight items ≤ weightOf weight' items := by
  induction items with
  | nil => exact le_rfl
  | cons i rest ih =>
    rw [weightOf_cons, weightOf_cons]
    exact Nat.add_le_add (h i) ih

theorem weightOf_cast (weight : ι → ℕ) (items : List ι) :
    (weightOf weight items : ℤ) = (items.map fun i => (weight i : ℤ)).sum := by
  induction items with
  | nil => rfl
  | cons i rest ih => simp [ih]

/-- The calls of the search in order, each with the items taken so far and their weight. -/
def calls (weight : ι → ℕ) (goal : ℕ) : List ι → List ι → ℕ → List (List ι × ℕ)
  | [], taken, w => [(taken, w)]
  | i :: rest, taken, w =>
      if goal ≤ w ∨ w + weightOf weight (i :: rest) < goal then [(taken, w)]
      else
        (taken, w) ::
          (calls weight goal rest (taken ++ [i]) (w + weight i) ++ calls weight goal rest taken w)

theorem calls_of_stop (taken : List ι) (hstop : goal ≤ w ∨ w + weightOf weight items < goal) :
    calls weight goal items taken w = [(taken, w)] := by
  cases items with
  | nil => rfl
  | cons i rest => simp only [calls, if_pos hstop]

theorem calls_cons {i : ι} {rest : List ι} (taken : List ι)
    (hgo : ¬ (goal ≤ w ∨ w + weightOf weight (i :: rest) < goal)) : calls weight goal (i :: rest) taken w =
      (taken, w) ::
        (calls weight goal rest (taken ++ [i]) (w + weight i) ++ calls weight goal rest taken w) := by
  simp only [calls, if_neg hgo]

theorem calls_sound {taken : List ι} {c : List ι × ℕ} (hc : c ∈ calls weight goal items taken w) :
    ∃ chosen, List.Sublist chosen items ∧ c.1 = taken ++ chosen ∧ c.2 = w + weightOf weight chosen := by
  induction items generalizing taken w with
  | nil =>
    have heq : c = (taken, w) := by simpa [calls] using hc
    exact ⟨[], List.Sublist.slnil, by simp [heq], by simp [heq]⟩
  | cons i rest ih =>
    by_cases hstop : goal ≤ w ∨ w + weightOf weight (i :: rest) < goal
    · rw [calls_of_stop taken hstop, List.mem_singleton] at hc
      exact ⟨[], List.nil_sublist _, by simp [hc], by simp [hc]⟩
    · rw [calls_cons taken hstop, List.mem_cons, List.mem_append] at hc
      obtain rfl | hin | hout := hc
      · exact ⟨[], List.nil_sublist _, by simp, by simp⟩
      · obtain ⟨chosen, hsub, hitems, hweight⟩ := ih hin
        refine ⟨i :: chosen, hsub.cons_cons i, by simp [hitems], ?_⟩
        rw [hweight, weightOf_cons]
        omega
      · obtain ⟨chosen, hsub, hitems, hweight⟩ := ih hout
        exact ⟨chosen, hsub.cons i, hitems, hweight⟩

/-- Items that reach the goal are outdone by a call that reaches it with no more weight: no
branch that is left out hides a lighter one. -/
theorem calls_complete (hsub : List.Sublist chosen items) (taken : List ι)
    (hreach : goal ≤ w + weightOf weight chosen) :
    ∃ c ∈ calls weight goal items taken w, goal ≤ c.2 ∧ c.2 ≤ w + weightOf weight chosen := by
  induction items generalizing taken w chosen with
  | nil =>
    have hnil : chosen = [] := List.sublist_nil.mp hsub
    rw [hnil, weightOf_nil] at hreach
    exact ⟨(taken, w), by simp [calls], by simpa using hreach, by simp⟩
  | cons i rest ih =>
    by_cases hdone : goal ≤ w
    · exact ⟨(taken, w), by rw [calls_of_stop taken (.inl hdone)]; simp, hdone, by simp⟩
    · have hgo : ¬ (goal ≤ w ∨ w + weightOf weight (i :: rest) < goal) := by
        have hle : weightOf weight chosen ≤ weightOf weight (i :: rest) := weightOf_sublist hsub
        omega
      rw [calls_cons taken hgo]
      cases hsub with
      | cons _ hrest =>
        obtain ⟨c, hc, hgoal, hle⟩ := ih hrest taken hreach
        exact ⟨c, by simp [hc], hgoal, hle⟩
      | cons_cons _ hrest =>
        rename_i chosen'
        have hreach' : goal ≤ w + weight i + weightOf weight chosen' := by
          rw [weightOf_cons] at hreach
          omega
        obtain ⟨c, hc, hgoal, hle⟩ := ih hrest (taken ++ [i]) hreach'
        refine ⟨c, by simp [hc], hgoal, ?_⟩
        rw [weightOf_cons]
        omega

end Calls

section Keeping

variable {goal : ℕ} {tolerance : ℤ} {seen : List (List ι × ℕ)}

/-- The best call so far with its excess over the goal, after one more call. -/
def keep (goal : ℕ) (tolerance : ℤ) (best : Option (List ι) × ℤ) (c : List ι × ℕ) : Option (List ι) × ℤ :=
  if goal ≤ c.2 ∧ (c.2 : ℤ) - goal ≤ tolerance ∧ (c.2 : ℤ) - goal < best.2 then
    (some c.1, (c.2 : ℤ) - goal)
  else best

/-- A call that a search with this goal and this tolerance accepts. -/
def InWindow (goal : ℕ) (tolerance : ℤ) (c : List ι × ℕ) : Prop :=
  goal ≤ c.2 ∧ (c.2 : ℤ) ≤ goal + tolerance

/-- The best of some calls: none lies in the window and the start is left, or it is one that
lies in it, with the least excess. -/
structure Best (goal : ℕ) (tolerance start : ℤ) (seen : List (List ι × ℕ))
    (best : Option (List ι) × ℤ) : Prop where
  none : best.1 = none → best.2 = start ∧ ∀ c ∈ seen, ¬ InWindow goal tolerance c
  some : ∀ chosen, best.1 = some chosen →
    ∃ c ∈ seen, c.1 = chosen ∧ InWindow goal tolerance c ∧ best.2 = (c.2 : ℤ) - goal
  least : ∀ c ∈ seen, InWindow goal tolerance c → best.2 ≤ (c.2 : ℤ) - goal

theorem Best.start (goal : ℕ) (tolerance start : ℤ) : Best (ι := ι) goal tolerance start [] (Option.none, start) where
  none _ := ⟨rfl, by simp⟩
  some _ h := by simp at h
  least := by simp

theorem Best.keep {start : ℤ} {best : Option (List ι) × ℤ} (h : Best goal tolerance start seen best) {c : List ι × ℕ}
    (hbound : (c.2 : ℤ) - goal < start) : Best goal tolerance start (seen ++ [c]) (keep goal tolerance best c) := by
  unfold SubsetSearches.keep
  split
  case isTrue hkeep =>
    have hwindow : InWindow goal tolerance c := ⟨hkeep.1, by omega⟩
    refine ⟨by simp, ?_, ?_⟩
    · intro chosen hchosen
      exact ⟨c, by simp, by simpa using hchosen, hwindow, rfl⟩
    · intro c' hc' hin
      rw [List.mem_append, List.mem_singleton] at hc'
      obtain hseen | rfl := hc'
      · have hleast := h.least c' hseen hin
        simp only
        omega
      · simp
  case isFalse hkeep =>
    refine ⟨?_, ?_, ?_⟩
    · intro hnone
      obtain ⟨hstart, hout⟩ := h.none hnone
      refine ⟨hstart, ?_⟩
      intro c' hc' hin
      rw [List.mem_append, List.mem_singleton] at hc'
      obtain hseen | rfl := hc'
      · exact hout c' hseen hin
      · exact hkeep ⟨hin.1, by have := hin.2; omega, by omega⟩
    · intro chosen hchosen
      obtain ⟨c', hseen, hfacts⟩ := h.some chosen hchosen
      exact ⟨c', by simp [hseen], hfacts⟩
    · intro c' hc' hin
      rw [List.mem_append, List.mem_singleton] at hc'
      obtain hseen | rfl := hc'
      · exact h.least c' hseen hin
      · by_contra hlt
        exact hkeep ⟨hin.1, by have := hin.2; omega, by omega⟩

theorem best_foldl {start : ℤ} (hbound : ∀ c ∈ seen, (c.2 : ℤ) - goal < start) :
    Best goal tolerance start seen (seen.foldl (keep goal tolerance) (none, start)) := by
  induction seen using List.reverseRecOn with
  | nil => exact Best.start goal tolerance start
  | append_singleton seen c ih =>
    rw [List.foldl_append, List.foldl_cons, List.foldl_nil]
    exact (ih fun c' hc' => hbound c' (by simp [hc'])).keep (hbound c (by simp))

end Keeping

section Runs

variable {items run taken : List ι}

/-- An initial run of some items, empty only when there are none. -/
def InitialRun (items run : List ι) : Prop := List.IsPrefix run items ∧ (run = [] → items = [])

/-- The shortest initial run that is good. -/
structure ShortestRun (good : List ι → Prop) (items run : List ι) : Prop where
  initial : InitialRun items run
  holds : good run
  shortest : ∀ run', InitialRun items run' → good run' → run.length ≤ run'.length

theorem ShortestRun.unique {good : List ι → Prop} {run' : List ι} (h : ShortestRun good items run)
    (h' : ShortestRun good items run') : run = run' := by
  have hlength : run.length = run'.length :=
    le_antisymm (h.shortest run' h'.initial h'.holds) (h'.shortest run h.initial h.holds)
  rw [List.prefix_iff_eq_take.mp h.initial.1, List.prefix_iff_eq_take.mp h'.initial.1, hlength]

/-- The items up to the first that makes the run good, behind those taken before. -/
def firstRun (good : List ι → Prop) [DecidablePred good] : List ι → List ι → Option (List ι)
  | _, [] => none
  | taken, i :: rest =>
      if good (taken ++ [i]) then some (taken ++ [i]) else firstRun good (taken ++ [i]) rest

variable {good : List ι → Prop} [DecidablePred good]

theorem firstRun_eq_none (h : firstRun good taken items = none) (hrun : List.IsPrefix run items) (hne : run ≠ []) :
    ¬ good (taken ++ run) := by
  induction items generalizing taken run with
  | nil => exact absurd (List.prefix_nil.mp hrun) hne
  | cons i rest ih =>
    rw [firstRun] at h
    split at h
    case isTrue => simp at h
    case isFalse hbad =>
      obtain ⟨run', rfl, hrest⟩ := (List.prefix_cons_iff.mp hrun).resolve_left hne
      by_cases hnil : run' = []
      · rw [hnil]
        exact hbad
      · simpa using ih h hrest hnil

theorem firstRun_eq_some (h : firstRun good taken items = some run) :
    ∃ added, run = taken ++ added ∧ List.IsPrefix added items ∧ added ≠ [] ∧ good run ∧
      ∀ added', List.IsPrefix added' items → added' ≠ [] → good (taken ++ added') →
        added.length ≤ added'.length := by
  induction items generalizing taken with
  | nil => simp [firstRun] at h
  | cons i rest ih =>
    rw [firstRun] at h
    split at h
    case isTrue hgood =>
      rw [Option.some.injEq] at h
      subst h
      refine ⟨[i], rfl, by simp, by simp, hgood, ?_⟩
      intro added' _ hne _
      exact List.length_pos_iff.mpr hne
    case isFalse hbad =>
      obtain ⟨added, hrun, hinit, -, hgood, hshortest⟩ := ih h
      refine ⟨i :: added, by simp [hrun], List.cons_prefix_cons.mpr ⟨rfl, hinit⟩, by simp, hgood, ?_⟩
      intro added' hinit' hne hgood'
      obtain ⟨run', rfl, hrest⟩ := (List.prefix_cons_iff.mp hinit').resolve_left hne
      by_cases hnil : run' = []
      · rw [hnil] at hgood'
        exact absurd hgood' hbad
      · have hle := hshortest run' hrest hnil (by simpa using hgood')
        simpa using hle

theorem shortestRun_of_firstRun (h : firstRun good [] items = some run) : ShortestRun good items run := by
  obtain ⟨added, rfl, hinit, hne, hgood, hshortest⟩ := firstRun_eq_some h
  refine ⟨⟨hinit, fun hnil => absurd hnil hne⟩, hgood, ?_⟩
  intro run' hrun' hgood'
  apply hshortest run' hrun'.1 _ hgood'
  intro hnil
  rw [hrun'.2 hnil] at hinit
  exact hne (List.prefix_nil.mp hinit)

end Runs

end KuberCoin.SubsetSearches
