import KuberCoin.CoinSelections

/-!
Branch and bound against the calls of the include-or-exclude search. The code looks at the
first hundred thousand calls and keeps the best of them. When the search ends within its
budget these are all calls, and no call that was left out hides a better subset.
-/
namespace KuberCoin.CoinSearches

open SubsetSearches CoinSelections

section Backtracking

/-- The best subset and its excess, without the count of calls. -/
def kept (search : Search) : Option (List ℕ) × ℤ := (search.best, search.bestWaste)

/-- The search after one more call. -/
def visit (targetEff : ℕ) (tolerance : ℤ) (current : List ℕ) (currentValue : ℕ)
    (search : Search) : Search :=
  { best := (keep targetEff tolerance (kept search) (current, currentValue)).1
    bestWaste := (keep targetEff tolerance (kept search) (current, currentValue)).2
    iterations := search.iterations + 1 }

@[simp]
theorem visit_iterations (targetEff : ℕ) (tolerance : ℤ) (current : List ℕ) (currentValue : ℕ) (search : Search) :
    (visit targetEff tolerance current currentValue search).iterations = search.iterations + 1 := rfl

@[simp]
theorem kept_visit (targetEff : ℕ) (tolerance : ℤ) (current : List ℕ) (currentValue : ℕ) (search : Search) :
    kept (visit targetEff tolerance current currentValue search) =
      keep targetEff tolerance (kept search) (current, currentValue) := rfl

theorem visit_of_lt {targetEff currentValue : ℕ} (hlt : currentValue < targetEff) (tolerance : ℤ) (current : List ℕ)
    (search : Search) : visit targetEff tolerance current currentValue search =
      { search with iterations := search.iterations + 1 } := by
  have hkeep : keep targetEff tolerance (kept search) (current, currentValue) = kept search := by
    apply if_neg
    intro h
    have hge := h.1
    simp only at hge
    omega
  unfold visit
  rw [hkeep]
  rfl

variable {effValue : ℕ → ℕ} {targetEff : ℕ} (tolerance : ℕ) {indices : List ℕ} (current : List ℕ)
  {currentValue : ℕ} {search : Search}

theorem backtrack_of_budget (hover : bnbMaxIterations ≤ search.iterations) :
    backtrack effValue targetEff tolerance indices current currentValue search =
      { search with iterations := search.iterations + 1 } := by
  have hlt : bnbMaxIterations < search.iterations + 1 := by omega
  cases indices <;> simp [backtrack, hlt]

theorem backtrack_of_stop (hbudget : search.iterations < bnbMaxIterations)
    (hstop : targetEff ≤ currentValue ∨ currentValue + weightOf effValue indices < targetEff ∨
      indices = []) : backtrack effValue targetEff tolerance indices current currentValue search =
      visit targetEff (asI64 tolerance) current currentValue search := by
  have hnot : ¬ bnbMaxIterations < search.iterations + 1 := by omega
  by_cases hreach : targetEff ≤ currentValue
  · have hvisit : visit targetEff (asI64 tolerance) current currentValue search =
        if (currentValue : ℤ) - targetEff ≤ asI64 tolerance ∧
            (currentValue : ℤ) - targetEff < search.bestWaste then
          { best := some current, bestWaste := (currentValue : ℤ) - targetEff
            iterations := search.iterations + 1 }
        else { search with iterations := search.iterations + 1 } := by
      simp only [visit, keep, kept, hreach, true_and]
      split <;> simp
    rw [hvisit]
    cases indices <;> simp only [backtrack, if_neg hnot, if_pos hreach]
  · rw [visit_of_lt (by omega)]
    cases indices with
    | nil => simp only [backtrack, if_neg hnot, if_neg hreach]
    | cons idx rest =>
      have hprune : currentValue + weightOf effValue (idx :: rest) < targetEff := by simpa [hreach] using hstop
      simp only [backtrack, if_neg hnot, if_neg hreach, if_pos hprune]

theorem backtrack_cons {idx : ℕ} {rest : List ℕ} (hbudget : search.iterations < bnbMaxIterations)
    (hgo : ¬ (targetEff ≤ currentValue ∨ currentValue + weightOf effValue (idx :: rest) < targetEff)) :
    backtrack effValue targetEff tolerance (idx :: rest) current currentValue search =
      backtrack effValue targetEff tolerance rest current currentValue
        (backtrack effValue targetEff tolerance rest (current ++ [idx]) (currentValue + effValue idx)
          (visit targetEff (asI64 tolerance) current currentValue search)) := by
  have hnot : ¬ bnbMaxIterations < search.iterations + 1 := by omega
  obtain ⟨hreach, hprune⟩ := not_or.mp hgo
  rw [visit_of_lt (by omega)]
  simp only [backtrack, if_neg hnot, if_neg hreach, if_neg hprune]

theorem calls_pos (indices current : List ℕ) (currentValue : ℕ) :
    0 < (calls effValue targetEff indices current currentValue).length := by
  cases indices with
  | nil => simp [calls]
  | cons idx rest =>
    rw [calls]
    split <;> simp

/-- The code keeps the best of the calls its budget still allows, and counts them. -/
theorem backtrack_eq (indices current : List ℕ) (currentValue : ℕ) (search : Search) :
    kept (backtrack effValue targetEff tolerance indices current currentValue search) =
        ((calls effValue targetEff indices current currentValue).take
          (bnbMaxIterations - search.iterations)).foldl (keep targetEff (asI64 tolerance))
            (kept search) ∧
      bnbMaxIterations -
          (backtrack effValue targetEff tolerance indices current currentValue search).iterations =
        bnbMaxIterations -
          (search.iterations + (calls effValue targetEff indices current currentValue).length) := by
  induction indices generalizing current currentValue search with
  | nil =>
    by_cases hover : bnbMaxIterations ≤ search.iterations
    · rw [backtrack_of_budget tolerance current hover, Nat.sub_eq_zero_of_le hover]
      exact ⟨rfl, by simp only [calls, List.length_singleton]⟩
    · have hone : bnbMaxIterations - search.iterations = (bnbMaxIterations - search.iterations - 1) + 1 := by
        omega
      rw [backtrack_of_stop tolerance current (by omega) (by simp), hone]
      exact ⟨by simp [calls], by simp only [calls, List.length_singleton, visit_iterations]⟩
  | cons idx rest ih =>
    by_cases hover : bnbMaxIterations ≤ search.iterations
    · have hpos : 0 < (calls effValue targetEff (idx :: rest) current currentValue).length :=
        calls_pos (idx :: rest) current currentValue
      rw [backtrack_of_budget tolerance current hover, Nat.sub_eq_zero_of_le hover]
      exact ⟨rfl, by simp only; omega⟩
    · have hone : bnbMaxIterations - search.iterations = (bnbMaxIterations - (search.iterations + 1)) + 1 := by
        omega
      by_cases hstop : targetEff ≤ currentValue ∨ currentValue + weightOf effValue (idx :: rest) < targetEff
      · rw [backtrack_of_stop tolerance current (by omega) (by simp only [← or_assoc, hstop, true_or]),
          calls_of_stop current hstop, hone]
        exact ⟨by simp, by simp only [List.length_singleton, visit_iterations]⟩
      · rw [backtrack_cons tolerance current (by omega) hstop, calls_cons current hstop, hone]
        obtain ⟨hkept₁, hcount₁⟩ := ih (current ++ [idx]) (currentValue + effValue idx)
          (visit targetEff (asI64 tolerance) current currentValue search)
        obtain ⟨hkept₂, hcount₂⟩ := ih current currentValue
          (backtrack effValue targetEff tolerance rest (current ++ [idx]) (currentValue + effValue idx)
            (visit targetEff (asI64 tolerance) current currentValue search))
        rw [visit_iterations] at hkept₁ hcount₁
        constructor
        · rw [hkept₂, hkept₁, hcount₁, kept_visit, List.take_succ_cons, List.foldl_cons, List.take_append,
            List.foldl_append, Nat.sub_sub]
        · simp only [List.length_cons, List.length_append]
          omega

end Backtracking

section Subsets

variable {fee : ℕ → ℕ} {candidates : List InputCandidate} {target : SelectionTarget} {i : ℕ} {chosen : List ℕ}

theorem mem_bnbIndices :
    i ∈ bnbIndices fee candidates ↔ i < candidates.length ∧ 0 < effectiveValueAt fee candidates i := by
  simp [bnbIndices]

theorem bnbIndices_nodup : (bnbIndices fee candidates).Nodup :=
  ((List.perm_insertionSort _ _).nodup_iff.mpr List.nodup_range).filter _

theorem effValue_cast (hi : i ∈ bnbIndices fee candidates) :
    (effValue fee candidates i : ℤ) = effectiveValueAt fee candidates i :=
  Int.toNat_of_nonneg (mem_bnbIndices.mp hi).2.le

theorem effValue_le (i : ℕ) : effValue fee candidates i ≤ valueAt candidates i := by
  unfold effValue effectiveValueAt InputCandidate.effectiveValue valueAt
  omega

theorem weightOf_range : weightOf (valueAt candidates) (List.range candidates.length) =
    (candidates.map InputCandidate.value).sum := by
  unfold weightOf
  congr 1
  apply List.ext_getElem (by simp)
  intro i _ hi
  have hlt : i < candidates.length := by simpa using hi
  simp [valueAt, candidateAt, hlt]

theorem weightOf_effValue_le (h : List.Sublist chosen (bnbIndices fee candidates)) :
    weightOf (effValue fee candidates) chosen ≤ (candidates.map InputCandidate.value).sum := by
  have hsorted := List.perm_insertionSort
    (fun a b => effectiveValueAt fee candidates b ≤ effectiveValueAt fee candidates a)
    (List.range candidates.length)
  calc
    _ ≤ weightOf (valueAt candidates) chosen := weightOf_le effValue_le chosen
    _ ≤ weightOf (valueAt candidates) _ := weightOf_sublist (h.trans List.filter_sublist)
    _ = _ := (weightOf_perm hsorted).trans weightOf_range

/-- The candidates that are worth more than it costs to spend them. -/
def positive (fee : ℕ → ℕ) (candidates : List InputCandidate) : Finset ℕ :=
  (Finset.range candidates.length).filter fun i => 0 < effectiveValueAt fee candidates i

/-- Total effective value of some candidates. -/
def subsetValue (fee : ℕ → ℕ) (candidates : List InputCandidate) (S : Finset ℕ) : ℤ :=
  ∑ i ∈ S, effectiveValueAt fee candidates i

/-- A subset that branch and bound may answer with. -/
def Meets (fee : ℕ → ℕ) (candidates : List InputCandidate) (target : SelectionTarget)
    (S : Finset ℕ) : Prop :=
  S ⊆ positive fee candidates ∧
    (target.targetValue + fee target.baseWeight : ℤ) ≤ subsetValue fee candidates S ∧
      subsetValue fee candidates S ≤
        target.targetValue + fee target.baseWeight + target.changeSpendCost

theorem mem_positive : i ∈ positive fee candidates ↔ i ∈ bnbIndices fee candidates := by
  simp [positive, mem_bnbIndices]

theorem bnbIndices_eq_nil : bnbIndices fee candidates = [] ↔ positive fee candidates = ∅ := by
  simp only [List.eq_nil_iff_forall_not_mem, Finset.eq_empty_iff_forall_notMem, mem_positive]

theorem subsetValue_toFinset (h : List.Sublist chosen (bnbIndices fee candidates)) :
    subsetValue fee candidates chosen.toFinset = (weightOf (effValue fee candidates) chosen : ℤ) := by
  have hnodup : chosen.Nodup := bnbIndices_nodup.sublist h
  have hcast : chosen.map (effectiveValueAt fee candidates) =
      chosen.map fun i => (effValue fee candidates i : ℤ) := by
    apply List.map_congr_left
    intro i hi
    exact (effValue_cast (h.subset hi)).symm
  rw [subsetValue, List.sum_toFinset _ hnodup, hcast, weightOf_cast]

theorem toFinset_subset_positive (h : List.Sublist chosen (bnbIndices fee candidates)) :
    chosen.toFinset ⊆ positive fee candidates := by
  intro i hi
  exact mem_positive.mpr (h.subset (List.mem_toFinset.mp hi))

theorem exists_sublist {S : Finset ℕ} (hS : S ⊆ positive fee candidates) :
    ∃ chosen, List.Sublist chosen (bnbIndices fee candidates) ∧ chosen.toFinset = S := by
  refine ⟨(bnbIndices fee candidates).filter fun i => decide (i ∈ S), List.filter_sublist, ?_⟩
  ext i
  have hmem : i ∈ S → i ∈ bnbIndices fee candidates := fun hi => mem_positive.mp (hS hi)
  simpa using hmem

theorem asI64_of_lt {n : ℕ} (h : n < 2 ^ 63) : asI64 n = n :=
  Int.bmod_eq_of_le (by omega) (by omega)

theorem meets_toFinset (hcost : target.changeSpendCost < 2 ^ 63) (h : List.Sublist chosen (bnbIndices fee candidates)) :
    Meets fee candidates target chosen.toFinset ↔
      InWindow (targetEff fee target) (asI64 target.changeSpendCost)
        (chosen, weightOf (effValue fee candidates) chosen) := by
  have hvalue := subsetValue_toFinset h
  have hsub := toFinset_subset_positive h
  simp only [Meets, InWindow, targetEff, hvalue, hsub, true_and, asI64_of_lt hcost]
  omega

end Subsets

section Answers

variable (fee : ℕ → ℕ) (candidates : List InputCandidate) (target : SelectionTarget) {c : List ℕ × ℕ}

/-- The subsets branch and bound looks at, with what they are worth. -/
def looked : List (List ℕ × ℕ) :=
  if bnbIndices fee candidates = [] then []
  else
    (calls (effValue fee candidates) (targetEff fee target) (bnbIndices fee candidates) [] 0).take
      bnbMaxIterations

variable {fee candidates target}

theorem looked_sound (hc : c ∈ looked fee candidates target) :
    List.Sublist c.1 (bnbIndices fee candidates) ∧ c.2 = weightOf (effValue fee candidates) c.1 := by
  unfold looked at hc
  split at hc
  · simp at hc
  · obtain ⟨chosen, hsub, hitems, hweight⟩ := calls_sound (List.mem_of_mem_take hc)
    rw [List.nil_append] at hitems
    rw [hitems, hweight]
    exact ⟨hsub, by simp⟩

theorem excess_lt (hvalues : (candidates.map InputCandidate.value).sum < 2 ^ 63)
    (hc : c ∈ calls (effValue fee candidates) (targetEff fee target) (bnbIndices fee candidates) [] 0) :
    (c.2 : ℤ) - targetEff fee target < 2 ^ 63 - 1 := by
  by_cases hzero : targetEff fee target = 0
  · rw [calls_of_stop [] (.inl (by omega)), List.mem_singleton] at hc
    simp [hc, hzero]
  · obtain ⟨chosen, hsub, -, hweight⟩ := calls_sound hc
    have hle := weightOf_effValue_le hsub
    omega

theorem bnbSearch_best (target : SelectionTarget) (hvalues : (candidates.map InputCandidate.value).sum < 2 ^ 63)
    (hne : bnbIndices fee candidates ≠ []) :
    Best (targetEff fee target) (asI64 target.changeSpendCost) (2 ^ 63 - 1) (looked fee candidates target)
      (kept (bnbSearch fee candidates target)) := by
  unfold bnbSearch
  rw [(backtrack_eq target.changeSpendCost (bnbIndices fee candidates) [] 0 Search.start).1, looked, if_neg hne]
  apply best_foldl
  intro c hc
  exact excess_lt hvalues (List.mem_of_mem_take hc)

/-- What branch and bound makes of a subset. -/
def bnbResult (fee : ℕ → ℕ) (candidates : List InputCandidate) (target : SelectionTarget)
    (selected : List ℕ) : SelectionResult :=
  { selected
    inputTotal := weightOf (valueAt candidates) selected
    fee := fee target.baseWeight + weightOf (inputFee fee candidates) selected
    change := 0
    needsChange := false }

theorem looked_of_nil (hnil : bnbIndices fee candidates = []) : looked fee candidates target = [] :=
  if_pos hnil

theorem selectBnb_eq_none (hvalues : (candidates.map InputCandidate.value).sum < 2 ^ 63) :
    selectBnb fee candidates target = none ↔
      ∀ c ∈ looked fee candidates target,
        ¬ InWindow (targetEff fee target) (asI64 target.changeSpendCost) c := by
  by_cases hnil : bnbIndices fee candidates = []
  · simp [selectBnb, hnil, looked_of_nil hnil]
  · have hbest := bnbSearch_best target hvalues hnil
    have hempty : (bnbIndices fee candidates).isEmpty = false := by simpa using hnil
    simp only [selectBnb, hempty, Bool.false_eq_true, if_false, Option.map_eq_none_iff]
    constructor
    · intro hnone
      exact (hbest.none hnone).2
    · intro hout
      rw [Option.eq_none_iff_forall_ne_some]
      intro chosen hchosen
      obtain ⟨c, hc, -, hin, -⟩ := hbest.some chosen hchosen
      exact hout c hc hin

theorem selectBnb_eq_some (hvalues : (candidates.map InputCandidate.value).sum < 2 ^ 63) {r : SelectionResult}
    (hr : selectBnb fee candidates target = some r) : ∃ c ∈ looked fee candidates target,
      InWindow (targetEff fee target) (asI64 target.changeSpendCost) c ∧
        r = bnbResult fee candidates target c.1 ∧
          ∀ c' ∈ looked fee candidates target,
            InWindow (targetEff fee target) (asI64 target.changeSpendCost) c' → c.2 ≤ c'.2 := by
  by_cases hnil : bnbIndices fee candidates = []
  · simp [selectBnb, hnil] at hr
  · have hbest := bnbSearch_best target hvalues hnil
    have hempty : (bnbIndices fee candidates).isEmpty = false := by simpa using hnil
    simp only [selectBnb, hempty, Bool.false_eq_true, if_false, Option.map_eq_some_iff] at hr
    obtain ⟨chosen, hchosen, rfl⟩ := hr
    obtain ⟨c, hc, rfl, hin, hwaste⟩ := hbest.some chosen hchosen
    refine ⟨c, hc, hin, rfl, ?_⟩
    intro c' hc' hin'
    have hleast := hbest.least c' hc' hin'
    rw [hwaste] at hleast
    omega

theorem looked_of_budget (hne : bnbIndices fee candidates ≠ [])
    (hbudget : (bnbSearch fee candidates target).iterations < bnbMaxIterations) : looked fee candidates target =
      calls (effValue fee candidates) (targetEff fee target) (bnbIndices fee candidates) [] 0 := by
  have hcount : bnbMaxIterations - (bnbSearch fee candidates target).iterations = bnbMaxIterations -
      (Search.start.iterations +
        (calls (effValue fee candidates) (targetEff fee target) (bnbIndices fee candidates) [] 0).length) :=
    (backtrack_eq target.changeSpendCost (bnbIndices fee candidates) [] 0 Search.start).2
  have hzero : Search.start.iterations = 0 := rfl
  rw [looked, if_neg hne]
  apply List.take_of_length_le
  omega

theorem exists_looked (hcost : target.changeSpendCost < 2 ^ 63) (hne : bnbIndices fee candidates ≠ [])
    (hbudget : (bnbSearch fee candidates target).iterations < bnbMaxIterations) {S : Finset ℕ}
    (hS : Meets fee candidates target S) : ∃ c ∈ looked fee candidates target,
      InWindow (targetEff fee target) (asI64 target.changeSpendCost) c ∧
        (c.2 : ℤ) ≤ subsetValue fee candidates S := by
  obtain ⟨chosen, hsub, rfl⟩ := exists_sublist hS.1
  obtain ⟨hgoal, hlimit⟩ := (meets_toFinset hcost hsub).mp hS
  obtain ⟨c, hc, hreach, hle⟩ := calls_complete hsub [] (w := 0) (by simpa using hgoal)
  rw [Nat.zero_add] at hle
  rw [looked_of_budget hne hbudget, subsetValue_toFinset hsub]
  exact ⟨c, hc, ⟨hreach, by simp only at hlimit; omega⟩, by exact_mod_cast hle⟩

theorem meets_looked (hcost : target.changeSpendCost < 2 ^ 63) (hc : c ∈ looked fee candidates target)
    (hin : InWindow (targetEff fee target) (asI64 target.changeSpendCost) c) :
    Meets fee candidates target c.1.toFinset ∧ subsetValue fee candidates c.1.toFinset = c.2 := by
  obtain ⟨hsub, hweight⟩ := looked_sound hc
  have hpair : (c.1, weightOf (effValue fee candidates) c.1) = c := by rw [← hweight]
  rw [meets_toFinset hcost hsub, subsetValue_toFinset hsub, hpair, hweight]
  exact ⟨hin, rfl⟩

/-- Branch and bound within its budget answers exactly when some candidate pays for itself and
some subset of those that do lies in the window, and its answer has the least excess. -/
theorem selectBnb_exact (hvalues : (candidates.map InputCandidate.value).sum < 2 ^ 63)
    (hwindow : target.targetValue + fee target.baseWeight + target.changeSpendCost < 2 ^ 63)
    (hbudget : (bnbSearch fee candidates target).iterations < bnbMaxIterations) :
    ((selectBnb fee candidates target).isSome ↔
        (positive fee candidates).Nonempty ∧ ∃ S, Meets fee candidates target S) ∧
      ∀ r, selectBnb fee candidates target = some r →
        r.selected.Nodup ∧ Meets fee candidates target r.selected.toFinset ∧
          ∀ S, Meets fee candidates target S →
            subsetValue fee candidates r.selected.toFinset ≤ subsetValue fee candidates S := by
  have hcost : target.changeSpendCost < 2 ^ 63 := by omega
  have hsome : ∀ r, selectBnb fee candidates target = some r →
      r.selected.Nodup ∧ Meets fee candidates target r.selected.toFinset ∧
        ∀ S, Meets fee candidates target S →
          subsetValue fee candidates r.selected.toFinset ≤ subsetValue fee candidates S := by
    intro r hr
    obtain ⟨c, hc, hin, rfl, hleast⟩ := selectBnb_eq_some hvalues hr
    obtain ⟨hmeets, hvalue⟩ := meets_looked hcost hc hin
    have hne : bnbIndices fee candidates ≠ [] := by
      intro hnil
      simp [looked_of_nil hnil] at hc
    refine ⟨bnbIndices_nodup.sublist (looked_sound hc).1, hmeets, ?_⟩
    intro S hS
    obtain ⟨c', hc', hin', hle⟩ := exists_looked hcost hne hbudget hS
    calc
      subsetValue fee candidates c.1.toFinset = c.2 := hvalue
      _ ≤ c'.2 := by exact_mod_cast hleast c' hc' hin'
      _ ≤ subsetValue fee candidates S := hle
  refine ⟨⟨?_, ?_⟩, hsome⟩
  · intro hanswer
    obtain ⟨r, hr⟩ := Option.isSome_iff_exists.mp hanswer
    refine ⟨?_, r.selected.toFinset, (hsome r hr).2.1⟩
    rw [Finset.nonempty_iff_ne_empty, ne_eq, ← bnbIndices_eq_nil]
    intro hnil
    simp [selectBnb, hnil] at hr
  · rintro ⟨hpos, S, hS⟩
    have hne : bnbIndices fee candidates ≠ [] := by
      rw [ne_eq, bnbIndices_eq_nil]
      exact hpos.ne_empty
    obtain ⟨c, hc, hin, -⟩ := exists_looked hcost hne hbudget hS
    rw [Option.isSome_iff_ne_none, ne_eq, selectBnb_eq_none hvalues]
    intro hout
    exact hout c hc hin

/-- A fee of a satoshi for each virtual byte. -/
def satPerVbyte (weight : ℕ) : ℕ := (weight + 3) / 4

/-- Three coins of one key. -/
def smallWallet : List InputCandidate := [⟨1000, 272⟩, ⟨600, 272⟩, ⟨400, 272⟩]

def smallPayment : SelectionTarget :=
  { targetValue := 800, baseWeight := 256, changeOutputWeight := 128, dustThreshold := 546
    changeSpendCost := 68 }

theorem smallWallet_exact : selectBnb satPerVbyte smallWallet smallPayment = some ⟨[1, 2], 1000, 200, 0, false⟩ ∧
      ((selectBnb satPerVbyte smallWallet smallPayment).isSome ↔
          (positive satPerVbyte smallWallet).Nonempty ∧
            ∃ S, Meets satPerVbyte smallWallet smallPayment S) ∧
        ∀ r, selectBnb satPerVbyte smallWallet smallPayment = some r →
          r.selected.Nodup ∧ Meets satPerVbyte smallWallet smallPayment r.selected.toFinset ∧
            ∀ S, Meets satPerVbyte smallWallet smallPayment S →
              subsetValue satPerVbyte smallWallet r.selected.toFinset ≤
                subsetValue satPerVbyte smallWallet S :=
  ⟨by decide +kernel, selectBnb_exact (by decide) (by decide) (by decide +kernel)⟩

/-- A coin of one satoshi and nothing to pay: the empty subset would do, but branch and bound
gives up where no candidate pays for itself. -/
theorem dustWallet_declined : ¬ ∀ (fee : ℕ → ℕ) (candidates : List InputCandidate) (target : SelectionTarget),
      (candidates.map InputCandidate.value).sum < 2 ^ 63 →
        target.targetValue + fee target.baseWeight + target.changeSpendCost < 2 ^ 63 →
        (bnbSearch fee candidates target).iterations < bnbMaxIterations →
          ((selectBnb fee candidates target).isSome ↔ ∃ S, Meets fee candidates target S) := by
  intro h
  have hanswer := (h satPerVbyte [⟨1, 272⟩] ⟨0, 0, 128, 546, 68⟩ (by decide) (by decide)
    (by decide +kernel)).mpr
    ⟨∅, Finset.empty_subset _, by simp [subsetValue, satPerVbyte], by simp [subsetValue, satPerVbyte]⟩
  have hdeclined : selectBnb satPerVbyte [⟨1, 272⟩] ⟨0, 0, 128, 546, 68⟩ = none := by decide +kernel
  simp [hdeclined] at hanswer

end Answers

end KuberCoin.CoinSearches
