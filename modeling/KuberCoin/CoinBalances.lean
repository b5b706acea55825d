import Mathlib.Data.List.MinMax
import KuberCoin.CoinSearches

/-!
When the coins that are chosen pay for the transaction, and when coins are found at all.
Branch and bound forgets the excess it accepts, and the knapsack takes a single coin without
the fee of the transaction itself and forgets a change output it cannot afford.
-/
namespace KuberCoin.CoinBalances

open SubsetSearches CoinSelections CoinSearches

section Covering

variable (fee : ℕ → ℕ) (candidates : List InputCandidate) (target : SelectionTarget)

/-- The fee of a transaction that spends these coins, without a change output. -/
def spendFee (selected : List ℕ) : ℕ :=
  fee target.baseWeight + weightOf (inputFee fee candidates) selected

/-- These coins are worth the payment and the fee. -/
def Covers (selected : List ℕ) : Prop :=
  target.targetValue + spendFee fee candidates target selected ≤ weightOf (valueAt candidates) selected

instance : DecidablePred (Covers fee candidates target) := fun _ => inferInstanceAs (Decidable (_ ≤ _))

/-- What is left of these coins after the payment and the fee. -/
def leftOver (selected : List ℕ) : ℕ :=
  weightOf (valueAt candidates) selected -
    (target.targetValue + spendFee fee candidates target selected)

/-- The accumulation that has taken these coins. -/
def accumOf (selected : List ℕ) : Accum :=
  { indices := selected
    value := weightOf (valueAt candidates) selected
    fee := spendFee fee candidates target selected }

variable {fee candidates target}

@[simp]
theorem accumOf_nil : accumOf fee candidates target [] = Accum.start fee target := by
  simp [accumOf, Accum.start, spendFee]

@[simp]
theorem accumOf_push (selected : List ℕ) (i : ℕ) : (accumOf fee candidates target selected).push fee candidates i =
      accumOf fee candidates target (selected ++ [i]) := by
  simp [accumOf, Accum.push, spendFee, Nat.add_assoc]

theorem covers_accumOf {selected : List ℕ} : target.targetValue + (accumOf fee candidates target selected).fee ≤
        (accumOf fee candidates target selected).value ↔ Covers fee candidates target selected := Iff.rfl

theorem accumulate_eq (items taken : List ℕ) :
    accumulate fee candidates target items (accumOf fee candidates target taken) =
      accumOf fee candidates target
        ((firstRun (Covers fee candidates target) taken items).getD (taken ++ items)) := by
  induction items generalizing taken with
  | nil => simp [accumulate, firstRun]
  | cons i rest ih =>
    rw [accumulate, firstRun, accumOf_push]
    by_cases hcovers : Covers fee candidates target (taken ++ [i])
    · rw [if_pos (covers_accumOf.mpr hcovers), if_pos hcovers]
      rfl
    · rw [if_neg fun h => hcovers (covers_accumOf.mp h), if_neg hcovers, ih]
      simp

theorem accumulate_start (items : List ℕ) : ∃ run, accumulate fee candidates target items (Accum.start fee target) =
        accumOf fee candidates target run ∧
      (Covers fee candidates target run → ShortestRun (Covers fee candidates target) items run) ∧
        (¬ Covers fee candidates target run →
          ∀ run', InitialRun items run' → ¬ Covers fee candidates target run') := by
  have hstart : accumOf fee candidates target [] = Accum.start fee target := accumOf_nil
  rw [← hstart, accumulate_eq]
  cases hfirst : firstRun (Covers fee candidates target) [] items with
  | some run =>
    have hshort := shortestRun_of_firstRun hfirst
    exact ⟨run, rfl, fun _ => hshort, fun hnot => absurd hshort.holds hnot⟩
  | none =>
    have hout : ∀ run', InitialRun items run' → run' ≠ [] → ¬ Covers fee candidates target run' :=
      fun run' hrun' hne => firstRun_eq_none hfirst hrun'.1 hne
    by_cases hitems : items = []
    · subst hitems
      refine ⟨[], rfl, fun hcovers => ⟨⟨by simp, by simp⟩, hcovers, by simp⟩, ?_⟩
      intro hnot run' hrun'
      rw [List.prefix_nil.mp hrun'.1]
      exact hnot
    · refine ⟨items, rfl, fun hcovers => absurd hcovers ?_, ?_⟩
      · exact hout items ⟨List.prefix_rfl, id⟩ hitems
      · intro _ run' hrun'
        exact hout run' hrun' fun hnil => hitems (hrun'.2 hnil)

end Covering

section Picks

variable (fee : ℕ → ℕ) (candidates : List InputCandidate) (target : SelectionTarget)

/-- The candidates that are worth the payment alone, after their own fee, by value. -/
def singles : List ℕ :=
  (ascending candidates).filter fun i => target.targetValue ≤ spareValue fee candidates i

/-- The coin the knapsack would spend alone: the one with the least spare value. -/
def bestSingle : Option ℕ := (singles fee candidates target).argmin (spareValue fee candidates)

/-- The shortest run of the smallest coins that covers. -/
def ShortestCover (run : List ℕ) : Prop :=
  ShortestRun (Covers fee candidates target) (ascending candidates) run

/-- The coins the knapsack settles on: the best single coin, or the shortest cover when it
leaves less over. -/
inductive Picked : List ℕ → Prop where
  | single {i : ℕ} (hi : bestSingle fee candidates target = some i)
      (hcover : ∀ run, ShortestCover fee candidates target run →
        leftOver fee candidates target [i] ≤ leftOver fee candidates target run) : Picked [i]
  | cover {run : List ℕ} (hrun : ShortestCover fee candidates target run)
      (hsingle : ∀ i, bestSingle fee candidates target = some i →
        leftOver fee candidates target run < leftOver fee candidates target [i]) : Picked run

variable {fee candidates target}

theorem foldl_betterSingle : (ascending candidates).foldl (betterSingle fee candidates target) none =
      bestSingle fee candidates target := by
  rw [bestSingle, singles, List.argmin, List.foldl_filter]
  congr 1
  funext best i
  simp only [betterSingle, List.argAux, decide_eq_true_eq]
  split
  · cases best <;> rfl
  · rfl

theorem accumOf_single (i : ℕ) : accumOf fee candidates target [i] =
      { indices := [i]
        value := valueAt candidates i
        fee := fee target.baseWeight + inputFee fee candidates i } := by
  simp [accumOf, spendFee]

theorem shortestCover_iff {run : List ℕ}
    (hcovers : Covers fee candidates target run → ShortestCover fee candidates target run)
    (hnot : ¬ Covers fee candidates target run →
      ∀ run', InitialRun (ascending candidates) run' → ¬ Covers fee candidates target run') {run' : List ℕ} :
    ShortestCover fee candidates target run' ↔ Covers fee candidates target run ∧ run' = run := by
  constructor
  · intro h
    by_cases hrun : Covers fee candidates target run
    · exact ⟨hrun, h.unique (hcovers hrun)⟩
    · exact absurd h.holds (hnot hrun run' h.initial)
  · rintro ⟨hrun, rfl⟩
    exact hcovers hrun

theorem knapsackPick_eq {run : List ℕ}
    (hacc : accumulate fee candidates target (ascending candidates) (Accum.start fee target) =
      accumOf fee candidates target run) : knapsackPick fee candidates target =
      match bestSingle fee candidates target with
      | some i =>
          if Covers fee candidates target run ∧
              leftOver fee candidates target run < leftOver fee candidates target [i] then
            some (accumOf fee candidates target run)
          else some (accumOf fee candidates target [i])
      | none =>
          if Covers fee candidates target run then some (accumOf fee candidates target run) else none := by
  unfold knapsackPick
  rw [hacc, foldl_betterSingle]
  cases bestSingle fee candidates target with
  | none => rfl
  | some i =>
    have hsingle : valueAt candidates i -
        (target.targetValue + (fee target.baseWeight + inputFee fee candidates i)) =
          leftOver fee candidates target [i] := by simp [leftOver, spendFee]
    have hrun : (accumOf fee candidates target run).value -
        (target.targetValue + (accumOf fee candidates target run).fee) =
          leftOver fee candidates target run := rfl
    simp only [← accumOf_single, hsingle, hrun, covers_accumOf]
    by_cases hcovers : Covers fee candidates target run
    · by_cases hless : leftOver fee candidates target run < leftOver fee candidates target [i]
      · rw [if_pos hcovers, if_neg (Nat.not_le_of_lt hless), if_pos ⟨hcovers, hless⟩]
      · rw [if_pos hcovers, if_pos (Nat.le_of_not_lt hless), if_neg fun h => hless h.2]
    · rw [if_neg hcovers, if_neg fun h => hcovers h.1]

theorem knapsackPick_eq_some {acc : Accum} : knapsackPick fee candidates target = some acc ↔
      ∃ selected, Picked fee candidates target selected ∧ acc = accumOf fee candidates target selected := by
  obtain ⟨run, hacc, hcovers, hnot⟩ := accumulate_start (ascending candidates)
  have hcover : ∀ {run'}, ShortestCover fee candidates target run' ↔
      Covers fee candidates target run ∧ run' = run := shortestCover_iff hcovers hnot
  rw [knapsackPick_eq hacc]
  constructor
  · intro hpick
    cases hbest : bestSingle fee candidates target with
    | none =>
      simp only [hbest, Option.ite_none_right_eq_some, Option.some.injEq] at hpick
      exact ⟨run, .cover (hcover.mpr ⟨hpick.1, rfl⟩) (by simp [hbest]), hpick.2.symm⟩
    | some i =>
      simp only [hbest] at hpick
      split at hpick
      case isTrue hless =>
        refine ⟨run, .cover (hcover.mpr ⟨hless.1, rfl⟩) ?_, (Option.some.inj hpick).symm⟩
        intro j hj
        rw [hbest, Option.some.injEq] at hj
        exact hj ▸ hless.2
      case isFalse hmore =>
        refine ⟨[i], .single hbest ?_, (Option.some.inj hpick).symm⟩
        intro run' hrun'
        obtain ⟨hcovers', rfl⟩ := hcover.mp hrun'
        exact Nat.le_of_not_lt fun hlt => hmore ⟨hcovers', hlt⟩
  · rintro ⟨selected, hpicked, rfl⟩
    cases hpicked with
    | @single i hi hleast =>
      have hnot' : ¬ (Covers fee candidates target run ∧
          leftOver fee candidates target run < leftOver fee candidates target [i]) := by
        rintro ⟨hcovers', hlt⟩
        exact absurd (hleast run (hcover.mpr ⟨hcovers', rfl⟩)) (by omega)
      simp only [hi, if_neg hnot']
    | cover hrun hsingle =>
      obtain ⟨hcovers', rfl⟩ := hcover.mp hrun
      cases hbest : bestSingle fee candidates target with
      | none => simp only [if_pos hcovers']
      | some i => simp only [if_pos (And.intro hcovers' (hsingle i hbest))]

end Picks

section Sound

variable (fee : ℕ → ℕ) (candidates : List InputCandidate) (target : SelectionTarget) {r : SelectionResult} {i : ℕ}
  {selected : List ℕ}

/-- A selection of distinct candidates that is funded and balanced. -/
structure Sound (r : SelectionResult) : Prop where
  nodup : r.selected.Nodup
  inRange : ∀ i ∈ r.selected, i < candidates.length
  total : r.inputTotal = weightOf (valueAt candidates) r.selected
  balance : r.inputTotal = target.targetValue + r.fee + r.change
  paid : fee target.baseWeight + weightOf (inputFee fee candidates) r.selected +
    (if r.needsChange then fee target.changeOutputWeight else 0) ≤ r.fee
  dust : r.change = 0 ∨ target.dustThreshold < r.change

/-- These coins cover, and what is left over is nothing, or enough for a change output above
the dust, or a change output costs nothing. -/
def Settles (selected : List ℕ) : Prop :=
  Covers fee candidates target selected ∧
    (leftOver fee candidates target selected = 0 ∨ fee target.changeOutputWeight = 0 ∨
      fee target.changeOutputWeight + target.dustThreshold < leftOver fee candidates target selected)

/-- What the knapsack makes of its coins. -/
def knapsackResult (selected : List ℕ) : SelectionResult :=
  let change := weightOf (valueAt candidates) selected -
    (target.targetValue + spendFee fee candidates target selected + fee target.changeOutputWeight)
  let needsChange := decide (target.dustThreshold < change)
  { selected
    inputTotal := weightOf (valueAt candidates) selected
    fee :=
      if needsChange then spendFee fee candidates target selected + fee target.changeOutputWeight
      else spendFee fee candidates target selected + change
    change := if needsChange then change else 0
    needsChange }

/-- What the greedy fallback makes of its coins. -/
def largestResult (selected : List ℕ) : SelectionResult :=
  let change := weightOf (valueAt candidates) selected - target.targetValue -
    spendFee fee candidates target selected
  let needsChange := decide (target.dustThreshold + fee target.changeOutputWeight < change)
  { selected
    inputTotal := weightOf (valueAt candidates) selected
    fee :=
      if needsChange then spendFee fee candidates target selected + fee target.changeOutputWeight
      else spendFee fee candidates target selected + change
    change := if needsChange then change - fee target.changeOutputWeight else 0
    needsChange }

variable {fee candidates target}

theorem selectKnapsack_eq_some : selectKnapsack fee candidates target = some r ↔
      ∃ selected, Picked fee candidates target selected ∧
        r = knapsackResult fee candidates target selected := by
  unfold selectKnapsack
  simp only [Option.map_eq_some_iff, knapsackPick_eq_some]
  constructor
  · rintro ⟨acc, ⟨selected, hpicked, rfl⟩, rfl⟩
    exact ⟨selected, hpicked, rfl⟩
  · rintro ⟨selected, hpicked, rfl⟩
    exact ⟨_, ⟨selected, hpicked, rfl⟩, rfl⟩

theorem takeLargest_eq (items taken : List ℕ) :
    takeLargest fee candidates target items (accumOf fee candidates target taken) =
      (firstRun (Covers fee candidates target) taken items).map (largestResult fee candidates target) := by
  induction items generalizing taken with
  | nil => rfl
  | cons i rest ih =>
    rw [takeLargest, firstRun, accumOf_push]
    by_cases hcovers : Covers fee candidates target (taken ++ [i])
    · rw [if_pos hcovers]
      exact if_pos (covers_accumOf.mpr hcovers)
    · rw [if_neg hcovers, ← ih]
      exact if_neg fun h => hcovers (covers_accumOf.mp h)

theorem selectLargestFirst_eq : selectLargestFirst fee candidates target =
      (firstRun (Covers fee candidates target) [] (descending candidates)).map
        (largestResult fee candidates target) := by
  rw [← takeLargest_eq, accumOf_nil]
  rfl

theorem ascending_nodup : (ascending candidates).Nodup :=
  (List.perm_insertionSort _ _).nodup_iff.mpr List.nodup_range

theorem mem_ascending : i ∈ ascending candidates ↔ i < candidates.length := by
  simp [ascending]

theorem descending_nodup : (descending candidates).Nodup :=
  (List.perm_insertionSort _ _).nodup_iff.mpr List.nodup_range

theorem mem_descending : i ∈ descending candidates ↔ i < candidates.length := by
  simp [descending]

theorem bestSingle_mem (hi : bestSingle fee candidates target = some i) :
    i < candidates.length ∧ target.targetValue ≤ spareValue fee candidates i := by
  have hmem := List.argmin_mem hi
  simpa [singles, mem_ascending] using hmem

theorem bestSingle_eq_none : bestSingle fee candidates target = none ↔
      ∀ i < candidates.length, ¬ target.targetValue ≤ spareValue fee candidates i := by
  rw [bestSingle, List.argmin_eq_none, singles, List.filter_eq_nil_iff]
  simp [mem_ascending]

theorem Picked.nodup (h : Picked fee candidates target selected) : selected.Nodup := by
  cases h with
  | single => exact List.nodup_singleton _
  | cover hrun => exact ascending_nodup.sublist hrun.initial.1.sublist

theorem Picked.inRange (h : Picked fee candidates target selected) (hi : i ∈ selected) : i < candidates.length := by
  cases h with
  | single hbest =>
    rw [List.mem_singleton.mp hi]
    exact (bestSingle_mem hbest).1
  | cover hrun => exact mem_ascending.mp (hrun.initial.1.subset hi)

theorem sound_knapsackResult (h : Picked fee candidates target selected) :
    Sound fee candidates target (knapsackResult fee candidates target selected) ↔
      Settles fee candidates target selected := by
  have hcovers : Covers fee candidates target selected ↔
      target.targetValue + spendFee fee candidates target selected ≤
        weightOf (valueAt candidates) selected := Iff.rfl
  constructor
  · intro hsound
    have hbalance := hsound.balance
    simp only [knapsackResult, decide_eq_true_eq] at hbalance
    rw [Settles, hcovers, leftOver]
    split at hbalance <;> omega
  · intro hsettles
    rw [Settles, hcovers, leftOver] at hsettles
    refine ⟨h.nodup, fun i => h.inRange, rfl, ?_, ?_, ?_⟩
    all_goals simp only [knapsackResult, decide_eq_true_eq]
    · split <;> omega
    · rw [← spendFee]
      split <;> omega
    · split <;> omega

theorem sound_largestResult (hnodup : selected.Nodup) (hrange : ∀ i ∈ selected, i < candidates.length)
    (hcovers : Covers fee candidates target selected) :
    Sound fee candidates target (largestResult fee candidates target selected) := by
  unfold Covers at hcovers
  refine ⟨hnodup, hrange, rfl, ?_, ?_, ?_⟩
  all_goals simp only [largestResult, decide_eq_true_eq]
  · split <;> omega
  · rw [← spendFee]
    split <;> omega
  · split <;> omega

theorem selectLargestFirst_sound (hr : selectLargestFirst fee candidates target = some r) :
    Sound fee candidates target r := by
  rw [selectLargestFirst_eq, Option.map_eq_some_iff] at hr
  obtain ⟨run, hrun, rfl⟩ := hr
  have hshort := shortestRun_of_firstRun hrun
  apply sound_largestResult (descending_nodup.sublist hshort.initial.1.sublist) _ hshort.holds
  intro i hi
  exact mem_descending.mp (hshort.initial.1.subset hi)

theorem weightOf_effValue_add {chosen : List ℕ} (h : ∀ i ∈ chosen, i ∈ bnbIndices fee candidates) :
    weightOf (effValue fee candidates) chosen + weightOf (inputFee fee candidates) chosen =
      weightOf (valueAt candidates) chosen := by
  induction chosen with
  | nil => rfl
  | cons i rest ih =>
    have hi : effValue fee candidates i + inputFee fee candidates i = valueAt candidates i := by
      have hpos := (mem_bnbIndices.mp (h i (by simp))).2
      unfold effValue effectiveValueAt InputCandidate.effectiveValue inputFee valueAt at *
      omega
    have hrest := ih fun j hj => h j (by simp [hj])
    simp only [weightOf_cons]
    omega

/-- Branch and bound balances exactly the subsets that hit their goal. -/
theorem sound_bnbResult {c : List ℕ × ℕ} (hc : c ∈ looked fee candidates target) :
    Sound fee candidates target (bnbResult fee candidates target c.1) ↔ c.2 = targetEff fee target := by
  obtain ⟨hsub, hweight⟩ := looked_sound hc
  have hsplit := weightOf_effValue_add fun i hi => hsub.subset hi
  constructor
  · intro hsound
    have hbalance := hsound.balance
    simp only [bnbResult] at hbalance
    unfold targetEff
    omega
  · intro hexact
    unfold targetEff at hexact
    refine ⟨bnbIndices_nodup.sublist hsub, ?_, rfl, ?_, ?_, .inl rfl⟩
    · intro i hi
      exact (mem_bnbIndices.mp (hsub.subset hi)).1
    · simp only [bnbResult]
      omega
    · simp [bnbResult]

end Sound

section Choosing

variable (fee : ℕ → ℕ) (candidates : List InputCandidate) (target : SelectionTarget)

/-- Branch and bound sees a subset in its window. -/
def SeesWindow : Prop :=
  ∃ c ∈ looked fee candidates target, InWindow (targetEff fee target) (asI64 target.changeSpendCost) c

/-- Branch and bound sees a subset that hits its goal when it sees any in its window, and the
coins of the knapsack settle when it sees none. -/
def Balances : Prop :=
  (SeesWindow fee candidates target →
      ∃ c ∈ looked fee candidates target, c.2 = targetEff fee target) ∧
    (¬ SeesWindow fee candidates target →
      ∀ selected, Picked fee candidates target selected → Settles fee candidates target selected)

variable {fee candidates target}

theorem selectBnb_eq_none_iff (hvalues : (candidates.map InputCandidate.value).sum < 2 ^ 63) :
    selectBnb fee candidates target = none ↔ ¬ SeesWindow fee candidates target := by
  rw [selectBnb_eq_none hvalues, SeesWindow]
  push Not
  exact Iff.rfl

theorem selectCoins_of_sees (hvalues : (candidates.map InputCandidate.value).sum < 2 ^ 63)
    (hsees : SeesWindow fee candidates target) : ∃ c ∈ looked fee candidates target,
      selectCoins fee candidates target = some (bnbResult fee candidates target c.1) ∧
        targetEff fee target ≤ c.2 ∧
          ∀ c' ∈ looked fee candidates target,
            InWindow (targetEff fee target) (asI64 target.changeSpendCost) c' → c.2 ≤ c'.2 := by
  cases hbnb : selectBnb fee candidates target with
  | none => exact absurd hsees ((selectBnb_eq_none_iff hvalues).mp hbnb)
  | some r =>
    obtain ⟨c, hc, hin, rfl, hleast⟩ := selectBnb_eq_some hvalues hbnb
    exact ⟨c, hc, by simp only [selectCoins, hbnb], hin.1, hleast⟩

theorem selectCoins_of_not_sees (hvalues : (candidates.map InputCandidate.value).sum < 2 ^ 63)
    (hsees : ¬ SeesWindow fee candidates target) : selectCoins fee candidates target =
      (selectKnapsack fee candidates target).or (selectLargestFirst fee candidates target) := by
  simp only [selectCoins, (selectBnb_eq_none_iff hvalues).mpr hsees]
  cases selectKnapsack fee candidates target <;> rfl

/-- Every selection is funded and balanced exactly where branch and bound hits its goal or sees
nothing, and what the knapsack settles on then pays for itself. -/
theorem selections_sound_iff (hvalues : (candidates.map InputCandidate.value).sum < 2 ^ 63) :
    (∀ r, selectCoins fee candidates target = some r → Sound fee candidates target r) ↔
      Balances fee candidates target := by
  by_cases hsees : SeesWindow fee candidates target
  · obtain ⟨c, hc, hselect, hgoal, hleast⟩ := selectCoins_of_sees hvalues hsees
    constructor
    · intro hsound
      have hexact := (sound_bnbResult hc).mp (hsound _ hselect)
      exact ⟨fun _ => ⟨c, hc, hexact⟩, fun hnot => absurd hsees hnot⟩
    · intro hbalances r hr
      obtain ⟨c', hc', hexact⟩ := hbalances.1 hsees
      obtain ⟨c₀, -, hreach, hwide⟩ := hsees
      have hle := hleast c' hc' ⟨hexact.ge, by omega⟩
      rw [hselect, Option.some.injEq] at hr
      rw [← hr]
      exact (sound_bnbResult hc).mpr (by omega)
  · have hselect := selectCoins_of_not_sees hvalues hsees
    constructor
    · intro hsound
      refine ⟨fun h => absurd h hsees, ?_⟩
      intro _ selected hpicked
      apply (sound_knapsackResult hpicked).mp
      apply hsound
      rw [hselect, selectKnapsack_eq_some.mpr ⟨selected, hpicked, rfl⟩]
      rfl
    · intro hbalances r hr
      rw [hselect, Option.or_eq_some_iff] at hr
      obtain hknapsack | ⟨-, hlargest⟩ := hr
      · obtain ⟨selected, hpicked, rfl⟩ := selectKnapsack_eq_some.mp hknapsack
        exact (sound_knapsackResult hpicked).mpr (hbalances.2 hsees selected hpicked)
      · exact selectLargestFirst_sound hlargest

theorem smallWallet_balances : (∀ r, selectCoins satPerVbyte smallWallet smallPayment = some r →
        Sound satPerVbyte smallWallet smallPayment r) ↔
      Balances satPerVbyte smallWallet smallPayment :=
  selections_sound_iff (by decide)

/-- A coin that is worth the payment but not the fee of the transaction is taken alone. -/
theorem single_coin_underfunded : ¬ ∀ (fee : ℕ → ℕ) (candidates : List InputCandidate) (target : SelectionTarget),
      (candidates.map InputCandidate.value).sum < 2 ^ 63 →
        ∀ r, selectCoins fee candidates target = some r → Sound fee candidates target r := by
  intro h
  have hsound := h satPerVbyte [⟨100070, 272⟩] ⟨100000, 40, 128, 546, 68⟩ (by decide)
    ⟨[0], 100070, 78, 0, false⟩ (by decide +kernel)
  exact absurd hsound.balance (by decide)

/-- Some candidates are worth the payment, the fee of the transaction and their own fees. -/
def Funded (fee : ℕ → ℕ) (candidates : List InputCandidate) (target : SelectionTarget) : Prop :=
  ∃ S ⊆ Finset.range candidates.length,
    target.targetValue + fee target.baseWeight + ∑ i ∈ S, inputFee fee candidates i ≤
      ∑ i ∈ S, valueAt candidates i

/-- A walk over the coins in this order covers at some point. -/
def RunCovers (fee : ℕ → ℕ) (candidates : List InputCandidate) (target : SelectionTarget)
    (order : List ℕ) : Prop :=
  ∃ run, InitialRun order run ∧ Covers fee candidates target run

theorem selectKnapsack_isSome : (selectKnapsack fee candidates target).isSome ↔
    (∃ i < candidates.length, target.targetValue ≤ spareValue fee candidates i) ∨
      RunCovers fee candidates target (ascending candidates) := by
  obtain ⟨run, hacc, hcovers, hnot⟩ := accumulate_start (ascending candidates)
  have hrun : RunCovers fee candidates target (ascending candidates) ↔
      Covers fee candidates target run := by
    constructor
    · rintro ⟨run', hrun', hcovers'⟩
      by_contra h
      exact hnot h run' hrun' hcovers'
    · intro h
      exact ⟨run, (hcovers h).initial, h⟩
  rw [selectKnapsack, Option.isSome_map, knapsackPick_eq hacc, hrun]
  cases hbest : bestSingle fee candidates target with
  | none =>
    have hnone := bestSingle_eq_none.mp hbest
    by_cases hc : Covers fee candidates target run
    · simp [hc]
    · simp only [hc, or_false]
      simpa using hnone
  | some i =>
    have hsingle : ∃ i < candidates.length, target.targetValue ≤ spareValue fee candidates i :=
      ⟨i, bestSingle_mem hbest⟩
    simp only [hsingle, true_or, iff_true]
    split <;> rfl

theorem selectLargestFirst_isSome (hne : candidates ≠ []) : (selectLargestFirst fee candidates target).isSome ↔
      RunCovers fee candidates target (descending candidates) := by
  have hitems : descending candidates ≠ [] := by
    intro hnil
    have hmem : 0 ∈ descending candidates := mem_descending.mpr (List.length_pos_iff.mpr hne)
    simp [hnil] at hmem
  rw [selectLargestFirst_eq, Option.isSome_map]
  cases hfirst : firstRun (Covers fee candidates target) [] (descending candidates) with
  | some run =>
    have hshort := shortestRun_of_firstRun hfirst
    simp only [Option.isSome_some, true_iff]
    exact ⟨run, hshort.initial, hshort.holds⟩
  | none =>
    simp only [Option.isSome_none, Bool.false_eq_true, false_iff]
    rintro ⟨run, hrun, hcovers⟩
    exact firstRun_eq_none hfirst hrun.1 (fun hnil => hitems (hrun.2 hnil)) hcovers

/-- Coins that would do are found exactly where branch and bound sees a subset in its window, a
coin is worth the payment after its own fee, or a walk up or down the values covers. -/
theorem coins_found_iff (hvalues : (candidates.map InputCandidate.value).sum < 2 ^ 63) :
    (Funded fee candidates target → (selectCoins fee candidates target).isSome) ↔
      (Funded fee candidates target →
        SeesWindow fee candidates target ∨
          (∃ i < candidates.length, target.targetValue ≤ spareValue fee candidates i) ∨
            RunCovers fee candidates target (ascending candidates) ∨
              RunCovers fee candidates target (descending candidates)) := by
  apply imp_congr_right
  intro _
  by_cases hsees : SeesWindow fee candidates target
  · obtain ⟨c, -, hselect, -⟩ := selectCoins_of_sees hvalues hsees
    simp [hselect, hsees]
  · rw [selectCoins_of_not_sees hvalues hsees, Option.isSome_or, Bool.or_eq_true, selectKnapsack_isSome]
    by_cases hne : candidates = []
    · subst hne
      have hlargest : selectLargestFirst fee [] target = none := rfl
      have hsame : descending [] = ascending [] := rfl
      simp only [hlargest, hsame, hsees, Option.isSome_none, Bool.false_eq_true]
      tauto
    · rw [selectLargestFirst_isSome hne, or_assoc]
      simp only [hsees, false_or]

theorem smallWallet_found : (Funded satPerVbyte smallWallet smallPayment →
        (selectCoins satPerVbyte smallWallet smallPayment).isSome) ↔
      (Funded satPerVbyte smallWallet smallPayment →
        SeesWindow satPerVbyte smallWallet smallPayment ∨
          (∃ i < smallWallet.length,
            smallPayment.targetValue ≤ spareValue satPerVbyte smallWallet i) ∨
            RunCovers satPerVbyte smallWallet smallPayment (ascending smallWallet) ∨
              RunCovers satPerVbyte smallWallet smallPayment (descending smallWallet)) :=
  coins_found_iff (by decide)

/-- Two coins of 200 pay for 250, but walks up and down the values first meet coins that cost
more than they are worth. -/
theorem dear_coins_hide_funds : ¬ ∀ (fee : ℕ → ℕ) (candidates : List InputCandidate) (target : SelectionTarget),
      (candidates.map InputCandidate.value).sum < 2 ^ 63 → Funded fee candidates target →
        (selectCoins fee candidates target).isSome := by
  intro h
  have hfound := h satPerVbyte [⟨1, 4000⟩, ⟨200, 4⟩, ⟨200, 4⟩, ⟨300, 4000⟩] ⟨250, 40, 128, 546, 68⟩
    (by decide) ⟨{1, 2}, by decide, by decide⟩
  have hnone : selectCoins satPerVbyte [⟨1, 4000⟩, ⟨200, 4⟩, ⟨200, 4⟩, ⟨300, 4000⟩]
      ⟨250, 40, 128, 546, 68⟩ = none := by decide +kernel
  simp [hnone] at hfound

end Choosing

end KuberCoin.CoinBalances
