import Mathlib.Algebra.BigOperators.Group.Finset.Basic
import Mathlib.Data.List.Sort
import Mathlib.Data.List.Range
import Mathlib.Data.Finset.Dedup
import KuberCoin.SubsetSearches

/-!
The three ways of choosing coins, and the one that tries them in turn.
A fee is any function of a weight: the rounding up of a product of floating point numbers is
not looked into. Amounts are numbers, so a sum is the one the code forms where no sum
reaches 2^63; a cost that enters no sum is cast as the code casts it. A candidate is named by its position in the list.
-/
namespace KuberCoin.CoinSelections

open SubsetSearches

section Model

structure InputCandidate where
  value : ℕ
  inputWeight : ℕ

structure SelectionTarget where
  targetValue : ℕ
  baseWeight : ℕ
  changeOutputWeight : ℕ
  dustThreshold : ℕ
  changeSpendCost : ℕ

structure SelectionResult where
  selected : List ℕ
  inputTotal : ℕ
  fee : ℕ
  change : ℕ
  needsChange : Bool
  deriving DecidableEq

def InputCandidate.effectiveValue (fee : ℕ → ℕ) (c : InputCandidate) : ℤ :=
  (c.value : ℤ) - fee c.inputWeight

variable (fee : ℕ → ℕ) (candidates : List InputCandidate) (target : SelectionTarget)

-- The positions come from `0..candidates.len()`, so the default is never read.
def candidateAt (i : ℕ) : InputCandidate := candidates.getD i ⟨0, 0⟩

def valueAt (i : ℕ) : ℕ := (candidateAt candidates i).value

def inputFee (i : ℕ) : ℕ := fee (candidateAt candidates i).inputWeight

def effectiveValueAt (i : ℕ) : ℤ := (candidateAt candidates i).effectiveValue fee

def bnbMaxIterations : ℕ := 100000

/-- The best subset of the search so far and the calls it has made. -/
structure Search where
  best : Option (List ℕ)
  bestWaste : ℤ
  iterations : ℕ
  deriving DecidableEq

/-- `n as i64` for a `u64`. -/
def asI64 (n : ℕ) : ℤ := (n : ℤ).bmod (2 ^ 64)

def Search.start : Search := { best := none, bestWaste := 2 ^ 63 - 1, iterations := 0 }

def backtrack (effValue : ℕ → ℕ) (targetEff tolerance : ℕ) :
    List ℕ → List ℕ → ℕ → Search → Search
  | indices, current, currentValue, search =>
      let search := { search with iterations := search.iterations + 1 }
      if bnbMaxIterations < search.iterations then search
      else if targetEff ≤ currentValue then
        let waste : ℤ := (currentValue : ℤ) - targetEff
        if waste ≤ asI64 tolerance ∧ waste < search.bestWaste then
          { search with bestWaste := waste, best := some current }
        else search
      else
        match indices with
        | [] => search
        | idx :: rest =>
            -- The suffix sum of the source, from this depth on.
            if currentValue + weightOf effValue (idx :: rest) < targetEff then search
            else
              backtrack effValue targetEff tolerance rest current currentValue
                (backtrack effValue targetEff tolerance rest (current ++ [idx])
                  (currentValue + effValue idx) search)

/-- The positions that pay for themselves, the most valuable first. -/
def bnbIndices : List ℕ :=
  ((List.range candidates.length).insertionSort fun a b =>
    effectiveValueAt fee candidates b ≤ effectiveValueAt fee candidates a).filter fun i =>
      0 < effectiveValueAt fee candidates i

def effValue (i : ℕ) : ℕ := (effectiveValueAt fee candidates i).toNat

def targetEff : ℕ := target.targetValue + fee target.baseWeight

def bnbSearch : Search :=
  backtrack (effValue fee candidates) (targetEff fee target) target.changeSpendCost
    (bnbIndices fee candidates) [] 0 Search.start

def selectBnb : Option SelectionResult :=
  if (bnbIndices fee candidates).isEmpty then none
  else
    (bnbSearch fee candidates target).best.map fun selected =>
      { selected
        inputTotal := weightOf (valueAt candidates) selected
        fee := fee target.baseWeight + weightOf (inputFee fee candidates) selected
        change := 0
        needsChange := false }

def ascending : List ℕ :=
  (List.range candidates.length).insertionSort fun a b => valueAt candidates a ≤ valueAt candidates b

/-- What a coin is worth after its own fee, nothing when the fee is more. -/
def spareValue (i : ℕ) : ℕ := valueAt candidates i - inputFee fee candidates i

def betterSingle (bestSingle : Option ℕ) (i : ℕ) : Option ℕ :=
  if target.targetValue ≤ spareValue fee candidates i then
    match bestSingle with
    | none => some i
    | some prev =>
        if spareValue fee candidates i < spareValue fee candidates prev then some i else some prev
  else bestSingle

/-- The coins of the greedy accumulation with their value and the fee so far. -/
structure Accum where
  indices : List ℕ
  value : ℕ
  fee : ℕ

def Accum.push (acc : Accum) (i : ℕ) : Accum :=
  { indices := acc.indices ++ [i]
    value := acc.value + valueAt candidates i
    fee := acc.fee + inputFee fee candidates i }

def accumulate : List ℕ → Accum → Accum
  | [], acc => acc
  | i :: rest, acc =>
      if target.targetValue + (acc.push fee candidates i).fee ≤ (acc.push fee candidates i).value then
        acc.push fee candidates i
      else accumulate rest (acc.push fee candidates i)

def Accum.start : Accum := { indices := [], value := 0, fee := fee target.baseWeight }

def knapsackPick : Option Accum :=
  let acc := accumulate fee candidates target (ascending candidates) (Accum.start fee target)
  match (ascending candidates).foldl (betterSingle fee candidates target) none with
  | some si =>
      let single : Accum :=
        { indices := [si]
          value := valueAt candidates si
          fee := fee target.baseWeight + inputFee fee candidates si }
      if target.targetValue + acc.fee ≤ acc.value then
        if single.value - (target.targetValue + single.fee) ≤ acc.value - (target.targetValue + acc.fee) then
          some single
        else some acc
      else some single
  | none => if target.targetValue + acc.fee ≤ acc.value then some acc else none

def selectKnapsack : Option SelectionResult :=
  (knapsackPick fee candidates target).map fun picked =>
    let change := picked.value - (target.targetValue + picked.fee + fee target.changeOutputWeight)
    let needsChange := decide (target.dustThreshold < change)
    { selected := picked.indices
      inputTotal := picked.value
      fee := if needsChange then picked.fee + fee target.changeOutputWeight else picked.fee + change
      change := if needsChange then change else 0
      needsChange }

def descending : List ℕ :=
  (List.range candidates.length).insertionSort fun a b => valueAt candidates b ≤ valueAt candidates a

def takeLargest : List ℕ → Accum → Option SelectionResult
  | [], _ => none
  | i :: rest, acc =>
      let acc := acc.push fee candidates i
      if target.targetValue + acc.fee ≤ acc.value then
        let change := acc.value - target.targetValue - acc.fee
        let needsChange := decide (target.dustThreshold + fee target.changeOutputWeight < change)
        some
          { selected := acc.indices
            inputTotal := acc.value
            fee := if needsChange then acc.fee + fee target.changeOutputWeight else acc.fee + change
            change := if needsChange then change - fee target.changeOutputWeight else 0
            needsChange }
      else takeLargest rest acc

def selectLargestFirst : Option SelectionResult :=
  takeLargest fee candidates target (descending candidates) (Accum.start fee target)

def selectCoins : Option SelectionResult :=
  match selectBnb fee candidates target with
  | some r => some r
  | none =>
      match selectKnapsack fee candidates target with
      | some r => some r
      | none => selectLargestFirst fee candidates target

end Model

end KuberCoin.CoinSelections
