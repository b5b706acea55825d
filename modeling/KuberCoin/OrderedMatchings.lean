import Mathlib.Data.List.NodupEquivFin
import Mathlib.Data.List.Forall2

/-!
Matchings of a list of requests with a list of suppliers that keep the order of both.
The greedy matching takes for every request the first supplier that is left and serves
it; it serves all requests exactly when some matching that keeps the order does.
-/
namespace KuberCoin.OrderedMatchings

variable {α β : Type} (R : α → β → Prop)

/-- Suppliers chosen in order that serve the requests one by one. -/
def OrderedMatching (suppliers : List α) (requests : List β) : Prop :=
  ∃ chosen, chosen.Sublist suppliers ∧ List.Forall₂ R chosen requests

variable {R} {suppliers : List α} {requests : List β} {a : α} {b : β}

theorem OrderedMatching.nil : OrderedMatching R suppliers [] :=
  ⟨[], List.nil_sublist suppliers, .nil⟩

theorem not_orderedMatching_nil : ¬ OrderedMatching R [] (b :: requests) := by
  rintro ⟨chosen, hsub, hserve⟩
  rw [List.sublist_nil.mp hsub] at hserve
  cases hserve

/-- A supplier that serves the first request can be given it: another one that a matching
takes for it comes later. -/
theorem orderedMatching_cons_iff (h : R a b) :
    OrderedMatching R (a :: suppliers) (b :: requests) ↔ OrderedMatching R suppliers requests := by
  constructor
  · rintro ⟨chosen, hsub, hserve⟩
    cases hserve with
    | cons _ hrest => exact ⟨_, hsub.tail, hrest⟩
  · rintro ⟨chosen, hsub, hserve⟩
    exact ⟨a :: chosen, hsub.cons_cons a, .cons h hserve⟩

/-- A supplier that does not serve the first request serves none of the later ones. -/
theorem orderedMatching_skip_iff (h : ¬ R a b) : OrderedMatching R (a :: suppliers) (b :: requests) ↔
      OrderedMatching R suppliers (b :: requests) := by
  constructor
  · rintro ⟨chosen, hsub, hserve⟩
    cases hserve with
    | cons hfirst hrest =>
      cases hsub with
      | cons _ hsub => exact ⟨_, hsub, .cons hfirst hrest⟩
      | cons_cons _ hsub => exact absurd hfirst h
  · rintro ⟨chosen, hsub, hserve⟩
    exact ⟨chosen, hsub.cons a, hserve⟩

theorem orderedMatching_reverse :
    OrderedMatching R suppliers.reverse requests.reverse ↔ OrderedMatching R suppliers requests := by
  constructor
  · rintro ⟨chosen, hsub, hserve⟩
    refine ⟨chosen.reverse, ?_, ?_⟩
    · rw [← List.reverse_reverse suppliers]
      exact hsub.reverse
    · rw [← List.reverse_reverse requests]
      exact List.rel_reverse hserve
  · rintro ⟨chosen, hsub, hserve⟩
    exact ⟨chosen.reverse, hsub.reverse, List.rel_reverse hserve⟩

theorem orderedMatching_iff_strictMono : OrderedMatching R suppliers requests ↔
      ∃ f : Fin requests.length → Fin suppliers.length, StrictMono f ∧
        ∀ i, R (suppliers.get (f i)) (requests.get i) := by
  constructor
  · rintro ⟨chosen, hsub, hserve⟩
    obtain ⟨f, hf⟩ := List.sublist_iff_exists_fin_orderEmbedding_get_eq.mp hsub
    obtain ⟨hlen, hget⟩ := List.forall₂_iff_get.mp hserve
    refine ⟨fun i => f (Fin.cast hlen.symm i), fun i j hij => f.strictMono hij, fun i => ?_⟩
    rw [← hf]
    exact hget i (by rw [hlen]; exact i.isLt) i.isLt
  · rintro ⟨f, hmono, hserve⟩
    have hlen : (List.ofFn fun i => suppliers.get (f i)).length = requests.length :=
      List.length_ofFn
    refine ⟨List.ofFn fun i => suppliers.get (f i), ?_, ?_⟩
    · apply List.sublist_iff_exists_fin_orderEmbedding_get_eq.mpr
      refine ⟨OrderEmbedding.ofStrictMono (fun i => f (Fin.cast hlen i)) ?_, fun i => ?_⟩
      · exact fun i j hij => hmono hij
      · rw [List.get_ofFn]
        rfl
    · refine List.forall₂_iff_get.mpr ⟨hlen, fun i h₁ h₂ => ?_⟩
      rw [List.get_ofFn]
      exact hserve ⟨i, h₂⟩

section Greedy

variable (R) [∀ a b, Decidable (R a b)]

/-- How many requests the greedy matching serves. -/
def greedy : List α → List β → ℕ
  | [], _ => 0
  | _ :: _, [] => 0
  | a :: suppliers, b :: requests =>
      if R a b then greedy suppliers requests + 1 else greedy suppliers (b :: requests)

theorem greedy_le (suppliers : List α) (requests : List β) : greedy R suppliers requests ≤ requests.length := by
  fun_induction greedy R suppliers requests with
  | case1 => exact Nat.zero_le _
  | case2 => exact Nat.zero_le _
  | case3 a suppliers b requests _ ih =>
    rw [List.length_cons]
    omega
  | case4 a suppliers b requests _ ih => exact ih

theorem greedy_eq_length_iff (suppliers : List α) (requests : List β) :
    greedy R suppliers requests = requests.length ↔ OrderedMatching R suppliers requests := by
  fun_induction greedy R suppliers requests with
  | case1 requests =>
    cases requests with
    | nil => exact iff_of_true rfl .nil
    | cons b requests => exact iff_of_false (Nat.succ_ne_zero _).symm not_orderedMatching_nil
  | case2 => exact iff_of_true rfl .nil
  | case3 a suppliers b requests h ih =>
    rw [orderedMatching_cons_iff h, ← ih, List.length_cons, Nat.add_right_cancel_iff]
  | case4 a suppliers b requests h ih => rw [orderedMatching_skip_iff h, ih]

end Greedy

end KuberCoin.OrderedMatchings
