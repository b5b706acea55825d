import Mathlib.Data.List.Basic
import Mathlib.Data.List.Perm.Basic
import Mathlib.Data.List.Dedup

/-!
Trees of hashes over a list of leaves, for any type of values and any function that
combines two of them. A level pairs neighbouring trees, and a tree without a neighbour is
paired with itself, so the leaves of the whole tree are the list followed by copies.
Where the combinations of two trees do not collide, their roots determine them.
-/
namespace KuberCoin.MerkleTrees

inductive HashTree (α : Type) where
  | leaf (a : α)
  | node (left right : HashTree α)

namespace HashTree

variable {α : Type}

def leaves : HashTree α → List α
  | leaf a => [a]
  | node left right => left.leaves ++ right.leaves

def root (combine : α → α → α) : HashTree α → α
  | leaf a => a
  | node left right => combine (left.root combine) (right.root combine)

/-- What is combined at the inner nodes. -/
def pairs (combine : α → α → α) : HashTree α → List (α × α)
  | leaf _ => []
  | node left right =>
      (left.root combine, right.root combine) :: (left.pairs combine ++ right.pairs combine)

/-- Combining the pairs of a list never gives one value twice nor one of the given leaves. -/
structure Separates (combine : α → α → α) (pairs : List (α × α)) (leaves : List α) : Prop where
  injective : ∀ p ∈ pairs, ∀ q ∈ pairs, combine p.1 p.2 = combine q.1 q.2 → p = q
  apart : ∀ a ∈ leaves, ∀ p ∈ pairs, a ≠ combine p.1 p.2

variable {combine : α → α → α}

theorem root_injective {ps : List (α × α)} {ls : List α} (hsep : Separates combine ps ls) {t₁ t₂ : HashTree α}
    (hp₁ : t₁.pairs combine ⊆ ps) (hp₂ : t₂.pairs combine ⊆ ps) (hl₁ : t₁.leaves ⊆ ls) (hl₂ : t₂.leaves ⊆ ls)
    (h : t₁.root combine = t₂.root combine) : t₁ = t₂ := by
  induction t₁ generalizing t₂ with
  | leaf a =>
    cases t₂ with
    | leaf b => exact congrArg leaf h
    | node left right =>
      exact absurd h (hsep.apart a (hl₁ (by simp [leaves])) (left.root combine, right.root combine)
        (hp₂ (by simp [pairs])))
  | node left₁ right₁ ihl ihr =>
    cases t₂ with
    | leaf b =>
      exact absurd h.symm (hsep.apart b (hl₂ (by simp [leaves]))
        (left₁.root combine, right₁.root combine) (hp₁ (by simp [pairs])))
    | node left₂ right₂ =>
      have hpair := hsep.injective (left₁.root combine, right₁.root combine)
        (hp₁ (by simp [pairs])) (left₂.root combine, right₂.root combine)
        (hp₂ (by simp [pairs])) h
      obtain ⟨hleft, hright⟩ := Prod.mk.inj hpair
      rw [pairs, List.cons_subset, List.append_subset] at hp₁ hp₂
      rw [leaves, List.append_subset] at hl₁ hl₂
      rw [ihl hp₁.2.1 hp₂.2.1 hl₁.1 hl₂.1 hleft, ihr hp₁.2.2 hp₂.2.2 hl₁.2 hl₂.2 hright]

end HashTree

section Levels

variable {α : Type} {n : ℕ} {ts : List (HashTree α)}

/-- One level up: neighbours are paired, a last tree without a neighbour with itself. -/
def level : List (HashTree α) → List (HashTree α)
  | a :: b :: rest => .node a b :: level rest
  | [a] => [.node a a]
  | [] => []

/-- Levels are formed while more than one tree is left. -/
def build : ℕ → List (HashTree α) → Option (HashTree α)
  | 0, ts => ts.head?
  | n + 1, ts => if 1 < ts.length then build n (level ts) else ts.head?

theorem level_length (ts : List (HashTree α)) : (level ts).length = (ts.length + 1) / 2 := by
  induction ts using level.induct with
  | case1 a b rest ih =>
    simp only [level, List.length_cons, ih]
    omega
  | case2 a => simp [level]
  | case3 => simp [level]

theorem level_leaves (ts : List (HashTree α)) :
    ∃ extra, (level ts).flatMap HashTree.leaves = ts.flatMap HashTree.leaves ++ extra ∧
      extra ⊆ ts.flatMap HashTree.leaves := by
  induction ts using level.induct with
  | case1 a b rest ih =>
    obtain ⟨extra, heq, hsub⟩ := ih
    refine ⟨extra, ?_, ?_⟩
    · simp only [level, List.flatMap_cons, HashTree.leaves, heq, List.append_assoc]
    · intro x hx
      simp only [List.flatMap_cons, List.mem_append]
      exact Or.inr (Or.inr (hsub hx))
  | case2 a =>
    refine ⟨a.leaves, ?_, ?_⟩
    · simp [level, HashTree.leaves]
    · simp
  | case3 => exact ⟨[], rfl, by simp⟩

theorem build_leaves {t : HashTree α} (hn : ts.length ≤ n) (h : build n ts = some t) :
    ∃ extra, t.leaves = ts.flatMap HashTree.leaves ++ extra ∧ extra ⊆ ts.flatMap HashTree.leaves := by
  induction n generalizing ts with
  | zero =>
    obtain rfl := List.length_eq_zero_iff.mp (Nat.le_zero.mp hn)
    simp [build] at h
  | succ n ih =>
    unfold build at h
    by_cases hlong : 1 < ts.length
    · rw [if_pos hlong] at h
      have hshort : (level ts).length ≤ n := by
        rw [level_length]
        omega
      obtain ⟨e₁, heq₁, hsub₁⟩ := level_leaves ts
      obtain ⟨e₂, heq₂, hsub₂⟩ := ih hshort h
      refine ⟨e₁ ++ e₂, by rw [heq₂, heq₁, List.append_assoc], ?_⟩
      rw [List.append_subset]
      refine ⟨hsub₁, ?_⟩
      intro x hx
      have hx' := hsub₂ hx
      rw [heq₁, List.mem_append] at hx'
      exact hx'.elim id (fun h => hsub₁ h)
    · rw [if_neg hlong] at h
      cases ts with
      | nil => simp at h
      | cons a rest =>
        have hrest : rest = [] := List.length_eq_zero_iff.mp (by
          simp only [List.length_cons] at hlong
          omega)
        subst hrest
        obtain rfl : a = t := by simpa using h
        exact ⟨[], by simp, by simp⟩

theorem build_isSome (h : ts ≠ []) : ∃ t, build n ts = some t := by
  induction n generalizing ts with
  | zero =>
    obtain ⟨a, rest, rfl⟩ := List.exists_cons_of_ne_nil h
    exact ⟨a, rfl⟩
  | succ n ih =>
    unfold build
    by_cases hlong : 1 < ts.length
    · rw [if_pos hlong]
      apply ih
      intro hnil
      have := level_length ts
      rw [hnil, List.length_nil] at this
      omega
    · rw [if_neg hlong]
      obtain ⟨a, rest, rfl⟩ := List.exists_cons_of_ne_nil h
      exact ⟨a, rfl⟩

theorem eq_of_nodup {l₁ l₂ e₁ e₂ : List α} (h : l₁ ++ e₁ = l₂ ++ e₂) (hsub₁ : e₁ ⊆ l₁) (hsub₂ : e₂ ⊆ l₂) (h₁ : l₁.Nodup)
    (h₂ : l₂.Nodup) : l₁ = l₂ := by
  have hle : ∀ {l l' e e' : List α}, l ++ e = l' ++ e' → e ⊆ l → l'.Nodup → l'.length ≤ l.length := by
    intro l l' e e' heq hsub hnodup
    refine (List.subperm_of_subset hnodup ?_).length_le
    intro x hx
    have hmem : x ∈ l ++ e := heq ▸ List.mem_append_left e' hx
    exact (List.mem_append.mp hmem).elim id (fun h => hsub h)
  have hlen : l₁.length = l₂.length :=
    Nat.le_antisymm (hle h.symm hsub₂ h₁) (hle h hsub₁ h₂)
  exact (List.append_inj h hlen).1

end Levels

end KuberCoin.MerkleTrees
