import Mathlib.Logic.Relation

/-!
A relation that grows by one node. The node `t` brings edges to the nodes of `out` and
from the nodes of `into`, and no other edges change. Chains between old nodes are the old
ones and those that go to `t` and on from it.
-/
namespace KuberCoin.AddedNodes

open Relation

variable {α : Type} {r r' : α → α → Prop} {t : α} {out into : α → Prop}

/-- The edges of `r'` are those of `r` and the edges of the new node. -/
structure Adds (r r' : α → α → Prop) (t : α) (out into : α → Prop) : Prop where
  old_left : ∀ {x y}, r x y → x ≠ t
  old_right : ∀ {x y}, r x y → y ≠ t
  old : ∀ {x y}, x ≠ t → y ≠ t → (r' x y ↔ r x y)
  leaves : ∀ {y}, y ≠ t → (r' t y ↔ out y)
  enters : ∀ {x}, x ≠ t → (r' x t ↔ into x)

theorem Adds.edge (h : Adds r r' t out into) {x y : α} (hxy : r x y) : r' x y :=
  (h.old (h.old_left hxy) (h.old_right hxy)).mpr hxy

theorem Adds.chain (h : Adds r r' t out into) {x y : α} (hxy : ReflTransGen r x y) :
    ReflTransGen r' x y := ReflTransGen.lift id (fun _ _ => h.edge) _ _ hxy

theorem Adds.transGen_from (h : Adds r r' t out into) {y : α} (hy : y ≠ t) :
    TransGen r' t y ↔ ∃ p, p ≠ t ∧ out p ∧ ReflTransGen r p y := by
  constructor
  · intro chain
    induction chain with
    | single edge => exact ⟨_, hy, (h.leaves hy).mp edge, .refl⟩
    | @tail m y before edge ih =>
      by_cases hm : m = t
      · subst hm
        exact ⟨y, hy, (h.leaves hy).mp edge, .refl⟩
      · obtain ⟨p, hp, hout, path⟩ := ih hm
        exact ⟨p, hp, hout, path.tail ((h.old hm hy).mp edge)⟩
  · rintro ⟨p, hp, hout, path⟩
    exact TransGen.head' ((h.leaves hp).mpr hout) (h.chain path)

theorem Adds.transGen_to (h : Adds r r' t out into) {x : α} (hx : x ≠ t) :
    TransGen r' x t ↔ ∃ c, c ≠ t ∧ into c ∧ ReflTransGen r x c := by
  constructor
  · intro chain
    induction chain using TransGen.head_induction_on with
    | single edge => exact ⟨_, hx, (h.enters hx).mp edge, .refl⟩
    | @head x m edge after ih =>
      by_cases hm : m = t
      · subst hm
        exact ⟨x, hx, (h.enters hx).mp edge, .refl⟩
      · obtain ⟨c, hc, hinto, path⟩ := ih hm
        exact ⟨c, hc, hinto, path.head ((h.old hx hm).mp edge)⟩
  · rintro ⟨c, hc, hinto, path⟩
    exact TransGen.tail' (h.chain path) ((h.enters hc).mpr hinto)

theorem Adds.transGen_between (h : Adds r r' t out into) {x y : α} (hx : x ≠ t) (hy : y ≠ t) :
    TransGen r' x y ↔ TransGen r x y ∨ TransGen r' x t ∧ TransGen r' t y := by
  constructor
  · intro chain
    induction chain with
    | single edge => exact .inl (.single ((h.old hx hy).mp edge))
    | @tail m y before edge ih =>
      by_cases hm : m = t
      · subst hm
        exact .inr ⟨before, .single edge⟩
      · rcases ih hm with old | ⟨first, second⟩
        · exact .inl (old.tail ((h.old hm hy).mp edge))
        · exact .inr ⟨first, second.tail edge⟩
  · rintro (old | ⟨first, second⟩)
    · exact TransGen.lift id (fun _ _ => h.edge) _ _ old
    · exact first.trans second

end KuberCoin.AddedNodes
