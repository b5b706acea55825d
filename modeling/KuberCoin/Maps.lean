import Mathlib.Data.Finmap
import Mathlib.Data.List.Sort
import Mathlib.Algebra.BigOperators.Group.Multiset.Basic
import Mathlib.Algebra.BigOperators.Group.Finset.Defs
import Mathlib.Data.UInt

/-!
Finite maps with extensional equality, on top of Mathlib's `Finmap`.
A map is read through `lookup`; `total` adds up a quantity over all its values,
and `sortedKeys` lists its keys in the order of a rank, independently of how the
map was built.
-/
namespace KuberCoin.Maps

/-- A finite map from `K` to `V`. -/
abbrev Map (K V : Type) := Finmap fun _ : K => V

variable {K V : Type} [DecidableEq K]

theorem lookup_insert_eq (m : Map K V) (k a : K) (v : V) :
    (m.insert k v).lookup a = if a = k then some v else m.lookup a := by
  by_cases h : a = k
  · subst h
    simp
  · rw [if_neg h, Finmap.lookup_insert_of_ne m h]

theorem lookup_erase_eq (m : Map K V) (k a : K) : (m.erase k).lookup a = if a = k then none else m.lookup a := by
  by_cases h : a = k
  · subst h
    simp
  · rw [if_neg h, Finmap.lookup_erase_ne h]

theorem mem_iff_lookup (m : Map K V) (k : K) : k ∈ m ↔ ∃ v, m.lookup k = some v :=
  Finmap.mem_iff

/-- Erase every key of a list. -/
def eraseAll (m : Map K V) (ks : List K) : Map K V := ks.foldl (fun m k => m.erase k) m

theorem lookup_eraseAll (m : Map K V) (ks : List K) (a : K) :
    (eraseAll m ks).lookup a = if a ∈ ks then none else m.lookup a := by
  induction ks generalizing m with
  | nil => simp [eraseAll]
  | cons k ks ih =>
    change (eraseAll (m.erase k) ks).lookup a = _
    rw [ih, lookup_erase_eq]
    by_cases hks : a ∈ ks <;> by_cases hk : a = k <;> simp [hks, hk]

/-- Insert every binding of a list, later bindings of a key replacing earlier ones. -/
def insertAll (m : Map K V) (kvs : List (K × V)) : Map K V :=
  kvs.foldl (fun m kv => m.insert kv.1 kv.2) m

theorem lookup_insertAll_of_notMem (m : Map K V) (kvs : List (K × V)) (a : K) (h : a ∉ kvs.map Prod.fst) :
    (insertAll m kvs).lookup a = m.lookup a := by
  induction kvs generalizing m with
  | nil => rfl
  | cons kv kvs ih =>
    simp only [List.map_cons, List.mem_cons, not_or] at h
    change (insertAll (m.insert kv.1 kv.2) kvs).lookup a = _
    rw [ih _ h.2, lookup_insert_eq, if_neg h.1]

/-- A key whose bindings in the list all have one value gets that value. -/
theorem lookup_insertAll_of_mem (m : Map K V) (kvs : List (K × V)) (a : K) (v : V) (hmem : (a, v) ∈ kvs)
    (hval : ∀ w, (a, w) ∈ kvs → w = v) : (insertAll m kvs).lookup a = some v := by
  induction kvs generalizing m with
  | nil => simp at hmem
  | cons kv kvs ih =>
    change (insertAll (m.insert kv.1 kv.2) kvs).lookup a = some v
    by_cases hlater : a ∈ kvs.map Prod.fst
    · obtain ⟨⟨k, w⟩, hkw, rfl⟩ := List.mem_map.mp hlater
      have hw : w = v := hval w (List.mem_cons_of_mem _ hkw)
      subst hw
      exact ih _ hkw (fun x hx => hval x (List.mem_cons_of_mem _ hx))
    · rw [lookup_insertAll_of_notMem _ _ _ hlater]
      rcases List.mem_cons.mp hmem with heq | hin
      · subst heq
        simp
      · exact absurd (List.mem_map_of_mem hin) hlater

/-- Erasing freshly inserted keys restores the map. -/
theorem eraseAll_insertAll (m : Map K V) (kvs : List (K × V)) (hfresh : ∀ k ∈ kvs.map Prod.fst, m.lookup k = none) :
    eraseAll (insertAll m kvs) (kvs.map Prod.fst) = m := by
  apply Finmap.ext_lookup
  intro a
  rw [lookup_eraseAll]
  by_cases ha : a ∈ kvs.map Prod.fst
  · rw [if_pos ha, hfresh a ha]
  · rw [if_neg ha, lookup_insertAll_of_notMem m kvs a ha]

theorem insertAll_eraseAll (m : Map K V) (ks : List K) (kvs : List (K × V))
    (hkvs : ∀ k v, (k, v) ∈ kvs ↔ k ∈ ks ∧ m.lookup k = some v) : insertAll (eraseAll m ks) kvs = m := by
  apply Finmap.ext_lookup
  intro a
  cases hm : m.lookup a with
  | none =>
    have hnot : a ∉ kvs.map Prod.fst := by
      intro hin
      obtain ⟨⟨k, v⟩, hkv, rfl⟩ := List.mem_map.mp hin
      have := ((hkvs k v).mp hkv).2
      simp [hm] at this
    rw [lookup_insertAll_of_notMem _ _ _ hnot, lookup_eraseAll]
    simp [hm]
  | some v =>
    by_cases ha : a ∈ ks
    · apply lookup_insertAll_of_mem
      · exact (hkvs a v).mpr ⟨ha, hm⟩
      · intro w hw
        have := ((hkvs a w).mp hw).2
        simpa [hm] using this.symm
    · have hnot : a ∉ kvs.map Prod.fst := by
        intro hin
        obtain ⟨⟨k, w⟩, hkw, rfl⟩ := List.mem_map.mp hin
        exact ha ((hkvs k w).mp hkw).1
      rw [lookup_insertAll_of_notMem _ _ _ hnot, lookup_eraseAll, if_neg ha, hm]

theorem insert_erase_of_lookup (m : Map K V) (k : K) (v : V) (h : m.lookup k = some v) :
    (m.erase k).insert k v = m := by
  apply Finmap.ext_lookup
  intro a
  rw [lookup_insert_eq, lookup_erase_eq]
  by_cases ha : a = k
  · rw [if_pos ha, ha, h]
  · rw [if_neg ha, if_neg ha]

theorem card_keys_erase_lt (m : Map K V) (k : K) (h : k ∈ m) : (m.erase k).keys.card < m.keys.card := by
  rw [Finmap.keys_erase]
  exact Finset.card_erase_lt_of_mem (Finmap.mem_keys.mpr h)

theorem card_keys_insert_le (m : Map K V) (k : K) (v : V) : (m.insert k v).keys.card ≤ m.keys.card + 1 := by
  refine le_trans (Finset.card_le_card ?_) (Finset.card_insert_le k m.keys)
  intro a ha
  rw [Finmap.mem_keys, Finmap.mem_insert] at ha
  rw [Finset.mem_insert, Finmap.mem_keys]
  exact ha

section Listing

/-- A list of all bindings of a map, each of them once, in whatever order. -/
structure Lists (m : Map K V) (l : List (K × V)) : Prop where
  nodup : (l.map Prod.fst).Nodup
  mem : ∀ k v, (k, v) ∈ l ↔ m.lookup k = some v

theorem Lists.nil : Lists (∅ : Map K V) [] where
  nodup := List.nodup_nil
  mem k v := by simp

theorem Lists.cons {m : Map K V} {l : List (K × V)} (h : Lists m l) {k : K} {v : V} (hk : m.lookup k = none) :
    Lists (m.insert k v) ((k, v) :: l) where
  nodup := by
    rw [List.map_cons, List.nodup_cons]
    refine ⟨?_, h.nodup⟩
    intro hmem
    obtain ⟨⟨k', w⟩, hkw, rfl⟩ := List.mem_map.mp hmem
    rw [(h.mem _ w).mp hkw] at hk
    exact Option.some_ne_none _ hk
  mem k' w := by
    rw [List.mem_cons, lookup_insert_eq, h.mem, Prod.mk.injEq]
    by_cases heq : k' = k
    · subst heq
      simp [hk, eq_comm]
    · simp [heq]

theorem Lists.insertAll_empty {m : Map K V} {l : List (K × V)} (h : Lists m l) : insertAll ∅ l = m := by
  apply Finmap.ext_lookup
  intro k
  cases hlook : m.lookup k with
  | none =>
    rw [lookup_insertAll_of_notMem, Finmap.lookup_empty]
    intro hk
    obtain ⟨⟨k', v⟩, hkv, rfl⟩ := List.mem_map.mp hk
    rw [(h.mem _ v).mp hkv] at hlook
    exact Option.some_ne_none _ hlook
  | some v =>
    refine lookup_insertAll_of_mem _ _ _ _ ((h.mem k v).mpr hlook) ?_
    intro w hw
    exact Option.some.inj (((h.mem k w).mp hw).symm.trans hlook)

theorem lists_insertAll {l : List (K × V)} (h : (l.map Prod.fst).Nodup) : Lists (insertAll ∅ l) l where
  nodup := h
  mem k v := by
    have hunique : ∀ v w, (k, v) ∈ l → (k, w) ∈ l → w = v := by
      intro v w hv hw
      exact (Prod.mk.inj (List.inj_on_of_nodup_map h hw hv rfl)).2
    constructor
    · intro hmem
      exact lookup_insertAll_of_mem _ _ _ _ hmem (fun w hw => hunique v w hmem hw)
    · intro hlook
      by_cases hk : k ∈ l.map Prod.fst
      · obtain ⟨⟨k', w⟩, hw, rfl⟩ := List.mem_map.mp hk
        rw [lookup_insertAll_of_mem _ _ _ w hw (fun x hx => hunique w x hw hx)] at hlook
        exact Option.some.inj hlook ▸ hw
      · rw [lookup_insertAll_of_notMem _ _ _ hk, Finmap.lookup_empty] at hlook
        cases hlook

end Listing

section Total

/-- The sum of `f` over the values of a map. -/
def total (f : V → ℕ) (m : Map K V) : ℕ := (m.entries.map fun e => f e.2).sum

omit [DecidableEq K] in
theorem total_empty (f : V → ℕ) : total f (∅ : Map K V) = 0 := by
  rfl

theorem total_insert (f : V → ℕ) (m : Map K V) (k : K) (v : V) (h : m.lookup k = none) :
    total f (m.insert k v) = f v + total f m := by
  have hk : k ∉ m := Finmap.lookup_eq_none.mp h
  rw [total, total, Finmap.entries_insert_of_notMem hk, Multiset.map_cons, Multiset.sum_cons]

theorem total_erase (f : V → ℕ) (m : Map K V) (k : K) (v : V) (h : m.lookup k = some v) :
    total f (m.erase k) + f v = total f m := by
  have hfresh : (m.erase k).lookup k = none := Finmap.lookup_erase k m
  have hins := total_insert f (m.erase k) k v hfresh
  rw [insert_erase_of_lookup m k v h] at hins
  omega

theorem le_total (f : V → ℕ) (m : Map K V) (k : K) (v : V) (h : m.lookup k = some v) : f v ≤ total f m := by
  have := total_erase f m k v h
  omega

theorem total_eq_zero (f : V → ℕ) (m : Map K V) (h : ∀ k v, m.lookup k = some v → f v = 0) : total f m = 0 := by
  unfold total
  apply Multiset.sum_eq_zero
  intro n hn
  obtain ⟨⟨k, v⟩, he, rfl⟩ := Multiset.mem_map.mp hn
  exact h k v (Finmap.mem_lookup_iff.mpr he)

theorem total_eq_sum (f : V → ℕ) (m : Map K V) : total f m = ∑ k ∈ m.keys, (m.lookup k).elim 0 f := by
  change _ = ((m.entries.map Sigma.fst).map fun k => (m.lookup k).elim 0 f).sum
  rw [total, Multiset.map_map]
  refine congrArg Multiset.sum (Multiset.map_congr rfl fun e he => ?_)
  have hlook : m.lookup e.1 = some e.2 := Finmap.mem_lookup_iff.mpr he
  simp only [Function.comp_apply, hlook, Option.elim_some]

theorem total_insertAll (f : V → ℕ) (m : Map K V) (kvs : List (K × V)) (hnodup : (kvs.map Prod.fst).Nodup)
    (hfresh : ∀ k ∈ kvs.map Prod.fst, m.lookup k = none) :
    total f (insertAll m kvs) = total f m + (kvs.map fun kv => f kv.2).sum := by
  induction kvs generalizing m with
  | nil => simp [insertAll]
  | cons kv kvs ih =>
    simp only [List.map_cons, List.nodup_cons] at hnodup
    have hkv : m.lookup kv.1 = none := hfresh kv.1 (by simp)
    have hrest : ∀ k ∈ kvs.map Prod.fst, (m.insert kv.1 kv.2).lookup k = none := by
      intro k hk
      have hne : k ≠ kv.1 := fun heq => hnodup.1 (heq ▸ hk)
      rw [lookup_insert_eq, if_neg hne]
      exact hfresh k (by simp only [List.map_cons, List.mem_cons]; exact Or.inr hk)
    change total f (insertAll (m.insert kv.1 kv.2) kvs) = _
    rw [ih _ hnodup.2 hrest, total_insert f m kv.1 kv.2 hkv]
    simp only [List.map_cons, List.sum_cons]
    omega

theorem total_eraseAll (f : V → ℕ) (m : Map K V) (ks : List K) (g : K → ℕ) (hnodup : ks.Nodup)
    (hmem : ∀ k ∈ ks, ∃ v, m.lookup k = some v ∧ f v = g k) : total f (eraseAll m ks) + (ks.map g).sum = total f m := by
  induction ks generalizing m with
  | nil => simp [eraseAll]
  | cons k ks ih =>
    rw [List.nodup_cons] at hnodup
    obtain ⟨v, hv, hfv⟩ := hmem k (by simp)
    have hrest : ∀ a ∈ ks, ∃ v, (m.erase k).lookup a = some v ∧ f v = g a := by
      intro a ha
      have hne : a ≠ k := fun heq => hnodup.1 (heq ▸ ha)
      rw [lookup_erase_eq, if_neg hne]
      exact hmem a (List.mem_cons_of_mem _ ha)
    have hrec := ih (m.erase k) hnodup.2 hrest
    have herase := total_erase f m k v hv
    change total f (eraseAll (m.erase k) ks) + _ = _
    simp only [List.map_cons, List.sum_cons]
    omega

end Total

section Sorted

variable (rank : K → ℕ)

/-- The keys of a map in increasing rank. -/
def sortedKeys (hrank : Function.Injective rank) (m : Map K V) : List K :=
  Quot.liftOn m.keys.val (fun l => l.insertionSort fun a b => rank a ≤ rank b) (by
    intro l l' hperm
    have : Std.Total (fun a b : K => rank a ≤ rank b) := ⟨fun a b => Nat.le_total _ _⟩
    have : IsTrans K (fun a b : K => rank a ≤ rank b) := ⟨fun a b c => Nat.le_trans⟩
    have : Std.Antisymm (fun a b : K => rank a ≤ rank b) :=
      ⟨fun a b h h' => hrank (Nat.le_antisymm h h')⟩
    apply List.Perm.eq_of_pairwise' (List.pairwise_insertionSort _ l) (List.pairwise_insertionSort _ l')
    exact (List.perm_insertionSort _ l).trans (hperm.trans (List.perm_insertionSort _ l').symm))

omit [DecidableEq K] in
theorem mem_sortedKeys (hrank : Function.Injective rank) (m : Map K V) (k : K) :
    k ∈ sortedKeys rank hrank m ↔ k ∈ m := by
  rw [← Finmap.mem_keys, ← Finset.mem_val]
  unfold sortedKeys
  generalize m.keys.val = keys
  induction keys using Quot.inductionOn with
  | h l => exact List.mem_insertionSort _

omit [DecidableEq K] in
theorem sortedKeys_congr (hrank : Function.Injective rank) {W : Type} {m : Map K V} {m' : Map K W}
    (h : ∀ k, k ∈ m ↔ k ∈ m') : sortedKeys rank hrank m = sortedKeys rank hrank m' := by
  have hkeys : m.keys = m'.keys := by
    ext k
    rw [Finmap.mem_keys, Finmap.mem_keys, h]
  unfold sortedKeys
  rw [hkeys]

omit [DecidableEq K] in
theorem sortedKeys_nodup (hrank : Function.Injective rank) (m : Map K V) : (sortedKeys rank hrank m).Nodup := by
  have hkeys := m.keys.nodup
  unfold sortedKeys
  revert hkeys
  generalize m.keys.val = keys
  induction keys using Quot.inductionOn with
  | h l =>
    intro hl
    exact ((List.perm_insertionSort _ l).nodup_iff).mpr hl

/-- The bindings of a map in increasing rank of their keys. -/
def sortedBindings (hrank : Function.Injective rank) (m : Map K V) : List (K × V) :=
  (sortedKeys rank hrank m).filterMap fun k => (m.lookup k).map (Prod.mk k)

theorem lists_sortedBindings (hrank : Function.Injective rank) (m : Map K V) :
    Lists m (sortedBindings rank hrank m) where
  nodup := by
    have hkeys : (sortedBindings rank hrank m).map Prod.fst = sortedKeys rank hrank m := by
      have hin : ∀ k ∈ sortedKeys rank hrank m, ∃ v, m.lookup k = some v := fun k hk =>
        (mem_iff_lookup m k).mp ((mem_sortedKeys rank hrank m k).mp hk)
      unfold sortedBindings
      generalize sortedKeys rank hrank m = keys at hin ⊢
      induction keys with
      | nil => rfl
      | cons k keys ih =>
        obtain ⟨v, hv⟩ := hin k (by simp)
        rw [List.filterMap_cons, hv]
        simp only [Option.map_some, List.map_cons]
        rw [ih fun k' hk' => hin k' (List.mem_cons_of_mem k hk')]
    rw [hkeys]
    exact sortedKeys_nodup rank hrank m
  mem k v := by
    unfold sortedBindings
    rw [List.mem_filterMap]
    constructor
    · rintro ⟨k', -, hk'⟩
      obtain ⟨w, hw, heq⟩ := Option.map_eq_some_iff.mp hk'
      cases heq
      exact hw
    · intro hv
      exact ⟨k, (mem_sortedKeys rank hrank m k).mpr ((mem_iff_lookup m k).mpr ⟨v, hv⟩), by simp [hv]⟩

/-- The key of least rank, `d` for an empty map. -/
def leastKey (hrank : Function.Injective rank) (d : K) (m : Map K V) : K :=
  (sortedKeys rank hrank m).headD d

theorem leastKey_mem (hrank : Function.Injective rank) (d : K) (m : Map K V) (h : m ≠ ∅) :
    leastKey rank hrank d m ∈ m := by
  unfold leastKey
  cases hkeys : sortedKeys rank hrank m with
  | nil =>
    have hnone : ∀ k, k ∉ m := by
      intro k hk
      rw [← mem_sortedKeys rank hrank, hkeys] at hk
      simp at hk
    refine absurd ?_ h
    apply Finmap.ext_lookup
    intro k
    rw [Finmap.lookup_eq_none.mpr (hnone k), Finmap.lookup_empty]
  | cons k keys =>
    rw [← mem_sortedKeys rank hrank, hkeys]
    simp

end Sorted

end KuberCoin.Maps
