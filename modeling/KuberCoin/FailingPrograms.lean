import Mathlib.Tactic

/-!
Programs over a state that return a value or fail, as `StateT σ (Except ε)`. A
postcondition speaks of the runs that succeed: `Ensures m s Q` says that whatever `m`
returns from `s`, with the state it leaves, satisfies `Q`. Each way of building a program
has its rule, so the postcondition of a program is computed from those of its parts.
-/
namespace KuberCoin.FailingPrograms

variable {σ ε α β : Type}

def Ensures (m : StateT σ (Except ε) α) (s : σ) (Q : α → σ → Prop) : Prop :=
  ∀ a s', m s = .ok (a, s') → Q a s'

theorem Ensures.apply {m : StateT σ (Except ε) α} {s : σ} {Q : α → σ → Prop} (h : Ensures m s Q) {a : α} {s' : σ}
    (run : m s = .ok (a, s')) : Q a s' := h a s' run

theorem Ensures.mono {m : StateT σ (Except ε) α} {s : σ} {P Q : α → σ → Prop} (h : Ensures m s P)
    (weaker : ∀ a s', P a s' → Q a s') : Ensures m s Q :=
  fun a s' run => weaker a s' (h a s' run)

theorem ensures_of_forall {m : StateT σ (Except ε) α} {s : σ} {Q : α → σ → Prop} (h : ∀ a s', Q a s') :
    Ensures m s Q := fun a s' _ => h a s'

theorem bind_eq_ok {m : StateT σ (Except ε) α} {f : α → StateT σ (Except ε) β} {s s' : σ} {b : β} :
    (m >>= f) s = .ok (b, s') ↔ ∃ a mid, m s = .ok (a, mid) ∧ f a mid = .ok (b, s') := by
  show (m s >>= fun p => f p.1 p.2) = _ ↔ _
  cases hm : m s with
  | error e => simp [bind, Except.bind]
  | ok p =>
    obtain ⟨a, mid⟩ := p
    simp [bind, Except.bind]

/-- Programs that agree on whatever their first parts return are run alike. -/
theorem bind_congr_of_ensures {m m' : StateT σ (Except ε) α} {f g : α → StateT σ (Except ε) β} {s : σ}
    (same : m s = m' s) (h : Ensures m s fun a mid => f a mid = g a mid) : (m >>= f) s = (m' >>= g) s := by
  show (m s >>= fun p => f p.1 p.2) = (m' s >>= fun p => g p.1 p.2)
  rw [← same]
  cases hm : m s with
  | error e => rfl
  | ok p => exact h p.1 p.2 hm

theorem bind_of_ok {m : StateT σ (Except ε) α} {f : α → StateT σ (Except ε) β} {s mid : σ} {a : α}
    (h : m s = .ok (a, mid)) : (m >>= f) s = f a mid := by
  show (m s >>= fun p => f p.1 p.2) = _
  rw [h]
  rfl

theorem get_bind {f : σ → StateT σ (Except ε) β} {s : σ} : (get >>= f) s = f s s := rfl

theorem bind_of_error {m : StateT σ (Except ε) α} {f : α → StateT σ (Except ε) β} {s : σ} {e : ε} (h : m s = .error e) :
    (m >>= f) s = .error e := by
  show (m s >>= fun p => f p.1 p.2) = _
  rw [h]
  rfl

theorem except_bind_eq_ok {x : Except ε α} {f : α → Except ε β} {b : β} :
    (x >>= f) = .ok b ↔ ∃ a, x = .ok a ∧ f a = .ok b := by
  cases x with
  | error e => simp [bind, Except.bind]
  | ok a => simp [bind, Except.bind]

section Rules

variable {s : σ} {Q : α → σ → Prop} {m : StateT σ (Except ε) β}

@[simp] theorem ensures_pure {a : α} : Ensures (pure a : StateT σ (Except ε) α) s Q ↔ Q a s := by
  constructor
  · intro h
    exact h a s rfl
  · intro h b s' run
    cases run
    exact h

@[simp] theorem ensures_throw {e : ε} : Ensures (throw e : StateT σ (Except ε) α) s Q ↔ True := by
  simp only [iff_true]
  intro a s' run
  cases run

@[simp] theorem ensures_bind {f : β → StateT σ (Except ε) α} :
    Ensures (m >>= f) s Q ↔ Ensures m s fun b mid => Ensures (f b) mid Q := by
  constructor
  · intro h b mid run a s' run'
    exact h a s' (bind_eq_ok.mpr ⟨b, mid, run, run'⟩)
  · intro h a s' run
    obtain ⟨b, mid, first, second⟩ := bind_eq_ok.mp run
    exact h b mid first a s' second

@[simp] theorem ensures_map {f : β → α} : Ensures (f <$> m) s Q ↔ Ensures m s fun b => Q (f b) := by
  rw [map_eq_bind_pure_comp, ensures_bind]
  simp only [Function.comp, ensures_pure]

@[simp] theorem ensures_ite {c : Prop} [Decidable c] {m m' : StateT σ (Except ε) α} :
    Ensures (if c then m else m') s Q ↔ (c → Ensures m s Q) ∧ (¬ c → Ensures m' s Q) := by
  by_cases h : c
  · simp [h]
  · simp [h]

@[simp] theorem ensures_get {Q : σ → σ → Prop} : Ensures (get : StateT σ (Except ε) σ) s Q ↔ Q s s := by
  constructor
  · intro h
    exact h s s rfl
  · intro h a s' run
    cases run
    exact h

@[simp] theorem ensures_modify {f : σ → σ} {Q : PUnit → σ → Prop} :
    Ensures (modify f : StateT σ (Except ε) PUnit) s Q ↔ Q ⟨⟩ (f s) := by
  constructor
  · intro h
    exact h _ _ rfl
  · intro h a s' run
    cases run
    exact h

@[simp] theorem ensures_set {s' : σ} {Q : PUnit → σ → Prop} :
    Ensures (set s' : StateT σ (Except ε) PUnit) s Q ↔ Q ⟨⟩ s' := by
  constructor
  · intro h
    exact h _ _ rfl
  · intro h a s'' run
    cases run
    exact h

@[simp] theorem ensures_lift {e : Except ε α} :
    Ensures (liftM e : StateT σ (Except ε) α) s Q ↔ ∀ a, e = .ok a → Q a s := by
  cases e with
  | error err => exact iff_of_true (fun a s' run => by cases run) (fun a h => by cases h)
  | ok a =>
    constructor
    · intro h b hb
      cases hb
      exact h a s rfl
    · intro h b s' run
      cases run
      exact h a rfl

end Rules

end KuberCoin.FailingPrograms
