import Mathlib.Logic.Relation
import Mathlib.Data.List.Forall2

/-!
Programs that share an object and run at the same time.
A program is a tree: it ends with a result, or it performs one operation of the
object and goes on with the answer. Programs that run together take their steps in
any order, one operation at a time, and all of them come to an end.
An invariant of the object that every operation of every program keeps may be used
in reasoning about each program alone: if from every object with the invariant a
program comes to one result, it comes to that result in every interleaving.
-/
namespace KuberCoin.SharedPrograms

/-- The operations of an object with states `σ`. -/
structure SharedObject (σ : Type) where
  Op : Type
  Answer : Op → Type
  perform : (op : Op) → σ → Answer op × σ

inductive Program {σ : Type} (O : SharedObject σ) (α : Type) : Type where
  | ret (a : α)
  | call (op : O.Op) (next : O.Answer op → Program O α)

variable {σ : Type} {O : SharedObject σ} {α β ε : Type}

namespace Program

/-- Go on with `f` where the program ends. -/
def bind (f : α → Program O β) : Program O α → Program O β
  | ret a => f a
  | call op next => call op fun answer => bind f (next answer)

instance : Monad (Program O) where
  pure := ret
  bind p f := bind f p

/-- The result and the object at the end when nothing else uses the object. -/
def runAlone : Program O α → σ → α × σ
  | ret a, s => (a, s)
  | call op next, s => runAlone (next (O.perform op s).1) (O.perform op s).2

/-- One operation; its answer is the result. -/
def perform (op : O.Op) : Program O (O.Answer op) := call op ret

theorem runAlone_bind (p : Program O α) (f : α → Program O β) (s : σ) :
    (p >>= f).runAlone s = (f (p.runAlone s).1).runAlone (p.runAlone s).2 := by
  induction p generalizing s with
  | ret a => rfl
  | call op next ih => exact ih (O.perform op s).1 (O.perform op s).2

end Program

open Program

section Interleavings

/-- One of the programs performs its next operation. -/
inductive Step : σ × List (Program O α) → σ × List (Program O α) → Prop
  | perform (s : σ) (before after : List (Program O α)) (op : O.Op)
      (next : O.Answer op → Program O α) :
      Step (s, before ++ call op next :: after)
        ((O.perform op s).2, before ++ next (O.perform op s).1 :: after)

/-- Some order of steps takes all programs to their results. -/
def Completes (s : σ) (programs : List (Program O α)) (results : List α) (t : σ) : Prop :=
  Relation.ReflTransGen Step (s, programs) (t, results.map ret)

theorem Step.cons {s t : σ} {ps qs : List (Program O α)} (p : Program O α) (h : Step (s, ps) (t, qs)) :
    Step (s, p :: ps) (t, p :: qs) := by
  cases h with
  | perform _ before after op next => exact Step.perform s (p :: before) after op next

theorem steps_cons {c d : σ × List (Program O α)} (p : Program O α) (h : Relation.ReflTransGen Step c d) :
    Relation.ReflTransGen Step (c.1, p :: c.2) (d.1, p :: d.2) := by
  induction h with
  | refl => exact Relation.ReflTransGen.refl
  | tail _ hstep ih => exact ih.tail (hstep.cons p)

/-- The first program can always be run to its end before the others. -/
theorem steps_runAlone (p : Program O α) (s : σ) (ps : List (Program O α)) :
    Relation.ReflTransGen Step (s, p :: ps) ((p.runAlone s).2, ret (p.runAlone s).1 :: ps) := by
  induction p generalizing s with
  | ret a => exact Relation.ReflTransGen.refl
  | call op next ih =>
    exact (ih (O.perform op s).1 (O.perform op s).2).head (Step.perform s [] ps op next)

theorem exists_completes (programs : List (Program O α)) (s : σ) : ∃ results t, Completes s programs results t := by
  induction programs with
  | nil => exact ⟨[], s, Relation.ReflTransGen.refl⟩
  | cons p ps ih =>
    obtain ⟨results, s', hrest⟩ := ih
    have hhead := steps_runAlone p s' (results.map ret)
    exact ⟨(p.runAlone s').1 :: results, (p.runAlone s').2, (steps_cons p hrest).trans hhead⟩

end Interleavings

section Results

variable {I : σ → Prop} {c d : σ × List (Program O α)} {results rs : List α}

/-- Whatever object with the invariant each operation finds, it keeps the invariant and the
program ends with `a`. -/
def Yields (I : σ → Prop) (a : α) : Program O α → Prop
  | ret b => b = a
  | call op next => ∀ s, I s → I (O.perform op s).2 ∧ Yields I a (next (O.perform op s).1)

theorem Yields.bind {a : α} {b : β} {p : Program O α} {f : α → Program O β} (hp : Yields I a p)
    (hf : Yields I b (f a)) : Yields I b (p >>= f) := by
  induction p with
  | ret c =>
    have hc : c = a := hp
    subst hc
    exact hf
  | call op next ih =>
    intro s hs
    exact ⟨(hp s hs).1, ih _ (hp s hs).2⟩

theorem Step.yields (h : Step c d) (hc : I c.1) (hy : List.Forall₂ (Yields I) results c.2) :
    I d.1 ∧ List.Forall₂ (Yields I) results d.2 := by
  cases h with
  | perform s before after op next =>
    have hbefore := List.forall₂_take_append results before _ hy
    have hrest := List.forall₂_drop_append results before _ hy
    rw [← List.take_append_drop before.length results]
    generalize results.drop before.length = bs at hrest ⊢
    cases hrest with
    | cons hcall hafter =>
      obtain ⟨hI, hnext⟩ := hcall s hc
      exact ⟨hI, List.rel_append hbefore (List.Forall₂.cons hnext hafter)⟩

theorem steps_yields (h : Relation.ReflTransGen Step c d) (hc : I c.1) (hy : List.Forall₂ (Yields I) results c.2) :
    I d.1 ∧ List.Forall₂ (Yields I) results d.2 := by
  induction h with
  | refl => exact ⟨hc, hy⟩
  | tail _ hstep ih => exact hstep.yields ih.1 ih.2

theorem eq_of_forall₂_yields (h : List.Forall₂ (Yields (O := O) I) results (rs.map ret)) : rs = results := by
  rw [List.forall₂_map_right_iff] at h
  induction h with
  | nil => rfl
  | cons hab _ ih => rw [ih, show _ = _ from hab]

/-- In every interleaving each program comes to its result, and the invariant is kept. -/
theorem completes_yields {s t : σ} {programs : List (Program O α)} (h : Completes s programs rs t) (hs : I s)
    (hy : List.Forall₂ (Yields I) results programs) : rs = results ∧ I t := by
  obtain ⟨ht, hend⟩ := steps_yields h hs hy
  exact ⟨eq_of_forall₂_yields hend, ht⟩

end Results

section Failures

variable {I : σ → Prop} {e : Except ε α} {f : α → Except ε β} {g : α → ExceptT ε (Program O) β}

/-- A step that does not use the object. -/
def check (e : Except ε α) : ExceptT ε (Program O) α := ExceptT.mk (ret e)

/-- An operation, which cannot fail. -/
def performs (op : O.Op) : ExceptT ε (Program O) (O.Answer op) := ExceptT.lift (perform op)

theorem yields_check (e : Except ε α) : Yields (O := O) I e (check e).run := rfl

/-- The rule for a sequence: an error ends it, and a value is passed on. -/
theorem yields_bind {p : ExceptT ε (Program O) α} (hp : Yields I e p.run)
    (hg : ∀ a, e = .ok a → Yields I (f a) (g a).run) : Yields I (e >>= f) (p >>= g).run := by
  rw [ExceptT.run_bind]
  refine Yields.bind hp ?_
  cases e with
  | error e => rfl
  | ok a => exact hg a rfl

theorem yields_check_bind (hg : ∀ a, e = .ok a → Yields I (f a) (g a).run) : Yields I (e >>= f) (check e >>= g).run :=
  yields_bind (yields_check e) hg

/-- The rule for an operation: it keeps the invariant, and what follows comes to the result for
every answer. -/
theorem yields_performs_bind {op : O.Op} {e : Except ε β} {g : O.Answer op → ExceptT ε (Program O) β}
    (h : ∀ s, I s → I (O.perform op s).2 ∧ Yields I e (g (O.perform op s).1).run) :
    Yields I e (performs op >>= g).run :=
  h

end Failures

end KuberCoin.SharedPrograms
