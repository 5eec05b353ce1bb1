import Mathlib.Data.List.Forall2
import Mathlib.Logic.Relation

/-!
# Runs of a transition function

A machine is a function that takes a state and an input to an output and the next state. `run`
feeds it a list of inputs. `Along` says that a condition on the state before a step and the step's
input holds at every step of a run. The rules are the two inductions a verification over runs needs:
an invariant (`run_invariant`) and a lockstep simulation of two machines (`run_lockstep`).
-/

namespace Lib

section
variable {σ τ ι ω : Type*}

/-- Feed the inputs one by one, collecting the outputs. -/
def run (step : σ → ι → ω × σ) : σ → List ι → List ω × σ
  | s, [] => ([], s)
  | s, i :: is => ((step s i).1 :: (run step (step s i).2 is).1, (run step (step s i).2 is).2)

/-- `ok` holds of every step of the run: of its input and of the state it starts from. -/
def Along (step : σ → ι → ω × σ) (ok : σ → ι → Prop) : σ → List ι → Prop
  | _, [] => True
  | s, i :: is => ok s i ∧ Along step ok (step s i).2 is

instance Along.decidable (step : σ → ι → ω × σ) (ok : σ → ι → Prop) [∀ s i, Decidable (ok s i)] :
    ∀ s is, Decidable (Along step ok s is)
  | _, [] => isTrue trivial
  | s, _ :: is => @instDecidableAnd _ _ _ (Along.decidable step ok (step s _).2 is)

@[simp] theorem run_nil (step : σ → ι → ω × σ) (s : σ) : run step s [] = ([], s) := rfl

theorem Along.and {step : σ → ι → ω × σ} {ok ok' : σ → ι → Prop} {s : σ} {is : List ι}
    (h : Along step ok s is) (h' : Along step ok' s is) :
    Along step (fun s i => ok s i ∧ ok' s i) s is := by
  induction is generalizing s with
  | nil => trivial
  | cons i is ih => exact ⟨⟨h.1, h'.1⟩, ih h.2 h'.2⟩

/-- What every admitted step keeps, every admitted run keeps. -/
theorem run_invariant {step : σ → ι → ω × σ} {ok : σ → ι → Prop} {P : σ → Prop}
    (hstep : ∀ {s i}, P s → ok s i → P (step s i).2) {s : σ} (h : P s) {is : List ι}
    (hok : Along step ok s is) : P (run step s is).2 := by
  induction is generalizing s with
  | nil => exact h
  | cons i is ih => exact ih (hstep h hok.1) hok.2

/-- Two machines whose admitted steps give the same output and keep a relation give the same outputs
over every admitted run, and end related. -/
theorem run_lockstep {step : σ → ι → ω × σ} {step' : τ → ι → ω × τ} {ok : σ → ι → Prop}
    {R : σ → τ → Prop}
    (hstep : ∀ {s t i}, R s t → ok s i →
      (step' t i).1 = (step s i).1 ∧ R (step s i).2 (step' t i).2)
    {s : σ} {t : τ} (h : R s t) {is : List ι} (hok : Along step ok s is) :
    (run step' t is).1 = (run step s is).1 ∧ R (run step s is).2 (run step' t is).2 := by
  induction is generalizing s t with
  | nil => exact ⟨rfl, h⟩
  | cons i is ih =>
    obtain ⟨ho, hR⟩ := hstep h hok.1
    obtain ⟨hos, hR'⟩ := ih hR hok.2
    refine ⟨?_, hR'⟩
    rw [run, run, ho, hos]

/-- Two machines whose admitted steps give related outputs and keep a relation give related outputs over
every admitted run, and end related. -/
theorem run_related {ω' : Type*} {step : σ → ι → ω × σ} {step' : τ → ι → ω' × τ} {ok : σ → ι → Prop}
    {O : ω → ω' → Prop} {R : σ → τ → Prop}
    (hstep : ∀ {s t i}, R s t → ok s i →
      O (step s i).1 (step' t i).1 ∧ R (step s i).2 (step' t i).2)
    {s : σ} {t : τ} (h : R s t) {is : List ι} (hok : Along step ok s is) :
    List.Forall₂ O (run step s is).1 (run step' t is).1 ∧ R (run step s is).2 (run step' t is).2 := by
  induction is generalizing s t with
  | nil => exact ⟨.nil, h⟩
  | cons i is ih =>
    obtain ⟨ho, hR⟩ := hstep h hok.1
    obtain ⟨hos, hR'⟩ := ih hR hok.2
    exact ⟨.cons ho hos, hR'⟩

end

end Lib
