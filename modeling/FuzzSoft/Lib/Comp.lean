import Mathlib.Logic.Basic

/-!
# Computations with state and exceptions

A computation takes a state to a result or an exception and a new state; the state survives an
exception. `Sim` relates two computations at two states: they return the same outcome and leave
related states. It is a pointwise relation, so a rule may use what is known of the states at hand.
`Relates` is the form for computations whose results differ. `SimUnless` leaves out the exceptions
after which nothing is compared. `Keeps`, `Gives` and `Raises`
say of one computation what it leaves alone, what it returns and what it raises.
-/

namespace Lib

section
variable {ε σ τ α β : Type}

/-- A computation over the state `σ` that may raise `ε`. -/
def Comp (ε σ α : Type) := σ → Except ε α × σ

namespace Comp

protected def pure (a : α) : Comp ε σ α := fun s => (.ok a, s)

protected def bind (x : Comp ε σ α) (f : α → Comp ε σ β) : Comp ε σ β := fun s =>
  match x s with
  | (.ok a, s') => f a s'
  | (.error e, s') => (.error e, s')

instance : Monad (Comp ε σ) where
  pure := Comp.pure
  bind := Comp.bind

/-- Raise an exception. -/
def throw (e : ε) : Comp ε σ α := fun s => (.error e, s)

/-- Read the state through `f`. -/
def gets (f : σ → α) : Comp ε σ α := fun s => (.ok (f s), s)

/-- Change the state. -/
def modify (f : σ → σ) : Comp ε σ Unit := fun s => (.ok (), f s)

@[simp] theorem pure_apply (a : α) (s : σ) : (pure a : Comp ε σ α) s = (.ok a, s) := rfl

@[simp] theorem gets_apply (f : σ → α) (s : σ) : (gets f : Comp ε σ α) s = (.ok (f s), s) := rfl

@[simp] theorem modify_apply (f : σ → σ) (s : σ) : (modify f : Comp ε σ Unit) s = (.ok (), f s) :=
  rfl

/-- After a computation that ends, the next one runs. -/
theorem bind_ok {x : Comp ε σ α} {f : α → Comp ε σ β} {s s' : σ} {a : α} (h : x s = (.ok a, s')) :
    (x >>= f) s = f a s' := by
  change (match x s with | (.ok a, s') => f a s' | (.error e, s') => (.error e, s')) = _
  rw [h]

/-- After one that fails, nothing runs. -/
theorem bind_error {x : Comp ε σ α} {f : α → Comp ε σ β} {s s' : σ} {e : ε}
    (h : x s = (.error e, s')) : (x >>= f) s = (.error e, s') := by
  change (match x s with | (.ok a, s') => f a s' | (.error e, s') => (.error e, s')) = _
  rw [h]

/-- A sequence that succeeds does so in both parts. -/
theorem bind_eq_ok {x : Comp ε σ α} {f : α → Comp ε σ β} {s s'' : σ} {b : β}
    (h : (x >>= f) s = (.ok b, s'')) : ∃ a s', x s = (.ok a, s') ∧ f a s' = (.ok b, s'') := by
  rcases hx : x s with ⟨r, s'⟩
  cases r with
  | ok a => exact ⟨a, s', rfl, (bind_ok hx).symm.trans h⟩
  | error e =>
    rw [bind_error hx] at h
    cases h

@[simp] theorem gets_bind (g : σ → α) (f : α → Comp ε σ β) (s : σ) :
    ((gets g : Comp ε σ α) >>= f) s = f (g s) s := rfl

@[simp] theorem modify_bind (g : σ → σ) (f : Unit → Comp ε σ β) (s : σ) :
    ((modify g : Comp ε σ Unit) >>= f) s = f () (g s) := rfl

end Comp

/-! ## Frames -/

/-- The computation changes nothing of what `p` sees of the state, also when it raises. -/
def Keeps {φ : Type} (p : σ → φ) (x : Comp ε σ α) : Prop := ∀ s, p (x s).2 = p s

namespace Keeps

variable {φ : Type} {p : σ → φ}

/-- A value keeps the state. -/
theorem pure (a : α) : Keeps p (pure a : Comp ε σ α) := fun _ => rfl

/-- Reading keeps the state. -/
theorem gets (f : σ → α) : Keeps p (Comp.gets f : Comp ε σ α) := fun _ => rfl

/-- Two computations that keep it, one after the other. -/
theorem bind {x : Comp ε σ α} {f : α → Comp ε σ β} (hx : Keeps p x) (hf : ∀ a, Keeps p (f a)) :
    Keeps p (x >>= f) := by
  intro s
  have h := hx s
  rcases hxs : x s with ⟨r, s'⟩
  rw [hxs] at h
  cases r with
  | ok a =>
    rw [Comp.bind_ok hxs, hf a s']
    exact h
  | error e =>
    rw [Comp.bind_error hxs]
    exact h

/-- What keeps `p` keeps every view of it. -/
theorem view {χ : Type} (g : φ → χ) {x : Comp ε σ α} (hx : Keeps p x) :
    Keeps (fun s => g (p s)) x := fun s => congrArg g (hx s)

/-- A sequence whose first part keeps `p` ends in that part, or goes on from a state with the same
view. -/
theorem bind_cases {x : Comp ε σ α} {f : α → Comp ε σ β} (hx : Keeps p x) (s : σ) :
    (∃ e s', (x >>= f) s = (.error e, s') ∧ x s = (.error e, s') ∧ p s' = p s) ∨
      ∃ a s', (x >>= f) s = f a s' ∧ x s = (.ok a, s') ∧ p s' = p s := by
  have h := hx s
  rcases hxs : x s with ⟨r, s'⟩
  rw [hxs] at h
  cases r with
  | ok a => exact .inr ⟨a, s', Comp.bind_ok hxs, rfl, h⟩
  | error e => exact .inl ⟨e, s', Comp.bind_error hxs, rfl, h⟩

end Keeps

/-! ## Invariants -/

/-- What holds of the state before the computation holds of the state it leaves, also when it raises. -/
def Upholds (P : σ → Prop) (x : Comp ε σ α) : Prop := ∀ s, P s → P (x s).2

namespace Upholds

variable {P : σ → Prop}

/-- A value leaves the state. -/
theorem pure (a : α) : Upholds P (pure a : Comp ε σ α) := fun _ h => h

/-- Two computations that uphold it, one after the other. -/
theorem bind {x : Comp ε σ α} {f : α → Comp ε σ β} (hx : Upholds P x) (hf : ∀ a, Upholds P (f a)) :
    Upholds P (x >>= f) := by
  intro s hs
  have h := hx s hs
  rcases hxs : x s with ⟨r, s'⟩
  rw [hxs] at h
  cases r with
  | ok a =>
    rw [Comp.bind_ok hxs]
    exact hf a s' h
  | error e =>
    rw [Comp.bind_error hxs]
    exact h

end Upholds

/-! ## Results -/

/-- Whatever the computation returns satisfies `P`. -/
def Gives (P : α → Prop) (x : Comp ε σ α) : Prop := ∀ s a s', x s = (.ok a, s') → P a

namespace Gives

/-- A value with the property. -/
theorem pure {P : α → Prop} {a : α} (h : P a) : Gives P (pure a : Comp ε σ α) := by
  intro s b s' hb
  cases hb
  exact h

/-- A failure gives nothing. -/
theorem throw {P : α → Prop} (e : ε) : Gives P (Comp.throw e : Comp ε σ α) := by
  intro s b s' hb
  cases hb

/-- A sequence returns what its last part does. -/
theorem last {P : β → Prop} {x : Comp ε σ α} {f : α → Comp ε σ β} (hf : ∀ a, Gives P (f a)) :
    Gives P (x >>= f) := by
  intro s b s' hb
  obtain ⟨a, s₁, -, h⟩ := Comp.bind_eq_ok hb
  exact hf a _ _ _ h

/-- Two computations, the second from what the first gives. -/
theorem bind {P : α → Prop} {Q : β → Prop} {x : Comp ε σ α} {f : α → Comp ε σ β} (hx : Gives P x)
    (hf : ∀ a, P a → Gives Q (f a)) : Gives Q (x >>= f) := by
  intro s b s' hb
  obtain ⟨a, s₁, ha, h⟩ := Comp.bind_eq_ok hb
  exact hf a (hx _ _ _ ha) _ _ _ h

end Gives

/-! ## Exceptions -/

/-- Whatever the computation raises satisfies `P`. -/
def Raises (P : ε → Prop) (x : Comp ε σ α) : Prop := ∀ s e s', x s = (.error e, s') → P e

namespace Raises

variable {P : ε → Prop}

/-- A value raises nothing. -/
theorem pure (a : α) : Raises P (pure a : Comp ε σ α) := by
  intro s e s' h
  cases h

/-- A failure of the kind. -/
theorem throw {e : ε} (h : P e) : Raises P (Comp.throw e : Comp ε σ α) := by
  intro s e' s' he
  cases he
  exact h

/-- Reading raises nothing. -/
theorem gets (f : σ → α) : Raises P (Comp.gets f : Comp ε σ α) := by
  intro s e s' h
  cases h

/-- Nor does an update. -/
theorem modify (f : σ → σ) : Raises P (Comp.modify f : Comp ε σ Unit) := by
  intro s e s' h
  cases h

/-- Two computations that raise errors of the kind only. -/
theorem bind {x : Comp ε σ α} {f : α → Comp ε σ β} (hx : Raises P x) (hf : ∀ a, Raises P (f a)) :
    Raises P (x >>= f) := by
  intro s e s' h
  rcases hxs : x s with ⟨r, s₁⟩
  cases r with
  | ok a => exact hf a _ _ _ ((Comp.bind_ok hxs).symm.trans h)
  | error e' =>
    rw [Comp.bind_error hxs] at h
    cases h
    exact hx _ _ _ hxs

/-- A choice between them. -/
theorem ite {c : Prop} [Decidable c] {x y : Comp ε σ α} (hx : Raises P x) (hy : Raises P y) :
    Raises P (if c then x else y) := by
  split
  · exact hx
  · exact hy

end Raises

/-! ## Simulation of two computations -/

/-- From `s` and `t`, the two computations return the same outcome and leave states in `R`. -/
structure Sim (R : σ → τ → Prop) (x : Comp ε σ α) (y : Comp ε τ α) (s : σ) (t : τ) : Prop where
  out : (y t).1 = (x s).1
  rel : R (x s).2 (y t).2

namespace Sim

variable {R : σ → τ → Prop} {s : σ} {t : τ}

/-- The same value on both sides. -/
theorem pure {a : α} (h : R s t) :
    Sim R (pure a : Comp ε σ α) (Pure.pure a : Comp ε τ α) s t :=
  ⟨rfl, h⟩

/-- The same failure on both sides. -/
theorem throw {e : ε} (h : R s t) :
    Sim R (Comp.throw e : Comp ε σ α) (Comp.throw e : Comp ε τ α) s t :=
  ⟨rfl, h⟩

/-- Updates that keep the states related. -/
theorem modify {f : σ → σ} {g : τ → τ} (h : R (f s) (g t)) :
    Sim R (Comp.modify f : Comp ε σ Unit) (Comp.modify g) s t :=
  ⟨rfl, h⟩

/-- Sequencing: the continuations need to agree from related states only. -/
theorem bind {x : Comp ε σ α} {y : Comp ε τ α} {f : α → Comp ε σ β} {g : α → Comp ε τ β}
    (hx : Sim R x y s t)
    (hf : ∀ a s' t', x s = (.ok a, s') → y t = (.ok a, t') → R s' t' → Sim R (f a) (g a) s' t') :
    Sim R (x >>= f) (y >>= g) s t := by
  obtain ⟨hout, hrel⟩ := hx
  rcases hxs : x s with ⟨r, s'⟩
  rcases hyt : y t with ⟨r', t'⟩
  rw [hxs, hyt] at hout hrel
  cases hout
  cases r with
  | ok a =>
    have h := hf a s' t' hxs hyt hrel
    refine ⟨?_, ?_⟩
    · rw [Comp.bind_ok hxs, Comp.bind_ok hyt]
      exact h.out
    · rw [Comp.bind_ok hxs, Comp.bind_ok hyt]
      exact h.rel
  | error e =>
    refine ⟨?_, ?_⟩
    · rw [Comp.bind_error hxs, Comp.bind_error hyt]
    · rw [Comp.bind_error hxs, Comp.bind_error hyt]
      exact hrel

/-- Reading equal views of the two states. -/
theorem gets_bind {p : σ → α} {q : τ → α} {f : α → Comp ε σ β} {g : α → Comp ε τ β}
    (hpq : p s = q t) (hf : Sim R (f (p s)) (g (p s)) s t) :
    Sim R (Comp.gets p >>= f) (Comp.gets q >>= g) s t := by
  refine ⟨?_, ?_⟩
  · rw [Comp.gets_bind, Comp.gets_bind, ← hpq]
    exact hf.out
  · rw [Comp.gets_bind, Comp.gets_bind, ← hpq]
    exact hf.rel

end Sim

/-! ## Two computations with different results -/

/-- The two computations raise the same exception and leave states in `R`, or return values that `Q`
relates in the states they leave. -/
def Relates (Q : α → σ → β → τ → Prop) (R : σ → τ → Prop) (x : Comp ε σ α) (y : Comp ε τ β)
    (s : σ) (t : τ) : Prop :=
  (∃ e s' t', x s = (.error e, s') ∧ y t = (.error e, t') ∧ R s' t') ∨
    ∃ a s' b t', x s = (.ok a, s') ∧ y t = (.ok b, t') ∧ Q a s' b t'

namespace Relates

variable {γ δ : Type} {Q : α → σ → β → τ → Prop} {P : γ → σ → δ → τ → Prop} {R : σ → τ → Prop}
  {s : σ} {t : τ}

/-- A simulation relates its results by equality. -/
theorem of_sim {x : Comp ε σ α} {y : Comp ε τ α} (h : Sim R x y s t) :
    Relates (fun a s' b t' => b = a ∧ R s' t') R x y s t := by
  obtain ⟨hout, hrel⟩ := h
  rcases hx : x s with ⟨r, s'⟩
  rcases hy : y t with ⟨r', t'⟩
  rw [hx, hy] at hout hrel
  cases hout
  cases r with
  | error e => exact .inl ⟨e, s', t', hx, hy, hrel⟩
  | ok a => exact .inr ⟨a, s', a, t', hx, hy, rfl, hrel⟩

/-- Results related by equality are a simulation. -/
theorem sim {x : Comp ε σ α} {y : Comp ε τ α}
    (h : Relates (fun a s' b t' => b = a ∧ R s' t') R x y s t) : Sim R x y s t := by
  rcases h with ⟨e, s', t', hx, hy, hR⟩ | ⟨a, s', b, t', hx, hy, rfl, hR⟩
  · exact ⟨by rw [hx, hy], by rw [hx, hy]; exact hR⟩
  · exact ⟨by rw [hx, hy], by rw [hx, hy]; exact hR⟩

/-- Two related computations, one after the other. -/
theorem bind {x : Comp ε σ α} {y : Comp ε τ β} {f : α → Comp ε σ γ} {g : β → Comp ε τ δ}
    (hx : Relates Q R x y s t)
    (hf : ∀ a s' b t', x s = (.ok a, s') → y t = (.ok b, t') → Q a s' b t' →
      Relates P R (f a) (g b) s' t') : Relates P R (x >>= f) (y >>= g) s t := by
  rcases hx with ⟨e, s', t', hx, hy, hR⟩ | ⟨a, s', b, t', hx, hy, hQ⟩
  · exact .inl ⟨e, s', t', Comp.bind_error hx, Comp.bind_error hy, hR⟩
  · have h := hf a s' b t' hx hy hQ
    unfold Relates
    rw [Comp.bind_ok hx, Comp.bind_ok hy]
    exact h

/-- Reading views of the two states. -/
theorem gets_bind {p : σ → α} {q : τ → β} {f : α → Comp ε σ γ} {g : β → Comp ε τ δ}
    (h : Relates P R (f (p s)) (g (q t)) s t) :
    Relates P R (Comp.gets p >>= f) (Comp.gets q >>= g) s t := h

/-- Related values. -/
theorem pure {a : γ} {b : δ} (h : P a s b t) :
    Relates P R (pure a : Comp ε σ γ) (Pure.pure b : Comp ε τ δ) s t :=
  .inr ⟨a, s, b, t, rfl, rfl, h⟩

/-- The relation of the results may be weakened. -/
theorem mono {P' : γ → σ → δ → τ → Prop} {x : Comp ε σ γ} {y : Comp ε τ δ}
    (h : Relates P R x y s t)
    (hP : ∀ a s' b t', x s = (.ok a, s') → y t = (.ok b, t') → P a s' b t' → P' a s' b t') :
    Relates P' R x y s t := by
  rcases h with h | ⟨a, s', b, t', hx, hy, hQ⟩
  · exact .inl h
  · exact .inr ⟨a, s', b, t', hx, hy, hP a s' b t' hx hy hQ⟩

end Relates

/-! ## Simulation up to an exception -/

/-- The first computation raises an exception of `T`, or the second one simulates it. -/
def SimUnless (T : ε → Prop) (R : σ → τ → Prop) (x : Comp ε σ α) (y : Comp ε τ α) (s : σ) (t : τ) :
    Prop :=
  (∃ e, T e ∧ (x s).1 = .error e) ∨ Sim R x y s t

namespace SimUnless

variable {T : ε → Prop} {R : σ → τ → Prop} {s : σ} {t : τ}

/-- A simulation without an excuse. -/
theorem of_sim {x : Comp ε σ α} {y : Comp ε τ α} (h : Sim R x y s t) : SimUnless T R x y s t :=
  .inr h

/-- Two computations, one after the other; after an excuse nothing is asked. -/
theorem bind {x : Comp ε σ α} {y : Comp ε τ α} {f : α → Comp ε σ β} {g : α → Comp ε τ β}
    (hx : SimUnless T R x y s t)
    (hf : ∀ a s' t', x s = (.ok a, s') → R s' t' → SimUnless T R (f a) (g a) s' t') :
    SimUnless T R (x >>= f) (y >>= g) s t := by
  rcases hx with ⟨e, he, hx⟩ | ⟨hout, hrel⟩
  · have hxs : x s = (.error e, (x s).2) := Prod.ext hx rfl
    exact .inl ⟨e, he, by rw [Comp.bind_error hxs]⟩
  rcases hxs : x s with ⟨r, s'⟩
  rcases hyt : y t with ⟨r', t'⟩
  rw [hxs, hyt] at hout hrel
  cases hout
  cases r with
  | ok a =>
    rcases hf a s' t' hxs hrel with ⟨e, he, hfa⟩ | h
    · exact .inl ⟨e, he, by rw [Comp.bind_ok hxs]; exact hfa⟩
    · refine .inr ⟨?_, ?_⟩
      · rw [Comp.bind_ok hxs, Comp.bind_ok hyt]
        exact h.out
      · rw [Comp.bind_ok hxs, Comp.bind_ok hyt]
        exact h.rel
  | error e =>
    refine .inr ⟨?_, ?_⟩
    · rw [Comp.bind_error hxs, Comp.bind_error hyt]
    · rw [Comp.bind_error hxs, Comp.bind_error hyt]
      exact hrel

end SimUnless

end

end Lib
