import Mathlib.Logic.Basic

/-!
# Computations that draw from a state and may panic

A generator takes a state, such as a pseudo-random one, to a value and a new state, or panics.
`Ensures` is total correctness: from every state the generator returns, and its value satisfies the
postcondition.
-/

namespace Lib

section
variable {σ α β : Type}

/-- A computation of `α` over the state `σ` that may panic. -/
def Gen (σ α : Type) := σ → Option (α × σ)

namespace Gen

protected def pure (a : α) : Gen σ α := fun s => some (a, s)

protected def bind (x : Gen σ α) (f : α → Gen σ β) : Gen σ β := fun s =>
  match x s with
  | some (a, s') => f a s'
  | none => none

instance : Monad (Gen σ) where
  pure := Gen.pure
  bind := Gen.bind

/-- Panic unless there is a value. -/
def expect (o : Option α) : Gen σ α := fun s => o.map (·, s)

/-- Index a slice. -/
def index (l : List α) (i : Nat) : Gen σ α := expect l[i]?

/-- Assign to an element of a slice. -/
def assign (l : List α) (i : Nat) (a : α) : Gen σ (List α) :=
  expect (if i < l.length then some (l.set i a) else none)

/-- The first `n` elements of a slice. -/
def slice (l : List α) (n : Nat) : Gen σ (List α) :=
  expect (if n ≤ l.length then some (l.take n) else none)

/-- Insert an element into a vector. -/
def insertAt (l : List α) (i : Nat) (a : α) : Gen σ (List α) :=
  expect (if i ≤ l.length then some (l.insertIdx i a) else none)

/-- Remove an element of a vector. -/
def removeAt (l : List α) (i : Nat) : Gen σ (List α) :=
  expect (if i < l.length then some (l.eraseIdx i) else none)

/-- Draw `n` values. -/
def collect (x : Gen σ α) : Nat → Gen σ (List α)
  | 0 => Gen.pure []
  | n + 1 => do
    let a ← x
    let as ← collect x n
    Gen.pure (a :: as)

/-- A loop of `n` passes on an accumulator; the first pass has number `i`. -/
def loop (f : Nat → α → Gen σ α) : Nat → Nat → α → Gen σ α
  | _, 0, a => Gen.pure a
  | i, n + 1, a => do
    let a' ← f i a
    loop f (i + 1) n a'

/-- Two generators, one after the other. -/
theorem bind_eq (x : Gen σ α) (f : α → Gen σ β) (s : σ) :
    (x >>= f) s = (x s).bind fun r => f r.1 r.2 := by
  change (match x s with | some (a, s') => f a s' | none => none) = _
  cases x s <;> rfl

/-- Go on after a computation that returns. -/
theorem bind_some {x : Gen σ α} {s s' : σ} {a : α} (h : x s = some (a, s')) (f : α → Gen σ β) :
    (x >>= f) s = f a s' := by
  rw [bind_eq, h]
  rfl

/-- An index in range. -/
theorem index_some {l : List α} {i : Nat} {a : α} (h : l[i]? = some a) (s : σ) :
    index l i s = some (a, s) := by
  rw [index, expect, h]
  rfl

/-- From every state the computation returns, with a value that satisfies `P`. -/
def Ensures (x : Gen σ α) (P : α → Prop) : Prop := ∀ s, ∃ a s', x s = some (a, s') ∧ P a

/-- A value with the property. -/
theorem ensures_pure {P : α → Prop} {a : α} (h : P a) : Ensures (pure a : Gen σ α) P :=
  fun s => ⟨a, s, rfl, h⟩

/-- Two generators, the second from what the first gives. -/
theorem ensures_bind {x : Gen σ α} {f : α → Gen σ β} {P : α → Prop} {Q : β → Prop}
    (hx : Ensures x P) (hf : ∀ a, P a → Ensures (f a) Q) : Ensures (x >>= f) Q := by
  intro s
  obtain ⟨a, s', hs, ha⟩ := hx s
  obtain ⟨b, s'', hb, hq⟩ := hf a ha s'
  refine ⟨b, s'', ?_, hq⟩
  change (match x s with | some (a, s') => f a s' | none => none) = _
  rw [hs]
  exact hb

/-- The property may be weakened. -/
theorem Ensures.mono {x : Gen σ α} {P Q : α → Prop} (h : Ensures x P) (hpq : ∀ a, P a → Q a) :
    Ensures x Q := fun s =>
  let ⟨a, s', hs, ha⟩ := h s
  ⟨a, s', hs, hpq a ha⟩

/-- A choice between two. -/
theorem ensures_ite {c : Prop} [Decidable c] {x y : Gen σ α} {P : α → Prop}
    (hx : c → Ensures x P) (hy : ¬ c → Ensures y P) : Ensures (if c then x else y) P := by
  split
  next h => exact hx h
  next h => exact hy h

/-- What is there is found. -/
theorem ensures_expect {o : Option α} {a : α} (h : o = some a) :
    Ensures (expect o : Gen σ α) (· = a) :=
  fun s => ⟨a, s, by rw [h]; rfl, rfl⟩

/-- An index in range is found. -/
theorem ensures_index {l : List α} {i : Nat} (h : i < l.length) :
    Ensures (index l i : Gen σ α) (l[i]? = some ·) :=
  (ensures_expect (List.getElem?_eq_getElem h)).mono fun _ ha => ha ▸ List.getElem?_eq_getElem h

/-- An index in range is assigned. -/
theorem ensures_assign {l : List α} {i : Nat} (h : i < l.length) (a : α) :
    Ensures (assign l i a : Gen σ (List α)) (· = l.set i a) :=
  ensures_expect (if_pos h)

/-- A slice within the list is taken. -/
theorem ensures_slice {l : List α} {n : Nat} (h : n ≤ l.length) :
    Ensures (slice l n : Gen σ (List α)) (· = l.take n) :=
  ensures_expect (if_pos h)

/-- An insertion within the list is made. -/
theorem ensures_insertAt {l : List α} {i : Nat} (h : i ≤ l.length) (a : α) :
    Ensures (insertAt l i a : Gen σ (List α)) (· = l.insertIdx i a) :=
  ensures_expect (if_pos h)

/-- So is a removal. -/
theorem ensures_removeAt {l : List α} {i : Nat} (h : i < l.length) :
    Ensures (removeAt l i : Gen σ (List α)) (· = l.eraseIdx i) :=
  ensures_expect (if_pos h)

/-- Collecting gives so many values with the property. -/
theorem ensures_collect {x : Gen σ α} {P : α → Prop} (h : Ensures x P) (n : Nat) :
    Ensures (collect x n) fun as => as.length = n ∧ ∀ a ∈ as, P a := by
  induction n with
  | zero => exact ensures_pure ⟨rfl, by simp⟩
  | succ n ih =>
    refine ensures_bind h fun a ha => ensures_bind ih fun as has => ?_
    refine ensures_pure ⟨congrArg (· + 1) has.1, ?_⟩
    rintro b (_ | ⟨_, hb⟩)
    · exact ha
    · exact has.2 b hb

/-- A loop invariant that counts the passes. -/
theorem ensures_loop {f : Nat → α → Gen σ α} {I : Nat → α → Prop} (n : Nat) :
    ∀ {i : Nat} {a : α}, (∀ j a, i ≤ j → j < i + n → I j a → Ensures (f j a) (I (j + 1))) → I i a →
      Ensures (loop f i n a) (I (i + n)) := by
  induction n with
  | zero => intro i a _ ha; exact ensures_pure ha
  | succ n ih =>
    intro i a h ha
    refine ensures_bind (h i a (Nat.le_refl i) (by omega) ha) fun b hb => ?_
    rw [← Nat.add_assoc, Nat.add_right_comm i n 1]
    exact ih (fun j a hj hjn => h j a (by omega) (by omega)) hb

/-- A loop that keeps an invariant. -/
theorem ensures_foldlM {f : β → α → Gen σ β} {I : β → Prop}
    (h : ∀ b a, I b → Ensures (f b a) I) : ∀ (l : List α) (b : β), I b → Ensures (l.foldlM f b) I
  | [], _, hb => ensures_pure hb
  | a :: l, b, hb => by
    rw [List.foldlM_cons]
    exact ensures_bind (h b a hb) fun b' hb' => ensures_foldlM h l b' hb'

end Gen

end

end Lib
