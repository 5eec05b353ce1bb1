import Mathlib

/-!
# Computations that return errors and may panic

A computation ends with a value, with an error that its caller sees, or in a panic, which no caller
sees. Sums and products of machine words panic where they do not fit. A computation is safe if it
does not panic; the rules show it piece by piece, with what the pieces before it returned.
-/

namespace Lib

/-- `error (some e)` is the error `e`, `error none` a panic. -/
abbrev Guarded (ε α : Type) := Except (Option ε) α

namespace Guarded

section
variable {ε α β : Type}

def panic : Guarded ε α := .error none

def fail (e : ε) : Guarded ε α := .error (some e)

/-- The sum of two words of `w` bits. -/
def add (w a b : Nat) : Guarded ε Nat := if a + b < 2 ^ w then .ok (a + b) else panic

/-- The product of two words of `w` bits. -/
def mul (w a b : Nat) : Guarded ε Nat := if a * b < 2 ^ w then .ok (a * b) else panic

/-- Their difference. -/
def sub (a b : Nat) : Guarded ε Nat := if b ≤ a then .ok (a - b) else panic

/-- Forget which error it was. -/
def optional (x : Guarded ε α) : Guarded Unit α := x.mapError (Option.map fun _ => ())

/-- It does not panic. -/
def Safe (x : Guarded ε α) : Prop := x ≠ .error none

/-- A value does not panic. -/
theorem safe_ok (a : α) : Safe (.ok a : Guarded ε α) := nofun

/-- Nor does a pure one. -/
theorem safe_pure (a : α) : Safe (pure a : Guarded ε α) := nofun

/-- Nor does a failure. -/
theorem safe_fail (e : ε) : Safe (fail e : Guarded ε α) := nofun

/-- Two computations that do not panic. -/
theorem Safe.bind {x : Guarded ε α} {f : α → Guarded ε β} (hx : Safe x)
    (hf : ∀ a, x = .ok a → Safe (f a)) : Safe (x >>= f) := by
  match x, hx with
  | .ok a, _ => exact hf a rfl
  | .error (some e), _ => exact safe_fail e

/-- A sequence panics where one of its parts does. -/
theorem safe_bind_iff {x : Guarded ε α} {f : α → Guarded ε β} :
    Safe (x >>= f) ↔ Safe x ∧ ∀ a, x = .ok a → Safe (f a) := by
  refine ⟨fun h => ⟨?_, ?_⟩, fun h => h.1.bind h.2⟩
  · rintro rfl
    exact h rfl
  · rintro a rfl
    exact h

/-- An ignored failure does not panic. -/
theorem safe_optional {x : Guarded ε α} (hx : Safe x) : Safe (optional x) := by
  match x, hx with
  | .ok a, _ => exact safe_ok a
  | .error (some e), _ => exact safe_fail ()

/-- A sum that fits. -/
theorem add_eq {w a b : Nat} (h : a + b < 2 ^ w) : (add w a b : Guarded ε Nat) = .ok (a + b) :=
  if_pos h

/-- A product that fits. -/
theorem mul_eq {w a b : Nat} (h : a * b < 2 ^ w) : (mul w a b : Guarded ε Nat) = .ok (a * b) :=
  if_pos h

/-- A difference that does not wrap. -/
theorem sub_eq {a b : Nat} (h : b ≤ a) : (sub a b : Guarded ε Nat) = .ok (a - b) := if_pos h

/-- A sum panics where it does not fit. -/
theorem safe_add {w a b : Nat} : Safe (add w a b : Guarded ε Nat) ↔ a + b < 2 ^ w := by
  unfold add
  split
  next h => exact ⟨fun _ => h, fun _ => safe_ok _⟩
  next h => exact ⟨fun hs => absurd rfl hs, fun h' => absurd h' h⟩

/-- A sequence that ends with a value does so in both parts. -/
theorem bind_eq_ok {x : Guarded ε α} {f : α → Guarded ε β} {b : β} (h : x >>= f = .ok b) :
    ∃ a, x = .ok a ∧ f a = .ok b := by
  match x, h with
  | .ok a, h => exact ⟨a, rfl, h⟩

/-- After a value, the next computation runs. -/
theorem bind_ok {x : Guarded ε α} {f : α → Guarded ε β} {a : α} (h : x = .ok a) :
    x >>= f = f a := by
  rw [h]
  rfl

end

end Guarded

end Lib
