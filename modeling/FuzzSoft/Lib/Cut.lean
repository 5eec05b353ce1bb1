import Mathlib.Data.List.Basic

/-!
# Scans that stop when they have enough

A scan that appends what it finds and stops at a cap finds an initial part of all there is to find, and
all of it as long as it stays below the cap.
-/

namespace Lib

section
variable {α β : Type*} {cap found : Nat} {l l' full full' : List α}

/-- `l` is what a scan keeps of `full` when it has found `found` others before. -/
structure Cut (cap found : Nat) (l full : List α) : Prop where
  initial : l <+: full
  whole : found + l.length < cap → l = full

namespace Cut

theorem refl (cap found : Nat) (l : List α) : Cut cap found l l := ⟨List.prefix_rfl, fun _ => rfl⟩

/-- There is enough: the rest is not looked at. -/
theorem stop (h : Cut cap found l full) (henough : cap ≤ found + l.length) :
    Cut cap found l (full ++ full') :=
  ⟨h.initial.trans (List.prefix_append _ _), fun hlt => absurd hlt (Nat.not_lt.mpr henough)⟩

/-- There is not enough yet: the rest is scanned. -/
theorem more (h : Cut cap found l full) (hlt : found + l.length < cap)
    (h' : Cut cap (found + l.length) l' full') : Cut cap found (l ++ l') (full ++ full') := by
  cases h.whole hlt
  refine ⟨(List.prefix_append_right_inj _).mpr h'.initial, fun hall => ?_⟩
  rw [h'.whole (by rwa [List.length_append, ← Nat.add_assoc] at hall)]

theorem map (h : Cut cap found l full) (f : α → β) : Cut cap found (l.map f) (full.map f) :=
  ⟨h.initial.map f, fun hlt => by rw [h.whole (by rwa [List.length_map] at hlt)]⟩

theorem mem (h : Cut cap found l full) {a : α} (ha : a ∈ l) : a ∈ full := h.initial.subset ha

/-- A scan that starts below the cap finds the first of what there is first. -/
theorem head? (h : Cut cap found l full) (hlt : found < cap) {a : α} {rest : List α}
    (hfull : full = a :: rest) : l[0]? = some a := by
  cases l with
  | nil => cases (h.whole hlt).trans hfull
  | cons b l =>
    have hb := h.initial
    rw [hfull, List.cons_prefix_cons] at hb
    rw [hb.1, List.getElem?_cons_zero]

theorem eq_nil_iff (h : Cut cap found l full) (hlt : found < cap) : l = [] ↔ full = [] := by
  constructor
  · rintro rfl
    exact (h.whole hlt).symm
  · rintro rfl
    exact List.prefix_nil.mp h.initial

end Cut

end

end Lib
