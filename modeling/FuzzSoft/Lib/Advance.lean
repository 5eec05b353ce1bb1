import Mathlib.Order.Lattice
import Mathlib.Order.BoundedOrder.Lattice
import Mathlib.Data.List.Perm.Basic

/-!
# Sequences that advance a join

A join accumulates the values of a list of items, and an item advances it if its value is not below what
the items before it reach. The items that advance reach as much as all of them (`reach_advancing`), and
each of them still advances when the others are gone (`advancing_advancing`).
-/

namespace Lib

section
variable {ι α : Type*} [SemilatticeSup α] (f : ι → α)

/-- The join of the values of some items with what was reached before. -/
def reach (a : α) (l : List ι) : α := l.foldl (fun a i => a ⊔ f i) a

/-- The items that advance the join. -/
def advancing [DecidableRel (α := α) (· ≤ ·)] (a : α) : List ι → List ι
  | [] => []
  | i :: l => if f i ≤ a then advancing a l else i :: advancing (a ⊔ f i) l

variable {f} {a : α} {l l' : List ι}

/-- The order of the items does not matter. -/
theorem reach_perm (h : l.Perm l') (a : α) : reach f a l = reach f a l' :=
  h.foldl_eq' (fun i _ j _ a => sup_right_comm a (f i) (f j)) a

variable [DecidableRel (α := α) (· ≤ ·)]

/-- The items that do not advance the join do not add to it. -/
theorem reach_advancing (a : α) (l : List ι) : reach f a (advancing f a l) = reach f a l := by
  induction l generalizing a with
  | nil => rfl
  | cons i l ih =>
    rw [advancing]
    split
    next h =>
      show _ = reach f (a ⊔ f i) l
      rw [sup_eq_left.mpr h, ih]
    next h => exact ih (a ⊔ f i)

/-- An item that advances still does when those that do not are gone. -/
theorem advancing_advancing (a : α) (l : List ι) : advancing f a (advancing f a l) = advancing f a l := by
  induction l generalizing a with
  | nil => rfl
  | cons i l ih =>
    rw [advancing]
    split
    next h => exact ih a
    next h => rw [advancing, if_neg h, ih]

/-- The items that advance are those whose value is not below what the items before them reach. -/
theorem advancing_eq_filter (a : α) (l : List ι) (k : Nat) :
    advancing f a l =
      ((l.zipIdx k).filter fun p => ¬ f p.1 ≤ reach f a (l.take (p.2 - k))).map Prod.fst := by
  induction l generalizing a k with
  | nil => rfl
  | cons i l ih =>
    -- the items after the first start from its join
    have hrest : ∀ p ∈ l.zipIdx (k + 1),
        (decide ¬ f p.1 ≤ reach f a ((i :: l).take (p.2 - k))) =
          decide ¬ f p.1 ≤ reach f (a ⊔ f i) (l.take (p.2 - (k + 1))) := by
      intro p hp
      have hk := List.le_snd_of_mem_zipIdx hp
      obtain ⟨m, hm⟩ : ∃ m, p.2 = k + 1 + m := ⟨p.2 - (k + 1), by omega⟩
      rw [hm, show k + 1 + m - k = m + 1 by omega, show k + 1 + m - (k + 1) = m by omega]
      rfl
    rw [List.zipIdx_cons, List.filter_cons, Nat.sub_self, advancing]
    by_cases h : f i ≤ a
    · have hfirst : ¬ (decide ¬ f i ≤ reach f a ((i :: l).take 0)) = true := fun hd =>
        of_decide_eq_true hd h
      rw [if_pos h, if_neg hfirst, List.filter_congr hrest, ih a (k + 1)]
      rw [sup_eq_left.mpr h]
    · have hfirst : (decide ¬ f i ≤ reach f a ((i :: l).take 0)) = true := decide_eq_true h
      rw [if_neg h, if_pos hfirst, List.map_cons, List.filter_congr hrest, ih (a ⊔ f i) (k + 1)]

end

end Lib
