import Mathlib.Algebra.BigOperators.Group.Finset.Basic
import Mathlib.Data.Finset.Lattice.Fold
import Mathlib.Data.Fintype.Basic

/-!
# Quantities shared out over parties

Finitely many parties each hold a share `g (p i)` of a quantity. The total is one party's share
joined with a rest that does not depend on that party's state: for sums in a commutative monoid
(`exists_rest_sum`) and for suprema in a semilattice (`exists_rest_sup`). So a step of one party
that moves part of its share elsewhere conserves the whole.
-/

namespace Lib

section
variable {ι π M : Type*} [DecidableEq ι] (g : π → M) (p : ι → π) (w : ι)

theorem forall_update {Q : π → Prop} {p : ι → π} {w : ι} {x : π} (hx : Q x) (h : ∀ i, Q (p i))
    (i : ι) : Q (Function.update p w x i) := by
  by_cases hi : i = w
  · subst hi
    rwa [Function.update_self]
  · rw [Function.update_of_ne hi]
    exact h i

variable [Fintype ι]

theorem exists_rest_sum [AddCommMonoid M] : ∃ rest, ∑ i, g (p i) = g (p w) + rest ∧
    ∀ x, ∑ i, g (Function.update p w x i) = g x + rest := by
  refine ⟨∑ i ∈ Finset.univ.erase w, g (p i), ?_, fun x => ?_⟩
  · exact (Finset.add_sum_erase _ (fun i => g (p i)) (Finset.mem_univ w)).symm
  · rw [← Finset.add_sum_erase _ _ (Finset.mem_univ w), Function.update_self]
    congr 1
    exact Finset.sum_congr rfl fun i hi => by
      rw [Function.update_of_ne (Finset.ne_of_mem_erase hi)]

theorem exists_rest_sup [SemilatticeSup M] [OrderBot M] :
    ∃ rest, (Finset.univ.sup fun i => g (p i)) = g (p w) ⊔ rest ∧
      ∀ x, (Finset.univ.sup fun i => g (Function.update p w x i)) = g x ⊔ rest := by
  have hsplit : ∀ f : ι → M, Finset.univ.sup f = f w ⊔ (Finset.univ.erase w).sup f := fun f => by
    rw [← Finset.sup_insert, Finset.insert_erase (Finset.mem_univ w)]
  refine ⟨(Finset.univ.erase w).sup fun i => g (p i), hsplit _, fun x => ?_⟩
  rw [hsplit, Function.update_self]
  congr 1
  exact Finset.sup_congr rfl fun i hi => by
    rw [Function.update_of_ne (Finset.ne_of_mem_erase hi)]

end

end Lib
