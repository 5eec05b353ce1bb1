import FuzzSoft.Riscv.Frame

/-!
# What an access sees

A guest access sees the CSRs, the privilege, the TLB and the bus, and nothing else of a hart. So two
systems that agree on these answer alike (`SameView.loadImpl`, `SameView.storeImpl`), wherever their
harts stand and whatever is in their registers.
-/

namespace FuzzSoft

open Lib

section
variable {β : Type}

/-- The systems agree on what an access sees. -/
structure SameView (s t : Sys β) : Prop where
  csr : t.hart.csr = s.hart.csr
  privilege : t.hart.privilege = s.hart.privilege
  tlb : t.cpu.tlb = s.cpu.tlb
  bus : t.bus = s.bus

namespace SameView

variable {s t : Sys β}

/-- The same accesses are translated. -/
theorem untranslated (h : SameView s t) (access : Access) :
    t.hart.untranslated access = s.hart.untranslated access := by
  unfold Hart.untranslated Hart.effectivePriv
  rw [h.csr, h.privilege]

/-- The same leaves allow them. -/
theorem leafOk (h : SameView s t) (access : Access) (bits : LeafBits) :
    t.hart.leafOk access bits = s.hart.leafOk access bits := by
  unfold Hart.leafOk Hart.sum Hart.mxr Hart.effectivePriv
  rw [h.csr, h.privilege]

/-- The same addresses are granted. -/
theorem fastPa (h : SameView s t) (va : U32) (access : Access) :
    t.cpu.fastPa va access = s.cpu.fastPa va access := by
  have hu : t.cpu.toHart.untranslated access = s.cpu.toHart.untranslated access :=
    h.untranslated access
  have hok : ∀ bits, t.cpu.toHart.leafOk access bits = s.cpu.toHart.leafOk access bits :=
    h.leafOk access
  unfold Cpu.fastPa
  rw [hu, h.tlb]
  simp only [hok]

variable [Bus β]

/-- A walk finds the same leaf. -/
theorem usableLeaf (h : SameView s t) (va : U32) (access : Access) :
    usableLeaf t.hart t.bus va access = usableLeaf s.hart s.bus va access := by
  unfold FuzzSoft.usableLeaf
  rw [h.csr, h.bus]
  simp only [h.leafOk]

/-- A page walk with its fill of the TLB. -/
theorem walkFill (h : SameView s t) (va : U32) (access : Access) :
    Sim SameView (walkFill va access) (walkFill va access) s t := by
  unfold FuzzSoft.walkFill
  refine ⟨?_, ?_⟩ <;> rw [h.usableLeaf, h.bus, h.tlb]
  · split
    · rfl
    · split <;> rfl
  · split
    · exact h
    · split
      · exact ⟨h.csr, h.privilege, h.tlb, rfl⟩
      · exact ⟨h.csr, h.privilege, rfl, rfl⟩

/-- A translation. -/
theorem xlate (h : SameView s t) (va : U32) (access : Access) :
    Sim SameView (xlate va access) (xlate va access) s t := by
  have hwalk := h.walkFill va access
  unfold FuzzSoft.xlate
  refine ⟨?_, ?_⟩ <;> rw [h.untranslated, h.tlb] <;> simp only [h.leafOk]
  all_goals
    split
    · first | rfl | exact h
    split
    · split
      · first | rfl | exact h
      split
      · first | rfl | exact h
      · first | exact hwalk.out | exact hwalk.rel
    · first | exact hwalk.out | exact hwalk.rel

/-- A bus load. -/
theorem busLoad (h : SameView s t) (pa : U32) (n : Nat) :
    Sim SameView (busLoad pa n) (busLoad pa n) s t :=
  ⟨by simp only [FuzzSoft.busLoad, h.bus], h⟩

/-- A bus store. -/
theorem busStore (h : SameView s t) (pa : U32) (n : Nat) (v : U32) :
    Sim SameView (busStore pa n v) (busStore pa n v) s t :=
  ⟨by simp only [FuzzSoft.busStore, h.bus], h.csr, h.privilege, h.tlb,
    by simp only [FuzzSoft.busStore, h.bus]⟩

/-- A load without its taint. -/
theorem loadImpl (h : SameView s t) (va : U32) (size : Nat) (signed : Bool) :
    Sim SameView (loadImpl va size signed) (loadImpl va size signed) s t := by
  refine Sim.bind ?_ fun _ _ _ _ _ h' => Sim.pure h'
  unfold loadSpan
  split
  · refine gather_sim (fun h va => ?_) va 0 size h
    refine (h.xlate va .read).bind fun pa _ _ _ _ h' => ?_
    exact (h'.busLoad pa 1).bind fun _ _ _ _ _ h'' => Sim.pure h''
  · exact (h.xlate va .read).bind fun pa _ _ _ _ h' => h'.busLoad pa size

/-- A store without its taint. -/
theorem storeImpl (h : SameView s t) (va : U32) (size : Nat) (val : U32) :
    Sim SameView (storeImpl va size val) (storeImpl va size val) s t := by
  unfold FuzzSoft.storeImpl
  split
  · refine scatter_sim (fun h j _ _ => ?_) h
    exact (h.xlate _ .write).bind fun pa _ _ _ _ h' => h'.busStore pa 1 _
  · exact (h.xlate va .write).bind fun pa _ _ _ _ h' => h'.busStore pa size val

end SameView

end

end FuzzSoft
