import FuzzSoft.Vec.Cpu
import FuzzSoft.Vec.Lanes

/-!
# The step of a lane

What a step does to a lane is seen in the lane's own registers and words (`VecState.view`). A lane's
step depends on its view and changes no other, so the loop over the lanes does to each active lane
what its step alone does (`view_laneLoop`).
-/

namespace FuzzSoft

open Lib

/-! ## The view of a lane -/

/-- What one lane sees of the state. -/
structure LaneView where
  regs : Reg → U32
  pc : U32
  active : Bool
  insnsRetired : U64
  exit : Option VecCpu.LaneExit
  reservation : Option U32
  mem : LaneMem

namespace VecState

def view (l : Lane) (s : VecState) : LaneView where
  regs := fun i => s.cpu.regs i l
  pc := s.cpu.pc l
  active := s.cpu.active l
  insnsRetired := s.cpu.insnsRetired l
  exit := s.cpu.exit l
  reservation := s.cpu.reservation l
  mem := s.mmu.view l

end VecState

namespace LaneView

def rdReg (v : LaneView) (i : Reg) : U32 := if i = 0 then 0 else v.regs i

def wrReg (v : LaneView) (i : Reg) (x : U32) : LaneView :=
  if i = 0 then v else { v with regs := Function.update v.regs i x }

def halt (v : LaneView) (e : VecCpu.LaneExit) : LaneView := { v with active := false, exit := some e }

def setReservation (v : LaneView) (r : Option U32) : LaneView := { v with reservation := r }

def retire (v : LaneView) (next : U32) : LaneView :=
  { v with pc := next, insnsRetired := v.insnsRetired + 1 }

end LaneView

namespace VecState

variable {s t : VecState} {l l' : Lane}

/-- A register of a lane. -/
theorem rdReg_view (s : VecState) (l : Lane) (i : Reg) : s.rdReg l i = (s.view l).rdReg i := rfl

@[simp] theorem view_wrReg (s : VecState) (l : Lane) (i : Reg) (v : U32) :
    (s.wrReg l i v).view l = (s.view l).wrReg i v := by
  unfold wrReg VecCpu.wrReg LaneView.wrReg
  split
  · rfl
  · simp only [view, LaneView.mk.injEq, and_true]
    funext j
    by_cases hj : j = i
    · subst hj
      simp
    · simp [Function.update_of_ne hj]

@[simp] theorem view_halt (s : VecState) (l : Lane) (e : VecCpu.LaneExit) :
    (s.halt l e).view l = (s.view l).halt e := by
  simp [halt, VecCpu.halt, view, LaneView.halt]

@[simp] theorem view_setReservation (s : VecState) (l : Lane) (r : Option U32) :
    (s.setReservation l r).view l = (s.view l).setReservation r := by
  simp [setReservation, VecCpu.setReservation, view, LaneView.setReservation]

@[simp] theorem view_retire (s : VecState) (l : Lane) (next : U32) :
    ({ s with cpu := s.cpu.retire l next } : VecState).view l = (s.view l).retire next := by
  simp [VecCpu.retire, view, LaneView.retire]

/-! ### Other lanes -/

/-- A register write leaves the other lanes. -/
theorem view_wrReg_of_ne (s : VecState) (h : l' ≠ l) (i : Reg) (v : U32) :
    (s.wrReg l i v).view l' = s.view l' := by
  unfold wrReg VecCpu.wrReg
  split
  · rfl
  · simp only [view, LaneView.mk.injEq, and_true]
    funext j
    by_cases hj : j = i
    · subst hj
      simp [Function.update_of_ne h]
    · simp [Function.update_of_ne hj]

/-- So does a halt. -/
theorem view_halt_of_ne (s : VecState) (h : l' ≠ l) (e : VecCpu.LaneExit) :
    (s.halt l e).view l' = s.view l' := by
  simp [halt, VecCpu.halt, view, Function.update_of_ne h]

/-- So does a reservation. -/
theorem view_setReservation_of_ne (s : VecState) (h : l' ≠ l) (r : Option U32) :
    (s.setReservation l r).view l' = s.view l' := by
  simp [setReservation, VecCpu.setReservation, view, Function.update_of_ne h]

/-- So does retiring. -/
theorem view_retire_of_ne (s : VecState) (h : l' ≠ l) (next : U32) :
    ({ s with cpu := s.cpu.retire l next } : VecState).view l' = s.view l' := by
  simp [VecCpu.retire, view, Function.update_of_ne h]

/-- So does a store. -/
theorem storeLane_of_ne (h : l' ≠ l) {a : U32} {n : Nat} {v : U32}
    (hs : s.storeLane l a n v = .ok t) : t.view l' = s.view l' := by
  have hm := s.mmu.view_storeLane_of_ne h a n v
  unfold storeLane at hs
  split at hs
  · cases hs
  next m he =>
    cases hs
    rw [he] at hm
    simp only [view]
    rw [show VecMmu.view l' m = VecMmu.view l' s.mmu from hm]

/-- An instruction that does not stop its lane keeps what register writes, reservations and stores of
the lane keep. -/
theorem execLane_keeps {P : VecState → Prop} (hw : ∀ s i v, P s → P (s.wrReg l i v))
    (hr : ∀ s r, P s → P (s.setReservation l r))
    (hst : ∀ s t a n v, s.storeLane l a n v = .ok t → P s → P t) {inst : Inst}
    {pc next iword n : U32} (hs : s.execLane l inst pc next iword = .ok (n, t)) (h : P s) : P t := by
  cases inst with
  | lui | auipc | jal | jalr | opImm | op | mul =>
    cases hs
    exact hw _ _ _ h
  | branch | fence =>
    cases hs
    exact h
  | load =>
    rw [execLane] at hs
    split at hs
    · cases hs
    · cases hs
      exact hw _ _ _ h
  | store =>
    rw [execLane] at hs
    split at hs
    · cases hs
    next hok =>
      cases hs
      exact hst _ _ _ _ _ hok h
  | lrW =>
    rw [execLane] at hs
    split at hs
    · cases hs
    · cases hs
      exact hw _ _ _ (hr _ _ h)
  | scW =>
    rw [execLane] at hs
    split at hs
    · split at hs
      · cases hs
      next hok =>
        cases hs
        exact hw _ _ _ (hr _ _ (hst _ _ _ _ _ hok h))
    · cases hs
      exact hw _ _ _ (hr _ _ h)
  | amoW =>
    rw [execLane] at hs
    split at hs
    · cases hs
    · split at hs
      · cases hs
      next hok =>
        cases hs
        exact hw _ _ _ (hr _ _ (hst _ _ _ _ _ hok h))
  | ecall | ebreak | csr | mret | sret | wfi | sfenceVma | illegal => cases hs

/-- A step keeps what its halts, retirements, register writes, reservations and stores keep. -/
theorem stepLane_keeps {P : VecState → Prop} (hw : ∀ s i v, P s → P (s.wrReg l i v))
    (hr : ∀ s r, P s → P (s.setReservation l r))
    (hst : ∀ s t a n v, s.storeLane l a n v = .ok t → P s → P t)
    (hh : ∀ s e, P s → P (s.halt l e))
    (hret : ∀ s next, P s → P { s with cpu := s.cpu.retire l next }) (h : P s) :
    P (s.stepLane l) := by
  unfold stepLane
  dsimp only
  split
  · exact hh _ _ h
  · split
    · exact hh _ _ h
    next hex => exact hret _ _ (execLane_keeps hw hr hst hex h)

/-- The step of a lane changes no other lane. -/
theorem stepLane_of_ne (s : VecState) (hl : l' ≠ l) : (s.stepLane l).view l' = s.view l' :=
  @stepLane_keeps s l (fun t => t.view l' = s.view l')
    (fun _ _ _ h => (view_wrReg_of_ne _ hl _ _).trans h)
    (fun _ _ h => (view_setReservation_of_ne _ hl _).trans h)
    (fun _ _ _ _ _ hok h => (storeLane_of_ne hl hok).trans h)
    (fun _ _ h => (view_halt_of_ne _ hl _).trans h)
    (fun _ _ h => (view_retire_of_ne _ hl _).trans h) rfl

/-- The step of a lane leaves the row of `x0` alone. -/
theorem stepLane_x0 (s : VecState) (l : Lane) : (s.stepLane l).cpu.regs 0 = s.cpu.regs 0 := by
  refine @stepLane_keeps s l (fun t => t.cpu.regs 0 = s.cpu.regs 0) ?_ ?_ ?_ ?_ ?_ rfl
  · intro t i v h
    refine Eq.trans ?_ h
    unfold wrReg VecCpu.wrReg
    split
    · rfl
    next hi => exact Function.update_of_ne (Ne.symm hi) _ _
  · exact fun t r h => h
  · intro t u a n v hok h
    unfold storeLane at hok
    split at hok <;> cases hok
    exact h
  · exact fun t e h => h
  · exact fun t next h => h

/-! ### The own lane -/

/-- A fetch looks at its own lane. -/
theorem fetchLane_congr (h : s.view l = t.view l) (pc : U32) :
    s.fetchLane l pc = t.fetchLane l pc := by
  have hm : s.mmu.view l = t.mmu.view l := congrArg LaneView.mem h
  simp only [fetchLane, VecMmu.ifetch16Lane_congr hm]

/-- So does a store. -/
theorem storeLane_congr (h : s.view l = t.view l) (a : U32) (n : Nat) (v : U32) :
    (s.storeLane l a n v).map (view l) = (t.storeLane l a n v).map (view l) := by
  have hm : s.mmu.view l = t.mmu.view l := congrArg LaneView.mem h
  obtain ⟨h1, h2⟩ := VecMmu.view_storeLane_congr hm a n v
  unfold storeLane
  rcases hs : s.mmu.storeLane l a n v with ⟨r, m⟩
  rcases ht : t.mmu.storeLane l a n v with ⟨r', m'⟩
  rw [hs, ht] at h1 h2
  cases h1
  cases r with
  | error f => rfl
  | ok u =>
    show Except.ok { s.view l with mem := m.view l } = Except.ok { t.view l with mem := m'.view l }
    rw [h, show m.view l = m'.view l from h2]

/-- An outcome for a lane as the lane sees it. -/
def outcome (l : Lane) (r : Except VecCpu.LaneExit (U32 × VecState)) :
    Except VecCpu.LaneExit (U32 × LaneView) := r.map fun p => (p.1, p.2.view l)

/-- What an instruction does to its lane depends on the lane only. -/
theorem execLane_congr (h : s.view l = t.view l) (inst : Inst) (pc next iword : U32) :
    outcome l (s.execLane l inst pc next iword) = outcome l (t.execLane l inst pc next iword) := by
  have hm : s.mmu.view l = t.mmu.view l := congrArg LaneView.mem h
  have hr : ∀ i, s.rdReg l i = t.rdReg l i := fun i => by rw [rdReg_view, rdReg_view, h]
  have hres : s.cpu.reservation l = t.cpu.reservation l := congrArg LaneView.reservation h
  have hst := fun a n v => storeLane_congr h a n v
  cases inst with
  | lui | auipc | jal | jalr | opImm | op | mul =>
    simp only [execLane, outcome, Except.map, view_wrReg, h, hr]
  | branch => simp only [execLane, outcome, Except.map, h, hr]
  | fence => simp only [execLane, outcome, Except.map, h]
  | load op rd rs1 imm =>
    simp only [execLane, hr, VecMmu.loadLane_congr hm]
    cases t.mmu.loadLane l (t.rdReg l rs1 + imm) op.size with
    | error f => rfl
    | ok raw => simp only [outcome, Except.map, view_wrReg, h]
  | store op rs1 rs2 imm =>
    simp only [execLane, hr]
    have := hst (t.rdReg l rs1 + imm) op.size (t.rdReg l rs2)
    cases hs : s.storeLane l (t.rdReg l rs1 + imm) op.size (t.rdReg l rs2) <;>
      cases ht : t.storeLane l (t.rdReg l rs1 + imm) op.size (t.rdReg l rs2) <;>
      simp_all [outcome, Except.map]
  | lrW rd rs1 =>
    simp only [execLane, hr, VecMmu.loadLane_congr hm]
    cases t.mmu.loadLane l (t.rdReg l rs1) 4 with
    | error f => rfl
    | ok v => simp only [outcome, Except.map, view_wrReg, view_setReservation, h]
  | scW rd rs1 rs2 =>
    simp only [execLane, hr, hres]
    split
    · have := hst (t.rdReg l rs1) 4 (t.rdReg l rs2)
      cases hs : s.storeLane l (t.rdReg l rs1) 4 (t.rdReg l rs2) <;>
        cases ht : t.storeLane l (t.rdReg l rs1) 4 (t.rdReg l rs2) <;>
        simp_all [outcome, Except.map]
    · simp only [outcome, Except.map, view_wrReg, view_setReservation, h]
  | amoW op rd rs1 rs2 =>
    simp only [execLane, hr, VecMmu.loadLane_congr hm]
    cases t.mmu.loadLane l (t.rdReg l rs1) 4 with
    | error f => rfl
    | ok old =>
      have := hst (t.rdReg l rs1) 4 (amoResult op old (t.rdReg l rs2))
      dsimp only
      cases hs : s.storeLane l (t.rdReg l rs1) 4 (amoResult op old (t.rdReg l rs2)) <;>
        cases ht : t.storeLane l (t.rdReg l rs1) 4 (amoResult op old (t.rdReg l rs2)) <;>
        simp_all [outcome, Except.map]
  | ecall => simp only [execLane, outcome, Except.map, hr]
  | ebreak | csr | mret | sret | wfi | sfenceVma | illegal => rfl

/-- The step of a lane depends on the lane only. -/
theorem stepLane_congr (h : s.view l = t.view l) : (s.stepLane l).view l = (t.stepLane l).view l := by
  have hpc : s.cpu.pc l = t.cpu.pc l := congrArg LaneView.pc h
  unfold stepLane
  simp only [hpc, fetchLane_congr h]
  cases t.fetchLane l (t.cpu.pc l) with
  | error f => simp only [view_halt, h]
  | ok f =>
    have hex := execLane_congr h f.inst (t.cpu.pc l) (t.cpu.pc l + f.ilen) f.iword
    dsimp only
    cases hs : s.execLane l f.inst (t.cpu.pc l) (t.cpu.pc l + f.ilen) f.iword <;>
      cases ht : t.execLane l f.inst (t.cpu.pc l) (t.cpu.pc l + f.ilen) f.iword <;>
      simp_all [outcome, Except.map]

/-- The loop over the lanes does to each active lane what its own step does. -/
theorem view_laneLoop (s : VecState) (l : Lane) :
    s.laneLoop.view l = if s.cpu.active l then (s.stepLane l).view l else s.view l := by
  refine (@foldl_own _ _ _ view _ ?_ ?_ _ (List.nodup_finRange LANES) l (List.mem_finRange l) s).trans ?_
  · intro s l l' hl
    split
    · exact stepLane_of_ne s hl
    · rfl
  · intro s t l h
    have ha : s.cpu.active l = t.cpu.active l := congrArg LaneView.active h
    rw [ha]
    split
    · exact stepLane_congr h
    · exact h
  · split <;> rfl

end VecState

end FuzzSoft
