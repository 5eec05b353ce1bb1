import FuzzSoft.Riscv.Frame

/-!
# The retired-instruction counter

A step counts an instruction exactly when it retires one (`stepSystem_insnsRetired`). A step that
delivers an interrupt, or whose instruction faults, counts nothing.
-/

namespace FuzzSoft

open Lib

namespace Hart

@[simp] theorem wrReg_insnsRetired (h : Hart) (i : Reg) (v : U32) :
    (h.wrReg i v).insnsRetired = h.insnsRetired := by
  unfold wrReg
  split <;> rfl

@[simp] theorem wrTaint_insnsRetired (h : Hart) (i : Reg) (t : U32) :
    (h.wrTaint i t).insnsRetired = h.insnsRetired := by
  unfold wrTaint
  split
  · rfl
  · split <;> rfl

@[simp] theorem wrClean_insnsRetired (h : Hart) (i : Reg) (v : U32) :
    (h.wrClean i v).insnsRetired = h.insnsRetired := by
  simp [wrClean]

@[simp] theorem wrTainted_insnsRetired (h : Hart) (i : Reg) (v t : U32) :
    (h.wrTainted i v t).insnsRetired = h.insnsRetired := by
  simp [wrTainted]

@[simp] theorem logCmp_insnsRetired (h : Hart) (a b : U32) :
    (h.logCmp a b).insnsRetired = h.insnsRetired := by
  unfold logCmp
  split
  · split <;> rfl
  · rfl

@[simp] theorem logUbsan_insnsRetired (h : Hart) (pc : U32) :
    (h.logUbsan pc).insnsRetired = h.insnsRetired := by
  unfold logUbsan
  split
  · split <;> rfl
  · rfl

@[simp] theorem takeTrap_insnsRetired (h : Hart) (cause tval : U32) (interrupt : Bool) :
    (h.takeTrap cause tval interrupt).insnsRetired = h.insnsRetired := by
  obtain ⟨csr, p, pc, he⟩ := h.takeTrap_eq cause tval interrupt
  rw [he]

@[simp] theorem pollInterrupt_insnsRetired (h : Hart) :
    h.pollInterrupt.2.insnsRetired = h.insnsRetired := by
  obtain ⟨csr, p, pc, he⟩ := h.pollInterrupt_eq
  rw [he]

@[simp] theorem finishExit_insnsRetired (h : Hart) (r : Except Trap Exit) :
    (h.finishExit r).2.insnsRetired = h.insnsRetired := by
  unfold finishExit
  split
  · rfl
  · rfl
  · split
    · rfl
    · exact takeTrap_insnsRetired _ _ _ _
  all_goals first | exact takeTrap_insnsRetired _ _ _ _ | rfl

end Hart

section
variable {β : Type}

/-- The counter of a system. -/
def Sys.insnsRetired (s : Sys β) : U64 := s.hart.insnsRetired

/-- What leaves the hart alone leaves the counter. -/
theorem keeps_counter {α : Type} {x : Exec β α} (h : Keeps Sys.hart x) :
    Keeps (@Sys.insnsRetired β) x := fun s => congrArg Hart.insnsRetired (h s)

/-- So does an update that does. -/
theorem modifyHart_counter {f : Hart → Hart} (h : ∀ h, (f h).insnsRetired = h.insnsRetired) :
    Keeps (@Sys.insnsRetired β) (modifyHart f) := fun s => h s.hart

/-- A CSR instruction leaves the counter until it retires. -/
theorem execCsr_counter (op : CsrOp) (rd src : Reg) (csr : U16) (pc iword : U32) :
    Keeps (@Sys.insnsRetired β) (execCsr op rd src csr pc iword) := by
  refine (Keeps.gets _).bind fun h => ?_
  split
  · exact fun _ => rfl
  · refine Keeps.bind ?_ fun _ => modifyHart_counter fun h => h.wrClean_insnsRetired _ _
    refine (Keeps.gets _).bind fun h => ?_
    split
    · split
      · exact fun _ => rfl
      · intro s
        unfold setCsr
        rw [Comp.modify_apply]
        split <;> rfl
    · exact Keeps.pure _

variable [Bus β]

/-- So does the access of an AMO. -/
theorem amoAccess_counter (op : AmoOp) (rd : Reg) (va src : U32) :
    Keeps (@Sys.insnsRetired β) (amoAccess op rd va src) := by
  refine (keeps_counter (xlate_keeps va .write)).bind fun pa => ?_
  refine (keeps_counter (busLoad_keeps pa 4)).bind fun old => ?_
  refine (keeps_counter (busRawState_keeps pa 4)).bind fun raw => ?_
  refine Keeps.bind (modifyHart_counter fun h => ?_) fun _ =>
    (keeps_counter (busStore_keeps pa 4 _)).bind fun _ => Keeps.pure _
  split
  · exact h.wrTaint_insnsRetired rd raw
  · rfl

/-- The effect of an instruction does not touch the counter; its retirement does. -/
theorem execInst_counter (inst : Inst) (pc next iword : U32) :
    Keeps (@Sys.insnsRetired β) (execInst inst pc next iword) := by
  refine (Keeps.gets _).bind fun h => ?_
  cases inst with
  | lui | auipc | jal | jalr =>
    exact (modifyHart_counter fun h => h.wrClean_insnsRetired _ _).bind fun _ => Keeps.pure _
  | opImm =>
    exact (modifyHart_counter fun h => h.wrTainted_insnsRetired _ _ _).bind fun _ => Keeps.pure _
  | branch op rs1 rs2 imm =>
    refine Keeps.bind (fun s => ?_) fun _ => Keeps.pure _
    rw [Sys.insnsRetired, execBranch_hart, Hart.logCmp_insnsRetired]
    rfl
  | load op rd rs1 imm =>
    refine (keeps_counter (loadWithTaint_keeps _ _ _)).bind fun r => ?_
    exact (modifyHart_counter fun h => h.wrTainted_insnsRetired _ _ _).bind fun _ => Keeps.pure _
  | store op rs1 rs2 imm =>
    exact (keeps_counter (execStore_keeps op rs1 rs2 imm)).bind fun _ => Keeps.pure _
  | op op rd rs1 rs2 =>
    refine (modifyHart_counter fun h => ?_).bind fun _ => Keeps.pure _
    rw [Hart.wrTainted_insnsRetired]
    split
    · exact h.logCmp_insnsRetired _ _
    · rfl
  | mul op rd rs1 rs2 =>
    refine (modifyHart_counter fun h => ?_).bind fun _ => Keeps.pure _
    rw [Hart.wrTainted_insnsRetired]
    split
    · exact h.logUbsan_insnsRetired _
    · rfl
  | lrW rd rs1 aq rl =>
    refine (keeps_counter (loadWithTaint_keeps _ _ _)).bind fun r => ?_
    refine Keeps.bind (modifyHart_counter fun h => ?_) fun _ => Keeps.pure _
    exact h.wrTainted_insnsRetired rd r.1 (r.2.getD 0)
  | scW rd rs1 rs2 aq rl =>
    refine (keeps_counter (storeIf_keeps _ _ _)).bind fun _ => ?_
    refine Keeps.bind (modifyHart_counter fun h => ?_) fun _ => Keeps.pure _
    exact h.wrClean_insnsRetired rd _
  | amoW op rd rs1 rs2 aq rl =>
    refine (amoAccess_counter op rd _ _).bind fun old => ?_
    refine Keeps.bind (modifyHart_counter fun h => ?_) fun _ => Keeps.pure _
    exact Hart.wrReg_insnsRetired _ rd old
  | fence | wfi | ecall | ebreak => exact Keeps.pure _
  | csr op rd src csr => exact (execCsr_counter op rd src csr pc iword).bind fun _ => Keeps.pure _
  | mret | sret =>
    dsimp only
    split
    · exact fun _ => rfl
    · exact Keeps.bind (fun _ => rfl) fun _ => Keeps.pure _
  | sfenceVma => exact Keeps.bind (fun _ => rfl) fun _ => Keeps.pure _
  | illegal raw => exact fun _ => rfl

/-- An instruction is counted when it does not fault. -/
theorem execOne_counter (inst : Inst) (pc ilen iword : U32) (s : Sys β) :
    (execOne inst pc ilen iword s).2.insnsRetired =
      match (execOne inst pc ilen iword s).1 with
      | .ok _ => s.insnsRetired + 1
      | .error _ => s.insnsRetired := by
  have hx := execInst_counter inst pc (pc + ilen) iword s
  unfold execOne
  rcases he : execInst inst pc (pc + ilen) iword s with ⟨r, s'⟩
  rw [he] at hx
  cases r with
  | error e =>
    rw [Comp.bind_error he]
    exact hx
  | ok a =>
    rw [Comp.bind_ok he]
    exact congrArg (· + 1) hx

/-- A step counts the instruction it retires, and nothing else. -/
theorem stepSystem_insnsRetired (s : Sys β) : (stepSystem s).2.insnsRetired =
    match retired s with
    | some _ => s.insnsRetired + 1
    | none => s.insnsRetired := by
  have hpoll := s.hart.pollInterrupt_insnsRetired
  unfold stepSystem retired
  dsimp only
  generalize hs₀ : s.setHart s.hart.pollInterrupt.2 = s₀
  have hr₀ : s₀.insnsRetired = s.insnsRetired := by
    rw [← hs₀]
    exact hpoll
  split
  · exact hr₀
  unfold step getHart
  rw [Comp.gets_bind]
  have hfetch := keeps_counter (fetchDecode_keeps s₀.hart.pc) s₀
  rcases hf : fetchDecode s₀.hart.pc s₀ with ⟨r, s₁⟩
  rw [hf] at hfetch
  have hfin : ∀ (t : Sys β) r, (t.finishExit r).2.insnsRetired = t.insnsRetired :=
    fun t r => t.hart.finishExit_insnsRetired r
  cases r with
  | error e =>
    rw [Comp.bind_error hf, hfin]
    exact hfetch.trans hr₀
  | ok f =>
    rw [Comp.bind_ok hf, hfin]
    have hx := execOne_counter f.inst s₀.hart.pc f.ilen f.iword s₁
    rcases he : execOne f.inst s₀.hart.pc f.ilen f.iword s₁ with ⟨r, s₂⟩
    rw [he] at hx
    simp only [he]
    have h₁ : s₁.insnsRetired = s.insnsRetired := hfetch.trans hr₀
    cases r with
    | error e => exact hx.trans h₁
    | ok x => exact hx.trans (congrArg (· + 1) h₁)

end

end FuzzSoft
