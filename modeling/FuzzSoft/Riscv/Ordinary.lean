import FuzzSoft.Riscv.Frame

/-!
# Ordinary instructions

Every instruction other than a CSR access or a return from a trap writes registers, taint, logs and
the reservation of the hart, and nothing else. A view of the hart that sees none of these (`Blind`)
is kept by all of them, whether they fault or not (`Blind.execInst_keeps`).
-/

namespace FuzzSoft

open Lib

/-- Neither a CSR access nor a return from a trap. -/
def Inst.Ordinary : Inst → Prop
  | .csr .. | .mret | .sret => False
  | _ => True

section
variable {φ : Type}

/-- The view sees neither registers and taint, nor logs, nor the reservation. -/
def Blind (p : Hart → φ) : Prop := ∀ (h : Hart) regs taint cmplog ubsan res,
  p { h with
      regs := regs, regsTaint := taint, cmplog := cmplog, ubsan := ubsan, reservation := res } = p h

namespace Blind

variable {p : Hart → φ}

/-- It does not see a register write. -/
theorem wrReg (hp : Blind p) (h : Hart) (i : Reg) (v : U32) : p (h.wrReg i v) = p h := by
  unfold Hart.wrReg
  split
  · rfl
  · exact hp h _ h.regsTaint h.cmplog h.ubsan h.reservation

/-- Nor a taint. -/
theorem wrTaint (hp : Blind p) (h : Hart) (i : Reg) (t : U32) : p (h.wrTaint i t) = p h := by
  unfold Hart.wrTaint
  split
  · rfl
  · split
    · exact hp h h.regs _ h.cmplog h.ubsan h.reservation
    · rfl

/-- Nor a write of a known value. -/
theorem wrClean (hp : Blind p) (h : Hart) (i : Reg) (v : U32) : p (h.wrClean i v) = p h :=
  (hp.wrTaint _ i 0).trans (hp.wrReg h i v)

/-- Nor a write with a taint. -/
theorem wrTainted (hp : Blind p) (h : Hart) (i : Reg) (v t : U32) :
    p (h.wrTainted i v t) = p h :=
  (hp.wrReg _ i v).trans (hp.wrTaint h i t)

/-- Nor a logged comparison. -/
theorem logCmp (hp : Blind p) (h : Hart) (a b : U32) : p (h.logCmp a b) = p h := by
  unfold Hart.logCmp
  split
  · split
    · exact hp h h.regs h.regsTaint _ h.ubsan h.reservation
    · rfl
  · rfl

/-- Nor a logged division. -/
theorem logUbsan (hp : Blind p) (h : Hart) (pc : U32) : p (h.logUbsan pc) = p h := by
  unfold Hart.logUbsan
  split
  · split
    · exact hp h h.regs h.regsTaint h.cmplog _ h.reservation
    · rfl
  · rfl

/-- Nor a reservation. -/
theorem reserve (hp : Blind p) (h : Hart) (r : Option U32) : p { h with reservation := r } = p h :=
  hp h h.regs h.regsTaint h.cmplog h.ubsan r

variable {β : Type}

/-- An update that it does not see keeps it. -/
theorem modifyHart_keeps {f : Hart → Hart} (h : ∀ h, p (f h) = p h) :
    Keeps (fun s : Sys β => p s.hart) (modifyHart f) := fun s => h s.hart

/-- A branch keeps it. -/
theorem execBranch_keeps (hp : Blind p) (op : BranchOp) (rs1 rs2 : Reg) (imm pc next : U32) :
    Keeps (fun s : Sys β => p s.hart) (execBranch op rs1 rs2 imm pc next) := fun s =>
  (congrArg p (execBranch_hart op rs1 rs2 imm pc next s)).trans (hp.logCmp _ _ _)

variable [Bus β]

/-- So does the access of an AMO. -/
theorem amoAccess_keeps (hp : Blind p) (op : AmoOp) (rd : Reg) (va src : U32) :
    Keeps (fun s : Sys β => p s.hart) (amoAccess op rd va src) := by
  refine ((xlate_keeps va .write).view p).bind fun pa => ?_
  refine ((busLoad_keeps pa 4).view p).bind fun old => ?_
  refine ((busRawState_keeps pa 4).view p).bind fun raw => ?_
  refine Keeps.bind (modifyHart_keeps fun h => ?_) fun _ =>
    ((busStore_keeps pa 4 _).view p).bind fun _ => Keeps.pure _
  split
  · exact hp.wrTaint h rd raw
  · rfl

/-- An ordinary instruction keeps a blind view, also when it faults. -/
theorem execInst_keeps (hp : Blind p) {inst : Inst} (hi : inst.Ordinary) (pc next iword : U32) :
    Keeps (fun s : Sys β => p s.hart) (execInst inst pc next iword) := by
  refine (Keeps.gets _).bind fun h => ?_
  cases inst with
  | lui | auipc | jal | jalr =>
    exact (modifyHart_keeps fun h => hp.wrClean h _ _).bind fun _ => Keeps.pure _
  | opImm =>
    exact (modifyHart_keeps fun h => hp.wrTainted h _ _ _).bind fun _ => Keeps.pure _
  | branch op rs1 rs2 imm =>
    exact (hp.execBranch_keeps op rs1 rs2 imm pc next).bind fun _ => Keeps.pure _
  | load op rd rs1 imm =>
    refine ((loadWithTaint_keeps _ _ _).view p).bind fun r => ?_
    exact (modifyHart_keeps fun h => hp.wrTainted h _ _ _).bind fun _ => Keeps.pure _
  | store op rs1 rs2 imm =>
    exact ((execStore_keeps op rs1 rs2 imm).view p).bind fun _ => Keeps.pure _
  | op op rd rs1 rs2 =>
    refine (modifyHart_keeps fun h => (hp.wrTainted _ _ _ _).trans ?_).bind fun _ => Keeps.pure _
    split
    · exact hp.logCmp h _ _
    · rfl
  | mul op rd rs1 rs2 =>
    refine (modifyHart_keeps fun h => (hp.wrTainted _ _ _ _).trans ?_).bind fun _ => Keeps.pure _
    split
    · exact hp.logUbsan h _
    · rfl
  | lrW rd rs1 aq rl =>
    refine ((loadWithTaint_keeps _ _ _).view p).bind fun r => ?_
    refine Keeps.bind (modifyHart_keeps fun h => ?_) fun _ => Keeps.pure _
    exact (hp.reserve _ _).trans (hp.wrTainted h rd r.1 (r.2.getD 0))
  | scW rd rs1 rs2 aq rl =>
    refine ((storeIf_keeps _ _ _).view p).bind fun _ => ?_
    refine Keeps.bind (modifyHart_keeps fun h => ?_) fun _ => Keeps.pure _
    exact (hp.reserve _ _).trans (hp.wrClean h rd _)
  | amoW op rd rs1 rs2 aq rl =>
    refine (hp.amoAccess_keeps op rd _ _).bind fun old => ?_
    refine Keeps.bind (modifyHart_keeps fun h => ?_) fun _ => Keeps.pure _
    exact (hp.wrReg _ rd old).trans (hp.reserve h none)
  | fence | wfi | ecall | ebreak => exact Keeps.pure _
  | sfenceVma => exact Keeps.bind (fun _ => rfl) fun _ => Keeps.pure _
  | illegal raw => exact fun _ => rfl
  | csr | mret | sret => exact hi.elim

end Blind

end

end FuzzSoft
