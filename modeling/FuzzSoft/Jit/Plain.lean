import FuzzSoft.Jit.Emitted
import FuzzSoft.Riscv.HartTwins

/-!
# Compiled arithmetic and jumps

What the emitted code of an instruction without a memory access does: it writes one register, and the
`pc` if the instruction ends the chain (`does_plain`). The interpreter retires the same instruction
with the same result (`Retires`).
-/

namespace FuzzSoft

namespace Jit

open Lib Lib.X86

section
variable {β : Type} [Bus β] {P : Process} (junk : State (Mem β) → Gpr → Word)
  (junkFlags : State (Mem β) → Flags) {s : State (Mem β)} {pc0 : U32}

/-- The condition code of a branch holds after comparing its operands when the branch is taken. -/
theorem holds_ccOf (op : BranchOp) (a b : U32) :
    (ccOf op).holds (subFlags a b) = branchTaken op a b := by
  cases op with
  | eq => exact Cond.holds_e a b
  | ne =>
    show (!Cond.e.holds (subFlags a b)) = _
    rw [Cond.holds_e, branchTaken, ← decide_not]
  | lt => exact Cond.holds_l a b
  | ge => exact Cond.holds_ge a b
  | ltu => rfl
  | geu =>
    show (!decide (a < b)) = _
    rw [branchTaken, ← decide_not, decide_eq_decide, BitVec.not_lt]

/-- A result in a scratch register goes to a register of the guest. -/
theorem does_result {f : List U8} {dst : Gpr} {rs : List Gpr} {v : U32} (rd : Reg)
    (hs : Plan P pc0 s) (hrs : ∀ r ∈ rs, r ∈ scratch) (hd : Gpr.rsp ≠ dst)
    (hf : Does (host P junk junkFlags) f rs s fun t => t.mem = s.mem ∧ t.r32 dst = v) :
    Does (host P junk junkFlags) (f ++ storeReg P rd dst) rs s fun t =>
      t.mem = s.mem.modHart fun h => h.wrReg rd v := by
  refine hf.append fun t ht ⟨hm, hv⟩ => ?_
  rw [← hm, ← hv]
  exact (does_storeReg junk junkFlags rd (hs.touches ht hrs).rdi hd).mono (by simp)

/-- Writing the link register. -/
theorem does_emitLink (rd : Reg) (disp : U32) (hs : Plan P pc0 s) :
    Does (host P junk junkFlags) (emitLink P rd disp) [.rax] s fun t =>
      t.mem = s.mem.modHart fun h => h.wrReg rd (pc0 + disp) := by
  unfold emitLink
  split
  next h =>
    rw [h]
    exact .nil rfl
  next =>
    refine does_result junk junkFlags rd hs (by decide) (by decide) ?_
    exact (does_lea junk junkFlags disp hs.r8 (by decide)).imp fun t _ ⟨hm, _, hv⟩ => ⟨hm, hv⟩

/-- The two operands of an instruction, in `rax` and `rcx`. -/
theorem does_operands (rs1 rs2 : Reg) (hs : Plan P pc0 s) :
    Does (host P junk junkFlags) (loadReg P .rax rs1 ++ loadReg P .rcx rs2) [.rax, .rcx] s fun t =>
      t.mem = s.mem ∧ t.r32 .rax = s.mem.hart.rdReg rs1 ∧ t.r32 .rcx = s.mem.hart.rdReg rs2 := by
  refine ((does_loadReg junk junkFlags rs1 hs.rdi (by decide)).mono (by simp)).append
    fun t ht ⟨hm, hax⟩ => ?_
  have hdi : t.regs .rdi = P.cpu := (hs.touches ht (by decide)).rdi
  refine (((does_loadReg junk junkFlags rs2 hdi (by decide)).imp ?_).mono (by simp))
  rintro u hu ⟨hm', hcx⟩
  refine ⟨hm'.trans hm, ?_, by rw [hcx, hm]⟩
  rw [← hax, State.r32, State.r32, hu.regs _ (by decide)]

/-- An indirect jump: its target is read before its link is written. -/
theorem does_jalr (rd rs1 : Reg) (imm disp : U32) (hs : Plan P pc0 s) :
    Does (host P junk junkFlags) (loadReg P .rcx rs1 ++ Asm.aluR32Imm32 .add .rcx imm ++
      Asm.aluR32Imm32 .and .rcx 0xfffffffe ++ emitLink P rd disp ++
        Asm.movMemR32 .rdi (P.off .pc) .rcx) scratch s fun t =>
      t.mem = s.mem.modHart fun h =>
        { h.wrReg rd (pc0 + disp) with pc := (s.mem.hart.rdReg rs1 + imm) &&& ~~~1 } := by
  have htarget : Does (host P junk junkFlags)
      (emitVa P rs1 imm ++ Asm.aluR32Imm32 .and .rcx 0xfffffffe) [.rcx] s fun t =>
        t.mem = s.mem ∧ t.r32 .rcx = (s.mem.hart.rdReg rs1 + imm) &&& ~~~1 := by
    refine (does_emitVa junk junkFlags rs1 imm hs.rdi).append fun t _ ⟨hm, hcx⟩ => ?_
    refine .instr (Asm.encodes_aluR32Imm32 .and (by decide)) rfl (touches_set32 t .rcx _ _)
      ⟨hm, ?_⟩
    rw [← hcx]
    exact t.r32_set32 .rcx _
  refine Does.append (P := fun t => Plan P pc0 t ∧
    (t.mem = s.mem.modHart fun h => h.wrReg rd (pc0 + disp)) ∧
      t.r32 .rcx = (s.mem.hart.rdReg rs1 + imm) &&& ~~~1) ?_ ?_
  · refine (htarget.mono (by decide)).append fun t ht ⟨hm, hcx⟩ => ?_
    have hp := hs.touches ht fun _ h => h
    refine ((does_emitLink junk junkFlags rd disp hp).imp ?_).mono (by decide)
    rintro u hu hm'
    refine ⟨hp.touches hu (by decide), by rw [hm', hm], ?_⟩
    rw [← hcx, State.r32, State.r32, hu.regs _ (by decide)]
  · rintro t - ⟨hp, hm, hcx⟩
    refine ((does_storeField junk junkFlags (f := .pc) hp.rdi (by decide) rfl).mono
      (by simp)).imp fun u _ hm' => ?_
    rw [hm', hcx, hm]
    rfl

/-- A branch selects the next `pc` without a jump. -/
theorem does_branch (op : BranchOp) (rs1 rs2 : Reg) (notTaken taken : U32) (hs : Plan P pc0 s) :
    Does (host P junk junkFlags) (loadReg P .rax rs1 ++ loadReg P .rcx rs2 ++
      Asm.aluR32R32 .cmp .rax .rcx ++ Asm.leaR32Mem .r9 .r8 notTaken ++
        Asm.leaR32Mem .r10 .r8 taken ++ Asm.cmovcc (ccOf op) .r9 .r10 ++
          Asm.movMemR32 .rdi (P.off .pc) .r9) scratch s fun t =>
      t.mem = s.mem.modHart fun h => { h with
        pc := (if branchTaken op (s.mem.hart.rdReg rs1) (s.mem.hart.rdReg rs2) then pc0 + taken
          else pc0 + notTaken) } := by
  have hcmp : Does (host P junk junkFlags)
      (loadReg P .rax rs1 ++ loadReg P .rcx rs2 ++ Asm.aluR32R32 .cmp .rax .rcx) [.rax, .rcx] s
      fun t => t.mem = s.mem ∧
        t.flags = subFlags (s.mem.hart.rdReg rs1) (s.mem.hart.rdReg rs2) := by
    refine (does_operands junk junkFlags rs1 rs2 hs).append fun t _ ht => ?_
    obtain ⟨hm, hax, hcx⟩ := ht
    refine ((does_cmp junk junkFlags none).mono (by simp)).imp fun u _ hu => ?_
    have hrhs : operand none t = s.mem.hart.rdReg rs2 := hcx
    exact ⟨hu.1.trans hm, by rw [hu.2, hax, hrhs]⟩
  have hleft : Does (host P junk junkFlags)
      (loadReg P .rax rs1 ++ loadReg P .rcx rs2 ++ Asm.aluR32R32 .cmp .rax .rcx ++
        Asm.leaR32Mem .r9 .r8 notTaken) scratch s fun t => Plan P pc0 t ∧ t.mem = s.mem ∧
          t.flags = subFlags (s.mem.hart.rdReg rs1) (s.mem.hart.rdReg rs2) ∧
            t.r32 .r9 = pc0 + notTaken := by
    refine (hcmp.mono (by decide)).append fun t ht hflags => ?_
    obtain ⟨hm, hf⟩ := hflags
    have hp := hs.touches ht fun _ h => h
    refine ((does_lea junk junkFlags notTaken hp.r8 (by decide)).imp ?_).mono (by decide)
    rintro u hu ⟨hm', hf', hv⟩
    exact ⟨hp.touches hu (by decide), hm'.trans hm, hf'.trans hf, hv⟩
  have hboth : Does (host P junk junkFlags)
      (loadReg P .rax rs1 ++ loadReg P .rcx rs2 ++ Asm.aluR32R32 .cmp .rax .rcx ++
        Asm.leaR32Mem .r9 .r8 notTaken ++ Asm.leaR32Mem .r10 .r8 taken) scratch s
      fun t => Plan P pc0 t ∧ t.mem = s.mem ∧
        t.flags = subFlags (s.mem.hart.rdReg rs1) (s.mem.hart.rdReg rs2) ∧
          t.r32 .r9 = pc0 + notTaken ∧ t.r32 .r10 = pc0 + taken := by
    refine hleft.append fun t ht hleft => ?_
    obtain ⟨hp, hm, hf, h9⟩ := hleft
    refine ((does_lea junk junkFlags taken hp.r8 (by decide)).imp ?_).mono (by decide)
    rintro u hu ⟨hm', hf', hv⟩
    refine ⟨hp.touches hu (by decide), hm'.trans hm, hf'.trans hf, ?_, hv⟩
    rw [← h9, State.r32, State.r32, hu.regs _ (by decide)]
  refine Does.append (P := fun t => Plan P pc0 t ∧ t.mem = s.mem ∧ t.r32 .r9 =
    if branchTaken op (s.mem.hart.rdReg rs1) (s.mem.hart.rdReg rs2) then pc0 + taken
    else pc0 + notTaken) ?_ ?_
  · refine hboth.append fun t ht hboth => ?_
    obtain ⟨hp, hm, hf, h9, h10⟩ := hboth
    have hset := touches_set32 t .r9 (if (ccOf op).holds t.flags then t.r32 .r10 else t.r32 .r9)
      t.flags
    refine Does.mono (.instr (Asm.encodes_cmovcc (ccOf op) (by decide) (by decide)) rfl hset
      ⟨hp.touches hset (by decide), hm, (t.r32_set32 .r9 _).trans ?_⟩) (by decide)
    rw [hf, holds_ccOf, h9, h10]
  · rintro t - ⟨hp, hm, h9⟩
    refine ((does_storeField junk junkFlags (f := .pc) hp.rdi (by decide) rfl).mono
      (by simp)).imp fun u _ hm' => ?_
    rw [hm', h9, hm]

/-! ## The instructions -/

/-- The interpreter retires the instruction, with a value for one register and the next `pc`. -/
def Retires (step : Step) (iword : U32) (q : Sys β) (rd : Reg) (v next : U32) : Prop :=
  ∃ log, execOne step.inst q.hart.pc step.ilen iword q =
    (.ok .continue, q.setHart (({ q.hart with cmplog := log }.wrReg rd v).retire next))

/-- Code that does what the interpreter retires; only the last instruction of a chain writes the
`pc`. -/
def DoesPlain (P : Process) (step : Step) (iword : U32) (s : State (Mem β)) (q : Sys β) : Prop :=
  ∃ rd v next pc, Retires step iword q rd v next ∧
    (if isTerminal step.inst then pc = next
      else pc = s.mem.hart.pc ∧ next = q.hart.pc + step.ilen) ∧
    Does (host P junk junkFlags) (emitStep P step) scratch s fun t =>
      t.mem = s.mem.modHart fun h => { h.wrReg rd v with pc := pc }

variable {junk junkFlags} {step : Step} {iword : U32} {q : Sys β} (rd : Reg) (v : U32)

/-- The code of arithmetic falls through. -/
theorem DoesPlain.of_link (hlink : isTerminal step.inst = false)
    (hr : Retires step iword q rd v (q.hart.pc + step.ilen))
    (hd : Does (host P junk junkFlags) (emitStep P step) scratch s fun t =>
      t.mem = s.mem.modHart fun h => h.wrReg rd v) :
    DoesPlain junk junkFlags P step iword s q := by
  refine ⟨rd, v, _, s.mem.hart.pc, hr, ?_, hd.imp fun t _ hm => hm.trans ?_⟩
  · rw [hlink]
    exact ⟨rfl, rfl⟩
  · have hpc : (s.mem.hart.wrReg rd v).pc = s.mem.hart.pc := by
      unfold Hart.wrReg
      split <;> rfl
    have heta : { s.mem.hart.wrReg rd v with pc := s.mem.hart.pc } = s.mem.hart.wrReg rd v := by
      rw [← hpc]
    exact congrArg (fun h => { s.mem with sys := s.mem.sys.setHart h }) heta.symm

/-- The code of a jump writes the `pc`. -/
theorem DoesPlain.of_terminal (next : U32) (hterm : isTerminal step.inst = true)
    (hr : Retires step iword q rd v next)
    (hd : Does (host P junk junkFlags) (emitStep P step) scratch s fun t =>
      t.mem = s.mem.modHart fun h => { h.wrReg rd v with pc := next }) :
    DoesPlain junk junkFlags P step iword s q := by
  refine ⟨rd, v, next, next, hr, ?_, hd⟩
  rw [if_pos hterm]

/-! ## The interpreter -/

/-- Without KMSAN no taint is written. -/
theorem wrTaint_off {h : Hart} (hk : h.kmsanEnabled = false) (i : Reg) (t : U32) :
    h.wrTaint i t = h := by
  unfold Hart.wrTaint
  split
  · rfl
  · cases hr : h.regsTaint with
    | none => rfl
    | some taint =>
      rw [Hart.kmsanEnabled, hr] at hk
      cases hk

/-- So a write with a taint is a plain one. -/
theorem wrTainted_off {h : Hart} (hk : h.kmsanEnabled = false) (i : Reg) (v t : U32) :
    h.wrTainted i v t = h.wrReg i v := by
  rw [Hart.wrTainted, wrTaint_off hk]

/-- So is a write of a known value. -/
theorem wrClean_off {h : Hart} (hk : h.kmsanEnabled = false) (i : Reg) (v : U32) :
    h.wrClean i v = h.wrReg i v := by
  rw [Hart.wrClean_eq, wrTainted_off hk]

/-- Logging changes the log alone. -/
theorem logCmp_eq (h : Hart) (a b : U32) :
    h.logCmp a b = { h with cmplog := (h.logCmp a b).cmplog } := by
  unfold Hart.logCmp
  split
  · split <;> rfl
  · rfl

/-- What an instruction without memory access does. -/
theorem retires_of_execInst {rd : Reg} {v next : U32} (log : Option (List (U32 × U32)))
    (h : execInst step.inst q.hart.pc (q.hart.pc + step.ilen) iword q =
      (.ok (.continue, next), q.setHart ({ q.hart with cmplog := log }.wrReg rd v))) :
    Retires step iword q rd v next := by
  refine ⟨log, ?_⟩
  rw [execOne, Comp.bind_ok h]
  rfl

/-! ## Every instruction without a memory access -/

variable (junk junkFlags)

/-- The code of every such instruction. -/
theorem does_plain (step : Step) (iword : U32) (hmem : isMem step.inst = false)
    (hlink : isAluLink step.inst = true ∨ isTerminal step.inst = true) (hs : Plan P pc0 s)
    (hregs : ∀ i, s.mem.hart.rdReg i = q.hart.rdReg i)
    (hpc : q.hart.pc = pc0 + step.staticOffset) (hk : q.hart.kmsanEnabled = false) :
    DoesPlain junk junkFlags P step iword s q := by
  obtain ⟨inst, ilen, off⟩ := step
  have hto : ∀ imm, pc0 + (off + imm) = q.hart.pc + imm := fun imm => by rw [hpc, BitVec.add_assoc]
  cases inst with
  | lui rd imm =>
    refine .of_link rd imm rfl (retires_of_execInst q.hart.cmplog ?_) ?_
    · exact congrArg (fun h => (_, q.setHart h)) (wrClean_off hk rd imm)
    · show Does _ (if rd = 0 then [] else _) _ _ _
      split
      next h =>
        rw [h]
        exact .nil rfl
      next =>
        have hrs : ∀ r ∈ [Gpr.rax], r ∈ scratch := by decide
        refine (does_result junk junkFlags rd hs hrs (by decide) ?_).mono hrs
        exact .instr (Asm.encodes_movR32Imm32 (by decide)) rfl (touches_set32 s .rax _ s.flags)
          ⟨rfl, s.r32_set32 .rax imm⟩
  | auipc rd imm =>
    refine .of_link rd (q.hart.pc + imm) rfl
      (retires_of_execInst q.hart.cmplog ?_) ?_
    · exact congrArg (fun h => (_, q.setHart h)) (wrClean_off hk rd _)
    · rw [← hto]
      exact (does_emitLink junk junkFlags rd _ hs).mono (by decide)
  | opImm op rd rs1 imm =>
    refine .of_link rd (alu op (q.hart.rdReg rs1) imm) rfl
      (retires_of_execInst q.hart.cmplog ?_) ?_
    · exact congrArg (fun h => (_, q.setHart h)) (wrTainted_off hk rd _ _)
    · refine does_result junk junkFlags rd hs (fun _ h => h) (by decide) ?_
      refine ((does_loadReg junk junkFlags rs1 hs.rdi (by decide)).mono (by decide)).append
        fun t _ ⟨hm, hax⟩ => ?_
      refine ((does_emitAluRegResult junk junkFlags op (some imm)).mono (by decide)).imp
        fun u _ ⟨hm', hv⟩ => ⟨hm'.trans hm, ?_⟩
      rw [hv, hax, hregs]
      rfl
  | op op rd rs1 rs2 =>
    obtain ⟨log, hlog⟩ : ∃ log, (if op = .sub ∨ op = .xor then
        q.hart.logCmp (q.hart.rdReg rs1) (q.hart.rdReg rs2) else q.hart) =
          { q.hart with cmplog := log } := by
      split
      · exact ⟨_, logCmp_eq _ _ _⟩
      · exact ⟨_, rfl⟩
    have hoff : ({ q.hart with cmplog := log } : Hart).kmsanEnabled = false := hk
    refine .of_link rd (alu op (q.hart.rdReg rs1) (q.hart.rdReg rs2)) rfl
      (retires_of_execInst log ?_) ?_
    · have htaint := congrArg (fun h : Hart => h.wrTainted rd
        (alu op (q.hart.rdReg rs1) (q.hart.rdReg rs2))
        (aluTaint (q.hart.rdTaint rs1) (q.hart.rdTaint rs2))) hlog
      exact congrArg (fun h => (_, q.setHart h)) (htaint.trans (wrTainted_off hoff rd _ _))
    · refine does_result junk junkFlags rd hs (fun _ h => h) (by decide) ?_
      refine ((does_operands junk junkFlags rs1 rs2 hs).mono (by decide)).append
        fun t _ ⟨hm, hax, hcx⟩ => ?_
      refine ((does_emitAluRegResult junk junkFlags op none).mono (by decide)).imp
        fun u _ ⟨hm', hv⟩ => ⟨hm'.trans hm, ?_⟩
      have hrhs : operand none t = q.hart.rdReg rs2 := hcx.trans (hregs rs2)
      rw [hv, hax, hrhs, hregs]
  | fence =>
    refine .of_link 0 0 rfl (retires_of_execInst q.hart.cmplog rfl) ?_
    exact .nil rfl
  | jal rd imm =>
    refine .of_terminal rd (q.hart.pc + ilen) (q.hart.pc + imm) rfl
      (retires_of_execInst q.hart.cmplog ?_) ?_
    · exact congrArg (fun h => (_, q.setHart h)) (wrClean_off hk rd _)
    · refine ((does_emitLink junk junkFlags rd _ hs).mono (by decide)).append fun t ht hm => ?_
      refine ((does_emitPc junk junkFlags _ (hs.touches ht fun _ h => h) (by decide)
        (by decide)).mono (by decide)).imp fun u _ hm' => ?_
      rw [hm', hm, hto, hto]
      rfl
  | jalr rd rs1 imm =>
    refine .of_terminal rd (q.hart.pc + ilen) ((q.hart.rdReg rs1 + imm) &&& ~~~1) rfl
      (retires_of_execInst q.hart.cmplog ?_) ?_
    · exact congrArg (fun h => (_, q.setHart h)) (wrClean_off hk rd _)
    · refine (does_jalr junk junkFlags rd rs1 imm (off + ilen) hs).imp fun t _ hm => ?_
      rw [hm, hto, hregs]
  | branch op rs1 rs2 imm =>
    refine .of_terminal 0 0
      (if branchTaken op (q.hart.rdReg rs1) (q.hart.rdReg rs2) then q.hart.pc + imm
        else q.hart.pc + ilen) rfl
      (retires_of_execInst
        (q.hart.logCmp (q.hart.rdReg rs1) (q.hart.rdReg rs2)).cmplog ?_) ?_
    · have hx : execBranch op rs1 rs2 imm q.hart.pc (q.hart.pc + ilen) q =
          (.ok (if branchTaken op (q.hart.rdReg rs1) (q.hart.rdReg rs2) then q.hart.pc + imm
            else q.hart.pc + ilen),
          q.setHart (q.hart.logCmp (q.hart.rdReg rs1) (q.hart.rdReg rs2))) := by
        have hoff : (q.hart.kmsanEnabled && (q.hart.rdTaint rs1 ≠ 0 || q.hart.rdTaint rs2 ≠ 0)) =
            false := by
          rw [hk]
          rfl
        unfold execBranch getHart modifyHart
        rw [Comp.gets_bind]
        dsimp only
        rw [Comp.modify_bind, hoff]
        rfl
      rw [logCmp_eq] at hx
      exact Comp.bind_ok hx
    · refine (does_branch junk junkFlags op rs1 rs2 (off + ilen) (off + imm) hs).imp
        fun t _ hm => ?_
      rw [hm, hto, hto, hregs, hregs]
      rfl
  | load | store => exact Bool.noConfusion hmem
  | mul | lrW | scW | amoW | ecall | ebreak | csr | mret | sret | wfi | sfenceVma | illegal =>
    rcases hlink with h | h <;> exact Bool.noConfusion h

end

end Jit

end FuzzSoft
