import FuzzSoft.Jit.Steps

/-!
# The jumps of compiled code

Everything that is emitted is whole instructions, and a jump goes over a block that is emitted with it
(`closed_emitRetired`). So every jump of a compiled chain lands where an instruction starts
(`jumpsLand_codegen`).
-/

namespace FuzzSoft

namespace Jit

open Lib Lib.X86

section
variable (P : Process)

/-! ## Without jumps -/

/-- Zeroing a register does not jump. -/
theorem closed_zero {dst : Gpr} (hd : Gpr.rsp ≠ dst) : Closed (Asm.zero dst) :=
  .instr (Asm.encodes_aluR32R32 .xor hd hd) rfl

/-- Reading a guest register does not jump. -/
theorem closed_loadReg {dst : Gpr} (hd : Gpr.rsp ≠ dst) (i : Reg) : Closed (loadReg P dst i) := by
  unfold loadReg
  split
  · exact closed_zero hd
  · exact .instr (Asm.encodes_movR32Mem hd (by decide)) rfl

/-- Writing a guest register does not jump. -/
theorem closed_storeReg {src : Gpr} (hs : Gpr.rsp ≠ src) (i : Reg) :
    Closed (storeReg P i src) := by
  unfold storeReg
  split
  · exact .nil
  · exact .instr (Asm.encodes_movMemR32 hs (by decide)) rfl

/-- Counting does not jump. -/
theorem closed_count (f : Field) : Closed (Asm.addQwordMemImm8 .rdi (P.off f) 1) :=
  .instr (Asm.encodes_addQwordMemImm8 (by decide)) rfl

/-- A two-operand instruction does not jump. -/
theorem closed_emitAlu2 (kind : AluKind) (rhsImm : Option U32) :
    Closed (emitAlu2 kind rhsImm) := by
  cases rhsImm with
  | none => exact .instr (Asm.encodes_aluR32R32 kind (by decide) (by decide)) rfl
  | some imm => exact .instr (Asm.encodes_aluR32Imm32 kind (by decide)) rfl

/-- A shift does not jump. -/
theorem closed_emitShift (kind : ShiftKind) (rhsImm : Option U32) :
    Closed (emitShift kind rhsImm) := by
  cases rhsImm with
  | none => exact .instr (Asm.encodes_shiftCl kind (by decide)) rfl
  | some imm => exact .instr (Asm.encodes_shiftImm8 kind (by decide)) rfl

/-- A comparison does not jump. -/
theorem closed_emitSlt (cc : Cond) (rhsImm : Option U32) : Closed (emitSlt cc rhsImm) := by
  refine ((closed_emitAlu2 .cmp rhsImm).append ?_).append ?_
  · exact .instr (Asm.encodes_setcc cc (by decide)) rfl
  · exact .instr (Asm.encodes_movzxR32R8 (by decide) (by decide)) rfl

/-- An arithmetic instruction does not jump. -/
theorem closed_emitAluRegResult (op : AluOp) (rhsImm : Option U32) :
    Closed (emitAluRegResult op rhsImm) := by
  cases op with
  | add | sub | xor | or | and => exact closed_emitAlu2 _ rhsImm
  | sll | srl | sra => exact closed_emitShift _ rhsImm
  | slt | sltu => exact closed_emitSlt _ rhsImm

/-- Writing the `pc` does not jump. -/
theorem closed_emitPc {src : Gpr} (hs : Gpr.rsp ≠ src) (disp : U32) :
    Closed (emitPc P src disp) :=
  .append (.instr (Asm.encodes_leaR32Mem hs (by decide)) rfl)
    (.instr (Asm.encodes_movMemR32 hs (by decide)) rfl)

/-- Writing the link register does not jump. -/
theorem closed_emitLink (rd : Reg) (disp : U32) : Closed (emitLink P rd disp) := by
  unfold emitLink
  split
  · exact .nil
  · exact .append (.instr (Asm.encodes_leaR32Mem (by decide) (by decide)) rfl)
      (closed_storeReg P (by decide) rd)

/-- Computing an address does not jump. -/
theorem closed_emitVa (rs1 : Reg) (imm : U32) : Closed (emitVa P rs1 imm) :=
  (closed_loadReg P (by decide) rs1).append (.instr (Asm.encodes_aluR32Imm32 .add (by decide)) rfl)

/-- A call is not a jump: it comes back. -/
theorem closed_callShim (f : Shim) : Closed (callShim P f) :=
  .append (.instr (Asm.encodes_movR64Imm64 (by decide)) rfl)
    (.instr (Asm.encodes_callR64 (by decide)) rfl)

variable {P}

/-- A push does not jump. -/
theorem closed_push {r : Gpr} (hr : Gpr.rsp ≠ r) : Closed (Asm.pushR64 r) :=
  .instr (Asm.encodes_pushR64 hr) rfl

/-- A pop does not jump. -/
theorem closed_pop {r : Gpr} (hr : Gpr.rsp ≠ r) : Closed (Asm.popR64 r) :=
  .instr (Asm.encodes_popR64 hr) rfl

/-- A call with registers saved around it does not jump. -/
theorem closed_emitCallSaving {fifth : Gpr} {call : List U8} (hfifth : Gpr.rsp ≠ fifth)
    (hcall : Closed call) : Closed (emitCallSaving fifth call) := by
  have hsave := ((((closed_push hfifth).append (closed_push (r := .rdi) (by decide))).append
    (closed_push (r := .rsi) (by decide))).append (closed_push (r := .rdx) (by decide))).append
      (closed_push (r := .r8) (by decide))
  exact (((((hsave.append hcall).append (closed_pop (by decide))).append
    (closed_pop (by decide))).append (closed_pop (by decide))).append
      (closed_pop (by decide))).append (closed_pop hfifth)

/-- Nor does one whose result is tested. -/
theorem closed_tested {call : List U8} (hcall : Closed call) :
    Closed (call ++ Asm.testR64R64 .rax .rax) :=
  hcall.append (.instr (Asm.encodes_testR64R64 (by decide) (by decide)) rfl)

/-- A return leaves the fragment without a jump. -/
theorem closed_ret : Closed Asm.ret := .instr Asm.encodes_ret rfl

/-! ## With jumps -/

/-- A skip jumps to the end of what it skips. -/
theorem closed_emitSkip {cc : Cond} {inner : List U8} (hlen : inner.length < 2 ^ 31)
    (hinner : Closed inner) : Closed (emitSkip cc inner) :=
  .jump (Asm.encodes_jccRel32 cc) rfl (toInt_ofNat_length hlen) hinner

/-- A choice jumps to its second branch or past it. -/
theorem closed_emitIfElse {cc : Cond} {thenBuf elseBuf : List U8}
    (hthen : thenBuf.length < 2 ^ 31) (helse : elseBuf.length + 5 < 2 ^ 31)
    (ht : Closed thenBuf) (he : Closed elseBuf) : Closed (emitIfElse cc thenBuf elseBuf) := by
  refine .ifElse (Asm.encodes_jccRel32 cc) rfl ?_ he Asm.encodes_jmpRel32 rfl
    (toInt_ofNat_length hthen) ht
  rw [toInt_ofNat_length helse, List.length_append]
  rfl

/-- Asking for a pointer does not jump. -/
theorem closed_emitFastPtr (f : Shim) : Closed (emitFastPtr P f) :=
  closed_tested (closed_emitCallSaving (by decide) (closed_callShim P f))

/-- A load through a pointer does not jump. -/
theorem closed_emitLoadFast (op : LoadOp) (rd : Reg) : Closed (emitLoadFast P op rd) := by
  refine (((closed_count P .fastPathHits).append ?_).append (closed_count P .insnsRetired)).append
    (closed_storeReg P (by decide) rd)
  cases op with
  | lb => exact .instr (Asm.encodes_movsxR32Mem8 (by decide) (by decide)) rfl
  | lh => exact .instr (Asm.encodes_movsxR32Mem16 (by decide) (by decide)) rfl
  | lw => exact .instr (Asm.encodes_movR32Mem (by decide) (by decide)) rfl
  | lbu => exact .instr (Asm.encodes_movzxR32Mem8 (by decide) (by decide)) rfl
  | lhu => exact .instr (Asm.encodes_movzxR32Mem16 (by decide) (by decide)) rfl

/-- The start of a slow path, up to the test of what the call-out returned. -/
theorem closed_called {call : List U8} (off : U32) (hcall : Closed call) :
    Closed (Asm.addQwordMemImm8 .rdi (P.off .fastPathBails) 1 ++ emitPc P .rax off ++
      emitCallPreservingRegs call ++ Asm.testR64R64 .rax .rax) :=
  closed_tested (((closed_count P .fastPathBails).append (closed_emitPc P (by decide) off)).append
    (closed_emitCallSaving (by decide) hcall))

/-- A load through the shim jumps within its fragment. -/
theorem closed_emitLoadSlow (op : LoadOp) (rd : Reg) (off : U32) :
    Closed (emitLoadSlow P op rd off) :=
  (((closed_called off (closed_callShim P (.load op))).append
    (closed_emitSkip (by decide) closed_ret)).append (closed_count P .insnsRetired)).append
      (closed_storeReg P (by decide) rd)

/-- A store through a pointer does not jump. -/
theorem closed_emitStoreFast (op : StoreOp) (rs2 : Reg) : Closed (emitStoreFast P op rs2) := by
  refine (((closed_count P .fastPathHits).append (closed_loadReg P (by decide) rs2)).append
    ?_).append (closed_count P .insnsRetired)
  cases op with
  | sb => exact .instr (Asm.encodes_movMem8R8 (by decide) (by decide)) rfl
  | sh => exact .instr (Asm.encodes_movMem16R16 (by decide) (by decide)) rfl
  | sw => exact .instr (Asm.encodes_movMemR32 (by decide) (by decide)) rfl

/-- A store through the shim jumps within its fragment. -/
theorem closed_emitStoreSlow (op : StoreOp) (rs2 : Reg) (off ilen : U32) :
    Closed (emitStoreSlow P op rs2 off ilen) := by
  have hcall : Closed (loadReg P .r8 rs2 ++ callShim P (.store op)) :=
    (closed_loadReg P (by decide) rs2).append (closed_callShim P _)
  have hended : Closed (retire P ++ emitPc P .rcx (off + ilen) ++ Asm.ret) :=
    ((closed_count P .insnsRetired).append (closed_emitPc P (by decide) _)).append closed_ret
  exact (((closed_called off hcall).append (closed_emitSkip (by decide) closed_ret)).append
    (closed_emitSkip (length_ended P _) hended)).append (closed_count P .insnsRetired)

/-! ## A chain -/

/-- The code of an instruction jumps within itself. -/
theorem closed_emitStep (step : Step) : Closed (emitStep P step) := by
  obtain ⟨inst, ilen, off⟩ := step
  cases inst with
  | lui rd imm =>
    show Closed (if rd = 0 then [] else _)
    split
    · exact .nil
    · exact .append (.instr (Asm.encodes_movR32Imm32 (by decide)) rfl)
        (closed_storeReg P (by decide) rd)
  | auipc rd imm => exact closed_emitLink P rd _
  | opImm op rd rs1 imm =>
    exact ((closed_loadReg P (by decide) rs1).append (closed_emitAluRegResult op _)).append
      (closed_storeReg P (by decide) rd)
  | op op rd rs1 rs2 =>
    exact (((closed_loadReg P (by decide) rs1).append (closed_loadReg P (by decide) rs2)).append
      (closed_emitAluRegResult op _)).append (closed_storeReg P (by decide) rd)
  | jal rd imm => exact (closed_emitLink P rd _).append (closed_emitPc P (by decide) _)
  | jalr rd rs1 imm =>
    exact (((closed_emitVa P rs1 imm).append
      (.instr (Asm.encodes_aluR32Imm32 .and (by decide)) rfl)).append
        (closed_emitLink P rd _)).append (.instr (Asm.encodes_movMemR32 (by decide) (by decide)) rfl)
  | branch op rs1 rs2 imm =>
    exact ((((((closed_loadReg P (by decide) rs1).append
      (closed_loadReg P (by decide) rs2)).append
        (.instr (Asm.encodes_aluR32R32 .cmp (by decide) (by decide)) rfl)).append
          (.instr (Asm.encodes_leaR32Mem (by decide) (by decide)) rfl)).append
            (.instr (Asm.encodes_leaR32Mem (by decide) (by decide)) rfl)).append
              (.instr (Asm.encodes_cmovcc (ccOf op) (by decide) (by decide)) rfl)).append
                (.instr (Asm.encodes_movMemR32 (by decide) (by decide)) rfl)
  | load op rd rs1 imm =>
    exact ((closed_emitVa P rs1 imm).append (closed_emitFastPtr _)).append
      (closed_emitIfElse (length_loadFast P op rd) (length_loadSlow P op rd off)
        (closed_emitLoadFast op rd) (closed_emitLoadSlow op rd off))
  | store op rs1 rs2 imm =>
    exact ((closed_emitVa P rs1 imm).append (closed_emitFastPtr _)).append
      (closed_emitIfElse (length_storeFast P op rs2) (length_storeSlow P op rs2 off ilen)
        (closed_emitStoreFast op rs2) (closed_emitStoreSlow op rs2 off ilen))
  | _ => exact .nil

/-- So does what retires it. -/
theorem closed_emitRetired (step : Step) : Closed (emitRetired P step) := by
  refine (closed_emitStep step).append ?_
  split
  · exact .nil
  · exact closed_count P .insnsRetired

/-- And what ends a chain. -/
theorem closed_emitFallOff (steps : List Step) : Closed (emitFallOff P steps) := by
  unfold emitFallOff
  split
  · split
    · exact .nil
    · exact closed_emitPc P (by decide) _
  · exact .nil

/-- Every jump of a chain's code lands on an instruction of it. -/
theorem jumpsLand_codegen (steps : List Step) : JumpsLand (codegen P steps) := by
  have hsteps : Closed (steps.map (emitRetired P)).flatten := by
    induction steps with
    | nil => exact .nil
    | cons step steps ih => exact (closed_emitRetired step).append ih
  have hentry : Closed (Asm.movR32Mem .r8 .rdi (P.off .pc)) :=
    .instr (Asm.encodes_movR32Mem (by decide) (by decide)) rfl
  exact (((hentry.append hsteps).append (closed_emitFallOff steps)).append
    (closed_zero (by decide))).jumpsLand Asm.encodes_ret rfl

end

end Jit

end FuzzSoft
