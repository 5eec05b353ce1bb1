import FuzzSoft.Jit.Emit
import FuzzSoft.Platform.FastAccess

/-!
# Compiled chains

The native compiler of `fs-jit`. A chain is a straight line of decoded instructions (`decodeChain`),
and `codegen` emits its code: registers stay in memory, the entry `pc` is read once, and a load or a
store first asks for a host pointer and else calls out. The emitted code runs in the process of the
fuzzer (`Process`): its operands are fields of the `Cpu`, the bytes behind a granted host pointer, and
the addresses of the call-outs.
-/

namespace FuzzSoft

namespace Jit

open Lib Lib.X86

/-! ## Decoding a chain -/

def MAX_CHAIN_LEN : Nat := 64

/-- A decoded instruction with its length and its offset from the entry of the chain. -/
structure Step where
  inst : Inst
  ilen : U32
  staticOffset : U32
  deriving DecidableEq

/-- The instruction falls through to the next one. -/
def isAluLink : Inst → Bool
  | .lui _ _ | .auipc _ _ | .opImm _ _ _ _ | .op _ _ _ _ | .fence | .load _ _ _ _
  | .store _ _ _ _ => true
  | _ => false

/-- The instruction ends a chain. -/
def isTerminal : Inst → Bool
  | .branch _ _ _ _ | .jal _ _ | .jalr _ _ _ => true
  | _ => false

/-- The instruction accesses memory. -/
def isMem : Inst → Bool
  | .load _ _ _ _ | .store _ _ _ _ => true
  | _ => false

/-- An instruction, its length and, if it reaches into another page, that page. -/
structure Decoded where
  inst : Inst
  ilen : U32
  extraPage : Option U32

section
variable {β γ : Type} [Bus β]

/-- Decode the instruction at a physical address. -/
def decodeAt (va pa blockPage : U32) : Exec β Decoded := do
  let lo ← busIfetch16 pa
  if lo &&& 0x3 ≠ 0x3 then pure ⟨decodeCompressed lo, 2, none⟩
  else do
    let hiPa ← xlate (va + 2) .exec
    let hi ← busIfetch16 hiPa
    let w := lo.setWidth 32 ||| (hi.setWidth 32 <<< 16)
    pure ⟨decode w, 4, if hiPa >>> 12 ≠ blockPage then some (hiPa >>> 12) else none⟩

/-- The page may be relied on, as the caller says. -/
def trusted (isGolden : γ → U32 → Bool × γ) (page : Option U32) (g : γ) : Bool × γ :=
  match page with
  | some p => isGolden g p
  | none => (true, g)

/-- The loop of `decode_chain`, for at most so many instructions. -/
def decodeLoop (isGolden : γ → U32 → Bool × γ) (blockPage : U32) :
    Nat → (va pa offset : U32) → Sys β → γ → List Step × Sys β × γ
  | 0, _, _, _, s, g => ([], s, g)
  | n + 1, va, pa, offset, s, g =>
    match decodeAt va pa blockPage s with
    | (.error _, s) => ([], s, g)
    | (.ok d, s) =>
      let (ok, g) := trusted isGolden d.extraPage g
      let step : Step := ⟨d.inst, d.ilen, offset⟩
      if !ok then ([], s, g)
      else if isAluLink d.inst then
        if n = 0 then ([step], s, g)
        else
          match xlate (va + d.ilen) .exec s with
          | (.error _, s) => ([step], s, g)
          | (.ok nextPa, s) =>
            if nextPa >>> 12 ≠ blockPage then ([step], s, g)
            else
              let (rest, s, g) :=
                decodeLoop isGolden blockPage n (va + d.ilen) nextPa (offset + d.ilen) s g
              (step :: rest, s, g)
      else if isTerminal d.inst then ([step], s, g)
      else ([], s, g)

/-- Decode the chain that starts at an address. -/
def decodeChain (isGolden : γ → U32 → Bool × γ) (va pa blockPage : U32) (s : Sys β) (g : γ) :
    List Step × Sys β × γ :=
  decodeLoop isGolden blockPage MAX_CHAIN_LEN va pa 0 s g

end

/-! ## The process the code runs in -/

/-- What emitted code accesses in a `Cpu`. -/
inductive Field where
  | reg (i : Reg)
  | pc
  | insnsRetired
  | fastPathHits
  | fastPathBails
  deriving DecidableEq

/-- The constants `REGS_OFF`, `PC_OFF` and so on. -/
structure Offsets where
  regsOff : U32
  pcOff : U32
  insnsRetiredOff : U32
  fastPathHitsOff : U32
  fastPathBailsOff : U32

def Offsets.off (o : Offsets) : Field → U32
  | .reg i => o.regsOff + 4 * i.setWidth 32
  | .pc => o.pcOff
  | .insnsRetired => o.insnsRetiredOff
  | .fastPathHits => o.fastPathHitsOff
  | .fastPathBails => o.fastPathBailsOff

/-- The layout of a `Cpu`: different fields have different offsets. -/
structure Layout extends Offsets where
  apart : Function.Injective toOffsets.off

/-- The widths of an access. -/
inductive Width where
  | w1 | w2 | w4
  deriving DecidableEq

def Width.size : Width → Nat
  | .w1 => 1
  | .w2 => 2
  | .w4 => 4

/-- The functions that emitted code calls: loads of one width share their pointer check. -/
inductive Shim where
  | load (op : LoadOp)
  | store (op : StoreOp)
  | fastLoadPtr (w : Width)
  | fastStorePtr (op : StoreOp)
  deriving DecidableEq

def loadWidth : LoadOp → Width
  | .lb | .lbu => .w1
  | .lh | .lhu => .w2
  | .lw => .w4

/-- Where the `Cpu`, the bus and the functions are in the process, and which address a host pointer
has. No pointer is null, none points into the `Cpu`, and different functions have different
addresses. -/
structure Process extends Layout where
  cpu : U64
  busData : U64
  busVtable : U64
  shim : Shim → U64
  place : HostPtr → U64
  shim_apart : Function.Injective shim
  place_ne_zero : ∀ p, place p ≠ 0
  place_ne_field : ∀ p f, place p ≠ cpu + (toOffsets.off f).signExtend 64

/-! ## Emitting a chain -/

section
variable (P : Process)

/-- `load_reg`: reading `x0` is a zero. -/
def loadReg (dst : Gpr) (i : Reg) : List U8 :=
  if i = 0 then Asm.zero dst else Asm.movR32Mem dst .rdi (P.off (.reg i))

/-- `store_reg`: writing `x0` is nothing. -/
def storeReg (i : Reg) (src : Gpr) : List U8 :=
  if i = 0 then [] else Asm.movMemR32 .rdi (P.off (.reg i)) src

def retire : List U8 := Asm.addQwordMemImm8 .rdi (P.off .insnsRetired) 1

def alu2Of : AluOp → Option AluKind
  | .add => some .add
  | .sub => some .sub
  | .xor => some .xor
  | .or => some .or
  | .and => some .and
  | _ => none

/-- The second operand is the immediate, if there is one, and else in `rcx`. -/
def emitAlu2 (kind : AluKind) (rhsImm : Option U32) : List U8 :=
  match rhsImm with
  | some imm => Asm.aluR32Imm32 kind .rax imm
  | none => Asm.aluR32R32 kind .rax .rcx

def emitShift (kind : ShiftKind) (rhsImm : Option U32) : List U8 :=
  match rhsImm with
  | some imm => Asm.shiftImm8 kind .rax ((imm &&& 0x1f).setWidth 8)
  | none => Asm.shiftCl kind .rax

def emitSlt (cc : Cond) (rhsImm : Option U32) : List U8 :=
  emitAlu2 .cmp rhsImm ++ Asm.setcc cc .r9 ++ Asm.movzxR32R8 .rax .r9

/-- `emit_alu_reg_result`: the first operand and the result are in `rax`. -/
def emitAluRegResult (op : AluOp) (rhsImm : Option U32) : List U8 :=
  match alu2Of op with
  | some kind => emitAlu2 kind rhsImm
  | none =>
    match op with
    | .slt => emitSlt .l rhsImm
    | .sltu => emitSlt .b rhsImm
    | .sll => emitShift .shl rhsImm
    | .srl => emitShift .shr rhsImm
    | .sra => emitShift .sar rhsImm
    | _ => []

/-- Jump over a block, which returns. -/
def emitSkip (skipIf : Cond) (inner : List U8) : List U8 :=
  Asm.jccRel32 skipIf (BitVec.ofNat 32 inner.length) ++ inner

/-- One of two blocks, both of which go on with what follows. -/
def emitIfElse (cc : Cond) (thenBuf elseBuf : List U8) : List U8 :=
  Asm.jccRel32 cc (BitVec.ofNat 32 (elseBuf.length + 5)) ++ elseBuf ++
    Asm.jmpRel32 (BitVec.ofNat 32 thenBuf.length) ++ thenBuf

/-- A call-out, with a fifth register saved around it besides the four of the plan. -/
def emitCallSaving (fifth : Gpr) (call : List U8) : List U8 :=
  Asm.pushR64 fifth ++ Asm.pushR64 .rdi ++ Asm.pushR64 .rsi ++ Asm.pushR64 .rdx ++ Asm.pushR64 .r8 ++
    call ++
    Asm.popR64 .r8 ++ Asm.popR64 .rdx ++ Asm.popR64 .rsi ++ Asm.popR64 .rdi ++ Asm.popR64 fifth

/-- `r9` is saved for the alignment of the stack alone. -/
def emitCallPreservingRegs (call : List U8) : List U8 := emitCallSaving .r9 call

/-- The address stays in `rcx` for the slow path. -/
def emitFastPathCallPreservingVa (call : List U8) : List U8 := emitCallSaving .rcx call

def callShim (f : Shim) : List U8 := Asm.movR64Imm64 .r11 (P.shim f) ++ Asm.callR64 .r11

def emitSizedLoadFromPtr (op : LoadOp) (dst ptr : Gpr) : List U8 :=
  match op with
  | .lb => Asm.movsxR32Mem8 dst ptr 0
  | .lbu => Asm.movzxR32Mem8 dst ptr 0
  | .lh => Asm.movsxR32Mem16 dst ptr 0
  | .lhu => Asm.movzxR32Mem16 dst ptr 0
  | .lw => Asm.movR32Mem dst ptr 0

def emitSizedStoreToPtr (op : StoreOp) (ptr src : Gpr) : List U8 :=
  match op with
  | .sb => Asm.movMem8R8 ptr 0 src
  | .sh => Asm.movMem16R16 ptr 0 src
  | .sw => Asm.movMemR32 ptr 0 src

/-- Store an address of the chain, relative to its entry, in `pc`. -/
def emitPc (scratch : Gpr) (disp : U32) : List U8 :=
  Asm.leaR32Mem scratch .r8 disp ++ Asm.movMemR32 .rdi (P.off .pc) scratch

/-- The host pointer for the access at `rcx`, in `rax`; zero is none. -/
def emitFastPtr (f : Shim) : List U8 :=
  emitFastPathCallPreservingVa (callShim P f) ++ Asm.testR64R64 .rax .rax

/-- The address of an access, in `rcx`. -/
def emitVa (rs1 : Reg) (imm : U32) : List U8 :=
  loadReg P .rcx rs1 ++ Asm.aluR32Imm32 .add .rcx imm

def emitLoadFast (op : LoadOp) (rd : Reg) : List U8 :=
  Asm.addQwordMemImm8 .rdi (P.off .fastPathHits) 1 ++ emitSizedLoadFromPtr op .rcx .rax ++ retire P ++
    storeReg P rd .rcx

/-- `pc` is the load's own while the call-out runs, for the trap it may report. -/
def emitLoadSlow (op : LoadOp) (rd : Reg) (staticOffset : U32) : List U8 :=
  Asm.addQwordMemImm8 .rdi (P.off .fastPathBails) 1 ++ emitPc P .rax staticOffset ++
    emitCallPreservingRegs (callShim P (.load op)) ++ Asm.testR64R64 .rax .rax ++
    emitSkip .ns Asm.ret ++ retire P ++ storeReg P rd .rax

def emitStoreFast (op : StoreOp) (rs2 : Reg) : List U8 :=
  Asm.addQwordMemImm8 .rdi (P.off .fastPathHits) 1 ++ loadReg P .rcx rs2 ++
    emitSizedStoreToPtr op .rax .rcx ++ retire P

/-- The value goes into `r8`, which is saved. A store that halts or asks for a poll has retired. -/
def emitStoreSlow (op : StoreOp) (rs2 : Reg) (staticOffset ilen : U32) : List U8 :=
  Asm.addQwordMemImm8 .rdi (P.off .fastPathBails) 1 ++ emitPc P .rax staticOffset ++
    emitCallPreservingRegs (loadReg P .r8 rs2 ++ callShim P (.store op)) ++
    Asm.testR64R64 .rax .rax ++ emitSkip .ns Asm.ret ++
    emitSkip .e (retire P ++ emitPc P .rcx (staticOffset + ilen) ++ Asm.ret) ++ retire P

def ccOf : BranchOp → Cond
  | .eq => .e
  | .ne => .ne
  | .lt => .l
  | .ge => .ge
  | .ltu => .b
  | .geu => .ae

/-- The link register of a jump, written only if it is not `x0`. -/
def emitLink (rd : Reg) (disp : U32) : List U8 :=
  if rd = 0 then [] else Asm.leaR32Mem .rax .r8 disp ++ storeReg P rd .rax

/-- The code of one instruction. -/
def emitStep (step : Step) : List U8 :=
  let next := step.staticOffset + step.ilen
  match step.inst with
  | .lui rd imm => if rd = 0 then [] else Asm.movR32Imm32 .rax imm ++ storeReg P rd .rax
  | .auipc rd imm => emitLink P rd (step.staticOffset + imm)
  | .opImm op rd rs1 imm =>
    loadReg P .rax rs1 ++ emitAluRegResult op (some imm) ++ storeReg P rd .rax
  | .op op rd rs1 rs2 =>
    loadReg P .rax rs1 ++ loadReg P .rcx rs2 ++ emitAluRegResult op none ++ storeReg P rd .rax
  | .fence => []
  | .jal rd imm => emitLink P rd next ++ emitPc P .rcx (step.staticOffset + imm)
  | .jalr rd rs1 imm =>
    loadReg P .rcx rs1 ++ Asm.aluR32Imm32 .add .rcx imm ++ Asm.aluR32Imm32 .and .rcx 0xfffffffe ++
      emitLink P rd next ++ Asm.movMemR32 .rdi (P.off .pc) .rcx
  | .branch op rs1 rs2 imm =>
    loadReg P .rax rs1 ++ loadReg P .rcx rs2 ++ Asm.aluR32R32 .cmp .rax .rcx ++
      Asm.leaR32Mem .r9 .r8 next ++ Asm.leaR32Mem .r10 .r8 (step.staticOffset + imm) ++
      Asm.cmovcc (ccOf op) .r9 .r10 ++ Asm.movMemR32 .rdi (P.off .pc) .r9
  | .load op rd rs1 imm =>
    emitVa P rs1 imm ++ emitFastPtr P (.fastLoadPtr (loadWidth op)) ++
      emitIfElse .ne (emitLoadFast P op rd) (emitLoadSlow P op rd step.staticOffset)
  | .store op rs1 rs2 imm =>
    emitVa P rs1 imm ++ emitFastPtr P (.fastStorePtr op) ++
      emitIfElse .ne (emitStoreFast P op rs2) (emitStoreSlow P op rs2 step.staticOffset step.ilen)
  | _ => []

/-- The code of one instruction and the count of it; loads and stores count themselves. -/
def emitRetired (step : Step) : List U8 :=
  emitStep P step ++ if isMem step.inst then [] else retire P

/-- A chain that does not end in a control transfer goes on after its last instruction. -/
def emitFallOff (steps : List Step) : List U8 :=
  match steps.getLast? with
  | some last =>
    if isTerminal last.inst then [] else emitPc P .rax (last.staticOffset + last.ilen)
  | none => []

/-- The code of a chain. -/
def codegen (steps : List Step) : List U8 :=
  Asm.movR32Mem .r8 .rdi (P.off .pc) ++ (steps.map (emitRetired P)).flatten ++ emitFallOff P steps ++
    Asm.zero .rax ++ Asm.ret

end

/-! ## Running it -/

def TAG_TRAP : U64 := 1#64 <<< 63
def TAG_HALT : U64 := 1#64 <<< 62
def TAG_REPOLL : U64 := 1#64 <<< 61

/-- The memory that emitted code sees: the hart and the bus, the counters of the fast path, and the
pointer granted last, with its address and its length. -/
structure Mem (β : Type) where
  sys : Sys β
  fastPathHits : U64
  fastPathBails : U64
  granted : Option (U64 × HostPtr × Nat)

namespace Process

section
variable (P : Process)

def fieldAddr (f : Field) : U64 := P.cpu + (P.off f).signExtend 64

def fields : List Field :=
  (List.finRange 32).map (fun i => .reg (BitVec.ofFin i)) ++
    [.pc, .insnsRetired, .fastPathHits, .fastPathBails]

/-- The field at an address. -/
def fieldAt (a : U64) : Option Field := fields.find? fun f => P.fieldAddr f = a

def shims : List Shim :=
  [.lb, .lh, .lw, .lbu, .lhu].map .load ++ [.w1, .w2, .w4].map .fastLoadPtr ++
    [.sb, .sh, .sw].map .store ++ [.sb, .sh, .sw].map .fastStorePtr

/-- The function at an address. -/
def shimAt (a : U64) : Option Shim := shims.find? fun f => P.shim f = a

end

end Process

section
variable {β : Type}

namespace Mem

def hart (m : Mem β) : Hart := m.sys.hart

/-- Change the hart. -/
def modHart (m : Mem β) (f : Hart → Hart) : Mem β :=
  { m with sys := m.sys.setHart (f m.sys.hart) }

def readField (m : Mem β) (f : Field) (n : Nat) : Option (BitVec (8 * n)) :=
  match f, n with
  | .reg i, 4 => some (m.hart.regs i)
  | .pc, 4 => some m.hart.pc
  | .insnsRetired, 8 => some m.hart.insnsRetired
  | .fastPathHits, 8 => some m.fastPathHits
  | .fastPathBails, 8 => some m.fastPathBails
  | _, _ => none

def writeField (m : Mem β) (f : Field) (n : Nat) (v : BitVec (8 * n)) : Option (Mem β) :=
  match f, n, v with
  | .reg i, 4, v => some (m.modHart fun h => { h with regs := Function.update h.regs i v })
  | .pc, 4, v => some (m.modHart fun h => { h with pc := v })
  | .insnsRetired, 8, v => some (m.modHart fun h => { h with insnsRetired := v })
  | .fastPathHits, 8, v => some { m with fastPathHits := v }
  | .fastPathBails, 8, v => some { m with fastPathBails := v }
  | _, _, _ => none

variable [Bus β]

/-- Read a field of the `Cpu`, or through the granted pointer. -/
def load (P : Process) (m : Mem β) (a : U64) (n : Nat) : Option (BitVec (8 * n)) :=
  match P.fieldAt a with
  | some f => m.readField f n
  | none =>
    match m.granted with
    | some (b, p, len) =>
      if b = a ∧ len = n then some ((leValue (Bus.ptrLoad m.sys.bus p n)).setWidth (8 * n)) else none
    | none => none

/-- Write a field of the `Cpu`, or through the granted pointer. -/
def store (P : Process) (m : Mem β) (a : U64) (n : Nat) (v : BitVec (8 * n)) : Option (Mem β) :=
  match P.fieldAt a with
  | some f => m.writeField f n v
  | none =>
    match m.granted with
    | some (b, p, len) =>
      if b = a ∧ len = n then
        some { m with sys := { m.sys with
          bus := Bus.ptrStore m.sys.bus p (leBytes (v.setWidth 32) n) } }
      else none
    | none => none

/-- `load_common`. -/
def loadCommon (m : Mem β) (va : U32) (size : Nat) (signed : Bool) : U64 × Mem β :=
  match loadImpl va size signed m.sys with
  | (.ok v, s) => (v.setWidth 64, { m with sys := s })
  | (.error t, s) =>
    (TAG_TRAP, { m with sys := s.setHart { s.hart with jitPendingTrap := some t } })

/-- `store_common`. -/
def storeCommon (m : Mem β) (va val : U32) (size : Nat) (isSw : Bool) : U64 × Mem β :=
  match storeImpl va size val m.sys with
  | (.error t, s) =>
    (TAG_TRAP, { m with sys := s.setHart { s.hart with jitPendingTrap := some t } })
  | (.ok (), s) =>
    if isSw ∧ m.hart.htifTohost = some va ∧ val &&& 1 ≠ 0 then
      (TAG_HALT ||| (val >>> 1).setWidth 64, { m with sys := s })
    else if Bus.storeMayAssertInterrupt s.bus va size then (TAG_REPOLL, { m with sys := s })
    else (0, { m with sys := s })

/-- Hand out a host pointer, or zero. -/
def grant (P : Process) (m : Mem β) (len : Nat) (r : Option HostPtr × β) : U64 × Mem β :=
  let m := { m with sys := { m.sys with bus := r.2 } }
  match r.1 with
  | some p => (P.place p, { m with granted := some (P.place p, p, len) })
  | none => (0, m)

/-- The function of a call-out. A granted pointer is good until the next one. -/
def call (P : Process) (m : Mem β) (f : Shim) (va val : U32) : U64 × Mem β :=
  let m := { m with granted := none }
  match f with
  | .load op => m.loadCommon va op.size op.signed
  | .store op => m.storeCommon va val op.size (op = .sw)
  | .fastLoadPtr w => m.grant P w.size (fastLoadPtr m.sys va w.size)
  | .fastStorePtr op => m.grant P op.size (fastStorePtr m.sys va op.size (op = .sw))

end Mem

/-- The host of emitted code. Call-outs take the `Cpu` and the two words of the bus in their first
three arguments, the address in the fourth and the value in the fifth. -/
def host [Bus β] (P : Process) (junk : State (Mem β) → Gpr → Word)
    (junkFlags : State (Mem β) → Flags) : Host (Mem β) where
  load m a n := m.load P a n
  store m a n v := m.store P a n v
  call a regs m := do
    let f ← P.shimAt a
    if regs .rdi = P.cpu ∧ regs .rsi = P.busData ∧ regs .rdx = P.busVtable then
      some (m.call P f ((regs .rcx).setWidth 32) ((regs .r8).setWidth 32))
    else none
  junk := junk
  junkFlags := junkFlags

end

/-! ## The interpreter on the chain -/

/-- How a chain ends. -/
inductive ChainExit where
  | done
  | trap (t : Trap)
  | halt (code : U32)
  | repoll

/-- What the compiled chain returns for it. -/
def ChainExit.tag : ChainExit → U64
  | .done => 0
  | .trap _ => TAG_TRAP
  | .halt code => TAG_HALT ||| code.setWidth 64
  | .repoll => TAG_REPOLL

section
variable {β : Type} [Bus β]

/-- The store goes through the call-out, which sees that an interrupt may be due. -/
def repolls (inst : Inst) (s s' : Sys β) : Bool :=
  match inst with
  | .store op rs1 _ imm =>
    let va := s.hart.rdReg rs1 + imm
    (fastStorePtr s va op.size (op = .sw)).1.isNone &&
      Bus.storeMayAssertInterrupt s'.bus va op.size
  | _ => false

/-- `exec_one` over the steps, up to the first early exit. -/
def execChain (iword : Step → U32) : List Step → Sys β → ChainExit × Sys β
  | [], s => (.done, s)
  | step :: steps, s =>
    match execOne step.inst s.hart.pc step.ilen (iword step) s with
    | (.error t, s') => (.trap t, s'.setHart { s'.hart with jitPendingTrap := some t })
    | (.ok (.halt code), s') => (.halt code, s')
    | (.ok _, s') => if repolls step.inst s s' then (.repoll, s') else execChain iword steps s'

end

end Jit

end FuzzSoft
