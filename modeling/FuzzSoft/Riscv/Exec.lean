import FuzzSoft.Riscv.Xlate

/-!
# Execution

`Cpu::step_system` and everything it runs: translated loads and stores, the execute stage, trap
delivery and interrupt polling.
-/

namespace FuzzSoft

open Lib

/-! ## Guest memory accesses -/

def crossesPage (va : U32) (size : Nat) : Bool := (va &&& 0xfff).toNat + size > 0x1000

def misaligned (va : U32) (size : Nat) : Bool := va &&& (BitVec.ofNat 32 size - 1) ≠ 0

/-- The access is serviced byte by byte. -/
def bytewise (va : U32) (size : Nat) : Bool := misaligned va size || crossesPage va size

/-- Sign-extend a sub-word load. -/
def extendLoad (v : U32) (size : Nat) (signed : Bool) : U32 :=
  if signed then
    match size with
    | 1 => (v.setWidth 8).signExtend 32
    | 2 => (v.setWidth 16).signExtend 32
    | _ => v
  else v

/-- Extend a span's taint mask as the value was extended. -/
def extendLoadTaint (mask : U32) (size : Nat) (signed : Bool) : U32 :=
  if 4 ≤ size || !signed then mask
  else if mask &&& (1#32 <<< (8 * (size - 1))) = 0 then mask
  else (List.range' size (4 - size)).foldl (fun m pos => m ||| (1#32 <<< (8 * pos))) mask

section
variable {β : Type} [Bus β]

def fetch16 (va : U32) : Exec β U16 := do
  let pa ← xlate va .exec
  busIfetch16 pa

/-- Gather `n` values of one byte each, from byte `i` on, into their places in a word. -/
def gather (one : U32 → Exec β U32) (va : U32) : (i n : Nat) → Exec β U32
  | _, 0 => pure 0
  | i, n + 1 => do
    let b ← one (va + BitVec.ofNat 32 i)
    let rest ← gather one va (i + 1) n
    pure ((b <<< (8 * i)) ||| rest)

/-- Service `n` bytes from byte `i` on, one by one. -/
def scatter (one : U32 → Nat → Exec β Unit) (va : U32) : (i n : Nat) → Exec β Unit
  | _, 0 => pure ()
  | i, n + 1 => do
    one (va + BitVec.ofNat 32 i) i
    scatter one va (i + 1) n

/-- One translated byte load. -/
def loadByte (va : U32) : Exec β U32 := do
  let pa ← xlate va .read
  let b ← busLoad pa 1
  pure (b &&& 0xff)

/-- The bytes of a translated load, before extension. -/
def loadSpan (va : U32) (size : Nat) : Exec β U32 :=
  if bytewise va size then gather loadByte va 0 size
  else do
    let pa ← xlate va .read
    busLoad pa size

/-- Translated load. -/
def loadImpl (va : U32) (size : Nat) (signed : Bool) : Exec β U32 := do
  let v ← loadSpan va size
  pure (extendLoad v size signed)

/-- One translated byte store. -/
def storeByte (val : U32) (va : U32) (i : Nat) : Exec β Unit := do
  let pa ← xlate va .write
  busStore pa 1 ((val >>> (8 * i)) &&& 0xff)

/-- Translated store. -/
def storeImpl (va : U32) (size : Nat) (val : U32) : Exec β Unit :=
  if bytewise va size then scatter (storeByte val) va 0 size
  else do
    let pa ← xlate va .write
    busStore pa size val

/-- The taint of one byte. -/
def loadTaintByte (va : U32) : Exec β U32 := do
  let pa ← xlate va .read
  busRawState pa 1

/-- The taint mask of the span a load reads. -/
def loadTaint (va : U32) (size : Nat) : Exec β U32 :=
  if bytewise va size then gather loadTaintByte va 0 size
  else do
    let pa ← xlate va .read
    busRawState pa size

/-- Scatter the taint of one byte. -/
def storeTaintByte (mask : U32) (va : U32) (i : Nat) : Exec β Unit := do
  let pa ← xlate va .write
  busWriteShadow pa 1 ((mask >>> (8 * i)) &&& 1)

/-- Scatter a stored value's taint over the span the store wrote. -/
def storeTaint (va : U32) (size : Nat) (mask : U32) : Exec β Unit :=
  if bytewise va size then scatter (storeTaintByte mask) va 0 size
  else do
    let pa ← xlate va .write
    busWriteShadow pa size mask

/-- A load and, with KMSAN on, the taint of what it read. -/
def loadWithTaint (va : U32) (size : Nat) (signed : Bool) : Exec β (U32 × Option U32) := do
  let v ← loadImpl va size signed
  let h ← getHart
  if h.kmsanEnabled then do
    let mask ← loadTaint va size
    pure (v, some mask)
  else pure (v, none)

/-- The word store of a store-conditional that may go ahead. -/
def storeIf (success : Bool) (va val : U32) : Exec β Unit :=
  if success then storeImpl va 4 val else pure ()

/-- A store and, with a taint mask, its scatter. -/
def storeWithTaint (va : U32) (size : Nat) (val : U32) (mask : Option U32) : Exec β Unit := do
  storeImpl va size val
  match mask with
  | some t => storeTaint va size t
  | none => pure ()

def amoResult (op : AmoOp) (old src : U32) : U32 :=
  match op with
  | .swap => src
  | .add => old + src
  | .xor => old ^^^ src
  | .and => old &&& src
  | .or => old ||| src
  | .min => if old.slt src then old else src
  | .max => if old.slt src then src else old
  | .minu => if old ≤ src then old else src
  | .maxu => if old ≤ src then src else old

/-- The read-modify-write of an AMO. The taint of `rd` is written before the store, which may still
fault. -/
def amoAccess (op : AmoOp) (rd : Reg) (va src : U32) : Exec β U32 := do
  let pa ← xlate va .write
  let old ← busLoad pa 4
  let raw ← busRawState pa 4
  modifyHart fun h => if h.kmsanEnabled then h.wrTaint rd raw else h
  busStore pa 4 (amoResult op old src)
  pure old

/-! ## The execute stage -/

def LoadOp.size : LoadOp → Nat
  | .lb | .lbu => 1
  | .lh | .lhu => 2
  | .lw => 4

def LoadOp.signed : LoadOp → Bool
  | .lb | .lh => true
  | _ => false

def StoreOp.size : StoreOp → Nat
  | .sb => 1
  | .sh => 2
  | .sw => 4

def branchTaken (op : BranchOp) (a b : U32) : Bool :=
  match op with
  | .eq => a = b
  | .ne => a ≠ b
  | .lt => a.slt b
  | .ge => !a.slt b
  | .ltu => a < b
  | .geu => b ≤ a

/-- Write a register whose value is fully known, clearing its taint. -/
def Hart.wrClean (h : Hart) (rd : Reg) (v : U32) : Hart :=
  (h.wrReg rd v).wrTaint rd 0

/-- Write a register and its taint. -/
def Hart.wrTainted (h : Hart) (rd : Reg) (v t : U32) : Hart :=
  (h.wrTaint rd t).wrReg rd v

/-- The old value of a CSR; counters come from the hart. -/
def Hart.readCsr (h : Hart) (csr : U16) : Option U32 :=
  if csr = CYCLE ∨ csr = INSTRET then some (h.insnsRetired.setWidth 32)
  else if csr = CYCLEH ∨ csr = INSTRETH then some ((h.insnsRetired >>> 32).setWidth 32)
  else if csr = TIME then some (h.virtualTime.setWidth 32)
  else if csr = TIMEH then some ((h.virtualTime >>> 32).setWidth 32)
  else h.csr.read csr h.privilege

/-- The operand of a CSR operation. -/
def Hart.csrSrc (h : Hart) (op : CsrOp) (src : Reg) : U32 :=
  match op with
  | .rwi | .rsi | .rci => src.setWidth 32
  | _ => h.rdReg src

def csrDoesWrite (op : CsrOp) (src : Reg) : Bool :=
  match op with
  | .rw | .rwi => true
  | _ => src ≠ 0

def csrNew (op : CsrOp) (old srcVal : U32) : U32 :=
  match op with
  | .rw | .rwi => srcVal
  | .rs | .rsi => old ||| srcVal
  | .rc | .rci => old &&& ~~~srcVal

/-- The write of a CSR instruction, if it makes one. A write to `satp` flushes the TLB. -/
def writeCsr (op : CsrOp) (src : Reg) (csr : U16) (old : U32) (trap : Trap) : Exec β Unit := do
  let h ← getHart
  if csrDoesWrite op src then
    match h.csr.write csr (csrNew op old (h.csrSrc op src)) h.privilege with
    | none => Comp.throw trap
    | some c => setCsr c (csr = SATP)
  else pure ()

/-- The CSR instructions. -/
def execCsr (op : CsrOp) (rd src : Reg) (csr : U16) (pc iword : U32) : Exec β Unit := do
  let h ← getHart
  match h.readCsr csr with
  | none => Comp.throw (.illegal pc iword)
  | some old => do
    writeCsr op src csr old (.illegal pc iword)
    modifyHart (·.wrClean rd old)

/-- `mstatus` with the bit `dst` set to the value of the bit `src`. -/
def moveBit (s dst src : U32) : U32 := (s &&& ~~~dst) ||| (if s &&& src ≠ 0 then dst else 0)

/-- Return to the privilege `bits`: MPRV is cleared below M. -/
def Hart.returnTo (h : Hart) (s bits : U32) : Hart :=
  let newp := Priv.fromBits bits
  let s := if newp ≠ .m then s &&& ~~~MSTATUS_MPRV else s
  { h with csr := { h.csr with mstatus := s }, privilege := newp }

def Hart.mret (h : Hart) : Hart :=
  let mpp := (h.csr.mstatus &&& MSTATUS_MPP) >>> 11
  let s := moveBit h.csr.mstatus MSTATUS_MIE MSTATUS_MPIE
  h.returnTo ((s ||| MSTATUS_MPIE) &&& ~~~MSTATUS_MPP) mpp

def Hart.sret (h : Hart) : Hart :=
  let spp := (h.csr.mstatus &&& MSTATUS_SPP) >>> 8
  let s := moveBit h.csr.mstatus MSTATUS_SIE MSTATUS_SPIE
  h.returnTo ((s ||| MSTATUS_SPIE) &&& ~~~MSTATUS_SPP) spp

/-- A branch: its operands are logged, and with KMSAN on a tainted operand stops the run. -/
def execBranch (op : BranchOp) (rs1 rs2 : Reg) (imm pc next : U32) : Exec β U32 := do
  let h ← getHart
  let a := h.rdReg rs1
  let b := h.rdReg rs2
  modifyHart (·.logCmp a b)
  if h.kmsanEnabled && (h.rdTaint rs1 ≠ 0 || h.rdTaint rs2 ≠ 0) then
    Comp.throw (.kmsanTainted pc rs1 rs2 (h.rdTaint rs1) (h.rdTaint rs2))
  else pure (if branchTaken op a b then pc + imm else next)

/-- A store: a word store to `tohost` with bit 0 set asks for an exit. -/
def execStore (op : StoreOp) (rs1 rs2 : Reg) (imm : U32) : Exec β Exit := do
  let h ← getHart
  let addr := h.rdReg rs1 + imm
  let val := h.rdReg rs2
  let mask := if h.kmsanEnabled then some (h.rdTaint rs2) else none
  storeWithTaint addr op.size val mask
  pure (if op = .sw ∧ h.htifTohost = some addr ∧ val &&& 1 ≠ 0 then .halt (val >>> 1)
    else .continue)

/-- A division whose divisor is checked by UBSAN. -/
def MulOp.isDiv : MulOp → Bool
  | .div | .divu | .rem | .remu => true
  | _ => false

/-- The effect of one instruction: its exit and the next `pc`. -/
def execInst (inst : Inst) (pc next iword : U32) : Exec β (Exit × U32) := do
  let h ← getHart
  match inst with
  | .lui rd imm => do
    modifyHart (·.wrClean rd imm)
    pure (.continue, next)
  | .auipc rd imm => do
    modifyHart (·.wrClean rd (pc + imm))
    pure (.continue, next)
  | .jal rd imm => do
    modifyHart (·.wrClean rd next)
    pure (.continue, pc + imm)
  | .jalr rd rs1 imm => do
    modifyHart (·.wrClean rd next)
    pure (.continue, (h.rdReg rs1 + imm) &&& ~~~1)
  | .branch op rs1 rs2 imm => do
    let next ← execBranch op rs1 rs2 imm pc next
    pure (.continue, next)
  | .load op rd rs1 imm => do
    let r ← loadWithTaint (h.rdReg rs1 + imm) op.size op.signed
    modifyHart (·.wrTainted rd r.1 (extendLoadTaint (r.2.getD 0) op.size op.signed))
    pure (.continue, next)
  | .store op rs1 rs2 imm => do
    let exit ← execStore op rs1 rs2 imm
    pure (exit, next)
  | .opImm op rd rs1 imm => do
    modifyHart fun h => h.wrTainted rd (alu op (h.rdReg rs1) imm) (aluTaint (h.rdTaint rs1) 0)
    pure (.continue, next)
  | .op op rd rs1 rs2 => do
    modifyHart fun h =>
      let h' := if op = .sub ∨ op = .xor then h.logCmp (h.rdReg rs1) (h.rdReg rs2) else h
      h'.wrTainted rd (alu op (h.rdReg rs1) (h.rdReg rs2))
        (aluTaint (h.rdTaint rs1) (h.rdTaint rs2))
    pure (.continue, next)
  | .mul op rd rs1 rs2 => do
    modifyHart fun h =>
      let h' := if op.isDiv ∧ h.rdReg rs2 = 0 then h.logUbsan pc else h
      h'.wrTainted rd (muldiv op (h.rdReg rs1) (h.rdReg rs2))
        (muldivTaint (h.rdTaint rs1) (h.rdTaint rs2))
    pure (.continue, next)
  | .lrW rd rs1 _ _ => do
    let addr := h.rdReg rs1
    let r ← loadWithTaint addr 4 false
    modifyHart fun h => { h.wrTainted rd r.1 (r.2.getD 0) with reservation := some addr }
    pure (.continue, next)
  | .scW rd rs1 rs2 _ _ => do
    let addr := h.rdReg rs1
    let success : Bool := h.reservation = some addr
    storeIf success addr (h.rdReg rs2)
    modifyHart fun h => { h.wrClean rd (if success then 0 else 1) with reservation := none }
    pure (.continue, next)
  | .amoW op rd rs1 rs2 _ _ => do
    let old ← amoAccess op rd (h.rdReg rs1) (h.rdReg rs2)
    modifyHart fun h => { h with reservation := none }.wrReg rd old
    pure (.continue, next)
  | .fence | .wfi => pure (.continue, next)
  | .ecall => pure (.ecall, pc)
  | .ebreak => pure (.ebreak, pc)
  | .csr op rd src csr => do
    execCsr op rd src csr pc iword
    pure (.continue, next)
  | .mret =>
    if h.privilege.level < Priv.m.level then Comp.throw (.illegal pc iword)
    else do
      modifyHart Hart.mret
      pure (.continue, h.csr.mepc)
  | .sret =>
    if h.privilege.level < Priv.s.level then Comp.throw (.illegal pc iword)
    else do
      modifyHart Hart.sret
      pure (.continue, h.csr.sepc)
  | .sfenceVma => do
    flushTlb
    pure (.continue, next)
  | .illegal raw => Comp.throw (.illegal pc raw)

/-- Advance `pc` and count the instruction. -/
def Hart.retire (h : Hart) (next : U32) : Hart :=
  { h with pc := next, insnsRetired := h.insnsRetired + 1 }

/-- Execute one decoded instruction (`Cpu::exec_one`). -/
def execOne (inst : Inst) (pc ilen iword : U32) : Exec β Exit := do
  let r ← execInst inst pc (pc + ilen) iword
  modifyHart (·.retire r.2)
  pure r.1

/-- A fetched instruction with its length and its raw word. -/
structure Fetched where
  inst : Inst
  ilen : U32
  iword : U32

/-- The variable-length fetch and decode at `pc`. -/
def fetchDecode (pc : U32) : Exec β Fetched := do
  let lo ← fetch16 pc
  if lo &&& 0x3 ≠ 0x3 then pure ⟨decodeCompressed lo, 2, lo.setWidth 32⟩
  else do
    let hi ← fetch16 (pc + 2)
    let w := lo.setWidth 32 ||| (hi.setWidth 32 <<< 16)
    pure ⟨decode w, 4, w⟩

/-- Execute one instruction (`Cpu::step`). -/
def step : Exec β Exit := do
  let h ← getHart
  let f ← fetchDecode h.pc
  execOne f.inst h.pc f.ilen f.iword

end

/-! ## Traps and interrupts -/

def trapVector (tvec cause : U32) (interrupt : Bool) : U32 :=
  let base := tvec &&& ~~~0x3
  if tvec &&& 0x3 = 1 ∧ interrupt then base + 4 * cause else base

/-- Bit `i` of a word of flags. -/
def bitSet (w : U32) (i : Nat) : Bool := (w >>> i) &&& 1 ≠ 0

/-- Deliver a trap, to S mode when it is delegated. -/
def Hart.takeTrap (h : Hart) (cause tval : U32) (interrupt : Bool) : Hart :=
  let deleg := if interrupt then h.csr.mideleg else h.csr.medeleg
  let code := (if interrupt then 1#32 <<< 31 else 0) ||| cause
  if h.privilege.level ≤ Priv.s.level ∧ bitSet deleg cause.toNat then
    let s := moveBit h.csr.mstatus MSTATUS_SPIE MSTATUS_SIE &&& ~~~MSTATUS_SIE
    let s := (s &&& ~~~MSTATUS_SPP) ||| ((h.privilege.level &&& 1) <<< 8)
    { h with
      csr := { h.csr with sepc := h.pc, scause := code, stval := tval, mstatus := s }
      privilege := .s
      pc := trapVector h.csr.stvec cause interrupt }
  else
    let s := moveBit h.csr.mstatus MSTATUS_MPIE MSTATUS_MIE &&& ~~~MSTATUS_MIE
    let s := (s &&& ~~~MSTATUS_MPP) ||| (h.privilege.level <<< 11)
    { h with
      csr := { h.csr with mepc := h.pc, mcause := code, mtval := tval, mstatus := s }
      privilege := .m
      pc := trapVector h.csr.mtvec cause interrupt }

/-- The interrupt `code` is enabled in the current mode. -/
def Hart.interruptEnabled (h : Hart) (code : Nat) : Bool :=
  if bitSet h.csr.mideleg code then
    h.privilege = .u || (h.privilege = .s && h.csr.mstatus &&& MSTATUS_SIE ≠ 0)
  else h.privilege ≠ .m || h.csr.mstatus &&& MSTATUS_MIE ≠ 0

/-- The pending and enabled interrupt of highest priority. -/
def Hart.pendingInterrupt (h : Hart) : Option Nat :=
  let pending := h.csr.mip &&& h.csr.mie
  if pending = 0 then none
  else [11, 3, 7, 9, 1, 5].find? fun code => pending &&& (1#32 <<< code) ≠ 0 && h.interruptEnabled code

/-- A word with the flags of `mask` set or cleared. -/
def setFlag (w mask : U32) (on : Bool) : U32 := if on then w ||| mask else w &&& ~~~mask

/-- Refresh the pending bits of the two timers from virtual time. -/
def Hart.updateTimers (h : Hart) : Hart :=
  let t := h.virtualTime
  let mip := setFlag h.csr.mip (1#32 <<< 5) (h.csr.stimecmp ≤ t)
  { h with csr := { h.csr with mip := setFlag mip (1#32 <<< 7) (h.csr.mtimecmp ≤ t) } }

/-- Refresh the timers and take a pending interrupt; says whether one was taken. -/
def Hart.pollInterrupt (h : Hart) : Bool × Hart :=
  let h := h.updateTimers
  match h.pendingInterrupt with
  | some code => (true, h.takeTrap (BitVec.ofNat 32 code) 0 true)
  | none => (false, h)

/-- Full-system step outcome. -/
inductive SysExit where
  | continue
  | halt (code : U32)
  | hypercall (cmd : U32)
  deriving DecidableEq, Repr

def memCause (f : Fault) : U32 :=
  match f.access, f.kind with
  | .exec, .unaligned => E_INSTR_MISALIGNED
  | .exec, _ => E_INSTR_ACCESS
  | .read, .unaligned => E_LOAD_MISALIGNED
  | .read, _ => E_LOAD_ACCESS
  | .write, .unaligned => E_STORE_MISALIGNED
  | .write, _ => E_STORE_ACCESS

/-- The cause of an `ecall` from a mode. -/
def ecallCause : Priv → U32
  | .u => E_ECALL_U
  | .s => E_ECALL_S
  | .m => E_ECALL_M

/-- Turn the result of a step into a system exit: vector a trap, intercept a hypercall. -/
def Hart.finishExit (h : Hart) : Except Trap Exit → SysExit × Hart
  | .ok .continue => (.continue, h)
  | .ok (.halt c) => (.halt c, h)
  | .ok .ecall =>
    if h.hypercallEid = some (h.regs 17) then
      (.hypercall (h.regs 10), { h with pc := h.pc + 4 })
    else (.continue, h.takeTrap (ecallCause h.privilege) 0 false)
  | .ok .ebreak => (.continue, h.takeTrap E_BREAKPOINT h.pc false)
  | .error (.illegal _ raw) => (.continue, h.takeTrap E_ILLEGAL raw false)
  | .error (.mem f) => (.continue, h.takeTrap (memCause f) f.addr false)
  | .error (.exception cause tval) => (.continue, h.takeTrap cause tval false)
  | .error (.kmsanTainted pc rs1 rs2 taintA taintB) =>
    (.halt pc, { h with kmsanHit := some ⟨pc, rs1, rs2, taintA, taintB⟩ })

/-- Apply `finishExit` to the hart of a system. -/
def Sys.finishExit {β : Type} (s : Sys β) (r : Except Trap Exit) : SysExit × Sys β :=
  let f := s.hart.finishExit r
  (f.1, s.setHart f.2)

/-- One full-system step (`Cpu::step_system`). -/
def stepSystem {β : Type} [Bus β] (s : Sys β) : SysExit × Sys β :=
  let p := s.hart.pollInterrupt
  let s := s.setHart p.2
  if p.1 then (.continue, s)
  else
    let r := step s
    r.2.finishExit r.1

end FuzzSoft
