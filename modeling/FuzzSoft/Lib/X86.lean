import Mathlib.Data.BitVec
import Mathlib.Logic.Function.Basic
import Mathlib.Logic.Relation

/-!
# A subset of x86-64

The instructions that a small compiler needs, decoded from their bytes and run on registers, flags, a
stack and a memory. Jumps are relative and stay in the code; `ret` leaves it. Memory and the functions
that `call` reaches belong to the host (`Host`): what a call leaves in the registers that the System V
convention does not preserve, and the flags that a shift leaves, are the host's to choose. The stack
is a list of words, so no instruction of the subset names the stack pointer.
-/

namespace Lib.X86

abbrev Byte := BitVec 8
abbrev Word := BitVec 64

/-- A general-purpose register, by its number. -/
abbrev Gpr := BitVec 4

namespace Gpr

def rax : Gpr := 0
def rcx : Gpr := 1
def rdx : Gpr := 2
def rsp : Gpr := 4
def rsi : Gpr := 6
def rdi : Gpr := 7
def r8 : Gpr := 8
def r9 : Gpr := 9
def r10 : Gpr := 10
def r11 : Gpr := 11

/-- The registers a call does not preserve. -/
def callerSaved (r : Gpr) : Bool :=
  r = rax || r = rcx || r = rdx || r = rsi || r = rdi || r = r8 || r = r9 || r = r10 || r = r11

end Gpr

/-! ## Instructions -/

inductive Cond where
  | e | ne | l | ge | b | ae | ns
  deriving DecidableEq

inductive AluKind where
  | add | or | and | sub | xor | cmp
  deriving DecidableEq

inductive ShiftKind where
  | shl | shr | sar
  deriving DecidableEq

/-- An operand of the two-operand instructions works on 32 bits and clears the upper half of its
destination; `64` in a name marks the exceptions. -/
inductive Instr where
  | movImm (dst : Gpr) (imm : BitVec 32)
  | movImm64 (dst : Gpr) (imm : Word)
  | load (dst base : Gpr) (disp : BitVec 32)
  | store (base : Gpr) (disp : BitVec 32) (src : Gpr)
  /-- Load one or two bytes, sign- or zero-extended. -/
  | loadExt (n : Nat) (signed : Bool) (dst base : Gpr) (disp : BitVec 32)
  /-- Store the low one or two bytes. -/
  | storeLow (n : Nat) (base : Gpr) (disp : BitVec 32) (src : Gpr)
  | lea (dst base : Gpr) (disp : BitVec 32)
  | alu (op : AluKind) (dst src : Gpr)
  | aluImm (op : AluKind) (dst : Gpr) (imm : BitVec 32)
  | shiftCl (op : ShiftKind) (dst : Gpr)
  | shiftImm (op : ShiftKind) (dst : Gpr) (imm : Byte)
  | setcc (cc : Cond) (dst : Gpr)
  | cmov (cc : Cond) (dst src : Gpr)
  | movzx8 (dst src : Gpr)
  | addMem64 (base : Gpr) (disp : BitVec 32) (imm : Byte)
  | test64 (a b : Gpr)
  | push (r : Gpr)
  | pop (r : Gpr)
  | call (r : Gpr)
  | jcc (cc : Cond) (rel : BitVec 32)
  | jmp (rel : BitVec 32)
  | ret
  deriving DecidableEq

/-- The registers an instruction names. -/
def Instr.operands : Instr → List Gpr
  | .movImm dst _ | .movImm64 dst _ | .aluImm _ dst _ | .shiftCl _ dst | .shiftImm _ dst _
  | .setcc _ dst => [dst]
  | .load dst base _ | .loadExt _ _ dst base _ | .lea dst base _ => [dst, base]
  | .store base _ src | .storeLow _ base _ src => [base, src]
  | .alu _ dst src | .cmov _ dst src | .movzx8 dst src => [dst, src]
  | .test64 a b => [a, b]
  | .addMem64 base _ _ => [base]
  | .push r | .pop r | .call r => [r]
  | .jcc _ _ | .jmp _ | .ret => []

/-! ## Decoding -/

/-- A REX prefix; without one no bit is set. -/
structure Rex where
  present : Bool
  w : Bool
  r : Bool
  b : Bool

def takeRex : List Byte → Rex × List Byte
  | [] => (⟨false, false, false, false⟩, [])
  | p :: rest =>
    if p >>> 4 = 4 then (⟨true, p.getLsbD 3, p.getLsbD 2, p.getLsbD 0⟩, rest)
    else (⟨false, false, false, false⟩, p :: rest)

/-- A little-endian 32-bit number. -/
def take32 : List Byte → Option (BitVec 32 × List Byte)
  | a :: b :: c :: d :: rest => some (d ++ c ++ b ++ a, rest)
  | _ => none

/-- A little-endian 64-bit number. -/
def take64 (bytes : List Byte) : Option (Word × List Byte) := do
  let (lo, rest) ← take32 bytes
  let (hi, rest) ← take32 rest
  some (hi ++ lo, rest)

def take8 : List Byte → Option (Byte × List Byte)
  | a :: rest => some (a, rest)
  | [] => none

/-- A register from its extension bit and its three-bit field. -/
def gpr (ext : Bool) (low : BitVec 3) : Gpr := BitVec.ofBool ext ++ low

/-- The operand that a ModRM byte names. -/
inductive Operand where
  | reg (r : Gpr)
  | mem (base : Gpr) (disp : BitVec 32)

/-- The ModRM byte of a register operand, or of one in memory with a 32-bit displacement and no SIB
byte: the `reg` field and the operand. -/
def takeModrm (rex : Rex) : List Byte → Option (BitVec 3 × Operand × List Byte)
  | [] => none
  | m :: rest =>
    let mode := m.extractLsb' 6 2
    let rm := m.extractLsb' 0 3
    if mode = 3 then some (m.extractLsb' 3 3, .reg (gpr rex.b rm), rest)
    else if mode = 2 ∧ rm ≠ 4 then do
      let (disp, rest) ← take32 rest
      some (m.extractLsb' 3 3, .mem (gpr rex.b rm) disp, rest)
    else none

/-- The registers whose low byte has a name: the first four, and with a REX prefix all. -/
def lowByte (rex : Rex) (r : Gpr) : Bool := rex.present || r < 4

def condOf : BitVec 4 → Option Cond
  | 0x2 => some .b
  | 0x3 => some .ae
  | 0x4 => some .e
  | 0x5 => some .ne
  | 0x9 => some .ns
  | 0xc => some .l
  | 0xd => some .ge
  | _ => none

def aluOf : BitVec 3 → Option AluKind
  | 0 => some .add
  | 1 => some .or
  | 4 => some .and
  | 5 => some .sub
  | 6 => some .xor
  | 7 => some .cmp
  | _ => none

def shiftOf : BitVec 3 → Option ShiftKind
  | 4 => some .shl
  | 5 => some .shr
  | 7 => some .sar
  | _ => none

/-- The two-byte opcodes. -/
def decode0F (rex : Rex) (op : Byte) (rest : List Byte) : Option (Instr × List Byte) :=
  if op.extractLsb' 4 4 = 0x8 then do
    let cc ← condOf (op.extractLsb' 0 4)
    let (rel, rest) ← take32 rest
    some (.jcc cc rel, rest)
  else do
    let (reg, operand, rest) ← takeModrm rex rest
    match operand with
    | .reg r =>
      if op.extractLsb' 4 4 = 0x9 then do
        let cc ← condOf (op.extractLsb' 0 4)
        if lowByte rex r then some (.setcc cc r, rest) else none
      else if op.extractLsb' 4 4 = 0x4 then do
        let cc ← condOf (op.extractLsb' 0 4)
        some (.cmov cc (gpr rex.r reg) r, rest)
      else if op = 0xb6 then
        if lowByte rex r then some (.movzx8 (gpr rex.r reg) r, rest) else none
      else none
    | .mem base disp =>
      if op = 0xb6 then some (.loadExt 1 false (gpr rex.r reg) base disp, rest)
      else if op = 0xb7 then some (.loadExt 2 false (gpr rex.r reg) base disp, rest)
      else if op = 0xbe then some (.loadExt 1 true (gpr rex.r reg) base disp, rest)
      else if op = 0xbf then some (.loadExt 2 true (gpr rex.r reg) base disp, rest)
      else none

/-- The one-byte opcodes with a ModRM byte and 32-bit operands. -/
def decodeModrm32 (rex : Rex) (op : Byte) (rest : List Byte) : Option (Instr × List Byte) := do
  let (reg, operand, rest) ← takeModrm rex rest
  match operand with
  | .reg r =>
    if op = 0x81 then do
      let kind ← aluOf reg
      let (imm, rest) ← take32 rest
      some (.aluImm kind r imm, rest)
    else if op = 0xc1 then do
      let kind ← shiftOf reg
      let (imm, rest) ← take8 rest
      some (.shiftImm kind r imm, rest)
    else if op = 0xd3 then do
      let kind ← shiftOf reg
      some (.shiftCl kind r, rest)
    else if op = 0xff ∧ reg = 2 then some (.call r, rest)
    else if op.extractLsb' 6 2 = 0 ∧ op.extractLsb' 0 3 = 1 then do
      let kind ← aluOf (op.extractLsb' 3 3)
      some (.alu kind r (gpr rex.r reg), rest)
    else none
  | .mem base disp =>
    if op = 0x8b then some (.load (gpr rex.r reg) base disp, rest)
    else if op = 0x89 then some (.store base disp (gpr rex.r reg), rest)
    else if op = 0x8d then some (.lea (gpr rex.r reg) base disp, rest)
    else if op = 0x88 then
      if lowByte rex (gpr rex.r reg) then some (.storeLow 1 base disp (gpr rex.r reg), rest)
      else none
    else none

/-- The opcodes with 64-bit operands. -/
def decode64 (rex : Rex) (op : Byte) (rest : List Byte) : Option (Instr × List Byte) :=
  if op.extractLsb' 3 5 = 0x17 then do
    let (imm, rest) ← take64 rest
    some (.movImm64 (gpr rex.b (op.extractLsb' 0 3)) imm, rest)
  else do
    let (reg, operand, rest) ← takeModrm rex rest
    match operand with
    | .reg r => if op = 0x85 then some (.test64 r (gpr rex.r reg), rest) else none
    | .mem base disp =>
      if op = 0x83 ∧ reg = 0 then do
        let (imm, rest) ← take8 rest
        some (.addMem64 base disp imm, rest)
      else none

/-- The opcodes after a REX prefix, if there is one. -/
def decodeOpcode (rex : Rex) : List Byte → Option (Instr × List Byte)
  | [] => none
  | op :: rest =>
    if rex.w then decode64 rex op rest
    else if op = 0x0f then do
      let (op, rest) ← take8 rest
      decode0F rex op rest
    else if op = 0xc3 then some (.ret, rest)
    else if op = 0xe9 then do
      let (rel, rest) ← take32 rest
      some (.jmp rel, rest)
    else if op.extractLsb' 3 5 = 0x17 then do
      let (imm, rest) ← take32 rest
      some (.movImm (gpr rex.b (op.extractLsb' 0 3)) imm, rest)
    else if op.extractLsb' 3 5 = 0x0a then some (.push (gpr rex.b (op.extractLsb' 0 3)), rest)
    else if op.extractLsb' 3 5 = 0x0b then some (.pop (gpr rex.b (op.extractLsb' 0 3)), rest)
    else decodeModrm32 rex op rest

/-- A store of 16 bits, after its operand-size prefix. -/
def decode16 (bytes : List Byte) : Option (Instr × List Byte) := do
  let (rex, rest) := takeRex bytes
  let (op, rest) ← take8 rest
  let (reg, operand, rest) ← takeModrm rex rest
  match operand with
  | .reg _ => none
  | .mem base disp =>
    if op = 0x89 ∧ rex.w = false then some (.storeLow 2 base disp (gpr rex.r reg), rest) else none

def decodeAny : List Byte → Option (Instr × List Byte)
  | [] => none
  | p :: rest =>
    if p = 0x66 then decode16 rest
    else decodeOpcode (takeRex (p :: rest)).1 (takeRex (p :: rest)).2

/-- The instruction that starts here, and the bytes after it. -/
def decode (bytes : List Byte) : Option (Instr × List Byte) :=
  (decodeAny bytes).filter fun r => !r.1.operands.contains Gpr.rsp

/-- `test rax, rax`, and a `ret` after it. -/
example : decode [0x48, 0x85, 0xc0, 0xc3] = some (.test64 .rax .rax, [0xc3]) := by
  simp [decode, decodeAny, takeRex, decodeOpcode, decode64, takeModrm, gpr, Instr.operands, Gpr.rax,
    Gpr.rsp]

/-- `jmp` over the next byte. -/
example : decode [0xe9, 1, 0, 0, 0, 0xc3] = some (.jmp 1, [0xc3]) := by
  simp [decode, decodeAny, takeRex, decodeOpcode, take32, Instr.operands]

/-- `mov eax, [rdi + 16]`. -/
example : decode [0x8b, 0x87, 16, 0, 0, 0] = some (.load .rax .rdi 16, []) := by
  simp [decode, decodeAny, takeRex, decodeOpcode, decodeModrm32, takeModrm, take32, gpr,
    Instr.operands, Gpr.rax, Gpr.rdi, Gpr.rsp]

/-! ## Flags -/

structure Flags where
  carry : Bool
  zero : Bool
  sign : Bool
  overflow : Bool

namespace Cond

def holds (cc : Cond) (f : Flags) : Bool :=
  match cc with
  | .e => f.zero
  | .ne => !f.zero
  | .l => f.sign != f.overflow
  | .ge => f.sign == f.overflow
  | .b => f.carry
  | .ae => !f.carry
  | .ns => !f.sign

end Cond

section
variable {w : Nat}

/-- The flags of a logical operation. -/
def logicFlags (v : BitVec w) : Flags := ⟨false, v = 0, v.msb, false⟩

def addFlags (a b : BitVec w) : Flags :=
  ⟨(a + b).toNat < a.toNat, a + b = 0, (a + b).msb, a.msb == b.msb && (a + b).msb != a.msb⟩

def subFlags (a b : BitVec w) : Flags :=
  ⟨a.toNat < b.toNat, a - b = 0, (a - b).msb, a.msb != b.msb && (a - b).msb != a.msb⟩

end

namespace Cond

variable (a b : BitVec 32)

theorem holds_e : e.holds (subFlags a b) = decide (a = b) := by
  show decide (a - b = 0) = _
  rw [decide_eq_decide, BitVec.sub_eq_iff_eq_add]
  exact Eq.congr_right (BitVec.zero_add b)

/-- After a comparison the sign differs from the overflow exactly for a smaller signed operand. -/
theorem holds_l : l.holds (subFlags a b) = a.slt b := by
  have hmsb : ∀ v : BitVec 32, v.msb = decide (2 ^ 31 ≤ v.toNat) := fun v => by
    rw [BitVec.msb_eq_decide]
  have ha := a.isLt
  have hb := b.isLt
  have hholds : l.holds (subFlags a b) =
      ((a - b).msb != (a.msb != b.msb && (a - b).msb != a.msb)) := rfl
  rw [hholds, BitVec.slt_eq_ult]
  cases hm : a.msb != b.msb with
  | true =>
    have hult : a.ult b = !a.msb := by
      simp only [hmsb, bne_iff_ne, ne_eq, decide_eq_decide] at hm
      rw [hmsb, BitVec.ult, ← decide_not, decide_eq_decide]
      omega
    rw [hult]
    cases (a - b).msb <;> cases a.msb <;> rfl
  | false =>
    have hult : (a - b).msb = a.ult b := by
      simp only [hmsb, bne_eq_false_iff_eq, decide_eq_decide] at hm
      rw [hmsb, BitVec.ult, BitVec.toNat_sub, decide_eq_decide]
      omega
    rw [hult]
    cases a.ult b <;> rfl

theorem holds_ge : ge.holds (subFlags a b) = !a.slt b := by
  rw [← holds_l]
  simp [Cond.holds, bne]

end Cond

namespace AluKind

/-- The result, if it is written, and the flags. -/
def run (op : AluKind) (a b : BitVec 32) : Option (BitVec 32) × Flags :=
  match op with
  | .add => (some (a + b), addFlags a b)
  | .or => (some (a ||| b), logicFlags (a ||| b))
  | .and => (some (a &&& b), logicFlags (a &&& b))
  | .sub => (some (a - b), subFlags a b)
  | .xor => (some (a ^^^ b), logicFlags (a ^^^ b))
  | .cmp => (none, subFlags a b)

end AluKind

namespace ShiftKind

/-- The count is taken modulo 32. -/
def run (op : ShiftKind) (a : BitVec 32) (count : Byte) : BitVec 32 :=
  match op with
  | .shl => a <<< (count.toNat % 32)
  | .shr => a >>> (count.toNat % 32)
  | .sar => a.sshiftRight (count.toNat % 32)

end ShiftKind

/-! ## Execution -/

/-- The state between two instructions; the top of the stack comes first. -/
structure State (μ : Type) where
  regs : Gpr → Word
  flags : Flags
  stack : List Word
  mem : μ

/-- Memory, callable functions and the choices left open. -/
structure Host (μ : Type) where
  load : μ → Word → (n : Nat) → Option (BitVec (8 * n))
  store : μ → Word → (n : Nat) → BitVec (8 * n) → Option μ
  /-- The function at an address, given the registers. -/
  call : Word → (Gpr → Word) → μ → Option (Word × μ)
  junk : State μ → Gpr → Word
  junkFlags : State μ → Flags

section
variable {μ : Type}

namespace State

def r32 (s : State μ) (r : Gpr) : BitVec 32 := (s.regs r).setWidth 32

def set (s : State μ) (r : Gpr) (v : Word) : State μ :=
  { s with regs := Function.update s.regs r v }

/-- Write 32 bits and clear the upper half. -/
def set32 (s : State μ) (r : Gpr) (v : BitVec 32) : State μ := s.set r (v.setWidth 64)

def withFlags (s : State μ) (f : Flags) : State μ := { s with flags := f }

def withMem (s : State μ) (m : μ) : State μ := { s with mem := m }

/-- The address `[base + disp32]`. -/
def addr (s : State μ) (base : Gpr) (disp : BitVec 32) : Word := s.regs base + disp.signExtend 64

theorem regs_set_self (s : State μ) (dst : Gpr) (v : Word) : (s.set dst v).regs dst = v := by
  simp [set]

theorem regs_set_of_ne (s : State μ) {dst r : Gpr} (v : Word) (h : r ≠ dst) :
    (s.set dst v).regs r = s.regs r := by
  simp [set, h]

/-- A 32-bit write is read back. -/
theorem r32_set32 (s : State μ) (dst : Gpr) (v : BitVec 32) : (s.set32 dst v).r32 dst = v := by
  rw [r32, set32, regs_set_self]
  exact BitVec.setWidth_setWidth_of_le v (by decide)

/-- Write the result of a two-operand instruction, if it has one. -/
def aluResult (s : State μ) (dst : Gpr) (r : Option (BitVec 32) × Flags) : State μ :=
  match r.1 with
  | some v => (s.set32 dst v).withFlags r.2
  | none => s.withFlags r.2

end State

/-- Extend a loaded value to 32 bits. -/
def extend32 {w : Nat} (signed : Bool) (v : BitVec w) : BitVec 32 :=
  if signed then v.signExtend 32 else v.setWidth 32

/-- The effect of an instruction that goes on with the next one. -/
def exec (h : Host μ) (i : Instr) (s : State μ) : Option (State μ) :=
  match i with
  | .movImm dst imm => some (s.set32 dst imm)
  | .movImm64 dst imm => some (s.set dst imm)
  | .load dst base disp => do
    let v ← h.load s.mem (s.addr base disp) 4
    some (s.set32 dst v)
  | .store base disp src => do
    let m ← h.store s.mem (s.addr base disp) 4 (s.r32 src)
    some (s.withMem m)
  | .loadExt n signed dst base disp => do
    let v ← h.load s.mem (s.addr base disp) n
    some (s.set32 dst (extend32 signed v))
  | .storeLow n base disp src => do
    let m ← h.store s.mem (s.addr base disp) n ((s.regs src).setWidth (8 * n))
    some (s.withMem m)
  | .lea dst base disp => some (s.set32 dst ((s.addr base disp).setWidth 32))
  | .alu op dst src => some (s.aluResult dst (op.run (s.r32 dst) (s.r32 src)))
  | .aluImm op dst imm => some (s.aluResult dst (op.run (s.r32 dst) imm))
  | .shiftCl op dst =>
    some ((s.set32 dst (op.run (s.r32 dst) ((s.regs Gpr.rcx).setWidth 8))).withFlags (h.junkFlags s))
  | .shiftImm op dst imm =>
    some ((s.set32 dst (op.run (s.r32 dst) imm)).withFlags (h.junkFlags s))
  | .setcc cc dst =>
    some (s.set dst ((s.regs dst &&& ~~~0xff) ||| if cc.holds s.flags then 1 else 0))
  | .cmov cc dst src => some (s.set32 dst (if cc.holds s.flags then s.r32 src else s.r32 dst))
  | .movzx8 dst src => some (s.set32 dst (((s.regs src).setWidth 8).setWidth 32))
  | .addMem64 base disp imm => do
    let v ← h.load s.mem (s.addr base disp) 8
    let m ← h.store s.mem (s.addr base disp) 8 (v + imm.signExtend 64)
    some ((s.withMem m).withFlags (addFlags v (imm.signExtend 64)))
  | .test64 a b => some (s.withFlags (logicFlags (s.regs a &&& s.regs b)))
  | .push r => some { s with stack := s.regs r :: s.stack }
  | .pop r =>
    match s.stack with
    | v :: stack => some (({ s with stack } : State μ).set r v)
    | [] => none
  | .call r => do
    let (v, m) ← h.call (s.regs r) s.regs s.mem
    some
      { s with
        regs := fun x => if x = Gpr.rax then v else if x.callerSaved then h.junk s x else s.regs x
        flags := h.junkFlags s
        mem := m }
  | .jcc _ _ | .jmp _ | .ret => none

/-- What follows an instruction. -/
inductive Next (μ : Type) where
  /-- The instruction at an offset of the code. -/
  | at (rip : Nat) (s : State μ)
  /-- The caller, at its return address. -/
  | out (dest : Word) (s : State μ)

/-- Where a relative jump goes from the end of its instruction. -/
def jumpTo (next : Nat) (rel : BitVec 32) : Option Nat :=
  if 0 ≤ (next : Int) + rel.toInt then some ((next : Int) + rel.toInt).toNat else none

/-- Run an instruction that ends at an offset. -/
def runInstr (h : Host μ) (i : Instr) (next : Nat) (s : State μ) : Option (Next μ) :=
  match i with
  | .ret =>
    match s.stack with
    | dest :: stack => some (.out dest { s with stack })
    | [] => none
  | .jmp rel => (jumpTo next rel).map (.at · s)
  | .jcc cc rel =>
    if cc.holds s.flags then (jumpTo next rel).map (.at · s) else some (.at next s)
  | i => (exec h i s).map (.at next)

/-- Run the instruction at an offset of the code. -/
def step (h : Host μ) (code : List Byte) (rip : Nat) (s : State μ) : Option (Next μ) := do
  let (i, rest) ← decode (code.drop rip)
  runInstr h i (code.length - rest.length) s

/-- Run the code from an offset until it returns, for so many instructions. -/
def run (h : Host μ) (code : List Byte) : Nat → Nat → State μ → Option (Word × State μ)
  | 0, _, _ => none
  | fuel + 1, rip, s => do
    match ← step h code rip s with
    | .at rip s => run h code fuel rip s
    | .out dest s => some (dest, s)

end

end Lib.X86
