import FuzzSoft.Mmu.Bus

/-!
# Instructions and their decoders

The decoded instruction of `fs-riscv`, the decoder of 32-bit words and the decoder of compressed
half-words. A signed immediate is kept as the 32-bit word of its two's complement.
-/

namespace FuzzSoft

/-- A register index. -/
abbrev Reg := BitVec 5

inductive AluOp where
  | add | sub | sll | slt | sltu | xor | srl | sra | or | and
  deriving DecidableEq, Repr

inductive MulOp where
  | mul | mulh | mulhsu | mulhu | div | divu | rem | remu
  deriving DecidableEq, Repr

/-- A-extension read-modify-write operations. -/
inductive AmoOp where
  | swap | add | xor | and | or | min | max | minu | maxu
  deriving DecidableEq, Repr

inductive BranchOp where
  | eq | ne | lt | ge | ltu | geu
  deriving DecidableEq, Repr

inductive LoadOp where
  | lb | lh | lw | lbu | lhu
  deriving DecidableEq, Repr

inductive StoreOp where
  | sb | sh | sw
  deriving DecidableEq, Repr

/-- CSR access operation; the `i` variants take a 5-bit immediate in place of `rs1`. -/
inductive CsrOp where
  | rw | rs | rc | rwi | rsi | rci
  deriving DecidableEq, Repr

/-- Decoded instruction. -/
inductive Inst where
  | lui (rd : Reg) (imm : U32)
  | auipc (rd : Reg) (imm : U32)
  | jal (rd : Reg) (imm : U32)
  | jalr (rd rs1 : Reg) (imm : U32)
  | branch (op : BranchOp) (rs1 rs2 : Reg) (imm : U32)
  | load (op : LoadOp) (rd rs1 : Reg) (imm : U32)
  | store (op : StoreOp) (rs1 rs2 : Reg) (imm : U32)
  | opImm (op : AluOp) (rd rs1 : Reg) (imm : U32)
  | op (op : AluOp) (rd rs1 rs2 : Reg)
  | mul (op : MulOp) (rd rs1 rs2 : Reg)
  | lrW (rd rs1 : Reg) (aq rl : Bool)
  | scW (rd rs1 rs2 : Reg) (aq rl : Bool)
  | amoW (op : AmoOp) (rd rs1 rs2 : Reg) (aq rl : Bool)
  | fence
  | ecall
  | ebreak
  | csr (op : CsrOp) (rd src : Reg) (csr : U16)
  | mret
  | sret
  /-- Wait for interrupt, a no-op hint in a deterministic core. -/
  | wfi
  /-- Supervisor fence: flushes the TLB. -/
  | sfenceVma
  | illegal (raw : U32)
  deriving DecidableEq

/-- Sign-extend the low `bits` bits of `v`. -/
def sext (v : U32) (bits : Nat) : U32 := (v <<< (32 - bits)).sshiftRight (32 - bits)

/-- The field of `raw` that starts at bit `lo`, cut by `mask`. -/
def field (raw : U32) (lo : Nat) (mask : U32) : U32 := (raw >>> lo) &&& mask

/-- The 5-bit register field of `raw` at bit `lo`. -/
def regField (raw : U32) (lo : Nat) : Reg := (raw >>> lo).setWidth 5

def branchOp : U32 → Option BranchOp
  | 0 => some .eq
  | 1 => some .ne
  | 4 => some .lt
  | 5 => some .ge
  | 6 => some .ltu
  | 7 => some .geu
  | _ => none

def loadOp : U32 → Option LoadOp
  | 0 => some .lb
  | 1 => some .lh
  | 2 => some .lw
  | 4 => some .lbu
  | 5 => some .lhu
  | _ => none

def storeOp : U32 → Option StoreOp
  | 0 => some .sb
  | 1 => some .sh
  | 2 => some .sw
  | _ => none

def mulOp : U32 → Option MulOp
  | 0 => some .mul
  | 1 => some .mulh
  | 2 => some .mulhsu
  | 3 => some .mulhu
  | 4 => some .div
  | 5 => some .divu
  | 6 => some .rem
  | 7 => some .remu
  | _ => none

/-- Register-register ALU by `funct3` and `funct7`. -/
def aluOp (funct3 funct7 : U32) : Option AluOp :=
  if funct7 = 0x00 then
    match funct3 with
    | 0 => some .add
    | 1 => some .sll
    | 2 => some .slt
    | 3 => some .sltu
    | 4 => some .xor
    | 5 => some .srl
    | 6 => some .or
    | 7 => some .and
    | _ => none
  else if funct7 = 0x20 then
    match funct3 with
    | 0 => some .sub
    | 5 => some .sra
    | _ => none
  else none

def amoOp : U32 → Option AmoOp
  | 0x00 => some .add
  | 0x01 => some .swap
  | 0x04 => some .xor
  | 0x08 => some .or
  | 0x0c => some .and
  | 0x10 => some .min
  | 0x14 => some .max
  | 0x18 => some .minu
  | 0x1c => some .maxu
  | _ => none

def csrOp : U32 → Option CsrOp
  | 1 => some .rw
  | 2 => some .rs
  | 3 => some .rc
  | 5 => some .rwi
  | 6 => some .rsi
  | 7 => some .rci
  | _ => none

/-- Opcode `0x13`: ALU with an immediate; shifts carry the amount of the `rs2` field. -/
def decodeOpImm (raw : U32) : Inst :=
  let rd := regField raw 7
  let rs1 := regField raw 15
  let funct7 := field raw 25 0x7f
  let iImm := raw.sshiftRight 20
  let shamt := field raw 20 0x1f
  match field raw 12 0x7 with
  | 0 => .opImm .add rd rs1 iImm
  | 2 => .opImm .slt rd rs1 iImm
  | 3 => .opImm .sltu rd rs1 iImm
  | 4 => .opImm .xor rd rs1 iImm
  | 6 => .opImm .or rd rs1 iImm
  | 7 => .opImm .and rd rs1 iImm
  | 1 => if funct7 = 0x00 then .opImm .sll rd rs1 shamt else .illegal raw
  | 5 =>
    if funct7 = 0x00 then .opImm .srl rd rs1 shamt
    else if funct7 = 0x20 then .opImm .sra rd rs1 shamt
    else .illegal raw
  | _ => .illegal raw

/-- Opcode `0x2f` with `funct3 = 2`: the A extension. -/
def decodeAmo (raw : U32) : Inst :=
  let rd := regField raw 7
  let rs1 := regField raw 15
  let rs2 := regField raw 20
  let funct5 := field raw 27 0x1f
  let aq : Bool := field raw 26 1 ≠ 0
  let rl : Bool := field raw 25 1 ≠ 0
  if funct5 = 0x02 then .lrW rd rs1 aq rl
  else if funct5 = 0x03 then .scW rd rs1 rs2 aq rl
  else
    match amoOp funct5 with
    | some op => .amoW op rd rs1 rs2 aq rl
    | none => .illegal raw

/-- Opcode `0x73`: environment, privileged and CSR instructions. -/
def decodeSystem (raw : U32) : Inst :=
  let funct3 := field raw 12 0x7
  if funct3 = 0 then
    if raw = 0x00000073 then .ecall
    else if raw = 0x00100073 then .ebreak
    else if raw = 0x30200073 then .mret
    else if raw = 0x10200073 then .sret
    else if raw = 0x10500073 then .wfi
    else if field raw 25 0x7f = 0x09 then .sfenceVma
    else .illegal raw
  else
    match csrOp funct3 with
    | some op => .csr op (regField raw 7) (regField raw 15) ((field raw 20 0xfff).setWidth 16)
    | none => .illegal raw

/-- Decode a 32-bit instruction word. -/
def decode (raw : U32) : Inst :=
  let opcode := raw &&& 0x7f
  let rd := regField raw 7
  let funct3 := field raw 12 0x7
  let rs1 := regField raw 15
  let rs2 := regField raw 20
  let funct7 := field raw 25 0x7f
  let iImm := raw.sshiftRight 20
  let sImm := (raw &&& 0xfe000000).sshiftRight 20 ||| field raw 7 0x1f
  let bImm := sext (field raw 31 1 <<< 12 ||| field raw 7 1 <<< 11 ||| field raw 25 0x3f <<< 5 |||
    field raw 8 0xf <<< 1) 13
  let uImm := raw &&& 0xfffff000
  let jImm := sext (field raw 31 1 <<< 20 ||| field raw 21 0x3ff <<< 1 ||| field raw 20 1 <<< 11 |||
    field raw 12 0xff <<< 12) 21
  match opcode with
  | 0x37 => .lui rd uImm
  | 0x17 => .auipc rd uImm
  | 0x6f => .jal rd jImm
  | 0x67 => if funct3 = 0 then .jalr rd rs1 iImm else .illegal raw
  | 0x63 => ((branchOp funct3).map (Inst.branch · rs1 rs2 bImm)).getD (.illegal raw)
  | 0x03 => ((loadOp funct3).map (Inst.load · rd rs1 iImm)).getD (.illegal raw)
  | 0x23 => ((storeOp funct3).map (Inst.store · rs1 rs2 sImm)).getD (.illegal raw)
  | 0x13 => decodeOpImm raw
  | 0x33 =>
    if funct7 = 0x01 then ((mulOp funct3).map (Inst.mul · rd rs1 rs2)).getD (.illegal raw)
    else ((aluOp funct3 funct7).map (Inst.op · rd rs1 rs2)).getD (.illegal raw)
  | 0x2f => if funct3 = 2 then decodeAmo raw else .illegal raw
  | 0x0f => .fence
  | 0x73 => decodeSystem raw
  | _ => .illegal raw

/-! ## Compressed instructions -/

/-- The jump offset of `C.J` and `C.JAL`. -/
def cjImm (h : U32) : U32 :=
  sext (field h 12 1 <<< 11 ||| field h 11 1 <<< 4 ||| field h 9 0x3 <<< 8 ||| field h 8 1 <<< 10 |||
    field h 7 1 <<< 6 ||| field h 6 1 <<< 7 ||| field h 3 0x7 <<< 1 ||| field h 2 1 <<< 5) 12

/-- The branch offset of `C.BEQZ` and `C.BNEZ`. -/
def cbImm (h : U32) : U32 :=
  sext (field h 12 1 <<< 8 ||| field h 10 0x3 <<< 3 ||| field h 5 0x3 <<< 6 ||| field h 3 0x3 <<< 1 |||
    field h 2 1 <<< 5) 9

/-- A three-bit register field names `x8` to `x15`. -/
def regC (h : U32) (lo : Nat) : Reg := (8 + field h lo 0x7).setWidth 5

/-- The six-bit immediate `h[12] : h[6:2]`. -/
def imm6 (h : U32) : U32 := field h 12 1 <<< 5 ||| field h 2 0x1f

/-- Quadrant 0. -/
def decodeQ0 (h : U32) : Inst :=
  let off := field h 10 0x7 <<< 3 ||| field h 6 0x1 <<< 2 ||| field h 5 0x1 <<< 6
  match field h 13 0x7 with
  | 0 =>
    let imm := field h 11 0x3 <<< 4 ||| field h 7 0xf <<< 6 ||| field h 6 0x1 <<< 2 |||
      field h 5 0x1 <<< 3
    if imm = 0 then .illegal h else .opImm .add (regC h 2) 2 imm
  | 2 => .load .lw (regC h 2) (regC h 7) off
  | 6 => .store .sw (regC h 7) (regC h 2) off
  | _ => .illegal h

/-- `C.ADDI16SP` and `C.LUI`. -/
def decodeLuiC (h : U32) : Inst :=
  let rd := regField h 7
  if rd = 2 then
    let imm := sext (field h 12 1 <<< 9 ||| field h 6 1 <<< 4 ||| field h 5 1 <<< 6 |||
      field h 3 0x3 <<< 7 ||| field h 2 1 <<< 5) 10
    if imm = 0 then .illegal h else .opImm .add 2 2 imm
  else if rd ≠ 0 then
    let imm := sext (field h 12 1 <<< 17 ||| field h 2 0x1f <<< 12) 18
    if imm = 0 then .illegal h else .lui rd imm
  else .illegal h

/-- The ALU group of quadrant 1. -/
def decodeAluC (h : U32) : Inst :=
  let r := regC h 7
  match field h 10 0x3 with
  | 0 => .opImm .srl r r (imm6 h)
  | 1 => .opImm .sra r r (imm6 h)
  | 2 => .opImm .and r r (sext (imm6 h) 6)
  | _ =>
    if field h 12 1 = 0 then
      match field h 5 0x3 with
      | 0 => .op .sub r r (regC h 2)
      | 1 => .op .xor r r (regC h 2)
      | 2 => .op .or r r (regC h 2)
      | _ => .op .and r r (regC h 2)
    else .illegal h

/-- Quadrant 1. -/
def decodeQ1 (h : U32) : Inst :=
  let rd := regField h 7
  match field h 13 0x7 with
  | 0 => .opImm .add rd rd (sext (imm6 h) 6)
  | 1 => .jal 1 (cjImm h)
  | 2 => .opImm .add rd 0 (sext (imm6 h) 6)
  | 3 => decodeLuiC h
  | 4 => decodeAluC h
  | 5 => .jal 0 (cjImm h)
  | 6 => .branch .eq (regC h 7) 0 (cbImm h)
  | _ => .branch .ne (regC h 7) 0 (cbImm h)

/-- Quadrant 2. -/
def decodeQ2 (h : U32) : Inst :=
  let rd := regField h 7
  let rs2 := regField h 2
  match field h 13 0x7 with
  | 0 => .opImm .sll rd rd (imm6 h)
  | 2 =>
    if rd = 0 then .illegal h
    else .load .lw rd 2 (field h 12 1 <<< 5 ||| field h 4 0x7 <<< 2 ||| field h 2 0x3 <<< 6)
  | 4 =>
    if field h 12 1 = 0 then
      if rd = 0 then .illegal h
      else if rs2 = 0 then .jalr 0 rd 0
      else .op .add rd 0 rs2
    else if rs2 = 0 then if rd = 0 then .ebreak else .jalr 1 rd 0
    else .op .add rd rd rs2
  | 6 => .store .sw 2 rs2 (field h 9 0xf <<< 2 ||| field h 7 0x3 <<< 6)
  | _ => .illegal h

/-- Decode a compressed half-word into the instruction it abbreviates. -/
def decodeCompressed (half : U16) : Inst :=
  let h := half.setWidth 32
  match h &&& 0x3 with
  | 0 => decodeQ0 h
  | 1 => decodeQ1 h
  | 2 => decodeQ2 h
  | _ => .illegal h

/-! ## Arithmetic -/

def alu (op : AluOp) (a b : U32) : U32 :=
  match op with
  | .add => a + b
  | .sub => a - b
  | .sll => a <<< (b &&& 31).toNat
  | .slt => if a.slt b then 1 else 0
  | .sltu => if a < b then 1 else 0
  | .xor => a ^^^ b
  | .srl => a >>> (b &&& 31).toNat
  | .sra => a.sshiftRight (b &&& 31).toNat
  | .or => a ||| b
  | .and => a &&& b

def muldiv (op : MulOp) (a b : U32) : U32 :=
  match op with
  | .mul => a * b
  | .mulh => ((a.signExtend 64 * b.signExtend 64) >>> 32).setWidth 32
  | .mulhsu => ((a.signExtend 64 * b.setWidth 64) >>> 32).setWidth 32
  | .mulhu => ((a.setWidth 64 * b.setWidth 64) >>> 32).setWidth 32
  | .div =>
    if b = 0 then 0xffffffff
    else if a = 0x80000000 ∧ b = 0xffffffff then 0x80000000
    else a.sdiv b
  | .divu => if b = 0 then 0xffffffff else a / b
  | .rem =>
    if b = 0 then a
    else if a = 0x80000000 ∧ b = 0xffffffff then 0
    else a.srem b
  | .remu => if b = 0 then a else a % b

/-- Taint of an ALU result: the operand masks joined. -/
def aluTaint (aTaint bTaint : U32) : U32 := aTaint ||| bTaint

/-- Taint of a multiplication or division: the whole result as soon as an operand is tainted. -/
def muldivTaint (aTaint bTaint : U32) : U32 :=
  if aTaint ≠ 0 ∨ bTaint ≠ 0 then 0xffffffff else 0

end FuzzSoft
