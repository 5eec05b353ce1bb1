import FuzzSoft.Lib.Fragments
import FuzzSoft.Mmu.Bus

/-!
# The x86-64 emitter

`Asm` of `fs-jit`: each instruction form as the bytes it appends to the buffer. A REX prefix is there
only where an extension bit or the 64-bit operand size needs one, and a memory operand is always
`[base + disp32]`. Each form decodes to its instruction (`encodes_movR32Mem` and its siblings), for
registers that need no SIB byte and no legacy byte register.
-/

namespace FuzzSoft

open Lib Lib.X86

namespace Asm

def low3 (r : Gpr) : U8 := r.setWidth 8 &&& 7

def needsExt (r : Gpr) : Bool := 8 ≤ r

def bit (b : Bool) : U8 := if b then 1 else 0

/-- The REX prefix, if it is needed. -/
def rexByte (w r b : Bool) : List U8 :=
  if !w && !r && !b then [] else [0x40 ||| (bit w <<< 3) ||| (bit r <<< 2) ||| bit b]

def modrm (m regField rmField : U8) : U8 := (m <<< 6) ||| ((regField &&& 7) <<< 3) ||| (rmField &&& 7)

/-- `u64::to_le_bytes`. -/
def leBytes64 (v : U64) : List U8 := leBytes (v.setWidth 32) 4 ++ leBytes ((v >>> 32).setWidth 32) 4

/-! ## The two-operand operations and the conditions -/

def base : AluKind → U8
  | .add => 0x00
  | .or => 0x08
  | .and => 0x20
  | .sub => 0x28
  | .xor => 0x30
  | .cmp => 0x38

def rmROpcode (op : AluKind) : U8 := base op + 1

def immDigit (op : AluKind) : U8 := base op >>> 3

def code : Cond → U8
  | .e => 0x4
  | .ne => 0x5
  | .b => 0x2
  | .ae => 0x3
  | .l => 0xc
  | .ge => 0xd
  | .ns => 0x9

def shiftDigit : ShiftKind → U8
  | .shl => 4
  | .shr => 5
  | .sar => 7

/-! ## The forms -/

/-- A form with a memory operand. -/
def memForm (w : Bool) (opcode : List U8) (reg base : Gpr) (disp : U32) : List U8 :=
  rexByte w (needsExt reg) (needsExt base) ++ opcode ++
    modrm 0b10 (low3 reg) (low3 base) :: leBytes disp 4

/-- A form with two registers. -/
def regForm (w : Bool) (opcode : List U8) (reg rm : Gpr) : List U8 :=
  rexByte w (needsExt reg) (needsExt rm) ++ opcode ++ [modrm 0b11 (low3 reg) (low3 rm)]

/-- A form with one register and a digit in place of the other. -/
def digitForm (opcode digit : U8) (rm : Gpr) : List U8 :=
  rexByte false false (needsExt rm) ++ [opcode, modrm 0b11 digit (low3 rm)]

def movR32Imm32 (dst : Gpr) (imm : U32) : List U8 :=
  rexByte false false (needsExt dst) ++ (0xb8 + low3 dst) :: leBytes imm 4

def movR32Mem (dst base : Gpr) (disp : U32) : List U8 := memForm false [0x8b] dst base disp

def movMemR32 (base : Gpr) (disp : U32) (src : Gpr) : List U8 := memForm false [0x89] src base disp

def leaR32Mem (dst base : Gpr) (disp : U32) : List U8 := memForm false [0x8d] dst base disp

def aluR32R32 (op : AluKind) (dst src : Gpr) : List U8 := regForm false [rmROpcode op] src dst

def aluR32Imm32 (op : AluKind) (dst : Gpr) (imm : U32) : List U8 :=
  digitForm 0x81 (immDigit op) dst ++ leBytes imm 4

def shiftCl (op : ShiftKind) (dst : Gpr) : List U8 := digitForm 0xd3 (shiftDigit op) dst

def shiftImm8 (op : ShiftKind) (dst : Gpr) (imm : U8) : List U8 :=
  digitForm 0xc1 (shiftDigit op) dst ++ [imm]

def setcc (cc : Cond) (dst : Gpr) : List U8 :=
  rexByte false false (needsExt dst) ++ [0x0f, 0x90 + code cc, modrm 0b11 0 (low3 dst)]

def cmovcc (cc : Cond) (dst src : Gpr) : List U8 := regForm false [0x0f, 0x40 + code cc] dst src

def movzxR32R8 (dst src : Gpr) : List U8 := regForm false [0x0f, 0xb6] dst src

def addQwordMemImm8 (base : Gpr) (disp : U32) (imm : U8) : List U8 :=
  rexByte true false (needsExt base) ++
    ([0x83, modrm 0b10 0 (low3 base)] ++ leBytes disp 4 ++ [imm])

def zero (dst : Gpr) : List U8 := aluR32R32 .xor dst dst

def ret : List U8 := [0xc3]

def pushR64 (r : Gpr) : List U8 := rexByte false false (needsExt r) ++ [0x50 + low3 r]

def popR64 (r : Gpr) : List U8 := rexByte false false (needsExt r) ++ [0x58 + low3 r]

def testR64R64 (a b : Gpr) : List U8 := regForm true [0x85] b a

def movR64Imm64 (dst : Gpr) (imm : U64) : List U8 :=
  rexByte true false (needsExt dst) ++ (0xb8 + low3 dst) :: leBytes64 imm

def callR64 (dst : Gpr) : List U8 := digitForm 0xff 2 dst

def jccRel32 (cc : Cond) (rel : U32) : List U8 := [0x0f, 0x80 + code cc] ++ leBytes rel 4

def jmpRel32 (rel : U32) : List U8 := 0xe9 :: leBytes rel 4

def movzxR32Mem8 (dst base : Gpr) (disp : U32) : List U8 := memForm false [0x0f, 0xb6] dst base disp

def movsxR32Mem8 (dst base : Gpr) (disp : U32) : List U8 := memForm false [0x0f, 0xbe] dst base disp

def movzxR32Mem16 (dst base : Gpr) (disp : U32) : List U8 := memForm false [0x0f, 0xb7] dst base disp

def movsxR32Mem16 (dst base : Gpr) (disp : U32) : List U8 := memForm false [0x0f, 0xbf] dst base disp

def movMem8R8 (base : Gpr) (disp : U32) (src : Gpr) : List U8 := memForm false [0x88] src base disp

/-- The operand-size prefix comes before the REX prefix. -/
def movMem16R16 (base : Gpr) (disp : U32) (src : Gpr) : List U8 :=
  0x66 :: memForm false [0x89] src base disp

/-! ## Decoding them -/

section
variable {reg rm base dst src r a b : Gpr} {disp imm rel : U32}

/-- Four bytes read back as their word. -/
theorem take32_leBytes (v : U32) (rest : List U8) : take32 (leBytes v 4 ++ rest) = some (v, rest) := by
  have hv : ((v >>> 24).setWidth 8 ++ (v >>> 16).setWidth 8 ++ (v >>> 8).setWidth 8 ++
      v.setWidth 8 : U32) = v := by
    apply BitVec.eq_of_getLsbD_eq
    intro i hi
    simp only [BitVec.getLsbD_append, BitVec.getLsbD_setWidth, BitVec.getLsbD_ushiftRight]
    grind
  have hbytes : leBytes v 4 ++ rest = v.setWidth 8 :: (v >>> 8).setWidth 8 :: (v >>> 16).setWidth 8 ::
      (v >>> 24).setWidth 8 :: rest := by
    simp [leBytes, List.range_succ]
  rw [hbytes, take32, hv]

/-- Eight bytes read back as their word. -/
theorem take64_leBytes64 (v : U64) (rest : List U8) :
    take64 (leBytes64 v ++ rest) = some (v, rest) := by
  have hv : ((v >>> 32).setWidth 32 ++ v.setWidth 32 : U64) = v := by
    apply BitVec.eq_of_getLsbD_eq
    intro i hi
    simp only [BitVec.getLsbD_append, BitVec.getLsbD_setWidth, BitVec.getLsbD_ushiftRight]
    grind
  simp only [leBytes64, List.append_assoc, take64, take32_leBytes, Option.bind_eq_bind,
    Option.bind_some, hv]

/-- The fields of a ModRM byte, and the registers they name. -/
theorem modrm_mem (reg rm : Gpr) : (modrm 2#8 (low3 reg) (low3 rm)).extractLsb' 6 2 = 2 ∧
    gpr (needsExt reg) ((modrm 2#8 (low3 reg) (low3 rm)).extractLsb' 3 3) = reg ∧
      gpr (needsExt rm) ((modrm 2#8 (low3 reg) (low3 rm)).extractLsb' 0 3) = rm ∧
        ((modrm 2#8 (low3 reg) (low3 rm)).extractLsb' 0 3 = 4 ↔ low3 rm = 4) := by
  revert reg rm
  decide

/-- The parts of a register-to-register ModRM byte. -/
theorem modrm_reg (reg rm : Gpr) : (modrm 3#8 (low3 reg) (low3 rm)).extractLsb' 6 2 = 3 ∧
    gpr (needsExt reg) ((modrm 3#8 (low3 reg) (low3 rm)).extractLsb' 3 3) = reg ∧
      gpr (needsExt rm) ((modrm 3#8 (low3 reg) (low3 rm)).extractLsb' 0 3) = rm := by
  revert reg rm
  decide

/-- A digit in place of a register. -/
theorem modrm_digit (d : BitVec 3) (rm : Gpr) :
    (modrm 3#8 (d.setWidth 8) (low3 rm)).extractLsb' 6 2 = 3 ∧
      (modrm 3#8 (d.setWidth 8) (low3 rm)).extractLsb' 3 3 = d ∧
        gpr (needsExt rm) ((modrm 3#8 (d.setWidth 8) (low3 rm)).extractLsb' 0 3) = rm := by
  revert d rm
  decide

/-- The middle field of a ModRM byte may be zero. -/
theorem modrm_mem_zero (base : Gpr) :
    (modrm 2#8 0#8 (low3 base)).extractLsb' 3 3 = 0 := by
  revert base
  decide

/-- The prefix that is emitted is read, and no other. -/
theorem takeRex_rexByte {w r b : Bool} {op : U8} (hop : op >>> 4 ≠ 4) (rest : List U8) :
    takeRex (rexByte w r b ++ op :: rest) = (⟨w || r || b, w, r, b⟩, op :: rest) := by
  cases w <;> cases r <;> cases b <;>
    first
    | exact if_neg hop
    | rfl

/-- A REX prefix is read before the opcode. -/
theorem decodeAny_rex {w r b : Bool} {op : U8} (h66 : op ≠ 0x66) (hop : op >>> 4 ≠ 4)
    (rest : List U8) : decodeAny (rexByte w r b ++ op :: rest) =
      decodeOpcode ⟨w || r || b, w, r, b⟩ (op :: rest) := by
  have hrex := @takeRex_rexByte w r b op hop rest
  cases hbytes : rexByte w r b ++ op :: rest with
  | nil =>
    rw [List.append_eq_nil_iff] at hbytes
    cases hbytes.2
  | cons p bytes =>
    have hp : p ≠ 0x66 := by
      revert hbytes
      cases w <;> cases r <;> cases b <;> rintro ⟨⟩ <;> first | exact h66 | decide
    rw [hbytes] at hrex
    rw [decodeAny, if_neg hp, hrex]

/-- A base register that needs no SIB byte. -/
def Plain (r : Gpr) : Prop := low3 r ≠ 4

instance (r : Gpr) : Decidable (Plain r) := inferInstanceAs (Decidable (low3 r ≠ 4))

/-- A base register that needs no SIB byte is not the stack pointer. -/
theorem Plain.ne_rsp (h : Plain r) : Gpr.rsp ≠ r := by
  rintro rfl
  exact h (by decide)

section
variable {p w x : Bool} (rest : List U8)

/-- A memory operand is read back. -/
theorem takeModrm_mem (hs : Plain base) :
    takeModrm ⟨p, w, x, needsExt base⟩ (modrm 2#8 (low3 reg) (low3 base) :: (leBytes disp 4 ++ rest)) =
      some ((modrm 2#8 (low3 reg) (low3 base)).extractLsb' 3 3, .mem base disp, rest) := by
  obtain ⟨hm, -, hrm, hsib⟩ := modrm_mem reg base
  have hne : (modrm 2#8 (low3 reg) (low3 base)).extractLsb' 0 3 ≠ 4 := fun h => hs (hsib.1 h)
  rw [takeModrm, hm]
  simp only [take32_leBytes, hrm, hne, ne_eq, not_false_iff, and_self, if_true]
  rfl

/-- A register operand is read back. -/
theorem takeModrm_reg :
    takeModrm ⟨p, w, x, needsExt rm⟩ (modrm 3#8 (low3 reg) (low3 rm) :: rest) =
      some ((modrm 3#8 (low3 reg) (low3 rm)).extractLsb' 3 3, .reg rm, rest) := by
  obtain ⟨hm, -, hrm⟩ := modrm_reg reg rm
  rw [takeModrm, hm]
  simp only [hrm, if_true]

/-- So is an operation's number in the middle field. -/
theorem takeModrm_digit {digit : U8} (hd : digit < 8#8) :
    takeModrm ⟨p, w, x, needsExt rm⟩ (modrm 3#8 digit (low3 rm) :: rest) =
      some (digit.setWidth 3, .reg rm, rest) := by
  have hdigit : (digit.setWidth 3).setWidth 8 = digit := by
    revert digit
    decide
  obtain ⟨hm, hd, hrm⟩ := modrm_digit (digit.setWidth 3) rm
  rw [hdigit] at hm hd hrm
  rw [takeModrm, hm]
  simp only [hrm, hd, if_true]

/-- A digit before an operand in memory. -/
theorem takeModrm_zero (hs : Plain base) :
    takeModrm ⟨p, w, x, needsExt base⟩ (modrm 2#8 0#8 (low3 base) :: (leBytes disp 4 ++ rest)) =
      some (0, .mem base disp, rest) := by
  have h := @takeModrm_mem 0 base disp p w x rest hs
  rwa [show low3 0 = 0#8 from rfl, modrm_mem_zero] at h

end

/-- The register fields, as they stand after the literals are normalised. -/
@[simp] theorem gpr_mem (reg rm : Gpr) :
    gpr (needsExt reg) ((modrm 2#8 (low3 reg) (low3 rm)).extractLsb' 3 3) = reg :=
  (modrm_mem reg rm).2.1

/-- The register of the middle field. -/
@[simp] theorem gpr_reg (reg rm : Gpr) :
    gpr (needsExt reg) ((modrm 3#8 (low3 reg) (low3 rm)).extractLsb' 3 3) = reg :=
  (modrm_reg reg rm).2.1

/-- An instruction of the subset does not name the stack pointer. -/
theorem encodes_of_decodeAny {e : List U8} {i : Instr} (hsp : Gpr.rsp ∉ i.operands)
    (h : ∀ rest, decodeAny (e ++ rest) = some (i, rest)) : Encodes e i := by
  intro rest
  rw [decode, h rest, Option.filter_some, if_pos]
  simpa using hsp

/-! ### Memory operands -/

/-- The bytes of a load decode to it. -/
theorem encodes_movR32Mem (hd : Gpr.rsp ≠ dst) (hb : Plain base) :
    Encodes (movR32Mem dst base disp) (.load dst base disp) := by
  refine encodes_of_decodeAny (by simp [Instr.operands, hd, hb.ne_rsp]) fun rest => ?_
  simp [movR32Mem, memForm, decodeAny_rex, decodeOpcode, decodeModrm32, takeModrm_mem _ hb]

/-- The bytes of a store decode to it. -/
theorem encodes_movMemR32 (hs : Gpr.rsp ≠ src) (hb : Plain base) :
    Encodes (movMemR32 base disp src) (.store base disp src) := by
  refine encodes_of_decodeAny (by simp [Instr.operands, hs, hb.ne_rsp]) fun rest => ?_
  simp [movMemR32, memForm, decodeAny_rex, decodeOpcode, decodeModrm32, takeModrm_mem _ hb]

/-- The bytes of an address computation decode to it. -/
theorem encodes_leaR32Mem (hd : Gpr.rsp ≠ dst) (hb : Plain base) :
    Encodes (leaR32Mem dst base disp) (.lea dst base disp) := by
  refine encodes_of_decodeAny (by simp [Instr.operands, hd, hb.ne_rsp]) fun rest => ?_
  simp [leaR32Mem, memForm, decodeAny_rex, decodeOpcode, decodeModrm32, takeModrm_mem _ hb]

/-- The bytes of a counter's increment decode to it. -/
theorem encodes_addQwordMemImm8 {imm : U8} (hb : Plain base) :
    Encodes (addQwordMemImm8 base disp imm) (.addMem64 base disp imm) := by
  refine encodes_of_decodeAny (by simp [Instr.operands, hb.ne_rsp]) fun rest => ?_
  simp [addQwordMemImm8, decodeAny_rex, decodeOpcode, decode64, takeModrm_zero _ hb, take8]

/-- The bytes of a zero-extending byte load decode to it. -/
theorem encodes_movzxR32Mem8 (hd : Gpr.rsp ≠ dst) (hb : Plain base) :
    Encodes (movzxR32Mem8 dst base disp) (.loadExt 1 false dst base disp) := by
  refine encodes_of_decodeAny (by simp [Instr.operands, hd, hb.ne_rsp]) fun rest => ?_
  simp [movzxR32Mem8, memForm, decodeAny_rex, decodeOpcode, take8, decode0F, takeModrm_mem _ hb]

/-- The bytes of a sign-extending byte load decode to it. -/
theorem encodes_movsxR32Mem8 (hd : Gpr.rsp ≠ dst) (hb : Plain base) :
    Encodes (movsxR32Mem8 dst base disp) (.loadExt 1 true dst base disp) := by
  refine encodes_of_decodeAny (by simp [Instr.operands, hd, hb.ne_rsp]) fun rest => ?_
  simp [movsxR32Mem8, memForm, decodeAny_rex, decodeOpcode, take8, decode0F, takeModrm_mem _ hb]

/-- The bytes of a zero-extending halfword load decode to it. -/
theorem encodes_movzxR32Mem16 (hd : Gpr.rsp ≠ dst) (hb : Plain base) :
    Encodes (movzxR32Mem16 dst base disp) (.loadExt 2 false dst base disp) := by
  refine encodes_of_decodeAny (by simp [Instr.operands, hd, hb.ne_rsp]) fun rest => ?_
  simp [movzxR32Mem16, memForm, decodeAny_rex, decodeOpcode, take8, decode0F, takeModrm_mem _ hb]

/-- The bytes of a sign-extending halfword load decode to it. -/
theorem encodes_movsxR32Mem16 (hd : Gpr.rsp ≠ dst) (hb : Plain base) :
    Encodes (movsxR32Mem16 dst base disp) (.loadExt 2 true dst base disp) := by
  refine encodes_of_decodeAny (by simp [Instr.operands, hd, hb.ne_rsp]) fun rest => ?_
  simp [movsxR32Mem16, memForm, decodeAny_rex, decodeOpcode, take8, decode0F, takeModrm_mem _ hb]

/-- A byte register with a name of its own: without a prefix only the first four have one. -/
theorem encodes_movMem8R8 (hs : src < 4) (hb : Plain base) :
    Encodes (movMem8R8 base disp src) (.storeLow 1 base disp src) := by
  have hsp : Gpr.rsp ≠ src := by
    rintro rfl
    exact absurd hs (by decide)
  have hlow : src < 4#4 := hs
  refine encodes_of_decodeAny (by simp [Instr.operands, hsp, hb.ne_rsp]) fun rest => ?_
  simp [movMem8R8, memForm, decodeAny_rex, decodeOpcode, decodeModrm32, takeModrm_mem _ hb, lowByte,
    hlow]

/-- The bytes of a halfword store decode to it. -/
theorem encodes_movMem16R16 (hs : Gpr.rsp ≠ src) (hb : Plain base) :
    Encodes (movMem16R16 base disp src) (.storeLow 2 base disp src) := by
  refine encodes_of_decodeAny (by simp [Instr.operands, hs, hb.ne_rsp]) fun rest => ?_
  rw [movMem16R16, List.cons_append, decodeAny, if_pos rfl]
  simp [memForm, decode16, takeRex_rexByte, take8, takeModrm_mem _ hb]

/-! ### Registers -/

/-- The bytes of a two-register operation decode to it. -/
theorem encodes_aluR32R32 (op : AluKind) (hd : Gpr.rsp ≠ dst) (hs : Gpr.rsp ≠ src) :
    Encodes (aluR32R32 op dst src) (.alu op dst src) := by
  refine encodes_of_decodeAny (by simp [Instr.operands, hd, hs]) fun rest => ?_
  cases op <;>
    simp [aluR32R32, regForm, rmROpcode, Asm.base, decodeAny_rex, decodeOpcode, decodeModrm32, takeModrm_reg, aluOf]

/-- The bytes of a conditional move decode to it. -/
theorem encodes_cmovcc (cc : Cond) (hd : Gpr.rsp ≠ dst) (hs : Gpr.rsp ≠ src) :
    Encodes (cmovcc cc dst src) (.cmov cc dst src) := by
  refine encodes_of_decodeAny (by simp [Instr.operands, hd, hs]) fun rest => ?_
  cases cc <;>
    simp [cmovcc, regForm, code, decodeAny_rex, decodeOpcode, take8, decode0F, takeModrm_reg, condOf]

/-- The bytes of a test decode to it. -/
theorem encodes_testR64R64 (ha : Gpr.rsp ≠ a) (hb : Gpr.rsp ≠ b) :
    Encodes (testR64R64 a b) (.test64 a b) := by
  refine encodes_of_decodeAny (by simp [Instr.operands, ha, hb]) fun rest => ?_
  simp [testR64R64, regForm, decodeAny_rex, decodeOpcode, decode64, takeModrm_reg]

/-- The bytes of an operation with an immediate decode to it. -/
theorem encodes_aluR32Imm32 (op : AluKind) (hd : Gpr.rsp ≠ dst) :
    Encodes (aluR32Imm32 op dst imm) (.aluImm op dst imm) := by
  refine encodes_of_decodeAny (by simp [Instr.operands, hd]) fun rest => ?_
  cases op <;>
    simp [aluR32Imm32, digitForm, immDigit, Asm.base, decodeAny_rex, decodeOpcode, decodeModrm32,
      takeModrm_digit, aluOf, take32_leBytes]

/-- The bytes of a shift by `cl` decode to it. -/
theorem encodes_shiftCl (op : ShiftKind) (hd : Gpr.rsp ≠ dst) :
    Encodes (shiftCl op dst) (.shiftCl op dst) := by
  refine encodes_of_decodeAny (by simp [Instr.operands, hd]) fun rest => ?_
  cases op <;>
    simp [shiftCl, digitForm, shiftDigit, decodeAny_rex, decodeOpcode, decodeModrm32,
      takeModrm_digit, shiftOf]

/-- The bytes of a shift by an immediate decode to it. -/
theorem encodes_shiftImm8 (op : ShiftKind) {count : U8} (hd : Gpr.rsp ≠ dst) :
    Encodes (shiftImm8 op dst count) (.shiftImm op dst count) := by
  refine encodes_of_decodeAny (by simp [Instr.operands, hd]) fun rest => ?_
  cases op <;>
    simp [shiftImm8, digitForm, shiftDigit, decodeAny_rex, decodeOpcode, decodeModrm32,
      takeModrm_digit, shiftOf, take8]

/-- Only a register with an extension bit: the others would need a prefix of their own. -/
theorem encodes_setcc (cc : Cond) (hd : needsExt dst = true) :
    Encodes (setcc cc dst) (.setcc cc dst) := by
  have hsp : Gpr.rsp ≠ dst := by
    rintro rfl
    cases hd
  refine encodes_of_decodeAny (by simp [Instr.operands, hsp]) fun rest => ?_
  have hmod := @takeModrm_digit dst true false false rest 0#8 (by decide)
  rw [hd] at hmod
  cases cc <;>
    simp [setcc, code, decodeAny_rex, decodeOpcode, take8, decode0F, hmod, condOf, lowByte, hd]

/-- The bytes of a byte's extension decode to it; without REX the register would be another. -/
theorem encodes_movzxR32R8 (hd : Gpr.rsp ≠ dst) (hs : needsExt src = true) :
    Encodes (movzxR32R8 dst src) (.movzx8 dst src) := by
  have hsp : Gpr.rsp ≠ src := by
    rintro rfl
    cases hs
  refine encodes_of_decodeAny (by simp [Instr.operands, hd, hsp]) fun rest => ?_
  have hmod := @takeModrm_reg dst src true false (needsExt dst) rest
  rw [hs] at hmod
  simp [movzxR32R8, regForm, decodeAny_rex, decodeOpcode, take8, decode0F, hmod, lowByte, hs]

/-- The bytes of a call decode to it. -/
theorem encodes_callR64 (hd : Gpr.rsp ≠ dst) : Encodes (callR64 dst) (.call dst) := by
  refine encodes_of_decodeAny (by simp [Instr.operands, hd]) fun rest => ?_
  simp [callR64, digitForm, decodeAny_rex, decodeOpcode, decodeModrm32, takeModrm_digit]

/-! ### Registers in the opcode -/

/-- An opcode whose low three bits are a register. -/
theorem opcode_reg (op : U8) (r : Gpr) (hop : op = 0xb8 ∨ op = 0x50 ∨ op = 0x58) :
    op + low3 r ≠ 0x66 ∧ (op + low3 r) >>> 4 ≠ 4 ∧ op + low3 r ≠ 0x0f ∧ op + low3 r ≠ 0xc3 ∧
      op + low3 r ≠ 0xe9 ∧ (op + low3 r).extractLsb' 3 5 = op.extractLsb' 3 5 ∧
        gpr (needsExt r) ((op + low3 r).extractLsb' 0 3) = r := by
  revert r
  rcases hop with rfl | rfl | rfl <;> decide

/-- The bytes of a 32-bit constant decode to it. -/
theorem encodes_movR32Imm32 (hd : Gpr.rsp ≠ dst) :
    Encodes (movR32Imm32 dst imm) (.movImm dst imm) := by
  refine encodes_of_decodeAny (by simp [Instr.operands, hd]) fun rest => ?_
  obtain ⟨h66, hrex, h0f, hc3, he9, hop, hreg⟩ := opcode_reg 0xb8 dst (.inl rfl)
  rw [movR32Imm32, List.append_assoc, List.cons_append, decodeAny_rex h66 hrex, decodeOpcode, if_neg,
    if_neg h0f, if_neg hc3, if_neg he9, hop, if_pos (by decide), take32_leBytes]
  · exact congrArg (fun r => some (Instr.movImm r imm, rest)) hreg
  · exact Bool.false_ne_true

/-- The bytes of a 64-bit constant decode to it. -/
theorem encodes_movR64Imm64 {v : U64} (hd : Gpr.rsp ≠ dst) :
    Encodes (movR64Imm64 dst v) (.movImm64 dst v) := by
  refine encodes_of_decodeAny (by simp [Instr.operands, hd]) fun rest => ?_
  obtain ⟨h66, hrex, -, -, -, hop, hreg⟩ := opcode_reg 0xb8 dst (.inl rfl)
  rw [movR64Imm64, List.append_assoc, List.cons_append, decodeAny_rex h66 hrex]
  change decode64 _ _ _ = _
  rw [decode64, if_pos (hop.trans (by decide)), take64_leBytes64]
  exact congrArg (fun r => some (Instr.movImm64 r v, rest)) hreg

/-- The bytes of a push decode to it. -/
theorem encodes_pushR64 (hr : Gpr.rsp ≠ r) : Encodes (pushR64 r) (.push r) := by
  refine encodes_of_decodeAny (by simp [Instr.operands, hr]) fun rest => ?_
  obtain ⟨h66, hrex, h0f, hc3, he9, hop, hreg⟩ := opcode_reg 0x50 r (.inr (.inl rfl))
  rw [pushR64, List.append_assoc, List.singleton_append, decodeAny_rex h66 hrex, decodeOpcode, if_neg,
    if_neg h0f, if_neg hc3, if_neg he9, hop, if_neg (by decide), if_pos (by decide), hreg]
  exact Bool.false_ne_true

/-- The bytes of a pop decode to it. -/
theorem encodes_popR64 (hr : Gpr.rsp ≠ r) : Encodes (popR64 r) (.pop r) := by
  refine encodes_of_decodeAny (by simp [Instr.operands, hr]) fun rest => ?_
  obtain ⟨h66, hrex, h0f, hc3, he9, hop, hreg⟩ := opcode_reg 0x58 r (.inr (.inr rfl))
  rw [popR64, List.append_assoc, List.singleton_append, decodeAny_rex h66 hrex, decodeOpcode, if_neg,
    if_neg h0f, if_neg hc3, if_neg he9, hop, if_neg (by decide),
    if_neg (by decide), if_pos (by decide), hreg]
  exact Bool.false_ne_true

/-! ### Control -/

/-- The byte of a return decodes to it. -/
theorem encodes_ret : Encodes ret .ret :=
  encodes_of_decodeAny (by simp [Instr.operands]) fun _ => rfl

/-- The bytes of a conditional jump decode to it. -/
theorem encodes_jccRel32 (cc : Cond) : Encodes (jccRel32 cc rel) (.jcc cc rel) := by
  refine encodes_of_decodeAny (by simp [Instr.operands]) fun rest => ?_
  have hany := @decodeAny_rex false false false 0x0f (by decide) (by decide)
    ((0x80 + code cc) :: (leBytes rel 4 ++ rest))
  refine hany.trans ?_
  cases cc <;> simp [code, decodeOpcode, take8, decode0F, condOf, take32_leBytes]

/-- The bytes of a jump decode to it. -/
theorem encodes_jmpRel32 : Encodes (jmpRel32 rel) (.jmp rel) := by
  refine encodes_of_decodeAny (by simp [Instr.operands]) fun rest => ?_
  have hany := @decodeAny_rex false false false 0xe9 (by decide) (by decide) (leBytes rel 4 ++ rest)
  refine hany.trans ?_
  simp [decodeOpcode, take32_leBytes]

end

end Asm

end FuzzSoft
