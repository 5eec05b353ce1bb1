import FuzzSoft.Lib.Fields
import FuzzSoft.Riscv.Inst

/-!
# The assembler

The instruction encoders of `asm.rs`, which build the hermetic test programs and the sample images.
They mask an immediate without looking at it, so the decoder reads an encoded instruction back
exactly when its immediate is one that the format can hold (`decode_word_iff`).
-/

namespace FuzzSoft

open Lib

namespace RiscvAsm

/-! ## Formats -/

def iType (op funct3 : U32) (rd rs1 : U8) (imm : U32) : U32 :=
  (imm &&& 0xfff) <<< 20 ||| rs1.setWidth 32 <<< 15 ||| funct3 <<< 12 ||| rd.setWidth 32 <<< 7 |||
    op

def rType (op funct3 funct7 : U32) (rd rs1 rs2 : U8) : U32 :=
  funct7 <<< 25 ||| rs2.setWidth 32 <<< 20 ||| rs1.setWidth 32 <<< 15 ||| funct3 <<< 12 |||
    rd.setWidth 32 <<< 7 ||| op

def bType (op funct3 : U32) (rs1 rs2 : U8) (imm : U32) : U32 :=
  ((imm >>> 12) &&& 1) <<< 31 ||| ((imm >>> 5) &&& 0x3f) <<< 25 ||| rs2.setWidth 32 <<< 20 |||
    rs1.setWidth 32 <<< 15 ||| funct3 <<< 12 ||| ((imm >>> 1) &&& 0xf) <<< 8 |||
    ((imm >>> 11) &&& 1) <<< 7 ||| op

def jType (op : U32) (rd : U8) (imm : U32) : U32 :=
  ((imm >>> 20) &&& 1) <<< 31 ||| ((imm >>> 1) &&& 0x3ff) <<< 21 ||| ((imm >>> 11) &&& 1) <<< 20 |||
    ((imm >>> 12) &&& 0xff) <<< 12 ||| rd.setWidth 32 <<< 7 ||| op

def amo (funct5 : U32) (rd rs1 rs2 : U8) : U32 :=
  funct5 <<< 27 ||| rs2.setWidth 32 <<< 20 ||| rs1.setWidth 32 <<< 15 ||| (0b010 : U32) <<< 12 |||
    rd.setWidth 32 <<< 7 ||| 0x2f

/-! ## Encoders -/

def lui (rd : U8) (imm : U32) : U32 :=
  (imm &&& (0xfffff000 : U32)) ||| rd.setWidth 32 <<< 7 ||| 0x37

def addi (rd rs1 : U8) (imm : U32) : U32 := iType 0x13 0 rd rs1 imm
def add (rd rs1 rs2 : U8) : U32 := rType 0x33 0 0x00 rd rs1 rs2
def sub (rd rs1 rs2 : U8) : U32 := rType 0x33 0 0x20 rd rs1 rs2
def mul (rd rs1 rs2 : U8) : U32 := rType 0x33 0 0x01 rd rs1 rs2
def divu (rd rs1 rs2 : U8) : U32 := rType 0x33 5 0x01 rd rs1 rs2
def beq (rs1 rs2 : U8) (imm : U32) : U32 := bType 0x63 0 rs1 rs2 imm
def bne (rs1 rs2 : U8) (imm : U32) : U32 := bType 0x63 1 rs1 rs2 imm
def bge (rs1 rs2 : U8) (imm : U32) : U32 := bType 0x63 5 rs1 rs2 imm
def jal (rd : U8) (imm : U32) : U32 := jType 0x6f rd imm
def ecall : U32 := 0x00000073
def lw (rd rs1 : U8) (imm : U32) : U32 := iType 0x03 2 rd rs1 imm

/-- S-type: the base is `rs1`, the source `rs2`. -/
def sw (rs1 rs2 : U8) (imm : U32) : U32 :=
  ((imm >>> 5) &&& 0x7f) <<< 25 ||| rs2.setWidth 32 <<< 20 ||| rs1.setWidth 32 <<< 15 |||
    (2 : U32) <<< 12 ||| (imm &&& 0x1f) <<< 7 ||| 0x23

def lrW (rd rs1 : U8) : U32 := amo 0x02 rd rs1 0
def scW (rd rs1 rs2 : U8) : U32 := amo 0x03 rd rs1 rs2
def amoaddW (rd rs1 rs2 : U8) : U32 := amo 0x00 rd rs1 rs2
def amoswapW (rd rs1 rs2 : U8) : U32 := amo 0x01 rd rs1 rs2

/-! ## What the decoder reads of a word -/

section
variable {raw : U32}

/-- The opcode is the low seven bits. -/
theorem opcode_eq (raw : U32) : raw &&& 0x7f = (raw.extractLsb' 0 7).setWidth 32 :=
  and_lowMask raw 7

/-- A register's number is a field of five bits. -/
theorem regField_eq (raw : U32) (lo : Nat) : regField raw lo = raw.extractLsb' lo 5 :=
  BitVec.setWidth_ushiftRight_eq_extractLsb

/-- `funct3` is a field of three bits. -/
theorem funct3_eq (raw : U32) : field raw 12 0x7 = (raw.extractLsb' 12 3).setWidth 32 :=
  ushiftRight_and_lowMask raw 12 3

/-- `funct7` is the top seven bits. -/
theorem funct7_eq (raw : U32) : field raw 25 0x7f = (raw.extractLsb' 25 7).setWidth 32 :=
  ushiftRight_and_lowMask raw 25 7

/-- The I-immediate is the sign-extended top twelve bits. -/
theorem iImm_eq (raw : U32) : raw.sshiftRight 20 = (raw.extractLsb' 20 12).signExtend 32 :=
  sshiftRight_eq_signExtend raw (n := 12) (by decide) (by decide)

/-- A word with the opcode of `lui`. -/
theorem decode_lui (ho : raw.extractLsb' 0 7 = 0x37) :
    decode raw = .lui (raw.extractLsb' 7 5) (raw &&& 0xfffff000) := by
  simp only [decode, opcode_eq, ho, regField_eq]
  rfl

/-- A word with the opcode and the function of `addi`. -/
theorem decode_addi (ho : raw.extractLsb' 0 7 = 0x13) (hf : raw.extractLsb' 12 3 = 0) :
    decode raw = .opImm .add (raw.extractLsb' 7 5) (raw.extractLsb' 15 5)
      ((raw.extractLsb' 20 12).signExtend 32) := by
  simp only [decode, opcode_eq, ho, decodeOpImm, funct3_eq, hf, regField_eq, iImm_eq]
  rfl

/-- A word with the opcode of the register arithmetic. -/
theorem decode_op (ho : raw.extractLsb' 0 7 = 0x33) :
    decode raw =
      if (raw.extractLsb' 25 7).setWidth 32 = (0x01 : U32) then
        ((mulOp ((raw.extractLsb' 12 3).setWidth 32)).map
          (Inst.mul · (raw.extractLsb' 7 5) (raw.extractLsb' 15 5) (raw.extractLsb' 20 5))).getD
            (.illegal raw)
      else
        ((aluOp ((raw.extractLsb' 12 3).setWidth 32) ((raw.extractLsb' 25 7).setWidth 32)).map
          (Inst.op · (raw.extractLsb' 7 5) (raw.extractLsb' 15 5) (raw.extractLsb' 20 5))).getD
            (.illegal raw) := by
  simp only [decode, opcode_eq, ho, funct3_eq, funct7_eq, regField_eq]
  rfl

/-- A word with the opcode of the loads. -/
theorem decode_load (ho : raw.extractLsb' 0 7 = 0x03) :
    decode raw = ((loadOp ((raw.extractLsb' 12 3).setWidth 32)).map
      (Inst.load · (raw.extractLsb' 7 5) (raw.extractLsb' 15 5)
        ((raw.extractLsb' 20 12).signExtend 32))).getD (.illegal raw) := by
  simp only [decode, opcode_eq, ho, funct3_eq, regField_eq, iImm_eq]
  rfl

/-- Sign extension as the decoder computes it. -/
theorem sext_eq (v : U32) {n : Nat} (h0 : 0 < n) (h : n ≤ 32) :
    sext v n = (v.setWidth n).signExtend 32 := shiftLeft_sshiftRight v h0 h

/-- A word with the opcode of the branches. -/
theorem decode_branch (ho : raw.extractLsb' 0 7 = 0x63) :
    decode raw = ((branchOp ((raw.extractLsb' 12 3).setWidth 32)).map
      (Inst.branch · (raw.extractLsb' 15 5) (raw.extractLsb' 20 5)
        (sext (place 32 (raw.extractLsb' 31 1) 12 ||| place 32 (raw.extractLsb' 7 1) 11 |||
          place 32 (raw.extractLsb' 25 6) 5 ||| place 32 (raw.extractLsb' 8 4) 1) 13))).getD
            (.illegal raw) := by
  have h31 : field raw 31 1 = (raw.extractLsb' 31 1).setWidth 32 := ushiftRight_and_lowMask raw 31 1
  have h7 : field raw 7 1 = (raw.extractLsb' 7 1).setWidth 32 := ushiftRight_and_lowMask raw 7 1
  have h25 : field raw 25 0x3f = (raw.extractLsb' 25 6).setWidth 32 :=
    ushiftRight_and_lowMask raw 25 6
  have h8 : field raw 8 0xf = (raw.extractLsb' 8 4).setWidth 32 := ushiftRight_and_lowMask raw 8 4
  simp only [decode, opcode_eq, ho, funct3_eq, regField_eq, h31, h7, h25, h8]
  rfl

/-- A word with the opcode of `jal`. -/
theorem decode_jal (ho : raw.extractLsb' 0 7 = 0x6f) :
    decode raw = .jal (raw.extractLsb' 7 5)
      (sext (place 32 (raw.extractLsb' 31 1) 20 ||| place 32 (raw.extractLsb' 21 10) 1 |||
        place 32 (raw.extractLsb' 20 1) 11 ||| place 32 (raw.extractLsb' 12 8) 12) 21) := by
  have h31 : field raw 31 1 = (raw.extractLsb' 31 1).setWidth 32 := ushiftRight_and_lowMask raw 31 1
  have h21 : field raw 21 0x3ff = (raw.extractLsb' 21 10).setWidth 32 :=
    ushiftRight_and_lowMask raw 21 10
  have h20 : field raw 20 1 = (raw.extractLsb' 20 1).setWidth 32 := ushiftRight_and_lowMask raw 20 1
  have h12 : field raw 12 0xff = (raw.extractLsb' 12 8).setWidth 32 :=
    ushiftRight_and_lowMask raw 12 8
  simp only [decode, opcode_eq, ho, regField_eq, h31, h21, h20, h12]
  rfl

/-- The S-immediate is put together from two fields. -/
theorem sImm_eq (raw : U32) : (raw &&& 0xfe000000).sshiftRight 20 ||| field raw 7 0x1f =
    (place 12 (raw.extractLsb' 25 7) 5 ||| place 12 (raw.extractLsb' 7 5) 0).signExtend 32 := by
  have hhigh : raw &&& 0xfe000000 = place 32 (raw.extractLsb' 25 7) 25 := and_highMask raw 25
  have hlow : field raw 7 0x1f = (raw.extractLsb' 7 5).setWidth 32 :=
    ushiftRight_and_lowMask raw 7 5
  have hpos : (place 12 (raw.extractLsb' 7 5) 0).signExtend 32 =
      (raw.extractLsb' 7 5).setWidth 32 := by
    rw [BitVec.signExtend_eq_setWidth_of_msb_false]
    · simp [place]
    · simp [place, BitVec.msb_eq_getLsbD_last]
  rw [hhigh, hlow, iImm_eq, extract_place_around _ (by decide) (by decide), BitVec.signExtend_or,
    hpos]

/-- A word with the opcode of the stores. -/
theorem decode_store (ho : raw.extractLsb' 0 7 = 0x23) :
    decode raw = ((storeOp ((raw.extractLsb' 12 3).setWidth 32)).map
      (Inst.store · (raw.extractLsb' 15 5) (raw.extractLsb' 20 5)
        ((place 12 (raw.extractLsb' 25 7) 5 |||
          place 12 (raw.extractLsb' 7 5) 0).signExtend 32))).getD (.illegal raw) := by
  simp only [decode, opcode_eq, ho, funct3_eq, regField_eq, sImm_eq]
  rfl

/-- A word with the opcode of the atomics, its ordering bits clear. -/
theorem decode_amo (ho : raw.extractLsb' 0 7 = 0x2f) (hf : raw.extractLsb' 12 3 = 2)
    (ha : raw.extractLsb' 26 1 = 0#1) (hr : raw.extractLsb' 25 1 = 0#1) :
    decode raw =
      if (raw.extractLsb' 27 5).setWidth 32 = (0x02 : U32) then
        .lrW (raw.extractLsb' 7 5) (raw.extractLsb' 15 5) false false
      else if (raw.extractLsb' 27 5).setWidth 32 = (0x03 : U32) then
        .scW (raw.extractLsb' 7 5) (raw.extractLsb' 15 5) (raw.extractLsb' 20 5) false false
      else
        ((amoOp ((raw.extractLsb' 27 5).setWidth 32)).map
          (Inst.amoW · (raw.extractLsb' 7 5) (raw.extractLsb' 15 5) (raw.extractLsb' 20 5) false
            false)).getD (.illegal raw) := by
  have h27 : field raw 27 0x1f = (raw.extractLsb' 27 5).setWidth 32 :=
    ushiftRight_and_lowMask raw 27 5
  have h26 : field raw 26 1 = (raw.extractLsb' 26 1).setWidth 32 := ushiftRight_and_lowMask raw 26 1
  have h25 : field raw 25 1 = (raw.extractLsb' 25 1).setWidth 32 := ushiftRight_and_lowMask raw 25 1
  have hamo : decode raw = decodeAmo raw := by
    simp only [decode, opcode_eq, ho, funct3_eq, hf]
    rfl
  rw [hamo]
  simp only [decodeAmo, regField_eq, h27, h26, h25, ha, hr]
  cases amoOp ((raw.extractLsb' 27 5).setWidth 32) with
  | none => rfl
  | some op => rfl

end

/-! ## What the formats put where -/

section
variable {raw : U32} (op funct7 : BitVec 7) (funct5 : BitVec 5) (funct3 : BitVec 3)
  (rd rs1 rs2 : Reg) (imm : U32)

/-- A register's number passed as a byte. -/
theorem reg_word (r : Reg) : (r.setWidth 8).setWidth 32 = r.setWidth 32 :=
  BitVec.eq_of_toNat_eq (by simp only [BitVec.toNat_setWidth]; omega)

/-- The fields of an I-type word. -/
theorem iType_fields
    (h : raw = iType (op.setWidth 32) (funct3.setWidth 32) (rd.setWidth 8) (rs1.setWidth 8) imm) :
    raw.extractLsb' 0 7 = op ∧ raw.extractLsb' 7 5 = rd ∧ raw.extractLsb' 12 3 = funct3 ∧
      raw.extractLsb' 15 5 = rs1 ∧ raw.extractLsb' 20 12 = imm.extractLsb' 0 12 := by
  have hm : imm &&& 0xfff = (imm.extractLsb' 0 12).setWidth 32 := and_lowMask imm 12
  have hraw : raw = place 32 (imm.extractLsb' 0 12) 20 ||| place 32 rs1 15 |||
      place 32 funct3 12 ||| place 32 rd 7 ||| place 32 op 0 := by
    simp only [h, iType, place, hm, reg_word, BitVec.shiftLeft_zero]
  rw [hraw]
  refine ⟨?_, ?_, ?_, ?_, ?_⟩ <;>
    simp (disch := omega) only [BitVec.extractLsb'_or, extract_place, extract_place_beside,
      BitVec.zero_or, BitVec.or_zero]

/-- The fields of an R-type word. -/
theorem rType_fields
    (h : raw = rType (op.setWidth 32) (funct3.setWidth 32) (funct7.setWidth 32) (rd.setWidth 8)
      (rs1.setWidth 8) (rs2.setWidth 8)) :
    raw.extractLsb' 0 7 = op ∧ raw.extractLsb' 7 5 = rd ∧ raw.extractLsb' 12 3 = funct3 ∧
      raw.extractLsb' 15 5 = rs1 ∧ raw.extractLsb' 20 5 = rs2 ∧ raw.extractLsb' 25 7 = funct7 := by
  have hraw : raw = place 32 funct7 25 ||| place 32 rs2 20 ||| place 32 rs1 15 |||
      place 32 funct3 12 ||| place 32 rd 7 ||| place 32 op 0 := by
    simp only [h, rType, place, reg_word, BitVec.shiftLeft_zero]
  rw [hraw]
  refine ⟨?_, ?_, ?_, ?_, ?_, ?_⟩ <;>
    simp (disch := omega) only [BitVec.extractLsb'_or, extract_place, extract_place_beside,
      BitVec.zero_or, BitVec.or_zero]

/-- The fields of a B-type word. -/
theorem bType_fields
    (h : raw = bType (op.setWidth 32) (funct3.setWidth 32) (rs1.setWidth 8) (rs2.setWidth 8) imm) :
    raw.extractLsb' 0 7 = op ∧ raw.extractLsb' 12 3 = funct3 ∧ raw.extractLsb' 15 5 = rs1 ∧
      raw.extractLsb' 20 5 = rs2 ∧ raw.extractLsb' 31 1 = imm.extractLsb' 12 1 ∧
      raw.extractLsb' 7 1 = imm.extractLsb' 11 1 ∧ raw.extractLsb' 25 6 = imm.extractLsb' 5 6 ∧
      raw.extractLsb' 8 4 = imm.extractLsb' 1 4 := by
  have h12 : imm >>> 12 &&& 1 = (imm.extractLsb' 12 1).setWidth 32 :=
    ushiftRight_and_lowMask imm 12 1
  have h11 : imm >>> 11 &&& 1 = (imm.extractLsb' 11 1).setWidth 32 :=
    ushiftRight_and_lowMask imm 11 1
  have h5 : imm >>> 5 &&& 0x3f = (imm.extractLsb' 5 6).setWidth 32 :=
    ushiftRight_and_lowMask imm 5 6
  have h1 : imm >>> 1 &&& 0xf = (imm.extractLsb' 1 4).setWidth 32 := ushiftRight_and_lowMask imm 1 4
  have hraw : raw = place 32 (imm.extractLsb' 12 1) 31 ||| place 32 (imm.extractLsb' 5 6) 25 |||
      place 32 rs2 20 ||| place 32 rs1 15 ||| place 32 funct3 12 |||
      place 32 (imm.extractLsb' 1 4) 8 ||| place 32 (imm.extractLsb' 11 1) 7 ||| place 32 op 0 := by
    simp only [h, bType, place, reg_word, h12, h11, h5, h1, BitVec.shiftLeft_zero]
  rw [hraw]
  refine ⟨?_, ?_, ?_, ?_, ?_, ?_, ?_, ?_⟩ <;>
    simp (disch := omega) only [BitVec.extractLsb'_or, extract_place, extract_place_beside,
      BitVec.zero_or, BitVec.or_zero]

/-- The fields of a J-type word. -/
theorem jType_fields (h : raw = jType (op.setWidth 32) (rd.setWidth 8) imm) :
    raw.extractLsb' 0 7 = op ∧ raw.extractLsb' 7 5 = rd ∧
      raw.extractLsb' 31 1 = imm.extractLsb' 20 1 ∧ raw.extractLsb' 21 10 = imm.extractLsb' 1 10 ∧
      raw.extractLsb' 20 1 = imm.extractLsb' 11 1 ∧
      raw.extractLsb' 12 8 = imm.extractLsb' 12 8 := by
  have h20 : imm >>> 20 &&& 1 = (imm.extractLsb' 20 1).setWidth 32 :=
    ushiftRight_and_lowMask imm 20 1
  have h1 : imm >>> 1 &&& 0x3ff = (imm.extractLsb' 1 10).setWidth 32 :=
    ushiftRight_and_lowMask imm 1 10
  have h11 : imm >>> 11 &&& 1 = (imm.extractLsb' 11 1).setWidth 32 :=
    ushiftRight_and_lowMask imm 11 1
  have h12 : imm >>> 12 &&& 0xff = (imm.extractLsb' 12 8).setWidth 32 :=
    ushiftRight_and_lowMask imm 12 8
  have hraw : raw = place 32 (imm.extractLsb' 20 1) 31 ||| place 32 (imm.extractLsb' 1 10) 21 |||
      place 32 (imm.extractLsb' 11 1) 20 ||| place 32 (imm.extractLsb' 12 8) 12 |||
      place 32 rd 7 ||| place 32 op 0 := by
    simp only [h, jType, place, reg_word, h20, h1, h11, h12, BitVec.shiftLeft_zero]
  rw [hraw]
  refine ⟨?_, ?_, ?_, ?_, ?_, ?_⟩ <;>
    simp (disch := omega) only [BitVec.extractLsb'_or, extract_place, extract_place_beside,
      BitVec.zero_or, BitVec.or_zero]

/-- The fields of a `sw`. -/
theorem sw_fields (h : raw = sw (rs1.setWidth 8) (rs2.setWidth 8) imm) :
    raw.extractLsb' 0 7 = 0x23 ∧ raw.extractLsb' 12 3 = 2 ∧ raw.extractLsb' 15 5 = rs1 ∧
      raw.extractLsb' 20 5 = rs2 ∧ raw.extractLsb' 25 7 = imm.extractLsb' 5 7 ∧
      raw.extractLsb' 7 5 = imm.extractLsb' 0 5 := by
  have h5 : imm >>> 5 &&& 0x7f = (imm.extractLsb' 5 7).setWidth 32 :=
    ushiftRight_and_lowMask imm 5 7
  have h0 : imm &&& 0x1f = (imm.extractLsb' 0 5).setWidth 32 := and_lowMask imm 5
  have hraw : raw = place 32 (imm.extractLsb' 5 7) 25 ||| place 32 rs2 20 ||| place 32 rs1 15 |||
      place 32 (2 : BitVec 3) 12 ||| place 32 (imm.extractLsb' 0 5) 7 |||
      place 32 (0x23 : BitVec 7) 0 := by
    simp only [h, sw, place, reg_word, h5, h0]
    rfl
  rw [hraw]
  refine ⟨?_, ?_, ?_, ?_, ?_, ?_⟩ <;>
    simp (disch := omega) only [BitVec.extractLsb'_or, extract_place, extract_place_beside,
      BitVec.zero_or, BitVec.or_zero]

/-- The fields of an atomic. -/
theorem amo_fields
    (h : raw = amo (funct5.setWidth 32) (rd.setWidth 8) (rs1.setWidth 8) (rs2.setWidth 8)) :
    raw.extractLsb' 0 7 = 0x2f ∧ raw.extractLsb' 12 3 = 2 ∧ raw.extractLsb' 26 1 = 0#1 ∧
      raw.extractLsb' 25 1 = 0#1 ∧ raw.extractLsb' 7 5 = rd ∧ raw.extractLsb' 15 5 = rs1 ∧
      raw.extractLsb' 20 5 = rs2 ∧ raw.extractLsb' 27 5 = funct5 := by
  have hraw : raw = place 32 funct5 27 ||| place 32 rs2 20 ||| place 32 rs1 15 |||
      place 32 (2 : BitVec 3) 12 ||| place 32 rd 7 ||| place 32 (0x2f : BitVec 7) 0 := by
    simp only [h, amo, place, reg_word]
    rfl
  rw [hraw]
  refine ⟨?_, ?_, ?_, ?_, ?_, ?_, ?_, ?_⟩ <;>
    simp (disch := omega) only [BitVec.extractLsb'_or, extract_place, extract_place_beside,
      BitVec.zero_or, BitVec.or_zero]

/-- The fields of a `lui`. -/
theorem lui_fields (h : raw = lui (rd.setWidth 8) imm) :
    raw.extractLsb' 0 7 = 0x37 ∧ raw.extractLsb' 7 5 = rd ∧
      raw &&& 0xfffff000 = imm &&& 0xfffff000 := by
  have h12 : imm &&& 0xfffff000 = place 32 (imm.extractLsb' 12 20) 12 := and_highMask imm 12
  have hraw : raw = place 32 (imm.extractLsb' 12 20) 12 ||| place 32 rd 7 |||
      place 32 (0x37 : BitVec 7) 0 := by
    simp only [h, lui, h12, reg_word]
    rfl
  have hmask : raw &&& 0xfffff000 = place 32 (raw.extractLsb' 12 20) 12 := and_highMask raw 12
  rw [hmask, h12, hraw]
  refine ⟨?_, ?_, ?_⟩ <;>
    simp (disch := omega) only [BitVec.extractLsb'_or, extract_place, extract_place_beside,
      BitVec.zero_or, BitVec.or_zero]

end

/-! ## The round trip -/

/-- A call of an encoder. -/
inductive Call where
  | lui (rd : Reg) (imm : U32)
  | addi (rd rs1 : Reg) (imm : U32)
  | add (rd rs1 rs2 : Reg)
  | sub (rd rs1 rs2 : Reg)
  | mul (rd rs1 rs2 : Reg)
  | divu (rd rs1 rs2 : Reg)
  | beq (rs1 rs2 : Reg) (imm : U32)
  | bne (rs1 rs2 : Reg) (imm : U32)
  | bge (rs1 rs2 : Reg) (imm : U32)
  | jal (rd : Reg) (imm : U32)
  | ecall
  | lw (rd rs1 : Reg) (imm : U32)
  | sw (rs1 rs2 : Reg) (imm : U32)
  | lrW (rd rs1 : Reg)
  | scW (rd rs1 rs2 : Reg)
  | amoaddW (rd rs1 rs2 : Reg)
  | amoswapW (rd rs1 rs2 : Reg)

namespace Call

/-- The word that the call returns. -/
def word : Call → U32
  | lui rd imm => RiscvAsm.lui (rd.setWidth 8) imm
  | addi rd rs1 imm => RiscvAsm.addi (rd.setWidth 8) (rs1.setWidth 8) imm
  | add rd rs1 rs2 => RiscvAsm.add (rd.setWidth 8) (rs1.setWidth 8) (rs2.setWidth 8)
  | sub rd rs1 rs2 => RiscvAsm.sub (rd.setWidth 8) (rs1.setWidth 8) (rs2.setWidth 8)
  | mul rd rs1 rs2 => RiscvAsm.mul (rd.setWidth 8) (rs1.setWidth 8) (rs2.setWidth 8)
  | divu rd rs1 rs2 => RiscvAsm.divu (rd.setWidth 8) (rs1.setWidth 8) (rs2.setWidth 8)
  | beq rs1 rs2 imm => RiscvAsm.beq (rs1.setWidth 8) (rs2.setWidth 8) imm
  | bne rs1 rs2 imm => RiscvAsm.bne (rs1.setWidth 8) (rs2.setWidth 8) imm
  | bge rs1 rs2 imm => RiscvAsm.bge (rs1.setWidth 8) (rs2.setWidth 8) imm
  | jal rd imm => RiscvAsm.jal (rd.setWidth 8) imm
  | ecall => RiscvAsm.ecall
  | lw rd rs1 imm => RiscvAsm.lw (rd.setWidth 8) (rs1.setWidth 8) imm
  | sw rs1 rs2 imm => RiscvAsm.sw (rs1.setWidth 8) (rs2.setWidth 8) imm
  | lrW rd rs1 => RiscvAsm.lrW (rd.setWidth 8) (rs1.setWidth 8)
  | scW rd rs1 rs2 => RiscvAsm.scW (rd.setWidth 8) (rs1.setWidth 8) (rs2.setWidth 8)
  | amoaddW rd rs1 rs2 => RiscvAsm.amoaddW (rd.setWidth 8) (rs1.setWidth 8) (rs2.setWidth 8)
  | amoswapW rd rs1 rs2 => RiscvAsm.amoswapW (rd.setWidth 8) (rs1.setWidth 8) (rs2.setWidth 8)

/-- The instruction that the call asks for. -/
def inst : Call → Inst
  | lui rd imm => .lui rd imm
  | addi rd rs1 imm => .opImm .add rd rs1 imm
  | add rd rs1 rs2 => .op .add rd rs1 rs2
  | sub rd rs1 rs2 => .op .sub rd rs1 rs2
  | mul rd rs1 rs2 => .mul .mul rd rs1 rs2
  | divu rd rs1 rs2 => .mul .divu rd rs1 rs2
  | beq rs1 rs2 imm => .branch .eq rs1 rs2 imm
  | bne rs1 rs2 imm => .branch .ne rs1 rs2 imm
  | bge rs1 rs2 imm => .branch .ge rs1 rs2 imm
  | jal rd imm => .jal rd imm
  | ecall => .ecall
  | lw rd rs1 imm => .load .lw rd rs1 imm
  | sw rs1 rs2 imm => .store .sw rs1 rs2 imm
  | lrW rd rs1 => .lrW rd rs1 false false
  | scW rd rs1 rs2 => .scW rd rs1 rs2 false false
  | amoaddW rd rs1 rs2 => .amoW .add rd rs1 rs2 false false
  | amoswapW rd rs1 rs2 => .amoW .swap rd rs1 rs2 false false

/-- The format of the instruction can hold the immediate of the call. -/
def Fits : Call → Prop
  | lui _ imm => imm.extractLsb' 0 12 = 0#12
  | addi _ _ imm | lw _ _ imm | sw _ _ imm => SignedBits 12 imm
  | beq _ _ imm | bne _ _ imm | bge _ _ imm => SignedBits 13 imm ∧ imm.extractLsb' 0 1 = 0#1
  | jal _ imm => SignedBits 21 imm ∧ imm.extractLsb' 0 1 = 0#1
  | _ => True

/-- The call with its immediate cut to the format. -/
def cut : Call → Call
  | lui rd imm => lui rd (imm &&& 0xfffff000)
  | addi rd rs1 imm => addi rd rs1 (signedField 12 0 imm)
  | beq rs1 rs2 imm => beq rs1 rs2 (signedField 13 1 imm)
  | bne rs1 rs2 imm => bne rs1 rs2 (signedField 13 1 imm)
  | bge rs1 rs2 imm => bge rs1 rs2 (signedField 13 1 imm)
  | jal rd imm => jal rd (signedField 21 1 imm)
  | lw rd rs1 imm => lw rd rs1 (signedField 12 0 imm)
  | sw rs1 rs2 imm => sw rs1 rs2 (signedField 12 0 imm)
  | c => c

end Call

section
variable {raw : U32} (rd rs1 rs2 : Reg) (imm : U32)

/-- A conditional branch of any comparison. -/
theorem decode_bType (funct3 : BitVec 3)
    (h : raw = bType ((0x63 : BitVec 7).setWidth 32) (funct3.setWidth 32) (rs1.setWidth 8)
      (rs2.setWidth 8) imm) :
    decode raw = ((branchOp (funct3.setWidth 32)).map
      (Inst.branch · rs1 rs2 (signedField 13 1 imm))).getD (.illegal raw) := by
  obtain ⟨ho, hf, h1, h2, h31, h7, h25, h8⟩ := bType_fields _ _ _ _ _ h
  have himm : place 32 (imm.extractLsb' 12 1) 12 ||| place 32 (imm.extractLsb' 11 1) 11 |||
      place 32 (imm.extractLsb' 5 6) 5 ||| place 32 (imm.extractLsb' 1 4) 1 =
        place 32 (imm.extractLsb' 1 12) 1 := by
    rw [place_extract_or imm 11 1 1, place_extract_or imm 5 6 2, place_extract_or imm 1 4 8]
  rw [decode_branch ho, hf, h1, h2, h31, h7, h25, h8, himm, sext_eq _ (by decide) (by decide),
    BitVec.setWidth_eq_extractLsb' (by decide), extract_place_around _ (by decide) (by decide)]
  rfl

/-- A J-type word decodes to `jal` with the immediate cut to its field. -/
theorem decode_jType (h : raw = jType ((0x6f : BitVec 7).setWidth 32) (rd.setWidth 8) imm) :
    decode raw = .jal rd (signedField 21 1 imm) := by
  obtain ⟨ho, hd, h31, h21, h20, h12⟩ := jType_fields _ _ _ h
  have hswap : ∀ a b c d : U32, a ||| b ||| c ||| d = a ||| d ||| c ||| b := by
    intro a b c d
    ac_rfl
  have himm : place 32 (imm.extractLsb' 20 1) 20 ||| place 32 (imm.extractLsb' 1 10) 1 |||
      place 32 (imm.extractLsb' 11 1) 11 ||| place 32 (imm.extractLsb' 12 8) 12 =
        place 32 (imm.extractLsb' 1 20) 1 := by
    rw [hswap, place_extract_or imm 12 8 1, place_extract_or imm 11 1 9,
      place_extract_or imm 1 10 10]
  rw [decode_jal ho, hd, h31, h21, h20, h12, himm, sext_eq _ (by decide) (by decide),
    BitVec.setWidth_eq_extractLsb' (by decide), extract_place_around _ (by decide) (by decide)]
  rfl

/-- An encoded `sw` decodes to it with the immediate cut to its field. -/
theorem decode_sType (h : raw = sw (rs1.setWidth 8) (rs2.setWidth 8) imm) :
    decode raw = .store .sw rs1 rs2 (signedField 12 0 imm) := by
  obtain ⟨ho, hf, h1, h2, h25, h7⟩ := sw_fields _ _ _ h
  rw [decode_store ho, hf, h1, h2, h25, h7, place_extract_or imm 0 5 7]
  rfl

/-- Register-register arithmetic of any opcode. -/
theorem decode_rType (funct3 : BitVec 3) (funct7 : BitVec 7)
    (h : raw = rType ((0x33 : BitVec 7).setWidth 32) (funct3.setWidth 32) (funct7.setWidth 32)
      (rd.setWidth 8) (rs1.setWidth 8) (rs2.setWidth 8)) :
    decode raw =
      if funct7.setWidth 32 = (0x01 : U32) then
        ((mulOp (funct3.setWidth 32)).map (Inst.mul · rd rs1 rs2)).getD (.illegal raw)
      else
        ((aluOp (funct3.setWidth 32) (funct7.setWidth 32)).map (Inst.op · rd rs1 rs2)).getD
          (.illegal raw) := by
  obtain ⟨ho, hd, hf, h1, h2, h7⟩ := rType_fields _ _ _ _ _ _ h
  rw [decode_op ho, hd, hf, h1, h2, h7]

/-- The A extension without ordering bits. -/
theorem decode_amoType (funct5 : BitVec 5)
    (h : raw = amo (funct5.setWidth 32) (rd.setWidth 8) (rs1.setWidth 8) (rs2.setWidth 8)) :
    decode raw =
      if funct5.setWidth 32 = (0x02 : U32) then .lrW rd rs1 false false
      else if funct5.setWidth 32 = (0x03 : U32) then .scW rd rs1 rs2 false false
      else ((amoOp (funct5.setWidth 32)).map (Inst.amoW · rd rs1 rs2 false false)).getD
        (.illegal raw) := by
  obtain ⟨ho, hf, ha, hr, hd, h1, h2, h27⟩ := amo_fields _ _ _ _ h
  rw [decode_amo ho hf ha hr, hd, h1, h2, h27]

end

/-- The decoder reads a word of the assembler as the call with its immediate cut to the format. -/
theorem decode_word (c : Call) : decode c.word = c.cut.inst := by
  cases c with
  | lui rd imm =>
    obtain ⟨ho, hd, hi⟩ := lui_fields rd imm rfl
    exact (decode_lui ho).trans (by rw [hd, hi]; rfl)
  | addi rd rs1 imm =>
    obtain ⟨ho, hd, hf, h1, hi⟩ := iType_fields 0x13 0 rd rs1 imm rfl
    exact (decode_addi ho hf).trans (by rw [hd, h1, hi, ← place_zero (imm.extractLsb' 0 12)]; rfl)
  | lw rd rs1 imm =>
    obtain ⟨ho, hd, hf, h1, hi⟩ := iType_fields 0x03 2 rd rs1 imm rfl
    exact (decode_load ho).trans (by rw [hd, hf, h1, hi, ← place_zero (imm.extractLsb' 0 12)]; rfl)
  | add rd rs1 rs2 => exact decode_rType rd rs1 rs2 0 0x00 rfl
  | sub rd rs1 rs2 => exact decode_rType rd rs1 rs2 0 0x20 rfl
  | mul rd rs1 rs2 => exact decode_rType rd rs1 rs2 0 0x01 rfl
  | divu rd rs1 rs2 => exact decode_rType rd rs1 rs2 5 0x01 rfl
  | beq rs1 rs2 imm => exact decode_bType rs1 rs2 imm 0 rfl
  | bne rs1 rs2 imm => exact decode_bType rs1 rs2 imm 1 rfl
  | bge rs1 rs2 imm => exact decode_bType rs1 rs2 imm 5 rfl
  | jal rd imm => exact decode_jType rd imm rfl
  | sw rs1 rs2 imm => exact decode_sType rs1 rs2 imm rfl
  | lrW rd rs1 => exact decode_amoType rd rs1 0 0x02 rfl
  | scW rd rs1 rs2 => exact decode_amoType rd rs1 rs2 0x03 rfl
  | amoaddW rd rs1 rs2 => exact decode_amoType rd rs1 rs2 0x00 rfl
  | amoswapW rd rs1 rs2 => exact decode_amoType rd rs1 rs2 0x01 rfl
  | ecall => rfl

/-- An immediate survives `lui` when its low twelve bits are clear. -/
theorem and_highMask_eq_iff (imm : U32) :
    imm &&& 0xfffff000 = imm ↔ imm.extractLsb' 0 12 = 0#12 := by
  have h12 : imm &&& 0xfffff000 = place 32 (imm.extractLsb' 12 20) 12 := and_highMask imm 12
  have hfield : signedField 32 12 imm = place 32 (imm.extractLsb' 12 20) 12 :=
    BitVec.signExtend_eq _
  rw [h12, ← hfield, signedField_eq_iff (by decide) (by decide)]
  exact and_iff_right ⟨imm.le_toInt, imm.toInt_lt⟩

/-- The decoded instruction is the encoded one when its immediate fits. -/
theorem cut_inst_eq_iff (c : Call) : c.cut.inst = c.inst ↔ c.Fits := by
  have hno : ∀ imm : U32, imm.extractLsb' 0 0 = 0#0 := fun _ => BitVec.eq_nil _
  cases c with
  | lui rd imm =>
    rw [Call.cut, Call.inst, Call.inst, Inst.lui.injEq, and_highMask_eq_iff]
    exact and_iff_right rfl
  | _ => simp [Call.cut, Call.inst, Call.Fits, signedField_eq_iff, hno]

/-- Only a word that ends in `11` is an instruction of four bytes. -/
theorem whole_of_decode {raw : U32} (h : decode raw ≠ .illegal raw) : raw &&& 0x3 = 0x3 := by
  have hlow : raw &&& 0x3 = raw &&& 0x7f &&& 0x3 := by
    rw [BitVec.and_assoc]
    rfl
  rw [hlow]
  unfold decode at h
  dsimp only at h
  split at h
  case h_13 => exact absurd rfl h
  all_goals
    rename_i ho
    rw [ho]
    rfl

/-- The assembler round trip: the fetcher takes a word of the assembler as a whole, and the decoder
reads back the instruction that was asked for exactly when its format can hold the immediate. -/
theorem decode_word_iff (c : Call) :
    c.word &&& 0x3 = 0x3 ∧ (decode c.word = c.inst ↔ c.Fits) := by
  have hcut := decode_word c
  refine ⟨whole_of_decode ?_, ?_⟩
  · rw [hcut]
    cases c <;> simp [Call.cut, Call.inst]
  · rw [hcut]
    exact cut_inst_eq_iff c

/-- An immediate that does not fit is lost without a word. -/
example : decode (addi 10 10 4096) = .opImm .add 10 10 0 := by decide

end RiscvAsm

end FuzzSoft
