import FuzzSoft.Lib.Checked
import FuzzSoft.Riscv.Exec
import FuzzSoft.Mmu.Access
import Mathlib.Algebra.Order.Ring.Int

/-!
# The step in checked arithmetic

`step_system` as a build that checks integer arithmetic runs it: `none` is a panic. Every unchecked
operation of the source whose operands are known at run time only is one of `Lib.Checked`; the shifts
by a literal are checked by the compiler, and the count of retired instructions is left out. Of all
these operations only the sum of a trap vector can overflow (`stepSystem_eq`): the guest may set a
vectored base so near the end of the address space that its entry for an interrupt is past it.
-/

namespace FuzzSoft

open Lib Lib.Checked

namespace Checked

/-! ## Decoding -/

def sext (v : U32) (bits : Nat) : Option U32 := do
  let shift ← sub 32 (BitVec.ofNat 32 bits)
  let x ← shl v shift
  sar x shift

def regC (h : U32) (lo : Nat) : Option Reg := do
  let r ← add 8 (field h lo 0x7)
  pure (r.setWidth 5)

/-- The offsets of branches and jumps are computed for every word. -/
def decode (raw : U32) : Option Inst := do
  let _ ← sext (field raw 31 1 <<< 12 ||| field raw 7 1 <<< 11 ||| field raw 25 0x3f <<< 5 |||
    field raw 8 0xf <<< 1) 13
  let _ ← sext (field raw 31 1 <<< 20 ||| field raw 21 0x3ff <<< 1 ||| field raw 20 1 <<< 11 |||
    field raw 12 0xff <<< 12) 21
  pure (FuzzSoft.decode raw)

def cjImm (h : U32) : Option U32 :=
  sext (field h 12 1 <<< 11 ||| field h 11 1 <<< 4 ||| field h 9 0x3 <<< 8 ||| field h 8 1 <<< 10 |||
    field h 7 1 <<< 6 ||| field h 6 1 <<< 7 ||| field h 3 0x7 <<< 1 ||| field h 2 1 <<< 5) 12

def cbImm (h : U32) : Option U32 :=
  sext (field h 12 1 <<< 8 ||| field h 10 0x3 <<< 3 ||| field h 5 0x3 <<< 6 ||| field h 3 0x3 <<< 1 |||
    field h 2 1 <<< 5) 9

def decodeLuiC (h : U32) : Option Inst :=
  let rd := regField h 7
  if rd = 2 then do
    let imm ← sext (field h 12 1 <<< 9 ||| field h 6 1 <<< 4 ||| field h 5 1 <<< 6 |||
      field h 3 0x3 <<< 7 ||| field h 2 1 <<< 5) 10
    pure (if imm = 0 then .illegal h else .opImm .add 2 2 imm)
  else if rd ≠ 0 then do
    let imm ← sext (field h 12 1 <<< 17 ||| field h 2 0x1f <<< 12) 18
    pure (if imm = 0 then .illegal h else .lui rd imm)
  else pure (.illegal h)

/-- The ALU group of quadrant 1: only `C.ANDI` extends a sign. -/
def decodeAluC (h : U32) : Option Inst := do
  if field h 10 0x3 = 2 then
    let _ ← sext (imm6 h) 6
  pure (FuzzSoft.decodeAluC h)

def decodeQ1 (h : U32) : Option Inst :=
  let rd := regField h 7
  match field h 13 0x7 with
  | 0 => do
    let imm ← sext (imm6 h) 6
    pure (.opImm .add rd rd imm)
  | 1 => do
    let imm ← cjImm h
    pure (.jal 1 imm)
  | 2 => do
    let imm ← sext (imm6 h) 6
    pure (.opImm .add rd 0 imm)
  | 3 => decodeLuiC h
  | 4 => decodeAluC h
  | 5 => do
    let imm ← cjImm h
    pure (.jal 0 imm)
  | 6 => do
    let imm ← cbImm h
    pure (.branch .eq (FuzzSoft.regC h 7) 0 imm)
  | _ => do
    let imm ← cbImm h
    pure (.branch .ne (FuzzSoft.regC h 7) 0 imm)

/-- The two compressed registers are computed for every half-word. -/
def decodeCompressed (half : U16) : Option Inst := do
  let h := half.setWidth 32
  let _ ← regC h 2
  let _ ← regC h 7
  match h &&& 0x3 with
  | 0 => pure (decodeQ0 h)
  | 1 => decodeQ1 h
  | 2 => pure (decodeQ2 h)
  | _ => pure (.illegal h)

/-- A sign extension from 1 to 32 bits shifts by less than 32. -/
theorem sext_eq (v : U32) {bits : Nat} (h0 : 0 < bits) (h : bits ≤ 32) :
    sext v bits = some (FuzzSoft.sext v bits) := by
  have hb : (BitVec.ofNat 32 bits).toNat = bits := by
    rw [BitVec.toNat_ofNat, Nat.mod_eq_of_lt (by omega)]
  have hs : sub (32 : U32) (BitVec.ofNat 32 bits) = some (32 - BitVec.ofNat 32 bits) :=
    sub_eq (by rw [hb]; exact h)
  have hn : ((32 : U32) - BitVec.ofNat 32 bits).toNat = 32 - bits := by
    rw [BitVec.toNat_sub_of_le (by rw [BitVec.le_def, hb]; exact h), hb]
    rfl
  have hlt : ((32 : U32) - BitVec.ofNat 32 bits).toNat < 32 := by omega
  simp only [sext, hs, Option.bind_eq_bind, Option.bind_some, shl_eq hlt, sar_eq hlt]
  rw [hn]
  rfl

/-- The number of a compressed register stays below 32. -/
theorem regC_eq (h : U32) (lo : Nat) : regC h lo = some (FuzzSoft.regC h lo) := by
  have hf : (field h lo 0x7).toNat ≤ 7 := by
    rw [field, BitVec.toNat_and]
    exact Nat.and_le_right
  have ha : add (8 : U32) (field h lo 0x7) = some (8 + field h lo 0x7) := by
    refine add_eq ?_
    have h8 : (8 : U32).toNat = 8 := rfl
    omega
  simp only [regC, ha, Option.bind_eq_bind, Option.bind_some, Option.pure_def]
  rfl

/-- Decoding a 32-bit word never overflows. -/
theorem decode_eq (raw : U32) : decode raw = some (FuzzSoft.decode raw) := by
  simp only [decode, sext_eq _ (show 0 < 13 by decide) (by decide),
    sext_eq _ (show 0 < 21 by decide) (by decide), Option.bind_eq_bind, Option.bind_some,
    Option.pure_def]

/-- Decoding `c.lui` never overflows. -/
theorem decodeLuiC_eq (h : U32) : decodeLuiC h = some (FuzzSoft.decodeLuiC h) := by
  simp only [decodeLuiC, FuzzSoft.decodeLuiC, sext_eq _ (show 0 < 10 by decide) (by decide),
    sext_eq _ (show 0 < 18 by decide) (by decide), Option.bind_eq_bind, Option.bind_some,
    Option.pure_def]
  split
  · rfl
  · split <;> rfl

/-- Decoding the compressed arithmetic never overflows. -/
theorem decodeAluC_eq (h : U32) : decodeAluC h = some (FuzzSoft.decodeAluC h) := by
  simp only [decodeAluC, sext_eq _ (show 0 < 6 by decide) (by decide), Option.bind_eq_bind,
    Option.bind_some, Option.pure_def]
  split <;> simp_all

/-- Decoding a compressed jump offset never overflows. -/
theorem cjImm_eq (h : U32) : cjImm h = some (FuzzSoft.cjImm h) :=
  sext_eq _ (by decide) (by decide)

/-- Decoding a compressed branch offset never overflows. -/
theorem cbImm_eq (h : U32) : cbImm h = some (FuzzSoft.cbImm h) :=
  sext_eq _ (by decide) (by decide)

/-- Decoding quadrant 1 never overflows. -/
theorem decodeQ1_eq (h : U32) : decodeQ1 h = some (FuzzSoft.decodeQ1 h) := by
  simp only [decodeQ1, FuzzSoft.decodeQ1, cjImm_eq, cbImm_eq,
    sext_eq _ (show 0 < 6 by decide) (by decide), decodeLuiC_eq, decodeAluC_eq,
    Option.bind_eq_bind, Option.bind_some, Option.pure_def]
  generalize field h 13 0x7 = funct3
  split <;> simp_all

/-- Decoding a compressed instruction never overflows. -/
theorem decodeCompressed_eq (half : U16) :
    decodeCompressed half = some (FuzzSoft.decodeCompressed half) := by
  simp only [decodeCompressed, FuzzSoft.decodeCompressed, regC_eq, decodeQ1_eq,
    Option.bind_eq_bind, Option.bind_some, Option.pure_def]
  generalize half.setWidth 32 &&& 0x3 = quadrant
  split <;> simp_all

/-! ## Arithmetic -/

def muldiv (op : MulOp) (a b : U32) : Option U32 :=
  match op with
  | .mulh => do
    let p ← smul (a.signExtend 64) (b.signExtend 64)
    pure ((p >>> 32).setWidth 32)
  | .mulhsu => do
    let p ← smul (a.signExtend 64) (b.setWidth 64)
    pure ((p >>> 32).setWidth 32)
  | .mulhu => do
    let p ← mul (a.setWidth 64) (b.setWidth 64)
    pure ((p >>> 32).setWidth 32)
  | _ => pure (FuzzSoft.muldiv op a b)

/-- The product of a signed word and a word of either sign fits 64 bits. -/
theorem product_fits {x y : Int} (hx : -2 ^ 31 ≤ x) (hx' : x < 2 ^ 31) (hy : -2 ^ 31 ≤ y)
    (hy' : y < 2 ^ 32) : -2 ^ (64 - 1) ≤ x * y ∧ x * y < 2 ^ (64 - 1) := by
  rcases le_total 0 y with h | h
  · have hl := mul_le_mul_of_nonneg_right hx h
    have hu := mul_le_mul_of_nonneg_right hx'.le h
    constructor <;> omega
  · have hl := mul_le_mul_of_nonpos_right hx h
    have hu := mul_le_mul_of_nonpos_right hx'.le h
    constructor <;> omega

/-- The M-extension never overflows and never divides by zero: the code handles these cases
first. -/
theorem muldiv_eq (op : MulOp) (a b : U32) : muldiv op a b = some (FuzzSoft.muldiv op a b) := by
  have hal := BitVec.le_toInt a
  have hau := BitVec.toInt_lt (x := a)
  have hsa : (a.signExtend 64).toInt = a.toInt := BitVec.toInt_signExtend_of_le (by decide)
  have hzb : (b.setWidth 64).toNat = b.toNat := BitVec.toNat_setWidth_of_le (by decide)
  cases op with
  | mulh =>
    have hsb : (b.signExtend 64).toInt = b.toInt := BitVec.toInt_signExtend_of_le (by decide)
    have hbu := BitVec.toInt_lt (x := b)
    obtain ⟨hl, hu⟩ := product_fits hal hau (BitVec.le_toInt b) (by omega)
    rw [← hsa, ← hsb] at hl hu
    simp only [muldiv, smul_eq hl hu, Option.bind_eq_bind, Option.bind_some, Option.pure_def]
    rfl
  | mulhsu =>
    have hlt := b.isLt
    have hzi : (b.setWidth 64).toInt = b.toNat := by
      rw [BitVec.toInt_eq_toNat_of_lt (by omega), hzb]
    obtain ⟨hl, hu⟩ := product_fits (y := b.toNat) hal hau (by omega) (by omega)
    rw [← hsa, ← hzi] at hl hu
    simp only [muldiv, smul_eq hl hu, Option.bind_eq_bind, Option.bind_some, Option.pure_def]
    rfl
  | mulhu =>
    have h : (a.setWidth 64).toNat * (b.setWidth 64).toNat < 2 ^ 64 := by
      rw [BitVec.toNat_setWidth_of_le (by decide), hzb]
      calc a.toNat * b.toNat < 2 ^ 32 * 2 ^ 32 := Nat.mul_lt_mul'' a.isLt b.isLt
        _ = 2 ^ 64 := by decide
    simp only [muldiv, mul_eq h, Option.bind_eq_bind, Option.bind_some, Option.pure_def]
    rfl
  | _ => rfl

/-! ## Spans -/

def crossesPage (va : U32) (size : Nat) : Option Bool := do
  let e ← add (va &&& 0xfff) (BitVec.ofNat 32 size)
  pure (0x1000 < e)

def misaligned (va : U32) (size : Nat) : Option Bool := do
  let mask ← sub (BitVec.ofNat 32 size) 1
  pure (va &&& mask ≠ 0)

/-- The second test is made when the first one fails. -/
def bytewise (va : U32) (size : Nat) : Option Bool := do
  if ← misaligned va size then pure true else crossesPage va size

/-- The shift of byte `i` of a word. -/
def byteShift (i : Nat) : Option U32 := mul 8 (BitVec.ofNat 32 i)

def extendLoadTaint (mask : U32) (size : Nat) (signed : Bool) : Option U32 :=
  if 4 ≤ size || !signed then pure mask
  else do
    let top ← sub (BitVec.ofNat 32 size) 1
    let n ← mul 8 top
    let topBit ← shl 1#32 n
    if mask &&& topBit = 0 then pure mask
    else (List.range' size (4 - size)).foldlM (fun m pos => do
      let n ← byteShift pos
      let bit ← shl 1#32 n
      pure (m ||| bit)) mask

/-- The shift of one of four bytes is less than 32. -/
theorem byteShift_eq {i : Nat} (h : i < 4) : ∃ n, byteShift i = some n ∧ n.toNat = 8 * i := by
  have hi : (BitVec.ofNat 32 i).toNat = i := by
    rw [BitVec.toNat_ofNat, Nat.mod_eq_of_lt (by omega)]
  have h8 : (8 : U32).toNat = 8 := rfl
  refine ⟨8 * BitVec.ofNat 32 i, mul_eq (by rw [h8, hi]; omega), ?_⟩
  rw [BitVec.toNat_mul, h8, hi, Nat.mod_eq_of_lt (by omega)]

/-- The test for a span over two pages never overflows. -/
theorem bytewise_eq (va : U32) {size : Nat} (h0 : 0 < size) (h : size ≤ 4) :
    bytewise va size = some (FuzzSoft.bytewise va size) := by
  have hs : (BitVec.ofNat 32 size).toNat = size := by
    rw [BitVec.toNat_ofNat, Nat.mod_eq_of_lt (by omega)]
  have hm : misaligned va size = some (FuzzSoft.misaligned va size) := by
    have : sub (BitVec.ofNat 32 size) 1 = some (BitVec.ofNat 32 size - 1) := sub_eq (by
      rw [hs]
      exact h0)
    simp only [misaligned, this, Option.bind_eq_bind, Option.bind_some, Option.pure_def]
    rfl
  have hc : crossesPage va size = some (FuzzSoft.crossesPage va size) := by
    have hle : (va &&& 0xfff).toNat ≤ 0xfff := by
      rw [BitVec.toNat_and]
      exact Nat.and_le_right
    have : add (va &&& 0xfff) (BitVec.ofNat 32 size) = some _ := add_eq (by omega)
    simp only [crossesPage, this, Option.bind_eq_bind, Option.bind_some, Option.pure_def,
      FuzzSoft.crossesPage]
    congr 1
    rw [decide_eq_decide, BitVec.lt_def, BitVec.toNat_add, hs, Nat.mod_eq_of_lt (by omega)]
    rfl
  simp only [bytewise, hm, hc, FuzzSoft.bytewise, Option.bind_eq_bind, Option.bind_some,
    Option.pure_def]
  cases FuzzSoft.misaligned va size <;> rfl

/-- The extension of a load's taint never overflows. -/
theorem extendLoadTaint_eq (mask : U32) {size : Nat} (hsize : AccessSize size) (signed : Bool) :
    extendLoadTaint mask size signed = some (FuzzSoft.extendLoadTaint mask size signed) := by
  cases signed with
  | false => simp only [extendLoadTaint, FuzzSoft.extendLoadTaint, Bool.not_false, Bool.or_true,
      if_pos, Option.pure_def]
  | true =>
    rcases hsize with rfl | rfl | rfl
    · exact (apply_ite some (mask &&& 1#32 <<< 0 = 0) mask _).symm
    · exact (apply_ite some (mask &&& 1#32 <<< 8 = 0) mask _).symm
    · rfl

/-! ## Translation -/

/-- A guest computation of a checked build; `none` is a panic. -/
abbrev Exec (β α : Type) := Comp (Option Trap) (Sys β) α

/-- The entry of table `a` for an index: a product that is checked and a sum that wraps. -/
def pteAddr (a vpn : U32) : Option U32 := do
  let off ← mul vpn 4
  pure (a + off)

/-- The index of the lower level is scaled when the walk gets there. -/
def walkWith (rd : U32 → Option U32) (satp va : U32) : Option (Option Leaf) := do
  let a1 ← pteAddr (rootTable satp) ((va >>> 22) &&& 0x3ff)
  match rd a1 with
  | none => pure none
  | some pte1 =>
    if pteInvalid pte1 then pure none
    else if pteLeaf pte1 then pure (some ⟨a1, pte1, true⟩)
    else do
      let a0 ← pteAddr (pteTable pte1) ((va >>> 12) &&& 0x3ff)
      match rd a0 with
      | none => pure none
      | some pte0 =>
        if pteInvalid pte0 then pure none
        else if pteLeaf pte0 then pure (some ⟨a0, pte0, false⟩)
        else pure none

section
variable {β : Type} [Bus β]

/-- The walk with its products checked, and what `xlate` makes of the leaf. -/
def walkFill (va : U32) (access : Access) : Exec β U32 := fun s =>
  match walkWith (loadPte s.bus) s.hart.csr.satp va with
  | none => (.error none, s)
  | some _ => plain (FuzzSoft.walkFill va access) s

def xlate (va : U32) (access : Access) : Exec β U32 := fun s =>
  if s.hart.untranslated access then (.ok va, s)
  else
    match s.cpu.tlb.get (va >>> 12) with
    | some e =>
      if !s.hart.leafOk access e.bits then (.error (some (pageFault access va)), s)
      else if !(access = .write && !e.dSet) then (.ok (entryPa e va), s)
      else walkFill va access s
    | none => walkFill va access s

end

/-- A table index times 4 fits a word. -/
theorem pteAddr_eq (a v : U32) (n : Nat) :
    pteAddr a ((v >>> n) &&& 0x3ff) = some (a + ((v >>> n) &&& 0x3ff) * 4) := by
  have hle : ((v >>> n) &&& 0x3ff).toNat ≤ 0x3ff := by
    rw [BitVec.toNat_and]
    exact Nat.and_le_right
  have hm : mul ((v >>> n) &&& 0x3ff) 4 = some _ := mul_eq (by
    rw [show (4 : U32).toNat = 4 from rfl]
    omega)
  simp only [pteAddr, hm, Option.bind_eq_bind, Option.bind_some, Option.pure_def]

/-- A page walk never overflows. -/
theorem walkWith_eq (rd : U32 → Option U32) (satp va : U32) :
    walkWith rd satp va = some (FuzzSoft.walkWith rd satp va) := by
  simp only [walkWith, FuzzSoft.walkWith, pteAddr_eq, Option.bind_eq_bind, Option.bind_some,
    Option.pure_def]
  change (match rd (pteAddr1 (rootTable satp) va) with | none => _ | some pte1 => _) = _
  cases rd (pteAddr1 (rootTable satp) va) with
  | none => rfl
  | some pte1 =>
    dsimp only [Option.bind_some]
    split
    · rfl
    split
    · rfl
    change (match rd (pteAddr0 (pteTable pte1) va) with | none => _ | some pte0 => _) = _
    cases rd (pteAddr0 (pteTable pte1) va) with
    | none => rfl
    | some pte0 =>
      dsimp only [Option.bind_some]
      split
      · rfl
      split <;> rfl

section
variable {β : Type} [Bus β]

/-- Filling the TLB never overflows. -/
theorem walkFill_eq (va : U32) (access : Access) :
    (walkFill va access : Exec β U32) = plain (FuzzSoft.walkFill va access) := by
  funext s
  rw [walkFill, walkWith_eq]

/-- A translation never overflows. -/
theorem xlate_eq (va : U32) (access : Access) :
    (xlate va access : Exec β U32) = plain (FuzzSoft.xlate va access) := by
  funext s
  simp only [xlate, plain, FuzzSoft.xlate, walkFill_eq]
  split
  · rfl
  cases s.cpu.tlb.get (va >>> 12) with
  | none => rfl
  | some e =>
    dsimp only
    split
    · rfl
    · split <;> rfl

/-! ## Guest memory accesses -/

def fetch16 (va : U32) : Exec β U16 := do
  let pa ← xlate va .exec
  plain (busIfetch16 pa)

/-- Each value is shifted to its place as soon as it is read. -/
def gather (one : U32 → Exec β U32) (va : U32) : (i n : Nat) → Exec β U32
  | _, 0 => pure 0
  | i, n + 1 => do
    let b ← one (va + BitVec.ofNat 32 i)
    let k ← arith (byteShift i)
    let b ← arith (shl b k)
    let rest ← gather one va (i + 1) n
    pure (b ||| rest)

def loadByte (va : U32) : Exec β U32 := do
  let pa ← xlate va .read
  let b ← plain (busLoad pa 1)
  pure (b &&& 0xff)

def loadSpan (va : U32) (size : Nat) : Exec β U32 := do
  if ← arith (bytewise va size) then gather loadByte va 0 size
  else
    let pa ← xlate va .read
    plain (busLoad pa size)

def loadImpl (va : U32) (size : Nat) (signed : Bool) : Exec β U32 := do
  let v ← loadSpan va size
  pure (extendLoad v size signed)

/-- Byte `i` of a word. -/
def byteAt (w : U32) (i : Nat) (mask : U32) : Option U32 := do
  let k ← byteShift i
  let b ← shr w k
  pure (b &&& mask)

def storeByte (val : U32) (va : U32) (i : Nat) : Exec β Unit := do
  let pa ← xlate va .write
  let b ← arith (byteAt val i 0xff)
  plain (busStore pa 1 b)

def scatter (one : U32 → Nat → Exec β Unit) (va : U32) : (i n : Nat) → Exec β Unit
  | _, 0 => pure ()
  | i, n + 1 => do
    one (va + BitVec.ofNat 32 i) i
    scatter one va (i + 1) n

def storeImpl (va : U32) (size : Nat) (val : U32) : Exec β Unit := do
  if ← arith (bytewise va size) then scatter (storeByte val) va 0 size
  else
    let pa ← xlate va .write
    plain (busStore pa size val)

def loadTaintByte (va : U32) : Exec β U32 := do
  let pa ← xlate va .read
  plain (busRawState pa 1)

def loadTaint (va : U32) (size : Nat) : Exec β U32 := do
  if ← arith (bytewise va size) then gather loadTaintByte va 0 size
  else
    let pa ← xlate va .read
    plain (busRawState pa size)

def storeTaintByte (mask : U32) (va : U32) (i : Nat) : Exec β Unit := do
  let pa ← xlate va .write
  let b ← arith (byteAt mask i 1)
  plain (busWriteShadow pa 1 b)

def storeTaint (va : U32) (size : Nat) (mask : U32) : Exec β Unit := do
  if ← arith (bytewise va size) then scatter (storeTaintByte mask) va 0 size
  else
    let pa ← xlate va .write
    plain (busWriteShadow pa size mask)

/-- The mask of a load is extended as it is read. -/
def loadWithTaint (va : U32) (size : Nat) (signed : Bool) : Exec β (U32 × Option U32) := do
  let v ← loadImpl va size signed
  let h ← plain getHart
  if h.kmsanEnabled then do
    let mask ← loadTaint va size
    pure (v, some mask)
  else pure (v, none)

def storeIf (success : Bool) (va val : U32) : Exec β Unit :=
  if success then storeImpl va 4 val else pure ()

def storeWithTaint (va : U32) (size : Nat) (val : U32) (mask : Option U32) : Exec β Unit := do
  storeImpl va size val
  match mask with
  | some t => storeTaint va size t
  | none => pure ()

def amoAccess (op : AmoOp) (rd : Reg) (va src : U32) : Exec β U32 := do
  let pa ← xlate va .write
  plain do
    let old ← busLoad pa 4
    let raw ← busRawState pa 4
    modifyHart fun h => if h.kmsanEnabled then h.wrTaint rd raw else h
    busStore pa 4 (amoResult op old src)
    pure old

/-- Fetching a halfword never overflows. -/
theorem fetch16_eq (va : U32) : (fetch16 va : Exec β U16) = plain (FuzzSoft.fetch16 va) := by
  simp only [fetch16, FuzzSoft.fetch16, xlate_eq, plain_bind]

omit [Bus β] in
/-- A gather of up to four bytes never overflows. -/
theorem gather_eq {one : U32 → FuzzSoft.Exec β U32} (va : U32) {i n : Nat} (h : i + n ≤ 4) :
    gather (fun a => plain (one a)) va i n = plain (FuzzSoft.gather one va i n) := by
  induction n generalizing i with
  | zero => rfl
  | succ n ih =>
    obtain ⟨k, hk, hn⟩ := byteShift_eq (show i < 4 by omega)
    have hlt : k.toNat < 32 := by omega
    simp only [gather, FuzzSoft.gather, plain_bind, hk, shl_eq hlt, hn, arith_some, pure_then,
      ih (show i + 1 + n ≤ 4 by omega), plain_pure]

omit [Bus β] in
/-- A scatter of up to four bytes overflows only where one of its bytes does. -/
theorem scatter_eq {one : U32 → Nat → Exec β Unit} {one' : U32 → Nat → FuzzSoft.Exec β Unit}
    (hone : ∀ a i, i < 4 → one a i = plain (one' a i)) (va : U32) {i n : Nat} (h : i + n ≤ 4) :
    scatter one va i n = plain (FuzzSoft.scatter one' va i n) := by
  induction n generalizing i with
  | zero => rfl
  | succ n ih =>
    simp only [scatter, FuzzSoft.scatter, plain_bind, hone _ i (by omega),
      ih (show i + 1 + n ≤ 4 by omega)]

/-- Taking one of four bytes never overflows. -/
theorem byteAt_eq (w mask : U32) {i : Nat} (h : i < 4) :
    byteAt w i mask = some ((w >>> (8 * i)) &&& mask) := by
  obtain ⟨k, hk, hn⟩ := byteShift_eq h
  have hlt : k.toNat < 32 := by omega
  simp only [byteAt, hk, shr_eq hlt, hn, Option.bind_eq_bind, Option.bind_some, Option.pure_def]

/-- The load of a byte never overflows. -/
theorem loadByte_eq (va : U32) : (loadByte va : Exec β U32) = plain (FuzzSoft.loadByte va) := by
  simp only [loadByte, FuzzSoft.loadByte, xlate_eq, plain_bind, plain_pure]

/-- The store of a byte never overflows. -/
theorem storeByte_eq (val va : U32) {i : Nat} (h : i < 4) :
    (storeByte val va i : Exec β Unit) = plain (FuzzSoft.storeByte val va i) := by
  simp only [storeByte, FuzzSoft.storeByte, xlate_eq, plain_bind, byteAt_eq _ _ h, arith_some,
    pure_then]

/-- Reading the taint of a byte never overflows. -/
theorem loadTaintByte_eq (va : U32) :
    (loadTaintByte va : Exec β U32) = plain (FuzzSoft.loadTaintByte va) := by
  simp only [loadTaintByte, FuzzSoft.loadTaintByte, xlate_eq, plain_bind]

/-- Writing the taint of a byte never overflows. -/
theorem storeTaintByte_eq (mask va : U32) {i : Nat} (h : i < 4) :
    (storeTaintByte mask va i : Exec β Unit) = plain (FuzzSoft.storeTaintByte mask va i) := by
  simp only [storeTaintByte, FuzzSoft.storeTaintByte, xlate_eq, plain_bind, byteAt_eq _ _ h,
    arith_some, pure_then]

variable {size : Nat}

/-- A load of up to four bytes never overflows. -/
theorem loadImpl_eq (va : U32) (h0 : 0 < size) (h : size ≤ 4) (signed : Bool) :
    (loadImpl va size signed : Exec β U32) = plain (FuzzSoft.loadImpl va size signed) := by
  have hs : (loadSpan va size : Exec β U32) = plain (FuzzSoft.loadSpan va size) := by
    simp only [loadSpan, FuzzSoft.loadSpan, bytewise_eq va h0 h, arith_some, pure_then, xlate_eq,
      plain_ite, plain_bind, ← gather_eq va (show 0 + size ≤ 4 by omega), ← loadByte_eq]
  simp only [loadImpl, FuzzSoft.loadImpl, hs, plain_bind, plain_pure]

/-- A store of up to four bytes never overflows. -/
theorem storeImpl_eq (va val : U32) (h0 : 0 < size) (h : size ≤ 4) :
    (storeImpl va size val : Exec β Unit) = plain (FuzzSoft.storeImpl va size val) := by
  simp only [storeImpl, FuzzSoft.storeImpl, bytewise_eq va h0 h, arith_some, pure_then, xlate_eq,
    plain_ite, plain_bind,
    scatter_eq (fun a _ hi => storeByte_eq val a hi) va (show 0 + size ≤ 4 by omega)]

/-- Gathering the taint of a load never overflows. -/
theorem loadTaint_eq (va : U32) (h0 : 0 < size) (h : size ≤ 4) :
    (loadTaint va size : Exec β U32) = plain (FuzzSoft.loadTaint va size) := by
  simp only [loadTaint, FuzzSoft.loadTaint, bytewise_eq va h0 h, arith_some, pure_then, xlate_eq,
    plain_ite, plain_bind, ← gather_eq va (show 0 + size ≤ 4 by omega), ← loadTaintByte_eq]

/-- Scattering the taint of a store never overflows. -/
theorem storeTaint_eq (va mask : U32) (h0 : 0 < size) (h : size ≤ 4) :
    (storeTaint va size mask : Exec β Unit) = plain (FuzzSoft.storeTaint va size mask) := by
  simp only [storeTaint, FuzzSoft.storeTaint, bytewise_eq va h0 h, arith_some, pure_then, xlate_eq,
    plain_ite, plain_bind,
    scatter_eq (fun a _ hi => storeTaintByte_eq mask a hi) va (show 0 + size ≤ 4 by omega)]

/-- A load with its taint never overflows. -/
theorem loadWithTaint_eq (va : U32) (h0 : 0 < size) (h : size ≤ 4) (signed : Bool) :
    (loadWithTaint va size signed : Exec β _) = plain (FuzzSoft.loadWithTaint va size signed) := by
  simp only [loadWithTaint, FuzzSoft.loadWithTaint, loadImpl_eq va h0 h, loadTaint_eq va h0 h,
    plain_bind, plain_ite, plain_pure]

/-- The store of a store-conditional never overflows. -/
theorem storeIf_eq (success : Bool) (va val : U32) :
    (storeIf success va val : Exec β Unit) = plain (FuzzSoft.storeIf success va val) := by
  simp only [storeIf, FuzzSoft.storeIf, storeImpl_eq va val (show 0 < 4 by decide) le_rfl, plain_ite,
    plain_pure]

/-- A store with its taint never overflows. -/
theorem storeWithTaint_eq (va val : U32) (h0 : 0 < size) (h : size ≤ 4) (mask : Option U32) :
    (storeWithTaint va size val mask : Exec β _) =
      plain (FuzzSoft.storeWithTaint va size val mask) := by
  simp only [storeWithTaint, FuzzSoft.storeWithTaint, storeImpl_eq va val h0 h, plain_bind]
  cases mask with
  | none => rfl
  | some t => simp only [storeTaint_eq va t h0 h]

/-- The access of an AMO never overflows. -/
theorem amoAccess_eq (op : AmoOp) (rd : Reg) (va src : U32) :
    (amoAccess op rd va src : Exec β U32) = plain (FuzzSoft.amoAccess op rd va src) := by
  simp only [amoAccess, FuzzSoft.amoAccess, xlate_eq, plain_bind, plain_pure]

end

/-! ## CSR accesses -/

/-- The PMP registers are reached through a difference of addresses. -/
def csrRead (c : Csr) (addr : U16) (p : Priv) : Option (Option U32) :=
  if Csr.denied addr p then pure none
  else
    match Csr.readers.lookup addr with
    | some f => pure (some (f c))
    | none =>
      if 0x3a0 ≤ addr ∧ addr ≤ 0x3a3 then do
        let i ← sub addr 0x3a0
        pure (some (c.pmpcfg i.toNat))
      else if 0x3b0 ≤ addr ∧ addr ≤ 0x3bf then do
        let i ← sub addr 0x3b0
        pure (some (c.pmpaddr i.toNat))
      else pure none

def csrWrite (c : Csr) (addr : U16) (val : U32) (p : Priv) : Option (Option Csr) :=
  if Csr.denied addr p then pure none
  else if (addr >>> 10) &&& 0x3 = 0x3 then pure none
  else
    match Csr.writers.lookup addr with
    | some f => pure (some (f c val))
    | none =>
      if 0x3a0 ≤ addr ∧ addr ≤ 0x3a3 then do
        let i ← sub addr 0x3a0
        pure (some { c with pmpcfg := setAt c.pmpcfg i.toNat val })
      else if 0x3b0 ≤ addr ∧ addr ≤ 0x3bf then do
        let i ← sub addr 0x3b0
        pure (some { c with pmpaddr := setAt c.pmpaddr i.toNat val })
      else pure none

/-- The counters are read off the hart. -/
def readCsr (h : Hart) (csr : U16) : Option (Option U32) :=
  if csr = CYCLE ∨ csr = INSTRET ∨ csr = CYCLEH ∨ csr = INSTRETH ∨ csr = TIME ∨ csr = TIMEH then
    pure (h.readCsr csr)
  else csrRead h.csr csr h.privilege

/-- An index above the base of its range is found by a subtraction that does not wrap. -/
theorem sub_toNat {a b : U16} (h : b ≤ a) : ∃ i, sub a b = some i ∧ i.toNat = a.toNat - b.toNat :=
  ⟨a - b, sub_eq h, BitVec.toNat_sub_of_le h⟩

/-- Reading a CSR never overflows. -/
theorem csrRead_eq (c : Csr) (addr : U16) (p : Priv) :
    csrRead c addr p = some (c.read addr p) := by
  unfold csrRead Csr.read
  split
  · rfl
  cases Csr.readers.lookup addr with
  | some f => rfl
  | none =>
    dsimp only
    split
    next h =>
      obtain ⟨i, hi, hn⟩ := sub_toNat h.1
      simp only [hi, hn, Option.bind_eq_bind, Option.bind_some, Option.pure_def]
      rfl
    split
    next h =>
      obtain ⟨i, hi, hn⟩ := sub_toNat h.1
      simp only [hi, hn, Option.bind_eq_bind, Option.bind_some, Option.pure_def]
      rfl
    · rfl

/-- Writing a CSR never overflows. -/
theorem csrWrite_eq (c : Csr) (addr : U16) (val : U32) (p : Priv) :
    csrWrite c addr val p = some (c.write addr val p) := by
  unfold csrWrite Csr.write
  split
  · rfl
  split
  · rfl
  cases Csr.writers.lookup addr with
  | some f => rfl
  | none =>
    dsimp only
    split
    next h =>
      obtain ⟨i, hi, hn⟩ := sub_toNat h.1
      simp only [hi, hn, Option.bind_eq_bind, Option.bind_some, Option.pure_def]
      rfl
    split
    next h =>
      obtain ⟨i, hi, hn⟩ := sub_toNat h.1
      simp only [hi, hn, Option.bind_eq_bind, Option.bind_some, Option.pure_def]
      rfl
    · rfl

/-- Reading a CSR of the hart never overflows. -/
theorem readCsr_eq (h : Hart) (csr : U16) : readCsr h csr = some (h.readCsr csr) := by
  unfold readCsr
  split
  · rfl
  next hne =>
    simp only [not_or] at hne
    obtain ⟨h1, h2, h3, h4, h5, h6⟩ := hne
    rw [csrRead_eq, Hart.readCsr, if_neg (not_or.2 ⟨h1, h2⟩), if_neg (not_or.2 ⟨h3, h4⟩), if_neg h5,
      if_neg h6]

section
variable {β : Type}

def writeCsr (op : CsrOp) (src : Reg) (csr : U16) (old : U32) (trap : Trap) : Exec β Unit := do
  let h ← plain getHart
  if csrDoesWrite op src then
    match ← arith (csrWrite h.csr csr (csrNew op old (h.csrSrc op src)) h.privilege) with
    | none => Comp.throw (some trap)
    | some c => plain (setCsr c (csr = SATP))
  else pure ()

def execCsr (op : CsrOp) (rd src : Reg) (csr : U16) (pc iword : U32) : Exec β Unit := do
  let h ← plain getHart
  match ← arith (readCsr h csr) with
  | none => Comp.throw (some (.illegal pc iword))
  | some old => do
    writeCsr op src csr old (.illegal pc iword)
    plain (modifyHart (·.wrClean rd old))

/-- The write of a CSR instruction never overflows. -/
theorem writeCsr_eq (op : CsrOp) (src : Reg) (csr : U16) (old : U32) (trap : Trap) :
    (writeCsr op src csr old trap : Exec β Unit) =
      plain (FuzzSoft.writeCsr op src csr old trap) := by
  simp only [writeCsr, FuzzSoft.writeCsr, plain_bind, plain_ite, csrWrite_eq, arith_some, pure_then,
    plain_pure]
  congr 1
  funext h
  congr 1
  cases h.csr.write csr (csrNew op old (h.csrSrc op src)) h.privilege <;> rfl

/-- A CSR instruction never overflows. -/
theorem execCsr_eq (op : CsrOp) (rd src : Reg) (csr : U16) (pc iword : U32) :
    (execCsr op rd src csr pc iword : Exec β Unit) =
      plain (FuzzSoft.execCsr op rd src csr pc iword) := by
  simp only [execCsr, FuzzSoft.execCsr, plain_bind, readCsr_eq, arith_some, pure_then]
  congr 1
  funext h
  cases h.readCsr csr with
  | none => rfl
  | some old => simp only [writeCsr_eq, plain_bind]

end

/-! ## The execute stage -/

section
variable {β : Type} [Bus β]

def execStore (op : StoreOp) (rs1 rs2 : Reg) (imm : U32) : Exec β Exit := do
  let h ← plain getHart
  let addr := h.rdReg rs1 + imm
  let val := h.rdReg rs2
  let mask := if h.kmsanEnabled then some (h.rdTaint rs2) else none
  storeWithTaint addr op.size val mask
  pure (if op = .sw ∧ h.htifTohost = some addr ∧ val &&& 1 ≠ 0 then .halt (val >>> 1)
    else .continue)

/-- The instructions that are not listed run no unchecked operation. -/
def execInst (inst : Inst) (pc next iword : U32) : Exec β (Exit × U32) := do
  let h ← plain getHart
  match inst with
  | .load op rd rs1 imm => do
    let r ← loadWithTaint (h.rdReg rs1 + imm) op.size op.signed
    let t ← arith (extendLoadTaint (r.2.getD 0) op.size op.signed)
    plain (modifyHart (·.wrTainted rd r.1 t))
    pure (.continue, next)
  | .store op rs1 rs2 imm => do
    let exit ← execStore op rs1 rs2 imm
    pure (exit, next)
  | .mul op rd rs1 rs2 => do
    let v ← arith (muldiv op (h.rdReg rs1) (h.rdReg rs2))
    plain (modifyHart fun h =>
      let h' := if op.isDiv ∧ h.rdReg rs2 = 0 then h.logUbsan pc else h
      h'.wrTainted rd v (muldivTaint (h.rdTaint rs1) (h.rdTaint rs2)))
    pure (.continue, next)
  | .lrW rd rs1 _ _ => do
    let addr := h.rdReg rs1
    let r ← loadWithTaint addr 4 false
    plain (modifyHart fun h =>
      { h.wrTainted rd r.1 (r.2.getD 0) with reservation := some addr })
    pure (.continue, next)
  | .scW rd rs1 rs2 _ _ => do
    let addr := h.rdReg rs1
    let success : Bool := h.reservation = some addr
    storeIf success addr (h.rdReg rs2)
    plain (modifyHart fun h =>
      { h.wrClean rd (if success then 0 else 1) with reservation := none })
    pure (.continue, next)
  | .amoW op rd rs1 rs2 _ _ => do
    let old ← amoAccess op rd (h.rdReg rs1) (h.rdReg rs2)
    plain (modifyHart fun h => { h with reservation := none }.wrReg rd old)
    pure (.continue, next)
  | .csr op rd src csr => do
    execCsr op rd src csr pc iword
    pure (.continue, next)
  | inst => plain (FuzzSoft.execInst inst pc next iword)

/-- The count of retired instructions is left out. -/
def execOne (inst : Inst) (pc ilen iword : U32) : Exec β Exit := do
  let r ← execInst inst pc (pc + ilen) iword
  plain (modifyHart (·.retire r.2))
  pure r.1

def fetchDecode (pc : U32) : Exec β Fetched := do
  let lo ← fetch16 pc
  if lo &&& 0x3 ≠ 0x3 then do
    let inst ← arith (decodeCompressed lo)
    pure ⟨inst, 2, lo.setWidth 32⟩
  else do
    let hi ← fetch16 (pc + 2)
    let w := lo.setWidth 32 ||| (hi.setWidth 32 <<< 16)
    let inst ← arith (decode w)
    pure ⟨inst, 4, w⟩

def step : Exec β Exit := do
  let h ← plain getHart
  let f ← fetchDecode h.pc
  execOne f.inst h.pc f.ilen f.iword

/-- A store instruction never overflows. -/
theorem execStore_eq (op : StoreOp) (rs1 rs2 : Reg) (imm : U32) :
    (execStore op rs1 rs2 imm : Exec β Exit) = plain (FuzzSoft.execStore op rs1 rs2 imm) := by
  have h0 : 0 < op.size := by cases op <;> decide
  have h4 : op.size ≤ 4 := by cases op <;> decide
  simp only [execStore, FuzzSoft.execStore, storeWithTaint_eq _ _ h0 h4, plain_bind, plain_pure]

/-- No instruction overflows. -/
theorem execInst_eq (inst : Inst) (pc next iword : U32) :
    (execInst inst pc next iword : Exec β _) = plain (FuzzSoft.execInst inst pc next iword) := by
  funext s
  cases inst with
  | load op rd rs1 imm =>
    have hs : AccessSize op.size := by cases op <;> simp [LoadOp.size, AccessSize]
    have h0 : 0 < op.size := by cases op <;> decide
    have h4 : op.size ≤ 4 := by cases op <;> decide
    simp only [execInst, FuzzSoft.execInst, loadWithTaint_eq _ h0 h4, extendLoadTaint_eq _ hs,
      arith_some, pure_then, plain_bind, plain_pure]
  | store op rs1 rs2 imm =>
    simp only [execInst, FuzzSoft.execInst, execStore_eq, plain_bind, plain_pure]
  | mul op rd rs1 rs2 =>
    simp only [execInst, FuzzSoft.execInst, muldiv_eq, arith_some, pure_then, plain_bind, plain_pure]
    rfl
  | lrW rd rs1 aq rl =>
    simp only [execInst, FuzzSoft.execInst, loadWithTaint_eq _ (show 0 < 4 by decide) le_rfl,
      plain_bind, plain_pure]
  | scW rd rs1 rs2 aq rl =>
    simp only [execInst, FuzzSoft.execInst, storeIf_eq, plain_bind, plain_pure]
  | amoW op rd rs1 rs2 aq rl =>
    simp only [execInst, FuzzSoft.execInst, amoAccess_eq, plain_bind, plain_pure]
  | csr op rd src csr =>
    simp only [execInst, FuzzSoft.execInst, execCsr_eq, plain_bind, plain_pure]
  | _ => rfl

/-- Nor does retiring it. -/
theorem execOne_eq (inst : Inst) (pc ilen iword : U32) :
    (execOne inst pc ilen iword : Exec β Exit) = plain (FuzzSoft.execOne inst pc ilen iword) := by
  simp only [execOne, FuzzSoft.execOne, execInst_eq, plain_bind, plain_pure]

/-- Fetching and decoding never overflows. -/
theorem fetchDecode_eq (pc : U32) :
    (fetchDecode pc : Exec β Fetched) = plain (FuzzSoft.fetchDecode pc) := by
  simp only [fetchDecode, FuzzSoft.fetchDecode, fetch16_eq, decodeCompressed_eq, decode_eq,
    arith_some, pure_then, plain_bind, plain_ite, plain_pure]

/-- A step never overflows; what is left are the timers and the trap vector. -/
theorem step_eq : (step : Exec β Exit) = plain FuzzSoft.step := by
  simp only [step, FuzzSoft.step, fetchDecode_eq, execOne_eq, plain_bind]

end

end Checked

end FuzzSoft
