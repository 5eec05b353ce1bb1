import FuzzSoft.Mmu.Bus

/-!
# Privileged state

Privilege modes, the CSR file and the trap causes of `fs-riscv/src/sys.rs`.
-/

namespace FuzzSoft

/-- Privilege mode. -/
inductive Priv where
  | u
  | s
  | m
  deriving DecidableEq, Repr

namespace Priv

/-- The architectural encoding. -/
def level : Priv → U32
  | .u => 0
  | .s => 1
  | .m => 3

/-- Decode two bits; the reserved value 2 is taken as M. -/
def fromBits (b : U32) : Priv :=
  if b &&& 0x3 = 0 then .u else if b &&& 0x3 = 1 then .s else .m

end Priv

/-! ## CSR addresses -/

abbrev MSTATUS : U16 := 0x300
abbrev MSTATUSH : U16 := 0x310
abbrev MEDELEGH : U16 := 0x312
abbrev MISA : U16 := 0x301
abbrev MEDELEG : U16 := 0x302
abbrev MIDELEG : U16 := 0x303
abbrev MIE : U16 := 0x304
abbrev MTVEC : U16 := 0x305
abbrev MSCRATCH : U16 := 0x340
abbrev MEPC : U16 := 0x341
abbrev MCAUSE : U16 := 0x342
abbrev MTVAL : U16 := 0x343
abbrev MIP : U16 := 0x344
abbrev MHARTID : U16 := 0xf14
abbrev SSTATUS : U16 := 0x100
abbrev SIE : U16 := 0x104
abbrev STVEC : U16 := 0x105
abbrev SSCRATCH : U16 := 0x140
abbrev SEPC : U16 := 0x141
abbrev SCAUSE : U16 := 0x142
abbrev STVAL : U16 := 0x143
abbrev SIP : U16 := 0x144
abbrev SATP : U16 := 0x180
abbrev STIMECMP : U16 := 0x14d
abbrev STIMECMPH : U16 := 0x15d
abbrev MVENDORID : U16 := 0xf11
abbrev MARCHID : U16 := 0xf12
abbrev MIMPID : U16 := 0xf13
abbrev MCONFIGPTR : U16 := 0xf15
abbrev MCOUNTEREN : U16 := 0x306
abbrev SCOUNTEREN : U16 := 0x106
abbrev MCOUNTINHIBIT : U16 := 0x320
abbrev MENVCFG : U16 := 0x30a
abbrev MENVCFGH : U16 := 0x31a
abbrev SENVCFG : U16 := 0x10a
abbrev CYCLE : U16 := 0xc00
abbrev TIME : U16 := 0xc01
abbrev INSTRET : U16 := 0xc02
abbrev CYCLEH : U16 := 0xc80
abbrev TIMEH : U16 := 0xc81
abbrev INSTRETH : U16 := 0xc82

/-! ## Fields of `mstatus` -/

def MSTATUS_SIE : U32 := 1#32 <<< 1
def MSTATUS_MIE : U32 := 1#32 <<< 3
def MSTATUS_SPIE : U32 := 1#32 <<< 5
def MSTATUS_MPIE : U32 := 1#32 <<< 7
def MSTATUS_SPP : U32 := 1#32 <<< 8
def MSTATUS_MPP : U32 := 3#32 <<< 11
def MSTATUS_MPRV : U32 := 1#32 <<< 17
def MSTATUS_SUM : U32 := 1#32 <<< 18
def MSTATUS_MXR : U32 := 1#32 <<< 19

def MSTATUS_WMASK : U32 :=
  MSTATUS_SIE ||| MSTATUS_MIE ||| MSTATUS_SPIE ||| MSTATUS_MPIE ||| MSTATUS_SPP ||| MSTATUS_MPP |||
    MSTATUS_MPRV ||| MSTATUS_SUM ||| MSTATUS_MXR

def SSTATUS_MASK : U32 :=
  MSTATUS_SIE ||| MSTATUS_SPIE ||| MSTATUS_SPP ||| MSTATUS_SUM ||| MSTATUS_MXR

/-- Supervisor-visible interrupt bits. -/
def S_INT_MASK : U32 := (1#32 <<< 1) ||| (1#32 <<< 5) ||| (1#32 <<< 9)

/-! ## Trap causes -/

def E_INSTR_MISALIGNED : U32 := 0
def E_INSTR_ACCESS : U32 := 1
def E_ILLEGAL : U32 := 2
def E_BREAKPOINT : U32 := 3
def E_LOAD_MISALIGNED : U32 := 4
def E_LOAD_ACCESS : U32 := 5
def E_STORE_MISALIGNED : U32 := 6
def E_STORE_ACCESS : U32 := 7
def E_ECALL_U : U32 := 8
def E_ECALL_S : U32 := 9
def E_ECALL_M : U32 := 11
def E_INSTR_PAGE_FAULT : U32 := 12
def E_LOAD_PAGE_FAULT : U32 := 13
def E_STORE_PAGE_FAULT : U32 := 15

/-! ## The CSR file -/

/-- The privileged CSR file. -/
structure Csr where
  mstatus : U32
  mtvec : U32
  mepc : U32
  mcause : U32
  mtval : U32
  mscratch : U32
  mie : U32
  mip : U32
  medeleg : U32
  mideleg : U32
  misa : U32
  mhartid : U32
  stvec : U32
  sepc : U32
  scause : U32
  stval : U32
  sscratch : U32
  satp : U32
  stimecmp : U64
  mtimecmp : U64
  pmpcfg : Nat → U32
  pmpaddr : Nat → U32
  mcounteren : U32
  scounteren : U32
  mcountinhibit : U32
  menvcfg : U32
  menvcfgh : U32
  senvcfg : U32

namespace Csr

/-- The reset values: both timer compares disabled, `misa` RV32 with I, M, A, C, S and U. -/
def default : Csr where
  mstatus := 0
  mtvec := 0
  mepc := 0
  mcause := 0
  mtval := 0
  mscratch := 0
  mie := 0
  mip := 0
  medeleg := 0
  mideleg := 0
  misa := (1#32 <<< 30) |||
    ((1#32 <<< 8) ||| (1#32 <<< 12) ||| (1#32 <<< 0) ||| (1#32 <<< 2) ||| (1#32 <<< 18) ||| (1#32 <<< 20))
  mhartid := 0
  stvec := 0
  sepc := 0
  scause := 0
  stval := 0
  sscratch := 0
  satp := 0
  stimecmp := BitVec.allOnes 64
  mtimecmp := BitVec.allOnes 64
  pmpcfg := fun _ => 0
  pmpaddr := fun _ => 0
  mcounteren := 0
  scounteren := 0
  mcountinhibit := 0
  menvcfg := 0
  menvcfgh := 0
  senvcfg := 0

/-- The address needs a higher privilege than `p`. -/
def denied (addr : U16) (p : Priv) : Bool := p.level < ((addr >>> 8) &&& 0x3).setWidth 32

/-- The CSRs that can be read, with the value each gives. -/
def readers : List (U16 × (Csr → U32)) :=
  [(MSTATUS, mstatus), (MISA, misa), (MEDELEG, medeleg), (MIDELEG, mideleg), (MIE, mie),
    (MTVEC, mtvec), (MSCRATCH, mscratch), (MEPC, mepc), (MCAUSE, mcause), (MTVAL, mtval),
    (MIP, mip), (MHARTID, mhartid),
    (SSTATUS, fun c => c.mstatus &&& SSTATUS_MASK), (SIE, fun c => c.mie &&& S_INT_MASK),
    (STVEC, stvec), (SSCRATCH, sscratch), (SEPC, sepc), (SCAUSE, scause), (STVAL, stval),
    (SIP, fun c => c.mip &&& S_INT_MASK), (SATP, satp),
    (STIMECMP, fun c => c.stimecmp.setWidth 32),
    (STIMECMPH, fun c => (c.stimecmp.ushiftRight 32).setWidth 32),
    (MVENDORID, fun _ => 0), (MARCHID, fun _ => 0), (MIMPID, fun _ => 0), (MCONFIGPTR, fun _ => 0),
    (MSTATUSH, fun _ => 0), (MEDELEGH, fun _ => 0),
    (MCOUNTEREN, mcounteren), (SCOUNTEREN, scounteren), (MCOUNTINHIBIT, mcountinhibit),
    (MENVCFG, menvcfg), (MENVCFGH, menvcfgh), (SENVCFG, senvcfg)]

/-- Read a CSR; `none` is an illegal instruction. -/
def read (c : Csr) (addr : U16) (p : Priv) : Option U32 :=
  if denied addr p then none
  else
    match readers.lookup addr with
    | some f => some (f c)
    | none =>
      if 0x3a0 ≤ addr ∧ addr ≤ 0x3a3 then some (c.pmpcfg (addr.toNat - 0x3a0))
      else if 0x3b0 ≤ addr ∧ addr ≤ 0x3bf then some (c.pmpaddr (addr.toNat - 0x3b0))
      else none

/-- The CSRs that can be written, with the legalised effect of each write. -/
def writers : List (U16 × (Csr → U32 → Csr)) :=
  [(MSTATUS, fun c v => { c with mstatus := v &&& MSTATUS_WMASK }),
    (MISA, fun c _ => c),
    (MEDELEG, fun c v => { c with medeleg := v }),
    (MIDELEG, fun c v => { c with mideleg := v }),
    (MIE, fun c v => { c with mie := v }),
    (MTVEC, fun c v => { c with mtvec := v &&& ~~~0x2 }),
    (MSCRATCH, fun c v => { c with mscratch := v }),
    (MEPC, fun c v => { c with mepc := v &&& ~~~0x1 }),
    (MCAUSE, fun c v => { c with mcause := v }),
    (MTVAL, fun c v => { c with mtval := v }),
    (MIP, fun c v => { c with mip := (c.mip &&& ~~~S_INT_MASK) ||| (v &&& S_INT_MASK) }),
    (SSTATUS, fun c v =>
      { c with mstatus := (c.mstatus &&& ~~~SSTATUS_MASK) ||| (v &&& SSTATUS_MASK) }),
    (SIE, fun c v => { c with mie := (c.mie &&& ~~~S_INT_MASK) ||| (v &&& S_INT_MASK) }),
    (STVEC, fun c v => { c with stvec := v &&& ~~~0x2 }),
    (SSCRATCH, fun c v => { c with sscratch := v }),
    (SEPC, fun c v => { c with sepc := v &&& ~~~0x1 }),
    (SCAUSE, fun c v => { c with scause := v }),
    (STVAL, fun c v => { c with stval := v }),
    (SIP, fun c v => { c with mip := (c.mip &&& ~~~S_INT_MASK) ||| (v &&& S_INT_MASK) }),
    (SATP, fun c v => { c with satp := v }),
    (STIMECMP, fun c v =>
      { c with stimecmp := (c.stimecmp &&& 0xffffffff00000000) ||| v.setWidth 64 }),
    (STIMECMPH, fun c v =>
      { c with stimecmp := (c.stimecmp &&& 0xffffffff) ||| (v.setWidth 64 <<< 32) }),
    (MSTATUSH, fun c _ => c),
    (MEDELEGH, fun c _ => c),
    (MCOUNTEREN, fun c v => { c with mcounteren := v }),
    (SCOUNTEREN, fun c v => { c with scounteren := v }),
    (MCOUNTINHIBIT, fun c v => { c with mcountinhibit := v }),
    (MENVCFG, fun c v => { c with menvcfg := v }),
    (MENVCFGH, fun c v => { c with menvcfgh := v }),
    (SENVCFG, fun c v => { c with senvcfg := v })]

/-- Write a CSR; `none` is an illegal instruction (privilege, read-only or unknown address). -/
def write (c : Csr) (addr : U16) (val : U32) (p : Priv) : Option Csr :=
  if denied addr p then none
  else if (addr >>> 10) &&& 0x3 = 0x3 then none
  else
    match writers.lookup addr with
    | some f => some (f c val)
    | none =>
      if 0x3a0 ≤ addr ∧ addr ≤ 0x3a3 then
        some { c with pmpcfg := Lib.setAt c.pmpcfg (addr.toNat - 0x3a0) val }
      else if 0x3b0 ≤ addr ∧ addr ≤ 0x3bf then
        some { c with pmpaddr := Lib.setAt c.pmpaddr (addr.toNat - 0x3b0) val }
      else none

/-- A CSR write is an entry of the table or a PMP update. -/
theorem write_cases {c c' : Csr} {addr : U16} {val : U32} {p : Priv}
    (h : c.write addr val p = some c') :
    (∃ f, (addr, f) ∈ writers ∧ c' = f c val) ∨
      (∃ i, c' = { c with pmpcfg := Lib.setAt c.pmpcfg i val }) ∨
      ∃ i, c' = { c with pmpaddr := Lib.setAt c.pmpaddr i val } := by
  unfold write at h
  split at h
  · cases h
  split at h
  · cases h
  split at h
  next f hf =>
    cases h
    obtain ⟨l₁, l₂, hl, -⟩ := List.lookup_eq_some_iff.1 hf
    exact .inl ⟨f, by rw [hl]; simp, rfl⟩
  next =>
    split at h
    · cases h
      exact .inr (.inl ⟨_, rfl⟩)
    · split at h
      · cases h
        exact .inr (.inr ⟨_, rfl⟩)
      · cases h

/-- Only a write to `satp` itself changes it. -/
theorem write_satp {c c' : Csr} {addr : U16} {val : U32} {p : Priv}
    (h : c.write addr val p = some c') (hne : addr ≠ SATP) : c'.satp = c.satp := by
  rcases write_cases h with ⟨f, hf, rfl⟩ | ⟨i, rfl⟩ | ⟨i, rfl⟩
  · have key : ∀ e ∈ writers, e.1 ≠ SATP → (e.2 c val).satp = c.satp := by
      simp [writers]
    exact key _ hf hne
  · rfl
  · rfl

end Csr

end FuzzSoft
