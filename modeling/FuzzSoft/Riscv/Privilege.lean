import FuzzSoft.Riscv.Ordinary

/-!
# Privilege isolation

What a step can do to the privilege mode and to the CSR file. Instructions other than the CSR
instructions and the two returns leave both alone (`Blind.execInst_keeps`); what those three can do
is `ModeStep`. A step ends in an instruction, in a trap, or in both, and `stepTrap` says in which
trap. The invariant `Isolated` holds of every state a core reaches from its reset.
-/

namespace FuzzSoft

open Lib

/-! ## Half-word addresses -/

/-- A half-word address: an even one. -/
def Halfword (v : U32) : Prop := v.toNat % 2 = 0

instance : DecidablePred Halfword := fun v => inferInstanceAs (Decidable (v.toNat % 2 = 0))

namespace Halfword

/-- Only bit 0 decides. -/
theorem iff_bit {v : U32} : Halfword v ↔ v.getLsbD 0 = false := by
  rw [Halfword, BitVec.getLsbD, Nat.testBit_zero]
  simp

/-- The sum of two even addresses is even. -/
theorem add {a b : U32} (ha : Halfword a) (hb : Halfword b) : Halfword (a + b) := by
  unfold Halfword at *
  rw [BitVec.toNat_add]
  omega

/-- A mask that is even leaves an even address. -/
theorem and_right (a : U32) {b : U32} (hb : Halfword b) : Halfword (a &&& b) := by
  rw [iff_bit] at *
  rw [BitVec.getLsbD_and, hb, Bool.and_false]

/-- Even fields combine to an even immediate. -/
theorem or {a b : U32} (ha : Halfword a) (hb : Halfword b) : Halfword (a ||| b) := by
  rw [iff_bit] at *
  rw [BitVec.getLsbD_or, ha, hb, Bool.or_false]

/-- A field that is shifted into place leaves bit 0 clear. -/
theorem shiftLeft (a : U32) {n : Nat} (hn : 0 < n) : Halfword (a <<< n) := by
  rw [iff_bit]
  simp [hn]

/-- Sign extension keeps bit 0. -/
theorem sext {v : U32} (h : Halfword v) {bits : Nat} (hb : 0 < bits) :
    Halfword (FuzzSoft.sext v bits) := by
  rw [iff_bit] at *
  have hk : 32 - bits + 0 < 32 := by omega
  rw [FuzzSoft.sext, BitVec.getLsbD_sshiftRight, if_pos hk, BitVec.getLsbD_shiftLeft,
    Nat.add_sub_cancel_left, h, Bool.and_false]
  rfl

theorem two : Halfword 2 := by decide

theorem four : Halfword 4 := by decide

/-- Four times anything is a half-word address. -/
theorem four_mul (v : U32) : Halfword (4 * v) := by
  unfold Halfword
  rw [BitVec.toNat_mul, show (4 : U32).toNat = 4 from rfl]
  omega

end Halfword

/-! ## Jump targets -/

/-- The offset of a jump or a branch is even. -/
def Inst.EvenTarget : Inst → Prop
  | .jal _ imm => Halfword imm
  | .branch _ _ _ imm => Halfword imm
  | _ => True

/-- An operation with an immediate does not jump. -/
theorem decodeOpImm_evenTarget (raw : U32) : (decodeOpImm raw).EvenTarget := by
  unfold decodeOpImm
  dsimp only
  repeat' split
  all_goals exact True.intro

/-- An atomic does not jump. -/
theorem decodeAmo_evenTarget (raw : U32) : (decodeAmo raw).EvenTarget := by
  unfold decodeAmo
  dsimp only
  repeat' split
  all_goals exact True.intro

/-- A system instruction has no offset to jump by. -/
theorem decodeSystem_evenTarget (raw : U32) : (decodeSystem raw).EvenTarget := by
  unfold decodeSystem
  dsimp only
  repeat' split
  all_goals exact True.intro

/-- An instruction chosen by a field has an even target when all the choices do. -/
theorem evenTarget_getD {α : Type} (o : Option α) {f : α → Inst} (hf : ∀ a, (f a).EvenTarget)
    (raw : U32) : ((o.map f).getD (.illegal raw)).EvenTarget := by
  cases o with
  | none => trivial
  | some a => exact hf a

/-- Every jump and branch of a 32-bit word has an even offset. -/
theorem decode_evenTarget (raw : U32) : (decode raw).EvenTarget := by
  unfold decode
  dsimp only
  split
  · exact True.intro
  · exact True.intro
  · refine Halfword.sext (.or (.or (.or ?_ ?_) ?_) ?_) (by decide)
    all_goals exact Halfword.shiftLeft _ (by decide)
  · split <;> exact True.intro
  · refine evenTarget_getD _ (fun _ => ?_) raw
    refine Halfword.sext (.or (.or (.or ?_ ?_) ?_) ?_) (by decide)
    all_goals exact Halfword.shiftLeft _ (by decide)
  · exact evenTarget_getD _ (fun _ => by exact True.intro) raw
  · exact evenTarget_getD _ (fun _ => by exact True.intro) raw
  · exact decodeOpImm_evenTarget raw
  · split
    · exact evenTarget_getD _ (fun _ => by exact True.intro) raw
    · exact evenTarget_getD _ (fun _ => by exact True.intro) raw
  · split
    · exact decodeAmo_evenTarget raw
    · exact True.intro
  · exact True.intro
  · exact decodeSystem_evenTarget raw
  · exact True.intro

/-- The offset of `c.j` and `c.jal` is even. -/
theorem cjImm_halfword (h : U32) : Halfword (cjImm h) := by
  refine Halfword.sext (.or (.or (.or (.or (.or (.or (.or ?_ ?_) ?_) ?_) ?_) ?_) ?_) ?_) (by decide)
  all_goals exact Halfword.shiftLeft _ (by decide)

/-- The offset of `c.beqz` and `c.bnez` is even. -/
theorem cbImm_halfword (h : U32) : Halfword (cbImm h) := by
  refine Halfword.sext (.or (.or (.or (.or ?_ ?_) ?_) ?_) ?_) (by decide)
  all_goals exact Halfword.shiftLeft _ (by decide)

/-- Quadrant 0 has loads and stores only. -/
theorem decodeQ0_evenTarget (h : U32) : (decodeQ0 h).EvenTarget := by
  unfold decodeQ0
  dsimp only
  repeat' split
  all_goals exact True.intro

/-- `c.lui` and `c.addi16sp` do not jump. -/
theorem decodeLuiC_evenTarget (h : U32) : (decodeLuiC h).EvenTarget := by
  unfold decodeLuiC
  generalize sext _ 10 = imm
  generalize sext _ 18 = imm'
  dsimp only
  split
  · split <;> exact True.intro
  · split
    · split <;> exact True.intro
    · exact True.intro

/-- The compressed arithmetic does not jump. -/
theorem decodeAluC_evenTarget (h : U32) : (decodeAluC h).EvenTarget := by
  unfold decodeAluC
  dsimp only
  split
  · exact True.intro
  · exact True.intro
  · exact True.intro
  · split
    · split <;> exact True.intro
    · exact True.intro

/-- The jumps and branches of quadrant 1 have even offsets. -/
theorem decodeQ1_evenTarget (h : U32) : (decodeQ1 h).EvenTarget := by
  unfold decodeQ1
  dsimp only
  split
  · exact True.intro
  · exact cjImm_halfword h
  · exact True.intro
  · exact decodeLuiC_evenTarget h
  · exact decodeAluC_evenTarget h
  · exact cjImm_halfword h
  · exact cbImm_halfword h
  · exact cbImm_halfword h

/-- The jumps of quadrant 2 are through registers with offset 0. -/
theorem decodeQ2_evenTarget (h : U32) : (decodeQ2 h).EvenTarget := by
  unfold decodeQ2
  generalize regField h 7 = rd
  generalize regField h 2 = rs2
  dsimp only
  split
  · exact True.intro
  · split <;> exact True.intro
  · split
    · split
      · exact True.intro
      · split <;> exact True.intro
    · split
      · split <;> exact True.intro
      · exact True.intro
  · exact True.intro
  · exact True.intro

/-- Every jump and branch of a compressed instruction has an even offset. -/
theorem decodeCompressed_evenTarget (half : U16) : (decodeCompressed half).EvenTarget := by
  unfold decodeCompressed
  generalize half.setWidth 32 = h
  dsimp only
  split
  · exact decodeQ0_evenTarget _
  · exact decodeQ1_evenTarget _
  · exact decodeQ2_evenTarget _
  · exact True.intro

section
variable {β : Type} [Bus β]

/-- What is fetched is two or four bytes long and has an even target. -/
theorem fetchDecode_gives (pc : U32) :
    Gives (fun f => f.inst.EvenTarget ∧ Halfword f.ilen) (fetchDecode pc : Exec β Fetched) := by
  refine Gives.last fun lo => ?_
  split
  · exact Gives.pure ⟨decodeCompressed_evenTarget lo, Halfword.two⟩
  · exact Gives.last fun hi => Gives.pure ⟨decode_evenTarget _, Halfword.four⟩

omit [Bus β] in
/-- A branch goes to an even address, taken or not. -/
theorem execBranch_gives (op : BranchOp) (rs1 rs2 : Reg) {imm pc next : U32} (hi : Halfword imm)
    (hpc : Halfword pc) (hnext : Halfword next) :
    Gives Halfword (execBranch op rs1 rs2 imm pc next : Exec β U32) := by
  refine Gives.last fun h => Gives.last fun _ => ?_
  split
  · exact Gives.throw _
  · refine Gives.pure ?_
    split
    · exact hpc.add hi
    · exact hnext

/-- The next `pc` of an instruction is even when its own and the return addresses are. -/
theorem execInst_gives {inst : Inst} {pc next iword : U32} {s s' : Sys β} {r : Exit × U32}
    (hi : inst.EvenTarget) (hpc : Halfword pc) (hnext : Halfword next)
    (hm : Halfword s.hart.csr.mepc) (hs : Halfword s.hart.csr.sepc)
    (h : execInst inst pc next iword s = (.ok r, s')) : Halfword r.2 := by
  have hg : ∀ {x : Exec β (Exit × U32)}, x s = (.ok r, s') → Gives (fun r => Halfword r.2) x →
      Halfword r.2 := fun h hx => hx _ _ _ h
  unfold execInst getHart at h
  rw [Comp.gets_bind] at h
  cases inst with
  | jal rd imm => exact hg h (.last fun _ => .pure (hpc.add hi))
  | jalr rd rs1 imm => exact hg h (.last fun _ => .pure (Halfword.and_right _ (by decide)))
  | branch op rs1 rs2 imm =>
    exact hg h (.bind (execBranch_gives op rs1 rs2 hi hpc hnext) fun _ hn => .pure hn)
  | load | lrW | scW | amoW => exact hg h (.last fun _ => .last fun _ => .pure hnext)
  | lui | auipc | store | opImm | op | mul | csr | sfenceVma =>
    exact hg h (.last fun _ => .pure hnext)
  | fence | wfi => exact hg h (.pure hnext)
  | ecall | ebreak => exact hg h (.pure hpc)
  | mret =>
    dsimp only at h
    split at h
    · cases h
    · exact hg h (.last fun _ => .pure hm)
  | sret =>
    dsimp only at h
    split at h
    · cases h
    · exact hg h (.last fun _ => .pure hs)
  | illegal raw => exact hg h (.throw _)

end

/-! ## Writes of CSRs -/

/-- The machine-level part of a CSR file: the registers of the M class, and of `mstatus` and `mie`
what their supervisor views do not show. -/
structure MachineCsrs where
  mstatus : U32
  mtvec : U32
  mepc : U32
  mcause : U32
  mtval : U32
  mscratch : U32
  mie : U32
  medeleg : U32
  mideleg : U32
  misa : U32
  mhartid : U32
  pmpcfg : Nat → U32
  pmpaddr : Nat → U32
  mcounteren : U32
  mcountinhibit : U32
  menvcfg : U32
  menvcfgh : U32

namespace Csr

/-- The machine-level part. -/
def machine (c : Csr) : MachineCsrs where
  mstatus := c.mstatus &&& ~~~SSTATUS_MASK
  mtvec := c.mtvec
  mepc := c.mepc
  mcause := c.mcause
  mtval := c.mtval
  mscratch := c.mscratch
  mie := c.mie &&& ~~~S_INT_MASK
  medeleg := c.medeleg
  mideleg := c.mideleg
  misa := c.misa
  mhartid := c.mhartid
  pmpcfg := c.pmpcfg
  pmpaddr := c.pmpaddr
  mcounteren := c.mcounteren
  mcountinhibit := c.mcountinhibit
  menvcfg := c.menvcfg
  menvcfgh := c.menvcfgh

/-- What a masked write leaves outside the mask. -/
theorem masked_outside (old val mask : U32) :
    ((old &&& ~~~mask) ||| (val &&& mask)) &&& ~~~mask = old &&& ~~~mask := by
  ext i
  simp only [BitVec.getElem_and, BitVec.getElem_or, BitVec.getElem_not]
  cases mask[i] <;> simp

/-- What is denied to a mode is denied to U. -/
theorem denied_u {addr : U16} {p : Priv} (h : denied addr p = true) : denied addr .u = true := by
  rw [denied, decide_eq_true_eq, BitVec.lt_def] at *
  exact lt_of_le_of_lt (Nat.zero_le _) h

/-- What is open to a mode below M is open to S. -/
theorem denied_s {addr : U16} {p : Priv} (hp : p ≠ .m) (h : denied addr p = false) :
    denied addr .s = false := by
  cases p with
  | u =>
    rw [denied, decide_eq_false_iff_not] at *
    intro hlt
    have hus : Priv.u.level < Priv.s.level := by decide
    exact h (BitVec.lt_trans hus hlt)
  | s => exact h
  | m => exact absurd rfl hp

/-- The PMP registers are of the M class. -/
theorem denied_pmp {addr : U16} (h₁ : 0x3a0 ≤ addr) (h₂ : addr ≤ 0x3bf) :
    denied addr .s = true := by
  have hclass : (addr >>> 8) &&& 0x3 = 3 := by
    rw [BitVec.le_def] at h₁ h₂
    apply BitVec.eq_of_toNat_eq
    have hand : addr.toNat >>> 8 &&& 3 = addr.toNat / 256 % 4 := by
      rw [Nat.shiftRight_eq_div_pow]
      exact Nat.and_two_pow_sub_one_eq_mod _ 2
    have h₁' : 0x3a0 ≤ addr.toNat := h₁
    have h₂' : addr.toNat ≤ 0x3bf := h₂
    show addr.toNat >>> 8 &&& 3 = 3
    omega
  rw [denied, hclass]
  rfl

/-- A CSR that can be written below M is one of the table, and open to S. -/
theorem write_below {c c' : Csr} {addr : U16} {val : U32} {p : Priv}
    (h : c.write addr val p = some c') (hp : p ≠ .m) :
    ∃ f, (addr, f) ∈ writers ∧ denied addr p = false ∧ c' = f c val := by
  unfold write at h
  split at h
  · cases h
  next hd =>
    split at h
    · cases h
    split at h
    next f hf =>
      cases h
      obtain ⟨l₁, l₂, hl, -⟩ := List.lookup_eq_some_iff.1 hf
      exact ⟨f, by rw [hl]; simp, Bool.eq_false_iff.2 hd, rfl⟩
    next =>
      have hs : ¬denied addr .s = true := by
        rw [denied_s hp (Bool.eq_false_iff.2 hd)]
        decide
      split at h
      next ha =>
        have hle : addr ≤ 0x3bf := BitVec.le_trans ha.2 (by decide : (0x3a3 : U16) ≤ 0x3bf)
        exact absurd (denied_pmp ha.1 hle) hs
      · split at h
        next ha =>
          have hle : (0x3a0 : U16) ≤ addr := BitVec.le_trans (by decide : (0x3a0 : U16) ≤ 0x3b0) ha.1
          exact absurd (denied_pmp hle ha.2) hs
        · cases h

/-- A write below M leaves the machine-level part alone. -/
theorem write_machine {c c' : Csr} {addr : U16} {val : U32} {p : Priv}
    (h : c.write addr val p = some c') (hp : p ≠ .m) : c'.machine = c.machine := by
  obtain ⟨f, hf, hd, rfl⟩ := write_below h hp
  have key : ∀ e ∈ writers, denied e.1 .s = false → (e.2 c val).machine = c.machine := by
    simp [writers, denied, Priv.level, machine, masked_outside]
  exact key _ hf (denied_s hp hd)

/-- Nothing can be written from U. -/
theorem write_u (c : Csr) (addr : U16) (val : U32) : c.write addr val .u = none := by
  cases h : c.write addr val .u with
  | none => rfl
  | some c' =>
    obtain ⟨f, hf, hd, -⟩ := write_below h (by decide)
    have key : ∀ e ∈ writers, denied e.1 .u = true := by decide
    rw [key _ hf] at hd
    cases hd

/-- Both return addresses are half-word addresses. -/
def ReturnsEven (c : Csr) : Prop := Halfword c.mepc ∧ Halfword c.sepc

/-- A CSR write keeps the return addresses even: `mepc` and `sepc` are masked. -/
theorem write_returnsEven {c c' : Csr} {addr : U16} {val : U32} {p : Priv}
    (h : c.write addr val p = some c') (hc : c.ReturnsEven) : c'.ReturnsEven := by
  rcases write_cases h with ⟨f, hf, rfl⟩ | ⟨i, rfl⟩ | ⟨i, rfl⟩
  · have hval : Halfword (val &&& ~~~1) := Halfword.and_right val (by decide)
    have key : ∀ e ∈ writers, (e.2 c val).ReturnsEven := by
      simp [writers, ReturnsEven, hc.1, hc.2] at hval ⊢
      exact hval
    exact key _ hf
  · exact hc
  · exact hc

end Csr

/-! ## What one step does -/

/-- The changes of the mode or the CSR file that an instruction can make: a CSR write or a return,
each with the privilege it needs. -/
inductive ModeStep (h : Hart) : Priv → Csr → Prop
  | write {addr : U16} {val : U32} {c : Csr} (hw : h.csr.write addr val h.privilege = some c) :
      ModeStep h h.privilege c
  | mret (hp : h.privilege = .m) : ModeStep h h.mret.privilege h.mret.csr
  | sret (hp : h.privilege ≠ .u) : ModeStep h h.sret.privilege h.sret.csr

/-- The parts of a hart that traps and returns change. -/
structure Modes where
  privilege : Priv
  csr : Csr
  pc : U32

namespace Hart

def modes (h : Hart) : Modes := ⟨h.privilege, h.csr, h.pc⟩

/-- The modes do not look at what an instruction computes. -/
theorem modes_blind : Blind modes := fun _ _ _ _ _ _ => rfl

/-- The trap that the result of a step is turned into: its cause and value. -/
def trapOf (h : Hart) : Except Trap Exit → Option (U32 × U32)
  | .ok .ecall =>
    if h.hypercallEid = some (h.regs 17) then none else some (ecallCause h.privilege, 0)
  | .ok .ebreak => some (E_BREAKPOINT, h.pc)
  | .error (.illegal _ raw) => some (E_ILLEGAL, raw)
  | .error (.mem f) => some (memCause f, f.addr)
  | .error (.exception cause tval) => some (cause, tval)
  | _ => none

/-- A finished step takes its trap, or leaves mode and CSRs alone and goes on at an even address. -/
theorem finishExit_trapOf (h : Hart) (r : Except Trap Exit) :
    match h.trapOf r with
    | some (cause, tval) => (h.finishExit r).2 = h.takeTrap cause tval false
    | none => (h.finishExit r).2.privilege = h.privilege ∧ (h.finishExit r).2.csr = h.csr ∧
        ((h.finishExit r).2.pc = h.pc ∨ (h.finishExit r).2.pc = h.pc + 4) := by
  unfold finishExit trapOf
  rcases r with (f | _ | _ | _) | (_ | _ | _ | _)
  case ok.ecall =>
    by_cases hc : h.hypercallEid = some (h.regs 17)
    · simp only [hc, if_true]
      exact ⟨trivial, trivial, .inr trivial⟩
    · simp only [hc, if_false]
  all_goals first | rfl | exact ⟨rfl, rfl, .inl rfl⟩

end Hart

section
variable {β : Type}

/-- The hart of a system after a CSR file is put in. -/
theorem setCsr_hart (c : Csr) (flush : Bool) (s : Sys β) :
    (setCsr c flush s).2.hart = { s.hart with csr := c } := by
  cases flush <;> rfl

/-- The write of a CSR instruction fails, or puts in the CSR file that was written. -/
theorem writeCsr_cases (op : CsrOp) (src : Reg) (csr : U16) (old : U32) (trap : Trap) (s : Sys β) :
    writeCsr op src csr old trap s = (.error trap, s) ∨
      writeCsr op src csr old trap s = (.ok (), s) ∨
      ∃ c val, s.hart.csr.write csr val s.hart.privilege = some c ∧
        writeCsr op src csr old trap s = setCsr c (csr = SATP) s := by
  unfold writeCsr getHart
  rw [Comp.gets_bind]
  by_cases hdo : csrDoesWrite op src = true
  · rw [if_pos hdo]
    cases hw : s.hart.csr.write csr (csrNew op old (s.hart.csrSrc op src)) s.hart.privilege with
    | none => exact .inl rfl
    | some c => exact .inr (.inr ⟨c, _, hw, rfl⟩)
  · rw [if_neg hdo]
    exact .inr (.inl rfl)

/-- A CSR instruction that is refused is illegal and changes nothing. -/
theorem execCsr_error {op : CsrOp} {rd src : Reg} {csr : U16} {pc iword : U32} {s s' : Sys β}
    {e : Trap} (h : execCsr op rd src csr pc iword s = (.error e, s')) :
    s' = s ∧ e = .illegal pc iword := by
  unfold execCsr getHart at h
  rw [Comp.gets_bind] at h
  cases hr : s.hart.readCsr csr with
  | none =>
    rw [hr] at h
    cases h
    exact ⟨rfl, rfl⟩
  | some old =>
    rw [hr] at h
    dsimp only at h
    rcases writeCsr_cases op src csr old (.illegal pc iword) s with hw | hw | ⟨c, val, -, hw⟩
    · rw [Comp.bind_error hw] at h
      cases h
      exact ⟨rfl, rfl⟩
    · rw [Comp.bind_ok hw] at h
      cases h
    · have hs : setCsr c (csr = SATP) s = (.ok (), (setCsr c (csr = SATP) s).2) := rfl
      rw [Comp.bind_ok (hw.trans hs)] at h
      cases h

/-- A CSR instruction leaves mode and CSRs alone, or retires with a CSR write. -/
theorem execCsr_modes (op : CsrOp) (rd src : Reg) (csr : U16) (pc iword : U32) (s : Sys β) :
    (execCsr op rd src csr pc iword s).2.hart.modes = s.hart.modes ∨
      (execCsr op rd src csr pc iword s).1 = .ok () ∧
        ∃ c val, s.hart.csr.write csr val s.hart.privilege = some c ∧
          (execCsr op rd src csr pc iword s).2.hart.modes = ⟨s.hart.privilege, c, s.hart.pc⟩ := by
  unfold execCsr getHart
  rw [Comp.gets_bind]
  cases s.hart.readCsr csr with
  | none => exact .inl rfl
  | some old =>
    have hclean := Hart.modes_blind.wrClean
    rcases writeCsr_cases op src csr old (.illegal pc iword) s with hw | hw | ⟨c, val, hc, hw⟩
    · left
      dsimp only
      rw [Comp.bind_error hw]
    · left
      dsimp only
      rw [Comp.bind_ok hw]
      exact hclean _ _ _
    · right
      dsimp only
      have hs : setCsr c (csr = SATP) s = (.ok (), (setCsr c (csr = SATP) s).2) := rfl
      rw [Comp.bind_ok (hw.trans hs)]
      refine ⟨rfl, c, val, hc, (hclean _ _ _).trans ?_⟩
      rw [setCsr_hart]
      rfl

variable [Bus β]

/-- What a result leaves of mode and CSR file: both alone, or one of the three changes in an
instruction that goes on. -/
def Moves {α : Type} (ok : α → Prop) (h : Hart) (r : Except Trap α × Sys β) : Prop :=
  (r.2.hart.privilege = h.privilege ∧ r.2.hart.csr = h.csr) ∨
    (∃ a, r.1 = .ok a ∧ ok a) ∧ ModeStep h r.2.hart.privilege r.2.hart.csr

/-- What an instruction may do to the mode, before its `pc` is written. -/
theorem execInst_modes (inst : Inst) (pc next iword : U32) (s : Sys β) :
    Moves (·.1 = .continue) s.hart (execInst inst pc next iword s) ∧
      (execInst inst pc next iword s).2.hart.pc = s.hart.pc := by
  have keep : ∀ {r : Except Trap (Exit × U32) × Sys β}, r.2.hart.modes = s.hart.modes →
      Moves (·.1 = .continue) s.hart r ∧ r.2.hart.pc = s.hart.pc := fun h =>
    ⟨.inl ⟨congrArg Modes.privilege h, congrArg Modes.csr h⟩, congrArg Modes.pc h⟩
  cases inst with
  | csr op rd src csr =>
    unfold execInst getHart
    rw [Comp.gets_bind]
    dsimp only
    rcases hx : execCsr op rd src csr pc iword s with ⟨r, s'⟩
    have hm := execCsr_modes op rd src csr pc iword s
    rw [hx] at hm
    rcases hm with hm | ⟨hr, c, val, hc, hm⟩
    · cases r with
      | error e =>
        rw [Comp.bind_error hx]
        exact keep hm
      | ok u =>
        rw [Comp.bind_ok hx]
        exact keep hm
    · cases hr
      rw [Comp.bind_ok hx]
      refine ⟨.inr ⟨⟨_, rfl, rfl⟩, ?_⟩, congrArg Modes.pc hm⟩
      have hp := congrArg Modes.privilege hm
      have hcsr := congrArg Modes.csr hm
      dsimp only [Hart.modes] at hp hcsr
      dsimp only [Comp.pure_apply]
      rw [hp, hcsr]
      exact .write hc
  | mret =>
    unfold execInst getHart
    rw [Comp.gets_bind]
    dsimp only
    split
    · exact keep rfl
    next hp =>
      refine ⟨.inr ⟨⟨_, rfl, rfl⟩, .mret ?_⟩, rfl⟩
      revert hp
      cases s.hart.privilege <;> decide
  | sret =>
    unfold execInst getHart
    rw [Comp.gets_bind]
    dsimp only
    split
    · exact keep rfl
    next hp =>
      refine ⟨.inr ⟨⟨_, rfl, rfl⟩, .sret ?_⟩, rfl⟩
      revert hp
      cases s.hart.privilege <;> decide
  | _ => exact keep (Hart.modes_blind.execInst_keeps (by exact True.intro) _ _ _ s)

/-- The addresses a hart can go on at are half-word addresses. -/
def Hart.EvenAddrs (h : Hart) : Prop := Halfword h.pc ∧ h.csr.ReturnsEven

/-- What an instruction may do to the mode; the address it goes on at is even. -/
theorem execOne_modes {inst : Inst} {pc ilen iword : U32} {s : Sys β} (he : s.hart.EvenAddrs)
    (hi : inst.EvenTarget) (hpc : Halfword pc) (hilen : Halfword ilen) :
    Moves (· = .continue) s.hart (execOne inst pc ilen iword s) ∧
      Halfword (execOne inst pc ilen iword s).2.hart.pc := by
  obtain ⟨hm, hp⟩ := execInst_modes inst pc (pc + ilen) iword s
  unfold execOne
  rcases hx : execInst inst pc (pc + ilen) iword s with ⟨r, s'⟩
  rw [hx] at hm hp
  cases r with
  | error e =>
    rw [Comp.bind_error hx]
    have hpc' : Halfword s'.hart.pc := by
      rw [show s'.hart.pc = s.hart.pc from hp]
      exact he.1
    rcases hm with hm | ⟨⟨a, ha, _⟩, _⟩
    · exact ⟨.inl hm, hpc'⟩
    · cases ha
  | ok a =>
    rw [Comp.bind_ok hx]
    refine ⟨?_, execInst_gives hi hpc (hpc.add hilen) he.2.1 he.2.2 hx⟩
    rcases hm with hm | ⟨⟨b, hb, hc⟩, hs⟩
    · exact .inl hm
    · cases hb
      exact .inr ⟨⟨_, rfl, hc⟩, hs⟩

/-- The same of a step, which fetches its instruction first. -/
theorem step_modes {s : Sys β} (he : s.hart.EvenAddrs) :
    Moves (· = .continue) s.hart (step s) ∧ Halfword (step s).2.hart.pc := by
  unfold step getHart
  rw [Comp.gets_bind]
  have hk := fetchDecode_keeps s.hart.pc s
  rcases hf : fetchDecode s.hart.pc s with ⟨r, s'⟩
  rw [hf] at hk
  have hk' : s'.hart = s.hart := hk
  cases r with
  | error e =>
    rw [Comp.bind_error hf]
    rw [← hk'] at he
    exact ⟨.inl ⟨congrArg Hart.privilege hk, congrArg Hart.csr hk⟩, he.1⟩
  | ok f =>
    rw [Comp.bind_ok hf, ← hk']
    obtain ⟨hi, hl⟩ := fetchDecode_gives s.hart.pc _ _ _ hf
    exact execOne_modes (hk' ▸ he) hi (hk' ▸ he.1) hl

/-- The trap that ends a step, as the arguments of `takeTrap`: an interrupt that is pending before
it, or what its result is turned into. -/
def stepTrap (s : Sys β) : Option (U32 × U32 × Bool) :=
  let h := s.hart.updateTimers
  match h.pendingInterrupt with
  | some code => some (BitVec.ofNat 32 code, 0, true)
  | none =>
    let r := step (s.setHart h)
    (r.2.hart.trapOf r.1).map fun t => (t.1, t.2, false)

/-- What a step makes of the hart's mode and CSR file, given the trap it ends in. A trap is taken
from the mode the step began in. -/
inductive SysStep (h : Hart) : Option (U32 × U32 × Bool) → Hart → Prop
  | trap {h₁ : Hart} (cause tval : U32) (interrupt : Bool) (hp : h₁.privilege = h.privilege)
      (hc : h₁.csr = h.updateTimers.csr) (hpc : Halfword h₁.pc) :
      SysStep h (some (cause, tval, interrupt)) (h₁.takeTrap cause tval interrupt)
  | keep {h' : Hart} (hp : h'.privilege = h.privilege) (hc : h'.csr = h.updateTimers.csr)
      (hpc : Halfword h'.pc) : SysStep h none h'
  | mode {h' : Hart} (hm : ModeStep h.updateTimers h'.privilege h'.csr) (hpc : Halfword h'.pc) :
      SysStep h none h'

/-- One step of the system changes the mode by its instruction or by one trap. -/
theorem stepSystem_sysStep {s : Sys β} (he : s.hart.EvenAddrs) :
    SysStep s.hart (stepTrap s) (stepSystem s).2.hart := by
  unfold stepSystem stepTrap Hart.pollInterrupt
  dsimp only
  cases s.hart.updateTimers.pendingInterrupt with
  | some code => exact .trap _ _ _ rfl rfl he.1
  | none =>
    dsimp only
    have he' : (s.setHart s.hart.updateTimers).hart.EvenAddrs := he
    obtain ⟨hm, hpc⟩ := step_modes he'
    rw [if_neg Bool.false_ne_true]
    generalize step (s.setHart s.hart.updateTimers) = r at hm hpc ⊢
    have hf := r.2.hart.finishExit_trapOf r.1
    rcases hm with ⟨hp, hc⟩ | ⟨⟨a, ha, rfl⟩, hm⟩
    · cases ht : r.2.hart.trapOf r.1 with
      | some t =>
        rw [ht] at hf
        show SysStep s.hart (some (t.1, t.2, false)) (r.2.hart.finishExit r.1).2
        rw [hf]
        exact .trap _ _ _ hp hc hpc
      | none =>
        rw [ht] at hf
        obtain ⟨hp', hc', hpc'⟩ := hf
        refine .keep (hp'.trans hp) (hc'.trans hc) ?_
        show Halfword (r.2.hart.finishExit r.1).2.pc
        rcases hpc' with hpc' | hpc'
        · rw [hpc']
          exact hpc
        · rw [hpc']
          exact hpc.add Halfword.four
    · obtain ⟨x, s'⟩ := r
      cases ha
      exact .mode hm hpc

end

/-! ## Bits that a change of `mstatus` leaves alone -/

section
variable {a b m : U32}

/-- A bit set outside a mask does not show in it. -/
theorem or_outside (h : b &&& m = 0) : (a ||| b) &&& m = a &&& m := by
  ext i hi
  have hb : (b[i] && m[i]) = false := by
    rw [← BitVec.getElem_and, h]
    simp
  rw [BitVec.getElem_and, BitVec.getElem_or, BitVec.getElem_and, Bool.and_or_distrib_right, hb,
    Bool.or_false]

/-- A bit cleared outside a mask does not show in it. -/
theorem clear_outside (h : b &&& m = 0) : (a &&& ~~~b) &&& m = a &&& m := by
  ext i hi
  have hb : (b[i] && m[i]) = false := by
    rw [← BitVec.getElem_and, h]
    simp
  simp only [BitVec.getElem_and, BitVec.getElem_not]
  cases hm : m[i] with
  | false => rw [Bool.and_false, Bool.and_false]
  | true =>
    rw [hm, Bool.and_true] at hb
    rw [hb, Bool.not_false, Bool.and_true]

/-- Clearing bits that are not there changes nothing. -/
theorem and_not_of_disjoint (h : a &&& b = 0) : a &&& ~~~b = a := by
  ext i hi
  have hb : (a[i] && b[i]) = false := by
    rw [← BitVec.getElem_and, h]
    simp
  simp only [BitVec.getElem_and, BitVec.getElem_not]
  cases ha : a[i] with
  | false => rw [Bool.false_and]
  | true =>
    rw [ha, Bool.true_and] at hb
    rw [hb, Bool.not_false, Bool.and_true]

/-- The lowest bit is clear or set. -/
theorem and_one (v : U32) : v &&& 1 = 0 ∨ v &&& 1 = 1 := by
  have hand : (v &&& 1).toNat = v.toNat % 2 := by
    rw [BitVec.toNat_and]
    exact Nat.and_two_pow_sub_one_eq_mod _ 1
  rcases Nat.mod_two_eq_zero_or_one v.toNat with h | h
  · exact .inl (BitVec.eq_of_toNat_eq (hand.trans h))
  · exact .inr (BitVec.eq_of_toNat_eq (hand.trans h))

/-- A bit moved to a place outside a mask does not show in it. -/
theorem moveBit_outside {dst src : U32} (h : dst &&& m = 0) :
    moveBit a dst src &&& m = a &&& m := by
  unfold moveBit
  split
  · rw [or_outside h, clear_outside h]
  · rw [or_outside (by simp), clear_outside h]

end

/-! ## Traps and returns -/

/-- Machine-mode virtual accesses (MPRV) are in force in M only. -/
def Hart.MprvInM (h : Hart) : Prop := h.csr.mstatus &&& MSTATUS_MPRV ≠ 0 → h.privilege = .m

/-- The addresses to go on at are even, and MPRV is in force in M only. -/
structure Hart.Isolated (h : Hart) : Prop where
  even : h.EvenAddrs
  mprv : h.MprvInM

/-- MPRV is of the machine-level part. -/
theorem mprv_of_machine {c c' : Csr} (h : c.machine = c'.machine) :
    c.mstatus &&& MSTATUS_MPRV = c'.mstatus &&& MSTATUS_MPRV := by
  have hm := congrArg (fun x => x.mstatus &&& MSTATUS_MPRV) h
  have hmask : ~~~SSTATUS_MASK &&& MSTATUS_MPRV = MSTATUS_MPRV := by decide
  simpa only [Csr.machine, BitVec.and_assoc, hmask] using hm

namespace Hart

/-- A trap vector is even: the mode bits of the base are masked, and the offset is a multiple of
4. -/
theorem trapVector_even (tvec cause : U32) (interrupt : Bool) :
    Halfword (trapVector tvec cause interrupt) := by
  have hbase : Halfword (tvec &&& ~~~0x3) := Halfword.and_right tvec (by decide)
  unfold trapVector
  dsimp only
  split
  · exact hbase.add (Halfword.four_mul cause)
  · exact hbase

/-- A trap ends in S or in M; in S only from below M, and then the machine-level part is kept. -/
theorem takeTrap_cases (h : Hart) (cause tval : U32) (interrupt : Bool) :
    ((h.takeTrap cause tval interrupt).privilege = .m) ∨
      (h.privilege ≠ .m ∧ (h.takeTrap cause tval interrupt).privilege = .s ∧
        (h.takeTrap cause tval interrupt).csr.machine = h.csr.machine) := by
  simp only [takeTrap]
  generalize (if interrupt then h.csr.mideleg else h.csr.medeleg) = deleg
  split
  next hs =>
    right
    have hp : h.privilege ≠ .m := by
      intro hm
      rw [hm] at hs
      exact absurd hs.1 (by decide)
    refine ⟨hp, rfl, ?_⟩
    have hspp : ((h.privilege.level &&& 1) <<< 8) &&& ~~~SSTATUS_MASK = 0 := by
      cases h.privilege <;> decide
    unfold Csr.machine
    dsimp only
    rw [or_outside hspp, clear_outside (by decide), clear_outside (by decide),
      moveBit_outside (by decide)]
  · exact .inl rfl

/-- A trap never lowers the privilege. -/
theorem takeTrap_level (h : Hart) (cause tval : U32) (interrupt : Bool) :
    h.privilege.level ≤ (h.takeTrap cause tval interrupt).privilege.level := by
  rcases h.takeTrap_cases cause tval interrupt with hm | ⟨hp, hs, -⟩
  · rw [hm]
    cases h.privilege <;> decide
  · rw [hs]
    revert hp
    cases h.privilege <;> decide

/-- A trap goes to an even vector and saves an even address. -/
theorem takeTrap_even {h : Hart} (he : h.EvenAddrs) (cause tval : U32) (interrupt : Bool) :
    (h.takeTrap cause tval interrupt).EvenAddrs := by
  simp only [takeTrap]
  generalize (if interrupt then h.csr.mideleg else h.csr.medeleg) = deleg
  split
  · exact ⟨trapVector_even _ _ _, he.2.1, he.1⟩
  · exact ⟨trapVector_even _ _ _, he.1, he.2.2⟩

/-- A trap keeps the hart isolated. -/
theorem takeTrap_isolated {h : Hart} (hi : h.Isolated) (cause tval : U32) (interrupt : Bool) :
    (h.takeTrap cause tval interrupt).Isolated := by
  refine ⟨takeTrap_even hi.even cause tval interrupt, fun hm => ?_⟩
  rcases h.takeTrap_cases cause tval interrupt with hp | ⟨hp, -, hc⟩
  · exact hp
  · refine absurd (hi.mprv ?_) hp
    rwa [mprv_of_machine hc] at hm

/-- Below M, a return clears MPRV. -/
theorem returnTo_mprv (h : Hart) (s bits : U32) : (h.returnTo s bits).MprvInM := by
  unfold returnTo MprvInM
  dsimp only
  split
  · intro hm
    refine absurd ?_ hm
    rw [BitVec.and_assoc, show ~~~MSTATUS_MPRV &&& MSTATUS_MPRV = 0 from by decide]
    exact BitVec.and_zero
  next hp =>
    intro _
    exact not_not.1 hp

/-- The previous mode of S is S or U. -/
theorem sret_privilege (h : Hart) : h.sret.privilege ≠ .m := by
  have hbit : ∀ v : U32, (v &&& MSTATUS_SPP) >>> 8 = (v >>> 8) &&& 1 := fun v => by
    rw [BitVec.ushiftRight_and_distrib]
    rfl
  show Priv.fromBits ((h.csr.mstatus &&& MSTATUS_SPP) >>> 8) ≠ .m
  rw [hbit]
  rcases and_one (h.csr.mstatus >>> 8) with h0 | h1
  · rw [h0]
    decide
  · rw [h1]
    decide

/-- With MPRV out of force, `sret` keeps the machine-level part. -/
theorem sret_machine {h : Hart} (hm : h.MprvInM) (hp : h.privilege ≠ .m) :
    h.sret.csr.machine = h.csr.machine := by
  have hmprv : h.csr.mstatus &&& MSTATUS_MPRV = 0 := by
    by_contra hne
    exact hp (hm hne)
  have hs : h.sret.csr.mstatus =
      ((moveBit h.csr.mstatus MSTATUS_SIE MSTATUS_SPIE ||| MSTATUS_SPIE) &&& ~~~MSTATUS_SPP) &&&
        ~~~MSTATUS_MPRV := if_pos h.sret_privilege
  have hmask : h.sret.csr.mstatus &&& ~~~SSTATUS_MASK = h.csr.mstatus &&& ~~~SSTATUS_MASK := by
    calc h.sret.csr.mstatus &&& ~~~SSTATUS_MASK
      _ = (((moveBit h.csr.mstatus MSTATUS_SIE MSTATUS_SPIE ||| MSTATUS_SPIE) &&& ~~~MSTATUS_SPP) &&&
            ~~~SSTATUS_MASK) &&& ~~~MSTATUS_MPRV := by
        rw [hs, BitVec.and_assoc, BitVec.and_comm (~~~MSTATUS_MPRV), ← BitVec.and_assoc]
      _ = (h.csr.mstatus &&& ~~~MSTATUS_MPRV) &&& ~~~SSTATUS_MASK := by
        rw [clear_outside (m := ~~~SSTATUS_MASK) (by decide), or_outside (by decide),
          moveBit_outside (by decide), BitVec.and_assoc, BitVec.and_comm (~~~SSTATUS_MASK),
          ← BitVec.and_assoc]
      _ = h.csr.mstatus &&& ~~~SSTATUS_MASK := by rw [and_not_of_disjoint hmprv]
  unfold Csr.machine
  rw [hmask]
  rfl

end Hart

/-- A CSR write or a return never raises the mode. -/
theorem ModeStep.level {h : Hart} {p : Priv} {c : Csr} (hm : ModeStep h p c) :
    p.level ≤ h.privilege.level := by
  cases hm with
  | write => exact BitVec.le_refl _
  | mret hp =>
    rw [hp]
    cases h.mret.privilege <;> decide
  | sret hp =>
    have hs := h.sret_privilege
    revert hs hp
    cases h.sret.privilege <;> cases h.privilege <;> decide

/-- Outside M-mode, an instruction leaves the machine registers alone. -/
theorem ModeStep.machine {h : Hart} {p : Priv} {c : Csr} (hm : ModeStep h p c) (hi : h.MprvInM)
    (hp : h.privilege ≠ .m) : c.machine = h.csr.machine := by
  cases hm with
  | write hw => exact Csr.write_machine hw hp
  | mret hm => exact absurd hm hp
  | sret => exact Hart.sret_machine hi hp

/-- From U there is no CSR write and no return. -/
theorem ModeStep.not_u {h : Hart} {p : Priv} {c : Csr} (hm : ModeStep h p c) : h.privilege ≠ .u := by
  intro hu
  cases hm with
  | write hw =>
    rw [hu, Csr.write_u] at hw
    cases hw
  | mret hp =>
    rw [hu] at hp
    cases hp
  | sret hp => exact hp hu

/-- An instruction keeps the hart isolated. -/
theorem ModeStep.isolated {h : Hart} {p : Priv} {c : Csr} (hm : ModeStep h p c) (hi : h.Isolated) :
    c.ReturnsEven ∧ (c.mstatus &&& MSTATUS_MPRV ≠ 0 → p = .m) := by
  cases hm with
  | write hw =>
    refine ⟨Csr.write_returnsEven hw hi.even.2, fun hne => ?_⟩
    by_contra hp
    rw [mprv_of_machine (Csr.write_machine hw hp)] at hne
    exact hp (hi.mprv hne)
  | mret => exact ⟨hi.even.2, Hart.returnTo_mprv _ _ _⟩
  | sret => exact ⟨hi.even.2, Hart.returnTo_mprv _ _ _⟩

/-- A step of the system keeps the hart isolated. -/
theorem SysStep.isolated {h h' : Hart} {t : Option (U32 × U32 × Bool)} (hs : SysStep h t h')
    (hi : h.Isolated) : h'.Isolated := by
  have hu : h.updateTimers.Isolated := ⟨hi.even, hi.mprv⟩
  have keep : ∀ {h₁ : Hart}, h₁.privilege = h.privilege → h₁.csr = h.updateTimers.csr →
      Halfword h₁.pc → h₁.Isolated := by
    intro h₁ hp hc hpc
    refine ⟨⟨hpc, ?_⟩, ?_⟩
    · rw [hc]
      exact hu.even.2
    · unfold Hart.MprvInM
      rw [hp, hc]
      exact hu.mprv
  cases hs with
  | trap cause tval interrupt hp hc hpc => exact Hart.takeTrap_isolated (keep hp hc hpc) _ _ _
  | keep hp hc hpc => exact keep hp hc hpc
  | mode hm hpc =>
    obtain ⟨he, hmprv⟩ := hm.isolated hu
    exact ⟨⟨hpc, he⟩, hmprv⟩

/-- Only a trap raises the privilege. -/
theorem SysStep.level {h h' : Hart} {t : Option (U32 × U32 × Bool)} (hs : SysStep h t h') :
    (t = none → h'.privilege.level ≤ h.privilege.level) ∧
      ∀ cause tval interrupt, t = some (cause, tval, interrupt) →
        h.privilege.level ≤ h'.privilege.level ∧
          ∃ h₁ : Hart, h₁.privilege = h.privilege ∧ h' = h₁.takeTrap cause tval interrupt := by
  cases hs with
  | @trap h₁ cause tval interrupt hp hc hpc =>
    refine ⟨fun h => (Option.some_ne_none _ h).elim, fun _ _ _ h => ?_⟩
    cases h
    refine ⟨?_, h₁, hp, rfl⟩
    rw [← hp]
    exact h₁.takeTrap_level cause tval interrupt
  | keep hp =>
    refine ⟨fun _ => ?_, fun _ _ _ h => (Option.some_ne_none _ h.symm).elim⟩
    rw [hp]
    exact BitVec.le_refl _
  | mode hm => exact ⟨fun _ => hm.level, fun _ _ _ h => (Option.some_ne_none _ h.symm).elim⟩

/-- A step that neither starts nor ends in M-mode leaves the machine registers alone. -/
theorem SysStep.machine {h h' : Hart} {t : Option (U32 × U32 × Bool)} (hs : SysStep h t h')
    (hi : h.Isolated) (hp : h.privilege ≠ .m) (hp' : h'.privilege ≠ .m) :
    h'.csr.machine = h.csr.machine := by
  cases hs with
  | @trap h₁ cause tval interrupt _ hc _ =>
    rcases h₁.takeTrap_cases cause tval interrupt with hm | ⟨-, -, hm⟩
    · exact absurd hm hp'
    · rw [hm, hc]
      rfl
  | keep _ hc =>
    rw [hc]
    rfl
  | mode hm => exact hm.machine hi.mprv hp

/-- The pending bits of the two timers. -/
def TIMER_BITS : U32 := (1#32 <<< 5) ||| (1#32 <<< 7)

/-- The timers write their own bits of `mip` only. -/
theorem updateTimers_mip (h : Hart) :
    h.updateTimers.csr.mip &&& ~~~TIMER_BITS = h.csr.mip &&& ~~~TIMER_BITS := by
  have hset : ∀ (w mask : U32) on, mask &&& ~~~TIMER_BITS = 0 →
      setFlag w mask on &&& ~~~TIMER_BITS = w &&& ~~~TIMER_BITS := by
    intro w mask on hmask
    cases on with
    | true => exact or_outside hmask
    | false => exact clear_outside hmask
  show setFlag (setFlag h.csr.mip _ _) _ _ &&& ~~~TIMER_BITS = _
  rw [hset _ _ _ (by decide), hset _ _ _ (by decide)]

/-- A step within U changes the timer bits of `mip` and no other CSR. -/
theorem SysStep.user {h h' : Hart} {t : Option (U32 × U32 × Bool)} (hs : SysStep h t h')
    (hp : h.privilege = .u) (hp' : h'.privilege = .u) :
    h'.csr = { h.csr with mip := h'.csr.mip } ∧
      h'.csr.mip &&& ~~~TIMER_BITS = h.csr.mip &&& ~~~TIMER_BITS := by
  cases hs with
  | @trap h₁ cause tval interrupt =>
    rcases h₁.takeTrap_cases cause tval interrupt with hm | ⟨-, hm, -⟩
    · rw [hm] at hp'
      cases hp'
    · rw [hm] at hp'
      cases hp'
  | keep _ hc =>
    rw [hc]
    exact ⟨rfl, updateTimers_mip h⟩
  | mode hm => exact absurd hp hm.not_u

/-! ## Forbidden CSR accesses -/

/-- A CSR that is read-only by its address. -/
def readOnlyCsr (csr : U16) : Bool := (csr >>> 10) &&& 0x3 = 0x3

/-- A write to a read-only or too privileged register is refused. -/
theorem Csr.write_forbidden (c : Csr) {csr : U16} {p : Priv}
    (h : Csr.denied csr p = true ∨ readOnlyCsr csr = true) (val : U32) :
    c.write csr val p = none := by
  unfold Csr.write
  split
  · rfl
  next hd =>
    rw [if_pos (of_decide_eq_true (h.resolve_left hd))]

/-- So is a read of a too privileged one. -/
theorem Hart.readCsr_denied {h : Hart} {csr : U16} (hd : Csr.denied csr h.privilege = true) :
    h.readCsr csr = none := by
  have hopen : [CYCLE, INSTRET, CYCLEH, INSTRETH, TIME, TIMEH].all (!Csr.denied · .u) = true := by
    decide
  have hc : ∀ a ∈ [CYCLE, INSTRET, CYCLEH, INSTRETH, TIME, TIMEH], csr ≠ a := by
    rintro a ha rfl
    have h := List.all_eq_true.1 hopen csr ha
    rw [Csr.denied_u hd] at h
    exact absurd h (by decide)
  unfold Hart.readCsr
  simp only [List.forall_mem_cons] at hc
  rw [if_neg (by tauto), if_neg (by tauto), if_neg hc.2.2.2.2.1, if_neg hc.2.2.2.2.2.1]
  exact if_pos hd

/-- A CSR instruction above the privilege of the hart, or writing a read-only CSR, raises an illegal
instruction and changes nothing. -/
theorem execOne_forbidden {β : Type} [Bus β] (s : Sys β) (op : CsrOp) (rd src : Reg) (csr : U16)
    (pc ilen iword : U32) (h : Csr.denied csr s.hart.privilege = true ∨
      csrDoesWrite op src = true ∧ readOnlyCsr csr = true) :
    execOne (.csr op rd src csr) pc ilen iword s = (.error (.illegal pc iword), s) := by
  have hx : execCsr op rd src csr pc iword s = (.error (.illegal pc iword), s) := by
    unfold execCsr getHart
    rw [Comp.gets_bind]
    cases hr : s.hart.readCsr csr with
    | none => rfl
    | some old =>
      have hnd : Csr.denied csr s.hart.privilege ≠ true := by
        intro hd
        rw [Hart.readCsr_denied hd] at hr
        cases hr
      obtain ⟨hdo, hro⟩ := h.resolve_left hnd
      refine Comp.bind_error ?_
      unfold writeCsr getHart
      rw [Comp.gets_bind, if_pos hdo, Csr.write_forbidden _ (.inr hro)]
      rfl
  have hi : execInst (.csr op rd src csr) pc (pc + ilen) iword s =
      (.error (.illegal pc iword), s) := by
    unfold execInst getHart
    rw [Comp.gets_bind]
    exact Comp.bind_error hx
  exact Comp.bind_error hi

/-! ## Runs from the reset -/

section
variable {β : Type} [Bus β]

/-- The systems a core reaches from its reset at `entry`: its instrumentation and host options may
be set in any way, and between steps others may change what is on the bus. -/
inductive Booted (entry : U32) : Sys β → Prop
  | reset {s : Sys β} (h : s.hart.modes = (Hart.new entry).modes) : Booted entry s
  | step {s : Sys β} (h : Booted entry s) : Booted entry (stepSystem s).2
  | other {s : Sys β} (h : Booted entry s) (bus : β) : Booted entry { s with bus := bus }

/-- A hart is isolated at reset. -/
theorem Booted.isolated {entry : U32} (he : Halfword entry) {s : Sys β} (hs : Booted entry s) :
    s.hart.Isolated := by
  induction hs with
  | @reset s h =>
    have hp : s.hart.privilege = .m := congrArg Modes.privilege h
    have hc : s.hart.csr = Csr.default := congrArg Modes.csr h
    have hpc : s.hart.pc = entry := congrArg Modes.pc h
    refine ⟨⟨?_, ?_⟩, fun _ => hp⟩
    · rw [hpc]
      exact he
    · rw [hc]
      exact ⟨by decide, by decide⟩
  | step _ ih => exact (stepSystem_sysStep ih.even).isolated ih
  | other _ _ ih => exact ih

/-- Privilege isolation over whole runs from an even entry: MPRV is in force in M only and the
addresses to go on at are even; a step raises the mode only by a trap, which never lowers it; a step
below M keeps the machine-level CSRs, and a step within U keeps all but the timer bits of `mip`; and
a forbidden CSR access is an illegal instruction that changes nothing. -/
theorem privilege_isolation {entry : U32} (he : Halfword entry) {s : Sys β} (hs : Booted entry s) :
    s.hart.Isolated ∧
      (stepTrap s = none → (stepSystem s).2.hart.privilege.level ≤ s.hart.privilege.level) ∧
      (∀ cause tval interrupt, stepTrap s = some (cause, tval, interrupt) →
        s.hart.privilege.level ≤ (stepSystem s).2.hart.privilege.level ∧
          ∃ h : Hart, h.privilege = s.hart.privilege ∧
            (stepSystem s).2.hart = h.takeTrap cause tval interrupt) ∧
      (s.hart.privilege ≠ .m → (stepSystem s).2.hart.privilege ≠ .m →
        (stepSystem s).2.hart.csr.machine = s.hart.csr.machine) ∧
      (s.hart.privilege = .u → (stepSystem s).2.hart.privilege = .u →
        (stepSystem s).2.hart.csr = { s.hart.csr with mip := (stepSystem s).2.hart.csr.mip } ∧
          (stepSystem s).2.hart.csr.mip &&& ~~~TIMER_BITS = s.hart.csr.mip &&& ~~~TIMER_BITS) ∧
      ∀ (t : Sys β) (op : CsrOp) (rd src : Reg) (csr : U16) (pc ilen iword : U32),
        Csr.denied csr t.hart.privilege = true ∨
          csrDoesWrite op src = true ∧ readOnlyCsr csr = true →
        execOne (.csr op rd src csr) pc ilen iword t = (.error (.illegal pc iword), t) := by
  have hi := hs.isolated he
  have hstep := stepSystem_sysStep hi.even
  exact ⟨hi, hstep.level.1, hstep.level.2, hstep.machine hi, hstep.user, execOne_forbidden⟩

end

/-- A program that drops to U and reads a machine CSR there: `auipc x1, 0`; `addi x1, x1, 16`;
`csrw mepc, x1`; `mret`; `csrr x2, mstatus`. -/
def userProgram : Sys Mmu where
  cpu := Cpu.new 0x80000000
  bus := { Mmu.new 0x80000000 20 with
    mem := fun o => [0x97, 0x00, 0x00, 0x00, 0x93, 0x80, 0x00, 0x01, 0x73, 0x90, 0x10, 0x34,
      0x73, 0x00, 0x20, 0x30, 0x73, 0x21, 0x00, 0x30].getD o 0
    perms := fun _ => PERM_READ ||| PERM_EXEC }

/-- The hart before its CSR access. -/
def userState : Sys Mmu := (fun s => (stepSystem s).2)^[4] userProgram

/-- The state that the case starts from has booted at its entry. -/
theorem booted_userState : Booted 0x80000000 userState :=
  .step (.step (.step (.step (.reset rfl))))

/-- In U the access is an illegal instruction that changes nothing, and its trap goes to M. -/
theorem privilege_isolation_user :
    userState.hart.privilege = .u ∧ stepTrap userState = some (2, 0x30002173, false) ∧
      userState.hart.Isolated ∧
      execOne (.csr .rs 2 0 0x300) 0x80000010 4 0x30002173 userState =
        (.error (.illegal 0x80000010 0x30002173), userState) ∧
      ∃ h : Hart, h.privilege = .u ∧
        (stepSystem userState).2.hart = h.takeTrap 2 0x30002173 false := by
  have huser : userState.hart.privilege = .u := by decide +kernel
  have htrap : stepTrap userState = some (2, 0x30002173, false) := by decide +kernel
  have hdenied : Csr.denied 0x300 userState.hart.privilege = true := by
    rw [huser]
    decide
  obtain ⟨hisolated, -, hup, -, -, hcsr⟩ := privilege_isolation (by decide) booted_userState
  obtain ⟨-, h, hh, htaken⟩ := hup 2 0x30002173 false htrap
  exact ⟨huser, htrap, hisolated, hcsr userState .rs 2 0 0x300 0x80000010 4 0x30002173 (.inl hdenied),
    h, hh.trans huser, htaken⟩

end FuzzSoft
