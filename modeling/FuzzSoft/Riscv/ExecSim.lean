import FuzzSoft.Riscv.Exec

/-!
# Relations that execution keeps

A relation between two systems, possibly over different buses, is uniform (`Uniform`) when related
systems have the same hart up to the TLB, and fetches, loads and updates of the hart keep it. Then
every instruction keeps it and gives the same exit, provided its own store does (`StoreSim`):
`execOne_sim`, and over a whole step `stepSystem_sim`. Every result about runs of the interpreter
instantiates these two.
-/

namespace FuzzSoft

open Lib

/-! ## What keeps `satp` and the taint tracking -/

/-- The two harts have the same `satp`, and track taint both or neither. -/
def Hart.Kept (h h' : Hart) : Prop :=
  h'.csr.satp = h.csr.satp ∧ h'.regsTaint.isSome = h.regsTaint.isSome

namespace Hart

@[simp] theorem wrReg_regsTaint (h : Hart) (i : Reg) (v : U32) :
    (h.wrReg i v).regsTaint = h.regsTaint := by
  unfold wrReg
  split <;> rfl

@[simp] theorem wrTaint_isSome (h : Hart) (i : Reg) (t : U32) :
    (h.wrTaint i t).regsTaint.isSome = h.regsTaint.isSome := by
  unfold wrTaint
  split
  · rfl
  · split
    next hs => rw [hs]; rfl
    next => rfl

@[simp] theorem wrClean_isSome (h : Hart) (i : Reg) (v : U32) :
    (h.wrClean i v).regsTaint.isSome = h.regsTaint.isSome := by
  simp [wrClean]

@[simp] theorem wrTainted_isSome (h : Hart) (i : Reg) (v t : U32) :
    (h.wrTainted i v t).regsTaint.isSome = h.regsTaint.isSome := by
  simp [wrTainted]

@[simp] theorem logCmp_regsTaint (h : Hart) (a b : U32) :
    (h.logCmp a b).regsTaint = h.regsTaint := by
  unfold logCmp
  split
  · split <;> rfl
  · rfl

@[simp] theorem logUbsan_regsTaint (h : Hart) (pc : U32) :
    (h.logUbsan pc).regsTaint = h.regsTaint := by
  unfold logUbsan
  split
  · split <;> rfl
  · rfl

@[simp] theorem retire_regsTaint (h : Hart) (next : U32) :
    (h.retire next).regsTaint = h.regsTaint := rfl

@[simp] theorem mret_regsTaint (h : Hart) : h.mret.regsTaint = h.regsTaint := rfl

@[simp] theorem sret_regsTaint (h : Hart) : h.sret.regsTaint = h.regsTaint := rfl

@[simp] theorem wrReg_csr (h : Hart) (i : Reg) (v : U32) : (h.wrReg i v).csr = h.csr := by
  unfold wrReg
  split <;> rfl

@[simp] theorem wrTaint_csr (h : Hart) (i : Reg) (t : U32) : (h.wrTaint i t).csr = h.csr := by
  unfold wrTaint
  split
  · rfl
  · split <;> rfl

@[simp] theorem wrClean_csr (h : Hart) (i : Reg) (v : U32) : (h.wrClean i v).csr = h.csr := by
  simp [wrClean]

@[simp] theorem wrTainted_csr (h : Hart) (i : Reg) (v t : U32) :
    (h.wrTainted i v t).csr = h.csr := by
  simp [wrTainted]

@[simp] theorem logCmp_csr (h : Hart) (a b : U32) : (h.logCmp a b).csr = h.csr := by
  unfold logCmp
  split
  · split <;> rfl
  · rfl

@[simp] theorem logUbsan_csr (h : Hart) (pc : U32) : (h.logUbsan pc).csr = h.csr := by
  unfold logUbsan
  split
  · split <;> rfl
  · rfl

@[simp] theorem retire_csr (h : Hart) (next : U32) : (h.retire next).csr = h.csr := rfl

@[simp] theorem mret_satp (h : Hart) : h.mret.csr.satp = h.csr.satp := rfl

@[simp] theorem sret_satp (h : Hart) : h.sret.csr.satp = h.csr.satp := rfl

/-- A trap changes the CSRs, the privilege and the `pc` only. -/
theorem takeTrap_eq (h : Hart) (cause tval : U32) (interrupt : Bool) : ∃ csr p pc,
    h.takeTrap cause tval interrupt = { h with csr := csr, privilege := p, pc := pc } := by
  simp only [takeTrap]
  generalize (if interrupt then h.csr.mideleg else h.csr.medeleg) = deleg
  split <;> exact ⟨_, _, _, rfl⟩

/-- So does a poll for interrupts. -/
theorem pollInterrupt_eq (h : Hart) : ∃ csr p pc,
    h.pollInterrupt.2 = { h with csr := csr, privilege := p, pc := pc } := by
  unfold pollInterrupt
  dsimp only
  split
  next code _ =>
    obtain ⟨csr, p, pc, he⟩ := h.updateTimers.takeTrap_eq (BitVec.ofNat 32 code) 0 true
    exact ⟨csr, p, pc, he⟩
  · exact ⟨_, _, _, rfl⟩

@[simp] theorem takeTrap_satp (h : Hart) (cause tval : U32) (interrupt : Bool) :
    (h.takeTrap cause tval interrupt).csr.satp = h.csr.satp := by
  simp only [takeTrap]
  generalize (if interrupt then h.csr.mideleg else h.csr.medeleg) = deleg
  split <;> rfl

@[simp] theorem takeTrap_regsTaint (h : Hart) (cause tval : U32) (interrupt : Bool) :
    (h.takeTrap cause tval interrupt).regsTaint = h.regsTaint := by
  obtain ⟨csr, p, pc, he⟩ := h.takeTrap_eq cause tval interrupt
  rw [he]

@[simp] theorem pollInterrupt_regsTaint (h : Hart) :
    h.pollInterrupt.2.regsTaint = h.regsTaint := by
  obtain ⟨csr, p, pc, he⟩ := h.pollInterrupt_eq
  rw [he]

@[simp] theorem finishExit_regsTaint (h : Hart) (r : Except Trap Exit) :
    (h.finishExit r).2.regsTaint = h.regsTaint := by
  unfold finishExit
  split <;> try simp only [takeTrap_regsTaint]
  split
  · rfl
  · simp only [takeTrap_regsTaint]

@[simp] theorem pollInterrupt_satp (h : Hart) : h.pollInterrupt.2.csr.satp = h.csr.satp := by
  unfold pollInterrupt
  simp only
  split
  · simp only [takeTrap_satp]
    rfl
  · rfl

@[simp] theorem finishExit_satp (h : Hart) (r : Except Trap Exit) :
    (h.finishExit r).2.csr.satp = h.csr.satp := by
  unfold finishExit
  split <;> try simp only [takeTrap_satp]
  split
  · rfl
  · simp only [takeTrap_satp]

end Hart

section
variable {β γ : Type}

/-! ## Uniform relations -/

/-- Related systems agree on the hart, and updates of the hart that leave its taint tracking on or
off keep the relation: any that leaves `satp` alone, and any at all when the TLB is flushed with
it. -/
structure HartUniform (R : Sys β → Sys γ → Prop) : Prop where
  hart : ∀ {s t}, R s t → s.hart = t.hart
  setHart : ∀ {s t}, R s t → ∀ h : Hart, s.hart.Kept h → R (s.setHart h) (t.setHart h)
  setFlush : ∀ {s t}, R s t → ∀ h : Hart, h.regsTaint.isSome = s.hart.regsTaint.isSome →
    R (s.setHart h).flushTlb (t.setHart h).flushTlb

/-- A relation that fetches and loads keep as well. -/
structure Uniform [Bus β] [Bus γ] (R : Sys β → Sys γ → Prop) : Prop extends HartUniform R where
  fetch16 : ∀ {s t}, R s t → ∀ va, Sim R (fetch16 va) (fetch16 va) s t
  load : ∀ {s t}, R s t → ∀ va size signed,
    Sim R (loadWithTaint va size signed) (loadWithTaint va size signed) s t

/-- A relation under which translation and the queries of the bus agree. -/
structure BusUniform [Bus β] [Bus γ] (R : Sys β → Sys γ → Prop) : Prop extends HartUniform R where
  xlate : ∀ {s t}, R s t → ∀ va access, Sim R (xlate va access) (xlate va access) s t
  load : ∀ {s t}, R s t → ∀ pa size, Bus.load t.bus pa size = Bus.load s.bus pa size
  ifetch16 : ∀ {s t}, R s t → ∀ pa, Bus.ifetch16 t.bus pa = Bus.ifetch16 s.bus pa
  rawState : ∀ {s t}, R s t → ∀ pa len,
    Bus.readRawState t.bus pa len = Bus.readRawState s.bus pa len

variable {R : Sys β → Sys γ → Prop}

namespace HartUniform

variable (hU : HartUniform R) {s : Sys β} {t : Sys γ}
include hU

/-- Related systems may look at their harts. -/
theorem getHart_bind {α : Type} {f : Hart → Exec β α} {g : Hart → Exec γ α} (h : R s t)
    (hf : Sim R (f s.hart) (g s.hart) s t) : Sim R (getHart >>= f) (getHart >>= g) s t :=
  Sim.gets_bind (hU.hart h) hf

/-- An update that keeps what the relation sees keeps it. -/
theorem modifyHart {f : Hart → Hart} (hf : ∀ h : Hart, h.Kept (f h)) (h : R s t) :
    Sim R (modifyHart f) (modifyHart f) s t := by
  refine Sim.modify ?_
  rw [← hU.hart h]
  exact hU.setHart h _ (hf _)

/-- An update of the hart followed by a result. -/
theorem modifyHart_pure {α : Type} {f : Hart → Hart} {a : α}
    (hf : ∀ h : Hart, h.Kept (f h)) (h : R s t) :
    Sim R (FuzzSoft.modifyHart f >>= fun _ => (pure a : Exec β α))
      (FuzzSoft.modifyHart f >>= fun _ => pure a) s t :=
  (hU.modifyHart hf h).bind fun _ _ _ _ _ h' => Sim.pure h'

/-- Both TLBs may be flushed. -/
theorem flushTlb (h : R s t) : Sim R flushTlb flushTlb s t := by
  refine Sim.modify ?_
  have := hU.setFlush h s.hart rfl
  rwa [show t.setHart s.hart = t from by rw [hU.hart h]; rfl] at this

/-- A new CSR file, with a flush if the root of the page table changes. -/
theorem setCsr {c : Csr} {flush : Bool} (hc : flush = true ∨ c.satp = s.hart.csr.satp)
    (h : R s t) : Sim R (setCsr c flush) (setCsr c flush) s t := by
  refine Sim.modify ?_
  simp only [← hU.hart h]
  cases flush with
  | true => exact hU.setFlush h _ rfl
  | false => exact hU.setHart h _ ⟨hc.resolve_left (by simp), rfl⟩

/-- The write of a CSR instruction. -/
theorem writeCsr (op : CsrOp) (src : Reg) (csr : U16) (old : U32) (trap : Trap) (h : R s t) :
    Sim R (writeCsr op src csr old trap) (writeCsr op src csr old trap) s t := by
  refine hU.getHart_bind h ?_
  split
  · cases hw : s.hart.csr.write csr (csrNew op old (s.hart.csrSrc op src)) s.hart.privilege with
    | none => exact Sim.throw h
    | some c =>
      refine hU.setCsr ?_ h
      by_cases hs : csr = SATP
      · exact .inl (by simp [hs])
      · exact .inr (Csr.write_satp hw hs)
  · exact Sim.pure h

/-- A CSR instruction. -/
theorem execCsr (op : CsrOp) (rd src : Reg) (csr : U16) (pc iword : U32) (h : R s t) :
    Sim R (execCsr op rd src csr pc iword) (execCsr op rd src csr pc iword) s t := by
  refine hU.getHart_bind h ?_
  cases s.hart.readCsr csr with
  | none => exact Sim.throw h
  | some old =>
    exact (hU.writeCsr op src csr old _ h).bind fun _ _ _ _ _ h' =>
      hU.modifyHart (by simp [Hart.Kept]) h'

/-- A branch. -/
theorem execBranch (op : BranchOp) (rs1 rs2 : Reg) (imm pc next : U32) (h : R s t) :
    Sim R (execBranch op rs1 rs2 imm pc next) (execBranch op rs1 rs2 imm pc next) s t := by
  refine hU.getHart_bind h ?_
  refine (hU.modifyHart (by simp [Hart.Kept]) h).bind fun _ _ _ _ _ h' => ?_
  split
  · exact Sim.throw h'
  · exact Sim.pure h'

end HartUniform

variable [Bus β] [Bus γ]

/-- The store an instruction makes from `s` and `t`, if it makes one, keeps the relation. -/
def StoreSim (R : Sys β → Sys γ → Prop) (inst : Inst) (s : Sys β) (t : Sys γ) : Prop :=
  match inst with
  | .store op rs1 rs2 imm =>
    let mask := if s.hart.kmsanEnabled then some (s.hart.rdTaint rs2) else none
    Sim R (storeWithTaint (s.hart.rdReg rs1 + imm) op.size (s.hart.rdReg rs2) mask)
      (storeWithTaint (s.hart.rdReg rs1 + imm) op.size (s.hart.rdReg rs2) mask) s t
  | .scW _ rs1 rs2 _ _ =>
    s.hart.reservation = some (s.hart.rdReg rs1) →
      Sim R (storeImpl (s.hart.rdReg rs1) 4 (s.hart.rdReg rs2))
        (storeImpl (s.hart.rdReg rs1) 4 (s.hart.rdReg rs2)) s t
  | .amoW op rd rs1 rs2 _ _ =>
    Sim R (amoAccess op rd (s.hart.rdReg rs1) (s.hart.rdReg rs2))
      (amoAccess op rd (s.hart.rdReg rs1) (s.hart.rdReg rs2)) s t
  | _ => True

namespace Uniform

variable (hU : Uniform R) {s : Sys β} {t : Sys γ}
include hU

/-- Every instruction, given that of a store. -/
theorem execInst {inst : Inst} (pc next iword : U32) (h : R s t) (hs : StoreSim R inst s t) :
    Sim R (execInst inst pc next iword) (execInst inst pc next iword) s t := by
  have hH := hU.toHartUniform
  refine hH.getHart_bind h ?_
  cases inst with
  | lui | auipc | jal | jalr | opImm => exact hH.modifyHart_pure (by simp [Hart.Kept]) h
  | branch op rs1 rs2 imm =>
    exact (hH.execBranch op rs1 rs2 imm pc next h).bind fun _ _ _ _ _ h' => Sim.pure h'
  | load op rd rs1 imm =>
    exact (hU.load h _ _ _).bind fun _ _ _ _ _ h' => hH.modifyHart_pure (by simp [Hart.Kept]) h'
  | store op rs1 rs2 imm =>
    refine Sim.bind ?_ fun _ _ _ _ _ h' => Sim.pure h'
    refine hH.getHart_bind h ?_
    exact Sim.bind hs fun _ _ _ _ _ h' => Sim.pure h'
  | op op rd rs1 rs2 =>
    refine hH.modifyHart_pure (fun h => ?_) h
    dsimp only
    split <;> simp [Hart.Kept]
  | mul op rd rs1 rs2 =>
    refine hH.modifyHart_pure (fun h => ?_) h
    dsimp only
    split <;> simp [Hart.Kept]
  | lrW rd rs1 aq rl =>
    exact (hU.load h _ _ _).bind fun _ _ _ _ _ h' => hH.modifyHart_pure (by simp [Hart.Kept]) h'
  | scW rd rs1 rs2 aq rl =>
    refine Sim.bind ?_ fun _ _ _ _ _ h' => hH.modifyHart_pure (by simp [Hart.Kept]) h'
    unfold storeIf
    split
    next hr => exact hs (of_decide_eq_true hr)
    next => exact Sim.pure h
  | amoW op rd rs1 rs2 aq rl =>
    exact Sim.bind hs fun _ _ _ _ _ h' => hH.modifyHart_pure (by simp [Hart.Kept]) h'
  | fence | wfi | ecall | ebreak => exact Sim.pure h
  | csr op rd src csr =>
    exact (hH.execCsr op rd src csr pc iword h).bind fun _ _ _ _ _ h' => Sim.pure h'
  | mret | sret =>
    dsimp only
    split
    · exact Sim.throw h
    · exact hH.modifyHart_pure (by simp [Hart.Kept]) h
  | sfenceVma => exact (hH.flushTlb h).bind fun _ _ _ _ _ h' => Sim.pure h'
  | illegal raw => exact Sim.throw h

/-- One instruction keeps a uniform relation that its own store keeps. -/
theorem execOne {inst : Inst} (pc ilen iword : U32) (h : R s t) (hs : StoreSim R inst s t) :
    Sim R (execOne inst pc ilen iword) (execOne inst pc ilen iword) s t :=
  (hU.execInst pc (pc + ilen) iword h hs).bind fun _ _ _ _ _ h' =>
    hU.toHartUniform.modifyHart_pure (by simp [Hart.Kept]) h'

/-- The fetch of an instruction. -/
theorem fetchDecode (pc : U32) (h : R s t) : Sim R (fetchDecode pc) (fetchDecode pc) s t := by
  refine (hU.fetch16 h pc).bind fun lo s' t' _ _ h' => ?_
  split
  · exact Sim.pure h'
  · exact (hU.fetch16 h' (pc + 2)).bind fun _ _ _ _ _ h'' => Sim.pure h''

end Uniform

/-- The store of the instruction that the two systems fetch keeps the relation. -/
def StepStoreSim (R : Sys β → Sys γ → Prop) (s : Sys β) (t : Sys γ) : Prop :=
  ∀ f s' t', fetchDecode s.hart.pc s = (.ok f, s') → fetchDecode s.hart.pc t = (.ok f, t') →
    R s' t' → StoreSim R f.inst s' t'

namespace Uniform

variable (hU : Uniform R) {s : Sys β} {t : Sys γ}
include hU

/-- A step, given the stores that it may make. -/
theorem step (h : R s t) (hs : StepStoreSim R s t) : Sim R step step s t := by
  refine hU.toHartUniform.getHart_bind h ?_
  refine (hU.fetchDecode s.hart.pc h).bind fun f s' t' hf hf' h' => ?_
  exact hU.execOne _ _ _ h' (hs f s' t' hf hf' h')

/-- The handling of an exit looks at the hart only. -/
theorem finishExit (r : Except Trap Exit) (h : R s t) :
    (t.finishExit r).1 = (s.finishExit r).1 ∧ R (s.finishExit r).2 (t.finishExit r).2 := by
  have hh := hU.hart h
  refine ⟨by simp only [Sys.finishExit, hh], ?_⟩
  simp only [Sys.finishExit, ← hh]
  exact hU.setHart h _ (by simp [Hart.Kept])

/-- The system after an interrupt poll that took nothing. -/
theorem pollInterrupt (h : R s t) :
    R (s.setHart s.hart.pollInterrupt.2) (t.setHart t.hart.pollInterrupt.2) := by
  rw [← hU.hart h]
  exact hU.setHart h _ (by simp [Hart.Kept])

/-- A full-system step keeps a uniform relation and gives the same exit, provided the store of the
instruction it executes keeps the relation. -/
theorem stepSystem (h : R s t)
    (hs : s.hart.pollInterrupt.1 = false →
      StepStoreSim R (s.setHart s.hart.pollInterrupt.2) (t.setHart s.hart.pollInterrupt.2)) :
    (stepSystem t).1 = (stepSystem s).1 ∧ R (stepSystem s).2 (stepSystem t).2 := by
  have hp := hU.pollInterrupt h
  unfold FuzzSoft.stepSystem
  rw [← hU.hart h] at hp ⊢
  simp only
  split
  · exact ⟨rfl, hp⟩
  next hne =>
    have hstep := hU.step hp (hs (by simpa using hne))
    rw [hstep.out]
    exact hU.finishExit _ hstep.rel

end Uniform

/-! ## From bus accesses to guest accesses -/

section
variable {s : Sys β} {t : Sys γ}

omit [Bus β] [Bus γ] in
/-- A gather, given one of its bytes. -/
theorem gather_sim {one : U32 → Exec β U32} {one' : U32 → Exec γ U32}
    (hone : ∀ {s t}, R s t → ∀ va, Sim R (one va) (one' va) s t) (va : U32) (i n : Nat)
    (h : R s t) : Sim R (gather one va i n) (gather one' va i n) s t := by
  induction n generalizing i s t with
  | zero => exact Sim.pure h
  | succ n ih =>
    refine (hone h _).bind fun _ _ _ _ _ h' => ?_
    exact (ih (i + 1) h').bind fun _ _ _ _ _ h'' => Sim.pure h''

omit [Bus β] [Bus γ] in
/-- A scatter, given one of its bytes. -/
theorem scatter_sim {one : U32 → Nat → Exec β Unit} {one' : U32 → Nat → Exec γ Unit} {va : U32}
    {i n : Nat} (hone : ∀ {s t}, R s t → ∀ j, i ≤ j → j < i + n →
      Sim R (one (va + BitVec.ofNat 32 j) j) (one' (va + BitVec.ofNat 32 j) j) s t)
    (h : R s t) : Sim R (scatter one va i n) (scatter one' va i n) s t := by
  induction n generalizing i s t with
  | zero => exact Sim.pure h
  | succ n ih =>
    refine (hone h i (Nat.le_refl i) (by omega)).bind fun _ _ _ _ _ h' => ?_
    exact ih (fun h j hj hj' => hone h j (by omega) (by omega)) h'

end

namespace BusUniform

variable (hU : BusUniform R) {s : Sys β} {t : Sys γ}
include hU

/-- A bus load. -/
theorem busLoad (pa : U32) (size : Nat) (h : R s t) :
    Sim R (busLoad pa size) (busLoad pa size) s t :=
  ⟨by simp only [FuzzSoft.busLoad, hU.load h], h⟩

/-- A read of the marks of a span. -/
theorem busRawState (pa : U32) (len : Nat) (h : R s t) :
    Sim R (busRawState pa len) (busRawState pa len) s t :=
  ⟨by simp only [FuzzSoft.busRawState, Comp.gets_apply, hU.rawState h], h⟩

/-- The fetch of a halfword. -/
theorem fetch16 (va : U32) (h : R s t) : Sim R (fetch16 va) (fetch16 va) s t := by
  refine (hU.xlate h va .exec).bind fun pa s' t' _ _ h' => ?_
  exact ⟨by simp only [busIfetch16, hU.ifetch16 h'], h'⟩

/-- A load, on one page or over two. -/
theorem loadImpl (va : U32) (size : Nat) (signed : Bool) (h : R s t) :
    Sim R (loadImpl va size signed) (loadImpl va size signed) s t := by
  refine Sim.bind ?_ fun _ _ _ _ _ h' => Sim.pure h'
  unfold loadSpan
  split
  · refine gather_sim (fun h va => ?_) va 0 size h
    refine (hU.xlate h va .read).bind fun pa _ _ _ _ h' => ?_
    exact (hU.busLoad pa 1 h').bind fun _ _ _ _ _ h'' => Sim.pure h''
  · exact (hU.xlate h va .read).bind fun pa _ _ _ _ h' => hU.busLoad pa size h'

/-- The taint of a load. -/
theorem loadTaint (va : U32) (size : Nat) (h : R s t) :
    Sim R (loadTaint va size) (loadTaint va size) s t := by
  unfold FuzzSoft.loadTaint
  split
  · refine gather_sim (fun h va => ?_) va 0 size h
    exact (hU.xlate h va .read).bind fun pa _ _ _ _ h' => hU.busRawState pa 1 h'
  · exact (hU.xlate h va .read).bind fun pa _ _ _ _ h' => hU.busRawState pa size h'

/-- A load with its taint. -/
theorem loadWithTaint (va : U32) (size : Nat) (signed : Bool) (h : R s t) :
    Sim R (loadWithTaint va size signed) (loadWithTaint va size signed) s t := by
  refine (hU.loadImpl va size signed h).bind fun v s' t' _ _ h' => ?_
  refine hU.toHartUniform.getHart_bind h' ?_
  split
  · exact (hU.loadTaint va size h').bind fun _ _ _ _ _ h'' => Sim.pure h''
  · exact Sim.pure h'

/-- Agreement of translation and of the bus queries is enough for fetches and loads. -/
theorem uniform : Uniform R where
  toHartUniform := hU.toHartUniform
  fetch16 h va := hU.fetch16 va h
  load h va size signed := hU.loadWithTaint va size signed h

/-- A translated store, given that the bus store of each translated address keeps the relation. -/
theorem storeImpl {va : U32} {size : Nat} {val : U32}
    (hst : ∀ {s t}, R s t → ∀ i, i < size → ∀ pa n v, ∀ s' t',
      FuzzSoft.xlate (va + BitVec.ofNat 32 i) .write s = (.ok pa, s') →
      FuzzSoft.xlate (va + BitVec.ofNat 32 i) .write t = (.ok pa, t') → R s' t' →
      Sim R (busStore pa n v) (busStore pa n v) s' t')
    (hsize : 0 < size) (h : R s t) : Sim R (storeImpl va size val) (storeImpl va size val) s t := by
  unfold FuzzSoft.storeImpl
  split
  · refine scatter_sim (fun h j _ hj => ?_) h
    refine (hU.xlate h _ .write).bind fun pa s' t' hx hx' h' => ?_
    exact hst h j (by omega) pa _ _ s' t' hx hx' h'
  · refine (hU.xlate h va .write).bind fun pa s' t' hx hx' h' => ?_
    have h0 : va + BitVec.ofNat 32 0 = va := BitVec.add_zero va
    exact hst h 0 hsize pa _ _ s' t' (by rw [h0]; exact hx) (by rw [h0]; exact hx') h'

end BusUniform

end

end FuzzSoft
