import FuzzSoft.Platform.Instrumented
import FuzzSoft.Platform.Snapshot
import FuzzSoft.Platform.TaintStores

/-!
# Taint tracking and information flow

Two runs from systems that differ in tainted bytes only. The operations whose taint rule is said to be
sound are the bitwise ones and the comparisons, and the M-extension taints a whole result; a program
that uses tainted operands in no other operation (`Inst.Admitted`) should run alike from both systems.
It does so as long as a comparison taints the byte that its result is in, and as long as no tainted
byte is executed, walked as a page table, or stored without its taint (`Inst.Covered`): every
instruction keeps linked systems linked (`Linked.execInst`), and so does a run (`taint_sound`).
-/

namespace FuzzSoft

open Lib

section
variable {β : Type} [Bus β] [RamBus β] [TaintRam β]

/-- The taint of the word that an AMO reads. -/
def AmoUntainted (va : U32) (s : Sys β) : Prop :=
  match xlate va .write s with
  | (.ok pa, s') => Untainted (Bus.readRawState s'.bus pa 4)
  | (.error _, _) => True

instance (va : U32) (s : Sys β) : Decidable (AmoUntainted va s) :=
  show Decidable (match xlate va .write s with
    | (.ok pa, s') => Untainted (Bus.readRawState s'.bus pa 4)
    | (.error _, _) => True) from
  match xlate va .write s with
  | (.ok _, _) => inferInstanceAs (Decidable (Untainted _))
  | (.error _, _) => isTrue trivial

/-- The registers that an `ecall` reads: its number when hypercalls are intercepted, and the operand of
a hypercall. -/
def Hart.CallUntainted (h : Hart) : Prop :=
  h.hypercallEid.isSome = true → Untainted (h.rdTaint 17) ∧
    (h.hypercallEid = some (h.regs 17) → Untainted (h.rdTaint 10))

instance (h : Hart) : Decidable h.CallUntainted := inferInstanceAs (Decidable (_ → _ ∧ (_ → _)))

/-- The instruction uses tainted operands only in bitwise operations, comparisons, the M-extension,
branches, and as values that it loads or stores. -/
def Inst.Admitted (inst : Inst) (s : Sys β) : Prop :=
  match inst with
  | .jalr _ rs1 _ | .load _ _ rs1 _ | .store _ rs1 _ _ | .lrW _ rs1 _ _ | .scW _ rs1 _ _ _ =>
    Untainted (s.hart.rdTaint rs1)
  | .opImm f _ rs1 _ => f.tracked = true ∨ Untainted (s.hart.rdTaint rs1)
  | .op f _ rs1 rs2 =>
    f.tracked = true ∨ Untainted (s.hart.rdTaint rs1) ∧ Untainted (s.hart.rdTaint rs2)
  | .amoW _ _ rs1 rs2 _ _ => Untainted (s.hart.rdTaint rs1) ∧ Untainted (s.hart.rdTaint rs2) ∧
      AmoUntainted (s.hart.rdReg rs1) s
  | .csr f _ src _ =>
    match f with
    | .rwi | .rsi | .rci => True
    | _ => Untainted (s.hart.rdTaint src)
  | .ecall => s.hart.CallUntainted
  | _ => True

instance Inst.Admitted.decidable (s : Sys β) : ∀ inst : Inst, Decidable (inst.Admitted s)
  | .jalr _ _ _ | .load _ _ _ _ | .store _ _ _ _ | .lrW _ _ _ _ | .scW _ _ _ _ _ =>
    inferInstanceAs (Decidable (Untainted _))
  | .opImm _ _ _ _ => inferInstanceAs (Decidable (_ ∨ _))
  | .op _ _ _ _ => inferInstanceAs (Decidable (_ ∨ _ ∧ _))
  | .amoW _ _ _ _ _ _ => inferInstanceAs (Decidable (_ ∧ _ ∧ _))
  | .csr f _ _ _ =>
    match f with
    | .rwi | .rsi | .rci => isTrue trivial
    | .rw | .rs | .rc => inferInstanceAs (Decidable (Untainted _))
  | .ecall => inferInstanceAs (Decidable (Hart.CallUntainted _))
  | .lui _ _ | .auipc _ _ | .jal _ _ | .branch _ _ _ _ | .mul _ _ _ _ | .fence | .wfi | .ebreak | .mret
  | .sret | .sfenceVma | .illegal _ => isTrue trivial

variable [TwinBus β]

/-- The store of a value with the taint `mask` is covered: its translations are, and its tainted bytes
take their taint along. -/
def StoreCovered (scatters : Bool) (val mask va : U32) (size : Nat) (s : Sys β) : Prop :=
  StoreClean val mask va size s ∧ Carried scatters val mask va size s

instance (scatters : Bool) (val mask va : U32) (size : Nat) (s : Sys β) :
    Decidable (StoreCovered scatters val mask va size s) :=
  inferInstanceAs (Decidable (_ ∧ _))

/-- An AMO whose store is refused has an untainted destination: the taint of `rd` is written before the
store, its value after it. -/
def AmoCovered (op : AmoOp) (rd : Reg) (va src : U32) (s : Sys β) : Prop :=
  WalkClean .idle s va .write ∧
    match xlate va .write s with
    | (.ok pa, s') =>
      match Bus.load s'.bus pa 4 with
      | .ok v => (Bus.store s'.bus pa 4 (amoResult op v src)).1.isOk = true ∨
          Untainted (s.hart.rdTaint rd)
      | .error _ => True
    | (.error _, _) => True

instance (op : AmoOp) (rd : Reg) (va src : U32) (s : Sys β) : Decidable (AmoCovered op rd va src s) :=
  @instDecidableAnd _ _ _ <|
    match xlate va .write s with
    | (.ok pa, s') =>
      show Decidable (match Bus.load s'.bus pa 4 with
        | .ok v => (Bus.store s'.bus pa 4 (amoResult op v src)).1.isOk = true ∨
            Untainted (s.hart.rdTaint rd)
        | .error _ => True) from
      match Bus.load s'.bus pa 4 with
      | .ok _ => inferInstanceAs (Decidable (_ = true ∨ Untainted _))
      | .error _ => isTrue trivial
    | (.error _, _) => isTrue trivial

/-- Where the instruction has a tainted operand, the taint of its result covers what it depends on. -/
def Inst.Covered (inst : Inst) (s : Sys β) : Prop :=
  match inst with
  | .opImm f rd rs1 _ => rd = 0 ∨ f.Covered (s.hart.rdTaint rs1)
  | .op f rd rs1 rs2 => rd = 0 ∨ f.Covered (s.hart.rdTaint rs1 ||| s.hart.rdTaint rs2)
  | .load f _ rs1 imm => LoadClean (s.hart.rdReg rs1 + imm) f.size s
  | .lrW _ rs1 _ _ => LoadClean (s.hart.rdReg rs1) 4 s
  | .store f rs1 rs2 imm =>
    StoreCovered true (s.hart.rdReg rs2) (s.hart.rdTaint rs2) (s.hart.rdReg rs1 + imm) f.size s ∧
      (f = .sw → s.hart.htifTohost = some (s.hart.rdReg rs1 + imm) →
        taintBit (s.hart.rdTaint rs2) 0 = false)
  | .scW _ rs1 rs2 _ _ => s.hart.reservation = some (s.hart.rdReg rs1) →
      StoreCovered false (s.hart.rdReg rs2) (s.hart.rdTaint rs2) (s.hart.rdReg rs1) 4 s
  | .amoW f rd rs1 rs2 _ _ => AmoCovered f rd (s.hart.rdReg rs1) (s.hart.rdReg rs2) s
  | _ => True

instance Inst.Covered.decidable (s : Sys β) : ∀ inst : Inst, Decidable (inst.Covered s)
  | .opImm _ _ _ _ | .op _ _ _ _ => inferInstanceAs (Decidable (_ ∨ AluOp.Covered _ _))
  | .load _ _ _ _ | .lrW _ _ _ _ => inferInstanceAs (Decidable (LoadClean _ _ _))
  | .store _ _ _ _ => inferInstanceAs (Decidable (StoreCovered _ _ _ _ _ _ ∧ (_ → _ → _)))
  | .scW _ _ _ _ _ => inferInstanceAs (Decidable (_ → StoreCovered _ _ _ _ _ _))
  | .amoW _ _ _ _ _ _ => inferInstanceAs (Decidable (AmoCovered _ _ _ _ _))
  | .jalr _ _ _ | .csr _ _ _ _ | .ecall | .lui _ _ | .auipc _ _ | .jal _ _ | .branch _ _ _ _
  | .mul _ _ _ _ | .fence | .wfi | .ebreak | .mret | .sret | .sfenceVma | .illegal _ => isTrue trivial

/-! ## Instructions -/

/-- The two exits are the same, but for the code of a halt. -/
def Exit.Alike (e e' : Exit) : Prop := e' = e ∨ ∃ a b, e = .halt a ∧ e' = .halt b

/-- What linked systems make of an instruction: they stay linked and leave alike. A hypercall has its
operands untainted. -/
structure Executed (r : Exit) (s' : Sys β) (r' : Exit) (t' : Sys β) : Prop where
  linked : Linked .idle s' t'
  exit : r.Alike r'
  call : r = .ecall → s'.hart.CallUntainted

omit [RamBus β] [TaintRam β] [TwinBus β] in
/-- A word that the hart loads comes from the bus. -/
theorem busLoad_eq_ok {pa v : U32} {n : Nat} {u u₁ : Sys β} (h : busLoad pa n u = (.ok v, u₁)) :
    Bus.load u.bus pa n = .ok v := by
  unfold busLoad at h
  cases hb : Bus.load u.bus pa n with
  | error f =>
    rw [hb] at h
    cases h
  | ok x =>
    rw [hb] at h
    cases h
    rfl

omit [RamBus β] [TaintRam β] [TwinBus β] in
/-- The run of an AMO once its word is translated and loaded. -/
theorem amoAccess_run (op : AmoOp) (rd : Reg) (src : U32) {va pa v : U32} {u u₁ : Sys β}
    (hx : xlate va .write u = (.ok pa, u₁)) (hl : busLoad pa 4 u₁ = (.ok v, u₁))
    (hk : u₁.hart.kmsanEnabled = true) :
    amoAccess op rd va src u =
      (((Bus.store u₁.bus pa 4 (amoResult op v src)).1.mapError .mem).map fun _ => v,
        ⟨(u₁.setHart (u₁.hart.wrTaint rd (Bus.readRawState u₁.bus pa 4))).cpu,
          (Bus.store u₁.bus pa 4 (amoResult op v src)).2⟩) := by
  refine (Comp.bind_ok hx).trans ((Comp.bind_ok hl).trans ?_)
  change (busStore pa 4 (amoResult op v src) >>= fun _ => pure v)
    (u₁.setHart (if u₁.hart.kmsanEnabled then
      u₁.hart.wrTaint rd (Bus.readRawState u₁.bus pa 4) else u₁.hart)) = _
  rw [if_pos hk]
  cases hr : (Bus.store u₁.bus pa 4 (amoResult op v src)).1 with
  | error f =>
    refine Comp.bind_error ?_
    unfold busStore
    dsimp only
    rw [Sys.bus_setHart, hr]
    rfl
  | ok r =>
    refine Comp.bind_ok (a := ()) ?_
    unfold busStore
    dsimp only
    rw [Sys.bus_setHart, hr]
    rfl

namespace Linked

variable {s t : Sys β}

/-- An update of the harts after which execution goes on. -/
theorem update (h : Linked .idle s t) {f g : Hart → Hart} (hfg : HartTwins (f s.hart) (g t.hart))
    {p : Exit × U32} (hp : p.1 ≠ .ecall) :
    Relates (fun r s' r' t' => Executed r.1 s' r'.1 t' ∧ r'.2 = r.2) (Linked .idle)
      (FuzzSoft.modifyHart f >>= fun _ => (pure p : Exec β (Exit × U32)))
      (FuzzSoft.modifyHart g >>= fun _ => pure p) s t :=
  .inr ⟨p, s.setHart (f s.hart), p, t.setHart (g t.hart), rfl, rfl,
    ⟨h.setHart hfg, .inl rfl, fun hr => absurd hr hp⟩, rfl⟩

theorem execStore (h : Linked .idle s t) {op : StoreOp} {rs1 rs2 : Reg} {imm : U32}
    (ha : Untainted (s.hart.rdTaint rs1)) (hc : (Inst.store op rs1 rs2 imm).Covered s) :
    Relates (fun r s' r' t' => Executed r s' r' t') (Linked .idle)
      (execStore op rs1 rs2 imm) (execStore op rs1 rs2 imm) s t := by
  have hn : AccessSize op.size := by cases op <;> simp [AccessSize, StoreOp.size]
  have hreg := h.hart.eq_of_untainted ha
  have hk : t.hart.kmsanEnabled = true :=
    (h.hart.view (p := Hart.kmsanEnabled) fun _ => rfl).trans h.hart.kmsan
  have htohost : t.hart.htifTohost = s.hart.htifTohost :=
    h.hart.view (p := Hart.htifTohost) fun _ => rfl
  obtain ⟨⟨hclean, hsafe⟩, hhalt⟩ := hc
  have hst := h.storeWithTaint hn (h.hart.bytes rs2) hclean hsafe
  have hx : ∀ (u : Sys β), u.hart.kmsanEnabled = true → FuzzSoft.execStore op rs1 rs2 imm u =
      (FuzzSoft.storeWithTaint (u.hart.rdReg rs1 + imm) op.size (u.hart.rdReg rs2)
          (some (u.hart.rdTaint rs2)) >>= fun _ =>
        pure (if op = .sw ∧ u.hart.htifTohost = some (u.hart.rdReg rs1 + imm) ∧
          u.hart.rdReg rs2 &&& 1 ≠ 0 then .halt (u.hart.rdReg rs2 >>> 1) else .continue)) u := by
    intro u hu
    unfold FuzzSoft.execStore getHart
    rw [Comp.gets_bind, if_pos hu]
  unfold Relates
  rw [hx s h.hart.kmsan, hx t hk, hreg, htohost, h.hart.rdTaint]
  refine (Relates.of_sim hst).bind fun _ s' _ t' _ _ hst' => Relates.pure ⟨hst'.2, ?_, ?_⟩
  · by_cases hto : op = .sw ∧ s.hart.htifTohost = some (s.hart.rdReg rs1 + imm)
    · -- a store to `tohost`: bit 0 decides, and its byte is untainted
      have hbyte := h.hart.bytes rs2 0 (by decide) (hhalt hto.1 hto.2)
      have hbit : t.hart.rdReg rs2 &&& 1 = s.hart.rdReg rs2 &&& 1 := by
        have h1 := byte_eq (i := 0) hbyte
        have key : ∀ x : U32, x &&& (1 : U32) = ((x >>> (8 * 0)) &&& (0xff : U32)) &&& (1 : U32) := by
          intro x
          rw [Nat.mul_zero, BitVec.ushiftRight_zero, BitVec.and_assoc]
          rfl
        rw [key, key (s.hart.rdReg rs2), h1]
      rw [hbit]
      split
      · exact .inr ⟨_, _, rfl, rfl⟩
      · exact .inl rfl
    · rw [if_neg fun hh => hto ⟨hh.1, hh.2.1⟩, if_neg fun hh => hto ⟨hh.1, hh.2.1⟩]
      exact .inl rfl
  · split <;> rintro ⟨⟩

/-- The write of a CSR instruction whose operand is untainted. -/
theorem writeCsr (h : Linked .idle s t) {op : CsrOp} {src : Reg} {csr : U16} {old : U32} {trap : Trap}
    (hsrc : t.hart.csrSrc op src = s.hart.csrSrc op src) :
    Sim (Linked .idle) (writeCsr op src csr old trap) (writeCsr op src csr old trap) s t := by
  have hcsr : t.hart.csr = s.hart.csr := h.hart.view (p := Hart.csr) fun _ => rfl
  have hpriv : t.hart.privilege = s.hart.privilege := h.hart.view (p := Hart.privilege) fun _ => rfl
  have hx : ∀ u : Sys β, FuzzSoft.writeCsr op src csr old trap u =
      (if csrDoesWrite op src then
        (u.hart.csr.write csr (csrNew op old (u.hart.csrSrc op src)) u.hart.privilege).elim
          (Comp.throw trap) (setCsr · (csr = SATP))
      else pure () : Exec β Unit) u := by
    intro u
    unfold FuzzSoft.writeCsr
    split
    · rw [getHart, Comp.gets_bind]
      cases u.hart.csr.write csr (csrNew op old (u.hart.csrSrc op src)) u.hart.privilege <;> rfl
    · rfl
  have key : ∀ c flush, Sim (Linked .idle) (setCsr c flush) (setCsr c flush) s t := by
    intro c flush
    refine Sim.modify ?_
    cases flush with
    | true => exact (h.setHart (h.hart.setCsr c)).flushTlb
    | false => exact h.setHart (h.hart.setCsr c)
  have hsim : Sim (Linked .idle)
      (if csrDoesWrite op src then
        (s.hart.csr.write csr (csrNew op old (s.hart.csrSrc op src)) s.hart.privilege).elim
          (Comp.throw trap) (setCsr · (csr = SATP))
      else pure () : Exec β Unit)
      (if csrDoesWrite op src then
        (s.hart.csr.write csr (csrNew op old (s.hart.csrSrc op src)) s.hart.privilege).elim
          (Comp.throw trap) (setCsr · (csr = SATP))
      else pure () : Exec β Unit) s t := by
    split
    · cases s.hart.csr.write csr (csrNew op old (s.hart.csrSrc op src)) s.hart.privilege with
      | none => exact Sim.throw h
      | some c => exact key c _
    · exact Sim.pure h
  refine ⟨?_, ?_⟩
  · rw [hx s, hx t, hcsr, hpriv, hsrc]
    exact hsim.out
  · rw [hx s, hx t, hcsr, hpriv, hsrc]
    exact hsim.rel

theorem execCsr (h : Linked .idle s t) {op : CsrOp} {rd src : Reg} {csr : U16} {pc iword : U32}
    (hsrc : t.hart.csrSrc op src = s.hart.csrSrc op src) :
    Sim (Linked .idle) (execCsr op rd src csr pc iword) (execCsr op rd src csr pc iword) s t := by
  have hread : t.hart.readCsr csr = s.hart.readCsr csr :=
    h.hart.view (p := fun h => h.readCsr csr) fun _ => rfl
  have hx : ∀ u : Sys β, FuzzSoft.execCsr op rd src csr pc iword u =
      ((u.hart.readCsr csr).elim (Comp.throw (.illegal pc iword)) fun old => do
        FuzzSoft.writeCsr op src csr old (.illegal pc iword)
        FuzzSoft.modifyHart (·.wrClean rd old) : Exec β Unit) u := by
    intro u
    rw [FuzzSoft.execCsr, getHart, Comp.gets_bind]
    cases u.hart.readCsr csr <;> rfl
  have hsim : Sim (Linked .idle)
      ((s.hart.readCsr csr).elim (Comp.throw (.illegal pc iword)) fun old => do
        FuzzSoft.writeCsr op src csr old (.illegal pc iword)
        FuzzSoft.modifyHart (·.wrClean rd old) : Exec β Unit)
      ((s.hart.readCsr csr).elim (Comp.throw (.illegal pc iword)) fun old => do
        FuzzSoft.writeCsr op src csr old (.illegal pc iword)
        FuzzSoft.modifyHart (·.wrClean rd old) : Exec β Unit) s t := by
    cases s.hart.readCsr csr with
    | none => exact Sim.throw h
    | some old =>
      exact (h.writeCsr hsrc).bind fun _ _ _ _ _ h' => h'.modifyHart (h'.hart.wrClean rd old)
  refine ⟨?_, ?_⟩
  · rw [hx s, hx t, hread]
    exact hsim.out
  · rw [hx s, hx t, hread]
    exact hsim.rel

/-- An AMO on untainted operands. Between its two accesses the destination has the new mask with the
old value, which is why a fault of the store matters. -/
theorem amoAccess (h : Linked .idle s t) {op : AmoOp} {rd : Reg} {va src : U32}
    (hu : AmoUntainted va s) (hc : AmoCovered op rd va src s) :
    Relates (fun old s' old' t' => old' = old ∧
        Linked .idle (s'.setHart ({ s'.hart with reservation := none }.wrReg rd old))
          (t'.setHart ({ t'.hart with reservation := none }.wrReg rd old)))
      (Linked .idle) (amoAccess op rd va src) (amoAccess op rd va src) s t := by
  obtain ⟨hwalk, hfault⟩ := hc
  rcases Relates.of_sim (h.xlate hwalk) with ⟨e, s₁, t₁, hs, ht, h₁⟩ | ⟨pa, s₁, pa', t₁, hs, ht, rfl, h₁⟩
  · exact .inl ⟨e, s₁, t₁, Comp.bind_error hs, Comp.bind_error ht, h₁⟩
  unfold AmoUntainted at hu
  rw [hs] at hu hfault
  rcases h₁.busLoad (n := 4) (.inr (.inr rfl)) with
    ⟨e, s₂, t₂, hl, hl', h₂⟩ | ⟨v, s₂, w, t₂, hl, hl', rfl, rfl, heq⟩
  · exact .inl ⟨e, s₂, t₂, (Comp.bind_ok hs).trans (Comp.bind_error hl),
      (Comp.bind_ok ht).trans (Comp.bind_error hl'), h₂⟩
  obtain rfl : v = w := eq_of_bytes fun i hi => heq i hi fun _ hback => by
    have hbit := hu i hi
    rwa [TaintRam.rawState h₁.bus.ok (by decide) hback, taintBit_rawMask (by decide) hi,
      decide_eq_true hi, Bool.true_and] at hbit
  have hraw : Bus.readRawState t₂.bus pa' 4 = Bus.readRawState s₂.bus pa' 4 :=
    TwinBus.rawState h₁.bus.rest h₁.bus.ok h₁.bus.ok' (by decide) h₁.bus.perms
  have hk' : t₂.hart.kmsanEnabled = true :=
    (h₁.hart.view (p := Hart.kmsanEnabled) fun _ => rfl).trans h₁.hart.kmsan
  obtain ⟨hstore, hbus⟩ := h₁.bus.store_same (v := amoResult op v src) (n := 4) (.inr (.inr rfl))
  have hrun := amoAccess_run op rd src hs hl h₁.hart.kmsan
  have hrun' := amoAccess_run op rd src ht hl' hk'
  rw [hraw, hstore] at hrun'
  cases hr : (Bus.store s₂.bus pa' 4 (amoResult op v src)).1 with
  | error f =>
    rw [hr] at hrun hrun'
    refine .inl ⟨_, _, _, hrun, hrun', h₁.hart.wrTaint fun _ i hi hm => ?_, h₁.tlb, hbus⟩
    have hkeep : s₂.hart = s.hart := by
      have := xlate_keeps va .write s
      rwa [hs] at this
    have hload : Bus.load s₂.bus pa' 4 = .ok v := busLoad_eq_ok hl
    dsimp only at hfault
    rw [hload] at hfault
    rcases hfault with hok | hclean
    · rw [hr] at hok
      cases hok
    · rw [hkeep, hclean i hi] at hm
      cases hm
  | ok u =>
    rw [hr] at hrun hrun'
    refine .inr ⟨_, _, _, _, hrun, hrun', rfl, ?_, h₁.tlb, hbus⟩
    generalize Bus.readRawState s₂.bus pa' 4 = raw
    have hcomm : ∀ h : Hart, { h.wrTaint rd raw with reservation := none }.wrReg rd v =
        { h.wrTainted rd v raw with reservation := none } := by
      intro h
      unfold Hart.wrTainted Hart.wrReg
      split <;> rfl
    change HartTwins ({ s₂.hart.wrTaint rd raw with reservation := none }.wrReg rd v)
      ({ t₂.hart.wrTaint rd raw with reservation := none }.wrReg rd v)
    rw [hcomm, hcomm]
    exact (h₁.hart.wrTainted fun _ => .refl raw v).reserve none

/-- A branch on untainted operands goes the same way, and one with a tainted operand stops both runs. -/
theorem execBranch (h : Linked .idle s t) (op : BranchOp) (rs1 rs2 : Reg) (imm pc next : U32) :
    Sim (Linked .idle) (execBranch op rs1 rs2 imm pc next) (execBranch op rs1 rs2 imm pc next) s t := by
  have hk : t.hart.kmsanEnabled = true :=
    (h.hart.view (p := Hart.kmsanEnabled) fun _ => rfl).trans h.hart.kmsan
  have hlog : Linked .idle (s.setHart (s.hart.logCmp (s.hart.rdReg rs1) (s.hart.rdReg rs2)))
      (t.setHart (t.hart.logCmp (t.hart.rdReg rs1) (t.hart.rdReg rs2))) :=
    h.setHart (h.hart.logCmp _ _ _ _)
  have hx : ∀ u : Sys β, u.hart.kmsanEnabled = true → FuzzSoft.execBranch op rs1 rs2 imm pc next u =
      ((if u.hart.rdTaint rs1 ≠ 0 ∨ u.hart.rdTaint rs2 ≠ 0 then
          Comp.throw (.kmsanTainted pc rs1 rs2 (u.hart.rdTaint rs1) (u.hart.rdTaint rs2))
        else pure (if branchTaken op (u.hart.rdReg rs1) (u.hart.rdReg rs2) then pc + imm else next) :
          Exec β U32) (u.setHart (u.hart.logCmp (u.hart.rdReg rs1) (u.hart.rdReg rs2)))) := by
    intro u hu
    unfold FuzzSoft.execBranch getHart FuzzSoft.modifyHart
    rw [Comp.gets_bind, Comp.modify_bind, hu]
    simp only [Bool.true_and, Bool.or_eq_true, decide_eq_true_eq]
  have hsim : Sim (Linked .idle)
      (if s.hart.rdTaint rs1 ≠ 0 ∨ s.hart.rdTaint rs2 ≠ 0 then
          Comp.throw (.kmsanTainted pc rs1 rs2 (s.hart.rdTaint rs1) (s.hart.rdTaint rs2))
        else pure (if branchTaken op (s.hart.rdReg rs1) (s.hart.rdReg rs2) then pc + imm else next) :
          Exec β U32)
      (if t.hart.rdTaint rs1 ≠ 0 ∨ t.hart.rdTaint rs2 ≠ 0 then
          Comp.throw (.kmsanTainted pc rs1 rs2 (t.hart.rdTaint rs1) (t.hart.rdTaint rs2))
        else pure (if branchTaken op (t.hart.rdReg rs1) (t.hart.rdReg rs2) then pc + imm else next) :
          Exec β U32)
      (s.setHart (s.hart.logCmp (s.hart.rdReg rs1) (s.hart.rdReg rs2)))
      (t.setHart (t.hart.logCmp (t.hart.rdReg rs1) (t.hart.rdReg rs2))) := by
    rw [h.hart.rdTaint, h.hart.rdTaint]
    split
    next => exact Sim.throw hlog
    next hclean =>
      obtain ⟨h1, h2⟩ := not_or.1 hclean
      have heq : ∀ i, ¬ s.hart.rdTaint i ≠ 0 → t.hart.rdReg i = s.hart.rdReg i := by
        intro i hi
        refine h.hart.eq_of_untainted ?_
        rw [not_not.1 hi]
        exact untainted_zero
      rw [heq rs1 h1, heq rs2 h2]
      rw [heq rs1 h1, heq rs2 h2] at hlog
      exact Sim.pure hlog
  exact ⟨by rw [hx s h.hart.kmsan, hx t hk]; exact hsim.out,
    by rw [hx s h.hart.kmsan, hx t hk]; exact hsim.rel⟩

/-- A load instruction, or an `lr.w`. -/
theorem execLoad (h : Linked .idle s t) {va : U32} {size : Nat} (hn : AccessSize size) (signed : Bool)
    (hc : LoadClean va size s) {f : U32 × Option U32 → Hart → Hart}
    (hf : ∀ {k k' : Hart} {r r' : U32 × Option U32}, HartTwins k k' → r'.2 = r.2 →
      ByteEq (extendLoadTaint (r.2.getD 0) size signed) r.1 r'.1 → HartTwins (f r k) (f r' k'))
    {p : Exit × U32} (hp : p.1 ≠ .ecall) :
    Relates (fun r s' r' t' => Executed r.1 s' r'.1 t' ∧ r'.2 = r.2) (Linked .idle)
      (FuzzSoft.loadWithTaint va size signed >>= fun r => FuzzSoft.modifyHart (f r) >>= fun _ =>
        (pure p : Exec β (Exit × U32)))
      (FuzzSoft.loadWithTaint va size signed >>= fun r => FuzzSoft.modifyHart (f r) >>= fun _ => pure p)
      s t :=
  (h.loadWithTaint hn signed hc).bind fun _ _ _ _ _ _ hr => hr.1.update (hf hr.1.hart hr.2.1 hr.2.2) hp

/-- A store-conditional. -/
theorem execSc (h : Linked .idle s t) {rd rs1 rs2 : Reg} (ha : Untainted (s.hart.rdTaint rs1))
    (hc : s.hart.reservation = some (s.hart.rdReg rs1) →
      StoreCovered false (s.hart.rdReg rs2) (s.hart.rdTaint rs2) (s.hart.rdReg rs1) 4 s)
    {pc next iword : U32} (aq rl : Bool) :
    Relates (fun r s' r' t' => Executed r.1 s' r'.1 t' ∧ r'.2 = r.2) (Linked .idle)
      (execInst (.scW rd rs1 rs2 aq rl) pc next iword) (execInst (.scW rd rs1 rs2 aq rl) pc next iword)
      s t := by
  have hreg := h.hart.eq_of_untainted ha
  have hres : t.hart.reservation = s.hart.reservation := h.hart.view (p := Hart.reservation) fun _ => rfl
  unfold execInst getHart
  refine Relates.gets_bind ?_
  dsimp only
  rw [hreg, hres]
  refine Relates.bind (Q := fun _ s' _ t' => Linked .idle s' t') ?_ fun _ s' _ t' _ _ h' => ?_
  · unfold storeIf
    split
    next hr =>
      obtain ⟨hclean, hcarried⟩ := hc (of_decide_eq_true hr)
      exact (Relates.of_sim (h.storeBare (.inr (.inr rfl)) (h.hart.bytes rs2) hclean hcarried)).mono
        fun _ _ _ _ _ _ h' => h'.2
    next => exact Relates.pure h
  · exact h'.update (f := fun k => { k.wrClean rd _ with reservation := none })
      ((h'.hart.wrClean rd _).reserve none) (by rintro ⟨⟩)

/-- Every instruction that is covered keeps linked systems linked. -/
theorem execInst (h : Linked .idle s t) {inst : Inst} (ha : inst.Admitted s) (hc : inst.Covered s)
    (pc next iword : U32) :
    Relates (fun r s' r' t' => Executed r.1 s' r'.1 t' ∧ r'.2 = r.2) (Linked .idle)
      (execInst inst pc next iword) (execInst inst pc next iword) s t := by
  have hgo : ∀ {u u' : Sys β} {e : Exit} {n : U32}, Linked .idle u u' → e ≠ .ecall →
      Executed (e, n).1 u (e, n).1 u' ∧ (e, n).2 = (e, n).2 :=
    fun hu he => ⟨⟨hu, .inl rfl, fun hr => absurd hr he⟩, rfl⟩
  cases inst with
  | lui rd imm =>
    unfold FuzzSoft.execInst getHart
    exact Relates.gets_bind (h.update (h.hart.wrClean rd _) (by rintro ⟨⟩))
  | auipc rd imm =>
    unfold FuzzSoft.execInst getHart
    exact Relates.gets_bind (h.update (h.hart.wrClean rd _) (by rintro ⟨⟩))
  | jal rd imm =>
    unfold FuzzSoft.execInst getHart
    exact Relates.gets_bind (h.update (h.hart.wrClean rd _) (by rintro ⟨⟩))
  | jalr rd rs1 imm =>
    unfold FuzzSoft.execInst getHart
    refine Relates.gets_bind ?_
    dsimp only
    rw [h.hart.eq_of_untainted ha]
    exact h.update (h.hart.wrClean rd _) (by rintro ⟨⟩)
  | branch op rs1 rs2 imm =>
    unfold FuzzSoft.execInst getHart
    refine Relates.gets_bind ((Relates.of_sim (h.execBranch op rs1 rs2 imm pc next)).bind
      fun n _ n' _ _ _ hn => ?_)
    obtain ⟨rfl, h'⟩ := hn
    exact Relates.pure (hgo h' (by rintro ⟨⟩))
  | load op rd rs1 imm =>
    have hn : AccessSize op.size := by cases op <;> simp [AccessSize, LoadOp.size]
    unfold FuzzSoft.execInst getHart
    refine Relates.gets_bind ?_
    dsimp only
    rw [h.hart.eq_of_untainted ha]
    refine h.execLoad hn op.signed hc (fun {k k' r r'} hk hm hv => ?_) (by rintro ⟨⟩)
    rw [hm]
    exact hk.wrTainted fun _ => hv
  | store op rs1 rs2 imm =>
    unfold FuzzSoft.execInst getHart
    refine Relates.gets_bind ((h.execStore ha hc).bind fun e _ e' _ _ _ he => ?_)
    exact Relates.pure ⟨he, rfl⟩
  | opImm op rd rs1 imm =>
    unfold FuzzSoft.execInst getHart
    refine Relates.gets_bind (h.update ?_ ?_)
    · rw [h.hart.rdTaint]
      refine h.hart.wrTainted fun hrd => alu_byteEq (h.hart.bytes rs1) (.refl 0 imm) ?_
      have hor : s.hart.rdTaint rs1 ||| 0 = s.hart.rdTaint rs1 := BitVec.or_zero
      rw [hor]
      exact AluOp.sound ha (hc.resolve_left hrd)
    · rintro ⟨⟩
  | op op rd rs1 rs2 =>
    have hlog : HartTwins
        (if op = .sub ∨ op = .xor then s.hart.logCmp (s.hart.rdReg rs1) (s.hart.rdReg rs2) else s.hart)
        (if op = .sub ∨ op = .xor then t.hart.logCmp (t.hart.rdReg rs1) (t.hart.rdReg rs2)
          else t.hart) := by
      split
      · exact h.hart.logCmp _ _ _ _
      · exact h.hart
    unfold FuzzSoft.execInst getHart
    refine Relates.gets_bind (h.update ?_ ?_)
    · rw [h.hart.rdTaint, h.hart.rdTaint]
      exact hlog.wrTainted fun hrd => alu_byteEq (h.hart.bytes rs1) (h.hart.bytes rs2)
        (AluOp.sound (ha.imp_right untainted_or.2) (hc.resolve_left hrd))
    · rintro ⟨⟩
  | mul op rd rs1 rs2 =>
    unfold FuzzSoft.execInst getHart
    refine Relates.gets_bind (h.update ?_ ?_)
    · rw [h.hart.rdTaint, h.hart.rdTaint]
      exact (h.hart.logUbsan pc _ _).wrTainted fun _ =>
        muldiv_byteEq (h.hart.bytes rs1) (h.hart.bytes rs2)
    · rintro ⟨⟩
  | lrW rd rs1 aq rl =>
    unfold FuzzSoft.execInst getHart
    refine Relates.gets_bind ?_
    dsimp only
    rw [h.hart.eq_of_untainted ha]
    refine h.execLoad (.inr (.inr rfl)) false hc (fun {k k' r r'} hk hm hv => ?_) (by rintro ⟨⟩)
    rw [hm]
    exact (hk.wrTainted fun _ => hv).reserve _
  | scW rd rs1 rs2 aq rl => exact h.execSc ha hc aq rl
  | amoW op rd rs1 rs2 aq rl =>
    obtain ⟨ha1, ha2, hu⟩ := ha
    unfold FuzzSoft.execInst getHart
    refine Relates.gets_bind ?_
    dsimp only
    rw [h.hart.eq_of_untainted ha1, h.hart.eq_of_untainted ha2]
    refine (h.amoAccess hu hc).bind fun old s' old' t' _ _ hold => ?_
    obtain ⟨rfl, h'⟩ := hold
    exact .inr ⟨_, _, _, _, rfl, rfl, hgo h' (by rintro ⟨⟩)⟩
  | fence =>
    unfold FuzzSoft.execInst getHart
    exact Relates.gets_bind (Relates.pure (hgo h (by rintro ⟨⟩)))
  | wfi =>
    unfold FuzzSoft.execInst getHart
    exact Relates.gets_bind (Relates.pure (hgo h (by rintro ⟨⟩)))
  | ecall =>
    unfold FuzzSoft.execInst getHart
    exact Relates.gets_bind (Relates.pure ⟨⟨h, .inl rfl, fun _ => ha⟩, rfl⟩)
  | ebreak =>
    unfold FuzzSoft.execInst getHart
    exact Relates.gets_bind (Relates.pure (hgo h (by rintro ⟨⟩)))
  | csr op rd src csr =>
    have hsrc : t.hart.csrSrc op src = s.hart.csrSrc op src := by
      cases op with
      | rwi | rsi | rci => rfl
      | rw | rs | rc => exact h.hart.eq_of_untainted ha
    unfold FuzzSoft.execInst getHart
    refine Relates.gets_bind ((Relates.of_sim (h.execCsr hsrc)).bind fun _ _ _ _ _ _ h' => ?_)
    exact Relates.pure (hgo h'.2 (by rintro ⟨⟩))
  | mret =>
    have hpriv : t.hart.privilege = s.hart.privilege := h.hart.view (p := Hart.privilege) fun _ => rfl
    have hpc : t.hart.csr = s.hart.csr := h.hart.view (p := Hart.csr) fun _ => rfl
    unfold FuzzSoft.execInst getHart
    refine Relates.gets_bind ?_
    dsimp only
    rw [hpriv, hpc]
    split
    · exact .inl ⟨_, _, _, rfl, rfl, h⟩
    · exact h.update h.hart.mret (by rintro ⟨⟩)
  | sret =>
    have hpriv : t.hart.privilege = s.hart.privilege := h.hart.view (p := Hart.privilege) fun _ => rfl
    have hpc : t.hart.csr = s.hart.csr := h.hart.view (p := Hart.csr) fun _ => rfl
    unfold FuzzSoft.execInst getHart
    refine Relates.gets_bind ?_
    dsimp only
    rw [hpriv, hpc]
    split
    · exact .inl ⟨_, _, _, rfl, rfl, h⟩
    · exact h.update h.hart.sret (by rintro ⟨⟩)
  | sfenceVma =>
    unfold FuzzSoft.execInst getHart
    exact Relates.gets_bind (.inr ⟨_, _, _, _, rfl, rfl, hgo h.flushTlb (by rintro ⟨⟩)⟩)
  | illegal raw =>
    unfold FuzzSoft.execInst getHart
    exact Relates.gets_bind (.inl ⟨_, _, _, rfl, rfl, h⟩)

/-- One instruction and its retirement. -/
theorem execOne (h : Linked .idle s t) {inst : Inst} (ha : inst.Admitted s) (hc : inst.Covered s)
    (pc ilen iword : U32) :
    Relates (fun r s' r' t' => Executed r s' r' t') (Linked .idle) (execOne inst pc ilen iword)
      (execOne inst pc ilen iword) s t := by
  refine (h.execInst ha hc pc (pc + ilen) iword).bind fun r s' r' t' _ _ hr => ?_
  obtain ⟨⟨h', he, hcall⟩, hnext⟩ := hr
  rw [hnext]
  exact .inr ⟨_, _, _, _, rfl, rfl, h'.setHart (h'.hart.retire r.2), he, hcall⟩

end Linked

/-! ## Steps -/

/-- The instruction that `s` fetches uses tainted operands only as a program may. -/
def StepAdmitted (s : Sys β) : Prop :=
  match fetchDecode s.hart.pc s with
  | (.ok f, s') => f.inst.Admitted s'
  | (.error _, _) => True

instance (s : Sys β) : Decidable (StepAdmitted s) :=
  show Decidable (match fetchDecode s.hart.pc s with
    | (.ok f, s') => f.inst.Admitted s'
    | (.error _, _) => True) from
  match fetchDecode s.hart.pc s with
  | (.ok f, s') => inferInstanceAs (Decidable (f.inst.Admitted s'))
  | (.error _, _) => isTrue trivial

/-- The fetch of the instruction is untainted, and the instruction is covered. -/
def StepCovered (s : Sys β) : Prop :=
  FetchClean s.hart.pc s ∧
    match fetchDecode s.hart.pc s with
    | (.ok f, s') => f.inst.Covered s'
    | (.error _, _) => True

instance (s : Sys β) : Decidable (StepCovered s) :=
  @instDecidableAnd _ _ _ <|
    match fetchDecode s.hart.pc s with
    | (.ok f, s') => inferInstanceAs (Decidable (f.inst.Covered s'))
    | (.error _, _) => isTrue trivial

/-- A full-system step that takes an interrupt, or whose instruction is admitted. -/
def Sys.Admitted (s : Sys β) : Prop :=
  s.hart.pollInterrupt.1 = false → StepAdmitted (s.setHart s.hart.pollInterrupt.2)

/-- One that takes an interrupt, or whose instruction is covered. -/
def Sys.Covered (s : Sys β) : Prop :=
  s.hart.pollInterrupt.1 = false → StepCovered (s.setHart s.hart.pollInterrupt.2)

instance (s : Sys β) : Decidable s.Admitted := inferInstanceAs (Decidable (_ → _))

instance (s : Sys β) : Decidable s.Covered := inferInstanceAs (Decidable (_ → _))

/-- The two exits are the same, but for the code of a halt. -/
def SysExit.Alike (e e' : SysExit) : Prop := e' = e ∨ ∃ a b, e = .halt a ∧ e' = .halt b

namespace Linked

variable {s t : Sys β}

/-- `Cpu::step`. -/
theorem step (h : Linked .idle s t) (ha : StepAdmitted s) (hc : StepCovered s) :
    Relates (fun r s' r' t' => Executed r s' r' t') (Linked .idle) step step s t := by
  have hpc : t.hart.pc = s.hart.pc := h.hart.view (p := Hart.pc) fun _ => rfl
  unfold FuzzSoft.step getHart
  refine Relates.gets_bind ?_
  rw [hpc]
  refine (Relates.of_sim (h.fetchDecode hc.1)).bind fun f s' f' t' hs _ hf => ?_
  obtain ⟨rfl, h'⟩ := hf
  have hinst := hc.2
  unfold StepAdmitted at ha
  rw [hs] at ha hinst
  exact h'.execOne ha hinst _ _ _

/-- A trap is vectored alike. -/
theorem trapped (h : Linked .idle s t) (e : Trap) :
    (t.finishExit (.error e)).1 = (s.finishExit (.error e)).1 ∧
      Linked .idle (s.finishExit (.error e)).2 (t.finishExit (.error e)).2 := by
  cases e with
  | mem f => exact ⟨rfl, h.setHart (h.hart.takeTrap _ _ _)⟩
  | illegal pc raw => exact ⟨rfl, h.setHart (h.hart.takeTrap _ _ _)⟩
  | exception cause tval => exact ⟨rfl, h.setHart (h.hart.takeTrap _ _ _)⟩
  | kmsanTainted pc rs1 rs2 taintA taintB =>
    refine ⟨rfl, h.setHart ?_⟩
    exact h.hart.map (f := fun k => { k with kmsanHit := some ⟨pc, rs1, rs2, taintA, taintB⟩ })
      (fun _ => rfl) (fun _ => rfl) fun _ => rfl

/-- An instruction that ended is left alike. -/
theorem exited {r r' : Exit} (h : Executed r s r' t) :
    (s.finishExit (.ok r)).1.Alike (t.finishExit (.ok r')).1 ∧
      Linked .idle (s.finishExit (.ok r)).2 (t.finishExit (.ok r')).2 := by
  obtain ⟨h, he, hcall⟩ := h
  rcases he with rfl | ⟨a, b, rfl, rfl⟩
  · cases r' with
    | «continue» => exact ⟨.inl rfl, h⟩
    | halt c => exact ⟨.inl rfl, h⟩
    | ebreak =>
      have hpc : t.hart.pc = s.hart.pc := h.hart.view (p := Hart.pc) fun _ => rfl
      unfold Sys.finishExit Hart.finishExit
      dsimp only
      rw [hpc]
      exact ⟨.inl rfl, h.setHart (h.hart.takeTrap _ _ _)⟩
    | ecall =>
      have heid : t.hart.hypercallEid = s.hart.hypercallEid :=
        h.hart.view (p := Hart.hypercallEid) fun _ => rfl
      have hpriv : t.hart.privilege = s.hart.privilege :=
        h.hart.view (p := Hart.privilege) fun _ => rfl
      have hx : ∀ u : Sys β, u.finishExit (.ok .ecall) =
          if u.hart.hypercallEid = some (u.hart.regs 17) then
            (.hypercall (u.hart.regs 10), u.setHart { u.hart with pc := u.hart.pc + 4 })
          else (.continue, u.setHart (u.hart.takeTrap (ecallCause u.hart.privilege) 0 false)) := by
        intro u
        unfold Sys.finishExit Hart.finishExit
        dsimp only
        split <;> rfl
      have hregs : ∀ i : Reg, i ≠ 0 → Untainted (s.hart.rdTaint i) → t.hart.regs i = s.hart.regs i := by
        intro i hi hu
        have heq := h.hart.eq_of_untainted hu
        unfold Hart.rdReg at heq
        rwa [if_neg hi, if_neg hi] at heq
      rw [hx, hx, heid]
      by_cases hid : s.hart.hypercallEid = some (s.hart.regs 17)
      · obtain ⟨h17, h10⟩ := hcall rfl (by rw [hid]; rfl)
        rw [hregs 17 (by decide) h17, if_pos hid, if_pos hid, hregs 10 (by decide) (h10 hid)]
        exact ⟨.inl rfl, h.setHart (h.hart.map (f := fun k => { k with pc := k.pc + 4 })
          (fun _ => rfl) (fun _ => rfl) fun _ => rfl)⟩
      · have hid' : ¬ s.hart.hypercallEid = some (t.hart.regs 17) := by
          intro heq
          obtain ⟨h17, -⟩ := hcall rfl (by rw [heq]; rfl)
          rw [hregs 17 (by decide) h17] at heq
          exact hid heq
        rw [if_neg hid, if_neg hid', hpriv]
        exact ⟨.inl rfl, h.setHart (h.hart.takeTrap _ _ _)⟩
  · exact ⟨.inr ⟨a, b, rfl, rfl⟩, h⟩

/-- A full-system step keeps linked systems linked. -/
theorem stepSystem (h : Linked .idle s t) (ha : s.Admitted) (hc : s.Covered) :
    (stepSystem s).1.Alike (stepSystem t).1 ∧ Linked .idle (stepSystem s).2 (stepSystem t).2 := by
  obtain ⟨hpoll, hpolled⟩ := h.hart.pollInterrupt
  have h' := h.setHart hpolled
  unfold FuzzSoft.stepSystem
  dsimp only
  rw [hpoll]
  split
  · exact ⟨.inl rfl, h'⟩
  next hno =>
    have hp : s.hart.pollInterrupt.1 = false := by simpa using hno
    rcases h'.step (ha hp) (hc hp) with ⟨e, s₁, t₁, hs, ht, h₁⟩ | ⟨r, s₁, r', t₁, hs, ht, hx⟩
    · rw [hs, ht]
      obtain ⟨hout, hlink⟩ := h₁.trapped e
      exact ⟨.inl hout, hlink⟩
    · rw [hs, ht]
      exact exited hx

end Linked

/-! ## Runs -/

/-- The systems are about to execute the same instruction, agree in every byte of a register or of
memory that is not tainted, and on which bytes are. -/
structure AgreeUntainted (s t : Sys β) : Prop where
  pc : t.hart.pc = s.hart.pc
  regs : ∀ i, ByteEq (s.hart.rdTaint i) (s.hart.rdReg i) (t.hart.rdReg i)
  mem : ∀ q, (RamBus.cells s.bus).tainted q = false → RamBus.cells t.bus q = RamBus.cells s.bus q
  regMarks : t.hart.regsTaint = s.hart.regsTaint
  memMarks : (RamBus.cells s.bus).SamePerms (RamBus.cells t.bus)

/-- Linked systems agree wherever they are untainted. -/
theorem Linked.agree {s t : Sys β} (h : Linked .idle s t) : AgreeUntainted s t where
  pc := h.hart.view (p := Hart.pc) fun _ => rfl
  regs := h.hart.bytes
  mem := h.bus.bytes
  regMarks := h.hart.view (p := Hart.regsTaint) fun _ => rfl
  memMarks := h.bus.perms

/-- The taint rule of a tracked operation is sound for all operands exactly if it is covered. Two runs
with KMSAN on from systems that differ in tainted bytes only, with every step one of an admitted program
and covered, take the same exits, up to the code of a halt, execute the same instructions, and agree in
every untainted byte and on the taint. -/
theorem taint_sound :
    (∀ (op : AluOp) (ta tb : U32), op.tracked = true →
      ((∀ a a' b b', ByteEq ta a a' → ByteEq tb b b' →
        ByteEq (aluTaint ta tb) (alu op a b) (alu op a' b')) ↔ op.Covered (ta ||| tb))) ∧
    ∀ (s t : Sys β) (steps : List Unit), Linked .idle s t →
      Along sysStep (fun s _ => s.Admitted) s steps → Along sysStep (fun s _ => s.Covered) s steps →
      List.Forall₂ SysExit.Alike (run sysStep s steps).1 (run sysStep t steps).1 ∧
        AgreeUntainted (run sysStep s steps).2 (run sysStep t steps).2 := by
  refine ⟨fun op ta tb ht => alu_sound_iff ht, fun s t steps h ha hc => ?_⟩
  have hstep : ∀ {s t : Sys β} {i : Unit}, Linked .idle s t → s.Admitted ∧ s.Covered →
      SysExit.Alike (sysStep s i).1 (sysStep t i).1 ∧ Linked .idle (sysStep s i).2 (sysStep t i).2 :=
    fun h hok => h.stepSystem hok.1 hok.2
  obtain ⟨hout, hlink⟩ := run_related hstep h (ha.and hc)
  exact ⟨hout, hlink.agree⟩

end

/-- A machine with a program at the start of RAM and the byte `b` at `0x80000100`, where nothing was ever
written, and a hart in M mode with KMSAN on: `x10` points to that byte, byte 3 of `x11` is tainted, and
`x14` is 7. -/
def flowSystem (code : List U8) (b : U8) (v : U32) : Sys Machine where
  cpu := { Cpu.new 0x80000000 with
    regs := fun i => if i = 10 then 0x80000100 else if i = 11 then v else if i = 14 then 7 else 0
    regsTaint := some fun i => if i = 11 then 0x01000000 else 0 }
  bus := { MachineOf.new 0x80000000 0x200 with
    ram := { Mmu.new 0x80000000 0x200 with
      mem := fun off => if off = 0x100 then b else code.getD off 0
      perms := fun off => if off = 0x100 then PERM_READ ||| PERM_WRITE ||| PERM_RAW
        else PERM_READ ||| PERM_WRITE ||| PERM_EXEC } }

/-- Two such systems differ in tainted bytes only. -/
theorem flowSystem_linked (code : List U8) (b b' : U8) {v v' : U32} (hv : ByteEq 0x01000000 v v') :
    Linked .idle (flowSystem code b v) (flowSystem code b' v') := by
  have hbase : (0x10000100 : U32) ≤ (flowSystem code b v).bus.ramBase :=
    show (0x10000100 : U32) ≤ 0x80000000 by decide
  have hoffset : (flowSystem code b' v').bus.ram.offset = (flowSystem code b v).bus.ram.offset := rfl
  refine ⟨⟨rfl, rfl, fun i => ?_⟩, rfl, trivial, trivial,
    ⟨noOverlap_of_le (m := (flowSystem code b v).bus) hbase, rfl, rfl, rfl, rfl, rfl⟩, fun q => ?_,
    fun _ hq => (nomatch hq), fun q hq => ?_⟩
  · by_cases hi : i = 11
    · subst hi
      exact hv
    · have hreg : (flowSystem code b' v').hart.rdReg i = (flowSystem code b v).hart.rdReg i := by
        change (if i = 0 then 0 else if i = 10 then 0x80000100 else if i = 11 then v' else
          if i = 14 then 7 else 0) = (if i = 0 then 0 else if i = 10 then 0x80000100 else
            if i = 11 then v else if i = 14 then 7 else 0 : U32)
        rw [if_neg hi, if_neg hi]
      rw [hreg]
      exact .refl _ _
  · change (Mmu.cells _ q).map _ = (Mmu.cells _ q).map _
    unfold Mmu.cells
    rw [hoffset]
    cases (flowSystem code b v).bus.ram.offset q <;> rfl
  · change Mmu.cells _ q = Mmu.cells _ q
    change (flowSystem code b v).bus.ram.cells.tainted q = false at hq
    cases ho : (flowSystem code b v).bus.ram.offset q with
    | none => rw [Mmu.cells, Mmu.cells, hoffset, ho]; rfl
    | some off =>
      have ho' : (flowSystem code b' v').bus.ram.offset q = some off := by rw [hoffset, ho]
      rw [Mmu.cells_of_offset ho, Mmu.cells_of_offset ho']
      unfold Cells.tainted Cells.has at hq
      rw [Mmu.cells_of_offset ho] at hq
      by_cases hoff : off = 0x100
      · subst hoff
        change decide ((PERM_READ ||| PERM_WRITE ||| PERM_RAW) &&& (PERM_RAW ||| PERM_VTAINT) ≠ 0) = false
          at hq
        exact absurd hq (by decide)
      · simp [flowSystem, hoff]

/-- `slt x12, x11, x0`. -/
def comparison : List U8 := [0x33, 0xa6, 0x05, 0x00]

/-- A comparison hides the taint of its result. -/
theorem slt_hides_taint :
    ¬ ∀ (s t : Sys Machine) (steps : List Unit), Linked .idle s t →
      Along sysStep (fun s _ => s.Admitted) s steps → Unhalted s steps → Unhalted t steps →
      AgreeUntainted (run sysStep s steps).2 (run sysStep t steps).2 := by
  intro h
  have hlink : Linked .idle (flowSystem comparison 0 0) (flowSystem comparison 0 0x80000000) :=
    flowSystem_linked comparison 0 0 (by unfold ByteEq; decide)
  have hagree := h _ _ [()] hlink (by decide +kernel) (by unfold Unhalted; decide +kernel)
    (by unfold Unhalted; decide +kernel)
  exact absurd (hagree.regs 12 0 (by decide)) (by decide +kernel)

/-- `lw x12, 0(x10)`, `sltu x13, x12, x14`, `mul x15, x11, x12` and `sw x15, 4(x10)`. -/
def flow : List U8 := [0x03, 0x26, 0x05, 0x00, 0xb3, 0x36, 0xe6, 0x00, 0xb3, 0x87, 0xc5, 0x02,
  0x23, 0x22, 0xf5, 0x00]

/-- A tainted word is loaded, compared, multiplied and stored. -/
theorem taint_sound_flow : AgreeUntainted
    (run sysStep (flowSystem flow 5 0) [(), (), (), ()]).2
    (run sysStep (flowSystem flow 9 0x80000000) [(), (), (), ()]).2 :=
  (taint_sound.2 _ _ _ (flowSystem_linked flow 5 9 (by unfold ByteEq; decide)) (by decide +kernel)
    (by decide +kernel)).2

end FuzzSoft
