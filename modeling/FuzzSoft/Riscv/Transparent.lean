import FuzzSoft.Riscv.BusSim
import FuzzSoft.Riscv.Granted

/-!
# Instrumentation is transparent

The comparison log, the UBSAN log and the KMSAN taint of a hart are written by its steps and read by
none, but for the branch that KMSAN stops. `Hart.bare` is the hart without them, and `Bare` relates a
system to one over a bus that the taint scatter cannot tell from its own (`ShadowSim`), whose hart is
bare. A step that KMSAN does not stop keeps the relation and gives the same exit
(`ShadowSim.stepSystem`): the second translation that the taint of an access needs finds the access
granted, so it neither walks nor faults.
-/

namespace FuzzSoft

open Lib

/-- The hart with the instrumentation off. -/
def Hart.bare (h : Hart) : Hart := { h with cmplog := none, ubsan := none, regsTaint := none }

namespace Hart

@[simp] theorem bare_bare (h : Hart) : h.bare.bare = h.bare := rfl

@[simp] theorem bare_rdReg (h : Hart) (i : Reg) : h.bare.rdReg i = h.rdReg i := rfl

@[simp] theorem bare_kmsanEnabled (h : Hart) : h.bare.kmsanEnabled = false := rfl

@[simp] theorem bare_wrReg (h : Hart) (i : Reg) (v : U32) :
    (h.wrReg i v).bare = h.bare.wrReg i v := by
  unfold wrReg
  split <;> rfl

@[simp] theorem bare_wrTaint (h : Hart) (i : Reg) (t : U32) : (h.wrTaint i t).bare = h.bare := by
  unfold wrTaint
  split
  · rfl
  · split <;> rfl

@[simp] theorem wrTaint_bare (h : Hart) (i : Reg) (t : U32) : h.bare.wrTaint i t = h.bare := by
  unfold wrTaint
  split <;> rfl

@[simp] theorem bare_logCmp (h : Hart) (a b : U32) : (h.logCmp a b).bare = h.bare := by
  unfold logCmp
  split
  · split <;> rfl
  · rfl

@[simp] theorem logCmp_bare (h : Hart) (a b : U32) : h.bare.logCmp a b = h.bare := rfl

@[simp] theorem bare_logUbsan (h : Hart) (pc : U32) : (h.logUbsan pc).bare = h.bare := by
  unfold logUbsan
  split
  · split <;> rfl
  · rfl

@[simp] theorem logUbsan_bare (h : Hart) (pc : U32) : h.bare.logUbsan pc = h.bare := rfl

@[simp] theorem bare_wrClean (h : Hart) (i : Reg) (v : U32) :
    (h.wrClean i v).bare = h.bare.wrClean i v := by
  rw [wrClean, bare_wrTaint, bare_wrReg, wrClean, ← bare_wrReg, wrTaint_bare]

/-- The taint written with a register does not matter to the bare hart. -/
@[simp] theorem bare_wrTainted (h : Hart) (i : Reg) (v t : U32) :
    (h.wrTainted i v t).bare = h.bare.wrReg i v := by
  rw [wrTainted, bare_wrReg, bare_wrTaint]

@[simp] theorem wrTainted_bare (h : Hart) (i : Reg) (v t : U32) :
    h.bare.wrTainted i v t = h.bare.wrReg i v := by
  rw [wrTainted, wrTaint_bare]

@[simp] theorem bare_mret (h : Hart) : h.mret.bare = h.bare.mret := rfl

@[simp] theorem bare_sret (h : Hart) : h.sret.bare = h.bare.sret := rfl

@[simp] theorem bare_retire (h : Hart) (next : U32) : (h.retire next).bare = h.bare.retire next :=
  rfl

/-- Taking a trap does not look at the instruments. -/
@[simp] theorem bare_takeTrap (h : Hart) (cause tval : U32) (interrupt : Bool) :
    (h.takeTrap cause tval interrupt).bare = h.bare.takeTrap cause tval interrupt := by
  unfold takeTrap
  have hcsr : h.bare.csr = h.csr := rfl
  have hpriv : h.bare.privilege = h.privilege := rfl
  simp only [hcsr, hpriv]
  generalize (if interrupt then h.csr.mideleg else h.csr.medeleg) = deleg
  split <;> rfl

/-- Polling for interrupts does not look at the instruments. -/
theorem bare_pollInterrupt (h : Hart) :
    h.bare.pollInterrupt = (h.pollInterrupt.1, h.pollInterrupt.2.bare) := by
  have hpend : h.bare.updateTimers.pendingInterrupt = h.updateTimers.pendingInterrupt := rfl
  unfold pollInterrupt
  simp only [hpend]
  cases h.updateTimers.pendingInterrupt with
  | none => rfl
  | some code =>
    simp only [bare_takeTrap]
    rfl

/-- Nor does the handling of an exit. -/
theorem bare_finishExit (h : Hart) (r : Except Trap Exit) :
    h.bare.finishExit r = ((h.finishExit r).1, (h.finishExit r).2.bare) := by
  cases r with
  | ok exit =>
    cases exit with
    | ecall =>
      have hcall : h.bare.finishExit (.ok .ecall) =
          if h.hypercallEid = some (h.regs 17) then (.hypercall (h.regs 10), { h with pc := h.pc + 4 }.bare)
          else (.continue, h.bare.takeTrap (ecallCause h.privilege) 0 false) := rfl
      rw [hcall, finishExit]
      split <;> simp
    | _ => simp [finishExit] <;> rfl
  | error e =>
    cases e with
    | kmsanTainted pc rs1 rs2 taintA taintB => rfl
    | _ => simp [finishExit]

end Hart

section
variable {β γ : Type}

/-- The second bus answers as the first one, stores keep it so, and a taint scatter on the first one
alone as well. -/
structure ShadowSim [Bus β] [Bus γ] (B : β → γ → Prop) : Prop where
  load : ∀ {b c}, B b c → ∀ pa n, Bus.load c pa n = Bus.load b pa n
  ifetch16 : ∀ {b c}, B b c → ∀ pa, Bus.ifetch16 c pa = Bus.ifetch16 b pa
  store : ∀ {b c}, B b c → ∀ pa n v, (Bus.store c pa n v).1 = (Bus.store b pa n v).1 ∧
    B (Bus.store b pa n v).2 (Bus.store c pa n v).2
  shadow : ∀ {b c}, B b c → ∀ pa n mask, B (Bus.writeShadow b pa n mask) c

/-- The second system is the first one with the instrumentation off. -/
structure Bare (B : β → γ → Prop) (s : Sys β) (t : Sys γ) : Prop where
  hart : t.hart = s.hart.bare
  tlb : t.cpu.tlb = s.cpu.tlb
  bus : B s.bus t.bus

variable {B : β → γ → Prop} {s : Sys β} {t : Sys γ}

/-! ## Computations of the hart -/

namespace Bare

/-- New harts, one of which is the other without instruments. -/
theorem setHart (h : Bare B s t) {h₁ h₂ : Hart} (hb : h₂ = h₁.bare) :
    Bare B (s.setHart h₁) (t.setHart h₂) := ⟨hb, h.tlb, h.bus⟩

/-- Both TLBs may be flushed. -/
theorem flush (h : Bare B s t) : Bare B s.flushTlb t.flushTlb := ⟨h.hart, rfl, h.bus⟩

/-- An update of the hart that is another one of the bare hart. -/
theorem modifyHart {f g : Hart → Hart} (hfg : ∀ h, g h.bare = (f h).bare) (h : Bare B s t) :
    Sim (Bare B) (modifyHart f) (modifyHart g) s t := by
  refine Sim.modify (h.setHart ?_)
  rw [h.hart]
  exact hfg s.hart

/-- An update of the harts that commutes with taking the instruments off. -/
theorem modifyHart_pure {α : Type} {f g : Hart → Hart} {a : α} (hfg : ∀ h, g h.bare = (f h).bare)
    (h : Bare B s t) : Sim (Bare B) (FuzzSoft.modifyHart f >>= fun _ => (pure a : Exec β α))
      (FuzzSoft.modifyHart g >>= fun _ => pure a) s t :=
  (h.modifyHart hfg).bind fun _ _ _ _ _ h' => Sim.pure h'

/-- What both sides do with their harts. -/
theorem getHart_bind {α : Type} {f : Hart → Exec β α} {g : Hart → Exec γ α} (h : Bare B s t)
    (hf : Sim (Bare B) (f s.hart) (g s.hart.bare) s t) :
    Sim (Bare B) (getHart >>= f) (getHart >>= g) s t := by
  rw [← h.hart] at hf
  exact ⟨hf.out, hf.rel⟩

/-- The same for runs that may end in the tainted trap. -/
theorem getHart_unless {α : Type} {T : Trap → Prop} {f : Hart → Exec β α} {g : Hart → Exec γ α}
    (h : Bare B s t) (hf : SimUnless T (Bare B) (f s.hart) (g s.hart.bare) s t) :
    SimUnless T (Bare B) (getHart >>= f) (getHart >>= g) s t := by
  rcases hf with ⟨e, he, hx⟩ | hf
  · exact .inl ⟨e, he, hx⟩
  · exact .inr (h.getHart_bind hf)

/-- A new CSR file. -/
theorem setCsr {c : Csr} {flush : Bool} (h : Bare B s t) :
    Sim (Bare B) (setCsr c flush) (setCsr c flush) s t := by
  have hset : Bare B (s.setHart { s.hart with csr := c }) (t.setHart { t.hart with csr := c }) :=
    h.setHart (by rw [h.hart]; rfl)
  refine Sim.modify ?_
  cases flush with
  | true => exact hset.flush
  | false => exact hset

/-- The write of a CSR instruction. -/
theorem writeCsr (op : CsrOp) (src : Reg) (csr : U16) (old : U32) (trap : Trap) (h : Bare B s t) :
    Sim (Bare B) (writeCsr op src csr old trap) (writeCsr op src csr old trap) s t := by
  have hsrc : s.hart.bare.csrSrc op src = s.hart.csrSrc op src := rfl
  have hcsr : s.hart.bare.csr = s.hart.csr := rfl
  have hpriv : s.hart.bare.privilege = s.hart.privilege := rfl
  refine h.getHart_bind ?_
  rw [hsrc, hcsr, hpriv]
  split
  · cases s.hart.csr.write csr (csrNew op old (s.hart.csrSrc op src)) s.hart.privilege with
    | none => exact Sim.throw h
    | some c => exact h.setCsr
  · exact Sim.pure h

/-- A CSR instruction. -/
theorem execCsr (op : CsrOp) (rd src : Reg) (csr : U16) (pc iword : U32) (h : Bare B s t) :
    Sim (Bare B) (execCsr op rd src csr pc iword) (execCsr op rd src csr pc iword) s t := by
  have hread : s.hart.bare.readCsr csr = s.hart.readCsr csr := rfl
  refine h.getHart_bind ?_
  rw [hread]
  cases s.hart.readCsr csr with
  | none => exact Sim.throw h
  | some old =>
    exact (h.writeCsr op src csr old _).bind fun _ _ _ _ _ h' => h'.modifyHart fun h => by simp

end Bare

/-! ## Guest accesses -/

variable [Bus β] [Bus γ] (hB : ShadowSim B)
include hB

/-- A page walk with its fill of the TLB. -/
theorem ShadowSim.walkFill (h : Bare B s t) (va : U32) (access : Access) :
    Sim (Bare B) (walkFill va access) (walkFill va access) s t := by
  have hrd : loadPte t.bus = loadPte s.bus := by
    funext a
    rw [loadPte, loadPte, hB.load h.bus]
  have hl : usableLeaf t.hart t.bus va access = usableLeaf s.hart s.bus va access := by
    rw [h.hart]
    simp only [usableLeaf, walk, hrd]
    rfl
  cases hu : usableLeaf s.hart s.bus va access with
  | none =>
    rw [hu] at hl
    refine ⟨by simp only [FuzzSoft.walkFill, hu, hl], ?_⟩
    simp only [FuzzSoft.walkFill, hu, hl]
    exact h
  | some l =>
    rw [hu] at hl
    have had : (updateAd t.bus access l).1 = (updateAd s.bus access l).1 ∧
        B (updateAd s.bus access l).2 (updateAd t.bus access l).2 := by
      unfold updateAd
      split
      · exact hB.store h.bus _ _ _
      · exact ⟨rfl, h.bus⟩
    rcases hs : updateAd s.bus access l with ⟨r, b⟩
    rcases ht : updateAd t.bus access l with ⟨r', c⟩
    rw [hs, ht] at had
    obtain ⟨ho, hb⟩ := had
    cases ho
    cases r with
    | error e =>
      refine ⟨by simp only [FuzzSoft.walkFill, hu, hl, hs, ht], ?_⟩
      simp only [FuzzSoft.walkFill, hu, hl, hs, ht]
      exact ⟨h.hart, h.tlb, hb⟩
    | ok _ =>
      refine ⟨by simp only [FuzzSoft.walkFill, hu, hl, hs, ht], ?_⟩
      simp only [FuzzSoft.walkFill, hu, hl, hs, ht]
      exact ⟨h.hart, by rw [h.tlb], hb⟩

/-- A translation. -/
theorem ShadowSim.xlate (h : Bare B s t) (va : U32) (access : Access) :
    Sim (Bare B) (xlate va access) (xlate va access) s t := by
  have hun : t.hart.untranslated access = s.hart.untranslated access := by
    rw [h.hart]
    rfl
  have hok : ∀ bits, t.hart.leafOk access bits = s.hart.leafOk access bits := fun bits => by
    rw [h.hart]
    rfl
  have hwalk := hB.walkFill h va access
  unfold FuzzSoft.xlate
  refine ⟨?_, ?_⟩ <;> rw [hun, h.tlb] <;> simp only [hok]
  all_goals
    split
    · first | rfl | exact h
    split
    · split
      · first | rfl | exact h
      split
      · first | rfl | exact h
      · first | exact hwalk.out | exact hwalk.rel
    · first | exact hwalk.out | exact hwalk.rel

/-- The fetch of a halfword. -/
theorem ShadowSim.fetch16 (va : U32) (h : Bare B s t) :
    Sim (Bare B) (fetch16 va) (fetch16 va) s t := by
  refine (hB.xlate h va .exec).bind fun pa s' t' _ _ h' => ?_
  exact ⟨by simp only [busIfetch16, hB.ifetch16 h'.bus], h'⟩

/-- A bus load. -/
theorem ShadowSim.busLoad (pa : U32) (size : Nat) (h : Bare B s t) :
    Sim (Bare B) (busLoad pa size) (busLoad pa size) s t :=
  ⟨by simp only [FuzzSoft.busLoad, hB.load h.bus], h⟩

/-- A bus store. -/
theorem ShadowSim.busStore (pa : U32) (size : Nat) (v : U32) (h : Bare B s t) :
    Sim (Bare B) (busStore pa size v) (busStore pa size v) s t := by
  obtain ⟨ho, hb⟩ := hB.store h.bus pa size v
  exact ⟨by simp only [FuzzSoft.busStore, ho], h.hart, h.tlb, hb⟩

/-- A load without its taint. -/
theorem ShadowSim.loadImpl (va : U32) (size : Nat) (signed : Bool) (h : Bare B s t) :
    Sim (Bare B) (loadImpl va size signed) (loadImpl va size signed) s t := by
  refine Sim.bind ?_ fun _ _ _ _ _ h' => Sim.pure h'
  unfold loadSpan
  split
  · refine gather_sim (fun h va => ?_) va 0 size h
    refine (hB.xlate h va .read).bind fun pa _ _ _ _ h' => ?_
    exact (hB.busLoad pa 1 h').bind fun _ _ _ _ _ h'' => Sim.pure h''
  · exact (hB.xlate h va .read).bind fun pa _ _ _ _ h' => hB.busLoad pa size h'

/-- A store without its taint. -/
theorem ShadowSim.storeImpl (va : U32) (size : Nat) (val : U32) (h : Bare B s t) :
    Sim (Bare B) (storeImpl va size val) (storeImpl va size val) s t := by
  unfold FuzzSoft.storeImpl
  split
  · refine scatter_sim (fun h j _ _ => ?_) h
    exact (hB.xlate h _ .write).bind fun pa _ _ _ _ h' => hB.busStore pa 1 _ h'
  · exact (hB.xlate h va .write).bind fun pa _ _ _ _ h' => hB.busStore pa size val h'

omit [Bus γ] hB in
/-- Gathering the taint of what was loaded changes nothing and cannot fail. -/
theorem loadWithTaint_cases {va : U32} {size : Nat} {signed : Bool} (hsize : size ≤ 4)
    (s : Sys β) :
    (∃ e s', loadImpl va size signed s = (.error e, s') ∧
      loadWithTaint va size signed s = (.error e, s')) ∨
    ∃ v mask s', loadImpl va size signed s = (.ok v, s') ∧
      loadWithTaint va size signed s = (.ok (v, mask), s') ∧
      (s'.hart.kmsanEnabled = false → mask = none) := by
  rcases hs : FuzzSoft.loadImpl va size signed s with ⟨r, s'⟩
  cases r with
  | error e => exact .inl ⟨e, s', rfl, Comp.bind_error hs⟩
  | ok v =>
    have hbind : loadWithTaint va size signed s = _ := Comp.bind_ok hs
    have hget : getHart s' = (.ok s'.hart, s') := rfl
    rw [Comp.bind_ok hget] at hbind
    cases hk : s'.hart.kmsanEnabled with
    | false =>
      rw [hk] at hbind
      exact .inr ⟨v, none, s', rfl, hbind, fun _ => rfl⟩
    | true =>
      rw [hk] at hbind
      obtain ⟨mask, hm⟩ := loadTaint_of_granted (loadImpl_granted hsize hs)
      exact .inr ⟨v, some mask, s', rfl, hbind.trans (Comp.bind_ok hm), fun hoff => by
        rw [hk] at hoff
        cases hoff⟩

/-- A load, with what is done with its value whatever its taint. -/
theorem ShadowSim.loadWithTaint_bind {α : Type} {va : U32} {size : Nat} {signed : Bool}
    (hsize : size ≤ 4) {f : U32 × Option U32 → Exec β α} {g : U32 × Option U32 → Exec γ α}
    (h : Bare B s t)
    (hf : ∀ v mask s' t', Bare B s' t' → Sim (Bare B) (f (v, mask)) (g (v, none)) s' t') :
    Sim (Bare B) (loadWithTaint va size signed >>= f) (loadWithTaint va size signed >>= g) s t := by
  have hl := hB.loadImpl va size signed h
  have hout := hl.out
  have hrel := hl.rel
  rcases loadWithTaint_cases hsize s with ⟨e, s', hs, hs'⟩ | ⟨v, mask, s', hs, hs', -⟩ <;>
    rcases loadWithTaint_cases hsize t with ⟨e', t', ht, ht'⟩ | ⟨v', mask', t', ht, ht', hoff⟩ <;>
    rw [hs, ht] at hout hrel <;> cases hout
  · exact ⟨by rw [Comp.bind_error hs', Comp.bind_error ht'], by
      rw [Comp.bind_error hs', Comp.bind_error ht']
      exact hrel⟩
  · have hnone : mask' = none := hoff (by rw [hrel.hart]; rfl)
    subst hnone
    have hsim := hf v mask s' t' hrel
    exact ⟨by rw [Comp.bind_ok hs', Comp.bind_ok ht']; exact hsim.out, by
      rw [Comp.bind_ok hs', Comp.bind_ok ht']
      exact hsim.rel⟩

omit [Bus γ] hB in
/-- What taint scatters on the first bus cannot break. -/
theorem Shadowed.rel {B : β → γ → Prop} {b b' : β} {c : γ}
    (hshadow : ∀ {b c}, B b c → ∀ pa n mask, B (Bus.writeShadow b pa n mask) c)
    (hs : Shadowed b b') (h : B b c) : B b' c := by
  induction hs with
  | refl => exact h
  | tail _ pa n mask ih => exact hshadow ih pa n mask

/-- A store that scatters taint is one that does not, but for the taint. -/
theorem ShadowSim.storeWithTaint {va : U32} {size : Nat} (hsize : size ≤ 4) {val : U32}
    (mask : Option U32) (h : Bare B s t) :
    Sim (Bare B) (storeWithTaint va size val mask) (storeWithTaint va size val none) s t := by
  refine (hB.storeImpl va size val h).bind fun _ s' t' hs _ h' => ?_
  cases mask with
  | none => exact Sim.pure h'
  | some m =>
    obtain ⟨b, hst, hsh⟩ := storeTaint_of_granted (storeImpl_granted hsize hs)
    show Sim (Bare B) (storeTaint va size m) (pure ()) s' t'
    refine ⟨?_, ?_⟩
    · rw [hst]
      rfl
    · rw [hst]
      exact ⟨h'.hart, h'.tlb, hsh.rel hB.shadow h'.bus⟩

/-- The access of an AMO: its taint goes to the destination register only. -/
theorem ShadowSim.amoAccess (op : AmoOp) (rd : Reg) (va src : U32) (h : Bare B s t) :
    Sim (Bare B) (amoAccess op rd va src) (amoAccess op rd va src) s t := by
  refine (hB.xlate h va .write).bind fun pa s₁ t₁ _ _ h₁ => ?_
  refine (hB.busLoad pa 4 h₁).bind fun old s₂ t₂ _ _ h₂ => ?_
  -- the raw state of the two buses differs, and reaches the taint of `rd` only
  have hraw : Sim (Bare B)
      (FuzzSoft.modifyHart (fun h => if h.kmsanEnabled then
        h.wrTaint rd (Bus.readRawState s₂.bus pa 4) else h))
      (FuzzSoft.modifyHart (fun h => if h.kmsanEnabled then
        h.wrTaint rd (Bus.readRawState t₂.bus pa 4) else h)) s₂ t₂ := by
    refine h₂.modifyHart fun h => ?_
    simp only [Hart.bare_kmsanEnabled, Bool.false_eq_true, if_false]
    split <;> simp
  have hrest := hraw.bind (f := fun _ => FuzzSoft.busStore pa 4 (amoResult op old src) >>=
      fun _ => (pure old : Exec β U32))
    (g := fun _ => FuzzSoft.busStore pa 4 (amoResult op old src) >>=
      fun _ => (pure old : Exec γ U32)) fun _ _ _ _ _ h₃ =>
    (hB.busStore pa 4 _ h₃).bind fun _ _ _ _ _ h₄ => Sim.pure h₄
  exact ⟨hrest.out, hrest.rel⟩

/-! ## Steps -/

/-- The trap of a branch on tainted operands. -/
def Trap.Tainted : Trap → Prop
  | .kmsanTainted _ _ _ _ _ => True
  | _ => False

omit [Bus β] [Bus γ] hB in
/-- A branch, unless its operands are tainted. -/
theorem Bare.execBranch (op : BranchOp) (rs1 rs2 : Reg) (imm pc next : U32) (h : Bare B s t) :
    SimUnless Trap.Tainted (Bare B) (execBranch op rs1 rs2 imm pc next)
      (execBranch op rs1 rs2 imm pc next) s t := by
  by_cases hk : (s.hart.kmsanEnabled && (s.hart.rdTaint rs1 ≠ 0 || s.hart.rdTaint rs2 ≠ 0)) = true
  · refine .inl ⟨.kmsanTainted pc rs1 rs2 (s.hart.rdTaint rs1) (s.hart.rdTaint rs2), trivial, ?_⟩
    have hthrow : FuzzSoft.execBranch op rs1 rs2 imm pc next s =
        (if s.hart.kmsanEnabled && (s.hart.rdTaint rs1 ≠ 0 || s.hart.rdTaint rs2 ≠ 0) then
          Comp.throw (.kmsanTainted pc rs1 rs2 (s.hart.rdTaint rs1) (s.hart.rdTaint rs2))
        else pure _ : Exec β U32) (s.setHart _) := rfl
    rw [hthrow, if_pos hk]
    rfl
  · refine .inr (h.getHart_bind ?_)
    simp only [hk, Hart.bare_kmsanEnabled, Bool.false_and, Bool.false_eq_true, if_false,
      Hart.bare_rdReg]
    exact (h.modifyHart fun h => by simp).bind fun _ _ _ _ _ h' => Sim.pure h'

/-- A store instruction scatters its taint on the instrumented side only. -/
theorem ShadowSim.execStore (op : StoreOp) (rs1 rs2 : Reg) (imm : U32) (h : Bare B s t) :
    Sim (Bare B) (execStore op rs1 rs2 imm) (execStore op rs1 rs2 imm) s t := by
  have hsize : op.size ≤ 4 := by cases op <;> decide
  refine h.getHart_bind ?_
  exact (hB.storeWithTaint hsize _ h).bind fun _ _ _ _ _ h' => Sim.pure h'

/-- The store of a store-conditional. -/
theorem ShadowSim.storeIf (success : Bool) (va val : U32) (h : Bare B s t) :
    Sim (Bare B) (storeIf success va val) (storeIf success va val) s t := by
  unfold FuzzSoft.storeIf
  split
  · exact hB.storeImpl va 4 val h
  · exact Sim.pure h

/-- One instruction: it is a branch that KMSAN stops, or the bare hart does the same. -/
theorem ShadowSim.execInst (inst : Inst) (pc next iword : U32) (h : Bare B s t) :
    SimUnless Trap.Tainted (Bare B) (execInst inst pc next iword) (execInst inst pc next iword)
      s t := by
  cases inst with
  | branch op rs1 rs2 imm =>
    exact (h.execBranch op rs1 rs2 imm pc next).bind fun _ _ _ _ h' => .inr (Sim.pure h')
  | lui | auipc | jal | jalr | opImm =>
    exact .inr (h.getHart_bind (h.modifyHart_pure fun h => by simp))
  | load op rd rs1 imm =>
    have hsize : op.size ≤ 4 := by cases op <;> decide
    refine .inr (h.getHart_bind (hB.loadWithTaint_bind hsize h fun v mask s' t' h' => ?_))
    exact h'.modifyHart_pure fun h => by simp
  | store op rs1 rs2 imm =>
    exact .inr (h.getHart_bind ((hB.execStore op rs1 rs2 imm h).bind
      fun _ _ _ _ _ h' => Sim.pure h'))
  | op op rd rs1 rs2 =>
    refine .inr (h.getHart_bind (h.modifyHart_pure fun h => ?_))
    dsimp only
    split <;> simp
  | mul op rd rs1 rs2 =>
    refine .inr (h.getHart_bind (h.modifyHart_pure fun h => ?_))
    dsimp only
    rw [Hart.logUbsan_bare, ite_self]
    split <;> simp
  | lrW rd rs1 aq rl =>
    refine .inr (h.getHart_bind (hB.loadWithTaint_bind (by decide) h fun v mask s' t' h' => ?_))
    refine h'.modifyHart_pure fun h => ?_
    have hw := (h.wrTainted_bare rd v 0).trans (h.bare_wrTainted rd v (mask.getD 0)).symm
    exact congrArg (fun h => { h with reservation := some (s.hart.rdReg rs1) }) hw
  | scW rd rs1 rs2 aq rl =>
    refine .inr (h.getHart_bind ((hB.storeIf _ _ _ h).bind fun _ _ _ _ _ h' => ?_))
    refine h'.modifyHart_pure fun h => ?_
    exact congrArg (fun h => { h with reservation := none }) (h.bare_wrClean rd _).symm
  | amoW op rd rs1 rs2 aq rl =>
    refine .inr (h.getHart_bind ((hB.amoAccess op rd _ _ h).bind fun old _ _ _ _ h' => ?_))
    exact h'.modifyHart_pure fun h => (Hart.bare_wrReg { h with reservation := none } rd old).symm
  | fence | wfi | ecall | ebreak => exact .inr (h.getHart_bind (Sim.pure h))
  | csr op rd src csr =>
    exact .inr (h.getHart_bind ((h.execCsr op rd src csr pc iword).bind
      fun _ _ _ _ _ h' => Sim.pure h'))
  | mret | sret =>
    refine .inr (h.getHart_bind ?_)
    have hpriv : s.hart.bare.privilege = s.hart.privilege := rfl
    dsimp only
    rw [hpriv]
    split
    · exact Sim.throw h
    · exact h.modifyHart_pure fun h => by simp
  | sfenceVma =>
    refine .inr (h.getHart_bind (Sim.bind (Sim.modify h.flush) fun _ _ _ _ _ h' => Sim.pure h'))
  | illegal raw => exact .inr (h.getHart_bind (Sim.throw h))

/-- The fetch of an instruction. -/
theorem ShadowSim.fetchDecode (pc : U32) (h : Bare B s t) :
    Sim (Bare B) (fetchDecode pc) (fetchDecode pc) s t := by
  refine (hB.fetch16 pc h).bind fun lo s' t' _ _ h' => ?_
  split
  · exact Sim.pure h'
  · exact (hB.fetch16 (pc + 2) h').bind fun _ _ _ _ _ h'' => Sim.pure h''

/-- A step, unless it ends in the tainted trap. -/
theorem ShadowSim.step (h : Bare B s t) : SimUnless Trap.Tainted (Bare B) step step s t := by
  refine h.getHart_unless ?_
  refine SimUnless.bind (.inr (hB.fetchDecode s.hart.pc h)) fun f s' t' _ h' => ?_
  refine (hB.execInst f.inst _ _ _ h').bind fun r _ _ _ h'' => .inr ?_
  exact h''.modifyHart_pure fun h => by simp

/-- A step that a tainted branch ends. -/
def HaltsTainted (s : Sys β) : Prop :=
  s.hart.pollInterrupt.1 = false ∧
    ∃ e, Trap.Tainted e ∧ (FuzzSoft.step (s.setHart s.hart.pollInterrupt.2)).1 = .error e

instance : DecidablePred Trap.Tainted
  | .kmsanTainted _ _ _ _ _ => isTrue trivial
  | .mem _ | .illegal _ _ | .exception _ _ => isFalse id

omit [Bus γ] hB in
/-- The tainted halt read off a step. -/
theorem haltsTainted_iff (s : Sys β) : HaltsTainted s ↔ s.hart.pollInterrupt.1 = false ∧
    match (FuzzSoft.step (s.setHart s.hart.pollInterrupt.2)).1 with
    | .error e => Trap.Tainted e
    | .ok _ => False := by
  refine and_congr_right fun _ => ?_
  cases (FuzzSoft.step (s.setHart s.hart.pollInterrupt.2)).1 <;> simp

omit [Bus γ] in
instance (s : Sys β) : Decidable (HaltsTainted s) :=
  have : Decidable (match (FuzzSoft.step (s.setHart s.hart.pollInterrupt.2)).1 with
    | .error e => Trap.Tainted e
    | .ok _ => False) := by split <;> infer_instance
  decidable_of_iff _ (haltsTainted_iff s).symm

/-- A step of the system, unless it is the tainted halt. -/
theorem ShadowSim.stepSystem (h : Bare B s t) (hn : ¬HaltsTainted s) :
    (stepSystem t).1 = (stepSystem s).1 ∧ Bare B (stepSystem s).2 (stepSystem t).2 := by
  have hpoll : t.hart.pollInterrupt = (s.hart.pollInterrupt.1, s.hart.pollInterrupt.2.bare) := by
    rw [h.hart, Hart.bare_pollInterrupt]
  have hp : Bare B (s.setHart s.hart.pollInterrupt.2) (t.setHart t.hart.pollInterrupt.2) :=
    h.setHart (by rw [hpoll])
  unfold FuzzSoft.stepSystem
  rw [hpoll] at hp ⊢
  dsimp only
  split
  · exact ⟨rfl, hp⟩
  next hi =>
    rcases hB.step hp with ⟨e, he, hx⟩ | hstep
    · exact absurd ⟨by simpa using hi, e, he, hx⟩ hn
    · rw [hstep.out]
      have hf := (FuzzSoft.step (s.setHart s.hart.pollInterrupt.2)).2.hart.bare_finishExit
        (FuzzSoft.step (s.setHart s.hart.pollInterrupt.2)).1
      rw [← hstep.rel.hart] at hf
      exact ⟨congrArg Prod.fst hf, hstep.rel.setHart (congrArg Prod.snd hf)⟩

end

end FuzzSoft
