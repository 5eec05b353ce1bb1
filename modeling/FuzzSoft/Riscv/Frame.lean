import FuzzSoft.Riscv.FastPa

/-!
# What a step changes of the hart

Memory accesses change the TLB of a hart and nothing else of it (`Keeps Sys.hart`). So the effect of
an instruction on the reservation and on the comparison log can be read off the instruction:
`execInst_reservation` and `execInst_cmplog`, and for a whole step `stepSystem_reservation`.
-/

namespace FuzzSoft

open Lib

/-! ## Accesses -/

section
variable {β : Type} [Bus β]

/-- A translation leaves the hart alone. -/
theorem xlate_keeps (va : U32) (access : Access) : Keeps (@Sys.hart β) (xlate va access) :=
  fun s => (xlate_effect va access s).hart

/-- A bus load leaves the hart alone. -/
theorem busLoad_keeps (pa : U32) (n : Nat) : Keeps (@Sys.hart β) (busLoad pa n) :=
  fun _ => rfl

/-- A bus store leaves the hart alone. -/
theorem busStore_keeps (pa : U32) (n : Nat) (v : U32) :
    Keeps (@Sys.hart β) (busStore pa n v) := fun _ => rfl

/-- Reading the marks of a span leaves the hart alone. -/
theorem busRawState_keeps (pa : U32) (n : Nat) : Keeps (@Sys.hart β) (busRawState pa n) :=
  Keeps.gets _

/-- Writing the marks of a span leaves the hart alone. -/
theorem busWriteShadow_keeps (pa : U32) (n : Nat) (mask : U32) :
    Keeps (@Sys.hart β) (busWriteShadow pa n mask) := fun _ => rfl

/-- A fetch leaves the hart alone. -/
theorem fetch16_keeps (va : U32) : Keeps (@Sys.hart β) (fetch16 va) :=
  (xlate_keeps va .exec).bind fun _ _ => rfl

/-- A fetch changes nothing of the hart but its TLB. -/
theorem fetchDecode_keeps (pc : U32) : Keeps (@Sys.hart β) (fetchDecode pc) := by
  refine (fetch16_keeps pc).bind fun lo => ?_
  split
  · exact Keeps.pure _
  · exact (fetch16_keeps (pc + 2)).bind fun _ => Keeps.pure _

omit [Bus β] in
/-- A gather leaves the hart alone if its bytes do. -/
theorem gather_keeps {one : U32 → Exec β U32} (hone : ∀ va, Keeps Sys.hart (one va)) (va : U32)
    (i n : Nat) : Keeps Sys.hart (gather one va i n) := by
  induction n generalizing i with
  | zero => exact Keeps.pure _
  | succ n ih => exact (hone _).bind fun _ => (ih (i + 1)).bind fun _ => Keeps.pure _

omit [Bus β] in
/-- A scatter leaves the hart alone if its bytes do. -/
theorem scatter_keeps {one : U32 → Nat → Exec β Unit} (hone : ∀ va i, Keeps Sys.hart (one va i))
    (va : U32) (i n : Nat) : Keeps Sys.hart (scatter one va i n) := by
  induction n generalizing i with
  | zero => exact Keeps.pure _
  | succ n ih => exact (hone _ i).bind fun _ => ih (i + 1)

/-- A load leaves the hart alone. -/
theorem loadImpl_keeps (va : U32) (size : Nat) (signed : Bool) :
    Keeps (@Sys.hart β) (loadImpl va size signed) := by
  refine Keeps.bind ?_ fun _ => Keeps.pure _
  unfold loadSpan
  split
  · refine gather_keeps (fun va => ?_) va 0 size
    exact (xlate_keeps va .read).bind fun pa => (busLoad_keeps pa 1).bind fun _ => Keeps.pure _
  · exact (xlate_keeps va .read).bind fun pa => busLoad_keeps pa size

/-- Gathering the taint of a load leaves the hart alone. -/
theorem loadTaint_keeps (va : U32) (size : Nat) :
    Keeps (@Sys.hart β) (loadTaint va size) := by
  unfold loadTaint
  split
  · refine gather_keeps (fun va => ?_) va 0 size
    exact (xlate_keeps va .read).bind fun pa => busRawState_keeps pa 1
  · exact (xlate_keeps va .read).bind fun pa => busRawState_keeps pa size

/-- A load with its taint leaves the hart alone; only the instruction writes a register. -/
theorem loadWithTaint_keeps (va : U32) (size : Nat) (signed : Bool) :
    Keeps (@Sys.hart β) (loadWithTaint va size signed) := by
  refine (loadImpl_keeps va size signed).bind fun _ => (Keeps.gets _).bind fun h => ?_
  split
  · exact (loadTaint_keeps va size).bind fun _ => Keeps.pure _
  · exact Keeps.pure _

/-- A store leaves the hart alone. -/
theorem storeImpl_keeps (va : U32) (size : Nat) (val : U32) :
    Keeps (@Sys.hart β) (storeImpl va size val) := by
  unfold storeImpl
  split
  · refine scatter_keeps (fun va i => ?_) va 0 size
    exact (xlate_keeps va .write).bind fun pa => busStore_keeps pa 1 _
  · exact (xlate_keeps va .write).bind fun pa => busStore_keeps pa size val

/-- Scattering the taint of a store leaves the hart alone. -/
theorem storeTaint_keeps (va : U32) (size : Nat) (mask : U32) :
    Keeps (@Sys.hart β) (storeTaint va size mask) := by
  unfold storeTaint
  split
  · refine scatter_keeps (fun va i => ?_) va 0 size
    exact (xlate_keeps va .write).bind fun pa => busWriteShadow_keeps pa 1 _
  · exact (xlate_keeps va .write).bind fun pa => busWriteShadow_keeps pa size mask

/-- A store with its taint leaves the hart alone. -/
theorem storeWithTaint_keeps (va : U32) (size : Nat) (val : U32) (mask : Option U32) :
    Keeps (@Sys.hart β) (storeWithTaint va size val mask) := by
  refine (storeImpl_keeps va size val).bind fun _ => ?_
  cases mask with
  | none => exact Keeps.pure _
  | some t => exact storeTaint_keeps va size t

/-- The store of a store-conditional leaves the hart alone. -/
theorem storeIf_keeps (success : Bool) (va val : U32) :
    Keeps (@Sys.hart β) (storeIf success va val) := by
  unfold storeIf
  split
  · exact storeImpl_keeps va 4 val
  · exact Keeps.pure _

/-- A store instruction leaves the hart alone. -/
theorem execStore_keeps (op : StoreOp) (rs1 rs2 : Reg) (imm : U32) :
    Keeps (@Sys.hart β) (execStore op rs1 rs2 imm) :=
  (Keeps.gets _).bind fun _ => (storeWithTaint_keeps _ _ _ _).bind fun _ => Keeps.pure _

/-! ## Instructions -/

/-- The reservation a retired instruction leaves. -/
def Inst.reservationAfter (inst : Inst) (h : Hart) : Option U32 :=
  match inst with
  | .lrW _ rs1 _ _ => some (h.rdReg rs1)
  | .scW .. | .amoW .. => none
  | _ => h.reservation

/-- The operands that an instruction logs. -/
def Inst.compared (inst : Inst) (h : Hart) : Option (U32 × U32) :=
  match inst with
  | .branch _ rs1 rs2 _ => some (h.rdReg rs1, h.rdReg rs2)
  | .op .sub _ rs1 rs2 => some (h.rdReg rs1, h.rdReg rs2)
  | .op .xor _ rs1 rs2 => some (h.rdReg rs1, h.rdReg rs2)
  | _ => none

end

/-- The part of a hart that instructions change in a few places only. -/
structure Marks where
  reservation : Option U32
  cmplog : Option (List (U32 × U32))

namespace Hart

def marks (h : Hart) : Marks := ⟨h.reservation, h.cmplog⟩

@[simp] theorem wrReg_marks (h : Hart) (i : Reg) (v : U32) : (h.wrReg i v).marks = h.marks := by
  unfold wrReg
  split <;> rfl

@[simp] theorem wrTaint_marks (h : Hart) (i : Reg) (t : U32) : (h.wrTaint i t).marks = h.marks := by
  unfold wrTaint
  split
  · rfl
  · split <;> rfl

@[simp] theorem wrClean_marks (h : Hart) (i : Reg) (v : U32) : (h.wrClean i v).marks = h.marks := by
  simp [wrClean]

@[simp] theorem wrTainted_marks (h : Hart) (i : Reg) (v t : U32) :
    (h.wrTainted i v t).marks = h.marks := by
  simp [wrTainted]

@[simp] theorem logUbsan_marks (h : Hart) (pc : U32) : (h.logUbsan pc).marks = h.marks := by
  unfold logUbsan
  split
  · split <;> rfl
  · rfl

@[simp] theorem retire_marks (h : Hart) (next : U32) : (h.retire next).marks = h.marks := rfl

@[simp] theorem mret_marks (h : Hart) : h.mret.marks = h.marks := rfl

@[simp] theorem sret_marks (h : Hart) : h.sret.marks = h.marks := rfl

@[simp] theorem takeTrap_marks (h : Hart) (cause tval : U32) (interrupt : Bool) :
    (h.takeTrap cause tval interrupt).marks = h.marks := by
  obtain ⟨csr, p, pc, he⟩ := h.takeTrap_eq cause tval interrupt
  rw [he]
  rfl

@[simp] theorem pollInterrupt_marks (h : Hart) : h.pollInterrupt.2.marks = h.marks := by
  obtain ⟨csr, p, pc, he⟩ := h.pollInterrupt_eq
  rw [he]
  rfl

@[simp] theorem finishExit_marks (h : Hart) (r : Except Trap Exit) :
    (h.finishExit r).2.marks = h.marks := by
  unfold finishExit
  split <;> try simp only [takeTrap_marks]
  · split
    · rfl
    · simp only [takeTrap_marks]
  · rfl

/-- Logging a comparison adds to its log only. -/
theorem logCmp_marks (h : Hart) (a b : U32) :
    (h.logCmp a b).marks = ⟨h.reservation, (h.logCmp a b).cmplog⟩ := by
  unfold logCmp
  split
  · split <;> rfl
  · rfl

end Hart

/-- What an instruction makes of the marks of a hart; a faulting one changes the log at most. -/
def Inst.marksAfter (inst : Inst) (h : Hart) (ok : Bool) : Marks where
  reservation := if ok then inst.reservationAfter h else h.reservation
  cmplog := match inst.compared h with
    | some (a, b) => (h.logCmp a b).cmplog
    | none => h.cmplog

section
variable {β : Type} [Bus β]

omit [Bus β] in
/-- A new CSR file leaves the marks. -/
theorem setCsr_marks (c : Csr) (flush : Bool) (s : Sys β) :
    (setCsr c flush s).2.hart.marks = s.hart.marks := by
  cases flush <;> rfl

omit [Bus β] in
/-- A CSR instruction leaves the marks. -/
theorem execCsr_marks (op : CsrOp) (rd src : Reg) (csr : U16) (pc iword : U32) (s : Sys β) :
    (execCsr op rd src csr pc iword s).2.hart.marks = s.hart.marks := by
  have hw : ∀ old trap, Keeps (fun s : Sys β => s.hart.marks) (writeCsr op src csr old trap) := by
    intro old trap
    refine (Keeps.gets _).bind fun h => ?_
    split
    · split
      · exact fun _ => rfl
      · exact setCsr_marks _ _
    · exact Keeps.pure _
  refine ((Keeps.gets _).bind fun h => ?_ : Keeps (fun s : Sys β => s.hart.marks) _) s
  split
  · exact fun _ => rfl
  · exact (hw _ _).bind fun _ _ => Hart.wrClean_marks _ _ _

omit [Bus β] in
/-- A branch logs its operands and changes nothing else of the hart. -/
theorem execBranch_hart (op : BranchOp) (rs1 rs2 : Reg) (imm pc next : U32) (s : Sys β) :
    (execBranch op rs1 rs2 imm pc next s).2.hart =
      s.hart.logCmp (s.hart.rdReg rs1) (s.hart.rdReg rs2) := by
  unfold execBranch getHart modifyHart
  rw [Comp.gets_bind]
  dsimp only
  rw [Comp.modify_bind]
  split <;> rfl

/-- The access of an AMO leaves the marks: its reservation is cleared afterwards. -/
theorem amoAccess_marks (op : AmoOp) (rd : Reg) (va src : U32) :
    Keeps (fun s : Sys β => s.hart.marks) (amoAccess op rd va src) := by
  have lift : ∀ {α : Type} {x : Exec β α}, Keeps Sys.hart x →
      Keeps (fun s : Sys β => s.hart.marks) x := fun h s => congrArg Hart.marks (h s)
  refine (lift (xlate_keeps va .write)).bind fun pa => ?_
  refine (lift (busLoad_keeps pa 4)).bind fun old => ?_
  refine (lift (busRawState_keeps pa 4)).bind fun raw => ?_
  refine Keeps.bind (fun s => ?_) fun _ => (lift (busStore_keeps pa 4 _)).bind fun _ => Keeps.pure _
  show (if s.hart.kmsanEnabled then s.hart.wrTaint rd raw else s.hart).marks = _
  split
  · exact Hart.wrTaint_marks _ _ _
  · rfl

end

section
variable {β : Type}

/-- From `s` the computation leaves the marks that `f` says, of success or failure. -/
def Leaves {α : Type} (x : Exec β α) (s : Sys β) (f : Bool → Marks) : Prop :=
  (x s).2.hart.marks = f (x s).1.isOk

/-- A computation that keeps the hart keeps its marks. -/
theorem keeps_marks {α : Type} {x : Exec β α} (h : Keeps Sys.hart x) :
    Keeps (fun s : Sys β => s.hart.marks) x := fun s => congrArg Hart.marks (h s)

namespace Leaves

variable {α α' : Type} {s : Sys β} {f : Bool → Marks}

/-- A computation that ends leaves the hart as it is. -/
theorem pure {a : α} (h : s.hart.marks = f true) : Leaves (pure a : Exec β α) s f := h

/-- So does one that fails. -/
theorem throw {e : Trap} (h : s.hart.marks = f false) : Leaves (Comp.throw e : Exec β α) s f := h

/-- Looking at the hart leaves it. -/
theorem getHart_bind {g : Hart → Exec β α} (h : Leaves (g s.hart) s f) :
    Leaves (getHart >>= g) s f := h

/-- An update is followed by what comes after it. -/
theorem modify_bind {g : Hart → Hart} {y : Exec β α} (h : Leaves y (s.setHart (g s.hart)) f) :
    Leaves (modifyHart g >>= fun _ => y) s f := h

/-- After a part that keeps the marks. -/
theorem bind {x : Exec β α} {g : α → Exec β α'} (hx : Keeps (fun s : Sys β => s.hart.marks) x)
    (herr : s.hart.marks = f false)
    (hok : ∀ a s', s'.hart.marks = s.hart.marks → Leaves (g a) s' f) : Leaves (x >>= g) s f := by
  rcases hx.bind_cases (f := g) s with ⟨e, s', he, -, hh⟩ | ⟨a, s', he, -, hh⟩
  · rw [Leaves, he]
    exact hh.trans herr
  · rw [Leaves, he]
    exact hok a s' hh

/-- Before a part that cannot fail and keeps the marks. -/
theorem seq {x : Exec β α} {g : α → Exec β α'} (hx : Leaves x s f)
    (hg : ∀ a s', (g a s').1.isOk = true ∧ (g a s').2.hart.marks = s'.hart.marks) :
    Leaves (x >>= g) s f := by
  rcases hxs : x s with ⟨r, s'⟩
  rw [Leaves, hxs] at hx
  cases r with
  | error e =>
    rw [Leaves, Comp.bind_error hxs]
    exact hx
  | ok a =>
    rw [Leaves, Comp.bind_ok hxs, (hg a s').1, (hg a s').2]
    exact hx

end Leaves

variable [Bus β]

/-- The marks an instruction leaves. -/
theorem execInst_marks (inst : Inst) (pc next iword : U32) (s : Sys β) :
    Leaves (execInst inst pc next iword) s (inst.marksAfter s.hart) := by
  refine Leaves.getHart_bind ?_
  cases inst with
  | lui | auipc | jal | jalr =>
    refine Leaves.modify_bind (Leaves.pure ?_)
    exact Hart.wrClean_marks _ _ _
  | opImm =>
    refine Leaves.modify_bind (Leaves.pure ?_)
    exact Hart.wrTainted_marks _ _ _ _
  | branch op rs1 rs2 imm =>
    have hlog := congrArg Hart.marks (execBranch_hart op rs1 rs2 imm pc next s)
    refine Leaves.seq (x := execBranch op rs1 rs2 imm pc next) ?_ fun _ _ => ⟨rfl, rfl⟩
    refine (hlog.trans (Hart.logCmp_marks _ _ _)).trans ?_
    cases (execBranch op rs1 rs2 imm pc next s).1.isOk <;> rfl
  | load op rd rs1 imm =>
    refine Leaves.bind (keeps_marks (loadWithTaint_keeps _ _ _)) rfl fun r s' hh => ?_
    refine Leaves.modify_bind (Leaves.pure ?_)
    exact (Hart.wrTainted_marks _ _ _ _).trans hh
  | store op rs1 rs2 imm =>
    refine Leaves.bind (keeps_marks (execStore_keeps op rs1 rs2 imm)) rfl fun _ _ hh => ?_
    exact Leaves.pure hh
  | op op rd rs1 rs2 =>
    refine Leaves.modify_bind (Leaves.pure ((Hart.wrTainted_marks _ _ _ _).trans ?_))
    have hlog := s.hart.logCmp_marks (s.hart.rdReg rs1) (s.hart.rdReg rs2)
    cases op <;> first | exact hlog | rfl
  | mul op rd rs1 rs2 =>
    refine Leaves.modify_bind (Leaves.pure ((Hart.wrTainted_marks _ _ _ _).trans ?_))
    split
    · exact Hart.logUbsan_marks _ _
    · rfl
  | lrW rd rs1 aq rl =>
    refine Leaves.bind (keeps_marks (loadWithTaint_keeps _ _ _)) rfl fun r s' hh => ?_
    refine Leaves.modify_bind (Leaves.pure ?_)
    have hc := congrArg Marks.cmplog (((s'.hart.wrTainted_marks rd r.1 (r.2.getD 0))).trans hh)
    exact congrArg (Marks.mk _) hc
  | scW rd rs1 rs2 aq rl =>
    refine Leaves.bind (keeps_marks (storeIf_keeps _ _ _)) rfl fun _ s' hh => ?_
    refine Leaves.modify_bind (Leaves.pure ?_)
    exact congrArg (Marks.mk none) (congrArg Marks.cmplog ((Hart.wrClean_marks _ _ _).trans hh))
  | amoW op rd rs1 rs2 aq rl =>
    refine Leaves.bind (amoAccess_marks op rd _ _) rfl fun _ s' hh => ?_
    refine Leaves.modify_bind (Leaves.pure ?_)
    exact (Hart.wrReg_marks _ _ _).trans (congrArg (Marks.mk none) (congrArg Marks.cmplog hh))
  | fence | wfi | ecall | ebreak => exact Leaves.pure rfl
  | csr op rd src csr =>
    refine Leaves.bind (execCsr_marks op rd src csr pc iword) rfl fun _ _ hh => ?_
    exact Leaves.pure hh
  | mret | sret =>
    dsimp only
    split
    · exact Leaves.throw rfl
    · exact Leaves.modify_bind (Leaves.pure rfl)
  | sfenceVma => exact Leaves.pure rfl
  | illegal raw => exact Leaves.throw rfl

/-- What an instruction does to the marks, as its class says. -/
theorem execOne_marks (inst : Inst) (pc ilen iword : U32) (s : Sys β) :
    Leaves (execOne inst pc ilen iword) s (inst.marksAfter s.hart) :=
  (execInst_marks inst pc (pc + ilen) iword s).seq fun _ _ => ⟨rfl, rfl⟩

/-! ## Steps -/

/-- The instruction that a step retires, with the system it executes from. -/
def retired (s : Sys β) : Option (Inst × Sys β) :=
  let p := s.hart.pollInterrupt
  let s := s.setHart p.2
  if p.1 then none
  else
    match fetchDecode s.hart.pc s with
    | (.error _, _) => none
    | (.ok f, s') =>
      match execOne f.inst s.hart.pc f.ilen f.iword s' with
      | (.error _, _) => none
      | (.ok _, _) => some (f.inst, s')

/-- The instruction executes on the hart as the poll leaves it. -/
theorem retired_hart {s t : Sys β} {inst : Inst} (h : retired s = some (inst, t)) :
    t.hart = s.hart.pollInterrupt.2 := by
  unfold retired at h
  dsimp only at h
  split at h
  · cases h
  · have hfetch := fetchDecode_keeps (s.setHart s.hart.pollInterrupt.2).hart.pc
      (s.setHart s.hart.pollInterrupt.2)
    split at h
    · cases h
    next hf =>
      rw [hf] at hfetch
      split at h
      · cases h
      · cases h
        exact hfetch

/-- The instruction executes with the reservation and the log from before the step. -/
theorem retired_marks {s t : Sys β} {inst : Inst} (h : retired s = some (inst, t)) :
    t.hart.marks = s.hart.marks :=
  (congrArg Hart.marks (retired_hart h)).trans s.hart.pollInterrupt_marks

/-- A step changes the reservation only by retiring an instruction that does. -/
theorem stepSystem_reservation (s : Sys β) : (stepSystem s).2.hart.reservation =
    match retired s with
    | some (inst, s') => inst.reservationAfter s'.hart
    | none => s.hart.reservation := by
  have hpoll := congrArg Marks.reservation s.hart.pollInterrupt_marks
  unfold stepSystem retired
  dsimp only
  generalize hs₀ : s.setHart s.hart.pollInterrupt.2 = s₀
  have hr₀ : s₀.hart.reservation = s.hart.reservation := by
    rw [← hs₀]
    exact hpoll
  split
  · exact hr₀
  unfold step getHart
  rw [Comp.gets_bind]
  have hfetch := fetchDecode_keeps s₀.hart.pc s₀
  rcases hf : fetchDecode s₀.hart.pc s₀ with ⟨r, s₁⟩
  rw [hf] at hfetch
  have hfin : ∀ (t : Sys β) r, (t.finishExit r).2.hart.reservation = t.hart.reservation :=
    fun t r => congrArg Marks.reservation (t.hart.finishExit_marks r)
  cases r with
  | error e =>
    rw [Comp.bind_error hf, hfin]
    exact (congrArg Hart.reservation hfetch).trans hr₀
  | ok f =>
    rw [Comp.bind_ok hf, hfin]
    have hx := execOne_marks f.inst s₀.hart.pc f.ilen f.iword s₁
    rcases he : execOne f.inst s₀.hart.pc f.ilen f.iword s₁ with ⟨r, s₂⟩
    rw [Leaves, he] at hx
    simp only [he]
    cases r with
    | error e =>
      have h₁ : s₁.hart.reservation = s.hart.reservation :=
        (congrArg Hart.reservation hfetch).trans hr₀
      exact (congrArg Marks.reservation hx).trans h₁
    | ok x => exact congrArg Marks.reservation hx

end

end FuzzSoft
