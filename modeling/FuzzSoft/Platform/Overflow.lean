import FuzzSoft.Riscv.Checked
import FuzzSoft.Platform.Machine

/-!
# Where a step overflows

The traps and interrupts of a step in checked arithmetic. The causes of the traps of an instruction
are below the width of the delegation registers, so the one operation of a step that can overflow is
the sum that finds the entry of an interrupt in a vectored table (`stepSystem_eq`). A run is free of
overflow exactly when it takes no interrupt whose entry is past the end of the address space
(`run_isSome_iff`).
-/

namespace FuzzSoft

open Lib Lib.Checked

/-! ## The causes of traps -/

/-- A trap whose cause is an index of a delegation register. -/
def Trap.Indexed : Trap → Prop
  | .exception cause _ => cause.toNat < 32
  | _ => True

/-- A page fault is a delegable cause. -/
theorem pageFault_indexed (access : Access) (va : U32) : (pageFault access va).Indexed := by
  cases access with
  | exec => exact show E_INSTR_PAGE_FAULT.toNat < 32 by decide
  | read => exact show E_LOAD_PAGE_FAULT.toNat < 32 by decide
  | write => exact show E_STORE_PAGE_FAULT.toNat < 32 by decide

section
variable {β : Type} [Bus β]

/-- A page walk raises such traps only. -/
theorem raises_walkFill (va : U32) (access : Access) :
    Raises Trap.Indexed (walkFill va access : Exec β U32) := by
  intro s e s' h
  unfold walkFill at h
  split at h
  · cases h
    exact pageFault_indexed access va
  · split at h <;> cases h
    exact pageFault_indexed access va

/-- A translation raises such traps only. -/
theorem raises_xlate (va : U32) (access : Access) :
    Raises Trap.Indexed (xlate va access : Exec β U32) := by
  intro s e s' h
  unfold xlate at h
  split at h
  · cases h
  split at h
  · split at h
    · cases h
      exact pageFault_indexed access va
    split at h
    · cases h
    · exact raises_walkFill va access _ _ _ h
  · exact raises_walkFill va access _ _ _ h

/-- A bus load raises such traps only. -/
theorem raises_busLoad (pa : U32) (size : Nat) :
    Raises Trap.Indexed (busLoad pa size : Exec β U32) := by
  intro s e s' h
  unfold busLoad at h
  cases hl : Bus.load s.bus pa size with
  | ok v =>
    rw [hl] at h
    cases h
  | error f =>
    rw [hl] at h
    cases h
    trivial

/-- A bus fetch raises such traps only. -/
theorem raises_busIfetch16 (pa : U32) : Raises Trap.Indexed (busIfetch16 pa : Exec β U16) := by
  intro s e s' h
  unfold busIfetch16 at h
  cases hl : Bus.ifetch16 s.bus pa with
  | ok v =>
    rw [hl] at h
    cases h
  | error f =>
    rw [hl] at h
    cases h
    trivial

/-- A bus store raises such traps only. -/
theorem raises_busStore (pa : U32) (size : Nat) (val : U32) :
    Raises Trap.Indexed (busStore pa size val : Exec β Unit) := by
  intro s e s' h
  unfold busStore at h
  rcases hl : Bus.store s.bus pa size val with ⟨r, b⟩
  rw [hl] at h
  cases r with
  | ok v => cases h
  | error f =>
    cases h
    trivial

omit [Bus β] in
/-- A gather raises what its bytes raise. -/
theorem raises_gather {one : U32 → Exec β U32} (h : ∀ a, Raises Trap.Indexed (one a)) (va : U32)
    (i n : Nat) : Raises Trap.Indexed (gather one va i n) := by
  induction n generalizing i with
  | zero => exact Raises.pure _
  | succ n ih => exact (h _).bind fun _ => (ih _).bind fun _ => Raises.pure _

omit [Bus β] in
/-- A scatter raises what its bytes raise. -/
theorem raises_scatter {one : U32 → Nat → Exec β Unit} (h : ∀ a i, Raises Trap.Indexed (one a i))
    (va : U32) (i n : Nat) : Raises Trap.Indexed (scatter one va i n) := by
  induction n generalizing i with
  | zero => exact Raises.pure _
  | succ n ih => exact (h _ _).bind fun _ => ih _

/-- A load raises such traps only. -/
theorem raises_loadImpl (va : U32) (size : Nat) (signed : Bool) :
    Raises Trap.Indexed (loadImpl va size signed : Exec β U32) := by
  refine Raises.bind (Raises.ite (raises_gather (fun a => ?_) va 0 size) ?_) fun _ => Raises.pure _
  · exact (raises_xlate a _).bind fun pa => (raises_busLoad pa 1).bind fun _ => Raises.pure _
  · exact (raises_xlate va _).bind fun pa => raises_busLoad pa size

/-- Gathering the taint of a load raises such traps only. -/
theorem raises_loadTaint (va : U32) (size : Nat) :
    Raises Trap.Indexed (loadTaint va size : Exec β U32) := by
  refine Raises.ite (raises_gather (fun a => ?_) va 0 size) ?_
  · exact (raises_xlate a _).bind fun pa => Raises.gets _
  · exact (raises_xlate va _).bind fun pa => Raises.gets _

/-- A load with its taint raises such traps only. -/
theorem raises_loadWithTaint (va : U32) (size : Nat) (signed : Bool) :
    Raises Trap.Indexed (loadWithTaint va size signed : Exec β _) :=
  (raises_loadImpl va size signed).bind fun _ => (Raises.gets _).bind fun _ =>
    Raises.ite ((raises_loadTaint va size).bind fun _ => Raises.pure _) (Raises.pure _)

/-- A store raises such traps only. -/
theorem raises_storeImpl (va : U32) (size : Nat) (val : U32) :
    Raises Trap.Indexed (storeImpl va size val : Exec β Unit) := by
  refine Raises.ite (raises_scatter (fun a i => ?_) va 0 size) ?_
  · exact (raises_xlate a _).bind fun pa => raises_busStore pa 1 _
  · exact (raises_xlate va _).bind fun pa => raises_busStore pa size val

/-- Scattering the taint of a store raises such traps only. -/
theorem raises_storeTaint (va : U32) (size : Nat) (mask : U32) :
    Raises Trap.Indexed (storeTaint va size mask : Exec β Unit) := by
  refine Raises.ite (raises_scatter (fun a i => ?_) va 0 size) ?_
  · exact (raises_xlate a _).bind fun pa => Raises.modify _
  · exact (raises_xlate va _).bind fun pa => Raises.modify _

/-- A store with its taint raises such traps only. -/
theorem raises_storeWithTaint (va : U32) (size : Nat) (val : U32) (mask : Option U32) :
    Raises Trap.Indexed (storeWithTaint va size val mask : Exec β Unit) := by
  refine (raises_storeImpl va size val).bind fun _ => ?_
  cases mask with
  | none => exact Raises.pure _
  | some t => exact raises_storeTaint va size t

/-- The access of an AMO raises such traps only. -/
theorem raises_amoAccess (op : AmoOp) (rd : Reg) (va src : U32) :
    Raises Trap.Indexed (amoAccess op rd va src : Exec β U32) :=
  (raises_xlate va _).bind fun pa => (raises_busLoad pa 4).bind fun _ => (Raises.gets _).bind fun _ =>
    (Raises.modify _).bind fun _ => (raises_busStore pa 4 _).bind fun _ => Raises.pure _

omit [Bus β] in
/-- A CSR instruction raises such traps only. -/
theorem raises_execCsr (op : CsrOp) (rd src : Reg) (csr : U16) (pc iword : U32) :
    Raises Trap.Indexed (execCsr op rd src csr pc iword : Exec β Unit) := by
  refine (Raises.gets _).bind fun h => ?_
  cases h.readCsr csr with
  | none => exact Raises.throw trivial
  | some old =>
    refine Raises.bind ((Raises.gets _).bind fun h' => Raises.ite ?_ (Raises.pure _)) fun _ =>
      Raises.modify _
    cases h'.csr.write csr (csrNew op old (h'.csrSrc op src)) h'.privilege with
    | none => exact Raises.throw trivial
    | some c => exact Raises.modify _

omit [Bus β] in
/-- A branch raises such traps only. -/
theorem raises_execBranch (op : BranchOp) (rs1 rs2 : Reg) (imm pc next : U32) :
    Raises Trap.Indexed (execBranch op rs1 rs2 imm pc next : Exec β U32) :=
  (Raises.gets _).bind fun _ => (Raises.modify _).bind fun _ =>
    Raises.ite (Raises.throw trivial) (Raises.pure _)

/-- Every instruction raises such traps only. -/
theorem raises_execInst (inst : Inst) (pc next iword : U32) :
    Raises Trap.Indexed (execInst inst pc next iword : Exec β _) := by
  refine (Raises.gets _).bind fun h => ?_
  cases inst with
  | branch op rs1 rs2 imm => exact (raises_execBranch _ _ _ _ _ _).bind fun _ => Raises.pure _
  | load op rd rs1 imm =>
    exact (raises_loadWithTaint _ _ _).bind fun _ => (Raises.modify _).bind fun _ => Raises.pure _
  | store op rs1 rs2 imm =>
    exact Raises.bind ((Raises.gets _).bind fun _ => (raises_storeWithTaint _ _ _ _).bind fun _ =>
      Raises.pure _) fun _ => Raises.pure _
  | lrW rd rs1 aq rl =>
    exact (raises_loadWithTaint _ _ _).bind fun _ => (Raises.modify _).bind fun _ => Raises.pure _
  | scW rd rs1 rs2 aq rl =>
    exact (Raises.ite (raises_storeImpl _ _ _) (Raises.pure _)).bind fun _ =>
      (Raises.modify _).bind fun _ => Raises.pure _
  | amoW op rd rs1 rs2 aq rl =>
    exact (raises_amoAccess _ _ _ _).bind fun _ => (Raises.modify _).bind fun _ => Raises.pure _
  | csr op rd src csr => exact (raises_execCsr _ _ _ _ _ _).bind fun _ => Raises.pure _
  | mret => exact Raises.ite (Raises.throw trivial) ((Raises.modify _).bind fun _ => Raises.pure _)
  | sret => exact Raises.ite (Raises.throw trivial) ((Raises.modify _).bind fun _ => Raises.pure _)
  | illegal raw => exact Raises.throw trivial
  | ecall | ebreak | fence | wfi => exact Raises.pure _
  | _ => exact (Raises.modify _).bind fun _ => Raises.pure _

/-- The fetch of a halfword raises such traps only. -/
theorem raises_fetch16 (va : U32) : Raises Trap.Indexed (fetch16 va : Exec β U16) :=
  (raises_xlate va _).bind fun pa => raises_busIfetch16 pa

/-- A step raises traps with a cause below 32 only. -/
theorem raises_step : Raises Trap.Indexed (step : Exec β Exit) := by
  refine (Raises.gets _).bind fun h => Raises.bind ?_ fun f => ?_
  · exact (raises_fetch16 _).bind fun lo => Raises.ite (Raises.pure _)
      ((raises_fetch16 _).bind fun hi => Raises.pure _)
  · exact (raises_execInst _ _ _ _).bind fun _ => (Raises.modify _).bind fun _ => Raises.pure _

end

/-! ## Traps in checked arithmetic -/

namespace Checked

def trapVector (tvec cause : U32) (interrupt : Bool) : Option U32 :=
  let base := tvec &&& ~~~0x3
  if tvec &&& 0x3 = 1 ∧ interrupt then do
    let off ← mul 4 cause
    add base off
  else pure base

/-- Bit `i` of a word of flags. -/
def bitSet (w i : U32) : Option Bool := do
  let x ← shr w i
  pure (x &&& 1 ≠ 0)

/-- The delegation register is not read in M mode. -/
def delegated (h : Hart) (cause : U32) (interrupt : Bool) : Option Bool :=
  if h.privilege.level ≤ Priv.s.level then
    bitSet (if interrupt then h.csr.mideleg else h.csr.medeleg) cause
  else pure false

def takeTrap (h : Hart) (cause tval : U32) (interrupt : Bool) : Option Hart := do
  let toS ← delegated h cause interrupt
  let pc ← trapVector (if toS then h.csr.stvec else h.csr.mtvec) cause interrupt
  pure { h.takeTrap cause tval interrupt with pc := pc }

/-- The first enabled interrupt of a list of codes. -/
def firstEnabled (h : Hart) (pending : U32) : List U32 → Option (Option U32)
  | [] => pure none
  | code :: codes => do
    let bit ← shl 1#32 code
    if pending &&& bit = 0 then firstEnabled h pending codes
    else do
      let toS ← bitSet h.csr.mideleg code
      let enabled :=
        if toS then h.privilege = .u || (h.privilege = .s && h.csr.mstatus &&& MSTATUS_SIE ≠ 0)
        else h.privilege ≠ .m || h.csr.mstatus &&& MSTATUS_MIE ≠ 0
      if enabled then pure (some code) else firstEnabled h pending codes

def pendingInterrupt (h : Hart) : Option (Option U32) :=
  let pending := h.csr.mip &&& h.csr.mie
  if pending = 0 then pure none else firstEnabled h pending [11, 3, 7, 9, 1, 5]

def pollInterrupt (h : Hart) : Option (Bool × Hart) := do
  let h := h.updateTimers
  match ← pendingInterrupt h with
  | some code => do
    let h ← takeTrap h code 0 true
    pure (true, h)
  | none => pure (false, h)

def finishExit (h : Hart) : Except Trap Exit → Option (SysExit × Hart)
  | .ok .ecall =>
    if h.hypercallEid = some (h.regs 17) then
      pure (.hypercall (h.regs 10), { h with pc := h.pc + 4 })
    else do
      let h ← takeTrap h (ecallCause h.privilege) 0 false
      pure (.continue, h)
  | .ok .ebreak => do
    let h ← takeTrap h E_BREAKPOINT h.pc false
    pure (.continue, h)
  | .error (.illegal _ raw) => do
    let h ← takeTrap h E_ILLEGAL raw false
    pure (.continue, h)
  | .error (.mem f) => do
    let h ← takeTrap h (memCause f) f.addr false
    pure (.continue, h)
  | .error (.exception cause tval) => do
    let h ← takeTrap h cause tval false
    pure (.continue, h)
  | r => pure (h.finishExit r)

section
variable {β : Type} [Bus β]

def stepSystem (s : Sys β) : Option (SysExit × Sys β) := do
  let p ← pollInterrupt s.hart
  let s := s.setHart p.2
  if p.1 then pure (.continue, s)
  else
    match step s with
    | (.error none, _) => none
    | (.error (some t), s') => do
      let f ← finishExit s'.hart (.error t)
      pure (f.1, s'.setHart f.2)
    | (.ok x, s') => do
      let f ← finishExit s'.hart (.ok x)
      pure (f.1, s'.setHart f.2)

/-- So many steps, whatever their exits; `none` is a panic in one of them. -/
def run (s : Sys β) : Nat → Option (Sys β)
  | 0 => pure s
  | n + 1 => do
    let s ← run s n
    let r ← stepSystem s
    pure r.2

end

end Checked

/-! ## The sum that overflows -/

/-- The vector of an interrupt in the mode that takes it. -/
def Hart.interruptVector (h : Hart) (code : Nat) : U32 :=
  if h.privilege.level ≤ Priv.s.level ∧ bitSet h.csr.mideleg code then h.csr.stvec else h.csr.mtvec

/-- The hart takes an interrupt whose entry in a vectored table is past the end of the address
space. -/
def Hart.vectorsPastEnd (h : Hart) : Bool :=
  let h := h.updateTimers
  match h.pendingInterrupt with
  | some code =>
    let tvec := h.interruptVector code
    tvec &&& 0x3 = 1 && 2 ^ 32 ≤ (tvec &&& ~~~0x3).toNat + 4 * code
  | none => false

namespace Checked

/-- The test of a bit below 32 does not overflow. -/
theorem bitSet_eq (w : U32) {i : U32} (h : i.toNat < 32) :
    bitSet w i = some (FuzzSoft.bitSet w i.toNat) := by
  simp only [bitSet, shr_eq h, Option.bind_eq_bind, Option.bind_some, Option.pure_def]
  rfl

/-- The delegation of a cause below 32 does not overflow. -/
theorem delegated_eq (h : Hart) {cause : U32} (hc : cause.toNat < 32) (interrupt : Bool) :
    delegated h cause interrupt = some (decide (h.privilege.level ≤ Priv.s.level ∧
      FuzzSoft.bitSet (if interrupt then h.csr.mideleg else h.csr.medeleg) cause.toNat)) := by
  unfold delegated
  split
  next hl => rw [bitSet_eq _ hc]; simp [hl]
  next hl => simp [hl]

/-- The vector a trap goes to. -/
theorem takeTrap_pc (h : Hart) (cause tval : U32) (interrupt : Bool) :
    (h.takeTrap cause tval interrupt).pc =
      FuzzSoft.trapVector (if h.privilege.level ≤ Priv.s.level ∧
        FuzzSoft.bitSet (if interrupt then h.csr.mideleg else h.csr.medeleg) cause.toNat
        then h.csr.stvec else h.csr.mtvec) cause interrupt := by
  unfold Hart.takeTrap
  dsimp only
  generalize (if interrupt then h.csr.mideleg else h.csr.medeleg) = deleg
  split <;> rfl

/-- A trap is delivered as soon as its vector is found. -/
theorem takeTrap_of_vector {h : Hart} {cause : U32} (hc : cause.toNat < 32) (tval : U32)
    {interrupt : Bool} :
    takeTrap h cause tval interrupt =
      (trapVector (if h.privilege.level ≤ Priv.s.level ∧
        FuzzSoft.bitSet (if interrupt then h.csr.mideleg else h.csr.medeleg) cause.toNat
        then h.csr.stvec else h.csr.mtvec) cause interrupt).map
        fun pc => { h.takeTrap cause tval interrupt with pc := pc } := by
  simp only [takeTrap, delegated_eq h hc, Option.bind_eq_bind, Option.bind_some, Option.pure_def,
    decide_eq_true_eq]
  cases trapVector _ cause interrupt <;> rfl

/-- Taking an exception does not overflow: only interrupts are vectored. -/
theorem takeTrap_exception {h : Hart} {cause : U32} (hc : cause.toNat < 32) (tval : U32) :
    takeTrap h cause tval false = some (h.takeTrap cause tval false) := by
  have hv : ∀ tvec, trapVector tvec cause false = some (FuzzSoft.trapVector tvec cause false) := by
    intro tvec
    simp [trapVector, FuzzSoft.trapVector]
  rw [takeTrap_of_vector hc, hv, Option.map_some, ← takeTrap_pc]

/-- An interrupt is delivered unless its entry is past the end of the address space. -/
theorem takeTrap_interrupt (h : Hart) {code : Nat} (hc : code < 32) :
    takeTrap h (BitVec.ofNat 32 code) 0 true =
      if h.interruptVector code &&& 0x3 = 1 ∧
        2 ^ 32 ≤ (h.interruptVector code &&& ~~~0x3).toNat + 4 * code then none
      else some (h.takeTrap (BitVec.ofNat 32 code) 0 true) := by
  have hn : (BitVec.ofNat 32 code).toNat = code := by
    rw [BitVec.toNat_ofNat, Nat.mod_eq_of_lt (by omega)]
  have hm : mul 4 (BitVec.ofNat 32 code) = some (4 * BitVec.ofNat 32 code) := mul_eq (by
    rw [hn, show (4 : U32).toNat = 4 from rfl]
    omega)
  have hmn : (4 * BitVec.ofNat 32 code).toNat = 4 * code := by
    rw [BitVec.toNat_mul, hn, show (4 : U32).toNat = 4 from rfl, Nat.mod_eq_of_lt (by omega)]
  rw [takeTrap_of_vector (by rw [hn]; exact hc)]
  simp only [if_true, hn]
  change (trapVector (h.interruptVector code) _ true).map _ = _
  have hpc := takeTrap_pc h (BitVec.ofNat 32 code) 0 true
  simp only [if_true, hn] at hpc
  change _ = FuzzSoft.trapVector (h.interruptVector code) _ true at hpc
  generalize h.interruptVector code = tvec at hpc ⊢
  unfold trapVector
  unfold FuzzSoft.trapVector at hpc
  by_cases hv : tvec &&& 0x3 = 1
  · simp only [hv, true_and, if_true, hm, Option.bind_eq_bind, Option.bind_some] at hpc ⊢
    split
    next hp => rw [add_eq_none.2 (by rw [hmn]; exact hp), Option.map_none]
    next hp => rw [add_eq (by rw [hmn]; omega), Option.map_some, ← hpc]
  · simp only [hv, false_and, if_false, Option.pure_def, Option.map_some] at hpc ⊢
    rw [← hpc]

/-- The search for an enabled interrupt does not overflow. -/
theorem firstEnabled_eq (h : Hart) (pending : U32) {codes : List Nat} (hc : ∀ c ∈ codes, c < 32) :
    firstEnabled h pending (codes.map (BitVec.ofNat 32)) =
      some ((codes.find? fun code => pending &&& (1#32 <<< code) ≠ 0 && h.interruptEnabled code).map
        (BitVec.ofNat 32)) := by
  induction codes with
  | nil => rfl
  | cons code codes ih =>
    have hlt := hc code List.mem_cons_self
    have hn : (BitVec.ofNat 32 code).toNat = code := by
      rw [BitVec.toNat_ofNat, Nat.mod_eq_of_lt (by omega)]
    have ih := ih fun c hm => hc c (List.mem_cons_of_mem _ hm)
    have hs : shl 1#32 (BitVec.ofNat 32 code) = some (1#32 <<< code) := by
      rw [shl_eq (by rw [hn]; exact hlt), hn]
    have hb : bitSet h.csr.mideleg (BitVec.ofNat 32 code) =
        some (FuzzSoft.bitSet h.csr.mideleg code) := by
      rw [bitSet_eq _ (by rw [hn]; exact hlt), hn]
    simp only [List.map_cons, firstEnabled, hs, hb, Option.bind_eq_bind, Option.bind_some, ih,
      List.find?_cons, Option.pure_def]
    by_cases hp : pending &&& (1#32 <<< code) = 0
    · simp only [hp, if_true, ne_eq, not_true_eq_false, decide_false, Bool.false_and]
    · simp only [hp, if_false, ne_eq, not_false_eq_true, decide_true, Bool.true_and]
      change (if h.interruptEnabled code = true then _ else _) = _
      cases h.interruptEnabled code <;> rfl

/-- Nor does that for a pending one. -/
theorem pendingInterrupt_eq (h : Hart) :
    pendingInterrupt h = some (h.pendingInterrupt.map (BitVec.ofNat 32)) := by
  unfold pendingInterrupt Hart.pendingInterrupt
  dsimp only
  split
  · rfl
  · exact @firstEnabled_eq h _ [11, 3, 7, 9, 1, 5] (by decide)

/-- The code of an interrupt is below 32. -/
theorem pendingInterrupt_lt {h : Hart} {code : Nat} (hp : h.pendingInterrupt = some code) :
    code < 32 := by
  unfold Hart.pendingInterrupt at hp
  dsimp only at hp
  split at hp
  · cases hp
  · have hall : ∀ c ∈ [11, 3, 7, 9, 1, 5], c < 32 := by decide
    exact hall _ (List.mem_of_find?_eq_some hp)

/-- Polling overflows exactly where the vector is past the end of memory. -/
theorem pollInterrupt_eq (h : Hart) :
    pollInterrupt h = if h.vectorsPastEnd then none else some h.pollInterrupt := by
  simp only [pollInterrupt, pendingInterrupt_eq, Option.bind_eq_bind, Option.bind_some,
    Hart.vectorsPastEnd, Hart.pollInterrupt]
  rcases Option.eq_none_or_eq_some h.updateTimers.pendingInterrupt with hp | ⟨code, hp⟩
  · simp only [hp]
    rfl
  · simp only [hp, Option.map_some, takeTrap_interrupt _ (pendingInterrupt_lt hp), Bool.and_eq_true,
      decide_eq_true_eq]
    split <;> rfl

/-- The handling of an exit does not overflow. -/
theorem finishExit_eq (h : Hart) {r : Except Trap Exit} (hr : ∀ t, r = .error t → t.Indexed) :
    finishExit h r = some (h.finishExit r) := by
  rcases r with t | x
  · have hi := hr t rfl
    cases t with
    | illegal pc raw =>
      rw [finishExit, takeTrap_exception (by decide)]
      rfl
    | mem f =>
      have hc : (memCause f).toNat < 32 := by
        unfold memCause
        split <;> decide
      rw [finishExit, takeTrap_exception hc]
      rfl
    | exception cause tval =>
      rw [finishExit, takeTrap_exception hi]
      rfl
    | kmsanTainted pc rs1 rs2 a b => rfl
  · cases x with
    | ecall =>
      have hc : (ecallCause h.privilege).toNat < 32 := by cases h.privilege <;> decide
      rw [finishExit, takeTrap_exception hc, Hart.finishExit]
      split <;> rfl
    | ebreak =>
      rw [finishExit, takeTrap_exception (by decide)]
      rfl
    | _ => rfl

section
variable {β : Type} [Bus β]

/-- A step in checked arithmetic is the step, unless it takes an interrupt whose entry is past the
end of the address space. -/
theorem stepSystem_eq (s : Sys β) :
    stepSystem s = if s.hart.vectorsPastEnd then none else some (FuzzSoft.stepSystem s) := by
  simp only [stepSystem, pollInterrupt_eq, FuzzSoft.stepSystem]
  cases s.hart.vectorsPastEnd with
  | true => rfl
  | false =>
    simp only [Bool.false_eq_true, if_false, Option.bind_eq_bind, Option.bind_some]
    split
    · rfl
    rw [step_eq, plain]
    rcases hs : FuzzSoft.step (s.setHart s.hart.pollInterrupt.2) with ⟨r, s'⟩
    have hr : ∀ t, r = .error t → t.Indexed := by
      rintro t rfl
      exact raises_step _ _ _ hs
    cases r with
    | ok x =>
      dsimp only [Except.mapError]
      rw [finishExit_eq _ hr]
      rfl
    | error t =>
      dsimp only [Except.mapError]
      rw [finishExit_eq _ hr]
      rfl

end

end Checked

section
variable {β : Type} [Bus β]

/-- The state after so many steps. -/
def stateAfter (s : Sys β) : Nat → Sys β
  | 0 => s
  | n + 1 => (stepSystem (stateAfter s n)).2

/-- A run in checked arithmetic that does not panic is the run. -/
theorem Checked.run_eq {s : Sys β} {n : Nat} (h : ∀ k < n, (stateAfter s k).hart.vectorsPastEnd = false) :
    Checked.run s n = some (stateAfter s n) := by
  induction n with
  | zero => rfl
  | succ n ih =>
    rw [Checked.run, ih fun k hk => h k (by omega), Option.bind_eq_bind, Option.bind_some,
      Checked.stepSystem_eq, h n (by omega)]
    rfl

/-- A run overflows nowhere exactly when none of its steps takes an interrupt whose entry in a
vectored table is past the end of the address space. -/
theorem run_isSome_iff (s : Sys β) (n : Nat) :
    (Checked.run s n).isSome ↔ ∀ k < n, (stateAfter s k).hart.vectorsPastEnd = false := by
  refine ⟨fun h => ?_, fun h => by rw [Checked.run_eq h]; rfl⟩
  induction n with
  | zero => exact fun k hk => absurd hk (Nat.not_lt_zero k)
  | succ n ih =>
    rw [Checked.run] at h
    have hn : (Checked.run s n).isSome := by
      cases hr : Checked.run s n with
      | none =>
        rw [hr] at h
        exact h
      | some s' => rfl
    have hall := ih hn
    rw [Checked.run_eq hall, Option.bind_eq_bind, Option.bind_some, Checked.stepSystem_eq] at h
    intro k hk
    rcases Nat.lt_succ_iff_lt_or_eq.1 hk with hk | rfl
    · exact hall k hk
    · by_contra hv
      rw [if_pos (by simpa using hv)] at h
      cases h

end

/-! ## A vector past the end -/

/-- A program that sets a vectored base four bytes below the end and raises an interrupt:
`addi x5, x0, -3`; `csrw mtvec, x5`; `csrrwi x0, mip, 2`; `csrrwi x0, mie, 2`;
`csrrwi x0, mstatus, 8`. -/
def vectoringProgram : Sys Machine where
  cpu := Cpu.new 0x80000000
  bus := { MachineOf.new 0x80000000 4096 with
    ram := { Mmu.new 0x80000000 4096 with
      mem := setSpan (fun _ => 0) 0 [0x93, 0x02, 0xd0, 0xff, 0x73, 0x90, 0x52, 0x30,
        0x73, 0x50, 0x41, 0x34, 0x73, 0x50, 0x41, 0x30, 0x73, 0x50, 0x04, 0x30]
      perms := fun _ => PERM_READ ||| PERM_WRITE ||| PERM_EXEC } }

/-- The five instructions run, and the sixth step overflows. -/
theorem vector_overflows : (Checked.run vectoringProgram 5).isSome ∧
    ¬ ∀ n, (Checked.run vectoringProgram n).isSome := by
  refine ⟨by decide +kernel, fun h => ?_⟩
  have h6 : (Checked.run vectoringProgram 6).isSome = false := by decide +kernel
  rw [h 6] at h6
  cases h6

end FuzzSoft
