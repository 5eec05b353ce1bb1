import FuzzSoft.Jit.Plain
import FuzzSoft.Riscv.BusSim
import FuzzSoft.Riscv.View

/-!
# Compiled code beside the interpreter

In the middle of a chain the compiled code and the interpreter have the same system but for the `pc`,
which compiled code writes only when something may look at it, and the comparison log, which it does
not keep (`Follows`). Their accesses answer alike (`Follows.access`). `execStep` is one turn of the
interpreter's loop over the chain; what it keeps is stated for a bus on which granted pointers stand
for the checked accesses (`Serves`).
-/

namespace FuzzSoft

namespace Jit

open Lib Lib.X86

section
variable {β : Type}

/-- The system of compiled code that follows the interpreter in `q`. -/
def Follows (log : Option (List (U32 × U32))) (pc : U32) (x q : Sys β) : Prop :=
  x = q.setHart { q.hart with pc := pc, cmplog := log }

namespace Follows

variable {log log' : Option (List (U32 × U32))} {pc : U32} {x q : Sys β}

/-- What follows a hart sees the same. -/
theorem view (h : Follows log pc x q) : SameView q x := by
  rw [h]
  exact ⟨rfl, rfl, rfl, rfl⟩

/-- It has the same registers. -/
theorem regs (h : Follows log pc x q) (i : Reg) : x.hart.rdReg i = q.hart.rdReg i := by
  rw [h]
  rfl

/-- It may have another `pc`. -/
theorem setPc (h : Follows log pc x q) (pc' : U32) :
    Follows log pc' (x.setHart { x.hart with pc := pc' }) q := by
  rw [h]
  rfl

/-- Both retire an instruction with the same result. -/
theorem retire (h : Follows log pc x q) (rd : Reg) (v next pc' : U32) :
    Follows log pc'
      (x.setHart { x.hart.wrReg rd v with pc := pc', insnsRetired := x.hart.insnsRetired + 1 })
      (q.setHart (({ q.hart with cmplog := log' }.wrReg rd v).retire next)) := by
  rw [h]
  unfold Hart.wrReg
  by_cases hrd : rd = 0
  · rw [if_pos hrd, if_pos hrd]
    rfl
  · rw [if_neg hrd, if_neg hrd]
    rfl

/-- The same without a change of the log. -/
theorem loaded (h : Follows log pc x q) (rd : Reg) (v next pc' : U32) :
    Follows log pc'
      (x.setHart { x.hart.wrReg rd v with pc := pc', insnsRetired := x.hart.insnsRetired + 1 })
      (q.setHart ((q.hart.wrReg rd v).retire next)) :=
  @retire β log q.hart.cmplog pc x q h rd v next pc'

/-- Both retire an instruction without a result. -/
theorem retired (h : Follows log pc x q) (next pc' : U32) :
    Follows log pc'
      (x.setHart { x.hart with pc := pc', insnsRetired := x.hart.insnsRetired + 1 })
      (q.setHart (q.hart.retire next)) :=
  h.loaded 0 0 next pc'

/-- Both leave the same bus. -/
theorem withBus (h : Follows log pc x q) (b : β) :
    Follows log pc { x with bus := b } { q with bus := b } := by
  rw [h]
  rfl

/-- It has the `pc` that was written last. -/
theorem pc_eq (h : Follows log pc x q) : x.hart.pc = pc := by
  rw [h]
  rfl

/-- A trap is left pending. -/
theorem pend (h : Follows log pc x q) (t : Trap) :
    Follows log pc (x.setHart { x.hart with jitPendingTrap := some t })
      (q.setHart { q.hart with jitPendingTrap := some t }) := by
  rw [h]
  rfl

/-- An access that sees no more than it may answers alike, and both harts stay. -/
theorem access {α : Type} {y : Exec β α} (hv : ∀ {s t}, SameView s t → Sim SameView y y s t)
    (hk : Keeps Sys.hart y) (h : Follows log pc x q) :
    ∃ r x' q', y x = (r, x') ∧ y q = (r, q') ∧ Follows log pc x' q' ∧ q'.hart = q.hart := by
  obtain ⟨hout, hrel⟩ := hv h.view
  have hx : (y x).2.hart = x.hart := hk x
  have hq : (y q).2.hart = q.hart := hk q
  refine ⟨(y q).1, (y x).2, (y q).2, Prod.ext hout rfl, rfl, ?_, hq⟩
  refine Sys.ext' ?_ hrel.tlb hrel.bus
  rw [hx, h, hq]
  rfl

variable [Bus β]

/-- It is granted the same pointers for loads. -/
theorem fastLoadPtr (h : Follows log pc x q) (va : U32) (n : Nat) :
    fastLoadPtr x va n = fastLoadPtr q va n := by
  unfold FuzzSoft.fastLoadPtr
  rw [h.view.fastPa, h.view.bus]

/-- It is granted the same pointers for stores. -/
theorem fastStorePtr (h : Follows log pc x q) (va : U32) (n : Nat) (isSw : Bool) :
    fastStorePtr x va n isSw = fastStorePtr q va n isSw := by
  have hto : x.cpu.htifTohost = q.cpu.htifTohost := by
    rw [h]
    rfl
  unfold FuzzSoft.fastStorePtr
  rw [h.view.fastPa, h.view.bus, hto]

end Follows

/-! ## The bus -/

variable [Bus β]

/-- What compiled code relies on: a pointer that is granted stands for the checked access, asking for
one that is not changes nothing, and stores keep it so. -/
structure Serves (I : β → Prop) : Prop where
  access : ∀ {s : Sys β}, I s.bus → FastAccess s
  declines : ∀ {b b' : β} {pa n need}, Bus.fastPtr b pa n need = (none, b') → b' = b
  length : ∀ (b : β) p n, (Bus.ptrLoad b p n).length = n
  store : ∀ {b : β}, I b → ∀ pa n v, I (Bus.store b pa n v).2

/-- A refused pointer for a load leaves the bus. -/
theorem Serves.loadPtr {I : β → Prop} (hI : Serves I) {s : Sys β} {va : U32} {n : Nat} {b : β}
    (h : fastLoadPtr s va n = (none, b)) : b = s.bus := by
  unfold fastLoadPtr at h
  split at h
  · exact (Prod.mk.inj h).2.symm
  · split at h
    · exact (Prod.mk.inj h).2.symm
    · exact hI.declines h

/-- So does a refused pointer for a store. -/
theorem Serves.storePtr {I : β → Prop} (hI : Serves I) {s : Sys β} {va : U32} {n : Nat}
    {isSw : Bool} {b : β} (h : fastStorePtr s va n isSw = (none, b)) : b = s.bus := by
  unfold fastStorePtr at h
  split at h
  · exact (Prod.mk.inj h).2.symm
  split at h
  · exact (Prod.mk.inj h).2.symm
  split at h
  · exact (Prod.mk.inj h).2.symm
  · exact hI.declines h

/-! ## The interpreter on one instruction -/

variable {q q' : Sys β} {ilen iword : U32}

/-- A load that succeeds. -/
theorem execOne_load {op : LoadOp} {rd rs1 : Reg} {imm v : U32} (hk : q.hart.kmsanEnabled = false)
    (hq : q'.hart = q.hart)
    (h : loadImpl (q.hart.rdReg rs1 + imm) op.size op.signed q = (.ok v, q')) :
    execOne (.load op rd rs1 imm) q.hart.pc ilen iword q =
      (.ok .continue, q'.setHart ((q'.hart.wrReg rd v).retire (q.hart.pc + ilen))) := by
  have hk' : q'.hart.kmsanEnabled = false := by rw [hq, hk]
  have hload : loadWithTaint (q.hart.rdReg rs1 + imm) op.size op.signed q =
      (.ok (v, none), q') := by
    rw [loadWithTaint, Comp.bind_ok h]
    show (if q'.hart.kmsanEnabled then _ else _ : Exec β _) q' = _
    rw [if_neg (by rw [hk']; exact Bool.false_ne_true)]
    rfl
  have hinst : execInst (.load op rd rs1 imm) q.hart.pc (q.hart.pc + ilen) iword q =
      (.ok (.continue, q.hart.pc + ilen), q'.setHart (q'.hart.wrReg rd v)) := by
    rw [← wrTainted_off hk' rd v (extendLoadTaint 0 op.size op.signed)]
    exact Comp.bind_ok hload
  rw [execOne, Comp.bind_ok hinst]
  rfl

/-- A load that traps. -/
theorem execOne_load_error {op : LoadOp} {rd rs1 : Reg} {imm : U32} {t : Trap}
    (h : loadImpl (q.hart.rdReg rs1 + imm) op.size op.signed q = (.error t, q')) :
    execOne (.load op rd rs1 imm) q.hart.pc ilen iword q = (.error t, q') := by
  have hload : loadWithTaint (q.hart.rdReg rs1 + imm) op.size op.signed q = (.error t, q') :=
    Comp.bind_error h
  have hinst : execInst (.load op rd rs1 imm) q.hart.pc (q.hart.pc + ilen) iword q =
      (.error t, q') := by
    unfold execInst getHart
    rw [Comp.gets_bind]
    exact Comp.bind_error hload
  exact Comp.bind_error hinst

/-- The exit of a store that goes through. -/
def storeExit (op : StoreOp) (tohost : Option U32) (va val : U32) : Exit :=
  if op = .sw ∧ tohost = some va ∧ val &&& 1 ≠ 0 then .halt (val >>> 1) else .continue

/-- A store that succeeds. -/
theorem execOne_store {op : StoreOp} {rs1 rs2 : Reg} {imm : U32}
    (hk : q.hart.kmsanEnabled = false)
    (h : storeImpl (q.hart.rdReg rs1 + imm) op.size (q.hart.rdReg rs2) q = (.ok (), q')) :
    execOne (.store op rs1 rs2 imm) q.hart.pc ilen iword q =
      (.ok (storeExit op q.hart.htifTohost (q.hart.rdReg rs1 + imm) (q.hart.rdReg rs2)),
        q'.setHart (q'.hart.retire (q.hart.pc + ilen))) := by
  have hstore : execStore op rs1 rs2 imm q =
      (.ok (storeExit op q.hart.htifTohost (q.hart.rdReg rs1 + imm) (q.hart.rdReg rs2)), q') := by
    unfold execStore getHart
    rw [Comp.gets_bind, if_neg (by rw [hk]; exact Bool.false_ne_true)]
    exact Comp.bind_ok (Comp.bind_ok h)
  have hinst : execInst (.store op rs1 rs2 imm) q.hart.pc (q.hart.pc + ilen) iword q =
      (.ok (storeExit op q.hart.htifTohost (q.hart.rdReg rs1 + imm) (q.hart.rdReg rs2),
        q.hart.pc + ilen), q') := Comp.bind_ok hstore
  rw [execOne, Comp.bind_ok hinst]
  rfl

/-- A store that traps. -/
theorem execOne_store_error {op : StoreOp} {rs1 rs2 : Reg} {imm : U32} {t : Trap}
    (h : storeImpl (q.hart.rdReg rs1 + imm) op.size (q.hart.rdReg rs2) q = (.error t, q')) :
    execOne (.store op rs1 rs2 imm) q.hart.pc ilen iword q = (.error t, q') := by
  have hstore : execStore op rs1 rs2 imm q = (.error t, q') := by
    unfold execStore getHart
    rw [Comp.gets_bind]
    exact Comp.bind_error (Comp.bind_error h)
  have hinst : execInst (.store op rs1 rs2 imm) q.hart.pc (q.hart.pc + ilen) iword q =
      (.error t, q') := by
    unfold execInst getHart
    rw [Comp.gets_bind]
    exact Comp.bind_error hstore
  exact Comp.bind_error hinst

end

end Jit

end FuzzSoft
