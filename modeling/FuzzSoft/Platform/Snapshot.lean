import FuzzSoft.Mmu.Dirty
import FuzzSoft.Riscv.Frame
import FuzzSoft.Platform.Machine

/-!
# Snapshot and reset

`Snapshot::capture` and `Snapshot::reset` over runs of the driver loop. The invariant is the one of
the dirty blocks (`Mmu.DirtyInv`) with a console that only grows (`SnapInv`). Every store of the
guest keeps it. The taint scatter marks no block itself: it relies on the store that came before it
to have marked the same bytes, which holds because the two translate the same addresses
(`Stored`), unless the store went to a device that lies inside the RAM window.
-/

namespace FuzzSoft

open Lib

/-- A golden whole-machine snapshot. -/
structure Snapshot where
  gmem : Nat → U8
  gperms : Nat → U8
  cpu : Cpu
  clint : Clint
  uartLen : Nat

namespace Snapshot

/-- Capture the current state as golden and switch RAM into dirty-tracking mode. -/
def capture (s : Sys Machine) : Snapshot × Sys Machine :=
  ({ gmem := s.bus.ram.mem
     gperms := s.bus.ram.perms
     cpu := s.cpu
     clint := s.bus.clint
     uartLen := s.bus.uart.out.length },
    { s with bus := { s.bus with ram := s.bus.ram.enableDirtyTracking } })

/-- Restore the golden state. -/
def reset (snap : Snapshot) (s : Sys Machine) : Sys Machine where
  cpu := snap.cpu
  bus := { s.bus with
    ram := s.bus.ram.resetDirty snap.gmem snap.gperms
    clint := snap.clint
    uart := ⟨s.bus.uart.out.take snap.uartLen⟩ }

end Snapshot

/-! ## The invariant -/

/-- What runs keep, relative to the captured system `g`. -/
structure SnapInv (g : Sys Machine) (m : Machine) : Prop where
  ram : Mmu.DirtyInv g.bus.ram.mem g.bus.ram.perms m.ram
  base : m.ram.base = g.bus.ram.base
  size : m.ram.size = g.bus.ram.size
  ramBase : m.ramBase = g.bus.ramBase
  ramEnd : m.ramEnd = g.bus.ramEnd
  uart : g.bus.uart.out <+: m.uart.out

/-- Everything a reset restores: the hart with its TLB, both devices, and every byte of RAM and its
permission. -/
structure Exact (g s : Sys Machine) : Prop where
  cpu : s.cpu = g.cpu
  clint : s.bus.clint = g.bus.clint
  uart : s.bus.uart = g.bus.uart
  ramBase : s.bus.ramBase = g.bus.ramBase
  ramEnd : s.bus.ramEnd = g.bus.ramEnd
  base : s.bus.ram.base = g.bus.ram.base
  size : s.bus.ram.size = g.bus.ram.size
  planes : ∀ off < g.bus.ram.size,
    s.bus.ram.mem off = g.bus.ram.mem off ∧ s.bus.ram.perms off = g.bus.ram.perms off

/-- The invariant holds at the capture. -/
theorem snapInv_capture (g : Sys Machine) : SnapInv g (Snapshot.capture g).2.bus where
  ram := Mmu.dirtyInv_enable g.bus.ram
  base := rfl
  size := rfl
  ramBase := rfl
  ramEnd := rfl
  uart := List.prefix_refl _

/-- Under the invariant a reset is exact, and the invariant holds again after it. -/
theorem SnapInv.reset {g s : Sys Machine} (h : SnapInv g s.bus) :
    Exact g ((Snapshot.capture g).1.reset s) ∧
      SnapInv g ((Snapshot.capture g).1.reset s).bus := by
  have hr := h.ram.resetDirty
  have huart : s.bus.uart.out.take g.bus.uart.out.length = g.bus.uart.out :=
    (List.prefix_iff_eq_take.1 h.uart).symm
  refine ⟨⟨rfl, rfl, congrArg Uart.mk huart, h.ramBase, h.ramEnd, hr.base.trans h.base,
    hr.size.trans h.size, fun off hoff => hr.planes off (by rwa [h.size])⟩,
    ⟨hr.inv, hr.base.trans h.base, hr.size.trans h.size, h.ramBase, h.ramEnd, ?_⟩⟩
  show g.bus.uart.out <+: s.bus.uart.out.take g.bus.uart.out.length
  rw [huart]

/-! ## Bus operations -/

/-- A step of the bus keeps the invariant and unlists no block. -/
structure MKeeps (g : Sys Machine) (m m' : Machine) : Prop where
  inv : SnapInv g m'
  listed : ∀ {b}, b ∈ m.ram.dirty → b ∈ m'.ram.dirty

section
variable {g : Sys Machine} {m : Machine}

/-- Nothing done keeps it. -/
theorem SnapInv.keeps_refl (h : SnapInv g m) : MKeeps g m m := ⟨h, id⟩

/-- A change of RAM that keeps it keeps that of the machine. -/
theorem SnapInv.withRam (h : SnapInv g m) {ram : Mmu}
    (hk : Mmu.Keeps g.bus.ram.mem g.bus.ram.perms m.ram ram) :
    MKeeps g m { m with ram := ram } :=
  ⟨⟨hk.inv, hk.base.trans h.base, hk.size.trans h.size, h.ramBase, h.ramEnd, h.uart⟩, hk.listed⟩

/-- The RAM bytes of a span that starts in the RAM window are in listed blocks. -/
def RamListed (m : Machine) (pa : U32) (n : Nat) : Prop :=
  m.inRam pa = true → Mmu.Listed m.ram pa n

/-- What is listed stays listed. -/
theorem MKeeps.ramListed {m' : Machine} (hm : SnapInv g m) (h : MKeeps g m m') {pa : U32} {n : Nat}
    (hl : RamListed m pa n) : RamListed m' pa n := by
  intro hin i hi off ho
  have hin' : m.inRam pa = true := by
    simpa only [MachineOf.inRam, hm.ramBase, hm.ramEnd, h.inv.ramBase, h.inv.ramEnd] using hin
  have ho' : m.ram.offset (pa + BitVec.ofNat 32 i) = some off := by
    simpa only [Mmu.offset, hm.base, hm.size, h.inv.base, h.inv.size] using ho
  exact h.listed (hl hin' i hi off ho')

/-- No device register lies in the RAM window. -/
def NoOverlap (m : Machine) : Prop := ∀ a, m.inRam a = true → inClint a = false ∧ inUart a = false

/-- RAM and the devices stay apart. -/
theorem SnapInv.noOverlap {m' : Machine} (h : SnapInv g m) (h' : SnapInv g m')
    (hn : NoOverlap m) : NoOverlap m' := by
  intro a ha
  refine hn a ?_
  simpa only [MachineOf.inRam, h.ramBase, h.ramEnd, h'.ramBase, h'.ramEnd] using ha

/-- The console only grows. -/
theorem uart_store_prefixed (u : Uart) (off val : U32) : u.out <+: (u.store off val).out := by
  unfold Uart.store
  split
  · exact List.prefix_append _ _
  · exact List.prefix_refl _

/-- A store keeps the invariant, and lists the RAM bytes it was meant for if it succeeds and no
device overlaps RAM. -/
theorem SnapInv.store (h : SnapInv g m) (pa : U32) (n : Nat) (v : U32) :
    MKeeps g m (Bus.store m pa n v).2 ∧
      (NoOverlap m → (Bus.store m pa n v).1 = .ok () →
        RamListed (Bus.store m pa n v).2 pa (Mmu.width n)) := by
  show MKeeps g m (m.store pa n v).2 ∧ _
  rw [show Bus.store m pa n v = m.store pa n v from rfl]
  unfold MachineOf.store
  split
  next hc =>
    refine ⟨⟨{ h with }, id⟩, fun hno _ hin => ?_⟩
    rw [(hno pa hin).1] at hc
    cases hc
  split
  next hu =>
    refine ⟨⟨{ h with uart := h.uart.trans (uart_store_prefixed _ _ _) }, id⟩, fun hno _ hin => ?_⟩
    rw [(hno pa hin).2] at hu
    cases hu
  split
  · obtain ⟨hk, hl⟩ := h.ram.store pa n v
    exact ⟨h.withRam hk, fun _ hok _ => hl hok⟩
  · exact ⟨h.keeps_refl, nofun⟩

/-- Marks over listed bytes keep the invariant. -/
theorem SnapInv.writeShadow (h : SnapInv g m) {pa : U32} {n : Nat} (mask : U32)
    (hl : RamListed m pa (min n 4)) : MKeeps g m (Bus.writeShadow m pa n mask) := by
  show MKeeps g m (m.writeShadow pa n mask)
  unfold MachineOf.writeShadow
  split
  next hin => exact h.withRam (h.ram.writeShadow mask (hl hin))
  next => exact h.keeps_refl

/-- A granted pointer keeps it, and one for stores lists its bytes. -/
theorem SnapInv.fastPtr (h : SnapInv g m) (pa : U32) (len : Nat) (need : U8) :
    MKeeps g m (Bus.fastPtr m pa len need).2 ∧
      (need &&& PERM_WRITE ≠ 0 → ∀ off, (Bus.fastPtr m pa len need).1 = some (.mem off) →
        ∀ i < len, (off + i) / DIRTY_BLOCK ∈ (Bus.fastPtr m pa len need).2.ram.dirty) := by
  rw [show Bus.fastPtr m pa len need = m.fastPtr pa len need from rfl]
  unfold MachineOf.fastPtr
  split
  · exact ⟨h.keeps_refl, nofun⟩
  · obtain ⟨hk, hl⟩ := h.ram.fastPtr pa len need
    exact ⟨h.withRam hk, hl⟩

end

/-! ## Guest accesses -/

section
variable {g : Sys Machine}

/-- A translation keeps the invariant: it stores at most one page-table word. -/
theorem SnapInv.xlate {s : Sys Machine} (h : SnapInv g s.bus) (va : U32) (access : Access) :
    MKeeps g s.bus (xlate va access s).2.bus := by
  rcases (xlate_effect va access s).bus with hb | ⟨w, v, hb⟩
  · rw [hb]
    exact h.keeps_refl
  · rw [hb]
    exact (h.store w 4 v).1

/-- The invariant as a relation of a system with itself. -/
def SnapRel (g s t : Sys Machine) : Prop := s = t ∧ SnapInv g s.bus

/-- A run beside itself. -/
theorem snapRel_sim {α : Type} {x : Exec Machine α} {s : Sys Machine}
    (h : SnapInv g (x s).2.bus) : Sim (SnapRel g) x x s s := ⟨rfl, rfl, h⟩

/-- The relation does not look at the hart. -/
theorem snapRel_busUniform (g : Sys Machine) : BusUniform (SnapRel g) where
  hart h := by rw [h.1]
  setHart h _ _ := ⟨by rw [h.1], h.2⟩
  setFlush h _ _ := ⟨by rw [h.1], h.2⟩
  xlate {s t} h va access := by
    obtain ⟨rfl, h⟩ := h
    exact snapRel_sim (h.xlate va access).inv
  load h _ _ := by rw [h.1]
  ifetch16 h _ := by rw [h.1]
  rawState h _ _ := by rw [h.1]

/-- A bus store keeps it. -/
theorem SnapInv.busStore {s : Sys Machine} (h : SnapInv g s.bus) (pa : U32) (n : Nat) (v : U32) :
    Sim (SnapRel g) (busStore pa n v) (busStore pa n v) s s :=
  snapRel_sim (h.store pa n v).1.inv

/-- A store keeps it. -/
theorem SnapInv.storeImpl {s : Sys Machine} (h : SnapInv g s.bus) (va : U32) {size : Nat}
    (hsize : 0 < size) (val : U32) :
    Sim (SnapRel g) (storeImpl va size val) (storeImpl va size val) s s := by
  refine (snapRel_busUniform g).storeImpl (fun _ _ _ _ n v s' t' _ _ h' => ?_) hsize ⟨rfl, h⟩
  obtain ⟨rfl, h'⟩ := h'
  exact h'.busStore _ n v

/-- The access of an AMO keeps it. -/
theorem SnapInv.amoAccess {s : Sys Machine} (h : SnapInv g s.bus) (op : AmoOp) (rd : Reg)
    (va src : U32) : Sim (SnapRel g) (amoAccess op rd va src) (amoAccess op rd va src) s s := by
  have hU := snapRel_busUniform g
  refine (hU.xlate ⟨rfl, h⟩ va .write).bind fun pa _ _ _ _ h₁ => ?_
  refine (hU.busLoad pa 4 h₁).bind fun old _ _ _ _ h₂ => ?_
  refine (hU.busRawState pa 4 h₂).bind fun raw _ _ _ _ h₃ => ?_
  refine (hU.toHartUniform.modifyHart ?_ h₃).bind fun _ s' t' _ _ h₄ => ?_
  · intro h
    split <;> simp [Hart.Kept]
  · obtain ⟨rfl, h₄⟩ := h₄
    exact (h₄.busStore pa 4 _).bind fun _ _ _ _ _ h₅ => Sim.pure h₅

/-! ### The taint of a store -/

/-- The address was stored to: it is granted for writing, and its bytes are listed. -/
def Stored (va : U32) (n : Nat) (s : Sys Machine) : Prop :=
  ∃ pa, s.cpu.fastPa va .write = some pa ∧ RamListed s.bus pa n

/-- A stored span stays listed. -/
theorem MKeeps.stored {s s' : Sys Machine} {va : U32} {n : Nat} (hm : SnapInv g s.bus)
    (hk : MKeeps g s.bus s'.bus) (hc : s'.cpu = s.cpu) (h : Stored va n s) : Stored va n s' := by
  obtain ⟨pa, hf, hl⟩ := h
  exact ⟨pa, by rw [hc]; exact hf, hk.ramListed hm hl⟩

/-- A translation and a store to the address it gave. -/
theorem xlate_store {s s' : Sys Machine} {va val : U32} {n : Nat} (h : SnapInv g s.bus)
    (hno : NoOverlap s.bus)
    (hx : (FuzzSoft.xlate va .write >>= fun pa => FuzzSoft.busStore pa n val) s = (.ok (), s')) :
    MKeeps g s.bus s'.bus ∧ Stored va (Mmu.width n) s' ∧
      s'.cpu = (FuzzSoft.xlate va .write s).2.cpu := by
  rcases hxl : FuzzSoft.xlate va .write s with ⟨r, s₁⟩
  have hk : MKeeps g s.bus s₁.bus := by
    have := h.xlate va .write
    rwa [hxl] at this
  cases r with
  | error e =>
    rw [Comp.bind_error hxl] at hx
    cases hx
  | ok pa =>
    rw [Comp.bind_ok hxl] at hx
    obtain ⟨hk', hl⟩ := hk.inv.store pa n val
    have hok : (Bus.store s₁.bus pa n val).1 = .ok () := by
      cases hr : (Bus.store s₁.bus pa n val).1 with
      | error e =>
        simp only [FuzzSoft.busStore, hr] at hx
        cases hx
      | ok _ => rfl
    have hf : s₁.cpu.fastPa va .write = some pa := fastPa_of_xlate hxl
    have hs : s' = { s₁ with bus := (Bus.store s₁.bus pa n val).2 } := (congrArg Prod.snd hx).symm
    subst hs
    refine ⟨⟨hk'.inv, fun hb => hk'.listed (hk.listed hb)⟩, ⟨pa, hf, ?_⟩, rfl⟩
    exact hl (h.noOverlap hk.inv hno) hok

/-- Storing bytes one by one: in the end all of them were stored to. -/
theorem scatter_stored {va val : U32} {size : Nat} (hsize : size ≤ 4) :
    ∀ {n i : Nat} {s s' : Sys Machine}, i + n = size → SnapInv g s.bus → NoOverlap s.bus →
    (∀ j < i, Stored (va + BitVec.ofNat 32 j) 1 s) →
    scatter (storeByte val) va i n s = (.ok (), s') →
    SnapInv g s'.bus ∧ ∀ j < size, Stored (va + BitVec.ofNat 32 j) 1 s' := by
  intro n
  induction n with
  | zero =>
    intro i s s' hn h _ hj hx
    cases hx
    exact ⟨h, fun j hj' => hj j (by omega)⟩
  | succ n ih =>
    intro i s s' hn h hno hj hx
    rcases hb : storeByte val (va + BitVec.ofNat 32 i) i s with ⟨r, s₁⟩
    rw [scatter] at hx
    cases r with
    | error e =>
      rw [Comp.bind_error hb] at hx
      cases hx
    | ok _ =>
      rw [Comp.bind_ok hb] at hx
      obtain ⟨hk, hst, hc⟩ := xlate_store h hno hb
      refine ih (by omega) hk.inv (h.noOverlap hk.inv hno) (fun j hji => ?_) hx
      rcases Nat.lt_succ_iff_lt_or_eq.1 hji with hlt | rfl
      · -- an earlier byte: its page keeps its slot
        obtain ⟨pa, hf, hl⟩ := hj j hlt
        refine ⟨pa, ?_, hk.ramListed h hl⟩
        rw [hc]
        exact fastPa_xlate hf (neighbours va (by omega) (by omega))
      · exact hst

/-- Scattering the taint over bytes that were stored to. -/
theorem scatter_taint {va mask : U32} : ∀ {n i : Nat} {s : Sys Machine}, SnapInv g s.bus →
    (∀ j < i + n, Stored (va + BitVec.ofNat 32 j) 1 s) →
    SnapInv g (scatter (storeTaintByte mask) va i n s).2.bus := by
  intro n
  induction n with
  | zero =>
    intro i s h _
    exact h
  | succ n ih =>
    intro i s h hj
    obtain ⟨pa, hf, hl⟩ := hj i (by omega)
    have hb : storeTaintByte mask (va + BitVec.ofNat 32 i) i s =
        (.ok (), { s with bus := Bus.writeShadow s.bus pa 1 ((mask >>> (8 * i)) &&& 1) }) := by
      unfold storeTaintByte
      rw [Comp.bind_ok (xlate_of_fastPa hf)]
      rfl
    have hk := h.writeShadow ((mask >>> (8 * i)) &&& 1) (show RamListed s.bus pa (min 1 4) from hl)
    rw [scatter, Comp.bind_ok hb]
    exact ih hk.inv fun j hj' => hk.stored h rfl (hj j (by omega))

/-- A store with its taint keeps the invariant when no device overlaps RAM. -/
theorem SnapInv.storeWithTaint {s : Sys Machine} (h : SnapInv g s.bus) (hno : NoOverlap s.bus)
    (va : U32) {size : Nat} (hsize : size = 1 ∨ size = 2 ∨ size = 4) (val mask : U32) :
    SnapInv g (storeWithTaint va size val (some mask) s).2.bus := by
  have hstore := (h.storeImpl va (show 0 < size by omega) val).rel.2
  unfold FuzzSoft.storeWithTaint
  rcases hx : FuzzSoft.storeImpl va size val s with ⟨r, s₁⟩
  rw [hx] at hstore
  cases r with
  | error e =>
    rw [Comp.bind_error hx]
    exact hstore
  | ok _ =>
    rw [Comp.bind_ok hx]
    dsimp only
    unfold FuzzSoft.storeImpl at hx
    unfold storeTaint
    split at hx
    next hb =>
      rw [if_pos hb]
      obtain ⟨h₁, hst⟩ := scatter_stored (show size ≤ 4 by omega) (Nat.zero_add size) h hno
        (fun j hj => absurd hj (Nat.not_lt_zero j)) hx
      exact scatter_taint h₁ fun j hj => hst j (by omega)
    next hb =>
      rw [if_neg hb]
      obtain ⟨hk, ⟨pa, hf, hl⟩, -⟩ := xlate_store h hno hx
      rw [Comp.bind_ok (xlate_of_fastPa hf)]
      have hw : Mmu.width size = min size 4 := by
        rcases hsize with rfl | rfl | rfl <;> rfl
      rw [hw] at hl
      exact (hk.inv.writeShadow mask hl).inv

/-! ## Steps and runs -/

/-- The store of an instruction keeps the invariant, provided KMSAN is off or no device overlaps
RAM. -/
theorem SnapInv.storeSim {s : Sys Machine} (h : SnapInv g s.bus)
    (ht : s.hart.kmsanEnabled = false ∨ NoOverlap s.bus) (inst : Inst) :
    StoreSim (SnapRel g) inst s s := by
  cases inst with
  | store op rs1 rs2 imm =>
    have hsize : op.size = 1 ∨ op.size = 2 ∨ op.size = 4 := by
      cases op <;> simp [StoreOp.size]
    refine snapRel_sim ?_
    cases hk : s.hart.kmsanEnabled with
    | false =>
      have hst := h.storeImpl (s.hart.rdReg rs1 + imm) (show 0 < op.size by omega)
        (s.hart.rdReg rs2)
      exact (hst.bind fun _ _ _ _ _ h' => Sim.pure h').rel.2
    | true =>
      have hno := ht.resolve_left (by simp [hk])
      exact h.storeWithTaint hno _ hsize _ _
  | scW rd rs1 rs2 aq rl => exact fun _ => h.storeImpl _ (by decide) _
  | amoW op rd rs1 rs2 aq rl => exact h.amoAccess op rd _ _
  | _ => trivial

/-- A step keeps it; a scatter follows its store, so its bytes are listed. -/
theorem SnapInv.stepSystem {s : Sys Machine} (h : SnapInv g s.bus)
    (ht : s.hart.kmsanEnabled = false ∨ NoOverlap s.bus) : SnapInv g (stepSystem s).2.bus := by
  have hU := (snapRel_busUniform g).uniform
  have hst : StepStoreSim (SnapRel g) (s.setHart s.hart.pollInterrupt.2)
      (s.setHart s.hart.pollInterrupt.2) := by
    intro f s' t' hf _ h'
    obtain ⟨rfl, h'⟩ := h'
    have hh := fetchDecode_keeps (s.setHart s.hart.pollInterrupt.2).hart.pc
      (s.setHart s.hart.pollInterrupt.2)
    rw [hf] at hh
    refine h'.storeSim (ht.imp (fun hk => ?_) fun hno => h.noOverlap h' hno) f.inst
    rw [show s'.hart = _ from hh]
    simpa [Hart.kmsanEnabled] using hk
  have key := hU.stepSystem (s := s) (t := s) ⟨rfl, h⟩ fun _ => hst
  exact key.2.2

/-- What happens between a capture and a reset: passes of the driver loop, stores through a granted
pointer, and resets of earlier cases. -/
inductive SnapOp where
  | step
  | fastStore (pa : U32) (data : List U8)
  | reset

/-- A store through the pointer that `fast_ptr` grants for it, if it grants one. -/
def fastStore (m : Machine) (pa : U32) (data : List U8) : Machine :=
  match Bus.fastPtr m pa data.length (PERM_READ ||| PERM_WRITE) with
  | (some p, m') => Bus.ptrStore m' p data
  | (none, m') => m'

def snapStep (snap : Snapshot) (s : Sys Machine) : SnapOp → SysExit × Sys Machine
  | .step => driverStep s
  | .fastStore pa data => (.continue, { s with bus := fastStore s.bus pa data })
  | .reset => (.continue, snap.reset s)

/-- The pass of the driver loop does not scatter taint under a device. -/
def Tame (s : Sys Machine) : SnapOp → Prop
  | .step => s.hart.kmsanEnabled = false ∨ NoOverlap s.bus
  | _ => True

/-- A store through a granted pointer keeps it. -/
theorem SnapInv.fastStore {m : Machine} (h : SnapInv g m) (pa : U32) (data : List U8) :
    SnapInv g (fastStore m pa data) := by
  obtain ⟨hk, hl⟩ := h.fastPtr pa data.length (PERM_READ ||| PERM_WRITE)
  unfold FuzzSoft.fastStore
  rcases hp : Bus.fastPtr m pa data.length (PERM_READ ||| PERM_WRITE) with ⟨p, m'⟩
  rw [hp] at hk hl
  cases p with
  | none => exact hk.inv
  | some p =>
    cases p with
    | mem off => exact (hk.inv.withRam (hk.inv.ram.ptrStore (hl (by decide) off rfl))).inv
    | golden off => exact (hk.inv.withRam hk.inv.ram.keeps_refl).inv
    | page slot po => exact (hk.inv.withRam hk.inv.ram.keeps_refl).inv

/-- Every operation keeps it. -/
theorem SnapInv.snapStep {s : Sys Machine} {op : SnapOp} (h : SnapInv g s.bus) (ht : Tame s op) :
    SnapInv g (snapStep (Snapshot.capture g).1 s op).2.bus := by
  cases op with
  | step =>
    have h' : SnapInv g (syncTimer (setMtime s)).bus := { h with }
    exact h'.stepSystem (ht.imp id id)
  | fastStore pa data => exact h.fastStore pa data
  | reset => exact h.reset.2

/-- Snapshot reset is exact: after any run from a capture whose passes of the driver loop are tame,
a reset restores the captured RAM, permissions, hart, CLINT and console. -/
theorem snapshot_reset_exact (g : Sys Machine) (ops : List SnapOp)
    (hops : Along (snapStep (Snapshot.capture g).1) Tame (Snapshot.capture g).2 ops) :
    let s := (run (snapStep (Snapshot.capture g).1) (Snapshot.capture g).2 ops).2
    Exact g ((Snapshot.capture g).1.reset s) ∧ SnapInv g s.bus := by
  have hstep : ∀ {s : Sys Machine} {op : SnapOp}, SnapInv g s.bus → Tame s op →
      SnapInv g (FuzzSoft.snapStep (Snapshot.capture g).1 s op).2.bus := fun h ht => h.snapStep ht
  have h : SnapInv g (run (FuzzSoft.snapStep (Snapshot.capture g).1) (Snapshot.capture g).2 ops).2.bus :=
    run_invariant (P := fun s : Sys Machine => SnapInv g s.bus) hstep (snapInv_capture g) hops
  exact ⟨h.reset.1, h⟩

end

/-- RAM above the devices, as the drivers place it. -/
theorem noOverlap_of_le {m : Machine} (h : 0x10000100 ≤ m.ramBase) : NoOverlap m := by
  intro a ha
  simp only [MachineOf.inRam, inRam, Bool.and_eq_true, decide_eq_true_eq, BitVec.le_def] at ha
  rw [BitVec.le_def] at h
  have hlow : 0x10000100 ≤ a.toNat := Nat.le_trans h ha.1
  simp only [inClint, inUart, CLINT_BASE, CLINT_SIZE, UART_BASE, UART_SIZE, Bool.and_eq_false_iff,
    decide_eq_false_iff_not, BitVec.le_def, BitVec.lt_def]
  simp only [BitVec.toNat_add]
  refine ⟨.inr ?_, .inr ?_⟩ <;> simp <;> omega

/-- A hart with KMSAN on about to execute `sw x1, 0(x2)` at the start of a page of RAM, with `x1`
tainted and `x2` pointing 256 bytes into the page. -/
def taintedStore (ramBase : U32) : Sys Machine where
  cpu := { Cpu.new ramBase with
    regs := fun i => if i = 2 then ramBase + 0x100 else 0
    regsTaint := some fun i => if i = 1 then 1 else 0 }
  bus := { MachineOf.new ramBase 4096 with
    ram := { Mmu.new ramBase 4096 with
      mem := setSpan (fun _ => 0) 0 [0x23, 0x20, 0x11, 0x00]
      perms := fun _ => PERM_READ ||| PERM_WRITE ||| PERM_EXEC } }

/-- With RAM above the devices the tainted store, a store through a granted pointer, and a second
case after a reset are undone. -/
theorem snapshot_reset_exact_taintedStore :
    let g := taintedStore 0x80000000
    let ops := [.step, .fastStore 0x80000200 [1, 2], .reset, .step]
    Exact g ((Snapshot.capture g).1.reset
      (run (snapStep (Snapshot.capture g).1) (Snapshot.capture g).2 ops).2) := by
  intro g ops
  refine (snapshot_reset_exact g ops ⟨.inr ?_, trivial, trivial, .inr ?_, trivial⟩).1
  · exact noOverlap_of_le (by decide)
  · exact noOverlap_of_le (by decide)

/-- With RAM over the CLINT the store goes to the device, but its taint goes to RAM, in a block that
nobody marked: the permission of that byte is not restored. -/
theorem snapshot_reset_misses_taint_under_clint :
    ¬ Exact (taintedStore 0x02000000)
      ((Snapshot.capture (taintedStore 0x02000000)).1.reset
        (driverStep (Snapshot.capture (taintedStore 0x02000000)).2).2) := by
  intro h
  have hperm := (h.planes 0x100 (by decide)).2
  revert hperm
  decide

end FuzzSoft
