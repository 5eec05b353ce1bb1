import FuzzSoft.Fuzz.Case
import FuzzSoft.Mmu.Stamp

/-!
# Replaying a case

Memory has no bytes beyond its window, and no operation changes what the model has there. So the
reset leads back not only to a machine that answers like the captured one (`Exact`), but to the
captured machine itself (`Resettable.reset`): whatever ran before, a case that starts with a reset
is a function of its program.
-/

namespace FuzzSoft

open Lib

namespace Mmu

/-- Beyond its window a memory is as given. -/
def Beyond (gmem gperms : Nat → U8) (m : Mmu) : Prop :=
  ∀ off, m.size ≤ off → m.mem off = gmem off ∧ m.perms off = gperms off

section
variable {gmem gperms : Nat → U8} {m m' : Mmu}

/-- It depends on the planes. -/
theorem Beyond.congr (h : Beyond gmem gperms m) (hs : SamePlanes m m') : Beyond gmem gperms m' := by
  intro off hoff
  rw [hs.mem, hs.perms]
  exact h off (by rwa [hs.size] at hoff)

/-- A byte write in the window keeps what is beyond it. -/
theorem Beyond.putByte (h : Beyond gmem gperms m) {off : Nat} (hlt : off < m.size) (b : U8) :
    Beyond gmem gperms (m.putByte off b) := by
  refine Beyond.congr (m := { m with
    mem := setAt m.mem off b
    perms := setAt m.perms off (writtenPerm (m.perms off)) }) (fun o ho => ?_)
    (samePlanes_putByte m off b)
  have hne : o ≠ off := by
    have : m.size ≤ o := ho
    omega
  simp only [setAt_of_ne _ _ hne]
  exact h o ho

/-- So does a span write. -/
theorem Beyond.putSpan (h : Beyond gmem gperms m) {off : Nat} {data : List U8}
    (hle : off + data.length ≤ m.size) : Beyond gmem gperms (m.putSpan off data) := by
  refine Beyond.congr (m := { m with
    mem := setSpan m.mem off data
    perms := mapSpan m.perms off data.length writtenPerm }) (fun o ho => ?_)
    (samePlanes_putSpan m off data)
  have hge : off + data.length ≤ o := Nat.le_trans hle ho
  refine ⟨(setSpan_of_ge _ _ hge).trans (h o ho).1, Eq.trans ?_ (h o ho).2⟩
  exact if_neg fun hc => by omega

/-- So does a byte-wise write. -/
theorem Beyond.writeLoop {base : U32} (len : U32) (data : List U8) :
    ∀ {m : Mmu} (a : U32), Beyond gmem gperms m →
    Beyond gmem gperms
      (FuzzSoft.writeLoop (windowOffset base m.size) Mmu.perms Mmu.putByte len m a data).2 := by
  induction data with
  | nil => exact fun _ h => h
  | cons b bs ih =>
    intro m a h
    rw [FuzzSoft.writeLoop]
    split
    · exact h
    next off ho =>
      split
      · exact h
      · have hsize : (m.putByte off b).size = m.size := (samePlanes_putByte m off b).size
        have hput := h.putByte (windowOffset_eq_some.mp ho).2 b
        have := @ih (m.putByte off b) (a + 1) hput
        rwa [hsize] at this

/-- So does a store. -/
theorem Beyond.store (h : Beyond gmem gperms m) (a : U32) (n : Nat) (v : U32) :
    Beyond gmem gperms (m.store a n v).2 := by
  rw [store_eq]
  unfold writeAligned
  split
  · exact h
  unfold write
  split
  next off hs => exact h.putSpan (spanHas_eq_some.mp hs).2.1
  next => exact Beyond.writeLoop _ _ _ h

/-- Stamps inside the window. -/
theorem Beyond.stamped {C : Nat → Prop} (h : Beyond gmem gperms m) (hs : Stamped C m m')
    (hC : ∀ off, C off → off < m.size) : Beyond gmem gperms m' := by
  have hperms := hs.perms
  obtain ⟨q, rfl⟩ := hs.eq
  intro off hoff
  exact ⟨(h off hoff).1, (hperms off fun hc => Nat.not_lt.mpr hoff (hC off hc)).trans (h off hoff).2⟩

/-- So does a mark. -/
theorem Beyond.shadowByte (h : Beyond gmem gperms m) (a mask : U32) (i : Nat) :
    Beyond gmem gperms (shadowByte a mask m i) := by
  unfold Mmu.shadowByte
  split
  next off ho =>
    intro o hoff
    have hne : o ≠ off := by
      have hlt := (windowOffset_eq_some.mp ho).2
      have : m.size ≤ o := hoff
      omega
    exact ⟨(h o hoff).1, (setAt_of_ne _ _ hne).trans (h o hoff).2⟩
  next => exact h

/-- So does a write of marks. -/
theorem Beyond.writeShadow (h : Beyond gmem gperms m) (a : U32) (len : Nat) (mask : U32) :
    Beyond gmem gperms (m.writeShadow a len mask) := by
  unfold Mmu.writeShadow
  induction List.range (min len 4) generalizing m with
  | nil => exact h
  | cons i is ih => exact ih (h.shadowByte a mask i)

/-- So does restoring blocks. -/
theorem Beyond.restoreBlocks (h : Beyond gmem gperms m) (blks : List Nat) :
    Beyond gmem gperms (blks.foldl (restoreBlock gmem gperms) m) := by
  induction blks generalizing m with
  | nil => exact h
  | cons blk blks ih =>
    refine ih fun off hoff => ?_
    have hsize : m.size ≤ off := hoff
    rcases Nat.lt_or_ge off (blk * DIRTY_BLOCK) with hlt | hge
    · exact ⟨(setSpan_of_lt _ _ hlt).trans (h off hoff).1,
        (setSpan_of_lt _ _ hlt).trans (h off hoff).2⟩
    · have hend : ∀ f : Nat → U8, blk * DIRTY_BLOCK + (readSpan f (blk * DIRTY_BLOCK)
          (min (blk * DIRTY_BLOCK + DIRTY_BLOCK) m.size - blk * DIRTY_BLOCK)).length ≤ off := by
        intro f
        rw [length_readSpan]
        omega
      exact ⟨(setSpan_of_ge _ _ (hend gmem)).trans (h off hoff).1,
        (setSpan_of_ge _ _ (hend gperms)).trans (h off hoff).2⟩

/-- A clean memory has an empty bitmap. -/
theorem DirtyInv.dirtyBitmap_eq (h : DirtyInv gmem gperms m) (hd : m.dirty = []) :
    m.dirtyBitmap = fun _ => 0 := by
  funext w
  refine BitVec.eq_of_getLsbD_eq fun i hi => ?_
  have hbit : m.blockBit (64 * w + i) = false := by
    refine Bool.eq_false_iff.mpr fun hb => ?_
    have hmem := (h.bit _).mp hb
    rw [hd] at hmem
    exact List.not_mem_nil hmem
  rw [blockBit_eq, show (64 * w + i) / 64 = w by omega, show (64 * w + i) % 64 = i by omega] at hbit
  rw [hbit]
  exact BitVec.getLsbD_zero.symm

/-- The reset of such a memory is the golden one, clean. -/
theorem DirtyInv.resetDirty_eq (h : DirtyInv gmem gperms m) (hb : Beyond gmem gperms m) :
    m.resetDirty gmem gperms = ({ m with mem := gmem, perms := gperms } : Mmu).enableDirtyTracking := by
  have hr := h.resetDirty
  have hbeyond : Beyond gmem gperms (m.resetDirty gmem gperms) := hb.restoreBlocks m.dirty
  have hplanes : ∀ off, (m.resetDirty gmem gperms).mem off = gmem off ∧
      (m.resetDirty gmem gperms).perms off = gperms off := by
    intro off
    rcases Nat.lt_or_ge off m.size with hlt | hge
    · exact hr.planes off hlt
    · exact hbeyond off (by rwa [hr.size])
  have hbitmap := hr.inv.dirtyBitmap_eq hr.dirty
  have htrack := hr.inv.track
  have hext : ∀ a b : Mmu, a.base = b.base → a.size = b.size → a.mem = b.mem → a.perms = b.perms →
      a.trackDirty = b.trackDirty → a.dirty = b.dirty → a.dirtyBitmap = b.dirtyBitmap → a = b := by
    rintro ⟨⟩ ⟨⟩ rfl rfl rfl rfl rfl rfl rfl
    rfl
  exact hext _ _ hr.base hr.size (funext fun off => (hplanes off).1)
    (funext fun off => (hplanes off).2) htrack hr.dirty hbitmap

end

end Mmu

/-! ## Machines -/

/-- A machine that the reset leads back to the captured one: what the driver loop and the reset keep
of it. -/
structure Resettable (g s : Sys Machine) : Prop where
  inv : SnapInv g s.bus
  beyond : Mmu.Beyond g.bus.ram.mem g.bus.ram.perms s.bus.ram

/-- A captured machine can be reset. -/
theorem resettable_capture (g : Sys Machine) : Resettable g (Snapshot.capture g).2 :=
  ⟨snapInv_capture g, fun _ _ => ⟨rfl, rfl⟩⟩

section
variable {g s : Sys Machine}

/-- The reset leads back to the captured machine. -/
theorem Resettable.reset (h : Resettable g s) :
    (Snapshot.capture g).1.reset s = (Snapshot.capture g).2 := by
  have hram := h.inv.ram.resetDirty_eq h.beyond
  have huart : s.bus.uart.out.take g.bus.uart.out.length = g.bus.uart.out :=
    (List.prefix_iff_eq_take.1 h.inv.uart).symm
  have hext : ∀ a b : Sys Machine, a.cpu = b.cpu → a.bus.ram = b.bus.ram →
      a.bus.ramBase = b.bus.ramBase → a.bus.ramEnd = b.bus.ramEnd → a.bus.clint = b.bus.clint →
      a.bus.uart = b.bus.uart → a = b := by
    rintro ⟨_, ⟨⟩⟩ ⟨_, ⟨⟩⟩ rfl rfl rfl rfl rfl rfl
    rfl
  refine hext _ _ rfl (hram.trans ?_) h.inv.ramBase h.inv.ramEnd rfl (congrArg Uart.mk huart)
  show Mmu.enableDirtyTracking _ = g.bus.ram.enableDirtyTracking
  simp only [Mmu.enableDirtyTracking, h.inv.base, h.inv.size]

/-- A store of the machine keeps what is beyond RAM. -/
theorem beyond_machineStore {gmem gperms : Nat → U8} {m : Machine}
    (h : Mmu.Beyond gmem gperms m.ram) (pa : U32) (n : Nat) (v : U32) :
    Mmu.Beyond gmem gperms (Bus.store m pa n v).2.ram := by
  show Mmu.Beyond _ _ (m.store pa n v).2.ram
  unfold MachineOf.store
  split
  · exact h
  split
  · exact h
  split
  · exact h.store pa n v
  · exact h

/-- So does a write of marks. -/
theorem beyond_machineShadow {gmem gperms : Nat → U8} {m : Machine}
    (h : Mmu.Beyond gmem gperms m.ram) (pa : U32) (n : Nat) (mask : U32) :
    Mmu.Beyond gmem gperms (Bus.writeShadow m pa n mask).ram := by
  show Mmu.Beyond _ _ (m.writeShadow pa n mask).ram
  unfold MachineOf.writeShadow
  split
  · exact h.writeShadow pa n mask
  · exact h

/-- A store can be reset. -/
theorem Resettable.store (h : Resettable g s) (pa : U32) (n : Nat) (v : U32) :
    Resettable g { s with bus := (Bus.store s.bus pa n v).2 } :=
  ⟨(h.inv.store pa n v).1.inv, beyond_machineStore h.beyond pa n v⟩

/-- A pass of the driver loop that does not scatter taint under a device. -/
theorem Resettable.driverStep (h : Resettable g s)
    (ht : s.hart.kmsanEnabled = false ∨ NoOverlap s.bus) : Resettable g (driverStep s).2 :=
  ⟨h.inv.snapStep (show Tame s .step from ht),
    stepSystem_inv (s := syncTimer (setMtime s))
      (I := fun m : Machine => Mmu.Beyond g.bus.ram.mem g.bus.ram.perms m.ram)
      beyond_machineStore beyond_machineShadow h.beyond⟩

/-- The driver loop does not turn taint tracking on or off. -/
theorem driverStep_kmsanEnabled (s : Sys Machine) :
    (FuzzSoft.driverStep s).2.hart.kmsanEnabled = s.hart.kmsanEnabled := by
  have hself : SameMachine Eq s.bus.uart.out s.bus.uart.out s.bus s.bus :=
    ⟨rfl, rfl, rfl, rfl, [], (List.append_nil _).symm, (List.append_nil _).symm⟩
  exact (((busSim_eq _).machine _ _).driverStep (s := s) (t := s) ⟨rfl, hself, rfl⟩).2.kmsan

/-- RAM and the devices stay apart. -/
theorem Resettable.noOverlap (h : Resettable g s) (hn : NoOverlap g.bus) : NoOverlap s.bus :=
  (snapInv_capture g).noOverlap h.inv hn

/-- The loop of a case. -/
theorem Resettable.runCaseBus (hg : g.hart.kmsanEnabled = false ∨ NoOverlap g.bus)
    (deadline : U64) (n : Nat) {s : Sys Machine} (h : Resettable g s)
    (hk : s.hart.kmsanEnabled = g.hart.kmsanEnabled) (cov : CovBitmap MAP_SIZE) :
    Resettable g (runCaseBus deadline n s cov).sys := by
  induction n generalizing s cov with
  | zero => exact h
  | succ n ih =>
    have hstep := h.driverStep (hg.imp (fun hf => hk.trans hf) h.noOverlap)
    have hk' := (driverStep_kmsanEnabled s).trans hk
    unfold FuzzSoft.runCaseBus
    dsimp only
    split
    · cases (FuzzSoft.driverStep s).1 with
      | «continue» => exact ih hstep hk' _
      | halt c => exact hstep
      | hypercall c => exact hstep
    · exact h

/-- Written words can be reset. -/
theorem Resettable.writeWords (pas words : List U32) {s : Sys Machine} (h : Resettable g s) :
    Resettable g { s with bus := writeWords s.bus pas words } := by
  unfold FuzzSoft.writeWords
  induction pas.zip words generalizing s with
  | nil => exact h
  | cons p ps ih => exact ih (h.store p.1 4 p.2)

/-- So can scratch bytes. -/
theorem Resettable.writeScratchBytes (pas : List U32) (bytes : List U8) {s : Sys Machine}
    (h : Resettable g s) : Resettable g { s with bus := writeScratchBytes s.bus pas bytes } := by
  unfold FuzzSoft.writeScratchBytes
  induction pas.zipIdx generalizing s with
  | nil => exact h
  | cons p ps ih => exact ih (h.store p.1 4 _)

/-- So can an injected program. -/
theorem Resettable.inject (h : Resettable g s) (tg : Target) (p : Lowered) :
    Resettable g (inject tg p s) :=
  (h.writeWords tg.progPas p.wire).writeScratchBytes tg.scratchPas p.scratch

/-- A case that starts with a reset is a function of its program, and it can be reset again. -/
theorem Resettable.replay (hg : g.hart.kmsanEnabled = false ∨ NoOverlap g.bus)
    (h : Resettable g s) (tg : Target) (p : Lowered) (n : Nat) :
    runInjected tg p n ((Snapshot.capture g).1.reset s) = runInjected tg p n (Snapshot.capture g).2 ∧
      Resettable g (runInjected tg p n ((Snapshot.capture g).1.reset s)).sys := by
  rw [h.reset]
  exact ⟨rfl, Resettable.runCaseBus hg _ n ((resettable_capture g).inject tg p) rfl _⟩

end

end FuzzSoft
