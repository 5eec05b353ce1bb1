import FuzzSoft.Lib.Run
import FuzzSoft.Mmu.Untainted
import FuzzSoft.Platform.PageTables
import FuzzSoft.Riscv.Transparent

/-!
# Instrumented runs

The RAMs and the machines over them cannot tell a taint scatter from nothing (`ShadowSim`), so a run
with any of CMPLOG, UBSAN and KMSAN on is, up to the first branch that KMSAN stops, the run with all
of them off (`instrumentation_transparent`).
-/

namespace FuzzSoft

open Lib

/-- Memories that differ in marks simulate each other. -/
theorem mmu_shadowSim : ShadowSim fun m m' : Mmu => m'.untainted = m.untainted where
  load h pa n := Mmu.load_of_untainted h pa n
  ifetch16 h pa := Mmu.fetchU16_of_untainted h pa
  store h pa n v := Mmu.store_of_untainted h pa n v
  shadow {m _} h pa n mask := h.trans (m.writeShadow_untainted pa n mask).symm

/-- So do copy-on-write ones. -/
theorem cowRam_shadowSim : ShadowSim SameUntainted where
  load := by
    rintro c c' ⟨m, m', hm, hm', h⟩ pa n
    exact (hm'.load pa n).trans ((Mmu.load_of_untainted h pa n).trans (hm.load pa n).symm)
  ifetch16 := by
    rintro c c' ⟨m, m', hm, hm', h⟩ pa
    exact (hm'.fetchU16 pa).trans ((Mmu.fetchU16_of_untainted h pa).trans (hm.fetchU16 pa).symm)
  store := by
    rintro c c' ⟨m, m', hm, hm', h⟩ pa n v
    obtain ⟨ho, hr⟩ := hm.store pa v n
    obtain ⟨ho', hr'⟩ := hm'.store pa v n
    obtain ⟨hout, hun⟩ := Mmu.store_of_untainted h pa n v
    exact ⟨ho'.trans (hout.trans ho.symm), _, _, hr, hr', hun⟩
  shadow := by
    rintro c c' ⟨m, m', hm, hm', h⟩ pa n mask
    obtain ⟨m₂, hm₂, hun⟩ := hm.writeShadow_untainted pa n mask
    exact ⟨m₂, m', hm₂, hm', h.trans hun.symm⟩

/-- Machines over related RAMs, with the same devices and windows. -/
structure SameDevices {ρ ρ' : Type} (B : ρ → ρ' → Prop) (m : MachineOf ρ) (m' : MachineOf ρ') :
    Prop where
  ram : B m.ram m'.ram
  ramBase : m'.ramBase = m.ramBase
  ramEnd : m'.ramEnd = m.ramEnd
  clint : m'.clint = m.clint
  uart : m'.uart = m.uart

/-- The same addresses are RAM. -/
theorem SameDevices.inRam {ρ ρ' : Type} {B : ρ → ρ' → Prop} {m : MachineOf ρ} {m' : MachineOf ρ'}
    (h : SameDevices B m m') (pa : U32) : m'.inRam pa = m.inRam pa := by
  rw [MachineOf.inRam, MachineOf.inRam, h.ramBase, h.ramEnd]

/-- Machines over such memories simulate each other. -/
theorem ShadowSim.machine {ρ ρ' : Type} [Bus ρ] [Bus ρ'] {B : ρ → ρ' → Prop} (hB : ShadowSim B) :
    ShadowSim (SameDevices B) where
  load {m m'} h pa n := by
    show m'.load pa n = m.load pa n
    simp only [MachineOf.load, h.inRam, h.clint, hB.load h.ram]
  ifetch16 {m m'} h pa := by
    show m'.ifetch16 pa = m.ifetch16 pa
    simp only [MachineOf.ifetch16, h.inRam, hB.ifetch16 h.ram]
  store {m m'} h pa n v := by
    show (m'.store pa n v).1 = (m.store pa n v).1 ∧
      SameDevices B (m.store pa n v).2 (m'.store pa n v).2
    unfold MachineOf.store
    rw [h.inRam]
    split
    · exact ⟨rfl, { h with clint := by rw [h.clint] }⟩
    split
    · exact ⟨rfl, { h with uart := by rw [h.uart] }⟩
    split
    · obtain ⟨ho, hr⟩ := hB.store h.ram pa n v
      exact ⟨ho, { h with ram := hr }⟩
    · exact ⟨rfl, h⟩
  shadow {m m'} h pa n mask := by
    show SameDevices B (m.writeShadow pa n mask) m'
    unfold MachineOf.writeShadow
    split
    · exact { h with ram := hB.shadow h.ram pa n mask }
    · exact h

/-- The system with all of its instrumentation off. -/
def Sys.bare {β : Type} (s : Sys β) : Sys β := s.setHart s.hart.bare

/-- A full-system step as a step of a run. -/
def sysStep {β : Type} [Bus β] (s : Sys β) (_ : Unit) : SysExit × Sys β := stepSystem s

/-- The run goes through: no step of it ends in a branch that KMSAN stops. -/
def Unhalted {β : Type} [Bus β] (s : Sys β) (steps : List Unit) : Prop :=
  Along sysStep (fun s _ => ¬HaltsTainted s) s steps

/-- A run without a tainted halt is one without instruments. -/
theorem ShadowSim.run {β : Type} [Bus β] {B : β → β → Prop} (hB : ShadowSim B) {s : Sys β}
    (h : B s.bus s.bus) {steps : List Unit} (hn : Unhalted s steps) :
    (Lib.run sysStep s.bare steps).1 = (Lib.run sysStep s steps).1 ∧
      Bare B (Lib.run sysStep s steps).2 (Lib.run sysStep s.bare steps).2 := by
  have hbare : Bare B s s.bare := ⟨rfl, rfl, h⟩
  exact run_lockstep (fun h hn => hB.stepSystem h hn) hbare hn

/-- A run that KMSAN does not halt gives the exits of the run without instrumentation, and leaves the
same hart but for the instrumentation, the same TLB, devices and memory, and the same permission and
dirty bits but for the taint. -/
theorem instrumentation_transparent (steps : List Unit) :
    (∀ s : Sys Machine, Unhalted s steps →
      (run sysStep s.bare steps).1 = (run sysStep s steps).1 ∧
        Bare (SameDevices fun m m' => m'.untainted = m.untainted) (run sysStep s steps).2
          (run sysStep s.bare steps).2) ∧
    ∀ s : Sys CowMachine, s.bus.ram.Inv → Unhalted s steps →
      (run sysStep s.bare steps).1 = (run sysStep s steps).1 ∧
        Bare (SameDevices SameUntainted) (run sysStep s steps).2 (run sysStep s.bare steps).2 := by
  refine ⟨fun s hn => mmu_shadowSim.machine.run ⟨rfl, rfl, rfl, rfl, rfl⟩ hn, fun s hinv hn => ?_⟩
  have hview : SameUntainted s.bus.ram s.bus.ram := ⟨_, _, hinv.agree_flat, hinv.agree_flat, rfl⟩
  exact cowRam_shadowSim.machine.run ⟨hview, rfl, rfl, rfl, rfl⟩ hn

/-- A machine about to copy an uninitialised word: `lw x5, 0(x1)` and `sw x5, 4(x1)`. -/
def copyMachine : Machine :=
  { MachineOf.new 0x80000000 0x20 with
    ram := { Mmu.new 0x80000000 0x20 with
      mem := fun off => [0x83, 0xa2, 0x00, 0x00, 0x23, 0xa2, 0x50, 0x00].getD off 0
      perms := fun off =>
        if off < 16 then PERM_READ ||| PERM_EXEC else PERM_READ ||| PERM_WRITE ||| PERM_RAW } }

/-- Its hart, with all three kinds of instrumentation on. -/
def copyCpu : Cpu :=
  { Cpu.new 0x80000000 with
    regs := fun i => if i = 1 then 0x80000010 else 0
    cmplog := some []
    ubsan := some []
    regsTaint := some fun _ => 0 }

theorem instrumentation_transparent_copy :
    (run sysStep (Sys.bare ⟨copyCpu, copyMachine⟩) [(), ()]).1 =
      (run sysStep ⟨copyCpu, copyMachine⟩ [(), ()]).1 :=
  ((instrumentation_transparent [(), ()]).1 ⟨copyCpu, copyMachine⟩ (by
    unfold Unhalted
    decide +kernel)).1

end FuzzSoft
