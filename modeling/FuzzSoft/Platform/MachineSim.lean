import FuzzSoft.Mmu.Lockstep
import FuzzSoft.Riscv.BusSim
import FuzzSoft.Platform.Machine

/-!
# Machines in lockstep

Two machines whose RAMs simulate each other, with the same windows and the same CLINT and with
consoles that differ in what they started from only (`SameMachine`), stay so over every pass of the
driver loop. The flat and the copy-on-write RAM are the case that matters.
-/

namespace FuzzSoft

open Lib

section
variable {ρ ρ' : Type}

/-- Machines over related RAMs. The consoles started as `a` and `b` and have received the same bytes
since. -/
structure SameMachine (B : ρ → ρ' → Prop) (a b : List U8) (m : MachineOf ρ) (m' : MachineOf ρ') :
    Prop where
  ram : B m.ram m'.ram
  ramBase : m'.ramBase = m.ramBase
  ramEnd : m'.ramEnd = m.ramEnd
  clint : m'.clint = m.clint
  uart : ∃ w, m.uart.out = a ++ w ∧ m'.uart.out = b ++ w

variable {k : Bool} {B : ρ → ρ' → Prop} {a b : List U8}

theorem SameMachine.inRam {m : MachineOf ρ} {m' : MachineOf ρ'} (h : SameMachine B a b m m')
    (addr : U32) : m'.inRam addr = m.inRam addr := by
  rw [MachineOf.inRam, MachineOf.inRam, h.ramBase, h.ramEnd]

variable [Bus ρ] [Bus ρ']

theorem SameMachine.store (hB : BusSim k B) {m : MachineOf ρ} {m' : MachineOf ρ'}
    (h : SameMachine B a b m m') (pa : U32) (n : Nat) (v : U32) :
    (m'.store pa n v).1 = (m.store pa n v).1 ∧
      SameMachine B a b (m.store pa n v).2 (m'.store pa n v).2 := by
  unfold MachineOf.store
  rw [h.inRam]
  split
  · exact ⟨rfl, { h with clint := by rw [h.clint] }⟩
  split
  · obtain ⟨w, hw, hw'⟩ := h.uart
    refine ⟨rfl, { h with uart := ?_ }⟩
    simp only [Uart.store]
    split
    · exact ⟨w ++ [v.setWidth 8], by simp [hw], by simp [hw']⟩
    · exact ⟨w, hw, hw'⟩
  split
  · obtain ⟨ho, hr⟩ := hB.store h.ram pa n v
    exact ⟨ho, { h with ram := hr }⟩
  · exact ⟨rfl, h⟩

/-- A bus simulation of machines that the driver loop keeps: the CLINTs are the same, and setting
their clocks keeps the relation. -/
structure DriverSim (kmsan : Bool) (C : MachineOf ρ → MachineOf ρ' → Prop) : Prop extends BusSim kmsan C where
  clint : ∀ {m m'}, C m m' → m'.clint = m.clint
  tick : ∀ {m m'}, C m m' → ∀ t, C { m with clint := { m.clint with mtime := t } }
    { m' with clint := { m'.clint with mtime := t } }

/-- A simulation of RAMs is one of machines. -/
theorem BusSim.machine (hB : BusSim k B) (a b : List U8) : DriverSim k (SameMachine B a b) where
  load {m m'} h pa n := by
    show m'.load pa n = m.load pa n
    simp only [MachineOf.load, h.inRam, h.clint, hB.load h.ram]
  ifetch16 {m m'} h pa := by
    show m'.ifetch16 pa = m.ifetch16 pa
    simp only [MachineOf.ifetch16, h.inRam, hB.ifetch16 h.ram]
  rawState {m m'} h pa n := by
    show m'.readRawState pa n = m.readRawState pa n
    simp only [MachineOf.readRawState, h.inRam, hB.rawState h.ram]
  store h pa n v := h.store hB pa n v
  shadow hk {m m'} h pa n mask := by
    show SameMachine B a b (m.writeShadow pa n mask) (m'.writeShadow pa n mask)
    simp only [MachineOf.writeShadow, h.inRam]
    split
    · exact { h with ram := hB.shadow hk h.ram pa n mask }
    · exact h
  clint h := h.clint
  tick h t := { h with clint := by simp only [h.clint] }

section
variable {C : MachineOf ρ → MachineOf ρ' → Prop}

/-- A simulation together with an invariant of one side. -/
theorem DriverSim.and_inv (hC : DriverSim k C) {I : MachineOf ρ → Prop}
    (hstore : ∀ {m : MachineOf ρ}, I m → ∀ pa n v, I (Bus.store m pa n v).2)
    (hshadow : k = true → ∀ {m : MachineOf ρ}, I m → ∀ pa n mask, I (Bus.writeShadow m pa n mask))
    (htick : ∀ {m : MachineOf ρ}, I m → ∀ t, I { m with clint := { m.clint with mtime := t } }) :
    DriverSim k fun m m' => C m m' ∧ I m where
  load h := hC.load h.1
  ifetch16 h := hC.ifetch16 h.1
  rawState h := hC.rawState h.1
  store h pa n v :=
    have hs := hC.store h.1 pa n v
    ⟨hs.1, hs.2, hstore h.2 pa n v⟩
  shadow hk _ _ h pa n mask := ⟨hC.shadow hk h.1 pa n mask, hshadow hk h.2 pa n mask⟩
  clint h := hC.clint h.1
  tick h t := ⟨hC.tick h.1 t, htick h.2 t⟩

/-- A pass of the driver loop keeps twins and gives the same exit. -/
theorem DriverSim.driverStep (hC : DriverSim k C) {s : Sys (MachineOf ρ)} {t : Sys (MachineOf ρ')}
    (h : Twin k C s t) :
    (driverStep t).1 = (driverStep s).1 ∧ Twin k C (driverStep s).2 (driverStep t).2 := by
  refine hC.toBusSim.stepSystem ⟨?_, ?_, h.kmsan⟩
  · show (setMtime t).cpu.setHart _ = (setMtime s).cpu.setHart _
    simp only [setMtime, hC.clint h.bus, Sys.hart, h.cpu]
  · show C (setMtime s).bus (setMtime t).bus
    simp only [setMtime, ← h.hart]
    exact hC.tick h.bus _

end

end

/-- The copy-on-write RAM simulates the flat one, its taint shadow apart. -/
theorem overImage_busSim (m₀ : Mmu) : BusSim false (OverImage m₀) where
  load h pa n := h.agree.load pa n
  ifetch16 h pa := h.agree.fetchU16 pa
  rawState h pa n := h.agree.readRawState pa n
  store {m c} h pa n v := by
    obtain ⟨ho, ha⟩ := h.agree.store pa v n
    exact ⟨ho, ha, (c.golden_exec (.store pa n v)).trans h.golden⟩
  shadow := nofun

end FuzzSoft
