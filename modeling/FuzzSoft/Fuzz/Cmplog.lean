import FuzzSoft.Fuzz.Case
import FuzzSoft.Riscv.Frame

/-!
# The CMPLOG trace

The arm of `cmd_fuzz` that runs a program once to learn the operands of its comparisons: switch
recording on, reset to the snapshot, inject, run, drain the log, switch recording off. The reset
replaces the hart by the captured one, and with it the switch.
-/

namespace FuzzSoft

open Lib

/-! ## What the trace should see -/

section
variable {β : Type} [Bus β]

/-- The operands compared by the instruction that a step retires, if it retires a comparison. -/
def comparedByStep (s : Sys β) : List (U32 × U32) :=
  match retired s with
  | some (inst, s') => (inst.compared s'.hart).toList
  | none => []

end

/-- The comparisons that the loop of a case retires, in order. -/
def comparisons {ρ : Type} [Bus ρ] (deadline : U64) : Nat → Sys (MachineOf ρ) → List (U32 × U32)
  | 0, _ => []
  | n + 1, s =>
    if s.hart.insnsRetired < deadline then
      let pairs := comparedByStep (syncTimer (setMtime s))
      let r := driverStep s
      match r.1 with
      | .continue => pairs ++ comparisons deadline n r.2
      | _ => pairs
    else []

/-! ## The arm -/

/-- The machine with comparison recording switched. -/
def setCmplog {β : Type} (on : Bool) (s : Sys β) : Sys β := s.setHart (s.hart.setCmplog on)

/-- The machine the traced program is injected into. -/
def traceStart (snap : Snapshot) (s : Sys Machine) : Sys Machine := snap.reset (setCmplog true s)

/-- The CMPLOG arm: the pairs it hands to the mutator, and the machine it leaves. -/
def cmplogTrace (snap : Snapshot) (tg : Target) (base : Lowered) (passes : Nat) (s : Sys Machine) :
    List (U32 × U32) × Sys Machine :=
  let e := runInjected tg base passes (traceStart snap s)
  let t := e.sys.hart.cmplogTake
  (t.1, setCmplog false (e.sys.setHart t.2))

/-- The trace observes the run it is meant to: it starts from the golden machine `g` with recording
on, and gets the comparisons of its run, up to the capacity of the log. -/
structure TraceObserves (g : Sys Machine) (tg : Target) (base : Lowered) (passes : Nat)
    (s : Sys Machine) : Prop where
  start : Exact (setCmplog true g) (traceStart (Snapshot.capture g).1 s)
  pairs : (cmplogTrace (Snapshot.capture g).1 tg base passes s).1 =
    (comparisons (g.hart.insnsRetired + tg.caseInsns) passes
      (inject tg base (traceStart (Snapshot.capture g).1 s))).take CMPLOG_CAP

/-- The trace never does, whatever was run before: the reset takes the switch back. -/
theorem cmplog_trace_never_observes (g : Sys Machine) (hoff : g.hart.cmplog = none) (tg : Target)
    (base : Lowered) (passes : Nat) (s : Sys Machine) : ¬ TraceObserves g tg base passes s := by
  intro h
  have hcpu : (traceStart (Snapshot.capture g).1 s).hart.cmplog = (setCmplog true g).hart.cmplog :=
    congrArg (fun c : Cpu => c.cmplog) h.start.cpu
  have hstart : (traceStart (Snapshot.capture g).1 s).hart.cmplog = none := hoff
  rw [hstart] at hcpu
  cases hcpu

/-- A booted guest whose next instruction is `beq x1, x2, 8`, with 5 and 7 in the registers. -/
def branchBoot : Sys Machine where
  cpu := { Cpu.new 0x80000000 with regs := fun i => if i = 1 then 5 else if i = 2 then 7 else 0 }
  bus := { MachineOf.new 0x80000000 4096 with
    ram := { Mmu.new 0x80000000 4096 with
      mem := setSpan (fun _ => 0) 0 [0x63, 0x84, 0x20, 0x00]
      perms := fun _ => PERM_READ ||| PERM_WRITE ||| PERM_EXEC } }

theorem cmplog_trace_never_observes_branchBoot :
    branchBoot.hart.cmplog = none ∧
      ¬ TraceObserves branchBoot ⟨[], [], 1⟩ ⟨[], []⟩ 1 (Snapshot.capture branchBoot).2 :=
  ⟨rfl, cmplog_trace_never_observes branchBoot rfl _ _ _ _⟩

/-- The traced run retires the branch, and the pairs are empty. -/
theorem cmplog_trace_misses_branch :
    comparisons (branchBoot.hart.insnsRetired + 1) 1
        (inject ⟨[], [], 1⟩ ⟨[], []⟩
          (traceStart (Snapshot.capture branchBoot).1 (Snapshot.capture branchBoot).2)) =
      [(5, 7)] ∧
    (cmplogTrace (Snapshot.capture branchBoot).1 ⟨[], [], 1⟩ ⟨[], []⟩ 1
        (Snapshot.capture branchBoot).2).1 = [] ∧
    ¬ TraceObserves branchBoot ⟨[], [], 1⟩ ⟨[], []⟩ 1 (Snapshot.capture branchBoot).2 := by
  refine ⟨by decide +kernel, by decide +kernel, fun h => ?_⟩
  have hp := h.pairs
  revert hp
  decide +kernel

end FuzzSoft
