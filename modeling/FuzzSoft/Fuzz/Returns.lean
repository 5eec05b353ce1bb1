import Mathlib.Algebra.BigOperators.Fin
import Mathlib.Algebra.Order.BigOperators.Group.Finset
import FuzzSoft.Fuzz.RunCase
import FuzzSoft.Riscv.Retire
import FuzzSoft.Vec.System

/-!
# When the driver loops return

The deadline of a driver loop counts retired instructions, and a step that delivers an interrupt or
whose instruction faults retires none. So a loop returns exactly when the guest never traps for ever
without retiring an instruction (`driver_loops_return`). A guest whose trap vector cannot be fetched
does trap for ever.
-/

namespace FuzzSoft

open Lib

/-! ## The loops -/

section
variable {ρ : Type} [Bus ρ]

/-- A pass of `run_until`. -/
def untilPass (deadline : U64) (s : Sys (MachineOf ρ)) :
    (Stop × Sys (MachineOf ρ)) ⊕ Sys (MachineOf ρ) :=
  if s.hart.insnsRetired < deadline then
    let r := driverStep s
    match r.1 with
    | .continue => .inr r.2
    | .halt c => .inl (.halt c, r.2)
    | .hypercall c => .inl (.hypercall c, r.2)
  else .inl (.budget, s)

/-- A pass of `run`, which hypercalls do not stop. -/
def runPass (maxInsns : U64) (s : Sys (MachineOf ρ)) :
    (Option U32 × Sys (MachineOf ρ)) ⊕ Sys (MachineOf ρ) :=
  if s.hart.insnsRetired < maxInsns then
    let r := driverStep s
    match r.1 with
    | .halt c => .inl (some c, r.2)
    | _ => .inr r.2
  else .inl (none, s)

/-- A pass of `run_case_bus`. -/
def caseBusPass (deadline : U64) (c : Sys (MachineOf ρ) × CovBitmap MAP_SIZE) :
    (Stop × Sys (MachineOf ρ) × CovBitmap MAP_SIZE) ⊕ (Sys (MachineOf ρ) × CovBitmap MAP_SIZE) :=
  if c.1.hart.insnsRetired < deadline then
    let r := driverStep c.1
    match r.1 with
    | .continue => .inr (r.2, recordTransfer c.2 c.1.hart.pc r.2.hart.pc)
    | .halt code => .inl (.halt code, r.2, c.2)
    | .hypercall cmd => .inl (.hypercall cmd, r.2, c.2)
  else .inl (.budget, c)

/-- `runCaseBus` is the loop of these passes. -/
theorem runCaseBus_eq_passes (deadline : U64) (n : Nat) (s : Sys (MachineOf ρ))
    (cov : CovBitmap MAP_SIZE) :
    runCaseBus deadline n s cov =
      (passes (caseBusPass deadline) n (s, cov)).elim (fun r => ⟨some r.1, r.2.1, r.2.2⟩)
        fun c => ⟨none, c.1, c.2⟩ := by
  induction n generalizing s cov with
  | zero => rfl
  | succ n ih =>
    unfold runCaseBus passes caseBusPass
    dsimp only
    split
    · cases (driverStep s).1 with
      | «continue» => exact ih _ _
      | halt c => rfl
      | hypercall c => rfl
    · rfl

/-- The next pass retires an instruction: it neither delivers an interrupt nor faults. -/
def Retires (s : Sys (MachineOf ρ)) : Prop := (retired (syncTimer (setMtime s))).isSome = true

/-- What is left of the budget. -/
def remaining (deadline : U64) (s : Sys (MachineOf ρ)) : Nat :=
  deadline.toNat - s.hart.insnsRetired.toNat

/-- A counter below a bound does not wrap when it is advanced. -/
theorem counter_succ {a c : U64} (h : a < c) : (a + 1).toNat = a.toNat + 1 := by
  have hlt : a.toNat < c.toNat := h
  have hc := c.isLt
  have hadd : (a + 1).toNat = (a.toNat + 1) % 2 ^ 64 := BitVec.toNat_add a 1
  omega

/-- A pass uses budget exactly when it retires an instruction. -/
theorem remaining_driverStep {deadline : U64} {s : Sys (MachineOf ρ)}
    (h : s.hart.insnsRetired < deadline) :
    remaining deadline (driverStep s).2 ≤ remaining deadline s ∧
      (Retires s → remaining deadline (driverStep s).2 < remaining deadline s) := by
  have hc : (driverStep s).2.hart.insnsRetired = _ :=
    stepSystem_insnsRetired (syncTimer (setMtime s))
  have hlt : s.hart.insnsRetired.toNat < deadline.toNat := h
  unfold remaining Retires
  cases hr : retired (syncTimer (setMtime s)) with
  | none =>
    rw [hr] at hc
    rw [hc]
    exact ⟨Nat.le_refl _, nofun⟩
  | some _ =>
    rw [hr] at hc
    have hsucc : (driverStep s).2.hart.insnsRetired.toNat = s.hart.insnsRetired.toNat + 1 := by
      rw [hc]
      exact counter_succ h
    exact ⟨by omega, fun _ => by omega⟩

/-- A pass of the loop leaves no more to do, and less if an instruction retires. -/
theorem remaining_untilPass {deadline : U64} (s s' : Sys (MachineOf ρ))
    (h : untilPass deadline s = .inr s') :
    remaining deadline s' ≤ remaining deadline s ∧
      (Retires s → remaining deadline s' < remaining deadline s) := by
  unfold untilPass at h
  dsimp only at h
  split at h
  next hlt =>
    split at h
    · cases h
      exact remaining_driverStep hlt
    · cases h
    · cases h
  next => cases h

/-- So does one of `run`. -/
theorem remaining_runPass {maxInsns : U64} (s s' : Sys (MachineOf ρ))
    (h : runPass maxInsns s = .inr s') :
    remaining maxInsns s' ≤ remaining maxInsns s ∧
      (Retires s → remaining maxInsns s' < remaining maxInsns s) := by
  unfold runPass at h
  dsimp only at h
  split at h
  next hlt =>
    split at h
    · cases h
    · cases h
      exact remaining_driverStep hlt
  next => cases h

/-- So does one of a case without hooks. -/
theorem remaining_caseBusPass {deadline : U64} (c c' : Sys (MachineOf ρ) × CovBitmap MAP_SIZE)
    (h : caseBusPass deadline c = .inr c') :
    remaining deadline c'.1 ≤ remaining deadline c.1 ∧
      (Retires c.1 → remaining deadline c'.1 < remaining deadline c.1) := by
  unfold caseBusPass at h
  dsimp only at h
  split at h
  next hlt =>
    split at h
    · cases h
      exact remaining_driverStep hlt
    · cases h
    · cases h
  next => cases h

end

/-- The hooks leave the hart. -/
theorem fire_hart (c : FuzzCase) : c.fireSan.fireKmsan.sys.hart = c.sys.hart := by
  have hs : c.fireSan.sys.hart = c.sys.hart := by
    unfold FuzzCase.fireSan
    cases c.san <;> rfl
  rw [← hs]
  unfold FuzzCase.fireKmsan
  cases c.fireSan.kmsan <;> rfl

/-- The hooks use no budget. -/
theorem remaining_casePass {deadline : U64} (c c' : FuzzCase)
    (h : c.pass deadline = .inr c') :
    remaining deadline c'.sys ≤ remaining deadline c.sys ∧
      (Retires c.fireSan.fireKmsan.sys →
        remaining deadline c'.sys < remaining deadline c.sys) := by
  unfold FuzzCase.pass at h
  dsimp only at h
  split at h
  next hlt =>
    split at h
    · cases h
      have hlt' : c.fireSan.fireKmsan.sys.hart.insnsRetired < deadline := by rwa [fire_hart]
      have hfire : remaining deadline c.fireSan.fireKmsan.sys = remaining deadline c.sys := by
        unfold remaining
        rw [fire_hart]
      rw [← hfire]
      exact remaining_driverStep hlt'
    · cases h
    · cases h
  next => cases h

/-! ### Batches -/

namespace VecSystem

section
variable {v : VecSystem} {start : Lane → U64} {budget : U64}

/-- How a step moves a lane: an inactive lane stays inactive, at most one instruction is counted,
and under the condition `p` an active lane stops or counts one. -/
structure LaneMoves (p : Prop) (v v' : VecSystem) (l : Lane) : Prop where
  active : v'.active l = true → v.active l = true
  counter : (v'.lanes l).insnsRetired = (v.lanes l).insnsRetired ∨
    (v'.lanes l).insnsRetired = (v.lanes l).insnsRetired + 1
  works : p → v.active l = true → v'.active l = false ∨
    (v'.lanes l).insnsRetired = (v.lanes l).insnsRetired + 1

/-- Nothing done moves no lane. -/
theorem laneMoves_refl (v : VecSystem) (l : Lane) : LaneMoves (false = true) v v l :=
  ⟨id, .inl rfl, nofun⟩

/-- A lane of new harts has its own. -/
theorem lanes_withLanes {f : Lane → Sys CowMachine} {l : Lane} {P : U64 → Prop}
    (hf : P (f l).hart.insnsRetired) (hv : P (v.lanes l).insnsRetired) :
    P ((v.withLanes f).lanes l).insnsRetired := by
  show P (if v.active l then (f l).cpu else v.lanes l).insnsRetired
  split
  · exact hf
  · exact hv

/-- The timers leave the counters. -/
theorem counter_syncTimers (l : Lane) :
    (v.syncTimers.lanes l).insnsRetired = (v.lanes l).insnsRetired :=
  lanes_withLanes (P := (· = (v.lanes l).insnsRetired)) rfl rfl

/-- So does refreshing them. -/
theorem counter_refreshTimers (l : Lane) :
    (v.refreshTimers.lanes l).insnsRetired = (v.lanes l).insnsRetired := by
  refine lanes_withLanes (P := (· = (v.lanes l).insnsRetired)) ?_ rfl
  split <;> rfl

/-- A packed instruction counts in every active lane. -/
theorem laneMoves_retireAll (rd : Reg) (value : Lane → U32) (ilen : U32) (l : Lane) :
    LaneMoves (true = true) v (v.retireAll rd value ilen) l := by
  have hcount : (((v.lanes l).toHart.wrReg rd (value l)).retire
      ((v.lanes l).pc + ilen)).insnsRetired = (v.lanes l).insnsRetired + 1 :=
    congrArg (· + 1) (Hart.wrReg_insnsRetired _ rd (value l))
  refine ⟨id, ?_, fun _ ha => .inr ?_⟩
  · exact lanes_withLanes (P := fun c => c = (v.lanes l).insnsRetired ∨
      c = (v.lanes l).insnsRetired + 1) (.inr hcount) (.inl rfl)
  · have hl : (v.retireAll rd value ilen).lanes l = ((v.lane l).setHart _).cpu := if_pos ha
    rw [hl]
    exact hcount

/-- So does a shared load that is made. -/
theorem laneMoves_trySharedLoad (first : Lane) (op : LoadOp) (rd rs1 : Reg) (imm ilen : U32)
    (l : Lane) :
    LaneMoves ((v.trySharedLoad first op rd rs1 imm ilen).1 = true) v
        (v.trySharedLoad first op rd rs1 imm ilen).2 l ∧
      ((v.trySharedLoad first op rd rs1 imm ilen).1 = false →
        (v.trySharedLoad first op rd rs1 imm ilen).2 = v) := by
  unfold trySharedLoad
  dsimp only
  split
  · exact ⟨laneMoves_refl v l, fun _ => rfl⟩
  split
  · exact ⟨laneMoves_refl v l, fun _ => rfl⟩
  split
  · exact ⟨laneMoves_refl v l, fun _ => rfl⟩
  split
  · exact ⟨laneMoves_refl v l, fun _ => rfl⟩
  split
  · exact ⟨laneMoves_refl v l, fun _ => rfl⟩
  · exact ⟨laneMoves_retireAll _ _ _ l, nofun⟩

/-- The fast path moves each active lane by one instruction, and by none if it declines. -/
theorem laneMoves_fastPath (v : VecSystem) (l : Lane) :
    LaneMoves (v.tryConvergedFastPath.1 = true) v v.tryConvergedFastPath.2 l ∧
      (v.tryConvergedFastPath.1 = false →
        v.tryConvergedFastPath.2.active l = v.active l ∧
          (v.tryConvergedFastPath.2.lanes l).insnsRetired = (v.lanes l).insnsRetired) := by
  have hdecline : LaneMoves (false = true) v v.refreshTimers l :=
    ⟨id, .inl (counter_refreshTimers l), nofun⟩
  -- the counter of shared fetches says nothing about a lane
  have hmoves : ∀ {p : Prop} {w : VecSystem}, LaneMoves p
      { v.refreshTimers with sharedFetchSteps := v.refreshTimers.sharedFetchSteps + 1 } w l →
      LaneMoves p v w l := by
    intro p w h
    have hc := h.counter
    have hw := h.works
    simp only [counter_refreshTimers] at hc hw
    exact ⟨h.active, hc, hw⟩
  unfold tryConvergedFastPath
  dsimp only
  split
  · exact ⟨laneMoves_refl v l, fun _ => ⟨rfl, rfl⟩⟩
  split
  · exact ⟨laneMoves_refl v l, fun _ => ⟨rfl, rfl⟩⟩
  split
  · exact ⟨hdecline, fun _ => ⟨rfl, counter_refreshTimers l⟩⟩
  split
  · exact ⟨hdecline, fun _ => ⟨rfl, counter_refreshTimers l⟩⟩
  split
  · exact ⟨hmoves (laneMoves_retireAll _ _ _ l), nofun⟩
  · exact ⟨hmoves (laneMoves_retireAll _ _ _ l), nofun⟩
  · obtain ⟨h1, h2⟩ := laneMoves_trySharedLoad
      (v := { v.refreshTimers with sharedFetchSteps := v.refreshTimers.sharedFetchSteps + 1 })
      _ _ _ _ _ _ l
    refine ⟨hmoves h1, fun hf => ?_⟩
    rw [h2 hf]
    exact ⟨rfl, counter_refreshTimers l⟩
  · exact ⟨⟨hdecline.active, hdecline.counter, nofun⟩, fun _ => ⟨rfl, counter_refreshTimers l⟩⟩

/-- The lane's own step retires an instruction or stops the lane. -/
def LaneSteps (v : VecSystem) (l : Lane) : Prop :=
  (retired (v.lane l)).isSome = true ∨ (laneExit (stepSystem (v.lane l)).1).isSome = true

/-- A lane by itself counts if it retires. -/
theorem laneMoves_scalarStep (v : VecSystem) (l : Lane) :
    LaneMoves (v.LaneSteps l) v v.scalarStep l := by
  have h : (stepSystem (v.lane l)).2.hart.insnsRetired = _ := stepSystem_insnsRetired (v.lane l)
  refine ⟨fun h => ((Bool.and_eq_true _ _).mp h).1, ?_, ?_⟩
  · refine lanes_withLanes (v := v) (f := fun l => (stepSystem (v.lane l)).2)
      (P := fun c => c = (v.lanes l).insnsRetired ∨ c = (v.lanes l).insnsRetired + 1) ?_ (.inl rfl)
    cases hr : retired (v.lane l) with
    | none =>
      rw [hr] at h
      exact .inl h
    | some _ =>
      rw [hr] at h
      exact .inr h
  · rintro (hr | hx) ha
    · have hl : v.scalarStep.lanes l = (stepSystem (v.lane l)).2.cpu := if_pos ha
      obtain ⟨x, hx⟩ := Option.isSome_iff_exists.mp hr
      rw [hx] at h
      rw [hl]
      exact .inr h
    · left
      show (v.active l && (laneExit (stepSystem (v.lane l)).1).isNone) = false
      rw [Option.isNone_eq_false_iff.mpr hx, Bool.and_false]

/-- The next step of the batch does something on the lane: the fast path executes it on all lanes,
or the lane's own step does. -/
def LaneBusy (v : VecSystem) (l : Lane) : Prop :=
  v.syncTimers.tryConvergedFastPath.1 = true ∨
    v.syncTimers.tryConvergedFastPath.2.LaneSteps l

/-- A step of the batch moves each lane by at most one instruction. -/
theorem laneMoves_step (v : VecSystem) (l : Lane) : LaneMoves (v.LaneBusy l) v v.step l := by
  have hsync := counter_syncTimers (v := v) l
  obtain ⟨h1, h2⟩ := laneMoves_fastPath v.syncTimers l
  unfold LaneBusy step
  dsimp only
  rcases hf : v.syncTimers.tryConvergedFastPath with ⟨b, v'⟩
  rw [hf, hsync] at h2
  rw [hf] at h1
  have hc := h1.counter
  have hw := h1.works
  rw [hsync] at hc hw
  cases b with
  | true => exact ⟨h1.active, hc, fun _ ha => hw rfl ha⟩
  | false =>
    obtain ⟨hact, hcount⟩ := h2 rfl
    have hs := laneMoves_scalarStep v' l
    refine ⟨fun h => h1.active (hs.active h), ?_, ?_⟩
    · rw [← hcount]
      exact hs.counter
    · rintro (hb | hb) ha
      · cases hb
      · rw [← hcount]
        exact hs.works hb (hact.trans ha)

/-! ### The work of a batch -/

/-- What a lane has left: its budget and its exit. -/
def laneWork (start : Lane → U64) (budget : U64) (v : VecSystem) (l : Lane) : Nat :=
  if v.active l then budget.toNat - ((v.lanes l).insnsRetired - start l).toNat + 1 else 0

/-- What all lanes have left. -/
def batchWork (start : Lane → U64) (budget : U64) (v : VecSystem) : Nat :=
  ∑ l, v.laneWork start budget l

/-- An active lane has used its budget. -/
def LaneSpent (start : Lane → U64) (budget : U64) (v : VecSystem) (l : Lane) : Prop :=
  v.active l = true ∧ budget ≤ (v.lanes l).insnsRetired - start l

/-- The next pass masks a lane off, or does something on one that is left. -/
def BatchBusy (start : Lane → U64) (budget : U64) (v : VecSystem) : Prop :=
  (∃ l, v.LaneSpent start budget l) ∨
    ∃ l, (v.haltSpent start budget).active l = true ∧ (v.haltSpent start budget).LaneBusy l

/-- A lane is halted when its budget is spent. -/
theorem active_haltSpent {l : Lane} :
    (v.haltSpent start budget).active l = true ↔
      v.active l = true ∧ (v.lanes l).insnsRetired - start l < budget := by
  unfold haltSpent
  dsimp only
  cases hv : v.active l with
  | false => simp
  | true =>
    simp only [Bool.true_and, Bool.not_eq_true', decide_eq_false_iff_not, true_and]
    exact BitVec.not_le

/-- Halting a spent lane leaves less to do. -/
theorem laneWork_haltSpent (l : Lane) :
    (v.haltSpent start budget).laneWork start budget l ≤ v.laneWork start budget l ∧
      (v.LaneSpent start budget l →
        (v.haltSpent start budget).laneWork start budget l < v.laneWork start budget l) := by
  unfold laneWork
  cases hact : (v.haltSpent start budget).active l with
  | true =>
    obtain ⟨ha, hlt⟩ := active_haltSpent.mp hact
    rw [if_pos rfl, if_pos ha]
    exact ⟨Nat.le_refl _, fun h => absurd h.2 (BitVec.not_le.mpr hlt)⟩
  | false =>
    refine ⟨Nat.zero_le _, fun h => ?_⟩
    rw [if_pos h.1]
    exact Nat.succ_pos _

/-- A step leaves no more to do, and less in a busy lane. -/
theorem laneWork_step (l : Lane)
    (h : v.active l = true → (v.lanes l).insnsRetired - start l < budget) :
    v.step.laneWork start budget l ≤ v.laneWork start budget l ∧
      (v.active l = true → v.LaneBusy l →
        v.step.laneWork start budget l < v.laneWork start budget l) := by
  have hm := laneMoves_step v l
  unfold laneWork
  cases hs : v.step.active l with
  | false =>
    refine ⟨Nat.zero_le _, fun ha _ => ?_⟩
    rw [if_pos ha]
    exact Nat.succ_pos _
  | true =>
    have ha := hm.active hs
    have hlt := h ha
    have hn : ((v.lanes l).insnsRetired - start l).toNat < budget.toNat := hlt
    have hone : (v.step.lanes l).insnsRetired = (v.lanes l).insnsRetired + 1 →
        ((v.step.lanes l).insnsRetired - start l).toNat =
          ((v.lanes l).insnsRetired - start l).toNat + 1 := by
      intro hc
      have hcomm : (v.lanes l).insnsRetired + 1 - start l =
          (v.lanes l).insnsRetired - start l + 1 := by bv_omega
      rw [hc, hcomm]
      exact counter_succ hlt
    rw [ha, if_pos rfl, if_pos rfl]
    constructor
    · rcases hm.counter with hc | hc
      · rw [hc]
      · have := hone hc
        omega
    · intro _ hb
      rcases hm.works hb ha with hx | hc
      · rw [hx] at hs
        cases hs
      · have := hone hc
        omega

/-- Passes never add work, and a busy pass does some. -/
theorem batchWork_batchPass (v v' : VecSystem) (h : v.batchPass start budget = .inr v') :
    v'.batchWork start budget ≤ v.batchWork start budget ∧
      (v.BatchBusy start budget → v'.batchWork start budget < v.batchWork start budget) := by
  unfold batchPass at h
  split at h
  · dsimp only at h
    split at h
    · cases h
      have hstep := fun l => laneWork_step (v := v.haltSpent start budget)
        l fun ha => (active_haltSpent.mp ha).2
      have hhalt := fun l => @laneWork_haltSpent v start budget l
      have hle := fun l => Nat.le_trans (hstep l).1 (hhalt l).1
      refine ⟨Finset.sum_le_sum fun l _ => hle l, ?_⟩
      rintro (⟨l, hl⟩ | ⟨l, ha, hb⟩)
      · exact Finset.sum_lt_sum (fun l _ => hle l)
          ⟨l, Finset.mem_univ l, Nat.lt_of_le_of_lt (hstep l).1 ((hhalt l).2 hl)⟩
      · exact Finset.sum_lt_sum (fun l _ => hle l)
          ⟨l, Finset.mem_univ l, Nat.lt_of_lt_of_le ((hstep l).2 ha hb) (hhalt l).1⟩
    · cases h
  · cases h

end

end VecSystem

/-! ## The condition -/

/-- A driver loop returns exactly when the guest never traps for ever: from every state that the run
reaches, after finitely many passes an instruction retires or the loop is left. For a batch, on some
lane that is still active. -/
theorem driver_loops_return {ρ : Type} [Bus ρ] (deadline : U64) (s : Sys (MachineOf ρ))
    (cov : CovBitmap MAP_SIZE) (c : FuzzCase) (v : VecSystem) (start : Lane → U64) :
    (Returns (untilPass deadline) s ↔
      ∀ s', Reaches (untilPass deadline) s s' → Settles (untilPass deadline) Retires s') ∧
    (Returns (runPass deadline) s ↔
      ∀ s', Reaches (runPass deadline) s s' → Settles (runPass deadline) Retires s') ∧
    (Returns (FuzzCase.pass deadline) c ↔
      ∀ c', Reaches (FuzzCase.pass deadline) c c' →
        Settles (FuzzCase.pass deadline) (fun c => Retires c.fireSan.fireKmsan.sys) c') ∧
    (Returns (caseBusPass deadline) (s, cov) ↔
      ∀ c', Reaches (caseBusPass deadline) (s, cov) c' →
        Settles (caseBusPass deadline) (fun c => Retires c.1) c') ∧
    (Returns (fun v : VecSystem => v.batchPass start deadline) v ↔
      ∀ v', Reaches (fun v : VecSystem => v.batchPass start deadline) v v' →
        Settles (fun v : VecSystem => v.batchPass start deadline)
          (VecSystem.BatchBusy start deadline) v') :=
  ⟨returns_iff_settles (remaining deadline) remaining_untilPass,
    returns_iff_settles (remaining deadline) remaining_runPass,
    returns_iff_settles (fun c => remaining deadline c.sys) remaining_casePass,
    returns_iff_settles (fun c => remaining deadline c.1) remaining_caseBusPass,
    returns_iff_settles (VecSystem.batchWork start deadline) VecSystem.batchWork_batchPass⟩

/-- A machine-mode hart at its reset, with no memory where it starts nor at its trap vector. -/
def unmappedHart : Sys Machine := ⟨Cpu.new 0, MachineOf.new 0x80000000 PAGE_SIZE⟩

/-- It traps for ever: after the first trap, a pass takes it back to where it was. -/
theorem unmapped_hart_never_returns : ¬ Returns (untilPass 1) unmappedHart := by
  intro h
  have hfixed : untilPass 1 (driverStep unmappedHart).2 = .inr (driverStep unmappedHart).2 := rfl
  exact not_returns_of_fixed hfixed (h.pass rfl)

end FuzzSoft
