import FuzzSoft.Riscv.BusSim
import FuzzSoft.Riscv.Retire
import FuzzSoft.Platform.SmpEdges

/-!
# The clock of several harts

The schedulers drive `mtime` from their own tick, but a hart refreshes its timer bits and answers
reads of `TIME` from the number of instructions it has retired itself, and the tick restarts with
every call. `ClockOk` says of one step what one clock for all harts would give. In calls that start
with the clock at 0 it holds of the steps of a hart that is in phase (`InPhase`): that retired as much
before the call as the call has made steps without it. Of other harts it holds as long as their timers
are far from what has been counted, and they do not read the time (`Untold`).
-/

namespace FuzzSoft

open Lib

/-! ## Sessions -/

/-- A golden snapshot of all harts and their machine. -/
structure SnapshotSmp (n : Nat) where
  gmem : Nat → U8
  gperms : Nat → U8
  cpus : Fin n → Cpu
  clint : Clint
  uartLen : Nat

section
variable {n : Nat}

namespace SnapshotSmp

/-- Capture the current state as golden and switch RAM into dirty-tracking mode. -/
def capture (s : Smp n) : SnapshotSmp n × Smp n :=
  ({ gmem := s.machine.ram.mem
     gperms := s.machine.ram.perms
     cpus := s.cpus
     clint := s.machine.clint
     uartLen := s.machine.uart.out.length },
    { s with machine := { s.machine with ram := s.machine.ram.enableDirtyTracking } })

/-- Restore the golden state. -/
def reset (snap : SnapshotSmp n) (s : Smp n) : Smp n :=
  { s with
    cpus := snap.cpus
    machine := { s.machine with
      ram := s.machine.ram.resetDirty snap.gmem snap.gperms
      clint := snap.clint
      uart := ⟨s.machine.uart.out.take snap.uartLen⟩ } }

end SnapshotSmp

/-- What a harness does with the harts. -/
inductive SmpOp where
  /-- A call of `run_smp` or of `run_smp_with_edges`. -/
  | call (c : SmpCall)
  | capture
  | reset
  /-- A store of the harness to inject a program. -/
  | store (pa : U32) (size : Nat) (val : U32)

/-- Harts on a machine, with the snapshot captured and the steps made so far. -/
structure Session (n : Nat) where
  smp : Smp n
  snap : Option (SnapshotSmp n)
  steps : List (SmpStep n)

/-- One operation. Both schedulers make the same steps and leave the same state. -/
def Session.op (s : Session n) : SmpOp → Unit × Session n
  | .call c =>
    let r := (runSmpWithEdges c s.smp).2
    ((), { s with smp := r.toSmp, steps := s.steps ++ r.steps })
  | .capture =>
    let r := SnapshotSmp.capture s.smp
    ((), { s with smp := r.2, snap := some r.1 })
  | .reset =>
    match s.snap with
    | some snap => ((), { s with smp := snap.reset s.smp })
    | none => ((), s)
  | .store pa size val =>
    ((), { s with smp := { s.smp with machine := (Bus.store s.smp.machine pa size val).2 } })

/-- A session before its first operation. -/
def Session.start (cpus : Fin n → Cpu) (machine : Machine) : Session n :=
  ⟨.start cpus machine, none, []⟩

/-! ## The law -/

/-- The compare value of a hart. -/
def Clint.compareOf (c : Clint) (i : Nat) : U64 :=
  if i = 0 then c.mtimecmp else (c.mtimecmpExtra[i - 1]?).getD (BitVec.allOnes 64)

namespace SmpStep

/-- The CLINT that the step sees. -/
def clint (e : SmpStep n) : Clint := e.ready.bus.machine.clint

/-- The timer bit of the hart after its interrupt poll. -/
def mtip (e : SmpStep n) : Bool := e.ready.hart.updateTimers.csr.mip &&& (1#32 <<< 7) ≠ 0

/-- The step executes an instruction on this CSR. -/
def readsCsr (e : SmpStep n) (addr : U16) : Bool :=
  match retired e.ready with
  | some (.csr _ _ _ csr, _) => csr = addr
  | _ => false

/-- The step retires an instruction of hart `i`. -/
def counts (i : Fin n) (e : SmpStep n) : Bool := decide (e.hart = i) && (retired e.ready).isSome

end SmpStep

/-- One clock: the timer bit, the CSRs and the CLINT agree on the time, and it does not go back. -/
structure ClockOk (e : SmpStep n) : Prop where
  mtip : e.mtip = true ↔ e.clint.compareOf e.hart ≤ e.clint.mtime
  time : ∀ op rd src t, retired e.ready = some (.csr op rd src TIME, t) →
    t.hart.readCsr TIME = some (e.clint.mtime.setWidth 32)
  timeh : ∀ op rd src t, retired e.ready = some (.csr op rd src TIMEH, t) →
    t.hart.readCsr TIMEH = some ((e.clint.mtime >>> 32).setWidth 32)
  forward : e.turn.sys.bus.machine.clint.mtime ≤ e.clint.mtime

/-! ## The condition -/

/-- The steps that retire an instruction of hart `i`. -/
def counted (i : Fin n) (steps : List (SmpStep n)) : Nat := steps.countP (·.counts i)

/-- The steps that do not. -/
def missed (i : Fin n) (steps : List (SmpStep n)) : Nat := steps.countP fun e => !e.counts i

/-- The hart of a step had retired as many instructions at the start of the call as the steps before
this one have missed of it. -/
def InPhase (start : U64) (before : List (SmpStep n)) (e : SmpStep n) : Prop :=
  start = BitVec.ofNat 64 (missed e.hart before)

/-- The step does not tell the hart's clock from the scheduler's. The one shows at least `start` and the
other the number of steps so far, and both at most the sum of these: the timer is due by either number,
or not due by the sum, and the step reads no word of the time that the sum reaches. -/
@[mk_iff] structure Untold (start : U64) (before : List (SmpStep n)) (e : SmpStep n) : Prop where
  count : start.toNat + before.length < 2 ^ 64
  timer : (e.clint.compareOf e.hart).toNat ≤ min start.toNat before.length ∨
    start.toNat + before.length < (e.clint.compareOf e.hart).toNat
  time : e.readsCsr TIME = false
  timeh : e.readsCsr TIMEH = true → start.toNat + before.length < 2 ^ 32

instance (start : U64) (before : List (SmpStep n)) (e : SmpStep n) :
    Decidable (InPhase start before e) := inferInstanceAs (Decidable (_ = _))

instance (start : U64) (before : List (SmpStep n)) (e : SmpStep n) :
    Decidable (Untold start before e) := decidable_of_iff' _ (untold_iff start before e)

/-- Something holds of every step of a list and those before it. -/
def EachAfter (P : List (SmpStep n) → SmpStep n → Prop) (steps : List (SmpStep n)) : Prop :=
  ∀ k, (_ : k < steps.length) → P (steps.take k) steps[k]

instance {P : List (SmpStep n) → SmpStep n → Prop} [∀ before e, Decidable (P before e)]
    (steps : List (SmpStep n)) : Decidable (EachAfter P steps) := Nat.decidableBallLT _ _

/-- The call starts with the clock at 0, and its step is in phase or does not tell. -/
def Session.SafeStep (s : Session n) (before : List (SmpStep n)) (e : SmpStep n) : Prop :=
  s.smp.machine.clint.mtime = 0 ∧
    (InPhase (s.smp.cpus e.hart).insnsRetired before e ∨
      Untold (s.smp.cpus e.hart).insnsRetired before e)

instance (s : Session n) (before : List (SmpStep n)) (e : SmpStep n) :
    Decidable (s.SafeStep before e) := inferInstanceAs (Decidable (_ ∧ _))

/-- All steps of a call are safe. -/
def Session.Safe (s : Session n) : SmpOp → Prop
  | .call c => EachAfter s.SafeStep (runSmpWithEdges c s.smp).2.steps
  | _ => True

instance (s : Session n) : (op : SmpOp) → Decidable (s.Safe op)
  | .call c => inferInstanceAs (Decidable (EachAfter s.SafeStep (runSmpWithEdges c s.smp).2.steps))
  | .capture | .reset | .store .. => isTrue trivial

/-- One more step. -/
theorem EachAfter.snoc {P : List (SmpStep n) → SmpStep n → Prop} {steps : List (SmpStep n)}
    (h : EachAfter P steps) {e : SmpStep n} (he : P steps e) : EachAfter P (steps ++ [e]) := by
  intro k hk
  rw [List.length_append, List.length_singleton] at hk
  rcases Nat.lt_or_eq_of_le (Nat.le_of_lt_succ hk) with hlt | rfl
  · rw [List.take_append_of_le_length (Nat.le_of_lt hlt), List.getElem_append_left hlt]
    exact h k hlt
  · rw [List.take_left, List.getElem_concat_length rfl]
    exact he

/-- Two laws of every step give a third. -/
theorem EachAfter.imp {P Q R : List (SmpStep n) → SmpStep n → Prop} {steps : List (SmpStep n)}
    (hp : EachAfter P steps) (hq : EachAfter Q steps)
    (h : ∀ before e, e ∈ steps → P before e → Q before e → R before e) : EachAfter R steps :=
  fun k hk => h _ _ (List.getElem_mem hk) (hp k hk) (hq k hk)

/-! ## One step -/

/-- A flag reads as it was set. -/
theorem setFlag_and_ne_zero (w : U32) {mask : U32} (hm : mask ≠ 0) (on : Bool) :
    setFlag w mask on &&& mask ≠ 0 ↔ on = true := by
  cases on with
  | true =>
    have hor : (w ||| mask) &&& mask = mask := by
      ext i hi
      simp only [BitVec.getElem_and, BitVec.getElem_or]
      cases mask[i] with
      | true => simp
      | false => simp
    show (w ||| mask) &&& mask ≠ 0 ↔ _
    rw [hor]
    exact iff_of_true hm rfl
  | false =>
    have hand : (w &&& ~~~mask) &&& mask = 0 := by
      ext i hi
      simp only [BitVec.getElem_and, BitVec.getElem_not]
      cases mask[i] with
      | true => simp
      | false => simp
    show (w &&& ~~~mask) &&& mask ≠ 0 ↔ _
    rw [hand]
    exact iff_of_false (fun h => h rfl) Bool.false_ne_true

/-- The timer bit compares the hart's own count. -/
theorem SmpStep.mtip_iff (e : SmpStep n) :
    e.mtip = true ↔ e.clint.compareOf e.hart ≤ e.turn.sys.hart.insnsRetired := by
  unfold SmpStep.mtip
  rw [decide_eq_true_iff, Hart.updateTimers]
  exact (setFlag_and_ne_zero _ (by decide) _).trans decide_eq_true_iff

/-- A CSR instruction reads the hart's own count. -/
theorem SmpStep.retired_virtualTime {e : SmpStep n} {inst : Inst} {t : Sys RecordingBus}
    (h : retired e.ready = some (inst, t)) : t.hart.virtualTime = e.turn.sys.hart.insnsRetired := by
  rw [retired_hart h]
  obtain ⟨csr, p, pc, he⟩ := e.ready.hart.pollInterrupt_eq
  rw [he]
  rfl

/-- What the step starts from: the tick is the number of the steps before it, and the hart's own count
is that of the start with the instructions retired since. -/
structure Timed (start : Fin n → U64) (before : List (SmpStep n)) (e : SmpStep n) : Prop where
  tick : e.turn.tick.toNat = before.length
  own : e.turn.sys.hart.insnsRetired =
    start e.hart + BitVec.ofNat 64 (counted e.hart before)

section
variable {start : Fin n → U64} {before : List (SmpStep n)} {e : SmpStep n}

/-- A hart in phase counts what the scheduler counts. -/
theorem Timed.own_eq_tick (h : Timed start before e) (hp : InPhase (start e.hart) before e) :
    e.turn.sys.hart.insnsRetired = e.turn.tick := by
  have hsplit : before.length = counted e.hart before + missed e.hart before := by
    rw [counted, missed, List.length_eq_countP_add_countP (·.counts e.hart)]
    simp
  apply BitVec.eq_of_toNat_eq
  rw [h.own, show start e.hart = _ from hp, ← BitVec.ofNat_add, BitVec.toNat_ofNat, h.tick, hsplit,
    Nat.add_comm, Nat.mod_eq_of_lt]
  have := e.turn.tick.isLt
  have := h.tick
  omega

/-- The own count is at least that of the start, and at most that and the tick together. -/
theorem Timed.own_bounds (h : Timed start before e)
    (hcount : (start e.hart).toNat + before.length < 2 ^ 64) :
    (start e.hart).toNat ≤ e.turn.sys.hart.insnsRetired.toNat ∧
      e.turn.sys.hart.insnsRetired.toNat ≤ (start e.hart).toNat + before.length := by
  have hle : counted e.hart before ≤ before.length := List.countP_le_length
  rw [h.own, BitVec.toNat_add, BitVec.toNat_ofNat]
  omega

/-- The laws of a step in phase; the last one is up to the run. -/
theorem InPhase.clockOk (hp : InPhase (start e.hart) before e) (h : Timed start before e)
    (hforward : e.turn.sys.bus.machine.clint.mtime ≤ e.turn.tick) : ClockOk e where
  mtip := by
    rw [e.mtip_iff, h.own_eq_tick hp]
    exact Iff.rfl
  time := by
    intro op rd src t ht
    show some (t.hart.virtualTime.setWidth 32) = _
    rw [SmpStep.retired_virtualTime ht, h.own_eq_tick hp]
    rfl
  timeh := by
    intro op rd src t ht
    show some ((t.hart.virtualTime >>> 32).setWidth 32) = _
    rw [SmpStep.retired_virtualTime ht, h.own_eq_tick hp]
    rfl
  forward := hforward

/-- The upper half of a small number is zero. -/
theorem ushiftRight_eq_zero {v : U64} (h : v.toNat < 2 ^ 32) : v >>> 32 = 0 := by
  apply BitVec.eq_of_toNat_eq
  rw [BitVec.toNat_ushiftRight, Nat.shiftRight_eq_div_pow, Nat.div_eq_of_lt h]
  rfl

/-- The laws of a step that does not tell; the last one is up to the run. -/
theorem Untold.clockOk (hu : Untold (start e.hart) before e) (h : Timed start before e)
    (hforward : e.turn.sys.bus.machine.clint.mtime ≤ e.turn.tick) : ClockOk e where
  mtip := by
    obtain ⟨hlow, hhigh⟩ := h.own_bounds hu.count
    have htick := h.tick
    rw [e.mtip_iff, BitVec.le_def, BitVec.le_def]
    show _ ↔ (e.clint.compareOf e.hart).toNat ≤ e.turn.tick.toNat
    rcases hu.timer with hdue | hfar
    · omega
    · omega
  time := by
    intro op rd src t ht
    have hread : e.readsCsr TIME = true := by simp [SmpStep.readsCsr, ht]
    rw [hu.time] at hread
    cases hread
  timeh := by
    intro op rd src t ht
    have hread : e.readsCsr TIMEH = true := by simp [SmpStep.readsCsr, ht]
    have hsmall := hu.timeh hread
    have hhigh := (h.own_bounds hu.count).2
    have htick := h.tick
    show some ((t.hart.virtualTime >>> 32).setWidth 32) = some ((e.turn.tick >>> 32).setWidth 32)
    rw [SmpStep.retired_virtualTime ht, ushiftRight_eq_zero (by omega),
      ushiftRight_eq_zero (v := e.turn.tick) (by omega)]
  forward := hforward

end

/-- No store writes `mtime`. -/
theorem Clint.store_mtime (c : Clint) (off val : U32) : (c.store off val).mtime = c.mtime := by
  unfold Clint.store
  split
  · rfl
  split
  · rfl
  split
  · rfl
  split
  · rfl
  split
  · rfl
  · rfl

/-- Nor does one of the machine. -/
theorem Machine.store_mtime (m : Machine) (pa : U32) (size : Nat) (val : U32) :
    (Bus.store m pa size val).2.clint.mtime = m.clint.mtime := by
  show (m.store pa size val).2.clint.mtime = _
  unfold MachineOf.store
  split
  · exact m.clint.store_mtime _ _
  split
  · rfl
  split
  · rfl
  · rfl

/-- No step changes `mtime`: only the scheduler does. -/
theorem stepSystem_mtime (s : Sys RecordingBus) :
    (stepSystem s).2.bus.machine.clint.mtime = s.bus.machine.clint.mtime := by
  refine stepSystem_inv (I := fun b : RecordingBus =>
    b.machine.clint.mtime = s.bus.machine.clint.mtime) ?_ ?_ rfl
  · intro b hb pa size val
    exact (Machine.store_mtime b.machine pa size val).trans hb
  · intro b hb pa size mask
    show (MachineOf.writeShadow b.machine pa size mask).clint.mtime = _
    unfold MachineOf.writeShadow
    split
    · exact hb
    · exact hb

/-! ## Runs -/

/-- A pass is made at the start of a call or before its deadline. -/
def InTime (c : SmpCall) (tick : U64) : Prop := tick = 0 ∨ tick < c.deadlineTicks

/-- What the harts have retired. -/
def retiredCounts (cpus : Fin n → Cpu) : Fin n → U64 := fun i => (cpus i).insnsRetired

/-- The counts after one hart has run. -/
theorem retiredCounts_update (cpus : Fin n → Cpu) (h : Fin n) (cpu : Cpu) :
    retiredCounts (Function.update cpus h cpu) =
      Function.update (retiredCounts cpus) h cpu.insnsRetired := by
  funext i
  by_cases hi : i = h
  · subst hi
    simp [retiredCounts]
  · simp [retiredCounts, hi]

/-- Reservations are cleared, and nothing else. -/
theorem retiredCounts_invalidateOthers (h : Fin n) (writes : List (U32 × Nat))
    (cpus : Fin n → Cpu) :
    retiredCounts (invalidateOthers h writes cpus) = retiredCounts cpus := by
  unfold invalidateOthers
  induction writes generalizing cpus with
  | nil => rfl
  | cons w writes ih =>
    rw [List.foldl_cons, ih]
    funext i
    show (if i = h then cpus i else _).insnsRetired = _
    split
    · rfl
    · show ((cpus i).toHart.invalidateReservation w.1 w.2).insnsRetired = _
      unfold Hart.invalidateReservation
      split
      · split
        · rfl
        · rfl
      · rfl

section
variable {c : SmpCall} {I : (Fin n → U64) → Machine → U64 → List (SmpStep n) → Prop}
  (hpass : ∀ (counts : Fin n → U64) (h : Fin n) (t : EdgeTurn n), InTime c t.tick →
    counts h = t.sys.hart.insnsRetired → I counts t.sys.bus.machine t.tick t.steps →
    I (Function.update counts h (t.step h).sys.hart.insnsRetired) (t.step h).sys.bus.machine
      (t.step h).tick (t.step h).steps)

include hpass

/-- What every pass keeps, a turn keeps. -/
theorem turnLoopEdges_inv (h : Fin n) (turnDeadline : U64) (k : Nat) {counts : Fin n → U64}
    {t : EdgeTurn n} (htime : InTime c t.tick) (hcount : counts h = t.sys.hart.insnsRetired)
    (ht : I counts t.sys.bus.machine t.tick t.steps) :
    let t' := turnLoopEdges h turnDeadline c.deadlineTicks k t
    I (Function.update counts h t'.sys.hart.insnsRetired) t'.sys.bus.machine t'.tick t'.steps := by
  induction k generalizing counts t with
  | zero =>
    simp only [turnLoopEdges]
    rwa [← hcount, Function.update_eq_self]
  | succ k ih =>
    have hstep := hpass counts h t htime hcount ht
    simp only [turnLoopEdges]
    split
    · exact hstep
    next hgo =>
      simp only [not_or] at hgo
      have hrest := ih (.inr (BitVec.not_le.mp hgo.2.2)) (Function.update_self h _ counts) hstep
      simpa only [Function.update_idem] using hrest

/-- What every pass keeps, a round keeps; if it does not end the call, there is time left. -/
theorem smpRoundEdges_inv (hs : List (Fin n)) {s : EdgeSmp n} (htime : InTime c s.tick)
    (h : I (retiredCounts s.cpus) s.machine s.tick s.steps) :
    let r := smpRoundEdges c hs s
    I (retiredCounts r.2.cpus) r.2.machine r.2.tick r.2.steps ∧ (r.1 = false → InTime c r.2.tick) := by
  induction hs generalizing s with
  | nil => exact ⟨h, fun _ => htime⟩
  | cons i hs ih =>
    simp only [smpRoundEdges]
    split
    · exact ih htime h
    · have hturn : I (retiredCounts (smpTurnEdges c i s).2.cpus) (smpTurnEdges c i s).2.machine
          (smpTurnEdges c i s).2.tick (smpTurnEdges c i s).2.steps := by
        unfold smpTurnEdges
        rw [retiredCounts_invalidateOthers, retiredCounts_update]
        exact turnLoopEdges_inv hpass i _ (c.deadlineTicks.toNat + 1) (t := s.turn i) htime rfl h
      split
      · exact ⟨hturn, by rintro ⟨⟩⟩
      next hgo =>
        simp only [not_or] at hgo
        exact ih (.inr (BitVec.not_le.mp hgo.2.2)) hturn

/-- What a step keeps, the rounds keep. -/
theorem smpRoundsEdges_inv (k : Nat) {s : EdgeSmp n} (htime : InTime c s.tick)
    (h : I (retiredCounts s.cpus) s.machine s.tick s.steps) :
    let s' := smpRoundsEdges c k s
    I (retiredCounts s'.cpus) s'.machine s'.tick s'.steps := by
  induction k generalizing s with
  | zero => exact h
  | succ k ih =>
    obtain ⟨hround, hleft⟩ := smpRoundEdges_inv hpass (List.finRange n) htime h
    simp only [smpRoundsEdges]
    split
    · exact hround
    next hgo => exact ih (hleft (Bool.eq_false_iff.mpr hgo)) hround

/-- What every pass keeps holds at the end of a whole call. -/
theorem runSmpWithEdges_inv {s : Smp n} (h : I (retiredCounts s.cpus) s.machine 0 []) :
    ∃ counts m tick, I counts m tick (runSmpWithEdges c s).2.steps := by
  unfold runSmpWithEdges
  split
  · exact ⟨_, _, _, h⟩
  · exact ⟨_, _, _, smpRoundsEdges_inv hpass _ (s := s.withEdges) (.inl rfl) h⟩

end

/-- The tick does not wrap before the deadline. -/
theorem InTime.toNat_succ {c : SmpCall} {tick : U64} (h : InTime c tick) :
    (tick + 1).toNat = tick.toNat + 1 := by
  show (tick.toNat + 1) % 2 ^ 64 = _
  rcases h with hzero | hlt
  · rw [hzero]
    rfl
  · have hlt : tick.toNat < c.deadlineTicks.toNat := hlt
    have := c.deadlineTicks.isLt
    omega

/-- The tick counts the steps of the call, and every hart counts those that retire one of its
instructions on top of what it started with. -/
structure Counting (start counts : Fin n → U64) (tick : U64) (steps : List (SmpStep n)) : Prop where
  tick : tick.toNat = steps.length
  own : ∀ i, counts i = start i + BitVec.ofNat 64 (counted i steps)
  timed : EachAfter (Timed start) steps

/-- A pass counts the instruction that it retires. -/
theorem EdgeTurn.step_insnsRetired (h : Fin n) (t : EdgeTurn n) :
    (t.step h).sys.hart.insnsRetired =
      t.sys.hart.insnsRetired + BitVec.ofNat 64 ((t.next h).counts h).toNat := by
  have hcounts : (t.next h).counts h = (retired (t.ready h)).isSome := by
    rw [SmpStep.counts, decide_eq_true (show (t.next h).hart = h from rfl), Bool.true_and]
    rfl
  rw [hcounts]
  refine (stepSystem_insnsRetired (t.ready h)).trans ?_
  cases retired (t.ready h) with
  | none => exact (BitVec.add_zero _).symm
  | some r => rfl

/-- A step counts in its hart and in the tick. -/
theorem Counting.pass {start : Fin n → U64} (c : SmpCall) (counts : Fin n → U64) (h : Fin n)
    (t : EdgeTurn n) (htime : InTime c t.tick) (hcount : counts h = t.sys.hart.insnsRetired)
    (ht : Counting start counts t.tick t.steps) :
    Counting start (Function.update counts h (t.step h).sys.hart.insnsRetired) (t.step h).tick
      (t.step h).steps where
  tick := by
    show (t.tick + 1).toNat = (t.steps ++ [t.next h]).length
    rw [htime.toNat_succ, ht.tick, List.length_append, List.length_singleton]
  own := by
    intro i
    show _ = start i + BitVec.ofNat 64 (counted i (t.steps ++ [t.next h]))
    rw [counted, List.countP_append, BitVec.ofNat_add, ← BitVec.add_assoc,
      ← show counts i = start i + BitVec.ofNat 64 (t.steps.countP (·.counts i)) from ht.own i]
    by_cases hi : i = h
    · subst hi
      rw [Function.update_self, t.step_insnsRetired, hcount]
      cases hc : (t.next i).counts i with
      | false => simp [hc]
      | true => simp [hc]
    · have hother : (t.next h).counts i = false := by
        rw [SmpStep.counts, decide_eq_false (show ¬ (t.next h).hart = i from fun heq => hi heq.symm),
          Bool.false_and]
      rw [Function.update_of_ne hi]
      simp [hother]
  timed := ht.timed.snoc ⟨ht.tick, (hcount.symm.trans (ht.own h))⟩

/-- Every step of a call is timed. -/
theorem runSmpWithEdges_timed (c : SmpCall) (s : Smp n) :
    EachAfter (Timed (retiredCounts s.cpus)) (runSmpWithEdges c s).2.steps := by
  obtain ⟨_, _, _, h⟩ := runSmpWithEdges_inv (c := c)
    (I := fun counts _ => Counting (retiredCounts s.cpus) counts) (Counting.pass c) (s := s)
    ⟨rfl, fun i => (BitVec.add_zero _).symm, fun k hk => absurd hk (Nat.not_lt_zero k)⟩
  exact h.timed

/-- The clock shows an earlier tick of the call, and none of its steps has set it back. -/
def Forward (m : Machine) (tick : U64) (steps : List (SmpStep n)) : Prop :=
  (m.clint.mtime = 0 ∨ m.clint.mtime < tick) ∧
    ∀ e ∈ steps, e.turn.sys.bus.machine.clint.mtime ≤ e.turn.tick

/-- A step moves the clock forward. -/
theorem Forward.pass (c : SmpCall) (h : Fin n) {t : EdgeTurn n} (htime : InTime c t.tick)
    (ht : Forward t.sys.bus.machine t.tick t.steps) :
    Forward (t.step h).sys.bus.machine (t.step h).tick (t.step h).steps := by
  obtain ⟨hshown, hsteps⟩ := ht
  refine ⟨.inr ?_, fun e he => ?_⟩
  · have hmtime : (t.step h).sys.bus.machine.clint.mtime = t.tick := stepSystem_mtime (t.ready h)
    rw [hmtime]
    show t.tick.toNat < (t.tick + 1).toNat
    rw [htime.toNat_succ]
    exact Nat.lt_succ_self _
  · rcases List.mem_append.mp he with he | he
    · exact hsteps e he
    · rw [List.mem_singleton.mp he]
      rcases hshown with hzero | hlt
      · show t.sys.bus.machine.clint.mtime ≤ t.tick
        rw [hzero]
        exact BitVec.le_def.mpr (Nat.zero_le _)
      · exact BitVec.le_of_lt hlt

/-- A call that starts with the clock at 0 never sets it back. -/
theorem runSmpWithEdges_forward (c : SmpCall) {s : Smp n} (h : s.machine.clint.mtime = 0) :
    ∀ e ∈ (runSmpWithEdges c s).2.steps, e.turn.sys.bus.machine.clint.mtime ≤ e.turn.tick := by
  obtain ⟨_, _, _, -, hsteps⟩ := runSmpWithEdges_inv (c := c) (I := fun _ => Forward)
    (fun _ i _ htime _ ht => Forward.pass c i htime ht) (s := s) ⟨.inl h, by simp⟩
  exact hsteps

/-- Every step of a call that meets the condition satisfies the laws. -/
theorem Session.Safe.clockOk {s : Session n} {c : SmpCall} (h : s.Safe (.call c)) :
    ∀ e ∈ (runSmpWithEdges c s.smp).2.steps, ClockOk e := by
  have hall : EachAfter (fun _ e => ClockOk e) (runSmpWithEdges c s.smp).2.steps := by
    refine (runSmpWithEdges_timed c s.smp).imp h fun before e he htimed hin => ?_
    obtain ⟨hzero, hok⟩ := hin
    have hforward := runSmpWithEdges_forward c hzero e he
    rcases hok with hp | hu
    · exact hp.clockOk htimed hforward
    · exact hu.clockOk htimed hforward
  intro e he
  obtain ⟨k, hk, rfl⟩ := List.mem_iff_getElem.mp he
  exact hall k hk

/-- In every session, boot and cases and resets in any order, whose calls start with the clock at 0
and whose steps are in phase or do not tell, all harts go by one clock. -/
theorem smp_one_clock (cpus : Fin n → Cpu) (machine : Machine) (ops : List SmpOp)
    (hal : Along Session.op Session.Safe (Session.start cpus machine) ops) :
    ∀ e ∈ (run Session.op (Session.start cpus machine) ops).2.steps, ClockOk e := by
  refine run_invariant (P := fun s : Session n => ∀ e ∈ s.steps, ClockOk e) ?_ (by
    intro e he
    cases he) hal
  intro s op hs hok
  cases op with
  | call c =>
    intro e he
    rcases List.mem_append.mp he with he | he
    · exact hs e he
    · exact hok.clockOk e he
  | capture => exact hs
  | reset =>
    simp only [Session.op]
    split
    · exact hs
    · exact hs
  | store => exact hs

end

/-! ## Harts that execute `nop` -/

/-- A machine full of `nop`; the compare value of hart 1 is 1. -/
def nopMachine : Machine :=
  { MachineOf.new 0x80000000 4096 with
    ram := { Mmu.new 0x80000000 4096 with
      mem := fun i => if i % 4 = 0 then 0x13 else 0
      perms := fun _ => PERM_READ ||| PERM_EXEC }
    clint := { Clint.default with msipExtra := [0], mtimecmpExtra := [1] } }

/-- A machine that reads the time, both words, and then executes `nop`. The compare values of harts 1 and
2 are 3 and 100. -/
def timeMachine : Machine :=
  { nopMachine with
    ram := { nopMachine.ram with
      -- rdtime x5; rdtimeh x6
      mem := setSpan nopMachine.ram.mem 0 [0xf3, 0x22, 0x10, 0xc0, 0x73, 0x23, 0x10, 0xc8] }
    clint := { Clint.default with mtimecmp := 1, msipExtra := [0, 0], mtimecmpExtra := [3, 100] } }

/-- Harts 0 and 1 are about to read the time; hart 1 has retired the two instructions that it is going to
miss. Hart 2 is idle. -/
def timeCpus (i : Fin 3) : Cpu :=
  if i = 0 then Cpu.new 0x80000000
  else if i = 1 then { Cpu.new 0x80000000 with insnsRetired := 2 }
  else Cpu.new 0x80000100

/-- The snapshot is taken, and two cases are run from it. Harts 0 and 1 read the time and find their
timers due, each in its second step. -/
theorem smp_one_clock_reads :
    (∃ e ∈ (run Session.op (Session.start timeCpus timeMachine)
      [.capture, .call ⟨2, 6, false⟩, .reset, .call ⟨2, 6, false⟩]).2.steps,
      e.hart = 1 ∧ e.readsCsr TIMEH = true ∧ e.mtip = true) ∧
    ∀ e ∈ (run Session.op (Session.start timeCpus timeMachine)
      [.capture, .call ⟨2, 6, false⟩, .reset, .call ⟨2, 6, false⟩]).2.steps, ClockOk e :=
  ⟨by decide +kernel, smp_one_clock _ _ _ (by decide +kernel)⟩

/-- Hart 1 has retired nothing when the clock reaches its compare value. -/
theorem smp_two_clocks :
    ¬ ∀ e ∈ (run Session.op (Session.start (fun _ : Fin 2 => Cpu.new 0x80000000) nopMachine)
      [.call ⟨1, 2, false⟩]).2.steps, ClockOk e := by
  intro h
  have hlaw : ∀ e ∈ (run Session.op (Session.start (fun _ : Fin 2 => Cpu.new 0x80000000) nopMachine)
      [.call ⟨1, 2, false⟩]).2.steps,
      (e.mtip = true ↔ e.clint.compareOf e.hart ≤ e.clint.mtime) := fun e he => (h e he).mtip
  revert hlaw
  decide +kernel

end FuzzSoft
