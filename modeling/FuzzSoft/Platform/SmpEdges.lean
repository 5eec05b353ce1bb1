import FuzzSoft.Lib.Loop
import FuzzSoft.Platform.Smp

/-!
# The coverage-recording scheduler

`run_smp_with_edges` repeats the body of `run_smp` and reports the control-flow edges of every hart.
It is modelled as the source writes it, as a second pair of loops, and shown to leave the same harts,
machine and stops as `run_smp` (`run_smp_with_edges_is_run_smp`). Next to the source's state it keeps
the list of the steps made, oldest first, over which the bounds on both schedulers are stated.
-/

namespace FuzzSoft

open Lib

/-- One step of a hart, given by the state of its turn before the pass. -/
structure SmpStep (n : Nat) where
  hart : Fin n
  turn : Turn n

namespace SmpStep

section
variable {n : Nat}

/-- The system that the step starts from. -/
def ready (e : SmpStep n) : Sys RecordingBus := e.turn.ready e.hart

/-- The program counter before the step. -/
def before (e : SmpStep n) : U32 := e.ready.hart.pc

/-- The outcome of the step. -/
def exit (e : SmpStep n) : SysExit := (stepSystem e.ready).1

/-- The program counter after the step. -/
def after (e : SmpStep n) : U32 := (stepSystem e.ready).2.hart.pc

/-- What `run_smp` logs of the step. -/
def event (e : SmpStep n) : SmpEvent n := smpEvent e.hart e.ready (stepSystem e.ready).2

/-- What the step stops its hart with. -/
def stop (e : SmpStep n) : Option Stop :=
  match e.exit with
  | .continue => none
  | .halt c => some (.halt c)
  | .hypercall c => some (.hypercall c)

/-- The step made a hypercall. -/
def hypercalled (e : SmpStep n) : Bool :=
  match e.exit with
  | .hypercall _ => true
  | _ => false

/-- The edge of a step that went on, but not to the next instruction. -/
def edge (e : SmpStep n) : Option (Fin n × U32 × U32) :=
  if e.exit = .continue ∧ e.after ≠ e.before + 4 ∧ e.after ≠ e.before + 2 then
    some (e.hart, e.before, e.after)
  else none

end

end SmpStep

/-! ## The scheduler -/

/-- A hart's turn in progress, with the edges reported and the steps made. -/
structure EdgeTurn (n : Nat) extends Turn n where
  edges : List (Fin n × U32 × U32)
  steps : List (SmpStep n)

/-- All harts with their machine, the edges reported and the steps made. -/
structure EdgeSmp (n : Nat) extends Smp n where
  edges : List (Fin n × U32 × U32)
  steps : List (SmpStep n)

section
variable {n : Nat}

/-- One pass of a turn. -/
def EdgeTurn.step (h : Fin n) (t : EdgeTurn n) : EdgeTurn n :=
  let s := t.ready h
  let prev := s.hart.pc
  let r := stepSystem s
  let cur := r.2.hart.pc
  { sys := r.2
    stop := match r.1 with
      | .continue => t.stop
      | .halt c => some (.halt c)
      | .hypercall c => some (.hypercall c)
    hypercalled := match r.1 with
      | .hypercall _ => true
      | _ => t.hypercalled
    tick := t.tick + 1
    log := smpEvent h s r.2 :: t.log
    edges := match r.1 with
      | .continue =>
        if cur ≠ prev + 4 ∧ cur ≠ prev + 2 then t.edges ++ [(h, prev, cur)] else t.edges
      | _ => t.edges
    steps := t.steps ++ [⟨h, t.toTurn⟩] }

/-- The passes of a turn, at most so many. -/
def turnLoopEdges (h : Fin n) (turnDeadline deadlineTicks : U64) : Nat → EdgeTurn n → EdgeTurn n
  | 0, t => t
  | k + 1, t =>
    let t := t.step h
    if t.stop.isSome ∨ turnDeadline ≤ t.sys.hart.insnsRetired ∨ deadlineTicks ≤ t.tick then t
    else turnLoopEdges h turnDeadline deadlineTicks k t

/-- The start of the turn of hart `h`. -/
def EdgeSmp.turn (h : Fin n) (s : EdgeSmp n) : EdgeTurn n where
  sys := ⟨s.cpus h, ⟨s.machine, []⟩⟩
  stop := none
  hypercalled := false
  tick := s.tick
  log := s.log
  edges := s.edges
  steps := s.steps

/-- The turn of hart `h`; says whether it made a hypercall. -/
def smpTurnEdges (c : SmpCall) (h : Fin n) (s : EdgeSmp n) : Bool × EdgeSmp n :=
  let t := turnLoopEdges h ((s.cpus h).insnsRetired + c.quantum) c.deadlineTicks
    (c.deadlineTicks.toNat + 1) (s.turn h)
  (t.hypercalled,
    { cpus := invalidateOthers h t.sys.bus.writes (Function.update s.cpus h t.sys.cpu)
      machine := t.sys.bus.machine
      stops := Function.update s.stops h t.stop
      tick := t.tick
      log := t.log
      edges := t.edges
      steps := t.steps })

/-- The turns of a round; says whether the scheduler is done. -/
def smpRoundEdges (c : SmpCall) : List (Fin n) → EdgeSmp n → Bool × EdgeSmp n
  | [], s => (false, s)
  | h :: hs, s =>
    if (s.stops h).isSome then smpRoundEdges c hs s
    else
      let r := smpTurnEdges c h s
      if (c.stopOnHypercall ∧ r.1) ∨ (∀ i, (r.2.stops i).isSome) ∨ c.deadlineTicks ≤ r.2.tick then
        (true, r.2)
      else smpRoundEdges c hs r.2

/-- The rounds, at most so many. -/
def smpRoundsEdges (c : SmpCall) : Nat → EdgeSmp n → EdgeSmp n
  | 0, s => s
  | k + 1, s =>
    let r := smpRoundEdges c (List.finRange n) s
    if r.1 then r.2 else smpRoundsEdges c k r.2

/-- Where `run_smp_with_edges` starts: nobody has stopped, and the tick is 0. -/
def Smp.withEdges (s : Smp n) : EdgeSmp n :=
  { s with stops := fun _ => none, tick := 0, edges := [], steps := [] }

/-- `run_smp_with_edges`. -/
def runSmpWithEdges (c : SmpCall) (s : Smp n) : (Fin n → Stop) × EdgeSmp n :=
  if n = 0 then (fun _ => .budget, { s with edges := [], steps := [] })
  else
    let s := smpRoundsEdges c (c.deadlineTicks.toNat + 1) s.withEdges
    (fun i => (s.stops i).getD .budget, s)

/-! ## The two schedulers agree -/

/-- A turn that collects edges is a turn. -/
theorem turnLoopEdges_toTurn (h : Fin n) (turnDeadline deadlineTicks : U64) (k : Nat)
    (t : EdgeTurn n) : (turnLoopEdges h turnDeadline deadlineTicks k t).toTurn =
      turnLoop h turnDeadline deadlineTicks k t.toTurn := by
  induction k generalizing t with
  | zero => rfl
  | succ k ih =>
    have hstep : (t.step h).toTurn = t.toTurn.step h := rfl
    simp only [turnLoopEdges, turnLoop, ← hstep]
    split
    · rfl
    · exact ih (t.step h)

/-- So is the turn of a hart in its call. -/
theorem smpTurnEdges_toSmp (c : SmpCall) (h : Fin n) (s : EdgeSmp n) :
    smpTurn c h s.toSmp = ((smpTurnEdges c h s).1, (smpTurnEdges c h s).2.toSmp) := by
  have hloop := turnLoopEdges_toTurn h ((s.cpus h).insnsRetired + c.quantum) c.deadlineTicks
    (c.deadlineTicks.toNat + 1) (s.turn h)
  unfold smpTurn smpTurnEdges
  rw [show turnLoop h ((s.cpus h).insnsRetired + c.quantum) c.deadlineTicks
    (c.deadlineTicks.toNat + 1) ⟨⟨s.cpus h, ⟨s.machine, []⟩⟩, none, false, s.tick, s.log⟩ = _ from
    hloop.symm]

/-- So is a round. -/
theorem smpRoundEdges_toSmp (c : SmpCall) (hs : List (Fin n)) (s : EdgeSmp n) :
    smpRound c hs s.toSmp = ((smpRoundEdges c hs s).1, (smpRoundEdges c hs s).2.toSmp) := by
  induction hs generalizing s with
  | nil => rfl
  | cons h hs ih =>
    simp only [smpRound, smpRoundEdges, smpTurnEdges_toSmp, ih]
    split
    · rfl
    · split
      · rfl
      · rfl

/-- So are all rounds. -/
theorem smpRoundsEdges_toSmp (c : SmpCall) (k : Nat) (s : EdgeSmp n) :
    (smpRoundsEdges c k s).toSmp = smpRounds c k s.toSmp := by
  induction k generalizing s with
  | zero => rfl
  | succ k ih =>
    simp only [smpRoundsEdges, smpRounds, smpRoundEdges_toSmp]
    split
    · rfl
    · exact ih _

/-- The harts, the machine, the stops and the log are the same. -/
theorem runSmpWithEdges_toSmp (c : SmpCall) (s : Smp n) :
    runSmp c s = ((runSmpWithEdges c s).1, (runSmpWithEdges c s).2.toSmp) := by
  unfold runSmp runSmpWithEdges
  split
  · rfl
  · simp only [smpRoundsEdges_toSmp]
    rfl

/-! ## The steps of a run -/

/-- What the stops, the tick and the edges say about the steps made so far. -/
structure TraceOk (stops : Fin n → Option Stop) (tick : U64) (steps : List (SmpStep n))
    (edges : List (Fin n × U32 × U32)) : Prop where
  /-- The tick counts the steps. -/
  tick : tick.toNat = steps.length
  /-- A hart is stopped by what one of its steps stopped it with. -/
  stops : ∀ i st, stops i = some st ↔ ∃ e ∈ steps, e.hart = i ∧ e.stop = some st
  /-- A hart makes no step after it has stopped. -/
  still : steps.Pairwise fun e e' => e.stop.isSome = true → e'.hart ≠ e.hart
  edges : edges = steps.filterMap SmpStep.edge

/-- One step more, of a hart that has not stopped. -/
theorem TraceOk.snoc {stops : Fin n → Option Stop} {tick : U64} {steps : List (SmpStep n)}
    {edges : List (Fin n × U32 × U32)} (h : TraceOk stops tick steps edges) {e : SmpStep n}
    (he : stops e.hart = none) (hlt : steps.length + 1 < 2 ^ 64) :
    TraceOk (Function.update stops e.hart e.stop) (tick + 1) (steps ++ [e])
      (edges ++ e.edge.toList) where
  tick := by
    have := h.tick
    rw [BitVec.toNat_add, List.length_append, List.length_singleton]
    show (tick.toNat + 1) % 2 ^ 64 = _
    omega
  stops := by
    intro i st
    by_cases hi : i = e.hart
    · subst hi
      rw [Function.update_self]
      constructor
      · exact fun hst => ⟨e, by simp, rfl, hst⟩
      · rintro ⟨e', hm, hhart, hst⟩
        rcases List.mem_append.mp hm with hm | hm
        · rw [(h.stops e.hart st).mpr ⟨e', hm, hhart, hst⟩] at he
          cases he
        · rw [List.mem_singleton.mp hm] at hst
          exact hst
    · rw [Function.update_of_ne hi, h.stops]
      constructor
      · rintro ⟨e', hm, hrest⟩
        exact ⟨e', List.mem_append_left _ hm, hrest⟩
      · rintro ⟨e', hm, hhart, hst⟩
        rcases List.mem_append.mp hm with hm | hm
        · exact ⟨e', hm, hhart, hst⟩
        · rw [List.mem_singleton.mp hm] at hhart
          exact absurd hhart.symm hi
  still := by
    refine List.pairwise_append.mpr ⟨h.still, List.pairwise_singleton _ _, ?_⟩
    intro e₁ h₁ e₂ h₂ hst heq
    rw [List.mem_singleton.mp h₂] at heq
    obtain ⟨st, hst⟩ := Option.isSome_iff_exists.mp hst
    rw [(h.stops e.hart st).mpr ⟨e₁, h₁, heq.symm, hst⟩] at he
    cases he
  edges := by
    rw [h.edges, List.filterMap_append]
    cases hedge : e.edge with
    | none => simp [hedge]
    | some x => simp [hedge]

/-- The step that a pass of the turn of hart `h` makes. -/
def EdgeTurn.next (h : Fin n) (t : EdgeTurn n) : SmpStep n := ⟨h, t.toTurn⟩

/-- A step appends its edge. -/
theorem EdgeTurn.step_edges (h : Fin n) (t : EdgeTurn n) :
    (t.step h).edges = t.edges ++ (t.next h).edge.toList := by
  have hedge (e : SmpStep n) : t.edges ++ e.edge.toList = match e.exit with
      | .continue => if e.after ≠ e.before + 4 ∧ e.after ≠ e.before + 2 then
          t.edges ++ [(e.hart, e.before, e.after)] else t.edges
      | _ => t.edges := by
    cases hexit : e.exit with
    | «continue» =>
      simp only [SmpStep.edge, hexit, true_and]
      split
      · rfl
      · exact List.append_nil _
    | halt c => simp [SmpStep.edge, hexit]
    | hypercall c => simp [SmpStep.edge, hexit]
  rw [hedge]
  rfl

/-- A step of a running turn may stop it. -/
theorem EdgeTurn.step_stop (h : Fin n) {t : EdgeTurn n} (hstop : t.stop = none) :
    (t.step h).stop = (t.next h).stop := by
  show (match (t.next h).exit with
    | .continue => t.stop
    | .halt c => some (.halt c)
    | .hypercall c => some (.hypercall c)) = _
  unfold SmpStep.stop
  cases (t.next h).exit with
  | «continue» => exact hstop
  | halt => rfl
  | hypercall => rfl

/-- A step may be a hypercall. -/
theorem EdgeTurn.step_hypercalled (h : Fin n) {t : EdgeTurn n} (hhyper : t.hypercalled = false) :
    (t.step h).hypercalled = (t.next h).hypercalled := by
  show (match (t.next h).exit with
    | .hypercall _ => true
    | _ => t.hypercalled) = _
  unfold SmpStep.hypercalled
  cases (t.next h).exit with
  | «continue» => exact hhyper
  | halt => exact hhyper
  | hypercall => rfl

/-- The log has got the event of each step. -/
def Logged (log₀ log : List (SmpEvent n)) (steps : List (SmpStep n)) : Prop :=
  log = (steps.map SmpStep.event).reverse ++ log₀

/-- One more step in the log. -/
theorem Logged.snoc {log₀ log : List (SmpEvent n)} {steps : List (SmpStep n)}
    (h : Logged log₀ log steps) (e : SmpStep n) : Logged log₀ (e.event :: log) (steps ++ [e]) := by
  unfold Logged at h ⊢
  rw [h, List.map_append, List.map_singleton, List.reverse_append, List.reverse_singleton,
    List.singleton_append, List.cons_append]

/-! ## One turn -/

section
variable (c : SmpCall) (h : Fin n) (stops : Fin n → Option Stop) (log₀ : List (SmpEvent n))

/-- The turn goes on with another pass. -/
structure TurnGoes (t : EdgeTurn n) : Prop where
  trace : TraceOk stops t.tick t.steps t.edges
  logged : Logged log₀ t.log t.steps
  stop : t.stop = none
  hypercalled : t.hypercalled = false
  time : t.steps = [] ∨ t.tick < c.deadlineTicks
  quiet : c.stopOnHypercall = true → ∀ e ∈ t.steps, e.hypercalled = false

/-- The state after a pass, in which the turn may end. -/
structure TurnEnds (t : EdgeTurn n) : Prop where
  trace : TraceOk (Function.update stops h t.stop) t.tick t.steps t.edges
  logged : Logged log₀ t.log t.steps
  bound : t.steps.length ≤ max 1 c.deadlineTicks.toNat
  hypercalled : t.stop = none → t.hypercalled = false
  quiet : c.stopOnHypercall = true → t.hypercalled = false → ∀ e ∈ t.steps, e.hypercalled = false
  last : c.stopOnHypercall = true → t.steps.Pairwise fun e _ => e.hypercalled = false

variable {c h stops log₀}

/-- What one pass does. -/
theorem TurnGoes.step {t : EdgeTurn n} (ht : TurnGoes c stops log₀ t) (hh : stops h = none) :
    TurnEnds c h stops log₀ (t.step h) ∧ (t.step h).steps.length = t.steps.length + 1 := by
  have hsteps : (t.step h).steps = t.steps ++ [t.next h] := rfl
  have hlen : (t.step h).steps.length = t.steps.length + 1 := by
    rw [hsteps, List.length_append, List.length_singleton]
  have hbound : t.steps.length + 1 ≤ max 1 c.deadlineTicks.toNat := by
    rcases ht.time with hnil | hlt
    · rw [hnil]
      exact Nat.le_max_left _ _
    · rw [← ht.trace.tick]
      exact Nat.le_trans hlt (Nat.le_max_right _ _)
  have hhyper := EdgeTurn.step_hypercalled h ht.hypercalled
  refine ⟨⟨?_, ?_, hlen ▸ hbound, fun hstop => ?_, fun hon hoff => ?_, fun hon => ?_⟩, hlen⟩
  · rw [EdgeTurn.step_edges, EdgeTurn.step_stop h ht.stop, hsteps]
    refine ht.trace.snoc (e := t.next h) hh ?_
    have := c.deadlineTicks.isLt
    omega
  · exact ht.logged.snoc (t.next h)
  · rw [EdgeTurn.step_stop h ht.stop] at hstop
    rw [hhyper]
    unfold SmpStep.stop at hstop
    unfold SmpStep.hypercalled
    cases hx : (t.next h).exit with
    | hypercall cmd =>
      rw [hx] at hstop
      cases hstop
    | _ => rfl
  · intro e he
    rw [hsteps] at he
    rcases List.mem_append.mp he with he | he
    · exact ht.quiet hon e he
    · rw [List.mem_singleton.mp he, ← hhyper]
      exact hoff
  · rw [hsteps]
    refine List.pairwise_append.mpr ⟨?_, List.pairwise_singleton _ _, ?_⟩
    · exact List.pairwise_of_forall_mem_list fun e he _ _ => ht.quiet hon e he
    · exact fun e he _ _ => ht.quiet hon e he

/-- After a pass that does not end the turn, it goes on. -/
theorem TurnEnds.goes {t : EdgeTurn n} (ht : TurnEnds c h stops log₀ t) (hh : stops h = none)
    (hstop : t.stop = none) (htime : t.tick < c.deadlineTicks) : TurnGoes c stops log₀ t where
  trace := by
    have := ht.trace
    rwa [hstop, Function.update_eq_self_iff.mpr hh.symm] at this
  logged := ht.logged
  stop := hstop
  hypercalled := ht.hypercalled hstop
  time := .inr htime
  quiet := fun hon => ht.quiet hon (ht.hypercalled hstop)

/-- The loop of a turn, of any length. -/
theorem TurnGoes.loop (hh : stops h = none) (turnDeadline : U64) (k : Nat) {t : EdgeTurn n}
    (ht : TurnGoes c stops log₀ t) :
    TurnEnds c h stops log₀ (turnLoopEdges h turnDeadline c.deadlineTicks (k + 1) t) ∧
      t.steps.length < (turnLoopEdges h turnDeadline c.deadlineTicks (k + 1) t).steps.length := by
  induction k generalizing t with
  | zero =>
    obtain ⟨hends, hlen⟩ := ht.step hh
    have hone : turnLoopEdges h turnDeadline c.deadlineTicks 1 t = t.step h := by
      simp only [turnLoopEdges, ite_self]
    rw [hone]
    exact ⟨hends, by omega⟩
  | succ k ih =>
    obtain ⟨hends, hlen⟩ := ht.step hh
    rw [turnLoopEdges]
    split
    · exact ⟨hends, by omega⟩
    next hgo =>
      simp only [not_or, Option.not_isSome_iff_eq_none] at hgo
      obtain ⟨hloop, hlt⟩ := ih (hends.goes hh hgo.1 (BitVec.not_le.mp hgo.2.2))
      exact ⟨hloop, by omega⟩

end

/-! ## Rounds -/

section
variable (c : SmpCall) (log₀ : List (SmpEvent n))

/-- The scheduler goes on: some hart has not stopped, and the deadline is not reached. -/
structure Running (s : EdgeSmp n) : Prop where
  trace : TraceOk s.stops s.tick s.steps s.edges
  logged : Logged log₀ s.log s.steps
  someone : ∃ i, s.stops i = none
  time : s.steps = [] ∨ s.tick < c.deadlineTicks
  quiet : c.stopOnHypercall = true → ∀ e ∈ s.steps, e.hypercalled = false

/-- The scheduler may end here. -/
structure Finished (s : EdgeSmp n) : Prop where
  trace : TraceOk s.stops s.tick s.steps s.edges
  logged : Logged log₀ s.log s.steps
  bound : s.steps.length ≤ max 1 c.deadlineTicks.toNat
  last : c.stopOnHypercall = true → s.steps.Pairwise fun e _ => e.hypercalled = false

variable {c log₀}

/-- A turn makes a step; after it the scheduler goes on unless the turn says otherwise. -/
theorem Running.turn {s : EdgeSmp n} (hs : Running c log₀ s) {h : Fin n} (hh : s.stops h = none) :
    Finished c log₀ (smpTurnEdges c h s).2 ∧
      s.steps.length < (smpTurnEdges c h s).2.steps.length ∧
      (¬ ((c.stopOnHypercall ∧ (smpTurnEdges c h s).1) ∨
          (∀ i, ((smpTurnEdges c h s).2.stops i).isSome) ∨
          c.deadlineTicks ≤ (smpTurnEdges c h s).2.tick) →
        Running c log₀ (smpTurnEdges c h s).2) := by
  have hstart : TurnGoes c s.stops log₀ (s.turn h) :=
    ⟨hs.trace, hs.logged, rfl, rfl, hs.time, hs.quiet⟩
  obtain ⟨hends, hlt⟩ := hstart.loop hh ((s.cpus h).insnsRetired + c.quantum)
    c.deadlineTicks.toNat
  refine ⟨⟨hends.trace, hends.logged, hends.bound, hends.last⟩, hlt, fun hgo => ?_⟩
  simp only [not_or, not_and, not_forall, Option.not_isSome_iff_eq_none] at hgo
  obtain ⟨hquiet, hsome, htime⟩ := hgo
  refine ⟨hends.trace, hends.logged, hsome, .inr (BitVec.not_le.mp htime), fun hon => ?_⟩
  exact hends.quiet hon (Bool.eq_false_iff.mpr (hquiet hon))

/-- The turns of a round. -/
theorem Running.round (hs : List (Fin n)) {s : EdgeSmp n} (hrun : Running c log₀ s) :
    ((smpRoundEdges c hs s).1 = true → Finished c log₀ (smpRoundEdges c hs s).2) ∧
    ((smpRoundEdges c hs s).1 = false → Running c log₀ (smpRoundEdges c hs s).2 ∧
      s.steps.length ≤ (smpRoundEdges c hs s).2.steps.length ∧
      ((∃ h ∈ hs, s.stops h = none) →
        s.steps.length < (smpRoundEdges c hs s).2.steps.length)) := by
  induction hs generalizing s with
  | nil => exact ⟨nofun, fun _ => ⟨hrun, Nat.le_refl _, fun ⟨_, hm, _⟩ => by cases hm⟩⟩
  | cons h hs ih =>
    rw [smpRoundEdges]
    split
    next hstopped =>
      obtain ⟨htrue, hfalse⟩ := ih hrun
      refine ⟨htrue, fun hf => ?_⟩
      obtain ⟨hrun', hle, hlt⟩ := hfalse hf
      refine ⟨hrun', hle, fun ⟨i, hm, hi⟩ => hlt ⟨i, ?_, hi⟩⟩
      rcases List.mem_cons.mp hm with rfl | hm
      · rw [hi] at hstopped
        cases hstopped
      · exact hm
    next hstopped =>
      obtain ⟨hfin, hlt, hgo⟩ := hrun.turn (Option.not_isSome_iff_eq_none.mp hstopped)
      dsimp only
      split
      · exact ⟨fun _ => hfin, nofun⟩
      next hnot =>
        obtain ⟨htrue, hfalse⟩ := ih (hgo hnot)
        refine ⟨htrue, fun hf => ?_⟩
        obtain ⟨hrun', hle, -⟩ := hfalse hf
        exact ⟨hrun', by omega, fun _ => by omega⟩

end

/-! ## The loops are left -/

/-- One pass of the loop of a turn in `run_smp`. -/
def turnPass (h : Fin n) (turnDeadline deadlineTicks : U64) (t : Turn n) : Turn n ⊕ Turn n :=
  let t := t.step h
  if t.stop.isSome ∨ turnDeadline ≤ t.sys.hart.insnsRetired ∨ deadlineTicks ≤ t.tick then .inl t
  else .inr t

/-- One pass of the loop of a turn in `run_smp_with_edges`. -/
def turnPassEdges (h : Fin n) (turnDeadline deadlineTicks : U64) (t : EdgeTurn n) :
    EdgeTurn n ⊕ EdgeTurn n :=
  let t := t.step h
  if t.stop.isSome ∨ turnDeadline ≤ t.sys.hart.insnsRetired ∨ deadlineTicks ≤ t.tick then .inl t
  else .inr t

/-- One pass of the outer loop of `run_smp`: a round. -/
def roundPass (c : SmpCall) (s : Smp n) : Smp n ⊕ Smp n :=
  let r := smpRound c (List.finRange n) s
  if r.1 then .inl r.2 else .inr r.2

/-- One pass of the outer loop of `run_smp_with_edges`. -/
def roundPassEdges (c : SmpCall) (s : EdgeSmp n) : EdgeSmp n ⊕ EdgeSmp n :=
  let r := smpRoundEdges c (List.finRange n) s
  if r.1 then .inl r.2 else .inr r.2

section
variable {c : SmpCall} {h : Fin n} {turnDeadline deadlineTicks : U64}

/-- The loop ends where its passes exit. -/
theorem turnLoopEdges_of_exits {k m : Nat} {t r : EdgeTurn n}
    (hl : Exits (turnPassEdges h turnDeadline deadlineTicks) m t r) (hm : m ≤ k) :
    turnLoopEdges h turnDeadline deadlineTicks k t = r := by
  induction hl generalizing k with
  | leave hb =>
    obtain ⟨k, rfl⟩ : ∃ j, k = j + 1 := ⟨k - 1, by omega⟩
    simp only [turnPassEdges] at hb
    simp only [turnLoopEdges]
    split at hb
    next hexit =>
      rw [if_pos hexit]
      exact Sum.inl.inj hb
    · cases hb
  | pass hb _ ih =>
    obtain ⟨k, rfl⟩ : ∃ j, k = j + 1 := ⟨k - 1, by omega⟩
    simp only [turnPassEdges] at hb
    simp only [turnLoopEdges]
    split at hb
    · cases hb
    next hexit =>
      rw [if_neg hexit, Sum.inr.inj hb]
      exact ih (by omega)

/-- The loop of a turn is left, since each pass brings the tick closer to the deadline. -/
theorem exits_turnLoopEdges (t : EdgeTurn n) : ∃ m, Exits
    (turnPassEdges h turnDeadline deadlineTicks) m t
      (turnLoopEdges h turnDeadline deadlineTicks (deadlineTicks.toNat + 1) t) := by
  have hstep : ∀ t t' : EdgeTurn n, True → turnPassEdges h turnDeadline deadlineTicks t = .inr t' →
      True ∧ deadlineTicks.toNat - (t'.tick + 1).toNat <
        deadlineTicks.toNat - (t.tick + 1).toNat := by
    intro t t' _ hb
    simp only [turnPassEdges] at hb
    split at hb
    · cases hb
    next hexit =>
      have htick : t'.tick = t.tick + 1 := congrArg (·.tick) (Sum.inr.inj hb).symm
      have hlt : (t.tick + 1).toNat < deadlineTicks.toNat := by
        simp only [not_or] at hexit
        exact BitVec.not_le.mp hexit.2.2
      have hnext : (t.tick + 1 + 1).toNat = (t.tick + 1).toNat + 1 := by
        have := deadlineTicks.isLt
        rw [BitVec.toNat_add]
        show ((t.tick + 1).toNat + 1) % 2 ^ 64 = _
        omega
      rw [htick, hnext]
      exact ⟨trivial, by omega⟩
  obtain ⟨m, r, hm, hl⟩ := exits_of_measure (fun _ => True)
    (fun t : EdgeTurn n => deadlineTicks.toNat - (t.tick + 1).toNat) hstep (s := t) trivial
  rw [turnLoopEdges_of_exits hl (by omega)]
  exact ⟨m, hl⟩

/-- Its passes exit within the deadline. -/
theorem exits_turnLoop (t : Turn n) : ∃ m, Exits (turnPass h turnDeadline deadlineTicks) m t
    (turnLoop h turnDeadline deadlineTicks (deadlineTicks.toNat + 1) t) := by
  obtain ⟨m, hl⟩ : ∃ m, Exits (turnPassEdges h turnDeadline deadlineTicks) m
    { t with edges := [], steps := [] } _ := exits_turnLoopEdges _
  refine ⟨m, ?_⟩
  have hpass (t : EdgeTurn n) : turnPass h turnDeadline deadlineTicks t.toTurn =
      Sum.map EdgeTurn.toTurn EdgeTurn.toTurn (turnPassEdges h turnDeadline deadlineTicks t) := by
    have hstep : t.toTurn.step h = (t.step h).toTurn := rfl
    simp only [turnPass, turnPassEdges, hstep]
    split
    · rfl
    · rfl
  have := hl.map EdgeTurn.toTurn EdgeTurn.toTurn hpass
  rwa [turnLoopEdges_toTurn] at this

/-- The rounds end where theirs exit. -/
theorem smpRoundsEdges_of_exits {k m : Nat} {s r : EdgeSmp n}
    (hl : Exits (roundPassEdges c) m s r) (hm : m ≤ k) : smpRoundsEdges c k s = r := by
  induction hl generalizing k with
  | leave hb =>
    obtain ⟨k, rfl⟩ : ∃ j, k = j + 1 := ⟨k - 1, by omega⟩
    simp only [roundPassEdges] at hb
    simp only [smpRoundsEdges]
    split at hb
    next hexit =>
      rw [if_pos hexit]
      exact Sum.inl.inj hb
    · cases hb
  | pass hb _ ih =>
    obtain ⟨k, rfl⟩ : ∃ j, k = j + 1 := ⟨k - 1, by omega⟩
    simp only [roundPassEdges] at hb
    simp only [smpRoundsEdges]
    split at hb
    · cases hb
    next hexit =>
      rw [if_neg hexit, Sum.inr.inj hb]
      exact ih (by omega)

/-- A round that does not end the run leaves it running, with at least one step more. -/
theorem Running.pass {log₀ : List (SmpEvent n)} {s s' : EdgeSmp n} (hs : Running c log₀ s)
    (hb : roundPassEdges c s = .inr s') :
    Running c log₀ s' ∧ s.steps.length < s'.steps.length := by
  simp only [roundPassEdges] at hb
  split at hb
  · cases hb
  next hf =>
    obtain ⟨i, hi⟩ := hs.someone
    obtain ⟨hrun, -, hlt⟩ := (hs.round (List.finRange n)).2 (Bool.eq_false_iff.mpr hf)
    rw [← Sum.inr.inj hb]
    exact ⟨hrun, hlt ⟨i, List.mem_finRange i, hi⟩⟩

/-- The outer loop is left, in a state where the scheduler may end. -/
theorem Running.exits {log₀ : List (SmpEvent n)} {s : EdgeSmp n} (hs : Running c log₀ s) :
    (∃ m, Exits (roundPassEdges c) m s (smpRoundsEdges c (c.deadlineTicks.toNat + 1) s)) ∧
      Finished c log₀ (smpRoundsEdges c (c.deadlineTicks.toNat + 1) s) := by
  have hstep : ∀ s s' : EdgeSmp n, Running c log₀ s → roundPassEdges c s = .inr s' →
      Running c log₀ s' ∧ c.deadlineTicks.toNat - s'.steps.length <
        c.deadlineTicks.toNat - s.steps.length := by
    intro s s' hs hb
    obtain ⟨hrun, hlt⟩ := hs.pass hb
    have htime : s'.steps.length < c.deadlineTicks.toNat := by
      rcases hrun.time with hnil | htime
      · rw [hnil] at hlt
        exact absurd hlt (Nat.not_lt_zero _)
      · rw [← hrun.trace.tick]
        exact htime
    exact ⟨hrun, by omega⟩
  obtain ⟨m, r, hm, hl⟩ := exits_of_measure (Running c log₀)
    (fun s : EdgeSmp n => c.deadlineTicks.toNat - s.steps.length) hstep hs
  rw [smpRoundsEdges_of_exits hl (by omega)]
  refine ⟨⟨m, hl⟩, hl.invariant (I := Running c log₀) (fun s s' hs hb => (hs.pass hb).1) ?_ hs⟩
  intro s r hs hb
  simp only [roundPassEdges] at hb
  split at hb
  next ht =>
    rw [← Sum.inl.inj hb]
    exact (hs.round (List.finRange n)).1 ht
  · cases hb

end

/-! ## The whole run -/

/-- At the start nobody has stopped. -/
theorem running_withEdges (c : SmpCall) (s : Smp n) (hn : 0 < n) : Running c s.log s.withEdges where
  trace := ⟨rfl, by simp [Smp.withEdges], List.Pairwise.nil, rfl⟩
  logged := rfl
  someone := ⟨⟨0, hn⟩, rfl⟩
  time := .inl rfl
  quiet := fun _ _ he => by cases he

/-- With a hart there is a round. -/
theorem runSmpWithEdges_pos (c : SmpCall) (s : Smp n) (hn : 0 < n) : runSmpWithEdges c s =
    (fun i => ((smpRoundsEdges c (c.deadlineTicks.toNat + 1) s.withEdges).stops i).getD .budget,
      smpRoundsEdges c (c.deadlineTicks.toNat + 1) s.withEdges) :=
  if_neg (Nat.ne_of_gt hn)

/-- A round of one scheduler is a round of the other. -/
theorem roundPass_toSmp (c : SmpCall) (s : EdgeSmp n) :
    roundPass c s.toSmp = Sum.map EdgeSmp.toSmp EdgeSmp.toSmp (roundPassEdges c s) := by
  simp only [roundPass, roundPassEdges, smpRoundEdges_toSmp]
  split
  · rfl
  · rfl

/-- What a scheduler reports of a hart other than `budget` is what one of its steps stopped it
with. -/
theorem TraceOk.reported {stops : Fin n → Option Stop} {tick : U64} {steps : List (SmpStep n)}
    {edges : List (Fin n × U32 × U32)} (h : TraceOk stops tick steps edges) (i : Fin n) {st : Stop}
    (hst : st ≠ .budget) :
    (stops i).getD .budget = st ↔ ∃ e ∈ steps, e.hart = i ∧ e.stop = some st := by
  rw [← h.stops]
  cases stops i with
  | none => exact ⟨fun hb => absurd hb.symm hst, nofun⟩
  | some st' => exact ⟨fun hb => congrArg some hb, fun hb => Option.some.inj hb⟩

/-- `run_smp_with_edges` leaves the harts, the machine and the stops of `run_smp`. Both return, after
at most as many steps as the deadline has ticks, or one; no hart goes on after it has stopped, nor
any hart after the hypercall that stops them all; and the edges are those of the steps. -/
theorem run_smp_with_edges_is_run_smp (c : SmpCall) (s : Smp n) :
    let plain := runSmp c s
    let r := runSmpWithEdges c s
    (r.2.cpus = plain.2.cpus ∧ r.2.machine = plain.2.machine ∧ r.1 = plain.1) ∧
    ((∀ (h : Fin n) turnDeadline t, ∃ m, Exits (turnPass h turnDeadline c.deadlineTicks) m t
        (turnLoop h turnDeadline c.deadlineTicks (c.deadlineTicks.toNat + 1) t)) ∧
      (∀ (h : Fin n) turnDeadline t, ∃ m, Exits (turnPassEdges h turnDeadline c.deadlineTicks) m t
        (turnLoopEdges h turnDeadline c.deadlineTicks (c.deadlineTicks.toNat + 1) t)) ∧
      (0 < n → (∃ m, Exits (roundPass c) m { s with stops := fun _ => none, tick := 0 } plain.2) ∧
        ∃ m, Exits (roundPassEdges c) m s.withEdges r.2)) ∧
    (r.2.steps.length ≤ max 1 c.deadlineTicks.toNat ∧ Logged s.log plain.2.log r.2.steps) ∧
    ((∀ i st, st ≠ .budget → (r.1 i = st ↔ ∃ e ∈ r.2.steps, e.hart = i ∧ e.stop = some st)) ∧
      r.2.steps.Pairwise fun e e' => e.stop.isSome = true → e'.hart ≠ e.hart) ∧
    (c.stopOnHypercall = true → r.2.steps.Pairwise fun e _ => e.hypercalled = false) ∧
    r.2.edges = r.2.steps.filterMap SmpStep.edge := by
  intro plain r
  have hsame : plain = (r.1, r.2.toSmp) := runSmpWithEdges_toSmp c s
  refine ⟨by rw [hsame]; exact ⟨rfl, rfl, rfl⟩, ?_⟩
  rcases Nat.eq_zero_or_pos n with rfl | hn
  · exact ⟨⟨fun h => h.elim0, fun h => h.elim0, fun h => absurd h (Nat.lt_irrefl 0)⟩,
      ⟨Nat.zero_le _, rfl⟩, ⟨fun i => i.elim0, .nil⟩, fun _ => .nil, rfl⟩
  · have hr : r = _ := runSmpWithEdges_pos c s hn
    obtain ⟨⟨m, hexits⟩, hfin⟩ := (running_withEdges c s hn).exits
    have hplain : Exits (roundPass c) m { s with stops := fun _ => none, tick := 0 } plain.2 := by
      have := hexits.map EdgeSmp.toSmp EdgeSmp.toSmp (roundPass_toSmp c)
      rw [hsame, hr]
      exact this
    refine ⟨⟨fun _ _ t => exits_turnLoop t, fun _ _ t => exits_turnLoopEdges t,
      fun _ => ⟨⟨m, hplain⟩, m, ?_⟩⟩, ?_⟩
    · rw [hr]
      exact hexits
    · rw [hsame, hr]
      exact ⟨⟨hfin.bound, hfin.logged⟩, ⟨fun i st hst => hfin.trace.reported i hst, hfin.trace.still⟩,
        hfin.last, hfin.trace.edges⟩

end

end FuzzSoft
