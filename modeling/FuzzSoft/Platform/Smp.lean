import FuzzSoft.Riscv.Frame
import FuzzSoft.Platform.Machine

/-!
# Several harts on one machine

`run_smp`: a round-robin scheduler that gives each hart a turn of so many instructions over one
machine, records the stores of the turn, and at its end clears the reservations of the other harts
that the stores hit. Next to the source's state the model keeps a log of what the harts did with
reservations and of what they stored (`SmpEvent`); nothing reads it, and the properties of runs are
stated over it. The newest event is in front.
-/

namespace FuzzSoft

open Lib

/-- A machine that records the span of every store that succeeds. Host pointers are declined. -/
structure RecordingBus where
  machine : Machine
  writes : List (U32 × Nat)

instance : Bus RecordingBus where
  load b := Bus.load b.machine
  store b pa n v :=
    let r := Bus.store b.machine pa n v
    (r.1, ⟨r.2, if r.1.isOk then b.writes ++ [(pa, n)] else b.writes⟩)
  ifetch16 b := Bus.ifetch16 b.machine
  readRawState b := Bus.readRawState b.machine
  writeShadow b pa n mask := { b with machine := Bus.writeShadow b.machine pa n mask }
  storeMayAssertInterrupt b := Bus.storeMayAssertInterrupt b.machine

/-- Push the CLINT state of hart `i` into the hart (`apply_clint_hart`). -/
def Hart.applyClintHart (h : Hart) (c : Clint) (i : Nat) : Hart :=
  let msip := if i = 0 then c.msip else (c.msipExtra[i - 1]?).getD 0
  let mtimecmp := if i = 0 then c.mtimecmp else (c.mtimecmpExtra[i - 1]?).getD (BitVec.allOnes 64)
  { h with csr := { h.csr with
    mtimecmp := mtimecmp
    mip := setFlag h.csr.mip MIP_MSIP (msip &&& 1 ≠ 0) } }

/-! ## Events -/

section
variable {β : Type} [Bus β]

/-- The physical addresses of the `n` bytes from byte `i` on, each translated by itself. -/
def byteAddrs (va : U32) : (i n : Nat) → Exec β (List U32)
  | _, 0 => pure []
  | i, n + 1 => do
    let pa ← xlate (va + BitVec.ofNat 32 i) .read
    let rest ← byteAddrs va (i + 1) n
    pure (pa :: rest)

/-- The physical addresses of the bytes that a load reads. -/
def spanAddrs (va : U32) (size : Nat) : Exec β (List U32) :=
  if bytewise va size then byteAddrs va 0 size
  else do
    let pa ← xlate va .read
    pure ((List.range size).map fun i => pa + BitVec.ofNat 32 i)

end

/-- What one step of a hart did. -/
structure SmpEvent (n : Nat) where
  hart : Fin n
  /-- The address of a retired `lr.w` and the physical addresses of the bytes it reserved. -/
  reserved : Option (U32 × List U32)
  /-- A retired `sc.w` stored. -/
  condStored : Bool
  /-- A retired `sc.w` or AMO gave the hart's own reservation up. -/
  dropped : Bool
  /-- The physical spans of the stores that succeeded. -/
  stores : List (U32 × Nat)

/-- The event of a step of hart `h` from `s` to `s'`. -/
def smpEvent {n : Nat} (h : Fin n) (s s' : Sys RecordingBus) : SmpEvent n where
  hart := h
  reserved := match retired s with
    | some (.lrW _ rs1 _ _, t) =>
      some (t.hart.rdReg rs1, ((spanAddrs (t.hart.rdReg rs1) 4 t).1.toOption).getD [])
    | _ => none
  condStored := match retired s with
    | some (.scW _ rs1 _ _ _, t) => t.hart.reservation = some (t.hart.rdReg rs1)
    | _ => false
  dropped := match retired s with
    | some (.scW .., _) => true
    | some (.amoW .., _) => true
    | _ => false
  stores := s'.bus.writes.drop s.bus.writes.length

/-! ## The scheduler -/

/-- A hart's turn in progress. -/
structure Turn (n : Nat) where
  sys : Sys RecordingBus
  stop : Option Stop
  hypercalled : Bool
  tick : U64
  log : List (SmpEvent n)

/-- All harts with their machine. -/
structure Smp (n : Nat) where
  cpus : Fin n → Cpu
  machine : Machine
  stops : Fin n → Option Stop
  tick : U64
  log : List (SmpEvent n)

/-- The parameters of a call of `run_smp`. -/
structure SmpCall where
  quantum : U64
  deadlineTicks : U64
  stopOnHypercall : Bool

section
variable {n : Nat}

/-- The system a pass of a turn steps: the clock shows the global tick, and the CLINT state is
synced. -/
def Turn.ready (h : Fin n) (t : Turn n) : Sys RecordingBus :=
  let m := t.sys.bus.machine
  let clint := { m.clint with mtime := t.tick }
  { cpu := t.sys.cpu.setHart (t.sys.hart.applyClintHart clint h)
    bus := { t.sys.bus with machine := { m with clint := clint } } }

/-- One pass of a turn. -/
def Turn.step (h : Fin n) (t : Turn n) : Turn n :=
  let s := t.ready h
  let r := stepSystem s
  { sys := r.2
    stop := match r.1 with
      | .continue => t.stop
      | .halt c => some (.halt c)
      | .hypercall c => some (.hypercall c)
    hypercalled := match r.1 with
      | .hypercall _ => true
      | _ => t.hypercalled
    tick := t.tick + 1
    log := smpEvent h s r.2 :: t.log }

/-- The passes of a turn, at most so many. -/
def turnLoop (h : Fin n) (turnDeadline deadlineTicks : U64) : Nat → Turn n → Turn n
  | 0, t => t
  | k + 1, t =>
    let t := t.step h
    if t.stop.isSome ∨ turnDeadline ≤ t.sys.hart.insnsRetired ∨ deadlineTicks ≤ t.tick then t
    else turnLoop h turnDeadline deadlineTicks k t

/-- Clear what the recorded stores hit of the other harts' reservations. -/
def invalidateOthers (h : Fin n) (writes : List (U32 × Nat)) (cpus : Fin n → Cpu) : Fin n → Cpu :=
  writes.foldl (fun cpus w i =>
    if i = h then cpus i else (cpus i).setHart ((cpus i).toHart.invalidateReservation w.1 w.2)) cpus

/-- The turn of hart `h`; says whether it made a hypercall. Every pass moves the tick, so the
deadline bounds the passes. -/
def smpTurn (c : SmpCall) (h : Fin n) (s : Smp n) : Bool × Smp n :=
  let t := turnLoop h ((s.cpus h).insnsRetired + c.quantum) c.deadlineTicks
    (c.deadlineTicks.toNat + 1) ⟨⟨s.cpus h, ⟨s.machine, []⟩⟩, none, false, s.tick, s.log⟩
  (t.hypercalled,
    { cpus := invalidateOthers h t.sys.bus.writes (Function.update s.cpus h t.sys.cpu)
      machine := t.sys.bus.machine
      stops := Function.update s.stops h t.stop
      tick := t.tick
      log := t.log })

/-- The turns of a round; says whether the scheduler is done. -/
def smpRound (c : SmpCall) : List (Fin n) → Smp n → Bool × Smp n
  | [], s => (false, s)
  | h :: hs, s =>
    if (s.stops h).isSome then smpRound c hs s
    else
      let r := smpTurn c h s
      if (c.stopOnHypercall ∧ r.1) ∨ (∀ i, (r.2.stops i).isSome) ∨ c.deadlineTicks ≤ r.2.tick then
        (true, r.2)
      else smpRound c hs r.2

/-- The rounds, at most so many. -/
def smpRounds (c : SmpCall) : Nat → Smp n → Smp n
  | 0, s => s
  | k + 1, s =>
    let r := smpRound c (List.finRange n) s
    if r.1 then r.2 else smpRounds c k r.2

/-- `run_smp`. Every round makes a pass at least, so the deadline bounds the rounds. -/
def runSmp (c : SmpCall) (s : Smp n) : (Fin n → Stop) × Smp n :=
  if n = 0 then (fun _ => .budget, s)
  else
    let s := smpRounds c (c.deadlineTicks.toNat + 1) { s with stops := fun _ => none, tick := 0 }
    (fun i => (s.stops i).getD .budget, s)

/-- A sequence of calls on the same harts and machine. -/
def runSmps (calls : List SmpCall) (s : Smp n) : Smp n := calls.foldl (fun s c => (runSmp c s).2) s

/-- Harts on a machine, before any call. -/
def Smp.start (cpus : Fin n → Cpu) (machine : Machine) : Smp n :=
  ⟨cpus, machine, fun _ => none, 0, []⟩

end

end FuzzSoft
