import FuzzSoft.Cov.Bitmap
import FuzzSoft.Platform.MachineSim
import FuzzSoft.Platform.PageTables
import FuzzSoft.Platform.Snapshot

/-!
# One fuzz case

How `fs-cli` runs a case on either machine: reset, inject the program, run the driver loop to the
deadline, and cut the console at the length it had after boot. The serial path resets with
`Snapshot::reset`, a parallel worker with `reset_cow` on a machine from `CowMachine::from_golden`.
Both paths run the same case in lockstep (`case_lockstep`), so they differ in the consoles they start
from and in nothing else.
-/

namespace FuzzSoft

open Lib

/-! ## Injection and the loop -/

section
variable {β : Type} [Bus β]

/-- Write words to their physical addresses; surplus addresses are left alone. -/
def writeWords (m : β) (pas words : List U32) : β :=
  (pas.zip words).foldl (fun m p => (Bus.store m p.1 4 p.2).2) m

/-- Word `i` of a byte image, zero-padded. -/
def scratchWord (bytes : List U8) (i : Nat) : U32 :=
  leValue ((List.range 4).map fun b => bytes.getD (4 * i + b) 0)

/-- Write a byte image word by word to its physical addresses. -/
def writeScratchBytes (m : β) (pas : List U32) (bytes : List U8) : β :=
  pas.zipIdx.foldl (fun m p => (Bus.store m p.1 4 (scratchWord bytes p.2)).2) m

end

/-- A control transfer that is not a fall-through goes into the map. -/
def recordTransfer (cov : CovBitmap MAP_SIZE) (prev cur : U32) : CovBitmap MAP_SIZE :=
  if cur ≠ prev + 4 ∧ cur ≠ prev + 2 then cov.recordEdge prev cur else cov

section
variable {ρ : Type} [Bus ρ]

/-- The end of a case: why it stopped, unless the passes ran out, and what it leaves. -/
structure CaseEnd (ρ : Type) where
  stop : Option Stop
  sys : Sys (MachineOf ρ)
  cov : CovBitmap MAP_SIZE

/-- The step loop of a case (`run_case_bus`, and `run_case` without sanitizer contexts), for at most
so many passes. -/
def runCaseBus (deadline : U64) : Nat → Sys (MachineOf ρ) → CovBitmap MAP_SIZE → CaseEnd ρ
  | 0, s, cov => ⟨none, s, cov⟩
  | n + 1, s, cov =>
    if s.hart.insnsRetired < deadline then
      let r := driverStep s
      match r.1 with
      | .continue => runCaseBus deadline n r.2 (recordTransfer cov s.hart.pc r.2.hart.pc)
      | .halt c => ⟨some (.halt c), r.2, cov⟩
      | .hypercall c => ⟨some (.hypercall c), r.2, cov⟩
    else ⟨some .budget, s, cov⟩

/-- Where a program goes, and for how long it may run: fixed once after boot. -/
structure Target where
  progPas : List U32
  scratchPas : List U32
  caseInsns : U64

/-- A lowered program: its wire words and its scratch image. -/
structure Lowered where
  wire : List U32
  scratch : List U8

/-- The machine with a program in it. -/
def inject (tg : Target) (p : Lowered) (s : Sys (MachineOf ρ)) : Sys (MachineOf ρ) :=
  { s with bus := writeScratchBytes (writeWords s.bus tg.progPas p.wire) tg.scratchPas p.scratch }

/-- Inject a program into a machine that was reset, and run it. -/
def runInjected (tg : Target) (p : Lowered) (passes : Nat) (s : Sys (MachineOf ρ)) : CaseEnd ρ :=
  let s := inject tg p s
  runCaseBus (s.hart.insnsRetired + tg.caseInsns) passes s .new

/-- The slice of the console that the crash oracle gets. -/
def console (baseUart : Nat) (out : List U8) : List U8 := out.drop (min baseUart out.length)

/-- What `inject_and_run` returns: the stop, the instructions used, and the signature of a crash with
the console that shows it. -/
structure CaseReport where
  stop : Option Stop
  used : U64
  crash : Option (U32 × List U8)

/-- Reset, inject a program and run it. -/
def injectAndRun (kernelCrashSig : List U8 → Option U32)
    (reset : Sys (MachineOf ρ) → Sys (MachineOf ρ)) (tg : Target) (baseUart : Nat) (p : Lowered)
    (passes : Nat) (s : Sys (MachineOf ρ)) : CaseReport × CaseEnd ρ :=
  let s := reset s
  let e := runInjected tg p passes s
  let out := console baseUart e.sys.bus.uart.out
  (⟨e.stop, e.sys.hart.insnsRetired - s.hart.insnsRetired,
    (kernelCrashSig out).map fun sig => (sig, out)⟩, e)

end

/-! ## The two resets -/

/-- `reset_cow`. -/
def resetCow (goldenCpu : Cpu) (goldenClint : Clint) (baseUart : Nat) (s : Sys CowMachine) :
    Sys CowMachine where
  cpu := goldenCpu
  bus := { s.bus with
    ram := s.bus.ram.reset
    clint := goldenClint
    uart := ⟨s.bus.uart.out.take baseUart⟩ }

/-- A machine after boot. Its windows are the ones `Machine::new` sets, and KMSAN, which excludes the
parallel path, is off. -/
structure Boot where
  sys : Sys Machine
  ramBase : sys.bus.ramBase = sys.bus.ram.base
  ramEnd : sys.bus.ramEnd = sys.bus.ram.base + BitVec.ofNat 32 sys.bus.ram.size
  kmsanOff : sys.hart.kmsanEnabled = false

namespace Boot

/-- A machine with a RAM image in it. -/
def load (cpu : Cpu) (hk : cpu.kmsanEnabled = false) (ramBase : U32) (ramSize : Nat)
    (mem perms : Nat → U8) : Boot where
  sys := ⟨cpu, { MachineOf.new ramBase ramSize with
    ram := { Mmu.new ramBase ramSize with mem := mem, perms := perms } }⟩
  ramBase := rfl
  ramEnd := rfl
  kmsanOff := hk

/-- The windows of a machine are the ones `Machine::new` sets. -/
def Windows (m : Machine) : Prop :=
  m.ramBase = m.ram.base ∧ m.ramEnd = m.ram.base + BitVec.ofNat 32 m.ram.size

/-- A store keeps the windows. -/
theorem Windows.store {m : Machine} (h : Windows m) (pa : U32) (n : Nat) (v : U32) :
    Windows (Bus.store m pa n v).2 := by
  show Windows (m.store pa n v).2
  unfold MachineOf.store
  split
  · exact h
  split
  · exact h
  split
  · obtain ⟨hb, hs⟩ := m.ram.store_base pa n v
    refine ⟨h.1.trans hb.symm, ?_⟩
    show m.ramEnd = (m.ram.store pa n v).2.base + BitVec.ofNat 32 (m.ram.store pa n v).2.size
    rw [hb, hs]
    exact h.2
  · exact h

/-- A pass of the driver loop leads from a boot to a boot. -/
theorem driverStep_keeps (b : Boot) :
    Windows (driverStep b.sys).2.bus ∧ (driverStep b.sys).2.hart.kmsanEnabled = false := by
  have hsim := @DriverSim.and_inv Mmu Mmu false _ _ _
    ((busSim_eq false).machine b.sys.bus.uart.out b.sys.bus.uart.out) Windows (fun h => h.store)
    nofun fun h _ => h
  have hself : SameMachine Eq b.sys.bus.uart.out b.sys.bus.uart.out b.sys.bus b.sys.bus :=
    ⟨rfl, rfl, rfl, rfl, [], (List.append_nil _).symm, (List.append_nil _).symm⟩
  obtain ⟨-, h⟩ := hsim.driverStep (s := b.sys) (t := b.sys)
    ⟨rfl, ⟨hself, b.ramBase, b.ramEnd⟩, b.kmsanOff⟩
  exact ⟨h.bus.2, h.kmsan⟩

/-- The boot one pass of the driver loop later. -/
def step (b : Boot) : Boot :=
  ⟨(driverStep b.sys).2, b.driverStep_keeps.1.1, b.driverStep_keeps.1.2, b.driverStep_keeps.2⟩

/-- The console length after boot. -/
def baseUart (b : Boot) : Nat := b.sys.bus.uart.out.length

/-- The serial reset. -/
def resetSerial (b : Boot) (s : Sys Machine) : Sys Machine := (Snapshot.capture b.sys).1.reset s

/-- The reset of a worker. -/
def resetWorker (b : Boot) (s : Sys CowMachine) : Sys CowMachine :=
  resetCow b.sys.cpu b.sys.bus.clint b.baseUart s

/-- A worker's machine before its first case. -/
def newWorker (b : Boot) : Sys CowMachine where
  cpu := b.sys.cpu
  bus := .fromGolden (Golden.fromMmu b.sys.bus.ram) b.sys.bus.ram.base b.sys.bus.ram.size

/-- The serial machine after a history of cases. -/
def serial (b : Boot) (tg : Target) (cases : List (Lowered × Nat)) : Sys Machine :=
  cases.foldl (fun s c => (runInjected tg c.1 c.2 (b.resetSerial s)).sys)
    (Snapshot.capture b.sys).2

/-- A worker's machine after a history of cases. -/
def worker (b : Boot) (tg : Target) (cases : List (Lowered × Nat)) : Sys CowMachine :=
  cases.foldl (fun s c => (runInjected tg c.1 c.2 (b.resetWorker s)).sys) b.newWorker

/-- What a program prints: the bytes its run from the captured machine adds to the console. -/
def prints (b : Boot) (tg : Target) (p : Lowered) (passes : Nat) : List U8 :=
  (runInjected tg p passes (Snapshot.capture b.sys).2).sys.bus.uart.out.drop b.baseUart

/-- How many bytes a history of cases prints. -/
def printed (b : Boot) (tg : Target) (cases : List (Lowered × Nat)) : Nat :=
  (cases.map fun c => (b.prints tg c.1 c.2).length).sum

end Boot

/-! ## Lockstep -/

section
variable {ρ ρ' : Type} [Bus ρ] [Bus ρ'] {C : MachineOf ρ → MachineOf ρ' → Prop} {k : Bool} (hC : DriverSim k C)
include hC

/-- Words written to both. -/
theorem DriverSim.writeWords {m : MachineOf ρ} {m' : MachineOf ρ'} (h : C m m')
    (pas words : List U32) : C (writeWords m pas words) (writeWords m' pas words) := by
  unfold FuzzSoft.writeWords
  induction pas.zip words generalizing m m' with
  | nil => exact h
  | cons p ps ih => exact ih (hC.store h p.1 4 p.2).2

/-- Scratch bytes written to both. -/
theorem DriverSim.writeScratchBytes {m : MachineOf ρ} {m' : MachineOf ρ'} (h : C m m')
    (pas : List U32) (bytes : List U8) :
    C (writeScratchBytes m pas bytes) (writeScratchBytes m' pas bytes) := by
  unfold FuzzSoft.writeScratchBytes
  induction pas.zipIdx generalizing m m' with
  | nil => exact h
  | cons p ps ih => exact ih (hC.store h p.1 4 _).2

/-- The loop of a case in lockstep. -/
theorem DriverSim.runCaseBus (deadline : U64) (n : Nat) :
    ∀ {s : Sys (MachineOf ρ)} {t : Sys (MachineOf ρ')} (cov : CovBitmap MAP_SIZE), Twin k C s t →
    (runCaseBus deadline n t cov).stop = (runCaseBus deadline n s cov).stop ∧
      (runCaseBus deadline n t cov).cov = (runCaseBus deadline n s cov).cov ∧
      Twin k C (runCaseBus deadline n s cov).sys (runCaseBus deadline n t cov).sys := by
  induction n with
  | zero =>
    intro s t cov h
    exact ⟨rfl, rfl, h⟩
  | succ n ih =>
    intro s t cov h
    obtain ⟨hexit, hstep⟩ := hC.driverStep h
    simp only [FuzzSoft.runCaseBus, ← h.hart, hexit, ← hstep.hart]
    split
    · cases (FuzzSoft.driverStep s).1 with
      | «continue» => exact ih _ hstep
      | halt c => exact ⟨rfl, rfl, hstep⟩
      | hypercall c => exact ⟨rfl, rfl, hstep⟩
    · exact ⟨rfl, rfl, h⟩

/-- A case in lockstep, from machines that were reset. -/
theorem DriverSim.runInjected {s : Sys (MachineOf ρ)} {t : Sys (MachineOf ρ')} (h : Twin k C s t)
    (tg : Target) (p : Lowered) (n : Nat) :
    (runInjected tg p n t).stop = (runInjected tg p n s).stop ∧
      (runInjected tg p n t).cov = (runInjected tg p n s).cov ∧
      Twin k C (runInjected tg p n s).sys (runInjected tg p n t).sys := by
  have hi : Twin k C (inject tg p s) (inject tg p t) :=
    ⟨h.cpu, hC.writeScratchBytes (hC.writeWords h.bus _ _) _ _, h.kmsan⟩
  have hh : (inject tg p t).hart = (inject tg p s).hart := hi.hart.symm
  simp only [FuzzSoft.runInjected, hh]
  exact hC.runCaseBus _ n .new hi

end

/-! ## The two paths -/

/-- What holds of a worker's machine between cases. -/
structure WorkerInv (b : Boot) (w : Sys CowMachine) : Prop where
  inv : w.bus.ram.Inv
  golden : w.bus.ram.golden = Golden.fromMmu b.sys.bus.ram
  ramBase : w.bus.ramBase = b.sys.bus.ramBase
  ramEnd : w.bus.ramEnd = b.sys.bus.ramEnd

namespace Boot

section
variable (b : Boot)

/-- The relation between a serial machine and a worker's whose console started as `start`. -/
def Rel (start : List U8) (m : Machine) (m' : CowMachine) : Prop :=
  SameMachine (OverImage b.sys.bus.ram) b.sys.bus.uart.out start m m' ∧ SnapInv b.sys m

/-- Related machines simulate each other. -/
theorem rel_sim (start : List U8) : DriverSim false (b.Rel start) :=
  ((overImage_busSim _).machine _ _).and_inv (fun h pa n v => (h.store pa n v).1.inv) nofun
    fun h _ => { h with }

/-- A new worker is in order. -/
theorem workerInv_new : WorkerInv b b.newWorker :=
  ⟨CowRam.inv_new _, rfl, b.ramBase.symm, b.ramEnd.symm⟩

/-- The captured machine is exact. -/
theorem exact_capture : Exact b.sys (Snapshot.capture b.sys).2 :=
  ⟨rfl, rfl, rfl, rfl, rfl, rfl, rfl, fun _ _ => ⟨rfl, rfl⟩⟩

end

variable {b : Boot} {s : Sys Machine} {w : Sys CowMachine}

/-- A serial machine in the captured state and a worker's after its reset are twins. -/
theorem twin_resetWorker (he : Exact b.sys s) (hs : SnapInv b.sys s.bus) (hw : WorkerInv b w) :
    Twin false (b.Rel (w.bus.uart.out.take b.baseUart)) s (b.resetWorker w) := by
  have ha : Agree b.sys.bus.ram w.bus.ram.reset := Agree.reset hw.inv hw.golden
  have hram : OverImage b.sys.bus.ram s.bus.ram w.bus.ram.reset := by
    refine ⟨⟨ha.inv, ha.base.trans he.base.symm, ha.size.trans he.size.symm, fun ho => ?_,
      fun ho => ?_⟩, hw.golden⟩
    · rw [he.size] at ho
      rw [ha.mem ho, (he.planes _ ho).1]
    · rw [he.size] at ho
      rw [ha.perms ho, (he.planes _ ho).2]
  refine ⟨he.cpu.symm, ⟨⟨hram, hw.ramBase.trans he.ramBase.symm, hw.ramEnd.trans he.ramEnd.symm,
    he.clint.symm, [], ?_, ?_⟩, hs⟩, ?_⟩
  · rw [he.uart, List.append_nil]
  · exact (List.append_nil _).symm
  · rw [Sys.hart, he.cpu]
    exact b.kmsanOff

/-- A case on both paths: the same outcome, the same bytes added to both consoles, and what holds
between cases. -/
structure Lockstep (b : Boot) (s : Sys Machine) (w : Sys CowMachine) (e : CaseEnd Mmu)
    (e' : CaseEnd CowRam) : Prop where
  stop : e'.stop = e.stop
  cov : e'.cov = e.cov
  hart : e'.sys.hart = e.sys.hart
  uart : ∃ x, e.sys.bus.uart.out = b.sys.bus.uart.out ++ x ∧
    e'.sys.bus.uart.out = w.bus.uart.out.take b.baseUart ++ x
  serial : SnapInv b.sys e.sys.bus
  worker : WorkerInv b e'.sys

/-- A case runs in lockstep. -/
theorem case_lockstep (he : Exact b.sys s) (hs : SnapInv b.sys s.bus) (hw : WorkerInv b w)
    (tg : Target) (p : Lowered) (n : Nat) :
    Lockstep b s w (runInjected tg p n s) (runInjected tg p n (b.resetWorker w)) := by
  obtain ⟨hstop, hcov, h⟩ := (b.rel_sim _).runInjected (twin_resetWorker he hs hw) tg p n
  obtain ⟨hm, hinv⟩ := h.bus
  exact ⟨hstop, hcov, h.hart.symm, hm.uart, hinv, hm.ram.agree.inv, hm.ram.golden,
    hm.ramBase.trans hinv.ramBase, hm.ramEnd.trans hinv.ramEnd⟩

/-- A worker's case adds to its console what the program prints. -/
theorem worker_out (hw : WorkerInv b w) (tg : Target) (p : Lowered) (n : Nat) :
    (runInjected tg p n (b.resetWorker w)).sys.bus.uart.out =
      w.bus.uart.out.take b.baseUart ++ b.prints tg p n := by
  obtain ⟨x, hx, hx'⟩ := (case_lockstep b.exact_capture (snapInv_capture b.sys) hw tg p n).uart
  rw [hx', prints, hx, baseUart, List.drop_left]

/-- A serial case adds to the console after boot what the program prints. -/
theorem serial_out (hs : SnapInv b.sys s.bus) (tg : Target) (p : Lowered) (n : Nat) :
    (runInjected tg p n (b.resetSerial s)).sys.bus.uart.out =
      b.sys.bus.uart.out ++ b.prints tg p n := by
  obtain ⟨he, hs'⟩ := hs.reset
  obtain ⟨x, hx, hx'⟩ := (case_lockstep he hs' b.workerInv_new tg p n).uart
  rw [worker_out b.workerInv_new, List.append_cancel_left_eq] at hx'
  rw [hx']
  exact hx

/-! ## Histories -/

/-- The serial path keeps the snapshot's invariant. -/
theorem serial_inv (b : Boot) (tg : Target) (cases : List (Lowered × Nat)) :
    SnapInv b.sys (b.serial tg cases).bus := by
  suffices h : ∀ {s : Sys Machine}, SnapInv b.sys s.bus → SnapInv b.sys (cases.foldl
      (fun s c => (runInjected tg c.1 c.2 (b.resetSerial s)).sys) s).bus from
    h (snapInv_capture b.sys)
  induction cases with
  | nil => exact id
  | cons c cs ih =>
    intro s hs
    obtain ⟨he, hs'⟩ := hs.reset
    exact ih (case_lockstep he hs' b.workerInv_new tg c.1 c.2).serial

/-- Between cases a worker's machine is over the image of the boot, and its console reaches the
length after boot exactly when the cases so far have printed that much. -/
theorem worker_inv (b : Boot) (tg : Target) (cases : List (Lowered × Nat)) :
    WorkerInv b (b.worker tg cases) ∧
      min b.baseUart (b.worker tg cases).bus.uart.out.length =
        min b.baseUart (b.printed tg cases) := by
  suffices h : ∀ {w : Sys CowMachine}, WorkerInv b w →
      let w' := cases.foldl (fun s c => (runInjected tg c.1 c.2 (b.resetWorker s)).sys) w
      WorkerInv b w' ∧ min b.baseUart w'.bus.uart.out.length =
        min b.baseUart (w.bus.uart.out.length + b.printed tg cases) by
    have hnew : b.newWorker.bus.uart.out.length = 0 := rfl
    have := h b.workerInv_new
    rwa [hnew, Nat.zero_add] at this
  induction cases with
  | nil => exact fun hw => ⟨hw, by simp [printed]⟩
  | cons c cs ih =>
    intro w hw
    have hcase := case_lockstep b.exact_capture (snapInv_capture b.sys) hw tg c.1 c.2
    obtain ⟨hw', hlen⟩ := ih hcase.worker
    refine ⟨hw', hlen.trans ?_⟩
    rw [worker_out hw, List.length_append, List.length_take]
    simp only [printed, List.map_cons, List.sum_cons]
    omega

/-! ## The console -/

end Boot

/-- The bytes a console received between two moments. -/
def written (before after : List U8) : List U8 := after.drop before.length

/-- The slice cut at `base` of a console that started with at most `base` bytes is what it received
since, exactly when it started with `base` bytes or received nothing. -/
theorem console_append {base : Nat} {start x : List U8} (hs : start.length ≤ base) :
    console base (start ++ x) = x ↔ start.length = base ∨ x = [] := by
  rw [console, List.drop_append, List.drop_eq_nil_of_le (by rw [List.length_append]; omega),
    List.nil_append, List.length_append]
  constructor
  · intro h
    have hlen := congrArg List.length h
    rw [List.length_drop] at hlen
    rcases Nat.eq_zero_or_pos x.length with hx | hx
    · exact .inr (List.length_eq_zero_iff.1 hx)
    · exact .inl (by omega)
  · rintro (h | rfl)
    · rw [show min base (start.length + x.length) - start.length = 0 by omega, List.drop_zero]
    · exact List.drop_nil

/-- Serial path and worker see the same console in a case: on both, the slice that the crash oracle
gets is what the guest wrote during the case, and whatever the oracle makes of it, the two reports are
the same. -/
structure SameConsole (b : Boot) (tg : Target) (s : Sys Machine) (w : Sys CowMachine) (p : Lowered)
    (passes : Nat) : Prop where
  worker : console b.baseUart (runInjected tg p passes (b.resetWorker w)).sys.bus.uart.out =
    written (b.resetWorker w).bus.uart.out
      (runInjected tg p passes (b.resetWorker w)).sys.bus.uart.out
  serial : console b.baseUart (runInjected tg p passes (b.resetSerial s)).sys.bus.uart.out =
    written (b.resetSerial s).bus.uart.out
      (runInjected tg p passes (b.resetSerial s)).sys.bus.uart.out
  report : ∀ kernelCrashSig,
    (injectAndRun kernelCrashSig b.resetWorker tg b.baseUart p passes w).1 =
      (injectAndRun kernelCrashSig b.resetSerial tg b.baseUart p passes s).1

/-- A case after any history of cases on each path: the worker sees the console of the serial path
exactly when its earlier cases have printed as much as the boot did, or this one prints nothing. -/
theorem worker_console_exact (b : Boot) (tg : Target) (earlier earlierSerial : List (Lowered × Nat))
    (p : Lowered) (passes : Nat) :
    SameConsole b tg (b.serial tg earlierSerial) (b.worker tg earlier) p passes ↔
      b.baseUart ≤ b.printed tg earlier ∨ b.prints tg p passes = [] := by
  obtain ⟨hw, hlen⟩ := b.worker_inv tg earlier
  have hs := b.serial_inv tg earlierSerial
  have hwout := Boot.worker_out hw tg p passes
  have hsout := Boot.serial_out hs tg p passes
  have hstart : ((b.worker tg earlier).bus.uart.out.take b.baseUart).length =
      min b.baseUart (b.printed tg earlier) := by rw [List.length_take, hlen]
  have hcut := @console_append b.baseUart ((b.worker tg earlier).bus.uart.out.take b.baseUart)
    (b.prints tg p passes) (by omega)
  have hserial : console b.baseUart (b.sys.bus.uart.out ++ b.prints tg p passes) =
      b.prints tg p passes := (console_append (Nat.le_refl b.baseUart)).2 (.inl rfl)
  have hwritten : written (b.resetWorker (b.worker tg earlier)).bus.uart.out
      ((b.worker tg earlier).bus.uart.out.take b.baseUart ++ b.prints tg p passes) =
        b.prints tg p passes := List.drop_left
  constructor
  · intro h
    have hc := h.worker
    rw [hwout, hwritten, hcut, hstart] at hc
    exact hc.imp_left fun _ => by omega
  · intro hcond
    have hc : console b.baseUart ((b.worker tg earlier).bus.uart.out.take b.baseUart ++
        b.prints tg p passes) = b.prints tg p passes := by
      rw [hcut, hstart]
      exact hcond.imp_left fun _ => by omega
    obtain ⟨he, hs'⟩ := hs.reset
    have hcase := @Boot.case_lockstep b (b.resetSerial _) _ he hs' hw tg p passes
    refine ⟨by rw [hwout, hwritten, hc], ?_, fun sig => ?_⟩
    · rw [hsout, hserial]
      have hreset : (b.resetSerial (b.serial tg earlierSerial)).bus.uart.out =
          b.sys.bus.uart.out := congrArg Uart.out he.uart
      rw [hreset, written, List.drop_left]
    · have hhart : (b.resetWorker (b.worker tg earlier)).hart =
          (b.resetSerial (b.serial tg earlierSerial)).hart := rfl
      simp only [injectAndRun, hwout, hsout, hc, hserial, hcase.stop, hcase.hart, hhart]

/-- A guest that writes a byte to the UART with each of its instructions, after the first one: its
code is `sb x1, 0(x2)` over and over, with `x2` at the UART. -/
def chattyBoot : Boot :=
  (Boot.load { Cpu.new 0x80000000 with regs := fun i => if i = 2 then UART_BASE else 0x41 } rfl
    0x80000000 4096
    (setSpan (fun _ => 0) 0 [0x23, 0x00, 0x11, 0x00, 0x23, 0x00, 0x11, 0x00])
    fun _ => PERM_READ ||| PERM_WRITE ||| PERM_EXEC).step

/-- The boot has printed one byte, so the worker cuts the one byte of its first case off. -/
theorem worker_console_loses_first_case :
    ¬ SameConsole chattyBoot ⟨[], [], 1⟩ (chattyBoot.serial ⟨[], [], 1⟩ [])
      (chattyBoot.worker ⟨[], [], 1⟩ []) ⟨[], []⟩ 2 := by
  intro h
  have hw := h.worker
  revert hw
  decide

end FuzzSoft
