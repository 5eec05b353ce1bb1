import FuzzSoft.Lib.Loop
import FuzzSoft.Mmu.CowKeeps
import FuzzSoft.Vec.System

/-!
# Batches and their resets

What the fuzzer does with a `VecSystem`: it seeds registers, injects programs, runs batches and
resets. `reset_batch` restores a lane field by field, and in all but one field the past of the lane
leaves nothing (`lane_resetBatch`). The console is cut to `base_uart` bytes, and nothing gives a lane
the bytes it lacks: a lane that has printed less than that keeps what it has printed.
-/

namespace FuzzSoft

open Lib

/-! ## Operations -/

/-- What the fuzzer does. -/
inductive BatchOp where
  | setReg (lane : Lane) (i : Reg) (v : U32)
  | injectLane (lane : Lane) (progPas words : List U32)
  | injectScratch (lane : Lane) (scratchPas : List U32) (bytes : List U8)
  | step
  | runBatch (budget : U64)
  | resetBatch (cpu : Cpu) (clint : Clint) (baseUart : Nat)

def BatchOp.isReset : BatchOp → Bool
  | .resetBatch .. => true
  | _ => false

namespace VecSystem

section
variable (v : VecSystem)

/-- Seed a register of a lane; writes to x0 are dropped. -/
def setReg (l : Lane) (i : Reg) (x : U32) : VecSystem :=
  let cpu := { v.lanes l with regs := Function.update (v.lanes l).regs i x }
  if i ≠ 0 then { v with lanes := Function.update v.lanes l cpu } else v

/-- Write a program into the memory of a lane. -/
def injectLane (l : Lane) (progPas words : List U32) : VecSystem :=
  { v with bus := Function.update v.bus l (writeWords (v.bus l) progPas words) }

/-- Write a scratch image into the memory of a lane. -/
def injectScratch (l : Lane) (scratchPas : List U32) (bytes : List U8) : VecSystem :=
  { v with bus := Function.update v.bus l (writeScratchBytes (v.bus l) scratchPas bytes) }

/-- A batch returns with `w`. The code it is given is only asserted in debug builds. -/
def RunBatch (budget : U64) (w : VecSystem) : Prop :=
  ∃ n, Exits (fun u => u.batchPass (fun l => (v.lanes l).insnsRetired) budget) n v w

/-- Every lane back to the snapshot. -/
def resetBatch (cpu : Cpu) (clint : Clint) (baseUart : Nat) : VecSystem :=
  { v with
    lanes := fun _ => cpu
    bus := fun l => { v.bus l with
      ram := (v.bus l).ram.reset
      clint := clint
      uart := ⟨(v.bus l).uart.out.take baseUart⟩ }
    active := fun _ => true
    exit := fun _ => none
    cov := fun _ => .new }

/-- What an operation leaves; a batch may not return. -/
def Performs : BatchOp → VecSystem → Prop
  | .setReg l i x, w => w = v.setReg l i x
  | .injectLane l pas words, w => w = v.injectLane l pas words
  | .injectScratch l pas bytes, w => w = v.injectScratch l pas bytes
  | .step, w => w = v.step
  | .runBatch budget, w => v.RunBatch budget w
  | .resetBatch cpu clint baseUart, w => w = v.resetBatch cpu clint baseUart

/-- Operations that satisfy `ok` lead from one state to another. -/
inductive Past (ok : BatchOp → Prop) (v : VecSystem) : VecSystem → Prop
  | start : Past ok v v
  | perform {u w : VecSystem} (op : BatchOp) (hop : ok op) (h : Past ok v u)
    (hw : u.Performs op w) : Past ok v w

/-- Any operations. -/
def History : VecSystem → Prop := Past (fun _ => True) v

/-- What comes between two resets. -/
def Batch : VecSystem → Prop := Past (fun op => op.isReset = false) v

end

/-- What there is to see of a lane. -/
structure LaneState where
  hart : Cpu
  machine : CowMachine
  active : Bool
  exit : Option LaneExit
  cov : CovBitmap MAP_SIZE

def laneState (v : VecSystem) (l : Lane) : LaneState :=
  ⟨v.lanes l, v.bus l, v.active l, v.exit l, v.cov l⟩

/-- `uart`: the console of a lane. -/
def uart (v : VecSystem) (l : Lane) : List U8 := (v.bus l).uart.out

/-! ## What a lane's machine keeps -/

/-- Whatever the guest and the driver loop do to a machine keeps `I`. -/
structure GuestKept (I : CowMachine → Prop) : Prop where
  store : ∀ {m}, I m → ∀ pa n v, I (Bus.store m pa n v).2
  shadow : ∀ {m}, I m → ∀ pa n mask, I (Bus.writeShadow m pa n mask)
  tick : ∀ {m}, I m → ∀ t, I { m with clint := { m.clint with mtime := t } }

section
variable {I : CowMachine → Prop} (hI : GuestKept I)
include hI

/-- Written words keep it. -/
theorem GuestKept.writeWords {m : CowMachine} (h : I m) (pas words : List U32) :
    I (writeWords m pas words) := by
  unfold FuzzSoft.writeWords
  induction pas.zip words generalizing m with
  | nil => exact h
  | cons p ps ih => exact ih (hI.store h p.1 4 p.2)

/-- So do scratch bytes. -/
theorem GuestKept.writeScratchBytes {m : CowMachine} (h : I m) (pas : List U32) (bytes : List U8) :
    I (writeScratchBytes m pas bytes) := by
  unfold FuzzSoft.writeScratchBytes
  induction pas.zipIdx generalizing m with
  | nil => exact h
  | cons p ps ih => exact ih (hI.store h p.1 4 _)

end

section
variable {v : VecSystem} {l : Lane}

/-- A lane of new harts has its own bus. -/
theorem bus_withLanes {f : Lane → Sys CowMachine} {I : CowMachine → Prop} (hf : I (f l).bus)
    (h : I (v.bus l)) : I ((v.withLanes f).bus l) := by
  show I (if v.active l then (f l).bus else v.bus l)
  split
  · exact hf
  · exact h

/-- Changing the harts leaves the machines alone. -/
theorem bus_withLanes_eq {f : Lane → Sys CowMachine} (hf : (f l).bus = v.bus l) :
    (v.withLanes f).bus l = v.bus l :=
  bus_withLanes (I := (· = v.bus l)) hf rfl

/-- A packed instruction leaves the buses. -/
theorem bus_retireAll (rd : Reg) (value : Lane → U32) (ilen : U32) :
    (v.retireAll rd value ilen).bus l = v.bus l := bus_withLanes_eq rfl

/-- So do the timers. -/
theorem bus_refreshTimers : v.refreshTimers.bus l = v.bus l := by
  refine bus_withLanes_eq ?_
  split <;> rfl

/-- So does a shared load. -/
theorem bus_trySharedLoad (first : Lane) (op : LoadOp) (rd rs1 : Reg) (imm ilen : U32) :
    (v.trySharedLoad first op rd rs1 imm ilen).2.bus l = v.bus l := by
  unfold trySharedLoad
  dsimp only
  split
  · rfl
  split
  · rfl
  split
  · rfl
  split
  · rfl
  split
  · rfl
  · exact bus_retireAll _ _ _

/-- The fast path changes harts only. -/
theorem bus_tryConvergedFastPath : v.tryConvergedFastPath.2.bus l = v.bus l := by
  unfold tryConvergedFastPath
  dsimp only
  split
  · rfl
  split
  · rfl
  split
  · exact bus_refreshTimers
  split
  · exact bus_refreshTimers
  split
  · exact (bus_retireAll _ _ _).trans bus_refreshTimers
  · exact (bus_retireAll _ _ _).trans bus_refreshTimers
  · exact (bus_trySharedLoad _ _ _ _ _ _).trans bus_refreshTimers
  · exact bus_refreshTimers

variable {I : CowMachine → Prop} (hI : GuestKept I)
include hI

/-- The timers keep it. -/
theorem GuestKept.syncTimers (h : I (v.bus l)) : I (v.syncTimers.bus l) :=
  bus_withLanes (hI.tick h _) h

/-- So does a lane by itself. -/
theorem GuestKept.scalarStep (h : I (v.bus l)) : I (v.scalarStep.bus l) := by
  show I ((v.withLanes fun l => (stepSystem (v.lane l)).2).bus l)
  exact bus_withLanes (stepSystem_inv hI.store hI.shadow h) h

/-- A step of the lanes keeps, on each of them, what the guest and the driver loop keep. -/
theorem GuestKept.step (h : I (v.bus l)) : I (v.step.bus l) := by
  have hsync := hI.syncTimers h
  have hfast : I (v.syncTimers.tryConvergedFastPath.2.bus l) := by
    rw [bus_tryConvergedFastPath]
    exact hsync
  unfold VecSystem.step
  dsimp only
  rcases hf : v.syncTimers.tryConvergedFastPath with ⟨b, v'⟩
  rw [hf] at hfast
  cases b with
  | true => exact hfast
  | false => exact hI.scalarStep hfast

/-- A batch keeps what its steps keep. -/
theorem GuestKept.runBatch {budget : U64} {w : VecSystem} (hb : v.RunBatch budget w)
    (h : I (v.bus l)) : I (w.bus l) := by
  obtain ⟨n, hx⟩ := hb
  refine hx.invariant (I := fun u => I (u.bus l)) (Q := fun u => I (u.bus l)) ?_ ?_ h
  · intro u u' hu hp
    unfold batchPass at hp
    dsimp only at hp
    split at hp
    · split at hp
      · cases hp
        exact hI.step hu
      · cases hp
    · cases hp
  · intro u r hu hp
    unfold batchPass at hp
    dsimp only at hp
    split at hp
    · split at hp
      · cases hp
      · cases hp
        exact hu
    · cases hp
      exact hu

end

/-- What the guest, the driver loop and the admitted resets keep on a lane holds after any past. -/
theorem GuestKept.past {ok : BatchOp → Prop} {v w : VecSystem} {l : Lane} {I : CowMachine → Prop}
    (hI : GuestKept I)
    (hreset : ∀ {u : VecSystem} cpu clint baseUart, ok (.resetBatch cpu clint baseUart) →
      I (u.bus l) → I ((u.resetBatch cpu clint baseUart).bus l))
    (h : Past ok v w) (hv : I (v.bus l)) : I (w.bus l) := by
  induction h with
  | start => exact hv
  | @perform u w op hop _ hw ih =>
    cases op with
    | setReg k i x =>
      cases hw
      unfold setReg
      split <;> exact ih
    | injectLane k pas words =>
      cases hw
      show I (Function.update u.bus k _ l)
      by_cases hk : l = k
      · subst hk
        rw [Function.update_self]
        exact hI.writeWords ih pas words
      · rw [Function.update_of_ne hk]
        exact ih
    | injectScratch k pas bytes =>
      cases hw
      show I (Function.update u.bus k _ l)
      by_cases hk : l = k
      · subst hk
        rw [Function.update_self]
        exact hI.writeScratchBytes ih pas bytes
      · rw [Function.update_of_ne hk]
        exact ih
    | step =>
      cases hw
      exact hI.step ih
    | runBatch budget => exact hI.runBatch hw ih
    | resetBatch cpu clint baseUart =>
      cases hw
      exact hreset cpu clint baseUart hop ih

/-! ## Resets -/

/-- A lane's machine over an image, with the windows it was built with. -/
structure LaneOver (golden : Golden) (ramBase ramEnd : U32) (m : CowMachine) : Prop where
  ram : m.ram.Over golden
  ramBase : m.ramBase = ramBase
  ramEnd : m.ramEnd = ramEnd

/-- The image under a lane stays. -/
theorem guestKept_over (golden : Golden) (ramBase ramEnd : U32) :
    GuestKept (LaneOver golden ramBase ramEnd) where
  store {m} h pa n x := by
    show LaneOver golden ramBase ramEnd (m.store pa n x).2
    unfold MachineOf.store
    split
    · exact { h with }
    split
    · exact { h with }
    split
    · exact { h with ram := CowRam.PageKept.store (CowRam.pageKept_over golden) h.ram pa n x }
    · exact h
  shadow {m} h pa n mask := by
    show LaneOver golden ramBase ramEnd (m.writeShadow pa n mask)
    unfold MachineOf.writeShadow
    split
    · exact { h with ram := CowRam.PageKept.writeShadow (CowRam.pageKept_over golden) h.ram pa n mask }
    · exact h
  tick h _ := { h with }

/-- A console only grows. -/
theorem guestKept_uart (start : List U8) : GuestKept fun m => start <+: m.uart.out where
  store {m} h pa n x := by
    show start <+: (m.store pa n x).2.uart.out
    unfold MachineOf.store
    split
    · exact h
    split
    · exact h.trans (uart_store_prefixed _ _ _)
    split
    · exact h
    · exact h
  shadow {m} h pa n mask := by
    show start <+: (m.writeShadow pa n mask).uart.out
    unfold MachineOf.writeShadow
    split <;> exact h
  tick h _ := h

section
variable {golden : Golden} {cpu₀ : Cpu} {ramBase : U32} {ramSize : Nat} {v : VecSystem}

/-- After any history every lane is over the image the lanes were built from. -/
theorem History.over (h : History (fromGoldenCpu golden cpu₀ ramBase ramSize) v) (l : Lane) :
    LaneOver golden ramBase (ramBase + BitVec.ofNat 32 ramSize) (v.bus l) := by
  refine (guestKept_over golden _ _).past (fun {u} cpu clint baseUart _ hu => ?_) h
    ⟨⟨CowRam.inv_new _, rfl⟩, rfl, rfl⟩
  refine ⟨?_, hu.ramBase, hu.ramEnd⟩
  show ((u.bus l).ram.reset).Over golden
  rw [hu.ram.1.reset_eq, hu.ram.2]
  exact ⟨CowRam.inv_new _, rfl⟩

/-- Between resets a console only grows. -/
theorem Batch.grows {u w : VecSystem} (h : Batch u w) (l : Lane) : u.uart l <+: w.uart l :=
  (guestKept_uart (u.uart l)).past (fun _ _ _ hop => nomatch hop) h (List.prefix_refl _)

/-- The lane after a reset: all of it comes from the image and the arguments, but for the console. -/
theorem laneState_resetBatch (h : History (fromGoldenCpu golden cpu₀ ramBase ramSize) v) (cpu : Cpu)
    (clint : Clint) (baseUart : Nat) (l : Lane) :
    (v.resetBatch cpu clint baseUart).laneState l =
      { hart := cpu
        machine := { MachineOf.fromGolden golden ramBase ramSize with
          clint := clint
          uart := ⟨(v.uart l).take baseUart⟩ }
        active := true
        exit := none
        cov := .new } := by
  have ho := h.over l
  have hram : (v.bus l).ram.reset = CowRam.new golden := by rw [ho.ram.1.reset_eq, ho.ram.2]
  have hm : (v.resetBatch cpu clint baseUart).bus l =
      { MachineOf.fromGolden golden ramBase ramSize with
        clint := clint
        uart := ⟨(v.uart l).take baseUart⟩ } := by
    show MachineOf.mk (v.bus l).ram.reset (v.bus l).ramBase (v.bus l).ramEnd clint
      ⟨(v.bus l).uart.out.take baseUart⟩ = _
    rw [hram, ho.ramBase, ho.ramEnd]
    rfl
  show LaneState.mk cpu ((v.resetBatch cpu clint baseUart).bus l) true none .new = _
  rw [hm]

end

/-! ## The condition -/

/-- Two pasts that end in the same reset, and a batch after the first of them: no lane shows which
past it had, and beyond `baseUart` its console is what it has received since the reset. -/
structure Erased (v₁ v₂ w : VecSystem) (baseUart : Nat) : Prop where
  lanes : ∀ l, v₁.laneState l = v₂.laneState l
  consoles : ∀ l, (w.uart l).drop baseUart = written (v₁.uart l) (w.uart l)

/-- A console that was cut to `base` bytes and has grown since shows beyond `base` what it received,
exactly when it had `base` bytes or has received nothing. -/
theorem drop_eq_written {base : Nat} {out out' : List U8} (h : out.take base <+: out') :
    out'.drop base = written (out.take base) out' ↔ base ≤ out.length ∨ out' = out.take base := by
  obtain ⟨x, rfl⟩ := h
  have hlen : (out.take base).length = min base out.length := List.length_take
  rw [written, List.drop_left, List.drop_append, hlen, List.drop_eq_nil_of_le (by omega),
    List.nil_append]
  constructor
  · intro hx
    rcases Nat.lt_or_ge out.length base with hlt | hge
    · have hl := congrArg List.length hx
      rw [List.length_drop] at hl
      right
      rw [List.length_eq_zero_iff.1 (show x.length = 0 by omega), List.append_nil]
    · exact .inl hge
  · rintro (hge | hx)
    · rw [show base - min base out.length = 0 by omega, List.drop_zero]
    · rw [List.append_right_eq_self.1 hx, List.drop_nil]

/-- After any two histories the same reset erases the past, exactly when on every lane the first
`baseUart` bytes of the two consoles were the same and the console of the lane that goes on held as
many, or the lane prints nothing in the batch that follows. -/
theorem resetBatch_erases_iff {golden : Golden} {cpu₀ : Cpu} {ramBase : U32} {ramSize : Nat}
    {v₁ v₂ w : VecSystem} (cpu : Cpu) (clint : Clint) (baseUart : Nat)
    (h₁ : History (fromGoldenCpu golden cpu₀ ramBase ramSize) v₁)
    (h₂ : History (fromGoldenCpu golden cpu₀ ramBase ramSize) v₂)
    (hw : Batch (v₁.resetBatch cpu clint baseUart) w) :
    Erased (v₁.resetBatch cpu clint baseUart) (v₂.resetBatch cpu clint baseUart) w baseUart ↔
      ∀ l, (v₁.uart l).take baseUart = (v₂.uart l).take baseUart ∧
        (baseUart ≤ (v₁.uart l).length ∨
          w.uart l = (v₁.resetBatch cpu clint baseUart).uart l) := by
  have hconsole := fun l => @drop_eq_written baseUart (v₁.uart l) (w.uart l) (hw.grows l)
  constructor
  · intro h l
    have hl := h.lanes l
    rw [laneState_resetBatch h₁, laneState_resetBatch h₂] at hl
    exact ⟨congrArg (fun s : LaneState => s.machine.uart.out) hl, (hconsole l).1 (h.consoles l)⟩
  · intro h
    refine ⟨fun l => ?_, fun l => (hconsole l).2 (h l).2⟩
    rw [laneState_resetBatch h₁, laneState_resetBatch h₂, (h l).1]

/-- Cutting the consoles off altogether erases every past. -/
theorem resetBatch_erases_zero {golden : Golden} {cpu₀ : Cpu} {ramBase : U32} {ramSize : Nat}
    {v₁ v₂ : VecSystem} (cpu : Cpu) (clint : Clint)
    (h₁ : History (fromGoldenCpu golden cpu₀ ramBase ramSize) v₁)
    (h₂ : History (fromGoldenCpu golden cpu₀ ramBase ramSize) v₂) (l : Lane) :
    (v₁.resetBatch cpu clint 0).laneState l = (v₂.resetBatch cpu clint 0).laneState l := by
  rw [laneState_resetBatch h₁, laneState_resetBatch h₂]
  rfl

/-! ## A console that outlives its reset -/

/-- An image whose code is `sb x1, 0(x2)` over and over. -/
def chattyImage : Golden where
  base := 0x80000000
  size := 4096
  mem := setSpan (fun _ => 0) 0 [0x23, 0x00, 0x11, 0x00, 0x23, 0x00, 0x11, 0x00]
  perms := fun _ => PERM_READ ||| PERM_WRITE ||| PERM_EXEC

/-- A hart at that code, with `x2` at the UART. -/
def chattyCpu : Cpu :=
  { Cpu.new 0x80000000 with regs := fun i => if i = 2 then UART_BASE else 0x41 }

/-- Fresh lanes. -/
def chattyLanes : VecSystem := fromGoldenCpu chattyImage chattyCpu 0x80000000 4096

def firstLane : Lane := ⟨0, by decide⟩

/-- A batch of one instruction prints one byte on each lane. -/
theorem chattyLanes_prints : ∃ w, chattyLanes.RunBatch 1 w ∧ w.uart firstLane = [0x41] := by
  have h : (passes (fun u : VecSystem => u.batchPass (fun l => (chattyLanes.lanes l).insnsRetired) 1)
      2 chattyLanes).elim (fun w => w.uart firstLane) (fun _ => []) = [0x41] := by
    decide
  cases hp : passes (fun u : VecSystem => u.batchPass (fun l => (chattyLanes.lanes l).insnsRetired) 1)
      2 chattyLanes with
  | inl w =>
    rw [hp] at h
    exact ⟨w, exits_of_passes hp, h⟩
  | inr w =>
    rw [hp] at h
    cases h

/-- Resetting fresh lanes to what they were built from changes nothing. -/
theorem chattyLanes_resetBatch (baseUart : Nat) :
    chattyLanes.resetBatch chattyCpu .default baseUart = chattyLanes := by
  have hout : ([] : List U8).take baseUart = [] := List.take_nil
  show VecSystem.mk _ (fun l => { (chattyLanes.bus l) with
    ram := (chattyLanes.bus l).ram.reset
    clint := .default
    uart := ⟨([] : List U8).take baseUart⟩ }) _ _ _ _ _ _ _ = chattyLanes
  rw [hout]
  rfl

/-- The condition, for lanes that have no past and lanes that have run a batch. -/
theorem resetBatch_erases_iff_chatty : ∃ v₂ w : VecSystem,
    History chattyLanes v₂ ∧ Batch (chattyLanes.resetBatch chattyCpu .default 1) w ∧
      (Erased (chattyLanes.resetBatch chattyCpu .default 1) (v₂.resetBatch chattyCpu .default 1) w 1 ↔
        ∀ l, (chattyLanes.uart l).take 1 = (v₂.uart l).take 1 ∧
          (1 ≤ (chattyLanes.uart l).length ∨
            w.uart l = (chattyLanes.resetBatch chattyCpu .default 1).uart l)) := by
  obtain ⟨w, hw, -⟩ := chattyLanes_prints
  have h₂ : History chattyLanes w := .perform (.runBatch 1) trivial .start hw
  have hb : Batch (chattyLanes.resetBatch chattyCpu .default 1) w := by
    rw [chattyLanes_resetBatch]
    exact .perform (.runBatch 1) rfl .start hw
  exact ⟨w, w, h₂, hb, resetBatch_erases_iff chattyCpu .default 1 .start h₂ hb⟩

/-- After a boot that printed a byte, the reset leaves the byte of the first batch on the console of
its lane, and takes the byte of a batch on fresh lanes for one of the boot. -/
theorem resetBatch_leaves_console : ∃ v₂ w : VecSystem,
    History chattyLanes v₂ ∧ Batch (chattyLanes.resetBatch chattyCpu .default 1) w ∧
      ¬ (∀ l, (chattyLanes.resetBatch chattyCpu .default 1).laneState l =
        (v₂.resetBatch chattyCpu .default 1).laneState l) ∧
      ¬ (∀ l, (w.uart l).drop 1 =
        written ((chattyLanes.resetBatch chattyCpu .default 1).uart l) (w.uart l)) := by
  obtain ⟨w, hw, hout⟩ := chattyLanes_prints
  have hb : Batch (chattyLanes.resetBatch chattyCpu .default 1) w := by
    rw [chattyLanes_resetBatch]
    exact .perform (.runBatch 1) rfl .start hw
  refine ⟨w, w, .perform (.runBatch 1) trivial .start hw, hb, fun h => ?_, fun h => ?_⟩
  · have hl := congrArg (fun s : LaneState => s.machine.uart.out) (h firstLane)
    change [] = (w.uart firstLane).take 1 at hl
    rw [hout] at hl
    cases hl
  · have hl := h firstLane
    rw [chattyLanes_resetBatch, hout] at hl
    cases hl

end VecSystem

end FuzzSoft
