import FuzzSoft.Fuzz.Case

/-!
# Sixteen lanes in step

`fs_vec::VecSystem`: full-system lanes over one golden image, stepped together. A step runs each
active lane as the driver loop would, unless all of them are at the same instruction and it is an
ALU operation or a load from one address: then it is fetched once, from the golden image, and
executed on all lanes at once. What the source does lane by lane to independent lanes is a function
of the lane here.
-/

namespace FuzzSoft

open Lib

def LANES : Nat := 16

abbrev Lane := Fin LANES

/-- Why a lane stopped. -/
inductive LaneExit where
  | halt (code : U32)
  | hypercall (cmd : U32)
  | budget
  deriving DecidableEq, Repr

structure VecSystem where
  lanes : Lane → Cpu
  bus : Lane → CowMachine
  golden : Golden
  active : Lane → Bool
  exit : Lane → Option LaneExit
  cov : Lane → CovBitmap MAP_SIZE
  simdSteps : U64
  scalarSteps : U64
  sharedFetchSteps : U64

/-- The packed ALU, seen from one lane. -/
def simdAlu (op : AluOp) (a b : U32) : U32 :=
  let shamt := (b &&& 31).toNat
  match op with
  | .add => a + b
  | .sub => a - b
  | .sll => a <<< shamt
  | .slt => if a.slt b then 1 else 0
  | .sltu => if a < b then 1 else 0
  | .xor => a ^^^ b
  | .srl => a >>> shamt
  | .sra => a.sshiftRight shamt
  | .or => a ||| b
  | .and => a &&& b

/-- The operands of a packed ALU operation; without `rs2` the immediate is used. -/
structure AluDispatch where
  op : AluOp
  rd : Reg
  rs1 : Reg
  rs2 : Option Reg
  imm : U32

namespace VecSystem

/-- All lanes from one golden image and one hart. -/
def fromGoldenCpu (golden : Golden) (cpu : Cpu) (ramBase : U32) (ramSize : Nat) : VecSystem where
  lanes := fun _ => cpu
  bus := fun _ => .fromGolden golden ramBase ramSize
  golden := golden
  active := fun _ => true
  exit := fun _ => none
  cov := fun _ => .new
  simdSteps := 0
  scalarSteps := 0
  sharedFetchSteps := 0

section
variable (v : VecSystem)

/-- The hart and the machine of a lane. -/
def lane (l : Lane) : Sys CowMachine := ⟨v.lanes l, v.bus l⟩

def anyActive : Bool := (List.finRange LANES).any v.active

/-- Another hart and machine for every active lane. -/
def withLanes (f : Lane → Sys CowMachine) : VecSystem :=
  { v with
    lanes := fun l => if v.active l then (f l).cpu else v.lanes l
    bus := fun l => if v.active l then (f l).bus else v.bus l }

/-- Couple the CLINT of every active lane to its virtual time. -/
def syncTimers : VecSystem := v.withLanes fun l => syncTimer (setMtime (v.lane l))

/-! ## The converged fast path -/

/-- `any_lane_overlaid`: the golden image cannot be trusted at this address. -/
def anyLaneOverlaid (addr : U32) : Bool :=
  if addr < v.golden.base then true
  else
    let pn := (addr - v.golden.base).toNat / PAGE_SIZE
    v.golden.numPages ≤ pn || (List.finRange LANES).any fun l => (v.bus l).ram.isOverlaid pn

def firstActive : Option Lane := (List.finRange LANES).find? v.active

/-- Every active lane shares the address, the privilege and the page table of lane `first`. -/
def converged (first : Lane) : Bool :=
  (List.finRange LANES).all fun l => !v.active l ||
    ((v.lanes l).pc = (v.lanes first).pc && (v.lanes l).privilege = (v.lanes first).privilege &&
      (v.lanes l).csr.satp = (v.lanes first).csr.satp)

/-- An active lane is about to take an interrupt. -/
def interrupted (l : Lane) : Bool :=
  v.active l && (v.lanes l).toHart.updateTimers.pendingInterrupt.isSome

/-- Refresh the timer bits lane by lane, up to the first lane that takes an interrupt. -/
def refreshTimers : VecSystem :=
  v.withLanes fun l =>
    if (List.finRange LANES).any fun k => k < l && v.interrupted k then v.lane l
    else (v.lane l).setHart (v.lanes l).toHart.updateTimers

/-- A half-word of the instruction, from the golden image, for all lanes at once. -/
def sharedFetch16 (first : Lane) (va : U32) : Option U16 := do
  let pa ← xlateGoldenReadonly (v.lanes first).toHart v.golden va .exec v.anyLaneOverlaid
  if v.anyLaneOverlaid pa then none else v.golden.fetchU16 pa

/-- The shared instruction and its length. -/
def sharedFetch (first : Lane) : Option (Inst × U32) := do
  let pc := (v.lanes first).pc
  let lo ← v.sharedFetch16 first pc
  if lo &&& 0x3 ≠ 0x3 then some (decodeCompressed lo, 2)
  else do
    let hi ← v.sharedFetch16 first (pc + 2)
    some (decode (lo.setWidth 32 ||| (hi.setWidth 32 <<< 16)), 4)

/-- Write a register on every active lane, advance and count. -/
def retireAll (rd : Reg) (value : Lane → U32) (ilen : U32) : VecSystem :=
  v.withLanes fun l =>
    (v.lane l).setHart (((v.lanes l).toHart.wrReg rd (value l)).retire ((v.lanes l).pc + ilen))

def dispatchSimdAlu (d : AluDispatch) (ilen : U32) : VecSystem :=
  v.retireAll d.rd (fun l =>
    let h := (v.lanes l).toHart
    simdAlu d.op (h.rdReg d.rs1) (d.rs2.elim d.imm h.rdReg)) ilen

/-- A load from the same aligned address on all lanes, read once from the golden image. -/
def trySharedLoad (first : Lane) (op : LoadOp) (rd rs1 : Reg) (imm ilen : U32) :
    Bool × VecSystem :=
  let addrOf (l : Lane) : U32 := (v.lanes l).toHart.rdReg rs1 + imm
  let addr := addrOf first
  if !(List.finRange LANES).all (fun l => !v.active l || addrOf l = addr) then (false, v)
  else if addr.toNat % op.size ≠ 0 then (false, v)
  else
    match xlateGoldenReadonly (v.lanes first).toHart v.golden addr .read v.anyLaneOverlaid with
    | none => (false, v)
    | some pa =>
      if v.anyLaneOverlaid pa then (false, v)
      else
        match v.golden.readSized pa op.size with
        | none => (false, v)
        | some raw =>
          let value :=
            if op.signed then
              if op.size = 1 then (raw.setWidth 8).signExtend 32
              else if op.size = 2 then (raw.setWidth 16).signExtend 32
              else raw
            else raw
          (true, v.retireAll rd (fun _ => value) ilen)

/-- Says whether the instruction was executed on all active lanes. -/
def tryConvergedFastPath : Bool × VecSystem :=
  match v.firstActive with
  | none => (false, v)
  | some first =>
    if !v.converged first then (false, v)
    else
      let pending := (List.finRange LANES).any v.interrupted
      let v := v.refreshTimers
      if pending then (false, v)
      else
        match v.sharedFetch first with
        | none => (false, v)
        | some (inst, ilen) =>
          let v := { v with sharedFetchSteps := v.sharedFetchSteps + 1 }
          match inst with
          | .opImm op rd rs1 imm => (true, v.dispatchSimdAlu ⟨op, rd, rs1, none, imm⟩ ilen)
          | .op op rd rs1 rs2 => (true, v.dispatchSimdAlu ⟨op, rd, rs1, some rs2, 0⟩ ilen)
          | .load op rd rs1 imm => v.trySharedLoad first op rd rs1 imm ilen
          | _ => (false, v)

/-! ## Steps and batches -/

/-- The exit of a lane whose step stopped. -/
def laneExit : SysExit → Option LaneExit
  | .continue => none
  | .halt c => some (.halt c)
  | .hypercall c => some (.hypercall c)

/-- One instruction on every active lane, each for itself. -/
def scalarStep : VecSystem :=
  let r := fun l => stepSystem (v.lane l)
  let v' := v.withLanes fun l => (r l).2
  { v' with
    scalarSteps := v.scalarSteps + 1
    active := fun l => v.active l && (laneExit (r l).1).isNone
    exit := fun l => if v.active l then (laneExit (r l).1).orElse fun _ => v.exit l else v.exit l
    cov := fun l =>
      if v.active l && (laneExit (r l).1).isNone then
        recordTransfer (v.cov l) (v.lanes l).pc (r l).2.hart.pc
      else v.cov l }

/-- Advance every active lane by one instruction. -/
def step : VecSystem :=
  let v := v.syncTimers
  match v.tryConvergedFastPath with
  | (true, v') =>
    { v' with
      simdSteps := v'.simdSteps + 1
      cov := fun l =>
        if v.active l then recordTransfer (v'.cov l) (v.lanes l).pc (v'.lanes l).pc else v'.cov l }
  | (false, v') => v'.scalarStep

/-- Mask the lanes off that have used their budget since `start`. -/
def haltSpent (start : Lane → U64) (budget : U64) : VecSystem :=
  let spent := fun l => v.active l && budget ≤ (v.lanes l).insnsRetired - start l
  { v with
    active := fun l => v.active l && !spent l
    exit := fun l => if spent l then some .budget else v.exit l }

/-- A pass of `run_batch`. -/
def batchPass (start : Lane → U64) (budget : U64) : VecSystem ⊕ VecSystem :=
  if v.anyActive then
    let v := v.haltSpent start budget
    if v.anyActive then .inr v.step else .inl v
  else .inl v

end

end VecSystem

end FuzzSoft
