import FuzzSoft.Riscv.Exec
import FuzzSoft.Vec.Mmu

/-!
# Sixteen user-mode lanes

`fs_vec::VecCpu`: sixteen register files over the interleaved memory, without privilege modes. A step
runs each active lane by itself (`stepLane`), unless all of them are at one instruction that has a
packed form (`trySimdFastStep`). The ALU, the multiplier and the branch conditions are copies of the
scalar core's, so they are the same definitions here; the packed ALU and branch condition are their
own, seen from one lane.
-/

namespace FuzzSoft

open Lib

namespace VecCpu

/-- Why a lane stopped. -/
inductive LaneExit where
  | ecall (a0 : U32)
  | ebreak
  | fault (f : Fault)
  | illegal (pc raw : U32)
  deriving DecidableEq, Repr

/-- How many steps took which packed path. -/
structure Counters where
  alu : U64
  mem : U64
  branch : U64
  gather : U64
  muldiv : U64

end VecCpu

structure VecCpu where
  regs : Reg → Simd U32
  pc : Simd U32
  active : Simd Bool
  insnsRetired : Simd U64
  exit : Simd (Option VecCpu.LaneExit)
  reservation : Simd (Option U32)
  simdSteps : VecCpu.Counters

/-- `a` on the lanes of the mask, `b` on the others. -/
def select {α : Type} (mask : Simd Bool) (a b : Simd α) : Simd α := fun l =>
  if mask l then a l else b l

/-- The packed branch condition, seen from one lane. -/
def simdBranchTaken (op : BranchOp) (a b : U32) : Bool :=
  match op with
  | .eq => a = b
  | .ne => a ≠ b
  | .lt => a.slt b
  | .ge => b.sle a
  | .ltu => a < b
  | .geu => b ≤ a

namespace VecCpu

/-- All lanes at `entry`, with zeroed registers. -/
def new (entry : U32) : VecCpu where
  regs := fun _ _ => 0
  pc := fun _ => entry
  active := fun _ => true
  insnsRetired := fun _ => 0
  exit := fun _ => none
  reservation := fun _ => none
  simdSteps := ⟨0, 0, 0, 0, 0⟩

section
variable (c : VecCpu)

def rdReg (lane : Lane) (i : Reg) : U32 := if i = 0 then 0 else c.regs i lane

def wrReg (lane : Lane) (i : Reg) (v : U32) : VecCpu :=
  if i = 0 then c
  else { c with regs := Function.update c.regs i (Function.update (c.regs i) lane v) }

def halt (lane : Lane) (e : LaneExit) : VecCpu :=
  { c with
    active := Function.update c.active lane false
    exit := Function.update c.exit lane (some e) }

def setReservation (lane : Lane) (r : Option U32) : VecCpu :=
  { c with reservation := Function.update c.reservation lane r }

/-- Advance a lane to `next` and count its instruction. -/
def retire (lane : Lane) (next : U32) : VecCpu :=
  { c with
    pc := Function.update c.pc lane next
    insnsRetired := Function.update c.insnsRetired lane (c.insnsRetired lane + 1) }

/-- The first active lane. -/
def firstActive : Option Lane := (List.finRange LANES).find? c.active

/-- Every active lane shares its `pc` with the first of them. -/
def lanesConverged : Bool :=
  match c.firstActive with
  | some first => (List.finRange LANES).all fun l => !c.active l || c.pc l = c.pc first
  | none => true

end

end VecCpu

/-- The lanes and the memory they share. -/
structure VecState where
  cpu : VecCpu
  mmu : VecMmu

namespace VecState

open VecCpu

def rdReg (s : VecState) (lane : Lane) (i : Reg) : U32 := s.cpu.rdReg lane i

def wrReg (s : VecState) (lane : Lane) (i : Reg) (v : U32) : VecState :=
  { s with cpu := s.cpu.wrReg lane i v }

def halt (s : VecState) (lane : Lane) (e : VecCpu.LaneExit) : VecState :=
  { s with cpu := s.cpu.halt lane e }

def setReservation (s : VecState) (lane : Lane) (r : Option U32) : VecState :=
  { s with cpu := s.cpu.setReservation lane r }

/-! ## One lane -/

/-- The fetch and decode of a lane. -/
def fetchLane (s : VecState) (lane : Lane) (pc : U32) : Except Fault Fetched :=
  match s.mmu.ifetch16Lane lane pc with
  | .error f => .error f
  | .ok lo =>
    if lo &&& 0x3 ≠ 0x3 then .ok ⟨decodeCompressed lo, 2, lo.setWidth 32⟩
    else
      match s.mmu.ifetch16Lane lane (pc + 2) with
      | .error f => .error f
      | .ok hi =>
        let w := lo.setWidth 32 ||| (hi.setWidth 32 <<< 16)
        .ok ⟨decode w, 4, w⟩

/-- A store of a lane, which halts the lane when it fails. -/
def storeLane (s : VecState) (lane : Lane) (addr : U32) (size : Nat) (val : U32) :
    Except VecCpu.LaneExit VecState :=
  match s.mmu.storeLane lane addr size val with
  | (.error f, _) => .error (.fault f)
  | (.ok (), m) => .ok { s with mmu := m }

/-- The effect of an instruction on a lane: its next `pc`, or the exit that stops the lane with
nothing changed. There are no CSRs and no privilege modes. -/
def execLane (s : VecState) (lane : Lane) (inst : Inst) (pc next iword : U32) :
    Except VecCpu.LaneExit (U32 × VecState) :=
  match inst with
  | .lui rd imm => .ok (next, s.wrReg lane rd imm)
  | .auipc rd imm => .ok (next, s.wrReg lane rd (pc + imm))
  | .jal rd imm => .ok (pc + imm, s.wrReg lane rd next)
  | .jalr rd rs1 imm =>
    let target := (s.rdReg lane rs1 + imm) &&& ~~~1
    .ok (target, s.wrReg lane rd next)
  | .branch op rs1 rs2 imm =>
    .ok (if branchTaken op (s.rdReg lane rs1) (s.rdReg lane rs2) then pc + imm else next, s)
  | .load op rd rs1 imm =>
    match s.mmu.loadLane lane (s.rdReg lane rs1 + imm) op.size with
    | .error f => .error (.fault f)
    | .ok raw => .ok (next, s.wrReg lane rd (extendLoad raw op.size op.signed))
  | .store op rs1 rs2 imm =>
    match s.storeLane lane (s.rdReg lane rs1 + imm) op.size (s.rdReg lane rs2) with
    | .error e => .error e
    | .ok s => .ok (next, s)
  | .opImm op rd rs1 imm => .ok (next, s.wrReg lane rd (alu op (s.rdReg lane rs1) imm))
  | .op op rd rs1 rs2 =>
    .ok (next, s.wrReg lane rd (alu op (s.rdReg lane rs1) (s.rdReg lane rs2)))
  | .mul op rd rs1 rs2 =>
    .ok (next, s.wrReg lane rd (muldiv op (s.rdReg lane rs1) (s.rdReg lane rs2)))
  | .lrW rd rs1 _ _ =>
    let addr := s.rdReg lane rs1
    match s.mmu.loadLane lane addr 4 with
    | .error f => .error (.fault f)
    | .ok v => .ok (next, (s.setReservation lane (some addr)).wrReg lane rd v)
  | .scW rd rs1 rs2 _ _ =>
    let addr := s.rdReg lane rs1
    if s.cpu.reservation lane = some addr then
      match s.storeLane lane addr 4 (s.rdReg lane rs2) with
      | .error e => .error e
      | .ok s => .ok (next, (s.setReservation lane none).wrReg lane rd 0)
    else .ok (next, (s.setReservation lane none).wrReg lane rd 1)
  | .amoW op rd rs1 rs2 _ _ =>
    let addr := s.rdReg lane rs1
    match s.mmu.loadLane lane addr 4 with
    | .error f => .error (.fault f)
    | .ok old =>
      match s.storeLane lane addr 4 (amoResult op old (s.rdReg lane rs2)) with
      | .error e => .error e
      | .ok s => .ok (next, (s.setReservation lane none).wrReg lane rd old)
  | .fence => .ok (next, s)
  | .ecall => .error (.ecall (s.rdReg lane 10))
  | .ebreak => .error .ebreak
  | .csr .. | .mret | .sret | .wfi | .sfenceVma => .error (.illegal pc iword)
  | .illegal raw => .error (.illegal pc raw)

/-- One instruction of one lane. -/
def stepLane (s : VecState) (lane : Lane) : VecState :=
  let pc := s.cpu.pc lane
  match s.fetchLane lane pc with
  | .error f => s.halt lane (.fault f)
  | .ok f =>
    match s.execLane lane f.inst pc (pc + f.ilen) f.iword with
    | .error e => s.halt lane e
    | .ok (next, s) => { s with cpu := s.cpu.retire lane next }

/-! ## All lanes at once -/

/-- The instruction that every active lane fetches at `pc`: its word and its length. Declines when a
lane may not fetch it, or when two lanes disagree on it. -/
def fetchConverged (m : VecMmu) (pc : U32) (active : Simd Bool) (first : Lane) :
    Option (U32 × U32) := do
  let loLine ← m.ifetch16Same pc active
  let lo0 := loLine first
  if anyLane fun l => active l && !(loLine l = lo0) then none
  else if lo0 &&& 0x3 ≠ 0x3 then some (lo0, 2)
  else
    let hiLine ← m.ifetch16Same (pc + 2) active
    let hi0 := hiLine first
    if anyLane fun l => active l && !(hiLine l = hi0) then none
    else some (lo0 ||| (hi0 <<< 16), 4)

/-- Write a packed register on the lanes of a mask. -/
def setRd (s : VecState) (rd : Reg) (mask : Simd Bool) (value : Simd U32) : VecState :=
  if rd = 0 then s
  else
    { s with cpu :=
      { s.cpu with regs := Function.update s.cpu.regs rd (select mask value (s.cpu.regs rd)) } }

def setPc (s : VecState) (mask : Simd Bool) (next : Simd U32) : VecState :=
  { s with cpu := { s.cpu with pc := select mask next s.cpu.pc } }

def advancePcConverged (s : VecState) (mask : Simd Bool) (ilen : U32) : VecState :=
  s.setPc mask fun l => s.cpu.pc l + ilen

def retireActive (s : VecState) (mask : Simd Bool) : VecState :=
  { s with cpu := { s.cpu with
      insnsRetired := select mask (fun l => s.cpu.insnsRetired l + 1) s.cpu.insnsRetired } }

def count (s : VecState) (f : Counters → Counters) : VecState :=
  { s with cpu := { s.cpu with simdSteps := f s.cpu.simdSteps } }

def countAlu (s : VecState) : VecState := s.count fun n => { n with alu := n.alu + 1 }
def countMem (s : VecState) : VecState := s.count fun n => { n with mem := n.mem + 1 }
def countBranch (s : VecState) : VecState := s.count fun n => { n with branch := n.branch + 1 }
def countGather (s : VecState) : VecState := s.count fun n => { n with gather := n.gather + 1 }
def countMuldiv (s : VecState) : VecState := s.count fun n => { n with muldiv := n.muldiv + 1 }

def trySimdLui (s : VecState) (rd : Reg) (imm ilen : U32) (active : Simd Bool) : Bool × VecState :=
  let s := s.setRd rd active fun _ => imm
  (true, ((s.advancePcConverged active ilen).retireActive active).countAlu)

def trySimdAuipc (s : VecState) (rd : Reg) (imm ilen : U32) (active : Simd Bool) :
    Bool × VecState :=
  let result := fun l => s.cpu.pc l + imm
  let s := s.setRd rd active result
  (true, ((s.advancePcConverged active ilen).retireActive active).countAlu)

/-- The packed ALU; `b` is the immediate on all lanes, or a register. -/
def trySimdAlu (s : VecState) (op : AluOp) (rd rs1 : Reg) (b : Simd U32) (ilen : U32)
    (active : Simd Bool) : Bool × VecState :=
  let a := s.cpu.regs rs1
  let result := fun l => simdAlu op (a l) (b l)
  let s := s.setRd rd active result
  (true, ((s.advancePcConverged active ilen).retireActive active).countAlu)

/-- The packed branch: lanes may disagree on the outcome. -/
def trySimdBranch (s : VecState) (op : BranchOp) (rs1 rs2 : Reg) (imm ilen : U32)
    (active : Simd Bool) : Bool × VecState :=
  let taken := fun l => simdBranchTaken op (s.cpu.regs rs1 l) (s.cpu.regs rs2 l)
  let target := fun l => s.cpu.pc l + imm
  let fallthrough := fun l => s.cpu.pc l + ilen
  let s := s.setPc active (select taken target fallthrough)
  (true, (s.retireActive active).countBranch)

def trySimdJal (s : VecState) (rd : Reg) (imm ilen : U32) (active : Simd Bool) : Bool × VecState :=
  let target := fun l => s.cpu.pc l + imm
  let link := fun l => s.cpu.pc l + ilen
  let s := s.setRd rd active link
  (true, ((s.setPc active target).retireActive active).countBranch)

def trySimdJalr (s : VecState) (rd rs1 : Reg) (imm ilen : U32) (active : Simd Bool) :
    Bool × VecState :=
  let target := fun l => (s.cpu.regs rs1 l + imm) &&& ~~~1
  let link := fun l => s.cpu.pc l + ilen
  let s := s.setRd rd active link
  (true, ((s.setPc active target).retireActive active).countBranch)

/-- Sign-extend the low `bits` bits of a packed value, seen from one lane. -/
def signExtendSimd (v : U32) (bits : Nat) : U32 := (v <<< (32 - bits)).sshiftRight (32 - bits)

/-- What a gathering loop has found so far. -/
structure Gathered where
  state : VecState
  values : Simd U32
  succeeded : Simd Bool

/-- One lane of a gathering load: a lane the gather did not serve is loaded by itself. -/
def gatherLoadLane (active : Simd Bool) (raws : Simd U32) (ok : Simd Bool) (addrs : Simd U32)
    (size : Nat) (signed : Bool) (g : Gathered) (lane : Lane) : Gathered :=
  if active lane then
    let raw := if ok lane then .ok (raws lane) else g.state.mmu.loadLane lane (addrs lane) size
    match raw with
    | .error f =>
      { g with
        state := g.state.halt lane (.fault f)
        succeeded := Function.update g.succeeded lane false }
    | .ok raw => { g with values := Function.update g.values lane (extendLoad raw size signed) }
  else g

/-- The load at an address of each lane. -/
def trySimdGatherLoad (s : VecState) (rd : Reg) (ilen : U32) (active : Simd Bool)
    (addrs : Simd U32) (size : Nat) (signed : Bool) : Bool × VecState :=
  let (raws, ok) := s.mmu.loadGatherFast addrs size active
  let g := (List.finRange LANES).foldl (gatherLoadLane active raws ok addrs size signed)
    ⟨s, fun _ => 0, active⟩
  let s := g.state.setRd rd g.succeeded g.values
  (true, ((s.advancePcConverged g.succeeded ilen).retireActive g.succeeded).countGather)

def trySimdLoad (s : VecState) (op : LoadOp) (rd rs1 : Reg) (imm ilen : U32) (active : Simd Bool)
    (first : Lane) : Bool × VecState :=
  let addrs := fun l => s.cpu.regs rs1 l + imm
  let addr0 := addrs first
  if anyLane fun l => active l && !(addrs l = addr0) then
    s.trySimdGatherLoad rd ilen active addrs op.size op.signed
  else
    match s.mmu.loadSame addr0 op.size active with
    | none => s.trySimdGatherLoad rd ilen active addrs op.size op.signed
    | some raw =>
      let value := fun l =>
        if op.signed then
          match op.size with
          | 1 => signExtendSimd (raw l) 8
          | 2 => signExtendSimd (raw l) 16
          | _ => raw l
        else raw l
      let s := s.setRd rd active value
      (true, ((s.advancePcConverged active ilen).retireActive active).countMem)

/-- One lane of a scattering store: a lane the scatter did not serve is stored by itself. -/
def scatterStoreLane (active ok : Simd Bool) (addrs : Simd U32) (size : Nat) (vals : Simd U32)
    (g : VecState × Simd Bool) (lane : Lane) : VecState × Simd Bool :=
  if !active lane || ok lane then g
  else
    match g.1.mmu.storeLane lane (addrs lane) size (vals lane) with
    | (.error f, m) =>
      (({ g.1 with mmu := m } : VecState).halt lane (.fault f), Function.update g.2 lane false)
    | (.ok (), m) => ({ g.1 with mmu := m }, g.2)

/-- The store at an address of each lane. -/
def trySimdGatherStore (s : VecState) (ilen : U32) (active : Simd Bool) (addrs : Simd U32)
    (size : Nat) (vals : Simd U32) : Bool × VecState :=
  let (ok, m) := s.mmu.storeScatterFast addrs size vals active
  let g := (List.finRange LANES).foldl (scatterStoreLane active ok addrs size vals)
    ({ s with mmu := m }, active)
  (true, ((g.1.advancePcConverged g.2 ilen).retireActive g.2).countGather)

def trySimdStore (s : VecState) (op : StoreOp) (rs1 rs2 : Reg) (imm ilen : U32)
    (active : Simd Bool) (first : Lane) : Bool × VecState :=
  let addrs := fun l => s.cpu.regs rs1 l + imm
  let addr0 := addrs first
  let vals := s.cpu.regs rs2
  if anyLane fun l => active l && !(addrs l = addr0) then
    s.trySimdGatherStore ilen active addrs op.size vals
  else
    match s.mmu.storeSame addr0 op.size active vals with
    | (false, _) => s.trySimdGatherStore ilen active addrs op.size vals
    | (true, m) =>
      let s := { s with mmu := m }
      (true, ((s.advancePcConverged active ilen).retireActive active).countMem)

/-- Multiplication and division lane by lane, on a shared fetch. -/
def trySimdMul (s : VecState) (op : MulOp) (rd rs1 rs2 : Reg) (ilen : U32) (active : Simd Bool) :
    Bool × VecState :=
  let result := fun l => if active l then muldiv op (s.cpu.regs rs1 l) (s.cpu.regs rs2 l) else 0
  let s := s.setRd rd active result
  (true, ((s.advancePcConverged active ilen).retireActive active).countMuldiv)

/-- The step of a converged group at an instruction with a packed form. -/
def trySimdFastStep (s : VecState) : Bool × VecState :=
  let active := s.cpu.active
  if !s.cpu.lanesConverged then (false, s)
  else
    match s.cpu.firstActive with
    | none => (false, s)
    | some first =>
      match fetchConverged s.mmu (s.cpu.pc first) active first with
      | none => (false, s)
      | some (iword, ilen) =>
        let inst := if ilen = 2 then decodeCompressed (iword.setWidth 16) else decode iword
        match inst with
        | .lui rd imm => s.trySimdLui rd imm ilen active
        | .auipc rd imm => s.trySimdAuipc rd imm ilen active
        | .opImm op rd rs1 imm => s.trySimdAlu op rd rs1 (fun _ => imm) ilen active
        | .op op rd rs1 rs2 => s.trySimdAlu op rd rs1 (s.cpu.regs rs2) ilen active
        | .branch op rs1 rs2 imm => s.trySimdBranch op rs1 rs2 imm ilen active
        | .jal rd imm => s.trySimdJal rd imm ilen active
        | .jalr rd rs1 imm => s.trySimdJalr rd rs1 imm ilen active
        | .load op rd rs1 imm => s.trySimdLoad op rd rs1 imm ilen active first
        | .store op rs1 rs2 imm => s.trySimdStore op rs1 rs2 imm ilen active first
        | .mul op rd rs1 rs2 => s.trySimdMul op rd rs1 rs2 ilen active
        | _ => (false, s)

/-! ## A step -/

/-- One instruction of every active lane, lane by lane. -/
def laneLoop (s : VecState) : VecState :=
  (List.finRange LANES).foldl (fun s lane => if s.cpu.active lane then s.stepLane lane else s) s

/-- Advance every active lane by one instruction. -/
def step (s : VecState) : VecState :=
  match s.trySimdFastStep with
  | (true, s) => s
  | (false, s) => s.laneLoop

end VecState

end FuzzSoft
