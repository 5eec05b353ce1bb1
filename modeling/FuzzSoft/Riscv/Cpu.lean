import FuzzSoft.Lib.Comp
import FuzzSoft.Riscv.Inst
import FuzzSoft.Riscv.Csr

/-!
# The hart

The state of `fs_riscv::Cpu`. The software TLB stands apart from the rest (`Hart`), because most of
what is proved is about harts that agree up to their TLBs. A guest access is a computation over a
hart and a bus (`Exec`), which keeps the state when it raises a trap.
-/

namespace FuzzSoft

open Lib

/-- Outcome of a step of the core. -/
inductive Exit where
  | continue
  | ecall
  | ebreak
  | halt (code : U32)
  deriving DecidableEq, Repr

/-- A trap that aborts a step. -/
inductive Trap where
  | mem (f : Fault)
  | illegal (pc raw : U32)
  | exception (cause tval : U32)
  | kmsanTainted (pc : U32) (rs1 rs2 : Reg) (taintA taintB : U32)
  deriving DecidableEq, Repr

/-- A copy of a `Trap.kmsanTainted`, left in the hart for the harness. -/
structure KmsanReport where
  pc : U32
  rs1 : Reg
  rs2 : Reg
  taintA : U32
  taintB : U32
  deriving DecidableEq, Repr

/-! ## The software TLB -/

def TLB_SIZE : Nat := 256

/-- The virtual page number of an empty slot, which no address has. -/
def EMPTY_VPN : U32 := BitVec.allOnes 32

/-- Decoded leaf permission bits. -/
structure LeafBits where
  r : Bool
  w : Bool
  x : Bool
  u : Bool
  deriving DecidableEq, Repr

/-- One cached translation of a 4 KiB page. -/
structure TlbEntry where
  vpn : U32
  ppn : U32
  bits : LeafBits
  /-- The dirty bit of the PTE is known to be set. -/
  dSet : Bool
  deriving DecidableEq, Repr

def TlbEntry.EMPTY : TlbEntry := ⟨EMPTY_VPN, 0, ⟨false, false, false, false⟩, false⟩

/-- A direct-mapped TLB. -/
structure Tlb where
  entries : Nat → TlbEntry

namespace Tlb

def new : Tlb := ⟨fun _ => .EMPTY⟩

def slot (vpn : U32) : Nat := vpn.toNat % TLB_SIZE

def get (t : Tlb) (vpn : U32) : Option TlbEntry :=
  let e := t.entries (slot vpn)
  if e.vpn = vpn then some e else none

def insert (t : Tlb) (e : TlbEntry) : Tlb := ⟨setAt t.entries (slot e.vpn) e⟩

/-- An entry is found in its slot. -/
theorem get_eq_some {t : Tlb} {vpn : U32} {e : TlbEntry} :
    t.get vpn = some e ↔ t.entries (slot vpn) = e ∧ e.vpn = vpn := by
  simp only [get, Option.ite_none_right_eq_some, Option.some.injEq]
  constructor
  · rintro ⟨h, rfl⟩
    exact ⟨rfl, h⟩
  · rintro ⟨rfl, h⟩
    exact ⟨h, rfl⟩

/-- What is found after an insertion is the new entry or was there before. -/
theorem get_insert {t : Tlb} {e e' : TlbEntry} {vpn : U32} (h : (t.insert e).get vpn = some e') :
    (e' = e ∧ vpn = e.vpn) ∨ (t.get vpn = some e' ∧ slot vpn ≠ slot e.vpn) := by
  obtain ⟨h1, h2⟩ := get_eq_some.1 h
  by_cases hs : slot vpn = slot e.vpn
  · left
    simp only [insert, hs, setAt_self] at h1
    exact ⟨h1.symm, by rw [← h2, h1]⟩
  · right
    simp only [insert, setAt_of_ne _ _ hs] at h1
    exact ⟨get_eq_some.2 ⟨h1, h2⟩, hs⟩

/-- An inserted entry is found. -/
theorem get_insert_self (t : Tlb) (e : TlbEntry) : (t.insert e).get e.vpn = some e :=
  get_eq_some.2 ⟨setAt_self _ _ _, rfl⟩

/-- A new TLB has empty slots only. -/
theorem get_new {vpn : U32} {e : TlbEntry} (h : new.get vpn = some e) : e.vpn = EMPTY_VPN := by
  obtain ⟨h1, -⟩ := get_eq_some.1 h
  rw [← h1]
  rfl

end Tlb

/-! ## The hart -/

def CMPLOG_CAP : Nat := 8192
def UBSAN_CAP : Nat := 8192

/-- The state of a core without its TLB. -/
structure Hart where
  regs : Reg → U32
  pc : U32
  htifTohost : Option U32
  insnsRetired : U64
  reservation : Option U32
  privilege : Priv
  csr : Csr
  hypercallEid : Option U32
  cmplog : Option (List (U32 × U32))
  ubsan : Option (List U32)
  regsTaint : Option (Reg → U32)
  jitPendingTrap : Option Trap
  kmsanHit : Option KmsanReport

/-- The scalar core. -/
structure Cpu extends Hart where
  tlb : Tlb

namespace Hart

/-- A hart at `entry` in M mode. -/
def new (entry : U32) : Hart where
  regs := fun _ => 0
  pc := entry
  htifTohost := none
  insnsRetired := 0
  reservation := none
  privilege := .m
  csr := Csr.default
  hypercallEid := none
  cmplog := none
  ubsan := none
  regsTaint := none
  jitPendingTrap := none
  kmsanHit := none

def rdReg (h : Hart) (i : Reg) : U32 := if i = 0 then 0 else h.regs i

def wrReg (h : Hart) (i : Reg) (v : U32) : Hart :=
  if i = 0 then h else { h with regs := Function.update h.regs i v }

def kmsanEnabled (h : Hart) : Bool := h.regsTaint.isSome

def rdTaint (h : Hart) (i : Reg) : U32 :=
  match h.regsTaint with
  | some t => if i = 0 then 0 else t i
  | none => 0

/-- Write a taint mask; a no-op when tracking is off or for `x0`. -/
def wrTaint (h : Hart) (i : Reg) (t : U32) : Hart :=
  if i = 0 then h
  else
    match h.regsTaint with
    | some taint => { h with regsTaint := some (Function.update taint i t) }
    | none => h

def setCmplog (h : Hart) (on : Bool) : Hart := { h with cmplog := if on then some [] else none }

/-- Drain the log, leaving recording as it is. -/
def cmplogTake (h : Hart) : List (U32 × U32) × Hart :=
  match h.cmplog with
  | some log => (log, { h with cmplog := some [] })
  | none => ([], h)

/-- Append a pair of comparison operands, up to the capacity. -/
def logCmp (h : Hart) (a b : U32) : Hart :=
  match h.cmplog with
  | some log => if log.length < CMPLOG_CAP then { h with cmplog := some (log ++ [(a, b)]) } else h
  | none => h

/-- Record a division by zero at `pc`, up to the capacity. -/
def logUbsan (h : Hart) (pc : U32) : Hart :=
  match h.ubsan with
  | some log => if log.length < UBSAN_CAP then { h with ubsan := some (log ++ [pc]) } else h
  | none => h

/-- Clear the reservation if its first byte lies in `[addr, addr + len)`. -/
def invalidateReservation (h : Hart) (addr : U32) (len : Nat) : Hart :=
  match h.reservation with
  | some r =>
    if addr.toNat ≤ r.toNat ∧ r.toNat < addr.toNat + len then { h with reservation := none } else h
  | none => h

/-- The privilege of a data access honours MPRV and MPP; a fetch's does not. -/
def effectivePriv (h : Hart) (access : Access) : Priv :=
  if access ≠ .exec ∧ h.csr.mstatus &&& MSTATUS_MPRV ≠ 0 then
    Priv.fromBits ((h.csr.mstatus &&& MSTATUS_MPP) >>> 11)
  else h.privilege

/-- Virtual time is the count of retired instructions. -/
def virtualTime (h : Hart) : U64 := h.insnsRetired

end Hart

namespace Cpu

def new (entry : U32) : Cpu := { Hart.new entry with tlb := .new }

def flushTlb (c : Cpu) : Cpu := { c with tlb := .new }

def setHart (c : Cpu) (h : Hart) : Cpu := { h with tlb := c.tlb }

end Cpu

/-! ## Computations of a hart over a bus -/

/-- A hart and the bus it runs on. -/
structure Sys (β : Type) where
  cpu : Cpu
  bus : β

/-- A guest computation. -/
abbrev Exec (β α : Type) := Comp Trap (Sys β) α

section
variable {β : Type}

namespace Sys

def hart (s : Sys β) : Hart := s.cpu.toHart

def setHart (s : Sys β) (h : Hart) : Sys β := { s with cpu := s.cpu.setHart h }

def flushTlb (s : Sys β) : Sys β := { s with cpu := s.cpu.flushTlb }

@[simp] theorem hart_setHart (s : Sys β) (h : Hart) : (s.setHart h).hart = h := rfl
@[simp] theorem bus_setHart (s : Sys β) (h : Hart) : (s.setHart h).bus = s.bus := rfl
@[simp] theorem tlb_setHart (s : Sys β) (h : Hart) : (s.setHart h).cpu.tlb = s.cpu.tlb := rfl
@[simp] theorem hart_flushTlb (s : Sys β) : s.flushTlb.hart = s.hart := rfl
@[simp] theorem bus_flushTlb (s : Sys β) : s.flushTlb.bus = s.bus := rfl
@[simp] theorem tlb_flushTlb (s : Sys β) : s.flushTlb.cpu.tlb = .new := rfl

/-- Systems are equal when their harts, TLBs and buses are. -/
theorem ext' {s t : Sys β} (hh : s.hart = t.hart) (ht : s.cpu.tlb = t.cpu.tlb)
    (hb : s.bus = t.bus) : s = t := by
  rcases s with ⟨⟨h, tlb⟩, b⟩
  rcases t with ⟨⟨h', tlb'⟩, b'⟩
  cases hh
  cases ht
  cases hb
  rfl

end Sys

def getHart : Exec β Hart := Comp.gets Sys.hart

def modifyHart (f : Hart → Hart) : Exec β Unit := Comp.modify fun s => s.setHart (f s.hart)

def flushTlb : Exec β Unit := Comp.modify Sys.flushTlb

/-- Replace the CSR file, and flush the TLB in the same breath when `flush` is set. -/
def setCsr (c : Csr) (flush : Bool) : Exec β Unit :=
  Comp.modify fun s =>
    let s' := s.setHart { s.hart with csr := c }
    if flush then s'.flushTlb else s'

variable [Bus β]

/-- A bus load; its fault becomes a memory trap. -/
def busLoad (pa : U32) (size : Nat) : Exec β U32 := fun s =>
  ((Bus.load s.bus pa size).mapError Trap.mem, s)

def busIfetch16 (pa : U32) : Exec β U16 := fun s =>
  ((Bus.ifetch16 s.bus pa).mapError Trap.mem, s)

def busStore (pa : U32) (size : Nat) (val : U32) : Exec β Unit := fun s =>
  let r := Bus.store s.bus pa size val
  (r.1.mapError Trap.mem, { s with bus := r.2 })

def busRawState (pa : U32) (len : Nat) : Exec β U32 :=
  Comp.gets fun s => Bus.readRawState s.bus pa len

def busWriteShadow (pa : U32) (len : Nat) (mask : U32) : Exec β Unit :=
  Comp.modify fun s => { s with bus := Bus.writeShadow s.bus pa len mask }

end

end FuzzSoft
