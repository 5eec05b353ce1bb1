import FuzzSoft.Riscv.Exec

/-!
# The machine

RAM, the CLINT and the UART behind one physical bus, and the driver loop that couples the CLINT to
the hart's virtual time (`fs-platform`). `Machine` and `CowMachine` route addresses with the same
code and differ in their RAM only, so they are one structure over the type of the RAM.
-/

namespace FuzzSoft

open Lib

/-! ## Devices -/

def CLINT_BASE : U32 := 0x02000000
def CLINT_SIZE : U32 := 0x00010000
def CLINT_MSIP : U32 := 0x0000
def CLINT_MTIMECMP : U32 := 0x4000
def CLINT_MTIME : U32 := 0xbff8

/-- Core-local interruptor; the `Extra` registers are those of harts 1, 2, …. -/
structure Clint where
  msip : U32
  mtimecmp : U64
  mtime : U64
  msipExtra : List U32
  mtimecmpExtra : List U64
  deriving DecidableEq, Repr

namespace Clint

def default : Clint := ⟨0, 0, 0, [], []⟩

/-- The low or high half of a 64-bit register. -/
def half (v : U64) (hi : Bool) : U32 := if hi then (v >>> 32).setWidth 32 else v.setWidth 32

/-- A 64-bit register with its low or high half replaced. -/
def setHalf (v : U64) (hi : Bool) (val : U32) : U64 :=
  if hi then (v &&& 0xffffffff#64) ||| (val.setWidth 64 <<< 32)
  else (v &&& 0xffffffff00000000#64) ||| val.setWidth 64

/-- The offset is in the software-interrupt window of harts 1, 2, …. -/
def inMsipExtra (off : U32) : Bool :=
  CLINT_MSIP + 4 ≤ off && off < CLINT_MTIMECMP && (off - CLINT_MSIP).toNat % 4 = 0

/-- The offset is in the compare window of harts 1, 2, …. -/
def inCmpExtra (off : U32) : Bool := CLINT_MTIMECMP + 8 ≤ off && off < CLINT_MTIME

/-- The index into `msipExtra` of an offset of its window. -/
def msipIdx (off : U32) : Nat := (off - CLINT_MSIP).toNat / 4 - 1

/-- The index into `mtimecmpExtra` of an offset of its window. -/
def cmpIdx (off : U32) : Nat := (off - CLINT_MTIMECMP).toNat / 8 - 1

/-- The offset of its window that is not a multiple of eight names the high half. -/
def cmpHi (off : U32) : Bool := (off - CLINT_MTIMECMP).toNat % 8 ≠ 0

def load (c : Clint) (off : U32) : U32 :=
  if off = CLINT_MSIP then c.msip &&& 1
  else if off = CLINT_MTIMECMP then half c.mtimecmp false
  else if off = CLINT_MTIMECMP + 4 then half c.mtimecmp true
  else if off = CLINT_MTIME then half c.mtime false
  else if off = CLINT_MTIME + 4 then half c.mtime true
  else if inMsipExtra off then (c.msipExtra[msipIdx off]?).getD 0 &&& 1
  else if inCmpExtra off then
    half ((c.mtimecmpExtra[cmpIdx off]?).getD (BitVec.allOnes 64)) (cmpHi off)
  else 0

/-- Stores to `mtime` and to registers that do not exist are ignored. -/
def store (c : Clint) (off val : U32) : Clint :=
  if off = CLINT_MSIP then { c with msip := val &&& 1 }
  else if off = CLINT_MTIMECMP then { c with mtimecmp := setHalf c.mtimecmp false val }
  else if off = CLINT_MTIMECMP + 4 then { c with mtimecmp := setHalf c.mtimecmp true val }
  else if inMsipExtra off then { c with msipExtra := c.msipExtra.set (msipIdx off) (val &&& 1) }
  else if inCmpExtra off then
    { c with mtimecmpExtra := c.mtimecmpExtra.modify (cmpIdx off) (setHalf · (cmpHi off) val) }
  else c

end Clint

def UART_BASE : U32 := 0x10000000
def UART_SIZE : U32 := 0x100
def UART_THR : U32 := 0
def UART_LSR : U32 := 5

/-- A polled UART that captures the bytes written to its transmit register. -/
structure Uart where
  out : List U8
  deriving DecidableEq, Repr

namespace Uart

def default : Uart := ⟨[]⟩

/-- The line status always reports an empty transmitter. -/
def load (off : U32) : U32 := if off = UART_LSR then 0x60 else 0

def store (u : Uart) (off val : U32) : Uart :=
  if off = UART_THR then ⟨u.out ++ [val.setWidth 8]⟩ else u

end Uart

/-! ## Address routing -/

def inRam (addr ramBase ramEnd : U32) : Bool := ramBase ≤ addr && addr < ramEnd

def inClint (addr : U32) : Bool := CLINT_BASE ≤ addr && addr < CLINT_BASE + CLINT_SIZE

def inUart (addr : U32) : Bool := UART_BASE ≤ addr && addr < UART_BASE + UART_SIZE

def mmioFault (addr : U32) (size : Nat) (access : Access) : Fault :=
  ⟨addr, BitVec.ofNat 32 size, access, .unmapped⟩

/-- A physical machine over a RAM of type `ρ`. -/
structure MachineOf (ρ : Type) where
  ram : ρ
  ramBase : U32
  ramEnd : U32
  clint : Clint
  uart : Uart

/-- The machine with owned RAM. -/
abbrev Machine := MachineOf Mmu

/-- The machine over a copy-on-write view. -/
abbrev CowMachine := MachineOf CowRam

namespace MachineOf

section
variable {ρ : Type} [Bus ρ]

def inRam (m : MachineOf ρ) (addr : U32) : Bool := FuzzSoft.inRam addr m.ramBase m.ramEnd

def load (m : MachineOf ρ) (addr : U32) (size : Nat) : Except Fault U32 :=
  if inClint addr then .ok (m.clint.load (addr - CLINT_BASE))
  else if inUart addr then .ok (Uart.load (addr - UART_BASE))
  else if m.inRam addr then Bus.load m.ram addr size
  else .error (mmioFault addr size .read)

def store (m : MachineOf ρ) (addr : U32) (size : Nat) (val : U32) :
    Except Fault Unit × MachineOf ρ :=
  if inClint addr then (.ok (), { m with clint := m.clint.store (addr - CLINT_BASE) val })
  else if inUart addr then (.ok (), { m with uart := m.uart.store (addr - UART_BASE) val })
  else if m.inRam addr then
    let r := Bus.store m.ram addr size val
    (r.1, { m with ram := r.2 })
  else (.error (mmioFault addr size .write), m)

def ifetch16 (m : MachineOf ρ) (addr : U32) : Except Fault U16 :=
  if m.inRam addr then Bus.ifetch16 m.ram addr else .error (mmioFault addr 2 .exec)

/-- Devices never have a host pointer. -/
def fastPtr (m : MachineOf ρ) (addr : U32) (len : Nat) (need : U8) :
    Option HostPtr × MachineOf ρ :=
  if inClint addr || inUart addr then (none, m)
  else
    let r := Bus.fastPtr m.ram addr len need
    (r.1, { m with ram := r.2 })

def readRawState (m : MachineOf ρ) (addr : U32) (len : Nat) : U32 :=
  if m.inRam addr then Bus.readRawState m.ram addr len else 0

/-- Scatters into RAM whenever the address is in the RAM window, also under a device. -/
def writeShadow (m : MachineOf ρ) (addr : U32) (len : Nat) (taintMask : U32) : MachineOf ρ :=
  if m.inRam addr then { m with ram := Bus.writeShadow m.ram addr len taintMask } else m

instance : Bus (MachineOf ρ) where
  load := load
  store := store
  ifetch16 := ifetch16
  readRawState := readRawState
  writeShadow := writeShadow
  storeMayAssertInterrupt := fun _ addr _ => inClint addr
  fastPtr := fastPtr
  ptrLoad := fun m p n => Bus.ptrLoad m.ram p n
  ptrStore := fun m p bs => { m with ram := Bus.ptrStore m.ram p bs }

end

/-- A zeroed machine (`Machine::new`). -/
def new (ramBase : U32) (ramSize : Nat) : Machine where
  ram := Mmu.new ramBase ramSize
  ramBase := ramBase
  ramEnd := ramBase + BitVec.ofNat 32 ramSize
  clint := .default
  uart := .default

/-- A fresh lane over `golden`, its devices at their defaults (`CowMachine::from_golden`). -/
def fromGolden (golden : Golden) (ramBase : U32) (ramSize : Nat) : CowMachine where
  ram := CowRam.new golden
  ramBase := ramBase
  ramEnd := ramBase + BitVec.ofNat 32 ramSize
  clint := .default
  uart := .default

end MachineOf

/-! ## The driver loop -/

def MIP_MSIP : U32 := 1#32 <<< 3

/-- Push the CLINT's compare and software-interrupt state into the hart. -/
def Hart.applyClint (h : Hart) (c : Clint) : Hart :=
  { h with csr := { h.csr with
    mtimecmp := c.mtimecmp
    mip := setFlag h.csr.mip MIP_MSIP (c.msip &&& 1 ≠ 0) } }

section
variable {ρ : Type} [Bus ρ]

/-- The CLINT shows the hart's virtual time. -/
def setMtime (s : Sys (MachineOf ρ)) : Sys (MachineOf ρ) :=
  { s with bus := { s.bus with clint := { s.bus.clint with mtime := s.hart.virtualTime } } }

/-- `sync_timer`, `sync_timer_cow`. -/
def syncTimer (s : Sys (MachineOf ρ)) : Sys (MachineOf ρ) :=
  s.setHart (s.hart.applyClint s.bus.clint)

/-- The body of the driver loop: set `mtime`, sync the timer, step. -/
def driverStep (s : Sys (MachineOf ρ)) : SysExit × Sys (MachineOf ρ) :=
  stepSystem (syncTimer (setMtime s))

end

/-- Why a run stopped. -/
inductive Stop where
  | halt (code : U32)
  | hypercall (cmd : U32)
  | budget
  deriving DecidableEq, Repr

end FuzzSoft
