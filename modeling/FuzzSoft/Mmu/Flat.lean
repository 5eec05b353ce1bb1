import FuzzSoft.Mmu.Bus

/-!
# The flat guest memory

`fs_mmu::Mmu`: one window `[base, base + size)` of guest bytes with a parallel permission plane, and
the list and bitmap of 64-byte blocks dirtied since tracking was enabled. Every checked access has a
fast path over the contiguous span and a byte-wise fallback that reports the exact faulting byte.
-/

namespace FuzzSoft

open Lib

/-- Reset granularity for snapshot fuzzing: one cache line. -/
def DIRTY_BLOCK : Nat := 64

/-- A flat guest memory with a parallel permission plane. The planes are read and written below
`size` only. -/
structure Mmu where
  base : U32
  size : Nat
  mem : Nat → U8
  perms : Nat → U8
  trackDirty : Bool
  dirty : List Nat
  dirtyBitmap : Nat → U64

namespace Mmu

/-- A zeroed window in which every permission is clear. -/
def new (base : U32) (size : Nat) : Mmu where
  base := base
  size := size
  mem := fun _ => 0
  perms := fun _ => 0
  trackDirty := false
  dirty := []
  dirtyBitmap := fun _ => 0

/-! ## Dirty blocks -/

/-- Begin tracking dirtied blocks, all clean. -/
def enableDirtyTracking (m : Mmu) : Mmu :=
  { m with trackDirty := true, dirtyBitmap := fun _ => 0, dirty := [] }

/-- The bitmap bit of block `blk`. -/
def blockBit (m : Mmu) (blk : Nat) : Bool :=
  m.dirtyBitmap (blk / 64) &&& (1#64 <<< (blk % 64)) ≠ 0

/-- Set the bit of block `blk` and list it, unless its bit is set already. -/
def markBlock (m : Mmu) (blk : Nat) : Mmu :=
  if m.blockBit blk then m
  else
    { m with
      dirtyBitmap := setAt m.dirtyBitmap (blk / 64)
        (m.dirtyBitmap (blk / 64) ||| (1#64 <<< (blk % 64)))
      dirty := m.dirty ++ [blk] }

/-- Mark the block that holds offset `off`. -/
def markDirty (m : Mmu) (off : Nat) : Mmu := m.markBlock (off / DIRTY_BLOCK)

/-- Forget the dirty set: the bitmap word of every listed block is zeroed. -/
def clearDirty (m : Mmu) : Mmu :=
  { m with
    dirtyBitmap := m.dirty.foldl (fun bm blk => setAt bm (blk / 64) 0) m.dirtyBitmap
    dirty := [] }

/-- Copy block `blk` of both planes back from the golden planes. -/
def restoreBlock (gmem gperms : Nat → U8) (m : Mmu) (blk : Nat) : Mmu :=
  let start := blk * DIRTY_BLOCK
  let stop := min (start + DIRTY_BLOCK) m.size
  { m with
    mem := setSpan m.mem start (readSpan gmem start (stop - start))
    perms := setSpan m.perms start (readSpan gperms start (stop - start)) }

/-- Restore every dirtied block from the golden planes, then start clean. -/
def resetDirty (m : Mmu) (gmem gperms : Nat → U8) : Mmu :=
  (m.dirty.foldl (restoreBlock gmem gperms) m).clearDirty

/-! ## Windows and permissions -/

/-- One past the last address, wrapped to 32 bits. -/
def stop (m : Mmu) : U32 := m.base + BitVec.ofNat 32 m.size

def offset (m : Mmu) (addr : U32) : Option Nat := windowOffset m.base m.size addr

/-- The permission byte at `addr`. -/
def permAt (m : Mmu) (addr : U32) : Option U8 := (m.offset addr).map m.perms

/-- Write `data` at `addr` and stamp `perm`, stopping at the first byte outside the window. -/
def map (m : Mmu) (addr : U32) (data : List U8) (perm : U8) : Except Fault Unit × Mmu :=
  match data with
  | [] => (.ok (), m)
  | b :: bs =>
    match m.offset addr with
    | none => (.error ⟨addr, 1, .write, .unmapped⟩, m)
    | some off =>
      map { m with mem := setAt m.mem off b, perms := setAt m.perms off perm } (addr + 1) bs perm

/-- Stamp `perm` over `[addr, addr + len)`, stopping at the first byte outside the window. -/
def protect (m : Mmu) (addr : U32) (len : Nat) (perm : U8) : Except Fault Unit × Mmu :=
  go m addr len
where
  go (m : Mmu) (a : U32) : Nat → Except Fault Unit × Mmu
    | 0 => (.ok (), m)
    | n + 1 =>
      match m.offset a with
      | none => (.error ⟨a, BitVec.ofNat 32 len, .write, .unmapped⟩, m)
      | some off => go { m with perms := setAt m.perms off perm } (a + 1) n

/-! ## Checked access -/

/-- The span of `len` bytes at `addr` is inside the planes and each of its permission bytes has a
bit of `need`: the test of every fast path. -/
def spanHas (m : Mmu) (need : U8) (addr : U32) (len : Nat) : Option Nat :=
  match m.offset addr with
  | some off =>
    if off + len ≤ m.size ∧ allSpan m.perms off (fun p => p &&& need ≠ 0) len then some off
    else none
  | none => none

def readBytewise (m : Mmu) (need : U8) (access : Access) (addr : U32) (len : Nat) :
    Except Fault (List U8) :=
  readLoop m.offset m.mem m.perms need access (BitVec.ofNat 32 len) addr len

/-- Checked read of `len` bytes: every byte must carry READ. -/
def read (m : Mmu) (addr : U32) (len : Nat) : Except Fault (List U8) :=
  match m.spanHas PERM_READ addr len with
  | some off => .ok (readSpan m.mem off len)
  | none => m.readBytewise PERM_READ .read addr len

/-- Checked fetch of `n` bytes: every byte must carry EXEC. -/
def fetchBytes (m : Mmu) (addr : U32) (n : Nat) : Except Fault (List U8) :=
  match m.spanHas PERM_EXEC addr n with
  | some off => .ok (readSpan m.mem off n)
  | none => m.readBytewise PERM_EXEC .exec addr n

/-- Write one byte whose permission was checked: contents, permission upgrade, dirty block. -/
def putByte (m : Mmu) (off : Nat) (b : U8) : Mmu :=
  let m' := { m with
    mem := setAt m.mem off b
    perms := setAt m.perms off (writtenPerm (m.perms off)) }
  if m.trackDirty then m'.markDirty off else m'

def writeBytewise (m : Mmu) (addr : U32) (data : List U8) : Except Fault Unit × Mmu :=
  writeLoop m.offset Mmu.perms putByte (BitVec.ofNat 32 data.length) m addr data

/-- Write a contiguous span whose permissions were checked, marking the blocks it touches. -/
def putSpan (m : Mmu) (off : Nat) (data : List U8) : Mmu :=
  let m' := { m with
    mem := setSpan m.mem off data
    perms := mapSpan m.perms off data.length writtenPerm }
  if m.trackDirty ∧ 0 < data.length then
    let first := off / DIRTY_BLOCK
    let last := (off + data.length - 1) / DIRTY_BLOCK
    (List.range' first (last + 1 - first)).foldl markBlock m'
  else m'

/-- Checked write: every byte must carry WRITE; written bytes become readable and lose RAW. -/
def write (m : Mmu) (addr : U32) (data : List U8) : Except Fault Unit × Mmu :=
  match m.spanHas PERM_WRITE addr data.length with
  | some off => (.ok (), m.putSpan off data)
  | none => m.writeBytewise addr data

def readU8 (m : Mmu) (addr : U32) : Except Fault U8 := do
  let b ← m.read addr 1
  .ok ((leValue b).setWidth 8)

def readU16 (m : Mmu) (addr : U32) : Except Fault U16 := do
  checkAlign addr 2 .read
  let b ← m.read addr 2
  .ok ((leValue b).setWidth 16)

def readU32 (m : Mmu) (addr : U32) : Except Fault U32 := do
  checkAlign addr 4 .read
  let b ← m.read addr 4
  .ok (leValue b)

/-- `write_u8`, `write_u16` and `write_u32`: alignment first, then the little-endian bytes. -/
def writeAligned (m : Mmu) (addr : U32) (n : Nat) (v : U32) : Except Fault Unit × Mmu :=
  match checkAlign addr n .write with
  | .error e => (.error e, m)
  | .ok () => m.write addr (leBytes v n)

def fetchU16 (m : Mmu) (addr : U32) : Except Fault U16 := do
  checkAlign addr 2 .exec
  let b ← m.fetchBytes addr 2
  .ok ((leValue b).setWidth 16)

/-! ## Plain RAM as a bus -/

def load (m : Mmu) (addr : U32) : Nat → Except Fault U32
  | 1 => (m.readU8 addr).map (·.setWidth 32)
  | 2 => (m.readU16 addr).map (·.setWidth 32)
  | _ => m.readU32 addr

/-- `write_u8` has no alignment check; a byte address is always a multiple of one. -/
def store (m : Mmu) (addr : U32) (size : Nat) (val : U32) : Except Fault Unit × Mmu :=
  match size with
  | 1 => m.writeAligned addr 1 val
  | 2 => m.writeAligned addr 2 val
  | _ => m.writeAligned addr 4 val

def readRawState (m : Mmu) (addr : U32) (len : Nat) : U32 :=
  rawMask (fun i =>
    match m.offset (addr + BitVec.ofNat 32 i) with
    | some off => m.perms off &&& (PERM_RAW ||| PERM_VTAINT) ≠ 0
    | none => false) (min len 4)

/-- Scatter byte `i` of the taint mask. -/
def shadowByte (addr taintMask : U32) (m : Mmu) (i : Nat) : Mmu :=
  match m.offset (addr + BitVec.ofNat 32 i) with
  | some off => { m with perms := setAt m.perms off (taintPerm taintMask i (m.perms off)) }
  | none => m

def writeShadow (m : Mmu) (addr : U32) (len : Nat) (taintMask : U32) : Mmu :=
  (List.range (min len 4)).foldl (shadowByte addr taintMask) m

/-- The direct pointer to an in-bounds span whose every permission byte is trivial. For a store the
touched blocks are marked here, before the caller writes through the pointer. -/
def fastPtr (m : Mmu) (addr : U32) (len : Nat) (need : U8) : Option HostPtr × Mmu :=
  match m.offset addr with
  | none => (none, m)
  | some off =>
    if off + len ≤ m.size ∧ allSpan m.perms off (fastPerm need) len then
      if need &&& PERM_WRITE ≠ 0 ∧ m.trackDirty then
        (some (.mem off), (List.range' off len).foldl markDirty m)
      else (some (.mem off), m)
    else (none, m)

def ptrLoad (m : Mmu) : HostPtr → Nat → List U8
  | .mem off, n => readSpan m.mem off n
  | _, n => List.replicate n 0

def ptrStore (m : Mmu) : HostPtr → List U8 → Mmu
  | .mem off, bs => { m with mem := setSpan m.mem off bs }
  | _, _ => m

instance : Bus Mmu where
  load := load
  store := store
  ifetch16 := fetchU16
  readRawState := readRawState
  writeShadow := writeShadow
  fastPtr := fastPtr
  ptrLoad := ptrLoad
  ptrStore := ptrStore

end Mmu

end FuzzSoft
