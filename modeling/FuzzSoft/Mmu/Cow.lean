import FuzzSoft.Mmu.Flat

/-!
# Copy-on-write guest memory

`fs_mmu::Golden` and `fs_mmu::CowRam`: an immutable image of a flat memory's two planes, shared by
every lane, and one lane's view over it, in which the first write to a 4 KiB page copies the page
into a private overlay. `dir` sends a page number to the slot of its overlay, or to `SENTINEL`.
-/

namespace FuzzSoft

open Lib

/-- Page granularity of the overlay. -/
def PAGE_SIZE : Nat := 4096

/-- The directory entry of a page that is still golden. -/
def SENTINEL : U32 := BitVec.allOnes 32

/-- An immutable golden image of guest RAM. -/
structure Golden where
  base : U32
  size : Nat
  mem : Nat → U8
  perms : Nat → U8

namespace Golden

/-- Snapshot the planes of `m`. -/
def fromMmu (m : Mmu) : Golden where
  base := m.base
  size := m.size
  mem := m.mem
  perms := m.perms

/-- Number of pages covering the window, the last one possibly partial. -/
def numPages (g : Golden) : Nat := (g.size + PAGE_SIZE - 1) / PAGE_SIZE

def offset (g : Golden) (addr : U32) : Option Nat := windowOffset g.base g.size addr

/-- The whole span is inside the image and each byte carries a bit of `need`. -/
def spanHas (g : Golden) (need : U8) (addr : U32) (len : Nat) : Option Nat :=
  match g.offset addr with
  | some off =>
    if off + len ≤ g.size ∧ allSpan g.perms off (fun p => p &&& need ≠ 0) len then some off
    else none
  | none => none

/-- The read-only accessors of the image: aligned, inside it, every byte carrying `need`. -/
def readSpanOf (g : Golden) (need : U8) (addr : U32) (n : Nat) : Option U32 :=
  if addr.toNat % n = 0 then
    (g.spanHas need addr n).map fun off => leValue (readSpan g.mem off n)
  else none

def readU32 (g : Golden) (addr : U32) : Option U32 := g.readSpanOf PERM_READ addr 4

/-- Sized physical read: one, two, or else four bytes. -/
def readSized (g : Golden) (addr : U32) : Nat → Option U32
  | 1 => g.readSpanOf PERM_READ addr 1
  | 2 => g.readSpanOf PERM_READ addr 2
  | _ => g.readU32 addr

/-- Instruction half-word fetch: EXEC, not READ. -/
def fetchU16 (g : Golden) (addr : U32) : Option U16 :=
  (g.readSpanOf PERM_EXEC addr 2).map (·.setWidth 16)

end Golden

/-- One page's private overlay of both planes. -/
structure CowPage where
  mem : Nat → U8
  perms : Nat → U8

instance : Inhabited CowPage := ⟨⟨fun _ => 0, fun _ => 0⟩⟩

/-- A lane's working view over a shared golden image. -/
structure CowRam where
  golden : Golden
  dir : Nat → U32
  pages : List CowPage
  dirty : List U32

namespace CowRam

/-- A fresh view: every page golden. -/
def new (g : Golden) : CowRam where
  golden := g
  dir := fun _ => SENTINEL
  pages := []
  dirty := []

def offset (c : CowRam) (addr : U32) : Option Nat := windowOffset c.golden.base c.golden.size addr

/-- The overlay in `slot`. -/
def page (c : CowRam) (slot : Nat) : CowPage := c.pages.getD slot default

/-- Page `pn` as the lane sees it: its overlay if there is one, else the golden page. -/
def resolve (c : CowRam) (pn : Nat) : CowPage :=
  let slot := c.dir pn
  if slot = SENTINEL then
    { mem := fun po => c.golden.mem (pn * PAGE_SIZE + po)
      perms := fun po => c.golden.perms (pn * PAGE_SIZE + po) }
  else c.page slot.toNat

/-- The private copy of golden page `pn`; the tail past the window is zeroed. -/
def freshPage (g : Golden) (pn : Nat) : CowPage where
  mem := fun po => if pn * PAGE_SIZE + po < g.size then g.mem (pn * PAGE_SIZE + po) else 0
  perms := fun po => if pn * PAGE_SIZE + po < g.size then g.perms (pn * PAGE_SIZE + po) else 0

/-- Copy-on-write page `pn`, a no-op if it is overlaid already. Returns its slot. -/
def ensurePage (c : CowRam) (pn : Nat) : Nat × CowRam :=
  let slot := c.dir pn
  if slot ≠ SENTINEL then (slot.toNat, c)
  else
    let idx := c.pages.length
    (idx, { c with
      pages := c.pages ++ [freshPage c.golden pn]
      dir := setAt c.dir pn (BitVec.ofNat 32 idx)
      dirty := c.dirty ++ [BitVec.ofNat 32 pn] })

/-- Replace the overlay in `slot`. -/
def setPage (c : CowRam) (slot : Nat) (p : CowPage) : CowRam :=
  { c with pages := c.pages.set slot p }

/-- The data byte at window offset `off`. -/
def memAt (c : CowRam) (off : Nat) : U8 := (c.resolve (off / PAGE_SIZE)).mem (off % PAGE_SIZE)

/-- The permission byte at window offset `off`. -/
def permOf (c : CowRam) (off : Nat) : U8 := (c.resolve (off / PAGE_SIZE)).perms (off % PAGE_SIZE)

def permAt (c : CowRam) (addr : U32) : Option U8 := (c.offset addr).map c.permOf

/-! ## Checked access -/

/-- The span lies inside the window and inside one page, and each permission byte has a bit of
`need`. -/
def spanHas (c : CowRam) (need : U8) (addr : U32) (len : Nat) : Option Nat :=
  match c.offset addr with
  | some off =>
    let pn := off / PAGE_SIZE
    let po := off % PAGE_SIZE
    if off + len ≤ c.golden.size ∧ po + len ≤ PAGE_SIZE ∧
        allSpan (c.resolve pn).perms po (fun p => p &&& need ≠ 0) len then some off
    else none
  | none => none

def readBytewise (c : CowRam) (need : U8) (access : Access) (addr : U32) (len : Nat) :
    Except Fault (List U8) :=
  readLoop c.offset c.memAt c.permOf need access (BitVec.ofNat 32 len) addr len

/-- The in-page slice of a span that the fast path accepted. -/
def readPage (c : CowRam) (off len : Nat) : List U8 :=
  readSpan (c.resolve (off / PAGE_SIZE)).mem (off % PAGE_SIZE) len

/-- Checked read; never allocates an overlay. -/
def read (c : CowRam) (addr : U32) (len : Nat) : Except Fault (List U8) :=
  match c.spanHas PERM_READ addr len with
  | some off => .ok (c.readPage off len)
  | none => c.readBytewise PERM_READ .read addr len

def fetchBytes (c : CowRam) (addr : U32) (n : Nat) : Except Fault (List U8) :=
  match c.spanHas PERM_EXEC addr n with
  | some off => .ok (c.readPage off n)
  | none => c.readBytewise PERM_EXEC .exec addr n

/-- Overlay the page of `off` and change it with `f`, which gets the in-page offset. -/
def updatePage (c : CowRam) (off : Nat) (f : Nat → CowPage → CowPage) : CowRam :=
  let r := c.ensurePage (off / PAGE_SIZE)
  r.2.setPage r.1 (f (off % PAGE_SIZE) (r.2.page r.1))

/-- Write one byte whose permission was checked. -/
def putByte (c : CowRam) (off : Nat) (b : U8) : CowRam :=
  c.updatePage off fun po p =>
    { mem := setAt p.mem po b
      perms := setAt p.perms po (writtenPerm (p.perms po)) }

def writeBytewise (c : CowRam) (addr : U32) (data : List U8) : Except Fault Unit × CowRam :=
  writeLoop c.offset permOf putByte (BitVec.ofNat 32 data.length) c addr data

/-- Write a span inside one page whose permissions were checked. -/
def putSpan (c : CowRam) (off : Nat) (data : List U8) : CowRam :=
  c.updatePage off fun po p =>
    { mem := setSpan p.mem po data
      perms := mapSpan p.perms po data.length writtenPerm }

/-- Checked write: copies the page only once the permission is confirmed. -/
def write (c : CowRam) (addr : U32) (data : List U8) : Except Fault Unit × CowRam :=
  match c.spanHas PERM_WRITE addr data.length with
  | some off => (.ok (), c.putSpan off data)
  | none => c.writeBytewise addr data

def readU8 (c : CowRam) (addr : U32) : Except Fault U8 := do
  let b ← c.read addr 1
  .ok ((leValue b).setWidth 8)

def readU16 (c : CowRam) (addr : U32) : Except Fault U16 := do
  checkAlign addr 2 .read
  let b ← c.read addr 2
  .ok ((leValue b).setWidth 16)

def readU32 (c : CowRam) (addr : U32) : Except Fault U32 := do
  checkAlign addr 4 .read
  let b ← c.read addr 4
  .ok (leValue b)

/-- `write_u8`, `write_u16` and `write_u32`. -/
def writeAligned (c : CowRam) (addr : U32) (n : Nat) (v : U32) : Except Fault Unit × CowRam :=
  match checkAlign addr n .write with
  | .error e => (.error e, c)
  | .ok () => c.write addr (leBytes v n)

def fetchU16 (c : CowRam) (addr : U32) : Except Fault U16 := do
  checkAlign addr 2 .exec
  let b ← c.fetchBytes addr 2
  .ok ((leValue b).setWidth 16)

def load (c : CowRam) (addr : U32) : Nat → Except Fault U32
  | 1 => (c.readU8 addr).map (·.setWidth 32)
  | 2 => (c.readU16 addr).map (·.setWidth 32)
  | _ => c.readU32 addr

def store (c : CowRam) (addr : U32) (size : Nat) (val : U32) : Except Fault Unit × CowRam :=
  match size with
  | 1 => c.writeAligned addr 1 val
  | 2 => c.writeAligned addr 2 val
  | _ => c.writeAligned addr 4 val

/-! ## Fast path, taint shadow and reset -/

/-- `CowRam::fast_ptr`: declines a span that leaves its page; a store overlays the page first. -/
def fastPtr (c : CowRam) (addr : U32) (len : Nat) (need : U8) : Option HostPtr × CowRam :=
  match c.offset addr with
  | none => (none, c)
  | some off =>
    let pn := off / PAGE_SIZE
    let po := off % PAGE_SIZE
    if off + len > c.golden.size ∨ po + len > PAGE_SIZE then (none, c)
    else if allSpan (c.resolve pn).perms po (fastPerm need) len then
      if need &&& PERM_WRITE ≠ 0 then
        let r := c.ensurePage pn
        (some (.page r.1 po), r.2)
      else if c.dir pn = SENTINEL then (some (.golden off), c)
      else (some (.page (c.dir pn).toNat po), c)
    else (none, c)

def ptrLoad (c : CowRam) : HostPtr → Nat → List U8
  | .golden off, n => readSpan c.golden.mem off n
  | .page slot po, n => readSpan (c.page slot).mem po n
  | .mem _, n => List.replicate n 0

/-- A store through a page pointer; compiled code never stores through a golden one. -/
def ptrStore (c : CowRam) : HostPtr → List U8 → CowRam
  | .page slot po, bs => c.setPage slot { c.page slot with mem := setSpan (c.page slot).mem po bs }
  | _, _ => c

def readRawState (c : CowRam) (addr : U32) (len : Nat) : U32 :=
  rawMask (fun i =>
    match c.offset (addr + BitVec.ofNat 32 i) with
    | some off => c.permOf off &&& (PERM_RAW ||| PERM_VTAINT) ≠ 0
    | none => false) (min len 4)

/-- Scatter the first `n` bytes of the mask into the permissions from `po` on. -/
def shadePage (taintMask : U32) (n : Nat) (po : Nat) (p : CowPage) : CowPage :=
  { p with
    perms := (List.range n).foldl
      (fun f i => setAt f (po + i) (taintPerm taintMask i (f (po + i)))) p.perms }

/-- `CowRam::write_shadow`: nothing happens when the first byte is outside the window or the span
leaves its page. -/
def writeShadow (c : CowRam) (addr : U32) (len : Nat) (taintMask : U32) : CowRam :=
  match c.offset addr with
  | none => c
  | some off =>
    let n := min len 4
    if off % PAGE_SIZE + n > PAGE_SIZE then c
    else c.updatePage off (shadePage taintMask n)

/-- Drop every overlay; golden was never changed, so nothing is copied back. -/
def reset (c : CowRam) : CowRam :=
  { c with
    dir := c.dirty.foldl (fun d pn => setAt d pn.toNat SENTINEL) c.dir
    pages := []
    dirty := [] }

/-- Whether page `pn` has a private overlay. -/
def isOverlaid (c : CowRam) (pn : Nat) : Bool := pn < c.golden.numPages && c.dir pn ≠ SENTINEL

/-- The view as a bus. In the source a machine forwards to these methods one by one. -/
instance : Bus CowRam where
  load := load
  store := store
  ifetch16 := fetchU16
  readRawState := readRawState
  writeShadow := writeShadow
  fastPtr := fastPtr
  ptrLoad := ptrLoad
  ptrStore := ptrStore

end CowRam

end FuzzSoft
