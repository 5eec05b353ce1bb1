import FuzzSoft.Riscv.Cpu
import FuzzSoft.Mmu.Cow

/-!
# Sv32 translation

`Cpu::xlate` and its read-only relatives. The walk over the two levels of the page table is a query
of the bus (`walk`): every way it can fail gives the same page fault and changes nothing, so only the
leaf it ends at matters. `xlateNoTlb` is the translation of a hart that has no TLB; it is not in the
source, and serves as the specification of the TLB.
-/

namespace FuzzSoft

open Lib

/-- The sv32 leaf permission and privilege decision. -/
def leafPermPrivOk (access : Access) (p : Priv) (sum mxr : Bool) (leaf : LeafBits) : Bool :=
  let permOk := match access with
    | .exec => leaf.x
    | .read => leaf.r || (mxr && leaf.x)
    | .write => leaf.w
  let privOk := match p with
    | .u => leaf.u
    | .s => !(leaf.u && (access = .exec || !sum))
    | .m => true
  permOk && privOk

/-- The page fault an access raises. -/
def pageFault (access : Access) (va : U32) : Trap :=
  .exception (match access with
    | .exec => E_INSTR_PAGE_FAULT
    | .read => E_LOAD_PAGE_FAULT
    | .write => E_STORE_PAGE_FAULT) va

namespace Hart

def sum (h : Hart) : Bool := h.csr.mstatus &&& MSTATUS_SUM ≠ 0

def mxr (h : Hart) : Bool := h.csr.mstatus &&& MSTATUS_MXR ≠ 0

/-- The access is not translated: M mode, or `satp` in bare mode. -/
def untranslated (h : Hart) (access : Access) : Bool :=
  h.effectivePriv access = .m || h.csr.satp >>> 31 = 0

/-- The leaf decision for this hart's privilege and `mstatus`. -/
def leafOk (h : Hart) (access : Access) (leaf : LeafBits) : Bool :=
  leafPermPrivOk access (h.effectivePriv access) h.sum h.mxr leaf

end Hart

/-! ## The page-table walk -/

/-- A leaf of the page table: where it stands, its word, and whether it is a superpage. -/
structure Leaf where
  addr : U32
  pte : U32
  super : Bool
  deriving DecidableEq, Repr

/-- Bit `i` of a page-table entry. -/
def pteBit (pte : U32) (i : Nat) : Bool := (pte >>> i) &&& 1 = 1

/-- The R, W, X and U bits of a page-table entry. -/
def leafBits (pte : U32) : LeafBits := ⟨pteBit pte 1, pteBit pte 2, pteBit pte 3, pteBit pte 4⟩

/-- An entry the walk refuses: not valid, or writable without being readable. -/
def pteInvalid (pte : U32) : Bool := !pteBit pte 0 || (!pteBit pte 1 && pteBit pte 2)

/-- An entry that ends the walk. -/
def pteLeaf (pte : U32) : Bool := pteBit pte 1 || pteBit pte 3

/-- The table an inner entry points to. -/
def pteTable (pte : U32) : U32 := ((pte >>> 10) &&& 0x3fffff) <<< 12

/-- The root table of `satp`. -/
def rootTable (satp : U32) : U32 := (satp &&& 0x3fffff) <<< 12

/-- The entry of table `a` for `va` at the upper level. -/
def pteAddr1 (a va : U32) : U32 := a + ((va >>> 22) &&& 0x3ff) * 4

/-- The entry of table `a` for `va` at the lower level. -/
def pteAddr0 (a va : U32) : U32 := a + ((va >>> 12) &&& 0x3ff) * 4

/-- The physical address a leaf gives `va`. -/
def leafPa (l : Leaf) (va : U32) : U32 :=
  if l.super then (field l.pte 20 0xfff <<< 22) ||| (field va 12 0x3ff <<< 12) ||| (va &&& 0xfff)
  else (field l.pte 10 0x3fffff <<< 12) ||| (va &&& 0xfff)

/-- A superpage whose low physical page bits are set. -/
def Leaf.misaligned (l : Leaf) : Bool := l.super && field l.pte 10 0x3ff ≠ 0

/-- The walk over page-table words read by `rd`, down to a leaf. -/
def walkWith (rd : U32 → Option U32) (satp va : U32) : Option Leaf := do
  let a1 := pteAddr1 (rootTable satp) va
  let pte1 ← rd a1
  if pteInvalid pte1 then none
  else if pteLeaf pte1 then some ⟨a1, pte1, true⟩
  else
    let a0 := pteAddr0 (pteTable pte1) va
    let pte0 ← rd a0
    if pteInvalid pte0 then none
    else if pteLeaf pte0 then some ⟨a0, pte0, false⟩
    else none

/-- The leaf must be written back: A is clear, or D is clear and the access is a write. -/
def needsAd (access : Access) (pte : U32) : Bool :=
  !pteBit pte 6 || (access = .write && !pteBit pte 7)

/-- The entry with A set, and D for a write. -/
def withAd (access : Access) (pte : U32) : U32 :=
  pte ||| (1#32 <<< 6) ||| (if access = .write then 1#32 <<< 7 else 0)

section
variable {β : Type} [Bus β]

/-- A page-table word as the walk reads it. -/
def loadPte (bus : β) (addr : U32) : Option U32 := (Bus.load bus addr 4).toOption

/-- The walk over the bus. -/
def walk (bus : β) (satp va : U32) : Option Leaf := walkWith (loadPte bus) satp va

/-- Set the A and D bits of a leaf that needs it. -/
def updateAd (bus : β) (access : Access) (l : Leaf) : Except Fault Unit × β :=
  if needsAd access l.pte then Bus.store bus l.addr 4 (withAd access l.pte) else (.ok (), bus)

/-- The leaf the walk ends at, provided this hart may use it for the access. -/
def usableLeaf (h : Hart) (bus : β) (va : U32) (access : Access) : Option Leaf :=
  match walk bus h.csr.satp va with
  | some l => if h.leafOk access (leafBits l.pte) && !l.misaligned then some l else none
  | none => none

/-- The TLB entry of a leaf after an access. -/
def leafEntry (va : U32) (access : Access) (l : Leaf) : TlbEntry where
  vpn := va >>> 12
  ppn := leafPa l va >>> 12
  bits := leafBits l.pte
  dSet := access = .write || pteBit l.pte 7

/-- The walk, the A/D write-back and the TLB refill of `xlate`. -/
def walkFill (va : U32) (access : Access) : Exec β U32 := fun s =>
  match usableLeaf s.hart s.bus va access with
  | none => (.error (pageFault access va), s)
  | some l =>
    match updateAd s.bus access l with
    | (.error _, bus) => (.error (pageFault access va), { s with bus := bus })
    | (.ok _, bus) =>
      (.ok (leafPa l va),
        { cpu := { s.cpu with tlb := s.cpu.tlb.insert (leafEntry va access l) }, bus := bus })

/-- The page of a TLB entry joined with the page offset of `va`. -/
def entryPa (e : TlbEntry) (va : U32) : U32 := (e.ppn <<< 12) ||| (va &&& 0xfff)

/-- Translate `va` for an access, through the TLB. -/
def xlate (va : U32) (access : Access) : Exec β U32 := fun s =>
  if s.hart.untranslated access then (.ok va, s)
  else
    match s.cpu.tlb.get (va >>> 12) with
    | some e =>
      if !s.hart.leafOk access e.bits then (.error (pageFault access va), s)
      else if !(access = .write && !e.dSet) then (.ok (entryPa e va), s)
      else walkFill va access s
    | none => walkFill va access s

/-- Translate `va` without any TLB: walk every time. -/
def xlateNoTlb (va : U32) (access : Access) (h : Hart) (bus : β) : Except Trap U32 × β :=
  if h.untranslated access then (.ok va, bus)
  else
    match usableLeaf h bus va access with
    | none => (.error (pageFault access va), bus)
    | some l =>
      match updateAd bus access l with
      | (.error _, bus) => (.error (pageFault access va), bus)
      | (.ok _, bus) => (.ok (leafPa l va), bus)

end

/-- The translation that `xlate` would give without touching anything (`Cpu::fast_pa`). -/
def Cpu.fastPa (c : Cpu) (va : U32) (access : Access) : Option U32 :=
  if c.toHart.untranslated access then some va
  else
    match c.tlb.get (va >>> 12) with
    | none => none
    | some e =>
      if !c.toHart.leafOk access e.bits then none
      else if access = .write && !e.dSet then none
      else some (entryPa e va)

/-- A walk over the golden image that changes nothing and declines on any doubt
(`Cpu::xlate_golden_readonly`). -/
def xlateGoldenReadonly (h : Hart) (golden : Golden) (va : U32) (access : Access)
    (pageOverlaid : U32 → Bool) : Option U32 :=
  if h.untranslated access then some va
  else
    match walkWith (fun a => if pageOverlaid a then none else golden.readU32 a) h.csr.satp va with
    | none => none
    | some l =>
      if !h.leafOk access (leafBits l.pte) then none
      else if l.misaligned then none
      else if needsAd access l.pte then none
      else some (leafPa l va)

end FuzzSoft
