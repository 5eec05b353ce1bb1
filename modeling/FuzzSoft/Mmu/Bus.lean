import FuzzSoft.Lib.Span

/-!
# Permissions, faults and the physical bus

The vocabulary of `fs-mmu`: the permission byte that stands beside every guest byte, the faults a
checked access reports, and the `Bus` trait through which the interpreter reaches RAM and devices.
A fallible operation that may have changed the state before it failed returns the state on both
outcomes, so that a partial commit is visible.
-/

namespace FuzzSoft

open Lib

abbrev U8 := BitVec 8
abbrev U16 := BitVec 16
abbrev U32 := BitVec 32
abbrev U64 := BitVec 64

/-- Load-permitted. -/
def PERM_READ : U8 := 1#8 <<< 0
/-- Store-permitted. -/
def PERM_WRITE : U8 := 1#8 <<< 1
/-- Fetch-permitted. -/
def PERM_EXEC : U8 := 1#8 <<< 2
/-- Read-after-write: the first store upgrades the byte to READ and clears this bit. -/
def PERM_RAW : U8 := 1#8 <<< 3
/-- Access bit, reserved for the coverage layer. -/
def PERM_ACC : U8 := 1#8 <<< 4
/-- The value-taint shadow of KMSAN. -/
def PERM_VTAINT : U8 := 1#8 <<< 5

/-- The bits on which the fast path declines whatever else is set. -/
def FAST_PTR_FORBIDDEN : U8 := PERM_RAW ||| PERM_ACC

/-- What an access wanted to do. -/
inductive Access where
  | read
  | write
  | exec
  deriving DecidableEq, Repr

/-- Why an access was refused. -/
inductive FaultKind where
  /-- Address outside the mapped guest window. -/
  | unmapped
  /-- Mapped, but the required permission bit was not set. -/
  | permission
  /-- Access not naturally aligned. -/
  | unaligned
  deriving DecidableEq, Repr

/-- A refused access: the faulting byte, the length of the whole access, its kind and the reason. -/
structure Fault where
  addr : U32
  len : U32
  access : Access
  kind : FaultKind
  deriving DecidableEq, Repr

/-- A host pointer that a fast path may hand out: into the flat memory plane, into the shared
golden plane, or into the page overlay of one slot. -/
inductive HostPtr where
  | mem (off : Nat)
  | golden (off : Nat)
  | page (slot po : Nat)
  deriving DecidableEq, Repr

/-- The physical bus (`fs_mmu::Bus`). No implementation changes its state on a load or a fetch, so
these two are queries. `ptrLoad` and `ptrStore` are the direct accesses that compiled code makes
through a pointer `fastPtr` returned. -/
class Bus (β : Type) where
  load : β → U32 → Nat → Except Fault U32
  store : β → U32 → Nat → U32 → Except Fault Unit × β
  ifetch16 : β → U32 → Except Fault U16
  readRawState : β → U32 → Nat → U32 := fun _ _ _ => 0
  writeShadow : β → U32 → Nat → U32 → β := fun b _ _ _ => b
  storeMayAssertInterrupt : β → U32 → Nat → Bool := fun _ _ _ => false
  fastPtr : β → U32 → Nat → U8 → Option HostPtr × β := fun b _ _ _ => (none, b)
  ptrLoad : β → HostPtr → Nat → List U8 := fun _ _ n => List.replicate n 0
  ptrStore : β → HostPtr → List U8 → β := fun b _ _ => b

/-! ## What the flat and the copy-on-write memory share -/

/-- The offset of `addr` in the window `[base, base + size)` (`Mmu::offset`, `Golden::offset`,
`CowRam::offset`). -/
def windowOffset (base : U32) (size : Nat) (addr : U32) : Option Nat :=
  if addr < base then none
  else
    let off := (addr - base).toNat
    if off < size then some off else none

/-- `check_align`: `addr` must be a multiple of `n`. -/
def checkAlign (addr : U32) (n : Nat) (access : Access) : Except Fault Unit :=
  if addr.toNat % n = 0 then .ok ()
  else .error ⟨addr, BitVec.ofNat 32 n, access, .unaligned⟩

/-- The byte-wise checked read (`read_bytewise`, and the fallback of `fetch_bytes`): each byte is
resolved at its own wrapped address, and the first one outside the window or without a bit of `need`
is reported. -/
def readLoop (offset : U32 → Option Nat) (mem perms : Nat → U8) (need : U8) (access : Access)
    (len : U32) : U32 → Nat → Except Fault (List U8)
  | _, 0 => .ok []
  | a, n + 1 =>
    match offset a with
    | none => .error ⟨a, len, access, .unmapped⟩
    | some off =>
      if perms off &&& need = 0 then .error ⟨a, len, access, .permission⟩
      else do
        let rest ← readLoop offset mem perms need access len (a + 1) n
        .ok (mem off :: rest)

/-- The byte-wise checked write (`write_bytewise`): bytes before the faulting one stay written. -/
def writeLoop {σ : Type} (offset : U32 → Option Nat) (perm : σ → Nat → U8)
    (put : σ → Nat → U8 → σ) (len : U32) : σ → U32 → List U8 → Except Fault Unit × σ
  | s, _, [] => (.ok (), s)
  | s, a, b :: bs =>
    match offset a with
    | none => (.error ⟨a, len, .write, .unmapped⟩, s)
    | some off =>
      if perm s off &&& PERM_WRITE = 0 then (.error ⟨a, len, .write, .permission⟩, s)
      else writeLoop offset perm put len (put s off b) (a + 1) bs

/-- The permission byte after a store: readable, and no longer uninitialised. -/
def writtenPerm (p : U8) : U8 := (p ||| PERM_READ) &&& ~~~PERM_RAW

/-- The permission byte after byte `i` of a taint mask was scattered into it. -/
def taintPerm (mask : U32) (i : Nat) (p : U8) : U8 :=
  if (mask >>> (8 * i)) &&& 1 ≠ 0 then p ||| PERM_VTAINT else p &&& ~~~PERM_VTAINT

/-- The byte-taint mask of a span of at most four bytes, bit `8 * i` standing for byte `i`. -/
def rawMask (tainted : Nat → Bool) (n : Nat) : U32 :=
  (List.range n).foldl (fun mask i => if tainted i then mask ||| (1#32 <<< (8 * i)) else mask) 0

/-- A permission byte the fast path accepts: all of `need`, none of the forbidden bits. -/
def fastPerm (need p : U8) : Bool := p &&& need = need && p &&& FAST_PTR_FORBIDDEN = 0

theorem windowOffset_eq_some {base : U32} {size : Nat} {addr : U32} {off : Nat} :
    windowOffset base size addr = some off ↔
      base.toNat + off = addr.toNat ∧ off < size := by
  unfold windowOffset
  split
  next h =>
    have : addr.toNat < base.toNat := h
    simp only [reduceCtorEq, false_iff]
    omega
  next h =>
    have hle : base.toNat ≤ addr.toNat := Nat.le_of_not_lt h
    have hsub : (addr - base).toNat = addr.toNat - base.toNat :=
      BitVec.toNat_sub_of_le (BitVec.le_def.2 hle)
    simp only [hsub]
    split <;> simp only [Option.some.injEq, reduceCtorEq, false_iff] <;> omega

theorem windowOffset_eq_none {base : U32} {size : Nat} {addr : U32} :
    windowOffset base size addr = none ↔
      addr.toNat < base.toNat ∨ base.toNat + size ≤ addr.toNat := by
  rw [← Option.not_isSome_iff_eq_none, Option.isSome_iff_exists]
  simp only [windowOffset_eq_some]
  constructor
  · intro h
    by_contra hc
    exact h ⟨addr.toNat - base.toNat, by omega, by omega⟩
  · rintro h ⟨off, h1, h2⟩
    omega

/-- The next address lies one offset on, unless it wraps around or leaves the window. -/
theorem windowOffset_succ {base : U32} {size : Nat} {addr : U32} {off : Nat}
    (h : windowOffset base size addr = some off) (hs : off + 1 < size)
    (hw : addr.toNat + 1 < 2 ^ 32) : windowOffset base size (addr + 1) = some (off + 1) := by
  rw [windowOffset_eq_some] at h ⊢
  have : (addr + 1).toNat = addr.toNat + 1 := by
    rw [BitVec.toNat_add]
    exact Nat.mod_eq_of_lt hw
  omega

end FuzzSoft
