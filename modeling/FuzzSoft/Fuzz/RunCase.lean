import FuzzSoft.Fuzz.Case
import FuzzSoft.Lib.Loop
import FuzzSoft.San.Alloc
import FuzzSoft.San.Hooks

/-!
# A case with sanitizer contexts

`run_case` with a `SanCtx` or a `KmsanCtx`: before each pass of the driver loop the hooks see the
program counter, and an allocator event stamps permission bytes of RAM. The stamps bypass the dirty
blocks, so a context logs the ranges it stamps (`mark_dirtied`) and puts the golden permissions back
after the next reset (`restore_dirtied_perms`).
-/

namespace FuzzSoft

open Lib

/-! ## The log of stamped ranges -/

/-- What both contexts keep to undo their stamps. -/
structure StampLog where
  goldenPerms : List U8
  ramBase : U32
  dirtied : List (U32 × U32)

namespace StampLog

/-- Log `[addr, addr + len)`. -/
def markDirtied (l : StampLog) (addr len : U32) : StampLog :=
  if len = 0 then l else { l with dirtied := l.dirtied ++ [(addr, len)] }

/-- Put the golden permission of byte `i` of a range back. -/
def restoreByte (l : StampLog) (addr : U32) (m : Mmu) (i : Nat) : Mmu :=
  let a := addr + BitVec.ofNat 32 i
  if a < l.ramBase then m
  else
    match l.goldenPerms[(a - l.ramBase).toNat]? with
    | some p => (m.protect a 1 p).2
    | none => m

def restoreRange (l : StampLog) (m : Mmu) (r : U32 × U32) : Mmu :=
  (List.range r.2.toNat).foldl (l.restoreByte r.1) m

/-- Put the golden permissions of every logged range back and clear the log. -/
def restoreDirtiedPerms (l : StampLog) (m : Mmu) : StampLog × Mmu :=
  ({ l with dirtied := [] }, l.dirtied.foldl l.restoreRange m)

end StampLog

/-! ## The sanitizer context -/

/-- `struct kmem_cache::object_size`. -/
def KMEM_CACHE_OBJECT_SIZE_OFFSET : U32 := 16
def KMEM_CACHE_OBJECT_SIZE_MAX : U32 := 0x00100000
/-- `struct kmem_cache::ctor`. -/
def KMEM_CACHE_CTOR_OFFSET : U32 := 52
/-- `__GFP_ZERO`. -/
def GFP_ZERO : U32 := 0x100

/-- The object size of a cache, if it can be read and is plausible. -/
def cacheObjectSize (m : Mmu) (cachePa : U32) : Option U32 :=
  match m.readU32 (cachePa + KMEM_CACHE_OBJECT_SIZE_OFFSET) with
  | .ok objectSize =>
    if 0 < objectSize ∧ objectSize < KMEM_CACHE_OBJECT_SIZE_MAX then some objectSize else none
  | .error _ => none

/-- The constructor of a cache looks like a kernel address. -/
def cacheHasCtor (m : Mmu) (cachePa : U32) : Bool :=
  match m.readU32 (cachePa + KMEM_CACHE_CTOR_OFFSET) with
  | .ok ctor => PAGE_OFFSET ≤ ctor
  | .error _ => false

structure SanCtx extends StampLog where
  hooks : PcHooks
  san : Sanitizer
  pageSan : PageSanitizer
  lm : LinearMap
  allocs : U64
  frees : U64
  bytes : U64
  pageAllocs : U64
  pageFrees : U64
  sanErrors : U64
  cacheAllocs : U64
  cacheBytes : U64
  cacheAllocSizeUnavailable : U64

namespace SanCtx

def markDirtied (ctx : SanCtx) (addr len : U32) : SanCtx :=
  { ctx with toStampLog := ctx.toStampLog.markDirtied addr len }

/-- Log the live allocation at an address, if there is one. -/
def markLive (ctx : SanCtx) (pa : U32) : SanCtx :=
  match ctx.san.liveSize pa with
  | some bucket => ctx.markDirtied pa bucket
  | none => ctx

/-- Log a page range, if its order is plausible. -/
def markPages (ctx : SanCtx) (pa order : U32) : SanCtx :=
  match PageSanitizer.pageRangeLen order with
  | some len => ctx.markDirtied pa len
  | none => ctx

def countError (ctx : SanCtx) : SanCtx := { ctx with sanErrors := ctx.sanErrors + 1 }

/-- A kmalloc at a physical address. The payload is readable at once: the call may have zeroed it. -/
def kmalloc (ctx : SanCtx) (m : Mmu) (pa size : U32) : SanCtx × Mmu :=
  let bucket := kmallocBucket size
  let ctx := ctx.markDirtied pa bucket
  match ctx.san.allocWithSlack m pa size bucket with
  | (.ok (), san, m) =>
    ({ ctx with san := san }, (m.protect pa size.toNat (PERM_WRITE ||| PERM_READ)).2)
  | (.error _, san, m) => ({ ctx with san := san }.countError, m)

def kfree (ctx : SanCtx) (m : Mmu) (pa : U32) : SanCtx × Mmu :=
  let ctx := ctx.markLive pa
  match ctx.san.free m pa with
  | (.ok (), san, m) => ({ ctx with san := san }, m)
  | (.error _, san, m) => ({ ctx with san := san }.countError, m)

/-- A query of the usable size: the whole slot becomes accessible. -/
def ksize (ctx : SanCtx) (m : Mmu) (pa : U32) : SanCtx × Mmu :=
  let ctx := ctx.markLive pa
  match ctx.san.reopenSlack m pa with
  | (.ok (), m) =>
    match ctx.san.liveSize pa with
    | some bucket => (ctx, (m.protect pa bucket.toNat (PERM_WRITE ||| PERM_READ)).2)
    | none => (ctx, m)
  | (.error _, m) => (ctx.countError, m)

/-- An allocation from a cache at a physical address. -/
def cacheAlloc (ctx : SanCtx) (m : Mmu) (pa cachePa : U32) : SanCtx × Mmu :=
  match cacheObjectSize m cachePa with
  | some objectSize =>
    let ctx := { ctx with
      cacheAllocs := ctx.cacheAllocs + 1
      cacheBytes := ctx.cacheBytes + objectSize.setWidth 64 }
    let ctx := ctx.markDirtied pa objectSize
    match ctx.san.allocExactNoUafGuard m pa objectSize with
    | (.ok (), san, m) =>
      ({ ctx with san := san }, (m.protect pa objectSize.toNat (PERM_WRITE ||| PERM_READ)).2)
    | (.error _, san, m) => ({ ctx with san := san }.countError, m)
  | none => ({ ctx with cacheAllocSizeUnavailable := ctx.cacheAllocSizeUnavailable + 1 }, m)

def allocPages (ctx : SanCtx) (m : Mmu) (pa order : U32) : SanCtx × Mmu :=
  let ctx := ctx.markPages pa order
  match ctx.pageSan.allocPages m pa order with
  | (.ok (), pageSan, m) => ({ ctx with pageSan := pageSan }, m)
  | (.error _, pageSan, m) => ({ ctx with pageSan := pageSan }.countError, m)

def freePages (ctx : SanCtx) (m : Mmu) (pa order : U32) : SanCtx × Mmu :=
  let ctx := ctx.markPages pa order
  match ctx.pageSan.freePages m pa order with
  | (.ok (), pageSan, m) => ({ ctx with pageSan := pageSan }, m)
  | (.error _, pageSan, m) => ({ ctx with pageSan := pageSan }.countError, m)

section
variable (ctx : SanCtx) (pc : U32) (regs : Reg → U32) (m : Mmu)

/-- kmalloc and kfree. -/
def onHeap : SanCtx × Mmu :=
  let r := ctx.hooks.onPc pc regs
  let ctx := { ctx with hooks := r.2 }
  match r.1 with
  | some (.alloc addr size) =>
    let ctx := { ctx with allocs := ctx.allocs + 1, bytes := ctx.bytes + size.setWidth 64 }
    match ctx.lm.vaToPa addr with
    | some pa => ctx.kmalloc m pa size
    | none => (ctx, m)
  | some (.free addr) =>
    let ctx := { ctx with frees := ctx.frees + 1 }
    match ctx.lm.vaToPa addr with
    | some pa => ctx.kfree m pa
    | none => (ctx, m)
  | none => (ctx, m)

def onKsize : SanCtx × Mmu :=
  match (ctx.hooks.ksizeHit pc regs).bind ctx.lm.vaToPa with
  | some pa => ctx.ksize m pa
  | none => (ctx, m)

def onCacheAlloc : SanCtx × Mmu :=
  let r := ctx.hooks.onCacheAllocPc pc regs
  let ctx := { ctx with hooks := r.2 }
  match r.1 with
  | some (.alloc addr cachePtr) =>
    match ctx.lm.vaToPa addr, ctx.lm.vaToPa cachePtr with
    | some pa, some cachePa => ctx.cacheAlloc m pa cachePa
    | _, _ => (ctx, m)
  | none => (ctx, m)

def onPages : SanCtx × Mmu :=
  let r := ctx.hooks.onPagePc pc regs
  let ctx := { ctx with hooks := r.2 }
  match r.1 with
  | some (.alloc addr order) =>
    let ctx := { ctx with pageAllocs := ctx.pageAllocs + 1 }
    match ctx.lm.vaToPa addr with
    | some pa => ctx.allocPages m pa order
    | none => (ctx, m)
  | some (.free addr order) =>
    let ctx := { ctx with pageFrees := ctx.pageFrees + 1 }
    match ctx.lm.vaToPa addr with
    | some pa => ctx.freePages m pa order
    | none => (ctx, m)
  | none => (ctx, m)

/-- The sanitizer block of a pass: the four families one after another. -/
def fire : SanCtx × Mmu :=
  let (ctx, m) := ctx.onHeap pc regs m
  let (ctx, m) := ctx.onKsize pc regs m
  let (ctx, m) := ctx.onCacheAlloc pc regs m
  ctx.onPages pc regs m

end

/-- The context at the start of the next case, after a reset. -/
def restart (ctx : SanCtx) (m : Mmu) : SanCtx × Mmu :=
  let (l, m) := ctx.toStampLog.restoreDirtiedPerms m
  ({ ctx with
      toStampLog := l
      san := .new DEFAULT_REDZONE
      pageSan := .new
      hooks := ctx.hooks.clearPending }, m)

end SanCtx

/-! ## The taint context -/

structure KmsanCtx extends StampLog where
  hooks : PcHooks
  lm : LinearMap
  taintedAllocs : U64
  taintedBytes : U64
  zeroedSkipped : U64
  cacheSizeUnavailable : U64
  ctorSkipped : U64

namespace KmsanCtx

/-- Taint a fresh payload. -/
def seed (ctx : KmsanCtx) (m : Mmu) (pa size : U32) : KmsanCtx × Mmu :=
  let ctx := { ctx with toStampLog := ctx.toStampLog.markDirtied pa size }
  match m.setVtaint pa size.toNat true with
  | (.ok (), m) =>
    ({ ctx with
        taintedAllocs := ctx.taintedAllocs + 1
        taintedBytes := ctx.taintedBytes + size.setWidth 64 }, m)
  | (.error _, m) => (ctx, m)

section
variable (ctx : KmsanCtx) (pc : U32) (regs : Reg → U32) (m : Mmu)

/-- The taint block of a pass. Zeroed payloads and objects with a constructor are initialised. -/
def fire : KmsanCtx × Mmu :=
  let r := ctx.hooks.onKmsanAllocPc pc regs
  let ctx := { ctx with hooks := r.2 }
  match r.1 with
  | some (.sized addr size gfpFlags) =>
    match ctx.lm.vaToPa addr with
    | some pa =>
      if gfpFlags &&& GFP_ZERO ≠ 0 then ({ ctx with zeroedSkipped := ctx.zeroedSkipped + 1 }, m)
      else ctx.seed m pa size
    | none => (ctx, m)
  | some (.cache addr cachePtr gfpFlags) =>
    match ctx.lm.vaToPa addr, ctx.lm.vaToPa cachePtr with
    | some pa, some cachePa =>
      match cacheObjectSize m cachePa with
      | some objectSize =>
        if gfpFlags &&& GFP_ZERO ≠ 0 then ({ ctx with zeroedSkipped := ctx.zeroedSkipped + 1 }, m)
        else if cacheHasCtor m cachePa then ({ ctx with ctorSkipped := ctx.ctorSkipped + 1 }, m)
        else ctx.seed m pa objectSize
      | none => ({ ctx with cacheSizeUnavailable := ctx.cacheSizeUnavailable + 1 }, m)
    | _, _ => (ctx, m)
  | none => (ctx, m)

end

/-- The context at the start of the next case, after a reset. -/
def restart (ctx : KmsanCtx) (m : Mmu) : KmsanCtx × Mmu :=
  let (l, m) := ctx.toStampLog.restoreDirtiedPerms m
  ({ ctx with toStampLog := l, hooks := ctx.hooks.clearPending }, m)

end KmsanCtx

/-! ## The loop -/

/-- The machine of a case with its map and its contexts. -/
structure FuzzCase where
  sys : Sys Machine
  cov : CovBitmap MAP_SIZE
  san : Option SanCtx
  kmsan : Option KmsanCtx

namespace FuzzCase

/-- Another RAM. -/
def withRam (c : FuzzCase) (ram : Mmu) : FuzzCase :=
  { c with sys := { c.sys with bus := { c.sys.bus with ram := ram } } }

/-- The sanitizer block, if there is a context. -/
def fireSan (c : FuzzCase) : FuzzCase :=
  match c.san with
  | some ctx =>
    let r := ctx.fire c.sys.hart.pc c.sys.hart.regs c.sys.bus.ram
    { c.withRam r.2 with san := some r.1 }
  | none => c

/-- The taint block, if there is a context. -/
def fireKmsan (c : FuzzCase) : FuzzCase :=
  match c.kmsan with
  | some ctx =>
    let r := ctx.fire c.sys.hart.pc c.sys.hart.regs c.sys.bus.ram
    { c.withRam r.2 with kmsan := some r.1 }
  | none => c

/-- A pass of `run_case`. -/
def pass (deadline : U64) (c : FuzzCase) : (Stop × FuzzCase) ⊕ FuzzCase :=
  if c.sys.hart.insnsRetired < deadline then
    let c := c.fireSan.fireKmsan
    let r := driverStep c.sys
    match r.1 with
    | .continue =>
      .inr { c with sys := r.2, cov := recordTransfer c.cov c.sys.hart.pc r.2.hart.pc }
    | .halt code => .inl (.halt code, { c with sys := r.2 })
    | .hypercall cmd => .inl (.hypercall cmd, { c with sys := r.2 })
  else .inl (.budget, c)

/-- The reset between two cases: the snapshot first, then what each context has stamped. -/
def restart (snap : Snapshot) (c : FuzzCase) : FuzzCase :=
  let c := { c with sys := snap.reset c.sys }
  let c :=
    match c.san with
    | some ctx =>
      let r := ctx.restart c.sys.bus.ram
      { c.withRam r.2 with san := some r.1 }
    | none => c
  match c.kmsan with
  | some ctx =>
    let r := ctx.restart c.sys.bus.ram
    { c.withRam r.2 with kmsan := some r.1 }
  | none => c

end FuzzCase

end FuzzSoft
