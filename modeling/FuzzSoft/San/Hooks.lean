import FuzzSoft.Riscv.Cpu

/-!
# Hooks on the program counter

`fs_san::PcHooks`: allocator calls of an uninstrumented guest, learned from the program counter and
the registers. An allocation is reported when its call returns, with what was stashed at its entry;
the stash of a return address is a stack, its top first.
-/

namespace FuzzSoft

/-- `ra`, the return address. -/
def REG_RETURN_ADDR : Reg := 1
/-- `a0`, the return value. -/
def REG_RETURN_VALUE : Reg := 10
/-- `a1`, the allocation flags of every hooked allocator. -/
def GFP_FLAGS_REG : Reg := 11

/-- A page-free hook: the register of the address, and of the order if it is an argument. -/
structure PageFreeHook where
  addrReg : Reg
  orderReg : Option Reg

inductive HookEvent where
  | alloc (addr size : U32)
  | free (addr : U32)
  deriving DecidableEq, Repr

inductive PageHookEvent where
  | alloc (addr order : U32)
  | free (addr order : U32)
  deriving DecidableEq, Repr

inductive CacheAllocEvent where
  | alloc (addr cachePtr : U32)
  deriving DecidableEq, Repr

inductive KmsanAllocEvent where
  | sized (addr size gfpFlags : U32)
  | cache (addr cachePtr gfpFlags : U32)
  deriving DecidableEq, Repr

/-- The hooks by their entry address, and the calls that have not returned by their return
address. -/
structure PcHooks where
  allocs : U32 → Option Reg
  frees : U32 → Option Reg
  ksizes : U32 → Option Reg
  pending : U32 → List U32
  pendingFrees : U32 → List U32
  pageAllocs : U32 → Option (Option Reg)
  pageFrees : U32 → Option PageFreeHook
  pagePending : U32 → List U32
  cacheAllocs : U32 → Option Reg
  cachePending : U32 → List U32
  kmsanAllocPending : U32 → List (U32 × U32)
  kmsanCachePending : U32 → List (U32 × U32)

/-- Push onto the stack of a return address. -/
def pushPending {α : Type} (pending : U32 → List α) (retPc : U32) (a : α) : U32 → List α :=
  Function.update pending retPc (a :: pending retPc)

namespace PcHooks

def new : PcHooks where
  allocs := fun _ => none
  frees := fun _ => none
  ksizes := fun _ => none
  pending := fun _ => []
  pendingFrees := fun _ => []
  pageAllocs := fun _ => none
  pageFrees := fun _ => none
  pagePending := fun _ => []
  cacheAllocs := fun _ => none
  cachePending := fun _ => []
  kmsanAllocPending := fun _ => []
  kmsanCachePending := fun _ => []

section
variable (h : PcHooks) (pc : U32) (regs : Reg → U32)

def hookAlloc (entryPc : U32) (sizeReg : Reg) : PcHooks :=
  { h with allocs := Function.update h.allocs entryPc (some sizeReg) }

/-- The pointer whose usable size is asked for, if the program counter is at such a function. -/
def ksizeHit : Option U32 := (h.ksizes pc).map regs

/-- Allocations and frees of the kmalloc family. A free is reported at its return too: the allocator
writes into the object during the call. -/
def onPc : Option HookEvent × PcHooks :=
  match h.allocs pc with
  | some sizeReg =>
    (none, { h with pending := pushPending h.pending (regs REG_RETURN_ADDR) (regs sizeReg) })
  | none =>
    match h.frees pc with
    | some ptrReg =>
      (none, { h with
        pendingFrees := pushPending h.pendingFrees (regs REG_RETURN_ADDR) (regs ptrReg) })
    | none =>
      match h.pending pc with
      | size :: sizes =>
        (some (.alloc (regs REG_RETURN_VALUE) size),
          { h with pending := Function.update h.pending pc sizes })
      | [] =>
        match h.pendingFrees pc with
        | addr :: ptrs =>
          (some (.free addr), { h with pendingFrees := Function.update h.pendingFrees pc ptrs })
        | [] => (none, h)

/-- Page allocations, and page frees, which are reported at entry. -/
def onPagePc : Option PageHookEvent × PcHooks :=
  match h.pageAllocs pc with
  | some orderReg =>
    (none, { h with
      pagePending := pushPending h.pagePending (regs REG_RETURN_ADDR) (orderReg.elim 0 regs) })
  | none =>
    match h.pageFrees pc with
    | some hook => (some (.free (regs hook.addrReg) (hook.orderReg.elim 0 regs)), h)
    | none =>
      match h.pagePending pc with
      | order :: orders =>
        (some (.alloc (regs REG_RETURN_VALUE) order),
          { h with pagePending := Function.update h.pagePending pc orders })
      | [] => (none, h)

/-- Allocations from a cache, whose size the caller reads from the cache. -/
def onCacheAllocPc : Option CacheAllocEvent × PcHooks :=
  match h.cacheAllocs pc with
  | some cacheReg =>
    (none, { h with
      cachePending := pushPending h.cachePending (regs REG_RETURN_ADDR) (regs cacheReg) })
  | none =>
    match h.cachePending pc with
    | cachePtr :: ptrs =>
      (some (.alloc (regs REG_RETURN_VALUE) cachePtr),
        { h with cachePending := Function.update h.cachePending pc ptrs })
    | [] => (none, h)

/-- Both families of allocations with their flags. -/
def onKmsanAllocPc : Option KmsanAllocEvent × PcHooks :=
  match h.allocs pc with
  | some sizeReg =>
    (none, { h with
      kmsanAllocPending := pushPending h.kmsanAllocPending (regs REG_RETURN_ADDR)
        (regs sizeReg, regs GFP_FLAGS_REG) })
  | none =>
    match h.cacheAllocs pc with
    | some cacheReg =>
      (none, { h with
        kmsanCachePending := pushPending h.kmsanCachePending (regs REG_RETURN_ADDR)
          (regs cacheReg, regs GFP_FLAGS_REG) })
    | none =>
      match h.kmsanAllocPending pc with
      | (size, gfpFlags) :: rest =>
        (some (.sized (regs REG_RETURN_VALUE) size gfpFlags),
          { h with kmsanAllocPending := Function.update h.kmsanAllocPending pc rest })
      | [] =>
        match h.kmsanCachePending pc with
        | (cachePtr, gfpFlags) :: rest =>
          (some (.cache (regs REG_RETURN_VALUE) cachePtr gfpFlags),
            { h with kmsanCachePending := Function.update h.kmsanCachePending pc rest })
        | [] => (none, h)

/-- Forget the calls that have not returned. -/
def clearPending : PcHooks :=
  { h with
    pending := fun _ => []
    pendingFrees := fun _ => []
    pagePending := fun _ => []
    cachePending := fun _ => []
    kmsanAllocPending := fun _ => []
    kmsanCachePending := fun _ => [] }

end

end PcHooks

end FuzzSoft
