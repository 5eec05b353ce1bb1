import FuzzSoft.Lib.Pairing
import FuzzSoft.San.Hooks

/-!
# Hooked calls are paired with their returns

The four hook families of `PcHooks` are observers that pair entries with returns by the return
address: `PcHooks.on_feed` says so of each of them. They see no threads. A return is given what was
captured last for its address, so with the threads of a guest a family is right as long as every
return ends one hooked call, and the newest of those that wait for its address
(`hooks_pair_calls`). Two threads that share a call site and return in the order of their calls get
each other's size (`hooks_mispair`).
-/

namespace FuzzSoft

open Lib

/-- The families of hooks, each with a query of its own. -/
inductive HookFamily where
  | kmalloc
  | page
  | cache
  | kmsan

namespace HookFamily

/-- What an entry of the family captures. -/
abbrev Captured : HookFamily → Type
  | .kmsan => U32 × U32
  | _ => U32

abbrev Event : HookFamily → Type
  | .kmalloc => HookEvent
  | .page => PageHookEvent
  | .cache => CacheAllocEvent
  | .kmsan => KmsanAllocEvent

end HookFamily

namespace PcHooks

/-- The query of a family. -/
def on (f : HookFamily) (h : PcHooks) (pc : U32) (regs : Reg → U32) : Option f.Event × PcHooks :=
  match f with
  | .kmalloc => h.onPc pc regs
  | .page => h.onPagePc pc regs
  | .cache => h.onCacheAllocPc pc regs
  | .kmsan => h.onKmsanAllocPc pc regs

/-! ## The families as observers -/

/-- The hooked entries of a family, and what is reported of a call that returned. -/
def watch (f : HookFamily) (h : PcHooks) : Watch U32 (Reg → U32) f.Captured f.Event :=
  match f with
  | .kmalloc => {
      entry := fun pc =>
        match h.allocs pc with
        | some sizeReg => some (.wait false fun regs => regs sizeReg)
        | none => (h.frees pc).map fun ptrReg => .wait true fun regs => regs ptrReg
      retAddr := fun regs => regs REG_RETURN_ADDR
      event := fun
        | false, size, regs => .alloc (regs REG_RETURN_VALUE) size
        | true, addr, _ => .free addr }
  | .page => {
      entry := fun pc =>
        match h.pageAllocs pc with
        | some orderReg => some (.wait false fun regs => orderReg.elim 0 regs)
        | none => (h.pageFrees pc).map fun hook =>
          .now fun regs => .free (regs hook.addrReg) (hook.orderReg.elim 0 regs)
      retAddr := fun regs => regs REG_RETURN_ADDR
      event := fun _ order regs => .alloc (regs REG_RETURN_VALUE) order }
  | .cache => {
      entry := fun pc => (h.cacheAllocs pc).map fun cacheReg => .wait false fun regs => regs cacheReg
      retAddr := fun regs => regs REG_RETURN_ADDR
      event := fun _ cachePtr regs => .alloc (regs REG_RETURN_VALUE) cachePtr }
  | .kmsan => {
      entry := fun pc =>
        match h.allocs pc with
        | some sizeReg => some (.wait false fun regs => (regs sizeReg, regs GFP_FLAGS_REG))
        | none => (h.cacheAllocs pc).map fun cacheReg =>
          .wait true fun regs => (regs cacheReg, regs GFP_FLAGS_REG)
      retAddr := fun regs => regs REG_RETURN_ADDR
      event := fun
        | false, v, regs => .sized (regs REG_RETURN_VALUE) v.1 v.2
        | true, v, regs => .cache (regs REG_RETURN_VALUE) v.1 v.2 }

/-- The pending calls of a family. -/
def stash (f : HookFamily) (h : PcHooks) : Stash U32 f.Captured :=
  match f with
  | .kmalloc => fun
    | false => h.pending
    | true => h.pendingFrees
  | .page => fun
    | false => h.pagePending
    | true => fun _ => []
  | .cache => fun
    | false => h.cachePending
    | true => fun _ => []
  | .kmsan => fun
    | false => h.kmsanAllocPending
    | true => h.kmsanCachePending

/-- Changing one channel of a family at one address. -/
theorem set_stash {α : Type} {s s' : Stash U32 α} {late : Bool} {k : U32} {vs : List α}
    (hlate : s' late = Function.update (s late) k vs) (hother : s' (!late) = s (!late)) :
    s' = s.set late k vs := by
  funext l j
  unfold Stash.set
  cases l <;> cases late <;> simp_all [Function.update_apply]

/-- A family's query is its observer's tick, and leaves the hooks as they are. -/
theorem on_feed (f : HookFamily) (h : PcHooks) (pc : U32) (regs : Reg → U32) :
    ((h.on f pc regs).1.toList, (h.on f pc regs).2.stash f) = (h.watch f).feed (h.stash f) pc regs ∧
      (h.on f pc regs).2.watch f = h.watch f := by
  cases f with
  | kmalloc =>
    simp only [on, watch, stash, onPc, Watch.feed]
    cases h.allocs pc with
    | some r => exact ⟨Prod.ext rfl (set_stash rfl rfl), rfl⟩
    | none =>
      cases h.frees pc with
      | some r => exact ⟨Prod.ext rfl (set_stash rfl rfl), rfl⟩
      | none =>
        dsimp only [Option.map_none]
        cases h.pending pc with
        | cons v vs => exact ⟨Prod.ext rfl (set_stash rfl rfl), rfl⟩
        | nil =>
          dsimp only
          cases h.pendingFrees pc with
          | cons v vs => exact ⟨Prod.ext rfl (set_stash rfl rfl), rfl⟩
          | nil => exact ⟨rfl, rfl⟩
  | page =>
    simp only [on, watch, stash, onPagePc, Watch.feed]
    cases h.pageAllocs pc with
    | some r => exact ⟨Prod.ext rfl (set_stash rfl rfl), rfl⟩
    | none =>
      cases h.pageFrees pc with
      | some r => exact ⟨rfl, rfl⟩
      | none =>
        dsimp only [Option.map_none]
        cases h.pagePending pc with
        | cons v vs => exact ⟨Prod.ext rfl (set_stash rfl rfl), rfl⟩
        | nil => exact ⟨rfl, rfl⟩
  | cache =>
    simp only [on, watch, stash, onCacheAllocPc, Watch.feed]
    cases h.cacheAllocs pc with
    | some r => exact ⟨Prod.ext rfl (set_stash rfl rfl), rfl⟩
    | none =>
      dsimp only [Option.map_none]
      cases h.cachePending pc with
      | cons v vs => exact ⟨Prod.ext rfl (set_stash rfl rfl), rfl⟩
      | nil => exact ⟨rfl, rfl⟩
  | kmsan =>
    simp only [on, watch, stash, onKmsanAllocPc, Watch.feed]
    cases h.allocs pc with
    | some r => exact ⟨Prod.ext rfl (set_stash rfl rfl), rfl⟩
    | none =>
      cases h.cacheAllocs pc with
      | some r => exact ⟨Prod.ext rfl (set_stash rfl rfl), rfl⟩
      | none =>
        dsimp only [Option.map_none]
        cases h.kmsanAllocPending pc with
        | cons v vs => exact ⟨Prod.ext rfl (set_stash rfl rfl), rfl⟩
        | nil =>
          dsimp only
          cases h.kmsanCachePending pc with
          | cons v vs => exact ⟨Prod.ext rfl (set_stash rfl rfl), rfl⟩
          | nil => exact ⟨rfl, rfl⟩

/-- One tick of a guest, seen by a family. -/
def onTick {τ : Type} (f : HookFamily) (h : PcHooks) (x : Tick τ U32 (Reg → U32)) :
    List f.Event × PcHooks := ((h.on f x.pc x.regs).1.toList, (h.on f x.pc x.regs).2)

/-- The hooks and the threads, the newest open call first. -/
structure Tracks {τ : Type} (f : HookFamily) (h h' : PcHooks) (opn : List (Call τ U32 f.Captured)) :
    Prop where
  watch : h'.watch f = h.watch f
  holds : Holds (h'.stash f) opn

theorem Tracks.tick {τ : Type} [DecidableEq τ] {f : HookFamily} {h h' : PcHooks}
    {opn : List (Call τ U32 f.Captured)} {x : Tick τ U32 (Reg → U32)} (ht : Tracks f h h' opn)
    (hp : Proper opn x) (ho : (h.watch f).Orderly opn x) :
    (onTick f h' x).1 = ((h.watch f).calls opn x).1 ∧
      Tracks f h (onTick f h' x).2 ((h.watch f).calls opn x).2 := by
  obtain ⟨hfeed, hwatch⟩ := on_feed f h' x.pc x.regs
  obtain ⟨hout, hholds⟩ := Watch.feed_calls ht.holds hp ho
  rw [ht.watch] at hfeed hwatch
  rw [← hfeed] at hout hholds
  exact ⟨hout, hwatch, hholds⟩

end PcHooks

/-! ## Runs of a guest -/

open PcHooks in
/-- If every return ends one hooked call, the newest of those that wait for its address, a family
reports at every tick exactly the calls that end there, each with what its own entry captured, and
when all calls have returned nothing is pending. -/
theorem hooks_pair_calls {τ : Type} [DecidableEq τ] (f : HookFamily) {h : PcHooks}
    (hnew : ∀ late pc, h.stash f late pc = []) {trace : List (Tick τ U32 (Reg → U32))}
    (hp : Along (h.watch f).calls Proper [] trace)
    (ho : Along (h.watch f).calls (h.watch f).Orderly [] trace) :
    (run (onTick f) h trace).1 = (run (h.watch f).calls [] trace).1 ∧
      ((run (h.watch f).calls [] trace).2 = [] →
        ∀ late pc, (run (onTick f) h trace).2.stash f late pc = []) := by
  have h0 : Tracks f h h ([] : List (Call τ U32 f.Captured)) := ⟨rfl, hnew⟩
  obtain ⟨hout, ht⟩ := @run_lockstep _ _ _ _ (h.watch f).calls (onTick f)
    (fun opn x => Proper opn x ∧ (h.watch f).Orderly opn x) (fun opn h' => Tracks f h h' opn)
    (fun ht hok => ht.tick hok.1 hok.2) _ _ h0 _ (hp.and ho)
  refine ⟨hout, fun hnil late pc => ?_⟩
  rw [ht.holds late pc, hnil]
  rfl

/-- `kmalloc` at `0x1000` with its size in `a0`, and `kfree` at `0x1100`. -/
def slabHooks : PcHooks :=
  { PcHooks.new with
    allocs := fun pc => if pc = 0x1000 then some 10 else none
    frees := fun pc => if pc = 0x1100 then some 10 else none }

/-- A thread enters a function with `a0`, called from before `ra`. -/
def entersWith (tid : Nat) (pc a0 ra : U32) : Tick Nat U32 (Reg → U32) :=
  ⟨tid, pc, fun i => if i = 10 then a0 else if i = 1 then ra else 0, 0⟩

/-- A call of a thread returns with `a0`. -/
def returnsWith (tid : Nat) (pc a0 : U32) : Tick Nat U32 (Reg → U32) :=
  ⟨tid, pc, fun i => if i = 10 then a0 else 0, 1⟩

/-- A second thread allocates at the same call site, and returns first; then one frees. -/
def nestedThreads : List (Tick Nat U32 (Reg → U32)) :=
  [entersWith 0 0x1000 8 0x2000, entersWith 1 0x1000 64 0x2000, returnsWith 1 0x2000 0x80002000,
    returnsWith 0 0x2000 0x80001000, entersWith 1 0x1100 0x80002000 0x2100,
    returnsWith 1 0x2100 0]

theorem hooks_pair_calls_nested :
    (run (PcHooks.onTick .kmalloc) slabHooks nestedThreads).1 =
        (run (slabHooks.watch .kmalloc).calls [] nestedThreads).1 ∧
      ((run (slabHooks.watch .kmalloc).calls [] nestedThreads).2 = [] →
        ∀ late pc, (run (PcHooks.onTick .kmalloc) slabHooks nestedThreads).2.stash .kmalloc late pc =
          []) :=
  hooks_pair_calls .kmalloc (fun late pc => by cases late <;> rfl) (by decide +kernel)
    (by decide +kernel)

/-- The first thread returns first: both wait for the same address. -/
def crossedThreads : List (Tick Nat U32 (Reg → U32)) :=
  [entersWith 0 0x1000 8 0x2000, entersWith 1 0x1000 64 0x2000, returnsWith 0 0x2000 0x80001000,
    returnsWith 1 0x2000 0x80002000]

/-- The object of 8 bytes is reported with 64 bytes, and the other way round. -/
theorem hooks_mispair :
    ¬ ∀ (f : HookFamily) (h : PcHooks) (trace : List (Tick Nat U32 (Reg → U32))),
      (∀ late pc, h.stash f late pc = []) → Along (h.watch f).calls Proper [] trace →
      (run (PcHooks.onTick f) h trace).1 = (run (h.watch f).calls [] trace).1 ∧
        ((run (h.watch f).calls [] trace).2 = [] →
          ∀ late pc, (run (PcHooks.onTick f) h trace).2.stash f late pc = []) := by
  intro hall
  have hout := (hall .kmalloc slabHooks crossedThreads (fun late pc => by cases late <;> rfl)
    (by decide +kernel)).1
  have hcode : (run (PcHooks.onTick .kmalloc) slabHooks crossedThreads).1 =
      [[], [], [.alloc 0x80001000 64], [.alloc 0x80002000 8]] := by decide +kernel
  have hspec : (run (slabHooks.watch .kmalloc).calls [] crossedThreads).1 =
      [[], [], [.alloc 0x80001000 8], [.alloc 0x80002000 64]] := by decide +kernel
  rw [hcode, hspec] at hout
  exact absurd hout (by decide)

end FuzzSoft
