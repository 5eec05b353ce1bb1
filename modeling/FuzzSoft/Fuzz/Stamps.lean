import FuzzSoft.Fuzz.RunCase

/-!
# Stamps never leak

A reset followed by `restore_dirtied_perms` undoes a whole run of `run_case`. Each dispatch site logs
a range that covers everything its sanitizer operation stamps, also when the operation fails midway
(`Tracked`), so that during a case the memory is the golden one but for dirty blocks and logged
ranges (`Undoable`). The exception is a kmalloc of more than `2 ^ 31` bytes: its slot size wraps to
zero and nothing is logged, while the payload is stamped to the end of RAM.
-/

namespace FuzzSoft

open Lib

/-! ## Logged ranges -/

/-- `off` lies in one of the ranges. -/
def Covered (m : Mmu) (rs : List (U32 × U32)) (off : Nat) : Prop :=
  ∃ r ∈ rs, m.Covers r.1 r.2.toNat off

/-- More ranges cover more. -/
theorem Covered.mono {m : Mmu} {rs rs' : List (U32 × U32)} {off : Nat} (h : Covered m rs off)
    (hsub : ∀ r ∈ rs, r ∈ rs') : Covered m rs' off := by
  obtain ⟨r, hr, hc⟩ := h
  exact ⟨r, hsub r hr, hc⟩

/-- A dispatch site logs everything it stamps. -/
structure Tracked (l l' : StampLog) (m m' : Mmu) : Prop where
  goldenPerms : l'.goldenPerms = l.goldenPerms
  ramBase : l'.ramBase = l.ramBase
  grows : ∀ r ∈ l.dirtied, r ∈ l'.dirtied
  stamped : Mmu.Stamped (Covered m l'.dirtied) m m'

section
variable {l l' l'' : StampLog} {m m' m'' : Mmu}

/-- Nothing stamped is tracked. -/
theorem Tracked.refl (l : StampLog) (m : Mmu) : Tracked l l m m :=
  ⟨rfl, rfl, fun _ hr => hr, .refl m⟩

/-- Tracked changes compose: the log only grows. -/
theorem Tracked.trans (h : Tracked l l' m m') (h' : Tracked l' l'' m' m'') :
    Tracked l l'' m m'' := by
  refine ⟨h'.goldenPerms.trans h.goldenPerms, h'.ramBase.trans h.ramBase,
    fun r hr => h'.grows r (h.grows r hr), ?_⟩
  refine (h.stamped.mono fun off hc => hc.mono h'.grows).trans (h'.stamped.mono fun off hc => ?_)
  obtain ⟨r, hr, hc⟩ := hc
  exact ⟨r, hr, h.stamped.covers.1 hc⟩

/-- Noting a range stamps nothing. -/
theorem tracked_markDirtied (l : StampLog) (m : Mmu) (addr len : U32) :
    Tracked l (l.markDirtied addr len) m m := by
  unfold StampLog.markDirtied
  split
  · exact .refl l m
  · exact ⟨rfl, rfl, fun r hr => List.mem_append_left _ hr, .refl m⟩

/-- A marked range is covered. -/
theorem covered_markDirtied {addr len : U32} {off : Nat} (h : m.Covers addr len.toNat off) :
    Covered m (l.markDirtied addr len).dirtied off := by
  unfold StampLog.markDirtied
  split
  next h0 =>
    subst h0
    obtain ⟨i, hi, -⟩ := h
    exact absurd hi (Nat.not_lt_zero i)
  next => exact ⟨(addr, len), List.mem_append_right _ (List.mem_singleton.2 rfl), h⟩

/-- Mark a range, then stamp inside it. -/
theorem tracked_mark_stamp {addr len : U32} (h : Mmu.Stamped (m.Covers addr len.toNat) m m') :
    Tracked l (l.markDirtied addr len) m m' := by
  refine { tracked_markDirtied l m addr len with stamped := ?_ }
  exact h.mono fun off hc => covered_markDirtied hc

end

/-! ## The dispatch sites -/

namespace SanCtx

section
variable (ctx : SanCtx) (m : Mmu) (pa : U32)

/-- A kmalloc whose slot holds it, or whose address is live and is refused. -/
theorem tracked_kmalloc {size : U32}
    (h : size.toNat ≤ 2 ^ 31 ∨ (ctx.san.live pa).isSome) :
    Tracked ctx.toStampLog (ctx.kmalloc m pa size).1.toStampLog m (ctx.kmalloc m pa size).2 := by
  have hst := ctx.san.stamped_allocWithSlack m pa size (kmallocBucket size)
  unfold kmalloc
  dsimp only
  rw [show (ctx.markDirtied pa (kmallocBucket size)).san = ctx.san from rfl]
  rcases h with hle | hlive
  · have hb := le_kmallocBucket hle
    rw [Nat.max_eq_right hb] at hst
    rcases hr : ctx.san.allocWithSlack m pa size (kmallocBucket size) with ⟨r, san, m₁⟩
    rw [hr] at hst
    cases r with
    | error e => exact tracked_mark_stamp hst
    | ok _ =>
      refine tracked_mark_stamp (hst.trans ?_)
      refine (m₁.stamped_protect pa size.toNat (PERM_WRITE ||| PERM_READ)).mono fun off hc => ?_
      exact (hst.covers.1 hc).mono hb
  · have hr : ctx.san.allocWithSlack m pa size (kmallocBucket size) =
        (.error (.doubleAlloc pa), ctx.san, m) := by
      unfold Sanitizer.allocWithSlack
      rw [if_pos hlive]
    rw [hr]
    exact tracked_markDirtied _ m _ _

/-- Marking the live allocation at an address covers its bytes. -/
theorem tracked_markLive {m' : Mmu}
    (h : Mmu.Stamped (fun off => ∃ size, ctx.san.liveSize pa = some size ∧
      m.Covers pa size.toNat off) m m') :
    Tracked ctx.toStampLog (ctx.markLive pa).toStampLog m m' := by
  unfold markLive
  cases hl : ctx.san.liveSize pa with
  | none =>
    refine ⟨rfl, rfl, fun _ hr => hr, h.mono ?_⟩
    rintro off ⟨size, hs, -⟩
    rw [hl] at hs
    cases hs
  | some size =>
    refine tracked_mark_stamp (h.mono ?_)
    rintro off ⟨size', hs, hc⟩
    rw [hl] at hs
    cases hs
    exact hc

/-- Noting an allocation leaves the heap's sanitizer. -/
theorem san_markLive : (ctx.markLive pa).san = ctx.san := by
  unfold markLive
  split <;> rfl

/-- A `kfree` hook notes what it stamps. -/
theorem tracked_kfree : Tracked ctx.toStampLog (ctx.kfree m pa).1.toStampLog m (ctx.kfree m pa).2 := by
  have hst := tracked_markLive ctx m pa (ctx.san.stamped_free m pa)
  unfold kfree
  dsimp only
  rw [san_markLive]
  rcases hr : ctx.san.free m pa with ⟨r, san, m₁⟩
  rw [hr] at hst
  cases r with
  | error e => exact hst
  | ok _ => exact hst

/-- A `ksize` hook notes what it stamps. -/
theorem tracked_ksize : Tracked ctx.toStampLog (ctx.ksize m pa).1.toStampLog m (ctx.ksize m pa).2 := by
  have hre := ctx.san.stamped_reopenSlack m pa
  unfold ksize
  dsimp only
  rw [san_markLive]
  rcases hr : ctx.san.reopenSlack m pa with ⟨r, m₁⟩
  rw [hr] at hre
  cases r with
  | error e => exact tracked_markLive ctx m pa hre
  | ok _ =>
    dsimp only
    cases hl : ctx.san.liveSize pa with
    | none => exact tracked_markLive ctx m pa hre
    | some bucket =>
      refine tracked_markLive ctx m pa (hre.trans ?_)
      refine (m₁.stamped_protect pa bucket.toNat (PERM_WRITE ||| PERM_READ)).mono fun off hc => ?_
      exact ⟨bucket, hl, hre.covers.1 hc⟩

/-- A `kmem_cache_alloc` hook notes what it stamps. -/
theorem tracked_cacheAlloc (cachePa : U32) :
    Tracked ctx.toStampLog (ctx.cacheAlloc m pa cachePa).1.toStampLog m
      (ctx.cacheAlloc m pa cachePa).2 := by
  unfold cacheAlloc
  cases cacheObjectSize m cachePa with
  | none => exact .refl _ m
  | some size =>
    have hst := ctx.san.stamped_allocExactNoUafGuard m pa size
    dsimp only
    simp only [markDirtied]
    rcases hr : ctx.san.allocExactNoUafGuard m pa size with ⟨r, san, m₁⟩
    rw [hr] at hst
    cases r with
    | error e => exact tracked_mark_stamp hst
    | ok _ =>
      refine tracked_mark_stamp (hst.trans ?_)
      refine (m₁.stamped_protect pa size.toNat (PERM_WRITE ||| PERM_READ)).mono fun off hc => ?_
      exact hst.covers.1 hc

/-- Marking a page range covers its bytes. -/
theorem tracked_markPages {m' : Mmu} {order : U32}
    (h : Mmu.Stamped (fun off => ∃ len, PageSanitizer.pageRangeLen order = some len ∧
      m.Covers pa len.toNat off) m m') :
    Tracked ctx.toStampLog (ctx.markPages pa order).toStampLog m m' := by
  unfold markPages
  cases hl : PageSanitizer.pageRangeLen order with
  | none =>
    refine ⟨rfl, rfl, fun _ hr => hr, h.mono ?_⟩
    rintro off ⟨len, hs, -⟩
    rw [hl] at hs
    cases hs
  | some len =>
    refine tracked_mark_stamp (h.mono ?_)
    rintro off ⟨len', hs, hc⟩
    rw [hl] at hs
    cases hs
    exact hc

/-- Noting pages leaves their sanitizer. -/
theorem pageSan_markPages (order : U32) : (ctx.markPages pa order).pageSan = ctx.pageSan := by
  unfold markPages
  split <;> rfl

/-- A page allocation notes what it stamps. -/
theorem tracked_allocPages (order : U32) :
    Tracked ctx.toStampLog (ctx.allocPages m pa order).1.toStampLog m
      (ctx.allocPages m pa order).2 := by
  have hst := tracked_markPages ctx m pa (ctx.pageSan.stamped_allocPages m pa order)
  unfold allocPages
  dsimp only
  rw [pageSan_markPages]
  rcases hr : ctx.pageSan.allocPages m pa order with ⟨r, san, m₁⟩
  rw [hr] at hst
  cases r with
  | error e => exact hst
  | ok _ => exact hst

/-- A page free notes what it stamps. -/
theorem tracked_freePages (order : U32) :
    Tracked ctx.toStampLog (ctx.freePages m pa order).1.toStampLog m
      (ctx.freePages m pa order).2 := by
  have hst := tracked_markPages ctx m pa (ctx.pageSan.stamped_freePages m pa order)
  unfold freePages
  dsimp only
  rw [pageSan_markPages]
  rcases hr : ctx.pageSan.freePages m pa order with ⟨r, san, m₁⟩
  rw [hr] at hst
  cases r with
  | error e => exact hst
  | ok _ => exact hst

end

section
variable (ctx : SanCtx) (pc : U32) (regs : Reg → U32) (m : Mmu)

/-- The hooks report no kmalloc of more than `2 ^ 31` bytes at a mapped address that is not live. -/
def fits : Bool :=
  match (ctx.hooks.onPc pc regs).1 with
  | some (.alloc addr size) =>
    (ctx.lm.vaToPa addr).all fun pa => size.toNat ≤ 2 ^ 31 || (ctx.san.live pa).isSome
  | _ => true

variable {ctx pc regs}

/-- The heap hooks note what they stamp, if the size fits its bucket. -/
theorem tracked_onHeap (h : ctx.fits pc regs = true) :
    Tracked ctx.toStampLog (ctx.onHeap pc regs m).1.toStampLog m (ctx.onHeap pc regs m).2 := by
  unfold onHeap
  dsimp only
  split
  next addr size hev =>
    split
    next pa hpa =>
      have hfit : size.toNat ≤ 2 ^ 31 ∨ (ctx.san.live pa).isSome := by
        rw [fits, hev] at h
        dsimp only at h
        rw [hpa] at h
        simpa only [Option.all_some, Bool.or_eq_true, decide_eq_true_eq] using h
      exact tracked_kmalloc { ctx with
        hooks := (ctx.hooks.onPc pc regs).2
        allocs := ctx.allocs + 1
        bytes := ctx.bytes + size.setWidth 64 } m pa hfit
    next => exact .refl _ m
  next addr hev =>
    split
    next pa hpa =>
      exact tracked_kfree { ctx with
        hooks := (ctx.hooks.onPc pc regs).2
        frees := ctx.frees + 1 } m pa
    next => exact .refl _ m
  next => exact .refl _ m

/-- The `ksize` hook at an instruction notes what it stamps. -/
theorem tracked_onKsize :
    Tracked ctx.toStampLog (ctx.onKsize pc regs m).1.toStampLog m (ctx.onKsize pc regs m).2 := by
  unfold onKsize
  split
  · exact tracked_ksize _ m _
  · exact .refl _ m

/-- The cache hook at an instruction notes what it stamps. -/
theorem tracked_onCacheAlloc :
    Tracked ctx.toStampLog (ctx.onCacheAlloc pc regs m).1.toStampLog m
      (ctx.onCacheAlloc pc regs m).2 := by
  unfold onCacheAlloc
  dsimp only
  split
  · split
    · exact tracked_cacheAlloc { ctx with hooks := (ctx.hooks.onCacheAllocPc pc regs).2 } m _ _
    · exact .refl _ m
  · exact .refl _ m

/-- The page hooks at an instruction note what they stamp. -/
theorem tracked_onPages :
    Tracked ctx.toStampLog (ctx.onPages pc regs m).1.toStampLog m (ctx.onPages pc regs m).2 := by
  unfold onPages
  dsimp only
  split
  · split
    · exact tracked_allocPages { ctx with
        hooks := (ctx.hooks.onPagePc pc regs).2
        pageAllocs := ctx.pageAllocs + 1 } m _ _
    · exact .refl _ m
  · split
    · exact tracked_freePages { ctx with
        hooks := (ctx.hooks.onPagePc pc regs).2
        pageFrees := ctx.pageFrees + 1 } m _ _
    · exact .refl _ m
  · exact .refl _ m

/-- The sanitizer block of a pass logs everything it stamps. -/
theorem tracked_fire (h : ctx.fits pc regs = true) :
    Tracked ctx.toStampLog (ctx.fire pc regs m).1.toStampLog m (ctx.fire pc regs m).2 :=
  (((tracked_onHeap m h).trans (tracked_onKsize _)).trans (tracked_onCacheAlloc _)).trans
    (tracked_onPages _)

end

end SanCtx

namespace KmsanCtx

section
variable (ctx : KmsanCtx) (m : Mmu)

/-- So does seeding an object. -/
theorem tracked_seed (pa size : U32) :
    Tracked ctx.toStampLog (ctx.seed m pa size).1.toStampLog m (ctx.seed m pa size).2 := by
  have hst := m.stamped_setVtaint pa size.toNat true
  unfold seed
  dsimp only
  rcases hr : m.setVtaint pa size.toNat true with ⟨r, m₁⟩
  rw [hr] at hst
  cases r with
  | error e => exact tracked_mark_stamp hst
  | ok _ => exact tracked_mark_stamp hst

/-- The taint block of a pass logs everything it stamps. -/
theorem tracked_kmsanFire (pc : U32) (regs : Reg → U32) :
    Tracked ctx.toStampLog (ctx.fire pc regs m).1.toStampLog m (ctx.fire pc regs m).2 := by
  unfold fire
  dsimp only
  split
  · split
    · split
      · exact .refl _ m
      · exact tracked_seed { ctx with hooks := (ctx.hooks.onKmsanAllocPc pc regs).2 } m _ _
    · exact .refl _ m
  · split
    · split
      · split
        · exact .refl _ m
        split
        · exact .refl _ m
        · exact tracked_seed { ctx with hooks := (ctx.hooks.onKmsanAllocPc pc regs).2 } m _ _
      · exact .refl _ m
    · exact .refl _ m
  · exact .refl _ m

end

end KmsanCtx

/-! ## Restoring -/

/-- The log was set up together with the snapshot. -/
structure OfGolden (ram : Mmu) (l : StampLog) : Prop where
  goldenPerms : l.goldenPerms = readSpan ram.perms 0 ram.size
  ramBase : l.ramBase = ram.base

/-- A tracked change leaves the golden permissions of the log. -/
theorem Tracked.ofGolden {ram m m' : Mmu} {l l' : StampLog} (h : Tracked l l' m m')
    (hl : OfGolden ram l) : OfGolden ram l' :=
  ⟨h.goldenPerms.trans hl.goldenPerms, h.ramBase.trans hl.ramBase⟩

/-- A byte of a captured span. -/
theorem getElem?_readSpan {f : Nat → U8} {off len i : Nat} :
    (readSpan f off len)[i]? = if i < len then some (f (off + i)) else none := by
  induction len generalizing off i with
  | zero => rfl
  | succ len ih =>
    rw [readSpan]
    cases i with
    | zero => rfl
    | succ i =>
      rw [List.getElem?_cons_succ, ih, Nat.add_assoc, Nat.add_comm 1 i]
      simp only [Nat.add_lt_add_iff_right]

/-- `m'` has the golden permissions where `m` had them, and on `S`; nothing else changed. -/
structure Mended (ram : Mmu) (S : Nat → Prop) (m m' : Mmu) : Prop where
  eq : ∃ p, m' = { m with perms := p }
  perms : ∀ off, m.perms off = ram.perms off ∨ S off → m'.perms off = ram.perms off

section
variable {ram m m' m'' : Mmu} {S T : Nat → Prop} {l : StampLog}

/-- Nothing is mended where nothing was to mend. -/
theorem Mended.refl (h : ∀ off, S off → False) : Mended ram S m m :=
  ⟨⟨m.perms, rfl⟩, fun off hoff => hoff.resolve_right (h off)⟩

/-- Mending keeps the window. -/
theorem Mended.offset (h : Mended ram S m m') (a : U32) : m'.offset a = m.offset a := by
  obtain ⟨p, rfl⟩ := h.eq
  rfl

/-- Mending two parts mends both. -/
theorem Mended.trans (h : Mended ram S m m') (h' : Mended ram T m' m'') :
    Mended ram (fun off => S off ∨ T off) m m'' := by
  refine ⟨?_, fun off hoff => h'.perms off ?_⟩
  · obtain ⟨p, rfl⟩ := h.eq
    obtain ⟨p', rfl⟩ := h'.eq
    exact ⟨p', rfl⟩
  · rcases hoff with hg | hs | ht
    · exact .inl (h.perms off (.inl hg))
    · exact .inl (h.perms off (.inr hs))
    · exact .inr ht

/-- Part of what is mended is mended. -/
theorem Mended.mono (h : Mended ram S m m') (hST : ∀ off, T off → S off) : Mended ram T m m' :=
  ⟨h.eq, fun off hoff => h.perms off (hoff.imp_right (hST off))⟩

/-- A memory with the window of the golden one. -/
structure SameWindow (ram m : Mmu) : Prop where
  base : m.base = ram.base
  size : m.size = ram.size

/-- A mended memory has the window of the snapshot. -/
theorem Mended.sameWindow (h : Mended ram S m m') (hw : SameWindow ram m) : SameWindow ram m' := by
  obtain ⟨p, rfl⟩ := h.eq
  exact ⟨hw.base, hw.size⟩

/-- One byte gets its golden permission. -/
theorem mended_restoreByte (hl : OfGolden ram l) (hw : SameWindow ram m) (addr : U32) (i : Nat) :
    Mended ram (fun off => m.offset (addr + BitVec.ofNat 32 i) = some off) m
      (l.restoreByte addr m i) := by
  unfold StampLog.restoreByte
  dsimp only
  generalize addr + BitVec.ofNat 32 i = a
  have hnone : a < l.ramBase ∨ ram.size ≤ (a - l.ramBase).toNat →
      ∀ off, m.offset a = some off → False := by
    intro hcase off ho
    obtain ⟨h1, h2⟩ := windowOffset_eq_some.1 ho
    rw [hw.base, ← hl.ramBase] at h1
    rw [hw.size] at h2
    rcases hcase with hlt | hge
    · have : a.toNat < l.ramBase.toNat := hlt
      omega
    · rw [BitVec.toNat_sub_of_le (BitVec.le_def.2 (by omega))] at hge
      omega
  split
  next hlt => exact .refl (hnone (.inl hlt))
  next hge =>
    rw [hl.goldenPerms, getElem?_readSpan, Nat.zero_add]
    split
    next p hp =>
      split at hp
      next hsize =>
        cases hp
        have hle : l.ramBase.toNat ≤ a.toNat := Nat.le_of_not_lt hge
        have ho : m.offset a = some (a - l.ramBase).toNat := by
          refine windowOffset_eq_some.2 ⟨?_, by rwa [hw.size]⟩
          rw [BitVec.toNat_sub_of_le (BitVec.le_def.2 hle), hw.base, ← hl.ramBase]
          omega
        have heq : m.protect a 1 (ram.perms (a - l.ramBase).toNat) =
            (.ok (), { m with
              perms := setAt m.perms (a - l.ramBase).toNat (ram.perms (a - l.ramBase).toNat) }) := by
          simp only [Mmu.protect, Mmu.protect.go, ho]
        rw [heq]
        refine ⟨⟨_, rfl⟩, fun off hoff => ?_⟩
        by_cases he : off = (a - l.ramBase).toNat
        · subst he
          exact setAt_self _ _ _
        · refine (setAt_of_ne _ _ he).trans (hoff.resolve_right fun hs => he ?_)
          rw [ho] at hs
          exact (Option.some.inj hs).symm
      next => cases hp
    next hp =>
      split at hp
      · cases hp
      next hsize => exact .refl (hnone (.inr (Nat.le_of_not_lt hsize)))

/-- Restoring a noted range mends its bytes. -/
theorem mended_restoreRange (hl : OfGolden ram l) (hw : SameWindow ram m) (r : U32 × U32) :
    Mended ram (m.Covers r.1 r.2.toNat) m (l.restoreRange m r) := by
  unfold StampLog.restoreRange
  suffices h : ∀ (is : List Nat) {m : Mmu}, SameWindow ram m →
      Mended ram (fun off => ∃ i ∈ is, m.offset (r.1 + BitVec.ofNat 32 i) = some off) m
        (is.foldl (l.restoreByte r.1) m) by
    refine (h (List.range r.2.toNat) hw).mono ?_
    rintro off ⟨i, hi, ho⟩
    exact ⟨i, List.mem_range.2 hi, ho⟩
  intro is
  induction is with
  | nil =>
    intro m _
    exact .refl fun off ⟨i, hi, _⟩ => absurd hi List.not_mem_nil
  | cons i is ih =>
    intro m hw
    have hi := mended_restoreByte hl hw r.1 i
    refine (hi.trans (ih (hi.sameWindow hw))).mono ?_
    rintro off ⟨j, hj, ho⟩
    rcases List.mem_cons.1 hj with rfl | hj
    · exact .inl ho
    · exact .inr ⟨j, hj, by rwa [hi.offset]⟩

/-- Every logged byte gets its golden permission. -/
theorem mended_restoreDirtiedPerms (hl : OfGolden ram l) (hw : SameWindow ram m) :
    Mended ram (Covered m l.dirtied) m (l.restoreDirtiedPerms m).2 := by
  unfold StampLog.restoreDirtiedPerms
  dsimp only
  generalize l.dirtied = rs
  induction rs generalizing m with
  | nil => exact .refl fun off ⟨r, hr, _⟩ => absurd hr List.not_mem_nil
  | cons r rs ih =>
    have hr := mended_restoreRange hl hw r
    refine (hr.trans (ih (hr.sameWindow hw))).mono ?_
    rintro off ⟨r', hr', hc⟩
    rcases List.mem_cons.1 hr' with rfl | hr'
    · exact .inl hc
    · refine .inr ⟨r', hr', ?_⟩
      unfold Mmu.Covers at hc ⊢
      simpa only [hr.offset] using hc

end

/-! ## Cases -/

/-- Other permissions in the captured RAM. -/
def withPerms (g : Sys Machine) (p : Nat → U8) : Sys Machine :=
  { g with bus := { g.bus with ram := { g.bus.ram with perms := p } } }

namespace FuzzCase

/-- The ranges that the contexts have logged. -/
def logged (c : FuzzCase) : List (U32 × U32) :=
  (c.san.elim [] fun ctx => ctx.dirtied) ++ c.kmsan.elim [] fun ctx => ctx.dirtied

/-- The logs were set up together with the snapshot. -/
structure LogsOfGolden (ram : Mmu) (c : FuzzCase) : Prop where
  san : ∀ ctx, c.san = some ctx → OfGolden ram ctx.toStampLog
  kmsan : ∀ ctx, c.kmsan = some ctx → OfGolden ram ctx.toStampLog

/-- The golden state: every byte and permission of RAM is golden, and no stamp is logged. -/
structure AtGolden (g : Sys Machine) (c : FuzzCase) : Prop where
  exact : Exact g c.sys
  inv : SnapInv g c.sys.bus
  logged : c.logged = []
  logs : c.LogsOfGolden g.bus.ram

/-- What a case can be undone from: RAM is golden but for dirty blocks and logged ranges. -/
structure Undoable (g : Sys Machine) (c : FuzzCase) : Prop where
  inv : ∃ p, SnapInv (withPerms g p) c.sys.bus ∧
    ∀ off, ¬ Covered g.bus.ram c.logged off → p off = g.bus.ram.perms off
  logs : c.LogsOfGolden g.bus.ram

section
variable {g : Sys Machine} {c : FuzzCase}

/-- At the snapshot there is nothing to undo. -/
theorem AtGolden.undoable (h : AtGolden g c) : Undoable g c :=
  ⟨⟨g.bus.ram.perms, h.inv, fun _ _ => rfl⟩, h.logs⟩

/-- Stamps that the logs cover. -/
theorem Undoable.stamp (h : Undoable g c) {c' : FuzzCase} {ram : Mmu}
    (hram : c'.sys.bus = { c.sys.bus with ram := ram }) (hgrows : ∀ r ∈ c.logged, r ∈ c'.logged)
    (hst : Mmu.Stamped (Covered c.sys.bus.ram c'.logged) c.sys.bus.ram ram)
    (hlogs : c'.LogsOfGolden g.bus.ram) : Undoable g c' := by
  obtain ⟨p, hinv, hp⟩ := h.inv
  obtain ⟨p', hd, hp'⟩ := hinv.ram.stamped hst
  have hcov : ∀ off, Covered c.sys.bus.ram c'.logged off ↔ Covered g.bus.ram c'.logged off := by
    intro off
    have hoff : ∀ a, c.sys.bus.ram.offset a = g.bus.ram.offset a := fun a => by
      rw [Mmu.offset, Mmu.offset, hinv.base, hinv.size]
      rfl
    simp only [Covered, Mmu.Covers, hoff]
  refine ⟨⟨p', ?_, fun off hn => ?_⟩, hlogs⟩
  · rw [hram]
    obtain ⟨q, rfl⟩ := hst.eq
    exact ⟨hd, hinv.base, hinv.size, hinv.ramBase, hinv.ramEnd, hinv.uart⟩
  · rw [hp' off fun hc => hn ((hcov off).1 hc)]
    exact hp off fun hc => hn (hc.mono hgrows)

/-- The pass does not scatter taint under a device, and its hooks report no kmalloc of more than
`2 ^ 31` bytes. -/
def Contained (deadline : U64) (c : FuzzCase) : Prop :=
  c.sys.hart.insnsRetired < deadline →
    (c.sys.hart.kmsanEnabled = false ∨ NoOverlap c.sys.bus) ∧
      c.san.all (fun ctx => ctx.fits c.sys.hart.pc c.sys.hart.regs) = true

/-- A KASAN hook can be undone. -/
theorem Undoable.fireSan (h : Undoable g c)
    (hfit : c.san.all (fun ctx => ctx.fits c.sys.hart.pc c.sys.hart.regs) = true) :
    Undoable g c.fireSan := by
  unfold FuzzCase.fireSan
  cases hs : c.san with
  | none => exact h
  | some ctx =>
    rw [hs] at hfit
    have ht := SanCtx.tracked_fire c.sys.bus.ram hfit
    refine h.stamp rfl (fun r hr => ?_) (ht.stamped.mono fun off hc => hc.mono fun r hr => ?_)
      ⟨fun ctx' he => ?_, h.logs.kmsan⟩
    · simp only [FuzzCase.logged, hs, Option.elim, List.mem_append] at hr ⊢
      exact hr.imp_left (ht.grows r)
    · exact List.mem_append_left _ hr
    · cases he
      exact ht.ofGolden (h.logs.san ctx hs)

/-- A KMSAN hook can be undone. -/
theorem Undoable.fireKmsan (h : Undoable g c) : Undoable g c.fireKmsan := by
  unfold FuzzCase.fireKmsan
  cases hs : c.kmsan with
  | none => exact h
  | some ctx =>
    have ht := ctx.tracked_kmsanFire c.sys.bus.ram c.sys.hart.pc c.sys.hart.regs
    refine h.stamp rfl (fun r hr => ?_) (ht.stamped.mono fun off hc => hc.mono fun r hr => ?_)
      ⟨h.logs.san, fun ctx' he => ?_⟩
    · simp only [FuzzCase.logged, hs, Option.elim, List.mem_append] at hr ⊢
      exact hr.imp_right (ht.grows r)
    · exact List.mem_append_right _ hr
    · cases he
      exact ht.ofGolden (h.logs.kmsan ctx hs)

/-- A step of the guest can be undone. -/
theorem Undoable.driverStep (h : Undoable g c)
    (ht : c.sys.hart.kmsanEnabled = false ∨ NoOverlap c.sys.bus) (cov : CovBitmap MAP_SIZE) :
    Undoable g { c with sys := (driverStep c.sys).2, cov := cov } := by
  obtain ⟨p, hinv, hp⟩ := h.inv
  have hsync : SnapInv (withPerms g p) (syncTimer (setMtime c.sys)).bus := { hinv with }
  exact ⟨⟨p, hsync.stepSystem (ht.imp id id), hp⟩, ⟨h.logs.san, h.logs.kmsan⟩⟩

/-- The blocks change neither the hart nor the windows of the machine. -/
theorem fireSan_keeps (c : FuzzCase) :
    c.fireSan.sys.hart = c.sys.hart ∧ (NoOverlap c.sys.bus → NoOverlap c.fireSan.sys.bus) := by
  unfold FuzzCase.fireSan
  cases c.san with
  | none => exact ⟨rfl, id⟩
  | some ctx => exact ⟨rfl, fun hno a ha => hno a ha⟩

/-- A KMSAN hook leaves the hart, and no overlap arises. -/
theorem fireKmsan_keeps (c : FuzzCase) :
    c.fireKmsan.sys.hart = c.sys.hart ∧ (NoOverlap c.sys.bus → NoOverlap c.fireKmsan.sys.bus) := by
  unfold FuzzCase.fireKmsan
  cases c.kmsan with
  | none => exact ⟨rfl, id⟩
  | some ctx => exact ⟨rfl, fun hno a ha => hno a ha⟩

/-- A contained pass keeps a case undoable, whether the loop goes on or is left. -/
theorem Undoable.pass (h : Undoable g c) {deadline : U64} (hc : Contained deadline c) :
    (FuzzCase.pass deadline c).elim (fun r => Undoable g r.2) (Undoable g) := by
  unfold FuzzCase.pass
  split
  next hlt =>
    obtain ⟨ht, hfit⟩ := hc hlt
    obtain ⟨hhart, hno⟩ := fireSan_keeps c
    obtain ⟨hhart', hno'⟩ := fireKmsan_keeps c.fireSan
    have hfired := (h.fireSan hfit).fireKmsan
    have hstep := hfired.driverStep
      (ht.imp (fun hk => by rwa [hhart', hhart]) fun hn => hno' (hno hn))
    dsimp only
    cases (FuzzSoft.driverStep c.fireSan.fireKmsan.sys).1 with
    | «continue» => exact hstep _
    | halt code => exact hstep _
    | hypercall cmd => exact hstep _
  next => exact h

/-- A store of the injection keeps the invariant of the snapshot. -/
theorem snapInv_inject {s : Sys Machine} (h : SnapInv g s.bus) (tg : Target) (p : Lowered) :
    SnapInv g (inject tg p s).bus := by
  unfold inject writeScratchBytes writeWords
  dsimp only
  have hwords : SnapInv g ((tg.progPas.zip p.wire).foldl
      (fun m p => (Bus.store m p.1 4 p.2).2) s.bus) := by
    induction tg.progPas.zip p.wire generalizing s with
    | nil => exact h
    | cons q qs ih => exact @ih { s with bus := _ } (h.store q.1 4 q.2).1.inv
  revert hwords
  generalize (tg.progPas.zip p.wire).foldl (fun m p => (Bus.store m p.1 4 p.2).2) s.bus = m
  intro hm
  induction tg.scratchPas.zipIdx generalizing m with
  | nil => exact hm
  | cons q qs ih => exact ih _ (hm.store q.1 4 _).1.inv

/-- The case with a program in its machine. -/
def injected (tg : Target) (p : Lowered) (c : FuzzCase) : FuzzCase :=
  { c with sys := inject tg p c.sys }

/-- Injecting a program can be undone. -/
theorem AtGolden.injected (h : AtGolden g c) (tg : Target) (p : Lowered) :
    Undoable g (FuzzCase.injected tg p c) :=
  ⟨⟨g.bus.ram.perms, snapInv_inject h.inv tg p, fun _ _ => rfl⟩, ⟨h.logs.san, h.logs.kmsan⟩⟩

/-! ### Between two cases -/

/-- A context that is there puts its stamps back; one that is not has none. -/
theorem mended_restart {l : Option StampLog} {ram m : Mmu} (hl : ∀ l', l = some l' → OfGolden ram l')
    (hw : SameWindow ram m) :
    Mended ram (Covered ram (l.elim [] (·.dirtied))) m
      (l.elim m fun l => (l.restoreDirtiedPerms m).2) := by
  cases l with
  | none => exact .refl fun off ⟨r, hr, _⟩ => absurd hr List.not_mem_nil
  | some l =>
    refine (mended_restoreDirtiedPerms (hl l rfl) hw).mono ?_
    rintro off ⟨r, hr, hc⟩
    refine ⟨r, hr, ?_⟩
    have hoff : ∀ a, m.offset a = ram.offset a := fun a => by
      rw [Mmu.offset, Mmu.offset, hw.base, hw.size]
    unfold Mmu.Covers at hc ⊢
    simpa only [hoff] using hc

/-- The memory after a restart: the reset one with the logs of both harnesses replayed. -/
theorem restart_ram (snap : Snapshot) (c : FuzzCase) :
    (c.restart snap).sys.bus = { (snap.reset c.sys).bus with
      ram := (c.kmsan.map (·.toStampLog)).elim
        ((c.san.map (·.toStampLog)).elim (snap.reset c.sys).bus.ram
          fun l => (l.restoreDirtiedPerms (snap.reset c.sys).bus.ram).2)
        fun l => (l.restoreDirtiedPerms ((c.san.map (·.toStampLog)).elim
          (snap.reset c.sys).bus.ram
          fun l => (l.restoreDirtiedPerms (snap.reset c.sys).bus.ram).2)).2 } := by
  unfold FuzzCase.restart
  cases c.san <;> cases c.kmsan <;> rfl

/-- The hart after a restart is the reset one. -/
theorem restart_cpu (snap : Snapshot) (c : FuzzCase) :
    (c.restart snap).sys.cpu = (snap.reset c.sys).cpu := by
  unfold FuzzCase.restart
  cases c.san <;> cases c.kmsan <;> rfl

/-- A restart empties the KASAN harness's log of the case. -/
theorem restart_san {snap : Snapshot} {ctx' : SanCtx} (h : (c.restart snap).san = some ctx') :
    ∃ ctx, c.san = some ctx ∧ ctx'.toStampLog = { ctx.toStampLog with dirtied := [] } := by
  unfold FuzzCase.restart at h
  cases hs : c.san <;> cases hk : c.kmsan <;> simp only [hs, hk] at h <;> cases h <;>
    exact ⟨_, rfl, rfl⟩

/-- A restart empties the KMSAN harness's log of the case. -/
theorem restart_kmsan {snap : Snapshot} {ctx' : KmsanCtx}
    (h : (c.restart snap).kmsan = some ctx') :
    ∃ ctx, c.kmsan = some ctx ∧ ctx'.toStampLog = { ctx.toStampLog with dirtied := [] } := by
  unfold FuzzCase.restart at h
  cases hs : c.san <;> cases hk : c.kmsan <;> simp only [hs, hk] at h <;> cases h <;>
    exact ⟨_, rfl, rfl⟩

/-- The logs start over. -/
theorem restart_logged (snap : Snapshot) (c : FuzzCase) : (c.restart snap).logged = [] := by
  unfold FuzzCase.logged
  have hsan : ((c.restart snap).san.elim [] fun ctx => ctx.dirtied) = [] := by
    cases hs : (c.restart snap).san with
    | none => rfl
    | some ctx' =>
      obtain ⟨ctx, -, hl⟩ := restart_san hs
      exact congrArg StampLog.dirtied hl
  have hkmsan : ((c.restart snap).kmsan.elim [] fun ctx => ctx.dirtied) = [] := by
    cases hs : (c.restart snap).kmsan with
    | none => rfl
    | some ctx' =>
      obtain ⟨ctx, -, hl⟩ := restart_kmsan hs
      exact congrArg StampLog.dirtied hl
  rw [hsan, hkmsan]
  rfl

/-- The logs keep the golden permissions over a restart. -/
theorem LogsOfGolden.restart {ram : Mmu} (h : c.LogsOfGolden ram) (snap : Snapshot) :
    (c.restart snap).LogsOfGolden ram := by
  refine ⟨fun ctx' hs => ?_, fun ctx' hk => ?_⟩
  · obtain ⟨ctx, hc, hl⟩ := restart_san hs
    rw [hl]
    exact ⟨(h.san ctx hc).goldenPerms, (h.san ctx hc).ramBase⟩
  · obtain ⟨ctx, hc, hl⟩ := restart_kmsan hk
    rw [hl]
    exact ⟨(h.kmsan ctx hc).goldenPerms, (h.kmsan ctx hc).ramBase⟩

/-- The reset and `restore_dirtied_perms` undo an undoable case. -/
theorem Undoable.restart (h : Undoable g c) : AtGolden g (c.restart (Snapshot.capture g).1) := by
  obtain ⟨p, hinv, hp⟩ := h.inv
  -- after the reset: golden but for logged ranges
  obtain ⟨q, hreset, hq⟩ := hinv.ram.resetDirty_stamped hp
  have hw : SameWindow g.bus.ram (c.sys.bus.ram.resetDirty g.bus.ram.mem g.bus.ram.perms) :=
    ⟨hreset.base.trans hinv.base, hreset.size.trans hinv.size⟩
  -- after both contexts
  have hsan := @mended_restart (c.san.map (·.toStampLog)) g.bus.ram _ (by
    intro l hl
    obtain ⟨ctx, hc, rfl⟩ := Option.map_eq_some_iff.1 hl
    exact h.logs.san ctx hc) hw
  have hboth := hsan.trans (@mended_restart (c.kmsan.map (·.toStampLog)) g.bus.ram _ (by
    intro l hl
    obtain ⟨ctx, hc, rfl⟩ := Option.map_eq_some_iff.1 hl
    exact h.logs.kmsan ctx hc) (hsan.sameWindow hw))
  have hbus := restart_ram (Snapshot.capture g).1 c
  have hram : ∃ m, Mended g.bus.ram (Covered g.bus.ram c.logged)
      (c.sys.bus.ram.resetDirty g.bus.ram.mem g.bus.ram.perms) m ∧
      (c.restart (Snapshot.capture g).1).sys.bus =
        { ((Snapshot.capture g).1.reset c.sys).bus with ram := m } := by
    refine ⟨_, hboth.mono ?_, hbus⟩
    rintro off ⟨r, hr, hc⟩
    unfold FuzzCase.logged at hr
    rcases List.mem_append.1 hr with hr | hr
    · refine .inl ⟨r, ?_, hc⟩
      cases hs : c.san <;> rw [hs] at hr <;> exact hr
    · refine .inr ⟨r, ?_, hc⟩
      cases hs : c.kmsan <;> rw [hs] at hr <;> exact hr
  obtain ⟨m, hm, hbus⟩ := hram
  have hplanes : ∀ off < g.bus.ram.size, m.mem off = g.bus.ram.mem off ∧
      m.perms off = g.bus.ram.perms off := by
    intro off hoff
    obtain ⟨h1, h2⟩ := hreset.planes off (by rw [hinv.size]; exact hoff)
    refine ⟨?_, hm.perms off ?_⟩
    · obtain ⟨p', rfl⟩ := hm.eq
      exact h1
    · by_cases hc : Covered g.bus.ram c.logged off
      · exact .inr hc
      · exact .inl (h2.trans (hq off hc))
  have hdirty : Mmu.DirtyInv g.bus.ram.mem g.bus.ram.perms m := by
    have hwm := hm.sameWindow hw
    refine ⟨?_, ?_, ?_, fun off hoff _ => hplanes off (by rwa [hwm.size] at hoff)⟩
    all_goals obtain ⟨p', rfl⟩ := hm.eq
    · exact hreset.inv.track
    · exact hreset.inv.nodup
    · exact hreset.inv.bit
  have hwm := hm.sameWindow hw
  have huart : c.sys.bus.uart.out.take g.bus.uart.out.length = g.bus.uart.out :=
    (List.prefix_iff_eq_take.1 hinv.uart).symm
  refine ⟨⟨restart_cpu _ c, ?_, ?_, ?_, ?_, ?_, ?_, ?_⟩, ?_, restart_logged _ c, h.logs.restart _⟩
  all_goals rw [hbus]
  · rfl
  · exact congrArg Uart.mk huart
  · exact hinv.ramBase
  · exact hinv.ramEnd
  · exact hwm.base
  · exact hwm.size
  · exact hplanes
  · refine ⟨hdirty, hwm.base, hwm.size, hinv.ramBase, hinv.ramEnd, ?_⟩
    show g.bus.uart.out <+: c.sys.bus.uart.out.take g.bus.uart.out.length
    rw [huart]

end

/-- The case after at most so many passes of `run_case`. -/
def runCase (deadline : U64) (n : Nat) (c : FuzzCase) : FuzzCase :=
  (passes (FuzzCase.pass deadline) n c).elim Prod.snd id

end FuzzCase

/-- Stamps never leak between cases: however long a case has run from the golden state with either
context, if each of its passes is contained, a reset and `restore_dirtied_perms` lead back to the
golden state. -/
theorem stamps_never_leak (g : Sys Machine) {c : FuzzCase} (hc : c.AtGolden g) (tg : Target)
    (p : Lowered) (deadline : U64) (n : Nat)
    (hok : During (FuzzCase.pass deadline) (FuzzCase.Contained deadline) n
      (FuzzCase.injected tg p c)) :
    (((FuzzCase.injected tg p c).runCase deadline n).restart (Snapshot.capture g).1).AtGolden g := by
  have h := @passes_invariant _ _ (FuzzCase.pass deadline) (FuzzCase.Contained deadline)
    (FuzzCase.Undoable g) (fun r => r.2.Undoable g)
    (fun c c' hu hok hb => by
      have := hu.pass hok
      rwa [hb] at this)
    (fun c r hu hok hb => by
      have := hu.pass hok
      rwa [hb] at this) n _ (hc.injected tg p) hok
  unfold FuzzCase.runCase
  refine FuzzCase.Undoable.restart ?_
  cases hr : passes (FuzzCase.pass deadline) n (FuzzCase.injected tg p c) with
  | inl r =>
    rw [hr] at h
    exact h
  | inr c' =>
    rw [hr] at h
    exact h

/-- A guest about to return from kmalloc with the pointer `0xc0000100`, on a machine with 272 bytes
of RAM. Its second instruction is a `nop`. -/
def kmallocBoot (size : U32) : Sys Machine where
  cpu := { Cpu.new 0x80000000 with
    regs := fun i => if i = 1 then 0x80000004 else if i = 10 then 0xc0000100 else
      if i = 11 then size else 0 }
  bus := { MachineOf.new 0x80000000 0x110 with
    ram := { Mmu.new 0x80000000 0x110 with
      mem := setSpan (fun _ => 0) 0 [0x67, 0x80, 0x00, 0x00, 0x13, 0x00, 0x00, 0x00]
      perms := fun _ => PERM_READ ||| PERM_WRITE ||| PERM_EXEC } }

/-- The sanitizer context of that guest: kmalloc is at the start of RAM and takes its size in `a1`. -/
def kmallocCtx (size : U32) : SanCtx where
  goldenPerms := readSpan (kmallocBoot size).bus.ram.perms 0 0x110
  ramBase := 0x80000000
  dirtied := []
  hooks := PcHooks.new.hookAlloc 0x80000000 11
  san := .new DEFAULT_REDZONE
  pageSan := .new
  lm := .new 0x80000000 0x80000000 0x110
  allocs := 0
  frees := 0
  bytes := 0
  pageAllocs := 0
  pageFrees := 0
  sanErrors := 0
  cacheAllocs := 0
  cacheBytes := 0
  cacheAllocSizeUnavailable := 0

/-- That guest right after the snapshot. -/
def kmallocCase (size : U32) : FuzzCase where
  sys := (Snapshot.capture (kmallocBoot size)).2
  cov := .new
  san := some (kmallocCtx size)
  kmsan := none

/-- The case starts at its snapshot. -/
theorem atGolden_kmallocCase (size : U32) : (kmallocCase size).AtGolden (kmallocBoot size) where
  exact := ⟨rfl, rfl, rfl, rfl, rfl, rfl, rfl, fun _ _ => ⟨rfl, rfl⟩⟩
  inv := snapInv_capture _
  logged := rfl
  logs := ⟨fun ctx h => by cases h; exact ⟨rfl, rfl⟩, nofun⟩

/-- A case with a small kmalloc: every pass is contained, so its stamps are undone. -/
theorem stamps_never_leak_small :
    (((FuzzCase.injected ⟨[], [], 2⟩ ⟨[], []⟩ (kmallocCase 40)).runCase 2 3).restart
      (Snapshot.capture (kmallocBoot 40)).1).AtGolden (kmallocBoot 40) := by
  refine stamps_never_leak (kmallocBoot 40) (atGolden_kmallocCase 40) ⟨[], [], 2⟩ ⟨[], []⟩ 2 3 ?_
  have h : During (FuzzCase.pass 2) (fun c => c.sys.hart.kmsanEnabled = false ∧
      c.san.all (fun ctx => ctx.fits c.sys.hart.pc c.sys.hart.regs) = true) 3
      (FuzzCase.injected ⟨[], [], 2⟩ ⟨[], []⟩ (kmallocCase 40)) := by decide +kernel
  exact h.mono fun c hc _ => ⟨.inl hc.1, hc.2⟩

/-- A kmalloc of `2 ^ 31 + 1` bytes: its slot size is zero, so nothing is logged, but the payload was
stamped up to the end of RAM, and the reset does not undo it. -/
theorem stamps_leak_oversized :
    (kmallocCase 0x80000001).AtGolden (kmallocBoot 0x80000001) ∧
      ¬ (((kmallocCase 0x80000001).runCase 2 3).restart
        (Snapshot.capture (kmallocBoot 0x80000001)).1).AtGolden (kmallocBoot 0x80000001) := by
  refine ⟨atGolden_kmallocCase _, fun h => ?_⟩
  have hperm := (h.exact.planes 0x100 (by decide)).2
  revert hperm
  decide +kernel

end FuzzSoft
