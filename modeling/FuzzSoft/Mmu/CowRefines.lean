import FuzzSoft.Mmu.CowInv

/-!
# The copy-on-write memory refines the flat one

A flat memory and a copy-on-write view agree (`Agree`) when they span the same window and hold the
same data and permission byte at every offset of it. Each operation of the two, applied in lockstep,
returns the same result and keeps the agreement, but for a taint span that `CowRam::write_shadow`
drops because it is not wholly inside one page of the window. The paths for spans need that none of
them runs past `2 ^ 32` (`SpanClear`), which no memory's permissions let it do.
-/

namespace FuzzSoft

open Lib

/-! ## The byte-wise loops -/

/-- A read depends on the planes at the offsets of the window only. -/
theorem readLoop_congr {offset : U32 → Option Nat} {mem mem' perms perms' : Nat → U8}
    (h : ∀ a off, offset a = some off → mem off = mem' off ∧ perms off = perms' off)
    (need : U8) (access : Access) (len : U32) (a : U32) (n : Nat) :
    readLoop offset mem perms need access len a n =
      readLoop offset mem' perms' need access len a n := by
  induction n generalizing a with
  | zero => rfl
  | succ n ih =>
    rw [readLoop, readLoop, ih]
    cases ho : offset a with
    | none => rfl
    | some off =>
      obtain ⟨hm, hp⟩ := h a off ho
      simp only [hm, hp]

/-- Inside the window, with every permission present and no wrap-around, the byte-wise read returns
the contiguous span. -/
theorem readLoop_span {base : U32} {size : Nat} {mem perms : Nat → U8} {need : U8} {access : Access}
    {len : U32} {n : Nat} : ∀ {a : U32} {off : Nat}, windowOffset base size a = some off →
    off + n ≤ size → a.toNat + n ≤ 2 ^ 32 → (∀ i < n, perms (off + i) &&& need ≠ 0) →
    readLoop (windowOffset base size) mem perms need access len a n = .ok (readSpan mem off n) := by
  induction n with
  | zero => intros; rfl
  | succ n ih =>
    intro a off ho hs hw hp
    have h0 : perms off &&& need ≠ 0 := hp 0 (Nat.succ_pos n)
    have hrest : readLoop (windowOffset base size) mem perms need access len (a + 1) n =
        .ok (readSpan mem (off + 1) n) := by
      cases n with
      | zero => rfl
      | succ n =>
        have hw' : (a + 1).toNat = a.toNat + 1 := by
          rw [BitVec.toNat_add]
          exact Nat.mod_eq_of_lt (by simp; omega)
        refine ih (windowOffset_succ ho (by omega) (by omega)) (by omega) (by omega) ?_
        intro i hi
        rw [Nat.add_right_comm, Nat.add_assoc]
        exact hp (i + 1) (by omega)
    rw [readLoop, ho]
    simp only [h0, if_false, hrest]
    rfl

/-- Two byte-wise writes run in step when the permissions they test agree and each byte written
keeps the relation. -/
theorem writeLoop_sim {σ τ : Type} {R : σ → τ → Prop} {offset : U32 → Option Nat}
    {perm : σ → Nat → U8} {perm' : τ → Nat → U8} {put : σ → Nat → U8 → σ} {put' : τ → Nat → U8 → τ}
    (hperm : ∀ {s t a off}, R s t → offset a = some off → perm s off = perm' t off)
    (hput : ∀ {s t a off b}, R s t → offset a = some off → R (put s off b) (put' t off b))
    (len : U32) {s : σ} {t : τ} (h : R s t) (a : U32) (data : List U8) :
    (writeLoop offset perm put len s a data).1 = (writeLoop offset perm' put' len t a data).1 ∧
      R (writeLoop offset perm put len s a data).2 (writeLoop offset perm' put' len t a data).2 := by
  induction data generalizing s t a with
  | nil => exact ⟨rfl, h⟩
  | cons b bs ih =>
    rw [writeLoop, writeLoop]
    cases ho : offset a with
    | none => exact ⟨rfl, h⟩
    | some off =>
      simp only [hperm h ho]
      split
      · exact ⟨rfl, h⟩
      · exact ih (hput h ho) (a + 1)

namespace Mmu

/-! ## Marking dirty blocks leaves the planes alone -/

/-- The two memories differ in their dirty bookkeeping only. -/
structure SamePlanes (m m' : Mmu) : Prop where
  base : m'.base = m.base
  size : m'.size = m.size
  mem : m'.mem = m.mem
  perms : m'.perms = m.perms
  trackDirty : m'.trackDirty = m.trackDirty

/-- A memory has its own planes. -/
theorem SamePlanes.refl (m : Mmu) : SamePlanes m m := ⟨rfl, rfl, rfl, rfl, rfl⟩

/-- Having the same planes is transitive. -/
theorem SamePlanes.trans {m₁ m₂ m₃ : Mmu} (h : SamePlanes m₁ m₂) (h' : SamePlanes m₂ m₃) :
    SamePlanes m₁ m₃ :=
  ⟨h'.base.trans h.base, h'.size.trans h.size, h'.mem.trans h.mem, h'.perms.trans h.perms,
    h'.trackDirty.trans h.trackDirty⟩

/-- Marking a block leaves the planes. -/
theorem samePlanes_markBlock (m : Mmu) (blk : Nat) : SamePlanes m (m.markBlock blk) := by
  unfold markBlock
  split <;> exact ⟨rfl, rfl, rfl, rfl, rfl⟩

/-- A loop leaves the planes if each of its rounds does. -/
theorem samePlanes_foldl {f : Mmu → Nat → Mmu} (hf : ∀ m k, SamePlanes m (f m k)) (ks : List Nat)
    (m : Mmu) : SamePlanes m (ks.foldl f m) := by
  induction ks generalizing m with
  | nil => exact .refl m
  | cons k ks ih => exact (hf m k).trans (ih _)

/-- `putByte` without its bookkeeping. -/
theorem samePlanes_putByte (m : Mmu) (off : Nat) (b : U8) :
    SamePlanes { m with
      mem := setAt m.mem off b
      perms := setAt m.perms off (writtenPerm (m.perms off)) } (m.putByte off b) := by
  unfold putByte
  split
  · exact samePlanes_markBlock _ _
  · exact .refl _

/-- `putSpan` without its bookkeeping. -/
theorem samePlanes_putSpan (m : Mmu) (off : Nat) (data : List U8) :
    SamePlanes { m with
      mem := setSpan m.mem off data
      perms := mapSpan m.perms off data.length writtenPerm } (m.putSpan off data) := by
  unfold putSpan
  split
  · exact samePlanes_foldl samePlanes_markBlock _ _
  · exact .refl _

/-- A granted pointer leaves the planes. -/
theorem samePlanes_fastPtr (m : Mmu) (addr : U32) (len : Nat) (need : U8) :
    SamePlanes m (m.fastPtr addr len need).2 := by
  unfold fastPtr
  split
  · exact .refl m
  · split
    · split
      · exact samePlanes_foldl (fun m k => samePlanes_markBlock m _) _ _
      · exact .refl m
    · exact .refl m

/-- A span is served when it is in the window and every byte has the permission. -/
theorem spanHas_eq_some {m : Mmu} {need : U8} {addr : U32} {len off : Nat} :
    m.spanHas need addr len = some off ↔ m.offset addr = some off ∧ off + len ≤ m.size ∧
      ∀ i < len, m.perms (off + i) &&& need ≠ 0 := by
  unfold spanHas
  cases ho : m.offset addr with
  | none => simp
  | some off' =>
    simp only [allSpan_eq_true, decide_eq_true_eq, Option.ite_none_right_eq_some, Option.some.injEq]
    constructor
    · rintro ⟨⟨h1, h2⟩, rfl⟩
      exact ⟨rfl, h1, h2⟩
    · rintro ⟨rfl, h1, h2⟩
      exact ⟨⟨h1, h2⟩, rfl⟩

/-- Inside the window, with every WRITE bit present and no wrap-around, the byte-wise write succeeds
and leaves the planes of the contiguous write. -/
theorem writeLoop_span {base : U32} {size : Nat} (len : U32) {data : List U8} :
    ∀ (m : Mmu) {a : U32} {off : Nat}, windowOffset base size a = some off →
    off + data.length ≤ size → a.toNat + data.length ≤ 2 ^ 32 →
    (∀ i < data.length, m.perms (off + i) &&& PERM_WRITE ≠ 0) →
    (writeLoop (windowOffset base size) Mmu.perms putByte len m a data).1 = .ok () ∧
    SamePlanes { m with
      mem := setSpan m.mem off data
      perms := mapSpan m.perms off data.length writtenPerm }
      (writeLoop (windowOffset base size) Mmu.perms putByte len m a data).2 := by
  induction data with
  | nil =>
    intro m a off _ _ _ _
    refine ⟨rfl, ?_⟩
    simp only [setSpan_nil, List.length_nil, mapSpan_zero]
    exact .refl m
  | cons b bs ih =>
    intro m a off ho hs hw hp
    simp only [List.length_cons] at hs hw hp
    have h0 : m.perms off &&& PERM_WRITE ≠ 0 := hp 0 (Nat.succ_pos _)
    have hput := samePlanes_putByte m off b
    rw [writeLoop, ho]
    simp only [h0, if_false]
    cases bs with
    | nil =>
      refine ⟨rfl, ?_⟩
      simp only [setSpan_cons, setSpan_nil, List.length_singleton, mapSpan_succ, mapSpan_zero]
      exact hput
    | cons b' bs =>
      simp only [List.length_cons] at hs hw hp
      have hw' : (a + 1).toNat = a.toNat + 1 := by
        rw [BitVec.toNat_add]
        exact Nat.mod_eq_of_lt (by simp; omega)
      have hperm : ∀ i < (b' :: bs).length,
          (m.putByte off b).perms (off + 1 + i) &&& PERM_WRITE ≠ 0 := by
        intro i hi
        simp only [List.length_cons] at hi
        rw [hput.perms]
        simp only [setAt_of_ne _ _ (show off + 1 + i ≠ off by omega)]
        rw [Nat.add_right_comm, Nat.add_assoc]
        exact hp (i + 1) (by omega)
      obtain ⟨hok, hpl⟩ := ih (m.putByte off b) (windowOffset_succ ho (by omega) (by omega))
        (by simp only [List.length_cons]; omega) (by simp only [List.length_cons]; omega) hperm
      refine ⟨hok, ⟨?_, ?_, ?_, ?_, ?_⟩⟩
      · exact hpl.base.trans hput.base
      · exact hpl.size.trans hput.size
      · rw [setSpan_cons, hpl.mem, hput.mem]
      · rw [List.length_cons, mapSpan_succ, hpl.perms, hput.perms]
      · exact hpl.trackDirty.trans hput.trackDirty

end Mmu

/-! ## Agreement -/

/-- The view `c` shows, at every offset of the window, the data and permission byte of `m`. -/
structure Agree (m : Mmu) (c : CowRam) : Prop where
  inv : c.Inv
  base : c.golden.base = m.base
  size : c.golden.size = m.size
  mem : ∀ {off}, off < m.size → c.memAt off = m.mem off
  perms : ∀ {off}, off < m.size → c.permOf off = m.perms off

/-- A fresh view over the image of `m` shows `m`. -/
theorem agree_new (m : Mmu) : Agree m (CowRam.new (Golden.fromMmu m)) where
  inv := CowRam.inv_new _
  base := rfl
  size := rfl
  mem {off} _ := by
    rw [CowRam.memAt, CowRam.resolve_golden rfl]
    simp only [CowRam.pageOffset_eq]
    rfl
  perms {off} _ := by
    rw [CowRam.permOf, CowRam.resolve_golden rfl]
    simp only [CowRam.pageOffset_eq]
    rfl

namespace Agree

variable {m m' : Mmu} {c : CowRam}

/-- Dirty bookkeeping is invisible to the agreement. -/
theorem congr (h : Agree m c) (hs : m.SamePlanes m') : Agree m' c where
  inv := h.inv
  base := h.base.trans hs.base.symm
  size := h.size.trans hs.size.symm
  mem ho := by
    rw [hs.size] at ho
    rw [hs.mem]
    exact h.mem ho
  perms ho := by
    rw [hs.size] at ho
    rw [hs.perms]
    exact h.perms ho

/-- The views have the same window. -/
theorem offset_eq (h : Agree m c) (addr : U32) : c.offset addr = m.offset addr := by
  rw [CowRam.offset, Mmu.offset, h.base, h.size]

/-- An offset is in the window and fits a word. -/
theorem offset_lt {addr : U32} {off : Nat} (ho : m.offset addr = some off) :
    off < m.size ∧ off < 2 ^ 32 := by
  obtain ⟨h1, h2⟩ := windowOffset_eq_some.1 ho
  exact ⟨h2, by have := addr.isLt; omega⟩

/-- The in-page offsets of a span that stays inside its page. -/
theorem page_span {off len i : Nat} (hp : off % PAGE_SIZE + len ≤ PAGE_SIZE) (hi : i < len) :
    (off + i) / PAGE_SIZE = off / PAGE_SIZE ∧ (off + i) % PAGE_SIZE = off % PAGE_SIZE + i := by
  simp only [PAGE_SIZE] at *
  omega

/-- The page overlaid by a write keeps the agreement when the new page shows the new flat memory and
the rest of the flat memory is unchanged. -/
theorem updatePage (h : Agree m c) {off : Nat} (hoff : off < 2 ^ 32) {f : Nat → CowPage → CowPage}
    (hbase : m'.base = m.base) (hsize : m'.size = m.size)
    (hrest : ∀ o, o / PAGE_SIZE ≠ off / PAGE_SIZE → m'.mem o = m.mem o ∧ m'.perms o = m.perms o)
    (hpage : ∀ p : CowPage,
      (∀ o < m.size, o / PAGE_SIZE = off / PAGE_SIZE →
        p.mem (o % PAGE_SIZE) = m.mem o ∧ p.perms (o % PAGE_SIZE) = m.perms o) →
      ∀ o < m.size, o / PAGE_SIZE = off / PAGE_SIZE →
        (f (off % PAGE_SIZE) p).mem (o % PAGE_SIZE) = m'.mem o ∧
          (f (off % PAGE_SIZE) p).perms (o % PAGE_SIZE) = m'.perms o) :
    Agree m' (c.updatePage off f) := by
  have hu := h.inv.updatePage hoff f
  obtain ⟨p, hp, heq⟩ := hu.here
  have hbefore : ∀ o < m.size, o / PAGE_SIZE = off / PAGE_SIZE →
      p.mem (o % PAGE_SIZE) = m.mem o ∧ p.perms (o % PAGE_SIZE) = m.perms o := by
    intro o ho hpn
    obtain ⟨h1, h2⟩ := hp (o % PAGE_SIZE) (by rw [← hpn, CowRam.pageOffset_eq, h.size]; exact ho)
    rw [h1, h2, ← hpn]
    exact ⟨h.mem ho, h.perms ho⟩
  have hafter : ∀ o < m.size, (c.updatePage off f).memAt o = m'.mem o ∧
      (c.updatePage off f).permOf o = m'.perms o := by
    intro o ho
    rw [CowRam.memAt, CowRam.permOf]
    by_cases hpn : o / PAGE_SIZE = off / PAGE_SIZE
    · rw [hpn, heq]
      exact hpage p hbefore o ho hpn
    · rw [hu.others _ hpn, (hrest o hpn).1, (hrest o hpn).2]
      exact ⟨h.mem ho, h.perms ho⟩
  refine ⟨hu.inv, ?_, ?_, ?_, ?_⟩
  · rw [hu.golden, h.base, hbase]
  · rw [hu.golden, h.size, hsize]
  · intro o ho
    exact (hafter o (hsize ▸ ho)).1
  · intro o ho
    exact (hafter o (hsize ▸ ho)).2

/-! ### Reads -/

/-- The byte-wise reads agree. -/
theorem readBytewise (h : Agree m c) (need : U8) (access : Access) (addr : U32) (len : Nat) :
    c.readBytewise need access addr len = m.readBytewise need access addr len := by
  have hoff : c.offset = m.offset := funext h.offset_eq
  rw [CowRam.readBytewise, Mmu.readBytewise, hoff]
  refine readLoop_congr (fun a off ho => ?_) _ _ _ _ _
  exact ⟨h.mem (offset_lt ho).1, h.perms (offset_lt ho).1⟩

/-- The view's fast path accepts exactly what the flat one accepts and what stays in one page. -/
theorem spanHas_iff (h : Agree m c) {need : U8} {addr : U32} {len off : Nat} :
    c.spanHas need addr len = some off ↔
      m.spanHas need addr len = some off ∧ off % PAGE_SIZE + len ≤ PAGE_SIZE := by
  rw [Mmu.spanHas_eq_some, CowRam.spanHas, h.offset_eq]
  cases ho : m.offset addr with
  | none => simp
  | some off' =>
    simp only [allSpan_eq_true, decide_eq_true_eq, Option.ite_none_right_eq_some,
      Option.some.injEq, h.size]
    have hperm : off' + len ≤ m.size → off' % PAGE_SIZE + len ≤ PAGE_SIZE → ∀ i < len,
        (c.resolve (off' / PAGE_SIZE)).perms (off' % PAGE_SIZE + i) = m.perms (off' + i) := by
      intro hs hp i hi
      obtain ⟨h1, h2⟩ := page_span hp hi
      rw [← h1, ← h2]
      exact h.perms (by omega)
    constructor
    · rintro ⟨⟨hs, hp, ha⟩, rfl⟩
      exact ⟨⟨rfl, hs, fun i hi => hperm hs hp i hi ▸ ha i hi⟩, hp⟩
    · rintro ⟨⟨rfl, hs, ha⟩, hp⟩
      exact ⟨⟨hs, hp, fun i hi => (hperm hs hp i hi).symm ▸ ha i hi⟩, rfl⟩

/-- A span inside one page reads the same through the directory. -/
theorem readPage (h : Agree m c) {off len : Nat} (hs : off + len ≤ m.size)
    (hp : off % PAGE_SIZE + len ≤ PAGE_SIZE) : c.readPage off len = readSpan m.mem off len := by
  refine readSpan_congr fun i hi => ?_
  obtain ⟨h1, h2⟩ := page_span hp hi
  rw [← h1, ← h2]
  exact h.mem (by omega)

end Agree

/-- The flat fast path does not accept a span that leaves its page and runs past `2 ^ 32`. -/
def SpanClear (m : Mmu) (need : U8) (addr : U32) (len : Nat) : Prop :=
  ∀ off, m.spanHas need addr len = some off →
    off % PAGE_SIZE + len ≤ PAGE_SIZE ∨ addr.toNat + len ≤ 2 ^ 32

instance (m : Mmu) (need : U8) (addr : U32) (len : Nat) : Decidable (SpanClear m need addr len) :=
  match h : m.spanHas need addr len with
  | none => isTrue fun off ho => by rw [h] at ho; cases ho
  | some off =>
    decidable_of_iff (off % PAGE_SIZE + len ≤ PAGE_SIZE ∨ addr.toNat + len ≤ 2 ^ 32)
      ⟨fun hc o ho => by rw [h] at ho; cases ho; exact hc, fun hc => hc off h⟩

/-- An aligned access of one, two or four bytes never runs past `2 ^ 32`. -/
theorem aligned_no_wrap {addr : U32} {n : Nat} (hn : n = 1 ∨ n = 2 ∨ n = 4)
    (ha : addr.toNat % n = 0) : addr.toNat + n ≤ 2 ^ 32 := by
  have := addr.isLt
  rcases hn with rfl | rfl | rfl <;> omega

/-- An aligned access stays on one page, so its span is clear. -/
theorem spanClear_of_aligned {m : Mmu} {need : U8} {addr : U32} {n : Nat}
    (hn : n = 1 ∨ n = 2 ∨ n = 4) (ha : addr.toNat % n = 0) : SpanClear m need addr n :=
  fun _ _ => .inr (aligned_no_wrap hn ha)

namespace Agree

variable {m : Mmu} {c : CowRam}

/-- A checked read through the directory: the fast path where it applies, else byte by byte. -/
theorem checkedRead (h : Agree m c) {need : U8} (access : Access) {addr : U32} {len : Nat}
    (hc : SpanClear m need addr len) :
    (match c.spanHas need addr len with
      | some off => Except.ok (c.readPage off len)
      | none => c.readBytewise need access addr len) =
    (match m.spanHas need addr len with
      | some off => Except.ok (readSpan m.mem off len)
      | none => m.readBytewise need access addr len) := by
  cases hm : m.spanHas need addr len with
  | none =>
    have : c.spanHas need addr len = none := by
      refine Option.eq_none_iff_forall_ne_some.2 fun off ho => ?_
      rw [h.spanHas_iff, hm] at ho
      exact absurd ho.1 (by simp)
    rw [this]
    exact h.readBytewise need access addr len
  | some off =>
    obtain ⟨ho, hs, ha⟩ := Mmu.spanHas_eq_some.1 hm
    by_cases hp : off % PAGE_SIZE + len ≤ PAGE_SIZE
    · rw [h.spanHas_iff.2 ⟨hm, hp⟩]
      simp only [h.readPage hs hp]
    · have : c.spanHas need addr len = none := by
        refine Option.eq_none_iff_forall_ne_some.2 fun off' ho' => ?_
        rw [h.spanHas_iff, hm] at ho'
        obtain ⟨he, hp'⟩ := ho'
        cases he
        exact hp hp'
      rw [this]
      simp only [h.readBytewise]
      exact readLoop_span ho hs ((hc off hm).resolve_left hp) ha

/-- Reads of a clear span agree. -/
theorem read (h : Agree m c) {addr : U32} {len : Nat} (hc : SpanClear m PERM_READ addr len) :
    c.read addr len = m.read addr len :=
  h.checkedRead .read hc

/-- Fetches of a clear span agree. -/
theorem fetchBytes (h : Agree m c) {addr : U32} {n : Nat} (hc : SpanClear m PERM_EXEC addr n) :
    c.fetchBytes addr n = m.fetchBytes addr n :=
  h.checkedRead .exec hc

/-- Byte loads agree. -/
theorem readU8 (h : Agree m c) (addr : U32) : c.readU8 addr = m.readU8 addr := by
  rw [CowRam.readU8, Mmu.readU8, h.read (spanClear_of_aligned (by simp) (Nat.mod_one _))]

/-- Halfword loads agree. -/
theorem readU16 (h : Agree m c) (addr : U32) : c.readU16 addr = m.readU16 addr := by
  rw [CowRam.readU16, Mmu.readU16, checkAlign]
  split
  next ha => rw [h.read (spanClear_of_aligned (by simp) ha)]
  next => rfl

/-- Word loads agree. -/
theorem readU32 (h : Agree m c) (addr : U32) : c.readU32 addr = m.readU32 addr := by
  rw [CowRam.readU32, Mmu.readU32, checkAlign]
  split
  next ha => rw [h.read (spanClear_of_aligned (by simp) ha)]
  next => rfl

/-- Loads agree, whatever their size. -/
theorem load (h : Agree m c) (addr : U32) (size : Nat) : c.load addr size = m.load addr size :=
  match size with
  | 1 => by
    show (c.readU8 addr).map _ = (m.readU8 addr).map _
    rw [h.readU8]
  | 2 => by
    show (c.readU16 addr).map _ = (m.readU16 addr).map _
    rw [h.readU16]
  | 0 | _ + 3 => h.readU32 addr

/-- Halfword fetches agree. -/
theorem fetchU16 (h : Agree m c) (addr : U32) : c.fetchU16 addr = m.fetchU16 addr := by
  rw [CowRam.fetchU16, Mmu.fetchU16, checkAlign]
  split
  next ha => rw [h.fetchBytes (spanClear_of_aligned (by simp) ha)]
  next => rfl

/-- The permission bytes agree. -/
theorem permAt (h : Agree m c) (addr : U32) : c.permAt addr = m.permAt addr := by
  rw [CowRam.permAt, Mmu.permAt, h.offset_eq]
  cases ho : m.offset addr with
  | none => rfl
  | some off => exact congrArg some (h.perms (offset_lt ho).1)

/-- The marks of a span agree. -/
theorem readRawState (h : Agree m c) (addr : U32) (len : Nat) :
    c.readRawState addr len = m.readRawState addr len := by
  rw [CowRam.readRawState, Mmu.readRawState]
  congr 1
  funext i
  rw [h.offset_eq]
  cases ho : m.offset (addr + BitVec.ofNat 32 i) with
  | none => rfl
  | some off => simp only [h.perms (offset_lt ho).1]

/-! ### Writes -/

/-- A byte written on both sides. -/
theorem putByte (h : Agree m c) {off : Nat} (hoff : off < 2 ^ 32) (b : U8) :
    Agree (m.putByte off b) (c.putByte off b) := by
  refine congr (m := _) ?_ (Mmu.samePlanes_putByte m off b)
  refine h.updatePage hoff rfl rfl (fun o hne => ?_) (fun p hp o ho hpn => ?_)
  · have : o ≠ off := fun he => hne (by rw [he])
    exact ⟨setAt_of_ne _ _ this, setAt_of_ne _ _ this⟩
  · obtain ⟨h1, h2⟩ := hp o ho hpn
    by_cases he : o = off
    · subst he
      simp [h2]
    · have hpo : o % PAGE_SIZE ≠ off % PAGE_SIZE := fun hmod => he (by
        rw [← CowRam.pageOffset_eq o, ← CowRam.pageOffset_eq off, hpn, hmod])
      simp only [setAt_of_ne _ _ hpo, setAt_of_ne _ _ he]
      exact ⟨h1, h2⟩

/-- A span inside one page, moved into the page: its membership and its index carry over. -/
theorem page_shift {off o : Nat} (len : Nat) (hpn : o / PAGE_SIZE = off / PAGE_SIZE) :
    (off % PAGE_SIZE ≤ o % PAGE_SIZE ↔ off ≤ o) ∧
    (o % PAGE_SIZE < off % PAGE_SIZE + len ↔ o < off + len) ∧
    (off ≤ o → o % PAGE_SIZE - off % PAGE_SIZE = o - off) := by
  simp only [PAGE_SIZE] at *
  omega

/-- Offsets of other pages are outside a span that stays inside its page. -/
theorem other_page {off len o : Nat} (hp : off % PAGE_SIZE + len ≤ PAGE_SIZE)
    (hpn : o / PAGE_SIZE ≠ off / PAGE_SIZE) : o < off ∨ off + len ≤ o := by
  simp only [PAGE_SIZE] at *
  omega

/-- Overwriting a span of one page, seen through the page and through the plane. -/
theorem setSpan_page {off o : Nat} {data : List U8} {f g : Nat → U8}
    (hpn : o / PAGE_SIZE = off / PAGE_SIZE)
    (hfg : f (o % PAGE_SIZE) = g o) :
    setSpan f (off % PAGE_SIZE) data (o % PAGE_SIZE) = setSpan g off data o := by
  obtain ⟨h1, -, h3⟩ := page_shift data.length hpn
  by_cases ho : off ≤ o
  · rw [setSpan, setSpan, if_pos (h1.2 ho), if_pos ho, h3 ho, hfg]
  · rw [setSpan_of_lt _ _ (by omega), setSpan_of_lt _ _ (by omega), hfg]

/-- An update of a span on one page, seen on the page. -/
theorem mapSpan_page {off len o : Nat} {w : U8 → U8} {f g : Nat → U8}
    (hpn : o / PAGE_SIZE = off / PAGE_SIZE)
    (hfg : f (o % PAGE_SIZE) = g o) :
    mapSpan f (off % PAGE_SIZE) len w (o % PAGE_SIZE) = mapSpan g off len w o := by
  obtain ⟨h1, h2, -⟩ := page_shift len hpn
  rw [mapSpan, mapSpan, hfg]
  simp only [h1, h2]

/-- An update of a span on one page leaves the other pages. -/
theorem setSpan_other {off o : Nat} {data : List U8} (g : Nat → U8)
    (hp : off % PAGE_SIZE + data.length ≤ PAGE_SIZE) (hpn : o / PAGE_SIZE ≠ off / PAGE_SIZE) :
    setSpan g off data o = g o := by
  rcases other_page hp hpn with ho | ho
  · exact setSpan_of_lt _ _ ho
  · exact setSpan_of_ge _ _ ho

/-- A span on one page written on both sides. -/
theorem putSpan (h : Agree m c) {off : Nat} (hoff : off < 2 ^ 32) {data : List U8}
    (hp : off % PAGE_SIZE + data.length ≤ PAGE_SIZE) :
    Agree (m.putSpan off data) (c.putSpan off data) := by
  refine congr (m := _) ?_ (Mmu.samePlanes_putSpan m off data)
  refine h.updatePage hoff rfl rfl (fun o hne => ?_) (fun p hpg o ho hpn => ?_)
  · refine ⟨setSpan_other _ hp hne, if_neg ?_⟩
    have := other_page hp hne
    omega
  · obtain ⟨h1, h2⟩ := hpg o ho hpn
    exact ⟨setSpan_page hpn h1, mapSpan_page hpn h2⟩

/-- The byte-wise writes agree. -/
theorem writeBytewise (h : Agree m c) (addr : U32) (data : List U8) :
    (c.writeBytewise addr data).1 = (m.writeBytewise addr data).1 ∧
      Agree (m.writeBytewise addr data).2 (c.writeBytewise addr data).2 := by
  have hoff : c.offset = m.offset := funext h.offset_eq
  rw [CowRam.writeBytewise, Mmu.writeBytewise, hoff]
  have key := @writeLoop_sim _ _ (fun (m' : Mmu) c' => Agree m' c' ∧ m'.size = m.size)
    m.offset Mmu.perms CowRam.permOf Mmu.putByte CowRam.putByte (fun hR ho => (hR.1.perms (hR.2 ▸ (offset_lt ho).1)).symm)
    (fun {s t a off b} hR ho => ⟨hR.1.putByte (offset_lt ho).2 b,
      (Mmu.samePlanes_putByte s off b).size.trans hR.2⟩)
    (BitVec.ofNat 32 data.length) m c ⟨h, rfl⟩ addr data
  exact ⟨key.1.symm, key.2.1⟩

/-- The flat write of an accepted span that does not wrap is its byte-wise write, up to the dirty
bookkeeping. -/
theorem write_eq_bytewise {addr : U32} {data : List U8} {off : Nat}
    (hm : m.spanHas PERM_WRITE addr data.length = some off)
    (hw : addr.toNat + data.length ≤ 2 ^ 32) :
    (m.writeBytewise addr data).1 = .ok () ∧
      (m.writeBytewise addr data).2.SamePlanes (m.putSpan off data) := by
  obtain ⟨ho, hs, ha⟩ := Mmu.spanHas_eq_some.1 hm
  obtain ⟨hok, hpl⟩ := Mmu.writeLoop_span (BitVec.ofNat 32 data.length) m ho hs hw ha
  have hsp := Mmu.samePlanes_putSpan m off data
  exact ⟨hok, hsp.base.trans hpl.base.symm, hsp.size.trans hpl.size.symm,
    hsp.mem.trans hpl.mem.symm, hsp.perms.trans hpl.perms.symm,
    hsp.trackDirty.trans hpl.trackDirty.symm⟩

/-- Writes of a clear span agree. -/
theorem write (h : Agree m c) {addr : U32} {data : List U8}
    (hc : SpanClear m PERM_WRITE addr data.length) :
    (c.write addr data).1 = (m.write addr data).1 ∧
      Agree (m.write addr data).2 (c.write addr data).2 := by
  unfold CowRam.write Mmu.write
  cases hm : m.spanHas PERM_WRITE addr data.length with
  | none =>
    have : c.spanHas PERM_WRITE addr data.length = none := by
      refine Option.eq_none_iff_forall_ne_some.2 fun off ho => ?_
      rw [h.spanHas_iff, hm] at ho
      exact absurd ho.1 (by simp)
    rw [this]
    exact h.writeBytewise addr data
  | some off =>
    have ho := (Mmu.spanHas_eq_some.1 hm).1
    by_cases hp : off % PAGE_SIZE + data.length ≤ PAGE_SIZE
    · rw [h.spanHas_iff.2 ⟨hm, hp⟩]
      exact ⟨rfl, h.putSpan (offset_lt ho).2 hp⟩
    · have : c.spanHas PERM_WRITE addr data.length = none := by
        refine Option.eq_none_iff_forall_ne_some.2 fun off' ho' => ?_
        rw [h.spanHas_iff, hm] at ho'
        obtain ⟨he, hp'⟩ := ho'
        cases he
        exact hp hp'
      obtain ⟨hok, hpl⟩ := write_eq_bytewise hm ((hc off hm).resolve_left hp)
      obtain ⟨h1, h2⟩ := h.writeBytewise addr data
      rw [this]
      exact ⟨h1.trans hok, h2.congr hpl⟩

/-- Aligned stores agree. -/
theorem writeAligned (h : Agree m c) (addr : U32) {n : Nat} (hn : n = 1 ∨ n = 2 ∨ n = 4)
    (v : U32) : (c.writeAligned addr n v).1 = (m.writeAligned addr n v).1 ∧
      Agree (m.writeAligned addr n v).2 (c.writeAligned addr n v).2 := by
  by_cases ha : addr.toNat % n = 0
  · have hok : checkAlign addr n .write = .ok () := if_pos ha
    simp only [CowRam.writeAligned, Mmu.writeAligned, hok]
    refine h.write ?_
    rw [length_leBytes]
    exact spanClear_of_aligned hn ha
  · have herr : checkAlign addr n .write = .error _ := if_neg ha
    simp only [CowRam.writeAligned, Mmu.writeAligned, herr]
    exact ⟨trivial, h⟩

/-- Stores agree, whatever their size. -/
theorem store (h : Agree m c) (addr : U32) (v : U32) : ∀ size : Nat,
    (c.store addr size v).1 = (m.store addr size v).1 ∧
      Agree (m.store addr size v).2 (c.store addr size v).2
  | 1 => h.writeAligned addr (by simp) v
  | 2 => h.writeAligned addr (by simp) v
  | 0 | _ + 3 => h.writeAligned addr (by simp) v

/-! ### The taint shadow -/

/-- The offset of byte `i` of a span that starts in the window and does not wrap. -/
theorem offset_add {addr : U32} {off i : Nat} (ho : m.offset addr = some off)
    (hw : addr.toNat + i < 2 ^ 32) :
    m.offset (addr + BitVec.ofNat 32 i) = if off + i < m.size then some (off + i) else none := by
  obtain ⟨h1, h2⟩ := windowOffset_eq_some.1 ho
  have hn : (addr + BitVec.ofNat 32 i).toNat = addr.toNat + i := by
    rw [BitVec.toNat_add, BitVec.toNat_ofNat]
    omega
  split
  next hs => exact windowOffset_eq_some.2 ⟨by omega, hs⟩
  next hs => exact windowOffset_eq_none.2 (.inr (by omega))

/-- Scattering a mask into the page and into the plane, byte by byte. -/
theorem shadow_sim {addr : U32} (mask : U32) {off : Nat} (ho : m.offset addr = some off) (is : List Nat)
    (his : ∀ i ∈ is, off % PAGE_SIZE + i < PAGE_SIZE ∧ addr.toNat + i < 2 ^ 32) :
    ∀ (m' : Mmu) (g : Nat → U8), m'.base = m.base → m'.size = m.size →
    (∀ o < m.size, o / PAGE_SIZE = off / PAGE_SIZE → g (o % PAGE_SIZE) = m'.perms o) →
    let m'' := is.foldl (Mmu.shadowByte addr mask) m'
    let g' := is.foldl (fun f i => setAt f (off % PAGE_SIZE + i)
      (taintPerm mask i (f (off % PAGE_SIZE + i)))) g
    m''.base = m'.base ∧ m''.size = m'.size ∧ m''.mem = m'.mem ∧
    (∀ o < m.size, o / PAGE_SIZE = off / PAGE_SIZE → g' (o % PAGE_SIZE) = m''.perms o) ∧
    (∀ o, o / PAGE_SIZE ≠ off / PAGE_SIZE → m''.perms o = m'.perms o) := by
  induction is with
  | nil =>
    intro m' g _ _ hg
    exact ⟨rfl, rfl, rfl, hg, fun _ _ => rfl⟩
  | cons i is ih =>
    intro m' g hb hs hg
    obtain ⟨hpo, hw⟩ := his i List.mem_cons_self
    have hoff : m'.offset (addr + BitVec.ofNat 32 i) =
        if off + i < m.size then some (off + i) else none := by
      rw [Mmu.offset, hb, hs]
      exact offset_add ho hw
    obtain ⟨hpn, hmod⟩ := page_span (show off % PAGE_SIZE + (i + 1) ≤ PAGE_SIZE by omega)
      (Nat.lt_succ_self i)
    simp only [List.foldl_cons]
    by_cases hin : off + i < m.size
    · have hstep : Mmu.shadowByte addr mask m' i = { m' with
          perms := setAt m'.perms (off + i) (taintPerm mask i (m'.perms (off + i))) } := by
        simp only [Mmu.shadowByte, hoff, hin, if_true]
      rw [hstep]
      have hg0 := hg (off + i) hin hpn
      rw [hmod] at hg0
      obtain ⟨h1, h2, h3, h4, h5⟩ := ih (fun j hj => his j (List.mem_cons_of_mem _ hj))
        { m' with
          perms := setAt m'.perms (off + i) (taintPerm mask i (m'.perms (off + i))) }
        (setAt g (off % PAGE_SIZE + i) (taintPerm mask i (g (off % PAGE_SIZE + i)))) hb hs (fun o hos hopn => by
          dsimp only
          by_cases he : o = off + i
          · subst he
            rw [hmod, setAt_self, setAt_self, hg0]
          · have hne : o % PAGE_SIZE ≠ off % PAGE_SIZE + i := fun hm => he (by
              rw [← CowRam.pageOffset_eq o, ← CowRam.pageOffset_eq (off + i), hopn, hpn, hm, hmod])
            rw [setAt_of_ne _ _ hne, setAt_of_ne _ _ he]
            exact hg o hos hopn)
      refine ⟨h1, h2, h3, h4, fun o hne => (h5 o hne).trans ?_⟩
      exact setAt_of_ne _ _ fun he => hne (by rw [he, hpn])
    · have hstep : Mmu.shadowByte addr mask m' i = m' := by
        simp only [Mmu.shadowByte, hoff, hin, if_false]
      rw [hstep]
      refine ih (fun j hj => his j (List.mem_cons_of_mem _ hj)) m' _ hb hs (fun o hos hopn => ?_)
      have hne : o % PAGE_SIZE ≠ off % PAGE_SIZE + i := fun hm => hin (by
        rw [← CowRam.pageOffset_eq (off + i), hpn, hmod, ← hm, ← hopn, CowRam.pageOffset_eq]
        exact hos)
      rw [setAt_of_ne _ _ hne]
      exact hg o hos hopn

/-- Marks outside the window are dropped. -/
theorem shadow_none {addr mask : U32} {is : List Nat}
    (h : ∀ i ∈ is, m.offset (addr + BitVec.ofNat 32 i) = none) :
    is.foldl (Mmu.shadowByte addr mask) m = m := by
  induction is with
  | nil => rfl
  | cons i is ih =>
    have hi : Mmu.shadowByte addr mask m i = m := by
      simp only [Mmu.shadowByte, h i List.mem_cons_self]
    rw [List.foldl_cons, hi]
    exact ih fun j hj => h j (List.mem_cons_of_mem _ hj)

end Agree

/-- A taint span that does not wrap and either starts in the window and stays inside one page of it,
or misses the window altogether. -/
def ShadowClear (m : Mmu) (addr : U32) (len : Nat) : Prop :=
  addr.toNat + min len 4 ≤ 2 ^ 32 ∧
    match m.offset addr with
    | some off => off % PAGE_SIZE + min len 4 ≤ PAGE_SIZE
    | none => ∀ i < min len 4, m.offset (addr + BitVec.ofNat 32 i) = none

instance (m : Mmu) (addr : U32) (len : Nat) : Decidable (ShadowClear m addr len) := by
  unfold ShadowClear
  cases m.offset addr <;> infer_instance

/-- A span the flat memory grants a pointer for stays inside one page of the window. -/
def FastClear (m : Mmu) (addr : U32) (len : Nat) (need : U8) : Prop :=
  match m.offset addr with
  | some off => (m.fastPtr addr len need).1 ≠ none → off % PAGE_SIZE + len ≤ PAGE_SIZE
  | none => True

instance (m : Mmu) (addr : U32) (len : Nat) (need : U8) :
    Decidable (FastClear m addr len need) := by
  unfold FastClear
  cases m.offset addr <;> infer_instance

namespace Agree

variable {m : Mmu} {c : CowRam}

/-- Writes of marks agree on a span that does not leave its page. -/
theorem writeShadow (h : Agree m c) {addr mask : U32} {len : Nat} (hc : ShadowClear m addr len) :
    Agree (m.writeShadow addr len mask) (c.writeShadow addr len mask) := by
  obtain ⟨hw, hc⟩ := hc
  rw [CowRam.writeShadow, h.offset_eq]
  cases ho : m.offset addr with
  | none =>
    rw [ho] at hc
    rw [Mmu.writeShadow, shadow_none fun i hi => hc i (List.mem_range.1 hi)]
    exact h
  | some off =>
    rw [ho] at hc
    simp only at hc
    simp only [Nat.not_lt.2 hc, if_false]
    have his : ∀ i ∈ List.range (min len 4),
        off % PAGE_SIZE + i < PAGE_SIZE ∧ addr.toNat + i < 2 ^ 32 := by
      intro i hi
      have := List.mem_range.1 hi
      omega
    obtain ⟨h1, h2, h3, -, h5⟩ := shadow_sim mask ho _ his m
      (fun po => m.perms (off / PAGE_SIZE * PAGE_SIZE + po)) rfl rfl
      (fun o _ hpn => by rw [← hpn, CowRam.pageOffset_eq])
    refine h.updatePage (offset_lt ho).2 h1 h2 (fun o hne => ⟨congrFun h3 o, h5 o hne⟩) ?_
    intro p hp o hos hpn
    obtain ⟨-, -, -, h4, -⟩ := shadow_sim mask ho _ his m p.perms rfl rfl
      (fun o hos hpn => (hp o hos hpn).2)
    exact ⟨(hp o hos hpn).1.trans (congrFun h3 o).symm, h4 o hos hpn⟩

/-! ### The fast store -/

/-- The flat memory grants a pointer exactly for an in-bounds span of trivial permissions. -/
theorem fastPtr_eq_some {addr : U32} {len off : Nat} {need : U8} (ho : m.offset addr = some off) :
    (m.fastPtr addr len need).1 =
      if off + len ≤ m.size ∧ allSpan m.perms off (fastPerm need) len then some (.mem off)
      else none := by
  simp only [Mmu.fastPtr, ho]
  split
  · split <;> rfl
  · rfl

/-- Either both memories decline, or both grant a pointer and the store through it keeps the
agreement. -/
theorem fastStore (h : Agree m c) {addr : U32} {len : Nat} {need : U8}
    (hneed : need &&& PERM_WRITE ≠ 0) (hc : FastClear m addr len need) {bs : List U8}
    (hbs : bs.length = len) :
    ((m.fastPtr addr len need).1 = none ∧ c.fastPtr addr len need = (none, c)) ∨
    ∃ p q, (m.fastPtr addr len need).1 = some p ∧ (c.fastPtr addr len need).1 = some q ∧
      Agree ((m.fastPtr addr len need).2.ptrStore p bs)
        ((c.fastPtr addr len need).2.ptrStore q bs) := by
  have hpl := Mmu.samePlanes_fastPtr m addr len need
  cases ho : m.offset addr with
  | none =>
    left
    simp [Mmu.fastPtr, CowRam.fastPtr, h.offset_eq, ho]
  | some off =>
    by_cases hg : off + len > c.golden.size ∨ off % PAGE_SIZE + len > PAGE_SIZE
    · -- the view declines; the flat memory declines too, or the span would leave its page
      left
      refine ⟨?_, by simp only [CowRam.fastPtr, h.offset_eq, ho, hg, if_true]⟩
      by_contra hn
      have hp : off % PAGE_SIZE + len ≤ PAGE_SIZE := by
        rw [FastClear, ho] at hc
        exact hc hn
      rw [fastPtr_eq_some ho] at hn
      rw [h.size] at hg
      exact hn (if_neg (by omega))
    · have hp : off % PAGE_SIZE + len ≤ PAGE_SIZE := by omega
      have hs : off + len ≤ m.size := by rw [← h.size]; omega
      have hperm : allSpan (c.resolve (off / PAGE_SIZE)).perms (off % PAGE_SIZE) (fastPerm need) len
          = allSpan m.perms off (fastPerm need) len := by
        refine allSpan_congr fun i hi => ?_
        obtain ⟨h1, h2⟩ := page_span hp hi
        rw [← h1, ← h2]
        exact h.perms (by omega)
      by_cases hf : allSpan m.perms off (fastPerm need) len = true
      · right
        have hm1 : (m.fastPtr addr len need).1 = some (.mem off) := by
          rw [fastPtr_eq_some ho, if_pos ⟨hs, hf⟩]
        have hc1 : c.fastPtr addr len need =
            (some (.page (c.ensurePage (off / PAGE_SIZE)).1 (off % PAGE_SIZE)),
              (c.ensurePage (off / PAGE_SIZE)).2) := by
          simp only [CowRam.fastPtr, h.offset_eq, ho, hg, hperm, hf, hneed, if_true, if_false,
            ne_eq, not_false_eq_true]
        refine ⟨_, _, hm1, by rw [hc1], ?_⟩
        rw [hc1]
        -- the overlay made by `fastPtr` and the store into it are one `updatePage`
        refine h.updatePage (offset_lt ho).2 (f := fun po p => { p with mem := setSpan p.mem po bs })
          hpl.base hpl.size (fun o hne => ?_) (fun p hpg o hos hpn => ?_)
        · simp only [Mmu.ptrStore, hpl.mem, hpl.perms, and_true]
          exact setSpan_other _ (by rw [hbs]; exact hp) hne
        · obtain ⟨h1, h2⟩ := hpg o hos hpn
          simp only [Mmu.ptrStore, hpl.mem, hpl.perms]
          exact ⟨setSpan_page hpn h1, h2⟩
      · left
        refine ⟨?_, ?_⟩
        · rw [fastPtr_eq_some ho, if_neg fun hh => hf hh.2]
        · simp only [CowRam.fastPtr, h.offset_eq, ho, hg, hperm, hf, if_false]
          rfl

/-- Dropping the overlays goes back to the image the view was built over. -/
theorem reset {m₀ : Mmu} (hinv : c.Inv) (hg : c.golden = Golden.fromMmu m₀) : Agree m₀ c.reset := by
  rw [hinv.reset_eq, hg]
  exact agree_new m₀

end Agree

end FuzzSoft
