import FuzzSoft.Mmu.Access

/-!
# Dirty blocks

The invariant behind the snapshot reset (`DirtyInv`): a byte or a permission that differs from the
golden planes lies in a listed block, a block is listed exactly when its bitmap bit is set, and none
is listed twice. Every checked store keeps it, whether it goes through the contiguous path or stops
midway; a store through a granted pointer keeps it because the grant has marked the blocks; the
taint scatter keeps it on bytes whose blocks are listed, since it marks nothing. Under the invariant
`resetDirty` restores the golden planes.
-/

namespace FuzzSoft

open Lib

namespace Mmu

structure DirtyInv (gmem gperms : Nat → U8) (m : Mmu) : Prop where
  track : m.trackDirty = true
  nodup : m.dirty.Nodup
  bit : ∀ blk, m.blockBit blk = true ↔ blk ∈ m.dirty
  clean : ∀ off < m.size, off / DIRTY_BLOCK ∉ m.dirty → m.mem off = gmem off ∧
    m.perms off = gperms off

/-! ## The bitmap -/

/-- A single bit. -/
theorem getLsbD_one_shiftLeft {i j : Nat} (hj : j < 64) :
    (1#64 <<< i).getLsbD j = decide (j = i) := by
  simp only [BitVec.getLsbD_shiftLeft, BitVec.getLsbD_one]
  rcases Nat.lt_trichotomy j i with h | rfl | h
  · simp [h, Nat.ne_of_lt h]
  · simp [hj]
  · simp [Nat.ne_of_gt h, show ¬ j - i = 0 by omega]

/-- The test of a single bit. -/
theorem and_bit_ne_zero (x : U64) {i : Nat} (hi : i < 64) :
    x &&& (1#64 <<< i) ≠ 0 ↔ x.getLsbD i = true := by
  constructor
  · intro h
    by_contra hc
    refine h (BitVec.eq_of_getLsbD_eq fun j hj => ?_)
    rw [BitVec.getLsbD_and, getLsbD_one_shiftLeft hj]
    by_cases hji : j = i
    · subst hji
      simp [hc]
    · simp [hji]
  · intro h h0
    have := congrArg (fun v => v.getLsbD i) h0
    simp only [BitVec.getLsbD_and, getLsbD_one_shiftLeft hi, h] at this
    simp at this

/-- A block's bit in the bitmap. -/
theorem blockBit_eq (m : Mmu) (blk : Nat) :
    m.blockBit blk = (m.dirtyBitmap (blk / 64)).getLsbD (blk % 64) := by
  rw [Bool.eq_iff_iff, ← and_bit_ne_zero _ (Nat.mod_lt blk (by decide))]
  exact decide_eq_true_iff

/-- Marking a block sets its bit only. -/
theorem blockBit_markBlock (m : Mmu) (blk b : Nat) :
    (m.markBlock blk).blockBit b = true ↔ m.blockBit b = true ∨ b = blk := by
  unfold markBlock
  split
  next h =>
    constructor
    · exact .inl
    · rintro (h' | rfl)
      · exact h'
      · exact h
  next =>
    simp only [blockBit_eq]
    by_cases hw : b / 64 = blk / 64
    · rw [hw, setAt_self, BitVec.getLsbD_or, getLsbD_one_shiftLeft (Nat.mod_lt _ (by decide)),
        Bool.or_eq_true, decide_eq_true_iff]
      refine or_congr_right ?_
      omega
    · rw [setAt_of_ne _ _ hw]
      simp only [iff_self_or]
      rintro rfl
      exact absurd rfl hw

/-! ## Marking -/

/-- The list and the bitmap say the same, and no block is listed twice. -/
structure Tidy (m : Mmu) : Prop where
  nodup : m.dirty.Nodup
  bit : ∀ blk, m.blockBit blk = true ↔ blk ∈ m.dirty

section
variable {gmem gperms : Nat → U8} {m m' : Mmu}

/-- Tidiness depends on the list and the bitmap. -/
theorem Tidy.congr (h : Tidy m) (hd : m'.dirty = m.dirty) (hb : m'.dirtyBitmap = m.dirtyBitmap) :
    Tidy m' := by
  refine ⟨hd ▸ h.nodup, fun blk => ?_⟩
  rw [hd, ← h.bit, blockBit_eq, blockBit_eq, hb]

/-- The invariant includes tidiness. -/
theorem DirtyInv.tidy (h : DirtyInv gmem gperms m) : Tidy m := ⟨h.nodup, h.bit⟩

/-- Marking a block lists it. -/
theorem Tidy.mem_markBlock (h : Tidy m) (blk : Nat) {b : Nat} :
    b ∈ (m.markBlock blk).dirty ↔ b ∈ m.dirty ∨ b = blk := by
  unfold markBlock
  split
  next hb =>
    constructor
    · exact .inl
    · rintro (h' | rfl)
      · exact h'
      · exact (h.bit b).1 hb
  next => simp

/-- Marking a block keeps it. -/
theorem Tidy.markBlock (h : Tidy m) (blk : Nat) : Tidy (m.markBlock blk) := by
  refine ⟨?_, fun b => ?_⟩
  · unfold Mmu.markBlock
    split
    · exact h.nodup
    next hb =>
      have hnot : blk ∉ m.dirty := fun hc => hb ((h.bit blk).2 hc)
      exact List.nodup_append.2 ⟨h.nodup, List.nodup_singleton _, fun x hx y hy e => by
        rw [List.mem_singleton] at hy
        exact hnot (hy ▸ e ▸ hx)⟩
  · rw [blockBit_markBlock, h.mem_markBlock, h.bit]

/-- So does marking several. -/
theorem Tidy.markBlocks (h : Tidy m) (blks : List Nat) : Tidy (blks.foldl Mmu.markBlock m) := by
  induction blks generalizing m with
  | nil => exact h
  | cons blk blks ih => exact ih (h.markBlock blk)

/-- What is listed after a block was marked. -/
theorem DirtyInv.mem_markBlock (h : DirtyInv gmem gperms m) (blk : Nat) {b : Nat} :
    b ∈ (m.markBlock blk).dirty ↔ b ∈ m.dirty ∨ b = blk := h.tidy.mem_markBlock blk

/-- Marking a block keeps the invariant. -/
theorem DirtyInv.markBlock (h : DirtyInv gmem gperms m) (blk : Nat) :
    DirtyInv gmem gperms (m.markBlock blk) := by
  have hpl := samePlanes_markBlock m blk
  obtain ⟨hnodup, hbit⟩ := h.tidy.markBlock blk
  refine ⟨hpl.trackDirty.trans h.track, hnodup, hbit, fun off hoff hn => ?_⟩
  rw [hpl.mem, hpl.perms]
  refine h.clean off (by rwa [hpl.size] at hoff) fun hc => hn ?_
  exact (h.mem_markBlock blk).2 (.inl hc)

/-- Marking several blocks. -/
theorem DirtyInv.markBlocks (h : DirtyInv gmem gperms m) (blks : List Nat) :
    DirtyInv gmem gperms (blks.foldl Mmu.markBlock m) ∧
      ∀ b, b ∈ (blks.foldl Mmu.markBlock m).dirty ↔ b ∈ m.dirty ∨ b ∈ blks := by
  induction blks generalizing m with
  | nil => exact ⟨h, fun b => by simp⟩
  | cons blk blks ih =>
    obtain ⟨h', hmem⟩ := ih (h.markBlock blk)
    refine ⟨h', fun b => ?_⟩
    rw [List.foldl_cons, hmem, h.mem_markBlock, List.mem_cons, or_assoc]

/-! ## Changing the planes -/

/-- The memory with other planes. -/
def withPlanes (m : Mmu) (mem perms : Nat → U8) : Mmu := { m with mem := mem, perms := perms }

/-- Marking does not touch the planes. -/
theorem markBlock_withPlanes (m : Mmu) (mem perms : Nat → U8) (blk : Nat) :
    (m.withPlanes mem perms).markBlock blk = (m.markBlock blk).withPlanes mem perms := by
  have hb : (m.withPlanes mem perms).blockBit blk = m.blockBit blk := rfl
  unfold markBlock
  rw [hb]
  split <;> rfl

/-- Nor does marking several blocks. -/
theorem markBlocks_withPlanes (m : Mmu) (mem perms : Nat → U8) (blks : List Nat) :
    blks.foldl markBlock (m.withPlanes mem perms) =
      (blks.foldl markBlock m).withPlanes mem perms := by
  induction blks generalizing m with
  | nil => rfl
  | cons blk blks ih => rw [List.foldl_cons, List.foldl_cons, markBlock_withPlanes, ih]

/-- Planes that change in listed blocks only. -/
theorem DirtyInv.withPlanes (h : DirtyInv gmem gperms m) {mem perms : Nat → U8}
    (hch : ∀ off, off / DIRTY_BLOCK ∉ m.dirty → mem off = m.mem off ∧ perms off = m.perms off) :
    DirtyInv gmem gperms (m.withPlanes mem perms) where
  track := h.track
  nodup := h.nodup
  bit := h.bit
  clean off hoff hn := by
    obtain ⟨h1, h2⟩ := hch off hn
    obtain ⟨h3, h4⟩ := h.clean off hoff hn
    exact ⟨h1.trans h3, h2.trans h4⟩

/-! ## Stores -/

/-- A step that keeps the invariant and unlists nothing. -/
structure Keeps (gmem gperms : Nat → U8) (m m' : Mmu) : Prop where
  inv : DirtyInv gmem gperms m'
  listed : ∀ {b}, b ∈ m.dirty → b ∈ m'.dirty
  base : m'.base = m.base
  size : m'.size = m.size

/-- Nothing done keeps the invariant. -/
theorem DirtyInv.keeps_refl (h : DirtyInv gmem gperms m) : Keeps gmem gperms m m :=
  ⟨h, id, rfl, rfl⟩

/-- Two operations that keep it. -/
theorem Keeps.trans {m m' m'' : Mmu} (h : Keeps gmem gperms m m') (h' : Keeps gmem gperms m' m'') :
    Keeps gmem gperms m m'' :=
  ⟨h'.inv, fun hb => h'.listed (h.listed hb), h'.base.trans h.base, h'.size.trans h.size⟩

/-- A byte write keeps it and lists the byte's block. -/
theorem DirtyInv.putByte (h : DirtyInv gmem gperms m) (off : Nat) (b : U8) :
    Keeps gmem gperms m (m.putByte off b) ∧ off / DIRTY_BLOCK ∈ (m.putByte off b).dirty := by
  have hput : m.putByte off b = (m.markBlock (off / DIRTY_BLOCK)).withPlanes (setAt m.mem off b)
      (setAt m.perms off (writtenPerm (m.perms off))) := by
    unfold Mmu.putByte
    rw [if_pos h.track]
    exact markBlock_withPlanes m _ _ _
  have hpl := samePlanes_markBlock m (off / DIRTY_BLOCK)
  have hm := h.markBlock (off / DIRTY_BLOCK)
  have hself : off / DIRTY_BLOCK ∈ (m.markBlock (off / DIRTY_BLOCK)).dirty :=
    (h.mem_markBlock _).2 (.inr rfl)
  rw [hput]
  refine ⟨⟨hm.withPlanes fun o ho => ?_, fun hb => (h.mem_markBlock _).2 (.inl hb), hpl.base,
    hpl.size⟩, hself⟩
  have hne : o ≠ off := fun e => ho (e ▸ hself)
  rw [hpl.mem, hpl.perms, setAt_of_ne _ _ hne, setAt_of_ne _ _ hne]
  exact ⟨rfl, rfl⟩

/-- The blocks that a span of offsets touches. -/
theorem mem_blockRange {off len o : Nat} (h1 : off ≤ o) (h2 : o < off + len) :
    o / DIRTY_BLOCK ∈ List.range' (off / DIRTY_BLOCK)
      ((off + len - 1) / DIRTY_BLOCK + 1 - off / DIRTY_BLOCK) := by
  rw [List.mem_range'_1]
  have ha : off / DIRTY_BLOCK ≤ o / DIRTY_BLOCK := Nat.div_le_div_right h1
  have hb : o / DIRTY_BLOCK ≤ (off + len - 1) / DIRTY_BLOCK := Nat.div_le_div_right (by omega)
  omega

/-- A span write keeps it and lists its blocks. -/
theorem DirtyInv.putSpan (h : DirtyInv gmem gperms m) (off : Nat) (data : List U8) :
    Keeps gmem gperms m (m.putSpan off data) ∧
      ∀ i < data.length, (off + i) / DIRTY_BLOCK ∈ (m.putSpan off data).dirty := by
  rcases Nat.eq_zero_or_pos data.length with h0 | hpos
  · have hnil : data = [] := List.length_eq_zero_iff.1 h0
    subst hnil
    have hsame : m.putSpan off [] = m := by
      unfold Mmu.putSpan
      rw [if_neg (by simp)]
      simp
    rw [hsame]
    exact ⟨h.keeps_refl, fun i hi => by simp at hi⟩
  · have hput : m.putSpan off data =
        ((List.range' (off / DIRTY_BLOCK)
          ((off + data.length - 1) / DIRTY_BLOCK + 1 - off / DIRTY_BLOCK)).foldl Mmu.markBlock
            m).withPlanes (setSpan m.mem off data)
            (mapSpan m.perms off data.length writtenPerm) := by
      unfold Mmu.putSpan
      rw [if_pos ⟨h.track, hpos⟩]
      exact markBlocks_withPlanes m _ _ _
    obtain ⟨hm, hmem⟩ := h.markBlocks (List.range' (off / DIRTY_BLOCK)
      ((off + data.length - 1) / DIRTY_BLOCK + 1 - off / DIRTY_BLOCK))
    have hpl := samePlanes_foldl samePlanes_markBlock (List.range' (off / DIRTY_BLOCK)
      ((off + data.length - 1) / DIRTY_BLOCK + 1 - off / DIRTY_BLOCK)) m
    rw [hput]
    refine ⟨⟨hm.withPlanes fun o ho => ?_, fun hb => (hmem _).2 (.inl hb), hpl.base, hpl.size⟩,
      fun i hi => (hmem _).2 (.inr (mem_blockRange (by omega) (by omega)))⟩
    -- an offset of an unlisted block is outside the span
    have hout : o < off ∨ off + data.length ≤ o := by
      by_contra hc
      exact ho ((hmem _).2 (.inr (mem_blockRange (by omega) (by omega))))
    rw [hpl.mem, hpl.perms]
    rcases hout with hlt | hge
    · exact ⟨setSpan_of_lt _ _ hlt, if_neg (by omega)⟩
    · exact ⟨setSpan_of_ge _ _ hge, if_neg (by omega)⟩

/-- The blocks of the `n` bytes at `a` that are in the window are listed. -/
def Listed (m : Mmu) (a : U32) (n : Nat) : Prop :=
  ∀ i < n, ∀ off, m.offset (a + BitVec.ofNat 32 i) = some off → off / DIRTY_BLOCK ∈ m.dirty

/-- A listed span stays listed. -/
theorem Keeps.listed_span {m m' : Mmu} (h : Keeps gmem gperms m m') {a : U32} {n : Nat}
    (hl : Listed m a n) : Listed m' a n := by
  intro i hi off ho
  rw [offset, h.base, h.size] at ho
  exact h.listed (hl i hi off ho)

/-- A byte-wise write keeps it and lists what it wrote. -/
theorem DirtyInv.writeLoop (h : DirtyInv gmem gperms m) (offset : U32 → Option Nat) (len a : U32)
    (data : List U8) :
    Keeps gmem gperms m (writeLoop offset Mmu.perms Mmu.putByte len m a data).2 ∧
      ((FuzzSoft.writeLoop offset Mmu.perms Mmu.putByte len m a data).1 = .ok () →
        ∀ i < data.length, ∀ off, offset (a + BitVec.ofNat 32 i) = some off →
          off / DIRTY_BLOCK ∈
            (FuzzSoft.writeLoop offset Mmu.perms Mmu.putByte len m a data).2.dirty) := by
  induction data generalizing m a with
  | nil => exact ⟨h.keeps_refl, fun _ i hi => by simp at hi⟩
  | cons b bs ih =>
    rw [FuzzSoft.writeLoop]
    cases ho : offset a with
    | none => exact ⟨h.keeps_refl, by rintro ⟨⟩⟩
    | some off =>
      dsimp only
      split
      · exact ⟨h.keeps_refl, by rintro ⟨⟩⟩
      obtain ⟨hk, hself⟩ := h.putByte off b
      obtain ⟨hk', hmarked⟩ := ih hk.inv (a + 1)
      refine ⟨hk.trans hk', fun hok i hi off' ho' => ?_⟩
      cases i with
      | zero =>
        rw [show a + BitVec.ofNat 32 0 = a from BitVec.add_zero a, ho] at ho'
        cases ho'
        exact hk'.listed hself
      | succ i =>
        refine hmarked hok i (by simpa using hi) off' ?_
        have hsucc : BitVec.ofNat 32 (i + 1) = 1 + BitVec.ofNat 32 i := by
          rw [BitVec.ofNat_add]
          exact BitVec.add_comm _ _
        rw [← ho', hsucc, BitVec.add_assoc]

/-- A store through the bus keeps the invariant, and lists the blocks of its span if it succeeds. -/
theorem DirtyInv.store (h : DirtyInv gmem gperms m) (a : U32) (size : Nat) (v : U32) :
    Keeps gmem gperms m (m.store a size v).2 ∧
      ((m.store a size v).1 = .ok () → Listed (m.store a size v).2 a (width size)) := by
  rw [store_eq]
  unfold writeAligned
  by_cases ha : a.toNat % width size = 0
  · have hok : checkAlign a (width size) .write = .ok () := if_pos ha
    have hw := aligned_no_wrap (width_cases size) ha
    rw [hok]
    dsimp only
    unfold write
    rw [length_leBytes]
    cases hsp : m.spanHas PERM_WRITE a (width size) with
    | some off =>
      obtain ⟨ho, -, -⟩ := spanHas_eq_some.1 hsp
      obtain ⟨hk, hmarked⟩ := h.putSpan off (leBytes v (width size))
      refine ⟨hk, fun _ i hi off' ho' => ?_⟩
      rw [offset, hk.base, hk.size] at ho'
      have h1 := (windowOffset_eq_some.1 ho).1
      have h2 := (windowOffset_eq_some.1 ho').1
      have hn : (a + BitVec.ofNat 32 i).toNat = a.toNat + i := by
        rw [BitVec.toNat_add, BitVec.toNat_ofNat]
        omega
      rw [show off' = off + i by omega]
      exact hmarked i (by rw [length_leBytes]; exact hi)
    | none =>
      obtain ⟨hk, hmarked⟩ := h.writeLoop m.offset (BitVec.ofNat 32 (width size)) a
        (leBytes v (width size))
      unfold writeBytewise
      rw [length_leBytes] at hmarked ⊢
      refine ⟨hk, fun hres i hi off ho => ?_⟩
      rw [offset, hk.base, hk.size] at ho
      exact hmarked hres i hi off ho
  · have herr : checkAlign a (width size) .write = .error _ := if_neg ha
    rw [herr]
    exact ⟨h.keeps_refl, by rintro ⟨⟩⟩

/-! ## The taint scatter -/

/-- The scatter marks nothing, so it must stay in listed blocks. -/
theorem DirtyInv.writeShadow (h : DirtyInv gmem gperms m) {a : U32} {len : Nat} (mask : U32)
    (hl : Listed m a (min len 4)) : Keeps gmem gperms m (m.writeShadow a len mask) := by
  unfold Mmu.writeShadow
  have hsub : ∀ i ∈ List.range (min len 4), i < min len 4 := fun i => List.mem_range.1
  revert hsub
  generalize List.range (min len 4) = is
  intro hsub
  induction is generalizing m with
  | nil => exact h.keeps_refl
  | cons i is ih =>
    have hi := hsub i List.mem_cons_self
    have hk : Keeps gmem gperms m (shadowByte a mask m i) := by
      unfold shadowByte
      cases ho : m.offset (a + BitVec.ofNat 32 i) with
      | none => exact h.keeps_refl
      | some off =>
        refine ⟨h.withPlanes fun o hno => ⟨rfl, setAt_of_ne _ _ fun e => ?_⟩, id, rfl, rfl⟩
        exact hno (e ▸ hl i hi off ho)
    exact hk.trans (ih hk.inv (hk.listed_span hl) fun j hj => hsub j (List.mem_cons_of_mem i hj))

/-! ## Granted pointers -/

/-- A granted store pointer has its blocks listed. -/
theorem DirtyInv.fastPtr (h : DirtyInv gmem gperms m) (a : U32) (len : Nat) (need : U8) :
    Keeps gmem gperms m (m.fastPtr a len need).2 ∧
      (need &&& PERM_WRITE ≠ 0 → ∀ off, (m.fastPtr a len need).1 = some (.mem off) →
        ∀ i < len, (off + i) / DIRTY_BLOCK ∈ (m.fastPtr a len need).2.dirty) := by
  unfold Mmu.fastPtr
  cases ho : m.offset a with
  | none => exact ⟨h.keeps_refl, nofun⟩
  | some off =>
    dsimp only
    split
    next =>
      have hfold : (List.range' off len).foldl markDirty m =
          ((List.range' off len).map (· / DIRTY_BLOCK)).foldl Mmu.markBlock m := by
        rw [List.foldl_map]
        rfl
      split
      next =>
        rw [hfold]
        obtain ⟨hm, hmem⟩ := h.markBlocks ((List.range' off len).map (· / DIRTY_BLOCK))
        have hpl := samePlanes_foldl samePlanes_markBlock
          ((List.range' off len).map (· / DIRTY_BLOCK)) m
        refine ⟨⟨hm, fun hb => (hmem _).2 (.inl hb), hpl.base, hpl.size⟩, fun _ off' he i hi => ?_⟩
        cases he
        exact (hmem _).2 (.inr (List.mem_map.2 ⟨off + i, by rw [List.mem_range'_1]; omega, rfl⟩))
      next hn => exact ⟨h.keeps_refl, fun hw => absurd ⟨hw, h.track⟩ hn⟩
    next => exact ⟨h.keeps_refl, nofun⟩

/-- A store through a pointer into listed blocks. -/
theorem DirtyInv.ptrStore (h : DirtyInv gmem gperms m) {off : Nat} {bs : List U8}
    (hl : ∀ i < bs.length, (off + i) / DIRTY_BLOCK ∈ m.dirty) :
    Keeps gmem gperms m (m.ptrStore (.mem off) bs) := by
  refine ⟨h.withPlanes fun o ho => ⟨?_, rfl⟩, id, rfl, rfl⟩
  have hout : o < off ∨ off + bs.length ≤ o := by
    by_contra hc
    have := hl (o - off) (by omega)
    rw [show off + (o - off) = o by omega] at this
    exact ho this
  rcases hout with hlt | hge
  · exact setSpan_of_lt _ _ hlt
  · exact setSpan_of_ge _ _ hge

/-! ## Reset -/

/-- The invariant holds when tracking starts. -/
theorem dirtyInv_enable (m : Mmu) : DirtyInv m.mem m.perms m.enableDirtyTracking where
  track := rfl
  nodup := List.nodup_nil
  bit blk := by
    rw [blockBit_eq]
    simp [enableDirtyTracking]
  clean _ _ _ := ⟨rfl, rfl⟩

/-- A block copied back has its captured bytes. -/
theorem mem_readSpan_block {f : Nat → U8} (g : Nat → U8) {start len o : Nat} (h1 : start ≤ o)
    (h2 : o < start + len) : setSpan g start (readSpan f start len) o = f o := by
  induction len generalizing start g with
  | zero => omega
  | succ len ih =>
    rw [readSpan, setSpan_cons]
    rcases Nat.lt_or_ge start o with hlt | hge
    · exact ih _ hlt (by omega)
    · have he : o = start := by omega
      subst he
      rw [setSpan_of_lt _ _ (Nat.lt_succ_self _), setAt_self]

/-- Restoring blocks: the listed ones become golden, the others stay. -/
theorem restoreBlocks (gmem gperms : Nat → U8) (blks : List Nat) (m : Mmu) :
    let m' := blks.foldl (restoreBlock gmem gperms) m
    m'.size = m.size ∧ m'.base = m.base ∧ m'.trackDirty = m.trackDirty ∧ m'.dirty = m.dirty ∧
      m'.dirtyBitmap = m.dirtyBitmap ∧ ∀ off < m.size,
        (off / DIRTY_BLOCK ∈ blks ∨ (m.mem off = gmem off ∧ m.perms off = gperms off)) →
        m'.mem off = gmem off ∧ m'.perms off = gperms off := by
  induction blks generalizing m with
  | nil =>
    refine ⟨rfl, rfl, rfl, rfl, rfl, fun off _ h => ?_⟩
    simpa using h
  | cons blk blks ih =>
    obtain ⟨h1, h2, h3, h4, h5, h6⟩ := ih (restoreBlock gmem gperms m blk)
    refine ⟨h1, h2, h3, h4, h5, fun off hoff h => h6 off hoff ?_⟩
    -- the planes after the first block
    by_cases hin : off / DIRTY_BLOCK = blk
    · have hb : blk * DIRTY_BLOCK ≤ off ∧ off < blk * DIRTY_BLOCK + DIRTY_BLOCK := by
        simp only [DIRTY_BLOCK] at hin ⊢
        omega
      right
      refine ⟨mem_readSpan_block _ hb.1 ?_, mem_readSpan_block _ hb.1 ?_⟩ <;> omega
    · rcases h with h | h
      · exact .inl ((List.mem_cons.1 h).resolve_left hin)
      · right
        have hout : off < blk * DIRTY_BLOCK ∨ blk * DIRTY_BLOCK + DIRTY_BLOCK ≤ off := by
          simp only [DIRTY_BLOCK] at hin ⊢
          omega
        simp only [restoreBlock]
        rcases hout with hlt | hge
        · rw [setSpan_of_lt _ _ hlt, setSpan_of_lt _ _ hlt]
          exact h
        · rw [setSpan_of_ge _ _ (by rw [length_readSpan]; omega),
            setSpan_of_ge _ _ (by rw [length_readSpan]; omega)]
          exact h

/-- Zeroing the words of all the listed blocks clears every bit. -/
theorem clearWords (blks : List Nat) (bm : Nat → U64) (w : Nat) :
    (blks.foldl (fun bm blk => setAt bm (blk / 64) 0) bm) w =
      if ∃ blk ∈ blks, blk / 64 = w then 0 else bm w := by
  induction blks generalizing bm with
  | nil => simp
  | cons blk blks ih =>
    rw [List.foldl_cons, ih]
    by_cases hw : blk / 64 = w
    · subst hw
      simp
    · rw [setAt_of_ne _ _ (Ne.symm hw)]
      simp [hw]

/-- What the reset restores. -/
structure Restored (gmem gperms : Nat → U8) (m m' : Mmu) : Prop where
  base : m'.base = m.base
  size : m'.size = m.size
  planes : ∀ off < m.size, m'.mem off = gmem off ∧ m'.perms off = gperms off
  dirty : m'.dirty = []
  inv : DirtyInv gmem gperms m'

/-- A reset restores the captured planes and clears the list. -/
theorem DirtyInv.resetDirty (h : DirtyInv gmem gperms m) :
    Restored gmem gperms m (m.resetDirty gmem gperms) := by
  obtain ⟨h1, h2, h3, h4, h5, h6⟩ := restoreBlocks gmem gperms m.dirty m
  have hplanes : ∀ off < m.size, (m.resetDirty gmem gperms).mem off = gmem off ∧
      (m.resetDirty gmem gperms).perms off = gperms off := fun off hoff =>
    h6 off hoff ((Classical.em _).imp_right fun hn => h.clean off hoff hn)
  refine ⟨h2, h1, hplanes, rfl, h3.trans h.track, List.nodup_nil, fun blk => ?_,
    fun off hoff _ => hplanes off (by rwa [show (m.resetDirty gmem gperms).size = m.size from h1]
      at hoff)⟩
  have hbit : (m.resetDirty gmem gperms).blockBit blk = false := by
    rw [blockBit_eq]
    have hword : (m.resetDirty gmem gperms).dirtyBitmap (blk / 64) =
        if ∃ b ∈ m.dirty, b / 64 = blk / 64 then 0 else m.dirtyBitmap (blk / 64) := by
      simp only [Mmu.resetDirty, clearDirty]
      rw [h4, h5, clearWords]
    rw [hword]
    split
    · simp
    next hno =>
      have hn : ¬ m.blockBit blk = true := fun hb => hno ⟨blk, (h.bit blk).1 hb, rfl⟩
      rw [blockBit_eq] at hn
      simpa using hn
  rw [hbit, show (m.resetDirty gmem gperms).dirty = [] from rfl]
  simp

end

end Mmu

end FuzzSoft
