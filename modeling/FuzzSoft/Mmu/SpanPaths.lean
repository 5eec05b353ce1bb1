import FuzzSoft.Mmu.Stamp

/-!
# The span paths are the byte loops

`read`, `write` and `fetch_bytes` test a span as a whole and fall back to a loop over its bytes. The
loop computes an address for each byte, round the address space; the span is a run of offsets. They
agree because no byte at or past the end of the address space ever gets a permission (`Backed`): a
span that passes the test ends before it. A memory is what its operations make of a fresh one
(`Made`), and they keep this and the bookkeeping of dirty blocks (`Tidy`). The two paths of a write
mark the same blocks in the same order, since marking a block again does nothing.
-/

namespace FuzzSoft

open Lib

namespace Mmu

/-- A memory made with the operations of the type. -/
inductive Made (base : U32) (size : Nat) : Mmu → Prop
  | new : Made base size (new base size)
  | enable {m} (h : Made base size m) : Made base size m.enableDirtyTracking
  | clear {m} (h : Made base size m) : Made base size m.clearDirty
  /-- A reset from the planes of a memory of the same window. -/
  | reset {m g} (h : Made base size m) (hg : Made base size g) :
      Made base size (m.resetDirty g.mem g.perms)
  | map {m} (h : Made base size m) (addr : U32) (data : List U8) (perm : U8) :
      Made base size (m.map addr data perm).2
  | protect {m} (h : Made base size m) (addr : U32) (len : Nat) (perm : U8) :
      Made base size (m.protect addr len perm).2
  | setVtaint {m} (h : Made base size m) (addr : U32) (len : Nat) (tainted : Bool) :
      Made base size (m.setVtaint addr len tainted).2
  | write {m} (h : Made base size m) (addr : U32) (data : List U8) :
      Made base size (m.write addr data).2
  | writeShadow {m} (h : Made base size m) (addr : U32) (len : Nat) (taintMask : U32) :
      Made base size (m.writeShadow addr len taintMask)
  | grant {m} (h : Made base size m) (addr : U32) (len : Nat) (need : U8) :
      Made base size (m.fastPtr addr len need).2
  /-- A store through a pointer. -/
  | through {m} (h : Made base size m) (p : HostPtr) (bs : List U8) :
      Made base size (m.ptrStore p bs)

/-- No permission at or past the end of the address space. -/
def Backed (m : Mmu) : Prop := ∀ off, 2 ^ 32 ≤ m.base.toNat + off → m.perms off = 0

/-- The span paths of a memory are its byte loops, and the bookkeeping of a write is in order. -/
structure SpanExact (m : Mmu) : Prop where
  read : ∀ addr len, m.read addr len = m.readBytewise PERM_READ .read addr len
  fetch : ∀ addr n, m.fetchBytes addr n = m.readBytewise PERM_EXEC .exec addr n
  write : ∀ addr data, m.write addr data = m.writeBytewise addr data
  tidy : ∀ addr data, Tidy (m.write addr data).2
  cleared : m.clearDirty.dirty = [] ∧ ∀ w, m.clearDirty.dirtyBitmap w = 0

/-! ## Marking twice -/

section
variable {m m' : Mmu}

/-- A block is listed once. -/
theorem markBlock_markBlock (m : Mmu) (blk : Nat) :
    (m.markBlock blk).markBlock blk = m.markBlock blk := by
  have hbit : (m.markBlock blk).blockBit blk = true := (blockBit_markBlock m blk blk).2 (.inr rfl)
  rw [markBlock, if_pos hbit]

/-- The blocks of a span. -/
def blocks (off len : Nat) : List Nat :=
  List.range' (off / DIRTY_BLOCK) ((off + len - 1) / DIRTY_BLOCK + 1 - off / DIRTY_BLOCK)

/-- Marking the first block and then the blocks of the rest is marking the blocks of the span. -/
theorem markBlocks_succ (m : Mmu) (off len : Nat) :
    (blocks off (len + 1)).foldl markBlock m =
      if len = 0 then m.markBlock (off / DIRTY_BLOCK)
      else (blocks (off + 1) len).foldl markBlock (m.markBlock (off / DIRTY_BLOCK)) := by
  have hcons (k : Nat) (hk : off / DIRTY_BLOCK ≤ k) : List.range' (off / DIRTY_BLOCK)
      (k + 1 - off / DIRTY_BLOCK) = off / DIRTY_BLOCK ::
        List.range' (off / DIRTY_BLOCK + 1) (k - off / DIRTY_BLOCK) := by
    rw [show k + 1 - off / DIRTY_BLOCK = (k - off / DIRTY_BLOCK) + 1 by omega, List.range'_succ]
  split
  next h0 =>
    subst h0
    rw [blocks, Nat.zero_add, Nat.add_sub_cancel, hcons _ (Nat.le_refl _), Nat.sub_self]
    rfl
  next hpos =>
    have hlast : off + (len + 1) - 1 = off + 1 + len - 1 := by omega
    rw [blocks, blocks, hlast, hcons _ (Nat.div_le_div_right (by omega)), List.foldl_cons]
    rcases Nat.eq_or_lt_of_le (Nat.div_le_div_right (c := DIRTY_BLOCK) (Nat.le_succ off)) with hb | hb
    · -- the next byte is in the same block, which is marked once more
      rw [← hb, hcons _ (Nat.div_le_div_right (by omega)), List.foldl_cons, markBlock_markBlock]
    · have hnext : off.succ / DIRTY_BLOCK = off / DIRTY_BLOCK + 1 := by
        simp only [DIRTY_BLOCK] at hb ⊢
        omega
      rw [hnext, show ∀ k, k + 1 - (off / DIRTY_BLOCK + 1) = k - off / DIRTY_BLOCK from fun k => by
        omega]

/-- A span write: its blocks marked, then both planes. -/
theorem putSpan_eq (m : Mmu) (off : Nat) (data : List U8) : m.putSpan off data =
    (if m.trackDirty ∧ 0 < data.length then (blocks off data.length).foldl markBlock m
      else m).withPlanes (setSpan m.mem off data) (mapSpan m.perms off data.length writtenPerm) := by
  unfold putSpan
  split
  · exact markBlocks_withPlanes m _ _ _
  · rfl

/-- A byte write: its block marked, then both planes. -/
theorem putByte_eq (m : Mmu) (off : Nat) (b : U8) : m.putByte off b =
    (if m.trackDirty then m.markBlock (off / DIRTY_BLOCK) else m).withPlanes (setAt m.mem off b)
      (setAt m.perms off (writtenPerm (m.perms off))) := by
  unfold putByte
  split
  · exact markBlock_withPlanes m _ _ _
  · rfl

/-- A span written at once is its first byte and then the rest. -/
theorem putSpan_cons (m : Mmu) (off : Nat) (b : U8) (bs : List U8) :
    m.putSpan off (b :: bs) = (m.putByte off b).putSpan (off + 1) bs := by
  have hmem : setSpan m.mem off (b :: bs) = setSpan (setAt m.mem off b) (off + 1) bs :=
    setSpan_cons _ _ _ _
  have hperms : mapSpan m.perms off (bs.length + 1) writtenPerm =
      mapSpan (setAt m.perms off (writtenPerm (m.perms off))) (off + 1) bs.length writtenPerm :=
    mapSpan_succ _ _ _ _
  rw [putSpan_eq, putSpan_eq, putByte_eq, hmem, List.length_cons, hperms]
  cases ht : m.trackDirty with
  | false =>
    rw [if_neg fun h => Bool.false_ne_true h.1, if_neg Bool.false_ne_true,
      if_neg fun h => Bool.false_ne_true (ht.symm.trans h.1)]
    rfl
  | true =>
    have htrack : (m.markBlock (off / DIRTY_BLOCK)).trackDirty = true :=
      (samePlanes_markBlock m _).trackDirty.trans ht
    rw [if_pos rfl, if_pos ⟨rfl, Nat.succ_pos _⟩, markBlocks_succ]
    split
    next h0 =>
      rw [if_neg fun h => absurd h.2 (Nat.not_lt.2 (Nat.le_of_eq h0))]
      rfl
    next hpos =>
      rw [if_pos ⟨htrack, Nat.pos_of_ne_zero hpos⟩, markBlocks_withPlanes]
      rfl

/-- Inside the window, with every WRITE bit present and no wrap-around, the byte-wise write writes
the span. -/
theorem writeLoop_eq_putSpan {base : U32} {size : Nat} (len : U32) {data : List U8} :
    ∀ (m : Mmu) {a : U32} {off : Nat}, windowOffset base size a = some off →
    off + data.length ≤ size → a.toNat + data.length ≤ 2 ^ 32 →
    (∀ i < data.length, m.perms (off + i) &&& PERM_WRITE ≠ 0) →
    writeLoop (windowOffset base size) Mmu.perms putByte len m a data =
      (.ok (), m.putSpan off data) := by
  induction data with
  | nil =>
    intro m a off _ _ _ _
    rw [putSpan_eq, if_neg fun h => absurd h.2 (Nat.lt_irrefl 0), setSpan_nil, List.length_nil,
      mapSpan_zero]
    rfl
  | cons b bs ih =>
    intro m a off ho hs hw hp
    rw [List.length_cons] at hs hw hp
    have h0 : ¬ m.perms off &&& PERM_WRITE = 0 := hp 0 (Nat.succ_pos _)
    rw [writeLoop, ho]
    dsimp only
    rw [if_neg h0, putSpan_cons]
    rcases Nat.eq_zero_or_pos bs.length with hnil | hpos
    · rw [List.length_eq_zero_iff.1 hnil, putSpan_eq,
        if_neg fun h => absurd h.2 (Nat.lt_irrefl 0), setSpan_nil, List.length_nil, mapSpan_zero]
      rfl
    · refine ih (m.putByte off b) (windowOffset_succ ho (by omega) (by omega)) (by omega) ?_ ?_
      · have : (a + 1).toNat = a.toNat + 1 := by
          rw [BitVec.toNat_add]
          exact Nat.mod_eq_of_lt (show a.toNat + 1 < 2 ^ 32 by omega)
        omega
      · intro i hi
        rw [(samePlanes_putByte m off b).perms]
        have := hp (i + 1) (by omega)
        dsimp only
        rw [setAt_of_ne _ _ (show off + 1 + i ≠ off by omega)]
        rwa [show off + 1 + i = off + (i + 1) by omega]

/-! ## A span that passes the test -/

/-- A span that passes the test of a path ends before the end of the address space. -/
theorem Backed.no_wrap (h : m.Backed) {need : U8} {addr : U32} {len off : Nat}
    (hs : m.spanHas need addr len = some off) : addr.toNat + len ≤ 2 ^ 32 := by
  obtain ⟨ho, -, hp⟩ := spanHas_eq_some.1 hs
  have hoff := (windowOffset_eq_some.1 ho).1
  have haddr := addr.isLt
  by_contra hc
  refine hp (2 ^ 32 - addr.toNat) (by omega) ?_
  rw [h _ (by omega)]
  exact BitVec.zero_and

/-- What the span path serves, the byte path reads. -/
theorem Backed.span (h : m.Backed) {need : U8} {access : Access} {addr : U32} {len off : Nat}
    (hs : m.spanHas need addr len = some off) :
    m.readBytewise need access addr len = .ok (readSpan m.mem off len) := by
  obtain ⟨ho, hsize, hp⟩ := spanHas_eq_some.1 hs
  exact readLoop_span ho hsize (h.no_wrap hs) hp

/-- The two paths of a read agree. -/
theorem Backed.read (h : m.Backed) (addr : U32) (len : Nat) :
    m.read addr len = m.readBytewise PERM_READ .read addr len := by
  rw [Mmu.read]
  cases hs : m.spanHas PERM_READ addr len with
  | none => rfl
  | some off => exact (h.span hs).symm

/-- The two paths of a fetch agree. -/
theorem Backed.fetchBytes (h : m.Backed) (addr : U32) (n : Nat) :
    m.fetchBytes addr n = m.readBytewise PERM_EXEC .exec addr n := by
  rw [Mmu.fetchBytes]
  cases hs : m.spanHas PERM_EXEC addr n with
  | none => rfl
  | some off => exact (h.span hs).symm

/-- The two paths of a write agree. -/
theorem Backed.write (h : m.Backed) (addr : U32) (data : List U8) :
    m.write addr data = m.writeBytewise addr data := by
  rw [Mmu.write]
  cases hs : m.spanHas PERM_WRITE addr data.length with
  | none => rfl
  | some off =>
    obtain ⟨ho, hsize, hp⟩ := spanHas_eq_some.1 hs
    exact (writeLoop_eq_putSpan _ m ho hsize (h.no_wrap hs) hp).symm

/-! ## What the operations keep -/

/-- A memory of the same window with the same permissions at and past the end of the address
space. -/
structure Inside (m m' : Mmu) : Prop where
  base : m'.base = m.base
  size : m'.size = m.size
  perms : ∀ off, 2 ^ 32 ≤ m.base.toNat + off → m'.perms off = m.perms off

/-- Nothing changes outside the window. -/
theorem Inside.refl (m : Mmu) : Inside m m := ⟨rfl, rfl, fun _ _ => rfl⟩

/-- Two changes inside the window are one. -/
theorem Inside.trans {m'' : Mmu} (h : Inside m m') (h' : Inside m' m'') : Inside m m'' :=
  ⟨h'.base.trans h.base, h'.size.trans h.size, fun off hoff =>
    (h'.perms off (h.base ▸ hoff)).trans (h.perms off hoff)⟩

/-- No permission outside the window arises. -/
theorem Inside.backed (h : Inside m m') (hb : m.Backed) : m'.Backed := fun off hoff => by
  rw [h.base] at hoff
  rw [h.perms off hoff, hb off hoff]

/-- The address of an offset does not wrap. -/
theorem offset_inside {addr : U32} {off : Nat} (h : m.offset addr = some off) :
    m.base.toNat + off < 2 ^ 32 := by
  have := (windowOffset_eq_some.1 h).1
  have := addr.isLt
  omega

/-- A permission byte set at an address. -/
theorem inside_setAt {addr : U32} {off : Nat} (h : m.offset addr = some off) (p : U8)
    (hb : m'.base = m.base) (hs : m'.size = m.size) (hp : m'.perms = setAt m.perms off p) :
    Inside m m' := by
  refine ⟨hb, hs, fun o ho => ?_⟩
  rw [hp, setAt_of_ne]
  have := offset_inside h
  omega

/-- A stamp of a covered range stays in the window. -/
theorem Stamped.inside {addr : U32} {len : Nat} (h : Stamped (m.Covers addr len) m m') :
    Inside m m' := by
  have hout (off : Nat) (hoff : 2 ^ 32 ≤ m.base.toNat + off) : m'.perms off = m.perms off :=
    h.perms off fun ⟨i, _, ho⟩ => absurd (offset_inside ho) (Nat.not_lt.2 hoff)
  obtain ⟨p, rfl⟩ := h.eq
  exact ⟨rfl, rfl, hout⟩

/-- A mapping stays in the window. -/
theorem inside_map {addr : U32} {data : List U8} {perm : U8} : Inside m (m.map addr data perm).2 := by
  induction data generalizing m addr with
  | nil => exact .refl m
  | cons b bs ih =>
    rw [map]
    cases ho : m.offset addr with
    | none => exact .refl m
    | some off =>
      refine Inside.trans ?_ ih
      exact inside_setAt ho perm rfl rfl rfl

/-- A byte-wise write stays in the window. -/
theorem inside_writeLoop {len addr : U32} {data : List U8} {offset : U32 → Option Nat}
    (hoff : offset = m.offset) :
    Inside m (writeLoop offset Mmu.perms putByte len m addr data).2 := by
  induction data generalizing m addr with
  | nil => exact .refl m
  | cons b bs ih =>
    rw [writeLoop]
    cases ho : offset addr with
    | none => exact .refl m
    | some off =>
      dsimp only
      split
      · exact .refl m
      · have hput := samePlanes_putByte m off b
        have hfirst : Inside m (m.putByte off b) :=
          inside_setAt (hoff ▸ ho) _ hput.base hput.size hput.perms
        refine hfirst.trans (ih ?_)
        rw [hoff]
        funext a
        rw [Mmu.offset, Mmu.offset, hfirst.base, hfirst.size]

/-- A write of marks stays in the window. -/
theorem inside_writeShadow {addr taintMask : U32} {len : Nat} :
    Inside m (m.writeShadow addr len taintMask) := by
  rw [writeShadow]
  generalize List.range (min len 4) = is
  induction is generalizing m with
  | nil => exact .refl m
  | cons i is ih =>
    refine Inside.trans ?_ ih
    rw [shadowByte]
    cases ho : m.offset (addr + BitVec.ofNat 32 i) with
    | none => exact .refl m
    | some off => exact inside_setAt ho _ rfl rfl rfl

/-- So does what leaves the planes. -/
theorem SamePlanes.inside (h : SamePlanes m m') : Inside m m' :=
  ⟨h.base, h.size, fun _ _ => congrFun h.perms _⟩

/-- A write to a backed memory stays in the window. -/
theorem inside_write {addr : U32} {data : List U8} (h : m.Backed) :
    Inside m (m.write addr data).2 := by
  rw [h.write]
  exact inside_writeLoop rfl

/-- A reset takes each permission from the memory or from the planes. -/
theorem restore_perms (gmem gperms : Nat → U8) (blks : List Nat) (m : Mmu) (off : Nat) :
    (blks.foldl (restoreBlock gmem gperms) m).perms off = m.perms off ∨
      (blks.foldl (restoreBlock gmem gperms) m).perms off = gperms off := by
  induction blks generalizing m with
  | nil => exact .inl rfl
  | cons blk blks ih =>
    rw [List.foldl_cons]
    rcases ih (restoreBlock gmem gperms m blk) with h | h
    · rw [h, restoreBlock]
      dsimp only
      rcases Nat.lt_or_ge off (blk * DIRTY_BLOCK) with hlt | hge
      · exact .inl (setSpan_of_lt _ _ hlt)
      · rcases Nat.lt_or_ge off (min (blk * DIRTY_BLOCK + DIRTY_BLOCK) m.size) with hin | hout
        · exact .inr (mem_readSpan_block _ hge (by omega))
        · exact .inl (setSpan_of_ge _ _ (by rw [length_readSpan]; omega))
    · exact .inr h

/-! ## The bookkeeping of the operations -/

/-- A byte write keeps the dirty list tidy. -/
theorem Tidy.putByte (h : Tidy m) (off : Nat) (b : U8) : Tidy (m.putByte off b) := by
  rw [putByte_eq]
  split
  · exact (h.markBlock _).congr rfl rfl
  · exact h.congr rfl rfl

/-- A span write keeps it tidy. -/
theorem Tidy.putSpan (h : Tidy m) (off : Nat) (data : List U8) : Tidy (m.putSpan off data) := by
  rw [putSpan_eq]
  split
  · exact (h.markBlocks _).congr rfl rfl
  · exact h.congr rfl rfl

/-- A byte-wise write keeps it tidy. -/
theorem Tidy.writeLoop (h : Tidy m) (offset : U32 → Option Nat) (len addr : U32) (data : List U8) :
    Tidy (FuzzSoft.writeLoop offset Mmu.perms Mmu.putByte len m addr data).2 := by
  induction data generalizing m addr with
  | nil => exact h
  | cons b bs ih =>
    rw [FuzzSoft.writeLoop]
    cases offset addr with
    | none => exact h
    | some off =>
      dsimp only
      split
      · exact h
      · exact ih (h.putByte off b) (addr + 1)

/-- A write keeps it tidy, on either path. -/
theorem Tidy.write (h : Tidy m) (addr : U32) (data : List U8) : Tidy (m.write addr data).2 := by
  rw [Mmu.write]
  cases m.spanHas PERM_WRITE addr data.length with
  | none => exact h.writeLoop _ _ _ _
  | some off => exact h.putSpan off data

/-- A stamp leaves the dirty list. -/
theorem Tidy.stamped {C : Nat → Prop} (h : Tidy m) (hs : Stamped C m m') : Tidy m' := by
  obtain ⟨p, rfl⟩ := hs.eq
  exact h.congr rfl rfl

/-- A mapping keeps it tidy. -/
theorem Tidy.map (h : Tidy m) (addr : U32) (data : List U8) (perm : U8) :
    Tidy (m.map addr data perm).2 := by
  induction data generalizing m addr with
  | nil => exact h
  | cons b bs ih =>
    rw [Mmu.map]
    cases m.offset addr with
    | none => exact h
    | some off =>
      refine ih ?_ (addr + 1)
      exact h.congr rfl rfl

/-- A write of marks leaves it. -/
theorem Tidy.writeShadow (h : Tidy m) (addr : U32) (len : Nat) (taintMask : U32) :
    Tidy (m.writeShadow addr len taintMask) := by
  rw [Mmu.writeShadow]
  generalize List.range (min len 4) = is
  induction is generalizing m with
  | nil => exact h
  | cons i is ih =>
    refine ih ?_
    rw [shadowByte]
    cases m.offset (addr + BitVec.ofNat 32 i) with
    | none => exact h
    | some off => exact h.congr rfl rfl

/-- A granted pointer keeps it tidy. -/
theorem Tidy.fastPtr (h : Tidy m) (addr : U32) (len : Nat) (need : U8) :
    Tidy (m.fastPtr addr len need).2 := by
  rw [Mmu.fastPtr]
  cases m.offset addr with
  | none => exact h
  | some off =>
    dsimp only
    split
    · split
      · have hfold : (List.range' off len).foldl markDirty m =
            ((List.range' off len).map (· / DIRTY_BLOCK)).foldl Mmu.markBlock m := by
          rw [List.foldl_map]
          rfl
        rw [hfold]
        exact h.markBlocks _
      · exact h
    · exact h

/-- Forgetting the dirty set empties the bitmap, as every bit of it is that of a listed block. -/
theorem Tidy.clearDirty_bitmap (h : Tidy m) (w : Nat) : m.clearDirty.dirtyBitmap w = 0 := by
  have hword : m.clearDirty.dirtyBitmap w =
      if ∃ blk ∈ m.dirty, blk / 64 = w then 0 else m.dirtyBitmap w := clearWords _ _ _
  rw [hword]
  split
  · rfl
  next hno =>
    refine BitVec.eq_of_getLsbD_eq fun i hi => ?_
    have hbit : m.blockBit (w * 64 + i) = (m.dirtyBitmap w).getLsbD i := by
      rw [blockBit_eq, show (w * 64 + i) / 64 = w by omega, show (w * 64 + i) % 64 = i by omega]
    rw [← hbit]
    refine (Bool.eq_false_iff.2 fun hb => hno ⟨_, (h.bit _).1 hb, by omega⟩).trans ?_
    exact BitVec.getLsbD_zero.symm

/-- Clearing the list leaves it tidy. -/
theorem Tidy.clearDirty (h : Tidy m) : Tidy m.clearDirty := by
  refine ⟨List.nodup_nil, fun blk => ?_⟩
  rw [blockBit_eq, h.clearDirty_bitmap]
  exact iff_of_false (by simp) List.not_mem_nil

/-- A new memory has nothing listed. -/
theorem tidy_new (base : U32) (size : Nat) : Tidy (new base size) := by
  refine ⟨List.nodup_nil, fun blk => ?_⟩
  rw [blockBit_eq]
  exact iff_of_false (by simp [new]) List.not_mem_nil

/-! ## Every memory -/

/-- What the operations of the type keep. -/
structure WellMade (base : U32) (size : Nat) (m : Mmu) : Prop where
  base : m.base = base
  size : m.size = size
  backed : m.Backed
  tidy : Tidy m

/-- An operation inside the window keeps the memory well made. -/
theorem WellMade.inside {base : U32} {size : Nat} (h : WellMade base size m) (hin : Inside m m')
    (ht : Tidy m') : WellMade base size m' :=
  ⟨hin.base.trans h.base, hin.size.trans h.size, hin.backed h.backed, ht⟩

/-- What the operations make is well made. -/
theorem Made.wellMade {base : U32} {size : Nat} (h : Made base size m) : WellMade base size m := by
  induction h with
  | new => exact ⟨rfl, rfl, fun _ _ => rfl, tidy_new base size⟩
  | @enable m _ ih => exact ih.inside ⟨rfl, rfl, fun _ _ => rfl⟩ (dirtyInv_enable m).tidy
  | clear _ ih => exact ih.inside ⟨rfl, rfl, fun _ _ => rfl⟩ ih.tidy.clearDirty
  | @reset m g _ _ ih ihg =>
    obtain ⟨hsize, hbase, -, hdirty, hbitmap, -⟩ := restoreBlocks g.mem g.perms m.dirty m
    refine ⟨hbase.trans ih.base, hsize.trans ih.size, fun off hoff => ?_,
      (ih.tidy.congr hdirty hbitmap).clearDirty⟩
    have hoff' : 2 ^ 32 ≤ m.base.toNat + off := by
      rwa [show (m.resetDirty g.mem g.perms).base = m.base from hbase] at hoff
    rcases restore_perms g.mem g.perms m.dirty m off with hp | hp
    · exact hp.trans (ih.backed off hoff')
    · refine hp.trans (ihg.backed off ?_)
      rwa [ihg.base, ← ih.base]
  | map _ addr data perm ih => exact ih.inside inside_map (ih.tidy.map addr data perm)
  | @protect m _ addr len perm ih =>
    have hs := m.stamped_protect addr len perm
    exact ih.inside hs.inside (ih.tidy.stamped hs)
  | @setVtaint m _ addr len tainted ih =>
    have hs := m.stamped_setVtaint addr len tainted
    exact ih.inside hs.inside (ih.tidy.stamped hs)
  | write _ addr data ih => exact ih.inside (inside_write ih.backed) (ih.tidy.write addr data)
  | writeShadow _ addr len taintMask ih =>
    exact ih.inside inside_writeShadow (ih.tidy.writeShadow addr len taintMask)
  | @grant m _ addr len need ih =>
    exact ih.inside (samePlanes_fastPtr m addr len need).inside (ih.tidy.fastPtr addr len need)
  | through _ p bs ih =>
    cases p <;> exact ih.inside ⟨rfl, rfl, fun _ _ => rfl⟩ (ih.tidy.congr rfl rfl)

/-- Every memory reads, writes and fetches a span as its byte loops do. -/
theorem span_paths_exact {base : U32} {size : Nat} (h : Made base size m) : SpanExact m := by
  obtain ⟨-, -, hbacked, htidy⟩ := h.wellMade
  exact ⟨hbacked.read, hbacked.fetchBytes, hbacked.write, htidy.write, rfl,
    htidy.clearDirty_bitmap⟩

/-- A window that ends at the end of the address space, with two pages of it readable and
writable. -/
theorem span_paths_exact_top : SpanExact
    ((new 0xffffe000 0x2000).enableDirtyTracking.protect 0xffffe000 0x2000
      (PERM_READ ||| PERM_WRITE)).2 :=
  span_paths_exact ((Made.new.enable).protect _ _ _)

end

end Mmu

end FuzzSoft
