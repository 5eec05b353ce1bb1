import FuzzSoft.Mmu.Dirty

/-!
# Permission stamps

The operations of `fs_mmu::Mmu` that change permission bytes and nothing else: `poison` and
`set_vtaint`, beside `protect`. They mark no block, so a reset does not undo them. `Stamped C` says
that a memory differs from another one in permission bytes of `C` only. Stamps that were undone
keep the invariant of the dirty blocks relative to a permission plane that has them
(`DirtyInv.stamped`).
-/

namespace FuzzSoft

open Lib

namespace Mmu

/-- Clear every permission bit of `[addr, addr + len)`. -/
def poison (m : Mmu) (addr : U32) (len : Nat) : Except Fault Unit × Mmu := m.protect addr len 0

/-- Set or clear the taint bit over `[addr, addr + len)`, stopping at the first byte outside the
window. -/
def setVtaint (m : Mmu) (addr : U32) (len : Nat) (tainted : Bool) : Except Fault Unit × Mmu :=
  go m addr len
where
  go (m : Mmu) (a : U32) : Nat → Except Fault Unit × Mmu
    | 0 => (.ok (), m)
    | n + 1 =>
      match m.offset a with
      | none => (.error ⟨a, BitVec.ofNat 32 len, .write, .unmapped⟩, m)
      | some off =>
        let p := m.perms off
        let p := if tainted then p ||| PERM_VTAINT else p &&& ~~~PERM_VTAINT
        go { m with perms := setAt m.perms off p } (a + 1) n

/-- `[addr, addr + len)` lies inside the window; an empty range may stand at its end. -/
def inBounds (m : Mmu) (addr len : U32) : Bool :=
  if len = 0 then m.base ≤ addr && addr ≤ m.stop
  else
    match m.offset addr with
    | none => false
    | some start =>
      if addr.toNat + (len.toNat - 1) < 2 ^ 32 then
        match m.offset (addr + (len - 1)) with
        | some last => start ≤ last
        | none => false
      else false

/-! ## What a stamp changes -/

/-- `off` is the offset of one of the `len` bytes from `addr` on, addresses wrapping. -/
def Covers (m : Mmu) (addr : U32) (len off : Nat) : Prop :=
  ∃ i < len, m.offset (addr + BitVec.ofNat 32 i) = some off

/-- `m'` is `m` but for permission bytes of `C`. -/
structure Stamped (C : Nat → Prop) (m m' : Mmu) : Prop where
  eq : ∃ p, m' = { m with perms := p }
  perms : ∀ off, ¬ C off → m'.perms off = m.perms off

section
variable {C D : Nat → Prop} {m m' m'' : Mmu}

/-- Nothing was stamped. -/
theorem Stamped.refl (m : Mmu) : Stamped C m m := ⟨⟨m.perms, rfl⟩, fun _ _ => rfl⟩

/-- Two stamps, one after the other. -/
theorem Stamped.trans (h : Stamped C m m') (h' : Stamped C m' m'') : Stamped C m m'' := by
  refine ⟨?_, fun off hoff => (h'.perms off hoff).trans (h.perms off hoff)⟩
  obtain ⟨p, rfl⟩ := h.eq
  obtain ⟨p', rfl⟩ := h'.eq
  exact ⟨p', rfl⟩

/-- The stamped range may be larger. -/
theorem Stamped.mono (h : Stamped C m m') (hCD : ∀ off, C off → D off) : Stamped D m m' :=
  ⟨h.eq, fun off hoff => h.perms off fun hc => hoff (hCD off hc)⟩

/-- A stamp keeps the window. -/
theorem Stamped.offset (h : Stamped C m m') (a : U32) : m'.offset a = m.offset a := by
  obtain ⟨p, rfl⟩ := h.eq
  rfl

/-- It keeps what a range covers. -/
theorem Stamped.covers (h : Stamped C m m') {addr : U32} {len off : Nat} :
    m'.Covers addr len off ↔ m.Covers addr len off := by
  unfold Covers
  simp only [h.offset]

/-- A longer range covers more. -/
theorem Covers.mono {addr : U32} {len len' off : Nat} (h : m.Covers addr len off)
    (hle : len ≤ len') : m.Covers addr len' off := by
  obtain ⟨i, hi, ho⟩ := h
  exact ⟨i, Nat.lt_of_lt_of_le hi hle, ho⟩

/-- The tail of a range. -/
theorem Covers.tail {addr : U32} {n k len off : Nat} (h : m.Covers (addr + BitVec.ofNat 32 k) n off)
    (hle : k + n ≤ len) : m.Covers addr len off := by
  obtain ⟨i, hi, ho⟩ := h
  refine ⟨k + i, by omega, ?_⟩
  rw [BitVec.ofNat_add, ← BitVec.add_assoc]
  exact ho

/-- A range covers its first byte. -/
theorem covers_self {addr : U32} {len off : Nat} (ho : m.offset addr = some off) :
    m.Covers addr (len + 1) off :=
  ⟨0, Nat.succ_pos len, by rwa [show addr + BitVec.ofNat 32 0 = addr from BitVec.add_zero addr]⟩

/-- One stamped byte and a range from the next one on. -/
theorem Stamped.cons {addr : U32} {len off : Nat} {p : U8} (ho : m.offset addr = some off)
    (h : Stamped (m.Covers (addr + 1) len) { m with perms := setAt m.perms off p } m') :
    Stamped (m.Covers addr (len + 1)) m m' := by
  have hfirst : Stamped (m.Covers addr (len + 1)) m { m with perms := setAt m.perms off p } := by
    refine ⟨⟨_, rfl⟩, fun o hn => setAt_of_ne _ _ fun e => ?_⟩
    subst e
    exact hn (covers_self ho)
  refine hfirst.trans (h.mono fun o hc => ?_)
  exact Covers.tail (k := 1) hc (by omega)

/-- A protection stamps its range. -/
theorem stamped_protect (m : Mmu) (addr : U32) (len : Nat) (perm : U8) :
    Stamped (m.Covers addr len) m (m.protect addr len perm).2 := by
  unfold protect
  suffices h : ∀ (n : Nat) (m : Mmu) (a : U32),
      Stamped (m.Covers a n) m (protect.go len perm m a n).2 from h len m addr
  intro n
  induction n with
  | zero => exact fun m _ => .refl m
  | succ n ih =>
    intro m a
    rw [protect.go]
    cases ho : m.offset a with
    | none => exact .refl m
    | some off =>
      exact .cons ho (ih { m with perms := setAt m.perms off perm } (a + 1))

/-- So does a poisoning. -/
theorem stamped_poison (m : Mmu) (addr : U32) (len : Nat) :
    Stamped (m.Covers addr len) m (m.poison addr len).2 :=
  m.stamped_protect addr len 0

/-- So does a mark. -/
theorem stamped_setVtaint (m : Mmu) (addr : U32) (len : Nat) (tainted : Bool) :
    Stamped (m.Covers addr len) m (m.setVtaint addr len tainted).2 := by
  unfold setVtaint
  suffices h : ∀ (n : Nat) (m : Mmu) (a : U32),
      Stamped (m.Covers a n) m (setVtaint.go len tainted m a n).2 from h len m addr
  intro n
  induction n with
  | zero => exact fun m _ => .refl m
  | succ n ih =>
    intro m a
    rw [setVtaint.go]
    cases ho : m.offset a with
    | none => exact .refl m
    | some off =>
      exact .cons ho (ih { m with perms := setAt m.perms off _ } (a + 1))

/-! ## Stamps and dirty blocks -/

/-- A stamped memory keeps the invariant relative to a permission plane with the stamps in it. -/
theorem DirtyInv.stamped {gmem gperms : Nat → U8} (h : DirtyInv gmem gperms m)
    (hs : Stamped C m m') :
    ∃ p, DirtyInv gmem p m' ∧ ∀ off, ¬ C off → p off = gperms off := by
  classical
  refine ⟨fun off => if C off then m'.perms off else gperms off, ?_, fun off hn => if_neg hn⟩
  have hperms := hs.perms
  obtain ⟨q, rfl⟩ := hs.eq
  refine ⟨h.track, h.nodup, h.bit, fun off hoff hn => ?_⟩
  obtain ⟨hm, hp⟩ := h.clean off hoff hn
  refine ⟨hm, ?_⟩
  split
  · rfl
  next hc => exact (hperms off hc).trans hp

/-- The golden planes are read in the listed blocks only. -/
theorem resetDirty_congr {gmem p q : Nat → U8} (h : ∀ off, off / DIRTY_BLOCK ∈ m.dirty → p off = q off) :
    m.resetDirty gmem p = m.resetDirty gmem q := by
  unfold Mmu.resetDirty
  refine congrArg clearDirty ?_
  suffices hl : ∀ (blks : List Nat) (m : Mmu),
      (∀ off, off / DIRTY_BLOCK ∈ blks → p off = q off) →
      blks.foldl (restoreBlock gmem p) m = blks.foldl (restoreBlock gmem q) m from hl m.dirty m h
  intro blks
  induction blks with
  | nil => exact fun _ _ => rfl
  | cons blk blks ih =>
    intro m h
    have hblk : restoreBlock gmem p m blk = restoreBlock gmem q m blk := by
      unfold restoreBlock
      have hspan := @readSpan_congr _ p q (blk * DIRTY_BLOCK) (blk * DIRTY_BLOCK)
        (min (blk * DIRTY_BLOCK + DIRTY_BLOCK) m.size - blk * DIRTY_BLOCK) fun i hi => by
          refine h _ (List.mem_cons.2 (.inl ?_))
          simp only [DIRTY_BLOCK] at hi ⊢
          omega
      simp only [hspan]
    rw [List.foldl_cons, List.foldl_cons, hblk]
    exact ih _ fun off hoff => h off (List.mem_cons_of_mem blk hoff)

/-- What a reset leaves of a memory with stamps: the golden planes, except for stamps outside the
listed blocks. -/
theorem DirtyInv.resetDirty_stamped {gmem gperms p : Nat → U8} (h : DirtyInv gmem p m)
    (hp : ∀ off, ¬ C off → p off = gperms off) :
    ∃ q, Restored gmem q m (m.resetDirty gmem gperms) ∧ ∀ off, ¬ C off → q off = gperms off := by
  let q : Nat → U8 := fun off => if off / DIRTY_BLOCK ∈ m.dirty then gperms off else p off
  have hq : DirtyInv gmem q m := by
    refine ⟨h.track, h.nodup, h.bit, fun off hoff hn => ?_⟩
    obtain ⟨h1, h2⟩ := h.clean off hoff hn
    exact ⟨h1, h2.trans (if_neg hn).symm⟩
  refine ⟨q, ?_, fun off hn => ?_⟩
  · rw [@resetDirty_congr m gmem gperms q fun off hoff => (if_pos hoff).symm]
    exact hq.resetDirty
  · show (if _ then _ else _) = _
    split
    · rfl
    · exact hp off hn

end

end Mmu

end FuzzSoft
