import FuzzSoft.Mmu.CowRefines
import FuzzSoft.Mmu.Dirty

/-!
# Memory without its taint bits

No checked access looks at the taint bit of a permission byte, and a store leaves it as it was. So the
memory with its taint bits cleared (`Mmu.untainted`) answers every access alike, and a taint scatter
does not change it. For views, `SameUntainted` says the same through the flat memories they show.
-/

namespace FuzzSoft

open Lib

/-- A permission byte with its taint bit cleared. -/
def untaintedPerm (p : U8) : U8 := p &&& ~~~PERM_VTAINT

/-- The permissions that accesses ask for. -/
def AccessPerm (need : U8) : Prop := need = PERM_READ ∨ need = PERM_WRITE ∨ need = PERM_EXEC

/-- The marks are no access permissions. -/
theorem untaintedPerm_and {need : U8} (h : AccessPerm need) (p : U8) :
    untaintedPerm p &&& need = p &&& need := by
  rcases h with rfl | rfl | rfl <;> revert p <;> decide

/-- A write upgrades as it would without marks. -/
theorem untaintedPerm_written (p : U8) : untaintedPerm (writtenPerm p) = writtenPerm (untaintedPerm p) := by
  revert p
  decide

/-- A mark changes nothing but marks. -/
theorem untaintedPerm_taint (mask : U32) (i : Nat) (p : U8) :
    untaintedPerm (taintPerm mask i p) = untaintedPerm p := by
  unfold taintPerm
  split <;> revert p <;> decide

/-- The upgrade of a byte without its marks. -/
theorem untaintedPerm_setAt (perms : Nat → U8) (off : Nat) :
    (fun o => untaintedPerm (setAt perms off (writtenPerm (perms off)) o)) =
      setAt (fun o => untaintedPerm (perms o)) off (writtenPerm (untaintedPerm (perms off))) := by
  funext o
  unfold setAt
  split
  · exact untaintedPerm_written _
  · rfl

/-- The upgrade of a span without its marks. -/
theorem untaintedPerm_mapSpan (perms : Nat → U8) (off n : Nat) :
    (fun o => untaintedPerm (mapSpan perms off n writtenPerm o)) =
      mapSpan (fun o => untaintedPerm (perms o)) off n writtenPerm := by
  funext o
  unfold mapSpan
  split
  · exact untaintedPerm_written _
  · rfl

/-- A byte-wise read with the taint bits cleared. -/
theorem readLoop_untainted {offset : U32 → Option Nat} {mem perms : Nat → U8} {need : U8}
    (hneed : AccessPerm need) (access : Access) (len a : U32) (n : Nat) :
    readLoop offset mem (fun o => untaintedPerm (perms o)) need access len a n =
      readLoop offset mem perms need access len a n := by
  induction n generalizing a with
  | zero => rfl
  | succ n ih => simp only [readLoop, untaintedPerm_and hneed, ih]

namespace Mmu

/-- The memory with every taint bit cleared. -/
def untainted (m : Mmu) : Mmu := m.withPlanes m.mem fun o => untaintedPerm (m.perms o)

/-- The span test does not look at marks. -/
theorem spanHas_untainted (m : Mmu) {need : U8} (hneed : AccessPerm need) (a : U32) (n : Nat) :
    m.untainted.spanHas need a n = m.spanHas need a n := by
  apply Option.ext
  intro off
  rw [spanHas_eq_some, spanHas_eq_some]
  simp only [untainted, withPlanes, untaintedPerm_and hneed]
  rfl

/-- A read does not look at marks. -/
theorem read_untainted (m : Mmu) (a : U32) (n : Nat) : m.untainted.read a n = m.read a n := by
  have hneed : AccessPerm PERM_READ := .inl rfl
  unfold read
  rw [m.spanHas_untainted hneed]
  cases m.spanHas PERM_READ a n with
  | some off => rfl
  | none => exact readLoop_untainted hneed _ _ _ _

/-- A fetch does not look at marks. -/
theorem fetchBytes_untainted (m : Mmu) (a : U32) (n : Nat) :
    m.untainted.fetchBytes a n = m.fetchBytes a n := by
  have hneed : AccessPerm PERM_EXEC := .inr (.inr rfl)
  unfold fetchBytes
  rw [m.spanHas_untainted hneed]
  cases m.spanHas PERM_EXEC a n with
  | some off => rfl
  | none => exact readLoop_untainted hneed _ _ _ _

/-- A load does not look at marks. -/
theorem load_untainted (m : Mmu) (a : U32) (n : Nat) : m.untainted.load a n = m.load a n := by
  unfold load readU8 readU16 readU32
  simp only [read_untainted]

/-- A halfword fetch does not look at marks. -/
theorem fetchU16_untainted (m : Mmu) (a : U32) : m.untainted.fetchU16 a = m.fetchU16 a := by
  unfold fetchU16
  simp only [fetchBytes_untainted]

/-- Marking blocks does not look at the planes. -/
theorem markBlocks_untainted (m : Mmu) (blks : List Nat) :
    blks.foldl markBlock m.untainted = (blks.foldl markBlock m).untainted := by
  have hpl := samePlanes_foldl samePlanes_markBlock blks m
  rw [untainted, markBlocks_withPlanes, untainted, hpl.mem, hpl.perms]

/-- A byte write commutes with dropping the marks. -/
theorem putByte_untainted (m : Mmu) (off : Nat) (b : U8) :
    m.untainted.putByte off b = (m.putByte off b).untainted := by
  have hplanes : { m.untainted with
      mem := setAt m.untainted.mem off b
      perms := setAt m.untainted.perms off (writtenPerm (m.untainted.perms off)) } =
      (m.withPlanes (setAt m.mem off b)
        (setAt m.perms off (writtenPerm (m.perms off)))).untainted := by
    exact congrArg (m.withPlanes (setAt m.mem off b)) (untaintedPerm_setAt _ _).symm
  have htrack : m.untainted.trackDirty = m.trackDirty := rfl
  unfold putByte
  rw [hplanes, htrack]
  split
  · exact markBlocks_untainted (m.withPlanes _ _) [off / DIRTY_BLOCK]
  · rfl

/-- A span write commutes with it. -/
theorem putSpan_untainted (m : Mmu) (off : Nat) (data : List U8) :
    m.untainted.putSpan off data = (m.putSpan off data).untainted := by
  have hplanes : { m.untainted with
      mem := setSpan m.untainted.mem off data
      perms := mapSpan m.untainted.perms off data.length writtenPerm } =
      (m.withPlanes (setSpan m.mem off data)
        (mapSpan m.perms off data.length writtenPerm)).untainted := by
    exact congrArg (m.withPlanes (setSpan m.mem off data)) (untaintedPerm_mapSpan _ _ _).symm
  have htrack : m.untainted.trackDirty = m.trackDirty := rfl
  unfold putSpan
  rw [hplanes, htrack]
  split
  · exact markBlocks_untainted (m.withPlanes _ _) _
  · rfl

/-- A byte-wise write commutes with it. -/
theorem writeBytewise_untainted (m : Mmu) (a : U32) (data : List U8) :
    m.untainted.writeBytewise a data =
      ((m.writeBytewise a data).1, (m.writeBytewise a data).2.untainted) := by
  have key : ∀ (offset : U32 → Option Nat) (len : U32) (data : List U8) (m : Mmu) (a : U32),
      writeLoop offset Mmu.perms putByte len m.untainted a data =
        ((writeLoop offset Mmu.perms putByte len m a data).1,
          (writeLoop offset Mmu.perms putByte len m a data).2.untainted) := by
    intro offset len data
    induction data with
    | nil => exact fun _ _ => rfl
    | cons b bs ih =>
      intro m a
      rw [writeLoop, writeLoop]
      cases offset a with
      | none => rfl
      | some off =>
        have hperm : m.untainted.perms off &&& PERM_WRITE = m.perms off &&& PERM_WRITE :=
          untaintedPerm_and (.inr (.inl rfl)) _
        simp only [hperm, putByte_untainted]
        split
        · rfl
        · exact ih _ _
  exact key m.offset _ data m a

/-- A write commutes with it. -/
theorem write_untainted (m : Mmu) (a : U32) (data : List U8) :
    m.untainted.write a data = ((m.write a data).1, (m.write a data).2.untainted) := by
  unfold write
  rw [m.spanHas_untainted (.inr (.inl rfl))]
  cases m.spanHas PERM_WRITE a data.length with
  | some off => exact congrArg (Prod.mk _) (m.putSpan_untainted off data)
  | none => exact m.writeBytewise_untainted a data

/-- An aligned store commutes with it. -/
theorem writeAligned_untainted (m : Mmu) (a : U32) (n : Nat) (v : U32) :
    m.untainted.writeAligned a n v =
      ((m.writeAligned a n v).1, (m.writeAligned a n v).2.untainted) := by
  unfold writeAligned
  cases checkAlign a n .write with
  | error e => rfl
  | ok _ => exact m.write_untainted a _

/-- A store commutes with it. -/
theorem store_untainted (m : Mmu) (a : U32) (n : Nat) (v : U32) :
    m.untainted.store a n v = ((m.store a n v).1, (m.store a n v).2.untainted) := by
  unfold store
  split <;> exact m.writeAligned_untainted a _ v

/-- A write of marks is dropped by it. -/
theorem writeShadow_untainted (m : Mmu) (a : U32) (n : Nat) (mask : U32) :
    (m.writeShadow a n mask).untainted = m.untainted := by
  have hbyte : ∀ (m : Mmu) (i : Nat), (m.shadowByte a mask i).untainted = m.untainted := by
    intro m i
    unfold shadowByte
    split
    next off _ =>
      refine congrArg (m.withPlanes m.mem) ?_
      funext o
      dsimp only
      unfold setAt
      split
      next ho =>
        rw [ho]
        exact untaintedPerm_taint _ _ _
      next => rfl
    next => rfl
  unfold writeShadow
  induction List.range (min n 4) generalizing m with
  | nil => rfl
  | cons i is ih => exact (ih _).trans (hbyte m i)

/-- Memories with the same bytes, permissions and dirty blocks, taint bits apart, answer loads and
stores alike. -/
theorem store_of_untainted {m m' : Mmu} (h : m'.untainted = m.untainted) (a : U32) (n : Nat)
    (v : U32) : (m'.store a n v).1 = (m.store a n v).1 ∧
      (m'.store a n v).2.untainted = (m.store a n v).2.untainted := by
  have hst := (m'.store_untainted a n v).symm.trans ((congrArg (·.store a n v) h).trans
    (m.store_untainted a n v))
  exact Prod.mk.inj hst

/-- Memories that differ in marks load alike. -/
theorem load_of_untainted {m m' : Mmu} (h : m'.untainted = m.untainted) (a : U32) (n : Nat) :
    m'.load a n = m.load a n := by
  rw [← m'.load_untainted, h, m.load_untainted]

/-- They fetch alike. -/
theorem fetchU16_of_untainted {m m' : Mmu} (h : m'.untainted = m.untainted) (a : U32) :
    m'.fetchU16 a = m.fetchU16 a := by
  rw [← m'.fetchU16_untainted, h, m.fetchU16_untainted]

end Mmu

/-! ## Views -/

/-- The views show memories that are the same without their taint bits. -/
def SameUntainted (c c' : CowRam) : Prop :=
  ∃ m m', Agree m c ∧ Agree m' c' ∧ m'.untainted = m.untainted

/-- A scatter into a page sets or clears taint bits of it. -/
theorem CowRam.shadePage_untainted (mask : U32) (n po : Nat) (p : CowPage) (o : Nat) :
    (CowRam.shadePage mask n po p).mem o = p.mem o ∧
      untaintedPerm ((CowRam.shadePage mask n po p).perms o) = untaintedPerm (p.perms o) := by
  have key : ∀ (is : List Nat) (f : Nat → U8), untaintedPerm
      (is.foldl (fun f i => setAt f (po + i) (taintPerm mask i (f (po + i)))) f o) =
      untaintedPerm (f o) := by
    intro is
    induction is with
    | nil => exact fun _ => rfl
    | cons i is ih =>
      intro f
      refine (ih _).trans ?_
      dsimp only
      by_cases ho : o = po + i
      · rw [ho, setAt_self]
        exact untaintedPerm_taint _ _ _
      · rw [setAt_of_ne _ _ ho]
  exact ⟨rfl, key _ _⟩

/-- A taint scatter on a view leaves what it shows, its taint bits apart. -/
theorem Agree.writeShadow_untainted {m : Mmu} {c : CowRam} (h : Agree m c) (a : U32) (n : Nat)
    (mask : U32) : ∃ m', Agree m' (c.writeShadow a n mask) ∧ m'.untainted = m.untainted := by
  unfold CowRam.writeShadow
  split
  · exact ⟨m, h, rfl⟩
  next off ho =>
  dsimp only
  split
  · exact ⟨m, h, rfl⟩
  next =>
  have hoff : off < 2 ^ 32 := by
    rw [h.offset_eq] at ho
    exact (offset_lt ho).2
  have hu := h.inv.updatePage hoff (CowRam.shadePage mask (min n 4))
  obtain ⟨p, hp, hhere⟩ := hu.here
  have hview : ∀ o < m.size,
      (c.updatePage off (CowRam.shadePage mask (min n 4))).memAt o = m.mem o ∧
      untaintedPerm ((c.updatePage off (CowRam.shadePage mask (min n 4))).permOf o) =
        untaintedPerm (m.perms o) := by
    intro o hos
    rw [CowRam.memAt, CowRam.permOf]
    by_cases hpn : o / PAGE_SIZE = off / PAGE_SIZE
    · rw [hpn, hhere]
      obtain ⟨hmem, hperm⟩ := CowRam.shadePage_untainted mask (min n 4) (off % PAGE_SIZE) p
        (o % PAGE_SIZE)
      obtain ⟨h1, h2⟩ := hp (o % PAGE_SIZE) (by rw [← hpn, CowRam.pageOffset_eq, h.size]; exact hos)
      rw [hmem, hperm, h1, h2, ← hpn]
      exact ⟨h.mem hos, congrArg untaintedPerm (h.perms hos)⟩
    · rw [hu.others _ hpn]
      exact ⟨h.mem hos, congrArg untaintedPerm (h.perms hos)⟩
  -- the flat memory that the view shows now: the new permissions inside the window
  refine ⟨m.withPlanes m.mem fun o => if o < m.size then
    (c.updatePage off (CowRam.shadePage mask (min n 4))).permOf o else m.perms o,
    ⟨hu.inv, ?_, ?_, fun ho => (hview _ ho).1, fun ho => (if_pos ho).symm⟩, ?_⟩
  · rw [hu.golden]
    exact h.base
  · rw [hu.golden]
    exact h.size
  · refine congrArg (m.withPlanes m.mem) (funext fun o => ?_)
    dsimp only [Mmu.withPlanes]
    split
    next ho => exact (hview o ho).2
    next => rfl

end FuzzSoft
