import FuzzSoft.Mmu.CowRefines
import FuzzSoft.Mmu.SpanPaths
import FuzzSoft.Lib.Run

/-!
# Lockstep runs of the two memories

The operations a guest and its harness apply to a memory, run side by side on a flat memory and on
a copy-on-write view over its image. `CowRam::reset` is one of the operations; on the flat side it
goes back to the memory the image was taken of. The memory is one made with its own operations, so
no span that its fast path accepts runs past the end of the address space.
-/

namespace FuzzSoft

open Lib

/-- An operation that both memories have. -/
inductive MemOp where
  | load (addr : U32) (size : Nat)
  | store (addr : U32) (size : Nat) (val : U32)
  | ifetch16 (addr : U32)
  | read (addr : U32) (len : Nat)
  | write (addr : U32) (data : List U8)
  | fetchBytes (addr : U32) (n : Nat)
  | permAt (addr : U32)
  | readRawState (addr : U32) (len : Nat)
  | writeShadow (addr : U32) (len : Nat) (taintMask : U32)
  /-- A store through the pointer of `fast_ptr`, made when one was granted. -/
  | fastStore (addr : U32) (len : Nat) (val : U32)
  | reset
  deriving DecidableEq

/-- What an operation returns. -/
inductive MemOut where
  | word (r : Except Fault U32)
  | half (r : Except Fault U16)
  | bytes (r : Except Fault (List U8))
  | stored (r : Except Fault Unit)
  | perm (r : Option U8)
  | mask (r : U32)
  | granted (r : Bool)
  | done
  deriving DecidableEq

/-- What a fast store needs of every byte. -/
def STORE_NEED : U8 := PERM_READ ||| PERM_WRITE

/-- One operation on the flat memory; `m₀` is the memory the image was taken of. -/
def Mmu.exec (m₀ m : Mmu) : MemOp → MemOut × Mmu
  | .load addr size => (.word (m.load addr size), m)
  | .store addr size val => let r := m.store addr size val; (.stored r.1, r.2)
  | .ifetch16 addr => (.half (m.fetchU16 addr), m)
  | .read addr len => (.bytes (m.read addr len), m)
  | .write addr data => let r := m.write addr data; (.stored r.1, r.2)
  | .fetchBytes addr n => (.bytes (m.fetchBytes addr n), m)
  | .permAt addr => (.perm (m.permAt addr), m)
  | .readRawState addr len => (.mask (m.readRawState addr len), m)
  | .writeShadow addr len taintMask => (.done, m.writeShadow addr len taintMask)
  | .fastStore addr len val =>
    let r := m.fastPtr addr len STORE_NEED
    match r.1 with
    | some p => (.granted true, r.2.ptrStore p (leBytes val len))
    | none => (.granted false, r.2)
  | .reset => (.done, m₀)

/-- One operation on the copy-on-write view. -/
def CowRam.exec (c : CowRam) : MemOp → MemOut × CowRam
  | .load addr size => (.word (c.load addr size), c)
  | .store addr size val => let r := c.store addr size val; (.stored r.1, r.2)
  | .ifetch16 addr => (.half (c.fetchU16 addr), c)
  | .read addr len => (.bytes (c.read addr len), c)
  | .write addr data => let r := c.write addr data; (.stored r.1, r.2)
  | .fetchBytes addr n => (.bytes (c.fetchBytes addr n), c)
  | .permAt addr => (.perm (c.permAt addr), c)
  | .readRawState addr len => (.mask (c.readRawState addr len), c)
  | .writeShadow addr len taintMask => (.done, c.writeShadow addr len taintMask)
  | .fastStore addr len val =>
    let r := c.fastPtr addr len STORE_NEED
    match r.1 with
    | some p => (.granted true, r.2.ptrStore p (leBytes val len))
    | none => (.granted false, r.2)
  | .reset => (.done, c.reset)

/-- The span of an operation is one on which the two memories take the same bytes. Only taint spans
and fast stores are restricted: an access that is tested byte by byte never is. -/
def MemOp.Clear (m : Mmu) : MemOp → Prop
  | .writeShadow addr len _ => ShadowClear m addr len
  | .fastStore addr len _ => FastClear m addr len STORE_NEED
  | _ => True

instance (m : Mmu) : ∀ op : MemOp, Decidable (op.Clear m)
  | .writeShadow _ _ _ => inferInstanceAs (Decidable (ShadowClear _ _ _))
  | .fastStore _ _ _ => inferInstanceAs (Decidable (FastClear _ _ _ _))
  | .load _ _ | .store _ _ _ | .ifetch16 _ | .read _ _ | .write _ _ | .fetchBytes _ _ | .permAt _
  | .readRawState _ _ | .reset => inferInstanceAs (Decidable True)

/-- A taint span or a fast store is naturally aligned, as the interpreter's are. -/
def MemOp.Natural : MemOp → Prop
  | .writeShadow addr len _ | .fastStore addr len _ =>
    (len = 1 ∨ len = 2 ∨ len = 4) ∧ addr.toNat % len = 0
  | _ => True

instance : ∀ op : MemOp, Decidable op.Natural
  | .writeShadow _ _ _ | .fastStore _ _ _ => inferInstanceAs (Decidable (_ ∧ _))
  | .load _ _ | .store _ _ _ | .ifetch16 _ | .read _ _ | .write _ _ | .fetchBytes _ _ | .permAt _
  | .readRawState _ _ | .reset => inferInstanceAs (Decidable True)

/-- Running `ops` on `m` and on a fresh view over its image: the same results, the same data and
permission byte at every address of the window, the image as it was taken, and a reset that gives
back the fresh view. -/
structure LockstepAgree (m : Mmu) (ops : List MemOp) : Prop where
  outs : (run CowRam.exec (CowRam.new (Golden.fromMmu m)) ops).1 = (run (Mmu.exec m) m ops).1
  mem : ∀ {off}, off < m.size →
    (run CowRam.exec (CowRam.new (Golden.fromMmu m)) ops).2.memAt off =
      (run (Mmu.exec m) m ops).2.mem off
  perms : ∀ {off}, off < m.size →
    (run CowRam.exec (CowRam.new (Golden.fromMmu m)) ops).2.permOf off =
      (run (Mmu.exec m) m ops).2.perms off
  golden : (run CowRam.exec (CowRam.new (Golden.fromMmu m)) ops).2.golden = Golden.fromMmu m
  reset : (run CowRam.exec (CowRam.new (Golden.fromMmu m)) ops).2.reset =
    CowRam.new (Golden.fromMmu m)

/-- A flat memory and a copy-on-write one agree, over the image of `m₀`. -/
structure OverImage (m₀ m : Mmu) (c : CowRam) : Prop where
  agree : Agree m c
  golden : c.golden = Golden.fromMmu m₀

/-- The relation the lockstep run keeps. The flat side has no permission past the end of the address
space, so no span it accepts wraps. -/
structure InLockstep (m₀ m : Mmu) (c : CowRam) : Prop extends OverImage m₀ m c where
  backed : m.Backed

namespace CowRam

/-- Copying a page leaves the image. -/
theorem golden_ensurePage (c : CowRam) (pn : Nat) : (c.ensurePage pn).2.golden = c.golden := by
  unfold ensurePage
  simp only
  split <;> rfl

/-- So does an update. -/
theorem golden_updatePage (c : CowRam) (off : Nat) (f : Nat → CowPage → CowPage) :
    (c.updatePage off f).golden = c.golden :=
  golden_ensurePage c _

/-- So does a byte-wise write. -/
theorem golden_writeLoop (offset : U32 → Option Nat) (len : U32) (c : CowRam) (a : U32)
    (data : List U8) : (writeLoop offset permOf putByte len c a data).2.golden = c.golden := by
  induction data generalizing c a with
  | nil => rfl
  | cons b bs ih =>
    rw [writeLoop]
    split
    · rfl
    · split
      · rfl
      · exact (ih _ _).trans (golden_updatePage _ _ _)

/-- So does a write. -/
theorem golden_write (c : CowRam) (addr : U32) (data : List U8) :
    (c.write addr data).2.golden = c.golden := by
  unfold write
  split
  · exact golden_updatePage _ _ _
  · exact golden_writeLoop _ _ _ _ _

/-- So does an aligned store. -/
theorem golden_writeAligned (c : CowRam) (addr : U32) (n : Nat) (v : U32) :
    (c.writeAligned addr n v).2.golden = c.golden := by
  unfold writeAligned
  split
  · rfl
  · exact golden_write _ _ _

/-- So does a granted pointer. -/
theorem golden_fastPtr (c : CowRam) (addr : U32) (len : Nat) (need : U8) :
    (c.fastPtr addr len need).2.golden = c.golden := by
  unfold fastPtr
  split
  · rfl
  · simp only
    split
    · rfl
    · split
      · split
        · exact golden_ensurePage _ _
        · split <;> rfl
      · rfl

/-- No operation changes the golden image. -/
theorem golden_exec (c : CowRam) (op : MemOp) : (c.exec op).2.golden = c.golden := by
  cases op with
  | load | ifetch16 | read | fetchBytes | permAt | readRawState | reset => rfl
  | store addr size val =>
    simp only [exec]
    unfold store
    split <;> exact golden_writeAligned _ _ _ _
  | write addr data => exact golden_write _ _ _
  | writeShadow addr len mask =>
    simp only [exec]
    unfold writeShadow
    split
    · rfl
    · simp only
      split
      · rfl
      · exact golden_updatePage _ _ _
  | fastStore addr len val =>
    simp only [exec]
    split
    next p _ =>
      refine Eq.trans ?_ (golden_fastPtr c addr len STORE_NEED)
      cases p <;> rfl
    next => exact golden_fastPtr _ _ _ _

end CowRam

/-- The flat memory keeps to the end of the address space. -/
theorem Mmu.Backed.exec {m₀ m : Mmu} (h₀ : m₀.Backed) (h : m.Backed) (op : MemOp) :
    (Mmu.exec m₀ m op).2.Backed := by
  have hwrite (addr : U32) (data : List U8) : (m.write addr data).2.Backed :=
    (Mmu.inside_write h).backed h
  cases op with
  | load | ifetch16 | read | fetchBytes | permAt | readRawState => exact h
  | store addr size val =>
    have haligned (n : Nat) (v : U32) : (m.writeAligned addr n v).2.Backed := by
      unfold Mmu.writeAligned
      split
      · exact h
      · exact hwrite _ _
    show (m.store addr size val).2.Backed
    unfold Mmu.store
    split
    · exact haligned 1 _
    · exact haligned 2 _
    · exact haligned 4 _
  | write addr data => exact hwrite addr data
  | writeShadow addr len mask => exact Mmu.inside_writeShadow.backed h
  | fastStore addr len val =>
    have hgrant : (m.fastPtr addr len STORE_NEED).2.Backed :=
      (Mmu.samePlanes_fastPtr m addr len STORE_NEED).inside.backed h
    simp only [Mmu.exec]
    split
    next p _ => cases p <;> exact hgrant
    next => exact hgrant
  | reset => exact h₀

/-- A span that the fast path accepts ends before the end of the address space. -/
theorem Mmu.Backed.spanClear {m : Mmu} (h : m.Backed) (need : U8) (addr : U32) (len : Nat) :
    SpanClear m need addr len := fun _ ho => .inr (h.no_wrap ho)

/-- One operation in lockstep: the same result, and the relation afterwards. -/
theorem InLockstep.exec {m₀ m : Mmu} {c : CowRam} (h₀ : m₀.Backed) (h : InLockstep m₀ m c)
    {op : MemOp} (hc : op.Clear m) :
    (c.exec op).1 = (Mmu.exec m₀ m op).1 ∧ InLockstep m₀ (Mmu.exec m₀ m op).2 (c.exec op).2 := by
  have hg : (c.exec op).2.golden = Golden.fromMmu m₀ := (c.golden_exec op).trans h.golden
  suffices hs : (c.exec op).1 = (Mmu.exec m₀ m op).1 ∧ Agree (Mmu.exec m₀ m op).2 (c.exec op).2 from
    ⟨hs.1, ⟨hs.2, hg⟩, h₀.exec h.backed op⟩
  cases op with
  | load addr size => exact ⟨congrArg MemOut.word (h.agree.load addr size), h.agree⟩
  | store addr size val =>
    obtain ⟨h1, h2⟩ := h.agree.store addr val size
    exact ⟨congrArg MemOut.stored h1, h2⟩
  | ifetch16 addr => exact ⟨congrArg MemOut.half (h.agree.fetchU16 addr), h.agree⟩
  | read addr len =>
    exact ⟨congrArg MemOut.bytes (h.agree.read (h.backed.spanClear _ _ _)), h.agree⟩
  | write addr data =>
    obtain ⟨h1, h2⟩ := h.agree.write (h.backed.spanClear _ _ _)
    exact ⟨congrArg MemOut.stored h1, h2⟩
  | fetchBytes addr n =>
    exact ⟨congrArg MemOut.bytes (h.agree.fetchBytes (h.backed.spanClear _ _ _)), h.agree⟩
  | permAt addr => exact ⟨congrArg MemOut.perm (h.agree.permAt addr), h.agree⟩
  | readRawState addr len => exact ⟨congrArg MemOut.mask (h.agree.readRawState addr len), h.agree⟩
  | writeShadow addr len mask => exact ⟨rfl, h.agree.writeShadow hc⟩
  | fastStore addr len val =>
    have hpl := Mmu.samePlanes_fastPtr m addr len STORE_NEED
    rcases h.agree.fastStore (by decide) hc (length_leBytes val len) with
      ⟨hm, hcow⟩ | ⟨p, q, hm, hcow, ha⟩
    · simp only [CowRam.exec, Mmu.exec, hm, hcow]
      exact ⟨trivial, h.agree.congr hpl⟩
    · simp only [CowRam.exec, Mmu.exec, hm, hcow]
      exact ⟨trivial, ha⟩
  | reset => exact ⟨rfl, Agree.reset h.agree.inv h.golden⟩

/-- The copy-on-write memory refines the flat one, whatever memory the image is taken of, over every
run of operations whose taint spans and fast stores are clear. -/
theorem cowRam_refines_mmu {base : U32} {size : Nat} {m : Mmu} (hm : Mmu.Made base size m)
    (ops : List MemOp) (hclear : Along (Mmu.exec m) (fun m' op => op.Clear m') m ops) :
    LockstepAgree m ops := by
  have hbacked : m.Backed := hm.wellMade.backed
  have hsize : ∀ {m' : Mmu} {c : CowRam}, InLockstep m m' c → m'.size = m.size := fun h =>
    h.agree.size.symm.trans (congrArg Golden.size h.golden)
  have hstart : InLockstep m m (CowRam.new (Golden.fromMmu m)) := ⟨⟨agree_new m, rfl⟩, hbacked⟩
  have hstep : ∀ {m' : Mmu} {c : CowRam} {op : MemOp}, InLockstep m m' c → op.Clear m' →
      (c.exec op).1 = (Mmu.exec m m' op).1 ∧
        InLockstep m (Mmu.exec m m' op).2 (c.exec op).2 := fun h hc => h.exec hbacked hc
  obtain ⟨houts, hR⟩ := run_lockstep hstep hstart hclear
  refine ⟨houts, fun ho => hR.agree.mem ?_, fun ho => hR.agree.perms ?_, hR.golden, ?_⟩
  · rw [hsize hR]
    exact ho
  · rw [hsize hR]
    exact ho
  · rw [hR.agree.inv.reset_eq, hR.golden]

/-- A window of two pages whose base is a multiple of four, readable and writable around the middle. -/
def alignedWindow : Mmu :=
  ((Mmu.new 0x80000000 8192).protect 0x80000ff8 16 (PERM_READ ||| PERM_WRITE)).2

theorem cowRam_refines_mmu_alignedWindow :
    LockstepAgree alignedWindow
      [.write 0x80000ffe [1, 2, 3, 4], .writeShadow 0x80001000 4 0x0101, .load 0x80001000 4,
        .fastStore 0x80000ffc 4 7, .store 0x80001ffe 4 9, .reset, .readRawState 0x80001000 4] :=
  cowRam_refines_mmu (Mmu.Made.new.protect _ _ _) _ (by decide +kernel)

/-- A window whose base is not a multiple of four: an aligned taint span can leave its page. -/
def skewedWindow : Mmu := Mmu.new 2 8192

/-- The aligned taint span at 4096 covers offsets 4094 to 4097 of the window. The flat memory taints
all four bytes, the copy-on-write memory none. -/
theorem cowRam_drops_shadow_across_page :
    (MemOp.writeShadow 4096 4 0x01010101).Natural ∧
      ¬ LockstepAgree skewedWindow [.writeShadow 4096 4 0x01010101] := by
  refine ⟨by decide, fun h => ?_⟩
  have hp := @LockstepAgree.perms _ _ h 4094 (by decide)
  revert hp
  decide +kernel

/-- In a window whose base is a multiple of four, every operation with natural spans is clear. -/
theorem MemOp.Natural.clear {m : Mmu} (hbase : m.base.toNat % 4 = 0) {op : MemOp}
    (h : op.Natural) : op.Clear m := by
  have hpage : ∀ {addr : U32} {off len}, m.offset addr = some off →
      (len = 1 ∨ len = 2 ∨ len = 4) → addr.toNat % len = 0 → off % PAGE_SIZE + len ≤ PAGE_SIZE := by
    intro addr off len ho hlen ha
    have := (windowOffset_eq_some.1 ho).1
    simp only [PAGE_SIZE]
    rcases hlen with rfl | rfl | rfl <;> omega
  cases op with
  | load | store | ifetch16 | read | write | fetchBytes | permAt | readRawState | reset => trivial
  | fastStore addr len val =>
    obtain ⟨hlen, ha⟩ := h
    simp only [MemOp.Clear, FastClear]
    split
    next ho => exact fun _ => hpage ho hlen ha
    next => trivial
  | writeShadow addr len mask =>
    obtain ⟨hlen, ha⟩ := h
    have hw := aligned_no_wrap hlen ha
    have hmin : min len 4 = len := by omega
    refine ⟨by rw [hmin]; exact hw, ?_⟩
    rw [hmin]
    split
    next ho => exact hpage ho hlen ha
    next ho =>
      -- an aligned span that starts below the base ends below it
      intro i hi
      have hn : (addr + BitVec.ofNat 32 i).toNat = addr.toNat + i := by
        rw [BitVec.toNat_add, BitVec.toNat_ofNat]
        omega
      refine windowOffset_eq_none.2 ?_
      rw [hn]
      rcases windowOffset_eq_none.1 ho with hlt | hge
      · left
        rcases hlen with rfl | rfl | rfl <;> omega
      · right
        omega

end FuzzSoft
