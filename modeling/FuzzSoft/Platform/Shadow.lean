import FuzzSoft.Platform.Cells
import FuzzSoft.Mmu.Lockstep

/-!
# The taint of RAM bytes

A byte of a RAM is tainted when its permission byte says that it was never written, or that it holds
a copy of such a byte (`Cells.tainted`). `TaintRam` says of a bus over RAM cells how its two taint
operations work on them: a query reads the bits of a span, a scatter overwrites the copy bit of each
of its bytes (`Cells.shade`), and a store that went to RAM only ends the first kind of taint. The
copy-on-write memory drops a scatter over two of its pages, so the class says which scatters are
taken whole.
-/

namespace FuzzSoft

open Lib

namespace Cells

/-- The permission byte at `a` has one of the bits `bits`. -/
def has (c : Cells) (bits : U8) (a : U32) : Bool :=
  match c a with
  | some x => x.2 &&& bits ≠ 0
  | none => false

/-- The byte at `a` was never written, or is a copy of such a byte. -/
def tainted (c : Cells) (a : U32) : Bool := c.has (PERM_RAW ||| PERM_VTAINT) a

/-- Overwrite the taint of `n` bytes from `pa` on with a mask. -/
def shade (c : Cells) (pa mask : U32) (n : Nat) : Cells := fun a =>
  if (a - pa).toNat < n then (c a).map fun x => (x.1, taintPerm mask (a - pa).toNat x.2) else c a

/-- The cells at `n` addresses from `pa` on exist. -/
def Filled (c : Cells) (pa : U32) (n : Nat) : Prop := ∀ i < n, (c (pa + BitVec.ofNat 32 i)).isSome

/-- A byte is tainted by either mark. -/
theorem tainted_eq (c : Cells) (a : U32) :
    c.tainted a = (c.has PERM_RAW a || c.has PERM_VTAINT a) := by
  have key : ∀ p : U8, decide (p &&& (PERM_RAW ||| PERM_VTAINT) ≠ 0) =
      (decide (p &&& PERM_RAW ≠ 0) || decide (p &&& PERM_VTAINT ≠ 0)) := by decide
  unfold tainted has
  cases c a with
  | none => rfl
  | some x => exact key x.2

/-! ## Stores -/

/-- A write leaves the bytes outside it. -/
theorem put_of_notMem {c : Cells} {pa a : U32} {bs : List U8} (h : bs.length ≤ (a - pa).toNat) :
    c.put pa bs a = c a := by
  rw [put, List.getElem?_eq_none h]

/-- A write makes no byte. -/
theorem put_isSome (c : Cells) (pa : U32) (bs : List U8) (a : U32) :
    (c.put pa bs a).isSome = (c a).isSome := by
  unfold put
  split
  · exact Option.isSome_map
  · rfl

/-- A write leaves the virtual mark. -/
theorem has_put_vtaint (c : Cells) (pa : U32) (bs : List U8) (a : U32) :
    (c.put pa bs).has PERM_VTAINT a = c.has PERM_VTAINT a := by
  have key : ∀ p : U8, decide (writtenPerm p &&& PERM_VTAINT ≠ 0) =
      decide (p &&& PERM_VTAINT ≠ 0) := by decide
  unfold has put
  split
  next x h =>
    split at h
    · cases hc : c a with
      | none =>
        rw [hc] at h
        cases h
      | some y =>
        rw [hc] at h
        cases h
        exact key y.2
    · rw [h]
  next h =>
    split at h
    · rw [Option.map_eq_none_iff.1 h]
    · rw [h]

/-- A written byte is no longer uninitialised. -/
theorem has_put_raw {c : Cells} {pa a : U32} {bs : List U8} (h : (a - pa).toNat < bs.length) :
    (c.put pa bs).has PERM_RAW a = false := by
  have key : ∀ p : U8, decide (writtenPerm p &&& PERM_RAW ≠ 0) = false := by decide
  unfold has put
  rw [List.getElem?_eq_getElem h]
  cases c a with
  | none => rfl
  | some x => exact key x.2

/-- A store makes no byte uninitialised. -/
theorem has_put_raw_le {c : Cells} {a : U32} (h : c.has PERM_RAW a = false) (pa : U32)
    (bs : List U8) : (c.put pa bs).has PERM_RAW a = false := by
  rcases Nat.lt_or_ge (a - pa).toNat bs.length with hlt | hge
  · exact has_put_raw hlt
  · rw [has, put_of_notMem hge]
    exact h

/-! ## Scatters -/

/-- A scatter sets the virtual mark as the mask says. -/
theorem taintPerm_vtaint (mask : U32) (i : Nat) (p : U8) :
    decide (taintPerm mask i p &&& PERM_VTAINT ≠ 0) = decide ((mask >>> (8 * i)) &&& 1 ≠ 0) := by
  unfold taintPerm
  split
  next h =>
    rw [decide_eq_true h]
    revert p
    decide
  next h =>
    rw [decide_eq_false h]
    revert p
    decide

/-- It leaves the raw mark. -/
theorem taintPerm_raw (mask : U32) (i : Nat) (p : U8) :
    decide (taintPerm mask i p &&& PERM_RAW ≠ 0) = decide (p &&& PERM_RAW ≠ 0) := by
  unfold taintPerm
  split <;> revert p <;> decide

/-- A scatter makes no byte. -/
theorem shade_isSome (c : Cells) (pa mask : U32) (n : Nat) (a : U32) :
    (c.shade pa mask n a).isSome = (c a).isSome := by
  unfold shade
  split
  · exact Option.isSome_map
  · rfl

/-- A scatter leaves the raw marks. -/
theorem has_shade_raw (c : Cells) (pa mask : U32) (n : Nat) (a : U32) :
    (c.shade pa mask n).has PERM_RAW a = c.has PERM_RAW a := by
  unfold has shade
  by_cases h : (a - pa).toNat < n
  · simp only [if_pos h]
    cases c a with
    | none => rfl
    | some x => exact taintPerm_raw mask _ x.2
  · simp only [if_neg h]

/-- It sets the virtual marks of its span. -/
theorem has_shade_vtaint {c : Cells} {pa mask : U32} {n : Nat} {a : U32} (h : (a - pa).toNat < n)
    (hs : (c a).isSome) :
    (c.shade pa mask n).has PERM_VTAINT a = decide ((mask >>> (8 * (a - pa).toNat)) &&& 1 ≠ 0) := by
  obtain ⟨x, hx⟩ := Option.isSome_iff_exists.1 hs
  unfold has shade
  simp only [if_pos h, hx, Option.map_some]
  exact taintPerm_vtaint mask _ x.2

/-- It leaves the bytes outside. -/
theorem shade_of_notMem {c : Cells} {pa mask : U32} {n : Nat} {a : U32} (h : n ≤ (a - pa).toNat) :
    c.shade pa mask n a = c a :=
  if_neg (Nat.not_lt.2 h)

end Cells

/-! ## Buses with a taint shadow -/

/-- A bus whose RAM cells carry taint. A store at a `backed` address goes to RAM, and a scatter over a
`whole` span is taken. -/
class TaintRam (β : Type) [Bus β] [RamBus β] where
  backed : β → U32 → Bool
  whole : β → U32 → Nat → Bool
  whole_byte : ∀ (b : β) pa, whole b pa 1 = true
  store_backed : ∀ {b : β} {pa n v}, RamBus.Ok b → AccessSize n →
    (Bus.store b pa n v).1 = .ok () → backed b pa = true →
    pa.toNat % n = 0 ∧ (RamBus.cells b).Filled pa n ∧
      RamBus.cells (Bus.store b pa n v).2 = (RamBus.cells b).put pa (leBytes v n)
  store_same : ∀ (b : β) pa n v, backed (Bus.store b pa n v).2 = backed b ∧
    whole (Bus.store b pa n v).2 = whole b
  shadow_same : ∀ (b : β) pa n mask, backed (Bus.writeShadow b pa n mask) = backed b ∧
    whole (Bus.writeShadow b pa n mask) = whole b
  rawState : ∀ {b : β} {pa n}, RamBus.Ok b → n ≤ 4 → backed b pa = true →
    Bus.readRawState b pa n = rawMask (fun i => (RamBus.cells b).tainted (pa + BitVec.ofNat 32 i)) n
  shadow : ∀ {b : β} {pa n mask}, RamBus.Ok b → 0 < n → n ≤ 4 → pa.toNat + n ≤ 2 ^ 32 →
    backed b pa = true → (RamBus.cells b).Filled pa n → RamBus.Ok (Bus.writeShadow b pa n mask) ∧
      RamBus.cells (Bus.writeShadow b pa n mask) =
        if whole b pa n then (RamBus.cells b).shade pa mask n else RamBus.cells b

/-! ## The flat memory -/

namespace Mmu

/-- A store that succeeds finds all its bytes and writes them. -/
theorem store_cells_ok {m : Mmu} {pa v : U32} {n : Nat} (hn : AccessSize n)
    (h : (m.store pa n v).1 = .ok ()) : pa.toNat % n = 0 ∧ m.cells.Filled pa n ∧
      (m.store pa n v).2.cells = m.cells.put pa (leBytes v n) := by
  have hw : width n = n := by rcases hn with rfl | rfl | rfl <;> rfl
  have hpos : 0 < n := by rcases hn with rfl | rfl | rfl <;> decide
  obtain ⟨k, -, hin, hpl, hok⟩ := m.store_prefixed pa n v
  obtain rfl : k = n := (hok.1 h).trans hw
  obtain ⟨ha, hbase, hsize⟩ := hin (by omega)
  rw [hw] at ha hpl
  have hwrap := aligned_no_wrap hn ha
  refine ⟨ha, fun i hi => ?_, ?_⟩
  · have ho : m.offset (pa + BitVec.ofNat 32 i) = some (pa.toNat - m.base.toNat + i) := by
      refine windowOffset_eq_some.2 ⟨?_, by omega⟩
      rw [BitVec.toNat_add, BitVec.toNat_ofNat]
      omega
    rw [cells, ho]
    rfl
  · have hlen : (leBytes v k).length = k := length_leBytes v k
    rw [cells_congr hpl, List.take_of_length_le (by omega)]
    exact cells_wrote hbase (by omega)

/-- The marks of a span are read off its bytes. -/
theorem readRawState_cells (m : Mmu) (pa : U32) {n : Nat} (hn : n ≤ 4) :
    m.readRawState pa n = rawMask (fun i => m.cells.tainted (pa + BitVec.ofNat 32 i)) n := by
  rw [readRawState, Nat.min_eq_left hn]
  congr 1
  funext i
  unfold Cells.tainted Cells.has cells
  cases m.offset (pa + BitVec.ofNat 32 i) <;> rfl

/-- One byte of a scatter. -/
theorem shadowByte_cells (m : Mmu) (pa mask : U32) (i : Nat) :
    (shadowByte pa mask m i).cells = fun a =>
      if a = pa + BitVec.ofNat 32 i then (m.cells a).map fun x => (x.1, taintPerm mask i x.2)
      else m.cells a := by
  funext a
  unfold shadowByte
  cases ho : m.offset (pa + BitVec.ofNat 32 i) with
  | none =>
    dsimp only
    split
    next ha =>
      subst ha
      simp only [cells, ho, Option.map_none]
    next => rfl
  | some off =>
    have hoff : ∀ perms', offset { m with perms := perms' } a = m.offset a := fun _ => rfl
    simp only [cells, hoff]
    split
    next ha =>
      subst ha
      simp only [ho, Option.map_some, setAt_self]
    next hne =>
      cases hoa : m.offset a with
      | none => rfl
      | some o =>
        have ho' : o ≠ off := by
          rintro rfl
          refine hne (BitVec.eq_of_toNat_eq ?_)
          have h1 := (windowOffset_eq_some.1 hoa).1
          have h2 := (windowOffset_eq_some.1 ho).1
          omega
        simp only [Option.map_some, setAt_of_ne _ _ ho']

/-- A scatter of up to four bytes. -/
theorem writeShadow_cells (m : Mmu) (pa mask : U32) {n : Nat} (hn : n ≤ 4) :
    (m.writeShadow pa n mask).cells = m.cells.shade pa mask n := by
  have key : ∀ k ≤ 4, ((List.range k).foldl (shadowByte pa mask) m).cells =
      m.cells.shade pa mask k := by
    intro k
    induction k with
    | zero =>
      intro _
      funext a
      exact (if_neg (Nat.not_lt_zero _)).symm
    | succ k ih =>
      intro hk
      rw [List.range_succ, List.foldl_append, List.foldl_cons, List.foldl_nil, shadowByte_cells,
        ih (by omega)]
      funext a
      have hsub : ((pa + BitVec.ofNat 32 k) - pa).toNat = k := by
        rw [BitVec.add_comm, BitVec.add_sub_cancel, BitVec.toNat_ofNat]
        omega
      unfold Cells.shade
      by_cases ha : a = pa + BitVec.ofNat 32 k
      · subst ha
        rw [if_pos rfl, hsub, if_neg (Nat.lt_irrefl k), if_pos (Nat.lt_succ_self k)]
      · have hne : (a - pa).toNat ≠ k := by
          rintro hk'
          refine ha ?_
          rw [← hk', BitVec.ofNat_toNat, BitVec.setWidth_eq, BitVec.add_comm, BitVec.sub_add_cancel]
        rw [if_neg ha]
        by_cases hlt : (a - pa).toNat < k
        · rw [if_pos hlt, if_pos (by omega)]
        · rw [if_neg hlt, if_neg (by omega)]
  rw [writeShadow, Nat.min_eq_left hn]
  exact key n hn

instance : TaintRam Mmu where
  backed := fun _ _ => true
  whole := fun _ _ _ => true
  whole_byte := fun _ _ => rfl
  store_backed := fun _ hn h _ => store_cells_ok hn h
  store_same := fun _ _ _ _ => ⟨rfl, rfl⟩
  shadow_same := fun _ _ _ _ => ⟨rfl, rfl⟩
  rawState := fun {m pa _} _ hn _ => m.readRawState_cells pa hn
  shadow := fun {m pa _ mask} _ _ hn _ _ _ => ⟨trivial, m.writeShadow_cells pa mask hn⟩

end Mmu

/-! ## The copy-on-write memory -/

namespace CowRam

/-- The span stays inside one page of the window. -/
def onePage (c : CowRam) (pa : U32) (n : Nat) : Bool :=
  match c.offset pa with
  | some off => off % PAGE_SIZE + n ≤ PAGE_SIZE
  | none => true

/-- Whether a span is on one page depends on the window. -/
theorem onePage_congr {c c' : CowRam} (h : c'.golden = c.golden) : c'.onePage = c.onePage := by
  funext pa n
  unfold onePage CowRam.offset
  rw [h]

/-- A store leaves the golden image. -/
theorem golden_store (c : CowRam) (pa : U32) (n : Nat) (v : U32) :
    (c.store pa n v).2.golden = c.golden :=
  golden_exec c (.store pa n v)

/-- So does a scatter. -/
theorem golden_writeShadow (c : CowRam) (pa : U32) (n : Nat) (mask : U32) :
    (c.writeShadow pa n mask).golden = c.golden :=
  golden_exec c (.writeShadow pa n mask)

/-- A scatter of the copy-on-write memory, which drops those over two pages. -/
theorem shadow_cells {c : CowRam} {pa mask : U32} {n : Nat} (h : c.Inv) (h0 : 0 < n) (hn : n ≤ 4)
    (hw : pa.toNat + n ≤ 2 ^ 32) (hf : c.cells.Filled pa n) : (c.writeShadow pa n mask).Inv ∧
      (c.writeShadow pa n mask).cells =
        if c.onePage pa n then c.cells.shade pa mask n else c.cells := by
  have h00 := hf 0 h0
  rw [BitVec.add_zero] at h00
  cases ho : c.offset pa with
  | none =>
    have ho' : c.flat.offset pa = none := ho
    rw [cells, Mmu.cells, ho'] at h00
    cases h00
  | some off =>
    have ho' : c.flat.offset pa = some off := ho
    unfold onePage
    rw [ho]
    dsimp only
    by_cases hp : off % PAGE_SIZE + n ≤ PAGE_SIZE
    · rw [if_pos (decide_eq_true hp)]
      have hc : ShadowClear c.flat pa n := by
        refine ⟨by omega, ?_⟩
        rw [ho']
        dsimp only
        omega
      have ha : Agree (c.flat.writeShadow pa n mask) (c.writeShadow pa n mask) :=
        h.agree_flat.writeShadow hc
      exact ⟨ha.inv, ha.cells.trans (c.flat.writeShadow_cells pa mask hn)⟩
    · have hs : c.writeShadow pa n mask = c := by
        unfold writeShadow
        rw [ho]
        dsimp only
        rw [if_pos (by omega)]
      rw [if_neg (by simpa using hp), hs]
      exact ⟨h, rfl⟩

instance : TaintRam CowRam where
  backed := fun _ _ => true
  whole := onePage
  whole_byte := fun c pa => by
    unfold onePage
    split
    · exact decide_eq_true (Nat.mod_lt _ (by decide))
    · rfl
  store_backed := fun {c pa n v} h hn hok _ => by
    obtain ⟨hout, hagree⟩ := h.agree_flat.store pa v n
    obtain ⟨ha, hf, hc⟩ := Mmu.store_cells_ok hn (hout.symm.trans hok)
    exact ⟨ha, hf, hagree.cells.trans hc⟩
  store_same := fun c pa n v => ⟨rfl, onePage_congr (c.golden_store pa n v)⟩
  shadow_same := fun c pa n mask => ⟨rfl, onePage_congr (c.golden_writeShadow pa n mask)⟩
  rawState := fun {c pa n} h hn _ =>
    (h.agree_flat.readRawState pa n).trans (c.flat.readRawState_cells pa hn)
  shadow := fun h h0 hn hw _ hf => shadow_cells h h0 hn hw hf

end CowRam

/-! ## The machine -/

/-- The address is in the window of RAM and under no device. -/
def MachineOf.backed {ρ : Type} [Bus ρ] [RamBus ρ] [TaintRam ρ] (m : MachineOf ρ) (pa : U32) : Bool :=
  !inClint pa && !inUart pa && m.inRam pa && TaintRam.backed m.ram pa

section
variable {ρ : Type} [Bus ρ] [RamBus ρ] [TaintRam ρ] {m : MachineOf ρ} {pa : U32}

/-- An address of RAM is none of a device. -/
theorem MachineOf.backed_iff : m.backed pa = true ↔ inClint pa = false ∧ inUart pa = false ∧
    m.inRam pa = true ∧ TaintRam.backed m.ram pa = true := by
  unfold MachineOf.backed
  simp only [Bool.and_eq_true, Bool.not_eq_true', and_assoc]

/-- A store leaves the window of RAM. -/
theorem MachineOf.store_same (m : MachineOf ρ) (pa : U32) (n : Nat) (v : U32) :
    (m.store pa n v).2.backed = m.backed ∧
      TaintRam.whole (m.store pa n v).2.ram = TaintRam.whole m.ram := by
  obtain ⟨hb, hw⟩ := TaintRam.store_same m.ram pa n v
  unfold MachineOf.store
  split
  · exact ⟨rfl, rfl⟩
  split
  · exact ⟨rfl, rfl⟩
  split
  · refine ⟨?_, hw⟩
    funext a
    unfold MachineOf.backed
    dsimp only
    rw [hb]
    rfl
  · exact ⟨rfl, rfl⟩

/-- So does a scatter. -/
theorem MachineOf.shadow_same (m : MachineOf ρ) (pa : U32) (n : Nat) (mask : U32) :
    (m.writeShadow pa n mask).backed = m.backed ∧
      TaintRam.whole (m.writeShadow pa n mask).ram = TaintRam.whole m.ram := by
  obtain ⟨hb, hw⟩ := TaintRam.shadow_same m.ram pa n mask
  unfold MachineOf.writeShadow
  split
  · refine ⟨?_, hw⟩
    funext a
    unfold MachineOf.backed
    dsimp only
    rw [hb]
    rfl
  · exact ⟨rfl, rfl⟩

end

instance {ρ : Type} [Bus ρ] [RamBus ρ] [TaintRam ρ] : TaintRam (MachineOf ρ) where
  backed := MachineOf.backed
  whole := fun m => TaintRam.whole m.ram
  whole_byte := fun m pa => TaintRam.whole_byte m.ram pa
  store_backed := fun {m pa n v} h hn hok hb => by
    obtain ⟨hc, hu, hr, hb⟩ := MachineOf.backed_iff.1 hb
    have hs : m.store pa n v =
        ((Bus.store m.ram pa n v).1, { m with ram := (Bus.store m.ram pa n v).2 }) := by
      rw [MachineOf.store, hc, hu, hr]
      rfl
    change (m.store pa n v).1 = .ok () at hok
    rw [hs] at hok
    change _ ∧ _ ∧ RamBus.cells (m.store pa n v).2.ram = _
    rw [hs]
    exact TaintRam.store_backed (b := m.ram) h hn hok hb
  store_same := MachineOf.store_same
  shadow_same := MachineOf.shadow_same
  rawState := fun {m pa n} h hn hb => by
    obtain ⟨-, -, hr, hb⟩ := MachineOf.backed_iff.1 hb
    change m.readRawState pa n = _
    rw [MachineOf.readRawState, hr]
    exact TaintRam.rawState h hn hb
  shadow := fun {m pa n mask} h h0 hn hw hb hf => by
    obtain ⟨-, -, hr, hb⟩ := MachineOf.backed_iff.1 hb
    change RamBus.Ok (m.writeShadow pa n mask).ram ∧ RamBus.cells (m.writeShadow pa n mask).ram = _
    rw [MachineOf.writeShadow, if_pos hr]
    exact TaintRam.shadow h h0 hn hw hb hf

end FuzzSoft
