import FuzzSoft.Platform.PageTables

/-!
# The bytes of a RAM

What a guest can see of a RAM: at each address a byte and its permission byte, or nothing
(`Cells`). `RamBus` says of a bus what its stores do to the cells: a store that is refused writes a
proper prefix of its bytes, one that succeeds writes all of them or went to a device. The flat memory, the copy-on-write memory and the
machines over them are such buses.
-/

namespace FuzzSoft

open Lib

/-- The byte and the permission byte at each address of a RAM. -/
abbrev Cells := U32 → Option (U8 × U8)

namespace Cells

/-- Write bytes from `pa` on, each with the permission upgrade of a store. -/
def put (c : Cells) (pa : U32) (bs : List U8) : Cells := fun a =>
  match bs[(a - pa).toNat]? with
  | some b => (c a).map fun x => (b, writtenPerm x.2)
  | none => c a

@[simp] theorem put_nil (c : Cells) (pa : U32) : c.put pa [] = c := rfl

end Cells

/-- A bus with RAM cells. `Ok` is the invariant of its representation. -/
class RamBus (β : Type) [Bus β] where
  Ok : β → Prop
  cells : β → Cells
  store_ok : ∀ {b : β}, Ok b → ∀ pa n v, Ok (Bus.store b pa n v).2
  store_cells : ∀ {b : β}, Ok b → ∀ pa n v, ∃ k ≤ Mmu.width n,
    (∀ f, (Bus.store b pa n v).1 = .error f → k < Mmu.width n) ∧
      ((Bus.store b pa n v).1 = .ok () → k = 0 ∨ k = Mmu.width n) ∧
      cells (Bus.store b pa n v).2 = (cells b).put pa ((leBytes v (Mmu.width n)).take k)

/-! ## The flat memory -/

namespace Mmu

def cells (m : Mmu) : Cells := fun a => (m.offset a).map fun off => (m.mem off, m.perms off)

theorem cells_congr {m m' : Mmu} (h : m.SamePlanes m') : m'.cells = m.cells := by
  funext a
  simp only [cells, offset, h.base, h.size, h.mem, h.perms]

/-- A span written into the planes is one put into the cells. -/
theorem cells_wrote {m : Mmu} {a : U32} {data : List U8} (hbase : m.base.toNat ≤ a.toNat)
    (hwrap : a.toNat + data.length ≤ 2 ^ 32) :
    (m.wrote (a.toNat - m.base.toNat) data).cells = m.cells.put a data := by
  funext x
  have hoff : (m.wrote (a.toNat - m.base.toNat) data).offset x = m.offset x := rfl
  rw [cells, hoff, Cells.put]
  by_cases hx : a.toNat ≤ x.toNat
  · have hsub : (x - a).toNat = x.toNat - a.toNat :=
      BitVec.toNat_sub_of_le (BitVec.le_def.2 hx)
    rw [hsub]
    cases ho : m.offset x with
    | none =>
      rw [cells, ho]
      cases data[x.toNat - a.toNat]? <;> rfl
    | some off =>
      obtain ⟨hb, hlt⟩ := windowOffset_eq_some.1 ho
      have hidx : off - (a.toNat - m.base.toNat) = x.toNat - a.toNat := by omega
      cases hd : data[x.toNat - a.toNat]? with
      | some b =>
        have hl : x.toNat - a.toNat < data.length := (List.getElem?_eq_some_iff.1 hd).1
        rw [cells, ho]
        simp only [Option.map_some, wrote, setSpan, mapSpan]
        rw [if_pos (by omega), if_pos (by omega), hidx, hd]
        rfl
      | none =>
        have hl : data.length ≤ x.toNat - a.toNat := List.getElem?_eq_none_iff.1 hd
        rw [cells, ho]
        simp only [Option.map_some, wrote, mapSpan]
        rw [setSpan_of_ge _ _ (by omega), if_neg (by omega)]
  · -- an address below the span wraps to an offset past it
    have hbig : data.length ≤ (x - a).toNat := by
      rw [BitVec.toNat_sub]
      have := a.isLt
      omega
    rw [List.getElem?_eq_none hbig, cells]
    cases ho : m.offset x with
    | none => rfl
    | some off =>
      obtain ⟨hb, -⟩ := windowOffset_eq_some.1 ho
      simp only [Option.map_some, wrote, mapSpan]
      rw [setSpan_of_lt _ _ (by omega), if_neg (by omega)]

theorem store_cells (m : Mmu) (pa : U32) (n : Nat) (v : U32) : ∃ k ≤ width n,
    (∀ f, (m.store pa n v).1 = .error f → k < width n) ∧
      ((m.store pa n v).1 = .ok () → k = 0 ∨ k = width n) ∧
      (m.store pa n v).2.cells = m.cells.put pa ((leBytes v (width n)).take k) := by
  obtain ⟨k, hk, hin, hpl, hok⟩ := m.store_prefixed pa n v
  refine ⟨k, hk, fun f hf => ?_, fun h => .inr (hok.1 h), ?_⟩
  · refine lt_of_le_of_ne hk fun heq => ?_
    rw [hok.2 heq] at hf
    cases hf
  · rw [cells_congr hpl]
    rcases Nat.eq_zero_or_pos k with rfl | hk0
    · rw [List.take_zero, wrote_nil, Cells.put_nil]
    · obtain ⟨ha, hb, -⟩ := hin (by omega)
      have hlen : ((leBytes v (width n)).take k).length = k := by
        rw [List.length_take, length_leBytes]
        omega
      have hw := aligned_no_wrap (width_cases n) ha
      exact cells_wrote hb (by omega)

instance : RamBus Mmu where
  Ok := fun _ => True
  cells := cells
  store_ok := fun _ _ _ _ => trivial
  store_cells := fun {m} _ pa n v => m.store_cells pa n v

end Mmu

/-! ## The copy-on-write memory -/

namespace CowRam

/-- The cells that a view shows. -/
def cells (c : CowRam) : Cells := c.flat.cells

end CowRam

theorem Agree.cells {m : Mmu} {c : CowRam} (h : Agree m c) : c.cells = m.cells := by
  funext a
  have hoff : c.flat.offset a = m.offset a := h.offset_eq a
  unfold CowRam.cells Mmu.cells
  rw [hoff]
  cases ho : m.offset a with
  | none => rfl
  | some off =>
    obtain ⟨-, hlt⟩ := windowOffset_eq_some.1 ho
    have hm : c.flat.mem off = m.mem off := h.mem hlt
    have hp : c.flat.perms off = m.perms off := h.perms hlt
    simp only [Option.map_some, hm, hp]

instance : RamBus CowRam where
  Ok := CowRam.Inv
  cells := CowRam.cells
  store_ok := fun h pa n v => (h.agree_flat.store pa v n).2.inv
  store_cells := fun {c} h pa n v => by
    obtain ⟨hout, hagree⟩ := h.agree_flat.store pa v n
    obtain ⟨k, hk, herr, hfull, hc⟩ := c.flat.store_cells pa n v
    exact ⟨k, hk, fun f hf => herr f (hout.symm.trans hf), fun h => hfull (hout.symm.trans h),
      hagree.cells.trans hc⟩

/-! ## The machine -/

instance {ρ : Type} [Bus ρ] [RamBus ρ] : RamBus (MachineOf ρ) where
  Ok := fun m => RamBus.Ok m.ram
  cells := fun m => RamBus.cells m.ram
  store_ok := fun {m} h pa n v => by
    show RamBus.Ok (m.store pa n v).2.ram
    unfold MachineOf.store
    split
    · exact h
    split
    · exact h
    split
    · exact RamBus.store_ok h pa n v
    · exact h
  store_cells := fun {m} h pa n v => by
    have hpos : 0 < Mmu.width n := by
      rcases Mmu.width_cases n with hn | hn | hn <;> omega
    show ∃ k ≤ Mmu.width n, (∀ f, (m.store pa n v).1 = .error f → k < Mmu.width n) ∧
      ((m.store pa n v).1 = .ok () → k = 0 ∨ k = Mmu.width n) ∧
      RamBus.cells (m.store pa n v).2.ram = _
    unfold MachineOf.store
    split
    · exact ⟨0, Nat.zero_le _, fun _ _ => hpos, fun _ => .inl rfl, rfl⟩
    split
    · exact ⟨0, Nat.zero_le _, fun _ _ => hpos, fun _ => .inl rfl, rfl⟩
    split
    · exact RamBus.store_cells h pa n v
    · exact ⟨0, Nat.zero_le _, fun _ _ => hpos, fun _ => .inl rfl, rfl⟩

end FuzzSoft
