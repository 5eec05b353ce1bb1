import FuzzSoft.Platform.Cells
import Mathlib.Logic.Function.Basic

/-!
# The loader primitives on cells

`Mmu::map` writes bytes with their permissions, `Mmu::protect` stamps permissions, both without a
check and both byte by byte round the address space. What they do to the cells of a memory is one
thing: they change the cells of a span (`Cells.modify`), and they succeed if the memory has all of
these cells (`Cells.Has`).
-/

namespace FuzzSoft

open Lib

namespace Cells

section
variable {c : Cells} {a x : U32} {n : Nat} {g : Nat → U8 × U8 → U8 × U8}

/-- Change `n` cells from `a` on, each by its place. -/
def modify (c : Cells) (a : U32) (n : Nat) (g : Nat → U8 × U8 → U8 × U8) : Cells := fun x =>
  if (x - a).toNat < n then (c x).map (g (x - a).toNat) else c x

/-- Replace the cell at `a`. -/
def set (c : Cells) (a : U32) (y : Option (U8 × U8)) : Cells := Function.update c a y

@[simp] theorem set_self (y : Option (U8 × U8)) : c.set a y a = y := Function.update_self _ _ _

/-- The other addresses stay. -/
theorem set_of_ne (y : Option (U8 × U8)) (h : x ≠ a) : c.set a y x = c x :=
  Function.update_of_ne h _ _

/-- There are cells at `n` addresses from `a` on. -/
def Has (c : Cells) (a : U32) (n : Nat) : Prop := ∀ x, (x - a).toNat < n → (c x).isSome

/-- The place of an address, counted from the next one. -/
theorem place_next (h : x ≠ a) : (x - a).toNat = (x - (a + 1)).toNat + 1 := by
  have hne : x - a ≠ 0 := fun h0 => h (by bv_omega)
  bv_omega

/-- An address is last after the next one. -/
theorem place_self_next : (a - (a + 1)).toNat = 2 ^ 32 - 1 := by bv_omega

@[simp] theorem modify_zero : c.modify a 0 g = c := by
  funext x
  rw [modify, if_neg (Nat.not_lt_zero _)]

/-- A change of a range: its first byte, then the rest. -/
theorem modify_succ (hn : n < 2 ^ 32) : c.modify a (n + 1) g =
    (c.set a ((c a).map (g 0))).modify (a + 1) n fun i => g (i + 1) := by
  funext x
  rcases eq_or_ne x a with rfl | hx
  · simp only [modify, BitVec.sub_self, BitVec.toNat_zero, Nat.succ_pos, if_true, place_self_next,
      if_neg (show ¬ 2 ^ 32 - 1 < n by omega), set_self]
  · simp only [modify, place_next hx, Nat.add_lt_add_iff_right, set_of_ne _ hx]

@[simp] theorem has_zero : c.Has a 0 := fun _ h => absurd h (Nat.not_lt_zero _)

/-- A range is there when its first byte and the rest are. -/
theorem has_succ (hn : n < 2 ^ 32) : c.Has a (n + 1) ↔ (c a).isSome ∧ c.Has (a + 1) n := by
  constructor
  · intro h
    refine ⟨h a (by rw [BitVec.sub_self]; exact Nat.succ_pos n), fun x hx => ?_⟩
    have hne : x ≠ a := by
      rintro rfl
      rw [place_self_next] at hx
      omega
    exact h x (by rw [place_next hne]; omega)
  · rintro ⟨ha, h⟩ x hx
    rcases eq_or_ne x a with rfl | hne
    · exact ha
    · rw [place_next hne] at hx
      exact h x (by omega)

/-- A change makes no byte. -/
theorem isSome_modify : (c.modify a n g x).isSome = (c x).isSome := by
  unfold modify
  split
  · exact Option.isSome_map
  · rfl

/-- Whether a range is there depends on the addresses. -/
theorem has_congr {c' : Cells} (h : ∀ x, (c' x).isSome = (c x).isSome) : c'.Has a n ↔ c.Has a n :=
  forall_congr' fun x => by rw [h x]

end

end Cells

namespace Mmu

section
variable {m : Mmu} {a x : U32} {data : List U8} {perm : U8} {n : Nat}

/-- A new memory has the bytes of its window. -/
theorem cells_new {base : U32} {size : Nat} :
    ((new base size).cells x).isSome ↔ base.toNat ≤ x.toNat ∧ x.toNat - base.toNat < size := by
  rw [cells, Option.isSome_map, Option.isSome_iff_exists]
  constructor
  · rintro ⟨off, h⟩
    obtain ⟨hoff, hlt⟩ := windowOffset_eq_some.1 h
    change base.toNat + off = x.toNat at hoff
    change off < size at hlt
    omega
  · rintro ⟨hle, hlt⟩
    exact ⟨x.toNat - base.toNat, windowOffset_eq_some.2 ⟨Nat.add_sub_of_le hle, hlt⟩⟩

/-- A cell of a zeroed memory holds zero. -/
theorem cells_zero {y : U8 × U8} (h : ∀ off, m.mem off = 0) (hx : m.cells x = some y) :
    y.1 = 0 := by
  obtain ⟨off, -, rfl⟩ := Option.map_eq_some_iff.1 hx
  exact h off

/-- One byte set in both planes. -/
theorem cells_setAt {off : Nat} {b p : U8} (h : m.offset a = some off) :
    ({ m with mem := setAt m.mem off b, perms := setAt m.perms off p } : Mmu).cells =
      m.cells.set a (some (b, p)) := by
  funext y
  change (m.offset y).map (fun k => (setAt m.mem off b k, setAt m.perms off p k)) = _
  rcases eq_or_ne y a with rfl | hy
  · rw [h, Cells.set_self, Option.map_some, setAt_self, setAt_self]
  · rw [Cells.set_of_ne _ hy, cells]
    cases ho : m.offset y with
    | none => rfl
    | some k =>
      have hk : k ≠ off := by
        rintro rfl
        have hy' := (windowOffset_eq_some.1 ho).1
        have ha' := (windowOffset_eq_some.1 h).1
        exact hy (BitVec.eq_of_toNat_eq (hy'.symm.trans ha'))
      rw [Option.map_some, Option.map_some, setAt_of_ne _ _ hk, setAt_of_ne _ _ hk]

/-- Writing what is there changes nothing. -/
theorem setAt_get (f : Nat → U8) (off : Nat) : setAt f off (f off) = f := by
  funext o
  rcases eq_or_ne o off with rfl | h
  · exact setAt_self _ _ _
  · exact setAt_of_ne _ _ h

/-- One permission byte set. -/
theorem cells_setPerm {off : Nat} {p : U8} (h : m.offset a = some off) :
    ({ m with perms := setAt m.perms off p } : Mmu).cells =
      m.cells.set a (some (m.mem off, p)) := by
  rw [← cells_setAt h, setAt_get]

/-- A byte is there when its address has an offset. -/
theorem isSome_cells : (m.cells a).isSome = (m.offset a).isSome := Option.isSome_map

/-- A step that sets a cell which is there leaves the others there. -/
theorem has_set {c : Cells} {y : U8 × U8} {n : Nat} {b : U32} (ha : (c a).isSome) :
    (c.set a (some y)).Has b n ↔ c.Has b n :=
  Cells.has_congr fun x => by
    rcases eq_or_ne x a with rfl | hx
    · rw [Cells.set_self, ha, Option.isSome_some]
    · rw [Cells.set_of_ne _ hx]

/-- A mapping succeeds when its range is there. -/
theorem map_ok_iff (hlen : data.length ≤ 2 ^ 32) :
    (m.map a data perm).1 = .ok () ↔ m.cells.Has a data.length := by
  induction data generalizing m a with
  | nil => exact iff_of_true rfl Cells.has_zero
  | cons b bs ih =>
    rw [List.length_cons, Cells.has_succ hlen, isSome_cells, map]
    cases ho : m.offset a with
    | none => simp only [reduceCtorEq, Option.isSome_none, Bool.false_eq_true, false_and]
    | some off =>
      have hsome : (m.cells a).isSome := by rw [isSome_cells, ho, Option.isSome_some]
      rw [ih (Nat.le_of_lt hlen), cells_setAt ho, has_set hsome, Option.isSome_some]
      exact (and_iff_right rfl).symm

/-- What a mapping writes. -/
theorem cells_map (hlen : data.length ≤ 2 ^ 32) (h : (m.map a data perm).1 = .ok ()) :
    (m.map a data perm).2.cells =
      m.cells.modify a data.length fun i _ => (data.getD i 0, perm) := by
  induction data generalizing m a with
  | nil => exact Cells.modify_zero.symm
  | cons b bs ih =>
    rw [map] at h ⊢
    cases ho : m.offset a with
    | none =>
      rw [ho] at h
      cases h
    | some off =>
      rw [ho] at h
      rw [List.length_cons, Cells.modify_succ hlen, ih (Nat.le_of_lt hlen) h, cells_setAt ho]
      simp only [cells, ho, Option.map_some, List.getD_cons_zero, List.getD_cons_succ]

/-- A protection succeeds when its range is there. -/
theorem protect_ok_iff (hn : n ≤ 2 ^ 32) :
    (m.protect a n perm).1 = .ok () ↔ m.cells.Has a n := by
  suffices ∀ (k : Nat) (m : Mmu) (a : U32), k ≤ 2 ^ 32 →
      ((protect.go n perm m a k).1 = .ok () ↔ m.cells.Has a k) from this n m a hn
  intro k
  induction k with
  | zero => exact fun m a _ => iff_of_true rfl Cells.has_zero
  | succ k ih =>
    intro m a hk
    rw [Cells.has_succ hk, isSome_cells, protect.go]
    cases ho : m.offset a with
    | none => simp only [reduceCtorEq, Option.isSome_none, Bool.false_eq_true, false_and]
    | some off =>
      have hsome : (m.cells a).isSome := by rw [isSome_cells, ho, Option.isSome_some]
      rw [ih _ _ (Nat.le_of_lt hk), cells_setPerm ho, has_set hsome, Option.isSome_some]
      exact (and_iff_right rfl).symm

/-- What a protection writes. -/
theorem cells_protect (hn : n ≤ 2 ^ 32) (h : (m.protect a n perm).1 = .ok ()) :
    (m.protect a n perm).2.cells = m.cells.modify a n fun _ x => (x.1, perm) := by
  suffices ∀ (k : Nat) (m : Mmu) (a : U32), k ≤ 2 ^ 32 → (protect.go n perm m a k).1 = .ok () →
      (protect.go n perm m a k).2.cells = m.cells.modify a k fun _ x => (x.1, perm) from
    this n m a hn h
  intro k
  induction k with
  | zero => exact fun m a _ _ => Cells.modify_zero.symm
  | succ k ih =>
    intro m a hk h
    rw [protect.go] at h ⊢
    cases ho : m.offset a with
    | none =>
      rw [ho] at h
      cases h
    | some off =>
      rw [ho] at h
      rw [Cells.modify_succ hk, ih _ _ (Nat.le_of_lt hk) h, cells_setPerm ho]
      simp only [cells, ho, Option.map_some]

end

end Mmu

end FuzzSoft
