import Mathlib.Data.List.Basic
import Mathlib.Data.BitVec

/-!
# Spans of a plane

A plane is a total function from offsets to cells. A span is the run of `len` cells that starts at
an offset: it can be read (`readSpan`), overwritten with a list (`setSpan`) and updated cell by cell
(`mapSpan`). Words are kept in a plane of bytes in little-endian order (`leBytes`, `leValue`).
-/

namespace Lib

section
variable {α β : Type*}

/-- The cells at `off, …, off + len - 1`. -/
def readSpan (f : Nat → α) (off : Nat) : Nat → List α
  | 0 => []
  | len + 1 => f off :: readSpan f (off + 1) len

/-- The plane with `xs` written from `off` on. -/
def setSpan (f : Nat → α) (off : Nat) (xs : List α) : Nat → α :=
  fun o => if off ≤ o then (xs[o - off]?).getD (f o) else f o

/-- The plane with `g` applied to each of the `len` cells from `off` on. -/
def mapSpan (f : Nat → α) (off len : Nat) (g : α → α) : Nat → α :=
  fun o => if off ≤ o ∧ o < off + len then g (f o) else f o

/-- The plane with one cell replaced. -/
def setAt (f : Nat → α) (off : Nat) (a : α) : Nat → α :=
  fun o => if o = off then a else f o

/-- Every cell of the span satisfies `p`. -/
def allSpan (f : Nat → α) (off : Nat) (p : α → Bool) : Nat → Bool
  | 0 => true
  | len + 1 => p (f off) && allSpan f (off + 1) p len

@[simp] theorem length_readSpan (f : Nat → α) (off len : Nat) :
    (readSpan f off len).length = len := by
  induction len generalizing off with
  | zero => rfl
  | succ len ih => simp [readSpan, ih]

@[simp] theorem setAt_self (f : Nat → α) (off : Nat) (a : α) : setAt f off a off = a :=
  if_pos rfl

/-- The other places stay. -/
theorem setAt_of_ne (f : Nat → α) {off o : Nat} (a : α) (h : o ≠ off) : setAt f off a o = f o :=
  if_neg h

/-- What is before a span stays. -/
theorem setSpan_of_lt (f : Nat → α) {off o : Nat} (xs : List α) (h : o < off) :
    setSpan f off xs o = f o :=
  if_neg (Nat.not_le.2 h)

/-- So does what is after it. -/
theorem setSpan_of_ge (f : Nat → α) {off o : Nat} (xs : List α) (h : off + xs.length ≤ o) :
    setSpan f off xs o = f o := by
  rw [setSpan, if_pos (by omega), List.getElem?_eq_none (by omega)]
  rfl

@[simp] theorem setSpan_nil (f : Nat → α) (off : Nat) : setSpan f off [] = f := by
  funext o
  simp [setSpan]

/-- Writing a list is writing its head and then its tail one offset on. -/
theorem setSpan_cons (f : Nat → α) (off : Nat) (x : α) (xs : List α) :
    setSpan f off (x :: xs) = setSpan (setAt f off x) (off + 1) xs := by
  funext o
  rcases Nat.lt_trichotomy o off with h | rfl | h
  · rw [setSpan_of_lt _ _ h, setSpan_of_lt _ _ (by omega), setAt_of_ne _ _ (by omega)]
  · rw [setSpan_of_lt _ _ (Nat.lt_succ_self _), setAt_self]
    simp [setSpan]
  · obtain ⟨k, rfl⟩ : ∃ k, o = off + 1 + k := ⟨o - (off + 1), by omega⟩
    have e1 : off + 1 + k - off = k + 1 := by omega
    have e2 : off + 1 + k - (off + 1) = k := by omega
    rw [setSpan, setSpan, if_pos (by omega), if_pos (by omega), e1, e2, setAt_of_ne _ _ (by omega)]
    simp

@[simp] theorem mapSpan_zero (f : Nat → α) (off : Nat) (g : α → α) : mapSpan f off 0 g = f := by
  funext o
  exact if_neg (by omega)

/-- Updating a span is updating its first cell and then the rest. -/
theorem mapSpan_succ (f : Nat → α) (off len : Nat) (g : α → α) :
    mapSpan f off (len + 1) g = mapSpan (setAt f off (g (f off))) (off + 1) len g := by
  funext o
  unfold mapSpan setAt
  rcases Nat.lt_trichotomy o off with h | rfl | h
  · rw [if_neg (by omega), if_neg (by omega), if_neg (by omega)]
  · rw [if_pos (by omega), if_neg (by omega), if_pos rfl]
  · rw [if_neg (show o ≠ off by omega)]
    congr 1
    simp only [eq_iff_iff]
    omega

/-- A span of one plane reads as the same span of another, shifted, when their cells agree. -/
theorem readSpan_congr {f g : Nat → α} {off off' len : Nat}
    (h : ∀ i < len, f (off + i) = g (off' + i)) : readSpan f off len = readSpan g off' len := by
  induction len generalizing off off' with
  | zero => rfl
  | succ len ih =>
    have h0 := h 0 (by omega)
    simp only [Nat.add_zero] at h0
    rw [readSpan, readSpan, h0]
    congr 1
    refine ih fun i hi => ?_
    have := h (i + 1) (by omega)
    rwa [Nat.add_right_comm, Nat.add_right_comm off' 1, Nat.add_assoc off, Nat.add_assoc off']

/-- Every element of a span has the property. -/
theorem allSpan_eq_true {f : Nat → α} {off len : Nat} {p : α → Bool} :
    allSpan f off p len = true ↔ ∀ i < len, p (f (off + i)) = true := by
  induction len generalizing off with
  | zero => simp [allSpan]
  | succ len ih =>
    rw [allSpan, Bool.and_eq_true, ih]
    constructor
    · rintro ⟨h0, hs⟩ i hi
      cases i with
      | zero => exact h0
      | succ i => rw [← Nat.add_assoc, Nat.add_right_comm]; exact hs i (by omega)
    · intro h
      refine ⟨h 0 (by omega), fun i hi => ?_⟩
      rw [Nat.add_right_comm, Nat.add_assoc]
      exact h (i + 1) (by omega)

/-- Whether a span satisfies `p` depends on its cells only. -/
theorem allSpan_congr {f g : Nat → α} {off off' len : Nat} {p : α → Bool}
    (h : ∀ i < len, f (off + i) = g (off' + i)) :
    allSpan f off p len = allSpan g off' p len := by
  rw [Bool.eq_iff_iff, allSpan_eq_true, allSpan_eq_true]
  exact forall₂_congr fun i hi => by rw [h i hi]

end

/-! ## Little-endian words -/

/-- The first `n` bytes of `v`, lowest first. -/
def leBytes (v : BitVec 32) (n : Nat) : List (BitVec 8) :=
  (List.range n).map fun i => (v >>> (8 * i)).setWidth 8

/-- The word whose bytes, lowest first, are `bs`. -/
def leValue (bs : List (BitVec 8)) : BitVec 32 :=
  bs.foldr (fun b acc => (acc <<< 8) ||| b.setWidth 32) 0

@[simp] theorem length_leBytes (v : BitVec 32) (n : Nat) : (leBytes v n).length = n := by
  simp [leBytes]

/-- A value of `n` bytes has no bit past them. -/
theorem leValue_getLsbD {bs : List (BitVec 8)} : ∀ {i}, 8 * bs.length ≤ i →
    (leValue bs).getLsbD i = false := by
  induction bs with
  | nil => simp [leValue]
  | cons b bs ih =>
    intro i hi
    rw [List.length_cons] at hi
    have hrest := @ih (i - 8) (by omega)
    have hb : b.getLsbD i = false := BitVec.getLsbD_of_ge _ _ (by omega)
    rw [leValue, List.foldr_cons, ← leValue]
    simp only [BitVec.getLsbD_or, BitVec.getLsbD_shiftLeft, BitVec.getLsbD_setWidth, hrest, hb,
      Bool.and_false, Bool.or_false]

/-- One or two bytes pass through a narrower register unchanged. -/
theorem leValue_setWidth {bs : List (BitVec 8)} {w : Nat} (hw : w = 8 * bs.length) :
    ((leValue bs).setWidth w).setWidth 32 = leValue bs := by
  apply BitVec.eq_of_getLsbD_eq
  intro i hi
  simp only [BitVec.getLsbD_setWidth, hi, decide_true, Bool.true_and]
  by_cases h : i < w
  · simp [h]
  · rw [leValue_getLsbD (by omega), Bool.and_false]

/-- Byte `i` of the word made of four bytes. -/
theorem byte_leValue {bs : List (BitVec 8)} (hl : bs.length = 4) {i : Nat} (hi : i < 4) :
    (leValue bs >>> (8 * i)).setWidth 8 = bs[i]?.getD 0 := by
  obtain ⟨b0, b1, b2, b3, rfl⟩ : ∃ b0 b1 b2 b3, bs = [b0, b1, b2, b3] := by
    match bs, hl with
    | [b0, b1, b2, b3], _ => exact ⟨b0, b1, b2, b3, rfl⟩
  have hi' : i = 0 ∨ i = 1 ∨ i = 2 ∨ i = 3 := by omega
  apply BitVec.eq_of_getLsbD_eq
  intro j hj
  rcases hi' with rfl | rfl | rfl | rfl <;>
    simp [leValue, BitVec.getLsbD_or, BitVec.getLsbD_shiftLeft, BitVec.getLsbD_setWidth,
      BitVec.getLsbD_ushiftRight] <;> grind

/-- Four bytes hold a word without loss. -/
theorem leValue_leBytes (v : BitVec 32) : leValue (leBytes v 4) = v := by
  apply BitVec.eq_of_getLsbD_eq
  intro i hi
  have h8 : i < 8 ∨ (8 ≤ i ∧ i < 16) ∨ (16 ≤ i ∧ i < 24) ∨ 24 ≤ i := by omega
  simp only [leValue, leBytes, List.range_succ, List.range_zero, List.nil_append,
    List.map_cons, List.map_nil, List.cons_append, List.foldr_cons, List.foldr_nil]
  rcases h8 with h | ⟨h, h'⟩ | ⟨h, h'⟩ | h <;>
    simp [BitVec.getLsbD_or, BitVec.getLsbD_shiftLeft, BitVec.getLsbD_setWidth,
      BitVec.getLsbD_ushiftRight] <;> grind

end Lib
