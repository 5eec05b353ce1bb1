import Mathlib.Data.List.Basic
import Mathlib.Tactic.Common

/-!
# Pieces of a file

A file is written piece by piece and read at offsets. `PieceAt file off piece` says that the piece
stands at the offset; it still does when the file grows at its end (`PieceAt.append`), and with it
each part of the piece stands where it should (`PieceAt.window`).
-/

namespace Lib

section
variable {α : Type*} {file piece a b c : List α} {off k n : Nat}

/-- The piece stands at the offset. -/
def PieceAt (file : List α) (off : Nat) (piece : List α) : Prop :=
  ∃ pre post, file = pre ++ (piece ++ post) ∧ pre.length = off

/-- What is appended stands at the end. -/
theorem pieceAt_end (a b : List α) : PieceAt (a ++ b) a.length b :=
  ⟨a, [], by rw [List.append_nil], rfl⟩

namespace PieceAt

/-- What is appended later leaves it. -/
theorem append (h : PieceAt file off piece) (post : List α) : PieceAt (file ++ post) off piece := by
  obtain ⟨pre, rest, rfl, rfl⟩ := h
  exact ⟨pre, rest ++ post, by simp only [List.append_assoc], rfl⟩

/-- A piece ends in the file. -/
theorem le_length (h : PieceAt file off piece) : off + piece.length ≤ file.length := by
  obtain ⟨pre, post, rfl, rfl⟩ := h
  simp only [List.length_append]
  omega

/-- What is read where a piece stands is the piece. -/
theorem take_drop (h : PieceAt file off piece) : (file.drop off).take piece.length = piece := by
  obtain ⟨pre, post, rfl, rfl⟩ := h
  rw [List.drop_left, List.take_left]

/-- An element of a piece. -/
theorem getElem?_eq (h : PieceAt file off piece) (hk : k < piece.length) :
    file[off + k]? = piece[k]? := by
  obtain ⟨pre, post, rfl, rfl⟩ := h
  rw [List.getElem?_append_right (Nat.le_add_right _ _), Nat.add_sub_cancel_left,
    List.getElem?_append_left hk]

/-- A part of a piece. -/
theorem part (h : PieceAt file off (a ++ (b ++ c))) : PieceAt file (off + a.length) b := by
  obtain ⟨pre, post, rfl, rfl⟩ := h
  exact ⟨pre ++ a, c ++ post, by simp only [List.append_assoc], List.length_append⟩

/-- The first part of a piece. -/
theorem left (h : PieceAt file off (a ++ b)) : PieceAt file off a := by
  obtain ⟨pre, post, rfl, rfl⟩ := h
  exact ⟨pre, b ++ post, by simp only [List.append_assoc], rfl⟩

/-- The second part of a piece. -/
theorem right (h : PieceAt file off (a ++ b)) : PieceAt file (off + a.length) b :=
  PieceAt.part (c := []) (by rwa [List.append_nil])

/-- The part of a piece between two places in it. -/
theorem window (h : PieceAt file off piece) (k n : Nat) (hk : k ≤ piece.length) :
    PieceAt file (off + k) ((piece.drop k).take n) := by
  have hcut : piece = piece.take k ++ ((piece.drop k).take n ++ (piece.drop k).drop n) := by
    rw [List.take_append_drop, List.take_append_drop]
  rw [hcut] at h
  have := h.part
  rwa [List.length_take, Nat.min_eq_left hk] at this

end PieceAt

end

end Lib
