import FuzzSoft.Mmu.CowInv

/-!
# What an access of a copy-on-write view keeps

Stores and the taint scatter change a `CowRam` one page at a time. What changing a page keeps
(`PageKept`), they keep: the invariant of the page directory together with the golden image
(`pageKept_over`) is such a property.
-/

namespace FuzzSoft

open Lib

namespace CowRam

/-- Overlaying a page a 32-bit offset can reach, and changing it, keeps `I`. -/
def PageKept (I : CowRam → Prop) : Prop :=
  ∀ (c : CowRam) (off : Nat), off < 2 ^ 32 → ∀ f, I c → I (c.updatePage off f)

/-- Offsets into a window are addresses. -/
theorem offset_lt {c : CowRam} {addr : U32} {off : Nat} (h : c.offset addr = some off) :
    off < 2 ^ 32 := by
  rw [offset, windowOffset_eq_some] at h
  have := addr.isLt
  omega

/-- A served span has an offset. -/
theorem offset_of_spanHas {c : CowRam} {need : U8} {addr : U32} {len off : Nat}
    (h : c.spanHas need addr len = some off) : c.offset addr = some off := by
  unfold spanHas at h
  split at h
  next o ho =>
    dsimp only at h
    split at h
    · cases h
      exact ho
    · cases h
  · cases h

section
variable {I : CowRam → Prop} (hI : PageKept I) {c : CowRam} (hc : I c)
include hI hc

/-- A byte-wise write keeps it. -/
theorem PageKept.writeLoop {c₀ : CowRam} (len a : U32) (data : List U8) :
    I (writeLoop c₀.offset permOf putByte len c a data).2 := by
  induction data generalizing c a with
  | nil => exact hc
  | cons b bs ih =>
    rw [FuzzSoft.writeLoop]
    split
    · exact hc
    next off ho =>
      split
      · exact hc
      · exact ih (hI _ _ (offset_lt ho) _ hc) _

/-- So does a write. -/
theorem PageKept.write (addr : U32) (data : List U8) : I (c.write addr data).2 := by
  unfold CowRam.write
  split
  next off hs =>
    show I (c.putSpan off data)
    exact hI _ _ (offset_lt (offset_of_spanHas hs)) _ hc
  · exact hI.writeLoop hc _ _ _

/-- So does a store. -/
theorem PageKept.store (addr : U32) (n : Nat) (v : U32) : I (c.store addr n v).2 := by
  have h : ∀ k, I (c.writeAligned addr k v).2 := by
    intro k
    unfold writeAligned
    split
    · exact hc
    · exact hI.write hc _ _
  unfold CowRam.store
  split <;> exact h _

/-- So does a write of marks. -/
theorem PageKept.writeShadow (addr : U32) (n : Nat) (mask : U32) :
    I (c.writeShadow addr n mask) := by
  unfold CowRam.writeShadow
  split
  · exact hc
  next off ho =>
    dsimp only
    split
    · exact hc
    · exact hI _ _ (offset_lt ho) _ hc

end

/-- The directory in step, over the image `g`. -/
def Over (g : Golden) (c : CowRam) : Prop := c.Inv ∧ c.golden = g

/-- The image under the pages stays. -/
theorem pageKept_over (g : Golden) : PageKept (Over g) := by
  rintro c off hoff f ⟨hc, hg⟩
  have hu := hc.updatePage hoff f
  exact ⟨hu.inv, hu.golden.trans hg⟩

end CowRam

end FuzzSoft
