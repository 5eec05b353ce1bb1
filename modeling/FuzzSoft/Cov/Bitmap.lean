import Mathlib.Data.BitVec
import Mathlib.Data.List.FinRange
import Mathlib.Order.Lattice

/-!
# Edge coverage

The bitmap of `fs-cov`: a run hashes its edges into buckets of saturating hit counts, the counts
fall into classes, and the accumulated map keeps the highest class seen in each bucket. Folding a
run into the accumulated map is the pointwise maximum, and it reports new coverage exactly when the
run is not below the map (`hasNewBits_map`, `hasNewBits_new`). Maps have `n` buckets; the fuzzer's
have `MAP_SIZE`.
-/

namespace FuzzSoft

def MAP_SIZE : Nat := 65536

/-- The bucket of an edge. -/
def hashEdge (prevPc curPc : BitVec 32) : Fin MAP_SIZE :=
  ⟨((prevPc >>> 1) ^^^ curPc).toNat % MAP_SIZE, Nat.mod_lt _ (by decide)⟩

/-- The class of a hit count. -/
def classifyCount (count : BitVec 8) : Nat :=
  let c := count.toNat
  if c = 0 then 0
  else if c = 1 then 1
  else if c = 2 then 2
  else if c = 3 then 3
  else if c ≤ 7 then 4
  else if c ≤ 15 then 5
  else if c ≤ 31 then 6
  else if c ≤ 127 then 7
  else 8

/-- The hit counts of one run. -/
abbrev CovBitmap (n : Nat) := Fin n → BitVec 8

/-- The highest class ever seen in each bucket. -/
abbrev VirginMap (n : Nat) := Fin n → Nat

section
variable {n : Nat}

namespace CovBitmap

def new : CovBitmap n := fun _ => 0

/-- Count a transition, saturating at 255. -/
def recordEdge (m : CovBitmap MAP_SIZE) (prevPc curPc : BitVec 32) : CovBitmap MAP_SIZE :=
  let idx := hashEdge prevPc curPc
  Function.update m idx (if m idx = 255 then 255 else m idx + 1)

/-- The classes of a run. -/
def classes (m : CovBitmap n) : VirginMap n := fun i => classifyCount (m i)

end CovBitmap

namespace VirginMap

def new : VirginMap n := fun _ => 0

/-- Fold one bucket of a run into the map. -/
def foldBucket (run : CovBitmap n) (acc : Bool × VirginMap n) (i : Fin n) : Bool × VirginMap n :=
  let runClass := classifyCount (run i)
  if acc.2 i < runClass then (true, Function.update acc.2 i runClass) else acc

/-- Fold a run into the map; says whether the class of some bucket advanced. -/
def hasNewBits (v : VirginMap n) (run : CovBitmap n) : Bool × VirginMap n :=
  (List.finRange n).foldl (foldBucket run) (false, v)

/-- The fold over some of the buckets. -/
theorem foldBuckets (run : CovBitmap n) (is : List (Fin n)) (found : Bool) (v : VirginMap n) :
    (is.foldl (foldBucket run) (found, v)).2 =
        (fun i => if i ∈ is then v i ⊔ run.classes i else v i) ∧
      ((is.foldl (foldBucket run) (found, v)).1 = true ↔
        found = true ∨ ∃ i ∈ is, v i < run.classes i) := by
  induction is generalizing found v with
  | nil => simp
  | cons j is ih =>
    rw [List.foldl_cons]
    by_cases hj : v j < run.classes j
    · have hstep : foldBucket run (found, v) j = (true, Function.update v j (run.classes j)) :=
        if_pos hj
      obtain ⟨hmap, hnew⟩ := ih true (Function.update v j (run.classes j))
      rw [hstep]
      refine ⟨hmap.trans (funext fun i => ?_), hnew.trans ?_⟩
      · by_cases hi : i = j
        · subst hi
          simp [Nat.le_of_lt hj]
        · simp [hi]
      · simp [hj]
    · have hstep : foldBucket run (found, v) j = (found, v) := if_neg hj
      obtain ⟨hmap, hnew⟩ := ih found v
      rw [hstep]
      refine ⟨hmap.trans (funext fun i => ?_), hnew.trans ?_⟩
      · by_cases hi : i = j
        · subst hi
          simp [Nat.le_of_not_lt hj]
        · simp [hi]
      · simp [hj]

/-- Folding a run is the pointwise maximum with its classes. -/
theorem hasNewBits_map (v : VirginMap n) (run : CovBitmap n) :
    (hasNewBits v run).2 = v ⊔ run.classes := by
  rw [hasNewBits, (foldBuckets run _ false v).1]
  funext i
  simp

/-- It reports new coverage exactly when some bucket advances. -/
theorem hasNewBits_new (v : VirginMap n) (run : CovBitmap n) :
    (hasNewBits v run).1 = true ↔ ∃ i, v i < run.classes i := by
  rw [hasNewBits, (foldBuckets run _ false v).2]
  simp

theorem hasNewBits_old {v : VirginMap n} {run : CovBitmap n} (h : (hasNewBits v run).1 = false) :
    run.classes ≤ v := by
  intro i
  by_contra hc
  rw [(hasNewBits_new v run).2 ⟨i, Nat.lt_of_not_le hc⟩] at h
  cases h

end VirginMap

end

end FuzzSoft
