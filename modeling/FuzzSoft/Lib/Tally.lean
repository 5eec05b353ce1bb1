import Mathlib.Data.List.Dedup
import Mathlib.Data.List.Perm.Subperm

/-!
# Tallies

A tally counts how often each key of a list occurs (`tally`). Its keys are the distinct ones
(`nodup_keys`), so counting the keys of a tally by class counts each of them once: it falls short of
counting the list itself exactly where a key occurs twice (`perm_of_countP_eq`).
-/

namespace Lib

section
variable {κ : Type*} [DecidableEq κ]

/-- Count a key once more. -/
def countUp (k : κ) : List (κ × Nat) → List (κ × Nat)
  | [] => [(k, 1)]
  | (k', n) :: m => if k' = k then (k', n + 1) :: m else (k', n) :: countUp k m

/-- How often each key of a list occurs. -/
def tally (ks : List κ) : List (κ × Nat) := ks.foldl (fun m k => countUp k m) []

namespace Tally

/-- How often a key was counted. -/
def get (m : List (κ × Nat)) (k : κ) : Nat := (m.lookup k).getD 0

def keys (m : List (κ × Nat)) : List κ := m.map Prod.fst

section
variable {k k' : κ} {m : List (κ × Nat)}

/-- A count after one more. -/
theorem get_countUp : get (countUp k m) k' = get m k' + if k = k' then 1 else 0 := by
  induction m with
  | nil =>
    rcases eq_or_ne k k' with rfl | h
    · simp [countUp, get]
    · simp [countUp, get, List.lookup_cons, h, beq_false_of_ne h.symm]
  | cons e m ih =>
    obtain ⟨j, n⟩ := e
    rw [countUp]
    split
    next hj =>
      subst hj
      rcases eq_or_ne k' j with rfl | h
      · simp [get]
      · simp [get, List.lookup_cons, beq_false_of_ne h, h.symm]
    next hj =>
      rcases eq_or_ne k' j with rfl | h
      · simp [get, Ne.symm hj]
      · simpa [get, List.lookup_cons, beq_false_of_ne h] using ih

/-- The keys after one more. -/
theorem mem_keys_countUp : k' ∈ keys (countUp k m) ↔ k' = k ∨ k' ∈ keys m := by
  induction m with
  | nil => simp [countUp, keys]
  | cons e m ih =>
    obtain ⟨j, n⟩ := e
    rw [countUp]
    split
    next hj =>
      subst hj
      simp [keys]
    next hj =>
      change k' ∈ j :: keys (countUp k m) ↔ k' = k ∨ k' ∈ j :: keys m
      rw [List.mem_cons, ih, List.mem_cons, or_left_comm]

/-- They are still distinct. -/
theorem nodup_keys_countUp (h : (keys m).Nodup) : (keys (countUp k m)).Nodup := by
  induction m with
  | nil => exact List.nodup_singleton k
  | cons e m ih =>
    obtain ⟨j, n⟩ := e
    rw [countUp]
    split
    next => exact h
    next hj =>
      obtain ⟨hn, hm⟩ := List.nodup_cons.1 h
      refine List.nodup_cons.2 ⟨fun hc => ?_, ih hm⟩
      exact (mem_keys_countUp.1 hc).elim hj hn

end

section
variable {ks : List κ}

/-- The counts after a list. -/
theorem get_foldl (m : List (κ × Nat)) (k : κ) :
    get (ks.foldl (fun m k => countUp k m) m) k = get m k + ks.count k := by
  induction ks generalizing m with
  | nil => rfl
  | cons j ks ih =>
    rw [List.foldl_cons, ih, get_countUp, List.count_cons]
    simp only [beq_iff_eq]
    omega

/-- A tally counts. -/
theorem get_tally (ks : List κ) (k : κ) : get (tally ks) k = ks.count k :=
  (get_foldl [] k).trans (Nat.zero_add _)

/-- The keys after a list. -/
theorem keys_foldl (m : List (κ × Nat)) (h : (keys m).Nodup) :
    (keys (ks.foldl (fun m k => countUp k m) m)).Nodup ∧
      ∀ k, k ∈ keys (ks.foldl (fun m k => countUp k m) m) ↔ k ∈ keys m ∨ k ∈ ks := by
  induction ks generalizing m with
  | nil => exact ⟨h, fun k => by simp⟩
  | cons j ks ih =>
    obtain ⟨hn, hm⟩ := ih (countUp j m) (nodup_keys_countUp h)
    refine ⟨hn, fun k => ?_⟩
    rw [List.foldl_cons, hm, mem_keys_countUp, List.mem_cons, or_comm (a := k = j), or_assoc]

/-- The keys of a tally are distinct. -/
theorem nodup_keys (ks : List κ) : (keys (tally ks)).Nodup := (keys_foldl [] List.nodup_nil).1

/-- They are the elements of the list. -/
theorem mem_keys {k : κ} : k ∈ keys (tally ks) ↔ k ∈ ks :=
  ((keys_foldl [] List.nodup_nil).2 k).trans (by simp [keys])

end

end Tally

/-! ## Counting by class -/

section
variable {γ : Type*} [DecidableEq γ] {ks l : List κ} (f : κ → γ)

omit [DecidableEq κ] in
/-- Counting images is counting by the property. -/
theorem count_map_eq (l : List κ) (c : γ) : (l.map f).count c = l.countP (f · = c) := by
  rw [List.count, List.countP_map]
  exact List.countP_congr fun a _ => by simp

omit [DecidableEq κ] in
/-- Distinct keys of a list are counted no more often, in each class, than the list. -/
theorem countP_le_of_subset (hk : ks.Nodup) (hsub : ∀ k ∈ ks, k ∈ l) (c : γ) :
    ks.countP (f · = c) ≤ l.countP (f · = c) :=
  (hk.subperm hsub).countP_le _

/-- If they are counted as often in every class, the list has no key twice, and no other keys. -/
theorem perm_of_countP_eq (hk : ks.Nodup) (hsub : ∀ k ∈ ks, k ∈ l)
    (h : ∀ c, ks.countP (f · = c) = l.countP (f · = c)) : ks.Perm l := by
  rw [List.perm_iff_count]
  intro k
  have hperm : (ks.filter (f · = f k)).Perm (l.filter (f · = f k)) := by
    refine (((hk.subperm hsub).filter _)).perm_of_length_le ?_
    refine Nat.le_of_eq ?_
    rw [← List.countP_eq_length_filter, ← List.countP_eq_length_filter, h]
  have hcount := hperm.count_eq k
  rwa [List.count_filter (by simp), List.count_filter (by simp)] at hcount

end

end

end Lib
