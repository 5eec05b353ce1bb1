import Mathlib.Data.List.Nodup

/-!
# Catalogs filled from the content of what is put in

A catalog holds values under distinct keys. It is filled from a list of items, each under a key
computed from the item, unless the key is taken. So a key that was taken keeps its value, and a free
key gets the value of the first item with that key (`mem_fill`): an item whose key another one has
leaves nothing behind. Filling again changes nothing (`fill_of_taken`). Several fills that take
turns are one fill of the interleaved list (`Interleaved`).
-/

namespace Lib

/-- Values under distinct keys. -/
structure Catalog (κ ν : Type) where
  entries : List (κ × ν)
  distinct : (entries.map Prod.fst).Nodup

section
variable {κ ν α : Type}

namespace Catalog

def empty : Catalog κ ν := ⟨[], List.nodup_nil⟩

/-- A key has a value. -/
def Taken (c : Catalog κ ν) (k : κ) : Prop := k ∈ c.entries.map Prod.fst

instance [DecidableEq κ] (c : Catalog κ ν) (k : κ) : Decidable (c.Taken k) :=
  inferInstanceAs (Decidable (_ ∈ _))

/-- Put a value under a free key. -/
def add (c : Catalog κ ν) (k : κ) (v : ν) (h : ¬ c.Taken k) : Catalog κ ν where
  entries := c.entries ++ [(k, v)]
  distinct := by
    rw [List.map_append]
    refine List.nodup_append.mpr ⟨c.distinct, List.nodup_singleton k, fun l hl k' hk' hlk => h ?_⟩
    rw [hlk, List.mem_singleton.mp hk'] at hl
    exact hl

variable {c : Catalog κ ν} {k : κ} {v : ν} {h : ¬ c.Taken k}

@[simp] theorem mem_add {e : κ × ν} : e ∈ (c.add k v h).entries ↔ e ∈ c.entries ∨ e = (k, v) := by
  simp [add]

@[simp] theorem taken_add {l : κ} : (c.add k v h).Taken l ↔ c.Taken l ∨ l = k := by
  simp [Taken, add]

/-! ## Filling -/

variable [DecidableEq κ] (key : α → κ) (val : α → ν)

/-- Put each item in unless its key is taken, counting what was put in. -/
def fill (items : List α) (s : Catalog κ ν × Nat) : Catalog κ ν × Nat :=
  items.foldl (fun s a =>
    if h : ¬ s.1.Taken (key a) then (s.1.add (key a) (val a) h, s.2 + 1) else s) s

/-- A key is taken after a fill if it was, or if an item has it. -/
theorem taken_fill {items : List α} {s : Catalog κ ν × Nat} {l : κ} :
    (fill key val items s).1.Taken l ↔ s.1.Taken l ∨ ∃ a ∈ items, key a = l := by
  induction items generalizing s with
  | nil => simp [fill]
  | cons a items ih =>
    rw [fill, List.foldl_cons, ← fill, ih]
    by_cases ha : s.1.Taken (key a)
    · have hl : key a = l → s.1.Taken l := fun hl => hl ▸ ha
      simp only [ha, not_true, dite_false, List.mem_cons, exists_eq_or_imp]
      tauto
    · simp only [ha, not_false_iff, dite_true, taken_add, List.mem_cons, exists_eq_or_imp, or_assoc,
        eq_comm (a := l)]

/-- What a fill leaves in the catalog: what was there, and under each key that was free the value of
the first item with that key. -/
theorem mem_fill {items : List α} {s : Catalog κ ν × Nat} {e : κ × ν} :
    e ∈ (fill key val items s).1.entries ↔ e ∈ s.1.entries ∨
      ¬ s.1.Taken e.1 ∧ ∃ a, items.find? (fun a => key a = e.1) = some a ∧ val a = e.2 := by
  induction items generalizing s with
  | nil => simp [fill]
  | cons a items ih =>
    rw [fill, List.foldl_cons, ← fill, ih]
    by_cases hkey : key a = e.1
    · have hfind : (a :: items).find? (fun a => key a = e.1) = some a := by simp [hkey]
      rw [hfind]
      by_cases ha : s.1.Taken (key a)
      · simp [ha, hkey ▸ ha]
      · have hentry : e = (e.1, val a) ↔ val a = e.2 := by
          rw [Prod.ext_iff]
          simp [eq_comm]
        have hfree : ¬ s.1.Taken e.1 := hkey ▸ ha
        simp [hkey, hfree, ← hentry]
    · have hfind : (a :: items).find? (fun a => key a = e.1) =
          items.find? fun a => key a = e.1 := by simp [hkey]
      rw [hfind]
      by_cases ha : s.1.Taken (key a)
      · simp [ha]
      · have hentry : e ≠ (key a, val a) := fun h => hkey (congrArg Prod.fst h).symm
        simp [ha, hentry, Ne.symm hkey]

/-- A fill whose keys are all taken puts nothing in. -/
theorem fill_of_taken {items : List α} {s : Catalog κ ν × Nat}
    (h : ∀ a ∈ items, s.1.Taken (key a)) : fill key val items s = s := by
  induction items with
  | nil => rfl
  | cons a items ih =>
    rw [fill, List.foldl_cons, ← fill, dif_neg (not_not.mpr (h a List.mem_cons_self))]
    exact ih fun b hb => h b (List.mem_cons_of_mem _ hb)

end Catalog

/-! ## Taking turns -/

/-- `steps` takes the items of the given lists one at a time, each list in its order. -/
inductive Interleaved : List (List α) → List α → Prop
  | done {lists : List (List α)} : (∀ l ∈ lists, l = []) → Interleaved lists []
  | step {before after : List (List α)} {a : α} {l steps : List α} :
      Interleaved (before ++ l :: after) steps →
      Interleaved (before ++ (a :: l) :: after) (a :: steps)

/-- The items taken are those of the lists. -/
theorem Interleaved.mem_iff {lists : List (List α)} {steps : List α} (h : Interleaved lists steps)
    {a : α} : a ∈ steps ↔ ∃ l ∈ lists, a ∈ l := by
  induction h with
  | @done lists hnil =>
    refine ⟨fun ha => absurd ha List.not_mem_nil, ?_⟩
    rintro ⟨l, hl, ha⟩
    rw [hnil l hl] at ha
    exact ha
  | step _ ih =>
    simp only [List.mem_append, List.mem_cons, or_and_right, exists_or, exists_eq_left] at ih ⊢
    rw [ih, or_left_comm, or_assoc]

/-- One list alone. -/
theorem Interleaved.single (l : List α) : Interleaved [l] l := by
  induction l with
  | nil => exact .done fun l hl => List.mem_singleton.mp hl
  | cons a l ih => exact @Interleaved.step α [] [] a l l ih

/-- One list after the other. -/
theorem Interleaved.append {l steps : List α} {lists : List (List α)} (h : Interleaved lists steps) :
    Interleaved (l :: lists) (l ++ steps) := by
  induction l with
  | nil =>
    induction h with
    | done hnil => exact .done fun l hl => (List.mem_cons.mp hl).elim id (hnil l)
    | @step before after a l steps _ ih => exact @Interleaved.step α ([] :: before) after a l steps ih
  | cons a l ih => exact @Interleaved.step α [] lists a l _ ih

end

end Lib
