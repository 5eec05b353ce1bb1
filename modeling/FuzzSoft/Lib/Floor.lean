import Mathlib

/-!
# Tables of keys

A list of entries is sorted by their keys, and of those with one key the first is kept
(`dedupByKey`): the keys of the table then ascend strictly (`pairwise_table`) and are the keys of
the list (`exists_mem_table`). A search for the place where a key belongs finds the entry below it
(`floor_eq_some_iff`, `floor_eq_none_iff`).
-/

namespace Lib

section
variable {α κ : Type*} (key : α → κ)

/-! ## One entry for a key -/

section
variable [DecidableEq κ] {l : List α}

/-- `Vec::dedup_by_key`: of consecutive entries with one key the first stays. -/
def dedupByKey (l : List α) : List α := l.destutter (fun a b => key a ≠ key b)

/-- Dropping repeats drops only. -/
theorem dedupByKey_sublist : (dedupByKey key l).Sublist l := List.destutter_sublist _ l

/-- An entry that goes has the key of one that stays. -/
theorem exists_mem_destutter' {a b : α} (hb : b ∈ a :: l) :
    ∃ c ∈ l.destutter' (fun a b => key a ≠ key b) a, key c = key b := by
  induction l generalizing a with
  | nil => exact ⟨a, by simp, by rw [List.mem_singleton.1 hb]⟩
  | cons d l ih =>
    rcases eq_or_ne (key a) (key d) with heq | hne
    · rw [List.destutter'_cons_neg _ (not_not.2 heq)]
      rcases List.mem_cons.1 hb with rfl | hb
      · exact ⟨b, List.mem_destutter' _ _ b, rfl⟩
      · rcases List.mem_cons.1 hb with rfl | hb
        · exact ⟨a, List.mem_destutter' _ _ a, heq⟩
        · exact ih (List.mem_cons_of_mem a hb)
    · rw [List.destutter'_cons_pos l hne]
      rcases List.mem_cons.1 hb with rfl | hb
      · exact ⟨b, List.mem_cons_self, rfl⟩
      · obtain ⟨c, hc, hkey⟩ := ih hb
        exact ⟨c, List.mem_cons_of_mem a hc, hkey⟩

/-- Every key stays. -/
theorem exists_mem_dedupByKey {b : α} (hb : b ∈ l) : ∃ c ∈ dedupByKey key l, key c = key b := by
  cases l with
  | nil => cases hb
  | cons a l => exact exists_mem_destutter' key hb

end

/-! ## The sorted table -/

section
variable [LinearOrder κ] {l : List α}

/-- The entries in the order of their keys, one for each. -/
def sortedTable (l : List α) : List α :=
  dedupByKey key (l.mergeSort fun a b => decide (key a ≤ key b))

/-- The table has elements of the list only. -/
theorem mem_of_mem_table {a : α} (h : a ∈ sortedTable key l) : a ∈ l :=
  List.mem_mergeSort.1 ((dedupByKey_sublist key).subset h)

/-- Every key is in the table. -/
theorem exists_mem_table {b : α} (hb : b ∈ l) : ∃ c ∈ sortedTable key l, key c = key b :=
  exists_mem_dedupByKey key (List.mem_mergeSort.2 hb)

/-- The keys ascend strictly. -/
theorem pairwise_table (l : List α) : (sortedTable key l).Pairwise (key · < key ·) := by
  have hsorted : (l.mergeSort fun a b => decide (key a ≤ key b)).Pairwise (key · ≤ key ·) := by
    refine (List.pairwise_mergeSort ?_ ?_ l).imp (fun h => of_decide_eq_true h)
    · intro a b c hab hbc
      exact decide_eq_true ((of_decide_eq_true hab).trans (of_decide_eq_true hbc))
    · intro a b
      rw [Bool.or_eq_true, decide_eq_true_eq, decide_eq_true_eq]
      exact le_total _ _
  have hle := (hsorted.sublist (dedupByKey_sublist key)).isChain
  have hne : (sortedTable key l).IsChain fun a b => key a ≠ key b := List.isChain_destutter _ _
  have hlt : (sortedTable key l).IsChain (key · < key ·) := by
    rw [List.isChain_iff_getElem] at hle hne ⊢
    exact fun i hi => lt_of_le_of_ne (hle i hi) (hne i hi)
  have : IsTrans α (key · < key ·) := ⟨fun _ _ _ => lt_trans⟩
  exact hlt.pairwise

/-- A table is sorted already. -/
theorem sortedTable_of_pairwise (hl : l.Pairwise (key · < key ·)) : sortedTable key l = l := by
  have hle : l.Pairwise fun a b => decide (key a ≤ key b) = true :=
    hl.imp fun h => decide_eq_true h.le
  rw [sortedTable, List.mergeSort_of_pairwise hle]
  exact List.destutter_of_isChain _ l (hl.imp fun h => ne_of_lt h).isChain

/-! ## Searching it -/

/-- `slice::partition_point` on a list sorted by the predicate. -/
def partitionPoint (p : α → Bool) (l : List α) : Nat := (l.takeWhile p).length

/-- The entry is the one with the greatest key up to the given one. -/
structure IsFloor (l : List α) (k : κ) (a : α) : Prop where
  mem : a ∈ l
  le : key a ≤ k
  greatest : ∀ b ∈ l, key b ≤ k → key b ≤ key a

instance [DecidableEq α] (l : List α) (k : κ) (a : α) : Decidable (IsFloor key l k a) :=
  decidable_of_iff (a ∈ l ∧ key a ≤ k ∧ ∀ b ∈ l, key b ≤ k → key b ≤ key a)
    ⟨fun h => ⟨h.1, h.2.1, h.2.2⟩, fun h => ⟨h.mem, h.le, h.greatest⟩⟩

/-- The last entry with a key up to the given one. -/
def floor (l : List α) (k : κ) : Option α :=
  let idx := partitionPoint (fun a => decide (key a ≤ k)) l
  if idx = 0 then none else l[idx - 1]?

/-- The floor is the last element not above the key. -/
theorem floor_eq_getLast? (l : List α) (k : κ) :
    floor key l k = (l.takeWhile fun a => decide (key a ≤ k)).getLast? := by
  obtain ⟨t, ht⟩ := List.takeWhile_prefix (l := l) fun a => decide (key a ≤ k)
  rw [List.getLast?_eq_getElem?, floor, partitionPoint]
  split
  next h => rw [List.length_eq_zero_iff.1 h, List.getElem?_nil]
  next h =>
    have happ := @List.getElem?_append_left _ (l.takeWhile fun a => decide (key a ≤ k)) t
      ((l.takeWhile fun a => decide (key a ≤ k)).length - 1) (by omega)
    rwa [ht] at happ

/-- In a sorted table the entries up to a key come first. -/
theorem mem_takeWhile_iff {a : α} {k : κ} (hl : l.Pairwise (key · < key ·)) (ha : a ∈ l) :
    a ∈ l.takeWhile (fun a => decide (key a ≤ k)) ↔ key a ≤ k := by
  induction l with
  | nil => cases ha
  | cons b l ih =>
    obtain ⟨hb, hl⟩ := List.pairwise_cons.1 hl
    rw [List.takeWhile_cons]
    split
    next hbk =>
      rcases List.mem_cons.1 ha with rfl | ha
      · exact iff_of_true List.mem_cons_self (of_decide_eq_true hbk)
      · have hne : a ≠ b := fun h => lt_irrefl _ (h ▸ hb a ha)
        rw [List.mem_cons, or_iff_right hne, ih hl ha]
    next hbk =>
      have hk : k < key b := not_le.1 fun h => hbk (decide_eq_true h)
      have hle : key b ≤ key a := by
        rcases List.mem_cons.1 ha with rfl | ha
        · exact le_rfl
        · exact (hb a ha).le
      exact iff_of_false List.not_mem_nil (not_le.2 (hk.trans_le hle))

/-- Nothing is found exactly if every key is above. -/
theorem floor_eq_none_iff {k : κ} (hl : l.Pairwise (key · < key ·)) :
    floor key l k = none ↔ ∀ a ∈ l, k < key a := by
  rw [floor_eq_getLast?, List.getLast?_eq_none_iff, List.eq_nil_iff_forall_not_mem]
  constructor
  · intro h a ha
    exact not_le.1 fun hle => h a ((mem_takeWhile_iff key hl ha).2 hle)
  · intro h a hmem
    have ha := (List.takeWhile_prefix _).subset hmem
    exact not_le.2 (h a ha) ((mem_takeWhile_iff key hl ha).1 hmem)

/-- The entry found is the one with the greatest key up to the given one. -/
theorem isFloor_of_floor_eq_some {a : α} {k : κ} (hl : l.Pairwise (key · < key ·))
    (h : floor key l k = some a) : IsFloor key l k a := by
  rw [floor_eq_getLast?] at h
  obtain ⟨pre, hpre⟩ := List.getLast?_eq_some_iff.1 h
  have hsub : (l.takeWhile fun a => decide (key a ≤ k)).Sublist l := List.takeWhile_sublist _
  have hmem : a ∈ l.takeWhile fun a => decide (key a ≤ k) := List.mem_of_getLast? h
  have ha := hsub.subset hmem
  refine ⟨ha, (mem_takeWhile_iff key hl ha).1 hmem, fun b hb hle => ?_⟩
  have hin := (mem_takeWhile_iff key hl hb).2 hle
  have hsorted := hpre ▸ hl.sublist hsub
  rw [hpre] at hin
  rcases List.mem_append.1 hin with hin | hin
  · exact ((List.pairwise_append.1 hsorted).2.2 b hin a (List.mem_singleton_self a)).le
  · rw [List.mem_singleton.1 hin]

/-- One entry has a key. -/
theorem nodup_map_of_pairwise (hl : l.Pairwise (key · < key ·)) : (l.map key).Nodup :=
  List.pairwise_map.2 (hl.imp fun h => ne_of_lt h)

/-- If there is such an entry, one is found. -/
theorem IsFloor.exists_floor {a : α} {k : κ} (hl : l.Pairwise (key · < key ·))
    (h : IsFloor key l k a) : floor key l k = some a := by
  cases hf : floor key l k with
  | none => exact absurd h.le (not_le.2 ((floor_eq_none_iff key hl).1 hf a h.mem))
  | some b =>
    have hb := isFloor_of_floor_eq_some key hl hf
    have hkey : key a = key b := le_antisymm (hb.greatest a h.mem h.le) (h.greatest b hb.mem hb.le)
    rw [List.inj_on_of_nodup_map (nodup_map_of_pairwise key hl) h.mem hb.mem hkey]

end

end

end Lib
