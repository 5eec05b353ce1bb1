import Mathlib

/-!
# Heaps of slots

A heap hands out slots, sets of bytes that are known by a key. A slot has a payload, slack that may be
opened later, and guards around both. The heap remembers the bytes it has ever handed out, those
written since they were last handed out, and what became of the bytes of the slots that are gone. From
this follows what may be done to a byte (`Heap.cell`): nothing, a write, or anything. Every operation
changes the cells of its own slot only (`cell_alloc`, `cell_free`, `cell_reopen`, `cell_write`), as long
as live slots are apart.
-/

namespace Lib

open Set

/-! ## Slots -/

/-- The bytes of one allocation. The payload of a slot that lingers stays usable when it is freed. -/
structure Slot (α : Type*) where
  payload : Set α
  slack : Set α
  guard : Set α
  opened : Bool
  lingers : Bool
  slack_payload : Disjoint slack payload
  guard_body : Disjoint guard (payload ∪ slack)
  slack_of_lingers : lingers = true → slack = ∅

namespace Slot

variable {α : Type*} (s : Slot α)

/-- The bytes between the guards. -/
def body : Set α := s.payload ∪ s.slack

def cover : Set α := s.body ∪ s.guard

/-- What the owner of the slot may use. -/
def usable : Set α := {x | x ∈ s.payload ∨ s.opened = true ∧ x ∈ s.slack}

def reopened : Slot α := { s with opened := true }

/-- What may be used is in the body. -/
theorem usable_subset_body : s.usable ⊆ s.body := by
  rintro x (hx | ⟨-, hx⟩)
  · exact .inl hx
  · exact .inr hx

/-- The body is covered by the slot. -/
theorem body_subset_cover : s.body ⊆ s.cover := subset_union_left

/-- So is what may be used. -/
theorem usable_subset_cover : s.usable ⊆ s.cover := s.usable_subset_body.trans s.body_subset_cover

/-- A guard is outside the body. -/
theorem not_mem_body {x : α} (h : x ∈ s.guard) : x ∉ s.body := fun hb =>
  disjoint_left.1 s.guard_body h hb

end Slot

/-! ## Heaps -/

/-- What may be done to a byte: nothing, a write, or a read and a write. -/
inductive Cell where
  | shut
  | fresh
  | filled
  deriving DecidableEq, Repr

structure Heap (κ α : Type*) where
  live : κ → Option (Slot α)
  /-- Handed out at some time, guards included. -/
  tracked : Set α
  /-- Written since it was last handed out. -/
  written : Set α
  /-- Payload left usable by a free, and not handed out since. -/
  released : Set α
  /-- Guard of a slot, live or not, and not handed out since. -/
  guards : Set α
  /-- Bytes of a slot taken back by a free, and not handed out since. -/
  freed : Set α

namespace Heap

section
variable {κ α : Type*}

def empty : Heap κ α := ⟨fun _ => none, ∅, ∅, ∅, ∅, ∅⟩

section
variable [DecidableEq κ]

/-- Hand out a slot. -/
def alloc (h : Heap κ α) (k : κ) (s : Slot α) : Heap κ α where
  live := Function.update h.live k (some s)
  tracked := h.tracked ∪ s.cover
  written := h.written \ s.payload
  released := h.released \ s.cover
  guards := h.guards \ s.cover ∪ s.guard
  freed := h.freed \ s.cover

/-- Take a slot back. -/
def free (h : Heap κ α) (k : κ) : Heap κ α :=
  match h.live k with
  | none => h
  | some s =>
    { h with
      live := Function.update h.live k none
      released := if s.lingers then h.released ∪ s.payload else h.released
      freed := if s.lingers then h.freed else h.freed ∪ s.body }

/-- Hand out the slack of a slot. -/
def reopen (h : Heap κ α) (k : κ) : Heap κ α :=
  match h.live k with
  | none => h
  | some s =>
    { h with
      live := Function.update h.live k (some s.reopened)
      written := h.written \ s.slack }

end

def write (h : Heap κ α) (X : Set α) : Heap κ α := { h with written := h.written ∪ X }

/-- A byte that some slot may use, or that a free has left usable. -/
def Usable (h : Heap κ α) (x : α) : Prop := (∃ k s, h.live k = some s ∧ x ∈ s.usable) ∨ x ∈ h.released

/-- A byte that nobody may use: slack of a slot that was not opened, a guard, or a freed byte. -/
def Denied (h : Heap κ α) (x : α) : Prop :=
  (∃ k s, h.live k = some s ∧ s.opened = false ∧ x ∈ s.slack) ∨ x ∈ h.guards ∨ x ∈ h.freed

open Classical in
/-- What may be done to a byte. -/
noncomputable def cell (h : Heap κ α) (x : α) : Cell :=
  if h.Usable x then if x ∈ h.written then .filled else .fresh else .shut

/-- Live slots have no byte in common. -/
def Apart (h : Heap κ α) : Prop :=
  ∀ ⦃k k' s s'⦄, h.live k = some s → h.live k' = some s' → k ≠ k' → Disjoint s.cover s'.cover

/-- The book-keeping is consistent: what was left behind is not part of a live slot, and what is
denied is not usable. -/
structure WellKept (h : Heap κ α) : Prop where
  live : ∀ ⦃k s⦄, h.live k = some s → s.cover ⊆ h.tracked
  left : h.released ∪ h.guards ∪ h.freed ⊆ h.tracked
  released : ∀ ⦃k s⦄, h.live k = some s → Disjoint s.cover h.released
  denied : ∀ ⦃k s⦄, h.live k = some s → Disjoint s.body (h.guards ∪ h.freed)
  released_denied : Disjoint h.released (h.guards ∪ h.freed)

/-- The empty heap is well kept. -/
theorem wellKept_empty : (empty : Heap κ α).WellKept where
  live := fun _ _ h => nomatch h
  left := by simp [empty]
  released := fun _ _ h => nomatch h
  denied := fun _ _ h => nomatch h
  released_denied := by simp [empty]

/-! ### Cells -/

/-- A place that may not be used is shut. -/
theorem cell_of_not {h : Heap κ α} {x : α} (hx : ¬ h.Usable x) : h.cell x = .shut := if_neg hx

/-- A usable place is filled once it was written. -/
theorem cell_eq_filled {h : Heap κ α} {x : α} : h.cell x = .filled ↔ h.Usable x ∧ x ∈ h.written := by
  unfold cell
  split
  next hu => split <;> simp [*]
  next hu => simp [hu]

/-- A place is open when it may be used. -/
theorem cell_ne_shut {h : Heap κ α} {x : α} : h.cell x ≠ .shut ↔ h.Usable x := by
  unfold cell
  split
  next hu => split <;> simp [hu]
  next hu => simp [hu]

/-- The cell of a byte depends on whether it is usable and whether it was written. -/
theorem cell_congr {h h' : Heap κ α} {x : α} (hu : h.Usable x ↔ h'.Usable x)
    (hw : x ∈ h.written ↔ x ∈ h'.written) : h.cell x = h'.cell x := by
  unfold cell
  by_cases h₁ : h.Usable x
  · rw [if_pos h₁, if_pos (hu.1 h₁)]
    by_cases h₂ : x ∈ h.written
    · rw [if_pos h₂, if_pos (hw.1 h₂)]
    · rw [if_neg h₂, if_neg fun h' => h₂ (hw.2 h')]
  · rw [if_neg h₁, if_neg fun h' => h₁ (hu.2 h')]

/-- A denied byte is shut. -/
theorem Denied.shut {h : Heap κ α} (hk : h.WellKept) (ha : h.Apart) {x : α} (hd : h.Denied x) :
    h.cell x = .shut := by
  refine cell_of_not ?_
  rintro (⟨k, s, hs, hx⟩ | hr)
  · rcases hd with ⟨k', s', hs', ho, hx'⟩ | hd
    · by_cases hkk : k = k'
      · subst hkk
        cases hs.symm.trans hs'
        rcases hx with hx | ⟨ho', -⟩
        · exact disjoint_left.1 s.slack_payload hx' hx
        · rw [ho] at ho'
          cases ho'
      · exact disjoint_left.1 (ha hs hs' hkk) (s.usable_subset_cover hx)
          (s'.body_subset_cover (.inr hx'))
    · exact disjoint_left.1 (hk.denied hs) (s.usable_subset_body hx) hd
  · rcases hd with ⟨k', s', hs', -, hx'⟩ | hd
    · exact disjoint_left.1 (hk.released hs') (s'.body_subset_cover (.inr hx')) hr
    · exact disjoint_left.1 hk.released_denied hr hd

/-- A denied place is one that the heap tracks. -/
theorem Denied.tracked {h : Heap κ α} (hk : h.WellKept) {x : α} (hd : h.Denied x) :
    x ∈ h.tracked := by
  rcases hd with ⟨k, s, hs, -, hx⟩ | hx | hx
  · exact hk.live hs (s.body_subset_cover (.inr hx))
  · exact hk.left (.inl (.inr hx))
  · exact hk.left (.inr hx)

/-! ### Allocation -/

section
variable [DecidableEq κ] {h : Heap κ α} {k : κ} {s : Slot α}

/-- An allocation lives. -/
theorem live_alloc_self (h : Heap κ α) (k : κ) (s : Slot α) : (h.alloc k s).live k = some s :=
  Function.update_self (β := fun _ => Option (Slot α)) k (some s) h.live

/-- The other allocations live on. -/
theorem live_alloc_of_ne {k' : κ} (hk : k' ≠ k) : (h.alloc k s).live k' = h.live k' :=
  Function.update_of_ne (β := fun _ => Option (Slot α)) hk (some s) h.live

/-- Slots that are live beside a new one. -/
theorem live_alloc {k' : κ} {s' : Slot α} (hs : (h.alloc k s).live k' = some s') :
    k' = k ∧ s' = s ∨ k' ≠ k ∧ h.live k' = some s' := by
  by_cases hk : k' = k
  · subst hk
    rw [live_alloc_self] at hs
    exact .inl ⟨rfl, (Option.some.inj hs).symm⟩
  · rw [live_alloc_of_ne hk] at hs
    exact .inr ⟨hk, hs⟩

/-- An allocation apart from the others keeps the heap well kept. -/
theorem WellKept.alloc (hk : h.WellKept) (ha : (h.alloc k s).Apart) : (h.alloc k s).WellKept where
  live := by
    intro k' s' hs
    rcases live_alloc hs with ⟨-, rfl⟩ | ⟨-, hs⟩
    · exact subset_union_right
    · exact (hk.live hs).trans subset_union_left
  left := by
    rintro x ((hx | hx | hx) | hx)
    · exact .inl (hk.left (.inl (.inl hx.1)))
    · exact .inl (hk.left (.inl (.inr hx.1)))
    · exact .inr (.inr hx)
    · exact .inl (hk.left (.inr hx.1))
  released := by
    intro k' s' hs
    rw [disjoint_left]
    rintro x hx hr
    rcases live_alloc hs with ⟨-, rfl⟩ | ⟨-, hs⟩
    · exact hr.2 hx
    · exact disjoint_left.1 (hk.released hs) hx hr.1
  denied := by
    intro k' s' hs
    rw [disjoint_left]
    rintro x hx hd
    rcases live_alloc hs with ⟨-, rfl⟩ | ⟨hne, hs'⟩
    · rcases hd with (hd | hd) | hd
      · exact hd.2 (s'.body_subset_cover hx)
      · exact s'.not_mem_body hd hx
      · exact hd.2 (s'.body_subset_cover hx)
    · rcases hd with (hd | hd) | hd
      · exact disjoint_left.1 (hk.denied hs') hx (.inl hd.1)
      · exact disjoint_left.1 (ha hs (live_alloc_self h k s) hne) (s'.body_subset_cover hx) (.inr hd)
      · exact disjoint_left.1 (hk.denied hs') hx (.inr hd.1)
  released_denied := by
    rw [disjoint_left]
    rintro x hr ((hd | hd) | hd)
    · exact disjoint_left.1 hk.released_denied hr.1 (.inl hd.1)
    · exact hr.2 (.inr hd)
    · exact disjoint_left.1 hk.released_denied hr.1 (.inr hd.1)

/-- A new slot decides which of its bytes are usable, and none that is not its own. -/
theorem usable_alloc (hl : h.live k = none) (ha : (h.alloc k s).Apart) (x : α) :
    (h.alloc k s).Usable x ↔ x ∈ s.usable ∨ x ∉ s.cover ∧ h.Usable x := by
  constructor
  · rintro (⟨k', s', hs, hx⟩ | hr)
    · rcases live_alloc hs with ⟨-, rfl⟩ | ⟨hne, hs'⟩
      · exact .inl hx
      · refine .inr ⟨fun hc => ?_, .inl ⟨k', s', hs', hx⟩⟩
        exact disjoint_left.1 (ha hs (live_alloc_self h k s) hne) (s'.usable_subset_cover hx) hc
    · exact .inr ⟨hr.2, .inr hr.1⟩
  · rintro (hx | ⟨hc, ⟨k', s', hs, hx⟩ | hr⟩)
    · exact .inl ⟨k, s, live_alloc_self h k s, hx⟩
    · refine .inl ⟨k', s', ?_, hx⟩
      rwa [live_alloc_of_ne]
      rintro rfl
      rw [hl] at hs
      cases hs
    · exact .inr ⟨hr, hc⟩

/-- The payload of a new slot is fresh, the rest of it is shut. -/
theorem cell_alloc (hl : h.live k = none) (ha : (h.alloc k s).Apart) (ho : s.opened = false) (x : α) :
    (x ∈ s.payload → (h.alloc k s).cell x = .fresh) ∧
      (x ∈ s.cover → x ∉ s.payload → (h.alloc k s).cell x = .shut) ∧
      (x ∉ s.cover → (h.alloc k s).cell x = h.cell x) := by
  have hu := usable_alloc hl ha x
  refine ⟨fun hp => ?_, fun hc hp => ?_, fun hc => ?_⟩
  · have hw : x ∉ (h.alloc k s).written := fun hw => hw.2 hp
    rw [cell, if_pos (hu.2 (.inl (.inl hp))), if_neg hw]
  · refine cell_of_not fun h' => ?_
    rcases hu.1 h' with (hx | ⟨hx, -⟩) | ⟨hx, -⟩
    · exact hp hx
    · rw [ho] at hx
      cases hx
    · exact hx hc
  · refine cell_congr (hu.trans ?_) ⟨And.left, fun hw => ⟨hw, fun hp => ?_⟩⟩
    · exact ⟨fun h' => h'.elim (fun hx => absurd (s.usable_subset_cover hx) hc) And.right,
        fun h' => .inr ⟨hc, h'⟩⟩
    · exact hc (s.body_subset_cover (.inl hp))

end

/-! ### Taking back and opening -/

section
variable [DecidableEq κ] {h : Heap κ α} {k : κ} {s : Slot α}

/-- What a free changes. -/
theorem free_eq (hs : h.live k = some s) : h.free k =
    { h with
      live := Function.update h.live k none
      released := if s.lingers then h.released ∪ s.payload else h.released
      freed := if s.lingers then h.freed else h.freed ∪ s.body } := by
  simp only [free, hs]

/-- A freed slot does not live. -/
theorem live_free_self (hs : h.live k = some s) : (h.free k).live k = none := by
  rw [free_eq hs]
  exact Function.update_self k _ h.live

/-- The other slots live on. -/
theorem live_free_of_ne {k' : κ} (hs : h.live k = some s) (hne : k' ≠ k) :
    (h.free k).live k' = h.live k' := by
  rw [free_eq hs]
  exact Function.update_of_ne hne _ h.live

/-- What lives after a free lived before, under another key. -/
theorem live_free {k' : κ} {s' : Slot α} (hs : h.live k = some s)
    (hs' : (h.free k).live k' = some s') : k' ≠ k ∧ h.live k' = some s' := by
  by_cases hk : k' = k
  · subst hk
    rw [live_free_self hs] at hs'
    cases hs'
  · rw [live_free_of_ne hs hk] at hs'
    exact ⟨hk, hs'⟩

/-- A free keeps the slots apart. -/
theorem Apart.free (ha : h.Apart) (hs : h.live k = some s) : (h.free k).Apart :=
  fun _ _ _ _ h₁ h₂ hne => ha (live_free hs h₁).2 (live_free hs h₂).2 hne

/-- A free releases the payload of a slot that lingers. -/
theorem mem_released_free {x : α} (hs : h.live k = some s) :
    x ∈ (h.free k).released ↔ x ∈ h.released ∨ s.lingers = true ∧ x ∈ s.payload := by
  rw [free_eq hs]
  cases hl : s.lingers <;> simp

/-- A free shuts the body of a slot that does not linger. -/
theorem mem_freed_free {x : α} (hs : h.live k = some s) :
    x ∈ (h.free k).freed ↔ x ∈ h.freed ∨ s.lingers = false ∧ x ∈ s.body := by
  rw [free_eq hs]
  cases hl : s.lingers <;> simp

/-- A free leaves the guards. -/
theorem guards_free (hs : h.live k = some s) : (h.free k).guards = h.guards := by rw [free_eq hs]

/-- A free leaves what is tracked. -/
theorem tracked_free (hs : h.live k = some s) : (h.free k).tracked = h.tracked := by rw [free_eq hs]

/-- A free writes nothing. -/
theorem written_free (hs : h.live k = some s) : (h.free k).written = h.written := by rw [free_eq hs]

/-- A free keeps the heap well kept. -/
theorem WellKept.free (hk : h.WellKept) (ha : h.Apart) (hs : h.live k = some s) :
    (h.free k).WellKept where
  live := by
    intro k' s' hs'
    rw [tracked_free hs]
    exact hk.live (live_free hs hs').2
  left := by
    rw [tracked_free hs, guards_free hs]
    rintro x ((hx | hx) | hx)
    · rcases (mem_released_free hs).1 hx with hx | ⟨-, hx⟩
      · exact hk.left (.inl (.inl hx))
      · exact hk.live hs (s.body_subset_cover (.inl hx))
    · exact hk.left (.inl (.inr hx))
    · rcases (mem_freed_free hs).1 hx with hx | ⟨-, hx⟩
      · exact hk.left (.inr hx)
      · exact hk.live hs (s.body_subset_cover hx)
  released := by
    intro k' s' hs'
    obtain ⟨hne, hs'⟩ := live_free hs hs'
    rw [disjoint_left]
    rintro x hx hr
    rcases (mem_released_free hs).1 hr with hr | ⟨-, hr⟩
    · exact disjoint_left.1 (hk.released hs') hx hr
    · exact disjoint_left.1 (ha hs' hs hne) hx (s.body_subset_cover (.inl hr))
  denied := by
    intro k' s' hs'
    obtain ⟨hne, hs'⟩ := live_free hs hs'
    rw [disjoint_left, guards_free hs]
    rintro x hx (hd | hd)
    · exact disjoint_left.1 (hk.denied hs') hx (.inl hd)
    · rcases (mem_freed_free hs).1 hd with hd | ⟨-, hd⟩
      · exact disjoint_left.1 (hk.denied hs') hx (.inr hd)
      · exact disjoint_left.1 (ha hs' hs hne) (s'.body_subset_cover hx) (s.body_subset_cover hd)
  released_denied := by
    rw [disjoint_left, guards_free hs]
    rintro x hr hd
    have hd' : x ∈ h.guards ∪ h.freed ∨ s.lingers = false ∧ x ∈ s.body := by
      rcases hd with hd | hd
      · exact .inl (.inl hd)
      · exact ((mem_freed_free hs).1 hd).imp .inr id
    rcases (mem_released_free hs).1 hr with hr | ⟨hl, hr⟩ <;> rcases hd' with hd | ⟨hl', hd⟩
    · exact disjoint_left.1 hk.released_denied hr hd
    · exact disjoint_left.1 (hk.released hs) (s.body_subset_cover hd) hr
    · exact disjoint_left.1 (hk.denied hs) (.inl hr) hd
    · rw [hl] at hl'
      cases hl'

/-- A slot that lingers leaves its bytes as they are, any other takes them along. -/
theorem usable_free (hk : h.WellKept) (ha : h.Apart) (hs : h.live k = some s) (x : α) :
    (h.free k).Usable x ↔ h.Usable x ∧ (x ∈ s.body → s.lingers = true) := by
  constructor
  · rintro (⟨k', s', hs', hx⟩ | hr)
    · obtain ⟨hne, hs'⟩ := live_free hs hs'
      refine ⟨.inl ⟨k', s', hs', hx⟩, fun hb => ?_⟩
      exact absurd (s.body_subset_cover hb)
        (disjoint_left.1 (ha hs' hs hne) (s'.usable_subset_cover hx))
    · rcases (mem_released_free hs).1 hr with hr | ⟨hl, hr⟩
      · exact ⟨.inr hr, fun hb =>
          absurd hr (disjoint_left.1 (hk.released hs) (s.body_subset_cover hb))⟩
      · exact ⟨.inl ⟨k, s, hs, .inl hr⟩, fun _ => hl⟩
  · rintro ⟨⟨k', s', hs', hx⟩ | hr, hl⟩
    · by_cases hne : k' = k
      · subst hne
        cases hs.symm.trans hs'
        have hl := hl (s.usable_subset_body hx)
        rcases hx with hx | ⟨-, hx⟩
        · exact .inr ((mem_released_free hs).2 (.inr ⟨hl, hx⟩))
        · rw [s.slack_of_lingers hl] at hx
          cases hx
      · refine .inl ⟨k', s', ?_, hx⟩
        rwa [live_free_of_ne hs hne]
    · exact .inr ((mem_released_free hs).2 (.inl hr))

/-- A free shuts the body of a slot that does not linger, and nothing else. -/
theorem cell_free (hk : h.WellKept) (ha : h.Apart) (hs : h.live k = some s) (x : α) :
    (s.lingers = false → x ∈ s.body → (h.free k).cell x = .shut) ∧
      (s.lingers = true ∨ x ∉ s.body → (h.free k).cell x = h.cell x) := by
  have hu := usable_free hk ha hs x
  refine ⟨fun hl hb => cell_of_not fun h' => ?_, fun hc => cell_congr (hu.trans ?_) ?_⟩
  · have := (hu.1 h').2 hb
    rw [hl] at this
    cases this
  · refine and_iff_left fun hb => ?_
    rcases hc with hl | hc
    · exact hl
    · exact absurd hb hc
  · rw [written_free hs]

/-- What a reopening changes. -/
theorem reopen_eq (hs : h.live k = some s) : h.reopen k =
    { h with
      live := Function.update h.live k (some s.reopened)
      written := h.written \ s.slack } := by
  simp only [reopen, hs]

/-- A reopened slot lives with its slack opened. -/
theorem live_reopen_self (hs : h.live k = some s) : (h.reopen k).live k = some s.reopened := by
  rw [reopen_eq hs]
  exact Function.update_self k _ h.live

/-- The other slots live on. -/
theorem live_reopen_of_ne {k' : κ} (hs : h.live k = some s) (hne : k' ≠ k) :
    (h.reopen k).live k' = h.live k' := by
  rw [reopen_eq hs]
  exact Function.update_of_ne hne _ h.live

/-- A reopening leaves what is tracked. -/
theorem tracked_reopen (hs : h.live k = some s) : (h.reopen k).tracked = h.tracked := by
  rw [reopen_eq hs]

/-- A slot that is live after an opening was live before, with the same bytes. -/
theorem live_reopen {k' : κ} {s' : Slot α} (hs : h.live k = some s)
    (hs' : (h.reopen k).live k' = some s') :
    ∃ s₀, h.live k' = some s₀ ∧ s'.body = s₀.body ∧ s'.cover = s₀.cover := by
  by_cases hne : k' = k
  · subst hne
    rw [live_reopen_self hs] at hs'
    cases hs'
    exact ⟨s, hs, rfl, rfl⟩
  · rw [live_reopen_of_ne hs hne] at hs'
    exact ⟨s', hs', rfl, rfl⟩

/-- A reopening keeps the slots apart. -/
theorem Apart.reopen (ha : h.Apart) (hs : h.live k = some s) : (h.reopen k).Apart := by
  intro k₁ k₂ s₁ s₂ h₁ h₂ hne
  obtain ⟨t₁, h₁, -, e₁⟩ := live_reopen hs h₁
  obtain ⟨t₂, h₂, -, e₂⟩ := live_reopen hs h₂
  rw [e₁, e₂]
  exact ha h₁ h₂ hne

/-- A reopening keeps the heap well kept. -/
theorem WellKept.reopen (hk : h.WellKept) (hs : h.live k = some s) : (h.reopen k).WellKept where
  live := by
    intro k' s' hs'
    obtain ⟨t, ht, -, e⟩ := live_reopen hs hs'
    rw [e, reopen_eq hs]
    exact hk.live ht
  left := by
    rw [reopen_eq hs]
    exact hk.left
  released := by
    intro k' s' hs'
    obtain ⟨t, ht, -, e⟩ := live_reopen hs hs'
    rw [e, reopen_eq hs]
    exact hk.released ht
  denied := by
    intro k' s' hs'
    obtain ⟨t, ht, e, -⟩ := live_reopen hs hs'
    rw [e, reopen_eq hs]
    exact hk.denied ht
  released_denied := by
    rw [reopen_eq hs]
    exact hk.released_denied

/-- A reopening makes the slack usable. -/
theorem usable_reopen (hs : h.live k = some s) (x : α) :
    (h.reopen k).Usable x ↔ h.Usable x ∨ x ∈ s.slack := by
  constructor
  · rintro (⟨k', s', hs', hx⟩ | hr)
    · by_cases hne : k' = k
      · subst hne
        rw [live_reopen_self hs] at hs'
        cases hs'
        rcases hx with hx | ⟨-, hx⟩
        · exact .inl (.inl ⟨_, s, hs, .inl hx⟩)
        · exact .inr hx
      · rw [live_reopen_of_ne hs hne] at hs'
        exact .inl (.inl ⟨k', s', hs', hx⟩)
    · rw [reopen_eq hs] at hr
      exact .inl (.inr hr)
  · rintro ((⟨k', s', hs', hx⟩ | hr) | hx)
    · by_cases hne : k' = k
      · subst hne
        cases hs.symm.trans hs'
        refine .inl ⟨_, s.reopened, live_reopen_self hs, ?_⟩
        exact hx.imp id fun hx => ⟨rfl, hx.2⟩
      · refine .inl ⟨k', s', ?_, hx⟩
        rwa [live_reopen_of_ne hs hne]
    · refine .inr ?_
      rw [reopen_eq hs]
      exact hr
    · exact .inl ⟨k, s.reopened, live_reopen_self hs, .inr ⟨rfl, hx⟩⟩

/-- Opening makes the slack fresh, also when it was open before. -/
theorem cell_reopen (hs : h.live k = some s) (x : α) :
    (x ∈ s.slack → (h.reopen k).cell x = .fresh) ∧
      (x ∉ s.slack → (h.reopen k).cell x = h.cell x) := by
  have hu := usable_reopen hs x
  have hw : x ∈ (h.reopen k).written ↔ x ∈ h.written ∧ x ∉ s.slack := by
    rw [reopen_eq hs]
    exact Iff.rfl
  refine ⟨fun hx => ?_, fun hx => cell_congr (hu.trans (or_iff_left hx)) ?_⟩
  · rw [cell, if_pos (hu.2 (.inr hx)), if_neg fun h' => (hw.1 h').2 hx]
  · exact hw.trans (and_iff_left hx)

end

/-! ### Writing -/

/-- A write keeps the heap well kept. -/
theorem WellKept.write {h : Heap κ α} (hk : h.WellKept) (X : Set α) : (h.write X).WellKept :=
  ⟨hk.live, hk.left, hk.released, hk.denied, hk.released_denied⟩

/-- A write fills the usable bytes it touches. -/
theorem cell_write (h : Heap κ α) (X : Set α) (x : α) :
    (x ∈ X → h.cell x ≠ .shut → (h.write X).cell x = .filled) ∧
      (x ∉ X → (h.write X).cell x = h.cell x) := by
  refine ⟨fun hx hu => ?_, fun hx => cell_congr Iff.rfl (or_iff_left hx)⟩
  have hu : h.Usable x := cell_ne_shut.1 hu
  exact cell_eq_filled.2 ⟨hu, .inr hx⟩

end

end Heap

end Lib
