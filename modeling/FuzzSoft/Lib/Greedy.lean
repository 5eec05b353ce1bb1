import FuzzSoft.Lib.Loop

/-!
# Greedy minimisation

A list is cut down by dropping one element at a time, for as long as an attempt at the shorter list
still succeeds. An attempt runs on a state and may change it; if its outcome is a function of the
list alone (`Attempts`), the lists that the loop comes to (`Visited`) and those that it attempts
(`Tried`) are known without the states, and it ends with a list from which no element can be dropped
(`greedy_exits`). A list of one element is left alone.
-/

namespace Lib

section
variable {ι σ α : Type*} (attempt : List ι → σ → Option α × σ)

/-- The first of these positions that can be dropped, with the shorter list. -/
def firstDrop (keep : List ι) : List Nat → σ → Option (List ι × α) × σ
  | [], s => (none, s)
  | pos :: ps, s =>
    match attempt (keep.eraseIdx pos) s with
    | (some a, s) => (some (keep.eraseIdx pos, a), s)
    | (none, s) => firstDrop keep ps s

/-- The state of the loop: what is left, what the last successful attempt gave, and whether the last
pass dropped an element. -/
structure Greedy (ι σ α : Type*) where
  keep : List ι
  found : Option α
  changed : Bool
  state : σ

def greedyPass (g : Greedy ι σ α) : Greedy ι σ α ⊕ Greedy ι σ α :=
  if g.changed ∧ 1 < g.keep.length then
    match firstDrop attempt g.keep (List.range g.keep.length) g.state with
    | (some (cand, a), s) => .inr ⟨cand, some a, true, s⟩
    | (none, s) => .inr { g with changed := false, state := s }
  else .inl g

/-! ## The search without states -/

section
variable (ok : List ι → Option α)

/-- The position that the search drops next. -/
def nextDrop (keep : List ι) : Option Nat :=
  if 1 < keep.length then
    (List.range keep.length).find? fun i => (ok (keep.eraseIdx i)).isSome
  else none

/-- The lists that the search comes to. -/
inductive Visited (full : List ι) : List ι → Prop
  | start : Visited full full
  | drop {keep : List ι} {i : Nat} : Visited full keep → nextDrop ok keep = some i →
      Visited full (keep.eraseIdx i)

/-- The lists that the search attempts: from each that it comes to, up to the first success. -/
def Tried (full cand : List ι) : Prop :=
  ∃ keep i, Visited ok full keep ∧ 1 < keep.length ∧ i < keep.length ∧
    (∀ j < i, ok (keep.eraseIdx j) = none) ∧ cand = keep.eraseIdx i

end

section
variable {ok : List ι → Option α} {full keep a b : List ι} {i : Nat}

theorem nextDrop_eq_some : nextDrop ok keep = some i ↔ 1 < keep.length ∧ i < keep.length ∧
    (ok (keep.eraseIdx i)).isSome = true ∧ ∀ j < i, ok (keep.eraseIdx j) = none := by
  unfold nextDrop
  split
  next h => simp [h, and_left_comm]
  next h => simp [h]

theorem nextDrop_eq_none : nextDrop ok keep = none ↔
    (1 < keep.length → ∀ i < keep.length, ok (keep.eraseIdx i) = none) := by
  unfold nextDrop
  split
  next h => simp [h]
  next h => simp [h]

theorem Visited.sublist (h : Visited ok full keep) : keep.Sublist full := by
  induction h with
  | start => exact .refl _
  | drop _ _ ih => exact (List.eraseIdx_sublist _ _).trans ih

/-- What comes after the whole list was attempted with success. -/
theorem Visited.eq_or_tried (h : Visited ok full keep) :
    keep = full ∨ Tried ok full keep ∧ (ok keep).isSome = true := by
  cases h with
  | start => exact .inl rfl
  | drop h hi =>
    obtain ⟨hlen, hlt, hok, hbefore⟩ := nextDrop_eq_some.mp hi
    exact .inr ⟨⟨_, _, h, hlen, hlt, hbefore, rfl⟩, hok⟩

/-- A search that goes anywhere makes its first step. -/
theorem Visited.eq_or_next (h : Visited ok a b) :
    b = a ∨ ∃ i, nextDrop ok a = some i ∧ Visited ok (a.eraseIdx i) b := by
  induction h with
  | start => exact .inl rfl
  | drop h hj ih =>
    rcases ih with rfl | ⟨i, hi, hrest⟩
    · exact .inr ⟨_, hj, .start⟩
    · exact .inr ⟨i, hi, .drop hrest hj⟩

/-- The lists that a search comes to stand on one line. -/
theorem Visited.linear (ha : Visited ok full a) (hb : Visited ok full b) :
    Visited ok a b ∨ Visited ok b a := by
  induction ha with
  | start => exact .inl hb
  | drop _ hi ih =>
    rcases ih with h | h
    · rcases h.eq_or_next with rfl | ⟨j, hj, hrest⟩
      · exact .inr (.drop .start hi)
      · cases hi.symm.trans hj
        exact .inl hrest
    · exact .inr (.drop h hi)

/-- A search ends at one list. -/
theorem Visited.last_unique (ha : Visited ok full a) (hla : nextDrop ok a = none)
    (hb : Visited ok full b) (hlb : nextDrop ok b = none) : a = b := by
  rcases ha.linear hb with h | h
  · rcases h.eq_or_next with rfl | ⟨i, hi, -⟩
    · rfl
    · rw [hla] at hi
      cases hi
  · rcases h.eq_or_next with rfl | ⟨i, hi, -⟩
    · rfl
    · rw [hlb] at hi
      cases hi

/-- A list of one element is the end of a search. -/
theorem nextDrop_singleton (x : ι) : nextDrop ok [x] = none :=
  nextDrop_eq_none.mpr fun h => absurd h (by simp)

end

/-! ## The loop follows the search -/

/-- In states with `I`, the outcome of an attempt at a part of `full` is `ok`. -/
structure Attempts (I : σ → Prop) (ok : List ι → Option α) (full : List ι) : Prop where
  out : ∀ {cand s}, cand.Sublist full → I s → (attempt cand s).1 = ok cand
  keeps : ∀ {cand s}, cand.Sublist full → I s → I (attempt cand s).2

/-- What is left after some passes. -/
structure Reduced (ok : List ι → Option α) (full : List ι) (g : Greedy ι σ α) : Prop where
  visited : Visited ok full g.keep
  found : (g.found = none ∧ g.keep = full) ∨
    ∃ a, g.found = some a ∧ ok g.keep = some a ∧ (nextDrop ok full).isSome = true
  settled : g.changed = false → nextDrop ok g.keep = none

variable {attempt} {I : σ → Prop} {ok : List ι → Option α} {full keep : List ι} {s : σ}

theorem Attempts.firstDrop (h : Attempts attempt I ok full) (hk : keep.Sublist full) (hs : I s)
    (ps : List Nat) :
    (firstDrop attempt keep ps s).1 =
        (ps.find? fun i => (ok (keep.eraseIdx i)).isSome).bind
          (fun i => (ok (keep.eraseIdx i)).map (keep.eraseIdx i, ·)) ∧
      I (firstDrop attempt keep ps s).2 := by
  induction ps generalizing s with
  | nil => exact ⟨rfl, hs⟩
  | cons pos ps ih =>
    have hsub := (List.eraseIdx_sublist keep pos).trans hk
    have hout := h.out hsub hs
    have hI := h.keeps hsub hs
    rcases ha : attempt (keep.eraseIdx pos) s with ⟨r, s'⟩
    rw [ha] at hout hI
    simp only [Lib.firstDrop, ha, List.find?_cons, ← hout]
    cases r with
    | none => exact ih hI
    | some a =>
      refine ⟨?_, hI⟩
      simp only [Option.isSome_some, Option.bind_some, ← hout, Option.map_some]

/-- A pass makes the next step of the search, and brings the length or the flag down. -/
theorem Attempts.greedyPass (h : Attempts attempt I ok full) {g g' : Greedy ι σ α}
    (hr : Reduced ok full g) (hs : I g.state) (hp : greedyPass attempt g = .inr g') :
    (Reduced ok full g' ∧ I g'.state) ∧
      2 * g'.keep.length + g'.changed.toNat < 2 * g.keep.length + g.changed.toNat := by
  unfold Lib.greedyPass at hp
  split at hp
  next hc =>
    obtain ⟨hout, hI⟩ := h.firstDrop hr.visited.sublist hs (List.range g.keep.length)
    have hnext : nextDrop ok g.keep =
        (List.range g.keep.length).find? fun i => (ok (g.keep.eraseIdx i)).isSome := if_pos hc.2
    rw [← hnext] at hout
    rcases hf : Lib.firstDrop attempt g.keep (List.range g.keep.length) g.state with ⟨r, s'⟩
    rw [hf] at hp hout hI
    cases hn : nextDrop ok g.keep with
    | none =>
      rw [hn] at hout
      cases hout
      cases hp
      refine ⟨⟨⟨hr.visited, hr.found, fun _ => hn⟩, hI⟩, ?_⟩
      rw [hc.1]
      exact Nat.lt_succ_self _
    | some i =>
      obtain ⟨-, hlt, hok, -⟩ := nextDrop_eq_some.mp hn
      obtain ⟨a, ha⟩ := Option.isSome_iff_exists.mp hok
      rw [hn, Option.bind_some, ha, Option.map_some] at hout
      cases hout
      cases hp
      refine ⟨⟨⟨.drop hr.visited hn, .inr ⟨a, rfl, ha, ?_⟩, nofun⟩, hI⟩, ?_⟩
      · rcases hr.found with ⟨-, hfull⟩ | ⟨-, -, -, hdrop⟩
        · rw [← hfull, hn]
          rfl
        · exact hdrop
      · have hlen := List.length_eraseIdx_of_lt hlt
        simp only [hlen, hc.1, Bool.toNat_true]
        omega
  next => cases hp

/-- What the loop ends with: the search has come there and goes no further, and something was found
exactly when it made a step. -/
structure Stopped (ok : List ι → Option α) (full : List ι) (g : Greedy ι σ α) : Prop where
  visited : Visited ok full g.keep
  last : nextDrop ok g.keep = none
  found : (g.found = none ∧ g.keep = full) ∨
    ∃ a, g.found = some a ∧ ok g.keep = some a ∧ (nextDrop ok full).isSome = true

/-- The loop ends where the search does. -/
theorem greedy_exits (h : Attempts attempt I ok full) (hs : I s) :
    ∃ n g, Exits (greedyPass attempt) n ⟨full, none, true, s⟩ g ∧ Stopped ok full g := by
  have hinit : Reduced ok full (⟨full, none, true, s⟩ : Greedy ι σ α) :=
    ⟨.start, .inl ⟨rfl, rfl⟩, nofun⟩
  obtain ⟨n, g, -, hx⟩ := exits_of_measure
    (fun g => Reduced ok full g ∧ I g.state) (fun g => 2 * g.keep.length + g.changed.toNat)
    (fun g g' hg hp => h.greedyPass hg.1 hg.2 hp) ⟨hinit, hs⟩
  refine ⟨n, g, hx, ?_⟩
  refine hx.invariant (I := fun g => Reduced ok full g ∧ I g.state) (Q := Stopped ok full)
    (fun g g' hg hp => (h.greedyPass hg.1 hg.2 hp).1) (fun g r hg hp => ?_) ⟨hinit, hs⟩
  unfold greedyPass at hp
  split at hp
  · split at hp <;> cases hp
  next hc =>
    cases hp
    refine ⟨hg.1.visited, ?_, hg.1.found⟩
    cases hch : g.changed with
    | false => exact hg.1.settled hch
    | true => exact nextDrop_eq_none.mpr fun hlen => absurd ⟨hch, hlen⟩ hc

end

end Lib
