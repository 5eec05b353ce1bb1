import FuzzSoft.Lib.Run
import Mathlib.Logic.Function.Basic
import Mathlib.Data.List.Basic

/-!
# Pairing calls with their returns

An observer that sees an address and a register file at every tick, but no threads, pairs the entries
of watched functions with their returns by the return address (`Watch.feed`). What it should say is
defined on a trace of threads that enter and leave calls (`Watch.calls`). A stack for each return
address gives the right answer as long as every return ends one call, and the newest of those that
wait for its address (`Orderly`): then the observer and the threads run in lockstep
(`Watch.feed_calls`).
-/

namespace Lib

section
variable {τ κ ρ α ε : Type*}

/-- What a watched entry does: it is reported at once, or a value is captured for the return. Captured
values wait on one of two channels; the late one is asked second. -/
inductive Entry (ρ α ε : Type*) where
  | wait (late : Bool) (capture : ρ → α)
  | now (event : ρ → ε)

/-- The watched entries, where the return address is, and what is reported of a call that
returned. -/
structure Watch (κ ρ α ε : Type*) where
  entry : κ → Option (Entry ρ α ε)
  retAddr : ρ → κ
  event : Bool → α → ρ → ε

/-- The captured values of the two channels by return address, the newest first. -/
abbrev Stash (κ α : Type*) := Bool → κ → List α

/-- An open call of a thread, with what its entry captured. -/
structure Call (τ κ α : Type*) where
  tid : τ
  late : Bool
  ret : κ
  val : α
  deriving DecidableEq

/-- A thread comes to an address. `returns` says how many of its innermost calls return there at once:
none, one, or more if a call ended in a tail call. -/
structure Tick (τ κ ρ : Type*) where
  tid : τ
  pc : κ
  regs : ρ
  returns : Nat

variable [DecidableEq τ] [DecidableEq κ]

/-- Replace the values that wait for an address. -/
def Stash.set (s : Stash κ α) (late : Bool) (k : κ) (vs : List α) : Stash κ α := fun l j =>
  if l = late ∧ j = k then vs else s l j

/-- One tick of the observer. -/
def Watch.feed (w : Watch κ ρ α ε) (s : Stash κ α) (pc : κ) (regs : ρ) : List ε × Stash κ α :=
  match w.entry pc with
  | some (.wait late capture) =>
    ([], s.set late (w.retAddr regs) (capture regs :: s late (w.retAddr regs)))
  | some (.now event) => ([event regs], s)
  | none =>
    match s false pc with
    | v :: vs => ([w.event false v regs], s.set false pc vs)
    | [] =>
      match s true pc with
      | v :: vs => ([w.event true v regs], s.set true pc vs)
      | [] => ([], s)

/-! ## The calls of a trace -/

/-- Take the `n` innermost calls of a thread from the open ones. -/
def leave (t : τ) : Nat → List (Call τ κ α) → List (Call τ κ α) × List (Call τ κ α)
  | 0, opn => ([], opn)
  | _ + 1, [] => ([], [])
  | n + 1, c :: opn =>
    if c.tid = t then (c :: (leave t n opn).1, (leave t n opn).2)
    else ((leave t (n + 1) opn).1, c :: (leave t (n + 1) opn).2)

/-- One tick of the threads: what should be reported of it, and the calls that are open after it, the
newest first. -/
def Watch.calls (w : Watch κ ρ α ε) (opn : List (Call τ κ α)) (x : Tick τ κ ρ) :
    List ε × List (Call τ κ α) :=
  let done := (leave x.tid x.returns opn).1.map fun c => w.event c.late c.val x.regs
  let rest := (leave x.tid x.returns opn).2
  match w.entry x.pc with
  | some (.wait late capture) => (done, ⟨x.tid, late, w.retAddr x.regs, capture x.regs⟩ :: rest)
  | some (.now event) => (done ++ [event x.regs], rest)
  | none => (done, rest)

/-- The tick is one of properly nested calls: the thread has the calls that return, they wait for this
address, and an address that a call waits for is only come to by a return. -/
def Proper (opn : List (Call τ κ α)) (x : Tick τ κ ρ) : Prop :=
  (leave x.tid x.returns opn).1.length = x.returns ∧
    (∀ c ∈ (leave x.tid x.returns opn).1, c.ret = x.pc) ∧
    (x.returns = 0 → ∀ c ∈ opn, c.ret ≠ x.pc)

instance (opn : List (Call τ κ α)) (x : Tick τ κ ρ) : Decidable (Proper opn x) :=
  inferInstanceAs (Decidable (_ ∧ _ ∧ _))

/-- The call waits for an address on a channel. -/
def Call.awaits (late : Bool) (k : κ) (c : Call τ κ α) : Bool := c.late = late ∧ c.ret = k

/-- The newest call of any thread that waits for an address, first of those that are not late. -/
def newest (opn : List (Call τ κ α)) (k : κ) : Option (Call τ κ α) :=
  (opn.find? (Call.awaits false k)).or (opn.find? (Call.awaits true k))

/-- A return ends one call, at an address that is no watched entry, and of all the calls that wait for
this address it is the newest. -/
def Watch.Orderly (w : Watch κ ρ α ε) (opn : List (Call τ κ α)) (x : Tick τ κ ρ) : Prop :=
  x.returns = 0 ∨
    (x.returns = 1 ∧ (w.entry x.pc).isNone ∧ newest opn x.pc = opn.find? (·.tid = x.tid))

instance [DecidableEq α] (w : Watch κ ρ α ε) (opn : List (Call τ κ α)) (x : Tick τ κ ρ) :
    Decidable (w.Orderly opn x) :=
  inferInstanceAs (Decidable (_ ∨ _ ∧ _ ∧ _))

/-! ## The observer and the calls -/

/-- What is stashed is what the open calls captured. -/
def Holds (s : Stash κ α) (opn : List (Call τ κ α)) : Prop :=
  ∀ late k, s late k = (opn.filter (Call.awaits late k)).map Call.val

omit [DecidableEq κ] in
theorem leave_zero (t : τ) (opn : List (Call τ κ α)) : leave t 0 opn = ([], opn) := by
  cases opn <;> rfl

omit [DecidableEq κ] in
theorem leave_one (t : τ) (opn : List (Call τ κ α)) :
    leave t 1 opn = ((opn.find? (·.tid = t)).toList, opn.eraseP (·.tid = t)) := by
  induction opn with
  | nil => rfl
  | cons c opn ih =>
    unfold leave
    split
    next h => simp [h, leave_zero]
    next h => simp [h, ih]

/-- Taking the first element with `p` takes it from the elements with `q`, if it is the first of
these too. -/
theorem filter_eraseP_of_find? {β : Type*} {p q : β → Bool} {l : List β} {c : β}
    (hp : l.find? p = some c) (hq : l.find? q = some c) :
    l.filter q = c :: (l.eraseP p).filter q := by
  induction l with
  | nil => cases hp
  | cons a l ih =>
    have hpc := List.find?_some hp
    have hqc := List.find?_some hq
    rw [List.find?_cons] at hp hq
    cases hpa : p a with
    | true =>
      rw [hpa] at hp
      cases hp
      rw [List.eraseP_cons_of_pos hpa, List.filter_cons_of_pos hqc]
    | false =>
      rw [hpa] at hp
      cases hqa : q a with
      | true =>
        rw [hqa] at hq
        cases hq
        rw [hpa] at hpc
        cases hpc
      | false =>
        rw [hqa] at hq
        rw [List.eraseP_cons_of_neg (by simp [hpa]), List.filter_cons_of_neg (by simp [hqa]),
          List.filter_cons_of_neg (by simp [hqa])]
        exact ih hp hq

/-- The elements without the first one with `p` are the same for a filter that refuses it. -/
theorem filter_eraseP_of_neg {β : Type*} {p r : β → Bool} {l : List β} {c : β}
    (hp : l.find? p = some c) (hr : r c = false) : (l.eraseP p).filter r = l.filter r := by
  induction l with
  | nil => cases hp
  | cons a l ih =>
    rw [List.find?_cons] at hp
    cases hpa : p a with
    | true =>
      rw [hpa] at hp
      cases hp
      rw [List.eraseP_cons_of_pos hpa, List.filter_cons_of_neg (by simp [hr])]
    | false =>
      rw [hpa] at hp
      rw [List.eraseP_cons_of_neg (by simp [hpa]), List.filter_cons, List.filter_cons, ih hp]

omit [DecidableEq τ] in
theorem Holds.push {s : Stash κ α} {opn : List (Call τ κ α)} (h : Holds s opn)
    (c : Call τ κ α) : Holds (s.set c.late c.ret (c.val :: s c.late c.ret)) (c :: opn) := by
  intro late k
  unfold Stash.set
  rw [List.filter_cons]
  by_cases hc : late = c.late ∧ k = c.ret
  · obtain ⟨rfl, rfl⟩ := hc
    simp [Call.awaits, h c.late c.ret]
  · have hn : Call.awaits late k c = false := by
      simp only [Call.awaits, decide_eq_false_iff_not]
      exact fun ⟨h1, h2⟩ => hc ⟨h1.symm, h2.symm⟩
    simp [hc, hn, h late k]

/-- Popping the stash of a return address takes the newest call that waits for it. -/
theorem Holds.pop {s : Stash κ α} {opn : List (Call τ κ α)} (h : Holds s opn) {late : Bool}
    {k : κ} {t : τ} {c : Call τ κ α} (ht : opn.find? (·.tid = t) = some c)
    (hc : opn.find? (Call.awaits late k) = some c) :
    ∃ vs, s late k = c.val :: vs ∧ Holds (s.set late k vs) (opn.eraseP (·.tid = t)) := by
  have hf := filter_eraseP_of_find? ht hc
  refine ⟨((opn.eraseP (·.tid = t)).filter (Call.awaits late k)).map Call.val, ?_, fun l j => ?_⟩
  · rw [h late k, hf, List.map_cons]
  · unfold Stash.set
    split
    next hlj =>
      obtain ⟨rfl, rfl⟩ := hlj
      rfl
    next hlj =>
      have hn : Call.awaits l j c = false := by
        have hcw := List.find?_some hc
        simp only [Call.awaits, decide_eq_true_eq, decide_eq_false_iff_not] at hcw ⊢
        rintro ⟨h1, h2⟩
        exact hlj ⟨h1.symm.trans hcw.1, h2.symm.trans hcw.2⟩
      rw [filter_eraseP_of_neg ht hn, h l j]

omit [DecidableEq τ] in
/-- Nothing is stashed for an address that no call waits for. -/
theorem Holds.nil_of_find? {s : Stash κ α} {opn : List (Call τ κ α)} (h : Holds s opn) {late : Bool}
    {k : κ} (hc : opn.find? (Call.awaits late k) = none) : s late k = [] := by
  rw [h late k, List.filter_eq_nil_iff.2 (List.find?_eq_none.1 hc), List.map_nil]

omit [DecidableEq τ] in
theorem late_of_find? {opn : List (Call τ κ α)} {late : Bool} {k : κ} {c : Call τ κ α}
    (h : opn.find? (Call.awaits late k) = some c) : c.late = late := by
  have hc := List.find?_some h
  simp only [Call.awaits, decide_eq_true_eq] at hc
  exact hc.1

/-- At an orderly tick the observer says what it should, and still holds the open calls. -/
theorem Watch.feed_calls {w : Watch κ ρ α ε} {s : Stash κ α} {opn : List (Call τ κ α)}
    {x : Tick τ κ ρ} (h : Holds s opn) (hp : Proper opn x) (ho : w.Orderly opn x) :
    (w.feed s x.pc x.regs).1 = (w.calls opn x).1 ∧
      Holds (w.feed s x.pc x.regs).2 (w.calls opn x).2 := by
  obtain ⟨hlen, -, honly⟩ := hp
  unfold Watch.feed Watch.calls
  rcases ho with h0 | ⟨h1, he, hn⟩
  · rw [h0, leave_zero]
    cases w.entry x.pc with
    | none =>
      have hnone : ∀ late, s late x.pc = [] := by
        intro late
        refine h.nil_of_find? (List.find?_eq_none.2 fun c hc => ?_)
        have := honly h0 c hc
        simp [Call.awaits, this]
      rw [hnone false, hnone true]
      exact ⟨rfl, h⟩
    | some e =>
      cases e with
      | wait late capture => exact ⟨rfl, h.push ⟨x.tid, late, w.retAddr x.regs, capture x.regs⟩⟩
      | now event => exact ⟨rfl, h⟩
  · rw [h1, leave_one] at hlen ⊢
    rw [Option.isNone_iff_eq_none.1 he]
    cases ht : opn.find? (·.tid = x.tid) with
    | none =>
      rw [ht] at hlen
      cases hlen
    | some c =>
      rw [ht] at hn
      dsimp only [Option.toList, List.map_cons, List.map_nil]
      unfold newest at hn
      cases hf : opn.find? (Call.awaits false x.pc) with
      | some d =>
        rw [hf] at hn
        cases hn
        obtain ⟨vs, hs, hh⟩ := h.pop ht hf
        rw [hs]
        refine ⟨?_, hh⟩
        dsimp only [List.map]
        rw [late_of_find? hf]
      | none =>
        rw [hf, Option.none_or] at hn
        obtain ⟨vs, hs, hh⟩ := h.pop ht hn
        rw [h.nil_of_find? hf, hs]
        refine ⟨?_, hh⟩
        dsimp only [List.map]
        rw [late_of_find? hn]

end

end Lib
