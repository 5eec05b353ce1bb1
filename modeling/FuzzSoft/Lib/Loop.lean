import Mathlib.Logic.Relation

/-!
# Loops

The body of a loop takes a state to the result that the loop is left with, or to the state of the
next pass. `Exits` is the meaning of the loop, without any bound on its passes: it is left in its
`n`-th pass with a result. A loop that never is left has no such `n`.
-/

namespace Lib

section
variable {σ ω : Type*} {body : σ → ω ⊕ σ}

/-- The loop from `s` is left in its `n`-th pass with the result `r`. -/
inductive Exits (body : σ → ω ⊕ σ) : Nat → σ → ω → Prop
  | leave {s : σ} {r : ω} (h : body s = .inl r) : Exits body 1 s r
  | pass {n : Nat} {s s' : σ} {r : ω} (h : body s = .inr s') (hn : Exits body n s' r) :
    Exits body (n + 1) s r

/-- A loop is left in one way only. -/
theorem Exits.unique {n m : Nat} {s : σ} {r r' : ω} (h : Exits body n s r)
    (h' : Exits body m s r') : n = m ∧ r = r' := by
  induction h generalizing m r' with
  | leave hb =>
    cases h' with
    | leave hb' =>
      rw [hb] at hb'
      exact ⟨rfl, Sum.inl.inj hb'⟩
    | pass hb' _ =>
      rw [hb] at hb'
      cases hb'
  | pass hb _ ih =>
    cases h' with
    | leave hb' =>
      rw [hb] at hb'
      cases hb'
    | pass hb' hn' =>
      rw [hb] at hb'
      cases hb'
      obtain ⟨rfl, rfl⟩ := ih hn'
      exact ⟨rfl, rfl⟩

/-- A loop is left when each pass brings a measure down. -/
theorem exits_of_measure (I : σ → Prop) (μ : σ → Nat)
    (h : ∀ s s', I s → body s = .inr s' → I s' ∧ μ s' < μ s)
    {s : σ} (hs : I s) : ∃ n r, n ≤ μ s + 1 ∧ Exits body n s r := by
  induction hm : μ s using Nat.strongRecOn generalizing s with
  | ind m ih =>
    subst hm
    cases hb : body s with
    | inl r => exact ⟨1, r, by omega, .leave hb⟩
    | inr s' =>
      obtain ⟨hs', hlt⟩ := h s s' hs hb
      obtain ⟨n, r, hn, hl⟩ := ih (μ s') hlt hs' rfl
      exact ⟨n + 1, r, by omega, .pass hb hl⟩

/-- Two loops whose passes correspond are left together. -/
theorem Exits.map {σ' ω' : Type*} {body' : σ' → ω' ⊕ σ'} (f : σ → σ') (g : ω → ω')
    (hf : ∀ s, body' (f s) = Sum.map g f (body s)) {n : Nat} {s : σ} {r : ω}
    (h : Exits body n s r) : Exits body' n (f s) (g r) := by
  induction h with
  | leave hb => exact .leave (by rw [hf, hb, Sum.map_inl])
  | pass hb _ ih => exact .pass (by rw [hf, hb, Sum.map_inr]) ih

/-- What every pass keeps holds when the loop is left. -/
theorem Exits.invariant {I : σ → Prop} {Q : ω → Prop}
    (hpass : ∀ s s', I s → body s = .inr s' → I s') (hleave : ∀ s r, I s → body s = .inl r → Q r)
    {n : Nat} {s : σ} {r : ω} (h : Exits body n s r) (hs : I s) : Q r := by
  induction h with
  | leave hb => exact hleave _ _ hs hb
  | pass hb _ ih => exact ih (hpass _ _ hs hb)

/-! ## Loops that return -/

/-- The loop from `s` is left at some time. -/
def Returns (body : σ → ω ⊕ σ) (s : σ) : Prop := ∃ n r, Exits body n s r

/-- Passes of the loop lead from one state to another. -/
def Reaches (body : σ → ω ⊕ σ) : σ → σ → Prop :=
  Relation.ReflTransGen fun s s' => body s = .inr s'

/-- After finitely many passes the loop is left, or a pass starts from a busy state. -/
inductive Settles (body : σ → ω ⊕ σ) (busy : σ → Prop) : σ → Prop
  | leave {s : σ} {r : ω} (h : body s = .inl r) : Settles body busy s
  | works {s s' : σ} (h : body s = .inr s') (hw : busy s) : Settles body busy s
  | idle {s s' : σ} (h : body s = .inr s') (hs : Settles body busy s') : Settles body busy s

theorem Returns.pass {s s' : σ} (h : Returns body s) (hb : body s = .inr s') : Returns body s' := by
  obtain ⟨n, r, hx⟩ := h
  cases hx with
  | leave hb' =>
    rw [hb] at hb'
    cases hb'
  | pass hb' hn =>
    rw [hb] at hb'
    cases hb'
    exact ⟨_, _, hn⟩

theorem Returns.settles {s : σ} (h : Returns body s) (busy : σ → Prop) : Settles body busy s := by
  obtain ⟨n, r, hx⟩ := h
  induction hx with
  | leave hb => exact .leave hb
  | pass hb _ ih => exact .idle hb ih

/-- A loop that has only so much work, of which each busy pass does some and none adds any,
returns exactly when it never idles for ever. -/
theorem returns_iff_settles {busy : σ → Prop} (work : σ → Nat)
    (hwork : ∀ s s', body s = .inr s' → work s' ≤ work s ∧ (busy s → work s' < work s)) {s : σ} :
    Returns body s ↔ ∀ s', Reaches body s s' → Settles body busy s' := by
  constructor
  · intro h s' hs'
    refine Returns.settles ?_ busy
    induction hs' with
    | refl => exact h
    | tail _ hb ih => exact ih.pass hb
  · intro h
    induction hw : work s using Nat.strongRecOn generalizing s with
    | ind w ih =>
      -- inner induction: on the idle passes before some work is done
      suffices hin : ∀ {t : σ}, Settles body busy t → work t ≤ w →
          (∀ s', Reaches body t s' → Settles body busy s') → Returns body t from
        hin (h s .refl) (Nat.le_of_eq hw) h
      intro t ht
      have hreach : ∀ {t t' : σ}, body t = .inr t' → (∀ s', Reaches body t s' → Settles body busy s') →
          ∀ s', Reaches body t' s' → Settles body busy s' :=
        fun hb hall s' hs' => hall s' (.head hb hs')
      have hpass : ∀ {t t' : σ}, body t = .inr t' → Returns body t' → Returns body t := by
        rintro t t' hb ⟨n, r, hx⟩
        exact ⟨n + 1, r, .pass hb hx⟩
      induction ht with
      | leave hb => exact fun _ _ => ⟨1, _, .leave hb⟩
      | works hb hbusy =>
        intro hle hall
        have hlt := (hwork _ _ hb).2 hbusy
        exact hpass hb (ih _ (Nat.lt_of_lt_of_le hlt hle) (hreach hb hall) rfl)
      | idle hb _ ihs =>
        intro hle hall
        exact hpass hb (ihs (Nat.le_trans (hwork _ _ hb).1 hle) (hreach hb hall))

/-- A loop that a pass takes back to the same state never returns. -/
theorem not_returns_of_fixed {s : σ} (h : body s = .inr s) : ¬ Returns body s := by
  rintro ⟨n, r, hx⟩
  induction n with
  | zero => cases hx
  | succ n ih =>
    cases hx with
    | leave hb =>
      rw [h] at hb
      cases hb
    | pass hb hn =>
      rw [h] at hb
      cases hb
      exact ih hn

/-! ## A bounded number of passes -/

/-- At most so many passes: the result that the loop is left with, or the state after them. -/
def passes (body : σ → ω ⊕ σ) : Nat → σ → ω ⊕ σ
  | 0, s => .inr s
  | n + 1, s =>
    match body s with
    | .inl r => .inl r
    | .inr s' => passes body n s'

/-- Two loops whose passes correspond, for as many passes. -/
theorem passes_map {σ' ω' : Type*} {body' : σ' → ω' ⊕ σ'} (f : σ → σ') (g : ω → ω')
    (hf : ∀ s, body' (f s) = Sum.map g f (body s)) (n : Nat) (s : σ) :
    passes body' n (f s) = Sum.map g f (passes body n s) := by
  induction n generalizing s with
  | zero => rfl
  | succ n ih =>
    rw [passes, passes, hf]
    cases body s with
    | inl r => rfl
    | inr s' => exact ih s'

/-- A loop that is left in a bounded number of passes is left. -/
theorem exits_of_passes {n : Nat} {s : σ} {r : ω} (h : passes body n s = .inl r) :
    ∃ k, Exits body k s r := by
  induction n generalizing s with
  | zero => cases h
  | succ n ih =>
    rw [passes] at h
    cases hb : body s with
    | inl r' =>
      rw [hb] at h
      cases h
      exact ⟨1, .leave hb⟩
    | inr s' =>
      rw [hb] at h
      obtain ⟨k, hk⟩ := ih h
      exact ⟨k + 1, .pass hb hk⟩

/-- `ok` holds of every state from which one of the first so many passes starts. -/
def During (body : σ → ω ⊕ σ) (ok : σ → Prop) : Nat → σ → Prop
  | 0, _ => True
  | n + 1, s =>
    ok s ∧
      match body s with
      | .inl _ => True
      | .inr s' => During body ok n s'

instance During.decidable (body : σ → ω ⊕ σ) (ok : σ → Prop) [DecidablePred ok] :
    ∀ n s, Decidable (During body ok n s)
  | 0, _ => isTrue trivial
  | n + 1, s =>
    @instDecidableAnd _ _ _ <|
      match body s with
      | .inl _ => isTrue trivial
      | .inr s' => During.decidable body ok n s'

theorem During.mono {ok ok' : σ → Prop} (hok : ∀ s, ok s → ok' s) {n : Nat} {s : σ}
    (h : During body ok n s) : During body ok' n s := by
  induction n generalizing s with
  | zero => trivial
  | succ n ih =>
    obtain ⟨h1, h2⟩ := h
    refine ⟨hok s h1, ?_⟩
    cases hb : body s with
    | inl r => trivial
    | inr s' =>
      rw [hb] at h2
      exact ih h2

/-- What every admitted pass keeps holds after any number of them. -/
theorem passes_invariant {ok I : σ → Prop} {Q : ω → Prop}
    (hpass : ∀ s s', I s → ok s → body s = .inr s' → I s')
    (hleave : ∀ s r, I s → ok s → body s = .inl r → Q r) {n : Nat} {s : σ} (hs : I s)
    (hok : During body ok n s) : (passes body n s).elim Q I := by
  induction n generalizing s with
  | zero => exact hs
  | succ n ih =>
    obtain ⟨h1, h2⟩ := hok
    rw [passes]
    cases hb : body s with
    | inl r => exact hleave s r hs h1 hb
    | inr s' =>
      rw [hb] at h2
      exact ih (hpass s s' hs h1 hb) h2

end

end Lib
