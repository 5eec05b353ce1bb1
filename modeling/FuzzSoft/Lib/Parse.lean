import Mathlib.Logic.Basic

/-!
# Parsers over a list of tokens

A parser takes tokens from the front of a list. It accepts with a value and the tokens left over,
rejects, or panics: a rejection is a result that the caller sees, a panic is not.
-/

namespace Lib

section
variable {τ α β : Type}

/-- The end of a parse. -/
inductive Outcome (α : Type) where
  | panic
  | reject
  | accept (a : α)
  deriving DecidableEq

def Outcome.isAccept : Outcome α → Bool
  | .accept _ => true
  | _ => false

/-- A parser of `α` over tokens `τ`. -/
def Parse (τ α : Type) := List τ → Outcome (α × List τ)

namespace Parse

protected def pure (a : α) : Parse τ α := fun ts => .accept (a, ts)

protected def bind (x : Parse τ α) (f : α → Parse τ β) : Parse τ β := fun ts =>
  match x ts with
  | .accept (a, ts') => f a ts'
  | .reject => .reject
  | .panic => .panic

instance : Monad (Parse τ) where
  pure := Parse.pure
  bind := Parse.bind

def reject : Parse τ α := fun _ => .reject

def panic : Parse τ α := fun _ => .panic

/-- Take one token. -/
def next : Parse τ τ
  | [] => .reject
  | t :: ts => .accept (t, ts)

/-- Go on with a value that may be missing. -/
def lift : Option α → Parse τ α
  | some a => Parse.pure a
  | none => reject

/-- Parse `n` times. -/
def times (x : Parse τ α) : Nat → Parse τ (List α)
  | 0 => Parse.pure []
  | n + 1 => do
    let a ← x
    let as ← times x n
    Parse.pure (a :: as)

/-! ## How parsers compose -/

@[simp] theorem pure_apply (a : α) (ts : List τ) : (pure a : Parse τ α) ts = .accept (a, ts) := rfl

@[simp] theorem next_cons (t : τ) (ts : List τ) : next (t :: ts) = .accept (t, ts) := rfl

@[simp] theorem lift_some (a : α) (ts : List τ) : (lift (some a) : Parse τ α) ts = .accept (a, ts) :=
  rfl

/-- After a parse that accepts, the next one runs. -/
theorem bind_accept {x : Parse τ α} {f : α → Parse τ β} {ts ts' : List τ} {a : α}
    (h : x ts = .accept (a, ts')) : (x >>= f) ts = f a ts' := by
  change (match x ts with | .accept (a, ts') => f a ts' | .reject => .reject | .panic => .panic) = _
  rw [h]

/-- After one that rejects, nothing runs. -/
theorem bind_reject {x : Parse τ α} {f : α → Parse τ β} {ts : List τ} (h : x ts = .reject) :
    (x >>= f) ts = .reject := by
  change (match x ts with | .accept (a, ts') => f a ts' | .reject => .reject | .panic => .panic) = _
  rw [h]

/-- Nor after one that panics. -/
theorem bind_panic {x : Parse τ α} {f : α → Parse τ β} {ts : List τ} (h : x ts = .panic) :
    (x >>= f) ts = .panic := by
  change (match x ts with | .accept (a, ts') => f a ts' | .reject => .reject | .panic => .panic) = _
  rw [h]

/-- A sequence that accepts does so in both parts. -/
theorem bind_eq_accept {x : Parse τ α} {f : α → Parse τ β} {ts ts'' : List τ} {b : β}
    (h : (x >>= f) ts = .accept (b, ts'')) :
    ∃ a ts', x ts = .accept (a, ts') ∧ f a ts' = .accept (b, ts'') := by
  change (match x ts with | .accept (a, ts') => f a ts' | .reject => .reject | .panic => .panic) = _
    at h
  rcases hx : x ts with _ | _ | ⟨a, ts'⟩ <;> rw [hx] at h
  · cases h
  · cases h
  · exact ⟨a, ts', rfl, h⟩

/-- A lifted value takes no token. -/
theorem lift_eq_accept {o : Option α} {ts ts' : List τ} {a : α}
    (h : (lift o : Parse τ α) ts = .accept (a, ts')) : o = some a ∧ ts' = ts := by
  cases o with
  | none => cases h
  | some b => cases h; exact ⟨rfl, rfl⟩

/-- The next token is the first. -/
theorem next_eq_accept {ts ts' : List τ} {t : τ} (h : next ts = .accept (t, ts')) :
    ts = t :: ts' := by
  cases ts with
  | nil => cases h
  | cons t ts => cases h; rfl

/-- What follows need agree on the accepted values only. -/
theorem bind_congr {x : Parse τ α} {f g : α → Parse τ β} {ts : List τ}
    (h : ∀ a ts', x ts = .accept (a, ts') → f a ts' = g a ts') : (x >>= f) ts = (x >>= g) ts := by
  change (match x ts with | .accept (a, ts') => f a ts' | .reject => .reject | .panic => .panic) =
    match x ts with | .accept (a, ts') => g a ts' | .reject => .reject | .panic => .panic
  split
  next a ts' hx => exact h a ts' hx
  next => rfl
  next => rfl

/-- What precedes need agree on the tokens only. -/
theorem bind_congr_left {x y : Parse τ α} {f : α → Parse τ β} {ts : List τ} (h : x ts = y ts) :
    (x >>= f) ts = (y >>= f) ts := by
  change (match x ts with | .accept (a, ts') => f a ts' | .reject => .reject | .panic => .panic) =
    match y ts with | .accept (a, ts') => f a ts' | .reject => .reject | .panic => .panic
  rw [h]

/-- A repeated parse leaves no more tokens. -/
theorem times_length_le {x : Parse τ α}
    (h : ∀ ts a ts', x ts = .accept (a, ts') → ts'.length ≤ ts.length) :
    ∀ {n : Nat} {ts ts' : List τ} {as : List α}, times x n ts = .accept (as, ts') →
      ts'.length ≤ ts.length := by
  intro n
  induction n with
  | zero => intro ts ts' as ht; cases ht; exact Nat.le_refl _
  | succ n ih =>
    intro ts ts' as ht
    obtain ⟨a, t₁, ha, ht⟩ := bind_eq_accept ht
    obtain ⟨as', t₂, has, ht⟩ := bind_eq_accept ht
    cases ht
    exact Nat.le_trans (ih has) (h _ _ _ ha)

/-- Mapping the identity changes nothing. -/
theorem map_id_apply (x : Parse τ α) : id <$> x = x := by
  funext ts
  rcases hx : x ts with _ | _ | ⟨a, ts'⟩
  · exact bind_panic hx
  · exact bind_reject hx
  · exact bind_accept hx

/-- Binding is associative. -/
theorem bind_assoc_apply {γ : Type} (x : Parse τ α) (f : α → Parse τ β) (g : β → Parse τ γ) :
    x >>= f >>= g = x >>= fun a => f a >>= g := by
  funext ts
  rcases hx : x ts with _ | _ | ⟨a, ts'⟩
  · rw [bind_panic (bind_panic hx), bind_panic hx]
  · rw [bind_reject (bind_reject hx), bind_reject hx]
  · rw [bind_accept hx]
    rcases hf : f a ts' with _ | _ | ⟨b, ts''⟩
    · rw [bind_panic hf, bind_panic ((bind_accept hx).trans hf)]
    · rw [bind_reject hf, bind_reject ((bind_accept hx).trans hf)]
    · rw [bind_accept hf, bind_accept ((bind_accept hx).trans hf)]

instance : LawfulMonad (Parse τ) :=
  LawfulMonad.mk' _ map_id_apply (fun _ _ => rfl) bind_assoc_apply

/-- Parsing `m + n` times is parsing `m` times and then `n` times. -/
theorem times_add (x : Parse τ α) (m n : Nat) :
    times x (m + n) = times x m >>= fun as => times x n >>= fun bs => pure (as ++ bs) := by
  induction m with
  | zero =>
    rw [Nat.zero_add]
    exact (bind_pure (times x n)).symm
  | succ m ih =>
    rw [Nat.add_right_comm, times, times, ih]
    simp only [bind_assoc]
    rfl

/-- Two parsers that agree on at most `k` tokens and put none back agree when repeated. -/
theorem times_congr {x y : Parse τ α} {k : Nat} (hxy : ∀ ts, ts.length ≤ k → x ts = y ts)
    (hlen : ∀ ts a ts', x ts = .accept (a, ts') → ts'.length ≤ ts.length) (n : Nat) {ts : List τ}
    (hts : ts.length ≤ k) : times x n ts = times y n ts := by
  induction n generalizing ts with
  | zero => rfl
  | succ n ih =>
    refine (bind_congr fun a ts' ha => ?_).trans (bind_congr_left (hxy ts hts))
    exact bind_congr_left (ih (Nat.le_trans (hlen _ _ _ ha) hts))

/-- Parsing the concatenated encodings of a list gives the list back, where parsing the encoding of
each element does. -/
theorem times_flatMap {x : Parse τ α} {enc : α → List τ} (as : List α) (rest : List τ)
    (h : ∀ a ∈ as, ∀ rest, x (enc a ++ rest) = .accept (a, rest)) :
    times x as.length (as.flatMap enc ++ rest) = .accept (as, rest) := by
  induction as with
  | nil => rfl
  | cons a as ih =>
    rw [List.flatMap_cons, List.append_assoc, List.length_cons, times,
      bind_accept (h a List.mem_cons_self _),
      bind_accept (ih fun b hb => h b (List.mem_cons_of_mem _ hb))]
    rfl

/-- What every parse establishes holds of all the values, and there are `n` of them. -/
theorem times_forall {x : Parse τ α} {P : α → Prop}
    (h : ∀ ts a ts', x ts = .accept (a, ts') → P a) : ∀ {n : Nat} {ts ts' : List τ} {as : List α},
    times x n ts = .accept (as, ts') → as.length = n ∧ ∀ a ∈ as, P a := by
  intro n
  induction n with
  | zero =>
    intro ts ts' as ht
    cases ht
    exact ⟨rfl, fun a ha => absurd ha List.not_mem_nil⟩
  | succ n ih =>
    intro ts ts' as ht
    obtain ⟨a, t₁, ha, ht⟩ := bind_eq_accept ht
    obtain ⟨as', t₂, has, ht⟩ := bind_eq_accept ht
    cases ht
    obtain ⟨hlen, hall⟩ := ih has
    refine ⟨congrArg (· + 1) hlen, fun b hb => ?_⟩
    rcases List.mem_cons.mp hb with rfl | hb
    · exact h _ _ _ ha
    · exact hall b hb

end Parse

end

end Lib
