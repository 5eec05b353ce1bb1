import FuzzSoft.Lib.Run
import Mathlib.Data.List.Dedup
import Mathlib.Data.List.ReduceOption

/-!
# Bounded quarantines

The book-keeping of an allocator checker: a key is live, or it is held in a quarantine after it was
taken back, or neither. The quarantine is a table and a queue of its keys. A key leaves it when it is
handed out again, or as the oldest one when another key comes and the queue is full. The queue lists
the keys of the table in the order in which they were last taken back (`Consistent`), and a key stays
until it is handed out or enough others have come after it (`held_of_few`).
-/

namespace Lib

structure Custody (κ : Type*) where
  live : κ → Bool
  held : κ → Bool
  /-- The keys of the quarantine, the oldest first. -/
  order : List κ

namespace Custody

/-- What happens to a key: it is handed out, taken back for good, or taken back into the quarantine. -/
inductive Event (κ : Type*)
  | admitted (k : κ)
  | dismissed (k : κ)
  | shelved (k : κ)
  deriving DecidableEq, Repr

section
variable {κ : Type*}

def empty : Custody κ := ⟨fun _ => false, fun _ => false, []⟩

/-- The keys taken back into the quarantine, in the order of the events. -/
def shelvings (es : List (Event κ)) : List κ :=
  es.filterMap fun
    | .shelved k => some k
    | _ => none

@[simp] theorem shelvings_append (es es' : List (Event κ)) :
    shelvings (es ++ es') = shelvings es ++ shelvings es' := List.filterMap_append

/-- Only a live key is taken back, and only a key that is not live is handed out. -/
def Legal (c : Custody κ) : Event κ → Prop
  | .admitted k => c.live k = false
  | .dismissed k | .shelved k => c.live k = true

section
variable [DecidableEq κ]

/-- Drop a key from the quarantine. -/
def evict (c : Custody κ) (k : κ) : Custody κ :=
  if c.held k then
    { c with held := Function.update c.held k false, order := c.order.filter (· ≠ k) }
  else c

/-- Forget the oldest key if the queue is full. -/
def age (cap : ℕ) (c : Custody κ) : Custody κ :=
  if cap ≤ c.order.length then
    match c.order with
    | oldest :: rest => { c with order := rest, held := Function.update c.held oldest false }
    | [] => c
  else c

/-- Below its limit a quarantine keeps what it has. -/
theorem age_of_lt {cap : ℕ} {c : Custody κ} (h : c.order.length < cap) : c.age cap = c := by
  rw [age, if_neg (Nat.not_le.2 h)]

/-- An empty one has nothing to give back. -/
theorem age_nil (cap : ℕ) {c : Custody κ} (h : c.order = []) : c.age cap = c := by
  unfold age
  split
  · rw [h]
  · rfl

/-- At its limit it gives back the oldest. -/
theorem age_cons {cap : ℕ} {c : Custody κ} {oldest : κ} {rest : List κ} (h : cap ≤ c.order.length)
    (ho : c.order = oldest :: rest) :
    c.age cap = { c with order := rest, held := Function.update c.held oldest false } := by
  rw [age, if_pos h]
  split
  next ho' =>
    rw [ho] at ho'
    cases ho'
    rfl
  next ho' =>
    rw [ho] at ho'
    cases ho'

def shelve (cap : ℕ) (c : Custody κ) (k : κ) : Custody κ :=
  { c.age cap with
    order := (c.age cap).order ++ [k], held := Function.update (c.age cap).held k true }

def setLive (c : Custody κ) (k : κ) (b : Bool) : Custody κ :=
  { c with live := Function.update c.live k b }

def step (cap : ℕ) (c : Custody κ) : Event κ → Custody κ
  | .admitted k => (c.evict k).setLive k true
  | .dismissed k => c.setLive k false
  | .shelved k => (c.setLive k false).shelve cap k

/-- What a list of events leads to, and that each of them is legal where it happens. -/
def Reaches (cap : ℕ) : Custody κ → List (Event κ) → Custody κ → Prop
  | c, [], c' => c' = c
  | c, e :: es, c' => c.Legal e ∧ Reaches cap (c.step cap e) es c'

/-- Two runs, one after the other. -/
theorem Reaches.append {cap : ℕ} {c c' c'' : Custody κ} {es es' : List (Event κ)}
    (h : Reaches cap c es c') (h' : Reaches cap c' es' c'') : Reaches cap c (es ++ es') c'' := by
  induction es generalizing c with
  | nil =>
    obtain rfl := h
    exact h'
  | cons e es ih => exact ⟨h.1, ih h.2⟩

/-- A run in two parts. -/
theorem Reaches.split {cap : ℕ} {c c'' : Custody κ} {es es' : List (Event κ)}
    (h : Reaches cap c (es ++ es') c'') : ∃ c', Reaches cap c es c' ∧ Reaches cap c' es' c'' := by
  induction es generalizing c with
  | nil => exact ⟨c, rfl, h⟩
  | cons e es ih =>
    obtain ⟨c', h₁, h₂⟩ := ih h.2
    exact ⟨c', ⟨h.1, h₁⟩, h₂⟩

/-! ## Consistency -/

/-- No key is live and held, and the queue lists the held keys, each once, in the order in which they
were last taken back. -/
structure Consistent (cap : ℕ) (back : List κ) (c : Custody κ) : Prop where
  apart : ∀ k, c.live k = true → c.held k = false
  shelved : ∀ k, c.held k = true → k ∈ back
  order : c.order = back.dedup.filter c.held
  bounded : c.order.length ≤ max cap 1

section
variable {cap : ℕ} {back : List κ} {c : Custody κ} {k : κ}

/-- The empty custody is consistent. -/
theorem consistent_empty (cap : ℕ) : Consistent cap [] (empty : Custody κ) where
  apart := fun _ _ => rfl
  shelved := fun _ h => nomatch h
  order := rfl
  bounded := Nat.zero_le _

/-- Nothing is shelved twice. -/
theorem Consistent.nodup (h : Consistent cap back c) : c.order.Nodup := by
  rw [h.order]
  exact (List.nodup_dedup back).filter _

/-- What is shelved is held. -/
theorem Consistent.mem_order (h : Consistent cap back c) : k ∈ c.order ↔ c.held k = true := by
  rw [h.order, List.mem_filter, List.mem_dedup]
  exact ⟨fun hk => hk.2, fun hk => ⟨h.shelved k hk, hk⟩⟩

/-- The last occurrence counts. -/
theorem dedup_concat (l : List κ) (k : κ) : (l ++ [k]).dedup = l.dedup.filter (· ≠ k) ++ [k] := by
  induction l with
  | nil => rfl
  | cons j l ih =>
    by_cases hj : j ∈ l
    · rw [List.cons_append, List.dedup_cons_of_mem (List.mem_append_left _ hj), ih,
        List.dedup_cons_of_mem hj]
    · rw [List.dedup_cons_of_notMem hj]
      by_cases hjk : j = k
      · subst hjk
        rw [List.cons_append, List.dedup_cons_of_mem (by simp), ih]
        simp
      · rw [List.cons_append, List.dedup_cons_of_notMem (by simp [hj, hjk]), ih]
        simp [hjk]

/-- A key that leaves the quarantine leaves the queue. -/
theorem filter_update_false (held : κ → Bool) (k : κ) (l : List κ) :
    l.filter (Function.update held k false) = (l.filter held).filter (· ≠ k) := by
  rw [List.filter_filter]
  refine List.filter_congr fun j _ => ?_
  by_cases hj : j = k
  · subst hj
    simp
  · simp [hj]

/-- Dropping one key keeps the book-keeping. -/
theorem Consistent.drop (h : Consistent cap back c) (k : κ) :
    Consistent cap back
      { c with held := Function.update c.held k false, order := c.order.filter (· ≠ k) } where
  apart := by
    intro j hj
    dsimp only
    by_cases hjk : j = k
    · rw [hjk, Function.update_self]
    · rw [Function.update_of_ne hjk]
      exact h.apart j hj
  shelved := by
    intro j hj
    dsimp only at hj
    by_cases hjk : j = k
    · rw [hjk, Function.update_self] at hj
      cases hj
    · rw [Function.update_of_ne hjk] at hj
      exact h.shelved j hj
  order := by
    dsimp only
    rw [filter_update_false, ← h.order]
  bounded := Nat.le_trans (List.length_filter_le _ _) h.bounded

/-- An eviction gives a key back. -/
theorem Consistent.evict (h : Consistent cap back c) (k : κ) :
    Consistent cap back (c.evict k) ∧ (c.evict k).held k = false := by
  unfold Custody.evict
  split
  · exact ⟨h.drop k, Function.update_self k false c.held⟩
  next hk => exact ⟨h, by simpa using hk⟩

/-- Forgetting the oldest key makes room. -/
theorem Consistent.age (h : Consistent cap back c) :
    Consistent cap back (c.age cap) ∧ (c.age cap).order.length < max cap 1 := by
  rcases Nat.lt_or_ge c.order.length cap with hroom | hfull
  · rw [age_of_lt hroom]
    exact ⟨h, by omega⟩
  cases ho : c.order with
  | nil =>
    rw [age_nil cap ho, ho, List.length_nil]
    exact ⟨h, by omega⟩
  | cons oldest rest =>
    have hnd := h.nodup
    have hdrop := h.drop oldest
    have hb := h.bounded
    rw [age_cons hfull ho]
    rw [ho] at hnd hdrop hb
    obtain ⟨hno, -⟩ := List.nodup_cons.1 hnd
    have hrest : (oldest :: rest).filter (· ≠ oldest) = rest := by
      rw [List.filter_cons_of_neg (by simp)]
      refine List.filter_eq_self.2 fun j hj => ?_
      have hne : j ≠ oldest := fun e => hno (e ▸ hj)
      simpa using hne
    rw [hrest] at hdrop
    rw [List.length_cons] at hb
    exact ⟨hdrop, by dsimp only; omega⟩

/-- Giving back leaves the live ones. -/
theorem live_age (cap : ℕ) (c : Custody κ) : (c.age cap).live = c.live := by
  unfold Custody.age
  split
  · split <;> rfl
  · rfl

/-- What was not held stays so. -/
theorem held_age (h : c.held k = false) : (c.age cap).held k = false := by
  unfold Custody.age
  split
  · split
    next oldest rest _ =>
      dsimp only
      by_cases hk : k = oldest
      · rw [hk, Function.update_self]
      · rwa [Function.update_of_ne hk]
    · exact h
  · exact h

/-- Shelving a free key keeps custody consistent. -/
theorem Consistent.shelve (h : Consistent cap back c) (hlive : c.live k = false)
    (hheld : c.held k = false) : Consistent cap (back ++ [k]) (c.shelve cap k) := by
  obtain ⟨ha, hroom⟩ := h.age
  have hnot : (c.age cap).held k = false := held_age hheld
  have hl := live_age cap c
  unfold Custody.shelve
  generalize c.age cap = d at ha hroom hnot hl ⊢
  refine ⟨fun j hj => ?_, fun j hj => ?_, ?_, ?_⟩
  · dsimp only at hj ⊢
    have hjk : j ≠ k := fun e => by rw [e, hl, hlive] at hj; cases hj
    rw [Function.update_of_ne hjk]
    exact ha.apart j hj
  · dsimp only at hj
    by_cases hjk : j = k
    · simp [hjk]
    · rw [Function.update_of_ne hjk] at hj
      exact List.mem_append_left _ (ha.shelved j hj)
  · dsimp only
    rw [dedup_concat, List.filter_append, List.filter_cons_of_pos (by simp), List.filter_nil, ha.order,
      List.filter_filter]
    congr 1
    refine List.filter_congr fun j _ => ?_
    by_cases hjk : j = k
    · simp [hjk, hnot]
    · simp [hjk]
  · dsimp only
    rw [List.length_append, List.length_singleton]
    omega

/-- So does noting a key that is not held as live. -/
theorem Consistent.setLive {b : Bool} (h : Consistent cap back c) (hk : b = true → c.held k = false) :
    Consistent cap back (c.setLive k b) where
  apart := by
    intro j hj
    change Function.update c.live k b j = true at hj
    by_cases hjk : j = k
    · subst hjk
      exact hk (by rwa [Function.update_self] at hj)
    · rw [Function.update_of_ne hjk] at hj
      exact h.apart j hj
  shelved := h.shelved
  order := h.order
  bounded := h.bounded

/-- A legal event keeps it consistent. -/
theorem Consistent.step (h : Consistent cap back c) {e : Event κ} (he : c.Legal e) :
    Consistent cap (back ++ shelvings [e]) (c.step cap e) := by
  cases e with
  | admitted k =>
    obtain ⟨h', hk⟩ := h.evict k
    rw [show shelvings [Event.admitted k] = [] from rfl, List.append_nil]
    exact h'.setLive fun _ => hk
  | dismissed k =>
    rw [show shelvings [Event.dismissed k] = [] from rfl, List.append_nil]
    exact h.setLive nofun
  | shelved k =>
    have h' : Consistent cap back (c.setLive k false) := h.setLive nofun
    have hlive : (c.setLive k false).live k = false := by simp [Custody.setLive]
    exact h'.shelve hlive (h.apart k he)

/-- The book-keeping is consistent along every run. -/
theorem Consistent.reaches {c' : Custody κ} {es : List (Event κ)} (h : Consistent cap back c)
    (hr : Reaches cap c es c') : Consistent cap (back ++ shelvings es) c' := by
  induction es generalizing c back with
  | nil =>
    obtain rfl := hr
    rwa [show shelvings ([] : List (Event κ)) = [] from rfl, List.append_nil]
  | cons e es ih =>
    have h' := ih (h.step hr.1) hr.2
    rwa [List.append_assoc, ← shelvings_append] at h'

/-! ## How long a key is held -/

/-- `k` is in the queue, and at most `n` keys are behind it. -/
def Within (k : κ) (n : ℕ) (order : List κ) : Prop :=
  ∃ ahead behind, order = ahead ++ k :: behind ∧ behind.length ≤ n

/-- What was just shelved is the youngest. -/
theorem within_shelve (cap : ℕ) (c : Custody κ) (k : κ) : Within k 0 (c.shelve cap k).order :=
  ⟨_, [], rfl, Nat.le_refl 0⟩

/-- Evicting another key makes none older. -/
theorem Within.evict {n : ℕ} {j : κ} (h : Within k n c.order) (hj : j ≠ k) :
    Within k n (c.evict j).order := by
  unfold Custody.evict
  split
  · obtain ⟨ahead, behind, ho, hn⟩ := h
    refine ⟨ahead.filter (· ≠ j), behind.filter (· ≠ j), ?_,
      Nat.le_trans (List.length_filter_le _ _) hn⟩
    dsimp only
    rw [ho, List.filter_append, List.filter_cons_of_pos (by simpa using hj.symm)]
  · exact h

/-- Shelving another key makes it older by one. -/
theorem Within.shelve {n : ℕ} {j : κ} (h : Within k n c.order) (hn : n + 1 < cap) :
    Within k (n + 1) (c.shelve cap j).order := by
  suffices ha : Within k n (c.age cap).order by
    obtain ⟨ahead, behind, ho, hb⟩ := ha
    refine ⟨ahead, behind ++ [j], ?_, by simpa using hb⟩
    rw [Custody.shelve, ho]
    simp
  unfold Custody.age
  split
  next hfull =>
    obtain ⟨ahead, behind, ho, hb⟩ := h
    rw [ho] at hfull
    cases ahead with
    | nil =>
      -- the oldest key is only forgotten when `cap` keys are in the queue
      rw [List.nil_append, List.length_cons] at hfull
      omega
    | cons x ahead =>
      rw [ho]
      exact ⟨ahead, behind, rfl, hb⟩
  · exact h

/-- A key ages by the shelvings of a run. -/
theorem Within.reaches {n : ℕ} {c' : Custody κ} {es : List (Event κ)} (h : Within k n c.order)
    (hr : Reaches cap c es c') (hout : .admitted k ∉ es) (hn : n + (shelvings es).length < cap) :
    Within k (n + (shelvings es).length) c'.order := by
  induction es generalizing c n with
  | nil =>
    obtain rfl := hr
    exact h
  | cons e es ih =>
    rw [List.mem_cons, not_or] at hout
    cases e with
    | admitted j =>
      have hj : j ≠ k := fun e => hout.1 (by rw [e])
      exact ih (c := (c.evict j).setLive j true) (h.evict hj) hr.2 hout.2 hn
    | dismissed j => exact ih (c := c.setLive j false) h hr.2 hout.2 hn
    | shelved j =>
      have hlen : (shelvings (.shelved j :: es)).length = 1 + (shelvings es).length :=
        Nat.add_comm _ 1
      rw [hlen, ← Nat.add_assoc] at hn ⊢
      exact ih (h.shelve (c := c.setLive j false) (by omega)) hr.2 hout.2 hn

/-- A key that was taken back is held until it is handed out or `cap` keys were taken back after it. -/
theorem held_of_few {c' : Custody κ} {es es' : List (Event κ)}
    (hr : Reaches cap empty (es ++ .shelved k :: es') c') (hout : .admitted k ∉ es')
    (hfew : (shelvings es').length < cap) : c'.held k = true := by
  have hc := (consistent_empty (κ := κ) cap).reaches hr
  obtain ⟨c₁, -, -, h₂⟩ := hr.split
  have hw : Within k 0 (c₁.step cap (.shelved k)).order := within_shelve cap _ k
  obtain ⟨ahead, behind, ho, -⟩ := hw.reaches h₂ hout (by omega)
  rw [← hc.mem_order, ho]
  simp

end

/-! ## Machines that keep such a book -/

/-- What a run's events say about the book-keeping at its end. -/
structure Kept (cap : ℕ) (events : List (Event κ)) (c : Custody κ) : Prop where
  apart : ∀ k, ¬ (c.live k = true ∧ c.held k = true)
  listed : ∀ k, k ∈ c.order ↔ c.held k = true
  nodup : c.order.Nodup
  ordered : c.order = (shelvings events).dedup.filter c.held
  bounded : c.order.length ≤ max cap 1
  held : ∀ k es es', events = es ++ .shelved k :: es' → .admitted k ∉ es' →
    (shelvings es').length < cap → c.held k = true

/-- Every run from the start keeps its keys. -/
theorem Reaches.kept {cap : ℕ} {es : List (Event κ)} {c : Custody κ} (h : Reaches cap empty es c) :
    Kept cap es c := by
  have hc := (consistent_empty cap).reaches h
  refine ⟨fun k hk => ?_, fun k => hc.mem_order, hc.nodup, hc.order, hc.bounded, ?_⟩
  · rw [hc.apart k hk.1] at hk
    exact nomatch hk.2
  · rintro k es es' rfl
    exact held_of_few h

/-- A machine whose steps each make at most one event of a custody makes a run of it. -/
theorem reaches_run {σ ι : Type*} {step : σ → ι → Option (Event κ) × σ} {view : σ → Custody κ}
    {cap : σ → ℕ} (hcap : ∀ s i, cap (step s i).2 = cap s)
    (hstep : ∀ s i, Reaches (cap s) (view s) (step s i).1.toList (view (step s i).2))
    (s : σ) (is : List ι) :
    Reaches (cap s) (view s) (run step s is).1.reduceOption (view (run step s is).2) := by
  induction is generalizing s with
  | nil => rfl
  | cons i is ih =>
    have h := ih (step s i).2
    rw [hcap] at h
    have happ := (hstep s i).append h
    rw [run]
    cases he : (step s i).1 with
    | none =>
      rw [he] at happ
      exact happ
    | some e =>
      rw [he] at happ
      exact happ

end

end

end Custody

end Lib
