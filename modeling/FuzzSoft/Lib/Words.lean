import FuzzSoft.Lib.Text
import Mathlib.Data.List.DropRight
import Mathlib.Data.List.Infix

/-!
# Words in a text

Searching a text for a word, splitting it into pieces, and trimming it, with the rules for two texts
that differ in little. A change of one character is not noticed by a word that cannot be laid over
its position (`Covers`), and a piece may be exchanged for another without touching the other pieces
(`splitOnP_piece`). Blanking hides the runs of one length of a class of characters (`blank`): it
commutes with splitting at, and trimming of, what is not in the class.
-/

namespace Lib

section
variable {α : Type}

/-! ## Searching -/

section
variable [DecidableEq α]

/-- What follows the first occurrence of a word. -/
def after (w : List α) : List α → Option (List α)
  | [] => if w = [] then some [] else none
  | c :: s => if w <+: c :: s then some ((c :: s).drop w.length) else after w s

/-- The word occurs. -/
def contains (w s : List α) : Bool := (after w s).isSome

/-- What follows the first occurrence of a word. -/
theorem after_eq_some {w s r : List α} (h : after w s = some r) : ∃ u, s = u ++ w ++ r := by
  induction s with
  | nil =>
    rw [after] at h
    split at h
    next hw => cases h; exact ⟨[], by rw [hw]; rfl⟩
    next => cases h
  | cons c s ih =>
    rw [after] at h
    split at h
    next hw =>
      obtain ⟨t, ht⟩ := hw
      cases h
      exact ⟨[], by rw [← ht, List.drop_left, List.nil_append]⟩
    next =>
      obtain ⟨u, rfl⟩ := ih h
      exact ⟨c :: u, rfl⟩

/-- A word that occurs is found. -/
theorem after_append (w u r : List α) : ∃ r', after w (u ++ w ++ r) = some r' := by
  induction u with
  | nil =>
    cases hs : w ++ r with
    | nil =>
      obtain ⟨rfl, rfl⟩ := List.append_eq_nil_iff.mp hs
      exact ⟨[], rfl⟩
    | cons c s =>
      have hw : w <+: c :: s := hs ▸ List.prefix_append w r
      exact ⟨(c :: s).drop w.length, by rw [List.nil_append, hs, after, if_pos hw]⟩
  | cons c u ih =>
    rw [List.cons_append, List.cons_append, after]
    split
    · exact ⟨_, rfl⟩
    · exact ih

/-- Containing a word is having it as an infix. -/
theorem contains_iff {w s : List α} : contains w s = true ↔ w <:+: s := by
  rw [contains, Option.isSome_iff_exists]
  constructor
  · rintro ⟨r, h⟩
    obtain ⟨u, rfl⟩ := after_eq_some h
    exact ⟨u, r, rfl⟩
  · rintro ⟨u, r, rfl⟩
    exact after_append w u r

end

/-! ## A change that no word sees -/

/-- The word can be laid over the position between the two texts, if the character there is of the
class. -/
def Covers (p : α → Bool) (w x y : List α) : Prop :=
  ∃ u d v, w = u ++ d :: v ∧ p d = true ∧ u <:+ x ∧ v <+: y

section
variable {p : α → Bool} {w x y : List α} {c d : α}

/-- A longer context covers as well. -/
theorem Covers.mono {x' y' : List α} (h : Covers p w x y) (hx : x <:+ x') (hy : y <+: y') :
    Covers p w x' y' := by
  obtain ⟨u, d, v, hw, hd, hu, hv⟩ := h
  exact ⟨u, d, v, hw, hd, hu.trans hx, hv.trans hy⟩

/-- Two texts that differ in one position begin with the same words, where a word can not be laid
over it. -/
theorem prefix_exchange (hw : ¬ Covers p w x y) (hc : p c = true) (h : w <+: x ++ c :: y) :
    w <+: x ++ d :: y := by
  by_cases hlen : w.length ≤ x.length
  · exact (List.prefix_of_prefix_length_le h (List.prefix_append x _) hlen).trans
      (List.prefix_append x _)
  · obtain ⟨t, ht⟩ := h
    rcases List.append_eq_append_iff.mp ht with ⟨u, hu, -⟩ | ⟨u, hu, hut⟩
    · rw [hu, List.length_append] at hlen
      omega
    · cases u with
      | nil =>
        rw [List.append_nil] at hu
        rw [hu] at hlen
        omega
      | cons e u =>
        rw [List.cons_append, List.cons.injEq] at hut
        exact absurd ⟨x, e, u, hu, hut.1 ▸ hc, List.suffix_rfl, hut.2 ▸ List.prefix_append u t⟩ hw

/-- A word that does not cover the place cannot tell two blank characters apart. -/
theorem prefix_exchange_iff (hw : ¬ Covers p w x y) (hc : p c = true) (hd : p d = true) :
    w <+: x ++ c :: y ↔ w <+: x ++ d :: y :=
  ⟨prefix_exchange hw hc, prefix_exchange hw hd⟩

variable [DecidableEq α]

/-- The first occurrence of such a word stays where it is. -/
theorem after_exchange (hw : ¬ Covers p w x y) (hc : p c = true) (hd : p d = true) :
    (after w (x ++ c :: y)).map List.length = (after w (x ++ d :: y)).map List.length := by
  induction x with
  | nil =>
    rw [List.nil_append, List.nil_append, after, after]
    simp only [show (w <+: c :: y) = (w <+: d :: y) from propext (prefix_exchange_iff hw hc hd)]
    split
    · simp
    · rfl
  | cons b x ih =>
    have hx : ¬ Covers p w x y := fun h => hw (h.mono (List.suffix_cons b x) List.prefix_rfl)
    rw [List.cons_append, List.cons_append, after, after]
    simp only [show (w <+: b :: (x ++ c :: y)) = (w <+: b :: (x ++ d :: y)) from
      propext (prefix_exchange_iff hw hc hd)]
    split
    · simp
    · exact ih hx

/-- Nor can it by its occurrences. -/
theorem contains_exchange (hw : ¬ Covers p w x y) (hc : p c = true) (hd : p d = true) :
    contains w (x ++ c :: y) = contains w (x ++ d :: y) := by
  have h := congrArg Option.isSome (after_exchange hw hc hd)
  rw [Option.isSome_map, Option.isSome_map] at h
  exact h

end

/-! ## Pieces -/

section
variable {p : α → Bool}

/-- The first piece runs to the first separator. -/
theorem splitOnP_eq_cons {s q : List α} {rest : List (List α)} (h : s.splitOnP p = q :: rest) :
    (∀ c ∈ q, p c = false) ∧
      (s = q ∧ rest = [] ∨ ∃ b s', s = q ++ b :: s' ∧ p b = true ∧ rest = s'.splitOnP p) := by
  induction s generalizing q with
  | nil =>
    cases h
    exact ⟨by simp, .inl ⟨rfl, rfl⟩⟩
  | cons c s ih =>
    rw [List.splitOnP_cons_eq_if_modifyHead] at h
    by_cases hc : p c = true
    · rw [if_pos hc] at h
      cases h
      exact ⟨by simp, .inr ⟨c, s, rfl, hc, rfl⟩⟩
    · rw [if_neg hc] at h
      cases hs : s.splitOnP p with
      | nil => exact absurd hs (List.splitOnP_ne_nil p s)
      | cons q' rest' =>
        rw [hs] at h
        cases h
        obtain ⟨hq, hcase⟩ := ih hs
        refine ⟨by simpa [hc] using hq, ?_⟩
        rcases hcase with ⟨rfl, hrest⟩ | ⟨b, s', rfl, hb, hrest⟩
        · exact .inl ⟨rfl, hrest⟩
        · exact .inr ⟨b, s', rfl, hb, hrest⟩

/-- A piece stands between separators, and another piece may stand there instead. -/
theorem splitOnP_piece {before after : List (List α)} {s q : List α}
    (h : s.splitOnP p = before ++ q :: after) :
    ∃ z y, s = z ++ q ++ y ∧ (∀ c ∈ z.getLast?, p c = true) ∧ (∀ c ∈ y.head?, p c = true) ∧
      (∀ c ∈ q, p c = false) ∧ ∀ q', (∀ c ∈ q', p c = false) →
        (z ++ q' ++ y).splitOnP p = before ++ q' :: after := by
  induction before generalizing s with
  | nil =>
    obtain ⟨hq, ⟨rfl, rfl⟩ | ⟨b, s', rfl, hb, rfl⟩⟩ := splitOnP_eq_cons h
    · exact ⟨[], [], by simp, by simp, by simp, hq, fun q' hq' => by
        simpa using List.splitOnP_eq_singleton hq'⟩
    · exact ⟨[], b :: s', by simp, by simp, by simpa using hb, hq, fun q' hq' => by
        simpa using List.splitOnP_append_cons_of_forall_mem hq' b hb s'⟩
  | cons r before ih =>
    obtain ⟨hr, ⟨-, hnil⟩ | ⟨b, s', rfl, hb, hrest⟩⟩ := splitOnP_eq_cons h
    · simp at hnil
    · obtain ⟨z, y, rfl, hz, hy, hq, hall⟩ := ih hrest.symm
      refine ⟨r ++ b :: z, y, by simp, fun c hc => ?_, hy, hq, fun q' hq' => ?_⟩
      · cases z with
        | nil =>
          simp only [List.getLast?_append, List.getLast?_singleton, Option.some_or,
            Option.mem_def, Option.some.injEq] at hc
          exact hc ▸ hb
        | cons e z =>
          refine hz c ?_
          simpa using hc
      · rw [List.append_assoc, List.append_assoc, List.cons_append,
          List.splitOnP_append_cons_of_forall_mem hr b hb, ← List.append_assoc, hall q' hq']
        rfl

end

/-! ## Trimming -/

/-- Cut what is in the class off both ends. -/
def trimBy (p : α → Bool) (s : List α) : List α := (s.dropWhile p).rdropWhile p

section
variable {p : α → Bool}

/-- Trimming takes characters off both ends. -/
theorem trimBy_append (s : List α) : ∃ x y, s = x ++ trimBy p s ++ y ∧ (∀ c ∈ x, p c = true) ∧
    ∀ c ∈ y, p c = true := by
  refine ⟨s.takeWhile p, (s.dropWhile p).rtakeWhile p, ?_, fun c hc => List.mem_takeWhile_imp hc,
    fun c hc => List.mem_rtakeWhile_imp hc⟩
  rw [trimBy, List.append_assoc, List.rdropWhile_append_rtakeWhile, List.takeWhile_append_dropWhile]

/-- What is trimmed off does not change the trimmed text. -/
theorem trimBy_of_trimmed {x y s : List α} (hx : ∀ c ∈ x, p c = true) (hy : ∀ c ∈ y, p c = true) :
    trimBy p (x ++ s ++ y) = trimBy p s := by
  rw [trimBy, List.append_assoc, List.dropWhile_append_of_pos hx]
  cases hs : s.dropWhile p with
  | nil =>
    have hall : ∀ c ∈ s, p c = true := List.dropWhile_eq_nil_iff.mp hs
    rw [List.dropWhile_append_of_pos hall, List.dropWhile_eq_nil_iff.mpr hy, trimBy, hs]
  | cons b t =>
    rw [List.dropWhile_append, hs, if_neg (by simp), List.rdropWhile, List.reverse_append,
      List.dropWhile_append_of_pos (fun c hc => hy c (List.mem_reverse.mp hc)), trimBy, hs,
      List.rdropWhile]

/-- There is nothing to trim off a text that neither starts nor ends in the class. -/
theorem trimBy_eq_self {s : List α} (hhead : ∀ c ∈ s.head?, p c = false)
    (hlast : ∀ c ∈ s.getLast?, p c = false) : trimBy p s = s := by
  have hdrop : s.dropWhile p = s := by
    cases s with
    | nil => rfl
    | cons c s =>
      rw [List.dropWhile_cons_of_neg]
      simp [hhead c rfl]
  rw [trimBy, hdrop, List.rdropWhile_eq_self_iff]
  intro hne
  rw [hlast _ (List.getLast?_eq_some_getLast hne)]
  exact Bool.false_ne_true

/-- Trimming twice is trimming once. -/
theorem trimBy_trimBy (s : List α) : trimBy p (trimBy p s) = trimBy p s := by
  obtain ⟨x, y, hs, hx, hy⟩ := @trimBy_append α p s
  have h := @trimBy_of_trimmed α p x y (trimBy p s) hx hy
  rw [← hs] at h
  exact h.symm

/-- A trimmed text stays trimmed when a character of it is exchanged. -/
theorem trimBy_exchange {x y : List α} {c d : α} (h : trimBy p (x ++ c :: y) = x ++ c :: y)
    (hc : p c = false) (hd : p d = false) : trimBy p (x ++ d :: y) = x ++ d :: y := by
  have haround {e : α} (he : p e = false) :
      trimBy p (x ++ e :: y) = x.dropWhile p ++ e :: y.rdropWhile p := by
    have hdrop {x y : List α} : (x ++ e :: y).dropWhile p = x.dropWhile p ++ e :: y := by
      rw [List.dropWhile_append]
      split
      next hnil =>
        rw [List.isEmpty_iff] at hnil
        rw [hnil, List.dropWhile_cons_of_neg (by simp [he])]
        rfl
      next => rfl
    rw [trimBy, hdrop, List.rdropWhile, List.reverse_append, List.reverse_cons, List.append_assoc,
      List.singleton_append, hdrop, List.rdropWhile]
    simp
  rw [haround hc] at h
  have hlen := congrArg List.length h
  simp only [List.length_append, List.length_cons] at hlen
  have hx := (List.dropWhile_suffix p (l := x)).length_le
  have hy := (List.rdropWhile_prefix p y).length_le
  rw [haround hd, (List.dropWhile_suffix p (l := x)).eq_of_length (by omega),
    (List.rdropWhile_prefix p y).eq_of_length (by omega)]

end

/-! ## Blanking -/

/-- A whole run: blanked if it has the length. -/
def flush (n : Nat) (run : List α) : List (Option α) :=
  if run.length = n then run.map fun _ => none else run.map some

/-- Blank the runs of the class of length `n`, the current one begun with `run`. -/
def blankFrom (p : α → Bool) (n : Nat) : List α → List α → List (Option α)
  | run, [] => flush n run
  | run, c :: s =>
    if p c then blankFrom p n (run ++ [c]) s else flush n run ++ some c :: blankFrom p n [] s

/-- Blank the runs of the class of length `n`. -/
def blank (p : α → Bool) (n : Nat) (s : List α) : List (Option α) := blankFrom p n [] s

/-- What may stand where a blanked text has this. -/
def Fits (p : α → Bool) (c : α) : Option α → Prop
  | some d => c = d
  | none => p c = true

/-- Some choice of what was blanked has the word. -/
def MayOccur (p : α → Bool) (w : List α) (b : List (Option α)) : Prop :=
  ∃ v, v <:+: b ∧ List.Forall₂ (Fits p) w v

section
variable {p : α → Bool} {n : Nat} {u v s t : List α} {c d : α}

/-- A flushed run keeps its length. -/
theorem length_flush : (flush n u).length = u.length := by
  unfold flush
  split <;> simp

/-- A text within a run is flushed at its end. -/
theorem blankFrom_run (hu : ∀ c ∈ u, p c = true) (run : List α) :
    blankFrom p n run u = flush n (run ++ u) := by
  induction u generalizing run with
  | nil => rw [blankFrom, List.append_nil]
  | cons c u ih =>
    rw [blankFrom, if_pos (hu c List.mem_cons_self),
      ih fun d hd => hu d (List.mem_cons_of_mem _ hd), List.append_assoc]
    rfl

/-- A text that is one run is flushed as a whole. -/
theorem blank_run (hu : ∀ c ∈ u, p c = true) : blank p n u = flush n u := blankFrom_run hu []

/-- The first character outside ends a run. -/
theorem blankFrom_append (hc : p c = false) (run : List α) :
    blankFrom p n run (u ++ c :: v) = blankFrom p n run u ++ some c :: blank p n v := by
  induction u generalizing run with
  | nil =>
    change (if p c = true then _ else _) = _
    rw [if_neg (by simp [hc])]
    rfl
  | cons d u ih =>
    rw [List.cons_append, blankFrom, blankFrom]
    split
    · exact ih _
    · rw [ih, List.append_assoc]
      rfl

/-- Blanking passes over what is not of the class. -/
theorem blank_append (hc : p c = false) :
    blank p n (u ++ c :: v) = blank p n u ++ some c :: blank p n v := blankFrom_append hc []

/-- A character outside the class is kept. -/
theorem blank_cons (hc : p c = false) : blank p n (c :: v) = some c :: blank p n v := by
  have h := @blank_append α p n [] v c hc
  rw [List.nil_append] at h
  rw [h]
  simp [blank, blankFrom, flush]

/-- A text is a run, or goes on behind a run and a character that is not of the class. -/
theorem runs_induction {motive : List α → Prop} (run : ∀ u, (∀ c ∈ u, p c = true) → motive u)
    (step : ∀ u c v, (∀ d ∈ u, p d = true) → p c = false → motive v → motive (u ++ c :: v))
    (s : List α) : motive s := by
  induction hs : s.length using Nat.strong_induction_on generalizing s with
  | _ k ih =>
    have happ := s.takeWhile_append_dropWhile (p := p)
    have hall : ∀ c ∈ s.takeWhile p, p c = true := fun c hc => List.mem_takeWhile_imp hc
    cases hd : s.dropWhile p with
    | nil =>
      rw [hd, List.append_nil] at happ
      exact run s (happ ▸ hall)
    | cons c v =>
      have hc : p c = false := by
        have hne : s.dropWhile p ≠ [] := hd ▸ List.cons_ne_nil c v
        have hhead := List.head_dropWhile_not p hne
        simpa only [hd, List.head_cons] using hhead
      rw [hd] at happ
      rw [← happ]
      refine step _ c v hall hc (ih v.length ?_ v rfl)
      rw [← hs, ← happ, List.length_append, List.length_cons]
      omega

/-- Blanking keeps the length. -/
theorem length_blank (s : List α) : (blank p n s).length = s.length := by
  induction s using @runs_induction α p with
  | run u hu => rw [blank_run hu, length_flush]
  | step u c v hu hc ih => simp [blank_append hc, blank_run hu, length_flush, ih]

@[simp] theorem blank_nil : blank p n ([] : List α) = [] := by simp [blank, blankFrom, flush]

/-- Only the empty text is blanked to nothing. -/
theorem blank_eq_nil : blank p n s = [] ↔ s = [] := by
  rw [← List.length_eq_zero_iff, length_blank, List.length_eq_zero_iff]

/-- Blanking works on both sides of a place where no run goes on. -/
theorem blank_append_of (h : (∀ c ∈ u.getLast?, p c = false) ∨ ∀ c ∈ v.head?, p c = false) :
    blank p n (u ++ v) = blank p n u ++ blank p n v := by
  rcases h with h | h
  · rcases List.eq_nil_or_concat' u with rfl | ⟨u, c, rfl⟩
    · simp
    · have hc : p c = false := h c (by simp)
      rw [List.append_assoc, List.singleton_append, blank_append hc, blank_append hc]
      simp
  · cases v with
    | nil => simp
    | cons c v =>
      have hc : p c = false := h c rfl
      rw [blank_append hc, blank_cons hc]

/-- A text is blanked in parts if no run crosses their borders. -/
theorem blank_between {z m y : List α} (hz : ∀ c ∈ z.getLast?, p c = false)
    (hy : ∀ c ∈ y.head?, p c = false) :
    blank p n (z ++ m ++ y) = blank p n z ++ blank p n m ++ blank p n y := by
  rw [blank_append_of (.inr hy), blank_append_of (.inl hz)]

/-- A run fits its flushed form. -/
theorem fits_flush (hu : ∀ c ∈ u, p c = true) : List.Forall₂ (Fits p) u (flush n u) := by
  unfold flush
  split
  · rw [List.forall₂_map_right_iff, List.forall₂_same]
    exact hu
  · rw [List.forall₂_map_right_iff, List.forall₂_same]
    exact fun c _ => rfl

/-- A text is one of those that a blanked text stands for. -/
theorem fits_blank (s : List α) : List.Forall₂ (Fits p) s (blank p n s) := by
  induction s using @runs_induction α p with
  | run u hu =>
    rw [blank_run hu]
    exact fits_flush hu
  | step u c v hu hc ih =>
    rw [blank_append hc, blank_run hu]
    exact List.rel_append (fits_flush hu) (.cons rfl ih)

/-- A text that fits two parts falls into two. -/
theorem fits_append {x y : List (Option α)} : ∀ {s : List α}, List.Forall₂ (Fits p) s (x ++ y) →
    ∃ u v, s = u ++ v ∧ List.Forall₂ (Fits p) u x ∧ List.Forall₂ (Fits p) v y := by
  induction x with
  | nil => exact fun {s} h => ⟨[], s, rfl, .nil, h⟩
  | cons o x ih =>
    intro s h
    cases h with
    | cons ho h =>
      obtain ⟨u, v, rfl, hu, hv⟩ := ih h
      exact ⟨_ :: u, v, rfl, .cons ho hu, hv⟩

/-- A text fits a form without blanks if it is that form. -/
theorem fits_map_some : List.Forall₂ (Fits p) s (t.map some) ↔ s = t := by
  rw [List.forall₂_map_right_iff]
  exact List.forall₂_eq_eq_eq ▸ Iff.rfl

/-- A word that stands outside the blanks is in the text. -/
theorem infix_of_blank {w : List α} (h : w.map some <:+: blank p n s) : w <:+: s := by
  obtain ⟨x, y, hxy⟩ := h
  have hs := @fits_blank α p n s
  rw [← hxy] at hs
  obtain ⟨u, v, rfl, hu, -⟩ := fits_append hs
  obtain ⟨u, w', rfl, -, hw⟩ := fits_append hu
  rw [fits_map_some.mp hw]
  exact ⟨u, v, rfl⟩

/-- A prefix of the blanked text is one of the text. -/
theorem prefix_of_blank {w : List α} (h : w.map some <+: blank p n s) : w <+: s := by
  obtain ⟨y, hy⟩ := h
  have hs := @fits_blank α p n s
  rw [← hy] at hs
  obtain ⟨w', v, rfl, hw, -⟩ := fits_append hs
  rw [fits_map_some.mp hw]
  exact ⟨v, rfl⟩

/-- A word of the text may occur in the blanked text. -/
theorem mayOccur_blank {w : List α} (h : w <:+: s) : MayOccur p w (blank p n s) := by
  obtain ⟨x, y, rfl⟩ := h
  have hs := @fits_blank α p n (x ++ w ++ y)
  refine ⟨((blank p n (x ++ w ++ y)).drop x.length).take w.length, ?_, ?_⟩
  · exact (List.take_prefix _ _).isInfix.trans (List.drop_suffix _ _).isInfix
  · have h := List.forall₂_take w.length (List.forall₂_drop x.length hs)
    simpa using h

/-- A word that may occur has its kept characters in the form. -/
theorem MayOccur.mem {w : List α} {b : List (Option α)} (h : MayOccur p w b) {c : α} (hc : c ∈ w)
    (hp : p c = false) : some c ∈ b := by
  obtain ⟨v, hv, hfit⟩ := h
  refine hv.subset ?_
  clear hv
  induction hfit with
  | nil => cases hc
  | @cons d o w v ho _ ih =>
    rcases List.mem_cons.mp hc with rfl | hc
    · cases o with
      | none => rw [show p c = true from ho] at hp; cases hp
      | some e => rw [show c = e from ho]; exact List.mem_cons_self
    · exact List.mem_cons_of_mem _ (ih hc)

/-! ## Texts that agree when blanked -/

/-- Texts that fit one form have the class in the same places. -/
theorem fits_class {b : List (Option α)} {s t : List α} (hs : List.Forall₂ (Fits p) s b)
    (ht : List.Forall₂ (Fits p) t b) : s.map p = t.map p := by
  induction hs generalizing t with
  | nil => cases ht; rfl
  | @cons c o s b ho _ ih =>
    cases ht with
    | @cons d _ t _ ho' ht =>
      rw [List.map_cons, List.map_cons, ih ht]
      cases o with
      | none => rw [show p c = true from ho, show p d = true from ho']
      | some e => rw [show c = e from ho, show d = e from ho']

/-- A form without blanks is fitted by one text. -/
theorem fits_unique {b : List (Option α)} {s t : List α} (hb : none ∉ b)
    (hs : List.Forall₂ (Fits p) s b) (ht : List.Forall₂ (Fits p) t b) : s = t := by
  induction hs generalizing t with
  | nil => cases ht; rfl
  | @cons c o s b ho _ ih =>
    cases ht with
    | @cons d _ t _ ho' ht =>
      rw [ih (fun h => hb (List.mem_cons_of_mem _ h)) ht]
      cases o with
      | none => exact absurd List.mem_cons_self hb
      | some e => rw [show c = e from ho, show d = e from ho']

/-- Texts with one blanked form have the class in the same places. -/
theorem class_eq (h : blank p n s = blank p n t) : s.map p = t.map p :=
  fits_class (fits_blank s) (h ▸ fits_blank t)

/-- A text without blanks is the only one that blanks to what it does. -/
theorem eq_of_blank (hs : none ∉ blank p n s) (h : blank p n s = blank p n t) : s = t :=
  fits_unique hs (fits_blank s) (h ▸ fits_blank t)

/-- What a blanked text stands for blanks to it. -/
theorem blank_of_fits (h : List.Forall₂ (Fits p) t (blank p n s)) :
    blank p n t = blank p n s := by
  have hrun {u t : List α} (hu : ∀ c ∈ u, p c = true)
      (h : List.Forall₂ (Fits p) t (flush n u)) :
      (∀ c ∈ t, p c = true) ∧ flush n t = flush n u := by
    unfold flush at h
    split at h
    next hlen =>
      rw [List.forall₂_map_right_iff] at h
      refine ⟨fun c hc => ?_, ?_⟩
      · obtain ⟨i, hi, rfl⟩ := List.mem_iff_getElem.mp hc
        exact (List.forall₂_iff_get.mp h).2 i hi (h.length_eq ▸ hi)
      · rw [flush, flush, h.length_eq, if_pos hlen, if_pos hlen, List.map_const', List.map_const',
          h.length_eq]
    next =>
      rw [fits_map_some.mp h]
      exact ⟨hu, rfl⟩
  induction s using @runs_induction α p generalizing t with
  | run u hu =>
    rw [blank_run hu] at h ⊢
    obtain ⟨ht, hflush⟩ := hrun hu h
    rw [blank_run ht, hflush]
  | step u c v hu hc ih =>
    rw [blank_append hc, blank_run hu] at h ⊢
    obtain ⟨x, y, rfl, hx, hy⟩ := fits_append h
    obtain ⟨hpx, hflush⟩ := hrun hu hx
    cases hy with
    | cons hd hy =>
      rw [show _ = c from hd, blank_append hc, blank_run hpx, hflush, ih hy]

/-- A word without the filling was there before the blanks were filled. -/
theorem infix_map_getD {b : List (Option α)} {w : List α} (hc : c ∉ w)
    (h : w <:+: b.map (·.getD c)) : w.map some <:+: b := by
  obtain ⟨x, y, hxy⟩ := h
  obtain ⟨b', z, rfl, hb', -⟩ := List.map_eq_append_iff.mp hxy.symm
  obtain ⟨u, v, rfl, -, rfl⟩ := List.map_eq_append_iff.mp hb'
  have hsome : (v.map (·.getD c)).map some = v := by
    rw [List.map_map]
    conv => rhs; rw [← List.map_id v]
    refine List.map_congr_left fun o ho => ?_
    cases o with
    | none => exact absurd (List.mem_map.mpr ⟨none, ho, rfl⟩) hc
    | some d => rfl
  rw [hsome]
  exact ⟨u, z, rfl⟩

/-- A blanked place is in a run of the length, and another run may stand there instead. -/
theorem exists_run {i : Nat} (h : (blank p n s)[i]? = some none) :
    ∃ x a y, s = x ++ a ++ y ∧ x.length ≤ i ∧ i < x.length + n ∧ a.length = n ∧
      (∀ c ∈ a, p c = true) ∧ ∀ b : List α, b.length = n → (∀ c ∈ b, p c = true) →
        blank p n (x ++ b ++ y) = blank p n s := by
  have hflush {u : List α} {j : Nat} (hj : (flush n u)[j]? = some none) : u.length = n := by
    unfold flush at hj
    split at hj
    · assumption
    · simp at hj
  have hsame {a b : List α} (ha : a.length = n) (hb : b.length = n) : flush n b = flush n a := by
    rw [flush, flush, if_pos ha, if_pos hb]
    simp [ha, hb]
  induction s using @runs_induction α p generalizing i with
  | run u hu =>
    rw [blank_run hu] at h
    have hn := hflush h
    have hi := (List.getElem?_eq_some_iff.mp h).1
    rw [length_flush, hn] at hi
    refine ⟨[], u, [], by simp, Nat.zero_le _, by simpa using hi, hn, hu, fun b hb hpb => ?_⟩
    simpa [blank_run hpb, blank_run hu] using hsame hn hb
  | step u c v hu hc ih =>
    rw [blank_append hc, blank_run hu] at h
    by_cases hi : i < u.length
    · rw [List.getElem?_append_left (by rwa [length_flush])] at h
      have hn := hflush h
      refine ⟨[], u, c :: v, by simp, Nat.zero_le _, by simpa [hn] using hi, hn, hu,
        fun b hb hpb => ?_⟩
      rw [List.nil_append, blank_append hc, blank_append hc, blank_run hpb, blank_run hu,
        hsame hn hb]
    · rw [List.getElem?_append_right (by rw [length_flush]; omega), length_flush] at h
      obtain ⟨j, hj⟩ : ∃ j, i - u.length = j + 1 := by
        cases hj : i - u.length with
        | zero => rw [hj] at h; cases h
        | succ j => exact ⟨j, rfl⟩
      rw [hj, List.getElem?_cons_succ] at h
      obtain ⟨x, a, y, rfl, hx, hy, hn, ha, hall⟩ := ih h
      refine ⟨u ++ c :: x, a, y, by simp, ?_, ?_, hn, ha, fun b hb hpb => ?_⟩
      · simp only [List.length_append, List.length_cons]
        omega
      · simp only [List.length_append, List.length_cons]
        omega
      · have hassoc : u ++ c :: x ++ b ++ y = u ++ c :: (x ++ b ++ y) := by simp
        rw [hassoc, blank_append hc, hall b hb hpb, blank_append hc]

/-! ## Blanking and cutting up -/

/-- Blanking commutes with reversal. -/
theorem blank_reverse (s : List α) : blank p n s.reverse = (blank p n s).reverse := by
  induction s using @runs_induction α p with
  | run u hu =>
    rw [blank_run hu, blank_run fun c hc => hu c (List.mem_reverse.mp hc), flush, flush,
      List.length_reverse]
    split <;> rw [List.map_reverse]
  | step u c v hu hc ih =>
    have hrev : (u ++ c :: v).reverse = v.reverse ++ c :: u.reverse := by simp
    rw [hrev, blank_append hc, ih, blank_append hc, blank_run hu,
      blank_run fun d hd => hu d (List.mem_reverse.mp hd)]
    have hflush : flush n u.reverse = (flush n u).reverse := by
      rw [flush, flush, List.length_reverse]
      split <;> rw [List.map_reverse]
    rw [hflush]
    simp

variable {q : α → Bool}

/-- Dropping characters outside the class commutes with blanking. -/
theorem blank_dropWhile (hq : ∀ c, q c = true → p c = false) (s : List α) :
    blank p n (s.dropWhile q) = (blank p n s).dropWhile (Option.any q) := by
  induction s with
  | nil => simp
  | cons c s ih =>
    by_cases hc : q c = true
    · rw [List.dropWhile_cons_of_pos hc, ih, blank_cons (hq c hc)]
      exact (List.dropWhile_cons_of_pos (by simpa using hc)).symm
    · rw [List.dropWhile_cons_of_neg hc]
      cases hb : blank p n (c :: s) with
      | nil => rfl
      | cons o b =>
        have hfit := @fits_blank α p n (c :: s)
        rw [hb] at hfit
        cases hfit with
        | cons ho _ =>
          refine (List.dropWhile_cons_of_neg ?_).symm
          cases o with
          | none => simp
          | some d =>
            rw [show c = d from ho] at hc
            simpa using hc

/-- So does trimming them. -/
theorem blank_trimBy (hq : ∀ c, q c = true → p c = false) (s : List α) :
    blank p n (trimBy q s) = trimBy (Option.any q) (blank p n s) := by
  rw [trimBy, trimBy, List.rdropWhile, List.rdropWhile, blank_reverse, blank_dropWhile hq,
    blank_reverse, blank_dropWhile hq]

/-- So does splitting at them. -/
theorem blank_splitOnP (hq : ∀ c, q c = true → p c = false) (s : List α) :
    (blank p n s).splitOnP (Option.any q) = (s.splitOnP q).map (blank p n) := by
  induction hs : s.splitOnP q generalizing s with
  | nil => exact absurd hs (List.splitOnP_ne_nil q s)
  | cons r rest ih =>
    have hpiece {r : List α} (hr : ∀ c ∈ r, q c = false) :
        ∀ o ∈ blank p n r, Option.any q o = false := by
      intro o ho
      obtain ⟨i, hi⟩ := List.mem_iff_getElem?.mp ho
      cases o with
      | none => rfl
      | some d =>
        have hlen : i < r.length := by
          rw [← @length_blank α p n r]
          exact (List.getElem?_eq_some_iff.mp hi).1
        have hfit := List.forall₂_iff_get.mp (@fits_blank α p n r)
        have hd := hfit.2 i hlen (by rwa [length_blank])
        rw [List.get_eq_getElem, List.get_eq_getElem, (List.getElem?_eq_some_iff.mp hi).2] at hd
        have hmem := hr _ (List.getElem_mem hlen)
        rw [show r[i] = d from hd] at hmem
        simpa using hmem
    obtain ⟨hr, ⟨rfl, rfl⟩ | ⟨b, s', rfl, hb, hrest⟩⟩ := splitOnP_eq_cons hs
    · exact List.splitOnP_eq_singleton (hpiece hr)
    · rw [blank_append (hq b hb),
        List.splitOnP_append_cons_of_forall_mem (hpiece hr) (some b) (by simpa using hb)]
      rw [ih s' hrest.symm, List.map_cons]

end

end

end Lib
