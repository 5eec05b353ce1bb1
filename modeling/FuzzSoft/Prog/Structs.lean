import FuzzSoft.Prog.Skeleton

/-!
# The layout of values

A value of a type takes as many bytes as its size says, and the fields of a struct stand in it one after
the other, each aligned (`LaidOut`). This holds of every value without a nested length argument, without
integers of more than 71 bits, and whose size does not wrap (`laidOut_iff`).
-/

namespace FuzzSoft

open Lib

/-! ## Bytes at an offset -/

/-- `data` stands at `off` in a buffer. -/
def StandsAt (buf : List U8) (off : Nat) (data : List U8) : Prop :=
  ∀ i < data.length, buf[off + i]? = data[i]?

/-- What stands in a buffer ends in it. -/
theorem StandsAt.le {buf : List U8} {off : Nat} {data : List U8} (h : StandsAt buf off data)
    (hne : data ≠ []) : off + data.length ≤ buf.length := by
  have hpos := List.length_pos_iff.mpr hne
  have hlast := h (data.length - 1) (by omega)
  rw [List.getElem?_eq_getElem (by omega : data.length - 1 < data.length)] at hlast
  have := (List.getElem?_eq_some_iff.mp hlast).1
  omega

/-- A byte of a buffer after a copy. -/
theorem getElem?_copyAt (buf : List U8) (off : Nat) (src : List U8) (k : Nat) (hoff : off ≤ buf.length) :
    (copyAt buf off src)[k]? =
      if off ≤ k ∧ k < off + src.length ∧ k < buf.length then src[k - off]? else buf[k]? := by
  have hlen : (buf.take off).length = off := by
    rw [List.length_take]
    omega
  have hsrc : (src.take (min src.length (buf.length - off))).length =
      min src.length (buf.length - off) := by
    rw [List.length_take]
    omega
  rw [copyAt]
  rcases Nat.lt_or_ge k off with hk | hk
  · rw [List.append_assoc, List.getElem?_append_left (by omega), List.getElem?_take_of_lt hk,
      if_neg (by omega)]
  · rw [List.append_assoc, List.getElem?_append_right (by omega), hlen]
    rcases Nat.lt_or_ge (k - off) (min src.length (buf.length - off)) with hk' | hk'
    · rw [List.getElem?_append_left (by omega), List.getElem?_take_of_lt hk', if_pos (by omega)]
    · rw [List.getElem?_append_right (by omega), hsrc, List.getElem?_drop, if_neg (by omega)]
      congr 1
      omega

/-- What is copied stands where it is copied to, if it fits. -/
theorem standsAt_copyAt {buf : List U8} {off : Nat} {src : List U8}
    (h : off + src.length ≤ buf.length) : StandsAt (copyAt buf off src) off src := by
  intro i hi
  rw [getElem?_copyAt _ _ _ _ (by omega), if_pos (by omega), Nat.add_sub_cancel_left]

/-- A copy leaves what stands before it. -/
theorem StandsAt.copyAt {buf : List U8} {off off' : Nat} {data src : List U8}
    (h : StandsAt buf off data) (hle : off + data.length ≤ off') (hoff : off' ≤ buf.length) :
    StandsAt (copyAt buf off' src) off data := by
  intro i hi
  rw [getElem?_copyAt _ _ _ _ hoff, if_neg (by omega)]
  exact h i hi

/-! ## Alignment -/

/-- An alignment. -/
def IsAlign (a : Nat) : Prop := a = 1 ∨ a = 2 ∨ a = 4 ∨ a = 8

/-- The larger of two alignments is one. -/
theorem IsAlign.max {a b : Nat} (ha : IsAlign a) (hb : IsAlign b) : IsAlign (max a b) := by
  rcases Nat.le_total a b with h | h
  · rwa [Nat.max_eq_right h]
  · rwa [Nat.max_eq_left h]

section
variable {x a : Nat} (ha : IsAlign a)
include ha

/-- An alignment is at least 1. -/
theorem IsAlign.pos : 1 ≤ a := by
  rcases ha with rfl | rfl | rfl | rfl <;> decide

/-- An alignment is at most 8. -/
theorem IsAlign.le : a ≤ 8 := by
  rcases ha with rfl | rfl | rfl | rfl <;> decide

/-- Rounding up is division, but for the wrap. -/
theorem roundUp_eq (x : Nat) : roundUp x a = (x + a - 1) / a * a % 2 ^ 32 := by
  rw [roundUp, Nat.max_eq_left ha.pos]

/-- A rounded offset is aligned. -/
theorem roundUp_dvd (x : Nat) : a ∣ roundUp x a := by
  have h32 : a ∣ 2 ^ 32 := by rcases ha with rfl | rfl | rfl | rfl <;> decide
  rw [roundUp_eq ha]
  exact (Nat.dvd_mod_iff h32).mpr (Nat.dvd_mul_left _ _)

/-- Rounding up that does not wrap. -/
theorem roundUp_bounds (h : x + (a - 1) < 2 ^ 32) : x ≤ roundUp x a ∧ roundUp x a ≤ x + (a - 1) := by
  rw [roundUp_eq ha]
  rcases ha with rfl | rfl | rfl | rfl <;> omega

/-- Rounding up that wraps ends at 0. -/
theorem roundUp_wraps (hx : x < 2 ^ 32) (h : 2 ^ 32 ≤ x + (a - 1)) : roundUp x a = 0 := by
  rw [roundUp_eq ha]
  rcases ha with rfl | rfl | rfl | rfl <;> omega

/-- Rounding a positive size up to a positive one does not wrap. -/
theorem roundUp_fits (hx : x < 2 ^ 32) {len : Nat} (hlen : len = roundUp x a)
    (hpos : 0 < x → 0 < len) : x + (a - 1) < 2 ^ 32 := by
  by_contra hwrap
  have h0 := roundUp_wraps ha hx (Nat.le_of_not_lt hwrap)
  have h8 := ha.le
  have := hpos (by omega)
  omega

end

mutual

/-- The alignment of a value is one. -/
theorem isAlign_valueSizeAlign : ∀ (ty : ArgType) (v : ArgValue), IsAlign (valueSizeAlign ty v).2
  | .int bits _, v => by
    simp only [valueSizeAlign, intAlign, IsAlign]
    split <;> simp
  | .struct fields, v => by
    cases v with
    | struct vals =>
      rw [valueSizeAlign]
      exact isAlign_layoutFrom fields vals 0 1 (.inl rfl)
    | _ => exact .inl rfl
  | .buffer _, v | .stringConst _, v => by cases v <;> exact .inl rfl
  | .const _, _ | .flags _ _, _ | .res _, _ | .len _, _ | .ptr _ _ _, _ => .inr (.inr (.inl rfl))

/-- So is that of a struct. -/
theorem isAlign_layoutFrom : ∀ (fields : List ArgType) (vals : List ArgValue) (off maxAlign : Nat),
    IsAlign maxAlign → IsAlign (layoutFrom fields vals off maxAlign).2.2
  | f :: fields, v :: vals, off, maxAlign, h => by
    have ha := isAlign_valueSizeAlign f v
    rw [layoutFrom]
    exact isAlign_layoutFrom fields vals _ _ (h.max (ha.max (.inl rfl)))
  | [], _, _, _, h => h
  | _ :: _, [], _, _, h => h

end

/-! ## Values as they should be laid out -/

mutual

/-- A value matches its type. -/
def Shaped : ArgType → ArgValue → Prop
  | .const _, .imm _ | .int _ _, .imm _ | .flags _ _, .imm _ | .len _, .imm _ => True
  | .res _, .res _ => True
  | .ptr _ _ nullable, .imm v => v = 0 ∧ nullable = true
  | .ptr _ inner _, .ptr pointee => Shaped inner pointee
  | .buffer _, .bytes _ | .stringConst _, .bytes _ => True
  | .struct fields, .struct vals => ShapedFields fields vals
  | _, _ => False

def ShapedFields : List ArgType → List ArgValue → Prop
  | [], [] => True
  | f :: fields, v :: vals => Shaped f v ∧ ShapedFields fields vals
  | _, _ => False

end

/-- The serializations of the fields of a struct. -/
def fieldImages (base : U32) : List ArgType → List ArgValue → ScratchWriter → List (List U8)
  | f :: fields, v :: vals, w =>
    (buildBytes base f v w).1 :: fieldImages base fields vals (buildBytes base f v w).2
  | _, _, _ => []

/-- What the fields of a struct take. -/
def fieldSizes (fields : List ArgType) (vals : List ArgValue) : List (Nat × Nat) :=
  List.zipWith valueSizeAlign fields vals

/-- Every field stands at its offset, which is aligned; no two fields overlap; and the size of the
struct is a multiple of its alignment. -/
structure StructLaidOut (base : U32) (fields : List ArgType) (vals : List ArgValue)
    (w : ScratchWriter) : Prop where
  stands : ∀ (k : Nat) off data, (structLayout fields vals).1[k]? = some off →
    (fieldImages base fields vals w)[k]? = some data →
    StandsAt (buildBytes base (.struct fields) (.struct vals) w).1 off data
  aligned : ∀ a ∈ (structLayout fields vals).1.zip (fieldSizes fields vals), a.2.2 ∣ a.1
  apart : ((structLayout fields vals).1.zip (fieldSizes fields vals)).Pairwise fun a b =>
    a.1 + a.2.1 ≤ b.1 ∨ b.1 + b.2.1 ≤ a.1
  total : (structLayout fields vals).2.2 ∣ (structLayout fields vals).2.1

/-- A value takes as many bytes as its size says, and if it is a struct its fields are in order. -/
structure ExactValue (ty : ArgType) (v : ArgValue) : Prop where
  length : ∀ base w, (buildBytes base ty v w).1.length = (valueSizeAlign ty v).1
  struct : ∀ base w fields vals, ty = .struct fields → v = .struct vals →
    StructLaidOut base fields vals w

/-- A value, and every value nested in it, is as it should be. -/
def LaidOut (ty : ArgType) (v : ArgValue) : Prop :=
  ∀ path ty' v', typedAt path ty v = some (ty', v') → ExactValue ty' v'

/-- The loop of `struct_layout` does not wrap. -/
def Unwrapped : List ArgType → List ArgValue → Nat → Nat → Prop
  | f :: fields, v :: vals, off, maxAlign =>
    let sa := valueSizeAlign f v
    off + (sa.2 - 1) < 2 ^ 32 ∧ roundUp off sa.2 + sa.1 < 2 ^ 32 ∧
      Unwrapped fields vals (roundUp off sa.2 + sa.1) (max maxAlign sa.2)
  | _, _, off, maxAlign => off + (maxAlign - 1) < 2 ^ 32

mutual

/-- No length argument is nested in a value, no integer has more than 71 bits, and no size wraps. -/
def Plain : ArgType → ArgValue → Prop
  | .len _, _ => False
  | .int bits _, _ => bits.toNat ≤ 71
  | .buffer _, .bytes b | .stringConst _, .bytes b => b.length < 2 ^ 32
  | .ptr _ inner _, .ptr pointee => Plain inner pointee
  | .struct fields, .struct vals => PlainFields fields vals ∧ Unwrapped fields vals 0 1
  | _, _ => True

def PlainFields : List ArgType → List ArgValue → Prop
  | f :: fields, v :: vals => Plain f v ∧ PlainFields fields vals
  | _, _ => True

end

/-! ## Nesting -/

section
variable {ty : ArgType} {v : ArgValue}

/-- A leaf is laid out when its bytes are exact. -/
theorem laidOut_leaf (h : IsLeaf ty v) : LaidOut ty v ↔ ExactValue ty v := by
  constructor
  · exact fun hl => hl [] ty v rfl
  · intro he path ty' v' ht
    cases path with
    | nil =>
      cases ht
      exact he
    | cons step path => rw [typedAt_leaf h] at ht; cases ht

/-- A pointer is laid out with its pointee. -/
theorem laidOut_ptr {dir : Dir} {nullable : Bool} :
    LaidOut (.ptr dir ty nullable) (.ptr v) ↔
      ExactValue (.ptr dir ty nullable) (.ptr v) ∧ LaidOut ty v := by
  constructor
  · exact fun hl => ⟨hl [] _ _ rfl, fun path ty' v' ht => hl (.ptrInner :: path) ty' v' ht⟩
  · rintro ⟨he, hl⟩ path ty' v' ht
    cases path with
    | nil =>
      cases ht
      exact he
    | cons step path =>
      cases step with
      | ptrInner => exact hl path ty' v' ht
      | structField i => cases ht

/-- A struct is laid out with its fields. -/
theorem laidOut_struct {fields : List ArgType} {vals : List ArgValue} :
    LaidOut (.struct fields) (.struct vals) ↔ ExactValue (.struct fields) (.struct vals) ∧
      ∀ (k : Nat) f v, fields[k]? = some f → vals[k]? = some v → LaidOut f v := by
  constructor
  · refine fun hl => ⟨hl [] _ _ rfl, fun k f v hf hv path ty' v' ht => ?_⟩
    refine hl (.structField k :: path) ty' v' ?_
    rw [typedAt, show (fields.zip vals)[k]? = some (f, v) from
      List.getElem?_zip_eq_some.mpr ⟨hf, hv⟩]
    exact ht
  · rintro ⟨he, hl⟩ path ty' v' ht
    cases path with
    | nil =>
      cases ht
      exact he
    | cons step path =>
      rcases typedAt_cons ht with ⟨_, _, _, _, _, heq, _⟩ | ⟨i, _, _, f, u, -, heq, heq', hf, hv, hw⟩
      · cases heq
      · cases heq
        cases heq'
        exact hl i f u hf hv path ty' v' hw

/-- A value that is no struct is exact when its length is its size. -/
theorem exactValue_iff (h : ∀ fields, ty ≠ .struct fields) :
    ExactValue ty v ↔ imageLen ty v = (valueSizeAlign ty v).1 := by
  have hlen : ∀ base w, (buildBytes base ty v w).1.length = imageLen ty v := fun base w =>
    (buildBytes_layout base false ty v w).1
  constructor
  · exact fun he => (hlen 0 (.new 0)).symm.trans (he.length 0 (.new 0))
  · exact fun he => ⟨fun base w => (hlen base w).trans he, fun _ _ fields _ heq => absurd heq (h fields)⟩

end

/-! ## Structs that do not wrap -/

section
variable {base : U32}

/-- The first field, then the rest. -/
theorem layoutFrom_cons (f : ArgType) (fields : List ArgType) (v : ArgValue) (vals : List ArgValue)
    (off maxAlign : Nat) :
    layoutFrom (f :: fields) (v :: vals) off maxAlign =
      (roundUp off (valueSizeAlign f v).2 ::
          (layoutFrom fields vals ((roundUp off (valueSizeAlign f v).2 + (valueSizeAlign f v).1) % 2 ^ 32)
            (max maxAlign (valueSizeAlign f v).2)).1,
        (layoutFrom fields vals ((roundUp off (valueSizeAlign f v).2 + (valueSizeAlign f v).1) % 2 ^ 32)
          (max maxAlign (valueSizeAlign f v).2)).2) := by
  have ha := (isAlign_valueSizeAlign f v).pos
  rw [layoutFrom]
  simp only [Nat.max_eq_left ha]

/-- The offset of every field is aligned. -/
theorem layoutFrom_aligned (fields : List ArgType) (vals : List ArgValue) (off maxAlign : Nat) :
    ∀ a ∈ (layoutFrom fields vals off maxAlign).1.zip (fieldSizes fields vals), a.2.2 ∣ a.1 := by
  induction fields generalizing vals off maxAlign with
  | nil => simp [layoutFrom]
  | cons f fields ih =>
    cases vals with
    | nil => simp [layoutFrom]
    | cons v vals =>
      rw [layoutFrom_cons]
      rintro a (_ | ⟨_, ha⟩)
      · exact roundUp_dvd (isAlign_valueSizeAlign f v) off
      · exact ih vals _ _ a ha

/-- What the loop of `struct_layout` computes when it does not wrap: the fields stand one after the
other. -/
structure Ascending (spans : List (Nat × Nat × Nat)) (off last : Nat) : Prop where
  le : off ≤ last
  mem : ∀ a ∈ spans, off ≤ a.1 ∧ a.1 + a.2.1 ≤ last
  sorted : spans.Pairwise fun a b => a.1 + a.2.1 ≤ b.1

/-- Without a wrap the fields stand one after the other. -/
theorem Unwrapped.ascending : ∀ {fields : List ArgType} {vals : List ArgValue} {off maxAlign : Nat},
    Unwrapped fields vals off maxAlign → IsAlign maxAlign →
    Ascending ((layoutFrom fields vals off maxAlign).1.zip (fieldSizes fields vals)) off
        (layoutFrom fields vals off maxAlign).2.1 ∧
      (layoutFrom fields vals off maxAlign).2.1 + ((layoutFrom fields vals off maxAlign).2.2 - 1) < 2 ^ 32
  | f :: fields, v :: vals, off, maxAlign, h, ha => by
    obtain ⟨hround, hsize, hrest⟩ := h
    have hf := isAlign_valueSizeAlign f v
    have hb := roundUp_bounds hf hround
    obtain ⟨hasc, hend⟩ := hrest.ascending (ha.max hf)
    rw [layoutFrom_cons, Nat.mod_eq_of_lt hsize]
    refine ⟨⟨hb.1.trans ((Nat.le_add_right _ _).trans hasc.le), ?_, ?_⟩, hend⟩
    · rintro a (_ | ⟨_, ha⟩)
      · exact ⟨hb.1, hasc.le⟩
      · have := hasc.mem a ha
        exact ⟨by omega, this.2⟩
    · exact List.pairwise_cons.mpr ⟨fun b hb => (hasc.mem b hb).1, hasc.sorted⟩
  | [], vals, off, maxAlign, h, ha => by
    cases vals <;> exact ⟨⟨Nat.le_refl _, by simp [layoutFrom], by simp [layoutFrom]⟩, h⟩
  | _ :: _, [], off, maxAlign, h, ha => ⟨⟨Nat.le_refl _, by simp [layoutFrom], by simp [layoutFrom]⟩, h⟩

/-- The size of a struct that does not wrap has room for its fields. -/
theorem Unwrapped.le_total {fields : List ArgType} {vals : List ArgValue}
    (h : Unwrapped fields vals 0 1) :
    (layoutFrom fields vals 0 1).2.1 ≤ (structLayout fields vals).2.1 := by
  obtain ⟨-, hend⟩ := h.ascending (.inl rfl)
  exact (roundUp_bounds (isAlign_layoutFrom fields vals 0 1 (.inl rfl)) hend).1

/-- Every field of a struct is as long as its size says. -/
def FieldsExact (fields : List ArgType) (vals : List ArgValue) : Prop :=
  ∀ (k : Nat) f v, fields[k]? = some f → vals[k]? = some v → imageLen f v ≤ (valueSizeAlign f v).1

/-- The fields are copied one after the other, so each stays where it was copied. -/
theorem buildFields_stands : ∀ (fields : List ArgType) (vals : List ArgValue) (off maxAlign : Nat)
    (w : ScratchWriter) (buf : List U8), Unwrapped fields vals off maxAlign → IsAlign maxAlign →
    FieldsExact fields vals → (layoutFrom fields vals off maxAlign).2.1 ≤ buf.length →
    let offs := (layoutFrom fields vals off maxAlign).1
    let r := (buildFields base fields vals offs w buf).1
    (∀ (k : Nat) o d, offs[k]? = some o → (fieldImages base fields vals w)[k]? = some d →
      StandsAt r o d) ∧ ∀ o d, o + d.length ≤ off → StandsAt buf o d → StandsAt r o d
  | f :: fields, v :: vals, off, maxAlign, w, buf, h, ha, hex, hlen => by
    have hasc := (h.ascending ha).1
    obtain ⟨hround, hsize, hrest⟩ := h
    have hf := isAlign_valueSizeAlign f v
    have hb := roundUp_bounds hf hround
    have hd : (buildBytes base f v w).1.length ≤ (valueSizeAlign f v).1 := by
      rw [(buildBytes_layout base false f v w).1]
      exact hex 0 f v rfl rfl
    rw [layoutFrom_cons, Nat.mod_eq_of_lt hsize] at hlen hasc ⊢
    have hin := (hasc.mem _ List.mem_cons_self).2
    dsimp only at hin hlen ⊢
    obtain ⟨hstand, hkeep⟩ := buildFields_stands fields vals _ _ (buildBytes base f v w).2
      (copyAt buf (roundUp off (valueSizeAlign f v).2) (buildBytes base f v w).1) hrest (ha.max hf)
      (fun k f v hf hv => hex (k + 1) f v hf hv) (by rw [length_copyAt]; exact hlen)
    refine ⟨fun k o d ho hd' => ?_, fun o d hle hs => ?_⟩
    · cases k with
      | zero =>
        cases ho
        cases hd'
        exact hkeep _ _ (by omega) (standsAt_copyAt (by omega))
      | succ k => exact hstand k o d ho hd'
    · exact hkeep o d (by omega) (hs.copyAt (by omega) (by omega))
  | [], vals, off, maxAlign, w, buf, h, ha, hex, hlen => by
    refine ⟨fun k o d ho => by cases vals <;> simp [layoutFrom] at ho, fun o d _ hs => ?_⟩
    cases vals <;> exact hs
  | _ :: _, [], off, maxAlign, w, buf, h, ha, hex, hlen =>
    ⟨fun k o d ho => by simp [layoutFrom] at ho, fun o d _ hs => hs⟩

/-- A struct that does not wrap, with exact fields, is in order. -/
theorem Unwrapped.laidOut {fields : List ArgType} {vals : List ArgValue}
    (h : Unwrapped fields vals 0 1) (hex : FieldsExact fields vals) (w : ScratchWriter) :
    StructLaidOut base fields vals w where
  stands := by
    have hone : IsAlign 1 := .inl rfl
    refine (buildFields_stands fields vals 0 1 w _ h hone hex ?_).1
    rw [List.length_replicate]
    exact h.le_total
  aligned := layoutFrom_aligned fields vals 0 1
  apart := (h.ascending (.inl rfl)).1.sorted.imp fun h => .inl h
  total := roundUp_dvd (isAlign_layoutFrom fields vals 0 1 (.inl rfl)) _

/-- A struct in order does not wrap. Once a field has taken the first byte, wrapping would put another
there or leave the struct too short. -/
theorem unwrapped_of_spans {len : Nat} (h32 : len < 2 ^ 32) : ∀ (fields : List ArgType)
    (vals : List ArgValue) (off maxAlign : Nat), off < 2 ^ 32 → IsAlign maxAlign →
    (∀ (k : Nat) f v, fields[k]? = some f → vals[k]? = some v → 1 < (valueSizeAlign f v).2 →
      0 < (valueSizeAlign f v).1) →
    len = roundUp (layoutFrom fields vals off maxAlign).2.1 (layoutFrom fields vals off maxAlign).2.2 →
    (∀ a ∈ (layoutFrom fields vals off maxAlign).1.zip (fieldSizes fields vals),
      a.2.1 = 0 ∨ a.1 + a.2.1 ≤ len) →
    (0 < off → 0 < len ∧ ∀ a ∈ (layoutFrom fields vals off maxAlign).1.zip (fieldSizes fields vals),
      a.2.1 = 0 ∨ 0 < a.1) →
    ((layoutFrom fields vals off maxAlign).1.zip (fieldSizes fields vals)).Pairwise
      (fun a b => a.1 + a.2.1 ≤ b.1 ∨ b.1 + b.2.1 ≤ a.1) →
    Unwrapped fields vals off maxAlign
  | f :: fields, v :: vals, off, maxAlign, hoff, ha, hpos, hlen, hin, hzero, hapart => by
    have hf := isAlign_valueSizeAlign f v
    rw [layoutFrom_cons] at hlen hin hzero hapart
    obtain ⟨hhere, hrest⟩ := List.pairwise_cons.mp hapart
    have hfirst := hin _ List.mem_cons_self
    dsimp only at hlen hfirst
    have hround : off + ((valueSizeAlign f v).2 - 1) < 2 ^ 32 := by
      by_contra hwrap
      have h0 := roundUp_wraps hf hoff (Nat.le_of_not_lt hwrap)
      have h8 := hf.le
      have hsize := hpos 0 f v rfl rfl (by omega)
      rcases (hzero (by omega)).2 _ List.mem_cons_self with h | h
      · exact absurd h (Nat.ne_of_gt hsize)
      · rw [h0] at h
        exact absurd h (Nat.lt_irrefl 0)
    have hb := roundUp_bounds hf hround
    have hsize : roundUp off (valueSizeAlign f v).2 + (valueSizeAlign f v).1 < 2 ^ 32 := by
      omega
    rw [Nat.mod_eq_of_lt hsize] at hlen hin hzero hapart hhere hrest
    refine ⟨hround, hsize, unwrapped_of_spans h32 fields vals _ _ hsize (ha.max hf)
      (fun k f v hf hv => hpos (k + 1) f v hf hv) hlen (fun a hm => hin a (List.mem_cons_of_mem _ hm))
      (fun hnext => ?_) hrest⟩
    rcases Nat.eq_zero_or_pos off with rfl | hpos'
    · -- this field takes the first byte
      have h0 : roundUp 0 (valueSizeAlign f v).2 = 0 := by
        rw [roundUp_eq hf]
        rcases hf with h | h | h | h <;> rw [h] <;> rfl
      refine ⟨by omega, fun a hm => ?_⟩
      have := hhere a hm
      dsimp only at this
      omega
    · exact ⟨(hzero hpos').1, fun a hm => (hzero hpos').2 a (List.mem_cons_of_mem _ hm)⟩
  | [], vals, off, maxAlign, hoff, ha, _, hlen, _, hzero, _ => by
    cases vals <;> exact roundUp_fits ha hoff hlen fun hpos => (hzero hpos).1
  | _ :: _, [], off, maxAlign, hoff, ha, _, hlen, _, hzero, _ =>
    roundUp_fits ha hoff hlen fun hpos => (hzero hpos).1

end

/-! ## Which values are in order -/

mutual

/-- What is aligned has a size. -/
theorem Plain.size_pos : ∀ (ty : ArgType) (v : ArgValue), Plain ty v → 1 < (valueSizeAlign ty v).2 →
    0 < (valueSizeAlign ty v).1
  | .struct fields, v, h, ha => by
    cases v with
    | struct vals =>
      have hpos := PlainFields.end_pos fields vals 0 1 h.1 h.2 (.inl rfl) (by omega) ha
      exact Nat.lt_of_lt_of_le hpos h.2.le_total
    | _ => exact absurd ha (Nat.lt_irrefl 1)
  | .int bits _, v, h, ha => by
    simp only [valueSizeAlign, intBytes]
    omega
  | .buffer _, v, h, ha | .stringConst _, v, h, ha => by
    cases v <;> exact absurd ha (Nat.lt_irrefl 1)
  | .const _, _, _, _ | .flags _ _, _, _, _ | .res _, _, _, _ | .len _, _, _, _
  | .ptr _ _ _, _, _, _ => Nat.succ_pos 3

/-- Aligned plain fields take some bytes. -/
theorem PlainFields.end_pos : ∀ (fields : List ArgType) (vals : List ArgValue) (off maxAlign : Nat),
    PlainFields fields vals → Unwrapped fields vals off maxAlign → IsAlign maxAlign →
    (1 < maxAlign → 0 < off) → 1 < (layoutFrom fields vals off maxAlign).2.2 →
    0 < (layoutFrom fields vals off maxAlign).2.1
  | f :: fields, v :: vals, off, maxAlign, h, hu, ha, hoff, hlast => by
    have hf := isAlign_valueSizeAlign f v
    have hsize := Plain.size_pos f v h.1
    have hb := roundUp_bounds hf hu.1
    rw [layoutFrom_cons, Nat.mod_eq_of_lt hu.2.1] at hlast ⊢
    refine PlainFields.end_pos fields vals _ _ h.2 hu.2.2 (ha.max hf) (fun hmax => ?_) hlast
    rcases Nat.lt_or_ge 1 maxAlign with hm | hm
    · have := hoff hm
      omega
    · have := hsize (by omega)
      omega
  | [], vals, off, maxAlign, _, _, _, hoff, hlast => by cases vals <;> exact hoff hlast
  | _ :: _, [], off, maxAlign, _, _, _, hoff, hlast => hoff hlast

end

/-- The fields of plain values that are aligned have a size. -/
theorem PlainFields.size_pos : ∀ {fields : List ArgType} {vals : List ArgValue},
    PlainFields fields vals → ∀ (k : Nat) f v, fields[k]? = some f → vals[k]? = some v →
      1 < (valueSizeAlign f v).2 → 0 < (valueSizeAlign f v).1
  | f :: fields, v :: vals, h, 0, _, _, hf, hv => by
    cases hf
    cases hv
    exact Plain.size_pos f v h.1
  | _ :: _, _ :: _, h, k + 1, f, v, hf, hv => PlainFields.size_pos h.2 k f v hf hv
  | [], _, _, _, _, _, hf, _ => by simp at hf
  | _ :: _, [], _, _, _, _, _, hv => by simp at hv

/-- The image of an exact value has its size. -/
theorem ExactValue.imageLen_eq {ty : ArgType} {v : ArgValue} (h : ExactValue ty v) :
    imageLen ty v = (valueSizeAlign ty v).1 :=
  (buildBytes_layout 0 false ty v (.new 0)).1.symm.trans (h.length 0 (.new 0))

/-- A value that is laid out is exact. -/
theorem LaidOut.exact {ty : ArgType} {v : ArgValue} (h : LaidOut ty v) : ExactValue ty v :=
  h [] ty v rfl

/-- The serialization of a field. -/
theorem getElem?_fieldImages (base : U32) : ∀ {fields : List ArgType} {vals : List ArgValue}
    (w : ScratchWriter) {k : Nat} {f : ArgType} {v : ArgValue}, fields[k]? = some f →
    vals[k]? = some v →
    ∃ d, (fieldImages base fields vals w)[k]? = some d ∧ d.length = imageLen f v
  | [], _, _, _, _, _, hf, _ => by simp at hf
  | _ :: _, [], _, _, _, _, _, hv => by simp at hv
  | f :: fields, v :: vals, w, 0, _, _, hf, hv => by
    cases hf
    cases hv
    exact ⟨_, rfl, (buildBytes_layout base false f v w).1⟩
  | _ :: fields, _ :: vals, w, k + 1, _, _, hf, hv =>
    getElem?_fieldImages base _ (k := k) hf hv

/-- A leaf is laid out as it should be when its length is its size. -/
theorem laidOut_leaf_iff {ty : ArgType} {v : ArgValue} (h : IsLeaf ty v)
    (hs : ∀ fields, ty ≠ .struct fields) : LaidOut ty v ↔ imageLen ty v = (valueSizeAlign ty v).1 :=
  (laidOut_leaf h).trans (exactValue_iff hs)

/-- A struct with fields in order is in order exactly when it does not wrap. -/
theorem exactValue_struct_iff {fields : List ArgType} {vals : List ArgValue}
    (h : ∀ (k : Nat) f v, fields[k]? = some f → vals[k]? = some v → ExactValue f v)
    (hpos : ∀ (k : Nat) f v, fields[k]? = some f → vals[k]? = some v →
      1 < (valueSizeAlign f v).2 → 0 < (valueSizeAlign f v).1) :
    ExactValue (.struct fields) (.struct vals) ↔ Unwrapped fields vals 0 1 := by
  constructor
  · intro he
    have hs := he.struct 0 (.new 0) fields vals rfl rfl
    have hlen : (buildBytes 0 (.struct fields) (.struct vals) (.new 0)).1.length =
        (structLayout fields vals).2.1 := he.length 0 (.new 0)
    have h32 : (structLayout fields vals).2.1 < 2 ^ 32 := Nat.mod_lt _ (by decide)
    refine unwrapped_of_spans h32 fields vals 0 1 (by decide) (.inl rfl) hpos rfl (fun a ha => ?_)
      (fun h0 => absurd h0 (Nat.lt_irrefl 0)) hs.apart
    obtain ⟨k, hk⟩ := List.mem_iff_getElem?.mp ha
    obtain ⟨hoff, hsize⟩ := List.getElem?_zip_eq_some.mp hk
    obtain ⟨f, v, hf, hv, hfv⟩ := List.getElem?_zipWith_eq_some.mp hsize
    obtain ⟨d, hd, hdlen⟩ := getElem?_fieldImages 0 (.new 0) hf hv
    have hsz : d.length = a.2.1 := by rw [hdlen, (h k f v hf hv).imageLen_eq, hfv]
    rcases Nat.eq_zero_or_pos a.2.1 with h0 | h0
    · exact .inl h0
    · have hle := (hs.stands k a.1 d hoff hd).le (List.ne_nil_of_length_pos (hsz ▸ h0))
      rw [hlen, hsz] at hle
      exact .inr hle
  · intro hu
    refine ⟨fun base w => (buildBytes_layout base false _ _ w).1, ?_⟩
    intro base w fields' vals' heq heq'
    cases heq
    cases heq'
    exact hu.laidOut (fun k f v hf hv => Nat.le_of_eq (h k f v hf hv).imageLen_eq) w

mutual

/-- A value that matches its type is laid out as it should be, at every depth, exactly when it is
plain. -/
theorem laidOut_iff : ∀ (ty : ArgType) (v : ArgValue), Shaped ty v → (LaidOut ty v ↔ Plain ty v)
  | .struct fields, v, h => by
    cases v with
    | struct vals =>
      have hfields := laidOutFields_iff fields vals h
      rw [laidOut_struct, hfields]
      constructor
      · rintro ⟨he, hp⟩
        have hl := hfields.mpr hp
        exact ⟨hp, (exactValue_struct_iff (fun k f v hf hv => (hl k f v hf hv).exact)
          (PlainFields.size_pos hp)).mp he⟩
      · rintro ⟨hp, hu⟩
        have hl := hfields.mpr hp
        exact ⟨(exactValue_struct_iff (fun k f v hf hv => (hl k f v hf hv).exact)
          (PlainFields.size_pos hp)).mpr hu, hp⟩
    | _ => exact h.elim
  | .ptr dir inner nullable, v, h => by
    cases v with
    | ptr pointee =>
      rw [laidOut_ptr, laidOut_iff inner pointee h, exactValue_iff (fun _ => ArgType.noConfusion)]
      exact and_iff_right rfl
    | imm v =>
      obtain ⟨rfl, rfl⟩ := h
      have hleaf : IsLeaf (.ptr dir inner true) (.imm 0) := trivial
      rw [laidOut_leaf_iff hleaf (fun _ => ArgType.noConfusion)]
      exact iff_of_true rfl trivial
    | _ => exact h.elim
  | .len i, v, h => by
    cases v with
    | imm v =>
      have hleaf : IsLeaf (.len i) (.imm v) := trivial
      rw [laidOut_leaf_iff hleaf (fun _ => ArgType.noConfusion)]
      exact iff_of_false (by simp [imageLen, valueSizeAlign]) id
    | _ => exact h.elim
  | .int bits signed, v, h => by
    cases v with
    | imm v =>
      have hleaf : IsLeaf (.int bits signed) (.imm v) := trivial
      rw [laidOut_leaf_iff hleaf (fun _ => ArgType.noConfusion)]
      simp only [imageLen, valueSizeAlign, Plain, intBytes]
      omega
    | _ => exact h.elim
  | .buffer len, v, h => by
    cases v with
    | bytes b =>
      have hleaf : IsLeaf (.buffer len) (.bytes b) := trivial
      rw [laidOut_leaf_iff hleaf (fun _ => ArgType.noConfusion)]
      simp only [imageLen, valueSizeAlign, Plain]
      omega
    | _ => exact h.elim
  | .stringConst pool, v, h => by
    cases v with
    | bytes b =>
      have hleaf : IsLeaf (.stringConst pool) (.bytes b) := trivial
      rw [laidOut_leaf_iff hleaf (fun _ => ArgType.noConfusion)]
      simp only [imageLen, valueSizeAlign, Plain]
      omega
    | _ => exact h.elim
  | .res kind, v, h => by
    cases v with
    | res r =>
      have hp : ∀ path ty' v', typedAt path (.res kind) (.res r) = some (ty', v') →
          ty' = .res kind ∧ v' = .res r := by
        intro path ty' v' ht
        cases path with
        | nil =>
          cases ht
          exact ⟨rfl, rfl⟩
        | cons step path => cases step <;> cases ht
      refine iff_of_true (fun path ty' v' ht => ?_) trivial
      obtain ⟨rfl, rfl⟩ := hp path ty' v' ht
      exact (exactValue_iff (fun _ => ArgType.noConfusion)).mpr rfl
    | _ => exact h.elim
  | .const c, v, h => by
    cases v with
    | imm v =>
      have hleaf : IsLeaf (.const c) (.imm v) := trivial
      rw [laidOut_leaf_iff hleaf (fun _ => ArgType.noConfusion)]
      exact iff_of_true rfl trivial
    | _ => exact h.elim
  | .flags vals bitmask, v, h => by
    cases v with
    | imm v =>
      have hleaf : IsLeaf (.flags vals bitmask) (.imm v) := trivial
      rw [laidOut_leaf_iff hleaf (fun _ => ArgType.noConfusion)]
      exact iff_of_true rfl trivial
    | _ => exact h.elim

/-- The fields are laid out exactly when they are plain. -/
theorem laidOutFields_iff : ∀ (fields : List ArgType) (vals : List ArgValue), ShapedFields fields vals →
    ((∀ (k : Nat) f v, fields[k]? = some f → vals[k]? = some v → LaidOut f v) ↔
      PlainFields fields vals)
  | f :: fields, v :: vals, h => by
    rw [PlainFields, ← laidOut_iff f v h.1, ← laidOutFields_iff fields vals h.2]
    constructor
    · exact fun hl => ⟨hl 0 f v rfl rfl, fun k f v hf hv => hl (k + 1) f v hf hv⟩
    · rintro ⟨hhere, hrest⟩ k f' v' hf hv
      cases k with
      | zero =>
        cases hf
        cases hv
        exact hhere
      | succ k => exact hrest k f' v' hf hv
  | [], vals, _ => by
    refine iff_of_true (fun k f v hf => by simp at hf) ?_
    cases vals <;> trivial
  | _ :: _, [], h => h.elim

end

end FuzzSoft
