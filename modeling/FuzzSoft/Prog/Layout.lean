import FuzzSoft.Prog.Lower

/-!
# The layout of the scratch region

Where lowering puts the pointees of a program depends on their sizes and alignments, not on their
bytes and not on the address of the region. `layCalls` allocates without building an image, and
`buildBytes_layout` and `lowerArgs_layout` say that serializing and lowering follow it.
-/

namespace FuzzSoft

open Lib

/-! ## Allocation without bytes -/

/-- The number of bytes that a value is serialized to. -/
def imageLen : ArgType → ArgValue → Nat
  | .const _, .imm _ => 4
  | .int bits _, .imm _ => min (intBytes bits) 8
  | .flags _ _, .imm _ => 4
  | .res _, .res _ => 4
  | .buffer _, .bytes b => b.length
  | .stringConst _, .bytes b => b.length
  | .ptr _ _ nullable, .imm v => if v = 0 && nullable then 4 else 0
  | .ptr _ _ _, .ptr _ => 4
  | .struct fields, .struct vals => (structLayout fields vals).2.1
  | _, _ => 0

/-- A pointee: where it was allocated, its length, and whether a pointer on the way to it declares
it as output. -/
structure Region where
  off : Nat
  len : Nat
  out : Bool
  deriving DecidableEq

/-- The offset of an allocation, and the cursor after it. -/
def bump (cap cur len align : Nat) : Nat × Nat :=
  let off := roundUp cur align
  if off ≥ cap then (cap, cur) else (off, off + min len (cap - off))

mutual

/-- The pointees of a value, in the order of their allocation, and the cursor after them. -/
def layValue (cap : Nat) (out : Bool) : ArgType → ArgValue → Nat → List Region × Nat
  | .ptr dir inner _, .ptr pointee, cur =>
    let out := out || dir ≠ .in
    let nested := layValue cap out inner pointee cur
    let a := bump cap nested.2 (imageLen inner pointee) (valueSizeAlign inner pointee).2
    (nested.1 ++ [⟨a.1, imageLen inner pointee, out⟩], a.2)
  | .struct fields, .struct vals, cur => layFields cap out fields vals cur
  | _, _, cur => ([], cur)

/-- The pointees in the fields of a struct. -/
def layFields (cap : Nat) (out : Bool) : List ArgType → List ArgValue → Nat → List Region × Nat
  | f :: fields, v :: vals, cur =>
    let r := layValue cap out f v cur
    let rest := layFields cap out fields vals r.2
    (r.1 ++ rest.1, rest.2)
  | _, _, cur => ([], cur)

end

/-- The pointees of an argument; the last one is what the argument itself points to. -/
def layArg (cap : Nat) : ArgType → ArgValue → Nat → List Region × Nat
  | .ptr dir inner nullable, .ptr pointee, cur =>
    layValue cap false (.ptr dir inner nullable) (.ptr pointee) cur
  | _, _, cur => ([], cur)

/-- The pointees of each argument of a call. -/
def layArgs (cap : Nat) : List ArgType → List ArgValue → Nat → List (List Region) × Nat
  | ty :: tys, v :: vals, cur =>
    let r := layArg cap ty v cur
    let rest := layArgs cap tys vals r.2
    (r.1 :: rest.1, rest.2)
  | _, _, cur => ([], cur)

/-- The pointees of each argument of each call. -/
def layCalls (cap : Nat) : List TypedCall → Nat → List (List (List Region))
  | [], _ => []
  | c :: calls, cur =>
    let r := layArgs cap c.desc.args c.args cur
    r.1 :: layCalls cap calls r.2

/-- What an argument points to. -/
def target (regions : List Region) : Option Nat := regions.getLast?.map (·.off)

/-! ## What lowering makes of it -/

/-- The register of an argument that points to `at?`. -/
def loweredValue (base : U32) (at? : Option Nat) : ArgType → ArgValue → U32
  | .res _, .res (.seed s) => s.setWidth 32
  | .res _, .res (.produced _ _) => 0
  | .ptr _ _ _, .ptr _ => base + BitVec.ofNat 32 (at?.getD 0)
  | _, .imm v => v.setWidth 32
  | _, _ => 0

/-- The registers of the arguments of a call. -/
def loweredValues (base : U32) : List (List Region) → List ArgType → List ArgValue → List U32
  | r :: regions, ty :: tys, v :: vals =>
    loweredValue base (target r) ty v :: loweredValues base regions tys vals
  | _, _, _ => []

/-! ## Lowering follows the layout -/

theorem length_copyAt (buf : List U8) (off : Nat) (src : List U8) :
    (copyAt buf off src).length = buf.length := by
  simp only [copyAt, List.length_append, List.length_take, List.length_drop]
  omega

/-- Writing allocates as `bump` does. -/
theorem write_layout (w : ScratchWriter) (data : List U8) (align : Nat) :
    (w.write data align).1 = (bump w.cap w.cursor data.length align).1 ∧
      (w.write data align).2.cursor = (bump w.cap w.cursor data.length align).2 ∧
      (w.write data align).2.cap = w.cap := by
  unfold ScratchWriter.write bump
  dsimp only
  split
  · exact ⟨rfl, rfl, rfl⟩
  · exact ⟨rfl, rfl, rfl⟩

theorem length_layoutFrom (fields : List ArgType) (vals : List ArgValue) (off maxAlign : Nat) :
    (layoutFrom fields vals off maxAlign).1.length = min fields.length vals.length := by
  induction fields generalizing vals off maxAlign with
  | nil => simp [layoutFrom]
  | cons f fields ih =>
    cases vals with
    | nil => simp [layoutFrom]
    | cons v vals => simp only [layoutFrom, List.length_cons, ih, Nat.add_min_add_right]

/-- A writer that `buildBytes` has left: what it built is as long as foreseen, and its cursor is where
the layout says. -/
def Follows (cap : Nat) (r : List U8 × ScratchWriter) (len cur : Nat) : Prop :=
  r.1.length = len ∧ r.2.cursor = cur ∧ r.2.cap = cap

section
variable (base : U32)

mutual

/-- The bytes of a value and the pointees in it follow the layout. -/
theorem buildBytes_layout : ∀ (out : Bool) (ty : ArgType) (v : ArgValue) (w : ScratchWriter),
    Follows w.cap (buildBytes base ty v w) (imageLen ty v) (layValue w.cap out ty v w.cursor).2
  | out, .ptr dir inner nullable, v, w => by
    cases v with
    | ptr pointee =>
      obtain ⟨hlen, hcur, hcap⟩ := buildBytes_layout (out || dir ≠ .in) inner pointee w
      obtain ⟨-, hcur', hcap'⟩ := write_layout (buildBytes base inner pointee w).2
        (buildBytes base inner pointee w).1 (valueSizeAlign inner pointee).2
      refine ⟨length_leBytes _ 4, ?_, hcap'.trans hcap⟩
      exact hcur'.trans (by rw [hlen, hcur, hcap]; rfl)
    | imm v =>
      simp only [Follows, buildBytes, imageLen, layValue]
      split <;> simp
    | _ => exact ⟨rfl, rfl, rfl⟩
  | out, .struct fields, v, w => by
    cases v with
    | struct vals =>
      have hlen : min fields.length vals.length ≤ (structLayout fields vals).1.length :=
        Nat.le_of_eq (length_layoutFrom fields vals 0 1).symm
      have h := buildFields_layout out fields vals _ w
        (List.replicate (structLayout fields vals).2.1 0) hlen
      rw [List.length_replicate] at h
      exact h
    | _ => exact ⟨rfl, rfl, rfl⟩
  | out, .res _, v, w => by
    cases v with
    | res r => cases r <;> exact ⟨length_leBytes _ 4, rfl, rfl⟩
    | _ => exact ⟨rfl, rfl, rfl⟩
  | out, .int bits _, v, w => by
    cases v with
    | imm v => exact ⟨by simp [buildBytes, leBytes64, imageLen], rfl, rfl⟩
    | _ => exact ⟨rfl, rfl, rfl⟩
  | out, .const _, v, w | out, .flags _ _, v, w | out, .len _, v, w | out, .buffer _, v, w
  | out, .stringConst _, v, w => by
    cases v <;> exact ⟨by simp [buildBytes, imageLen], rfl, rfl⟩

/-- The fields of a struct follow the layout. -/
theorem buildFields_layout : ∀ (out : Bool) (fields : List ArgType) (vals : List ArgValue)
    (offsets : List Nat) (w : ScratchWriter) (buf : List U8),
    min fields.length vals.length ≤ offsets.length →
    Follows w.cap (buildFields base fields vals offsets w buf) buf.length
      (layFields w.cap out fields vals w.cursor).2
  | out, f :: fields, v :: vals, off :: offsets, w, buf, h => by
    obtain ⟨-, hcur, hcap⟩ := buildBytes_layout out f v w
    have hlen : min fields.length vals.length ≤ offsets.length := by
      simp only [List.length_cons] at h
      omega
    have hrest := buildFields_layout out fields vals offsets (buildBytes base f v w).2
      (copyAt buf off (buildBytes base f v w).1) hlen
    rw [hcap, hcur, length_copyAt] at hrest
    exact hrest
  | _, [], _, _, _, _, _ => ⟨rfl, rfl, rfl⟩
  | _, _ :: _, [], _, _, _, _ => ⟨rfl, rfl, rfl⟩
  | _, _ :: _, _ :: _, [], _, _, h => by simp at h

end

end

/-- Serializing a pointee allocates as the layout does. -/
theorem serializeInto_layout (base : U32) (dir : Dir) (inner : ArgType) (nullable : Bool)
    (pointee : ArgValue) (w : ScratchWriter) :
    target (layArg w.cap (.ptr dir inner nullable) (.ptr pointee) w.cursor).1 =
        some (serializeInto base inner pointee w).1 ∧
      (serializeInto base inner pointee w).2.cursor =
        (layArg w.cap (.ptr dir inner nullable) (.ptr pointee) w.cursor).2 ∧
      (serializeInto base inner pointee w).2.cap = w.cap := by
  obtain ⟨hlen, hcur, hcap⟩ := buildBytes_layout base (false || dir ≠ .in) inner pointee w
  obtain ⟨hoff, hcur', hcap'⟩ := write_layout (buildBytes base inner pointee w).2
    (buildBytes base inner pointee w).1 (valueSizeAlign inner pointee).2
  rw [hlen, hcur, hcap] at hoff hcur'
  refine ⟨?_, hcur', hcap'.trans hcap⟩
  rw [serializeInto, hoff]
  simp [target, layArg, layValue]

section
variable {p : Prog} {base : U32} {i : Nat} {produces : Produces}

/-- Lowering an argument follows the layout. -/
theorem lowerArg_layout (j : Nat) (ty : ArgType) (v : ArgValue) (l : Lowering) :
    (lowerArg p base i j produces ty v l).1 =
        loweredValue base (target (layArg l.w.cap ty v l.w.cursor).1) ty v ∧
      (lowerArg p base i j produces ty v l).2.w.cursor = (layArg l.w.cap ty v l.w.cursor).2 ∧
      (lowerArg p base i j produces ty v l).2.w.cap = l.w.cap := by
  cases v with
  | ptr pointee =>
    cases ty with
    | ptr dir inner nullable =>
      obtain ⟨hat, hcur, hcap⟩ := serializeInto_layout base dir inner nullable pointee l.w
      exact ⟨by rw [loweredValue, hat]; rfl, hcur, hcap⟩
    | _ => exact ⟨rfl, rfl, rfl⟩
  | res r =>
    cases ty with
    | res want => cases r <;> exact ⟨rfl, rfl, rfl⟩
    | _ => exact ⟨rfl, rfl, rfl⟩
  | _ => cases ty <;> exact ⟨rfl, rfl, rfl⟩

/-- Lowering the arguments of a call follows the layout. -/
theorem lowerArgs_layout (j : Nat) (tys : List ArgType) (vals : List ArgValue) (l : Lowering) :
    (lowerArgs p base i produces j tys vals l).1 =
        loweredValues base (layArgs l.w.cap tys vals l.w.cursor).1 tys vals ∧
      (lowerArgs p base i produces j tys vals l).2.w.cursor =
        (layArgs l.w.cap tys vals l.w.cursor).2 ∧
      (lowerArgs p base i produces j tys vals l).2.w.cap = l.w.cap := by
  induction tys generalizing vals j l with
  | nil => cases vals <;> exact ⟨rfl, rfl, rfl⟩
  | cons ty tys ih =>
    cases vals with
    | nil => exact ⟨rfl, rfl, rfl⟩
    | cons v vals =>
      obtain ⟨hval, hcur, hcap⟩ := lowerArg_layout (p := p) (i := i)
        j ty v l
      obtain ⟨hvals, hcurs, hcaps⟩ := ih (j + 1) vals (lowerArg p base i j produces ty v l).2
      rw [hcur, hcap] at hvals hcurs
      refine ⟨?_, hcurs, hcaps.trans hcap⟩
      rw [lowerArgs, layArgs, loweredValues, hval, hvals]

end

end FuzzSoft
