import FuzzSoft.Prog.Mutate
import FuzzSoft.Prog.Syscalls
import Mathlib.Data.List.Destutter

/-!
# Mutation of data

`batch.rs` and `cmplog.rs`: mutations that leave the calls and the references of a program alone and
change one immediate or one byte string, at top level or inside a pointee or a struct. Both collect
the leaves of the program with the paths to them, choose one, and walk the path again to change it.
-/

namespace FuzzSoft

open Lib Gen Rng

/-! ## Paths -/

/-- One step from an argument down into its value. -/
inductive PathStep where
  | ptrInner
  | structField (i : Nat)

/-- The value a path leads to; a field that does not exist is an index out of range. -/
def valueAt : List PathStep → ArgValue → Option ArgValue
  | [], v => some v
  | .ptrInner :: path, .ptr v => valueAt path v
  | .structField i :: path, .struct vals => (vals[i]?).bind (valueAt path)
  | _ :: path, v => valueAt path v

def navigate (v : ArgValue) (path : List PathStep) : Rand ArgValue := expect (valueAt path v)

/-- Change the value that a path leads to. -/
def navigateMut (f : ArgValue → Rand ArgValue) : List PathStep → ArgValue → Rand ArgValue
  | [], v => f v
  | .ptrInner :: path, .ptr v => do
    let v' ← navigateMut f path v
    pure (.ptr v')
  | .structField i :: path, .struct vals => do
    let v ← index vals i
    let v' ← navigateMut f path v
    pure (.struct (vals.set i v'))
  | _ :: path, v => navigateMut f path v

mutual

/-- The leaves of a value with their paths. References are not descended into. -/
def leavesOf {κ : Type} (leaf : ArgType → ArgValue → Option κ) :
    ArgType → ArgValue → List (List PathStep × κ)
  | .res _, _ => []
  | .ptr _ inner _, .ptr pointee => (leavesOf leaf inner pointee).map fun l => (.ptrInner :: l.1, l.2)
  | .struct fields, .struct vals => fieldLeaves leaf 0 fields vals
  | ty, v => ((leaf ty v).map fun k => ([], k)).toList

/-- The leaves of the fields from `i` on. -/
def fieldLeaves {κ : Type} (leaf : ArgType → ArgValue → Option κ) :
    Nat → List ArgType → List ArgValue → List (List PathStep × κ)
  | i, f :: fields, v :: vals =>
    ((leavesOf leaf f v).map fun l => (.structField i :: l.1, l.2)) ++
      fieldLeaves leaf (i + 1) fields vals
  | _, _, _ => []

end

/-- A leaf of a program. -/
structure Site (κ : Type) where
  callIdx : Nat
  argIdx : Nat
  path : List PathStep
  kind : κ

/-- All the leaves of a program, in order. -/
def sites {κ : Type} (leaf : ArgType → ArgValue → Option κ) (p : Prog) : List (Site κ) :=
  p.calls.zipIdx.flatMap fun c => (c.1.desc.args.zip c.1.args).zipIdx.flatMap fun a =>
    (leavesOf leaf a.1.1 a.1.2).map fun l => ⟨c.2, a.2, l.1, l.2⟩

/-- The value at a site of a program; the argument it lies in is no reference. -/
def Site.Holds {κ : Type} (s : Site κ) (p : Prog) (w : ArgValue) : Prop :=
  ∃ c ty v, p.calls[s.callIdx]? = some c ∧ c.desc.args[s.argIdx]? = some ty ∧
    (∀ k, ty ≠ .res k) ∧ c.args[s.argIdx]? = some v ∧ valueAt s.path v = some w

/-- Change the value at a site. -/
def changeAt {κ : Type} (p : Prog) (s : Site κ) (f : ArgValue → Rand ArgValue) : Rand Prog := do
  let v ← getArg p s.callIdx s.argIdx
  let v' ← navigateMut f s.path v
  setArg p s.callIdx s.argIdx v'

section
variable {κ : Type} {leaf : ArgType → ArgValue → Option κ}

/-- A value that is a leaf itself. -/
theorem valueAt_of_mem_leaf {path : List PathStep} {k : κ} {ty : ArgType} {v : ArgValue}
    (h : (path, k) ∈ ((leaf ty v).map fun k => (([] : List PathStep), k)).toList) :
    ∃ ty' w, valueAt path v = some w ∧ leaf ty' w = some k := by
  obtain ⟨k', hk, heq⟩ := Option.map_eq_some_iff.mp (Option.mem_toList.mp h)
  cases heq
  exact ⟨ty, v, rfl, hk⟩

mutual

/-- The path of a leaf leads to it. -/
theorem valueAt_of_mem_leavesOf {path : List PathStep} {k : κ} : ∀ (ty : ArgType) (v : ArgValue),
    (path, k) ∈ leavesOf leaf ty v → ∃ ty' w, valueAt path v = some w ∧ leaf ty' w = some k
  | .res _, v, h => by simp [leavesOf] at h
  | .ptr dir inner nullable, v, h => by
    cases v with
    | ptr pointee =>
      obtain ⟨⟨path', k'⟩, hm, heq⟩ := List.mem_map.mp h
      cases heq
      exact valueAt_of_mem_leavesOf inner pointee hm
    | _ => exact valueAt_of_mem_leaf h
  | .struct fields, v, h => by
    cases v with
    | struct vals =>
      obtain ⟨j, rest, v, rfl, hv, ty', w, hw, hk⟩ := valueAt_of_mem_fieldLeaves 0 fields vals h
      refine ⟨ty', w, ?_, hk⟩
      rw [Nat.zero_add, valueAt, hv]
      exact hw
    | _ => exact valueAt_of_mem_leaf h
  | .const _, _, h | .int _ _, _, h | .flags _ _, _, h | .len _, _, h | .buffer _, _, h
  | .stringConst _, _, h => valueAt_of_mem_leaf h

/-- A path to a leaf of a struct starts at one of its fields. -/
theorem valueAt_of_mem_fieldLeaves {path : List PathStep} {k : κ} :
    ∀ (i : Nat) (fields : List ArgType) (vals : List ArgValue),
    (path, k) ∈ fieldLeaves leaf i fields vals → ∃ j rest v, path = .structField (i + j) :: rest ∧
      vals[j]? = some v ∧ ∃ ty' w, valueAt rest v = some w ∧ leaf ty' w = some k
  | i, f :: fields, v :: vals, h => by
    simp only [fieldLeaves, List.mem_append, List.mem_map] at h
    rcases h with ⟨⟨path', k'⟩, hm, heq⟩ | h
    · cases heq
      exact ⟨0, path', v, rfl, rfl, valueAt_of_mem_leavesOf f v hm⟩
    · obtain ⟨j, rest, w, rfl, hv, hw⟩ := valueAt_of_mem_fieldLeaves (i + 1) fields vals h
      exact ⟨j + 1, rest, w, by rw [Nat.add_right_comm, Nat.add_assoc], hv, hw⟩
  | i, [], vals, h => by simp [fieldLeaves] at h
  | i, f :: fields, [], h => by simp [fieldLeaves] at h

end

/-- A site of a program holds a leaf. -/
theorem holds_of_mem_sites {p : Prog} {s : Site κ} (h : s ∈ sites leaf p) :
    ∃ ty w, s.Holds p w ∧ leaf ty w = some s.kind := by
  obtain ⟨⟨c, i⟩, hc, hm⟩ := List.mem_flatMap.mp h
  obtain ⟨⟨⟨ty, v⟩, j⟩, ha, hm⟩ := List.mem_flatMap.mp hm
  obtain ⟨⟨path, k⟩, hl, rfl⟩ := List.mem_map.mp hm
  obtain ⟨ty', w, hw, hk⟩ := valueAt_of_mem_leavesOf ty v hl
  have hzip := List.getElem?_zip_eq_some.mp (List.mem_zipIdx_iff_getElem?.mp ha)
  have hres : ∀ r, ty ≠ .res r := by
    rintro r rfl
    simp [leavesOf] at hl
  exact ⟨ty', w, ⟨c, ty, v, List.mem_zipIdx_iff_getElem?.mp hc, hzip.1, hres, hzip.2, hw⟩, hk⟩

/-- The walk reaches the value that the path leads to. -/
theorem ensures_navigateMut {f : ArgValue → Rand ArgValue} {w : ArgValue}
    (hf : Ensures (f w) fun _ => True) {path : List PathStep} {v : ArgValue}
    (h : valueAt path v = some w) : Ensures (navigateMut f path v) fun _ => True := by
  induction path generalizing v with
  | nil =>
    cases h
    exact hf
  | cons step path ih =>
    cases step with
    | ptrInner =>
      cases v with
      | ptr v => exact ensures_bind (ih h) fun _ _ => ensures_pure trivial
      | _ => exact ih h
    | structField i =>
      cases v with
      | struct vals =>
        obtain ⟨v, hv, hw⟩ := Option.bind_eq_some_iff.mp h
        refine ensures_bind (ensures_index (List.getElem?_eq_some_iff.mp hv).1) fun v' hv' => ?_
        rw [hv, Option.some.injEq] at hv'
        subst hv'
        exact ensures_bind (ih hw) fun _ _ => ensures_pure trivial
      | _ => exact ih h

/-- A change of data keeps a program in order. -/
theorem ensures_changeAt {sys : List SyscallDesc} {p : Prog} (hp : p.Ok sys) {s : Site κ}
    {w : ArgValue} (hs : s.Holds p w) {f : ArgValue → Rand ArgValue}
    (hf : Ensures (f w) fun _ => True) : Ensures (changeAt p s f) (·.Ok sys) := by
  obtain ⟨c, ty, v, hc, hty, hres, hv, hw⟩ := hs
  refine ensures_bind (ensures_getArg hp hc hty) fun v' hv' => ?_
  rw [hv, Option.some.injEq] at hv'
  subst hv'
  refine ensures_bind (ensures_navigateMut hf hw) fun v' _ => ?_
  exact ensures_setArg_data hp hc hty hres v'

end

/-! ## Batch mutation -/

/-- What a leaf is, for its mutation. -/
inductive LeafKind where
  | flags (vals : List U32) (bitmask : Bool)
  | const
  | int (bits : U8)
  | len
  | bytes

/-- The leaves that batch mutation changes, with their weights. -/
def batchLeaf : ArgType → ArgValue → Option (LeafKind × Nat)
  | .flags vals bitmask, .imm _ => some (.flags vals bitmask, 30)
  | .const _, .imm _ => some (.const, 15)
  | .int bits _, .imm _ => some (.int bits, 20)
  | .len _, .imm _ => some (.len, 20)
  | .buffer _, .bytes _ => some (.bytes, 25)
  | .stringConst _, .bytes _ => some (.bytes, 25)
  | _, _ => none

def collectAllLeaves (p : Prog) : List (Site (LeafKind × Nat)) := sites batchLeaf p

def rerollFlags (vals : List U32) (bitmask : Bool) : Rand U64 :=
  if vals.isEmpty then pure 0
  else do
    let v ← (if !bitmask then pick vals else flagSubset vals)
    pure (v.setWidth 64)

def mutateScalarBits (v : U64) (bits : U8) : Rand U64 := do
  let choice ← below 4
  let nv ← (match choice with
    | 0 => pickInterestingInt bits
    | 1 => do
      let c ← pickDictConst
      pure (c.setWidth 64)
    | 2 => do
      let x ← next
      pure (v ^^^ (1#64 <<< min (x.toNat % max bits.toNat 1) 63))
    | _ => nextU64 : Rand U64)
  pure (maskToBits nv bits)

/-- Change one byte, rather one of the first four. -/
def mutateBytes (b : List U8) : Rand (List U8) :=
  if b.isEmpty then pure b
  else do
    let head := min 4 b.length
    let front ← chanceIf (b.length > head) 70
    let idx ← below (if front then head else b.length)
    let choice ← below 3
    let old ← index b idx
    let byte ← (match choice with
      | 0 => do
        let x ← next
        pure (x.setWidth 8)
      | 1 => pure (old ^^^ 0xFF)
      | _ => pure (old + 1) : Rand U8)
    assign b idx byte

def applyLeafMutation : LeafKind → ArgValue → Rand ArgValue
  | .flags vals bitmask, .imm v =>
    if vals.isEmpty then pure (.imm v)
    else do
      let toggle ← chance 60
      if toggle then do
        let bit ← pick vals
        pure (.imm (v ^^^ bit.setWidth 64))
      else do
        let nv ← rerollFlags vals bitmask
        pure (.imm nv)
  | .const, .imm v | .len, .imm v => do
    let nv ← mutateScalarBits v 32
    pure (.imm nv)
  | .int bits, .imm v => do
    let nv ← mutateScalarBits v bits
    pure (.imm nv)
  | .bytes, .bytes b => do
    let b' ← mutateBytes b
    pure (.bytes b')
  | _, v => pure v

/-- The site that a number below the total weight falls on, or else the last. -/
def chooseSite {κ : Type} : Nat → List (Site (κ × Nat)) → Option (Site (κ × Nat))
  | _, [] => none
  | r, s :: rest =>
    if r < s.kind.2 then some s
    else (chooseSite (r - s.kind.2) rest).or (some s)

def mutateDataInPlace (p : Prog) : Rand Prog :=
  let leaves := collectAllLeaves p
  if leaves.isEmpty then pure p
  else do
    let r ← below (max ((leaves.map (·.kind.2)).sum % 2 ^ 32) 1)
    let s ← expect (chooseSite r leaves)
    changeAt p s (applyLeafMutation s.kind.1)

def mutateData (base : Prog) : Rand Prog := mutateDataInPlace base

/-- `n` siblings of a program, each with one to three changes. -/
def mutateBatch (parent : Prog) (n : Nat) : Rand (List Prog) :=
  collect (do
    let rounds ← below 3
    loop (fun _ => mutateDataInPlace) 0 (1 + rounds) parent) n

/-- Flags can always be rerolled. -/
theorem ensures_rerollFlags (vals : List U32) (bitmask : Bool) :
    Ensures (rerollFlags vals bitmask) fun _ => True := by
  refine ensures_ite (fun _ => ensures_pure trivial) fun hne => ?_
  refine ensures_bind (P := fun _ => True) ?_ fun _ _ => ensures_pure trivial
  refine ensures_ite (fun _ => ?_) fun _ => ensures_flagSubset vals
  exact (ensures_pick (by simpa using hne)).mono fun _ _ => trivial

/-- A scalar can always be mutated. -/
theorem ensures_mutateScalarBits (v : U64) (bits : U8) :
    Ensures (mutateScalarBits v bits) fun _ => True := by
  refine ensures_bind (ensures_below 4) fun choice _ => ?_
  refine ensures_bind (P := fun _ => True) ?_ fun _ _ => ensures_pure trivial
  split
  · exact ensures_pickInterestingInt bits
  · exact ensures_bind ensures_pickDictConst fun _ _ => ensures_pure trivial
  · exact ensures_bind ensures_next fun _ _ => ensures_pure trivial
  · exact ensures_nextU64

/-- So can bytes. -/
theorem ensures_mutateBytes (b : List U8) : Ensures (mutateBytes b) fun _ => True := by
  refine ensures_ite (fun _ => ensures_pure trivial) fun hne => ?_
  have hpos : 0 < b.length := List.length_pos_iff.mpr (by simpa using hne)
  refine ensures_bind (ensures_chanceIf _ _) fun front _ => ?_
  refine ensures_bind (ensures_below _) fun idx hidx => ?_
  have hlt : idx < b.length := by
    split at hidx <;> omega
  refine ensures_bind (ensures_below 3) fun choice _ => ?_
  refine ensures_bind (ensures_index hlt) fun old _ => ?_
  refine ensures_bind (P := fun _ => True) ?_ fun byte _ =>
    (ensures_assign hlt byte).mono fun _ _ => trivial
  split
  · exact ensures_bind ensures_next fun _ _ => ensures_pure trivial
  · exact ensures_pure trivial
  · exact ensures_pure trivial

/-- So can a leaf of any kind. -/
theorem ensures_applyLeafMutation (kind : LeafKind) (v : ArgValue) :
    Ensures (applyLeafMutation kind v) fun _ => True := by
  unfold applyLeafMutation
  split
  next vals bitmask v =>
    refine ensures_ite (fun _ => ensures_pure trivial) fun hne => ?_
    refine ensures_chance_bind fun toggle => ensures_ite (fun _ => ?_) fun _ => ?_
    · exact ensures_bind (ensures_pick (by simpa using hne)) fun _ _ => ensures_pure trivial
    · exact ensures_bind (ensures_rerollFlags vals bitmask) fun _ _ => ensures_pure trivial
  · exact ensures_bind (ensures_mutateScalarBits _ _) fun _ _ => ensures_pure trivial
  · exact ensures_bind (ensures_mutateScalarBits _ _) fun _ _ => ensures_pure trivial
  · exact ensures_bind (ensures_mutateScalarBits _ _) fun _ _ => ensures_pure trivial
  · exact ensures_bind (ensures_mutateBytes _) fun _ _ => ensures_pure trivial
  · exact ensures_pure trivial

/-- A site is chosen whenever there is one. -/
theorem chooseSite_mem {κ : Type} {l : List (Site (κ × Nat))} (hne : l ≠ []) (r : Nat) :
    ∃ s ∈ l, chooseSite r l = some s := by
  induction l generalizing r with
  | nil => exact absurd rfl hne
  | cons s rest ih =>
    rw [chooseSite]
    split
    · exact ⟨s, List.mem_cons_self, rfl⟩
    · by_cases hrest : rest = []
      · subst hrest
        exact ⟨s, List.mem_cons_self, rfl⟩
      · obtain ⟨s', hm, hs'⟩ := ih hrest (r - s.kind.2)
        exact ⟨s', List.mem_cons_of_mem _ hm, by rw [hs', Option.some_or]⟩

section
variable {sys : List SyscallDesc} {p : Prog}

/-- Mutating data in place keeps the program in order. -/
theorem ensures_mutateDataInPlace (hp : p.Ok sys) :
    Ensures (mutateDataInPlace p) (·.Ok sys) := by
  refine ensures_ite (fun _ => ensures_pure hp) fun hne => ?_
  refine ensures_bind (ensures_below _) fun r _ => ?_
  obtain ⟨s, hs, hchosen⟩ := chooseSite_mem (by simpa using hne) r
  refine ensures_bind (ensures_expect hchosen) fun s' hs' => ?_
  subst hs'
  obtain ⟨ty, w, hw, -⟩ := holds_of_mem_sites hs
  exact ensures_changeAt hp hw (ensures_applyLeafMutation _ w)

/-- So does mutating data. -/
theorem ensures_mutateData (hp : p.Ok sys) : Ensures (mutateData p) (·.Ok sys) :=
  ensures_mutateDataInPlace hp

/-- A batch has its size, and every sibling is in order. -/
theorem ensures_mutateBatch (hp : p.Ok sys) (n : Nat) :
    Ensures (mutateBatch p n) fun siblings => siblings.length = n ∧ ∀ q ∈ siblings, q.Ok sys := by
  refine ensures_collect ?_ n
  refine ensures_bind (ensures_below 3) fun rounds _ => ?_
  exact ensures_loop (I := fun _ => Prog.Ok sys) (1 + rounds)
    (fun _ q _ _ hq => ensures_mutateDataInPlace hq) hp

end

/-! ## Comparison-guided mutation -/

def MAX_CANDIDATES : Nat := 256

def MAX_UNIQUE_PAIRS : Nat := 128

def BUFFER_SCAN_CAP : Nat := 256

/-- What a candidate substitutes. -/
inductive Replacement where
  | imm (v : U32)
  | bytes (off : Nat) (bytes : List U8)

/-- Every immediate and every byte string that is no reference; true for a byte string. -/
def cmplogLeaf : ArgType → ArgValue → Option Bool
  | _, .imm _ => some false
  | _, .bytes _ => some true
  | _, _ => none

def near (x : U32) : List U32 := [x, x + 1, x - 1]

def nearMasked (x mask : U32) : List U32 := (near x).map (· &&& mask)

/-- The substitutions for an immediate: where it is one side of a pair, the other side. -/
def scanImm (v : U32) : List (U32 × U32) → List Replacement → Nat → List Replacement
  | [], out, _ => out
  | (a, b) :: pairs, out, found =>
    let out := if v = a ∧ b ≠ a then out ++ (near b).map .imm else out
    let out := if v = b ∧ a ≠ b then out ++ (near a).map .imm else out
    if found + out.length ≥ MAX_CANDIDATES then out else scanImm v pairs out found

/-- The windows of a buffer: four bytes wide, then two, then one, each with its offset. -/
def windows (scanLen : Nat) : List (Nat × Nat) :=
  [4, 2, 1].flatMap fun width =>
    if scanLen < width then [] else (List.range (scanLen - width + 1)).map fun off => (width, off)

/-- The substitutions for one window. -/
def scanWindow (buf : List U8) (width off : Nat) (pairs : List (U32 × U32)) : List Replacement :=
  let mask : U32 := if width = 4 then -1 else (1#32 <<< (8 * width)) - 1
  let cur := leValue ((buf.drop off).take width)
  pairs.flatMap fun p =>
    let aw := p.1 &&& mask
    let bw := p.2 &&& mask
    (if cur = aw ∧ bw ≠ aw then
      (nearMasked bw mask).map fun v => Replacement.bytes off (leBytes v width) else []) ++
    (if cur = bw ∧ aw ≠ bw then
      (nearMasked aw mask).map fun v => Replacement.bytes off (leBytes v width) else [])

/-- The substitutions for a byte string, until there are enough. -/
def scanBytes (buf : List U8) (pairs : List (U32 × U32)) :
    List (Nat × Nat) → List Replacement → Nat → List Replacement
  | [], out, _ => out
  | (width, off) :: rest, out, found =>
    let out := out ++ scanWindow buf width off pairs
    if found + out.length ≥ MAX_CANDIDATES then out else scanBytes buf pairs rest out found

/-- The substitutions for a leaf, after `found` others. -/
def scanLeaf (isBytes : Bool) (leaf : ArgValue) (pairs : List (U32 × U32)) (found : Nat) :
    List Replacement :=
  match isBytes, leaf with
  | true, .bytes b => scanBytes b pairs (windows (min b.length BUFFER_SCAN_CAP)) [] found
  | false, .imm v => scanImm (v.setWidth 32) pairs [] found
  | _, _ => []

/-- The candidates of all the leaves, until there are enough. -/
def scanSites (p : Prog) (pairs : List (U32 × U32)) :
    List (Site Bool) → List (Site Replacement) → Rand (List (Site Replacement))
  | [], out => pure out
  | s :: rest, out => do
    let v ← getArg p s.callIdx s.argIdx
    let leaf ← navigate v s.path
    let out := out ++ (scanLeaf s.kind leaf pairs out.length).map fun r =>
      ⟨s.callIdx, s.argIdx, s.path, r⟩
    if out.length ≥ MAX_CANDIDATES then pure out else scanSites p pairs rest out

def applyReplacement : Replacement → ArgValue → Rand ArgValue
  | .imm v, .imm _ => pure (.imm (v.setWidth 64))
  | .bytes off bytes, .bytes buf =>
    expect (if off ≤ buf.length then some (.bytes (copyAt buf off bytes)) else none)
  | _, v => pure v

/-- The pairs without repetition, in order, and not too many. -/
def uniquePairs (pairs : List (U32 × U32)) : List (U32 × U32) :=
  ((pairs.mergeSort fun p q => p.1 < q.1 ∨ p.1 = q.1 ∧ p.2 ≤ q.2).destutter (· ≠ ·)).take
    MAX_UNIQUE_PAIRS

def mutateCmplog (base : Prog) (pairs : List (U32 × U32)) : Rand (Option Prog) :=
  if pairs.isEmpty then pure none
  else do
    let candidates ← scanSites base (uniquePairs pairs) (sites cmplogLeaf base) []
    if candidates.isEmpty then pure none
    else do
      let idx ← below candidates.length
      let c ← index candidates idx
      let p ← changeAt base c (applyReplacement c.kind)
      pure (some p)

/-- A substitution fits a value when its offset lies in the buffer. -/
def Replacement.Fits : Replacement → ArgValue → Prop
  | .bytes off _, .bytes buf => off ≤ buf.length
  | _, _ => True

/-- A replacement that fits can be applied. -/
theorem ensures_applyReplacement {r : Replacement} {v : ArgValue} (h : r.Fits v) :
    Ensures (applyReplacement r v) fun _ => True := by
  unfold applyReplacement
  split
  · exact ensures_pure trivial
  · exact (ensures_expect (if_pos h)).mono fun _ _ => trivial
  · exact ensures_pure trivial

/-- A window starts in the buffer. -/
theorem fits_of_mem_windows {n width off : Nat} (h : (width, off) ∈ windows n) : off ≤ n := by
  obtain ⟨w, -, hw⟩ := List.mem_flatMap.mp h
  split at hw
  · cases hw
  · obtain ⟨o, ho, heq⟩ := List.mem_map.mp hw
    cases heq
    have := List.mem_range.mp ho
    omega

/-- A replacement for a window fits the buffer. -/
theorem fits_of_mem_scanWindow {buf : List U8} {width off : Nat} {pairs : List (U32 × U32)}
    (hoff : off ≤ buf.length) {r : Replacement} (h : r ∈ scanWindow buf width off pairs) :
    r.Fits (.bytes buf) := by
  obtain ⟨p, -, hr⟩ := List.mem_flatMap.mp h
  have hside {c : Prop} [Decidable c] {x mask : U32}
      (hr : r ∈ if c then (nearMasked x mask).map fun v =>
        Replacement.bytes off (leBytes v width) else []) : r.Fits (.bytes buf) := by
    split at hr
    · obtain ⟨v, -, rfl⟩ := List.mem_map.mp hr
      exact hoff
    · cases hr
  rcases List.mem_append.mp hr with hr | hr
  · exact hside hr
  · exact hside hr

/-- So do all of a buffer. -/
theorem fits_of_mem_scanBytes {buf : List U8} {pairs : List (U32 × U32)} {found : Nat}
    {r : Replacement} : ∀ (ws : List (Nat × Nat)) (out : List Replacement),
    (∀ w ∈ ws, w.2 ≤ buf.length) → (∀ r ∈ out, r.Fits (.bytes buf)) →
    r ∈ scanBytes buf pairs ws out found → r.Fits (.bytes buf)
  | [], out, _, hout, h => hout r h
  | (width, off) :: rest, out, hws, hout, h => by
    have hout' : ∀ r ∈ out ++ scanWindow buf width off pairs, r.Fits (.bytes buf) := by
      intro r hr
      rcases List.mem_append.mp hr with hr | hr
      · exact hout r hr
      · exact fits_of_mem_scanWindow (hws _ List.mem_cons_self) hr
    simp only [scanBytes] at h
    split at h
    · exact hout' r h
    · exact fits_of_mem_scanBytes rest _ (fun w hw => hws w (List.mem_cons_of_mem _ hw)) hout' h

/-- Every substitution found for a leaf fits it. -/
theorem fits_of_mem_scanLeaf {isBytes : Bool} {leaf : ArgValue} {pairs : List (U32 × U32)}
    {found : Nat} {r : Replacement} (h : r ∈ scanLeaf isBytes leaf pairs found) : r.Fits leaf := by
  unfold scanLeaf at h
  split at h
  next b =>
    refine fits_of_mem_scanBytes _ _ (fun w hw => ?_) (by simp) h
    exact Nat.le_trans (fits_of_mem_windows hw) (Nat.min_le_left _ _)
  · cases r <;> trivial
  · cases h

section
variable {sys : List SyscallDesc} {p : Prog}

/-- Every candidate fits the value at its site. -/
theorem ensures_scanSites (hp : p.Ok sys) (pairs : List (U32 × U32)) : ∀ (l : List (Site Bool))
    (out : List (Site Replacement)), (∀ s ∈ l, ∃ w, s.Holds p w) →
    (∀ c ∈ out, ∃ w, c.Holds p w ∧ c.kind.Fits w) →
    Ensures (scanSites p pairs l out) fun found => ∀ c ∈ found, ∃ w, c.Holds p w ∧ c.kind.Fits w
  | [], out, _, hout => ensures_pure hout
  | s :: rest, out, hl, hout => by
    obtain ⟨w, hs⟩ := hl s List.mem_cons_self
    obtain ⟨c, ty, v, hc, hty, hres, hv, hw⟩ := id hs
    refine ensures_bind (ensures_getArg hp hc hty) fun v' hv' => ?_
    rw [hv, Option.some.injEq] at hv'
    subst hv'
    refine ensures_bind (ensures_expect hw) fun w' hw' => ?_
    subst hw'
    have hout' : ∀ c ∈ out ++ (scanLeaf s.kind w' pairs out.length).map fun r =>
        (⟨s.callIdx, s.argIdx, s.path, r⟩ : Site Replacement), ∃ w, c.Holds p w ∧ c.kind.Fits w := by
      intro c hc
      rcases List.mem_append.mp hc with hc | hc
      · exact hout c hc
      · obtain ⟨r, hr, rfl⟩ := List.mem_map.mp hc
        exact ⟨w', hs, fits_of_mem_scanLeaf hr⟩
    refine ensures_ite (fun _ => ensures_pure hout') fun _ => ?_
    exact ensures_scanSites hp pairs rest _ (fun s hs => hl s (List.mem_cons_of_mem _ hs)) hout'

/-- A substitution keeps the program in order. -/
theorem ensures_mutateCmplog (hp : p.Ok sys) (pairs : List (U32 × U32)) :
    Ensures (mutateCmplog p pairs) fun o => ∀ q ∈ o, q.Ok sys := by
  have hnone : Ensures (pure none : Rand (Option Prog)) fun o => ∀ q ∈ o, q.Ok sys :=
    ensures_pure fun q hq => by cases hq
  refine ensures_ite (fun _ => hnone) fun _ => ?_
  refine ensures_bind (ensures_scanSites hp _ _ _ (fun s hs => ?_) (by simp)) fun cands hcands => ?_
  · obtain ⟨ty, w, hw, -⟩ := holds_of_mem_sites hs
    exact ⟨w, hw⟩
  refine ensures_ite (fun _ => hnone) fun hne => ?_
  have hpos : 0 < cands.length := List.length_pos_iff.mpr (by simpa using hne)
  refine ensures_bind (ensures_below _) fun idx hidx => ?_
  refine ensures_bind (ensures_index (hidx hpos)) fun c hc => ?_
  obtain ⟨w, hw, hfits⟩ := hcands c (List.mem_of_getElem? hc)
  refine ensures_bind (ensures_changeAt hp hw (ensures_applyReplacement hfits)) fun q hq => ?_
  refine ensures_pure fun q' hq' => ?_
  cases hq'
  exact hq

end

/-! ## Every generator and mutator -/

section
variable {sys : List SyscallDesc}

/-- Every generated program, and every mutation of a well-formed program of one to eight calls, is a
well-formed program of one to eight calls, and no draw on the way panics. -/
theorem generators_and_mutators_keep_threading (hs : Drawable sys) :
    Ensures (generate sys) (·.Ok sys) ∧ ∀ base : Prog, base.Ok sys →
      Ensures (mutate sys base) (·.Ok sys) ∧
      Ensures (mutateData base) (·.Ok sys) ∧
      (∀ n, Ensures (mutateBatch base n) fun siblings =>
        siblings.length = n ∧ ∀ q ∈ siblings, q.Ok sys) ∧
      (∀ pairs, Ensures (mutateCmplog base pairs) fun o => ∀ q ∈ o, q.Ok sys) ∧
      Ensures (prependFailInject base) (·.Ok sys) := by
  refine ⟨ensures_generate hs, fun base hbase => ⟨ensures_mutate hs hbase, ?_, ?_, ?_, ?_⟩⟩
  · exact ensures_mutateData hbase
  · exact ensures_mutateBatch hbase
  · exact ensures_mutateCmplog hbase
  · exact ensures_prependFailInject hs hbase

end

/-- The index of `pipe2`. -/
theorem pipe2_lt : 10 < SYSCALLS.length := by decide

/-- The index of `close`. -/
theorem close_lt : 3 < SYSCALLS.length := by decide

/-- `pipe2` and a `close` of the second end. -/
def pipeProg : Prog where
  calls :=
    [⟨SYSCALLS.get ⟨10, pipe2_lt⟩, [.ptr (.bytes (List.replicate 8 0)), .imm 0]⟩,
     ⟨SYSCALLS.get ⟨3, close_lt⟩, [.res (.produced 0 1)]⟩]

/-- The program of the case is in order. -/
theorem ok_pipeProg : pipeProg.Ok SYSCALLS where
  nonempty := by decide
  bounded := by decide
  wellFormed := by decide
  descs := by
    intro c hc
    simp only [pipeProg, List.mem_cons, List.not_mem_nil, or_false] at hc
    rcases hc with rfl | rfl
    · exact .inl (List.get_mem _ _)
    · exact .inl (List.get_mem _ _)

/-- The table of the source, and a program of two calls. -/
theorem generators_and_mutators_keep_threading_SYSCALLS :
    Ensures (generate SYSCALLS) (·.Ok SYSCALLS) ∧ pipeProg.Ok SYSCALLS ∧
      Ensures (mutate SYSCALLS pipeProg) (·.Ok SYSCALLS) := by
  obtain ⟨hgen, hmut⟩ := generators_and_mutators_keep_threading drawable_SYSCALLS
  exact ⟨hgen, ok_pipeProg, (hmut pipeProg ok_pipeProg).1⟩

end FuzzSoft
