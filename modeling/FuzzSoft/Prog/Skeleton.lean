import FuzzSoft.Prog.Slots

/-!
# Skeletons

What batch mutation holds fixed: the calls, the references, the shape of the values and the lengths of
the byte strings. The skeleton of a program is the program with the data blanked. Lowering takes its
layout from the skeleton alone, so siblings have the same syscall numbers, fixups and pointers
(`siblings_share_layout`).
-/

namespace FuzzSoft

open Lib Gen Rng

/-! ## The skeleton -/

/-- The types of data: neither references nor pointers. -/
def ArgType.isData : ArgType → Bool
  | .res _ | .ptr _ _ _ => false
  | _ => true

mutual

/-- A value with the data blanked: immediates, and the contents of byte strings. References and NULL
pointers stay. -/
def skeleton : ArgType → ArgValue → ArgValue
  | .ptr _ inner _, .ptr pointee => .ptr (skeleton inner pointee)
  | .struct fields, .struct vals => .struct (skeletonFields fields vals)
  | .res _, v => v
  | .ptr _ _ _, .imm v => .imm v
  | _, .imm _ => .imm 0
  | _, .bytes b => .bytes (List.replicate b.length 0)
  | _, v => v

def skeletonFields : List ArgType → List ArgValue → List ArgValue
  | ty :: tys, v :: vals => skeleton ty v :: skeletonFields tys vals
  | _, vals => vals

end

def TypedCall.skeleton (c : TypedCall) : TypedCall :=
  { c with args := skeletonFields c.desc.args c.args }

/-- The program with the data blanked. -/
def Prog.skeleton (p : Prog) : Prog := ⟨p.calls.map TypedCall.skeleton⟩

/-- Blanking looks at one field at a time. -/
theorem skeletonFields_set {ty : ArgType} {v v' : ArgValue} (h : skeleton ty v' = skeleton ty v) :
    ∀ {tys : List ArgType} {vals : List ArgValue} {j : Nat}, tys[j]? = some ty → vals[j]? = some v →
      skeletonFields tys (vals.set j v') = skeletonFields tys vals
  | [], _, _, hty, _ => by simp at hty
  | _ :: _, [], _, _, hv => by simp at hv
  | ty' :: tys, u :: vals, 0, hty, hv => by
    cases hty
    cases hv
    rw [List.set_cons_zero, skeletonFields, skeletonFields, h]
  | ty' :: tys, u :: vals, j + 1, hty, hv => by
    have ih := skeletonFields_set h (show tys[j]? = some ty from hty) (show vals[j]? = some v from hv)
    rw [List.set_cons_succ, skeletonFields, skeletonFields, ih]

/-- A change that keeps the skeleton of a slot keeps that of the value around it. -/
theorem skeleton_putAt {path : List PathStep} {ty ty' : ArgType} {v w w' : ArgValue}
    (h : typedAt path ty v = some (ty', w)) (hw : skeleton ty' w' = skeleton ty' w) :
    skeleton ty (putAt w' path v) = skeleton ty v := by
  induction path generalizing ty v with
  | nil =>
    cases h
    exact hw
  | cons step path ih =>
    rcases typedAt_cons h with ⟨_, _, _, v', rfl, rfl, rfl, hw⟩ |
      ⟨i, _, vals, _, v', rfl, rfl, rfl, hf, hv, hw⟩
    · rw [putAt, skeleton, skeleton, ih hw]
    · rw [putAt, skeleton, skeleton, modify_of_getElem? hv, skeletonFields_set (ih hw) hf hv]

/-- A change that keeps the skeleton of a slot keeps that of the program. -/
theorem skeleton_put {p : Prog} {i j : Nat} {path : List PathStep} {ty : ArgType} {w w' : ArgValue}
    (h : p.slot? i j path = some (ty, w)) (hw : skeleton ty w' = skeleton ty w) :
    (p.put i j path w').skeleton = p.skeleton := by
  obtain ⟨c, ty', v, hc, hty, hv, hslot⟩ := slot?_eq_some.mp h
  obtain ⟨hi, rfl⟩ := List.getElem?_eq_some_iff.mp hc
  have hargs := skeletonFields_set (skeleton_putAt hslot hw) hty hv
  simp only [Prog.skeleton, Prog.put, modify_of_getElem? hc, modify_of_getElem? hv, List.map_set]
  congr 1
  refine List.ext_getElem? fun k => ?_
  rw [List.getElem?_set]
  split
  next hk =>
    subst hk
    rw [List.getElem?_map, hc, if_pos (by simpa using hi)]
    simp only [TypedCall.skeleton, hargs, Option.map_some]
  · rfl

/-- A field of a skeleton is that of the value. -/
theorem skeletonFields_getElem? {j : Nat} {ty : ArgType} {v : ArgValue} :
    ∀ {tys : List ArgType} {vals : List ArgValue}, tys[j]? = some ty → vals[j]? = some v →
      (skeletonFields tys vals)[j]? = some (skeleton ty v) := by
  induction j with
  | zero =>
    intro tys vals hty hv
    cases tys with
    | nil => cases hty
    | cons t tys =>
      cases vals with
      | nil => cases hv
      | cons u vals =>
        cases hty
        cases hv
        rfl
  | succ j ih =>
    intro tys vals hty hv
    cases tys with
    | nil => cases hty
    | cons t tys =>
      cases vals with
      | nil => cases hv
      | cons u vals => exact ih hty hv

/-- The skeleton of a value has the skeletons of its slots. -/
theorem typedAt_skeleton {path : List PathStep} {ty ty' : ArgType} {v w : ArgValue}
    (h : typedAt path ty v = some (ty', w)) :
    typedAt path ty (skeleton ty v) = some (ty', skeleton ty' w) := by
  induction path generalizing ty v with
  | nil =>
    cases h
    rfl
  | cons step path ih =>
    rcases typedAt_cons h with ⟨_, _, _, v', rfl, rfl, rfl, hw⟩ |
      ⟨i, fields, vals, f, v', rfl, rfl, rfl, hf, hv, hw⟩
    · exact ih hw
    · have hz : (fields.zip (skeletonFields fields vals))[i]? = some (f, skeleton f v') :=
        List.getElem?_zip_eq_some.mpr ⟨hf, skeletonFields_getElem? hf hv⟩
      rw [skeleton, typedAt, hz, Option.bind_some]
      exact ih hw

/-- A slot of a skeleton is that of the program. -/
theorem slot?_skeleton {p : Prog} {i j : Nat} {path : List PathStep} {ty : ArgType} {w : ArgValue}
    (h : p.slot? i j path = some (ty, w)) :
    p.skeleton.slot? i j path = some (ty, skeleton ty w) := by
  obtain ⟨c, ty', v, hc, hty, hv, hw⟩ := slot?_eq_some.mp h
  refine slot?_eq_some.mpr ⟨c.skeleton, ty', skeleton ty' v, ?_, hty,
    skeletonFields_getElem? hty hv, typedAt_skeleton hw⟩
  rw [Prog.skeleton, List.getElem?_map, hc]
  rfl

/-! ## Mutation keeps the skeleton -/

/-- A mutation of bytes keeps their number. -/
theorem ensures_mutateBytes_length (b : List U8) :
    Ensures (mutateBytes b) fun b' => b'.length = b.length := by
  refine ensures_ite (fun _ => ensures_pure rfl) fun hne => ?_
  have hpos : 0 < b.length := List.length_pos_iff.mpr (by simpa using hne)
  refine ensures_bind (ensures_chanceIf _ _) fun front _ => ?_
  refine ensures_bind (ensures_below _) fun idx hidx => ?_
  have hlt : idx < b.length := by
    split at hidx <;> omega
  refine ensures_bind (ensures_below 3) fun choice _ => ?_
  refine ensures_bind (ensures_index hlt) fun old _ => ?_
  refine ensures_bind (P := fun _ => True) ?_ fun byte _ =>
    (ensures_assign hlt byte).mono fun b' hb' => by rw [hb', List.length_set]
  split
  · exact ensures_bind ensures_next fun _ _ => ensures_pure trivial
  · exact ensures_pure trivial
  · exact ensures_pure trivial

/-- An immediate of a type of data has no skeleton but its type. -/
theorem skeleton_imm {ty : ArgType} (h : ty.isData = true) (v : U64) : skeleton ty (.imm v) = .imm 0 := by
  cases ty <;> first | rfl | cases h

/-- Of a byte string that is no reference, the skeleton has the length. -/
theorem skeleton_bytes {ty : ArgType} (h : IsLeaf ty (.bytes [])) (b : List U8) :
    skeleton ty (.bytes b) = .bytes (List.replicate b.length 0) := by
  cases ty <;> first | rfl | exact h.elim

/-- What a leaf of batch mutation is. -/
theorem batchLeaf_cases {ty : ArgType} {w : ArgValue} {k : LeafKind × Nat}
    (h : batchLeaf ty w = some k) :
    (ty.isData = true ∧ ∃ v, w = .imm v) ∨
      k.1 = .bytes ∧ IsLeaf ty (.bytes []) ∧ ∃ b, w = .bytes b := by
  unfold batchLeaf at h
  split at h <;> cases h
  · exact .inl ⟨rfl, _, rfl⟩
  · exact .inl ⟨rfl, _, rfl⟩
  · exact .inl ⟨rfl, _, rfl⟩
  · exact .inl ⟨rfl, _, rfl⟩
  · exact .inr ⟨rfl, trivial, _, rfl⟩
  · exact .inr ⟨rfl, trivial, _, rfl⟩

/-- An immediate stays one. -/
theorem ensures_applyLeafMutation_imm (kind : LeafKind) (v : U64) :
    Ensures (applyLeafMutation kind (.imm v)) fun w' => ∃ v', w' = .imm v' := by
  unfold applyLeafMutation
  split
  next vals bitmask v' heq =>
    refine ensures_ite (fun _ => ensures_pure ⟨_, rfl⟩) fun hne => ?_
    refine ensures_chance_bind fun toggle => ensures_ite (fun _ => ?_) fun _ => ?_
    · exact ensures_bind (ensures_pick (by simpa using hne)) fun _ _ => ensures_pure ⟨_, rfl⟩
    · exact ensures_bind (ensures_rerollFlags vals bitmask) fun _ _ => ensures_pure ⟨_, rfl⟩
  · exact ensures_bind (ensures_mutateScalarBits _ _) fun _ _ => ensures_pure ⟨_, rfl⟩
  · exact ensures_bind (ensures_mutateScalarBits _ _) fun _ _ => ensures_pure ⟨_, rfl⟩
  · exact ensures_bind (ensures_mutateScalarBits _ _) fun _ _ => ensures_pure ⟨_, rfl⟩
  next heq => cases heq
  · exact ensures_pure ⟨v, rfl⟩

/-- The mutation of a leaf keeps its skeleton. -/
theorem ensures_applyLeafMutation_skeleton {ty : ArgType} {w : ArgValue} {k : LeafKind × Nat}
    (h : batchLeaf ty w = some k) :
    Ensures (applyLeafMutation k.1 w) fun w' => skeleton ty w' = skeleton ty w := by
  rcases batchLeaf_cases h with ⟨hty, v, rfl⟩ | ⟨hk, hty, b, rfl⟩
  · refine (ensures_applyLeafMutation_imm k.1 v).mono fun w' hw' => ?_
    obtain ⟨v', rfl⟩ := hw'
    rw [skeleton_imm hty, skeleton_imm hty]
  · rw [hk]
    refine ensures_bind (ensures_mutateBytes_length b) fun b' hb' => ensures_pure ?_
    rw [skeleton_bytes hty, skeleton_bytes hty, hb']

/-- A change of a slot that keeps its skeleton keeps that of the program. -/
theorem ensures_changeAt_skeleton {κ : Type} {p : Prog} {s : Site κ} {ty : ArgType} {w : ArgValue}
    (h : p.slot? s.callIdx s.argIdx s.path = some (ty, w)) {f : ArgValue → Rand ArgValue}
    (hf : Ensures (f w) fun w' => skeleton ty w' = skeleton ty w) :
    Ensures (changeAt p s f) fun q => q.skeleton = p.skeleton := by
  intro rng
  obtain ⟨w', rng', hw', hsk⟩ := hf rng
  refine ⟨_, rng', ?_, skeleton_put h hsk⟩
  rw [changeAt_eq h, hw']
  rfl

/-- A mutation in place keeps the skeleton. -/
theorem ensures_mutateDataInPlace_skeleton (p : Prog) :
    Ensures (mutateDataInPlace p) fun q => q.skeleton = p.skeleton := by
  refine ensures_ite (fun _ => ensures_pure rfl) fun hne => ?_
  refine ensures_bind (ensures_below _) fun r _ => ?_
  obtain ⟨s, hs, hchosen⟩ := chooseSite_mem (by simpa using hne) r
  refine ensures_bind (ensures_expect hchosen) fun s' hs' => ?_
  subst hs'
  obtain ⟨ty, w, hslot, -, hk⟩ := mem_sites.mp hs
  exact ensures_changeAt_skeleton hslot (ensures_applyLeafMutation_skeleton hk)

/-- The siblings of a program have its skeleton. -/
theorem ensures_mutateBatch_skeleton (parent : Prog) (n : Nat) :
    Ensures (mutateBatch parent n) fun siblings =>
      siblings.length = n ∧ ∀ q ∈ siblings, q.skeleton = parent.skeleton := by
  refine ensures_collect (ensures_bind (ensures_below 3) fun rounds _ => ?_) n
  exact ensures_loop (I := fun _ q => q.skeleton = parent.skeleton) (1 + rounds)
    (fun _ q _ _ hq => (ensures_mutateDataInPlace_skeleton q).mono fun _ h => h.trans hq) rfl

/-! ## Lowering looks at the skeleton -/

mutual

/-- The size and alignment are those of the skeleton. -/
theorem valueSizeAlign_skeleton : ∀ (ty : ArgType) (v : ArgValue),
    valueSizeAlign ty (skeleton ty v) = valueSizeAlign ty v
  | .struct fields, v => by
    cases v with
    | struct vals => simp only [skeleton, valueSizeAlign, layoutFrom_skeleton fields vals]
    | _ => rfl
  | .buffer _, v | .stringConst _, v => by
    cases v with
    | bytes b => simp only [skeleton, valueSizeAlign, List.length_replicate]
    | _ => rfl
  | .ptr _ _ _, v => by cases v <;> rfl
  | .const _, v | .int _ _, v | .flags _ _, v | .res _, v | .len _, v => by cases v <;> rfl

/-- So are the offsets of a struct's fields. -/
theorem layoutFrom_skeleton : ∀ (fields : List ArgType) (vals : List ArgValue) (off maxAlign : Nat),
    layoutFrom fields (skeletonFields fields vals) off maxAlign = layoutFrom fields vals off maxAlign
  | f :: fields, v :: vals, off, maxAlign => by
    rw [skeletonFields, layoutFrom, layoutFrom, valueSizeAlign_skeleton f v]
    simp only [layoutFrom_skeleton fields vals]
  | [], _, _, _ => by rw [skeletonFields.eq_def]
  | _ :: _, [], _, _ => rfl

end

/-- So is its layout. -/
theorem structLayout_skeleton (fields : List ArgType) (vals : List ArgValue) :
    structLayout fields (skeletonFields fields vals) = structLayout fields vals := by
  rw [structLayout, structLayout, layoutFrom_skeleton]

/-- Two writers that have written as much. -/
structure ScratchWriter.Alike (w w' : ScratchWriter) : Prop where
  cursor : w'.cursor = w.cursor
  cap : w'.cap = w.cap
  length : w'.bytes.length = w.bytes.length

/-- Writing as much to alike writers allocates alike. -/
theorem ScratchWriter.Alike.write {w w' : ScratchWriter} (h : w.Alike w') {data data' : List U8}
    (hlen : data'.length = data.length) (align : Nat) :
    (w'.write data' align).1 = (w.write data align).1 ∧
      (w.write data align).2.Alike (w'.write data' align).2 := by
  unfold ScratchWriter.write
  rw [h.cursor, h.cap, hlen]
  dsimp only
  split
  · exact ⟨rfl, h⟩
  · refine ⟨rfl, rfl, rfl, ?_⟩
    simp only [List.length_append, List.length_replicate, List.length_take, h.length, hlen]

/-- What alike writers are left with: as many bytes, and alike again. -/
def BuiltAlike (r r' : List U8 × ScratchWriter) : Prop :=
  r'.1.length = r.1.length ∧ r.2.Alike r'.2

section
variable {base : U32} {w w' : ScratchWriter}

mutual

/-- A value and its skeleton are built alike. -/
theorem buildBytes_skeleton : ∀ (ty : ArgType) (v : ArgValue) {w w' : ScratchWriter}, w.Alike w' →
    BuiltAlike (buildBytes base ty v w) (buildBytes base ty (skeleton ty v) w')
  | .ptr dir inner nullable, v, w, w', h => by
    cases v with
    | ptr pointee =>
      obtain ⟨hlen, hw⟩ := buildBytes_skeleton inner pointee h
      rw [skeleton, buildBytes, buildBytes, valueSizeAlign_skeleton]
      exact ⟨by simp only [length_leBytes], (hw.write hlen _).2⟩
    | imm v =>
      simp only [skeleton, buildBytes]
      split <;> exact ⟨rfl, h⟩
    | _ => exact ⟨rfl, h⟩
  | .struct fields, v, w, w', h => by
    cases v with
    | struct vals =>
      rw [skeleton, buildBytes, buildBytes]
      simp only [structLayout_skeleton]
      exact buildFields_skeleton fields vals _ h rfl
    | _ => exact ⟨rfl, h⟩
  | .res _, v, w, w', h => by
    cases v with
    | res r => cases r <;> exact ⟨by simp only [skeleton, buildBytes], h⟩
    | _ => exact ⟨rfl, h⟩
  | .int bits _, v, w, w', h => by
    cases v <;> exact ⟨by simp [skeleton, buildBytes, leBytes64], h⟩
  | .const _, v, w, w', h | .flags _ _, v, w, w', h | .len _, v, w, w', h | .buffer _, v, w, w', h
  | .stringConst _, v, w, w', h => by
    cases v <;> exact ⟨by simp [skeleton, buildBytes], h⟩

/-- The fields are built alike. -/
theorem buildFields_skeleton : ∀ (fields : List ArgType) (vals : List ArgValue) (offsets : List Nat)
    {w w' : ScratchWriter} {buf buf' : List U8}, w.Alike w' → buf'.length = buf.length →
    BuiltAlike (buildFields base fields vals offsets w buf)
      (buildFields base fields (skeletonFields fields vals) offsets w' buf')
  | f :: fields, v :: vals, off :: offsets, w, w', buf, buf', h, hbuf => by
    obtain ⟨hlen, hw⟩ := buildBytes_skeleton f v h
    rw [skeletonFields, buildFields, buildFields]
    exact buildFields_skeleton fields vals offsets hw (by simp only [length_copyAt, hbuf])
  | [], vals, offsets, w, w', buf, buf', h, hbuf => by
    cases vals <;> exact ⟨hbuf, h⟩
  | f :: fields, [], offsets, w, w', buf, buf', h, hbuf => ⟨hbuf, h⟩
  | f :: fields, v :: vals, [], w, w', buf, buf', h, hbuf => ⟨hbuf, h⟩

end

end

/-- Lowering has come as far. -/
structure Lowering.Alike (l l' : Lowering) : Prop where
  w : l.w.Alike l'.w
  fixups : l'.fixups = l.fixups
  outArrayOff : l'.outArrayOff = l.outArrayOff

/-- The registers of a call but for its data. -/
def WordsAlike : List ArgType → List U32 → List U32 → Prop
  | ty :: tys, x :: xs, y :: ys => (ty.isData = false → y = x) ∧ WordsAlike tys xs ys
  | _, xs, ys => ys = xs

section
variable {p : Prog} {base : U32} {i : Nat} {produces : Produces}

/-- A reference is lowered alike. -/
theorem lowerRef_skeleton (outArrayOff : List (Option Nat)) (j : Nat) (callIdx : U16) (slot : U8) :
    lowerRef p.skeleton outArrayOff i j callIdx slot = lowerRef p outArrayOff i j callIdx slot := by
  simp only [lowerRef, Prog.skeleton, List.getElem?_map, Option.map_map]
  rfl

/-- So is an argument, but for its data. -/
theorem lowerArg_skeleton (j : Nat) (ty : ArgType) (v : ArgValue) {l l' : Lowering}
    (h : l.Alike l') :
    let r := lowerArg p base i j produces ty v l
    let r' := lowerArg p.skeleton base i j produces ty (skeleton ty v) l'
    (ty.isData = false → r'.1 = r.1) ∧ r.2.Alike r'.2 := by
  cases ty with
  | res k =>
    cases v with
    | res ref =>
      cases ref with
      | seed s => exact ⟨fun _ => rfl, h⟩
      | produced callIdx slot =>
        refine ⟨fun _ => rfl, h.w, ?_, h.outArrayOff⟩
        change l'.fixups ++ [lowerRef p.skeleton l'.outArrayOff i j callIdx slot] =
          l.fixups ++ [lowerRef p l.outArrayOff i j callIdx slot]
        rw [h.fixups, h.outArrayOff, lowerRef_skeleton]
    | _ => exact ⟨fun _ => rfl, h⟩
  | ptr dir inner nullable =>
    cases v with
    | ptr pointee =>
      obtain ⟨hlen, hw⟩ := @buildBytes_skeleton base inner pointee _ _ h.w
      obtain ⟨hoff, hw⟩ := hw.write hlen (valueSizeAlign inner pointee).2
      simp only [skeleton, lowerArg, serializeInto, valueSizeAlign_skeleton, hoff, h.outArrayOff]
      exact ⟨fun _ => trivial, hw, h.fixups, rfl⟩
    | _ => exact ⟨fun _ => rfl, h⟩
  | const _ | int _ _ | flags _ _ | len _ | buffer _ | struct _ | stringConst _ =>
    cases v <;> exact ⟨fun hs => (by cases hs), h⟩

/-- So are the arguments of a call. -/
theorem lowerArgs_skeleton : ∀ (j : Nat) (tys : List ArgType) (vals : List ArgValue)
    {l l' : Lowering}, l.Alike l' →
    let r := lowerArgs p base i produces j tys vals l
    let r' := lowerArgs p.skeleton base i produces j tys (skeletonFields tys vals) l'
    WordsAlike tys r.1 r'.1 ∧ r.2.Alike r'.2
  | j, ty :: tys, v :: vals, l, l', h => by
    obtain ⟨hword, hl⟩ := lowerArg_skeleton (p := p) (i := i)
      j ty v h
    obtain ⟨hwords, hl⟩ := lowerArgs_skeleton (j + 1) tys vals hl
    exact ⟨⟨hword, hwords⟩, hl⟩
  | _, [], _, _, _, h => ⟨rfl, h⟩
  | _, _ :: _, [], _, _, h => ⟨rfl, h⟩

/-- Words alike are as many. -/
theorem WordsAlike.length : ∀ {tys : List ArgType} {xs ys : List U32}, WordsAlike tys xs ys →
    ys.length = xs.length
  | _ :: _, _ :: _, _ :: _, h => congrArg (· + 1) h.2.length
  | [], _, _, h => congrArg List.length h
  | _ :: _, [], _, h => congrArg List.length h
  | _ :: _, _ :: _, [], h => congrArg List.length h

/-- They are equal but for data. -/
theorem WordsAlike.getElem? {j : Nat} : ∀ {tys : List ArgType} {xs ys : List U32},
    WordsAlike tys xs ys → (tys[j]?.any (·.isData)) = false → ys[j]? = xs[j]?
  | ty :: tys, x :: xs, y :: ys, h, hj => by
    cases j with
    | zero => exact congrArg some (h.1 hj)
    | succ j =>
      have ih := WordsAlike.getElem? (j := j) h.2 hj
      exact ih
  | [], _, _, h, _ => by rw [show _ = _ from h]
  | _ :: _, [], _, h, _ => by rw [show _ = _ from h]
  | _ :: _, _ :: _, [], h, _ => by rw [show _ = _ from h]

/-- So are the registers they are passed in. -/
theorem WordsAlike.registers {j : Nat} {tys : List ArgType} {xs ys : List U32}
    (h : WordsAlike tys xs ys) (hj : (tys[j]?.any (·.isData)) = false) :
    (FuzzSoft.registers ys)[j]? = (FuzzSoft.registers xs)[j]? := by
  simp only [FuzzSoft.registers, List.getElem?_take, List.getElem?_append, h.length, h.getElem? hj]

end

/-- The word of a register. -/
def Prog.Lowered.word? (l : Prog.Lowered) (i j : Nat) : Option U32 :=
  (l.calls[i]?).bind (·.args[j]?)

/-- Whether an argument is data. -/
def Prog.dataAt (p : Prog) (i j : Nat) : Bool :=
  ((p.calls[i]?).bind (·.desc.args[j]?)).any (·.isData)

/-- Two lowerings of the calls of `p` that differ in the words of data arguments and in the contents
of the scratch image only. -/
structure SameLayout (p : Prog) (a b : Prog.Lowered) : Prop where
  numbers : b.calls.map (·.nr) = a.calls.map (·.nr)
  fixups : b.fixups = a.fixups
  scratch : b.scratch.length = a.scratch.length
  words : ∀ i j, p.dataAt i j = false → b.word? i j = a.word? i j

section
variable {p q : Prog} {base : U32}

/-- The calls are lowered alike. -/
theorem lowerCalls_skeleton (base : U32) : ∀ (i : Nat) (calls : List TypedCall) {l l' : Lowering},
    l.Alike l' →
    let r := lowerCalls p base i calls l
    let r' := lowerCalls p.skeleton base i (calls.map TypedCall.skeleton) l'
    (r'.1.map (·.nr) = r.1.map (·.nr) ∧ ∀ k j : Nat,
      (((calls[k]?).bind (·.desc.args[j]?)).any (·.isData)) = false →
        (r'.1[k]?).bind (·.args[j]?) = (r.1[k]?).bind (·.args[j]?)) ∧ r.2.Alike r'.2
  | _, [], _, _, h => ⟨⟨rfl, fun _ _ _ => rfl⟩, h⟩
  | i, c :: calls, l, l', h => by
    obtain ⟨hwords, hl⟩ := lowerArgs_skeleton (p := p) (i := i)
      0 c.desc.args c.args h
    obtain ⟨⟨hnr, hrest⟩, hl⟩ := lowerCalls_skeleton base (i + 1) calls hl
    refine ⟨⟨?_, fun k j hs => ?_⟩, hl⟩
    · rw [List.map_cons, lowerCalls, lowerCalls, List.map_cons, List.map_cons]
      exact congrArg (c.desc.nr :: ·) hnr
    · cases k with
      | zero =>
        exact hwords.registers hs
      | succ k => exact hrest k j hs

/-- A program is lowered as its skeleton is. -/
theorem lower_skeleton (p : Prog) (base : U32) (cap : Nat) :
    SameLayout p (p.lowerWithCap base cap) (p.skeleton.lowerWithCap base cap) := by
  have hstart : Lowering.Alike ⟨.new cap, [], List.replicate p.calls.length none⟩
      ⟨.new cap, [], List.replicate p.skeleton.calls.length none⟩ := by
    refine ⟨⟨rfl, rfl, rfl⟩, rfl, ?_⟩
    rw [Prog.skeleton, List.length_map]
  obtain ⟨⟨hnr, hwords⟩, hl⟩ := lowerCalls_skeleton base 0 p.calls hstart
  exact ⟨hnr, hl.fixups, hl.w.length, hwords⟩

/-- Programs with one skeleton have one layout. -/
theorem sameLayout_of_skeleton (h : q.skeleton = p.skeleton) (base : U32) (cap : Nat) :
    SameLayout p (p.lowerWithCap base cap) (q.lowerWithCap base cap) := by
  have hp := lower_skeleton p base cap
  have hq := lower_skeleton q base cap
  rw [h] at hq
  have hdata : q.dataAt = p.dataAt := by
    have hsk : ∀ r : Prog, r.dataAt = r.skeleton.dataAt := by
      intro r
      funext i j
      simp only [Prog.dataAt, Prog.skeleton, List.getElem?_map]
      cases r.calls[i]? <;> rfl
    rw [hsk q, h, ← hsk p]
  refine ⟨hq.numbers.symm.trans hp.numbers, hq.fixups.symm.trans hp.fixups,
    hq.scratch.symm.trans hp.scratch, fun i j hs => ?_⟩
  exact (hq.words i j (hdata ▸ hs)).symm.trans (hp.words i j hs)

end

/-- Every sibling has the calls, the references, the shape and the lengths of its parent, and is lowered
to the same numbers, fixups, pointers and amount of scratch memory. -/
theorem siblings_share_layout (parent : Prog) :
    (∀ n, Ensures (mutateBatch parent n) fun siblings => siblings.length = n ∧ ∀ q ∈ siblings,
      q.skeleton = parent.skeleton ∧
        ∀ base cap, SameLayout parent (parent.lowerWithCap base cap) (q.lowerWithCap base cap)) ∧
    Ensures (mutateData parent) fun q => q.skeleton = parent.skeleton ∧
      ∀ base cap, SameLayout parent (parent.lowerWithCap base cap) (q.lowerWithCap base cap) := by
  refine ⟨fun n => ?_, ?_⟩
  · refine (ensures_mutateBatch_skeleton parent n).mono fun siblings h => ⟨h.1, fun q hq => ?_⟩
    exact ⟨h.2 q hq, sameLayout_of_skeleton (h.2 q hq)⟩
  · exact (ensures_mutateDataInPlace_skeleton parent).mono fun q h => ⟨h, sameLayout_of_skeleton h⟩

end FuzzSoft
