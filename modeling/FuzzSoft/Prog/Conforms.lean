import FuzzSoft.Prog.Image

/-!
# Generated values

A generated value has the shape of its type and the lengths that the type allows (`Conforms`), whatever
the pool and the state of the generator. The lengths that `generate_args` computes are the numbers of
bytes that lowering reserves, as long as the scratch region has room for them (`Measures`), so with
`imaged_iff` this says when lowering lays out memory correctly.
-/

namespace FuzzSoft

open Lib Gen Rng

/-! ## Values as the generator makes them -/

/-- The lengths of a buffer. -/
def LenSpec.allows : LenSpec → Nat → Prop
  | .fixed n, k => k = n.toNat
  | .range lo hi, k => lo.toNat ≤ k ∧ k ≤ max lo.toNat hi.toNat

/-- The lengths of a string, with the 0 at its end. -/
def poolAllows (strs : List String) (k : Nat) : Prop := ∃ s ∈ strs, k = (strBytes s).length + 1

mutual

/-- A value of the shape and the lengths of its type. -/
def Conforms : ArgType → ArgValue → Prop
  | .const _, .imm _ | .int _ _, .imm _ | .flags _ _, .imm _ | .len _, .imm _ => True
  | .res _, .res _ => True
  | .ptr _ _ nullable, .imm v => v = 0 ∧ nullable = true
  | .ptr _ inner _, .ptr pointee => Conforms inner pointee
  | .buffer len, .bytes b => len.allows b.length
  | .stringConst strs, .bytes b => poolAllows strs b.length
  | .struct fields, .struct vals => ConformsFields fields vals
  | _, _ => False

def ConformsFields : List ArgType → List ArgValue → Prop
  | [], [] => True
  | f :: fields, v :: vals => Conforms f v ∧ ConformsFields fields vals
  | _, _ => False

end

/-- A generated length is allowed. -/
theorem ensures_genLen_allows (len : LenSpec) : Ensures (genLen len) len.allows := by
  cases len with
  | fixed n => exact ensures_pure rfl
  | range lo hi =>
    refine ensures_ite (fun h => ensures_pure ⟨Nat.le_refl _, Nat.le_max_left _ _⟩) fun h => ?_
    have hlt : lo.toNat < hi.toNat := BitVec.lt_def.mp (BitVec.not_le.mp h)
    refine ensures_bind (ensures_below _) fun n hn => ensures_pure ⟨Nat.le_add_right _ _, ?_⟩
    have := hn (Nat.succ_pos _)
    omega

/-- An allowed length is below 2^16. -/
theorem LenSpec.allows.lt {len : LenSpec} {k : Nat} (h : len.allows k) : k < 2 ^ 16 := by
  cases len with
  | fixed n => exact h ▸ n.isLt
  | range lo hi =>
    have hlo := lo.isLt
    have hhi := hi.isLt
    obtain ⟨-, h⟩ := h
    omega

section
variable {pool : List PoolEntry}

mutual

/-- Generation never fails, and its values conform. -/
theorem ensures_genArgValue_conforms : ∀ ty : ArgType, ty.choices = true →
    Ensures (genArgValue pool ty) (Conforms ty)
  | .const v, _ => ensures_pure trivial
  | .int bits signed, _ => by
    refine ensures_chance_bind fun dict => ensures_ite (fun _ => ?_) fun _ => ?_
    · exact ensures_bind ensures_pickDictConst fun _ _ => ensures_pure trivial
    · exact ensures_bind (ensures_genInt bits signed) fun _ _ => ensures_pure trivial
  | .flags vals bitmask, hc => by
    have hne : vals ≠ [] := by simpa [ArgType.choices] using hc
    refine ensures_chance_bind fun dict => ensures_ite (fun _ => ?_) fun _ => ?_
    · refine ensures_bind ensures_pickDictConst fun v _ => ensures_ite (fun _ => ?_) fun _ => ?_
      · exact ensures_bind (ensures_genFlags hne bitmask) fun _ _ => ensures_pure trivial
      · exact ensures_pure trivial
    · exact ensures_bind (ensures_genFlags hne bitmask) fun _ _ => ensures_pure trivial
  | .res kind, _ => ensures_bind (ensures_pickRes_served kind) fun _ _ => ensures_pure trivial
  | .len _, _ => ensures_pure trivial
  | .ptr _ inner nullable, hc => by
    refine ensures_bind (ensures_chanceIf_only nullable 20) fun null hnull => ?_
    refine ensures_ite (fun h => ensures_pure ⟨rfl, hnull h⟩) fun _ => ?_
    exact ensures_bind (ensures_genArgValue_conforms inner hc) fun v hv => ensures_pure hv
  | .buffer len, _ => by
    refine ensures_bind (ensures_genLen_allows len) fun n hn => ?_
    refine ensures_bind (ensures_genBytes n) fun b hb => ensures_pure ?_
    show len.allows b.length
    rwa [hb]
  | .struct fields, hc =>
    ensures_bind (ensures_genStructFields_conforms fields hc) fun vals hvals => ensures_pure hvals
  | .stringConst strs, hc => by
    have hne : strs ≠ [] := by simpa [ArgType.choices] using hc
    refine ensures_bind (ensures_pick hne) fun s hs => ensures_pure ⟨s, hs, ?_⟩
    rw [List.length_append, List.length_singleton]

/-- Generated fields conform. -/
theorem ensures_genStructFields_conforms : ∀ fields : List ArgType, choicesAll fields = true →
    Ensures (genStructFields pool fields) (ConformsFields fields)
  | [], _ => ensures_pure trivial
  | f :: fields, hc => by
    simp only [choicesAll, Bool.and_eq_true] at hc
    refine ensures_bind (ensures_genArgValue_conforms f hc.1) fun v hv => ?_
    exact ensures_bind (ensures_genStructFields_conforms fields hc.2) fun vals hvals =>
      ensures_pure ⟨hv, hvals⟩

end

end

/-! ## Shapes and sizes -/

mutual

/-- A conforming value has its shape. -/
theorem Conforms.shaped : ∀ {ty : ArgType} {v : ArgValue}, Conforms ty v → Shaped ty v
  | .ptr dir inner nullable, v, h => by
    cases v with
    | imm v => exact h
    | ptr pointee => exact @Conforms.shaped inner _ h
    | _ => exact h.elim
  | .struct fields, v, h => by
    cases v with
    | struct vals => exact ConformsFields.shaped h
    | _ => exact h.elim
  | .const _, v, h | .int _ _, v, h | .flags _ _, v, h | .len _, v, h | .res _, v, h
  | .buffer _, v, h | .stringConst _, v, h => by cases v <;> first | exact h.elim | trivial

/-- So have conforming fields. -/
theorem ConformsFields.shaped : ∀ {fields : List ArgType} {vals : List ArgValue},
    ConformsFields fields vals → ShapedFields fields vals
  | [], [], _ => trivial
  | _ :: _, _ :: _, h => ⟨Conforms.shaped h.1, ConformsFields.shaped h.2⟩
  | [], _ :: _, h => h.elim
  | _ :: _, [], h => h.elim

end

/-- The values of a type are as long as their sizes say, by themselves. -/
def ArgType.measurable : ArgType → Bool
  | .len _ => false
  | .int bits _ => bits.toNat ≤ 71
  | .stringConst strs => strs.all fun s => (strBytes s).length < 2 ^ 31
  | _ => true

/-- The image of a measurable value has its size. -/
theorem Conforms.imageLen_eq {ty : ArgType} {v : ArgValue} (h : Conforms ty v)
    (hm : ty.measurable = true) : imageLen ty v = (valueSizeAlign ty v).1 := by
  cases ty with
  | ptr dir inner nullable =>
    cases v with
    | imm v =>
      obtain ⟨rfl, rfl⟩ := h
      rfl
    | ptr pointee => rfl
    | _ => exact h.elim
  | struct fields =>
    cases v with
    | struct vals => rfl
    | _ => exact h.elim
  | int bits signed =>
    cases v with
    | imm v =>
      simp only [ArgType.measurable, decide_eq_true_eq] at hm
      simp only [imageLen, valueSizeAlign, intBytes]
      omega
    | _ => exact h.elim
  | buffer len =>
    cases v with
    | bytes b =>
      have hlt : b.length < 2 ^ 16 := LenSpec.allows.lt h
      have h32 : b.length < 2 ^ 32 := by omega
      exact (Nat.mod_eq_of_lt h32).symm
    | _ => exact h.elim
  | stringConst strs =>
    cases v with
    | bytes b =>
      obtain ⟨s, hs, hlen⟩ := h
      have hlt := List.all_eq_true.mp hm s hs
      rw [decide_eq_true_eq] at hlt
      have h32 : b.length < 2 ^ 32 := by omega
      exact (Nat.mod_eq_of_lt h32).symm
    | _ => exact h.elim
  | len i => cases hm
  | _ => cases v <;> first | rfl | exact h.elim

/-! ## Generated values are plain -/

mutual

/-- A bound on the size of the values of a type. -/
def ArgType.extent : ArgType → Nat
  | .struct fields => extents fields + 8
  | .buffer _ | .stringConst _ => 2 ^ 16
  | _ => 32

def extents : List ArgType → Nat
  | [] => 0
  | f :: fields => f.extent + 8 + extents fields

end

mutual

/-- No length and no integer of more than 71 bits is nested in the type, and its sizes do not wrap. -/
def ArgType.plain : ArgType → Bool
  | .len _ => false
  | .int bits _ => bits.toNat ≤ 71
  | .stringConst strs => strs.all fun s => (strBytes s).length < 2 ^ 16
  | .ptr _ inner _ => inner.plain
  | .struct fields => plainFields fields && decide (extents fields < 2 ^ 31)
  | _ => true

def plainFields : List ArgType → Bool
  | [] => true
  | f :: fields => f.plain && plainFields fields

end

mutual

/-- The values of a plain type are plain, and no longer than the bound. -/
theorem Conforms.plain : ∀ {ty : ArgType} {v : ArgValue}, Conforms ty v → ty.plain = true →
    Plain ty v ∧ (valueSizeAlign ty v).1 ≤ ty.extent
  | .ptr dir inner nullable, v, h, hp => by
    cases v with
    | imm v => exact ⟨trivial, Nat.le_add_right 4 28⟩
    | ptr pointee => exact ⟨(@Conforms.plain inner _ h hp).1, Nat.le_add_right 4 28⟩
    | _ => exact h.elim
  | .struct fields, v, h, hp => by
    cases v with
    | struct vals =>
      simp only [ArgType.plain, Bool.and_eq_true, decide_eq_true_eq] at hp
      obtain ⟨hfields, hrun⟩ := ConformsFields.plain h hp.1
      obtain ⟨hunw, hend⟩ := hrun 0 1 (.inl rfl) (by omega)
      have halign := isAlign_layoutFrom fields vals 0 1 (.inl rfl)
      have h8 := halign.le
      have hround := roundUp_bounds halign
        (x := (layoutFrom fields vals 0 1).2.1) (by omega)
      refine ⟨⟨hfields, hunw⟩, ?_⟩
      simp only [valueSizeAlign, ArgType.extent]
      omega
    | _ => exact h.elim
  | .int bits _, v, h, hp => by
    have hbits := bits.isLt
    refine ⟨show bits.toNat ≤ 71 from of_decide_eq_true hp, ?_⟩
    simp only [valueSizeAlign, intBytes, ArgType.extent]
    omega
  | .buffer len, v, h, _ => by
    cases v with
    | bytes b =>
      have hlt : b.length < 2 ^ 16 := LenSpec.allows.lt h
      refine ⟨Nat.lt_trans hlt (by decide), ?_⟩
      simp only [valueSizeAlign, ArgType.extent]
      omega
    | _ => exact h.elim
  | .stringConst strs, v, h, hp => by
    cases v with
    | bytes b =>
      obtain ⟨s, hs, hlen⟩ := h
      have hlt := decide_eq_true_eq.mp (List.all_eq_true.mp hp s hs)
      refine ⟨show b.length < 2 ^ 32 by omega, ?_⟩
      simp only [valueSizeAlign, ArgType.extent]
      omega
    | _ => exact h.elim
  | .const _, _, _, _ | .flags _ _, _, _, _ | .res _, _, _, _ => ⟨trivial, Nat.le_add_right 4 28⟩

/-- Conforming fields of plain types are plain. -/
theorem ConformsFields.plain : ∀ {fields : List ArgType} {vals : List ArgValue},
    ConformsFields fields vals → plainFields fields = true → PlainFields fields vals ∧
      ∀ off maxAlign, IsAlign maxAlign → off + extents fields < 2 ^ 31 →
        Unwrapped fields vals off maxAlign ∧
          (layoutFrom fields vals off maxAlign).2.1 ≤ off + extents fields
  | [], [], _, _ => by
    refine ⟨trivial, fun off maxAlign ha hoff => ⟨?_, ?_⟩⟩
    · have := ha.le
      simp only [Unwrapped, extents] at hoff ⊢
      omega
    · exact Nat.le_refl _
  | f :: fields, v :: vals, h, hp => by
    rw [plainFields, Bool.and_eq_true] at hp
    obtain ⟨hf, hsize⟩ := Conforms.plain h.1 hp.1
    obtain ⟨hfields, hrun⟩ := ConformsFields.plain h.2 hp.2
    refine ⟨⟨hf, hfields⟩, fun off maxAlign ha hoff => ?_⟩
    rw [extents] at hoff ⊢
    have halign := isAlign_valueSizeAlign f v
    have h8 := halign.le
    have hpos := halign.pos
    have hround := roundUp_bounds halign (x := off) (by omega)
    obtain ⟨hunw, hend⟩ := hrun (roundUp off (valueSizeAlign f v).2 + (valueSizeAlign f v).1)
      (max maxAlign (valueSizeAlign f v).2) (ha.max halign) (by omega)
    refine ⟨⟨by omega, by omega, hunw⟩, ?_⟩
    rw [layoutFrom]
    dsimp only
    rw [Nat.max_eq_left hpos, Nat.mod_eq_of_lt (by omega)]
    omega
  | [], _ :: _, h, _ => h.elim
  | _ :: _, [], h, _ => h.elim

end

/-- The types that the pointers of a description point to are plain. -/
def SyscallDesc.plain (d : SyscallDesc) : Bool :=
  d.args.all fun
    | .ptr _ inner _ => inner.plain
    | _ => true

/-! ## Length arguments -/

/-- The bytes of the scratch region that lowering takes for what an argument points to, when it comes
to the argument with this writer. -/
def reserved (base : U32) : ArgType → ArgValue → ScratchWriter → Nat
  | .ptr _ inner _, .ptr pointee, w =>
    let a := serializeInto base inner pointee w
    a.2.cursor - a.1
  | _, _, _ => 0

/-- The bytes of the scratch region from where that begins. -/
def room (base : U32) : ArgType → ArgValue → ScratchWriter → Nat
  | .ptr _ inner _, .ptr pointee, w => w.cap - (serializeInto base inner pointee w).1
  | _, _, w => w.cap - w.cursor

/-- The number is what lowering reserves for a value, wherever the writer is and wherever the region
is, as far as there is room. -/
def IsReserved (ty : ArgType) (v : ArgValue) (n : U64) : Prop :=
  ∀ (base : U32) (w : ScratchWriter), w.cursor ≤ w.cap →
    reserved base ty v w = min n.toNat (room base ty v w)

/-- Every length argument is the number of bytes that lowering reserves for what it measures. -/
def Measures (d : SyscallDesc) (args : List ArgValue) : Prop :=
  ∀ (j : Nat) i, d.args[j]? = some (.len i) → ∃ ty v n, d.args[i.toNat]? = some ty ∧
    args[i.toNat]? = some v ∧ args[j]? = some (.imm n) ∧ IsReserved ty v n

/-- Every length argument of a description comes after the pointer that it measures. -/
def SyscallDesc.measured (d : SyscallDesc) : Bool :=
  d.args.zipIdx.all fun a => match a.1 with
    | .len i => i.toNat < a.2 && match d.args[i.toNat]? with
      | some (.ptr _ inner _) => inner.measurable
      | _ => false
    | _ => true

/-- Allocation leaves the cursor in the region. -/
theorem allocate_cursor_le {cap : Nat} (reqs : List (Nat × Nat)) {cur : Nat} (h : cur ≤ cap) :
    (allocate cap reqs cur).2 ≤ cap := by
  induction reqs generalizing cur with
  | nil => exact h
  | cons r reqs ih =>
    refine ih ?_
    unfold bump
    dsimp only
    split <;> omega

/-- Lowering reserves what a pointee is serialized to, as far as there is room. -/
theorem reserved_ptr (base : U32) {dir : Dir} {inner : ArgType} {nullable : Bool}
    {pointee : ArgValue} {w : ScratchWriter} (h : w.cursor ≤ w.cap) :
    reserved base (.ptr dir inner nullable) (.ptr pointee) w =
      min (imageLen inner pointee) (room base (.ptr dir inner nullable) (.ptr pointee) w) := by
  obtain ⟨hlen, hcur, hcap⟩ := buildBytes_layout base false inner pointee w
  have hle : (buildBytes base inner pointee w).2.cursor ≤ w.cap := by
    have hal := @layValue_allocate w.cap false inner pointee w.cursor
    rw [hcur, (Prod.mk.inj hal).2]
    exact allocate_cursor_le _ h
  simp only [reserved, room, serializeInto, ScratchWriter.write]
  rw [hlen, hcap]
  split
  · dsimp only
    omega
  · dsimp only
    omega

/-- A size is a word. -/
theorem valueSizeAlign_lt (ty : ArgType) (v : ArgValue) : (valueSizeAlign ty v).1 < 2 ^ 32 := by
  have hround (x a : Nat) : roundUp x a < 2 ^ 32 := Nat.mod_lt _ (by decide)
  cases ty with
  | int bits signed =>
    have hbits := bits.isLt
    simp only [valueSizeAlign, intBytes]
    omega
  | struct fields => cases v <;> first | exact hround _ _ | exact Nat.two_pow_pos 32
  | _ => cases v <;> simp [valueSizeAlign, Nat.mod_lt]

/-- The length that is generated for a pointer is what lowering reserves. -/
theorem lenOfArg_isReserved {dir : Dir} {inner : ArgType} {nullable : Bool} {v : ArgValue}
    (h : Conforms (.ptr dir inner nullable) v) (hm : inner.measurable = true) :
    IsReserved (.ptr dir inner nullable) v
      (BitVec.ofNat 64 (lenOfArg (.ptr dir inner nullable) v)) := by
  intro base w hw
  cases v with
  | imm v => exact (Nat.zero_min _).symm
  | ptr pointee =>
    have hlen : imageLen inner pointee = (valueSizeAlign inner pointee).1 :=
      @Conforms.imageLen_eq inner _ h hm
    have hlt := valueSizeAlign_lt inner pointee
    rw [reserved_ptr base hw, hlen, lenOfArg, ptrSizeOf, BitVec.toNat_ofNat,
      Nat.mod_eq_of_lt (by omega)]
  | _ => exact h.elim

/-- The arguments generated so far. -/
structure GeneratedArgs (d : SyscallDesc) (args : List ArgValue) : Prop where
  length : args.length ≤ d.args.length
  conforms : ∀ (j : Nat) ty v, d.args[j]? = some ty → args[j]? = some v → Conforms ty v
  lens : ∀ (j : Nat) i, j < args.length → d.args[j]? = some (.len i) → ∃ ty v,
    d.args[i.toNat]? = some ty ∧ args[i.toNat]? = some v ∧ ∃ n, args[j]? = some (.imm n) ∧
      IsReserved ty v n

section
variable {d : SyscallDesc} {pool : List PoolEntry}

/-- No arguments were generated yet. -/
theorem GeneratedArgs.nil : GeneratedArgs d [] :=
  ⟨Nat.zero_le _, fun j ty v _ hv => by simp at hv, fun j i hj => absurd hj (Nat.not_lt_zero j)⟩

/-- One more argument. -/
theorem GeneratedArgs.concat {args : List ArgValue} (h : GeneratedArgs d args) {ty : ArgType}
    (hty : d.args[args.length]? = some ty) {v : ArgValue} (hv : Conforms ty v)
    (hlen : ∀ i, ty = .len i → ∃ ty' v', d.args[i.toNat]? = some ty' ∧ args[i.toNat]? = some v' ∧
      ∃ n, v = .imm n ∧ IsReserved ty' v' n) :
    GeneratedArgs d (args ++ [v]) where
  length := by
    have := (List.getElem?_eq_some_iff.mp hty).1
    rw [List.length_append, List.length_singleton]
    omega
  conforms := by
    intro j ty' v' hty' hv'
    rcases Nat.lt_trichotomy j args.length with hj | rfl | hj
    · rw [List.getElem?_append_left hj] at hv'
      exact h.conforms j ty' v' hty' hv'
    · rw [List.getElem?_concat_length, Option.some.injEq] at hv'
      rw [hty, Option.some.injEq] at hty'
      exact hty' ▸ hv' ▸ hv
    · rw [List.getElem?_eq_none (by simp; omega)] at hv'
      cases hv'
  lens := by
    have hold : ∀ {k : Nat} {w : ArgValue}, args[k]? = some w → (args ++ [v])[k]? = some w := by
      intro k w hw
      rw [List.getElem?_append_left (List.getElem?_eq_some_iff.mp hw).1]
      exact hw
    intro j i hj hi
    rw [List.length_append, List.length_singleton] at hj
    rcases Nat.lt_or_eq_of_le (Nat.le_of_lt_succ hj) with hj | rfl
    · obtain ⟨ty', v', hty', hv', n, hn, hw⟩ := h.lens j i hj hi
      exact ⟨ty', v', hty', hold hv', n, hold hn, hw⟩
    · rw [hty, Option.some.injEq] at hi
      obtain ⟨ty', v', hty', hv', n, rfl, hw⟩ := hlen i hi
      exact ⟨ty', v', hty', hold hv', n, List.getElem?_concat_length, hw⟩

/-- The next argument conforms, and if it is a length it is the right one. -/
theorem ensures_nextArg_measured {args : List ArgValue} (h : GeneratedArgs d args)
    (hd : d.measured = true) {ty : ArgType} (hty : d.args[args.length]? = some ty)
    (hc : ty.choices = true) :
    Ensures (nextArg d pool args ty) fun v => GeneratedArgs d (args ++ [v]) := by
  have hfresh (hne : ∀ i, ty ≠ .len i) :
      Ensures (genArgValue pool ty) fun v => GeneratedArgs d (args ++ [v]) :=
    (ensures_genArgValue_conforms ty hc).mono fun v hv =>
      h.concat hty hv fun i heq => absurd heq (hne i)
  cases ty with
  | len i =>
    have hm := List.all_eq_true.mp hd (.len i, args.length) (List.mem_zipIdx_iff_getElem?.mpr hty)
    simp only [Bool.and_eq_true, decide_eq_true_eq] at hm
    obtain ⟨hlt, hm⟩ := hm
    obtain ⟨v, hv⟩ : ∃ v, args[i.toNat]? = some v := ⟨_, List.getElem?_eq_getElem hlt⟩
    split at hm
    next dir inner nullable hty' =>
      refine ensures_pure (h.concat hty trivial fun i' heq => ?_)
      cases heq
      refine ⟨_, v, hty', hv, _, ?_, lenOfArg_isReserved (h.conforms _ _ _ hty' hv) hm⟩
      rw [hty', hv]
    next => cases hm
  | res kind =>
    refine ensures_bind (ensures_pickResBiased_served kind) fun r _ => ?_
    exact ensures_pure (h.concat hty trivial fun i heq => by cases heq)
  | _ => exact hfresh fun _ => ArgType.noConfusion

end

/-- The arguments of a generated call are as they should be, to the last. -/
theorem ensures_generateArgs_generated {d : SyscallDesc} (hc : choicesAll d.args = true)
    (hd : d.measured = true) (existing : List TypedCall) :
    Ensures (generateArgs d existing) fun args =>
      GeneratedArgs d args ∧ d.args.length ≤ args.length := by
  suffices h : ∀ (tys : List ArgType) (args : List ArgValue), GeneratedArgs d args →
      d.args.drop args.length = tys →
      Ensures (tys.foldlM (fun args ty => do
        let v ← nextArg d (buildPool existing) args ty
        pure (args ++ [v])) args)
        (fun args => GeneratedArgs d args ∧ d.args.length ≤ args.length) from
    h d.args [] .nil rfl
  intro tys
  induction tys with
  | nil =>
    intro args h hdrop
    exact ensures_pure ⟨h, List.drop_eq_nil_iff.mp hdrop⟩
  | cons ty tys ih =>
    intro args h hdrop
    have hty : d.args[args.length]? = some ty := by
      have h0 := congrArg (·[0]?) hdrop
      simpa using h0
    have hcty := (choicesAll_iff _).mp hc ty (List.mem_of_getElem? hty)
    rw [List.foldlM_cons]
    refine ensures_bind (P := fun args' => GeneratedArgs d args' ∧ args'.length = args.length + 1) ?_ ?_
    · refine ensures_bind (ensures_nextArg_measured h hd hty hcty) fun v hv => ensures_pure ⟨hv, ?_⟩
      rw [List.length_append, List.length_singleton]
    · rintro args' ⟨h', hlen⟩
      refine ih args' h' ?_
      rw [hlen, ← List.drop_drop, hdrop]
      rfl

section
variable {d : SyscallDesc} {args : List ArgValue}

/-- Generated length arguments measure their buffers. -/
theorem GeneratedArgs.measures (h : GeneratedArgs d args) (hlen : d.args.length ≤ args.length) :
    Measures d args := by
  intro j i hi
  obtain ⟨ty, v, hty, hv, n, hn, hw⟩ :=
    h.lens j i (Nat.lt_of_lt_of_le (List.getElem?_eq_some_iff.mp hi).1 hlen) hi
  exact ⟨ty, v, n, hty, hv, hn, hw⟩

/-- What the generated pointers point to is plain. -/
theorem GeneratedArgs.plain (h : GeneratedArgs d args) (hd : d.plain = true) :
    ∀ a ∈ d.args.zip args, OfPointee Plain a := by
  rintro a ha dir inner nullable pointee rfl
  obtain ⟨j, hj⟩ := List.mem_iff_getElem?.mp ha
  obtain ⟨hty, hv⟩ := List.getElem?_zip_eq_some.mp hj
  have hp : inner.plain = true := List.all_eq_true.mp hd _ (List.mem_of_getElem? hty)
  have hc : Conforms (.ptr dir inner nullable) (.ptr pointee) := h.conforms j _ _ hty hv
  exact (@Conforms.plain inner pointee hc hp).1

end

/-! ## Memory is laid out as it should be -/

/-- Every length of the table measures an earlier buffer. -/
theorem measured_SYSCALLS : ∀ d ∈ SYSCALLS, d.measured = true := by
  have h : SYSCALLS.all SyscallDesc.measured = true := by decide
  exact List.all_eq_true.mp h

/-- Every struct of the table is plain. -/
theorem plain_SYSCALLS : ∀ d ∈ SYSCALLS, d.plain = true := by
  have h : SYSCALLS.all SyscallDesc.plain = true := by decide +kernel
  exact List.all_eq_true.mp h

/-- Which values are laid out as they should be, which programs are lowered as they should be, and that
what is generated points to such values, with the lengths that lowering reserves. -/
theorem lowering_layout_iff (p : Prog) (base cap : U32) :
    (∀ ty v, Shaped ty v → (LaidOut ty v ↔ Plain ty v)) ∧
    ((p.FitsRegisters → p.EveryPointee Plain → NoWrap cap.toNat p.requests 0 →
        Imaged p base cap.toNat) ∧
      (p.EveryPointee Shaped → (p.EveryPointee LaidOut ∧ Imaged p base cap.toNat ↔
        p.FitsRegisters ∧ p.EveryPointee Plain ∧ NoWrap cap.toNat p.requests 0))) ∧
    ∀ d ∈ SYSCALLS, ∀ existing, Ensures (generateArgs d existing) fun args =>
      Measures d args ∧ ∀ a ∈ d.args.zip args, OfPointee Plain a := by
  refine ⟨laidOut_iff, ⟨imaged_of_noWrap, fun hs => imaged_iff hs cap.isLt⟩, ?_⟩
  intro d hd existing
  refine (ensures_generateArgs_generated (drawable_SYSCALLS.choices d hd) (measured_SYSCALLS d hd)
    existing).mono fun args h => ?_
  exact ⟨h.1.measures h.2, h.1.plain (plain_SYSCALLS d hd)⟩

/-- A pair of integers of different sizes. -/
theorem lowering_layout_iff_pair :
    LaidOut (.struct [.int 16 false, .int 32 false]) (.struct [.imm 1, .imm 2]) := by
  have hs : Shaped (.struct [.int 16 false, .int 32 false]) (.struct [.imm 1, .imm 2]) :=
    ⟨trivial, trivial, trivial⟩
  have hint : (16 : U8).toNat ≤ 71 ∧ (32 : U8).toNat ≤ 71 := by decide
  have hu : Unwrapped [.int 16 false, .int 32 false] [.imm 1, .imm 2] 0 1 := by
    simp only [Unwrapped]
    decide
  exact ((lowering_layout_iff ⟨[]⟩ 0 0).1 _ _ hs).mpr ⟨⟨hint.1, hint.2, trivial⟩, hu⟩

/-- A length argument nested in memory takes no bytes, although its size is 4; and where the scratch
region ends, lowering reserves less than the generated length. -/
theorem nested_len_has_no_bytes :
    (¬ ∀ ty v, Shaped ty v → ∀ base w,
      (buildBytes base ty v w).1.length = (valueSizeAlign ty v).1) ∧
    ∃ d ∈ SYSCALLS, ∃ ty v, d.args[1]? = some ty ∧ d.args[2]? = some (.len 1) ∧ Conforms ty v ∧
      reserved 0 ty v (.new 0) ≠ lenOfArg ty v := by
  constructor
  · intro h
    have h4 : (buildBytes 0 (.len 0) (.imm 5) (.new 0)).1.length = 4 := h (.len 0) (.imm 5) trivial 0 _
    simp [buildBytes] at h4
  · have hlt : 30 < SYSCALLS.length := by decide
    exact ⟨SYSCALLS[30], List.getElem_mem hlt, .ptr .in (.buffer (.fixed 8)) false,
      .ptr (.bytes (List.replicate 8 0)), rfl, rfl, rfl, by decide +kernel⟩

end FuzzSoft
