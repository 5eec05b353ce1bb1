import FuzzSoft.Prog.Conforms

/-!
# The C structs of the descriptions

The structs that the comments of `syscalls.rs` describe, field by field, and which of the descriptions
serialize to them (`serialises_iff`). A constant and a set of flags always take 4 bytes, so no
description with a 2-byte family does.
-/

namespace FuzzSoft

open Lib Gen Rng

/-! ## What the comments say -/

/-- The descriptions of C structs. -/
inductive CStruct where
  | sockaddr
  | sockaddrIn
  | sockaddrUn
  | sockaddrNl
  | nlmsg
  | iovec
  | ifconf
  deriving DecidableEq

/-- The offset and the width of each field, and the size. -/
structure CLayout where
  fields : List (Nat × Nat)
  size : Nat
  deriving DecidableEq

namespace CStruct

/-- The description. -/
def desc : CStruct → List ArgType
  | sockaddr => SOCKADDR_FIELDS
  | sockaddrIn => SOCKADDR_IN_FIELDS
  | sockaddrUn => SOCKADDR_UN_FIELDS
  | sockaddrNl => SOCKADDR_NL_FIELDS
  | nlmsg => NLMSG_FIELDS
  | iovec => IOVEC_FIELDS
  | ifconf => IFCONF_FIELDS

/-- The layout in the comment of the description; a `sockaddr_un` is as long as its path. -/
def layout : CStruct → List ArgValue → CLayout
  | sockaddr, _ => ⟨[(0, 2), (2, 14)], 16⟩
  | sockaddrIn, _ => ⟨[(0, 2), (2, 2), (4, 4), (8, 8)], 16⟩
  | sockaddrUn, [_, .bytes path] => ⟨[(0, 2), (2, path.length)], 2 + path.length⟩
  | sockaddrUn, _ => ⟨[], 0⟩
  | sockaddrNl, _ => ⟨[(0, 2), (2, 2), (4, 4), (8, 4)], 12⟩
  | nlmsg, _ => ⟨[(0, 4), (4, 2), (6, 2), (8, 4), (12, 4), (16, 16)], 32⟩
  | iovec, _ => ⟨[(0, 4), (4, 4)], 8⟩
  | ifconf, _ => ⟨[(0, 4), (4, 4)], 8⟩

end CStruct

/-- The fields of a struct stand where a layout says, with the widths it says, and the struct and the
length that is generated for it have the size it says. -/
structure Serialises (fields : List ArgType) (vals : List ArgValue) (l : CLayout) : Prop where
  size : ∀ base w, (buildBytes base (.struct fields) (.struct vals) w).1.length = l.size
  count : l.fields.length = fields.length
  stands : ∀ base w (k : Nat) off width, l.fields[k]? = some (off, width) →
    ∃ data, (fieldImages base fields vals w)[k]? = some data ∧ data.length = width ∧
      StandsAt (buildBytes base (.struct fields) (.struct vals) w).1 off data
  measured : ptrSizeOf (.struct fields) (.struct vals) = l.size

/-- The layout that lowering gives a struct. -/
def loweredLayout (fields : List ArgType) (vals : List ArgValue) : CLayout :=
  ⟨(structLayout fields vals).1.zip (List.zipWith imageLen fields vals), (structLayout fields vals).2.1⟩

section
variable {fields : List ArgType} {vals : List ArgValue}

/-- A serialised struct has its C size. -/
theorem Serialises.size_eq {l : CLayout} (h : Serialises fields vals l) :
    (structLayout fields vals).2.1 = l.size :=
  h.measured

/-- A struct of plain values serializes to the layout that lowering gives it. -/
theorem serialises_loweredLayout (hs : ShapedFields fields vals) (hp : PlainFields fields vals)
    (hu : Unwrapped fields vals 0 1) : Serialises fields vals (loweredLayout fields vals) := by
  have hl := ((laidOut_iff (.struct fields) (.struct vals) hs).mpr ⟨hp, hu⟩).exact
  have hlen : vals.length = fields.length := by
    clear hp hu hl
    induction fields generalizing vals with
    | nil =>
      cases vals with
      | nil => rfl
      | cons v vals => exact hs.elim
    | cons f fields ih =>
      cases vals with
      | nil => exact hs.elim
      | cons v vals => exact congrArg (· + 1) (ih hs.2)
  refine ⟨hl.length, ?_, fun base w k off width hk => ?_, rfl⟩
  · rw [loweredLayout, List.length_zip, List.length_zipWith, structLayout, length_layoutFrom, hlen]
    simp
  · obtain ⟨hoff, hwidth⟩ := List.getElem?_zip_eq_some.mp hk
    obtain ⟨f, v, hf, hv, rfl⟩ := List.getElem?_zipWith_eq_some.mp hwidth
    obtain ⟨data, hd, hdlen⟩ := getElem?_fieldImages base w hf hv
    exact ⟨data, hd, hdlen, (hl.struct base w fields vals rfl rfl).stands k off data hoff hd⟩

end

/-! ## Conforming values -/

/-- No fields have no values. -/
theorem conformsFields_nil {vals : List ArgValue} (h : ConformsFields [] vals) : vals = [] := by
  cases vals with
  | nil => rfl
  | cons v vals => exact h.elim

/-- The first field has the first value. -/
theorem conformsFields_cons {f : ArgType} {fields : List ArgType} {vals : List ArgValue}
    (h : ConformsFields (f :: fields) vals) :
    ∃ v rest, vals = v :: rest ∧ Conforms f v ∧ ConformsFields fields rest := by
  cases vals with
  | nil => exact h.elim
  | cons v vals => exact ⟨v, vals, rfl, h.1, h.2⟩

/-- A buffer holds bytes. -/
theorem conforms_buffer {len : LenSpec} {v : ArgValue} (h : Conforms (.buffer len) v) :
    ∃ b, v = .bytes b ∧ len.allows b.length := by
  cases v with
  | bytes b => exact ⟨b, rfl, h⟩
  | _ => exact h.elim

/-- A string constant holds bytes. -/
theorem conforms_stringConst {strs : List String} {v : ArgValue} (h : Conforms (.stringConst strs) v) :
    ∃ b, v = .bytes b ∧ poolAllows strs b.length := by
  cases v with
  | bytes b => exact ⟨b, rfl, h⟩
  | _ => exact h.elim

/-- An integer holds a scalar. -/
theorem conforms_int {bits : U8} {signed : Bool} {v : ArgValue} (h : Conforms (.int bits signed) v) :
    ∃ x, v = .imm x := by
  cases v with
  | imm x => exact ⟨x, rfl⟩
  | _ => exact h.elim

/-- A pointer that may not be null points. -/
theorem conforms_ptr {dir : Dir} {inner : ArgType} {v : ArgValue}
    (h : Conforms (.ptr dir inner false) v) : ∃ pointee, v = .ptr pointee ∧ Conforms inner pointee := by
  cases v with
  | ptr pointee => exact ⟨pointee, rfl, h⟩
  | imm x => exact absurd h.2 Bool.false_ne_true
  | _ => exact h.elim

/-- A pointer to a buffer. -/
theorem plain_bufferPtr {dir : Dir} {len : LenSpec} {pointee : ArgValue}
    (h : Conforms (.buffer len) pointee) : Plain (.ptr dir (.buffer len) false) (.ptr pointee) := by
  obtain ⟨b, rfl, hb⟩ := conforms_buffer h
  have hlt := LenSpec.allows.lt hb
  exact Nat.lt_trans hlt (by decide)

/-! ## Which descriptions follow their comments -/

/-- A netlink message serialises to its C layout. -/
theorem serialises_nlmsg {vals : List ArgValue} (h : ConformsFields NLMSG_FIELDS vals) :
    Serialises NLMSG_FIELDS vals (CStruct.nlmsg.layout vals) := by
  have hs := h.shaped
  obtain ⟨v₁, _, rfl, h₁, h⟩ := conformsFields_cons h
  obtain ⟨v₂, _, rfl, h₂, h⟩ := conformsFields_cons h
  obtain ⟨v₃, _, rfl, h₃, h⟩ := conformsFields_cons h
  obtain ⟨v₄, _, rfl, h₄, h⟩ := conformsFields_cons h
  obtain ⟨v₅, _, rfl, h₅, h⟩ := conformsFields_cons h
  obtain ⟨v₆, _, rfl, h₆, h⟩ := conformsFields_cons h
  cases conformsFields_nil h
  obtain ⟨x₁, rfl⟩ := conforms_int h₁
  obtain ⟨x₂, rfl⟩ := conforms_int h₂
  obtain ⟨x₃, rfl⟩ := conforms_int h₃
  obtain ⟨x₄, rfl⟩ := conforms_int h₄
  obtain ⟨x₅, rfl⟩ := conforms_int h₅
  obtain ⟨b, rfl, hb⟩ := conforms_buffer h₆
  have hb : b.length = 16 := hb
  have hp : PlainFields NLMSG_FIELDS [.imm x₁, .imm x₂, .imm x₃, .imm x₄, .imm x₅, .bytes b] := by
    simp [NLMSG_FIELDS, PlainFields, Plain, hb]
  have hu : Unwrapped NLMSG_FIELDS [.imm x₁, .imm x₂, .imm x₃, .imm x₄, .imm x₅, .bytes b] 0 1 := by
    simp [NLMSG_FIELDS, Unwrapped, valueSizeAlign, intAlign, intBytes, roundUp, hb]
  have hl := serialises_loweredLayout hs hp hu
  have heq : loweredLayout NLMSG_FIELDS [.imm x₁, .imm x₂, .imm x₃, .imm x₄, .imm x₅, .bytes b] =
      CStruct.nlmsg.layout [.imm x₁, .imm x₂, .imm x₃, .imm x₄, .imm x₅, .bytes b] := by
    simp [NLMSG_FIELDS, loweredLayout, CStruct.layout, structLayout, layoutFrom, valueSizeAlign,
      intAlign, intBytes, roundUp, imageLen, hb]
  rwa [heq] at hl

/-- So does an I/O vector. -/
theorem serialises_iovec {vals : List ArgValue} (h : ConformsFields IOVEC_FIELDS vals) :
    Serialises IOVEC_FIELDS vals (CStruct.iovec.layout vals) := by
  have hs := h.shaped
  obtain ⟨v₁, _, rfl, h₁, h⟩ := conformsFields_cons h
  obtain ⟨v₂, _, rfl, h₂, h⟩ := conformsFields_cons h
  cases conformsFields_nil h
  obtain ⟨pointee, rfl, hpt⟩ := conforms_ptr h₁
  obtain ⟨x, rfl⟩ := conforms_int h₂
  have hint : (32 : U8).toNat ≤ 71 := by decide
  have hu : Unwrapped IOVEC_FIELDS [.ptr pointee, .imm x] 0 1 := by
    simp [IOVEC_FIELDS, Unwrapped, valueSizeAlign, intAlign, intBytes, roundUp]
  have hl := serialises_loweredLayout hs ⟨plain_bufferPtr hpt, hint, trivial⟩ hu
  have heq : loweredLayout IOVEC_FIELDS [.ptr pointee, .imm x] =
      CStruct.iovec.layout [.ptr pointee, .imm x] := by
    simp [IOVEC_FIELDS, loweredLayout, CStruct.layout, structLayout, layoutFrom, valueSizeAlign,
      intAlign, intBytes, roundUp, imageLen]
  rwa [← heq]

/-- So does an interface request. -/
theorem serialises_ifconf {vals : List ArgValue} (h : ConformsFields IFCONF_FIELDS vals) :
    Serialises IFCONF_FIELDS vals (CStruct.ifconf.layout vals) := by
  have hs := h.shaped
  obtain ⟨v₁, _, rfl, h₁, h⟩ := conformsFields_cons h
  obtain ⟨v₂, _, rfl, h₂, h⟩ := conformsFields_cons h
  cases conformsFields_nil h
  obtain ⟨x, rfl⟩ := conforms_int h₁
  obtain ⟨pointee, rfl, hpt⟩ := conforms_ptr h₂
  have hint : (32 : U8).toNat ≤ 71 := by decide
  have hu : Unwrapped IFCONF_FIELDS [.imm x, .ptr pointee] 0 1 := by
    simp [IFCONF_FIELDS, Unwrapped, valueSizeAlign, intAlign, intBytes, roundUp]
  have hl := serialises_loweredLayout hs ⟨hint, plain_bufferPtr hpt, trivial⟩ hu
  have heq : loweredLayout IFCONF_FIELDS [.imm x, .ptr pointee] =
      CStruct.ifconf.layout [.imm x, .ptr pointee] := by
    simp [IFCONF_FIELDS, loweredLayout, CStruct.layout, structLayout, layoutFrom, valueSizeAlign,
      intAlign, intBytes, roundUp, imageLen]
  rwa [← heq]

/-- With 4 bytes for the family, a `sockaddr` takes 20 bytes. -/
theorem sockaddr_size {vals : List ArgValue} (h : ConformsFields SOCKADDR_FIELDS vals) :
    (structLayout SOCKADDR_FIELDS vals).2.1 = 20 := by
  obtain ⟨v₁, _, rfl, -, h⟩ := conformsFields_cons h
  obtain ⟨v₂, _, rfl, h₂, h⟩ := conformsFields_cons h
  cases conformsFields_nil h
  obtain ⟨b, rfl, hb⟩ := conforms_buffer h₂
  have hb : b.length = 14 := hb
  simp [SOCKADDR_FIELDS, structLayout, layoutFrom, valueSizeAlign, roundUp, hb]

/-- An internet address takes 20 bytes, not 16. -/
theorem sockaddrIn_size {vals : List ArgValue} (h : ConformsFields SOCKADDR_IN_FIELDS vals) :
    (structLayout SOCKADDR_IN_FIELDS vals).2.1 = 20 := by
  obtain ⟨v₁, _, rfl, -, h⟩ := conformsFields_cons h
  obtain ⟨v₂, _, rfl, -, h⟩ := conformsFields_cons h
  obtain ⟨v₃, _, rfl, -, h⟩ := conformsFields_cons h
  obtain ⟨v₄, _, rfl, h₄, h⟩ := conformsFields_cons h
  cases conformsFields_nil h
  obtain ⟨b, rfl, hb⟩ := conforms_buffer h₄
  have hb : b.length = 8 := hb
  simp [SOCKADDR_IN_FIELDS, structLayout, layoutFrom, valueSizeAlign, intAlign, intBytes, roundUp, hb]

/-- A netlink address takes 16. -/
theorem sockaddrNl_size {vals : List ArgValue} (h : ConformsFields SOCKADDR_NL_FIELDS vals) :
    (structLayout SOCKADDR_NL_FIELDS vals).2.1 = 16 := by
  obtain ⟨v₁, _, rfl, -, h⟩ := conformsFields_cons h
  obtain ⟨v₂, _, rfl, -, h⟩ := conformsFields_cons h
  obtain ⟨v₃, _, rfl, -, h⟩ := conformsFields_cons h
  obtain ⟨v₄, _, rfl, -, h⟩ := conformsFields_cons h
  cases conformsFields_nil h
  simp [SOCKADDR_NL_FIELDS, structLayout, layoutFrom, valueSizeAlign, intAlign, intBytes, roundUp]

/-- With 4 bytes for the family and padding at its end, a `sockaddr_un` is longer than its path and a
2-byte family. -/
theorem sockaddrUn_size {vals : List ArgValue} (h : ConformsFields SOCKADDR_UN_FIELDS vals) :
    (CStruct.sockaddrUn.layout vals).size < (structLayout SOCKADDR_UN_FIELDS vals).2.1 := by
  obtain ⟨v₁, _, rfl, -, h⟩ := conformsFields_cons h
  obtain ⟨v₂, _, rfl, h₂, h⟩ := conformsFields_cons h
  cases conformsFields_nil h
  obtain ⟨b, rfl, s, hs, hb⟩ := conforms_stringConst h₂
  have hshort : SUN_PATHS.all (fun s => (strBytes s).length < 16) = true := by decide
  have hlt := List.all_eq_true.mp hshort s hs
  rw [decide_eq_true_eq] at hlt
  have hround : roundUp 0 4 = 0 ∧ roundUp 4 1 = 4 := by decide
  have hu : Unwrapped SOCKADDR_UN_FIELDS [v₁, .bytes b] 0 1 := by
    simp [SOCKADDR_UN_FIELDS, Unwrapped, valueSizeAlign, hround.1, hround.2]
    omega
  have hend : (layoutFrom SOCKADDR_UN_FIELDS [v₁, .bytes b] 0 1).2.1 = 4 + b.length := by
    simp [SOCKADDR_UN_FIELDS, layoutFrom, valueSizeAlign, hround.1, hround.2]
    omega
  have hle := hu.le_total
  rw [hend] at hle
  refine Nat.lt_of_lt_of_le ?_ hle
  show 2 + b.length < 4 + b.length
  omega

mutual

/-- Whether a value conforms depends on its skeleton. -/
theorem conforms_skeleton : ∀ (ty : ArgType) (v : ArgValue),
    Conforms ty (skeleton ty v) ↔ Conforms ty v
  | .ptr dir inner nullable, v => by
    cases v with
    | ptr pointee => exact conforms_skeleton inner pointee
    | _ => exact Iff.rfl
  | .struct fields, v => by
    cases v with
    | struct vals => exact conformsFields_skeleton fields vals
    | _ => exact Iff.rfl
  | .buffer len, v => by
    cases v with
    | bytes b =>
      show len.allows (List.replicate b.length 0).length ↔ len.allows b.length
      rw [List.length_replicate]
    | _ => exact Iff.rfl
  | .stringConst strs, v => by
    cases v with
    | bytes b =>
      show poolAllows strs (List.replicate b.length 0).length ↔ poolAllows strs b.length
      rw [List.length_replicate]
    | _ => exact Iff.rfl
  | .const _, v | .int _ _, v | .flags _ _, v | .len _, v | .res _, v => by cases v <;> exact Iff.rfl

/-- Whether fields conform shows in their skeletons. -/
theorem conformsFields_skeleton : ∀ (fields : List ArgType) (vals : List ArgValue),
    ConformsFields fields (skeletonFields fields vals) ↔ ConformsFields fields vals
  | [], vals => by cases vals <;> exact Iff.rfl
  | _ :: _, [] => Iff.rfl
  | f :: fields, v :: vals => and_congr (conforms_skeleton f v) (conformsFields_skeleton fields vals)

end

/-- Generated values conform to their description, and so do those that differ from them in their data
only. -/
theorem ensures_genStruct_conforms (d : CStruct) (pool : List PoolEntry) :
    Ensures (genArgValue pool (.struct d.desc)) fun v => Conforms (.struct d.desc) v ∧
      ∀ v', skeleton (.struct d.desc) v' = skeleton (.struct d.desc) v →
        Conforms (.struct d.desc) v' := by
  have hc : (ArgType.struct d.desc).choices = true := by cases d <;> decide
  refine (ensures_genArgValue_conforms (.struct d.desc) hc).mono fun v hv => ⟨hv, fun v' hv' => ?_⟩
  rwa [← conforms_skeleton, hv', conforms_skeleton]

/-- Generated and mutated values conform, and a conforming value serializes to the struct in the comment
of its description exactly when the description has no 2-byte family. -/
theorem serialises_iff (d : CStruct) :
    (∀ pool, Ensures (genArgValue pool (.struct d.desc)) fun v => Conforms (.struct d.desc) v ∧
      ∀ v', skeleton (.struct d.desc) v' = skeleton (.struct d.desc) v →
        Conforms (.struct d.desc) v') ∧
    ∀ vals, ConformsFields d.desc vals →
      (Serialises d.desc vals (d.layout vals) ↔ d = .nlmsg ∨ d = .iovec ∨ d = .ifconf) := by
  refine ⟨ensures_genStruct_conforms d, fun vals h => ?_⟩
  cases d with
  | sockaddr =>
    refine iff_of_false (fun hs => ?_) (by decide)
    have hsize : 20 = 16 := (sockaddr_size h).symm.trans hs.size_eq
    exact absurd hsize (by decide)
  | sockaddrIn =>
    refine iff_of_false (fun hs => ?_) (by decide)
    have hsize : 20 = 16 := (sockaddrIn_size h).symm.trans hs.size_eq
    exact absurd hsize (by decide)
  | sockaddrUn =>
    refine iff_of_false (fun hs => ?_) (by decide)
    exact absurd hs.size_eq (Nat.ne_of_gt (sockaddrUn_size h))
  | sockaddrNl =>
    refine iff_of_false (fun hs => ?_) (by decide)
    have hsize : 16 = 12 := (sockaddrNl_size h).symm.trans hs.size_eq
    exact absurd hsize (by decide)
  | nlmsg => exact iff_of_true (serialises_nlmsg h) (by decide)
  | iovec => exact iff_of_true (serialises_iovec h) (by decide)
  | ifconf => exact iff_of_true (serialises_ifconf h) (by decide)

theorem serialises_iff_iovec : Serialises IOVEC_FIELDS [.ptr (.bytes [1, 2]), .imm 2]
    (CStruct.iovec.layout [.ptr (.bytes [1, 2]), .imm 2]) := by
  have hlen : (LenSpec.range 0 64).allows ([1, 2] : List U8).length := ⟨by decide, by decide⟩
  have hc : ConformsFields IOVEC_FIELDS [.ptr (.bytes [1, 2]), .imm 2] := ⟨hlen, trivial, trivial⟩
  exact ((serialises_iff .iovec).2 _ hc).mpr (by decide)

/-- `127.0.0.1`, port 8080. -/
def loopback : List ArgValue := [.imm 2, .imm 0x901F, .imm 0x0100007F, .bytes (List.replicate 8 0)]

/-- The port of a `sockaddr_in` stands at offset 4, where the address should be. -/
theorem sockaddr_in_port_misplaced : ConformsFields SOCKADDR_IN_FIELDS loopback ∧
    (buildBytes 0 SOCKADDR_IN (.struct loopback) (.new 0)).1 =
      [2, 0, 0, 0, 0x1F, 0x90, 0, 0, 0x7F, 0, 0, 1, 0, 0, 0, 0, 0, 0, 0, 0] ∧
    ¬ Serialises SOCKADDR_IN_FIELDS loopback (CStruct.sockaddrIn.layout loopback) := by
  have hc : ConformsFields SOCKADDR_IN_FIELDS loopback := ⟨trivial, trivial, trivial, rfl, trivial⟩
  refine ⟨hc, by decide +kernel, fun hs => ?_⟩
  have hsize : 20 = 16 := (sockaddrIn_size hc).symm.trans hs.size_eq
  exact absurd hsize (by decide)

end FuzzSoft
