import FuzzSoft.Prog.Structs

/-!
# The scratch image

Every pointee of a program that fits stands unmodified and aligned in the scratch image, no two of them
overlap, and every pointer holds the address of its pointee (`Imaged`). A pointee is allocated at the
next aligned offset, so all this holds exactly when no such offset wraps (`imaged_iff`).
-/

namespace FuzzSoft

open Lib

/-! ## What a program allocates -/

mutual

/-- The length and the alignment of each pointee of a value, in the order of their allocation. -/
def requests : ArgType → ArgValue → List (Nat × Nat)
  | .ptr _ inner _, .ptr pointee =>
    requests inner pointee ++ [(imageLen inner pointee, (valueSizeAlign inner pointee).2)]
  | .struct fields, .struct vals => requestsFields fields vals
  | _, _ => []

def requestsFields : List ArgType → List ArgValue → List (Nat × Nat)
  | f :: fields, v :: vals => requests f v ++ requestsFields fields vals
  | _, _ => []

end

/-- What an argument allocates. -/
def argRequests : ArgType → ArgValue → List (Nat × Nat)
  | .ptr dir inner nullable, .ptr pointee => requests (.ptr dir inner nullable) (.ptr pointee)
  | _, _ => []

def argsRequests : List ArgType → List ArgValue → List (Nat × Nat)
  | ty :: tys, v :: vals => argRequests ty v ++ argsRequests tys vals
  | _, _ => []

def callsRequests (calls : List TypedCall) : List (Nat × Nat) :=
  calls.flatMap fun c => argsRequests c.desc.args c.args

def Prog.requests (p : Prog) : List (Nat × Nat) := callsRequests p.calls

/-- The offset and the length of what a list of requests allocates, and the cursor after them. -/
def allocate (cap : Nat) : List (Nat × Nat) → Nat → List (Nat × Nat) × Nat
  | [], cur => ([], cur)
  | r :: reqs, cur =>
    let a := bump cap cur r.1 r.2
    let rest := allocate cap reqs a.2
    ((a.1, r.1) :: rest.1, rest.2)

/-- No cursor wraps when it is rounded up. -/
def NoWrap (cap : Nat) : List (Nat × Nat) → Nat → Prop
  | [], _ => True
  | r :: reqs, cur => cur + (r.2 - 1) < 2 ^ 32 ∧ NoWrap cap reqs (bump cap cur r.1 r.2).2

/-- What is stored of two blocks does not overlap. -/
def Apart (cap : Nat) (a b : Nat × Nat) : Prop :=
  a.1 + min a.2 (cap - a.1) ≤ b.1 ∨ b.1 + min b.2 (cap - b.1) ≤ a.1

def Region.block (r : Region) : Nat × Nat := (r.off, r.len)

section
variable {cap : Nat}

/-- Two lists of requests, one after the other. -/
theorem allocate_append (xs ys : List (Nat × Nat)) (cur : Nat) :
    allocate cap (xs ++ ys) cur = ((allocate cap xs cur).1 ++ (allocate cap ys (allocate cap xs cur).2).1,
      (allocate cap ys (allocate cap xs cur).2).2) := by
  induction xs generalizing cur with
  | nil => rfl
  | cons r reqs ih => rw [List.cons_append, allocate, allocate, ih]; rfl

/-- Two lists of requests without a wrap. -/
theorem noWrap_append (xs ys : List (Nat × Nat)) (cur : Nat) :
    NoWrap cap (xs ++ ys) cur ↔ NoWrap cap xs cur ∧ NoWrap cap ys (allocate cap xs cur).2 := by
  induction xs generalizing cur with
  | nil => exact (true_and _).symm ▸ Iff.rfl
  | cons r reqs ih => rw [List.cons_append, NoWrap, NoWrap, ih, and_assoc]; rfl

mutual

/-- The layout of a value is what its requests allocate. -/
theorem layValue_allocate : ∀ (out : Bool) (ty : ArgType) (v : ArgValue) (cur : Nat),
    ((layValue cap out ty v cur).1.map Region.block, (layValue cap out ty v cur).2) =
      allocate cap (requests ty v) cur
  | out, .ptr dir inner nullable, v, cur => by
    cases v with
    | ptr pointee =>
      rw [requests, allocate_append, ← layValue_allocate (out || dir ≠ .in) inner pointee cur, layValue,
        List.map_append]
      rfl
    | _ => rfl
  | out, .struct fields, v, cur => by
    cases v with
    | struct vals => exact layFields_allocate out fields vals cur
    | _ => rfl
  | out, .int _ _, v, cur | out, .const _, v, cur | out, .flags _ _, v, cur | out, .res _, v, cur
  | out, .len _, v, cur | out, .buffer _, v, cur | out, .stringConst _, v, cur => by cases v <;> rfl

/-- The regions of a struct's fields are what its requests allocate. -/
theorem layFields_allocate : ∀ (out : Bool) (fields : List ArgType) (vals : List ArgValue) (cur : Nat),
    ((layFields cap out fields vals cur).1.map Region.block, (layFields cap out fields vals cur).2) =
      allocate cap (requestsFields fields vals) cur
  | out, f :: fields, v :: vals, cur => by
    rw [requestsFields, allocate_append, ← layValue_allocate out f v cur,
      ← layFields_allocate out fields vals, layFields, List.map_append]
  | out, [], vals, cur => by cases vals <;> rfl
  | out, _ :: _, [], cur => rfl

end

/-- The same of an argument. -/
theorem layArg_allocate (ty : ArgType) (v : ArgValue) (cur : Nat) :
    ((layArg cap ty v cur).1.map Region.block, (layArg cap ty v cur).2) =
      allocate cap (argRequests ty v) cur := by
  cases v with
  | ptr pointee =>
    cases ty with
    | ptr dir inner nullable => exact layValue_allocate false _ _ cur
    | _ => rfl
  | _ => cases ty <;> rfl

/-- The same of a call's arguments. -/
theorem layArgs_allocate (tys : List ArgType) (vals : List ArgValue) (cur : Nat) :
    ((layArgs cap tys vals cur).1.flatten.map Region.block, (layArgs cap tys vals cur).2) =
      allocate cap (argsRequests tys vals) cur := by
  induction tys generalizing vals cur with
  | nil => cases vals <;> rfl
  | cons ty tys ih =>
    cases vals with
    | nil => rfl
    | cons v vals =>
      rw [argsRequests, allocate_append, ← layArg_allocate, ← ih, layArgs, List.flatten_cons,
        List.map_append]

/-- The same of all calls. -/
theorem layCalls_allocate (calls : List TypedCall) (cur : Nat) :
    (layCalls cap calls cur).flatten.flatten.map Region.block =
      (allocate cap (callsRequests calls) cur).1 := by
  induction calls generalizing cur with
  | nil => rfl
  | cons c calls ih =>
    rw [callsRequests, List.flatMap_cons, allocate_append, ← layArgs_allocate]
    rw [layCalls, List.flatten_cons, List.flatten_append, List.map_append, ih]
    rfl

/-! ## Blocks -/

/-- Where a block that does not wrap ends up. -/
theorem bump_bounds (cap len : Nat) {cur align : Nat} (ha : IsAlign align)
    (h : cur + (align - 1) < 2 ^ 32) :
    (bump cap cur len align = (cap, cur)) ∨
      (cur ≤ (bump cap cur len align).1 ∧ (bump cap cur len align).1 < cap ∧
        (bump cap cur len align).2 =
          (bump cap cur len align).1 + min len (cap - (bump cap cur len align).1)) := by
  have hb := roundUp_bounds ha h
  unfold bump
  dsimp only
  split
  next hc => exact .inl rfl
  next hc => exact .inr ⟨hb.1, Nat.lt_of_not_le hc, rfl⟩

/-- Blocks that do not wrap stand one after the other, but for those that do not fit at all. -/
theorem allocate_mem : ∀ (reqs : List (Nat × Nat)) (cur : Nat), (∀ r ∈ reqs, IsAlign r.2) →
    cur ≤ cap → NoWrap cap reqs cur → cur ≤ (allocate cap reqs cur).2 ∧
      (allocate cap reqs cur).2 ≤ cap ∧
      ∀ b ∈ (allocate cap reqs cur).1, b.1 = cap ∨ (cur ≤ b.1 ∧ b.1 < cap)
  | [], cur, _, hcur, _ => ⟨Nat.le_refl _, hcur, by simp [allocate]⟩
  | r :: reqs, cur, ha, hcur, h => by
    have hb := bump_bounds cap r.1 (ha r List.mem_cons_self) h.1
    have hcur' : cur ≤ (bump cap cur r.1 r.2).2 ∧ (bump cap cur r.1 r.2).2 ≤ cap := by
      rcases hb with hb | hb
      · rw [hb]
        exact ⟨Nat.le_refl _, hcur⟩
      · omega
    have ih := allocate_mem reqs _ (fun r hr => ha r (List.mem_cons_of_mem _ hr)) hcur'.2 h.2
    refine ⟨hcur'.1.trans ih.1, ih.2.1, ?_⟩
    rintro b (_ | ⟨_, hm⟩)
    · rcases hb with hb | hb
      · exact .inl (congrArg Prod.fst hb)
      · exact .inr ⟨hb.1, hb.2.1⟩
    · rcases ih.2.2 b hm with hc | hc
      · exact .inl hc
      · exact .inr ⟨hcur'.1.trans hc.1, hc.2⟩

/-- Blocks allocated without a wrap are apart. -/
theorem allocate_apart : ∀ (reqs : List (Nat × Nat)) (cur : Nat), (∀ r ∈ reqs, IsAlign r.2) →
    cur ≤ cap → NoWrap cap reqs cur → (allocate cap reqs cur).1.Pairwise (Apart cap)
  | [], cur, _, _, _ => .nil
  | r :: reqs, cur, ha, hcur, h => by
    have hb := bump_bounds cap r.1 (ha r List.mem_cons_self) h.1
    have hcur' : (bump cap cur r.1 r.2).2 ≤ cap := by
      rcases hb with hb | hb
      · rw [hb]
        exact hcur
      · omega
    have ha' : ∀ r ∈ reqs, IsAlign r.2 := fun r hr => ha r (List.mem_cons_of_mem _ hr)
    refine List.pairwise_cons.mpr ⟨fun b hm => ?_, allocate_apart reqs _ ha' hcur' h.2⟩
    have hmem := (allocate_mem reqs _ ha' hcur' h.2).2.2 b hm
    rcases hb with hb | hb
    · right
      rw [hb]
      dsimp only
      omega
    · rcases hmem with hc | hc
      · left
        dsimp only
        omega
      · left
        dsimp only
        omega

/-- In a region of less than 4 GiB no offset wraps. -/
theorem noWrap_of_cap (hcap : cap + 7 < 2 ^ 32) : ∀ (reqs : List (Nat × Nat)) (cur : Nat),
    (∀ r ∈ reqs, IsAlign r.2) → cur ≤ cap → NoWrap cap reqs cur
  | [], _, _, _ => trivial
  | r :: reqs, cur, ha, hcur => by
    have h8 := (ha r List.mem_cons_self).le
    have hround : cur + (r.2 - 1) < 2 ^ 32 := by omega
    have hb := bump_bounds cap r.1 (ha r List.mem_cons_self) hround
    refine ⟨hround, noWrap_of_cap hcap reqs _ (fun r hr => ha r (List.mem_cons_of_mem _ hr)) ?_⟩
    rcases hb with hb | hb
    · rw [hb]
      exact hcur
    · omega

/-- Requests that are aligned have a size. -/
def Sized (reqs : List (Nat × Nat)) : Prop := ∀ r ∈ reqs, IsAlign r.2 ∧ (1 < r.2 → 0 < r.1)

/-- Blocks that are apart do not wrap. Once something is stored at offset 0, wrapping would store
another block there. -/
theorem noWrap_of_apart (hcap : cap < 2 ^ 32) : ∀ (reqs : List (Nat × Nat)) (cur : Nat), Sized reqs →
    cur ≤ cap →
    (0 < cur → ∀ b ∈ (allocate cap reqs cur).1, 0 < min b.2 (cap - b.1) → 0 < b.1) →
    (allocate cap reqs cur).1.Pairwise (Apart cap) → NoWrap cap reqs cur
  | [], _, _, _, _, _ => trivial
  | r :: reqs, cur, hs, hcur, hzero, hapart => by
    have ha := (hs r List.mem_cons_self).1
    obtain ⟨hhere, hrest⟩ := List.pairwise_cons.mp hapart
    have hround : cur + (r.2 - 1) < 2 ^ 32 := by
      by_contra hwrap
      have h0 := roundUp_wraps ha (Nat.lt_of_le_of_lt hcur hcap) (Nat.le_of_not_lt hwrap)
      have h8 := ha.le
      have hlen := (hs r List.mem_cons_self).2 (by omega)
      have hbump : (bump cap cur r.1 r.2).1 = 0 := by
        unfold bump
        dsimp only
        rw [h0, if_neg (by omega)]
      have := hzero (by omega) _ List.mem_cons_self
      dsimp only at this
      omega
    have hb := bump_bounds cap r.1 ha hround
    refine ⟨hround, noWrap_of_apart hcap reqs _ (fun r hr => hs r (List.mem_cons_of_mem _ hr)) ?_ ?_ hrest⟩
    · rcases hb with hb | hb
      · rw [hb]
        exact hcur
      · omega
    · intro hpos b hm hst
      rcases Nat.eq_zero_or_pos cur with rfl | hcur0
      · -- this block is at offset 0
        rcases hb with hb | hb
        · rw [hb] at hpos
          exact absurd hpos (Nat.lt_irrefl 0)
        · have hoff : (bump cap 0 r.1 r.2).1 = 0 := by
            have h0 : roundUp 0 r.2 = 0 := by
              rw [roundUp_eq ha]
              rcases ha with h | h | h | h <;> rw [h] <;> rfl
            unfold bump
            dsimp only
            rw [h0]
            split
            · omega
            · rfl
          have := hhere b hm
          unfold Apart at this
          dsimp only at this
          omega
      · exact hzero hcur0 b (List.mem_cons_of_mem _ hm) hst

end

/-! ## The image -/

/-- A pointee in the image: it stands unmodified at an aligned offset as far as the capacity goes. -/
structure PointeeAt (cap : Nat) (img : List U8) (align off : Nat) (data : List U8) : Prop where
  le : off ≤ cap
  aligned : off < cap → align ∣ off
  stands : off < cap → StandsAt img off (data.take (cap - off))

mutual

/-- `bytes` serializes a value whose pointees are in the image: a pointer is the address of its pointee,
the fields of a struct stand at their offsets. -/
def Encoded (base : U32) (cap : Nat) (img : List U8) :
    ArgType → ArgValue → List U8 → List Region → Prop
  | .ptr _ inner _, .ptr pointee, bytes, regions => ∃ nested r data, regions = nested ++ [r] ∧
      bytes = leBytes (base + BitVec.ofNat 32 r.off) 4 ∧ r.len = data.length ∧
      Encoded base cap img inner pointee data nested ∧
      PointeeAt cap img (valueSizeAlign inner pointee).2 r.off data
  | .struct fields, .struct vals, bytes, regions => ∃ datas,
      EncodedFields base cap img fields vals datas regions ∧
      bytes.length = (structLayout fields vals).2.1 ∧
      ∀ (k : Nat) off data, (structLayout fields vals).1[k]? = some off → datas[k]? = some data →
        StandsAt bytes off data
  | ty, v, bytes, regions => bytes = (buildBytes base ty v (.new 0)).1 ∧ regions = []

def EncodedFields (base : U32) (cap : Nat) (img : List U8) :
    List ArgType → List ArgValue → List (List U8) → List Region → Prop
  | f :: fields, v :: vals, datas, regions => ∃ data datas' here rest, datas = data :: datas' ∧
      regions = here ++ rest ∧ Encoded base cap img f v data here ∧
      EncodedFields base cap img fields vals datas' rest
  | _, _, datas, regions => datas = [] ∧ regions = []

end

/-- A pointer to something. -/
def IsPointer (ty : ArgType) (v : ArgValue) : Prop :=
  ∃ dir inner nullable pointee, ty = .ptr dir inner nullable ∧ v = .ptr pointee

/-- Lowering a program into a scratch region. -/
structure Imaged (p : Prog) (base : U32) (cap : Nat) : Prop where
  registers : ∀ c ∈ p.calls, (c.desc.args.zip c.args).length ≤ 6
  size : (p.lowerWithCap base cap).scratch.length ≤ cap
  apart : ((layCalls cap p.calls 0).flatten.flatten.map Region.block).Pairwise (Apart cap)
  pointers : ∀ (i j : Nat) c ty v, p.calls[i]? = some c → c.desc.args[j]? = some ty →
    c.args[j]? = some v → IsPointer ty v → ∃ call word regions,
      (p.lowerWithCap base cap).calls[i]? = some call ∧ call.args[j]? = some word ∧
      ((layCalls cap p.calls 0)[i]?).bind (·[j]?) = some regions ∧
      Encoded base cap (p.lowerWithCap base cap).scratch ty v (leBytes word 4) regions

/-- Whatever an argument points to. -/
def OfPointee (P : ArgType → ArgValue → Prop) (a : ArgType × ArgValue) : Prop :=
  ∀ dir inner nullable pointee, a = (.ptr dir inner nullable, .ptr pointee) → P inner pointee

/-- Whatever the arguments of a program point to. -/
def Prog.EveryPointee (P : ArgType → ArgValue → Prop) (p : Prog) : Prop :=
  ∀ c ∈ p.calls, ∀ a ∈ c.desc.args.zip c.args, OfPointee P a

/-! ## Writing -/

/-- A writer that has filled its image up to the cursor. -/
structure ScratchWriter.Full (cap : Nat) (w : ScratchWriter) : Prop where
  cap_eq : w.cap = cap
  length : w.bytes.length = w.cursor
  le : w.cursor ≤ cap

/-- What stands in a buffer stands in a longer one. -/
theorem StandsAt.mono {buf img data : List U8} {off : Nat} (h : StandsAt buf off data)
    (hp : buf <+: img) : StandsAt img off data := by
  intro i hi
  obtain ⟨rest, rfl⟩ := hp
  have hd := h i hi
  rw [List.getElem?_eq_getElem hi] at hd ⊢
  rw [List.getElem?_append_left (List.getElem?_eq_some_iff.mp hd).1]
  exact hd

/-- What is appended stands at the end. -/
theorem standsAt_append (buf data : List U8) : StandsAt (buf ++ data) buf.length data := by
  intro i hi
  rw [List.getElem?_append_right (Nat.le_add_right _ _), Nat.add_sub_cancel_left]

section
variable {base : U32} {cap : Nat} {w : ScratchWriter}

/-- Writing stores what is written. -/
theorem ScratchWriter.Full.write {align : Nat} (h : w.Full cap) (ha : IsAlign align)
    (hr : w.cursor + (align - 1) < 2 ^ 32) (data : List U8) :
    (w.write data align).2.Full cap ∧ w.bytes <+: (w.write data align).2.bytes ∧
      PointeeAt cap (w.write data align).2.bytes align (w.write data align).1 data := by
  obtain ⟨hcap, hlen, hle⟩ := h
  subst hcap
  have hb := roundUp_bounds ha hr
  have hdvd := roundUp_dvd ha w.cursor
  unfold ScratchWriter.write
  dsimp only
  split
  next hc =>
    refine ⟨⟨rfl, hlen, hle⟩, List.prefix_rfl, Nat.le_refl _, ?_, ?_⟩ <;>
      exact fun hlt => absurd hlt (Nat.lt_irrefl _)
  next hc =>
    have hpad : (w.bytes ++ List.replicate (roundUp w.cursor align - w.bytes.length) 0).length =
        roundUp w.cursor align := by
      rw [List.length_append, List.length_replicate]
      omega
    have htake : data.take (min data.length (w.cap - roundUp w.cursor align)) =
        data.take (w.cap - roundUp w.cursor align) := by
      rw [List.take_eq_take_iff]
      omega
    refine ⟨⟨rfl, ?_, ?_⟩, ?_, Nat.le_of_lt (Nat.lt_of_not_le hc), fun _ => hdvd, fun _ => ?_⟩
    · dsimp only
      rw [List.length_append, hpad, List.length_take]
      omega
    · dsimp only
      omega
    · rw [List.append_assoc]
      exact List.prefix_append _ _
    · have hs := standsAt_append
        (w.bytes ++ List.replicate (roundUp w.cursor align - w.bytes.length) 0)
        (data.take (w.cap - roundUp w.cursor align))
      rw [hpad] at hs
      rw [htake]
      exact hs

/-- What `build_bytes` leaves: the writer is full, it has only grown, and in every image that it grows
to the bytes are those of the value. -/
structure Builds (base : U32) (cap : Nat) (w : ScratchWriter) (r : List U8 × ScratchWriter)
    (P : List U8 → List U8 → Prop) : Prop where
  full : r.2.Full cap
  grows : w.bytes <+: r.2.bytes
  encoded : ∀ img, r.2.bytes <+: img → P img r.1

/-- A pointee stands in a longer image. -/
theorem PointeeAt.mono {align off : Nat} {data buf img : List U8} (h : PointeeAt cap buf align off data)
    (hp : buf <+: img) : PointeeAt cap img align off data :=
  ⟨h.le, h.aligned, fun hlt => (h.stands hlt).mono hp⟩

/-- A plain value is no longer than its size. -/
theorem Plain.imageLen_le {ty : ArgType} {v : ArgValue} (h : Plain ty v) :
    imageLen ty v ≤ (valueSizeAlign ty v).1 := by
  cases ty with
  | int bits signed =>
    cases v <;> simp only [imageLen, valueSizeAlign] <;> omega
  | buffer len =>
    cases v with
    | bytes b => exact Nat.le_of_eq (Nat.mod_eq_of_lt h).symm
    | _ => exact Nat.zero_le _
  | stringConst pool =>
    cases v with
    | bytes b => exact Nat.le_of_eq (Nat.mod_eq_of_lt h).symm
    | _ => exact Nat.zero_le _
  | struct fields =>
    cases v with
    | struct vals => exact Nat.le_refl _
    | _ => exact Nat.zero_le _
  | ptr dir inner nullable =>
    cases v with
    | imm v =>
      rw [imageLen]
      split
      · exact Nat.le_refl 4
      · exact Nat.zero_le 4
    | ptr pointee => exact Nat.le_refl 4
    | _ => exact Nat.zero_le _
  | len i => exact h.elim
  | _ =>
    cases v with
    | imm v => first | exact Nat.le_refl 4 | exact Nat.zero_le 4
    | res r => first | exact Nat.le_refl 4 | exact Nat.zero_le 4
    | _ => exact Nat.zero_le 4

/-- Plain fields are exact. -/
theorem PlainFields.exact : ∀ {fields : List ArgType} {vals : List ArgValue},
    PlainFields fields vals → FieldsExact fields vals
  | f :: fields, v :: vals, h, 0, _, _, hf, hv => by
    cases hf
    cases hv
    exact h.1.imageLen_le
  | _ :: _, _ :: _, h, k + 1, f, v, hf, hv => PlainFields.exact h.2 k f v hf hv
  | [], _, _, _, _, _, hf, _ => by simp at hf
  | _ :: _, [], _, _, _, _, _, hv => by simp at hv

end

/-! ## Lowering builds the image -/

section
variable {base : U32} {cap : Nat}

/-- A value of a type that is neither a pointer nor a struct allocates nothing. -/
theorem buildBytes_scalar {ty : ArgType} (hp : ∀ dir inner nullable, ty ≠ .ptr dir inner nullable)
    (hs : ∀ fields, ty ≠ .struct fields) (v : ArgValue) (w : ScratchWriter) :
    buildBytes base ty v w = ((buildBytes base ty v (.new 0)).1, w) := by
  cases ty with
  | ptr dir inner nullable => exact absurd rfl (hp dir inner nullable)
  | struct fields => exact absurd rfl (hs fields)
  | res kind =>
    cases v with
    | res r => cases r <;> rfl
    | _ => rfl
  | _ => cases v <;> rfl

/-- A scalar reserves nothing. -/
theorem Builds.scalar {ty : ArgType} {v : ArgValue} {w : ScratchWriter} (hw : w.Full cap)
    (h : buildBytes base ty v w = ((buildBytes base ty v (.new 0)).1, w)) :
    Builds base cap w (buildBytes base ty v w)
      fun _ bytes => bytes = (buildBytes base ty v (.new 0)).1 ∧ ([] : List Region) = [] := by
  rw [h]
  exact ⟨hw, List.prefix_rfl, fun _ _ => ⟨rfl, rfl⟩⟩

mutual

/-- Serializing a plain value stores its pointees. -/
theorem buildBytes_builds : ∀ (out : Bool) (ty : ArgType) (v : ArgValue) (w : ScratchWriter),
    Plain ty v → w.Full cap → NoWrap cap (requests ty v) w.cursor →
    Builds base cap w (buildBytes base ty v w) fun img bytes =>
      Encoded base cap img ty v bytes (layValue cap out ty v w.cursor).1
  | out, .ptr dir inner nullable, v, w, hp, hw, hn => by
    cases v with
    | ptr pointee =>
      rw [requests, noWrap_append, ← layValue_allocate (out || dir ≠ .in) inner pointee] at hn
      have ih := buildBytes_builds (out || dir ≠ .in) inner pointee w hp hw hn.1
      obtain ⟨hlen, hcur, -⟩ := buildBytes_layout base (out || dir ≠ .in) inner pointee w
      rw [hw.cap_eq] at hcur
      have hround := hn.2.1
      dsimp only at hround
      rw [← hcur] at hround
      have hst := ih.full.write (isAlign_valueSizeAlign inner pointee) hround
        (buildBytes base inner pointee w).1
      have hoff := (write_layout (buildBytes base inner pointee w).2 (buildBytes base inner pointee w).1
        (valueSizeAlign inner pointee).2).1
      rw [hlen, hcur, ih.full.cap_eq] at hoff
      refine ⟨hst.1, ih.grows.trans hst.2.1, fun img hg => ?_⟩
      refine ⟨_, _, (buildBytes base inner pointee w).1, rfl, ?_, hlen.symm,
        ih.encoded img (hst.2.1.trans hg), ?_⟩
      · rw [← hoff]
        rfl
      · have hs := hst.2.2.mono hg
        rw [hoff] at hs
        exact hs
    | imm v =>
      refine Builds.scalar hw ?_
      simp only [buildBytes]
      split <;> rfl
    | _ => exact Builds.scalar hw rfl
  | out, .struct fields, v, w, hp, hw, hn => by
    cases v with
    | struct vals =>
      have hlen : min fields.length vals.length ≤ (structLayout fields vals).1.length :=
        Nat.le_of_eq (length_layoutFrom fields vals 0 1).symm
      have ih := buildFields_builds out fields vals (structLayout fields vals).1 w
        (List.replicate (structLayout fields vals).2.1 0) hp.1 hw hn hlen
      refine ⟨ih.full, ih.grows, fun img hg => ⟨_, ih.encoded img hg, ?_, ?_⟩⟩
      · exact (buildBytes_layout base out (.struct fields) (.struct vals) w).1
      · exact (hp.2.laidOut hp.1.exact w).stands
    | _ => exact Builds.scalar hw rfl
  | out, .int _ _, v, w, _, hw, _ | out, .const _, v, w, _, hw, _ | out, .flags _ _, v, w, _, hw, _
  | out, .buffer _, v, w, _, hw, _ | out, .stringConst _, v, w, _, hw, _
  | out, .res _, v, w, _, hw, _ => by
    cases v <;> exact Builds.scalar hw (buildBytes_scalar (fun _ _ _ => ArgType.noConfusion)
      (fun _ => ArgType.noConfusion) _ w)
  | _, .len _, _, _, hp, _, _ => hp.elim

/-- Serializing the fields of a struct stores their pointees. -/
theorem buildFields_builds : ∀ (out : Bool) (fields : List ArgType) (vals : List ArgValue)
    (offsets : List Nat) (w : ScratchWriter) (buf : List U8), PlainFields fields vals → w.Full cap →
    NoWrap cap (requestsFields fields vals) w.cursor → min fields.length vals.length ≤ offsets.length →
    Builds base cap w (buildFields base fields vals offsets w buf) fun img _ =>
      EncodedFields base cap img fields vals (fieldImages base fields vals w)
        (layFields cap out fields vals w.cursor).1
  | out, f :: fields, v :: vals, off :: offsets, w, buf, hp, hw, hn, hlen => by
    rw [requestsFields, noWrap_append, ← layValue_allocate out f v] at hn
    have ih := buildBytes_builds out f v w hp.1 hw hn.1
    obtain ⟨-, hcur, -⟩ := buildBytes_layout base out f v w
    rw [hw.cap_eq] at hcur
    have hlen' : min fields.length vals.length ≤ offsets.length := by
      simp only [List.length_cons] at hlen
      omega
    have ihs := buildFields_builds out fields vals offsets (buildBytes base f v w).2
      (copyAt buf off (buildBytes base f v w).1) hp.2 ih.full (hcur.symm ▸ hn.2) hlen'
    rw [hcur] at ihs
    refine ⟨ihs.full, ih.grows.trans ihs.grows, fun img hg => ?_⟩
    exact ⟨_, _, _, _, rfl, rfl, ih.encoded img (ihs.grows.trans hg), ihs.encoded img hg⟩
  | _, [], vals, _, w, _, _, hw, _, _ => by
    refine ⟨hw, List.prefix_rfl, fun img _ => ?_⟩
    cases vals <;> exact ⟨rfl, rfl⟩
  | _, _ :: _, [], _, w, _, _, hw, _, _ => ⟨hw, List.prefix_rfl, fun img _ => ⟨rfl, rfl⟩⟩
  | _, _ :: _, _ :: _, [], _, _, _, _, _, hlen => by simp at hlen

end

end

/-! ## Lowering a program -/

section
variable {p : Prog} {base : U32} {cap i : Nat} {produces : Produces}

/-- Lowering an argument stores its pointees. -/
theorem lowerArg_builds (j : Nat) (ty : ArgType) (v : ArgValue) (l : Lowering) (hp : OfPointee Plain (ty, v))
    (hw : l.w.Full cap) (hn : NoWrap cap (argRequests ty v) l.w.cursor) :
    Builds base cap l.w (leBytes (lowerArg p base i j produces ty v l).1 4,
        (lowerArg p base i j produces ty v l).2.w) fun img bytes =>
      IsPointer ty v → Encoded base cap img ty v bytes (layArg cap ty v l.w.cursor).1 := by
  cases v with
  | ptr pointee =>
    cases ty with
    | ptr dir inner nullable =>
      have h := @buildBytes_builds base cap false (.ptr dir inner nullable) (.ptr pointee) l.w
        (hp dir inner nullable pointee rfl) hw hn
      exact ⟨h.full, h.grows, fun img hg _ => h.encoded img hg⟩
    | _ => exact ⟨hw, List.prefix_rfl, fun _ _ ⟨_, _, _, _, h, _⟩ => by cases h⟩
  | res r =>
    cases ty with
    | res want => cases r <;> exact ⟨hw, List.prefix_rfl, fun _ _ ⟨_, _, _, _, h, _⟩ => by cases h⟩
    | _ => exact ⟨hw, List.prefix_rfl, fun _ _ ⟨_, _, _, _, _, h⟩ => by cases h⟩
  | _ => cases ty <;> exact ⟨hw, List.prefix_rfl, fun _ _ ⟨_, _, _, _, _, h⟩ => by cases h⟩

/-- The pointers among the arguments of a call hold the addresses of their pointees. -/
def PointersEncoded (base : U32) (cap : Nat) (img : List U8) (tys : List ArgType) (vals : List ArgValue)
    (words : List U32) (regions : List (List Region)) : Prop :=
  ∀ (j : Nat) ty v, tys[j]? = some ty → vals[j]? = some v → IsPointer ty v →
    ∃ word rs, words[j]? = some word ∧ regions[j]? = some rs ∧
      Encoded base cap img ty v (leBytes word 4) rs

/-- Lowering the arguments of a call stores their pointees. -/
theorem lowerArgs_builds (j : Nat) (tys : List ArgType) (vals : List ArgValue) (l : Lowering)
    (hp : ∀ a ∈ tys.zip vals, OfPointee Plain a) (hw : l.w.Full cap)
    (hn : NoWrap cap (argsRequests tys vals) l.w.cursor) :
    (lowerArgs p base i produces j tys vals l).2.w.Full cap ∧
      l.w.bytes <+: (lowerArgs p base i produces j tys vals l).2.w.bytes ∧
      ∀ img, (lowerArgs p base i produces j tys vals l).2.w.bytes <+: img →
        PointersEncoded base cap img tys vals (lowerArgs p base i produces j tys vals l).1
          (layArgs cap tys vals l.w.cursor).1 := by
  induction tys generalizing vals j l with
  | nil =>
    refine ⟨?_, ?_, fun img _ k ty v hty => by simp at hty⟩
    · cases vals <;> exact hw
    · cases vals <;> exact List.prefix_rfl
  | cons ty tys ih =>
    cases vals with
    | nil => exact ⟨hw, List.prefix_rfl, fun img _ k ty v _ hv => by simp at hv⟩
    | cons v vals =>
      rw [argsRequests, noWrap_append, ← layArg_allocate] at hn
      have harg := @lowerArg_builds p base cap i produces j ty v l
        (hp _ List.mem_cons_self) hw hn.1
      obtain ⟨-, hcur, -⟩ := @lowerArg_layout p base i produces j ty v l
      rw [hw.cap_eq] at hcur
      obtain ⟨hfull, hgrows, henc⟩ := ih (j + 1) vals (lowerArg p base i j produces ty v l).2
        (fun a ha => hp a (List.mem_cons_of_mem _ ha)) harg.full (hcur.symm ▸ hn.2)
      rw [hcur] at henc
      refine ⟨hfull, harg.grows.trans hgrows, fun img hg k ty' v' hty hv hptr => ?_⟩
      cases k with
      | zero =>
        cases hty
        cases hv
        exact ⟨_, _, rfl, rfl, harg.encoded img (hgrows.trans hg) hptr⟩
      | succ k => exact henc img hg k ty' v' hty hv hptr

/-- Lowering the calls stores their pointees. -/
theorem lowerCalls_builds (i : Nat) (calls : List TypedCall) (l : Lowering)
    (hp : ∀ c ∈ calls, ∀ a ∈ c.desc.args.zip c.args, OfPointee Plain a) (hw : l.w.Full cap)
    (hn : NoWrap cap (callsRequests calls) l.w.cursor) :
    (lowerCalls p base i calls l).2.w.Full cap ∧
      l.w.bytes <+: (lowerCalls p base i calls l).2.w.bytes ∧
      ∀ img, (lowerCalls p base i calls l).2.w.bytes <+: img → ∀ (k : Nat) c, calls[k]? = some c →
        ∃ words regions, (lowerCalls p base i calls l).1[k]? = some ⟨c.desc.nr, registers words⟩ ∧
          (layCalls cap calls l.w.cursor)[k]? = some regions ∧
          PointersEncoded base cap img c.desc.args c.args words regions := by
  induction calls generalizing i l with
  | nil => exact ⟨hw, List.prefix_rfl, fun img _ k c hc => by simp at hc⟩
  | cons c calls ih =>
    rw [callsRequests, List.flatMap_cons, noWrap_append, ← layArgs_allocate] at hn
    obtain ⟨hfull, hgrows, henc⟩ := @lowerArgs_builds p base cap i c.desc.produces 0 c.desc.args c.args l (hp c List.mem_cons_self) hw hn.1
    obtain ⟨-, hcur, -⟩ := @lowerArgs_layout p base i c.desc.produces 0 c.desc.args c.args l
    rw [hw.cap_eq] at hcur
    obtain ⟨hfull', hgrows', henc'⟩ := ih (i + 1)
      (lowerArgs p base i c.desc.produces 0 c.desc.args c.args l).2
      (fun d hd => hp d (List.mem_cons_of_mem _ hd)) hfull (hcur.symm ▸ hn.2)
    rw [hcur] at henc'
    refine ⟨hfull', hgrows.trans hgrows', fun img hg k d hd => ?_⟩
    cases k with
    | zero =>
      cases hd
      exact ⟨_, _, rfl, rfl, henc img (hgrows'.trans hg)⟩
    | succ k => exact henc' img hg k d hd

end

/-! ## Which programs -/

mutual

/-- The requests of a value are aligned; a plain value with an alignment takes some bytes. -/
theorem requests_spec : ∀ (ty : ArgType) (v : ArgValue), ∀ r ∈ requests ty v,
    IsAlign r.2 ∧ (Shaped ty v → Plain ty v → 1 < r.2 → 0 < r.1)
  | .ptr dir inner nullable, v => by
    cases v with
    | ptr pointee =>
      intro r hr
      rcases List.mem_append.mp hr with hr | hr
      · exact requests_spec inner pointee r hr
      · cases List.mem_singleton.mp hr
        refine ⟨isAlign_valueSizeAlign inner pointee, fun hs hp hlt => ?_⟩
        have hlen := ((laidOut_iff inner pointee hs).mpr hp).exact.imageLen_eq
        exact hlen ▸ Plain.size_pos inner pointee hp hlt
    | _ => exact fun _ hr => by cases hr
  | .struct fields, v => by
    cases v with
    | struct vals =>
      intro r hr
      obtain ⟨ha, hs⟩ := requestsFields_spec fields vals r hr
      exact ⟨ha, fun hsh hp => hs hsh hp.1⟩
    | _ => exact fun _ hr => by cases hr
  | .int _ _, v | .const _, v | .flags _ _, v | .buffer _, v | .stringConst _, v | .res _, v
  | .len _, v => by cases v <;> exact fun _ hr => by cases hr

/-- The same of the fields of a struct. -/
theorem requestsFields_spec : ∀ (fields : List ArgType) (vals : List ArgValue),
    ∀ r ∈ requestsFields fields vals,
      IsAlign r.2 ∧ (ShapedFields fields vals → PlainFields fields vals → 1 < r.2 → 0 < r.1)
  | f :: fields, v :: vals, r, hr => by
    rcases List.mem_append.mp hr with hr | hr
    · obtain ⟨ha, hs⟩ := requests_spec f v r hr
      exact ⟨ha, fun hsh hp => hs hsh.1 hp.1⟩
    · obtain ⟨ha, hs⟩ := requestsFields_spec fields vals r hr
      exact ⟨ha, fun hsh hp => hs hsh.2 hp.2⟩
  | [], vals, r, hr => by cases vals <;> cases hr
  | _ :: _, [], _, hr => by cases hr

end

/-- A request of a call is one of its arguments. -/
theorem mem_argsRequests {r : Nat × Nat} : ∀ {tys : List ArgType} {vals : List ArgValue},
    r ∈ argsRequests tys vals → ∃ a ∈ tys.zip vals, r ∈ argRequests a.1 a.2
  | ty :: tys, v :: vals, hr => by
    rcases List.mem_append.mp hr with hr | hr
    · exact ⟨_, List.mem_cons_self, hr⟩
    · obtain ⟨a, ha, hr⟩ := mem_argsRequests hr
      exact ⟨a, List.mem_cons_of_mem _ ha, hr⟩
  | [], vals, hr => by cases vals <;> cases hr
  | _ :: _, [], hr => by cases hr

/-- The same of an argument. -/
theorem argRequests_spec {a : ArgType × ArgValue} {r : Nat × Nat} (hr : r ∈ argRequests a.1 a.2) :
    IsAlign r.2 ∧ (OfPointee Shaped a → OfPointee Plain a → 1 < r.2 → 0 < r.1) := by
  obtain ⟨ty, v⟩ := a
  cases v with
  | ptr pointee =>
    cases ty with
    | ptr dir inner nullable =>
      obtain ⟨ha, hs⟩ := requests_spec (.ptr dir inner nullable) (.ptr pointee) r hr
      exact ⟨ha, fun hsh hp => hs (hsh dir inner nullable pointee rfl : Shaped inner pointee)
        (hp dir inner nullable pointee rfl : Plain inner pointee)⟩
    | _ => cases hr
  | _ => cases ty <;> cases hr

/-- The same of a program. -/
theorem Prog.requests_spec (p : Prog) : ∀ r ∈ p.requests,
    IsAlign r.2 ∧ (p.EveryPointee Shaped → p.EveryPointee Plain → 1 < r.2 → 0 < r.1) := by
  intro r hr
  obtain ⟨c, hc, hr⟩ := List.mem_flatMap.mp hr
  obtain ⟨a, ha, hr⟩ := mem_argsRequests hr
  obtain ⟨hal, hs⟩ := argRequests_spec hr
  exact ⟨hal, fun hsh hp => hs (hsh c hc a ha) (hp c hc a ha)⟩

/-- Every call has a register for each of its arguments. -/
def Prog.FitsRegisters (p : Prog) : Prop := ∀ c ∈ p.calls, (c.desc.args.zip c.args).length ≤ 6

section
variable {p : Prog} {base : U32} {cap : Nat}

/-- The registers of a call hold its first six words. -/
theorem registers_getElem? {words : List U32} {j : Nat} {word : U32} (h : words[j]? = some word)
    (hj : j < 6) : (registers words)[j]? = some word := by
  rw [registers, List.getElem?_take_of_lt hj,
    List.getElem?_append_left (List.getElem?_eq_some_iff.mp h).1]
  exact h

/-- A program of plain values is lowered as it should be if no offset wraps. -/
theorem imaged_of_noWrap (hr : p.FitsRegisters) (hp : p.EveryPointee Plain)
    (hn : NoWrap cap p.requests 0) : Imaged p base cap := by
  have hw : (ScratchWriter.new cap).Full cap := ⟨rfl, rfl, Nat.zero_le cap⟩
  obtain ⟨hfull, -, henc⟩ := @lowerCalls_builds p base cap 0 p.calls
    ⟨.new cap, [], List.replicate p.calls.length none⟩ hp hw hn
  refine ⟨hr, hfull.length ▸ hfull.le, ?_, ?_⟩
  · rw [layCalls_allocate]
    exact allocate_apart _ 0 (fun r hm => (p.requests_spec r hm).1) (Nat.zero_le cap) hn
  · intro i j c ty v hc hty hv hptr
    obtain ⟨words, regions, hcall, hreg, hpe⟩ := henc _ List.prefix_rfl i c hc
    obtain ⟨word, rs, hword, hrs, hen⟩ := hpe j ty v hty hv hptr
    have hz : (c.desc.args.zip c.args)[j]? = some (ty, v) := List.getElem?_zip_eq_some.mpr ⟨hty, hv⟩
    have hj : j < 6 := Nat.lt_of_lt_of_le (List.getElem?_eq_some_iff.mp hz).1
      (hr c (List.mem_of_getElem? hc))
    exact ⟨_, word, rs, hcall, registers_getElem? hword hj, Option.bind_eq_some_iff.mpr ⟨_, hreg, hrs⟩,
      hen⟩

/-- In a region of less than 4 GiB nothing but the values matters. -/
theorem imaged_of_cap (hr : p.FitsRegisters) (hp : p.EveryPointee Plain) (hcap : cap + 7 < 2 ^ 32) :
    Imaged p base cap :=
  imaged_of_noWrap hr hp
    (noWrap_of_cap hcap p.requests 0 (fun r hm => (p.requests_spec r hm).1) (Nat.zero_le cap))

/-- Values of the right shape are lowered as they should be exactly when they are plain and no offset
wraps. -/
theorem imaged_iff (hs : p.EveryPointee Shaped) (hcap : cap < 2 ^ 32) :
    (p.EveryPointee LaidOut ∧ Imaged p base cap) ↔
      p.FitsRegisters ∧ p.EveryPointee Plain ∧ NoWrap cap p.requests 0 := by
  have hplain : p.EveryPointee LaidOut ↔ p.EveryPointee Plain := by
    constructor
    · intro hl c hc a ha dir inner nullable pointee heq
      exact (laidOut_iff inner pointee (hs c hc a ha _ _ _ _ heq)).mp (hl c hc a ha _ _ _ _ heq)
    · intro hp c hc a ha dir inner nullable pointee heq
      exact (laidOut_iff inner pointee (hs c hc a ha _ _ _ _ heq)).mpr (hp c hc a ha _ _ _ _ heq)
  rw [hplain]
  constructor
  · rintro ⟨hp, hi⟩
    refine ⟨hi.registers, hp, noWrap_of_apart hcap p.requests 0 (fun r hm => ?_) (Nat.zero_le cap)
      (fun h0 => absurd h0 (Nat.lt_irrefl 0)) ?_⟩
    · obtain ⟨ha, hsz⟩ := p.requests_spec r hm
      exact ⟨ha, hsz hs hp⟩
    · have hapart := hi.apart
      rw [layCalls_allocate] at hapart
      exact hapart
  · rintro ⟨hr, hp, hn⟩
    exact ⟨hp, imaged_of_noWrap hr hp hn⟩

end

end FuzzSoft
