import FuzzSoft.Prog.Lower
import FuzzSoft.Prog.Rng
import FuzzSoft.Prog.Syscalls
import FuzzSoft.Prog.Threading

/-!
# Generation of calls

The lower half of `genr.rs`: the values of a call, drawn from the generator, with a pool of live
resources from which later calls take theirs. Indexing out of range panics in the model as in the
code. Each function is followed by what it ensures, up to `ensures_generateArgs`: arguments that are
in order after the calls they were generated for.
-/

namespace FuzzSoft

open Lib Gen Rng

/-! ## The pool of live resources -/

/-- A resource that a call of the program produces. -/
structure PoolEntry where
  callIdx : U16
  slot : U8
  kind : ResourceKind
  deriving DecidableEq

def PoolEntry.ref (e : PoolEntry) : ResRef := .produced e.callIdx e.slot

def poolOf (i : Nat) (pr : Produces) : List PoolEntry :=
  (List.range pr.slotCount.toNat).filterMap fun slot =>
    (pr.kindAt (BitVec.ofNat 8 slot)).map (⟨BitVec.ofNat 16 i, BitVec.ofNat 8 slot, ·⟩)

def buildPool (calls : List TypedCall) : List PoolEntry :=
  calls.zipIdx.flatMap fun c => poolOf c.2 c.1.desc.produces

/-- The live resources that the other arguments of a call are bound to. -/
def sameCallAnchors (pool : List PoolEntry) (args : List ArgValue) (exclude : Option Nat) :
    List PoolEntry :=
  args.zipIdx.filterMap fun a =>
    if exclude = some a.2 then none
    else match a.1 with
      | .res (.produced callIdx slot) => pool.find? fun e => e.callIdx = callIdx ∧ e.slot = slot
      | _ => none

/-- A pool of resources that the calls before really produce. -/
def PoolOk (descs : List SyscallDesc) (pool : List PoolEntry) : Prop :=
  ∀ e ∈ pool, ∀ want, kindCompat want e.kind = true → RefOk descs want e.ref

section
variable {calls : List TypedCall} {descs : List SyscallDesc} {pool : List PoolEntry}

/-- The pool of a program offers what its calls produce. -/
theorem poolOk_buildPool (h : calls.length ≤ 2 ^ 16) : PoolOk (calls.map (·.desc)) (buildPool calls) := by
  intro e he want hw
  obtain ⟨⟨c, i⟩, hc, he⟩ := List.mem_flatMap.mp he
  have hget : calls[i]? = some c := List.mem_zipIdx_iff_getElem?.mp hc
  have hi : i < calls.length := (List.getElem?_eq_some_iff.mp hget).1
  obtain ⟨slot, -, hslot⟩ := List.mem_filterMap.mp he
  obtain ⟨k, hk, rfl⟩ := Option.map_eq_some_iff.mp hslot
  refine ⟨c.desc, k, ?_, hk, hw⟩
  rw [BitVec.toNat_ofNat, Nat.mod_eq_of_lt (Nat.lt_of_lt_of_le hi h), List.getElem?_map, hget]
  rfl

end

/-! ## Choosing a resource -/

def pickSeed (want : ResourceKind) : Rand ResRef :=
  if (seedsFor want).isEmpty then pure (.seed (-1)) else do
    let s ← pick (seedsFor want)
    pure (.seed s)

/-- A compatible producer, preferably the latest, or else a seed. -/
def pickRes (want : ResourceKind) (pool : List PoolEntry) : Rand ResRef := do
  let reuse ← chance 70
  let compatible := pool.filter fun e => kindCompat want e.kind
  if reuse ∧ compatible ≠ [] then do
    let latest ← chanceIf (compatible.length > 1) 60
    let e ← (if latest then index compatible (compatible.length - 1) else pick compatible)
    pure e.ref
  else pickSeed want

def CROSS_REF_BIAS_PCT : Nat := 55

/-- The other live resources of the very kind of an anchor. -/
def siblings (pool : List PoolEntry) (anchor : PoolEntry) : List PoolEntry :=
  pool.filter fun e =>
    e.kind = anchor.kind ∧ ¬ (e.callIdx = anchor.callIdx ∧ e.slot = anchor.slot)

/-- `pickRes`, biased toward a sibling of the first anchor that has one. -/
def pickResBiased (want : ResourceKind) (pool anchors : List PoolEntry) : Rand ResRef := do
  let biased ← chanceIf (!anchors.isEmpty) CROSS_REF_BIAS_PCT
  let anchor := anchors.find? fun a => kindCompat want a.kind ∧ siblings pool a ≠ []
  match biased, anchor with
  | true, some a => do
    let e ← pick (siblings pool a)
    pure e.ref
  | _, _ => pickRes want pool

/-- A reference that a kind may be given: a seed, or a compatible entry of the pool. -/
def Served (pool : List PoolEntry) (want : ResourceKind) (r : ResRef) : Prop :=
  (∃ s, r = .seed s) ∨ ∃ e ∈ pool, kindCompat want e.kind = true ∧ r = e.ref

section
variable {descs : List SyscallDesc} {pool anchors : List PoolEntry}

/-- What the pool serves may be referred to. -/
theorem Served.refOk (hp : PoolOk descs pool) {want : ResourceKind} {r : ResRef}
    (h : Served pool want r) : RefOk descs want r := by
  rcases h with ⟨s, rfl⟩ | ⟨e, he, hk, rfl⟩
  · trivial
  · exact hp e he want hk

/-- A seed is always served. -/
theorem ensures_pickSeed_served (want : ResourceKind) :
    Ensures (pickSeed want) (Served pool want) := by
  refine ensures_ite (fun _ => ensures_pure (.inl ⟨_, rfl⟩)) fun h => ?_
  refine ensures_bind (ensures_pick (by simpa using h)) fun s _ => ?_
  exact ensures_pure (.inl ⟨s, rfl⟩)

/-- A picked resource is served by the pool. -/
theorem ensures_pickRes_served (want : ResourceKind) :
    Ensures (pickRes want pool) (Served pool want) := by
  refine ensures_chance_bind fun reuse =>
    ensures_ite (fun h => ?_) fun _ => ensures_pickSeed_served want
  refine ensures_bind (ensures_chanceIf _ 60) fun latest _ => ?_
  refine ensures_bind (P := (· ∈ pool.filter fun e => kindCompat want e.kind))
    (ensures_ite (fun _ => ?_) fun _ => ensures_pick h.2) fun e he => ?_
  · have hpos := List.length_pos_iff.mpr h.2
    exact (ensures_index (by omega)).mono fun _ ha => List.mem_of_getElem? ha
  · obtain ⟨hmem, hk⟩ := List.mem_filter.mp he
    exact ensures_pure (.inr ⟨e, hmem, hk, rfl⟩)

/-- So is one picked with a bias. -/
theorem ensures_pickResBiased_served (want : ResourceKind) :
    Ensures (pickResBiased want pool anchors) (Served pool want) := by
  refine ensures_bind (ensures_chanceIf _ _) fun biased _ => ?_
  dsimp only
  split
  next a ha =>
    have hfound := List.find?_some ha
    simp only [Bool.decide_and, Bool.decide_eq_true, Bool.and_eq_true, decide_eq_true_eq] at hfound
    refine ensures_bind (ensures_pick hfound.2) fun e he => ?_
    obtain ⟨hmem, hk⟩ := List.mem_filter.mp he
    simp only [decide_eq_true_eq] at hk
    exact ensures_pure (.inr ⟨e, hmem, hk.1 ▸ hfound.1, rfl⟩)
  next => exact ensures_pickRes_served want

/-- A seed may be referred to. -/
theorem ensures_pickSeed (want : ResourceKind) : Ensures (pickSeed want) (RefOk descs want) :=
  (@ensures_pickSeed_served [] want).mono fun _ => Served.refOk fun _ he => by cases he

/-- A picked resource may be referred to. -/
theorem ensures_pickRes (hp : PoolOk descs pool) (want : ResourceKind) :
    Ensures (pickRes want pool) (RefOk descs want) :=
  (ensures_pickRes_served want).mono fun _ => Served.refOk hp

/-- So may one picked with a bias. -/
theorem ensures_pickResBiased (hp : PoolOk descs pool) (want : ResourceKind) :
    Ensures (pickResBiased want pool anchors) (RefOk descs want) :=
  (ensures_pickResBiased_served want).mono fun _ => Served.refOk hp

end

/-! ## Values -/

/-- The length that lowering gives a value, for a length argument. -/
def lenOfArg : ArgType → ArgValue → Nat
  | .ptr _ _ _, .imm _ => 0
  | .ptr _ inner _, .ptr pointee => ptrSizeOf inner pointee
  | .buffer _, .bytes b => b.length % 2 ^ 32
  | .stringConst _, .bytes b => b.length % 2 ^ 32
  | _, _ => 0

def DICT_BIAS_PCT : Nat := 15

def maskToBits (v : U64) (bits : U8) : U64 :=
  if bits.toNat ≥ 64 then v else v &&& ((1#64 <<< bits.toNat) - 1)

def INTERESTING_INTS : List U64 :=
  [0, 1, 2, -1, 4096, -4096, 0x7FFFFFFF, -0x80000000, 0xFFFF]

def pickInterestingInt (bits : U8) : Rand U64 := do
  let v ← pick INTERESTING_INTS
  pure (maskToBits v bits)

/-- The largest value of a width. -/
def boundaryInt (bits : U8) (signed : Bool) : U64 :=
  if bits.toNat ≥ 64 then if signed then 0x7FFFFFFFFFFFFFFF else -1
  else if signed then (1#64 <<< ((bits - 1).toNat % 64)) - 1
  else (1#64 <<< bits.toNat) - 1

def genInt (bits : U8) (signed : Bool) : Rand U64 := do
  let choice ← below 7
  let raw ← (match choice with
    | 0 => pure 0
    | 1 => pure 1
    | 2 => pure 2
    | 3 => pure (-1)
    | 4 => pure (boundaryInt bits signed)
    | 5 => do
      let x ← next
      pure (BitVec.ofNat 64 (x.toNat % 256))
    | _ => nextU64 : Rand U64)
  pure (maskToBits raw bits)

/-- A random subset of the flags. -/
def flagSubset (vals : List U32) : Rand U32 :=
  vals.foldlM (fun acc v => do
    let b ← bool
    pure (if b then acc ||| v else acc)) 0

def genFlags (vals : List U32) (bitmask : Bool) : Rand U32 :=
  if !bitmask then pick vals
  else do
    let one ← bool
    if one then pick vals else flagSubset vals

def genLen : LenSpec → Rand Nat
  | .fixed n => pure n.toNat
  | .range lo hi =>
    if hi ≤ lo then pure lo.toNat
    else do
      let n ← below (hi.toNat - lo.toNat + 1)
      pure (lo.toNat + n)

/-- Random bytes. -/
def genBytes (n : Nat) : Rand (List U8) :=
  collect (do
    let x ← next
    pure (x.setWidth 8)) n

/-- The bytes of a string. -/
def strBytes (s : String) : List U8 := s.toUTF8.data.toList.map (·.toBitVec)

mutual

/-- A fresh value of a type. -/
def genArgValue (pool : List PoolEntry) : ArgType → Rand ArgValue
  | .const v => pure (.imm (v.setWidth 64))
  | .int bits signed => do
    let dict ← chance DICT_BIAS_PCT
    if dict then do
      let v ← pickDictConst
      pure (.imm (maskToBits (v.setWidth 64) bits))
    else do
      let v ← genInt bits signed
      pure (.imm v)
  | .flags vals bitmask => do
    let dict ← chance DICT_BIAS_PCT
    if dict then do
      let v ← pickDictConst
      if bitmask then do
        let w ← genFlags vals bitmask
        pure (.imm ((v ||| w).setWidth 64))
      else pure (.imm (v.setWidth 64))
    else do
      let v ← genFlags vals bitmask
      pure (.imm (v.setWidth 64))
  | .res kind => do
    let r ← pickRes kind pool
    pure (.res r)
  | .len _ => pure (.imm 0)
  | .ptr _ inner nullable => do
    let null ← chanceIf nullable 20
    if null then pure (.imm 0)
    else do
      let v ← genArgValue pool inner
      pure (.ptr v)
  | .buffer len => do
    let n ← genLen len
    let b ← genBytes n
    pure (.bytes b)
  | .struct fields => do
    let vals ← genStructFields pool fields
    pure (.struct vals)
  | .stringConst strs => do
    let s ← pick strs
    pure (.bytes (strBytes s ++ [0]))

def genStructFields (pool : List PoolEntry) : List ArgType → Rand (List ArgValue)
  | [] => pure []
  | f :: fields => do
    let v ← genArgValue pool f
    let vals ← genStructFields pool fields
    pure (v :: vals)

end

mutual

/-- A type never asks to pick from an empty table. -/
def ArgType.choices : ArgType → Bool
  | .flags vals _ => !vals.isEmpty
  | .stringConst strs => !strs.isEmpty
  | .ptr _ inner _ => inner.choices
  | .struct fields => choicesAll fields
  | _ => true

/-- `ArgType.choices` over a list. -/
def choicesAll : List ArgType → Bool
  | [] => true
  | ty :: tys => ty.choices && choicesAll tys

end

/-- Every type of the list has choices. -/
theorem choicesAll_iff (tys : List ArgType) :
    choicesAll tys = true ↔ ∀ ty ∈ tys, ty.choices = true := by
  induction tys with
  | nil => simp [choicesAll]
  | cons ty tys ih => simp [choicesAll, ih]

section
variable {descs : List SyscallDesc} {pool : List PoolEntry}

/-- An interesting integer is always found. -/
theorem ensures_pickInterestingInt (bits : U8) : Ensures (pickInterestingInt bits) fun _ => True :=
  ensures_bind (ensures_pick (by decide)) fun _ _ => ensures_pure trivial

/-- An integer is always generated. -/
theorem ensures_genInt (bits : U8) (signed : Bool) : Ensures (genInt bits signed) fun _ => True := by
  refine ensures_bind (ensures_below 7) fun choice _ => ?_
  refine ensures_bind (P := fun _ => True) ?_ fun raw _ => ensures_pure trivial
  split
  case h_6 => exact ensures_bind ensures_next fun _ _ => ensures_pure trivial
  case h_7 => exact ensures_nextU64
  all_goals exact ensures_pure trivial

/-- So is a subset of flags. -/
theorem ensures_flagSubset (vals : List U32) : Ensures (flagSubset vals) fun _ => True := by
  refine ensures_foldlM (I := fun _ => True) (fun acc v _ => ?_) vals 0 trivial
  exact ensures_bind ensures_bool fun _ _ => ensures_pure trivial

/-- So are flags, if there are any. -/
theorem ensures_genFlags {vals : List U32} (h : vals ≠ []) (bitmask : Bool) :
    Ensures (genFlags vals bitmask) fun _ => True := by
  have hpick : Ensures (pick vals) fun _ => True := (ensures_pick h).mono fun _ _ => trivial
  refine ensures_ite (fun _ => hpick) fun _ => ?_
  refine ensures_bind ensures_bool fun one _ => ?_
  exact ensures_ite (fun _ => hpick) fun _ => ensures_flagSubset vals

/-- So is a length. -/
theorem ensures_genLen (len : LenSpec) : Ensures (genLen len) fun _ => True := by
  cases len with
  | fixed n => exact ensures_pure trivial
  | range lo hi =>
    refine ensures_ite (fun _ => ensures_pure trivial) fun _ => ?_
    exact ensures_bind (ensures_below _) fun _ _ => ensures_pure trivial

/-- Bytes are generated to their length. -/
theorem ensures_genBytes (n : Nat) : Ensures (genBytes n) (·.length = n) :=
  (ensures_collect (P := fun _ => True)
    (ensures_bind ensures_next fun _ _ => ensures_pure trivial) n).mono fun _ h => h.1

mutual

/-- A fresh value is in order where it may stand at top level. -/
theorem ensures_genArgValue (hp : PoolOk descs pool) : ∀ ty : ArgType, ty.choices = true →
    Ensures (genArgValue pool ty) (ArgOk descs ty)
  | .const v, _ => ensures_pure trivial
  | .int bits signed, _ => by
    refine ensures_chance_bind fun dict => ensures_ite (fun _ => ?_) fun _ => ?_
    · exact ensures_bind ensures_pickDictConst fun _ _ => ensures_pure trivial
    · exact ensures_bind (ensures_genInt bits signed) fun _ _ => ensures_pure trivial
  | .flags vals bitmask, hc => by
    have hne : vals ≠ [] := by simpa [ArgType.choices] using hc
    refine ensures_chance_bind fun dict => ensures_ite (fun _ => ?_) fun _ => ?_
    · refine ensures_bind ensures_pickDictConst fun v _ => ensures_ite (fun _ => ?_) fun _ => ?_
      · exact ensures_bind (ensures_genFlags hne bitmask) fun _ _ => ensures_pure trivial
      · exact ensures_pure trivial
    · exact ensures_bind (ensures_genFlags hne bitmask) fun _ _ => ensures_pure trivial
  | .res kind, _ => ensures_bind (ensures_pickRes hp kind) fun _ hr => ensures_pure hr
  | .len _, _ => ensures_pure trivial
  | .ptr _ inner nullable, hc => by
    refine ensures_bind (ensures_chanceIf _ _) fun null _ => ensures_ite (fun _ => ?_) fun _ => ?_
    · exact ensures_pure trivial
    · exact ensures_bind (ensures_genArgValue hp inner hc) fun _ _ => ensures_pure trivial
  | .buffer len, _ => by
    refine ensures_bind (ensures_genLen len) fun n _ => ?_
    exact ensures_bind (ensures_genBytes n) fun _ _ => ensures_pure trivial
  | .struct fields, hc => by
    exact ensures_bind (ensures_genStructFields hp fields hc) fun _ _ => ensures_pure trivial
  | .stringConst strs, hc => by
    have hne : strs ≠ [] := by simpa [ArgType.choices] using hc
    exact ensures_bind (ensures_pick hne) fun _ _ => ensures_pure trivial

/-- The fields of a struct are generated one by one. -/
theorem ensures_genStructFields (hp : PoolOk descs pool) : ∀ fields : List ArgType,
    choicesAll fields = true → Ensures (genStructFields pool fields) fun _ => True
  | [], _ => ensures_pure trivial
  | f :: fields, hc => by
    simp only [choicesAll, Bool.and_eq_true] at hc
    refine ensures_bind (ensures_genArgValue hp f hc.1) fun v _ => ?_
    exact ensures_bind (ensures_genStructFields hp fields hc.2) fun _ _ => ensures_pure trivial

end

end

/-! ## Calls -/

/-- The value of the next argument of a call, after those in `args`. -/
def nextArg (desc : SyscallDesc) (pool : List PoolEntry) (args : List ArgValue) :
    ArgType → Rand ArgValue
  | .len i =>
    let size := match desc.args[i.toNat]?, args[i.toNat]? with
      | some ty, some v => lenOfArg ty v
      | _, _ => 0
    pure (.imm (BitVec.ofNat 64 size))
  | .res kind => do
    let r ← pickResBiased kind pool (sameCallAnchors pool args none)
    pure (.res r)
  | ty => genArgValue pool ty

/-- The arguments of a call after the calls of `existing`. -/
def generateArgs (desc : SyscallDesc) (existing : List TypedCall) : Rand (List ArgValue) :=
  desc.args.foldlM (fun args ty => do
    let v ← nextArg desc (buildPool existing) args ty
    pure (args ++ [v])) []

/-- A description with an argument that the pool can serve. -/
def consumes (pool : List PoolEntry) (d : SyscallDesc) : Bool :=
  d.args.any fun ty => match ty with
    | .res want => pool.any fun e => kindCompat want e.kind
    | _ => false

def pickDesc (sys : List SyscallDesc) : Rand SyscallDesc := pick sys

def pickDescBiased (sys : List SyscallDesc) (existing : List TypedCall) : Rand SyscallDesc := do
  let biased ← chanceIf (!existing.isEmpty) 55
  let consumers := sys.filter (consumes (buildPool existing))
  if biased ∧ buildPool existing ≠ [] ∧ consumers ≠ [] then do
    let i ← below consumers.length
    index consumers i
  else pickDesc sys

/-- Add a call to a program under construction. -/
def addCall (desc : SyscallDesc) (calls : List TypedCall) : Rand (List TypedCall) := do
  let args ← generateArgs desc calls
  pure (calls ++ [⟨desc, args⟩])

def findDesc (name : String) : Option SyscallDesc :=
  SYSCALLS.find? fun d => d.name = name

section
variable {descs : List SyscallDesc} {calls : List TypedCall} {desc : SyscallDesc}
  {sys : List SyscallDesc}

/-- The next argument of a call is in order. -/
theorem ensures_nextArg {pool : List PoolEntry} (hp : PoolOk descs pool) (args : List ArgValue)
    {ty : ArgType} (hc : ty.choices = true) : Ensures (nextArg desc pool args ty) (ArgOk descs ty) := by
  cases ty with
  | len i => exact ensures_pure trivial
  | res kind => exact ensures_bind (ensures_pickResBiased hp kind) fun r hr => ensures_pure hr
  | _ => exact ensures_genArgValue hp _ hc

/-- Generated arguments are in order after the calls they were generated for. -/
theorem ensures_generateArgs (hlen : calls.length ≤ 2 ^ 16) (hc : choicesAll desc.args = true) :
    Ensures (generateArgs desc calls) fun args => CallOk (calls.map (·.desc)) ⟨desc, args⟩ := by
  have hp := poolOk_buildPool hlen
  suffices h : ∀ (tys done : List ArgType) (args : List ArgValue), choicesAll tys = true →
      List.Forall₂ (ArgOk (calls.map (·.desc))) done args →
      Ensures (tys.foldlM (fun args ty => do
        let v ← nextArg desc (buildPool calls) args ty
        pure (args ++ [v])) args) (List.Forall₂ (ArgOk (calls.map (·.desc))) (done ++ tys)) from
    h desc.args [] [] hc .nil
  intro tys
  induction tys with
  | nil =>
    intro done args _ h
    rw [List.append_nil]
    exact ensures_pure h
  | cons ty tys ih =>
    intro done args hc h
    simp only [choicesAll, Bool.and_eq_true] at hc
    rw [List.foldlM_cons]
    refine ensures_bind (P := List.Forall₂ (ArgOk (calls.map (·.desc))) (done ++ [ty])) ?_ ?_
    · refine ensures_bind (ensures_nextArg hp args hc.1) fun v hv => ?_
      exact ensures_pure (List.rel_append h (.cons hv .nil))
    · intro args' h'
      rw [List.append_cons]
      exact ih (done ++ [ty]) args' hc.2 h'

/-- A table that every draw from it can be made on. -/
structure Drawable (sys : List SyscallDesc) : Prop where
  nonempty : sys ≠ []
  choices : ∀ d ∈ sys, choicesAll d.args = true

/-- The table is not empty, and each of its types has choices. -/
theorem drawable_SYSCALLS : Drawable SYSCALLS where
  nonempty := by decide
  choices := by
    have h : SYSCALLS.all (fun d => choicesAll d.args) = true := by decide
    exact fun d hd => List.all_eq_true.mp h d hd

/-- The description of a call: drawn from the table, or looked up by its name. -/
def Described (sys : List SyscallDesc) (d : SyscallDesc) : Prop := d ∈ sys ∨ d ∈ SYSCALLS

/-- A described call has choices for its arguments. -/
theorem Described.choices (hs : Drawable sys) (hd : Described sys desc) :
    choicesAll desc.args = true :=
  hd.elim (hs.choices desc) (drawable_SYSCALLS.choices desc)

/-- A picked description is in the table. -/
theorem ensures_pickDescBiased (hs : Drawable sys) (existing : List TypedCall) :
    Ensures (pickDescBiased sys existing) (· ∈ sys) := by
  refine ensures_bind (ensures_chanceIf _ _) fun biased _ => ensures_ite (fun h => ?_) fun _ => ?_
  · have hpos : 0 < (sys.filter (consumes (buildPool existing))).length :=
      List.length_pos_iff.mpr h.2.2
    refine ensures_bind (ensures_below _) fun i hi => ?_
    refine (ensures_index (hi hpos)).mono fun d hd => ?_
    exact (List.mem_filter.mp (List.mem_of_getElem? hd)).1
  · exact ensures_pick hs.nonempty

/-- A program under construction: `n` calls of the table, threaded. -/
structure Built (sys : List SyscallDesc) (n : Nat) (calls : List TypedCall) : Prop where
  length : calls.length = n
  threaded : Threaded calls
  descs : ∀ c ∈ calls, Described sys c.desc

/-- The empty program is built. -/
theorem built_nil : Built sys 0 [] := ⟨rfl, threaded_nil, by simp⟩

/-- A call in order may be added. -/
theorem Built.concat {n : Nat} {c : TypedCall} (h : Built sys n calls)
    (hd : Described sys c.desc)
    (hc : CallOk (calls.map (·.desc)) c) : Built sys (n + 1) (calls ++ [c]) where
  length := by rw [List.length_append, h.length]; rfl
  threaded := h.threaded.concat hc
  descs := by
    intro d hm
    rcases List.mem_append.mp hm with hm | hm
    · exact h.descs d hm
    · rw [List.mem_singleton.mp hm]
      exact hd

/-- So may a generated one. -/
theorem ensures_addCall {n : Nat} (hs : Drawable sys) (h : Built sys n calls) (hn : n ≤ 2 ^ 16)
    (hd : Described sys desc) : Ensures (addCall desc calls) (Built sys (n + 1)) := by
  refine ensures_bind (ensures_generateArgs (h.length ▸ hn) (hd.choices hs)) fun args ha => ?_
  exact ensures_pure (h.concat hd ha)

/-- What is found in the table is described. -/
theorem described_of_findDesc {name : String} (h : findDesc name = some desc) :
    Described sys desc :=
  .inr (List.mem_of_find?_eq_some h)

end

end FuzzSoft
