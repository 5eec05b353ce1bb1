import FuzzSoft.Prog.Programs
import Mathlib.Data.List.InsertIdx

/-!
# Mutation of programs

`mutate.rs`: insert or remove a call, change one argument, wire a consumer to a producer. Inserting
and removing renumber the references of the other calls. Every operation keeps the threading
invariant and the size (`ensures_mutate`).
-/

namespace FuzzSoft

open Lib Gen Rng

/-! ## Renumbering -/

/-- Change each value that has a type. -/
def mapArgs (f : ArgType → ArgValue → ArgValue) : List ArgType → List ArgValue → List ArgValue
  | ty :: tys, v :: vals => f ty v :: mapArgs f tys vals
  | _, vals => vals

/-- `mapArgs` with draws. -/
def mapArgsM (f : ArgType → ArgValue → Rand ArgValue) :
    List ArgType → List ArgValue → Rand (List ArgValue)
  | ty :: tys, v :: vals => do
    let v' ← f ty v
    let vals' ← mapArgsM f tys vals
    pure (v' :: vals')
  | _, vals => pure vals

/-- A reference when a call was inserted at `pos`. -/
def renumberInserted (pos : Nat) : ArgType → ArgValue → ArgValue
  | .res _, .res (.produced callIdx slot) =>
    .res (.produced (if callIdx.toNat ≥ pos then callIdx + 1 else callIdx) slot)
  | _, v => v

def renumberAfterInsert (pos : Nat) (c : TypedCall) : TypedCall :=
  { c with args := mapArgs (renumberInserted pos) c.desc.args c.args }

/-- A reference when the call at `pos` was removed: one to that call becomes a seed. -/
def renumberRemoved (pos : Nat) : ArgType → ArgValue → Rand ArgValue
  | .res want, .res (.produced callIdx slot) =>
    if callIdx.toNat = pos then do
      let r ← pickSeed want
      pure (.res r)
    else if callIdx.toNat > pos then pure (.res (.produced (callIdx - 1) slot))
    else pure (.res (.produced callIdx slot))
  | _, v => pure v

def renumberAfterRemove (pos : Nat) : List TypedCall → Rand (List TypedCall)
  | [] => pure []
  | c :: calls => do
    let args ← mapArgsM (renumberRemoved pos) c.desc.args c.args
    let calls' ← renumberAfterRemove pos calls
    pure ({ c with args := args } :: calls')

/-! ## Inserting and removing -/

def insertCall (sys : List SyscallDesc) (p : Prog) : Rand Prog := do
  let pos ← below (p.calls.length + 1)
  let before ← slice p.calls pos
  let desc ← pickDescBiased sys before
  let args ← generateArgs desc before
  let calls ← insertAt (p.calls.map (renumberAfterInsert pos)) pos ⟨desc, args⟩
  pure ⟨calls⟩

def removeCall (p : Prog) : Rand Prog := do
  let idx ← below p.calls.length
  let calls ← removeAt p.calls idx
  let calls ← renumberAfterRemove idx calls
  pure ⟨calls⟩

/-! ## Changing one argument -/

/-- The value of an argument. -/
def getArg (p : Prog) (i j : Nat) : Rand ArgValue := do
  let c ← index p.calls i
  index c.args j

/-- Assign an argument. -/
def setArg (p : Prog) (i j : Nat) (v : ArgValue) : Rand Prog := do
  let c ← index p.calls i
  let args ← assign c.args j v
  pure ⟨p.calls.set i { c with args := args }⟩

/-- Desynchronise a length. -/
def mutateLen (v : U64) : Rand U64 := do
  let choice ← below 3
  let x ← next
  pure (match choice with
    | 0 => v ^^^ (1#64 <<< (x.toNat % 32))
    | 1 => x.setWidth 64
    | _ => v + BitVec.ofNat 64 (x.toNat % 17))

/-- The new value of argument `j` of a call, if it changes. -/
def mutatedArg (call : TypedCall) (j : Nat) (pool : List PoolEntry) : ArgType → Rand (Option ArgValue)
  | .res kind => do
    let r ← pickResBiased kind pool (sameCallAnchors pool call.args (some j))
    pure (some (.res r))
  | .len i => do
    let resync ← chance 70
    if resync then
      match call.desc.args[i.toNat]?, call.args[i.toNat]? with
      | some ty, some v => pure (some (.imm (BitVec.ofNat 64 (lenOfArg ty v))))
      | _, _ => pure none
    else do
      let v ← index call.args j
      match v with
      | .imm v => do
        let nv ← mutateLen v
        pure (some (.imm nv))
      | _ => pure none
  | ty => do
    let v ← genArgValue pool ty
    pure (some v)

def mutateOneArg (p : Prog) (i j : Nat) (pool : List PoolEntry) : Rand Prog := do
  let call ← index p.calls i
  let ty ← index call.desc.args j
  let v ← mutatedArg call j pool ty
  match v with
  | some v => setArg p i j v
  | none => pure p

def mutateRandomArg (p : Prog) : Rand Prog :=
  let candidates := (List.range p.calls.length).filter fun i =>
    (p.calls[i]?).any fun c => !c.args.isEmpty
  if candidates.isEmpty then pure p
  else do
    let idx ← pick candidates
    let before ← slice p.calls idx
    let call ← index p.calls idx
    let j ← below call.args.length
    mutateOneArg p idx j (buildPool before)

/-- The arguments whose type is of a sort, with what the sort says of them. -/
def positions {α : Type} (f : ArgType → Option α) (calls : List TypedCall) : List (Nat × Nat × α) :=
  calls.zipIdx.flatMap fun c =>
    c.1.desc.args.zipIdx.filterMap fun ty => (f ty.1).map fun a => (c.2, ty.2, a)

def resKind : ArgType → Option ResourceKind
  | .res k => some k
  | _ => none

/-- Wire a resource argument to an earlier producer, or insert one for it. -/
def wireProducer (sys : List SyscallDesc) (p : Prog) : Rand Prog :=
  let wires := positions resKind p.calls
  if wires.isEmpty then pure p
  else do
    let (idx, j, kind) ← pick wires
    let before ← slice p.calls idx
    let compatible := (buildPool before).filter fun e => kindCompat kind e.kind
    if compatible ≠ [] then do
      let e ← pick compatible
      setArg p idx j (.res e.ref)
    else if p.calls.length ≥ MAX_CALLS then pure p
    else
      let makes (d : SyscallDesc) (slot : Nat) : Bool :=
        (d.produces.kindAt (BitVec.ofNat 8 slot)).any (kindCompat kind)
      let producers := sys.filter fun d => (List.range d.produces.slotCount.toNat).any (makes d)
      if producers.isEmpty then pure p
      else do
        let desc ← pick producers
        let pos ← below (idx + 1)
        let before ← slice p.calls pos
        let args ← generateArgs desc before
        let calls ← insertAt (p.calls.map (renumberAfterInsert pos)) pos ⟨desc, args⟩
        let slot := ((List.range desc.produces.slotCount.toNat).find? (makes desc)).getD 0
        setArg ⟨calls⟩ (idx + 1) j (.res (.produced (BitVec.ofNat 16 pos) (BitVec.ofNat 8 slot)))

def spliceResourceUse (p : Prog) : Rand Prog :=
  let uses := positions resKind p.calls
  if uses.isEmpty then pure p
  else do
    let (idx, j, kind) ← pick uses
    let before ← slice p.calls idx
    let compatible := (buildPool before).filter fun e => kindCompat kind e.kind
    if compatible.isEmpty then pure p
    else do
      let e ← pick compatible
      setArg p idx j (.res e.ref)

def flagVals : ArgType → Option (List U32)
  | .flags vals _ => if vals.isEmpty then none else some vals
  | _ => none

def toggleFlagBit (p : Prog) : Rand Prog :=
  let candidates := positions flagVals p.calls
  if candidates.isEmpty then pure p
  else do
    let (i, j, vals) ← pick candidates
    let bit ← pick vals
    let v ← getArg p i j
    match v with
    | .imm v => setArg p i j (.imm (v ^^^ bit.setWidth 64))
    | _ => pure p

def bufferPtr : ArgType → Option Unit
  | .ptr _ (.buffer _) _ => some ()
  | _ => none

/-- The buffer pointers that hold bytes. -/
def resizable (p : Prog) : List (Nat × Nat × Unit) → Rand (List (Nat × Nat))
  | [] => pure []
  | (i, j, _) :: rest => do
    let v ← getArg p i j
    let found ← resizable p rest
    pure (match v with
      | .ptr (.bytes _) => (i, j) :: found
      | _ => found)

/-- Grow a buffer by up to 16 bytes, or cut it. -/
def resizeBytes (b : List U8) : Rand (List U8) := do
  let grow ← (if b.isEmpty then pure true else bool)
  if grow then do
    let n ← below 16
    let more ← genBytes (1 + n)
    pure ((b ++ more).take 4096)
  else do
    let cut ← below b.length
    pure (b.take (b.length - (1 + cut)))

def resizeBuffer (p : Prog) : Rand Prog := do
  let candidates ← resizable p (positions bufferPtr p.calls)
  if candidates.isEmpty then pure p
  else do
    let (i, j) ← pick candidates
    let v ← getArg p i j
    match v with
    | .ptr (.bytes b) => do
      let b' ← resizeBytes b
      setArg p i j (.ptr (.bytes b'))
    | _ => pure p

def intBits : ArgType → Option U8
  | .int bits _ => some bits
  | _ => none

def mutateInterestingInt (p : Prog) : Rand Prog :=
  let candidates := positions intBits p.calls
  if candidates.isEmpty then pure p
  else do
    let (i, j, bits) ← pick candidates
    let v ← pickInterestingInt bits
    setArg p i j (.imm v)

def scalarBits : ArgType → Option U8
  | .int bits _ => some bits
  | .flags _ _ => some 32
  | .const _ => some 32
  | _ => none

def mutateDictConst (p : Prog) : Rand Prog :=
  let candidates := positions scalarBits p.calls
  if candidates.isEmpty then pure p
  else do
    let (i, j, bits) ← pick candidates
    let c ← pickDictConst
    setArg p i j (.imm (maskToBits (c.setWidth 64) bits))

/-! ## The dispatch -/

def mutate (sys : List SyscallDesc) (base : Prog) : Rand Prog :=
  if base.calls.isEmpty then generate sys
  else do
    let op ← below 9
    let p ← (match op with
      | 0 => if base.calls.length < MAX_CALLS then insertCall sys base else mutateDictConst base
      | 1 => if base.calls.length > 1 then removeCall base else mutateDictConst base
      | 2 => mutateRandomArg base
      | 3 => wireProducer sys base
      | 4 => spliceResourceUse base
      | 5 => toggleFlagBit base
      | 6 => resizeBuffer base
      | 7 => mutateInterestingInt base
      | _ => mutateDictConst base)
    if p.calls.isEmpty then generate sys else pure p

/-! ## Renumbering keeps calls in order -/

section
variable {descs : List SyscallDesc} {c : TypedCall} {pos : Nat}

/-- A change of every value, one by one. -/
theorem forall₂_mapArgs {R S : ArgType → ArgValue → Prop} {f : ArgType → ArgValue → ArgValue}
    (hf : ∀ ty v, R ty v → S ty (f ty v)) {tys : List ArgType} {vals : List ArgValue}
    (h : List.Forall₂ R tys vals) : List.Forall₂ S tys (mapArgs f tys vals) := by
  induction h with
  | nil => exact .nil
  | cons ha _ ih => exact .cons (hf _ _ ha) ih

/-- The same with random choices. -/
theorem ensures_mapArgsM {R S : ArgType → ArgValue → Prop} {f : ArgType → ArgValue → Rand ArgValue}
    (hf : ∀ ty v, R ty v → Ensures (f ty v) (S ty)) {tys : List ArgType} {vals : List ArgValue}
    (h : List.Forall₂ R tys vals) : Ensures (mapArgsM f tys vals) (List.Forall₂ S tys) := by
  induction h with
  | nil => exact ensures_pure .nil
  | cons ha _ ih =>
    refine ensures_bind (hf _ _ ha) fun v hv => ensures_bind ih fun vals hvals => ?_
    exact ensures_pure (.cons hv hvals)

/-- A reference that is in order still is when a call is inserted and it is renumbered. -/
theorem CallOk.inserted (h : CallOk descs c) (hlen : descs.length < 2 ^ 16) (pos : Nat)
    (d : SyscallDesc) : CallOk (descs.insertIdx pos d) (renumberAfterInsert pos c) := by
  refine forall₂_mapArgs (fun ty v hv => ?_) h
  cases ty with
  | res want =>
    cases v with
    | res r =>
      cases r with
      | seed s => trivial
      | produced callIdx slot =>
        obtain ⟨e, k, he, hk, hw⟩ := hv
        have hlt : callIdx.toNat < descs.length := (List.getElem?_eq_some_iff.mp he).1
        refine ⟨e, k, ?_, hk, hw⟩
        split
        next hge =>
          have hsucc : (callIdx + 1).toNat = callIdx.toNat + 1 := by
            rw [BitVec.toNat_add]
            simp
            omega
          rw [hsucc, List.getElem?_insertIdx_of_gt (Nat.lt_succ_of_le hge)]
          exact he
        next hge => rw [List.getElem?_insertIdx_of_lt (Nat.lt_of_not_le hge), he]
    | _ => exact hv.elim
  | _ => trivial

/-- Arguments in order still are when a call is removed and they are renumbered. -/
theorem ensures_removed (h : CallOk descs c) (pos : Nat) :
    Ensures (mapArgsM (renumberRemoved pos) c.desc.args c.args)
      fun args => CallOk (descs.eraseIdx pos) { c with args := args } := by
  refine ensures_mapArgsM (fun ty v hv => ?_) h
  cases ty with
  | res want =>
    cases v with
    | res r =>
      cases r with
      | seed s => exact ensures_pure trivial
      | produced callIdx slot =>
        obtain ⟨e, k, he, hk, hw⟩ := hv
        refine ensures_ite (fun _ => ?_) fun hne => ensures_ite (fun hgt => ?_) fun hle => ?_
        · exact ensures_bind (ensures_pickSeed want) fun r hr => ensures_pure hr
        · have hpred : (callIdx - 1).toNat = callIdx.toNat - 1 := by
            rw [BitVec.toNat_sub]
            simp
            omega
          refine ensures_pure ⟨e, k, ?_, hk, hw⟩
          rw [hpred, List.getElem?_eraseIdx_of_ge (by omega), ← he]
          congr 1
          omega
        · refine ensures_pure ⟨e, k, ?_, hk, hw⟩
          rw [List.getElem?_eraseIdx_of_lt (by omega)]
          exact he
    | _ => exact hv.elim
  | _ => exact ensures_pure trivial

end

/-! ## The program after an insertion or a removal -/

/-- What precedes a place after an insertion before it. -/
theorem take_insertIdx_of_ge {α : Type} (a : α) : ∀ {i pos : Nat} (l : List α), pos ≤ i →
    (l.insertIdx pos a).take (i + 1) = (l.take i).insertIdx pos a
  | i, 0, _, _ => by simp
  | i + 1, pos + 1, [], _ => by simp
  | i + 1, pos + 1, x :: l, h => by
    simp [take_insertIdx_of_ge a l (Nat.le_of_succ_le_succ h)]

/-- What precedes a place after an erasure before it. -/
theorem take_eraseIdx_of_ge {α : Type} : ∀ {i pos : Nat} (l : List α), pos ≤ i →
    (l.eraseIdx pos).take i = (l.take (i + 1)).eraseIdx pos
  | i, 0, [], _ => by simp
  | i, 0, x :: l, _ => by simp
  | i + 1, pos + 1, [], _ => by simp
  | i + 1, pos + 1, x :: l, h => by
    simp [take_eraseIdx_of_ge l (Nat.le_of_succ_le_succ h)]

section
variable {sys : List SyscallDesc} {calls : List TypedCall} {pos : Nat}

/-- Insertion with renumbering: the descriptions before a call get one more. -/
theorem Threaded.insertIdx (h : Threaded calls) (hpos : pos ≤ calls.length)
    (hlen : calls.length < 2 ^ 16) {c : TypedCall}
    (hc : CallOk ((calls.take pos).map (·.desc)) c) :
    Threaded ((calls.map (renumberAfterInsert pos)).insertIdx pos c) := by
  have hdescs : ((calls.map (renumberAfterInsert pos)).insertIdx pos c).map (·.desc) =
      (calls.map (·.desc)).insertIdx pos c.desc := by
    rw [List.map_insertIdx, List.map_map]
    rfl
  have hin : pos ≤ (calls.map (renumberAfterInsert pos)).length := by rwa [List.length_map]
  intro i e he
  rw [List.map_take, hdescs]
  rcases Nat.lt_trichotomy i pos with hi | rfl | hi
  · rw [List.getElem?_insertIdx_of_lt hi, List.getElem?_map] at he
    obtain ⟨e₀, he₀, rfl⟩ := Option.map_eq_some_iff.mp he
    have hok := (h i e₀ he₀).inserted (by simp; omega) pos c.desc
    rw [List.insertIdx_of_length_lt (by simp; omega), List.map_take] at hok
    rwa [List.take_insertIdx_eq_take_of_le _ _ _ _ (Nat.le_of_lt hi)]
  · rw [List.getElem?_insertIdx_self, if_pos hin, Option.some.injEq] at he
    rw [List.take_insertIdx_eq_take_of_le _ _ _ _ (Nat.le_refl i), ← List.map_take, ← he]
    exact hc
  · rw [List.getElem?_insertIdx_of_gt hi, List.getElem?_map] at he
    obtain ⟨e₀, he₀, rfl⟩ := Option.map_eq_some_iff.mp he
    have hlt : i - 1 < calls.length := (List.getElem?_eq_some_iff.mp he₀).1
    have hok := (h (i - 1) e₀ he₀).inserted (by simp; omega) pos c.desc
    have htake : ((calls.map (·.desc)).insertIdx pos c.desc).take i =
        ((calls.take (i - 1)).map (·.desc)).insertIdx pos c.desc := by
      obtain ⟨k, rfl⟩ : ∃ k, i = k + 1 := ⟨i - 1, by omega⟩
      rw [List.map_take, Nat.add_sub_cancel]
      exact take_insertIdx_of_ge _ _ (by omega)
    rwa [htake]

/-- Renumbering after a removal, call by call. -/
theorem ensures_renumberAfterRemove (pos : Nat) : ∀ (calls : List TypedCall)
    (descs : Nat → List SyscallDesc), (∀ i c, calls[i]? = some c → CallOk (descs i) c) →
    Ensures (renumberAfterRemove pos calls) fun calls' =>
      calls'.map (·.desc) = calls.map (·.desc) ∧
        ∀ i c, calls'[i]? = some c → CallOk ((descs i).eraseIdx pos) c
  | [], descs, _ => ensures_pure ⟨rfl, by simp⟩
  | c :: calls, descs, h => by
    refine ensures_bind (ensures_removed (h 0 c rfl) pos) fun args hargs => ?_
    refine ensures_bind (ensures_renumberAfterRemove pos calls (fun i => descs (i + 1))
      fun i e he => h (i + 1) e he) fun calls' hcalls => ?_
    refine ensures_pure ⟨by simp [hcalls.1], fun i e he => ?_⟩
    cases i with
    | zero =>
      cases he
      exact hargs
    | succ i => exact hcalls.2 i e he

/-- Removing a call keeps the program in order. -/
theorem ensures_removeCall {p : Prog} (hp : p.Ok sys) (h1 : 1 < p.calls.length) :
    Ensures (removeCall p) (·.Ok sys) := by
  have hthreaded := (isWellFormed_iff p).mp hp.wellFormed
  refine ensures_bind (ensures_below _) fun idx hidx => ?_
  have hlt : idx < p.calls.length := hidx (by omega)
  refine ensures_bind (ensures_removeAt hlt) fun calls hcalls => ?_
  subst hcalls
  -- call `i` of the shortened list was call `i` or `i + 1`
  have hold : ∀ i c, (p.calls.eraseIdx idx)[i]? = some c →
      CallOk ((p.calls.take (if i < idx then i else i + 1)).map (·.desc)) c := by
    intro i c hc
    split
    next hi =>
      rw [List.getElem?_eraseIdx_of_lt hi] at hc
      exact hthreaded i c hc
    next hi =>
      rw [List.getElem?_eraseIdx_of_ge (Nat.le_of_not_lt hi)] at hc
      exact hthreaded (i + 1) c hc
  refine ensures_bind (ensures_renumberAfterRemove idx _ _ hold) fun calls' hcalls' => ?_
  obtain ⟨hdescs, hok⟩ := hcalls'
  have hlen : calls'.length = p.calls.length - 1 := by
    have := congrArg List.length hdescs
    rwa [List.length_map, List.length_map, List.length_eraseIdx_of_lt hlt] at this
  have hbound := hp.bounded
  refine ensures_pure ⟨?_, ?_, (isWellFormed_iff _).mpr fun i c hc => ?_, ?_⟩
  · show 1 ≤ calls'.length
    omega
  · show calls'.length ≤ MAX_CALLS
    omega
  · rw [List.map_take, hdescs, ← List.map_take]
    have := hok i c hc
    split at this
    next hi =>
      rw [List.eraseIdx_of_length_le (by simp; omega)] at this
      rwa [List.take_eraseIdx_eq_take_of_le _ _ _ (Nat.le_of_lt hi)]
    next hi =>
      rw [take_eraseIdx_of_ge _ (Nat.le_of_not_lt hi)]
      rwa [← List.eraseIdx_map]
  · intro c hc
    have hm : c.desc ∈ calls'.map (·.desc) := List.mem_map_of_mem hc
    rw [hdescs] at hm
    obtain ⟨c₀, hc₀, he⟩ := List.mem_map.mp hm
    exact he ▸ hp.descs c₀ (List.mem_of_mem_eraseIdx hc₀)

/-- The part that inserting a call and wiring a producer share. -/
theorem Prog.Ok.inserted {p : Prog} (hp : p.Ok sys) (h8 : p.calls.length < MAX_CALLS)
    (hpos : pos ≤ p.calls.length) {c : TypedCall} (hd : Described sys c.desc)
    (hc : CallOk ((p.calls.take pos).map (·.desc)) c) :
    Prog.Ok sys ⟨(p.calls.map (renumberAfterInsert pos)).insertIdx pos c⟩ := by
  have hin : pos ≤ (p.calls.map (renumberAfterInsert pos)).length := by rwa [List.length_map]
  have hlen := List.length_insertIdx_of_le_length hin c
  rw [List.length_map] at hlen
  simp only [MAX_CALLS] at h8
  refine ⟨?_, ?_, (isWellFormed_iff _).mpr ?_, ?_⟩
  · show 1 ≤ (List.insertIdx _ _ _).length
    omega
  · show (List.insertIdx _ _ _).length ≤ MAX_CALLS
    simp only [MAX_CALLS]
    omega
  · exact ((isWellFormed_iff p).mp hp.wellFormed).insertIdx hpos (by omega) hc
  · intro e he
    rcases (List.mem_insertIdx hin).mp he with rfl | he
    · exact hd
    · obtain ⟨e₀, he₀, rfl⟩ := List.mem_map.mp he
      exact hp.descs e₀ he₀

/-- Inserting a call keeps it in order. -/
theorem ensures_insertCall (hs : Drawable sys) {p : Prog} (hp : p.Ok sys)
    (h8 : p.calls.length < MAX_CALLS) : Ensures (insertCall sys p) (·.Ok sys) := by
  refine ensures_bind (ensures_below _) fun pos hpos => ?_
  have hle : pos ≤ p.calls.length := Nat.le_of_lt_succ (hpos (Nat.succ_pos _))
  refine ensures_bind (ensures_slice hle) fun before hbefore => ?_
  subst hbefore
  refine ensures_bind (ensures_pickDescBiased hs _) fun desc hd => ?_
  have hlen : (p.calls.take pos).length ≤ 2 ^ 16 := by
    simp only [MAX_CALLS] at h8
    rw [List.length_take]
    omega
  refine ensures_bind (ensures_generateArgs hlen (hs.choices desc hd)) fun args hargs => ?_
  refine ensures_bind (ensures_insertAt (by rwa [List.length_map]) _) fun calls hcalls => ?_
  subst hcalls
  exact ensures_pure (hp.inserted h8 hle (.inl hd) hargs)

/-! ## One argument -/

section
variable {p : Prog} {i j : Nat} {c : TypedCall} {ty : ArgType}

/-- An argument may be assigned a value that is in order in its place. -/
theorem ensures_setArg (hp : p.Ok sys) (hc : p.calls[i]? = some c) (hty : c.desc.args[j]? = some ty)
    {v : ArgValue} (hv : ArgOk ((p.calls.take i).map (·.desc)) ty v) :
    Ensures (setArg p i j v) (·.Ok sys) := by
  have hthreaded := (isWellFormed_iff p).mp hp.wellFormed
  have hok := hthreaded i c hc
  have hi : i < p.calls.length := (List.getElem?_eq_some_iff.mp hc).1
  refine ensures_bind (ensures_index hi) fun c' hc' => ?_
  rw [hc, Option.some.injEq] at hc'
  subst hc'
  have hj : j < c.args.length := hok.length ▸ (List.getElem?_eq_some_iff.mp hty).1
  refine ensures_bind (ensures_assign hj v) fun args hargs => ?_
  subst hargs
  have hset : CallOk ((p.calls.take i).map (·.desc)) { c with args := c.args.set j v } := by
    refine hok.set fun ty' hty' => ?_
    rw [hty, Option.some.injEq] at hty'
    exact hty' ▸ hv
  refine ensures_pure ⟨?_, ?_, (isWellFormed_iff _).mpr (hthreaded.set hc rfl hset), ?_⟩
  · simpa using hp.nonempty
  · simpa using hp.bounded
  · intro e he
    rcases List.mem_or_eq_of_mem_set he with he | rfl
    · exact hp.descs e he
    · exact hp.descs c (List.mem_of_getElem? hc)

/-- A value that is no reference may be assigned where no resource stands. -/
theorem ensures_setArg_data (hp : p.Ok sys) (hc : p.calls[i]? = some c)
    (hty : c.desc.args[j]? = some ty) (hres : ∀ k, ty ≠ .res k) (v : ArgValue) :
    Ensures (setArg p i j v) (·.Ok sys) :=
  ensures_setArg hp hc hty (ArgOk.of_ne_res hres)

/-- An argument in range is found. -/
theorem ensures_getArg (hp : p.Ok sys) (hc : p.calls[i]? = some c)
    (hty : c.desc.args[j]? = some ty) : Ensures (getArg p i j) (c.args[j]? = some ·) := by
  have hok := (isWellFormed_iff p).mp hp.wellFormed i c hc
  refine ensures_bind (ensures_index (List.getElem?_eq_some_iff.mp hc).1) fun c' hc' => ?_
  rw [hc, Option.some.injEq] at hc'
  subst hc'
  refine ensures_index ?_
  rw [hok.length]
  exact (List.getElem?_eq_some_iff.mp hty).1

/-- A listed position is one of the program. -/
theorem mem_positions {α : Type} {f : ArgType → Option α} {calls : List TypedCall} {i j : Nat} {a : α}
    (h : (i, j, a) ∈ positions f calls) :
    ∃ c ty, calls[i]? = some c ∧ c.desc.args[j]? = some ty ∧ f ty = some a := by
  obtain ⟨⟨c, i'⟩, hc, hm⟩ := List.mem_flatMap.mp h
  obtain ⟨⟨ty, j'⟩, hty, hm⟩ := List.mem_filterMap.mp hm
  obtain ⟨a', ha, heq⟩ := Option.map_eq_some_iff.mp hm
  cases heq
  exact ⟨c, ty, List.mem_zipIdx_iff_getElem?.mp hc, List.mem_zipIdx_iff_getElem?.mp hty, ha⟩

/-- The pool that a call's arguments are drawn from. -/
theorem Prog.Ok.poolOk (hp : p.Ok sys) (i : Nat) :
    PoolOk ((p.calls.take i).map (·.desc)) (buildPool (p.calls.take i)) := by
  refine poolOk_buildPool ?_
  have := hp.bounded
  simp only [MAX_CALLS] at this
  rw [List.length_take]
  omega

/-- A mutated argument is in order in its place. -/
theorem ensures_mutatedArg (hs : Drawable sys) (hp : p.Ok sys) (hc : p.calls[i]? = some c)
    (hty : c.desc.args[j]? = some ty) :
    Ensures (mutatedArg c j (buildPool (p.calls.take i)) ty) fun o =>
      ∀ v ∈ o, ArgOk ((p.calls.take i).map (·.desc)) ty v := by
  have hok := (isWellFormed_iff p).mp hp.wellFormed i c hc
  have hnone {ty : ArgType} : ∀ v ∈ (none : Option ArgValue),
      ArgOk ((p.calls.take i).map (·.desc)) ty v := fun v hv => by cases hv
  have hsome {ty : ArgType} {w : ArgValue} (hw : ArgOk ((p.calls.take i).map (·.desc)) ty w) :
      ∀ v ∈ some w, ArgOk ((p.calls.take i).map (·.desc)) ty v := fun v hv => by
    cases hv
    exact hw
  have hchoices : ty.choices = true :=
    (choicesAll_iff _).mp ((hp.descs c (List.mem_of_getElem? hc)).choices hs) ty
      (List.mem_of_getElem? hty)
  have hfresh : Ensures (genArgValue (buildPool (p.calls.take i)) ty)
      (ArgOk ((p.calls.take i).map (·.desc)) ty) := ensures_genArgValue (hp.poolOk i) ty hchoices
  cases ty with
  | res kind =>
    refine ensures_bind (ensures_pickResBiased (hp.poolOk i) kind) fun r hr => ?_
    exact ensures_pure (hsome hr)
  | len k =>
    refine ensures_chance_bind fun resync => ensures_ite (fun _ => ?_) fun _ => ?_
    · split
      · exact ensures_pure (hsome trivial)
      · exact ensures_pure hnone
    · have hj : j < c.args.length := hok.length ▸ (List.getElem?_eq_some_iff.mp hty).1
      refine ensures_bind (ensures_index hj) fun v _ => ?_
      split
      · refine ensures_bind (P := fun _ => True) ?_ fun nv _ => ensures_pure (hsome trivial)
        refine ensures_bind (ensures_below 3) fun _ _ => ?_
        exact ensures_bind ensures_next fun _ _ => ensures_pure trivial
      · exact ensures_pure hnone
  | _ => exact ensures_bind hfresh fun v hv => ensures_pure (hsome hv)

/-- Mutating an argument keeps the program in order. -/
theorem ensures_mutateOneArg (hs : Drawable sys) (hp : p.Ok sys) (hi : p.calls[i]? = some c)
    (hj : j < c.args.length) :
    Ensures (mutateOneArg p i j (buildPool (p.calls.take i))) (·.Ok sys) := by
  have hok := (isWellFormed_iff p).mp hp.wellFormed i c hi
  refine ensures_bind (ensures_index (List.getElem?_eq_some_iff.mp hi).1) fun c' hc' => ?_
  rw [hi, Option.some.injEq] at hc'
  subst hc'
  refine ensures_bind (ensures_index (hok.length ▸ hj)) fun ty hty => ?_
  refine ensures_bind (ensures_mutatedArg hs hp hi hty) fun o ho => ?_
  cases o with
  | none => exact ensures_pure hp
  | some v => exact ensures_setArg hp hi hty (ho v rfl)

/-- So does mutating one at random. -/
theorem ensures_mutateRandomArg (hs : Drawable sys) (hp : p.Ok sys) :
    Ensures (mutateRandomArg p) (·.Ok sys) := by
  refine ensures_ite (fun _ => ensures_pure hp) fun hne => ?_
  refine ensures_bind (ensures_pick (by simpa using hne)) fun idx hidx => ?_
  obtain ⟨hrange, hargs⟩ := List.mem_filter.mp hidx
  have hlt : idx < p.calls.length := List.mem_range.mp hrange
  refine ensures_bind (ensures_slice (Nat.le_of_lt hlt)) fun before hbefore => ?_
  subst hbefore
  refine ensures_bind (ensures_index hlt) fun call hcall => ?_
  have hpos : 0 < call.args.length := by
    rw [hcall] at hargs
    exact List.length_pos_iff.mpr (by simpa using hargs)
  refine ensures_bind (ensures_below _) fun j hj => ?_
  exact ensures_mutateOneArg hs hp hcall (hj hpos)

/-- Wiring a resource argument to a compatible entry of its pool. -/
theorem ensures_wire (hp : p.Ok sys) {kind : ResourceKind} (hc : p.calls[i]? = some c)
    (hty : c.desc.args[j]? = some (.res kind))
    (hne : ((buildPool (p.calls.take i)).filter fun e => kindCompat kind e.kind) ≠ []) :
    Ensures (do
      let e ← pick ((buildPool (p.calls.take i)).filter fun e => kindCompat kind e.kind)
      setArg p i j (.res e.ref)) (·.Ok sys) := by
  refine ensures_bind (ensures_pick hne) fun e he => ?_
  obtain ⟨hmem, hk⟩ := List.mem_filter.mp he
  exact ensures_setArg hp hc hty (hp.poolOk i e hmem kind hk)

/-- The call and the type behind a position of a resource argument. -/
theorem mem_positions_resKind {calls : List TypedCall} {kind : ResourceKind}
    (h : (i, j, kind) ∈ positions resKind calls) :
    ∃ c, calls[i]? = some c ∧ c.desc.args[j]? = some (.res kind) := by
  obtain ⟨c, ty, hc, hty, hk⟩ := mem_positions h
  cases ty with
  | res k =>
    cases hk
    exact ⟨c, hc, hty⟩
  | _ => cases hk

/-- So does using a resource of an earlier call. -/
theorem ensures_spliceResourceUse (hp : p.Ok sys) : Ensures (spliceResourceUse p) (·.Ok sys) := by
  refine ensures_ite (fun _ => ensures_pure hp) fun hne => ?_
  refine ensures_bind (ensures_pick (by simpa using hne)) fun ⟨idx, j, kind⟩ hpos => ?_
  obtain ⟨c, hc, hty⟩ := mem_positions_resKind hpos
  have hlt : idx < p.calls.length := (List.getElem?_eq_some_iff.mp hc).1
  refine ensures_bind (ensures_slice (Nat.le_of_lt hlt)) fun before hbefore => ?_
  subst hbefore
  refine ensures_ite (fun _ => ensures_pure hp) fun hcompat => ?_
  exact ensures_wire hp hc hty (by simpa using hcompat)

/-- The slot that a producer is wired by. -/
theorem find_makes {d : SyscallDesc} {kind : ResourceKind}
    (h : (List.range d.produces.slotCount.toNat).any (fun slot =>
      (d.produces.kindAt (BitVec.ofNat 8 slot)).any (kindCompat kind)) = true) :
    ∃ k, d.produces.kindAt (BitVec.ofNat 8 (((List.range d.produces.slotCount.toNat).find? fun slot =>
      (d.produces.kindAt (BitVec.ofNat 8 slot)).any (kindCompat kind)).getD 0)) = some k ∧
      kindCompat kind k = true := by
  cases hf : (List.range d.produces.slotCount.toNat).find? fun slot =>
      (d.produces.kindAt (BitVec.ofNat 8 slot)).any (kindCompat kind) with
  | none =>
    obtain ⟨slot, hm, hs⟩ := List.any_eq_true.mp h
    exact absurd hs (List.find?_eq_none.mp hf slot hm)
  | some slot =>
    have hs := List.find?_some hf
    exact (Option.any_eq_true _ _).mp hs

/-- So does adding a producer before a use. -/
theorem ensures_wireProducer (hs : Drawable sys) (hp : p.Ok sys) :
    Ensures (wireProducer sys p) (·.Ok sys) := by
  refine ensures_ite (fun _ => ensures_pure hp) fun hne => ?_
  refine ensures_bind (ensures_pick (by simpa using hne)) fun ⟨idx, j, kind⟩ hpos => ?_
  obtain ⟨c, hc, hty⟩ := mem_positions_resKind hpos
  have hlt : idx < p.calls.length := (List.getElem?_eq_some_iff.mp hc).1
  refine ensures_bind (ensures_slice (Nat.le_of_lt hlt)) fun before hbefore => ?_
  subst hbefore
  refine ensures_ite (fun hcompat => ensures_wire hp hc hty hcompat) fun _ => ?_
  refine ensures_ite (fun _ => ensures_pure hp) fun h8 => ?_
  refine ensures_ite (fun _ => ensures_pure hp) fun hprod => ?_
  refine ensures_bind (ensures_pick (by simpa using hprod)) fun desc hdesc => ?_
  obtain ⟨hd, hmakes⟩ := List.mem_filter.mp hdesc
  refine ensures_bind (ensures_below _) fun pos hpos => ?_
  have hle : pos ≤ idx := Nat.le_of_lt_succ (hpos (Nat.succ_pos _))
  refine ensures_bind (ensures_slice (by omega)) fun before hbefore => ?_
  subst hbefore
  have hbound := hp.bounded
  simp only [MAX_CALLS] at hbound
  have hlen : (p.calls.take pos).length ≤ 2 ^ 16 := by
    rw [List.length_take]
    omega
  refine ensures_bind (ensures_generateArgs hlen (hs.choices desc hd)) fun args hargs => ?_
  have hin : pos ≤ (p.calls.map (renumberAfterInsert pos)).length := by
    rw [List.length_map]
    omega
  refine ensures_bind (ensures_insertAt hin _) fun calls hcalls => ?_
  subst hcalls
  have hok := hp.inserted (Nat.lt_of_not_le h8) (by omega) (.inl hd) hargs
  -- the consumer has moved one place up, and the new producer stands before it
  have hget : ((p.calls.map (renumberAfterInsert pos)).insertIdx pos ⟨desc, args⟩)[idx + 1]? =
      some (renumberAfterInsert pos c) := by
    rw [List.getElem?_insertIdx_of_gt (by omega), List.getElem?_map, Nat.add_sub_cancel, hc]
    rfl
  refine ensures_setArg hok hget hty ?_
  obtain ⟨k, hk, hw⟩ := find_makes hmakes
  refine ⟨desc, k, ?_, hk, hw⟩
  have hmod : (BitVec.ofNat 16 pos).toNat = pos := by
    rw [BitVec.toNat_ofNat]
    omega
  rw [hmod, getElem?_descs _ _ (by omega), List.getElem?_insertIdx_self, if_pos hin]
  rfl

/-! ### Data -/

/-- So does toggling a flag. -/
theorem ensures_toggleFlagBit (hp : p.Ok sys) : Ensures (toggleFlagBit p) (·.Ok sys) := by
  refine ensures_ite (fun _ => ensures_pure hp) fun hne => ?_
  refine ensures_bind (ensures_pick (by simpa using hne)) fun ⟨i, j, vals⟩ hpos => ?_
  obtain ⟨c, ty, hc, hty, hf⟩ := mem_positions hpos
  cases ty with
  | flags vals' bitmask =>
    have hvals : vals ≠ [] := by
      simp only [flagVals] at hf
      split at hf
      · cases hf
      next hemp =>
        cases hf
        simpa using hemp
    refine ensures_bind (ensures_pick hvals) fun bit _ => ?_
    refine ensures_bind (ensures_getArg hp hc hty) fun v _ => ?_
    split
    · exact ensures_setArg_data hp hc hty (fun k => ArgType.noConfusion) _
    · exact ensures_pure hp
  | _ => cases hf

/-- Every resizable argument is a buffer pointer. -/
theorem ensures_resizable (hp : p.Ok sys) : ∀ (l : List (Nat × Nat × Unit)),
    (∀ a ∈ l, a ∈ positions bufferPtr p.calls) → Ensures (resizable p l) fun found =>
      ∀ a ∈ found, (a.1, a.2, ()) ∈ positions bufferPtr p.calls
  | [], _ => ensures_pure (by simp)
  | (i, j, ()) :: l, h => by
    have hpos := h _ List.mem_cons_self
    obtain ⟨c, ty, hc, hty, -⟩ := mem_positions hpos
    refine ensures_bind (ensures_getArg hp hc hty) fun v _ => ?_
    refine ensures_bind (ensures_resizable hp l fun a ha => h a (List.mem_cons_of_mem _ ha))
      fun found hfound => ensures_pure ?_
    split
    · intro a ha
      rcases List.mem_cons.mp ha with rfl | ha
      · exact hpos
      · exact hfound a ha
    · exact hfound

/-- A buffer can always be resized. -/
theorem ensures_resizeBytes (b : List U8) : Ensures (resizeBytes b) fun _ => True := by
  refine ensures_bind (P := fun _ => True)
    (ensures_ite (fun _ => ensures_pure trivial) fun _ => ensures_bool) fun grow _ => ?_
  refine ensures_ite (fun _ => ?_) fun _ => ?_
  · refine ensures_bind (ensures_below 16) fun n _ => ?_
    exact ensures_bind (ensures_genBytes _) fun _ _ => ensures_pure trivial
  · exact ensures_bind (ensures_below _) fun _ _ => ensures_pure trivial

/-- Resizing one keeps the program in order. -/
theorem ensures_resizeBuffer (hp : p.Ok sys) : Ensures (resizeBuffer p) (·.Ok sys) := by
  refine ensures_bind (ensures_resizable hp _ fun _ ha => ha) fun candidates hcand => ?_
  refine ensures_ite (fun _ => ensures_pure hp) fun hne => ?_
  refine ensures_bind (ensures_pick (by simpa using hne)) fun ⟨i, j⟩ hm => ?_
  obtain ⟨c, ty, hc, hty, hf⟩ := mem_positions (hcand _ hm)
  refine ensures_bind (ensures_getArg hp hc hty) fun v _ => ?_
  have hres : ∀ k, ty ≠ .res k := by
    rintro k rfl
    cases hf
  split
  · refine ensures_bind (ensures_resizeBytes _) fun b _ => ?_
    exact ensures_setArg_data hp hc hty hres _
  · exact ensures_pure hp

/-- So does an interesting integer. -/
theorem ensures_mutateInterestingInt (hp : p.Ok sys) :
    Ensures (mutateInterestingInt p) (·.Ok sys) := by
  refine ensures_ite (fun _ => ensures_pure hp) fun hne => ?_
  refine ensures_bind (ensures_pick (by simpa using hne)) fun ⟨i, j, bits⟩ hpos => ?_
  obtain ⟨c, ty, hc, hty, hf⟩ := mem_positions hpos
  refine ensures_bind (ensures_pickInterestingInt bits) fun v _ => ?_
  refine ensures_setArg_data hp hc hty ?_ _
  rintro k rfl
  cases hf

/-- So does a constant of the dictionary. -/
theorem ensures_mutateDictConst (hp : p.Ok sys) : Ensures (mutateDictConst p) (·.Ok sys) := by
  refine ensures_ite (fun _ => ensures_pure hp) fun hne => ?_
  refine ensures_bind (ensures_pick (by simpa using hne)) fun ⟨i, j, bits⟩ hpos => ?_
  obtain ⟨c, ty, hc, hty, hf⟩ := mem_positions hpos
  refine ensures_bind ensures_pickDictConst fun v _ => ?_
  refine ensures_setArg_data hp hc hty ?_ _
  rintro k rfl
  cases hf

end

/-- Every mutation of a well-formed program is well-formed and of the right size. -/
theorem ensures_mutate (hs : Drawable sys) {p : Prog} (hp : p.Ok sys) :
    Ensures (mutate sys p) (·.Ok sys) := by
  refine ensures_ite (fun _ => ensures_generate hs) fun _ => ?_
  refine ensures_bind (ensures_below 9) fun op _ => ?_
  refine ensures_bind (P := (·.Ok sys)) ?_ fun p' hp' =>
    ensures_ite (fun _ => ensures_generate hs) fun _ => ensures_pure hp'
  split
  · exact ensures_ite (ensures_insertCall hs hp) fun _ => ensures_mutateDictConst hp
  · exact ensures_ite (ensures_removeCall hp) fun _ => ensures_mutateDictConst hp
  · exact ensures_mutateRandomArg hs hp
  · exact ensures_wireProducer hs hp
  · exact ensures_spliceResourceUse hp
  · exact ensures_toggleFlagBit hp
  · exact ensures_resizeBuffer hp
  · exact ensures_mutateInterestingInt hp
  · exact ensures_mutateDictConst hp

end

end FuzzSoft
