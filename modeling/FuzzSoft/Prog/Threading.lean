import FuzzSoft.Prog.Types

/-!
# The threading invariant

`Prog.isWellFormed` checks each call against the whole program; a call depends only on the
descriptions before it, and that is how the invariant is kept when calls are added, dropped or moved.
`CallOk` says it of one call and the descriptions before it, `Threaded` of a list of calls, and
`isWellFormed_iff` connects them to the check.
-/

namespace FuzzSoft

/-! ## One call -/

/-- A reference into the descriptions before a call. -/
def RefOk (descs : List SyscallDesc) (want : ResourceKind) : ResRef → Prop
  | .seed _ => True
  | .produced callIdx slot => ∃ d k, descs[callIdx.toNat]? = some d ∧
      d.produces.kindAt slot = some k ∧ kindCompat want k = true

/-- A resource argument holds a reference that is in order. -/
def ArgOk (descs : List SyscallDesc) : ArgType → ArgValue → Prop
  | .res want, .res r => RefOk descs want r
  | .res _, _ => False
  | _, _ => True

/-- A call has one value for each argument of its description, and they are in order. -/
def CallOk (descs : List SyscallDesc) (c : TypedCall) : Prop :=
  List.Forall₂ (ArgOk descs) c.desc.args c.args

/-- Every call is in order after the ones before it. -/
def Threaded (calls : List TypedCall) : Prop :=
  ∀ i c, calls[i]? = some c → CallOk ((calls.take i).map (·.desc)) c

section
variable {descs : List SyscallDesc} {calls : List TypedCall} {c : TypedCall} {want : ResourceKind}

/-- Only resource arguments are checked. -/
theorem ArgOk.of_ne_res {ty : ArgType} {v : ArgValue} (h : ∀ k, ty ≠ .res k) : ArgOk descs ty v := by
  cases ty with
  | res k => exact absurd rfl (h k)
  | _ => trivial

/-- The description of an earlier call. -/
theorem getElem?_descs (i k : Nat) (hk : k < i) :
    ((calls.take i).map (·.desc))[k]? = (calls[k]?).map (·.desc) := by
  rw [List.getElem?_map, List.getElem?_take_of_lt hk]

/-- The check of a reference. -/
theorem threaded_ref_iff {i : Nat} (hi : i ≤ calls.length) (r : ResRef) :
    r.threaded calls i want = true ↔ RefOk ((calls.take i).map (·.desc)) want r := by
  cases r with
  | seed s => simp [ResRef.threaded, RefOk]
  | produced callIdx slot =>
    simp only [ResRef.threaded, RefOk]
    split
    next h =>
      have hnone : ((calls.take i).map (·.desc))[callIdx.toNat]? = none := by
        simp only [List.getElem?_eq_none_iff, List.length_map, List.length_take]
        omega
      rw [hnone]
      simp only [Bool.false_eq_true, reduceCtorEq, false_and, exists_false]
    next h =>
      rw [getElem?_descs i _ (Nat.lt_of_not_le h)]
      cases hc : calls[callIdx.toNat]? with
      | none => simp
      | some c => simp [Option.any_eq_true]

/-- The check of an argument. -/
theorem argThreaded_iff {i : Nat} (hi : i ≤ calls.length) (ty : ArgType) (v : ArgValue) :
    argThreaded calls i ty v = true ↔ ArgOk ((calls.take i).map (·.desc)) ty v := by
  cases ty with
  | res k =>
    cases v with
    | res r => exact threaded_ref_iff hi r
    | _ => simp [argThreaded, ArgOk]
  | _ => simp [argThreaded, ArgOk]

/-- The check of a call. -/
theorem callThreaded_iff {i : Nat} (hi : i ≤ calls.length) :
    callThreaded calls i c = true ↔ CallOk ((calls.take i).map (·.desc)) c := by
  rw [callThreaded, Bool.and_eq_true, beq_iff_eq, List.all_eq_true, CallOk,
    List.forall₂_iff_zip]
  constructor
  · rintro ⟨hlen, hall⟩
    exact ⟨hlen.symm, fun hm => (argThreaded_iff hi _ _).mp (hall _ hm)⟩
  · rintro ⟨hlen, hall⟩
    exact ⟨hlen.symm, fun a hm => (argThreaded_iff hi _ _).mpr (hall hm)⟩

end

/-- The check is the invariant. -/
theorem isWellFormed_iff (p : Prog) : p.isWellFormed = true ↔ Threaded p.calls := by
  rw [Prog.isWellFormed, List.all_eq_true]
  constructor
  · intro h i c hc
    have hi : i < p.calls.length := (List.getElem?_eq_some_iff.mp hc).1
    have hm : (c, i) ∈ p.calls.zipIdx := List.mem_zipIdx_iff_getElem?.mpr hc
    exact (callThreaded_iff (Nat.le_of_lt hi)).mp (h _ hm)
  · rintro h ⟨c, i⟩ hm
    have hc := List.mem_zipIdx_iff_getElem?.mp hm
    have hi : i < p.calls.length := (List.getElem?_eq_some_iff.mp hc).1
    exact (callThreaded_iff (Nat.le_of_lt hi)).mpr (h i c hc)

/-! ## Building and changing programs -/

section
variable {descs : List SyscallDesc} {calls : List TypedCall} {c : TypedCall}

/-- No call is out of order. -/
theorem threaded_nil : Threaded [] := by
  intro i c hc
  simp at hc

/-- A call in order after all the others may be added. -/
theorem Threaded.concat (h : Threaded calls) (hc : CallOk (calls.map (·.desc)) c) :
    Threaded (calls ++ [c]) := by
  intro i d hd
  rcases Nat.lt_trichotomy i calls.length with hi | rfl | hi
  · rw [List.getElem?_append_left hi] at hd
    rw [List.take_append_of_le_length (Nat.le_of_lt hi)]
    exact h i d hd
  · rw [List.getElem?_concat_length, Option.some.injEq] at hd
    rw [List.take_left, ← hd]
    exact hc
  · rw [List.getElem?_eq_none (by simp; omega)] at hd
    cases hd

/-- The first calls are in order. -/
theorem Threaded.take (h : Threaded calls) (n : Nat) : Threaded (calls.take n) := by
  intro i c hc
  have hi : i < n := by
    have := (List.getElem?_eq_some_iff.mp hc).1
    rw [List.length_take] at this
    omega
  rw [List.getElem?_take_of_lt hi] at hc
  rw [List.take_take, Nat.min_eq_left (Nat.le_of_lt hi)]
  exact h i c hc

/-- A call may be replaced by another of the same description that is in order in its place. -/
theorem Threaded.set (h : Threaded calls) {i : Nat} {c c' : TypedCall} (hc : calls[i]? = some c)
    (hdesc : c'.desc = c.desc) (hok : CallOk ((calls.take i).map (·.desc)) c') :
    Threaded (calls.set i c') := by
  have hmap : (calls.set i c').map (·.desc) = calls.map (·.desc) := by
    obtain ⟨hi, rfl⟩ := List.getElem?_eq_some_iff.mp hc
    rw [List.map_set, hdesc, ← List.map_set, List.set_getElem_self]
  have htake (j : Nat) : ((calls.set i c').take j).map (·.desc) = (calls.take j).map (·.desc) := by
    rw [List.map_take, hmap, List.map_take]
  intro j d hd
  rw [htake]
  by_cases hij : i = j
  · subst hij
    rw [List.getElem?_set_self (List.getElem?_eq_some_iff.mp hc).1, Option.some.injEq] at hd
    exact hd ▸ hok
  · rw [List.getElem?_set_ne hij] at hd
    exact h j d hd

/-- One argument of a call may be replaced by one that is in order. -/
theorem CallOk.set (h : CallOk descs c) {j : Nat} {v : ArgValue}
    (hv : ∀ ty, c.desc.args[j]? = some ty → ArgOk descs ty v) :
    CallOk descs { c with args := c.args.set j v } := by
  obtain ⟨desc, args⟩ := c
  unfold CallOk at h ⊢
  dsimp only at h hv ⊢
  generalize desc.args = tys at h hv ⊢
  induction h generalizing j with
  | nil => exact .nil
  | cons ha _ ih =>
    cases j with
    | zero => exact .cons (hv _ rfl) ‹_›
    | succ j => exact .cons ha (ih fun ty hty => hv ty hty)

/-- The value of a resource argument is a reference. -/
theorem CallOk.length (h : CallOk descs c) : c.args.length = c.desc.args.length :=
  (List.Forall₂.length_eq h).symm

end

end FuzzSoft
