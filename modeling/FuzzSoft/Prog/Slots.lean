import FuzzSoft.Prog.Layout
import FuzzSoft.Prog.Leaves

/-!
# Slots

The places inside a program that a path leads to, with their types. The collectors find exactly the
slots with leaves (`mem_sites`), and the walk that changes a site changes its slot (`changeAt_eq`).
-/

namespace FuzzSoft

open Lib Gen Rng

/-- What a path leads to, with its type; every step has to fit both. -/
def typedAt : List PathStep → ArgType → ArgValue → Option (ArgType × ArgValue)
  | [], ty, v => some (ty, v)
  | .ptrInner :: path, .ptr _ inner _, .ptr v => typedAt path inner v
  | .structField i :: path, .struct fields, .struct vals =>
    ((fields.zip vals)[i]?).bind fun a => typedAt path a.1 a.2
  | _ :: _, _, _ => none

/-- Put a value where a path leads. -/
def putAt (w : ArgValue) : List PathStep → ArgValue → ArgValue
  | [], _ => w
  | .ptrInner :: path, .ptr v => .ptr (putAt w path v)
  | .structField i :: path, .struct vals => .struct (vals.modify i (putAt w path))
  | _ :: path, v => putAt w path v

/-- A value that the collectors do not look into, and no reference. -/
def IsLeaf : ArgType → ArgValue → Prop
  | .res _, _ => False
  | .ptr _ _ _, .ptr _ => False
  | .struct _, .struct _ => False
  | _, _ => True

/-- One of the arguments of a program. -/
def Prog.arg? (p : Prog) (i j : Nat) : Option (ArgType × ArgValue) :=
  (p.calls[i]?).bind fun c => (c.desc.args.zip c.args)[j]?

/-- A typed slot of a program. -/
def Prog.slot? (p : Prog) (i j : Nat) (path : List PathStep) : Option (ArgType × ArgValue) :=
  (p.arg? i j).bind fun a => typedAt path a.1 a.2

/-- Put a value into a slot. -/
def Prog.put (p : Prog) (i j : Nat) (path : List PathStep) (w : ArgValue) : Prog where
  calls := p.calls.modify i fun c => { c with args := c.args.modify j (putAt w path) }

section
variable {κ : Type} {leaf : ArgType → ArgValue → Option κ}

/-- A path ends at a leaf. -/
theorem typedAt_leaf {ty : ArgType} {v : ArgValue} (h : IsLeaf ty v) (step : PathStep)
    (path : List PathStep) : typedAt (step :: path) ty v = none := by
  cases step <;> cases ty <;> cases v <;> first | rfl | exact h.elim

/-- A leaf is at its own path. -/
theorem mem_leaf {path : List PathStep} {k : κ} {ty : ArgType} {v : ArgValue} (h : IsLeaf ty v) :
    (path, k) ∈ ((leaf ty v).map fun k => (([] : List PathStep), k)).toList ↔
      ∃ ty' w, typedAt path ty v = some (ty', w) ∧ IsLeaf ty' w ∧ leaf ty' w = some k := by
  simp only [Option.mem_toList, Option.map_eq_some_iff]
  cases path with
  | nil =>
    constructor
    · rintro ⟨k', hk, heq⟩
      cases heq
      exact ⟨ty, v, rfl, h, hk⟩
    · rintro ⟨ty', w, heq, -, hk⟩
      cases heq
      exact ⟨k, hk, rfl⟩
  | cons step path => simp [typedAt_leaf h]

mutual

/-- The leaves of a value are what the paths lead to. -/
theorem mem_leavesOf {path : List PathStep} {k : κ} : ∀ (ty : ArgType) (v : ArgValue),
    (path, k) ∈ leavesOf leaf ty v ↔
      ∃ ty' w, typedAt path ty v = some (ty', w) ∧ IsLeaf ty' w ∧ leaf ty' w = some k
  | .res _, v => by
    cases path with
    | nil => simp [leavesOf, typedAt, IsLeaf]
    | cons step path => cases step <;> simp [leavesOf, typedAt]
  | .ptr dir inner nullable, v => by
    cases v with
    | ptr pointee =>
      have ih := fun path' => @mem_leavesOf path' k inner pointee
      cases path with
      | nil => simp [leavesOf, typedAt, IsLeaf]
      | cons step path =>
        cases step with
        | ptrInner => simpa [leavesOf, typedAt] using ih path
        | structField i => simp [leavesOf, typedAt]
    | _ => exact mem_leaf trivial
  | .struct fields, v => by
    cases v with
    | struct vals =>
      refine (mem_fieldLeaves 0 fields vals).trans ?_
      simp only [Nat.zero_add]
      constructor
      · rintro ⟨j, rest, a, rfl, ha, ty', w, hw, hk⟩
        exact ⟨ty', w, Option.bind_eq_some_iff.mpr ⟨a, ha, hw⟩, hk⟩
      · rintro ⟨ty', w, hw, hleaf, hk⟩
        cases path with
        | nil =>
          cases hw
          cases hleaf
        | cons step path =>
          cases step with
          | ptrInner => cases hw
          | structField i =>
            obtain ⟨a, ha, hw⟩ := Option.bind_eq_some_iff.mp hw
            exact ⟨i, path, a, rfl, ha, ty', w, hw, hleaf, hk⟩
    | _ => exact mem_leaf trivial
  | .const _, _ | .int _ _, _ | .flags _ _, _ | .len _, _ | .buffer _, _ | .stringConst _, _ =>
    mem_leaf trivial

/-- A leaf of a struct is one of a field. -/
theorem mem_fieldLeaves {path : List PathStep} {k : κ} :
    ∀ (i : Nat) (fields : List ArgType) (vals : List ArgValue),
    (path, k) ∈ fieldLeaves leaf i fields vals ↔ ∃ j rest a, path = .structField (i + j) :: rest ∧
      (fields.zip vals)[j]? = some a ∧
      ∃ ty' w, typedAt rest a.1 a.2 = some (ty', w) ∧ IsLeaf ty' w ∧ leaf ty' w = some k
  | i, f :: fields, v :: vals => by
    simp only [fieldLeaves, List.mem_append, List.mem_map]
    rw [mem_fieldLeaves (i + 1) fields vals]
    constructor
    · rintro (⟨⟨path', k'⟩, hm, heq⟩ | ⟨j, rest, a, rfl, ha, hw⟩)
      · cases heq
        exact ⟨0, path', (f, v), rfl, rfl, (mem_leavesOf f v).mp hm⟩
      · exact ⟨j + 1, rest, a, by rw [Nat.add_right_comm, Nat.add_assoc], ha, hw⟩
    · rintro ⟨j, rest, a, rfl, ha, hw⟩
      cases j with
      | zero =>
        cases ha
        exact .inl ⟨(rest, k), (mem_leavesOf f v).mpr hw, rfl⟩
      | succ j => exact .inr ⟨j, rest, a, by rw [Nat.add_right_comm, Nat.add_assoc], ha, hw⟩
  | i, [], vals => by simp [fieldLeaves]
  | i, f :: fields, [] => by simp [fieldLeaves]

end

/-- The sites of a program are its slots with leaves. -/
theorem mem_sites {p : Prog} {s : Site κ} :
    s ∈ sites leaf p ↔ ∃ ty w, p.slot? s.callIdx s.argIdx s.path = some (ty, w) ∧ IsLeaf ty w ∧
      leaf ty w = some s.kind := by
  have hslot : ∀ ty w, p.slot? s.callIdx s.argIdx s.path = some (ty, w) ↔
      ∃ c a, p.calls[s.callIdx]? = some c ∧ (c.desc.args.zip c.args)[s.argIdx]? = some a ∧
        typedAt s.path a.1 a.2 = some (ty, w) := by
    intro ty w
    simp only [Prog.slot?, Prog.arg?, Option.bind_eq_some_iff]
    constructor
    · rintro ⟨a, ⟨c, hc, ha⟩, hw⟩
      exact ⟨c, a, hc, ha, hw⟩
    · rintro ⟨c, a, hc, ha, hw⟩
      exact ⟨a, ⟨c, hc, ha⟩, hw⟩
  simp only [sites, List.mem_flatMap, List.mem_map, Prod.exists, List.mem_zipIdx_iff_getElem?]
  constructor
  · rintro ⟨c, i, hc, ty, v, j, ha, path, k, hl, rfl⟩
    obtain ⟨ty', w, hw, hk⟩ := (mem_leavesOf ty v).mp hl
    exact ⟨ty', w, (hslot ty' w).mpr ⟨c, (ty, v), hc, ha, hw⟩, hk⟩
  · rintro ⟨ty', w, hs, hk⟩
    obtain ⟨c, a, hc, ha, hw⟩ := (hslot ty' w).mp hs
    exact ⟨c, _, hc, a.1, a.2, _, ha, _, s.kind, (mem_leavesOf a.1 a.2).mpr ⟨ty', w, hw, hk⟩, rfl⟩

end

/-! ## Changing a slot -/

/-- An update in place is an assignment. -/
theorem modify_of_getElem? {α : Type} {l : List α} {i : Nat} {a : α} (h : l[i]? = some a)
    (f : α → α) : l.modify i f = l.set i (f a) := by
  obtain ⟨hi, rfl⟩ := List.getElem?_eq_some_iff.mp h
  exact List.modify_eq_set_get f hi

/-- A step goes into a pointee or into a field. -/
theorem typedAt_cons {step : PathStep} {path : List PathStep} {ty : ArgType} {v : ArgValue}
    {r : ArgType × ArgValue} (h : typedAt (step :: path) ty v = some r) :
    (∃ dir inner nullable v', step = .ptrInner ∧ ty = .ptr dir inner nullable ∧ v = .ptr v' ∧
      typedAt path inner v' = some r) ∨
    ∃ i fields vals f v', step = .structField i ∧ ty = .struct fields ∧ v = .struct vals ∧
      fields[i]? = some f ∧ vals[i]? = some v' ∧ typedAt path f v' = some r := by
  cases step with
  | ptrInner =>
    cases ty with
    | ptr dir inner nullable =>
      cases v with
      | ptr v' => exact .inl ⟨dir, inner, nullable, v', rfl, rfl, rfl, h⟩
      | _ => cases h
    | _ => cases h
  | structField i =>
    cases ty with
    | struct fields =>
      cases v with
      | struct vals =>
        obtain ⟨a, ha, hw⟩ := Option.bind_eq_some_iff.mp h
        obtain ⟨hf, hv⟩ := List.getElem?_zip_eq_some.mp ha
        exact .inr ⟨i, fields, vals, a.1, a.2, rfl, rfl, rfl, hf, hv, hw⟩
      | _ => cases h
    | _ => cases h

section
variable {p : Prog} {i j : Nat} {path : List PathStep} {ty : ArgType} {w : ArgValue}

/-- What a typed path leads to is what the walk finds. -/
theorem valueAt_of_typedAt {ty' : ArgType} {v : ArgValue} (h : typedAt path ty v = some (ty', w)) :
    valueAt path v = some w := by
  induction path generalizing ty v with
  | nil =>
    cases h
    rfl
  | cons step path ih =>
    rcases typedAt_cons h with ⟨_, _, _, v', rfl, -, rfl, hw⟩ | ⟨i, _, vals, _, v', rfl, -, rfl, -, hv, hw⟩
    · exact ih hw
    · rw [valueAt, hv]
      exact ih hw

/-- The walk changes what the path leads to. -/
theorem navigateMut_eq {f : ArgValue → Rand ArgValue} {ty' : ArgType} {v : ArgValue}
    (h : typedAt path ty v = some (ty', w)) (rng : U32) :
    navigateMut f path v rng = (f w rng).map fun r => (putAt r.1 path v, r.2) := by
  induction path generalizing ty v with
  | nil =>
    cases h
    rw [navigateMut]
    cases f w rng <;> rfl
  | cons step path ih =>
    rcases typedAt_cons h with ⟨_, _, _, v', rfl, -, rfl, hw⟩ | ⟨i, _, vals, _, v', rfl, -, rfl, -, hv, hw⟩
    · change (navigateMut f path v' >>= fun v'' => (pure (.ptr v'') : Rand ArgValue)) rng = _
      rw [bind_eq, ih hw]
      cases f w rng <;> rfl
    · change (index vals i >>= fun v => navigateMut f path v >>= fun v'' =>
        (pure (.struct (vals.set i v'')) : Rand ArgValue)) rng = _
      rw [bind_some (index_some hv rng), bind_eq, ih hw]
      simp only [putAt, modify_of_getElem? hv]
      cases f w rng <;> rfl

/-- The argument that a slot is in. -/
theorem slot?_eq_some : p.slot? i j path = some (ty, w) ↔ ∃ c ty' v, p.calls[i]? = some c ∧
    c.desc.args[j]? = some ty' ∧ c.args[j]? = some v ∧ typedAt path ty' v = some (ty, w) := by
  simp only [Prog.slot?, Prog.arg?, Option.bind_eq_some_iff, List.getElem?_zip_eq_some]
  constructor
  · rintro ⟨a, ⟨c, hc, ha⟩, hw⟩
    exact ⟨c, a.1, a.2, hc, ha.1, ha.2, hw⟩
  · rintro ⟨c, ty', v, hc, hty, hv, hw⟩
    exact ⟨(ty', v), ⟨c, hc, hty, hv⟩, hw⟩

/-- An argument in range is found. -/
theorem getArg_eq {c : TypedCall} {v : ArgValue} (hc : p.calls[i]? = some c) (hv : c.args[j]? = some v)
    (rng : U32) : getArg p i j rng = some (v, rng) :=
  (bind_some (index_some hc rng) _).trans (index_some hv rng)

/-- The change of a site draws what the change of its value draws. -/
theorem changeAt_eq {κ : Type} {s : Site κ} {f : ArgValue → Rand ArgValue}
    (h : p.slot? s.callIdx s.argIdx s.path = some (ty, w)) (rng : U32) :
    changeAt p s f rng = (f w rng).map fun r => (p.put s.callIdx s.argIdx s.path r.1, r.2) := by
  obtain ⟨c, ty', v, hc, -, hv, hw⟩ := slot?_eq_some.mp h
  refine (bind_some (getArg_eq hc hv rng) _).trans ?_
  rw [bind_eq, navigateMut_eq hw]
  cases f w rng with
  | none => rfl
  | some r =>
    refine (bind_some (index_some hc r.2) _).trans ?_
    have hj := (List.getElem?_eq_some_iff.mp hv).1
    have hset : assign c.args s.argIdx (putAt r.1 s.path v) r.2 =
        some (c.args.set s.argIdx (putAt r.1 s.path v), r.2) := by
      rw [assign, if_pos hj]
      rfl
    refine (bind_some hset _).trans ?_
    simp only [Prog.put, modify_of_getElem? hc, modify_of_getElem? hv]
    rfl

/-- What was put somewhere is there. -/
theorem typedAt_putAt {ty' : ArgType} {v w' : ArgValue} (h : typedAt path ty v = some (ty', w)) :
    typedAt path ty (putAt w' path v) = some (ty', w') := by
  induction path generalizing ty v with
  | nil =>
    cases h
    rfl
  | cons step path ih =>
    rcases typedAt_cons h with ⟨_, _, _, v', rfl, rfl, rfl, hw⟩ |
      ⟨i, fields, vals, f, v', rfl, rfl, rfl, hf, hv, hw⟩
    · exact ih hw
    · have hi := (List.getElem?_eq_some_iff.mp hv).1
      have hz : (fields.zip (vals.set i (putAt w' path v')))[i]? = some (f, putAt w' path v') :=
        List.getElem?_zip_eq_some.mpr ⟨hf, List.getElem?_set_self hi⟩
      rw [putAt, modify_of_getElem? hv, typedAt, hz, Option.bind_some]
      exact ih hw

/-- A slot holds what was put there. -/
theorem slot?_put {w' : ArgValue} (h : p.slot? i j path = some (ty, w)) :
    (p.put i j path w').slot? i j path = some (ty, w') := by
  obtain ⟨c, ty', v, hc, hty, hv, hw⟩ := slot?_eq_some.mp h
  refine slot?_eq_some.mpr ⟨{ c with args := c.args.modify j (putAt w' path) }, ty',
    putAt w' path v, ?_, hty, ?_, typedAt_putAt hw⟩
  · simp only [Prog.put, List.getElem?_modify, if_true, hc]
    rfl
  · simp only [List.getElem?_modify, if_true, hv]
    rfl

/-- Another leaf is left as it is. -/
theorem typedAt_putAt_ne {path' : List PathStep} {ty₁ ty₂ : ArgType} {v u w' : ArgValue}
    (h : typedAt path ty v = some (ty₁, w)) (hw : IsLeaf ty₁ w)
    (h' : typedAt path' ty v = some (ty₂, u)) (hu : IsLeaf ty₂ u) (hne : path' ≠ path) :
    typedAt path' ty (putAt w' path v) = some (ty₂, u) := by
  induction path generalizing ty v path' with
  | nil =>
    cases h
    cases path' with
    | nil => exact absurd rfl hne
    | cons step path' => rw [typedAt_leaf hw] at h'; cases h'
  | cons step path ih =>
    cases path' with
    | nil =>
      cases h'
      rw [typedAt_leaf hu] at h
      cases h
    | cons step' path' =>
      rcases typedAt_cons h with ⟨_, _, _, v', rfl, rfl, rfl, hw⟩ |
        ⟨i, fields, vals, f, v', rfl, rfl, rfl, hf, hv, hw⟩
      · rcases typedAt_cons h' with ⟨_, _, _, u', rfl, heq, hv, hu'⟩ | ⟨_, _, _, _, _, _, heq, _⟩
        · cases heq
          cases hv
          exact ih hw hu' fun hpath => hne (hpath ▸ rfl)
        · cases heq
      · rcases typedAt_cons h' with ⟨_, _, _, _, _, heq, _⟩ |
          ⟨i', fields', vals', f', u', rfl, heq, hvals, hf', hu', hw'⟩
        · cases heq
        · cases heq
          cases hvals
          rw [putAt, modify_of_getElem? hv]
          by_cases hi : i' = i
          · subst hi
            cases hf.symm.trans hf'
            cases hv.symm.trans hu'
            have hlt := (List.getElem?_eq_some_iff.mp hv).1
            have hz : (fields.zip (vals.set i' (putAt w' path v')))[i']? =
                some (f, putAt w' path v') :=
              List.getElem?_zip_eq_some.mpr ⟨hf, List.getElem?_set_self hlt⟩
            rw [typedAt, hz, Option.bind_some]
            exact ih hw hw' fun hpath => hne (hpath ▸ rfl)
          · have hz : (fields.zip (vals.set i (putAt w' path v')))[i']? = some (f', u') :=
              List.getElem?_zip_eq_some.mpr
                ⟨hf', (List.getElem?_set_ne fun heq => hi heq.symm).trans hu'⟩
            rw [typedAt, hz, Option.bind_some]
            exact hw'

/-- The other slots keep theirs. -/
theorem slot?_put_ne {i' j' : Nat} {path' : List PathStep} {ty' : ArgType} {u w' : ArgValue}
    (h : p.slot? i j path = some (ty, w)) (hw : IsLeaf ty w)
    (h' : p.slot? i' j' path' = some (ty', u)) (hu : IsLeaf ty' u)
    (hne : ¬ (i' = i ∧ j' = j ∧ path' = path)) :
    (p.put i j path w').slot? i' j' path' = some (ty', u) := by
  obtain ⟨c, ty₁, v, hc, hty, hv, hat⟩ := slot?_eq_some.mp h
  obtain ⟨c', ty₂, v', hc', hty', hv', hat'⟩ := slot?_eq_some.mp h'
  by_cases hi : i' = i
  · subst hi
    cases hc.symm.trans hc'
    refine slot?_eq_some.mpr ⟨{ c with args := c.args.modify j (putAt w' path) }, ty₂,
      if j = j' then putAt w' path v' else v', ?_, hty', ?_, ?_⟩
    · simp only [Prog.put, List.getElem?_modify, if_true, hc]
      rfl
    · simp only [List.getElem?_modify, hv']
      split <;> rfl
    · by_cases hj : j = j'
      · subst hj
        cases hty.symm.trans hty'
        cases hv.symm.trans hv'
        rw [if_pos rfl]
        exact typedAt_putAt_ne hat hw hat' hu fun hpath => hne ⟨rfl, rfl, hpath⟩
      · rw [if_neg hj]
        exact hat'
  · refine slot?_eq_some.mpr ⟨c', ty₂, v', ?_, hty', hv', hat'⟩
    have hii : i ≠ i' := fun heq => hi heq.symm
    simp only [Prog.put, List.getElem?_modify, if_neg hii, hc']
    rfl

end

end FuzzSoft
