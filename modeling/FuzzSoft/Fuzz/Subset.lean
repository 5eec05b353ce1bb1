import FuzzSoft.Fuzz.Minimize
import FuzzSoft.Prog.Leaves

/-!
# Subsets of a program

Deleting calls keeps the threading: references to kept calls follow them to their new places, and the
others become seeds (`subset_prog_threaded`). Deleting in two steps is deleting at once
(`subsetProg_subsetProg`), which is what the minimizers rely on.
-/

namespace FuzzSoft

/-! ## Renumbering -/

/-- Indices of calls to keep, in order. -/
structure KeepList (n : Nat) (keep : List Nat) : Prop where
  increasing : keep.Pairwise (· < ·)
  valid : ∀ i ∈ keep, i < n

section
variable {n old m : Nat} {keep : List Nat}

/-- No call is kept twice. -/
theorem KeepList.nodup (h : KeepList n keep) : keep.Nodup := h.increasing.imp Nat.ne_of_lt

/-- The new index of a call is no larger than the old one. -/
theorem le_of_increasing : ∀ {keep : List Nat} {m old : Nat}, keep.Pairwise (· < ·) →
    keep[m]? = some old → m ≤ old
  | _ :: _, 0, _, _, _ => Nat.zero_le _
  | i :: keep, m + 1, old, hinc, h => by
    obtain ⟨hlt, hinc⟩ := List.pairwise_cons.mp hinc
    cases keep with
    | nil => simp at h
    | cons i' keep =>
      -- past the head, the indices less one increase as well
      have hshift : ((i' :: keep).map (· - 1)).Pairwise (· < ·) := by
        rw [List.pairwise_map]
        refine hinc.imp_of_mem fun {a b} ha _ hab => ?_
        have := hlt a ha
        omega
      have hold : ((i' :: keep).map (· - 1))[m]? = some (old - 1) := by
        rw [List.getElem?_map, show (i' :: keep)[m]? = some old from h]
        rfl
      have hle := le_of_increasing hshift hold
      have := hlt old (List.mem_of_getElem? h)
      omega
  | [], _, _, _, h => by simp at h

/-- The order of the kept calls is that of their new indices. -/
theorem lt_of_increasing {keep : List Nat} {m m' old old' : Nat} (hinc : keep.Pairwise (· < ·))
    (h : keep[m]? = some old) (h' : keep[m']? = some old') (hlt : old < old') : m < m' := by
  obtain ⟨hm, rfl⟩ := List.getElem?_eq_some_iff.mp h
  obtain ⟨hm', rfl⟩ := List.getElem?_eq_some_iff.mp h'
  by_contra hge
  rcases Nat.lt_or_eq_of_le (Nat.le_of_not_lt hge) with hlt' | rfl
  · have := List.pairwise_iff_getElem.mp hinc m' m hm' hm hlt'
    omega
  · exact absurd hlt (Nat.lt_irrefl _)

/-- A kept call gets its index in the list of kept calls. -/
theorem remap_of_getElem? (hn : keep.Nodup) (h : keep[m]? = some old) :
    remap keep old = some (BitVec.ofNat 16 m) := by
  have hmem : (old, m) ∈ keep.zipIdx.reverse := by
    rw [List.mem_reverse]
    exact List.mem_zipIdx_iff_getElem?.mpr h
  obtain ⟨l₁, l₂, hsplit⟩ := List.append_of_mem hmem
  have hkeys : (keep.zipIdx.reverse.map Prod.fst).Nodup := by
    rw [List.map_reverse, List.nodup_reverse, List.zipIdx_map_fst]
    exact hn
  have hlookup : keep.zipIdx.reverse.lookup old = some m := by
    refine List.lookup_eq_some_iff.mpr ⟨l₁, l₂, hsplit, fun p hp => ?_⟩
    rw [hsplit, List.map_append, List.map_cons] at hkeys
    have hne := (List.nodup_append.mp hkeys).2.2 p.1 (List.mem_map_of_mem hp) old List.mem_cons_self
    exact bne_iff_ne.mpr (Ne.symm hne)
  rw [remap, hlookup]
  rfl

/-- A dropped call has no new index. -/
theorem remap_of_notMem (h : old ∉ keep) : remap keep old = none := by
  rw [remap, Option.map_eq_none_iff, List.lookup_eq_none_iff]
  intro p hp
  rw [List.mem_reverse] at hp
  refine bne_iff_ne.mpr ?_
  rintro rfl
  exact h (List.mem_of_getElem? (List.mem_zipIdx_iff_getElem?.mp hp))

end

/-! ## The calls of a subset -/

section
variable {p : Prog} {keep : List Nat}

/-- The selected elements, by place. -/
theorem filterMap_getElem? {α β : Type} {xs : List α} (g : α → β) : ∀ {keep : List Nat},
    (∀ i ∈ keep, i < xs.length) → ∀ k : Nat,
      (keep.filterMap fun i => (xs[i]?).map g)[k]? = (keep[k]?).bind fun i => (xs[i]?).map g
  | [], _, _ => rfl
  | i :: keep, h, k => by
    have hi := List.getElem?_eq_getElem (h i List.mem_cons_self)
    have ih := filterMap_getElem? g fun j hj => h j (List.mem_cons_of_mem i hj)
    rw [List.filterMap_cons_some (by rw [hi]; rfl)]
    cases k with
    | zero => rw [List.getElem?_cons_zero, List.getElem?_cons_zero, Option.bind_some, hi]; rfl
    | succ k => exact ih k

/-- Call `k` of a subset is the call that `keep` names there. -/
theorem subsetProg_getElem? (h : KeepList p.calls.length keep) (k : Nat) :
    (subsetProg p keep).calls[k]? =
      (keep[k]?).bind fun i => (p.calls[i]?).map (subsetCall keep) :=
  filterMap_getElem? _ h.valid k

/-- The program has the kept calls. -/
theorem length_subsetProg (h : KeepList p.calls.length keep) :
    (subsetProg p keep).calls.length = keep.length := by
  refine Nat.le_antisymm (List.length_filterMap_le _ _) (Nat.le_of_not_lt fun hlt => ?_)
  have hnone := List.getElem?_eq_none (Nat.le_refl (subsetProg p keep).calls.length)
  obtain ⟨i, hi⟩ : ∃ i, keep[(subsetProg p keep).calls.length]? = some i :=
    ⟨_, List.getElem?_eq_getElem hlt⟩
  have hc := List.getElem?_eq_getElem (h.valid i (List.mem_of_getElem? hi))
  rw [subsetProg_getElem? h, hi, Option.bind_some, hc] at hnone
  cases hnone

/-- What becomes of an argument: a reference follows the call it names or becomes a seed, and anything
else stays. -/
inductive Moved (keep : List Nat) : ArgValue → ArgValue → Prop where
  | kept {callIdx newIdx : U16} {slot : U8} (h : keep[newIdx.toNat]? = some callIdx.toNat) :
    Moved keep (.res (.produced callIdx slot)) (.res (.produced newIdx slot))
  | dropped {callIdx : U16} {slot : U8} (h : callIdx.toNat ∉ keep) :
    Moved keep (.res (.produced callIdx slot)) (.res (.seed (-100)))
  | other {v : ArgValue} (h : ∀ callIdx slot, v ≠ .res (.produced callIdx slot)) : Moved keep v v

/-- A new index fits its type. -/
theorem toNat_ofNat_index {m : Nat} {callIdx : U16} (hinc : keep.Pairwise (· < ·))
    (h : keep[m]? = some callIdx.toNat) : (BitVec.ofNat 16 m).toNat = m := by
  rw [BitVec.toNat_ofNat]
  exact Nat.mod_eq_of_lt (Nat.lt_of_le_of_lt (le_of_increasing hinc h) callIdx.isLt)

/-- A value moves with its calls. -/
theorem moved_subsetArg (hinc : keep.Pairwise (· < ·)) (v : ArgValue) :
    Moved keep v (subsetArg keep v) := by
  unfold subsetArg
  split
  next callIdx slot =>
    by_cases hmem : callIdx.toNat ∈ keep
    · obtain ⟨m, hm⟩ := List.mem_iff_getElem?.mp hmem
      rw [remap_of_getElem? (hinc.imp Nat.ne_of_lt) hm]
      exact .kept (by rwa [toNat_ofNat_index hinc hm])
    · rw [remap_of_notMem hmem]
      exact .dropped hmem
  next hne => exact .other fun callIdx slot heq => hne callIdx slot heq

/-- A reference in order still is among the kept calls. -/
theorem ArgOk.moved (h : KeepList p.calls.length keep) {k old : Nat} (hk : keep[k]? = some old)
    {ty : ArgType} {v v' : ArgValue} (hm : Moved keep v v')
    (hv : ArgOk ((p.calls.take old).map (·.desc)) ty v) :
    ArgOk (((subsetProg p keep).calls.take k).map (·.desc)) ty v' := by
  cases ty with
  | res want =>
    cases hm with
    | @kept callIdx newIdx slot hnew =>
      obtain ⟨d, kd, hd, hkd, hw⟩ := hv
      have hlt : callIdx.toNat < old := by
        have := (List.getElem?_eq_some_iff.mp hd).1
        rw [List.length_map, List.length_take] at this
        omega
      rw [getElem?_descs _ _ hlt] at hd
      refine ⟨d, kd, ?_, hkd, hw⟩
      rw [getElem?_descs _ _ (lt_of_increasing h.increasing hnew hk hlt), subsetProg_getElem? h, hnew,
        Option.bind_some, Option.map_map]
      exact hd
    | dropped => trivial
    | @other _ hne =>
      cases v with
      | res r =>
        cases r with
        | seed s => trivial
        | produced callIdx slot => exact absurd rfl (hne callIdx slot)
      | _ => exact hv.elim
  | _ => trivial

/-- Subsets of well-formed programs are well-formed. -/
theorem isWellFormed_subsetProg (hwf : p.isWellFormed = true) (h : KeepList p.calls.length keep) :
    (subsetProg p keep).isWellFormed = true := by
  refine (isWellFormed_iff _).mpr fun k c' hc' => ?_
  rw [subsetProg_getElem? h] at hc'
  obtain ⟨old, hold, hc'⟩ := Option.bind_eq_some_iff.mp hc'
  obtain ⟨c, hc, rfl⟩ := Option.map_eq_some_iff.mp hc'
  have hok := (isWellFormed_iff p).mp hwf old c hc
  show List.Forall₂ _ c.desc.args (c.args.map (subsetArg keep))
  rw [List.forall₂_map_right_iff]
  exact List.Forall₂.imp (fun ty v hv => hv.moved h hold (moved_subsetArg h.increasing v)) hok

/-! ## Deleting in two steps -/

/-- The elements of a list that another list selects. -/
def selectKept (keep keep' : List Nat) : List Nat := keep'.filterMap (keep[·]?)

/-- A selection of a selection, by place. -/
theorem selectKept_getElem? {keep keep' : List Nat} (h' : ∀ i ∈ keep', i < keep.length) (k : Nat) :
    (selectKept keep keep')[k]? = (keep'[k]?).bind (keep[·]?) := by
  have h := filterMap_getElem? id h' k
  simp only [Option.map_id, id_eq] at h
  exact h

/-- It is increasing. -/
theorem increasing_selectKept {keep keep' : List Nat} (h : keep.Pairwise (· < ·))
    (h' : keep'.Pairwise (· < ·)) : (selectKept keep keep').Pairwise (· < ·) := by
  refine List.Pairwise.filterMap _ (fun i i' hlt o ho o' ho' => ?_) h'
  obtain ⟨hi, rfl⟩ := List.getElem?_eq_some_iff.mp ho
  obtain ⟨hi', rfl⟩ := List.getElem?_eq_some_iff.mp ho'
  exact List.pairwise_iff_getElem.mp h i i' hi hi' hlt

/-- Renumbering in two steps. -/
theorem subsetArg_subsetArg {keep keep' : List Nat} (h : keep.Pairwise (· < ·))
    (h' : KeepList keep.length keep') (v : ArgValue) :
    subsetArg keep' (subsetArg keep v) = subsetArg (selectKept keep keep') v := by
  have hsel := increasing_selectKept h h'.increasing
  cases v with
  | res r =>
    cases r with
    | seed s => rfl
    | produced callIdx slot =>
      by_cases hmem : callIdx.toNat ∈ keep
      · obtain ⟨m, hm⟩ := List.mem_iff_getElem?.mp hmem
        have hfirst : subsetArg keep (.res (.produced callIdx slot)) =
            .res (.produced (BitVec.ofNat 16 m) slot) := by
          rw [subsetArg, remap_of_getElem? (h.imp Nat.ne_of_lt) hm]
        have hnat := toNat_ofNat_index h hm
        rw [hfirst, subsetArg, subsetArg, hnat]
        by_cases hmem' : m ∈ keep'
        · obtain ⟨m', hm'⟩ := List.mem_iff_getElem?.mp hmem'
          have hboth : (selectKept keep keep')[m']? = some callIdx.toNat := by
            rw [selectKept_getElem? h'.valid, hm', Option.bind_some, hm]
          rw [remap_of_getElem? h'.nodup hm', remap_of_getElem? (hsel.imp Nat.ne_of_lt) hboth]
        · have hout : callIdx.toNat ∉ selectKept keep keep' := by
            intro hin
            obtain ⟨m', hm', heq⟩ := List.mem_filterMap.mp hin
            obtain ⟨hi, hgi⟩ := List.getElem?_eq_some_iff.mp heq
            obtain ⟨hj, hgj⟩ := List.getElem?_eq_some_iff.mp hm
            have := (List.Nodup.getElem_inj_iff (h.imp Nat.ne_of_lt)).mp (hgi.trans hgj.symm)
            exact hmem' (this ▸ hm')
          rw [remap_of_notMem hmem', remap_of_notMem hout]
      · have hout : callIdx.toNat ∉ selectKept keep keep' := fun hin => by
          obtain ⟨m', -, heq⟩ := List.mem_filterMap.mp hin
          exact hmem (List.mem_of_getElem? heq)
        have hfirst : subsetArg keep (.res (.produced callIdx slot)) = .res (.seed (-100)) := by
          rw [subsetArg, remap_of_notMem hmem]
        rw [hfirst, subsetArg, remap_of_notMem hout]
        rfl
  | _ => rfl

/-- Selecting twice is selecting once. -/
theorem subsetProg_subsetProg {keep keep' : List Nat} (h : KeepList p.calls.length keep)
    (h' : KeepList keep.length keep') :
    subsetProg (subsetProg p keep) keep' = subsetProg p (selectKept keep keep') := by
  have hcall (c : TypedCall) : subsetCall keep' (subsetCall keep c) = subsetCall (selectKept keep keep') c := by
    simp only [subsetCall, List.map_map, TypedCall.mk.injEq, true_and]
    exact List.map_congr_left fun v _ => subsetArg_subsetArg h.increasing h' v
  refine congrArg Prog.mk ?_
  rw [selectKept, List.filterMap_filterMap]
  refine congrArg (List.filterMap · keep') (funext fun i => ?_)
  rw [subsetProg_getElem? h]
  cases keep[i]? with
  | none => rfl
  | some o =>
    rw [Option.bind_some, Option.bind_some, Option.map_map]
    cases p.calls[o]? with
    | none => rfl
    | some c => exact congrArg some (hcall c)

end

/-! ## Deleting calls -/

/-- Deleting calls keeps the threading of what is left, and may be done in steps. -/
theorem subset_prog_threaded {p : Prog} (hwf : p.isWellFormed = true) {keep : List Nat}
    (h : KeepList p.calls.length keep) :
    (subsetProg p keep).isWellFormed = true ∧ (subsetProg p keep).calls.length = keep.length ∧
    (∀ k old : Nat, keep[k]? = some old → ∃ c c', p.calls[old]? = some c ∧
      (subsetProg p keep).calls[k]? = some c' ∧ c'.desc = c.desc ∧
      List.Forall₂ (Moved keep) c.args c'.args) ∧
    ∀ keep', KeepList keep.length keep' →
      subsetProg (subsetProg p keep) keep' = subsetProg p (selectKept keep keep') := by
  refine ⟨isWellFormed_subsetProg hwf h, length_subsetProg h, fun k old hk => ?_,
    fun keep' h' => subsetProg_subsetProg h h'⟩
  have hc := List.getElem?_eq_getElem (h.valid old (List.mem_of_getElem? hk))
  refine ⟨_, subsetCall keep _, hc, ?_, rfl, ?_⟩
  · rw [subsetProg_getElem? h, hk, Option.bind_some, hc]
    rfl
  · show List.Forall₂ _ _ (List.map _ _)
    rw [List.forall₂_map_right_iff, List.forall₂_same]
    exact fun v _ => moved_subsetArg h.increasing v

/-- Without its pipe, a close gets a bogus descriptor. -/
theorem subset_prog_threaded_pipe : (subsetProg pipeProg [1]).isWellFormed = true ∧
    (subsetProg pipeProg [1]).calls.length = 1 ∧
    subsetProg (subsetProg pipeProg [1]) [0] = subsetProg pipeProg (selectKept [1] [0]) := by
  have hkeep : KeepList pipeProg.calls.length [1] := ⟨by simp, by decide⟩
  have hrest : KeepList [1].length [0] := ⟨by simp, by decide⟩
  obtain ⟨hwf, hlen, -, hsteps⟩ := subset_prog_threaded ok_pipeProg.wellFormed hkeep
  exact ⟨hwf, hlen, hsteps [0] hrest⟩

end FuzzSoft
