import FuzzSoft.Lib.Run
import FuzzSoft.Vec.Lanes

/-!
# The lanes are independent memories

Every operation of the interleaved memory against the same operation on the flat memory of each lane
(`Independent`). A gather or scatter looks at the words below the number of words cut to 32 bits only,
so it misses the lanes that reach past them, and these are the only operations that do
(`independent_iff`).
-/

namespace FuzzSoft

open Lib

namespace VecMmu

/-! ## Gathers and scatters -/

/-- A lane is gathered when it is active, in the window and loads. -/
theorem loadGatherFast_ok {m : VecMmu} {addrs : Simd U32} {n : Nat} {active : Simd Bool}
    (hn : AccessSize n) (l : Lane) : (m.loadGatherFast addrs n active).2 l = true ↔
      active l = true ∧ m.Seen (addrs l) ∧ ∃ v, (m.lane l).load (addrs l) n = .ok v := by
  constructor
  · intro h
    obtain ⟨ha, hs, hc⟩ := (gatherOk_iff hn .read l).1 h
    exact ⟨ha, hs, _, (loadLane_eq_ok hn).1 (loadLane_of_check hc)⟩
  · rintro ⟨ha, hs, v, hv⟩
    obtain ⟨p, hp⟩ := check_of_load hn hv
    exact gatherOk_of_check hn ha hs hp

/-- It is given what its memory holds. -/
theorem loadGatherFast_eq {m : VecMmu} {addrs : Simd U32} {n : Nat} {active : Simd Bool}
    (hn : AccessSize n) {l : Lane} (h : (m.loadGatherFast addrs n active).2 l = true) :
    (m.lane l).load (addrs l) n = .ok ((m.loadGatherFast addrs n active).1 l) := by
  change m.gatherOk (m.gatherAddrPlan addrs n active) n PERM_READ l = true at h
  obtain ⟨-, -, hc⟩ := (gatherOk_iff hn .read l).1 h
  have hlt := (wordOff_eq_some.1 ((check_eq_ok hn _).1 hc).2.1).2.1
  have hv := (loadLane_eq_ok hn).1 (loadLane_of_check hc)
  rw [hv]
  show _ = Except.ok (extract _ n (m.gatherSelect m.content _ _ l))
  rw [gatherSelect_of_lt h hlt]

/-- A marked lane is one that could make its store by itself. -/
theorem storeScatterFast_served {m : VecMmu} {addrs vals : Simd U32} {n : Nat} {active : Simd Bool}
    (hn : AccessSize n) {l : Lane} (h : (m.storeScatterFast addrs n vals active).1 l = true) :
    (m.storeLane l (addrs l) n (vals l)).1 = .ok () := by
  obtain ⟨-, -, hc⟩ := (gatherOk_iff hn .write l).1 h
  rw [storeLane_of_check hc]

/-- A lane is scattered when it is active, in the window and stores. -/
theorem storeScatterFast_ok {m : VecMmu} {addrs vals : Simd U32} {n : Nat} {active : Simd Bool}
    (hn : AccessSize n) (l : Lane) : (m.storeScatterFast addrs n vals active).1 l = true ↔
      active l = true ∧ m.Seen (addrs l) ∧ ((m.lane l).store (addrs l) n (vals l)).1 = .ok () := by
  constructor
  · intro h
    obtain ⟨ha, hs, -⟩ := (gatherOk_iff hn .write l).1 h
    exact ⟨ha, hs, (storeLane_ok_iff hn).1 (storeScatterFast_served hn h)⟩
  · rintro ⟨ha, hs, hv⟩
    obtain ⟨p, hp⟩ := check_of_store hn hv
    exact gatherOk_of_check hn ha hs hp

/-- What a lane sees of a scatter. -/
theorem lane_scatterSelect (f : Nat → U32) (m : VecMmu) (ok : Simd Bool) (plan : Simd AddrPlan)
    (vals : Simd U32) {l : Lane} (h : ok l = true → (plan l).word < m.numWords) :
    lanePlane (m.scatterSelect f ok plan vals) l =
      if ok l then setAt (lanePlane f l) (plan l).word (vals l) else lanePlane f l := by
  rw [scatterSelect, lanePlane_updateLanes _ _ (List.nodup_finRange LANES) (List.mem_finRange l)]
  cases hok : ok l with
  | false =>
    simp only [Bool.false_and, Bool.false_eq_true, if_false]
    exact setAt_eq_self _ _
  | true =>
    have hlt : (plan l).word * LANES + l < m.numWords * LANES := by
      have := Nat.mul_le_mul_right LANES (Nat.succ_le_of_lt (h hok))
      rw [Nat.succ_mul] at this
      have := l.isLt
      omega
    simp only [hlt, decide_true, Bool.and_true, if_true]

/-- Both planes scattered by one plan. -/
def scattered (m : VecMmu) (ok : Simd Bool) (plan : Simd AddrPlan) (c p : Simd U32) : VecMmu :=
  { m with content := m.scatterSelect m.content ok plan c, perms := m.scatterSelect m.perms ok plan p }

/-- The other lanes stay. -/
theorem view_scattered_of_not {m : VecMmu} {ok : Simd Bool} {plan : Simd AddrPlan} {c p : Simd U32}
    {l : Lane} (h : ok l = false) : view l (m.scattered ok plan c p) = view l m := by
  have hwin : ok l = true → (plan l).word < m.numWords := fun h' => by rw [h] at h'; cases h'
  have hc := lane_scatterSelect m.content m ok plan c hwin
  have hp := lane_scatterSelect m.perms m ok plan p hwin
  rw [h] at hc hp
  simp only [view, scattered, hc, hp, Bool.false_eq_true, if_false]

/-- The cell of a marked lane is stored to. -/
theorem view_scattered {m : VecMmu} {ok : Simd Bool} {plan : Simd AddrPlan} {c p : Simd U32}
    {l : Lane} (h : ok l = true) (hwin : (plan l).word < m.numWords) {n : Nat} {v : U32}
    (hc : c l = deposit (plan l).off n v (m.content ((plan l).word * LANES + l)))
    (hp : p l = upgrade (plan l).off n (m.perms ((plan l).word * LANES + l))) :
    view l (m.scattered ok plan c p) = view l (m.stored l (plan l).word (plan l).off n v) := by
  have hc' := lane_scatterSelect m.content m ok plan c fun _ => hwin
  have hp' := lane_scatterSelect m.perms m ok plan p fun _ => hwin
  rw [if_pos h, hc] at hc'
  rw [if_pos h, hp] at hp'
  rw [view_stored]
  simp only [view, scattered, hc', hp']

/-- A scatter is the store of every marked lane. -/
theorem view_storeScatterFast {m : VecMmu} {addrs vals : Simd U32} {n : Nat} {active : Simd Bool}
    (hn : AccessSize n) (l : Lane) : view l (m.storeScatterFast addrs n vals active).2 =
      if (m.storeScatterFast addrs n vals active).1 l then
        view l (m.storeLane l (addrs l) n (vals l)).2
      else view l m := by
  rw [storeScatterFast]
  dsimp only
  generalize hplan : m.gatherAddrPlan addrs n active = plan
  by_cases hok : m.gatherOk plan n PERM_WRITE l = true
  · have hcheck := hok
    rw [← hplan, gatherOk_iff hn .write, hplan] at hcheck
    obtain ⟨-, -, hcheck⟩ := hcheck
    have hwin := (wordOff_eq_some.1 ((check_eq_ok hn _).1 hcheck).2.1).2.1
    have hvalid : (plan l).valid = true := by
      rw [gatherOk] at hok
      exact (Bool.and_eq_true _ _ ▸ hok).1
    rw [if_pos hok, storeLane_of_check hcheck]
    refine view_scattered hok hwin ?_ ?_
    · rw [gatherSelect_of_lt hok hwin]
    · rw [gatherSelect_of_lt hvalid hwin]
  · rw [if_neg hok]
    exact view_scattered_of_not (Bool.not_eq_true _ ▸ hok)

/-- A scattered lane stores what its memory would. -/
theorem storeScatterFast_lane {m : VecMmu} {addrs vals : Simd U32} {n : Nat} {active : Simd Bool}
    (hn : AccessSize n) (l : Lane) : (m.storeScatterFast addrs n vals active).2.lane l =
      if (m.storeScatterFast addrs n vals active).1 l then
        ((m.lane l).store (addrs l) n (vals l)).2
      else m.lane l := by
  have hv := @view_storeScatterFast m addrs vals n active hn l
  by_cases hok : (m.storeScatterFast addrs n vals active).1 l = true
  · rw [if_pos hok] at hv ⊢
    rw [lane_congr hv]
    have hst := storeScatterFast_served hn hok
    rcases storeLane_cases m l (addrs l) hn (vals l) with ⟨word, off, -, he, hm⟩ | ⟨f, he, -⟩
    · rw [he, hm]
    · rw [he] at hst
      cases hst
  · rw [if_neg hok] at hv ⊢
    exact lane_congr hv

end VecMmu

/-! ## Operations and runs -/

/-- The size of an access, as the interface takes it. -/
abbrev Width := { n : Nat // AccessSize n }

/-- An operation of the interleaved memory. -/
inductive VecOp where
  | map (addr : U32) (data : List U8) (perm : U8)
  | protect (addr len : U32) (perm : U8)
  | loadLane (lane : Lane) (addr : U32) (size : Width)
  | storeLane (lane : Lane) (addr : U32) (size : Width) (val : U32)
  | ifetch16Lane (lane : Lane) (addr : U32)
  | loadSame (addr : U32) (size : Width) (active : Simd Bool)
  | storeSame (addr : U32) (size : Width) (active : Simd Bool) (vals : Simd U32)
  | ifetch16Same (addr : U32) (active : Simd Bool)
  | loadGatherFast (addrs : Simd U32) (size : Width) (active : Simd Bool)
  | storeScatterFast (addrs : Simd U32) (size : Width) (vals : Simd U32) (active : Simd Bool)

namespace VecMmu

/-- The memory after an operation. Loads and fetches leave it as it is. -/
def run (m : VecMmu) : VecOp → VecMmu
  | .map addr data perm => (m.map addr data perm).2
  | .protect addr len perm => (m.protect addr len.toNat perm).2
  | .storeLane lane addr size val => (m.storeLane lane addr size val).2
  | .storeSame addr size active vals => (m.storeSame addr size active vals).2
  | .storeScatterFast addrs size vals active => (m.storeScatterFast addrs size vals active).2
  | _ => m

/-- The load of a lane's own memory succeeds. -/
def Loads (m : VecMmu) (l : Lane) (addr : U32) (n : Nat) : Prop :=
  ∃ v, (m.lane l).load addr n = .ok v

/-- The store to a lane's own memory succeeds. -/
def Stores (m : VecMmu) (l : Lane) (addr : U32) (n : Nat) (val : U32) : Prop :=
  ((m.lane l).store addr n val).1 = .ok ()

/-- The operation does in every lane what it would do in a memory of that lane's own: it succeeds
exactly when that one does, with the same value and the same effect, and changes no other lane. -/
def Independent (m : VecMmu) : VecOp → Prop
  | .map addr data perm => ∀ l,
    (m.map addr data perm).1 = ((m.lane l).map addr data perm).1 ∧
      (m.map addr data perm).2.lane l = ((m.lane l).map addr data perm).2
  | .protect addr len perm => ∀ l,
    (m.protect addr len.toNat perm).1 = ((m.lane l).protect addr len.toNat perm).1 ∧
      (m.protect addr len.toNat perm).2.lane l = ((m.lane l).protect addr len.toNat perm).2
  | .loadLane l addr n => ∀ v, m.loadLane l addr n = .ok v ↔ (m.lane l).load addr n = .ok v
  | .storeLane l addr n val =>
    let r := m.storeLane l addr n val
    (r.1 = .ok () ↔ m.Stores l addr n val) ∧
      (r.1 = .ok () → r.2.lane l = ((m.lane l).store addr n val).2) ∧ (r.1 ≠ .ok () → r.2 = m) ∧
      ∀ l' ≠ l, r.2.lane l' = m.lane l'
  | .ifetch16Lane l addr => ∀ v, m.ifetch16Lane l addr = .ok v ↔ (m.lane l).fetchU16 addr = .ok v
  | .loadSame addr n active =>
    ((∃ l, active l = true) →
      ((m.loadSame addr n active).isSome ↔ ∀ l, active l = true → m.Loads l addr n)) ∧
      ∀ vs, m.loadSame addr n active = some vs →
        ∀ l, active l = true → (m.lane l).load addr n = .ok (vs l)
  | .storeSame addr n active vals =>
    let r := m.storeSame addr n active vals
    ((∃ l, active l = true) →
      (r.1 = true ↔ ∀ l, active l = true → m.Stores l addr n (vals l))) ∧
      ∀ l, r.2.lane l =
        if r.1 && active l then ((m.lane l).store addr n (vals l)).2 else m.lane l
  | .ifetch16Same addr active =>
    ((∃ l, active l = true) → ((m.ifetch16Same addr active).isSome ↔
      ∀ l, active l = true → ∃ v, (m.lane l).fetchU16 addr = .ok v)) ∧
      ∀ vs, m.ifetch16Same addr active = some vs →
        ∀ l, active l = true → (m.lane l).fetchU16 addr = .ok ((vs l).setWidth 16)
  | .loadGatherFast addrs n active => ∀ l,
    let r := m.loadGatherFast addrs n active
    (r.2 l = true ↔ active l = true ∧ m.Loads l (addrs l) n) ∧
      (r.2 l = true → (m.lane l).load (addrs l) n = .ok (r.1 l))
  | .storeScatterFast addrs n vals active => ∀ l,
    let r := m.storeScatterFast addrs n vals active
    (r.1 l = true ↔ active l = true ∧ m.Stores l (addrs l) n (vals l)) ∧
      r.2.lane l = if r.1 l then ((m.lane l).store (addrs l) n (vals l)).2 else m.lane l

/-- A gather or scatter reaches no permitted word past the number of words cut to 32 bits. -/
def Addressed (m : VecMmu) : VecOp → Prop
  | .loadGatherFast addrs n active => ∀ l,
    active l = true → m.Loads l (addrs l) n → m.Seen (addrs l)
  | .storeScatterFast addrs n vals active => ∀ l,
    active l = true → m.Stores l (addrs l) n (vals l) → m.Seen (addrs l)
  | _ => True

/-- The store of one lane leaves the others. -/
theorem storeLane_independent (m : VecMmu) (l : Lane) (addr : U32) (n : Width) (val : U32) :
    m.Independent (.storeLane l addr n val) := by
  show (_ ↔ _) ∧ _
  rcases storeLane_cases m l addr n.2 val with ⟨word, off, -, he, hm⟩ | ⟨f, he, hm⟩
  · refine ⟨?_, fun _ => ?_, fun h => ?_, fun l' hl' => ?_⟩
    · rw [he, Stores, hm]
    · rw [he, hm]
    · rw [he] at h
      exact absurd rfl h
    · rw [he]
      exact lane_stored_of_ne m hl' word off n val
  · refine ⟨?_, fun h => ?_, fun _ => ?_, fun l' _ => ?_⟩
    · rw [he]
      exact ⟨nofun, fun h => absurd h hm⟩
    · rw [he] at h
      cases h
    · rw [he]
    · rw [he]

/-- An operation treats the lanes as independent memories exactly when it sees all the words it is
asked for. -/
theorem independent_iff (m : VecMmu) (op : VecOp) : m.Independent op ↔ m.Addressed op := by
  cases op with
  | map addr data perm => exact iff_of_true (fun l => map_lane l data perm m addr) trivial
  | protect addr len perm => exact iff_of_true (fun l => protect_lane l m addr _ perm) trivial
  | loadLane l addr n => exact iff_of_true (fun v => loadLane_eq_ok n.2) trivial
  | storeLane l addr n val => exact iff_of_true (storeLane_independent m l addr n val) trivial
  | ifetch16Lane l addr => exact iff_of_true (fun v => ifetch16Lane_eq_ok) trivial
  | loadSame addr n active =>
    refine iff_of_true ⟨fun ⟨l₀, h₀⟩ => loadSame_isSome n.2 h₀, fun vs hvs l hl => ?_⟩ trivial
    exact loadSame_eq n.2 hvs hl
  | storeSame addr n active vals =>
    exact iff_of_true ⟨fun ⟨l₀, h₀⟩ => storeSame_ok n.2 h₀, storeSame_lane n.2⟩ trivial
  | ifetch16Same addr active =>
    exact iff_of_true ⟨fun ⟨l₀, h₀⟩ => ifetch16Same_isSome h₀, fun vs hvs l hl =>
      ifetch16Same_eq hvs hl⟩ trivial
  | loadGatherFast addrs n active =>
    constructor
    · intro h l ha hv
      exact ((loadGatherFast_ok n.2 l).1 ((h l).1.2 ⟨ha, hv⟩)).2.1
    · intro h l
      refine ⟨(loadGatherFast_ok n.2 l).trans ?_, loadGatherFast_eq n.2⟩
      exact and_congr_right fun ha => ⟨And.right, fun hv => ⟨h l ha hv, hv⟩⟩
  | storeScatterFast addrs n vals active =>
    constructor
    · intro h l ha hv
      exact ((storeScatterFast_ok n.2 l).1 ((h l).1.2 ⟨ha, hv⟩)).2.1
    · intro h l
      refine ⟨(storeScatterFast_ok n.2 l).trans ?_, storeScatterFast_lane n.2 l⟩
      exact and_congr_right fun ha => ⟨And.right, fun hv => ⟨h l ha hv, hv⟩⟩

/-- An operation as a step of a run. -/
def step (m : VecMmu) (op : VecOp) : Unit × VecMmu := ((), m.run op)

/-- In a run, every operation treats the lanes as independent memories exactly when every gather and
scatter sees the words it is asked for. -/
theorem lanes_independent_iff (m : VecMmu) (ops : List VecOp) :
    Along step Independent m ops ↔ Along step Addressed m ops := by
  induction ops generalizing m with
  | nil => exact Iff.rfl
  | cons op ops ih => exact and_congr (independent_iff m op) (ih (m.run op))

/-- A window of fewer than `2 ^ 34` bytes hides no word. -/
theorem addressed_of_small {m : VecMmu} (h : m.numWords < 2 ^ 32) (op : VecOp) : m.Addressed op := by
  have hseen : ∀ {l a}, ((m.lane l).offset a).isSome → m.Seen a := by
    intro l a ho
    obtain ⟨o, ho⟩ := Option.isSome_iff_exists.1 ho
    have := wordOff_eq_some.1 (offset_lane.1 ho)
    rw [Seen, Nat.mod_eq_of_lt h]
    omega
  have hspan : ∀ {l a} {bit : U8} {n o}, (m.lane l).spanHas bit a n = some o → m.Seen a :=
    fun {l} _ _ _ _ hs => @hseen l _ (by rw [(Mmu.spanHas_eq_some.1 hs).1]; rfl)
  cases op with
  | loadGatherFast addrs n active =>
    rintro l - ⟨v, hv⟩
    obtain ⟨-, o, hs, -⟩ := (Mmu.load_eq_ok n.2).1 hv
    exact hspan hs
  | storeScatterFast addrs n vals active =>
    rintro l - hv
    obtain ⟨-, o, hs⟩ := (Mmu.store_eq_ok n.2 _).1 hv
    exact hspan hs
  | _ => trivial

/-- Sixteen gibibytes of window: the cut number of words is zero, and a gather of a permitted byte
marks no lane. -/
theorem lanes_independent_fails_huge :
    ¬∀ base size m, new base size = some m → ∀ ops, Along step Independent m ops := by
  intro h
  have l : Lane := ⟨0, by decide⟩
  let m : VecMmu := ⟨0, 2 ^ 32, fun _ => 0, fun _ => 0, rfl⟩
  have hrun := h 0 (2 ^ 34) m rfl
    [.map 0 [7] PERM_READ, .loadGatherFast (fun _ => 0) ⟨1, .inl rfl⟩ fun _ => true]
  have hseen := (independent_iff (m.run (.map 0 [7] PERM_READ)) _).1 hrun.2.1 l rfl
  have ho : (m.lane l).offset 0 = some 0 :=
    windowOffset_eq_some.2 ⟨rfl, show 0 < 4 * 2 ^ 32 by decide⟩
  have hlane : (m.run (.map 0 [7] PERM_READ)).lane l =
      { m.lane l with
        mem := setAt (m.lane l).mem 0 7
        perms := setAt (m.lane l).perms 0 PERM_READ } := by
    refine (map_lane l [7] PERM_READ m 0).2.trans ?_
    rw [Mmu.map, ho]
    rfl
  have hnone : ¬(m.run (.map 0 [7] PERM_READ)).Seen 0 := by decide
  refine hnone (hseen ⟨_, (Mmu.load_eq_ok (.inl rfl)).2 ⟨rfl, 0, ?_, rfl⟩⟩)
  rw [hlane]
  refine Mmu.spanHas_eq_some.2 ⟨ho, show 0 + 1 ≤ 4 * 2 ^ 32 by decide, fun i hi => ?_⟩
  obtain rfl : i = 0 := by omega
  exact (by decide : PERM_READ &&& PERM_READ ≠ 0)

end VecMmu

end FuzzSoft
