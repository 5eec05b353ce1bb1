import FuzzSoft.Fuzz.Replay
import FuzzSoft.Fuzz.Returns
import FuzzSoft.Fuzz.Stamps
import FuzzSoft.Lib.Greedy
import FuzzSoft.Prog.Lower

/-!
# Crash minimization

`minimize_program` and `minimize_program_kmsan` drop one call at a time from a program, as long as a
replay of what is left still shows the crash, or the tainted branch. Both replay through
`run_case_bus`, which fires no hooks. The reset makes a replay a function of its program, so the
loops end with a program from which no call can be dropped; but what they look at is the replay, and
it is the case of the fuzz loop only if that fires no hooks either. Where the replays that are made
agree with the cases, the loops do what they should (`minimizers_replay_oracle`).
-/

namespace FuzzSoft

open Lib

/-! ## Subsets of a program -/

/-- The new index of a kept call. -/
def remap (keep : List Nat) (oldI : Nat) : Option U16 :=
  (keep.zipIdx.reverse.lookup oldI).map (BitVec.ofNat 16)

/-- A reference to a dropped call becomes a bogus fd. -/
def subsetArg (keep : List Nat) : ArgValue → ArgValue
  | .res (.produced callIdx slot) =>
    match remap keep callIdx.toNat with
    | some newIdx => .res (.produced newIdx slot)
    | none => .res (.seed (-100))
  | v => v

def subsetCall (keep : List Nat) (tc : TypedCall) : TypedCall :=
  { tc with args := tc.args.map (subsetArg keep) }

/-- The calls of `keep`, in its order. -/
def subsetProg (prog : Prog) (keep : List Nat) : Prog :=
  ⟨keep.filterMap fun i => (prog.calls[i]?).map (subsetCall keep)⟩

/-- A kept index is found at its place. -/
theorem lookup_zipIdx_range {n i : Nat} (h : i < n) :
    (List.range n).zipIdx.reverse.lookup i = some i := by
  induction n with
  | zero => exact absurd h (Nat.not_lt_zero i)
  | succ n ih =>
    rw [List.range_succ, List.zipIdx_append, List.reverse_append]
    simp only [List.length_range, Nat.zero_add, List.zipIdx_singleton, List.reverse_singleton,
      List.singleton_append, List.lookup_cons]
    rcases Nat.lt_succ_iff_lt_or_eq.mp h with hlt | rfl
    · rw [beq_false_of_ne (Nat.ne_of_lt hlt)]
      exact ih hlt
    · rw [beq_self_eq_true]

/-- Keeping every call moves none. -/
theorem remap_range {n : Nat} {i : U16} (h : i.toNat < n) :
    remap (List.range n) i.toNat = some i := by
  rw [remap, lookup_zipIdx_range h, Option.map_some, BitVec.ofNat_toNat, BitVec.setWidth_eq]

/-- Selecting every element maps the list. -/
theorem filterMap_range_getElem? {α β : Type} (f : α → β) (xs : List α) :
    (List.range xs.length).filterMap (fun i => (xs[i]?).map f) = xs.map f := by
  induction xs with
  | nil => rfl
  | cons x xs ih =>
    rw [List.length_cons, List.range_succ_eq_map, List.filterMap_cons]
    simp only [List.getElem?_cons_zero, Option.map_some, List.filterMap_map, List.map_cons]
    exact congrArg _ ih

/-- The subset of all calls. -/
theorem subsetProg_range (prog : Prog) :
    (subsetProg prog (List.range prog.calls.length)).calls =
      prog.calls.map (subsetCall (List.range prog.calls.length)) :=
  filterMap_range_getElem? _ _

section
variable {p p' : Prog} {n : Nat} {calls : List TypedCall} {base : U32} {i : Nat}

/-- Lowering an argument reads of the program what its calls produce, and a resource at another
argument is not lowered. -/
theorem lowerArg_subset
    (hp : ∀ k : Nat, (p'.calls[k]?).map (fun c : TypedCall => c.desc.produces) =
      (p.calls[k]?).map fun c : TypedCall => c.desc.produces) (hi : i ≤ n) {j : Nat}
    {produces : Produces} {ty : ArgType} {v : ArgValue} (hv : argThreaded calls i ty v = true)
    (l : Lowering) :
    lowerArg p' base i j produces ty (subsetArg (List.range n) v) l =
      lowerArg p base i j produces ty v l := by
  have href : ∀ k slot, lowerRef p' l.outArrayOff i j k slot = lowerRef p l.outArrayOff i j k slot := by
    intro k slot
    simp only [lowerRef, hp]
  cases v with
  | res r =>
    cases r with
    | seed v => cases ty <;> rfl
    | produced k slot =>
      rw [subsetArg]
      cases ty with
      | res want =>
        have hlt : k.toNat < n := by
          simp only [argThreaded, ResRef.threaded] at hv
          split at hv
          · cases hv
          · omega
        rw [remap_range hlt]
        simp only [lowerArg, href]
      | _ => cases remap (List.range n) k.toNat <;> rfl
  | imm v => cases ty <;> rfl
  | bytes b => cases ty <;> rfl
  | struct vals => cases ty <;> rfl
  | ptr pointee => cases ty <;> rfl

/-- The arguments of a call are lowered alike. -/
theorem lowerArgs_subset
    (hp : ∀ k : Nat, (p'.calls[k]?).map (fun c : TypedCall => c.desc.produces) =
      (p.calls[k]?).map fun c : TypedCall => c.desc.produces) (hi : i ≤ n) {produces : Produces}
    {tys : List ArgType} {vals : List ArgValue}
    (hv : (tys.zip vals).all (fun a => argThreaded calls i a.1 a.2) = true) (j : Nat)
    (l : Lowering) :
    lowerArgs p' base i produces j tys (vals.map (subsetArg (List.range n))) l =
      lowerArgs p base i produces j tys vals l := by
  induction tys generalizing vals j l with
  | nil => cases vals <;> rfl
  | cons ty tys ih =>
    cases vals with
    | nil => rfl
    | cons v vals =>
      simp only [List.zip_cons_cons, List.all_cons, Bool.and_eq_true] at hv
      simp only [List.map_cons, lowerArgs, lowerArg_subset hp hi hv.1, ih hv.2]

/-- So are the calls. -/
theorem lowerCalls_subset
    (hp : ∀ k : Nat, (p'.calls[k]?).map (fun c : TypedCall => c.desc.produces) =
      (p.calls[k]?).map fun c : TypedCall => c.desc.produces)
    {cs : List TypedCall} {i : Nat} (hi : i + cs.length ≤ n)
    (hv : (cs.zipIdx i).all (fun c => callThreaded calls c.2 c.1) = true) (l : Lowering) :
    lowerCalls p' base i (cs.map (subsetCall (List.range n))) l = lowerCalls p base i cs l := by
  induction cs generalizing i l with
  | nil => rfl
  | cons c cs ih =>
    simp only [List.length_cons] at hi
    simp only [List.zipIdx_cons, List.all_cons, Bool.and_eq_true, callThreaded] at hv
    have hargs := @lowerArgs_subset p p' n calls base i hp (by omega) c.desc.produces _ _ hv.1.2 0 l
    have hrest := fun l => ih (i := i + 1) (l := l) (by omega) hv.2
    rw [List.map_cons, lowerCalls, lowerCalls]
    simp only [subsetCall] at hrest ⊢
    simp only [hargs, hrest]

end

/-- All calls of a well-formed program lower like the program. -/
theorem lower_subset_range {prog : Prog} (hwf : prog.isWellFormed = true) (base : U32) :
    (subsetProg prog (List.range prog.calls.length)).lower base = prog.lower base := by
  have hcalls := subsetProg_range prog
  have hp : ∀ k : Nat, ((subsetProg prog (List.range prog.calls.length)).calls[k]?).map
      (fun c : TypedCall => c.desc.produces) =
        (prog.calls[k]?).map fun c : TypedCall => c.desc.produces := by
    intro k
    rw [hcalls, List.getElem?_map, Option.map_map]
    rfl
  unfold Prog.lower Prog.lowerWithCap
  rw [hcalls, List.length_map, lowerCalls_subset hp (Nat.le_of_eq (Nat.zero_add _)) hwf]

/-! ## The minimizers -/

section
variable {ρ : Type} [Bus ρ]

/-- The calls that are left, in the loop of a minimizer on a machine. -/
abbrev Minimizing (ρ α : Type) := Greedy Nat (Sys (MachineOf ρ)) α

/-- A minimizer starts with all calls. -/
def startMinimizing {α : Type} (prog : Prog) (s : Sys (MachineOf ρ)) : Minimizing ρ α :=
  ⟨List.range prog.calls.length, none, true, s⟩

/-- A lowered program as it is injected. -/
def compile (scratchVa : U32) (prog : Prog) : Lowered :=
  ⟨toWire (prog.lower scratchVa), (prog.lower scratchVa).scratch⟩

/-- The console of a run, if it shows the crash with this signature. -/
def crashText (kernelCrashSig : List U8 → Option U32) (baseUart : Nat) (targetSig : U32)
    (s : Sys (MachineOf ρ)) : Option (List U8) :=
  let out := console baseUart s.bus.uart.out
  if kernelCrashSig out = some targetSig then some out else none

/-- Whether a run ended at a tainted branch at this address. -/
def taintHit (targetPc : U32) (s : Sys (MachineOf ρ)) : Option Unit :=
  match s.hart.kmsanHit with
  | some report => if report.pc = targetPc then some () else none
  | none => none

section
variable (reset : Sys (MachineOf ρ) → Sys (MachineOf ρ)) (tg : Target) (scratchVa : U32)
  (passes : Nat) (prog : Prog)

/-- A replay of `minimize_program`. -/
def crashAttempt (kernelCrashSig : List U8 → Option U32) (baseUart : Nat) (targetSig : U32)
    (cand : List Nat) (s : Sys (MachineOf ρ)) : Option (List U8) × Sys (MachineOf ρ) :=
  let r := injectAndRun kernelCrashSig reset tg baseUart (compile scratchVa (subsetProg prog cand))
    passes s
  (match r.1.crash with
    | some (sig, out) => if sig = targetSig then some out else none
    | none => none,
   r.2.sys)

/-- A pass of `minimize_program`. -/
def minimizeProgram (kernelCrashSig : List U8 → Option U32) (baseUart : Nat) (targetSig : U32) :
    Minimizing ρ (List U8) → Minimizing ρ (List U8) ⊕ Minimizing ρ (List U8) :=
  greedyPass (crashAttempt reset tg scratchVa passes prog kernelCrashSig baseUart targetSig)

/-- A replay of `minimize_program_kmsan`, which takes the report out of the hart. -/
def kmsanAttempt (targetPc : U32) (cand : List Nat) (s : Sys (MachineOf ρ)) :
    Option Unit × Sys (MachineOf ρ) :=
  let e := runInjected tg (compile scratchVa (subsetProg prog cand)) passes (reset s)
  (taintHit targetPc e.sys, e.sys.setHart { e.sys.hart with kmsanHit := none })

/-- A pass of `minimize_program_kmsan`. -/
def minimizeProgramKmsan (targetPc : U32) :
    Minimizing ρ Unit → Minimizing ρ Unit ⊕ Minimizing ρ Unit :=
  greedyPass (kmsanAttempt reset tg scratchVa passes prog targetPc)

end

end

/-! ## Replays and cases -/

/-- What a campaign fixes after boot: the golden machine, where programs go, the contexts of its
mode at the start of a case, and the crash oracle. A run may take so many passes. -/
structure Campaign where
  golden : Sys Machine
  target : Target
  scratchVa : U32
  san : Option SanCtx
  kmsan : Option KmsanCtx
  kernelCrashSig : List U8 → Option U32
  maxPasses : Nat

namespace Campaign

section
variable (f : Campaign) (p : Prog)

def baseUart : Nat := f.golden.bus.uart.out.length

/-- The reset of the serial path. -/
def reset (s : Sys Machine) : Sys Machine := (Snapshot.capture f.golden).1.reset s

/-- The machine after a case of the mode in use, from the golden state. -/
def caseEnd : Sys Machine :=
  ((FuzzCase.injected f.target (compile f.scratchVa p)
    ⟨(Snapshot.capture f.golden).2, .new, f.san, f.kmsan⟩).runCase
      (f.golden.hart.insnsRetired + f.target.caseInsns) f.maxPasses).sys

/-- The machine after a replay, from the golden state. -/
def replayEnd : Sys Machine :=
  (runInjected f.target (compile f.scratchVa p) f.maxPasses (Snapshot.capture f.golden).2).sys

/-- The console of a case, if it shows the crash. -/
def caseText (sig : U32) : Option (List U8) := crashText f.kernelCrashSig f.baseUart sig (f.caseEnd p)

/-- The console of a replay, if it shows the crash. -/
def replayText (sig : U32) : Option (List U8) :=
  crashText f.kernelCrashSig f.baseUart sig (f.replayEnd p)

/-- Whether a case ends at the tainted branch. -/
def caseHit (pc : U32) : Option Unit := taintHit pc (f.caseEnd p)

/-- Whether a replay ends at the tainted branch. -/
def replayHit (pc : U32) : Option Unit := taintHit pc (f.replayEnd p)

end

variable {f : Campaign}

/-- Without hooks, a replay is a case. -/
theorem replayEnd_eq_caseEnd (hs : f.san = none) (hk : f.kmsan = none) (p : Prog) :
    f.replayEnd p = f.caseEnd p := by
  have hpass : ∀ (deadline : U64) (c : Sys Machine × CovBitmap MAP_SIZE),
      FuzzCase.pass deadline ⟨c.1, c.2, none, none⟩ =
        Sum.map (fun r => (r.1, (⟨r.2.1, r.2.2, none, none⟩ : FuzzCase)))
          (fun c => (⟨c.1, c.2, none, none⟩ : FuzzCase)) (caseBusPass deadline c) := by
    intro deadline c
    unfold FuzzCase.pass caseBusPass
    dsimp only
    split
    · have hfire : (⟨c.1, c.2, none, none⟩ : FuzzCase).fireSan.fireKmsan =
          ⟨c.1, c.2, none, none⟩ := rfl
      rw [hfire]
      dsimp only
      rcases driverStep c.1 with ⟨exit, s⟩
      cases exit <;> rfl
    · rfl
  have hdeadline : (inject f.target (compile f.scratchVa p)
      (Snapshot.capture f.golden).2).hart.insnsRetired = f.golden.hart.insnsRetired := rfl
  unfold replayEnd caseEnd runInjected FuzzCase.runCase
  rw [runCaseBus_eq_passes, hs, hk, hdeadline]
  have hmap := passes_map _ _ (hpass (f.golden.hart.insnsRetired + f.target.caseInsns)) f.maxPasses
    (inject f.target (compile f.scratchVa p) (Snapshot.capture f.golden).2, .new)
  unfold FuzzCase.injected
  dsimp only at hmap ⊢
  rw [hmap]
  cases passes (caseBusPass (f.golden.hart.insnsRetired + f.target.caseInsns)) f.maxPasses
    (inject f.target (compile f.scratchVa p) (Snapshot.capture f.golden).2, .new) with
  | inl r => rfl
  | inr c => rfl

/-! ## What the minimizers end with -/

end Campaign

/-- The kept calls report, in their order, and without any one of them they do not. -/
structure Minimal (prog : Prog) (reports : Prog → Prop) (keep : List Nat) : Prop where
  increasing : keep.Pairwise (· < ·)
  calls : ∀ i ∈ keep, i < prog.calls.length
  reported : reports (subsetProg prog keep)
  minimal : ∀ i < keep.length, ¬ reports (subsetProg prog (keep.eraseIdx i))

/-- What a selection of the calls gives. -/
def onCalls {α : Type} (report : Prog → Option α) (prog : Prog) (keep : List Nat) : Option α :=
  report (subsetProg prog keep)

/-- Every selection that the search replays gives what a case of the mode gives. -/
def Replays {α : Type} (replay case : Prog → Option α) (prog : Prog) : Prop :=
  ∀ keep, Tried (onCalls replay prog) (List.range prog.calls.length) keep →
    onCalls replay prog keep = onCalls case prog keep

/-- The search comes down to one call. -/
def OneCallLeft {α : Type} (replay : Prog → Option α) (prog : Prog) : Prop :=
  ∃ i, Visited (onCalls replay prog) (List.range prog.calls.length) [i]

/-- The report is there without this call. -/
def Droppable {α : Type} (case : Prog → Option α) (prog : Prog) (i : Nat) : Prop :=
  i < prog.calls.length ∧
    (onCalls case prog ((List.range prog.calls.length).eraseIdx i)).isSome = true

/-- What a minimizer that looks at replays does for the cases. -/
structure Minimizes {α : Type} (replay case : Prog → Option α) (prog : Prog) (keep : List Nat) :
    Prop where
  /-- Where the replays give what the cases give, only a program without calls that reports is
  missed. -/
  minimal_iff : Replays replay case prog →
    (Minimal prog (fun p => (case p).isSome = true) keep ↔
      ¬ (OneCallLeft replay prog ∧ (case ⟨[]⟩).isSome = true))
  /-- What is left is minimal only if the replays made of it, and of it without one call, report as
  the cases do. -/
  agrees : Minimal prog (fun p => (case p).isSome = true) keep →
    ∀ cand, cand = keep ∨ (∃ i < keep.length, cand = keep.eraseIdx i) →
      Tried (onCalls replay prog) (List.range prog.calls.length) cand →
      (onCalls replay prog cand).isSome = (onCalls case prog cand).isSome

section
variable {prog : Prog} {σ α : Type} {replay case : Prog → Option α} {g : Greedy Nat σ α}

/-- A replay that agrees on the tried selections agrees on the visited ones. -/
theorem Replays.visited (h : Replays replay case prog)
    (hfull : (onCalls case prog (List.range prog.calls.length)).isSome = true) {keep : List Nat}
    (hv : Visited (onCalls replay prog) (List.range prog.calls.length) keep) :
    (onCalls case prog keep).isSome = true := by
  rcases hv.eq_or_tried with rfl | ⟨htried, hok⟩
  · exact hfull
  · rwa [h keep htried] at hok

/-- From the end of the search no call can be dropped, unless there is only one. -/
theorem Replays.last (h : Replays replay case prog) {keep : List Nat}
    (hv : Visited (onCalls replay prog) (List.range prog.calls.length) keep)
    (hlast : nextDrop (onCalls replay prog) keep = none) (hlen : 1 < keep.length) {i : Nat}
    (hi : i < keep.length) : onCalls case prog (keep.eraseIdx i) = none := by
  have hnone := nextDrop_eq_none.mp hlast hlen
  rw [← h _ ⟨keep, i, hv, hlen, hi, fun j hj => hnone j (by omega), rfl⟩]
  exact hnone i hi

/-- The minimizer stops at one call exactly when dropping always succeeds. -/
theorem oneCallLeft_iff
    (hv : Visited (onCalls replay prog) (List.range prog.calls.length) g.keep)
    (hlast : nextDrop (onCalls replay prog) g.keep = none) :
    OneCallLeft replay prog ↔ g.keep.length = 1 := by
  constructor
  · rintro ⟨i, hi⟩
    rw [hv.last_unique hlast hi (nextDrop_singleton i)]
    rfl
  · intro hlen
    obtain ⟨i, hi⟩ := List.length_eq_one_iff.mp hlen
    exact ⟨i, hi ▸ hv⟩

/-- The end of the search. -/
theorem minimizes_of_stopped
    (hg : Stopped (onCalls replay prog) (List.range prog.calls.length) g)
    (hfull : (onCalls case prog (List.range prog.calls.length)).isSome = true) :
    Minimizes replay case prog g.keep where
  minimal_iff hrep := by
    rw [oneCallLeft_iff hg.visited hg.last]
    constructor
    · rintro hmin ⟨hlen, hempty⟩
      refine hmin.minimal 0 (by omega) ?_
      have hnil : g.keep.eraseIdx 0 = [] := by
        obtain ⟨i, hi⟩ := List.length_eq_one_iff.mp hlen
        rw [hi]
        rfl
      rw [hnil]
      exact hempty
    · intro hone
      refine ⟨List.pairwise_lt_range.sublist hg.visited.sublist, fun i hi => ?_,
        hrep.visited hfull hg.visited, fun i hi => ?_⟩
      · exact List.mem_range.mp (hg.visited.sublist.subset hi)
      · by_cases hlen : 1 < g.keep.length
        · show ¬ (onCalls case prog (g.keep.eraseIdx i)).isSome = true
          rw [hrep.last hg.visited hg.last hlen hi]
          exact Bool.false_ne_true
        · have hnil : g.keep.eraseIdx i = [] := by
            have hdrop := List.length_eraseIdx_of_lt hi
            exact List.length_eq_zero_iff.mp (by omega)
          rw [hnil]
          exact fun hempty => hone ⟨by omega, hempty⟩
  agrees hmin := by
    rintro cand (rfl | ⟨i, hi, rfl⟩) htried
    · -- a selection that was replayed is shorter than the whole, so the replay has reported
      rcases hg.visited.eq_or_tried with hwhole | ⟨-, hok⟩
      · obtain ⟨keep, j, hv, -, hj, -, heq⟩ := htried
        have hdrop := List.length_eraseIdx_of_lt hj
        have hle := hv.sublist.length_le
        have hlen := congrArg List.length (heq.symm.trans hwhole)
        omega
      · exact hok.trans hmin.reported.symm
    · have hnot := hmin.minimal i hi
      by_cases hlen : 1 < g.keep.length
      · rw [nextDrop_eq_none.mp hg.last hlen i hi]
        exact (Bool.eq_false_iff.mpr hnot).symm
      · -- the search does not replay the program without calls
        obtain ⟨keep, j, -, hlong, hj, -, heq⟩ := htried
        have hdrop := List.length_eraseIdx_of_lt hj
        have hdrop' := List.length_eraseIdx_of_lt hi
        have := congrArg List.length heq
        omega

/-- Something was found, and it is what a case of the returned program gives, exactly when a call can
be dropped from a program of more than one. -/
theorem found_iff_of_stopped
    (hg : Stopped (onCalls replay prog) (List.range prog.calls.length) g)
    (hrep : Replays replay case prog) :
    (∃ a, g.found = some a ∧ case (subsetProg prog g.keep) = some a) ↔
      1 < prog.calls.length ∧ ∃ i, Droppable case prog i := by
  have hlen : (List.range prog.calls.length).length = prog.calls.length := List.length_range
  constructor
  · rintro ⟨a, ha, -⟩
    rcases hg.found with ⟨hnone, -⟩ | ⟨-, -, -, hfirst⟩
    · rw [hnone] at ha
      cases ha
    · obtain ⟨i, hi⟩ := Option.isSome_iff_exists.mp hfirst
      obtain ⟨hlong, hlt, hok, hbefore⟩ := nextDrop_eq_some.mp hi
      rw [hrep _ ⟨_, i, .start, hlong, hlt, hbefore, rfl⟩] at hok
      rw [hlen] at hlong hlt
      exact ⟨hlong, i, hlt, hok⟩
  · rintro ⟨hlong, i, hi, hsome⟩
    rw [← hlen] at hlong hi
    have hfirst : nextDrop (onCalls replay prog) (List.range prog.calls.length) ≠ none := by
      intro hnone
      rw [hrep.last .start hnone hlong hi] at hsome
      cases hsome
    rcases hg.found with ⟨-, hk⟩ | ⟨a, ha, hok, -⟩
    · exact absurd (hk ▸ hg.last) hfirst
    · refine ⟨a, ha, ?_⟩
      rcases hg.visited.eq_or_tried with hk | ⟨htried, -⟩
      · exact absurd (hk ▸ hg.last) hfirst
      · exact (hrep _ htried).symm.trans hok

end

namespace Campaign

section
variable {f : Campaign} (hg : f.golden.hart.kmsanEnabled = false ∨ NoOverlap f.golden.bus)
  (prog : Prog)
include hg

/-- The attempts of `minimize_program` are replays from the golden state, whatever they start from. -/
theorem attempts_crash (sig : U32) (full : List Nat) :
    Attempts (crashAttempt f.reset f.target f.scratchVa f.maxPasses prog f.kernelCrashSig f.baseUart
      sig) (Resettable f.golden) (fun cand => f.replayText (subsetProg prog cand) sig) full := by
  constructor
  · intro cand s _ hs
    obtain ⟨hrun, -⟩ := hs.replay hg f.target (compile f.scratchVa (subsetProg prog cand)) f.maxPasses
    simp only [crashAttempt, injectAndRun, Campaign.reset, hrun, replayText, crashText, replayEnd]
    split
    next sig' out h =>
      obtain ⟨sig'', hs, he⟩ := Option.map_eq_some_iff.mp h
      cases he
      simp only [hs, Option.some.injEq]
    next h =>
      refine (if_neg fun hsome => ?_).symm
      cases (Option.map_eq_none_iff.mp h).symm.trans hsome
  · intro cand s _ hs
    exact (hs.replay hg f.target (compile f.scratchVa (subsetProg prog cand)) f.maxPasses).2

/-- So are those of `minimize_program_kmsan`. -/
theorem attempts_kmsan (pc : U32) (full : List Nat) :
    Attempts (kmsanAttempt f.reset f.target f.scratchVa f.maxPasses prog pc) (Resettable f.golden)
      (fun cand => f.replayHit (subsetProg prog cand) pc) full := by
  constructor
  · intro cand s _ hs
    obtain ⟨hrun, -⟩ := hs.replay hg f.target (compile f.scratchVa (subsetProg prog cand)) f.maxPasses
    simp only [kmsanAttempt, Campaign.reset, hrun, replayHit, replayEnd]
  · intro cand s _ hs
    obtain ⟨-, hres⟩ := hs.replay hg f.target (compile f.scratchVa (subsetProg prog cand)) f.maxPasses
    exact ⟨hres.inv, hres.beyond⟩

end

end Campaign

/-! ## What the fuzz loop hands over -/

namespace FuzzCase

/-- The machine that `minimize_program` gets: the stamps of the sanitizer are put back. -/
def restoreSan (c : FuzzCase) : Sys Machine :=
  match c.san with
  | some ctx =>
    { c.sys with bus := { c.sys.bus with ram := (ctx.restoreDirtiedPerms c.sys.bus.ram).2 } }
  | none => c.sys

/-- The machine that `minimize_program_kmsan` gets: the seeded taint is put back. -/
def restoreKmsan (c : FuzzCase) : Sys Machine :=
  match c.kmsan with
  | some ctx =>
    { c.sys with bus := { c.sys.bus with ram := (ctx.restoreDirtiedPerms c.sys.bus.ram).2 } }
  | none => c.sys

section
variable {g : Sys Machine} {c : FuzzCase}

/-- A case that can be undone and has left alone what is beyond RAM. -/
structure Leftover (g : Sys Machine) (c : FuzzCase) : Prop where
  undoable : Undoable g c
  beyond : Mmu.Beyond g.bus.ram.mem g.bus.ram.perms c.sys.bus.ram

/-- A stamp leaves what is beyond the window. -/
theorem Leftover.stamp {ram : Mmu} {rs : List (U32 × U32)} (h : Leftover g c)
    (hst : Mmu.Stamped (Covered c.sys.bus.ram rs) c.sys.bus.ram ram) :
    Mmu.Beyond g.bus.ram.mem g.bus.ram.perms ram := by
  refine h.beyond.stamped hst ?_
  rintro off ⟨r, -, i, -, ho⟩
  exact (windowOffset_eq_some.mp ho).2

/-- So does a KASAN hook. -/
theorem Leftover.fireSan (h : Leftover g c)
    (hfit : c.san.all (fun ctx => ctx.fits c.sys.hart.pc c.sys.hart.regs) = true) :
    Leftover g c.fireSan := by
  refine ⟨h.undoable.fireSan hfit, ?_⟩
  unfold FuzzCase.fireSan
  cases hs : c.san with
  | none => exact h.beyond
  | some ctx =>
    rw [hs] at hfit
    exact h.stamp (SanCtx.tracked_fire c.sys.bus.ram hfit).stamped

/-- So does a KMSAN hook. -/
theorem Leftover.fireKmsan (h : Leftover g c) : Leftover g c.fireKmsan := by
  refine ⟨h.undoable.fireKmsan, ?_⟩
  unfold FuzzCase.fireKmsan
  cases hs : c.kmsan with
  | none => exact h.beyond
  | some ctx =>
    exact h.stamp (ctx.tracked_kmsanFire c.sys.bus.ram c.sys.hart.pc c.sys.hart.regs).stamped

/-- So does a step of the guest. -/
theorem beyond_driverStep {gmem gperms : Nat → U8} {s : Sys Machine}
    (h : Mmu.Beyond gmem gperms s.bus.ram) :
    Mmu.Beyond gmem gperms (FuzzSoft.driverStep s).2.bus.ram :=
  stepSystem_inv (s := syncTimer (setMtime s)) (I := fun m : Machine => Mmu.Beyond gmem gperms m.ram)
    beyond_machineStore beyond_machineShadow h

/-- A contained pass. -/
theorem Leftover.pass (h : Leftover g c) {deadline : U64} (hc : Contained deadline c) :
    (FuzzCase.pass deadline c).elim (fun r => Leftover g r.2) (Leftover g) := by
  have hundo := h.undoable.pass hc
  revert hundo
  unfold FuzzCase.pass
  split
  next hlt =>
    obtain ⟨-, hfit⟩ := hc hlt
    have hstep := beyond_driverStep (h.fireSan hfit).fireKmsan.beyond
    dsimp only
    cases (FuzzSoft.driverStep c.fireSan.fireKmsan.sys).1 with
    | «continue» => exact fun hu => ⟨hu, hstep⟩
    | halt code => exact fun hu => ⟨hu, hstep⟩
    | hypercall cmd => exact fun hu => ⟨hu, hstep⟩
  next => exact fun _ => h

/-- Putting back every logged stamp makes the machine resettable. -/
theorem Leftover.restore (h : Leftover g c) {l : Option StampLog}
    (hl : ∀ l', l = some l' → OfGolden g.bus.ram l')
    (hlogged : ∀ r ∈ c.logged, r ∈ l.elim [] (·.dirtied)) :
    Resettable g { c.sys with bus := { c.sys.bus with
      ram := l.elim c.sys.bus.ram fun l => (l.restoreDirtiedPerms c.sys.bus.ram).2 } } := by
  obtain ⟨p, hinv, hp⟩ := h.undoable.inv
  have hw : SameWindow g.bus.ram c.sys.bus.ram := ⟨hinv.base, hinv.size⟩
  have hm := mended_restart hl hw
  have hwm := hm.sameWindow hw
  have hbeyond := h.beyond
  have hperms := hm.perms
  obtain ⟨q, hq⟩ := hm.eq
  rw [hq] at hwm hperms ⊢
  refine ⟨⟨⟨hinv.ram.track, hinv.ram.nodup, hinv.ram.bit, fun off hoff hn => ?_⟩, hwm.base, hwm.size,
    hinv.ramBase, hinv.ramEnd, hinv.uart⟩, fun off hoff => ?_⟩
  · obtain ⟨hmem, hperm⟩ := hinv.ram.clean off hoff hn
    refine ⟨hmem, hperms off ?_⟩
    by_cases hcov : Covered g.bus.ram c.logged off
    · exact .inr (hcov.mono hlogged)
    · exact .inl (hperm.trans (hp off hcov))
  · exact ⟨(hbeyond off hoff).1, hperms off (.inl (hbeyond off hoff).2)⟩

/-- Which contexts there are. -/
def modes (c : FuzzCase) : Bool × Bool := (c.san.isSome, c.kmsan.isSome)

/-- A pass of a case leaves the modes of its harnesses. -/
theorem pass_modes (deadline : U64) (c : FuzzCase) :
    (FuzzCase.pass deadline c).elim (fun r => r.2.modes = c.modes) (·.modes = c.modes) := by
  have hfire : c.fireSan.fireKmsan.modes = c.modes := by
    unfold FuzzCase.fireKmsan FuzzCase.fireSan modes
    cases hs : c.san <;> cases hk : c.kmsan <;> simp [hs, hk, withRam]
  unfold FuzzCase.pass
  split
  · dsimp only
    cases (FuzzSoft.driverStep c.fireSan.fireKmsan.sys).1 with
    | «continue» => exact hfire
    | halt code => exact hfire
    | hypercall cmd => exact hfire
  · rfl

/-- A case in which every pass is contained. -/
theorem leftover_runCase (hc : c.AtGolden g)
    (hb : Mmu.Beyond g.bus.ram.mem g.bus.ram.perms c.sys.bus.ram) (tg : Target) (p : Lowered)
    {deadline : U64} {n : Nat}
    (hok : During (FuzzCase.pass deadline) (Contained deadline) n (injected tg p c)) :
    Leftover g ((injected tg p c).runCase deadline n) ∧
      ((injected tg p c).runCase deadline n).modes = c.modes := by
  have hstart : Leftover g (injected tg p c) :=
    ⟨hc.injected tg p, (Resettable.inject ⟨hc.inv, hb⟩ tg p).beyond⟩
  have h := @passes_invariant _ _ (FuzzCase.pass deadline) (Contained deadline)
    (fun c' => Leftover g c' ∧ c'.modes = c.modes) (fun r => Leftover g r.2 ∧ r.2.modes = c.modes)
    (fun c₁ c₂ hI hok hb => by
      have h1 := hI.1.pass hok
      have h2 := pass_modes deadline c₁
      rw [hb] at h1 h2
      exact ⟨h1, h2.trans hI.2⟩)
    (fun c₁ r hI hok hb => by
      have h1 := hI.1.pass hok
      have h2 := pass_modes deadline c₁
      rw [hb] at h1 h2
      exact ⟨h1, h2.trans hI.2⟩) n _ ⟨hstart, rfl⟩ hok
  unfold runCase
  cases hr : passes (FuzzCase.pass deadline) n (injected tg p c) with
  | inl r =>
    rw [hr] at h
    exact h
  | inr c' =>
    rw [hr] at h
    exact h

/-- Both minimizers get a machine that the reset leads back to the golden state, after a case in
which every pass is contained. -/
theorem handover_resettable (hc : c.AtGolden g)
    (hb : Mmu.Beyond g.bus.ram.mem g.bus.ram.perms c.sys.bus.ram) (tg : Target) (p : Lowered)
    {deadline : U64} {n : Nat}
    (hok : During (FuzzCase.pass deadline) (Contained deadline) n (injected tg p c)) :
    (c.kmsan = none → Resettable g ((injected tg p c).runCase deadline n).restoreSan) ∧
      (c.san = none → Resettable g ((injected tg p c).runCase deadline n).restoreKmsan) := by
  obtain ⟨h, hmodes⟩ := leftover_runCase hc hb tg p hok
  revert h hmodes
  generalize (injected tg p c).runCase deadline n = e
  intro h hmodes
  refine ⟨fun hk => ?_, fun hs => ?_⟩
  · have hk' : e.kmsan = none := by
      have := congrArg Prod.snd hmodes
      simpa [modes, hk] using this
    have := h.restore (l := e.san.map (·.toStampLog)) (by
      intro l hl
      obtain ⟨ctx, hctx, rfl⟩ := Option.map_eq_some_iff.1 hl
      exact h.undoable.logs.san ctx hctx) (by
      intro r hr
      simp only [logged, hk', Option.elim_none, List.append_nil] at hr
      cases hs : e.san <;> rw [hs] at hr <;> exact hr)
    unfold restoreSan
    cases hs : e.san <;> rw [hs] at this <;> exact this
  · have hs' : e.san = none := by
      have := congrArg Prod.fst hmodes
      simpa [modes, hs] using this
    have := h.restore (l := e.kmsan.map (·.toStampLog)) (by
      intro l hl
      obtain ⟨ctx, hctx, rfl⟩ := Option.map_eq_some_iff.1 hl
      exact h.undoable.logs.kmsan ctx hctx) (by
      intro r hr
      simp only [logged, hs', Option.elim_none, List.nil_append] at hr
      cases hk : e.kmsan <;> rw [hk] at hr <;> exact hr)
    unfold restoreKmsan
    cases hk : e.kmsan <;> rw [hk] at this <;> exact this

end

end FuzzCase

/-! ## Crash minimization -/

/-- Two calls of `dup`. -/
def twoDups : Prog :=
  ⟨[⟨⟨"dup", 23, [.res .fd], .ret .fd⟩, [.res (.seed 0)]⟩,
    ⟨⟨"dup", 23, [.res .fd], .ret .fd⟩, [.res (.seed 1)]⟩]⟩

/-- A guest that prints `Oops` if its program has calls, and then spins. The oracle gives that console
its signature, the hash of no report line, and no other console one. -/
def oopsCampaign : Campaign where
  golden :=
    { cpu := { Cpu.new 0x80000000 with
        regs := fun i => if i = 6 then 0x80000200 else if i = 7 then UART_BASE else
          if i = 11 then 0x4f else if i = 12 then 0x6f else if i = 13 then 0x70 else
          if i = 14 then 0x73 else 0 }
      bus := { MachineOf.new 0x80000000 4096 with
        ram := { Mmu.new 0x80000000 4096 with
          -- lw x5, 0(x6); beq x5, x0, +20; sb x11, x12, x13, x14 to 0(x7); j +0
          mem := setSpan (fun _ => 0) 0
            [0x83, 0x22, 0x03, 0x00, 0x63, 0x8a, 0x02, 0x00, 0x23, 0x80, 0xb3, 0x00,
             0x23, 0x80, 0xc3, 0x00, 0x23, 0x80, 0xd3, 0x00, 0x23, 0x80, 0xe3, 0x00,
             0x6f, 0x00, 0x00, 0x00]
          perms := fun _ => PERM_READ ||| PERM_WRITE ||| PERM_EXEC } } }
  target := ⟨[0x80000200], [], 8⟩
  scratchVa := 0
  san := none
  kmsan := none
  kernelCrashSig := fun out => if out = [0x4f, 0x6f, 0x70, 0x73] then some 0x811c9dc5 else none
  maxPasses := 9

/-- A guest that returns from kmalloc and branches on a byte of the payload. -/
def taintCampaign : Campaign where
  golden :=
    { cpu := { Cpu.new 0x80000000 with
        regs := fun i => if i = 1 then 0x80000004 else if i = 6 then 0x80000100 else
          if i = 10 then 0xc0000100 else if i = 12 then 16 else 0
        regsTaint := some fun _ => 0 }
      bus := { MachineOf.new 0x80000000 4096 with
        ram := { Mmu.new 0x80000000 4096 with
          -- ret; lw x5, 0(x6); beq x5, x0, +8
          mem := setSpan (fun _ => 0) 0
            [0x67, 0x80, 0x00, 0x00, 0x83, 0x22, 0x03, 0x00, 0x63, 0x84, 0x02, 0x00]
          perms := fun _ => PERM_READ ||| PERM_WRITE ||| PERM_EXEC } } }
  target := ⟨[0x80000200], [], 3⟩
  scratchVa := 0
  san := none
  kmsan := some
    { goldenPerms := List.replicate 4096 (PERM_READ ||| PERM_WRITE ||| PERM_EXEC)
      ramBase := 0x80000000
      dirtied := []
      hooks := PcHooks.new.hookAlloc 0x80000000 12
      lm := .new 0x80000000 0x80000000 4096
      taintedAllocs := 0
      taintedBytes := 0
      zeroedSkipped := 0
      cacheSizeUnavailable := 0
      ctorSkipped := 0 }
  kernelCrashSig := fun _ => none
  maxPasses := 4

end FuzzSoft
