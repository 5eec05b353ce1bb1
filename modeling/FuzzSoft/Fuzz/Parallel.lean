import Mathlib
import FuzzSoft.Cov.Bitmap
import FuzzSoft.Lib.Run
import FuzzSoft.Lib.Shares
import FuzzSoft.Platform.Machine

/-!
# The parallel fuzzing loop

The workers of `run_parallel`. Each takes an initial snapshot of the shared maps, then claims case
indices from one counter, runs each case on its own machine, folds the result into local
accumulators and takes the lock only when its local map calls the run new, when the case crashed or
when a sync is due; at the end it flushes what is left. What happens under the mutex is one step,
and so is every unlocked part between two accesses to shared data, so a schedule is a list of
workers. What a case does is arbitrary: the schedule carries the outcome of each case.
-/

namespace FuzzSoft

open Lib

def HC_DONE : U32 := 1
def SYNC_INTERVAL : Nat := 64

/-- What the loop keeps of a case that was run. -/
structure CaseRun (n : Nat) (P : Type) where
  prog : P
  runMap : CovBitmap n
  used : U64
  stop : Stop
  crash : Option U32

/-- The counters that workers accumulate locally and flush under the lock. -/
@[ext]
structure Stats where
  totalCaseInsns : U64
  done : Nat
  budgetHit : Nat
  finished : Nat

namespace Stats

instance : Zero Stats := ⟨⟨0, 0, 0, 0⟩⟩

instance : Add Stats := ⟨fun a b =>
  ⟨a.totalCaseInsns + b.totalCaseInsns, a.done + b.done, a.budgetHit + b.budgetHit,
    a.finished + b.finished⟩⟩

instance : AddCommMonoid Stats where
  add_assoc a b c := Stats.ext (add_assoc _ _ _) (add_assoc _ _ _) (add_assoc _ _ _)
    (add_assoc _ _ _)
  zero_add a := Stats.ext (zero_add _) (zero_add _) (zero_add _) (zero_add _)
  add_zero a := Stats.ext (add_zero _) (add_zero _) (add_zero _) (add_zero _)
  add_comm a b := Stats.ext (add_comm _ _) (add_comm _ _) (add_comm _ _) (add_comm _ _)
  nsmul := nsmulRec

end Stats

section
variable {n : Nat} {P : Type}

/-- What one case adds to the counters. -/
def CaseRun.stats (r : CaseRun n P) : Stats where
  totalCaseInsns := r.used
  done := if r.stop = .hypercall HC_DONE then 1 else 0
  budgetHit := if r.stop = .budget then 1 else 0
  finished := 1

/-- The data behind the mutex. -/
structure Shared (n : Nat) (P : Type) where
  virgin : VirginMap n
  corpus : List P
  crashSigs : Finset U32
  crashes : Nat
  stats : Stats

/-- Where a worker stands. -/
inductive Phase (n : Nat) (P : Type) where
  /-- Before the initial snapshot. -/
  | start
  /-- At the top of the loop. -/
  | top
  /-- A case was claimed and is being run. -/
  | claimed (case : Nat)
  /-- The case was folded in locally and the worker is about to take the lock. -/
  | locking (r : CaseRun n P) (locallyNew : Bool)
  /-- Out of cases, before the final flush. -/
  | exiting
  | finished

structure Worker (n : Nat) (P : Type) where
  phase : Phase n P
  localVirgin : VirginMap n
  localCorpus : List P
  localStats : Stats
  casesSinceSync : Nat

def Worker.init : Worker n P := ⟨.start, .new, [], 0, 0⟩

/-- Fold a run into the local accumulators and decide whether to take the lock. -/
def Worker.runCase (w : Worker n P) (r : CaseRun n P) : Worker n P :=
  let locallyNew := w.localVirgin.hasNewBits r.runMap
  let dueForSync : Bool := SYNC_INTERVAL ≤ w.casesSinceSync + 1
  { w with
    localVirgin := locallyNew.2
    localStats := w.localStats + r.stats
    casesSinceSync := w.casesSinceSync + 1
    phase := if !locallyNew.1 && !r.crash.isSome && !dueForSync then .top
      else .locking r locallyNew.1 }

/-- The authoritative coverage merge. -/
def Shared.mergeCov (sh : Shared n P) (r : CaseRun n P) : Shared n P :=
  let new := sh.virgin.hasNewBits r.runMap
  { sh with virgin := new.2, corpus := if new.1 then sh.corpus ++ [r.prog] else sh.corpus }

/-- Count a crash and its signature. -/
def Shared.addCrash (sh : Shared n P) : Option U32 → Shared n P
  | some sig => { sh with crashes := sh.crashes + 1, crashSigs := insert sig sh.crashSigs }
  | none => sh

/-- Flush the local counters. -/
def Shared.flush (sh : Shared n P) (s : Stats) : Shared n P := { sh with stats := sh.stats + s }

/-- The section under the lock: flush, merge, count a crash. -/
def Shared.fold (sh : Shared n P) (s : Stats) (r : CaseRun n P) (locallyNew : Bool) : Shared n P :=
  let sh := sh.flush s
  (if locallyNew then sh.mergeCov r else sh).addCrash r.crash

/-- Refresh the local snapshots, still under the lock. -/
def Worker.refresh (w : Worker n P) (sh : Shared n P) : Worker n P where
  phase := .top
  localVirgin := sh.virgin
  localCorpus :=
    if w.localCorpus.length < sh.corpus.length then
      w.localCorpus ++ sh.corpus.drop w.localCorpus.length
    else w.localCorpus
  localStats := 0
  casesSinceSync := 0

/-- The shared data, the claim counter and the workers. -/
structure Fuzzer (n : Nat) (P : Type) (jobs : Nat) where
  shared : Shared n P
  counter : Nat
  workers : Fin jobs → Worker n P

namespace Fuzzer

variable {jobs : Nat}

def init (seedVirgin : VirginMap n) (seedCorpus : List P) : Fuzzer n P jobs where
  shared := ⟨seedVirgin, seedCorpus, ∅, 0, 0⟩
  counter := 0
  workers := fun _ => .init

def setWorker (f : Fuzzer n P jobs) (tid : Fin jobs) (w : Worker n P) : Fuzzer n P jobs :=
  { f with workers := Function.update f.workers tid w }

/-- One step of worker `i.1`; if it runs a case, the case goes as `i.2` says, and is reported. -/
def step (cases : Nat) (f : Fuzzer n P jobs) (i : Fin jobs × CaseRun n P) :
    Option (Nat × CaseRun n P) × Fuzzer n P jobs :=
  let w := f.workers i.1
  match w.phase with
  | .start =>
    (none, f.setWorker i.1
      { w with phase := .top, localVirgin := f.shared.virgin, localCorpus := f.shared.corpus })
  | .top =>
    let phase := if f.counter < cases then .claimed f.counter else .exiting
    (none, { f.setWorker i.1 { w with phase := phase } with counter := f.counter + 1 })
  | .claimed case => (some (case, i.2), f.setWorker i.1 (w.runCase i.2))
  | .locking r locallyNew =>
    let sh := f.shared.fold w.localStats r locallyNew
    (none, { f.setWorker i.1 (w.refresh sh) with shared := sh })
  | .exiting =>
    (none, { f.setWorker i.1 { w with phase := .finished } with
      shared := f.shared.flush w.localStats })
  | .finished => (none, f)

end Fuzzer

/-! ## What a worker still holds back -/

namespace Worker

/-- Counters not yet flushed. -/
def held (w : Worker n P) : Stats :=
  match w.phase with
  | .finished => 0
  | _ => w.localStats

/-- Coverage that the worker is about to merge. -/
def pendingCov (w : Worker n P) : VirginMap n :=
  match w.phase with
  | .locking r true => r.runMap.classes
  | _ => ⊥

/-- Crashes that the worker is about to count. -/
def pendingCrashes (w : Worker n P) : Nat :=
  match w.phase with
  | .locking r _ => if r.crash.isSome then 1 else 0
  | _ => 0

def pendingSigs (w : Worker n P) : Finset U32 :=
  match w.phase with
  | .locking r _ => r.crash.toFinset
  | _ => ∅

/-- The case that the worker has claimed and not run yet. -/
def claimedCases (w : Worker n P) : Multiset Nat :=
  match w.phase with
  | .claimed case => {case}
  | _ => 0

end Worker

/-! ## What was executed -/

/-- The seed map with the classes of every executed case. -/
def coverage (seed : VirginMap n) (log : List (Nat × CaseRun n P)) : VirginMap n :=
  log.foldl (fun v e => v ⊔ e.2.runMap.classes) seed

/-- The signatures seen. -/
def signatures (log : List (Nat × CaseRun n P)) : Finset U32 :=
  log.foldl (fun sigs e => sigs ∪ e.2.crash.toFinset) ∅

/-- The sums of the counters. -/
def totals (log : List (Nat × CaseRun n P)) : Stats := (log.map (·.2.stats)).sum

/-- The cases that crashed. -/
def crashCount (log : List (Nat × CaseRun n P)) : Nat := log.countP (·.2.crash.isSome)

/-- The indices of the executed cases. -/
def indices (log : List (Nat × CaseRun n P)) : Multiset Nat := log.map Prod.fst

/-! ## The invariant -/

section
variable {jobs : Nat}

/-- What holds between the shared data, what the workers hold back, and what was executed: nothing
is lost and nothing is counted twice, local snapshots lag the shared ones, and a worker gives up
only when every case was claimed. -/
structure Fuzzer.Inv (cases : Nat) (seed : VirginMap n) (f : Fuzzer n P jobs)
    (log : List (Nat × CaseRun n P)) : Prop where
  stats : f.shared.stats + ∑ i, (f.workers i).held = totals log
  crashes : f.shared.crashes + ∑ i, (f.workers i).pendingCrashes = crashCount log
  sigs : f.shared.crashSigs ⊔ Finset.univ.sup (fun i => (f.workers i).pendingSigs) = signatures log
  cov : f.shared.virgin ⊔ Finset.univ.sup (fun i => (f.workers i).pendingCov) = coverage seed log
  claims : indices log + ∑ i, (f.workers i).claimedCases = Multiset.range (min f.counter cases)
  virgin : ∀ i, (f.workers i).localVirgin ≤ f.shared.virgin ⊔ (f.workers i).pendingCov
  corpus : ∀ i, (f.workers i).localCorpus <+: f.shared.corpus
  exited : ∀ i, (f.workers i).phase = .exiting ∨ (f.workers i).phase = .finished →
    cases ≤ f.counter

/-- The invariant holds at the start. -/
theorem Fuzzer.inv_init (cases : Nat) (seed : VirginMap n) (corpus : List P) :
    Inv cases seed (init seed corpus : Fuzzer n P jobs) [] where
  stats := by simp [init, Worker.init, Worker.held, totals]
  crashes := by simp [init, Worker.init, Worker.pendingCrashes, crashCount]
  sigs := by simp [init, Worker.init, Worker.pendingSigs, signatures]
  cov := by simp [init, Worker.init, Worker.pendingCov, coverage]
  claims := by simp [init, Worker.init, Worker.claimedCases, indices]
  virgin i := by simp [init, Worker.init, VirginMap.new, Pi.le_def]
  corpus i := by simp [init, Worker.init]
  exited i h := by simp [init, Worker.init] at h

/-! ### One step -/

/-- One more case in the totals. -/
theorem totals_snoc (log : List (Nat × CaseRun n P)) (e : Nat × CaseRun n P) :
    totals (log ++ [e]) = totals log + e.2.stats := by
  simp [totals]

/-- One more case in the number of crashes. -/
theorem crashCount_snoc (log : List (Nat × CaseRun n P)) (e : Nat × CaseRun n P) :
    crashCount (log ++ [e]) = crashCount log + if e.2.crash.isSome then 1 else 0 := by
  simp [crashCount, List.countP_singleton]

/-- One more case in the signatures. -/
theorem signatures_snoc (log : List (Nat × CaseRun n P)) (e : Nat × CaseRun n P) :
    signatures (log ++ [e]) = signatures log ⊔ e.2.crash.toFinset := by
  simp [signatures]

/-- One more case in the coverage. -/
theorem coverage_snoc (seed : VirginMap n) (log : List (Nat × CaseRun n P)) (e : Nat × CaseRun n P) :
    coverage seed (log ++ [e]) = coverage seed log ⊔ e.2.runMap.classes := by
  simp [coverage]

/-- One more case in the indices. -/
theorem indices_snoc (log : List (Nat × CaseRun n P)) (e : Nat × CaseRun n P) :
    indices (log ++ [e]) = indices log + {e.1} := by
  simp [indices, ← Multiset.coe_add]

namespace Fuzzer

variable {cases : Nat} {seed : VirginMap n} {f : Fuzzer n P jobs} {log log' : List (Nat × CaseRun n P)}
  {tid : Fin jobs} {r : CaseRun n P} {sh : Shared n P} {k : Nat} {x : Worker n P}

/-- A step of one worker: each quantity balances against the unchanged rest, the shared data only
grows, and the worker's own snapshots lag it. -/
theorem Inv.replace (h : Inv cases seed f log)
    (stats : ∀ rest, f.shared.stats + ((f.workers tid).held + rest) = totals log →
      sh.stats + (x.held + rest) = totals log')
    (crashes : ∀ rest, f.shared.crashes + ((f.workers tid).pendingCrashes + rest) = crashCount log →
      sh.crashes + (x.pendingCrashes + rest) = crashCount log')
    (sigs : ∀ rest, f.shared.crashSigs ⊔ ((f.workers tid).pendingSigs ⊔ rest) = signatures log →
      sh.crashSigs ⊔ (x.pendingSigs ⊔ rest) = signatures log')
    (cov : ∀ rest, f.shared.virgin ⊔ ((f.workers tid).pendingCov ⊔ rest) = coverage seed log →
      sh.virgin ⊔ (x.pendingCov ⊔ rest) = coverage seed log')
    (claims : ∀ rest, indices log + ((f.workers tid).claimedCases + rest) =
        Multiset.range (min f.counter cases) →
      indices log' + (x.claimedCases + rest) = Multiset.range (min k cases))
    (hmono : f.shared.virgin ≤ sh.virgin) (hgrow : f.shared.corpus <+: sh.corpus)
    (hcount : f.counter ≤ k) (virgin : x.localVirgin ≤ sh.virgin ⊔ x.pendingCov)
    (corpus : x.localCorpus <+: sh.corpus)
    (exited : x.phase = .exiting ∨ x.phase = .finished → cases ≤ k) :
    Inv cases seed ⟨sh, k, Function.update f.workers tid x⟩ log' := by
  obtain ⟨_, e1, e1'⟩ := exists_rest_sum Worker.held f.workers tid
  obtain ⟨_, e2, e2'⟩ := exists_rest_sum Worker.pendingCrashes f.workers tid
  obtain ⟨_, e3, e3'⟩ := exists_rest_sup Worker.pendingSigs f.workers tid
  obtain ⟨_, e4, e4'⟩ := exists_rest_sup Worker.pendingCov f.workers tid
  obtain ⟨_, e5, e5'⟩ := exists_rest_sum Worker.claimedCases f.workers tid
  refine ⟨?_, ?_, ?_, ?_, ?_, ?_, ?_, ?_⟩
  · rw [e1']
    exact stats _ (e1 ▸ h.stats)
  · rw [e2']
    exact crashes _ (e2 ▸ h.crashes)
  · rw [e3']
    exact sigs _ (e3 ▸ h.sigs)
  · rw [e4']
    exact cov _ (e4 ▸ h.cov)
  · rw [e5']
    exact claims _ (e5 ▸ h.claims)
  · exact forall_update (Q := fun w : Worker n P => w.localVirgin ≤ sh.virgin ⊔ w.pendingCov) virgin
      fun i => (h.virgin i).trans (sup_le_sup_right hmono _)
  · exact forall_update (Q := fun w : Worker n P => w.localCorpus <+: sh.corpus) corpus
      fun i => (h.corpus i).trans hgrow
  · exact forall_update
      (Q := fun w : Worker n P => w.phase = .exiting ∨ w.phase = .finished → cases ≤ k) exited
      fun i hi => (h.exited i hi).trans hcount

/-- A worker that starts keeps the invariant. -/
theorem Inv.start (h : Inv cases seed f log) (hp : (f.workers tid).phase = .start) :
    Inv cases seed (step cases f (tid, r)).2 log := by
  simp only [step, hp, setWorker]
  refine h.replace (fun _ e => ?_) (fun _ e => ?_) (fun _ e => ?_) (fun _ e => ?_)
    (fun _ e => ?_) le_rfl (List.prefix_refl _) le_rfl le_sup_left (List.prefix_refl _) nofun
  · simpa only [Worker.held, hp] using e
  · simpa only [Worker.pendingCrashes, hp] using e
  · simpa only [Worker.pendingSigs, hp] using e
  · simpa only [Worker.pendingCov, hp] using e
  · simpa only [Worker.claimedCases, hp] using e

/-- So does one that takes an index. -/
theorem Inv.top (h : Inv cases seed f log) (hp : (f.workers tid).phase = .top) :
    Inv cases seed (step cases f (tid, r)).2 log := by
  have hv := h.virgin tid
  simp only [Worker.pendingCov, hp] at hv
  simp only [step, hp, setWorker]
  by_cases hc : f.counter < cases
  · simp only [hc, if_true]
    refine h.replace (fun _ e => ?_) (fun _ e => ?_) (fun _ e => ?_) (fun _ e => ?_)
      (fun _ e => ?_) le_rfl (List.prefix_refl _) (Nat.le_succ _) hv (h.corpus tid) nofun
    · simpa only [Worker.held, hp] using e
    · simpa only [Worker.pendingCrashes, hp] using e
    · simpa only [Worker.pendingSigs, hp] using e
    · simpa only [Worker.pendingCov, hp] using e
    · simp only [Worker.claimedCases, hp, zero_add, Nat.min_eq_left (Nat.le_of_lt hc)] at e
      simp only [Worker.claimedCases, Nat.min_eq_left (Nat.succ_le_of_lt hc), Multiset.range_succ,
        ← e, ← Multiset.singleton_add]
      exact add_left_comm _ _ _
  · have hmin : min (f.counter + 1) cases = min f.counter cases := by omega
    simp only [hc, if_false]
    refine h.replace (fun _ e => ?_) (fun _ e => ?_) (fun _ e => ?_) (fun _ e => ?_)
      (fun _ e => ?_) le_rfl (List.prefix_refl _) (Nat.le_succ _) hv (h.corpus tid)
      fun _ => show cases ≤ f.counter + 1 by omega
    · simpa only [Worker.held, hp] using e
    · simpa only [Worker.pendingCrashes, hp] using e
    · simpa only [Worker.pendingSigs, hp] using e
    · simpa only [Worker.pendingCov, hp] using e
    · rw [hmin]
      simpa only [Worker.claimedCases, hp] using e

/-- The two ways on from a case: back to the top, with nothing new and no crash, or to the lock. -/
theorem runCase_phase (w : Worker n P) (r : CaseRun n P) :
    ((w.localVirgin.hasNewBits r.runMap).1 = false ∧ r.crash = none ∧
        (w.runCase r).phase = .top) ∨
      (w.runCase r).phase = .locking r (w.localVirgin.hasNewBits r.runMap).1 := by
  unfold Worker.runCase
  dsimp only
  split
  next hc =>
    simp only [Bool.and_eq_true, Bool.not_eq_true', Option.isSome_eq_false_iff,
      Option.isNone_iff_eq_none] at hc
    exact .inl ⟨hc.1.1, hc.1.2, rfl⟩
  next => exact .inr rfl

/-- Running a case: the claim becomes an entry of the log, and what the worker does not carry to the
lock is already below the shared map. -/
theorem Inv.claimed (h : Inv cases seed f log) {case : Nat}
    (hp : (f.workers tid).phase = .claimed case) :
    Inv cases seed (step cases f (tid, r)).2 (log ++ [(case, r)]) := by
  have hv := h.virgin tid
  simp only [Worker.pendingCov, hp, sup_bot_eq] at hv
  have hold : ((f.workers tid).localVirgin.hasNewBits r.runMap).1 = false →
      r.runMap.classes ≤ f.shared.virgin := fun hn => (VirginMap.hasNewBits_old hn).trans hv
  have hlocal : ((f.workers tid).runCase r).localVirgin =
      (f.workers tid).localVirgin ⊔ r.runMap.classes := VirginMap.hasNewBits_map _ _
  -- a run that is below the shared map adds nothing to the coverage
  have hcov : r.runMap.classes ≤ f.shared.virgin → ∀ {rest},
      f.shared.virgin ⊔ (⊥ ⊔ rest) = coverage seed log →
      f.shared.virgin ⊔ (⊥ ⊔ rest) = coverage seed (log ++ [(case, r)]) := fun hle rest e => by
    rw [coverage_snoc, ← e]
    exact (sup_eq_left.2 (hle.trans le_sup_left)).symm
  have hstats : ∀ rest, f.shared.stats + ((f.workers tid).localStats + rest) = totals log →
      f.shared.stats + ((f.workers tid).localStats + r.stats + rest) =
        totals (log ++ [(case, r)]) := fun rest e => by
    rw [totals_snoc, ← e]
    abel
  have hclaims : ∀ rest, indices log + ({case} + rest) = Multiset.range (min f.counter cases) →
      indices (log ++ [(case, r)]) + (0 + rest) = Multiset.range (min f.counter cases) :=
    fun rest e => by
      rw [indices_snoc, ← e]
      abel
  simp only [step, hp, setWorker]
  rcases runCase_phase (f.workers tid) r with ⟨hn, hcr, hph⟩ | hph
  · refine h.replace (fun rest e => ?_) (fun rest e => ?_) (fun rest e => ?_) (fun rest e => ?_)
      (fun rest e => ?_) le_rfl (List.prefix_refl _) le_rfl ?_ (h.corpus tid) ?_
    · simp only [Worker.held, hp, hph] at e ⊢
      exact hstats rest e
    · simp only [Worker.pendingCrashes, hp, hph] at e ⊢
      rw [crashCount_snoc, ← e, hcr]
      rfl
    · simp only [Worker.pendingSigs, hp, hph] at e ⊢
      rw [signatures_snoc, ← e, hcr]
      exact (sup_bot_eq _).symm
    · simp only [Worker.pendingCov, hp, hph] at e ⊢
      exact hcov (hold hn) e
    · simp only [Worker.claimedCases, hp, hph] at e ⊢
      exact hclaims rest e
    · rw [hlocal]
      exact le_sup_of_le_left (sup_le hv (hold hn))
    · simp [hph]
  · refine h.replace (fun rest e => ?_) (fun rest e => ?_) (fun rest e => ?_) (fun rest e => ?_)
      (fun rest e => ?_) le_rfl (List.prefix_refl _) le_rfl ?_ (h.corpus tid) ?_
    · simp only [Worker.held, hp, hph] at e ⊢
      exact hstats rest e
    · simp only [Worker.pendingCrashes, hp, hph] at e ⊢
      rw [crashCount_snoc, ← e]
      abel
    · simp only [Worker.pendingSigs, hp, hph] at e ⊢
      rw [signatures_snoc, ← e, show (∅ : Finset U32) ⊔ rest = rest from bot_sup_eq rest, sup_assoc,
        sup_comm rest]
    · simp only [Worker.pendingCov, hp, hph] at e ⊢
      cases hn : ((f.workers tid).localVirgin.hasNewBits r.runMap).1 with
      | false => exact hcov (hold hn) e
      | true =>
        rw [coverage_snoc, ← e, bot_sup_eq]
        dsimp only
        rw [sup_comm r.runMap.classes, sup_assoc]
    · simp only [Worker.claimedCases, hp, hph] at e ⊢
      exact hclaims rest e
    · rw [hlocal]
      simp only [Worker.pendingCov, hph]
      cases hn : ((f.workers tid).localVirgin.hasNewBits r.runMap).1 with
      | false => exact le_sup_of_le_left (sup_le hv (hold hn))
      | true => exact sup_le_sup_right hv _
    · simp [hph]

@[simp] theorem addCrash_virgin (sh : Shared n P) (c : Option U32) :
    (sh.addCrash c).virgin = sh.virgin := by
  cases c <;> rfl

@[simp] theorem addCrash_corpus (sh : Shared n P) (c : Option U32) :
    (sh.addCrash c).corpus = sh.corpus := by
  cases c <;> rfl

@[simp] theorem addCrash_stats (sh : Shared n P) (c : Option U32) :
    (sh.addCrash c).stats = sh.stats := by
  cases c <;> rfl

/-- A fold adds the classes of a map with new bits. -/
theorem fold_virgin (sh : Shared n P) (s : Stats) (r : CaseRun n P) (new : Bool) :
    (sh.fold s r new).virgin = sh.virgin ⊔ if new then r.runMap.classes else ⊥ := by
  cases new with
  | false => simp [Shared.fold, Shared.flush]
  | true =>
    simp only [Shared.fold, if_true, addCrash_virgin]
    exact VirginMap.hasNewBits_map _ _

/-- The corpus grows only by a program whose run advanced the shared map. -/
theorem fold_corpus (sh : Shared n P) (s : Stats) (r : CaseRun n P) (new : Bool) :
    (sh.fold s r new).corpus = sh.corpus ∨
      ((sh.fold s r new).corpus = sh.corpus ++ [r.prog] ∧
        ∃ i, sh.virgin i < (sh.fold s r new).virgin i) := by
  cases new with
  | false => exact .inl (by simp [Shared.fold, Shared.flush])
  | true =>
    rw [fold_virgin]
    simp only [Shared.fold, if_true, addCrash_corpus]
    by_cases hn : (sh.virgin.hasNewBits r.runMap).1 = true
    · obtain ⟨i, hi⟩ := (VirginMap.hasNewBits_new _ _).1 hn
      have hle : r.runMap.classes i ≤ (sh.virgin ⊔ r.runMap.classes) i := le_sup_right
      exact .inr ⟨if_pos hn, i, lt_of_lt_of_le hi hle⟩
    · exact .inl (if_neg hn)

/-- A fold only appends to the corpus. -/
theorem fold_prefix (sh : Shared n P) (s : Stats) (r : CaseRun n P) (new : Bool) :
    sh.corpus <+: (sh.fold s r new).corpus := by
  rcases fold_corpus sh s r new with h | ⟨h, -⟩
  · rw [h]
  · exact ⟨[r.prog], h.symm⟩

/-- A fold adds the worker's counts. -/
theorem fold_stats (sh : Shared n P) (s : Stats) (r : CaseRun n P) (new : Bool) :
    (sh.fold s r new).stats = sh.stats + s := by
  cases new <;> simp [Shared.fold, Shared.flush, Shared.mergeCov]

/-- A fold adds a crash with its signature. -/
theorem fold_crashes (sh : Shared n P) (s : Stats) (r : CaseRun n P) (new : Bool) :
    (sh.fold s r new).crashes = sh.crashes + (if r.crash.isSome then 1 else 0) ∧
      (sh.fold s r new).crashSigs = sh.crashSigs ⊔ r.crash.toFinset := by
  unfold Shared.fold
  cases r.crash with
  | none => cases new <;> simp [Shared.addCrash, Shared.flush, Shared.mergeCov]
  | some sig =>
    have hins : insert sig sh.crashSigs = sh.crashSigs ∪ {sig} := by
      rw [Finset.insert_eq, Finset.union_comm]
    cases new with
    | false => exact ⟨rfl, hins⟩
    | true => exact ⟨rfl, hins⟩

/-- The section under the lock hands over all the worker held back. -/
theorem Inv.locking (h : Inv cases seed f log) {r' : CaseRun n P} {new : Bool}
    (hp : (f.workers tid).phase = .locking r' new) :
    Inv cases seed (step cases f (tid, r)).2 log := by
  obtain ⟨hcrash, hsigs⟩ := fold_crashes f.shared (f.workers tid).localStats r' new
  have hgrow := fold_prefix f.shared (f.workers tid).localStats r' new
  have hvirgin := fold_virgin f.shared (f.workers tid).localStats r' new
  simp only [step, hp, setWorker]
  refine h.replace (fun rest e => ?_) (fun rest e => ?_) (fun rest e => ?_) (fun rest e => ?_)
    (fun rest e => ?_) ?_ hgrow le_rfl le_sup_left ?_ nofun
  · simp only [Worker.held, hp, Worker.refresh] at e ⊢
    rw [fold_stats, ← e]
    abel
  · simp only [Worker.pendingCrashes, hp, Worker.refresh] at e ⊢
    rw [hcrash, ← e]
    abel
  · simp only [Worker.pendingSigs, hp, Worker.refresh] at e ⊢
    rw [hsigs, ← e, sup_assoc, show (∅ : Finset U32) ⊔ rest = rest from bot_sup_eq rest]
  · simp only [Worker.pendingCov, hp, Worker.refresh] at e ⊢
    rw [hvirgin, ← e, sup_assoc, bot_sup_eq]
    cases new <;> rfl
  · simpa only [Worker.claimedCases, hp, Worker.refresh] using e
  · rw [hvirgin]
    exact le_sup_left
  · -- the local prefix is extended to the whole shared corpus
    have hpre := (h.corpus tid).trans hgrow
    simp only [Worker.refresh]
    split
    · rw [← List.prefix_append_drop hpre]
    · exact hpre

/-- A worker that folds its last counts keeps the invariant. -/
theorem Inv.exiting (h : Inv cases seed f log) (hp : (f.workers tid).phase = .exiting) :
    Inv cases seed (step cases f (tid, r)).2 log := by
  have hv := h.virgin tid
  simp only [Worker.pendingCov, hp] at hv
  simp only [step, hp, setWorker]
  refine h.replace (fun rest e => ?_) (fun rest e => ?_) (fun rest e => ?_) (fun rest e => ?_)
    (fun rest e => ?_) le_rfl (List.prefix_refl _) le_rfl hv (h.corpus tid)
    fun _ => h.exited tid (.inl hp)
  · simp only [Worker.held, hp, Shared.flush] at e ⊢
    rw [← e]
    abel
  · simpa only [Worker.pendingCrashes, hp, Shared.flush] using e
  · simpa only [Worker.pendingSigs, hp, Shared.flush] using e
  · simpa only [Worker.pendingCov, hp, Shared.flush] using e
  · simpa only [Worker.claimedCases, hp] using e

/-- Every step keeps the invariant; a step that runs a case extends the log by it. -/
theorem Inv.step (h : Inv cases seed f log) (i : Fin jobs × CaseRun n P) :
    Inv cases seed (step cases f i).2 (log ++ (step cases f i).1.toList) := by
  have silent : ∀ {o : Option (Nat × CaseRun n P)}, o = none → log ++ o.toList = log := by
    rintro _ rfl
    exact List.append_nil log
  cases hp : (f.workers i.1).phase with
  | start =>
    rw [silent (by simp only [Fuzzer.step, hp])]
    exact h.start hp
  | top =>
    rw [silent (by simp only [Fuzzer.step, hp])]
    exact h.top hp
  | claimed case =>
    rw [show (Fuzzer.step cases f i).1 = some (case, i.2) by simp only [Fuzzer.step, hp]]
    exact h.claimed hp
  | locking r new =>
    rw [silent (by simp only [Fuzzer.step, hp])]
    exact h.locking hp
  | exiting =>
    rw [silent (by simp only [Fuzzer.step, hp])]
    exact h.exiting hp
  | finished =>
    rw [silent (by simp only [Fuzzer.step, hp])]
    simpa only [Fuzzer.step, hp] using h

/-- The cases that a run executed, in order. -/
def executed (outs : List (Option (Nat × CaseRun n P))) : List (Nat × CaseRun n P) :=
  outs.flatMap Option.toList

/-- Every schedule keeps it. -/
theorem Inv.run (h : Inv cases seed f log) (sched : List (Fin jobs × CaseRun n P)) :
    Inv cases seed (run (Fuzzer.step cases) f sched).2
      (log ++ executed (run (Fuzzer.step cases) f sched).1) := by
  induction sched generalizing f log with
  | nil =>
    simp only [run_nil, executed, List.flatMap_nil, List.append_nil]
    exact h
  | cons i sched ih =>
    have h' := ih (h.step i)
    simp only [Lib.run, executed, List.flatMap_cons] at h' ⊢
    rwa [List.append_assoc] at h'

/-! ### Programs pushed to the corpus -/

/-- One step leaves the corpus, or pushes one program whose run advances the shared map. -/
theorem step_corpus (cases : Nat) (f : Fuzzer n P jobs) (i : Fin jobs × CaseRun n P) :
    (step cases f i).2.shared.corpus = f.shared.corpus ∨
      ∃ p, (step cases f i).2.shared.corpus = f.shared.corpus ++ [p] ∧
        ∃ b, f.shared.virgin b < (step cases f i).2.shared.virgin b := by
  cases hp : (f.workers i.1).phase with
  | locking r new =>
    simp only [step, hp]
    rcases fold_corpus f.shared (f.workers i.1).localStats r new with h | ⟨h, hb⟩
    · exact .inl h
    · exact .inr ⟨_, h, hb⟩
  | start | top | claimed | exiting | finished =>
    left
    simp only [step, hp, setWorker, Shared.flush]

/-- Program `k` of the corpus was pushed by a step of the run that advanced some bucket of the shared
map. -/
def PushedNew (cases : Nat) (f : Fuzzer n P jobs) (sched : List (Fin jobs × CaseRun n P)) (k : Nat)
    (p : P) : Prop :=
  ∃ pre i post, sched = pre ++ i :: post ∧
    let before := (run (step cases) f pre).2
    let after := (step cases before i).2
    before.shared.corpus.length = k ∧ after.shared.corpus = before.shared.corpus ++ [p] ∧
      ∃ b, before.shared.virgin b < after.shared.virgin b

/-- Over a run the corpus grows at its end, each time by a program that advanced the map. -/
theorem run_corpus (cases : Nat) (f : Fuzzer n P jobs) (sched : List (Fin jobs × CaseRun n P)) :
    ∃ pushed, (run (step cases) f sched).2.shared.corpus = f.shared.corpus ++ pushed ∧
      ∀ k p, pushed[k]? = some p → PushedNew cases f sched (f.shared.corpus.length + k) p := by
  induction sched generalizing f with
  | nil => exact ⟨[], by simp, fun k p h => by simp at h⟩
  | cons i sched ih =>
    obtain ⟨pushed, hc, hpush⟩ := ih (step cases f i).2
    have later : ∀ {k p}, PushedNew cases (step cases f i).2 sched k p →
        PushedNew cases f (i :: sched) k p := by
      rintro k p ⟨pre, j, post, rfl, h⟩
      exact ⟨i :: pre, j, post, rfl, h⟩
    rcases step_corpus cases f i with hs | ⟨q, hs, hb⟩
    · refine ⟨pushed, by rw [Lib.run, hc, hs], fun k p hk => later ?_⟩
      rw [← hs]
      exact hpush k p hk
    · refine ⟨q :: pushed, by rw [Lib.run, hc, hs, List.append_assoc]; rfl, fun k p hk => ?_⟩
      cases k with
      | zero =>
        cases hk
        exact ⟨[], i, sched, rfl, rfl, hs, hb⟩
      | succ k =>
        have h' := hpush k p hk
        rw [hs, List.length_append, List.length_singleton, Nat.add_assoc, Nat.add_comm 1] at h'
        exact later h'

end Fuzzer

/-! ## The result -/

/-- At every loop boundary of a worker its snapshots lag the shared data. -/
def Lagging (f : Fuzzer n P jobs) : Prop :=
  ∀ i, (f.workers i).phase = .top →
    (f.workers i).localVirgin ≤ f.shared.virgin ∧ (f.workers i).localCorpus <+: f.shared.corpus

/-- The shared data accounts for each of the executed cases, and these are all the cases, once. -/
structure Accounted (cases : Nat) (seed : VirginMap n) (sh : Shared n P)
    (log : List (Nat × CaseRun n P)) : Prop where
  virgin : sh.virgin = coverage seed log
  stats : sh.stats = totals log
  indices : (log.map Prod.fst).Perm (List.range cases)
  crashes : sh.crashes = crashCount log
  crashSigs : sh.crashSigs = signatures log

/-- When all workers are done, nothing is held back. -/
theorem Fuzzer.Inv.accounted {cases : Nat} {seed : VirginMap n} {f : Fuzzer n P jobs}
    {log : List (Nat × CaseRun n P)} (h : Inv cases seed f log) (hj : 0 < jobs)
    (hfin : ∀ i, (f.workers i).phase = .finished) : Accounted cases seed f.shared log where
  virgin := by
    rw [← h.cov]
    simp only [Worker.pendingCov, hfin]
    rw [Finset.sup_bot, sup_bot_eq]
  stats := by
    rw [← h.stats]
    simp only [Worker.held, hfin, Finset.sum_const_zero, add_zero]
  indices := by
    have hc := h.claims
    simp only [Worker.claimedCases, hfin, Finset.sum_const_zero, add_zero,
      Nat.min_eq_right (h.exited ⟨0, hj⟩ (.inr (hfin _)))] at hc
    exact Multiset.coe_eq_coe.1 hc
  crashes := by
    rw [← h.crashes]
    simp only [Worker.pendingCrashes, hfin, Finset.sum_const_zero, add_zero]
  crashSigs := by
    rw [← h.sigs]
    simp only [Worker.pendingSigs, hfin]
    rw [show (Finset.univ.sup fun _ : Fin jobs => (∅ : Finset U32)) = ∅ from Finset.sup_bot _]
    exact (Finset.union_empty _).symm

/-- Parallel merging loses nothing, whatever the number of workers, the schedule and the outcomes of
the cases: local snapshots lag the shared data at every loop boundary, every program pushed beyond
the seeds advanced the shared map, and once all the workers have finished, the shared data accounts
for every case. -/
theorem parallel_merge_lossless (cases : Nat) (seedVirgin : VirginMap MAP_SIZE)
    (seedCorpus : List P) (jobs : Nat) (hj : 0 < jobs)
    (sched : List (Fin jobs × CaseRun MAP_SIZE P)) :
    let r := run (Fuzzer.step cases) (Fuzzer.init seedVirgin seedCorpus) sched
    Lagging r.2 ∧
      (∃ pushed, r.2.shared.corpus = seedCorpus ++ pushed ∧ ∀ k p, pushed[k]? = some p →
        Fuzzer.PushedNew cases (.init seedVirgin seedCorpus) sched (seedCorpus.length + k) p) ∧
      ((∀ i, (r.2.workers i).phase = .finished) →
        Accounted cases seedVirgin r.2.shared (Fuzzer.executed r.1)) := by
  have h := (@Fuzzer.inv_init _ _ jobs cases seedVirgin seedCorpus).run sched
  rw [List.nil_append] at h
  refine ⟨fun i hi => ⟨?_, h.corpus i⟩, Fuzzer.run_corpus cases _ sched, h.accounted hj⟩
  have hv := h.virgin i
  simp only [Worker.pendingCov, hi, sup_bot_eq] at hv
  exact hv

/-- A case with these hit counts, which crashes or goes on to the end. -/
def raceCase (m : CovBitmap n) (crash : Option U32) : CaseRun n Bool :=
  ⟨crash.isSome, m, 5, .hypercall HC_DONE, crash⟩

/-- Two workers run cases with the same coverage before either takes the lock. The case of worker 0
crashes. -/
def raceSchedule (m : CovBitmap n) : List (Fin 2 × CaseRun n Bool) :=
  [0, 1, 0, 1, 0, 1, 0, 1, 0, 1, 0, 1].map fun i =>
    (i, raceCase m (if i = 0 then some 7 else none))

/-- The schedule runs both workers to their end, and only the first program to reach the lock is
kept. -/
theorem raceSchedule_ends {m : CovBitmap n} (h : (VirginMap.new.hasNewBits m).1 = true) :
    let r := run (Fuzzer.step 2) (Fuzzer.init .new []) (raceSchedule m)
    (∀ i, (r.2.workers i).phase = .finished) ∧ r.2.shared.corpus = [true] := by
  have hagain : ((VirginMap.new.hasNewBits m).2.hasNewBits m).1 = false := by
    rw [Bool.eq_false_iff, ne_eq, VirginMap.hasNewBits_new]
    rintro ⟨i, hi⟩
    rw [VirginMap.hasNewBits_map] at hi
    exact absurd (show m.classes i ≤ _ from le_sup_right) (Nat.not_le.2 hi)
  refine ⟨fun i => ?_, ?_⟩
  · match i with
    | 0 | 1 =>
      simp [raceSchedule, raceCase, Lib.run, Fuzzer.step, Fuzzer.init, Fuzzer.setWorker, Worker.init,
        Worker.runCase, Worker.refresh, h]
  · simp [raceSchedule, raceCase, Lib.run, Fuzzer.step, Fuzzer.init, Fuzzer.setWorker, Worker.init,
      Worker.runCase, Worker.refresh, Shared.fold, Shared.flush, Shared.mergeCov, Shared.addCrash, h,
      hagain]

/-- The hit counts of a run of one edge. -/
def oneEdge : CovBitmap MAP_SIZE := CovBitmap.new.recordEdge 0x80000000 0x80000004

/-- The map of the case has a new bit. -/
theorem hasNewBits_oneEdge : (VirginMap.new.hasNewBits oneEdge).1 = true := by
  refine (VirginMap.hasNewBits_new _ _).2 ⟨hashEdge 0x80000000 0x80000004, ?_⟩
  have hcount : oneEdge (hashEdge 0x80000000 0x80000004) = 1 := by
    rw [oneEdge, CovBitmap.recordEdge]
    exact (Function.update_self _ _ _).trans (by simp [CovBitmap.new])
  show 0 < classifyCount (oneEdge (hashEdge 0x80000000 0x80000004))
  rw [hcount]
  decide

/-- Two cases over one edge, of which one crashes: the shared data accounts for both, and the corpus
keeps one program. -/
theorem parallel_merge_lossless_race :
    let r := run (Fuzzer.step 2) (Fuzzer.init .new []) (raceSchedule oneEdge)
    Accounted 2 .new r.2.shared (Fuzzer.executed r.1) ∧ r.2.shared.corpus = [true] :=
  have hends := raceSchedule_ends hasNewBits_oneEdge
  ⟨(parallel_merge_lossless 2 .new [] 2 (by decide) (raceSchedule oneEdge)).2.2 hends.1, hends.2⟩

end

end

end FuzzSoft
