import Mathlib
import FuzzSoft.Fuzz.Subset
import FuzzSoft.Lib.Advance

/-!
# Seed replay

`replay_seeds` runs every seed once, folds the coverage into a map, and keeps the seeds that advance it.
If the coverage of a run depends on the program alone, which the reset sees to (`seedRun_deterministic`),
the map is the maximum over the seeds, and the kept seeds give the same map and are all kept again
(`replay_seeds_minimizes`).
-/

namespace FuzzSoft

open Lib

/-! ## The loop -/

section
variable {σ : Type} {n : Nat}

/-- The loop of `replay_seeds`: the map, the kept seeds, and the state of the guest. The map has `n`
buckets. -/
structure SeedReplay (n : Nat) (σ : Type) where
  virgin : VirginMap n
  corpus : List Prog
  state : σ

/-- Replay one seed. -/
def replaySeed (run : Prog → σ → CovBitmap n × σ) (r : SeedReplay n σ) (p : Prog) :
    SeedReplay n σ :=
  let e := run p r.state
  let new := r.virgin.hasNewBits e.1
  ⟨new.2, if new.1 then r.corpus ++ [p] else r.corpus, e.2⟩

def replaySeeds (run : Prog → σ → CovBitmap n × σ) (seeds : List Prog) (s : σ) :
    VirginMap n × List Prog :=
  let r := seeds.foldl (replaySeed run) ⟨.new, [], s⟩
  (r.virgin, r.corpus)

/-- From states with `I`, the coverage of a run depends on the program alone. -/
structure Deterministic (run : Prog → σ → CovBitmap n × σ) (I : σ → Prop)
    (exec : Prog → CovBitmap n) : Prop where
  out : ∀ p s, I s → (run p s).1 = exec p
  keeps : ∀ p s, I s → I (run p s).2

/-- The highest class of a bucket over some programs. -/
def maxClass (exec : Prog → CovBitmap n) (seeds : List Prog) (i : Fin n) : Nat :=
  (seeds.map fun p => (exec p).classes i).foldr max 0

/-- A program raises some bucket over the programs before it. -/
def Raises (exec : Prog → CovBitmap n) (before : List Prog) (p : Prog) : Prop :=
  ∃ i, maxClass exec before i < (exec p).classes i

instance (exec : Prog → CovBitmap n) (before : List Prog) (p : Prog) :
    Decidable (Raises exec before p) :=
  inferInstanceAs (Decidable (∃ i, maxClass exec before i < (exec p).classes i))

instance : DecidableRel (α := VirginMap n) (· ≤ ·) :=
  fun a b => inferInstanceAs (Decidable (∀ i, a i ≤ b i))

/-! ## The loop is a join -/

variable {run : Prog → σ → CovBitmap n × σ} {I : σ → Prop}
  {exec : Prog → CovBitmap n}

/-- The classes of a run. -/
def classesOf (exec : Prog → CovBitmap n) (p : Prog) : VirginMap n := (exec p).classes

theorem replaySeed_eq (hd : Deterministic run I exec) {r : SeedReplay n σ} (hs : I r.state) (p : Prog) :
    (replaySeed run r p).virgin = r.virgin ⊔ classesOf exec p ∧
      (replaySeed run r p).corpus =
        (if classesOf exec p ≤ r.virgin then r.corpus else r.corpus ++ [p]) ∧
      I (replaySeed run r p).state := by
  have hout := hd.out p r.state hs
  refine ⟨?_, ?_, hd.keeps p r.state hs⟩
  · rw [replaySeed, hout]
    exact VirginMap.hasNewBits_map _ _
  · rw [replaySeed, hout]
    by_cases hle : classesOf exec p ≤ r.virgin
    · have hold : (r.virgin.hasNewBits (exec p)).1 = false := by
        rw [Bool.eq_false_iff]
        intro hnew
        obtain ⟨i, hi⟩ := (VirginMap.hasNewBits_new _ _).mp hnew
        exact absurd (hle i) (Nat.not_le_of_lt hi)
      rw [if_pos hle, hold]
      rfl
    · have hnew : (r.virgin.hasNewBits (exec p)).1 = true := by
        by_contra hold
        exact hle (VirginMap.hasNewBits_old (Bool.eq_false_iff.mpr hold))
      rw [if_neg hle, hnew]
      rfl

/-- The loop accumulates the join, and keeps the seeds that advance it. -/
theorem replay_loop (hd : Deterministic run I exec) (seeds : List Prog) {r : SeedReplay n σ}
    (hs : I r.state) :
    (seeds.foldl (replaySeed run) r).virgin = reach (classesOf exec) r.virgin seeds ∧
      (seeds.foldl (replaySeed run) r).corpus =
        r.corpus ++ advancing (classesOf exec) r.virgin seeds := by
  induction seeds generalizing r with
  | nil => exact ⟨rfl, (List.append_nil _).symm⟩
  | cons p seeds ih =>
    obtain ⟨hvirgin, hcorpus, hs'⟩ := replaySeed_eq hd hs p
    obtain ⟨ihv, ihc⟩ := ih hs'
    rw [hvirgin] at ihv ihc
    refine ⟨ihv, ihc.trans ?_⟩
    rw [hcorpus, advancing]
    split
    next hle => rw [sup_eq_left.mpr hle]
    next hle => rw [List.append_assoc]; rfl

theorem replaySeeds_eq (hd : Deterministic run I exec) (seeds : List Prog) {s : σ} (hs : I s) :
    replaySeeds run seeds s =
      (reach (classesOf exec) .new seeds, advancing (classesOf exec) .new seeds) := by
  obtain ⟨hv, hc⟩ := replay_loop hd seeds (r := ⟨.new, [], s⟩) hs
  rw [replaySeeds, hv, hc]
  rfl

theorem reach_apply (v : VirginMap n) (seeds : List Prog) (i : Fin n) :
    reach (classesOf exec) v seeds i = max (v i) (maxClass exec seeds i) := by
  induction seeds generalizing v with
  | nil => exact (Nat.max_eq_left (Nat.zero_le _)).symm
  | cons p seeds ih =>
    show reach (classesOf exec) (v ⊔ classesOf exec p) seeds i = _
    rw [ih]
    exact Nat.max_assoc _ _ _

theorem not_le_reach_iff (before : List Prog) (p : Prog) :
    ¬ classesOf exec p ≤ reach (classesOf exec) .new before ↔ Raises exec before p := by
  have hmax : ∀ i, reach (classesOf exec) .new before i = maxClass exec before i := fun i =>
    (reach_apply .new before i).trans (Nat.max_eq_right (Nat.zero_le _))
  rw [Pi.le_def, not_forall]
  exact exists_congr fun i => by rw [hmax, Nat.not_le]; rfl

/-! ## Replay minimizes -/

/-- Replay returns the maximum over all seeds, in any order, and the seeds that raise it; replaying those
alone gives the same map and the same seeds. -/
theorem replay_seeds_minimizes (hd : Deterministic run I exec) (seeds : List Prog) {s s' : σ}
    (hs : I s) (hs' : I s') :
    (∀ i, (replaySeeds run seeds s).1 i = maxClass exec seeds i) ∧
    (∀ seeds' : List Prog, seeds'.Perm seeds →
      (replaySeeds run seeds' s').1 = (replaySeeds run seeds s).1) ∧
    (replaySeeds run seeds s).2 =
      (seeds.zipIdx.filter fun p => Raises exec (seeds.take p.2) p.1).map Prod.fst ∧
    replaySeeds run (replaySeeds run seeds s).2 s' = replaySeeds run seeds s := by
  have heq := replaySeeds_eq hd seeds hs
  refine ⟨fun i => ?_, fun seeds' hperm => ?_, ?_, ?_⟩
  · rw [heq]
    exact (reach_apply .new seeds i).trans (Nat.max_eq_right (Nat.zero_le _))
  · rw [heq, replaySeeds_eq hd seeds' hs']
    exact reach_perm hperm _
  · rw [heq]
    show advancing (classesOf exec) .new seeds = _
    rw [advancing_eq_filter _ seeds 0]
    refine congrArg (List.map Prod.fst) (List.filter_congr fun p _ => ?_)
    exact decide_eq_decide.mpr (not_le_reach_iff _ _)
  · rw [heq, replaySeeds_eq hd _ hs']
    show (reach _ _ (advancing _ _ seeds), advancing _ _ (advancing _ _ seeds)) = _
    rw [reach_advancing, advancing_advancing]

/-- With one bucket that counts the calls, the empty program is dropped. -/
theorem replay_seeds_minimizes_count :
    let run : Prog → Unit → CovBitmap 1 × Unit := fun p s => (fun _ => BitVec.ofNat 8 p.calls.length, s)
    replaySeeds run (replaySeeds run [⟨[]⟩, pipeProg] ()).2 () = replaySeeds run [⟨[]⟩, pipeProg] () := by
  intro run
  have hd : Deterministic run (fun _ => True) fun p _ => BitVec.ofNat 8 p.calls.length :=
    ⟨fun _ _ _ => rfl, fun _ _ _ => trivial⟩
  exact (replay_seeds_minimizes hd _ trivial trivial).2.2.2

end

/-! ## The guest -/

/-- A seed on the guest; what the crash oracle says is printed and dropped. -/
def seedRun {ρ : Type} [Bus ρ] (kernelCrashSig : List U8 → Option U32)
    (reset : Sys (MachineOf ρ) → Sys (MachineOf ρ)) (tg : Target) (scratchVa : U32) (baseUart passes : Nat)
    (p : Prog) (s : Sys (MachineOf ρ)) : CovBitmap MAP_SIZE × Sys (MachineOf ρ) :=
  let r := injectAndRun kernelCrashSig reset tg baseUart (compile scratchVa p) passes s
  (r.2.cov, r.2.sys)

/-- The reset makes the coverage of a seed a function of the program. -/
theorem seedRun_deterministic {f : Campaign}
    (hg : f.golden.hart.kmsanEnabled = false ∨ NoOverlap f.golden.bus) :
    Deterministic (seedRun f.kernelCrashSig f.reset f.target f.scratchVa f.baseUart f.maxPasses)
      (Resettable f.golden) fun p =>
        (runInjected f.target (compile f.scratchVa p) f.maxPasses (Snapshot.capture f.golden).2).cov where
  out p s hs := by
    obtain ⟨hrun, -⟩ := hs.replay hg f.target (compile f.scratchVa p) f.maxPasses
    exact congrArg CaseEnd.cov hrun
  keeps p s hs := (hs.replay hg f.target (compile f.scratchVa p) f.maxPasses).2

end FuzzSoft
