import FuzzSoft.Platform.Machine
import FuzzSoft.Riscv.Privilege

/-!
# Reservations and traps

The run of one hart as a log of what its steps did to the reservation. A trap does not drop it: it is
still there when the handler, or whatever the handler returns to, comes to a store-conditional. So
every store-conditional that succeeds follows its load-reserved (`FollowsLr`) in the runs in which no
trap is taken while the hart holds a reservation, and in those only no reservation survives a trap.
-/

namespace FuzzSoft

open Lib

/-! ## The log of a run -/

/-- What a retired instruction has to do with reservations. -/
inductive ResOp where
  | lr (va : U32)
  | sc (va : U32) (success : Bool)
  | amo
  deriving DecidableEq, Repr

def Inst.resOp (inst : Inst) (h : Hart) : Option ResOp :=
  match inst with
  | .lrW _ rs1 _ _ => some (.lr (h.rdReg rs1))
  | .scW _ rs1 _ _ _ => some (.sc (h.rdReg rs1) (h.reservation = some (h.rdReg rs1)))
  | .amoW .. => some .amo
  | _ => none

/-- A step: the instruction it retired, whether it took a trap or an interrupt, and the reservation
before and after it. -/
structure ResEvent where
  op : Option ResOp
  trapped : Bool
  before : Option U32
  after : Option U32
  deriving DecidableEq, Repr

/-- The step ends what a load-reserved began. -/
def ResEvent.breaks (e : ResEvent) : Bool :=
  e.trapped ||
    match e.op with
    | some (.sc ..) | some .amo => true
    | _ => false

/-- The log, its last step first, has a load-reserved from `va` with nothing since that breaks it. -/
def FollowsLr (va : U32) : List ResEvent → Prop
  | [] => False
  | e :: es => e.op = some (.lr va) ∨ (e.breaks = false ∧ FollowsLr va es)

instance FollowsLr.decidable (va : U32) : DecidablePred (FollowsLr va)
  | [] => isFalse id
  | _ :: es => @instDecidableOr _ _ _ (@instDecidableAnd _ _ _ (FollowsLr.decidable va es))

section
variable {β : Type} [Bus β]

def resEvent (s : Sys β) : ResEvent where
  op := (retired s).bind fun r => r.1.resOp r.2.hart
  trapped := (stepTrap s).isSome
  before := s.hart.reservation
  after := (stepSystem s).2.hart.reservation

/-- The runs of one hart, with their logs. It starts without a reservation, and between two steps its
driver may change anything but the reservation. -/
inductive HartRun : List ResEvent → Sys β → Prop
  | start {s : Sys β} (h : s.hart.reservation = none) : HartRun [] s
  | drive {log : List ResEvent} {s t : Sys β} (h : HartRun log s)
    (ht : t.hart.reservation = s.hart.reservation) : HartRun log t
  | step {log : List ResEvent} {s : Sys β} (h : HartRun log s) :
    HartRun (resEvent s :: log) (stepSystem s).2

/-! ## Traps keep the reservation -/

/-- An instruction that changes the reservation asks for no exit. -/
theorem execInst_continue {inst : Inst} {h : Hart} (hi : (inst.resOp h).isSome)
    (pc next iword : U32) :
    Gives (fun r : Exit × U32 => r.1 = .continue) (execInst inst pc next iword : Exec β _) := by
  refine Gives.last fun _ => ?_
  cases inst with
  | lrW | scW | amoW => exact Gives.last fun _ => Gives.last fun _ => Gives.pure rfl
  | _ => cases hi

/-- An instruction that has nothing to do with reservations leaves the one there is. -/
theorem reservationAfter_of_none {inst : Inst} {h : Hart} (hi : inst.resOp h = none) :
    inst.reservationAfter h = h.reservation := by
  cases inst with
  | lrW | scW | amoW => cases hi
  | _ => rfl

/-- A step that takes a trap retires no instruction that changes the reservation. -/
theorem op_of_trapped {s : Sys β} (h : (resEvent s).trapped = true) : (resEvent s).op = none := by
  unfold resEvent stepTrap at h
  unfold resEvent retired Hart.pollInterrupt
  dsimp only at h ⊢
  cases hp : s.hart.updateTimers.pendingInterrupt with
  | some code => rfl
  | none =>
    rw [hp] at h
    dsimp only at h ⊢
    rw [if_neg Bool.false_ne_true]
    generalize s.setHart s.hart.updateTimers = s₀ at h ⊢
    unfold step getHart at h
    rw [Comp.gets_bind] at h
    rcases hf : fetchDecode s₀.hart.pc s₀ with ⟨r, s₁⟩
    cases r with
    | error e => rfl
    | ok f =>
      rw [Comp.bind_ok hf] at h
      rcases hx : execOne f.inst s₀.hart.pc f.ilen f.iword s₁ with ⟨r, s₂⟩
      simp only [hx] at h ⊢
      cases r with
      | error e => rfl
      | ok x =>
        show f.inst.resOp s₁.hart = none
        by_contra hop
        have hx' : x = .continue := by
          obtain ⟨y, s₃, hi, hr⟩ := Comp.bind_eq_ok hx
          obtain ⟨_, _, -, hr⟩ := Comp.bind_eq_ok hr
          cases hr
          exact execInst_continue (Option.isSome_iff_ne_none.2 hop) _ _ _ _ _ _ hi
        subst hx'
        cases h

/-- A trap leaves the reservation as it was. -/
theorem after_of_trapped {s : Sys β} (h : (resEvent s).trapped = true) :
    (resEvent s).after = (resEvent s).before := by
  have hop := op_of_trapped h
  have hres := stepSystem_reservation s
  show (stepSystem s).2.hart.reservation = s.hart.reservation
  rw [hres]
  cases hr : retired s with
  | none => rfl
  | some p =>
    obtain ⟨inst, t⟩ := p
    have hi : inst.resOp t.hart = none := by
      rw [resEvent, hr] at hop
      exact hop
    exact (reservationAfter_of_none hi).trans (congrArg Marks.reservation (retired_marks hr))

/-! ## Runs -/

/-- A reservation that no trap has found follows the load-reserved that made it. -/
theorem HartRun.follows {log : List ResEvent} {s : Sys β} (h : HartRun log s)
    (hlog : ∀ e ∈ log, e.trapped = true → e.before = none) {va : U32}
    (hva : s.hart.reservation = some va) : FollowsLr va log := by
  induction h with
  | start h =>
    rw [h] at hva
    cases hva
  | drive _ ht ih => exact ih hlog (ht ▸ hva)
  | @step log s h ih =>
    have hold : ∀ e ∈ log, e.trapped = true → e.before = none :=
      fun e he => hlog e (List.mem_cons_of_mem _ he)
    -- a step that leaves the reservation of an earlier one alone, and breaks nothing
    have hkeep : (resEvent s).op = none → s.hart.reservation = some va →
        FollowsLr va (resEvent s :: log) := by
      intro hop hs
      refine .inr ⟨?_, ih hold hs⟩
      unfold ResEvent.breaks
      rw [hop, Bool.or_false]
      by_contra ht
      have hb := hlog _ List.mem_cons_self (Bool.eq_true_of_not_eq_false ht)
      change s.hart.reservation = none at hb
      rw [hb] at hs
      cases hs
    rw [stepSystem_reservation] at hva
    cases hr : retired s with
    | none =>
      rw [hr] at hva
      exact hkeep (by rw [resEvent, hr]; rfl) hva
    | some p =>
      obtain ⟨inst, t⟩ := p
      rw [hr] at hva
      have hop : (resEvent s).op = inst.resOp t.hart := by rw [resEvent, hr]; rfl
      cases hi : inst.resOp t.hart with
      | none =>
        have hb : t.hart.reservation = s.hart.reservation :=
          congrArg Marks.reservation (retired_marks hr)
        exact hkeep (hop.trans hi) (hb ▸ (reservationAfter_of_none hi) ▸ hva)
      | some o =>
        left
        rw [hop]
        cases inst with
        | lrW rd rs1 aq rl =>
          change some (t.hart.rdReg rs1) = some va at hva
          cases hva
          rfl
        | scW | amoW => cases hva
        | _ => cases hi

/-- No reservation survives a trap, and every store-conditional that succeeds follows a load-reserved
from its address. -/
structure Respected (log : List ResEvent) : Prop where
  traps : ∀ e ∈ log, e.trapped = true → e.after = none
  conditionals : ∀ {e es}, e :: es <:+ log → ∀ {va}, e.op = some (.sc va true) → FollowsLr va es

/-- What a log says of its steps. -/
theorem HartRun.events {log : List ResEvent} {s : Sys β} (h : HartRun log s) {e : ResEvent}
    {es : List ResEvent} (he : e :: es <:+ log) : ∃ t : Sys β, HartRun es t ∧ e = resEvent t := by
  induction h with
  | start => exact absurd (List.suffix_nil.1 he) (List.cons_ne_nil _ _)
  | drive _ _ ih => exact ih he
  | @step log s h ih =>
    rcases List.suffix_cons_iff.1 he with heq | hs
    · cases heq
      exact ⟨s, h, rfl⟩
    · exact ih hs

/-- A store-conditional succeeds with the reservation from before its step. -/
theorem before_of_success {s : Sys β} {va : U32} (h : (resEvent s).op = some (.sc va true)) :
    s.hart.reservation = some va := by
  unfold resEvent at h
  dsimp only at h
  cases hr : retired s with
  | none =>
    rw [hr] at h
    cases h
  | some p =>
    obtain ⟨inst, t⟩ := p
    rw [hr] at h
    change inst.resOp t.hart = _ at h
    have hb : t.hart.reservation = s.hart.reservation :=
      congrArg Marks.reservation (retired_marks hr)
    cases inst with
    | scW rd rs1 rs2 aq rl =>
      simp only [Inst.resOp, Option.some.injEq, ResOp.sc.injEq, decide_eq_true_eq] at h
      rw [← hb, h.2, h.1]
    | lrW | amoW =>
      cases h
    | _ => cases h

/-- In a run of one hart the reservations are respected exactly when no trap and no interrupt is
taken while the hart holds one. -/
theorem reservations_respected_iff {log : List ResEvent} {s : Sys β} (h : HartRun log s) :
    Respected log ↔ ∀ e ∈ log, e.trapped = true → e.before = none := by
  constructor
  · intro hr e he ht
    obtain ⟨es₀, es, rfl⟩ := List.append_of_mem he
    obtain ⟨t, -, rfl⟩ := h.events (List.suffix_append es₀ (e :: es))
    rw [← after_of_trapped ht]
    exact hr.traps _ he ht
  · intro hc
    refine ⟨fun e he ht => ?_, fun {e es} hs {va} hop => ?_⟩
    · obtain ⟨es₀, es, rfl⟩ := List.append_of_mem he
      obtain ⟨t, -, rfl⟩ := h.events (List.suffix_append es₀ (e :: es))
      rw [after_of_trapped ht]
      exact hc _ he ht
    · obtain ⟨t, ht, rfl⟩ := h.events hs
      refine ht.follows (fun e he => hc e ?_) (before_of_success hop)
      exact hs.subset (List.mem_cons_of_mem _ he)

/-! ## A reservation that survives a trap -/

/-- The log of so many steps, and the system after them. -/
def runLog (s : Sys β) : Nat → List ResEvent × Sys β
  | 0 => ([], s)
  | n + 1 =>
    let r := runLog s n
    (resEvent r.2 :: r.1, (stepSystem r.2).2)

theorem hartRun_runLog {s : Sys β} (h : s.hart.reservation = none) (n : Nat) :
    HartRun (runLog s n).1 (runLog s n).2 := by
  induction n with
  | zero => exact .start h
  | succ n ih => exact .step ih

end

/-- A machine at the start of a page that holds the bytes of a program. -/
def bootProgram (bytes : List U8) : Sys Machine where
  cpu := Cpu.new 0x80000000
  bus := { MachineOf.new 0x80000000 4096 with
    ram := { Mmu.new 0x80000000 4096 with
      mem := setSpan (fun _ => 0) 0 bytes
      perms := fun _ => PERM_READ ||| PERM_WRITE ||| PERM_EXEC } }

/-- `auipc x2, 0`; `lr.w x5, (x2)`; `sc.w x6, x7, (x2)`; `ecall`. -/
def pairedProgram : Sys Machine :=
  bootProgram [0x17, 0x01, 0x00, 0x00, 0xaf, 0x22, 0x01, 0x10, 0x2f, 0x23, 0x71, 0x18,
    0x73, 0x00, 0x00, 0x00]

/-- The store-conditional succeeds and the trap finds no reservation, so reservations are respected. -/
theorem reservations_respected_iff_paired :
    (∃ e ∈ (runLog pairedProgram 4).1, e.op = some (.sc 0x80000000 true)) ∧
      (∃ e ∈ (runLog pairedProgram 4).1, e.trapped = true) ∧
      Respected (runLog pairedProgram 4).1 := by
  refine ⟨?_, ?_, (reservations_respected_iff (hartRun_runLog rfl 4)).2 ?_⟩ <;> decide +kernel

/-- A program that makes the instruction after its `ecall` the trap handler: `auipc x2, 0`;
`addi x3, x2, 20`; `csrw mtvec, x3`; `lr.w x5, (x2)`; `ecall`; `sc.w x6, x7, (x2)`. -/
def reservingProgram : Sys Machine :=
  bootProgram [0x17, 0x01, 0x00, 0x00, 0x93, 0x01, 0x41, 0x01, 0x73, 0x90, 0x51, 0x30,
    0xaf, 0x22, 0x01, 0x10, 0x73, 0x00, 0x00, 0x00, 0x2f, 0x23, 0x71, 0x18]

/-- The store-conditional of the handler succeeds: the trap is between it and the load-reserved. -/
theorem reservation_survives_trap :
    HartRun (runLog reservingProgram 6).1 (runLog reservingProgram 6).2 ∧
      ¬ ∀ {e es}, e :: es <:+ (runLog reservingProgram 6).1 →
        ∀ {va}, e.op = some (.sc va true) → FollowsLr va es := by
  have hop : (resEvent (runLog reservingProgram 5).2).op = some (.sc 0x80000000 true) := by
    decide +kernel
  have hno : ¬ FollowsLr 0x80000000 (runLog reservingProgram 5).1 := by decide +kernel
  exact ⟨hartRun_runLog rfl 6, fun h => hno (h (List.suffix_refl _) hop)⟩

end FuzzSoft
