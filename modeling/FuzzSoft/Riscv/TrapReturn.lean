import FuzzSoft.Riscv.Privilege

/-!
# Traps and returns

A level that traps stacks one frame: its interrupt-enable bit, the one before, and the mode it came
from. Entering and leaving a level are operations on two such frames and a mode (`TrapStack`), and
leaving undoes entering (`TrapStack.leave_enter`). `takeTrap` enters a level and `mret` and `sret` leave
one, on the frames that `mstatus` packs into one word (`trapStack_takeTrap`, `trapStack_mret`,
`trapStack_sret`).
-/

namespace FuzzSoft

open Lib

/-! ## Frames of the two levels -/

/-- A level that traps are delivered to. -/
inductive TrapLevel where
  | s
  | m
  deriving DecidableEq, Repr

def TrapLevel.priv : TrapLevel → Priv
  | s => .s
  | m => .m

/-- The enable bit of a level, its previous value, and the mode to return to. -/
structure TrapFrame where
  ie : Bool
  pie : Bool
  pp : Priv
  deriving DecidableEq, Repr

@[ext]
structure TrapStack where
  frames : TrapLevel → TrapFrame
  priv : Priv

namespace TrapStack

variable (t : TrapStack) (l : TrapLevel)

def enter : TrapStack where
  frames := Function.update t.frames l ⟨false, (t.frames l).ie, t.priv⟩
  priv := l.priv

def leave : TrapStack where
  frames := Function.update t.frames l ⟨(t.frames l).pie, true, .u⟩
  priv := (t.frames l).pp

variable {l}

/-- A trap stacks the frame of its level. -/
theorem enter_self : (t.enter l).frames l = ⟨false, (t.frames l).ie, t.priv⟩ :=
  Function.update_self _ _ _

/-- It leaves the other level's. -/
theorem enter_of_ne {l' : TrapLevel} (h : l' ≠ l) : (t.enter l).frames l' = t.frames l' :=
  Function.update_of_ne h _ _

/-- A return unstacks the frame of its level. -/
theorem leave_self : (t.leave l).frames l = ⟨(t.frames l).pie, true, .u⟩ :=
  Function.update_self _ _ _

/-- It leaves the other level's. -/
theorem leave_of_ne {l' : TrapLevel} (h : l' ≠ l) : (t.leave l).frames l' = t.frames l' :=
  Function.update_of_ne h _ _

/-- Leaving a level undoes entering it, but for the previous bit and mode of the level. -/
theorem leave_enter {u : TrapStack} (h : u.frames = (t.enter l).frames) :
    ((u.leave l).frames l).ie = (t.frames l).ie ∧
      (∀ l', l' ≠ l → (u.leave l).frames l' = t.frames l') ∧ (u.leave l).priv = t.priv := by
  refine ⟨?_, fun l' hl => ?_, ?_⟩
  · rw [leave_self, h, enter_self]
  · rw [leave_of_ne u hl, h, enter_of_ne t hl]
  · rw [leave, h, enter_self]

end TrapStack

/-! ## The frames in `mstatus` -/

section
variable {a b k : U32}

/-- A field that was cleared and filled holds what it was filled with. -/
theorem and_filled : ((a &&& ~~~k) ||| b) &&& k = b &&& k := by
  ext i hi
  simp only [BitVec.getElem_and, BitVec.getElem_or, BitVec.getElem_not]
  cases a[i] <;> cases b[i] <;> cases k[i] <;> rfl

/-- Cleared bits are clear. -/
theorem and_cleared : (a &&& ~~~k) &&& k = 0 := by
  ext i hi
  simp

/-- A bit moved into place. -/
theorem moveBit_moved {dst src : U32} (h : dst ≠ 0) :
    moveBit a dst src &&& dst ≠ 0 ↔ a &&& src ≠ 0 := by
  unfold moveBit
  rw [and_filled]
  by_cases hs : a &&& src ≠ 0
  · rw [if_pos hs, BitVec.and_self]
    exact iff_of_true h hs
  · rw [if_neg hs]
    exact iff_of_false (fun hz => hz (by simp)) hs

end

namespace Hart

/-- The frame that a word holds in the given fields. -/
def frameOf (st ie pie pp : U32) (shift : Nat) : TrapFrame where
  ie := st &&& ie ≠ 0
  pie := st &&& pie ≠ 0
  pp := .fromBits ((st &&& pp) >>> shift)

def stackOf (st : U32) (p : Priv) : TrapStack where
  frames
    | .s => frameOf st MSTATUS_SIE MSTATUS_SPIE MSTATUS_SPP 8
    | .m => frameOf st MSTATUS_MIE MSTATUS_MPIE MSTATUS_MPP 11
  priv := p

/-- The frames that `mstatus` holds. -/
def trapStack (h : Hart) : TrapStack := stackOf h.csr.mstatus h.privilege

/-- The address that a level returns to. -/
def epc (h : Hart) : TrapLevel → U32
  | .s => h.csr.sepc
  | .m => h.csr.mepc

/-- The level that a trap is delivered to. -/
def trapLevel (h : Hart) (cause : U32) (interrupt : Bool) : TrapLevel :=
  if h.privilege.level ≤ Priv.s.level ∧
      bitSet (if interrupt then h.csr.mideleg else h.csr.medeleg) cause.toNat then .s
  else .m

/-- A handler has left the frames of both levels and the address of its own as it got them. -/
def Untouched (l : TrapLevel) (h h' : Hart) : Prop :=
  h'.trapStack.frames = h.trapStack.frames ∧ h'.epc l = h.epc l

/-- What `takeTrap` makes of the bits of `mstatus` for one level. -/
def stackBits (st ie pie pp prev : U32) : U32 :=
  ((moveBit st pie ie &&& ~~~ie) &&& ~~~pp) ||| prev

/-- What a return makes of them, before MPRV. -/
def unstackBits (st ie pie pp : U32) : U32 := (moveBit st ie pie ||| pie) &&& ~~~pp

section
variable {st st' ie pie pp prev : U32} {shift : Nat}

/-- A frame depends on its fields only. -/
theorem frameOf_congr (h₁ : st &&& ie = st' &&& ie) (h₂ : st &&& pie = st' &&& pie)
    (h₃ : st &&& pp = st' &&& pp) : frameOf st ie pie pp shift = frameOf st' ie pie pp shift := by
  rw [frameOf, frameOf, h₁, h₂, h₃]

/-- No two of the fields overlap. -/
structure Fields (ie pie pp : U32) : Prop where
  ie_ne : ie ≠ 0
  pie_ne : pie ≠ 0
  pie_ie : pie &&& ie = 0
  ie_pie : ie &&& pie = 0
  pp_ie : pp &&& ie = 0
  pp_pie : pp &&& pie = 0

/-- The fields of a level lie outside those of another. -/
structure Outside (ie pie pp k : U32) : Prop where
  ie_out : ie &&& k = 0
  pie_out : pie &&& k = 0
  pp_out : pp &&& k = 0

/-- The frame after the bits were stacked. -/
theorem frameOf_stackBits (f : Fields ie pie pp) (h₁ : prev &&& ie = 0) (h₂ : prev &&& pie = 0) :
    frameOf (stackBits st ie pie pp prev) ie pie pp shift =
      ⟨false, st &&& ie ≠ 0, .fromBits ((prev &&& pp) >>> shift)⟩ := by
  have hie : stackBits st ie pie pp prev &&& ie = 0 := by
    rw [stackBits, or_outside h₁, clear_outside f.pp_ie, and_cleared]
  have hpie : stackBits st ie pie pp prev &&& pie ≠ 0 ↔ st &&& ie ≠ 0 := by
    rw [stackBits, or_outside h₂, clear_outside f.pp_pie, clear_outside f.ie_pie,
      moveBit_moved f.pie_ne]
  have hpp : stackBits st ie pie pp prev &&& pp = prev &&& pp := and_filled
  rw [frameOf, hie, hpp, decide_eq_decide.2 hpie, decide_eq_false fun h => h rfl]

/-- Stacking leaves the other bits. -/
theorem stackBits_outside {k : U32} (o : Outside ie pie pp k) (h : prev &&& k = 0) :
    stackBits st ie pie pp prev &&& k = st &&& k := by
  rw [stackBits, or_outside h, clear_outside o.pp_out, clear_outside o.ie_out,
    moveBit_outside o.pie_out]

/-- The frame after the bits were unstacked. -/
theorem frameOf_unstackBits (f : Fields ie pie pp) :
    frameOf (unstackBits st ie pie pp) ie pie pp shift = ⟨st &&& pie ≠ 0, true, .u⟩ := by
  have hie : unstackBits st ie pie pp &&& ie ≠ 0 ↔ st &&& pie ≠ 0 := by
    rw [unstackBits, clear_outside f.pp_ie, or_outside f.pie_ie, moveBit_moved f.ie_ne]
  have hself : (moveBit st ie pie ||| pie) &&& pie = pie := by
    ext i hi
    simp only [BitVec.getElem_and, BitVec.getElem_or]
    cases (moveBit st ie pie)[i] <;> cases pie[i] <;> rfl
  have hpie : unstackBits st ie pie pp &&& pie ≠ 0 := by
    rw [unstackBits, clear_outside f.pp_pie, hself]
    exact f.pie_ne
  have hpp : unstackBits st ie pie pp &&& pp = 0 := and_cleared
  have hshift : (0 : U32) >>> shift = 0 := BitVec.zero_ushiftRight
  rw [frameOf, hpp, decide_eq_decide.2 hie, decide_eq_true hpie, hshift]
  rfl

/-- Unstacking leaves the other bits. -/
theorem unstackBits_outside {k : U32} (o : Outside ie pie pp k) :
    unstackBits st ie pie pp &&& k = st &&& k := by
  rw [unstackBits, clear_outside o.pp_out, or_outside o.pie_out, moveBit_outside o.ie_out]

end

/-- The S-mode fields of `mstatus` are apart. -/
theorem fields_s : Fields MSTATUS_SIE MSTATUS_SPIE MSTATUS_SPP := by
  constructor <;> decide

/-- So are the M-mode fields. -/
theorem fields_m : Fields MSTATUS_MIE MSTATUS_MPIE MSTATUS_MPP := by
  constructor <;> decide

/-- Delivering a trap stacks a frame of its level and remembers where it was taken. -/
theorem takeTrap_stack (h : Hart) (cause tval : U32) (interrupt : Bool) :
    (h.takeTrap cause tval interrupt).trapStack = h.trapStack.enter (h.trapLevel cause interrupt) ∧
      (h.takeTrap cause tval interrupt).epc (h.trapLevel cause interrupt) = h.pc ∧
      ∀ l, l ≠ h.trapLevel cause interrupt → (h.takeTrap cause tval interrupt).epc l = h.epc l := by
  unfold takeTrap trapLevel
  dsimp only
  generalize (if interrupt then h.csr.mideleg else h.csr.medeleg) = deleg
  by_cases hs : h.privilege.level ≤ Priv.s.level ∧ bitSet deleg cause.toNat = true
  · rw [if_pos hs, if_pos hs]
    refine ⟨?_, rfl, fun l hl => ?_⟩
    · have hown : ((h.privilege.level &&& 1) <<< 8) &&& MSTATUS_SIE = 0 ∧
          ((h.privilege.level &&& 1) <<< 8) &&& MSTATUS_SPIE = 0 := by
        cases h.privilege <;> decide
      have hother : ((h.privilege.level &&& 1) <<< 8) &&& MSTATUS_MIE = 0 ∧
          ((h.privilege.level &&& 1) <<< 8) &&& MSTATUS_MPIE = 0 ∧
          ((h.privilege.level &&& 1) <<< 8) &&& MSTATUS_MPP = 0 := by
        cases h.privilege <;> decide
      have hback : Priv.fromBits ((((h.privilege.level &&& 1) <<< 8) &&& MSTATUS_SPP) >>> 8) =
          h.privilege := by
        have hp := hs.1
        revert hp
        cases h.privilege <;> decide
      refine TrapStack.ext (funext fun l => ?_) rfl
      cases l with
      | s =>
        refine (frameOf_stackBits fields_s hown.1 hown.2).trans ?_
        rw [hback]
        rfl
      | m =>
        exact frameOf_congr (stackBits_outside (by constructor <;> decide) hother.1)
          (stackBits_outside (by constructor <;> decide) hother.2.1)
          (stackBits_outside (by constructor <;> decide) hother.2.2)
    · cases l with
      | s => exact absurd rfl hl
      | m => rfl
  · rw [if_neg hs, if_neg hs]
    refine ⟨?_, rfl, fun l hl => ?_⟩
    · have hown : (h.privilege.level <<< 11) &&& MSTATUS_MIE = 0 ∧
          (h.privilege.level <<< 11) &&& MSTATUS_MPIE = 0 := by cases h.privilege <;> decide
      have hother : (h.privilege.level <<< 11) &&& MSTATUS_SIE = 0 ∧
          (h.privilege.level <<< 11) &&& MSTATUS_SPIE = 0 ∧
          (h.privilege.level <<< 11) &&& MSTATUS_SPP = 0 := by cases h.privilege <;> decide
      have hback : Priv.fromBits (((h.privilege.level <<< 11) &&& MSTATUS_MPP) >>> 11) =
          h.privilege := by cases h.privilege <;> decide
      refine TrapStack.ext (funext fun l => ?_) rfl
      cases l with
      | s =>
        exact frameOf_congr (stackBits_outside (by constructor <;> decide) hother.1)
          (stackBits_outside (by constructor <;> decide) hother.2.1)
          (stackBits_outside (by constructor <;> decide) hother.2.2)
      | m =>
        refine (frameOf_stackBits fields_m hown.1 hown.2).trans ?_
        rw [hback]
        rfl
    · cases l with
      | s => rfl
      | m => exact absurd rfl hl

/-- Clearing MPRV leaves the frames. -/
theorem returnTo_stack (h : Hart) (st bits : U32) :
    (h.returnTo st bits).trapStack = stackOf st (.fromBits bits) := by
  unfold returnTo
  dsimp only [trapStack]
  split
  · refine TrapStack.ext (funext fun l => ?_) rfl
    cases l with
    | s =>
      exact frameOf_congr (clear_outside (by decide)) (clear_outside (by decide))
        (clear_outside (by decide))
    | m =>
      exact frameOf_congr (clear_outside (by decide)) (clear_outside (by decide))
        (clear_outside (by decide))
  · rfl

/-- `mret` leaves an M-mode frame. -/
theorem mret_stack (h : Hart) : h.mret.trapStack = h.trapStack.leave .m := by
  refine (returnTo_stack h (unstackBits h.csr.mstatus MSTATUS_MIE MSTATUS_MPIE MSTATUS_MPP) _).trans ?_
  refine TrapStack.ext (funext fun l => ?_) rfl
  cases l with
  | s =>
    exact frameOf_congr (unstackBits_outside (by constructor <;> decide))
      (unstackBits_outside (by constructor <;> decide))
      (unstackBits_outside (by constructor <;> decide))
  | m => exact frameOf_unstackBits fields_m

/-- `sret` leaves an S-mode frame. -/
theorem sret_stack (h : Hart) : h.sret.trapStack = h.trapStack.leave .s := by
  refine (returnTo_stack h (unstackBits h.csr.mstatus MSTATUS_SIE MSTATUS_SPIE MSTATUS_SPP) _).trans ?_
  refine TrapStack.ext (funext fun l => ?_) rfl
  cases l with
  | s => exact frameOf_unstackBits fields_s
  | m =>
    exact frameOf_congr (unstackBits_outside (by constructor <;> decide))
      (unstackBits_outside (by constructor <;> decide))
      (unstackBits_outside (by constructor <;> decide))

end Hart

/-! ## Returning -/

/-- The instruction that returns from a level. -/
def TrapLevel.returnInst : TrapLevel → Inst
  | s => .sret
  | m => .mret

section
variable {β : Type} [Bus β]

/-- A return from a level goes to where the trap was taken and leaves the level. -/
theorem execOne_return (l : TrapLevel) (pc ilen iword : U32) {s : Sys β}
    (h : l.priv.level ≤ s.hart.privilege.level) :
    ∃ s', execOne l.returnInst pc ilen iword s = (.ok .continue, s') ∧
      s'.hart.pc = s.hart.epc l ∧ s'.hart.trapStack = s.hart.trapStack.leave l ∧
      ∀ l', s'.hart.epc l' = s.hart.epc l' := by
  cases l with
  | s =>
    have hi : execInst .sret pc (pc + ilen) iword s =
        (.ok (.continue, s.hart.csr.sepc), s.setHart s.hart.sret) := by
      have hlt : ¬ s.hart.privilege.level < Priv.s.level := BitVec.not_lt.2 h
      show (if s.hart.privilege.level < Priv.s.level then _ else _ : Exec β (Exit × U32)) s = _
      rw [if_neg hlt]
      rfl
    refine ⟨(s.setHart s.hart.sret).setHart (s.hart.sret.retire s.hart.csr.sepc),
      Comp.bind_ok hi, rfl, s.hart.sret_stack, fun l' => ?_⟩
    cases l' <;> rfl
  | m =>
    have hi : execInst .mret pc (pc + ilen) iword s =
        (.ok (.continue, s.hart.csr.mepc), s.setHart s.hart.mret) := by
      have hlt : ¬ s.hart.privilege.level < Priv.m.level := BitVec.not_lt.2 h
      show (if s.hart.privilege.level < Priv.m.level then _ else _ : Exec β (Exit × U32)) s = _
      rw [if_neg hlt]
      rfl
    refine ⟨(s.setHart s.hart.mret).setHart (s.hart.mret.retire s.hart.csr.mepc),
      Comp.bind_ok hi, rfl, s.hart.mret_stack, fun l' => ?_⟩
    cases l' <;> rfl

/-- The return after a trap that its handler has left untouched: the interrupted address and mode, the
enable bit of the level, and the frame of the other level are as they were. -/
theorem return_takeTrap {h : Hart} {cause tval : U32} {interrupt : Bool} (pc ilen iword : U32)
    {s : Sys β} (hu : Hart.Untouched (h.trapLevel cause interrupt) (h.takeTrap cause tval interrupt) s.hart)
    (hp : (h.trapLevel cause interrupt).priv.level ≤ s.hart.privilege.level) :
    ∃ s', execOne (h.trapLevel cause interrupt).returnInst pc ilen iword s = (.ok .continue, s') ∧
      s'.hart.pc = h.pc ∧ s'.hart.privilege = h.privilege ∧
      (s'.hart.trapStack.frames (h.trapLevel cause interrupt)).ie =
        (h.trapStack.frames (h.trapLevel cause interrupt)).ie ∧
      (∀ l, l ≠ h.trapLevel cause interrupt → s'.hart.trapStack.frames l = h.trapStack.frames l) ∧
      ∀ l, s'.hart.epc l = s.hart.epc l := by
  obtain ⟨hst, hpc, -⟩ := h.takeTrap_stack cause tval interrupt
  generalize h.trapLevel cause interrupt = l at hu hp hst hpc ⊢
  obtain ⟨s', he, hpc', hst', hepc⟩ := execOne_return l pc ilen iword hp
  obtain ⟨hie, hother, hpriv⟩ := h.trapStack.leave_enter (l := l) (hu.1.trans (by rw [hst]))
  rw [← hst'] at hie hother hpriv
  exact ⟨s', he, by rw [hpc', hu.2, hpc], hpriv, hie, hother, hepc⟩

end

/-- Trap and return are inverse, for every hart and every exception or interrupt, whatever is delegated:
after a handler that leaves the frames and the address it was given as they are, the matching return
goes back to the interrupted address and mode with the enable bit of the level restored and both bits
of the other level as they were; and of a trap to S that is itself interrupted by a trap to M, the two
returns in reverse order restore the address, the mode and both enable bits. -/
theorem trap_return_inverse {β : Type} [Bus β] (h : Hart) (cause tval : U32) (interrupt : Bool)
    (s : Sys β) :
    (∀ pc ilen iword : U32,
      Hart.Untouched (h.trapLevel cause interrupt) (h.takeTrap cause tval interrupt) s.hart →
      (h.trapLevel cause interrupt).priv.level ≤ s.hart.privilege.level →
      ∃ s', execOne (h.trapLevel cause interrupt).returnInst pc ilen iword s = (.ok .continue, s') ∧
        s'.hart.pc = h.pc ∧ s'.hart.privilege = h.privilege ∧
        (s'.hart.trapStack.frames (h.trapLevel cause interrupt)).ie =
          (h.trapStack.frames (h.trapLevel cause interrupt)).ie ∧
        ∀ l, l ≠ h.trapLevel cause interrupt →
          (s'.hart.trapStack.frames l).ie = (h.trapStack.frames l).ie ∧
          (s'.hart.trapStack.frames l).pie = (h.trapStack.frames l).pie) ∧
    ∀ (h₁ : Hart) (cause₁ tval₁ : U32) (interrupt₁ : Bool) (pc ilen iword : U32),
      h.trapLevel cause interrupt = .s →
      Hart.Untouched .s (h.takeTrap cause tval interrupt) h₁ →
      h₁.trapLevel cause₁ interrupt₁ = .m →
      (∀ l, Hart.Untouched l (h₁.takeTrap cause₁ tval₁ interrupt₁) s.hart) →
      s.hart.privilege = .m →
      ∃ s', execOne .mret pc ilen iword s = (.ok .continue, s') ∧
        ∀ (t : Sys β) (pc ilen iword : U32), Hart.Untouched .s s'.hart t.hart →
          Priv.s.level ≤ t.hart.privilege.level →
          ∃ t', execOne .sret pc ilen iword t = (.ok .continue, t') ∧
            t'.hart.pc = h.pc ∧ t'.hart.privilege = h.privilege ∧
            ∀ l, (t'.hart.trapStack.frames l).ie = (h.trapStack.frames l).ie := by
  refine ⟨fun pc ilen iword hu hp => ?_, fun h₁ cause₁ tval₁ interrupt₁ pc ilen iword hs hu₁ hm hu hp => ?_⟩
  · obtain ⟨s', he, hpc, hpr, hie, hother, -⟩ := return_takeTrap pc ilen iword hu hp
    refine ⟨s', he, hpc, hpr, hie, fun l hl => ?_⟩
    rw [hother l hl]
    exact ⟨rfl, rfl⟩
  · obtain ⟨hst, hpc, -⟩ := h.takeTrap_stack cause tval interrupt
    obtain ⟨-, -, hepc₁⟩ := h₁.takeTrap_stack cause₁ tval₁ interrupt₁
    rw [hs] at hst hpc
    obtain ⟨s', he, -, -, hie', hother', hepc'⟩ := return_takeTrap (h := h₁)
      pc ilen iword (s := s) (hu _) (by rw [hm, hp]; decide)
    rw [hm] at he hie' hother' hepc₁
    refine ⟨s', he, fun t pc ilen iword ht hpt => ?_⟩
    have hframe : t.hart.trapStack.frames .s = ⟨false, (h.trapStack.frames .s).ie, h.privilege⟩ := by
      rw [ht.1, hother' .s nofun, hu₁.1, hst]
      exact h.trapStack.enter_self
    have hframe' : (t.hart.trapStack.frames .m).ie = (h.trapStack.frames .m).ie := by
      rw [ht.1, hie', hu₁.1, hst, TrapStack.enter_of_ne _ (by decide)]
    have haddr : t.hart.epc .s = h.pc := by
      rw [ht.2, hepc', (hu .s).2, hepc₁ .s nofun, hu₁.2, hpc]
    obtain ⟨t', he', hpc', hst', -⟩ := execOne_return .s pc ilen iword hpt
    refine ⟨t', he', hpc'.trans haddr, ?_, fun l => ?_⟩
    · have hpriv := congrArg TrapStack.priv hst'
      rw [TrapStack.leave, hframe] at hpriv
      exact hpriv
    · rw [hst']
      cases l with
      | s => rw [TrapStack.leave_self, hframe]
      | m => rw [TrapStack.leave_of_ne _ (by decide), hframe']

/-- An `ecall` from U that is delegated to S, and a fault of its handler that goes to M. -/
theorem trap_return_inverse_ecall :
    let h : Hart := { Hart.new 0x80000000 with
      privilege := .u, csr := { Csr.default with medeleg := 0x100, mstatus := MSTATUS_SIE } }
    let h₁ := h.takeTrap E_ECALL_U 0 false
    let s : Sys Mmu := ⟨{ h₁ with tlb := .new }, .new 0x80000000 16⟩
    let t : Sys Mmu := ⟨{ h₁.takeTrap E_LOAD_ACCESS 0 false with tlb := .new }, .new 0x80000000 16⟩
    (∃ s', execOne .sret 0 4 0 s = (.ok .continue, s') ∧ s'.hart.pc = 0x80000000 ∧
      s'.hart.privilege = .u) ∧
    ∃ t', execOne .mret 0 4 0 t = (.ok .continue, t') ∧
      ∃ t'', execOne .sret 0 4 0 t' = (.ok .continue, t'') ∧ t''.hart.pc = 0x80000000 ∧
        t''.hart.privilege = .u := by
  intro h h₁ s t
  have hl : h.trapLevel E_ECALL_U false = .s := by decide
  have hl₁ : h₁.trapLevel E_LOAD_ACCESS false = .m := by decide
  refine ⟨?_, ?_⟩
  · obtain ⟨s', he, hpc, hp, -⟩ := (trap_return_inverse h E_ECALL_U 0 false s).1 0 4 0
      ⟨rfl, rfl⟩ (by rw [hl]; decide)
    rw [hl] at he
    exact ⟨s', he, hpc, hp⟩
  · obtain ⟨t', he, hback⟩ := (trap_return_inverse h E_ECALL_U 0 false t).2 h₁ E_LOAD_ACCESS 0 false
      0 4 0 hl ⟨rfl, rfl⟩ hl₁ (fun l => ⟨rfl, rfl⟩) (by decide)
    have ht : t' = (execOne .mret 0 4 0 t).2 := by rw [he]
    have hp : Priv.s.level ≤ t'.hart.privilege.level := by
      rw [ht]
      decide
    obtain ⟨t'', he', hpc, hpr, -⟩ := hback t' 0 4 0 ⟨rfl, rfl⟩ hp
    exact ⟨t', he, t'', he', hpc, hpr⟩

end FuzzSoft
