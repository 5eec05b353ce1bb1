import FuzzSoft.Riscv.ExecSim
import FuzzSoft.Riscv.TaintBytes

/-!
# Harts that agree where they are untainted

Two harts that track taint are twins when they agree in everything but tainted bytes of registers and
what the observing harnesses logged (`HartTwins`). What an update of the hart needs to keep them twins
is said once for the updates that leave the registers alone (`HartTwins.map`) and once for a register
write (`HartTwins.wrTainted`).
-/

namespace FuzzSoft

open Lib

/-- The hart without its registers and its logs. -/
def Hart.frame (h : Hart) : Hart := { h with regs := fun _ => 0, cmplog := none, ubsan := none }

/-- KMSAN is on, and the harts agree but for tainted bytes of registers and their logs. -/
structure HartTwins (h h' : Hart) : Prop where
  frame : h'.frame = h.frame
  kmsan : h.kmsanEnabled = true
  bytes : ∀ i, ByteEq (h.rdTaint i) (h.rdReg i) (h'.rdReg i)

namespace Hart

variable {h : Hart}

/-- A register is read off the registers. -/
theorem rdReg_congr {k : Hart} (hr : k.regs = h.regs) (i : Reg) : k.rdReg i = h.rdReg i := by
  rw [rdReg, rdReg, hr]

/-- Its taint is read off the taints. -/
theorem rdTaint_congr {k : Hart} (ht : k.regsTaint = h.regsTaint) (i : Reg) :
    k.rdTaint i = h.rdTaint i := by
  rw [rdTaint, rdTaint, ht]

/-- A write of a known value is one with the empty mask. -/
theorem wrClean_eq (h : Hart) (rd : Reg) (v : U32) : h.wrClean rd v = h.wrTainted rd v 0 := by
  obtain ⟨regs, pc, htif, retired, res, priv, csr, eid, cmplog, ubsan, taint, trap, hit⟩ := h
  unfold wrClean wrTainted wrReg wrTaint
  split
  · rfl
  · cases taint <;> rfl

/-- A register after a write. -/
theorem rdReg_wrReg (h : Hart) (rd : Reg) (v : U32) (i : Reg) :
    (h.wrReg rd v).rdReg i = if i = rd ∧ rd ≠ 0 then v else h.rdReg i := by
  unfold rdReg wrReg
  by_cases hrd : rd = 0
  · subst hrd
    simp
  · rw [if_neg hrd]
    dsimp only
    by_cases hi : i = rd
    · subst hi
      rw [if_neg hrd, if_pos ⟨rfl, hrd⟩, Function.update_self]
    · rw [Function.update_of_ne hi, if_neg (show ¬ (i = rd ∧ rd ≠ 0) from fun h => hi h.1)]

/-- A taint leaves the registers. -/
theorem rdReg_wrTaint (h : Hart) (rd : Reg) (t : U32) (i : Reg) :
    (h.wrTaint rd t).rdReg i = h.rdReg i := by
  refine rdReg_congr ?_ i
  unfold wrTaint
  split
  · rfl
  · split <;> rfl

/-- A taint after a write. -/
theorem rdTaint_wrTaint (hk : h.kmsanEnabled = true) (rd : Reg) (t : U32) (i : Reg) :
    (h.wrTaint rd t).rdTaint i = if i = rd ∧ rd ≠ 0 then t else h.rdTaint i := by
  obtain ⟨taint, ht⟩ := Option.isSome_iff_exists.1 hk
  unfold rdTaint wrTaint
  by_cases hrd : rd = 0
  · subst hrd
    simp
  · rw [if_neg hrd, ht]
    dsimp only
    by_cases hi : i = rd
    · subst hi
      rw [if_neg hrd, if_pos ⟨rfl, hrd⟩, Function.update_self]
    · rw [Function.update_of_ne hi, if_neg (show ¬ (i = rd ∧ rd ≠ 0) from fun h => hi h.1)]

/-- A register write leaves the frame. -/
theorem frame_wrReg (h : Hart) (rd : Reg) (v : U32) : (h.wrReg rd v).frame = h.frame := by
  unfold wrReg
  split <;> rfl

/-- A taint is written in the frame. -/
theorem frame_wrTaint (h : Hart) (rd : Reg) (t : U32) :
    (h.wrTaint rd t).frame = h.frame.wrTaint rd t := by
  obtain ⟨regs, pc, htif, retired, res, priv, csr, eid, cmplog, ubsan, taint, trap, hit⟩ := h
  unfold wrTaint
  split
  · rfl
  · cases taint <;> rfl

end Hart

namespace HartTwins

variable {h h' : Hart} (ht : HartTwins h h')
include ht

/-- What neither the registers nor the logs show is the same. -/
theorem view {φ : Type} {p : Hart → φ} (hp : ∀ h : Hart, p h.frame = p h) : p h' = p h := by
  rw [← hp h', ht.frame, hp]

/-- Twins have the same taints. -/
theorem rdTaint (i : Reg) : h'.rdTaint i = h.rdTaint i :=
  ht.view (p := fun h => h.rdTaint i) fun _ => rfl

/-- A register without a tainted byte has the same value. -/
theorem eq_of_untainted {i : Reg} (hu : Untainted (h.rdTaint i)) : h'.rdReg i = h.rdReg i :=
  ((ht.bytes i).eq_of_clean hu).symm

/-- Harts with the registers of twins, and with one frame, are twins. -/
theorem of_frame {k k' : Hart} (hf : k'.frame = k.frame) (hr : k.regs = h.regs)
    (hr' : k'.regs = h'.regs) (hk : k.regsTaint = h.regsTaint) : HartTwins k k' where
  frame := hf
  kmsan := by
    rw [Hart.kmsanEnabled, hk]
    exact ht.kmsan
  bytes i := by
    rw [Hart.rdTaint_congr hk, Hart.rdReg_congr hr, Hart.rdReg_congr hr']
    exact ht.bytes i

/-- An update that leaves the registers and their taint alone. -/
theorem map {f : Hart → Hart} (hf : ∀ h, (f h).frame = (f h.frame).frame)
    (hr : ∀ h, (f h).regs = h.regs) (hk : ∀ h, (f h).regsTaint = h.regsTaint) :
    HartTwins (f h) (f h') :=
  ht.of_frame (by rw [hf h', ht.frame, ← hf h]) (hr h) (hr h') (hk h)

/-- A new mask for a register may leave out no byte that was tainted. -/
theorem wrTaint {rd : Reg} {t : U32}
    (hm : rd ≠ 0 → ∀ i < 4, taintBit (h.rdTaint rd) i = true → taintBit t i = true) :
    HartTwins (h.wrTaint rd t) (h'.wrTaint rd t) where
  frame := by rw [Hart.frame_wrTaint, Hart.frame_wrTaint, ht.frame]
  kmsan := by
    rw [Hart.kmsanEnabled, Hart.wrTaint_isSome]
    exact ht.kmsan
  bytes i := by
    rw [Hart.rdTaint_wrTaint ht.kmsan, Hart.rdReg_wrTaint, Hart.rdReg_wrTaint]
    split
    next hi =>
      obtain ⟨rfl, h0⟩ := hi
      intro j hj hc
      refine ht.bytes i j hj ?_
      by_contra hne
      rw [hm h0 j hj (by simpa using hne)] at hc
      cases hc
    next => exact ht.bytes i

/-- Values that agree where the mask is clear keep twins. -/
theorem wrTainted {rd : Reg} {t v w : U32} (hv : rd ≠ 0 → ByteEq t v w) :
    HartTwins (h.wrTainted rd v t) (h'.wrTainted rd w t) where
  frame := by
    rw [Hart.wrTainted, Hart.wrTainted, Hart.frame_wrReg, Hart.frame_wrReg, Hart.frame_wrTaint,
      Hart.frame_wrTaint, ht.frame]
  kmsan := by
    rw [Hart.kmsanEnabled, Hart.wrTainted_isSome]
    exact ht.kmsan
  bytes i := by
    rw [Hart.wrTainted, Hart.wrTainted, Hart.rdReg_wrReg, Hart.rdReg_wrReg, Hart.rdReg_wrTaint,
      Hart.rdReg_wrTaint, Hart.rdTaint_congr (Hart.wrReg_regsTaint _ _ _),
      Hart.rdTaint_wrTaint ht.kmsan]
    split
    next hi => exact hv hi.2
    next => exact ht.bytes i

/-- So does a known value. -/
theorem wrClean (rd : Reg) (v : U32) : HartTwins (h.wrClean rd v) (h'.wrClean rd v) := by
  rw [Hart.wrClean_eq, Hart.wrClean_eq]
  exact ht.wrTainted fun _ => .refl 0 v

/-! ## Logs -/

/-- The logs may differ. -/
theorem logCmp (a b a' b' : U32) : HartTwins (h.logCmp a b) (h'.logCmp a' b') := by
  have key : ∀ (h : Hart) a b, (h.logCmp a b).frame = h.frame ∧ (h.logCmp a b).regs = h.regs := by
    intro h a b
    unfold Hart.logCmp
    split
    · split <;> exact ⟨rfl, rfl⟩
    · exact ⟨rfl, rfl⟩
  obtain ⟨hf, hr⟩ := key h a b
  obtain ⟨hf', hr'⟩ := key h' a' b'
  exact ht.of_frame (by rw [hf, hf', ht.frame]) hr hr' (Hart.logCmp_regsTaint _ _ _)

/-- One of the harts may log a division that the other does not. -/
theorem logUbsan (pc : U32) (p q : Prop) [Decidable p] [Decidable q] :
    HartTwins (if p then h.logUbsan pc else h) (if q then h'.logUbsan pc else h') := by
  have key : ∀ (h : Hart) (p : Prop) [Decidable p],
      (if p then h.logUbsan pc else h).frame = h.frame ∧
        (if p then h.logUbsan pc else h).regs = h.regs ∧
        (if p then h.logUbsan pc else h).regsTaint = h.regsTaint := by
    intro h p _
    unfold Hart.logUbsan
    split
    · split
      · split <;> exact ⟨rfl, rfl, rfl⟩
      · exact ⟨rfl, rfl, rfl⟩
    · exact ⟨rfl, rfl, rfl⟩
  obtain ⟨hf, hr, hk⟩ := key h p
  obtain ⟨hf', hr', -⟩ := key h' q
  exact ht.of_frame (by rw [hf, hf', ht.frame]) hr hr' hk

/-! ## Control -/

/-- Both retire. -/
theorem retire (next : U32) : HartTwins (h.retire next) (h'.retire next) :=
  ht.map (f := fun h => h.retire next) (fun _ => rfl) (fun _ => rfl) fun _ => rfl

/-- Both take the same reservation. -/
theorem reserve (r : Option U32) :
    HartTwins { h with reservation := r } { h' with reservation := r } :=
  ht.map (f := fun h => { h with reservation := r }) (fun _ => rfl) (fun _ => rfl) fun _ => rfl

/-- Both take the same CSR file. -/
theorem setCsr (c : Csr) : HartTwins { h with csr := c } { h' with csr := c } :=
  ht.map (f := fun h => { h with csr := c }) (fun _ => rfl) (fun _ => rfl) fun _ => rfl

/-- Both return from M-mode. -/
theorem mret : HartTwins h.mret h'.mret :=
  ht.map (f := Hart.mret) (fun _ => rfl) (fun _ => rfl) fun _ => rfl

/-- Both return from S-mode. -/
theorem sret : HartTwins h.sret h'.sret :=
  ht.map (f := Hart.sret) (fun _ => rfl) (fun _ => rfl) fun _ => rfl

/-- Both update their timers. -/
theorem updateTimers : HartTwins h.updateTimers h'.updateTimers :=
  ht.map (f := Hart.updateTimers) (fun _ => rfl) (fun _ => rfl) fun _ => rfl

/-- Both take the same trap. -/
theorem takeTrap (cause tval : U32) (interrupt : Bool) :
    HartTwins (h.takeTrap cause tval interrupt) (h'.takeTrap cause tval interrupt) := by
  refine ht.map (f := fun h => h.takeTrap cause tval interrupt) (fun h => ?_) (fun h => ?_) fun h => ?_
  · unfold Hart.takeTrap Hart.frame
    dsimp only
    generalize (if interrupt then h.csr.mideleg else h.csr.medeleg) = deleg
    split <;> rfl
  · obtain ⟨csr, p, pc, he⟩ := h.takeTrap_eq cause tval interrupt
    rw [he]
  · exact h.takeTrap_regsTaint cause tval interrupt

/-- Both poll with the same outcome. -/
theorem pollInterrupt : h'.pollInterrupt.1 = h.pollInterrupt.1 ∧
    HartTwins h.pollInterrupt.2 h'.pollInterrupt.2 := by
  have hu := ht.updateTimers
  have hp : h'.updateTimers.pendingInterrupt = h.updateTimers.pendingInterrupt :=
    hu.view fun _ => rfl
  unfold Hart.pollInterrupt
  dsimp only
  rw [hp]
  cases h.updateTimers.pendingInterrupt with
  | none => exact ⟨rfl, hu⟩
  | some code => exact ⟨rfl, hu.takeTrap _ _ _⟩

end HartTwins

end FuzzSoft
