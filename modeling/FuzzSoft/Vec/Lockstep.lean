import FuzzSoft.Vec.Independent
import FuzzSoft.Vec.Step

/-!
# The packed step is the lane loop

Every active lane of a converged group fetches the instruction the group fetched
(`fetchLane_of_converged`), and a packed step does to it what its own step does, with the other lanes
left alone (`Packed`). `x0` is read from its row like any other register, which is why the row must
hold zeros.
-/

namespace FuzzSoft

open Lib

namespace VecState

/-! ## The shared fetch -/

/-- Converged lanes are at the `pc` of the first. -/
theorem lanesConverged_spec {c : VecCpu} {first : Lane} (h : c.firstActive = some first)
    (hc : c.lanesConverged = true) {l : Lane} (hl : c.active l = true) : c.pc l = c.pc first := by
  rw [VecCpu.lanesConverged, h] at hc
  have := List.all_eq_true.1 hc l (List.mem_finRange l)
  simpa [hl] using this

/-- A shared half-word is the half-word of every active lane. -/
theorem ifetch16Lane_of_same {m : VecMmu} {a : U32} {active : Simd Bool} {vs : Simd U32}
    (h : m.ifetch16Same a active = some vs) {l : Lane} (hl : active l = true) :
    m.ifetch16Lane l a = .ok ((vs l).setWidth 16) ∧ ((vs l).setWidth 16).setWidth 32 = vs l := by
  refine ⟨VecMmu.ifetch16Lane_eq_ok.2 (VecMmu.ifetch16Same_eq h hl), ?_⟩
  obtain ⟨⟨word, off⟩, hc, rfl⟩ := Option.map_eq_some_iff.1 h
  have hn : AccessSize 2 := .inr (.inl rfl)
  obtain ⟨ha, hw, -⟩ := (VecMmu.checkSame_eq_some hn).1 hc
  have hx : VecMmu.extract off 2 (VecMmu.line m.content word l) =
      leValue (readSpan (m.lane l).mem (4 * word + off) 2) := VecMmu.extract_lane hn ha hw
  dsimp only
  rw [hx]
  exact leValue_setWidth rfl

/-- The length test on a halfword. -/
theorem low_bits (lo : U16) : lo.setWidth 32 &&& (3 : U32) = 3 ↔ lo &&& 3 = 3 := by
  constructor
  · intro h
    have := congrArg (BitVec.setWidth 16) h
    simpa using this
  · intro h
    have := congrArg (BitVec.setWidth 32) h
    simpa using this

/-- The lanes agree with the first one on a line. -/
theorem agree_of_not_any {active : Simd Bool} {vs : Simd U32} {v : U32}
    (h : ¬anyLane (fun l => active l && !(vs l = v)) = true) {l : Lane} (hl : active l = true) :
    vs l = v := by
  rw [Bool.not_eq_true, anyLane_eq_false] at h
  simpa [hl] using h l

/-- Every active lane fetches what the group fetched. -/
theorem fetchLane_of_converged {s : VecState} {pc iword ilen : U32} {active : Simd Bool} {first : Lane}
    (h : fetchConverged s.mmu pc active first = some (iword, ilen)) {l : Lane}
    (hl : active l = true) : s.fetchLane l pc = .ok
      ⟨if ilen = 2 then decodeCompressed (iword.setWidth 16) else decode iword, ilen, iword⟩ := by
  unfold fetchConverged at h
  simp only [Option.bind_eq_bind, Option.bind_eq_some_iff] at h
  obtain ⟨lo, hlo, h⟩ := h
  obtain ⟨hf, hw⟩ := ifetch16Lane_of_same hlo hl
  split at h
  · cases h
  next hagree =>
  have he := agree_of_not_any hagree hl
  rw [he] at hf hw
  rw [fetchLane, hf]
  dsimp only
  have hbits := low_bits ((lo first).setWidth 16)
  rw [hw] at hbits
  split at h
  next h3 =>
    cases h
    rw [if_pos fun h => h3 (hbits.2 h), if_pos rfl, hw]
  next h3 =>
    rw [if_neg fun h' => h' (hbits.1 (not_not.1 h3))]
    obtain ⟨hi, hhi, h⟩ := Option.bind_eq_some_iff.1 h
    obtain ⟨hf', hw'⟩ := ifetch16Lane_of_same hhi hl
    split at h
    · cases h
    next hagree' =>
    cases h
    have he' := agree_of_not_any hagree' hl
    rw [he'] at hf' hw'
    rw [hf']
    dsimp only
    rw [hw, hw', if_neg (by decide)]

/-! ## Packed operations -/

/-- The packed ALU is the ALU. -/
theorem simdAlu_eq (op : AluOp) (a b : U32) : simdAlu op a b = alu op a b := by
  cases op <;> rfl

/-- The packed branch condition is the branch condition. -/
theorem simdBranchTaken_eq (op : BranchOp) (a b : U32) : simdBranchTaken op a b = branchTaken op a b := by
  cases op <;> simp [simdBranchTaken, branchTaken, BitVec.sle_eq_not_slt]

/-- Two shifts of a packed register extend the sign of its low bits. -/
theorem signExtendSimd_eq (raw : U32) {k : Nat} (hk : 0 < k) (hk' : k ≤ 32) :
    signExtendSimd raw k = (raw.setWidth k).signExtend 32 := by
  apply BitVec.eq_of_getLsbD_eq
  intro i hi
  rw [signExtendSimd, BitVec.getLsbD_sshiftRight, BitVec.getLsbD_signExtend, BitVec.msb_shiftLeft,
    BitVec.msb_setWidth]
  simp only [BitVec.getLsbD_shiftLeft, BitVec.getLsbD_setWidth]
  by_cases h : i < k
  · simp [hi, h, show ¬32 ≤ i by omega, show 32 - k + i < 32 by omega]
  · simp [hi, h, hk, show ¬32 ≤ i by omega, show ¬32 - k + i < 32 by omega, BitVec.getMsbD,
      show 32 - k < 32 by omega, show 31 - (32 - k) = k - 1 by omega]

/-- The packed extension of a loaded value. -/
theorem extendSame_eq (op : LoadOp) (raw : U32) :
    (if op.signed then
      match op.size with
      | 1 => signExtendSimd raw 8
      | 2 => signExtendSimd raw 16
      | _ => raw
    else raw) = extendLoad raw op.size op.signed := by
  cases op <;> simp [LoadOp.signed, LoadOp.size, extendLoad, signExtendSimd_eq]

/-! ## Packed writes -/

section
variable (s : VecState) (l : Lane) (mask : Simd Bool)

/-- A register write in the lanes of a mask. -/
theorem view_setRd (rd : Reg) (v : Simd U32) :
    (s.setRd rd mask v).view l = if mask l then (s.view l).wrReg rd (v l) else s.view l := by
  unfold setRd LaneView.wrReg
  by_cases hrd : rd = 0
  · simp [hrd]
  · rw [if_neg hrd, if_neg hrd]
    have hregs : (fun i => Function.update s.cpu.regs rd (select mask v (s.cpu.regs rd)) i l) =
        if mask l then Function.update (fun i => s.cpu.regs i l) rd (v l)
        else fun i => s.cpu.regs i l := by
      funext i
      by_cases hi : i = rd
      · subst hi
        cases hl : mask l <;> simp [select, hl]
      · cases hl : mask l <;> simp [Function.update_of_ne hi]
    simp only [view, hregs]
    split <;> rfl

/-- A write of the `pc` in the lanes of a mask. -/
theorem view_setPc (next : Simd U32) :
    (s.setPc mask next).view l = if mask l then { s.view l with pc := next l } else s.view l := by
  simp only [setPc, view, select]
  split <;> rfl

/-- Counting in the lanes of a mask. -/
theorem view_retireActive : (s.retireActive mask).view l =
    if mask l then { s.view l with insnsRetired := (s.view l).insnsRetired + 1 } else s.view l := by
  simp only [retireActive, view, select]
  split <;> rfl

@[simp] theorem view_count (f : VecCpu.Counters → VecCpu.Counters) :
    (s.count f).view l = s.view l := rfl

@[simp] theorem pc_setRd (rd : Reg) (v : Simd U32) : (s.setRd rd mask v).cpu.pc = s.cpu.pc := by
  unfold setRd
  split <;> rfl

/-- The tail of a packed step advances and counts the lanes of its mask. -/
theorem view_finish (next : Simd U32) (f : VecCpu.Counters → VecCpu.Counters) :
    (((s.setPc mask next).retireActive mask).count f).view l =
      if mask l then (s.view l).retire (next l) else s.view l := by
  rw [view_count, view_retireActive, view_setPc]
  split <;> rfl

end

/-- A packed step that went ahead: each active lane is as after its own step, the others as before. -/
def Packed (s : VecState) (r : Bool × VecState) : Prop :=
  r.1 = true ∧ ∀ l, r.2.view l = if s.cpu.active l then (s.stepLane l).view l else s.view l

/-- The step of a lane whose fetch is known. -/
theorem stepLane_of_exec {s t : VecState} {l : Lane} {f : Fetched} {next : U32}
    (hf : s.fetchLane l (s.cpu.pc l) = .ok f)
    (hx : s.execLane l f.inst (s.cpu.pc l) (s.cpu.pc l + f.ilen) f.iword = .ok (next, t)) :
    (s.stepLane l).view l = (t.view l).retire next := by
  rw [stepLane, hf]
  dsimp only
  rw [hx]
  exact view_retire t l next

/-- A lane whose instruction stops halts. -/
theorem stepLane_of_stop {s : VecState} {l : Lane} {f : Fetched} {e : VecCpu.LaneExit}
    (hf : s.fetchLane l (s.cpu.pc l) = .ok f)
    (hx : s.execLane l f.inst (s.cpu.pc l) (s.cpu.pc l + f.ilen) f.iword = .error e) :
    (s.stepLane l).view l = (s.view l).halt e := by
  rw [stepLane, hf]
  dsimp only
  rw [hx]
  exact view_halt s l e

/-- Every active lane is at this instruction. -/
def Fetches (s : VecState) (f : Fetched) : Prop :=
  ∀ l, s.cpu.active l = true → s.fetchLane l (s.cpu.pc l) = .ok f

section
variable {s : VecState} (hz : ∀ l, s.cpu.regs 0 l = 0) {inst : Inst} {ilen iword : U32}
  (hf : s.Fetches ⟨inst, ilen, iword⟩)

/-- A row of registers is what the lanes read. -/
theorem regs_eq (hz : ∀ l, s.cpu.regs 0 l = 0) (i : Reg) (l : Lane) : s.cpu.regs i l = s.rdReg l i := by
  rw [rdReg, VecCpu.rdReg]
  split
  next h => rw [h, hz]
  next => rfl

include hf

/-- A packed step that writes a register. -/
theorem packed_write {rd : Reg} {v next : Simd U32} (f : VecCpu.Counters → VecCpu.Counters)
    (hx : ∀ l, s.cpu.active l = true → s.execLane l inst (s.cpu.pc l) (s.cpu.pc l + ilen) iword =
      .ok (next l, s.wrReg l rd (v l))) :
    Packed s (true, ((((s.setRd rd s.cpu.active v).setPc s.cpu.active next).retireActive
      s.cpu.active).count f)) := by
  refine ⟨rfl, fun l => ?_⟩
  rw [view_finish, view_setRd]
  cases hl : s.cpu.active l with
  | false => rfl
  | true =>
    rw [if_pos rfl, if_pos rfl, if_pos rfl, stepLane_of_exec (hf l hl) (hx l hl), view_wrReg]

/-- The packed `lui` follows the lanes. -/
theorem packed_lui {rd : Reg} {imm : U32} (hi : inst = .lui rd imm) :
    Packed s (s.trySimdLui rd imm ilen s.cpu.active) := by
  subst hi
  simp only [trySimdLui, advancePcConverged, pc_setRd]
  exact packed_write hf _ fun l _ => rfl

/-- The packed `auipc` follows the lanes. -/
theorem packed_auipc {rd : Reg} {imm : U32} (hi : inst = .auipc rd imm) :
    Packed s (s.trySimdAuipc rd imm ilen s.cpu.active) := by
  subst hi
  simp only [trySimdAuipc, advancePcConverged, pc_setRd]
  exact packed_write hf _ fun l _ => rfl

/-- The packed `jal` follows the lanes. -/
theorem packed_jal {rd : Reg} {imm : U32} (hi : inst = .jal rd imm) :
    Packed s (s.trySimdJal rd imm ilen s.cpu.active) := by
  subst hi
  exact packed_write hf _ fun l _ => rfl

include hz

/-- The packed arithmetic with an immediate follows the lanes. -/
theorem packed_opImm {op : AluOp} {rd rs1 : Reg} {imm : U32} (hi : inst = .opImm op rd rs1 imm) :
    Packed s (s.trySimdAlu op rd rs1 (fun _ => imm) ilen s.cpu.active) := by
  subst hi
  simp only [trySimdAlu, advancePcConverged, pc_setRd, simdAlu_eq, regs_eq hz]
  exact packed_write hf _ fun l _ => rfl

/-- The packed arithmetic follows the lanes. -/
theorem packed_op {op : AluOp} {rd rs1 rs2 : Reg} (hi : inst = .op op rd rs1 rs2) :
    Packed s (s.trySimdAlu op rd rs1 (s.cpu.regs rs2) ilen s.cpu.active) := by
  subst hi
  simp only [trySimdAlu, advancePcConverged, pc_setRd, simdAlu_eq, regs_eq hz]
  exact packed_write hf _ fun l _ => rfl

/-- The packed M-extension follows the lanes. -/
theorem packed_mul {op : MulOp} {rd rs1 rs2 : Reg} (hi : inst = .mul op rd rs1 rs2) :
    Packed s (s.trySimdMul op rd rs1 rs2 ilen s.cpu.active) := by
  subst hi
  simp only [trySimdMul, advancePcConverged, pc_setRd, regs_eq hz]
  exact packed_write hf _ fun l hl => by rw [if_pos hl]; rfl

/-- The packed `jalr` follows the lanes. -/
theorem packed_jalr {rd rs1 : Reg} {imm : U32} (hi : inst = .jalr rd rs1 imm) :
    Packed s (s.trySimdJalr rd rs1 imm ilen s.cpu.active) := by
  subst hi
  simp only [trySimdJalr, regs_eq hz]
  exact packed_write hf _ fun l _ => rfl

/-- The packed branch follows the lanes. -/
theorem packed_branch {op : BranchOp} {rs1 rs2 : Reg} {imm : U32}
    (hi : inst = .branch op rs1 rs2 imm) :
    Packed s (s.trySimdBranch op rs1 rs2 imm ilen s.cpu.active) := by
  subst hi
  refine ⟨rfl, fun l => ?_⟩
  simp only [trySimdBranch, countBranch, view_finish]
  cases hl : s.cpu.active l with
  | false => rfl
  | true =>
    rw [if_pos rfl, if_pos rfl]
    refine (stepLane_of_exec (hf l hl) rfl).symm ▸ ?_
    simp only [select, simdBranchTaken_eq, regs_eq hz]

/-! ### Loads -/

end

/-- What a lane sees of a gathering loop. -/
def Gathered.view (l : Lane) (g : Gathered) : LaneView × U32 × Bool :=
  (g.state.view l, g.values l, g.succeeded l)

/-- The loop of a gathering load, seen from one lane. -/
theorem view_gatherLoad (active : Simd Bool) (raws : Simd U32) (ok : Simd Bool) (addrs : Simd U32)
    (n : Nat) (signed : Bool) (g : Gathered) (l : Lane) :
    ((List.finRange LANES).foldl (gatherLoadLane active raws ok addrs n signed) g).view l =
      (gatherLoadLane active raws ok addrs n signed g l).view l := by
  refine @foldl_own _ _ _ Gathered.view _ ?_ ?_ _ (List.nodup_finRange LANES) l (List.mem_finRange l) g
  · intro g l l' hl
    unfold gatherLoadLane
    split
    · dsimp only
      split
      · simp only [Gathered.view, view_halt_of_ne _ hl, Function.update_of_ne hl]
      · simp only [Gathered.view, Function.update_of_ne hl]
    · rfl
  · intro g g' l h
    simp only [Gathered.view, Prod.mk.injEq] at h
    obtain ⟨hs, hv, hsuc⟩ := h
    have hm : g.state.mmu.view l = g'.state.mmu.view l := congrArg LaneView.mem hs
    unfold gatherLoadLane
    rw [VecMmu.loadLane_congr hm]
    split
    · dsimp only
      split
      · simp only [Gathered.view, view_halt, hs, hv, Function.update_self]
      · simp only [Gathered.view, hs, hsuc, Function.update_self]
    · simp only [Gathered.view, hs, hv, hsuc]

/-- A load is of one, two or four bytes. -/
theorem loadOp_size (op : LoadOp) : AccessSize op.size := by
  cases op
  · exact .inl rfl
  · exact .inr (.inl rfl)
  · exact .inr (.inr rfl)
  · exact .inl rfl
  · exact .inr (.inl rfl)

/-- What the gather serves is what the lane would load by itself. -/
theorem served_load {m : VecMmu} {addrs : Simd U32} {n : Nat} (hn : AccessSize n) (active : Simd Bool)
    (l : Lane) :
    (if (m.loadGatherFast addrs n active).2 l then .ok ((m.loadGatherFast addrs n active).1 l)
      else m.loadLane l (addrs l) n) = m.loadLane l (addrs l) n := by
  split
  next h => exact ((VecMmu.loadLane_eq_ok hn).2 (VecMmu.loadGatherFast_eq hn h)).symm
  next => rfl

section
variable {s : VecState} (hz : ∀ l, s.cpu.regs 0 l = 0) {inst : Inst} {ilen iword : U32}
  (hf : s.Fetches ⟨inst, ilen, iword⟩)
include hf

/-- The gathered load follows the lanes. -/
theorem packed_gatherLoad {op : LoadOp} {rd rs1 : Reg} {imm : U32} (hi : inst = .load op rd rs1 imm) :
    Packed s (s.trySimdGatherLoad rd ilen s.cpu.active (fun l => s.rdReg l rs1 + imm) op.size
      op.signed) := by
  subst hi
  refine ⟨rfl, fun l => ?_⟩
  have hg := view_gatherLoad s.cpu.active (s.mmu.loadGatherFast (fun l => s.rdReg l rs1 + imm) op.size
    s.cpu.active).1 (s.mmu.loadGatherFast (fun l => s.rdReg l rs1 + imm) op.size s.cpu.active).2
    (fun l => s.rdReg l rs1 + imm) op.size op.signed ⟨s, fun _ => 0, s.cpu.active⟩ l
  simp only [trySimdGatherLoad, countGather, advancePcConverged, pc_setRd]
  generalize (List.finRange LANES).foldl _ _ = g at hg ⊢
  rw [view_finish, view_setRd]
  unfold gatherLoadLane at hg
  rw [served_load (loadOp_size op)] at hg
  cases hl : s.cpu.active l with
  | false =>
    rw [hl, if_neg (by decide)] at hg
    simp only [Gathered.view, Prod.mk.injEq, hl] at hg
    obtain ⟨hv, -, hs⟩ := hg
    rw [hs, hv]
    rfl
  | true =>
    rw [hl, if_pos rfl] at hg
    rw [if_pos rfl]
    cases hld : s.mmu.loadLane l (s.rdReg l rs1 + imm) op.size with
    | error f =>
      rw [hld] at hg
      simp only [Gathered.view, Prod.mk.injEq, Function.update_self, view_halt] at hg
      obtain ⟨hv, -, hs⟩ := hg
      rw [hs, hv]
      refine (stepLane_of_stop (hf l hl) ?_).symm
      simp only [execLane, hld]
    | ok raw =>
      rw [hld] at hg
      simp only [Gathered.view, Prod.mk.injEq, Function.update_self, hl] at hg
      obtain ⟨hv, hval, hs⟩ := hg
      have hpc : g.state.cpu.pc l = s.cpu.pc l := congrArg LaneView.pc hv
      rw [hs, if_pos rfl, if_pos rfl, hv, hval, hpc]
      have hx : s.execLane l (.load op rd rs1 imm) (s.cpu.pc l) (s.cpu.pc l + ilen) iword =
          .ok (s.cpu.pc l + ilen, s.wrReg l rd (extendLoad raw op.size op.signed)) := by
        simp only [execLane, hld]
      rw [stepLane_of_exec (hf l hl) hx, view_wrReg]

include hz

/-- The packed load follows the lanes, at one address or gathered. -/
theorem packed_load {op : LoadOp} {rd rs1 : Reg} {imm : U32} {first : Lane}
    (hi : inst = .load op rd rs1 imm) :
    Packed s (s.trySimdLoad op rd rs1 imm ilen s.cpu.active first) := by
  have hgather := packed_gatherLoad hf hi
  subst hi
  simp only [trySimdLoad, regs_eq hz]
  split
  · exact hgather
  next hagree =>
  cases hld : s.mmu.loadSame (s.rdReg first rs1 + imm) op.size s.cpu.active with
  | none => exact hgather
  | some raw =>
    simp only [advancePcConverged, pc_setRd]
    refine packed_write hf _ fun l hl => ?_
    have ha : s.rdReg l rs1 + imm = s.rdReg first rs1 + imm :=
      @agree_of_not_any _ (fun l => s.rdReg l rs1 + imm) _ hagree l hl
    have hv := (VecMmu.loadLane_eq_ok (loadOp_size op)).2
      (VecMmu.loadSame_eq (loadOp_size op) hld hl)
    simp only [execLane, ha, hv]
    exact congrArg (fun v => Except.ok (_, s.wrReg l rd v)) (extendSame_eq op (raw l)).symm

/-! ### Stores -/

end

/-- What a lane sees of a scattering loop. -/
def scatterView (l : Lane) (g : VecState × Simd Bool) : LaneView × Bool := (g.1.view l, g.2 l)

/-- A memory with the same view leaves the lane's. -/
theorem view_withMmu {s : VecState} {m : VecMmu} {l : Lane} (h : m.view l = s.mmu.view l) :
    ({ s with mmu := m } : VecState).view l = s.view l := by
  simp only [view, h]

/-- The loop of a scattering store, seen from one lane. -/
theorem view_scatterStore (active ok : Simd Bool) (addrs : Simd U32) (n : Nat) (vals : Simd U32)
    (g : VecState × Simd Bool) (l : Lane) :
    scatterView l ((List.finRange LANES).foldl (scatterStoreLane active ok addrs n vals) g) =
      scatterView l (scatterStoreLane active ok addrs n vals g l) := by
  refine @foldl_own _ _ _ scatterView _ ?_ ?_ _ (List.nodup_finRange LANES) l (List.mem_finRange l) g
  · intro g l l' hl
    have hm := g.1.mmu.view_storeLane_of_ne hl (addrs l) n (vals l)
    unfold scatterStoreLane
    split
    · rfl
    · split
      next he =>
        rw [he] at hm
        simp only [scatterView, view_halt_of_ne _ hl, Function.update_of_ne hl, view_withMmu hm]
      next he =>
        rw [he] at hm
        simp only [scatterView, view_withMmu hm]
  · intro g g' l h
    simp only [scatterView, Prod.mk.injEq] at h
    obtain ⟨hs, hsuc⟩ := h
    have hm : g.1.mmu.view l = g'.1.mmu.view l := congrArg LaneView.mem hs
    obtain ⟨h1, h2⟩ := VecMmu.view_storeLane_congr hm (addrs l) n (vals l)
    unfold scatterStoreLane
    split
    · simp only [scatterView, hs, hsuc]
    · rcases hst : g.1.mmu.storeLane l (addrs l) n (vals l) with ⟨r, m⟩
      rcases hst' : g'.1.mmu.storeLane l (addrs l) n (vals l) with ⟨r', m'⟩
      rw [hst, hst'] at h1 h2
      have hv : ({ g.1 with mmu := m } : VecState).view l = ({ g'.1 with mmu := m' } : VecState).view l := by
        show { g.1.view l with mem := m.view l } = { g'.1.view l with mem := m'.view l }
        rw [hs, show m.view l = m'.view l from h2]
      cases h1
      cases r with
      | error f => simp only [scatterView, view_halt, hv, Function.update_self]
      | ok u => simp only [scatterView, hv, hsuc]

/-- A store is of one, two or four bytes. -/
theorem storeOp_size (op : StoreOp) : AccessSize op.size := by
  cases op
  · exact .inl rfl
  · exact .inr (.inl rfl)
  · exact .inr (.inr rfl)

/-- A store of a lane as an instruction makes it. -/
theorem storeLane_ok {s : VecState} {l : Lane} {a v : U32} {n : Nat}
    (h : (s.mmu.storeLane l a n v).1 = .ok ()) :
    s.storeLane l a n v = .ok { s with mmu := (s.mmu.storeLane l a n v).2 } := by
  unfold storeLane
  rcases hst : s.mmu.storeLane l a n v with ⟨r, m⟩
  rw [hst] at h
  cases h
  rfl

/-- A refused store stops its lane. -/
theorem storeLane_stop {s : VecState} {l : Lane} {a v : U32} {n : Nat} {f : Fault}
    (h : (s.mmu.storeLane l a n v).1 = .error f) : s.storeLane l a n v = .error (.fault f) := by
  unfold storeLane
  rcases hst : s.mmu.storeLane l a n v with ⟨r, m⟩
  rw [hst] at h
  cases h
  rfl

/-- A store that fails leaves the memory as it is. -/
theorem storeLane_unchanged {m m' : VecMmu} {l : Lane} {a v : U32} {n : Nat} {f : Fault}
    (h : m.storeLane l a n v = (.error f, m')) : m' = m := by
  unfold VecMmu.storeLane at h
  split at h <;> cases h
  rfl

section
variable {s : VecState} (hz : ∀ l, s.cpu.regs 0 l = 0) {inst : Inst} {ilen iword : U32}
  (hf : s.Fetches ⟨inst, ilen, iword⟩)
include hf

/-- The step of a lane at a store that its memory grants. -/
theorem stepLane_store {op : StoreOp} {rs1 rs2 : Reg} {imm : U32} {l : Lane}
    (hi : inst = .store op rs1 rs2 imm) (hl : s.cpu.active l = true)
    (h : (s.mmu.storeLane l (s.rdReg l rs1 + imm) op.size (s.rdReg l rs2)).1 = .ok ()) :
    (s.stepLane l).view l = { s.view l with
      mem := (s.mmu.storeLane l (s.rdReg l rs1 + imm) op.size (s.rdReg l rs2)).2.view l }.retire
        (s.cpu.pc l + ilen) := by
  subst hi
  have hx : s.execLane l (.store op rs1 rs2 imm) (s.cpu.pc l) (s.cpu.pc l + ilen) iword =
      .ok (s.cpu.pc l + ilen, { s with
        mmu := (s.mmu.storeLane l (s.rdReg l rs1 + imm) op.size (s.rdReg l rs2)).2 }) := by
    simp only [execLane, storeLane_ok h]
  rw [stepLane_of_exec (hf l hl) hx]
  rfl

/-- The scattered store follows the lanes. -/
theorem packed_gatherStore {op : StoreOp} {rs1 rs2 : Reg} {imm : U32}
    (hi : inst = .store op rs1 rs2 imm) :
    Packed s (s.trySimdGatherStore ilen s.cpu.active (fun l => s.rdReg l rs1 + imm) op.size
      fun l => s.rdReg l rs2) := by
  refine ⟨rfl, fun l => ?_⟩
  have hn := storeOp_size op
  have hsc := @VecMmu.view_storeScatterFast s.mmu (fun l => s.rdReg l rs1 + imm)
    (fun l => s.rdReg l rs2) op.size s.cpu.active hn l
  have hserved := @VecMmu.storeScatterFast_served s.mmu (fun l => s.rdReg l rs1 + imm)
    (fun l => s.rdReg l rs2) op.size s.cpu.active hn l
  have hactive := fun h => ((@VecMmu.storeScatterFast_ok s.mmu (fun l => s.rdReg l rs1 + imm)
    (fun l => s.rdReg l rs2) op.size s.cpu.active hn l).1 h).1
  simp only [trySimdGatherStore, countGather, advancePcConverged]
  generalize s.mmu.storeScatterFast (fun l => s.rdReg l rs1 + imm) op.size (fun l => s.rdReg l rs2)
    s.cpu.active = r at hsc hserved hactive ⊢
  have hg := view_scatterStore s.cpu.active r.1 (fun l => s.rdReg l rs1 + imm) op.size
    (fun l => s.rdReg l rs2) ({ s with mmu := r.2 }, s.cpu.active) l
  generalize (List.finRange LANES).foldl _ _ = g at hg ⊢
  rw [view_finish]
  unfold scatterStoreLane at hg
  cases hl : s.cpu.active l with
  | false =>
    have hno : r.1 l = false := by
      rw [Bool.eq_false_iff]
      exact fun h => by rw [hactive h] at hl; cases hl
    rw [hno, if_neg (by decide)] at hsc
    rw [if_pos (by rw [hl]; rfl)] at hg
    simp only [scatterView, Prod.mk.injEq, hl, view_withMmu hsc] at hg
    rw [hg.2, hg.1]
    rfl
  | true =>
    rw [if_pos rfl]
    by_cases hok : r.1 l = true
    · rw [if_pos hok] at hsc
      rw [if_pos (by rw [hok, Bool.or_true])] at hg
      simp only [scatterView, Prod.mk.injEq, hl] at hg
      have hpc : g.1.cpu.pc l = s.cpu.pc l := congrArg LaneView.pc hg.1
      rw [hg.2, if_pos rfl, hg.1, hpc, stepLane_store hf hi hl (hserved hok), ← hsc]
      rfl
    · rw [if_neg hok] at hsc
      rw [if_neg (by simp [hl, hok])] at hg
      obtain ⟨h1, h2⟩ := VecMmu.view_storeLane_congr (m := r.2) hsc
        (s.rdReg l rs1 + imm) op.size (s.rdReg l rs2)
      dsimp only at hg
      rcases hst : r.2.storeLane l (s.rdReg l rs1 + imm) op.size (s.rdReg l rs2) with ⟨o, m⟩
      rw [hst] at hg h1 h2
      cases o with
      | error f =>
        simp only [scatterView, Prod.mk.injEq, Function.update_self, view_halt] at hg
        have hm : m.view l = s.mmu.view l := by
          rw [storeLane_unchanged hst, hsc]
        rw [hg.2, hg.1, view_withMmu hm]
        refine (stepLane_of_stop (hf l hl) ?_).symm
        subst hi
        simp only [execLane, storeLane_stop h1.symm]
      | ok u =>
        simp only [scatterView, Prod.mk.injEq, hl] at hg
        have hpc : g.1.cpu.pc l = s.cpu.pc l := congrArg LaneView.pc hg.1
        rw [hg.2, if_pos rfl, hg.1, hpc, stepLane_store hf hi hl h1.symm, ← h2]
        rfl

include hz

/-- The packed store follows the lanes, at one address or scattered. -/
theorem packed_store {op : StoreOp} {rs1 rs2 : Reg} {imm : U32} {first : Lane}
    (hi : inst = .store op rs1 rs2 imm) :
    Packed s (s.trySimdStore op rs1 rs2 imm ilen s.cpu.active first) := by
  have hgather := packed_gatherStore hf hi
  have hrow : s.cpu.regs rs2 = fun l => s.rdReg l rs2 := funext fun l => regs_eq hz rs2 l
  simp only [trySimdStore, regs_eq hz, hrow]
  split
  · exact hgather
  next hagree =>
  have hn := storeOp_size op
  have hsame := @VecMmu.view_storeSame s.mmu (s.rdReg first rs1 + imm) op.size s.cpu.active
    (fun l => s.rdReg l rs2) hn
  have hserved := @VecMmu.storeSame_served s.mmu (s.rdReg first rs1 + imm) op.size s.cpu.active
    (fun l => s.rdReg l rs2) hn
  rcases hst : s.mmu.storeSame (s.rdReg first rs1 + imm) op.size s.cpu.active fun l => s.rdReg l rs2
    with ⟨ok, m⟩
  rw [hst] at hsame hserved
  cases ok with
  | false => exact hgather
  | true =>
    refine ⟨rfl, fun l => ?_⟩
    have hv := hsame l
    simp only [countMem, advancePcConverged]
    rw [view_finish]
    cases hl : s.cpu.active l with
    | false =>
      rw [hl, Bool.and_false, if_neg (by decide)] at hv
      exact view_withMmu hv
    | true =>
      have ha : s.rdReg l rs1 + imm = s.rdReg first rs1 + imm :=
        @agree_of_not_any _ (fun l => s.rdReg l rs1 + imm) _ hagree l hl
      rw [hl, Bool.and_true, if_pos rfl, ← ha] at hv
      have hok := hserved rfl hl
      rw [← ha] at hok
      rw [if_pos rfl, if_pos rfl, stepLane_store hf hi hl hok, ← hv]
      rfl

end

/-! ## The step -/

/-- The packed step declines and changes nothing, or goes ahead as the loop would. -/
theorem trySimdFastStep_cases {s : VecState} (hz : ∀ l, s.cpu.regs 0 l = 0) :
    s.trySimdFastStep = (false, s) ∨ Packed s s.trySimdFastStep := by
  unfold trySimdFastStep
  dsimp only
  split
  · exact .inl rfl
  next hconv =>
  rw [Bool.not_eq_true', Bool.not_eq_false] at hconv
  split
  · exact .inl rfl
  next first hfirst =>
  split
  · exact .inl rfl
  next iword ilen hfetch =>
  have hf : s.Fetches ⟨if ilen = 2 then decodeCompressed (iword.setWidth 16) else decode iword, ilen,
      iword⟩ := by
    intro l hl
    rw [lanesConverged_spec hfirst hconv hl]
    exact fetchLane_of_converged hfetch hl
  generalize (if ilen = 2 then decodeCompressed (iword.setWidth 16) else decode iword) = inst at hf ⊢
  cases inst with
  | lui => exact .inr (packed_lui hf rfl)
  | auipc => exact .inr (packed_auipc hf rfl)
  | jal => exact .inr (packed_jal hf rfl)
  | jalr => exact .inr (packed_jalr hz hf rfl)
  | branch => exact .inr (packed_branch hz hf rfl)
  | load => exact .inr (packed_load hz hf rfl)
  | store => exact .inr (packed_store hz hf rfl)
  | opImm => exact .inr (packed_opImm hz hf rfl)
  | op => exact .inr (packed_op hz hf rfl)
  | mul => exact .inr (packed_mul hz hf rfl)
  | lrW | scW | amoW | fence | ecall | ebreak | csr | mret | sret | wfi | sfenceVma | illegal =>
    exact .inl rfl

/-- A step does to each active lane what its own step does, and nothing to the others. -/
theorem view_step {s : VecState} (hz : ∀ l, s.cpu.regs 0 l = 0) (l : Lane) :
    s.step.view l = if s.cpu.active l then (s.stepLane l).view l else s.view l := by
  unfold step
  rcases trySimdFastStep_cases hz with h | ⟨h1, h2⟩
  · rw [h]
    exact view_laneLoop s l
  · rcases hs : s.trySimdFastStep with ⟨r, s'⟩
    rw [hs] at h1 h2
    cases h1
    exact h2 l

/-- Two states equal but for the counts of packed steps. -/
structure SameLanes (s t : VecState) : Prop where
  regs : s.cpu.regs = t.cpu.regs
  pc : s.cpu.pc = t.cpu.pc
  active : s.cpu.active = t.cpu.active
  exit : s.cpu.exit = t.cpu.exit
  insnsRetired : s.cpu.insnsRetired = t.cpu.insnsRetired
  reservation : s.cpu.reservation = t.cpu.reservation
  mmu : s.mmu = t.mmu

/-- A memory is determined by what its lanes see. -/
theorem mmu_ext {m m' : VecMmu} (h : ∀ l, m.view l = m'.view l) : m = m' := by
  have hplane : ∀ {f g : Nat → U32}, (∀ l : Lane, lanePlane f l = lanePlane g l) → f = g := by
    intro f g hfg
    funext o
    have := congrFun (hfg ⟨o % LANES, Nat.mod_lt _ (by decide)⟩) (o / LANES)
    simpa only [lanePlane, Nat.div_add_mod'] using this
  have hc := hplane fun l => congrArg LaneMem.content (h l)
  have hp := hplane fun l => congrArg LaneMem.perms (h l)
  have hb := congrArg LaneMem.base (h ⟨0, by decide⟩)
  have hn := congrArg LaneMem.numWords (h ⟨0, by decide⟩)
  rcases m with ⟨b, n, c, p, ha⟩
  rcases m' with ⟨b', n', c', p', ha'⟩
  cases hb
  cases hn
  cases hc
  cases hp
  rfl

/-- States are the same when every lane sees the same. -/
theorem sameLanes_of_views {s t : VecState} (h : ∀ l, s.view l = t.view l) : SameLanes s t where
  regs := funext fun i => funext fun l => congrFun (congrArg LaneView.regs (h l)) i
  pc := funext fun l => congrArg LaneView.pc (h l)
  active := funext fun l => congrArg LaneView.active (h l)
  exit := funext fun l => congrArg LaneView.exit (h l)
  insnsRetired := funext fun l => congrArg LaneView.insnsRetired (h l)
  reservation := funext fun l => congrArg LaneView.reservation (h l)
  mmu := mmu_ext fun l => congrArg LaneView.mem (h l)

/-- The row of `x0` stays as it is. -/
theorem step_x0 {s : VecState} (hz : ∀ l, s.cpu.regs 0 l = 0) (l : Lane) : s.step.cpu.regs 0 l = 0 := by
  have hv := congrFun (congrArg LaneView.regs (view_step hz l)) 0
  refine hv.trans ?_
  split
  · exact (congrFun (stepLane_x0 s l) l).trans (hz l)
  · exact hz l

/-- A step is the loop over the active lanes, whether it is packed or not: a packed step that
declines has changed nothing, inactive lanes never change, and the row of `x0` stays zero. -/
theorem step_eq_laneLoop (s : VecState) (hz : ∀ l, s.cpu.regs 0 l = 0) :
    SameLanes s.step s.laneLoop ∧ (s.trySimdFastStep.1 = false → s.trySimdFastStep.2 = s) ∧
      (∀ l, s.cpu.active l = false → s.step.view l = s.view l) ∧ ∀ l, s.step.cpu.regs 0 l = 0 := by
  refine ⟨sameLanes_of_views fun l => ?_, fun h => ?_, fun l hl => ?_, step_x0 hz⟩
  · rw [view_step hz, view_laneLoop]
  · rcases trySimdFastStep_cases hz with he | ⟨h1, -⟩
    · rw [he]
    · rw [h1] at h
      cases h
  · rw [view_step hz, hl]
    rfl

/-- The last lane. -/
def lastLane : Lane := ⟨15, by decide⟩

/-- Sixteen lanes at `lw x5, 0(x10)`, each at a word of its own. The window ends before the word of the
last one. -/
def gatherLanes : VecState where
  cpu := { VecCpu.new 0x80000000 with
    regs := fun i l => if i = 10 then 0x80000000 + BitVec.ofNat 32 (4 * l.val) else 0 }
  mmu := ⟨0x80000000, 15, fun _ => 0x00052283, fun _ => 0x07070707, by decide⟩

/-- The gather loads the words of fifteen lanes and faults the last, as the lanes do one by one. -/
theorem step_eq_laneLoop_gather :
    SameLanes gatherLanes.step gatherLanes.laneLoop ∧ gatherLanes.trySimdFastStep.1 = true ∧
      (∀ l, gatherLanes.step.cpu.regs 5 l = if l = lastLane then 0 else 0x00052283) ∧
      gatherLanes.step.cpu.exit lastLane = some (.fault ⟨0x8000003c, 4, .read, .unmapped⟩) := by
  have hx0 : ∀ l, gatherLanes.cpu.regs 0 l = 0 := fun l => rfl
  refine ⟨(step_eq_laneLoop gatherLanes hx0).1, ?_, ?_, ?_⟩ <;> decide +kernel

end VecState

end FuzzSoft
