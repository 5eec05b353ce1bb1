import FuzzSoft.Lib.Run
import FuzzSoft.Platform.FastAccess
import FuzzSoft.Vec.Lockstep

/-!
# A lane and the scalar core

A lane beside a scalar core in M mode, without paging, HTIF or KMSAN, whose memory holds what the lane
sees. Both fetch and execute alike, but for the alignment of data: the core services a misaligned load
or store byte by byte, the lane stops at it. A run of the lane is a run of the core up to the first
such access (`lane_follows_core`).
-/

namespace FuzzSoft

open Lib

/-- Neither a CSR access nor a privileged instruction. -/
def Inst.Unprivileged : Inst → Prop
  | .csr .. | .mret | .sret | .wfi | .sfenceVma => False
  | _ => True

instance : ∀ inst : Inst, Decidable inst.Unprivileged
  | .csr .. | .mret | .sret | .wfi | .sfenceVma => inferInstanceAs (Decidable False)
  | .lui .. | .auipc .. | .jal .. | .jalr .. | .branch .. | .load .. | .store .. | .opImm .. | .op ..
  | .mul .. | .fence | .lrW .. | .scW .. | .amoW .. | .ecall | .ebreak | .illegal _ =>
    inferInstanceAs (Decidable True)

/-- The fault of an access of `n` bytes off its natural alignment. -/
def unalignedAt (addr : U32) (n : Nat) (access : Access) : Option Fault :=
  if addr.toNat % n = 0 then none else some ⟨addr, BitVec.ofNat 32 n, access, .unaligned⟩

/-- The fault of a load or store off its natural alignment. An AMO has none of its own: the memory
refuses it on both sides. -/
def Inst.unaligned (h : Hart) : Inst → Option Fault
  | .load kind _ rs1 imm => unalignedAt (h.rdReg rs1 + imm) kind.size .read
  | .store kind rs1 _ imm => unalignedAt (h.rdReg rs1 + imm) kind.size .write
  | .lrW _ rs1 _ _ => unalignedAt (h.rdReg rs1) 4 .read
  | .scW _ rs1 _ _ _ =>
    if h.reservation = some (h.rdReg rs1) then unalignedAt (h.rdReg rs1) 4 .write else none
  | _ => none

/-- A hart that runs user code on its own: in M mode also for data, without HTIF and KMSAN. -/
structure Solo (h : Hart) : Prop where
  mode : ∀ access, h.effectivePriv access = .m
  htif : h.htifTohost = none
  kmsan : h.regsTaint = none

/-- A lane and a core with equal registers and equal memory. -/
structure Beside (l : Lane) (s : VecState) (c : Sys Mmu) : Prop where
  solo : Solo c.hart
  regs : ∀ i, c.hart.regs i = s.cpu.regs i l
  pc : c.hart.pc = s.cpu.pc l
  insnsRetired : c.hart.insnsRetired = s.cpu.insnsRetired l
  reservation : c.hart.reservation = s.cpu.reservation l
  bus : c.bus = s.mmu.lane l

/-- The exit of a lane that corresponds to a result of the core. -/
def VecCpu.LaneExit.Matches (h : Hart) : VecCpu.LaneExit → Except Trap Exit → Prop
  | .ecall a0, .ok .ecall => a0 = h.rdReg 10
  | .ebreak, .ok .ebreak => True
  | .illegal pc raw, .error (.illegal pc' raw') => pc = pc' ∧ raw = raw'
  | .fault f, .error (.mem f') => f.access = f'.access
  | _, _ => False

/-! ## The hart -/

namespace Solo

variable {h : Hart}

/-- Without KMSAN no taint is written. -/
theorem wrTaint (hs : Solo h) (i : Reg) (t : U32) : h.wrTaint i t = h := by
  unfold Hart.wrTaint
  rw [hs.kmsan]
  split <;> rfl

/-- KMSAN is off. -/
theorem kmsanEnabled (hs : Solo h) : h.kmsanEnabled = false := by
  rw [Hart.kmsanEnabled, hs.kmsan]
  rfl

/-- Nothing is translated in M-mode. -/
theorem untranslated (hs : Solo h) (access : Access) : h.untranslated access = true := by
  simp [Hart.untranslated, hs.mode access]

/-- What writes registers, logs or the reservation keeps a hart on its own. -/
theorem of_eq {h' : Hart} (hs : Solo h) (h1 : h'.privilege = h.privilege) (h2 : h'.csr = h.csr)
    (h3 : h'.htifTohost = h.htifTohost) (h4 : h'.regsTaint = h.regsTaint) : Solo h' := by
  refine ⟨fun access => ?_, h3.trans hs.htif, h4.trans hs.kmsan⟩
  have hm := hs.mode access
  unfold Hart.effectivePriv at hm ⊢
  rwa [h1, h2]

/-- A register write leaves the hart solo. -/
theorem wrReg (hs : Solo h) (i : Reg) (v : U32) : Solo (h.wrReg i v) := by
  unfold Hart.wrReg
  split
  · exact hs
  · exact hs.of_eq rfl rfl rfl rfl

/-- A write of a known value is a plain one. -/
theorem wrClean (hs : Solo h) (i : Reg) (v : U32) : h.wrClean i v = h.wrReg i v :=
  (hs.wrReg i v).wrTaint i 0

/-- So is a write with a taint. -/
theorem wrTainted (hs : Solo h) (i : Reg) (v t : U32) : h.wrTainted i v t = h.wrReg i v := by
  rw [Hart.wrTainted, hs.wrTaint]

end Solo

namespace Beside

variable {l : Lane} {s : VecState} {c : Sys Mmu}

/-- The registers agree. -/
theorem rdReg (h : Beside l s c) (i : Reg) : c.hart.rdReg i = s.rdReg l i := by
  simp only [Hart.rdReg, VecState.rdReg, VecCpu.rdReg, h.regs]

/-- Another state with the lane's view. -/
theorem congr {t : VecState} (h : Beside l s c) (hv : t.view l = s.view l) : Beside l t c where
  solo := h.solo
  regs := fun i => (h.regs i).trans (congrFun (congrArg LaneView.regs hv) i).symm
  pc := h.pc.trans (congrArg LaneView.pc hv).symm
  insnsRetired := h.insnsRetired.trans (congrArg LaneView.insnsRetired hv).symm
  reservation := h.reservation.trans (congrArg LaneView.reservation hv).symm
  bus := h.bus.trans (VecMmu.lane_congr (congrArg LaneView.mem hv)).symm

/-- The same register written on both sides. -/
theorem wrReg (h : Beside l s c) (i : Reg) (v : U32) :
    Beside l (s.wrReg l i v) (c.setHart (c.hart.wrReg i v)) := by
  unfold VecState.wrReg VecCpu.wrReg Hart.wrReg
  split
  · exact ⟨h.solo, h.regs, h.pc, h.insnsRetired, h.reservation, h.bus⟩
  · refine ⟨h.solo.of_eq rfl rfl rfl rfl, fun j => ?_, h.pc, h.insnsRetired, h.reservation, h.bus⟩
    show Function.update c.hart.regs i v j = Function.update s.cpu.regs i _ j l
    by_cases hj : j = i
    · subst hj
      simp
    · rw [Function.update_of_ne hj, Function.update_of_ne hj]
      exact h.regs j

/-- The same reservation on both sides. -/
theorem setReservation (h : Beside l s c) (r : Option U32) :
    Beside l (s.setReservation l r) (c.setHart { c.hart with reservation := r }) := by
  refine ⟨h.solo.of_eq rfl rfl rfl rfl, h.regs, h.pc, h.insnsRetired, ?_, h.bus⟩
  show r = Function.update s.cpu.reservation l r l
  rw [Function.update_self]

/-- Retiring on both sides. -/
theorem retire (h : Beside l s c) (next : U32) :
    Beside l { s with cpu := s.cpu.retire l next } (c.setHart (c.hart.retire next)) := by
  refine ⟨h.solo.of_eq rfl rfl rfl rfl, h.regs, ?_, ?_, h.reservation, h.bus⟩
  · show next = Function.update s.cpu.pc l next l
    rw [Function.update_self]
  · show c.hart.insnsRetired + 1 = Function.update s.cpu.insnsRetired l _ l
    rw [Function.update_self, h.insnsRetired]

/-- The logs of the core are nothing to the lane. -/
theorem logCmp (h : Beside l s c) (a b : U32) : Beside l s (c.setHart (c.hart.logCmp a b)) := by
  unfold Hart.logCmp
  split
  · split
    · exact ⟨h.solo.of_eq rfl rfl rfl rfl, h.regs, h.pc, h.insnsRetired, h.reservation, h.bus⟩
    · exact ⟨h.solo, h.regs, h.pc, h.insnsRetired, h.reservation, h.bus⟩
  · exact ⟨h.solo, h.regs, h.pc, h.insnsRetired, h.reservation, h.bus⟩

/-- The log is on the core's side only. -/
theorem logUbsan (h : Beside l s c) (pc : U32) : Beside l s (c.setHart (c.hart.logUbsan pc)) := by
  unfold Hart.logUbsan
  split
  · split
    · exact ⟨h.solo.of_eq rfl rfl rfl rfl, h.regs, h.pc, h.insnsRetired, h.reservation, h.bus⟩
    · exact ⟨h.solo, h.regs, h.pc, h.insnsRetired, h.reservation, h.bus⟩
  · exact ⟨h.solo, h.regs, h.pc, h.insnsRetired, h.reservation, h.bus⟩

/-! ## Fetching -/

/-- Every address is its own. -/
theorem fastPa (h : Beside l s c) (va : U32) (access : Access) : c.cpu.fastPa va access = some va :=
  if_pos (h.solo.untranslated access)

/-- A translation is the identity. -/
theorem xlate (h : Beside l s c) (va : U32) (access : Access) : xlate va access c = (.ok va, c) :=
  xlate_of_fastPa (h.fastPa va access)

/-- The core fetches what the lane's memory holds. -/
theorem fetch16 (h : Beside l s c) (va : U32) :
    FuzzSoft.fetch16 va c = (((s.mmu.lane l).fetchU16 va).mapError Trap.mem, c) := by
  rw [← h.bus]
  exact Comp.bind_ok (h.xlate va .exec)

/-- A half-word that the lane fetches, or neither fetches. -/
theorem fetch16_cases (h : Beside l s c) (va : U32) :
    (∃ v, s.mmu.ifetch16Lane l va = .ok v ∧ FuzzSoft.fetch16 va c = (.ok v, c)) ∨
      ∃ f f', s.mmu.ifetch16Lane l va = .error f ∧ FuzzSoft.fetch16 va c = (.error (.mem f'), c) ∧
        f.access = f'.access := by
  rw [h.fetch16]
  cases hl : s.mmu.ifetch16Lane l va with
  | ok v =>
    rw [VecMmu.ifetch16Lane_eq_ok.1 hl]
    exact .inl ⟨v, rfl, rfl⟩
  | error f =>
    cases hm : (s.mmu.lane l).fetchU16 va with
    | ok v =>
      rw [VecMmu.ifetch16Lane_eq_ok.2 hm] at hl
      cases hl
    | error f' =>
      refine .inr ⟨f, f', rfl, rfl, ?_⟩
      rw [Mmu.fetchU16_error hm, VecMmu.ifetch16Lane_error hl]

/-- A fetch gives both the same instruction, or both a fault of the same access. -/
theorem fetch_cases (h : Beside l s c) (pc : U32) :
    (∃ f, s.fetchLane l pc = .ok f ∧ fetchDecode pc c = (.ok f, c)) ∨
      ∃ f f', s.fetchLane l pc = .error f ∧ fetchDecode pc c = (.error (.mem f'), c) ∧
        f.access = f'.access := by
  unfold VecState.fetchLane fetchDecode
  rcases h.fetch16_cases pc with ⟨lo, hl, hc⟩ | ⟨f, f', hl, hc, hf⟩
  · rw [hl, Comp.bind_ok hc]
    dsimp only
    split
    · exact .inl ⟨_, rfl, rfl⟩
    · rcases h.fetch16_cases (pc + 2) with ⟨hi, hl', hc'⟩ | ⟨f, f', hl', hc', hf⟩
      · rw [hl', Comp.bind_ok hc']
        exact .inl ⟨_, rfl, rfl⟩
      · rw [hl', Comp.bind_error hc']
        exact .inr ⟨f, f', rfl, rfl, hf⟩
  · rw [hl, Comp.bind_error hc]
    exact .inr ⟨f, f', rfl, rfl, hf⟩

/-! ## Data accesses -/

/-- An aligned load that the lane makes, or neither makes. -/
theorem load_cases (h : Beside l s c) {n : Nat} (hn : AccessSize n) {a : U32} (ha : a.toNat % n = 0)
    (signed : Bool) :
    (∃ v, s.mmu.loadLane l a n = .ok v ∧
        loadWithTaint a n signed c = (.ok (extendLoad v n signed, none), c)) ∨
      ∃ f f', s.mmu.loadLane l a n = .error f ∧ loadWithTaint a n signed c = (.error (.mem f'), c) ∧
        f.access = f'.access := by
  have himpl := loadImpl_of_fastPa hn ha (h.fastPa a .read) signed
  rw [h.bus] at himpl
  change loadImpl a n signed c = ((((s.mmu.lane l).load a n).mapError Trap.mem).map _, c) at himpl
  unfold loadWithTaint
  cases hl : s.mmu.loadLane l a n with
  | ok v =>
    rw [(VecMmu.loadLane_eq_ok hn).1 hl] at himpl
    rw [Comp.bind_ok himpl]
    refine .inl ⟨v, rfl, ?_⟩
    show (if c.hart.kmsanEnabled then _ else _ : Exec Mmu _) c = _
    rw [h.solo.kmsanEnabled]
    rfl
  | error f =>
    cases hm : (s.mmu.lane l).load a n with
    | ok v =>
      rw [(VecMmu.loadLane_eq_ok hn).2 hm] at hl
      cases hl
    | error f' =>
      rw [hm] at himpl
      rw [Comp.bind_error himpl]
      refine .inr ⟨f, f', rfl, rfl, ?_⟩
      rw [Mmu.load_error hn hm, VecMmu.loadLane_error hl]

/-- A store of the core's memory beside one of the lane. -/
theorem busStore_cases (h : Beside l s c) {n : Nat} (hn : AccessSize n) (a v : U32) :
    (∃ s' c', s.storeLane l a n v = .ok s' ∧ busStore a n v c = (.ok (), c') ∧ Beside l s' c' ∧
        c'.hart = c.hart) ∨
      ∃ f f' c', s.storeLane l a n v = .error (.fault f) ∧ busStore a n v c = (.error (.mem f'), c') ∧
        f.access = f'.access := by
  have hbus : busStore a n v c = (((s.mmu.lane l).store a n v).1.mapError Trap.mem,
      { c with bus := ((s.mmu.lane l).store a n v).2 }) := by
    rw [← h.bus]
    rfl
  rw [hbus]
  unfold VecState.storeLane
  rcases s.mmu.storeLane_cases l a hn v with ⟨word, off, -, hl, hm⟩ | ⟨f, hl, hm⟩
  · rw [hl, hm]
    exact .inl ⟨_, _, rfl, rfl, ⟨h.solo, h.regs, h.pc, h.insnsRetired, h.reservation, rfl⟩, rfl⟩
  · rw [hl]
    cases hst : ((s.mmu.lane l).store a n v).1 with
    | ok u => exact absurd hst hm
    | error f' =>
      refine .inr ⟨f, f', _, rfl, rfl, ?_⟩
      rw [Mmu.store_error hst, VecMmu.storeLane_error hl]

/-- An aligned store that the lane makes, or neither makes. -/
theorem storeImpl_eq (h : Beside l s c) {n : Nat} (hn : AccessSize n) {a : U32}
    (ha : a.toNat % n = 0) (v : U32) : storeImpl a n v c = busStore a n v c :=
  storeImpl_of_fastPa hn ha (h.fastPa a .write) v

end Beside

/-! ## Execution -/

/-- The outcomes of an instruction on the lane and on the core: both go on to the same place, or both
stop for the same reason. -/
inductive Agrees (l : Lane) (h : Hart) : Except VecCpu.LaneExit (U32 × VecState) →
    Except Trap (Exit × U32) × Sys Mmu → Prop
  | goes {next : U32} {s : VecState} {c : Sys Mmu} (hb : Beside l s c) :
      Agrees l h (.ok (next, s)) (.ok (.continue, next), c)
  | stops {e : VecCpu.LaneExit} {r : Except Trap (Exit × U32)} {c : Sys Mmu}
      (hm : e.Matches h (r.map Prod.fst)) : Agrees l h (.error e) (r, c)

section
variable {l : Lane} {s : VecState} {c : Sys Mmu}

/-- What is not refused as unaligned is aligned. -/
theorem aligned_of_none {a : U32} {n : Nat} {access : Access} (h : unalignedAt a n access = none) :
    a.toNat % n = 0 := by
  unfold unalignedAt at h
  split at h
  next ha => exact ha
  · cases h

/-- The clean write of a register. -/
theorem Beside.wrClean (h : Beside l s c) (rd : Reg) (v : U32) :
    Beside l (s.wrReg l rd v) (c.setHart (c.hart.wrClean rd v)) := by
  rw [h.solo.wrClean]
  exact h.wrReg rd v

/-- A write with a taint on the core's side. -/
theorem Beside.wrTainted (h : Beside l s c) (rd : Reg) (v t : U32) :
    Beside l (s.wrReg l rd v) (c.setHart (c.hart.wrTainted rd v t)) := by
  rw [h.solo.wrTainted]
  exact h.wrReg rd v

/-- A branch on the core's side: it logs its operands. -/
theorem Beside.execBranch (h : Beside l s c) (op : BranchOp) (rs1 rs2 : Reg) (imm pc next : U32) :
    FuzzSoft.execBranch op rs1 rs2 imm pc next c =
      (.ok (if branchTaken op (c.hart.rdReg rs1) (c.hart.rdReg rs2) then pc + imm else next),
        c.setHart (c.hart.logCmp (c.hart.rdReg rs1) (c.hart.rdReg rs2))) := by
  show (if (c.hart.kmsanEnabled && _) = true then _ else _ : Exec Mmu U32) _ = _
  rw [h.solo.kmsanEnabled]
  rfl

/-- An aligned store on the core's side is one bus store. -/
theorem Beside.storeWithTaint (h : Beside l s c) {n : Nat} (hn : AccessSize n) {a v : U32}
    (ha : a.toNat % n = 0) (t : U32) :
    FuzzSoft.storeWithTaint a n v (if c.hart.kmsanEnabled then some t else none) c =
      (busStore a n v >>= fun _ => pure ()) c := by
  rw [h.solo.kmsanEnabled]
  unfold FuzzSoft.storeWithTaint
  have hst := h.storeImpl_eq hn ha v
  rcases hb : busStore a n v c with ⟨r, c'⟩
  rw [hb] at hst
  cases r with
  | ok u => rw [Comp.bind_ok hst, Comp.bind_ok hb]; rfl
  | error e => rw [Comp.bind_error hst, Comp.bind_error hb]

/-- A store of the core, without HTIF and KMSAN, is an access of its memory. -/
theorem Beside.execStore (h : Beside l s c) (op : StoreOp) (rs1 rs2 : Reg) (imm : U32)
    (ha : (c.hart.rdReg rs1 + imm).toNat % op.size = 0) :
    FuzzSoft.execStore op rs1 rs2 imm c =
      (busStore (c.hart.rdReg rs1 + imm) op.size (c.hart.rdReg rs2) >>= fun _ => pure .continue) c := by
  have hst := h.storeWithTaint (v := c.hart.rdReg rs2) (VecState.storeOp_size op) ha
    (c.hart.rdTaint rs2)
  change (FuzzSoft.storeWithTaint (c.hart.rdReg rs1 + imm) op.size (c.hart.rdReg rs2)
    (if c.hart.kmsanEnabled then some (c.hart.rdTaint rs2) else none) >>= fun _ =>
      pure (if op = .sw ∧ c.hart.htifTohost = some (c.hart.rdReg rs1 + imm) ∧
        c.hart.rdReg rs2 &&& 1 ≠ 0 then Exit.halt (c.hart.rdReg rs2 >>> 1) else .continue)) c = _
  have hexit : (if op = .sw ∧ c.hart.htifTohost = some (c.hart.rdReg rs1 + imm) ∧
      c.hart.rdReg rs2 &&& 1 ≠ 0 then Exit.halt (c.hart.rdReg rs2 >>> 1) else .continue) =
      .continue := if_neg (by rw [h.solo.htif]; exact fun hc => nomatch hc.2.1)
  rw [hexit]
  rcases hb : busStore (c.hart.rdReg rs1 + imm) op.size (c.hart.rdReg rs2) c with ⟨r, c'⟩
  cases r with
  | ok u =>
    rw [Comp.bind_ok hb] at hst ⊢
    exact Comp.bind_ok hst
  | error e =>
    rw [Comp.bind_error hb] at hst ⊢
    exact Comp.bind_error hst

/-- The register write of a load-reserved, which also reserves. -/
theorem Beside.reserveWrite (h : Beside l s c) (rd : Reg) (v t : U32) (r : Option U32) :
    Beside l ((s.setReservation l r).wrReg l rd v)
      (c.setHart { c.hart.wrTainted rd v t with reservation := r }) := by
  rw [h.solo.wrTainted]
  have hb := (h.setReservation r).wrReg rd v
  have he : ({ c.hart with reservation := r } : Hart).wrReg rd v =
      { c.hart.wrReg rd v with reservation := r } := by
    unfold Hart.wrReg
    split <;> rfl
  rw [Sys.hart_setHart, he] at hb
  exact hb

/-- The register write of a store-conditional, which also releases. -/
theorem Beside.writeRelease (h : Beside l s c) (rd : Reg) (v : U32) :
    Beside l ((s.setReservation l none).wrReg l rd v)
      (c.setHart { c.hart.wrClean rd v with reservation := none }) := by
  have hb := h.reserveWrite rd v 0 none
  rw [h.solo.wrTainted] at hb
  rw [h.solo.wrClean]
  exact hb

/-- The read-modify-write: it goes through on both sides, or stops on both at the load or at the
store. -/
theorem Beside.amoAccess_cases (h : Beside l s c) (op : AmoOp) (rd : Reg) (va src : U32) :
    (∃ old s' c', s.mmu.loadLane l va 4 = .ok old ∧
        s.storeLane l va 4 (amoResult op old src) = .ok s' ∧
        FuzzSoft.amoAccess op rd va src c = (.ok old, c') ∧ Beside l s' c') ∨
      (∃ f f', s.mmu.loadLane l va 4 = .error f ∧
        FuzzSoft.amoAccess op rd va src c = (.error (.mem f'), c) ∧ f.access = f'.access) ∨
      ∃ old f f' c', s.mmu.loadLane l va 4 = .ok old ∧
        s.storeLane l va 4 (amoResult op old src) = .error (.fault f) ∧
        FuzzSoft.amoAccess op rd va src c = (.error (.mem f'), c') ∧ f.access = f'.access := by
  have hn : AccessSize 4 := .inr (.inr rfl)
  have hk : ∀ raw, (if c.hart.kmsanEnabled then c.hart.wrTaint rd raw else c.hart) = c.hart := by
    intro raw
    rw [h.solo.kmsanEnabled]
    rfl
  have hload : busLoad va 4 c = (((s.mmu.lane l).load va 4).mapError Trap.mem, c) := by
    rw [← h.bus]
    rfl
  unfold FuzzSoft.amoAccess
  rw [Comp.bind_ok (h.xlate va .write)]
  cases hl : s.mmu.loadLane l va 4 with
  | error f =>
    cases hm : (s.mmu.lane l).load va 4 with
    | ok v =>
      rw [(VecMmu.loadLane_eq_ok hn).2 hm] at hl
      cases hl
    | error f' =>
      rw [hm] at hload
      rw [Comp.bind_error hload]
      refine .inr (.inl ⟨f, f', rfl, rfl, ?_⟩)
      rw [Mmu.load_error hn hm, VecMmu.loadLane_error hl]
  | ok old =>
    rw [(VecMmu.loadLane_eq_ok hn).1 hl] at hload
    rw [Comp.bind_ok hload]
    have hrest : ∀ raw, (modifyHart (fun h => if h.kmsanEnabled then h.wrTaint rd raw else h) >>=
        fun _ => busStore va 4 (amoResult op old src) >>= fun _ => (pure old : Exec Mmu U32)) c =
        (busStore va 4 (amoResult op old src) >>= fun _ => (pure old : Exec Mmu U32)) c := by
      intro raw
      change (busStore va 4 (amoResult op old src) >>= fun _ => (pure old : Exec Mmu U32))
        (c.setHart (if c.hart.kmsanEnabled then c.hart.wrTaint rd raw else c.hart)) = _
      rw [hk raw]
      rfl
    have hgo : ∀ r, (busRawState va 4 >>= fun raw =>
        modifyHart (fun h => if h.kmsanEnabled then h.wrTaint rd raw else h) >>= fun _ =>
          busStore va 4 (amoResult op old src) >>= fun _ => (pure old : Exec Mmu U32)) c = r ↔
        (busStore va 4 (amoResult op old src) >>= fun _ => (pure old : Exec Mmu U32)) c = r := by
      intro r
      rw [← hrest (Bus.readRawState c.bus va 4)]
      rfl
    rcases h.busStore_cases hn va (amoResult op old src) with
      ⟨s', c', hst, hc, hb, -⟩ | ⟨f, f', c', hst, hc, hf⟩
    · exact .inl ⟨old, s', c', rfl, hst, (hgo _).2 (Comp.bind_ok hc), hb⟩
    · exact .inr (.inr ⟨old, f, f', c', rfl, hst, (hgo _).2 (Comp.bind_error hc), hf⟩)

/-- Without a misaligned access, the lane and the core execute alike. -/
theorem Beside.execInst (h : Beside l s c) {inst : Inst} (hi : inst.Unprivileged)
    (hu : inst.unaligned c.hart = none) (pc next iword : U32) :
    Agrees l c.hart (s.execLane l inst pc next iword) (FuzzSoft.execInst inst pc next iword c) := by
  cases inst with
  | lui rd imm => exact .goes (h.wrClean rd imm)
  | auipc rd imm => exact .goes (h.wrClean rd (pc + imm))
  | jal rd imm => exact .goes (h.wrClean rd next)
  | jalr rd rs1 imm =>
    have hg := @Agrees.goes l c.hart ((c.hart.rdReg rs1 + imm) &&& ~~~1) _ _ (h.wrClean rd next)
    rw [h.rdReg] at hg
    unfold VecState.execLane
    dsimp only
    rw [← h.rdReg]
    exact .goes (h.wrClean rd next)
  | branch op rs1 rs2 imm =>
    unfold VecState.execLane
    dsimp only
    rw [← h.rdReg, ← h.rdReg]
    change Agrees l c.hart _ ((FuzzSoft.execBranch op rs1 rs2 imm pc next >>= _) c)
    rw [Comp.bind_ok (h.execBranch op rs1 rs2 imm pc next)]
    exact .goes (h.logCmp _ _)
  | load op rd rs1 imm =>
    unfold VecState.execLane
    dsimp only
    rw [← h.rdReg]
    change Agrees l c.hart _ ((loadWithTaint (c.hart.rdReg rs1 + imm) op.size op.signed >>= _) c)
    rcases h.load_cases (VecState.loadOp_size op) (aligned_of_none hu) op.signed with
      ⟨v, hl, hc⟩ | ⟨f, f', hl, hc, hf⟩
    · rw [hl, Comp.bind_ok hc]
      exact .goes (h.wrTainted rd _ _)
    · rw [hl, Comp.bind_error hc]
      exact .stops hf
  | store op rs1 rs2 imm =>
    unfold VecState.execLane
    dsimp only
    rw [← h.rdReg, ← h.rdReg]
    change Agrees l c.hart _ ((FuzzSoft.execStore op rs1 rs2 imm >>= _) c)
    have hst := h.execStore op rs1 rs2 imm (aligned_of_none hu)
    rcases h.busStore_cases (VecState.storeOp_size op) (c.hart.rdReg rs1 + imm) (c.hart.rdReg rs2) with
      ⟨s', c', hl, hc, hb, -⟩ | ⟨f, f', c', hl, hc, hf⟩
    · rw [Comp.bind_ok hc] at hst
      rw [hl, Comp.bind_ok hst]
      exact .goes hb
    · rw [Comp.bind_error hc] at hst
      rw [hl, Comp.bind_error hst]
      exact .stops hf
  | opImm op rd rs1 imm =>
    unfold VecState.execLane
    dsimp only
    rw [← h.rdReg]
    exact .goes (h.wrTainted rd _ _)
  | op op rd rs1 rs2 =>
    unfold VecState.execLane
    dsimp only
    rw [← h.rdReg, ← h.rdReg]
    have hb : Beside l s (c.setHart (if op = .sub ∨ op = .xor then
        c.hart.logCmp (c.hart.rdReg rs1) (c.hart.rdReg rs2) else c.hart)) := by
      split
      · exact h.logCmp _ _
      · exact h
    exact .goes (hb.wrTainted rd _ _)
  | mul op rd rs1 rs2 =>
    unfold VecState.execLane
    dsimp only
    rw [← h.rdReg, ← h.rdReg]
    have hb : Beside l s (c.setHart (if op.isDiv ∧ c.hart.rdReg rs2 = 0 then c.hart.logUbsan pc
        else c.hart)) := by
      split
      · exact h.logUbsan _
      · exact h
    exact .goes (hb.wrTainted rd _ _)
  | lrW rd rs1 aq rl =>
    unfold VecState.execLane
    dsimp only
    rw [← h.rdReg]
    change Agrees l c.hart _ ((loadWithTaint (c.hart.rdReg rs1) 4 false >>= _) c)
    rcases h.load_cases (.inr (.inr rfl)) (aligned_of_none hu) false with
      ⟨v, hl, hc⟩ | ⟨f, f', hl, hc, hf⟩
    · rw [hl, Comp.bind_ok hc]
      exact .goes (h.reserveWrite rd _ _ _)
    · rw [hl, Comp.bind_error hc]
      exact .stops hf
  | scW rd rs1 rs2 aq rl =>
    unfold VecState.execLane
    dsimp only
    rw [← h.rdReg, ← h.rdReg, ← h.reservation]
    change Agrees l c.hart _ ((storeIf (decide (c.hart.reservation = some (c.hart.rdReg rs1)))
      (c.hart.rdReg rs1) (c.hart.rdReg rs2) >>= _) c)
    change (if c.hart.reservation = some (c.hart.rdReg rs1) then
      unalignedAt (c.hart.rdReg rs1) 4 .write else none) = none at hu
    by_cases hr : c.hart.reservation = some (c.hart.rdReg rs1)
    · rw [if_pos hr] at hu ⊢
      rw [decide_eq_true hr]
      have hst : storeIf true (c.hart.rdReg rs1) (c.hart.rdReg rs2) c =
          busStore (c.hart.rdReg rs1) 4 (c.hart.rdReg rs2) c :=
        h.storeImpl_eq (.inr (.inr rfl)) (aligned_of_none hu) (c.hart.rdReg rs2)
      rcases h.busStore_cases (.inr (.inr rfl)) (c.hart.rdReg rs1) (c.hart.rdReg rs2) with
        ⟨s', c', hl, hc, hb, hh⟩ | ⟨f, f', c', hl, hc, hf⟩
      · rw [hl, Comp.bind_ok (hst.trans hc)]
        exact .goes (hb.writeRelease rd _)
      · rw [hl, Comp.bind_error (hst.trans hc)]
        exact .stops hf
    · rw [if_neg hr, decide_eq_false hr]
      exact .goes (h.writeRelease rd _)
  | amoW op rd rs1 rs2 aq rl =>
    unfold VecState.execLane
    dsimp only
    rw [← h.rdReg, ← h.rdReg]
    change Agrees l c.hart _ ((FuzzSoft.amoAccess op rd (c.hart.rdReg rs1) (c.hart.rdReg rs2) >>= _) c)
    rcases h.amoAccess_cases op rd (c.hart.rdReg rs1) (c.hart.rdReg rs2) with
      ⟨old, s', c', hl, hst, hc, hb⟩ | ⟨f, f', hl, hc, hf⟩ | ⟨old, f, f', c', hl, hst, hc, hf⟩
    · rw [hl]
      dsimp only
      rw [hst, Comp.bind_ok hc]
      exact .goes ((hb.setReservation none).wrReg rd old)
    · rw [hl, Comp.bind_error hc]
      exact .stops hf
    · rw [hl]
      dsimp only
      rw [hst, Comp.bind_error hc]
      exact .stops hf
  | fence => exact .goes h
  | ecall => exact .stops (h.rdReg 10).symm
  | ebreak => exact .stops trivial
  | illegal raw => exact .stops ⟨rfl, rfl⟩
  | csr | mret | sret | wfi | sfenceVma => exact absurd hi id

/-- A load or store off its natural alignment stops the lane. -/
theorem execLane_unaligned (h : Beside l s c) {inst : Inst} {f : Fault}
    (hu : inst.unaligned c.hart = some f) (pc next iword : U32) :
    s.execLane l inst pc next iword = .error (.fault f) := by
  have hat : ∀ {a : U32} {n : Nat} {access : Access}, unalignedAt a n access = some f →
      a.toNat % n ≠ 0 ∧ f = ⟨a, BitVec.ofNat 32 n, access, .unaligned⟩ := by
    intro a n access hf
    unfold unalignedAt at hf
    split at hf
    · cases hf
    next ha =>
      cases hf
      exact ⟨ha, rfl⟩
  have hload : ∀ {a : U32} {n : Nat}, AccessSize n → unalignedAt a n .read = some f →
      s.mmu.loadLane l a n = .error f := by
    intro a n hn hf
    obtain ⟨ha, rfl⟩ := hat hf
    rw [VecMmu.loadLane, VecMmu.check_unaligned hn ha]
  have hstore : ∀ {a : U32} {n : Nat} (v : U32), AccessSize n → unalignedAt a n .write = some f →
      s.storeLane l a n v = .error (.fault f) := by
    intro a n v hn hf
    obtain ⟨ha, rfl⟩ := hat hf
    rw [VecState.storeLane, VecMmu.storeLane, VecMmu.check_unaligned hn ha]
  cases inst with
  | load op rd rs1 imm =>
    unfold VecState.execLane
    dsimp only
    rw [← h.rdReg, hload (VecState.loadOp_size op) hu]
  | store op rs1 rs2 imm =>
    unfold VecState.execLane
    dsimp only
    rw [← h.rdReg, hstore _ (VecState.storeOp_size op) hu]
  | lrW rd rs1 aq rl =>
    unfold VecState.execLane
    dsimp only
    rw [← h.rdReg, hload (.inr (.inr rfl)) hu]
  | scW rd rs1 rs2 aq rl =>
    change (if c.hart.reservation = some (c.hart.rdReg rs1) then
      unalignedAt (c.hart.rdReg rs1) 4 .write else none) = some f at hu
    unfold VecState.execLane
    dsimp only
    rw [← h.rdReg, ← h.reservation]
    by_cases hr : c.hart.reservation = some (c.hart.rdReg rs1)
    · rw [if_pos hr] at hu ⊢
      rw [hstore _ (.inr (.inr rfl)) hu]
    · rw [if_neg hr] at hu
      cases hu
  | lui | auipc | jal | jalr | branch | opImm | op | mul | amoW | fence | ecall | ebreak | csr | mret
  | sret | wfi | sfenceVma | illegal => cases hu

end

/-! ## Runs -/

/-- Why the core is stopped: with a result that is no `continue`, or before a misaligned access. -/
inductive CoreStop
  | result (r : Except Trap Exit)
  | unaligned (f : Fault)

/-- A scalar core and why it was stopped. -/
structure Core where
  sys : Sys Mmu
  stop : Option CoreStop

/-- The misaligned access that the instruction at `pc` makes. -/
def Core.unaligned (c : Sys Mmu) : Option Fault :=
  match (fetchDecode c.hart.pc c).1 with
  | .ok f => f.inst.unaligned c.hart
  | .error _ => none

/-- The instruction at `pc` is neither a CSR access nor privileged. -/
def Core.Unprivileged (c : Sys Mmu) : Prop :=
  ∀ f, (fetchDecode c.hart.pc c).1 = .ok f → f.inst.Unprivileged

instance (c : Sys Mmu) : Decidable (Core.Unprivileged c) :=
  match h : (fetchDecode c.hart.pc c).1 with
  | .ok f => decidable_of_iff f.inst.Unprivileged
      ⟨fun hi _ hg => Except.ok.inj (h.symm.trans hg) ▸ hi, fun hi => hi f h⟩
  | .error _ => isTrue fun _ hg => nomatch h.symm.trans hg

/-- One step of the core, which stays where it stops. -/
def Core.step (t : Core) : Core :=
  match t.stop with
  | some _ => t
  | none =>
    match Core.unaligned t.sys with
    | some f => ⟨t.sys, some (.unaligned f)⟩
    | none =>
      match FuzzSoft.step t.sys with
      | (.ok .continue, c) => ⟨c, none⟩
      | (r, _) => ⟨t.sys, some (.result r)⟩

/-- The exit of a lane that corresponds to the stop of a core. -/
def VecCpu.LaneExit.MatchesStop (h : Hart) (x : VecCpu.LaneExit) : CoreStop → Prop
  | .result r => x.Matches h r
  | .unaligned f => x = .fault f

/-- While the core goes on, the lane is active and equal to it; once it has stopped, the lane has
stopped for the same reason. -/
def LaneFollows (l : Lane) (s : VecState) (t : Core) : Prop :=
  match t.stop with
  | none => s.cpu.active l = true ∧ Beside l s t.sys
  | some stop => s.cpu.active l = false ∧ ∃ x, s.cpu.exit l = some x ∧ x.MatchesStop t.sys.hart stop

section
variable {l : Lane} {s : VecState}

/-- An instruction that goes on leaves the lane active. -/
theorem execLane_active {t : VecState} {inst : Inst} {pc next iword n : U32}
    (hx : s.execLane l inst pc next iword = .ok (n, t)) (ha : s.cpu.active l = true) :
    t.cpu.active l = true := by
  refine @VecState.execLane_keeps s t l (fun t => t.cpu.active l = true) ?_ ?_ ?_ inst pc next iword n
    hx ha
  · intro t i v h
    unfold VecState.wrReg VecCpu.wrReg
    split <;> exact h
  · exact fun t r h => h
  · intro t u a n v hok h
    unfold VecState.storeLane at hok
    split at hok <;> cases hok
    exact h

/-- A step of the lane alone beside a step of the core. -/
theorem stepLane_follows {c : Sys Mmu} (ha : s.cpu.active l = true) (h : Beside l s c)
    (hi : Core.Unprivileged c) : LaneFollows l (s.stepLane l) (Core.step ⟨c, none⟩) := by
  have hhalt : ∀ e : VecCpu.LaneExit,
      (s.halt l e).cpu.active l = false ∧ (s.halt l e).cpu.exit l = some e := fun e =>
    ⟨Function.update_self .., Function.update_self ..⟩
  unfold VecState.stepLane Core.step
  dsimp only
  rw [← h.pc]
  rcases h.fetch_cases c.hart.pc with ⟨f, hl, hc⟩ | ⟨f, f', hl, hc, hf⟩
  · have hun : Core.unaligned c = f.inst.unaligned c.hart := by rw [Core.unaligned, hc]
    have hstep : FuzzSoft.step c = execOne f.inst c.hart.pc f.ilen f.iword c := Comp.bind_ok hc
    rw [hl, hun, hstep]
    dsimp only
    cases hu : f.inst.unaligned c.hart with
    | some g =>
      rw [execLane_unaligned h hu]
      exact ⟨(hhalt _).1, _, (hhalt _).2, rfl⟩
    | none =>
      have hag := h.execInst (hi f (by rw [hc])) hu c.hart.pc (c.hart.pc + f.ilen) f.iword
      unfold execOne
      rcases hx : s.execLane l f.inst c.hart.pc (c.hart.pc + f.ilen) f.iword with e | ⟨next, s'⟩
      · rw [hx] at hag
        rcases hy : FuzzSoft.execInst f.inst c.hart.pc (c.hart.pc + f.ilen) f.iword c with ⟨r, c'⟩
        rw [hy] at hag
        cases hag with
        | stops hm =>
          cases r with
          | error g =>
            rw [Comp.bind_error hy]
            exact ⟨(hhalt e).1, e, (hhalt e).2, hm⟩
          | ok p =>
            obtain ⟨x, n⟩ := p
            rw [Comp.bind_ok hy]
            cases x with
            | «continue» => cases e <;> cases hm
            | ecall | ebreak | halt => exact ⟨(hhalt e).1, e, (hhalt e).2, hm⟩
      · rw [hx] at hag
        rcases hy : FuzzSoft.execInst f.inst c.hart.pc (c.hart.pc + f.ilen) f.iword c with ⟨r, c'⟩
        rw [hy] at hag
        cases hag with
        | goes hb =>
          have hact := execLane_active hx ha
          rw [Comp.bind_ok hy]
          exact ⟨hact, hb.retire next⟩
  · have hun : Core.unaligned c = none := by rw [Core.unaligned, hc]
    have hstep : FuzzSoft.step c = (.error (.mem f'), c) :=
      (show FuzzSoft.step c = (fetchDecode c.hart.pc >>= _) c from rfl).trans (Comp.bind_error hc)
    rw [hl, hun, hstep]
    exact ⟨(hhalt _).1, _, (hhalt _).2, hf⟩

/-- A step of all lanes beside a step of the core. -/
theorem LaneFollows.step {t : Core} (hz : ∀ l, s.cpu.regs 0 l = 0) (h : LaneFollows l s t)
    (hi : t.stop = none → Core.Unprivileged t.sys) : LaneFollows l s.step t.step := by
  have hv := VecState.view_step hz l
  obtain ⟨c, stop⟩ := t
  cases stop with
  | none =>
    obtain ⟨ha, hb⟩ := h
    rw [if_pos ha] at hv
    have hf := stepLane_follows ha hb (hi rfl)
    unfold LaneFollows at hf ⊢
    split at hf
    next he =>
      rw [he]
      exact ⟨(congrArg LaneView.active hv).trans hf.1, hf.2.congr hv⟩
    next e he =>
      rw [he]
      obtain ⟨hoff, x, hx, hm⟩ := hf
      exact ⟨(congrArg LaneView.active hv).trans hoff, x, (congrArg LaneView.exit hv).trans hx, hm⟩
  | some e =>
    obtain ⟨hoff, x, hx, hm⟩ := h
    rw [if_neg (by rw [hoff]; decide)] at hv
    exact ⟨(congrArg LaneView.active hv).trans hoff, x, (congrArg LaneView.exit hv).trans hx, hm⟩

/-- A lane runs as the scalar core does up to the first load, store, `lr.w` or `sc.w` off its natural
alignment, at which it stops with an alignment fault. Until then it has the core's registers, `pc`,
count of retired instructions, reservation and memory, and it stops with a given exit exactly where
the core returns the corresponding result. -/
theorem lane_follows_core {c : Sys Mmu} (hz : ∀ l, s.cpu.regs 0 l = 0) (ha : s.cpu.active l = true)
    (h : Beside l s c) (n : Nat)
    (hi : ∀ k < n, (Core.step^[k] ⟨c, none⟩).stop = none →
      Core.Unprivileged (Core.step^[k] ⟨c, none⟩).sys) :
    LaneFollows l (VecState.step^[n] s) (Core.step^[n] ⟨c, none⟩) := by
  suffices hrun : LaneFollows l (VecState.step^[n] s) (Core.step^[n] ⟨c, none⟩) ∧
      ∀ l, (VecState.step^[n] s).cpu.regs 0 l = 0 from hrun.1
  induction n with
  | zero => exact ⟨⟨ha, h⟩, hz⟩
  | succ n ih =>
    obtain ⟨hf, hx⟩ := ih fun k hk => hi k (Nat.lt_succ_of_lt hk)
    rw [Function.iterate_succ_apply', Function.iterate_succ_apply']
    exact ⟨hf.step hx (hi n (Nat.lt_succ_self n)), VecState.step_x0 hx⟩

end

/-! ## A misaligned load -/

/-- There is a lane. -/
theorem lanes_pos : 0 < LANES := by decide

/-- The address of the case is aligned. -/
theorem loadLanes_aligned : (0x80000000 : U32).toNat % 4 = 0 := by decide

/-- All lanes at a load of a word one byte past `x10`, in a window that grants everything. -/
def loadLanes : VecState where
  cpu := { VecCpu.new 0x80000000 with regs := fun i _ => if i = 10 then 0x80000000 else 0 }
  mmu := ⟨0x80000000, 4, fun _ => 0x00152283, fun _ => 0x07070707, loadLanes_aligned⟩

/-- The core that the first lane has beside it. -/
def loadCore : Sys Mmu where
  cpu := { Cpu.new 0x80000000 with regs := fun i => if i = 10 then 0x80000000 else 0 }
  bus := loadLanes.mmu.lane ⟨0, lanes_pos⟩

/-- The two start beside each other. -/
theorem beside_load : Beside ⟨0, by decide⟩ loadLanes loadCore :=
  ⟨⟨fun access => by cases access <;> decide, rfl, rfl⟩, fun _ => rfl, rfl, rfl, rfl, rfl⟩

/-- The core loads the word byte by byte, the lane stops. -/
theorem lane_follows_core_misaligned :
    Beside ⟨0, by decide⟩ loadLanes loadCore ∧ (∀ l, loadLanes.cpu.regs 0 l = 0) ∧
      Core.Unprivileged loadCore ∧ (FuzzSoft.step loadCore).1 = .ok .continue ∧
      loadLanes.step.cpu.active ⟨0, by decide⟩ = false ∧
      loadLanes.step.cpu.exit ⟨0, by decide⟩ =
        some (.fault ⟨0x80000001, 4, .read, .unaligned⟩) := by
  refine ⟨beside_load, fun _ => rfl, ?_, by rfl, ?_, ?_⟩ <;> decide +kernel

/-- The same lanes at `lw x6, 0(x10)`; `sw x6, 16(x10)`; `addi x10, x10, 1`; `lw x5, 0(x10)`. -/
def copyLanes : VecState where
  cpu := loadLanes.cpu
  mmu := { loadLanes.mmu with
    numWords := 8
    content := fun i => [0x00052303, 0x00652823, 0x00150513, 0x00052283].getD (i / LANES) 0 }

/-- The core that the first lane has beside it. -/
def copyCore : Sys Mmu where
  cpu := loadCore.cpu
  bus := copyLanes.mmu.lane ⟨0, lanes_pos⟩

/-- The two start beside each other. -/
theorem beside_copy : Beside ⟨0, by decide⟩ copyLanes copyCore :=
  { beside_load with bus := rfl }

/-- Four steps of that lane: it copies a word, and stops where the core is about to make a misaligned
access. -/
theorem lane_follows_core_copy :
    LaneFollows ⟨0, by decide⟩ (VecState.step^[4] copyLanes) (Core.step^[4] ⟨copyCore, none⟩) ∧
      LaneFollows ⟨0, by decide⟩ (VecState.step^[3] copyLanes) (Core.step^[3] ⟨copyCore, none⟩) ∧
      (Core.step^[3] ⟨copyCore, none⟩).sys.hart.regs 6 = 0x00052303 ∧
      (Core.step^[4] ⟨copyCore, none⟩).stop =
        some (.unaligned ⟨0x80000001, 4, .read, .unaligned⟩) := by
  have hplain : ∀ k < 4, (Core.step^[k] ⟨copyCore, none⟩).stop = none →
      Core.Unprivileged (Core.step^[k] ⟨copyCore, none⟩).sys := by
    decide +kernel
  refine ⟨lane_follows_core (fun _ => rfl) rfl beside_copy 4 hplain,
    lane_follows_core (fun _ => rfl) rfl beside_copy 3 fun k hk => hplain k (by omega), ?_, ?_⟩
  · decide +kernel
  · rfl

end FuzzSoft
