import FuzzSoft.Jit.Follows

/-!
# Compiled loads and stores

A load or a store computes its address, asks for a host pointer (`does_asked`), and with a pointer
accesses memory itself (`does_loadFast`, `does_storeFast`); without one it writes its own `pc` and
calls out (`does_loadSlow`, `does_storeSlow`). Only the call-out can end the chain
(`returns_loadSlow`, `returns_storeSlow`).
-/

namespace FuzzSoft

namespace Jit

open Lib Lib.X86

/-- The condition `ne` after a test. -/
theorem holds_ne_logic {w : Nat} (v : BitVec w) : Cond.ne.holds (logicFlags v) = decide (v ≠ 0) :=
  (decide_not).symm

/-- The condition `ns` after a test. -/
theorem holds_ns_logic {w : Nat} (v : BitVec w) : Cond.ns.holds (logicFlags v) = !v.msb := rfl

/-- A widened word is not negative. -/
theorem msb_setWidth_word (v : U32) : (v.setWidth 64 : U64).msb = false := by
  have hv := v.isLt
  rw [BitVec.msb_eq_decide, BitVec.toNat_setWidth, decide_eq_false_iff_not]
  omega

/-- Counting the instruction before the write of its result. -/
theorem wrReg_counted (h : Hart) (rd : Reg) (v : U32) :
    ({ h with insnsRetired := h.insnsRetired + 1 } : Hart).wrReg rd v =
      { h.wrReg rd v with pc := h.pc, insnsRetired := h.insnsRetired + 1 } := by
  unfold Hart.wrReg
  split <;> rfl

section
variable {β : Type} [Bus β] {P : Process} (junk : State (Mem β) → Gpr → Word)
  (junkFlags : State (Mem β) → Flags) {s : State (Mem β)} {pc0 : U32}

/-- Asking for a pointer. -/
theorem does_asked (f : Shim) (rs1 : Reg) (imm : U32) (hs : Plan P pc0 s) :
    Does (host P junk junkFlags) (emitVa P rs1 imm ++ emitFastPtr P f) scratch s fun t =>
      Plan P pc0 t ∧ t.r32 .rcx = s.mem.hart.rdReg rs1 + imm ∧
        t.flags = logicFlags (t.regs .rax) ∧
          (t.regs .rax, t.mem) = s.mem.call P f (s.mem.hart.rdReg rs1 + imm) pc0 := by
  refine ((does_emitVa junk junkFlags rs1 imm hs.rdi).mono (by decide)).append
    fun t ht ⟨hm, hcx⟩ => ?_
  have hp := hs.touches ht fun _ h => h
  refine ((does_calledTested junk junkFlags f (.inl rfl) hp.toPasses).imp ?_).mono (by decide)
  rintro u hu ⟨hcall, hflags⟩
  refine ⟨hp.touches hu (by decide), ?_, hflags, ?_⟩
  · rw [← hcx, State.r32, State.r32, hu.regs _ (by decide)]
  · rw [hcall, hm, hcx, hp.r8]

/-- The fast path starts by counting itself. -/
theorem does_counted (hs : Plan P pc0 s) :
    Does (host P junk junkFlags) (Asm.addQwordMemImm8 .rdi (P.off .fastPathHits) 1) scratch s
      fun t => Plan P pc0 t ∧ t.regs .rax = s.regs .rax ∧
        t.mem = { s.mem with fastPathHits := s.mem.fastPathHits + 1 } := by
  refine ((does_hit junk junkFlags hs.rdi).imp fun t ht hm => ?_).mono (by simp)
  exact ⟨hs.touches ht (by decide), ht.same _, hm⟩

/-! ## Loads -/

/-- A loaded value in a scratch register goes to a register of the guest, and the load is
counted. -/
theorem does_retireInto {src : Gpr} (rd : Reg) (hdi : s.regs .rdi = P.cpu) (hs : Gpr.rsp ≠ src) :
    Does (host P junk junkFlags) (retire P ++ storeReg P rd src) [] s fun t =>
      t.mem = s.mem.modHart fun h =>
        { h.wrReg rd (s.r32 src) with pc := h.pc, insnsRetired := h.insnsRetired + 1 } := by
  refine (does_retire junk junkFlags hdi).append fun t ht hm => ?_
  refine (does_storeReg junk junkFlags rd ((ht.same _).trans hdi) hs).imp fun u _ hm' => ?_
  have hsrc : t.r32 src = s.r32 src := by rw [State.r32, State.r32, ht.same]
  rw [hm', hm, hsrc]
  exact congrArg (fun h => { s.mem with sys := s.mem.sys.setHart h }) (wrReg_counted _ rd _)

/-- A load through the pointer. -/
theorem does_loadFast {p : HostPtr} (op : LoadOp) (rd : Reg) (hs : Plan P pc0 s)
    (hax : s.regs .rax = P.place p) (hg : s.mem.granted = some (P.place p, p, op.size))
    (hlen : (Bus.ptrLoad s.mem.sys.bus p op.size).length = op.size) :
    Does (host P junk junkFlags) (emitLoadFast P op rd) scratch s fun t =>
      t.mem.sys = s.mem.sys.setHart
        { s.mem.hart.wrReg rd
            (extendLoad (leValue (Bus.ptrLoad s.mem.sys.bus p op.size)) op.size op.signed) with
          pc := s.mem.hart.pc
          insnsRetired := s.mem.hart.insnsRetired + 1 } := by
  unfold emitLoadFast
  simp only [List.append_assoc]
  refine (does_counted junk junkFlags hs).append fun t _ ⟨hp, hax', hm⟩ => ?_
  have hload := does_sizedLoad junk junkFlags op (hax'.trans hax) (by rw [hm]; exact hg)
    (by rw [hm]; exact hlen)
  refine Does.append (P := fun u => Plan P pc0 u ∧ u.mem = t.mem ∧ u.r32 .rcx =
    extendLoad (leValue (Bus.ptrLoad s.mem.sys.bus p op.size)) op.size op.signed) ?_ ?_
  · refine (hload.imp fun u hu ⟨hm', hv⟩ => ?_).mono (by decide)
    exact ⟨hp.touches hu (by decide), hm', by rw [hv, hm]⟩
  rintro u - ⟨hp, hm', hv⟩
  refine ((does_retireInto junk junkFlags rd hp.rdi (by decide)).imp fun w _ hm'' => ?_).mono
    (by simp)
  rw [hm'', hv, hm', hm]
  rfl

/-- The slow path starts by writing the `pc` of its instruction, for a trap. -/
theorem does_bailed (off : U32) (hs : Plan P pc0 s) :
    Does (host P junk junkFlags)
      (Asm.addQwordMemImm8 .rdi (P.off .fastPathBails) 1 ++ emitPc P .rax off) scratch s fun t =>
      Plan P pc0 t ∧ t.r32 .rcx = s.r32 .rcx ∧
        t.mem.sys = s.mem.sys.setHart { s.mem.hart with pc := pc0 + off } := by
  refine Does.append (P := fun t => Plan P pc0 t ∧ t.r32 .rcx = s.r32 .rcx ∧
    t.mem = { s.mem with fastPathBails := s.mem.fastPathBails + 1 }) ?_ ?_
  · refine ((does_bail junk junkFlags hs.rdi).imp fun t ht hm => ?_).mono (by simp)
    exact ⟨hs.touches ht (by decide), by rw [State.r32, State.r32, ht.same], hm⟩
  rintro t - ⟨hp, hcx, hm⟩
  refine ((does_emitPc junk junkFlags off hp (by decide) (by decide)).imp ?_).mono (by decide)
  rintro u hu hm'
  refine ⟨hp.touches hu (by decide), ?_, ?_⟩
  · rw [← hcx, State.r32, State.r32, hu.regs _ (by decide)]
  · rw [hm', hm]
    rfl

/-- A load through the shim, up to its answer. -/
theorem does_loadCalled (op : LoadOp) (off : U32) (hs : Plan P pc0 s) :
    Does (host P junk junkFlags) (Asm.addQwordMemImm8 .rdi (P.off .fastPathBails) 1 ++
      emitPc P .rax off ++ (emitCallPreservingRegs (callShim P (.load op)) ++
        Asm.testR64R64 .rax .rax)) scratch s fun t =>
      Plan P pc0 t ∧ t.flags = logicFlags (t.regs .rax) ∧ ∃ m : Mem β,
        m.sys = s.mem.sys.setHart { s.mem.hart with pc := pc0 + off } ∧
          (t.regs .rax, t.mem) = m.loadCommon (s.r32 .rcx) op.size op.signed := by
  refine (does_bailed junk junkFlags off hs).append fun t _ ⟨hp, hcx, hm⟩ => ?_
  refine ((does_calledTested junk junkFlags (.load op) (.inr rfl) hp.toPasses).imp ?_).mono
    (by decide)
  rintro u hu ⟨hcall, hflags⟩
  refine ⟨hp.touches hu (by decide), hflags, { t.mem with granted := none }, hm, ?_⟩
  rw [hcall, hcx]
  rfl

section
variable {x : Sys β}

/-- What the call-out of a load returns for a value. -/
theorem loadCommon_ok {m : Mem β} {va : U32} {n : Nat} {signed : Bool} {v : U32} {x : Sys β}
    (h : loadImpl va n signed m.sys = (.ok v, x)) :
    m.loadCommon va n signed = (v.setWidth 64, { m with sys := x }) := by
  rw [Mem.loadCommon, h]

/-- The shim's load that traps. -/
theorem loadCommon_error {m : Mem β} {va : U32} {n : Nat} {signed : Bool} {t : Trap} {x : Sys β}
    (h : loadImpl va n signed m.sys = (.error t, x)) : m.loadCommon va n signed =
      (TAG_TRAP, { m with sys := x.setHart { x.hart with jitPendingTrap := some t } }) := by
  rw [Mem.loadCommon, h]

omit [Bus β] in
/-- The slow load: the call, then one of two ends. -/
theorem emitLoadSlow_eq (op : LoadOp) (rd : Reg) (off : U32) : emitLoadSlow P op rd off =
    (Asm.addQwordMemImm8 .rdi (P.off .fastPathBails) 1 ++ emitPc P .rax off ++
      (emitCallPreservingRegs (callShim P (.load op)) ++ Asm.testR64R64 .rax .rax)) ++
      (emitSkip .ns Asm.ret ++ (retire P ++ storeReg P rd .rax)) := by
  simp only [emitLoadSlow, List.append_assoc]

/-- A slow load that succeeds falls through. -/
theorem does_loadSlow (op : LoadOp) (rd : Reg) (off : U32) {v : U32} (hs : Plan P pc0 s)
    (h : loadImpl (s.r32 .rcx) op.size op.signed
      (s.mem.sys.setHart { s.mem.hart with pc := pc0 + off }) = (.ok v, x)) :
    Does (host P junk junkFlags) (emitLoadSlow P op rd off) scratch s fun t =>
      t.mem.sys = x.setHart { x.hart.wrReg rd v with
        pc := x.hart.pc
        insnsRetired := x.hart.insnsRetired + 1 } := by
  rw [emitLoadSlow_eq]
  refine (does_loadCalled junk junkFlags op off hs).append ?_
  rintro t - ⟨hp, hflags, m, hm, hcall⟩
  rw [← hm] at h
  rw [loadCommon_ok h] at hcall
  have hax : t.regs .rax = v.setWidth 64 := congrArg Prod.fst hcall
  have hsys : t.mem.sys = x := congrArg (fun r => (Prod.snd r).sys) hcall
  have hns : Cond.ns.holds t.flags = true := by
    rw [hflags, hax, holds_ns_logic, msb_setWidth_word]
    rfl
  refine Does.append (P := (· = t)) (does_emitSkip junk junkFlags hns (by decide) rfl) ?_
  rintro u - rfl
  refine ((does_retireInto junk junkFlags rd hp.rdi (by decide)).imp fun w _ hw => ?_).mono
    (by simp)
  have hv : u.r32 .rax = v := by
    rw [State.r32, hax]
    exact BitVec.setWidth_setWidth_of_le v (by decide)
  rw [hw, hv, ← hsys]
  rfl

/-- One that traps returns. -/
theorem returns_loadSlow (op : LoadOp) (rd : Reg) (off : U32) {t : Trap} (hs : Plan P pc0 s)
    (h : loadImpl (s.r32 .rcx) op.size op.signed
      (s.mem.sys.setHart { s.mem.hart with pc := pc0 + off }) = (.error t, x)) :
    Returns (host P junk junkFlags) (emitLoadSlow P op rd off) scratch s fun u =>
      u.regs .rax = TAG_TRAP ∧
        u.mem.sys = x.setHart { x.hart with jitPendingTrap := some t } := by
  rw [emitLoadSlow_eq]
  refine (does_loadCalled junk junkFlags op off hs).returns ?_
  rintro u - ⟨hp, hflags, m, hm, hcall⟩
  rw [← hm] at h
  rw [loadCommon_error h] at hcall
  have hax : u.regs .rax = TAG_TRAP := congrArg Prod.fst hcall
  have hns : Cond.ns.holds u.flags = false := by
    rw [hflags, hax]
    rfl
  refine (returns_emitSkip junk junkFlags hns ?_).append _
  exact (Does.nil (h := host P junk junkFlags)
    ⟨hax, congrArg (fun r => (Prod.snd r).sys) hcall⟩).ret Asm.encodes_ret

end

/-! ## Stores -/

/-- A store through the pointer. -/
theorem does_storeFast {p : HostPtr} (op : StoreOp) (rs2 : Reg) (hs : Plan P pc0 s)
    (hax : s.regs .rax = P.place p) (hg : s.mem.granted = some (P.place p, p, op.size)) :
    Does (host P junk junkFlags) (emitStoreFast P op rs2) scratch s fun t =>
      t.mem.sys = Sys.setHart
        { s.mem.sys with
          bus := Bus.ptrStore s.mem.sys.bus p (leBytes (s.mem.hart.rdReg rs2) op.size) }
        { s.mem.hart with insnsRetired := s.mem.hart.insnsRetired + 1 } := by
  unfold emitStoreFast
  simp only [List.append_assoc]
  refine (does_counted junk junkFlags hs).append fun t _ ⟨hp, hax', hm⟩ => ?_
  refine Does.append (P := fun u => Plan P pc0 u ∧ u.regs .rax = P.place p ∧ u.mem = t.mem ∧
    u.r32 .rcx = s.mem.hart.rdReg rs2) ?_ ?_
  · refine ((does_loadReg junk junkFlags rs2 hp.rdi (by decide)).imp ?_).mono (by decide)
    rintro u hu ⟨hm', hcx⟩
    exact ⟨hp.touches hu (by decide), (hu.regs _ (by decide)).trans (hax'.trans hax), hm',
      by rw [hcx, hm]; rfl⟩
  rintro u - ⟨hp, hax, hm', hcx⟩
  have hstore := does_sizedStore junk junkFlags op hax (by rw [hm', hm]; exact hg)
  refine (hstore.mono (by simp)).append fun v hv hm'' => ?_
  refine ((does_retire junk junkFlags (hp.touches hv fun _ h => h).rdi).mono (by simp)).imp
    fun w _ hw => ?_
  rw [hw, hm'', hcx, hm', hm]
  rfl

/-- What the call-out of a store returns for one that goes through. -/
def storeTag (exit : Exit) (late : Bool) : U64 :=
  match exit with
  | .halt code => TAG_HALT ||| code.setWidth 64
  | _ => if late then TAG_REPOLL else 0

/-- The tag of a store is not negative. -/
theorem msb_storeTag (exit : Exit) (late : Bool) : (storeTag exit late).msb = false := by
  unfold storeTag
  split
  next code =>
    rw [BitVec.msb_or, msb_setWidth_word]
    rfl
  next => cases late <;> rfl

section
variable {m : Mem β} {x : Sys β}

/-- The shim's store that succeeds. -/
theorem storeCommon_ok {op : StoreOp} {va val : U32}
    (h : storeImpl va op.size val m.sys = (.ok (), x)) :
    m.storeCommon va val op.size (op = .sw) =
      (storeTag (storeExit op m.hart.htifTohost va val)
        (Bus.storeMayAssertInterrupt x.bus va op.size), { m with sys := x }) := by
  rw [Mem.storeCommon, h, storeExit]
  dsimp only
  by_cases hc : op = .sw ∧ m.hart.htifTohost = some va ∧ val &&& 1 ≠ 0
  · rw [if_pos ⟨decide_eq_true hc.1, hc.2⟩, if_pos hc]
    rfl
  · rw [if_neg fun h => hc ⟨of_decide_eq_true h.1, h.2⟩, if_neg hc]
    unfold storeTag
    split <;> simp_all

/-- The shim's store that traps. -/
theorem storeCommon_error {va val : U32} {t : Trap} {isSw : Bool} {n : Nat}
    (h : storeImpl va n val m.sys = (.error t, x)) : m.storeCommon va val n isSw =
      (TAG_TRAP, { m with sys := x.setHart { x.hart with jitPendingTrap := some t } }) := by
  rw [Mem.storeCommon, h]

/-- A store through the shim, up to its answer. -/
theorem does_storeCalled (op : StoreOp) (rs2 : Reg) (off : U32) (hs : Plan P pc0 s) :
    Does (host P junk junkFlags) (Asm.addQwordMemImm8 .rdi (P.off .fastPathBails) 1 ++
      emitPc P .rax off ++ (emitCallPreservingRegs (loadReg P .r8 rs2 ++ callShim P (.store op)) ++
        Asm.testR64R64 .rax .rax)) scratch s fun t =>
      Plan P pc0 t ∧ t.flags = logicFlags (t.regs .rax) ∧ ∃ m : Mem β,
        m.sys = s.mem.sys.setHart { s.mem.hart with pc := pc0 + off } ∧ (t.regs .rax, t.mem) =
          m.storeCommon (s.r32 .rcx) (s.mem.hart.rdReg rs2) op.size (op = .sw) := by
  refine (does_bailed junk junkFlags off hs).append fun t _ ⟨hp, hcx, hm⟩ => ?_
  refine ((does_storeTested junk junkFlags op rs2 hp.toPasses).imp ?_).mono (by decide)
  rintro u hu ⟨hcall, hflags⟩
  refine ⟨hp.touches hu (by decide), hflags, { t.mem with granted := none }, hm, ?_⟩
  have hregs : t.mem.hart.rdReg rs2 = s.mem.hart.rdReg rs2 := by
    rw [Mem.hart, hm]
    rfl
  rw [hcall, hcx, hregs]
  rfl

omit [Bus β] in
/-- The slow store: the call, then one of two ends. -/
theorem emitStoreSlow_eq (op : StoreOp) (rs2 : Reg) (off ilen : U32) :
    emitStoreSlow P op rs2 off ilen =
      (Asm.addQwordMemImm8 .rdi (P.off .fastPathBails) 1 ++ emitPc P .rax off ++
        (emitCallPreservingRegs (loadReg P .r8 rs2 ++ callShim P (.store op)) ++
          Asm.testR64R64 .rax .rax)) ++ (emitSkip .ns Asm.ret ++
            (emitSkip .e (retire P ++ emitPc P .rcx (off + ilen) ++ Asm.ret) ++ retire P)) := by
  simp only [emitStoreSlow, List.append_assoc]

variable (op : StoreOp) (rs2 : Reg) (off ilen : U32)

/-- A slow store that traps returns. -/
theorem returns_storeSlow_error {t : Trap} (hs : Plan P pc0 s)
    (h : storeImpl (s.r32 .rcx) op.size (s.mem.hart.rdReg rs2)
      (s.mem.sys.setHart { s.mem.hart with pc := pc0 + off }) = (.error t, x)) :
    Returns (host P junk junkFlags) (emitStoreSlow P op rs2 off ilen) scratch s fun u =>
      u.regs .rax = TAG_TRAP ∧
        u.mem.sys = x.setHart { x.hart with jitPendingTrap := some t } := by
  rw [emitStoreSlow_eq]
  refine (does_storeCalled junk junkFlags op rs2 off hs).returns ?_
  rintro u - ⟨hp, hflags, m, hm, hcall⟩
  rw [← hm] at h
  rw [storeCommon_error h] at hcall
  have hax : u.regs .rax = TAG_TRAP := congrArg Prod.fst hcall
  have hns : Cond.ns.holds u.flags = false := by
    rw [hflags, hax]
    rfl
  refine (returns_emitSkip junk junkFlags hns ?_).append _
  exact (Does.nil (h := host P junk junkFlags)
    ⟨hax, congrArg (fun r => (Prod.snd r).sys) hcall⟩).ret Asm.encodes_ret

/-- The call-out of a store that goes through, up to the test of what it returned. -/
theorem does_storeThrough (hs : Plan P pc0 s)
    (h : storeImpl (s.r32 .rcx) op.size (s.mem.hart.rdReg rs2)
      (s.mem.sys.setHart { s.mem.hart with pc := pc0 + off }) = (.ok (), x)) :
    Does (host P junk junkFlags) (Asm.addQwordMemImm8 .rdi (P.off .fastPathBails) 1 ++
      emitPc P .rax off ++ (emitCallPreservingRegs (loadReg P .r8 rs2 ++ callShim P (.store op)) ++
        Asm.testR64R64 .rax .rax) ++ emitSkip .ns Asm.ret) scratch s fun t =>
      Plan P pc0 t ∧ t.flags = logicFlags (t.regs .rax) ∧ t.mem.sys = x ∧ t.regs .rax = storeTag
        (storeExit op s.mem.hart.htifTohost (s.r32 .rcx) (s.mem.hart.rdReg rs2))
          (Bus.storeMayAssertInterrupt x.bus (s.r32 .rcx) op.size) := by
  refine (does_storeCalled junk junkFlags op rs2 off hs).append ?_
  rintro t - ⟨hp, hflags, m, hm, hcall⟩
  have hto : m.hart.htifTohost = s.mem.hart.htifTohost := by
    rw [Mem.hart, hm]
    rfl
  rw [← hm] at h
  rw [storeCommon_ok h, hto] at hcall
  obtain ⟨hax, hmem⟩ := Prod.mk.inj hcall
  have hns : Cond.ns.holds t.flags = true := by
    rw [hflags, hax, holds_ns_logic, msb_storeTag]
    rfl
  exact does_emitSkip junk junkFlags hns (by decide) ⟨hp, hflags, congrArg Mem.sys hmem, hax⟩

/-- A store that neither halts nor asks for a poll goes on. -/
theorem does_storeSlow (hs : Plan P pc0 s) (hlen : (retire P ++ emitPc P .rcx (off + ilen) ++
      Asm.ret).length < 2 ^ 31)
    (h : storeImpl (s.r32 .rcx) op.size (s.mem.hart.rdReg rs2)
      (s.mem.sys.setHart { s.mem.hart with pc := pc0 + off }) = (.ok (), x))
    (htag : storeTag (storeExit op s.mem.hart.htifTohost (s.r32 .rcx) (s.mem.hart.rdReg rs2))
      (Bus.storeMayAssertInterrupt x.bus (s.r32 .rcx) op.size) = 0) :
    Does (host P junk junkFlags) (emitStoreSlow P op rs2 off ilen) scratch s fun t =>
      t.mem.sys = x.setHart { x.hart with insnsRetired := x.hart.insnsRetired + 1 } := by
  rw [emitStoreSlow_eq, ← List.append_assoc]
  refine (does_storeThrough junk junkFlags op rs2 off hs h).append ?_
  rintro t - ⟨hp, hflags, hm, hax⟩
  have he : Cond.e.holds t.flags = true := by
    rw [hflags, hax, htag]
    rfl
  refine Does.append (P := (· = t)) (does_emitSkip junk junkFlags he hlen rfl) ?_
  rintro u - rfl
  refine ((does_retire junk junkFlags hp.rdi).imp fun w _ hw => ?_).mono (by simp)
  rw [hw, ← hm]
  rfl

/-- A store that halts or asks for a poll retires, and returns past itself. -/
theorem returns_storeSlow (hs : Plan P pc0 s)
    (h : storeImpl (s.r32 .rcx) op.size (s.mem.hart.rdReg rs2)
      (s.mem.sys.setHart { s.mem.hart with pc := pc0 + off }) = (.ok (), x))
    (htag : storeTag (storeExit op s.mem.hart.htifTohost (s.r32 .rcx) (s.mem.hart.rdReg rs2))
      (Bus.storeMayAssertInterrupt x.bus (s.r32 .rcx) op.size) ≠ 0) :
    Returns (host P junk junkFlags) (emitStoreSlow P op rs2 off ilen) scratch s fun t =>
      t.regs .rax = storeTag
        (storeExit op s.mem.hart.htifTohost (s.r32 .rcx) (s.mem.hart.rdReg rs2))
          (Bus.storeMayAssertInterrupt x.bus (s.r32 .rcx) op.size) ∧
      t.mem.sys = x.setHart
        { x.hart with pc := pc0 + (off + ilen), insnsRetired := x.hart.insnsRetired + 1 } := by
  rw [emitStoreSlow_eq, ← List.append_assoc]
  refine (does_storeThrough junk junkFlags op rs2 off hs h).returns ?_
  rintro t - ⟨hp, hflags, hm, hax⟩
  have he : Cond.e.holds t.flags = false := by
    rw [hflags, hax]
    exact decide_eq_false htag
  refine Returns.append (returns_emitSkip junk junkFlags he ?_) _
  refine Does.ret ?_ Asm.encodes_ret
  refine Does.append (P := fun u => Plan P pc0 u ∧ u.regs .rax = t.regs .rax ∧ u.mem.sys =
    x.setHart { x.hart with insnsRetired := x.hart.insnsRetired + 1 }) ?_ ?_
  · refine ((does_retire junk junkFlags hp.rdi).imp fun u hu hm' => ?_).mono (by simp)
    refine ⟨hp.touches hu (by decide), hu.same _, ?_⟩
    rw [hm', ← hm]
    rfl
  rintro u - ⟨hp, hax', hm'⟩
  refine ((does_emitPc junk junkFlags (off + ilen) hp (by decide) (by decide)).imp ?_).mono
    (by decide)
  rintro v hv hm''
  refine ⟨(hv.regs _ (by decide)).trans (hax'.trans hax), ?_⟩
  rw [hm'']
  show (u.mem.modHart _).sys = _
  rw [Mem.modHart, hm']
  rfl

end

end

end Jit

end FuzzSoft
