import FuzzSoft.Jit.Access

/-!
# One step of a compiled chain

`execStep` is one turn of the interpreter's loop over a chain: it ends the chain or goes on. The
code of the step does the same (`doesStep`): where the interpreter ends the chain the code returns
the tag of that end, and where it goes on the code falls through to the next step.
-/

namespace FuzzSoft

namespace Jit

open Lib Lib.X86

section
variable {β : Type} [Bus β]

/-- How the chain ends at a step, if it does. -/
def execStep (iword : Step → U32) (step : Step) (q : Sys β) : Option ChainExit × Sys β :=
  match execOne step.inst q.hart.pc step.ilen (iword step) q with
  | (.error t, q') => (some (.trap t), q'.setHart { q'.hart with jitPendingTrap := some t })
  | (.ok (.halt code), q') => (some (.halt code), q')
  | (.ok _, q') => if repolls step.inst q q' then (some .repoll, q') else (none, q')

/-- A chain is its first instruction, then the rest unless that one exits. -/
theorem execChain_cons (iword : Step → U32) (step : Step) (steps : List Step) (q : Sys β) :
    execChain iword (step :: steps) q =
      match execStep iword step q with
      | (some exit, q') => (exit, q')
      | (none, q') => execChain iword steps q' := by
  rw [execChain, execStep]
  obtain ⟨t | exit, q'⟩ := execOne step.inst q.hart.pc step.ilen (iword step) q
  · rfl
  cases exit with
  | halt code => rfl
  | _ =>
    dsimp only
    split <;> rfl

variable (iword : Step → U32) (step : Step) {q q' : Sys β}

/-- An instruction that traps exits the chain. -/
theorem execStep_error {t : Trap}
    (h : execOne step.inst q.hart.pc step.ilen (iword step) q = (.error t, q')) :
    execStep iword step q =
      (some (.trap t), q'.setHart { q'.hart with jitPendingTrap := some t }) := by
  delta execStep
  rw [h]

/-- One that halts exits it. -/
theorem execStep_halt {code : U32}
    (h : execOne step.inst q.hart.pc step.ilen (iword step) q = (.ok (.halt code), q')) :
    execStep iword step q = (some (.halt code), q') := by
  delta execStep
  rw [h]

/-- One that goes on may still exit to poll again. -/
theorem execStep_continue
    (h : execOne step.inst q.hart.pc step.ilen (iword step) q = (.ok .continue, q')) :
    execStep iword step q =
      if repolls step.inst q q' then (some .repoll, q') else (none, q') := by
  delta execStep
  rw [h]

/-! ## The lengths of the blocks -/

section
variable (P : Process)

/-- A jump can span the fast load. -/
theorem length_loadFast (op : LoadOp) (rd : Reg) : (emitLoadFast P op rd).length < 2 ^ 31 := by
  unfold emitLoadFast storeReg
  cases op <;> split <;> exact of_decide_eq_true rfl

/-- A jump can span the slow load. -/
theorem length_loadSlow (op : LoadOp) (rd : Reg) (off : U32) :
    (emitLoadSlow P op rd off).length + 5 < 2 ^ 31 := by
  unfold emitLoadSlow emitCallPreservingRegs emitCallSaving storeReg
  simp only [List.length_append]
  split <;> exact of_decide_eq_true rfl

/-- A jump can span the fast store. -/
theorem length_storeFast (op : StoreOp) (rs2 : Reg) :
    (emitStoreFast P op rs2).length < 2 ^ 31 := by
  unfold emitStoreFast loadReg
  cases op <;> split <;> exact of_decide_eq_true rfl

/-- A jump can span the slow store. -/
theorem length_storeSlow (op : StoreOp) (rs2 : Reg) (off ilen : U32) :
    (emitStoreSlow P op rs2 off ilen).length + 5 < 2 ^ 31 := by
  unfold emitStoreSlow emitCallPreservingRegs emitCallSaving loadReg
  simp only [List.length_append]
  split <;> exact of_decide_eq_true rfl

/-- A jump can span what ends a chain. -/
theorem length_ended (next : U32) :
    (retire P ++ emitPc P .rcx next ++ Asm.ret).length < 2 ^ 31 :=
  of_decide_eq_true rfl

end

/-! ## The code of a step -/

section
variable (junk : State (Mem β) → Gpr → Word) (junkFlags : State (Mem β) → Flags)

/-- What the code of a step does beside the interpreter. Only the last step of a chain leaves the
interpreter's `pc`. -/
def DoesStep (P : Process) (log : Option (List (U32 × U32))) (iword : Step → U32) (step : Step)
    (s : State (Mem β)) (q : Sys β) : Prop :=
  match execStep iword step q with
  | (some exit, q') => Returns (host P junk junkFlags) (emitRetired P step) scratch s fun t =>
      t.regs .rax = exit.tag ∧ Follows log q'.hart.pc t.mem.sys q'
  | (none, q') => Does (host P junk junkFlags) (emitRetired P step) scratch s fun t =>
      ∃ pc, Follows log pc t.mem.sys q' ∧
        if isTerminal step.inst then pc = q'.hart.pc else q'.hart.pc = q.hart.pc + step.ilen

variable {iword step} {junk junkFlags} {P : Process} {log : Option (List (U32 × U32))}
  {s : State (Mem β)}
  {pc pc0 : U32} {I : β → Prop}

/-- The code of an instruction that exits returns its exit. -/
theorem DoesStep.of_some {exit : ChainExit} (h : execStep iword step q = (some exit, q'))
    (hr : Returns (host P junk junkFlags) (emitRetired P step) scratch s fun t =>
      t.regs .rax = exit.tag ∧ Follows log q'.hart.pc t.mem.sys q') :
    DoesStep junk junkFlags P log iword step s q := by
  delta DoesStep
  rw [h]
  exact hr

/-- The code of one that goes on falls through. -/
theorem DoesStep.of_none (h : execStep iword step q = (none, q'))
    (hd : Does (host P junk junkFlags) (emitRetired P step) scratch s fun t =>
      ∃ pc, Follows log pc t.mem.sys q' ∧
        if isTerminal step.inst then pc = q'.hart.pc else q'.hart.pc = q.hart.pc + step.ilen) :
    DoesStep junk junkFlags P log iword step s q := by
  delta DoesStep
  rw [h]
  exact hd

/-- Only a memory access polls again. -/
theorem repolls_of_not_mem (h : isMem step.inst = false) (q q' : Sys β) :
    repolls step.inst q q' = false := by
  cases hinst : step.inst with
  | store => rw [hinst] at h; exact Bool.noConfusion h
  | _ => rfl

variable (junk junkFlags)

/-- The code of arithmetic and jumps. -/
theorem doesStep_plain (hmem : isMem step.inst = false)
    (hlink : isAluLink step.inst = true ∨ isTerminal step.inst = true) (hs : Plan P pc0 s)
    (hf : Follows log pc s.mem.sys q) (hpc : q.hart.pc = pc0 + step.staticOffset)
    (hk : q.hart.kmsanEnabled = false) : DoesStep junk junkFlags P log iword step s q := by
  obtain ⟨rd, v, next, pc', ⟨log', hexec⟩, hnext, hd⟩ :=
    does_plain junk junkFlags step (iword step) hmem hlink hs hf.regs hpc hk
  have hstep := execStep_continue iword step hexec
  rw [repolls_of_not_mem hmem, if_neg Bool.false_ne_true] at hstep
  refine .of_none hstep ?_
  rw [emitRetired, hmem, if_neg Bool.false_ne_true]
  refine hd.append fun t ht hm => ?_
  refine ((does_retire junk junkFlags ((hs.touches ht fun _ h => h).rdi)).mono (by simp)).imp
    fun u _ hm' => ⟨pc', ?_, ?_⟩
  · have hcount : (s.mem.sys.hart.wrReg rd v).insnsRetired = s.mem.sys.hart.insnsRetired := by
      unfold Hart.wrReg
      split <;> rfl
    refine Eq.trans ?_ (hf.retire rd v next pc')
    rw [hm', hm, ← hcount]
    rfl
  · by_cases hterm : isTerminal step.inst = true
    · rw [if_pos hterm] at hnext ⊢
      exact hnext
    · rw [if_neg hterm] at hnext ⊢
      exact hnext.2

/-! ### Pointers -/

/-- The answer to the question for a pointer, as the code sees it. -/
def Answered (P : Process) (n : Nat) (r : Option HostPtr × β) (x : Sys β) (t : State (Mem β)) :
    Prop :=
  t.mem.sys = { x with bus := r.2 } ∧
    match r.1 with
    | some p => Cond.ne.holds t.flags = true ∧ t.regs .rax = P.place p ∧
        t.mem.granted = some (P.place p, p, n)
    | none => Cond.ne.holds t.flags = false

omit [Bus β] in
/-- What the shim answers is what the hart grants. -/
theorem Answered.of_grant {n : Nat} {r : Option HostPtr × β} {m : Mem β} {t : State (Mem β)}
    (hflags : t.flags = logicFlags (t.regs .rax))
    (h : (t.regs .rax, t.mem) = m.grant P n r) : Answered P n r m.sys t := by
  obtain ⟨p | p, b⟩ := r
  · obtain ⟨hax, hm⟩ := Prod.mk.inj h
    refine ⟨by rw [hm], ?_⟩
    dsimp only
    rw [hflags, holds_ne_logic, hax]
    rfl
  · obtain ⟨hax, hm⟩ := Prod.mk.inj h
    refine ⟨by rw [hm], ?_, hax, by rw [hm]⟩
    rw [hflags, holds_ne_logic, hax]
    exact decide_eq_true (P.place_ne_zero p)

/-- A load asks for a pointer to its address. -/
theorem does_askedLoad (op : LoadOp) (rs1 : Reg) (imm : U32) (hs : Plan P pc0 s)
    (hf : Follows log pc s.mem.sys q) :
    Does (host P junk junkFlags) (emitVa P rs1 imm ++ emitFastPtr P (.fastLoadPtr (loadWidth op)))
      scratch s fun t => Plan P pc0 t ∧ t.r32 .rcx = q.hart.rdReg rs1 + imm ∧
        Answered P op.size (fastLoadPtr q (q.hart.rdReg rs1 + imm) op.size) s.mem.sys t := by
  refine (does_asked junk junkFlags (.fastLoadPtr (loadWidth op)) rs1 imm hs).imp ?_
  rintro t - ⟨hp, hcx, hflags, hcall⟩
  have hva : s.mem.hart.rdReg rs1 = q.hart.rdReg rs1 := hf.regs rs1
  have hsize : (loadWidth op).size = op.size := by cases op <;> rfl
  rw [hva] at hcx hcall
  refine ⟨hp, hcx, Answered.of_grant (m := { s.mem with granted := none }) hflags ?_⟩
  rw [hcall, ← hf.fastLoadPtr, ← hsize]
  rfl

/-- So does a store. -/
theorem does_askedStore (op : StoreOp) (rs1 : Reg) (imm : U32) (hs : Plan P pc0 s)
    (hf : Follows log pc s.mem.sys q) :
    Does (host P junk junkFlags) (emitVa P rs1 imm ++ emitFastPtr P (.fastStorePtr op)) scratch s
      fun t => Plan P pc0 t ∧ t.r32 .rcx = q.hart.rdReg rs1 + imm ∧
        Answered P op.size (fastStorePtr q (q.hart.rdReg rs1 + imm) op.size (op = .sw))
          s.mem.sys t := by
  refine (does_asked junk junkFlags (.fastStorePtr op) rs1 imm hs).imp ?_
  rintro t - ⟨hp, hcx, hflags, hcall⟩
  have hva : s.mem.hart.rdReg rs1 = q.hart.rdReg rs1 := hf.regs rs1
  rw [hva] at hcx hcall
  refine ⟨hp, hcx, Answered.of_grant (m := { s.mem with granted := none }) hflags ?_⟩
  rw [hcall, ← hf.fastStorePtr]
  rfl

/-! ### Loads -/

omit [Bus β] in
/-- The code of a load: ask, then one of two paths. -/
theorem emitRetired_load (op : LoadOp) (rd rs1 : Reg) (imm ilen off : U32) :
    emitRetired P ⟨.load op rd rs1 imm, ilen, off⟩ =
      (emitVa P rs1 imm ++ emitFastPtr P (.fastLoadPtr (loadWidth op))) ++
        emitIfElse .ne (emitLoadFast P op rd) (emitLoadSlow P op rd off) :=
  List.append_nil _

omit [Bus β] in
/-- A system whose bus is its own. -/
theorem withBus_self (x : Sys β) {b : β} (h : b = x.bus) : { x with bus := b } = x := by
  rw [h]

/-- The load through a pointer. -/
theorem doesStep_loadFast (hI : Serves I) {op : LoadOp} {rd rs1 : Reg} {imm ilen off : U32}
    {p : HostPtr} {b : β} (hs : Plan P pc0 s) (hf : Follows log pc s.mem.sys q) (hi : I q.bus)
    (hk : q.hart.kmsanEnabled = false)
    (hg : fastLoadPtr q (q.hart.rdReg rs1 + imm) op.size = (some p, b)) :
    DoesStep junk junkFlags P log iword ⟨.load op rd rs1 imm, ilen, off⟩ s q := by
  have hsize : AccessSize op.size := by cases op <;> simp [AccessSize, LoadOp.size]
  obtain ⟨hb, hload⟩ := (hI.access hi).load hsize hg op.signed
  have hstep := execStep_continue iword ⟨.load op rd rs1 imm, ilen, off⟩
    (execOne_load hk rfl hload)
  refine .of_none hstep ?_
  rw [emitRetired_load]
  refine (does_askedLoad junk junkFlags op rs1 imm hs hf).append fun t _ ⟨hp, hcx, hans⟩ => ?_
  rw [hg] at hans
  obtain ⟨hm, hne, hax, hgr⟩ := hans
  rw [withBus_self s.mem.sys (hb.trans hf.view.bus.symm)] at hm
  have hlen : (Bus.ptrLoad t.mem.sys.bus p op.size).length = op.size := hI.length _ _ _
  refine does_emitIfElse_then junk junkFlags hne (length_loadSlow P op rd off) ?_
  refine (does_loadFast junk junkFlags op rd hp hax hgr hlen).imp fun u _ hu => ⟨pc, ?_, rfl⟩
  refine Eq.trans ?_ (hf.loaded rd _ _ pc)
  rw [hu, Mem.hart, hm, hf.view.bus, hb, hf.pc_eq]

/-- The code of a load, on both paths. -/
theorem doesStep_load (hI : Serves I) {op : LoadOp} {rd rs1 : Reg} {imm ilen off : U32}
    (hs : Plan P pc0 s) (hf : Follows log pc s.mem.sys q) (hi : I q.bus)
    (hpc : q.hart.pc = pc0 + off) (hk : q.hart.kmsanEnabled = false) :
    DoesStep junk junkFlags P log iword ⟨.load op rd rs1 imm, ilen, off⟩ s q := by
  rcases hg : fastLoadPtr q (q.hart.rdReg rs1 + imm) op.size with ⟨_ | p, b⟩
  swap
  · exact doesStep_loadFast junk junkFlags hI hs hf hi hk hg
  have hasked := does_askedLoad junk junkFlags op rs1 imm hs hf
  rw [hg] at hasked
  have hsame : ∀ {t : State (Mem β)}, t.mem.sys = { s.mem.sys with bus := b } →
      t.mem.sys = s.mem.sys := fun hm =>
    hm.trans (withBus_self _ ((hI.loadPtr hg).trans hf.view.bus.symm))
  obtain ⟨r, x', q', hx, hq, hf', hhart⟩ := (hf.setPc (pc0 + off)).access
    (fun h => h.loadImpl (q.hart.rdReg rs1 + imm) op.size op.signed) (loadImpl_keeps _ _ _)
  cases r with
  | error t =>
    refine .of_some (execStep_error iword ⟨.load op rd rs1 imm, ilen, off⟩
      (execOne_load_error hq)) ?_
    rw [emitRetired_load]
    refine hasked.returns fun u _ hu => ?_
    obtain ⟨hp, hcx, hm, hne⟩ := hu
    refine returns_emitIfElse_else junk junkFlags hne ?_
    have hslow := returns_loadSlow junk junkFlags op rd off hp
      (by rw [hcx, Mem.hart, hsame hm]; exact hx)
    refine hslow.imp fun v _ hret => ⟨hret.1, ?_⟩
    have hend : q'.hart.pc = pc0 + off := by rw [hhart, hpc]
    rw [hret.2]
    show Follows log q'.hart.pc _ _
    rw [hend]
    exact hf'.pend t
  | ok v =>
    refine .of_none (execStep_continue iword ⟨.load op rd rs1 imm, ilen, off⟩
      (execOne_load hk hhart hq)) ?_
    rw [emitRetired_load]
    refine hasked.append fun u _ hu => ?_
    obtain ⟨hp, hcx, hm, hne⟩ := hu
    refine does_emitIfElse_else junk junkFlags hne (length_loadFast P op rd) ?_
    have hslow := does_loadSlow junk junkFlags op rd off hp
      (by rw [hcx, Mem.hart, hsame hm]; exact hx)
    refine hslow.imp fun w _ hw => ⟨pc0 + off, ?_, rfl⟩
    refine Eq.trans ?_ (hf'.loaded rd v _ (pc0 + off))
    rw [hw, hf'.pc_eq]

/-! ### Stores -/

omit [Bus β] in
/-- The code of a store: ask, then one of two paths. -/
theorem emitRetired_store (op : StoreOp) (rs1 rs2 : Reg) (imm ilen off : U32) :
    emitRetired P ⟨.store op rs1 rs2 imm, ilen, off⟩ =
      (emitVa P rs1 imm ++ emitFastPtr P (.fastStorePtr op)) ++
        emitIfElse .ne (emitStoreFast P op rs2) (emitStoreSlow P op rs2 off ilen) :=
  List.append_nil _

/-- A store to `tohost` never gets a pointer. -/
theorem storeExit_granted {op : StoreOp} {va val : U32} {n : Nat} {p : HostPtr} {b : β}
    (h : fastStorePtr q va n (op = .sw) = (some p, b)) :
    storeExit op q.hart.htifTohost va val = .continue := by
  refine if_neg fun hc => ?_
  unfold fastStorePtr at h
  split at h
  · cases h
  · rw [if_pos (by simpa using ⟨hc.1, hc.2.1⟩)] at h
    cases h

/-- A halt is not the tag that goes on. -/
theorem tag_halt_ne_zero (code : U32) : (ChainExit.halt code).tag ≠ 0 := by
  intro h
  have hbit := congrArg (BitVec.getLsbD · 62) h
  simp [ChainExit.tag, TAG_HALT] at hbit

/-- The store through a pointer. -/
theorem doesStep_storeFast (hI : Serves I) {op : StoreOp} {rs1 rs2 : Reg} {imm ilen off : U32}
    {p : HostPtr} {b : β} (hs : Plan P pc0 s) (hf : Follows log pc s.mem.sys q) (hi : I q.bus)
    (hk : q.hart.kmsanEnabled = false)
    (hg : fastStorePtr q (q.hart.rdReg rs1 + imm) op.size (op = .sw) = (some p, b)) :
    DoesStep junk junkFlags P log iword ⟨.store op rs1 rs2 imm, ilen, off⟩ s q := by
  have hsize : AccessSize op.size := by cases op <;> simp [AccessSize, StoreOp.size]
  have hstore := (hI.access hi).store hsize hg (q.hart.rdReg rs2)
  have hstep := execStep_continue iword ⟨.store op rs1 rs2 imm, ilen, off⟩
    ((execOne_store hk hstore).trans (by rw [storeExit_granted hg]))
  have hpoll : ∀ q', repolls (.store op rs1 rs2 imm) q q' = false := fun q' => by
    rw [repolls, hg]
    rfl
  rw [hpoll, if_neg Bool.false_ne_true] at hstep
  refine .of_none hstep ?_
  rw [emitRetired_store]
  refine (does_askedStore junk junkFlags op rs1 imm hs hf).append fun t _ ⟨hp, hcx, hans⟩ => ?_
  rw [hg] at hans
  obtain ⟨hm, hne, hax, hgr⟩ := hans
  refine does_emitIfElse_then junk junkFlags hne (length_storeSlow P op rs2 off ilen) ?_
  refine (does_storeFast junk junkFlags op rs2 hp hax hgr).imp fun u _ hu => ⟨pc, ?_, rfl⟩
  refine Eq.trans ?_ ((hf.withBus _).retired _ pc)
  have hregs : t.mem.hart.rdReg rs2 = q.hart.rdReg rs2 := by
    rw [Mem.hart, hm]
    exact hf.regs rs2
  obtain rfl := hf.pc_eq
  rw [hu, hregs, Mem.hart, hm]
  rfl

section
variable {op : StoreOp} {rs1 rs2 : Reg} {imm ilen off : U32} {x' : Sys β}

/-- Without a pointer nothing has changed before the call-out. -/
theorem does_declinedStore (rs2 : Reg) (hI : Serves I) {b : β} (hs : Plan P pc0 s)
    (hf : Follows log pc s.mem.sys q)
    (hg : fastStorePtr q (q.hart.rdReg rs1 + imm) op.size (op = .sw) = (none, b)) :
    Does (host P junk junkFlags) (emitVa P rs1 imm ++ emitFastPtr P (.fastStorePtr op)) scratch s
      fun t => Plan P pc0 t ∧ Cond.ne.holds t.flags = false ∧ t.mem.sys = s.mem.sys ∧
        t.r32 .rcx = q.hart.rdReg rs1 + imm ∧ t.mem.hart.rdReg rs2 = q.hart.rdReg rs2 ∧
          t.mem.hart.htifTohost = q.hart.htifTohost := by
  have hasked := does_askedStore junk junkFlags op rs1 imm hs hf
  rw [hg] at hasked
  refine hasked.imp fun t _ ⟨hp, hcx, hm, hne⟩ => ?_
  rw [withBus_self s.mem.sys ((hI.storePtr hg).trans hf.view.bus.symm)] at hm
  refine ⟨hp, hne, hm, hcx, ?_, ?_⟩
  · rw [Mem.hart, hm]
    exact hf.regs rs2
  · rw [Mem.hart, hm, hf]
    rfl

/-- A store that ends the chain after it has gone through. -/
theorem doesStep_storeEnds (hI : Serves I) {b : β} {exit : ChainExit} (hs : Plan P pc0 s)
    (hf : Follows log pc s.mem.sys q) (hpc : q.hart.pc = pc0 + off)
    (hg : fastStorePtr q (q.hart.rdReg rs1 + imm) op.size (op = .sw) = (none, b))
    (hx : storeImpl (q.hart.rdReg rs1 + imm) op.size (q.hart.rdReg rs2)
      (s.mem.sys.setHart { s.mem.sys.hart with pc := pc0 + off }) = (.ok (), x'))
    (hf' : Follows log (pc0 + off) x' q')
    (hstep : execStep iword ⟨.store op rs1 rs2 imm, ilen, off⟩ q =
      (some exit, q'.setHart (q'.hart.retire (q.hart.pc + ilen))))
    (htag : storeTag (storeExit op q.hart.htifTohost (q.hart.rdReg rs1 + imm) (q.hart.rdReg rs2))
      (Bus.storeMayAssertInterrupt x'.bus (q.hart.rdReg rs1 + imm) op.size) = exit.tag)
    (hne : exit.tag ≠ 0) :
    DoesStep junk junkFlags P log iword ⟨.store op rs1 rs2 imm, ilen, off⟩ s q := by
  refine .of_some hstep ?_
  rw [emitRetired_store]
  refine (does_declinedStore junk junkFlags rs2 hI hs hf hg).returns ?_
  rintro t - ⟨hp, hz, hm, hcx, hrs2, hto⟩
  refine returns_emitIfElse_else junk junkFlags hz ?_
  rw [← hm, ← hcx, ← hrs2] at hx
  rw [← hcx, ← hrs2, ← hto] at htag
  refine (returns_storeSlow junk junkFlags op rs2 off ilen hp hx (by rw [htag]; exact hne)).imp
    fun u _ ⟨hax, hu⟩ => ⟨hax.trans htag, ?_⟩
  refine Eq.trans ?_ (hf'.retired (q.hart.pc + ilen) (q.hart.pc + ilen))
  rw [hu, hpc, BitVec.add_assoc]

/-- The code of a store, on both paths. -/
theorem doesStep_store (hI : Serves I) (hs : Plan P pc0 s) (hf : Follows log pc s.mem.sys q)
    (hi : I q.bus) (hpc : q.hart.pc = pc0 + off) (hk : q.hart.kmsanEnabled = false) :
    DoesStep junk junkFlags P log iword ⟨.store op rs1 rs2 imm, ilen, off⟩ s q := by
  rcases hg : fastStorePtr q (q.hart.rdReg rs1 + imm) op.size (op = .sw) with ⟨_ | p, b⟩
  swap
  · exact doesStep_storeFast junk junkFlags hI hs hf hi hk hg
  have hasked := does_declinedStore junk junkFlags rs2 hI hs hf hg
  obtain ⟨r, x', q', hx, hq, hf', hhart⟩ := (hf.setPc (pc0 + off)).access
    (fun h => h.storeImpl (q.hart.rdReg rs1 + imm) op.size (q.hart.rdReg rs2))
      (storeImpl_keeps _ _ _)
  cases r with
  | error t =>
    refine .of_some (execStep_error iword ⟨.store op rs1 rs2 imm, ilen, off⟩
      (execOne_store_error hq)) ?_
    rw [emitRetired_store]
    refine hasked.returns fun u _ ⟨hp, hz, hm, hcx, hrs2, _⟩ => ?_
    refine returns_emitIfElse_else junk junkFlags hz ?_
    rw [← hm, ← hcx, ← hrs2] at hx
    refine (returns_storeSlow_error junk junkFlags op rs2 off ilen hp hx).imp
      fun v _ ⟨hax, hv⟩ => ⟨hax, ?_⟩
    have hend : q'.hart.pc = pc0 + off := by rw [hhart, hpc]
    rw [hv]
    show Follows log q'.hart.pc _ _
    rw [hend]
    exact hf'.pend t
  | ok _ =>
    have hexec : execOne (.store op rs1 rs2 imm) q.hart.pc ilen
        (iword ⟨.store op rs1 rs2 imm, ilen, off⟩) q =
          (.ok (storeExit op q.hart.htifTohost (q.hart.rdReg rs1 + imm) (q.hart.rdReg rs2)),
            q'.setHart (q'.hart.retire (q.hart.pc + ilen))) := execOne_store hk hq
    by_cases hh : op = .sw ∧ q.hart.htifTohost = some (q.hart.rdReg rs1 + imm) ∧
        q.hart.rdReg rs2 &&& 1 ≠ 0
    · rw [storeExit, if_pos hh] at hexec
      refine doesStep_storeEnds junk junkFlags hI hs hf hpc hg hx hf'
        (execStep_halt iword _ hexec) ?_ (tag_halt_ne_zero _)
      rw [storeExit, if_pos hh]
      rfl
    have hcont : storeExit op q.hart.htifTohost (q.hart.rdReg rs1 + imm) (q.hart.rdReg rs2) =
        .continue := if_neg hh
    rw [hcont] at hexec
    have hstep := execStep_continue iword ⟨.store op rs1 rs2 imm, ilen, off⟩ hexec
    have hpoll : repolls (.store op rs1 rs2 imm) q
        (q'.setHart (q'.hart.retire (q.hart.pc + ilen))) =
        Bus.storeMayAssertInterrupt x'.bus (q.hart.rdReg rs1 + imm) op.size := by
      rw [repolls, hg, hf'.view.bus]
      rfl
    rw [hpoll] at hstep
    cases hlate : Bus.storeMayAssertInterrupt x'.bus (q.hart.rdReg rs1 + imm) op.size with
    | true =>
      rw [hlate, if_pos rfl] at hstep
      refine doesStep_storeEnds junk junkFlags hI hs hf hpc hg hx hf' hstep ?_ (by decide)
      rw [hcont, hlate]
      rfl
    | false =>
      rw [hlate, if_neg Bool.false_ne_true] at hstep
      refine .of_none hstep ?_
      rw [emitRetired_store]
      refine hasked.append fun u _ ⟨hp, hz, hm, hcx, hrs2, hto⟩ => ?_
      refine does_emitIfElse_else junk junkFlags hz (length_storeFast P op rs2) ?_
      rw [← hm, ← hcx, ← hrs2] at hx
      have htag : storeTag (storeExit op u.mem.hart.htifTohost (u.r32 .rcx) (u.mem.hart.rdReg rs2))
          (Bus.storeMayAssertInterrupt x'.bus (u.r32 .rcx) op.size) = 0 := by
        rw [hto, hcx, hrs2, hcont, hlate]
        rfl
      refine (does_storeSlow junk junkFlags op rs2 off ilen hp (length_ended P _) hx htag).imp
        fun w _ hw => ⟨pc0 + off, ?_, rfl⟩
      refine Eq.trans ?_ (hf'.retired _ (pc0 + off))
      rw [hw, ← hf'.pc_eq]

end

/-! ### Every step of a chain -/

/-- The code of every instruction of a chain. -/
theorem doesStep (iword : Step → U32) (step : Step) (hI : Serves I)
    (hlink : isAluLink step.inst = true ∨ isTerminal step.inst = true) (hs : Plan P pc0 s)
    (hf : Follows log pc s.mem.sys q) (hi : I q.bus) (hpc : q.hart.pc = pc0 + step.staticOffset)
    (hk : q.hart.kmsanEnabled = false) : DoesStep junk junkFlags P log iword step s q := by
  cases hmem : isMem step.inst with
  | false => exact doesStep_plain junk junkFlags hmem hlink hs hf hpc hk
  | true =>
    obtain ⟨inst, ilen, off⟩ := step
    cases inst with
    | load op rd rs1 imm => exact doesStep_load junk junkFlags hI hs hf hi hpc hk
    | store op rs1 rs2 imm => exact doesStep_store junk junkFlags hI hs hf hi hpc hk
    | _ => exact Bool.noConfusion hmem

/-- Without taint tracking a step keeps what stores keep, and tracks no taint. -/
theorem execStep_keeps (iword : Step → U32) (step : Step) (hI : Serves I)
    (hk : q.hart.kmsanEnabled = false) (hi : I q.bus) :
    (execStep iword step q).2.hart.kmsanEnabled = false ∧ I (execStep iword step q).2.bus := by
  have hsim : BusSim false fun b c : β => b = c ∧ I b := by
    refine ⟨fun h _ _ => by rw [h.1], fun h _ => by rw [h.1], fun h _ _ => by rw [h.1], ?_, ?_⟩
    · rintro b _ ⟨rfl, h⟩ pa n v
      exact ⟨rfl, rfl, hI.store h pa n v⟩
    · exact fun h => Bool.noConfusion h
  have htwin : Twin false (fun b c : β => b = c ∧ I b) q q := ⟨rfl, ⟨rfl, hi⟩, hk⟩
  have hrel := (hsim.busUniform.uniform.execOne q.hart.pc step.ilen (iword step) htwin
    (hsim.storeSim htwin step.inst)).rel
  unfold execStep
  generalize execOne step.inst q.hart.pc step.ilen (iword step) q = r at hrel ⊢
  obtain ⟨t | exit, q'⟩ := r
  · exact ⟨hrel.kmsan, hrel.bus.2⟩
  · cases exit with
    | halt code => exact ⟨hrel.kmsan, hrel.bus.2⟩
    | _ =>
      dsimp only
      split <;> exact ⟨hrel.kmsan, hrel.bus.2⟩

end

end

end Jit

end FuzzSoft
