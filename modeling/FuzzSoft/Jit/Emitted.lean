import FuzzSoft.Jit.Chain
import FuzzSoft.Riscv.Frame

/-!
# What emitted fragments do

Between two instructions of a chain the emitted code keeps its register plan (`Plan`): the `Cpu` and
the bus in the argument registers, and the entry `pc` in `r8`. Each fragment of an instruction is a
lemma here: what it leaves in its scratch registers and in the memory, and that it touches nothing
else.
-/

namespace FuzzSoft

namespace Jit

open Lib Lib.X86

/-! ## The memory -/

/-- A table with distinct keys finds the entry of a key. -/
theorem find?_of_injective {α κ : Type} [DecidableEq κ] {φ : α → κ} (hφ : Function.Injective φ)
    {l : List α} {a : α} (ha : a ∈ l) : l.find? (fun b => φ b = φ a) = some a := by
  cases hf : l.find? fun b => φ b = φ a with
  | none =>
    have hnot := List.find?_eq_none.1 hf a ha
    exact absurd (decide_eq_true rfl) hnot
  | some b =>
    have hb : φ b = φ a := by simpa using List.find?_some hf
    exact congrArg some (hφ hb)

/-- The low half of a sign-extended word. -/
theorem setWidth_signExtend (v : U32) : (v.signExtend 64).setWidth 32 = v := by
  apply BitVec.eq_of_getLsbD_eq
  intro i hi
  rw [BitVec.getLsbD_setWidth, BitVec.getLsbD_signExtend]
  simp [hi, show i < 64 by omega]

namespace Process

variable (P : Process)

/-- The fields stand at different addresses. -/
theorem fieldAddr_injective : Function.Injective P.fieldAddr := by
  intro f g h
  have hoff : (P.off f).signExtend 64 = (P.off g).signExtend 64 := (BitVec.add_right_inj _).1 h
  refine P.apart ?_
  rw [← setWidth_signExtend (P.off f), hoff, setWidth_signExtend]

/-- The table lists every field. -/
theorem mem_fields (f : Field) : f ∈ fields := by
  cases f with
  | reg i => exact List.mem_append_left _ (List.mem_map.2 ⟨i.toFin, List.mem_finRange _, rfl⟩)
  | _ => decide

/-- An address of a field is that of the field. -/
theorem fieldAt_fieldAddr (f : Field) : P.fieldAt (P.fieldAddr f) = some f :=
  find?_of_injective P.fieldAddr_injective (mem_fields f)

/-- The host memory of the guest is apart from the fields. -/
theorem fieldAt_place (p : HostPtr) : P.fieldAt (P.place p) = none :=
  List.find?_eq_none.2 fun f _ h => P.place_ne_field p f (of_decide_eq_true h).symm

/-- The address of a shim is that of the shim. -/
theorem shimAt_shim (f : Shim) : P.shimAt (P.shim f) = some f := by
  refine find?_of_injective P.shim_apart ?_
  cases f with
  | load op | store op | fastLoadPtr op | fastStorePtr op => cases op <;> decide

end Process

section
variable {β : Type} [Bus β] {P : Process}

/-- A load at a field reads it. -/
theorem load_field (m : Mem β) (f : Field) (n : Nat) :
    m.load P (P.fieldAddr f) n = m.readField f n := by
  rw [Mem.load, P.fieldAt_fieldAddr]

/-- A store at a field writes it. -/
theorem store_field (m : Mem β) (f : Field) (n : Nat) (v : BitVec (8 * n)) :
    m.store P (P.fieldAddr f) n v = m.writeField f n v := by
  rw [Mem.store, P.fieldAt_fieldAddr]

omit [Bus β] in
/-- The address that the code computes for a field. -/
theorem addr_field {s : State (Mem β)} (hdi : s.regs .rdi = P.cpu) (f : Field) :
    s.addr .rdi (P.off f) = P.fieldAddr f := by
  rw [State.addr, hdi, Process.fieldAddr]

/-! ## The register plan -/

/-- The first three arguments of every call-out. -/
structure Passes (P : Process) (s : State (Mem β)) : Prop where
  rdi : s.regs .rdi = P.cpu
  rsi : s.regs .rsi = P.busData
  rdx : s.regs .rdx = P.busVtable

/-- The registers that hold the same values between any two instructions of a chain. -/
structure Plan (P : Process) (pc0 : U32) (s : State (Mem β)) : Prop extends Passes P s where
  r8 : s.r32 .r8 = pc0

/-- The registers that the code of an instruction uses up. -/
def scratch : List Gpr := [.rax, .rcx, .r9, .r10, .r11]

section
variable {s t : State (Mem β)} {rs : List Gpr}

omit [Bus β]

/-- The shim's arguments stand while their registers are left alone. -/
theorem Passes.touches (hs : Passes P s) (hu : Touches rs s t)
    (hrs : .rdi ∉ rs ∧ .rsi ∉ rs ∧ .rdx ∉ rs) : Passes P t :=
  ⟨(hu.regs _ hrs.1).trans hs.rdi, (hu.regs _ hrs.2.1).trans hs.rsi,
    (hu.regs _ hrs.2.2).trans hs.rdx⟩

/-- The chain's registers stand while only scratch registers change. -/
theorem Plan.touches {pc0 : U32} (hp : Plan P pc0 s) (hu : Touches rs s t)
    (hrs : ∀ r ∈ rs, r ∈ scratch) : Plan P pc0 t := by
  have hout : ∀ r, r ∉ scratch → r ∉ rs := fun r hr h => hr (hrs r h)
  refine ⟨hp.toPasses.touches hu ⟨?_, ?_, ?_⟩, ?_⟩
  · exact hout _ (by decide)
  · exact hout _ (by decide)
  · exact hout _ (by decide)
  · rw [← hp.r8, State.r32, State.r32, hu.regs _ (hout _ (by decide))]

end

end

section
variable {β : Type} [Bus β] {P : Process} (junk : State (Mem β) → Gpr → Word)
  (junkFlags : State (Mem β) → Flags) {s : State (Mem β)}

omit [Bus β] in
/-- Writing 32 bits of a register and whatever happens to the flags. -/
theorem touches_set32 (s : State (Mem β)) (dst : Gpr) (v : U32) (f : Flags) :
    Touches [dst] s ((s.set32 dst v).withFlags f) := .set s dst _ f s.mem

/-! ## Fields of the `Cpu` -/

/-- The load of a field. -/
theorem exec_loadField {dst : Gpr} {f : Field} {v : U32} (hdi : s.regs .rdi = P.cpu)
    (hr : s.mem.readField f 4 = some v) :
    exec (host P junk junkFlags) (.load dst .rdi (P.off f)) s = some (s.set32 dst v) := by
  have hload : s.mem.load P (s.addr .rdi (P.off f)) 4 = some v := by
    rw [addr_field hdi, load_field, hr]
  show (s.mem.load P (s.addr .rdi (P.off f)) 4).bind _ = _
  rw [hload]
  rfl

/-- The store of a field. -/
theorem exec_storeField {src : Gpr} {f : Field} {m : Mem β} (hdi : s.regs .rdi = P.cpu)
    (hw : s.mem.writeField f 4 (s.r32 src) = some m) :
    exec (host P junk junkFlags) (.store .rdi (P.off f) src) s = some (s.withMem m) := by
  have hstore : s.mem.store P (s.addr .rdi (P.off f)) 4 (s.r32 src) = some m := by
    rw [addr_field hdi, store_field, hw]
  show (s.mem.store P (s.addr .rdi (P.off f)) 4 (s.r32 src)).bind _ = _
  rw [hstore]
  rfl

/-- Adding one to a counter. -/
theorem does_count {f : Field} {v : U64} {m : Mem β} (hdi : s.regs .rdi = P.cpu)
    (hr : s.mem.readField f 8 = some v) (hw : s.mem.writeField f 8 (v + 1) = some m) :
    Does (host P junk junkFlags) (Asm.addQwordMemImm8 .rdi (P.off f) 1) [] s fun t =>
      t.mem = m := by
  refine .instr (t := (s.withMem m).withFlags (addFlags v 1))
    (Asm.encodes_addQwordMemImm8 (by decide)) ?_ ⟨fun _ _ => rfl, rfl⟩ rfl
  have hload : s.mem.load P (s.addr .rdi (P.off f)) 8 = some v := by
    rw [addr_field hdi, load_field, hr]
  have hstore : s.mem.store P (s.addr .rdi (P.off f)) 8 (v + 1) = some m := by
    rw [addr_field hdi, store_field, hw]
  show (s.mem.load P (s.addr .rdi (P.off f)) 8).bind _ = _
  rw [hload]
  show (s.mem.store P (s.addr .rdi (P.off f)) 8 (v + 1)).bind _ = _
  rw [hstore]
  rfl

/-- Reading a guest register. -/
theorem does_loadReg {dst : Gpr} (i : Reg) (hdi : s.regs .rdi = P.cpu) (hd : Gpr.rsp ≠ dst) :
    Does (host P junk junkFlags) (loadReg P dst i) [dst] s fun t =>
      t.mem = s.mem ∧ t.r32 dst = s.mem.hart.rdReg i := by
  unfold loadReg Hart.rdReg
  split
  · refine .instr (Asm.encodes_aluR32R32 .xor hd hd) rfl (touches_set32 s dst _ _) ⟨rfl, ?_⟩
    have hz : s.r32 dst ^^^ s.r32 dst = 0 := BitVec.xor_self
    exact (s.r32_set32 dst _).trans hz
  · exact .instr (Asm.encodes_movR32Mem hd (by decide)) (exec_loadField junk junkFlags hdi rfl)
      (touches_set32 s dst _ s.flags) ⟨rfl, s.r32_set32 dst _⟩

/-- Writing a field. -/
theorem does_storeField {src : Gpr} {f : Field} {m : Mem β} (hdi : s.regs .rdi = P.cpu)
    (hs : Gpr.rsp ≠ src) (hw : s.mem.writeField f 4 (s.r32 src) = some m) :
    Does (host P junk junkFlags) (Asm.movMemR32 .rdi (P.off f) src) [] s fun t => t.mem = m :=
  .instr (Asm.encodes_movMemR32 hs (by decide)) (exec_storeField junk junkFlags hdi hw)
    ⟨fun _ _ => rfl, rfl⟩ rfl

/-- Writing a guest register; `x0` is skipped. -/
theorem does_storeReg {src : Gpr} (i : Reg) (hdi : s.regs .rdi = P.cpu) (hs : Gpr.rsp ≠ src) :
    Does (host P junk junkFlags) (storeReg P i src) [] s fun t =>
      t.mem = s.mem.modHart fun h => h.wrReg i (s.r32 src) := by
  unfold storeReg Hart.wrReg
  split
  · exact .nil rfl
  · exact does_storeField junk junkFlags (f := .reg i) hdi hs rfl

/-- Counting a retired instruction. -/
theorem does_retire (hdi : s.regs .rdi = P.cpu) :
    Does (host P junk junkFlags) (retire P) [] s fun t =>
      t.mem = s.mem.modHart fun h => { h with insnsRetired := h.insnsRetired + 1 } :=
  does_count junk junkFlags (f := .insnsRetired) hdi rfl rfl

/-- Counting an access on the fast path. -/
theorem does_hit (hdi : s.regs .rdi = P.cpu) :
    Does (host P junk junkFlags) (Asm.addQwordMemImm8 .rdi (P.off .fastPathHits) 1) [] s fun t =>
      t.mem = { s.mem with fastPathHits := s.mem.fastPathHits + 1 } :=
  does_count junk junkFlags (f := .fastPathHits) hdi rfl rfl

/-- Counting an access off the fast path. -/
theorem does_bail (hdi : s.regs .rdi = P.cpu) :
    Does (host P junk junkFlags) (Asm.addQwordMemImm8 .rdi (P.off .fastPathBails) 1) [] s fun t =>
      t.mem = { s.mem with fastPathBails := s.mem.fastPathBails + 1 } :=
  does_count junk junkFlags (f := .fastPathBails) hdi rfl rfl

/-! ## Addresses of the guest -/

/-- An address relative to the start of the chain. -/
theorem does_lea {pc0 : U32} {dst : Gpr} (disp : U32) (h8 : s.r32 .r8 = pc0) (hd : Gpr.rsp ≠ dst) :
    Does (host P junk junkFlags) (Asm.leaR32Mem dst .r8 disp) [dst] s fun t =>
      t.mem = s.mem ∧ t.flags = s.flags ∧ t.r32 dst = pc0 + disp := by
  refine .instr (Asm.encodes_leaR32Mem hd (by decide)) rfl (touches_set32 s dst _ s.flags)
    ⟨rfl, rfl, (s.r32_set32 dst _).trans ?_⟩
  have hsum : (s.addr .r8 disp).setWidth 32 = s.r32 .r8 + (disp.signExtend 64).setWidth 32 :=
    BitVec.setWidth_add _ _ (by decide)
  rw [hsum, setWidth_signExtend, h8]

/-- Writing the `pc`. -/
theorem does_emitPc {pc0 : U32} {dst : Gpr} (disp : U32) (hp : Plan P pc0 s) (hd : Gpr.rsp ≠ dst)
    (hdi : Gpr.rdi ≠ dst) :
    Does (host P junk junkFlags) (emitPc P dst disp) [dst] s fun t =>
      t.mem = s.mem.modHart fun h => { h with pc := pc0 + disp } := by
  refine (does_lea junk junkFlags disp hp.r8 hd).append fun t ht ⟨hm, _, hpc⟩ => ?_
  have hdi : t.regs .rdi = P.cpu := (ht.regs _ (by simpa using hdi)).trans hp.rdi
  rw [← hm, ← hpc]
  exact (does_storeField junk junkFlags (f := .pc) hdi hd rfl).mono (by simp)

/-! ## Arithmetic -/

/-- The second operand of an instruction with an immediate, or of one without. -/
def operand (rhsImm : Option U32) (s : State (Mem β)) : U32 := rhsImm.getD (s.r32 .rcx)

/-- A two-operand instruction. -/
theorem falls_emitAlu2 (kind : AluKind) (rhsImm : Option U32) :
    Falls (host P junk junkFlags) (emitAlu2 kind rhsImm) s
      (s.aluResult .rax (kind.run (s.r32 .rax) (operand rhsImm s))) := by
  cases rhsImm with
  | some imm => exact .instr (Asm.encodes_aluR32Imm32 kind (by decide)) rfl
  | none => exact .instr (Asm.encodes_aluR32R32 kind (by decide) (by decide)) rfl

/-- One that has a result. -/
theorem does_emitAlu2 {kind : AluKind} {rhsImm : Option U32} {v : U32}
    (hrun : (kind.run (s.r32 .rax) (operand rhsImm s)).1 = some v) :
    Does (host P junk junkFlags) (emitAlu2 kind rhsImm) [.rax] s fun t =>
      t.mem = s.mem ∧ t.r32 .rax = v := by
  have hf := @falls_emitAlu2 β _ P junk junkFlags s kind rhsImm
  rw [State.aluResult, hrun] at hf
  exact ⟨_, hf, touches_set32 s .rax v _, rfl, s.r32_set32 .rax v⟩

/-- A comparison sets the flags of a subtraction. -/
theorem does_cmp (rhsImm : Option U32) :
    Does (host P junk junkFlags) (emitAlu2 .cmp rhsImm) [] s fun t =>
      t.mem = s.mem ∧ t.flags = subFlags (s.r32 .rax) (operand rhsImm s) :=
  ⟨_, falls_emitAlu2 junk junkFlags .cmp rhsImm, ⟨fun _ _ => rfl, rfl⟩, rfl, rfl⟩

/-- A shift by the low five bits of its operand. -/
theorem does_emitShift (kind : ShiftKind) (rhsImm : Option U32) :
    Does (host P junk junkFlags) (emitShift kind rhsImm) [.rax] s fun t =>
      t.mem = s.mem ∧ ∃ count : U8, t.r32 .rax = kind.run (s.r32 .rax) count ∧
        count.toNat % 32 = (operand rhsImm s &&& 31).toNat := by
  have hmod : ∀ v : U32, (v &&& 31).toNat = v.toNat % 32 := fun v => toNat_and_mask v 5 (by decide)
  cases rhsImm with
  | some imm =>
    refine .instr (Asm.encodes_shiftImm8 kind (by decide)) rfl (touches_set32 s .rax _ _)
      ⟨rfl, _, s.r32_set32 .rax _, ?_⟩
    have h := hmod imm
    show ((imm &&& 31).setWidth 8).toNat % 32 = (imm &&& 31).toNat
    rw [BitVec.toNat_setWidth, h]
    omega
  | none =>
    refine .instr (Asm.encodes_shiftCl kind (by decide)) rfl (touches_set32 s .rax _ _)
      ⟨rfl, _, s.r32_set32 .rax _, ?_⟩
    show ((s.regs .rcx).setWidth 8).toNat % 32 = (s.r32 .rcx &&& 31).toNat
    rw [hmod, State.r32, BitVec.toNat_setWidth, BitVec.toNat_setWidth]
    omega

/-- The flag of a comparison as a word. -/
theorem setWidth_flag (x : Word) (c : Bool) :
    (((x &&& ~~~0xff) ||| if c then 1 else 0).setWidth 8).setWidth 32 = if c then (1 : U32) else 0 := by
  have hlow : ((x &&& ~~~0xff).setWidth 8) = (0 : U8) := by
    rw [BitVec.setWidth_and]
    exact BitVec.and_zero
  rw [BitVec.setWidth_or, hlow]
  cases c <;> rfl

/-- A comparison with its result in a register. -/
theorem does_emitSlt (cc : Cond) (rhsImm : Option U32) :
    Does (host P junk junkFlags) (emitSlt cc rhsImm) [.rax, .r9] s fun t => t.mem = s.mem ∧
      t.r32 .rax = if cc.holds (subFlags (s.r32 .rax) (operand rhsImm s)) then 1 else 0 := by
  have hset : ∀ t : State (Mem β), Does (host P junk junkFlags) (Asm.setcc cc .r9) [.r9] t fun u =>
      u.mem = t.mem ∧ u.regs .r9 =
        ((t.regs .r9 &&& ~~~0xff) ||| if cc.holds t.flags then 1 else 0) := fun t =>
    .instr (Asm.encodes_setcc cc rfl) rfl (.set t .r9 _ t.flags t.mem)
      ⟨rfl, t.regs_set_self .r9 _⟩
  have hext : ∀ t : State (Mem β), Does (host P junk junkFlags) (Asm.movzxR32R8 .rax .r9) [.rax] t
      fun u => u.mem = t.mem ∧ u.r32 .rax = ((t.regs .r9).setWidth 8).setWidth 32 := fun t =>
    .instr (Asm.encodes_movzxR32R8 (by decide) rfl) rfl (touches_set32 t .rax _ t.flags)
      ⟨rfl, t.r32_set32 .rax _⟩
  unfold emitSlt
  rw [List.append_assoc]
  refine ((does_cmp junk junkFlags rhsImm).mono (by simp)).append fun t _ ⟨hm, hf⟩ => ?_
  refine ((hset t).mono (by simp)).append fun u _ ⟨hm', h9⟩ => ?_
  refine ((hext u).mono (by simp)).imp fun v _ ⟨hm'', hv⟩ => ⟨?_, ?_⟩
  · rw [hm'', hm', hm]
  · rw [hv, h9, setWidth_flag, hf]

/-- The arithmetic of the guest. -/
theorem does_emitAluRegResult (op : AluOp) (rhsImm : Option U32) :
    Does (host P junk junkFlags) (emitAluRegResult op rhsImm) [.rax, .r9] s fun t =>
      t.mem = s.mem ∧ t.r32 .rax = alu op (s.r32 .rax) (operand rhsImm s) := by
  have hshift : ∀ kind : ShiftKind, (∀ count : U8,
      count.toNat % 32 = (operand rhsImm s &&& 31).toNat →
        kind.run (s.r32 .rax) count = alu op (s.r32 .rax) (operand rhsImm s)) →
      Does (host P junk junkFlags) (emitShift kind rhsImm) [.rax, .r9] s fun t =>
        t.mem = s.mem ∧ t.r32 .rax = alu op (s.r32 .rax) (operand rhsImm s) := by
    intro kind hrun
    refine ((does_emitShift junk junkFlags kind rhsImm).mono (by simp)).imp ?_
    rintro t _ ⟨hm, count, hv, hcount⟩
    exact ⟨hm, hv.trans (hrun count hcount)⟩
  cases op with
  | add | sub | xor | or | and =>
    exact (does_emitAlu2 junk junkFlags rfl).mono (by simp)
  | sll | srl | sra =>
    refine hshift _ fun count hcount => ?_
    rw [ShiftKind.run, hcount, alu]
  | slt =>
    refine (does_emitSlt junk junkFlags .l rhsImm).imp fun t _ ⟨hm, hv⟩ => ⟨hm, ?_⟩
    rw [hv, Cond.holds_l, alu]
  | sltu =>
    refine (does_emitSlt junk junkFlags .b rhsImm).imp fun t _ ⟨hm, hv⟩ => ⟨hm, ?_⟩
    rw [hv, alu]
    exact if_congr (by simp [Cond.holds, subFlags, BitVec.lt_def]) rfl rfl

/-! ## Call-outs -/

/-- The registers that a call-out may change. -/
def callerSavedRegs : List Gpr := [.rax, .rcx, .rdx, .rsi, .rdi, .r8, .r9, .r10, .r11]

/-- A call of a shim with the registers that the callee may use saved around it. -/
theorem does_callShim (f : Shim) (hs : Passes P s) :
    Does (host P junk junkFlags) (callShim P f) callerSavedRegs s fun t =>
      (t.regs .rax, t.mem) = s.mem.call P f (s.r32 .rcx) (s.r32 .r8) := by
  have hmov : Falls (host P junk junkFlags) (Asm.movR64Imm64 .r11 (P.shim f)) s
      (s.set .r11 (P.shim f)) := .instr (Asm.encodes_movR64Imm64 (by decide)) rfl
  have hregs : ∀ r, r ≠ Gpr.r11 → (s.set .r11 (P.shim f)).regs r = s.regs r :=
    fun r hr => s.regs_set_of_ne _ hr
  have hcall : (host P junk junkFlags).call ((s.set .r11 (P.shim f)).regs .r11)
      (s.set .r11 (P.shim f)).regs s.mem =
        some (s.mem.call P f (s.r32 .rcx) (s.r32 .r8)) := by
    rw [s.regs_set_self]
    show (P.shimAt (P.shim f)).bind _ = _
    rw [P.shimAt_shim]
    show (if _ then _ else _) = _
    rw [hregs _ (by decide), hregs _ (by decide), hregs _ (by decide), hregs _ (by decide),
      hregs _ (by decide), if_pos ⟨hs.rdi, hs.rsi, hs.rdx⟩]
    rfl
  have hclear : Touches callerSavedRegs s (s.set .r11 (P.shim f)) :=
    ⟨fun r hr => hregs r fun h => hr (by rw [h]; decide), rfl⟩
  have hmoved : Does (host P junk junkFlags) (Asm.movR64Imm64 .r11 (P.shim f)) callerSavedRegs s
      fun t => t = s.set .r11 (P.shim f) := ⟨_, hmov, hclear, rfl⟩
  refine hmoved.append ?_
  rintro t - rfl
  refine (Does.call (Asm.encodes_callR64 (by decide)) hcall (by decide)).imp ?_
  rintro t - ⟨hax, hm⟩
  exact Prod.ext hax hm

/-- A call-out between the saving and the restoring of the plan. -/
theorem does_emitCallSaving {fifth : Gpr} {call : List U8} {Q : Word → Mem β → Prop}
    (hfifth : fifth = .rcx ∨ fifth = .r9)
    (hcall : ∀ u : State (Mem β), u.regs = s.regs → u.mem = s.mem →
      Does (host P junk junkFlags) call callerSavedRegs u fun t => Q (t.regs .rax) t.mem) :
    Does (host P junk junkFlags) (emitCallSaving fifth call) (scratch.erase fifth) s fun t =>
      Q (t.regs .rax) t.mem := by
  have hsp : Gpr.rsp ≠ fifth ∧ fifth ≠ .rax := by
    rcases hfifth with rfl | rfl <;> decide
  have hnest : emitCallSaving fifth call = Asm.pushR64 fifth ++ (Asm.pushR64 .rdi ++
      (Asm.pushR64 .rsi ++ (Asm.pushR64 .rdx ++ (Asm.pushR64 .r8 ++ call ++ Asm.popR64 .r8) ++
        Asm.popR64 .rdx) ++ Asm.popR64 .rsi) ++ Asm.popR64 .rdi) ++ Asm.popR64 fifth := by
    simp only [emitCallSaving, List.append_assoc]
  have hregs : ∀ r ∈ callerSavedRegs.filter (· ≠ .r8) |>.filter (· ≠ .rdx) |>.filter (· ≠ .rsi)
      |>.filter (· ≠ .rdi) |>.filter (· ≠ fifth), r ∈ scratch.erase fifth := by
    rcases hfifth with rfl | rfl <;> decide
  rw [hnest]
  refine Does.mono (.saving (Asm.encodes_pushR64 hsp.1) (Asm.encodes_popR64 hsp.1) hsp.2
    fun u hu hm => ?_) hregs
  refine .saving (Asm.encodes_pushR64 (by decide)) (Asm.encodes_popR64 (by decide)) (by decide)
    fun v hv hm' => ?_
  refine .saving (Asm.encodes_pushR64 (by decide)) (Asm.encodes_popR64 (by decide)) (by decide)
    fun w hw hm'' => ?_
  refine .saving (Asm.encodes_pushR64 (by decide)) (Asm.encodes_popR64 (by decide)) (by decide)
    fun x hx hm₃ => ?_
  refine .saving (Asm.encodes_pushR64 (by decide)) (Asm.encodes_popR64 (by decide)) (by decide)
    fun y hy hm₄ => ?_
  exact hcall y (by rw [hy, hx, hw, hv, hu]) (by rw [hm₄, hm₃, hm'', hm', hm])

/-- A call-out and the test of its result. -/
theorem does_tested {call : List U8} {rs : List Gpr} {Q : Word → Mem β → Prop}
    (hcall : Does (host P junk junkFlags) call rs s fun t => Q (t.regs .rax) t.mem) :
    Does (host P junk junkFlags) (call ++ Asm.testR64R64 .rax .rax) rs s fun t =>
      Q (t.regs .rax) t.mem ∧ t.flags = logicFlags (t.regs .rax) := by
  refine hcall.append fun t _ hQ => .instr
    (t := t.withFlags (logicFlags (t.regs .rax &&& t.regs .rax)))
    (Asm.encodes_testR64R64 (by decide) (by decide)) rfl ⟨fun _ _ => rfl, rfl⟩ ⟨hQ, ?_⟩
  show logicFlags (t.regs .rax &&& t.regs .rax) = logicFlags (t.regs .rax)
  rw [BitVec.and_self]

/-! ## Blocks -/

/-- A length that a jump can span. -/
theorem toInt_ofNat_length {n : Nat} (h : n < 2 ^ 31) : (BitVec.ofNat 32 n).toInt = n := by
  rw [BitVec.toInt_eq_toNat_cond, BitVec.toNat_ofNat, Nat.mod_eq_of_lt (by omega),
    if_pos (by omega)]

/-- The skipped part is not run when the condition holds. -/
theorem does_emitSkip {cc : Cond} {inner : List U8} {rs : List Gpr} {Q : State (Mem β) → Prop}
    (hcc : cc.holds s.flags = true) (hlen : inner.length < 2 ^ 31) (hQ : Q s) :
    Does (host P junk junkFlags) (emitSkip cc inner) rs s Q :=
  .skip (Asm.encodes_jccRel32 cc) hcc (toInt_ofNat_length hlen) hQ

/-- The part is run when it does not hold. -/
theorem returns_emitSkip {cc : Cond} {inner : List U8} {rs : List Gpr} {Q : State (Mem β) → Prop}
    (hcc : cc.holds s.flags = false) (hf : Returns (host P junk junkFlags) inner rs s Q) :
    Returns (host P junk junkFlags) (emitSkip cc inner) rs s Q :=
  hf.entered (Asm.encodes_jccRel32 cc) hcc

section
variable {cc : Cond} {thenBuf elseBuf : List U8} {rs : List Gpr} {Q : State (Mem β) → Prop}

/-- The first branch is run when the condition holds. -/
theorem does_emitIfElse_then (hcc : cc.holds s.flags = true) (hlen : elseBuf.length + 5 < 2 ^ 31)
    (hg : Does (host P junk junkFlags) thenBuf rs s Q) :
    Does (host P junk junkFlags) (emitIfElse cc thenBuf elseBuf) rs s Q := by
  refine .ifElse_then (Asm.encodes_jccRel32 cc) hcc ?_ hg
  rw [toInt_ofNat_length hlen, List.length_append]
  rfl

/-- The second is run when it does not. -/
theorem does_emitIfElse_else (hcc : cc.holds s.flags = false) (hlen : thenBuf.length < 2 ^ 31)
    (hf : Does (host P junk junkFlags) elseBuf rs s Q) :
    Does (host P junk junkFlags) (emitIfElse cc thenBuf elseBuf) rs s Q :=
  .ifElse_else (Asm.encodes_jccRel32 cc) hcc Asm.encodes_jmpRel32 (toInt_ofNat_length hlen) hf

/-- The same for a branch that returns. -/
theorem returns_emitIfElse_else (hcc : cc.holds s.flags = false)
    (hf : Returns (host P junk junkFlags) elseBuf rs s Q) :
    Returns (host P junk junkFlags) (emitIfElse cc thenBuf elseBuf) rs s Q :=
  .ifElse_else (Asm.encodes_jccRel32 cc) hcc hf

end

/-! ## Guest memory -/

/-- Computing the address of an access. -/
theorem does_emitVa (rs1 : Reg) (imm : U32) (hdi : s.regs .rdi = P.cpu) :
    Does (host P junk junkFlags) (emitVa P rs1 imm) [.rcx] s fun t =>
      t.mem = s.mem ∧ t.r32 .rcx = s.mem.hart.rdReg rs1 + imm := by
  refine (does_loadReg junk junkFlags rs1 hdi (by decide)).append fun t _ ⟨hm, hv⟩ => ?_
  refine .instr (Asm.encodes_aluR32Imm32 .add (by decide)) rfl (touches_set32 t .rcx _ _) ⟨hm, ?_⟩
  rw [← hv]
  exact t.r32_set32 .rcx _

/-- A call-out that is tested, with the address in `rcx`. -/
theorem does_calledTested {fifth : Gpr} (f : Shim) (hfifth : fifth = .rcx ∨ fifth = .r9)
    (hs : Passes P s) :
    Does (host P junk junkFlags)
      (emitCallSaving fifth (callShim P f) ++ Asm.testR64R64 .rax .rax) (scratch.erase fifth) s
      fun t => (t.regs .rax, t.mem) = s.mem.call P f (s.r32 .rcx) (s.r32 .r8) ∧
        t.flags = logicFlags (t.regs .rax) := by
  refine does_tested junk junkFlags (Q := fun v m =>
    (v, m) = s.mem.call P f (s.r32 .rcx) (s.r32 .r8)) ?_
  refine does_emitCallSaving junk junkFlags (Q := fun v m =>
    (v, m) = s.mem.call P f (s.r32 .rcx) (s.r32 .r8)) hfifth fun u hu hm => ?_
  have hp : Passes P u := ⟨by rw [hu, hs.rdi], by rw [hu, hs.rsi], by rw [hu, hs.rdx]⟩
  have hcall := does_callShim junk junkFlags f hp
  rwa [hm, State.r32, State.r32, hu] at hcall

/-- The call-out of a store, which takes the value in `r8`. -/
theorem does_storeTested (op : StoreOp) (rs2 : Reg) (hs : Passes P s) :
    Does (host P junk junkFlags)
      (emitCallPreservingRegs (loadReg P .r8 rs2 ++ callShim P (.store op)) ++
        Asm.testR64R64 .rax .rax) (scratch.erase .r9) s
      fun t => (t.regs .rax, t.mem) =
          s.mem.call P (.store op) (s.r32 .rcx) (s.mem.hart.rdReg rs2) ∧
        t.flags = logicFlags (t.regs .rax) := by
  refine does_tested junk junkFlags (Q := fun v m =>
    (v, m) = s.mem.call P (.store op) (s.r32 .rcx) (s.mem.hart.rdReg rs2)) ?_
  refine does_emitCallSaving junk junkFlags (Q := fun v m =>
    (v, m) = s.mem.call P (.store op) (s.r32 .rcx) (s.mem.hart.rdReg rs2)) (.inr rfl)
    fun u hu hm => ?_
  have hp : Passes P u := ⟨by rw [hu, hs.rdi], by rw [hu, hs.rsi], by rw [hu, hs.rdx]⟩
  have hload : Does (host P junk junkFlags) (loadReg P .r8 rs2) [.r8] u fun t => t.mem = s.mem ∧
      Passes P t ∧ t.r32 .rcx = s.r32 .rcx ∧ t.r32 .r8 = s.mem.hart.rdReg rs2 := by
    refine (does_loadReg junk junkFlags rs2 hp.rdi (by decide)).imp fun t ht hr => ?_
    obtain ⟨hm', hv⟩ := hr
    refine ⟨hm'.trans hm, hp.touches ht (by decide), ?_, by rw [hv, hm]⟩
    rw [State.r32, State.r32, ht.regs _ (by decide), hu]
  refine (hload.mono (by decide)).append fun t _ hr => ?_
  obtain ⟨hm', ht, hcx, h8⟩ := hr
  have hcall := does_callShim junk junkFlags (.store op) ht
  rwa [hm', hcx, h8] at hcall

section
variable {p : HostPtr}

/-- Through the pointer granted last the code loads what the guest load returns. -/
theorem does_sizedLoad (op : LoadOp) (hax : s.regs .rax = P.place p)
    (hg : s.mem.granted = some (P.place p, p, op.size))
    (hlen : (Bus.ptrLoad s.mem.sys.bus p op.size).length = op.size) :
    Does (host P junk junkFlags) (emitSizedLoadFromPtr op .rcx .rax) [.rcx] s fun t =>
      t.mem = s.mem ∧ t.r32 .rcx =
        extendLoad (leValue (Bus.ptrLoad s.mem.sys.bus p op.size)) op.size op.signed := by
  have haddr : s.addr .rax 0 = P.place p := by
    rw [State.addr, hax]
    exact BitVec.add_zero _
  have hload : ∀ n, op.size = n → s.mem.load P (s.addr .rax 0) n =
      some ((leValue (Bus.ptrLoad s.mem.sys.bus p n)).setWidth (8 * n)) := by
    rintro n rfl
    rw [haddr, Mem.load, P.fieldAt_place, hg]
    exact if_pos ⟨rfl, rfl⟩
  have hext : ∀ (n : Nat) (signed : Bool), op.size = n →
      exec (host P junk junkFlags) (.loadExt n signed .rcx .rax 0) s = some (s.set32 .rcx
        (extend32 signed ((leValue (Bus.ptrLoad s.mem.sys.bus p n)).setWidth (8 * n)))) := by
    intro n signed hn
    show (s.mem.load P (s.addr .rax 0) n).bind _ = _
    rw [hload n hn]
    rfl
  have hzero : ∀ {w : Nat}, w = 8 * op.size →
      ((leValue (Bus.ptrLoad s.mem.sys.bus p op.size)).setWidth w).setWidth 32 =
        leValue (Bus.ptrLoad s.mem.sys.bus p op.size) := fun hw =>
    leValue_setWidth (by rw [hlen, hw])
  have hdone : ∀ {e : List U8} {i : Instr} {v : U32}, Encodes e i →
      exec (host P junk junkFlags) i s = some (s.set32 .rcx v) →
      v = extendLoad (leValue (Bus.ptrLoad s.mem.sys.bus p op.size)) op.size op.signed →
      Does (host P junk junkFlags) e [.rcx] s fun t => t.mem = s.mem ∧ t.r32 .rcx =
        extendLoad (leValue (Bus.ptrLoad s.mem.sys.bus p op.size)) op.size op.signed := by
    rintro e i v he hx rfl
    exact .instr he hx (touches_set32 s .rcx _ s.flags) ⟨rfl, s.r32_set32 .rcx _⟩
  cases op with
  | lb => exact hdone (Asm.encodes_movsxR32Mem8 (by decide) (by decide)) (hext 1 true rfl) rfl
  | lh => exact hdone (Asm.encodes_movsxR32Mem16 (by decide) (by decide)) (hext 2 true rfl) rfl
  | lw =>
    refine hdone (Asm.encodes_movR32Mem (by decide) (by decide)) ?_ (BitVec.setWidth_eq _)
    show (s.mem.load P (s.addr .rax 0) 4).bind _ = _
    rw [hload 4 rfl]
    rfl
  | lbu =>
    exact hdone (Asm.encodes_movzxR32Mem8 (by decide) (by decide)) (hext 1 false rfl) (hzero rfl)
  | lhu =>
    exact hdone (Asm.encodes_movzxR32Mem16 (by decide) (by decide)) (hext 2 false rfl) (hzero rfl)

/-- The low bytes of a word are those of any part that holds them. -/
theorem leBytes_setWidth (v : Word) (n : Nat) :
    leBytes ((v.setWidth (8 * n)).setWidth 32) n = leBytes (v.setWidth 32) n := by
  refine List.map_congr_left fun i hi => ?_
  have hlt : i < n := List.mem_range.1 hi
  apply BitVec.eq_of_getLsbD_eq
  intro j hj
  simp only [BitVec.getLsbD_setWidth, BitVec.getLsbD_ushiftRight]
  have hlow : decide (8 * i + j < 8 * n) = true := decide_eq_true (by omega)
  rw [hlow, Bool.true_and]

/-- Through the pointer granted last the code stores the bytes of the value in `rcx`. -/
theorem does_sizedStore (op : StoreOp) (hax : s.regs .rax = P.place p)
    (hg : s.mem.granted = some (P.place p, p, op.size)) :
    Does (host P junk junkFlags) (emitSizedStoreToPtr op .rax .rcx) [] s fun t =>
      t.mem = { s.mem with sys := { s.mem.sys with
        bus := Bus.ptrStore s.mem.sys.bus p (leBytes (s.r32 .rcx) op.size) } } := by
  have haddr : s.addr .rax 0 = P.place p := by
    rw [State.addr, hax]
    exact BitVec.add_zero _
  have hstore : ∀ n, op.size = n → s.mem.store P (s.addr .rax 0) n
      ((s.regs .rcx).setWidth (8 * n)) = some { s.mem with sys := { s.mem.sys with
        bus := Bus.ptrStore s.mem.sys.bus p (leBytes (s.r32 .rcx) n) } } := by
    rintro n rfl
    rw [haddr, Mem.store, P.fieldAt_place, hg]
    dsimp only
    rw [if_pos ⟨rfl, rfl⟩, leBytes_setWidth, ← hg]
    rfl
  have hexec : ∀ n, op.size = n → exec (host P junk junkFlags) (.storeLow n .rax 0 .rcx) s =
      some (s.withMem { s.mem with sys := { s.mem.sys with
        bus := Bus.ptrStore s.mem.sys.bus p (leBytes (s.r32 .rcx) n) } }) := by
    intro n hn
    show (s.mem.store P (s.addr .rax 0) n ((s.regs .rcx).setWidth (8 * n))).bind _ = _
    rw [hstore n hn]
    rfl
  cases op with
  | sb =>
    exact .instr (Asm.encodes_movMem8R8 (by decide) (by decide)) (hexec 1 rfl)
      ⟨fun _ _ => rfl, rfl⟩ rfl
  | sh =>
    exact .instr (Asm.encodes_movMem16R16 (by decide) (by decide)) (hexec 2 rfl)
      ⟨fun _ _ => rfl, rfl⟩ rfl
  | sw =>
    exact .instr (Asm.encodes_movMemR32 (by decide) (by decide)) (hexec 4 rfl)
      ⟨fun _ _ => rfl, rfl⟩ rfl

end

end

end Jit

end FuzzSoft
