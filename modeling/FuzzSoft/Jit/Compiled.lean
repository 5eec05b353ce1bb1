import FuzzSoft.Jit.Steps

/-!
# The code of a chain

A decoded chain is a run of instructions that fall through, the last of which may be a control
transfer (`Chained`, `chained_decodeChain`). Its code does what the interpreter does on it, step by
step (`returns_steps`), and so does the compiled function, which reads the entry `pc` once and returns
how the chain ends (`returns_codegen`).
-/

namespace FuzzSoft

namespace Jit

open Lib Lib.X86

/-! ## Decoded chains -/

/-- The steps follow one another from an offset, and only the last one may end the chain. -/
def Chained (off : U32) : List Step → Prop
  | [] => True
  | step :: steps => step.staticOffset = off ∧
      (isAluLink step.inst = true ∨ isTerminal step.inst = true ∧ steps = []) ∧
        Chained (off + step.ilen) steps

section
variable {β γ : Type} [Bus β]

theorem chained_decodeLoop (isGolden : γ → U32 → Bool × γ) (blockPage : U32) (n : Nat)
    (va pa off : U32) (s : Sys β) (g : γ) :
    Chained off (decodeLoop isGolden blockPage n va pa off s g).1 := by
  induction n generalizing va pa off s g with
  | zero => trivial
  | succ n ih =>
    rw [decodeLoop]
    split
    · trivial
    dsimp only
    split
    · trivial
    split
    next hlink =>
      split
      · exact ⟨rfl, .inl hlink, trivial⟩
      split
      · exact ⟨rfl, .inl hlink, trivial⟩
      split
      · exact ⟨rfl, .inl hlink, trivial⟩
      · exact ⟨rfl, .inl hlink, ih _ _ _ _ _⟩
    next =>
      split
      next hterm => exact ⟨rfl, .inr ⟨hterm, rfl⟩, trivial⟩
      · trivial

theorem chained_decodeChain (isGolden : γ → U32 → Bool × γ) (va pa blockPage : U32) (s : Sys β)
    (g : γ) : Chained 0 (decodeChain isGolden va pa blockPage s g).1 :=
  chained_decodeLoop isGolden blockPage MAX_CHAIN_LEN va pa 0 s g

end

/-! ## Running the steps -/

section
variable {β : Type} [Bus β] {P : Process} (junk : State (Mem β) → Gpr → Word)
  (junkFlags : State (Mem β) → Flags) {iword : Step → U32} {s : State (Mem β)} {q : Sys β}
  {log : Option (List (U32 × U32))} {pc pc0 off : U32} {I : β → Prop}

/-- The end of the code: the address to go on at, if the last instruction has not set it, and the
tag of a chain that ran to its end. -/
def emitDone (P : Process) (steps : List Step) : List U8 :=
  emitFallOff P steps ++ Asm.zero .rax ++ Asm.ret

theorem returns_zero (s : State (Mem β)) :
    Returns (host P junk junkFlags) (Asm.zero .rax ++ Asm.ret) scratch s fun t =>
      t.regs .rax = 0 ∧ t.mem = s.mem := by
  refine Does.ret ?_ Asm.encodes_ret
  have hz : s.r32 .rax ^^^ s.r32 .rax = 0 := BitVec.xor_self
  refine Does.mono (.instr (Asm.encodes_aluR32R32 .xor (by decide) (by decide)) rfl
    (touches_set32 s .rax _ _) ⟨?_, rfl⟩) (by decide)
  refine (s.regs_set_self .rax _).trans ?_
  show BitVec.setWidth 64 (s.r32 .rax ^^^ s.r32 .rax) = 0
  rw [hz]
  rfl

/-- After the last step. -/
theorem returns_emitDone {steps : List Step} {last : Step} (hlast : steps.getLast? = some last)
    (hs : Plan P pc0 s) (hf : Follows log pc s.mem.sys q)
    (hpc : if isTerminal last.inst then pc = q.hart.pc
      else q.hart.pc = pc0 + (last.staticOffset + last.ilen)) :
    Returns (host P junk junkFlags) (emitDone P steps) scratch s fun t =>
      t.regs .rax = 0 ∧ Follows log q.hart.pc t.mem.sys q := by
  have hfall : emitFallOff P steps = if isTerminal last.inst then []
      else emitPc P .rax (last.staticOffset + last.ilen) := by rw [emitFallOff, hlast]
  rw [emitDone, hfall, List.append_assoc]
  by_cases hterm : isTerminal last.inst = true
  · rw [if_pos hterm] at hpc ⊢
    refine (returns_zero junk junkFlags s).imp fun t _ ⟨hax, hm⟩ => ⟨hax, ?_⟩
    rw [hm, ← hpc]
    exact hf
  · rw [if_neg hterm] at hpc ⊢
    refine ((does_emitPc junk junkFlags _ hs (by decide) (by decide)).mono (by decide)).returns
      fun t _ hm => ?_
    refine (returns_zero junk junkFlags t).imp fun u _ ⟨hax, hm'⟩ => ⟨hax, ?_⟩
    rw [hm', hm, hpc]
    exact hf.setPc _

theorem not_isTerminal {inst : Inst} (h : isAluLink inst = true) : isTerminal inst = false := by
  cases inst with
  | branch | jal | jalr => exact Bool.noConfusion h
  | _ => rfl

/-- The code of the steps of a chain, and of its end: by induction on the steps, with the interpreter
beside the code. -/
theorem returns_steps (hI : Serves I) {steps all : List Step} (hne : steps ≠ [])
    (hall : all.getLast? = steps.getLast?) (hch : Chained off steps) (hs : Plan P pc0 s)
    (hf : Follows log pc s.mem.sys q) (hi : I q.bus) (hk : q.hart.kmsanEnabled = false)
    (hpc : q.hart.pc = pc0 + off) :
    Returns (host P junk junkFlags) ((steps.map (emitRetired P)).flatten ++ emitDone P all) scratch s
      fun t => t.regs .rax = (execChain iword steps q).1.tag ∧
        Follows log (execChain iword steps q).2.hart.pc t.mem.sys (execChain iword steps q).2 := by
  induction steps generalizing s q pc off with
  | nil => exact absurd rfl hne
  | cons step steps ih =>
    obtain ⟨hoff, hkind, hrest⟩ := hch
    rw [List.map_cons, List.flatten_cons, List.append_assoc, execChain_cons]
    have hkeeps := execStep_keeps iword step hI hk hi
    have hstep := doesStep junk junkFlags iword step hI (hkind.imp_right And.left) hs hf hi
      (by rw [hpc, hoff]) hk
    unfold DoesStep at hstep
    generalize execStep iword step q = r at hstep hkeeps
    obtain ⟨_ | exit, q'⟩ := r
    · refine hstep.returns fun t ht ⟨pc', hf', hpc'⟩ => ?_
      have hp := hs.touches ht fun _ h => h
      cases steps with
      | nil =>
        have hlast : all.getLast? = some step := hall
        have hend : if isTerminal step.inst then pc' = q'.hart.pc
            else q'.hart.pc = pc0 + (step.staticOffset + step.ilen) := by
          rwa [hoff, ← BitVec.add_assoc, ← hpc]
        exact returns_emitDone junk junkFlags hlast hp hf' hend
      | cons next rest =>
        have hlink := hkind.resolve_right fun h => List.cons_ne_nil _ _ h.2
        rw [not_isTerminal hlink, if_neg Bool.false_ne_true] at hpc'
        refine ih (List.cons_ne_nil next rest) (hall.trans List.getLast?_cons_cons) hrest hp hf'
          hkeeps.2 hkeeps.1 ?_
        rw [hpc', hpc, BitVec.add_assoc]
    · exact hstep.append _

/-- The compiled chain: called with the `Cpu` and the bus in the argument registers it returns how
the interpreter's run of the chain ends, beside that run. Only the registers of the plan are used. -/
theorem returns_codegen (iword : Step → U32) (hI : Serves I) {steps : List Step} (hne : steps ≠ [])
    (hch : Chained 0 steps) (hs : Passes P s) (hi : I s.mem.sys.bus)
    (hk : s.mem.sys.hart.kmsanEnabled = false) :
    Returns (host P junk junkFlags) (codegen P steps) (.r8 :: scratch) s fun t =>
      t.regs .rax = (execChain iword steps s.mem.sys).1.tag ∧
        Follows s.mem.sys.hart.cmplog (execChain iword steps s.mem.sys).2.hart.pc t.mem.sys
          (execChain iword steps s.mem.sys).2 := by
  have hsplit : codegen P steps = Asm.movR32Mem .r8 .rdi (P.off .pc) ++
      ((steps.map (emitRetired P)).flatten ++ emitDone P steps) := by
    simp only [codegen, emitDone, List.append_assoc]
  have hentry : Does (host P junk junkFlags) (Asm.movR32Mem .r8 .rdi (P.off .pc)) [.r8] s
      fun t => t.mem = s.mem ∧ Plan P s.mem.hart.pc t := by
    have hset := touches_set32 s .r8 s.mem.hart.pc s.flags
    exact .instr (Asm.encodes_movR32Mem (by decide) (by decide))
      (exec_loadField junk junkFlags (f := .pc) hs.rdi rfl) hset
      ⟨rfl, hs.touches hset (by decide), s.r32_set32 .r8 _⟩
  rw [hsplit]
  refine (hentry.mono (by decide)).returns fun t _ ⟨hm, hp⟩ => ?_
  have hf : Follows s.mem.sys.hart.cmplog s.mem.hart.pc t.mem.sys s.mem.sys := by
    rw [hm]
    rfl
  refine (returns_steps junk junkFlags hI hne rfl hch hp hf hi hk ?_).mono (by decide)
  exact (BitVec.add_zero _).symm

end

end Jit

end FuzzSoft
