import FuzzSoft.Jit.Compiled
import FuzzSoft.Jit.Jumps
import FuzzSoft.Platform.Shadow

/-!
# Compiled chains on a machine

A machine whose address window is that of its RAM and ends below `2 ^ 32` serves compiled code
(`serves_placed`), with owned RAM as over a copy-on-write view (`SteadyRam`). On it a compiled chain is
the interpreter's run of the chain, from the call to the return (`codegen_computes_execChain`).
-/

namespace FuzzSoft

open Lib Lib.X86

/-- A RAM that keeps its window, its invariant and, where it declines a pointer, itself. -/
class SteadyRam (ρ : Type) [Bus ρ] extends FastRam ρ where
  declines : ∀ {r r' : ρ} {pa n need}, Bus.fastPtr r pa n need = (none, r') → r' = r
  length : ∀ (r : ρ) p n, (Bus.ptrLoad r p n).length = n
  store_ok : ∀ {r : ρ}, Ok r → ∀ pa n v, Ok (Bus.store r pa n v).2
  store_base : ∀ (r : ρ) pa n v, base (Bus.store r pa n v).2 = base r
  store_size : ∀ (r : ρ) pa n v, size (Bus.store r pa n v).2 = size r

instance : SteadyRam Mmu where
  declines {m m' pa n need} h := by
    change m.fastPtr pa n need = (none, m') at h
    unfold Mmu.fastPtr at h
    split at h
    · exact (Prod.mk.inj h).2.symm
    split at h
    · split at h <;> cases h
    · exact (Prod.mk.inj h).2.symm
  length m p n := by
    cases p with
    | mem off => exact length_readSpan m.mem off n
    | golden | page => exact List.length_replicate
  store_ok _ _ _ _ := trivial
  store_base m pa n v := by
    obtain ⟨k, -, -, hpl, -⟩ := m.store_prefixed pa n v
    exact hpl.base
  store_size m pa n v := by
    obtain ⟨k, -, -, hpl, -⟩ := m.store_prefixed pa n v
    exact hpl.size

instance : SteadyRam CowRam where
  declines {c c' pa n need} h := by
    change c.fastPtr pa n need = (none, c') at h
    unfold CowRam.fastPtr at h
    split at h
    · exact (Prod.mk.inj h).2.symm
    dsimp only at h
    split at h
    · exact (Prod.mk.inj h).2.symm
    split at h
    · split at h
      · cases h
      · split at h <;> cases h
    · exact (Prod.mk.inj h).2.symm
  length c p n := by
    cases p with
    | mem => exact List.length_replicate
    | golden off => exact length_readSpan c.golden.mem off n
    | page slot po => exact length_readSpan (c.page slot).mem po n
  store_ok h pa n v := (h.agree_flat.store pa v n).2.inv
  store_base c pa n v := congrArg Golden.base (c.golden_store pa n v)
  store_size c pa n v := congrArg Golden.size (c.golden_store pa n v)

section
variable {ρ : Type} [Bus ρ] [SteadyRam ρ] {base size : U32}

theorem Placed.store {m : MachineOf ρ} (hm : Placed m base size) (pa : U32) (n : Nat) (v : U32) :
    Placed (Bus.store m pa n v).2 base size := by
  show Placed (m.store pa n v).2 base size
  unfold MachineOf.store
  split
  · exact ⟨hm.ok, hm.windowBase, hm.windowSize, hm.ramBase, hm.ramEnd⟩
  split
  · exact ⟨hm.ok, hm.windowBase, hm.windowSize, hm.ramBase, hm.ramEnd⟩
  split
  · exact ⟨SteadyRam.store_ok hm.ok pa n v, (SteadyRam.store_base _ pa n v).trans hm.windowBase,
      (SteadyRam.store_size _ pa n v).trans hm.windowSize, hm.ramBase, hm.ramEnd⟩
  · exact hm

namespace Jit

/-- A machine whose window ends below the top of the address space. -/
theorem serves_placed (hfit : base.toNat + size.toNat < 2 ^ 32) :
    Serves fun m : MachineOf ρ => Placed m base size where
  access hm := fastAccess_of_fits hm hfit
  declines {m m' pa n need} h := by
    change m.fastPtr pa n need = (none, m') at h
    unfold MachineOf.fastPtr at h
    split at h
    · exact (Prod.mk.inj h).2.symm
    · obtain ⟨hnone, hm⟩ := Prod.mk.inj h
      have hram : (Bus.fastPtr m.ram pa n need).2 = m.ram :=
        SteadyRam.declines (Prod.ext hnone rfl)
      rw [← hm, hram]
  length m p n := SteadyRam.length m.ram p n
  store hm pa n v := hm.store pa n v

/-- What a call of compiled code leaves, for an end of the interpreter's run: the tag of that end,
the system of that run but for the comparison log, which compiled code does not keep, and the
registers and the stack of its caller. -/
structure Returned {β : Type} (s t : State (Mem β)) (stack : List Word) (r : ChainExit × Sys β) :
    Prop where
  tag : t.regs .rax = r.1.tag
  sys : t.mem.sys = r.2.setHart { r.2.hart with cmplog := s.mem.sys.hart.cmplog }
  regs : ∀ i, i ∉ Gpr.r8 :: scratch → t.regs i = s.regs i
  stack : t.stack = stack

/-- A compiled chain, called on any hart that tracks no taint, terminates and leaves what the
interpreter's run of the chain leaves. -/
theorem codegen_computes_execChain {γ : Type} (isGolden : γ → U32 → Bool × γ)
    (va pa blockPage : U32) (s₀ : Sys (MachineOf ρ)) (g : γ)
    (hne : (decodeChain isGolden va pa blockPage s₀ g).1 ≠ [])
    (P : Process) (junk : State (Mem (MachineOf ρ)) → Gpr → Word)
    (junkFlags : State (Mem (MachineOf ρ)) → Flags) (iword : Step → U32)
    (s : State (Mem (MachineOf ρ))) {dest : Word} {stack : List Word} (hs : Passes P s)
    (hstack : s.stack = dest :: stack) (hm : Placed s.mem.sys.bus base size)
    (hfit : base.toNat + size.toNat < 2 ^ 32) (hk : s.mem.sys.hart.kmsanEnabled = false) :
    ∃ fuel t, run (host P junk junkFlags)
        (codegen P (decodeChain isGolden va pa blockPage s₀ g).1) fuel 0 s = some (dest, t) ∧
      Returned s t stack
        (execChain iword (decodeChain isGolden va pa blockPage s₀ g).1 s.mem.sys) := by
  obtain ⟨t, ht, ⟨htag, hf⟩, hleaves⟩ := returns_codegen junk junkFlags iword
    (serves_placed hfit) hne (chained_decodeChain isGolden va pa blockPage s₀ g) hs hm hk
  obtain ⟨fuel, hrun⟩ := (hleaves dest stack hstack).run
  exact ⟨fuel, _, hrun, htag, hf, ht.regs, rfl⟩

/-! ### A chain that copies a word -/

/-- A process with a small `Cpu`. -/
def smallProcess : Process where
  regsOff := 0
  pcOff := 128
  insnsRetiredOff := 136
  fastPathHitsOff := 144
  fastPathBailsOff := 152
  apart f g h := by
    cases f with
    | reg i =>
      cases g with
      | reg j => exact congrArg Field.reg (by revert i j; decide)
      | _ => exact absurd h (by revert i; decide)
    | _ =>
      cases g with
      | reg j => exact absurd h (by revert j; decide)
      | _ => first | rfl | exact absurd h (by decide)
  cpu := 0x1000
  busData := 0x2000
  busVtable := 0x3000
  shim
    | .load op => 0x100 + (match op with | .lb => 0 | .lh => 1 | .lw => 2 | .lbu => 3 | .lhu => 4)
    | .store op => 0x200 + (match op with | .sb => 0 | .sh => 1 | .sw => 2)
    | .fastLoadPtr w => 0x300 + (match w with | .w1 => 0 | .w2 => 1 | .w4 => 2)
    | .fastStorePtr op => 0x400 + (match op with | .sb => 0 | .sh => 1 | .sw => 2)
  place _ := 0x10000
  shim_apart f g h := by
    cases f with
    | load op | store op | fastLoadPtr op | fastStorePtr op =>
      cases op <;> cases g with
      | load op | store op | fastLoadPtr op | fastStorePtr op =>
        cases op <;> first | rfl | exact absurd h (by decide)
  place_ne_zero _ := by decide
  place_ne_field _ f := by
    cases f with
    | reg i => revert i; decide
    | _ => decide

/-- A machine whose RAM starts with `auipc x10, 0`; `lw x5, 0(x10)`; `addi x6, x5, 1`;
`sw x6, 64(x10)`; `jal x0, 0`. -/
def copyMachine : Machine :=
  { MachineOf.new 0x80000000 0x1000 with
    ram := { Mmu.new 0x80000000 0x1000 with
      mem := fun o => [0x17, 0x05, 0x00, 0x00, 0x83, 0x22, 0x05, 0x00, 0x13, 0x83, 0x12, 0x00,
        0x23, 0x20, 0x65, 0x04, 0x6f, 0x00, 0x00, 0x00].getD o 0
      perms := fun _ => PERM_READ ||| PERM_WRITE ||| PERM_EXEC } }

theorem placed_copyMachine : Placed copyMachine 0x80000000 0x1000 :=
  ⟨trivial, rfl, rfl, rfl, by decide⟩

/-- The chain at its base, as the compiler decodes it. -/
def copyChain : List Step :=
  (decodeChain (fun g _ => (true, g)) 0x80000000 0x80000000 0x80000 ⟨Cpu.new 0x80000000, copyMachine⟩
    ()).1

theorem copyChain_length : copyChain.length = 5 := by decide +kernel

/-- A call of its code from a hart out of reset. -/
def copyCall : State (Mem Machine) where
  regs r := if r = .rdi then 0x1000 else if r = .rsi then 0x2000 else if r = .rdx then 0x3000 else 0
  flags := ⟨false, false, false, false⟩
  stack := [0x7000]
  mem := ⟨⟨Cpu.new 0x80000000, copyMachine⟩, 0, 0, none⟩

/-- The call returns with the loaded word, plus one, in `x6` and in RAM. -/
theorem codegen_computes_execChain_copy : ∃ fuel t,
    run (host smallProcess (fun _ _ => 0) fun s => s.flags) (codegen smallProcess copyChain) fuel 0
      copyCall = some (0x7000, t) ∧
        Returned copyCall t [] (execChain (fun _ => 0) copyChain copyCall.mem.sys) ∧
        t.mem.sys.hart.regs 6 = 0x518 ∧ t.mem.sys.bus.load 0x80000040 4 = .ok 0x518 := by
  have hne : copyChain ≠ [] := List.ne_nil_of_length_eq_add_one copyChain_length
  obtain ⟨fuel, t, hrun, ht⟩ := codegen_computes_execChain (fun g _ => (true, g)) 0x80000000 0x80000000
    0x80000 ⟨Cpu.new 0x80000000, copyMachine⟩ () hne smallProcess (fun _ _ => 0) (fun s => s.flags)
    (fun _ => 0) copyCall ⟨rfl, rfl, rfl⟩ rfl placed_copyMachine (by decide) rfl
  refine ⟨fuel, t, hrun, ht, ?_, ?_⟩
  · rw [ht.sys]
    decide +kernel
  · rw [ht.sys]
    decide +kernel

end Jit

end

end FuzzSoft
