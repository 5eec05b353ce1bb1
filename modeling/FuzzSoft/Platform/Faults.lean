import FuzzSoft.Platform.Cells
import FuzzSoft.Riscv.Granted
import FuzzSoft.Riscv.Privilege

/-!
# Faulting instructions

What an instruction that faults leaves behind. The registers, the `pc`, the CSRs, the privilege, the
reservation and the counter are as before (`Hart.arch`). Of the RAM, page walks may have written back
A and D bits, and a store that is refused at a later byte has committed the bytes before it
(`Committed`); nothing else changes (`execOne_error`).
-/

namespace FuzzSoft

open Lib

/-! ## The architectural state -/

/-- What of a hart an instruction works on. -/
structure Arch where
  regs : Reg → U32
  pc : U32
  privilege : Priv
  csr : Csr
  reservation : Option U32
  insnsRetired : U64

namespace Hart

def arch (h : Hart) : Arch :=
  ⟨h.regs, h.pc, h.privilege, h.csr, h.reservation, h.insnsRetired⟩

/-- A taint is not architectural. -/
theorem wrTaint_arch (h : Hart) (i : Reg) (t : U32) : (h.wrTaint i t).arch = h.arch := by
  unfold wrTaint
  split
  · rfl
  · split <;> rfl

/-- Nor is the log of the comparisons. -/
theorem logCmp_arch (h : Hart) (a b : U32) : (h.logCmp a b).arch = h.arch := by
  unfold logCmp
  split
  · split <;> rfl
  · rfl

end Hart

/-- The address of the data access of an instruction. -/
def Inst.dataAddr (inst : Inst) (h : Hart) : U32 :=
  match inst with
  | .load _ _ rs1 imm => h.rdReg rs1 + imm
  | .store _ rs1 _ imm => h.rdReg rs1 + imm
  | .lrW _ rs1 _ _ => h.rdReg rs1
  | .scW _ rs1 _ _ _ => h.rdReg rs1
  | .amoW _ _ rs1 _ _ _ => h.rdReg rs1
  | _ => 0

/-- The number of bytes an instruction stores. -/
def Inst.storeSize : Inst → Nat
  | .store sop _ _ _ => sop.size
  | .scW .. | .amoW .. => 4
  | _ => 0

/-- The instruction stores the value: that of a register, or what an AMO makes of it and of the word
it has loaded. -/
def Inst.Stores {β : Type} [Bus β] (inst : Inst) (s : Sys β) (val : U32) : Prop :=
  match inst with
  | .store _ _ rs2 _ => val = s.hart.rdReg rs2
  | .scW _ _ rs2 _ _ => val = s.hart.rdReg rs2
  | .amoW aop _ rs1 rs2 _ _ => ∃ pa old s₁, xlate (s.hart.rdReg rs1) .write s = (.ok pa, s₁) ∧
      (busLoad pa 4 s₁).1 = .ok old ∧ val = amoResult aop old (s.hart.rdReg rs2)
  | _ => False

/-- Byte `j` of the word at `va` is in its span. -/
theorem span_lt (va : U32) {j : Nat} (hj : j < 4) : (va + BitVec.ofNat 32 j - va).toNat < 4 := by
  rw [BitVec.add_comm, BitVec.add_sub_cancel, BitVec.toNat_ofNat]
  omega

/-- An address is in its own span. -/
theorem self_span (va : U32) : (va - va).toNat < 4 := by
  rw [BitVec.sub_self]
  decide

/-- The instruction makes a data access. -/
def Inst.accesses : Inst → Bool
  | .load .. | .store .. | .lrW .. | .scW .. | .amoW .. => true
  | _ => false

section
variable {β : Type} [Bus β] [RamBus β]

/-! ## What is left of an access -/

/-- From `s`, an access to the word at `va` has committed the first `k` bytes of `val`, at the
addresses that they translate to, and its page walks have written back A and D bits of the leaves
they ended at. -/
inductive Committed (va val : U32) (s : Sys β) : Nat → Sys β → Prop
  | start : Committed va val s 0 s
  /-- Registers and RAM stay: a refill of the TLB, a log entry, a device. -/
  | same {k : Nat} {s₁ s₂ : Sys β} (h : Committed va val s k s₁)
      (ha : s₂.hart.arch = s₁.hart.arch) (hc : RamBus.cells s₂.bus = RamBus.cells s₁.bus) :
      Committed va val s k s₂
  /-- A page walk for a byte of the access writes a leaf back, up to the byte that is refused. -/
  | walk {k j : Nat} {s₁ s₂ : Sys β} {a : U32} {access : Access} {l : Leaf}
      (h : Committed va val s k s₁) (hspan : (a - va).toNat < 4)
      (hl : FuzzSoft.walk s₁.bus s₁.hart.csr.satp a = some l) (hn : needsAd access l.pte = true)
      (ha : s₂.hart.arch = s₁.hart.arch)
      (hc : RamBus.cells s₂.bus =
        (RamBus.cells s₁.bus).put l.addr ((leBytes (withAd access l.pte) 4).take j)) :
      Committed va val s k s₂
  /-- The next `j` bytes are committed. -/
  | bytes {k j : Nat} {s₁ s₂ : Sys β} {pa : U32} (h : Committed va val s k s₁)
      (hg : s₁.cpu.fastPa (va + BitVec.ofNat 32 k) .write = some pa) (hcpu : s₂.cpu = s₁.cpu)
      (hc : RamBus.cells s₂.bus = RamBus.cells s₁.bus ∨
        RamBus.cells s₂.bus = (RamBus.cells s₁.bus).put pa (((leBytes val 4).drop k).take j)) :
      Committed va val s (k + j) s₂

/-- A store that faults has written no register. -/
theorem Committed.arch {va val : U32} {s s' : Sys β} {k : Nat} (h : Committed va val s k s') :
    s'.hart.arch = s.hart.arch := by
  induction h with
  | start => rfl
  | same _ ha _ ih => exact ha.trans ih
  | walk _ _ _ _ ha _ ih => exact ha.trans ih
  | bytes _ _ hcpu _ ih =>
    refine Eq.trans ?_ ih
    rw [Sys.hart, hcpu, Sys.hart]

/-- The computation goes on from what is committed, and commits nothing more. -/
def Walks {α : Type} (va : U32) (x : Exec β α) : Prop :=
  ∀ ⦃val : U32⦄ ⦃s s₁ : Sys β⦄ ⦃k : Nat⦄, RamBus.Ok s₁.bus → Committed va val s k s₁ →
    RamBus.Ok (x s₁).2.bus ∧ Committed va val s k (x s₁).2

namespace Walks

variable {va : U32} {α α' : Type}

/-- What leaves the bus and the registers alone. -/
theorem of_keeps {x : Exec β α}
    (h : ∀ s : Sys β, (x s).2.bus = s.bus ∧ (x s).2.hart.arch = s.hart.arch) : Walks va x := by
  intro val s s₁ k hok hc
  obtain ⟨hb, ha⟩ := h s₁
  refine ⟨by rw [hb]; exact hok, hc.same ha (by rw [hb])⟩

/-- A value. -/
theorem pure (a : α) : Walks va (pure a : Exec β α) := of_keeps fun _ => ⟨rfl, rfl⟩

/-- Two computations, one after the other. -/
theorem bind {x : Exec β α} {f : α → Exec β α'} (hx : Walks va x) (hf : ∀ a, Walks va (f a)) :
    Walks va (x >>= f) := by
  intro val s s₁ k hok hc
  obtain ⟨hok', hc'⟩ := hx hok hc
  rcases hxs : x s₁ with ⟨r, s₂⟩
  rw [hxs] at hok' hc'
  cases r with
  | error e =>
    rw [Comp.bind_error hxs]
    exact ⟨hok', hc'⟩
  | ok a =>
    rw [Comp.bind_ok hxs]
    exact hf a hok' hc'

/-- A translation writes back the leaf its walk ends at, or nothing. -/
theorem xlate {a : U32} (hspan : (a - va).toNat < 4) (access : Access) :
    Walks va (xlate a access : Exec β U32) := by
  have hfill : Walks va (walkFill a access : Exec β U32) := by
    intro val s s₁ k hok hc
    unfold walkFill
    cases hu : usableLeaf s₁.hart s₁.bus a access with
    | none => exact ⟨hok, hc⟩
    | some l =>
      obtain ⟨hl, -, -⟩ := usableLeaf_eq_some.1 hu
      -- whatever becomes of the TLB, the bus is that of the write-back
      have key : ∀ s₂ : Sys β, s₂.hart.arch = s₁.hart.arch → s₂.bus = (updateAd s₁.bus access l).2 →
          RamBus.Ok s₂.bus ∧ Committed va val s k s₂ := by
        intro s₂ ha hb
        unfold updateAd at hb
        split at hb
        next hn =>
          obtain ⟨j, -, -, -, hcells⟩ := RamBus.store_cells hok l.addr 4 (withAd access l.pte)
          rw [hb]
          refine ⟨RamBus.store_ok hok _ _ _, hc.walk hspan hl hn ha (j := j) ?_⟩
          rw [hb]
          exact hcells
        next =>
          rw [hb]
          exact ⟨hok, hc.same ha (by rw [hb])⟩
      dsimp only
      rcases hr : updateAd s₁.bus access l with ⟨r, b⟩
      have hb : b = (updateAd s₁.bus access l).2 := by rw [hr]
      cases r with
      | error _ => exact key _ rfl hb
      | ok _ => exact key _ rfl hb
  intro val s s₁ k hok hc
  unfold FuzzSoft.xlate
  split
  · exact ⟨hok, hc⟩
  split
  · split
    · exact ⟨hok, hc⟩
    split
    · exact ⟨hok, hc⟩
    · exact hfill hok hc
  · exact hfill hok hc

/-- A bus load. -/
theorem busLoad (pa : U32) (n : Nat) : Walks va (busLoad pa n : Exec β U32) :=
  of_keeps fun _ => ⟨rfl, rfl⟩

/-- A read of the marks. -/
theorem busRawState (pa : U32) (n : Nat) : Walks va (busRawState pa n : Exec β U32) :=
  of_keeps fun _ => ⟨rfl, rfl⟩

/-- An update of what is not architectural. -/
theorem modifyHart {f : Hart → Hart} (h : ∀ h, (f h).arch = h.arch) :
    Walks va (modifyHart f : Exec β Unit) :=
  of_keeps fun s => ⟨rfl, h s.hart⟩

/-- A gather of bytes near the address. -/
theorem gather {one : U32 → Exec β U32} (hone : ∀ a, (a - va).toNat < 4 → Walks va (one a)) :
    ∀ {n i : Nat}, i + n ≤ 4 → Walks va (gather one va i n) := by
  intro n
  induction n with
  | zero => exact fun _ => pure 0
  | succ n ih =>
    intro i hn
    refine (hone _ (span_lt va (show i < 4 by omega))).bind fun _ => ?_
    exact (ih (by omega)).bind fun _ => pure _

/-- A load. -/
theorem loadImpl {size : Nat} (hsize : size ≤ 4) (signed : Bool) :
    Walks va (loadImpl va size signed : Exec β U32) := by
  refine bind ?_ fun _ => pure _
  unfold loadSpan
  split
  · refine gather (fun a ha => ?_) (by omega)
    exact (xlate ha .read).bind fun pa => (busLoad pa 1).bind fun _ => pure _
  · exact (xlate (self_span va) .read).bind fun pa => busLoad pa size

/-- The taint of a load. -/
theorem loadTaint {size : Nat} (hsize : size ≤ 4) :
    Walks va (loadTaint va size : Exec β U32) := by
  unfold FuzzSoft.loadTaint
  split
  · refine gather (fun a ha => ?_) (by omega)
    exact (xlate ha .read).bind fun pa => busRawState pa 1
  · exact (xlate (self_span va) .read).bind fun pa => busRawState pa size

/-- A load with its taint. -/
theorem loadWithTaint {size : Nat} (hsize : size ≤ 4) (signed : Bool) :
    Walks va (loadWithTaint va size signed : Exec β (U32 × Option U32)) := by
  refine (loadImpl hsize signed).bind fun _ => ?_
  refine bind (of_keeps fun _ => ⟨rfl, rfl⟩) fun h => ?_
  split
  · exact (loadTaint hsize).bind fun _ => pure _
  · exact pure _

end Walks

/-! ## Stores -/

/-- What a bus store of the bytes from `k` on commits. -/
theorem busStore_committed {va val pa v : U32} {s s₁ : Sys β} {k n : Nat}
    (hok : RamBus.Ok s₁.bus) (hc : Committed va val s k s₁)
    (hg : s₁.cpu.fastPa (va + BitVec.ofNat 32 k) .write = some pa)
    (hv : leBytes v (Mmu.width n) = ((leBytes val 4).drop k).take (Mmu.width n)) :
    RamBus.Ok (busStore pa n v s₁).2.bus ∧
      match busStore pa n v s₁ with
      | (.error _, s₂) => ∃ j < Mmu.width n, Committed va val s (k + j) s₂
      | (.ok _, s₂) => Committed va val s (k + Mmu.width n) s₂ := by
  obtain ⟨j, hj, herr, hfull, hcells⟩ := RamBus.store_cells hok pa n v
  have hpre : (leBytes v (Mmu.width n)).take j = ((leBytes val 4).drop k).take j := by
    rw [hv, List.take_take, Nat.min_eq_left hj]
  rw [hpre] at hcells
  refine ⟨RamBus.store_ok hok pa n v, ?_⟩
  unfold busStore
  dsimp only
  rcases hr : Bus.store s₁.bus pa n v with ⟨r, b⟩
  rw [hr] at herr hfull hcells
  cases r with
  | error f => exact ⟨j, herr f rfl, hc.bytes hg rfl (.inr hcells)⟩
  | ok _ =>
    refine hc.bytes hg rfl ?_
    rcases hfull rfl with rfl | rfl
    · exact .inl hcells
    · exact .inr hcells

/-- The bytes from `k` on of a value, one at a time. -/
theorem leBytes_byte (val : U32) {k : Nat} (hk : k < 4) :
    leBytes ((val >>> (8 * k)) &&& 0xff) (Mmu.width 1) =
      ((leBytes val 4).drop k).take (Mmu.width 1) := by
  have hbyte : ∀ v : U32, (v &&& 0xff).setWidth 8 = v.setWidth 8 := fun v => by
    rw [BitVec.setWidth_and, show (0xff : U32).setWidth 8 = BitVec.allOnes 8 from rfl,
      BitVec.and_allOnes]
  show [(((val >>> (8 * k)) &&& 0xff) >>> 0).setWidth 8] = _
  rw [BitVec.ushiftRight_zero, hbyte]
  match k, hk with
  | 0, _ | 1, _ | 2, _ | 3, _ => rfl

/-- One byte of a store over two pages: written, or the fault that stops it. -/
theorem storeByte_committed {va val : U32} {s s₁ : Sys β} {k : Nat} (hk : k < 4)
    (hok : RamBus.Ok s₁.bus) (hc : Committed va val s k s₁) :
    RamBus.Ok (storeByte val (va + BitVec.ofNat 32 k) k s₁).2.bus ∧
      match storeByte val (va + BitVec.ofNat 32 k) k s₁ with
      | (.error _, s₂) => Committed va val s k s₂
      | (.ok _, s₂) => Committed va val s (k + 1) s₂ := by
  obtain ⟨hok₂, hc₂⟩ := Walks.xlate (span_lt va hk) .write hok hc
  unfold storeByte
  rcases hx : xlate (va + BitVec.ofNat 32 k) .write s₁ with ⟨r, s₂⟩
  rw [hx] at hok₂ hc₂
  cases r with
  | error e =>
    rw [Comp.bind_error hx]
    exact ⟨hok₂, hc₂⟩
  | ok pa =>
    rw [Comp.bind_ok hx]
    obtain ⟨hok₃, hb⟩ := busStore_committed hok₂ hc₂ (fastPa_of_xlate hx) (leBytes_byte val hk)
    refine ⟨hok₃, ?_⟩
    rcases hr : busStore pa 1 ((val >>> (8 * k)) &&& 0xff) s₂ with ⟨r, s₃⟩
    rw [hr] at hb
    cases r with
    | error e =>
      obtain ⟨j, hj, hb⟩ := hb
      obtain rfl : j = 0 := Nat.lt_one_iff.1 hj
      exact hb
    | ok _ => exact hb

/-- A store over two pages that faults has written the bytes before. -/
theorem scatter_committed {va val : U32} {s : Sys β} : ∀ {n k : Nat} {s₁ s₂ : Sys β} {e : Trap},
    k + n ≤ 4 → RamBus.Ok s₁.bus → Committed va val s k s₁ →
    scatter (storeByte val) va k n s₁ = (.error e, s₂) →
    ∃ j < k + n, Committed va val s j s₂ := by
  intro n
  induction n with
  | zero =>
    intro k s₁ s₂ e _ _ _ h
    cases h
  | succ n ih =>
    intro k s₁ s₂ e hn hok hc h
    obtain ⟨hok', hb⟩ := storeByte_committed (show k < 4 by omega) hok hc
    rw [scatter] at h
    rcases hr : storeByte val (va + BitVec.ofNat 32 k) k s₁ with ⟨r, s₃⟩
    rw [hr] at hok' hb
    cases r with
    | error e' =>
      rw [Comp.bind_error hr] at h
      cases h
      exact ⟨k, by omega, hb⟩
    | ok _ =>
      rw [Comp.bind_ok hr] at h
      obtain ⟨j, hj, hcj⟩ := ih (by omega) hok' hb h
      exact ⟨j, by omega, hcj⟩

/-- A refused store has committed a proper prefix of its bytes. -/
theorem storeImpl_committed {va val : U32} {size : Nat} (hsize : size = 1 ∨ size = 2 ∨ size = 4)
    {s s₁ s₂ : Sys β} {e : Trap} (hok : RamBus.Ok s₁.bus) (hc : Committed va val s 0 s₁)
    (h : storeImpl va size val s₁ = (.error e, s₂)) : ∃ j < size, Committed va val s j s₂ := by
  unfold storeImpl at h
  split at h
  · obtain ⟨j, hj, hcj⟩ := scatter_committed (show 0 + size ≤ 4 by omega) hok hc h
    exact ⟨j, by omega, hcj⟩
  · obtain ⟨hok', hc'⟩ := Walks.xlate (self_span va) .write hok hc
    rcases hx : xlate va .write s₁ with ⟨r, s₃⟩
    rw [hx] at hok' hc'
    cases r with
    | error e' =>
      rw [Comp.bind_error hx] at h
      cases h
      exact ⟨0, by omega, hc'⟩
    | ok pa =>
      rw [Comp.bind_ok hx] at h
      have hw : Mmu.width size = size := by rcases hsize with rfl | rfl | rfl <;> rfl
      have hg : s₃.cpu.fastPa (va + BitVec.ofNat 32 0) .write = some pa := by
        rw [show va + BitVec.ofNat 32 0 = va from BitVec.add_zero va]
        exact fastPa_of_xlate hx
      have hv : leBytes val (Mmu.width size) = ((leBytes val 4).drop 0).take (Mmu.width size) := by
        rw [hw]
        rcases hsize with rfl | rfl | rfl <;> rfl
      obtain ⟨-, hb⟩ := busStore_committed hok' hc' hg hv
      rw [h, hw] at hb
      obtain ⟨j, hj, hb⟩ := hb
      rw [Nat.zero_add] at hb
      exact ⟨j, hj, hb⟩

/-! ## Instructions -/

/-- A fault of `x` from `s` keeps registers and CSRs, and leaves a part of a store at most; without
a data access it leaves the bus alone. -/
def FaultsIn {α : Type} (inst : Inst) (s : Sys β) (x : Exec β α) : Prop :=
  ∀ e s', x s = (.error e, s') → (inst.accesses = false → s'.bus = s.bus) ∧
    ∃ k v, (k = 0 ∨ k < inst.storeSize ∧ inst.Stores s v) ∧
      Committed (inst.dataAddr s.hart) v s k s'

namespace FaultsIn

variable {α α' : Type} {inst : Inst} {s : Sys β}

/-- A fault before anything was committed. -/
theorem of_walks {x : Exec β α} (hok : RamBus.Ok s.bus) (hx : Walks (inst.dataAddr s.hart) x)
    (ha : inst.accesses = true) : FaultsIn inst s x := by
  intro e s' h
  have hc := (@hx 0 s s 0 hok .start).2
  rw [h] at hc
  exact ⟨fun hn => absurd (ha.symm.trans hn) (by decide), 0, 0, .inl rfl, hc⟩

/-- A fault that changes nothing. -/
theorem of_unchanged {x : Exec β α} (hx : ∀ e s', x s = (.error e, s') → s' = s) :
    FaultsIn inst s x := by
  intro e s' h
  rw [hx e s' h]
  exact ⟨fun _ => rfl, 0, 0, .inl rfl, .start⟩

/-- What follows the last part that can fail. -/
theorem bind {x : Exec β α} {f : α → Exec β α'} (hx : FaultsIn inst s x)
    (hf : ∀ a s₁ e s', x s = (.ok a, s₁) → f a s₁ ≠ (.error e, s')) :
    FaultsIn inst s (x >>= f) := by
  intro e s' h
  rcases hxs : x s with ⟨r, s₁⟩
  cases r with
  | error e' =>
    rw [Comp.bind_error hxs] at h
    cases h
    exact hx _ _ hxs
  | ok a =>
    rw [Comp.bind_ok hxs] at h
    exact absurd h (hf a s₁ e s' hxs)

/-- A result after the last part that can fail. -/
theorem last {x : Exec β α} {f : α → Hart → Hart} {g : α → α'} (hx : FaultsIn inst s x) :
    FaultsIn inst s (x >>= fun a => FuzzSoft.modifyHart (f a) >>= fun _ => pure (g a)) :=
  hx.bind fun _ _ _ _ _ h => by cases h

/-- What follows the access does not fault. -/
theorem pure_last {x : Exec β α} {g : α → α'} (hx : FaultsIn inst s x) :
    FaultsIn inst s (x >>= fun a => pure (g a)) :=
  hx.bind fun _ _ _ _ _ h => by cases h

end FaultsIn

/-- A word store with a taint mask faults in the store. -/
theorem storeWithTaint_faults {inst : Inst} {s : Sys β} (hok : RamBus.Ok s.bus) {val : U32}
    (ha : inst.accesses = true) (hval : inst.Stores s val)
    (hsize : inst.storeSize = 1 ∨ inst.storeSize = 2 ∨ inst.storeSize = 4) (mask : Option U32) :
    FaultsIn inst s (storeWithTaint (inst.dataAddr s.hart) inst.storeSize val mask) := by
  refine FaultsIn.bind ?_ fun _ s₁ e s' hst h => ?_
  · intro e s' h
    obtain ⟨k, hk, hc⟩ := storeImpl_committed hsize hok .start h
    exact ⟨fun hn => absurd (ha.symm.trans hn) (by decide), k, val, .inr ⟨hk, hval⟩, hc⟩
  · cases mask with
    | none => cases h
    | some t =>
      have hg := storeImpl_granted (show inst.storeSize ≤ 4 by omega) hst
      obtain ⟨b, ht, -⟩ := storeTaint_of_granted hg
      have h' : storeTaint (inst.dataAddr s.hart) inst.storeSize t s₁ = (.error e, s') := h
      rw [ht] at h'
      cases h'

/-- A taint grants nothing. -/
theorem wrTaint_fastPa (h : Hart) (i : Reg) (t : U32) (tlb : Tlb) (va : U32) (access : Access) :
    Cpu.fastPa { h.wrTaint i t with tlb := tlb } va access =
      Cpu.fastPa { h with tlb := tlb } va access := by
  unfold Hart.wrTaint
  split
  · rfl
  · split <;> rfl

/-- An AMO faults in its translation, its load or its store. -/
theorem amoAccess_faults (op : AmoOp) (rd rs1 rs2 : Reg) (aq rl : Bool) {s : Sys β}
    (hok : RamBus.Ok s.bus) : FaultsIn (.amoW op rd rs1 rs2 aq rl) s
      (amoAccess op rd (s.hart.rdReg rs1) (s.hart.rdReg rs2)) := by
  intro e s' h
  refine ⟨fun hn => absurd hn Bool.noConfusion, ?_⟩
  have hwalk := fun v => @Walks.xlate β _ _ _ _ (self_span (s.hart.rdReg rs1)) .write v s s 0 hok
    .start
  have early : ∀ {s₁ : Sys β}, (xlate (s.hart.rdReg rs1) .write s).2 = s₁ →
      ∃ k v, (k = 0 ∨ k < 4 ∧ (Inst.amoW op rd rs1 rs2 aq rl).Stores s v) ∧
        Committed (s.hart.rdReg rs1) v s k s₁ := fun he =>
    ⟨0, 0, .inl rfl, he ▸ (hwalk 0).2⟩
  unfold amoAccess at h
  rcases hx : xlate (s.hart.rdReg rs1) .write s with ⟨r, s₁⟩
  rw [hx] at hwalk early
  cases r with
  | error e' =>
    rw [Comp.bind_error hx] at h
    cases h
    exact early rfl
  | ok pa =>
    rw [Comp.bind_ok hx] at h
    rcases hl : busLoad pa 4 s₁ with ⟨r, s₂⟩
    obtain rfl : s₁ = s₂ := congrArg Prod.snd hl
    cases r with
    | error e' =>
      rw [Comp.bind_error hl] at h
      cases h
      exact early rfl
    | ok old =>
      rw [Comp.bind_ok hl] at h
      unfold busRawState FuzzSoft.modifyHart at h
      rw [Comp.gets_bind, Comp.modify_bind] at h
      -- the taint of `rd` is written before the store, and is no part of the state that counts
      generalize hs₂ : s₁.setHart (if s₁.hart.kmsanEnabled then
        s₁.hart.wrTaint rd (Bus.readRawState s₁.bus pa 4) else s₁.hart) = s₂ at h
      have hb : s₂.bus = s₁.bus := by rw [← hs₂, Sys.bus_setHart]
      have harch : s₂.hart.arch = s₁.hart.arch := by
        rw [← hs₂, Sys.hart_setHart]
        split
        · exact Hart.wrTaint_arch _ _ _
        · rfl
      have hg : s₂.cpu.fastPa (s.hart.rdReg rs1 + BitVec.ofNat 32 0) .write = some pa := by
        have hf := fastPa_of_xlate hx
        rw [show s.hart.rdReg rs1 + BitVec.ofNat 32 0 = s.hart.rdReg rs1 from BitVec.add_zero _,
          ← hs₂]
        split
        · exact (wrTaint_fastPa _ _ _ _ _ _).trans hf
        · exact hf
      obtain ⟨hok₁, hc₁⟩ := hwalk (amoResult op old (s.hart.rdReg rs2))
      obtain ⟨-, hst⟩ := @busStore_committed β _ _ _ _ _ (amoResult op old (s.hart.rdReg rs2)) s s₂
        0 4 (by rw [hb]; exact hok₁) (hc₁.same harch (by rw [hb])) hg rfl
      rcases hr : busStore pa 4 (amoResult op old (s.hart.rdReg rs2)) s₂ with ⟨r, s₃⟩
      rw [hr] at hst
      cases r with
      | error e' =>
        rw [Comp.bind_error hr] at h
        cases h
        obtain ⟨j, hj, hc⟩ := hst
        rw [Nat.zero_add] at hc
        exact ⟨j, _, .inr ⟨hj, pa, old, s₁, hx, congrArg Prod.fst hl, rfl⟩, hc⟩
      | ok _ =>
        rw [Comp.bind_ok hr] at h
        cases h

omit [Bus β] [RamBus β] in
/-- A branch leaves the bus alone. -/
theorem execBranch_bus (op : BranchOp) (rs1 rs2 : Reg) (imm pc next : U32) (s : Sys β) :
    (execBranch op rs1 rs2 imm pc next s).2.bus = s.bus := by
  unfold execBranch getHart FuzzSoft.modifyHart
  rw [Comp.gets_bind]
  dsimp only
  rw [Comp.modify_bind]
  split <;> rfl

/-- What every instruction leaves when it faults. -/
theorem execInst_faults (inst : Inst) (pc next iword : U32) {s : Sys β} (hok : RamBus.Ok s.bus) :
    FaultsIn inst s (execInst inst pc next iword) := by
  have open' : ∀ {f : Hart → Exec β (Exit × U32)}, FaultsIn inst s (f s.hart) →
      FaultsIn inst s (getHart >>= f) := fun h => h
  refine open' ?_
  cases inst with
  | lui | auipc | jal | jalr | opImm | op | mul | fence | wfi | ecall | ebreak | sfenceVma =>
    intro e s' h
    cases h
  | branch op rs1 rs2 imm =>
    refine FaultsIn.pure_last fun e s' h => ?_
    have hh := execBranch_hart op rs1 rs2 imm pc next s
    have hb := execBranch_bus op rs1 rs2 imm pc next s
    rw [h] at hh hb
    refine ⟨fun _ => hb, 0, 0, .inl rfl, Committed.start.same ?_ (congrArg RamBus.cells hb)⟩
    exact (congrArg Hart.arch hh).trans (Hart.logCmp_arch _ _ _)
  | load op rd rs1 imm =>
    refine FaultsIn.last (.of_walks hok (Walks.loadWithTaint ?_ _) rfl)
    cases op <;> decide
  | store op rs1 rs2 imm =>
    refine FaultsIn.pure_last ?_
    have hsize : op.size = 1 ∨ op.size = 2 ∨ op.size = 4 := by cases op <;> decide
    exact FaultsIn.pure_last
      (@storeWithTaint_faults β _ _ (.store op rs1 rs2 imm) s hok (s.hart.rdReg rs2) rfl rfl hsize
        _)
  | lrW rd rs1 aq rl =>
    exact FaultsIn.last (.of_walks hok (Walks.loadWithTaint (by decide) _) rfl)
  | scW rd rs1 rs2 aq rl =>
    refine FaultsIn.last fun e s' h => ?_
    unfold storeIf at h
    split at h
    · obtain ⟨k, hk, hc⟩ := storeImpl_committed (.inr (.inr rfl)) hok .start h
      exact ⟨fun hn => absurd hn Bool.noConfusion, k, _, .inr ⟨hk, rfl⟩, hc⟩
    · cases h
  | amoW op rd rs1 rs2 aq rl => exact FaultsIn.last (amoAccess_faults op rd rs1 rs2 aq rl hok)
  | csr op rd src csr =>
    refine FaultsIn.pure_last ?_
    exact .of_unchanged (fun e s' h => (execCsr_error h).1)
  | mret | sret =>
    dsimp only
    split
    · exact .of_unchanged (fun e s' h => by cases h; rfl)
    · intro e s' h
      cases h
  | illegal raw => exact .of_unchanged (fun e s' h => by cases h; rfl)

/-- A faulting instruction keeps the architectural state. Without a data access it leaves the bus
alone; else it changes the RAM by the write-backs of its page walks and, if it stores, by a proper
prefix of the bytes of its store. -/
theorem execOne_error {inst : Inst} {pc ilen iword : U32} {s s' : Sys β} {e : Trap}
    (hok : RamBus.Ok s.bus) (h : execOne inst pc ilen iword s = (.error e, s')) :
    s'.hart.arch = s.hart.arch ∧ (inst.accesses = false → s'.bus = s.bus) ∧
      ∃ k v, (k = 0 ∨ k < inst.storeSize ∧ inst.Stores s v) ∧
        Committed (inst.dataAddr s.hart) v s k s' := by
  have hf : FaultsIn inst s (execOne inst pc ilen iword) :=
    FaultsIn.last (execInst_faults inst pc (pc + ilen) iword hok)
  obtain ⟨hb, k, v, hk, hc⟩ := hf e s' h
  exact ⟨hc.arch, hb, k, v, hk, hc⟩

end

/-! ## A torn store -/

/-- Eight bytes of RAM, of which the first four can be written. -/
def halfWritable : Mmu :=
  { Mmu.new 0 8 with perms := fun off => if off < 4 then PERM_READ ||| PERM_WRITE else PERM_READ }

/-- A hart about to store a word across the end of the writable bytes. -/
def tornStart : Sys Mmu :=
  ⟨{ Cpu.new 0 with regs := fun i => if i = 1 then 2 else 0x04030201 }, halfWritable⟩

/-- The misaligned store faults at its third byte, in M mode and so without a page walk, and its
first byte is in RAM. -/
theorem torn_store :
    (execOne (.store .sw 1 2 0) 0 4 0 tornStart).1 = .error (.mem ⟨4, 1, .write, .permission⟩) ∧
      RamBus.cells tornStart.bus 2 = some (0, PERM_READ ||| PERM_WRITE) ∧
      RamBus.cells (execOne (.store .sw 1 2 0) 0 4 0 tornStart).2.bus 2 =
        some (1, PERM_READ ||| PERM_WRITE) := by
  decide

/-- Its registers are as before. -/
theorem execOne_error_torn :
    (execOne (.store .sw 1 2 0) 0 4 0 tornStart).2.hart.arch = tornStart.hart.arch :=
  (@execOne_error Mmu _ _ (.store .sw 1 2 0) 0 4 0 tornStart _
    (.mem ⟨4, 1, .write, .permission⟩) trivial (Prod.ext (by decide) rfl)).1

end FuzzSoft
