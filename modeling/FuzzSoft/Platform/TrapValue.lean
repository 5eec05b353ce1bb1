import FuzzSoft.Platform.BusFaults
import FuzzSoft.Platform.FastAccess
import FuzzSoft.Platform.Faults

/-!
# Where a memory trap says it happened

A guest access fails in its page walk or on the bus. The walk knows the virtual address and the
operation of the instruction; the bus knows a physical address, and the operation it was asked for.
Traps take both as they are, so the trap value and the cause are those of the access exactly when the
page of a refused access is mapped to itself and the bus was asked for what the instruction does
(`memTrap_located_iff`); an AMO asks it for a load first.
-/

namespace FuzzSoft

open Lib

/-! ## Refusals -/

/-- An access of the bus that is refused: what it was asked for, for which virtual address, and at
which physical one. -/
structure Refusal where
  va : U32
  pa : U32
  op : Access
  deriving DecidableEq, Repr

/-- The trap that a result is. -/
def failure {α : Type} : Except Trap α → Option Trap
  | .ok _ => none
  | .error e => some e

/-- How an access of `size` bytes at `va` fails, given what the bus refuses: in a page walk for one of
its bytes, or on the bus, whose fault is at a byte of what it refuses. -/
inductive Fails (cls : Access) (va : U32) (size : Nat) : Option Refusal → Option Trap → Prop
  | ok : Fails cls va size none none
  | page {i : Nat} {a : U32} (hi : i < size) (ha : a = va + BitVec.ofNat 32 i) :
    Fails cls va size none (some (pageFault cls a))
  | bus {i j : Nat} {r : Refusal} {f : Fault} (hij : i + j < size)
    (hva : r.va = va + BitVec.ofNat 32 i) (hpa : r.pa.toNat % 4096 = r.va.toNat % 4096)
    (hop : f.access = r.op) (hf : f.addr = r.pa + BitVec.ofNat 32 j) :
    Fails cls va size (some r) (some (.mem f))

/-- An access to a part of a span is one to the span. -/
theorem Fails.part {cls : Access} {va a : U32} {i n size : Nat} {r : Option Refusal}
    {e : Option Trap} (h : Fails cls a n r e) (ha : a = va + BitVec.ofNat 32 i)
    (hi : i + n ≤ size) : Fails cls va size r e := by
  have hadd : ∀ k, a + BitVec.ofNat 32 k = va + BitVec.ofNat 32 (i + k) := by
    intro k
    rw [ha, BitVec.add_assoc, ← BitVec.ofNat_add]
  cases h with
  | ok => exact .ok
  | page hi' ha' => exact .page (show i + _ < size by omega) (ha'.trans (hadd _))
  | @bus k j r f hij hva hpa hop hf =>
    exact .bus (show i + k + j < size by omega) (hva.trans (hadd _)) hpa hop hf

section
variable {β : Type} [Bus β]

/-- The translation of `va` succeeds, and the bus does not accept what it is asked for. -/
def refusedAt (cls : Access) (accepts : β → U32 → Bool) (va : U32) (s : Sys β) : Option Refusal :=
  match xlate va cls s with
  | (.ok pa, s') => if accepts s'.bus pa then none else some ⟨va, pa, cls⟩
  | (.error _, _) => none

/-- The first refusal of `n` accesses of one byte each. -/
def bytesRefused {α : Type} (refused : U32 → Nat → Sys β → Option Refusal)
    (one : U32 → Nat → Exec β α) (va : U32) : (i n : Nat) → Sys β → Option Refusal
  | _, 0, _ => none
  | i, n + 1, s =>
    match refused (va + BitVec.ofNat 32 i) i s with
    | some r => some r
    | none =>
      match one (va + BitVec.ofNat 32 i) i s with
      | (.ok _, s') => bytesRefused refused one va (i + 1) n s'
      | (.error _, _) => none

def fetchRefused16 : U32 → Sys β → Option Refusal :=
  refusedAt .exec fun b pa => (Bus.ifetch16 b pa).isOk

/-- What the bus refuses of the fetch of an instruction. -/
def fetchRefused (pc : U32) (s : Sys β) : Option Refusal :=
  match fetchRefused16 pc s with
  | some r => some r
  | none =>
    match fetch16 pc s with
    | (.ok lo, s') => if lo &&& 0x3 ≠ 0x3 then none else fetchRefused16 (pc + 2) s'
    | (.error _, _) => none

/-- What it refuses of a load. -/
def loadRefused (va : U32) (size : Nat) (s : Sys β) : Option Refusal :=
  let sized n := refusedAt .read fun (b : β) pa => (Bus.load b pa n).isOk
  if bytewise va size then bytesRefused (fun a _ => sized 1 a) (fun a _ => loadByte a) va 0 size s
  else sized size va s

/-- What it refuses of a store. -/
def storeRefused (va : U32) (size : Nat) (val : U32) (s : Sys β) : Option Refusal :=
  let sized n v := refusedAt .write fun (b : β) pa => (Bus.store b pa n v).1.isOk
  if bytewise va size then
    bytesRefused (fun a i => sized 1 ((val >>> (8 * i)) &&& 0xff) a) (storeByte val) va 0 size s
  else sized size val va s

/-- What it refuses of an AMO, which it is asked for a load and then for a store. -/
def amoRefused (op : AmoOp) (va src : U32) (s : Sys β) : Option Refusal :=
  match xlate va .write s with
  | (.ok pa, s') =>
    match Bus.load s'.bus pa 4 with
    | .error _ => some ⟨va, pa, .read⟩
    | .ok old =>
      if (Bus.store s'.bus pa 4 (amoResult op old src)).1.isOk then none else some ⟨va, pa, .write⟩
  | (.error _, _) => none

/-- What it refuses of the data access of an instruction. -/
def Inst.refused (inst : Inst) (s : Sys β) : Option Refusal :=
  let h := s.hart
  match inst with
  | .load lop _ rs1 imm => loadRefused (h.rdReg rs1 + imm) lop.size s
  | .store sop rs1 rs2 imm => storeRefused (h.rdReg rs1 + imm) sop.size (h.rdReg rs2) s
  | .lrW _ rs1 _ _ => loadRefused (h.rdReg rs1) 4 s
  | .scW _ rs1 rs2 _ _ =>
    if h.reservation = some (h.rdReg rs1) then storeRefused (h.rdReg rs1) 4 (h.rdReg rs2) s
    else none
  | .amoW aop _ rs1 rs2 _ _ => amoRefused aop (h.rdReg rs1) (h.rdReg rs2) s
  | _ => none

/-! ## Accesses -/

/-- A translation fails with a page fault at its address, and keeps the place in the page. -/
theorem xlate_error {s s' : Sys β} {va : U32} {access : Access} {e : Trap}
    (h : xlate va access s = (.error e, s')) : e = pageFault access va := by
  have hfill : walkFill va access s = (.error e, s') → e = pageFault access va := by
    intro h
    unfold walkFill at h
    split at h
    · cases h
      rfl
    · split at h
      · cases h
        rfl
      · cases h
  unfold xlate at h
  split at h
  · cases h
  split at h
  · split at h
    · cases h
      rfl
    split at h
    · cases h
    · exact hfill h
  · exact hfill h

/-- A translation keeps the offset within the page. -/
theorem xlate_mod {s s' : Sys β} {va pa : U32} {access : Access}
    (h : xlate va access s = (.ok pa, s')) : pa.toNat % 4096 = va.toNat % 4096 := by
  have hf := fastPa_of_xlate h
  unfold Cpu.fastPa at hf
  split at hf
  · cases hf
    rfl
  split at hf
  · cases hf
  split at hf
  · cases hf
  split at hf
  · cases hf
  · cases hf
    exact entryPa_mod _ _

/-- An operation of the bus succeeds when it is accepted, or else its fault is at one of its bytes. -/
def Answers {α : Type} (cls : Access) (n : Nat) (accepts : β → U32 → Bool) (y : U32 → Exec β α) :
    Prop :=
  ∀ pa s, match (y pa s).1 with
    | .ok _ => accepts s.bus pa = true
    | .error e => accepts s.bus pa = false ∧ ∃ f, e = .mem f ∧ FaultAt cls pa n f

/-- A translated access of one operation. -/
theorem fails_xlate {α : Type} {cls : Access} {n : Nat} (hn : 0 < n) {accepts : β → U32 → Bool}
    {y : U32 → Exec β α} (hy : Answers cls n accepts y) (va : U32) (s : Sys β) :
    Fails cls va n (refusedAt cls accepts va s) (failure ((xlate va cls >>= y) s).1) := by
  unfold refusedAt
  rcases hx : xlate va cls s with ⟨r, s'⟩
  cases r with
  | error e =>
    rw [Comp.bind_error hx, xlate_error hx]
    exact .page hn (BitVec.add_zero va).symm
  | ok pa =>
    rw [Comp.bind_ok hx]
    have hpa := hy pa s'
    rcases hr : (y pa s').1 with e | a
    · rw [hr] at hpa
      obtain ⟨hacc, f, rfl, hop, j, hj, hf⟩ := hpa
      dsimp only
      rw [hacc]
      exact .bus (i := 0) (by omega) (BitVec.add_zero va).symm (xlate_mod hx) hop hf
    · rw [hr] at hpa
      dsimp only
      rw [hpa]
      exact .ok

omit [Bus β] in
/-- What follows an access that cannot be refused any more. -/
theorem Fails.bind {α α' : Type} {cls : Access} {va : U32} {size : Nat} {r : Option Refusal}
    {x : Exec β α} {g : α → Exec β α'} {s : Sys β} (hx : Fails cls va size r (failure (x s).1))
    (hg : ∀ a s', Fails cls va size none (failure (g a s').1)) :
    Fails cls va size r (failure ((x >>= g) s).1) := by
  rcases hxs : x s with ⟨_ | a, s'⟩
  · rw [Comp.bind_error hxs]
    rw [hxs] at hx
    exact hx
  · rw [Comp.bind_ok hxs]
    rw [hxs] at hx
    cases hx
    exact hg a s'

omit [Bus β] in
/-- A result after the access. -/
theorem Fails.last {α α' : Type} {cls : Access} {va : U32} {size : Nat} {r : Option Refusal}
    {x : Exec β α} {f : α → Hart → Hart} {g : α → α'} {s : Sys β}
    (hx : Fails cls va size r (failure (x s).1)) :
    Fails cls va size r (failure ((x >>= fun a => modifyHart (f a) >>= fun _ => pure (g a)) s).1) :=
  hx.bind fun _ _ => .ok

omit [Bus β] in
/-- One access of a byte, and the rest of them. -/
theorem fails_bytes {α α' : Type} {cls : Access} {va : U32} {size : Nat}
    {refused : U32 → Nat → Sys β → Option Refusal} {one : U32 → Nat → Exec β α}
    (hone : ∀ a i s, Fails cls a 1 (refused a i s) (failure (one a i s).1)) {i n : Nat}
    (hn : i + (n + 1) ≤ size) {g : α → Exec β α'} {s : Sys β}
    (hg : ∀ a s', Fails cls va size (bytesRefused refused one va (i + 1) n s')
      (failure (g a s').1)) :
    Fails cls va size (bytesRefused refused one va i (n + 1) s)
      (failure ((one (va + BitVec.ofNat 32 i) i >>= g) s).1) := by
  have h := @Fails.part cls va _ i 1 size _ _ (hone (va + BitVec.ofNat 32 i) i s) rfl (by omega)
  rw [bytesRefused]
  rcases hx : one (va + BitVec.ofNat 32 i) i s with ⟨_ | a, s'⟩
  · rw [Comp.bind_error hx]
    rw [hx] at h
    cases hr : refused (va + BitVec.ofNat 32 i) i s with
    | none =>
      rw [hr] at h
      exact h
    | some r =>
      rw [hr] at h
      exact h
  · rw [Comp.bind_ok hx]
    rw [hx] at h
    cases hr : refused (va + BitVec.ofNat 32 i) i s with
    | none => exact hg a s'
    | some r =>
      rw [hr] at h
      cases h

omit [Bus β] in
/-- A gather fails at its first byte that does. -/
theorem fails_gather {cls : Access} {va : U32} {size : Nat}
    {refused : U32 → Nat → Sys β → Option Refusal} {one : U32 → Exec β U32}
    (hone : ∀ a i s, Fails cls a 1 (refused a i s) (failure (one a s).1)) :
    ∀ {n i : Nat}, i + n ≤ size → ∀ s : Sys β,
      Fails cls va size (bytesRefused refused (fun a _ => one a) va i n s)
        (failure (gather one va i n s).1) := by
  intro n
  induction n with
  | zero => exact fun _ _ => .ok
  | succ n ih =>
    intro i hn s
    exact fails_bytes hone hn fun _ s' => (ih (by omega) s').bind fun _ _ => .ok

omit [Bus β] in
/-- So does a scatter. -/
theorem fails_scatter {cls : Access} {va : U32} {size : Nat}
    {refused : U32 → Nat → Sys β → Option Refusal} {one : U32 → Nat → Exec β Unit}
    (hone : ∀ a i s, Fails cls a 1 (refused a i s) (failure (one a i s).1)) :
    ∀ {n i : Nat}, i + n ≤ size → ∀ s : Sys β,
      Fails cls va size (bytesRefused refused one va i n s) (failure (scatter one va i n s).1) := by
  intro n
  induction n with
  | zero => exact fun _ _ => .ok
  | succ n ih =>
    intro i hn s
    exact fails_bytes hone hn fun _ s' => ih (by omega) s'

omit [Bus β] in
/-- Accesses that the bus always accepts. -/
theorem bytesRefused_none {α : Type} (one : U32 → Nat → Exec β α) (va : U32) :
    ∀ (n i : Nat) (s : Sys β), bytesRefused (fun _ _ _ => none) one va i n s = none := by
  intro n
  induction n with
  | zero => exact fun _ _ => rfl
  | succ n ih =>
    intro i s
    rw [bytesRefused]
    dsimp only
    split
    · exact ih _ _
    · rfl

/-- A translation before what the bus always accepts. -/
theorem fails_walk {α : Type} {cls : Access} {n : Nat} (hn : 0 < n) {y : U32 → Exec β α}
    (hy : ∀ pa s, failure (y pa s).1 = none) (va : U32) (s : Sys β) :
    Fails cls va n none (failure ((xlate va cls >>= y) s).1) := by
  have hno : refusedAt cls (fun (_ : β) _ => true) va s = none := by
    unfold refusedAt
    split <;> rfl
  rw [← hno]
  refine fails_xlate hn (fun pa s' => ?_) va s
  have h := hy pa s'
  rcases hr : (y pa s').1 with e | a
  · rw [hr] at h
    cases h
  · rfl

/-- Gathering the taint of a load finds no fault of its own. -/
theorem fails_loadTaint {va : U32} {size : Nat} (hsize : 0 < size) (s : Sys β) :
    Fails .read va size none (failure (loadTaint va size s).1) := by
  unfold loadTaint
  split
  · have h := @fails_gather β .read va size (fun _ _ _ => none) loadTaintByte
      (fun a _ s => fails_walk (by decide) (fun _ _ => rfl) a s) size 0 (by omega) s
    rwa [bytesRefused_none] at h
  · exact fails_walk hsize (fun _ _ => rfl) va s

/-- Nor does scattering the taint of a store. -/
theorem fails_storeTaint {va : U32} {size : Nat} (hsize : 0 < size) (mask : U32) (s : Sys β) :
    Fails .write va size none (failure (storeTaint va size mask s).1) := by
  unfold storeTaint
  split
  · have h := @fails_scatter β .write va size (fun _ _ _ => none) (storeTaintByte mask)
      (fun a _ s => fails_walk (by decide) (fun _ _ => rfl) a s) size 0 (by omega) s
    rwa [bytesRefused_none] at h
  · exact fails_walk hsize (fun _ _ => rfl) va s

omit [Bus β] in
/-- A result after the operation. -/
theorem Answers.map {α α' : Type} {cls : Access} {n : Nat} {accepts : β → U32 → Bool}
    {y : U32 → Exec β α} (hy : Answers cls n accepts y) (g : α → α') :
    Answers cls n accepts fun pa => y pa >>= fun a => pure (g a) := by
  intro pa s
  dsimp only
  have h := hy pa s
  rcases hx : y pa s with ⟨_ | a, s'⟩
  · rw [hx] at h
    rw [Comp.bind_error hx]
    exact h
  · rw [hx] at h
    rw [Comp.bind_ok hx]
    exact h

variable [LocatesFaults β]

/-- A bus load answers at its address. -/
theorem answers_load {n : Nat} (hn : AccessSize n) :
    Answers .read n (fun (b : β) pa => (Bus.load b pa n).isOk) fun pa => busLoad pa n := by
  intro pa s
  unfold busLoad
  dsimp only
  rcases hl : Bus.load s.bus pa n with f | v
  · exact ⟨rfl, f, rfl, LocatesFaults.load hn hl⟩
  · rfl

/-- So does a bus store. -/
theorem answers_store {n : Nat} (hn : AccessSize n) (v : U32) :
    Answers .write n (fun (b : β) pa => (Bus.store b pa n v).1.isOk) fun pa => busStore pa n v := by
  intro pa s
  unfold busStore
  dsimp only
  rcases hl : (Bus.store s.bus pa n v).1 with f | v
  · exact ⟨rfl, f, rfl, LocatesFaults.store hn hl⟩
  · rfl

/-- So does a bus fetch. -/
theorem answers_ifetch16 :
    Answers .exec 2 (fun (b : β) pa => (Bus.ifetch16 b pa).isOk) busIfetch16 := by
  intro pa s
  unfold busIfetch16
  dsimp only
  rcases hl : Bus.ifetch16 s.bus pa with f | v
  · exact ⟨rfl, f, rfl, LocatesFaults.ifetch16 hl⟩
  · rfl

/-- Where a fetch fails. -/
theorem fails_fetchDecode (pc : U32) (s : Sys β) :
    Fails .exec pc 4 (fetchRefused pc s) (failure (fetchDecode pc s).1) := by
  have hlo : Fails .exec pc 4 (fetchRefused16 pc s) (failure (fetch16 pc s).1) :=
    (fails_xlate (by decide) answers_ifetch16 pc s).part (i := 0) (BitVec.add_zero pc).symm
      (by decide)
  unfold fetchRefused fetchDecode
  rcases hx : fetch16 pc s with ⟨_ | lo, s'⟩
  · rw [Comp.bind_error hx]
    rw [hx] at hlo
    cases hr : fetchRefused16 pc s with
    | none =>
      rw [hr] at hlo
      exact hlo
    | some r =>
      rw [hr] at hlo
      exact hlo
  · rw [Comp.bind_ok hx]
    rw [hx] at hlo
    cases hr : fetchRefused16 pc s with
    | none =>
      dsimp only
      split
      · exact .ok
      · have hhi : Fails .exec pc 4 (fetchRefused16 (pc + 2) s') (failure (fetch16 (pc + 2) s').1) :=
          (fails_xlate (by decide) answers_ifetch16 (pc + 2) s').part (i := 2) rfl (by decide)
        exact hhi.bind fun _ _ => .ok
    | some r =>
      rw [hr] at hlo
      cases hlo

/-- Where a load fails. -/
theorem fails_loadImpl {va : U32} {size : Nat} (hsize : AccessSize size) (signed : Bool)
    (s : Sys β) :
    Fails .read va size (loadRefused va size s) (failure (loadImpl va size signed s).1) := by
  refine Fails.bind ?_ fun _ _ => .ok
  have hpos : 0 < size := by rcases hsize with rfl | rfl | rfl <;> decide
  unfold loadRefused loadSpan
  dsimp only
  split
  · exact fails_gather (fun a _ s =>
      fails_xlate (by decide) ((answers_load (.inl rfl)).map (· &&& 0xff)) a s) (by omega) s
  · exact fails_xlate hpos (answers_load hsize) va s

/-- Where a load with its taint fails. -/
theorem fails_loadWithTaint {va : U32} {size : Nat} (hsize : AccessSize size) (signed : Bool)
    (s : Sys β) :
    Fails .read va size (loadRefused va size s) (failure (loadWithTaint va size signed s).1) := by
  have hpos : 0 < size := by rcases hsize with rfl | rfl | rfl <;> decide
  refine (fails_loadImpl hsize signed s).bind fun v s' => ?_
  show Fails _ _ _ _ (failure ((if s'.hart.kmsanEnabled then _ else _ : Exec β _) s').1)
  split
  · exact (fails_loadTaint hpos s').bind fun _ _ => .ok
  · exact .ok

/-- Where a store fails. -/
theorem fails_storeImpl {va : U32} {size : Nat} (hsize : AccessSize size) (val : U32)
    (s : Sys β) :
    Fails .write va size (storeRefused va size val s) (failure (storeImpl va size val s).1) := by
  have hpos : 0 < size := by rcases hsize with rfl | rfl | rfl <;> decide
  unfold storeRefused storeImpl
  dsimp only
  split
  · exact fails_scatter (fun a _ s => fails_xlate (by decide) (answers_store (.inl rfl) _) a s)
      (by omega) s
  · exact fails_xlate hpos (answers_store hsize val) va s

/-- Where a store with its taint fails. -/
theorem fails_storeWithTaint {va : U32} {size : Nat} (hsize : AccessSize size) (val : U32)
    (mask : Option U32) (s : Sys β) :
    Fails .write va size (storeRefused va size val s)
      (failure (storeWithTaint va size val mask s).1) := by
  have hpos : 0 < size := by rcases hsize with rfl | rfl | rfl <;> decide
  refine (fails_storeImpl hsize val s).bind fun _ s' => ?_
  cases mask with
  | none => exact .ok
  | some t => exact fails_storeTaint hpos t s'

/-- The load of an AMO is one of the bus, for an access that is a store. -/
theorem fails_amoAccess (op : AmoOp) (rd : Reg) (va src : U32) (s : Sys β) :
    Fails .write va 4 (amoRefused op va src s) (failure (amoAccess op rd va src s).1) := by
  unfold amoRefused amoAccess
  rcases hx : xlate va .write s with ⟨_ | pa, s'⟩
  · rw [Comp.bind_error hx, xlate_error hx]
    exact .page (by decide) (BitVec.add_zero va).symm
  · rw [Comp.bind_ok hx]
    dsimp only
    rcases hl : Bus.load s'.bus pa 4 with f | old
    · have hb : busLoad pa 4 s' = (.error (.mem f), s') := by rw [busLoad, hl]; rfl
      rw [Comp.bind_error hb]
      obtain ⟨hop, j, hj, hf⟩ := LocatesFaults.load (.inr (.inr rfl)) hl
      exact .bus (i := 0) (by omega) (BitVec.add_zero va).symm (xlate_mod hx) hop hf
    · have hb : busLoad pa 4 s' = (.ok old, s') := by rw [busLoad, hl]; rfl
      rw [Comp.bind_ok hb]
      unfold busRawState modifyHart
      rw [Comp.gets_bind, Comp.modify_bind]
      dsimp only
      generalize hs₂ : s'.setHart _ = s₂
      have hbus : s₂.bus = s'.bus := by rw [← hs₂, Sys.bus_setHart]
      rw [← hbus]
      rcases hst : Bus.store s₂.bus pa 4 (amoResult op old src) with ⟨f | u, b⟩
      · have hb : busStore pa 4 (amoResult op old src) s₂ = (.error (.mem f), { s₂ with bus := b }) := by
          rw [busStore, hst]
          rfl
        rw [Comp.bind_error hb]
        obtain ⟨hop, j, hj, hf⟩ := LocatesFaults.store (v := amoResult op old src) (.inr (.inr rfl))
          (congrArg Prod.fst hst)
        exact .bus (i := 0) (by omega) (BitVec.add_zero va).symm (xlate_mod hx) hop hf
      · have hb : busStore pa 4 (amoResult op old src) s₂ = (.ok (), { s₂ with bus := b }) := by
          rw [busStore, hst]
          rfl
        rw [Comp.bind_ok hb]
        exact .ok

/-! ## Instructions -/

/-- The operation of the data access of an instruction. -/
def Inst.dataOp : Inst → Access
  | .store .. | .scW .. | .amoW .. => .write
  | _ => .read

/-- The number of bytes of the data access. -/
def Inst.dataSize : Inst → Nat
  | .load lop .. => lop.size
  | .store sop .. => sop.size
  | _ => 4

/-- An instruction accesses at most four bytes. -/
theorem Inst.dataSize_le (inst : Inst) : inst.dataSize ≤ 4 := by
  cases inst with
  | load lop => cases lop <;> simp [Inst.dataSize, LoadOp.size]
  | store sop => cases sop <;> simp [Inst.dataSize, StoreOp.size]
  | _ => exact Nat.le_refl 4

/-- The trap is one of a memory access. -/
def Trap.isMem : Trap → Bool
  | .mem _ | .exception .. => true
  | _ => false

omit [Bus β] [LocatesFaults β] in
/-- A branch raises no memory trap. -/
theorem execBranch_error {op : BranchOp} {rs1 rs2 : Reg} {imm pc next : U32} {s s' : Sys β}
    {e : Trap} (h : execBranch op rs1 rs2 imm pc next s = (.error e, s')) : e.isMem = false := by
  unfold execBranch getHart modifyHart at h
  rw [Comp.gets_bind] at h
  dsimp only at h
  rw [Comp.modify_bind] at h
  split at h
  · cases h
    rfl
  · cases h

/-- A memory trap of an instruction is one of its data access. -/
theorem fails_execInst (inst : Inst) (pc next iword : U32) {s s' : Sys β} {e : Trap}
    (he : execInst inst pc next iword s = (.error e, s')) (hm : e.isMem = true) :
    Fails inst.dataOp (inst.dataAddr s.hart) inst.dataSize (inst.refused s) (some e) := by
  have hload : ∀ lop : LoadOp, AccessSize lop.size := fun lop => by
    cases lop <;> simp [LoadOp.size, AccessSize]
  have hstore : ∀ sop : StoreOp, AccessSize sop.size := fun sop => by
    cases sop <;> simp [StoreOp.size, AccessSize]
  have hfail : failure (execInst inst pc next iword s).1 = some e := by rw [he]; rfl
  cases inst with
  | load lop rd rs1 imm =>
    rw [← hfail]
    exact Fails.last (fails_loadWithTaint (hload lop) lop.signed s)
  | store sop rs1 rs2 imm =>
    rw [← hfail]
    exact ((fails_storeWithTaint (hstore sop) (s.hart.rdReg rs2) _ s).bind fun _ _ => .ok).bind
      fun _ _ => .ok
  | lrW rd rs1 aq rl =>
    rw [← hfail]
    exact Fails.last (fails_loadWithTaint (.inr (.inr rfl)) false s)
  | scW rd rs1 rs2 aq rl =>
    rw [← hfail]
    refine Fails.last ?_
    unfold storeIf Inst.refused
    by_cases hr : s.hart.reservation = some (s.hart.rdReg rs1)
    · rw [if_pos (decide_eq_true hr)]
      simp only [hr, if_true]
      exact fails_storeImpl (.inr (.inr rfl)) _ s
    · rw [if_neg (by rw [decide_eq_false hr]; decide)]
      simp only [hr, if_false]
      exact .ok
  | amoW aop rd rs1 rs2 aq rl =>
    rw [← hfail]
    exact Fails.last (fails_amoAccess aop rd _ _ s)
  | branch op rs1 rs2 imm =>
    change (execBranch op rs1 rs2 imm pc next >>= fun n => pure ((.continue, n) : Exit × U32)) s = _
      at he
    rcases hx : execBranch op rs1 rs2 imm pc next s with ⟨e' | n, s₁⟩
    · rw [Comp.bind_error hx] at he
      cases he
      rw [execBranch_error hx] at hm
      cases hm
    · rw [Comp.bind_ok hx] at he
      cases he
  | csr op rd src csr =>
    change (execCsr op rd src csr pc iword >>= fun _ => pure ((.continue, next) : Exit × U32)) s = _
      at he
    rcases hx : execCsr op rd src csr pc iword s with ⟨e' | n, s₁⟩
    · rw [Comp.bind_error hx] at he
      cases he
      rw [(execCsr_error hx).2] at hm
      cases hm
    · rw [Comp.bind_ok hx] at he
      cases he
  | mret =>
    change (if s.hart.privilege.level < Priv.m.level then _ else _ : Exec β _) s = _ at he
    split at he
    · cases he
      cases hm
    · cases he
  | sret =>
    change (if s.hart.privilege.level < Priv.s.level then _ else _ : Exec β _) s = _ at he
    split at he
    · cases he
      cases hm
    · cases he
  | illegal raw =>
    cases he
    cases hm
  | _ => cases hfail

/-! ## Steps -/

/-- The cause and the value that the latest trap has left. -/
def Hart.trapValue (h : Hart) : U32 × U32 :=
  if h.privilege = .s then (h.csr.scause, h.csr.stval) else (h.csr.mcause, h.csr.mtval)

/-- The cause and the value are the ones saved. -/
theorem Hart.takeTrap_value (h : Hart) (cause tval : U32) :
    (h.takeTrap cause tval false).trapValue = (cause, tval) := by
  have hcode : (0 : U32) ||| cause = cause := BitVec.zero_or
  unfold takeTrap trapValue
  simp only [Bool.false_eq_true, if_false, hcode]
  split <;> rfl

/-- A memory trap: the operation, the address and the size of the access, and what the bus refused
of it. -/
structure MemTrap where
  cls : Access
  va : U32
  size : Nat
  refusal : Option Refusal
  deriving DecidableEq, Repr

/-- The memory trap that a step raises, in its fetch or in the data access of its instruction. -/
def memTrap (s : Sys β) : Option MemTrap :=
  let p := s.hart.pollInterrupt
  let s := s.setHart p.2
  if p.1 then none
  else
    match fetchDecode s.hart.pc s with
    | (.error _, _) => some ⟨.exec, s.hart.pc, 4, fetchRefused s.hart.pc s⟩
    | (.ok f, s') =>
      match execOne f.inst s.hart.pc f.ilen f.iword s' with
      | (.error e, _) =>
        if e.isMem then
          some ⟨f.inst.dataOp, f.inst.dataAddr s'.hart, f.inst.dataSize, f.inst.refused s'⟩
        else none
      | (.ok _, _) => none

/-- The causes of the operations of memory. -/
def causesOf : Access → List U32
  | .exec => [E_INSTR_MISALIGNED, E_INSTR_ACCESS, E_INSTR_PAGE_FAULT]
  | .read => [E_LOAD_MISALIGNED, E_LOAD_ACCESS, E_LOAD_PAGE_FAULT]
  | .write => [E_STORE_MISALIGNED, E_STORE_ACCESS, E_STORE_PAGE_FAULT]

/-- The value is an address of the span. -/
def InSpan (tval va : U32) (size : Nat) : Prop := (tval - va).toNat < size

/-- What the architecture asks of a memory trap: its value is in the span of the access, and its cause
is one of the operation. -/
structure Located (t : MemTrap) (cause tval : U32) : Prop where
  cause : cause ∈ causesOf t.cls
  value : InSpan tval t.va t.size

/-- The cause of a fault is that of its access. -/
theorem memCause_mem (f : Fault) (access : Access) :
    memCause f ∈ causesOf access ↔ f.access = access := by
  have key : ∀ (a b : Access) (k : FaultKind), memCause ⟨0, 0, a, k⟩ ∈ causesOf b ↔ a = b := by
    intro a b k
    cases a <;> cases b <;> cases k <;> decide
  exact key f.access access f.kind

/-- So is that of a page fault. -/
theorem pageFault_mem : ∀ access : Access, (match access with
    | .exec => E_INSTR_PAGE_FAULT
    | .read => E_LOAD_PAGE_FAULT
    | .write => E_STORE_PAGE_FAULT) ∈ causesOf access := by
  rintro ⟨⟩ <;> decide

/-- A failed access and the cause and value of its trap. -/
theorem Fails.located_iff {t : MemTrap} {e : Trap} {h : Hart} {cause tval : U32}
    (hf : Fails t.cls t.va t.size t.refusal (some e)) (hsize : t.size ≤ 4)
    (ht : h.trapOf (.error e) = some (cause, tval)) :
    Located t cause tval ↔ ∀ r ∈ t.refusal, r.pa = r.va ∧ r.op = t.cls := by
  obtain ⟨cls, va, size, refusal⟩ := t
  dsimp only at hf hsize ⊢
  cases hf with
  | @page i a hi ha =>
    cases ht
    refine iff_of_true ⟨pageFault_mem cls, ?_⟩ (fun r hr => nomatch hr)
    show (tval - va).toNat < size
    rw [ha]
    bv_omega
  | @bus i j r f hij hva hpa hop hfa =>
    cases ht
    constructor
    · rintro ⟨hc, hv⟩ r' hr'
      cases hr'
      refine ⟨?_, hop ▸ (memCause_mem f cls).1 hc⟩
      change (f.addr - va).toNat < size at hv
      rw [hfa] at hv
      rw [hva] at hpa ⊢
      bv_omega
    · intro hr
      obtain ⟨hp, ho⟩ := hr r rfl
      refine ⟨(memCause_mem f cls).2 (hop.trans ho), ?_⟩
      show (f.addr - va).toNat < size
      rw [hfa, hp, hva]
      bv_omega

/-- A failed access is turned into a trap. -/
theorem Fails.trap {cls : Access} {va : U32} {size : Nat} {r : Option Refusal} {e : Trap}
    (hf : Fails cls va size r (some e)) (h : Hart) :
    ∃ cause tval, h.trapOf (.error e) = some (cause, tval) ∧
      (h.finishExit (.error e)).2 = h.takeTrap cause tval false := by
  cases hf with
  | page hi ha => exact ⟨_, _, rfl, rfl⟩
  | bus hij hva hpa hop hfa => exact ⟨_, _, rfl, rfl⟩

/-- A step that raises a memory trap takes it. -/
theorem memTrap_taken {s : Sys β} {t : MemTrap} (h : memTrap s = some t) :
    ∃ (hart : Hart) (e : Trap) (cause tval : U32),
      Fails t.cls t.va t.size t.refusal (some e) ∧ t.size ≤ 4 ∧
      hart.trapOf (.error e) = some (cause, tval) ∧
      (stepSystem s).2.hart = hart.takeTrap cause tval false := by
  unfold memTrap at h
  unfold stepSystem
  dsimp only at h ⊢
  split at h
  · cases h
  next hp =>
    rw [if_neg hp]
    generalize s.setHart s.hart.pollInterrupt.2 = s₀ at h ⊢
    have hfetch := fails_fetchDecode s₀.hart.pc s₀
    unfold step getHart
    rw [Comp.gets_bind]
    rcases hf : fetchDecode s₀.hart.pc s₀ with ⟨e | f, s₁⟩
    · rw [hf] at h hfetch
      cases h
      rw [Comp.bind_error hf]
      obtain ⟨cause, tval, ht, hx⟩ := Fails.trap hfetch s₁.hart
      exact ⟨_, e, cause, tval, hfetch, Nat.le_refl 4, ht, hx⟩
    · rw [hf] at h
      dsimp only at h
      rw [Comp.bind_ok hf]
      rcases hx : execOne f.inst s₀.hart.pc f.ilen f.iword s₁ with ⟨e | x, s₂⟩
      · rw [hx] at h
        dsimp only at h
        split at h
        next hm =>
          cases h
          have hi : ∃ s₃, execInst f.inst s₀.hart.pc (s₀.hart.pc + f.ilen) f.iword s₁ =
              (.error e, s₃) := by
            unfold execOne at hx
            rcases hxi : execInst f.inst s₀.hart.pc (s₀.hart.pc + f.ilen) f.iword s₁ with
              ⟨e' | r, s₃⟩
            · rw [Comp.bind_error hxi] at hx
              cases hx
              exact ⟨_, rfl⟩
            · rw [Comp.bind_ok hxi] at hx
              cases hx
          obtain ⟨s₃, hi⟩ := hi
          have hfails := fails_execInst f.inst s₀.hart.pc (s₀.hart.pc + f.ilen) f.iword hi hm
          obtain ⟨cause, tval, ht, hx'⟩ := hfails.trap s₂.hart
          refine ⟨_, e, cause, tval, hfails, f.inst.dataSize_le, ht, ?_⟩
          exact hx'
        next => cases h
      · rw [hx] at h
        cases h

/-- The trap value of a memory trap is an address of its access, and its cause is one of its operation,
exactly when what the bus refused lies on a page mapped to itself and was not the load of an AMO. -/
theorem memTrap_located_iff {s : Sys β} {t : MemTrap} (h : memTrap s = some t) :
    Located t (stepSystem s).2.hart.trapValue.1 (stepSystem s).2.hart.trapValue.2 ↔
      ∀ r ∈ t.refusal, r.pa = r.va ∧ r.op = t.cls := by
  obtain ⟨hart, e, cause, tval, hf, hsize, ht, hs⟩ := memTrap_taken h
  rw [hs, Hart.takeTrap_value]
  exact hf.located_iff hsize ht

end

/-! ## Traps that are not located -/

/-- A page table that maps the code at `0x80000000` to itself, and the megapage at `0x40000000` to
physical addresses below RAM. -/
def skewedTable : Mmu :=
  { Mmu.new 0x80000000 0x2000 with
    mem := setSpan (setSpan (setSpan (fun _ => 0) 0x1800 [0xcf, 0x00, 0x00, 0x20])
      0x1400 [0xcf, 0x00, 0x00, 0x00]) 0 [0x83, 0x20, 0x01, 0x00, 0xaf, 0x20, 0x01, 0x00]
    perms := fun _ => PERM_READ ||| PERM_WRITE ||| PERM_EXEC }

/-- A hart in S mode under that table, with `x2` in the skewed megapage: `lw x1, 0(x2)`. -/
def skewedHart : Sys Machine where
  cpu := { Cpu.new 0x80000000 with
    privilege := .s
    csr := { Csr.default with satp := 0x80080001 }
    regs := fun i => if i = 2 then 0x40000000 else 0 }
  bus := { MachineOf.new 0x80000000 0x2000 with ram := skewedTable }

/-- A hart in M mode with `x2` below RAM: `amoadd.w x1, x0, (x2)`. -/
def amoHart : Sys Machine where
  cpu := { Cpu.new 0x80000004 with regs := fun i => if i = 2 then 0x40000000 else 0 }
  bus := { MachineOf.new 0x80000000 0x2000 with ram := skewedTable }

/-- The trap of the load: it is refused at the physical address 0. -/
def skewedTrap : MemTrap := ⟨.read, 0x40000000, 4, some ⟨0x40000000, 0, .read⟩⟩

/-- The trap of the case. -/
theorem memTrap_skewedHart : memTrap skewedHart = some skewedTrap := by decide

/-- The trap of the AMO, refused in its load. -/
def amoTrap : MemTrap := ⟨.write, 0x40000000, 4, some ⟨0x40000000, 0x40000000, .read⟩⟩

/-- The trap of the case. -/
theorem memTrap_amoHart : memTrap amoHart = some amoTrap := by decide

theorem memTrap_located_iff_skewed :
    Located skewedTrap (stepSystem skewedHart).2.hart.trapValue.1
        (stepSystem skewedHart).2.hart.trapValue.2 ↔
      ∀ r ∈ skewedTrap.refusal, r.pa = r.va ∧ r.op = skewedTrap.cls :=
  memTrap_located_iff memTrap_skewedHart

/-- The load reports the physical address 0, far from what it accessed, and the AMO the cause of a
load. -/
theorem memTrap_not_located :
    (∃ t, memTrap skewedHart = some t ∧
      ¬ InSpan (stepSystem skewedHart).2.hart.trapValue.2 t.va t.size) ∧
    (∃ t, memTrap amoHart = some t ∧
      (stepSystem amoHart).2.hart.trapValue.1 ∉ causesOf t.cls) := by
  have hload : (stepSystem skewedHart).2.hart.trapValue = (E_LOAD_ACCESS, 0) := by decide +kernel
  have hamo : (stepSystem amoHart).2.hart.trapValue = (E_LOAD_ACCESS, 0x40000000) := by
    decide +kernel
  refine ⟨⟨skewedTrap, memTrap_skewedHart, ?_⟩, ⟨amoTrap, memTrap_amoHart, ?_⟩⟩
  · rw [hload]
    unfold InSpan
    decide
  · rw [hamo]
    decide

end FuzzSoft
