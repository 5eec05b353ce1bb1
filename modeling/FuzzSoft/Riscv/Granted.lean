import FuzzSoft.Riscv.FastPa

/-!
# Accesses whose translations stay granted

After a guest load or store has gone through, `fastPa` grants every address it translated
(`loadImpl_granted`, `storeImpl_granted`). So the taint of the access is gathered or scattered
without a walk and without a fault: `loadTaint_of_granted` changes nothing, and
`storeTaint_of_granted` changes the bus by taint scatters only.
-/

namespace FuzzSoft

open Lib

/-- The translations that an access of `size` bytes at `va` makes are granted. -/
def Cpu.Granted (c : Cpu) (access : Access) (va : U32) (size : Nat) : Prop :=
  if bytewise va size then ∀ j < size, ∃ pa, c.fastPa (va + BitVec.ofNat 32 j) access = some pa
  else ∃ pa, c.fastPa va access = some pa

section
variable {β : Type} [Bus β]

/-! ## What an access leaves granted -/

/-- The computation translates `a`, and does nothing else to the core. -/
def Translates {α : Type} (access : Access) (a : U32) (x : Exec β α) : Prop :=
  ∀ s r s', x s = (.ok r, s') →
    s'.cpu = (xlate a access s).2.cpu ∧ ∃ pa, s'.cpu.fastPa a access = some pa

/-- A translation and what is done at the address it gave. -/
theorem translates_bind {α : Type} {access : Access} {a : U32} {f : U32 → Exec β α}
    (hf : ∀ pa, Keeps Sys.cpu (f pa)) : Translates access a (xlate a access >>= f) := by
  intro s r s' h
  obtain ⟨pa, s₁, hx, hr⟩ := Comp.bind_eq_ok h
  have hc : s'.cpu = s₁.cpu := by
    have := hf pa s₁
    rwa [hr] at this
  rw [hc, hx]
  exact ⟨rfl, pa, fastPa_of_xlate hx⟩

omit [Bus β] in
/-- A value computed at the end. -/
theorem keeps_pure_map {α α' : Type} {x : Exec β α} (hx : Keeps Sys.cpu x) (f : α → α') :
    Keeps Sys.cpu (x >>= fun a => pure (f a)) := hx.bind fun _ => Keeps.pure _

/-- A byte load translates its address. -/
theorem loadByte_translates (a : U32) : Translates .read a (loadByte a : Exec β U32) :=
  translates_bind fun pa => keeps_pure_map (x := busLoad pa 1) (fun _ => rfl) (· &&& 0xff)

/-- So does a byte store. -/
theorem storeByte_translates (val a : U32) (i : Nat) :
    Translates .write a (storeByte val a i : Exec β Unit) :=
  translates_bind fun _ _ => rfl

/-- One more byte of a span: the bytes before it stay granted. -/
theorem Translates.grants {α : Type} {access : Access} {va : U32} {x : Exec β α} {i : Nat}
    (hx : Translates access (va + BitVec.ofNat 32 i) x) {s s' : Sys β} {r : α}
    (h : x s = (.ok r, s')) (hi : i < 4)
    (hj : ∀ j < i, ∃ pa, s.cpu.fastPa (va + BitVec.ofNat 32 j) access = some pa) :
    ∀ j < i + 1, ∃ pa, s'.cpu.fastPa (va + BitVec.ofNat 32 j) access = some pa := by
  obtain ⟨hc, hg⟩ := hx s r s' h
  intro j hji
  rcases Nat.lt_succ_iff_lt_or_eq.1 hji with hlt | rfl
  · obtain ⟨pa, hf⟩ := hj j hlt
    refine ⟨pa, ?_⟩
    rw [hc]
    exact fastPa_xlate hf (neighbours va (by omega) hi)
  · exact hg

/-- After a gather its addresses are granted. -/
theorem gather_granted {access : Access} {one : U32 → Exec β U32}
    (hone : ∀ a, Translates access a (one a)) {va : U32} :
    ∀ {n i : Nat} {s s' : Sys β} {v : U32}, i + n ≤ 4 →
      (∀ j < i, ∃ pa, s.cpu.fastPa (va + BitVec.ofNat 32 j) access = some pa) →
      gather one va i n s = (.ok v, s') →
      ∀ j < i + n, ∃ pa, s'.cpu.fastPa (va + BitVec.ofNat 32 j) access = some pa := by
  intro n
  induction n with
  | zero =>
    intro i s s' v _ hj h
    cases h
    exact hj
  | succ n ih =>
    intro i s s' v hn hj h
    obtain ⟨b, s₁, hb, h⟩ := Comp.bind_eq_ok h
    obtain ⟨rest, s₂, hr, h⟩ := Comp.bind_eq_ok h
    cases h
    have := ih (by omega) ((hone _).grants hb (by omega) hj) hr
    intro j hj'
    exact this j (by omega)

/-- So are they after a scatter. -/
theorem scatter_granted {access : Access} {one : U32 → Nat → Exec β Unit}
    (hone : ∀ a i, Translates access a (one a i)) {va : U32} :
    ∀ {n i : Nat} {s s' : Sys β}, i + n ≤ 4 →
      (∀ j < i, ∃ pa, s.cpu.fastPa (va + BitVec.ofNat 32 j) access = some pa) →
      scatter one va i n s = (.ok (), s') →
      ∀ j < i + n, ∃ pa, s'.cpu.fastPa (va + BitVec.ofNat 32 j) access = some pa := by
  intro n
  induction n with
  | zero =>
    intro i s s' _ hj h
    cases h
    exact hj
  | succ n ih =>
    intro i s s' hn hj h
    obtain ⟨_, s₁, hb, h⟩ := Comp.bind_eq_ok h
    have := ih (by omega) ((hone _ i).grants hb (by omega) hj) h
    intro j hj'
    exact this j (by omega)

/-- The byte stores of a span leave the grants of its bytes. -/
theorem scatter_stays {val va : U32} {n : Nat} : ∀ {i : Nat} {s s' : Sys β}, i + n ≤ 4 →
    scatter (storeByte val) va i n s = (.ok (), s') →
    ∀ j < 4, ∀ q, s.cpu.fastPa (va + BitVec.ofNat 32 j) .write = some q →
      s'.cpu.fastPa (va + BitVec.ofNat 32 j) .write = some q := by
  induction n with
  | zero =>
    intro i s s' _ h
    cases h
    exact fun _ _ _ hq => hq
  | succ n ih =>
    intro i s s' hn h j hj q hq
    obtain ⟨u, s₁, hb, hrest⟩ := Comp.bind_eq_ok h
    refine ih (by omega) hrest j hj q ?_
    rw [(storeByte_translates val _ i s u s₁ hb).1]
    exact fastPa_xlate hq (neighbours va hj (by omega))

/-- After a load, the translations it made are granted. -/
theorem loadImpl_granted {va : U32} {size : Nat} (hsize : size ≤ 4) {signed : Bool} {s s' : Sys β}
    {v : U32} (h : loadImpl va size signed s = (.ok v, s')) : s'.cpu.Granted .read va size := by
  obtain ⟨w, s₁, h, hp⟩ := Comp.bind_eq_ok h
  cases hp
  unfold loadSpan at h
  unfold Cpu.Granted
  split at h
  next hb =>
    rw [if_pos hb]
    have := gather_granted loadByte_translates (by omega) (fun j hj => absurd hj (by omega)) h
    simpa only [Nat.zero_add] using this
  next hb =>
    rw [if_neg hb]
    have ht : Translates .read va (xlate va .read >>= fun pa => busLoad pa size : Exec β U32) :=
      translates_bind fun _ _ => rfl
    exact (ht _ _ _ h).2

/-- After a store, the translations it made are granted. -/
theorem storeImpl_granted {va : U32} {size : Nat} (hsize : size ≤ 4) {val : U32} {s s' : Sys β}
    (h : storeImpl va size val s = (.ok (), s')) : s'.cpu.Granted .write va size := by
  unfold storeImpl at h
  unfold Cpu.Granted
  split at h
  next hb =>
    rw [if_pos hb]
    have := scatter_granted (storeByte_translates val) (by omega)
      (fun j hj => absurd hj (by omega)) h
    simpa only [Nat.zero_add] using this
  next hb =>
    rw [if_neg hb]
    have ht : Translates .write va (xlate va .write >>= fun pa => busStore pa size val) :=
      translates_bind (β := β) fun _ _ => rfl
    exact (ht _ _ _ h).2

/-! ## Taint of a granted access -/

/-- Gathering the taint of a granted load changes nothing. -/
theorem loadTaint_of_granted {va : U32} {size : Nat} {s : Sys β}
    (h : s.cpu.Granted .read va size) : ∃ mask, loadTaint va size s = (.ok mask, s) := by
  unfold Cpu.Granted at h
  unfold loadTaint
  split
  next hb =>
    rw [if_pos hb] at h
    have key : ∀ {n i : Nat}, i + n = size →
        ∃ mask, gather loadTaintByte va i n s = (.ok mask, s) := by
      intro n
      induction n with
      | zero => exact fun _ => ⟨0, rfl⟩
      | succ n ih =>
        intro i hn
        obtain ⟨pa, hf⟩ := h i (by omega)
        obtain ⟨rest, hr⟩ := ih (i := i + 1) (by omega)
        have hone : loadTaintByte (va + BitVec.ofNat 32 i) s =
            (.ok (Bus.readRawState s.bus pa 1), s) := by
          unfold loadTaintByte
          rw [Comp.bind_ok (xlate_of_fastPa hf)]
          rfl
        refine ⟨(Bus.readRawState s.bus pa 1 <<< (8 * i)) ||| rest, ?_⟩
        rw [gather, Comp.bind_ok hone, Comp.bind_ok hr]
        rfl
    exact key (Nat.zero_add size)
  next hb =>
    rw [if_neg hb] at h
    obtain ⟨pa, hf⟩ := h
    exact ⟨_, Comp.bind_ok (xlate_of_fastPa hf)⟩

/-- The second bus is the first after some taint scatters. -/
inductive Shadowed : β → β → Prop
  | refl (b : β) : Shadowed b b
  | tail {b c : β} (h : Shadowed b c) (pa : U32) (n : Nat) (mask : U32) :
      Shadowed b (Bus.writeShadow c pa n mask)

/-- Scattering the taint of a granted store goes through, and scatters taint. -/
theorem storeTaint_of_granted {va mask : U32} {size : Nat} {s : Sys β}
    (h : s.cpu.Granted .write va size) :
    ∃ b, storeTaint va size mask s = (.ok (), { s with bus := b }) ∧ Shadowed s.bus b := by
  unfold Cpu.Granted at h
  unfold storeTaint
  split
  next hb =>
    rw [if_pos hb] at h
    have key : ∀ {n i : Nat} {c : β}, i + n = size → Shadowed s.bus c →
        ∃ b, scatter (storeTaintByte mask) va i n { s with bus := c } =
          (.ok (), { s with bus := b }) ∧ Shadowed s.bus b := by
      intro n
      induction n with
      | zero => exact fun _ hc => ⟨_, rfl, hc⟩
      | succ n ih =>
        intro i c hn hc
        obtain ⟨pa, hf⟩ := h i (by omega)
        have hone : storeTaintByte mask (va + BitVec.ofNat 32 i) i { s with bus := c } =
            (.ok (), { s with bus := Bus.writeShadow c pa 1 ((mask >>> (8 * i)) &&& 1) }) := by
          have hf' : ({ s with bus := c } : Sys β).cpu.fastPa (va + BitVec.ofNat 32 i) .write =
              some pa := hf
          unfold storeTaintByte
          rw [Comp.bind_ok (xlate_of_fastPa hf')]
          rfl
        rw [scatter, Comp.bind_ok hone]
        exact ih (by omega) (hc.tail pa 1 _)
    exact key (Nat.zero_add size) (.refl _)
  next hb =>
    rw [if_neg hb] at h
    obtain ⟨pa, hf⟩ := h
    exact ⟨_, Comp.bind_ok (xlate_of_fastPa hf), (Shadowed.refl _).tail pa size mask⟩

end

end FuzzSoft
