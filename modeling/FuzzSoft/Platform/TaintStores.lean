import FuzzSoft.Platform.TaintFlow

/-!
# Stores of tainted words

A store of words that differ in tainted bytes keeps linked systems linked when every tainted byte takes
its taint along (`Carried`). The byte may go to a device that no load reads back; in RAM it needs its
mark, which the scatter after the store sets unless the store was refused midway. A store-conditional
makes no scatter.
-/

namespace FuzzSoft

open Lib

section
variable {β : Type} [Bus β] [RamBus β] [TaintRam β] [TwinBus β]

/-- The span that a store has just written, pending its scatter. -/
def Pending.store (D : Pending) (s : Sys β) (va : U32) (n : Nat) (mask : U32) : Pending :=
  match s.cpu.fastPa va .write with
  | some pa => D.write s.bus pa n mask
  | none => D

/-- The translations of the byte stores from `i` on are over page tables that are unmarked, also by the
bytes before. -/
def ScatterClean (val mask va : U32) : Pending → (i n : Nat) → Sys β → Prop
  | _, _, 0, _ => True
  | D, i, n + 1, s =>
    WalkClean D s (va + BitVec.ofNat 32 i) .write ∧
      match storeByte val (va + BitVec.ofNat 32 i) i s with
      | (.ok _, s') =>
        ScatterClean val mask va (D.store s' (va + BitVec.ofNat 32 i) 1 (mask >>> (8 * i))) (i + 1) n s'
      | (.error _, _) => True

instance ScatterClean.decidable (val mask va : U32) :
    ∀ D i n (s : Sys β), Decidable (ScatterClean val mask va D i n s)
  | _, _, 0, _ => isTrue trivial
  | D, i, n + 1, s =>
    @instDecidableAnd _ _ _ <|
      match storeByte val (va + BitVec.ofNat 32 i) i s with
      | (.ok _, s') => ScatterClean.decidable val mask va
          (D.store s' (va + BitVec.ofNat 32 i) 1 (mask >>> (8 * i))) (i + 1) n s'
      | (.error _, _) => isTrue trivial

/-- The translations of a store are over unmarked page tables. -/
def StoreClean (val mask va : U32) (size : Nat) (s : Sys β) : Prop :=
  if bytewise va size then ScatterClean val mask va .idle 0 size s else WalkClean .idle s va .write

instance (val mask va : U32) (size : Nat) (s : Sys β) : Decidable (StoreClean val mask va size s) :=
  inferInstanceAs (Decidable (if bytewise va size then ScatterClean val mask va .idle 0 size s
    else WalkClean .idle s va .write))

/-- Where byte `j` of a run of byte stores from byte `i` on is written, if the run comes to it. -/
def byteAt (val va : U32) (i j : Nat) (s : Sys β) : Option U32 :=
  match scatter (storeByte val) va i (j + 1 - i) s with
  | (.ok _, s') => s'.cpu.fastPa (va + BitVec.ofNat 32 j) .write
  | (.error _, _) => none

/-- The bus address through which byte `j` of the stored word is written, if the store comes to it. An
aligned store hands the bus the whole word. -/
def storedAt (val va : U32) (size j : Nat) (s : Sys β) : Option U32 :=
  if bytewise va size then
    if j < size then byteAt val va 0 j s else none
  else
    match xlate va .write s with
    | (.ok p, s') =>
      match (Bus.store s'.bus p size val).1 with
      | .ok _ => some p
      | .error f => if j < (f.addr - p).toNat then some p else none
    | (.error _, _) => none

/-- The address of byte `j` of a span that is written through `p`. -/
def byteAddr (va : U32) (size : Nat) (p : U32) (j : Nat) : U32 :=
  if bytewise va size then p else p + BitVec.ofNat 32 j

/-- Byte `j` of a store takes its taint along when it is written through `p`: no load gives it back, or
it goes to RAM, where it is marked already or the scatter after the store marks it. -/
def TakesTaint (scatters : Bool) (val va : U32) (size j : Nat) (s : Sys β) (p : U32) : Prop :=
  TwinBus.quiet s.bus p = true ∨ TaintRam.backed s.bus p = true ∧
    (j < size → (RamBus.cells s.bus).has PERM_VTAINT (byteAddr va size p j) = true ∨
      scatters = true ∧ (storeImpl va size val s).1.isOk = true ∧
        (bytewise va size = true ∨ TaintRam.whole s.bus p size = true))

instance (scatters : Bool) (val va : U32) (size j : Nat) (s : Sys β) (p : U32) :
    Decidable (TakesTaint scatters val va size j s p) :=
  inferInstanceAs (Decidable (_ ∨ _ ∧ (_ → _ ∨ _ ∧ _ ∧ (_ ∨ _))))

/-- Every tainted byte that a store writes takes its taint along. -/
def Carried (scatters : Bool) (val mask va : U32) (size : Nat) (s : Sys β) : Prop :=
  ∀ j < 4, taintBit mask j = true → ∀ p ∈ storedAt val va size j s,
    TakesTaint scatters val va size j s p

instance (scatters : Bool) (val mask va : U32) (size : Nat) (s : Sys β) :
    Decidable (Carried scatters val mask va size s) :=
  -- not by trying all addresses
  haveI (j : Nat) : Decidable (∀ p ∈ storedAt val va size j s, TakesTaint scatters val va size j s p) :=
    Option.decidableForallMem _
  inferInstanceAs (Decidable (∀ j < 4, taintBit mask j = true → ∀ p ∈ storedAt val va size j s,
    TakesTaint scatters val va size j s p))

section
variable {D : Pending} {s t : Sys β}

/-- A store of words that agree in their untainted bytes keeps the systems linked, its span pending.
Words that differ must go to RAM or to a quiet address, and the bytes that a refused store writes must
be marked where they differ. -/
theorem Linked.busStore (h : Linked D s t) {pa v w mask : U32} {n : Nat} (hn : AccessSize n)
    (hv : ∀ i < n, taintBit mask i = false → byteOf v i = byteOf w i)
    (hland : (Bus.store s.bus pa n v).1 = .ok () → v = w ∨ TaintRam.backed s.bus pa = true ∨
      TwinBus.quiet s.bus pa = true)
    (hpart : ∀ f, (Bus.store s.bus pa n v).1 = .error f → TwinBus.quiet s.bus pa = false →
      ∀ i, i + 1 < n → i < (f.addr - pa).toNat → taintBit mask i = true →
        marked (Bus.store s.bus pa n v).2 D (pa + BitVec.ofNat 32 i) = true) :
    Relates (fun _ s' _ t' => s'.cpu = s.cpu ∧ TaintRam.backed s'.bus = TaintRam.backed s.bus ∧
        Linked (D.write s.bus pa n mask) s' t')
      (Linked D) (busStore pa n v) (busStore pa n w) s t := by
  have hx : ∀ (u : Sys β) v, FuzzSoft.busStore pa n v u =
      ((Bus.store u.bus pa n v).1.mapError .mem, { u with bus := (Bus.store u.bus pa n v).2 }) :=
    fun _ _ => rfl
  have hback := (TaintRam.store_same s.bus pa n v).1
  cases hr : (Bus.store s.bus pa n v).1 with
  | error f =>
    obtain ⟨hout, herr⟩ := h.bus.store_refused (w := w) hn hr fun hq i hi hlt => by
      cases hm : taintBit mask i with
      | false => exact .inl (hv i (by omega) hm)
      | true => exact .inr (hpart f hr hq i hi hlt hm)
    have hs : FuzzSoft.busStore pa n v s = (.error (.mem f), ⟨s.cpu, (Bus.store s.bus pa n v).2⟩) := by
      rw [hx, hr]
      rfl
    have ht : FuzzSoft.busStore pa n w t = (.error (.mem f), ⟨t.cpu, (Bus.store t.bus pa n w).2⟩) := by
      rw [hx, hout, hr]
      rfl
    exact .inl ⟨_, _, _, hs, ht, h.hart, h.tlb, herr⟩
  | ok u =>
    have hok : (Bus.store t.bus pa n w).1 = (Bus.store s.bus pa n v).1 ∧
        BusTwins (D.write s.bus pa n mask) (Bus.store s.bus pa n v).2 (Bus.store t.bus pa n w).2 := by
      cases hb : TaintRam.backed s.bus pa with
      | true =>
        obtain ⟨hout, hok⟩ := h.bus.store_backed (w := w) hn hv hb
        exact ⟨hout, hok hr⟩
      | false =>
        have hD : D.write s.bus pa n mask = D := by
          funext q
          unfold Pending.write
          rw [hb, if_neg fun h => Bool.false_ne_true h.1]
        rw [hD]
        rcases hland hr with rfl | hback | hq
        · exact h.bus.store_same hn
        · exact absurd (hback.symm.trans hb) (by decide)
        · exact h.bus.store_quiet hn hq
    obtain ⟨hout, hok⟩ := hok
    have hs : FuzzSoft.busStore pa n v s = (.ok (), ⟨s.cpu, (Bus.store s.bus pa n v).2⟩) := by
      rw [hx, hr]
      rfl
    have ht : FuzzSoft.busStore pa n w t = (.ok (), ⟨t.cpu, (Bus.store t.bus pa n w).2⟩) := by
      rw [hx, hout, hr]
      rfl
    exact .inr ⟨_, _, _, _, hs, ht, rfl, hback, h.hart, h.tlb, hok⟩

omit [RamBus β] [TaintRam β] [TwinBus β] in
/-- Equal bytes are shifted out alike. -/
theorem byte_eq {v w : U32} {i : Nat} (h : byteOf v i = byteOf w i) :
    (v >>> (8 * i)) &&& 0xff = (w >>> (8 * i)) &&& 0xff := by
  have hff : ∀ k < 4, k ≠ 0 → byteOf 0xff k = 0 := by decide
  refine eq_of_bytes fun k hk => ?_
  rw [byteOf_and, byteOf_and, byteOf_ushiftRight, byteOf_ushiftRight]
  by_cases h0 : k = 0
  · rw [h0, Nat.zero_add, h]
  · rw [hff k hk h0]
    simp

omit [RamBus β] [TaintRam β] [TwinBus β] in
/-- The mark of a byte that is shifted out. -/
theorem taintBit_ushiftRight (mask : U32) (i : Nat) :
    taintBit (mask >>> (8 * i)) 0 = taintBit mask i := by
  rw [taintBit_eq, taintBit_eq, BitVec.getLsbD_ushiftRight]
  rfl

/-- One byte store. -/
theorem Linked.storeByte (h : Linked D s t) {v w mask va : U32} {i : Nat}
    (hv : taintBit mask i = false → byteOf v i = byteOf w i)
    (hc : WalkClean D s va .write)
    (hsafe : taintBit mask i = true → ∀ s', FuzzSoft.storeByte v va i s = (.ok (), s') →
      ∀ pa, s'.cpu.fastPa va .write = some pa →
        TaintRam.backed s'.bus pa = true ∨ TwinBus.quiet s'.bus pa = true) :
    Relates (fun _ s' _ t' => Linked (D.store s' va 1 (mask >>> (8 * i))) s' t')
      (Linked D) (storeByte v va i) (storeByte w va i) s t := by
  refine (Relates.of_sim (h.xlate hc)).bind fun pa s₁ pa' t₁ hs _ hpa => ?_
  obtain ⟨rfl, h₁⟩ := hpa
  have hone : ∀ k < 1, taintBit (mask >>> (8 * i)) k = false →
      byteOf ((v >>> (8 * i)) &&& 0xff) k = byteOf ((w >>> (8 * i)) &&& 0xff) k := by
    intro k hk hm
    obtain rfl : k = 0 := by omega
    rw [taintBit_ushiftRight] at hm
    rw [byte_eq (hv hm)]
  refine (h₁.busStore (.inl rfl) hone (fun hok => ?_) fun _ _ _ k hk => absurd hk (by omega)).mono
    fun _ s' _ t' _ _ hs' => ?_
  · cases hm : taintBit mask i with
    | false => exact .inl (byte_eq (hv hm))
    | true =>
      refine .inr ?_
      rw [← (TaintRam.store_same s₁.bus pa' 1 ((v >>> (8 * i)) &&& 0xff)).1,
        ← TwinBus.quiet_same s₁.bus (Bus.store s₁.bus pa' 1 ((v >>> (8 * i)) &&& 0xff)).2]
      refine hsafe hm ⟨s₁.cpu, (Bus.store s₁.bus pa' 1 ((v >>> (8 * i)) &&& 0xff)).2⟩ ?_ pa'
        (show s₁.cpu.fastPa va .write = some pa' from fastPa_of_xlate hs)
      refine (Comp.bind_ok hs).trans ?_
      unfold FuzzSoft.busStore
      dsimp only
      rw [hok]
      rfl
  · obtain ⟨hcpu, hback, h'⟩ := hs'
    have hf := fastPa_of_xlate hs
    rw [← hcpu] at hf
    have hD : D.store s' va 1 (mask >>> (8 * i)) = D.write s₁.bus pa' 1 (mask >>> (8 * i)) := by
      unfold Pending.store
      rw [hf]
      unfold Pending.write
      dsimp only
      rw [hback]
    rw [hD]
    exact h'

end

section
variable {s t : Sys β}

omit [TwinBus β] in
/-- A byte store marks its byte as pending. -/
theorem Pending.store_byte (D : Pending) {va pa mask : U32} {i : Nat}
    (hf : s.cpu.fastPa va .write = some pa) (q : U32) :
    D.store s va 1 (mask >>> (8 * i)) q =
      if TaintRam.backed s.bus pa = true ∧ pa = q then some (taintBit mask i) else D q := by
  unfold Pending.store
  rw [hf]
  unfold Pending.write
  by_cases hq : pa = q
  · subst hq
    have h0 : (pa - pa).toNat = 0 := by simp
    dsimp only
    rw [h0, taintBit_ushiftRight]
    simp
  · dsimp only
    rw [if_neg fun h => hq (inSpan_one.1 h.2), if_neg fun h => hq h.2]

omit [RamBus β] [TaintRam β] [TwinBus β] in
/-- A byte store upholds what bus stores uphold. -/
theorem storeByte_upholds {I : β → Prop} (hI : ∀ b pa n v, I b → I (Bus.store b pa n v).2)
    (val va : U32) (i : Nat) : Upholds (fun s : Sys β => I s.bus) (storeByte val va i) := by
  refine Upholds.bind (fun s hs => ?_) fun pa s hs => hI s.bus pa 1 _ hs
  rcases (xlate_effect va .write s).bus with hb | ⟨w, v, hb⟩
  · rw [hb]
    exact hs
  · rw [hb]
    exact hI s.bus w 4 v hs

omit [RamBus β] [TaintRam β] [TwinBus β] in
/-- So does a store. -/
theorem storeImpl_upholds {I : β → Prop} (hI : ∀ b pa n v, I b → I (Bus.store b pa n v).2)
    (va : U32) (size : Nat) (val : U32) :
    Upholds (fun s : Sys β => I s.bus) (storeImpl va size val) := by
  have hscat : ∀ n i, Upholds (fun s : Sys β => I s.bus) (scatter (storeByte val) va i n) := by
    intro n
    induction n with
    | zero => exact fun _ => Upholds.pure ()
    | succ n ih => exact fun i => (storeByte_upholds hI val _ i).bind fun _ => ih (i + 1)
  unfold storeImpl
  split
  · exact hscat size 0
  · refine Upholds.bind (fun s hs => ?_) fun pa s hs => hI s.bus pa size _ hs
    rcases (xlate_effect va .write s).bus with hb | ⟨w, v, hb⟩
    · rw [hb]
      exact hs
    · rw [hb]
      exact hI s.bus w 4 v hs

omit [TwinBus β] in
/-- Stores leave the window of RAM, and which scatters it takes. -/
theorem storeImpl_window (va : U32) (size : Nat) (val : U32) (s : Sys β) :
    TaintRam.backed (FuzzSoft.storeImpl va size val s).2.bus = TaintRam.backed s.bus ∧
      TaintRam.whole (FuzzSoft.storeImpl va size val s).2.bus = TaintRam.whole s.bus :=
  storeImpl_upholds (I := fun b => TaintRam.backed b = TaintRam.backed s.bus ∧
    TaintRam.whole b = TaintRam.whole s.bus) (fun b pa n v h =>
      ⟨(TaintRam.store_same b pa n v).1.trans h.1, (TaintRam.store_same b pa n v).2.trans h.2⟩)
    va size val s ⟨rfl, rfl⟩

omit [TaintRam β] [TwinBus β] in
/-- A bus store leaves the copy marks. -/
theorem store_marks {b : β} (hok : RamBus.Ok b) (pa : U32) (n : Nat) (v q : U32) :
    (RamBus.cells (Bus.store b pa n v).2).has PERM_VTAINT q = (RamBus.cells b).has PERM_VTAINT q := by
  obtain ⟨k, -, -, -, hc⟩ := RamBus.store_cells hok pa n v
  rw [hc, Cells.has_put_vtaint]

omit [TaintRam β] [TwinBus β] in
/-- So does a translated store. -/
theorem storeImpl_marks (hok : RamBus.Ok s.bus) (va : U32) (size : Nat) (val q : U32) :
    (RamBus.cells (FuzzSoft.storeImpl va size val s).2.bus).has PERM_VTAINT q =
      (RamBus.cells s.bus).has PERM_VTAINT q :=
  (storeImpl_upholds (I := fun b => RamBus.Ok b ∧
    (RamBus.cells b).has PERM_VTAINT q = (RamBus.cells s.bus).has PERM_VTAINT q) (fun _ pa n v h =>
      ⟨RamBus.store_ok h.1 pa n v, (store_marks h.1 pa n v q).trans h.2⟩) va size val s ⟨hok, rfl⟩).2

omit [RamBus β] [TaintRam β] [TwinBus β] in
/-- The first byte of a run is written where its store leaves it. -/
theorem byteAt_head {val va pa : U32} {i : Nat} {s₁ : Sys β}
    (h : storeByte val (va + BitVec.ofNat 32 i) i s = (.ok (), s₁))
    (hpa : s₁.cpu.fastPa (va + BitVec.ofNat 32 i) .write = some pa) : byteAt val va i i s = some pa := by
  have hone : scatter (storeByte val) va i (i + 1 - i) s = (.ok (), s₁) := by
    rw [Nat.add_sub_cancel_left]
    unfold scatter
    exact Comp.bind_ok h
  unfold byteAt
  rw [hone]
  exact hpa

omit [RamBus β] [TaintRam β] [TwinBus β] in
/-- The others are where the rest of the run writes them. -/
theorem byteAt_tail {val va : U32} {i j : Nat} {s₁ : Sys β} (hij : i < j)
    (h : storeByte val (va + BitVec.ofNat 32 i) i s = (.ok (), s₁)) :
    byteAt val va i j s = byteAt val va (i + 1) j s₁ := by
  unfold byteAt
  rw [show j + 1 - i = (j + 1 - (i + 1)) + 1 by omega, scatter, Comp.bind_ok h]

/-- What a run of byte stores from `i` on leaves pending: bytes that it wrote to RAM, each with its own
taint. -/
structure Written (v mask va : U32) (i n : Nat) (D : Pending) (s : Sys β) (D' : Pending)
    (s' t' : Sys β) : Prop where
  linked : Linked D' s' t'
  bits : ∀ q b, D' q = some b → D q = some b ∨ ∃ j, i ≤ j ∧ j < i + n ∧ byteAt v va i j s = some q ∧
    b = taintBit mask j ∧ TaintRam.backed s.bus q = true

/-- A run that comes to its end leaves every byte of RAM that it wrote pending. -/
structure WrittenAll (v mask va : U32) (i n : Nat) (D : Pending) (s : Sys β) (D' : Pending)
    (s' t' : Sys β) : Prop extends Written v mask va i n D s D' s' t' where
  old : ∀ q, (D q).isSome = true → (D' q).isSome = true
  new : ∀ j, i ≤ j → j < i + n → ∀ q, s'.cpu.fastPa (va + BitVec.ofNat 32 j) .write = some q →
    TaintRam.backed s.bus q = true → (D' q).isSome = true
  found : ∀ j, i ≤ j → j < i + n → ∀ q, byteAt v va i j s = some q →
    s'.cpu.fastPa (va + BitVec.ofNat 32 j) .write = some q

/-- A byte store before such a run. -/
theorem Written.cons {v mask va pa : U32} {i n : Nat} {D D' : Pending} {s₁ s' t' : Sys β}
    (h : Written v mask va (i + 1) n (D.store s₁ (va + BitVec.ofNat 32 i) 1 (mask >>> (8 * i))) s₁ D'
      s' t') (hs : storeByte v (va + BitVec.ofNat 32 i) i s = (.ok (), s₁))
    (hpa : s₁.cpu.fastPa (va + BitVec.ofNat 32 i) .write = some pa)
    (hback : TaintRam.backed s₁.bus = TaintRam.backed s.bus) :
    Written v mask va i (n + 1) D s D' s' t' where
  linked := h.linked
  bits q b hq := by
    rcases h.bits q b hq with hD | ⟨j, h1, h2, hat, hb, hqb⟩
    · rw [D.store_byte hpa] at hD
      split at hD
      next hin =>
        obtain ⟨hpb, rfl⟩ := hin
        exact .inr ⟨i, Nat.le_refl i, by omega, byteAt_head hs hpa, (Option.some.inj hD).symm,
          by rw [← hback]; exact hpb⟩
      next => exact .inl hD
    · exact .inr ⟨j, by omega, by omega, (byteAt_tail (by omega) hs).trans hat, hb,
        by rw [← hback]; exact hqb⟩

/-- A run of byte stores. A tainted byte must go to RAM or to a quiet address. -/
theorem Linked.scatter {v w mask va : U32} (hv : ByteEq mask v w) {n : Nat} :
    ∀ {i : Nat} {D : Pending} {s t : Sys β}, i + n ≤ 4 → Linked D s t →
      ScatterClean v mask va D i n s →
      (∀ j, i ≤ j → j < i + n → taintBit mask j = true → ∀ q, byteAt v va i j s = some q →
        TaintRam.backed s.bus q = true ∨ TwinBus.quiet s.bus q = true) →
      Relates (fun _ s' _ t' => ∃ D', WrittenAll v mask va i n D s D' s' t')
        (fun s' t' => ∃ D', Written v mask va i n D s D' s' t')
        (scatter (FuzzSoft.storeByte v) va i n) (scatter (FuzzSoft.storeByte w) va i n) s t := by
  induction n with
  | zero =>
    intro i D s t _ h _ _
    exact Relates.pure ⟨D, ⟨h, fun _ _ h => .inl h⟩, fun _ h => h, fun j h1 h2 => by omega,
      fun j h1 h2 => by omega⟩
  | succ n ih =>
    intro i D s t hn h hc hsafe
    have hkeep : ∀ {s₁ : Sys β}, FuzzSoft.storeByte v (va + BitVec.ofNat 32 i) i s = (.ok (), s₁) →
        TaintRam.backed s₁.bus = TaintRam.backed s.bus := by
      intro s₁ hs
      have hk := storeByte_upholds (I := fun b => TaintRam.backed b = TaintRam.backed s.bus)
        (fun b pa n v h => (TaintRam.store_same b pa n v).1.trans h) v (va + BitVec.ofNat 32 i) i s rfl
      rwa [hs] at hk
    have hone := h.storeByte (fun hm => hv i (by omega) hm) hc.1 fun hm s₁ hs pa hpa => by
      rw [hkeep hs, TwinBus.quiet_same s.bus s₁.bus]
      exact hsafe i (Nat.le_refl i) (by omega) hm pa (byteAt_head hs hpa)
    unfold FuzzSoft.scatter
    rcases hone with ⟨e, s₁, t₁, hs, ht, h₁⟩ | ⟨_, s₁, _, t₁, hs, ht, h₁⟩
    · exact .inl ⟨e, s₁, t₁, Comp.bind_error hs, Comp.bind_error ht, D, h₁, fun _ _ h => .inl h⟩
    · have hrest := hc.2
      rw [hs] at hrest
      obtain ⟨pa, hpa⟩ := (storeByte_translates v _ i s _ s₁ hs).2
      have hsafe₁ : ∀ j, i + 1 ≤ j → j < i + 1 + n → taintBit mask j = true → ∀ q,
          byteAt v va (i + 1) j s₁ = some q →
            TaintRam.backed s₁.bus q = true ∨ TwinBus.quiet s₁.bus q = true := by
        intro j h1 h2 hm q hat
        rw [hkeep hs, TwinBus.quiet_same s.bus s₁.bus]
        exact hsafe j (by omega) (by omega) hm q ((byteAt_tail (by omega) hs).trans hat)
      rcases ih (by omega) h₁ hrest hsafe₁ with
        ⟨e, s', t', hs', ht', D', hW⟩ | ⟨_, s', _, t', hs', ht', D', hW⟩
      · exact .inl ⟨e, s', t', (Comp.bind_ok hs).trans hs', (Comp.bind_ok ht).trans ht', D',
          hW.cons hs hpa (hkeep hs)⟩
      · -- the rest leaves the grant of this byte
        have hlast := scatter_stays (by omega) hs' i (by omega) pa hpa
        refine .inr ⟨(), s', (), t', (Comp.bind_ok hs).trans hs', (Comp.bind_ok ht).trans ht', D',
          hW.toWritten.cons hs hpa (hkeep hs), fun q hq => hW.old q ?_, fun j h1 h2 q hq hqb => ?_,
          fun j h1 h2 q hat => ?_⟩
        · rw [D.store_byte hpa]
          split
          · rfl
          · exact hq
        · rw [← hkeep hs] at hqb
          rcases Nat.eq_or_lt_of_le h1 with rfl | hlt
          · rw [hlast] at hq
            cases hq
            refine hW.old _ ?_
            rw [D.store_byte hpa, if_pos ⟨hqb, rfl⟩]
            rfl
          · exact hW.new j hlt (by omega) q hq hqb
        · rcases Nat.eq_or_lt_of_le h1 with rfl | hlt
          · rw [byteAt_head hs hpa] at hat
            cases hat
            exact hlast
          · exact hW.found j hlt (by omega) q ((byteAt_tail hlt hs).symm.trans hat)

/-- The bus address through which byte `j` of a span is written, as the hart translates it. -/
def Cpu.writePa (c : Cpu) (va : U32) (size j : Nat) : Option U32 :=
  c.fastPa (if bytewise va size then va + BitVec.ofNat 32 j else va) .write

/-- A span that is cut into bytes is translated byte by byte. -/
theorem Cpu.writePa_bytewise {va : U32} {size : Nat} (hb : bytewise va size = true) (c : Cpu) (j : Nat) :
    c.writePa va size j = c.fastPa (va + BitVec.ofNat 32 j) .write := by
  unfold Cpu.writePa
  rw [if_pos hb]

/-- An aligned span is translated once. -/
theorem Cpu.writePa_aligned {va : U32} {size : Nat} (hb : bytewise va size = false) (c : Cpu) (j : Nat) :
    c.writePa va size j = c.fastPa va .write := by
  unfold Cpu.writePa
  rw [hb, if_neg Bool.false_ne_true]

/-- A byte that is translated by itself is written where its translation is. -/
theorem byteAddr_bytewise {va : U32} {size : Nat} (hb : bytewise va size = true) (p : U32) (j : Nat) :
    byteAddr va size p j = p := by
  unfold byteAddr
  rw [if_pos hb]

/-- Byte `j` of an aligned span is written `j` bytes after its translation. -/
theorem byteAddr_aligned {va : U32} {size : Nat} (hb : bytewise va size = false) (p : U32) (j : Nat) :
    byteAddr va size p j = p + BitVec.ofNat 32 j := by
  unfold byteAddr
  rw [hb, if_neg Bool.false_ne_true]

/-- What a store leaves pending: the bytes of its span that are RAM, each with its own taint. -/
structure Pends (v mask va : U32) (size : Nat) (s : Sys β) (D : Pending) (s' t' : Sys β) : Prop where
  linked : Linked D s' t'
  granted : s'.cpu.Granted .write va size
  covers : ∀ j < size, ∀ p, s'.cpu.writePa va size j = some p → TaintRam.backed s.bus p = true →
    (D (byteAddr va size p j)).isSome = true
  bits : ∀ q b, D q = some b → ∃ j < size, ∃ p, storedAt v va size j s = some p ∧ b = taintBit mask j ∧
    q = byteAddr va size p j ∧ TaintRam.backed s.bus p = true ∧ s'.cpu.writePa va size j = some p

/-- RAM is not quiet. -/
theorem quiet_of_backed {b : β} {p : U32} (h : TaintRam.backed b p = true) :
    TwinBus.quiet b p = false := by
  refine Bool.eq_false_iff.2 fun hq => ?_
  rw [TwinBus.quiet_unbacked hq] at h
  cases h

/-- A tainted byte that a store carries along goes to RAM, unless no load gives it back. -/
theorem Carried.lands {scatters : Bool} {v mask va : U32} {size j : Nat} {p : U32}
    (h : Carried scatters v mask va size s) (hj : j < 4) (hm : taintBit mask j = true)
    (hat : storedAt v va size j s = some p) :
    TaintRam.backed s.bus p = true ∨ TwinBus.quiet s.bus p = true :=
  (h j hj hm p hat).symm.imp_left And.left

/-- A byte of RAM that it carries along is marked already, unless the store completes. -/
theorem Carried.marked {scatters : Bool} {v mask va : U32} {size j : Nat} {p : U32}
    (h : Carried scatters v mask va size s) (hj : j < size) (h4 : size ≤ 4)
    (hm : taintBit mask j = true) (hat : storedAt v va size j s = some p)
    (hq : TwinBus.quiet s.bus p = false) :
    (RamBus.cells s.bus).has PERM_VTAINT (byteAddr va size p j) = true ∨
      scatters = true ∧ (FuzzSoft.storeImpl va size v s).1.isOk = true ∧
        (bytewise va size = true ∨ TaintRam.whole s.bus p size = true) := by
  rcases h j (by omega) hm p hat with hquiet | ⟨-, hland⟩
  · exact absurd (hquiet.symm.trans hq) (by decide)
  · exact hland hj

omit [RamBus β] [TaintRam β] [TwinBus β] in
/-- The value that a store writes byte by byte. -/
theorem storeImpl_bytewise {va : U32} {size : Nat} (hb : bytewise va size = true) (v : U32) :
    (FuzzSoft.storeImpl va size v : Exec β Unit) =
      FuzzSoft.scatter (FuzzSoft.storeByte v) va 0 size := by
  unfold FuzzSoft.storeImpl
  rw [if_pos hb]

omit [RamBus β] [TaintRam β] [TwinBus β] in
/-- The value that a store writes in one go. -/
theorem storeImpl_aligned {va : U32} {size : Nat} (hb : bytewise va size = false) (v : U32) :
    (FuzzSoft.storeImpl va size v : Exec β Unit) =
      FuzzSoft.xlate va .write >>= fun pa => FuzzSoft.busStore pa size v := by
  unfold FuzzSoft.storeImpl
  rw [hb, if_neg Bool.false_ne_true]

/-- A store of linked systems that goes byte by byte. -/
theorem Linked.storeBytes (h : Linked .idle s t) {scatters : Bool} {v w mask va : U32} {size : Nat}
    (hn : AccessSize size) (hb : bytewise va size = true) (hv : ByteEq mask v w)
    (hc : StoreClean v mask va size s) (hsafe : Carried scatters v mask va size s) :
    Relates (fun _ s' _ t' => ∃ D, Pends v mask va size s D s' t') (Linked .idle)
      (storeImpl va size v) (storeImpl va size w) s t := by
  have h4 : size ≤ 4 := by rcases hn with rfl | rfl | rfl <;> decide
  have hat : ∀ {j q}, j < size → byteAt v va 0 j s = some q → storedAt v va size j s = some q := by
    intro j q hj hq
    unfold storedAt
    rw [if_pos hb, if_pos hj]
    exact hq
  unfold StoreClean at hc
  rw [if_pos hb] at hc
  have hrun := Linked.scatter hv (i := 0) (by omega) h hc fun j _ hj hm q hq =>
    hsafe.lands (by omega) hm (hat (by omega) hq)
  rw [storeImpl_bytewise hb, storeImpl_bytewise hb]
  rcases hrun with ⟨e, s', t', hs, ht, D, hW⟩ | ⟨_, s', _, t', hs, ht, D, hW⟩
  · -- refused: a tainted byte that was written before is marked already
    refine .inl ⟨e, s', t', hs, ht, hW.linked.hart, hW.linked.tlb, hW.linked.bus.settle fun q hq => ?_⟩
    rcases hW.bits q true hq with hD | ⟨j, -, hj, hq', hm, hback⟩
    · cases hD
    · have hquiet := quiet_of_backed hback
      have hmarks := storeImpl_marks h.bus.ok va size v q
      rw [storeImpl_bytewise hb, hs] at hmarks
      rcases hsafe.marked (by omega) h4 hm.symm (hat (by omega) hq') hquiet with hvt | ⟨-, hok, -⟩
      · rw [byteAddr_bytewise hb] at hvt
        rw [Cells.tainted_eq, hmarks, hvt, Bool.or_true]
      · rw [storeImpl_bytewise hb, hs] at hok
        cases hok
  · refine .inr ⟨(), s', (), t', hs, ht, D, hW.linked,
      storeImpl_granted h4 (by rw [storeImpl_bytewise hb]; exact hs), fun j hj p hp hpb => ?_,
      fun q b hq => ?_⟩
    · rw [Cpu.writePa_bytewise hb] at hp
      rw [byteAddr_bytewise hb]
      exact hW.new j (Nat.zero_le j) (by omega) p hp hpb
    · rcases hW.bits q b hq with hD | ⟨j, h1, hj, hq', hbit, hqb⟩
      · cases hD
      · refine ⟨j, by omega, q, hat (by omega) hq', hbit, (byteAddr_bytewise hb q j).symm, hqb, ?_⟩
        rw [Cpu.writePa_bytewise hb]
        exact hW.found j h1 hj q hq'

/-- A store of linked systems in one go. -/
theorem Linked.storeWord (h : Linked .idle s t) {scatters : Bool} {v w mask va : U32} {size : Nat}
    (hn : AccessSize size) (hb : bytewise va size = false) (hv : ByteEq mask v w)
    (hc : StoreClean v mask va size s) (hsafe : Carried scatters v mask va size s) :
    Relates (fun _ s' _ t' => ∃ D, Pends v mask va size s D s' t') (Linked .idle)
      (storeImpl va size v) (storeImpl va size w) s t := by
  have h4 : size ≤ 4 := by rcases hn with rfl | rfl | rfl <;> decide
  have hb' : ¬ bytewise va size = true := by
    rw [hb]
    decide
  unfold StoreClean at hc
  rw [if_neg hb'] at hc
  have hgrant : ∀ {s'}, FuzzSoft.storeImpl va size v s = (.ok (), s') →
      s'.cpu.Granted .write va size := fun hs => storeImpl_granted h4 hs
  rw [storeImpl_aligned hb, storeImpl_aligned hb]
  refine (Relates.of_sim (h.xlate hc)).bind fun pa s₁ pa' t₁ hs _ hpa => ?_
  obtain ⟨rfl, h₁⟩ := hpa
  have hat : ∀ {j}, (∀ f, (Bus.store s₁.bus pa' size v).1 = .error f → j < (f.addr - pa').toNat) →
      storedAt v va size j s = some pa' := by
    intro j hj
    unfold storedAt
    rw [if_neg hb', hs]
    dsimp only
    cases hr : (Bus.store s₁.bus pa' size v).1 with
    | ok u => rfl
    | error f => exact if_pos (hj f hr)
  have hkeep : ∀ q, (RamBus.cells (Bus.store s₁.bus pa' size v).2).has PERM_VTAINT q =
      (RamBus.cells s.bus).has PERM_VTAINT q := by
    intro q
    have hmarks := storeImpl_marks h.bus.ok va size v q
    rw [storeImpl_aligned hb, Comp.bind_ok hs] at hmarks
    exact hmarks
  have hback : TaintRam.backed s₁.bus = TaintRam.backed s.bus := by
    have := xlate_backed va .write s
    rwa [hs] at this
  have hf : s₁.cpu.fastPa va .write = some pa' := fastPa_of_xlate hs
  refine (h₁.busStore hn (fun i hi => hv i (by omega)) (fun hok => ?_) fun f hf' hq i hi hlt hm => ?_).mono
    fun _ s' _ t' hs' _ hst => ?_
  · by_cases hu : Untainted mask
    · exact .inl (hv.eq_of_clean hu)
    · obtain ⟨j, hj⟩ := not_forall.1 hu
      obtain ⟨hj, hm⟩ := Classical.not_imp.1 hj
      rw [hback, TwinBus.quiet_same s.bus s₁.bus]
      exact .inr (hsafe.lands hj (by simpa using hm) (hat fun f hf' => nomatch hok.symm.trans hf'))
  · rw [TwinBus.quiet_same s.bus s₁.bus] at hq
    have hstored : storedAt v va size i s = some pa' := hat fun f' hf'' => by
      rw [hf'] at hf''
      cases hf''
      exact hlt
    rcases hsafe.marked (by omega) h4 hm hstored hq with hvt | ⟨-, hok, -⟩
    · rw [byteAddr_aligned hb] at hvt
      change (RamBus.cells (Bus.store s₁.bus pa' size v).2).tainted _ = true
      rw [Cells.tainted_eq, hkeep, hvt, Bool.or_true]
    · rw [storeImpl_aligned hb, Comp.bind_ok hs] at hok
      unfold FuzzSoft.busStore at hok
      dsimp only at hok
      rw [hf'] at hok
      cases hok
  · obtain ⟨hcpu, -, h'⟩ := hst
    have hf' : s'.cpu.fastPa va .write = some pa' := by rw [hcpu, hf]
    have hok : ∀ f, (Bus.store s₁.bus pa' size v).1 = .error f → False := by
      intro f hr
      unfold FuzzSoft.busStore at hs'
      dsimp only at hs'
      rw [hr] at hs'
      cases hs'
    refine ⟨_, h', hgrant (by rw [storeImpl_aligned hb]; exact (Comp.bind_ok hs).trans hs'),
      fun j hj p hp hpb => ?_, fun q b hq => ?_⟩
    · rw [Cpu.writePa_aligned hb, hf'] at hp
      cases hp
      rw [byteAddr_aligned hb]
      unfold Pending.write
      rw [if_pos ⟨by rw [hback]; exact hpb, (inSpan_iff h4).2 ⟨j, hj, rfl⟩⟩]
      rfl
    · unfold Pending.write at hq
      split at hq
      next hin =>
        refine ⟨(q - pa').toNat, hin.2, pa', hat fun f hr => (hok f hr).elim, (Option.some.inj hq).symm,
          ?_, by rw [← hback]; exact hin.1, by rw [Cpu.writePa_aligned hb, hf']⟩
        rw [byteAddr_aligned hb, BitVec.ofNat_toNat, BitVec.setWidth_eq, BitVec.add_comm, BitVec.sub_add_cancel]
      next => cases hq

/-- A store of linked systems. Every tainted byte must take its taint along. -/
theorem Linked.storeImpl (h : Linked .idle s t) {scatters : Bool} {v w mask va : U32} {size : Nat}
    (hn : AccessSize size) (hv : ByteEq mask v w) (hc : StoreClean v mask va size s)
    (hsafe : Carried scatters v mask va size s) :
    Relates (fun _ s' _ t' => ∃ D, Pends v mask va size s D s' t') (Linked .idle)
      (storeImpl va size v) (storeImpl va size w) s t := by
  cases hb : bytewise va size with
  | true => exact h.storeBytes hn hb hv hc hsafe
  | false => exact h.storeWord hn hb hv hc hsafe

/-- What the scatter after a store leaves of the copy marks of the span: those of the mask where it
reaches, and the old ones elsewhere. -/
structure Scattered (m va : U32) (size : Nat) (s : Sys β) (b : β) : Prop where
  reached : ∀ j < size, ∀ p, s.cpu.writePa va size j = some p → TaintRam.backed s.bus p = true →
    bytewise va size = true ∨ TaintRam.whole s.bus p size = true →
      (RamBus.cells b).has PERM_VTAINT (byteAddr va size p j) = taintBit m j
  missed : ∀ p, s.cpu.fastPa va .write = some p →
    ¬ (bytewise va size = true ∨ TaintRam.whole s.bus p size = true) →
      ∀ q, (RamBus.cells b).has PERM_VTAINT q = (RamBus.cells s.bus).has PERM_VTAINT q

omit [TwinBus β] in
/-- A scatter over one byte of RAM. -/
theorem shadow_byte {b : β} (hok : RamBus.Ok b) {pa : U32} (hback : TaintRam.backed b pa = true)
    (hsome : (RamBus.cells b pa).isSome = true) (m : U32) (i : Nat) (q : U32) :
    (RamBus.cells (Bus.writeShadow b pa 1 ((m >>> (8 * i)) &&& 1))).has PERM_VTAINT q =
      if q = pa then taintBit m i else (RamBus.cells b).has PERM_VTAINT q := by
  have hfill : (RamBus.cells b).Filled pa 1 := by
    intro k hk
    obtain rfl : k = 0 := by omega
    rwa [BitVec.add_zero]
  have hc : RamBus.cells (Bus.writeShadow b pa 1 ((m >>> (8 * i)) &&& 1)) =
      if TaintRam.whole b pa 1 then (RamBus.cells b).shade pa ((m >>> (8 * i)) &&& 1) 1
      else RamBus.cells b :=
    (TaintRam.shadow hok Nat.one_pos (by decide) pa.isLt hback hfill).2
  rw [hc, if_pos (TaintRam.whole_byte b pa)]
  split
  next hq =>
    subst hq
    have h0 : (q - q).toNat = 0 := by simp
    rw [Cells.has_shade_vtaint (by omega) hsome, h0]
    unfold taintBit
    rw [Nat.mul_zero, BitVec.ushiftRight_zero, BitVec.and_assoc, BitVec.and_self]
  next hq => exact has_shade_frame (fun hin => hq (inSpan_one.1 hin).symm) _

omit [RamBus β] [TaintRam β] [TwinBus β] in
/-- The scatter over one byte that the hart translates. -/
theorem storeTaintByte_fast {u : Sys β} {va pa : U32} (hf : u.cpu.fastPa va .write = some pa)
    (m : U32) (i : Nat) (x : β) :
    storeTaintByte m va i { u with bus := x } =
      (.ok (), { u with bus := Bus.writeShadow x pa 1 ((m >>> (8 * i)) &&& 1) }) := by
  have hf' : ({ u with bus := x } : Sys β).cpu.fastPa va .write = some pa := hf
  unfold storeTaintByte
  rw [Comp.bind_ok (xlate_of_fastPa hf')]
  rfl

/-- The bytes of RAM that a store wrote are pending. -/
theorem Pends.pending {v mask va : U32} {size : Nat} {s₀ : Sys β} {D : Pending}
    (h : Pends v mask va size s₀ D s t) (hwin : TaintRam.backed s.bus = TaintRam.backed s₀.bus)
    {j : Nat} (hj : j < size) {p : U32} (hp : s.cpu.writePa va size j = some p)
    (hpb : TaintRam.backed s.bus p = true) : (D (byteAddr va size p j)).isSome = true :=
  h.covers j hj p hp (by rw [← hwin]; exact hpb)

/-- The scatter over the last `n` bytes of a span, one by one. -/
theorem Pends.scatterBytes {v mask va : U32} {size : Nat} {s₀ : Sys β} {D : Pending}
    (h : Pends v mask va size s₀ D s t) (h4 : size ≤ 4) (hb : bytewise va size = true)
    (hwin : TaintRam.backed s.bus = TaintRam.backed s₀.bus) (m : U32) :
    ∀ {n i : Nat} {b c : β}, i + n = size → TaintRam.backed b = TaintRam.backed s.bus →
      BusTwins D b c →
      ∃ b' c', FuzzSoft.scatter (storeTaintByte m) va i n { s with bus := b } =
          (.ok (), { s with bus := b' }) ∧
        FuzzSoft.scatter (storeTaintByte m) va i n { t with bus := c } =
          (.ok (), { t with bus := c' }) ∧ BusTwins D b' c' ∧
        (∀ j, i ≤ j → j < size → ∀ q, s.cpu.fastPa (va + BitVec.ofNat 32 j) .write = some q →
          TaintRam.backed s.bus q = true → (RamBus.cells b').has PERM_VTAINT q = taintBit m j) ∧
        ∀ q, (∀ j, i ≤ j → j < size → s.cpu.fastPa (va + BitVec.ofNat 32 j) .write ≠ some q) →
          (RamBus.cells b').has PERM_VTAINT q = (RamBus.cells b).has PERM_VTAINT q := by
  have hg := h.granted
  unfold Cpu.Granted at hg
  rw [if_pos hb] at hg
  intro n
  induction n with
  | zero =>
    exact fun {_ b c} _ _ hbc => ⟨b, c, rfl, rfl, hbc, fun j h1 h2 => by omega, fun _ _ => rfl⟩
  | succ n ih =>
    intro i b c hin hback hbc
    obtain ⟨pa, hpa⟩ := hg i (by omega)
    have hpa' : t.cpu.fastPa (va + BitVec.ofNat 32 i) .write = some pa := by rw [h.linked.fastPa, hpa]
    have hpend : TaintRam.backed b pa = true → (D pa).isSome = true := fun hpb => by
      have hsome := h.pending hwin (show i < size by omega)
        (by rw [Cpu.writePa_bytewise hb, hpa]) (by rw [← hback]; exact hpb)
      rwa [byteAddr_bytewise hb] at hsome
    have hbc' : BusTwins D (Bus.writeShadow b pa 1 ((m >>> (8 * i)) &&& 1))
        (Bus.writeShadow c pa 1 ((m >>> (8 * i)) &&& 1)) :=
      hbc.shadow Nat.one_pos (by decide) pa.isLt fun hpb j hj => by
        obtain rfl : j = 0 := by omega
        rw [BitVec.add_zero]
        exact hpend hpb
    obtain ⟨b', c', hs, ht, h', hmarks, hframe⟩ := ih (i := i + 1) (by omega)
      ((TaintRam.shadow_same b pa 1 ((m >>> (8 * i)) &&& 1)).1.trans hback) hbc'
    refine ⟨b', c', (Comp.bind_ok (storeTaintByte_fast hpa m i b)).trans hs,
      (Comp.bind_ok (storeTaintByte_fast hpa' m i c)).trans ht, h', fun j h1 h2 q hq hqb => ?_,
      fun q hq => ?_⟩
    · rcases Nat.eq_or_lt_of_le h1 with rfl | hlt
      · -- the bytes after it go elsewhere
        rw [hpa] at hq
        cases hq
        have hqb' : TaintRam.backed b pa = true := by rw [hback]; exact hqb
        rw [hframe pa fun j hj1 hj2 hj =>
          fastPa_bytes_ne (by omega) (by omega) (by omega) hpa hj b rfl,
          shadow_byte hbc.ok hqb' (hbc.filled pa (hpend hqb')), if_pos rfl]
      · exact hmarks j hlt h2 q hq hqb
    · rw [hframe q fun j h1 h2 => hq j (by omega) h2]
      cases hpb : TaintRam.backed b pa with
      | true =>
        have hne : q ≠ pa := fun heq => hq i (Nat.le_refl i) (by omega) (by rw [heq, hpa])
        rw [shadow_byte hbc.ok hpb (hbc.filled pa (hpend hpb)), if_neg hne]
      | false => rw [(TwinBus.unbacked hbc.rest hpb).1]

/-- The scatter of an aligned store that left its span pending. -/
theorem Pends.scatterWord {v mask va : U32} {size : Nat} {s₀ : Sys β} {D : Pending}
    (h : Pends v mask va size s₀ D s t) (hn : AccessSize size) (hb : bytewise va size = false)
    (hwin : TaintRam.backed s.bus = TaintRam.backed s₀.bus) (m : U32) {pa : U32}
    (hpa : s.cpu.fastPa va .write = some pa) :
    BusTwins D (Bus.writeShadow s.bus pa size m) (Bus.writeShadow t.bus pa size m) ∧
      Scattered m va size s (Bus.writeShadow s.bus pa size m) := by
  have h4 : size ≤ 4 := by rcases hn with rfl | rfl | rfl <;> decide
  have h0 : 0 < size := by rcases hn with rfl | rfl | rfl <;> decide
  have hal := fastPa_aligned_size hn hb hpa s.bus
  have hpend : TaintRam.backed s.bus pa = true → ∀ i < size,
      (D (pa + BitVec.ofNat 32 i)).isSome = true := fun hpb i hi => by
    rw [← byteAddr_aligned hb]
    exact h.pending hwin hi (by rw [Cpu.writePa_aligned hb, hpa]) hpb
  have hshade : TaintRam.backed s.bus pa = true →
      RamBus.cells (Bus.writeShadow s.bus pa size m) = if TaintRam.whole s.bus pa size then
        (RamBus.cells s.bus).shade pa m size else RamBus.cells s.bus := fun hpb =>
    (TaintRam.shadow h.linked.bus.ok h0 h4 (aligned_no_wrap hn hal) hpb fun i hi =>
      h.linked.bus.filled _ (hpend hpb i hi)).2
  refine ⟨h.linked.bus.shadow h0 h4 (aligned_no_wrap hn hal) hpend, fun j hj p hp hpb hr => ?_,
    fun p hp hno q => ?_⟩
  · rw [Cpu.writePa_aligned hb, hpa] at hp
    cases hp
    have hj' : (pa + BitVec.ofNat 32 j - pa).toNat = j := by
      rw [BitVec.add_comm, BitVec.add_sub_cancel, BitVec.toNat_ofNat]
      omega
    have hwhole := hr.resolve_left fun hb' => Bool.false_ne_true (hb.symm.trans hb')
    rw [byteAddr_aligned hb, hshade hpb, if_pos hwhole,
      Cells.has_shade_vtaint (by omega) (h.linked.bus.filled _ (hpend hpb j hj)), hj']
    rfl
  · rw [hpa] at hp
    cases hp
    cases hpb : TaintRam.backed s.bus pa with
    | true => rw [hshade hpb, if_neg fun hw => hno (.inr hw)]
    | false => rw [(TwinBus.unbacked h.linked.bus.rest hpb).1]

/-- The scatter of a store that left its span pending. -/
theorem Pends.storeTaint {v mask va : U32} {size : Nat} {s₀ : Sys β} {D : Pending}
    (h : Pends v mask va size s₀ D s t) (hn : AccessSize size)
    (hwin : TaintRam.backed s.bus = TaintRam.backed s₀.bus) (m : U32) :
    ∃ b c, storeTaint va size m s = (.ok (), { s with bus := b }) ∧
      storeTaint va size m t = (.ok (), { t with bus := c }) ∧ BusTwins D b c ∧
        Scattered m va size s b := by
  have hg := h.granted
  unfold Cpu.Granted at hg
  unfold FuzzSoft.storeTaint
  cases hb : bytewise va size with
  | true =>
    have h4 : size ≤ 4 := by rcases hn with rfl | rfl | rfl <;> decide
    obtain ⟨b, c, hs, ht, hbc, hmarks, -⟩ :=
      h.scatterBytes h4 hb hwin m (Nat.zero_add size) rfl h.linked.bus
    refine ⟨b, c, hs, ht, hbc, fun j hj p hp hpb _ => ?_, fun p _ hno => absurd (.inl hb) hno⟩
    rw [Cpu.writePa_bytewise hb] at hp
    rw [byteAddr_bytewise hb]
    exact hmarks j (Nat.zero_le j) hj p hp hpb
  | false =>
    rw [hb, if_neg Bool.false_ne_true] at hg
    obtain ⟨pa, hpa⟩ := hg
    have hpa' : t.cpu.fastPa va .write = some pa := by rw [h.linked.fastPa, hpa]
    obtain ⟨hbc, hscat⟩ := h.scatterWord hn hb hwin m hpa
    exact ⟨_, _, Comp.bind_ok (xlate_of_fastPa hpa), Comp.bind_ok (xlate_of_fastPa hpa'), hbc, hscat⟩

/-- A store and its scatter keep linked systems linked. -/
theorem Linked.storeWithTaint (h : Linked .idle s t) {v w mask va : U32} {size : Nat}
    (hn : AccessSize size) (hv : ByteEq mask v w) (hc : StoreClean v mask va size s)
    (hsafe : Carried true v mask va size s) :
    Sim (Linked .idle) (storeWithTaint va size v (some mask)) (storeWithTaint va size w (some mask))
      s t := by
  have h4 : size ≤ 4 := by rcases hn with rfl | rfl | rfl <;> decide
  refine Relates.sim ((h.storeImpl hn hv hc hsafe).bind fun _ s' _ t' hs _ hD => ?_)
  obtain ⟨D, hD⟩ := hD
  obtain ⟨hback, hwhole⟩ := storeImpl_window va size v s
  have hkeep := storeImpl_marks h.bus.ok va size v
  rw [hs] at hback hwhole hkeep
  obtain ⟨b, c, hst, htt, hbc, hscat⟩ := hD.storeTaint hn hback mask
  refine .inr ⟨(), { s' with bus := b }, (), { t' with bus := c }, hst, htt, rfl, hD.linked.hart,
    hD.linked.tlb, hbc.settle fun q hq => ?_⟩
  obtain ⟨j, hj, p, hat, hbit, rfl, hpb, hpa⟩ := hD.bits q true hq
  have hquiet := quiet_of_backed hpb
  rw [Cells.tainted_eq]
  by_cases hr : bytewise va size = true ∨ TaintRam.whole s'.bus p size = true
  · rw [hscat.reached j hj p hpa (by rw [hback]; exact hpb) hr, ← hbit, Bool.or_true]
  · have hpa' : s'.cpu.fastPa va .write = some p := by
      unfold Cpu.writePa at hpa
      rwa [if_neg fun hb => hr (.inl hb)] at hpa
    rcases hsafe.marked hj h4 hbit.symm hat hquiet with hvt | ⟨-, -, hr'⟩
    · rw [hscat.missed p hpa' hr, hkeep, hvt, Bool.or_true]
    · rw [← hwhole] at hr'
      exact absurd hr' hr

/-- So does a store without a scatter. -/
theorem Linked.storeBare (h : Linked .idle s t) {v w mask va : U32} {size : Nat}
    (hn : AccessSize size) (hv : ByteEq mask v w) (hc : StoreClean v mask va size s)
    (hsafe : Carried false v mask va size s) :
    Sim (Linked .idle) (FuzzSoft.storeImpl va size v) (FuzzSoft.storeImpl va size w) s t := by
  have h4 : size ≤ 4 := by rcases hn with rfl | rfl | rfl <;> decide
  refine Relates.sim ((h.storeImpl hn hv hc hsafe).mono fun _ s' _ t' hs _ hD => ⟨rfl, ?_⟩)
  obtain ⟨D, hD⟩ := hD
  have hkeep := storeImpl_marks h.bus.ok va size v
  rw [hs] at hkeep
  refine ⟨hD.linked.hart, hD.linked.tlb, hD.linked.bus.settle fun q hq => ?_⟩
  obtain ⟨j, hj, p, hat, hbit, rfl, hpb, -⟩ := hD.bits q true hq
  have hquiet := quiet_of_backed hpb
  rcases hsafe.marked hj h4 hbit.symm hat hquiet with hvt | ⟨hno, -⟩
  · rw [Cells.tainted_eq, hkeep, hvt, Bool.or_true]
  · cases hno

end

end

end FuzzSoft
