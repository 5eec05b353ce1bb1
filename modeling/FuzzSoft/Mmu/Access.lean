import FuzzSoft.Mmu.CowRefines

/-!
# What a load reads and a store writes

The effect of an aligned access on the planes of the flat memory, in closed form: a load of a word
gives the four bytes of its span (`loadWord_iff`), a store writes a prefix of its bytes and all of
them when it succeeds (`store_prefixed`). Both fast path and byte-wise path are covered.
-/

namespace FuzzSoft

open Lib

/-- The size of an access. -/
def AccessSize (n : Nat) : Prop := n = 1 ∨ n = 2 ∨ n = 4

/-- The low bits of a word below a power of two. -/
theorem toNat_and_mask (v : U32) (k : Nat) (hk : k < 32) :
    (v &&& BitVec.ofNat 32 (2 ^ k - 1)).toNat = v.toNat % 2 ^ k := by
  have hlt : 2 ^ k - 1 < 2 ^ 32 := by
    have := Nat.pow_lt_pow_right (a := 2) (by decide) hk
    omega
  rw [BitVec.toNat_and, BitVec.toNat_ofNat, Nat.mod_eq_of_lt hlt]
  exact Nat.and_two_pow_sub_one_eq_mod _ k

/-- The byte-wise read of a span that does not wrap, when it succeeds. -/
theorem readLoop_ok {base : U32} {size : Nat} {mem perms : Nat → U8} {need : U8} {access : Access}
    {len : U32} {n : Nat} : ∀ {a : U32} {bs : List U8}, a.toNat + n ≤ 2 ^ 32 → 0 < n →
    readLoop (windowOffset base size) mem perms need access len a n = .ok bs →
    ∃ off, windowOffset base size a = some off ∧ off + n ≤ size ∧
      ∀ i < n, perms (off + i) &&& need ≠ 0 := by
  induction n with
  | zero => intro a bs _ h0; omega
  | succ n ih =>
    intro a bs hw _ h
    rw [readLoop] at h
    cases ho : windowOffset base size a with
    | none => rw [ho] at h; cases h
    | some off =>
      rw [ho] at h
      have hlt := (windowOffset_eq_some.1 ho).2
      dsimp only at h
      split at h
      · cases h
      next hp =>
      cases hrest : readLoop (windowOffset base size) mem perms need access len (a + 1) n with
      | error e => rw [hrest] at h; cases h
      | ok rest =>
        rcases Nat.eq_zero_or_pos n with rfl | hn
        · refine ⟨off, rfl, by omega, fun i hi => ?_⟩
          rw [show off + i = off by omega]
          exact hp
        · have hw' : (a + 1).toNat = a.toNat + 1 := by
            rw [BitVec.toNat_add]
            exact Nat.mod_eq_of_lt (by simp; omega)
          obtain ⟨off', ho', hs', hp'⟩ := ih (by omega) hn hrest
          have h1 := (windowOffset_eq_some.1 ho).1
          have h2 := (windowOffset_eq_some.1 ho').1
          have he : off' = off + 1 := by omega
          subst he
          refine ⟨off, rfl, by omega, fun i hi => ?_⟩
          cases i with
          | zero => exact hp
          | succ i =>
            rw [← Nat.add_assoc, Nat.add_right_comm]
            exact hp' i (by omega)

namespace Mmu

/-- A checked read of a span that does not wrap. -/
theorem read_eq_ok {m : Mmu} {a : U32} {n : Nat} {bs : List U8} (hw : a.toNat + n ≤ 2 ^ 32)
    (hn : 0 < n) : m.read a n = .ok bs ↔ ∃ off, m.offset a = some off ∧ off + n ≤ m.size ∧
      (∀ i < n, m.perms (off + i) &&& PERM_READ ≠ 0) ∧ readSpan m.mem off n = bs := by
  unfold read
  cases hsp : m.spanHas PERM_READ a n with
  | some off =>
    obtain ⟨ho, hs, hp⟩ := spanHas_eq_some.1 hsp
    constructor
    · intro h
      exact ⟨off, ho, hs, hp, Except.ok.inj h⟩
    · rintro ⟨off', ho', -, -, rfl⟩
      rw [ho] at ho'
      cases ho'
      rfl
  | none =>
    have hno : ¬ ∃ off, m.offset a = some off ∧ off + n ≤ m.size ∧
        ∀ i < n, m.perms (off + i) &&& PERM_READ ≠ 0 := by
      rintro ⟨off, h⟩
      rw [spanHas_eq_some.2 h] at hsp
      cases hsp
    constructor
    · intro h
      exact absurd (readLoop_ok hw hn h) hno
    · rintro ⟨off, ho, hs, hp, -⟩
      exact absurd ⟨off, ho, hs, hp⟩ hno

/-- The word an aligned load gives. -/
theorem loadWord_iff {m : Mmu} {w v : U32} (ha : w.toNat % 4 = 0) :
    m.load w 4 = .ok v ↔ ∃ off, m.base.toNat + off = w.toNat ∧ off + 4 ≤ m.size ∧
      (∀ i < 4, m.perms (off + i) &&& PERM_READ ≠ 0) ∧ leValue (readSpan m.mem off 4) = v := by
  have hw := aligned_no_wrap (.inr (.inr rfl)) ha
  have halign : checkAlign w 4 .read = .ok () := if_pos ha
  have hload : m.load w 4 = (m.read w 4).bind fun b => .ok (leValue b) := by
    show m.readU32 w = _
    unfold readU32
    rw [halign]
    rfl
  have hoff : ∀ {off}, m.offset w = some off ∧ off + 4 ≤ m.size ↔
      m.base.toNat + off = w.toNat ∧ off + 4 ≤ m.size := by
    intro off
    rw [offset, windowOffset_eq_some]
    omega
  constructor
  · intro h
    cases hr : m.read w 4 with
    | error e =>
      rw [hload, hr] at h
      cases h
    | ok bs =>
      rw [hload, hr] at h
      obtain ⟨off, ho, hs, hp, rfl⟩ := (read_eq_ok hw (by omega)).1 hr
      exact ⟨off, (hoff.1 ⟨ho, hs⟩).1, hs, hp, Except.ok.inj h⟩
  · rintro ⟨off, ho, hs, hp, rfl⟩
    rw [hload, (read_eq_ok hw (by omega)).2 ⟨off, (hoff.2 ⟨ho, hs⟩).1, hs, hp, rfl⟩]
    rfl

/-! ## Stores -/

/-- The planes of `m` with `data` written at offset `off`. -/
def wrote (m : Mmu) (off : Nat) (data : List U8) : Mmu :=
  { m with
    mem := setSpan m.mem off data
    perms := mapSpan m.perms off data.length writtenPerm }

@[simp] theorem wrote_nil (m : Mmu) (off : Nat) : m.wrote off [] = m := by
  simp [wrote]

/-- The byte-wise write of a span that does not wrap writes a prefix of its data. -/
theorem writeLoop_prefixed {base : U32} {size : Nat} (len : U32) {data : List U8} :
    ∀ (m : Mmu) {a : U32}, a.toNat + data.length ≤ 2 ^ 32 →
    ∃ k ≤ data.length, (k ≠ 0 → base.toNat ≤ a.toNat ∧ a.toNat - base.toNat + k ≤ size) ∧
      SamePlanes (m.wrote (a.toNat - base.toNat) (data.take k))
        (writeLoop (windowOffset base size) Mmu.perms putByte len m a data).2 ∧
      ((writeLoop (windowOffset base size) Mmu.perms putByte len m a data).1 = .ok () ↔
        k = data.length) := by
  induction data with
  | nil =>
    intro m a _
    refine ⟨0, Nat.le_refl 0, fun h => absurd rfl h, ?_, fun _ => rfl, fun _ => rfl⟩
    simpa [writeLoop] using SamePlanes.refl m
  | cons b bs ih =>
    intro m a hw
    have stuck : ∀ f : Fault, ∃ k ≤ (b :: bs).length,
        (k ≠ 0 → base.toNat ≤ a.toNat ∧ a.toNat - base.toNat + k ≤ size) ∧
        SamePlanes (m.wrote (a.toNat - base.toNat) ((b :: bs).take k)) m ∧
        ((.error f : Except Fault Unit) = .ok () ↔ k = (b :: bs).length) := fun f =>
      ⟨0, Nat.zero_le _, fun h => absurd rfl h, by simpa using SamePlanes.refl m, by rintro ⟨⟩, by rintro ⟨⟩⟩
    rw [writeLoop]
    cases ho : windowOffset base size a with
    | none => exact stuck _
    | some off =>
      obtain ⟨hbase, hlt⟩ := windowOffset_eq_some.1 ho
      have hoff : a.toNat - base.toNat = off := by omega
      dsimp only
      split
      · exact stuck _
      have hput := samePlanes_putByte m off b
      rcases bs with _ | ⟨b', bs⟩
      · refine ⟨1, Nat.le_refl 1, fun _ => ⟨by omega, by omega⟩, ?_, fun _ => rfl, fun _ => rfl⟩
        rw [hoff]
        simp only [wrote, List.take_succ_cons, List.take_zero, setSpan_cons, setSpan_nil,
          List.length_singleton, mapSpan_succ, mapSpan_zero]
        exact hput
      · simp only [List.length_cons] at hw
        have hw' : (a + 1).toNat = a.toNat + 1 := by
          rw [BitVec.toNat_add]
          exact Nat.mod_eq_of_lt (by simp; omega)
        obtain ⟨k, hk, hin, hpl, hok⟩ := ih (m.putByte off b)
          (show (a + 1).toNat + (b' :: bs).length ≤ 2 ^ 32 by rw [hw', List.length_cons]; omega)
        rw [show (a + 1).toNat - base.toNat = off + 1 by omega] at hpl
        refine ⟨k + 1, by simpa using hk, fun _ => ⟨by omega, ?_⟩, ?_,
          fun h => by rw [hok.1 h]; rfl, fun h => hok.2 (by simpa using h)⟩
        · rcases Nat.eq_zero_or_pos k with rfl | hk0
          · omega
          · have := hin (by omega)
            omega
        · rw [hoff, List.take_succ_cons]
          refine ⟨hpl.base.trans hput.base, hpl.size.trans hput.size, ?_, ?_,
            hpl.trackDirty.trans hput.trackDirty⟩
          · simp only [wrote, setSpan_cons, hpl.mem, hput.mem]
          · simp only [wrote, List.length_cons, mapSpan_succ, hpl.perms, hput.perms]

/-- The number of bytes the bus accesses for a requested size. -/
def width : Nat → Nat
  | 1 => 1
  | 2 => 2
  | _ => 4

/-- An access is of one, two or four bytes. -/
theorem width_cases (size : Nat) : width size = 1 ∨ width size = 2 ∨ width size = 4 := by
  unfold width
  split <;> simp

/-- A store is an aligned one of its width. -/
theorem store_eq (m : Mmu) (a : U32) (size : Nat) (v : U32) :
    m.store a size v = m.writeAligned a (width size) v := by
  match size with
  | 1 | 2 | 0 | _ + 3 => rfl

/-- What a store through the bus writes: a prefix of its bytes, and all of them exactly when it
succeeds. -/
theorem store_prefixed (m : Mmu) (a : U32) (size : Nat) (v : U32) :
    ∃ k ≤ width size, (k ≠ 0 → a.toNat % width size = 0 ∧ m.base.toNat ≤ a.toNat ∧
        a.toNat - m.base.toNat + k ≤ m.size) ∧
      SamePlanes (m.wrote (a.toNat - m.base.toNat) ((leBytes v (width size)).take k))
        (m.store a size v).2 ∧
      ((m.store a size v).1 = .ok () ↔ k = width size) := by
  rw [store_eq]
  unfold writeAligned
  by_cases ha : a.toNat % width size = 0
  · have hok : checkAlign a (width size) .write = .ok () := if_pos ha
    have hw := aligned_no_wrap (width_cases size) ha
    rw [hok]
    dsimp only
    unfold write
    rw [length_leBytes]
    cases hsp : m.spanHas PERM_WRITE a (width size) with
    | some off =>
      obtain ⟨ho, hs, -⟩ := spanHas_eq_some.1 hsp
      obtain ⟨hbase, -⟩ := windowOffset_eq_some.1 ho
      refine ⟨width size, Nat.le_refl _, fun _ => ⟨ha, by omega, by omega⟩, ?_, fun _ => rfl,
        fun _ => rfl⟩
      rw [List.take_of_length_le (by simp), show a.toNat - m.base.toNat = off by omega]
      exact samePlanes_putSpan m off _
    | none =>
      obtain ⟨k, hk, hin, hpl, hres⟩ := @writeLoop_prefixed m.base m.size
        (BitVec.ofNat 32 (width size)) (leBytes v (width size)) m a
        (by rw [length_leBytes]; exact hw)
      rw [length_leBytes] at hk hres
      unfold writeBytewise
      rw [length_leBytes]
      exact ⟨k, hk, fun h => ⟨ha, hin h⟩, hpl, hres⟩
  · have herr : checkAlign a (width size) .write = .error _ := if_neg ha
    rw [herr]
    have hpos : 0 < width size := by
      rcases width_cases size with h | h | h <;> omega
    exact ⟨0, Nat.zero_le _, fun h => absurd rfl h, by simpa using SamePlanes.refl m, nofun,
      fun h => absurd h (by omega)⟩

/-! ## Accesses that succeed -/

/-- An aligned load that is served. -/
theorem load_of_span {m : Mmu} {pa : U32} {n off : Nat} (hn : AccessSize n)
    (ha : pa.toNat % n = 0) (h : m.spanHas PERM_READ pa n = some off) :
    m.load pa n = .ok (leValue (readSpan m.mem off n)) := by
  have hread : m.read pa n = .ok (readSpan m.mem off n) := by rw [read, h]
  have halign : checkAlign pa n .read = .ok () := if_pos ha
  rcases hn with rfl | rfl | rfl
  · have hw := @leValue_setWidth (readSpan m.mem off 1) 8 rfl
    simpa [load, readU8, hread, bind, Except.bind, Except.map] using hw
  · have hw := @leValue_setWidth (readSpan m.mem off 2) 16 rfl
    simpa [load, readU16, halign, hread, bind, Except.bind, Except.map] using hw
  · simp [load, readU32, halign, hread, bind, Except.bind]

/-- An aligned store that is served. -/
theorem store_of_span {m : Mmu} {pa : U32} {n off : Nat} (hn : AccessSize n)
    (ha : pa.toNat % n = 0) (h : m.spanHas PERM_WRITE pa n = some off) (v : U32) :
    m.store pa n v = (.ok (), m.putSpan off (leBytes v n)) := by
  have hst : m.store pa n v = m.writeAligned pa n v := by rcases hn with rfl | rfl | rfl <;> rfl
  have halign : checkAlign pa n .write = .ok () := if_pos ha
  rw [hst, writeAligned, halign]
  simp only [write, length_leBytes, h]

/-- A load that succeeds was aligned and read its span. -/
theorem of_load_ok {m : Mmu} {pa v : U32} {n : Nat} (hn : AccessSize n) (h : m.load pa n = .ok v) :
    pa.toNat % n = 0 ∧ ∃ bs, m.read pa n = .ok bs := by
  have hread : ∀ e : Fault, m.read pa n = .error e → m.load pa n ≠ .ok v := by
    intro e he
    rcases hn with rfl | rfl | rfl
    · simp [load, readU8, he, bind, Except.bind, Except.map]
    · cases ha : checkAlign pa 2 .read <;> simp [load, readU16, he, ha, bind, Except.bind, Except.map]
    · cases ha : checkAlign pa 4 .read <;> simp [load, readU32, he, ha, bind, Except.bind]
  constructor
  · by_contra ha
    have herr : ∃ e, checkAlign pa n .read = .error e := ⟨_, if_neg ha⟩
    obtain ⟨e, he⟩ := herr
    rcases hn with rfl | rfl | rfl
    · exact ha (Nat.mod_one _)
    · simp [load, readU16, he, bind, Except.bind, Except.map] at h
    · simp [load, readU32, he, bind, Except.bind] at h
  · cases hr : m.read pa n with
    | ok bs => exact ⟨bs, rfl⟩
    | error e => exact absurd h (hread e hr)

/-- When a load succeeds, and what it gives. -/
theorem load_eq_ok {m : Mmu} {pa v : U32} {n : Nat} (hn : AccessSize n) :
    m.load pa n = .ok v ↔ pa.toNat % n = 0 ∧
      ∃ off, m.spanHas PERM_READ pa n = some off ∧ leValue (readSpan m.mem off n) = v := by
  constructor
  · intro h
    obtain ⟨ha, bs, hr⟩ := of_load_ok hn h
    have hpos : 0 < n := by rcases hn with rfl | rfl | rfl <;> decide
    obtain ⟨off, ho, hs, hp, -⟩ := (read_eq_ok (aligned_no_wrap hn ha) hpos).1 hr
    have hsp := spanHas_eq_some.2 ⟨ho, hs, hp⟩
    exact ⟨ha, off, hsp, Except.ok.inj ((load_of_span hn ha hsp).symm.trans h)⟩
  · rintro ⟨ha, off, hsp, rfl⟩
    exact load_of_span hn ha hsp

/-- The byte-wise write of a span that does not wrap, when it succeeds. A byte written changes no
permission further on. -/
theorem writeLoop_ok {base : U32} {size : Nat} (len : U32) {data : List U8} :
    ∀ (m : Mmu) {a : U32}, a.toNat + data.length ≤ 2 ^ 32 → 0 < data.length →
    (writeLoop (windowOffset base size) Mmu.perms putByte len m a data).1 = .ok () →
    ∃ off, windowOffset base size a = some off ∧ off + data.length ≤ size ∧
      ∀ i < data.length, m.perms (off + i) &&& PERM_WRITE ≠ 0 := by
  induction data with
  | nil => intro m a _ h0; cases h0
  | cons b bs ih =>
    intro m a hw _ h
    rw [writeLoop] at h
    cases ho : windowOffset base size a with
    | none => rw [ho] at h; cases h
    | some off =>
      rw [ho] at h
      have hlt := (windowOffset_eq_some.1 ho).2
      dsimp only at h
      split at h
      · cases h
      next hp =>
      rw [List.length_cons] at hw ⊢
      rcases Nat.eq_zero_or_pos bs.length with hn | hn
      · refine ⟨off, rfl, by omega, fun i hi => ?_⟩
        rw [show off + i = off by omega]
        exact hp
      · have hw' : (a + 1).toNat = a.toNat + 1 := by
          rw [BitVec.toNat_add]
          exact Nat.mod_eq_of_lt (by simp; omega)
        obtain ⟨off', ho', hs', hp'⟩ := ih (m.putByte off b) (by omega) hn h
        have h1 := (windowOffset_eq_some.1 ho).1
        have h2 := (windowOffset_eq_some.1 ho').1
        have he : off' = off + 1 := by omega
        subst he
        refine ⟨off, rfl, by omega, fun i hi => ?_⟩
        cases i with
        | zero => exact hp
        | succ i =>
          have hi' := hp' i (by omega)
          rw [(samePlanes_putByte m off b).perms] at hi'
          dsimp only at hi'
          rw [setAt_of_ne _ _ (by omega)] at hi'
          rwa [← Nat.add_assoc, Nat.add_right_comm]

/-- When a store succeeds. -/
theorem store_eq_ok {m : Mmu} {pa : U32} {n : Nat} (hn : AccessSize n) (v : U32) :
    (m.store pa n v).1 = .ok () ↔ pa.toNat % n = 0 ∧ ∃ off, m.spanHas PERM_WRITE pa n = some off := by
  constructor
  · intro h
    have hst : m.store pa n v = m.writeAligned pa n v := by rcases hn with rfl | rfl | rfl <;> rfl
    rw [hst, writeAligned] at h
    by_cases ha : pa.toNat % n = 0
    · have halign : checkAlign pa n .write = .ok () := if_pos ha
      refine ⟨ha, ?_⟩
      rw [halign] at h
      dsimp only at h
      rw [write, length_leBytes] at h
      cases hsp : m.spanHas PERM_WRITE pa n with
      | some off => exact ⟨off, rfl⟩
      | none =>
        rw [hsp] at h
        have hpos : 0 < n := by rcases hn with rfl | rfl | rfl <;> decide
        obtain ⟨off, ho⟩ := writeLoop_ok _ m (by rw [length_leBytes]; exact aligned_no_wrap hn ha)
          (by rwa [length_leBytes]) h
        rw [length_leBytes] at ho
        rw [spanHas_eq_some.2 ho] at hsp
        cases hsp
    · have herr : checkAlign pa n .write = .error _ := if_neg ha
      rw [herr] at h
      cases h
  · rintro ⟨ha, off, hsp⟩
    rw [store_of_span hn ha hsp]

/-- When a fetch succeeds, and what it gives. -/
theorem fetchU16_eq_ok {m : Mmu} {pa : U32} {v : U16} :
    m.fetchU16 pa = .ok v ↔ pa.toNat % 2 = 0 ∧
      ∃ off, m.spanHas PERM_EXEC pa 2 = some off ∧ (leValue (readSpan m.mem off 2)).setWidth 16 = v := by
  have hfetch : ∀ {bs : List U8}, m.fetchBytes pa 2 = .ok bs → pa.toNat % 2 = 0 →
      m.fetchU16 pa = .ok ((leValue bs).setWidth 16) := by
    intro bs hb ha
    have halign : checkAlign pa 2 .exec = .ok () := if_pos ha
    simp [fetchU16, halign, hb, bind, Except.bind]
  constructor
  · intro h
    by_cases ha : pa.toNat % 2 = 0
    · refine ⟨ha, ?_⟩
      cases hb : m.fetchBytes pa 2 with
      | error e =>
        have halign : checkAlign pa 2 .exec = .ok () := if_pos ha
        simp [fetchU16, halign, hb, bind, Except.bind] at h
      | ok bs =>
        rw [hfetch hb ha] at h
        rw [fetchBytes] at hb
        cases hsp : m.spanHas PERM_EXEC pa 2 with
        | some off =>
          rw [hsp] at hb
          cases hb
          exact ⟨off, rfl, Except.ok.inj h⟩
        | none =>
          rw [hsp] at hb
          have := readLoop_ok (aligned_no_wrap (.inr (.inl rfl)) ha) (by decide) hb
          obtain ⟨off, ho⟩ := this
          rw [spanHas_eq_some.2 ho] at hsp
          cases hsp
    · have herr : checkAlign pa 2 .exec = .error _ := if_neg ha
      simp [fetchU16, herr, bind, Except.bind] at h
  · rintro ⟨ha, off, hsp, rfl⟩
    refine hfetch ?_ ha
    rw [fetchBytes, hsp]

/-! ## Accesses that fail -/

/-- The fault of an unaligned access says which access it was. -/
theorem checkAlign_error {a : U32} {n : Nat} {access : Access} {f : Fault}
    (h : checkAlign a n access = .error f) : f.access = access := by
  unfold checkAlign at h
  split at h
  · cases h
  · cases h
    rfl

/-- So does that of a byte-wise read. -/
theorem readLoop_error {offset : U32 → Option Nat} {mem perms : Nat → U8} {need : U8}
    {access : Access} {len : U32} {f : Fault} : ∀ {n : Nat} {a : U32},
    readLoop offset mem perms need access len a n = .error f → f.access = access := by
  intro n
  induction n with
  | zero => exact fun h => nomatch h
  | succ n ih =>
    intro a h
    rw [readLoop] at h
    cases ho : offset a with
    | none =>
      rw [ho] at h
      cases h
      rfl
    | some off =>
      rw [ho] at h
      dsimp only at h
      split at h
      · cases h
        rfl
      · cases hr : readLoop offset mem perms need access len (a + 1) n with
        | ok bs =>
          rw [hr] at h
          cases h
        | error e =>
          rw [hr] at h
          cases h
          exact ih hr

/-- The fault of a read says it was one. -/
theorem read_error {m : Mmu} {a : U32} {n : Nat} {f : Fault} (h : m.read a n = .error f) :
    f.access = .read := by
  unfold read at h
  split at h
  · cases h
  · exact readLoop_error h

/-- So does that of a load. -/
theorem load_error {m : Mmu} {a : U32} {n : Nat} {f : Fault} (hn : AccessSize n)
    (h : m.load a n = .error f) : f.access = .read := by
  have hload : (∃ e, checkAlign a n .read = .error e ∧ f = e) ∨ m.read a n = .error f := by
    rcases hn with rfl | rfl | rfl
    · cases hr : m.read a 1 <;> simp [load, readU8, hr, bind, Except.bind, Except.map] at h ⊢
      exact .inr h
    · cases ha : checkAlign a 2 .read <;> cases hr : m.read a 2 <;>
        simp [load, readU16, ha, hr, bind, Except.bind, Except.map] at h ⊢ <;> simp [h]
    · cases ha : checkAlign a 4 .read <;> cases hr : m.read a 4 <;>
        simp [load, readU32, ha, hr, bind, Except.bind] at h ⊢ <;> simp [h]
  rcases hload with ⟨e, he, rfl⟩ | hr
  · exact checkAlign_error he
  · exact read_error hr

/-- The fault of a fetch says it was one. -/
theorem fetchU16_error {m : Mmu} {a : U32} {f : Fault} (h : m.fetchU16 a = .error f) :
    f.access = .exec := by
  unfold fetchU16 at h
  cases ha : checkAlign a 2 .exec with
  | error e =>
    rw [ha] at h
    cases h
    exact checkAlign_error ha
  | ok u =>
    rw [ha] at h
    cases hb : m.fetchBytes a 2 with
    | ok bs =>
      simp [hb, bind, Except.bind] at h
    | error e =>
      simp only [hb, bind, Except.bind, Except.error.injEq] at h
      subst h
      unfold fetchBytes at hb
      split at hb
      · cases hb
      · exact readLoop_error hb

/-- The fault of a write says it was one. -/
theorem writeLoop_error {σ : Type} {offset : U32 → Option Nat} {perm : σ → Nat → U8}
    {put : σ → Nat → U8 → σ} {len : U32} {f : Fault} : ∀ {data : List U8} {s : σ} {a : U32},
    (writeLoop offset perm put len s a data).1 = .error f → f.access = .write := by
  intro data
  induction data with
  | nil => exact fun h => nomatch h
  | cons b bs ih =>
    intro s a h
    rw [writeLoop] at h
    cases ho : offset a with
    | none =>
      rw [ho] at h
      cases h
      rfl
    | some off =>
      rw [ho] at h
      dsimp only at h
      split at h
      · cases h
        rfl
      · exact ih h

/-- So does that of a store. -/
theorem store_error {m : Mmu} {a v : U32} {n : Nat} {f : Fault}
    (h : (m.store a n v).1 = .error f) : f.access = .write := by
  rw [store_eq, writeAligned] at h
  cases ha : checkAlign a (width n) .write with
  | error e =>
    rw [ha] at h
    cases h
    exact checkAlign_error ha
  | ok u =>
    rw [ha] at h
    dsimp only at h
    unfold write at h
    split at h
    · cases h
    · exact writeLoop_error h

end Mmu

end FuzzSoft
