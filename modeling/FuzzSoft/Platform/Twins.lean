import FuzzSoft.Lib.Packed
import FuzzSoft.Platform.Shadow

/-!
# Buses that differ in bytes only

Two memories with the same permissions refuse the same accesses at the same byte, whatever bytes they
hold: a load gives equal bytes where the cells are equal, and a store writes as many bytes into the
one as into the other. `TwinBus` says so of the buses of a machine, beside what they share of the rest
of their state (`TwinBus.Rest`).
-/

namespace FuzzSoft

open Lib

namespace Cells

/-- The permission bytes are the same. -/
def SamePerms (c c' : Cells) : Prop := ∀ q, (c' q).map Prod.snd = (c q).map Prod.snd

/-- Both have no byte at an address, or bytes with one permission. -/
theorem SamePerms.cases {c c' : Cells} (h : c.SamePerms c') (q : U32) :
    (c q = none ∧ c' q = none) ∨ ∃ b b' p, c q = some (b, p) ∧ c' q = some (b', p) := by
  have hq := h q
  cases hc : c q with
  | none =>
    rw [hc] at hq
    exact .inl ⟨rfl, Option.map_eq_none_iff.1 hq⟩
  | some x =>
    rw [hc] at hq
    obtain ⟨y, hy, hp⟩ := Option.map_eq_some_iff.1 hq
    exact .inr ⟨x.1, y.1, x.2, rfl, by rw [hy, ← hp]⟩

/-- They have bytes at the same addresses. -/
theorem SamePerms.isSome {c c' : Cells} (h : c.SamePerms c') (q : U32) :
    (c' q).isSome = (c q).isSome := by
  obtain ⟨h1, h2⟩ | ⟨b, b', p, h1, h2⟩ := h.cases q
  · rw [h1, h2]
  · rw [h1, h2]
    rfl

/-- They have the same permissions. -/
theorem SamePerms.has {c c' : Cells} (h : c.SamePerms c') (bits : U8) (q : U32) :
    c'.has bits q = c.has bits q := by
  unfold Cells.has
  obtain ⟨h1, h2⟩ | ⟨b, b', p, h1, h2⟩ := h.cases q <;> rw [h1, h2]

/-- Writing as many bytes to both keeps them so. -/
theorem SamePerms.put {c c' : Cells} (h : c.SamePerms c') (pa : U32) {bs bs' : List U8}
    (hl : bs'.length = bs.length) : (c.put pa bs).SamePerms (c'.put pa bs') := by
  intro q
  unfold Cells.put
  rcases Nat.lt_or_ge (q - pa).toNat bs.length with hlt | hge
  · rw [List.getElem?_eq_getElem hlt, List.getElem?_eq_getElem (by omega)]
    obtain ⟨h1, h2⟩ | ⟨b, b', p, h1, h2⟩ := h.cases q
    · rw [h1, h2]
      rfl
    · rw [h1, h2]
      rfl
  · rw [List.getElem?_eq_none hge, List.getElem?_eq_none (by omega)]
    exact h q

/-- So does marking both. -/
theorem SamePerms.shade {c c' : Cells} (h : c.SamePerms c') (pa mask : U32) (n : Nat) :
    (c.shade pa mask n).SamePerms (c'.shade pa mask n) := by
  intro q
  unfold Cells.shade
  split
  · obtain ⟨h1, h2⟩ | ⟨b, b', p, h1, h2⟩ := h.cases q
    · rw [h1, h2]
    · rw [h1, h2]
      rfl
  · exact h q

/-- A byte that a store writes in the same way is the same afterwards. -/
theorem put_eq_of_mem {c c' : Cells} (h : c.SamePerms c') {pa q : U32} {bs bs' : List U8} {b : U8}
    (hb : bs[(q - pa).toNat]? = some b) (hb' : bs'[(q - pa).toNat]? = some b) :
    c'.put pa bs' q = c.put pa bs q := by
  unfold Cells.put
  rw [hb, hb']
  obtain ⟨h1, h2⟩ | ⟨b, b', p, h1, h2⟩ := h.cases q
  · rw [h1, h2]
  · rw [h1, h2]
    rfl

/-- A write byte by byte. -/
theorem put_cons (c : Cells) (a : U32) (b : U8) {bs : List U8} (h : bs.length < 2 ^ 32) :
    c.put a (b :: bs) = (c.put a [b]).put (a + 1) bs := by
  funext q
  unfold Cells.put
  by_cases hq : q = a
  · subst hq
    have h1 : (q - (q + 1)).toNat = 2 ^ 32 - 1 := by
      rw [BitVec.toNat_sub, BitVec.toNat_add]
      have := q.isLt
      simp
      omega
    have h0 : (q - q).toNat = 0 := by simp
    have hnone : bs[2 ^ 32 - 1]? = none := List.getElem?_eq_none (by omega)
    rw [h0, h1, hnone]
    rfl
  · have hne : (q - a).toNat ≠ 0 := by
      intro h0
      refine hq (BitVec.eq_of_toNat_eq ?_)
      rw [BitVec.toNat_sub] at h0
      have h1 := q.isLt
      have h2 := a.isLt
      omega
    obtain ⟨j, hj⟩ := Nat.exists_eq_succ_of_ne_zero hne
    have h1 : (q - (a + 1)).toNat = j := by
      rw [BitVec.toNat_sub] at hj ⊢
      rw [BitVec.toNat_add]
      have h1 := q.isLt
      have h2 := a.isLt
      simp
      omega
    rw [hj, h1, List.getElem?_cons_succ, List.getElem?_cons_succ]
    rfl

end Cells

/-- What two loads of the same span give: the same fault, or words that agree in every byte that does
not come from a cell with different contents. -/
def TwinLoad {β : Type} [Bus β] [RamBus β] [TaintRam β] (b c : β) (pa : U32) (n : Nat) : Prop :=
  (∃ f, Bus.load b pa n = .error f ∧ Bus.load c pa n = .error f) ∨
    ∃ v w, Bus.load b pa n = .ok v ∧ Bus.load c pa n = .ok w ∧ ∀ i < 4,
      (i < n → TaintRam.backed b pa = true →
        RamBus.cells c (pa + BitVec.ofNat 32 i) = RamBus.cells b (pa + BitVec.ofNat 32 i)) →
      byteOf v i = byteOf w i

/-- A bus whose answers depend on the bytes of RAM only in the bytes that it loads. `Rest` says that
two of them share the rest of their state, but for what was stored at a `quiet` address, which no load
gives back. A refused store writes no byte from the refused one on. -/
class TwinBus (β : Type) [Bus β] [RamBus β] [TaintRam β] where
  Rest : β → β → Prop
  quiet : β → U32 → Bool
  quiet_same : ∀ b c, quiet c = quiet b
  quiet_unbacked : ∀ {b pa}, quiet b pa = true → TaintRam.backed b pa = false
  same : ∀ {b c : β}, Rest b c →
    TaintRam.backed c = TaintRam.backed b ∧ TaintRam.whole c = TaintRam.whole b
  load : ∀ {b c : β} {pa n}, Rest b c → RamBus.Ok b → RamBus.Ok c →
    (RamBus.cells b).SamePerms (RamBus.cells c) → AccessSize n → TwinLoad b c pa n
  ifetch16 : ∀ {b c : β} {pa}, Rest b c → RamBus.Ok b → RamBus.Ok c →
    (RamBus.cells b).SamePerms (RamBus.cells c) →
    (∀ i < 2, RamBus.cells c (pa + BitVec.ofNat 32 i) = RamBus.cells b (pa + BitVec.ofNat 32 i)) →
    Bus.ifetch16 c pa = Bus.ifetch16 b pa
  rawState : ∀ {b c : β} {pa n}, Rest b c → RamBus.Ok b → RamBus.Ok c → n ≤ 4 →
    (RamBus.cells b).SamePerms (RamBus.cells c) → Bus.readRawState c pa n = Bus.readRawState b pa n
  store : ∀ {b c : β} {pa n v w}, Rest b c → RamBus.Ok b → RamBus.Ok c →
    (RamBus.cells b).SamePerms (RamBus.cells c) → AccessSize n →
    (v = w ∨ ((Bus.store b pa n v).1 = .ok () → TaintRam.backed b pa = true ∨ quiet b pa = true)) →
    (Bus.store c pa n w).1 = (Bus.store b pa n v).1 ∧
      Rest (Bus.store b pa n v).2 (Bus.store c pa n w).2 ∧
      ∃ k, (∀ f, (Bus.store b pa n v).1 = .error f → k < n ∧ k ≤ (f.addr - pa).toNat) ∧
        (quiet b pa = true → k = 0) ∧
        RamBus.cells (Bus.store b pa n v).2 = (RamBus.cells b).put pa ((leBytes v n).take k) ∧
        RamBus.cells (Bus.store c pa n w).2 = (RamBus.cells c).put pa ((leBytes w n).take k)
  shadow : ∀ {b c : β} pa n mask, Rest b c →
    Rest (Bus.writeShadow b pa n mask) (Bus.writeShadow c pa n mask)
  unbacked : ∀ {b c : β} {pa n mask}, Rest b c → TaintRam.backed b pa = false →
    Bus.writeShadow b pa n mask = b ∧ Bus.writeShadow c pa n mask = c

/-! ## The flat memory -/

namespace Mmu

/-- Two memories with one window and the same permissions. -/
structure Twins (m m' : Mmu) : Prop where
  base : m'.base = m.base
  size : m'.size = m.size
  perms : ∀ {q off}, m.offset q = some off → m'.perms off = m.perms off

variable {m m' : Mmu}

/-- Memories with one window and the same permissions are twins. -/
theorem twins_of_cells (hb : m'.base = m.base) (hs : m'.size = m.size)
    (h : m.cells.SamePerms m'.cells) : Twins m m' := by
  refine ⟨hb, hs, fun {q off} ho => ?_⟩
  have ho' : m'.offset q = some off := by rwa [offset, hb, hs]
  have hq := h q
  rw [cells, cells, ho, ho'] at hq
  exact Option.some.inj hq

/-- Twins have the same offsets. -/
theorem Twins.offset (h : Twins m m') : m'.offset = m.offset := by
  funext q
  rw [Mmu.offset, h.base, h.size]
  rfl

/-- The bytes of a span that does not wrap. -/
theorem offset_add {a : U32} {off n i : Nat} (hw : a.toNat + n ≤ 2 ^ 32) (ho : m.offset a = some off)
    (hs : off + n ≤ m.size) (hi : i < n) : m.offset (a + BitVec.ofNat 32 i) = some (off + i) := by
  obtain ⟨hb, -⟩ := windowOffset_eq_some.1 ho
  refine windowOffset_eq_some.2 ⟨?_, by omega⟩
  rw [BitVec.toNat_add, BitVec.toNat_ofNat]
  omega

/-- They serve the same spans. -/
theorem Twins.spanHas (h : Twins m m') {need : U8} {a : U32} {n : Nat} (hw : a.toNat + n ≤ 2 ^ 32) :
    m'.spanHas need a n = m.spanHas need a n := by
  apply Option.ext
  intro off
  rw [spanHas_eq_some, spanHas_eq_some, h.offset, h.size]
  refine and_congr_right fun ho => and_congr_right fun hs => forall₂_congr fun i hi => ?_
  rw [h.perms (offset_add hw ho hs hi)]

/-- They refuse a read at the same byte. -/
theorem Twins.readLoop_error (h : Twins m m') {need : U8} {access : Access} {len : U32} {f : Fault} :
    ∀ {n : Nat} {a : U32}, readLoop m.offset m.mem m.perms need access len a n = .error f →
      readLoop m'.offset m'.mem m'.perms need access len a n = .error f := by
  rw [h.offset]
  intro n
  induction n with
  | zero => exact fun h => nomatch h
  | succ n ih =>
    intro a hr
    rw [readLoop] at hr ⊢
    cases ho : m.offset a with
    | none =>
      rw [ho] at hr
      exact hr
    | some off =>
      rw [ho] at hr
      dsimp only at hr ⊢
      rw [h.perms ho]
      split
      next hp =>
        rw [if_pos hp] at hr
        exact hr
      next hp =>
        rw [if_neg hp] at hr
        cases hrest : readLoop m.offset m.mem m.perms need access len (a + 1) n with
        | ok bs =>
          rw [hrest] at hr
          cases hr
        | error e =>
          rw [hrest] at hr
          cases hr
          rw [ih hrest]
          rfl

/-- A checked access to the two memories: the same fault, or their bytes at the same offset. -/
theorem Twins.span_or_fault (h : Twins m m') {need : U8} {access : Access} {a : U32} {n : Nat}
    (hw : a.toNat + n ≤ 2 ^ 32) (h0 : 0 < n) :
    (∃ f, m.spanHas need a n = none ∧ m'.spanHas need a n = none ∧
      m.readBytewise need access a n = .error f ∧ m'.readBytewise need access a n = .error f) ∨
    ∃ off, m.offset a = some off ∧ off + n ≤ m.size ∧ m.spanHas need a n = some off ∧
      m'.spanHas need a n = some off := by
  rw [h.spanHas hw]
  cases hsp : m.spanHas need a n with
  | some off =>
    obtain ⟨ho, hs, -⟩ := spanHas_eq_some.1 hsp
    exact .inr ⟨off, ho, hs, rfl, rfl⟩
  | none =>
    cases hr : m.readBytewise need access a n with
    | error f => exact .inl ⟨f, rfl, rfl, rfl, h.readLoop_error hr⟩
    | ok bs =>
      obtain ⟨off, hoff⟩ := readLoop_ok hw h0 hr
      rw [spanHas_eq_some.2 hoff] at hsp
      cases hsp

/-- The value of the bytes of an access. -/
theorem load_eq (m : Mmu) {pa : U32} {n : Nat} (hn : AccessSize n) : m.load pa n =
    if pa.toNat % n = 0 then (m.read pa n).map leValue
    else .error ⟨pa, BitVec.ofNat 32 n, .read, .unaligned⟩ := by
  rcases hn with rfl | rfl | rfl
  · rw [if_pos (Nat.mod_one _)]
    change (m.readU8 pa).map _ = _
    unfold readU8
    cases hr : m.read pa 1 with
    | error f => rfl
    | ok bs =>
      have hl : bs.length = 1 := by
        obtain ⟨off, -, -, -, rfl⟩ := (read_eq_ok (by have := pa.isLt; omega) Nat.one_pos).1 hr
        exact length_readSpan _ _ _
      exact congrArg Except.ok (leValue_setWidth (by rw [hl]))
  · change (m.readU16 pa).map _ = _
    unfold readU16 checkAlign
    split
    next ha =>
      cases hr : m.read pa 2 with
      | error f => rfl
      | ok bs =>
        have hl : bs.length = 2 := by
          obtain ⟨off, -, -, -, rfl⟩ :=
            (read_eq_ok (aligned_no_wrap (.inr (.inl rfl)) ha) Nat.two_pos).1 hr
          exact length_readSpan _ _ _
        exact congrArg Except.ok (leValue_setWidth (by rw [hl]))
    next => rfl
  · change m.readU32 pa = _
    unfold readU32 checkAlign
    split
    next => cases m.read pa 4 <;> rfl
    next => rfl

/-- The byte at an offset. -/
theorem cells_of_offset {q : U32} {off : Nat} (ho : m.offset q = some off) :
    m.cells q = some (m.mem off, m.perms off) := by
  rw [cells, ho]
  rfl

/-- The bytes of equal cells are equal. -/
theorem Twins.mem (h : Twins m m') {q : U32} {off : Nat} (ho : m.offset q = some off)
    (hc : m'.cells q = m.cells q) : m'.mem off = m.mem off := by
  have ho' : m'.offset q = some off := by rw [h.offset, ho]
  rw [cells_of_offset ho, cells_of_offset ho'] at hc
  exact congrArg Prod.fst (Option.some.inj hc)

/-- They load words that agree where their bytes do. -/
theorem Twins.load (h : Twins m m') {pa : U32} {n : Nat} (hn : AccessSize n) : TwinLoad m m' pa n := by
  have h0 : 0 < n := by rcases hn with rfl | rfl | rfl <;> decide
  change (∃ f, m.load pa n = .error f ∧ m'.load pa n = .error f) ∨
    ∃ v w, m.load pa n = .ok v ∧ m'.load pa n = .ok w ∧ ∀ i < 4, (i < n → true = true →
      m'.cells (pa + BitVec.ofNat 32 i) = m.cells (pa + BitVec.ofNat 32 i)) → byteOf v i = byteOf w i
  rw [m.load_eq hn, m'.load_eq hn]
  split
  next ha =>
    have hw := aligned_no_wrap hn ha
    unfold read
    rcases h.span_or_fault hw h0 with
      ⟨f, hs, hs', hr, hr'⟩ | ⟨off, ho, hsz, hs, hs'⟩
    · rw [hs, hs', hr, hr']
      exact .inl ⟨f, rfl, rfl⟩
    · rw [hs, hs']
      refine .inr ⟨_, _, rfl, rfl, fun i hi hc => ?_⟩
      rw [byteOf_leValue hi, byteOf_leValue hi]
      by_cases hin : i < n
      · rw [getElem?_readSpan _ _ hin, getElem?_readSpan _ _ hin,
          h.mem (offset_add hw ho hsz hin) (hc hin rfl)]
      · rw [List.getElem?_eq_none (by rw [length_readSpan]; omega),
          List.getElem?_eq_none (by rw [length_readSpan]; omega)]
  next => exact .inl ⟨_, rfl, rfl⟩

/-- They fetch alike if the two bytes agree. -/
theorem Twins.fetchU16 (h : Twins m m') {pa : U32}
    (hc : ∀ i < 2, m'.cells (pa + BitVec.ofNat 32 i) = m.cells (pa + BitVec.ofNat 32 i)) :
    m'.fetchU16 pa = m.fetchU16 pa := by
  unfold Mmu.fetchU16 checkAlign
  split
  next ha =>
    have hw := aligned_no_wrap (.inr (.inl rfl)) ha
    unfold fetchBytes
    rcases h.span_or_fault hw Nat.two_pos with
      ⟨f, hs, hs', hr, hr'⟩ | ⟨off, ho, hsz, hs, hs'⟩
    · rw [hs, hs', hr, hr']
    · have hspan : readSpan m'.mem off 2 = readSpan m.mem off 2 := by
        refine List.ext_getElem? fun i => ?_
        by_cases hi : i < 2
        · rw [getElem?_readSpan _ _ hi, getElem?_readSpan _ _ hi,
            h.mem (offset_add hw ho hsz hi) (hc i hi)]
        · rw [List.getElem?_eq_none (by rw [length_readSpan]; omega),
            List.getElem?_eq_none (by rw [length_readSpan]; omega)]
      rw [hs, hs']
      dsimp only
      rw [hspan]
  next => rfl

/-- A byte written into both. -/
theorem Twins.putByte (h : Twins m m') (off : Nat) (b b' : U8) :
    Twins (m.putByte off b) (m'.putByte off b') := by
  have hp := samePlanes_putByte m off b
  have hp' := samePlanes_putByte m' off b'
  refine ⟨hp'.base.trans (h.base.trans hp.base.symm), hp'.size.trans (h.size.trans hp.size.symm),
    fun {q o} ho => ?_⟩
  have ho' : m.offset q = some o := by
    rwa [Mmu.offset, hp.base, hp.size] at ho
  rw [hp.perms, hp'.perms]
  dsimp only
  by_cases ho : o = off
  · subst ho
    rw [setAt_self, setAt_self, h.perms ho']
  · rw [setAt_of_ne _ _ ho, setAt_of_ne _ _ ho, h.perms ho']

/-- A byte write as one of cells. -/
theorem putByte_cells {a : U32} {off : Nat} (ho : m.offset a = some off) (b : U8) :
    (m.putByte off b).cells = m.cells.put a [b] := by
  obtain ⟨hb, -⟩ := windowOffset_eq_some.1 ho
  have hw : (m.putByte off b).cells = (m.wrote (a.toNat - m.base.toNat) [b]).cells := by
    rw [cells_congr (samePlanes_putByte m off b), show a.toNat - m.base.toNat = off by omega]
    simp only [wrote, setSpan_cons, setSpan_nil, List.length_singleton, mapSpan_succ, mapSpan_zero]
  have ha := a.isLt
  rw [hw, cells_wrote (by omega) (by rw [List.length_singleton]; omega)]

/-- Two byte-wise writes stop at the same byte. -/
theorem Twins.writeLoop (len : U32) {data : List U8} : ∀ {m m' : Mmu} {data' : List U8} {a : U32},
    Twins m m' → data'.length = data.length → data.length < 2 ^ 32 →
    (writeLoop m'.offset Mmu.perms Mmu.putByte len m' a data').1 =
        (writeLoop m.offset Mmu.perms Mmu.putByte len m a data).1 ∧
      ∃ k ≤ data.length,
        (∀ f, (writeLoop m.offset Mmu.perms Mmu.putByte len m a data).1 = .error f →
            f.addr = a + BitVec.ofNat 32 k ∧ k < data.length) ∧
        (writeLoop m.offset Mmu.perms Mmu.putByte len m a data).2.cells =
            m.cells.put a (data.take k) ∧
          (writeLoop m'.offset Mmu.perms Mmu.putByte len m' a data').2.cells =
            m'.cells.put a (data'.take k) := by
  induction data with
  | nil =>
    intro m m' data' a h hl _
    obtain rfl := List.length_eq_zero_iff.1 hl
    exact ⟨rfl, 0, Nat.le_refl 0, fun f hf => (nomatch hf), rfl, rfl⟩
  | cons b bs ih =>
    intro m m' data' a h hl hlt
    rcases data' with _ | ⟨b', bs'⟩
    · cases hl
    rw [FuzzSoft.writeLoop, FuzzSoft.writeLoop, h.offset]
    cases ho : m.offset a with
    | none =>
      refine ⟨rfl, 0, Nat.zero_le _, fun f hf => ?_, rfl, rfl⟩
      cases hf
      exact ⟨(BitVec.add_zero a).symm, Nat.succ_pos _⟩
    | some off =>
      dsimp only
      rw [h.perms ho]
      split
      · refine ⟨rfl, 0, Nat.zero_le _, fun f hf => ?_, rfl, rfl⟩
        cases hf
        exact ⟨(BitVec.add_zero a).symm, Nat.succ_pos _⟩
      · have ho' : m'.offset a = some off := by rw [h.offset, ho]
        have hoff : ∀ (m : Mmu) (b : U8), (m.putByte off b).offset = m.offset := by
          intro m b
          funext q
          rw [Mmu.offset, (samePlanes_putByte m off b).base, (samePlanes_putByte m off b).size]
          rfl
        simp only [List.length_cons] at hl hlt
        obtain ⟨hout, k, hk, hf, hc, hc'⟩ := ih (a := a + 1) (h.putByte off b b')
          (Nat.succ.inj hl) (by omega)
        simp only [hoff, h.offset] at hout hf hc hc'
        refine ⟨hout, k + 1, Nat.succ_le_succ hk, fun f he => ?_, ?_, ?_⟩
        · obtain ⟨hfa, hlt'⟩ := hf f he
          refine ⟨?_, Nat.succ_lt_succ hlt'⟩
          rw [hfa, BitVec.add_assoc, BitVec.add_comm 1, BitVec.ofNat_add]
          rfl
        · rw [hc, putByte_cells ho, List.take_succ_cons]
          exact (Cells.put_cons _ _ _ (by rw [List.length_take]; omega)).symm
        · rw [hc', putByte_cells ho', List.take_succ_cons]
          exact (Cells.put_cons _ _ _ (by rw [List.length_take]; omega)).symm

/-- They refuse a store at the same byte, and write as many bytes. -/
theorem Twins.store (h : Twins m m') (pa v w : U32) {n : Nat} (hn : AccessSize n) :
    (m'.store pa n w).1 = (m.store pa n v).1 ∧ ∃ k,
      (∀ f, (m.store pa n v).1 = .error f → k < n ∧ k ≤ (f.addr - pa).toNat) ∧
      (m.store pa n v).2.cells = m.cells.put pa ((leBytes v n).take k) ∧
        (m'.store pa n w).2.cells = m'.cells.put pa ((leBytes w n).take k) := by
  have hst : ∀ (m : Mmu) v, m.store pa n v = m.writeAligned pa n v := by
    rcases hn with rfl | rfl | rfl <;> exact fun _ _ => rfl
  have h0 : 0 < n := by rcases hn with rfl | rfl | rfl <;> decide
  rw [hst, hst]
  unfold writeAligned checkAlign
  split
  next f ha => exact ⟨rfl, 0, fun _ _ => ⟨h0, Nat.zero_le _⟩, rfl, rfl⟩
  next u ha =>
    have ha' : pa.toNat % n = 0 := by
      by_contra hne
      rw [if_neg hne] at ha
      cases ha
    have hw := aligned_no_wrap hn ha'
    unfold write
    rw [length_leBytes, length_leBytes, h.spanHas hw]
    cases hs : m.spanHas PERM_WRITE pa n with
    | some off =>
      have hput : ∀ {m : Mmu} (v : U32), m.spanHas PERM_WRITE pa n = some off →
          (m.putSpan off (leBytes v n)).cells = m.cells.put pa (leBytes v n) := by
        intro m v hs
        obtain ⟨ho, hsz, -⟩ := spanHas_eq_some.1 hs
        obtain ⟨hb, -⟩ := windowOffset_eq_some.1 ho
        rw [cells_congr (samePlanes_putSpan m off (leBytes v n)),
          ← cells_wrote (by omega) (by rwa [length_leBytes]), show pa.toNat - m.base.toNat = off by omega]
        rfl
      refine ⟨rfl, n, by rintro f ⟨⟩, ?_, ?_⟩
      · rw [List.take_of_length_le (by rw [length_leBytes])]
        exact hput v hs
      · rw [List.take_of_length_le (by rw [length_leBytes])]
        exact hput w (by rw [h.spanHas hw, hs])
    | none =>
      unfold writeBytewise
      rw [length_leBytes, length_leBytes]
      have hlen : (leBytes v n).length < 2 ^ 32 := by
        rw [length_leBytes]
        rcases hn with rfl | rfl | rfl <;> decide
      obtain ⟨hout, k, -, hf, hc, hc'⟩ :=
        @Twins.writeLoop (BitVec.ofNat 32 n) _ _ _ (leBytes w n) pa h
          (by rw [length_leBytes, length_leBytes]) hlen
      refine ⟨hout, k, fun f he => ?_, hc, hc'⟩
      obtain ⟨hk, hlt⟩ := hf f he
      rw [length_leBytes] at hlt hlen
      have hsub : (f.addr - pa).toNat = k := by
        rw [hk, BitVec.add_comm, BitVec.add_sub_cancel, BitVec.toNat_ofNat]
        omega
      exact ⟨hlt, hsub.ge⟩

/-- A store keeps the window. -/
theorem store_window (m : Mmu) (pa : U32) (n : Nat) (v : U32) :
    (m.store pa n v).2.base = m.base ∧ (m.store pa n v).2.size = m.size := by
  obtain ⟨k, -, -, hpl, -⟩ := m.store_prefixed pa n v
  exact ⟨hpl.base, hpl.size⟩

/-- A scatter keeps the window. -/
theorem writeShadow_window (m : Mmu) (pa : U32) (n : Nat) (mask : U32) :
    (m.writeShadow pa n mask).base = m.base ∧ (m.writeShadow pa n mask).size = m.size := by
  unfold writeShadow
  generalize List.range (min n 4) = is
  induction is generalizing m with
  | nil => exact ⟨rfl, rfl⟩
  | cons i is ih =>
    rw [List.foldl_cons]
    obtain ⟨hb, hs⟩ := ih (shadowByte pa mask m i)
    rw [hb, hs]
    unfold shadowByte
    split <;> exact ⟨rfl, rfl⟩

instance : TwinBus Mmu where
  Rest m m' := m'.base = m.base ∧ m'.size = m.size
  quiet _ _ := false
  quiet_same _ _ := rfl
  quiet_unbacked h := absurd h Bool.false_ne_true
  same _ := ⟨rfl, rfl⟩
  load h _ _ hp hn := (twins_of_cells h.1 h.2 hp).load hn
  ifetch16 h _ _ hp hc := (twins_of_cells h.1 h.2 hp).fetchU16 hc
  rawState {m m' pa n} h _ _ hn hp := by
    change m'.readRawState pa n = m.readRawState pa n
    rw [m'.readRawState_cells pa hn, m.readRawState_cells pa hn]
    congr 1
    funext i
    exact hp.has _ _
  store {m m' pa n v w} h _ _ hp hn _ := by
    obtain ⟨hb, hs⟩ := m.store_window pa n v
    obtain ⟨hb', hs'⟩ := m'.store_window pa n w
    obtain ⟨hout, k, hk, hc, hc'⟩ := (twins_of_cells h.1 h.2 hp).store pa v w hn
    exact ⟨hout, ⟨hb'.trans (h.1.trans hb.symm), hs'.trans (h.2.trans hs.symm)⟩, k, hk,
      fun hq => absurd hq Bool.false_ne_true, hc, hc'⟩
  shadow {m m'} pa n mask h := by
    obtain ⟨hb, hs⟩ := m.writeShadow_window pa n mask
    obtain ⟨hb', hs'⟩ := m'.writeShadow_window pa n mask
    exact ⟨hb'.trans (h.1.trans hb.symm), hs'.trans (h.2.trans hs.symm)⟩
  unbacked _ h := nomatch h

end Mmu

/-! ## The copy-on-write memory -/

namespace CowRam

instance : TwinBus CowRam where
  Rest c c' := c'.golden.base = c.golden.base ∧ c'.golden.size = c.golden.size
  quiet _ _ := false
  quiet_same _ _ := rfl
  quiet_unbacked h := absurd h Bool.false_ne_true
  same {c c'} h := by
    refine ⟨rfl, ?_⟩
    change c'.onePage = c.onePage
    funext pa n
    unfold onePage CowRam.offset
    rw [h.1, h.2]
  load {c c' pa n} h hok hok' hp hn := by
    have := @Mmu.Twins.load _ _ (Mmu.twins_of_cells (m := c.flat) h.1 h.2 hp) pa n hn
    unfold TwinLoad at this ⊢
    change (∃ f, c.load pa n = .error f ∧ c'.load pa n = .error f) ∨
      ∃ v w, c.load pa n = .ok v ∧ c'.load pa n = .ok w ∧ _
    rw [hok.agree_flat.load, hok'.agree_flat.load]
    exact this
  ifetch16 {c c' pa} h hok hok' hp hc := by
    have := (Mmu.twins_of_cells (m := c.flat) h.1 h.2 hp).fetchU16 hc
    change c'.fetchU16 pa = c.fetchU16 pa
    rw [hok.agree_flat.fetchU16, hok'.agree_flat.fetchU16, this]
  rawState {c c' pa n} h hok hok' hn hp := by
    have : c'.flat.readRawState pa n = c.flat.readRawState pa n :=
      TwinBus.rawState (b := c.flat) (c := c'.flat) h trivial trivial hn hp
    change c'.readRawState pa n = c.readRawState pa n
    rw [hok.agree_flat.readRawState, hok'.agree_flat.readRawState]
    exact this
  store {c c' pa n v w} h hok hok' hp hn _ := by
    obtain ⟨ho, ha⟩ := hok.agree_flat.store pa v n
    obtain ⟨ho', ha'⟩ := hok'.agree_flat.store pa w n
    obtain ⟨hout, k, hf, hc, hc'⟩ :=
      (Mmu.twins_of_cells (m := c.flat) h.1 h.2 hp).store pa v w hn
    refine ⟨ho'.trans (hout.trans ho.symm), ?_, k, fun f he => hf f (ho.symm.trans he),
      fun hq => absurd hq Bool.false_ne_true, ha.cells.trans hc, ha'.cells.trans hc'⟩
    rw [show (Bus.store c pa n v).2.golden = c.golden from c.golden_store pa n v,
      show (Bus.store c' pa n w).2.golden = c'.golden from c'.golden_store pa n w]
    exact h
  shadow {c c'} pa n mask h := by
    rw [show (Bus.writeShadow c pa n mask).golden = c.golden from c.golden_writeShadow pa n mask,
      show (Bus.writeShadow c' pa n mask).golden = c'.golden from c'.golden_writeShadow pa n mask]
    exact h
  unbacked _ h := nomatch h

end CowRam

/-! ## The machine -/

/-- No device lies over RAM. -/
def MachineOf.Apart {ρ : Type} (m : MachineOf ρ) : Prop :=
  ∀ a, FuzzSoft.inRam a m.ramBase m.ramEnd = true → inClint a = false ∧ inUart a = false

instance {ρ : Type} [Bus ρ] [RamBus ρ] [TaintRam ρ] [TwinBus ρ] : TwinBus (MachineOf ρ) where
  Rest m m' := m.Apart ∧ m'.ramBase = m.ramBase ∧ m'.ramEnd = m.ramEnd ∧ m'.clint = m.clint ∧
    TwinBus.Rest m.ram m'.ram
  quiet _ pa := !inClint pa && inUart pa
  quiet_same _ _ := rfl
  quiet_unbacked {m pa} h := by
    refine Bool.eq_false_iff.2 fun hb => ?_
    rw [(MachineOf.backed_iff.1 hb).2.1, Bool.and_false] at h
    cases h
  same {m m'} h := by
    obtain ⟨-, hb, he, -, hr⟩ := h
    obtain ⟨hback, hwhole⟩ := TwinBus.same hr
    refine ⟨?_, hwhole⟩
    change m'.backed = m.backed
    funext pa
    unfold MachineOf.backed MachineOf.inRam
    rw [hback, hb, he]
  load {m m' pa n} h hok hok' hp hn := by
    obtain ⟨-, hb, he, hc, hr⟩ := h
    change (∃ f, m.load pa n = .error f ∧ m'.load pa n = .error f) ∨
      ∃ v w, m.load pa n = .ok v ∧ m'.load pa n = .ok w ∧ ∀ i < 4, (i < n → m.backed pa = true → _) → _
    unfold MachineOf.load MachineOf.inRam
    rw [hb, he, hc]
    split
    · exact .inr ⟨_, _, rfl, rfl, fun _ _ _ => rfl⟩
    split
    · exact .inr ⟨_, _, rfl, rfl, fun _ _ _ => rfl⟩
    next hcl hua =>
      split
      next hin =>
        rcases TwinBus.load hr hok hok' hp hn with ⟨f, h1, h2⟩ | ⟨v, w, h1, h2, heq⟩
        · exact .inl ⟨f, h1, h2⟩
        · refine .inr ⟨v, w, h1, h2, fun i hi hcell => heq i hi fun hin' hback => hcell hin' ?_⟩
          exact MachineOf.backed_iff.2 ⟨by simpa using hcl, by simpa using hua, hin, hback⟩
      next => exact .inl ⟨_, rfl, rfl⟩
  ifetch16 {m m' pa} h hok hok' hp hcell := by
    obtain ⟨-, hb, he, -, hr⟩ := h
    change m'.ifetch16 pa = m.ifetch16 pa
    unfold MachineOf.ifetch16 MachineOf.inRam
    rw [hb, he]
    split
    · exact TwinBus.ifetch16 hr hok hok' hp hcell
    · rfl
  rawState {m m' pa n} h hok hok' hn hp := by
    obtain ⟨-, hb, he, -, hr⟩ := h
    change m'.readRawState pa n = m.readRawState pa n
    unfold MachineOf.readRawState MachineOf.inRam
    rw [hb, he]
    split
    · exact TwinBus.rawState hr hok hok' hn hp
    · rfl
  store {m m' pa n v w} h hok hok' hp hn hv := by
    have hrest := h
    have h0 : 0 < n := by rcases hn with rfl | rfl | rfl <;> decide
    obtain ⟨ha, hb, he, hc, hr⟩ := h
    change v = w ∨ ((m.store pa n v).1 = .ok () → m.backed pa = true ∨ (!inClint pa && inUart pa) = true) at hv
    change (m'.store pa n w).1 = (m.store pa n v).1 ∧
      ((m.store pa n v).2.Apart ∧ (m'.store pa n w).2.ramBase = (m.store pa n v).2.ramBase ∧
        (m'.store pa n w).2.ramEnd = (m.store pa n v).2.ramEnd ∧
        (m'.store pa n w).2.clint = (m.store pa n v).2.clint ∧
        TwinBus.Rest (m.store pa n v).2.ram (m'.store pa n w).2.ram) ∧
      ∃ k, (∀ f, (m.store pa n v).1 = .error f → k < n ∧ k ≤ (f.addr - pa).toNat) ∧
        ((!inClint pa && inUart pa) = true → k = 0) ∧
        RamBus.cells (m.store pa n v).2.ram =
          (RamBus.cells m.ram).put pa ((leBytes v n).take k) ∧
        RamBus.cells (m'.store pa n w).2.ram =
          (RamBus.cells m'.ram).put pa ((leBytes w n).take k)
    unfold MachineOf.store MachineOf.inRam
    rw [hb, he]
    split
    next hcl =>
      obtain rfl : v = w := by
        refine hv.resolve_right fun hv => ?_
        have hok : (m.store pa n v).1 = .ok () := by
          unfold MachineOf.store
          rw [if_pos hcl]
        rcases hv hok with hback | hq
        · rw [(MachineOf.backed_iff.1 hback).1] at hcl
          cases hcl
        · rw [hcl] at hq
          cases hq
      exact ⟨rfl, ⟨ha, rfl, rfl, by rw [hc], hr⟩, 0, fun _ h => (nomatch h), fun _ => rfl, rfl, rfl⟩
    split
    next hua =>
      exact ⟨rfl, ⟨ha, rfl, rfl, hc, hr⟩, 0, fun _ h => (nomatch h), fun _ => rfl, rfl, rfl⟩
    next hcl hua =>
      have hloud : (!inClint pa && inUart pa) = false := by
        rw [Bool.eq_false_iff.2 hua, Bool.and_false]
      split
      next hin =>
        have hv' : v = w ∨ ((Bus.store m.ram pa n v).1 = .ok () →
            TaintRam.backed m.ram pa = true ∨ TwinBus.quiet m.ram pa = true) := by
          refine hv.imp_right fun hv hok => .inl ?_
          have hin' : m.inRam pa = true := hin
          rcases hv (by rw [MachineOf.store, if_neg hcl, if_neg hua, if_pos hin']; exact hok) with
            hback | hq
          · exact (MachineOf.backed_iff.1 hback).2.2.2
          · rw [hloud] at hq
            cases hq
        obtain ⟨hout, hr', k, hk, -, hcells⟩ := TwinBus.store hr hok hok' hp hn hv'
        exact ⟨hout, ⟨ha, rfl, rfl, hc, hr'⟩, k, hk,
          fun hq => absurd (hloud.symm.trans hq) Bool.false_ne_true, hcells⟩
      next =>
        exact ⟨rfl, hrest, 0, fun _ _ => ⟨h0, Nat.zero_le _⟩, fun _ => rfl, rfl, rfl⟩
  shadow {m m'} pa n mask h := by
    have hrest := h
    obtain ⟨ha, hb, he, hc, hr⟩ := h
    change (m.writeShadow pa n mask).Apart ∧
      (m'.writeShadow pa n mask).ramBase = (m.writeShadow pa n mask).ramBase ∧
      (m'.writeShadow pa n mask).ramEnd = (m.writeShadow pa n mask).ramEnd ∧
      (m'.writeShadow pa n mask).clint = (m.writeShadow pa n mask).clint ∧
      TwinBus.Rest (m.writeShadow pa n mask).ram (m'.writeShadow pa n mask).ram
    unfold MachineOf.writeShadow MachineOf.inRam
    rw [hb, he]
    split
    · exact ⟨ha, rfl, rfl, hc, TwinBus.shadow pa n mask hr⟩
    · exact hrest
  unbacked {m m' pa n mask} h hback := by
    obtain ⟨ha, hb, he, hc, hr⟩ := h
    have hkey : m.inRam pa = true → Bus.writeShadow m.ram pa n mask = m.ram ∧
        Bus.writeShadow m'.ram pa n mask = m'.ram := by
      intro hin
      obtain ⟨hcl, hua⟩ := ha pa hin
      refine TwinBus.unbacked hr ?_
      by_contra hne
      have hback' : m.backed pa = true :=
        MachineOf.backed_iff.2 ⟨hcl, hua, hin, by simpa using hne⟩
      exact absurd (hback'.symm.trans hback) (by decide)
    change m.writeShadow pa n mask = m ∧ m'.writeShadow pa n mask = m'
    unfold MachineOf.writeShadow
    rw [show m'.inRam pa = m.inRam pa by unfold MachineOf.inRam; rw [hb, he]]
    split
    next hin =>
      obtain ⟨h1, h2⟩ := hkey hin
      rw [h1, h2]
      exact ⟨rfl, rfl⟩
    next => exact ⟨rfl, rfl⟩

end FuzzSoft
