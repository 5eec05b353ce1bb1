import FuzzSoft.Mmu.Dirty
import FuzzSoft.Mmu.Lockstep
import FuzzSoft.Platform.PageTables

/-!
# Direct memory access of compiled code

Compiled code asks for a host pointer before it loads or stores, and goes through the pointer when it
gets one. At the RAM a granted pointer stands for the checked access, side effects included
(`FastRam`, with the flat and the copy-on-write memory as instances). Above it the address comes from
the TLB alone and the machine routes it. The machine grants by the bounds of its RAM, its loads and
stores by its address window, and the two differ for a window that reaches the top of the address
space (`fastAccess_iff`).
-/

namespace FuzzSoft

open Lib

/-- A RAM whose pointers stand for its checked accesses. `Ok` is the invariant of its
representation; `base` and `size` give its window. -/
class FastRam (ρ : Type) [Bus ρ] where
  Ok : ρ → Prop
  base : ρ → U32
  size : ρ → Nat
  window : ∀ {r r' : ρ} {pa n need p}, Bus.fastPtr r pa n need = (some p, r') →
    ∃ off, windowOffset (base r) (size r) pa = some off
  load : ∀ {r r' : ρ} {pa n p}, Ok r → AccessSize n → pa.toNat % n = 0 →
    Bus.fastPtr r pa n PERM_READ = (some p, r') →
      r' = r ∧ Bus.load r pa n = .ok (leValue (Bus.ptrLoad r p n))
  store : ∀ {r r' : ρ} {pa n p}, Ok r → AccessSize n → pa.toNat % n = 0 →
    Bus.fastPtr r pa n STORE_NEED = (some p, r') →
      ∀ v, Bus.store r pa n v = (.ok (), Bus.ptrStore r' p (leBytes v n))

/-! ## Permission bytes -/

/-- A grant for loads may be read. -/
theorem fastPerm_read {p : U8} (h : fastPerm PERM_READ p = true) : p &&& PERM_READ ≠ 0 := by
  revert p
  decide

/-- A grant for stores may be written. -/
theorem fastPerm_write {p : U8} (h : fastPerm STORE_NEED p = true) : p &&& PERM_WRITE ≠ 0 := by
  revert p
  decide

/-- A store changes nothing in a permission byte that the fast path accepts. -/
theorem fastPerm_written {p : U8} (h : fastPerm STORE_NEED p = true) : writtenPerm p = p := by
  revert p
  decide

/-- The upgrade of a span of accepted bytes is no change. -/
theorem mapSpan_written {perms : Nat → U8} {off n : Nat}
    (h : ∀ i < n, fastPerm STORE_NEED (perms (off + i)) = true) :
    mapSpan perms off n writtenPerm = perms := by
  funext o
  unfold mapSpan
  split
  next ho =>
    have := h (o - off) (by omega)
    rw [show off + (o - off) = o by omega] at this
    exact fastPerm_written this
  next => rfl

/-! ## The flat memory -/

namespace Mmu

/-- A block is listed once. -/
theorem markBlock_idem (m : Mmu) (blk : Nat) : (m.markBlock blk).markBlock blk = m.markBlock blk := by
  have h : (m.markBlock blk).blockBit blk = true := (blockBit_markBlock m blk blk).2 (.inr rfl)
  rw [markBlock.eq_1 (m.markBlock blk), if_pos h]

/-- Marking the block of every byte of a span marks the blocks from its first to its last, each
once: a further byte lies in the last block so far or in the next one. -/
theorem foldl_markDirty (m : Mmu) (off len : Nat) :
    (List.range' off (len + 1)).foldl markDirty m =
      (List.range' (off / DIRTY_BLOCK)
        ((off + len) / DIRTY_BLOCK + 1 - off / DIRTY_BLOCK)).foldl markBlock m := by
  induction len with
  | zero =>
    have hone : (off + 0) / DIRTY_BLOCK + 1 - off / DIRTY_BLOCK = 1 := Nat.add_sub_cancel_left _ 1
    rw [hone]
    rfl
  | succ len ih =>
    have hle : off / DIRTY_BLOCK ≤ (off + len) / DIRTY_BLOCK := Nat.div_le_div_right (by omega)
    rw [List.range'_1_concat, List.foldl_append, ih]
    have hlast : ∀ k, List.range' (off / DIRTY_BLOCK) (k + 1) =
        List.range' (off / DIRTY_BLOCK) k ++ [off / DIRTY_BLOCK + k] :=
      fun k => List.range'_1_concat
    obtain ⟨k, hk⟩ := Nat.exists_eq_add_of_le hle
    rcases (by simp only [DIRTY_BLOCK]; omega :
        (off + (len + 1)) / DIRTY_BLOCK = (off + len) / DIRTY_BLOCK ∨
        (off + (len + 1)) / DIRTY_BLOCK = (off + len) / DIRTY_BLOCK + 1) with he | he
    · rw [he, hk, show off / DIRTY_BLOCK + k + 1 - off / DIRTY_BLOCK = k + 1 by omega, hlast,
        List.foldl_append]
      simp only [List.foldl_cons, List.foldl_nil, markDirty, he, hk, markBlock_idem]
    · rw [he, hk, show off / DIRTY_BLOCK + k + 1 + 1 - off / DIRTY_BLOCK = k + 1 + 1 by omega,
        show off / DIRTY_BLOCK + k + 1 - off / DIRTY_BLOCK = k + 1 by omega, hlast (k + 1),
        List.foldl_append]
      simp only [List.foldl_cons, List.foldl_nil, markDirty, he, hk, Nat.add_assoc]

/-- What a granted pointer says. -/
theorem fastPtr_granted {m m' : Mmu} {pa : U32} {n : Nat} {need : U8} {p : HostPtr}
    (h : m.fastPtr pa n need = (some p, m')) : ∃ off, m.offset pa = some off ∧ p = .mem off ∧
      off + n ≤ m.size ∧ (∀ i < n, fastPerm need (m.perms (off + i)) = true) ∧
      m' = if need &&& PERM_WRITE ≠ 0 ∧ m.trackDirty then (List.range' off n).foldl markDirty m
        else m := by
  unfold fastPtr at h
  cases ho : m.offset pa with
  | none =>
    rw [ho] at h
    cases h
  | some off =>
    rw [ho] at h
    dsimp only at h
    split at h
    next hc =>
      refine ⟨off, rfl, ?_, hc.1, allSpan_eq_true.1 hc.2, ?_⟩ <;> split at h <;> cases h
      · rfl
      · rfl
      · rw [if_pos ‹_›]
      · rw [if_neg ‹_›]
    next => cases h

/-- The grant has marked the blocks, so the bytes are all that is left of a checked write. -/
theorem putSpan_eq_ptrStore {m : Mmu} {off n : Nat} {bs : List U8} (hl : bs.length = n)
    (hn : 0 < n) (hp : ∀ i < n, fastPerm STORE_NEED (m.perms (off + i)) = true) :
    m.putSpan off bs = (if STORE_NEED &&& PERM_WRITE ≠ 0 ∧ m.trackDirty then
      (List.range' off n).foldl markDirty m else m).ptrStore (.mem off) bs := by
  subst hl
  have hplanes : m.putSpan off bs = if m.trackDirty ∧ 0 < bs.length then
      ((List.range' (off / DIRTY_BLOCK) ((off + bs.length - 1) / DIRTY_BLOCK + 1 -
        off / DIRTY_BLOCK)).foldl markBlock (m.withPlanes (setSpan m.mem off bs) m.perms))
      else m.withPlanes (setSpan m.mem off bs) m.perms := by
    rw [putSpan, mapSpan_written hp]
    rfl
  rw [hplanes]
  by_cases ht : m.trackDirty = true
  · obtain ⟨k, hk⟩ := Nat.exists_eq_add_of_lt hn
    rw [Nat.zero_add] at hk
    have hpl : m.SamePlanes ((List.range' off bs.length).foldl markDirty m) :=
      samePlanes_foldl (fun m blk => samePlanes_markBlock m (blk / DIRTY_BLOCK)) _ m
    have hptr : ((List.range' off bs.length).foldl markDirty m).ptrStore (.mem off) bs =
        ((List.range' off bs.length).foldl markDirty m).withPlanes (setSpan m.mem off bs)
          m.perms := by
      rw [← hpl.mem, ← hpl.perms]
      rfl
    rw [if_pos ⟨ht, hn⟩, if_pos ⟨by decide, ht⟩, markBlocks_withPlanes, hptr, hk, foldl_markDirty]
    rfl
  · rw [if_neg fun h => ht h.1, if_neg fun h => ht h.2]
    rfl

instance : FastRam Mmu where
  Ok := fun _ => True
  base := Mmu.base
  size := Mmu.size
  window h := by
    obtain ⟨off, ho, -⟩ := fastPtr_granted h
    exact ⟨off, ho⟩
  load {m m' pa n p} _ hn ha h := by
    obtain ⟨off, ho, rfl, hs, hp, hm⟩ := fastPtr_granted h
    refine ⟨hm.trans (if_neg fun hc => hc.1 (by decide)), ?_⟩
    exact load_of_span hn ha (spanHas_eq_some.2 ⟨ho, hs, fun i hi => fastPerm_read (hp i hi)⟩)
  store {m m' pa n p} _ hn ha h v := by
    obtain ⟨off, ho, rfl, hs, hp, rfl⟩ := fastPtr_granted h
    have hspan := spanHas_eq_some.2 ⟨ho, hs, fun i hi => fastPerm_write (hp i hi)⟩
    refine (store_of_span hn ha hspan v).trans (congrArg (Prod.mk _) ?_)
    exact putSpan_eq_ptrStore (length_leBytes v n) (by rcases hn with rfl | rfl | rfl <;> decide) hp

end Mmu

/-! ## The copy-on-write view -/

namespace CowRam

/-- An aligned load that is served. -/
theorem load_of_span {c : CowRam} {pa : U32} {n off : Nat} (hn : AccessSize n)
    (ha : pa.toNat % n = 0) (h : c.spanHas PERM_READ pa n = some off) :
    c.load pa n = .ok (leValue (c.readPage off n)) := by
  have hread : c.read pa n = .ok (c.readPage off n) := by rw [read, h]
  have halign : checkAlign pa n .read = .ok () := if_pos ha
  rcases hn with rfl | rfl | rfl
  · have hw := @leValue_setWidth (c.readPage off 1) 8 rfl
    simpa [load, readU8, hread, bind, Except.bind, Except.map] using hw
  · have hw := @leValue_setWidth (c.readPage off 2) 16 rfl
    simpa [load, readU16, halign, hread, bind, Except.bind, Except.map] using hw
  · simp [load, readU32, halign, hread, bind, Except.bind]

/-- An aligned store that is served. -/
theorem store_of_span {c : CowRam} {pa : U32} {n off : Nat} (hn : AccessSize n)
    (ha : pa.toNat % n = 0) (h : c.spanHas PERM_WRITE pa n = some off) (v : U32) :
    c.store pa n v = (.ok (), c.putSpan off (leBytes v n)) := by
  have hst : c.store pa n v = c.writeAligned pa n v := by rcases hn with rfl | rfl | rfl <;> rfl
  have halign : checkAlign pa n .write = .ok () := if_pos ha
  rw [hst, writeAligned, halign]
  simp only [write, length_leBytes, h]

/-- What a granted pointer says of its span. -/
structure Granted (c : CowRam) (pa : U32) (n : Nat) (need : U8) (off : Nat) : Prop where
  offset : c.offset pa = some off
  size : off + n ≤ c.golden.size
  page : off % PAGE_SIZE + n ≤ PAGE_SIZE
  perms : ∀ i < n, fastPerm need ((c.resolve (off / PAGE_SIZE)).perms (off % PAGE_SIZE + i)) = true

/-- What a granted pointer of the copy-on-write memory stands for. -/
theorem fastPtr_granted {c c' : CowRam} {pa : U32} {n : Nat} {need : U8} {p : HostPtr}
    (h : c.fastPtr pa n need = (some p, c')) : ∃ off, Granted c pa n need off ∧
      if need &&& PERM_WRITE ≠ 0 then
        p = .page (c.ensurePage (off / PAGE_SIZE)).1 (off % PAGE_SIZE) ∧
          c' = (c.ensurePage (off / PAGE_SIZE)).2
      else p = (if c.dir (off / PAGE_SIZE) = SENTINEL then .golden off
          else .page (c.dir (off / PAGE_SIZE)).toNat (off % PAGE_SIZE)) ∧ c' = c := by
  unfold fastPtr at h
  cases ho : c.offset pa with
  | none =>
    rw [ho] at h
    cases h
  | some off =>
    rw [ho] at h
    dsimp only at h
    split at h
    · cases h
    next hs =>
    split at h
    next hp =>
      refine ⟨off, ⟨ho, by omega, by omega, allSpan_eq_true.1 hp⟩, ?_⟩
      split at h
      next hw =>
        cases h
        rw [if_pos hw]
        exact ⟨rfl, rfl⟩
      next hw =>
        rw [if_neg hw]
        split at h <;> cases h
        · rw [if_pos ‹_›]
          exact ⟨rfl, rfl⟩
        · rw [if_neg ‹_›]
          exact ⟨rfl, rfl⟩
    next => cases h

/-- A granted span is served. -/
theorem Granted.spanHas {c : CowRam} {pa : U32} {n off : Nat} {need : U8}
    (h : Granted c pa n need off) {q : U8} (hq : ∀ {p}, fastPerm need p = true → p &&& q ≠ 0) :
    c.spanHas q pa n = some off := by
  rw [CowRam.spanHas, h.offset]
  refine if_pos ⟨h.size, h.page, allSpan_eq_true.2 fun i hi => ?_⟩
  exact decide_eq_true (hq (h.perms i hi))

/-- The bytes behind the pointer are those of the view. -/
theorem ptrLoad_eq_readPage (c : CowRam) (off n : Nat) :
    c.ptrLoad (if c.dir (off / PAGE_SIZE) = SENTINEL then .golden off
      else .page (c.dir (off / PAGE_SIZE)).toNat (off % PAGE_SIZE)) n = c.readPage off n := by
  by_cases hd : c.dir (off / PAGE_SIZE) = SENTINEL
  · rw [if_pos hd, ptrLoad, readPage, resolve_golden hd]
    refine readSpan_congr fun i _ => ?_
    dsimp only
    rw [← Nat.add_assoc, pageOffset_eq]
  · rw [if_neg hd, ptrLoad, readPage, resolve_overlay hd]

/-- The grant has overlaid the page, so the bytes are all that is left of a checked write. -/
theorem Granted.putSpan {c : CowRam} (hinv : c.Inv) {pa : U32} {n off : Nat}
    (h : Granted c pa n STORE_NEED off) {bs : List U8} (hl : bs.length = n) :
    c.putSpan off bs = (c.ensurePage (off / PAGE_SIZE)).2.ptrStore
      (.page (c.ensurePage (off / PAGE_SIZE)).1 (off % PAGE_SIZE)) bs := by
  have hoff : off < 2 ^ 32 := by
    obtain ⟨hb, -⟩ := windowOffset_eq_some.1 h.offset
    have := pa.isLt
    omega
  have hpn : off / PAGE_SIZE < PAGES := Nat.div_lt_of_lt_mul hoff
  have he := hinv.ensurePage hpn
  have hperms : mapSpan ((c.ensurePage (off / PAGE_SIZE)).2.page
      (c.ensurePage (off / PAGE_SIZE)).1).perms (off % PAGE_SIZE) bs.length writtenPerm =
      ((c.ensurePage (off / PAGE_SIZE)).2.page (c.ensurePage (off / PAGE_SIZE)).1).perms := by
    refine mapSpan_written fun i hi => ?_
    rw [hl] at hi
    rw [(he.agree (off % PAGE_SIZE + i) ?_).2]
    · exact h.perms i hi
    · have := h.size
      rw [← Nat.add_assoc, pageOffset_eq]
      omega
  rw [CowRam.putSpan, updatePage, hperms]
  rfl

instance : FastRam CowRam where
  Ok := Inv
  base c := c.golden.base
  size c := c.golden.size
  window h := by
    obtain ⟨off, hg, -⟩ := fastPtr_granted h
    exact ⟨off, hg.offset⟩
  load {c c' pa n p} _ hn ha h := by
    obtain ⟨off, hg, hp⟩ := fastPtr_granted h
    rw [if_neg (by decide)] at hp
    obtain ⟨rfl, rfl⟩ := hp
    refine ⟨rfl, (load_of_span hn ha (hg.spanHas fastPerm_read)).trans ?_⟩
    exact congrArg (fun bs => Except.ok (leValue bs)) (ptrLoad_eq_readPage c' off n).symm
  store {c c' pa n p} hinv hn ha h v := by
    obtain ⟨off, hg, hp⟩ := fastPtr_granted h
    rw [if_pos (by decide)] at hp
    obtain ⟨rfl, rfl⟩ := hp
    refine (store_of_span hn ha (hg.spanHas fastPerm_write) v).trans ?_
    exact congrArg (Prod.mk _) (hg.putSpan hinv (length_leBytes v n))

end CowRam

/-! ## The pointers compiled code asks for -/

section
variable {β : Type} [Bus β]

/-- The pointer for a load (`fast_load_ptr_common`). -/
def fastLoadPtr (s : Sys β) (va : U32) (len : Nat) : Option HostPtr × β :=
  if va.toNat % len ≠ 0 then (none, s.bus)
  else
    match s.cpu.fastPa va .read with
    | none => (none, s.bus)
    | some pa => Bus.fastPtr s.bus pa len PERM_READ

/-- The pointer for a store (`fast_store_ptr_common`); a word store to `tohost` never gets one. -/
def fastStorePtr (s : Sys β) (va : U32) (len : Nat) (isSw : Bool) : Option HostPtr × β :=
  if va.toNat % len ≠ 0 then (none, s.bus)
  else if isSw && s.cpu.htifTohost = some va then (none, s.bus)
  else
    match s.cpu.fastPa va .write with
    | none => (none, s.bus)
    | some pa => Bus.fastPtr s.bus pa len STORE_NEED

/-- A pointer that compiled code gets stands for the checked access: the load succeeds with the bytes
behind the pointer and changes nothing, and the store succeeds and leaves exactly what writing
through the pointer leaves. -/
structure FastAccess (s : Sys β) : Prop where
  load : ∀ {va n p b}, AccessSize n → fastLoadPtr s va n = (some p, b) → ∀ signed,
    b = s.bus ∧
      loadImpl va n signed s = (.ok (extendLoad (leValue (Bus.ptrLoad b p n)) n signed), s)
  store : ∀ {va n isSw p b}, AccessSize n → fastStorePtr s va n isSw = (some p, b) → ∀ v,
    storeImpl va n v s = (.ok (), { s with bus := Bus.ptrStore b p (leBytes v n) })

/-- A pointer for a load is aligned, translated and granted by the bus. -/
theorem fastLoadPtr_granted {s : Sys β} {va : U32} {n : Nat} {p : HostPtr} {b : β}
    (h : fastLoadPtr s va n = (some p, b)) : va.toNat % n = 0 ∧
      ∃ pa, s.cpu.fastPa va .read = some pa ∧ Bus.fastPtr s.bus pa n PERM_READ = (some p, b) := by
  unfold fastLoadPtr at h
  split at h
  · cases h
  next ha =>
    cases hpa : s.cpu.fastPa va .read with
    | none =>
      rw [hpa] at h
      cases h
    | some pa =>
      rw [hpa] at h
      exact ⟨by simpa using ha, pa, rfl, h⟩

/-- So is one for a store. -/
theorem fastStorePtr_granted {s : Sys β} {va : U32} {n : Nat} {isSw : Bool} {p : HostPtr} {b : β}
    (h : fastStorePtr s va n isSw = (some p, b)) : va.toNat % n = 0 ∧
      ∃ pa, s.cpu.fastPa va .write = some pa ∧
        Bus.fastPtr s.bus pa n STORE_NEED = (some p, b) := by
  unfold fastStorePtr at h
  split at h
  · cases h
  next ha =>
    split at h
    · cases h
    cases hpa : s.cpu.fastPa va .write with
    | none =>
      rw [hpa] at h
      cases h
    | some pa =>
      rw [hpa] at h
      exact ⟨by simpa using ha, pa, rfl, h⟩

/-- A naturally aligned access is not serviced byte by byte. -/
theorem bytewise_of_aligned {va : U32} {n : Nat} (hn : AccessSize n) (ha : va.toNat % n = 0) :
    bytewise va n = false := by
  have hmis : misaligned va n = false := by
    have hz : (va &&& (BitVec.ofNat 32 n - 1)).toNat = 0 := by
      rcases hn with rfl | rfl | rfl
      · exact (toNat_and_mask va 0 (by decide)).trans ha
      · exact (toNat_and_mask va 1 (by decide)).trans ha
      · exact (toNat_and_mask va 2 (by decide)).trans ha
    rw [misaligned, decide_eq_false_iff_not, not_not]
    exact BitVec.eq_of_toNat_eq hz
  have hcross : crossesPage va n = false := by
    have hpage : (va &&& 0xfff).toNat = va.toNat % 4096 := toNat_and_mask va 12 (by decide)
    rw [crossesPage, hpage, decide_eq_false_iff_not]
    rcases hn with rfl | rfl | rfl <;> omega
  rw [bytewise, hmis, hcross]
  rfl

/-- Translation keeps the place in the page. -/
theorem entryPa_mod (e : TlbEntry) (va : U32) : (entryPa e va).toNat % 4096 = va.toNat % 4096 := by
  have hpage : (va &&& 0xfff).toNat = va.toNat % 4096 := toNat_and_mask va 12 (by decide)
  have hframe : (e.ppn <<< 12).toNat % 2 ^ 12 = 0 := by
    rw [BitVec.toNat_shiftLeft, Nat.shiftLeft_eq]
    omega
  have hor : (entryPa e va).toNat % 2 ^ 12 = (va &&& 0xfff).toNat % 2 ^ 12 := by
    rw [entryPa, BitVec.toNat_or, Nat.or_mod_two_pow, hframe, Nat.zero_or]
  rw [hpage] at hor
  omega

/-- A translation keeps alignment. -/
theorem fastPa_aligned {c : Cpu} {va pa : U32} {access : Access} {n : Nat} (hn : AccessSize n)
    (ha : va.toNat % n = 0) (h : c.fastPa va access = some pa) : pa.toNat % n = 0 := by
  unfold Cpu.fastPa at h
  split at h
  · cases h
    exact ha
  cases he : c.tlb.get (va >>> 12) with
  | none =>
    rw [he] at h
    cases h
  | some e =>
    rw [he] at h
    dsimp only at h
    split at h
    · cases h
    split at h
    · cases h
    cases h
    have := entryPa_mod e va
    rcases hn with rfl | rfl | rfl <;> omega

/-- An aligned access at an address the TLB grants is one access of the bus. -/
theorem loadImpl_of_fastPa {s : Sys β} {va pa : U32} {n : Nat} (hn : AccessSize n)
    (ha : va.toNat % n = 0) (h : s.cpu.fastPa va .read = some pa) (signed : Bool) :
    loadImpl va n signed s =
      (((Bus.load s.bus pa n).mapError Trap.mem).map (extendLoad · n signed), s) := by
  have hspan : loadSpan va n s = ((Bus.load s.bus pa n).mapError Trap.mem, s) := by
    rw [loadSpan, bytewise_of_aligned hn ha]
    exact Comp.bind_ok (xlate_of_fastPa h)
  unfold loadImpl
  cases hl : (Bus.load s.bus pa n).mapError Trap.mem with
  | ok v =>
    rw [hl] at hspan
    exact Comp.bind_ok hspan
  | error e =>
    rw [hl] at hspan
    exact Comp.bind_error hspan

/-- An aligned store with a grant is one bus store. -/
theorem storeImpl_of_fastPa {s : Sys β} {va pa : U32} {n : Nat} (hn : AccessSize n)
    (ha : va.toNat % n = 0) (h : s.cpu.fastPa va .write = some pa) (v : U32) :
    storeImpl va n v s = busStore pa n v s := by
  rw [storeImpl, bytewise_of_aligned hn ha]
  exact Comp.bind_ok (xlate_of_fastPa h)

end

/-! ## Machines -/

section
variable {ρ : Type} [Bus ρ]

/-- The machine grants pointers to RAM only. -/
theorem MachineOf.fastPtr_granted {m m' : MachineOf ρ} {pa : U32} {n : Nat} {need : U8}
    {p : HostPtr} (h : m.fastPtr pa n need = (some p, m')) : inClint pa = false ∧
      inUart pa = false ∧ ∃ r, Bus.fastPtr m.ram pa n need = (some p, r) ∧
        m' = { m with ram := r } := by
  unfold MachineOf.fastPtr at h
  split at h
  · cases h
  next hd =>
    simp only [Bool.or_eq_true, not_or, Bool.not_eq_true] at hd
    refine ⟨hd.1, hd.2, (Bus.fastPtr m.ram pa n need).2, ?_, ?_⟩
    · rw [← (Prod.mk.inj h).1]
    · exact (Prod.mk.inj h).2.symm

variable [FastRam ρ]

/-- The machine's address window is that of its RAM, as `Machine::new` and `from_golden` set it. -/
structure Placed (m : MachineOf ρ) (base size : U32) : Prop where
  ok : FastRam.Ok m.ram
  windowBase : FastRam.base m.ram = base
  windowSize : FastRam.size m.ram = size.toNat
  ramBase : m.ramBase = base
  ramEnd : m.ramEnd = base + size

variable {base size : U32}

/-- An address of the RAM lies in the address window, unless the end of the window wrapped. -/
theorem Placed.inRam {m : MachineOf ρ} (hm : Placed m base size) {pa : U32} {off : Nat}
    (ho : windowOffset (FastRam.base m.ram) (FastRam.size m.ram) pa = some off) :
    m.inRam pa = decide (base.toNat + size.toNat < 2 ^ 32) := by
  rw [hm.windowBase, hm.windowSize] at ho
  obtain ⟨hb, hs⟩ := windowOffset_eq_some.1 ho
  have hpa := pa.isLt
  rw [MachineOf.inRam, FuzzSoft.inRam, hm.ramBase, hm.ramEnd]
  simp only [BitVec.le_def, BitVec.lt_def, BitVec.toNat_add]
  rw [← Bool.decide_and, decide_eq_decide]
  omega

/-- In a window that ends below `2 ^ 32` the machine answers as the pointer does. -/
theorem fastAccess_of_fits {s : Sys (MachineOf ρ)} (hm : Placed s.bus base size)
    (hfit : base.toNat + size.toNat < 2 ^ 32) : FastAccess s where
  load {va n p b} hn h signed := by
    obtain ⟨ha, pa, hpa, hg⟩ := fastLoadPtr_granted h
    obtain ⟨hc, hu, r, hr, rfl⟩ := MachineOf.fastPtr_granted hg
    obtain ⟨off, ho⟩ := FastRam.window hr
    obtain ⟨rfl, hload⟩ := FastRam.load hm.ok hn (fastPa_aligned hn ha hpa) hr
    have hbus : Bus.load s.bus pa n = .ok (leValue (Bus.ptrLoad s.bus.ram p n)) := by
      show s.bus.load pa n = _
      rw [MachineOf.load, hc, hu, hm.inRam ho, decide_eq_true hfit]
      exact hload
    refine ⟨rfl, (loadImpl_of_fastPa hn ha hpa signed).trans ?_⟩
    rw [hbus]
    rfl
  store {va n isSw p b} hn h v := by
    obtain ⟨ha, pa, hpa, hg⟩ := fastStorePtr_granted h
    obtain ⟨hc, hu, r, hr, rfl⟩ := MachineOf.fastPtr_granted hg
    obtain ⟨off, ho⟩ := FastRam.window hr
    have hstore := FastRam.store hm.ok hn (fastPa_aligned hn ha hpa) hr v
    have hbus : Bus.store s.bus pa n v =
        (.ok (), { s.bus with ram := Bus.ptrStore r p (leBytes v n) }) := by
      show s.bus.store pa n v = _
      rw [MachineOf.store, hc, hu, hm.inRam ho, decide_eq_true hfit, hstore]
      rfl
    refine (storeImpl_of_fastPa hn ha hpa v).trans ?_
    rw [busStore, hbus]
    rfl

/-- In a window that reaches the top, a load that compiled code has a pointer for faults. -/
theorem loadImpl_of_wrapped {s : Sys (MachineOf ρ)} (hm : Placed s.bus base size)
    (hwrap : 2 ^ 32 ≤ base.toNat + size.toNat) {va : U32} {n : Nat} {p : HostPtr}
    {b : MachineOf ρ} (hn : AccessSize n) (h : fastLoadPtr s va n = (some p, b)) (signed : Bool) :
    ∃ f, loadImpl va n signed s = (.error (.mem f), s) := by
  obtain ⟨ha, pa, hpa, hg⟩ := fastLoadPtr_granted h
  obtain ⟨hc, hu, r, hr, rfl⟩ := MachineOf.fastPtr_granted hg
  obtain ⟨off, ho⟩ := FastRam.window hr
  have hbus : Bus.load s.bus pa n = .error (mmioFault pa n .read) := by
    show s.bus.load pa n = _
    rw [MachineOf.load, hc, hu, hm.inRam ho, decide_eq_false (Nat.not_lt.2 hwrap)]
    rfl
  refine ⟨mmioFault pa n .read, (loadImpl_of_fastPa hn ha hpa signed).trans ?_⟩
  rw [hbus]
  rfl

end

/-! ## Exactly the windows that end below the top -/

/-- A machine all of whose RAM may be read and written. -/
def openMachine (base size : U32) : Machine :=
  { MachineOf.new base size.toNat with
    ram := { Mmu.new base size.toNat with perms := fun _ => PERM_READ ||| PERM_WRITE } }

/-- A lane over the same RAM. -/
def openLane (base size : U32) : CowMachine :=
  .fromGolden (.fromMmu (openMachine base size).ram) base size.toNat

/-- The machine of the case has its RAM at `base`. -/
theorem placed_openMachine (base size : U32) : Placed (openMachine base size) base size :=
  ⟨trivial, rfl, rfl, rfl, by simp [openMachine, MachineOf.new]⟩

/-- So has the lane of the case. -/
theorem placed_openLane (base size : U32) : Placed (openLane base size) base size :=
  ⟨CowRam.inv_new _, rfl, rfl, rfl, by simp [openLane, MachineOf.fromGolden]⟩

/-- A hart out of reset, which translates nothing, is granted the last byte below `2 ^ 32` when the
RAM grants it. -/
theorem granted_top {ρ : Type} [Bus ρ] {m : MachineOf ρ} {p : HostPtr} {r : ρ}
    (h : Bus.fastPtr m.ram 0xffffffff 1 PERM_READ = (some p, r)) :
    fastLoadPtr ⟨Cpu.new 0, m⟩ 0xffffffff 1 = (some p, { m with ram := r }) := by
  have hpa : (Cpu.new 0).fastPa 0xffffffff .read = some 0xffffffff := if_pos (by decide)
  have hdev : (inClint 0xffffffff || inUart 0xffffffff) = false := by decide
  have hbus : Bus.fastPtr m 0xffffffff 1 PERM_READ = (some p, { m with ram := r }) := by
    show m.fastPtr 0xffffffff 1 PERM_READ = _
    rw [MachineOf.fastPtr, hdev, h]
    rfl
  rw [fastLoadPtr, if_neg (by decide), hpa]
  exact hbus

/-- Both grant the last byte of memory where the window reaches past it. -/
theorem granted_open {base size : U32} (hwrap : 2 ^ 32 ≤ base.toNat + size.toNat) :
    (∃ p r, (openMachine base size).ram.fastPtr 0xffffffff 1 PERM_READ = (some p, r)) ∧
      ∃ p r, (openLane base size).ram.fastPtr 0xffffffff 1 PERM_READ = (some p, r) := by
  have hb := base.isLt
  have ho : windowOffset base size.toNat 0xffffffff = some (2 ^ 32 - 1 - base.toNat) :=
    windowOffset_eq_some.2 ⟨by simp; omega, by omega⟩
  have hperm : ∀ f : Nat → U8, (∀ o, f o = PERM_READ ||| PERM_WRITE) → ∀ off,
      allSpan f off (fastPerm PERM_READ) 1 = true := fun f hf off =>
    allSpan_eq_true.2 fun i _ => by
      rw [hf]
      decide
  constructor
  · refine ⟨.mem (2 ^ 32 - 1 - base.toNat), (openMachine base size).ram, ?_⟩
    have ho' : (openMachine base size).ram.offset 0xffffffff = _ := ho
    rw [Mmu.fastPtr, ho']
    dsimp only
    have hs : 2 ^ 32 - 1 - base.toNat + 1 ≤ (openMachine base size).ram.size := by
      show _ ≤ size.toNat
      omega
    rw [if_pos ⟨hs, hperm _ (fun _ => rfl) _⟩, if_neg fun h => h.1 (by decide)]
  · refine ⟨.golden (2 ^ 32 - 1 - base.toNat), (openLane base size).ram, ?_⟩
    have ho' : (openLane base size).ram.offset 0xffffffff = _ := ho
    rw [CowRam.fastPtr, ho']
    dsimp only
    have hall : ∀ pn po, allSpan ((openLane base size).ram.resolve pn).perms po
        (fastPerm PERM_READ) 1 = true := fun pn po =>
      hperm _ (fun _ => by rw [CowRam.resolve_golden rfl]; rfl) po
    rw [if_neg, if_pos (hall _ _), if_neg fun h => h (by decide)]
    · exact if_pos rfl
    have hsize : (openLane base size).ram.golden.size = size.toNat := rfl
    rw [hsize]
    simp only [PAGE_SIZE]
    omega

/-- A window that reaches the top has a machine with a pointer to a byte it cannot load. -/
theorem not_fastAccess_of_wrapped {base size : U32} (hwrap : 2 ^ 32 ≤ base.toNat + size.toNat) :
    (¬∀ s : Sys Machine, Placed s.bus base size → FastAccess s) ∧
      ¬∀ s : Sys CowMachine, Placed s.bus base size → FastAccess s := by
  obtain ⟨⟨p, r, hr⟩, q, t, ht⟩ := granted_open hwrap
  constructor
  · intro h
    have hm := placed_openMachine base size
    have hg := granted_top (m := openMachine base size) hr
    obtain ⟨f, hf⟩ := loadImpl_of_wrapped hm hwrap (.inl rfl) hg false
    have := ((h ⟨_, _⟩ hm).load (.inl rfl) hg false).2.symm.trans hf
    cases this
  · intro h
    have hm := placed_openLane base size
    have hg := granted_top (m := openLane base size) ht
    obtain ⟨f, hf⟩ := loadImpl_of_wrapped hm hwrap (.inl rfl) hg false
    have := ((h ⟨_, _⟩ hm).load (.inl rfl) hg false).2.symm.trans hf
    cases this

/-- The fast path of every machine with a given window is the checked access exactly when the window
ends below the top of the address space. -/
theorem fastAccess_iff (base size : U32) :
    ((∀ s : Sys Machine, Placed s.bus base size → FastAccess s) ↔
      base.toNat + size.toNat < 2 ^ 32) ∧
    ((∀ s : Sys CowMachine, Placed s.bus base size → FastAccess s) ↔
      base.toNat + size.toNat < 2 ^ 32) := by
  refine ⟨⟨fun h => ?_, fun hfit s hm => fastAccess_of_fits hm hfit⟩,
    ⟨fun h => ?_, fun hfit s hm => fastAccess_of_fits hm hfit⟩⟩
  · by_contra hn
    exact (not_fastAccess_of_wrapped (Nat.not_lt.1 hn)).1 h
  · by_contra hn
    exact (not_fastAccess_of_wrapped (Nat.not_lt.1 hn)).2 h

/-- The last page of the address space as RAM. -/
theorem fastAccess_fails_top :
    ¬∀ s : Sys Machine, Placed s.bus 0xfffff000 0x1000 → FastAccess s :=
  (not_fastAccess_of_wrapped (by decide)).1

end FuzzSoft
