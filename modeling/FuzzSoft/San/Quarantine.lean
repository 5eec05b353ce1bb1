import FuzzSoft.Lib.Quarantine
import FuzzSoft.San.Alloc

/-!
# The quarantines of the sanitizers

Runs of operations, each on whatever memory it is called with and whether it succeeds or not, of the
heap sanitizer and of the page sanitizer. A step of either is at most one event of a bounded
quarantine (`Sanitizer.reaches_step`, `PageSanitizer.reaches_step`), so the book-keeping of both stays
consistent (`quarantines_kept`).
-/

namespace FuzzSoft

open Lib

/-- An operation of the heap sanitizer. -/
inductive SanOp
  | alloc (addr size : U32)
  | allocWithSlack (addr reqSize bucketSize : U32)
  | allocExactNoUafGuard (addr size : U32)
  | reopenSlack (addr : U32)
  | free (addr : U32)

/-- An operation of the page sanitizer. -/
inductive PageOp
  | allocPages (basePa order : U32)
  | freePages (basePa order : U32)

/-- The keys of an updated table. -/
theorem isSome_update {α β : Type} [DecidableEq α] (f : α → Option β) (a : α) (o : Option β) :
    (fun x => (Function.update f a o x).isSome) =
      Function.update (fun x => (f x).isSome) a o.isSome :=
  Function.comp_update Option.isSome f a o

namespace SanOp

def exec (s : Sanitizer) (m : Mmu) : SanOp → Except SanError Unit × Sanitizer × Mmu
  | alloc addr size => s.alloc m addr size
  | allocWithSlack addr reqSize bucketSize => s.allocWithSlack m addr reqSize bucketSize
  | allocExactNoUafGuard addr size => s.allocExactNoUafGuard m addr size
  | reopenSlack addr => ((s.reopenSlack m addr).1, s, (s.reopenSlack m addr).2)
  | free addr => s.free m addr

/-- What an operation does to its address, by whether it succeeds. The quarantine takes what a free has
poisoned; a free that fails after all has taken its address back for good. -/
def event (s : Sanitizer) (ok : Bool) : SanOp → Option (Custody.Event U32)
  | alloc addr _ | allocWithSlack addr _ _ | allocExactNoUafGuard addr _ =>
    if ok then some (.admitted addr) else none
  | reopenSlack _ => none
  | free addr =>
    match s.live addr with
    | none => none
    | some a => some (if a.freePoisons && ok then .shelved addr else .dismissed addr)

end SanOp

namespace Sanitizer

def custody (s : Sanitizer) : Custody U32 where
  live := fun a => (s.live a).isSome
  held := fun a => (s.quarantined a).isSome
  order := s.quarantineOrder

/-- Run an operation on a memory; the output is its event. -/
def step (s : Sanitizer) (i : Mmu × SanOp) : Option (Custody.Event U32) × Sanitizer :=
  (i.2.event s (i.2.exec s i.1).1.isOk, (i.2.exec s i.1).2.1)

section
variable (s : Sanitizer) (m : Mmu) (addr : U32)

/-- Evicting an object is the eviction of its key. -/
theorem custody_evictQuarantine : (s.evictQuarantine addr).custody = s.custody.evict addr := by
  unfold evictQuarantine Custody.evict
  by_cases hq : (s.quarantined addr).isSome = true
  · have hheld : s.custody.held addr = true := hq
    rw [if_pos hq, if_pos hheld]
    dsimp only [custody]
    rw [isSome_update, Option.isSome_none]
  · have hheld : ¬ s.custody.held addr = true := hq
    rw [if_neg hq, if_neg hheld]

/-- Noting an object is the admission of its key. -/
theorem custody_insertLive (a : LiveAlloc) :
    (s.insertLive addr a).custody = s.custody.step s.quarantineCap (.admitted addr) := by
  show custody (insertLive s addr a) = (s.custody.evict addr).setLive addr true
  rw [← custody_evictQuarantine]
  dsimp only [custody, insertLive, Custody.setLive]
  rw [isSome_update, Option.isSome_some]

/-- Quarantining an object shelves its key. -/
theorem custody_quarantine (a : LiveAlloc) :
    (s.quarantine addr a).custody = s.custody.shelve s.quarantineCap addr := by
  obtain ⟨redzone, cap, live, order, quarantined⟩ := s
  unfold quarantine Custody.shelve
  dsimp only
  rcases Nat.lt_or_ge order.length cap with hroom | hfull
  · rw [if_neg (Nat.not_le.2 hroom), Custody.age_of_lt hroom]
    dsimp only [custody]
    rw [isSome_update, Option.isSome_some]
  rw [if_pos hfull]
  cases order with
  | nil =>
    rw [Custody.age_nil cap rfl]
    dsimp only [custody]
    rw [isSome_update, Option.isSome_some]
  | cons oldest rest =>
    rw [Custody.age_cons hfull rfl]
    dsimp only [custody]
    rw [isSome_update, isSome_update, Option.isSome_some, Option.isSome_none]

/-- Dropping an object leaves its key unknown. -/
theorem custody_remove : custody { s with live := Function.update s.live addr none } =
    s.custody.setLive addr false := by
  dsimp only [custody, Custody.setLive]
  rw [isSome_update, Option.isSome_none]

/-- The limit stays. -/
theorem quarantineCap_insertLive (a : LiveAlloc) :
    (s.insertLive addr a).quarantineCap = s.quarantineCap := by
  unfold insertLive evictQuarantine
  split <;> rfl

/-- The limit stays. -/
theorem quarantineCap_quarantine (a : LiveAlloc) :
    (s.quarantine addr a).quarantineCap = s.quarantineCap := by
  unfold quarantine
  dsimp only
  split
  · split <;> rfl
  · rfl

/-! An allocation that succeeds enters an address that was not live; one that fails changes nothing. -/

/-- An allocation fails without a note, or notes a new object. -/
theorem alloc_cases (size : U32) :
    (∃ e m', s.alloc m addr size = (.error e, s, m')) ∨
      s.live addr = none ∧ ∃ a m', s.alloc m addr size = (.ok (), s.insertLive addr a, m') := by
  unfold alloc
  cases hl : s.live addr with
  | some a => exact .inl ⟨_, _, rfl⟩
  | none =>
    dsimp only [Option.isSome_none]
    rcases s.poisonGuardBefore m addr with ⟨_ | _, m₁⟩
    · exact .inl ⟨_, _, rfl⟩
    dsimp only
    rcases s.poisonGuardAfter m₁ addr size with ⟨_ | _, m₂⟩
    · exact .inl ⟨_, _, rfl⟩
    dsimp only
    rcases m₂.protect addr size.toNat (PERM_WRITE ||| PERM_RAW) with ⟨_ | _, m₃⟩
    · exact .inl ⟨_, _, rfl⟩
    · exact .inr ⟨rfl, _, _, rfl⟩

/-- So does one with slack. -/
theorem allocWithSlack_cases (reqSize bucketSize : U32) :
    (∃ e m', s.allocWithSlack m addr reqSize bucketSize = (.error e, s, m')) ∨
      s.live addr = none ∧
        ∃ a m', s.allocWithSlack m addr reqSize bucketSize = (.ok (), s.insertLive addr a, m') := by
  unfold allocWithSlack
  cases hl : s.live addr with
  | some a => exact .inl ⟨_, _, rfl⟩
  | none =>
    dsimp only [Option.isSome_none]
    rcases m.protect addr reqSize.toNat (PERM_WRITE ||| PERM_RAW) with ⟨_ | _, m₁⟩
    · exact .inl ⟨_, _, rfl⟩
    dsimp only
    rcases poisonSlack m₁ addr reqSize (if bucketSize < reqSize then reqSize else bucketSize) with
      ⟨_ | _, m₂⟩
    · exact .inl ⟨_, _, rfl⟩
    · exact .inr ⟨rfl, _, _, rfl⟩

/-- So does one without guards. -/
theorem allocExactNoUafGuard_cases (size : U32) :
    (∃ e m', s.allocExactNoUafGuard m addr size = (.error e, s, m')) ∨
      s.live addr = none ∧
        ∃ a m', s.allocExactNoUafGuard m addr size = (.ok (), s.insertLive addr a, m') := by
  unfold allocExactNoUafGuard
  cases hl : s.live addr with
  | some a => exact .inl ⟨_, _, rfl⟩
  | none =>
    dsimp only [Option.isSome_none]
    rcases m.protect addr size.toNat (PERM_WRITE ||| PERM_RAW) with ⟨_ | _, m₁⟩
    · exact .inl ⟨_, _, rfl⟩
    · exact .inr ⟨rfl, _, _, rfl⟩

/-- A free that finds a live allocation takes it back, whether the memory can be poisoned or not. -/
theorem free_cases :
    (s.live addr = none ∧ s.free m addr = (.error (.invalidFree addr), s, m)) ∨
      ∃ a, s.live addr = some a ∧
        ((a.freePoisons = true ∧ ∃ m', s.free m addr = (.ok (),
            { s with live := Function.update s.live addr none }.quarantine addr a, m')) ∨
          (a.freePoisons = false ∧
            s.free m addr = (.ok (), { s with live := Function.update s.live addr none }, m)) ∨
          ∃ f m', s.free m addr =
            (.error (.mmu f), { s with live := Function.update s.live addr none }, m')) := by
  unfold free
  cases hl : s.live addr with
  | none => exact .inl ⟨rfl, rfl⟩
  | some a =>
    refine .inr ⟨a, rfl, ?_⟩
    dsimp only
    cases hf : a.freePoisons with
    | false => exact .inr (.inl ⟨rfl, by simp⟩)
    | true =>
      simp only [if_true]
      rcases m.poison addr a.size.toNat with ⟨f | _, m'⟩
      · exact .inr (.inr ⟨f, m', rfl⟩)
      · exact .inl ⟨trivial, m', rfl⟩

/-- Whatever an operation does to the sanitizer, it is its event. -/
theorem reaches_step (i : Mmu × SanOp) :
    (s.step i).2.quarantineCap = s.quarantineCap ∧
      Custody.Reaches s.quarantineCap s.custody (s.step i).1.toList (s.step i).2.custody := by
  obtain ⟨m, op⟩ := i
  have admitted : ∀ {addr : U32} {r : Except SanError Unit × Sanitizer × Mmu},
      ((∃ e m', r = (.error e, s, m')) ∨
        s.live addr = none ∧ ∃ a m', r = (.ok (), s.insertLive addr a, m')) →
      r.2.1.quarantineCap = s.quarantineCap ∧
        Custody.Reaches s.quarantineCap s.custody
          (if r.1.isOk then some (.admitted addr) else none : Option (Custody.Event U32)).toList
          r.2.1.custody := by
    rintro addr r (⟨e, m', rfl⟩ | ⟨hl, a, m', rfl⟩)
    · exact ⟨rfl, rfl⟩
    · refine ⟨quarantineCap_insertLive s addr a, ?_, custody_insertLive s addr a⟩
      show (s.live addr).isSome = false
      rw [hl]
      rfl
  cases op with
  | alloc addr size => exact admitted (s.alloc_cases m addr size)
  | allocWithSlack addr req bucket => exact admitted (s.allocWithSlack_cases m addr req bucket)
  | allocExactNoUafGuard addr size => exact admitted (s.allocExactNoUafGuard_cases m addr size)
  | reopenSlack addr => exact ⟨rfl, rfl⟩
  | free addr =>
    dsimp only [step, SanOp.exec, SanOp.event]
    rcases s.free_cases m addr with ⟨hl, h⟩ | ⟨a, hl, ⟨hp, m', h⟩ | ⟨hp, h⟩ | ⟨f, m', h⟩⟩
    · rw [h, hl]
      exact ⟨rfl, rfl⟩
    · have hlive : (s.live addr).isSome = true := by rw [hl]; rfl
      rw [h, hl]
      dsimp only
      rw [hp]
      refine ⟨quarantineCap_quarantine _ addr a, hlive, ?_⟩
      exact (custody_quarantine _ addr a).trans (by rw [custody_remove]; rfl)
    · have hlive : (s.live addr).isSome = true := by rw [hl]; rfl
      rw [h, hl]
      dsimp only
      rw [hp]
      exact ⟨rfl, hlive, custody_remove s addr⟩
    · have hlive : (s.live addr).isSome = true := by rw [hl]; rfl
      rw [h, hl]
      simp only [Except.isOk, Except.toBool, Bool.and_false, Bool.false_eq_true, if_false]
      exact ⟨trivial, hlive, custody_remove s addr⟩

end

end Sanitizer

/-! ## Pages -/

namespace PageOp

def exec (s : PageSanitizer) (m : Mmu) : PageOp → Except SanError Unit × PageSanitizer × Mmu
  | allocPages basePa order => s.allocPages m basePa order
  | freePages basePa order => s.freePages m basePa order

/-- What an operation does to its base address, by whether it succeeds. -/
def event (s : PageSanitizer) (ok : Bool) : PageOp → Option (Custody.Event U32)
  | allocPages basePa _ => if ok then some (.admitted basePa) else none
  | freePages basePa _ =>
    match s.live basePa with
    | none => none
    | some _ => some (if ok then .shelved basePa else .dismissed basePa)

end PageOp

namespace PageSanitizer

def custody (s : PageSanitizer) : Custody U32 where
  live := fun a => (s.live a).isSome
  held := fun a => (s.quarantined a).isSome
  order := s.quarantineOrder

/-- Run an operation on a memory; the output is its event. -/
def step (s : PageSanitizer) (i : Mmu × PageOp) : Option (Custody.Event U32) × PageSanitizer :=
  (i.2.event s (i.2.exec s i.1).1.isOk, (i.2.exec s i.1).2.1)

section
variable (s : PageSanitizer) (m : Mmu) (basePa order : U32)

/-- Evicting a block is the eviction of its key. -/
theorem custody_evictQuarantine : (s.evictQuarantine basePa).custody = s.custody.evict basePa := by
  unfold evictQuarantine Custody.evict
  by_cases hq : (s.quarantined basePa).isSome = true
  · have hheld : s.custody.held basePa = true := hq
    rw [if_pos hq, if_pos hheld]
    dsimp only [custody]
    rw [isSome_update, Option.isSome_none]
  · have hheld : ¬ s.custody.held basePa = true := hq
    rw [if_neg hq, if_neg hheld]

/-- Quarantining a block shelves its key. -/
theorem custody_quarantine :
    (s.quarantine basePa order).custody = s.custody.shelve s.quarantineCap basePa := by
  obtain ⟨cap, live, queue, quarantined⟩ := s
  unfold quarantine Custody.shelve
  dsimp only
  rcases Nat.lt_or_ge queue.length cap with hroom | hfull
  · rw [if_neg (Nat.not_le.2 hroom), Custody.age_of_lt hroom]
    dsimp only [custody]
    rw [isSome_update, Option.isSome_some]
  rw [if_pos hfull]
  cases queue with
  | nil =>
    rw [Custody.age_nil cap rfl]
    dsimp only [custody]
    rw [isSome_update, Option.isSome_some]
  | cons oldest rest =>
    rw [Custody.age_cons hfull rfl]
    dsimp only [custody]
    rw [isSome_update, isSome_update, Option.isSome_some, Option.isSome_none]

/-- Noting or dropping a block sets its key. -/
theorem custody_live (o : Option U32) : custody { s with live := Function.update s.live basePa o } =
    s.custody.setLive basePa o.isSome := by
  dsimp only [custody, Custody.setLive]
  rw [isSome_update]

/-- The limit stays. -/
theorem quarantineCap_evictQuarantine : (s.evictQuarantine basePa).quarantineCap = s.quarantineCap := by
  unfold evictQuarantine
  split <;> rfl

/-- The limit stays. -/
theorem quarantineCap_quarantine : (s.quarantine basePa order).quarantineCap = s.quarantineCap := by
  unfold quarantine
  dsimp only
  split
  · split <;> rfl
  · rfl

/-- A page allocation fails without a note, or notes a new block. -/
theorem allocPages_cases :
    (∃ e m', s.allocPages m basePa order = (.error e, s, m')) ∨
      s.live basePa = none ∧ ∃ m', s.allocPages m basePa order =
        (.ok (), { s.evictQuarantine basePa with
          live := Function.update (s.evictQuarantine basePa).live basePa (some order) }, m') := by
  unfold allocPages
  cases hl : s.live basePa with
  | some a => exact .inl ⟨_, _, rfl⟩
  | none =>
    dsimp only [Option.isSome_none]
    cases pageRangeLen order with
    | none => exact .inl ⟨_, _, rfl⟩
    | some len =>
      dsimp only
      rcases m.protect basePa len.toNat (PERM_READ ||| PERM_WRITE) with ⟨_ | _, m₁⟩
      · exact .inl ⟨_, _, rfl⟩
      · exact .inr ⟨rfl, _, rfl⟩

/-- A page free of an unknown block fails; of a known one it drops the block. -/
theorem freePages_cases :
    (s.live basePa = none ∧ s.freePages m basePa order = (.error (.invalidFree basePa), s, m)) ∨
      (s.live basePa).isSome = true ∧
        ((∃ m', s.freePages m basePa order = (.ok (),
            { s with live := Function.update s.live basePa none }.quarantine basePa order, m')) ∨
          ∃ e m', s.freePages m basePa order =
            (.error e, { s with live := Function.update s.live basePa none }, m')) := by
  unfold freePages
  cases hl : s.live basePa with
  | none => exact .inl ⟨rfl, rfl⟩
  | some a =>
    refine .inr ⟨rfl, ?_⟩
    dsimp only
    cases pageRangeLen order with
    | none => exact .inr ⟨_, _, rfl⟩
    | some len =>
      dsimp only
      rcases m.poison basePa len.toNat with ⟨_ | _, m'⟩
      · exact .inr ⟨_, _, rfl⟩
      · exact .inl ⟨_, rfl⟩

/-- Every operation is a run of events. -/
theorem reaches_step (i : Mmu × PageOp) :
    (s.step i).2.quarantineCap = s.quarantineCap ∧
      Custody.Reaches s.quarantineCap s.custody (s.step i).1.toList (s.step i).2.custody := by
  obtain ⟨m, op⟩ := i
  cases op with
  | allocPages basePa order =>
    dsimp only [step, PageOp.exec, PageOp.event]
    rcases s.allocPages_cases m basePa order with ⟨e, m', h⟩ | ⟨hl, m', h⟩
    · rw [h]
      exact ⟨rfl, rfl⟩
    · have hlive : (s.live basePa).isSome = false := by rw [hl]; rfl
      rw [h]
      refine ⟨quarantineCap_evictQuarantine s basePa, hlive, ?_⟩
      exact (custody_live _ basePa (some order)).trans (by rw [custody_evictQuarantine]; rfl)
  | freePages basePa order =>
    dsimp only [step, PageOp.exec, PageOp.event]
    rcases s.freePages_cases m basePa order with ⟨hl, h⟩ | ⟨hlive, ⟨m', h⟩ | ⟨e, m', h⟩⟩
    · rw [h, hl]
      exact ⟨rfl, rfl⟩
    · obtain ⟨o, ho⟩ := Option.isSome_iff_exists.1 hlive
      rw [h, ho]
      refine ⟨quarantineCap_quarantine _ basePa order, hlive, ?_⟩
      exact (custody_quarantine _ basePa order).trans (by rw [custody_live]; rfl)
    · obtain ⟨o, ho⟩ := Option.isSome_iff_exists.1 hlive
      rw [h, ho]
      exact ⟨rfl, hlive, custody_live s basePa none⟩

end

end PageSanitizer

/-- After every run of operations, successful or not, each on any memory, and for every capacity: no
address is live and quarantined, the queue lists the quarantined addresses, each once, in the order of
their last poisoning free, it is at most as long as the capacity, or one, and what a free has poisoned is
quarantined until it is allocated again or as many more have followed as the capacity says. -/
theorem quarantines_kept :
    (∀ (redzone : U32) (cap : Nat) (ops : List (Mmu × SanOp)),
      Custody.Kept cap (run Sanitizer.step (.withQuarantineCap redzone cap) ops).1.reduceOption
        (run Sanitizer.step (.withQuarantineCap redzone cap) ops).2.custody) ∧
    ∀ (cap : Nat) (ops : List (Mmu × PageOp)),
      Custody.Kept cap (run PageSanitizer.step (.withQuarantineCap cap) ops).1.reduceOption
        (run PageSanitizer.step (.withQuarantineCap cap) ops).2.custody := by
  refine ⟨fun redzone cap ops => ?_, fun cap ops => ?_⟩
  · exact (Custody.reaches_run (fun s i => (Sanitizer.reaches_step s i).1)
      (fun s i => (Sanitizer.reaches_step s i).2) (.withQuarantineCap redzone cap) ops).kept
  · exact (Custody.reaches_run (fun s i => (PageSanitizer.reaches_step s i).1)
      (fun s i => (PageSanitizer.reaches_step s i).2) (.withQuarantineCap cap) ops).kept

end FuzzSoft
