import FuzzSoft.Mmu.Stamp

/-!
# The heap and page sanitizers

`fs_san::Sanitizer` and `fs_san::PageSanitizer`: the book-keeping of live and freed allocations, and
the permission stamps that make the memory fault on their misuse. An operation that the memory refuses
midway keeps the stamps it has made. Each operation stamps inside a range that depends on its
arguments and on the live allocation at its address only (`stamped_allocWithSlack` and the like).
-/

namespace FuzzSoft

open Lib

/-! ## Sizes and addresses -/

/-- `u32::next_power_of_two`, which wraps to zero above `2 ^ 31`. -/
def nextPowerOfTwo (x : U32) : U32 :=
  if x ≤ 1 then 1 else BitVec.ofNat 32 (2 ^ ((x.toNat - 1).log2 + 1))

def KMALLOC_BUCKETS : List U32 := [8, 16, 32, 64, 96, 128, 192, 256, 512, 1024, 2048, 4096, 8192]

/-- The slot size that a request is rounded up to. -/
def kmallocBucket (size : U32) : U32 :=
  match KMALLOC_BUCKETS.find? (size ≤ ·) with
  | some b => b
  | none => nextPowerOfTwo size

/-- A request of at most `2 ^ 31` bytes fits its slot. -/
theorem le_kmallocBucket {size : U32} (h : size.toNat ≤ 2 ^ 31) :
    size.toNat ≤ (kmallocBucket size).toNat := by
  unfold kmallocBucket
  cases hf : KMALLOC_BUCKETS.find? (size ≤ ·) with
  | some b =>
    have hb := List.find?_some hf
    simpa [BitVec.le_def] using hb
  | none =>
    dsimp only
    unfold nextPowerOfTwo
    split
    next h1 => simpa [BitVec.le_def] using h1
    next h1 =>
      have h2 : 1 < size.toNat := by simpa [BitVec.le_def] using h1
      have hlt := Nat.lt_log2_self (n := size.toNat - 1)
      have hlog : (size.toNat - 1).log2 < 31 := (Nat.log2_lt (by omega)).2 (by omega)
      have hpow : 2 ^ ((size.toNat - 1).log2 + 1) < 2 ^ 32 := Nat.pow_lt_pow_right (by decide) (by omega)
      rw [BitVec.toNat_ofNat, Nat.mod_eq_of_lt hpow]
      omega

def PAGE_OFFSET : U32 := 0xc0000000

/-- The kernel's linear map, cut to the window of RAM. -/
structure LinearMap where
  vaPaOffset : U32
  paLo : U32
  paHi : U32

namespace LinearMap

def new (kernelLoadPa ramBase ramSize : U32) : LinearMap where
  vaPaOffset := PAGE_OFFSET - kernelLoadPa
  paLo := ramBase
  paHi := ramBase + ramSize

/-- The physical address of a kernel pointer; anything else is rejected. -/
def vaToPa (lm : LinearMap) (va : U32) : Option U32 :=
  if va < PAGE_OFFSET then none
  else
    let pa := va - lm.vaPaOffset
    if lm.paLo ≤ pa ∧ pa < lm.paHi then some pa else none

end LinearMap

/-! ## The heap sanitizer -/

def DEFAULT_REDZONE : U32 := 16
def DEFAULT_QUARANTINE_CAP : Nat := 4096

/-- A live allocation. `size` bytes are poisoned when it is freed; an allocation with slack owns its
whole slot, so that the slack lies inside it. -/
structure LiveAlloc where
  size : U32
  redzone : U32
  slack : Option (U32 × U32)
  freePoisons : Bool
  slackFits : ∀ req bucket, slack = some (req, bucket) → req ≤ bucket ∧ bucket = size

inductive SanError where
  | doubleAlloc (addr : U32)
  | invalidFree (addr : U32)
  | unknownPointer (addr : U32)
  | mmu (fault : Fault)
  | invalidPageOrder (addr order : U32)
  deriving DecidableEq, Repr

structure Sanitizer where
  redzone : U32
  quarantineCap : Nat
  live : U32 → Option LiveAlloc
  quarantineOrder : List U32
  quarantined : U32 → Option LiveAlloc

namespace Sanitizer

def withQuarantineCap (redzone : U32) (quarantineCap : Nat) : Sanitizer where
  redzone := redzone
  quarantineCap := quarantineCap
  live := fun _ => none
  quarantineOrder := []
  quarantined := fun _ => none

def new (redzone : U32) : Sanitizer := withQuarantineCap redzone DEFAULT_QUARANTINE_CAP

def liveSize (s : Sanitizer) (addr : U32) : Option U32 := (s.live addr).map (·.size)

/-- Drop an address from the quarantine. -/
def evictQuarantine (s : Sanitizer) (addr : U32) : Sanitizer :=
  if (s.quarantined addr).isSome then
    { s with
      quarantined := Function.update s.quarantined addr none
      quarantineOrder := s.quarantineOrder.filter (· ≠ addr) }
  else s

/-- Enter a new allocation, which leaves the quarantine. -/
def insertLive (s : Sanitizer) (addr : U32) (a : LiveAlloc) : Sanitizer :=
  let s := s.evictQuarantine addr
  { s with live := Function.update s.live addr (some a) }

/-- The guard before a payload is left out where it would leave the window. -/
def poisonGuardBefore (s : Sanitizer) (m : Mmu) (addr : U32) : Except Fault Unit × Mmu :=
  if s.redzone = 0 then (.ok (), m)
  else
    let start := addr - s.redzone
    if start ≤ addr ∧ m.inBounds start s.redzone then m.poison start s.redzone.toNat
    else (.ok (), m)

/-- The guard after a payload is left out where it would leave the window. -/
def poisonGuardAfter (s : Sanitizer) (m : Mmu) (addr size : U32) : Except Fault Unit × Mmu :=
  if s.redzone = 0 then (.ok (), m)
  else if addr.toNat + size.toNat < 2 ^ 32 then
    let start := addr + size
    if m.inBounds start s.redzone then m.poison start s.redzone.toNat else (.ok (), m)
  else (.ok (), m)

/-- Poison `[addr + reqSize, addr + bucketSize)` if it lies inside the window. -/
def poisonSlack (m : Mmu) (addr reqSize bucketSize : U32) : Except Fault Unit × Mmu :=
  let slackLen := bucketSize - reqSize
  if slackLen = 0 then (.ok (), m)
  else if addr.toNat + reqSize.toNat < 2 ^ 32 then
    let slackStart := addr + reqSize
    if m.inBounds slackStart slackLen then m.poison slackStart slackLen.toNat else (.ok (), m)
  else (.ok (), m)

/-- An allocation between two guards. -/
def alloc (s : Sanitizer) (m : Mmu) (addr size : U32) : Except SanError Unit × Sanitizer × Mmu :=
  if (s.live addr).isSome then (.error (.doubleAlloc addr), s, m)
  else
    match s.poisonGuardBefore m addr with
    | (.error f, m) => (.error (.mmu f), s, m)
    | (.ok (), m) =>
      match s.poisonGuardAfter m addr size with
      | (.error f, m) => (.error (.mmu f), s, m)
      | (.ok (), m) =>
        match m.protect addr size.toNat (PERM_WRITE ||| PERM_RAW) with
        | (.error f, m) => (.error (.mmu f), s, m)
        | (.ok (), m) => (.ok (), s.insertLive addr ⟨size, s.redzone, none, true, nofun⟩, m)

/-- A slot holds its request. -/
theorem slot_fits {req bucket : U32} :
    ∀ r b, some (req, if bucket < req then req else bucket) = some (r, b) →
      r ≤ b ∧ b = if bucket < req then req else bucket := by
  rintro r b h
  cases h
  refine ⟨?_, rfl⟩
  split
  · exact BitVec.le_refl req
  next hlt => exact BitVec.not_lt.1 hlt

/-- A slot is as large as the request or the bucket. -/
theorem toNat_slot (req bucket : U32) :
    (if bucket < req then req else bucket).toNat = max req.toNat bucket.toNat := by
  split
  next h => exact (Nat.max_eq_left (Nat.le_of_lt h)).symm
  next h => exact (Nat.max_eq_right (Nat.le_of_not_lt h)).symm

/-- An allocation in a slot: the rounding slack is poisoned, the neighbours are not. -/
def allocWithSlack (s : Sanitizer) (m : Mmu) (addr reqSize bucketSize : U32) :
    Except SanError Unit × Sanitizer × Mmu :=
  if (s.live addr).isSome then (.error (.doubleAlloc addr), s, m)
  else
    match m.protect addr reqSize.toNat (PERM_WRITE ||| PERM_RAW) with
    | (.error f, m) => (.error (.mmu f), s, m)
    | (.ok (), m) =>
      match poisonSlack m addr reqSize (if bucketSize < reqSize then reqSize else bucketSize) with
      | (.error f, m) => (.error (.mmu f), s, m)
      | (.ok (), m) =>
        (.ok (), s.insertLive addr
          ⟨if bucketSize < reqSize then reqSize else bucketSize, 0,
            some (reqSize, if bucketSize < reqSize then reqSize else bucketSize), true, slot_fits⟩, m)

/-- An allocation whose free poisons nothing. -/
def allocExactNoUafGuard (s : Sanitizer) (m : Mmu) (addr size : U32) :
    Except SanError Unit × Sanitizer × Mmu :=
  if (s.live addr).isSome then (.error (.doubleAlloc addr), s, m)
  else
    match m.protect addr size.toNat (PERM_WRITE ||| PERM_RAW) with
    | (.error f, m) => (.error (.mmu f), s, m)
    | (.ok (), m) => (.ok (), s.insertLive addr ⟨size, 0, none, false, nofun⟩, m)

/-- Open the slack of a live allocation. -/
def reopenSlack (s : Sanitizer) (m : Mmu) (addr : U32) : Except SanError Unit × Mmu :=
  match s.live addr with
  | none => (.error (.unknownPointer addr), m)
  | some a =>
    match a.slack with
    | none => (.ok (), m)
    | some (reqSize, bucketSize) =>
      let slackLen := bucketSize - reqSize
      if slackLen = 0 then (.ok (), m)
      else if addr.toNat + reqSize.toNat < 2 ^ 32 then
        match m.protect (addr + reqSize) slackLen.toNat (PERM_WRITE ||| PERM_RAW) with
        | (.error f, m) => (.error (.mmu f), m)
        | (.ok (), m) => (.ok (), m)
      else (.ok (), m)

/-- Put a freed allocation into the quarantine, which forgets its oldest entry when it is full. -/
def quarantine (s : Sanitizer) (addr : U32) (a : LiveAlloc) : Sanitizer :=
  let s :=
    if s.quarantineCap ≤ s.quarantineOrder.length then
      match s.quarantineOrder with
      | oldest :: rest =>
        { s with quarantineOrder := rest, quarantined := Function.update s.quarantined oldest none }
      | [] => s
    else s
  { s with
    quarantineOrder := s.quarantineOrder ++ [addr]
    quarantined := Function.update s.quarantined addr (some a) }

/-- Free a live allocation. It is no longer live when the memory refuses the poison. -/
def free (s : Sanitizer) (m : Mmu) (addr : U32) : Except SanError Unit × Sanitizer × Mmu :=
  match s.live addr with
  | none => (.error (.invalidFree addr), s, m)
  | some a =>
    let s := { s with live := Function.update s.live addr none }
    if a.freePoisons then
      match m.poison addr a.size.toNat with
      | (.error f, m) => (.error (.mmu f), s, m)
      | (.ok (), m) => (.ok (), s.quarantine addr a, m)
    else (.ok (), s, m)

/-! ### Stamps -/

section
variable (s : Sanitizer) (m : Mmu) (addr : U32)

/-- The slack of a slot lies inside it. -/
theorem covers_slack {m : Mmu} {addr req bucket : U32} {off : Nat} (hle : req ≤ bucket)
    (h : m.Covers (addr + req) (bucket - req).toNat off) : m.Covers addr bucket.toNat off := by
  rw [BitVec.toNat_sub_of_le hle] at h
  have hle' : req.toNat ≤ bucket.toNat := hle
  refine Mmu.Covers.tail (k := req.toNat) ?_ (show _ + (bucket.toNat - req.toNat) ≤ _ by omega)
  rwa [BitVec.ofNat_toNat, BitVec.setWidth_eq]

/-- Poisoning slack stamps the slot. -/
theorem stamped_poisonSlack {req bucket : U32} (hle : req ≤ bucket) :
    Mmu.Stamped (m.Covers addr bucket.toNat) m (poisonSlack m addr req bucket).2 := by
  unfold poisonSlack
  dsimp only
  split
  · exact .refl m
  split
  · split
    · exact (m.stamped_poison _ _).mono fun off h => covers_slack hle h
    · exact .refl m
  · exact .refl m

/-- The range of an allocation in a slot is the slot, or the request if the slot is too small. -/
theorem stamped_allocWithSlack (reqSize bucketSize : U32) :
    Mmu.Stamped (m.Covers addr (max reqSize.toNat bucketSize.toNat)) m
      (s.allocWithSlack m addr reqSize bucketSize).2.2 := by
  unfold allocWithSlack
  split
  · exact .refl m
  have h₁ := m.stamped_protect addr reqSize.toNat (PERM_WRITE ||| PERM_RAW)
  rcases hp : m.protect addr reqSize.toNat (PERM_WRITE ||| PERM_RAW) with ⟨r, m₁⟩
  rw [hp] at h₁
  have hreq : Mmu.Stamped (m.Covers addr (max reqSize.toNat bucketSize.toNat)) m m₁ :=
    h₁.mono fun off h => h.mono (Nat.le_max_left _ _)
  cases r with
  | error f => exact hreq
  | ok _ =>
    have hfit := (@slot_fits reqSize bucketSize _ _ rfl).1
    have h₂ := stamped_poisonSlack m₁ addr hfit
    rw [toNat_slot] at h₂
    have hall := hreq.trans (h₂.mono fun off h => h₁.covers.1 h)
    dsimp only
    rcases hq : poisonSlack m₁ addr reqSize
      (if bucketSize < reqSize then reqSize else bucketSize) with ⟨r, m₂⟩
    rw [hq] at hall
    cases r with
    | error f => exact hall
    | ok _ => exact hall

/-- An allocation without guards stamps its bytes. -/
theorem stamped_allocExactNoUafGuard (size : U32) :
    Mmu.Stamped (m.Covers addr size.toNat) m (s.allocExactNoUafGuard m addr size).2.2 := by
  unfold allocExactNoUafGuard
  split
  · exact .refl m
  have h := m.stamped_protect addr size.toNat (PERM_WRITE ||| PERM_RAW)
  rcases hp : m.protect addr size.toNat (PERM_WRITE ||| PERM_RAW) with ⟨r, m₁⟩
  rw [hp] at h
  cases r with
  | error f => exact h
  | ok _ => exact h

/-- Reopened slack lies inside the live allocation; of an address that is not live nothing is
stamped. -/
theorem stamped_reopenSlack :
    Mmu.Stamped (fun off => ∃ size, s.liveSize addr = some size ∧ m.Covers addr size.toNat off) m
      (s.reopenSlack m addr).2 := by
  unfold reopenSlack liveSize
  cases hl : s.live addr with
  | none => exact .refl m
  | some a =>
    dsimp only
    cases hs : a.slack with
    | none => exact .refl m
    | some rb =>
      obtain ⟨req, bucket⟩ := rb
      obtain ⟨hle, rfl⟩ := a.slackFits req bucket hs
      dsimp only
      split
      · exact .refl m
      split
      · have h := (m.stamped_protect (addr + req) (a.size - req).toNat
          (PERM_WRITE ||| PERM_RAW)).mono fun off h =>
            show ∃ size, some a.size = some size ∧ m.Covers addr size.toNat off from
              ⟨a.size, rfl, covers_slack hle h⟩
        rcases hp : m.protect (addr + req) (a.size - req).toNat (PERM_WRITE ||| PERM_RAW) with ⟨r, m₁⟩
        rw [hp] at h
        cases r with
        | error f => exact h
        | ok _ => exact h
      · exact .refl m

/-- A free stamps the object. -/
theorem stamped_free :
    Mmu.Stamped (fun off => ∃ size, s.liveSize addr = some size ∧ m.Covers addr size.toNat off) m
      (s.free m addr).2.2 := by
  unfold free liveSize
  cases hl : s.live addr with
  | none => exact .refl m
  | some a =>
    dsimp only
    split
    · have h := (m.stamped_poison addr a.size.toNat).mono fun off h =>
        show ∃ size, some a.size = some size ∧ m.Covers addr size.toNat off from ⟨a.size, rfl, h⟩
      rcases hp : m.poison addr a.size.toNat with ⟨r, m₁⟩
      rw [hp] at h
      cases r with
      | error f => exact h
      | ok _ => exact h
    · exact .refl m

end

end Sanitizer

/-! ## The page sanitizer -/

def PAGE : U32 := 4096
def DEFAULT_PAGE_QUARANTINE_CAP : Nat := 4096

/-- Live and freed page ranges by their base address, each with its order. -/
structure PageSanitizer where
  quarantineCap : Nat
  live : U32 → Option U32
  quarantineOrder : List U32
  quarantined : U32 → Option U32

namespace PageSanitizer

def withQuarantineCap (quarantineCap : Nat) : PageSanitizer where
  quarantineCap := quarantineCap
  live := fun _ => none
  quarantineOrder := []
  quarantined := fun _ => none

def new : PageSanitizer := withQuarantineCap DEFAULT_PAGE_QUARANTINE_CAP

/-- The bytes of `2 ^ order` pages, for an order that a buddy allocator could have. -/
def pageRangeLen (order : U32) : Option U32 :=
  if 19 < order then none else some (PAGE <<< order.toNat)

def evictQuarantine (s : PageSanitizer) (basePa : U32) : PageSanitizer :=
  if (s.quarantined basePa).isSome then
    { s with
      quarantined := Function.update s.quarantined basePa none
      quarantineOrder := s.quarantineOrder.filter (· ≠ basePa) }
  else s

def allocPages (s : PageSanitizer) (m : Mmu) (basePa order : U32) :
    Except SanError Unit × PageSanitizer × Mmu :=
  if (s.live basePa).isSome then (.error (.doubleAlloc basePa), s, m)
  else
    match pageRangeLen order with
    | none => (.error (.invalidPageOrder basePa order), s, m)
    | some len =>
      match m.protect basePa len.toNat (PERM_READ ||| PERM_WRITE) with
      | (.error f, m) => (.error (.mmu f), s, m)
      | (.ok (), m) =>
        let s := s.evictQuarantine basePa
        (.ok (), { s with live := Function.update s.live basePa (some order) }, m)

def quarantine (s : PageSanitizer) (basePa order : U32) : PageSanitizer :=
  let s :=
    if s.quarantineCap ≤ s.quarantineOrder.length then
      match s.quarantineOrder with
      | oldest :: rest =>
        { s with quarantineOrder := rest, quarantined := Function.update s.quarantined oldest none }
      | [] => s
    else s
  { s with
    quarantineOrder := s.quarantineOrder ++ [basePa]
    quarantined := Function.update s.quarantined basePa (some order) }

/-- The order is the one of the free, not the one the range was allocated with. -/
def freePages (s : PageSanitizer) (m : Mmu) (basePa order : U32) :
    Except SanError Unit × PageSanitizer × Mmu :=
  match s.live basePa with
  | none => (.error (.invalidFree basePa), s, m)
  | some _ =>
    let s := { s with live := Function.update s.live basePa none }
    match pageRangeLen order with
    | none => (.error (.invalidPageOrder basePa order), s, m)
    | some len =>
      match m.poison basePa len.toNat with
      | (.error f, m) => (.error (.mmu f), s, m)
      | (.ok (), m) => (.ok (), s.quarantine basePa order, m)

/-- A page allocation stamps its block. -/
theorem stamped_allocPages (s : PageSanitizer) (m : Mmu) (basePa order : U32) :
    Mmu.Stamped (fun off => ∃ len, pageRangeLen order = some len ∧ m.Covers basePa len.toNat off) m
      (s.allocPages m basePa order).2.2 := by
  unfold allocPages
  split
  · exact .refl m
  cases hl : pageRangeLen order with
  | none => exact .refl m
  | some len =>
    dsimp only
    have h := (m.stamped_protect basePa len.toNat (PERM_READ ||| PERM_WRITE)).mono fun off h =>
      show ∃ len', some len = some len' ∧ m.Covers basePa len'.toNat off from ⟨len, rfl, h⟩
    rcases hp : m.protect basePa len.toNat (PERM_READ ||| PERM_WRITE) with ⟨r, m₁⟩
    rw [hp] at h
    cases r with
    | error f => exact h
    | ok _ => exact h

/-- So does a page free. -/
theorem stamped_freePages (s : PageSanitizer) (m : Mmu) (basePa order : U32) :
    Mmu.Stamped (fun off => ∃ len, pageRangeLen order = some len ∧ m.Covers basePa len.toNat off) m
      (s.freePages m basePa order).2.2 := by
  unfold freePages
  cases s.live basePa with
  | none => exact .refl m
  | some _ =>
    dsimp only
    cases hl : pageRangeLen order with
    | none => exact .refl m
    | some len =>
      dsimp only
      have h := (m.stamped_poison basePa len.toNat).mono fun off h =>
        show ∃ len', some len = some len' ∧ m.Covers basePa len'.toNat off from ⟨len, rfl, h⟩
      rcases hp : m.poison basePa len.toNat with ⟨r, m₁⟩
      rw [hp] at h
      cases r with
      | error f => exact h
      | ok _ => exact h

end PageSanitizer

end FuzzSoft
