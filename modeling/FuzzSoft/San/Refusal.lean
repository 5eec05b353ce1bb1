import FuzzSoft.San.Quarantine

/-!
# Sanitizer operations that fail

A stamp that the memory refuses keeps the permission bytes it has set before the first byte outside the
window (`Mmu.protect_eq`). An operation of a sanitizer that fails has made such stamps, and a free has
taken back its address before. It leaves everything as it was exactly when the stamps it makes set what
is there already, and a free exactly when it finds nothing live (`refusals_unchanged`).
-/

namespace FuzzSoft

open Lib

/-! ## What a stamp reaches -/

namespace Mmu

/-- The offsets of `[addr, addr + len)` up to the first byte outside the window. -/
def reach (m : Mmu) : U32 → Nat → List Nat
  | _, 0 => []
  | a, n + 1 =>
    match m.offset a with
    | none => []
    | some off => off :: m.reach (a + 1) n

/-- The window holds all of `[addr, addr + len)`. -/
def holds (m : Mmu) (addr : U32) (len : Nat) : Bool := (m.reach addr len).length = len

/-- `m` with the permission byte `p` at the given offsets. -/
def stamp (m : Mmu) (offs : List Nat) (p : U8) : Mmu :=
  { m with perms := fun off => if off ∈ offs then p else m.perms off }

/-- The given offsets have the permission byte `p` already. -/
def settled (m : Mmu) (offs : List Nat) (p : U8) : Bool := offs.all fun off => m.perms off = p

section
variable {m : Mmu} {a : U32} {n off : Nat} {p : U8}

/-- Stamping nothing changes nothing. -/
theorem stamp_nil (m : Mmu) (p : U8) : m.stamp [] p = m := by
  simp [stamp]

/-- Stamping one byte, then the rest. -/
theorem stamp_cons (m : Mmu) (off : Nat) (offs : List Nat) (p : U8) :
    stamp { m with perms := setAt m.perms off p } offs p = m.stamp (off :: offs) p := by
  unfold stamp
  congr 1
  funext o
  by_cases ho : o = off
  · subst ho
    simp
  · simp [setAt_of_ne, ho]

/-- What a range reaches does not depend on permissions. -/
theorem reach_perms (q : Nat → U8) : reach { m with perms := q } a n = m.reach a n := by
  induction n generalizing a with
  | zero => rfl
  | succ n ih =>
    rw [reach, reach, ih]
    rfl

/-- So it is the same after a stamp. -/
theorem reach_stamp (offs : List Nat) : (m.stamp offs p).reach a n = m.reach a n := reach_perms _

/-- A stamp sets what it reaches, and succeeds if that is all of its range. -/
theorem protect_eq (m : Mmu) (a : U32) (len : Nat) (p : U8) :
    (m.protect a len p).1.isOk = m.holds a len ∧
      (m.protect a len p).2 = m.stamp (m.reach a len) p := by
  unfold protect holds
  suffices h : ∀ (n : Nat) (m : Mmu) (a : U32),
      (protect.go len p m a n).1.isOk = decide ((m.reach a n).length = n) ∧
        (protect.go len p m a n).2 = m.stamp (m.reach a n) p from h len m a
  intro n
  induction n with
  | zero => exact fun m a => ⟨rfl, (m.stamp_nil p).symm⟩
  | succ n ih =>
    intro m a
    rw [protect.go, reach]
    cases ho : m.offset a with
    | none => exact ⟨rfl, (m.stamp_nil p).symm⟩
    | some off =>
      obtain ⟨h₁, h₂⟩ := ih { m with perms := setAt m.perms off p } (a + 1)
      have hr : reach { m with perms := setAt m.perms off p } (a + 1) n = m.reach (a + 1) n :=
        reach_perms _
      rw [hr] at h₁ h₂
      dsimp only
      refine ⟨?_, h₂.trans (stamp_cons m off _ p)⟩
      rw [h₁, List.length_cons]
      simp

/-- A stamp changes nothing if and only if it sets what is there. -/
theorem stamp_perms (offs : List Nat) : (m.stamp offs p).perms = m.perms ↔ m.settled offs p := by
  simp only [settled, List.all_eq_true, decide_eq_true_eq]
  refine ⟨fun h off hoff => ?_, fun h => ?_⟩
  · rw [← h]
    exact if_pos hoff
  · funext off
    by_cases hoff : off ∈ offs
    · exact (if_pos hoff).trans (h off hoff).symm
    · exact if_neg hoff

/-- Of two stamps that share no byte. -/
theorem stamp_stamp_perms {offs offs' : List Nat} {q : U8}
    (h : ∀ off ∈ offs, off ∈ offs' → q = p) :
    ((m.stamp offs p).stamp offs' q).perms = m.perms ↔ m.settled offs p ∧ m.settled offs' q := by
  rw [← stamp_perms, ← stamp_perms]
  have value : ∀ off, ((m.stamp offs p).stamp offs' q).perms off =
      if off ∈ offs' then q else if off ∈ offs then p else m.perms off := fun _ => rfl
  refine ⟨fun hs => ⟨?_, ?_⟩, fun ⟨h₁, h₂⟩ => ?_⟩
  · funext off
    have ho := (value off).symm.trans (congrFun hs off)
    by_cases hoff : off ∈ offs
    · by_cases hoff' : off ∈ offs'
      · rw [if_pos hoff', h off hoff hoff'] at ho
        exact (if_pos hoff).trans ho
      · rw [if_neg hoff', if_pos hoff] at ho
        exact (if_pos hoff).trans ho
    · exact if_neg hoff
  · funext off
    have ho := (value off).symm.trans (congrFun hs off)
    by_cases hoff' : off ∈ offs'
    · rw [if_pos hoff'] at ho
      exact (if_pos hoff').trans ho
    · exact if_neg hoff'
  · funext off
    rw [value]
    by_cases hoff' : off ∈ offs'
    · rw [if_pos hoff']
      exact (if_pos hoff').symm.trans (congrFun h₂ off)
    · rw [if_neg hoff']
      exact congrFun h₁ off

/-- Two stamps of the same byte are one. -/
theorem stamp_append (offs offs' : List Nat) (p : U8) :
    (m.stamp offs p).stamp offs' p = m.stamp (offs ++ offs') p := by
  unfold stamp
  congr 1
  funext off
  by_cases hoff : off ∈ offs <;> by_cases hoff' : off ∈ offs' <;> simp [hoff, hoff']

/-- Protecting a held range stamps it. -/
theorem protect_ok (h : m.holds a n = true) :
    m.protect a n p = (.ok (), m.stamp (m.reach a n) p) := by
  obtain ⟨h₁, h₂⟩ := m.protect_eq a n p
  rcases hp : m.protect a n p with ⟨r, m'⟩
  rw [hp, h] at h₁
  rw [hp] at h₂
  cases r with
  | error f => cases h₁
  | ok _ => rw [← h₂]

/-- Protecting another range stamps what it reaches and fails. -/
theorem protect_error (h : m.holds a n = false) :
    ∃ f, m.protect a n p = (.error f, m.stamp (m.reach a n) p) := by
  obtain ⟨h₁, h₂⟩ := m.protect_eq a n p
  rcases hp : m.protect a n p with ⟨r, m'⟩
  rw [hp, h] at h₁
  rw [hp] at h₂
  cases r with
  | error f => exact ⟨f, by rw [← h₂]⟩
  | ok _ => cases h₁

/-! ### Where the reached bytes lie -/

/-- The next address, where it does not wrap. -/
theorem toNat_succ (h : a.toNat + 1 < 2 ^ 32) : (a + 1).toNat = a.toNat + 1 := by
  rw [BitVec.toNat_add]
  exact Nat.mod_eq_of_lt h

/-- A range of the window is held. -/
theorem holds_of_window (h₁ : m.base.toNat ≤ a.toNat) (h₂ : a.toNat + n ≤ m.base.toNat + m.size)
    (h₃ : a.toNat + n ≤ 2 ^ 32) : m.holds a n = true := by
  unfold holds
  rw [decide_eq_true_eq]
  induction n generalizing a with
  | zero => rfl
  | succ n ih =>
    have ho : m.offset a = some (a.toNat - m.base.toNat) :=
      windowOffset_eq_some.2 ⟨by omega, by omega⟩
    rw [reach, ho]
    refine congrArg (· + 1) ?_
    rcases Nat.eq_zero_or_pos n with rfl | hn
    · rfl
    · have hs := @toNat_succ a (by omega)
      exact ih (by omega) (by omega) (by omega)

/-- What a range reaches lies in it. -/
theorem mem_reach (h : off ∈ m.reach a n) (hw : a.toNat + n ≤ 2 ^ 32) :
    a.toNat ≤ m.base.toNat + off ∧ m.base.toNat + off < a.toNat + n := by
  induction n generalizing a with
  | zero => exact absurd h List.not_mem_nil
  | succ n ih =>
    rw [reach] at h
    cases ho : m.offset a with
    | none =>
      rw [ho] at h
      exact absurd h List.not_mem_nil
    | some o =>
      obtain ⟨hb, -⟩ := windowOffset_eq_some.1 ho
      rw [ho] at h
      rcases List.mem_cons.1 h with rfl | h
      · omega
      · rcases Nat.eq_zero_or_pos n with rfl | hn
        · exact absurd h List.not_mem_nil
        · have hs := @toNat_succ a (by omega)
          have := ih h (by omega)
          omega

/-- A window of the whole address space. -/
theorem all_reach (h : m.base.toNat = 0) (hs : 2 ^ 32 ≤ m.size) : (m.reach a n).length = n := by
  induction n generalizing a with
  | zero => rfl
  | succ n ih =>
    have ho : m.offset a = some a.toNat :=
      windowOffset_eq_some.2 ⟨by omega, Nat.lt_of_lt_of_le a.isLt hs⟩
    rw [reach, ho]
    exact congrArg (· + 1) ih

/-- A stamp that is refused has not wrapped around. -/
theorem mem_reach_of_short (h : off ∈ m.reach a n) (hn : m.holds a n = false) :
    a.toNat ≤ m.base.toNat + off := by
  unfold holds at hn
  rw [decide_eq_false_iff_not] at hn
  induction n generalizing a with
  | zero => exact absurd h List.not_mem_nil
  | succ n ih =>
    rw [reach] at h hn
    cases ho : m.offset a with
    | none =>
      rw [ho] at h
      exact absurd h List.not_mem_nil
    | some o =>
      obtain ⟨hb, hsz⟩ := windowOffset_eq_some.1 ho
      rw [ho] at h hn
      rcases List.mem_cons.1 h with rfl | h
      · omega
      have hshort : ¬ (m.reach (a + 1) n).length = n := fun e => hn (congrArg (· + 1) e)
      rcases Nat.lt_or_ge (a.toNat + 1) (2 ^ 32) with hlt | hge
      · have := ih h hshort
        rw [toNat_succ hlt] at this
        omega
      · -- the range goes on at zero, so the window is the whole address space
        have ha : a.toNat + 1 = 2 ^ 32 := by have := a.isLt; omega
        have hz : a + 1 = 0 := BitVec.eq_of_toNat_eq (by rw [BitVec.toNat_add]; simp [ha])
        rw [hz] at h hshort
        cases n with
        | zero => exact absurd h List.not_mem_nil
        | succ n =>
          rw [reach] at h
          cases h0 : m.offset 0 with
          | none =>
            rw [h0] at h
            exact absurd h List.not_mem_nil
          | some o₀ =>
            obtain ⟨hb₀, -⟩ := windowOffset_eq_some.1 h0
            have hbase : m.base.toNat = 0 := by
              have : (0 : U32).toNat = 0 := rfl
              omega
            exact absurd (all_reach (by omega) (by omega)) hshort
/-- A range in bounds is held. -/
theorem holds_of_inBounds {len : U32} (h : m.inBounds a len = true) (hpos : len ≠ 0) :
    m.holds a len.toNat = true ∧ m.base.toNat ≤ a.toNat ∧ a.toNat + len.toNat ≤ 2 ^ 32 := by
  have hlen : 0 < len.toNat := Nat.pos_of_ne_zero fun e => hpos (BitVec.eq_of_toNat_eq e)
  have hsub : (len - 1).toNat = len.toNat - 1 :=
    BitVec.toNat_sub_of_le (BitVec.le_def.2 (by simp; omega))
  unfold inBounds at h
  rw [if_neg hpos] at h
  cases ho : m.offset a with
  | none => simp [ho] at h
  | some start =>
    rw [ho] at h
    dsimp only at h
    by_cases hlt : a.toNat + (len.toNat - 1) < 2 ^ 32
    · rw [if_pos hlt] at h
      have hadd : (a + (len - 1)).toNat = a.toNat + (len.toNat - 1) := by
        rw [BitVec.toNat_add, hsub]
        exact Nat.mod_eq_of_lt hlt
      cases ho' : m.offset (a + (len - 1)) with
      | none =>
        rw [ho'] at h
        cases h
      | some last =>
        obtain ⟨hb, -⟩ := windowOffset_eq_some.1 ho
        obtain ⟨hb', hl'⟩ := windowOffset_eq_some.1 ho'
        exact ⟨holds_of_window (by omega) (by omega) (by omega), by omega, by omega⟩
    · rw [if_neg hlt] at h
      cases h

end

end Mmu

/-! ## Stamps of the heap sanitizer -/

namespace Sanitizer

section
variable (s : Sanitizer) (m : Mmu) (addr : U32)

/-- The bytes of the guard before a payload, if it is not left out. -/
def guardBefore : List Nat :=
  if s.redzone ≠ 0 ∧ addr - s.redzone ≤ addr ∧ m.inBounds (addr - s.redzone) s.redzone then
    m.reach (addr - s.redzone) s.redzone.toNat
  else []

def guardAfter (size : U32) : List Nat :=
  if s.redzone ≠ 0 ∧ addr.toNat + size.toNat < 2 ^ 32 ∧ m.inBounds (addr + size) s.redzone then
    m.reach (addr + size) s.redzone.toNat
  else []

def guards (size : U32) : List Nat := s.guardBefore m addr ++ s.guardAfter m addr size

/-- Poisoning the guard before an object cannot fail. -/
theorem poisonGuardBefore_eq :
    s.poisonGuardBefore m addr = (.ok (), m.stamp (s.guardBefore m addr) 0) := by
  unfold poisonGuardBefore guardBefore
  by_cases h0 : s.redzone = 0
  · rw [if_pos h0, if_neg fun h => h.1 h0, Mmu.stamp_nil]
  rw [if_neg h0]
  dsimp only
  by_cases hfit : addr - s.redzone ≤ addr ∧ m.inBounds (addr - s.redzone) s.redzone = true
  · rw [if_pos hfit, if_pos ⟨h0, hfit⟩]
    exact Mmu.protect_ok (Mmu.holds_of_inBounds hfit.2 h0).1
  · rw [if_neg hfit, if_neg fun h => hfit h.2, Mmu.stamp_nil]

/-- Nor can poisoning the guard after it. -/
theorem poisonGuardAfter_eq (size : U32) :
    s.poisonGuardAfter m addr size = (.ok (), m.stamp (s.guardAfter m addr size) 0) := by
  unfold poisonGuardAfter guardAfter
  by_cases h0 : s.redzone = 0
  · rw [if_pos h0, if_neg fun h => h.1 h0, Mmu.stamp_nil]
  rw [if_neg h0]
  dsimp only
  by_cases hlt : addr.toNat + size.toNat < 2 ^ 32
  · rw [if_pos hlt]
    by_cases hfit : m.inBounds (addr + size) s.redzone = true
    · rw [if_pos hfit, if_pos ⟨h0, hlt, hfit⟩]
      exact Mmu.protect_ok (Mmu.holds_of_inBounds hfit h0).1
    · rw [if_neg hfit, if_neg fun h => hfit h.2.2, Mmu.stamp_nil]
  · rw [if_neg hlt, if_neg fun h => hlt h.2.1, Mmu.stamp_nil]

/-- The guard stays where it is after a stamp. -/
theorem guardAfter_stamp (offs : List Nat) (p : U8) (size : U32) :
    s.guardAfter (m.stamp offs p) addr size = s.guardAfter m addr size := by
  unfold guardAfter
  rw [Mmu.reach_stamp]
  rfl

/-- No guard byte is in a payload that the memory refuses. -/
theorem guards_disjoint {size : U32} (h : m.holds addr size.toNat = false) {off : Nat}
    (hg : off ∈ s.guards m addr size) : off ∉ m.reach addr size.toNat := by
  intro hp
  have hlow := Mmu.mem_reach_of_short hp h
  rcases List.mem_append.1 hg with hg | hg
  · unfold guardBefore at hg
    split at hg
    next hfit =>
      obtain ⟨h0, hle, hin⟩ := hfit
      have hle' : s.redzone ≤ addr := by
        rw [BitVec.le_def] at hle ⊢
        rw [BitVec.toNat_sub] at hle
        have := s.redzone.isLt
        have := addr.isLt
        have hpos : 0 < s.redzone.toNat :=
          Nat.pos_of_ne_zero fun e => h0 (BitVec.eq_of_toNat_eq e)
        by_contra hc
        rw [Nat.mod_eq_of_lt (by omega)] at hle
        omega
      have hsub : (addr - s.redzone).toNat = addr.toNat - s.redzone.toNat :=
        BitVec.toNat_sub_of_le hle'
      have hle'' : s.redzone.toNat ≤ addr.toNat := hle'
      have := (Mmu.mem_reach hg (Mmu.holds_of_inBounds hin h0).2.2).2
      omega
    · exact absurd hg List.not_mem_nil
  · unfold guardAfter at hg
    split at hg
    next hfit =>
      obtain ⟨h0, hlt, hin⟩ := hfit
      have hadd : (addr + size).toNat = addr.toNat + size.toNat := by
        rw [BitVec.toNat_add]
        exact Nat.mod_eq_of_lt hlt
      have hup := (Mmu.mem_reach hp (Nat.le_of_lt hlt)).2
      have hlow' := (Mmu.mem_reach hg (Mmu.holds_of_inBounds hin h0).2.2).1
      omega
    · exact absurd hg List.not_mem_nil

/-- Poisoning slack cannot fail. -/
theorem poisonSlack_isOk (reqSize bucketSize : U32) :
    ∃ m', poisonSlack m addr reqSize bucketSize = (.ok (), m') := by
  unfold poisonSlack
  dsimp only
  split
  · exact ⟨m, rfl⟩
  next h0 =>
    split
    · split
      next hfit => exact ⟨_, Mmu.protect_ok (Mmu.holds_of_inBounds hfit h0).1⟩
      · exact ⟨m, rfl⟩
    · exact ⟨m, rfl⟩

end

end Sanitizer

/-! ## When a failure leaves everything as it was -/

/-- Everything that a sanitizer keeps. -/
def Sanitizer.books (s : Sanitizer) :
    (U32 → Option LiveAlloc) × List U32 × (U32 → Option LiveAlloc) :=
  (s.live, s.quarantineOrder, s.quarantined)

def PageSanitizer.books (s : PageSanitizer) :
    (U32 → Option U32) × List U32 × (U32 → Option U32) :=
  (s.live, s.quarantineOrder, s.quarantined)

/-- The window holds the range, or the stamp sets what is there already. -/
def Mmu.Lossless (m : Mmu) (addr : U32) (len : Nat) (p : U8) : Prop :=
  m.holds addr len = true ∨ m.settled (m.reach addr len) p = true

/-- The operation loses nothing if it fails: it does not come to a stamp, its stamps succeed, or they
set what is there already. A free that comes to a stamp loses its allocation unless the stamp
succeeds. -/
def SanOp.Harmless (s : Sanitizer) (m : Mmu) : SanOp → Prop
  | alloc addr size =>
    (s.live addr).isSome = true ∨ m.holds addr size.toNat = true ∨
      m.settled (s.guards m addr size) 0 = true ∧
        m.settled (m.reach addr size.toNat) (PERM_WRITE ||| PERM_RAW) = true
  | allocWithSlack addr size _ | allocExactNoUafGuard addr size =>
    (s.live addr).isSome = true ∨ m.Lossless addr size.toNat (PERM_WRITE ||| PERM_RAW)
  | reopenSlack addr =>
    ∀ a req bucket, s.live addr = some a → a.slack = some (req, bucket) →
      addr.toNat + req.toNat < 2 ^ 32 →
        m.Lossless (addr + req) (bucket - req).toNat (PERM_WRITE ||| PERM_RAW)
  | free addr =>
    ∀ a, s.live addr = some a → a.freePoisons = true → m.holds addr a.size.toNat = true

/-- As for the heap; an order that no range has is refused before an allocation stamps, and after a
free has taken back its range. -/
def PageOp.Harmless (s : PageSanitizer) (m : Mmu) : PageOp → Prop
  | allocPages basePa order =>
    (s.live basePa).isSome = true ∨ ∀ len, PageSanitizer.pageRangeLen order = some len →
      m.Lossless basePa len.toNat (PERM_READ ||| PERM_WRITE)
  | freePages basePa order =>
    s.live basePa = none ∨ ∃ len, PageSanitizer.pageRangeLen order = some len ∧
      m.holds basePa len.toNat = true

section
variable {m : Mmu} {addr : U32}

/-- A stamp on its own. -/
theorem Mmu.lossless_iff {α : Type} {b : α} {len : Nat} {p : U8} :
    (m.holds addr len = false → b = b ∧ (m.stamp (m.reach addr len) p).perms = m.perms) ↔
      m.Lossless addr len p := by
  rw [stamp_perms, Lossless]
  cases m.holds addr len <;> simp

/-- A live allocation that is taken back is missed. -/
theorem books_remove_ne {s : Sanitizer} {a : LiveAlloc} (hl : s.live addr = some a) :
    Sanitizer.books { s with live := Function.update s.live addr none } ≠ s.books := by
  intro h
  have hlive := congrFun (congrArg Prod.fst h) addr
  dsimp only [Sanitizer.books] at hlive
  rw [Function.update_self, hl] at hlive
  cases hlive

/-- Dropping a live block changes the books. -/
theorem pages_remove_ne {s : PageSanitizer} {o : U32} (hl : s.live addr = some o) :
    PageSanitizer.books { s with live := Function.update s.live addr none } ≠ s.books := by
  intro h
  have hlive := congrFun (congrArg Prod.fst h) addr
  dsimp only [PageSanitizer.books] at hlive
  rw [Function.update_self, hl] at hlive
  cases hlive

end

namespace Sanitizer

section
variable (s : Sanitizer) (m : Mmu) (addr : U32)

/-- An allocation of an unknown address: guards first, then the object. -/
theorem alloc_eq {size : U32} (hl : s.live addr = none) :
    s.alloc m addr size =
      match (m.stamp (s.guards m addr size) 0).protect addr size.toNat (PERM_WRITE ||| PERM_RAW) with
      | (.error f, m) => (.error (.mmu f), s, m)
      | (.ok (), m) => (.ok (), s.insertLive addr ⟨size, s.redzone, none, true, nofun⟩, m) := by
  unfold alloc
  simp only [hl, Option.isSome_none, Bool.false_eq_true, if_false, poisonGuardBefore_eq,
    poisonGuardAfter_eq, guardAfter_stamp, Mmu.stamp_append]
  rfl

/-- A refused allocation changes nothing exactly when it is harmless. -/
theorem alloc_harmless (size : U32) :
    ((s.alloc m addr size).1.isOk = false →
      (s.alloc m addr size).2.1.books = s.books ∧ (s.alloc m addr size).2.2.perms = m.perms) ↔
      SanOp.Harmless s m (.alloc addr size) := by
  rw [SanOp.Harmless]
  cases hl : s.live addr with
  | some a => simp [alloc, hl]
  | none =>
    rw [alloc_eq s m addr hl]
    have hreach := @Mmu.reach_stamp m addr size.toNat 0 (s.guards m addr size)
    have hdis := @Mmu.stamp_stamp_perms m 0 (s.guards m addr size) (m.reach addr size.toNat)
      (PERM_WRITE ||| PERM_RAW)
    have hnot := fun h off => @guards_disjoint s m addr size h off
    generalize m.settled (s.guards m addr size) 0 = guarded at hdis ⊢
    generalize m.stamp (s.guards m addr size) 0 = m₁ at hreach hdis ⊢
    have hholds : m₁.holds addr size.toNat = m.holds addr size.toNat := by
      rw [Mmu.holds, hreach, Mmu.holds]
    cases hh : m.holds addr size.toNat with
    | true =>
      rw [Mmu.protect_ok (hholds.trans hh)]
      simp [Except.isOk, Except.toBool]
    | false =>
      obtain ⟨f, hf⟩ := Mmu.protect_error (p := PERM_WRITE ||| PERM_RAW) (hholds.trans hh)
      rw [hf, hreach]
      simp [hdis fun off hg hp => absurd hp (hnot hh off hg), Except.isOk, Except.toBool]

/-- The same of an allocation with slack. -/
theorem allocWithSlack_harmless (reqSize bucketSize : U32) :
    ((s.allocWithSlack m addr reqSize bucketSize).1.isOk = false →
      (s.allocWithSlack m addr reqSize bucketSize).2.1.books = s.books ∧
        (s.allocWithSlack m addr reqSize bucketSize).2.2.perms = m.perms) ↔
      SanOp.Harmless s m (.allocWithSlack addr reqSize bucketSize) := by
  unfold allocWithSlack
  rw [SanOp.Harmless]
  cases hl : s.live addr with
  | some a => simp
  | none =>
    simp only [Option.isSome_none, Bool.false_eq_true, if_false, false_or]
    rw [← Mmu.lossless_iff (b := s.books)]
    cases hh : m.holds addr reqSize.toNat with
    | true =>
      rw [Mmu.protect_ok hh]
      dsimp only
      obtain ⟨m', hm⟩ := poisonSlack_isOk
        (m.stamp (m.reach addr reqSize.toNat) (PERM_WRITE ||| PERM_RAW)) addr reqSize
        (if bucketSize < reqSize then reqSize else bucketSize)
      rw [hm]
      simp [Except.isOk, Except.toBool]
    | false =>
      obtain ⟨f, hf⟩ := Mmu.protect_error (p := PERM_WRITE ||| PERM_RAW) hh
      rw [hf]
      simp [Except.isOk, Except.toBool]

/-- The same of an allocation without guards. -/
theorem allocExactNoUafGuard_harmless (size : U32) :
    ((s.allocExactNoUafGuard m addr size).1.isOk = false →
      (s.allocExactNoUafGuard m addr size).2.1.books = s.books ∧
        (s.allocExactNoUafGuard m addr size).2.2.perms = m.perms) ↔
      SanOp.Harmless s m (.allocExactNoUafGuard addr size) := by
  unfold allocExactNoUafGuard
  rw [SanOp.Harmless]
  cases hl : s.live addr with
  | some a => simp
  | none =>
    simp only [Option.isSome_none, Bool.false_eq_true, if_false, false_or]
    rw [← Mmu.lossless_iff (b := s.books)]
    cases hh : m.holds addr size.toNat with
    | true => simp [Mmu.protect_ok hh, Except.isOk, Except.toBool]
    | false =>
      obtain ⟨f, hf⟩ := Mmu.protect_error (p := PERM_WRITE ||| PERM_RAW) hh
      rw [hf]
      simp [Except.isOk, Except.toBool]

/-- When reopening known slack is harmless. -/
theorem harmless_reopenSlack {s : Sanitizer} {m : Mmu} {addr : U32} {a : LiveAlloc}
    {req bucket : U32} (hl : s.live addr = some a) (hs : a.slack = some (req, bucket)) :
    SanOp.Harmless s m (.reopenSlack addr) ↔ (addr.toNat + req.toNat < 2 ^ 32 →
      m.Lossless (addr + req) (bucket - req).toNat (PERM_WRITE ||| PERM_RAW)) := by
  refine ⟨fun h => h a req bucket hl hs, fun h a' req' bucket' hl' hs' => ?_⟩
  rw [hl] at hl'
  cases hl'
  rw [hs] at hs'
  cases hs'
  exact h

/-- A refused reopening changes nothing exactly when it is harmless. -/
theorem reopenSlack_harmless :
    ((s.reopenSlack m addr).1.isOk = false →
      s.books = s.books ∧ (s.reopenSlack m addr).2.perms = m.perms) ↔
      SanOp.Harmless s m (.reopenSlack addr) := by
  unfold reopenSlack
  cases hl : s.live addr with
  | none => simp [SanOp.Harmless, hl]
  | some a =>
    dsimp only
    cases hs : a.slack with
    | none =>
      have hharm : SanOp.Harmless s m (.reopenSlack addr) := by
        intro a' req bucket hl' hs'
        rw [hl] at hl'
        cases hl'
        rw [hs] at hs'
        cases hs'
      exact iff_of_true (fun _ => ⟨rfl, rfl⟩) hharm
    | some rb =>
      obtain ⟨req, bucket⟩ := rb
      rw [harmless_reopenSlack hl hs]
      dsimp only
      by_cases h0 : bucket - req = 0
      · rw [if_pos h0, h0]
        exact iff_of_true (fun _ => ⟨rfl, rfl⟩) fun _ => .inl rfl
      rw [if_neg h0]
      by_cases hlt : addr.toNat + req.toNat < 2 ^ 32
      · rw [if_pos hlt, imp_iff_right hlt, ← Mmu.lossless_iff (b := s.books)]
        cases hh : m.holds (addr + req) (bucket - req).toNat with
        | true =>
          rw [Mmu.protect_ok hh]
          exact iff_of_true nofun nofun
        | false =>
          obtain ⟨f, hf⟩ := Mmu.protect_error (p := PERM_WRITE ||| PERM_RAW) hh
          rw [hf]
          exact Iff.rfl
      · rw [if_neg hlt]
        exact iff_of_true nofun fun h => absurd h hlt

/-- A refused free changes nothing exactly when it is harmless. -/
theorem free_harmless :
    ((s.free m addr).1.isOk = false →
      (s.free m addr).2.1.books = s.books ∧ (s.free m addr).2.2.perms = m.perms) ↔
      SanOp.Harmless s m (.free addr) := by
  unfold free
  rw [SanOp.Harmless]
  cases hl : s.live addr with
  | none => simp
  | some a =>
    simp only [Option.some.injEq, forall_eq']
    cases hp : a.freePoisons with
    | false => simp [Except.isOk, Except.toBool]
    | true =>
      simp only [if_true, true_imp_iff]
      cases hh : m.holds addr a.size.toNat with
      | true => simp [Mmu.poison, Mmu.protect_ok hh, Except.isOk, Except.toBool]
      | false =>
        obtain ⟨f, hf⟩ := Mmu.protect_error (p := 0) hh
        rw [Mmu.poison, hf]
        simp [Except.isOk, Except.toBool, books_remove_ne hl]

end

end Sanitizer

namespace PageSanitizer

section
variable (s : PageSanitizer) (m : Mmu) (basePa order : U32)

/-- A refused page allocation changes nothing exactly when it is harmless. -/
theorem allocPages_harmless :
    ((s.allocPages m basePa order).1.isOk = false →
      (s.allocPages m basePa order).2.1.books = s.books ∧
        (s.allocPages m basePa order).2.2.perms = m.perms) ↔
      PageOp.Harmless s m (.allocPages basePa order) := by
  unfold allocPages
  rw [PageOp.Harmless]
  cases hl : s.live basePa with
  | some a => simp
  | none =>
    simp only [Option.isSome_none, Bool.false_eq_true, if_false, false_or]
    cases hr : pageRangeLen order with
    | none => simp
    | some len =>
      simp only [Option.some.injEq, forall_eq']
      rw [← Mmu.lossless_iff (b := s.books)]
      cases hh : m.holds basePa len.toNat with
      | true => simp [Mmu.protect_ok hh, Except.isOk, Except.toBool]
      | false =>
        obtain ⟨f, hf⟩ := Mmu.protect_error (p := PERM_READ ||| PERM_WRITE) hh
        rw [hf]
        simp [Except.isOk, Except.toBool]

/-- A refused page free changes nothing exactly when it is harmless. -/
theorem freePages_harmless :
    ((s.freePages m basePa order).1.isOk = false →
      (s.freePages m basePa order).2.1.books = s.books ∧
        (s.freePages m basePa order).2.2.perms = m.perms) ↔
      PageOp.Harmless s m (.freePages basePa order) := by
  unfold freePages
  rw [PageOp.Harmless]
  cases hl : s.live basePa with
  | none => simp
  | some a =>
    simp only [reduceCtorEq, false_or]
    cases hr : pageRangeLen order with
    | none => simp [Except.isOk, Except.toBool, pages_remove_ne hl]
    | some len =>
      simp only [Option.some.injEq, exists_eq_left']
      cases hh : m.holds basePa len.toNat with
      | true => simp [Mmu.poison, Mmu.protect_ok hh, Except.isOk, Except.toBool]
      | false =>
        obtain ⟨f, hf⟩ := Mmu.protect_error (p := 0) hh
        rw [Mmu.poison, hf]
        simp [Except.isOk, Except.toBool, pages_remove_ne hl]

end

end PageSanitizer

/-- An operation that fails leaves the live set, the quarantine and every permission byte as they were
if and only if it is harmless, on every sanitizer and every memory. -/
theorem refusals_unchanged (m : Mmu) :
    (∀ (s : Sanitizer) (op : SanOp),
      ((op.exec s m).1.isOk = false →
        (op.exec s m).2.1.books = s.books ∧ (op.exec s m).2.2.perms = m.perms) ↔
        op.Harmless s m) ∧
    ∀ (s : PageSanitizer) (op : PageOp),
      ((op.exec s m).1.isOk = false →
        (op.exec s m).2.1.books = s.books ∧ (op.exec s m).2.2.perms = m.perms) ↔
        op.Harmless s m := by
  refine ⟨fun s op => ?_, fun s op => ?_⟩
  · cases op with
    | alloc addr size => exact s.alloc_harmless m addr size
    | allocWithSlack addr req bucket => exact s.allocWithSlack_harmless m addr req bucket
    | allocExactNoUafGuard addr size => exact s.allocExactNoUafGuard_harmless m addr size
    | reopenSlack addr => exact s.reopenSlack_harmless m addr
    | free addr => exact s.free_harmless m addr
  · cases op with
    | allocPages basePa order => exact s.allocPages_harmless m basePa order
    | freePages basePa order => exact s.freePages_harmless m basePa order

/-- Eight bytes in a slot of sixteen at the end of the window: the slack is left out, and the free
that then fails has taken back the allocation and poisoned the eight bytes. -/
theorem refusals_unchanged_slack :
    let m := Mmu.new 0x80000000 0x100
    let r := (SanOp.allocWithSlack 0x800000f8 8 16).exec (.withQuarantineCap 0 4) m
    let r' := (SanOp.free 0x800000f8).exec r.2.1 r.2.2
    r.1.isOk = true ∧ r'.1.isOk = false ∧
      ¬ (r'.2.1.books = r.2.1.books ∧ r'.2.2.perms = r.2.2.perms) := by
  dsimp only
  refine ⟨by decide +kernel, by decide +kernel, fun h => ?_⟩
  have h₁ := congrArg Option.isSome (congrFun (congrArg Prod.fst h.1) 0x800000f8)
  revert h₁
  decide +kernel

end FuzzSoft
