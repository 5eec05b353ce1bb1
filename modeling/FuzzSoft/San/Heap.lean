import Mathlib
import FuzzSoft.Lib.Heap
import FuzzSoft.Lib.Run
import FuzzSoft.Mmu.SpanPaths
import FuzzSoft.San.Alloc

/-!
# The heap sanitizer faults on misuse

The sanitizer and the memory beside an abstract heap whose bytes are integers. Every operation of the
sanitizer, and every write of the guest, leaves each tracked byte with the permissions of its cell
(`TrackedHeap.Sound`), so a tracked byte can be written exactly when the heap lets it be used, and read
exactly when it was written since as well (`faults_exactly`).
-/

namespace FuzzSoft

open Lib

/-! ## Bytes of the window -/

/-- The addresses `[addr, addr + len)`, not wrapped. -/
def bytes (addr : U32) (len : Nat) : Set ℤ := Set.Ico (addr.toNat : ℤ) (addr.toNat + len)

/-- The addresses of a guest access, which go on at zero after the last one. -/
def wrappedBytes (addr : U32) (len : Nat) : Set ℤ :=
  {x | ∃ i < len, x = (addr + BitVec.ofNat 32 i).toNat}

namespace Mmu

/-- The integers that are addresses of the window. -/
def window (m : Mmu) : Set ℤ :=
  {x | (m.base.toNat : ℤ) ≤ x ∧ x < m.base.toNat + m.size ∧ x < 2 ^ 32}

/-- The permission byte at an address of the window. -/
def permOf (m : Mmu) (x : ℤ) : U8 := m.perms (x - m.base.toNat).toNat

section
variable {m m' m'' : Mmu} {a : U32} {x : ℤ} {X : Set ℤ} {p : U8}

/-- An address of the window has an offset. -/
theorem offset_of_window (h : (a.toNat : ℤ) ∈ m.window) :
    ∃ off, m.offset a = some off ∧ (a.toNat : ℤ) - m.base.toNat = off := by
  obtain ⟨h₁, h₂, -⟩ := h
  refine ⟨a.toNat - m.base.toNat, windowOffset_eq_some.2 ⟨by omega, by omega⟩, by omega⟩

/-- `m'` is `m` with the permission byte `p` on `X`. -/
structure Painted (m : Mmu) (X : Set ℤ) (p : U8) (m' : Mmu) : Prop where
  planes : ∃ q, m' = { m with perms := q }
  on : ∀ x ∈ X, m'.permOf x = p
  off : ∀ x ∈ m.window, x ∉ X → m'.permOf x = m.permOf x
  inside : Inside m m'

/-- Painting keeps the window. -/
theorem Painted.window (h : m.Painted X p m') : m'.window = m.window := by
  obtain ⟨q, rfl⟩ := h.planes
  rfl

/-- Painting nothing changes nothing. -/
theorem Painted.empty (hX : X = ∅) : m.Painted X p m := by
  subst hX
  exact ⟨⟨m.perms, rfl⟩, fun x hx => absurd hx (Set.notMem_empty x), fun x _ _ => rfl, .refl m⟩

/-- No bytes. -/
theorem bytes_zero (a : U32) : bytes a 0 = ∅ := by simp [bytes]

/-- The first byte of a range inside the window and the others. -/
theorem mem_bytes_succ {n : Nat} (h : bytes a (n + 1) ⊆ m.window) :
    x ∈ bytes a (n + 1) ↔ x = a.toNat ∨ x ∈ bytes (a + 1) n := by
  simp only [bytes, Set.mem_Ico]
  rcases Nat.eq_zero_or_pos n with rfl | hn
  · omega
  · have hlast : ((a.toNat : ℤ) + 1) ∈ m.window := h ⟨by omega, by omega⟩
    have hlt := hlast.2.2
    have hsucc : (a + 1).toNat = a.toNat + 1 := by
      rw [BitVec.toNat_add]
      exact Nat.mod_eq_of_lt (by simp; omega)
    rw [hsucc]
    omega

/-- Stamping a range inside the window succeeds. -/
theorem protect_bytes (m : Mmu) (a : U32) (len : Nat) (p : U8) (h : bytes a len ⊆ m.window) :
    ∃ m', m.protect a len p = (.ok (), m') ∧ m.Painted (bytes a len) p m' := by
  unfold protect
  suffices hgo : ∀ (n : Nat) (m : Mmu) (a : U32), bytes a n ⊆ m.window →
      ∃ m', protect.go len p m a n = (.ok (), m') ∧ m.Painted (bytes a n) p m' from hgo len m a h
  intro n
  induction n with
  | zero => exact fun m a _ => ⟨m, rfl, .empty (bytes_zero a)⟩
  | succ n ih =>
    intro m a h
    have hmem := fun x => @mem_bytes_succ m a x n h
    have ha := h ((hmem _).2 (.inl rfl))
    obtain ⟨off, ho, hoff⟩ := offset_of_window ha
    rw [protect.go, ho]
    obtain ⟨m', he, hp⟩ := ih { m with perms := setAt m.perms off p } (a + 1)
      fun x hx => h ((hmem x).2 (.inr hx))
    refine ⟨m', he, ?_, fun x hx => ?_, fun x hw hx => ?_, ?_⟩
    · obtain ⟨q, rfl⟩ := hp.planes
      exact ⟨q, rfl⟩
    · by_cases hx' : x ∈ bytes (a + 1) n
      · exact hp.on x hx'
      · have hxa := ((hmem x).1 hx).resolve_right hx'
        rw [hp.off x (h hx) hx', hxa]
        show setAt m.perms off p _ = p
        rw [hoff]
        exact setAt_self _ _ _
    · rw [hmem, not_or] at hx
      rw [hp.off x hw hx.2]
      have hlo := hw.1
      refine setAt_of_ne _ _ fun e => hx.1 ?_
      change (x - m.base.toNat).toNat = off at e
      omega
    · refine Inside.trans ?_ hp.inside
      exact inside_setAt ho p rfl rfl rfl

/-- Poisoning a range of the window paints it. -/
theorem poison_bytes (m : Mmu) (a : U32) (len : Nat) (h : bytes a len ⊆ m.window) :
    ∃ m', m.poison a len = (.ok (), m') ∧ m.Painted (bytes a len) 0 m' :=
  m.protect_bytes a len 0 h

/-- A range of the window is in bounds. -/
theorem inBounds_of_window {len : U32} (hpos : len ≠ 0) (h : bytes a len.toNat ⊆ m.window) :
    m.inBounds a len = true := by
  have hlen : 0 < len.toNat := Nat.pos_of_ne_zero fun e => hpos (BitVec.eq_of_toNat_eq e)
  have hfirst : (a.toNat : ℤ) ∈ m.window := h ⟨by omega, by omega⟩
  have hlast : ((a.toNat : ℤ) + (len.toNat - 1 : Nat)) ∈ m.window := h ⟨by omega, by omega⟩
  have hlt : a.toNat + (len.toNat - 1) < 2 ^ 32 := by have := hlast.2.2; omega
  have hsub : (len - 1).toNat = len.toNat - 1 :=
    BitVec.toNat_sub_of_le (BitVec.le_def.2 (by simp; omega))
  have hadd : (a + (len - 1)).toNat = a.toNat + (len.toNat - 1) := by
    rw [BitVec.toNat_add, hsub]
    exact Nat.mod_eq_of_lt hlt
  obtain ⟨off, ho, hoff⟩ := offset_of_window hfirst
  obtain ⟨off', ho', hoff'⟩ := @offset_of_window m (a + (len - 1)) (by
    rw [hadd]
    push_cast
    exact hlast)
  unfold inBounds
  rw [if_neg hpos, ho]
  dsimp only
  rw [if_pos hlt, ho']
  rw [hadd] at hoff'
  simp only [decide_eq_true_eq]
  omega

/-! ### Accesses -/

/-- The first byte of a guest access and the others. -/
theorem mem_wrappedBytes_succ {n : Nat} :
    x ∈ wrappedBytes a (n + 1) ↔ x = a.toNat ∨ x ∈ wrappedBytes (a + 1) n := by
  have hnext (i : Nat) : a + BitVec.ofNat 32 (i + 1) = a + 1 + BitVec.ofNat 32 i := by
    rw [Nat.add_comm, BitVec.ofNat_add, ← BitVec.add_assoc]
    rfl
  constructor
  · rintro ⟨i, hi, rfl⟩
    cases i with
    | zero => exact .inl (by simp)
    | succ i => exact .inr ⟨i, Nat.lt_of_succ_lt_succ hi, by rw [hnext]⟩
  · rintro (rfl | ⟨i, hi, rfl⟩)
    · exact ⟨0, Nat.succ_pos n, by simp⟩
    · exact ⟨i + 1, Nat.succ_lt_succ hi, by rw [hnext]⟩

/-- Writing twice upgrades once. -/
theorem writtenPerm_idem (p : U8) : writtenPerm (writtenPerm p) = writtenPerm p := by
  revert p
  decide

/-- The byte loop of a write that succeeds. After more than `2 ^ 32` bytes it meets bytes that it has
upgraded already. -/
theorem writeLoop_bytes {len : U32} {data : List U8} {offset : U32 → Option Nat} : ∀ {m : Mmu} {a : U32},
    offset = m.offset → (writeLoop offset Mmu.perms putByte len m a data).1 = .ok () →
    (writeLoop offset Mmu.perms putByte len m a data).2.window = m.window ∧ ∀ x ∈ m.window,
      (x ∈ wrappedBytes a data.length → m.permOf x &&& PERM_WRITE ≠ 0 ∧
        (writeLoop offset Mmu.perms putByte len m a data).2.permOf x = writtenPerm (m.permOf x)) ∧
      (x ∉ wrappedBytes a data.length →
        (writeLoop offset Mmu.perms putByte len m a data).2.permOf x = m.permOf x) := by
  induction data with
  | nil =>
    intro m a _ _
    refine ⟨rfl, fun x _ => ⟨?_, fun _ => rfl⟩⟩
    rintro ⟨i, hi, -⟩
    cases hi
  | cons b bs ih =>
    intro m a hoffset h
    rw [writeLoop] at h ⊢
    cases ho : offset a with
    | none =>
      rw [ho] at h
      cases h
    | some off =>
      rw [ho] at h
      dsimp only at h ⊢
      split at h
      · cases h
      next hp =>
        rw [if_neg hp]
        have hput := samePlanes_putByte m off b
        have hoffset' : offset = (m.putByte off b).offset := by
          rw [hoffset]
          funext a
          rw [Mmu.offset, Mmu.offset, hput.base, hput.size]
        have hwin : (m.putByte off b).window = m.window := by
          simp only [window, hput.base, hput.size]
        obtain ⟨hwin', hperm⟩ := ih hoffset' h
        refine ⟨hwin'.trans hwin, fun x hx => ?_⟩
        have hoff : m.base.toNat + off = a.toNat := (windowOffset_eq_some.1 (hoffset ▸ ho)).1
        have hfirst : (m.putByte off b).permOf a.toNat = writtenPerm (m.permOf a.toNat) := by
          simp only [permOf, hput.base, hput.perms]
          rw [show ((a.toNat : ℤ) - m.base.toNat).toNat = off by omega]
          exact setAt_self _ _ _
        have hpa : m.permOf a.toNat = m.perms off := by
          rw [permOf, show ((a.toNat : ℤ) - m.base.toNat).toNat = off by omega]
        obtain ⟨hin, hout⟩ := hperm x (hwin ▸ hx)
        rw [List.length_cons, mem_wrappedBytes_succ]
        by_cases hxa : x = a.toNat
        · subst hxa
          refine ⟨fun _ => ⟨hpa ▸ hp, ?_⟩, fun hn => absurd (.inl rfl) hn⟩
          by_cases hrest : (a.toNat : ℤ) ∈ wrappedBytes (a + 1) bs.length
          · rw [(hin hrest).2, hfirst, writtenPerm_idem]
          · rw [hout hrest, hfirst]
        · have hsame : (m.putByte off b).permOf x = m.permOf x := by
            simp only [permOf, hput.base, hput.perms]
            refine setAt_of_ne _ _ fun e => hxa ?_
            have := hx.1
            omega
          rw [hsame] at hin hout
          exact ⟨fun hb => hin (hb.resolve_left hxa), fun hn => hout fun hb => hn (.inr hb)⟩

/-- A write that succeeds found every byte writable, and upgrades it. -/
theorem write_bytes {data : List U8} (hb : m.Backed) (h : (m.write a data).1 = .ok ()) :
    (m.write a data).2.window = m.window ∧ ∀ x ∈ m.window,
      (x ∈ wrappedBytes a data.length → m.permOf x &&& PERM_WRITE ≠ 0 ∧
        (m.write a data).2.permOf x = writtenPerm (m.permOf x)) ∧
      (x ∉ wrappedBytes a data.length → (m.write a data).2.permOf x = m.permOf x) := by
  rw [hb.write] at h ⊢
  exact writeLoop_bytes rfl h

/-- The span test for one byte. -/
theorem spanHas_one {off : Nat} (ho : m.offset a = some off) (need : U8) :
    m.spanHas need a 1 = if m.perms off &&& need = 0 then none else some off := by
  have hlt : off + 1 ≤ m.size := (windowOffset_eq_some.1 ho).2
  unfold spanHas
  rw [ho]
  by_cases hp : m.perms off &&& need = 0 <;> simp [allSpan, hp, hlt]

/-- The read of one byte. -/
theorem read_one {off : Nat} (ho : m.offset a = some off) : m.read a 1 =
    if m.perms off &&& PERM_READ = 0 then .error ⟨a, 1, .read, .permission⟩
    else .ok [m.mem off] := by
  unfold read
  rw [spanHas_one ho]
  by_cases hp : m.perms off &&& PERM_READ = 0
  · rw [if_pos hp, if_pos hp]
    simp only [readBytewise, readLoop, ho, hp, if_true]
    rfl
  · rw [if_neg hp, if_neg hp]
    rfl

/-- The write of one byte. -/
theorem write_one {off : Nat} (ho : m.offset a = some off) (b : U8) : (m.write a [b]).1 =
    if m.perms off &&& PERM_WRITE = 0 then .error ⟨a, 1, .write, .permission⟩ else .ok () := by
  unfold write
  rw [List.length_singleton, spanHas_one ho]
  by_cases hp : m.perms off &&& PERM_WRITE = 0
  · rw [if_pos hp, if_pos hp]
    simp only [writeBytewise, writeLoop, ho, hp, if_true]
    rfl
  · rw [if_neg hp, if_neg hp]

end

end Mmu

/-! ## The slots of the sanitizer -/

/-- The slot of `alloc`: a payload between two guards. -/
def guardedSlot (addr size redzone : U32) : Slot ℤ where
  payload := bytes addr size.toNat
  slack := ∅
  guard := Set.Ico (addr.toNat - redzone.toNat : ℤ) addr.toNat ∪
    Set.Ico (addr.toNat + size.toNat : ℤ) (addr.toNat + size.toNat + redzone.toNat)
  opened := false
  lingers := false
  slack_payload := Set.empty_disjoint _
  guard_body := by
    rw [Set.union_empty, Set.disjoint_left]
    rintro x (hx | hx) hb <;> simp only [bytes, Set.mem_Ico] at hx hb <;> omega
  slack_of_lingers := nofun

/-- The slot of `alloc_with_slack`: no bucket is smaller than the request. -/
def slackSlot (addr reqSize bucketSize : U32) : Slot ℤ where
  payload := bytes addr reqSize.toNat
  slack := Set.Ico (addr.toNat + reqSize.toNat : ℤ)
    (addr.toNat + max reqSize.toNat bucketSize.toNat)
  guard := ∅
  opened := false
  lingers := false
  slack_payload := by
    rw [Set.disjoint_left]
    intro x hx hb
    simp only [bytes, Set.mem_Ico] at hx hb
    omega
  guard_body := Set.empty_disjoint _
  slack_of_lingers := nofun

/-- The slot of `alloc_exact_no_uaf_guard`. -/
def exactSlot (addr size : U32) : Slot ℤ where
  payload := bytes addr size.toNat
  slack := ∅
  guard := ∅
  opened := false
  lingers := true
  slack_payload := Set.empty_disjoint _
  guard_body := Set.empty_disjoint _
  slack_of_lingers := fun _ => rfl

/-- The slack that the sanitizer remembers of an allocation. -/
def LiveAlloc.slackBytes (addr : U32) (a : LiveAlloc) : Set ℤ :=
  match a.slack with
  | none => ∅
  | some (req, bucket) => Set.Ico (addr.toNat + req.toNat : ℤ) (addr.toNat + bucket.toNat)

/-- What the sanitizer remembers of a live slot. -/
structure LiveAlloc.Describes (addr : U32) (a : LiveAlloc) (s : Slot ℤ) : Prop where
  body : s.body = bytes addr a.size.toNat
  slack : s.slack = a.slackBytes addr
  lingers : s.lingers = !a.freePoisons

namespace Sanitizer

/-- The memory after a slot was handed out: the payload is fresh, the rest of the slot is shut. -/
structure Handed (s : Slot ℤ) (m m' : Mmu) : Prop where
  window : m'.window = m.window
  payload : ∀ x ∈ s.payload, m'.permOf x = PERM_WRITE ||| PERM_RAW
  rest : ∀ x ∈ s.cover, x ∉ s.payload → m'.permOf x = 0
  other : ∀ x ∈ m.window, x ∉ s.cover → m'.permOf x = m.permOf x
  inside : Mmu.Inside m m'

section
variable {s : Sanitizer} {m : Mmu} {addr : U32}

/-- The guard before an object is painted. -/
theorem poisonGuardBefore_ok
    (h : Set.Ico (addr.toNat - s.redzone.toNat : ℤ) addr.toNat ⊆ m.window) :
    ∃ m', s.poisonGuardBefore m addr = (.ok (), m') ∧
      m.Painted (Set.Ico (addr.toNat - s.redzone.toNat : ℤ) addr.toNat) 0 m' := by
  unfold poisonGuardBefore
  by_cases h0 : s.redzone = 0
  · rw [if_pos h0, h0]
    exact ⟨m, rfl, .empty (by simp)⟩
  rw [if_neg h0]
  have hpos : 0 < s.redzone.toNat := Nat.pos_of_ne_zero fun e => h0 (BitVec.eq_of_toNat_eq e)
  have hfirst : (addr.toNat - s.redzone.toNat : ℤ) ∈ m.window := h ⟨by omega, by omega⟩
  have hle : s.redzone.toNat ≤ addr.toNat := by have := hfirst.1; omega
  have hsub : (addr - s.redzone).toNat = addr.toNat - s.redzone.toNat :=
    BitVec.toNat_sub_of_le (BitVec.le_def.2 hle)
  have hbytes : Set.Ico (addr.toNat - s.redzone.toNat : ℤ) addr.toNat =
      bytes (addr - s.redzone) s.redzone.toNat := by
    rw [bytes, hsub]
    congr 1 <;> omega
  rw [hbytes] at h ⊢
  have hstart : addr - s.redzone ≤ addr := by
    rw [BitVec.le_def, hsub]
    omega
  simp only [hstart, Mmu.inBounds_of_window h0 h, and_self, if_true]
  exact m.poison_bytes _ _ h

/-- The guard after an object is painted. -/
theorem poisonGuardAfter_ok {size : U32}
    (h : Set.Ico (addr.toNat + size.toNat : ℤ) (addr.toNat + size.toNat + s.redzone.toNat) ⊆ m.window) :
    ∃ m', s.poisonGuardAfter m addr size = (.ok (), m') ∧
      m.Painted (Set.Ico (addr.toNat + size.toNat : ℤ) (addr.toNat + size.toNat + s.redzone.toNat)) 0
        m' := by
  unfold poisonGuardAfter
  by_cases h0 : s.redzone = 0
  · rw [if_pos h0, h0]
    exact ⟨m, rfl, .empty (by simp)⟩
  rw [if_neg h0]
  have hpos : 0 < s.redzone.toNat := Nat.pos_of_ne_zero fun e => h0 (BitVec.eq_of_toNat_eq e)
  have hfirst : (addr.toNat + size.toNat : ℤ) ∈ m.window := h ⟨by omega, by omega⟩
  have hlt : addr.toNat + size.toNat < 2 ^ 32 := by have := hfirst.2.2; omega
  have hadd : (addr + size).toNat = addr.toNat + size.toNat := by
    rw [BitVec.toNat_add]
    exact Nat.mod_eq_of_lt hlt
  have hbytes : Set.Ico (addr.toNat + size.toNat : ℤ) (addr.toNat + size.toNat + s.redzone.toNat) =
      bytes (addr + size) s.redzone.toNat := by
    rw [bytes, hadd]
    push_cast
    rfl
  rw [hbytes] at h ⊢
  rw [if_pos hlt]
  simp only [Mmu.inBounds_of_window h0 h, if_true]
  exact m.poison_bytes _ _ h

/-- A range that starts `skip` bytes into an allocation. -/
theorem bytes_skip {skip len : U32} (hpos : len ≠ 0)
    (h : Set.Ico (addr.toNat + skip.toNat : ℤ) (addr.toNat + skip.toNat + len.toNat) ⊆ m.window) :
    addr.toNat + skip.toNat < 2 ^ 32 ∧
      Set.Ico (addr.toNat + skip.toNat : ℤ) (addr.toNat + skip.toNat + len.toNat) =
        bytes (addr + skip) len.toNat := by
  have hlen : 0 < len.toNat := Nat.pos_of_ne_zero fun e => hpos (BitVec.eq_of_toNat_eq e)
  have hfirst : (addr.toNat + skip.toNat : ℤ) ∈ m.window := h ⟨by omega, by omega⟩
  have hlt : addr.toNat + skip.toNat < 2 ^ 32 := by have := hfirst.2.2; omega
  have hadd : (addr + skip).toNat = addr.toNat + skip.toNat := by
    rw [BitVec.toNat_add]
    exact Nat.mod_eq_of_lt hlt
  refine ⟨hlt, ?_⟩
  rw [bytes, hadd]
  push_cast
  rfl

/-- The slack of a request in a bucket, by its length. -/
theorem slack_Ico {req bucket : U32} (hle : req ≤ bucket) :
    Set.Ico (addr.toNat + req.toNat : ℤ) (addr.toNat + bucket.toNat) =
      Set.Ico (addr.toNat + req.toNat : ℤ) (addr.toNat + req.toNat + (bucket - req).toNat) := by
  have hle' : req.toNat ≤ bucket.toNat := hle
  have hsub : (bucket - req).toNat = bucket.toNat - req.toNat := BitVec.toNat_sub_of_le hle
  congr 1
  omega

/-- The slack of an object is painted. -/
theorem poisonSlack_ok {req bucket : U32} (hle : req ≤ bucket)
    (h : Set.Ico (addr.toNat + req.toNat : ℤ) (addr.toNat + bucket.toNat) ⊆ m.window) :
    ∃ m', poisonSlack m addr req bucket = (.ok (), m') ∧
      m.Painted (Set.Ico (addr.toNat + req.toNat : ℤ) (addr.toNat + bucket.toNat)) 0 m' := by
  rw [slack_Ico hle] at h ⊢
  unfold poisonSlack
  by_cases h0 : bucket - req = 0
  · simp only [h0, if_true]
    exact ⟨m, rfl, .empty (by simp)⟩
  obtain ⟨hlt, hbytes⟩ := bytes_skip h0 h
  rw [hbytes] at h ⊢
  simp only [h0, if_false, hlt, if_true, Mmu.inBounds_of_window h0 h]
  exact m.poison_bytes _ _ h

/-- A noted allocation lives. -/
theorem live_insertLive (a : LiveAlloc) :
    (s.insertLive addr a).live = Function.update s.live addr (some a) := by
  unfold insertLive evictQuarantine
  split <;> rfl

/-- What an allocation that succeeds notes and paints. -/
theorem alloc_ok {size : U32} (h : (s.alloc m addr size).1 = .ok ())
    (hin : (guardedSlot addr size s.redzone).cover ⊆ m.window) :
    s.live addr = none ∧ ∃ a m', s.alloc m addr size = (.ok (), s.insertLive addr a, m') ∧
      a.Describes addr (guardedSlot addr size s.redzone) ∧
      Handed (guardedSlot addr size s.redzone) m m' := by
  unfold alloc at h ⊢
  cases hl : s.live addr with
  | some a => simp [hl] at h
  | none =>
    obtain ⟨m₁, h₁, hp₁⟩ := @poisonGuardBefore_ok s m addr fun x hx => hin (.inr (.inl hx))
    obtain ⟨m₂, h₂, hp₂⟩ := @poisonGuardAfter_ok s m₁ addr size fun x hx => by
      rw [hp₁.window]
      exact hin (.inr (.inr hx))
    obtain ⟨m₃, h₃, hp₃⟩ := m₂.protect_bytes addr size.toNat (PERM_WRITE ||| PERM_RAW) fun x hx => by
      rw [hp₂.window, hp₁.window]
      exact hin (.inl (.inl hx))
    simp only [Option.isSome_none, Bool.false_eq_true, if_false, h₁, h₂, h₃]
    refine ⟨trivial, _, m₃, rfl, ⟨Set.union_empty _, rfl, rfl⟩, ?_, hp₃.on, ?_, ?_,
      (hp₁.inside.trans hp₂.inside).trans hp₃.inside⟩
    · rw [hp₃.window, hp₂.window, hp₁.window]
    · intro x hx hb
      have hw := hin hx
      rw [hp₃.off x (by rwa [hp₂.window, hp₁.window]) hb]
      rcases hx with (hx | hx) | (hx | hx)
      · exact absurd hx hb
      · exact absurd hx (Set.notMem_empty x)
      · by_cases ha : x ∈ Set.Ico (addr.toNat + size.toNat : ℤ)
          (addr.toNat + size.toNat + s.redzone.toNat)
        · exact hp₂.on x ha
        · rw [hp₂.off x (by rwa [hp₁.window]) ha]
          exact hp₁.on x hx
      · exact hp₂.on x hx
    · intro x hw hx
      rw [hp₃.off x (by rwa [hp₂.window, hp₁.window]) fun hb => hx (.inl (.inl hb)),
        hp₂.off x (by rwa [hp₁.window]) fun ha => hx (.inr (.inr ha)),
        hp₁.off x hw fun ha => hx (.inr (.inl ha))]

/-- The same of an allocation with slack. -/
theorem allocWithSlack_ok {req bucket : U32} (h : (s.allocWithSlack m addr req bucket).1 = .ok ())
    (hin : (slackSlot addr req bucket).cover ⊆ m.window) :
    s.live addr = none ∧ ∃ a m', s.allocWithSlack m addr req bucket = (.ok (), s.insertLive addr a, m') ∧
      a.Describes addr (slackSlot addr req bucket) ∧ Handed (slackSlot addr req bucket) m m' := by
  unfold allocWithSlack at h ⊢
  cases hl : s.live addr with
  | some a => simp [hl] at h
  | none =>
    have hfit := (@slot_fits req bucket _ _ rfl).1
    have hslack : (slackSlot addr req bucket).slack = Set.Ico (addr.toNat + req.toNat : ℤ)
        (addr.toNat + (if bucket < req then req else bucket).toNat) := by
      rw [toNat_slot, slackSlot]
    obtain ⟨m₁, h₁, hp₁⟩ := m.protect_bytes addr req.toNat (PERM_WRITE ||| PERM_RAW) fun x hx =>
      hin (.inl (.inl hx))
    obtain ⟨m₂, h₂, hp₂⟩ := @poisonSlack_ok m₁ addr _ _ hfit fun x hx => by
      rw [hp₁.window]
      rw [← hslack] at hx
      exact hin (.inl (.inr hx))
    rw [← hslack] at hp₂
    simp only [Option.isSome_none, Bool.false_eq_true, if_false, h₁, h₂]
    refine ⟨trivial, _, m₂, rfl, ⟨?_, hslack, rfl⟩, hp₂.window.trans hp₁.window, ?_, ?_, ?_,
      hp₁.inside.trans hp₂.inside⟩
    · ext x
      simp only [Slot.body, slackSlot, bytes, Set.mem_union, Set.mem_Ico, toNat_slot]
      omega
    · intro x hx
      rw [hp₂.off x (by rw [hp₁.window]; exact hin (.inl (.inl hx)))
        fun hs => Set.disjoint_left.1 (slackSlot addr req bucket).slack_payload hs hx]
      exact hp₁.on x hx
    · rintro x ((hx | hx) | hx) hb
      · exact absurd hx hb
      · exact hp₂.on x hx
      · exact absurd hx (Set.notMem_empty x)
    · intro x hw hx
      rw [hp₂.off x (by rwa [hp₁.window]) fun hs => hx (.inl (.inr hs)),
        hp₁.off x hw fun hb => hx (.inl (.inl hb))]

/-- The same of an allocation without guards. -/
theorem allocExactNoUafGuard_ok {size : U32} (h : (s.allocExactNoUafGuard m addr size).1 = .ok ())
    (hin : (exactSlot addr size).cover ⊆ m.window) :
    s.live addr = none ∧ ∃ a m', s.allocExactNoUafGuard m addr size = (.ok (), s.insertLive addr a, m') ∧
      a.Describes addr (exactSlot addr size) ∧ Handed (exactSlot addr size) m m' := by
  unfold allocExactNoUafGuard at h ⊢
  cases hl : s.live addr with
  | some a => simp [hl] at h
  | none =>
    obtain ⟨m', h', hp⟩ := m.protect_bytes addr size.toNat (PERM_WRITE ||| PERM_RAW) fun x hx =>
      hin (.inl (.inl hx))
    simp only [Option.isSome_none, Bool.false_eq_true, if_false, h']
    refine ⟨trivial, _, m', rfl, ⟨Set.union_empty _, rfl, rfl⟩, hp.window, hp.on, ?_, ?_, hp.inside⟩
    · rintro x ((hx | hx) | hx) hb
      · exact absurd hx hb
      · exact absurd hx (Set.notMem_empty x)
      · exact absurd hx (Set.notMem_empty x)
    · exact fun x hw hx => hp.off x hw fun hb => hx (.inl (.inl hb))

/-- Opening the slack of a live slot stamps it, and nothing if there is none. -/
theorem reopenSlack_ok {a : LiveAlloc} (hl : s.live addr = some a)
    (hin : a.slackBytes addr ⊆ m.window) :
    ∃ m', s.reopenSlack m addr = (.ok (), m') ∧
      m.Painted (a.slackBytes addr) (PERM_WRITE ||| PERM_RAW) m' := by
  unfold reopenSlack
  rw [hl]
  dsimp only
  unfold LiveAlloc.slackBytes at hin ⊢
  cases hs : a.slack with
  | none => exact ⟨m, rfl, .empty rfl⟩
  | some rb =>
    obtain ⟨req, bucket⟩ := rb
    obtain ⟨hle, -⟩ := a.slackFits req bucket hs
    simp only [hs] at hin ⊢
    rw [slack_Ico hle] at hin ⊢
    by_cases h0 : bucket - req = 0
    · simp only [h0, if_true]
      exact ⟨m, rfl, .empty (by simp)⟩
    obtain ⟨hlt, hbytes⟩ := bytes_skip h0 hin
    rw [hbytes] at hin ⊢
    obtain ⟨m', h', hp⟩ := m.protect_bytes (addr + req) (bucket - req).toNat
      (PERM_WRITE ||| PERM_RAW) hin
    simp only [h0, if_false, hlt, if_true, h']
    exact ⟨m', rfl, hp⟩

/-- Freeing a live slot poisons all of it, or nothing if the slot lingers. -/
theorem free_ok {a : LiveAlloc} (hl : s.live addr = some a)
    (hin : bytes addr a.size.toNat ⊆ m.window) :
    ∃ s' m', s.free m addr = (.ok (), s', m') ∧ s'.live = Function.update s.live addr none ∧
      m.Painted (if a.freePoisons then bytes addr a.size.toNat else ∅) 0 m' := by
  unfold free
  rw [hl]
  dsimp only
  cases hf : a.freePoisons with
  | false =>
    simp only [Bool.false_eq_true, if_false]
    exact ⟨_, m, rfl, rfl, .empty rfl⟩
  | true =>
    obtain ⟨m', h', hp⟩ := m.poison_bytes addr a.size.toNat hin
    simp only [if_true, h']
    refine ⟨_, m', rfl, ?_, hp⟩
    unfold quarantine
    dsimp only
    split
    · split <;> rfl
    · rfl

end

end Sanitizer

/-! ## Runs -/

/-- An operation of the guest's heap. -/
inductive HeapOp
  | alloc (addr size : U32)
  | allocWithSlack (addr reqSize bucketSize : U32)
  | allocExactNoUafGuard (addr size : U32)
  | free (addr : U32)
  | reopenSlack (addr : U32)
  | write (addr : U32) (data : List U8)
  | read (addr : U32) (len : Nat)

namespace HeapOp

/-- Run an operation: whether it succeeds, and the sanitizer and the memory after it. -/
def exec (s : Sanitizer) (m : Mmu) : HeapOp → Bool × Sanitizer × Mmu
  | alloc addr size => (s.alloc m addr size).map Except.isOk id
  | allocWithSlack addr req bucket => (s.allocWithSlack m addr req bucket).map Except.isOk id
  | allocExactNoUafGuard addr size => (s.allocExactNoUafGuard m addr size).map Except.isOk id
  | free addr => (s.free m addr).map Except.isOk id
  | reopenSlack addr => (s.reopenSlack m addr).map Except.isOk fun m => (s, m)
  | write addr data => (m.write addr data).map Except.isOk fun m => (s, m)
  | read addr len => ((m.read addr len).isOk, s, m)

/-- What an operation that succeeds means for the abstract heap. -/
def track (redzone : U32) (h : Heap U32 ℤ) : HeapOp → Heap U32 ℤ
  | alloc addr size => h.alloc addr (guardedSlot addr size redzone)
  | allocWithSlack addr req bucket => h.alloc addr (slackSlot addr req bucket)
  | allocExactNoUafGuard addr size => h.alloc addr (exactSlot addr size)
  | free addr => h.free addr
  | reopenSlack addr => h.reopen addr
  | write addr data => h.write (wrappedBytes addr data.length)
  | read .. => h

end HeapOp

/-- The sanitizer and the memory, and the abstract heap beside them. -/
structure TrackedHeap where
  san : Sanitizer
  mmu : Mmu
  heap : Heap U32 ℤ

namespace TrackedHeap

/-- No allocation yet, in any memory. -/
def start (redzone : U32) (cap : Nat) (m : Mmu) : TrackedHeap :=
  ⟨.withQuarantineCap redzone cap, m, .empty⟩

def step (t : TrackedHeap) (op : HeapOp) : Bool × TrackedHeap :=
  let r := op.exec t.san t.mmu
  (r.1, ⟨r.2.1, r.2.2, op.track t.san.redzone t.heap⟩)

/-- Live slots, guards included, are disjoint and inside the window. -/
def Fits (h : Heap U32 ℤ) (m : Mmu) : Prop :=
  h.Apart ∧ ∀ ⦃k s⦄, h.live k = some s → s.cover ⊆ m.window

/-- The operation succeeds, and the slots fit after it. -/
def Admitted (t : TrackedHeap) (op : HeapOp) : Prop :=
  (t.step op).1 = true ∧ Fits (t.step op).2.heap t.mmu

/-- The permissions of a byte in each cell. -/
def cellPerm : Cell → U8
  | .shut => 0
  | .fresh => PERM_WRITE ||| PERM_RAW
  | .filled => PERM_READ ||| PERM_WRITE

/-- The sanitizer knows the live slots, each tracked byte has the permissions of its cell, and no byte
past the end of the address space has any. -/
structure Sound (t : TrackedHeap) : Prop where
  live : ∀ k, Option.Rel (LiveAlloc.Describes k) (t.san.live k) (t.heap.live k)
  kept : t.heap.WellKept
  apart : t.heap.Apart
  inside : t.heap.tracked ⊆ t.mmu.window
  perms : ∀ x ∈ t.heap.tracked, t.mmu.permOf x = cellPerm (t.heap.cell x)
  backed : t.mmu.Backed

/-- The start is sound. -/
theorem sound_start (redzone : U32) (cap : Nat) {m : Mmu} (hm : m.Backed) :
    (start redzone cap m).Sound where
  live := fun _ => .none
  kept := Heap.wellKept_empty
  apart := fun _ _ _ _ h => nomatch h
  inside := fun x hx => absurd hx (Set.notMem_empty x)
  perms := fun x hx => absurd hx (Set.notMem_empty x)
  backed := hm

section
variable {t : TrackedHeap} {addr : U32}

/-- What the sanitizer does not know does not live. -/
theorem Sound.live_none (h : t.Sound) (hl : t.san.live addr = none) : t.heap.live addr = none := by
  have hr := h.live addr
  rw [hl] at hr
  cases hh : t.heap.live addr with
  | none => rfl
  | some s =>
    rw [hh] at hr
    cases hr

/-- What it knows lives, and it describes its slot. -/
theorem Sound.live_some (h : t.Sound) {a : LiveAlloc} (hl : t.san.live addr = some a) :
    ∃ s, t.heap.live addr = some s ∧ a.Describes addr s := by
  have hr := h.live addr
  rw [hl] at hr
  cases hh : t.heap.live addr with
  | none =>
    rw [hh] at hr
    cases hr
  | some s =>
    rw [hh] at hr
    cases hr with
    | some hd => exact ⟨s, rfl, hd⟩

/-- Handing out a slot, by whichever allocation. -/
theorem Sound.alloc (h : t.Sound) {a : LiveAlloc} {s : Slot ℤ} {m' : Mmu}
    (hl : t.san.live addr = none) (ho : s.opened = false) (hd : a.Describes addr s)
    (hm : Sanitizer.Handed s t.mmu m')
    (hf : Fits (t.heap.alloc addr s) t.mmu) :
    Sound ⟨t.san.insertLive addr a, m', t.heap.alloc addr s⟩ where
  live := by
    intro k
    dsimp only
    rw [Sanitizer.live_insertLive]
    by_cases hk : k = addr
    · subst hk
      rw [Function.update_self, Heap.live_alloc_self]
      exact .some hd
    · rw [Function.update_of_ne hk, Heap.live_alloc_of_ne hk]
      exact h.live k
  kept := h.kept.alloc hf.1
  apart := hf.1
  inside := by
    dsimp only
    rintro x (hx | hx)
    · rw [hm.window]
      exact h.inside hx
    · rw [hm.window]
      exact hf.2 (Heap.live_alloc_self _ _ _) hx
  perms := by
    dsimp only
    intro x hx
    obtain ⟨h₁, h₂, h₃⟩ := Heap.cell_alloc (h.live_none hl) hf.1 ho x
    by_cases hc : x ∈ s.cover
    · by_cases hp : x ∈ s.payload
      · rw [h₁ hp, hm.payload x hp]
        rfl
      · rw [h₂ hc hp, hm.rest x hc hp]
        rfl
    · have hx' : x ∈ t.heap.tracked := hx.resolve_right hc
      rw [h₃ hc, hm.other x (h.inside hx') hc]
      exact h.perms x hx'
  backed := hm.inside.backed h.backed

/-- A free keeps both in step. -/
theorem Sound.free (h : t.Sound) {s' : Sanitizer} {m' : Mmu} {a : LiveAlloc} {s : Slot ℤ}
    (hs : t.heap.live addr = some s) (hd : a.Describes addr s)
    (hlive : s'.live = Function.update t.san.live addr none)
    (hm : t.mmu.Painted (if a.freePoisons then bytes addr a.size.toNat else ∅) 0 m') :
    Sound ⟨s', m', t.heap.free addr⟩ where
  live := by
    intro k
    dsimp only
    rw [hlive]
    by_cases hk : k = addr
    · subst hk
      rw [Function.update_self, Heap.live_free_self hs]
      exact .none
    · rw [Function.update_of_ne hk, Heap.live_free_of_ne hs hk]
      exact h.live k
  kept := h.kept.free h.apart hs
  apart := h.apart.free hs
  inside := by
    dsimp only
    rw [Heap.tracked_free hs, hm.window]
    exact h.inside
  perms := by
    dsimp only
    rw [Heap.tracked_free hs]
    intro x hx
    obtain ⟨h₁, h₂⟩ := Heap.cell_free h.kept h.apart hs x
    rw [hd.lingers, hd.body] at h₁ h₂
    cases hf : a.freePoisons with
    | false =>
      simp only [hf, Bool.false_eq_true, if_false] at hm
      rw [hm.off x (h.inside hx) (Set.notMem_empty x), h₂ (.inl (by rw [hf]; rfl))]
      exact h.perms x hx
    | true =>
      simp only [hf, if_true] at hm
      by_cases hb : x ∈ bytes addr a.size.toNat
      · rw [hm.on x hb, h₁ (by rw [hf]; rfl) hb]
        rfl
      · rw [hm.off x (h.inside hx) hb, h₂ (.inr hb)]
        exact h.perms x hx
  backed := hm.inside.backed h.backed

/-- A reopening keeps both in step. -/
theorem Sound.reopen (h : t.Sound) {m' : Mmu} {a : LiveAlloc} {s : Slot ℤ}
    (hl : t.san.live addr = some a) (hs : t.heap.live addr = some s) (hd : a.Describes addr s)
    (hm : t.mmu.Painted (a.slackBytes addr) (PERM_WRITE ||| PERM_RAW) m') :
    Sound ⟨t.san, m', t.heap.reopen addr⟩ where
  live := by
    intro k
    dsimp only
    by_cases hk : k = addr
    · subst hk
      rw [hl, Heap.live_reopen_self hs]
      exact .some ⟨hd.body, hd.slack, hd.lingers⟩
    · rw [Heap.live_reopen_of_ne hs hk]
      exact h.live k
  kept := h.kept.reopen hs
  apart := h.apart.reopen hs
  inside := by
    dsimp only
    rw [Heap.tracked_reopen hs, hm.window]
    exact h.inside
  perms := by
    dsimp only
    rw [Heap.tracked_reopen hs]
    intro x hx
    obtain ⟨h₁, h₂⟩ := Heap.cell_reopen hs x
    rw [hd.slack] at h₁ h₂
    by_cases hb : x ∈ a.slackBytes addr
    · rw [hm.on x hb, h₁ hb]
      rfl
    · rw [hm.off x (h.inside hx) hb, h₂ hb]
      exact h.perms x hx
  backed := hm.inside.backed h.backed

/-- A byte that can be written is not shut, and holds a value afterwards. -/
theorem writtenPerm_cell {c : Cell} (h : cellPerm c &&& PERM_WRITE ≠ 0) :
    c ≠ .shut ∧ writtenPerm (cellPerm c) = cellPerm .filled := by
  cases c with
  | shut => exact absurd rfl h
  | fresh => exact ⟨nofun, by decide⟩
  | filled => exact ⟨nofun, by decide⟩

/-- A write keeps both in step. -/
theorem Sound.write (h : t.Sound) {data : List U8} (hok : (t.mmu.write addr data).1 = .ok ()) :
    Sound ⟨t.san, (t.mmu.write addr data).2, t.heap.write (wrappedBytes addr data.length)⟩ := by
  obtain ⟨hwin, hperm⟩ := Mmu.write_bytes h.backed hok
  refine ⟨h.live, h.kept.write _, h.apart, ?_, ?_, (Mmu.inside_write h.backed).backed h.backed⟩
  · rw [hwin]
    exact h.inside
  · intro x hx
    obtain ⟨h₁, h₂⟩ := Heap.cell_write t.heap (wrappedBytes addr data.length) x
    have hp := h.perms x hx
    by_cases hb : x ∈ wrappedBytes addr data.length
    · obtain ⟨hwr, he⟩ := (hperm x (h.inside hx)).1 hb
      rw [hp] at hwr he
      obtain ⟨hns, hf⟩ := writtenPerm_cell hwr
      rw [h₁ hb hns]
      exact he.trans hf
    · rw [h₂ hb]
      exact ((hperm x (h.inside hx)).2 hb).trans hp

/-- An operation that succeeds has no error. -/
theorem ok_of_isOk {ε : Type} {r : Except ε Unit} (h : r.isOk = true) : r = .ok () := by
  cases r with
  | error e => cases h
  | ok u => rfl

/-- An operation that succeeds keeps the permissions of every tracked byte in step with its cell. -/
theorem Sound.step (h : t.Sound) {op : HeapOp} (ha : t.Admitted op) : (t.step op).2.Sound := by
  obtain ⟨hok, hf⟩ := ha
  cases op with
  | alloc addr size =>
    have hin := hf.2 (Heap.live_alloc_self t.heap addr (guardedSlot addr size t.san.redzone))
    obtain ⟨hl, a, m', he, hd, hm⟩ := Sanitizer.alloc_ok (ok_of_isOk hok) hin
    have hs := h.alloc hl rfl hd hm hf
    simpa only [TrackedHeap.step, HeapOp.exec, HeapOp.track, he, Prod.map, id] using hs
  | allocWithSlack addr req bucket =>
    have hin := hf.2 (Heap.live_alloc_self t.heap addr (slackSlot addr req bucket))
    obtain ⟨hl, a, m', he, hd, hm⟩ := Sanitizer.allocWithSlack_ok (ok_of_isOk hok) hin
    have hs := h.alloc hl rfl hd hm hf
    simpa only [TrackedHeap.step, HeapOp.exec, HeapOp.track, he, Prod.map, id] using hs
  | allocExactNoUafGuard addr size =>
    have hin := hf.2 (Heap.live_alloc_self t.heap addr (exactSlot addr size))
    obtain ⟨hl, a, m', he, hd, hm⟩ := Sanitizer.allocExactNoUafGuard_ok (ok_of_isOk hok) hin
    have hs := h.alloc hl rfl hd hm hf
    simpa only [TrackedHeap.step, HeapOp.exec, HeapOp.track, he, Prod.map, id] using hs
  | free addr =>
    cases hl : t.san.live addr with
    | none =>
      have herr : t.san.free t.mmu addr = (.error (.invalidFree addr), t.san, t.mmu) := by
        unfold Sanitizer.free
        rw [hl]
      simp [TrackedHeap.step, HeapOp.exec, herr, Except.isOk, Except.toBool] at hok
    | some a =>
      obtain ⟨s, hs, hd⟩ := h.live_some hl
      have hin : bytes addr a.size.toNat ⊆ t.mmu.window := fun x hx => by
        rw [← hd.body] at hx
        exact h.inside (h.kept.live hs (s.body_subset_cover hx))
      obtain ⟨s', m', he, hlive, hm⟩ := Sanitizer.free_ok hl hin
      have hs' := h.free hs hd hlive hm
      simpa only [TrackedHeap.step, HeapOp.exec, HeapOp.track, he, Prod.map, id] using hs'
  | reopenSlack addr =>
    cases hl : t.san.live addr with
    | none =>
      have herr : t.san.reopenSlack t.mmu addr = (.error (.unknownPointer addr), t.mmu) := by
        unfold Sanitizer.reopenSlack
        rw [hl]
      simp [TrackedHeap.step, HeapOp.exec, herr, Except.isOk, Except.toBool] at hok
    | some a =>
      obtain ⟨s, hs, hd⟩ := h.live_some hl
      have hin : a.slackBytes addr ⊆ t.mmu.window := fun x hx => by
        rw [← hd.slack] at hx
        exact h.inside (h.kept.live hs (s.body_subset_cover (.inr hx)))
      obtain ⟨m', he, hm⟩ := Sanitizer.reopenSlack_ok hl hin
      have hs' := h.reopen hl hs hd hm
      simpa only [TrackedHeap.step, HeapOp.exec, HeapOp.track, he, Prod.map, id] using hs'
  | write addr data => exact h.write (ok_of_isOk hok)
  | read addr len => exact h

/-- A tracked byte of the window, and its permissions. -/
theorem Sound.perm (h : t.Sound) {a : U32} (ha : (a.toNat : ℤ) ∈ t.heap.tracked) :
    ∃ off, t.mmu.offset a = some off ∧ t.mmu.perms off = cellPerm (t.heap.cell a.toNat) := by
  obtain ⟨off, ho, hoff⟩ := Mmu.offset_of_window (h.inside ha)
  have hp := h.perms _ ha
  unfold Mmu.permOf at hp
  rw [hoff, Int.toNat_natCast] at hp
  exact ⟨off, ho, hp⟩

/-- Guest accesses to a tracked byte succeed exactly when its cell admits them. -/
theorem Sound.access (h : t.Sound) {a : U32} (ha : (a.toNat : ℤ) ∈ t.heap.tracked) :
    (∀ b, (t.mmu.write a [b]).1 =
      if t.heap.cell a.toNat = .shut then .error ⟨a, 1, .write, .permission⟩ else .ok ()) ∧
    (t.heap.cell a.toNat ≠ .filled → t.mmu.read a 1 = .error ⟨a, 1, .read, .permission⟩) ∧
    (t.heap.cell a.toNat = .filled → ∃ b, t.mmu.read a 1 = .ok [b]) := by
  obtain ⟨off, ho, hp⟩ := h.perm ha
  have hwr := Mmu.write_one ho
  have hrd := Mmu.read_one ho
  rw [hp] at hwr hrd
  cases hc : t.heap.cell a.toNat with
  | shut =>
    rw [hc] at hwr hrd
    exact ⟨hwr, fun _ => hrd, nofun⟩
  | fresh =>
    rw [hc] at hwr hrd
    exact ⟨hwr, fun _ => hrd, nofun⟩
  | filled =>
    rw [hc] at hwr hrd
    exact ⟨hwr, fun hne => absurd rfl hne, fun _ => ⟨_, hrd⟩⟩

end

/-- What a run reaches. -/
def after (redzone : U32) (cap : Nat) (m : Mmu) (ops : List HeapOp) : TrackedHeap :=
  (run step (start redzone cap m) ops).2

/-- After a run whose operations succeed and whose live slots are disjoint and inside the window, a
tracked byte can be written exactly when it is usable: part of a live payload, of slack that was
opened, or of a payload that a free has left usable and no later slot covers. It can be read exactly
when it was written since it was handed out or opened as well. Slack that was not opened, guards and
freed payloads that no later slot covers deny both. The capacity of the quarantine does not matter. -/
theorem faults_exactly (redzone : U32) (cap : Nat) {base : U32} {size : Nat} {m : Mmu}
    (hm : Mmu.Made base size m) (ops : List HeapOp)
    (h : Along step Admitted (start redzone cap m) ops) :
    (∀ a : U32, (a.toNat : ℤ) ∈ (after redzone cap m ops).heap.tracked →
      (∀ b, ((after redzone cap m ops).mmu.write a [b]).1 = .ok () ↔
        (after redzone cap m ops).heap.Usable a.toNat) ∧
      ((∃ b, (after redzone cap m ops).mmu.read a 1 = .ok [b]) ↔
        (after redzone cap m ops).heap.Usable a.toNat ∧
          (a.toNat : ℤ) ∈ (after redzone cap m ops).heap.written)) ∧
    ∀ a : U32, (after redzone cap m ops).heap.Denied a.toNat →
      (∀ b, ((after redzone cap m ops).mmu.write a [b]).1 = .error ⟨a, 1, .write, .permission⟩) ∧
      (after redzone cap m ops).mmu.read a 1 = .error ⟨a, 1, .read, .permission⟩ := by
  have hs : (after redzone cap m ops).Sound :=
    run_invariant (fun hs ha => hs.step ha) (sound_start redzone cap hm.wellMade.backed) h
  generalize after redzone cap m ops = t at hs ⊢
  refine ⟨fun a ha => ?_, fun a hd => ?_⟩
  · obtain ⟨hwr, hdeny, hread⟩ := hs.access ha
    refine ⟨fun b => ?_, ?_⟩
    · rw [hwr, ← Heap.cell_ne_shut]
      split <;> simp [*]
    · rw [← Heap.cell_eq_filled]
      refine ⟨fun ⟨b, hb⟩ => ?_, hread⟩
      by_contra hne
      rw [hdeny hne] at hb
      cases hb
  · have hshut := hd.shut hs.kept hs.apart
    obtain ⟨hwr, hdeny, -⟩ := hs.access (hd.tracked hs.kept)
    refine ⟨fun b => ?_, hdeny ?_⟩
    · rw [hwr, if_pos hshut]
    · rw [hshut]
      decide

/-- A heap of one slot fits if that does. -/
theorem fits_of_one {h : Heap U32 ℤ} {m : Mmu} {k : U32} (hk : ∀ k', k' ≠ k → h.live k' = none)
    (hin : ∀ s, h.live k = some s → s.cover ⊆ m.window) : Fits h m := by
  have hone : ∀ {k' s}, h.live k' = some s → k' = k := by
    intro k' s hs
    by_contra hne
    rw [hk k' hne] at hs
    cases hs
  refine ⟨fun k₁ k₂ s₁ s₂ h₁ h₂ hne => absurd ((hone h₁).trans (hone h₂).symm) hne, ?_⟩
  intro k' s hs
  obtain rfl := hone hs
  exact hin s hs

/-- Eight bytes between guards, of which two are written: a read past the end faults. -/
theorem faults_exactly_overflow :
    (after 16 4 (.new 0x80000000 0x100) [.alloc 0x80000020 8,
      .write 0x80000020 [1, 2]]).mmu.read 0x80000028 1 =
      .error ⟨0x80000028, 1, .read, .permission⟩ := by
  have hfits : Fits (Heap.empty.alloc 0x80000020 (guardedSlot 0x80000020 8 16))
      (.new 0x80000000 0x100) := by
    refine fits_of_one (k := 0x80000020) (fun k' hne => Heap.live_alloc_of_ne hne) fun s hs => ?_
    rw [Heap.live_alloc_self] at hs
    cases hs
    rintro x ((hx | hx) | (hx | hx)) <;>
      simp [guardedSlot, bytes, Mmu.window, Mmu.new] at hx ⊢ <;> omega
  refine ((faults_exactly 16 4 (@Mmu.Made.new 0x80000000 0x100) [.alloc 0x80000020 8,
    .write 0x80000020 [1, 2]] ⟨⟨by decide +kernel, hfits⟩, ⟨by decide +kernel, hfits⟩,
      trivial⟩).2 0x80000028 (.inr (.inl (.inr (.inr ?_))))).2
  exact ⟨by decide, by decide⟩

end TrackedHeap

end FuzzSoft
