import FuzzSoft.Mmu.Untainted
import FuzzSoft.Vec.Mmu

/-!
# A lane of the interleaved memory is a flat memory

The bytes of one lane make a flat memory of its own (`VecMmu.lane`). The word-wide permission test is
the byte-wise one (`needMask_iff`), a value is cut out of its word as a span is read, and a word is
patched as a span is written. So an access of a lane is the access of its memory, an access at one
address is that of every active lane, and a gather or scatter is that of each active lane, as long as
the cut of the number of words to 32 bits hides none of them (`independent_iff`).
-/

namespace FuzzSoft

open Lib

/-- The words of a lane. -/
structure LaneMem where
  base : U32
  numWords : Nat
  content : Nat → U32
  perms : Nat → U32

namespace VecMmu

/-! ## Masks -/

@[simp] theorem and_ff (b : U8) : b &&& 255#8 = b := BitVec.and_allOnes

/-- The mask of a region covers its bytes. -/
theorem byteOf_regionMask {off n : Nat} (hn : AccessSize n) (h : off + n ≤ 4) {i : Nat} (hi : i < 4) :
    byteOf (regionMask off n) i = if off ≤ i ∧ i < off + n then 0xff else 0 := by
  have key : ∀ n ∈ [1, 2, 4], ∀ off < 4, ∀ i < 4, off + n ≤ 4 →
      byteOf (regionMask off n) i = if off ≤ i ∧ i < off + n then 0xff else 0 := by decide
  have hmem : n ∈ [1, 2, 4] := by rcases hn with rfl | rfl | rfl <;> simp
  have hpos : 0 < n := by rcases hn with rfl | rfl | rfl <;> decide
  exact key n hmem off (by omega) i hi h

/-- Every byte of a splat is the byte. -/
theorem byteOf_splatByte (b : U8) {i : Nat} (hi : i < 4) : byteOf (splatByte b) i = b := by
  have key : ∀ b : U8, ∀ i < 4, byteOf (splatByte b) i = b := by decide
  exact key b i hi

/-- The mask of an access asks for its bit in the bytes of the span. -/
theorem byteOf_needMask {bit : U8} {off n : Nat} (hn : AccessSize n) (h : off + n ≤ 4) {i : Nat}
    (hi : i < 4) : byteOf (needMask bit off n) i = if off ≤ i ∧ i < off + n then bit else 0 := by
  rw [needMask, byteOf_and, byteOf_splatByte _ hi, byteOf_regionMask hn h hi]
  split
  · exact BitVec.and_allOnes
  · exact BitVec.and_zero

/-- The word-wide permission test asks every byte of the region for the bit. -/
theorem needMask_iff {bit : U8} (hbit : AccessPerm bit) {off n : Nat} (hn : AccessSize n)
    (h : off + n ≤ 4) (p : U32) :
    p &&& needMask bit off n = needMask bit off n ↔ ∀ i < n, byteOf p (off + i) &&& bit ≠ 0 := by
  have hsingle : ∀ x : U8, x &&& bit = bit ↔ x &&& bit ≠ 0 := by
    rcases hbit with rfl | rfl | rfl <;> decide
  rw [eq_iff_bytes]
  constructor
  · intro hb i hi
    have := hb (off + i) (by omega)
    rw [byteOf_and, byteOf_needMask hn h (by omega), if_pos (by omega)] at this
    exact (hsingle _).1 this
  · intro hp i hi
    rw [byteOf_and, byteOf_needMask hn h hi]
    split
    next hr =>
      have := hp (i - off) (by omega)
      rw [show off + (i - off) = i by omega] at this
      exact (hsingle _).2 this
    next => exact BitVec.and_zero

/-- Cutting a region out of a word is reading its span. -/
theorem extract_eq {f : Nat → U32} {k off n : Nat} (hn : AccessSize n) (h : off + n ≤ 4) :
    extract off n (f k) = leValue (readSpan (unpack f) (4 * k + off) n) := by
  apply eq_of_bytes
  intro i hi
  rw [leValue_readSpan_unpack h hi, extract, Nat.mul_comm off 8, byteOf_ushiftRight, byteOf_and]
  by_cases hin : i < n
  · rw [if_pos hin, byteOf_regionMask hn h (by omega), if_pos (by omega), Nat.add_comm i off]
    exact BitVec.and_allOnes
  · rw [if_neg hin]
    by_cases h4 : i + off < 4
    · rw [byteOf_regionMask hn h h4, if_neg (by omega)]
      exact BitVec.and_zero
    · rw [byteOf_of_ge (regionMask off n) (by omega)]
      exact BitVec.and_zero

/-- Patching a region of a word is writing its span. -/
theorem unpack_deposit {f : Nat → U32} {k off n : Nat} (hn : AccessSize n) (h : off + n ≤ 4) (v : U32) :
    unpack (setAt f k (deposit off n v (f k))) = setSpan (unpack f) (4 * k + off) (leBytes v n) := by
  refine unpack_setAt_run h fun i hi => ?_
  rw [deposit, Nat.mul_comm off 8, byteOf_or, byteOf_and, byteOf_and, byteOf_not _ hi,
    byteOf_regionMask hn h hi, byteOf_shiftLeft _ _ hi]
  by_cases hr : off ≤ i ∧ i < off + n
  · rw [if_pos hr, if_pos hr, if_pos hr.1]
    simp
  · rw [if_neg hr, if_neg hr]
    simp

/-- The upgrade of a word is that of the bytes of the span. -/
theorem unpack_upgrade {p : Nat → U32} {k off n : Nat} (hn : AccessSize n) (h : off + n ≤ 4) :
    unpack (setAt p k (upgrade off n (p k))) = mapSpan (unpack p) (4 * k + off) n writtenPerm := by
  refine unpack_setAt_map h fun i hi => ?_
  rw [upgrade, byteOf_and, byteOf_or, byteOf_not _ hi, byteOf_needMask hn h hi, byteOf_needMask hn h hi]
  by_cases hr : off ≤ i ∧ i < off + n
  · rw [if_pos hr, if_pos hr, if_pos hr]
    rfl
  · rw [if_neg hr, if_neg hr, if_neg hr]
    simp

/-- Stamping a byte of a word. -/
theorem unpack_stamp {f : Nat → U32} {k off : Nat} (h : off < 4) (b : U8) :
    unpack (setAt f k (stamp off b (f k))) = setAt (unpack f) (4 * k + off) b := by
  have hmask : 0xff#32 <<< (off * 8) = regionMask off 1 := rfl
  have hn : AccessSize 1 := .inl rfl
  have hb : ∀ i < 4, byteOf (b.setWidth 32) i = if i = 0 then b else 0 := by
    have key : ∀ b : U8, ∀ i < 4, byteOf (b.setWidth 32) i = if i = 0 then b else 0 := by
      decide
    exact key b
  have hrun := @unpack_setAt_map f k off 1 (stamp off b (f k)) (fun _ => b) (by omega) fun i hi => by
    rw [stamp, byteOf_or, byteOf_and, byteOf_not _ hi, hmask, byteOf_regionMask hn (by omega) hi,
      Nat.mul_comm off 8, byteOf_shiftLeft _ _ hi]
    by_cases hr : off ≤ i ∧ i < off + 1
    · rw [if_pos hr, if_pos hr, if_pos hr.1, hb _ (by omega), if_pos (by omega)]
      simp
    · rw [if_neg hr, if_neg hr]
      split
      · rw [hb _ (by omega), if_neg (by omega)]
        simp
      · simp
  rw [hrun]
  exact mapSpan_succ _ _ 0 _ |>.trans (mapSpan_zero _ _ _)

/-! ## The memory of a lane -/

/-- Lane `l`, as a flat memory of its own. -/
def lane (m : VecMmu) (l : Lane) : Mmu where
  base := m.base
  size := 4 * m.numWords
  mem := unpack (lanePlane m.content l)
  perms := unpack (lanePlane m.perms l)
  trackDirty := false
  dirty := []
  dirtyBitmap := fun _ => 0

def view (l : Lane) (m : VecMmu) : LaneMem where
  base := m.base
  numWords := m.numWords
  content := lanePlane m.content l
  perms := lanePlane m.perms l

section
variable {m m' : VecMmu} {l : Lane} (h : view l m = view l m')
include h

/-- A lane's content is its part of the content plane. -/
theorem content_congr (w : Nat) : m.content (w * LANES + l) = m'.content (w * LANES + l) :=
  congrFun (congrArg LaneMem.content h) w

/-- A lane's permissions are its part of the permission plane. -/
theorem perms_congr (w : Nat) : m.perms (w * LANES + l) = m'.perms (w * LANES + l) :=
  congrFun (congrArg LaneMem.perms h) w

/-- The memory of a lane depends on its words only. -/
theorem lane_congr : m.lane l = m'.lane l := by
  have hb : m.base = m'.base := congrArg LaneMem.base h
  have hn : m.numWords = m'.numWords := congrArg LaneMem.numWords h
  have hc : lanePlane m.content l = lanePlane m'.content l := congrArg LaneMem.content h
  have hp : lanePlane m.perms l = lanePlane m'.perms l := congrArg LaneMem.perms h
  rw [lane, lane, hb, hn, hc, hp]

/-- A check looks at its own lane only. -/
theorem check_congr (a : U32) (n : Nat) (access : Access) (bit : U8) :
    m.check l a n access bit = m'.check l a n access bit := by
  have hb : m.base = m'.base := congrArg LaneMem.base h
  have hn : m.numWords = m'.numWords := congrArg LaneMem.numWords h
  simp only [check, wordOff, hb, hn, perms_congr h]

/-- A load looks at its own lane only. -/
theorem loadLane_congr (a : U32) (n : Nat) : m.loadLane l a n = m'.loadLane l a n := by
  simp only [loadLane, check_congr h, content_congr h]

/-- A fetch looks at its own lane only. -/
theorem ifetch16Lane_congr (a : U32) : m.ifetch16Lane l a = m'.ifetch16Lane l a := by
  simp only [ifetch16Lane, check_congr h, content_congr h]

end

/-- A store of a lane, seen from that lane. -/
theorem view_storeLane_congr {m m' : VecMmu} {l : Lane} (h : view l m = view l m') (a : U32) (n : Nat)
    (v : U32) : (m.storeLane l a n v).1 = (m'.storeLane l a n v).1 ∧
      view l (m.storeLane l a n v).2 = view l (m'.storeLane l a n v).2 := by
  rw [storeLane, storeLane, check_congr h]
  cases m'.check l a n .write PERM_WRITE with
  | error f => exact ⟨rfl, h⟩
  | ok p =>
    refine ⟨rfl, ?_⟩
    have hb : m.base = m'.base := congrArg LaneMem.base h
    have hn : m.numWords = m'.numWords := congrArg LaneMem.numWords h
    have hc : lanePlane m.content l = lanePlane m'.content l := congrArg LaneMem.content h
    have hp : lanePlane m.perms l = lanePlane m'.perms l := congrArg LaneMem.perms h
    simp only [view, lanePlane_setAt_self, hb, hn, hc, hp, content_congr h, perms_congr h]

/-- A store of a lane, seen from another. -/
theorem view_storeLane_of_ne (m : VecMmu) {l l' : Lane} (hl : l' ≠ l) (a : U32) (n : Nat) (v : U32) :
    view l' (m.storeLane l a n v).2 = view l' m := by
  rw [storeLane]
  cases m.check l a n .write PERM_WRITE with
  | error f => rfl
  | ok p => simp only [view, lanePlane_setAt_of_ne _ _ _ hl]

/-- The word and the byte of an address of the window. -/
theorem wordOff_eq_some {m : VecMmu} {a : U32} {word off : Nat} :
    m.wordOff a = some (word, off) ↔
      m.base.toNat + (4 * word + off) = a.toNat ∧ word < m.numWords ∧ off < 4 := by
  unfold wordOff
  split
  next h =>
    have : a.toNat < m.base.toNat := h
    simp only [reduceCtorEq, false_iff]
    omega
  next h =>
    have hle : m.base.toNat ≤ a.toNat := Nat.le_of_not_lt h
    have hsub : (a - m.base).toNat = a.toNat - m.base.toNat :=
      BitVec.toNat_sub_of_le (BitVec.le_def.2 hle)
    simp only [hsub]
    split <;> simp only [Option.some.injEq, Prod.mk.injEq, reduceCtorEq, false_iff] <;> omega

/-- The offset of a lane's memory is the word and the byte. -/
theorem offset_lane {m : VecMmu} {l : Lane} {a : U32} {o : Nat} :
    (m.lane l).offset a = some o ↔ m.wordOff a = some (o / 4, o % 4) := by
  rw [Mmu.offset, windowOffset_eq_some, wordOff_eq_some]
  show m.base.toNat + o = a.toNat ∧ o < 4 * m.numWords ↔ _
  omega

/-- The bytes of an aligned access lie in one word. -/
theorem aligned_in_word {m : VecMmu} {a : U32} {n word off : Nat} (hn : AccessSize n)
    (ha : a.toNat % n = 0) (h : m.wordOff a = some (word, off)) : off + n ≤ 4 := by
  have h1 := (wordOff_eq_some.1 h).1
  have h2 := (wordOff_eq_some.1 h).2.2
  have h3 := m.aligned
  rcases hn with rfl | rfl | rfl <;> omega

/-- The word-wide test of lane `l`. -/
def Permits (m : VecMmu) (l : Lane) (bit : U8) (n word off : Nat) : Prop :=
  m.perms (word * LANES + l) &&& needMask bit off n = needMask bit off n

/-- The test of the flat memory's fast path. -/
theorem spanHas_lane {m : VecMmu} {l : Lane} {bit : U8} (hbit : AccessPerm bit) {a : U32} {n o : Nat}
    (hn : AccessSize n) (ha : a.toNat % n = 0) :
    (m.lane l).spanHas bit a n = some o ↔
      m.wordOff a = some (o / 4, o % 4) ∧ m.Permits l bit n (o / 4) (o % 4) := by
  rw [Mmu.spanHas_eq_some, offset_lane]
  refine and_congr_right fun hw => ?_
  have hin := aligned_in_word hn ha hw
  have hlt := (wordOff_eq_some.1 hw).2.1
  have hperm : m.Permits l bit n (o / 4) (o % 4) ↔
      ∀ i < n, byteOf (lanePlane m.perms l (o / 4)) (o % 4 + i) &&& bit ≠ 0 :=
    needMask_iff hbit hn hin _
  rw [hperm]
  constructor
  · rintro ⟨-, hp⟩ i hi
    have := hp i hi
    have he : (m.lane l).perms (o + i) = byteOf (lanePlane m.perms l (o / 4)) (o % 4 + i) := by
      show unpack (lanePlane m.perms l) (o + i) = _
      rw [← unpack_at _ _ (by omega)]
      congr 1
      omega
    rwa [he] at this
  · intro hp
    refine ⟨?_, fun i hi => ?_⟩
    · show o + n ≤ 4 * m.numWords
      omega
    · have he : (m.lane l).perms (o + i) = byteOf (lanePlane m.perms l (o / 4)) (o % 4 + i) := by
        show unpack (lanePlane m.perms l) (o + i) = _
        rw [← unpack_at _ _ (by omega)]
        congr 1
        omega
      rw [he]
      exact hp i hi

/-! ## The access of one lane -/

/-- A check of the size passes for aligned addresses only. -/
theorem checkSize_eq {a : U32} {n : Nat} (hn : AccessSize n) (access : Access) :
    checkSize a n access = .ok () ↔ a.toNat % n = 0 := by
  rcases hn with rfl | rfl | rfl
  · simp [checkSize, Nat.mod_one]
  · simp [checkSize, checkAlign]
  · simp [checkSize, checkAlign]

/-- A check passes when the address is aligned and the lane permits the span. -/
theorem check_eq_ok {m : VecMmu} {l : Lane} {bit : U8} {a : U32} {n word off : Nat}
    (hn : AccessSize n) (access : Access) :
    m.check l a n access bit = .ok (word, off) ↔
      a.toNat % n = 0 ∧ m.wordOff a = some (word, off) ∧ m.Permits l bit n word off := by
  unfold check
  cases hs : checkSize a n access with
  | error f =>
    have : ¬a.toNat % n = 0 := fun ha => by
      rw [(checkSize_eq hn access).2 ha] at hs
      cases hs
    simp [this]
  | ok u =>
    have ha := (checkSize_eq hn access).1 hs
    cases hw : m.wordOff a with
    | none => simp
    | some p =>
      obtain ⟨w, o⟩ := p
      dsimp only
      split
      next hp =>
        simp only [reduceCtorEq, Option.some.injEq, Prod.mk.injEq, false_iff]
        rintro ⟨-, ⟨rfl, rfl⟩, h⟩
        exact hp h
      next hp =>
        simp only [Except.ok.injEq, Option.some.injEq, Prod.mk.injEq]
        constructor
        · rintro ⟨rfl, rfl⟩
          exact ⟨ha, ⟨rfl, rfl⟩, not_not.1 hp⟩
        · rintro ⟨-, h, -⟩
          exact h

/-- A lane access that fails its checks says what it wanted. -/
theorem check_error {m : VecMmu} {l : Lane} {bit : U8} {a : U32} {n : Nat} {access : Access} {f : Fault}
    (h : m.check l a n access bit = .error f) : f.access = access := by
  unfold check at h
  cases hs : checkSize a n access with
  | error e =>
    rw [hs] at h
    cases h
    unfold checkSize at hs
    split at hs
    · exact Mmu.checkAlign_error hs
    split at hs
    · exact Mmu.checkAlign_error hs
    · cases hs
  | ok u =>
    rw [hs] at h
    cases hw : m.wordOff a with
    | none =>
      rw [hw] at h
      cases h
      rfl
    | some p =>
      rw [hw] at h
      dsimp only at h
      split at h
      · cases h
        rfl
      · cases h

/-- A lane access off its natural alignment fails first of all for that. -/
theorem check_unaligned {m : VecMmu} {l : Lane} {bit : U8} {a : U32} {n : Nat} (hn : AccessSize n)
    (ha : a.toNat % n ≠ 0) (access : Access) :
    m.check l a n access bit = .error ⟨a, BitVec.ofNat 32 n, access, .unaligned⟩ := by
  have hs : checkSize a n access = .error ⟨a, BitVec.ofNat 32 n, access, .unaligned⟩ := by
    rcases hn with rfl | rfl | rfl
    · exact absurd (Nat.mod_one _) ha
    · exact if_neg ha
    · exact if_neg ha
  rw [check, hs]

/-- A refused load says it was a load. -/
theorem loadLane_error {m : VecMmu} {l : Lane} {a : U32} {n : Nat} {f : Fault}
    (h : m.loadLane l a n = .error f) : f.access = .read := by
  unfold loadLane at h
  split at h
  next e hc =>
    cases h
    exact check_error hc
  · cases h

/-- A refused store says it was a store. -/
theorem storeLane_error {m m' : VecMmu} {l : Lane} {a v : U32} {n : Nat} {f : Fault}
    (h : m.storeLane l a n v = (.error f, m')) : f.access = .write := by
  unfold storeLane at h
  split at h
  next e hc =>
    cases h
    exact check_error hc
  · cases h

/-- A refused fetch says it was a fetch. -/
theorem ifetch16Lane_error {m : VecMmu} {l : Lane} {a : U32} {f : Fault}
    (h : m.ifetch16Lane l a = .error f) : f.access = .exec := by
  unfold ifetch16Lane at h
  split at h
  next e hc =>
    cases h
    exact check_error hc
  · cases h

/-- A lane access passes its checks when the flat memory's fast path does, and only then. -/
theorem check_iff_span {m : VecMmu} {l : Lane} {bit : U8} (hbit : AccessPerm bit) {a : U32}
    {n : Nat} (hn : AccessSize n) (access : Access) {word off : Nat} :
    m.check l a n access bit = .ok (word, off) ↔
      a.toNat % n = 0 ∧ (m.lane l).spanHas bit a n = some (4 * word + off) ∧ off < 4 := by
  rw [check_eq_ok hn]
  refine and_congr_right fun ha => ?_
  rw [spanHas_lane hbit hn ha]
  constructor
  · rintro ⟨hw, hp⟩
    have h4 := (wordOff_eq_some.1 hw).2.2
    rw [show (4 * word + off) / 4 = word by omega, show (4 * word + off) % 4 = off by omega]
    exact ⟨⟨hw, hp⟩, h4⟩
  · rintro ⟨h, h4⟩
    rwa [show (4 * word + off) / 4 = word by omega, show (4 * word + off) % 4 = off by omega] at h

/-- A span that the lane's memory serves passes the check. -/
theorem check_of_span {m : VecMmu} {l : Lane} {bit : U8} (hbit : AccessPerm bit) {a : U32}
    {n o : Nat} (hn : AccessSize n) (access : Access) (ha : a.toNat % n = 0)
    (h : (m.lane l).spanHas bit a n = some o) :
    m.check l a n access bit = .ok (o / 4, o % 4) :=
  (check_iff_span hbit hn access).2 ⟨ha, by rwa [Nat.div_add_mod], Nat.mod_lt _ (by decide)⟩

/-- The value under a region is the value of its span. -/
theorem extract_lane {m : VecMmu} {l : Lane} {a : U32} {n word off : Nat} (hn : AccessSize n)
    (ha : a.toNat % n = 0) (hw : m.wordOff a = some (word, off)) :
    extract off n (m.content (word * LANES + l)) =
      leValue (readSpan (m.lane l).mem (4 * word + off) n) :=
  @extract_eq (lanePlane m.content l) word off n hn (aligned_in_word hn ha hw)

/-- A lane loads what its memory loads. -/
theorem loadLane_eq_ok {m : VecMmu} {l : Lane} {a v : U32} {n : Nat} (hn : AccessSize n) :
    m.loadLane l a n = .ok v ↔ (m.lane l).load a n = .ok v := by
  rw [Mmu.load_eq_ok hn, loadLane]
  constructor
  · intro h
    cases hc : m.check l a n .read PERM_READ with
    | error f => rw [hc] at h; cases h
    | ok p =>
      obtain ⟨word, off⟩ := p
      rw [hc] at h
      obtain ⟨ha, hsp, -⟩ := (check_iff_span (.inl rfl) hn _).1 hc
      refine ⟨ha, _, hsp, ?_⟩
      rw [← extract_lane hn ha ((check_eq_ok hn _).1 hc).2.1]
      exact Except.ok.inj h
  · rintro ⟨ha, o, hsp, rfl⟩
    have hc := check_of_span (.inl rfl) hn .read ha hsp
    rw [hc]
    dsimp only
    rw [extract_lane hn ha ((check_eq_ok hn _).1 hc).2.1, Nat.div_add_mod]

/-- A lane fetches what its memory fetches. -/
theorem ifetch16Lane_eq_ok {m : VecMmu} {l : Lane} {a : U32} {v : U16} :
    m.ifetch16Lane l a = .ok v ↔ (m.lane l).fetchU16 a = .ok v := by
  have hn : AccessSize 2 := .inr (.inl rfl)
  rw [Mmu.fetchU16_eq_ok, ifetch16Lane]
  constructor
  · intro h
    cases hc : m.check l a 2 .exec PERM_EXEC with
    | error f => rw [hc] at h; cases h
    | ok p =>
      obtain ⟨word, off⟩ := p
      rw [hc] at h
      obtain ⟨ha, hsp, -⟩ := (check_iff_span (.inr (.inr rfl)) hn _).1 hc
      refine ⟨ha, _, hsp, ?_⟩
      rw [← extract_lane hn ha ((check_eq_ok hn _).1 hc).2.1]
      exact Except.ok.inj h
  · rintro ⟨ha, o, hsp, rfl⟩
    have hc := check_of_span (.inr (.inr rfl)) hn .exec ha hsp
    rw [hc]
    dsimp only
    rw [extract_lane hn ha ((check_eq_ok hn _).1 hc).2.1, Nat.div_add_mod]

/-- The memory with a region of lane `l` stored to. -/
def stored (m : VecMmu) (l : Lane) (word off n : Nat) (v : U32) : VecMmu :=
  { m with
    content := setAt m.content (word * LANES + l) (deposit off n v (m.content (word * LANES + l)))
    perms := setAt m.perms (word * LANES + l) (upgrade off n (m.perms (word * LANES + l))) }

/-- A store into a word leaves the other lanes. -/
theorem lane_stored_of_ne (m : VecMmu) {l l' : Lane} (h : l' ≠ l) (word off n : Nat) (v : U32) :
    (m.stored l word off n v).lane l' = m.lane l' := by
  simp only [lane, stored, lanePlane_setAt_of_ne _ _ _ h]

/-- The planes of a lane after the region was stored to. -/
theorem store_planes {c p : Nat → U32} {word off n : Nat} (hn : AccessSize n) (h : off + n ≤ 4)
    (v : U32) (m : Mmu) (ht : m.trackDirty = false) (hc : m.mem = unpack c) (hp : m.perms = unpack p) :
    m.putSpan (4 * word + off) (leBytes v n) =
      { m with
        mem := unpack (setAt c word (deposit off n v (c word)))
        perms := unpack (setAt p word (upgrade off n (p word))) } := by
  rw [Mmu.putSpan, unpack_deposit hn h, unpack_upgrade hn h, ht, if_neg (fun h => Bool.noConfusion h.1), hc, hp,
    length_leBytes]

/-- A store into a word writes the bytes of the span in its lane's memory. -/
theorem lane_stored_self (m : VecMmu) (l : Lane) {word off n : Nat} (hn : AccessSize n)
    (h : off + n ≤ 4) (v : U32) :
    (m.stored l word off n v).lane l = (m.lane l).putSpan (4 * word + off) (leBytes v n) := by
  rw [store_planes hn h v (m.lane l) rfl rfl rfl, lane, stored, lanePlane_setAt_self,
    lanePlane_setAt_self]
  rfl

/-- A store of a lane: it succeeds when its memory's does, and then does the same. -/
theorem storeLane_cases (m : VecMmu) (l : Lane) (a : U32) {n : Nat} (hn : AccessSize n) (v : U32) :
    (∃ word off, off + n ≤ 4 ∧ m.storeLane l a n v = (.ok (), m.stored l word off n v) ∧
        (m.lane l).store a n v = (.ok (), (m.stored l word off n v).lane l)) ∨
      (∃ f, m.storeLane l a n v = (.error f, m) ∧ ((m.lane l).store a n v).1 ≠ .ok ()) := by
  rw [storeLane]
  cases hc : m.check l a n .write PERM_WRITE with
  | error f =>
    refine .inr ⟨f, rfl, fun h => ?_⟩
    obtain ⟨ha, o, hsp⟩ := (Mmu.store_eq_ok hn v).1 h
    rw [check_of_span (.inr (.inl rfl)) hn .write ha hsp] at hc
    cases hc
  | ok p =>
    obtain ⟨word, off⟩ := p
    obtain ⟨ha, hsp, -⟩ := (check_iff_span (.inr (.inl rfl)) hn _).1 hc
    have hin := aligned_in_word hn ha ((check_eq_ok hn _).1 hc).2.1
    refine .inl ⟨word, off, hin, rfl, ?_⟩
    rw [Mmu.store_of_span hn ha hsp, lane_stored_self m l hn hin]

/-- A lane stores exactly where its memory does. -/
theorem storeLane_ok_iff {m : VecMmu} {l : Lane} {a v : U32} {n : Nat} (hn : AccessSize n) :
    (m.storeLane l a n v).1 = .ok () ↔ ((m.lane l).store a n v).1 = .ok () := by
  rcases storeLane_cases m l a hn v with ⟨word, off, -, he, hm⟩ | ⟨f, he, hm⟩
  · rw [he, hm]
  · rw [he]
    exact ⟨nofun, fun h => absurd h hm⟩

/-! ## Loading an image -/

/-- Stamping a byte of every lane stamps it in each lane's memory. -/
theorem lane_stamp (m : VecMmu) (l : Lane) {word off : Nat} (h : off < 4) (b perm : U8) :
    ({ m with
        content := stampLanes m.content word off b
        perms := stampLanes m.perms word off perm } : VecMmu).lane l =
      { m.lane l with
        mem := setAt (m.lane l).mem (4 * word + off) b
        perms := setAt (m.lane l).perms (4 * word + off) perm } := by
  simp only [lane, stampLanes, lanePlane_updateLanes _ _ (List.nodup_finRange LANES)
    (List.mem_finRange l), unpack_stamp h]

/-- The same of a permission byte. -/
theorem lane_stampPerm (m : VecMmu) (l : Lane) {word off : Nat} (h : off < 4) (perm : U8) :
    ({ m with perms := stampLanes m.perms word off perm } : VecMmu).lane l =
      { m.lane l with perms := setAt (m.lane l).perms (4 * word + off) perm } := by
  simp only [lane, stampLanes, lanePlane_updateLanes _ _ (List.nodup_finRange LANES)
    (List.mem_finRange l), unpack_stamp h]

/-- The byte an address names, in the shared memory and in a lane. -/
theorem offset_cases (m : VecMmu) (l : Lane) (a : U32) :
    (m.wordOff a = none ∧ (m.lane l).offset a = none) ∨
      ∃ word off, off < 4 ∧ m.wordOff a = some (word, off) ∧
        (m.lane l).offset a = some (4 * word + off) := by
  cases hw : m.wordOff a with
  | none =>
    refine .inl ⟨rfl, ?_⟩
    cases ho : (m.lane l).offset a with
    | none => rfl
    | some o =>
      rw [offset_lane.1 ho] at hw
      cases hw
  | some p =>
    obtain ⟨word, off⟩ := p
    have h4 := (wordOff_eq_some.1 hw).2.2
    refine .inr ⟨word, off, h4, rfl, offset_lane.2 ?_⟩
    rw [hw, show (4 * word + off) / 4 = word by omega, show (4 * word + off) % 4 = off by omega]

/-- Loading data does in every lane what it does in a flat memory. -/
theorem map_lane (l : Lane) (data : List U8) (perm : U8) : ∀ (m : VecMmu) (a : U32),
    (m.map a data perm).1 = ((m.lane l).map a data perm).1 ∧
      (m.map a data perm).2.lane l = ((m.lane l).map a data perm).2 := by
  induction data with
  | nil => intro m a; exact ⟨rfl, rfl⟩
  | cons b bs ih =>
    intro m a
    rw [map, Mmu.map]
    rcases offset_cases m l a with ⟨hw, ho⟩ | ⟨word, off, h4, hw, ho⟩
    · rw [hw, ho]
      exact ⟨rfl, rfl⟩
    · rw [hw, ho]
      dsimp only
      rw [← lane_stamp m l h4]
      exact ih _ _

/-- The loop of `protect` is that of each lane's memory. -/
theorem protectGo_lane (l : Lane) (perm : U8) (len n : Nat) : ∀ (m : VecMmu) (a : U32),
    (protect.go len perm m a n).1 = (Mmu.protect.go len perm (m.lane l) a n).1 ∧
      (protect.go len perm m a n).2.lane l = (Mmu.protect.go len perm (m.lane l) a n).2 := by
  induction n with
  | zero => intro m a; exact ⟨rfl, rfl⟩
  | succ n ih =>
    intro m a
    rw [protect.go, Mmu.protect.go]
    rcases offset_cases m l a with ⟨hw, ho⟩ | ⟨word, off, h4, hw, ho⟩
    · rw [hw, ho]
      exact ⟨rfl, rfl⟩
    · rw [hw, ho]
      dsimp only
      rw [← lane_stampPerm m l h4]
      exact ih _ _

/-- `protect` is that of each lane's memory. -/
theorem protect_lane (l : Lane) (m : VecMmu) (a : U32) (len : Nat) (perm : U8) :
    (m.protect a len perm).1 = ((m.lane l).protect a len perm).1 ∧
      (m.protect a len perm).2.lane l = ((m.lane l).protect a len perm).2 :=
  protectGo_lane l perm len len m a

/-! ## One address for all lanes -/

/-- A common check passes when it does for every active lane. -/
theorem checkSame_eq_some {m : VecMmu} {a : U32} {n : Nat} {active : Simd Bool} {bit : U8}
    (hn : AccessSize n) {word off : Nat} :
    m.checkSame a n active bit = some (word, off) ↔
      a.toNat % n = 0 ∧ m.wordOff a = some (word, off) ∧
        ∀ l, active l = true → m.Permits l bit n word off := by
  have halign : ∀ {x : Option (Nat × Nat)},
      (if n = 2 ∧ a.toNat % 2 ≠ 0 then none else if n = 4 ∧ a.toNat % 4 ≠ 0 then none else x) =
        if a.toNat % n = 0 then x else none := by
    intro x
    rcases hn with rfl | rfl | rfl
    · simp [Nat.mod_one]
    · by_cases h : a.toNat % 2 = 0 <;> simp [h]
    · by_cases h : a.toNat % 4 = 0 <;> simp [h]
  have hany : ∀ w o, anyLane (fun l => active l &&
      !decide (line m.perms w l &&& needMask bit o n = needMask bit o n)) = false ↔
      ∀ l, active l = true → m.Permits l bit n w o := by
    intro w o
    rw [anyLane_eq_false]
    refine forall_congr' fun l => ?_
    cases active l with
    | false => simp
    | true =>
      rw [Bool.true_and, Bool.not_eq_false', decide_eq_true_iff]
      exact ⟨fun h _ => h, fun h => h rfl⟩
  rw [checkSame, halign]
  by_cases ha : a.toNat % n = 0
  · rw [if_pos ha]
    cases hw : m.wordOff a with
    | none => simp
    | some p =>
      obtain ⟨w, o⟩ := p
      simp only [Option.ite_none_left_eq_some, Bool.not_eq_true, hany, ha, true_and, and_comm,
        Option.some.injEq, Prod.mk.injEq]
      refine and_congr_right ?_
      rintro ⟨rfl, rfl⟩
      rfl
  · simp [ha]

/-- The check at one address passes when each active lane's check does. -/
theorem checkSame_iff {m : VecMmu} {a : U32} {n : Nat} {active : Simd Bool} {bit : U8}
    (hn : AccessSize n) (access : Access) {l₀ : Lane} (h₀ : active l₀ = true) {word off : Nat} :
    m.checkSame a n active bit = some (word, off) ↔
      ∀ l, active l = true → m.check l a n access bit = .ok (word, off) := by
  rw [checkSame_eq_some hn]
  constructor
  · rintro ⟨ha, hw, hp⟩ l hl
    exact (check_eq_ok hn access).2 ⟨ha, hw, hp l hl⟩
  · intro h
    obtain ⟨ha, hw, -⟩ := (check_eq_ok hn access).1 (h l₀ h₀)
    exact ⟨ha, hw, fun l hl => ((check_eq_ok hn access).1 (h l hl)).2.2⟩

/-- When every active lane passes its own check, they pass it at the same word. -/
theorem exists_checkSame {m : VecMmu} {a : U32} {n : Nat} {active : Simd Bool} {bit : U8}
    (hn : AccessSize n) (access : Access) {l₀ : Lane} (h₀ : active l₀ = true)
    (h : ∀ l, active l = true → ∃ p, m.check l a n access bit = .ok p) :
    ∃ word off, m.checkSame a n active bit = some (word, off) := by
  obtain ⟨⟨word, off⟩, h0⟩ := h l₀ h₀
  refine ⟨word, off, (checkSame_iff hn access h₀).2 fun l hl => ?_⟩
  obtain ⟨⟨w, o⟩, hl'⟩ := h l hl
  have h1 := ((check_eq_ok hn access).1 h0).2.1
  have h2 := ((check_eq_ok hn access).1 hl').2.1
  rw [h1] at h2
  cases h2
  exact hl'

/-- What a lane's memory loads has passed the check. -/
theorem check_of_load {m : VecMmu} {l : Lane} {a v : U32} {n : Nat} (hn : AccessSize n)
    (h : (m.lane l).load a n = .ok v) : ∃ p, m.check l a n .read PERM_READ = .ok p := by
  obtain ⟨ha, o, hsp, -⟩ := (Mmu.load_eq_ok hn).1 h
  exact ⟨_, check_of_span (.inl rfl) hn .read ha hsp⟩

/-- A load that passes the check reads the word. -/
theorem loadLane_of_check {m : VecMmu} {l : Lane} {a : U32} {n word off : Nat}
    (h : m.check l a n .read PERM_READ = .ok (word, off)) :
    m.loadLane l a n = .ok (extract off n (m.content (word * LANES + l))) := by
  rw [loadLane, h]

/-- A store that passes the check writes the word. -/
theorem storeLane_of_check {m : VecMmu} {l : Lane} {a : U32} {n word off : Nat}
    (h : m.check l a n .write PERM_WRITE = .ok (word, off)) (v : U32) :
    m.storeLane l a n v = (.ok (), m.stored l word off n v) := by
  rw [storeLane, h]
  rfl

/-- What a lane's memory stores has passed the check. -/
theorem check_of_store {m : VecMmu} {l : Lane} {a v : U32} {n : Nat} (hn : AccessSize n)
    (h : ((m.lane l).store a n v).1 = .ok ()) : ∃ p, m.check l a n .write PERM_WRITE = .ok p := by
  obtain ⟨ha, o, hsp⟩ := (Mmu.store_eq_ok hn v).1 h
  exact ⟨_, check_of_span (.inr (.inl rfl)) hn .write ha hsp⟩

/-- A common load gives each active lane what its memory holds. -/
theorem loadSame_eq {m : VecMmu} {a : U32} {n : Nat} {active : Simd Bool} (hn : AccessSize n)
    {vs : Simd U32} (h : m.loadSame a n active = some vs) {l : Lane} (hl : active l = true) :
    (m.lane l).load a n = .ok (vs l) := by
  obtain ⟨⟨word, off⟩, hc, rfl⟩ := Option.map_eq_some_iff.1 h
  have := loadLane_of_check ((checkSame_iff hn .read hl).1 hc l hl)
  exact (loadLane_eq_ok hn).1 this

/-- A load at one address succeeds when that of every active lane does. -/
theorem loadSame_isSome {m : VecMmu} {a : U32} {n : Nat} {active : Simd Bool} (hn : AccessSize n)
    {l₀ : Lane} (h₀ : active l₀ = true) :
    (m.loadSame a n active).isSome ↔ ∀ l, active l = true → ∃ v, (m.lane l).load a n = .ok v := by
  constructor
  · intro h l hl
    obtain ⟨vs, hvs⟩ := Option.isSome_iff_exists.1 h
    exact ⟨vs l, loadSame_eq hn hvs hl⟩
  · intro h
    obtain ⟨word, off, hc⟩ := exists_checkSame hn .read h₀ fun l hl =>
      (h l hl).elim fun v hv => check_of_load hn hv
    rw [loadSame, hc]
    rfl

/-- A common fetch gives each active lane what its memory holds. -/
theorem ifetch16Same_eq {m : VecMmu} {a : U32} {active : Simd Bool} {vs : Simd U32}
    (h : m.ifetch16Same a active = some vs) {l : Lane} (hl : active l = true) :
    (m.lane l).fetchU16 a = .ok ((vs l).setWidth 16) := by
  obtain ⟨⟨word, off⟩, hc, rfl⟩ := Option.map_eq_some_iff.1 h
  have hl' := (checkSame_iff (.inr (.inl rfl)) .exec hl).1 hc l hl
  refine ifetch16Lane_eq_ok.1 ?_
  rw [ifetch16Lane, hl']
  rfl

/-- A common fetch is made when every active lane can fetch. -/
theorem ifetch16Same_isSome {m : VecMmu} {a : U32} {active : Simd Bool} {l₀ : Lane}
    (h₀ : active l₀ = true) :
    (m.ifetch16Same a active).isSome ↔ ∀ l, active l = true → ∃ v, (m.lane l).fetchU16 a = .ok v := by
  have hn : AccessSize 2 := .inr (.inl rfl)
  constructor
  · intro h l hl
    obtain ⟨vs, hvs⟩ := Option.isSome_iff_exists.1 h
    exact ⟨_, ifetch16Same_eq hvs hl⟩
  · intro h
    obtain ⟨word, off, hc⟩ := exists_checkSame hn .exec h₀ fun l hl => by
      obtain ⟨v, hv⟩ := h l hl
      obtain ⟨ha, o, hsp, -⟩ := Mmu.fetchU16_eq_ok.1 hv
      exact ⟨_, check_of_span (.inr (.inr rfl)) hn .exec ha hsp⟩
    rw [ifetch16Same, hc]
    rfl

/-- What a lane sees of a store to a region of one of its words. -/
theorem view_stored (m : VecMmu) (l : Lane) (word off n : Nat) (v : U32) :
    view l (m.stored l word off n v) = { view l m with
      content := setAt (lanePlane m.content l) word (deposit off n v (m.content (word * LANES + l)))
      perms := setAt (lanePlane m.perms l) word (upgrade off n (m.perms (word * LANES + l))) } := by
  simp only [view, stored, lanePlane_setAt_self]

/-- What a lane sees of a line written with its own cell changed or kept. -/
theorem view_setLine (m : VecMmu) (word : Nat) (on : Simd Bool) (off n : Nat) (vals : Simd U32)
    (l : Lane) :
    view l { m with
        content := setLine m.content word fun l =>
          if on l then deposit off n (vals l) (line m.content word l) else line m.content word l
        perms := setLine m.perms word fun l =>
          if on l then upgrade off n (line m.perms word l) else line m.perms word l } =
      if on l then view l (m.stored l word off n (vals l)) else view l m := by
  have hkeep : ∀ f : Nat → U32, setAt (lanePlane f l) word (line f word l) = lanePlane f l :=
    fun f => setAt_eq_self (lanePlane f l) word
  rw [view_stored]
  cases hl : on l with
  | false => simp only [view, setLine, lanePlane_setSpan_ofFn, hl, Bool.false_eq_true, if_false, hkeep]
  | true =>
    simp only [view, setLine, lanePlane_setSpan_ofFn, hl, if_true]
    rfl

/-- A store at one address that goes ahead is one that every active lane could make. -/
theorem storeSame_served {m : VecMmu} {a : U32} {n : Nat} {active : Simd Bool} {vals : Simd U32}
    (hn : AccessSize n) (h : (m.storeSame a n active vals).1 = true) {l : Lane} (hl : active l = true) :
    (m.storeLane l a n (vals l)).1 = .ok () := by
  rw [storeSame] at h
  cases hc : m.checkSame a n active PERM_WRITE with
  | none => rw [hc] at h; cases h
  | some p => rw [storeLane_of_check ((checkSame_iff hn .write hl).1 hc l hl)]

/-- A store at one address is the store of every active lane, or nothing. -/
theorem view_storeSame {m : VecMmu} {a : U32} {n : Nat} {active : Simd Bool} {vals : Simd U32}
    (hn : AccessSize n) (l : Lane) :
    view l (m.storeSame a n active vals).2 =
      if (m.storeSame a n active vals).1 && active l then view l (m.storeLane l a n (vals l)).2
      else view l m := by
  rw [storeSame]
  cases hc : m.checkSame a n active PERM_WRITE with
  | none => rfl
  | some p =>
    obtain ⟨word, off⟩ := p
    dsimp only
    rw [view_setLine, Bool.true_and]
    cases hl : active l with
    | false => rfl
    | true =>
      rw [if_pos rfl, if_pos rfl, storeLane_of_check ((checkSame_iff hn .write hl).1 hc l hl)]

/-- A common store is made in every active lane or in none. -/
theorem storeSame_lane {m : VecMmu} {a : U32} {n : Nat} {active : Simd Bool} {vals : Simd U32}
    (hn : AccessSize n) (l : Lane) :
    (m.storeSame a n active vals).2.lane l =
      if (m.storeSame a n active vals).1 && active l then ((m.lane l).store a n (vals l)).2
      else m.lane l := by
  have hv := @view_storeSame m a n active vals hn l
  by_cases hon : ((m.storeSame a n active vals).1 && active l) = true
  · rw [if_pos hon] at hv ⊢
    rw [lane_congr hv]
    obtain ⟨hok, hl⟩ := Bool.and_eq_true _ _ ▸ hon
    have hst := storeSame_served hn hok hl
    rcases storeLane_cases m l a hn (vals l) with ⟨word, off, -, he, hm⟩ | ⟨f, he, -⟩
    · rw [he, hm]
    · rw [he] at hst
      cases hst
  · rw [if_neg hon] at hv ⊢
    exact lane_congr hv

/-- A common store is made when every active lane can store. -/
theorem storeSame_ok {m : VecMmu} {a : U32} {n : Nat} {active : Simd Bool} {vals : Simd U32}
    (hn : AccessSize n) {l₀ : Lane} (h₀ : active l₀ = true) :
    (m.storeSame a n active vals).1 = true ↔
      ∀ l, active l = true → ((m.lane l).store a n (vals l)).1 = .ok () := by
  constructor
  · intro h l hl
    exact (storeLane_ok_iff hn).1 (storeSame_served hn h hl)
  · intro h
    obtain ⟨word, off, hc⟩ := exists_checkSame hn .write h₀ fun l hl => check_of_store hn (h l hl)
    rw [storeSame, hc]

/-! ## An address for each lane -/

/-- The mask test for alignment. -/
theorem alignOk_iff (a : U32) {n : Nat} (hn : AccessSize n) :
    (decide (n = 1) || decide (a &&& (BitVec.ofNat 32 n - 1) = 0)) = true ↔ a.toNat % n = 0 := by
  have key : ∀ k < 32, a &&& BitVec.ofNat 32 (2 ^ k - 1) = 0 ↔ a.toNat % 2 ^ k = 0 := by
    intro k hk
    rw [← toNat_and_mask a k hk]
    exact ⟨fun h => by rw [h]; rfl, fun h => BitVec.eq_of_toNat_eq h⟩
  rcases hn with rfl | rfl | rfl
  · simp [Nat.mod_one]
  · simpa using key 1 (by decide)
  · simpa using key 2 (by decide)

/-- The lanes a gather plans: the number of words is cut to 32 bits. -/
theorem valid_iff {m : VecMmu} {addrs : Simd U32} {n : Nat} {active : Simd Bool} (hn : AccessSize n)
    (l : Lane) : (m.gatherAddrPlan addrs n active l).valid = true ↔
      active l = true ∧ (addrs l).toNat % n = 0 ∧ m.base.toNat ≤ (addrs l).toNat ∧
        ((addrs l).toNat - m.base.toNat) / 4 < m.numWords % 2 ^ 32 := by
  simp only [gatherAddrPlan, Bool.and_eq_true, alignOk_iff _ hn, decide_eq_true_eq]
  have hword : m.base ≤ addrs l →
      ((addrs l - m.base) >>> 2).toNat = ((addrs l).toNat - m.base.toNat) / 4 := by
    intro h
    rw [BitVec.toNat_ushiftRight, BitVec.toNat_sub_of_le h, Nat.shiftRight_eq_div_pow]
  constructor
  · rintro ⟨⟨ha, hlo, hhi⟩, hal⟩
    rw [BitVec.lt_def, hword hlo, BitVec.toNat_ofNat] at hhi
    exact ⟨ha, hal, hlo, hhi⟩
  · rintro ⟨ha, hal, hlo, hhi⟩
    refine ⟨⟨ha, hlo, ?_⟩, hal⟩
    rw [BitVec.lt_def, hword hlo, BitVec.toNat_ofNat]
    exact hhi

/-- Where a planned lane goes. -/
theorem plan_of_valid {m : VecMmu} {addrs : Simd U32} {n : Nat} {active : Simd Bool}
    (hn : AccessSize n) {l : Lane} (h : (m.gatherAddrPlan addrs n active l).valid = true) :
    m.wordOff (addrs l) = some ((m.gatherAddrPlan addrs n active l).word,
      (m.gatherAddrPlan addrs n active l).off) := by
  obtain ⟨-, -, hlo, hhi⟩ := (valid_iff hn l).1 h
  have hword : (m.gatherAddrPlan addrs n active l).word =
      ((addrs l).toNat - m.base.toNat) / 4 := by
    show (if (m.gatherAddrPlan addrs n active l).valid then ((addrs l - m.base) >>> 2).toNat else 0) = _
    rw [if_pos h, BitVec.toNat_ushiftRight, BitVec.toNat_sub_of_le (BitVec.le_def.2 hlo),
      Nat.shiftRight_eq_div_pow]
  have hoff : (m.gatherAddrPlan addrs n active l).off = (addrs l).toNat % 4 :=
    toNat_and_mask (addrs l) 2 (by decide)
  have hle := Nat.mod_le m.numWords (2 ^ 32)
  have hal := m.aligned
  rw [wordOff_eq_some, hword, hoff]
  omega

/-- The words a gather can see. -/
def Seen (m : VecMmu) (a : U32) : Prop := (a.toNat - m.base.toNat) / 4 < m.numWords % 2 ^ 32

instance (m : VecMmu) (a : U32) : Decidable (m.Seen a) := inferInstanceAs (Decidable (_ < _))

/-- The cell a lane of a plan reads when its word is inside the window. -/
theorem gatherSelect_of_lt {m : VecMmu} {plane : Nat → U32} {enable : Simd Bool}
    {plan : Simd AddrPlan} {l : Lane} (he : enable l = true) (h : (plan l).word < m.numWords) :
    m.gatherSelect plane enable plan l = plane ((plan l).word * LANES + l) := by
  have hlt : (plan l).word * LANES + l < m.numWords * LANES := by
    have := Nat.mul_le_mul_right LANES (Nat.succ_le_of_lt h)
    rw [Nat.succ_mul] at this
    have := l.isLt
    omega
  simp [gatherSelect, he, hlt]

/-- The lanes a gather or scatter marks: those whose own check passes, among the words it sees. -/
theorem gatherOk_iff {m : VecMmu} {addrs : Simd U32} {n : Nat} {active : Simd Bool} {bit : U8}
    (hn : AccessSize n) (access : Access) (l : Lane) :
    m.gatherOk (m.gatherAddrPlan addrs n active) n bit l = true ↔
      active l = true ∧ m.Seen (addrs l) ∧
        m.check l (addrs l) n access bit = .ok ((m.gatherAddrPlan addrs n active l).word,
          (m.gatherAddrPlan addrs n active l).off) := by
  simp only [gatherOk, Bool.and_eq_true, decide_eq_true_eq, check_eq_ok hn]
  constructor
  · rintro ⟨hv, hp⟩
    obtain ⟨ha, hal, -, hhi⟩ := (valid_iff hn l).1 hv
    have hw := plan_of_valid hn hv
    rw [gatherSelect_of_lt hv (wordOff_eq_some.1 hw).2.1] at hp
    exact ⟨ha, hhi, hal, hw, hp⟩
  · rintro ⟨ha, hs, hal, hw, hp⟩
    have hlo : m.base.toNat ≤ (addrs l).toNat := by
      have := (wordOff_eq_some.1 hw).1
      omega
    have hv := (valid_iff hn l).2 ⟨ha, hal, hlo, hs⟩
    refine ⟨hv, ?_⟩
    rw [gatherSelect_of_lt hv (wordOff_eq_some.1 hw).2.1]
    exact hp

/-- A lane whose own check passes at a word the gather sees is marked. -/
theorem gatherOk_of_check {m : VecMmu} {addrs : Simd U32} {n : Nat} {active : Simd Bool} {bit : U8}
    (hn : AccessSize n) {access : Access} {l : Lane} (ha : active l = true) (hs : m.Seen (addrs l))
    {p : Nat × Nat} (h : m.check l (addrs l) n access bit = .ok p) :
    m.gatherOk (m.gatherAddrPlan addrs n active) n bit l = true := by
  obtain ⟨word, off⟩ := p
  obtain ⟨hal, hw, -⟩ := (check_eq_ok hn _).1 h
  have hlo : m.base.toNat ≤ (addrs l).toNat := by
    have := (wordOff_eq_some.1 hw).1
    omega
  have hplan := plan_of_valid hn ((valid_iff hn l).2 ⟨ha, hal, hlo, hs⟩)
  rw [hw] at hplan
  refine (gatherOk_iff hn access l).2 ⟨ha, hs, ?_⟩
  rw [h]
  exact congrArg Except.ok (Option.some.inj hplan)

end VecMmu

end FuzzSoft
