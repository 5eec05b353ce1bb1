import FuzzSoft.Lib.Span

/-!
# Packed bytes and interleaved planes

A word packs four bytes, lowest first. An operation on words that works bit by bit works byte by byte
(`byteOf_and` and the like), and a word is determined by its bytes (`eq_of_bytes`), so what a masked
operation does to a word is seen one byte at a time. A plane that interleaves the cells of `n` lanes
keeps cell `k` of lane `l` at `k * n + l` (`lanePlane`). A loop over lanes whose passes each touch
their own lane does to a lane what its pass alone does (`foldl_own`).
-/

namespace Lib

/-! ## Bytes of a word -/

/-- Byte `i` of a word. -/
def byteOf (w : BitVec 32) (i : Nat) : BitVec 8 := (w >>> (8 * i)).setWidth 8

/-- The bits of a byte. -/
theorem byteOf_getLsbD (w : BitVec 32) (i : Nat) {j : Nat} (hj : j < 8) :
    (byteOf w i).getLsbD j = w.getLsbD (8 * i + j) := by
  simp [byteOf, BitVec.getLsbD_ushiftRight, hj]

/-- Two words with the same four bytes are equal. -/
theorem eq_of_bytes {v w : BitVec 32} (h : ∀ i < 4, byteOf v i = byteOf w i) : v = w := by
  apply BitVec.eq_of_getLsbD_eq
  intro k hk
  have hb := congrArg (·.getLsbD (k % 8)) (h (k / 8) (by omega))
  have hm : k % 8 < 8 := Nat.mod_lt _ (by decide)
  rwa [byteOf_getLsbD v _ hm, byteOf_getLsbD w _ hm, Nat.div_add_mod] at hb

/-- Words are equal when their bytes are. -/
theorem eq_iff_bytes {v w : BitVec 32} : v = w ↔ ∀ i < 4, byteOf v i = byteOf w i :=
  ⟨fun h _ _ => by rw [h], eq_of_bytes⟩

@[simp] theorem byteOf_and (v w : BitVec 32) (i : Nat) :
    byteOf (v &&& w) i = byteOf v i &&& byteOf w i := by
  simp [byteOf, BitVec.ushiftRight_and_distrib, BitVec.setWidth_and]

@[simp] theorem byteOf_or (v w : BitVec 32) (i : Nat) :
    byteOf (v ||| w) i = byteOf v i ||| byteOf w i := by
  simp [byteOf, BitVec.ushiftRight_or_distrib, BitVec.setWidth_or]

@[simp] theorem byteOf_xor (v w : BitVec 32) (i : Nat) :
    byteOf (v ^^^ w) i = byteOf v i ^^^ byteOf w i := by
  simp [byteOf, BitVec.ushiftRight_xor_distrib, BitVec.setWidth_xor]

@[simp] theorem byteOf_zero (i : Nat) : byteOf 0 i = 0 := by
  simp [byteOf]

/-- A word has four bytes. -/
theorem byteOf_of_ge (w : BitVec 32) {i : Nat} (hi : 4 ≤ i) : byteOf w i = 0 := by
  apply BitVec.eq_of_getLsbD_eq
  intro j hj
  rw [byteOf_getLsbD _ _ hj, BitVec.getLsbD_of_ge _ _ (by omega)]
  simp

/-- The complement of a byte. -/
theorem byteOf_not (w : BitVec 32) {i : Nat} (hi : i < 4) : byteOf (~~~w) i = ~~~byteOf w i := by
  apply BitVec.eq_of_getLsbD_eq
  intro j hj
  have hk : 8 * i + j < 32 := by omega
  rw [byteOf_getLsbD _ _ hj, BitVec.getLsbD_not, BitVec.getLsbD_not, byteOf_getLsbD _ _ hj]
  simp [hj, hk]

/-- Shifting a word up by whole bytes moves its bytes up. -/
theorem byteOf_shiftLeft (w : BitVec 32) (k : Nat) {i : Nat} (hi : i < 4) :
    byteOf (w <<< (8 * k)) i = if k ≤ i then byteOf w (i - k) else 0 := by
  apply BitVec.eq_of_getLsbD_eq
  intro j hj
  have hlt : 8 * i + j < 32 := by omega
  rw [byteOf_getLsbD _ _ hj, BitVec.getLsbD_shiftLeft]
  split
  next h =>
    rw [byteOf_getLsbD _ _ hj, show 8 * i + j - 8 * k = 8 * (i - k) + j by omega]
    simp [hlt, show ¬8 * i + j < 8 * k by omega]
  next h => simp [show 8 * i + j < 8 * k by omega]

/-- Shifting a word down by whole bytes moves its bytes down. -/
theorem byteOf_ushiftRight (w : BitVec 32) (k i : Nat) :
    byteOf (w >>> (8 * k)) i = byteOf w (i + k) := by
  apply BitVec.eq_of_getLsbD_eq
  intro j hj
  rw [byteOf_getLsbD _ _ hj, byteOf_getLsbD _ _ hj, BitVec.getLsbD_ushiftRight]
  congr 1
  omega

/-- Byte `i` of a little-endian value is its `i`-th byte. -/
theorem byteOf_leValue {bs : List (BitVec 8)} : ∀ {i : Nat}, i < 4 →
    byteOf (leValue bs) i = bs[i]?.getD 0 := by
  induction bs with
  | nil =>
    intro i _
    simp [leValue, byteOf]
  | cons b bs ih =>
    intro i hi
    have hb : byteOf (b.setWidth 32) i = if i = 0 then b else 0 := by
      apply BitVec.eq_of_getLsbD_eq
      intro j hj
      rw [byteOf_getLsbD _ _ hj, BitVec.getLsbD_setWidth]
      split
      next h =>
        subst h
        simp [show j < 32 by omega]
      next h =>
        rw [BitVec.getLsbD_of_ge b _ (by omega)]
        simp
    rw [leValue, List.foldr_cons, ← leValue, byteOf_or, byteOf_shiftLeft (k := 1) _ hi, hb]
    cases i with
    | zero => simp
    | succ i => simp [ih (show i < 4 by omega)]

/-- A byte of the little-endian list. -/
theorem getElem?_leBytes (v : BitVec 32) {n i : Nat} (hi : i < n) :
    (leBytes v n)[i]? = some (byteOf v i) := by
  simp [leBytes, byteOf, List.getElem?_range hi]

/-- A list is that of a word when its bytes are the word's. -/
theorem eq_leBytes_iff {bs : List (BitVec 8)} {n : Nat} (hlen : bs.length = n) {v : BitVec 32} :
    bs = leBytes v n ↔ ∀ i < n, bs[i]?.getD 0 = byteOf v i := by
  constructor
  · rintro rfl i hi
    rw [getElem?_leBytes v hi, Option.getD_some]
  · intro h
    refine List.ext_getElem (by rw [hlen, length_leBytes]) fun i hi hi' => ?_
    have hb := h i (hlen ▸ hi)
    have hv := getElem?_leBytes v (hlen ▸ hi)
    rw [List.getElem?_eq_getElem hi, Option.getD_some] at hb
    rw [List.getElem?_eq_getElem hi', Option.some.injEq] at hv
    rw [hb, hv]

/-- An element of a span. -/
theorem getElem?_readSpan {α : Type*} (f : Nat → α) (off : Nat) {n i : Nat} :
    i < n → (readSpan f off n)[i]? = some (f (off + i)) := by
  induction n generalizing off i with
  | zero => intro hi; omega
  | succ n ih =>
    intro hi
    cases i with
    | zero => rfl
    | succ i =>
      rw [readSpan, List.getElem?_cons_succ, ih _ (by omega), Nat.add_right_comm, Nat.add_assoc]

/-! ## Planes of words as planes of bytes -/

/-- The bytes of a plane of words. -/
def unpack (f : Nat → BitVec 32) : Nat → BitVec 8 := fun o => byteOf (f (o / 4)) (o % 4)

/-- A byte of a plane of words. -/
theorem unpack_at (f : Nat → BitVec 32) (k : Nat) {i : Nat} (hi : i < 4) :
    unpack f (4 * k + i) = byteOf (f k) i := by
  rw [unpack, Nat.mul_add_div (by decide), Nat.mul_add_mod, Nat.div_eq_of_lt hi, Nat.mod_eq_of_lt hi,
    Nat.add_zero]

/-- Replacing a word replaces its four bytes. -/
theorem unpack_setAt (f : Nat → BitVec 32) (k : Nat) (w : BitVec 32) (o : Nat) :
    unpack (setAt f k w) o = if o / 4 = k then byteOf w (o % 4) else unpack f o := by
  unfold unpack setAt
  split <;> rfl

/-- The value of a run of bytes inside one word. -/
theorem leValue_readSpan_unpack {f : Nat → BitVec 32} {k off n : Nat} (h : off + n ≤ 4) {i : Nat}
    (hi : i < 4) : byteOf (leValue (readSpan (unpack f) (4 * k + off) n)) i =
      if i < n then byteOf (f k) (off + i) else 0 := by
  rw [byteOf_leValue hi]
  split
  next hin =>
    rw [getElem?_readSpan _ _ hin, Option.getD_some, Nat.add_assoc, unpack_at _ _ (by omega)]
  next hin =>
    rw [List.getElem?_eq_none (by rw [length_readSpan]; omega)]
    rfl

/-- A word whose bytes in a run come from elsewhere is the plane with that run written. -/
theorem unpack_setAt_run {f : Nat → BitVec 32} {k off n : Nat} {w v : BitVec 32} (h : off + n ≤ 4)
    (hw : ∀ i < 4, byteOf w i = if off ≤ i ∧ i < off + n then byteOf v (i - off)
      else byteOf (f k) i) :
    unpack (setAt f k w) = setSpan (unpack f) (4 * k + off) (leBytes v n) := by
  funext o
  have hm : o % 4 < 4 := Nat.mod_lt _ (by decide)
  rw [unpack_setAt]
  by_cases hk : o / 4 = k
  · rw [if_pos hk, hw _ hm]
    by_cases hr : off ≤ o % 4 ∧ o % 4 < off + n
    · rw [if_pos hr, setSpan, if_pos (by omega), show o - (4 * k + off) = o % 4 - off by omega,
        getElem?_leBytes _ (by omega)]
      rfl
    · rw [if_neg hr]
      have hf : byteOf (f k) (o % 4) = unpack f o := by rw [unpack, hk]
      rw [hf]
      rcases Nat.lt_or_ge o (4 * k + off) with hlt | hge
      · exact (setSpan_of_lt _ _ hlt).symm
      · exact (setSpan_of_ge _ _ (by rw [length_leBytes]; omega)).symm
  · rw [if_neg hk]
    rcases Nat.lt_or_ge o (4 * k + off) with hlt | hge
    · exact (setSpan_of_lt _ _ hlt).symm
    · exact (setSpan_of_ge _ _ (by rw [length_leBytes]; omega)).symm

/-- A word in which the bytes of a run are updated is the plane with that run updated. -/
theorem unpack_setAt_map {f : Nat → BitVec 32} {k off n : Nat} {w : BitVec 32}
    {g : BitVec 8 → BitVec 8} (h : off + n ≤ 4)
    (hw : ∀ i < 4, byteOf w i = if off ≤ i ∧ i < off + n then g (byteOf (f k) i)
      else byteOf (f k) i) :
    unpack (setAt f k w) = mapSpan (unpack f) (4 * k + off) n g := by
  funext o
  have hm : o % 4 < 4 := Nat.mod_lt _ (by decide)
  rw [unpack_setAt, mapSpan]
  by_cases hk : o / 4 = k
  · have hf : byteOf (f k) (o % 4) = unpack f o := by rw [unpack, hk]
    rw [if_pos hk, hw _ hm, hf]
    by_cases hr : off ≤ o % 4 ∧ o % 4 < off + n
    · rw [if_pos hr, if_pos (by omega)]
    · rw [if_neg hr, if_neg (by omega)]
  · rw [if_neg hk, if_neg (by omega)]

/-! ## Loops over lanes -/

section
variable {ι σ ν : Type*} {view : ι → σ → ν} {body : σ → ι → σ}

/-- A loop over other lanes leaves a lane alone. -/
theorem foldl_other (hother : ∀ s l l', l' ≠ l → view l' (body s l) = view l' s) {ls : List ι} {l : ι}
    (hl : l ∉ ls) (s : σ) : view l (ls.foldl body s) = view l s := by
  induction ls generalizing s with
  | nil => rfl
  | cons l' ls ih =>
    rw [List.mem_cons, not_or] at hl
    rw [List.foldl_cons, ih hl.2]
    exact hother s l' l hl.1

/-- A loop does to a lane what that lane's pass does to it, when the passes of the other lanes leave
it alone and its own depends on it only. -/
theorem foldl_own (hother : ∀ s l l', l' ≠ l → view l' (body s l) = view l' s)
    (hown : ∀ s t l, view l s = view l t → view l (body s l) = view l (body t l)) {ls : List ι}
    (hnd : ls.Nodup) {l : ι} (hl : l ∈ ls) (s : σ) :
    view l (ls.foldl body s) = view l (body s l) := by
  induction ls generalizing s with
  | nil => cases hl
  | cons l' ls ih =>
    obtain ⟨hl', hnd⟩ := List.nodup_cons.1 hnd
    rw [List.foldl_cons]
    rcases List.mem_cons.1 hl with rfl | hmem
    · exact foldl_other hother hl' _
    · have hne : l ≠ l' := fun h => hl' (h ▸ hmem)
      rw [ih hnd hmem]
      exact hown _ _ l (hother s l' l hne)

end

/-! ## Interleaved planes -/

section
variable {α : Type*} {n : Nat}

/-- The plane of lane `l` in a plane of `n` lanes. -/
def lanePlane (f : Nat → α) (l : Fin n) : Nat → α := fun k => f (k * n + l)

/-- A cell belongs to one lane only. -/
theorem laneIndex_inj {k k' : Nat} {l l' : Fin n} :
    k * n + l = k' * n + l' ↔ k = k' ∧ l = l' := by
  constructor
  · intro h
    have hpos : 0 < n := Nat.lt_of_le_of_lt (Nat.zero_le _) l.isLt
    have hk : (k * n + l) / n = k := by
      rw [Nat.mul_comm, Nat.mul_add_div hpos, Nat.div_eq_of_lt l.isLt, Nat.add_zero]
    have hk' : (k' * n + l') / n = k' := by
      rw [Nat.mul_comm, Nat.mul_add_div hpos, Nat.div_eq_of_lt l'.isLt, Nat.add_zero]
    have he : k = k' := by rw [← hk, h, hk']
    subst he
    exact ⟨rfl, Fin.ext (by omega)⟩
  · rintro ⟨rfl, rfl⟩
    rfl

/-- Writing a cell of a lane writes that lane's plane. -/
theorem lanePlane_setAt_self (f : Nat → α) (k : Nat) (l : Fin n) (a : α) :
    lanePlane (setAt f (k * n + l) a) l = setAt (lanePlane f l) k a := by
  funext k'
  by_cases h : k' = k
  · subst h
    rw [lanePlane, setAt_self, setAt_self]
  · rw [lanePlane, setAt_of_ne _ _ fun he => h (laneIndex_inj.1 he).1, setAt_of_ne _ _ h]
    rfl

/-- Writing a cell of a lane leaves every other lane alone. -/
theorem lanePlane_setAt_of_ne (f : Nat → α) (k : Nat) {l l' : Fin n} (a : α) (h : l' ≠ l) :
    lanePlane (setAt f (k * n + l) a) l' = lanePlane f l' := by
  funext k'
  exact setAt_of_ne _ _ fun he => h (laneIndex_inj.1 he).2

/-- Update cell `idx l` of each lane `l` of `ls` in turn. -/
def updateLanes (idx : Fin n → Nat) (g : Fin n → α → α) (f : Nat → α) (ls : List (Fin n)) : Nat → α :=
  ls.foldl (fun f l => setAt f (idx l * n + l) (g l (f (idx l * n + l)))) f

/-- Each lane sees the update of its own cell only. -/
theorem lanePlane_updateLanes (idx : Fin n → Nat) (g : Fin n → α → α) {l : Fin n}
    {ls : List (Fin n)} (hnd : ls.Nodup) (hl : l ∈ ls) (f : Nat → α) :
    lanePlane (updateLanes idx g f ls) l =
      setAt (lanePlane f l) (idx l) (g l (lanePlane f l (idx l))) := by
  refine (@foldl_own _ _ _ (fun l f => lanePlane f l) _ ?_ ?_ ls hnd l hl f).trans ?_
  · exact fun f l l' h => lanePlane_setAt_of_ne f _ _ h
  · intro f f' l h
    have hc : f (idx l * n + l) = f' (idx l * n + l) := congrFun h (idx l)
    simp only [lanePlane_setAt_self, h, hc]
  · exact lanePlane_setAt_self _ _ _ _

/-- Writing the cells of all lanes at once. -/
theorem lanePlane_setSpan_ofFn (f : Nat → α) (k : Nat) (line : Fin n → α) (l : Fin n) :
    lanePlane (setSpan f (k * n) (List.ofFn line)) l = setAt (lanePlane f l) k (line l) := by
  funext k'
  by_cases h : k' = k
  · subst h
    rw [setAt_self, lanePlane, setSpan, if_pos (Nat.le_add_right _ _), Nat.add_sub_cancel_left]
    simp
  · rw [setAt_of_ne _ _ h, lanePlane]
    rcases Nat.lt_or_gt_of_ne h with hlt | hgt
    · have := Nat.mul_le_mul_right n (Nat.succ_le_of_lt hlt)
      rw [Nat.succ_mul] at this
      exact setSpan_of_lt _ _ (by omega)
    · have := Nat.mul_le_mul_right n (Nat.succ_le_of_lt hgt)
      rw [Nat.succ_mul] at this
      exact setSpan_of_ge _ _ (by rw [List.length_ofFn]; omega)

/-- Writing back what a cell holds changes nothing. -/
theorem setAt_eq_self (f : Nat → α) (k : Nat) : setAt f k (f k) = f := by
  funext k'
  by_cases h : k' = k
  · rw [h, setAt_self]
  · exact setAt_of_ne _ _ h

end

end Lib
