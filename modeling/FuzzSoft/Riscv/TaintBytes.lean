import FuzzSoft.Lib.Packed
import FuzzSoft.Mmu.Access
import FuzzSoft.Riscv.Exec

/-!
# Words that agree where they are untainted

Byte `i` of a word is tainted when bit `8 * i` of its taint mask is set. `ByteEq` says of two words
that they agree in every other byte. The taint rules of the arithmetic are looked at byte by byte: the
bitwise operations take each byte of the result from the same bytes of the operands, the
M-extension taints the whole result, and a comparison puts its result into byte 0, whatever byte of
an operand is tainted (`alu_sound_iff`, `muldiv_byteEq`). A load extends the taint of its last byte as it
extends its sign (`extendLoad_byteEq`).
-/

namespace FuzzSoft

open Lib

/-- Byte `i` of a taint mask. -/
def taintBit (mask : U32) (i : Nat) : Bool := (mask >>> (8 * i)) &&& 1 ≠ 0

/-- The mark of a byte is one bit of the mask. -/
theorem taintBit_eq (mask : U32) (i : Nat) : taintBit mask i = mask.getLsbD (8 * i) := by
  unfold taintBit
  rw [Bool.eq_iff_iff, decide_eq_true_eq]
  constructor
  · intro h
    by_contra hb
    refine h (BitVec.eq_of_getLsbD_eq fun j hj => ?_)
    rw [BitVec.getLsbD_and, BitVec.getLsbD_ushiftRight]
    cases j with
    | zero => simpa using hb
    | succ j => simp
  · intro h h0
    have hb := congrArg (·.getLsbD 0) h0
    simp only [BitVec.getLsbD_and, BitVec.getLsbD_ushiftRight, Nat.add_zero, h] at hb
    cases hb

@[simp] theorem taintBit_or (a b : U32) (i : Nat) :
    taintBit (a ||| b) i = (taintBit a i || taintBit b i) := by
  simp only [taintBit_eq, BitVec.getLsbD_or]

@[simp] theorem taintBit_zero (i : Nat) : taintBit 0 i = false := by
  simp [taintBit]

/-- The mark of byte `i` in its place. -/
theorem taintBit_shiftLeft {i j : Nat} (hi : i < 4) (hj : j < 4) (b : Bool) :
    taintBit ((if b then 1#32 else 0) <<< (8 * i)) j = (decide (i = j) && b) := by
  have key : ∀ i < 4, ∀ j < 4, ∀ b : Bool,
      taintBit ((if b then 1#32 else 0) <<< (8 * i)) j = (decide (i = j) && b) := by decide
  exact key i hi j hj b

/-- The mask of a span has the marks of its bytes. -/
theorem taintBit_rawMask {f : Nat → Bool} {n i : Nat} (hn : n ≤ 4) (hi : i < 4) :
    taintBit (rawMask f n) i = (decide (i < n) && f i) := by
  induction n with
  | zero => simp [rawMask, taintBit]
  | succ n ih =>
    have ih := ih (by omega)
    have hs : rawMask f (n + 1) = rawMask f n ||| (if f n then 1#32 else 0) <<< (8 * n) := by
      unfold rawMask
      rw [List.range_succ, List.foldl_append, List.foldl_cons, List.foldl_nil]
      cases f n <;> simp
    rw [hs, taintBit_or, ih, taintBit_shiftLeft (by omega) hi]
    rcases Nat.lt_trichotomy i n with h | rfl | h
    · simp [h, show i < n + 1 by omega, show n ≠ i by omega]
    · simp
    · simp [show ¬ i < n by omega, show ¬ i < n + 1 by omega, show n ≠ i by omega]

/-- The mask of one byte. -/
theorem rawMask_one (f : Nat → Bool) : rawMask f 1 = if f 0 then 1#32 else 0 := by
  unfold rawMask
  cases h : f 0 <;> simp [List.range_succ, h]

/-- The bytes that a load read keep their marks when the mask is extended. -/
theorem taintBit_extendLoadTaint {mask : U32} {size i : Nat} (hi : i < size) (h4 : size ≤ 4)
    (signed : Bool) : taintBit (extendLoadTaint mask size signed) i = taintBit mask i := by
  have key : ∀ (n k : Nat) (m : U32), size ≤ k → k + n ≤ 4 →
      taintBit ((List.range' k n).foldl (fun m pos => m ||| (1#32 <<< (8 * pos))) m) i =
        taintBit m i := by
    intro n
    induction n with
    | zero => exact fun _ _ _ _ => rfl
    | succ n ih =>
      intro k m hk hn
      rw [List.range'_succ, List.foldl_cons, ih (k + 1) _ (by omega) (by omega), taintBit_or]
      have h0 := taintBit_shiftLeft (show k < 4 by omega) (show i < 4 by omega) true
      rw [if_pos rfl, decide_eq_false (show k ≠ i by omega)] at h0
      rw [h0, Bool.false_and, Bool.or_false]
  unfold extendLoadTaint
  split
  · rfl
  split
  · rfl
  · exact key _ _ _ (Nat.le_refl _) (by omega)

/-! ## Words -/

/-- The words agree in every byte that the mask leaves untainted. -/
def ByteEq (mask v w : U32) : Prop := ∀ i < 4, taintBit mask i = false → byteOf v i = byteOf w i

namespace ByteEq

variable {mask mask' v v' w w' : U32}

/-- A word agrees with itself. -/
theorem refl (mask v : U32) : ByteEq mask v v := fun _ _ _ => rfl

/-- Words without a tainted byte are equal. -/
theorem eq_of_clean (h : ByteEq mask v w) (hm : ∀ i < 4, taintBit mask i = false) : v = w :=
  eq_of_bytes fun i hi => h i hi (hm i hi)

/-- Words that agree under the empty mask are equal. -/
theorem eq_of_zero (h : ByteEq 0 v w) : v = w := h.eq_of_clean fun i _ => taintBit_zero i

/-- A bitwise operation takes each byte from the same bytes of its operands. -/
theorem bitwise (h : ByteEq mask v w) (h' : ByteEq mask' v' w') {f : U32 → U32 → U32}
    {g : U8 → U8 → U8} (hf : ∀ a b i, byteOf (f a b) i = g (byteOf a i) (byteOf b i)) :
    ByteEq (mask ||| mask') (f v v') (f w w') := by
  intro i hi hm
  rw [taintBit_or, Bool.or_eq_false_iff] at hm
  rw [hf, hf, h i hi hm.1, h' i hi hm.2]

/-- Words of one bit agree wherever byte 0 is tainted. -/
theorem flag (hm : taintBit mask 0 = true) (p q : Prop) [Decidable p] [Decidable q] :
    ByteEq mask (if p then 1 else 0) (if q then 1 else 0) := by
  have hb : ∀ (r : Prop) [Decidable r], ∀ i < 4, i ≠ 0 → byteOf (if r then 1 else 0) i = 0 := by
    intro r _ i hi h0
    have h1 : ∀ i < 4, i ≠ 0 → byteOf 1 i = 0 := by decide
    split
    · exact h1 i hi h0
    · exact byteOf_zero i
  intro i hi hclean
  by_cases h0 : i = 0
  · subst h0
    rw [hm] at hclean
    cases hclean
  · rw [hb p i hi h0, hb q i hi h0]

end ByteEq

/-! ## Arithmetic -/

/-- The operations whose taint rule is said to be sound. -/
def AluOp.tracked : AluOp → Bool
  | .slt | .sltu | .xor | .or | .and => true
  | _ => false

/-- A comparison has its result in byte 0. -/
def AluOp.compares : AluOp → Bool
  | .slt | .sltu => true
  | _ => false

/-- The mask taints no byte. -/
def Untainted (mask : U32) : Prop := ∀ i < 4, taintBit mask i = false

instance (mask : U32) : Decidable (Untainted mask) :=
  inferInstanceAs (Decidable (∀ i < 4, taintBit mask i = false))

/-- Two masks taint no byte when neither does. -/
theorem untainted_or {a b : U32} : Untainted (a ||| b) ↔ Untainted a ∧ Untainted b := by
  unfold Untainted
  simp only [taintBit_or, Bool.or_eq_false_iff]
  exact ⟨fun h => ⟨fun i hi => (h i hi).1, fun i hi => (h i hi).2⟩,
    fun h i hi => ⟨h.1 i hi, h.2 i hi⟩⟩

/-- The empty mask taints no byte. -/
theorem untainted_zero : Untainted 0 := fun i _ => taintBit_zero i

/-- A comparison with a tainted operand has byte 0 of an operand tainted. -/
def AluOp.Covered (op : AluOp) (mask : U32) : Prop :=
  op.compares = true → Untainted mask ∨ taintBit mask 0 = true

instance (op : AluOp) (mask : U32) : Decidable (op.Covered mask) :=
  inferInstanceAs (Decidable (_ → _))

/-- An admitted and covered operation is one with a sound taint rule. -/
theorem AluOp.sound {op : AluOp} {mask : U32} (ha : op.tracked = true ∨ Untainted mask)
    (hc : op.Covered mask) :
    Untainted mask ∨ op.tracked = true ∧ (op.compares = true → taintBit mask 0 = true) := by
  by_cases hu : Untainted mask
  · exact .inl hu
  · exact .inr ⟨ha.resolve_right hu, fun hcmp => (hc hcmp).resolve_left hu⟩

/-- An operation on words that agree where they are untainted gives such words: if its operands have no
tainted byte at all, or for a bitwise operation, or for a comparison with byte 0 tainted. -/
theorem alu_byteEq {op : AluOp} {ta tb a a' b b' : U32} (ha : ByteEq ta a a') (hb : ByteEq tb b b')
    (hop : Untainted (ta ||| tb) ∨
      op.tracked = true ∧ (op.compares = true → taintBit (ta ||| tb) 0 = true)) :
    ByteEq (aluTaint ta tb) (alu op a b) (alu op a' b') := by
  unfold aluTaint
  rcases hop with hu | ⟨ht, hc⟩
  · obtain ⟨hua, hub⟩ := untainted_or.1 hu
    obtain rfl := ha.eq_of_clean hua
    obtain rfl := hb.eq_of_clean hub
    exact .refl _ _
  · cases op with
    | and => exact ha.bitwise hb byteOf_and
    | or => exact ha.bitwise hb byteOf_or
    | xor => exact ha.bitwise hb byteOf_xor
    | slt => exact .flag (hc rfl) _ _
    | sltu => exact .flag (hc rfl) _ _
    | _ => cases ht

/-- The rule of a tracked operation is sound for all operands exactly if it is covered: a comparison with
a byte above byte 0 tainted tells the two values of that byte apart. -/
theorem alu_sound_iff {op : AluOp} {ta tb : U32} (ht : op.tracked = true) :
    (∀ a a' b b', ByteEq ta a a' → ByteEq tb b b' →
      ByteEq (aluTaint ta tb) (alu op a b) (alu op a' b')) ↔ op.Covered (ta ||| tb) := by
  constructor
  · intro h hcmp
    by_contra hno
    obtain ⟨hne, h0⟩ := not_or.1 hno
    obtain ⟨k, hk⟩ := not_forall.1 hne
    obtain ⟨hk4, hk⟩ := Classical.not_imp.1 hk
    have hk0 : k ≠ 0 := by
      rintro rfl
      exact hk (by simpa using h0)
    have hbit : ∀ {t : U32}, taintBit t k = true → ByteEq t 0 (1 <<< (8 * k)) := by
      have key : ∀ k < 4, ∀ i < 4, i ≠ k → byteOf 0 i = byteOf (1 <<< (8 * k)) i := by decide
      intro t hm i hi hclean
      refine key k hk4 i hi ?_
      rintro rfl
      rw [hm] at hclean
      cases hclean
    have hleft : ∀ k < 4, k ≠ 0 → byteOf (alu .slt 0 1) 0 ≠ byteOf (alu .slt (1 <<< (8 * k)) 1) 0 ∧
        byteOf (alu .sltu 0 1) 0 ≠ byteOf (alu .sltu (1 <<< (8 * k)) 1) 0 := by decide
    have hright : ∀ k < 4, k ≠ 0 → byteOf (alu .slt 0 0) 0 ≠ byteOf (alu .slt 0 (1 <<< (8 * k))) 0 ∧
        byteOf (alu .sltu 0 0) 0 ≠ byteOf (alu .sltu 0 (1 <<< (8 * k))) 0 := by decide
    have hclean : taintBit (aluTaint ta tb) 0 = false := by
      unfold aluTaint
      simpa using h0
    rw [taintBit_or, Bool.not_eq_false, Bool.or_eq_true] at hk
    rcases hk with hk | hk
    · have heq := h 0 (1 <<< (8 * k)) 1 1 (hbit hk) (.refl tb 1) 0 (by decide) hclean
      cases op with
      | slt => exact (hleft k hk4 hk0).1 heq
      | sltu => exact (hleft k hk4 hk0).2 heq
      | _ => cases hcmp
    · have heq := h 0 0 0 (1 <<< (8 * k)) (.refl ta 0) (hbit hk) 0 (by decide) hclean
      cases op with
      | slt => exact (hright k hk4 hk0).1 heq
      | sltu => exact (hright k hk4 hk0).2 heq
      | _ => cases hcmp
  · exact fun hc a a' b b' ha hb => alu_byteEq ha hb (AluOp.sound (.inl ht) hc)

/-- The M-extension taints a whole result. -/
theorem muldiv_byteEq {op : MulOp} {ta tb a a' b b' : U32} (ha : ByteEq ta a a')
    (hb : ByteEq tb b b') : ByteEq (muldivTaint ta tb) (muldiv op a b) (muldiv op a' b') := by
  unfold muldivTaint
  split
  next =>
    intro i hi hm
    have hall : ∀ i < 4, taintBit 0xffffffff i = true := by decide
    rw [hall i hi] at hm
    cases hm
  next h =>
    obtain ⟨rfl, rfl⟩ : ta = 0 ∧ tb = 0 := by simpa [not_or] using h
    rw [ha.eq_of_zero, hb.eq_of_zero]
    exact .refl _ _

/-! ## Extension of loads -/

/-- The bits of a sign-extended part. -/
theorem getLsbD_signExtend_setWidth (v : U32) {k p : Nat} (hk : 0 < k) (hp : p < 32) :
    ((v.setWidth k).signExtend 32).getLsbD p = v.getLsbD (if p < k then p else k - 1) := by
  rw [BitVec.getLsbD_signExtend, decide_eq_true hp, Bool.true_and]
  split
  next h => rw [BitVec.getLsbD_setWidth, decide_eq_true h, Bool.true_and]
  next h =>
    rw [BitVec.msb_eq_getLsbD_last, BitVec.getLsbD_setWidth, decide_eq_true (by omega),
      Bool.true_and]

/-- The bytes of a sign-extended word are those loaded, then copies of the sign. -/
theorem byteOf_extendLoad (v : U32) {size i : Nat} (hn : AccessSize size) (hi : i < 4) :
    byteOf (extendLoad v size true) i =
      if i < size then byteOf v i else if (byteOf v (size - 1)).msb then 0xff else 0 := by
  have h0 : 0 < size := by rcases hn with rfl | rfl | rfl <;> decide
  have hff : ∀ b : Bool, ∀ j < 8, BitVec.getLsbD (if b = true then 0xff else 0 : U8) j = b := by
    decide
  have hbit : ∀ p < 32, (extendLoad v size true).getLsbD p =
      v.getLsbD (if p < 8 * size then p else 8 * size - 1) := by
    intro p hp
    rcases hn with rfl | rfl | rfl
    · exact getLsbD_signExtend_setWidth v (by decide) hp
    · exact getLsbD_signExtend_setWidth v (by decide) hp
    · rw [if_pos hp]
      rfl
  apply BitVec.eq_of_getLsbD_eq
  intro j hj
  rw [byteOf_getLsbD _ _ hj, hbit _ (by omega)]
  split
  next h => rw [if_pos (by omega), byteOf_getLsbD _ _ hj]
  next h =>
    rw [if_neg (by omega), hff _ _ hj, BitVec.msb_eq_getLsbD_last, byteOf_getLsbD _ _ (by decide)]
    congr 1
    omega

/-- A mask with the marks of some bytes set. -/
theorem taintBit_foldl {l : List Nat} {mask : U32} {i : Nat} (hi : i < 4) (hl : ∀ k ∈ l, k < 4) :
    taintBit (l.foldl (fun m pos => m ||| (1#32 <<< (8 * pos))) mask) i =
      (taintBit mask i || decide (i ∈ l)) := by
  induction l generalizing mask with
  | nil => simp
  | cons k l ih =>
    have hb := taintBit_shiftLeft (hl k List.mem_cons_self) hi true
    rw [if_pos rfl] at hb
    rw [List.foldl_cons, ih fun k hk => hl k (List.mem_cons_of_mem _ hk), taintBit_or, hb]
    by_cases hk : k = i
    · simp [hk]
    · simp [hk, Ne.symm hk]

/-- A tainted sign taints the bytes above it. -/
theorem taintBit_extendLoadTaint_sign {mask : U32} {size i : Nat} (hs : taintBit mask (size - 1) = true)
    (hi : size ≤ i) (h4 : i < 4) : taintBit (extendLoadTaint mask size true) i = true := by
  have hne : ¬ mask &&& (1#32 <<< (8 * (size - 1))) = 0 := by
    intro h0
    have hb := congrArg (fun m => m.getLsbD (8 * (size - 1))) h0
    have h1 := taintBit_shiftLeft (i := size - 1) (j := size - 1) (by omega) (by omega) true
    rw [if_pos rfl, taintBit_eq] at h1
    rw [taintBit_eq] at hs
    simp only [BitVec.getLsbD_and, hs, h1] at hb
    simp at hb
  unfold extendLoadTaint
  rw [if_neg (by simp; omega), if_neg hne, taintBit_foldl h4 fun k hk => by
    have := List.mem_range'_1.1 hk
    omega]
  rw [decide_eq_true (List.mem_range'_1.2 ⟨hi, by omega⟩), Bool.or_true]

/-- Extending two loaded words that agree where they are untainted gives such words. -/
theorem extendLoad_byteEq {mask v w : U32} {size : Nat} (hn : AccessSize size) (signed : Bool)
    (h : ∀ i < 4, (i < size → taintBit mask i = false) → byteOf v i = byteOf w i) :
    ByteEq (extendLoadTaint mask size signed) (extendLoad v size signed)
      (extendLoad w size signed) := by
  have h4 : size ≤ 4 := by rcases hn with rfl | rfl | rfl <;> decide
  have h0 : 0 < size := by rcases hn with rfl | rfl | rfl <;> decide
  intro i hi hm
  cases signed with
  | false =>
    refine h i hi fun hs => ?_
    rwa [taintBit_extendLoadTaint hs h4] at hm
  | true =>
    rw [byteOf_extendLoad v hn hi, byteOf_extendLoad w hn hi]
    split
    next hs =>
      rw [taintBit_extendLoadTaint hs h4] at hm
      exact h i hi fun _ => hm
    next hs =>
      rw [h (size - 1) (by omega) fun _ => ?_]
      by_contra hne
      rw [taintBit_extendLoadTaint_sign (by simpa using hne) (by omega) hi] at hm
      cases hm

end FuzzSoft
