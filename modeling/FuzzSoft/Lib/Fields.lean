import Mathlib

/-!
# Fields of a word

A word is put together from pieces shifted to their places (`place`). A field reads its own piece
back, and nothing of a piece that lies beside it.
-/

namespace Lib

variable {w m : Nat}

/-- The piece `p` in a word, its lowest bit at `k`. -/
def place (w : Nat) (p : BitVec m) (k : Nat) : BitVec w := p.setWidth w <<< k

/-- The bits of a placed part. -/
theorem getLsbD_place (p : BitVec m) (k i : Nat) :
    (place w p k).getLsbD i = (decide (i < w) && decide (k ≤ i) && p.getLsbD (i - k)) := by
  simp only [place, BitVec.getLsbD_shiftLeft, BitVec.getLsbD_setWidth]
  by_cases hi : i < w
  · have hk : i - k < w := by omega
    rcases Nat.lt_or_ge i k with hlt | hge
    · simp [hlt, Nat.not_le.2 hlt]
    · simp [hi, hk, hge, Nat.not_lt.2 hge]
  · simp [hi]

/-- A part of the full width. -/
theorem place_zero (p : BitVec w) : place w p 0 = p := by
  simp only [place, BitVec.shiftLeft_zero, BitVec.setWidth_eq]

/-- A placed part is taken out again. -/
theorem extract_place (p : BitVec m) {k : Nat} (h : k + m ≤ w) :
    (place w p k).extractLsb' k m = p := by
  apply BitVec.eq_of_getLsbD_eq
  intro i hi
  have hw : k + i < w := by omega
  simp only [BitVec.getLsbD_extractLsb', getLsbD_place, hi, hw, Nat.le_add_right, decide_true,
    Bool.true_and, Nat.add_sub_cancel_left]

/-- Beside it are zeros. -/
theorem extract_place_beside (p : BitVec m) {k lo n : Nat} (h : k + m ≤ lo ∨ lo + n ≤ k) :
    (place w p k).extractLsb' lo n = BitVec.ofNat n 0 := by
  apply BitVec.eq_of_getLsbD_eq
  intro i hi
  simp only [BitVec.getLsbD_extractLsb', getLsbD_place, BitVec.getLsbD_zero]
  rcases h with h | h
  · have hp : p.getLsbD (lo + i - k) = false := BitVec.getLsbD_of_ge p _ (by omega)
    simp [hp]
  · have hk : ¬k ≤ lo + i := by omega
    simp [hk]

/-- A field around it has it in its place. -/
theorem extract_place_around (p : BitVec m) {k lo n : Nat} (hlo : lo ≤ k) (h : lo + n ≤ w) :
    (place w p k).extractLsb' lo n = place n p (k - lo) := by
  apply BitVec.eq_of_getLsbD_eq
  intro i hi
  have hw : lo + i < w := by omega
  have hk : k ≤ lo + i ↔ k - lo ≤ i := by omega
  have hsub : lo + i - k = i - (k - lo) := by omega
  simp only [BitVec.getLsbD_extractLsb', getLsbD_place, hi, hw, hk, hsub, decide_true,
    Bool.true_and]

/-- Two neighbouring fields of one word make one field. -/
theorem place_extract_or (x : BitVec m) (lo n n' : Nat) :
    place w (x.extractLsb' (lo + n) n') (lo + n) ||| place w (x.extractLsb' lo n) lo =
      place w (x.extractLsb' lo (n + n')) lo := by
  apply BitVec.eq_of_getLsbD_eq
  intro i hi
  simp only [BitVec.getLsbD_or, getLsbD_place, BitVec.getLsbD_extractLsb', hi, decide_true,
    Bool.true_and]
  by_cases hlo : lo ≤ i
  · by_cases hn : lo + n ≤ i
    · have h1 : ¬i - lo < n := by omega
      have h2 : lo + n + (i - (lo + n)) = lo + (i - lo) := by omega
      have h3 : (i - (lo + n) < n') ↔ (i - lo < n + n') := by omega
      simp [hlo, hn, h1, h2, h3]
    · have h1 : i - lo < n := by omega
      have h2 : i - lo < n + n' := by omega
      simp [hlo, hn, h1, h2]
  · have hn : ¬lo + n ≤ i := by omega
    simp [hlo, hn]

/-- Cutting by a mask of low bits keeps the lowest field. -/
theorem and_lowMask (x : BitVec w) (n : Nat) :
    x &&& BitVec.ofNat w (2 ^ n - 1) = (x.extractLsb' 0 n).setWidth w := by
  apply BitVec.eq_of_getLsbD_eq
  intro i hi
  simp only [BitVec.getLsbD_and, BitVec.getLsbD_ofNat, Nat.testBit_two_pow_sub_one,
    BitVec.getLsbD_setWidth, BitVec.getLsbD_extractLsb', hi, decide_true, Bool.true_and,
    Nat.zero_add]
  exact Bool.and_comm _ _

/-- Cutting by a mask of high bits keeps the uppermost field in its place. -/
theorem and_highMask (x : BitVec w) (k : Nat) :
    x &&& BitVec.allOnes w <<< k = place w (x.extractLsb' k (w - k)) k := by
  apply BitVec.eq_of_getLsbD_eq
  intro i hi
  rcases Nat.lt_or_ge i k with hlt | hge
  · simp [getLsbD_place, hlt, Nat.not_le.2 hlt]
  · have hb : i - k < w - k := by omega
    have hw : i - k < w := by omega
    have hi' : k + (i - k) = i := by omega
    simp only [BitVec.getLsbD_and, BitVec.getLsbD_shiftLeft, BitVec.getLsbD_allOnes, getLsbD_place,
      BitVec.getLsbD_extractLsb', hi, hb, hw, hi', hge, Nat.not_lt.2 hge, decide_true, decide_false,
      Bool.not_false, Bool.true_and, Bool.and_true]

/-- A field taken out by a shift and a mask. -/
theorem ushiftRight_and_lowMask (x : BitVec w) (lo n : Nat) :
    (x >>> lo) &&& BitVec.ofNat w (2 ^ n - 1) = (x.extractLsb' lo n).setWidth w := by
  rw [and_lowMask]
  congr 1

/-! ## Signed fields -/

/-- Shifting down arithmetically reads the uppermost field, signed. -/
theorem sshiftRight_eq_signExtend (x : BitVec w) {n : Nat} (h0 : 0 < n) (h : n ≤ w) :
    x.sshiftRight (w - n) = (x.extractLsb' (w - n) n).signExtend w := by
  apply BitVec.eq_of_getLsbD_eq
  intro i hi
  have hmsb : (x.extractLsb' (w - n) n).msb = x.msb := by
    rw [BitVec.msb_eq_getLsbD_last, BitVec.msb_eq_getLsbD_last, BitVec.getLsbD_extractLsb']
    have hlast : w - n + (n - 1) = w - 1 := by omega
    have hn : n - 1 < n := by omega
    simp only [hlast, hn, decide_true, Bool.true_and]
  rw [BitVec.getLsbD_sshiftRight, BitVec.getLsbD_signExtend, hmsb, BitVec.getLsbD_extractLsb']
  by_cases hn : i < n
  · have hw : w - n + i < w := by omega
    simp [hn, hw, hi, Nat.not_le.2 hi]
  · have hw : ¬w - n + i < w := by omega
    simp [hn, hw, hi, Nat.not_le.2 hi]

/-- Sign extension by two shifts. -/
theorem shiftLeft_sshiftRight (x : BitVec w) {n : Nat} (h0 : 0 < n) (h : n ≤ w) :
    (x <<< (w - n)).sshiftRight (w - n) = (x.setWidth n).signExtend w := by
  rw [sshiftRight_eq_signExtend _ h0 h]
  congr 1
  apply BitVec.eq_of_getLsbD_eq
  intro i hi
  have hw : w - n + i < w := by omega
  have hge : ¬w - n + i < w - n := by omega
  simp only [BitVec.getLsbD_extractLsb', BitVec.getLsbD_shiftLeft, BitVec.getLsbD_setWidth, hi, hw,
    hge, decide_true, decide_false, Bool.not_false, Bool.true_and, Nat.add_sub_cancel_left]

/-- The number in `x` can be written in `n` bits, signed. -/
def SignedBits (n : Nat) (x : BitVec w) : Prop := -2 ^ (n - 1) ≤ x.toInt ∧ x.toInt < 2 ^ (n - 1)

/-- A sign-extended part fits its bits. -/
theorem signedBits_signExtend {n : Nat} (y : BitVec n) (h : n ≤ w) :
    SignedBits n (y.signExtend w) := by
  unfold SignedBits
  rw [BitVec.toInt_signExtend_of_le h]
  exact ⟨y.le_toInt, y.toInt_lt⟩

/-- A number that fits is the extension of its part. -/
theorem signExtend_setWidth_of_signedBits {x : BitVec w} {n : Nat} (h0 : 0 < n) (h : n ≤ w)
    (hx : SignedBits n x) : (x.setWidth n).signExtend w = x := by
  obtain ⟨hlo, hhi⟩ := hx
  have hpow : 2 ^ n = 2 * 2 ^ (n - 1) := by
    rw [← Nat.pow_succ', Nat.succ_eq_add_one, Nat.sub_add_cancel h0]
  apply BitVec.eq_of_toInt_eq
  rw [BitVec.toInt_signExtend_of_le h, BitVec.toInt_setWidth,
    ← Int.bmod_bmod_of_dvd (Nat.pow_dvd_pow 2 h), ← BitVec.toInt_eq_toNat_bmod]
  apply Int.bmod_eq_of_le_mul_two
  · rw [hpow]
    push_cast
    omega
  · rw [hpow]
    push_cast
    omega

/-- The bits of `x` from `lo` to `n`, read in their places as a signed number of `n` bits. -/
def signedField (n lo : Nat) (x : BitVec w) : BitVec w :=
  (place n (x.extractLsb' lo (n - lo)) lo).signExtend w

/-- A word is its signed field from `lo` to `n` exactly when its number fits in `n` bits and the
bits below `lo` are clear. -/
theorem signedField_eq_iff {x : BitVec w} {n lo : Nat} (hlo : lo < n) (hn : n ≤ w) :
    signedField n lo x = x ↔ SignedBits n x ∧ x.extractLsb' 0 lo = BitVec.ofNat lo 0 := by
  unfold signedField
  constructor
  · intro h
    refine ⟨h ▸ signedBits_signExtend _ hn, ?_⟩
    apply BitVec.eq_of_getLsbD_eq
    intro i hi
    have hw : i < w := by omega
    have hin : i < n := by omega
    have hb : ¬lo ≤ i := Nat.not_le.2 hi
    rw [← h]
    simp only [BitVec.getLsbD_extractLsb', BitVec.getLsbD_signExtend, getLsbD_place, hi, hw, hin,
      hb, Nat.zero_add, if_true, decide_true, decide_false, Bool.false_and, Bool.and_false,
      BitVec.getLsbD_zero]
  · rintro ⟨hx, hz⟩
    have hp : place n (x.extractLsb' lo (n - lo)) lo = x.setWidth n := by
      apply BitVec.eq_of_getLsbD_eq
      intro i hi
      simp only [getLsbD_place, BitVec.getLsbD_extractLsb', BitVec.getLsbD_setWidth, hi,
        decide_true, Bool.true_and]
      rcases Nat.lt_or_ge i lo with hlt | hge
      · have hbit := congrArg (BitVec.getLsbD · i) hz
        simp only [BitVec.getLsbD_extractLsb', hlt, decide_true, Bool.true_and, Nat.zero_add,
          BitVec.getLsbD_zero] at hbit
        simp [hbit, Nat.not_le.2 hlt]
      · have hb : i - lo < n - lo := by omega
        have hi' : lo + (i - lo) = i := by omega
        simp [hge, hb, hi']
    rw [hp]
    exact signExtend_setWidth_of_signedBits (by omega) hn hx

end Lib
