import FuzzSoft.Lib.Cut
import FuzzSoft.Lib.Packed
import FuzzSoft.Prog.Skeleton

/-!
# Comparison-guided substitution

What `mutate_cmplog` does to a program: where a value in it is one side of a logged comparison, it puts
the other side or a neighbour of that there. The scan looks at every leaf until it has enough
candidates, NULL pointers included, and of a scalar it looks at the low half only, while the whole of it
is replaced. So the substitution is exact as long as every scalar that the scan reaches, and that has
one side of a pair for its low half, is that side and no NULL pointer (`substitution_exact_iff`).
-/

namespace FuzzSoft

open Lib Gen Rng

/-! ## What a substitution should be -/

/-- `x` and `y` are the two sides of a logged pair. -/
def Sides (pairs : List (U32 × U32)) (x y : U32) : Prop := (x, y) ∈ pairs ∨ (y, x) ∈ pairs

/-- The window of `width` bytes at `off` of a byte string, in the part that is scanned, is `x`, and `y`
differs from it at that width. -/
structure Window (b : List U8) (width off : Nat) (x y : U32) : Prop where
  size : width = 4 ∨ width = 2 ∨ width = 1
  scanned : off + width ≤ min b.length BUFFER_SCAN_CAP
  holds : (b.drop off).take width = leBytes x width
  differs : leBytes x width ≠ leBytes y width

/-- A scalar, or a window of a byte string, is one side of a pair whose sides differ at that width. -/
def Matches (pairs : List (U32 × U32)) : ArgValue → Prop
  | .imm v => ∃ x y, v = x.setWidth 64 ∧ Sides pairs x y ∧ x ≠ y
  | .bytes b => ∃ width off x y, Sides pairs x y ∧ Window b width off x y
  | _ => False

/-- A value with one side of a pair replaced by the other, or by a neighbour of the other. -/
inductive Guess (pairs : List (U32 × U32)) : ArgValue → ArgValue → Prop
  | imm {x y z : U32} : Sides pairs x y → x ≠ y → z ∈ near y →
      Guess pairs (.imm (x.setWidth 64)) (.imm (z.setWidth 64))
  | bytes {b : List U8} {width off : Nat} {x y z : U32} : Sides pairs x y → Window b width off x y →
      z ∈ near y →
      Guess pairs (.bytes b) (.bytes (b.take off ++ leBytes z width ++ b.drop (off + width)))

/-- A slot of data: a leaf that is no NULL pointer. -/
def IsDatum (ty : ArgType) (w : ArgValue) : Prop :=
  IsLeaf ty w ∧ ∀ dir inner nullable v, (ty, w) ≠ (.ptr dir inner nullable, .imm v)

/-- `q` is `p` with a guess in one slot of data. -/
def OneGuess (pairs : List (U32 × U32)) (p q : Prog) : Prop :=
  ∃ i j path ty w w', p.slot? i j path = some (ty, w) ∧ IsDatum ty w ∧ Guess pairs w w' ∧
    q = p.put i j path w'

/-! ## Windows -/

/-- The mask of a window. -/
def maskOf (width : Nat) : U32 := if width = 4 then -1 else (1#32 <<< (8 * width)) - 1

section
variable {width : Nat} (hw : width = 4 ∨ width = 2 ∨ width = 1)
include hw

/-- A masked word keeps its low bytes. -/
theorem byteOf_maskOf (x : U32) {i : Nat} (hi : i < 4) :
    byteOf (x &&& maskOf width) i = if i < width then byteOf x i else 0 := by
  have h4 : i = 0 ∨ i = 1 ∨ i = 2 ∨ i = 3 := by omega
  have hall : ∀ b : U8, b &&& 255#8 = b := fun _ => BitVec.and_allOnes
  rw [byteOf_and]
  rcases hw with rfl | rfl | rfl <;> rcases h4 with rfl | rfl | rfl | rfl <;>
    simp [byteOf, maskOf, hall]

/-- A window is a masked word when its bytes are those of the word. -/
theorem leValue_eq_mask {bs : List U8} (hlen : bs.length = width) (x : U32) :
    leValue bs = x &&& maskOf width ↔ bs = leBytes x width := by
  have hle : width ≤ 4 := by omega
  rw [eq_iff_bytes, eq_leBytes_iff hlen]
  constructor
  · intro h i hi
    have := h i (by omega)
    rwa [byteOf_leValue (by omega), byteOf_maskOf hw x (by omega), if_pos hi] at this
  · intro h i hi
    rw [byteOf_leValue hi, byteOf_maskOf hw x hi]
    split
    next hlt => exact h i hlt
    next hge => rw [List.getElem?_eq_none (by omega), Option.getD_none]

/-- Two words agree under the mask when they have the same bytes in the window. -/
theorem mask_eq_mask (x y : U32) : x &&& maskOf width = y &&& maskOf width ↔
    leBytes x width = leBytes y width := by
  rw [← leValue_eq_mask hw (length_leBytes x width) y,
    (leValue_eq_mask hw (length_leBytes x width) x).mpr rfl]

/-- A masked word as a number. -/
theorem toNat_mask (x : U32) : (x &&& maskOf width).toNat = x.toNat % 2 ^ (8 * width) := by
  have hm : (maskOf width).toNat = 2 ^ (8 * width) - 1 := by
    rcases hw with rfl | rfl | rfl <;> rfl
  rw [BitVec.toNat_and, hm, Nat.and_two_pow_sub_one_eq_mod]

/-- The neighbours of a masked word are those of the word, under the mask. -/
theorem nearMasked_mask (y : U32) :
    nearMasked (y &&& maskOf width) (maskOf width) = (near y).map (· &&& maskOf width) := by
  have hadd : ∀ d : U32, (y &&& maskOf width) + d &&& maskOf width = y + d &&& maskOf width := by
    intro d
    apply BitVec.eq_of_toNat_eq
    rw [toNat_mask hw, toNat_mask hw, BitVec.toNat_add, BitVec.toNat_add, toNat_mask hw]
    rcases hw with rfl | rfl | rfl <;> omega
  simp only [nearMasked, near, List.map_cons, List.map_nil, BitVec.sub_eq_add_neg, hadd,
    BitVec.and_assoc, BitVec.and_self]

/-- The low bytes do not see the mask. -/
theorem leBytes_mask (x : U32) : leBytes (x &&& maskOf width) width = leBytes x width := by
  rw [← mask_eq_mask hw, BitVec.and_assoc, BitVec.and_self]

end

/-! ## What the scan finds in a leaf -/

/-- What the scan takes for one side of a pair: of a scalar it sees the low half. -/
def Hits (pairs : List (U32 × U32)) : ArgValue → Prop
  | .imm v => ∃ y, Sides pairs (v.setWidth 32) y ∧ v.setWidth 32 ≠ y
  | .bytes b => ∃ width off x y, Sides pairs x y ∧ Window b width off x y
  | _ => False

/-- The substitutions for an immediate that one pair gives. -/
def immGuesses (v : U32) (p : U32 × U32) : List Replacement :=
  (if v = p.1 ∧ p.2 ≠ p.1 then (near p.2).map .imm else []) ++
    (if v = p.2 ∧ p.1 ≠ p.2 then (near p.1).map .imm else [])

/-- All the substitutions for a leaf. -/
def guesses (pairs : List (U32 × U32)) : ArgValue → List Replacement
  | .imm v => pairs.flatMap (immGuesses (v.setWidth 32))
  | .bytes b => (windows (min b.length BUFFER_SCAN_CAP)).flatMap fun w => scanWindow b w.1 w.2 pairs
  | _ => []

/-- The scan of a scalar takes its guesses up to the limit. -/
theorem cut_scanImm (v : U32) (found : Nat) : ∀ (pairs : List (U32 × U32)) (out : List Replacement),
    ∃ r, scanImm v pairs out found = out ++ r ∧
      Cut MAX_CANDIDATES (found + out.length) r (pairs.flatMap (immGuesses v))
  | [], out => ⟨[], (List.append_nil _).symm, .refl _ _ _⟩
  | (a, b) :: pairs, out => by
    have hout : (if v = b ∧ a ≠ b then
          (if v = a ∧ b ≠ a then out ++ (near b).map .imm else out) ++ (near a).map .imm
        else if v = a ∧ b ≠ a then out ++ (near b).map .imm else out) =
        out ++ immGuesses v (a, b) := by
      unfold immGuesses
      split <;> split <;> simp
    rw [scanImm]
    simp only [hout, List.flatMap_cons]
    rw [List.length_append, ← Nat.add_assoc]
    have hhere := Cut.refl MAX_CANDIDATES (found + out.length) (immGuesses v (a, b))
    split
    next h => exact ⟨_, rfl, hhere.stop h⟩
    next h =>
      obtain ⟨r, hr, hcut⟩ := cut_scanImm v found pairs (out ++ immGuesses v (a, b))
      rw [List.length_append, ← Nat.add_assoc] at hcut
      exact ⟨_, hr.trans (List.append_assoc _ _ _), hhere.more (Nat.lt_of_not_ge h) hcut⟩

/-- The scan of a buffer takes the guesses of its windows up to the limit. -/
theorem cut_scanBytes (buf : List U8) (pairs : List (U32 × U32)) (found : Nat) :
    ∀ (ws : List (Nat × Nat)) (out : List Replacement), ∃ r, scanBytes buf pairs ws out found = out ++ r ∧
      Cut MAX_CANDIDATES (found + out.length) r (ws.flatMap fun w => scanWindow buf w.1 w.2 pairs)
  | [], out => ⟨[], (List.append_nil _).symm, .refl _ _ _⟩
  | (width, off) :: ws, out => by
    simp only [scanBytes, List.flatMap_cons]
    rw [List.length_append, ← Nat.add_assoc]
    have hhere := Cut.refl MAX_CANDIDATES (found + out.length) (scanWindow buf width off pairs)
    split
    next h => exact ⟨_, rfl, hhere.stop h⟩
    next h =>
      obtain ⟨r, hr, hcut⟩ := cut_scanBytes buf pairs found ws (out ++ scanWindow buf width off pairs)
      rw [List.length_append, ← Nat.add_assoc] at hcut
      exact ⟨_, hr.trans (List.append_assoc _ _ _), hhere.more (Nat.lt_of_not_ge h) hcut⟩

/-- The scan of a leaf finds its substitutions, until there are enough. -/
theorem cut_scanLeaf {ty : ArgType} {w : ArgValue} {isBytes : Bool} (h : cmplogLeaf ty w = some isBytes)
    (pairs : List (U32 × U32)) (found : Nat) :
    Cut MAX_CANDIDATES found (scanLeaf isBytes w pairs found) (guesses pairs w) := by
  cases w with
  | imm v =>
    cases h
    obtain ⟨r, hr, hcut⟩ := cut_scanImm (v.setWidth 32) found pairs []
    rw [List.nil_append] at hr
    change Cut _ _ (scanImm _ _ _ _) _
    rw [hr]
    exact hcut
  | bytes b =>
    cases h
    obtain ⟨r, hr, hcut⟩ := cut_scanBytes b pairs found (windows (min b.length BUFFER_SCAN_CAP)) []
    rw [List.nil_append] at hr
    change Cut _ _ (scanBytes _ _ _ _ _) _
    rw [hr]
    exact hcut
  | _ => cases h

section
variable {pairs : List (U32 × U32)}

/-- A pair suggests the other side, and numbers near it. -/
theorem mem_immGuesses {v : U32} {p : U32 × U32} {r : Replacement} :
    r ∈ immGuesses v p ↔
      ∃ y z, (p = (v, y) ∨ p = (y, v)) ∧ v ≠ y ∧ z ∈ near y ∧ r = .imm z := by
  obtain ⟨a, b⟩ := p
  have hside : ∀ {c : Prop} [Decidable c] {y : U32}, (r ∈ if c then (near y).map .imm else []) ↔
      c ∧ ∃ z ∈ near y, r = .imm z := by
    intro c _ y
    split
    next h => simp [h, eq_comm]
    next h => simp [h]
  rw [immGuesses, List.mem_append, hside, hside]
  constructor
  · rintro (⟨⟨rfl, hne⟩, z, hz, rfl⟩ | ⟨⟨rfl, hne⟩, z, hz, rfl⟩)
    · exact ⟨b, z, .inl rfl, hne.symm, hz, rfl⟩
    · exact ⟨a, z, .inr rfl, hne.symm, hz, rfl⟩
  · rintro ⟨y, z, h | h, hne, hz, rfl⟩ <;> cases h
    · exact .inl ⟨⟨rfl, hne.symm⟩, z, hz, rfl⟩
    · exact .inr ⟨⟨rfl, hne.symm⟩, z, hz, rfl⟩

/-- What the pairs suggest for a scalar. -/
theorem mem_guesses_imm {v : U64} {r : Replacement} : r ∈ guesses pairs (.imm v) ↔
    ∃ y z, Sides pairs (v.setWidth 32) y ∧ v.setWidth 32 ≠ y ∧ z ∈ near y ∧ r = .imm z := by
  simp only [guesses, List.mem_flatMap, mem_immGuesses]
  constructor
  · rintro ⟨p, hp, y, z, rfl | rfl, hz⟩
    · exact ⟨y, z, .inl hp, hz⟩
    · exact ⟨y, z, .inr hp, hz⟩
  · rintro ⟨y, z, h | h, hz⟩
    · exact ⟨_, h, y, z, .inl rfl, hz⟩
    · exact ⟨_, h, y, z, .inr rfl, hz⟩

/-- The first substitution for an immediate changes it. -/
theorem head_guesses_imm {v : U64} (h : Hits pairs (.imm v)) :
    ∃ y rest, guesses pairs (.imm v) = .imm y :: rest ∧ y ≠ v.setWidth 32 := by
  obtain ⟨y, hs, hne⟩ := h
  have hhead : ∀ p : U32 × U32, immGuesses (v.setWidth 32) p ≠ [] →
      ∃ y rest, immGuesses (v.setWidth 32) p = .imm y :: rest ∧ y ≠ v.setWidth 32 := by
    intro p hp
    unfold immGuesses at hp ⊢
    split
    next h => exact ⟨p.2, _, rfl, h.1 ▸ h.2⟩
    next h =>
      rw [if_neg h, List.nil_append] at hp
      split
      next h' => exact ⟨p.1, _, rfl, h'.1 ▸ h'.2⟩
      next h' => exact absurd (if_neg h') hp
  have hsome : ∃ p ∈ pairs, immGuesses (v.setWidth 32) p ≠ [] := by
    rcases hs with hp | hp
    · exact ⟨_, hp, List.ne_nil_of_mem (mem_immGuesses.mpr ⟨y, y, .inl rfl, hne, by simp [near], rfl⟩)⟩
    · exact ⟨_, hp, List.ne_nil_of_mem (mem_immGuesses.mpr ⟨y, y, .inr rfl, hne, by simp [near], rfl⟩)⟩
  rw [guesses]
  clear hs
  induction pairs with
  | nil => simp at hsome
  | cons p pairs ih =>
    rw [List.flatMap_cons]
    by_cases hp : immGuesses (v.setWidth 32) p = []
    · rw [hp, List.nil_append]
      refine ih ?_
      obtain ⟨q, hq, hqne⟩ := hsome
      rcases List.mem_cons.mp hq with rfl | hq
      · exact absurd hp hqne
      · exact ⟨q, hq, hqne⟩
    · obtain ⟨y, rest, hy, hne⟩ := hhead p hp
      exact ⟨y, _, by rw [hy]; rfl, hne⟩

/-- The windows of a buffer. -/
theorem mem_windows {n width off : Nat} : (width, off) ∈ windows n ↔
    (width = 4 ∨ width = 2 ∨ width = 1) ∧ off + width ≤ n := by
  simp only [windows, List.mem_flatMap, List.mem_cons, List.not_mem_nil, or_false]
  constructor
  · rintro ⟨w, hw, hm⟩
    split at hm
    · cases hm
    next hlt =>
      obtain ⟨o, ho, heq⟩ := List.mem_map.mp hm
      cases heq
      have := List.mem_range.mp ho
      exact ⟨hw, by omega⟩
  · rintro ⟨hw, hle⟩
    refine ⟨width, hw, ?_⟩
    rw [if_neg (by omega)]
    exact List.mem_map.mpr ⟨off, List.mem_range.mpr (by omega), rfl⟩

/-- What the pairs suggest for a window. -/
theorem mem_scanWindow {b : List U8} {width off : Nat} (hw : width = 4 ∨ width = 2 ∨ width = 1)
    (hle : off + width ≤ b.length) {r : Replacement} : r ∈ scanWindow b width off pairs ↔
      ∃ x y z, Sides pairs x y ∧ (b.drop off).take width = leBytes x width ∧
        leBytes x width ≠ leBytes y width ∧ z ∈ near y ∧ r = .bytes off (leBytes z width) := by
  have hlen : ((b.drop off).take width).length = width := by
    rw [List.length_take, List.length_drop]
    omega
  have hside : ∀ x y, (r ∈ if leValue ((b.drop off).take width) = x &&& maskOf width ∧
      y &&& maskOf width ≠ x &&& maskOf width then (nearMasked (y &&& maskOf width) (maskOf width)).map
        fun v => Replacement.bytes off (leBytes v width) else []) ↔
      (b.drop off).take width = leBytes x width ∧ leBytes x width ≠ leBytes y width ∧
        ∃ z ∈ near y, r = .bytes off (leBytes z width) := by
    intro x y
    have hcond : leValue ((b.drop off).take width) = x &&& maskOf width ∧
        y &&& maskOf width ≠ x &&& maskOf width ↔
        (b.drop off).take width = leBytes x width ∧ leBytes x width ≠ leBytes y width := by
      rw [leValue_eq_mask hw hlen, ne_eq, mask_eq_mask hw, ne_eq, eq_comm (a := leBytes y width)]
    rw [nearMasked_mask hw]
    split
    next h =>
      simp only [List.map_map, List.mem_map, Function.comp_apply, leBytes_mask hw]
      rw [hcond] at h
      constructor
      · rintro ⟨z, hz, rfl⟩
        exact ⟨h.1, h.2, z, hz, rfl⟩
      · rintro ⟨-, -, z, hz, rfl⟩
        exact ⟨z, hz, rfl⟩
    next h =>
      rw [hcond] at h
      simp only [List.not_mem_nil, false_iff]
      exact fun h' => h ⟨h'.1, h'.2.1⟩
  simp only [scanWindow, List.mem_flatMap, List.mem_append, Prod.exists]
  constructor
  · rintro ⟨x, y, hp, h | h⟩
    · obtain ⟨hx, hne, z, hz, rfl⟩ := (hside x y).mp h
      exact ⟨x, y, z, .inl hp, hx, hne, hz, rfl⟩
    · obtain ⟨hx, hne, z, hz, rfl⟩ := (hside y x).mp h
      exact ⟨y, x, z, .inr hp, hx, hne, hz, rfl⟩
  · rintro ⟨x, y, z, hp | hp, hx, hne, hz, rfl⟩
    · exact ⟨x, y, hp, .inl ((hside x y).mpr ⟨hx, hne, z, hz, rfl⟩)⟩
    · exact ⟨y, x, hp, .inr ((hside x y).mpr ⟨hx, hne, z, hz, rfl⟩)⟩

/-- What the pairs suggest for a buffer. -/
theorem mem_guesses_bytes {b : List U8} {r : Replacement} : r ∈ guesses pairs (.bytes b) ↔
    ∃ width off x y z, Sides pairs x y ∧ Window b width off x y ∧ z ∈ near y ∧
      r = .bytes off (leBytes z width) := by
  simp only [guesses, List.mem_flatMap, Prod.exists, mem_windows]
  constructor
  · rintro ⟨width, off, ⟨hw, hle⟩, hr⟩
    obtain ⟨x, y, z, hs, hx, hne, hz, rfl⟩ := (mem_scanWindow hw (by omega)).mp hr
    exact ⟨width, off, x, y, z, hs, ⟨hw, hle, hx, hne⟩, hz, rfl⟩
  · rintro ⟨width, off, x, y, z, hs, ⟨hw, hle, hx, hne⟩, hz, rfl⟩
    exact ⟨width, off, ⟨hw, hle⟩, (mem_scanWindow hw (by omega)).mpr ⟨x, y, z, hs, hx, hne, hz, rfl⟩⟩

/-- There are substitutions for a leaf exactly when the scan takes it for one side of a pair. -/
theorem guesses_ne_nil {w : ArgValue} : guesses pairs w ≠ [] ↔ Hits pairs w := by
  have hne : guesses pairs w ≠ [] ↔ ∃ r, r ∈ guesses pairs w :=
    ⟨List.exists_mem_of_ne_nil _, fun ⟨_, h⟩ => List.ne_nil_of_mem h⟩
  rw [hne]
  cases w with
  | imm v =>
    simp only [mem_guesses_imm]
    constructor
    · rintro ⟨_, y, z, hs, hne, -, rfl⟩
      exact ⟨y, hs, hne⟩
    · rintro ⟨y, hs, hne⟩
      exact ⟨_, y, y, hs, hne, by simp [near], rfl⟩
  | bytes b =>
    simp only [mem_guesses_bytes]
    constructor
    · rintro ⟨_, width, off, x, y, z, hs, hw, -, rfl⟩
      exact ⟨width, off, x, y, hs, hw⟩
    · rintro ⟨width, off, x, y, hs, hw⟩
      exact ⟨_, width, off, x, y, y, hs, hw, by simp [near], rfl⟩
  | _ => simp [guesses, Hits]

/-- A scalar below 2^32 is its low half. -/
theorem setWidth_low {v : U64} (h : v.toNat < 2 ^ 32) : (v.setWidth 32).setWidth 64 = v := by
  apply BitVec.eq_of_toNat_eq
  rw [BitVec.toNat_setWidth, BitVec.toNat_setWidth]
  omega

/-- A widened word is below 2^32. -/
theorem toNat_setWidth_lt (x : U32) : (x.setWidth 64).toNat < 2 ^ 32 := by
  rw [BitVec.toNat_setWidth]
  omega

/-- A value that is one side of a pair is taken for it. -/
theorem Matches.hits {w : ArgValue} (h : Matches pairs w) : Hits pairs w := by
  cases w with
  | imm v =>
    obtain ⟨x, y, rfl, hs, hne⟩ := h
    have hlow : (x.setWidth 64).setWidth 32 = x := by
      rw [BitVec.setWidth_setWidth_of_le _ (by decide), BitVec.setWidth_eq]
    exact ⟨y, hlow.symm ▸ hs, hlow.symm ▸ hne⟩
  | _ => exact h

/-- A scalar is what its low half is taken for, if that is all of it. -/
theorem Hits.matches {w : ArgValue} (h : Hits pairs w) (hw : ∀ v, w = .imm v → v.toNat < 2 ^ 32) :
    Matches pairs w := by
  cases w with
  | imm v =>
    obtain ⟨y, hs, hne⟩ := h
    exact ⟨_, y, (setWidth_low (hw v rfl)).symm, hs, hne⟩
  | _ => exact h

end

/-! ## What the scan finds in a program -/

/-- All the candidates at a site. -/
def candidatesAt (pairs : List (U32 × U32)) (p : Prog) (s : Site Bool) : List (Site Replacement) :=
  match p.slot? s.callIdx s.argIdx s.path with
  | some a => (guesses pairs a.2).map fun r => ⟨s.callIdx, s.argIdx, s.path, r⟩
  | none => []

/-- The scan comes to the site with number `k`: the sites before it and `found` others are not enough. -/
def Reached (pairs : List (U32 × U32)) (p : Prog) (l : List (Site Bool)) (found k : Nat) : Prop :=
  found + ((l.take k).flatMap (candidatesAt pairs p)).length < MAX_CANDIDATES

/-- What a scan over sites finds. -/
structure Scanned (pairs : List (U32 × U32)) (p : Prog) (l : List (Site Bool)) (found : Nat)
    (r : List (Site Replacement)) : Prop where
  cut : Cut MAX_CANDIDATES found r (l.flatMap (candidatesAt pairs p))
  reached : ∀ c ∈ r, ∃ k s, l[k]? = some s ∧ Reached pairs p l found k ∧ c ∈ candidatesAt pairs p s
  first : ∀ (k : Nat) s c rest, l[k]? = some s → Reached pairs p l found k →
    candidatesAt pairs p s = c :: rest → r[((l.take k).flatMap (candidatesAt pairs p)).length]? = some c

section
variable {pairs : List (U32 × U32)} {p : Prog}

/-- The scan of one site. -/
theorem scanSites_cons {s : Site Bool} (hs : s ∈ sites cmplogLeaf p) (rest : List (Site Bool))
    (out : List (Site Replacement)) :
    ∃ r, Cut MAX_CANDIDATES out.length r (candidatesAt pairs p s) ∧
      ∀ rng, scanSites p pairs (s :: rest) out rng =
        if (out ++ r).length ≥ MAX_CANDIDATES then some (out ++ r, rng)
        else scanSites p pairs rest (out ++ r) rng := by
  obtain ⟨ty, w, hslot, -, hk⟩ := mem_sites.mp hs
  obtain ⟨c, ty', v, hc, -, hv, hw⟩ := slot?_eq_some.mp hslot
  refine ⟨(scanLeaf s.kind w pairs out.length).map fun r => ⟨s.callIdx, s.argIdx, s.path, r⟩, ?_, ?_⟩
  · rw [candidatesAt, hslot]
    exact (cut_scanLeaf hk pairs out.length).map _
  · intro rng
    have hnav : navigate v s.path rng = some (w, rng) := by
      rw [navigate, valueAt_of_typedAt hw]
      rfl
    refine (bind_some (getArg_eq hc hv rng) _).trans ((bind_some hnav _).trans ?_)
    split <;> rfl

/-- The scan of the sites takes their candidates up to the limit. -/
theorem scanSites_spec : ∀ (l : List (Site Bool)) (out : List (Site Replacement)),
    (∀ s ∈ l, s ∈ sites cmplogLeaf p) → out.length < MAX_CANDIDATES →
    ∃ r, (∀ rng, scanSites p pairs l out rng = some (out ++ r, rng)) ∧ Scanned pairs p l out.length r
  | [], out, _, _ => by
    refine ⟨[], fun rng => by rw [List.append_nil]; rfl, .refl _ _ _, by simp, by simp⟩
  | s :: l, out, hl, hout => by
    obtain ⟨r, hcut, hscan⟩ :=
      @scanSites_cons pairs p s (hl s List.mem_cons_self) l out
    have hzero : Reached pairs p (s :: l) out.length 0 := hout
    simp only [hscan, List.length_append]
    by_cases henough : out.length + r.length ≥ MAX_CANDIDATES
    · refine ⟨r, fun rng => if_pos henough, hcut.stop henough, fun c hc => ⟨0, s, rfl, hzero, hcut.mem hc⟩, ?_⟩
      intro k s' c rest hs' hk hc
      cases k with
      | zero =>
        cases hs'
        exact hcut.head? hout hc
      | succ k =>
        have hle := hcut.initial.length_le
        simp only [Reached, List.take_succ_cons, List.flatMap_cons, List.length_append] at hk
        omega
    · have hless := henough
      have hwhole := hcut.whole (Nat.lt_of_not_ge hless)
      have hshift : ∀ k, Reached pairs p (s :: l) out.length (k + 1) ↔
          Reached pairs p l (out ++ r).length k := by
        intro k
        simp only [Reached, List.take_succ_cons, List.flatMap_cons, List.length_append, hwhole]
        omega
      obtain ⟨r', hr', hrest⟩ := scanSites_spec l (out ++ r)
        (fun s hs => hl s (List.mem_cons_of_mem _ hs)) (by rw [List.length_append]; omega)
      refine ⟨r ++ r', fun rng => by rw [if_neg hless, hr', List.append_assoc], ?_, ?_, ?_⟩
      · have hcut' := hrest.cut
        rw [List.length_append] at hcut'
        exact hcut.more (Nat.lt_of_not_ge hless) hcut'
      · intro c hc
        rcases List.mem_append.mp hc with hc | hc
        · exact ⟨0, s, rfl, hzero, hcut.mem hc⟩
        · obtain ⟨k, s', hs', hk, hc⟩ := hrest.reached c hc
          exact ⟨k + 1, s', hs', (hshift k).mpr hk, hc⟩
      · intro k s' c rest hs' hk hc
        cases k with
        | zero =>
          cases hs'
          have hhead := hcut.head? hout hc
          rw [List.take_zero, List.flatMap_nil, List.length_nil,
            List.getElem?_append_left (List.getElem?_eq_some_iff.mp hhead).1, hhead]
        | succ k =>
          rw [List.take_succ_cons, List.flatMap_cons, List.length_append, ← hwhole,
            List.getElem?_append_right (Nat.le_add_right _ _), Nat.add_sub_cancel_left]
          exact hrest.first k s' c rest hs' ((hshift k).mp hk) hc

end

/-! ## The draws -/

/-- A substitution that the scan finds is a guess, where it has seen the whole value. -/
theorem guess_of_mem_guesses {pairs : List (U32 × U32)} {w : ArgValue} {r : Replacement}
    (h : r ∈ guesses pairs w) (hw : ∀ v, w = .imm v → v.toNat < 2 ^ 32) :
    ∃ w', Guess pairs w w' ∧ ∀ rng, applyReplacement r w rng = some (w', rng) := by
  cases w with
  | imm v =>
    obtain ⟨y, z, hs, hne, hz, rfl⟩ := mem_guesses_imm.mp h
    have hg : Guess pairs (.imm ((v.setWidth 32).setWidth 64)) (.imm (z.setWidth 64)) :=
      .imm hs hne hz
    rw [setWidth_low (hw v rfl)] at hg
    exact ⟨_, hg, fun _ => rfl⟩
  | bytes b =>
    obtain ⟨width, off, x, y, z, hs, hw, hz, rfl⟩ := mem_guesses_bytes.mp h
    have hle := hw.scanned
    refine ⟨_, .bytes hs hw hz, fun rng => ?_⟩
    have hcopy : copyAt b off (leBytes z width) =
        b.take off ++ leBytes z width ++ b.drop (off + width) := by
      have hmin : min width (b.length - off) = width := by omega
      have htake : (leBytes z width).take width = leBytes z width :=
        List.take_of_length_le (by rw [length_leBytes])
      simp only [copyAt, length_leBytes, hmin, htake]
    rw [applyReplacement, if_pos (by omega), hcopy]
    rfl
  | _ => simp [guesses] at h

/-- The order that the pairs are sorted by. -/
def pairLe (p q : U32 × U32) : Prop := p.1 < q.1 ∨ p.1 = q.1 ∧ p.2 ≤ q.2

/-- The order of the pairs is antisymmetric. -/
theorem pairLe_antisymm {p q : U32 × U32} (h : pairLe p q) (h' : pairLe q p) : p = q := by
  simp only [pairLe, BitVec.lt_def, BitVec.le_def, ← BitVec.toNat_inj] at h h'
  exact Prod.ext (BitVec.eq_of_toNat_eq (by omega)) (BitVec.eq_of_toNat_eq (by omega))

/-- Removing neighbouring copies from a sorted list removes all copies. -/
theorem destutter'_sorted : ∀ {l : List (U32 × U32)} {p : U32 × U32}, (p :: l).Pairwise pairLe →
    (l.destutter' (· ≠ ·) p).Nodup ∧ ∀ q, q ∈ l.destutter' (· ≠ ·) p ↔ q ∈ p :: l
  | [], p, _ => by simp
  | q :: l, p, h => by
    obtain ⟨hp, hl⟩ := List.pairwise_cons.mp h
    by_cases hpq : p = q
    · subst hpq
      obtain ⟨hnodup, hmem⟩ := destutter'_sorted hl
      rw [List.destutter'_cons_neg _ (by simp)]
      exact ⟨hnodup, fun r => by rw [hmem]; simp⟩
    · obtain ⟨hnodup, hmem⟩ := destutter'_sorted hl
      rw [List.destutter'_cons_pos _ hpq]
      refine ⟨List.nodup_cons.mpr ⟨fun hm => ?_, hnodup⟩, fun r => by
        rw [List.mem_cons, hmem, ← List.mem_cons]⟩
      -- what comes after `p` is not below it
      rcases List.mem_cons.mp ((hmem p).mp hm) with rfl | hm
      · exact hpq rfl
      · exact hpq (pairLe_antisymm (hp q List.mem_cons_self) ((List.pairwise_cons.mp hl).1 p hm))

section
variable {pairs : List (U32 × U32)}

/-- Sorting and dropping repeats leaves each pair once. -/
theorem destutter_pairs (pairs : List (U32 × U32)) :
    ((pairs.mergeSort fun p q => p.1 < q.1 ∨ p.1 = q.1 ∧ p.2 ≤ q.2).destutter (· ≠ ·)).Nodup ∧
      ∀ q, q ∈ (pairs.mergeSort fun p q => p.1 < q.1 ∨ p.1 = q.1 ∧ p.2 ≤ q.2).destutter (· ≠ ·) ↔
        q ∈ pairs := by
  have hsorted : (pairs.mergeSort fun p q => p.1 < q.1 ∨ p.1 = q.1 ∧ p.2 ≤ q.2).Pairwise pairLe := by
    refine (List.pairwise_mergeSort ?_ ?_ pairs).imp fun h => by simpa [pairLe] using h
    · intro p q r
      simp only [decide_eq_true_eq, BitVec.lt_def, BitVec.le_def, ← BitVec.toNat_inj]
      omega
    · intro p q
      simp only [Bool.or_eq_true, decide_eq_true_eq, BitVec.lt_def, BitVec.le_def,
        ← BitVec.toNat_inj]
      omega
  have hmem : ∀ q, q ∈ pairs.mergeSort (fun p q => p.1 < q.1 ∨ p.1 = q.1 ∧ p.2 ≤ q.2) ↔ q ∈ pairs :=
    fun q => List.mem_mergeSort
  revert hsorted hmem
  generalize pairs.mergeSort (fun p q => p.1 < q.1 ∨ p.1 = q.1 ∧ p.2 ≤ q.2) = l
  intro hsorted hmem
  cases l with
  | nil => exact ⟨List.nodup_nil, hmem⟩
  | cons p l =>
    obtain ⟨hnodup, hm⟩ := destutter'_sorted hsorted
    exact ⟨hnodup, fun q => (hm q).trans (hmem q)⟩

/-- The pairs that are scanned are among the pairs. -/
theorem mem_of_mem_uniquePairs {q : U32 × U32} (h : q ∈ uniquePairs pairs) : q ∈ pairs :=
  ((destutter_pairs pairs).2 q).mp ((List.take_sublist _ _).subset h)

/-- At most 128 distinct pairs are all scanned. -/
theorem mem_uniquePairs (h : pairs.dedup.length ≤ MAX_UNIQUE_PAIRS) {q : U32 × U32} :
    q ∈ uniquePairs pairs ↔ q ∈ pairs := by
  obtain ⟨hnodup, hmem⟩ := destutter_pairs pairs
  have hlen := (hnodup.subperm fun q hq => List.mem_dedup.mpr ((hmem q).mp hq)).length_le
  rw [uniquePairs, List.take_of_length_le (hlen.trans h)]
  exact hmem q

end

section
variable {pairs pairs' : List (U32 × U32)} (hsub : ∀ q ∈ pairs, q ∈ pairs')
include hsub

/-- More pairs have more sides. -/
theorem Sides.mono {x y : U32} (h : Sides pairs x y) : Sides pairs' x y :=
  h.imp (hsub _) (hsub _)

/-- More pairs match more values. -/
theorem Matches.mono {w : ArgValue} (h : Matches pairs w) : Matches pairs' w := by
  cases w with
  | imm v =>
    obtain ⟨x, y, hv, hs, hne⟩ := h
    exact ⟨x, y, hv, hs.mono hsub, hne⟩
  | bytes b =>
    obtain ⟨width, off, x, y, hs, hw⟩ := h
    exact ⟨width, off, x, y, hs.mono hsub, hw⟩
  | _ => exact h

/-- More pairs suggest more. -/
theorem Guess.mono {w w' : ArgValue} (h : Guess pairs w w') : Guess pairs' w w' := by
  cases h with
  | imm hs hne hz => exact .imm (hs.mono hsub) hne hz
  | bytes hs hw hz => exact .bytes (hs.mono hsub) hw hz

end

/-- A guess keeps the skeleton of a slot of data. -/
theorem Guess.skeleton {pairs : List (U32 × U32)} {ty : ArgType} {w w' : ArgValue}
    (h : Guess pairs w w') (hd : IsDatum ty w) : skeleton ty w' = skeleton ty w := by
  cases h with
  | imm hs hne hz =>
    have hty : ty.isData = true := by
      cases ty with
      | res _ => exact hd.1.elim
      | ptr _ _ _ => exact absurd rfl (hd.2 _ _ _ _)
      | _ => rfl
    rw [skeleton_imm hty, skeleton_imm hty]
  | @bytes b width off x y z hs hw hz =>
    have hty : IsLeaf ty (.bytes []) := by
      cases ty <;> first | exact trivial | exact hd.1.elim
    have hle := hw.scanned
    have hlen : (b.take off ++ leBytes z width ++ b.drop (off + width)).length = b.length := by
      simp only [List.length_append, List.length_take, List.length_drop, length_leBytes]
      omega
    rw [skeleton_bytes hty, skeleton_bytes hty, hlen]

/-- A substitution changes values only. -/
theorem OneGuess.skeleton {pairs : List (U32 × U32)} {p q : Prog} (h : OneGuess pairs p q) :
    q.skeleton = p.skeleton := by
  obtain ⟨i, j, path, ty, w, w', hslot, hd, hg, rfl⟩ := h
  exact skeleton_put hslot (hg.skeleton hd)

/-! ## The mutation -/

/-- What is said of the mutation from a state: it changes one slot of data by a guess, so the skeleton
and every pointer stay, and where all the pairs are scanned it gives up only if no slot of data
matches. -/
def ExactSubstitution (pairs : List (U32 × U32)) (p : Prog) (rng : U32) : Prop :=
  ∃ o rng', mutateCmplog p pairs rng = some (o, rng') ∧
    (∀ q ∈ o, OneGuess pairs p q ∧ q.skeleton = p.skeleton ∧
      ∀ base cap, SameLayout p (p.lowerWithCap base cap) (q.lowerWithCap base cap)) ∧
    (pairs.dedup.length ≤ MAX_UNIQUE_PAIRS → (o = none ↔ ∀ i j path ty w,
      p.slot? i j path = some (ty, w) → IsDatum ty w → ¬ Matches pairs w))

/-- A scalar that the scan reaches and takes for one side of a pair is that side, in all its bits, and no
NULL pointer. -/
def SoundHits (pairs : List (U32 × U32)) (p : Prog) : Prop :=
  ∀ (k : Nat) s ty v, (sites cmplogLeaf p)[k]? = some s →
    p.slot? s.callIdx s.argIdx s.path = some (ty, .imm v) →
    Reached (uniquePairs pairs) p (sites cmplogLeaf p) 0 k → Hits (uniquePairs pairs) (.imm v) →
    (∀ dir inner nullable, ty ≠ .ptr dir inner nullable) ∧ v.toNat < 2 ^ 32

section
variable {pairs : List (U32 × U32)} {p : Prog}

/-- The mutation draws one of the candidates that the scan finds. -/
theorem mutateCmplog_eq (hne : pairs ≠ []) : ∃ r,
    Scanned (uniquePairs pairs) p (sites cmplogLeaf p) 0 r ∧ ∀ rng, mutateCmplog p pairs rng =
      if r.isEmpty then some (none, rng)
      else (below r.length >>= fun idx => index r idx >>= fun c =>
        changeAt p c (applyReplacement c.kind) >>= fun q => (pure (some q) : Rand (Option Prog))) rng := by
  obtain ⟨r, hr, hscan⟩ := scanSites_spec (p := p)
    (sites cmplogLeaf p) [] (fun _ hs => hs) (by decide)
  refine ⟨r, hscan, fun rng => ?_⟩
  rw [mutateCmplog, if_neg (by simpa using hne)]
  refine (bind_some (hr rng) _).trans ?_
  rw [List.nil_append]
  split <;> rfl

/-- A candidate, once drawn, is put into its slot. -/
theorem changeAt_candidate {s : Site Bool} {c : Site Replacement} {ty : ArgType} {w : ArgValue}
    (hslot : p.slot? s.callIdx s.argIdx s.path = some (ty, w))
    (h : c ∈ candidatesAt (uniquePairs pairs) p s) (hw : ∀ v, w = .imm v → v.toNat < 2 ^ 32) :
    ∃ w', Guess pairs w w' ∧ ∀ rng, changeAt p c (applyReplacement c.kind) rng =
      some (p.put s.callIdx s.argIdx s.path w', rng) := by
  rw [candidatesAt, hslot] at h
  obtain ⟨r, hr, rfl⟩ := List.mem_map.mp h
  obtain ⟨w', hg, happ⟩ := guess_of_mem_guesses hr hw
  refine ⟨w', hg.mono fun _ => mem_of_mem_uniquePairs, fun rng => ?_⟩
  refine (changeAt_eq (s := ⟨s.callIdx, s.argIdx, s.path, r⟩) hslot rng).trans ?_
  rw [happ]
  rfl

/-- Where the scan is not deceived, what it finds is in slots of data that match. -/
theorem Scanned.datum (hsound : SoundHits pairs p) {r : List (Site Replacement)}
    (hscan : Scanned (uniquePairs pairs) p (sites cmplogLeaf p) 0 r) {c : Site Replacement}
    (hc : c ∈ r) : ∃ s : Site Bool, c ∈ candidatesAt (uniquePairs pairs) p s ∧ ∃ ty w,
      p.slot? s.callIdx s.argIdx s.path = some (ty, w) ∧ IsDatum ty w ∧
        (∀ v, w = .imm v → v.toNat < 2 ^ 32) ∧ Matches pairs w := by
  obtain ⟨k, s, hs, hk, hcand⟩ := hscan.reached c hc
  obtain ⟨ty, w, hslot, hleaf, -⟩ := mem_sites.mp (List.mem_of_getElem? hs)
  have hhit : Hits (uniquePairs pairs) w := by
    rw [candidatesAt, hslot] at hcand
    obtain ⟨r, hr, -⟩ := List.mem_map.mp hcand
    exact guesses_ne_nil.mp (List.ne_nil_of_mem hr)
  have hlow : ∀ v, w = .imm v → v.toNat < 2 ^ 32 := by
    rintro v rfl
    exact (hsound k s ty v hs hslot hk hhit).2
  refine ⟨s, hcand, ty, w, hslot, ⟨hleaf, ?_⟩, hlow,
    (hhit.matches hlow).mono fun _ => mem_of_mem_uniquePairs⟩
  rintro dir inner nullable v heq
  cases heq
  exact (hsound k s _ v hs hslot hk hhit).1 dir inner nullable rfl

/-- A slot of data that matches has a candidate. -/
theorem candidatesAt_ne_nil {s : Site Bool} {ty : ArgType} {w : ArgValue}
    (hslot : p.slot? s.callIdx s.argIdx s.path = some (ty, w)) (h : Matches pairs w) :
    candidatesAt pairs p s ≠ [] := by
  rw [candidatesAt, hslot]
  simpa using guesses_ne_nil.mpr h.hits

/-- The scan finds nothing where no slot of data matches. -/
theorem scanned_nil_iff (hsound : SoundHits pairs p) {r : List (Site Replacement)}
    (hscan : Scanned (uniquePairs pairs) p (sites cmplogLeaf p) 0 r)
    (hfew : pairs.dedup.length ≤ MAX_UNIQUE_PAIRS) :
    r = [] ↔ ∀ i j path ty w, p.slot? i j path = some (ty, w) → IsDatum ty w → ¬ Matches pairs w := by
  constructor
  · intro hr i j path ty w hslot hd hm
    rw [hscan.cut.eq_nil_iff (by decide), List.flatMap_eq_nil_iff] at hr
    have hm' : Matches (uniquePairs pairs) w := hm.mono fun _ => (mem_uniquePairs hfew).mpr
    obtain ⟨isBytes, hleaf⟩ : ∃ isBytes, cmplogLeaf ty w = some isBytes := by
      cases w with
      | imm v => exact ⟨false, rfl⟩
      | bytes b => exact ⟨true, rfl⟩
      | _ => exact hm.elim
    have hs : (⟨i, j, path, isBytes⟩ : Site Bool) ∈ sites cmplogLeaf p :=
      mem_sites.mpr ⟨ty, w, hslot, hd.1, hleaf⟩
    exact candidatesAt_ne_nil hslot hm' (hr _ hs)
  · intro h
    refine List.eq_nil_iff_forall_not_mem.mpr fun c hc => ?_
    obtain ⟨s, -, ty, w, hslot, hd, -, hm⟩ := hscan.datum hsound hc
    exact h _ _ _ ty w hslot hd hm

/-- Sound hits make every substitution exact. -/
theorem exact_of_sound (hsound : SoundHits pairs p) (rng : U32) :
    ExactSubstitution pairs p rng := by
  by_cases hne : pairs = []
  · subst hne
    refine ⟨none, rng, rfl, by simp, fun _ => ⟨fun _ i j path ty w _ _ hm => ?_, fun _ => rfl⟩⟩
    cases w with
    | imm v =>
      obtain ⟨x, y, -, hs, -⟩ := hm
      simp [Sides] at hs
    | bytes b =>
      obtain ⟨width, off, x, y, hs, -⟩ := hm
      simp [Sides] at hs
    | _ => exact hm
  obtain ⟨r, hscan, heq⟩ := mutateCmplog_eq (p := p) hne
  by_cases hr : r = []
  · refine ⟨none, rng, by rw [heq, hr]; rfl, by simp, fun hfew => ?_⟩
    exact ⟨fun _ => (scanned_nil_iff hsound hscan hfew).mp hr, fun _ => rfl⟩
  · have hpos : 0 < r.length := List.length_pos_iff.mpr hr
    obtain ⟨idx, rng', hidx, hlt⟩ := ensures_below r.length rng
    have hget := List.getElem?_eq_getElem (hlt hpos)
    obtain ⟨s, hcand, ty, w, hslot, hd, hlow, -⟩ := hscan.datum hsound (List.mem_of_getElem? hget)
    obtain ⟨w', hg, hchange⟩ := changeAt_candidate hslot hcand hlow
    have hone : OneGuess pairs p (p.put s.callIdx s.argIdx s.path w') :=
      ⟨_, _, _, ty, w, w', hslot, hd, hg, rfl⟩
    refine ⟨some (p.put s.callIdx s.argIdx s.path w'), rng', ?_, ?_, fun hfew => ?_⟩
    · rw [heq, if_neg (by simpa using hr)]
      refine (bind_some hidx _).trans ((bind_some (index_some hget rng') _).trans ?_)
      exact (bind_some (hchange rng') _).trans rfl
    · rintro q hq
      cases hq
      exact ⟨hone, hone.skeleton, sameLayout_of_skeleton hone.skeleton⟩
    · exact ⟨(nomatch ·), fun h => absurd ((scanned_nil_iff hsound hscan hfew).mpr h) hr⟩

/-- From some state, a scalar that is reached and hit gets another value. -/
theorem exists_replaced {k : Nat} {s : Site Bool} {ty : ArgType} {v : U64}
    (hs : (sites cmplogLeaf p)[k]? = some s)
    (hslot : p.slot? s.callIdx s.argIdx s.path = some (ty, .imm v))
    (hk : Reached (uniquePairs pairs) p (sites cmplogLeaf p) 0 k)
    (hm : Hits (uniquePairs pairs) (.imm v)) : ∃ rng rng' y, y ≠ v.setWidth 32 ∧
      mutateCmplog p pairs rng =
        some (some (p.put s.callIdx s.argIdx s.path (.imm (y.setWidth 64))), rng') := by
  have hne : pairs ≠ [] := by
    rintro rfl
    obtain ⟨y, hs, -⟩ := hm
    simp [Sides, uniquePairs] at hs
  obtain ⟨r, hscan, heq⟩ := mutateCmplog_eq (p := p) hne
  obtain ⟨y, rest, hguess, hy⟩ := head_guesses_imm hm
  have hcand : candidatesAt (uniquePairs pairs) p s =
      ⟨s.callIdx, s.argIdx, s.path, .imm y⟩ ::
        rest.map fun r => ⟨s.callIdx, s.argIdx, s.path, r⟩ := by
    rw [candidatesAt, hslot]
    change (guesses (uniquePairs pairs) (.imm v)).map _ = _
    rw [hguess]
    rfl
  have hget := hscan.first k s _ _ hs hk hcand
  have hlt := (List.getElem?_eq_some_iff.mp hget).1
  obtain ⟨x, rng', hidx⟩ := exists_below hlt (by simp only [Reached, MAX_CANDIDATES] at hk; omega)
  have hput : changeAt p (⟨s.callIdx, s.argIdx, s.path, .imm y⟩ : Site Replacement)
      (applyReplacement (.imm y)) rng' =
      some (p.put s.callIdx s.argIdx s.path (.imm (y.setWidth 64)), rng') :=
    changeAt_eq (s := (⟨s.callIdx, s.argIdx, s.path, .imm y⟩ : Site Replacement)) hslot rng'
  refine ⟨x, rng', y, hy, ?_⟩
  rw [heq, if_neg (by rw [List.isEmpty_iff]; exact List.ne_nil_of_mem (List.mem_of_getElem? hget))]
  refine (bind_some hidx _).trans ((bind_some (index_some hget rng') _).trans ?_)
  exact (bind_some hput _).trans rfl

/-- Exact substitutions have sound hits. -/
theorem sound_of_exact (h : ∀ rng, ExactSubstitution pairs p rng) : SoundHits pairs p := by
  intro k s ty v hs hslot hk hm
  obtain ⟨x, rng', y, hy, hrun⟩ := exists_replaced hs hslot hk hm
  obtain ⟨o, rng'', hrun', hq, -⟩ := h x
  rw [hrun] at hrun'
  cases hrun'
  obtain ⟨hone, hskel, -⟩ := hq _ rfl
  constructor
  · -- the skeleton keeps what NULL pointers hold
    rintro dir inner nullable rfl
    have hsk := slot?_skeleton (@slot?_put _ _ _ _ _ _ (.imm (y.setWidth 64)) hslot)
    rw [hskel, slot?_skeleton hslot] at hsk
    cases hsk
    simp at hy
  · -- the guess is in this slot or leaves it as it is
    obtain ⟨i, j, path, ty', w, w', hslot', hd, hg, heq⟩ := hone
    obtain ⟨_, _, hat, hleaf, -⟩ := mem_sites.mp (List.mem_of_getElem? hs)
    rw [hslot] at hat
    cases hat
    by_cases hsame : s.callIdx = i ∧ s.argIdx = j ∧ s.path = path
    · obtain ⟨hi, hj, hpath⟩ := hsame
      rw [hi, hj, hpath, hslot'] at hslot
      cases hslot
      cases hg
      exact toNat_setWidth_lt _
    · have hold := @slot?_put_ne _ _ _ _ _ _ _ _ _ _ _ w' hslot' hd.1 hslot hleaf hsame
      rw [← heq, slot?_put hslot] at hold
      cases hold
      exact toNat_setWidth_lt _

end

/-- The substitution is exact from every state exactly when every scalar that the scan reaches, and takes
for one side of a pair by its low half, is that side and no NULL pointer. -/
theorem substitution_exact_iff (pairs : List (U32 × U32)) (p : Prog) :
    (∀ rng, ExactSubstitution pairs p rng) ↔ SoundHits pairs p :=
  ⟨sound_of_exact, exact_of_sound⟩

/-- An `ioctl` without a buffer. -/
def nullProg : Prog where
  calls := [⟨SYSCALLS.get ⟨5, by decide⟩, [.res (.seed 0), .imm 0x541B, .imm 0]⟩]

/-- One pair is unique. -/
theorem uniquePairs_one (q : U32 × U32) : uniquePairs [q] = [q] := by
  simp [uniquePairs, MAX_UNIQUE_PAIRS]

/-- The missing buffer gets an address. -/
theorem mutate_nullProg : ∃ q rng', mutateCmplog nullProg [(0, 0x1234)] 1 = some (some q, rng') ∧
    q.slot? 0 2 [] = some (.ptr .inOut (.buffer (.fixed 64)) true, .imm 0x1234) := by
  refine ⟨⟨[⟨SYSCALLS.get ⟨5, by decide⟩, [.res (.seed 0), .imm 0x541B, .imm 0x1234]⟩]⟩, 270369, ?_, rfl⟩
  unfold mutateCmplog
  rw [uniquePairs_one]
  rfl

/-- A `splice` with two 64-bit offsets in memory. -/
def wideProg : Prog where
  calls := [⟨SYSCALLS.get ⟨93, by decide⟩,
    [.res (.seed 0), .ptr (.imm (-1)), .res (.seed 0), .ptr (.imm 5), .imm 1, .imm 0]⟩]

/-- Of the first offset the scan sees the low half only. -/
theorem not_soundHits_wideProg : ¬ SoundHits [(0xFFFFFFFF, 7)] wideProg := by
  intro h
  have hhit : Hits (uniquePairs [(0xFFFFFFFF, 7)]) (.imm (-1)) := by
    rw [uniquePairs_one]
    exact ⟨7, .inl (by decide), by decide⟩
  have hreached : Reached (uniquePairs [(0xFFFFFFFF, 7)]) wideProg (sites cmplogLeaf wideProg) 0 0 :=
    show 0 < MAX_CANDIDATES by decide
  have hlow := (h 0 ⟨0, 1, [.ptrInner], false⟩ (.int 64 true) (-1) rfl rfl hreached hhit).2
  exact absurd hlow (by decide)

/-- After a comparison with 0, the mutation of a well-formed program makes a pointer of a NULL one; and
after one with 0xFFFFFFFF it overwrites 64 bits of ones. -/
theorem substitution_replaces_null :
    (nullProg.isWellFormed = true ∧ ¬ ExactSubstitution [(0, 0x1234)] nullProg 1) ∧
      wideProg.isWellFormed = true ∧ ¬ ∀ rng, ExactSubstitution [(0xFFFFFFFF, 7)] wideProg rng := by
  refine ⟨⟨by decide +kernel, ?_⟩, by decide +kernel, fun h => not_soundHits_wideProg (sound_of_exact h)⟩
  rintro ⟨o, rng', hrun, hq, -⟩
  obtain ⟨q, rng'', hrun', hslot⟩ := mutate_nullProg
  rw [hrun'] at hrun
  cases hrun
  have hold : nullProg.skeleton.slot? 0 2 [] =
      some (.ptr .inOut (.buffer (.fixed 64)) true, .imm 0) := rfl
  have hnew := slot?_skeleton hslot
  rw [(hq q rfl).2.1, hold] at hnew
  cases hnew

end FuzzSoft
