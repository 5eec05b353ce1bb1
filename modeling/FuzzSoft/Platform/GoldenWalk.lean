import FuzzSoft.Mmu.Lockstep
import FuzzSoft.Platform.PageTables

/-!
# The read-only walk over the golden image

`xlateGoldenReadonly` reads page-table words from the golden image, where `xlate` reads them from a
lane's view of it. `GoldenWalkSound` says what the former promises of the latter. It does when every
aligned word of the window lies in one page, because then the overlay test of the word's address
covers the word, and only then (`goldenWalk_sound_iff`).
-/

namespace FuzzSoft

open Lib

/-- The two harts translate alike. -/
structure SamePrivilege (h h' : Hart) : Prop where
  privilege : h'.privilege = h.privilege
  mstatus : h'.csr.mstatus = h.csr.mstatus
  satp : h'.csr.satp = h.csr.satp

namespace SamePrivilege

variable {h h' : Hart}

/-- The privilege of an access is the same. -/
theorem effectivePriv (hs : SamePrivilege h h') (access : Access) :
    h'.effectivePriv access = h.effectivePriv access := by
  simp only [Hart.effectivePriv, hs.privilege, hs.mstatus]

/-- So is whether it is translated. -/
theorem untranslated (hs : SamePrivilege h h') (access : Access) :
    h'.untranslated access = h.untranslated access := by
  simp only [Hart.untranslated, hs.effectivePriv, hs.satp]

/-- So is what a leaf allows. -/
theorem leafOk (hs : SamePrivilege h h') (access : Access) (leaf : LeafBits) :
    h'.leafOk access leaf = h.leafOk access leaf := by
  simp only [Hart.leafOk, hs.effectivePriv, Hart.sum, Hart.mxr, hs.mstatus]

end SamePrivilege

/-- The test reports the pages of the window that the view has overlaid. -/
def ReportsOverlay (c : CowRam) (pageOverlaid : U32 → Bool) : Prop :=
  ∀ addr off, c.offset addr = some off → c.isOverlaid (off / PAGE_SIZE) = true →
    pageOverlaid addr = true

/-- What the read-only walk over `g` promises of every view of it, every hart with a coherent TLB
(an empty one is coherent) and every access: an address it returns is the one `xlate` returns, which
changes nothing then; and it declines when `xlate` faults or has A or D to set. -/
structure GoldenWalkSound (g : Golden) : Prop where
  ok : ∀ {s : Sys CowRam} {h : Hart} {va pa : U32} {access : Access} {ov : U32 → Bool},
    s.bus.Inv → s.bus.golden = g → ReportsOverlay s.bus ov → SamePrivilege h s.hart → Coherent s →
    xlateGoldenReadonly h g va access ov = some pa →
    (xlate va access s).1 = .ok pa ∧ (xlate va access s).2.bus = s.bus
  fault : ∀ {s : Sys CowRam} {h : Hart} {va : U32} {access : Access} {ov : U32 → Bool},
    s.bus.Inv → s.bus.golden = g → ReportsOverlay s.bus ov → SamePrivilege h s.hart → Coherent s →
    ∀ {e}, (xlate va access s).1 = .error e → xlateGoldenReadonly h g va access ov = none
  setsAd : ∀ {s : Sys CowRam} {h : Hart} {va : U32} {access : Access} {ov : U32 → Bool},
    s.bus.Inv → s.bus.golden = g → ReportsOverlay s.bus ov → SamePrivilege h s.hart → Coherent s →
    ∀ {l}, s.hart.untranslated access = false → usableLeaf s.hart s.bus va access = some l →
    needsAd access l.pte = true → xlateGoldenReadonly h g va access ov = none

/-- Every aligned word inside the window lies in one of its pages. -/
def WordsInPages (base : U32) (size : Nat) : Prop :=
  ∀ (w : U32) (off : Nat), w.toNat % 4 = 0 → windowOffset base size w = some off →
    off + 4 ≤ size → off % PAGE_SIZE + 4 ≤ PAGE_SIZE

/-- A window whose base is a multiple of four cuts no word. -/
theorem wordsInPages_of_aligned {base : U32} {size : Nat} (h : base.toNat % 4 = 0) :
    WordsInPages base size := by
  intro w off hw ho _
  obtain ⟨hb, -⟩ := windowOffset_eq_some.1 ho
  simp only [PAGE_SIZE]
  omega

/-! ## Soundness -/

/-- A walk that more words can be read by ends at the same leaf. -/
theorem walkWith_mono {rd rd' : U32 → Option U32} {satp va : U32} {l : Leaf}
    (h : ∀ a v, rd a = some v → rd' a = some v) (hl : walkWith rd satp va = some l) :
    walkWith rd' satp va = some l := by
  unfold walkWith at hl ⊢
  simp only [Option.bind_eq_bind, Option.bind_eq_some_iff] at hl ⊢
  obtain ⟨pte1, h1, hl⟩ := hl
  refine ⟨pte1, h _ _ h1, ?_⟩
  split at hl
  · cases hl
  next hv =>
    rw [if_neg hv]
    split at hl
    next hf =>
      rw [if_pos hf]
      exact hl
    next hf =>
      rw [if_neg hf]
      simp only [Option.bind_eq_some_iff] at hl ⊢
      obtain ⟨pte0, h0, hl⟩ := hl
      exact ⟨pte0, h _ _ h0, hl⟩

/-- A word of the golden image that may be read. -/
theorem Golden.readU32_eq_some {g : Golden} {w v : U32} (h : g.readU32 w = some v) :
    ∃ off, w.toNat % 4 = 0 ∧ g.offset w = some off ∧ off + 4 ≤ g.size ∧
      (∀ i < 4, g.perms (off + i) &&& PERM_READ ≠ 0) ∧ leValue (readSpan g.mem off 4) = v := by
  unfold readU32 readSpanOf spanHas at h
  split at h
  next ha =>
    cases ho : g.offset w with
    | none =>
      rw [ho] at h
      cases h
    | some off =>
      rw [ho] at h
      dsimp only at h
      split at h
      next hc =>
        refine ⟨off, ha, rfl, hc.1, fun i hi => ?_, by simpa using h⟩
        simpa using allSpan_eq_true.1 hc.2 i hi
      next => cases h
  next => cases h

/-- A page without an overlay shows the golden bytes. -/
theorem CowRam.golden_page {c : CowRam} {off : Nat} (hs : off < c.golden.size)
    (h : c.isOverlaid (off / PAGE_SIZE) = false) :
    c.memAt off = c.golden.mem off ∧ c.permOf off = c.golden.perms off := by
  have hpn : off / PAGE_SIZE < c.golden.numPages := by
    simp only [Golden.numPages, PAGE_SIZE]
    omega
  have hdir : c.dir (off / PAGE_SIZE) = SENTINEL := by
    by_contra hne
    simp [isOverlaid, hpn, hne] at h
  unfold memAt permOf
  rw [resolve_golden hdir]
  simp only [pageOffset_eq, and_self]

/-- A golden word whose page the view has not overlaid is the word of the view. -/
theorem loadPte_of_golden {c : CowRam} (hinv : c.Inv) {ov : U32 → Bool}
    (hov : ReportsOverlay c ov) (hw : WordsInPages c.golden.base c.golden.size) {a v : U32}
    (h : (if ov a then none else c.golden.readU32 a) = some v) : loadPte c a = some v := by
  split at h
  · cases h
  next hno =>
    obtain ⟨off, ha, ho, hs, hp, hv⟩ := Golden.readU32_eq_some h
    obtain ⟨hbase, -⟩ := windowOffset_eq_some.1 ho
    have hpage := hw a off ha ho hs
    have hnot : c.isOverlaid (off / PAGE_SIZE) = false := by
      by_contra hc
      exact hno (hov a off ho (by simpa using hc))
    have hview : ∀ i < 4, c.memAt (off + i) = c.golden.mem (off + i) ∧
        c.permOf (off + i) = c.golden.perms (off + i) := by
      intro i hi
      have hpn : (off + i) / PAGE_SIZE = off / PAGE_SIZE := by
        simp only [PAGE_SIZE] at hpage ⊢
        omega
      exact CowRam.golden_page (by omega) (by rw [hpn]; exact hnot)
    rw [hinv.agree_flat.loadPte, loadPte_eq_some]
    refine (Mmu.loadWord_iff ha).2 ⟨off, hbase, hs, fun i hi => ?_, ?_⟩
    · show c.permOf (off + i) &&& PERM_READ ≠ 0
      rw [(hview i hi).2]
      exact hp i hi
    · rw [← hv]
      exact congrArg leValue (readSpan_congr fun i hi => (hview i hi).1)

/-- Where the read-only walk succeeds, the translation without a TLB gives its address and changes
nothing. -/
theorem xlateNoTlb_of_golden {c : CowRam} (hinv : c.Inv)
    (hw : WordsInPages c.golden.base c.golden.size) {ov : U32 → Bool} (hov : ReportsOverlay c ov)
    {h h' : Hart} (hs : SamePrivilege h h') {va pa : U32} {access : Access}
    (hx : xlateGoldenReadonly h c.golden va access ov = some pa) :
    xlateNoTlb va access h' c = (.ok pa, c) ∧
      (h'.untranslated access = false →
        ∃ l, usableLeaf h' c va access = some l ∧ needsAd access l.pte = false) := by
  unfold xlateGoldenReadonly at hx
  unfold xlateNoTlb
  rw [hs.untranslated]
  split at hx
  next ht =>
    cases hx
    rw [if_pos ht]
    exact ⟨rfl, fun hn => absurd (ht.symm.trans hn) (by decide)⟩
  next ht =>
    rw [if_neg ht]
    cases hl : walkWith (fun a => if ov a then none else c.golden.readU32 a) h.csr.satp va with
    | none =>
      rw [hl] at hx
      cases hx
    | some l =>
      rw [hl] at hx
      dsimp only at hx
      split at hx
      · cases hx
      next hok =>
      split at hx
      · cases hx
      next hm =>
      split at hx
      · cases hx
      next hn =>
        cases hx
        have hwalk : walk c h'.csr.satp va = some l := by
          rw [hs.satp]
          exact walkWith_mono (fun a v => loadPte_of_golden hinv hov hw) hl
        have hu : usableLeaf h' c va access = some l := by
          refine usableLeaf_eq_some.2 ⟨hwalk, ?_, by simpa using hm⟩
          rw [hs.leafOk]
          simpa using hok
        have hn' : needsAd access l.pte = false := by simpa using hn
        have had : updateAd c access l = (.ok (), c) := by
          rw [updateAd, hn']
          rfl
        refine ⟨?_, fun _ => ⟨l, hu, hn'⟩⟩
        rw [hu]
        dsimp only
        rw [had]

/-- In a window whose words lie in pages, the read-only walk keeps its promise. -/
theorem goldenWalk_sound {g : Golden} (hw : WordsInPages g.base g.size) : GoldenWalkSound g where
  ok := by
    rintro s h va pa access ov hinv rfl hov hs hc hx
    have hspec := CowRam.pteLaws.xlate hinv hc va access
    obtain ⟨hno, -⟩ := xlateNoTlb_of_golden hinv hw hov hs hx
    exact ⟨hspec.out.trans (by rw [hno]), hspec.bus.trans (by rw [hno])⟩
  fault := by
    rintro s h va access ov hinv rfl hov hs hc e he
    cases hx : xlateGoldenReadonly h s.bus.golden va access ov with
    | none => rfl
    | some pa =>
      have hspec := CowRam.pteLaws.xlate hinv hc va access
      obtain ⟨hno, -⟩ := xlateNoTlb_of_golden hinv hw hov hs hx
      rw [hspec.out, hno] at he
      cases he
  setsAd := by
    rintro s h va access ov hinv rfl hov hs hc l ht hu hn
    cases hx : xlateGoldenReadonly h s.bus.golden va access ov with
    | none => rfl
    | some pa =>
      obtain ⟨-, hl⟩ := xlateNoTlb_of_golden hinv hw hov hs hx
      obtain ⟨l', hu', hn'⟩ := hl ht
      rw [hu] at hu'
      cases hu'
      rw [hn] at hn'
      cases hn'

/-! ## A word cut by a page boundary -/

/-- An image with one page-table entry: a superpage leaf at offset `off`. -/
def cutImage (base : U32) (size off : Nat) : Mmu :=
  { Mmu.new base size with
    mem := fun o => if o = off then 0xcf else 0
    perms := fun _ => PERM_READ ||| PERM_WRITE }

/-- A view of the image in which the last byte of the entry has changed. -/
def cutView (base : U32) (size off : Nat) : CowRam :=
  (CowRam.new (Golden.fromMmu (cutImage base size off))).putByte (off + 3) 0x10

/-- The `satp` whose root table holds the word `w`. -/
def cutSatp (w : U32) : U32 := 0x80000000 ||| (w >>> 12)

/-- An address whose root entry is the word `w`. -/
def cutVa (w : U32) : U32 := ((w >>> 2) &&& 0x3ff) <<< 22

/-- A supervisor hart with an empty TLB that translates through the table of `w`. -/
def cutCpu (w : U32) : Cpu :=
  { Cpu.new 0 with privilege := .s, csr := { Csr.default with satp := cutSatp w } }

/-- The walk of the case reads the entry it is about. -/
theorem pteAddr1_cut {w : U32} (hw : w.toNat % 4 = 0) :
    pteAddr1 (rootTable (cutSatp w)) (cutVa w) = w := by
  have hroot : (cutSatp w &&& 0x3fffff).toNat = w.toNat / 4096 := by
    have hand : (cutSatp w &&& 0x3fffff).toNat = (0x80000000 ||| w.toNat / 4096) % 2 ^ 22 := by
      rw [BitVec.toNat_and, cutSatp, BitVec.toNat_or, BitVec.toNat_ushiftRight,
        Nat.shiftRight_eq_div_pow]
      exact Nat.and_two_pow_sub_one_eq_mod _ 22
    have hlt : w.toNat / 4096 < 2 ^ 22 := by
      have := w.isLt
      omega
    rw [hand, Nat.or_mod_two_pow, Nat.mod_eq_of_lt hlt]
    exact Nat.zero_or _
  have hidx : ((cutVa w >>> 22) &&& 0x3ff).toNat = w.toNat / 4 % 1024 := by
    have hand : ((w >>> 2) &&& 0x3ff).toNat = w.toNat / 4 % 1024 := by
      rw [BitVec.toNat_and, BitVec.toNat_ushiftRight, Nat.shiftRight_eq_div_pow]
      exact Nat.and_two_pow_sub_one_eq_mod _ 10
    rw [BitVec.toNat_and, BitVec.toNat_ushiftRight, cutVa, BitVec.toNat_shiftLeft, hand,
      Nat.shiftRight_eq_div_pow, Nat.shiftLeft_eq]
    refine (Nat.and_two_pow_sub_one_eq_mod _ 10).trans ?_
    omega
  apply BitVec.eq_of_toNat_eq
  rw [pteAddr1, rootTable, BitVec.toNat_add, BitVec.toNat_shiftLeft, BitVec.toNat_mul, hroot, hidx,
    Nat.shiftLeft_eq, show (4 : U32).toNat = 4 from rfl]
  have := w.isLt
  omega

/-- The walk for `w` ends at its root entry when that is a leaf. -/
theorem walkWith_cut {rd : U32 → Option U32} {w q : U32} (hw : w.toNat % 4 = 0)
    (hr : rd w = some q) (hi : pteInvalid q = false) (hl : pteLeaf q = true) :
    walkWith rd (cutSatp w) (cutVa w) = some ⟨w, q, true⟩ := by
  unfold walkWith
  rw [pteAddr1_cut hw]
  simp [hr, hi, hl]

/-- Its accesses are made in S-mode. -/
theorem effectivePriv_cut (w : U32) : (cutCpu w).toHart.effectivePriv .read = .s := by
  have hmst : (cutCpu w).toHart.csr.mstatus = 0 := rfl
  simp only [Hart.effectivePriv, hmst]
  rfl

/-- They are translated. -/
theorem untranslated_cut (w : U32) : (cutCpu w).toHart.untranslated .read = false := by
  have hsatp : (cutSatp w >>> 31).toNat ≠ 0 := by
    have hle : 0x80000000 ≤ (cutSatp w).toNat := by
      rw [cutSatp, BitVec.toNat_or]
      exact Nat.left_le_or
    rw [BitVec.toNat_ushiftRight, Nat.shiftRight_eq_div_pow]
    omega
  have hne : ¬cutSatp w >>> 31 = 0#32 := fun h => hsatp (congrArg BitVec.toNat h)
  have hcsr : (cutCpu w).toHart.csr.satp = cutSatp w := rfl
  simp [Hart.untranslated, effectivePriv_cut, hcsr, hne]

/-- What a leaf allows them. -/
theorem leafOk_cut (w q : U32) :
    (cutCpu w).toHart.leafOk .read (leafBits q) = leafPermPrivOk .read .s false false (leafBits q) := by
  have hmst : (cutCpu w).toHart.csr.mstatus = 0 := rfl
  simp [Hart.leafOk, effectivePriv_cut, Hart.sum, Hart.mxr, hmst]

/-- The page of the entry's first byte is not overlaid. -/
theorem cutView_overlaid {base : U32} {size off : Nat}
    (hoff : off / PAGE_SIZE ≠ (off + 3) / PAGE_SIZE) :
    (cutView base size off).isOverlaid (off / PAGE_SIZE) = false := by
  have hdir : (cutView base size off).dir (off / PAGE_SIZE) = SENTINEL := setAt_of_ne _ _ hoff
  simp [CowRam.isOverlaid, hdir]

/-- The word of the image. -/
theorem readU32_cut {base w : U32} {size off : Nat} (hw : w.toNat % 4 = 0)
    (ho : windowOffset base size w = some off) (hs : off + 4 ≤ size) :
    (Golden.fromMmu (cutImage base size off)).readU32 w = some 0xcf := by
  have ho' : (Golden.fromMmu (cutImage base size off)).offset w = some off := ho
  have hp : allSpan (Golden.fromMmu (cutImage base size off)).perms off
      (fun p => p &&& PERM_READ ≠ 0) 4 = true :=
    allSpan_eq_true.2 fun _ _ => decide_eq_true_iff.2 (by simp [Golden.fromMmu, cutImage, PERM_READ, PERM_WRITE])
  have hv : readSpan (Golden.fromMmu (cutImage base size off)).mem off 4 = [0xcf, 0, 0, 0] := by
    have h2 : off + 1 + 1 ≠ off := by omega
    have h3 : off + 1 + 1 + 1 ≠ off := by omega
    simp [readSpan, Golden.fromMmu, cutImage, h2, h3]
  rw [Golden.readU32, Golden.readSpanOf, if_pos hw, Golden.spanHas, ho']
  dsimp only
  rw [if_pos ⟨hs, hp⟩, Option.map_some, hv]
  decide

/-- The view agrees with a memory whose entry has the other byte. -/
theorem agree_cutView {base : U32} {size off : Nat} (hoff : off + 3 < 2 ^ 32) :
    Agree ((cutImage base size off).putByte (off + 3) 0x10) (cutView base size off) :=
  (agree_new _).putByte hoff 0x10

/-- The word of the view. -/
theorem loadPte_cutView {base w : U32} {size off : Nat} (hw : w.toNat % 4 = 0)
    (ho : windowOffset base size w = some off) (hs : off + 4 ≤ size) :
    loadPte (cutView base size off) w = some 0x100000cf := by
  obtain ⟨hb, -⟩ := windowOffset_eq_some.1 ho
  have hoff : off + 3 < 2 ^ 32 := by
    have := w.isLt
    omega
  have hput := Mmu.samePlanes_putByte (cutImage base size off) (off + 3) 0x10
  refine ((agree_cutView hoff).loadPte w).trans (loadPte_eq_some.2 ((Mmu.loadWord_iff hw).2
    ⟨off, ?_, ?_, fun i _ => ?_, ?_⟩))
  · rw [hput.base]
    exact hb
  · rw [hput.size]
    exact hs
  · rw [hput.perms]
    dsimp only
    by_cases hi : off + i = off + 3
    · rw [hi, setAt_self]
      exact writtenPerm_read _
    · rw [setAt_of_ne _ _ hi]
      exact (by decide : (PERM_READ ||| PERM_WRITE) &&& PERM_READ ≠ 0)
  · have hv : readSpan ((cutImage base size off).putByte (off + 3) 0x10).mem off 4 =
        [0xcf, 0, 0, 0x10] := by
      rw [hput.mem]
      have h2 : off + 1 + 1 ≠ off := by omega
      simp [readSpan, setAt, cutImage, h2]
    rw [hv]
    decide

/-- A leaf at `w` that a supervisor may read and that needs no write-back. -/
structure CutLeaf (q : U32) : Prop where
  valid : pteInvalid q = false
  leaf : pteLeaf q = true
  ok : leafPermPrivOk .read .s false false (leafBits q) = true
  aligned : field q 10 0x3ff = 0
  ad : needsAd .read q = false

/-- The entry of the golden image is a leaf. -/
theorem cutLeaf_golden : CutLeaf 0xcf := by
  constructor <;> decide

/-- So is that of the view. -/
theorem cutLeaf_view : CutLeaf 0x100000cf := by
  constructor <;> decide

/-- The changed byte shows in bit 30 of the address. -/
theorem leafPa_cut (w va : U32) :
    leafPa ⟨w, 0x100000cf, true⟩ va ≠ leafPa ⟨w, 0xcf, true⟩ va := by
  have hlow : ((field va 12 0x3ff <<< 12) ||| (va &&& 0xfff)).getLsbD 30 = false := by
    have h10 : (0x3ff : U32).getLsbD 18 = false := by decide
    have h12 : (0xfff : U32).getLsbD 30 = false := by decide
    simp only [field, BitVec.getLsbD_or, BitVec.getLsbD_shiftLeft, BitVec.getLsbD_and, h10, h12,
      Nat.reduceSub, Bool.and_false, Bool.or_false]
  have hpa : ∀ q : U32, (leafPa ⟨w, q, true⟩ va).getLsbD 30 =
      (field q 20 0xfff <<< 22 : U32).getLsbD 30 := by
    intro q
    rw [leafPa, if_pos rfl, BitVec.or_assoc, BitVec.getLsbD_or, hlow, Bool.or_false]
  have hview : (field 0x100000cf 20 0xfff <<< 22 : U32).getLsbD 30 = true := by decide
  have hgolden : (field 0xcf 20 0xfff <<< 22 : U32).getLsbD 30 = false := by decide
  intro h
  have hbit := congrArg (fun pa => pa.getLsbD 30) h
  simp only [hpa, hview, hgolden] at hbit
  cases hbit

/-- Such a leaf is aligned. -/
theorem CutLeaf.misaligned {w q : U32} (hq : CutLeaf q) : Leaf.misaligned ⟨w, q, true⟩ = false := by
  have h : (field q 10 0x3ff ≠ 0) = False := by simpa using hq.aligned
  simp only [Leaf.misaligned, h, decide_false, Bool.and_false]

/-- The walk over the golden image translates by its entry. -/
theorem xlateGoldenReadonly_cut {g : Golden} {w q : U32} {ov : U32 → Bool} (hw : w.toNat % 4 = 0)
    (hov : ov w = false) (hr : g.readU32 w = some q) (hq : CutLeaf q) :
    xlateGoldenReadonly (cutCpu w).toHart g (cutVa w) .read ov =
      some (leafPa ⟨w, q, true⟩ (cutVa w)) := by
  have hread : (if ov w then none else g.readU32 w) = some q := by
    rw [hov]
    exact hr
  have hwalk := @walkWith_cut (fun a => if ov a then none else g.readU32 a) w q hw hread hq.valid
    hq.leaf
  unfold xlateGoldenReadonly
  rw [untranslated_cut, show (cutCpu w).toHart.csr.satp = cutSatp w from rfl, hwalk]
  simp [leafOk_cut, hq.ok, hq.misaligned, hq.ad]

/-- The walk over the view translates by its own. -/
theorem xlateNoTlb_cut {c : CowRam} {w q : U32} (hw : w.toNat % 4 = 0)
    (hr : loadPte c w = some q) (hq : CutLeaf q) :
    (xlateNoTlb (cutVa w) .read (cutCpu w).toHart c).1 = .ok (leafPa ⟨w, q, true⟩ (cutVa w)) := by
  have hwalk : walk c (cutSatp w) (cutVa w) = _ := walkWith_cut hw hr hq.valid hq.leaf
  unfold xlateNoTlb usableLeaf
  rw [untranslated_cut, show (cutCpu w).toHart.csr.satp = cutSatp w from rfl, hwalk]
  simp [leafOk_cut, hq.ok, hq.misaligned, updateAd, hq.ad]

/-- The walk of the view and that of the image go through the same word, which the overlay changed
in its last byte. -/
theorem cut_unsound {base : U32} {size off : Nat} {w : U32} (hw : w.toNat % 4 = 0)
    (ho : windowOffset base size w = some off) (hs : off + 4 ≤ size)
    (hcut : ¬off % PAGE_SIZE + 4 ≤ PAGE_SIZE) :
    ¬GoldenWalkSound (Golden.fromMmu (cutImage base size off)) := by
  intro hsound
  obtain ⟨hb, -⟩ := windowOffset_eq_some.1 ho
  have hoff : off + 3 < 2 ^ 32 := by
    have := w.isLt
    omega
  have hpages : off / PAGE_SIZE ≠ (off + 3) / PAGE_SIZE := by
    simp only [PAGE_SIZE] at hcut ⊢
    omega
  let s : Sys CowRam := ⟨cutCpu w, cutView base size off⟩
  let ov : U32 → Bool := fun a =>
    (s.bus.offset a).elim false fun o => s.bus.isOverlaid (o / PAGE_SIZE)
  have hgold : s.bus.golden = Golden.fromMmu (cutImage base size off) :=
    CowRam.golden_updatePage _ _ _
  have hov : ReportsOverlay s.bus ov := fun addr o haddr ho' => by
    simp only [ov, haddr, ho', Option.elim]
  have hovw : ov w = false := by
    have hw' : s.bus.offset w = some off := by
      rw [CowRam.offset, hgold]
      exact ho
    simp only [ov, hw', Option.elim]
    exact cutView_overlaid hpages
  have hcoh : Coherent s := coherentTlb_new _ _
  have hinv : s.bus.Inv := (agree_cutView hoff).inv
  obtain ⟨hok, -⟩ := hsound.ok hinv hgold hov ⟨rfl, rfl, rfl⟩ hcoh
    (xlateGoldenReadonly_cut hw hovw (readU32_cut hw ho hs) cutLeaf_golden)
  have hview := (CowRam.pteLaws.xlate hinv hcoh (cutVa w) .read).out.trans
    (xlateNoTlb_cut hw (loadPte_cutView hw ho hs) cutLeaf_view)
  rw [hview] at hok
  exact leafPa_cut _ _ (Except.ok.inj hok)

/-- The read-only walk keeps its promise for every image of a window exactly when the window cuts no
aligned word at a page boundary. -/
theorem goldenWalk_sound_iff (base : U32) (size : Nat) :
    (∀ g : Golden, g.base = base → g.size = size → GoldenWalkSound g) ↔ WordsInPages base size := by
  constructor
  · intro h w off hw ho hs
    by_contra hcut
    exact cut_unsound hw ho hs hcut (h _ rfl rfl)
  · rintro h g rfl rfl
    exact goldenWalk_sound h

/-- The window of two pages at address 2 cuts the word at 4096. -/
theorem goldenWalk_unsound_skewed :
    ¬GoldenWalkSound (Golden.fromMmu (cutImage 2 8192 4094)) :=
  @cut_unsound 2 8192 4094 4096 (by decide) (by decide) (by decide) (by decide)

end FuzzSoft
