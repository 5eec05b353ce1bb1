import FuzzSoft.Riscv.Tlb
import FuzzSoft.Riscv.ExecSim
import FuzzSoft.Lib.Run

/-!
# A coherent TLB is invisible

The laws a bus owes to the page walk (`PteLaws`), coherence of a TLB with the page tables
(`Coherent`), and the theorem that a coherent TLB cannot be seen: `Coherent.xlate` for one
translation and `PteLaws.transparent` for runs of translations, fences, `satp` writes, changes of
privilege, and guest stores that leave the reachable page-table words alone.
-/

namespace FuzzSoft

open Lib

section
variable {β : Type} [Bus β]

/-- Stores to the word at `w` are ignored. -/
def Inert (β : Type) [Bus β] (w : U32) : Prop := ∀ (b : β) v, Bus.store b w 4 v = (.ok (), b)

/-- The word at `w` is a valid leaf entry. -/
structure LeafWord (b : β) (w pte : U32) : Prop where
  aligned : w.toNat % 4 = 0
  load : loadPte b w = some pte
  valid : pteInvalid pte = false
  leaf : pteLeaf pte = true

/-- What a page walk relies on: writing A and D back into a leaf word changes no other page-table
word; it leaves in the word what was there or what was written (a store that faults midway may have
written the byte that holds A and D); and a successful one leaves what was written, unless the word
ignores stores. `I` is an invariant of the bus. -/
structure PteLaws (β : Type) [Bus β] (I : β → Prop) : Prop where
  inv : ∀ {b : β}, I b → ∀ a n v, I (Bus.store b a n v).2
  other : ∀ {b : β} {w pte w' : U32}, I b → LeafWord b w pte → ∀ access, w'.toNat % 4 = 0 →
    w' ≠ w → loadPte (Bus.store b w 4 (withAd access pte)).2 w' = loadPte b w'
  self : ∀ {b : β} {w pte : U32}, I b → LeafWord b w pte → ∀ access,
    loadPte (Bus.store b w 4 (withAd access pte)).2 w = some pte ∨
      loadPte (Bus.store b w 4 (withAd access pte)).2 w = some (withAd access pte)
  ok : ∀ {b : β} {w pte : U32}, I b → LeafWord b w pte → ∀ access,
    (Bus.store b w 4 (withAd access pte)).1 = .ok () →
    loadPte (Bus.store b w 4 (withAd access pte)).2 w = some (withAd access pte) ∨ Inert β w

/-- The entry `e` stands for the leaf `l` that a walk for `va` ends at, and using the entry needs no
write-back. -/
structure EntryOk (b : β) (satp va : U32) (e : TlbEntry) (l : Leaf) : Prop where
  walk : walk b satp va = some l
  aligned : l.misaligned = false
  bits : e.bits = leafBits l.pte
  pa : entryPa e va = leafPa l va
  a : pteBit l.pte 6 = true ∨ Inert β l.addr
  d : e.dSet = true → pteBit l.pte 7 = true ∨ Inert β l.addr

/-- Every entry of the TLB stands for the leaf of its page. -/
def CoherentTlb (tlb : Tlb) (satp : U32) (b : β) : Prop :=
  ∀ (va : U32) e, tlb.get (va >>> 12) = some e → ∃ l, EntryOk b satp va e l

/-- The TLB of a system is coherent with its `satp` and its memory. -/
def Coherent (s : Sys β) : Prop := CoherentTlb s.cpu.tlb s.hart.csr.satp s.bus

/-- An empty TLB is coherent. -/
theorem coherentTlb_new (satp : U32) (b : β) : CoherentTlb .new satp b := by
  intro va e h
  have h1 := Tlb.get_new h
  have h2 := (Tlb.get_eq_some.1 h).2
  exact absurd (h2.symm.trans h1) (vpn_ne_empty va)

/-- A walk ends at a leaf of the table. -/
theorem walk_leafWord {b : β} {satp va : U32} {l : Leaf} (h : walk b satp va = some l) :
    LeafWord b l.addr l.pte := by
  obtain ⟨hr, hl, hv, hf⟩ := walkWith_leaf h
  exact ⟨hr.aligned, hl, hv, hf⟩

/-- An entry that needs no write-back for an access. -/
theorem EntryOk.updateAd {b : β} {satp va : U32} {e : TlbEntry} {l : Leaf} {access : Access}
    (h : EntryOk b satp va e l) (hd : access = .write → e.dSet = true) :
    updateAd b access l = (.ok (), b) := by
  unfold FuzzSoft.updateAd
  split
  next hn =>
    -- something is not set in the live entry, so the word ignores stores
    have hi : Inert β l.addr := by
      simp only [needsAd, Bool.or_eq_true, Bool.not_eq_true', Bool.and_eq_true,
        decide_eq_true_eq] at hn
      rcases hn with ha | ⟨hw, hd7⟩
      · exact h.a.resolve_left (by simp [ha])
      · exact (h.d (hd hw)).resolve_left (by simp [hd7])
    exact hi b _
  next => rfl

/-- A hit of a coherent entry is what the walk would give. -/
theorem EntryOk.xlateNoTlb {s : Sys β} {va : U32} {e : TlbEntry} {l : Leaf} {access : Access}
    (h : EntryOk s.bus s.hart.csr.satp va e l) (ht : s.hart.untranslated access = false)
    (hd : access = .write → e.dSet = true) :
    xlateNoTlb va access s.hart s.bus =
      (if s.hart.leafOk access e.bits then .ok (entryPa e va) else .error (pageFault access va),
        s.bus) := by
  unfold FuzzSoft.xlateNoTlb usableLeaf
  simp only [ht, h.walk, h.aligned, h.bits, Bool.false_eq_true, if_false, Bool.not_false,
    Bool.and_true]
  cases hlo : s.hart.leafOk access (leafBits l.pte) with
  | true => simp only [if_true, h.updateAd hd, h.pa]
  | false => rfl

namespace PteLaws

variable {I : β → Prop} (hL : PteLaws β I)
include hL

/-- After a write-back the word holds an entry that differs in A and D only. -/
theorem self_same {b : β} {w pte : U32} (hI : I b) (hw : LeafWord b w pte) (access : Access) :
    ∃ q, loadPte (Bus.store b w 4 (withAd access pte)).2 w = some q ∧ SamePte pte q := by
  rcases hL.self hI hw access with h | h
  · exact ⟨pte, h, .refl pte⟩
  · exact ⟨_, h, samePte_withAd access pte⟩

/-- What a write-back does to every walk. -/
theorem walk_updateAd {b : β} {satp va : U32} {l : Leaf} (hI : I b)
    (hl : walk b satp va = some l) (access : Access) :
    ∃ q, loadPte (updateAd b access l).2 l.addr = some q ∧ SamePte l.pte q ∧
      ∀ va', walk (updateAd b access l).2 satp va' =
        (walk b satp va').map (Leaf.rewrite l.addr q) := by
  have hw := walk_leafWord hl
  unfold updateAd
  split
  · obtain ⟨q, hq, hs⟩ := hL.self_same hI hw access
    exact ⟨q, hq, hs, walkWith_rewrite hw.load hw.leaf hs hq
      fun w' ha hne => hL.other hI hw access ha hne⟩
  · exact ⟨l.pte, hw.load, .refl _, walkWith_rewrite hw.load hw.leaf (.refl _) hw.load
      fun _ _ _ => rfl⟩

/-- A write-back keeps every entry that stood for a leaf. -/
theorem entryOk_updateAd {b : β} {satp va va' : U32} {l l' : Leaf} {e : TlbEntry} (hI : I b)
    (hl : walk b satp va = some l) (access : Access) (he : EntryOk b satp va' e l') :
    ∃ l'', EntryOk (updateAd b access l).2 satp va' e l'' := by
  obtain ⟨q, -, hs, hwalk⟩ := hL.walk_updateAd hI hl access
  refine ⟨l'.rewrite l.addr q, ?_⟩
  have hw' : walk (updateAd b access l).2 satp va' = some (l'.rewrite l.addr q) := by
    rw [hwalk, he.walk]
    rfl
  by_cases hw : l'.addr = l.addr
  · -- the rewritten word is this entry's own leaf
    have hpte : l'.pte = l.pte := by
      have h1 := (walk_leafWord he.walk).load
      rw [hw, (walk_leafWord hl).load] at h1
      exact (Option.some.inj h1).symm
    rcases l' with ⟨addr, pte, super⟩
    simp only at hw hpte
    subst hw hpte
    simp only [Leaf.rewrite, if_true] at hw' ⊢
    exact ⟨hw', (hs.misaligned _ _).trans he.aligned, he.bits.trans hs.bits.symm,
      he.pa.trans (hs.leafPa _ _ _).symm, he.a.imp_left hs.a, fun hd => (he.d hd).imp_left hs.d⟩
  · rw [Leaf.rewrite, if_neg hw] at hw' ⊢
    exact { he with walk := hw' }

/-- The entry a walk inserts stands for the leaf it found. -/
theorem entryOk_leafEntry {b : β} {satp va va' : U32} {l : Leaf} {access : Access} (hI : I b)
    (hl : walk b satp va = some l) (hm : l.misaligned = false)
    (hok : (updateAd b access l).1 = .ok ()) (hv : va' >>> 12 = va >>> 12) :
    ∃ l', EntryOk (updateAd b access l).2 satp va' (leafEntry va access l) l' := by
  obtain ⟨q, hq, hs, hwalk⟩ := hL.walk_updateAd hI hl access
  have hlw := walk_leafWord hl
  rcases l with ⟨addr, pte, super⟩
  have hset : (pteBit q 6 = true ∨ Inert β addr) ∧
      ((leafEntry va access ⟨addr, pte, super⟩).dSet = true →
        pteBit q 7 = true ∨ Inert β addr) := by
    unfold updateAd at hq hok
    split at hq
    next hn =>
      rw [if_pos hn] at hok
      rcases hL.ok hI hlw access hok with h | h
      · rw [hq] at h
        cases h
        refine ⟨.inl (pteBit_withAd_a access pte), fun hd => .inl (pteBit_withAd_d ?_)⟩
        simpa [leafEntry] using hd
      · exact ⟨.inr h, fun _ => .inr h⟩
    next hn =>
      rw [hlw.load] at hq
      cases hq
      simp only [needsAd, Bool.or_eq_true, Bool.not_eq_true', Bool.and_eq_true,
        decide_eq_true_eq, not_or, Bool.not_eq_false, not_and] at hn
      refine ⟨.inl hn.1, fun hd => .inl ?_⟩
      simp only [leafEntry, Bool.or_eq_true, decide_eq_true_eq] at hd
      exact hd.elim hn.2 id
  refine ⟨⟨addr, q, super⟩, ?_, (hs.misaligned _ _).trans hm, hs.bits.symm, ?_, hset.1, hset.2⟩
  · rw [hwalk, walk, walkWith_vpn _ _ hv, show walkWith (loadPte b) satp va = _ from hl]
    simp [Leaf.rewrite]
  · rw [hs.leafPa addr super va']
    exact leafPa_join _ hv.symm

end PteLaws

/-- When a walk finds a leaf that may be used. -/
theorem usableLeaf_eq_some {h : Hart} {b : β} {va : U32} {access : Access} {l : Leaf} :
    usableLeaf h b va access = some l ↔ walk b h.csr.satp va = some l ∧
      h.leafOk access (leafBits l.pte) = true ∧ l.misaligned = false := by
  unfold usableLeaf
  cases walk b h.csr.satp va with
  | none => simp
  | some l' =>
    simp only [Bool.and_eq_true, Bool.not_eq_true', Option.ite_none_right_eq_some,
      Option.some.injEq]
    constructor
    · rintro ⟨⟨h1, h2⟩, rfl⟩
      exact ⟨rfl, h1, h2⟩
    · rintro ⟨rfl, h1, h2⟩
      exact ⟨⟨h1, h2⟩, rfl⟩

/-- A translation without a TLB. -/
theorem xlateNoTlb_translated {h : Hart} {b : β} {va : U32} {access : Access}
    (ht : h.untranslated access = false) :
    xlateNoTlb va access h b =
      match usableLeaf h b va access with
      | none => (.error (pageFault access va), b)
      | some l =>
        match updateAd b access l with
        | (.error _, bus) => (.error (pageFault access va), bus)
        | (.ok _, bus) => (.ok (leafPa l va), bus) := by
  unfold FuzzSoft.xlateNoTlb
  rw [ht]
  rfl

/-- A translation through a coherent TLB: the outcome and the memory of the walk without a TLB, the
hart unchanged, and a coherent TLB again. -/
structure XlateSpec (I : β → Prop) (va : U32) (access : Access) (s : Sys β)
    (r : Except Trap U32 × Sys β) : Prop where
  out : r.1 = (xlateNoTlb va access s.hart s.bus).1
  bus : r.2.bus = (xlateNoTlb va access s.hart s.bus).2
  hart : r.2.hart = s.hart
  coherent : Coherent r.2
  inv : I r.2.bus

namespace PteLaws

variable {I : β → Prop} (hL : PteLaws β I)
include hL

/-- The update of a leaf keeps the invariant. -/
theorem inv_updateAd {b : β} (hI : I b) (access : Access) (l : Leaf) :
    I (updateAd b access l).2 := by
  unfold updateAd
  split
  · exact hL.inv hI _ _ _
  · exact hI

/-- A walk with its fill is one without a TLB. -/
theorem walkFill {s : Sys β} {va : U32} {access : Access} (hI : I s.bus) (hc : Coherent s)
    (ht : s.hart.untranslated access = false) :
    XlateSpec I va access s (walkFill va access s) := by
  have hspec := @xlateNoTlb_translated _ _ s.hart s.bus va access ht
  unfold FuzzSoft.walkFill
  cases hu : usableLeaf s.hart s.bus va access with
  | none =>
    rw [hu] at hspec
    exact ⟨by rw [hspec], by rw [hspec], rfl, hc, hI⟩
  | some l =>
    rw [hu] at hspec
    dsimp only at hspec ⊢
    obtain ⟨hw, hok, hm⟩ := usableLeaf_eq_some.1 hu
    have hinv := hL.inv_updateAd hI access l
    have hold : ∀ {va' : U32} {e}, s.cpu.tlb.get (va' >>> 12) = some e →
        ∃ l', EntryOk (updateAd s.bus access l).2 s.hart.csr.satp va' e l' := fun h => by
      obtain ⟨l', hl'⟩ := hc _ _ h
      exact hL.entryOk_updateAd hI hw access hl'
    have hnew : ∀ {va' : U32}, (updateAd s.bus access l).1 = .ok () → va' >>> 12 = va >>> 12 →
        ∃ l', EntryOk (updateAd s.bus access l).2 s.hart.csr.satp va' (leafEntry va access l) l' :=
      fun hok hv => hL.entryOk_leafEntry hI hw hm hok hv
    rcases hr : updateAd s.bus access l with ⟨r, b⟩
    rw [hr] at hinv hspec hold hnew
    cases r with
    | error e => exact ⟨by rw [hspec], by rw [hspec], rfl, fun va' e h => hold h, hinv⟩
    | ok _ =>
      refine ⟨by rw [hspec], by rw [hspec], rfl, ?_, hinv⟩
      intro va' e h
      rcases Tlb.get_insert h with ⟨rfl, hv⟩ | ⟨h, -⟩
      · exact hnew rfl hv
      · exact hold h

/-- A coherent TLB cannot be seen by one translation. -/
theorem xlate {s : Sys β} (hI : I s.bus) (hc : Coherent s) (va : U32) (access : Access) :
    XlateSpec I va access s (xlate va access s) := by
  unfold FuzzSoft.xlate
  split
  next ht =>
    have hspec : xlateNoTlb va access s.hart s.bus = (.ok va, s.bus) := by
      simp only [xlateNoTlb, ht, if_true]
    exact ⟨by rw [hspec], by rw [hspec], rfl, hc, hI⟩
  next ht =>
    replace ht : s.hart.untranslated access = false := by simpa using ht
    cases hg : s.cpu.tlb.get (va >>> 12) with
    | none => exact hL.walkFill hI hc ht
    | some e =>
      obtain ⟨l, hl⟩ := hc va e hg
      dsimp only
      split
      next hp =>
        -- the walk finds the same leaf bits, so it refuses as well
        have hspec : xlateNoTlb va access s.hart s.bus =
            (.error (pageFault access va), s.bus) := by
          have hf : s.hart.leafOk access (leafBits l.pte) = false := by
            rw [← hl.bits]
            simpa using hp
          simp only [xlateNoTlb, ht, Bool.false_eq_true, if_false, usableLeaf, hl.walk, hf,
            Bool.false_and]
        exact ⟨by rw [hspec], by rw [hspec], rfl, hc, hI⟩
      next hp =>
        split
        next hd =>
          have hd' : access = .write → e.dSet = true := by
            intro hw
            simpa [hw] using hd
          have hspec := hl.xlateNoTlb ht hd'
          rw [show s.hart.leafOk access e.bits = true by simpa using hp] at hspec
          exact ⟨by rw [hspec]; rfl, by rw [hspec], rfl, hc, hI⟩
        next => exact hL.walkFill hI hc ht

end PteLaws

/-- A store leaves what the reachable page-table words load as it was. -/
def Untouched (satp : U32) (b b' : β) : Prop :=
  ∀ w, Reach (loadPte b) satp w → loadPte b' w = loadPte b w

/-- A store beside the tables keeps the TLB coherent. -/
theorem CoherentTlb.untouched {tlb : Tlb} {satp : U32} {b b' : β} (hc : CoherentTlb tlb satp b)
    (h : Untouched satp b b') : CoherentTlb tlb satp b' := by
  intro va e he
  obtain ⟨l, hl⟩ := hc va e he
  exact ⟨l, { hl with walk := (walkWith_congr h va).trans hl.walk }⟩

/-- What `fastPa` grants, `xlate` returns without touching anything. -/
theorem xlate_of_fastPa {s : Sys β} {va pa : U32} {access : Access}
    (h : s.cpu.fastPa va access = some pa) : xlate va access s = (.ok pa, s) := by
  unfold Cpu.fastPa at h
  unfold xlate
  split at h
  next ht =>
    cases h
    rw [if_pos (show s.hart.untranslated access = true from ht)]
  next ht =>
    rw [if_neg (show ¬ s.hart.untranslated access = true from ht)]
    cases hg : s.cpu.tlb.get (va >>> 12) with
    | none =>
      rw [hg] at h
      cases h
    | some e =>
      rw [hg] at h
      dsimp only at h ⊢
      split at h
      · cases h
      next hp =>
        split at h
        · cases h
        next hd =>
          cases h
          rw [if_neg (show ¬ (!s.hart.leafOk access e.bits) = true from hp),
            if_pos (by simpa [imp_iff_not_or] using hd)]

/-! ## Runs -/

/-- What happens between translations. -/
inductive TlbOp where
  | xlate (va : U32) (access : Access)
  /-- Any change of registers, privilege and CSRs other than `satp`. -/
  | context (h : Hart)
  /-- A CSR instruction; a write to `satp` is one. -/
  | csr (op : CsrOp) (rd src : Reg) (csr : U16) (pc iword : U32)
  | sfence
  | store (pa : U32) (size : Nat) (val : U32)

inductive TlbOut where
  | addr (r : Except Trap U32)
  | csr (r : Except Trap Unit)
  | stored (r : Except Fault Unit)
  | done

/-- `h` with another `satp`. -/
def Hart.withSatp (h : Hart) (v : U32) : Hart := { h with csr := { h.csr with satp := v } }

/-- One operation on a hart with a TLB. -/
def tlbStep (s : Sys β) : TlbOp → TlbOut × Sys β
  | .xlate va access => let r := xlate va access s; (.addr r.1, r.2)
  | .context h => (.done, s.setHart (h.withSatp s.hart.csr.satp))
  | .csr op rd src csr pc iword =>
    let r := execCsr op rd src csr pc iword s
    (.csr r.1, r.2)
  | .sfence => (.done, (flushTlb s).2)
  | .store pa size val => let r := Bus.store s.bus pa size val; (.stored r.1, { s with bus := r.2 })

/-- One operation on a hart that never looks at its TLB: it walks the page tables every time. -/
def walkStep (s : Sys β) : TlbOp → TlbOut × Sys β
  | .xlate va access =>
    let r := xlateNoTlb va access s.hart s.bus
    (.addr r.1, { s with bus := r.2 })
  | op => tlbStep s op

/-- A guest store does not touch a page-table word reachable from the current `satp`. -/
def NoTouch (s : Sys β) : TlbOp → Prop
  | .store pa size val => Untouched s.hart.csr.satp s.bus (Bus.store s.bus pa size val).2
  | _ => True

/-- The TLB is transparent over a bus with invariant `I`: a hart that starts with an empty TLB and
one that walks every time give the same outcomes and end with the same hart and memory. -/
def TlbTransparent (β : Type) [Bus β] (I : β → Prop) : Prop :=
  ∀ s : Sys β, s.cpu.tlb = .new → I s.bus → ∀ ops, Along walkStep NoTouch s ops →
    (run tlbStep s ops).1 = (run walkStep s ops).1 ∧
      (run tlbStep s ops).2.bus = (run walkStep s ops).2.bus ∧
      (run tlbStep s ops).2.hart = (run walkStep s ops).2.hart

/-- The relation a run keeps: the same hart and memory, and a coherent TLB. -/
structure TlbRel (I : β → Prop) (w s : Sys β) : Prop where
  hart : w.hart = s.hart
  bus : w.bus = s.bus
  coherent : Coherent s
  inv : I s.bus

/-- A change of the hart that leaves `satp` alone keeps the relation. -/
theorem TlbRel.setHart {I : β → Prop} {w s : Sys β} (h : TlbRel I w s) {h' : Hart}
    (hs : h'.csr.satp = w.hart.csr.satp) : TlbRel I (w.setHart h') (s.setHart h') := by
  refine ⟨rfl, h.bus, ?_, h.inv⟩
  show CoherentTlb s.cpu.tlb h'.csr.satp s.bus
  rw [hs, h.hart]
  exact h.coherent

/-- Changes of the hart keep the relation. -/
theorem tlbRel_hartUniform (I : β → Prop) : HartUniform (TlbRel I) where
  hart h := h.hart
  setHart h _ hk := h.setHart hk.1
  setFlush h _ _ := ⟨rfl, h.bus, coherentTlb_new _ _, h.inv⟩

/-- Every operation is one without a TLB. -/
theorem PteLaws.tlbStep {I : β → Prop} (hL : PteLaws β I) {w s : Sys β} {op : TlbOp}
    (h : TlbRel I w s) (hop : NoTouch w op) :
    (tlbStep s op).1 = (walkStep w op).1 ∧ TlbRel I (walkStep w op).2 (tlbStep s op).2 := by
  have hU := tlbRel_hartUniform I
  cases op with
  | xlate va access =>
    have hx := hL.xlate h.inv h.coherent va access
    simp only [walkStep, FuzzSoft.tlbStep, h.hart, h.bus]
    exact ⟨congrArg TlbOut.addr hx.out, h.hart.trans hx.hart.symm, hx.bus.symm, hx.coherent, hx.inv⟩
  | context h' =>
    refine ⟨rfl, ?_⟩
    simp only [walkStep, FuzzSoft.tlbStep, ← h.hart]
    exact h.setHart rfl
  | csr op rd src csr pc iword =>
    have hc := hU.execCsr op rd src csr pc iword h
    exact ⟨congrArg TlbOut.csr hc.out, hc.rel⟩
  | sfence => exact ⟨rfl, (hU.flushTlb h).rel⟩
  | store pa size val =>
    obtain ⟨hh, hb, hc, hI⟩ := h
    simp only [NoTouch, walkStep, FuzzSoft.tlbStep, hh, hb] at hop ⊢
    exact ⟨trivial, hh, rfl, hc.untouched hop, hL.inv hI _ _ _⟩

/-- Over a bus with the page-table laws the TLB is transparent. -/
theorem PteLaws.transparent {I : β → Prop} (hL : PteLaws β I) : TlbTransparent β I := by
  intro s hs hI ops hops
  have hstart : TlbRel I s s := by
    refine ⟨rfl, rfl, ?_, hI⟩
    rw [Coherent, hs]
    exact coherentTlb_new _ _
  have hstep : ∀ {w s : Sys β} {op : TlbOp}, TlbRel I w s → NoTouch w op →
      (FuzzSoft.tlbStep s op).1 = (walkStep w op).1 ∧
        TlbRel I (walkStep w op).2 (FuzzSoft.tlbStep s op).2 := fun h hop => hL.tlbStep h hop
  obtain ⟨houts, hR⟩ := run_lockstep hstep hstart hops
  exact ⟨houts, hR.bus.symm, hR.hart.symm⟩

end

end FuzzSoft
