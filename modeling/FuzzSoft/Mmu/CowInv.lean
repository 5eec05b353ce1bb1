import FuzzSoft.Mmu.Cow
import Mathlib.Data.Finset.Card

/-!
# The invariant of the page directory

The directory, the overlays and the list of overlaid pages of a `CowRam` stay in step
(`CowRam.Inv`): a slot is in range and belongs to one page, and every overlaid page is listed, so
that dropping the listed overlays restores the fresh view (`CowRam.Inv.reset_eq`). One lemma says
what copying a page and changing its overlay does to the view (`CowRam.Inv.updatePage`); the writes,
the taint shadow and the fast path are instances of it.
-/

namespace FuzzSoft

open Lib

namespace CowRam

/-- Page numbers a 32-bit address can reach. -/
def PAGES : Nat := 2 ^ 20

/-- The directory, the overlays and the list of overlaid pages are in step. -/
structure Inv (c : CowRam) : Prop where
  slot_lt : ∀ {pn}, c.dir pn ≠ SENTINEL → (c.dir pn).toNat < c.pages.length
  inj : ∀ {pn pn'}, c.dir pn ≠ SENTINEL → c.dir pn = c.dir pn' → pn = pn'
  listed : ∀ {pn}, c.dir pn ≠ SENTINEL → pn < PAGES ∧ BitVec.ofNat 32 pn ∈ c.dirty
  dirty_dir : ∀ {w : U32}, w ∈ c.dirty → c.dir w.toNat ≠ SENTINEL
  nodup : c.dirty.Nodup
  length_eq : c.pages.length = c.dirty.length

/-- A new memory has no page of its own. -/
theorem inv_new (g : Golden) : (CowRam.new g).Inv where
  slot_lt h := absurd rfl h
  inj h := absurd rfl h
  listed h := absurd rfl h
  dirty_dir h := nomatch h
  nodup := .nil
  length_eq := rfl

/-- There are at most as many overlays as reachable pages. -/
theorem Inv.length_le {c : CowRam} (h : c.Inv) : c.pages.length ≤ PAGES := by
  rw [h.length_eq, ← List.length_map (f := fun w : U32 => w.toNat)]
  have hnd : (c.dirty.map fun w : U32 => w.toNat).Nodup :=
    h.nodup.map fun a b hab => BitVec.eq_of_toNat_eq hab
  have hsub : (c.dirty.map fun w : U32 => w.toNat) ⊆ List.range PAGES := by
    intro n hn
    obtain ⟨w, hw, rfl⟩ := List.mem_map.1 hn
    exact List.mem_range.2 (h.listed (h.dirty_dir hw)).1
  have := (hnd.subperm hsub).length_le
  rwa [List.length_range] at this

/-- The slot of a new overlay is not the sentinel. -/
theorem Inv.length_ne {c : CowRam} (h : c.Inv) :
    (BitVec.ofNat 32 c.pages.length).toNat = c.pages.length ∧
      BitVec.ofNat 32 c.pages.length ≠ SENTINEL := by
  have hle : c.pages.length ≤ 2 ^ 20 := h.length_le
  have heq : (BitVec.ofNat 32 c.pages.length).toNat = c.pages.length := by
    rw [BitVec.toNat_ofNat]
    omega
  refine ⟨heq, fun hs => ?_⟩
  have : (BitVec.ofNat 32 c.pages.length).toNat = SENTINEL.toNat := by rw [hs]
  rw [heq, show SENTINEL.toNat = 2 ^ 32 - 1 from rfl] at this
  omega

/-- A page without a slot is that of the image. -/
theorem resolve_golden {c : CowRam} {pn : Nat} (h : c.dir pn = SENTINEL) :
    c.resolve pn = ⟨fun po => c.golden.mem (pn * PAGE_SIZE + po),
      fun po => c.golden.perms (pn * PAGE_SIZE + po)⟩ :=
  if_pos h

/-- A page with a slot is its own. -/
theorem resolve_overlay {c : CowRam} {pn : Nat} (h : c.dir pn ≠ SENTINEL) :
    c.resolve pn = c.page (c.dir pn).toNat :=
  if_neg h

/-- Two pages agree at the in-page offsets that lie inside the window. -/
def PageAgree (g : Golden) (pn : Nat) (p q : CowPage) : Prop :=
  ∀ po, pn * PAGE_SIZE + po < g.size → p.mem po = q.mem po ∧ p.perms po = q.perms po

/-- What copying page `pn` leaves: the invariant, an overlay at the returned slot, and the same
view. -/
structure Ensured (c : CowRam) (pn slot : Nat) (c' : CowRam) : Prop where
  inv : c'.Inv
  golden : c'.golden = c.golden
  dir_ne : c'.dir pn ≠ SENTINEL
  slot_eq : (c'.dir pn).toNat = slot
  agree : PageAgree c.golden pn (c'.page slot) (c.resolve pn)
  others : ∀ pn', pn' ≠ pn → c'.resolve pn' = c.resolve pn'

/-- The state after a golden page `pn` got its overlay. -/
def addPage (c : CowRam) (pn : Nat) : CowRam :=
  { c with
    pages := c.pages ++ [freshPage c.golden pn]
    dir := setAt c.dir pn (BitVec.ofNat 32 c.pages.length)
    dirty := c.dirty ++ [BitVec.ofNat 32 pn] }

/-- A new page has the next slot. -/
theorem addPage_dir_self (c : CowRam) (pn : Nat) :
    (c.addPage pn).dir pn = BitVec.ofNat 32 c.pages.length :=
  setAt_self _ _ _

/-- The other pages keep theirs. -/
theorem addPage_dir_of_ne (c : CowRam) {pn pn' : Nat} (h : pn' ≠ pn) :
    (c.addPage pn).dir pn' = c.dir pn' :=
  setAt_of_ne _ _ h

/-- A page number fits a word. -/
theorem toNat_pageNumber {pn : Nat} (hpn : pn < PAGES) : (BitVec.ofNat 32 pn).toNat = pn := by
  rw [BitVec.toNat_ofNat]
  exact Nat.mod_eq_of_lt (Nat.lt_of_lt_of_le hpn (by decide))

/-- Adding an overlay for a golden page keeps the invariant. -/
theorem Inv.addPage {c : CowRam} (h : c.Inv) {pn : Nat} (hpn : pn < PAGES)
    (hs : c.dir pn = SENTINEL) : (c.addPage pn).Inv := by
  have hlen := h.length_ne
  have hslot : ∀ {q}, c.dir q ≠ SENTINEL → c.dir q ≠ BitVec.ofNat 32 c.pages.length := by
    intro q hq he
    have := h.slot_lt hq
    rw [he, hlen.1] at this
    omega
  refine ⟨?_, ?_, ?_, ?_, ?_, ?_⟩
  · intro q hd
    have hl : (c.addPage pn).pages.length = c.pages.length + 1 := by simp [CowRam.addPage]
    by_cases he : q = pn
    · subst he
      rw [addPage_dir_self, hlen.1, hl]
      omega
    · rw [addPage_dir_of_ne c he] at hd ⊢
      have := h.slot_lt hd
      omega
  · intro p q hd heq
    by_cases hp : p = pn <;> by_cases hq : q = pn
    · rw [hp, hq]
    · subst hp
      rw [addPage_dir_self, addPage_dir_of_ne c hq] at heq
      exact absurd heq.symm (hslot (heq ▸ hlen.2))
    · subst hq
      rw [addPage_dir_self, addPage_dir_of_ne c hp] at heq
      exact absurd heq (hslot (heq ▸ hlen.2))
    · rw [addPage_dir_of_ne c hp] at hd heq
      rw [addPage_dir_of_ne c hq] at heq
      exact h.inj hd heq
  · intro q hd
    by_cases he : q = pn
    · exact ⟨he ▸ hpn, by simp [CowRam.addPage, he]⟩
    · rw [addPage_dir_of_ne c he] at hd
      obtain ⟨h1, h2⟩ := h.listed hd
      exact ⟨h1, List.mem_append_left _ h2⟩
  · intro w hw
    by_cases he : w.toNat = pn
    · rw [he, addPage_dir_self]
      exact hlen.2
    · rw [addPage_dir_of_ne c he]
      rcases List.mem_append.1 hw with hw | hw
      · exact h.dirty_dir hw
      · rw [List.mem_singleton.1 hw, toNat_pageNumber hpn] at he
        exact absurd rfl he
  · refine List.nodup_append.2 ⟨h.nodup, by simp, ?_⟩
    intro a ha b hb hab
    rw [List.mem_singleton.1 hb] at hab
    rw [hab] at ha
    exact h.dirty_dir ha (by rw [toNat_pageNumber hpn]; exact hs)
  · simp [CowRam.addPage, h.length_eq]

/-- Adding an overlay changes no other page. -/
theorem Inv.resolve_addPage_of_ne {c : CowRam} (h : c.Inv) {pn q : Nat} (he : q ≠ pn) :
    (c.addPage pn).resolve q = c.resolve q := by
  unfold resolve
  simp only [addPage_dir_of_ne c he]
  split
  next => rfl
  next hd =>
    have := h.slot_lt hd
    simp [page, CowRam.addPage, List.getD_eq_getElem?_getD, List.getElem?_append_left this]

/-- After it a page is the memory's own, and nothing reads differently. -/
theorem Inv.ensurePage {c : CowRam} (h : c.Inv) {pn : Nat} (hpn : pn < PAGES) :
    Ensured c pn (c.ensurePage pn).1 (c.ensurePage pn).2 := by
  by_cases hs : c.dir pn = SENTINEL
  · have heq : c.ensurePage pn = (c.pages.length, c.addPage pn) := by
      simp [CowRam.ensurePage, CowRam.addPage, hs]
    have hlen := h.length_ne
    rw [heq]
    refine ⟨h.addPage hpn hs, rfl, ?_, ?_, ?_, fun _ => h.resolve_addPage_of_ne⟩
    · rw [addPage_dir_self]
      exact hlen.2
    · rw [addPage_dir_self]
      exact hlen.1
    · intro po hpo
      rw [resolve_golden hs]
      simp [page, CowRam.addPage, freshPage, hpo]
  · have heq : c.ensurePage pn = ((c.dir pn).toNat, c) := by simp [CowRam.ensurePage, hs]
    rw [heq]
    refine ⟨h, rfl, hs, rfl, fun po _ => ?_, fun _ _ => rfl⟩
    rw [resolve_overlay hs]
    exact ⟨rfl, rfl⟩

/-- Replacing the overlay of a page keeps the invariant. -/
theorem Inv.setPage {c : CowRam} (h : c.Inv) (slot : Nat) (p : CowPage) :
    (c.setPage slot p).Inv where
  slot_lt hd := by
    simp only [CowRam.setPage, List.length_set]
    exact h.slot_lt hd
  inj := h.inj
  listed := h.listed
  dirty_dir := h.dirty_dir
  nodup := h.nodup
  length_eq := by
    simp only [CowRam.setPage, List.length_set]
    exact h.length_eq

/-- The page whose overlay was replaced now resolves to it. -/
theorem Inv.resolve_setPage_self {c : CowRam} (h : c.Inv) {pn : Nat} (p : CowPage)
    (hd : c.dir pn ≠ SENTINEL) : (c.setPage (c.dir pn).toNat p).resolve pn = p := by
  have hlt := h.slot_lt hd
  rw [resolve_overlay (show (c.setPage (c.dir pn).toNat p).dir pn ≠ SENTINEL from hd)]
  simp [CowRam.setPage, page, List.getD_eq_getElem?_getD, hlt]

/-- Every other page resolves as before. -/
theorem Inv.resolve_setPage_of_ne {c : CowRam} (h : c.Inv) {pn pn' : Nat} (p : CowPage)
    (hd : c.dir pn ≠ SENTINEL) (hne : pn' ≠ pn) :
    (c.setPage (c.dir pn).toNat p).resolve pn' = c.resolve pn' := by
  by_cases hs : c.dir pn' = SENTINEL
  · rw [resolve_golden hs, resolve_golden (by exact hs)]
    rfl
  · have hslot : (c.dir pn).toNat ≠ (c.dir pn').toNat := fun he =>
      hne (h.inj hd (BitVec.eq_of_toNat_eq he)).symm
    rw [resolve_overlay hs, resolve_overlay (by exact hs)]
    simp [CowRam.setPage, page, List.getD_eq_getElem?_getD, List.getElem?_set_ne hslot]

/-- What `updatePage` leaves: `f` was applied to a page that agrees, inside the window, with the
page as it was resolved before, and every other page is untouched. -/
structure Updated (c : CowRam) (off : Nat) (f : Nat → CowPage → CowPage) (c' : CowRam) : Prop where
  inv : c'.Inv
  golden : c'.golden = c.golden
  here : ∃ p, PageAgree c.golden (off / PAGE_SIZE) p (c.resolve (off / PAGE_SIZE)) ∧
    c'.resolve (off / PAGE_SIZE) = f (off % PAGE_SIZE) p
  others : ∀ pn, pn ≠ off / PAGE_SIZE → c'.resolve pn = c.resolve pn

/-- An update changes its page only. -/
theorem Inv.updatePage {c : CowRam} (h : c.Inv) {off : Nat} (hoff : off < 2 ^ 32)
    (f : Nat → CowPage → CowPage) : Updated c off f (c.updatePage off f) := by
  have hpn : off / PAGE_SIZE < PAGES := Nat.div_lt_of_lt_mul hoff
  have he := h.ensurePage hpn
  refine ⟨he.inv.setPage _ _, he.golden, ⟨_, he.agree, ?_⟩, ?_⟩
  · rw [CowRam.updatePage, ← he.slot_eq]
    exact he.inv.resolve_setPage_self _ he.dir_ne
  · intro pn hne
    rw [CowRam.updatePage, ← he.slot_eq]
    rw [he.inv.resolve_setPage_of_ne _ he.dir_ne hne]
    exact he.others pn hne

/-- Offsets of one page are told apart by their page and their place in it. -/
theorem pageOffset_eq (off : Nat) : off / PAGE_SIZE * PAGE_SIZE + off % PAGE_SIZE = off :=
  Nat.div_add_mod' off PAGE_SIZE

/-- A reset clears the slots of the listed pages. -/
theorem clear_dir {dirty : List U32} (dir : Nat → U32) (pn : Nat) :
    (dirty.foldl (fun d w => setAt d w.toNat SENTINEL) dir) pn =
      if (∃ w ∈ dirty, w.toNat = pn) then SENTINEL else dir pn := by
  induction dirty generalizing dir with
  | nil => simp
  | cons w ws ih =>
    rw [List.foldl_cons, ih]
    by_cases hw : w.toNat = pn
    · simp [hw, setAt]
    · simp [hw, setAt, Ne.symm hw]

/-- Resetting a view is building a fresh one over the same golden image. -/
theorem Inv.reset_eq {c : CowRam} (h : c.Inv) : c.reset = CowRam.new c.golden := by
  have hdir : c.dirty.foldl (fun d w => setAt d w.toNat SENTINEL) c.dir = fun _ => SENTINEL := by
    funext pn
    rw [clear_dir]
    split
    next => rfl
    next hn =>
      by_contra hs
      obtain ⟨hlt, hm⟩ := h.listed hs
      exact hn ⟨_, hm, toNat_pageNumber hlt⟩
  rw [reset, hdir, CowRam.new]

end CowRam

end FuzzSoft
