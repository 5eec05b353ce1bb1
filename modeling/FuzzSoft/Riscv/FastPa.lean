import FuzzSoft.Riscv.Coherent

/-!
# Translations that stay granted

What one translation does to the hart and the bus (`xlate_effect`), and how long its result lasts:
after `xlate` has answered, `fastPa` grants the same address (`fastPa_of_xlate`), and it goes on
doing so while the hart translates addresses of the same or of a neighbouring page, because those
never share a slot of the TLB (`fastPa_xlate`, `neighbours`). The taint of a store is scattered to
addresses translated once more after the store, and this is why they are the ones stored to.
-/

namespace FuzzSoft

open Lib

section
variable {β : Type} [Bus β]

/-- What a translation can do to a system. -/
structure XlateEffect (va : U32) (s s' : Sys β) : Prop where
  hart : s'.hart = s.hart
  tlb : s'.cpu.tlb = s.cpu.tlb ∨
    ∃ e : TlbEntry, e.vpn = va >>> 12 ∧ s'.cpu.tlb = s.cpu.tlb.insert e
  bus : s'.bus = s.bus ∨ ∃ w v, s'.bus = (Bus.store s.bus w 4 v).2

theorem XlateEffect.refl (va : U32) (s : Sys β) : XlateEffect va s s := ⟨rfl, .inl rfl, .inl rfl⟩

theorem updateAd_bus (b : β) (access : Access) (l : Leaf) :
    (updateAd b access l).2 = b ∨ ∃ w v, (updateAd b access l).2 = (Bus.store b w 4 v).2 := by
  unfold updateAd
  split
  · exact .inr ⟨_, _, rfl⟩
  · exact .inl rfl

theorem walkFill_effect (va : U32) (access : Access) (s : Sys β) :
    XlateEffect va s (walkFill va access s).2 := by
  unfold walkFill
  cases usableLeaf s.hart s.bus va access with
  | none => exact .refl va s
  | some l =>
    dsimp only
    have hb := updateAd_bus s.bus access l
    rcases hr : updateAd s.bus access l with ⟨r, b⟩
    rw [hr] at hb
    cases r with
    | error _ => exact ⟨rfl, .inl rfl, hb⟩
    | ok _ => exact ⟨rfl, .inr ⟨leafEntry va access l, rfl, rfl⟩, hb⟩

theorem xlate_effect (va : U32) (access : Access) (s : Sys β) :
    XlateEffect va s (xlate va access s).2 := by
  unfold xlate
  split
  · exact .refl va s
  split
  · split
    · exact .refl va s
    split
    · exact .refl va s
    · exact walkFill_effect va access s
  · exact walkFill_effect va access s

/-- The address a walk returns is the one its TLB entry gives. -/
theorem fastPa_of_walkFill {s s' : Sys β} {va pa : U32} {access : Access}
    (ht : s.hart.untranslated access = false) (h : walkFill va access s = (.ok pa, s')) :
    s'.cpu.fastPa va access = some pa := by
  unfold walkFill at h
  cases hu : usableLeaf s.hart s.bus va access with
  | none =>
    rw [hu] at h
    cases h
  | some l =>
    rw [hu] at h
    dsimp only at h
    obtain ⟨-, hok, -⟩ := usableLeaf_eq_some.1 hu
    rcases hr : updateAd s.bus access l with ⟨r, b⟩
    rw [hr] at h
    cases r with
    | error _ => cases h
    | ok _ =>
      cases h
      have hg : (s.cpu.tlb.insert (leafEntry va access l)).get (va >>> 12) =
          some (leafEntry va access l) := Tlb.get_insert_self _ _
      have hd : (access = .write && !(leafEntry va access l).dSet) = false := by
        cases access <;> simp [leafEntry]
      have ht' : ¬ s.cpu.toHart.untranslated access = true := by
        rw [show s.cpu.toHart.untranslated access = false from ht]
        decide
      have hok' : s.cpu.toHart.leafOk access (leafEntry va access l).bits = true := hok
      unfold Cpu.fastPa
      rw [if_neg ht']
      simp only [hg, hd, hok', Bool.not_true, Bool.false_eq_true, if_false]
      exact congrArg some (leafPa_join l rfl)

/-- What a translation returned is granted from then on without a walk. -/
theorem fastPa_of_xlate {s s' : Sys β} {va pa : U32} {access : Access}
    (h : xlate va access s = (.ok pa, s')) : s'.cpu.fastPa va access = some pa := by
  unfold xlate at h
  split at h
  next ht =>
    cases h
    exact if_pos ht
  next ht =>
    have ht' : s.hart.untranslated access = false := by simpa using ht
    cases hg : s.cpu.tlb.get (va >>> 12) with
    | none =>
      rw [hg] at h
      exact fastPa_of_walkFill ht' h
    | some e =>
      rw [hg] at h
      dsimp only at h
      split at h
      · cases h
      next hp =>
        split at h
        next hd =>
          cases h
          unfold Cpu.fastPa
          rw [if_neg (show ¬ s.cpu.toHart.untranslated access = true from ht)]
          simp only [hg]
          rw [if_neg (show ¬ (!s.cpu.toHart.leafOk access e.bits) = true from hp),
            if_neg (by simpa [imp_iff_not_or] using hd)]
        next => exact fastPa_of_walkFill ht' h

/-- The grant of an address depends on its page. -/
theorem fastPa_vpn {c : Cpu} {va va' pa : U32} {access : Access}
    (h : c.fastPa va access = some pa) (hv : va' >>> 12 = va >>> 12) :
    ∃ pa', c.fastPa va' access = some pa' := by
  unfold Cpu.fastPa at h ⊢
  rw [hv]
  split
  · exact ⟨_, rfl⟩
  next ht =>
    rw [if_neg ht] at h
    cases hg : c.tlb.get (va >>> 12) with
    | none =>
      rw [hg] at h
      cases h
    | some e =>
      rw [hg] at h
      dsimp only at h ⊢
      split at h
      · cases h
      next hp =>
        split at h
        · cases h
        next hd =>
          rw [if_neg hp, if_neg hd]
          exact ⟨_, rfl⟩

/-- A TLB change in another slot leaves a grant. -/
theorem fastPa_insert {c : Cpu} {va pa : U32} {access : Access} {e : TlbEntry}
    (h : c.fastPa va access = some pa) (hs : Tlb.slot (va >>> 12) ≠ Tlb.slot e.vpn) :
    Cpu.fastPa { c with tlb := c.tlb.insert e } va access = some pa := by
  have hg : (c.tlb.insert e).get (va >>> 12) = c.tlb.get (va >>> 12) := by
    simp only [Tlb.get, Tlb.insert, setAt_of_ne _ _ hs]
  unfold Cpu.fastPa at h ⊢
  simp only [hg]
  exact h

/-- Translating an address of the same page, or of a page with another slot, leaves a grant. -/
theorem fastPa_xlate {s : Sys β} {va va' pa : U32} {access : Access}
    (h : s.cpu.fastPa va access = some pa)
    (hv : va' >>> 12 = va >>> 12 ∨ Tlb.slot (va >>> 12) ≠ Tlb.slot (va' >>> 12)) :
    (xlate va' access s).2.cpu.fastPa va access = some pa := by
  rcases hv with hv | hs
  · obtain ⟨pa', hpa'⟩ := fastPa_vpn h hv
    rw [xlate_of_fastPa hpa']
    exact h
  · have heff := xlate_effect va' access s
    rcases hx : (xlate va' access s).2 with ⟨⟨hart, tlb⟩, b⟩
    rw [hx] at heff
    have hh : hart = s.cpu.toHart := heff.hart
    rcases heff.tlb with ht | ⟨e, he, ht⟩
    · have hc : (⟨hart, tlb⟩ : Cpu) = s.cpu := by
        rw [hh, show tlb = s.cpu.tlb from ht]
      rw [hc]
      exact h
    · have hc : (⟨hart, tlb⟩ : Cpu) = { s.cpu with tlb := s.cpu.tlb.insert e } := by
        rw [hh, show tlb = _ from ht]
      rw [hc]
      exact fastPa_insert h (by rwa [he])

/-- The pages of two bytes of one access are the same or have different slots. -/
theorem neighbours (va : U32) {i j : Nat} (hi : i < 4) (hj : j < 4) :
    (va + BitVec.ofNat 32 j) >>> 12 = (va + BitVec.ofNat 32 i) >>> 12 ∨
      Tlb.slot ((va + BitVec.ofNat 32 i) >>> 12) ≠ Tlb.slot ((va + BitVec.ofNat 32 j) >>> 12) := by
  have hvpn : ∀ {k : Nat}, k < 4 → ((va + BitVec.ofNat 32 k) >>> 12).toNat =
      (va.toNat + k) % 2 ^ 32 / 4096 := by
    intro k hk
    rw [BitVec.toNat_ushiftRight, BitVec.toNat_add, BitVec.toNat_ofNat, Nat.shiftRight_eq_div_pow,
      Nat.mod_eq_of_lt (show k < 2 ^ 32 by omega)]
  by_cases h : (va + BitVec.ofNat 32 j) >>> 12 = (va + BitVec.ofNat 32 i) >>> 12
  · exact .inl h
  · refine .inr fun hs => h (BitVec.eq_of_toNat_eq ?_)
    simp only [Tlb.slot, TLB_SIZE, hvpn hi, hvpn hj] at hs ⊢
    have := va.isLt
    omega

end

end FuzzSoft
