import FuzzSoft.Mmu.Access
import FuzzSoft.Riscv.Coherent
import FuzzSoft.Platform.Machine

/-!
# Page tables in RAM and in devices

The buses of the emulator obey the laws of the page walk (`PteLaws`): the flat memory, the
copy-on-write view, and a machine over either, where a page-table word may also fall on a device
register. So the TLB is transparent over each of them.
-/

namespace FuzzSoft

open Lib

section
variable {β : Type} [Bus β]

/-- An entry is read where the bus loads a word. -/
theorem loadPte_eq_some {b : β} {w v : U32} : loadPte b w = some v ↔ Bus.load b w 4 = .ok v := by
  unfold loadPte
  cases Bus.load b w 4 <;> simp [Except.toOption]

end

/-! ## The flat memory -/

namespace Mmu

/-- A store changes no byte outside its span. -/
theorem store_frame (m : Mmu) (a : U32) (size : Nat) (v : U32) {o : Nat}
    (ho : m.base.toNat + o < a.toNat ∨ a.toNat + width size ≤ m.base.toNat + o) :
    (m.store a size v).2.mem o = m.mem o ∧ (m.store a size v).2.perms o = m.perms o := by
  obtain ⟨k, hk, hin, hpl, -⟩ := m.store_prefixed a size v
  rw [hpl.mem, hpl.perms]
  rcases Nat.eq_zero_or_pos k with rfl | hk0
  · simp
  · obtain ⟨-, hb, -⟩ := hin (by omega)
    have hlen : ((leBytes v (width size)).take k).length = k := by
      rw [List.length_take, length_leBytes]
      omega
    simp only [wrote, hlen]
    rcases ho with ho | ho
    · exact ⟨setSpan_of_lt _ _ (by omega), if_neg (by omega)⟩
    · exact ⟨setSpan_of_ge _ _ (by omega), if_neg (by omega)⟩

/-- A store keeps the window. -/
theorem store_base (m : Mmu) (a : U32) (size : Nat) (v : U32) :
    (m.store a size v).2.base = m.base ∧ (m.store a size v).2.size = m.size := by
  obtain ⟨k, -, -, hpl, -⟩ := m.store_prefixed a size v
  exact ⟨hpl.base, hpl.size⟩

/-- A store leaves every aligned word that its span does not meet. -/
theorem loadPte_store (m : Mmu) (a : U32) (size : Nat) (v : U32) {w : U32} (hw : w.toNat % 4 = 0)
    (hd : w.toNat + 4 ≤ a.toNat ∨ a.toNat + width size ≤ w.toNat) :
    loadPte (m.store a size v).2 w = loadPte m w := by
  obtain ⟨hb, hs⟩ := m.store_base a size v
  have hplane : ∀ {off i : Nat}, m.base.toNat + off = w.toNat → i < 4 →
      (m.store a size v).2.mem (off + i) = m.mem (off + i) ∧
        (m.store a size v).2.perms (off + i) = m.perms (off + i) := fun ho hi =>
    m.store_frame a size v (by omega)
  apply Option.ext
  intro q
  rw [loadPte_eq_some, loadPte_eq_some]
  refine (loadWord_iff hw).trans (Iff.trans ?_ (loadWord_iff hw).symm)
  rw [hb, hs]
  refine exists_congr fun off => and_congr_right fun ho => and_congr_right fun _ => ?_
  rw [readSpan_congr fun i hi => (hplane ho hi).1]
  exact and_congr_left fun _ => forall₂_congr fun i hi => by rw [(hplane ho hi).2]

/-- A store that meets no reachable page-table word leaves them all untouched. -/
theorem untouched_of_disjoint (m : Mmu) (a : U32) (size : Nat) (v : U32) {satp : U32}
    (hd : ∀ w, Reach (loadPte m) satp w → w.toNat + 4 ≤ a.toNat ∨ a.toNat + width size ≤ w.toNat) :
    Untouched satp m (m.store a size v).2 := fun w hw => m.loadPte_store a size v hw.aligned (hd w hw)

end Mmu

/-- The accessed and dirty bits are in byte 0. -/
theorem byte_withAd (access : Access) (pte : U32) {i : Nat} (hi : 1 ≤ i) :
    (withAd access pte >>> (8 * i)).setWidth 8 = (pte >>> (8 * i)).setWidth 8 := by
  apply BitVec.eq_of_getLsbD_eq
  intro j hj
  simp only [BitVec.getLsbD_setWidth, BitVec.getLsbD_ushiftRight]
  by_cases hb : 8 * i + j < 32
  · rw [withAd_getLsbD access pte hb]
    simp [show 8 * i + j ≠ 6 by omega, show 8 * i + j ≠ 7 by omega]
  · rw [BitVec.getLsbD_of_ge (withAd access pte) _ (by omega),
      BitVec.getLsbD_of_ge pte _ (by omega)]

/-- What was written may be read. -/
theorem writtenPerm_read (p : U8) : writtenPerm p &&& PERM_READ ≠ 0 := by
  revert p
  decide

namespace Mmu

/-- The bytes of a write-back differ from those in place in the first one only, so a prefix of them
leaves the old word or the new one. -/
theorem loadPte_writeBack {m : Mmu} {w pte : U32} (h : LeafWord m w pte) (access : Access) :
    (loadPte (m.store w 4 (withAd access pte)).2 w = some pte ∧
      (m.store w 4 (withAd access pte)).1 ≠ .ok ()) ∨
    loadPte (m.store w 4 (withAd access pte)).2 w = some (withAd access pte) := by
  obtain ⟨k, hk, -, hpl, hok⟩ := m.store_prefixed w 4 (withAd access pte)
  obtain ⟨off, ho, hs, hp, hv⟩ := (loadWord_iff h.aligned).1 (loadPte_eq_some.1 h.load)
  rw [show w.toNat - m.base.toNat = off by omega] at hpl
  have hload : ∀ {q}, leValue (readSpan (m.store w 4 (withAd access pte)).2.mem off 4) = q →
      loadPte (m.store w 4 (withAd access pte)).2 w = some q := by
    intro q hq
    refine loadPte_eq_some.2 ((loadWord_iff h.aligned).2 ⟨off, ?_, ?_, fun i hi => ?_, hq⟩)
    · rw [hpl.base]
      exact ho
    · rw [hpl.size]
      exact hs
    · rw [hpl.perms]
      simp only [wrote, mapSpan]
      split
      · exact writtenPerm_read _
      · exact hp i hi
  rcases Nat.eq_zero_or_pos k with rfl | hk0
  · refine .inl ⟨hload ?_, fun hc => absurd (hok.1 hc) (by decide)⟩
    rw [hpl.mem]
    simpa using hv
  · refine .inr (hload ((congrArg leValue ?_).trans (leValue_leBytes _)))
    rw [hpl.mem]
    let byte : Nat → U8 := fun j => (withAd access pte >>> (8 * j)).setWidth 8
    have hbyte : ∀ i < 4, (m.wrote off ((leBytes (withAd access pte) (width 4)).take k)).mem
        (off + i) = byte (0 + i) := by
      intro i hi
      have hold : m.mem (off + i) = (pte >>> (8 * i)).setWidth 8 := by
        rw [← hv, byte_leValue (length_readSpan _ _ _) hi]
        rcases i with _ | _ | _ | _ | i
        case succ.succ.succ.succ => omega
        all_goals rfl
      simp only [wrote, setSpan, Nat.le_add_right, if_true, Nat.add_sub_cancel_left, hold,
        List.getElem?_take, Nat.zero_add, byte]
      by_cases hik : i < k
      · have hi' : i < (leBytes (withAd access pte) (width 4)).length := by
          rw [length_leBytes]
          exact hi
        rw [if_pos hik, List.getElem?_eq_getElem hi']
        simp [leBytes]
      · rw [if_neg hik]
        exact (byte_withAd access pte (by omega)).symm
    exact (readSpan_congr hbyte : _ = readSpan byte 0 4)

/-- A flat memory keeps page-table words as the walks expect. -/
theorem pteLaws : PteLaws Mmu fun _ => True where
  inv _ _ _ _ := trivial
  other {b w pte w'} _ h access ha hne := by
    refine b.loadPte_store w 4 _ ha ?_
    have h1 := h.aligned
    have h2 : w'.toNat ≠ w.toNat := fun e => hne (BitVec.eq_of_toNat_eq e)
    simp only [width]
    omega
  self _ h access := (loadPte_writeBack h access).imp_left And.left
  ok _ h access hok := .inl ((loadPte_writeBack h access).resolve_left fun hc => hc.2 hok)

/-- No word of it ignores a store. -/
theorem not_inert (w : U32) : ¬ Inert Mmu w := by
  intro h
  have hb := h (Mmu.new 0 0) 0
  obtain ⟨k, -, hin, -, hok⟩ := (Mmu.new 0 0).store_prefixed w 4 0
  have hk : k = 4 := hok.1 (congrArg Prod.fst hb)
  have := (hin (by omega)).2.2
  simp only [Mmu.new] at this
  omega

end Mmu

/-! ## The copy-on-write view -/

namespace CowRam

/-- The flat memory a view shows. -/
def flat (c : CowRam) : Mmu :=
  { Mmu.new c.golden.base c.golden.size with mem := c.memAt, perms := c.permOf }

/-- A copy-on-write memory agrees with its flat view. -/
theorem Inv.agree_flat {c : CowRam} (h : c.Inv) : Agree c.flat c where
  inv := h
  base := rfl
  size := rfl
  mem _ := rfl
  perms _ := rfl

end CowRam

/-- Agreeing memories have the same entries. -/
theorem Agree.loadPte {m : Mmu} {c : CowRam} (h : Agree m c) (w : U32) :
    loadPte c w = loadPte m w :=
  congrArg Except.toOption (h.load w 4)

/-- So have they the same leaves. -/
theorem Agree.leafWord {m : Mmu} {c : CowRam} (h : Agree m c) {w pte : U32}
    (hw : LeafWord c w pte) : LeafWord m w pte :=
  { hw with load := (h.loadPte w).symm.trans hw.load }

namespace CowRam

/-- The copy-on-write memory keeps page-table words as well. -/
theorem pteLaws : PteLaws CowRam Inv where
  inv h a n v := (h.agree_flat.store a v n).2.inv
  other {b w pte w'} h hw access ha hne := by
    have hs := (h.agree_flat.store w (withAd access pte) 4).2
    rw [h.agree_flat.loadPte]
    exact (hs.loadPte w').trans (Mmu.pteLaws.other trivial (h.agree_flat.leafWord hw) access ha hne)
  self {b w pte} h hw access := by
    have hs := (h.agree_flat.store w (withAd access pte) 4).2
    rw [show loadPte (Bus.store b w 4 (withAd access pte)).2 w = _ from hs.loadPte w]
    exact Mmu.pteLaws.self trivial (h.agree_flat.leafWord hw) access
  ok {b w pte} h hw access hok := by
    have hs := h.agree_flat.store w (withAd access pte) 4
    rw [show loadPte (Bus.store b w 4 (withAd access pte)).2 w = _ from hs.2.loadPte w]
    have hl := Mmu.pteLaws.ok trivial (h.agree_flat.leafWord hw) access (hs.1.symm.trans hok)
    exact .inl (hl.resolve_right (Mmu.not_inert w))

/-- No word of it ignores a store. -/
theorem not_inert (w : U32) : ¬ Inert CowRam w := by
  intro h
  obtain ⟨k, -, hin, -, hok⟩ := (Mmu.new 0 0).store_prefixed w 4 0
  have hs := (agree_new (Mmu.new 0 0)).store w 0 4
  have hk : k = 4 := hok.1 (hs.1.symm.trans (congrArg Prod.fst (h _ 0)))
  have := (hin (by omega)).2.2
  simp only [Mmu.new] at this
  omega

end CowRam

/-! ## A machine -/

/-- Neither bit 1 nor bit 3 is set in a word of one bit, so it is no leaf. -/
theorem pteLeaf_and_one (v : U32) : pteLeaf (v &&& 1) = false := by
  simp only [pteLeaf, pteBit_eq, BitVec.getLsbD_and]
  simp

/-- All bits set stay all bits set. -/
theorem withAd_allOnes (access : Access) : withAd access (BitVec.allOnes 32) = BitVec.allOnes 32 := by
  cases access <;> decide

namespace Clint

/-- The bits of a half of a register. -/
theorem half_getLsbD (v : U64) (hi : Bool) {i : Nat} (hi32 : i < 32) :
    (half v hi).getLsbD i = v.getLsbD (if hi then 32 + i else i) := by
  cases hi <;> simp [half, hi32]

/-- The bits of a register with a new half. -/
theorem setHalf_getLsbD (v : U64) (hi : Bool) (val : U32) {j : Nat} (hj : j < 64) :
    (setHalf v hi val).getLsbD j =
      if (32 ≤ j) = hi then val.getLsbD (if hi then j - 32 else j) else v.getLsbD j := by
  have hlo : (0xffffffff#64).getLsbD j = decide (j < 32) := by
    revert j
    decide
  have hhi : (0xffffffff00000000#64).getLsbD j = decide (32 ≤ j) := by
    revert j
    decide
  cases hi with
  | false =>
    by_cases h : 32 ≤ j
    · simp only [setHalf, Bool.false_eq_true, if_false, BitVec.getLsbD_or, BitVec.getLsbD_and, hhi]
      simp [h]
    · simp only [setHalf, Bool.false_eq_true, if_false, BitVec.getLsbD_or, BitVec.getLsbD_and, hhi]
      simp [h, hj]
  | true =>
    by_cases h : 32 ≤ j
    · simp only [setHalf, if_true, BitVec.getLsbD_or, BitVec.getLsbD_and, hlo]
      simp [h, hj, show ¬ j < 32 by omega]
    · simp only [setHalf, if_true, BitVec.getLsbD_or, BitVec.getLsbD_and, hlo]
      simp [h, show j < 32 by omega]

/-- A half that was written reads back. -/
theorem half_setHalf (v : U64) (hi : Bool) (val : U32) : half (setHalf v hi val) hi = val := by
  apply BitVec.eq_of_getLsbD_eq
  intro i hi'
  rw [half_getLsbD _ _ hi', setHalf_getLsbD _ _ _ (by split <;> omega)]
  cases hi <;> simp [hi']

/-- The other half stays. -/
theorem half_setHalf_ne (v : U64) {hi hi' : Bool} (h : hi' ≠ hi) (val : U32) :
    half (setHalf v hi val) hi' = half v hi' := by
  apply BitVec.eq_of_getLsbD_eq
  intro i hi32
  rw [half_getLsbD _ _ hi32, half_getLsbD _ _ hi32, setHalf_getLsbD _ _ _ (by split <;> omega)]
  cases hi <;> cases hi' <;> simp_all

/-- An aligned offset of the extra compare window is told by its index and its half. -/
theorem cmp_inj {off off' : U32} (h : inCmpExtra off = true) (h' : inCmpExtra off' = true)
    (ha : off.toNat % 4 = 0) (ha' : off'.toNat % 4 = 0) (hi : cmpIdx off' = cmpIdx off)
    (hh : cmpHi off' = cmpHi off) : off' = off := by
  have hsub : ∀ {o : U32}, inCmpExtra o = true →
      (o - CLINT_MTIMECMP).toNat = o.toNat - 0x4000 ∧ 0x4008 ≤ o.toNat := by
    intro o ho
    simp only [inCmpExtra, Bool.and_eq_true, decide_eq_true_eq, BitVec.le_def] at ho
    have hle : 0x4008 ≤ o.toNat := ho.1
    refine ⟨BitVec.toNat_sub_of_le (BitVec.le_def.2 ?_), hle⟩
    exact Nat.le_trans (by decide) hle
  obtain ⟨h1, h2⟩ := hsub h
  obtain ⟨h1', h2'⟩ := hsub h'
  simp only [cmpIdx, h1, h1'] at hi
  simp only [cmpHi, h1, h1', ne_eq, decide_not, Bool.not_eq_eq_eq_not, Bool.not_not,
    decide_eq_decide] at hh
  apply BitVec.eq_of_toNat_eq
  omega

/-- Different words of the extra `msip` range are different registers. -/
theorem msip_inj {off off' : U32} (h : inMsipExtra off = true) (h' : inMsipExtra off' = true)
    (hi : msipIdx off' = msipIdx off) : off' = off := by
  have hsub : ∀ {o : U32}, inMsipExtra o = true →
      (o - CLINT_MSIP).toNat = o.toNat ∧ 4 ≤ o.toNat ∧ o.toNat % 4 = 0 := by
    intro o ho
    simp only [inMsipExtra, CLINT_MSIP, Bool.and_eq_true, decide_eq_true_eq, BitVec.le_def] at ho
    have hle : 4 ≤ o.toNat := ho.1.1
    simpa [CLINT_MSIP, hle] using ho.2
  obtain ⟨h1, h2, h3⟩ := hsub h
  obtain ⟨h1', h2', h3'⟩ := hsub h'
  simp only [msipIdx, h1, h1'] at hi
  apply BitVec.eq_of_toNat_eq
  omega

/-- A store to one aligned register word leaves the others. -/
theorem load_store_ne (c : Clint) {off off' : U32} (val : U32) (ha : off.toNat % 4 = 0)
    (ha' : off'.toNat % 4 = 0) (hne : off' ≠ off) : (c.store off val).load off' = c.load off' := by
  have hlo := half_setHalf_ne c.mtimecmp (show true ≠ false by decide) val
  have hhi := half_setHalf_ne c.mtimecmp (show false ≠ true by decide) val
  unfold store
  split
  next h => simp only [load, h ▸ hne, if_false]
  split
  next h => simp only [load, h ▸ hne, if_false, hlo]
  split
  next h => simp only [load, h ▸ hne, if_false, hhi]
  split
  next h =>
    unfold load
    cases hm : inMsipExtra off' with
    | false => rfl
    | true => rw [List.getElem?_set_ne fun hi => hne (msip_inj h hm hi.symm)]
  split
  next h =>
    unfold load
    cases hm : inMsipExtra off' with
    | true => rfl
    | false =>
      cases hc : inCmpExtra off' with
      | false => rfl
      | true =>
        -- another register, or the other half of this one
        rw [List.getElem?_modify]
        by_cases hi : cmpIdx off = cmpIdx off'
        · have hh : cmpHi off' ≠ cmpHi off := fun hh => hne (cmp_inj h hc ha ha' hi.symm hh)
          simp only [hi, if_true]
          cases c.mtimecmpExtra[cmpIdx off']? with
          | none => rfl
          | some v =>
            simp only [Option.map_eq_map, Option.map_some, Option.getD_some, half_setHalf_ne v hh]
        · simp only [hi, if_false, Option.map_eq_map, id_eq, Option.map_id_fun']
  next => rfl

/-- What a store leaves in a register that looked like a leaf: the value, unless the register is
`mtime` or is one that does not exist and reads as all ones. -/
theorem load_store_self (c : Clint) {off : U32} (val : U32) (hl : pteLeaf (c.load off) = true) :
    (c.store off val).load off = val ∨ (∀ (c' : Clint) v, c'.store off v = c') ∨
      (c.load off = BitVec.allOnes 32 ∧ c.store off val = c) := by
  unfold load at hl
  split at hl
  · rw [pteLeaf_and_one] at hl
    cases hl
  split at hl
  next h =>
    subst h
    exact .inl (half_setHalf c.mtimecmp false val)
  split at hl
  next h =>
    subst h
    exact .inl (half_setHalf c.mtimecmp true val)
  split at hl
  next h =>
    subst h
    exact .inr (.inl fun _ _ => rfl)
  split at hl
  next h =>
    subst h
    exact .inr (.inl fun _ _ => rfl)
  split at hl
  · rw [pteLeaf_and_one] at hl
    cases hl
  split at hl
  next h1 h2 h3 h4 h5 h6 h7 =>
    simp only [load, store, h1, h2, h3, h4, h5, h6, h7, if_false, if_true, Bool.false_eq_true,
      List.getElem?_modify]
    cases hx : c.mtimecmpExtra[cmpIdx off]? with
    | some v =>
      refine .inl ?_
      simp only [Option.map_eq_map, Option.map_some, Option.getD_some, half_setHalf]
    | none =>
      refine .inr (.inr ⟨?_, ?_⟩)
      · rw [Option.getD_none]
        cases cmpHi off <;> decide
      · have hlen : c.mtimecmpExtra.length ≤ cmpIdx off := List.getElem?_eq_none_iff.1 hx
        rw [List.modify_eq_self hlen]
  · cases hl

end Clint

namespace MachineOf

section
variable {ρ : Type} [Bus ρ]

/-- Where the machine reads an entry: the device it hits, or RAM. -/
theorem loadPte_eq (m : MachineOf ρ) (w : U32) :
    loadPte m w =
      if inClint w then some (m.clint.load (w - CLINT_BASE))
      else if inUart w then some (Uart.load (w - UART_BASE))
      else if m.inRam w then FuzzSoft.loadPte m.ram w
      else none := by
  show (m.load w 4).toOption = _
  unfold load
  split
  · rfl
  split
  · rfl
  split <;> rfl

/-- The line status is no valid entry. -/
theorem uart_invalid (off : U32) : pteInvalid (Uart.load off) = true := by
  unfold Uart.load
  split <;> decide

/-- An aligned address is an aligned register. -/
theorem clint_aligned {w : U32} (h : w.toNat % 4 = 0) : (w - CLINT_BASE).toNat % 4 = 0 := by
  rw [BitVec.toNat_sub, show CLINT_BASE.toNat = 0x02000000 from rfl]
  omega

/-- Where a leaf word can stand: in the CLINT, or in RAM. -/
theorem leafWord_cases {m : MachineOf ρ} {w pte : U32} (h : LeafWord m w pte) :
    (inClint w = true ∧ m.clint.load (w - CLINT_BASE) = pte) ∨
      (inClint w = false ∧ inUart w = false ∧ m.inRam w = true ∧ LeafWord m.ram w pte) := by
  have hl := h.load
  rw [loadPte_eq] at hl
  split at hl
  next hc => exact .inl ⟨hc, Option.some.inj hl⟩
  next hc =>
  split at hl
  next =>
    have hv := h.valid
    rw [← Option.some.inj hl, uart_invalid] at hv
    cases hv
  next hu =>
  split at hl
  next hr =>
    exact .inr ⟨by simpa using hc, by simpa using hu, hr, { h with load := hl }⟩
  next => cases hl

/-- A store to the CLINT. -/
theorem store_clint {m : MachineOf ρ} {w : U32} (h : inClint w = true) (n : Nat) (v : U32) :
    Bus.store m w n v = (.ok (), { m with clint := m.clint.store (w - CLINT_BASE) v }) := by
  show m.store w n v = _
  rw [store, if_pos h]

/-- A store to RAM. -/
theorem store_ram {m : MachineOf ρ} {w : U32} (hc : inClint w = false) (hu : inUart w = false)
    (hr : m.inRam w = true) (n : Nat) (v : U32) :
    Bus.store m w n v = ((Bus.store m.ram w n v).1, { m with ram := (Bus.store m.ram w n v).2 }) := by
  show m.store w n v = _
  rw [store, hc, hu, if_neg (by decide), if_neg (by decide), if_pos hr]

/-- An entry of RAM after a store to RAM. -/
theorem loadPte_store_ram {m : MachineOf ρ} {w : U32} (hc : inClint w = false)
    (hu : inUart w = false) (hr : m.inRam w = true) (n : Nat) (v : U32) :
    loadPte (Bus.store m w n v).2 w = loadPte (Bus.store m.ram w n v).2 w := by
  have hr' : (Bus.store m w n v).2.inRam w = true := by
    rw [store_ram hc hu hr]
    exact hr
  rw [loadPte_eq, hc, hu, if_neg (by decide), if_neg (by decide), if_pos hr', store_ram hc hu hr]

variable {J : ρ → Prop}

/-- A machine whose RAM obeys the laws of the page walk obeys them, devices included. -/
theorem pteLaws (hL : PteLaws ρ J) (hn : ∀ w, ¬ Inert ρ w) :
    PteLaws (MachineOf ρ) fun m => J m.ram where
  inv {m} h a n v := by
    show J (m.store a n v).2.ram
    unfold store
    split
    · exact h
    split
    · exact h
    split
    · exact hL.inv h _ _ _
    · exact h
  other {m w pte w'} h hw access ha hne := by
    rcases leafWord_cases hw with ⟨hc, -⟩ | ⟨hc, hu, hr, hw'⟩
    · rw [store_clint hc, loadPte_eq, loadPte_eq]
      have hoff : w' - CLINT_BASE ≠ w - CLINT_BASE := fun e => hne (by
        have := congrArg (· + CLINT_BASE) e
        simpa using this)
      rw [Clint.load_store_ne _ _ (clint_aligned hw.aligned) (clint_aligned ha) hoff]
      rfl
    · rw [store_ram hc hu hr, loadPte_eq, loadPte_eq]
      simp only [hL.other h hw' access ha hne]
      rfl
  self {m w pte} h hw access := by
    rcases leafWord_cases hw with ⟨hc, hp⟩ | ⟨hc, hu, hr, hw'⟩
    · rw [store_clint hc, loadPte_eq, if_pos hc]
      rcases m.clint.load_store_self (withAd access pte) (hp ▸ hw.leaf) with h1 | h1 | ⟨-, h1⟩
      · exact .inr (congrArg some h1)
      · exact .inl (by rw [h1, hp])
      · exact .inl (by rw [h1, hp])
    · rw [loadPte_store_ram hc hu hr]
      exact hL.self h hw' access
  ok {m w pte} h hw access hok := by
    rcases leafWord_cases hw with ⟨hc, hp⟩ | ⟨hc, hu, hr, hw'⟩
    · rw [store_clint hc, loadPte_eq, if_pos hc]
      rcases m.clint.load_store_self (withAd access pte) (hp ▸ hw.leaf) with h1 | h1 | ⟨h1, h2⟩
      · exact .inl (congrArg some h1)
      · exact .inr fun m' v => by rw [store_clint hc, h1]
      · rw [hp] at h1
        refine .inl ?_
        rw [h2, hp, h1, withAd_allOnes]
    · rw [store_ram hc hu hr] at hok
      rw [loadPte_store_ram hc hu hr]
      exact .inl ((hL.ok h hw' access hok).resolve_right (hn w))

end

end MachineOf

/-! ## Transparency -/

/-- The software TLB is transparent over plain RAM, over a machine and over a copy-on-write machine;
and what the TLB grants without a walk is what `xlate` returns, over any bus. -/
theorem tlb_transparent : TlbTransparent Mmu (fun _ => True) ∧
    TlbTransparent Machine (fun _ => True) ∧ TlbTransparent CowMachine (fun m => m.ram.Inv) ∧
    ∀ (β : Type) [Bus β] (s : Sys β) (va pa : U32) (access : Access),
      s.cpu.fastPa va access = some pa → xlate va access s = (.ok pa, s) :=
  ⟨Mmu.pteLaws.transparent, (MachineOf.pteLaws Mmu.pteLaws Mmu.not_inert).transparent,
    (MachineOf.pteLaws CowRam.pteLaws CowRam.not_inert).transparent,
    fun _ _ _ _ _ _ h => xlate_of_fastPa h⟩

/-- A supervisor hart over eight KiB of RAM at 0 whose root table, in the first page, maps the
4 MiB from virtual 0 by one superpage, neither accessed nor dirty. -/
def superpageSys : Sys Mmu where
  cpu := { Cpu.new 0 with
    privilege := .s
    csr := { Csr.default with satp := 0x80000000 } }
  bus := { Mmu.new 0 8192 with
    mem := setAt (fun _ => 0) 0 0x0f
    perms := fun _ => PERM_READ ||| PERM_WRITE }

/-- All the page-table words that a walk of `superpageSys` reads are in the root table. -/
theorem superpageSys_reach {w : U32} (h : Reach (loadPte superpageSys.bus) 0x80000000 w) :
    w.toNat + 4 ≤ 0x1000 := by
  cases h with
  | root va =>
    have hi : ((va >>> 22) &&& 0x3ff).toNat ≤ 0x3ff := by
      rw [BitVec.toNat_and]
      exact Nat.and_le_right
    rw [pteAddr1, show rootTable 0x80000000 = 0#32 by decide, BitVec.zero_add, BitVec.toNat_mul]
    simp only [show (4 : U32).toNat = 4 from rfl]
    omega
  | @inner va pte hp hv hl =>
    -- the first word is a leaf, and every other one is zero
    obtain ⟨off, -, -, -, rfl⟩ := (Mmu.loadWord_iff (pteAddr1_aligned _ va)).1
      (loadPte_eq_some.1 hp)
    rcases Nat.eq_zero_or_pos off with rfl | hpos
    · exact absurd hl (by decide)
    · have hz : ∀ i, superpageSys.bus.mem (off + i) = 0 := fun i =>
        setAt_of_ne (fun _ => 0) (0x0f : U8) (show off + i ≠ 0 by omega)
      have hspan : readSpan superpageSys.bus.mem off 4 = [0, 0, 0, 0] := by
        simp only [readSpan, Nat.add_assoc, hz, show superpageSys.bus.mem off = 0 from hz 0]
      rw [hspan] at hv
      exact absurd hv (by decide)

/-- A store outside the root table, a read, a write that finds the D bit clear, and the write again:
the walks set A and D in the table, and the last translation is granted without a walk. -/
theorem tlb_transparent_superpage :
    let ops := [.store 0x1000 4 7, .xlate 0x1000 .read, .xlate 0x1000 .write, .xlate 0x1004 .write]
    (run tlbStep superpageSys ops).1 = (run walkStep superpageSys ops).1 ∧
      (run tlbStep superpageSys ops).2.bus = (run walkStep superpageSys ops).2.bus ∧
      xlate 0x1008 .write (run tlbStep superpageSys ops).2 =
        (.ok 0x1008, (run tlbStep superpageSys ops).2) := by
  intro ops
  have hclear : Along walkStep NoTouch superpageSys ops := by
    refine ⟨?_, trivial, trivial, trivial, trivial⟩
    exact Mmu.untouched_of_disjoint _ 0x1000 4 7 fun w hw => .inl (superpageSys_reach hw)
  obtain ⟨hmmu, -, -, hfast⟩ := tlb_transparent
  obtain ⟨houts, hbus, -⟩ := hmmu superpageSys rfl trivial ops hclear
  exact ⟨houts, hbus, hfast Mmu _ _ _ _ (by decide)⟩

end FuzzSoft
