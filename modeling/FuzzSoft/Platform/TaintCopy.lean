import FuzzSoft.Platform.Shadow
import FuzzSoft.Platform.TrapValue
import FuzzSoft.Riscv.TaintBytes

/-!
# Taint is copied by stores

A store writes its bytes, and with KMSAN on the taint of the stored register is then scattered over
them. Both parts translate the same addresses, so a load of the span gathers just what was scattered,
and no other byte of RAM changes its taint but those of page-table entries that the walk writes back.
A store-conditional that succeeds stores without a scatter, so its bytes keep the copy mark of what
was there before (`stores_copy_taint_iff`).
-/

namespace FuzzSoft

open Lib

/-! ## Spans of addresses -/

/-- The bytes of a span. -/
theorem inSpan_iff {q pa : U32} {n : Nat} (hn : n ≤ 4) :
    InSpan q pa n ↔ ∃ i < n, pa + BitVec.ofNat 32 i = q := by
  unfold InSpan
  constructor
  · intro h
    refine ⟨(q - pa).toNat, h, ?_⟩
    rw [BitVec.ofNat_toNat, BitVec.setWidth_eq, BitVec.add_comm, BitVec.sub_add_cancel]
  · rintro ⟨i, hi, rfl⟩
    rw [BitVec.add_comm, BitVec.add_sub_cancel, BitVec.toNat_ofNat]
    omega

/-- A span of one byte. -/
theorem inSpan_one {q pa : U32} : InSpan q pa 1 ↔ pa = q := by
  rw [inSpan_iff (by decide)]
  constructor
  · rintro ⟨i, hi, rfl⟩
    obtain rfl : i = 0 := by omega
    exact (BitVec.add_zero pa).symm
  · rintro rfl
    exact ⟨0, Nat.one_pos, BitVec.add_zero pa⟩

/-! ## What a store does to the taint of RAM -/

section
variable {β : Type} [Bus β] [RamBus β] [TaintRam β]

/-- What a store leaves of the taint of RAM: the bytes of its span are initialised, and outside of it
only write-backs to the entries `ad` initialise bytes. No copy mark changes. -/
structure StoreEffect (b b' : β) (span ad : U32 → Prop) : Prop where
  ok : RamBus.Ok b'
  backed : TaintRam.backed b' = TaintRam.backed b
  whole : TaintRam.whole b' = TaintRam.whole b
  isSome : ∀ q, (RamBus.cells b' q).isSome = (RamBus.cells b q).isSome
  vtaint : ∀ q, (RamBus.cells b').has PERM_VTAINT q = (RamBus.cells b).has PERM_VTAINT q
  clean : ∀ q, span q → (RamBus.cells b').has PERM_RAW q = false
  down : ∀ q, (RamBus.cells b).has PERM_RAW q = false → (RamBus.cells b').has PERM_RAW q = false
  frame : ∀ q, ¬ span q → ¬ ad q →
    (RamBus.cells b').has PERM_RAW q = (RamBus.cells b).has PERM_RAW q

namespace StoreEffect

variable {b b' b'' : β} {span span' ad ad' : U32 → Prop}

/-- Nothing is stored. -/
theorem refl (h : RamBus.Ok b) : StoreEffect b b (fun _ => False) ad where
  ok := h
  backed := rfl
  whole := rfl
  isSome _ := rfl
  vtaint _ := rfl
  clean _ h := h.elim
  down _ h := h
  frame _ _ _ := rfl

/-- Two stores, one after the other. -/
theorem trans (h : StoreEffect b b' span ad) (h' : StoreEffect b' b'' span' ad') :
    StoreEffect b b'' (fun q => span q ∨ span' q) (fun q => ad q ∨ ad' q) where
  ok := h'.ok
  backed := h'.backed.trans h.backed
  whole := h'.whole.trans h.whole
  isSome q := (h'.isSome q).trans (h.isSome q)
  vtaint q := (h'.vtaint q).trans (h.vtaint q)
  clean q hq := by
    rcases hq with hq | hq
    · exact h'.down q (h.clean q hq)
    · exact h'.clean q hq
  down q hq := h'.down q (h.down q hq)
  frame q hs ha := by
    obtain ⟨hs, hs'⟩ := not_or.1 hs
    obtain ⟨ha, ha'⟩ := not_or.1 ha
    exact (h'.frame q hs' ha').trans (h.frame q hs ha)

/-- The page-table words may be more. -/
theorem mono (h : StoreEffect b b' span ad) (hs : ∀ q, span' q ↔ span q) (ha : ∀ q, ad q → ad' q) :
    StoreEffect b b' span' ad' where
  ok := h.ok
  backed := h.backed
  whole := h.whole
  isSome := h.isSome
  vtaint := h.vtaint
  clean q hq := h.clean q ((hs q).1 hq)
  down := h.down
  frame q hq hna := h.frame q (mt (hs q).2 hq) fun haq => hna (ha q haq)

end StoreEffect

/-- A store that went to RAM initialises its span. -/
theorem storeEffect_span {b : β} {pa v : U32} {n : Nat} (h : RamBus.Ok b) (hn : AccessSize n)
    (hok : (Bus.store b pa n v).1 = .ok ()) (hb : TaintRam.backed b pa = true) :
    StoreEffect b (Bus.store b pa n v).2 (InSpan · pa n) (fun _ => False) := by
  obtain ⟨-, -, hc⟩ := TaintRam.store_backed h hn hok hb
  obtain ⟨hsame, hwhole⟩ := TaintRam.store_same b pa n v
  refine ⟨RamBus.store_ok h pa n v, hsame, hwhole, ?_, ?_, ?_, ?_, ?_⟩ <;> rw [hc]
  · exact Cells.put_isSome _ _ _
  · exact Cells.has_put_vtaint _ _ _
  · intro q hq
    exact Cells.has_put_raw (by rwa [length_leBytes])
  · intro q hq
    exact Cells.has_put_raw_le hq _ _
  · intro q hq _
    rw [Cells.has, Cells.put_of_notMem (by rw [length_leBytes]; exact Nat.not_lt.1 hq)]
    rfl

/-- A write-back initialises no byte outside of its word. -/
theorem storeEffect_word {b : β} (h : RamBus.Ok b) (w v : U32) :
    StoreEffect b (Bus.store b w 4 v).2 (fun _ => False) (InSpan · w 4) := by
  obtain ⟨k, hk, -, -, hc⟩ := RamBus.store_cells h w 4 v
  obtain ⟨hsame, hwhole⟩ := TaintRam.store_same b w 4 v
  refine ⟨RamBus.store_ok h w 4 v, hsame, hwhole, ?_, ?_, fun _ hq => hq.elim, ?_, ?_⟩ <;> rw [hc]
  · exact Cells.put_isSome _ _ _
  · exact Cells.has_put_vtaint _ _ _
  · intro q hq
    exact Cells.has_put_raw_le hq _ _
  · intro q _ hq
    have h4 : 4 ≤ (q - w).toNat := Nat.not_lt.1 hq
    have hlen : ((leBytes v (Mmu.width 4)).take k).length ≤ 4 := by
      rw [List.length_take, length_leBytes]
      exact Nat.min_le_right _ _
    rw [Cells.has, Cells.put_of_notMem (by omega)]
    rfl

/-! ## Translations -/

/-- The entry of the page table that a translation writes back, if it writes one. -/
def adWord (s : Sys β) (va : U32) (access : Access) : Option U32 :=
  if (s.cpu.fastPa va access).isSome then none
  else
    match usableLeaf s.hart s.bus va access with
    | some l => if needsAd access l.pte then some l.addr else none
    | none => none

omit [RamBus β] [TaintRam β] in
/-- A translation writes at most the leaf it has used. -/
theorem xlate_adWord {s s' : Sys β} {va pa : U32} {access : Access}
    (h : xlate va access s = (.ok pa, s')) :
    (adWord s va access = none ∧ s'.bus = s.bus) ∨
      ∃ w v, adWord s va access = some w ∧ s'.bus = (Bus.store s.bus w 4 v).2 := by
  cases hf : s.cpu.fastPa va access with
  | some p =>
    rw [xlate_of_fastPa hf] at h
    cases h
    exact .inl ⟨by rw [adWord, hf]; rfl, rfl⟩
  | none =>
    have hw : xlate va access s = walkFill va access s := by
      unfold Cpu.fastPa at hf
      unfold xlate
      by_cases hu : s.hart.untranslated access = true
      · rw [if_pos (show s.cpu.toHart.untranslated access = true from hu)] at hf
        cases hf
      rw [if_neg (show ¬ s.cpu.toHart.untranslated access = true from hu)] at hf
      rw [if_neg hu]
      cases hg : s.cpu.tlb.get (va >>> 12) with
      | none => rfl
      | some e =>
        rw [hg] at hf
        dsimp only at hf ⊢
        by_cases hp : s.hart.leafOk access e.bits = true
        · have hp' : s.cpu.toHart.leafOk access e.bits = true := hp
          rw [hp', Bool.not_true, if_neg Bool.false_ne_true] at hf
          rw [hp, Bool.not_true, if_neg Bool.false_ne_true]
          split at hf
          next hd => rw [hd, Bool.not_true, if_neg Bool.false_ne_true]
          next => cases hf
        · exfalso
          unfold xlate at h
          rw [if_neg hu, hg] at h
          dsimp only at h
          rw [if_pos (by simpa using hp)] at h
          cases h
    rw [hw] at h
    unfold walkFill at h
    unfold adWord
    rw [hf]
    cases hl : usableLeaf s.hart s.bus va access with
    | none =>
      rw [hl] at h
      cases h
    | some l =>
      rw [hl] at h
      dsimp only [Option.isSome] at h ⊢
      unfold updateAd at h
      split at h
      next b hb =>
        cases h
      next b hb =>
        cases h
        split at hb
        next hn =>
          refine .inr ⟨l.addr, withAd access l.pte, by simp [hn], ?_⟩
          exact (congrArg Prod.snd hb).symm
        next hn =>
          exact .inl ⟨by simp [hn], (congrArg Prod.snd hb).symm⟩

/-- So its effect is on that word only. -/
theorem xlate_storeEffect {s s' : Sys β} {va pa : U32} {access : Access} (hok : RamBus.Ok s.bus)
    (h : xlate va access s = (.ok pa, s')) : StoreEffect s.bus s'.bus (fun _ => False)
      (fun q => ∃ w ∈ adWord s va access, InSpan q w 4) := by
  rcases xlate_adWord h with ⟨-, hb⟩ | ⟨w, v, hw, hb⟩
  · rw [hb]
    exact .refl hok
  · rw [hb]
    exact (storeEffect_word hok w v).mono (fun _ => Iff.rfl) fun q hq => ⟨w, hw, hq⟩

/-! ## The span of an access -/

/-- Where byte `i` of an access is, as the hart translates it without a walk. -/
def Cpu.spanPa (c : Cpu) (access : Access) (va : U32) (size i : Nat) : Option U32 :=
  if bytewise va size then c.fastPa (va + BitVec.ofNat 32 i) access
  else (c.fastPa va access).map (· + BitVec.ofNat 32 i)

/-- The entries that the byte stores of a span write back. -/
def bytesAdWords (val va : U32) : (i n : Nat) → Sys β → List U32
  | _, 0, _ => []
  | i, n + 1, s =>
    (adWord s (va + BitVec.ofNat 32 i) .write).toList ++
      bytesAdWords val va (i + 1) n (storeByte val (va + BitVec.ofNat 32 i) i s).2

/-- The entries of the page table that a store writes back. -/
def storeAdWords (va : U32) (size : Nat) (val : U32) (s : Sys β) : List U32 :=
  if bytewise va size then bytesAdWords val va 0 size s else (adWord s va .write).toList

omit [RamBus β] [TaintRam β] in
/-- The bytes of an access stand at different addresses. -/
theorem fastPa_bytes_ne {c : Cpu} {access : Access} {va pa pa' : U32} {i j : Nat} (hi : i < 4)
    (hj : j < 4) (hne : i ≠ j) (h : c.fastPa (va + BitVec.ofNat 32 i) access = some pa)
    (h' : c.fastPa (va + BitVec.ofNat 32 j) access = some pa') (b : β) : pa ≠ pa' := by
  rintro rfl
  have hm := xlate_mod (xlate_of_fastPa (s := ⟨c, b⟩) h)
  have hm' := xlate_mod (xlate_of_fastPa (s := ⟨c, b⟩) h')
  simp only [BitVec.toNat_add, BitVec.toNat_ofNat] at hm hm'
  omega

omit [RamBus β] [TaintRam β] in
/-- An aligned access stays aligned. -/
theorem fastPa_aligned_size {c : Cpu} {access : Access} {va pa : U32} {size : Nat}
    (hsize : AccessSize size) (hb : bytewise va size = false) (h : c.fastPa va access = some pa)
    (b : β) : pa.toNat % size = 0 := by
  have hm := xlate_mod (xlate_of_fastPa (s := ⟨c, b⟩) h)
  have ha : va.toNat % size = 0 := by
    by_contra hne
    have hmis : misaligned va size = true := by
      unfold misaligned
      refine decide_eq_true fun h0 => hne ?_
      have hn := congrArg BitVec.toNat h0
      rcases hsize with rfl | rfl | rfl
      · exact Nat.mod_one _
      · exact (toNat_and_mask va 1 (by decide)).symm.trans hn
      · exact (toNat_and_mask va 2 (by decide)).symm.trans hn
    unfold bytewise at hb
    rw [hmis] at hb
    cases hb
  rcases hsize with rfl | rfl | rfl <;> omega

/-- What a run of byte stores does: the bytes it comes to are written where the hart finds them when
it is over, and what was granted before it still is. -/
structure ByteStores (val va : U32) (i n : Nat) (s s' : Sys β) : Prop where
  effect : StoreEffect s.bus s'.bus
    (fun q => ∃ j, i ≤ j ∧ j < i + n ∧ s'.cpu.fastPa (va + BitVec.ofNat 32 j) .write = some q)
    (fun q => ∃ w ∈ bytesAdWords val va i n s, InSpan q w 4)
  found : ∀ j, i ≤ j → j < i + n → ∃ q, s'.cpu.fastPa (va + BitVec.ofNat 32 j) .write = some q ∧
    (RamBus.cells s.bus q).isSome
  stays : ∀ j < 4, ∀ q, s.cpu.fastPa (va + BitVec.ofNat 32 j) .write = some q →
    s'.cpu.fastPa (va + BitVec.ofNat 32 j) .write = some q

/-- One byte store, after its translation. -/
theorem storeByte_effect {s s' : Sys β} {val a : U32} {i : Nat} (hok : RamBus.Ok s.bus)
    (h : storeByte val a i s = (.ok (), s'))
    (hb : ∀ q, s'.cpu.fastPa a .write = some q → TaintRam.backed s.bus q = true) :
    (xlate a .write s).2.cpu = s'.cpu ∧ ∃ pa, s'.cpu.fastPa a .write = some pa ∧
      (RamBus.cells s.bus pa).isSome ∧ StoreEffect s.bus s'.bus (fun q => pa = q)
        (fun q => ∃ w ∈ adWord s a .write, InSpan q w 4) := by
  obtain ⟨pa, s₁, hx, hst⟩ := Comp.bind_eq_ok h
  have heff := xlate_storeEffect hok hx
  have hf := fastPa_of_xlate hx
  unfold busStore at hst
  dsimp only at hst
  obtain ⟨hres, hs'⟩ := Prod.mk.inj hst
  have hcpu : s'.cpu = s₁.cpu := by rw [← hs']
  have hbus : s'.bus = (Bus.store s₁.bus pa 1 ((val >>> (8 * i)) &&& 0xff)).2 := by rw [← hs']
  have hokb : (Bus.store s₁.bus pa 1 ((val >>> (8 * i)) &&& 0xff)).1 = .ok () := by
    cases hr : (Bus.store s₁.bus pa 1 ((val >>> (8 * i)) &&& 0xff)).1 with
    | ok u => rfl
    | error f =>
      rw [hr] at hres
      cases hres
  have hback : TaintRam.backed s₁.bus pa = true := by
    rw [heff.backed]
    exact hb pa (by rw [hcpu]; exact hf)
  obtain ⟨-, hfill, -⟩ := TaintRam.store_backed heff.ok (.inl rfl) hokb hback
  have hfill0 := hfill 0 Nat.one_pos
  rw [BitVec.add_zero, heff.isSome] at hfill0
  refine ⟨by rw [hx, hcpu], pa, by rw [hcpu]; exact hf, hfill0, ?_⟩
  rw [hbus]
  refine (heff.trans (storeEffect_span heff.ok (.inl rfl) hokb hback)).mono (fun q => ?_) fun q hq => ?_
  · rw [false_or]
    exact inSpan_one.symm
  · rwa [or_false] at hq

/-- A run of byte stores writes the span, and page-table words beside it. -/
theorem byteStores {val va : U32} {n : Nat} : ∀ {i : Nat} {s s' : Sys β}, i + n ≤ 4 →
    RamBus.Ok s.bus → scatter (storeByte val) va i n s = (.ok (), s') →
    (∀ j, i ≤ j → j < i + n → ∀ q, s'.cpu.fastPa (va + BitVec.ofNat 32 j) .write = some q →
      TaintRam.backed s.bus q = true) → ByteStores val va i n s s' := by
  induction n with
  | zero =>
    intro i s s' _ hok h _
    cases h
    exact ⟨(StoreEffect.refl hok).mono
      (fun q => ⟨fun ⟨j, h1, h2, _⟩ => by omega, False.elim⟩) fun _ h => h,
      fun j h1 h2 => by omega, fun _ _ _ h => h⟩
  | succ n ih =>
    intro i s s' hn hok h hb
    obtain ⟨u, s₁, hbyte, hrest⟩ := Comp.bind_eq_ok h
    have hstay : ∀ j < 4, ∀ q, s.cpu.fastPa (va + BitVec.ofNat 32 j) .write = some q →
        s₁.cpu.fastPa (va + BitVec.ofNat 32 j) .write = some q := by
      intro j hj q hq
      rw [(storeByte_translates val _ i s u s₁ hbyte).1]
      exact fastPa_xlate hq (neighbours va hj (by omega))
    -- the rest leaves the grant of this byte, so its address may be read off at the end
    have hlast : ∀ {q}, s₁.cpu.fastPa (va + BitVec.ofNat 32 i) .write = some q →
        s'.cpu.fastPa (va + BitVec.ofNat 32 i) .write = some q :=
      scatter_stays (by omega) hrest i (by omega) _
    obtain ⟨-, pa, hpa, hsome, heff⟩ := storeByte_effect hok hbyte fun q hq =>
      hb i (Nat.le_refl i) (by omega) q (hlast hq)
    have hih := ih (by omega) heff.ok hrest fun j h1 h2 q hq => by
      rw [heff.backed]
      exact hb j (by omega) (by omega) q hq
    have hpa' := hlast hpa
    refine ⟨(heff.trans hih.effect).mono (fun q => ?_) fun q hq => ?_, fun j h1 h2 => ?_,
      fun j hj q hq => hih.stays j hj q (hstay j hj q hq)⟩
    · constructor
      · rintro ⟨j, h1, h2, hq⟩
        rcases Nat.eq_or_lt_of_le h1 with rfl | hlt
        · rw [hpa'] at hq
          exact .inl (Option.some.inj hq)
        · exact .inr ⟨j, hlt, by omega, hq⟩
      · rintro (rfl | ⟨j, h1, h2, hq⟩)
        · exact ⟨i, Nat.le_refl i, by omega, hpa'⟩
        · exact ⟨j, by omega, by omega, hq⟩
    · rw [bytesAdWords, hbyte]
      rcases hq with ⟨w, hw, hs⟩ | ⟨w, hw, hs⟩
      · exact ⟨w, List.mem_append_left _ (Option.mem_toList.2 hw), hs⟩
      · exact ⟨w, List.mem_append_right _ hw, hs⟩
    · rcases Nat.eq_or_lt_of_le h1 with rfl | hlt
      · exact ⟨pa, hpa', hsome⟩
      · obtain ⟨q, hq, hqs⟩ := hih.found j hlt (by omega)
        exact ⟨q, hq, by rw [← heff.isSome]; exact hqs⟩

/-- A store writes its span where the hart finds it when the store is over. -/
theorem storeImpl_effect {s s' : Sys β} {va val : U32} {size : Nat} (hsize : AccessSize size)
    (hok : RamBus.Ok s.bus) (h : storeImpl va size val s = (.ok (), s'))
    (hb : ∀ i < size, ∀ q, s'.cpu.spanPa .write va size i = some q →
      TaintRam.backed s.bus q = true) :
    StoreEffect s.bus s'.bus (fun q => ∃ i < size, s'.cpu.spanPa .write va size i = some q)
        (fun q => ∃ w ∈ storeAdWords va size val s, InSpan q w 4) ∧
      ∀ i < size, ∃ q, s'.cpu.spanPa .write va size i = some q ∧ (RamBus.cells s.bus q).isSome := by
  have h0 : 0 < size := by rcases hsize with rfl | rfl | rfl <;> decide
  have h4 : size ≤ 4 := by rcases hsize with rfl | rfl | rfl <;> decide
  unfold storeImpl at h
  unfold Cpu.spanPa at hb ⊢
  unfold storeAdWords
  split at h
  next hbw =>
    simp only [hbw, if_true] at hb ⊢
    obtain ⟨heff, hfound, -⟩ := byteStores (by omega) hok h fun j _ hj q hq =>
      hb j (by omega) q hq
    refine ⟨heff.mono (fun q => ?_) fun q hq => hq, fun i hi => hfound i (Nat.zero_le i) (by omega)⟩
    constructor
    · rintro ⟨j, hj, hq⟩
      exact ⟨j, Nat.zero_le j, by omega, hq⟩
    · rintro ⟨j, -, hj, hq⟩
      exact ⟨j, by omega, hq⟩
  next hbw =>
    simp only [hbw, Bool.false_eq_true, if_false] at hb ⊢
    obtain ⟨pa, s₁, hx, hst⟩ := Comp.bind_eq_ok h
    have heff := xlate_storeEffect hok hx
    have hf := fastPa_of_xlate hx
    unfold busStore at hst
    dsimp only at hst
    obtain ⟨hres, hs'⟩ := Prod.mk.inj hst
    have hcpu : s'.cpu = s₁.cpu := by rw [← hs']
    have hbus : s'.bus = (Bus.store s₁.bus pa size val).2 := by rw [← hs']
    have hokb : (Bus.store s₁.bus pa size val).1 = .ok () := by
      cases hr : (Bus.store s₁.bus pa size val).1 with
      | ok u => rfl
      | error f =>
        rw [hr] at hres
        cases hres
    rw [hcpu, hf] at hb ⊢
    have hback : TaintRam.backed s₁.bus pa = true := by
      rw [heff.backed]
      exact hb 0 h0 pa (by simp)
    obtain ⟨-, hfill, -⟩ := TaintRam.store_backed heff.ok hsize hokb hback
    rw [hbus]
    refine ⟨(heff.trans (storeEffect_span heff.ok hsize hokb hback)).mono (fun q => ?_) fun q hq => ?_,
      fun i hi => ⟨_, rfl, by rw [← heff.isSome]; exact hfill i hi⟩⟩
    · rw [false_or]
      simp only [Option.map_some, Option.some.injEq]
      exact (inSpan_iff h4).symm
    · rw [or_false] at hq
      obtain ⟨w, hw, hs⟩ := hq
      exact ⟨w, Option.mem_toList.2 hw, hs⟩

/-! ## The scatter -/

/-- The scatter of a store reaches its bytes: it goes byte by byte, or the memory takes the span
whole. -/
def Scatters (c : Cpu) (b : β) (va : U32) (size : Nat) : Prop :=
  bytewise va size = true ∨
    ∀ pa, c.fastPa va .write = some pa → TaintRam.whole b pa size = true

/-- What the scatter of a store does: it overwrites the copy marks of the span with the mask, or does
nothing at all. -/
structure ScatterEffect (b b' : β) (mask : U32) (span : Nat → Option U32) (size : Nat)
    (taken : Prop) : Prop where
  ok : RamBus.Ok b'
  backed : TaintRam.backed b' = TaintRam.backed b
  raw : ∀ q, (RamBus.cells b').has PERM_RAW q = (RamBus.cells b).has PERM_RAW q
  isSome : ∀ q, (RamBus.cells b' q).isSome = (RamBus.cells b q).isSome
  frame : ∀ q, (∀ i < size, span i ≠ some q) →
    (RamBus.cells b').has PERM_VTAINT q = (RamBus.cells b).has PERM_VTAINT q
  marks : taken → ∀ i < size, ∀ q, span i = some q →
    (RamBus.cells b').has PERM_VTAINT q = taintBit mask i
  dropped : ¬ taken → ∀ q, (RamBus.cells b').has PERM_VTAINT q = (RamBus.cells b).has PERM_VTAINT q

/-- A scatter leaves the bytes outside its span. -/
theorem has_shade_frame {c : Cells} {pa mask q : U32} {n : Nat} (h : ¬ InSpan q pa n) (bits : U8) :
    (c.shade pa mask n).has bits q = c.has bits q := by
  rw [Cells.has, Cells.shade_of_notMem (Nat.not_lt.1 h)]
  rfl

/-- The scatter of the bytes from `i` on. -/
theorem byteScatters {s : Sys β} {va mask : U32} {n : Nat} : ∀ {i : Nat} {b : β}, i + n ≤ 4 →
    RamBus.Ok b →
    (∀ j, i ≤ j → j < i + n → ∃ q, s.cpu.fastPa (va + BitVec.ofNat 32 j) .write = some q ∧
      TaintRam.backed b q = true ∧ (RamBus.cells b q).isSome) →
    ∃ b', scatter (storeTaintByte mask) va i n { s with bus := b } = (.ok (), { s with bus := b' }) ∧
      RamBus.Ok b' ∧ TaintRam.backed b' = TaintRam.backed b ∧
      (∀ q, (RamBus.cells b').has PERM_RAW q = (RamBus.cells b).has PERM_RAW q) ∧
      (∀ q, (RamBus.cells b' q).isSome = (RamBus.cells b q).isSome) ∧
      (∀ q, (∀ j, i ≤ j → j < i + n → s.cpu.fastPa (va + BitVec.ofNat 32 j) .write ≠ some q) →
        (RamBus.cells b').has PERM_VTAINT q = (RamBus.cells b).has PERM_VTAINT q) ∧
      ∀ j, i ≤ j → j < i + n → ∀ q, s.cpu.fastPa (va + BitVec.ofNat 32 j) .write = some q →
        (RamBus.cells b').has PERM_VTAINT q = taintBit mask j := by
  induction n with
  | zero =>
    intro i b _ hok _
    exact ⟨b, rfl, hok, rfl, fun _ => rfl, fun _ => rfl, fun _ _ => rfl, fun j h1 h2 => by omega⟩
  | succ n ih =>
    intro i b hn hok hg
    obtain ⟨pa, hpa, hback, hsome⟩ := hg i (Nat.le_refl i) (by omega)
    have hfill : (RamBus.cells b).Filled pa 1 := by
      intro k hk
      obtain rfl : k = 0 := by omega
      rwa [BitVec.add_zero]
    obtain ⟨hok₁, hc⟩ := TaintRam.shadow hok Nat.one_pos
      (by decide) pa.isLt hback hfill
    rw [if_pos (TaintRam.whole_byte b pa)] at hc
    obtain ⟨hsame, -⟩ := TaintRam.shadow_same b pa 1 ((mask >>> (8 * i)) &&& 1)
    have hone : storeTaintByte mask (va + BitVec.ofNat 32 i) i { s with bus := b } =
        (.ok (), { s with bus := Bus.writeShadow b pa 1 ((mask >>> (8 * i)) &&& 1) }) := by
      have hpa' : ({ s with bus := b } : Sys β).cpu.fastPa (va + BitVec.ofNat 32 i) .write =
          some pa := hpa
      unfold storeTaintByte
      rw [Comp.bind_ok (xlate_of_fastPa hpa')]
      rfl
    generalize Bus.writeShadow b pa 1 ((mask >>> (8 * i)) &&& 1) = b₁ at *
    obtain ⟨b', hrest, hok', hback', hraw, hsm, hframe, hmarks⟩ := ih (i := i + 1) (b := b₁)
      (by omega) hok₁ fun j h1 h2 => by
        obtain ⟨q, hq, hqb, hqs⟩ := hg j (by omega) (by omega)
        exact ⟨q, hq, by rw [hsame]; exact hqb, by rw [hc, Cells.shade_isSome]; exact hqs⟩
    refine ⟨b', by rw [scatter, Comp.bind_ok hone]; exact hrest, hok', hback'.trans hsame,
      fun q => ?_, fun q => ?_, fun q hq => ?_, fun j h1 h2 q hq => ?_⟩
    · rw [hraw, hc, Cells.has_shade_raw]
    · rw [hsm, hc, Cells.shade_isSome]
    · rw [hframe q fun j h1 h2 => hq j (by omega) (by omega), hc]
      refine has_shade_frame (fun hin => ?_) _
      rw [inSpan_one] at hin
      exact hq i (Nat.le_refl i) (by omega) (hin ▸ hpa)
    · rcases Nat.eq_or_lt_of_le h1 with rfl | hlt
      · rw [hpa] at hq
        cases hq
        rw [hframe pa fun j hj1 hj2 hj => ?_, hc]
        · have h0 : (pa - pa).toNat = 0 := by simp
          rw [Cells.has_shade_vtaint (by omega) hsome, h0]
          unfold taintBit
          rw [Nat.mul_zero, BitVec.ushiftRight_zero, BitVec.and_assoc, BitVec.and_self]
        · exact fastPa_bytes_ne (by omega) (by omega) (by omega) hpa hj b rfl
      · exact hmarks j hlt (by omega) q hq

/-- The scatter of a store whose span is granted. -/
theorem storeTaint_effect {s : Sys β} {va mask : U32} {size : Nat} (hsize : AccessSize size)
    (hok : RamBus.Ok s.bus)
    (hg : ∀ i < size, ∃ q, s.cpu.spanPa .write va size i = some q ∧
      TaintRam.backed s.bus q = true ∧ (RamBus.cells s.bus q).isSome) :
    ∃ b, storeTaint va size mask s = (.ok (), { s with bus := b }) ∧
      ScatterEffect s.bus b mask (s.cpu.spanPa .write va size) size
        (Scatters s.cpu s.bus va size) := by
  have h0 : 0 < size := by rcases hsize with rfl | rfl | rfl <;> decide
  have h4 : size ≤ 4 := by rcases hsize with rfl | rfl | rfl <;> decide
  unfold storeTaint Scatters
  unfold Cpu.spanPa at hg ⊢
  cases hbw : bytewise va size with
  | true =>
    simp only [hbw, if_true] at hg ⊢
    obtain ⟨b', hs, hok', hback, hraw, hsm, hframe, hmarks⟩ := byteScatters
      (show 0 + size ≤ 4 by omega) hok fun j _ hj => hg j (by omega)
    exact ⟨b', hs, hok', hback, hraw, hsm, fun q hq => hframe q fun j _ hj => hq j (by omega),
      fun _ i hi q hq => hmarks i (Nat.zero_le i) (by omega) q hq,
      fun hn => absurd (.inl trivial) hn⟩
  | false =>
    simp only [hbw, Bool.false_eq_true, if_false, false_or] at hg ⊢
    obtain ⟨q, hq, hback, -⟩ := hg 0 h0
    obtain ⟨pa, hpa, rfl⟩ := Option.map_eq_some_iff.1 hq
    rw [BitVec.add_zero] at hback
    have hal := fastPa_aligned_size hsize hbw hpa s.bus
    have hfill : (RamBus.cells s.bus).Filled pa size := by
      intro i hi
      obtain ⟨q, hq, -, hqs⟩ := hg i hi
      rw [hpa] at hq
      cases hq
      exact hqs
    obtain ⟨hok', hc⟩ := TaintRam.shadow hok h0 h4 (aligned_no_wrap hsize hal) hback hfill
    refine ⟨_, Comp.bind_ok (xlate_of_fastPa hpa), ?_⟩
    rw [hpa]
    simp only [Option.some.injEq, forall_eq', Option.map_some]
    refine ⟨hok', (TaintRam.shadow_same _ _ _ _).1, fun q => ?_, fun q => ?_, fun q hq => ?_,
      fun ht i hi q hq => ?_, fun ht q => ?_⟩ <;> rw [hc]
    · split
      · exact Cells.has_shade_raw _ _ _ _ _
      · rfl
    · split
      · exact Cells.shade_isSome _ _ _ _ _
      · rfl
    · split
      · refine has_shade_frame (fun hin => ?_) _
        obtain ⟨i, hi, rfl⟩ := (inSpan_iff h4).1 hin
        exact hq i hi rfl
      · rfl
    · cases hq
      have hi' : (pa + BitVec.ofNat 32 i - pa).toNat = i := by
        rw [BitVec.add_comm, BitVec.add_sub_cancel, BitVec.toNat_ofNat]
        omega
      rw [if_pos ht, Cells.has_shade_vtaint (by omega) (hfill i hi), hi']
      rfl
    · rw [if_neg ht]

/-! ## The load -/

omit [RamBus β] [TaintRam β] in
/-- Right after a store its span is read where it was written, without a walk. -/
theorem xlate_read_of_write {s s' : Sys β} {a pa pa' : U32} (hw : s.cpu.fastPa a .write = some pa)
    (h : xlate a .read s = (.ok pa', s')) : pa' = pa ∧ s' = s := by
  unfold Cpu.fastPa at hw
  unfold xlate at h
  have hu : s.hart.untranslated .read = s.cpu.toHart.untranslated .write := by
    unfold Hart.untranslated Hart.effectivePriv
    simp only [ne_eq, reduceCtorEq, not_false_eq_true, true_and]
    rfl
  rw [hu] at h
  split at hw
  next ht =>
    rw [if_pos ht] at h
    cases h
    cases hw
    exact ⟨rfl, rfl⟩
  next ht =>
    rw [if_neg ht] at h
    cases hg : s.cpu.tlb.get (a >>> 12) with
    | none =>
      rw [hg] at hw
      cases hw
    | some e =>
      rw [hg] at hw h
      dsimp only at hw h
      split at hw
      · cases hw
      split at hw
      · cases hw
      cases hw
      split at h
      · cases h
      · cases h
        exact ⟨rfl, rfl⟩

omit [RamBus β] [TaintRam β] in
/-- A load from pages that may be written only repeats their translations. -/
theorem gather_read_of_write {s s' : Sys β} {va v : U32} {n : Nat} : ∀ {i : Nat}, i + n ≤ 4 →
    (∀ j, i ≤ j → j < i + n → ∃ q, s.cpu.fastPa (va + BitVec.ofNat 32 j) .write = some q) →
    gather loadByte va i n s = (.ok v, s') →
    s' = s ∧ ∀ j, i ≤ j → j < i + n → s.cpu.fastPa (va + BitVec.ofNat 32 j) .read =
      s.cpu.fastPa (va + BitVec.ofNat 32 j) .write := by
  induction n generalizing v s' with
  | zero =>
    intro i _ _ h
    cases h
    exact ⟨rfl, fun j h1 h2 => by omega⟩
  | succ n ih =>
    intro i hn hg h
    obtain ⟨b, s₁, hb, h⟩ := Comp.bind_eq_ok h
    obtain ⟨rest, s₂, hr, h⟩ := Comp.bind_eq_ok h
    cases h
    obtain ⟨pa, s₃, hx, hl⟩ := Comp.bind_eq_ok hb
    obtain ⟨q, hq⟩ := hg i (Nat.le_refl i) (by omega)
    obtain ⟨rfl, rfl⟩ := xlate_read_of_write hq hx
    have hs₁ : s₁ = s₃ := by
      have hk : Keeps id (busLoad pa 1 >>= fun b => pure (b &&& 0xff) : Exec β U32) :=
        Keeps.bind (fun _ => rfl) fun _ => Keeps.pure _
      have := hk s₃
      rw [hl] at this
      exact this
    subst hs₁
    obtain ⟨rfl, hread⟩ := ih (by omega) (fun j h1 h2 => hg j (by omega) (by omega)) hr
    refine ⟨rfl, fun j h1 h2 => ?_⟩
    rcases Nat.eq_or_lt_of_le h1 with rfl | hlt
    · rw [hq]
      exact fastPa_of_xlate hx
    · exact hread j hlt (by omega)

omit [RamBus β] [TaintRam β] in
/-- A load right after a store to the same span changes nothing and reads where the store wrote. -/
theorem loadImpl_of_write {s s' : Sys β} {va v : U32} {size : Nat} (h4 : size ≤ 4) {signed : Bool}
    (hg : ∀ i < size, ∃ q, s.cpu.spanPa .write va size i = some q) (h0 : 0 < size)
    (h : loadImpl va size signed s = (.ok v, s')) :
    s' = s ∧ ∀ i < size, s.cpu.spanPa .read va size i = s.cpu.spanPa .write va size i := by
  obtain ⟨w, s₁, h, hp⟩ := Comp.bind_eq_ok h
  cases hp
  unfold loadSpan at h
  unfold Cpu.spanPa at hg ⊢
  split at h
  next hb =>
    simp only [hb, if_true] at hg ⊢
    obtain ⟨hs, hr⟩ := gather_read_of_write (show 0 + size ≤ 4 by omega)
      (fun j _ hj => hg j (by omega)) h
    exact ⟨hs, fun i hi => hr i (Nat.zero_le i) (by omega)⟩
  next hb =>
    simp only [hb, Bool.false_eq_true, if_false] at hg ⊢
    obtain ⟨q, hq⟩ := hg 0 h0
    obtain ⟨pa, hpa, -⟩ := Option.map_eq_some_iff.1 hq
    obtain ⟨pa', s₂, hx, hl⟩ := Comp.bind_eq_ok h
    obtain ⟨rfl, rfl⟩ := xlate_read_of_write hpa hx
    refine ⟨(Prod.mk.inj hl).2.symm, fun i hi => ?_⟩
    rw [hpa, fastPa_of_xlate hx]

/-- The taint of a granted span is that of its bytes. -/
theorem loadTaint_bits {s : Sys β} {va : U32} {size : Nat} (h0 : 0 < size) (h4 : size ≤ 4)
    (hok : RamBus.Ok s.bus)
    (hg : ∀ i < size, ∃ q, s.cpu.spanPa .read va size i = some q ∧
      TaintRam.backed s.bus q = true) :
    ∃ t, loadTaint va size s = (.ok t, s) ∧ ∀ i < size, ∀ q,
      s.cpu.spanPa .read va size i = some q →
        taintBit t i = (RamBus.cells s.bus).tainted q := by
  unfold loadTaint
  unfold Cpu.spanPa at hg ⊢
  cases hbw : bytewise va size with
  | true =>
    simp only [hbw, if_true] at hg ⊢
    have key : ∀ {n i : Nat}, i + n = size → ∃ t, gather loadTaintByte va i n s = (.ok t, s) ∧
        ∀ j < 4, (j < i → taintBit t j = false) ∧ (i ≤ j → j < size → ∀ q,
          s.cpu.fastPa (va + BitVec.ofNat 32 j) .read = some q →
            taintBit t j = (RamBus.cells s.bus).tainted q) := by
      intro n
      induction n with
      | zero => exact fun _ => ⟨0, rfl, fun j _ => ⟨fun _ => taintBit_zero j, fun h1 h2 => by omega⟩⟩
      | succ n ih =>
        intro i hn
        obtain ⟨q, hq, hqb⟩ := hg i (by omega)
        obtain ⟨rest, hr, hbits⟩ := ih (i := i + 1) (by omega)
        have hraw := TaintRam.rawState (n := 1) hok (by decide) hqb
        rw [rawMask_one, BitVec.add_zero] at hraw
        have hone : loadTaintByte (va + BitVec.ofNat 32 i) s =
            (.ok (if (RamBus.cells s.bus).tainted q then 1#32 else 0), s) := by
          unfold loadTaintByte
          rw [Comp.bind_ok (xlate_of_fastPa hq), ← hraw]
          rfl
        refine ⟨_, by rw [gather, Comp.bind_ok hone, Comp.bind_ok hr]; rfl, fun j hj => ?_⟩
        rw [taintBit_or, taintBit_shiftLeft (by omega) hj]
        refine ⟨fun hji => ?_, fun hij hjs p hp => ?_⟩
        · rw [decide_eq_false (show i ≠ j by omega), (hbits j hj).1 (by omega)]
          rfl
        · rcases Nat.eq_or_lt_of_le hij with rfl | hlt
          · rw [hq] at hp
            cases hp
            rw [decide_eq_true rfl, (hbits i hj).1 (Nat.lt_succ_self i), Bool.true_and, Bool.or_false]
          · rw [decide_eq_false (show i ≠ j by omega), (hbits j hj).2 hlt hjs p hp]
            rfl
    obtain ⟨t, ht, hbits⟩ := key (Nat.zero_add size)
    exact ⟨t, ht, fun i hi q hq => (hbits i (by omega)).2 (Nat.zero_le i) hi q hq⟩
  | false =>
    simp only [hbw, Bool.false_eq_true, if_false] at hg ⊢
    obtain ⟨q, hq, hqb⟩ := hg 0 h0
    obtain ⟨pa, hpa, rfl⟩ := Option.map_eq_some_iff.1 hq
    rw [BitVec.add_zero] at hqb
    refine ⟨_, Comp.bind_ok (xlate_of_fastPa hpa), fun i hi q hq => ?_⟩
    rw [hpa] at hq
    cases hq
    change taintBit (Bus.readRawState s.bus pa size) i = _
    rw [TaintRam.rawState hok h4 hqb, taintBit_rawMask h4 (by omega), decide_eq_true hi,
      Bool.true_and]

/-! ## Storing instructions -/

/-- What an instruction is about to store: where, how much, the value and its taint. -/
structure StoredSpan where
  va : U32
  size : Nat
  val : U32
  mask : U32
  /-- The instruction scatters the taint after the store. -/
  scatters : Bool
  deriving DecidableEq

/-- The store of a store instruction, or of a store-conditional that holds its reservation. -/
def Inst.storedSpan (inst : Inst) (h : Hart) : Option StoredSpan :=
  match inst with
  | .store sop rs1 rs2 imm =>
    some ⟨h.rdReg rs1 + imm, sop.size, h.rdReg rs2, h.rdTaint rs2, true⟩
  | .scW _ rs1 rs2 _ _ =>
    if h.reservation = some (h.rdReg rs1) then
      some ⟨h.rdReg rs1, 4, h.rdReg rs2, h.rdTaint rs2, false⟩
    else none
  | _ => none

/-- A stored span has one, two or four bytes. -/
theorem Inst.storedSpan_size {inst : Inst} {h : Hart} {st : StoredSpan}
    (hst : inst.storedSpan h = some st) : AccessSize st.size := by
  cases inst with
  | store op rs1 rs2 imm =>
    cases hst
    cases op <;> simp [AccessSize, StoreOp.size]
  | scW rd rs1 rs2 aq rl =>
    unfold Inst.storedSpan at hst
    dsimp only at hst
    split at hst <;> cases hst
    exact .inr (.inr rfl)
  | _ => cases hst

/-- Every byte of the span that the hart can find is backed by RAM. -/
def SpanBacked (c : Cpu) (b : β) (access : Access) (va : U32) (size : Nat) : Prop :=
  ∀ i < size, (c.spanPa access va size i).all (TaintRam.backed b) = true

/-- The taint `t` that a load gathers from a stored span is the taint of the stored value, and but for
the entries that the walk wrote back no other byte has changed its taint. -/
structure TaintCopied (s s' : Sys β) (st : StoredSpan) (t : U32) : Prop where
  gathered : ∀ i < st.size, taintBit t i = taintBit st.mask i
  frame : ∀ q, (∀ i < st.size, s'.cpu.spanPa .write st.va st.size i ≠ some q) →
    (∀ w ∈ storeAdWords st.va st.size st.val s, ¬ InSpan q w 4) →
    (RamBus.cells s'.bus).tainted q = (RamBus.cells s.bus).tainted q

/-- The copy marks of the bytes of a span are those of a mask. -/
def Marked (c : Cpu) (b : β) (va : U32) (size : Nat) (mask : U32) : Prop :=
  ∀ i < size, ∀ q, c.spanPa .write va size i = some q →
    (RamBus.cells b).has PERM_VTAINT q = taintBit mask i

omit [Bus β] [RamBus β] [TaintRam β] in
/-- The translations that are granted depend on the mode, the CSR file and the TLB. -/
theorem fastPa_of_view {c c' : Cpu} (h : (c'.csr, c'.privilege) = (c.csr, c.privilege))
    (ht : c'.tlb = c.tlb) : c'.fastPa = c.fastPa := by
  obtain ⟨hcsr, hp⟩ := Prod.mk.inj h
  funext va access
  unfold Cpu.fastPa Hart.untranslated Hart.leafOk Hart.effectivePriv Hart.sum Hart.mxr
  rw [hcsr, hp, ht]

omit [RamBus β] [TaintRam β] in
/-- What a storing instruction has run: its store, and the scatter if it makes one. -/
theorem execOne_stored {inst : Inst} {pc ilen iword : U32} {s s' : Sys β} {x : Exit}
    {st : StoredSpan} (hst : inst.storedSpan s.hart = some st) (hk : s.hart.kmsanEnabled = true)
    (hx : execOne inst pc ilen iword s = (.ok x, s')) :
    ∃ s₁ s₂, storeImpl st.va st.size st.val s = (.ok (), s₁) ∧
      (if st.scatters then storeTaint st.va st.size st.mask s₁ = (.ok (), s₂) else s₂ = s₁) ∧
      s'.bus = s₂.bus ∧ s'.cpu.fastPa = s₂.cpu.fastPa := by
  obtain ⟨r, s₃, hr, hret⟩ := Comp.bind_eq_ok hx
  have hs' : s' = s₃.setHart (s₃.hart.retire r.2) := (Prod.mk.inj hret).2.symm
  have hbus : s'.bus = s₃.bus := by rw [hs']; rfl
  have hfast : s'.cpu.fastPa = s₃.cpu.fastPa := by
    rw [hs']
    exact fastPa_of_view rfl rfl
  rw [hbus, hfast]
  unfold execInst getHart at hr
  rw [Comp.gets_bind] at hr
  cases inst with
  | store op rs1 rs2 imm =>
    cases hst
    obtain ⟨exit, s₂, hexec, hp⟩ := Comp.bind_eq_ok hr
    cases hp
    unfold execStore getHart at hexec
    rw [Comp.gets_bind, hk] at hexec
    obtain ⟨u, s₄, hsw, hp⟩ := Comp.bind_eq_ok hexec
    cases hp
    obtain ⟨u', s₁, himpl, htaint⟩ := Comp.bind_eq_ok hsw
    exact ⟨s₁, _, himpl, htaint, rfl, rfl⟩
  | scW rd rs1 rs2 aq rl =>
    unfold Inst.storedSpan at hst
    dsimp only at hst hr
    split at hst
    next hres =>
      cases hst
      obtain ⟨u, s₁, himpl, hr⟩ := Comp.bind_eq_ok hr
      unfold storeIf at himpl
      rw [if_pos (decide_eq_true hres)] at himpl
      refine ⟨s₁, s₁, himpl, rfl, ?_⟩
      obtain ⟨u', s₄, hm, hp⟩ := Comp.bind_eq_ok hr
      cases hp
      rw [← (Prod.mk.inj hm).2]
      refine ⟨rfl, fastPa_of_view ?_ rfl⟩
      have hblind : Blind fun h : Hart => (h.csr, h.privilege) := fun _ _ _ _ _ _ => rfl
      exact (hblind.reserve _ none).trans (hblind.wrClean s₁.hart rd _)
    next => cases hst
  | _ => cases hst

omit [Bus β] [RamBus β] [TaintRam β] in
/-- The bytes of a span depend on the grants only. -/
theorem spanPa_of_fastPa {c c' : Cpu} (h : c'.fastPa = c.fastPa) (access : Access) (va : U32)
    (size : Nat) : c'.spanPa access va size = c.spanPa access va size := by
  funext i
  unfold Cpu.spanPa
  rw [h]

/-- What a storing instruction leaves: every byte of its span has its copy mark from the stored value
if the scatter reached it, and the mark it had before otherwise. -/
structure StoredTaint (s s' : Sys β) (st : StoredSpan) : Prop where
  ok : RamBus.Ok s'.bus
  found : ∀ i < st.size, ∃ q, s'.cpu.spanPa .write st.va st.size i = some q ∧
    TaintRam.backed s'.bus q = true ∧
    (RamBus.cells s'.bus).tainted q = (RamBus.cells s'.bus).has PERM_VTAINT q
  marked : st.scatters = true → Scatters s'.cpu s.bus st.va st.size →
    Marked s'.cpu s'.bus st.va st.size st.mask
  dropped : ¬ (st.scatters = true ∧ Scatters s'.cpu s.bus st.va st.size) →
    ∀ q, (RamBus.cells s'.bus).has PERM_VTAINT q = (RamBus.cells s.bus).has PERM_VTAINT q
  frame : ∀ q, (∀ i < st.size, s'.cpu.spanPa .write st.va st.size i ≠ some q) →
    (∀ w ∈ storeAdWords st.va st.size st.val s, ¬ InSpan q w 4) →
    (RamBus.cells s'.bus).tainted q = (RamBus.cells s.bus).tainted q

/-- A store marks its span as its value was. -/
theorem stored_taint {inst : Inst} {pc ilen iword : U32} {s s' : Sys β} {x : Exit}
    {st : StoredSpan} (hok : RamBus.Ok s.bus) (hk : s.hart.kmsanEnabled = true)
    (hst : inst.storedSpan s.hart = some st) (hx : execOne inst pc ilen iword s = (.ok x, s'))
    (hb : SpanBacked s'.cpu s.bus .write st.va st.size) : StoredTaint s s' st := by
  have hsize := Inst.storedSpan_size hst
  obtain ⟨s₁, s₂, himpl, hscat, hbus, hfast⟩ := execOne_stored hst hk hx
  have hspan₂ := spanPa_of_fastPa hfast .write st.va st.size
  have hsome : ∀ {i q}, i < st.size → s'.cpu.spanPa .write st.va st.size i = some q →
      TaintRam.backed s.bus q = true := by
    intro i q hi hq
    have := hb i hi
    rwa [hq] at this
  cases hsc : st.scatters with
  | true =>
    rw [hsc, if_pos rfl] at hscat
    have hgr := storeImpl_granted (by rcases hsize with h | h | h <;> omega) himpl
    obtain ⟨b₀, hb₀, -⟩ := storeTaint_of_granted hgr
    have hcpu : s₂.cpu = s₁.cpu := by
      rw [hscat] at hb₀
      rw [(Prod.mk.inj hb₀).2]
    have hspan : s'.cpu.spanPa .write st.va st.size = s₁.cpu.spanPa .write st.va st.size := by
      rw [hspan₂, hcpu]
    have hfast' : s'.cpu.fastPa = s₁.cpu.fastPa := by rw [hfast, hcpu]
    obtain ⟨heff, hfound⟩ := storeImpl_effect hsize hok himpl fun i hi q hq =>
      hsome hi (by rw [hspan]; exact hq)
    have hg₁ : ∀ i < st.size, ∃ q, s₁.cpu.spanPa .write st.va st.size i = some q ∧
        TaintRam.backed s₁.bus q = true ∧ (RamBus.cells s₁.bus q).isSome := by
      intro i hi
      obtain ⟨q, hq, hqs⟩ := hfound i hi
      refine ⟨q, hq, ?_, by rw [heff.isSome]; exact hqs⟩
      rw [heff.backed]
      exact hsome hi (by rw [hspan]; exact hq)
    obtain ⟨b, hbt, hsh⟩ := storeTaint_effect hsize heff.ok hg₁
    have hb' : s'.bus = b := by
      rw [hscat] at hbt
      rw [hbus, (Prod.mk.inj hbt).2]
    rw [← hb', ← hspan] at hsh
    have htaken : Scatters s₁.cpu s₁.bus st.va st.size ↔ Scatters s'.cpu s.bus st.va st.size := by
      unfold Scatters
      rw [hfast', heff.whole]
    refine ⟨hsh.ok, fun i hi => ?_, fun _ ht i hi q hq => hsh.marks (htaken.2 ht) i hi q hq,
      fun ht q => ?_, fun q hq hw => ?_⟩
    · obtain ⟨q, hq, hqb, -⟩ := hg₁ i hi
      rw [← hspan] at hq
      refine ⟨q, hq, by rw [hsh.backed]; exact hqb, ?_⟩
      rw [Cells.tainted_eq, hsh.raw, heff.clean q ⟨i, hi, by rw [← hspan]; exact hq⟩, Bool.false_or]
    · rw [hsh.dropped (fun h => ht ⟨hsc, htaken.1 h⟩), heff.vtaint]
    · rw [Cells.tainted_eq, Cells.tainted_eq, hsh.raw, hsh.frame q hq, heff.vtaint,
        heff.frame q (fun ⟨i, hi, h⟩ => hq i hi (by rw [hspan]; exact h)) fun ⟨w, hw', hs⟩ => hw w hw' hs]
  | false =>
    rw [hsc, if_neg Bool.false_ne_true] at hscat
    subst hscat
    obtain ⟨heff, hfound⟩ := storeImpl_effect hsize hok himpl fun i hi q hq =>
      hsome hi (by rw [hspan₂]; exact hq)
    rw [← hbus, ← hspan₂] at heff
    refine ⟨heff.ok, fun i hi => ?_, fun h => ?_, fun _ => heff.vtaint, fun q hq hw => ?_⟩
    · obtain ⟨q, hq, -⟩ := hfound i hi
      rw [← hspan₂] at hq
      refine ⟨q, hq, by rw [heff.backed]; exact hsome hi hq, ?_⟩
      rw [Cells.tainted_eq, heff.clean q ⟨i, hi, hq⟩, Bool.false_or]
    · rw [hsc] at h
      cases h
    · rw [Cells.tainted_eq, Cells.tainted_eq, heff.vtaint,
        heff.frame q (fun ⟨i, hi, h⟩ => hq i hi h) fun ⟨w, hw', hs⟩ => hw w hw' hs]

/-- A load right after a storing instruction gathers the copy marks of the span. -/
theorem gathered_after {s : Sys β} {va : U32} {size : Nat} (hsize : AccessSize size)
    (hok : RamBus.Ok s.bus)
    (hg : ∀ i < size, ∃ q, s.cpu.spanPa .write va size i = some q ∧
      TaintRam.backed s.bus q = true ∧ (RamBus.cells s.bus).tainted q =
        (RamBus.cells s.bus).has PERM_VTAINT q)
    {signed : Bool} {v t : U32} {s'' : Sys β}
    (hl : loadWithTaint va size signed s = (.ok (v, some t), s'')) :
    ∀ i < size, ∀ q, s.cpu.spanPa .write va size i = some q →
      taintBit t i = (RamBus.cells s.bus).has PERM_VTAINT q := by
  have h0 : 0 < size := by rcases hsize with rfl | rfl | rfl <;> decide
  have h4 : size ≤ 4 := by rcases hsize with rfl | rfl | rfl <;> decide
  obtain ⟨w, s₁, hv, hrest⟩ := Comp.bind_eq_ok hl
  obtain ⟨rfl, hread⟩ := loadImpl_of_write h4 (fun i hi => (hg i hi).imp fun _ h => h.1) h0 hv
  unfold getHart at hrest
  rw [Comp.gets_bind] at hrest
  split at hrest
  next =>
    obtain ⟨t', ht, hbits⟩ := loadTaint_bits h0 h4 hok fun i hi => by
      obtain ⟨q, hq, hqb, -⟩ := hg i hi
      exact ⟨q, (hread i hi).trans hq, hqb⟩
    rw [Comp.bind_ok ht] at hrest
    cases hrest
    intro i hi q hq
    obtain ⟨q', hq', -, htv⟩ := hg i hi
    rw [hq] at hq'
    cases hq'
    rw [hbits i hi q ((hread i hi).trans hq), htv]
  next => cases hrest

/-- A machine over a memory that stays a memory, as a relation of the system with itself. -/
def OkRel (s t : Sys β) : Prop := s = t ∧ RamBus.Ok s.bus

omit [TaintRam β] in
/-- The relation looks at nothing else. -/
theorem okRel_busUniform : BusUniform (@OkRel β _ _) where
  hart h := by rw [h.1]
  setHart h _ _ := ⟨by rw [h.1], h.2⟩
  setFlush h _ _ := ⟨by rw [h.1], h.2⟩
  xlate {s t} h va access := by
    obtain ⟨rfl, h⟩ := h
    refine ⟨rfl, rfl, ?_⟩
    rcases (xlate_effect va access s).bus with hb | ⟨w, v, hb⟩
    · rw [hb]
      exact h
    · rw [hb]
      exact RamBus.store_ok h w 4 v
  load h _ _ := by rw [h.1]
  ifetch16 h _ := by rw [h.1]
  rawState h _ _ := by rw [h.1]

omit [RamBus β] [TaintRam β] in
/-- Where the bytes of a granted access are. -/
theorem spanPa_of_granted {c : Cpu} {access : Access} {va : U32} {size : Nat}
    (h : c.Granted access va size) : ∀ i < size, ∃ q, c.spanPa access va size i = some q := by
  unfold Cpu.Granted at h
  unfold Cpu.spanPa
  intro i hi
  split at h
  next hb =>
    rw [if_pos hb]
    exact h i hi
  next hb =>
    obtain ⟨pa, hpa⟩ := h
    exact ⟨_, by rw [if_neg hb, hpa]; rfl⟩

omit [Bus β] [RamBus β] [TaintRam β] in
/-- A register has the taint that was written. -/
theorem wrTainted_taint {h : Hart} {rd : Reg} (hk : h.kmsanEnabled = true) (hrd : rd ≠ 0) (v t : U32) :
    (h.wrTainted rd v t).kmsanEnabled = true ∧ (h.wrTainted rd v t).rdTaint rd = t := by
  obtain ⟨taint, ht⟩ := Option.isSome_iff_exists.1 hk
  unfold Hart.wrTainted Hart.wrReg Hart.wrTaint Hart.kmsanEnabled Hart.rdTaint
  rw [if_neg hrd, if_neg hrd, ht]
  refine ⟨rfl, ?_⟩
  dsimp only
  rw [if_neg hrd, Function.update_self]

/-- What a load instruction has run, and the mask that its register is left with. -/
structure Loaded (s' : Sys β) (va : U32) (size : Nat) (rd : Reg) : Prop where
  ok : RamBus.Ok s'.bus
  kmsan : s'.hart.kmsanEnabled = true
  found : ∀ i < size, ∃ q, s'.cpu.spanPa .read va size i = some q
  bits : ∀ i < size, ∀ q, s'.cpu.spanPa .read va size i = some q →
    taintBit (s'.hart.rdTaint rd) i = (RamBus.cells s'.bus).tainted q

/-- A load gives its register the marks of the span. -/
theorem loaded_taint {op : LoadOp} {rd rs1 : Reg} {imm pc ilen iword : U32} {s s' : Sys β} {x : Exit}
    (hok : RamBus.Ok s.bus) (hk : s.hart.kmsanEnabled = true) (hrd : rd ≠ 0)
    (hx : execOne (.load op rd rs1 imm) pc ilen iword s = (.ok x, s'))
    (hb : SpanBacked s'.cpu s'.bus .read (s.hart.rdReg rs1 + imm) op.size) :
    Loaded s' (s.hart.rdReg rs1 + imm) op.size rd := by
  have h0 : 0 < op.size := by cases op <;> decide
  have h4 : op.size ≤ 4 := by cases op <;> decide
  obtain ⟨r, s₃, hr, hret⟩ := Comp.bind_eq_ok hx
  have hs' : s' = s₃.setHart (s₃.hart.retire r.2) := (Prod.mk.inj hret).2.symm
  unfold execInst getHart at hr
  rw [Comp.gets_bind] at hr
  obtain ⟨⟨v, mask⟩, s₁, hload, hrest⟩ := Comp.bind_eq_ok hr
  obtain ⟨w, s₂, himpl, htaint⟩ := Comp.bind_eq_ok hload
  have hhart : s₂.hart = s.hart := by
    have := loadImpl_keeps (s.hart.rdReg rs1 + imm) op.size op.signed s
    rwa [himpl] at this
  have hok₂ : RamBus.Ok s₂.bus := by
    have := (okRel_busUniform.loadImpl (s.hart.rdReg rs1 + imm) op.size op.signed ⟨rfl, hok⟩).rel
    rw [himpl] at this
    exact this.2
  have hk₂ : s₂.hart.kmsanEnabled = true := by rw [hhart, hk]
  unfold getHart at htaint
  rw [Comp.gets_bind, if_pos hk₂] at htaint
  have hspan := spanPa_of_granted (loadImpl_granted h4 himpl)
  obtain ⟨u, s₄, hm, hp⟩ := Comp.bind_eq_ok hrest
  cases hp
  obtain ⟨t, s₅, ht, hp⟩ := Comp.bind_eq_ok htaint
  cases hp
  -- gathering the taint changes nothing, so the loaded register is all that is new
  obtain ⟨t', ht'⟩ := loadTaint_of_granted (loadImpl_granted h4 himpl)
  rw [ht'] at ht
  obtain ⟨hte, hse⟩ := Prod.mk.inj ht
  cases hte
  subst hse
  have hs : s' = s₂.setHart ((s₂.hart.wrTainted rd v
      (extendLoadTaint t op.size op.signed)).retire (pc + ilen)) := by
    rw [hs', ← (Prod.mk.inj hm).2]
    rfl
  have hbus : s'.bus = s₂.bus := by rw [hs]; rfl
  have hfast : s'.cpu.fastPa = s₂.cpu.fastPa := by
    rw [hs]
    refine fastPa_of_view ?_ rfl
    have hblind : Blind fun h : Hart => (h.csr, h.privilege) := fun _ _ _ _ _ _ => rfl
    exact hblind.wrTainted s₂.hart rd _ _
  have hspan' := spanPa_of_fastPa hfast .read (s.hart.rdReg rs1 + imm) op.size
  obtain ⟨t', ht, hbits⟩ := loadTaint_bits h0 h4 hok₂ fun i hi => by
    obtain ⟨q, hq⟩ := hspan i hi
    have hq' := hb i hi
    rw [hspan', hq, hbus] at hq'
    exact ⟨q, hq, hq'⟩
  rw [ht'] at ht
  cases ht
  obtain ⟨hk', hrd'⟩ := wrTainted_taint hk₂ hrd v (extendLoadTaint t op.size op.signed)
  refine ⟨by rw [hbus]; exact hok₂, by rw [hs]; exact hk', fun i hi => ?_, fun i hi q hq => ?_⟩
  · rw [hspan']
    exact hspan i hi
  rw [hbus, ← hbits i hi q (by rw [← hspan']; exact hq), hs]
  change taintBit ((s₂.hart.wrTainted rd v _).rdTaint rd) i = _
  rw [hrd', taintBit_extendLoadTaint hi h4]

/-! ## The two directions -/

/-- After a storing instruction its span carries the marks of the stored value if the scatter reached
it, or if it carried them before. -/
theorem marked_iff {s s' : Sys β} {st : StoredSpan} (h : StoredTaint s s' st) :
    Marked s'.cpu s'.bus st.va st.size st.mask ↔
      (st.scatters = true ∧ Scatters s'.cpu s.bus st.va st.size) ∨
        Marked s'.cpu s.bus st.va st.size st.mask := by
  by_cases hs : st.scatters = true ∧ Scatters s'.cpu s.bus st.va st.size
  · exact ⟨fun _ => .inl hs, fun _ => h.marked hs.1 hs.2⟩
  · constructor
    · intro hm
      refine .inr fun i hi q hq => ?_
      rw [← h.dropped hs q, hm i hi q hq]
    · rintro (hs' | hm)
      · exact absurd hs' hs
      · intro i hi q hq
        rw [h.dropped hs q, hm i hi q hq]

/-- What a load gathers right after a storing instruction is the taint of the stored value, and no
other byte has changed its taint, exactly if the instruction scatters and its scatter reaches the
span, or the span had the copy marks of the value before. So also a store of a loaded register moves
the taint of the source exactly then. -/
theorem stores_copy_taint_iff :
    (∀ (inst : Inst) (pc ilen iword : U32) (s s' s'' : Sys β) (x : Exit) (st : StoredSpan)
      (signed : Bool) (v t : U32), RamBus.Ok s.bus → s.hart.kmsanEnabled = true →
      inst.storedSpan s.hart = some st → execOne inst pc ilen iword s = (.ok x, s') →
      SpanBacked s'.cpu s.bus .write st.va st.size →
      loadWithTaint st.va st.size signed s' = (.ok (v, some t), s'') →
      (TaintCopied s s' st t ↔
        (st.scatters = true ∧ Scatters s'.cpu s.bus st.va st.size) ∨
          Marked s'.cpu s.bus st.va st.size st.mask)) ∧
    ∀ (lop : LoadOp) (sop : StoreOp) (rd rs1 rs1' : Reg) (imm imm' pc ilen iword pc' ilen' iword' : U32)
      (s s₁ s₂ : Sys β) (x x' : Exit), RamBus.Ok s.bus → s.hart.kmsanEnabled = true →
      sop.size = lop.size → rd ≠ 0 →
      execOne (.load lop rd rs1 imm) pc ilen iword s = (.ok x, s₁) →
      execOne (.store sop rs1' rd imm') pc' ilen' iword' s₁ = (.ok x', s₂) →
      SpanBacked s₁.cpu s₁.bus .read (s.hart.rdReg rs1 + imm) lop.size →
      SpanBacked s₂.cpu s₁.bus .write (s₁.hart.rdReg rs1' + imm') lop.size →
      ((∀ i < lop.size, ∀ p q, s₁.cpu.spanPa .read (s.hart.rdReg rs1 + imm) lop.size i = some p →
          s₂.cpu.spanPa .write (s₁.hart.rdReg rs1' + imm') lop.size i = some q →
          (RamBus.cells s₂.bus).tainted q = (RamBus.cells s₁.bus).tainted p) ↔
        Scatters s₂.cpu s₁.bus (s₁.hart.rdReg rs1' + imm') lop.size ∨
          Marked s₂.cpu s₁.bus (s₁.hart.rdReg rs1' + imm') lop.size (s₁.hart.rdTaint rd)) := by
  constructor
  · intro inst pc ilen iword s s' s'' x st signed v t hok hk hst hx hb hl
    have h := stored_taint hok hk hst hx hb
    have hbits := gathered_after (Inst.storedSpan_size hst) h.ok h.found hl
    rw [← marked_iff h]
    constructor
    · intro hc i hi q hq
      rw [← hbits i hi q hq, hc.gathered i hi]
    · refine fun hm => ⟨fun i hi => ?_, h.frame⟩
      obtain ⟨q, hq, -⟩ := h.found i hi
      rw [hbits i hi q hq, hm i hi q hq]
  · intro lop sop rd rs1 rs1' imm imm' pc ilen iword pc' ilen' iword' s s₁ s₂ x x' hok hk hsz hrd
      hx hx' hsrc hdst
    have hl := loaded_taint hok hk hrd hx hsrc
    have hst : (Inst.store sop rs1' rd imm').storedSpan s₁.hart =
        some ⟨s₁.hart.rdReg rs1' + imm', lop.size, s₁.hart.rdReg rd, s₁.hart.rdTaint rd, true⟩ := by
      rw [← hsz]
      rfl
    have h := stored_taint hl.ok hl.kmsan hst hx' hdst
    have hiff := marked_iff h
    simp only [true_and] at hiff
    rw [← hiff]
    constructor
    · intro hc i hi q hq
      obtain ⟨p, hp⟩ := hl.found i hi
      obtain ⟨q', hq', -, hq''⟩ := h.found i hi
      rw [hq] at hq'
      cases hq'
      rw [← hq'', hc i hi p q hp hq, hl.bits i hi p hp]
    · intro hm i hi p q hp hq
      obtain ⟨q', hq', -, hq''⟩ := h.found i hi
      rw [hq] at hq'
      cases hq'
      rw [hq'', hm i hi q hq, hl.bits i hi p hp]

end

/-- A hart in M mode with KMSAN on: `x11` is tainted, and `x10` points into initialised RAM and is
reserved. Of the byte at `0x200` nothing was ever written. -/
def taintedHart : Sys Machine where
  cpu := { Cpu.new 0x80000000 with
    regs := fun i => if i = 10 then 0x80000100 else if i = 11 then 7 else 0
    regsTaint := some fun i => if i = 11 then 0x01010101 else 0
    reservation := some 0x80000100 }
  bus := { MachineOf.new 0x80000000 0x2000 with
    ram := { Mmu.new 0x80000000 0x2000 with
      perms := fun off =>
        if off = 0x200 then PERM_READ ||| PERM_WRITE ||| PERM_RAW else PERM_READ ||| PERM_WRITE } }

/-- `sc.w x12, x11, (x10)`. -/
def conditionalStore : Inst := .scW 12 10 11 false false

def conditionalSpan : StoredSpan := ⟨0x80000100, 4, 7, 0x01010101, false⟩

/-- The span of the store. -/
theorem conditionalStore_span :
    conditionalStore.storedSpan taintedHart.hart = some conditionalSpan := by decide

/-- The hart after the store-conditional. -/
def conditionalHart : Sys Machine := (execOne conditionalStore 0x80000000 4 0 taintedHart).2

/-- The store is made. -/
theorem conditionalStore_ok : execOne conditionalStore 0x80000000 4 0 taintedHart =
    (.ok .continue, conditionalHart) := Prod.ext (by decide) rfl

/-- It goes to RAM. -/
theorem conditionalSpan_backed :
    SpanBacked conditionalHart.cpu taintedHart.bus .write conditionalSpan.va conditionalSpan.size := by
  unfold SpanBacked
  decide

/-- A load of the span gathers no taint. -/
theorem conditionalSpan_load :
    loadWithTaint conditionalSpan.va conditionalSpan.size false conditionalHart =
      (.ok (7, some 0),
        (loadWithTaint conditionalSpan.va conditionalSpan.size false conditionalHart).2) :=
  Prod.ext (by decide) rfl

/-- `lw x12, 0x100(x10)` reads the span with the byte that was never written. -/
def movingLoad : Sys Machine := (execOne (.load .lw 12 10 0x100) 0x80000000 4 0 taintedHart).2

/-- `sw x12, 0(x10)` after it. -/
def movingStore : Sys Machine := (execOne (.store .sw 10 12 0) 0x80000004 4 0 movingLoad).2

theorem stores_copy_taint_iff_tainted :
    (TaintCopied taintedHart conditionalHart conditionalSpan 0 ↔
      (conditionalSpan.scatters = true ∧
          Scatters conditionalHart.cpu taintedHart.bus conditionalSpan.va conditionalSpan.size) ∨
        Marked conditionalHart.cpu taintedHart.bus conditionalSpan.va conditionalSpan.size
          conditionalSpan.mask) ∧
    ((∀ i < 4, ∀ p q, movingLoad.cpu.spanPa .read 0x80000200 4 i = some p →
        movingStore.cpu.spanPa .write 0x80000100 4 i = some q →
        (RamBus.cells movingStore.bus).tainted q = (RamBus.cells movingLoad.bus).tainted p) ↔
      Scatters movingStore.cpu movingLoad.bus 0x80000100 4 ∨
        Marked movingStore.cpu movingLoad.bus 0x80000100 4 (movingLoad.hart.rdTaint 12)) := by
  refine ⟨stores_copy_taint_iff.1 _ _ _ _ _ _ _ _ _ _ _ _ trivial (by decide +kernel)
    conditionalStore_span conditionalStore_ok conditionalSpan_backed conditionalSpan_load, ?_⟩
  refine stores_copy_taint_iff.2 .lw .sw 12 10 10 0x100 0 0x80000000 4 0 0x80000004 4 0 taintedHart
    movingLoad movingStore .continue .continue trivial (by decide +kernel) rfl (by decide)
    (Prod.ext (by decide +kernel) rfl) (Prod.ext (by decide +kernel) rfl) ?_ ?_
  all_goals unfold SpanBacked
  · decide +kernel
  · decide +kernel

/-- A store-conditional of a tainted register leaves its bytes untainted. -/
theorem sc_drops_taint :
    ¬ ∀ (inst : Inst) (pc ilen iword : U32) (s s' s'' : Sys Machine) (x : Exit) (st : StoredSpan)
      (signed : Bool) (v t : U32), RamBus.Ok s.bus → s.hart.kmsanEnabled = true →
      inst.storedSpan s.hart = some st → execOne inst pc ilen iword s = (.ok x, s') →
      SpanBacked s'.cpu s.bus .write st.va st.size →
      loadWithTaint st.va st.size signed s' = (.ok (v, some t), s'') → TaintCopied s s' st t := by
  intro h
  have hc := h _ _ _ _ _ _ _ _ _ _ _ _ trivial (by decide +kernel) conditionalStore_span
    conditionalStore_ok conditionalSpan_backed conditionalSpan_load
  exact absurd (hc.gathered 0 (by decide)) (by decide)

end FuzzSoft
