import FuzzSoft.Platform.TaintCopy
import FuzzSoft.Platform.Twins
import FuzzSoft.Riscv.HartTwins

/-!
# Accesses to memories that differ in tainted bytes

Two systems are linked when their harts are twins and their memories agree in every byte that is not
tainted (`Linked`). Fetches and loads keep linked systems linked and give words that agree where the
taint they gather says so, provided the page-table words that their translations read are untainted
(`WalkClean`). A store writes its bytes before their taint is scattered over them; in between the bytes
count with the taint they are going to have (`Pending`).
-/

namespace FuzzSoft

open Lib

/-! ## Memories -/

/-- The taint that bytes which were just stored are going to have. -/
abbrev Pending := U32 → Option Bool

/-- No store is under way. -/
def Pending.idle : Pending := fun _ => none

section
variable {β : Type} [Bus β] [RamBus β] [TaintRam β]

/-- A byte that may differ between linked memories. -/
def marked (b : β) (D : Pending) (q : U32) : Bool := (D q).getD ((RamBus.cells b).tainted q)

/-- The span that a store wrote counts with the taint of the stored value, if it went to RAM. -/
def Pending.write (D : Pending) (b : β) (pa : U32) (n : Nat) (mask : U32) : Pending := fun q =>
  if TaintRam.backed b pa = true ∧ (q - pa).toNat < n then some (taintBit mask (q - pa).toNat)
  else D q

variable [TwinBus β]

/-- The memories agree but for bytes marked on the left, and so do the rest of the two buses. -/
structure BusTwins (D : Pending) (b c : β) : Prop where
  ok : RamBus.Ok b
  ok' : RamBus.Ok c
  rest : TwinBus.Rest b c
  perms : (RamBus.cells b).SamePerms (RamBus.cells c)
  filled : ∀ q, (D q).isSome = true → (RamBus.cells b q).isSome = true
  bytes : ∀ q, marked b D q = false → RamBus.cells c q = RamBus.cells b q

namespace BusTwins

variable {D : Pending} {b c : β}

/-- Pending bytes may be forgotten when those that may differ carry their mark. -/
theorem settle (h : BusTwins D b c)
    (hD : ∀ q, D q = some true → (RamBus.cells b).tainted q = true) : BusTwins .idle b c where
  ok := h.ok
  ok' := h.ok'
  rest := h.rest
  perms := h.perms
  filled _ hq := nomatch hq
  bytes q hq := by
    refine h.bytes q ?_
    change (RamBus.cells b).tainted q = false at hq
    unfold marked
    cases hd : D q with
    | none => exact hq
    | some t =>
      cases t with
      | false => rfl
      | true =>
        rw [hD q hd] at hq
        cases hq

/-- Two stores of as many bytes. A byte may differ where it counts as marked afterwards. -/
theorem store_bytes (h : BusTwins D b c) {pa v w : U32} {n k : Nat} {b' c' : β} (h4 : n ≤ 4)
    (hok : RamBus.Ok b') (hok' : RamBus.Ok c') (hrest : TwinBus.Rest b' c')
    (hb : RamBus.cells b' = (RamBus.cells b).put pa ((leBytes v n).take k))
    (hc : RamBus.cells c' = (RamBus.cells c).put pa ((leBytes w n).take k))
    (hv : ∀ i < n, i < k → byteOf v i = byteOf w i ∨
      marked b' D (pa + BitVec.ofNat 32 i) = true) : BusTwins D b' c' := by
  have hlen : ∀ x : U32, ((leBytes x n).take k).length = min k n := fun x => by
    rw [List.length_take, length_leBytes]
  refine ⟨hok, hok', hrest, ?_, fun q hq => ?_, fun q hq => ?_⟩
  · rw [hb, hc]
    exact h.perms.put pa (by rw [hlen, hlen])
  · rw [hb, Cells.put_isSome]
    exact h.filled q hq
  · rcases Nat.lt_or_ge (q - pa).toNat (min k n) with hlt | hge
    · obtain ⟨i, hi, rfl⟩ := (inSpan_iff h4).1 (show InSpan q pa n by unfold InSpan; omega)
      have hi' : (pa + BitVec.ofNat 32 i - pa).toNat = i := by
        rw [BitVec.add_comm, BitVec.add_sub_cancel, BitVec.toNat_ofNat]
        omega
      rw [hi'] at hlt
      have hget : ∀ x : U32, ((leBytes x n).take k)[i]? = some (byteOf x i) := fun x => by
        rw [List.getElem?_take_of_lt (by omega), getElem?_leBytes x hi]
      have heq := (hv i hi (by omega)).resolve_right fun hm => absurd (hm.symm.trans hq) (by decide)
      rw [hb, hc]
      refine Cells.put_eq_of_mem (b := byteOf v i) h.perms ?_ ?_
      · rw [hi']
        exact hget v
      · rw [hi', heq]
        exact hget w
    · rw [hb, hc, Cells.put_of_notMem (by rw [hlen]; exact hge),
        Cells.put_of_notMem (by rw [hlen]; exact hge)]
      refine h.bytes q ?_
      unfold marked at hq ⊢
      rw [hb, Cells.tainted, Cells.has, Cells.put_of_notMem (by rw [hlen]; exact hge)] at hq
      exact hq

/-- Both buses store the same word. -/
theorem store_same (h : BusTwins D b c) {pa v : U32} {n : Nat} (hn : AccessSize n) :
    (Bus.store c pa n v).1 = (Bus.store b pa n v).1 ∧
      BusTwins D (Bus.store b pa n v).2 (Bus.store c pa n v).2 := by
  have h4 : n ≤ 4 := by rcases hn with rfl | rfl | rfl <;> decide
  obtain ⟨hout, hrest, k, -, -, hb, hc⟩ :=
    TwinBus.store (v := v) (w := v) h.rest h.ok h.ok' h.perms hn (.inl rfl)
  exact ⟨hout, h.store_bytes h4 (RamBus.store_ok h.ok pa n v) (RamBus.store_ok h.ok' pa n v) hrest hb hc
    fun _ _ _ => .inl rfl⟩

/-- A store of words that agree in their untainted bytes, at an address of RAM. -/
theorem store_backed (h : BusTwins D b c) {pa v w mask : U32} {n : Nat} (hn : AccessSize n)
    (hv : ∀ i < n, taintBit mask i = false → byteOf v i = byteOf w i)
    (hback : TaintRam.backed b pa = true) :
    (Bus.store c pa n w).1 = (Bus.store b pa n v).1 ∧
      ((Bus.store b pa n v).1 = .ok () →
        BusTwins (D.write b pa n mask) (Bus.store b pa n v).2 (Bus.store c pa n w).2) := by
  have h4 : n ≤ 4 := by rcases hn with rfl | rfl | rfl <;> decide
  obtain ⟨hout, hrest, -⟩ :=
    TwinBus.store (v := v) (w := w) h.rest h.ok h.ok' h.perms hn (.inr fun _ => .inl hback)
  refine ⟨hout, fun hok => ?_⟩
  obtain ⟨-, hfill, hb⟩ := TaintRam.store_backed h.ok hn hok hback
  obtain ⟨-, -, hc⟩ := TaintRam.store_backed h.ok' hn (hout.trans hok)
    (by rw [(TwinBus.same h.rest).1]; exact hback)
  refine ⟨RamBus.store_ok h.ok pa n v, RamBus.store_ok h.ok' pa n w, hrest, ?_, fun q hq => ?_,
    fun q hq => ?_⟩
  · rw [hb, hc]
    exact h.perms.put pa (by rw [length_leBytes, length_leBytes])
  · rw [hb, Cells.put_isSome]
    unfold Pending.write at hq
    split at hq
    next hin =>
      obtain ⟨i, hi, rfl⟩ := (inSpan_iff h4).1 hin.2
      exact hfill i hi
    next => exact h.filled q hq
  · rw [hb, hc]
    unfold marked Pending.write at hq
    by_cases hlt : (q - pa).toNat < n
    · rw [if_pos ⟨hback, hlt⟩] at hq
      refine Cells.put_eq_of_mem h.perms (getElem?_leBytes v hlt) ?_
      rw [getElem?_leBytes w hlt]
      exact congrArg some (hv _ hlt hq).symm
    · rw [if_neg fun hin => hlt hin.2] at hq
      have hge : ∀ x : U32, (leBytes x n).length ≤ (q - pa).toNat := fun x => by
        rw [length_leBytes]
        omega
      rw [Cells.put_of_notMem (hge v), Cells.put_of_notMem (hge w)]
      refine h.bytes q ?_
      unfold marked
      rw [hb, Cells.tainted, Cells.has, Cells.put_of_notMem (hge v)] at hq
      exact hq

/-- A store that no load gives back. -/
theorem store_quiet (h : BusTwins D b c) {pa v w : U32} {n : Nat} (hn : AccessSize n)
    (hq : TwinBus.quiet b pa = true) : (Bus.store c pa n w).1 = (Bus.store b pa n v).1 ∧
      BusTwins D (Bus.store b pa n v).2 (Bus.store c pa n w).2 := by
  have h4 : n ≤ 4 := by rcases hn with rfl | rfl | rfl <;> decide
  obtain ⟨hout, hrest, k, -, hk, hb, hc⟩ :=
    TwinBus.store (v := v) (w := w) h.rest h.ok h.ok' h.perms hn (.inr fun _ => .inr hq)
  exact ⟨hout, h.store_bytes h4 (RamBus.store_ok h.ok pa n v) (RamBus.store_ok h.ok' pa n w) hrest hb hc
    fun i _ hi => by rw [hk hq] at hi; cases hi⟩

/-- A store that is refused midway. The bytes before may differ where they count as marked. -/
theorem store_refused (h : BusTwins D b c) {pa v w : U32} {n : Nat} (hn : AccessSize n) {f : Fault}
    (hf : (Bus.store b pa n v).1 = .error f)
    (hv : TwinBus.quiet b pa = false → ∀ i, i + 1 < n → i < (f.addr - pa).toNat →
      byteOf v i = byteOf w i ∨ marked (Bus.store b pa n v).2 D (pa + BitVec.ofNat 32 i) = true) :
    (Bus.store c pa n w).1 = (Bus.store b pa n v).1 ∧
      BusTwins D (Bus.store b pa n v).2 (Bus.store c pa n w).2 := by
  have h4 : n ≤ 4 := by rcases hn with rfl | rfl | rfl <;> decide
  obtain ⟨hout, hrest, k, hk, hq, hb, hc⟩ :=
    TwinBus.store (v := v) (w := w) h.rest h.ok h.ok' h.perms hn
      (.inr fun hok => nomatch hf.symm.trans hok)
  obtain ⟨hkn, hka⟩ := hk f hf
  refine ⟨hout, h.store_bytes h4 (RamBus.store_ok h.ok pa n v) (RamBus.store_ok h.ok' pa n w) hrest hb hc
    fun i _ hi => ?_⟩
  cases hquiet : TwinBus.quiet b pa with
  | false => exact hv hquiet i (by omega) (by omega)
  | true =>
    rw [hq hquiet] at hi
    cases hi

/-- A scatter over a span that counts with its taint already. -/
theorem shadow (h : BusTwins D b c) {pa mask : U32} {n : Nat} (h0 : 0 < n) (h4 : n ≤ 4)
    (hw : pa.toNat + n ≤ 2 ^ 32)
    (hD : TaintRam.backed b pa = true → ∀ i < n, (D (pa + BitVec.ofNat 32 i)).isSome = true) :
    BusTwins D (Bus.writeShadow b pa n mask) (Bus.writeShadow c pa n mask) := by
  cases hback : TaintRam.backed b pa with
  | false =>
    obtain ⟨hb, hc⟩ := TwinBus.unbacked (n := n) h.rest hback
    rw [hb, hc]
    exact h
  | true =>
    have hD := hD hback
    obtain ⟨hsame, hwhole⟩ := TwinBus.same h.rest
    have hfill : (RamBus.cells b).Filled pa n := fun i hi => h.filled _ (hD i hi)
    obtain ⟨hok, hb⟩ := TaintRam.shadow h.ok h0 h4 hw hback hfill
    obtain ⟨hok', hc⟩ := TaintRam.shadow h.ok' h0 h4 hw (by rw [hsame, hback])
      fun i hi => by
        rw [h.perms.isSome]
        exact hfill i hi
    rw [hwhole] at hc
    refine ⟨hok, hok', TwinBus.shadow pa n mask h.rest, ?_, fun q hq => ?_, fun q hq => ?_⟩
    · rw [hb, hc]
      split
      · exact h.perms.shade pa mask n
      · exact h.perms
    · rw [hb]
      split
      · rw [Cells.shade_isSome]
        exact h.filled q hq
      · exact h.filled q hq
    · rw [hb, hc]
      split
      next ht =>
        have hq' : RamBus.cells c q = RamBus.cells b q := by
          refine h.bytes q ?_
          unfold marked at hq ⊢
          cases hd : D q with
          | some t =>
            rw [hd] at hq
            exact hq
          | none =>
            rw [hd] at hq
            change (RamBus.cells (Bus.writeShadow b pa n mask)).tainted q = false at hq
            rw [hb, if_pos ht, Cells.tainted, has_shade_frame fun hin => ?_] at hq
            · exact hq
            · obtain ⟨i, hi, rfl⟩ := (inSpan_iff h4).1 hin
              have := hD i hi
              rw [hd] at this
              cases this
        unfold Cells.shade
        rw [hq']
      next ht =>
        refine h.bytes q ?_
        unfold marked at hq ⊢
        rw [hb, if_neg ht] at hq
        exact hq

end BusTwins

/-! ## Systems -/

/-- KMSAN is on, and the systems agree but for tainted bytes of registers and of memory, and for what
the harts logged. -/
structure Linked (D : Pending) (s t : Sys β) : Prop where
  hart : HartTwins s.hart t.hart
  tlb : t.cpu.tlb = s.cpu.tlb
  bus : BusTwins D s.bus t.bus

namespace Linked

variable {D : Pending} {s t : Sys β}

/-- New harts that are twins. -/
theorem setHart (h : Linked D s t) {k k' : Hart} (hk : HartTwins k k') :
    Linked D (s.setHart k) (t.setHart k') := ⟨hk, h.tlb, h.bus⟩

/-- Both TLBs may be flushed. -/
theorem flushTlb (h : Linked D s t) : Linked D s.flushTlb t.flushTlb := ⟨h.hart, rfl, h.bus⟩

/-- Updates of the harts that keep them twins. -/
theorem modifyHart (h : Linked D s t) {f g : Hart → Hart}
    (hfg : HartTwins (f s.hart) (g t.hart)) :
    Sim (Linked D) (FuzzSoft.modifyHart f) (FuzzSoft.modifyHart g) s t := Sim.modify (h.setHart hfg)

/-- The grants of a linked hart are the same. -/
theorem fastPa (h : Linked D s t) : t.cpu.fastPa = s.cpu.fastPa := by
  funext va access
  have hu : t.cpu.toHart.untranslated access = s.cpu.toHart.untranslated access :=
    h.hart.view (p := fun h => h.untranslated access) fun _ => rfl
  have hl : t.cpu.toHart.leafOk access = s.cpu.toHart.leafOk access :=
    h.hart.view (p := fun h => h.leafOk access) fun _ => rfl
  unfold Cpu.fastPa
  rw [hu, hl, h.tlb]

end Linked

/-! ## Translations -/

/-- The words of the page table that a walk reads. -/
def walkWords (b : β) (satp va : U32) : List U32 :=
  pteAddr1 (rootTable satp) va ::
    match loadPte b (pteAddr1 (rootTable satp) va) with
    | some pte => if pteInvalid pte || pteLeaf pte then [] else [pteAddr0 (pteTable pte) va]
    | none => []

/-- The translation walks the page table. -/
def Cpu.walks (c : Cpu) (va : U32) (access : Access) : Bool :=
  !c.untranslated access &&
    match c.tlb.get (va >>> 12) with
    | some e => c.leafOk access e.bits && access = .write && !e.dSet
    | none => true

/-- Every page-table word that the translation reads is unmarked. -/
def WalkClean (D : Pending) (s : Sys β) (va : U32) (access : Access) : Prop :=
  s.cpu.walks va access = true → ∀ a ∈ walkWords s.bus s.hart.csr.satp va, ∀ i < 4,
    marked s.bus D (a + BitVec.ofNat 32 i) = false

instance (D : Pending) (s : Sys β) (va : U32) (access : Access) : Decidable (WalkClean D s va access) :=
  inferInstanceAs (Decidable (_ → _))

omit [RamBus β] [TaintRam β] [TwinBus β] in
/-- A walk depends on the words it reads. -/
theorem walk_congr {b c : β} {satp va : U32}
    (h : ∀ a ∈ walkWords b satp va, loadPte c a = loadPte b a) : walk c satp va = walk b satp va := by
  have h1 := h _ List.mem_cons_self
  unfold walk walkWith
  dsimp only
  rw [h1]
  cases hp : loadPte b (pteAddr1 (rootTable satp) va) with
  | none => rfl
  | some pte =>
    simp only [Option.bind_eq_bind, Option.bind_some]
    split
    · rfl
    next hi =>
      split
      · rfl
      next hl =>
        rw [h (pteAddr0 (pteTable pte) va)]
        unfold walkWords
        rw [hp]
        simp [hi, hl]

omit [RamBus β] [TaintRam β] [TwinBus β] in
/-- A walk ends at a word it has read. -/
theorem walk_mem {b : β} {satp va : U32} {l : Leaf} (h : walk b satp va = some l) :
    l.addr ∈ walkWords b satp va := by
  unfold walk walkWith at h
  dsimp only at h
  unfold walkWords
  cases hp : loadPte b (pteAddr1 (rootTable satp) va) with
  | none =>
    rw [hp] at h
    cases h
  | some pte =>
    rw [hp] at h
    simp only [Option.bind_eq_bind, Option.bind_some] at h
    split at h
    · cases h
    next hi =>
      split at h
      · cases h
        exact List.mem_cons_self
      next hl =>
        obtain ⟨pte0, -, h⟩ := Option.bind_eq_some_iff.1 h
        split at h
        · cases h
        split at h
        · cases h
          simp [hi, hl]
        · cases h

/-- A word whose bytes are unmarked is read alike. -/
theorem BusTwins.loadPte {D : Pending} {b c : β} (h : BusTwins D b c) {a : U32}
    (hc : ∀ i < 4, marked b D (a + BitVec.ofNat 32 i) = false) :
    loadPte c a = loadPte b a := by
  unfold FuzzSoft.loadPte
  rcases TwinBus.load (n := 4) h.rest h.ok h.ok' h.perms (.inr (.inr rfl)) with
    ⟨f, hb, hc'⟩ | ⟨v, w, hb, hc', heq⟩
  · rw [hb, hc']
  · rw [hb, hc', eq_of_bytes fun i hi => heq i hi fun _ _ => h.bytes _ (hc i hi)]

section
variable {D : Pending} {s t : Sys β}

omit [RamBus β] [TaintRam β] [TwinBus β] in
/-- A translation that walks. -/
theorem xlate_of_walks {va : U32} {access : Access} (hw : s.cpu.walks va access = true) :
    xlate va access s = walkFill va access s := by
  unfold Cpu.walks at hw
  unfold xlate
  obtain ⟨hu, hm⟩ := Bool.and_eq_true_iff.1 hw
  rw [Bool.not_eq_true'] at hu
  rw [show s.hart.untranslated access = false from hu, if_neg Bool.false_ne_true]
  cases hg : s.cpu.tlb.get (va >>> 12) with
  | none => rfl
  | some e =>
    rw [hg] at hm
    dsimp only at hm ⊢
    rw [Bool.and_assoc, Bool.and_eq_true_iff] at hm
    rw [if_neg (by rw [show s.hart.leafOk access e.bits = true from hm.1]; decide),
      if_neg (by simpa using hm.2)]

/-- Linked systems walk for the same accesses. -/
theorem Linked.walks (h : Linked D s t) (va : U32) (access : Access) :
    t.cpu.walks va access = s.cpu.walks va access := by
  have hu : t.hart.untranslated access = s.hart.untranslated access :=
    h.hart.view (p := fun h => h.untranslated access) fun _ => rfl
  have hl : t.hart.leafOk access = s.hart.leafOk access :=
    h.hart.view (p := fun h => h.leafOk access) fun _ => rfl
  unfold Cpu.walks
  change (!t.hart.untranslated access && match t.cpu.tlb.get (va >>> 12) with
    | some e => t.hart.leafOk access e.bits && access = .write && !e.dSet | none => true) = _
  rw [hu, hl, h.tlb]
  rfl

omit [RamBus β] [TaintRam β] [TwinBus β] in
/-- A translation that does not walk: a grant, or a refusal that the TLB decides. -/
theorem xlate_of_not_walks {va : U32} {access : Access} (hw : s.cpu.walks va access = false) :
    xlate va access s =
      (match s.cpu.fastPa va access with
        | some pa => .ok pa
        | none => .error (pageFault access va), s) := by
  cases hf : s.cpu.fastPa va access with
  | some pa => exact xlate_of_fastPa hf
  | none =>
    unfold Cpu.walks at hw
    unfold Cpu.fastPa at hf
    unfold xlate
    by_cases hu : s.hart.untranslated access = true
    · rw [if_pos (show s.cpu.toHart.untranslated access = true from hu)] at hf
      cases hf
    rw [if_neg (show ¬ s.cpu.toHart.untranslated access = true from hu)] at hf
    rw [show s.cpu.toHart.untranslated access = false from Bool.eq_false_iff.2 hu] at hw
    rw [if_neg hu]
    cases hg : s.cpu.tlb.get (va >>> 12) with
    | none =>
      rw [hg] at hw
      cases hw
    | some e =>
      rw [hg] at hw hf
      dsimp only at hw hf ⊢
      by_cases hp : s.hart.leafOk access e.bits = true
      · have hp' : s.cpu.toHart.leafOk access e.bits = true := hp
        rw [hp', Bool.not_true, if_neg Bool.false_ne_true] at hf
        rw [hp', Bool.not_false, Bool.true_and, Bool.true_and] at hw
        rw [hw, if_neg Bool.false_ne_true] at hf
        cases hf
      · rw [if_pos (by simpa using hp)]

/-- The same leaf is written back and cached alike. -/
theorem Linked.walkFill (h : Linked D s t) {va : U32} {access : Access}
    (hleaf : usableLeaf t.hart t.bus va access = usableLeaf s.hart s.bus va access) :
    Sim (Linked D) (walkFill va access) (walkFill va access) s t := by
  have hupd : ∀ l, (updateAd t.bus access l).1 = (updateAd s.bus access l).1 ∧
      BusTwins D (updateAd s.bus access l).2 (updateAd t.bus access l).2 := by
    intro l
    unfold updateAd
    split
    · exact h.bus.store_same (.inr (.inr rfl))
    · exact ⟨rfl, h.bus⟩
  unfold FuzzSoft.walkFill
  cases hu : usableLeaf s.hart s.bus va access with
  | none =>
    rw [hu] at hleaf
    exact ⟨by simp only [hu, hleaf], by simp only [hu, hleaf]; exact h⟩
  | some l =>
    rw [hu] at hleaf
    obtain ⟨ho, hb⟩ := hupd l
    rcases hs : updateAd s.bus access l with ⟨r, b⟩
    rcases ht : updateAd t.bus access l with ⟨r', c⟩
    rw [hs, ht] at ho hb
    cases ho
    cases r with
    | error e =>
      exact ⟨by simp only [hu, hleaf, hs, ht],
        by simp only [hu, hleaf, hs, ht]; exact ⟨h.hart, h.tlb, hb⟩⟩
    | ok u =>
      exact ⟨by simp only [hu, hleaf, hs, ht], by
        simp only [hu, hleaf, hs, ht]
        exact ⟨h.hart, by rw [h.tlb], hb⟩⟩

/-- A translation over unmarked page tables gives the same address and keeps the systems linked. -/
theorem Linked.xlate (h : Linked D s t) {va : U32} {access : Access} (hc : WalkClean D s va access) :
    Sim (Linked D) (xlate va access) (xlate va access) s t := by
  cases hw : s.cpu.walks va access with
  | false =>
    have hw' : t.cpu.walks va access = false := by rw [h.walks, hw]
    refine ⟨?_, ?_⟩
    · rw [xlate_of_not_walks hw, xlate_of_not_walks hw', h.fastPa]
    · rw [xlate_of_not_walks hw, xlate_of_not_walks hw']
      exact h
  | true =>
    have hw' : t.cpu.walks va access = true := by rw [h.walks, hw]
    have hsatp : t.hart.csr.satp = s.hart.csr.satp := h.hart.view (p := fun h => h.csr.satp) fun _ => rfl
    have hl : t.hart.leafOk access = s.hart.leafOk access :=
      h.hart.view (p := fun h => h.leafOk access) fun _ => rfl
    have hleaf : usableLeaf t.hart t.bus va access = usableLeaf s.hart s.bus va access := by
      unfold usableLeaf
      rw [hsatp, hl, walk_congr fun a ha => h.bus.loadPte (hc hw a ha)]
    have hwalk := h.walkFill hleaf
    exact ⟨by rw [xlate_of_walks hw, xlate_of_walks hw', hwalk.out],
      by rw [xlate_of_walks hw, xlate_of_walks hw']; exact hwalk.rel⟩

omit [TaintRam β] [TwinBus β] in
/-- Such a translation leaves the taint of memory as it is. -/
theorem WalkClean.tainted (hok : RamBus.Ok s.bus) {va : U32} {access : Access}
    (hc : WalkClean .idle s va access) (q : U32) :
    (RamBus.cells (FuzzSoft.xlate va access s).2.bus).tainted q = (RamBus.cells s.bus).tainted q := by
  cases hw : s.cpu.walks va access with
  | false => rw [xlate_of_not_walks hw]
  | true =>
    rw [xlate_of_walks hw]
    unfold walkFill
    cases hu : usableLeaf s.hart s.bus va access with
    | none => rfl
    | some l =>
      have hmem : l.addr ∈ walkWords s.bus s.hart.csr.satp va := walk_mem (usableLeaf_eq_some.1 hu).1
      have hkeep : (RamBus.cells (updateAd s.bus access l).2).tainted q =
          (RamBus.cells s.bus).tainted q := by
        unfold updateAd
        split
        · obtain ⟨k, hk, -, -, hcells⟩ := RamBus.store_cells hok l.addr 4 (withAd access l.pte)
          rw [hcells]
          rcases Nat.lt_or_ge (q - l.addr).toNat 4 with hlt | hge
          · obtain ⟨i, hi, rfl⟩ := (inSpan_iff (by decide)).1 hlt
            have hq : (RamBus.cells s.bus).tainted (l.addr + BitVec.ofNat 32 i) = false :=
              hc hw _ hmem i hi
            rw [hq]
            rw [Cells.tainted_eq, Bool.or_eq_false_iff] at hq ⊢
            exact ⟨Cells.has_put_raw_le hq.1 _ _, by rw [Cells.has_put_vtaint, hq.2]⟩
          · have hlen : ((leBytes (withAd access l.pte) (Mmu.width 4)).take k).length ≤ 4 := by
              rw [List.length_take, length_leBytes]
              exact Nat.min_le_right _ _
            rw [Cells.tainted, Cells.has, Cells.put_of_notMem (by omega)]
            rfl
        · rfl
      dsimp only
      rcases hr : updateAd s.bus access l with ⟨r, b⟩
      rw [hr] at hkeep
      cases r <;> exact hkeep

end

/-! ## Fetches -/

/-- The halfword at `va` is found over unmarked page tables and has no tainted byte. -/
def Fetch16Clean (va : U32) (s : Sys β) : Prop :=
  WalkClean .idle s va .exec ∧
    match xlate va .exec s with
    | (.ok pa, s') => ∀ i < 2, (RamBus.cells s'.bus).tainted (pa + BitVec.ofNat 32 i) = false
    | (.error _, _) => True

/-- The instruction at `pc` is. -/
def FetchClean (pc : U32) (s : Sys β) : Prop :=
  Fetch16Clean pc s ∧
    match fetch16 pc s with
    | (.ok lo, s') => lo &&& 0x3 = 0x3 → Fetch16Clean (pc + 2) s'
    | (.error _, _) => True

instance (va : U32) (s : Sys β) : Decidable (Fetch16Clean va s) :=
  @instDecidableAnd _ _ _ <|
    match xlate va .exec s with
    | (.ok _, _) => inferInstanceAs (Decidable (∀ i < 2, _))
    | (.error _, _) => isTrue trivial

instance (pc : U32) (s : Sys β) : Decidable (FetchClean pc s) :=
  @instDecidableAnd _ _ _ <|
    match fetch16 pc s with
    | (.ok _, _) => inferInstanceAs (Decidable (_ → _))
    | (.error _, _) => isTrue trivial

section
variable {s t : Sys β}

/-- The fetch of a halfword that is not tainted. -/
theorem Linked.fetch16 (h : Linked .idle s t) {va : U32} (hc : Fetch16Clean va s) :
    Sim (Linked .idle) (fetch16 va) (fetch16 va) s t := by
  refine (h.xlate hc.1).bind fun pa s' t' hs _ h' => ?_
  have hclean := hc.2
  rw [hs] at hclean
  have heq : Bus.ifetch16 t'.bus pa = Bus.ifetch16 s'.bus pa :=
    TwinBus.ifetch16 h'.bus.rest h'.bus.ok h'.bus.ok' h'.bus.perms fun i hi =>
      h'.bus.bytes _ (hclean i hi)
  exact ⟨by simp only [busIfetch16, heq], h'⟩

/-- Linked systems fetch the same instruction, unless one of its bytes is tainted. -/
theorem Linked.fetchDecode (h : Linked .idle s t) {pc : U32} (hc : FetchClean pc s) :
    Sim (Linked .idle) (fetchDecode pc) (fetchDecode pc) s t := by
  refine (h.fetch16 hc.1).bind fun lo s' t' hs _ h' => ?_
  have hhi := hc.2
  rw [hs] at hhi
  split
  · exact Sim.pure h'
  next hlo =>
    refine (h'.fetch16 (hhi (by simpa using hlo))).bind fun hi s'' t'' _ _ h'' => ?_
    exact Sim.pure h''

end

/-! ## Loads -/

/-- The translations of the bytes from `i` on are over unmarked page tables. -/
def GatherClean (va : U32) : (i n : Nat) → Sys β → Prop
  | _, 0, _ => True
  | i, n + 1, s =>
    WalkClean .idle s (va + BitVec.ofNat 32 i) .read ∧
      match loadByte (va + BitVec.ofNat 32 i) s with
      | (.ok _, s') => GatherClean va (i + 1) n s'
      | (.error _, _) => True

instance GatherClean.decidable (va : U32) : ∀ i n (s : Sys β), Decidable (GatherClean va i n s)
  | _, 0, _ => isTrue trivial
  | i, n + 1, s =>
    @instDecidableAnd _ _ _ <|
      match loadByte (va + BitVec.ofNat 32 i) s with
      | (.ok _, s') => GatherClean.decidable va (i + 1) n s'
      | (.error _, _) => isTrue trivial

/-- The translations of a load are over unmarked page tables. -/
def LoadClean (va : U32) (size : Nat) (s : Sys β) : Prop :=
  if bytewise va size then GatherClean va 0 size s else WalkClean .idle s va .read

instance (va : U32) (size : Nat) (s : Sys β) : Decidable (LoadClean va size s) :=
  inferInstanceAs (Decidable (if bytewise va size then GatherClean va 0 size s
    else WalkClean .idle s va .read))

/-- Byte `i` of a granted span is not tainted, where it is RAM. -/
def ReadsClean (c : Cpu) (b : β) (va : U32) (size i : Nat) : Prop :=
  if bytewise va size then
    ∀ q, c.fastPa (va + BitVec.ofNat 32 i) .read = some q → TaintRam.backed b q = true →
      (RamBus.cells b).tainted q = false
  else
    ∀ pa, c.fastPa va .read = some pa → TaintRam.backed b pa = true →
      (RamBus.cells b).tainted (pa + BitVec.ofNat 32 i) = false

section
variable {s t : Sys β}

/-- Loads at the same address: the same fault, or words that agree in their untainted bytes. -/
theorem Linked.busLoad (h : Linked .idle s t) {pa : U32} {n : Nat} (hn : AccessSize n) :
    Relates (fun v s' w t' => s' = s ∧ t' = t ∧ ∀ i < 4, (i < n → TaintRam.backed s.bus pa = true →
        (RamBus.cells s.bus).tainted (pa + BitVec.ofNat 32 i) = false) → byteOf v i = byteOf w i)
      (Linked .idle) (busLoad pa n) (busLoad pa n) s t := by
  have hx : ∀ u : Sys β, FuzzSoft.busLoad pa n u = ((Bus.load u.bus pa n).mapError .mem, u) :=
    fun _ => rfl
  rcases TwinBus.load h.bus.rest h.bus.ok h.bus.ok' h.bus.perms hn with
    ⟨f, hb, hc⟩ | ⟨v, w, hb, hc, heq⟩
  · exact .inl ⟨.mem f, s, t, by rw [hx, hb]; rfl, by rw [hx, hc]; rfl, h⟩
  · refine .inr ⟨v, s, w, t, by rw [hx, hb]; rfl, by rw [hx, hc]; rfl, rfl, rfl, fun i hi hq => ?_⟩
    exact heq i hi fun hin hback => h.bus.bytes _ (hq hin hback)

/-- What a gather of bytes from `i` on gives: equal bytes wherever the byte that was read is not
tainted. Neither the taint of memory nor an earlier grant is lost. -/
structure Gathered (va : U32) (i n : Nat) (s : Sys β) (v : U32) (s' : Sys β) (w : U32)
    (t' : Sys β) : Prop where
  linked : Linked .idle s' t'
  taint : ∀ q, (RamBus.cells s'.bus).tainted q = (RamBus.cells s.bus).tainted q
  backed : TaintRam.backed s'.bus = TaintRam.backed s.bus
  stays : ∀ j < 4, ∀ q, s.cpu.fastPa (va + BitVec.ofNat 32 j) .read = some q →
    s'.cpu.fastPa (va + BitVec.ofNat 32 j) .read = some q
  bytes : ∀ j < 4, (i ≤ j → j < i + n → ∀ q, s'.cpu.fastPa (va + BitVec.ofNat 32 j) .read = some q →
    TaintRam.backed s'.bus q = true → (RamBus.cells s'.bus).tainted q = false) → byteOf v j = byteOf w j

omit [RamBus β] [TwinBus β] in
/-- A translation leaves the window of RAM. -/
theorem xlate_backed [RamBus β] [TaintRam β] (va : U32) (access : Access) (s : Sys β) :
    TaintRam.backed (xlate va access s).2.bus = TaintRam.backed s.bus := by
  rcases (xlate_effect va access s).bus with hb | ⟨w, v, hb⟩
  · rw [hb]
  · rw [hb]
    exact (TaintRam.store_same s.bus w 4 v).1

/-- A gather of one byte. -/
theorem Linked.loadByte (h : Linked .idle s t) {va : U32} {i : Nat} (hi : i < 4)
    (hc : WalkClean .idle s (va + BitVec.ofNat 32 i) .read) :
    Relates (fun (v : U32) s' (w : U32) t' =>
        Gathered va i 1 s (v <<< (8 * i)) s' (w <<< (8 * i)) t')
      (Linked .idle) (loadByte (va + BitVec.ofNat 32 i)) (loadByte (va + BitVec.ofNat 32 i)) s t := by
  refine (Relates.of_sim (h.xlate hc)).bind fun pa s₁ pa' t₁ hs _ hpa => ?_
  obtain ⟨rfl, h₁⟩ := hpa
  refine (h₁.busLoad (.inl rfl)).bind fun v s₂ w t₂ _ _ hv => ?_
  obtain ⟨rfl, rfl, hv⟩ := hv
  refine Relates.pure ⟨h₁, fun q => ?_, ?_, fun j hj q hq => ?_, fun j hj hclean => ?_⟩
  · rw [← hc.tainted h.bus.ok q, hs]
  · have := xlate_backed (va + BitVec.ofNat 32 i) .read s
    rwa [hs] at this
  · have := fastPa_xlate hq (neighbours va hj hi)
    rwa [hs] at this
  · have hff : ∀ k < 4, k ≠ 0 → byteOf 0xff k = 0 := by decide
    rw [byteOf_shiftLeft _ _ hj, byteOf_shiftLeft _ _ hj]
    split
    next hij =>
      rw [byteOf_and, byteOf_and]
      by_cases hj0 : j - i = 0
      · obtain rfl : j = i := by omega
        rw [Nat.sub_self, hv 0 (by decide) fun _ hback => ?_]
        rw [BitVec.add_zero]
        exact hclean (Nat.le_refl j) (Nat.lt_succ_self j) pa' (fastPa_of_xlate hs) hback
      · rw [hff _ (by omega) hj0]
        simp
    next => rfl

/-- A gather, byte by byte. -/
theorem Linked.gather {va : U32} {n : Nat} : ∀ {i : Nat} {s t : Sys β}, i + n ≤ 4 → Linked .idle s t →
    GatherClean va i n s →
    Relates (Gathered va i n s) (Linked .idle) (gather FuzzSoft.loadByte va i n)
      (gather FuzzSoft.loadByte va i n) s t := by
  induction n with
  | zero =>
    intro i s t _ h _
    exact Relates.pure ⟨h, fun _ => rfl, rfl, fun _ _ _ hq => hq, fun _ _ _ => rfl⟩
  | succ n ih =>
    intro i s t hn h hc
    refine (h.loadByte (by omega) hc.1).bind fun v s₁ w t₁ hs _ hv => ?_
    have hrest := hc.2
    rw [hs] at hrest
    refine (ih (by omega) hv.linked hrest).bind fun v' s₂ w' t₂ _ _ hv' => ?_
    refine Relates.pure ⟨hv'.linked, fun q => (hv'.taint q).trans (hv.taint q),
      hv'.backed.trans hv.backed, fun j hj q hq => hv'.stays j hj q (hv.stays j hj q hq),
      fun j hj hclean => ?_⟩
    rw [byteOf_or, byteOf_or, hv'.bytes j hj fun h1 h2 => hclean (by omega) (by omega),
      hv.bytes j hj fun h1 h2 q hq hback => ?_]
    rw [← hv'.taint]
    exact hclean (by omega) (by omega) q (hv'.stays j hj q hq) (by rw [hv'.backed]; exact hback)

/-- A load, on one page or over two. -/
theorem Linked.loadSpan (h : Linked .idle s t) {va : U32} {size : Nat} (hn : AccessSize size)
    (hc : LoadClean va size s) :
    Relates (fun v s' w t' => Linked .idle s' t' ∧ ∀ i < 4,
        (i < size → ReadsClean s'.cpu s'.bus va size i) → byteOf v i = byteOf w i)
      (Linked .idle) (loadSpan va size) (loadSpan va size) s t := by
  have h4 : size ≤ 4 := by rcases hn with rfl | rfl | rfl <;> decide
  unfold FuzzSoft.loadSpan ReadsClean
  unfold LoadClean at hc
  split at hc
  next hb =>
    simp only [hb, if_true]
    refine (Linked.gather (by omega) h hc).mono fun v s' w t' _ _ hv => ⟨hv.linked, fun i hi hclean => ?_⟩
    exact hv.bytes i hi fun _ hlt => hclean (by omega)
  next hb =>
    simp only [hb]
    refine (Relates.of_sim (h.xlate hc)).bind fun pa s₁ pa' t₁ hs _ hpa => ?_
    obtain ⟨rfl, h₁⟩ := hpa
    refine (h₁.busLoad hn).mono fun v s₂ w t₂ _ _ hv => ?_
    obtain ⟨rfl, rfl, hv⟩ := hv
    exact ⟨h₁, fun i hi hclean => hv i hi fun hin hback => hclean hin pa' (fastPa_of_xlate hs) hback⟩

/-- Both harts gather the same mask for a granted span, and a byte that it leaves out is untainted. -/
theorem Linked.loadTaint (h : Linked .idle s t) {va : U32} {size : Nat} (hn : AccessSize size)
    (hg : s.cpu.Granted .read va size) :
    ∃ m, loadTaint va size s = (.ok m, s) ∧ loadTaint va size t = (.ok m, t) ∧
      ∀ i < size, taintBit m i = false → ReadsClean s.cpu s.bus va size i := by
  have h4 : size ≤ 4 := by rcases hn with rfl | rfl | rfl <;> decide
  have hraw : ∀ pa n, n ≤ 4 → Bus.readRawState t.bus pa n = Bus.readRawState s.bus pa n :=
    fun pa n hn => TwinBus.rawState h.bus.rest h.bus.ok h.bus.ok' hn h.bus.perms
  have hfast : ∀ va pa, s.cpu.fastPa va .read = some pa → t.cpu.fastPa va .read = some pa :=
    fun va pa hf => by rw [h.fastPa, hf]
  unfold Cpu.Granted at hg
  unfold FuzzSoft.loadTaint ReadsClean
  cases hb : bytewise va size with
  | true =>
    simp only [hb, if_true] at hg ⊢
    have key : ∀ {n i : Nat}, i + n = size → ∃ m, FuzzSoft.gather loadTaintByte va i n s = (.ok m, s) ∧
        FuzzSoft.gather loadTaintByte va i n t = (.ok m, t) ∧
        ∀ j, i ≤ j → j < size → taintBit m j = false → ∀ q,
          s.cpu.fastPa (va + BitVec.ofNat 32 j) .read = some q → TaintRam.backed s.bus q = true →
            (RamBus.cells s.bus).tainted q = false := by
      intro n
      induction n with
      | zero => exact fun _ => ⟨0, rfl, rfl, fun j h1 h2 => by omega⟩
      | succ n ih =>
        intro i hin
        obtain ⟨pa, hpa⟩ := hg i (by omega)
        obtain ⟨m, hs, ht, hm⟩ := ih (i := i + 1) (by omega)
        have hone : loadTaintByte (va + BitVec.ofNat 32 i) s =
            (.ok (Bus.readRawState s.bus pa 1), s) := by
          unfold loadTaintByte
          rw [Comp.bind_ok (xlate_of_fastPa hpa)]
          rfl
        have hone' : loadTaintByte (va + BitVec.ofNat 32 i) t =
            (.ok (Bus.readRawState s.bus pa 1), t) := by
          unfold loadTaintByte
          rw [Comp.bind_ok (xlate_of_fastPa (hfast _ _ hpa)), ← hraw pa 1 (by decide)]
          rfl
        refine ⟨_, by rw [FuzzSoft.gather, Comp.bind_ok hone, Comp.bind_ok hs]; rfl,
          by rw [FuzzSoft.gather, Comp.bind_ok hone', Comp.bind_ok ht]; rfl,
          fun j h1 h2 hbit q hq hback => ?_⟩
        rw [taintBit_or, Bool.or_eq_false_iff] at hbit
        rcases Nat.eq_or_lt_of_le h1 with rfl | hlt
        · rw [hpa] at hq
          cases hq
          have hr := TaintRam.rawState (n := 1) h.bus.ok (by decide) hback
          rw [rawMask_one, BitVec.add_zero] at hr
          rw [hr, taintBit_shiftLeft (by omega) (by omega), decide_eq_true rfl, Bool.true_and] at hbit
          exact hbit.1
        · exact hm j hlt h2 hbit.2 q hq hback
    obtain ⟨m, hs, ht, hm⟩ := key (Nat.zero_add size)
    exact ⟨m, hs, ht, fun i hi hbit => hm i (Nat.zero_le i) hi hbit⟩
  | false =>
    simp only [hb, Bool.false_eq_true, if_false] at hg ⊢
    obtain ⟨pa, hpa⟩ := hg
    refine ⟨Bus.readRawState s.bus pa size, Comp.bind_ok (xlate_of_fastPa hpa), ?_,
      fun i hi hbit q hq hback => ?_⟩
    · rw [← hraw pa size h4]
      exact Comp.bind_ok (xlate_of_fastPa (hfast _ _ hpa))
    · rw [hpa] at hq
      cases hq
      rw [TaintRam.rawState h.bus.ok h4 hback, taintBit_rawMask h4 (by omega), decide_eq_true hi,
        Bool.true_and] at hbit
      exact hbit

/-- A load of linked systems gives the same mask, and words that agree where it says so. -/
theorem Linked.loadWithTaint (h : Linked .idle s t) {va : U32} {size : Nat} (hn : AccessSize size)
    (signed : Bool) (hc : LoadClean va size s) :
    Relates (fun r s' r' t' => Linked .idle s' t' ∧ r'.2 = r.2 ∧
        ByteEq (extendLoadTaint (r.2.getD 0) size signed) r.1 r'.1)
      (Linked .idle) (loadWithTaint va size signed) (loadWithTaint va size signed) s t := by
  have h4 : size ≤ 4 := by rcases hn with rfl | rfl | rfl <;> decide
  have himpl : Relates (fun v s' w t' => Linked .idle s' t' ∧ s'.cpu.Granted .read va size ∧
      ∃ v₀ w₀, v = extendLoad v₀ size signed ∧ w = extendLoad w₀ size signed ∧
        ∀ i < 4, (i < size → ReadsClean s'.cpu s'.bus va size i) → byteOf v₀ i = byteOf w₀ i)
      (Linked .idle) (loadImpl va size signed) (loadImpl va size signed) s t := by
    refine (h.loadSpan hn hc).bind fun v s' w t' hs _ hv => Relates.pure ⟨hv.1, ?_, v, w, rfl, rfl, hv.2⟩
    exact loadImpl_granted h4 (show loadImpl va size signed _ = _ from Comp.bind_ok hs)
  refine himpl.bind fun v s' w t' _ _ hv => ?_
  obtain ⟨h', hg, v₀, w₀, rfl, rfl, hv⟩ := hv
  obtain ⟨m, hs, ht, hm⟩ := h'.loadTaint hn hg
  have hk' : t'.hart.kmsanEnabled = true :=
    (h'.hart.view (p := Hart.kmsanEnabled) fun _ => rfl).trans h'.hart.kmsan
  refine .inr ⟨(extendLoad v₀ size signed, some m), s', (extendLoad w₀ size signed, some m), t', ?_, ?_,
    h', rfl, extendLoad_byteEq hn signed fun i hi hbit => hv i hi fun hlt => hm i hlt (hbit hlt)⟩
  · unfold getHart
    rw [Comp.gets_bind, if_pos h'.hart.kmsan, Comp.bind_ok hs]
    rfl
  · unfold getHart
    rw [Comp.gets_bind, if_pos hk', Comp.bind_ok ht]
    rfl

end

end

end FuzzSoft
