import FuzzSoft.Riscv.ExecSim

/-!
# Harts over simulating buses

A relation between two buses whose loads agree and whose stores keep it (`BusSim`) lifts to systems
with the same hart and the same TLB (`Twin`), and every step keeps the lifted relation. The taint
scatter of KMSAN is not a store: it has to keep the relation only where harts that track taint are
concerned, which a flag says.
-/

namespace FuzzSoft

open Lib

section
variable {β γ : Type} [Bus β] [Bus γ]

/-- Related buses answer alike, and stores keep them related; so does the taint scatter when `kmsan`
is set. -/
structure BusSim (kmsan : Bool) (B : β → γ → Prop) : Prop where
  load : ∀ {b c}, B b c → ∀ pa n, Bus.load c pa n = Bus.load b pa n
  ifetch16 : ∀ {b c}, B b c → ∀ pa, Bus.ifetch16 c pa = Bus.ifetch16 b pa
  rawState : ∀ {b c}, B b c → ∀ pa n, Bus.readRawState c pa n = Bus.readRawState b pa n
  store : ∀ {b c}, B b c → ∀ pa n v, (Bus.store c pa n v).1 = (Bus.store b pa n v).1 ∧
    B (Bus.store b pa n v).2 (Bus.store c pa n v).2
  shadow : kmsan = true → ∀ {b c}, B b c → ∀ pa n mask,
    B (Bus.writeShadow b pa n mask) (Bus.writeShadow c pa n mask)

/-- A bus simulates itself. -/
theorem busSim_eq (kmsan : Bool) : BusSim kmsan (Eq : β → β → Prop) where
  load h _ _ := by rw [h]
  ifetch16 h _ := by rw [h]
  rawState h _ _ := by rw [h]
  store h _ _ _ := ⟨by rw [h], by rw [h]⟩
  shadow _ _ _ h _ _ _ := by rw [h]

/-- The same hart, with or without taint tracking, over related buses. -/
structure Twin (kmsan : Bool) (B : β → γ → Prop) (s : Sys β) (t : Sys γ) : Prop where
  cpu : t.cpu = s.cpu
  bus : B s.bus t.bus
  kmsan : s.hart.kmsanEnabled = kmsan

variable {k : Bool} {B : β → γ → Prop} (hB : BusSim k B) {s : Sys β} {t : Sys γ}

omit [Bus β] [Bus γ] in
/-- Twins have one hart. -/
theorem Twin.hart (h : Twin k B s t) : s.hart = t.hart := by
  rw [Sys.hart, Sys.hart, h.cpu]

include hB

/-- Twins find the same leaf. -/
theorem BusSim.usableLeaf (h : Twin k B s t) (va : U32) (access : Access) :
    usableLeaf t.hart t.bus va access = usableLeaf s.hart s.bus va access := by
  have hrd : loadPte t.bus = loadPte s.bus := by
    funext a
    rw [loadPte, loadPte, hB.load h.bus]
  simp only [FuzzSoft.usableLeaf, walk, hrd, h.hart]

/-- They update it alike. -/
theorem BusSim.updateAd {b : β} {c : γ} (h : B b c) (access : Access) (l : Leaf) :
    (updateAd c access l).1 = (updateAd b access l).1 ∧
      B (updateAd b access l).2 (updateAd c access l).2 := by
  unfold FuzzSoft.updateAd
  split
  · exact hB.store h _ _ _
  · exact ⟨rfl, h⟩

/-- A page walk with its fill of the TLB. -/
theorem BusSim.walkFill (h : Twin k B s t) (va : U32) (access : Access) :
    Sim (Twin k B) (walkFill va access) (walkFill va access) s t := by
  have hl := hB.usableLeaf h va access
  cases hu : FuzzSoft.usableLeaf s.hart s.bus va access with
  | none =>
    rw [hu] at hl
    refine ⟨?_, ?_⟩
    · simp only [FuzzSoft.walkFill, hu, hl]
    · simp only [FuzzSoft.walkFill, hu, hl]
      exact h
  | some l =>
    rw [hu] at hl
    obtain ⟨ho, hb⟩ := hB.updateAd h.bus access l
    rcases hs : FuzzSoft.updateAd s.bus access l with ⟨r, b⟩
    rcases ht : FuzzSoft.updateAd t.bus access l with ⟨r', c⟩
    rw [hs, ht] at ho hb
    cases ho
    cases r with
    | error e =>
      refine ⟨?_, ?_⟩
      · simp only [FuzzSoft.walkFill, hu, hl, hs, ht]
      · simp only [FuzzSoft.walkFill, hu, hl, hs, ht]
        exact ⟨h.cpu, hb, h.kmsan⟩
    | ok _ =>
      refine ⟨?_, ?_⟩
      · simp only [FuzzSoft.walkFill, hu, hl, hs, ht]
      · simp only [FuzzSoft.walkFill, hu, hl, hs, ht]
        exact ⟨by rw [h.cpu], hb, h.kmsan⟩

omit hB in
/-- The hart and its TLB decide a translation, or leave it to a walk. -/
theorem xlate_cases (c : Cpu) (va : U32) (access : Access) :
    (∃ r, ∀ (β : Type) [Bus β] (b : β), FuzzSoft.xlate va access ⟨c, b⟩ = (r, ⟨c, b⟩)) ∨
      ∀ (β : Type) [Bus β] (b : β),
        FuzzSoft.xlate va access ⟨c, b⟩ = FuzzSoft.walkFill va access ⟨c, b⟩ := by
  cases hun : c.untranslated access with
  | true => exact .inl ⟨.ok va, fun _ _ _ => by simp [FuzzSoft.xlate, Sys.hart, hun]⟩
  | false =>
    cases hg : c.tlb.get (va >>> 12) with
    | none => exact .inr fun _ _ _ => by simp [FuzzSoft.xlate, Sys.hart, hun, hg]
    | some e =>
      cases hok : c.leafOk access e.bits with
      | false =>
        exact .inl ⟨.error (pageFault access va), fun _ _ _ => by
          simp [FuzzSoft.xlate, Sys.hart, hun, hg, hok]⟩
      | true =>
        cases hd : !(access = .write && !e.dSet) with
        | true =>
          exact .inl ⟨.ok (entryPa e va), fun _ _ _ => by
            simp only [FuzzSoft.xlate, Sys.hart, hun, hg, hok, hd]
            rfl⟩
        | false =>
          exact .inr fun _ _ _ => by
            simp only [FuzzSoft.xlate, Sys.hart, hun, hg, hok, hd]
            rfl

/-- A translation. -/
theorem BusSim.xlate (h : Twin k B s t) (va : U32) (access : Access) :
    Sim (Twin k B) (xlate va access) (xlate va access) s t := by
  have ht : t = ⟨s.cpu, t.bus⟩ := by rw [← h.cpu]
  rcases xlate_cases s.cpu va access with ⟨r, hr⟩ | hw
  · have hs : FuzzSoft.xlate va access s = (r, s) := hr β s.bus
    have ht : FuzzSoft.xlate va access t = (r, t) := by
      rw [ht]
      exact hr γ t.bus
    exact ⟨by rw [hs, ht], by rw [hs, ht]; exact h⟩
  · have hs : FuzzSoft.xlate va access s = FuzzSoft.walkFill va access s := hw β s.bus
    have ht : FuzzSoft.xlate va access t = FuzzSoft.walkFill va access t := by
      rw [ht]
      exact hw γ t.bus
    have hwalk := hB.walkFill h va access
    exact ⟨by rw [hs, ht]; exact hwalk.out, by rw [hs, ht]; exact hwalk.rel⟩

/-- The relation looks at the whole hart. -/
theorem BusSim.busUniform : BusUniform (Twin k B) where
  hart h := h.hart
  setHart h hart' hk := ⟨by rw [Sys.setHart, Sys.setHart, h.cpu], h.bus, hk.2.trans h.kmsan⟩
  setFlush h hart' hk :=
    ⟨by rw [Sys.setHart, Sys.setHart, h.cpu, Sys.flushTlb, Sys.flushTlb], h.bus, hk.trans h.kmsan⟩
  xlate h va access := hB.xlate h va access
  load h := hB.load h.bus
  ifetch16 h := hB.ifetch16 h.bus
  rawState h := hB.rawState h.bus

/-- A bus store. -/
theorem BusSim.busStore (h : Twin k B s t) (pa : U32) (n : Nat) (v : U32) :
    Sim (Twin k B) (busStore pa n v) (busStore pa n v) s t := by
  obtain ⟨ho, hb⟩ := hB.store h.bus pa n v
  exact ⟨by simp only [FuzzSoft.busStore, ho], h.cpu, hb, h.kmsan⟩

/-- A store. -/
theorem BusSim.storeImpl (h : Twin k B s t) (va : U32) {size : Nat} (hsize : 0 < size) (val : U32) :
    Sim (Twin k B) (storeImpl va size val) (storeImpl va size val) s t :=
  hB.busUniform.storeImpl (fun _ _ _ _ n v _ _ _ _ h' => hB.busStore h' _ n v) hsize h

/-- The access of an AMO. -/
theorem BusSim.amoAccess (h : Twin k B s t) (op : AmoOp) (rd : Reg) (va src : U32) :
    Sim (Twin k B) (amoAccess op rd va src) (amoAccess op rd va src) s t := by
  have hU := hB.busUniform
  refine (hU.xlate h va .write).bind fun pa _ _ _ _ h₁ => ?_
  refine (hU.busLoad pa 4 h₁).bind fun old _ _ _ _ h₂ => ?_
  refine (hU.busRawState pa 4 h₂).bind fun raw _ _ _ _ h₃ => ?_
  refine (hU.toHartUniform.modifyHart ?_ h₃).bind fun _ _ _ _ _ h₄ => ?_
  · intro h
    split <;> simp [Hart.Kept]
  · exact (hB.busStore h₄ pa 4 _).bind fun _ _ _ _ _ h₅ => Sim.pure h₅

/-- The scatter of a store. -/
theorem BusSim.storeTaint (hk : k = true) (h : Twin k B s t) (va : U32) (size : Nat) (mask : U32) :
    Sim (Twin k B) (storeTaint va size mask) (storeTaint va size mask) s t := by
  have hshadow : ∀ {s t}, Twin k B s t → ∀ pa n m,
      Sim (Twin k B) (busWriteShadow pa n m) (busWriteShadow pa n m) s t := fun h pa n m =>
    Sim.modify ⟨h.cpu, hB.shadow hk h.bus pa n m, h.kmsan⟩
  unfold FuzzSoft.storeTaint
  split
  · refine scatter_sim (fun h j _ _ => ?_) h
    exact (hB.xlate h _ .write).bind fun pa _ _ _ _ h' => hshadow h' pa _ _
  · exact (hB.xlate h va .write).bind fun pa _ _ _ _ h' => hshadow h' pa _ _

/-- The stores of every instruction. -/
theorem BusSim.storeSim (h : Twin k B s t) (inst : Inst) : StoreSim (Twin k B) inst s t := by
  cases inst with
  | store op rs1 rs2 imm =>
    have hsize : 0 < op.size := by cases op <;> decide
    simp only [StoreSim, h.kmsan]
    refine (hB.storeImpl h _ hsize _).bind fun _ _ _ _ _ h' => ?_
    by_cases hk : k = true
    · rw [if_pos hk]
      exact hB.storeTaint hk h' _ _ _
    · rw [if_neg hk]
      exact Sim.pure h'
  | scW rd rs1 rs2 aq rl => exact fun _ => hB.storeImpl h _ (by decide) _
  | amoW op rd rs1 rs2 aq rl => exact hB.amoAccess h op rd _ _
  | _ => trivial

/-- A full-system step over related buses gives the same exit and leaves them related. -/
theorem BusSim.stepSystem (h : Twin k B s t) :
    (stepSystem t).1 = (stepSystem s).1 ∧ Twin k B (stepSystem s).2 (stepSystem t).2 :=
  hB.busUniform.uniform.stepSystem h fun _ _ _ _ _ _ h' => hB.storeSim h' _

omit hB in
/-- What the stores and the taint scatter of a bus keep, a full-system step keeps. -/
theorem stepSystem_inv {I : β → Prop} (hstore : ∀ {b}, I b → ∀ pa n v, I (Bus.store b pa n v).2)
    (hshadow : ∀ {b}, I b → ∀ pa n mask, I (Bus.writeShadow b pa n mask)) (h : I s.bus) :
    I (FuzzSoft.stepSystem s).2.bus := by
  have hsim : BusSim s.hart.kmsanEnabled fun b c : β => b = c ∧ I b := by
    refine ⟨fun h _ _ => by rw [h.1], fun h _ => by rw [h.1], fun h _ _ => by rw [h.1], ?_, ?_⟩
    · rintro b _ ⟨rfl, h⟩ pa n v
      exact ⟨rfl, rfl, hstore h pa n v⟩
    · rintro - b _ ⟨rfl, h⟩ pa n mask
      exact ⟨rfl, hshadow h pa n mask⟩
  exact (hsim.stepSystem (s := s) (t := s) ⟨rfl, ⟨rfl, h⟩, rfl⟩).2.bus.2

end

end FuzzSoft
