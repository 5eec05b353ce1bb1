import FuzzSoft.Riscv.BusSim
import FuzzSoft.Platform.Smp

/-!
# Load-reserved and store-conditional across harts

A store-conditional should fail once another hart has stored to the word that its load-reserved
reserved. The scheduler remembers the reservation by its virtual address and compares it with the
physical spans of the other harts' stores, and it compares the first byte only. So the law
(`SafeLog`) holds of runs in which the virtual address of every `lr.w` is the physical one, and every
store that hits a word another hart holds reserved hits its first byte (`ClearLog`).
-/

namespace FuzzSoft

open Lib

section
variable {n : Nat}

/-! ## The law -/

/-- The span covers the byte at `a`. -/
def hits (span : U32 × Nat) (a : U32) : Bool :=
  span.1.toNat ≤ a.toNat && a.toNat < span.1.toNat + span.2

/-- The bytes that the latest `lr.w` of hart `i` reserved, with its address. -/
def latestLr (i : Fin n) : List (SmpEvent n) → Option (U32 × List U32)
  | [] => none
  | e :: es => if e.hart = i ∧ e.reserved.isSome then e.reserved else latestLr i es

/-- Since the latest `lr.w` of hart `i`, another hart has stored to the byte at `a`. -/
def storedSince (i : Fin n) (a : U32) : List (SmpEvent n) → Bool
  | [] => false
  | e :: es =>
    if e.hart = i then !e.reserved.isSome && storedSince i a es
    else e.stores.any (hits · a) || storedSince i a es

/-- Every store-conditional that stored had its word to itself since its load-reserved. -/
def SafeLog : List (SmpEvent n) → Prop
  | [] => True
  | e :: es => SafeLog es ∧ (e.condStored = true → ∀ lr ∈ latestLr e.hart es,
      lr.2.any (storedSince e.hart · es) = false)

instance SafeLog.decidable : DecidablePred (@SafeLog n)
  | [] => isTrue trivial
  | _ :: es => @instDecidableAnd _ _ (SafeLog.decidable es) inferInstance

/-! ## The condition -/

/-- The bytes that hart `i` holds reserved, as far as its own instructions go. -/
def heldBytes (i : Fin n) : List (SmpEvent n) → Option (List U32)
  | [] => none
  | e :: es =>
    if e.hart = i then
      match e.reserved with
      | some (_, bytes) => some bytes
      | none => if e.dropped then none else heldBytes i es
    else heldBytes i es

/-- The step does not mislead the scheduler: an `lr.w` reserves bytes from its own address on, and a
store that hits a byte another hart holds reserved hits the first one. -/
@[mk_iff] structure ClearStep (es : List (SmpEvent n)) (e : SmpEvent n) : Prop where
  reserved : ∀ lr ∈ e.reserved, lr.2.head? = some lr.1
  stores : ∀ i, i ≠ e.hart → ∀ bytes ∈ heldBytes i es, ∀ w ∈ e.stores,
    bytes.any (hits w) = true → bytes.head?.any (hits w) = true

instance (es : List (SmpEvent n)) (e : SmpEvent n) : Decidable (ClearStep es e) :=
  decidable_of_iff' _ (clearStep_iff es e)

/-- Every step of the log is clear. -/
def ClearLog : List (SmpEvent n) → Prop
  | [] => True
  | e :: es => ClearLog es ∧ ClearStep es e

instance ClearLog.decidable : DecidablePred (@ClearLog n)
  | [] => isTrue trivial
  | _ :: es => @instDecidableAnd _ _ (ClearLog.decidable es) inferInstance

/-- The law at every moment up to which the steps were clear. -/
def SafeWhileClear (log : List (SmpEvent n)) : Prop :=
  ∀ es, es <:+ log → ClearLog es → SafeLog es

/-! ## The invariant -/

/-- The reservation `r` of hart `i` is the one of its latest `lr.w`, and of a store to it since the
scheduler will know by the span `pending` it has recorded. -/
def Watched (log : List (SmpEvent n)) (i : Fin n) (r : U32) (pending : List (U32 × Nat)) : Prop :=
  ∀ va bytes, latestLr i log = some (va, bytes) → bytes.head? = some r ∧
    heldBytes i log = some bytes ∧ ∀ a ∈ bytes, storedSince i a log = true →
      ∃ w ∈ pending, hits w r = true

/-- Between turns: no hart's reservation has been stored to. -/
structure SmpInv (s : Smp n) : Prop where
  safe : SafeWhileClear s.log
  watched : ClearLog s.log → ∀ i r, (s.cpus i).reservation = some r → Watched s.log i r []

/-- During the turn of hart `h`, with `cpus` the harts before it: the stores of the turn so far are
recorded. -/
structure TurnInv (h : Fin n) (cpus : Fin n → Cpu) (t : Turn n) : Prop where
  safe : SafeWhileClear t.log
  own : ClearLog t.log → ∀ r, t.sys.hart.reservation = some r → Watched t.log h r []
  others : ClearLog t.log → ∀ i, i ≠ h → ∀ r, (cpus i).reservation = some r →
    Watched t.log i r t.sys.bus.writes

/-! ## One step -/

section
variable (h : Fin n) (s : Sys RecordingBus)

/-- The bytes of a load that succeeds have addresses. -/
theorem loadSpan_addrs {s s' : Sys RecordingBus} {va v : U32} {size : Nat}
    (hl : loadSpan va size s = (.ok v, s')) :
    ∃ bytes, spanAddrs va size s = (.ok bytes, s') ∧ bytes.length = size := by
  unfold loadSpan at hl
  unfold spanAddrs
  split at hl
  next hb =>
    rw [if_pos hb]
    suffices h : ∀ {n i : Nat} {s : Sys RecordingBus} {v : U32},
        gather loadByte va i n s = (.ok v, s') →
        ∃ bytes, byteAddrs va i n s = (.ok bytes, s') ∧ bytes.length = n from h hl
    intro n
    induction n with
    | zero =>
      intro i s v hg
      cases hg
      exact ⟨[], rfl, rfl⟩
    | succ n ih =>
      intro i s v hg
      obtain ⟨b, s₁, hbyte, hg⟩ := Comp.bind_eq_ok hg
      obtain ⟨rest, s₂, hrest, hg⟩ := Comp.bind_eq_ok hg
      cases hg
      obtain ⟨pa, s₀, hx, hbyte⟩ := Comp.bind_eq_ok hbyte
      obtain ⟨w, s₃, hload, hbyte⟩ := Comp.bind_eq_ok hbyte
      cases hbyte
      obtain rfl : s₁ = s₀ := (congrArg Prod.snd hload).symm
      obtain ⟨bytes, hbytes, hlen⟩ := ih hrest
      refine ⟨pa :: bytes, ?_, by rw [List.length_cons, hlen]⟩
      rw [byteAddrs, Comp.bind_ok hx, Comp.bind_ok hbytes]
      rfl
  next hb =>
    rw [if_neg hb]
    obtain ⟨pa, s₀, hx, hload⟩ := Comp.bind_eq_ok hl
    obtain rfl : s' = s₀ := (congrArg Prod.snd hload).symm
    exact ⟨_, by rw [Comp.bind_ok hx]; rfl, by simp⟩

/-- A reservation after a step comes from the `lr.w` it retired, or stood before and was not given
up. -/
theorem event_reservation {r : U32} (hr : (stepSystem s).2.hart.reservation = some r) :
    (∃ bytes, (smpEvent h s (stepSystem s).2).reserved = some (r, bytes)) ∨
      ((smpEvent h s (stepSystem s).2).reserved = none ∧
        (smpEvent h s (stepSystem s).2).dropped = false ∧ s.hart.reservation = some r) := by
  rw [stepSystem_reservation] at hr
  cases hret : retired s with
  | none =>
    rw [hret] at hr
    exact .inr ⟨by simp only [smpEvent, hret], by simp only [smpEvent, hret], hr⟩
  | some p =>
    obtain ⟨inst, t⟩ := p
    rw [hret] at hr
    have ht : t.hart.reservation = s.hart.reservation :=
      congrArg Marks.reservation (retired_marks hret)
    cases inst with
    | lrW rd rs1 aq rl =>
      left
      simp only [smpEvent, hret]
      exact ⟨_, by rw [Option.some.inj hr]⟩
    | scW | amoW => cases hr
    | _ => exact .inr ⟨by simp only [smpEvent, hret], by simp only [smpEvent, hret], ht ▸ hr⟩

/-- A store-conditional stores under a reservation only. -/
theorem event_condStored (hc : (smpEvent h s (stepSystem s).2).condStored = true) :
    ∃ r, s.hart.reservation = some r := by
  cases hret : retired s with
  | none => simp only [smpEvent, hret, Bool.false_eq_true] at hc
  | some p =>
    obtain ⟨inst, t⟩ := p
    have ht : t.hart.reservation = s.hart.reservation :=
      congrArg Marks.reservation (retired_marks hret)
    cases inst with
    | scW rd rs1 rs2 aq rl =>
      simp only [smpEvent, hret, decide_eq_true_eq] at hc
      exact ⟨_, ht ▸ hc⟩
    | _ => simp only [smpEvent, hret, Bool.false_eq_true] at hc

/-- The recorded stores grow by those of the step. -/
theorem event_stores : (stepSystem s).2.bus.writes =
    s.bus.writes ++ (smpEvent h s (stepSystem s).2).stores := by
  have hpre : s.bus.writes <+: (stepSystem s).2.bus.writes := by
    refine stepSystem_inv (I := fun b : RecordingBus => s.bus.writes <+: b.writes) ?_ ?_
      (List.prefix_refl _)
    · intro b hb pa n v
      show _ <+: if _ then _ else _
      split
      · exact hb.trans (List.prefix_append _ _)
      · exact hb
    · exact fun hb _ _ _ => hb
  obtain ⟨w, hw⟩ := hpre
  rw [smpEvent, ← hw, List.drop_left]

end

/-! ## The log one event later -/

section
variable {e : SmpEvent n} {es : List (SmpEvent n)} {i : Fin n} {r : U32} {pending : List (U32 × Nat)}

/-- The step of another hart: its stores are added to the recorded ones. -/
theorem Watched.other (hw : Watched es i r pending) (hi : i ≠ e.hart) (hc : ClearStep es e) :
    Watched (e :: es) i r (pending ++ e.stores) := by
  intro va bytes hl
  rw [latestLr, if_neg fun h => hi h.1.symm] at hl
  obtain ⟨hhead, hheld, hsince⟩ := hw va bytes hl
  refine ⟨hhead, by rw [heldBytes, if_neg (Ne.symm hi)]; exact hheld, fun a ha hst => ?_⟩
  rw [storedSince, if_neg (Ne.symm hi), Bool.or_eq_true, List.any_eq_true] at hst
  rcases hst with ⟨w, hwm, hwa⟩ | hst
  · have hfirst := hc.stores i hi bytes hheld w hwm (List.any_eq_true.2 ⟨a, ha, hwa⟩)
    rw [hhead] at hfirst
    exact ⟨w, List.mem_append_right _ hwm, hfirst⟩
  · obtain ⟨w, hwm, hwr⟩ := hsince a ha hst
    exact ⟨w, List.mem_append_left _ hwm, hwr⟩

/-- An own step that leaves the reservation. -/
theorem Watched.keep (hw : Watched es e.hart r []) (hres : e.reserved = none)
    (hdrop : e.dropped = false) : Watched (e :: es) e.hart r [] := by
  intro va bytes hl
  have hl' : latestLr e.hart es = some (va, bytes) := by simpa [latestLr, hres] using hl
  obtain ⟨hhead, hheld, hsince⟩ := hw va bytes hl'
  refine ⟨hhead, by simpa [heldBytes, hres, hdrop] using hheld, fun a ha hst => hsince a ha ?_⟩
  simpa [storedSince, hres] using hst

/-- An own `lr.w`. -/
theorem watched_lr {bytes : List U32} (hres : e.reserved = some (r, bytes))
    (hc : ClearStep es e) : Watched (e :: es) e.hart r [] := by
  intro va bytes' hl
  have hl' : (r, bytes) = (va, bytes') := by simpa [latestLr, hres] using hl
  cases hl'
  refine ⟨hc.reserved (r, bytes) hres, by simp [heldBytes, hres], fun a _ hst => ?_⟩
  simp [storedSince, hres] at hst

/-- The law goes on when a store-conditional that stores has its reservation watched. -/
theorem SafeWhileClear.cons (hs : SafeWhileClear es)
    (he : ClearLog es → e.condStored = true → ∃ r, Watched es e.hart r []) :
    SafeWhileClear (e :: es) := by
  intro es' hsuf hclear
  rcases List.suffix_cons_iff.1 hsuf with rfl | hsuf
  · refine ⟨hs es (List.suffix_refl es) hclear.1, fun hcond lr hl => ?_⟩
    obtain ⟨r, hw⟩ := he hclear.1 hcond
    obtain ⟨-, -, hsince⟩ := hw lr.1 lr.2 hl
    rw [List.any_eq_false]
    intro a ha hst
    obtain ⟨w, hwm, -⟩ := hsince a ha hst
    cases hwm
  · exact hs es' hsuf hclear

end

/-! ## Turns, rounds and runs -/

section
variable {h : Fin n} {cpus : Fin n → Cpu}

/-- A step of a turn keeps it. -/
theorem TurnInv.step {t : Turn n} (ht : TurnInv h cpus t) : TurnInv h cpus (t.step h) := by
  have hres : (t.ready h).hart.reservation = t.sys.hart.reservation := rfl
  refine ⟨ht.safe.cons fun hclear hcond => ?_, fun hclear r hr => ?_, fun hclear i hi r hr => ?_⟩
  · obtain ⟨r, hr⟩ := event_condStored h (t.ready h) hcond
    exact ⟨r, ht.own hclear r (hres ▸ hr)⟩
  · rcases event_reservation h (t.ready h) hr with ⟨bytes, hb⟩ | ⟨hnone, hdrop, hr'⟩
    · exact watched_lr hb hclear.2
    · exact (ht.own hclear.1 r (hres ▸ hr')).keep hnone hdrop
  · have hw := (ht.others hclear.1 i hi r hr).other (e := smpEvent h (t.ready h) _) hi hclear.2
    have hstores := event_stores h (t.ready h)
    show Watched _ i r (stepSystem (t.ready h)).2.bus.writes
    rw [hstores]
    exact hw

/-- So does a turn. -/
theorem TurnInv.loop (turnDeadline deadlineTicks : U64) (k : Nat) :
    ∀ {t : Turn n}, TurnInv h cpus t → TurnInv h cpus (turnLoop h turnDeadline deadlineTicks k t) := by
  induction k with
  | zero => exact id
  | succ k ih =>
    intro t ht
    simp only [turnLoop]
    split
    · exact ht.step
    · exact ih ht.step

/-- A reservation that survives the stores of another hart was there before, and none of them hit
it. -/
theorem reservation_invalidateOthers {writes : List (U32 × Nat)} {i : Fin n} (hi : i ≠ h) {r : U32}
    (hr : (invalidateOthers h writes cpus i).reservation = some r) :
    (cpus i).reservation = some r ∧ ∀ w ∈ writes, hits w r = false := by
  induction writes generalizing cpus with
  | nil => exact ⟨hr, nofun⟩
  | cons w ws ih =>
    obtain ⟨hr', hws⟩ := ih hr
    simp only [if_neg hi] at hr'
    have hinv : ((cpus i).toHart.invalidateReservation w.1 w.2).reservation = some r := hr'
    unfold Hart.invalidateReservation at hinv
    cases hc : (cpus i).reservation with
    | none =>
      simp only [hc] at hinv
      cases hinv
    | some r₀ =>
      simp only [hc] at hinv
      split at hinv
      · cases hinv
      next hmiss =>
        rw [hc] at hinv
        cases hinv
        refine ⟨rfl, fun w' hw' => ?_⟩
        rcases List.mem_cons.1 hw' with rfl | hw'
        · simpa [hits] using hmiss
        · exact hws w' hw'

/-- The storing hart keeps its reservation. -/
theorem invalidateOthers_self (writes : List (U32 × Nat)) :
    invalidateOthers h writes cpus h = cpus h := by
  induction writes generalizing cpus with
  | nil => rfl
  | cons w ws ih => exact (ih).trans (if_pos rfl)

/-- At the end of a turn the recorded stores have done their work. -/
theorem TurnInv.finish {t : Turn n} (ht : TurnInv h cpus t) {m : Machine} {stops : Fin n → Option Stop}
    {tick : U64} : SmpInv ⟨invalidateOthers h t.sys.bus.writes (Function.update cpus h t.sys.cpu), m,
      stops, tick, t.log⟩ := by
  refine ⟨ht.safe, fun hclear i r hr => ?_⟩
  dsimp only at hclear hr ⊢
  by_cases hi : i = h
  · subst hi
    rw [invalidateOthers_self, Function.update_self] at hr
    exact ht.own hclear r hr
  · obtain ⟨hr', hmiss⟩ := reservation_invalidateOthers hi hr
    rw [Function.update_of_ne hi] at hr'
    intro va bytes hl
    obtain ⟨hhead, hheld, hsince⟩ := ht.others hclear i hi r hr' va bytes hl
    refine ⟨hhead, hheld, fun a ha hst => ?_⟩
    obtain ⟨w, hwm, hwr⟩ := hsince a ha hst
    rw [hmiss w hwm] at hwr
    cases hwr

end

/-- A turn of a call keeps the invariant. -/
theorem SmpInv.turn {s : Smp n} (hs : SmpInv s) (c : SmpCall) (h : Fin n) :
    SmpInv (smpTurn c h s).2 := by
  have hstart : TurnInv h s.cpus ⟨⟨s.cpus h, ⟨s.machine, []⟩⟩, none, false, s.tick, s.log⟩ :=
    ⟨hs.safe, fun hclear => hs.watched hclear h, fun hclear i _ => hs.watched hclear i⟩
  exact (TurnInv.loop _ _ _ hstart).finish

/-- So does a round. -/
theorem SmpInv.round (c : SmpCall) (hs : List (Fin n)) :
    ∀ {s : Smp n}, SmpInv s → SmpInv (smpRound c hs s).2 := by
  induction hs with
  | nil => exact id
  | cons h hs ih =>
    intro s hinv
    simp only [smpRound]
    split
    · exact ih hinv
    · split
      · exact hinv.turn c h
      · exact ih (hinv.turn c h)

/-- So do all rounds. -/
theorem SmpInv.rounds (c : SmpCall) (k : Nat) :
    ∀ {s : Smp n}, SmpInv s → SmpInv (smpRounds c k s) := by
  induction k with
  | zero => exact id
  | succ k ih =>
    intro s hinv
    simp only [smpRounds]
    split
    · exact SmpInv.round c _ hinv
    · exact ih (SmpInv.round c _ hinv)

/-- So does a call. -/
theorem SmpInv.run {s : Smp n} (hs : SmpInv s) (c : SmpCall) : SmpInv (runSmp c s).2 := by
  unfold runSmp
  split
  · exact hs
  · exact SmpInv.rounds c _ ⟨hs.safe, hs.watched⟩

/-- So do all calls. -/
theorem SmpInv.runs (calls : List SmpCall) : ∀ {s : Smp n}, SmpInv s → SmpInv (runSmps calls s) := by
  induction calls with
  | nil => exact id
  | cons c cs ih => exact fun hs => ih (hs.run c)

/-- In every sequence of calls of `run_smp`, at every moment up to which all steps were clear, no
store-conditional has stored after another hart's store to its reserved word. -/
theorem smp_lr_sc_safe (cpus : Fin n → Cpu) (machine : Machine) (calls : List SmpCall)
    {es : List (SmpEvent n)} (hes : es <:+ (runSmps calls (Smp.start cpus machine)).log)
    (hclear : ClearLog es) : SafeLog es := by
  have hstart : SmpInv (Smp.start cpus machine) := by
    refine ⟨?_, fun _ _ _ _ _ _ hl => nomatch hl⟩
    intro es hsuf _
    rw [List.suffix_nil.1 hsuf]
    trivial
  exact (SmpInv.runs calls hstart).safe es hes hclear

end

/-! ## Two harts -/

/-- Hart 0 is about to execute `lr.w x5, (x6)` and `sc.w x7, x1, (x6)`, and hart 1 to execute the
instruction `store`; `x6` points to a word of RAM on both. -/
def duel (store : List U8) : Smp 2 :=
  let regs : Reg → U32 := fun i => if i = 6 then 0x80000800 else 1
  let cpu (pc : U32) : Cpu := { Cpu.new pc with regs := regs }
  .start (fun i => if i.val = 0 then cpu 0x80000000 else cpu 0x80000008)
    { MachineOf.new 0x80000000 4096 with
      ram := { Mmu.new 0x80000000 4096 with
        mem := setSpan (fun _ => 0) 0
          ([0xaf, 0x22, 0x03, 0x10, 0xaf, 0x23, 0x13, 0x18] ++ store)
        perms := fun _ => PERM_READ ||| PERM_WRITE ||| PERM_EXEC } }

/-- One instruction a turn, three in all. -/
def duelCall : SmpCall := ⟨1, 3, false⟩

/-- With `sb x1, 4(x6)` hart 1 stores beside the word, and the store-conditional may store. -/
theorem smp_lr_sc_safe_beside :
    SafeLog (runSmps [duelCall] (duel [0x23, 0x02, 0x13, 0x00])).log :=
  smp_lr_sc_safe _ _ _ (List.suffix_refl _) (by decide +kernel)

/-- With `sb x1, 1(x6)` it stores to the second byte of the word; the scheduler looks at the first
one, and the store-conditional stores all the same. -/
theorem smp_sc_stores_after_byte_store :
    ¬ SafeLog (runSmps [duelCall] (duel [0xa3, 0x00, 0x13, 0x00])).log := by
  decide +kernel

end FuzzSoft
