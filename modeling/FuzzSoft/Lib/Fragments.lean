import FuzzSoft.Lib.Pieces
import FuzzSoft.Lib.X86

/-!
# Fragments of machine code

A compiler lays its code out of fragments. Of a fragment that stands anywhere in the code one says
that it takes one state to another and goes on with what follows it (`Falls`), or that it returns
(`Leaves`); both compose along the concatenation of fragments. `Does` is the form in which they are
used: some state is reached, only some registers were touched, and a condition holds; `Returns` is the
same of code that returns. A forward jump over a fragment, and a choice between two, are built from
the lengths of the fragments (`Does.skip`, `Does.ifElse_then`).
`Closed` says that a fragment is whole instructions and that none of its jumps leaves it.
-/

namespace Lib.X86

section
variable {μ : Type} {h : Host μ} {e f g inner : List Byte} {i : Instr} {s t u : State μ} {dest : Word}

/-- The bytes are the instruction, whatever follows them. -/
def Encodes (e : List Byte) (i : Instr) : Prop := ∀ rest, decode (e ++ rest) = some (i, rest)

/-- Some instructions of the code, one after another. -/
def Steps (h : Host μ) (code : List Byte) : Nat × State μ → Nat × State μ → Prop :=
  Relation.ReflTransGen fun a b => step h code a.1 a.2 = some (.at b.1 b.2)

/-- The fragment takes one state to the other and falls through. -/
def Falls (h : Host μ) (f : List Byte) (s t : State μ) : Prop :=
  ∀ code o, PieceAt code o f → Steps h code (o, s) (o + f.length, t)

/-- The fragment returns from a state to an address, with another state. -/
def Leaves (h : Host μ) (f : List Byte) (s : State μ) (dest : Word) (t : State μ) : Prop :=
  ∀ code o, PieceAt code o f →
    ∃ q, Steps h code (o, s) q ∧ step h code q.1 q.2 = some (.out dest t)

/-- Of the registers only some may have changed, and the stack has not. -/
structure Touches (rs : List Gpr) (s t : State μ) : Prop where
  regs : ∀ r, r ∉ rs → t.regs r = s.regs r
  stack : t.stack = s.stack

namespace Touches

variable {rs rs' : List Gpr}

/-- Nothing is touched. -/
theorem refl (rs : List Gpr) (s : State μ) : Touches rs s s := ⟨fun _ _ => rfl, rfl⟩

/-- More registers may be touched. -/
theorem mono (hs : Touches rs s t) (hsub : ∀ r ∈ rs, r ∈ rs') : Touches rs' s t :=
  ⟨fun r hr => hs.regs r fun hmem => hr (hsub r hmem), hs.stack⟩

/-- What two runs touch together. -/
theorem trans (hs : Touches rs s t) (ht : Touches rs t u) : Touches rs s u :=
  ⟨fun r hr => (ht.regs r hr).trans (hs.regs r hr), ht.stack.trans hs.stack⟩

/-- A run that touches no register keeps them all. -/
theorem same (hs : Touches [] s t) (r : Gpr) : t.regs r = s.regs r := hs.regs r List.not_mem_nil

/-- Writing a register touches it, whatever happens to the flags and the memory. -/
theorem set (s : State μ) (dst : Gpr) (v : Word) (f : Flags) (m : μ) :
    Touches [dst] s (((s.set dst v).withFlags f).withMem m) := by
  refine ⟨fun r hr => ?_, rfl⟩
  exact Function.update_of_ne (fun h => hr (List.mem_singleton.2 h)) v s.regs

end Touches

/-! ## Single instructions -/

/-- A step at a piece that encodes an instruction runs it. -/
theorem step_of_encodes {code : List Byte} {o : Nat} (hp : PieceAt code o e) (he : Encodes e i) :
    step h code o s = runInstr h i (o + e.length) s := by
  obtain ⟨pre, post, rfl, rfl⟩ := hp
  have hnext : (pre ++ (e ++ post)).length - post.length = pre.length + e.length := by
    simp only [List.length_append]
    omega
  rw [step, List.drop_left, he post]
  exact congrArg (runInstr h i · s) hnext

/-- An instruction without control flow falls through. -/
theorem runInstr_of_exec {next : Nat} (hx : exec h i s = some t) :
    runInstr h i next s = some (.at next t) := by
  cases i with
  | jcc | jmp | ret => cases hx
  | _ => exact congrArg (Option.map (Next.at next)) hx

/-- The encoding of such an instruction falls through. -/
theorem Falls.instr (he : Encodes e i) (hx : exec h i s = some t) : Falls h e s t := by
  intro code o hp
  refine Relation.ReflTransGen.single ?_
  rw [step_of_encodes hp he]
  exact runInstr_of_exec hx

/-- A return leaves for the address on the stack. -/
theorem Leaves.ret (he : Encodes e .ret) {stack : List Word} (hs : s.stack = dest :: stack) :
    Leaves h e s dest { s with stack } := by
  intro code o hp
  refine ⟨(o, s), Relation.ReflTransGen.refl, ?_⟩
  rw [step_of_encodes hp he, runInstr, hs]

/-! ## Sequences -/

/-- The empty fragment falls through. -/
theorem Falls.nil (s : State μ) : Falls h [] s s := fun _ _ _ => Relation.ReflTransGen.refl

/-- Two fragments that fall through, one after the other. -/
theorem Falls.append (hf : Falls h f s t) (hg : Falls h g t u) : Falls h (f ++ g) s u := by
  intro code o hp
  have hright := hg code _ hp.right
  rw [Nat.add_assoc, ← List.length_append] at hright
  exact (hf code o hp.left).trans hright

/-- A fragment that falls through into one that leaves. -/
theorem Falls.leaves (hf : Falls h f s t) (hg : Leaves h g t dest u) :
    Leaves h (f ++ g) s dest u := by
  intro code o hp
  obtain ⟨q, hq, hout⟩ := hg code _ hp.right
  exact ⟨q, (hf code o hp.left).trans hq, hout⟩

/-- What stands after a fragment that leaves is not run. -/
theorem Leaves.append (hf : Leaves h f s dest u) (g : List Byte) : Leaves h (f ++ g) s dest u :=
  fun code o hp => hf code o hp.left

/-- Code that returns does so after finitely many instructions. -/
theorem Leaves.run {code : List Byte} (hl : Leaves h code s dest t) :
    ∃ fuel, run h code fuel 0 s = some (dest, t) := by
  obtain ⟨q, hq, hout⟩ := hl code 0 ⟨[], [], (List.append_nil code).symm, rfl⟩
  have key : ∀ a, Steps h code a q → ∃ fuel, X86.run h code fuel a.1 a.2 = some (dest, t) := by
    intro a ha
    induction ha using Relation.ReflTransGen.head_induction_on with
    | refl => exact ⟨1, by rw [X86.run, hout]; rfl⟩
    | head hstep _ ih =>
      obtain ⟨fuel, hrun⟩ := ih
      exact ⟨fuel + 1, by rw [X86.run, hstep]; exact hrun⟩
  exact key (0, s) hq

/-! ## Forward jumps -/

/-- A forward jump. -/
theorem jumpTo_forward {next k : Nat} {rel : BitVec 32} (hrel : rel.toInt = k) :
    jumpTo next rel = some (next + k) := by
  rw [jumpTo, hrel, if_pos (by omega)]
  congr 1

section
variable {cc : Cond} {rel : BitVec 32}

/-- A jump that is taken passes over what follows it. -/
theorem Falls.jcc_taken (he : Encodes e (.jcc cc rel)) (hcc : cc.holds s.flags = true)
    (hrel : rel.toInt = f.length) : Falls h (e ++ f) s s := by
  intro code o hp
  refine Relation.ReflTransGen.single ?_
  rw [step_of_encodes hp.left he, runInstr, if_pos hcc, jumpTo_forward hrel, List.length_append,
    ← Nat.add_assoc]
  rfl

/-- A conditional jump that is not taken falls through. -/
theorem Falls.jcc_not (he : Encodes e (.jcc cc rel)) (hcc : cc.holds s.flags = false) :
    Falls h e s s := by
  intro code o hp
  refine Relation.ReflTransGen.single ?_
  rw [step_of_encodes hp he, runInstr, if_neg (by rw [hcc]; exact Bool.false_ne_true)]

/-- A jump over a fragment falls through to its end. -/
theorem Falls.jmp (he : Encodes e (.jmp rel)) (hrel : rel.toInt = f.length) :
    Falls h (e ++ f) s s := by
  intro code o hp
  refine Relation.ReflTransGen.single ?_
  rw [step_of_encodes hp.left he, runInstr, jumpTo_forward hrel, List.length_append,
    ← Nat.add_assoc]
  rfl

end

/-! ## Effects -/

/-- The fragment falls through, touches only some registers, and leaves a state in `Q`. -/
def Does (h : Host μ) (f : List Byte) (rs : List Gpr) (s : State μ) (Q : State μ → Prop) : Prop :=
  ∃ t, Falls h f s t ∧ Touches rs s t ∧ Q t

namespace Does

variable {rs rs' : List Gpr} {P Q : State μ → Prop}

/-- The empty fragment does nothing. -/
theorem nil (hQ : Q s) : Does h [] rs s Q := ⟨s, .nil s, .refl rs s, hQ⟩

/-- The encoding of an instruction does what it does. -/
theorem instr (he : Encodes e i) (hx : exec h i s = some t) (hu : Touches rs s t) (hQ : Q t) :
    Does h e rs s Q := ⟨t, .instr he hx, hu, hQ⟩

/-- After the first fragment the second one runs from a state that it has left. -/
theorem append (hf : Does h f rs s P)
    (hg : ∀ t, Touches rs s t → P t → Does h g rs t Q) : Does h (f ++ g) rs s Q := by
  obtain ⟨t, hft, hut, hP⟩ := hf
  obtain ⟨u, hgu, huu, hQ⟩ := hg t hut hP
  exact ⟨u, hft.append hgu, hut.trans huu, hQ⟩

/-- More registers may be touched. -/
theorem mono (hf : Does h f rs s Q) (hsub : ∀ r ∈ rs, r ∈ rs') : Does h f rs' s Q := by
  obtain ⟨t, hft, hut, hQ⟩ := hf
  exact ⟨t, hft, hut.mono hsub, hQ⟩

/-- A call leaves its result in `rax` and keeps the registers that it preserves. -/
theorem call {r : Gpr} {v : Word} {m : μ} (he : Encodes e (.call r))
    (hc : h.call (s.regs r) s.regs s.mem = some (v, m))
    (hrs : ∀ r, r.callerSaved = true → r ∈ rs) :
    Does h e rs s fun t => t.regs Gpr.rax = v ∧ t.mem = m := by
  have hexec : exec h (.call r) s = some
      { s with
        regs := fun x => if x = Gpr.rax then v else if x.callerSaved then h.junk s x else s.regs x
        flags := h.junkFlags s
        mem := m } := by
    rw [exec, hc]
    rfl
  refine ⟨_, .instr he hexec, ⟨fun x hx => ?_, rfl⟩, by simp, rfl⟩
  have hsaved : x.callerSaved = false := Bool.eq_false_iff.2 fun h => hx (hrs x h)
  have hrax : x ≠ Gpr.rax := by
    rintro rfl
    exact absurd hsaved (by decide)
  simp [hrax, hsaved]

/-- A fragment between a push and a pop leaves the pushed register as it was. -/
theorem saving {r : Gpr} {e' : List Byte} {R : Word → μ → Prop} (he : Encodes e (.push r))
    (he' : Encodes e' (.pop r)) (hr : r ≠ Gpr.rax)
    (hf : ∀ u : State μ, u.regs = s.regs → u.mem = s.mem →
      Does h f rs u fun t => R (t.regs Gpr.rax) t.mem) :
    Does h (e ++ f ++ e') (rs.filter (· ≠ r)) s fun t => R (t.regs Gpr.rax) t.mem := by
  obtain ⟨t, ht, hu, hR⟩ := hf { s with stack := s.regs r :: s.stack } rfl rfl
  have hpop : exec h (.pop r) t = some (({ t with stack := s.stack } : State μ).set r (s.regs r)) := by
    rw [exec, hu.stack]
  have hpush : exec h (.push r) s = some { s with stack := s.regs r :: s.stack } := rfl
  refine ⟨_, ((Falls.instr he hpush).append ht).append (.instr he' hpop), ⟨fun x hx => ?_, rfl⟩, ?_⟩
  · by_cases hxr : x = r
    · rw [hxr, State.regs_set_self]
    · rw [State.regs_set_of_ne _ _ hxr]
      exact hu.regs x fun h => hx (List.mem_filter.2 ⟨h, decide_eq_true hxr⟩)
  · show R ((State.set _ r _).regs Gpr.rax) _
    rw [State.regs_set_of_ne _ _ hr.symm]
    exact hR

/-- The same with what the untouched registers still hold. -/
theorem imp (hf : Does h f rs s P) (hPQ : ∀ t, Touches rs s t → P t → Q t) :
    Does h f rs s Q := by
  obtain ⟨t, hft, hut, hP⟩ := hf
  exact ⟨t, hft, hut, hPQ t hut hP⟩

end Does

/-! ## Returning -/

/-- The fragment returns to its caller, having touched only some registers, from a state in `Q`. -/
def Returns (h : Host μ) (f : List Byte) (rs : List Gpr) (s : State μ) (Q : State μ → Prop) :
    Prop :=
  ∃ t, Touches rs s t ∧ Q t ∧
    ∀ dest stack, s.stack = dest :: stack → Leaves h f s dest { t with stack }

section
variable {rs rs' : List Gpr} {P Q : State μ → Prop}

/-- A fragment before a return returns. -/
theorem Does.ret (hf : Does h f rs s Q) (he : Encodes e .ret) : Returns h (f ++ e) rs s Q := by
  obtain ⟨t, ht, hu, hQ⟩ := hf
  exact ⟨t, hu, hQ, fun dest stack hs => ht.leaves (.ret he (hu.stack.trans hs))⟩

/-- What stands after a fragment that returns is not run. -/
theorem Returns.append (hf : Returns h f rs s Q) (g : List Byte) : Returns h (f ++ g) rs s Q := by
  obtain ⟨t, hu, hQ, hl⟩ := hf
  exact ⟨t, hu, hQ, fun dest stack hs => (hl dest stack hs).append g⟩

/-- After the first fragment the second one returns. -/
theorem Does.returns (hf : Does h f rs s P)
    (hg : ∀ t, Touches rs s t → P t → Returns h g rs t Q) : Returns h (f ++ g) rs s Q := by
  obtain ⟨t, ht, hu, hP⟩ := hf
  obtain ⟨u, hu', hQ, hl⟩ := hg t hu hP
  exact ⟨u, hu.trans hu', hQ, fun dest stack hs => ht.leaves (hl dest stack (hu.stack.trans hs))⟩

/-- More registers may be touched. -/
theorem Returns.mono (hf : Returns h f rs s Q) (hsub : ∀ r ∈ rs, r ∈ rs') :
    Returns h f rs' s Q := by
  obtain ⟨t, hu, hQ, hl⟩ := hf
  exact ⟨t, hu.mono hsub, hQ, hl⟩

/-- What holds on return may be weakened. -/
theorem Returns.imp (hf : Returns h f rs s P) (hPQ : ∀ t, Touches rs s t → P t → Q t) :
    Returns h f rs s Q := by
  obtain ⟨t, hu, hP, hl⟩ := hf
  exact ⟨t, hu, hPQ t hu hP, hl⟩

end

/-! ## Choices -/

section
variable {cc : Cond} {rel rel' : BitVec 32} {e' : List Byte} {rs : List Gpr} {Q : State μ → Prop}

/-- A block that is passed over. -/
theorem Does.skip (he : Encodes e (.jcc cc rel)) (hcc : cc.holds s.flags = true)
    (hrel : rel.toInt = f.length) (hQ : Q s) : Does h (e ++ f) rs s Q :=
  ⟨s, .jcc_taken he hcc hrel, .refl rs s, hQ⟩

/-- A block that is not passed over, and returns. -/
theorem Returns.entered (he : Encodes e (.jcc cc rel)) (hcc : cc.holds s.flags = false)
    (hf : Returns h f rs s Q) : Returns h (e ++ f) rs s Q :=
  Does.returns (P := (· = s)) ⟨s, .jcc_not he hcc, .refl rs s, rfl⟩ (by rintro t - rfl; exact hf)

/-- The second of two blocks, to which the condition jumps. -/
theorem Does.ifElse_then (he : Encodes e (.jcc cc rel)) (hcc : cc.holds s.flags = true)
    (hrel : rel.toInt = (f ++ e').length) (hg : Does h g rs s Q) :
    Does h (e ++ f ++ e' ++ g) rs s Q := by
  obtain ⟨t, ht, hu, hQ⟩ := hg
  rw [List.append_assoc e]
  exact ⟨t, (Falls.jcc_taken he hcc hrel).append ht, hu, hQ⟩

/-- The first of two blocks, which ends with a jump over the second one. -/
theorem Does.ifElse_else (he : Encodes e (.jcc cc rel)) (hcc : cc.holds s.flags = false)
    (he' : Encodes e' (.jmp rel')) (hrel' : rel'.toInt = g.length) (hf : Does h f rs s Q) :
    Does h (e ++ f ++ e' ++ g) rs s Q := by
  obtain ⟨t, ht, hu, hQ⟩ := hf
  rw [List.append_assoc]
  exact ⟨t, ((Falls.jcc_not he hcc).append ht).append (.jmp he' hrel'), hu, hQ⟩

/-- The first of two blocks, if it returns. -/
theorem Returns.ifElse_else (he : Encodes e (.jcc cc rel)) (hcc : cc.holds s.flags = false)
    (hf : Returns h f rs s Q) : Returns h (e ++ f ++ e' ++ g) rs s Q :=
  ((hf.entered he hcc).append e').append g

end

/-! ## Jumps that stay -/

/-- The instructions of a fragment, with their lengths. -/
inductive Tiles : List Byte → List (Instr × Nat) → Prop where
  | nil : Tiles [] []
  | cons {e f : List Byte} {i : Instr} {is : List (Instr × Nat)} (he : Encodes e i)
    (hf : Tiles f is) : Tiles (e ++ f) ((i, e.length) :: is)

/-- Where the instructions start. -/
def starts (o : Nat) : List (Instr × Nat) → List Nat
  | [] => []
  | (_, n) :: is => o :: starts (o + n) is

/-- The distance of a jump. -/
def Instr.rel : Instr → Option (BitVec 32)
  | .jcc _ rel => some rel
  | .jmp rel => some rel
  | _ => none

/-- The jumps among the instructions go to places that satisfy `p`. -/
def JumpsTo (p : Nat → Prop) (o : Nat) : List (Instr × Nat) → Prop
  | [] => True
  | (i, n) :: is =>
    (∀ rel, i.rel = some rel → ∃ dest, jumpTo (o + n) rel = some dest ∧ p dest) ∧
      JumpsTo p (o + n) is

/-- Every jump of the code lands where an instruction of it starts. -/
def JumpsLand (code : List Byte) : Prop :=
  ∃ is, Tiles code is ∧ JumpsTo (· ∈ starts 0 is) 0 is

/-- A fragment of whole instructions whose jumps stay in it or go to its end. -/
def Closed (f : List Byte) : Prop :=
  ∃ is, Tiles f is ∧ ∀ o, JumpsTo (fun p => p ∈ starts o is ∨ p = o + f.length) o is

section
variable {is js : List (Instr × Nat)}

/-- Jump targets may be widened. -/
theorem JumpsTo.imp {p q : Nat → Prop} (hpq : ∀ n, p n → q n) :
    ∀ {o : Nat} {is : List (Instr × Nat)}, JumpsTo p o is → JumpsTo q o is
  | _, [], _ => trivial
  | _, (_, _) :: _, hj => by
    refine ⟨fun rel hrel => ?_, hj.2.imp hpq⟩
    obtain ⟨dest, hdest, hp⟩ := hj.1 rel hrel
    exact ⟨dest, hdest, hpq dest hp⟩

/-- Tilings of two fragments tile both together. -/
theorem Tiles.append (hf : Tiles f is) (hg : Tiles g js) : Tiles (f ++ g) (is ++ js) := by
  induction hf with
  | nil => exact hg
  | cons he _ ih =>
    rw [List.append_assoc]
    exact .cons he ih

/-- The starts of the instructions of two fragments. -/
theorem starts_append {o : Nat} (hf : Tiles f is) :
    starts o (is ++ js) = starts o is ++ starts (o + f.length) js := by
  induction hf generalizing o with
  | nil => rfl
  | cons _ _ ih =>
    rw [List.cons_append, starts, ih, starts, List.cons_append, List.length_append, Nat.add_assoc]

/-- The jumps of two fragments. -/
theorem JumpsTo.append {p : Nat → Prop} {o : Nat} (hf : Tiles f is) (hi : JumpsTo p o is)
    (hj : JumpsTo p (o + f.length) js) : JumpsTo p o (is ++ js) := by
  induction hf generalizing o with
  | nil => exact hj
  | cons _ _ ih =>
    refine ⟨hi.1, ih hi.2 ?_⟩
    rwa [Nat.add_assoc, ← List.length_append]

/-- The end of a fragment is where the next one starts, or its end if it is empty. -/
theorem mem_starts_or (hg : Tiles g js) (o : Nat) : o ∈ starts o js ∨ o = o + g.length := by
  cases hg with
  | nil => exact .inr rfl
  | cons => exact .inl List.mem_cons_self

end

/-- The empty fragment is closed. -/
theorem Closed.nil : Closed [] := ⟨[], .nil, fun _ => trivial⟩

/-- Two closed fragments are closed together. -/
theorem Closed.append (hf : Closed f) (hg : Closed g) : Closed (f ++ g) := by
  obtain ⟨is, hf, hi⟩ := hf
  obtain ⟨js, hg, hj⟩ := hg
  refine ⟨is ++ js, hf.append hg, fun o => ?_⟩
  rw [starts_append hf, List.length_append, ← Nat.add_assoc]
  refine .append hf ((hi o).imp fun p hp => ?_) ((hj _).imp fun p hp => ?_)
  · rcases hp with hp | rfl
    · exact .inl (List.mem_append_left _ hp)
    · exact (mem_starts_or hg _).imp_left (List.mem_append_right _)
  · exact hp.imp_left (List.mem_append_right _)

/-- An instruction that does not jump is closed. -/
theorem Closed.instr (he : Encodes e i) (hrel : i.rel = none) : Closed e := by
  refine ⟨[(i, e.length)], ?_, fun o => ⟨fun rel h => ?_, trivial⟩⟩
  · have := Tiles.cons he .nil
    rwa [List.append_nil] at this
  · rw [hrel] at h
    cases h

/-- A jump over a fragment. -/
theorem Closed.jump {rel : BitVec 32} (he : Encodes e i) (hi : i.rel = some rel)
    (hrel : rel.toInt = f.length) (hf : Closed f) : Closed (e ++ f) := by
  obtain ⟨is, hf, hj⟩ := hf
  refine ⟨(i, e.length) :: is, .cons he hf, fun o => ⟨fun r hr => ?_, ?_⟩⟩
  · cases hi.symm.trans hr
    refine ⟨_, jumpTo_forward hrel, .inr ?_⟩
    rw [List.length_append, Nat.add_assoc]
  · refine (hj _).imp fun p hp => ?_
    rw [List.length_append, ← Nat.add_assoc]
    exact hp.imp_left (List.mem_cons_of_mem _)

/-- A jump over a fragment and a jump out of it, over the next one. -/
theorem Closed.ifElse {e' : List Byte} {i' : Instr} {rel rel' : BitVec 32} (he : Encodes e i)
    (hi : i.rel = some rel) (hrel : rel.toInt = (f ++ e').length) (hf : Closed f)
    (he' : Encodes e' i') (hi' : i'.rel = some rel') (hrel' : rel'.toInt = g.length)
    (hg : Closed g) : Closed (e ++ f ++ e' ++ g) := by
  obtain ⟨is, hf, hj⟩ := hf
  obtain ⟨js, hg, hk⟩ := hg
  refine ⟨(i, e.length) :: (is ++ (i', e'.length) :: js), ?_, fun o => ?_⟩
  · rw [List.append_assoc, List.append_assoc]
    exact .cons he (hf.append (.cons he' hg))
  have hstarts : starts o ((i, e.length) :: (is ++ (i', e'.length) :: js)) =
      o :: (starts (o + e.length) is ++ (o + e.length + f.length) ::
        starts (o + e.length + f.length + e'.length) js) := by
    rw [starts, starts_append hf, starts]
  have hend : o + (e ++ f ++ e' ++ g).length =
      o + e.length + f.length + e'.length + g.length := by
    simp only [List.length_append]
    omega
  -- the ends of `f` and `e'` are starts, and the end of `g` is the end
  rw [hstarts, hend]
  refine ⟨fun r hr => ?_, .append hf ((hj _).imp fun p hp => ?_) ⟨fun r hr => ?_, ?_⟩⟩
  · cases hi.symm.trans hr
    refine ⟨_, jumpTo_forward hrel, ?_⟩
    rw [List.length_append, ← Nat.add_assoc]
    exact (mem_starts_or hg _).imp_left fun h =>
      List.mem_cons_of_mem _ (List.mem_append_right _ (List.mem_cons_of_mem _ h))
  · rcases hp with hp | rfl
    · exact .inl (List.mem_cons_of_mem _ (List.mem_append_left _ hp))
    · exact .inl (List.mem_cons_of_mem _ (List.mem_append_right _ List.mem_cons_self))
  · cases hi'.symm.trans hr
    exact ⟨_, jumpTo_forward hrel', .inr rfl⟩
  · exact (hk _).imp fun p hp => hp.imp_left fun h =>
      List.mem_cons_of_mem _ (List.mem_append_right _ (List.mem_cons_of_mem _ h))

/-- In code that ends without a jump to its end every jump lands. -/
theorem Closed.jumpsLand (hf : Closed f) (he : Encodes e i) (hrel : i.rel = none) :
    JumpsLand (f ++ e) := by
  obtain ⟨is, hf, hj⟩ := hf
  have hone : Tiles e [(i, e.length)] := by
    have := Tiles.cons he .nil
    rwa [List.append_nil] at this
  refine ⟨is ++ [(i, e.length)], hf.append hone, ?_⟩
  rw [starts_append hf]
  refine .append hf ((hj 0).imp fun p hp => ?_) ⟨fun rel h => ?_, trivial⟩
  · rcases hp with hp | rfl
    · exact List.mem_append_left _ hp
    · exact List.mem_append_right _ List.mem_cons_self
  · rw [hrel] at h
    cases h

end

end Lib.X86
