import FuzzSoft.Prog.Generate

/-!
# Generation of programs

The upper half of `genr.rs`: recipes, forced rings, fresh programs, and the prefix that arms fault
injection. Over any table that can be drawn from, `generate` and `prependFailInject` return well-formed programs of 1 to `MAX_CALLS` calls.
-/

namespace FuzzSoft

open Lib Gen Rng

/-! ## Recipes -/

def RECIPES : List (List String) :=
  [["memfd_create", "ftruncate64", "mmap2", "mprotect", "madvise", "munmap"],
   ["openat", "read", "pwrite64", "fcntl64$setfl", "close"],
   ["socket", "setsockopt$tcp_nodelay", "connect$inet", "getsockopt", "close"],
   ["socket", "bind$inet", "listen", "getsockname", "close"],
   ["socketpair", "sendmsg", "recvmsg", "shutdown"],
   ["pipe2", "write", "read", "close", "close"],
   ["epoll_create1", "eventfd2", "epoll_ctl", "epoll_pwait", "close"],
   ["openat", "dup3", "fcntl64$getfd", "flock", "close"],
   ["pidfd_open", "pidfd_getfd", "close"],
   ["memfd_create", "mmap2", "readv", "writev", "munmap"],
   ["pipe2", "pipe2", "vmsplice", "tee", "splice", "close", "close"],
   ["openat$ns", "setns", "unshare"],
   ["add_key", "keyctl$describe", "keyctl$read", "keyctl$revoke"],
   ["process_vm_writev", "process_vm_readv"],
   ["epoll_create1", "epoll_create1", "epoll_create1", "epoll_ctl", "epoll_ctl", "epoll_ctl"]]

/-- The calls that a recipe names, unless one is not in the table. -/
def recipeCalls : List String → List TypedCall → Rand (Option Prog)
  | [], calls => pure (some ⟨calls⟩)
  | name :: names, calls =>
    match findDesc name with
    | none => pure none
    | some desc => do
      let calls' ← addCall desc calls
      recipeCalls names calls'

def generateFromRecipe (recipe : List String) : Rand (Option Prog) :=
  recipeCalls (recipe.take MAX_CALLS) []

/-! ## Rings -/

def RING_FORCE_PCT : Nat := 10

/-- How a linking call is wired to two nodes of a ring, and what else is forced in it. -/
structure RingLinkSpec where
  anchorArgIdx : Nat
  targetArgIdx : Nat
  fixedArgs : List (Nat × ArgValue)
  forceNonnullPtrIdx : Option Nat

/-- A pointer argument that must not be NULL gets a fresh pointee. -/
def forceNonnull (linker : SyscallDesc) (calls : List TypedCall) (args : List ArgValue) :
    Option Nat → Rand (List ArgValue)
  | none => pure args
  | some idx => do
    let ty ← index linker.args idx
    match ty with
    | .ptr _ inner _ => do
      let v ← genArgValue (buildPool calls) inner
      assign args idx (.ptr v)
    | _ => pure args

/-- The `i`-th linking call of a ring of `n` nodes. -/
def ringLink (linker : SyscallDesc) (link : RingLinkSpec) (n i : Nat) (calls : List TypedCall) :
    Rand (List TypedCall) := do
  let args ← generateArgs linker calls
  let args ← assign args link.anchorArgIdx (.res (.produced (BitVec.ofNat 16 i) 0))
  let args ← assign args link.targetArgIdx (.res (.produced (BitVec.ofNat 16 ((i + 1) % n)) 0))
  let args ← link.fixedArgs.foldlM (fun args f => assign args f.1 f.2) args
  let args ← forceNonnull linker calls args link.forceNonnullPtrIdx
  pure (calls ++ [⟨linker, args⟩])

/-- `n` producers, and `n` calls that link them into a ring. -/
def buildSameKindRing (producer linker : String) (link : RingLinkSpec) (n : Nat) :
    Rand (Option Prog) :=
  if n < 2 ∨ 2 * n > MAX_CALLS then pure none
  else match findDesc producer, findDesc linker with
    | some producer, some linker =>
      if link.anchorArgIdx ≥ linker.args.length ∨ link.targetArgIdx ≥ linker.args.length then
        pure none
      else do
        let calls ← loop (fun _ => addCall producer) 0 n []
        let calls ← loop (ringLink linker link n) 0 n calls
        pure (some ⟨calls⟩)
    | _, _ => pure none

/-- `epoll_ctl(E_i, EPOLL_CTL_ADD, E_(i+1), event)`. -/
def epollLink : RingLinkSpec := ⟨0, 2, [(1, .imm 1)], some 3⟩

def buildEpollRing (n : Nat) : Rand (Option Prog) :=
  buildSameKindRing "epoll_create1" "epoll_ctl" epollLink (min (max n 3) (MAX_CALLS / 2))

/-! ## Programs -/

def generate (sys : List SyscallDesc) : Rand Prog := do
  let ring ← chance RING_FORCE_PCT
  let forced ← (if ring then do
      let n ← below (MAX_CALLS / 2 - 2)
      buildEpollRing (3 + n)
    else pure none)
  match forced with
  | some p => pure p
  | none => do
    let fromRecipe ← chance 20
    let built ← (if fromRecipe then do
        let i ← below RECIPES.length
        let recipe ← index RECIPES i
        generateFromRecipe recipe
      else pure none)
    match built with
    | some p => pure p
    | none => do
      let n ← below MAX_CALLS
      let calls ← loop (fun _ calls => do
        let desc ← pickDescBiased sys calls
        addCall desc calls) 0 (1 + n) []
      pure ⟨calls⟩

/-- A well-formed program of 1 to `MAX_CALLS` calls, of the table or looked up by name. -/
structure Prog.Ok (sys : List SyscallDesc) (p : Prog) : Prop where
  nonempty : 1 ≤ p.calls.length
  bounded : p.calls.length ≤ MAX_CALLS
  wellFormed : p.isWellFormed = true
  descs : ∀ c ∈ p.calls, Described sys c.desc

/-! ### The entries that are wired -/

/-- `epoll_create1` produces an epoll descriptor. -/
theorem ringProducer_produces {d : SyscallDesc} (h : findDesc "epoll_create1" = some d) :
    d.produces = .ret .epoll := by
  cases h
  rfl

/-- The arguments of `epoll_ctl`. -/
theorem ringLinker_args {d : SyscallDesc} (h : findDesc "epoll_ctl" = some d) :
    ∃ ops bitmask dir event nullable,
      d.args = [.res .epoll, .flags ops bitmask, .res .fd, .ptr dir event nullable] := by
  cases h
  exact ⟨_, _, _, _, _, rfl⟩

/-- The failure injection opens a file. -/
theorem failOpen_desc : ∃ d, findDesc "openat$fail_nth" = some d ∧ d.produces = .ret .fd :=
  ⟨_, rfl, rfl⟩

/-- It writes to a file. -/
theorem failWrite_desc :
    ∃ d tys, findDesc "write$fail_nth" = some d ∧ d.args = .res .fd :: tys :=
  ⟨_, _, rfl, rfl⟩

section
variable {sys : List SyscallDesc} {calls : List TypedCall} {n : Nat}

/-- A built program of a fair length is in order. -/
theorem Built.ok (h : Built sys n calls) (h1 : 1 ≤ n) (h8 : n ≤ MAX_CALLS) :
    Prog.Ok sys ⟨calls⟩ where
  nonempty := h.length.symm ▸ h1
  bounded := h.length.symm ▸ h8
  wellFormed := (isWellFormed_iff _).mpr h.threaded
  descs := h.descs

/-- The calls of a recipe are built. -/
theorem ensures_recipeCalls (hs : Drawable sys) : ∀ (names : List String) {n : Nat}
    {calls : List TypedCall}, Built sys n calls → n + names.length ≤ MAX_CALLS →
    Ensures (recipeCalls names calls) fun o => ∀ p ∈ o, Built sys (n + names.length) p.calls
  | [], n, calls, h, _ => ensures_pure fun p hp => by
    cases hp
    exact h
  | name :: names, n, calls, h, hn => by
    rw [List.length_cons] at hn
    rw [recipeCalls]
    split
    · exact ensures_pure fun p hp => by cases hp
    next desc hd =>
      have hle : n ≤ 2 ^ 16 := by simp only [MAX_CALLS] at hn; omega
      refine ensures_bind (ensures_addCall hs h hle (described_of_findDesc hd)) fun calls' h' => ?_
      rw [List.length_cons, ← Nat.add_assoc, Nat.add_right_comm]
      exact ensures_recipeCalls hs names h' (by omega)

/-- A program from a recipe is in order. -/
theorem ensures_generateFromRecipe (hs : Drawable sys) {recipe : List String} (hr : recipe ≠ []) :
    Ensures (generateFromRecipe recipe) fun o => ∀ p ∈ o, p.Ok sys := by
  have hlen : 1 ≤ (recipe.take MAX_CALLS).length ∧ (recipe.take MAX_CALLS).length ≤ MAX_CALLS := by
    have := List.length_pos_iff.mpr hr
    simp only [List.length_take, MAX_CALLS]
    omega
  refine (ensures_recipeCalls hs _ built_nil (by omega)).mono fun o ho p hp => ?_
  rw [Nat.zero_add] at ho
  exact (ho p hp).ok hlen.1 hlen.2

/-! ### The ring -/

/-- The first `n` calls are the producers of a ring, and all of them are in order. -/
structure RingBuilt (sys : List SyscallDesc) (producer : SyscallDesc) (n m : Nat)
    (calls : List TypedCall) : Prop extends Built sys m calls where
  producers : ∀ k < n, (calls.map (·.desc))[k]? = some producer

/-- A reference to a node of the ring. -/
theorem RingBuilt.refOk {producer : SyscallDesc} {m k : Nat} {want : ResourceKind}
    (h : RingBuilt sys producer n m calls) (hp : producer.produces = .ret .epoll)
    (hw : kindCompat want .epoll = true) (hk : k < n) (hn : n ≤ MAX_CALLS) :
    RefOk (calls.map (·.desc)) want (.produced (BitVec.ofNat 16 k) 0) := by
  have hmod : (BitVec.ofNat 16 k).toNat = k := by
    rw [BitVec.toNat_ofNat]
    simp only [MAX_CALLS] at hn
    omega
  refine ⟨producer, .epoll, hmod.symm ▸ h.producers k hk, ?_, hw⟩
  rw [hp]
  rfl

/-- The producers of a ring are built. -/
theorem ensures_ringProducers (hs : Drawable sys) {producer : SyscallDesc}
    (hp : Described sys producer) (hn : n ≤ MAX_CALLS) : Ensures (loop (fun _ => addCall producer) 0 n [])
      (RingBuilt sys producer n n) := by
  have hstep : ∀ j calls, 0 ≤ j → j < 0 + n → RingBuilt sys producer j j calls →
      Ensures (addCall producer calls) (RingBuilt sys producer (j + 1) (j + 1)) := by
    intro j calls _ hj h
    have hle : calls.length ≤ 2 ^ 16 := by
      have := h.length
      simp only [MAX_CALLS] at hn
      omega
    refine ensures_bind (ensures_generateArgs hle (hp.choices hs)) fun args ha => ?_
    refine ensures_pure ⟨h.toBuilt.concat hp ha, fun k hk => ?_⟩
    rw [List.map_append]
    rcases Nat.lt_or_eq_of_le (Nat.le_of_lt_succ hk) with hk | rfl
    · rw [List.getElem?_append_left (by rw [List.length_map, h.length]; exact hk)]
      exact h.producers k hk
    · rw [List.getElem?_append_right (by rw [List.length_map, h.length]), List.length_map, h.length,
        Nat.sub_self]
      rfl
  have := ensures_loop (I := fun j => RingBuilt sys producer j j) n hstep
    ⟨built_nil, fun k hk => absurd hk (Nat.not_lt_zero k)⟩
  rwa [Nat.zero_add] at this

/-- So is one of its links. -/
theorem ensures_ringLink (hs : Drawable sys) {producer linker : SyscallDesc}
    (hp : findDesc "epoll_create1" = some producer) (hl : findDesc "epoll_ctl" = some linker)
    {m i : Nat} (hi : i < n) (hm : m < MAX_CALLS) (hn : n ≤ MAX_CALLS)
    (h : RingBuilt sys producer n m calls) :
    Ensures (ringLink linker epollLink n i calls) (RingBuilt sys producer n (m + 1)) := by
  obtain ⟨ops, bitmask, dir, event, nullable, hargs⟩ := ringLinker_args hl
  have hprod := ringProducer_produces hp
  have hle : calls.length ≤ 2 ^ 16 := by
    have := h.length
    simp only [MAX_CALLS] at hm
    omega
  have hlinker : Described sys linker := described_of_findDesc hl
  have hchoices := hlinker.choices hs
  have hevent : event.choices = true := by
    rw [hargs] at hchoices
    simp only [choicesAll, Bool.and_eq_true] at hchoices
    exact hchoices.2.2.2.1
  have hlen {args : List ArgValue} (ha : CallOk (calls.map (·.desc)) ⟨linker, args⟩) :
      args.length = 4 := by
    rw [ha.length, hargs]
    rfl
  -- each assignment keeps the call in order, so the list of values keeps its length
  refine ensures_bind (ensures_generateArgs hle hchoices) fun args ha => ?_
  refine ensures_bind (ensures_assign (by rw [hlen ha]; decide) _) fun args₁ h₁ => ?_
  have ha₁ : CallOk (calls.map (·.desc)) ⟨linker, args₁⟩ := by
    rw [h₁]
    refine ha.set fun ty hty => ?_
    rw [hargs] at hty
    cases hty
    exact h.refOk hprod rfl hi hn
  refine ensures_bind (ensures_assign (by rw [hlen ha₁]; decide) _) fun args₂ h₂ => ?_
  have ha₂ : CallOk (calls.map (·.desc)) ⟨linker, args₂⟩ := by
    rw [h₂]
    refine ha₁.set fun ty hty => ?_
    rw [hargs] at hty
    cases hty
    exact h.refOk hprod rfl (Nat.mod_lt _ (by omega)) hn
  refine ensures_bind (ensures_bind (ensures_assign (by rw [hlen ha₂]; decide) _)
    fun args₃ h₃ => ensures_pure h₃) fun args₃ h₃ => ?_
  have ha₃ : CallOk (calls.map (·.desc)) ⟨linker, args₃⟩ := by
    rw [h₃]
    refine ha₂.set fun ty hty => ?_
    rw [hargs] at hty
    cases hty
    trivial
  refine ensures_bind (P := fun args => CallOk (calls.map (·.desc)) ⟨linker, args⟩) ?_ ?_
  · refine ensures_bind (ensures_index (by rw [hargs]; simp)) fun ty hty => ?_
    rw [hargs] at hty
    cases hty
    refine ensures_bind (ensures_genArgValue (poolOk_buildPool hle) event hevent) fun v _ => ?_
    refine (ensures_assign (by rw [hlen ha₃]; decide) _).mono fun args₄ h₄ => ?_
    rw [h₄]
    refine ha₃.set fun ty hty => ?_
    rw [hargs] at hty
    cases hty
    trivial
  · intro args₄ ha₄
    refine ensures_pure ⟨h.toBuilt.concat hlinker ha₄, fun k hk => ?_⟩
    have hnode := h.producers k hk
    rw [List.map_append, List.getElem?_append_left (List.getElem?_eq_some_iff.mp hnode).1]
    exact hnode

/-- An epoll ring is in order. -/
theorem ensures_buildEpollRing (hs : Drawable sys) (n : Nat) :
    Ensures (buildEpollRing n) fun o => ∀ p ∈ o, p.Ok sys := by
  unfold buildEpollRing buildSameKindRing
  have hn : min (max n 3) (MAX_CALLS / 2) ≤ 4 := Nat.min_le_right _ _
  have hpos : 3 ≤ min (max n 3) (MAX_CALLS / 2) := by simp only [MAX_CALLS]; omega
  generalize min (max n 3) (MAX_CALLS / 2) = m at hn hpos ⊢
  have hnone : Ensures (pure none : Rand (Option Prog)) fun o => ∀ p ∈ o, p.Ok sys :=
    ensures_pure fun p hp => by cases hp
  refine ensures_ite (fun _ => hnone) fun _ => ?_
  split
  next producer linker hp hl =>
    refine ensures_ite (fun _ => hnone) fun _ => ?_
    have hm : m ≤ MAX_CALLS := by simp only [MAX_CALLS]; omega
    refine ensures_bind (ensures_ringProducers hs (described_of_findDesc hp) hm) fun calls h => ?_
    have hstep : ∀ j calls, 0 ≤ j → j < 0 + m → RingBuilt sys producer m (m + j) calls →
        Ensures (ringLink linker epollLink m j calls) (RingBuilt sys producer m (m + (j + 1))) := by
      intro j calls _ hj h
      have hlt : m + j < MAX_CALLS := by simp only [MAX_CALLS]; omega
      exact ensures_ringLink hs hp hl (by omega) hlt hm h
    refine ensures_bind (ensures_loop (I := fun j => RingBuilt sys producer m (m + j)) m hstep h)
      fun calls' h' => ensures_pure fun p hp => ?_
    cases hp
    exact h'.toBuilt.ok (by omega) (by simp only [MAX_CALLS]; omega)
  · exact hnone

/-- Every generated program is well-formed and of the right size, and none of its draws panics. -/
theorem ensures_generate (hs : Drawable sys) : Ensures (generate sys) (·.Ok sys) := by
  have hnone : Ensures (pure none : Rand (Option Prog)) fun o => ∀ p ∈ o, p.Ok sys :=
    ensures_pure fun p hp => by cases hp
  refine ensures_chance_bind fun ring => ?_
  refine ensures_bind (P := fun o => ∀ p ∈ o, Prog.Ok sys p) (ensures_ite (fun _ => ?_) fun _ => hnone)
    fun forced hforced => ?_
  · exact ensures_bind (ensures_below _) fun n _ => ensures_buildEpollRing hs (3 + n)
  cases forced with
  | some p => exact ensures_pure (hforced p rfl)
  | none =>
    refine ensures_chance_bind fun fromRecipe => ?_
    refine ensures_bind (P := fun o => ∀ p ∈ o, Prog.Ok sys p)
      (ensures_ite (fun _ => ?_) fun _ => hnone) fun built hbuilt => ?_
    · refine ensures_bind (ensures_below _) fun i hi => ?_
      refine ensures_bind (ensures_index (hi (by decide))) fun recipe hr => ?_
      have hne : ∀ r ∈ RECIPES, r ≠ [] := by decide
      exact ensures_generateFromRecipe hs (hne recipe (List.mem_of_getElem? hr))
    cases built with
    | some p => exact ensures_pure (hbuilt p rfl)
    | none =>
      refine ensures_bind (ensures_below MAX_CALLS) fun n hn => ?_
      have hlt : n < MAX_CALLS := hn (by decide)
      simp only [MAX_CALLS] at hlt
      refine ensures_bind (ensures_loop (I := Built sys) (1 + n) (fun j calls _ hj h => ?_) built_nil)
        fun calls h => ensures_pure (h.ok (by omega) (by simp only [MAX_CALLS]; omega))
      refine ensures_bind (ensures_pickDescBiased hs calls) fun desc hd => ?_
      exact ensures_addCall hs h (by omega) (.inl hd)

end

/-! ## The fault-injection prefix -/

mutual

/-- Shift every reference in a value. -/
def shiftProducedCallIdx (shift : U16) : ArgValue → ArgValue
  | .res (.produced callIdx slot) => .res (.produced (callIdx + shift) slot)
  | .struct vals => .struct (shiftProducedAll shift vals)
  | .ptr pointee => .ptr (shiftProducedCallIdx shift pointee)
  | v => v

def shiftProducedAll (shift : U16) : List ArgValue → List ArgValue
  | [] => []
  | v :: vals => shiftProducedCallIdx shift v :: shiftProducedAll shift vals

end

def shiftCall (shift : U16) (c : TypedCall) : TypedCall :=
  { c with args := c.args.map (shiftProducedCallIdx shift) }

/-- Put the two calls that arm fault injection in front of a program. -/
def prependFailInject (prog : Prog) : Rand Prog := do
  let openatDesc ← expect (findDesc "openat$fail_nth")
  let writeDesc ← expect (findDesc "write$fail_nth")
  let openatArgs ← generateArgs openatDesc []
  let openatCall : TypedCall := ⟨openatDesc, openatArgs⟩
  let writeArgs ← generateArgs writeDesc [openatCall]
  let writeArgs ← assign writeArgs 0 (.res (.produced 0 0))
  let calls := [openatCall, ⟨writeDesc, writeArgs⟩] ++ prog.calls.map (shiftCall 2)
  pure ⟨calls.take MAX_CALLS⟩

section
variable {sys : List SyscallDesc} {descs pre : List SyscallDesc}

/-- A shifted call is in order behind a prefix. -/
theorem CallOk.shift {c : TypedCall} (h : CallOk descs c) (hlen : pre.length + descs.length < 2 ^ 16) :
    CallOk (pre ++ descs) (shiftCall (BitVec.ofNat 16 pre.length) c) := by
  refine List.forall₂_map_right_iff.mpr (List.Forall₂.imp (fun ty v hv => ?_) h)
  cases ty with
  | res want =>
    cases v with
    | res r =>
      cases r with
      | seed s => trivial
      | produced callIdx slot =>
        obtain ⟨d, k, hd, hk, hw⟩ := hv
        have hlt : callIdx.toNat < descs.length := (List.getElem?_eq_some_iff.mp hd).1
        have hidx : (callIdx + BitVec.ofNat 16 pre.length).toNat = pre.length + callIdx.toNat := by
          rw [BitVec.toNat_add, BitVec.toNat_ofNat]
          omega
        refine ⟨d, k, ?_, hk, hw⟩
        rw [hidx, List.getElem?_append_right (Nat.le_add_right _ _), Nat.add_sub_cancel_left]
        exact hd
    | _ => exact hv.elim
  | _ => trivial

/-- A program may be put behind another, with its references shifted. -/
theorem Threaded.append_shift {front calls : List TypedCall} (hf : Threaded front)
    (h : Threaded calls) (hlen : front.length + calls.length < 2 ^ 16) :
    Threaded (front ++ calls.map (shiftCall (BitVec.ofNat 16 front.length))) := by
  intro i c hc
  rcases Nat.lt_or_ge i front.length with hi | hi
  · rw [List.getElem?_append_left hi] at hc
    rw [List.take_append_of_le_length (Nat.le_of_lt hi)]
    exact hf i c hc
  · rw [List.getElem?_append_right hi, List.getElem?_map] at hc
    obtain ⟨c₀, hc₀, rfl⟩ := Option.map_eq_some_iff.mp hc
    have hok := h _ c₀ hc₀
    have htake : (front ++ calls.map (shiftCall (BitVec.ofNat 16 front.length))).take i =
        front ++ (calls.take (i - front.length)).map (shiftCall (BitVec.ofNat 16 front.length)) := by
      rw [List.take_append, List.take_of_length_le hi, List.map_take]
    have hdescs : ((front ++ calls.map (shiftCall (BitVec.ofNat 16 front.length))).take i).map
        (·.desc) = front.map (·.desc) ++ (calls.take (i - front.length)).map (·.desc) := by
      rw [htake, List.map_append, List.map_map]
      rfl
    have hshift : CallOk (front.map (·.desc) ++ (calls.take (i - front.length)).map (·.desc))
        (shiftCall (BitVec.ofNat 16 (front.map (·.desc)).length) c₀) := by
      refine hok.shift ?_
      simp only [List.length_map, List.length_take]
      omega
    rw [List.length_map] at hshift
    rw [hdescs]
    exact hshift

/-- So is a program with a failure injected. -/
theorem ensures_prependFailInject (hs : Drawable sys) {p : Prog} (hp : p.Ok sys) :
    Ensures (prependFailInject p) (·.Ok sys) := by
  obtain ⟨openat, hopen, hret⟩ := failOpen_desc
  obtain ⟨write, tys, hwrite, hargs⟩ := failWrite_desc
  refine ensures_bind (ensures_expect hopen) fun d hd => ?_
  subst hd
  refine ensures_bind (ensures_expect hwrite) fun w hw => ?_
  subst hw
  have hd : Described sys d := described_of_findDesc hopen
  have hw : Described sys w := described_of_findDesc hwrite
  refine ensures_bind (ensures_generateArgs (by simp) (hd.choices hs)) fun openArgs hopenArgs => ?_
  have hone : Built sys 1 [⟨d, openArgs⟩] := built_nil.concat hd hopenArgs
  refine ensures_bind (ensures_generateArgs (by simp) (hw.choices hs)) fun writeArgs hwriteArgs => ?_
  have hpos : 0 < writeArgs.length := by
    rw [hwriteArgs.length, hargs]
    exact Nat.succ_pos _
  refine ensures_bind (ensures_assign hpos _) fun args hset => ?_
  subst hset
  have htwo : Built sys 2 [⟨d, openArgs⟩, ⟨w, writeArgs.set 0 (.res (.produced 0 0))⟩] := by
    refine hone.concat hw (hwriteArgs.set fun ty hty => ?_)
    rw [hargs] at hty
    cases hty
    exact ⟨d, .fd, rfl, by rw [hret]; rfl, rfl⟩
  have hbound := hp.bounded
  have hthreaded := htwo.threaded.append_shift ((isWellFormed_iff p).mp hp.wellFormed)
    (by simp only [MAX_CALLS] at hbound; simp; omega)
  refine ensures_pure ⟨?_, ?_, (isWellFormed_iff _).mpr (hthreaded.take MAX_CALLS), ?_⟩
  · simp [MAX_CALLS]
  · simp
  · intro c hc
    rcases List.mem_append.mp (List.mem_of_mem_take hc) with hc | hc
    · exact htwo.descs c hc
    · obtain ⟨c₀, hc₀, rfl⟩ := List.mem_map.mp hc
      exact hp.descs c₀ hc₀

end

end FuzzSoft
