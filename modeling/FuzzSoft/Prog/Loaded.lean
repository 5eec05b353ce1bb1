import FuzzSoft.Prog.Corpus
import FuzzSoft.Prog.Lower
import FuzzSoft.Prog.Threading

/-!
# What a corpus file can inject

The decoder reads values without their types, and only `is_well_formed` looks at what it has read.
So a text can make it panic, and it can inject a program that is too long or has values of the wrong
shape. Both can be seen from the tokens: since the encoding is in pre-order, all that the decoder
knows of its position is how many values are still due, and a type can be checked off the tokens with
a stack of the types that are still due. Whether it accepts a text shows in the tokens as well: only
the first token of each argument can break the threading (`corpus_injects_valid`).
-/

namespace FuzzSoft

open Lib

/-! ## Valid programs -/

mutual

/-- A value has the shape that its type requires. -/
def shaped : ArgType → ArgValue → Bool
  | .const _, .imm _ => true
  | .int _ _, .imm _ => true
  | .flags _ _, .imm _ => true
  | .len _, .imm _ => true
  | .res _, .res _ => true
  | .buffer _, .bytes _ => true
  | .stringConst _, .bytes _ => true
  | .ptr _ inner _, .ptr pointee => shaped inner pointee
  | .ptr _ _ nullable, .imm v => nullable && v = 0
  | .struct fields, .struct vals => shapedAll fields vals
  | _, _ => false

/-- One value of the right shape for each type. -/
def shapedAll : List ArgType → List ArgValue → Bool
  | [], [] => true
  | ty :: tys, v :: vals => shaped ty v && shapedAll tys vals
  | _, _ => false

end

/-- The fixups that the wire form has room for. -/
def Prog.Lowered.wireFixups (l : Prog.Lowered) : List Fixup := l.fixups.take MAX_FIXUPS

/-- A program that may be run: it is short enough, its values have the shapes of their types, and on
the wire every fixup points from a call to an earlier one. -/
structure Prog.Valid (p : Prog) : Prop where
  calls : p.calls.length ≤ MAX_CALLS
  shapes : ∀ c ∈ p.calls, shapedAll c.desc.args c.args = true
  fixups : ∀ base, ∀ f ∈ (p.lower base).wireFixups,
    f.dstCall.toNat < min p.calls.length MAX_CALLS ∧ f.sourceCallIndex.toNat < f.dstCall.toNat

/-- Shaped values are as many as the types. -/
theorem shapedAll_length : ∀ {tys : List ArgType} {vals : List ArgValue},
    shapedAll tys vals = true → tys.length = vals.length
  | [], [], _ => rfl
  | [], _ :: _, h => by cases h
  | _ :: _, [], h => by cases h
  | ty :: tys, v :: vals, h => by
    simp only [shapedAll, Bool.and_eq_true] at h
    rw [List.length_cons, List.length_cons, shapedAll_length h.2]

/-- Two lists of values are shaped one after the other. -/
theorem shapedAll_append {fields tys : List ArgType} {ws vals : List ArgValue}
    (h : fields.length = ws.length) :
    shapedAll (fields ++ tys) (ws ++ vals) = (shapedAll fields ws && shapedAll tys vals) := by
  induction fields generalizing ws with
  | nil =>
    rw [List.length_eq_zero_iff.mp h.symm]
    rfl
  | cons ty fields ih =>
    cases ws with
    | nil => cases h
    | cons w ws =>
      simp only [List.cons_append, shapedAll, ih (Nat.succ.inj h), Bool.and_assoc]

/-! ## Tokens -/

/-- How many values the token of a value announces. -/
def arity : Token → Option Nat
  | 'i' :: rest => (parseUnsigned 64 rest).map fun _ => 0
  | 's' :: rest => (parseSigned 64 rest).map fun _ => 0
  | 'r' :: rest => (decRef rest).map fun _ => 0
  | 'b' :: rest => (decBytes rest).map fun _ => 0
  | 'p' :: _ => some 1
  | 't' :: rest => (parseUnsigned 64 rest).map BitVec.toNat
  | _ => none

/-- A count that no vector can have. -/
def oversized (tok : Token) : Bool := (parseUnsigned 64 tok).any fun n => ¬ Allocatable n.toNat

/-- A token that is fatal where a value is due: its first character is not a single byte, or it
announces more values than a vector can have. -/
def hazardous : Token → Bool
  | [] => true
  | c :: rest => c.utf8Size ≠ 1 || (c = 't' && oversized rest)

/-- The value of a token with the values that it announces. -/
def wrap : Token → List ArgValue → ArgValue
  | 'i' :: rest, _ => .imm ((parseUnsigned 64 rest).getD 0)
  | 's' :: rest, _ => .res (.seed ((parseSigned 64 rest).getD 0))
  | 'r' :: rest, _ => .res ((decRef rest).getD (.seed 0))
  | 'b' :: rest, _ => .bytes ((decBytes rest).getD [])
  | 'p' :: _, vs => .ptr (vs.headD (.imm 0))
  | _, vs => .struct vs

/-- The types of the values that a token of a type must announce, if it can stand for that type. -/
def need : ArgType → Token → Option (List ArgType)
  | .const _, 'i' :: _ => some []
  | .int _ _, 'i' :: _ => some []
  | .flags _ _, 'i' :: _ => some []
  | .len _, 'i' :: _ => some []
  | .res _, 's' :: _ => some []
  | .res _, 'r' :: _ => some []
  | .buffer _, 'b' :: _ => some []
  | .stringConst _, 'b' :: _ => some []
  | .ptr _ inner _, 'p' :: _ => some [inner]
  | .ptr _ _ nullable, 'i' :: rest =>
    if nullable && parseUnsigned 64 rest = some 0 then some [] else none
  | .struct fields, 't' :: rest =>
    if (parseUnsigned 64 rest).map BitVec.toNat = some fields.length then some fields else none
  | _, _ => none

/-- A token reads the values it announces. -/
theorem decArg_step (depth : Nat) (tok : Token) (ts : List Token) :
    decArg (depth + 1) (tok :: ts) =
      if hazardous tok then .panic
      else
        match arity tok with
        | some a => (Parse.times (decArg depth) a >>= fun vs => pure (wrap tok vs)) ts
        | none => .reject := by
  cases tok with
  | nil => rfl
  | cons c rest =>
    by_cases hc : c.utf8Size = 1
    · have hdec : decArg (depth + 1) ((c :: rest) :: ts) = _ :=
        (Parse.bind_accept (Parse.next_cons (c :: rest) ts)).trans
          (Parse.bind_accept (show splitTag (c :: rest) ts = .accept ((c, rest), ts) by
            rw [splitTag, if_pos hc]; rfl))
      rw [hdec]
      dsimp only
      split
      · cases hv : parseUnsigned 64 rest <;> simp [hazardous, arity, wrap, hv, hc] <;> rfl
      · cases hv : parseSigned 64 rest <;> simp [hazardous, arity, wrap, hv, hc] <;> rfl
      · cases hv : decRef rest <;> simp [hazardous, arity, wrap, hv, hc] <;> rfl
      · cases hv : decBytes rest <;> simp [hazardous, arity, wrap, hv, hc] <;> rfl
      · have hone : Parse.times (decArg depth) 1 = decArg depth >>= fun v => pure [v] := rfl
        simp only [arity, hone, bind_assoc]
        rfl
      · cases hv : parseUnsigned 64 rest with
        | none => simp [hazardous, oversized, arity, hv, hc]; rfl
        | some n =>
          by_cases ha : Allocatable n.toNat
          · have hhaz : hazardous ('t' :: rest) = false := by simp [hazardous, oversized, hv, hc, ha]
            simp only [hhaz, arity, hv, Option.map_some]
            exact Parse.bind_accept (withCapacity_accept ha ts)
          · have hhaz : hazardous ('t' :: rest) = true := by simp [hazardous, oversized, hv, ha]
            rw [if_pos hhaz]
            have hcap : withCapacity n.toNat ts = .panic := by
              rw [withCapacity, if_neg ha]
              rfl
            exact (Parse.bind_accept (Parse.lift_some n ts)).trans (Parse.bind_panic hcap)
      next hi hs hr hb hp ht =>
        have hhaz : hazardous (c :: rest) = false := by
          have hne : c ≠ 't' := fun h => ht h
          simp [hazardous, hc, hne]
        have harity : arity (c :: rest) = none := by
          unfold arity
          split <;> simp_all
        rw [hhaz, harity]
        rfl
    · have hdec : decArg (depth + 1) ((c :: rest) :: ts) = .panic :=
        (Parse.bind_accept (Parse.next_cons (c :: rest) ts)).trans
          (Parse.bind_panic (show splitTag (c :: rest) ts = .panic by
            rw [splitTag, if_neg hc]; rfl))
      rw [hdec]
      simp [hazardous, hc]

/-- The shape of the value of a token. -/
theorem shaped_wrap {tok : Token} {vs : List ArgValue} (h : arity tok = some vs.length)
    (ty : ArgType) : shaped ty (wrap tok vs) = (need ty tok).any (shapedAll · vs) := by
  have hleaf : ∀ {α : Type} {o : Option α}, (o.map fun _ => 0) = some vs.length →
      ∃ a, o = some a ∧ vs = [] := by
    intro α o ho
    obtain ⟨a, ha, hlen⟩ := Option.map_eq_some_iff.mp ho
    exact ⟨a, ha, List.length_eq_zero_iff.mp hlen.symm⟩
  unfold arity at h
  split at h
  · obtain ⟨v, hv, rfl⟩ := hleaf h
    cases ty with
    | ptr dir inner nullable =>
      simp only [wrap, shaped, need, hv, Option.getD_some, Option.some.injEq]
      cases nullable <;> by_cases hz : v = 0#64 <;> simp [hz, shapedAll]
    | _ => simp [wrap, shaped, need, shapedAll]
  · obtain ⟨v, hv, rfl⟩ := hleaf h
    cases ty <;> simp [wrap, shaped, need, shapedAll]
  · obtain ⟨v, hv, rfl⟩ := hleaf h
    cases ty <;> simp [wrap, shaped, need, shapedAll]
  · obtain ⟨v, hv, rfl⟩ := hleaf h
    cases ty <;> simp [wrap, shaped, need, shapedAll]
  · obtain ⟨w, rfl⟩ := List.length_eq_one_iff.mp (Option.some.inj h).symm
    cases ty <;> simp [wrap, shaped, need, shapedAll]
  · cases ty with
    | struct fields =>
      rw [show wrap ('t' :: _) vs = .struct vs from rfl]
      simp only [shaped, need, h, Option.some.injEq]
      split
      · rfl
      next hne =>
        refine Bool.eq_false_iff.mpr fun hs => hne ?_
        exact (shapedAll_length hs).symm
    | _ => rfl
  · cases h

/-- A token that can stand for a type announces as many values as the type needs. -/
theorem length_need {ty : ArgType} {tok : Token} {more : List ArgType} {a : Nat}
    (h : need ty tok = some more) (ha : arity tok = some a) : more.length = a := by
  have hleaf : ∀ {α : Type} {o : Option α}, (o.map fun _ => 0) = some a → ([] : List ArgType).length = a := by
    intro α o ho
    obtain ⟨x, -, hx⟩ := Option.map_eq_some_iff.mp ho
    exact hx
  unfold need at h
  split at h
  iterate 8
    · cases h
      exact hleaf ha
  · cases h
    exact Option.some.inj ha
  · split at h
    · cases h
      exact hleaf ha
    · cases h
  · split at h
    next hlen =>
      cases h
      exact Option.some.inj (hlen.symm.trans ha)
    next => cases h
  · cases h

/-! ## Reading without values -/

/-- Read the tokens of so many values. -/
def skipValues : Nat → List Token → Outcome (List Token)
  | 0, ts => .accept ts
  | _ + 1, [] => .reject
  | n + 1, tok :: ts =>
    if hazardous tok then .panic
    else
      match arity tok with
      | some a => skipValues (a + n) ts
      | none => .reject

/-- Check the tokens of values off against their types. -/
def spells : List ArgType → List Token → Option (List Token)
  | [], ts => some ts
  | _ :: _, [] => none
  | ty :: tys, tok :: ts =>
    match need ty tok with
    | some more => spells (more ++ tys) ts
    | none => none

/-- The end of a parse without its value. -/
def ending {α : Type} : Outcome (α × List Token) → Outcome (List Token)
  | .accept (_, ts) => .accept ts
  | .reject => .reject
  | .panic => .panic

/-- A value computed at the end does not change where the parse ends. -/
theorem ending_bind_pure {α β : Type} (x : Parse Token α) (f : α → β) (ts : List Token) :
    ending ((x >>= fun a => pure (f a)) ts) = ending (x ts) := by
  rcases hx : x ts with _ | _ | ⟨a, ts'⟩
  · rw [Parse.bind_panic hx]
    rfl
  · rw [Parse.bind_reject hx]
    rfl
  · rw [Parse.bind_accept hx]
    rfl

/-- More depth than tokens changes nothing for a list of values. -/
theorem times_decArg_depth {depth : Nat} {ts : List Token} (h : ts.length ≤ depth) (n : Nat) :
    Parse.times (decArg (depth + 1)) n ts = Parse.times (decArg depth) n ts := by
  refine Parse.times_congr (fun ts hts => decArg_depth depth ts hts) ?_ n h
  exact fun _ _ _ hx => Nat.le_of_lt (decArg_shorter _ _ _ _ hx)

/-- One token of a list of values: the values it announces come first among the rest. -/
theorem times_decArg_cons {depth : Nat} {tok : Token} {ts : List Token} (h : ts.length ≤ depth)
    (n : Nat) :
    Parse.times (decArg (depth + 1)) (n + 1) (tok :: ts) =
      if hazardous tok then .panic
      else
        match arity tok with
        | some a => (Parse.times (decArg depth) (a + n) >>= fun vs =>
            pure (wrap tok (vs.take a) :: vs.drop a)) ts
        | none => .reject := by
  have hstep := decArg_step depth tok ts
  rw [Parse.times]
  split at hstep
  next hhaz =>
    rw [if_pos hhaz]
    exact Parse.bind_panic hstep
  next hhaz =>
    rw [if_neg hhaz]
    split at hstep
    next a ha =>
      rw [Parse.times_add]
      simp only [bind_assoc, pure_bind]
      rcases hx : Parse.times (decArg depth) a ts with _ | _ | ⟨vs, ts'⟩
      · rw [Parse.bind_panic hx, Parse.bind_panic (hstep.trans (Parse.bind_panic hx))]
      · rw [Parse.bind_reject hx, Parse.bind_reject (hstep.trans (Parse.bind_reject hx))]
      · rw [Parse.bind_accept hx, Parse.bind_accept (hstep.trans (Parse.bind_accept hx))]
        have hlen : vs.length = a :=
          (Parse.times_forall (P := fun _ => True) (fun _ _ _ _ => trivial) hx).1
        have hle : ts'.length ≤ depth := Nat.le_trans
          (Parse.times_length_le (fun _ _ _ hy => Nat.le_of_lt (decArg_shorter _ _ _ _ hy)) hx) h
        refine (Parse.bind_congr_left (times_decArg_depth hle n)).trans ?_
        refine Parse.bind_congr fun us ts'' _ => ?_
        rw [List.take_left' hlen, List.drop_left' hlen]
        rfl
    next ha => exact Parse.bind_reject hstep

/-- The decoder ends where the tokens of the values end. -/
theorem ending_times_decArg {ts : List Token} : ∀ {depth : Nat}, ts.length ≤ depth → ∀ n,
    ending (Parse.times (decArg depth) n ts) = skipValues n ts := by
  induction ts with
  | nil =>
    intro depth _ n
    cases n with
    | zero => rfl
    | succ n => cases depth <;> rfl
  | cons tok ts ih =>
    intro depth hd n
    cases n with
    | zero => rfl
    | succ n =>
      obtain ⟨depth, rfl⟩ : ∃ d, depth = d + 1 := ⟨depth - 1, by simp at hd; omega⟩
      have hts : ts.length ≤ depth := Nat.le_of_succ_le_succ hd
      rw [times_decArg_cons hts, skipValues]
      split
      · rfl
      · split
        next a ha => rw [ending_bind_pure, ih hts]
        next => rfl

/-- The types are checked off exactly when the decoded values have their shapes. -/
theorem spells_eq {ts : List Token} : ∀ {depth : Nat}, ts.length ≤ depth →
    ∀ {tys : List ArgType} {vals : List ArgValue} {rest : List Token},
    Parse.times (decArg depth) tys.length ts = .accept (vals, rest) →
    spells tys ts = if shapedAll tys vals then some rest else none := by
  induction ts with
  | nil =>
    intro depth _ tys vals rest h
    cases tys with
    | nil =>
      cases h
      rfl
    | cons ty tys =>
      have : ending (Parse.times (decArg depth) (tys.length + 1) []) = .reject :=
        ending_times_decArg (Nat.zero_le _) _
      rw [show Parse.times (decArg depth) (tys.length + 1) [] = _ from h] at this
      cases this
  | cons tok ts ih =>
    intro depth hd tys vals rest h
    cases tys with
    | nil =>
      cases h
      rfl
    | cons ty tys =>
      obtain ⟨depth, rfl⟩ : ∃ d, depth = d + 1 := ⟨depth - 1, by simp at hd; omega⟩
      have hts : ts.length ≤ depth := Nat.le_of_succ_le_succ hd
      rw [List.length_cons, times_decArg_cons hts] at h
      split at h
      · cases h
      split at h
      next a ha =>
        obtain ⟨vs, ts', hvs, h⟩ := Parse.bind_eq_accept h
        cases h
        have hlen : vs.length = a + tys.length :=
          (Parse.times_forall (P := fun _ => True) (fun _ _ _ _ => trivial) hvs).1
        have htake : (vs.take a).length = a := by
          rw [List.length_take, hlen]
          omega
        rw [spells, shapedAll, shaped_wrap (by rw [ha, htake]) ty]
        cases hneed : need ty tok with
        | none => rfl
        | some more =>
          have hmore := length_need hneed ha
          have hsum : a + tys.length = (more ++ tys).length := by rw [List.length_append, hmore]
          rw [hsum] at hvs
          show spells (more ++ tys) ts = _
          rw [ih hts hvs, Option.any_some, ← shapedAll_append (hmore.trans htake.symm),
            List.take_append_drop]
      next => cases h

/-! ## The reader of a text -/

/-- What is due next in a text. After it: how many values of the call, how many calls. -/
inductive Due where
  | header
  | count
  | call (calls : Nat)
  | name (calls : Nat)
  | nargs (calls : Nat)
  | value (values calls : Nat)

/-- So many values of a call are due, or the next call. -/
def Due.values (n calls : Nat) : Due :=
  match n with
  | 0 => .call calls
  | n + 1 => .value n calls

section
variable (sys : List SyscallDesc)

/-- What is due after a token, if it is what was due. After the last call nothing is. -/
def Due.advance : Due → Token → Option Due
  | .header, tok => if tok = HEADER then some .count else none
  | .count, tok => (parseUnsigned 64 tok).map fun n => .call n.toNat
  | .call 0, _ => none
  | .call (k + 1), tok => if tok = ['C', 'A', 'L', 'L'] then some (.name k) else none
  | .name k, tok => (sys.find? fun d => d.name.toList = tok).map fun _ => .nargs k
  | .nargs k, tok => (parseUnsigned 64 tok).map fun n => .values n.toNat k
  | .value n k, tok => (arity tok).map fun a => .values (a + n) k

/-- A token that is fatal where it stands. -/
def Due.fatal : Due → Token → Bool
  | .count, tok => oversized tok
  | .nargs _, tok => oversized tok
  | .value _ _, tok => hazardous tok
  | _, _ => false

/-- Reading the text meets a fatal token. -/
def meetsHazard : Due → List Token → Bool
  | _, [] => false
  | d, tok :: ts => d.fatal tok || (d.advance sys tok).any fun d' => meetsHazard d' ts

/-- How the rest of the text decides once a part of it was read. -/
def meetsAfter (d : Due) : Outcome (List Token) → Bool
  | .accept ts => meetsHazard sys d ts
  | .reject => false
  | .panic => true

/-- Reading the values of a call, then the next call. -/
theorem meetsHazard_values (n k : Nat) (ts : List Token) :
    meetsHazard sys (.values n k) ts = meetsAfter sys (.call k) (skipValues n ts) := by
  induction ts generalizing n with
  | nil => cases n <;> rfl
  | cons tok ts ih =>
    cases n with
    | zero => rfl
    | succ n =>
      rw [Due.values, meetsHazard, skipValues, Due.fatal, Due.advance]
      cases hazardous tok with
      | true => rfl
      | false =>
        cases arity tok with
        | none => rfl
        | some a => exact ih (a + n)

/-- Nothing is looked at after the last call. -/
theorem meetsHazard_done (ts : List Token) : meetsHazard sys (.call 0) ts = false := by
  cases ts <;> rfl

/-- Reading the header. -/
theorem meetsHazard_header (tok : Token) (ts : List Token) :
    meetsHazard sys .header (tok :: ts) = (tok = HEADER && meetsHazard sys .count ts) := by
  simp only [meetsHazard, Due.fatal, Due.advance, Bool.false_or]
  by_cases h : tok = HEADER <;> simp [h]

/-- Reading the number of calls. -/
theorem meetsHazard_count (tok : Token) (ts : List Token) :
    meetsHazard sys .count (tok :: ts) =
      (oversized tok || (parseUnsigned 64 tok).any fun n => meetsHazard sys (.call n.toNat) ts) := by
  simp only [meetsHazard, Due.fatal, Due.advance, Option.any_map]

/-- Reading the start of a call. -/
theorem meetsHazard_call (k : Nat) (tok : Token) (ts : List Token) :
    meetsHazard sys (.call (k + 1)) (tok :: ts) =
      (tok = ['C', 'A', 'L', 'L'] && meetsHazard sys (.name k) ts) := by
  simp only [meetsHazard, Due.fatal, Due.advance, Bool.false_or]
  by_cases h : tok = ['C', 'A', 'L', 'L'] <;> simp [h]

/-- Reading the name of a call. -/
theorem meetsHazard_name (k : Nat) (tok : Token) (ts : List Token) :
    meetsHazard sys (.name k) (tok :: ts) =
      (sys.find? fun d => d.name.toList = tok).any fun _ => meetsHazard sys (.nargs k) ts := by
  simp only [meetsHazard, Due.fatal, Due.advance, Bool.false_or, Option.any_map]

/-- Reading the number of its arguments. -/
theorem meetsHazard_nargs (k : Nat) (tok : Token) (ts : List Token) :
    meetsHazard sys (.nargs k) (tok :: ts) =
      (oversized tok || (parseUnsigned 64 tok).any fun n =>
        meetsHazard sys (.values n.toNat k) ts) := by
  simp only [meetsHazard, Due.fatal, Due.advance, Option.any_map]

end

section
variable {sys : List SyscallDesc} {depth : Nat}

/-- A count that a vector can have is not fatal. -/
theorem oversized_of_some {tok : Token} {n : U64} (h : parseUnsigned 64 tok = some n) :
    oversized tok = decide (¬ Allocatable n.toNat) := by
  rw [oversized, h, Option.any_some]

/-- The parse panics. -/
def panics {α : Type} : Outcome α → Bool
  | .panic => true
  | _ => false

/-- The reader follows the decoder of a call. -/
theorem panics_decCall {ts : List Token} (hd : ts.length ≤ depth) (k : Nat) :
    meetsHazard sys (.call (k + 1)) ts =
      meetsAfter sys (.call k) (ending (decCall sys depth ts)) := by
  cases ts with
  | nil => rfl
  | cons kw ts =>
    rw [meetsHazard_call, decCall, Parse.bind_accept (Parse.next_cons kw ts)]
    by_cases hkw : kw = ['C', 'A', 'L', 'L']
    · rw [if_neg (not_not.mpr hkw), decide_eq_true hkw, Bool.true_and]
      cases ts with
      | nil => rfl
      | cons name ts =>
        rw [meetsHazard_name, Parse.bind_accept (Parse.next_cons name ts)]
        cases hf : sys.find? fun d => d.name.toList = name with
        | none => rfl
        | some desc =>
          rw [Option.any_some, Parse.bind_accept (Parse.lift_some desc ts)]
          cases ts with
          | nil => rfl
          | cons tok ts =>
            rw [meetsHazard_nargs, Parse.bind_accept (Parse.next_cons tok ts)]
            cases hn : parseUnsigned 64 tok with
            | none =>
              rw [oversized, hn]
              rfl
            | some n =>
              have hts : ts.length ≤ depth := by
                simp only [List.length_cons] at hd
                omega
              rw [oversized_of_some hn, Option.any_some, Parse.bind_accept (Parse.lift_some n ts)]
              by_cases ha : Allocatable n.toNat
              · rw [Parse.bind_accept (withCapacity_accept ha ts), ending_bind_pure,
                  ending_times_decArg hts, meetsHazard_values]
                simp [ha]
              · have hcap : withCapacity n.toNat ts = .panic := by
                  rw [withCapacity, if_neg ha]
                  rfl
                rw [Parse.bind_panic hcap, decide_eq_true ha]
                rfl
    · rw [if_pos hkw, decide_eq_false hkw]
      rfl

/-- A call leaves no more tokens than it finds. -/
theorem decCall_length_le {ts ts' : List Token} {c : TypedCall}
    (h : decCall sys depth ts = .accept (c, ts')) : ts'.length ≤ ts.length := by
  obtain ⟨kw, t₁, h₁, h⟩ := Parse.bind_eq_accept h
  split at h
  · cases h
  obtain ⟨name, t₂, h₂, h⟩ := Parse.bind_eq_accept h
  obtain ⟨desc, t₃, h₃, h⟩ := Parse.bind_eq_accept h
  obtain ⟨tok, t₄, h₄, h⟩ := Parse.bind_eq_accept h
  obtain ⟨n, t₅, h₅, h⟩ := Parse.bind_eq_accept h
  obtain ⟨_, t₆, h₆, h⟩ := Parse.bind_eq_accept h
  obtain ⟨args, t₇, h₇, h⟩ := Parse.bind_eq_accept h
  cases h
  have hargs := Parse.times_length_le
    (fun _ _ _ hx => Nat.le_of_lt (decArg_shorter depth _ _ _ hx)) h₇
  rw [Parse.next_eq_accept h₁, Parse.next_eq_accept h₂, ← (Parse.lift_eq_accept h₃).2,
    Parse.next_eq_accept h₄, ← (Parse.lift_eq_accept h₅).2, ← (withCapacity_eq_accept h₆).2]
  simp only [List.length_cons]
  omega

/-- The reader follows the decoder of the calls. -/
theorem panics_times_decCall {ts : List Token} (hd : ts.length ≤ depth) (k : Nat) :
    meetsHazard sys (.call k) ts = panics (Parse.times (decCall sys depth) k ts) := by
  induction k generalizing ts with
  | zero => exact meetsHazard_done sys ts
  | succ k ih =>
    rw [panics_decCall hd, Parse.times]
    rcases hc : decCall sys depth ts with _ | _ | ⟨c, ts'⟩
    · rw [Parse.bind_panic hc]
      rfl
    · rw [Parse.bind_reject hc]
      rfl
    · rw [Parse.bind_accept hc]
      have hts' := Nat.le_trans (decCall_length_le hc) hd
      show meetsHazard sys (.call k) ts' = _
      rw [ih hts']
      rcases hk : Parse.times (decCall sys depth) k ts' with _ | _ | ⟨cs, ts''⟩
      · rw [Parse.bind_panic hk]
      · rw [Parse.bind_reject hk]
      · rw [Parse.bind_accept hk]
        rfl

/-- The reader follows the decoder of a text. -/
theorem panics_decProg {ts : List Token} (hd : ts.length ≤ depth) :
    meetsHazard sys .header ts = panics (decProg sys depth ts) := by
  cases ts with
  | nil => rfl
  | cons header ts =>
    rw [meetsHazard_header, decProg, Parse.bind_accept (Parse.next_cons header ts)]
    by_cases hh : header = HEADER
    · rw [if_neg (not_not.mpr hh), decide_eq_true hh, Bool.true_and]
      cases ts with
      | nil => rfl
      | cons tok ts =>
        rw [meetsHazard_count, Parse.bind_accept (Parse.next_cons tok ts)]
        cases hn : parseUnsigned 64 tok with
        | none =>
          rw [oversized, hn]
          rfl
        | some n =>
          have hts : ts.length ≤ depth := by
            simp only [List.length_cons] at hd
            omega
          rw [oversized_of_some hn, Option.any_some, Parse.bind_accept (Parse.lift_some n ts)]
          by_cases ha : Allocatable n.toNat
          · rw [Parse.bind_accept (withCapacity_accept ha ts), panics_times_decCall hts,
              decide_eq_false (not_not.mpr ha), Bool.false_or]
            rcases hk : Parse.times (decCall sys depth) n.toNat ts with _ | _ | ⟨cs, ts'⟩
            · rw [Parse.bind_panic hk]
              rfl
            · rw [Parse.bind_reject hk]
              rfl
            · rw [Parse.bind_accept hk]
              rfl
          · have hcap : withCapacity n.toNat ts = .panic := by
              rw [withCapacity, if_neg ha]
              rfl
            rw [Parse.bind_panic hcap, decide_eq_true ha]
            rfl
    · rw [if_pos hh, decide_eq_false hh]
      rfl

/-- The decoder panics exactly when reading the text meets a fatal token. -/
theorem deserializeProg_eq_panic {t : List Char} :
    deserializeProg sys t = .panic ↔ meetsHazard sys .header (splitWhitespace t) = true := by
  rw [panics_decProg (Nat.le_refl _), deserializeProg]
  rcases decProg sys (splitWhitespace t).length (splitWhitespace t) with _ | _ | ⟨p, ts⟩
  · simp [panics]
  · simp [panics]
  · simp only [panics]
    split <;> simp

/-! ## Typed texts -/

end

section
variable (sys : List SyscallDesc)

/-- The tokens of so many calls spell values of the types of their arguments. -/
def spellsCalls : Nat → List Token → Bool
  | 0, _ => true
  | k + 1, _ :: name :: _ :: ts =>
    match sys.find? fun d => d.name.toList = name with
    | some desc =>
      match spells desc.args ts with
      | some rest => spellsCalls k rest
      | none => false
    | none => false
  | _, _ => false

/-- A text of at most `MAX_CALLS` calls whose arguments spell values of their types. -/
def typedText (t : List Char) : Bool :=
  match splitWhitespace t with
  | _ :: tok :: ts =>
    (parseUnsigned 64 tok).any fun n => n.toNat ≤ MAX_CALLS && spellsCalls sys n.toNat ts
  | _ => false

end

section
variable {sys : List SyscallDesc} {depth : Nat}

/-- What a decoded call has read. -/
theorem decCall_tokens {ts ts' : List Token} {c : TypedCall} (hd : ts.length ≤ depth)
    (h : decCall sys depth ts = .accept (c, ts')) (hargs : c.args.length = c.desc.args.length) :
    ∃ kw name tok rest, ts = kw :: name :: tok :: rest ∧
      (sys.find? fun d => d.name.toList = name) = some c.desc ∧
      spells c.desc.args rest = if shapedAll c.desc.args c.args then some ts' else none := by
  obtain ⟨kw, t₁, h₁, h⟩ := Parse.bind_eq_accept h
  split at h
  · cases h
  obtain ⟨name, t₂, h₂, h⟩ := Parse.bind_eq_accept h
  obtain ⟨desc, t₃, h₃, h⟩ := Parse.bind_eq_accept h
  obtain ⟨tok, t₄, h₄, h⟩ := Parse.bind_eq_accept h
  obtain ⟨n, t₅, h₅, h⟩ := Parse.bind_eq_accept h
  obtain ⟨_, t₆, h₆, h⟩ := Parse.bind_eq_accept h
  obtain ⟨args, t₇, h₇, h⟩ := Parse.bind_eq_accept h
  cases h
  obtain ⟨hdesc, rfl⟩ := Parse.lift_eq_accept h₃
  obtain ⟨-, rfl⟩ := Parse.lift_eq_accept h₅
  obtain ⟨-, rfl⟩ := withCapacity_eq_accept h₆
  have hts : ts = kw :: name :: tok :: t₆ := by
    rw [Parse.next_eq_accept h₁, Parse.next_eq_accept h₂, Parse.next_eq_accept h₄]
  have hlen : args.length = n.toNat :=
    (Parse.times_forall (P := fun _ => True) (fun _ _ _ _ => trivial) h₇).1
  refine ⟨kw, name, tok, t₆, hts, hdesc, @spells_eq t₆ depth ?_ _ _ _ ?_⟩
  · rw [hts] at hd
    simp only [List.length_cons] at hd
    omega
  · rw [← hargs, hlen]
    exact h₇

/-- The calls of a text spell their types exactly when the decoded values have their shapes. -/
theorem spellsCalls_iff {k : Nat} : ∀ {ts ts' : List Token} {cs : List TypedCall},
    ts.length ≤ depth → Parse.times (decCall sys depth) k ts = .accept (cs, ts') →
    (∀ c ∈ cs, c.args.length = c.desc.args.length) →
    (spellsCalls sys k ts = true ↔ ∀ c ∈ cs, shapedAll c.desc.args c.args = true) := by
  induction k with
  | zero =>
    intro ts ts' cs _ h _
    cases h
    simp [spellsCalls]
  | succ k ih =>
    intro ts ts' cs hd h hargs
    obtain ⟨c, t₁, hc, h⟩ := Parse.bind_eq_accept h
    obtain ⟨cs', t₂, hcs, h⟩ := Parse.bind_eq_accept h
    cases h
    have hle := Nat.le_trans (decCall_length_le hc) hd
    have hrest := ih hle hcs fun c hc => hargs c (List.mem_cons_of_mem _ hc)
    obtain ⟨kw, name, tok, rest, rfl, hfind, hspells⟩ :=
      decCall_tokens hd hc (hargs c List.mem_cons_self)
    simp only [spellsCalls, hfind, hspells, List.forall_mem_cons]
    cases shapedAll c.desc.args c.args with
    | true => simpa using hrest
    | false => simp

/-- An accepted text is typed exactly when its program is short enough and has the right shapes. -/
theorem typedText_iff {t : List Char} {p : Prog} (h : deserializeProg sys t = .accept p) :
    typedText sys t = true ↔
      p.calls.length ≤ MAX_CALLS ∧ ∀ c ∈ p.calls, shapedAll c.desc.args c.args = true := by
  obtain ⟨hwf, ts, h⟩ := deserializeProg_eq_accept h
  obtain ⟨header, t₁, h₁, h⟩ := Parse.bind_eq_accept h
  split at h
  · cases h
  obtain ⟨tok, t₂, h₂, h⟩ := Parse.bind_eq_accept h
  obtain ⟨n, t₃, h₃, h⟩ := Parse.bind_eq_accept h
  obtain ⟨_, t₄, h₄, h⟩ := Parse.bind_eq_accept h
  obtain ⟨calls, t₅, h₅, h⟩ := Parse.bind_eq_accept h
  cases h
  obtain ⟨hn, rfl⟩ := Parse.lift_eq_accept h₃
  obtain ⟨-, rfl⟩ := withCapacity_eq_accept h₄
  have hts : splitWhitespace t = header :: tok :: t₄ := by
    rw [Parse.next_eq_accept h₁, Parse.next_eq_accept h₂]
  have hlen : calls.length = n.toNat :=
    (Parse.times_forall (P := fun _ => True) (fun _ _ _ _ => trivial) h₅).1
  have hargs : ∀ c ∈ calls, c.args.length = c.desc.args.length := by
    intro c hc
    obtain ⟨i, hi, rfl⟩ := List.mem_iff_getElem.mp hc
    have hmem : (calls[i], i) ∈ calls.zipIdx := List.mk_mem_zipIdx_iff_getElem?.mpr
      (List.getElem?_eq_getElem hi)
    have hcall := List.all_eq_true.mp hwf _ hmem
    simp only [callThreaded, Bool.and_eq_true, beq_iff_eq] at hcall
    exact hcall.1
  have hdepth : t₄.length ≤ (splitWhitespace t).length := by
    rw [hts]
    simp only [List.length_cons]
    omega
  simp only [typedText, hts, hn, Option.any_some, Bool.and_eq_true, decide_eq_true_eq, hlen,
    spellsCalls_iff hdepth h₅ hargs]

end

/-! ## Fixups -/

/-- A fixup points from one of `n` calls to an earlier one. -/
def Fixup.Backward (n : Nat) (f : Fixup) : Prop :=
  f.dstCall.toNat < n ∧ f.sourceCallIndex.toNat < f.dstCall.toNat

section
variable {p : Prog} {base : U32} {n i : Nat} {calls : List TypedCall}

/-- Lowering a threaded argument adds fixups that point backward. -/
theorem lowerArg_backward (hi : i < n) (hn : n ≤ 256) {j : Nat} {produces : Produces} {ty : ArgType}
    {v : ArgValue} (hv : argThreaded calls i ty v = true) {l : Lowering}
    (h : ∀ f ∈ l.fixups, f.Backward n) :
    ∀ f ∈ (lowerArg p base i j produces ty v l).2.fixups, f.Backward n := by
  unfold lowerArg
  split
  · exact h
  next want _ k slot =>
    intro f hf
    rcases List.mem_append.mp hf with hf | hf
    · exact h f hf
    · rw [List.mem_singleton.mp hf]
      have hdst : (BitVec.ofNat 8 i : U8).toNat = i := by
        rw [BitVec.toNat_ofNat]
        exact Nat.mod_eq_of_lt (by omega)
      have hlt : k.toNat < i := by
        simp only [argThreaded, ResRef.threaded] at hv
        split at hv
        · cases hv
        · omega
      exact ⟨by simp only [lowerRef, hdst]; exact hi, by simp only [lowerRef, hdst]; exact hlt⟩
  · exact h
  · exact h
  · exact h

/-- So does lowering the arguments of a call. -/
theorem lowerArgs_backward (hi : i < n) (hn : n ≤ 256) {produces : Produces} {tys : List ArgType}
    {vals : List ArgValue} (hv : (tys.zip vals).all (fun a => argThreaded calls i a.1 a.2) = true)
    (j : Nat) {l : Lowering} (h : ∀ f ∈ l.fixups, f.Backward n) :
    ∀ f ∈ (lowerArgs p base i produces j tys vals l).2.fixups, f.Backward n := by
  induction tys generalizing vals j l with
  | nil => cases vals <;> exact h
  | cons ty tys ih =>
    cases vals with
    | nil => exact h
    | cons v vals =>
      simp only [List.zip_cons_cons, List.all_cons, Bool.and_eq_true] at hv
      exact ih hv.2 (j + 1) (lowerArg_backward hi hn hv.1 h)

/-- So does lowering all calls. -/
theorem lowerCalls_backward (hn : n ≤ 256) {cs : List TypedCall} {i : Nat} (hi : i + cs.length ≤ n)
    (hv : (cs.zipIdx i).all (fun c => callThreaded calls c.2 c.1) = true) {l : Lowering}
    (h : ∀ f ∈ l.fixups, f.Backward n) :
    ∀ f ∈ (lowerCalls p base i cs l).2.fixups, f.Backward n := by
  induction cs generalizing i l with
  | nil => exact h
  | cons c cs ih =>
    simp only [List.length_cons] at hi
    simp only [List.zipIdx_cons, List.all_cons, Bool.and_eq_true, callThreaded] at hv
    exact ih (by omega) hv.2 (lowerArgs_backward (by omega) hn hv.1.2 0 h)

/-- A well-formed program that is short enough lowers to fixups that point backward. -/
theorem lower_backward (hwf : p.isWellFormed = true) (hlen : p.calls.length ≤ MAX_CALLS)
    (base : U32) : ∀ f ∈ (p.lower base).fixups, f.Backward p.calls.length := by
  have hmax : MAX_CALLS ≤ 256 := by decide
  exact lowerCalls_backward (Nat.le_trans hlen hmax) (Nat.le_of_eq (Nat.zero_add _)) hwf
    fun f hf => absurd hf List.not_mem_nil

end

/-! ## Linked texts -/

section
variable (sys : List SyscallDesc)

/-- A token that may start an argument of the type, after calls with these descriptions: where a
resource is due it is one, and threaded. -/
def links (ds : List SyscallDesc) (ty : ArgType) (tok : Token) : Bool :=
  argThreaded (ds.map fun d => ⟨d, []⟩) ds.length ty (wrap tok [])

/-- The tokens of one argument of each type, and what follows them. -/
def linksArgs (ds : List SyscallDesc) : List ArgType → List Token → Option (List Token)
  | [], ts => some ts
  | _ :: _, [] => none
  | ty :: tys, tok :: ts =>
    if links ds ty tok then
      match skipValues 1 (tok :: ts) with
      | .accept ts' => linksArgs ds tys ts'
      | _ => none
    else none

/-- The tokens of a call with all its arguments: its description, and what follows them. -/
def linksCall (ds : List SyscallDesc) : List Token → Option (SyscallDesc × List Token)
  | kw :: name :: tok :: ts =>
    if kw = ['C', 'A', 'L', 'L'] then
      (sys.find? fun d => d.name.toList = name).bind fun desc =>
        if (parseUnsigned 64 tok).map BitVec.toNat = some desc.args.length then
          (linksArgs ds desc.args ts).map fun rest => (desc, rest)
        else none
    else none
  | _ => none

/-- The tokens of so many calls, each threaded to the ones before it. -/
def linksCalls : List SyscallDesc → Nat → List Token → Bool
  | _, 0, _ => true
  | ds, k + 1, ts =>
    match linksCall sys ds ts with
    | some (desc, rest) => linksCalls (ds ++ [desc]) k rest
    | none => false

/-- A text whose tokens are a header, a count and so many threaded calls. -/
def linkedText (t : List Char) : Bool :=
  match splitWhitespace t with
  | header :: tok :: ts =>
    header = HEADER && (parseUnsigned 64 tok).any fun n => linksCalls sys [] n.toNat ts
  | _ => false

end

section
variable {sys ds : List SyscallDesc} {depth : Nat}

/-- What a token says of a reference does not depend on the values it announces. -/
theorem links_iff (ty : ArgType) (tok : Token) (vs : List ArgValue) :
    links ds ty tok = true ↔ ArgOk ds ty (wrap tok vs) := by
  have h := @argThreaded_iff (ds.map fun d => ⟨d, []⟩) ds.length (by simp) ty (wrap tok [])
  have hds : ((ds.map fun d => (⟨d, []⟩ : TypedCall)).take ds.length).map (·.desc) = ds := by
    rw [← List.map_take, List.take_length, List.map_map]
    exact List.map_id ds
  rw [hds] at h
  refine h.trans ?_
  cases ty with
  | res want =>
    unfold wrap
    split <;> rfl
  | _ => rfl

/-- A value that is read is that of its first token. -/
theorem decArg_wrap {tok : Token} {ts ts' : List Token} {v : ArgValue}
    (h : decArg (depth + 1) (tok :: ts) = .accept (v, ts')) : ∃ vs, v = wrap tok vs := by
  rw [decArg_step] at h
  split at h
  · cases h
  split at h
  · obtain ⟨vs, _, -, h⟩ := Parse.bind_eq_accept h
    cases h
    exact ⟨vs, rfl⟩
  · cases h

/-- The reader and the decoder agree on the arguments of a call. -/
theorem linksArgs_eq_some {tys : List ArgType} : ∀ {ts rest : List Token}, ts.length ≤ depth →
    (linksArgs ds tys ts = some rest ↔ ∃ vals,
      Parse.times (decArg depth) tys.length ts = .accept (vals, rest) ∧
        List.Forall₂ (ArgOk ds) tys vals) := by
  induction tys with
  | nil =>
    intro ts rest _
    constructor
    · rintro ⟨⟩
      exact ⟨[], rfl, .nil⟩
    · rintro ⟨vals, h, -⟩
      cases h
      rfl
  | cons ty tys ih =>
    intro ts rest hd
    cases ts with
    | nil =>
      have hnone := @ending_times_decArg [] depth (Nat.zero_le _) (tys.length + 1)
      refine ⟨nofun, ?_⟩
      rintro ⟨vals, h, -⟩
      rw [show Parse.times (decArg depth) (tys.length + 1) [] = _ from h] at hnone
      cases hnone
    | cons tok ts =>
      obtain ⟨depth, rfl⟩ : ∃ d, depth = d + 1 := ⟨depth - 1, by simp at hd; omega⟩
      -- the first value ends where its tokens do
      have hend : ending (decArg (depth + 1) (tok :: ts)) = skipValues 1 (tok :: ts) :=
        (ending_bind_pure _ (fun v => [v]) _).symm.trans (ending_times_decArg hd 1)
      rw [linksArgs, List.length_cons]
      constructor
      · intro h
        split at h
        next hl =>
          split at h
          next ts' hs =>
            rw [hs] at hend
            rcases hx : decArg (depth + 1) (tok :: ts) with _ | _ | ⟨v, t⟩ <;> rw [hx] at hend <;>
              cases hend
            have hle : ts'.length ≤ depth + 1 :=
              Nat.le_trans (Nat.le_of_lt (decArg_shorter _ _ _ _ hx)) hd
            obtain ⟨vals, hvals, hok⟩ := (ih hle).mp h
            obtain ⟨vs, rfl⟩ := decArg_wrap hx
            refine ⟨wrap tok vs :: vals, ?_, .cons ((links_iff ty tok vs).mp hl) hok⟩
            rw [Parse.times, Parse.bind_accept hx, Parse.bind_accept hvals]
            rfl
          next => cases h
        next => cases h
      · rintro ⟨vals, h, hok⟩
        obtain ⟨v, ts', hx, h⟩ := Parse.bind_eq_accept h
        obtain ⟨vals', ts'', hvals, h⟩ := Parse.bind_eq_accept h
        cases h
        obtain ⟨vs, rfl⟩ := decArg_wrap hx
        have hle : ts'.length ≤ depth + 1 :=
          Nat.le_trans (Nat.le_of_lt (decArg_shorter _ _ _ _ hx)) hd
        cases hok with
        | cons hv hok =>
          rw [hx] at hend
          rw [if_pos ((links_iff ty tok vs).mpr hv), ← hend]
          exact (ih hle).mpr ⟨vals', hvals, hok⟩

/-- The reader and the decoder agree on a call whose argument count is not fatal. -/
theorem linksCall_eq_some {ts rest : List Token} {desc : SyscallDesc} (hd : ts.length ≤ depth)
    (hp : decCall sys depth ts ≠ .panic) :
    linksCall sys ds ts = some (desc, rest) ↔
      ∃ c, decCall sys depth ts = .accept (c, rest) ∧ c.desc = desc ∧ CallOk ds c := by
  constructor
  · intro h
    unfold linksCall at h
    split at h
    next kw name tok ts =>
      split at h
      next hkw =>
        obtain ⟨d, hfind, h⟩ := Option.bind_eq_some_iff.mp h
        split at h
        next hlen =>
          obtain ⟨n, hn, hlen⟩ := Option.map_eq_some_iff.mp hlen
          obtain ⟨rest', hargs, h⟩ := Option.map_eq_some_iff.mp h
          cases h
          have hts : ts.length ≤ depth := by
            simp only [List.length_cons] at hd
            omega
          obtain ⟨vals, hvals, hok⟩ := (linksArgs_eq_some hts).mp hargs
          have hread : decCall sys depth (kw :: name :: tok :: ts) =
              (withCapacity n.toNat >>= fun _ => Parse.times (decArg depth) n.toNat >>= fun args =>
                pure (⟨desc, args⟩ : TypedCall)) ts := by
            rw [decCall, Parse.bind_accept (Parse.next_cons kw _), if_neg (not_not.mpr hkw),
              Parse.bind_accept (Parse.next_cons name _), hfind,
              Parse.bind_accept (Parse.lift_some desc _), Parse.bind_accept (Parse.next_cons tok _),
              hn, Parse.bind_accept (Parse.lift_some n _)]
          rw [hread] at hp ⊢
          by_cases ha : Allocatable n.toNat
          · rw [Parse.bind_accept (withCapacity_accept ha ts), hlen, Parse.bind_accept hvals]
            exact ⟨⟨desc, vals⟩, rfl, rfl, hok⟩
          · refine absurd (Parse.bind_panic ?_) hp
            rw [withCapacity, if_neg ha]
            rfl
        next => cases h
      next => cases h
    next => cases h
  · rintro ⟨c, h, rfl, hok⟩
    obtain ⟨kw, t₁, h₁, h⟩ := Parse.bind_eq_accept h
    split at h
    · cases h
    next hkw =>
    obtain ⟨name, t₂, h₂, h⟩ := Parse.bind_eq_accept h
    obtain ⟨desc, t₃, h₃, h⟩ := Parse.bind_eq_accept h
    obtain ⟨tok, t₄, h₄, h⟩ := Parse.bind_eq_accept h
    obtain ⟨n, t₅, h₅, h⟩ := Parse.bind_eq_accept h
    obtain ⟨_, t₆, h₆, h⟩ := Parse.bind_eq_accept h
    obtain ⟨args, t₇, h₇, h⟩ := Parse.bind_eq_accept h
    cases h
    obtain ⟨hdesc, rfl⟩ := Parse.lift_eq_accept h₃
    obtain ⟨hn, rfl⟩ := Parse.lift_eq_accept h₅
    obtain ⟨-, rfl⟩ := withCapacity_eq_accept h₆
    have hts : ts = kw :: name :: tok :: t₆ := by
      rw [Parse.next_eq_accept h₁, Parse.next_eq_accept h₂, Parse.next_eq_accept h₄]
    subst hts
    have hlen : n.toNat = desc.args.length := by
      have hargs : args.length = n.toNat :=
        (Parse.times_forall (P := fun _ => True) (fun _ _ _ _ => trivial) h₇).1
      exact hargs.symm.trans hok.length_eq.symm
    have ht : t₆.length ≤ depth := by
      simp only [List.length_cons] at hd
      omega
    rw [hlen] at h₇
    rw [linksCall, if_pos (not_not.mp hkw), hdesc, Option.bind_some, hn, Option.map_some, hlen,
      if_pos rfl, (linksArgs_eq_some ht).mpr ⟨args, h₇, hok⟩]
    rfl

/-- Calls that are threaded after calls with these descriptions. -/
def ThreadedAfter (ds : List SyscallDesc) (cs : List TypedCall) : Prop :=
  ∀ i c, cs[i]? = some c → CallOk (ds ++ (cs.take i).map (·.desc)) c

/-- The first call, then the rest after it. -/
theorem threadedAfter_cons {c : TypedCall} {cs : List TypedCall} :
    ThreadedAfter ds (c :: cs) ↔ CallOk ds c ∧ ThreadedAfter (ds ++ [c.desc]) cs := by
  constructor
  · intro h
    refine ⟨by simpa using h 0 c rfl, fun i d hd => ?_⟩
    have := h (i + 1) d hd
    rwa [List.take_succ_cons, List.map_cons, List.append_cons] at this
  · rintro ⟨hc, hcs⟩ i d hd
    cases i with
    | zero =>
      cases hd
      simpa using hc
    | succ i =>
      rw [List.take_succ_cons, List.map_cons, List.append_cons]
      exact hcs i d hd

/-- The reader and the decoder agree on calls that the decoder does not panic on. -/
theorem linksCalls_iff {k : Nat} : ∀ {ds : List SyscallDesc} {ts : List Token}, ts.length ≤ depth →
    Parse.times (decCall sys depth) k ts ≠ .panic →
    (linksCalls sys ds k ts = true ↔ ∃ cs rest,
      Parse.times (decCall sys depth) k ts = .accept (cs, rest) ∧ ThreadedAfter ds cs) := by
  induction k with
  | zero =>
    intro ds ts _ _
    exact ⟨fun _ => ⟨[], ts, rfl, nofun⟩, fun _ => rfl⟩
  | succ k ih =>
    intro ds ts hd hp
    have hcall : decCall sys depth ts ≠ .panic := fun h => hp (Parse.bind_panic h)
    constructor
    · intro h
      unfold linksCalls at h
      split at h
      next desc rest hl =>
        obtain ⟨c, hc, rfl, hok⟩ := (linksCall_eq_some hd hcall).mp hl
        have hle := Nat.le_trans (decCall_length_le hc) hd
        rw [Parse.times, Parse.bind_accept hc] at hp ⊢
        obtain ⟨cs, rest', hcs, hthr⟩ := (ih hle fun h => hp (Parse.bind_panic h)).mp h
        rw [Parse.bind_accept hcs]
        exact ⟨c :: cs, rest', rfl, threadedAfter_cons.mpr ⟨hok, hthr⟩⟩
      next => cases h
    · rintro ⟨cs, rest, h, hthr⟩
      obtain ⟨c, t₁, hc, h⟩ := Parse.bind_eq_accept h
      obtain ⟨cs', t₂, hcs, h⟩ := Parse.bind_eq_accept h
      cases h
      have hle := Nat.le_trans (decCall_length_le hc) hd
      obtain ⟨hok, hthr⟩ := threadedAfter_cons.mp hthr
      rw [linksCalls, (linksCall_eq_some hd hcall).mpr ⟨c, hc, rfl, hok⟩]
      refine (ih hle fun h => ?_).mpr ⟨cs', rest, hcs, hthr⟩
      rw [hcs] at h
      cases h

/-- A text is read call by call after its header and its count. -/
theorem decProg_eq_accept {ts rest : List Token} {p : Prog} :
    decProg sys depth ts = .accept (p, rest) ↔
      ∃ tok n ts', ts = HEADER :: tok :: ts' ∧ parseUnsigned 64 tok = some n ∧
        Allocatable n.toNat ∧
        Parse.times (decCall sys depth) n.toNat ts' = .accept (p.calls, rest) := by
  constructor
  · intro h
    obtain ⟨header, t₁, h₁, h⟩ := Parse.bind_eq_accept h
    split at h
    · cases h
    next hheader =>
    obtain ⟨tok, t₂, h₂, h⟩ := Parse.bind_eq_accept h
    obtain ⟨n, t₃, h₃, h⟩ := Parse.bind_eq_accept h
    obtain ⟨_, t₄, h₄, h⟩ := Parse.bind_eq_accept h
    obtain ⟨cs, t₅, h₅, h⟩ := Parse.bind_eq_accept h
    cases h
    obtain ⟨hn, rfl⟩ := Parse.lift_eq_accept h₃
    obtain ⟨ha, rfl⟩ := withCapacity_eq_accept h₄
    rw [not_not] at hheader
    refine ⟨tok, n, t₄, ?_, hn, ha, h₅⟩
    rw [Parse.next_eq_accept h₁, Parse.next_eq_accept h₂, hheader]
  · rintro ⟨tok, n, ts, rfl, hn, ha, h⟩
    rw [decProg, Parse.bind_accept (Parse.next_cons HEADER _), if_neg (not_not.mpr rfl),
      Parse.bind_accept (Parse.next_cons tok ts), hn, Parse.bind_accept (Parse.lift_some n ts),
      Parse.bind_accept (withCapacity_accept ha ts), Parse.bind_accept h]
    rfl

/-- A text that meets no fatal token is accepted exactly when it is linked. -/
theorem linkedText_iff {t : List Char} (h : meetsHazard sys .header (splitWhitespace t) = false) :
    linkedText sys t = true ↔ ∃ p, deserializeProg sys t = .accept p := by
  constructor
  · intro hl
    unfold linkedText at hl
    split at hl
    next header tok ts htext =>
      rw [Bool.and_eq_true, decide_eq_true_eq] at hl
      obtain ⟨rfl, hl⟩ := hl
      have hd : ts.length ≤ (splitWhitespace t).length := by
        rw [htext]
        simp only [List.length_cons]
        omega
      cases hn : parseUnsigned 64 tok with
      | none => simp [hn] at hl
      | some n =>
        rw [hn, Option.any_some] at hl
        rw [htext, meetsHazard_header, meetsHazard_count, oversized_of_some hn, hn, Option.any_some,
          panics_times_decCall hd] at h
        simp only [decide_true, Bool.true_and, Bool.or_eq_false_iff, decide_eq_false_iff_not,
          not_not] at h
        obtain ⟨ha, hno⟩ := h
        have hp : Parse.times (decCall sys (splitWhitespace t).length) n.toNat ts ≠ .panic := by
          intro hx
          rw [hx] at hno
          cases hno
        obtain ⟨cs, rest, hcs, hthr⟩ := (linksCalls_iff hd hp).mp hl
        have hdec : decProg sys (splitWhitespace t).length (splitWhitespace t) =
            .accept (⟨cs⟩, rest) :=
          decProg_eq_accept.mpr ⟨tok, n, ts, htext, hn, ha, hcs⟩
        refine ⟨⟨cs⟩, ?_⟩
        simp only [deserializeProg, hdec]
        exact if_pos ((isWellFormed_iff ⟨cs⟩).mpr hthr)
    next => cases hl
  · rintro ⟨p, hp⟩
    obtain ⟨hwf, rest, hdec⟩ := deserializeProg_eq_accept hp
    obtain ⟨tok, n, ts, htext, hn, -, hcalls⟩ := decProg_eq_accept.mp hdec
    have hd : ts.length ≤ (splitWhitespace t).length := by
      rw [htext]
      simp only [List.length_cons]
      omega
    have hp' : Parse.times (decCall sys (splitWhitespace t).length) n.toNat ts ≠ .panic := by
      intro hx
      rw [hcalls] at hx
      cases hx
    have hlinks : linksCalls sys [] n.toNat ts = true :=
      (linksCalls_iff hd hp').mpr ⟨p.calls, rest, hcalls, (isWellFormed_iff p).mp hwf⟩
    rw [linkedText, htext]
    simp only [hn, Option.any_some, hlinks, decide_true, Bool.and_self]

end

/-! ## The condition -/

/-- A corpus text neither makes the decoder panic nor injects an invalid program, exactly when reading
it meets no fatal token and, if it is a linked text, it is a typed text. -/
theorem corpus_injects_valid (sys : List SyscallDesc) (t : List Char) :
    (deserializeProg sys t ≠ .panic ∧ ∀ p, deserializeProg sys t = .accept p → p.Valid) ↔
      meetsHazard sys .header (splitWhitespace t) = false ∧
        (linkedText sys t = true → typedText sys t = true) := by
  have hpanic : deserializeProg sys t ≠ .panic ↔
      meetsHazard sys .header (splitWhitespace t) = false := by
    rw [ne_eq, deserializeProg_eq_panic, Bool.not_eq_true]
  rw [hpanic]
  refine and_congr_right fun hmeets => ⟨?_, ?_⟩
  · intro h hlinked
    obtain ⟨p, hp⟩ := (linkedText_iff hmeets).mp hlinked
    have hvalid := h p hp
    exact (typedText_iff hp).mpr ⟨hvalid.calls, hvalid.shapes⟩
  · intro h p hp
    obtain ⟨hcalls, hshapes⟩ := (typedText_iff hp).mp (h ((linkedText_iff hmeets).mpr ⟨p, hp⟩))
    refine ⟨hcalls, hshapes, fun base f hf => ?_⟩
    obtain ⟨h1, h2⟩ := lower_backward (deserializeProg_eq_accept hp).1 hcalls base f
      (List.mem_of_mem_take hf)
    exact ⟨by rwa [Nat.min_eq_left hcalls], h2⟩

/-- A text that puts the number 5 where `getcwd` takes a pointer. -/
def misshapenText : List Char := "FSCORPUS1 1 CALL getcwd 2 i5 i0".toList

/-- It is accepted, though the pointer may not even be null. -/
theorem corpus_injects_misshapen :
    ¬ (deserializeProg SYSCALLS misshapenText ≠ .panic ∧
      ∀ p, deserializeProg SYSCALLS misshapenText = .accept p → p.Valid) := by
  rintro ⟨-, h⟩
  have haccept : (deserializeProg SYSCALLS misshapenText).isAccept = true := by decide +kernel
  have htyped : typedText SYSCALLS misshapenText = false := by decide +kernel
  rcases hp : deserializeProg SYSCALLS misshapenText with _ | _ | p
  · rw [hp] at haccept
    cases haccept
  · rw [hp] at haccept
    cases haccept
  · have hvalid := h p hp
    rw [(typedText_iff hp).mpr ⟨hvalid.calls, hvalid.shapes⟩] at htyped
    cases htyped

end FuzzSoft
