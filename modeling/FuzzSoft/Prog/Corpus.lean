import FuzzSoft.Lib.Parse
import FuzzSoft.Lib.Text
import FuzzSoft.Prog.Syscalls

/-!
# The corpus text format

A program is stored as white-space separated tokens: a header, the number of calls, and for each call
its name, its number of arguments and the arguments in pre-order. A tag and a count are all that
delimits a value, so the decoder is a recursive descent over the token stream. It panics where the
code does: a token whose first character is not a single byte, and a count that no vector can have.
-/

namespace FuzzSoft

open Lib

/-- A token of the text. -/
abbrev Token := List Char

/-! ## Encoding -/

/-- The text of a byte string. -/
def encBytes (b : List U8) : List Char := if b.isEmpty then ['-'] else b.flatMap showHex

mutual

/-- The pre-order tokens of a value. -/
def encArg : ArgValue → List Token
  | .imm v => ['i' :: showNat v.toNat]
  | .res (.seed s) => ['s' :: showInt s.toInt]
  | .res (.produced callIdx slot) => ['r' :: (showNat callIdx.toNat ++ '.' :: showNat slot.toNat)]
  | .bytes b => ['b' :: encBytes b]
  | .ptr pointee => ['p'] :: encArg pointee
  | .struct vals => ('t' :: showNat vals.length) :: encArgs vals

/-- `encArg` over the fields of a struct. -/
def encArgs : List ArgValue → List Token
  | [] => []
  | v :: vals => encArg v ++ encArgs vals

end

def encCall (c : TypedCall) : List Token :=
  ['C', 'A', 'L', 'L'] :: c.desc.name.toList :: showNat c.args.length :: encArgs c.args

def HEADER : Token := ['F', 'S', 'C', 'O', 'R', 'P', 'U', 'S', '1']

def serializeProg (p : Prog) : List Char :=
  [' '].intercalate (HEADER :: showNat p.calls.length :: p.calls.flatMap encCall)

/-! ## Decoding -/

/-- The size of an `ArgValue` and of a `TypedCall`. -/
def ELEM_SIZE : Nat := 32

/-- A vector of `n` elements can be allocated. -/
def Allocatable (n : Nat) : Prop := n * ELEM_SIZE < 2 ^ 63

instance (n : Nat) : Decidable (Allocatable n) := inferInstanceAs (Decidable (_ < _))

/-- `Vec::with_capacity`. -/
def withCapacity (n : Nat) : Parse Token Unit := if Allocatable n then pure () else Parse.panic

/-- `split_at(1)`: the tag, if it is one byte long. -/
def splitTag : Token → Parse Token (Char × List Char)
  | [] => Parse.panic
  | c :: rest => if c.utf8Size = 1 then pure (c, rest) else Parse.panic

/-- `split_once`. -/
def splitOnce (c : Char) (s : List Char) : Option (List Char × List Char) :=
  if c ∈ s then some (s.takeWhile (· ≠ c), (s.dropWhile (· ≠ c)).tail) else none

/-- The bytes behind the tag `b`. -/
def decBytes (rest : List Char) : Option (List U8) :=
  if rest = ['-'] then some [] else parseHex (utf8 rest)

/-- The reference behind the tag `r`. -/
def decRef (rest : List Char) : Option ResRef := do
  let (c, slot) ← splitOnce '.' rest
  let callIdx ← parseUnsigned 16 c
  let slot ← parseUnsigned 8 slot
  pure (.produced callIdx slot)

/-- Decode one value, with a decoder for the values nested in it. -/
def decArgWith (dec : Parse Token ArgValue) : Parse Token ArgValue := do
  let tok ← Parse.next
  let (tag, rest) ← splitTag tok
  match tag with
  | 'i' => do
    let v ← Parse.lift (parseUnsigned 64 rest)
    pure (.imm v)
  | 's' => do
    let s ← Parse.lift (parseSigned 64 rest)
    pure (.res (.seed s))
  | 'r' => do
    let r ← Parse.lift (decRef rest)
    pure (.res r)
  | 'b' => do
    let b ← Parse.lift (decBytes rest)
    pure (.bytes b)
  | 'p' => do
    let v ← dec
    pure (.ptr v)
  | 't' => do
    let n ← Parse.lift (parseUnsigned 64 rest)
    withCapacity n.toNat
    let vals ← Parse.times dec n.toNat
    pure (.struct vals)
  | _ => Parse.reject

/-- Decode one value, nested at most so deep. A nested value starts one token later, so the number
of tokens is depth enough (`decArg_depth`). -/
def decArg : Nat → Parse Token ArgValue
  | 0 => Parse.reject
  | depth + 1 => decArgWith (decArg depth)

/-- One call. -/
def decCall (sys : List SyscallDesc) (depth : Nat) : Parse Token TypedCall := do
  let kw ← Parse.next
  if kw ≠ ['C', 'A', 'L', 'L'] then Parse.reject else do
  let name ← Parse.next
  let desc ← Parse.lift (sys.find? fun d => d.name.toList = name)
  let tok ← Parse.next
  let nargs ← Parse.lift (parseUnsigned 64 tok)
  withCapacity nargs.toNat
  let args ← Parse.times (decArg depth) nargs.toNat
  pure ⟨desc, args⟩

/-- The whole text, before the check. -/
def decProg (sys : List SyscallDesc) (depth : Nat) : Parse Token Prog := do
  let header ← Parse.next
  if header ≠ HEADER then Parse.reject else do
  let tok ← Parse.next
  let ncalls ← Parse.lift (parseUnsigned 64 tok)
  withCapacity ncalls.toNat
  let calls ← Parse.times (decCall sys depth) ncalls.toNat
  pure ⟨calls⟩

/-- Parse a text into a well-formed program. Tokens after the last call are not looked at. -/
def deserializeProg (sys : List SyscallDesc) (s : List Char) : Outcome Prog :=
  let toks := splitWhitespace s
  match decProg sys toks.length toks with
  | .accept (prog, _) => if prog.isWellFormed then .accept prog else .reject
  | .reject => .reject
  | .panic => .panic

/-- A vector of an allocatable length is made. -/
theorem withCapacity_accept {n : Nat} (h : Allocatable n) (ts : List Token) :
    withCapacity n ts = .accept ((), ts) := by
  rw [withCapacity, if_pos h]
  rfl

/-- Only such a one is. -/
theorem withCapacity_eq_accept {n : Nat} {ts ts' : List Token} {u : Unit}
    (h : withCapacity n ts = .accept (u, ts')) : Allocatable n ∧ ts' = ts := by
  unfold withCapacity at h
  split at h
  next ha => cases h; exact ⟨ha, rfl⟩
  next => cases h

/-- A token is split after a character of one byte. -/
theorem splitTag_eq_accept {tok : Token} {ts ts' : List Token} {r : Char × List Char}
    (h : splitTag tok ts = .accept (r, ts')) : tok = r.1 :: r.2 ∧ r.1.utf8Size = 1 ∧ ts' = ts := by
  cases tok with
  | nil => cases h
  | cons c rest =>
    by_cases hc : c.utf8Size = 1
    · rw [splitTag, if_pos hc] at h
      cases h
      exact ⟨rfl, hc, rfl⟩
    · rw [splitTag, if_neg hc] at h
      cases h

/-- A decoded value takes tokens. -/
theorem decArg_shorter : ∀ (depth : Nat) (ts : List Token) (v : ArgValue) (ts' : List Token),
    decArg depth ts = .accept (v, ts') → ts'.length < ts.length := by
  intro depth
  induction depth with
  | zero => intro ts v ts' h; cases h
  | succ depth ih =>
    intro ts v ts' h
    obtain ⟨tok, t₁, ht, h'⟩ := Parse.bind_eq_accept h
    obtain ⟨⟨tag, rest⟩, t₂, hs, h⟩ := Parse.bind_eq_accept h'
    rw [Parse.next_eq_accept ht, ← (splitTag_eq_accept hs).2.2]
    refine Nat.lt_succ_of_le ?_
    clear h' hs ht
    dsimp only at h
    split at h
    iterate 4
      obtain ⟨_, _, hl, h⟩ := Parse.bind_eq_accept h
      cases h
      exact Nat.le_of_eq (congrArg List.length (Parse.lift_eq_accept hl).2)
    · obtain ⟨w, _, hw, h⟩ := Parse.bind_eq_accept h
      cases h
      exact Nat.le_of_lt (ih _ _ _ hw)
    · obtain ⟨n, _, hl, h⟩ := Parse.bind_eq_accept h
      obtain ⟨_, _, hcap, h⟩ := Parse.bind_eq_accept h
      obtain ⟨vals, _, hvals, h⟩ := Parse.bind_eq_accept h
      cases h
      rw [← (Parse.lift_eq_accept hl).2, ← (withCapacity_eq_accept hcap).2]
      exact Parse.times_length_le (fun _ _ _ hx => Nat.le_of_lt (ih _ _ _ hx)) hvals
    · cases h

/-- A depth of more than the number of tokens changes nothing. -/
theorem decArg_depth : ∀ (depth : Nat) (ts : List Token), ts.length ≤ depth →
    decArg (depth + 1) ts = decArg depth ts := by
  intro depth
  induction depth with
  | zero =>
    intro ts hts
    rw [List.eq_nil_of_length_eq_zero (Nat.le_zero.mp hts)]
    rfl
  | succ depth ih =>
    intro ts hts
    refine Parse.bind_congr fun tok t₁ ht => Parse.bind_congr fun r t₂ hr => ?_
    obtain ⟨-, -, rfl⟩ := splitTag_eq_accept hr
    rw [Parse.next_eq_accept ht] at hts
    have hlen : t₂.length ≤ depth := Nat.le_of_succ_le_succ hts
    obtain ⟨tag, rest⟩ := r
    clear hr
    dsimp only
    split
    case h_5 => exact Parse.bind_congr_left (ih _ hlen)
    case h_6 =>
      refine Parse.bind_congr fun n t₃ hn => Parse.bind_congr fun _ t₄ hcap => ?_
      obtain rfl := (Parse.lift_eq_accept hn).2
      obtain rfl := (withCapacity_eq_accept hcap).2
      refine Parse.bind_congr_left (Parse.times_congr (fun ts hts => ih ts hts) ?_ _ hlen)
      exact fun _ _ _ hx => Nat.le_of_lt (decArg_shorter _ _ _ _ hx)
    all_goals rfl

/-! ## Values that exist in memory -/

mutual

/-- Every vector in a value is one that can be allocated. -/
def ArgValue.Fits : ArgValue → Prop
  | .struct vals => Allocatable vals.length ∧ FitsAll vals
  | .ptr pointee => pointee.Fits
  | _ => True

/-- `ArgValue.Fits` over a list. -/
def FitsAll : List ArgValue → Prop
  | [] => True
  | v :: vals => v.Fits ∧ FitsAll vals

end

/-- Every value of the list fits. -/
theorem fitsAll_iff (vals : List ArgValue) : FitsAll vals ↔ ∀ v ∈ vals, v.Fits := by
  induction vals with
  | nil => simp [FitsAll]
  | cons v vals ih => simp [FitsAll, ih]

/-- Every vector in a program is one that can be allocated. -/
structure Prog.Fits (p : Prog) : Prop where
  calls : Allocatable p.calls.length
  args : ∀ c ∈ p.calls, Allocatable c.args.length
  vals : ∀ c ∈ p.calls, FitsAll c.args

/-- The names of a table are distinct, and each is a token. -/
structure Names (sys : List SyscallDesc) : Prop where
  distinct : (sys.map (·.name)).Nodup
  token : ∀ d ∈ sys, IsToken d.name.toList

/-- Every call of a program is described in the table. -/
def Prog.Over (sys : List SyscallDesc) (p : Prog) : Prop := ∀ c ∈ p.calls, c.desc ∈ sys

/-! ## Tokens of an encoding -/

/-- A number is a token. -/
theorem isToken_showNat (n : Nat) : IsToken (showNat n) :=
  ⟨Nat.toDigits_ne_nil, fun _ hc => isWhitespace_of_isDigit (isDigit_showNat hc)⟩

/-- A tag before text without whitespace is a token. -/
theorem isToken_cons {c : Char} {s : List Char} (hc : isWhitespace c = false)
    (hs : ∀ d ∈ s, isWhitespace d = false) : IsToken (c :: s) :=
  ⟨List.cons_ne_nil _ _, by simpa using ⟨hc, hs⟩⟩

/-- A signed number has no whitespace. -/
theorem isWhitespace_showInt {z : Int} {c : Char} (h : c ∈ showInt z) : isWhitespace c = false := by
  cases z with
  | ofNat n => exact (isToken_showNat n).2 c h
  | negSucc n =>
    rcases List.mem_cons.mp h with rfl | h
    · rfl
    · exact (isToken_showNat _).2 c h

/-- Nor have encoded bytes. -/
theorem isWhitespace_encBytes {b : List U8} {c : Char} (h : c ∈ encBytes b) :
    isWhitespace c = false := by
  unfold encBytes at h
  split at h
  · rw [List.mem_singleton.mp h]
    rfl
  · obtain ⟨v, -, hc⟩ := List.mem_flatMap.mp h
    have hdigit : ∀ n < 16, isWhitespace (Nat.digitChar n) = false := by decide
    simp only [showHex, List.mem_cons, List.not_mem_nil, or_false] at hc
    rcases hc with rfl | rfl
    · exact hdigit _ (by omega)
    · exact hdigit _ (by omega)

mutual

/-- A value is written as tokens. -/
theorem encArg_tokens : ∀ (v : ArgValue), ∀ t ∈ encArg v, IsToken t
  | .imm v => by
    simpa [encArg] using isToken_cons rfl (isToken_showNat v.toNat).2
  | .res (.seed s) => by
    simpa [encArg] using isToken_cons rfl fun d hd => isWhitespace_showInt hd
  | .res (.produced callIdx slot) => by
    have hcall := (isToken_showNat callIdx.toNat).2
    have hslot := (isToken_showNat slot.toNat).2
    have htail : ∀ d ∈ showNat callIdx.toNat ++ '.' :: showNat slot.toNat,
        isWhitespace d = false := by
      intro d hd
      rcases List.mem_append.mp hd with hd | hd
      · exact hcall d hd
      · rcases List.mem_cons.mp hd with rfl | hd
        · rfl
        · exact hslot d hd
    simpa [encArg] using isToken_cons rfl htail
  | .bytes b => by
    simpa [encArg] using isToken_cons rfl fun d hd => isWhitespace_encBytes hd
  | .ptr pointee => by
    intro t ht
    rcases List.mem_cons.mp ht with rfl | ht
    · exact isToken_cons rfl (by simp)
    · exact encArg_tokens pointee t ht
  | .struct vals => by
    intro t ht
    rcases List.mem_cons.mp ht with rfl | ht
    · exact isToken_cons rfl (isToken_showNat _).2
    · exact encArgs_tokens vals t ht

/-- So are the values of a call. -/
theorem encArgs_tokens : ∀ (vals : List ArgValue), ∀ t ∈ encArgs vals, IsToken t
  | [] => by simp [encArgs]
  | v :: vals => by
    intro t ht
    rcases List.mem_append.mp ht with ht | ht
    · exact encArg_tokens v t ht
    · exact encArgs_tokens vals t ht

end

/-- The tokens of a program. -/
def encProg (p : Prog) : List Token := HEADER :: showNat p.calls.length :: p.calls.flatMap encCall

/-- So is a program. -/
theorem encProg_tokens {sys : List SyscallDesc} {p : Prog} (hn : Names sys) (hp : p.Over sys) :
    ∀ t ∈ encProg p, IsToken t := by
  intro t ht
  rcases List.mem_cons.mp ht with rfl | ht
  · exact isToken_of_all (by decide) (by decide)
  rcases List.mem_cons.mp ht with rfl | ht
  · exact isToken_showNat _
  obtain ⟨c, hc, ht⟩ := List.mem_flatMap.mp ht
  rcases List.mem_cons.mp ht with rfl | ht
  · exact isToken_of_all (by decide) (by decide)
  rcases List.mem_cons.mp ht with rfl | ht
  · exact hn.token _ (hp c hc)
  rcases List.mem_cons.mp ht with rfl | ht
  · exact isToken_showNat _
  · exact encArgs_tokens c.args t ht

/-! ## Decoding an encoding -/

/-- An allocatable length is read back. -/
theorem parseUnsigned_length {n : Nat} (h : Allocatable n) :
    ∃ v : U64, parseUnsigned 64 (showNat n) = some v ∧ v.toNat = n := by
  have hn : (BitVec.ofNat 64 n).toNat = n := by
    have : n * 32 < 2 ^ 63 := h
    simp only [BitVec.toNat_ofNat]
    omega
  exact ⟨BitVec.ofNat 64 n, by rw [← parseUnsigned_showNat (BitVec.ofNat 64 n), hn], hn⟩

/-- Bytes are read back. -/
theorem decBytes_encBytes (b : List U8) : decBytes (encBytes b) = some b := by
  cases b with
  | nil => rfl
  | cons v b =>
    have hne : (v :: b).flatMap showHex ≠ ['-'] := by
      simp [showHex]
    rw [encBytes, if_neg (by simp), decBytes, if_neg hne, parseHex_showHex]

/-- A text is split at the first separator. -/
theorem splitOnce_append {c : Char} {s t : List Char} (h : c ∉ s) :
    splitOnce c (s ++ c :: t) = some (s, t) := by
  have hall : ∀ a ∈ s, decide (a ≠ c) = true := by
    intro a ha
    exact decide_eq_true fun hac => h (hac ▸ ha)
  rw [splitOnce, if_pos (by simp), List.takeWhile_append_of_pos hall,
    List.dropWhile_append_of_pos hall]
  simp

/-- A reference is read back. -/
theorem decRef_showNat (callIdx : U16) (slot : U8) :
    decRef (showNat callIdx.toNat ++ '.' :: showNat slot.toNat) =
      some (.produced callIdx slot) := by
  have hdot : '.' ∉ showNat callIdx.toNat := fun h => by cases isDigit_showNat h
  simp [decRef, splitOnce_append hdot, parseUnsigned_showNat]

mutual

/-- A value is decoded from its encoding, whatever follows. -/
theorem decArg_encArg : ∀ (v : ArgValue), v.Fits → ∀ (depth : Nat) (rest : List Token),
    (encArg v).length ≤ depth → decArg depth (encArg v ++ rest) = .accept (v, rest)
  | .imm v, _, depth + 1, rest, _ => by
    have hv : (Parse.lift (parseUnsigned 64 (showNat v.toNat)) : Parse Token U64) rest =
        .accept (v, rest) := by rw [parseUnsigned_showNat]; rfl
    exact Parse.bind_accept hv
  | .res (.seed s), _, depth + 1, rest, _ => by
    have hs : (Parse.lift (parseSigned 64 (showInt s.toInt)) : Parse Token U64) rest =
        .accept (s, rest) := by rw [parseSigned_showInt]; rfl
    exact Parse.bind_accept hs
  | .res (.produced callIdx slot), _, depth + 1, rest, _ => by
    have hr : (Parse.lift (decRef (showNat callIdx.toNat ++ '.' :: showNat slot.toNat)) :
        Parse Token ResRef) rest = .accept (.produced callIdx slot, rest) := by
      rw [decRef_showNat]; rfl
    exact Parse.bind_accept hr
  | .bytes b, _, depth + 1, rest, _ => by
    have hb : (Parse.lift (decBytes (encBytes b)) : Parse Token (List U8)) rest =
        .accept (b, rest) := by rw [decBytes_encBytes]; rfl
    exact Parse.bind_accept hb
  | .ptr pointee, hf, depth + 1, rest, hd => by
    have hlen : (encArg pointee).length ≤ depth := Nat.le_of_succ_le_succ hd
    exact Parse.bind_accept (decArg_encArg pointee hf depth rest hlen)
  | .struct vals, hf, depth + 1, rest, hd => by
    obtain ⟨n, hn, hlen⟩ := parseUnsigned_length hf.1
    have hparse : (Parse.lift (parseUnsigned 64 (showNat vals.length)) : Parse Token U64)
        (encArgs vals ++ rest) = .accept (n, encArgs vals ++ rest) := by rw [hn]; rfl
    refine (Parse.bind_accept hparse).trans ?_
    rw [hlen]
    refine (Parse.bind_accept (withCapacity_accept hf.1 _)).trans ?_
    exact Parse.bind_accept (times_encArgs vals hf.2 depth rest (Nat.le_of_succ_le_succ hd))

/-- The values of a call are read back. -/
theorem times_encArgs : ∀ (vals : List ArgValue), FitsAll vals → ∀ (depth : Nat)
    (rest : List Token), (encArgs vals).length ≤ depth →
    Parse.times (decArg depth) vals.length (encArgs vals ++ rest) = .accept (vals, rest)
  | [], _, _, _, _ => rfl
  | v :: vals, hf, depth, rest, hd => by
    rw [encArgs, List.length_append] at hd
    rw [encArgs, List.append_assoc, List.length_cons, Parse.times,
      Parse.bind_accept (decArg_encArg v hf.1 depth _ (by omega)),
      Parse.bind_accept (times_encArgs vals hf.2 depth rest (by omega))]
    rfl

end

section
variable {sys : List SyscallDesc} {p : Prog}

/-- A description is found under its name. -/
theorem Names.find (hn : Names sys) {d : SyscallDesc} (hd : d ∈ sys) :
    (sys.find? fun e => e.name.toList = d.name.toList) = some d := by
  cases hf : sys.find? fun e => e.name.toList = d.name.toList with
  | none =>
    have := List.find?_eq_none.mp hf d hd
    simp at this
  | some e =>
    have hname : e.name = d.name := by
      have := List.find?_some hf
      exact String.toList_inj.mp (by simpa using this)
    rw [List.inj_on_of_nodup_map hn.distinct (List.mem_of_find?_eq_some hf) hd hname]

/-- A call is read back. -/
theorem decCall_encCall (hn : Names sys) {c : TypedCall} (hc : c.desc ∈ sys)
    (ha : Allocatable c.args.length) (hv : FitsAll c.args) {depth : Nat}
    (hd : (encCall c).length ≤ depth) (rest : List Token) :
    decCall sys depth (encCall c ++ rest) = .accept (c, rest) := by
  obtain ⟨n, hparse, hlen⟩ := parseUnsigned_length ha
  have hdepth : (encArgs c.args).length ≤ depth := by
    simp only [encCall, List.length_cons] at hd
    omega
  have hargs := times_encArgs c.args hv depth rest hdepth
  have hfind : (Parse.lift (sys.find? fun d => d.name.toList = c.desc.name.toList) :
      Parse Token SyscallDesc) (showNat c.args.length :: (encArgs c.args ++ rest)) =
      .accept (c.desc, showNat c.args.length :: (encArgs c.args ++ rest)) := by
    rw [hn.find hc]; rfl
  have hnargs : (Parse.lift (parseUnsigned 64 (showNat c.args.length)) : Parse Token U64)
      (encArgs c.args ++ rest) = .accept (n, encArgs c.args ++ rest) := by rw [hparse]; rfl
  refine (Parse.bind_accept (Parse.next_cons _ _)).trans ?_
  rw [if_neg (by simp)]
  refine (Parse.bind_accept (Parse.next_cons _ _)).trans ?_
  refine (Parse.bind_accept hfind).trans ?_
  refine (Parse.bind_accept (Parse.next_cons _ _)).trans ?_
  refine (Parse.bind_accept hnargs).trans ?_
  rw [hlen]
  refine (Parse.bind_accept (withCapacity_accept ha _)).trans ?_
  exact Parse.bind_accept hargs

/-- A program is read back, before the check. -/
theorem decProg_encProg (hn : Names sys) (hp : p.Over sys) (hf : p.Fits) :
    decProg sys (encProg p).length (encProg p) = .accept (p, []) := by
  obtain ⟨n, hparse, hlen⟩ := parseUnsigned_length hf.calls
  have hcalls : Parse.times (decCall sys (encProg p).length) p.calls.length
      (p.calls.flatMap encCall ++ []) = .accept (p.calls, []) := by
    refine Parse.times_flatMap p.calls [] fun c hc rest => ?_
    refine decCall_encCall hn (hp c hc) (hf.args c hc) (hf.vals c hc) ?_ rest
    have hsub : (encCall c).length ≤ (p.calls.flatMap encCall).length :=
      (List.sublist_flatten_of_mem (List.mem_map_of_mem hc)).length_le
    simp only [encProg, List.length_cons]
    omega
  rw [List.append_nil] at hcalls
  have hncalls : (Parse.lift (parseUnsigned 64 (showNat p.calls.length)) : Parse Token U64)
      (p.calls.flatMap encCall) = .accept (n, p.calls.flatMap encCall) := by rw [hparse]; rfl
  refine (Parse.bind_accept (Parse.next_cons _ _)).trans ?_
  rw [if_neg (by simp)]
  refine (Parse.bind_accept (Parse.next_cons _ _)).trans ?_
  refine (Parse.bind_accept hncalls).trans ?_
  rw [hlen]
  refine (Parse.bind_accept (withCapacity_accept hf.calls _)).trans ?_
  exact Parse.bind_accept hcalls

/-- A well-formed program is read back. -/
theorem deserialize_serialize (hn : Names sys) (hw : p.isWellFormed = true) (hp : p.Over sys)
    (hf : p.Fits) : deserializeProg sys (serializeProg p) = .accept p := by
  have hsplit : splitWhitespace (serializeProg p) = encProg p :=
    splitWhitespace_intercalate (encProg_tokens hn hp)
  rw [deserializeProg, hsplit, decProg_encProg hn hp hf]
  simp only [hw, if_true]

end

/-! ## What is decoded -/

/-- A decoded value exists in memory. -/
theorem decArg_fits : ∀ (depth : Nat) (ts : List Token) (v : ArgValue) (ts' : List Token),
    decArg depth ts = .accept (v, ts') → v.Fits := by
  intro depth
  induction depth with
  | zero => intro ts v ts' h; cases h
  | succ depth ih =>
    intro ts v ts' h
    obtain ⟨tok, t₁, -, h⟩ := Parse.bind_eq_accept h
    obtain ⟨⟨tag, rest⟩, t₂, -, h⟩ := Parse.bind_eq_accept h
    dsimp only at h
    split at h
    · obtain ⟨_, _, -, h⟩ := Parse.bind_eq_accept h
      cases h
      exact trivial
    · obtain ⟨_, _, -, h⟩ := Parse.bind_eq_accept h
      cases h
      exact trivial
    · obtain ⟨_, _, -, h⟩ := Parse.bind_eq_accept h
      cases h
      exact trivial
    · obtain ⟨_, _, -, h⟩ := Parse.bind_eq_accept h
      cases h
      exact trivial
    · obtain ⟨w, _, hw, h⟩ := Parse.bind_eq_accept h
      cases h
      show w.Fits
      exact ih _ _ _ hw
    · obtain ⟨n, _, -, h⟩ := Parse.bind_eq_accept h
      obtain ⟨_, _, hcap, h⟩ := Parse.bind_eq_accept h
      obtain ⟨vals, _, hvals, h⟩ := Parse.bind_eq_accept h
      cases h
      obtain ⟨hlen, hall⟩ := Parse.times_forall ih hvals
      exact ⟨hlen ▸ (withCapacity_eq_accept hcap).1, (fitsAll_iff _).mpr hall⟩
    · cases h

section
variable {sys : List SyscallDesc}

/-- A decoded call is of the table, and exists in memory. -/
theorem decCall_over {depth : Nat} {ts ts' : List Token} {c : TypedCall}
    (h : decCall sys depth ts = .accept (c, ts')) :
    c.desc ∈ sys ∧ Allocatable c.args.length ∧ FitsAll c.args := by
  obtain ⟨kw, _, -, h⟩ := Parse.bind_eq_accept h
  split at h
  · cases h
  obtain ⟨name, _, -, h⟩ := Parse.bind_eq_accept h
  obtain ⟨desc, _, hdesc, h⟩ := Parse.bind_eq_accept h
  obtain ⟨tok, _, -, h⟩ := Parse.bind_eq_accept h
  obtain ⟨n, _, -, h⟩ := Parse.bind_eq_accept h
  obtain ⟨_, _, hcap, h⟩ := Parse.bind_eq_accept h
  obtain ⟨args, _, hargs, h⟩ := Parse.bind_eq_accept h
  cases h
  obtain ⟨hlen, hall⟩ := Parse.times_forall (decArg_fits depth) hargs
  exact ⟨List.mem_of_find?_eq_some (Parse.lift_eq_accept hdesc).1,
    hlen ▸ (withCapacity_eq_accept hcap).1, (fitsAll_iff _).mpr hall⟩

/-- A decoded program is over the table, and its values fit. -/
theorem decProg_over {depth : Nat} {ts ts' : List Token} {p : Prog}
    (h : decProg sys depth ts = .accept (p, ts')) : p.Over sys ∧ p.Fits := by
  obtain ⟨header, _, -, h⟩ := Parse.bind_eq_accept h
  split at h
  · cases h
  obtain ⟨tok, _, -, h⟩ := Parse.bind_eq_accept h
  obtain ⟨n, _, -, h⟩ := Parse.bind_eq_accept h
  obtain ⟨_, _, hcap, h⟩ := Parse.bind_eq_accept h
  obtain ⟨calls, _, hcalls, h⟩ := Parse.bind_eq_accept h
  cases h
  obtain ⟨hlen, hall⟩ := Parse.times_forall (fun _ _ _ => decCall_over) hcalls
  exact ⟨fun c hc => (hall c hc).1, ⟨hlen ▸ (withCapacity_eq_accept hcap).1,
    fun c hc => (hall c hc).2.1, fun c hc => (hall c hc).2.2⟩⟩

/-- An accepted text: the decoder accepts it, and the program is well-formed. -/
theorem deserializeProg_eq_accept {s : List Char} {p : Prog}
    (h : deserializeProg sys s = .accept p) :
    p.isWellFormed = true ∧ ∃ ts, decProg sys (splitWhitespace s).length (splitWhitespace s) =
      .accept (p, ts) := by
  simp only [deserializeProg] at h
  split at h
  next q ts hq =>
    split at h
    next hw => cases h; exact ⟨hw, ts, hq⟩
    next => cases h
  next => cases h
  next => cases h

/-- The corpus format round-trips: a program is read back from its text, and what was read from any
text is read back from the text it is then stored as. -/
theorem corpus_round_trip (hn : Names sys) :
    (∀ p : Prog, p.isWellFormed = true → p.Over sys → p.Fits →
      deserializeProg sys (serializeProg p) = .accept p) ∧
    ∀ (t : List Char) (p : Prog), deserializeProg sys t = .accept p →
      deserializeProg sys (serializeProg p) = .accept p := by
  refine ⟨fun p hw hp hf => deserialize_serialize hn hw hp hf, fun t p h => ?_⟩
  obtain ⟨hw, ts, hdec⟩ := deserializeProg_eq_accept h
  obtain ⟨hp, hf⟩ := decProg_over hdec
  exact deserialize_serialize hn hw hp hf

end

/-- The names of the table are distinct tokens. -/
theorem names_SYSCALLS : Names SYSCALLS where
  distinct := by decide +kernel
  token := by
    have h : (SYSCALLS.all fun d => d.name.toList ≠ [] ∧
        d.name.toList.all fun c => isWhitespace c = false) = true := by decide +kernel
    intro d hd
    have := List.all_eq_true.mp h d hd
    simpa [IsToken] using this

/-- `pipe2`, a `write` to the second end with an empty buffer, and a `sendmsg` whose header points to
a name, to two buffers and to nothing. -/
def nestedProg : Prog where
  calls :=
    [⟨SYSCALLS.get ⟨10, by decide⟩, [.ptr (.bytes (List.replicate 8 0)), .imm 0]⟩,
     ⟨SYSCALLS.get ⟨2, by decide⟩, [.res (.produced 0 1), .ptr (.bytes []), .imm (-1)]⟩,
     ⟨SYSCALLS.get ⟨41, by decide⟩,
      [.res (.seed (-1)),
       .ptr (.struct [.ptr (.struct [.imm 2, .bytes [0xAB, 0]]), .imm 16,
         .ptr (.struct [.struct [.ptr (.bytes [1]), .imm 1], .struct [.ptr (.bytes []), .imm 0]]),
         .imm 2, .imm 0, .imm 0, .imm 0]),
       .imm 0x40]⟩]

theorem corpus_round_trip_nestedProg :
    Names SYSCALLS ∧ nestedProg.isWellFormed = true ∧
      deserializeProg SYSCALLS (serializeProg nestedProg) = .accept nestedProg := by
  have hw : nestedProg.isWellFormed = true := by decide +kernel
  refine ⟨names_SYSCALLS, hw, (corpus_round_trip names_SYSCALLS).1 nestedProg hw ?_ ?_⟩
  · intro c hc
    simp only [nestedProg, List.mem_cons, List.not_mem_nil, or_false] at hc
    rcases hc with rfl | rfl | rfl <;> exact List.get_mem _ _
  · refine ⟨by decide, ?_, ?_⟩ <;> intro c hc <;>
      simp only [nestedProg, List.mem_cons, List.not_mem_nil, or_false] at hc <;>
      rcases hc with rfl | rfl | rfl <;> simp [FitsAll, ArgValue.Fits, Allocatable, ELEM_SIZE]

end FuzzSoft
