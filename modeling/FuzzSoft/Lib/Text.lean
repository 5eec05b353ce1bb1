import Mathlib.Data.List.Basic
import Mathlib.Data.BitVec
import Mathlib.Tactic.IntervalCases

/-!
# Text

The standard text functions a line format rests on: splitting at white space, printing and parsing
integers in decimal and bytes in hexadecimal. A text is a list of characters. Parsing accepts what
`str::parse` does: a leading `+`, for signed integers a leading `-`, and at least one digit.
-/

namespace Lib

/-! ## White space -/

/-- The characters with the Unicode property `White_Space`. -/
def isWhitespace (c : Char) : Bool :=
  let n := c.toNat
  (0x9 ≤ n && n ≤ 0xD) || n = 0x20 || n = 0x85 || n = 0xA0 || n = 0x1680 ||
    (0x2000 ≤ n && n ≤ 0x200A) || n = 0x2028 || n = 0x2029 || n = 0x202F || n = 0x205F || n = 0x3000

/-- The non-empty stretches between white space. -/
def splitWhitespace (s : List Char) : List (List Char) :=
  (s.splitOnP isWhitespace).filter (· ≠ [])

/-- A text that splitting at white space leaves in one piece. -/
def IsToken (s : List Char) : Prop := s ≠ [] ∧ ∀ c ∈ s, isWhitespace c = false

/-- The same as a test of every character. -/
theorem isToken_of_all {s : List Char} (hne : s ≠ []) (h : (s.all fun c => !isWhitespace c) = true) :
    IsToken s :=
  ⟨hne, fun c hc => Bool.not_eq_true' _ ▸ List.all_eq_true.1 h c hc⟩

/-- A token is not split. -/
theorem splitWhitespace_token {s : List Char} (h : IsToken s) : splitWhitespace s = [s] := by
  rw [splitWhitespace, List.splitOnP_eq_singleton h.2]
  simp [h.1]

/-- Splitting undoes joining with blanks. -/
theorem splitWhitespace_intercalate {toks : List (List Char)} (h : ∀ t ∈ toks, IsToken t) :
    splitWhitespace ([' '].intercalate toks) = toks := by
  induction toks with
  | nil => rfl
  | cons t toks ih =>
    cases toks with
    | nil => simpa using splitWhitespace_token (h t List.mem_cons_self)
    | cons u toks =>
      have ht := h t List.mem_cons_self
      have hrest := ih fun v hv => h v (List.mem_cons_of_mem _ hv)
      rw [List.intercalate_cons_cons, splitWhitespace, List.append_assoc, List.singleton_append,
        List.splitOnP_append_cons_of_forall_mem ht.2 ' ' rfl,
        List.filter_cons_of_pos (by simp [ht.1])]
      exact congrArg (t :: ·) hrest

/-! ## Decimal -/

/-- A number without sign. -/
def parseDigits (s : List Char) : Option Nat :=
  if s ≠ [] ∧ s.all Char.isDigit then some (Nat.ofDigitChars 10 s 0) else none

/-- A number with an optional plus sign. -/
def parseNat : List Char → Option Nat
  | '+' :: s => parseDigits s
  | s => parseDigits s

/-- An unsigned machine integer. -/
def parseUnsigned (w : Nat) (s : List Char) : Option (BitVec w) :=
  (parseNat s).bind fun n => if n < 2 ^ w then some (BitVec.ofNat w n) else none

/-- A signed machine integer. -/
def parseSigned (w : Nat) : List Char → Option (BitVec w)
  | '-' :: s => (parseDigits s).bind fun n =>
    if n ≤ 2 ^ (w - 1) then some (BitVec.ofInt w (-n)) else none
  | s => (parseNat s).bind fun n => if n < 2 ^ (w - 1) then some (BitVec.ofNat w n) else none

def showNat (n : Nat) : List Char := Nat.toDigits 10 n

def showInt : Int → List Char
  | .ofNat n => showNat n
  | .negSucc n => '-' :: showNat (n + 1)

/-- A number is written in digits. -/
theorem isDigit_showNat {n : Nat} {c : Char} (h : c ∈ showNat n) : c.isDigit = true :=
  Nat.isDigit_of_mem_toDigits (by decide) (by decide) h

/-- Its digits are read back. -/
theorem parseDigits_showNat (n : Nat) : parseDigits (showNat n) = some n := by
  have hall : (showNat n).all Char.isDigit = true := List.all_eq_true.mpr fun _ => isDigit_showNat
  have hne : showNat n ≠ [] := Nat.toDigits_ne_nil
  rw [parseDigits, if_pos ⟨hne, hall⟩, showNat, Nat.ofDigitChars_ten_toDigits]

/-- A printed number starts with a digit. -/
theorem showNat_eq_cons (n : Nat) : ∃ c s, showNat n = c :: s ∧ c.isDigit = true := by
  cases h : showNat n with
  | nil => exact absurd h Nat.toDigits_ne_nil
  | cons c s => exact ⟨c, s, rfl, isDigit_showNat (h ▸ List.mem_cons_self)⟩

/-- So is the number. -/
theorem parseNat_showNat (n : Nat) : parseNat (showNat n) = some n := by
  obtain ⟨c, s, hs, hc⟩ := showNat_eq_cons n
  have hplus : c ≠ '+' := by rintro rfl; cases hc
  rw [← parseDigits_showNat n, hs, parseNat]
  intro s' h
  exact hplus (List.cons.inj h).1

/-- So is an unsigned word. -/
theorem parseUnsigned_showNat {w : Nat} (v : BitVec w) :
    parseUnsigned w (showNat v.toNat) = some v := by
  simp [parseUnsigned, parseNat_showNat, v.isLt]

/-- So is a signed one. -/
theorem parseSigned_showInt {w : Nat} (v : BitVec w) :
    parseSigned w (showInt v.toInt) = some v := by
  have hlo := BitVec.le_toInt v
  have hhi := BitVec.toInt_lt (x := v)
  cases hv : v.toInt with
  | ofNat n =>
    rw [hv] at hhi
    obtain ⟨c, s, hs, hc⟩ := showNat_eq_cons n
    have hminus : c ≠ '-' := by rintro rfl; cases hc
    have hn : n < 2 ^ (w - 1) := by
      have : (n : Int) < 2 ^ (w - 1) := hhi
      exact_mod_cast this
    have heq : parseSigned w (showNat n) = (parseNat (showNat n)).bind fun n =>
        if n < 2 ^ (w - 1) then some (BitVec.ofNat w n) else none := by
      rw [hs, parseSigned]
      intro s' h
      exact hminus (List.cons.inj h).1
    rw [showInt, heq, parseNat_showNat, Option.bind_some, if_pos hn]
    have hof : BitVec.ofInt w v.toInt = v := BitVec.ofInt_toInt
    rw [← hof, hv]
    rfl
  | negSucc n =>
    rw [hv] at hlo
    have hn : n + 1 ≤ 2 ^ (w - 1) := by
      have : -(2 : Int) ^ (w - 1) ≤ -(n + 1 : Nat) := hlo
      have : ((n + 1 : Nat) : Int) ≤ 2 ^ (w - 1) := by omega
      exact_mod_cast this
    rw [showInt, parseSigned, parseDigits_showNat, Option.bind_some, if_pos hn]
    have hof : BitVec.ofInt w v.toInt = v := BitVec.ofInt_toInt
    rw [← hof, hv]
    rfl

/-- What a token is made of. -/
theorem isWhitespace_of_isDigit {c : Char} (h : c.isDigit = true) : isWhitespace c = false := by
  have hc := Char.isDigit_iff_toNat.mp h
  simp only [Char.reduceToNat] at hc
  simp only [isWhitespace, Bool.or_eq_false_iff, Bool.and_eq_false_iff, decide_eq_false_iff_not]
  omega

/-! ## Hexadecimal -/

/-- The bytes of a text. -/
def utf8 (s : List Char) : List UInt8 := s.flatMap String.utf8EncodeChar

/-- A byte as two hexadecimal digits. -/
def showHex (b : BitVec 8) : List Char :=
  [Nat.digitChar (b.toNat / 16), Nat.digitChar (b.toNat % 16)]

/-- The value of a hexadecimal digit. -/
def hexDigit (c : UInt8) : Option Nat :=
  let n := c.toNat
  if 0x30 ≤ n ∧ n ≤ 0x39 then some (n - 0x30)
  else if 0x41 ≤ n ∧ n ≤ 0x46 then some (n - 0x41 + 10)
  else if 0x61 ≤ n ∧ n ≤ 0x66 then some (n - 0x61 + 10)
  else none

/-- A byte from two characters of text: two digits, or a plus sign and a digit. -/
def parseHexPair (a b : UInt8) : Option (BitVec 8) :=
  if a = 0x2B then (hexDigit b).map (BitVec.ofNat 8)
  else do
    let hi ← hexDigit a
    let lo ← hexDigit b
    pure (BitVec.ofNat 8 (16 * hi + lo))

/-- The bytes of an even number of characters. -/
def parseHex : List UInt8 → Option (List (BitVec 8))
  | [] => some []
  | [_] => none
  | a :: b :: s => do
    let v ← parseHexPair a b
    let vs ← parseHex s
    pure (v :: vs)

/-- A digit is one byte. -/
theorem utf8_digitChar (n : Nat) (hn : n < 16) :
    ∃ c, String.utf8EncodeChar (Nat.digitChar n) = [c] ∧ c ≠ 0x2B ∧ hexDigit c = some n := by
  interval_cases n <;> exact ⟨_, rfl, by decide, rfl⟩

/-- Bytes in hexadecimal are read back. -/
theorem parseHex_showHex (bs : List (BitVec 8)) : parseHex (utf8 (bs.flatMap showHex)) = some bs := by
  induction bs with
  | nil => rfl
  | cons v bs ih =>
    obtain ⟨a, ha, hplus, hhi⟩ := utf8_digitChar (v.toNat / 16) (by omega)
    obtain ⟨b, hb, -, hlo⟩ := utf8_digitChar (v.toNat % 16) (by omega)
    have hv : BitVec.ofNat 8 (16 * (v.toNat / 16) + v.toNat % 16) = v := by
      rw [Nat.div_add_mod, BitVec.ofNat_toNat, BitVec.setWidth_eq]
    have hpair : parseHexPair a b = some v := by simp [parseHexPair, hplus, hhi, hlo, hv]
    have hutf : utf8 ((v :: bs).flatMap showHex) = a :: b :: utf8 (bs.flatMap showHex) := by
      simp [utf8, showHex, ha, hb]
    rw [hutf, parseHex, hpair, ih]
    rfl

end Lib
