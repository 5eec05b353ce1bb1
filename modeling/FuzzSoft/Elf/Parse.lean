import FuzzSoft.Lib.Guarded
import FuzzSoft.Lib.Span
import FuzzSoft.Mmu.Bus

/-!
# Parsing an ELF file

`fs_loader::parse`: the program headers give the segments to load, and the symbol tables the address
of `tohost`. Every offset is a sum of header fields, so it is computed with a check: none of them is
ever so large that a word of the host overflows (`safe_parse`).
-/

namespace FuzzSoft

open Lib

/-- A segment to load. -/
structure Segment where
  vaddr : U32
  data : List U8
  memsz : U32
  perm : U8
  deriving DecidableEq

/-- What a file asks to load. -/
structure Program where
  entry : U32
  tohost : Option U32
  segments : List Segment
  deriving DecidableEq

inductive LoadError where
  | truncated
  | badMagic
  | not32BitLe
  | notRiscv
  | notExecutable
  | noLoadSegments
  | map (fault : Fault)
  deriving DecidableEq

def ELFCLASS32 : U8 := 1
def ELFDATA2LSB : U8 := 1
def ET_EXEC : U16 := 2
def ET_DYN : U16 := 3
def EM_RISCV : U16 := 243
def PT_LOAD : U32 := 1
def SHT_SYMTAB : U32 := 2

/-! ## Reading the file -/

abbrev Loading := Guarded LoadError

/-- The sum of two offsets of the host. -/
def usizeAdd {ε : Type} (a b : Nat) : Guarded ε Nat := Guarded.add 64 a b

def usizeMul {ε : Type} (a b : Nat) : Guarded ε Nat := Guarded.mul 64 a b

def Reader.u8 (r : List U8) (off : Nat) : Loading U8 :=
  match r[off]? with
  | some b => pure b
  | none => Guarded.fail .truncated

def Reader.slice (r : List U8) (off len : Nat) : Loading (List U8) := do
  let stop ← usizeAdd off len
  if stop ≤ r.length then pure ((r.drop off).take len) else Guarded.fail .truncated

def Reader.u16 (r : List U8) (off : Nat) : Loading U16 := do
  let b ← Reader.slice r off 2
  pure ((leValue b).setWidth 16)

def Reader.u32 (r : List U8) (off : Nat) : Loading U32 := do
  let b ← Reader.slice r off 4
  pure (leValue b)

/-- The text up to a zero byte. -/
def Reader.cstr (r : List U8) (off : Nat) : List U8 := (r.drop (min off r.length)).takeWhile (· ≠ 0)

/-- A field of a table entry. -/
def Reader.field (r : List U8) (entry off : Nat) : Loading U32 := do
  let pos ← usizeAdd entry off
  Reader.u32 r pos

/-! ## The segments -/

def MAGIC : List U8 := [0x7f, 0x45, 0x4c, 0x46]

/-- The permissions of a segment. -/
def segmentPerm (flags : U32) : U8 :=
  (if flags &&& 0x4 ≠ 0 then PERM_READ else 0) ||| (if flags &&& 0x2 ≠ 0 then PERM_WRITE else 0) |||
    (if flags &&& 0x1 ≠ 0 then PERM_EXEC else 0)

/-- The segment of a program header that is to be loaded. -/
def loadSegment (r : List U8) (ph : Nat) : Loading Segment := do
  let offset ← Reader.field r ph 4
  let vaddr ← Reader.field r ph 8
  let filesz ← Reader.field r ph 16
  let memsz ← Reader.field r ph 20
  let flags ← Reader.field r ph 24
  let data ← Reader.slice r offset.toNat filesz.toNat
  pure ⟨vaddr, data, memsz, segmentPerm flags⟩

/-- The segments of `n` program headers from the `i`th on. -/
def loadSegments (r : List U8) (phoff phentsize : Nat) : Nat → Nat → Loading (List Segment)
  | _, 0 => pure []
  | i, n + 1 => do
    let skip ← usizeMul i phentsize
    let ph ← usizeAdd phoff skip
    let type ← Reader.u32 r ph
    if type ≠ PT_LOAD then loadSegments r phoff phentsize (i + 1) n else do
    let seg ← loadSegment r ph
    let rest ← loadSegments r phoff phentsize (i + 1) n
    pure (seg :: rest)

/-! ## The symbol -/

def TOHOST : List U8 := [0x74, 0x6f, 0x68, 0x6f, 0x73, 0x74]

/-- The value of the symbol among `n` symbols from the `s`th on. -/
def findSymbol (r : List U8) (strOff symOff entsize : Nat) : Nat → Nat → Guarded Unit (Option U32)
  | _, 0 => pure none
  | s, n + 1 => do
    let skip ← usizeMul s entsize
    let sym ← usizeAdd symOff skip
    let name ← Guarded.optional (Reader.u32 r sym)
    let value ← Guarded.optional (Reader.field r sym 4)
    let str ← usizeAdd strOff name.toNat
    if str < r.length ∧ Reader.cstr r str = TOHOST then pure (some value)
    else findSymbol r strOff symOff entsize (s + 1) n

/-- The value of the symbol in the symbol table of a section. -/
def searchTable (r : List U8) (shoff shentsize sh : Nat) : Guarded Unit (Option U32) := do
  let symOff ← Guarded.optional (Reader.field r sh 16)
  let symSize ← Guarded.optional (Reader.field r sh 20)
  let strtabIdx ← Guarded.optional (Reader.field r sh 24)
  let entsize ← Guarded.optional (Reader.field r sh 36)
  let skip ← usizeMul strtabIdx.toNat shentsize
  let strSh ← usizeAdd shoff skip
  let strOff ← Guarded.optional (Reader.field r strSh 16)
  let entsize := max entsize.toNat 16
  findSymbol r strOff.toNat symOff.toNat entsize 0 (symSize.toNat / entsize)

/-- The value of the symbol in `n` sections from the `i`th on. -/
def findSection (r : List U8) (shoff shentsize : Nat) : Nat → Nat → Guarded Unit (Option U32)
  | _, 0 => pure none
  | i, n + 1 => do
    let skip ← usizeMul i shentsize
    let sh ← usizeAdd shoff skip
    let type ← Guarded.optional (Reader.field r sh 4)
    if type ≠ SHT_SYMTAB then findSection r shoff shentsize (i + 1) n else do
    match ← searchTable r shoff shentsize sh with
    | some value => pure (some value)
    | none => findSection r shoff shentsize (i + 1) n

def findTohost (r : List U8) : Guarded Unit (Option U32) := do
  let shoff ← Guarded.optional (Reader.u32 r 32)
  let shentsize ← Guarded.optional (Reader.u16 r 46)
  let shnum ← Guarded.optional (Reader.u16 r 48)
  if shoff = 0 ∨ shnum = 0 then pure none
  else findSection r shoff.toNat shentsize.toNat 0 shnum.toNat

/-- The search gives no address where a table is cut off. -/
def bestEffort (x : Guarded Unit (Option U32)) : Loading (Option U32) :=
  match x with
  | .ok v => pure v
  | .error (some _) => pure none
  | .error none => Guarded.panic

/-! ## The file -/

def parse (bytes : List U8) : Loading Program := do
  let magic ← Reader.slice bytes 0 4
  if magic ≠ MAGIC then Guarded.fail .badMagic else do
  let ident ← Reader.u8 bytes 4
  if ident ≠ ELFCLASS32 then Guarded.fail .not32BitLe else do
  let order ← Reader.u8 bytes 5
  if order ≠ ELFDATA2LSB then Guarded.fail .not32BitLe else do
  let machine ← Reader.u16 bytes 18
  if machine ≠ EM_RISCV then Guarded.fail .notRiscv else do
  let type ← Reader.u16 bytes 16
  if type ≠ ET_EXEC ∧ type ≠ ET_DYN then Guarded.fail .notExecutable else do
  let entry ← Reader.u32 bytes 24
  let phoff ← Reader.u32 bytes 28
  let phentsize ← Reader.u16 bytes 42
  let phnum ← Reader.u16 bytes 44
  let segments ← loadSegments bytes phoff.toNat phentsize.toNat 0 phnum.toNat
  if segments = [] then Guarded.fail .noLoadSegments else do
  let tohost ← bestEffort (findTohost bytes)
  pure ⟨entry, tohost, segments⟩

/-! ## No panic -/

open Guarded (Safe safe_ok safe_pure safe_fail safe_add safe_optional)

section
variable {r : List U8} {off len : Nat}

/-- A sum below 2^64 does not panic. -/
theorem safe_usizeAdd {ε : Type} {a b : Nat} (h : a + b < 2 ^ 64) :
    Safe (usizeAdd a b : Guarded ε Nat) := safe_add.mpr h

/-- A sum that does not panic is that of the numbers. -/
theorem usizeAdd_eq_ok {ε : Type} {a b c : Nat} (h : (usizeAdd a b : Guarded ε Nat) = .ok c) :
    c = a + b := by
  unfold usizeAdd Guarded.add at h
  split at h
  · cases h; rfl
  · cases h

/-- A product that does not panic is that of the numbers. -/
theorem usizeMul_eq_ok {ε : Type} {a b c : Nat} (h : (usizeMul a b : Guarded ε Nat) = .ok c) :
    c = a * b := by
  unfold usizeMul Guarded.mul at h
  split at h
  · cases h; rfl
  · cases h

/-- A product below 2^64 does not panic. -/
theorem safe_usizeMul {ε : Type} {a b : Nat} (h : a * b < 2 ^ 64) :
    Safe (usizeMul a b : Guarded ε Nat) := by
  rw [usizeMul, Guarded.mul_eq h]
  exact safe_ok _

/-- Reading a byte does not panic. -/
theorem safe_u8 : Safe (Reader.u8 r off) := by
  unfold Reader.u8
  split
  · exact safe_pure _
  · exact safe_fail _

/-- Reading a slice does not panic if its end is a number. -/
theorem safe_slice (h : off + len < 2 ^ 64) : Safe (Reader.slice r off len) := by
  refine (safe_usizeAdd h).bind fun stop _ => ?_
  split
  · exact safe_pure _
  · exact safe_fail _

/-- Reading a halfword does not panic. -/
theorem safe_u16 (h : off + 2 < 2 ^ 64) : Safe (Reader.u16 r off) :=
  (safe_slice h).bind fun _ _ => safe_pure _

/-- Reading a word does not panic. -/
theorem safe_u32 (h : off + 4 < 2 ^ 64) : Safe (Reader.u32 r off) :=
  (safe_slice h).bind fun _ _ => safe_pure _

/-- A field of a table entry that begins below `2 ^ 49`. -/
theorem safe_field {entry : Nat} (h : entry < 2 ^ 49) (hoff : off < 64) :
    Safe (Reader.field r entry off) := by
  refine (safe_usizeAdd (by omega)).bind fun pos hpos => safe_u32 ?_
  rw [usizeAdd_eq_ok hpos]
  omega

/-- Reading a program header does not panic. -/
theorem safe_loadSegment {ph : Nat} (h : ph < 2 ^ 49) : Safe (loadSegment r ph) := by
  refine (safe_field h (by decide)).bind fun offset _ => ?_
  refine (safe_field h (by decide)).bind fun vaddr _ => ?_
  refine (safe_field h (by decide)).bind fun filesz _ => ?_
  refine (safe_field h (by decide)).bind fun memsz _ => ?_
  refine (safe_field h (by decide)).bind fun flags _ => ?_
  have := offset.isLt
  have := filesz.isLt
  exact (safe_slice (by omega)).bind fun data _ => safe_pure _

/-- An entry of a table of less than `2 ^ 32` entries. -/
theorem entry_lt {i n size : Nat} (hi : i < n) (hn : n ≤ 2 ^ 32) (hs : size < 2 ^ 16) :
    i * size < 2 ^ 48 :=
  calc i * size ≤ i * 2 ^ 16 := Nat.mul_le_mul_left i (Nat.le_of_lt hs)
    _ < 2 ^ 48 := by omega

/-- Nor does reading all of them. -/
theorem safe_loadSegments {phoff phentsize : Nat} (hoff : phoff < 2 ^ 32)
    (hsize : phentsize < 2 ^ 16) : ∀ (n i : Nat), i + n ≤ 2 ^ 32 →
    Safe (loadSegments r phoff phentsize i n) := by
  intro n
  induction n with
  | zero => exact fun i _ => safe_pure _
  | succ n ih =>
    intro i hi
    have hlt := entry_lt (show i < i + (n + 1) by omega) hi hsize
    refine (safe_usizeMul (by omega)).bind fun skip hskip => ?_
    rw [← usizeMul_eq_ok hskip] at hlt
    refine (safe_usizeAdd (by omega)).bind fun ph hph => ?_
    have hph := usizeAdd_eq_ok hph
    refine (safe_u32 (by omega)).bind fun type _ => ?_
    split
    · exact ih (i + 1) (by omega)
    · refine (safe_loadSegment (by omega)).bind fun seg _ => ?_
      exact (ih (i + 1) (by omega)).bind fun rest _ => safe_pure _

/-- The search of a symbol table does not panic. -/
theorem safe_findSymbol {strOff symOff entsize size : Nat} (hstr : strOff < 2 ^ 32)
    (hsym : symOff < 2 ^ 32) (hsize : size < 2 ^ 32) : ∀ (n s : Nat), s + n ≤ size / entsize →
    Safe (findSymbol r strOff symOff entsize s n) := by
  intro n
  induction n with
  | zero => exact fun s _ => safe_pure _
  | succ n ih =>
    intro s hs
    have hlt : s * entsize ≤ size :=
      calc s * entsize ≤ size / entsize * entsize := Nat.mul_le_mul_right _ (by omega)
        _ ≤ size := Nat.div_mul_le_self _ _
    refine (safe_usizeMul (by omega)).bind fun skip hskip => ?_
    rw [← usizeMul_eq_ok hskip] at hlt
    refine (safe_usizeAdd (by omega)).bind fun sym hsym => ?_
    have hsym := usizeAdd_eq_ok hsym
    refine (safe_optional (safe_u32 (by omega))).bind fun name _ => ?_
    refine (safe_optional (safe_field (by omega) (by decide))).bind fun value _ => ?_
    have := name.isLt
    refine (safe_usizeAdd (by omega)).bind fun str _ => ?_
    split
    · exact safe_pure _
    · exact ih (s + 1) (by omega)

/-- Nor does reading where it is. -/
theorem safe_searchTable {shoff shentsize sh : Nat} (hoff : shoff < 2 ^ 32)
    (hsize : shentsize < 2 ^ 16) (hsh : sh < 2 ^ 49) :
    Safe (searchTable r shoff shentsize sh) := by
  refine (safe_optional (safe_field hsh (by decide))).bind fun symOff _ => ?_
  refine (safe_optional (safe_field hsh (by decide))).bind fun symSize _ => ?_
  refine (safe_optional (safe_field hsh (by decide))).bind fun strtabIdx _ => ?_
  refine (safe_optional (safe_field hsh (by decide))).bind fun entsize _ => ?_
  have hlt := entry_lt strtabIdx.isLt (Nat.le_refl _) hsize
  refine (safe_usizeMul (by omega)).bind fun skip hskip => ?_
  rw [← usizeMul_eq_ok hskip] at hlt
  refine (safe_usizeAdd (by omega)).bind fun strSh hstrSh => ?_
  have hstrSh := usizeAdd_eq_ok hstrSh
  refine (safe_optional (safe_field (by omega) (by decide))).bind fun strOff _ => ?_
  exact safe_findSymbol strOff.isLt symOff.isLt symSize.isLt _ 0 (by omega)

/-- Nor does the search for its section. -/
theorem safe_findSection {shoff shentsize : Nat} (hoff : shoff < 2 ^ 32)
    (hsize : shentsize < 2 ^ 16) : ∀ (n i : Nat), i + n ≤ 2 ^ 32 →
    Safe (findSection r shoff shentsize i n) := by
  intro n
  induction n with
  | zero => exact fun i _ => safe_pure _
  | succ n ih =>
    intro i hi
    have hlt := entry_lt (show i < i + (n + 1) by omega) hi hsize
    refine (safe_usizeMul (by omega)).bind fun skip hskip => ?_
    rw [← usizeMul_eq_ok hskip] at hlt
    refine (safe_usizeAdd (by omega)).bind fun sh hsh => ?_
    have hsh := usizeAdd_eq_ok hsh
    refine (safe_optional (safe_field (by omega) (by decide))).bind fun type _ => ?_
    split
    · exact ih (i + 1) (by omega)
    · refine (safe_searchTable hoff hsize (by omega)).bind fun found _ => ?_
      cases found with
      | some value => exact safe_pure _
      | none => exact ih (i + 1) (by omega)

/-- Nor does the search for `tohost`. -/
theorem safe_findTohost : Safe (findTohost r) := by
  refine (safe_optional (safe_u32 (by decide))).bind fun shoff _ => ?_
  refine (safe_optional (safe_u16 (by decide))).bind fun shentsize _ => ?_
  refine (safe_optional (safe_u16 (by decide))).bind fun shnum _ => ?_
  split
  · exact safe_pure _
  · have := shnum.isLt
    exact safe_findSection shoff.isLt shentsize.isLt _ 0 (by omega)

/-- A search whose failure is ignored does not panic if it does not. -/
theorem safe_bestEffort {x : Guarded Unit (Option U32)} (hx : Safe x) : Safe (bestEffort x) := by
  match x, hx with
  | .ok v, _ => exact safe_pure v
  | .error (some _), _ => exact safe_pure none

/-- No file makes the parser panic. -/
theorem safe_parse (bytes : List U8) : Safe (parse bytes) := by
  refine (safe_slice (by decide)).bind fun magic _ => ?_
  split
  · exact safe_fail _
  refine safe_u8.bind fun ident _ => ?_
  split
  · exact safe_fail _
  refine safe_u8.bind fun order _ => ?_
  split
  · exact safe_fail _
  refine (safe_u16 (by decide)).bind fun machine _ => ?_
  split
  · exact safe_fail _
  refine (safe_u16 (by decide)).bind fun type _ => ?_
  split
  · exact safe_fail _
  refine (safe_u32 (by decide)).bind fun entry _ => ?_
  refine (safe_u32 (by decide)).bind fun phoff _ => ?_
  refine (safe_u16 (by decide)).bind fun phentsize _ => ?_
  refine (safe_u16 (by decide)).bind fun phnum _ => ?_
  have := phnum.isLt
  refine (safe_loadSegments phoff.isLt phentsize.isLt _ 0 (by omega)).bind fun segments _ => ?_
  split
  · exact safe_fail _
  · exact (safe_bestEffort safe_findTohost).bind fun tohost _ => safe_pure _

end

end FuzzSoft
