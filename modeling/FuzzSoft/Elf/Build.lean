import FuzzSoft.Elf.Load
import FuzzSoft.Lib.Pieces

/-!
# Building an ELF file

`build_flat_elf` and `build_diff_elf` write a file of one segment: the headers, the segment at
`CODE_OFFSET`, string and symbol tables behind it, and the section headers that point to them. Every
offset is a word of 32 bits computed with a check, and none is given where one of them overflows.
What is built parses to what it was built from (`elf_round_trip`).
-/

namespace FuzzSoft

open Lib

def EHSIZE : U32 := 52
def PHENTSIZE : U32 := 32
def SHENTSIZE : U32 := 40
def CODE_OFFSET : U32 := 0x1000

/-- The next multiple of four. -/
def align4 (x : U32) : Option U32 := (Checked.add x 3).map (· &&& ~~~3)

/-- Cut or fill with zeros. -/
def resize (b : List U8) (n : Nat) : List U8 := b.take n ++ List.replicate (n - b.length) 0

def elfHeader (entry shoff shnum shstrndx : U32) : List U8 :=
  MAGIC ++ [1, 1, 1, 0] ++ List.replicate 8 0 ++ leBytes 2 2 ++ leBytes 243 2 ++ leBytes 1 4 ++
    leBytes entry 4 ++ leBytes EHSIZE 4 ++ leBytes shoff 4 ++ leBytes 0 4 ++ leBytes EHSIZE 2 ++
    leBytes PHENTSIZE 2 ++ leBytes 1 2 ++ leBytes SHENTSIZE 2 ++ leBytes shnum 2 ++
    leBytes shstrndx 2

/-- The header of a segment to be read, written and executed. -/
def programHeader (vaddr len : U32) : List U8 :=
  leBytes 1 4 ++ leBytes CODE_OFFSET 4 ++ leBytes vaddr 4 ++ leBytes vaddr 4 ++ leBytes len 4 ++
    leBytes len 4 ++ leBytes 7 4 ++ leBytes 0x1000 4

def shdr (name typ off size link info align entsize : U32) : List U8 :=
  leBytes name 4 ++ leBytes typ 4 ++ leBytes 0 4 ++ leBytes 0 4 ++ leBytes off 4 ++ leBytes size 4 ++
    leBytes link 4 ++ leBytes info 4 ++ leBytes align 4 ++ leBytes entsize 4

/-- A global object at an absolute address. -/
def sym (name value : U32) : List U8 :=
  leBytes name 4 ++ leBytes value 4 ++ leBytes 8 4 ++ [0x11, 0] ++ leBytes 0xfff1 2

/-! ## The files -/

/-- The headers, and the segment where they say. -/
def withSegment (shoff shnum shstrndx vaddr : U32) (segment : List U8) : List U8 :=
  let len := BitVec.ofNat 32 segment.length
  resize (elfHeader vaddr shoff shnum shstrndx ++ programHeader vaddr len) CODE_OFFSET.toNat ++ segment

def FLAT_SHSTRTAB : List U8 := [0, 0x2e, 0x73, 0x68, 0x73, 0x74, 0x72, 0x74, 0x61, 0x62, 0]

/-- The file once its offsets are known. -/
def flatFile (loadVaddr : U32) (code : List U8) (shstrtabOff shoff : U32) : List U8 :=
  let b := withSegment shoff 2 1 loadVaddr code ++ FLAT_SHSTRTAB
  resize b shoff.toNat ++ List.replicate 40 0 ++
    shdr 1 3 shstrtabOff (BitVec.ofNat 32 FLAT_SHSTRTAB.length) 0 0 1 0

def buildFlatElf (loadVaddr : U32) (code : List U8) : Option (List U8) := do
  let shstrtabOff ← Checked.add CODE_OFFSET (BitVec.ofNat 32 code.length)
  let stop ← Checked.add shstrtabOff (BitVec.ofNat 32 FLAT_SHSTRTAB.length)
  let shoff ← align4 stop
  some (flatFile loadVaddr code shstrtabOff shoff)

/-- The names `tohost`, at 1, and `fromhost`, at 8. -/
def STRTAB : List U8 :=
  [0, 0x74, 0x6f, 0x68, 0x6f, 0x73, 0x74, 0, 0x66, 0x72, 0x6f, 0x6d, 0x68, 0x6f, 0x73, 0x74, 0]

/-- The names `.symtab`, at 1, `.strtab`, at 9, and `.shstrtab`, at 17. -/
def SHSTRTAB : List U8 :=
  [0, 0x2e, 0x73, 0x79, 0x6d, 0x74, 0x61, 0x62, 0, 0x2e, 0x73, 0x74, 0x72, 0x74, 0x61, 0x62, 0,
    0x2e, 0x73, 0x68, 0x73, 0x74, 0x72, 0x74, 0x61, 0x62, 0]

def SYMTAB_SIZE : U32 := 48

/-- The symbol table. -/
def symtab (tohostVaddr fromhost : U32) : List U8 :=
  List.replicate 16 0 ++ sym 1 tohostVaddr ++ sym 8 fromhost

/-- The section headers. -/
def sections (symtabOff strtabOff shstrtabOff : U32) : List U8 :=
  List.replicate 40 0 ++ shdr 1 2 symtabOff SYMTAB_SIZE 2 1 4 16 ++
    shdr 9 3 strtabOff (BitVec.ofNat 32 STRTAB.length) 0 0 1 0 ++
    shdr 17 3 shstrtabOff (BitVec.ofNat 32 SHSTRTAB.length) 0 0 1 0

def diffFile (entry : U32) (segment : List U8) (tohostVaddr fromhost : U32)
    (symtabOff strtabOff shstrtabOff shoff : U32) : List U8 :=
  let b := withSegment shoff 4 3 entry segment
  let b := resize b symtabOff.toNat ++ symtab tohostVaddr fromhost ++ STRTAB ++ SHSTRTAB
  resize b shoff.toNat ++ sections symtabOff strtabOff shstrtabOff

def buildDiffElf (entry : U32) (segment : List U8) (tohostVaddr : U32) : Option (List U8) := do
  let segEnd ← Checked.add CODE_OFFSET (BitVec.ofNat 32 segment.length)
  let symtabOff ← align4 segEnd
  let strtabOff ← Checked.add symtabOff SYMTAB_SIZE
  let shstrtabOff ← Checked.add strtabOff (BitVec.ofNat 32 STRTAB.length)
  let stop ← Checked.add shstrtabOff (BitVec.ofNat 32 SHSTRTAB.length)
  let shoff ← align4 stop
  let fromhost ← Checked.add tohostVaddr 8
  some (diffFile entry segment tohostVaddr fromhost symtabOff strtabOff shstrtabOff shoff)

/-! ## Reading what was written -/

section
variable {file bs : List U8} {off k : Nat} {v : U32}

open Guarded (bind_ok)

/-- A file whose offsets are words of the host. -/
def Short (file : List U8) : Prop := file.length < 2 ^ 63

/-- Sums of offsets of a short file do not overflow. -/
theorem Short.usizeAdd {ε : Type} (hs : Short file) {a b : Nat} (h : a ≤ file.length)
    (hb : b ≤ 2 ^ 62) : (FuzzSoft.usizeAdd a b : Guarded ε Nat) = .ok (a + b) := by
  unfold Short at hs
  exact Guarded.add_eq (by omega)

/-- The reader finds a piece that stands in the file. -/
theorem slice_of (hs : Short file) (h : PieceAt file off bs) :
    Reader.slice file off bs.length = .ok bs := by
  have hle := h.le_length
  have hlt : off + bs.length < 2 ^ 64 := by
    unfold Short at hs
    omega
  rw [Reader.slice, usizeAdd, Guarded.add_eq hlt]
  refine (bind_ok rfl).trans ?_
  rw [if_pos hle, h.take_drop]
  rfl

/-- It reads a byte of the piece. -/
theorem u8_of {b : U8} (h : PieceAt file off bs) (hk : bs[k]? = some b) :
    Reader.u8 file (off + k) = .ok b := by
  rw [Reader.u8, h.getElem?_eq (List.getElem?_eq_some_iff.1 hk).1, hk]
  rfl

/-- A part of a piece is read as it was written. -/
theorem slice_part (hs : Short file) (h : PieceAt file off bs) {p : List U8}
    (hpart : (bs.drop k).take p.length = p) (hne : p ≠ []) :
    Reader.slice file (off + k) p.length = .ok p := by
  have hk : k ≤ bs.length := by
    by_contra hk
    rw [List.drop_eq_nil_of_le (by omega), List.take_nil] at hpart
    exact hne hpart.symm
  have hpiece := h.window k p.length hk
  rw [hpart] at hpiece
  exact slice_of hs hpiece

/-- It reads a word of the piece. -/
theorem u32_of (hs : Short file) (h : PieceAt file off bs)
    (hv : (bs.drop k).take 4 = leBytes v 4) : Reader.u32 file (off + k) = .ok v := by
  have hpart : (bs.drop k).take (leBytes v 4).length = leBytes v 4 := by
    rw [length_leBytes]
    exact hv
  have hslice := slice_part hs h hpart (List.ne_nil_of_length_pos (by rw [length_leBytes]; decide))
  rw [length_leBytes] at hslice
  rw [Reader.u32, bind_ok hslice, leValue_leBytes]
  rfl

/-- It reads a halfword of the piece. -/
theorem u16_of (hs : Short file) (h : PieceAt file off bs) {p : List U8} {w : U16}
    (hpart : (bs.drop k).take 2 = p) (hlen : p.length = 2) (hw : (leValue p).setWidth 16 = w) :
    Reader.u16 file (off + k) = .ok w := by
  have hslice := slice_part hs h (by rwa [hlen]) (List.ne_nil_of_length_pos (by omega))
  rw [hlen] at hslice
  rw [Reader.u16, bind_ok hslice, hw]
  rfl

/-- It reads a field of a header. -/
theorem field_of (hs : Short file) (h : PieceAt file off bs) (hk : k < 64) (hoff : off ≤ file.length)
    (hv : (bs.drop k).take 4 = leBytes v 4) : Reader.field file off k = .ok v := by
  rw [Reader.field, bind_ok (hs.usizeAdd hoff (by omega))]
  exact u32_of hs h hv

/-! ## The headers read back -/

section
variable {entry shoff shnum shstrndx vaddr len : U32}

/-- The ELF header has 52 bytes. -/
theorem length_elfHeader : (elfHeader entry shoff shnum shstrndx).length = 52 := rfl

/-- A program header has 32 bytes. -/
theorem length_programHeader : (programHeader vaddr len).length = 32 := rfl

/-- The parser passes the header, and finds one program header behind it. -/
theorem parse_of_header (hs : Short file) (h : PieceAt file 0 (elfHeader entry shoff shnum shstrndx))
    {segments : List Segment} {tohost : Option U32}
    (hsegs : loadSegments file 52 32 0 1 = .ok segments) (hne : segments ≠ [])
    (hto : bestEffort (findTohost file) = .ok tohost) :
    parse file = .ok ⟨entry, tohost, segments⟩ := by
  have hmagic : Reader.slice file 0 4 = .ok MAGIC := slice_part (k := 0) (p := MAGIC) hs h rfl nofun
  have hident : Reader.u8 file 4 = .ok ELFCLASS32 := u8_of (k := 4) h rfl
  have horder : Reader.u8 file 5 = .ok ELFDATA2LSB := u8_of (k := 5) h rfl
  have hmachine : Reader.u16 file 18 = .ok EM_RISCV := u16_of (k := 18) (p := [243, 0]) hs h rfl rfl (by decide)
  have htype : Reader.u16 file 16 = .ok ET_EXEC := u16_of (k := 16) (p := [2, 0]) hs h rfl rfl (by decide)
  have hentry : Reader.u32 file 24 = .ok entry := u32_of (k := 24) hs h rfl
  have hphoff : Reader.u32 file 28 = .ok EHSIZE := u32_of (k := 28) hs h rfl
  have hphentsize : Reader.u16 file 42 = .ok 32 := u16_of (k := 42) (p := [32, 0]) hs h rfl rfl (by decide)
  have hphnum : Reader.u16 file 44 = .ok 1 := u16_of (k := 44) (p := [1, 0]) hs h rfl rfl (by decide)
  rw [parse, bind_ok hmagic, if_neg (not_not.2 rfl), bind_ok hident, if_neg (not_not.2 rfl),
    bind_ok horder, if_neg (not_not.2 rfl), bind_ok hmachine, if_neg (not_not.2 rfl),
    bind_ok htype, if_neg (fun h => h.1 rfl), bind_ok hentry, bind_ok hphoff, bind_ok hphentsize,
    bind_ok hphnum]
  refine (bind_ok hsegs).trans ?_
  rw [if_neg hne, bind_ok hto]
  rfl

/-- The segment of the program header. -/
theorem loadSegments_of_header (hs : Short file) (h : PieceAt file 52 (programHeader vaddr len))
    {segment : List U8} (hseg : Reader.slice file 0x1000 len.toNat = .ok segment) :
    loadSegments file 52 32 0 1 = .ok [⟨vaddr, segment, len, PERM_READ ||| PERM_WRITE ||| PERM_EXEC⟩] := by
  have hle : 52 ≤ file.length := (Nat.le_add_right _ _).trans h.le_length
  have htype : Reader.u32 file 52 = .ok PT_LOAD := u32_of (k := 0) hs h rfl
  have hoffset : Reader.field file 52 4 = .ok CODE_OFFSET := field_of hs h (by decide) hle rfl
  have hvaddr : Reader.field file 52 8 = .ok vaddr := field_of hs h (by decide) hle rfl
  have hfilesz : Reader.field file 52 16 = .ok len := field_of hs h (by decide) hle rfl
  have hmemsz : Reader.field file 52 20 = .ok len := field_of hs h (by decide) hle rfl
  have hflags : Reader.field file 52 24 = .ok 7 := field_of hs h (by decide) hle rfl
  have hload : loadSegment file 52 =
      .ok ⟨vaddr, segment, len, PERM_READ ||| PERM_WRITE ||| PERM_EXEC⟩ := by
    rw [loadSegment, bind_ok hoffset, bind_ok hvaddr, bind_ok hfilesz, bind_ok hmemsz,
      bind_ok hflags]
    refine (bind_ok hseg).trans ?_
    rfl
  have hskip : (usizeMul 0 32 : Loading Nat) = .ok 0 := rfl
  have hph : (usizeAdd 52 0 : Loading Nat) = .ok 52 := rfl
  rw [loadSegments, bind_ok hskip, bind_ok hph, bind_ok htype, if_neg (not_not.2 rfl), bind_ok hload]
  rfl

/-- The search for the symbol begins at the first section header. -/
theorem findTohost_of_header (hs : Short file)
    (h : PieceAt file 0 (elfHeader entry shoff shnum shstrndx)) (hoff : shoff ≠ 0) {n : U16}
    (hn : (leValue (leBytes shnum 2)).setWidth 16 = n) (hpos : n ≠ 0) :
    findTohost file = findSection file shoff.toNat 40 0 n.toNat := by
  have hshoff : Reader.u32 file 32 = .ok shoff := u32_of (k := 32) hs h rfl
  have hshentsize : Reader.u16 file 46 = .ok 40 :=
    u16_of (k := 46) (p := [40, 0]) hs h rfl rfl (by decide)
  have hshnum : Reader.u16 file 48 = .ok n :=
    u16_of (k := 48) (p := leBytes shnum 2) hs h rfl (length_leBytes _ _) hn
  rw [findTohost, hshoff, hshentsize, hshnum]
  refine (bind_ok rfl).trans ((bind_ok rfl).trans ((bind_ok rfl).trans ?_))
  rw [if_neg (not_or.2 ⟨hoff, hpos⟩)]
  rfl

end

/-! ## The symbol read back -/

section
variable {name typ pos size link info align entsize : U32} {shoff i n sh : Nat}

/-- A section header has 40 bytes. -/
theorem length_shdr : (shdr name typ pos size link info align entsize).length = 40 := rfl

/-- The place of a section header is computed without overflow. -/
theorem entry_of (hs : Short file) (h : PieceAt file (shoff + i * 40) bs) :
    (usizeMul i 40 : Guarded Unit Nat) = .ok (i * 40) ∧
      (usizeAdd shoff (i * 40) : Guarded Unit Nat) = .ok (shoff + i * 40) := by
  have hle := h.le_length
  unfold Short at hs
  exact ⟨Guarded.mul_eq (by omega), Guarded.add_eq (by omega)⟩

/-- A read that succeeds is present. -/
theorem optional_of {x : Loading U32} (h : x = .ok v) : Guarded.optional x = .ok v := by
  rw [h]
  rfl

/-- The type of a section header. -/
theorem typ_of (hs : Short file)
    (h : PieceAt file sh (shdr name typ pos size link info align entsize)) :
    Reader.field file sh 4 = .ok typ :=
  field_of hs h (by decide) ((Nat.le_add_right _ _).trans h.le_length) rfl

/-- A section that is not a symbol table is passed over. -/
theorem findSection_skip (hs : Short file)
    (h : PieceAt file (shoff + i * 40) (shdr name typ pos size link info align entsize))
    (htyp : typ ≠ SHT_SYMTAB) :
    findSection file shoff 40 i (n + 1) = findSection file shoff 40 (i + 1) n := by
  obtain ⟨hmul, hadd⟩ := entry_of hs h
  rw [findSection, bind_ok hmul, bind_ok hadd, bind_ok (optional_of (typ_of hs h)), if_pos htyp]

/-- The search ends in a symbol table that has the symbol. -/
theorem findSection_found (hs : Short file)
    (h : PieceAt file (shoff + i * 40) (shdr name SHT_SYMTAB pos size link info align entsize))
    (hfound : searchTable file shoff 40 (shoff + i * 40) = .ok (some v)) :
    findSection file shoff 40 i (n + 1) = .ok (some v) := by
  obtain ⟨hmul, hadd⟩ := entry_of hs h
  rw [findSection, bind_ok hmul, bind_ok hadd, bind_ok (optional_of (typ_of hs h)),
    if_neg (not_not.2 rfl), bind_ok hfound]
  rfl

/-- The symbols of a table, and the names in the table it is linked to. -/
theorem searchTable_of (hs : Short file)
    (h : PieceAt file sh (shdr name typ pos size link info align entsize))
    {name' typ' strOff size' link' info' align' entsize' : U32}
    (hstr : PieceAt file (shoff + link.toNat * 40)
      (shdr name' typ' strOff size' link' info' align' entsize')) :
    searchTable file shoff 40 sh = findSymbol file strOff.toNat pos.toNat (max entsize.toNat 16) 0
      (size.toNat / max entsize.toNat 16) := by
  have hle := (Nat.le_add_right _ _).trans h.le_length
  have hpos : Reader.field file sh 16 = .ok pos := field_of hs h (by decide) hle rfl
  have hsize : Reader.field file sh 20 = .ok size := field_of hs h (by decide) hle rfl
  have hlink : Reader.field file sh 24 = .ok link := field_of hs h (by decide) hle rfl
  have hentsize : Reader.field file sh 36 = .ok entsize := field_of hs h (by decide) hle rfl
  have hstrOff : Reader.field file (shoff + link.toNat * 40) 16 = .ok strOff :=
    field_of hs hstr (by decide) ((Nat.le_add_right _ _).trans hstr.le_length) rfl
  obtain ⟨hmul, hadd⟩ := entry_of hs hstr
  rw [searchTable, bind_ok (optional_of hpos), bind_ok (optional_of hsize),
    bind_ok (optional_of hlink), bind_ok (optional_of hentsize), bind_ok hmul, bind_ok hadd,
    bind_ok (optional_of hstrOff)]

/-- A name is read up to the zero behind it. -/
theorem cstr_of {text rest : List U8} (h : PieceAt file off (text ++ 0 :: rest))
    (hne : ∀ b ∈ text, b ≠ 0) : Reader.cstr file off = text := by
  have hle := h.le_length
  obtain ⟨pre, post, rfl, rfl⟩ := h
  rw [Reader.cstr, Nat.min_eq_left (by omega), List.drop_left, List.append_assoc,
    List.takeWhile_append_of_pos (fun b hb => by simpa using hne b hb)]
  simp

variable {strOff symOff s : Nat}

/-- One symbol of the search. -/
theorem findSymbol_of (hs : Short file) {w : U32} {text rest : List U8}
    (h : PieceAt file (symOff + s * 16) bs) (hname : bs.take 4 = leBytes name 4)
    (hvalue : (bs.drop 4).take 4 = leBytes w 4)
    (hstr : PieceAt file (strOff + name.toNat) (text ++ 0 :: rest)) (hne : ∀ b ∈ text, b ≠ 0) :
    findSymbol file strOff symOff 16 s (n + 1) =
      if text = TOHOST then .ok (some w) else findSymbol file strOff symOff 16 (s + 1) n := by
  have hle := (Nat.le_add_right _ _).trans h.le_length
  have hstrle := hstr.le_length
  rw [List.length_append, List.length_cons] at hstrle
  have hlt : strOff + name.toNat < file.length := by omega
  have hmul : (usizeMul s 16 : Guarded Unit Nat) = .ok (s * 16) := by
    unfold Short at hs
    exact Guarded.mul_eq (by omega)
  have hadd : (usizeAdd symOff (s * 16) : Guarded Unit Nat) = .ok (symOff + s * 16) := by
    unfold Short at hs
    exact Guarded.add_eq (by omega)
  have hstradd : (usizeAdd strOff name.toNat : Guarded Unit Nat) = .ok (strOff + name.toNat) := by
    unfold Short at hs
    exact Guarded.add_eq (by omega)
  have hname' : Reader.u32 file (symOff + s * 16) = .ok name := u32_of (k := 0) hs h hname
  have hvalue' : Reader.field file (symOff + s * 16) 4 = .ok w :=
    field_of hs h (by decide) hle hvalue
  rw [findSymbol, bind_ok hmul, bind_ok hadd, bind_ok (optional_of hname'),
    bind_ok (optional_of hvalue'), bind_ok hstradd, cstr_of hstr hne]
  simp only [hlt, true_and]
  rfl

end

end

/-! ## The offsets -/

section
variable {x y z : U32}

/-- A checked sum is the sum of the numbers. -/
theorem add_eq_some_iff : Checked.add x y = some z ↔ z.toNat = x.toNat + y.toNat := by
  have hz := z.isLt
  constructor
  · intro h
    have hlt : x.toNat + y.toNat < 2 ^ 32 := by
      by_contra hc
      rw [Checked.add_eq_none.2 (Nat.le_of_not_lt hc)] at h
      cases h
    rw [Checked.add_eq hlt, Option.some_inj] at h
    rw [← h, BitVec.toNat_add]
    exact Nat.mod_eq_of_lt hlt
  · intro h
    rw [Checked.add_eq (h ▸ hz), Option.some_inj]
    refine BitVec.eq_of_toNat_eq ?_
    rw [BitVec.toNat_add, ← h]
    exact Nat.mod_eq_of_lt hz

/-- Rounding up to 4 bytes, where it does not overflow. -/
theorem align4_eq_some_iff :
    align4 x = some y ↔ x.toNat + 3 < 2 ^ 32 ∧ y.toNat = (x.toNat + 3) / 4 * 4 := by
  have hmask (z : U32) : (z &&& ~~~3).toNat = z.toNat / 4 * 4 := Checked.toNat_and_not_low z 2
  rw [align4, Option.map_eq_some_iff]
  constructor
  · rintro ⟨z, hz, rfl⟩
    rw [add_eq_some_iff] at hz
    change z.toNat = x.toNat + 3 at hz
    rw [hmask, hz]
    exact ⟨hz ▸ z.isLt, rfl⟩
  · rintro ⟨hlt, hy⟩
    have hz : (BitVec.ofNat 32 (x.toNat + 3)).toNat = x.toNat + 3 := by
      rw [BitVec.toNat_ofNat]
      exact Nat.mod_eq_of_lt hlt
    refine ⟨BitVec.ofNat 32 (x.toNat + 3), add_eq_some_iff.2 hz, BitVec.eq_of_toNat_eq ?_⟩
    rw [hmask, hz, hy]

/-- A number that fits a word. -/
theorem toNat_ofNat_lt {k : Nat} (h : k < 2 ^ 32) : (BitVec.ofNat 32 k).toNat = k := by
  rw [BitVec.toNat_ofNat]
  exact Nat.mod_eq_of_lt h

/-- A number that fits is that of a word. -/
theorem exists_toNat {k : Nat} (h : k < 2 ^ 32) : ∃ x : U32, x.toNat = k :=
  ⟨BitVec.ofNat 32 k, toNat_ofNat_lt h⟩

end

section
variable {entry tohostVaddr loadVaddr : U32} {segment code file : List U8}

/-- The offsets of a file with a symbol table. -/
structure DiffOffsets (len : Nat) (symtabOff strtabOff shstrtabOff shoff : U32) : Prop where
  symtab : symtabOff.toNat = (0x1000 + len + 3) / 4 * 4
  strtab : strtabOff.toNat = symtabOff.toNat + 48
  shstrtab : shstrtabOff.toNat = strtabOff.toNat + 17
  sections : shoff.toNat = symtabOff.toNat + 92

/-- The offsets overflow for a segment of more than `0xffffefa0` bytes. -/
theorem buildDiffElf_eq_some_iff : buildDiffElf entry segment tohostVaddr = some file ↔
    ∃ fromhost symtabOff strtabOff shstrtabOff shoff : U32,
      DiffOffsets (BitVec.ofNat 32 segment.length).toNat symtabOff strtabOff shstrtabOff shoff ∧
      (BitVec.ofNat 32 segment.length).toNat ≤ 0xffffefa0 ∧
      fromhost.toNat = tohostVaddr.toNat + 8 ∧
      file = diffFile entry segment tohostVaddr fromhost symtabOff strtabOff shstrtabOff shoff := by
  have hcode : CODE_OFFSET.toNat = 0x1000 := rfl
  have hsize : SYMTAB_SIZE.toNat = 48 := rfl
  have hstr : (BitVec.ofNat 32 STRTAB.length).toNat = 17 := rfl
  have hshstr : (BitVec.ofNat 32 SHSTRTAB.length).toNat = 27 := rfl
  have height : (8 : U32).toNat = 8 := rfl
  generalize hlen : BitVec.ofNat 32 segment.length = len
  rw [buildDiffElf, hlen]
  simp only [Option.bind_eq_bind, Option.bind_eq_some_iff, add_eq_some_iff, align4_eq_some_iff, hcode,
    hsize, hstr, hshstr, height, Option.some_inj]
  constructor
  · rintro ⟨segEnd, hseg, symtabOff, hsym, strtabOff, hstrtab, shstrtabOff, hshstrtab, stop, hstop,
      shoff, hshoff, fromhost, hfrom, rfl⟩
    have := shoff.isLt
    refine ⟨fromhost, symtabOff, strtabOff, shstrtabOff, shoff, ⟨?_, hstrtab, hshstrtab, ?_⟩, ?_,
      hfrom, rfl⟩
    · omega
    · omega
    · omega
  · rintro ⟨fromhost, symtabOff, strtabOff, shstrtabOff, shoff, hoff, hle, hfrom, rfl⟩
    obtain ⟨segEnd, hseg⟩ := exists_toNat (show 0x1000 + len.toNat < 2 ^ 32 by omega)
    have hsym := hoff.symtab
    have hstrtab := hoff.strtab
    have hshstrtab := hoff.shstrtab
    have hshoff := hoff.sections
    obtain ⟨stop, hstop⟩ := exists_toNat (show shstrtabOff.toNat + 27 < 2 ^ 32 by omega)
    exact ⟨segEnd, hseg, symtabOff, ⟨by omega, by omega⟩, strtabOff, hstrtab, shstrtabOff,
      hshstrtab, stop, hstop, shoff, ⟨by omega, by omega⟩, fromhost, hfrom, rfl⟩

/-- There is a file for a segment that is not too long. -/
theorem exists_diffOffsets {len : Nat} (hle : len ≤ 0xffffefa0) :
    ∃ symtabOff strtabOff shstrtabOff shoff : U32,
      DiffOffsets len symtabOff strtabOff shstrtabOff shoff := by
  obtain ⟨symtabOff, hsym⟩ := exists_toNat (show (0x1000 + len + 3) / 4 * 4 < 2 ^ 32 by omega)
  obtain ⟨strtabOff, hstrtab⟩ := exists_toNat (show symtabOff.toNat + 48 < 2 ^ 32 by omega)
  obtain ⟨shstrtabOff, hshstrtab⟩ := exists_toNat (show strtabOff.toNat + 17 < 2 ^ 32 by omega)
  obtain ⟨shoff, hshoff⟩ := exists_toNat (show symtabOff.toNat + 92 < 2 ^ 32 by omega)
  exact ⟨symtabOff, strtabOff, shstrtabOff, shoff, hsym, hstrtab, hshstrtab, hshoff⟩

/-! ## The pieces of a file -/

/-- A resized buffer has its new length. -/
theorem length_resize (b : List U8) (n : Nat) : (resize b n).length = n := by
  rw [resize, List.length_append, List.length_take, List.length_replicate]
  omega

/-- Growing a buffer keeps its pieces. -/
theorem pieceAt_resize {b p : List U8} {off n : Nat} (h : PieceAt b off p) (hn : b.length ≤ n) :
    PieceAt (resize b n) off p := by
  rw [resize, List.take_of_length_le hn]
  exact h.append _

/-- What is appended stands at the end. -/
theorem pieceAt_of_length {a b : List U8} {n : Nat} (h : a.length = n) : PieceAt (a ++ b) n b :=
  h ▸ pieceAt_end a b

variable {shoff shnum shstrndx vaddr : U32}

/-- The segment stands at 0x1000. -/
theorem length_withSegment :
    (withSegment shoff shnum shstrndx vaddr segment).length = 0x1000 + segment.length := by
  rw [withSegment, List.length_append, length_resize]
  rfl

/-- A file that begins with the headers and the segment. -/
structure Headed (shoff shnum shstrndx vaddr : U32) (segment file : List U8) : Prop where
  header : PieceAt file 0 (elfHeader vaddr shoff shnum shstrndx)
  program : PieceAt file 52 (programHeader vaddr (BitVec.ofNat 32 segment.length))
  segment : PieceAt file 0x1000 segment

/-- The headers fit before the segment. -/
theorem headers_length : (elfHeader vaddr shoff shnum shstrndx ++
    programHeader vaddr (BitVec.ofNat 32 segment.length)).length ≤ CODE_OFFSET.toNat := by
  rw [List.length_append, length_elfHeader, length_programHeader]
  decide

/-- The file starts with its headers, then the segment. -/
theorem headed_withSegment :
    Headed shoff shnum shstrndx vaddr segment (withSegment shoff shnum shstrndx vaddr segment) where
  header := (pieceAt_resize ((pieceAt_end [] _).append _) headers_length).append _
  program := (pieceAt_resize (pieceAt_of_length rfl) headers_length).append _
  segment := pieceAt_of_length (length_resize _ _)

/-- What is appended leaves the headers. -/
theorem Headed.append (h : Headed shoff shnum shstrndx vaddr segment file) (post : List U8) :
    Headed shoff shnum shstrndx vaddr segment (file ++ post) :=
  ⟨h.header.append post, h.program.append post, h.segment.append post⟩

/-- So does growing the file. -/
theorem Headed.resize (h : Headed shoff shnum shstrndx vaddr segment file) {n : Nat}
    (hn : file.length ≤ n) : Headed shoff shnum shstrndx vaddr segment (resize file n) :=
  ⟨pieceAt_resize h.header hn, pieceAt_resize h.program hn, pieceAt_resize h.segment hn⟩

/-- Such a file parses to its segment. -/
theorem Headed.parse (h : Headed shoff shnum shstrndx vaddr segment file) (hs : Short file)
    (hlen : segment.length < 2 ^ 32) {tohost : Option U32}
    (hto : findTohost file = .ok tohost) :
    parse file = .ok ⟨vaddr, tohost, [⟨vaddr, segment, BitVec.ofNat 32 segment.length,
      PERM_READ ||| PERM_WRITE ||| PERM_EXEC⟩]⟩ := by
  have hslice := slice_of hs h.segment
  rw [← toNat_ofNat_lt hlen] at hslice
  have hbest : bestEffort (findTohost file) = .ok tohost := by
    rw [hto]
    rfl
  exact parse_of_header hs h.header (loadSegments_of_header hs h.program hslice) nofun hbest

/-! ### The file without a symbol -/

/-- The parser reads back what the flat builder wrote. -/
theorem flatFile_parse {shstrtabOff : U32} (hlen : code.length < 2 ^ 32)
    (hstop : 0x1000 + code.length + 11 ≤ shoff.toNat) :
    FuzzSoft.parse (flatFile loadVaddr code shstrtabOff shoff) =
      .ok ⟨loadVaddr, none, [⟨loadVaddr, code, BitVec.ofNat 32 code.length,
        PERM_READ ||| PERM_WRITE ||| PERM_EXEC⟩]⟩ := by
  have hshoff := shoff.isLt
  have hb : (withSegment shoff 2 1 loadVaddr code ++ FLAT_SHSTRTAB).length ≤ shoff.toNat := by
    rw [List.length_append, length_withSegment]
    exact hstop
  have hfile : Headed shoff 2 1 loadVaddr code (flatFile loadVaddr code shstrtabOff shoff) :=
    (((headed_withSegment.append _).resize hb).append _).append _
  have hs : Short (flatFile loadVaddr code shstrtabOff shoff) := by
    rw [Short, flatFile]
    simp only [List.length_append, length_resize, List.length_replicate, length_shdr]
    omega
  have hnull : PieceAt (flatFile loadVaddr code shstrtabOff shoff) (shoff.toNat + 0 * 40)
      (shdr 0 0 0 0 0 0 0 0) := (pieceAt_of_length (length_resize _ _)).append _
  have hstr : PieceAt (flatFile loadVaddr code shstrtabOff shoff) (shoff.toNat + 1 * 40)
      (shdr 1 3 shstrtabOff (BitVec.ofNat 32 FLAT_SHSTRTAB.length) 0 0 1 0) :=
    pieceAt_of_length (by rw [List.length_append, length_resize, List.length_replicate])
  have hne : shoff ≠ 0 := by
    rintro rfl
    exact absurd (show 0x1000 + code.length + 11 ≤ 0 from hstop) (by omega)
  refine hfile.parse hs hlen ?_
  rw [findTohost_of_header hs hfile.header hne (n := 2) (by decide) (by decide)]
  exact (findSection_skip hs hnull (by decide)).trans (findSection_skip hs hstr (by decide))

/-! ### The file with a symbol -/

/-- The parser reads back what the other builder wrote. -/
theorem diffFile_parse {fromhost symtabOff strtabOff shstrtabOff : U32}
    (hlen : segment.length < 2 ^ 32)
    (hoff : DiffOffsets segment.length symtabOff strtabOff shstrtabOff shoff) :
    FuzzSoft.parse (diffFile entry segment tohostVaddr fromhost symtabOff strtabOff shstrtabOff shoff) =
      .ok ⟨entry, some tohostVaddr, [⟨entry, segment, BitVec.ofNat 32 segment.length,
        PERM_READ ||| PERM_WRITE ||| PERM_EXEC⟩]⟩ := by
  have hshoff := shoff.isLt
  obtain ⟨hsym, hstr, -, hsec⟩ := hoff
  have hb : (withSegment shoff 4 3 entry segment).length ≤ symtabOff.toNat := by
    rw [length_withSegment]
    omega
  have hsyms : (resize (withSegment shoff 4 3 entry segment) symtabOff.toNat ++
      symtab tohostVaddr fromhost).length = strtabOff.toNat := by
    rw [List.length_append, length_resize, hstr]
    rfl
  have hb' : (resize (withSegment shoff 4 3 entry segment) symtabOff.toNat ++
      symtab tohostVaddr fromhost ++ STRTAB ++ SHSTRTAB).length ≤ shoff.toNat := by
    rw [List.length_append, List.length_append, hsyms, hsec, hstr]
    rfl
  have hfile : Headed shoff 4 3 entry segment (diffFile entry segment tohostVaddr fromhost symtabOff
      strtabOff shstrtabOff shoff) :=
    (((((headed_withSegment.resize hb).append _).append _).append _).resize hb').append _
  have hsymtab : PieceAt (diffFile entry segment tohostVaddr fromhost symtabOff strtabOff
      shstrtabOff shoff) symtabOff.toNat (symtab tohostVaddr fromhost) :=
    (pieceAt_resize (((pieceAt_of_length (length_resize _ _)).append _).append _) hb').append _
  have hstrtab : PieceAt (diffFile entry segment tohostVaddr fromhost symtabOff strtabOff
      shstrtabOff shoff) strtabOff.toNat STRTAB :=
    (pieceAt_resize ((pieceAt_of_length hsyms).append _) hb').append _
  have hsections : PieceAt (diffFile entry segment tohostVaddr fromhost symtabOff strtabOff
      shstrtabOff shoff) shoff.toNat (sections symtabOff strtabOff shstrtabOff) :=
    pieceAt_of_length (length_resize _ _)
  have hs : Short (diffFile entry segment tohostVaddr fromhost symtabOff strtabOff shstrtabOff
      shoff) := by
    rw [Short, diffFile, List.length_append, length_resize]
    have : (sections symtabOff strtabOff shstrtabOff).length = 160 := rfl
    omega
  generalize diffFile entry segment tohostVaddr fromhost symtabOff strtabOff shstrtabOff shoff = file
    at hfile hsymtab hstrtab hsections hs ⊢
  have hne : shoff ≠ 0 := by
    rintro rfl
    exact absurd (show 0 = symtabOff.toNat + 92 from hsec) (by omega)
  have hlink : PieceAt file (shoff.toNat + (2 : U32).toNat * 40)
      (shdr 9 3 strtabOff (BitVec.ofNat 32 STRTAB.length) 0 0 1 0) :=
    hsections.window 80 40 (show 80 ≤ 160 by decide)
  have hnull : PieceAt file (shoff.toNat + 0 * 40) (shdr 0 0 0 0 0 0 0 0) :=
    hsections.window 0 40 (Nat.zero_le _)
  have htable : PieceAt file (shoff.toNat + 1 * 40) (shdr 1 2 symtabOff SYMTAB_SIZE 2 1 4 16) :=
    hsections.window 40 40 (show 40 ≤ 160 by decide)
  have hsym1 : PieceAt file (symtabOff.toNat + 1 * 16) (sym 1 tohostVaddr) :=
    hsymtab.window 16 16 (show 16 ≤ 48 by decide)
  have hname : PieceAt file (strtabOff.toNat + (1 : U32).toNat)
      (TOHOST ++ 0 :: STRTAB.drop 8) := hstrtab.window 1 16 (by decide)
  have hzero : PieceAt file (strtabOff.toNat + (0 : U32).toNat) ([] ++ 0 :: STRTAB.drop 1) :=
    hstrtab
  have hsearch : searchTable file shoff.toNat 40 (shoff.toNat + 1 * 40) = .ok (some tohostVaddr) := by
    refine (searchTable_of hs htable hlink).trans ?_
    refine (findSymbol_of (n := 2) (s := 0) (w := 0) hs hsymtab rfl rfl hzero nofun).trans ?_
    rw [if_neg (by decide)]
    refine (findSymbol_of hs hsym1 rfl rfl hname (by decide)).trans ?_
    rw [if_pos rfl]
  refine hfile.parse hs hlen ?_
  rw [findTohost_of_header hs hfile.header hne (n := 4) (by decide) (by decide)]
  exact (findSection_skip hs hnull (by decide)).trans (findSection_found hs htable hsearch)

end

/-! ## The round trips -/

/-- A file is built, and parses to one segment of the bytes that it was built from. -/
def RoundTrip (built : Option (List U8)) (vaddr : U32) (tohost : Option U32) (data : List U8) : Prop :=
  ∃ file, built = some file ∧ parse file = .ok ⟨vaddr, tohost, [⟨vaddr, data,
    BitVec.ofNat 32 data.length, PERM_READ ||| PERM_WRITE ||| PERM_EXEC⟩]⟩

section
variable {entry tohostVaddr loadVaddr : U32} {segment code : List U8}

/-- The flat builder makes a round trip. -/
theorem roundTrip_flat (hlen : code.length < 2 ^ 31) :
    RoundTrip (buildFlatElf loadVaddr code) loadVaddr none code := by
  have hcode : CODE_OFFSET.toNat = 0x1000 := rfl
  have hstr : (BitVec.ofNat 32 FLAT_SHSTRTAB.length).toNat = 11 := rfl
  have htoNat := toNat_ofNat_lt (show code.length < 2 ^ 32 by omega)
  obtain ⟨shstrtabOff, hoff⟩ := exists_toNat (show 0x1000 + code.length < 2 ^ 32 by omega)
  obtain ⟨stop, hstop⟩ := exists_toNat (show shstrtabOff.toNat + 11 < 2 ^ 32 by omega)
  obtain ⟨shoff, hshoff⟩ := exists_toNat (show (stop.toNat + 3) / 4 * 4 < 2 ^ 32 by omega)
  refine ⟨flatFile loadVaddr code shstrtabOff shoff, ?_, flatFile_parse (by omega) (by omega)⟩
  have hadd : Checked.add CODE_OFFSET (BitVec.ofNat 32 code.length) = some shstrtabOff :=
    add_eq_some_iff.2 (by rw [hcode, htoNat, hoff])
  have hadd' : Checked.add shstrtabOff (BitVec.ofNat 32 FLAT_SHSTRTAB.length) = some stop :=
    add_eq_some_iff.2 (by rw [hstr, hstop])
  have halign : align4 stop = some shoff := align4_eq_some_iff.2 ⟨by omega, hshoff⟩
  simp only [buildFlatElf, Option.bind_eq_bind, hadd, Option.bind_some, hadd', halign]

/-- So does the builder with symbols. -/
theorem roundTrip_diff (hto : tohostVaddr.toNat + 8 < 2 ^ 32) (hlen : segment.length ≤ 0xffffefa0) :
    RoundTrip (buildDiffElf entry segment tohostVaddr) entry (some tohostVaddr) segment := by
  have htoNat := toNat_ofNat_lt (show segment.length < 2 ^ 32 by omega)
  obtain ⟨fromhost, hfrom⟩ := exists_toNat hto
  obtain ⟨symtabOff, strtabOff, shstrtabOff, shoff, hoff⟩ := exists_diffOffsets hlen
  refine ⟨_, buildDiffElf_eq_some_iff.2 ⟨fromhost, symtabOff, strtabOff, shstrtabOff, shoff, ?_, ?_,
    hfrom, rfl⟩, diffFile_parse (by omega) hoff⟩
  · rwa [htoNat]
  · rwa [htoNat]

/-- A segment that comes back is no longer than the offsets reach. -/
theorem length_of_roundTrip {tohost : Option U32}
    (h : RoundTrip (buildDiffElf entry segment tohostVaddr) entry tohost segment) :
    segment.length ≤ 0xffffefa0 := by
  obtain ⟨file, hbuild, hparse⟩ := h
  have hfits : segment.length < 2 ^ 32 := (segments_of_parse hparse).2 _ List.mem_cons_self
  obtain ⟨-, -, -, -, -, -, hle, -⟩ := buildDiffElf_eq_some_iff.1 hbuild
  rwa [toNat_ofNat_lt hfits] at hle

end

/-- A flat file of less than `2 ^ 31` bytes of code parses to its code, and a file with a symbol to
its segment and its symbol as long as the offsets behind the segment fit their words. -/
theorem elf_round_trip :
    (∀ (loadVaddr : U32) (code : List U8), code.length < 2 ^ 31 →
      RoundTrip (buildFlatElf loadVaddr code) loadVaddr none code) ∧
    ∀ (entry : U32) (segment : List U8) (tohostVaddr : U32), tohostVaddr.toNat + 8 < 2 ^ 32 →
      (RoundTrip (buildDiffElf entry segment tohostVaddr) entry (some tohostVaddr) segment ↔
        segment.length ≤ 0xffffefa0) :=
  ⟨fun _ _ hlen => roundTrip_flat hlen,
    fun _ _ _ hto => ⟨length_of_roundTrip, roundTrip_diff hto⟩⟩

theorem elf_round_trip_nop :
    RoundTrip (buildFlatElf 0x80000000 [0x13, 0, 0, 0]) 0x80000000 none [0x13, 0, 0, 0] ∧
      RoundTrip (buildDiffElf 0x80000000 [0x13, 0, 0, 0] 0x80001000) 0x80000000 (some 0x80001000)
        [0x13, 0, 0, 0] :=
  ⟨elf_round_trip.1 0x80000000 [0x13, 0, 0, 0] (by decide),
    (elf_round_trip.2 0x80000000 [0x13, 0, 0, 0] 0x80001000 (by decide)).2 (by decide)⟩

/-- The offset behind a segment of `2 ^ 32 - 1` bytes overflows. -/
theorem long_segment_not_built : ¬ ∀ (entry : U32) (segment : List U8) (tohostVaddr : U32),
    tohostVaddr.toNat + 8 < 2 ^ 32 →
      RoundTrip (buildDiffElf entry segment tohostVaddr) entry (some tohostVaddr) segment := by
  intro h
  have hle := length_of_roundTrip (h 0x80000000 (List.replicate 0xffffffff 0) 0x80001000 (by decide))
  rw [List.length_replicate] at hle
  exact absurd hle (by decide)

end FuzzSoft
