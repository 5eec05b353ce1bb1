import FuzzSoft.Fuzz.Signature
import FuzzSoft.Lib.Floor
import FuzzSoft.Lib.Tally

/-!
# Coverage attribution

`fs-covmap` attributes the covered program counters of a dump to the text symbols of a `System.map`
and counts, for each subsystem, the symbols there are and the covered ones. The symbols are the
entries of a table with one entry for each address, but the covered ones are counted by their names.
So both numbers speak of the same symbols exactly if the covered ones have different names
(`attribution_exact_iff`), and static functions of one name are counted as one.
-/

namespace FuzzSoft

open Lib

/-! ## The symbol table -/

/-- A text symbol. -/
structure Symbol where
  addr : U32
  name : List Char
  deriving DecidableEq

namespace Symbol

/-- What the symbols are sorted by. -/
def key (s : Symbol) : Nat := s.addr.toNat

/-- Symbols with one key have one address. -/
theorem addr_eq_of_key_eq {s t : Symbol} (h : s.key = t.key) : s.addr = t.addr :=
  BitVec.eq_of_toNat_eq h

end Symbol

/-- `u32::from_str_radix` with radix 16: a plus sign may come first. -/
def fromStrRadix16 (s : List Char) : Option U32 :=
  let digits := match s with
    | '+' :: rest => rest
    | _ => s
  if digits.all isHexDigit then fromHex digits else none

/-- The text symbol on a line of a `System.map`. -/
def textSymbol (line : List Char) : Option Symbol :=
  match splitWhitespace (trim line) with
  | addr :: ty :: name :: _ =>
    if ty = ['t'] ∨ ty = ['T'] then (fromStrRadix16 addr).map fun a => ⟨a, name⟩ else none
  | _ => none

/-- The text symbols of a `System.map`, in its order. -/
def textSymbols (text : List Char) : List Symbol := (lines text).filterMap textSymbol

/-- A table of symbols in ascending order, one for each address. -/
structure SymTable where
  syms : List Symbol
  sorted : syms.Pairwise (Symbol.key · < Symbol.key ·)

namespace SymTable

/-- Of the symbols at one address the first of the map stays. -/
def parse (text : List Char) : SymTable where
  syms := sortedTable Symbol.key (textSymbols text)
  sorted := pairwise_table Symbol.key _

/-- The symbol that contains the program counter: the last one is open-ended. -/
def resolve (t : SymTable) (pc : U32) : Option Symbol := floor Symbol.key t.syms pc.toNat

end SymTable

/-! ## The dump -/

/-- `{:#010x}`. -/
def hex8 (v : U32) : List Char :=
  '0' :: 'x' :: [7, 6, 5, 4, 3, 2, 1, 0].map fun k => Nat.digitChar (v.toNat / 16 ^ k % 16)

def edgeLine (e : U32 × U32) : List Char := hex8 e.1 ++ ' ' :: hex8 e.2

def DUMP_TITLE : List Char := "# fuzzsoft coverage: ".toList
def DUMP_EDGES : List Char := " edges".toList

def headerLine (n : Nat) : List Char := DUMP_TITLE ++ showNat n ++ DUMP_EDGES

/-- What is written for the edges of a run, in the order of their set. -/
def writeCoverage (edges : List (U32 × U32)) : List Char :=
  ((headerLine edges.length :: edges.map edgeLine).map (· ++ ['\n'])).flatten

def parseHexPc (tok : List Char) : Option U32 :=
  match tok with
  | '0' :: 'x' :: digits => fromStrRadix16 digits
  | '0' :: 'X' :: digits => fromStrRadix16 digits
  | _ => none

/-- The program counters of a line. -/
def linePcs (edgesMode : Bool) (line : List Char) : List U32 :=
  let line := trim line
  if line = [] ∨ ['#'] <+: line then []
  else match splitWhitespace line with
    | [src, dst] => (if edgesMode then (parseHexPc src).toList else []) ++ (parseHexPc dst).toList
    | [only] => (parseHexPc only).toList
    | _ => []

/-- The program counters of a dump. Of an edge only the target counts, unless the sources are asked
for. -/
def parseCovDump (text : List Char) (edgesMode : Bool) : List U32 :=
  (lines text).flatMap (linePcs edgesMode)

/-! ## The buckets -/

def SUBSYSTEMS : List (String × List String) :=
  [("io_uring", ["io_uring"]),
   ("bpf", ["bpf_", "bpf"]),
   ("eventpoll", ["eventpoll", "epoll"]),
   ("keyctl", ["keyctl", "key_", "keyring"]),
   ("mount/fs", ["do_mount", "path_mount", "mount_", "vfs_", "overlayfs", "ovl_"]),
   ("splice", ["splice", "vmsplice", "tee_", "iter_file_splice"]),
   ("namespaces", ["unshare", "setns", "copy_namespaces", "create_new_namespaces", "nsproxy"]),
   ("slab/alloc",
    ["kmalloc", "kfree", "__kmalloc", "slab", "kmem_cache", "alloc_pages", "__alloc"])]

/-- The name belongs to the subsystem: `ep_` counts only at its start. -/
def inBucket (name : List Char) (bucket : String × List String) : Bool :=
  (bucket.1 == "eventpoll" && decide ("ep_".toList <+: name)) ||
    bucket.2.any fun needle => contains needle.toList name

/-- The first subsystem a name belongs to. -/
def bucketOf (name : List Char) : String :=
  ((SUBSYSTEMS.find? (inBucket name)).map Prod.fst).getD "other"

/-! ## The counts -/

/-- What is reported. -/
structure Attribution where
  totalPerBucket : List (String × Nat)
  pcsPerSymbol : List (List Char × Nat)
  unresolved : Nat
  coveredPerBucket : List (String × Nat)

/-- The distinct program counters of a dump. -/
def distinctPcs (covText : List Char) (edgesMode : Bool) : List U32 :=
  sortedTable BitVec.toNat (parseCovDump covText edgesMode)

/-- The tool's run. -/
def attributeCoverage (mapText covText : List Char) (edgesMode : Bool) : Attribution :=
  let table := SymTable.parse mapText
  let pcs := distinctPcs covText edgesMode
  let pcsPerSymbol := tally (pcs.filterMap fun pc => (table.resolve pc).map Symbol.name)
  { totalPerBucket := tally (table.syms.map fun s => bucketOf s.name)
    pcsPerSymbol
    unresolved := pcs.countP fun pc => (table.resolve pc).isNone
    coveredPerBucket := tally ((Tally.keys pcsPerSymbol).map bucketOf) }

/-- What is reported for the edges of a run. -/
def runAttribution (mapText : List Char) (edges : List (U32 × U32)) : Attribution :=
  attributeCoverage mapText (writeCoverage edges) false

/-! ## The dump is read back -/

section
variable {v : U32}

/-- The character of a digit. -/
theorem isHexDigit_digitChar {n : Nat} (hn : n < 16) :
    isHexDigit (Nat.digitChar n) = true ∧ hexValue (Nat.digitChar n) = n := by
  revert n
  decide

/-- No digit is taken for a sign or for the end of a token or of a line. -/
theorem isWhitespace_hex8 {c : Char} (h : c ∈ hex8 v) : isWhitespace c = false := by
  rcases List.mem_cons.1 h with rfl | h
  · rfl
  · rcases List.mem_cons.1 h with rfl | h
    · rfl
    · obtain ⟨k, -, rfl⟩ := List.mem_map.1 h
      have hdigit := (isHexDigit_digitChar (Nat.mod_lt (v.toNat / 16 ^ k) (by decide))).1
      rcases Bool.eq_false_or_eq_true (isWhitespace (Nat.digitChar (v.toNat / 16 ^ k % 16))) with
        hw | hw
      · rw [isHexDigit_of_isWhitespace hw] at hdigit
        cases hdigit
      · exact hw

/-- Eight digits are a token. -/
theorem isToken_hex8 (v : U32) : IsToken (hex8 v) := ⟨List.cons_ne_nil _ _, fun _ => isWhitespace_hex8⟩

/-- Digits without a sign are read as they are. -/
theorem fromStrRadix16_digits {digits : List Char} (h : ∀ c ∈ digits, isHexDigit c = true) :
    fromStrRadix16 digits = fromHex digits := by
  unfold fromStrRadix16
  split
  next rest => exact absurd (h '+' List.mem_cons_self) (by decide)
  next => exact if_pos (List.all_eq_true.2 h)

/-- Eight digits are the whole number. -/
theorem fromStrRadix16_hex8 (v : U32) :
    fromStrRadix16 ([7, 6, 5, 4, 3, 2, 1, 0].map fun k => Nat.digitChar (v.toNat / 16 ^ k % 16)) =
      some v := by
  have hdigit : ∀ k, isHexDigit (Nat.digitChar (v.toNat / 16 ^ k % 16)) = true ∧
      hexValue (Nat.digitChar (v.toNat / 16 ^ k % 16)) = v.toNat / 16 ^ k % 16 :=
    fun k => isHexDigit_digitChar (Nat.mod_lt _ (by decide))
  have hlt := v.isLt
  have hvalue : ([7, 6, 5, 4, 3, 2, 1, 0].map fun k =>
      Nat.digitChar (v.toNat / 16 ^ k % 16)).foldl (fun n c => 16 * n + hexValue c) 0 = v.toNat := by
    simp only [List.map_cons, List.map_nil, List.foldl_cons, List.foldl_nil, (hdigit _).2]
    omega
  rw [fromStrRadix16_digits, fromHex, hvalue, if_pos ⟨List.cons_ne_nil _ _, hlt⟩, BitVec.ofNat_toNat,
    BitVec.setWidth_eq]
  intro c hc
  obtain ⟨k, -, rfl⟩ := List.mem_map.1 hc
  exact (hdigit k).1

/-- They are read back. -/
theorem parseHexPc_hex8 (v : U32) : parseHexPc (hex8 v) = some v := fromStrRadix16_hex8 v

/-! ### Lines -/

/-- The lines of a text that was written line by line. -/
theorem lines_flatten {ls : List (List Char)} (hnl : ∀ l ∈ ls, '\n' ∉ l)
    (hcr : ∀ l ∈ ls, l.getLast? ≠ some '\r') : lines (ls.map (· ++ ['\n'])).flatten = ls := by
  have hparts : (ls.map (· ++ ['\n'])).flatten.splitOnP (· == '\n') = ls ++ [[]] := by
    clear hcr
    induction ls with
    | nil => rfl
    | cons l ls ih =>
      have hl : ∀ c ∈ l, (c == '\n') = false := by
        intro c hc
        exact beq_false_of_ne fun h => hnl l List.mem_cons_self (h ▸ hc)
      rw [List.map_cons, List.flatten_cons, List.append_assoc, List.singleton_append,
        List.splitOnP_append_cons_of_forall_mem hl '\n' rfl,
        ih fun l hl => hnl l (List.mem_cons_of_mem _ hl), List.cons_append]
  have hstrip : ls.map stripCr = ls := by
    refine (List.map_congr_left fun l hl => ?_).trans (List.map_id ls)
    exact if_neg (hcr l hl)
  rw [lines, hparts, List.dropLast_concat, List.getLast?_concat, hstrip]
  exact List.append_nil ls

/-- An edge is on a line of its own, which gives its target. -/
theorem linePcs_edgeLine (e : U32 × U32) : linePcs false (edgeLine e) = [e.2] := by
  have hlast : (edgeLine e).getLast? = (hex8 e.2).getLast? := by
    rw [edgeLine, List.getLast?_append_of_ne_nil _ (List.cons_ne_nil _ _)]
    rfl
  have htrim : trim (edgeLine e) = edgeLine e := by
    refine trimBy_eq_self ?_ ?_
    · rintro c ⟨⟩
      rfl
    · intro c hc
      rw [hlast] at hc
      exact isWhitespace_hex8 (List.mem_of_getLast? hc)
  have htoks : splitWhitespace (edgeLine e) = [hex8 e.1, hex8 e.2] := by
    have h := @splitWhitespace_intercalate [hex8 e.1, hex8 e.2] fun t ht => by
      rcases List.mem_pair.1 ht with rfl | rfl
      · exact isToken_hex8 e.1
      · exact isToken_hex8 e.2
    rwa [List.intercalate_cons_cons, List.intercalate_singleton, List.append_assoc] at h
  have hedge : ¬(edgeLine e = [] ∨ ['#'] <+: edgeLine e) := by
    rintro (h | ⟨t, h⟩)
    · cases h
    · exact absurd (List.cons.inj h).1 (by decide)
  rw [linePcs, htrim, if_neg hedge, htoks]
  simp only [Bool.false_eq_true, if_false, parseHexPc_hex8, Option.toList_some, List.nil_append]

/-- The first line is a comment. -/
theorem headerLine_eq (n : Nat) : ∃ rest, headerLine n = '#' :: rest ++ ['s'] := by
  have hhead : DUMP_TITLE = '#' :: DUMP_TITLE.tail := by decide
  have hlast : DUMP_EDGES = DUMP_EDGES.dropLast ++ ['s'] := by decide
  refine ⟨DUMP_TITLE.tail ++ showNat n ++ DUMP_EDGES.dropLast, ?_⟩
  rw [headerLine]
  conv_lhs => rw [hhead, hlast]
  simp only [List.cons_append, List.append_assoc]

/-- The header line has no edges. -/
theorem linePcs_headerLine (n : Nat) : linePcs false (headerLine n) = [] := by
  obtain ⟨rest, hrest⟩ := headerLine_eq n
  have htrim : trim (headerLine n) = headerLine n := by
    rw [hrest]
    refine trimBy_eq_self ?_ ?_
    · rintro c ⟨⟩
      rfl
    · intro c hc
      rw [List.getLast?_concat] at hc
      cases hc
      rfl
  rw [linePcs, htrim, hrest]
  exact if_pos (Or.inr ⟨rest ++ ['s'], rfl⟩)

/-- No line is broken. -/
theorem newline_line {edges : List (U32 × U32)} {l : List Char}
    (h : l ∈ headerLine edges.length :: edges.map edgeLine) :
    '\n' ∉ l ∧ l.getLast? ≠ some '\r' := by
  rcases List.mem_cons.1 h with rfl | h
  · constructor
    · have hhead : '\n' ∉ DUMP_TITLE := by decide
      have hlast : '\n' ∉ DUMP_EDGES := by decide
      have hdigit : '\n' ∉ showNat edges.length := fun hc =>
        absurd (isDigit_showNat hc) (by decide)
      simp only [headerLine, List.mem_append, hhead, hlast, hdigit, or_false, not_false_iff]
    · obtain ⟨rest, hrest⟩ := headerLine_eq edges.length
      rw [hrest, List.getLast?_concat]
      decide
  · obtain ⟨e, -, rfl⟩ := List.mem_map.1 h
    have hwhite : ∀ c ∈ hex8 e.1 ++ ' ' :: hex8 e.2, isWhitespace c = true → c = ' ' := by
      intro c hc hw
      rcases List.mem_append.1 hc with hc | hc
      · rw [isWhitespace_hex8 hc] at hw
        cases hw
      · rcases List.mem_cons.1 hc with hc | hc
        · exact hc
        · rw [isWhitespace_hex8 hc] at hw
          cases hw
    constructor
    · intro hc
      exact absurd (hwhite _ hc rfl) (by decide)
    · intro hc
      exact absurd (hwhite _ (List.mem_of_getLast? hc) rfl) (by decide)

/-- Reading a written dump gives the targets of its edges. -/
theorem parseCovDump_writeCoverage (edges : List (U32 × U32)) :
    parseCovDump (writeCoverage edges) false = edges.map Prod.snd := by
  have hlines : lines (writeCoverage edges) = headerLine edges.length :: edges.map edgeLine :=
    lines_flatten (fun _ h => (newline_line h).1) fun _ h => (newline_line h).2
  rw [parseCovDump, hlines, List.flatMap_cons, linePcs_headerLine, List.nil_append, List.flatMap_map]
  simp only [linePcs_edgeLine]
  exact List.flatMap_pure_eq_map Prod.snd edges

end

/-! ## Exact counts -/

/-- The symbol is the one with the greatest address up to the program counter. -/
def InRange (L : List Symbol) (s : Symbol) (pc : U32) : Prop := IsFloor Symbol.key L pc.toNat s

instance (L : List Symbol) (s : Symbol) (pc : U32) : Decidable (InRange L s pc) :=
  inferInstanceAs (Decidable (IsFloor _ _ _ _))

/-- The target of an edge is in the range of the symbol. -/
def SymbolCovered (L : List Symbol) (edges : List (U32 × U32)) (s : Symbol) : Prop :=
  ∃ e ∈ edges, InRange L s e.2

instance (L : List Symbol) (edges : List (U32 × U32)) : DecidablePred (SymbolCovered L edges) :=
  fun _ => inferInstanceAs (Decidable (∃ e ∈ edges, _))

/-- The symbols of a list are resolved and counted exactly. -/
structure AttributesExactly (mapText : List Char) (L : List Symbol) (edges : List (U32 × U32)) :
    Prop where
  dump : parseCovDump (writeCoverage edges) false = edges.map Prod.snd
  resolve_some : ∀ pc s, (SymTable.parse mapText).resolve pc = some s → InRange L s pc
  resolve_none : ∀ pc, (SymTable.parse mapText).resolve pc = none ↔ ∀ s ∈ L, pc.toNat < s.key
  covered : ∀ b, Tally.get (runAttribution mapText edges).coveredPerBucket b =
    L.countP fun s => bucketOf s.name = b ∧ SymbolCovered L edges s
  le_total : ∀ b, Tally.get (runAttribution mapText edges).coveredPerBucket b ≤
    Tally.get (runAttribution mapText edges).totalPerBucket b
  full : ∀ b, (∀ s ∈ L, bucketOf s.name = b → SymbolCovered L edges s) →
    Tally.get (runAttribution mapText edges).coveredPerBucket b =
      Tally.get (runAttribution mapText edges).totalPerBucket b

/-- The covered symbols have different names and different addresses. -/
def CoveredApart (L : List Symbol) (edges : List (U32 × U32)) : Prop :=
  (L.filter (SymbolCovered L edges)).Pairwise fun s t => s.name ≠ t.name ∧ s.addr ≠ t.addr

/-- The table is one of these symbols, with an entry for each of their addresses. -/
structure SymTable.Lists (t : SymTable) (L : List Symbol) : Prop where
  sub : ∀ s ∈ t.syms, s ∈ L
  key : ∀ s ∈ L, ∃ u ∈ t.syms, u.key = s.key

/-- The table lists the text symbols of the map. -/
theorem SymTable.lists_textSymbols (text : List Char) :
    (SymTable.parse text).Lists (textSymbols text) where
  sub _ := mem_of_mem_table Symbol.key
  key _ := exists_mem_table Symbol.key

/-- The table lists itself. -/
theorem SymTable.lists_syms (t : SymTable) : t.Lists t.syms where
  sub _ h := h
  key s h := ⟨s, h, rfl⟩

namespace SymTable

section
variable {t : SymTable} {L : List Symbol} {pc : U32} {s u : Symbol}

/-- The table has one symbol of each key. -/
theorem eq_of_key_eq (hs : s ∈ t.syms) (hu : u ∈ t.syms) (h : s.key = u.key) : s = u :=
  List.inj_on_of_nodup_map (nodup_map_of_pairwise Symbol.key t.sorted) hs hu h

/-- A resolved address is in the range of its symbol. -/
theorem Lists.inRange_of_resolve (hL : t.Lists L) (h : t.resolve pc = some s) : InRange L s pc := by
  have hs := isFloor_of_floor_eq_some Symbol.key t.sorted h
  refine ⟨hL.sub s hs.mem, hs.le, fun v hv hle => ?_⟩
  obtain ⟨w, hw, hkey⟩ := hL.key v hv
  rw [← hkey] at hle ⊢
  exact hs.greatest w hw hle

/-- The symbol found is at the address of any other with the program counter in its range. -/
theorem Lists.resolve_of_inRange (hL : t.Lists L) (h : InRange L s pc) :
    ∃ u ∈ t.syms, t.resolve pc = some u ∧ u.key = s.key := by
  obtain ⟨u, hu, hkey⟩ := hL.key s h.mem
  refine ⟨u, hu, IsFloor.exists_floor Symbol.key t.sorted ⟨hu, hkey ▸ h.le, fun v hv hle => ?_⟩, hkey⟩
  rw [hkey]
  exact h.greatest v (hL.sub v hv) hle

/-- No symbol is found below the first one. -/
theorem Lists.resolve_eq_none_iff (hL : t.Lists L) :
    t.resolve pc = none ↔ ∀ s ∈ L, pc.toNat < s.key := by
  refine (floor_eq_none_iff Symbol.key t.sorted).trans ⟨fun h s hs => ?_, fun h s hs => ?_⟩
  · obtain ⟨u, hu, hkey⟩ := hL.key s hs
    exact hkey ▸ h u hu
  · exact h s (hL.sub s hs)

end

end SymTable

/-! ### The names that are counted -/

/-- The names of the covered symbols, as the tool collects them. -/
def coveredNames (mapText : List Char) (edges : List (U32 × U32)) : List (List Char) :=
  Tally.keys (runAttribution mapText edges).pcsPerSymbol

section
variable {mapText : List Char} {L : List Symbol} {edges : List (U32 × U32)}

/-- The covered names are those of the edges' targets. -/
theorem mem_coveredNames {n : List Char} : n ∈ coveredNames mapText edges ↔
    ∃ e ∈ edges, ∃ s, (SymTable.parse mapText).resolve e.2 = some s ∧ s.name = n := by
  have hpcs : ∀ pc, pc ∈ distinctPcs (writeCoverage edges) false ↔ ∃ e ∈ edges, e.2 = pc := by
    intro pc
    rw [distinctPcs, parseCovDump_writeCoverage]
    constructor
    · exact fun h => List.mem_map.1 (mem_of_mem_table BitVec.toNat h)
    · intro h
      obtain ⟨c, hc, hkey⟩ := exists_mem_table BitVec.toNat (List.mem_map.2 h)
      exact BitVec.eq_of_toNat_eq hkey ▸ hc
  rw [coveredNames, runAttribution, attributeCoverage, Tally.mem_keys, List.mem_filterMap]
  constructor
  · rintro ⟨pc, hpc, hs⟩
    obtain ⟨e, he, rfl⟩ := (hpcs pc).1 hpc
    exact ⟨e, he, Option.map_eq_some_iff.1 hs⟩
  · rintro ⟨e, he, hs⟩
    exact ⟨e.2, (hpcs e.2).2 ⟨e, he, rfl⟩, Option.map_eq_some_iff.2 hs⟩

/-- Each is named once. -/
theorem nodup_coveredNames : (coveredNames mapText edges).Nodup := Tally.nodup_keys _

/-- The covered names of a bucket are counted. -/
theorem get_coveredPerBucket (b : String) :
    Tally.get (runAttribution mapText edges).coveredPerBucket b =
      (coveredNames mapText edges).countP (bucketOf · = b) :=
  (Tally.get_tally _ b).trans (count_map_eq bucketOf _ b)

/-- So are the symbols of a bucket. -/
theorem get_totalPerBucket (b : String) :
    Tally.get (runAttribution mapText edges).totalPerBucket b =
      ((SymTable.parse mapText).syms.map Symbol.name).countP (bucketOf · = b) := by
  refine (Tally.get_tally _ b).trans ?_
  rw [← count_map_eq, List.map_map]
  rfl

/-- Covered symbols counted by their names. -/
theorem countP_covered (b : String) :
    L.countP (fun s => bucketOf s.name = b ∧ SymbolCovered L edges s) =
      ((L.filter (SymbolCovered L edges)).map Symbol.name).countP (bucketOf · = b) := by
  rw [List.countP_map, List.countP_filter]
  exact List.countP_congr fun s _ => by simp

variable (hL : (SymTable.parse mapText).Lists L)
include hL

/-- The tool's names are those of covered entries of the table. -/
theorem exists_entry {n : List Char} (h : n ∈ coveredNames mapText edges) :
    ∃ u ∈ (SymTable.parse mapText).syms, u ∈ L.filter (SymbolCovered L edges) ∧ u.name = n := by
  obtain ⟨e, he, s, hs, rfl⟩ := mem_coveredNames.1 h
  have hrange := hL.inRange_of_resolve hs
  have hentry := isFloor_of_floor_eq_some Symbol.key (SymTable.parse mapText).sorted hs
  exact ⟨s, hentry.mem, List.mem_filter.2 ⟨hrange.mem, decide_eq_true ⟨e, he, hrange⟩⟩, rfl⟩

/-- A covered name is that of a covered symbol. -/
theorem coveredNames_sub {n : List Char} (h : n ∈ coveredNames mapText edges) :
    n ∈ (L.filter (SymbolCovered L edges)).map Symbol.name := by
  obtain ⟨u, -, hu, rfl⟩ := exists_entry hL h
  exact List.mem_map_of_mem hu

/-- The covered symbols are counted exactly if the names collected are theirs, each once. -/
theorem covered_iff_perm :
    (∀ b, Tally.get (runAttribution mapText edges).coveredPerBucket b =
      L.countP fun s => bucketOf s.name = b ∧ SymbolCovered L edges s) ↔
    (coveredNames mapText edges).Perm ((L.filter (SymbolCovered L edges)).map Symbol.name) := by
  simp only [get_coveredPerBucket, countP_covered]
  constructor
  · exact perm_of_countP_eq bucketOf nodup_coveredNames fun n => coveredNames_sub hL
  · exact fun h b => h.countP_eq _

omit hL in
/-- The covered symbols of a list. -/
theorem mem_filter_covered {s : Symbol} :
    s ∈ L.filter (SymbolCovered L edges) ↔ s ∈ L ∧ SymbolCovered L edges s := by
  rw [List.mem_filter, decide_eq_true_eq]

/-- Covered symbols that are apart are found themselves. -/
theorem CoveredApart.resolve_eq (hapart : CoveredApart L edges) {e : U32 × U32} {s : Symbol}
    (he : e ∈ edges) (h : InRange L s e.2) :
    s ∈ (SymTable.parse mapText).syms ∧ (SymTable.parse mapText).resolve e.2 = some s := by
  obtain ⟨u, hu, hres, hkey⟩ := hL.resolve_of_inRange h
  have hnodup : ((L.filter (SymbolCovered L edges)).map Symbol.addr).Nodup :=
    List.pairwise_map.2 (hapart.imp And.right)
  have hus : u = s := by
    refine List.inj_on_of_nodup_map hnodup ?_ ?_ (Symbol.addr_eq_of_key_eq hkey)
    · exact mem_filter_covered.2 ⟨hL.sub u hu, e, he, hL.inRange_of_resolve hres⟩
    · exact mem_filter_covered.2 ⟨h.mem, e, he, h⟩
  exact hus ▸ ⟨hu, hres⟩

/-- Two covered symbols at one address can not both have their name collected. -/
theorem apart_of_perm (h : (coveredNames mapText edges).Perm
    ((L.filter (SymbolCovered L edges)).map Symbol.name)) : CoveredApart L edges := by
  have hnodup := h.nodup_iff.1 nodup_coveredNames
  have hentry : ∀ s ∈ L.filter (SymbolCovered L edges), s ∈ (SymTable.parse mapText).syms := by
    intro s hs
    obtain ⟨u, hu, hcov, hname⟩ := exists_entry hL (h.mem_iff.2 (List.mem_map_of_mem hs))
    exact List.inj_on_of_nodup_map hnodup hcov hs hname ▸ hu
  refine (List.pairwise_map.1 hnodup).imp_of_mem fun {s u} hs hu hname => ⟨hname, fun haddr => ?_⟩
  have hkey : s.key = u.key := congrArg BitVec.toNat haddr
  exact hname (congrArg Symbol.name (SymTable.eq_of_key_eq (hentry s hs) (hentry u hu) hkey))

/-- If names are apart, the covered names are those of the covered symbols. -/
theorem CoveredApart.perm (h : CoveredApart L edges) : (coveredNames mapText edges).Perm
    ((L.filter (SymbolCovered L edges)).map Symbol.name) := by
  have hnodup : ((L.filter (SymbolCovered L edges)).map Symbol.name).Nodup :=
    List.pairwise_map.2 (h.imp And.left)
  refine (List.perm_ext_iff_of_nodup nodup_coveredNames hnodup).2 fun n => ?_
  refine ⟨coveredNames_sub hL, fun hn => ?_⟩
  obtain ⟨s, hs, rfl⟩ := List.mem_map.1 hn
  obtain ⟨-, e, he, hrange⟩ := mem_filter_covered.1 hs
  exact mem_coveredNames.2 ⟨e, he, s, (h.resolve_eq hL he hrange).2, rfl⟩

/-- Of a bucket whose symbols are all covered, the table has each. -/
theorem CoveredApart.perm_bucket (h : CoveredApart L edges) {b : String}
    (hall : ∀ s ∈ L, bucketOf s.name = b → SymbolCovered L edges s) :
    ((SymTable.parse mapText).syms.filter (bucketOf ·.name = b)).Perm
      (L.filter (bucketOf ·.name = b)) := by
  have hsyms : (SymTable.parse mapText).syms.Nodup :=
    List.Nodup.of_map Symbol.key (nodup_map_of_pairwise Symbol.key (SymTable.parse mapText).sorted)
  have hL' : (L.filter (bucketOf ·.name = b)).Nodup := by
    have hcov : (L.filter (SymbolCovered L edges)).Nodup :=
      h.imp fun hst heq => hst.1 (congrArg Symbol.name heq)
    have hfilter : L.filter (bucketOf ·.name = b) =
        (L.filter (SymbolCovered L edges)).filter (bucketOf ·.name = b) := by
      rw [List.filter_filter]
      refine List.filter_congr fun s hs => ?_
      by_cases hb : bucketOf s.name = b
      · simp [hb, hall s hs hb]
      · simp [hb]
    exact hfilter ▸ hcov.filter _
  refine (List.perm_ext_iff_of_nodup (hsyms.filter _) hL').2 fun s => ?_
  rw [List.mem_filter, List.mem_filter]
  refine and_congr_left fun hb => ⟨hL.sub s, fun hs => ?_⟩
  obtain ⟨e, he, hrange⟩ := hall s hs (of_decide_eq_true hb)
  exact (h.resolve_eq hL he hrange).1

/-- A list that the table represents is attributed exactly if its covered symbols are apart. -/
theorem attributesExactly_iff : AttributesExactly mapText L edges ↔ CoveredApart L edges := by
  constructor
  · exact fun h => apart_of_perm hL ((covered_iff_perm hL).1 h.covered)
  · intro h
    have hcovered := (covered_iff_perm hL).2 (h.perm hL)
    refine ⟨parseCovDump_writeCoverage edges, fun _ _ => hL.inRange_of_resolve,
      fun _ => hL.resolve_eq_none_iff, hcovered, fun b => ?_, fun b hall => ?_⟩
    · rw [get_coveredPerBucket, get_totalPerBucket]
      refine countP_le_of_subset bucketOf nodup_coveredNames (fun n hn => ?_) b
      obtain ⟨u, hu, -, rfl⟩ := exists_entry hL hn
      exact List.mem_map_of_mem hu
    · have hperm := h.perm_bucket hL hall
      rw [hcovered, get_totalPerBucket, List.countP_map]
      calc L.countP (fun s => bucketOf s.name = b ∧ SymbolCovered L edges s)
          = L.countP (bucketOf ·.name = b) := by
            refine List.countP_congr fun s hs => ?_
            simp only [decide_eq_true_eq]
            exact and_iff_left_of_imp (hall s hs)
        _ = (L.filter (bucketOf ·.name = b)).length := List.countP_eq_length_filter
        _ = ((SymTable.parse mapText).syms.filter (bucketOf ·.name = b)).length :=
            hperm.length_eq.symm
        _ = (SymTable.parse mapText).syms.countP (bucketOf ·.name = b) :=
            List.countP_eq_length_filter.symm

end

/-! ## The theorem -/

/-- The tool counts the text symbols of a map exactly if the covered ones have different names and
different addresses; the entries of its own table exactly if the covered ones have different
names. -/
theorem attribution_exact_iff (mapText : List Char) (edges : List (U32 × U32)) :
    (AttributesExactly mapText (textSymbols mapText) edges ↔
        CoveredApart (textSymbols mapText) edges) ∧
      (AttributesExactly mapText (SymTable.parse mapText).syms edges ↔
        CoveredApart (SymTable.parse mapText).syms edges) :=
  ⟨attributesExactly_iff (SymTable.lists_textSymbols mapText),
    attributesExactly_iff (SymTable.lists_syms _)⟩

/-- Two functions of one name. -/
def sameNameMap : List Char := "10 t a\n20 t a\n".toList

/-- Both are covered, and one is counted. -/
theorem same_name_counted_once :
    ¬ AttributesExactly sameNameMap (textSymbols sameNameMap) [(0, 0x10), (0, 0x20)] ∧
      ¬ AttributesExactly sameNameMap (SymTable.parse sameNameMap).syms
        [(0, 0x10), (0, 0x20)] := by
  have hsyms : (SymTable.parse sameNameMap).syms = textSymbols sameNameMap :=
    sortedTable_of_pairwise Symbol.key (by decide +kernel)
  have happ : ¬ CoveredApart (textSymbols sameNameMap) [(0, 0x10), (0, 0x20)] := by
    unfold CoveredApart
    decide +kernel
  constructor
  · exact fun h => happ ((attributesExactly_iff (SymTable.lists_textSymbols _)).1 h)
  · exact fun h => happ (hsyms ▸ (attributesExactly_iff (SymTable.lists_syms _)).1 h)

end FuzzSoft
