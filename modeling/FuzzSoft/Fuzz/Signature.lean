import FuzzSoft.Lib.Words
import FuzzSoft.Prog.CorpusDir

/-!
# Crash signatures

A crash is known by a hash taken from the console text: the kernel program counter of a register
dump, else the symbol that allocated the object, else the report line without its addresses. Only
tokens are dropped from that line, and a token is taken for an address if it is hexadecimal digits
throughout or has a `0x` in it. So an address with a colon, a bracket or a range about it stays, and
the signature changes with the place the object happened to have.
-/

namespace FuzzSoft

open Lib

/-- `char::is_ascii_hexdigit`. -/
def isHexDigit (c : Char) : Bool :=
  c.isDigit || ('a' ≤ c && c ≤ 'f') || ('A' ≤ c && c ≤ 'F')

/-- The value of a hexadecimal digit. -/
def hexValue (c : Char) : Nat :=
  if c.isDigit then c.toNat - 0x30 else if 'a' ≤ c then c.toNat - 0x57 else c.toNat - 0x37

/-- `u32::from_str_radix` of hexadecimal digits. -/
def fromHex (digits : List Char) : Option U32 :=
  let v := digits.foldl (fun v c => 16 * v + hexValue c) 0
  if digits ≠ [] ∧ v < 2 ^ 32 then some (BitVec.ofNat 32 v) else none

/-- `str::trim`. -/
def trim (s : List Char) : List Char := trimBy isWhitespace s

def stripCr (l : List Char) : List Char := if l.getLast? = some '\r' then l.dropLast else l

/-- `str::lines`: a carriage return before a line end belongs to it, and nothing follows the last
line end. -/
def lines (s : List Char) : List (List Char) :=
  let parts := s.splitOnP (· == '\n')
  parts.dropLast.map stripCr ++ parts.getLast?.toList.filter (· ≠ [])

/-! ## The signature -/

def EPC : List Char := "epc : ".toList
def ALLOCATED_IN : List Char := "Allocated in ".toList
def REPORT_WORDS : List (List Char) :=
  ["Redzone".toList, "Poison".toList, "Object already free".toList, "Freepointer".toList,
   "Padding overwritten".toList]
def BUG : List Char := "BUG".toList
def HEX_PREFIX : List Char := ['0', 'x']

/-- The program counter of a register dump. -/
def parseEpc (s : List Char) : Option U32 := do
  let rest ← after EPC s
  fromHex (rest.takeWhile isHexDigit)

/-- The symbol goes on. -/
def inSite (c : Char) : Bool := c ≠ '+' && c ≠ ' ' && c ≠ '\n'

/-- The symbol of the allocation site, if it is recorded. -/
def allocSite (s : List Char) : Option (List Char) := do
  let rest ← after ALLOCATED_IN s
  let site := rest.takeWhile inSite
  if site ≠ [] then some site else none

def isReportLine (l : List Char) : Bool := REPORT_WORDS.any (contains · l) || decide (BUG <+: l)

/-- The first line of a report. -/
def reportLine (s : List Char) : List Char := (((lines s).map trim).find? isReportLine).getD []

/-- A token that does not look like an address. -/
def stays (tok : List Char) : Bool :=
  !contains HEX_PREFIX tok && !(decide ((utf8 tok).length ≥ 6) && tok.all isHexDigit)

/-- The line without its addresses. -/
def normalized (line : List Char) : List Char :=
  [' '].intercalate ((splitWhitespace line).filter stays)

/-- The signature of a report without a register dump. -/
def reportLineSig (s : List Char) : U32 :=
  match allocSite s with
  | some site => fnv1a site
  | none => fnv1a (normalized (reportLine s))

def hardFault (s : List Char) : Bool :=
  contains "Unable to handle kernel".toList s || contains "KASAN:".toList s ||
    contains "kernel BUG at".toList s ||
    (contains "Oops".toList s && !contains "Attempted to kill init".toList s)

def slubReport (s : List Char) : Bool :=
  contains "Redzone overwritten".toList s || contains "Poison overwritten".toList s ||
    contains "Object already free".toList s || contains "Freepointer corrupt".toList s ||
    contains "Padding overwritten".toList s

/-- The signature of what a case printed, if the kernel crashed. -/
def kernelCrashSig (s : List Char) : Option U32 :=
  if hardFault s then some ((parseEpc s).getD (reportLineSig s))
  else if slubReport s then some (reportLineSig s)
  else none

/-! ## Texts that differ in their addresses -/

/-- The text with its addresses hidden: the runs of exactly eight hexadecimal digits. -/
def unaddressed (s : List Char) : List (Option Char) := blank isHexDigit 8 s

/-- Two texts are the same but for the digits of their addresses. -/
def Readdressed (s t : List Char) : Prop := unaddressed s = unaddressed t

instance (s t : List Char) : Decidable (Readdressed s t) := inferInstanceAs (Decidable (_ = _))

/-- An allocator's report. -/
def AllocatorReport (s : List Char) : Prop := hardFault s = false ∧ slubReport s = true

/-- An allocator's report with no register dump and no allocation site. -/
structure BareReport (s : List Char) : Prop where
  report : AllocatorReport s
  epc : parseEpc s = none
  site : allocSite s = none

/-- Whatever addresses such a report shows, its signature is the same. -/
def SigStable (s : List Char) : Prop :=
  ∀ t, Readdressed s t → BareReport t →
    reportLineSig t = reportLineSig s ∧ kernelCrashSig t = kernelCrashSig s

/-- A token shows no address, or is one, or has a `0x` that is not made by the last digit of one. -/
def Shed (tok : List Char) : Prop :=
  none ∉ unaddressed tok ∨ unaddressed tok = List.replicate 8 none ∨
    HEX_PREFIX.map some <:+: unaddressed tok

/-- The search for the report line comes to this line. -/
def Searched (s l : List Char) : Prop :=
  ∃ before after, (lines s).map trim = before ++ l :: after ∧
    ∀ b ∈ before, isReportLine b = false

/-- Where the digits of addresses may complete a word of a report, the line is one of a report
whatever the digits are. -/
def Steady (l : List Char) : Prop :=
  (∃ w ∈ REPORT_WORDS, MayOccur isHexDigit w (unaddressed l)) →
    (∃ w ∈ REPORT_WORDS, w.map some <:+: unaddressed l) ∨ BUG <+: l

/-- The digits lie in one stretch of the ASCII table. -/
theorem isHexDigit_range {c : Char} (h : isHexDigit c = true) :
    0x30 ≤ c.toNat ∧ c.toNat ≤ 0x66 := by
  simp only [isHexDigit, Char.isDigit, Bool.or_eq_true, Bool.and_eq_true, decide_eq_true_eq,
    Char.le_def, UInt32.le_iff_toNat_le, ge_iff_le, show '0'.val.toNat = 0x30 from rfl,
    show '9'.val.toNat = 0x39 from rfl, show 'a'.val.toNat = 0x61 from rfl,
    show 'f'.val.toNat = 0x66 from rfl, show 'A'.val.toNat = 0x41 from rfl,
    show 'F'.val.toNat = 0x46 from rfl] at h
  change 0x30 ≤ c.val.toNat ∧ c.val.toNat ≤ 0x66
  omega

/-- No whitespace is a digit. -/
theorem isHexDigit_of_isWhitespace {c : Char} (h : isWhitespace c = true) :
    isHexDigit c = false := by
  cases hc : isHexDigit c with
  | false => rfl
  | true =>
    have hrange := isHexDigit_range hc
    simp only [isWhitespace, Bool.or_eq_true, Bool.and_eq_true, decide_eq_true_eq] at h
    omega

/-- A digit is one byte. -/
theorem utf8_isHexDigit {c : Char} (h : isHexDigit c = true) :
    String.utf8EncodeChar c = [UInt8.ofNat c.toNat] := by
  have hrange := (isHexDigit_range h).2
  have hle : c.toNat ≤ 127 := Nat.le_trans hrange (by decide)
  simp [String.utf8EncodeChar, hle]

/-- Another digit, of another byte. -/
theorem exists_other_digit {c : Char} (h : isHexDigit c = true) : ∃ d b e, isHexDigit d = true ∧
    String.utf8EncodeChar c = [b] ∧ String.utf8EncodeChar d = [e] ∧ b ≠ e := by
  obtain ⟨d, hd, hne⟩ : ∃ d, isHexDigit d = true ∧ c ≠ d := by
    by_cases hc : c = '0'
    · exact ⟨'1', rfl, hc ▸ by decide⟩
    · exact ⟨'0', rfl, hc⟩
  refine ⟨d, _, _, hd, utf8_isHexDigit h, utf8_isHexDigit hd, fun hbyte => hne ?_⟩
  have hnat := congrArg UInt8.toNat hbyte
  have hc := (isHexDigit_range h).2
  have hd := (isHexDigit_range hd).2
  rw [UInt8.toNat_ofNat', UInt8.toNat_ofNat', Nat.mod_eq_of_lt (by omega),
    Nat.mod_eq_of_lt (by omega)] at hnat
  exact Char.toNat_inj.mp hnat

/-! ## The report line -/

section
variable {s t : List Char}

/-- A carriage return is trimmed anyway. -/
theorem trim_stripCr (l : List Char) : trim (stripCr l) = trim l := by
  unfold stripCr
  split
  next h =>
    obtain ⟨l, rfl⟩ := List.getLast?_eq_some_iff.mp h
    have hcr : ∀ c ∈ ['\r'], isWhitespace c = true := List.all_eq_true.1 (by decide)
    have htrim := @trimBy_of_trimmed _ isWhitespace [] ['\r'] l (by simp) hcr
    rw [List.dropLast_concat]
    rw [List.nil_append] at htrim
    exact htrim.symm
  next => rfl

/-- The ends of the lines do not matter once the lines are trimmed. -/
theorem find_lines (s : List Char) : ((lines s).map trim).find? isReportLine =
    ((s.splitOnP (· == '\n')).map trim).find? isReportLine := by
  unfold lines
  rcases List.eq_nil_or_concat' (s.splitOnP (· == '\n')) with hnil | ⟨parts, l, hl⟩
  · exact absurd hnil (List.splitOnP_ne_nil _ s)
  · rw [hl]
    simp only [List.dropLast_concat, List.getLast?_concat, Option.toList_some, List.map_append,
      List.map_map, List.find?_append]
    rw [show trim ∘ stripCr = trim from funext trim_stripCr]
    cases l with
    | nil =>
      have hnil : [trim []].find? isReportLine = none := by decide
      rw [List.map_cons, List.map_nil, hnil]
      rfl
    | cons c l => rfl

/-- The report line is the first one among the trimmed lines. -/
theorem reportLine_eq (s : List Char) : reportLine s =
    (((s.splitOnP (· == '\n')).map trim).find? isReportLine).getD [] := by
  rw [reportLine, find_lines]

/-! ## Signatures that do not change -/

/-- The `BUG:` prefix shows in the line without its addresses. -/
theorem prefix_BUG_iff {l : List Char} : BUG <+: l ↔ BUG.map some <+: unaddressed l := by
  constructor
  · rintro ⟨r, rfl⟩
    have h := @blank_append _ isHexDigit 8 ['B'] ('G' :: r) 'U' rfl
    rw [blank_cons (show isHexDigit 'G' = false from rfl)] at h
    exact ⟨blank isHexDigit 8 r, h.symm⟩
  · exact prefix_of_blank

/-- A report line contains one of the words or starts with `BUG:`. -/
theorem isReportLine_iff {l : List Char} :
    isReportLine l = true ↔ (∃ w ∈ REPORT_WORDS, w <:+: l) ∨ BUG <+: l := by
  rw [isReportLine, Bool.or_eq_true, List.any_eq_true, decide_eq_true_eq]
  exact or_congr_left (exists_congr fun w => and_congr_right fun _ => contains_iff)

/-- A steady line of a report is one with any addresses. -/
theorem Steady.reports {l m : List Char} (hl : Steady l) (hre : Readdressed l m)
    (h : isReportLine l = true) : isReportLine m = true := by
  have hbug (hb : BUG <+: l) : isReportLine m = true :=
    isReportLine_iff.mpr (.inr (prefix_BUG_iff.mpr (hre ▸ prefix_BUG_iff.mp hb)))
  rcases isReportLine_iff.mp h with ⟨w, hw, hin⟩ | hb
  · rcases hl ⟨w, hw, mayOccur_blank hin⟩ with ⟨w, hw, hin⟩ | hb
    · rw [hre] at hin
      exact isReportLine_iff.mpr (.inl ⟨w, hw, infix_of_blank hin⟩)
    · exact hbug hb
  · exact hbug hb

/-- A line with other addresses is as steady. -/
theorem Steady.readdressed {l m : List Char} (hl : Steady l) (hre : Readdressed l m) :
    Steady m := by
  rw [Steady, ← show unaddressed l = unaddressed m from hre, prefix_BUG_iff,
    ← show unaddressed l = unaddressed m from hre, ← prefix_BUG_iff]
  exact hl

/-- Whether a steady line is one of a report does not depend on the addresses. -/
theorem isReportLine_readdressed {l m : List Char} (hl : Steady l) (h : Readdressed l m) :
    isReportLine l = isReportLine m :=
  Bool.eq_iff_iff.mpr ⟨hl.reports h, (hl.readdressed h).reports h.symm⟩

/-- Only of a steady line this can be said: what is not steady is a line of a report with some
addresses and none with others. -/
theorem steady_iff {l : List Char} :
    Steady l ↔ ∀ m, Readdressed l m → isReportLine l = isReportLine m := by
  refine ⟨fun hl m => isReportLine_readdressed hl, fun h => ?_⟩
  rintro ⟨w, hw, v, ⟨x, y, hxy⟩, hfit⟩
  -- zeros make no word, so what they leave is there with all addresses
  have hzero (b : List (Option Char)) (hb : ∀ o ∈ b, Fits isHexDigit (o.getD '0') o) :
      List.Forall₂ (Fits isHexDigit) (b.map (·.getD '0')) b := by
    rw [List.forall₂_map_left_iff, List.forall₂_same]
    exact hb
  have hfill : ∀ o : Option Char, Fits isHexDigit (o.getD '0') o
    | some _ => rfl
    | none => rfl
  have hword : Readdressed l (x.map (·.getD '0') ++ w ++ y.map (·.getD '0')) := by
    refine (blank_of_fits ?_).symm
    rw [← show unaddressed l = blank isHexDigit 8 l from rfl, ← hxy]
    exact List.rel_append (List.rel_append (hzero x fun o _ => hfill o) hfit)
      (hzero y fun o _ => hfill o)
  have hzeros : Readdressed l ((unaddressed l).map (·.getD '0')) :=
    (blank_of_fits (hzero _ fun o _ => hfill o)).symm
  have hreport : isReportLine l = true := by
    rw [h _ hword]
    exact isReportLine_iff.mpr (.inl ⟨w, hw, _, _, rfl⟩)
  rw [h _ hzeros] at hreport
  rcases isReportLine_iff.mp hreport with ⟨w, hw, hin⟩ | hbug
  · have hfree : ∀ w ∈ REPORT_WORDS, '0' ∉ w := by decide
    exact .inl ⟨w, hw, infix_map_getD (hfree w hw) hin⟩
  · exact .inr (prefix_BUG_iff.mpr (hzeros ▸ prefix_BUG_iff.mp hbug))

/-- Two searches find the same, up to what the predicate does not see of the elements that the
first comes to. -/
theorem map_find?_congr {α β : Type} {f : α → β} {p : α → Bool} {l m : List α}
    (h : l.map f = m.map f)
    (hp : ∀ before a after, l = before ++ a :: after → (∀ c ∈ before, p c = false) →
      ∀ b, f a = f b → p a = p b) :
    (l.find? p).map f = (m.find? p).map f := by
  induction l generalizing m with
  | nil => rw [List.map_eq_nil_iff.mp h.symm]
  | cons a l ih =>
    obtain ⟨b, m, rfl, hab, hlm⟩ := List.map_eq_cons_iff.mp h.symm
    have hpab := hp [] a l rfl (by simp) b hab.symm
    cases ha : p a with
    | true =>
      rw [List.find?_cons_of_pos ha, List.find?_cons_of_pos (hpab ▸ ha)]
      exact congrArg some hab.symm
    | false =>
      rw [List.find?_cons_of_neg (by simp [ha]), List.find?_cons_of_neg (by simp [← hpab, ha])]
      refine ih hlm.symm fun before c after hl hno => hp (a :: before) c after (by rw [hl]; rfl) ?_
      intro c hc
      rcases List.mem_cons.mp hc with rfl | hc
      · exact ha
      · exact hno c hc

/-- Lists that agree where the filter looks filter alike. -/
theorem filter_congr_map {α β : Type} {f : α → β} {p : α → Bool} {l m : List α}
    (h : l.map f = m.map f) (hp : ∀ a ∈ l, ∀ b, f a = f b → p a = p b ∧ (p a = true → a = b)) :
    l.filter p = m.filter p := by
  induction l generalizing m with
  | nil => rw [List.map_eq_nil_iff.mp h.symm]
  | cons a l ih =>
    obtain ⟨b, m, rfl, hab, hlm⟩ := List.map_eq_cons_iff.mp h.symm
    obtain ⟨hpab, heq⟩ := hp a List.mem_cons_self b hab.symm
    have hrest := ih hlm.symm fun a ha => hp a (List.mem_cons_of_mem _ ha)
    cases ha : p a with
    | true => rw [List.filter_cons_of_pos ha, List.filter_cons_of_pos (hpab ▸ ha), hrest, heq ha]
    | false =>
      rw [List.filter_cons_of_neg (by simp [ha]), List.filter_cons_of_neg (by simp [← hpab, ha]),
        hrest]

/-- A newline is not a digit. -/
theorem isHexDigit_of_newline {c : Char} (h : (c == '\n') = true) : isHexDigit c = false := by
  rw [eq_of_beq h]
  rfl

/-- The empty line is steady. -/
theorem steady_nil : Steady [] := by
  rintro ⟨w, hw, v, hv, hfit⟩
  have hnil : v = [] := List.infix_nil.mp hv
  rw [hnil] at hfit
  cases hfit
  exact absurd hw (by decide)

/-- The pieces between the line ends are the lines, but for an empty one at the end. -/
theorem map_trim_splitOnP (s : List Char) :
    (s.splitOnP (· == '\n')).map trim = (lines s).map trim ∨
      (s.splitOnP (· == '\n')).map trim = (lines s).map trim ++ [[]] := by
  rcases List.eq_nil_or_concat' (s.splitOnP (· == '\n')) with hnil | ⟨parts, q, hq⟩
  · exact absurd hnil (List.splitOnP_ne_nil _ s)
  · have hlines : (lines s).map trim = parts.map trim ++ ([q].filter (· ≠ [])).map trim := by
      rw [lines, hq, List.dropLast_concat, List.getLast?_concat, Option.toList_some,
        List.map_append, List.map_map, show trim ∘ stripCr = trim from funext trim_stripCr]
    rw [hlines, hq, List.map_append]
    by_cases hne : q = []
    · subst hne
      exact .inr (by simp; rfl)
    · exact .inl (by simp [hne])

/-- What the search comes to among the pieces is steady. -/
theorem steady_parts (h : ∀ l, Searched s l → Steady l) {before after : List (List Char)}
    {l : List Char} (hparts : (s.splitOnP (· == '\n')).map trim = before ++ l :: after)
    (hno : ∀ b ∈ before, isReportLine b = false) : Steady l := by
  rcases map_trim_splitOnP s with hlines | hlines
  · exact h l ⟨before, after, hlines.symm.trans hparts, hno⟩
  · rw [hparts] at hlines
    rcases List.eq_nil_or_concat' after with rfl | ⟨after, q, rfl⟩
    · have hl : l = [] := (List.cons.inj (List.append_inj' hlines rfl).2).1
      rw [hl]
      exact steady_nil
    · refine h l ⟨before, after, ?_, hno⟩
      rw [← List.cons_append, ← List.append_assoc] at hlines
      exact (List.append_inj' hlines rfl).1.symm

/-- The report lines of two texts differ in addresses only if the lines up to the first are
steady. -/
theorem reportLine_readdressed (hs : ∀ l, Searched s l → Steady l) (h : Readdressed s t) :
    Readdressed (reportLine s) (reportLine t) := by
  have hparts : ((s.splitOnP (· == '\n')).map trim).map unaddressed =
      ((t.splitOnP (· == '\n')).map trim).map unaddressed := by
    have htrim : unaddressed ∘ trim = trimBy (Option.any isWhitespace) ∘ unaddressed :=
      funext fun l => blank_trimBy (fun _ hc => isHexDigit_of_isWhitespace hc) l
    rw [List.map_map, List.map_map, htrim, ← List.map_map, ← List.map_map]
    have hsplit (r : List Char) := @blank_splitOnP _ isHexDigit 8 (· == '\n')
      (fun c hc => isHexDigit_of_newline hc) r
    rw [show (s.splitOnP (· == '\n')).map unaddressed = _ from (hsplit s).symm,
      show (t.splitOnP (· == '\n')).map unaddressed = _ from (hsplit t).symm,
      show blank isHexDigit 8 s = blank isHexDigit 8 t from h]
  have hfind := map_find?_congr hparts fun _ _ _ hl hno _ hlm =>
    isReportLine_readdressed (steady_parts hs hl hno) hlm
  rw [reportLine_eq, reportLine_eq, Readdressed]
  revert hfind
  generalize ((s.splitOnP (· == '\n')).map trim).find? isReportLine = x
  generalize ((t.splitOnP (· == '\n')).map trim).find? isReportLine = y
  intro hfind
  cases x <;> cases y
  · rfl
  · cases hfind
  · cases hfind
  · exact Option.some.inj hfind

/-! ## What stays of a report line -/

/-- Other addresses are as long. -/
theorem length_readdressed {a b : List Char} (h : Readdressed a b) : a.length = b.length := by
  have := congrArg List.length h
  rwa [unaddressed, unaddressed, length_blank, length_blank] at this

/-- Eight hexadecimal digits do not stay. -/
theorem stays_address {a : List Char} (h : unaddressed a = List.replicate 8 none) :
    stays a = false := by
  have hfit : List.Forall₂ (Fits isHexDigit) a (List.replicate 8 none) := h ▸ fits_blank a
  have hlen : a.length = 8 := by rw [hfit.length_eq, List.length_replicate]
  have hall : a.all isHexDigit = true := by
    rw [List.all_eq_true]
    intro c hc
    obtain ⟨i, hi, rfl⟩ := List.mem_iff_getElem.mp hc
    have hi' := (List.forall₂_iff_get.mp hfit).2 i hi (by rwa [List.length_replicate, ← hlen])
    rw [List.get_eq_getElem, List.get_eq_getElem, List.getElem_replicate] at hi'
    exact hi'
  have hbytes : (utf8 a).length ≥ 6 := by
    have hle : ∀ l : List Char, l.length ≤ (utf8 l).length := by
      intro l
      induction l with
      | nil => exact Nat.le_refl _
      | cons c l ih =>
        have hc : 0 < (String.utf8EncodeChar c).length := by
          rw [String.length_utf8EncodeChar]
          exact c.utf8Size_pos
        simp only [utf8, List.flatMap_cons, List.length_append, List.length_cons] at ih ⊢
        omega
    have := hle a
    omega
  rw [stays, hall, decide_eq_true hbytes]
  simp

/-- A token that sheds its addresses goes the same way with any addresses. -/
theorem stays_readdressed {a b : List Char} (ha : Shed a) (h : Readdressed a b) :
    stays a = stays b ∧ (stays a = true → a = b) := by
  rcases ha with ha | ha | ha
  · have hab := eq_of_blank ha h
    exact ⟨hab ▸ rfl, fun _ => hab⟩
  · rw [stays_address ha, stays_address (h.symm.trans ha)]
    exact ⟨rfl, nofun⟩
  · have hin (c : List Char) (hc : HEX_PREFIX.map some <:+: unaddressed c) : stays c = false := by
      rw [stays, contains_iff.mpr (infix_of_blank hc)]
      rfl
    rw [hin a ha, hin b (h ▸ ha)]
    exact ⟨rfl, nofun⟩

/-- A line whose varying tokens are shed normalizes to one text. -/
theorem normalized_readdressed {l m : List Char} (hl : ∀ tok ∈ splitWhitespace l, Shed tok)
    (h : Readdressed l m) : normalized l = normalized m := by
  have hsplit (r : List Char) := @blank_splitOnP _ isHexDigit 8 isWhitespace
    (fun c hc => isHexDigit_of_isWhitespace hc) r
  have hmap : (l.splitOnP isWhitespace).map unaddressed =
      (m.splitOnP isWhitespace).map unaddressed := by
    rw [show (l.splitOnP isWhitespace).map unaddressed = _ from (hsplit l).symm,
      show (m.splitOnP isWhitespace).map unaddressed = _ from (hsplit m).symm,
      show blank isHexDigit 8 l = blank isHexDigit 8 m from h]
  rw [normalized, normalized, splitWhitespace, splitWhitespace, List.filter_filter,
    List.filter_filter]
  refine congrArg _ (filter_congr_map hmap fun a ha b hab => ?_)
  have hlen := length_readdressed hab
  by_cases hne : a = []
  · have hb : b = [] := List.length_eq_zero_iff.mp (hlen ▸ congrArg List.length hne)
    simp [hne, hb]
  · have hb : b ≠ [] := fun hb => hne (List.length_eq_zero_iff.mp (hlen.trans (congrArg _ hb)))
    have hshed := hl a (List.mem_filter.mpr ⟨ha, by simpa using hne⟩)
    simpa [hne, hb] using stays_readdressed hshed hab

/-- A bare report has the signature of its report line. -/
theorem BareReport.sig (h : BareReport s) :
    reportLineSig s = fnv1a (normalized (reportLine s)) ∧
      kernelCrashSig s = some (reportLineSig s) := by
  refine ⟨by rw [reportLineSig, h.site], ?_⟩
  rw [kernelCrashSig, h.report.1, h.report.2]
  rfl

/-- Where no word of a report is completed by an address, and the report line sheds its addresses,
the signature does not depend on addresses. -/
theorem sigStable_of_shed (hb : BareReport s) (hs : ∀ l, Searched s l → Steady l)
    (hshed : ∀ tok ∈ splitWhitespace (reportLine s), Shed tok) : SigStable s := by
  intro t h ht
  have hsig : reportLineSig t = reportLineSig s := by
    rw [ht.sig.1, hb.sig.1, normalized_readdressed hshed (reportLine_readdressed hs h)]
  exact ⟨hsig, by rw [ht.sig.2, hb.sig.2, hsig]⟩

/-! ## One digit of an address changes -/

/-- Every word that the whole text is searched for. -/
def WORDS : List (List Char) :=
  [EPC, ALLOCATED_IN, BUG] ++ REPORT_WORDS ++
    ["Unable to handle kernel".toList, "KASAN:".toList, "kernel BUG at".toList, "Oops".toList,
     "Attempted to kill init".toList, "Redzone overwritten".toList, "Poison overwritten".toList,
     "Freepointer corrupt".toList, "Padding overwritten".toList]

/-- Near every place of the word is something else than a hexadecimal digit: three places before it
to four behind. -/
def Sparse (w : List Char) : Prop :=
  ∀ k < w.length, ∃ j < w.length, k ≤ j + 3 ∧ j ≤ k + 4 ∧ (w[j]?).any isHexDigit = false

instance (w : List Char) : Decidable (Sparse w) := inferInstanceAs (Decidable (∀ k < _, _))

/-- No report word is made of digits, and none contains an `x`. -/
theorem sparse_WORDS : ∀ w ∈ WORDS, Sparse w ∧ 'x' ∉ w := by decide

/-- Nor is the prefix `0x`. -/
theorem sparse_HEX_PREFIX : Sparse HEX_PREFIX := by decide

/-- A sparse word can not be laid over a place behind three digits of an address and before four
more, nor before a character that the word does not have. -/
theorem not_covers {w x y a : List Char} (hw : Sparse w) (ha : a.length = 3)
    (hpa : ∀ c ∈ a, isHexDigit c = true)
    (hy : (∃ b y', y = b ++ y' ∧ b.length = 4 ∧ ∀ c ∈ b, isHexDigit c = true) ∨
      ∃ e y', y = e :: y' ∧ e ∉ w) : ¬ Covers isHexDigit w (x ++ a) y := by
  rintro ⟨u, d, v, rfl, hd, hu, hv⟩
  obtain ⟨j, hj, hkj, hjk, hnot⟩ := hw u.length (by simp)
  rcases Nat.lt_trichotomy j u.length with hlt | rfl | hgt
  · -- the place is one of the last three before
    obtain ⟨z, hz⟩ := hu
    have hlen := congrArg List.length hz
    simp only [List.length_append, ha] at hlen
    have hget : (x ++ a)[z.length + j]? = u[j]? := by
      rw [← hz, List.getElem?_append_right (Nat.le_add_right _ _), Nat.add_sub_cancel_left]
    rw [List.getElem?_append_left hlt, ← hget,
      List.getElem?_append_right (by omega)] at hnot
    cases hc : a[z.length + j - x.length]? with
    | none =>
      rw [List.getElem?_eq_none_iff] at hc
      omega
    | some c =>
      rw [hc] at hnot
      have := hpa c (List.mem_of_getElem? hc)
      simp [this] at hnot
  · rw [List.getElem?_append_right (Nat.le_refl _), Nat.sub_self] at hnot
    simp [hd] at hnot
  · -- the place is one of the next four, so the text goes on with digits
    obtain ⟨i, rfl⟩ : ∃ i, j = u.length + (i + 1) := ⟨j - u.length - 1, by omega⟩
    rw [List.getElem?_append_right (by omega), Nat.add_sub_cancel_left,
      List.getElem?_cons_succ] at hnot
    simp only [List.length_append, List.length_cons] at hj
    obtain ⟨z, hz⟩ := hv
    rcases hy with ⟨b, y', rfl, hb, hpb⟩ | ⟨e, y', rfl, he⟩
    · have hget : v[i]? = b[i]? := by
        have := congrArg (·[i]?) hz
        simpa [List.getElem?_append_left (show i < v.length by omega),
          List.getElem?_append_left (show i < b.length by omega)] using this
      have hmem := hpb b[i] (List.getElem_mem (by omega))
      rw [hget, List.getElem?_eq_getElem (by omega)] at hnot
      simp [hmem] at hnot
    · cases v with
      | nil => simp at hj
      | cons e' v =>
        cases hz
        exact he (by simp)

/-- Multiplication by the prime of the hash can be undone. -/
theorem fnv1a_mul_injective {a b : U32} (h : a * 0x01000193 = b * 0x01000193) : a = b := by
  have hinv : (0x01000193 : U32) * 0x359c449b = 1#32 := by decide
  have hx := congrArg (· * (0x359c449b : U32)) h
  simpa only [BitVec.mul_assoc, hinv, BitVec.mul_one] using hx

/-- Texts that differ in one byte have different hashes. -/
theorem fnv1a_ne {x y : List Char} {c d : Char} {b e : UInt8} (hc : String.utf8EncodeChar c = [b])
    (hd : String.utf8EncodeChar d = [e]) (hne : b ≠ e) :
    fnv1a (x ++ c :: y) ≠ fnv1a (x ++ d :: y) := by
  have hutf {c : Char} {b : UInt8} (hc : String.utf8EncodeChar c = [b]) :
      utf8 (x ++ c :: y) = utf8 x ++ b :: utf8 y := by
    simp [utf8, hc]
  rw [fnv1a, fnv1a, hutf hc, hutf hd, List.foldl_append, List.foldl_append, List.foldl_cons,
    List.foldl_cons]
  intro heq
  have hfold : ∀ (l : List UInt8) {h k : U32},
      l.foldl (fun h b => (h ^^^ b.toBitVec.setWidth 32) * 0x01000193) h =
        l.foldl (fun h b => (h ^^^ b.toBitVec.setWidth 32) * 0x01000193) k → h = k := by
    intro l
    induction l with
    | nil => exact fun h => h
    | cons b l ih => exact fun h => (BitVec.xor_left_inj _).mp (fnv1a_mul_injective (ih h))
  have hbits := (BitVec.xor_right_inj _).mp (fnv1a_mul_injective (hfold _ heq))
  have hset := congrArg (BitVec.setWidth 8) hbits
  rw [BitVec.setWidth_setWidth_of_le _ (by decide), BitVec.setWidth_setWidth_of_le _ (by decide),
    BitVec.setWidth_eq, BitVec.setWidth_eq] at hset
  exact hne (UInt8.toBitVec_inj.mp hset)

/-- One character of one part in a joined text. -/
theorem intercalate_around (sep : Char) (x y : List Char) (before after : List (List Char)) :
    ∃ u v, ∀ c, [sep].intercalate (before ++ (x ++ c :: y) :: after) = u ++ c :: v := by
  induction before with
  | nil =>
    cases after with
    | nil => exact ⟨x, y, fun c => by simp⟩
    | cons m after =>
      exact ⟨x, y ++ sep :: [sep].intercalate (m :: after), fun c => by
        simp [List.intercalate_cons_cons]⟩
  | cons l before ih =>
    obtain ⟨u, v, h⟩ := ih
    refine ⟨l ++ sep :: u, v, fun c => ?_⟩
    have hne : before ++ (x ++ c :: y) :: after ≠ [] := by simp
    obtain ⟨m, rest, hm⟩ := List.exists_cons_of_ne_nil hne
    rw [List.cons_append, hm, List.intercalate_cons_cons, ← hm, h]
    simp

/-- A character of a line is no newline. -/
theorem not_newline {c : Char} (h : isWhitespace c = false) : (c == '\n') = false := by
  cases hc : c == '\n' with
  | false => rfl
  | true => rw [eq_of_beq hc] at h; cases h

/-- A digit is no whitespace. -/
theorem not_whitespace {c : Char} (h : isHexDigit c = true) : isWhitespace c = false := by
  cases hw : isWhitespace c with
  | false => rfl
  | true => rw [isHexDigit_of_isWhitespace hw] at h; cases h

/-- Exchanging a digit outside the words keeps a report line one. -/
theorem isReportLine_exchange {x y : List Char} {c d : Char} (hc : isHexDigit c = true)
    (hd : isHexDigit d = true) (hw : ∀ w ∈ WORDS, ¬ Covers isHexDigit w x y) :
    isReportLine (x ++ c :: y) = isReportLine (x ++ d :: y) := by
  have hany : REPORT_WORDS.any (contains · (x ++ c :: y)) =
      REPORT_WORDS.any (contains · (x ++ d :: y)) := by
    rw [Bool.eq_iff_iff, List.any_eq_true, List.any_eq_true]
    refine exists_congr fun w => and_congr_right fun hmem => ?_
    have hmem' : w ∈ WORDS := List.mem_append_left _ (List.mem_append_right _ hmem)
    rw [contains_exchange (hw w hmem') hc hd]
  have hbug : decide (BUG <+: x ++ c :: y) = decide (BUG <+: x ++ d :: y) :=
    decide_eq_decide.mpr (prefix_exchange_iff (hw BUG (by decide)) hc hd)
  rw [isReportLine, hany, hbug, isReportLine]

/-- A digit of a token of the report line, in the whole text: where it stands, and what becomes of
the text and of the line's tokens when it changes. -/
theorem reportLine_exchange {a b : List Char} {c : Char} (hc : isHexDigit c = true)
    (htok : a ++ c :: b ∈ splitWhitespace (reportLine s)) :
    ∃ x y before after, s = x ++ c :: y ∧ a <:+ x ∧ b <+: y ∧
      splitWhitespace (reportLine s) = before ++ (a ++ c :: b) :: after ∧
      ∀ d, isHexDigit d = true → unaddressed (a ++ d :: b) = unaddressed (a ++ c :: b) →
        (∀ w ∈ WORDS, ¬ Covers isHexDigit w x y) → Readdressed s (x ++ d :: y) ∧
        splitWhitespace (reportLine (x ++ d :: y)) = before ++ (a ++ d :: b) :: after := by
  rw [reportLine_eq] at htok ⊢
  cases hfind : ((s.splitOnP (· == '\n')).map trim).find? isReportLine with
  | none =>
    rw [hfind] at htok
    cases htok
  | some line =>
    rw [hfind, Option.getD_some] at htok
    rw [Option.getD_some]
    -- the line among the lines, and the token among the pieces of the line
    obtain ⟨hreport, lbefore, lafter, hlines, hno⟩ := List.find?_eq_some_iff_append.mp hfind
    obtain ⟨hbefore, hrest, hsplit, hmb, hmr⟩ := List.map_eq_append_iff.mp hlines
    obtain ⟨l, hafter, rfl, hline, hma⟩ := List.map_eq_cons_iff.mp hmr
    obtain ⟨z, y₀, rfl, hz, hy₀, hl, hlrep⟩ := splitOnP_piece hsplit
    obtain ⟨p, q, hpq, hp, hq⟩ := @trimBy_append _ isWhitespace l
    have htrim : trimBy isWhitespace line = line := hline ▸ trimBy_trimBy l
    rw [show trimBy isWhitespace l = line from hline] at hpq
    obtain ⟨tbefore, tafter, htoks⟩ := List.append_of_mem (List.mem_of_mem_filter htok)
    obtain ⟨zt, yt, hlt, hzt, hyt, htw, htrep⟩ := splitOnP_piece htoks
    refine ⟨z ++ p ++ zt ++ a, b ++ yt ++ q ++ y₀, tbefore.filter (· ≠ []),
      tafter.filter (· ≠ []), ?_, List.suffix_append _ _, ?_, ?_, fun d hd hblank hw => ?_⟩
    · rw [hpq, hlt]
      simp
    · rw [List.append_assoc, List.append_assoc]
      exact List.prefix_append _ _
    · rw [splitWhitespace, htoks]
      simp
    · have htext : z ++ p ++ zt ++ a ++ d :: (b ++ yt ++ q ++ y₀) =
          z ++ (p ++ (zt ++ (a ++ d :: b) ++ yt) ++ q) ++ y₀ := by simp
      have hspace {r : List Char} (hr : ∀ e ∈ r, isWhitespace e = true) :
          (∀ e ∈ r.getLast?, isHexDigit e = false) ∧ ∀ e ∈ r.head?, isHexDigit e = false :=
        ⟨fun e he => isHexDigit_of_isWhitespace (hr e (List.mem_of_getLast? he)),
          fun e he => isHexDigit_of_isWhitespace (hr e (List.mem_of_head? he))⟩
      refine ⟨?_, ?_⟩
      · -- the text is blanked piece by piece
        rw [Readdressed, htext, hpq, hlt]
        have hbetween (m : List Char) : unaddressed (z ++ (p ++ (zt ++ m ++ yt) ++ q) ++ y₀) =
            unaddressed z ++ (unaddressed p ++
              (unaddressed zt ++ unaddressed m ++ unaddressed yt) ++ unaddressed q) ++
              unaddressed y₀ := by
          unfold unaddressed
          rw [blank_between (fun e he => isHexDigit_of_newline (hz e he))
              (fun e he => isHexDigit_of_newline (hy₀ e he)),
            blank_between (hspace hp).1 (hspace hq).2,
            blank_between (fun e he => isHexDigit_of_isWhitespace (hzt e he))
              (fun e he => isHexDigit_of_isWhitespace (hyt e he))]
        rw [hbetween, hbetween, hblank]
      · -- the other lines stay, and the line stays the first of a report
        have hwhite : ∀ e ∈ a ++ d :: b, isWhitespace e = false := by
          intro e he
          rcases List.mem_append.mp he with he | he
          · exact htw e (List.mem_append_left _ he)
          · rcases List.mem_cons.mp he with rfl | he
            · exact not_whitespace hd
            · exact htw e (List.mem_append_right _ (List.mem_cons_of_mem _ he))
        have hnewline : ∀ e ∈ p ++ (zt ++ (a ++ d :: b) ++ yt) ++ q, (e == '\n') = false := by
          have hold : ∀ e ∈ p ++ (zt ++ (a ++ c :: b) ++ yt) ++ q, (e == '\n') = false := by
            rw [← hlt, ← hpq]
            exact hl
          intro e he
          simp only [List.mem_append, List.mem_cons] at he hold
          by_cases hed : e = d
          · exact hed ▸ not_newline (not_whitespace hd)
          · refine hold e ?_
            tauto
        have hnew : trim (p ++ (zt ++ (a ++ d :: b) ++ yt) ++ q) = zt ++ (a ++ d :: b) ++ yt := by
          rw [trim, trimBy_of_trimmed hp hq]
          have hex := @trimBy_exchange _ isWhitespace (zt ++ a) (b ++ yt) c d
          simp only [List.append_assoc, List.cons_append] at hex ⊢
          refine hex ?_ (not_whitespace hc) (not_whitespace hd)
          rw [hlt] at htrim
          simpa using htrim
        have hrep : isReportLine (zt ++ (a ++ d :: b) ++ yt) = true := by
          have hex := @isReportLine_exchange (zt ++ a) (b ++ yt) c d hc hd fun w hmem hcov =>
            hw w hmem (hcov.mono ?_ ?_)
          · rw [hlt] at hreport
            simp only [List.append_assoc, List.cons_append] at hex hreport ⊢
            rw [← hex]
            exact hreport
          · rw [List.append_assoc _ zt a]
            exact List.suffix_append _ _
          · rw [List.append_assoc]
            exact List.prefix_append _ _
        rw [htext, reportLine_eq, hlrep _ hnewline, List.map_append, List.map_cons, hnew, hmb,
          List.find?_append, List.find?_eq_none.mpr (by simpa using hno), Option.none_or,
          List.find?_cons_of_pos hrep, Option.getD_some, splitWhitespace, htrep _ hwhite]
        simp

/-! ## The kind of report stays -/

/-- What follows a word that ends in no digit shows the same text but for the addresses, where the
word stands in the same place. -/
theorem last_not_hex {w : List Char} {d : Char} (h : w.getLast? = some d)
    (hd : isHexDigit d = false) : ∀ c ∈ w.getLast?, isHexDigit c = false := by
  intro c hc
  rw [h] at hc
  cases hc
  exact hd

/-- What follows a word has the same addresses blanked. -/
theorem after_readdressed {w : List Char} (hw : ∀ c ∈ w.getLast?, isHexDigit c = false)
    (hne : w ≠ []) (h : Readdressed s t)
    (hlen : (after w s).map List.length = (after w t).map List.length) :
    (after w s).map unaddressed = (after w t).map unaddressed := by
  cases hs : after w s with
  | none =>
    rw [hs] at hlen
    rw [Option.map_eq_none_iff.mp hlen.symm]
  | some r =>
    cases ht : after w t with
    | none =>
      rw [hs, ht] at hlen
      cases hlen
    | some r' =>
      rw [hs, ht] at hlen
      obtain ⟨u, rfl⟩ := after_eq_some hs
      obtain ⟨u', rfl⟩ := after_eq_some ht
      have hlast (v : List Char) : ∀ c ∈ (v ++ w).getLast?, isHexDigit c = false := by
        intro c hc
        rw [List.getLast?_append_of_ne_nil v hne] at hc
        exact hw c hc
      have hb := h
      rw [Readdressed, unaddressed, unaddressed, blank_append_of (.inl (hlast u)),
        blank_append_of (.inl (hlast u'))] at hb
      have hrl : r.length = r'.length := Option.some.inj hlen
      have hright := List.append_inj_right' hb (by rw [length_blank, length_blank, hrl])
      exact congrArg some hright

/-- A digit is less than 16. -/
theorem hexValue_lt {c : Char} (h : isHexDigit c = true) : hexValue c < 16 := by
  simp only [isHexDigit, Char.isDigit, Bool.or_eq_true, Bool.and_eq_true, decide_eq_true_eq,
    Char.le_def, UInt32.le_iff_toNat_le, ge_iff_le, show '0'.val.toNat = 0x30 from rfl,
    show '9'.val.toNat = 0x39 from rfl, show 'a'.val.toNat = 0x61 from rfl,
    show 'f'.val.toNat = 0x66 from rfl, show 'A'.val.toNat = 0x41 from rfl,
    show 'F'.val.toNat = 0x46 from rfl] at h
  unfold hexValue
  simp only [Char.isDigit, Bool.and_eq_true, decide_eq_true_eq, Char.le_def,
    UInt32.le_iff_toNat_le, ge_iff_le, show '0'.val.toNat = 0x30 from rfl,
    show '9'.val.toNat = 0x39 from rfl, show 'a'.val.toNat = 0x61 from rfl]
  have hval : c.toNat = c.val.toNat := rfl
  split
  · omega
  · split <;> omega

/-- A number of so many digits is bounded. -/
theorem hexFold_lt {l : List Char} (h : ∀ c ∈ l, isHexDigit c = true) (v : Nat) :
    l.foldl (fun v c => 16 * v + hexValue c) v < (v + 1) * 16 ^ l.length := by
  induction l generalizing v with
  | nil => simp
  | cons c l ih =>
    have hc := hexValue_lt (h c List.mem_cons_self)
    have hl := ih (fun d hd => h d (List.mem_cons_of_mem _ hd)) (16 * v + hexValue c)
    rw [List.foldl_cons, List.length_cons, Nat.pow_succ]
    calc _ < (16 * v + hexValue c + 1) * 16 ^ l.length := hl
      _ ≤ ((v + 1) * 16) * 16 ^ l.length := Nat.mul_le_mul_right _ (by omega)
      _ = (v + 1) * (16 ^ l.length * 16) := by rw [Nat.mul_assoc, Nat.mul_comm 16]

/-- The digits at the front of two texts that differ in addresses only: the same, or eight. -/
theorem digits_readdressed (h : Readdressed s t) :
    s.takeWhile isHexDigit = t.takeWhile isHexDigit ∨ (s.takeWhile isHexDigit).length = 8 := by
  have hlen (l : List Char) :
      (l.takeWhile isHexDigit).length = ((l.map isHexDigit).takeWhile id).length := by
    rw [List.takeWhile_map, List.length_map]
    rfl
  have hst : (s.takeWhile isHexDigit).length = (t.takeWhile isHexDigit).length := by
    rw [hlen, hlen, class_eq h]
  have hcut (l : List Char) : unaddressed l =
      unaddressed (l.takeWhile isHexDigit) ++ unaddressed (l.dropWhile isHexDigit) := by
    conv_lhs => rw [← l.takeWhile_append_dropWhile (p := isHexDigit)]
    refine blank_append_of (.inr fun c hc => ?_)
    have hne : l.dropWhile isHexDigit ≠ [] := fun hnil => by rw [hnil] at hc; cases hc
    rw [List.head?_eq_some_head hne] at hc
    cases hc
    simpa using List.head_dropWhile_not isHexDigit hne
  have hboth := h
  rw [Readdressed, hcut s, hcut t] at hboth
  have hdigits := List.append_inj_left hboth (by
    rw [unaddressed, unaddressed, length_blank, length_blank, hst])
  by_cases height : (s.takeWhile isHexDigit).length = 8
  · exact .inr height
  · refine .inl (eq_of_blank ?_ hdigits)
    rw [blank_run fun c hc => List.mem_takeWhile_imp hc, flush, if_neg height]
    simp

/-- No `epc` is found with other addresses either. -/
theorem parseEpc_readdressed (h : (after EPC s).map unaddressed = (after EPC t).map unaddressed)
    (hs : parseEpc s = none) : parseEpc t = none := by
  cases ht : after EPC t with
  | none => rw [parseEpc, ht]; rfl
  | some r' =>
    cases hr : after EPC s with
    | none =>
      rw [hr, ht] at h
      cases h
    | some r =>
      rw [hr, ht] at h
      rw [parseEpc, hr] at hs
      rw [parseEpc, ht]
      change fromHex (r.takeWhile isHexDigit) = none at hs
      change fromHex (r'.takeWhile isHexDigit) = none
      rcases digits_readdressed (Option.some.inj h) with heq | height
      · rw [← heq, hs]
      · -- eight digits are a number
        have hlt :=
          hexFold_lt (l := r.takeWhile isHexDigit) (fun c hc => List.mem_takeWhile_imp hc) 0
        rw [height] at hlt
        have hne : r.takeWhile isHexDigit ≠ [] := by
          rw [← List.length_pos_iff, height]
          decide
        rw [fromHex, if_pos ⟨hne, by simpa using hlt⟩] at hs
        cases hs

/-- No allocation site is found with other addresses either. -/
theorem allocSite_readdressed
    (h : (after ALLOCATED_IN s).map unaddressed = (after ALLOCATED_IN t).map unaddressed)
    (hs : allocSite s = none) : allocSite t = none := by
  cases ht : after ALLOCATED_IN t with
  | none => rw [allocSite, ht]; rfl
  | some r' =>
    cases hr : after ALLOCATED_IN s with
    | none =>
      rw [hr, ht] at h
      cases h
    | some r =>
      rw [hr, ht] at h
      have hb : unaddressed r = unaddressed r' := Option.some.inj h
      have hsite (l : List Char) (u : List Char) (hu : after ALLOCATED_IN u = some l) :
          allocSite u = none ↔ l.takeWhile inSite = [] := by
        rw [allocSite, hu, Option.bind_eq_bind, Option.bind_some]
        dsimp only
        split <;> simp_all
      rw [hsite r' t ht]
      rw [hsite r s hr] at hs
      cases r with
      | nil =>
        have hnil : r' = [] := blank_eq_nil.mp (hb.symm.trans blank_nil)
        rw [hnil]
        rfl
      | cons c r =>
        by_cases hc : inSite c = true
        · rw [List.takeWhile_cons_of_pos hc] at hs
          cases hs
        · have hhex : isHexDigit c = false := by
            have hcase : c = '+' ∨ c = ' ' ∨ c = '\n' := by
              by_contra hnot
              simp only [not_or] at hnot
              exact hc (by simp [inSite, hnot])
            rcases hcase with rfl | rfl | rfl <;> rfl
          have hfit := @fits_blank _ isHexDigit 8 r'
          rw [← show unaddressed r' = blank isHexDigit 8 r' from rfl, ← hb, unaddressed,
            blank_cons hhex] at hfit
          cases hfit with
          | cons heq _ =>
            rw [show _ = c from heq]
            exact List.takeWhile_cons_of_neg hc

/-- The kind of report stays when no word is laid over the digit. -/
theorem BareReport.exchange {x y : List Char} {c d : Char} (h : BareReport (x ++ c :: y))
    (hc : isHexDigit c = true) (hd : isHexDigit d = true)
    (hre : Readdressed (x ++ c :: y) (x ++ d :: y))
    (hw : ∀ w ∈ WORDS, ¬ Covers isHexDigit w x y) : BareReport (x ++ d :: y) := by
  have hcon : ∀ w ∈ WORDS, contains w (x ++ d :: y) = contains w (x ++ c :: y) :=
    fun w hmem => contains_exchange (hw w hmem) hd hc
  have hhard : hardFault (x ++ d :: y) = hardFault (x ++ c :: y) := by
    unfold hardFault
    rw [hcon "Unable to handle kernel".toList (by decide +kernel),
      hcon "KASAN:".toList (by decide), hcon "kernel BUG at".toList (by decide),
      hcon "Oops".toList (by decide),
      hcon "Attempted to kill init".toList (by decide)]
  have hslub : slubReport (x ++ d :: y) = slubReport (x ++ c :: y) := by
    unfold slubReport
    rw [hcon "Redzone overwritten".toList (by decide),
      hcon "Poison overwritten".toList (by decide),
      hcon "Object already free".toList (by decide),
      hcon "Freepointer corrupt".toList (by decide),
      hcon "Padding overwritten".toList (by decide)]
  refine ⟨⟨hhard.trans h.report.1, hslub.trans h.report.2⟩, ?_, ?_⟩
  · have hlast : EPC.getLast? = some ' ' := by decide
    refine parseEpc_readdressed
      (after_readdressed (last_not_hex hlast (by decide)) (by decide) hre ?_) h.epc
    exact after_exchange (hw EPC (by decide)) hc hd
  · have hlast : ALLOCATED_IN.getLast? = some ' ' := by decide
    refine allocSite_readdressed
      (after_readdressed (last_not_hex hlast (by decide)) (by decide) hre ?_) h.site
    exact after_exchange (hw ALLOCATED_IN (by decide)) hc hd

/-! ## A report line that shows an address -/

/-- A token that does not shed its addresses and has no `0x` stays. -/
theorem stays_of_not_shed {a : List Char} (ha : ¬ Shed a) (hx : contains HEX_PREFIX a = false) :
    stays a = true := by
  have hall : a.all isHexDigit = false := by
    cases hall : a.all isHexDigit with
    | false => rfl
    | true =>
      rw [List.all_eq_true] at hall
      refine absurd ?_ ha
      rw [Shed, unaddressed, blank_run hall, flush]
      by_cases hlen : a.length = 8
      · rw [if_pos hlen]
        exact .inr (.inl (by rw [List.map_const', hlen]))
      · rw [if_neg hlen]
        exact .inl (by simp)
  rw [stays, hx, hall]
  simp

/-- Whether a token is shed shows without its addresses. -/
theorem shed_congr {a b : List Char} (h : unaddressed a = unaddressed b) : Shed a ↔ Shed b := by
  rw [Shed, Shed, h]

/-- A report whose line shows an address in a token that stays can be given another signature. -/
theorem exists_other_sig_of_stays {a : List Char} (hb : BareReport s)
    (htok : a ∈ splitWhitespace (reportLine s)) (ha : ¬ Shed a)
    (hx : contains HEX_PREFIX a = false) :
    ∃ t, Readdressed s t ∧ BareReport t ∧ reportLineSig t ≠ reportLineSig s := by
  -- a middle digit of the address changes
  have hnone : none ∈ unaddressed a := by
    by_contra hnot
    exact ha (.inl hnot)
  obtain ⟨i, hi⟩ := List.mem_iff_getElem?.mp hnone
  obtain ⟨x₀, r, y₀, rfl, -, -, hr, hpr, hsame⟩ := exists_run hi
  match r, hr with
  | [a₀, a₁, a₂, c, b₀, b₁, b₂, b₃], _ =>
    have hfront : ∀ e ∈ [a₀, a₁, a₂], isHexDigit e = true := fun e he => hpr e (by
      simp only [List.mem_cons, List.not_mem_nil, or_false] at he ⊢
      tauto)
    have hback : ∀ e ∈ [b₀, b₁, b₂, b₃], isHexDigit e = true := fun e he => hpr e (by
      simp only [List.mem_cons, List.not_mem_nil, or_false] at he ⊢
      tauto)
    have hc : isHexDigit c = true := hpr c (by simp)
    have hsplit (e : Char) : x₀ ++ [a₀, a₁, a₂, e, b₀, b₁, b₂, b₃] ++ y₀ =
        (x₀ ++ [a₀, a₁, a₂]) ++ e :: ([b₀, b₁, b₂, b₃] ++ y₀) := by simp
    rw [hsplit c] at htok ha hx hsame
    obtain ⟨x, y, before, after, rfl, ⟨z, rfl⟩, ⟨z', rfl⟩, htoks, hex⟩ :=
      reportLine_exchange hc htok
    obtain ⟨d, b, e, hd, hcb, hde, hbe⟩ := exists_other_digit hc
    have hcov {w u v : List Char} (hw : Sparse w) :
        ¬ Covers isHexDigit w (u ++ (x₀ ++ [a₀, a₁, a₂])) ([b₀, b₁, b₂, b₃] ++ y₀ ++ v) := by
      rw [← List.append_assoc]
      exact not_covers hw rfl hfront (.inl ⟨_, _, List.append_assoc _ _ _, rfl, hback⟩)
    have hblank : unaddressed ((x₀ ++ [a₀, a₁, a₂]) ++ d :: ([b₀, b₁, b₂, b₃] ++ y₀)) =
        unaddressed ((x₀ ++ [a₀, a₁, a₂]) ++ c :: ([b₀, b₁, b₂, b₃] ++ y₀)) := by
      have := hsame [a₀, a₁, a₂, d, b₀, b₁, b₂, b₃] rfl (by
        intro f hf
        simp only [List.mem_cons, List.not_mem_nil, or_false] at hf
        rcases hf with rfl | rfl | rfl | rfl | hf
        · exact hfront _ (by simp)
        · exact hfront _ (by simp)
        · exact hfront _ (by simp)
        · exact hd
        · exact hback f (by simpa using hf))
      rwa [hsplit d] at this
    have hwords : ∀ w ∈ WORDS, ¬ Covers isHexDigit w (z ++ (x₀ ++ [a₀, a₁, a₂]))
        ([b₀, b₁, b₂, b₃] ++ y₀ ++ z') := fun w hw => hcov (sparse_WORDS w hw).1
    obtain ⟨hre, htoks'⟩ := hex d hd hblank hwords
    have hb' := hb.exchange hc hd hre hwords
    have hx' : contains HEX_PREFIX
        ((x₀ ++ [a₀, a₁, a₂]) ++ d :: ([b₀, b₁, b₂, b₃] ++ y₀)) = false := by
      rw [← hx]
      refine contains_exchange (fun hin => ?_) hd hc
      exact @hcov _ [] [] sparse_HEX_PREFIX (by simpa using hin)
    refine ⟨_, hre, hb', ?_⟩
    rw [hb'.sig.1, hb.sig.1, normalized, normalized, htoks, htoks']
    -- the line without its addresses shows the digit, and the hash shows the byte
    have hkeep := stays_of_not_shed ha hx
    have hkeep' := stays_of_not_shed (fun h => ha ((shed_congr hblank).mp h)) hx'
    rw [List.filter_append, List.filter_append, List.filter_cons_of_pos hkeep,
      List.filter_cons_of_pos hkeep']
    obtain ⟨u, v, huv⟩ := intercalate_around ' ' (x₀ ++ [a₀, a₁, a₂]) ([b₀, b₁, b₂, b₃] ++ y₀)
      (before.filter stays) (after.filter stays)
    rw [huv, huv]
    exact fnv1a_ne hde hcb hbe.symm

/-- A `0x` in a token that does not shed its addresses is made by the last digit of one. -/
theorem exists_last_digit {x y : List Char} (ha : ¬ Shed (x ++ '0' :: 'x' :: y)) :
    ∃ z r, x = z ++ r ∧ r.length = 7 ∧ (∀ c ∈ r, isHexDigit c = true) ∧
      unaddressed (x ++ '1' :: 'x' :: y) = unaddressed (x ++ '0' :: 'x' :: y) := by
  have hcut (c : Char) : unaddressed (x ++ c :: 'x' :: y) =
      unaddressed (x ++ [c]) ++ some 'x' :: unaddressed y := by
    have h := @blank_append _ isHexDigit 8 (x ++ [c]) y 'x' rfl
    rwa [List.append_assoc, List.singleton_append] at h
  obtain ⟨u, o, huo⟩ : ∃ u o, unaddressed (x ++ ['0']) = u ++ [o] := by
    rcases List.eq_nil_or_concat' (unaddressed (x ++ ['0'])) with hnil | ⟨u, o, h⟩
    · simp [unaddressed, blank_eq_nil] at hnil
    · exact ⟨u, o, h⟩
  have hulen : u.length = x.length := by
    have := congrArg List.length huo
    rw [unaddressed, length_blank] at this
    simpa using this.symm
  have hfit : Fits isHexDigit '0' o := by
    have h := @fits_blank _ isHexDigit 8 (x ++ ['0'])
    rw [← show unaddressed (x ++ ['0']) = blank isHexDigit 8 (x ++ ['0']) from rfl, huo] at h
    obtain ⟨v, w, hvw, hv, hw⟩ := fits_append h
    obtain ⟨-, hwc⟩ := List.append_inj hvw (by rw [hv.length_eq, hulen])
    rw [← hwc] at hw
    cases hw with
    | cons ho _ => exact ho
  cases o with
  | some d =>
    -- then the `0x` is no part of an address
    refine absurd (.inr (.inr ?_)) ha
    rw [hcut, huo, ← show '0' = d from hfit]
    exact ⟨u, unaddressed y, by simp [HEX_PREFIX]⟩
  | none =>
    have hi : (blank isHexDigit 8 (x ++ ['0']))[x.length]? = some none := by
      rw [← show unaddressed (x ++ ['0']) = blank isHexDigit 8 (x ++ ['0']) from rfl, huo,
        List.getElem?_append_right (Nat.le_of_eq hulen), hulen, Nat.sub_self]
      rfl
    obtain ⟨z, r, y', hr, hzi, hiz, hlen, hpr, hsame⟩ := exists_run hi
    have hlens := congrArg List.length hr
    simp only [List.length_append, List.length_singleton, hlen] at hlens
    have hy' : y' = [] := List.length_eq_zero_iff.mp (by omega)
    obtain ⟨r, c, rfl⟩ : ∃ r' c, r = r' ++ [c] := by
      rcases List.eq_nil_or_concat' r with rfl | h
      · cases hlen
      · exact h
    rw [hy', List.append_nil, ← List.append_assoc] at hr
    obtain ⟨rfl, hc⟩ := List.append_inj' hr rfl
    rw [List.length_append, List.length_singleton] at hlen
    refine ⟨z, r, rfl, by omega, fun c hc => hpr c (List.mem_append_left _ hc), ?_⟩
    rw [hcut, hcut]
    have hone := hsame (r ++ ['1']) (by simp; omega) (by
      intro c hc
      rcases List.mem_append.mp hc with hc | hc
      · exact hpr c (List.mem_append_left _ hc)
      · rw [List.mem_singleton.mp hc]
        rfl)
    rw [hy', List.append_nil, ← List.append_assoc] at hone
    rw [show unaddressed (z ++ r ++ ['1']) = unaddressed (z ++ r ++ ['0']) from hone]

/-- A report whose line has a token that does not shed its addresses has two signatures: where the
token has a `0x`, the address that makes it is changed first. -/
theorem exists_other_sig (n : Nat) {a : List Char} (hb : BareReport s)
    (htok : a ∈ splitWhitespace (reportLine s)) (ha : ¬ Shed a) (hn : a.count '0' = n) :
    ∃ t t', Readdressed s t ∧ Readdressed s t' ∧ BareReport t ∧ BareReport t' ∧
      reportLineSig t' ≠ reportLineSig t := by
  induction n using Nat.strong_induction_on generalizing s a with
  | _ n ih =>
    cases hx : contains HEX_PREFIX a with
    | false =>
      obtain ⟨t, hst, ht, hne⟩ := exists_other_sig_of_stays hb htok ha hx
      exact ⟨s, t, rfl, hst, hb, ht, hne⟩
    | true =>
      obtain ⟨x, y, rfl⟩ := contains_iff.mp hx
      have hform : x ++ HEX_PREFIX ++ y = x ++ '0' :: 'x' :: y := by simp [HEX_PREFIX]
      rw [hform] at htok ha hn
      obtain ⟨z, r, rfl, hr, hpr, hblank⟩ := exists_last_digit ha
      obtain ⟨x', y', before, after, rfl, ⟨p, rfl⟩, ⟨q, rfl⟩, -, hex⟩ :=
        reportLine_exchange rfl htok
      obtain ⟨r₁, r₂, rfl, hr₂⟩ : ∃ r₁ r₂, r = r₁ ++ r₂ ∧ r₂.length = 3 :=
        ⟨r.take 4, r.drop 4, (List.take_append_drop 4 r).symm, by simp [hr]⟩
      have hwords : ∀ w ∈ WORDS,
          ¬ Covers isHexDigit w (p ++ (z ++ (r₁ ++ r₂))) ('x' :: y ++ q) := by
        intro w hw
        have hassoc : p ++ (z ++ (r₁ ++ r₂)) = (p ++ z ++ r₁) ++ r₂ := by simp
        rw [hassoc]
        exact not_covers (sparse_WORDS w hw).1 hr₂ (fun c hc => hpr c (List.mem_append_right _ hc))
          (.inr ⟨'x', y ++ q, rfl, (sparse_WORDS w hw).2⟩)
      obtain ⟨hre, htoks⟩ := hex '1' rfl hblank hwords
      have htok' : z ++ (r₁ ++ r₂) ++ '1' :: 'x' :: y ∈ splitWhitespace
          (reportLine (p ++ (z ++ (r₁ ++ r₂)) ++ '1' :: ('x' :: y ++ q))) := by
        rw [htoks]
        exact List.mem_append_right _ List.mem_cons_self
      have hcount : (z ++ (r₁ ++ r₂) ++ '1' :: 'x' :: y).count '0' < n := by
        have hzero (l : List Char) : ('0' :: l).count '0' = l.count '0' + 1 := List.count_cons_self
        have hone (l : List Char) : ('1' :: l).count '0' = l.count '0' :=
          List.count_cons_of_ne (by decide)
        rw [← hn, List.count_append, hone, @List.count_append _ _ '0' (z ++ (r₁ ++ r₂)), hzero]
        omega
      obtain ⟨t, t', hst, hst', ht, ht', hne⟩ := ih _ hcount (hb.exchange rfl rfl hre hwords) htok'
        (fun h => ha ((shed_congr hblank).mp h)) rfl
      exact ⟨t, t', hre.trans hst, hre.trans hst', ht, ht', hne⟩

/-- A stable signature sheds every token of the report line. -/
theorem shed_of_sigStable (hb : BareReport s) (h : SigStable s) :
    ∀ tok ∈ splitWhitespace (reportLine s), Shed tok := by
  intro tok htok
  by_contra hnot
  obtain ⟨t, t', hst, hst', ht, ht', hne⟩ := exists_other_sig _ hb htok hnot rfl
  exact hne ((h t' hst' ht').1.trans (h t hst ht).1.symm)

/-- The signature of a bare report does not depend on the addresses it shows, if the lines up to the
report line are lines of a report, or are none, whatever the addresses are, and every token of the
report line sheds its addresses; and it does depend on them, if one does not. Reports with one
allocation site have one signature. -/
theorem crash_signature_stable_iff (s : List Char) :
    (BareReport s →
      ((∀ l, Searched s l → Steady l) ∧ (∀ tok ∈ splitWhitespace (reportLine s), Shed tok) →
        SigStable s) ∧
      (SigStable s → ∀ tok ∈ splitWhitespace (reportLine s), Shed tok)) ∧
    ∀ t site, allocSite s = some site → allocSite t = some site →
      reportLineSig s = reportLineSig t ∧
        (AllocatorReport s → AllocatorReport t → kernelCrashSig s = kernelCrashSig t) := by
  refine ⟨fun hb => ⟨fun h => sigStable_of_shed hb h.1 h.2, shed_of_sigStable hb⟩,
    fun t site hs ht => ?_⟩
  have hsig : reportLineSig s = reportLineSig t := by
    rw [reportLineSig, reportLineSig, hs, ht]
  refine ⟨hsig, fun hrs hrt => ?_⟩
  rw [kernelCrashSig, kernelCrashSig, hrs.1, hrs.2, hrt.1, hrt.2, hsig]
  rfl

end

/-- A report whose one address range begins with `0x`. Behind its report line stands one that is a
report line only with addresses that begin with an `e`. -/
def rangeReport : List Char :=
  "Redzone overwritten 0xc1234567-0xc1234568\nRedzone1234567 bb".toList

/-- The report of the case has neither an `epc` nor an allocation site. -/
theorem bareReport_rangeReport : BareReport rangeReport :=
  ⟨⟨by decide, by decide⟩, by decide, by decide⟩

theorem crash_signature_stable_rangeReport : SigStable rangeReport := by
  refine ((crash_signature_stable_iff rangeReport).1 bareReport_rangeReport).1 ⟨?_, ?_⟩
  · rintro l ⟨before, after, hlines, hno⟩
    have hparts : (lines rangeReport).map trim =
        ["Redzone overwritten 0xc1234567-0xc1234568".toList, "Redzone1234567 bb".toList] := by
      decide +kernel
    rw [hparts] at hlines
    cases before with
    | nil =>
      rw [← (List.cons.inj hlines).1]
      exact fun _ => .inl ⟨"Redzone".toList, by decide, by decide +kernel⟩
    | cons b before =>
      have hfirst := hno b List.mem_cons_self
      rw [← (List.cons.inj hlines).1] at hfirst
      exact absurd hfirst (by decide +kernel)
  · have htoks : splitWhitespace (reportLine rangeReport) =
        ["Redzone".toList, "overwritten".toList, "0xc1234567-0xc1234568".toList] := by decide +kernel
    rw [htoks]
    intro tok htok
    simp only [List.mem_cons, List.not_mem_nil, or_false] at htok
    rcases htok with rfl | rfl | rfl
    · exact .inl (by decide +kernel)
    · exact .inl (by decide +kernel)
    · exact .inr (.inr (by decide +kernel))

/-- One report, with the object at two addresses: the colon behind the address keeps it in the
line. -/
theorem crash_signature_shows_address :
    ∃ s t, s = "Redzone c1234567: bb bb\nRedzone overwritten".toList ∧
      t = "Redzone c1234568: bb bb\nRedzone overwritten".toList ∧ BareReport s ∧ BareReport t ∧
      Readdressed s t ∧ reportLineSig s ≠ reportLineSig t ∧ kernelCrashSig s ≠ kernelCrashSig t := by
  refine ⟨_, _, rfl, rfl, ⟨⟨?_, ?_⟩, ?_, ?_⟩, ⟨⟨?_, ?_⟩, ?_, ?_⟩, ?_, ?_, ?_⟩ <;> decide +kernel

end FuzzSoft
