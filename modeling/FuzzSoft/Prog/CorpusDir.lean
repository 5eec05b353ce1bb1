import FuzzSoft.Lib.Catalog
import FuzzSoft.Prog.Corpus

/-!
# The corpus directory

A corpus is kept as one file for each program, named by the hash of its text. A save writes the
programs whose file does not exist yet, and a load reads every file named so. The name stands for
the text only as long as no two texts share a hash and the file that bears the name is whole: a
program whose name is taken is not written, whatever the file under that name holds. So what a save
may lose is exactly a program that is not the first one with its name (`saveCorpus_lossless_iff`).
-/

namespace FuzzSoft

open Lib

/-- The bytes of a text, hashed. -/
def fnv1a (s : List Char) : U32 :=
  (utf8 s).foldl (fun h b => (h ^^^ b.toBitVec.setWidth 32) * 0x01000193) 0x811c9dc5

/-- `Path::extension` of a file name. -/
def extension (name : List Char) : Option (List Char) :=
  let after := (name.reverse.takeWhile (· ≠ '.')).reverse
  let before := (name.reverse.dropWhile (· ≠ '.')).tail.reverse
  if '.' ∈ name ∧ before ≠ [] ∧ name ≠ ['.', '.'] then some after else none

/-- A directory: texts under file names. -/
abbrev CorpusDir := Catalog (List Char) (List Char)

/-- `{:08x}.prog` of the hash of a text. -/
def progFile (text : List Char) : List Char :=
  (Nat.toDigits 16 (fnv1a text).toNat).leftpad 8 '0' ++ ['.', 'p', 'r', 'o', 'g']

/-- Read the files of a directory, in the order it lists them. A text that is no program is skipped;
one that makes the decoder panic ends the load. -/
def loadFiles : List (List Char × List Char) → Outcome (List Prog)
  | [] => .accept []
  | (name, text) :: files =>
    if extension name ≠ some ['p', 'r', 'o', 'g'] then loadFiles files else
    match deserializeProg SYSCALLS text with
    | .panic => .panic
    | .reject => loadFiles files
    | .accept p =>
      match loadFiles files with
      | .accept out => .accept (p :: out)
      | o => o

def loadCorpus (dir : CorpusDir) : Outcome (List Prog) := loadFiles dir.entries

/-- Save the programs whose file does not exist, counting the files written. -/
def saveCorpus (dir : CorpusDir) (corpus : List Prog) : CorpusDir × Nat :=
  corpus.foldl (fun s p =>
    let text := serializeProg p
    let name := progFile text
    if h : ¬ s.1.Taken name then (s.1.add name text h, s.2 + 1) else s) (dir, 0)

/-! ## The name of a program's file -/

/-- The file of a program. -/
def Prog.file (p : Prog) : List Char := progFile (serializeProg p)

/-- Padding does not empty a name. -/
theorem leftpad_ne_nil {n : Nat} {a : Char} {l : List Char} (h : l ≠ []) : l.leftpad n a ≠ [] := by
  simp [List.leftpad, h]

/-- A stem without a dot, followed by an extension without one. -/
theorem extension_append {stem ext : List Char} (hne : stem ≠ []) (hext : '.' ∉ ext)
    (hdots : stem ++ '.' :: ext ≠ ['.', '.']) : extension (stem ++ '.' :: ext) = some ext := by
  have hall : ∀ a ∈ ext.reverse, decide (a ≠ '.') = true := by
    intro a ha
    exact decide_eq_true fun h => hext (h ▸ List.mem_reverse.mp ha)
  have hrev : (stem ++ '.' :: ext).reverse = ext.reverse ++ '.' :: stem.reverse := by simp
  simp only [extension, hrev, List.takeWhile_append_of_pos hall, List.dropWhile_append_of_pos hall]
  rw [if_pos ⟨by simp, by simpa using hne, hdots⟩]
  simp

/-- A program's file has the extension. -/
theorem extension_progFile (text : List Char) :
    extension (progFile text) = some ['p', 'r', 'o', 'g'] := by
  refine extension_append (leftpad_ne_nil Nat.toDigits_ne_nil) (by decide) fun h => ?_
  have hlen := congrArg List.length h
  simp only [List.length_append, List.length_cons, List.length_nil] at hlen
  omega

/-! ## What a load finds -/

section
variable {files : List (List Char × List Char)} {p : Prog}

/-- A file that a load reads. -/
def ProgFile (e : List Char × List Char) : Prop := extension e.1 = some ['p', 'r', 'o', 'g']

instance (e : List Char × List Char) : Decidable (ProgFile e) := inferInstanceAs (Decidable (_ = _))

/-- No file that a load reads makes the decoder panic. -/
def Readable (dir : CorpusDir) : Prop :=
  ∀ e ∈ dir.entries, ProgFile e → deserializeProg SYSCALLS e.2 ≠ .panic

/-- Some file holds the program. -/
def Loadable (dir : CorpusDir) (p : Prog) : Prop :=
  ∃ e ∈ dir.entries, ProgFile e ∧ deserializeProg SYSCALLS e.2 = .accept p

/-- Loading panics on a file that the decoder panics on. -/
theorem loadFiles_panic (h : ∃ e ∈ files, ProgFile e ∧ deserializeProg SYSCALLS e.2 = .panic) :
    loadFiles files = .panic := by
  obtain ⟨e, he, hprog, hpanic⟩ := h
  induction files with
  | nil => cases he
  | cons f files ih =>
    rw [loadFiles]
    rcases List.mem_cons.mp he with rfl | he
    · rw [if_neg (not_not.mpr (show extension e.1 = _ from hprog)), hpanic]
    · rw [ih he]
      split
      · rfl
      · split <;> rfl

/-- A load that reads no panicking file returns the programs that the files hold. -/
theorem loadFiles_accept (h : ∀ e ∈ files, ProgFile e → deserializeProg SYSCALLS e.2 ≠ .panic) :
    ∃ out, loadFiles files = .accept out ∧
      ∀ p, p ∈ out ↔ ∃ e ∈ files, ProgFile e ∧ deserializeProg SYSCALLS e.2 = .accept p := by
  induction files with
  | nil => exact ⟨[], rfl, by simp⟩
  | cons f files ih =>
    obtain ⟨out, hout, hmem⟩ := ih fun e he => h e (List.mem_cons_of_mem _ he)
    by_cases hprog : ProgFile f
    · rw [loadFiles, if_neg (not_not.mpr (show extension f.1 = _ from hprog))]
      rcases hf : deserializeProg SYSCALLS f.2 with _ | _ | q
      · exact absurd hf (h f List.mem_cons_self hprog)
      · exact ⟨out, hout, fun p => by simp [hmem, hf]⟩
      · refine ⟨q :: out, by rw [hout], fun p => ?_⟩
        simp [hmem, hf, hprog, eq_comm]
    · rw [loadFiles, if_pos (show extension f.1 ≠ _ from hprog)]
      exact ⟨out, hout, fun p => by simp [hmem, hprog]⟩

/-- A load returns exactly when no file makes it panic, and then what the files hold. -/
theorem loadCorpus_eq_accept {dir : CorpusDir} {loaded : List Prog} (h : loadCorpus dir = .accept loaded) :
    Readable dir ∧ ∀ p, p ∈ loaded ↔ Loadable dir p := by
  have hread : Readable dir := fun e he hprog hpanic => by
    rw [loadCorpus, loadFiles_panic ⟨e, he, hprog, hpanic⟩] at h
    cases h
  obtain ⟨out, hout, hmem⟩ := loadFiles_accept hread
  rw [loadCorpus, hout] at h
  cases h
  exact ⟨hread, hmem⟩

/-- A readable directory loads its loadable programs. -/
theorem loadCorpus_accept {dir : CorpusDir} (h : Readable dir) :
    ∃ loaded, loadCorpus dir = .accept loaded ∧ ∀ p, p ∈ loaded ↔ Loadable dir p :=
  loadFiles_accept h

end

/-! ## What a save leaves -/

/-- A well-formed program of the described calls. -/
structure Storable (p : Prog) : Prop where
  wellFormed : p.isWellFormed = true
  descs : p.Over SYSCALLS
  fits : p.Fits

section
variable {dir : CorpusDir} {corpus : List Prog} {p : Prog}

/-- Saving fills the catalogue. -/
theorem saveCorpus_eq_fill (dir : CorpusDir) (corpus : List Prog) :
    saveCorpus dir corpus = Catalog.fill Prog.file serializeProg corpus (dir, 0) := rfl

/-- A storable program is read back. -/
theorem Storable.read (h : Storable p) : deserializeProg SYSCALLS (serializeProg p) = .accept p :=
  deserialize_serialize names_SYSCALLS h.wellFormed h.descs h.fits

/-- A saved file holds its own program, so a save makes no load panic. -/
theorem readable_saveCorpus (hs : ∀ p ∈ corpus, Storable p) :
    Readable (saveCorpus dir corpus).1 ↔ Readable dir := by
  rw [saveCorpus_eq_fill]
  refine ⟨fun h e he => h e ((Catalog.mem_fill _ _).mpr (.inl he)), fun h e he hprog => ?_⟩
  rcases (Catalog.mem_fill _ _).mp he with he | ⟨-, q, hq, htext⟩
  · exact h e he hprog
  · rw [← htext, (hs q (List.mem_of_find?_eq_some hq)).read]
    exact nofun

/-- What can be loaded after a save: what could before, and the first program with each name that
was free. -/
theorem loadable_saveCorpus (hs : ∀ p ∈ corpus, Storable p) :
    Loadable (saveCorpus dir corpus).1 p ↔ Loadable dir p ∨
      ¬ dir.Taken p.file ∧ corpus.find? (fun q => q.file = p.file) = some p := by
  rw [saveCorpus_eq_fill]
  constructor
  · rintro ⟨e, he, hprog, hp⟩
    rcases (Catalog.mem_fill _ _).mp he with he | ⟨hfree, q, hq, htext⟩
    · exact .inl ⟨e, he, hprog, hp⟩
    · rw [← htext, (hs q (List.mem_of_find?_eq_some hq)).read] at hp
      cases hp
      have hname : p.file = e.1 := by simpa using List.find?_some hq
      exact .inr ⟨hname ▸ hfree, hname ▸ hq⟩
  · rintro (⟨e, he, h⟩ | ⟨hfree, hfirst⟩)
    · exact ⟨e, (Catalog.mem_fill _ _).mpr (.inl he), h⟩
    · refine ⟨(p.file, serializeProg p), (Catalog.mem_fill _ _).mpr (.inr ⟨hfree, p, hfirst, rfl⟩),
        extension_progFile _, ?_⟩
      exact (hs p (List.mem_of_find?_eq_some hfirst)).read

/-- Saving a corpus again, after any saves that included it, writes no file. -/
theorem saveCorpus_again {steps : List Prog} (h : ∀ p ∈ corpus, p ∈ steps) :
    saveCorpus (saveCorpus dir steps).1 corpus = ((saveCorpus dir steps).1, 0) := by
  rw [saveCorpus_eq_fill _ corpus]
  refine Catalog.fill_of_taken _ _ fun p hp => ?_
  rw [saveCorpus_eq_fill]
  exact (Catalog.taken_fill _ _).mpr (.inr ⟨p, h p hp, rfl⟩)

end

/-! ## Nothing is lost -/

/-- The saves of several corpora, taking turns program by program, lose nothing: a load then returns
the union of the corpora and of what it returned before, and saving one of them again writes no
file. -/
structure Lossless (dir : CorpusDir) (corpora : List (List Prog)) (steps : List Prog) : Prop where
  loads : ∃ loaded, loadCorpus (saveCorpus dir steps).1 = .accept loaded ∧
    ∀ p, p ∈ loaded ↔
      (∃ before, loadCorpus dir = .accept before ∧ p ∈ before) ∨ ∃ corpus ∈ corpora, p ∈ corpus
  again : ∀ corpus ∈ corpora, saveCorpus (saveCorpus dir steps).1 corpus =
    ((saveCorpus dir steps).1, 0)

/-- The directory can be read, and each program to save is in it already, or its file is not and it
is the first program saved with that file name. -/
structure OwnFiles (dir : CorpusDir) (steps : List Prog) : Prop where
  readable : Readable dir
  apart : ∀ p ∈ steps, Loadable dir p ∨
    ¬ dir.Taken p.file ∧ steps.find? (fun q => q.file = p.file) = some p

/-- A save loses nothing exactly when the directory can be read and the file name of each new program
is its own. -/
theorem saveCorpus_lossless_iff {dir : CorpusDir} {corpora : List (List Prog)} {steps : List Prog}
    (hi : Interleaved corpora steps) (hs : ∀ p ∈ steps, Storable p) :
    Lossless dir corpora steps ↔ OwnFiles dir steps := by
  constructor
  · rintro ⟨⟨loaded, hload, hmem⟩, -⟩
    obtain ⟨hread, hloadable⟩ := loadCorpus_eq_accept hload
    have hdir : Readable dir := (readable_saveCorpus hs).mp hread
    refine ⟨hdir, fun p hp => ?_⟩
    have hin : p ∈ loaded := (hmem p).mpr (.inr (hi.mem_iff.mp hp))
    exact (loadable_saveCorpus hs).mp ((hloadable p).mp hin)
  · rintro ⟨hdir, hapart⟩
    obtain ⟨before, hbefore, hbmem⟩ := loadCorpus_accept hdir
    obtain ⟨loaded, hload, hmem⟩ := loadCorpus_accept ((readable_saveCorpus hs).mpr hdir)
    refine ⟨⟨loaded, hload, fun p => ?_⟩, fun corpus hc => saveCorpus_again fun p hp =>
      hi.mem_iff.mpr ⟨corpus, hc, hp⟩⟩
    rw [hmem, loadable_saveCorpus hs, ← hi.mem_iff]
    constructor
    · rintro (hp | ⟨-, hfirst⟩)
      · exact .inl ⟨before, hbefore, (hbmem p).mpr hp⟩
      · exact .inr (List.mem_of_find?_eq_some hfirst)
    · rintro (⟨out, hout, hp⟩ | hp)
      · rw [hbefore] at hout
        cases hout
        exact .inl ((hbmem p).mp hp)
      · exact hapart p hp

/-- `close` of a descriptor number. -/
def closeProg (fd : U64) : Prog := ⟨[⟨SYSCALLS.get ⟨3, by decide⟩, [.res (.seed fd)]⟩]⟩

@[simp] theorem storable_closeProg (fd : U64) : Storable (closeProg fd) where
  wellFormed := rfl
  descs := fun c hc => by
    rw [List.mem_singleton.mp hc]
    exact List.get_mem _ _
  fits := by
    have hone : Allocatable 1 := by decide
    refine ⟨hone, ?_, ?_⟩ <;> intro c hc <;> rw [List.mem_singleton.mp hc]
    · exact hone
    · exact ⟨trivial, trivial⟩

/-- Two corpora saved in turns to a directory that holds a text of another kind. -/
theorem saveCorpus_lossless_iff_two :
    Lossless ⟨[("notes".toList, [])], List.nodup_singleton _⟩ [[closeProg 1], [closeProg 2]]
      [closeProg 1, closeProg 2] := by
  have hi : Interleaved [[closeProg 1], [closeProg 2]] [closeProg 1, closeProg 2] :=
    (Interleaved.single [closeProg 2]).append
  have hne : (closeProg 1).file ≠ (closeProg 2).file := by decide +kernel
  have hnotes : ∀ text, "notes".toList ≠ progFile text := fun text h => by
    have hext := extension_progFile text
    rw [← h] at hext
    exact absurd hext (by decide)
  refine (saveCorpus_lossless_iff hi ?_).mpr ⟨?_, ?_⟩
  · simp
  · intro e he hprog
    rw [List.mem_singleton.mp he] at hprog
    exact absurd hprog (by decide)
  · have hfree (p : Prog) : p.file ∉ ["notes".toList] := fun h =>
      hnotes _ (List.mem_singleton.mp h).symm
    intro p hp
    refine .inr ⟨hfree p, ?_⟩
    simp only [List.mem_cons, List.not_mem_nil, or_false] at hp
    rcases hp with rfl | rfl
    · exact List.find?_cons_of_pos (decide_eq_true rfl)
    · rw [List.find?_cons_of_neg (by simpa using hne)]
      exact List.find?_cons_of_pos (decide_eq_true rfl)

/-- Two programs with one hash: saved to an empty directory, the second is not written, and a load
does not return it. -/
theorem saveCorpus_loses : Storable (closeProg 1439599) ∧ Storable (closeProg 1622382) ∧
    ¬ Lossless Catalog.empty [[closeProg 1439599, closeProg 1622382]]
      [closeProg 1439599, closeProg 1622382] := by
  have hone := storable_closeProg 1439599
  have htwo := storable_closeProg 1622382
  refine ⟨hone, htwo, fun h => ?_⟩
  have hsame : (closeProg 1439599).file = (closeProg 1622382).file := by decide +kernel
  have hs : ∀ p ∈ [closeProg 1439599, closeProg 1622382], Storable p := by simp
  obtain ⟨loaded, hload, hmem⟩ := h.loads
  have hin : closeProg 1622382 ∈ loaded := (hmem _).mpr (.inr ⟨_, List.mem_singleton_self _, by simp⟩)
  have hl := ((loadCorpus_eq_accept hload).2 _).mp hin
  rcases (loadable_saveCorpus hs).mp hl with ⟨e, he, -⟩ | ⟨-, hfirst⟩
  · exact absurd he List.not_mem_nil
  · simp only [List.find?_cons, hsame, decide_true, Option.some.injEq] at hfirst
    simp [closeProg] at hfirst

end FuzzSoft
