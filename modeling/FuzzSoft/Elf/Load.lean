import FuzzSoft.Elf.Parse
import FuzzSoft.Lib.Checked
import FuzzSoft.Platform.Mapping

/-!
# Loading an ELF file

The window of a guest is laid around the bounds of the image, each segment is copied into it with
its permissions, and the bytes behind a segment's file bytes get permissions only: they are zero
because the memory was. So the image in memory is the file's as long as the bounds hold every byte,
the window does not run over the end of the address space, and no segment leaves file bytes where a
later one wants zeros (`loader_exact_iff`).
-/

namespace FuzzSoft

open Lib

/-- The result of a memory operation, as the loader returns it. -/
def mapped (r : Except Fault Unit) : Except LoadError Unit := r.mapError .map

/-- Copy one segment, and stamp what is behind its file bytes. -/
def Segment.loadInto (seg : Segment) (m : Mmu) : Except LoadError Unit × Mmu :=
  match m.map seg.vaddr seg.data seg.perm with
  | (.error f, m) => (.error (.map f), m)
  | (.ok _, m) =>
    let filled := BitVec.ofNat 32 seg.data.length
    if filled < seg.memsz then
      let r := m.protect (seg.vaddr + filled) (seg.memsz - filled).toNat
        (seg.perm ||| PERM_READ ||| PERM_WRITE)
      (mapped r.1, r.2)
    else (.ok (), m)

def loadAll : List Segment → Mmu → Except LoadError Unit × Mmu
  | [], m => (.ok (), m)
  | seg :: segs, m =>
    match seg.loadInto m with
    | (.error e, m) => (.error e, m)
    | (.ok _, m) => loadAll segs m

namespace Program

def loadInto (p : Program) (m : Mmu) : Except LoadError Unit × Mmu := loadAll p.segments m

/-- The bounds of the image. -/
def imageBounds (p : Program) : U32 × U32 :=
  (BitVec.ofNat 32 ((p.segments.map (·.vaddr.toNat)).min?.getD 0),
   BitVec.ofNat 32 ((p.segments.map fun s => (s.vaddr + s.memsz).toNat).max?.getD 0))

end Program

def STACK_SIZE : U32 := 0x00100000

/-- A checked operation on guest addresses. -/
def guestArith (r : Option U32) : Loading U32 :=
  match r with
  | some v => pure v
  | none => Guarded.panic

/-- A result of the loader, which `execute` returns as a text. -/
def loaded (r : Except LoadError Unit) : Loading Unit := r.mapError some

/-- What `execute` does before the first instruction: the memory of the guest and its stack
pointer. -/
def prepare (p : Program) : Loading (Mmu × U32) := do
  let (lo, hi) := p.imageBounds
  let base := lo &&& ~~~0xfff
  let edge ← guestArith (Checked.add hi 0xfff)
  let top := edge &&& ~~~0xfff
  let span ← guestArith (Checked.sub top base)
  let size ← usizeAdd span.toNat STACK_SIZE.toNat
  let image := p.loadInto (Mmu.new base size)
  loaded image.1
  let stack := image.2.protect top STACK_SIZE.toNat (PERM_READ ||| PERM_WRITE)
  loaded (mapped stack.1)
  let sp ← guestArith (Checked.add base (BitVec.ofNat 32 size))
  pure (stack.2, (sp &&& ~~~0xf) - 16)

/-! ## What the image should be -/

namespace Segment

/-- The place of an address in a segment, counted round the address space. -/
def place (seg : Segment) (a : U32) : Nat := (a - seg.vaddr).toNat

/-- So many bytes belong to the segment. -/
def extent (seg : Segment) : Nat := max seg.data.length seg.memsz.toNat

/-- The segment has a byte at the address. -/
def holds (seg : Segment) (a : U32) : Bool := seg.place a < seg.extent

/-- The byte of the file for the address. -/
def fileByte (seg : Segment) (a : U32) : Option U8 := seg.data[seg.place a]?

/-- The byte and the permissions that the segment asks for at an address. -/
def cell (seg : Segment) (a : U32) : U8 × U8 :=
  match seg.fileByte a with
  | some b => (b, seg.perm)
  | none => (0, seg.perm ||| PERM_READ ||| PERM_WRITE)

end Segment

/-- The last segment in header order that has a byte at the address. -/
def lastHolder (segs : List Segment) (a : U32) : Option Segment := segs.reverse.find? (·.holds a)

/-- The last byte of the file for the address. -/
def lastFileByte (segs : List Segment) (a : U32) : Option U8 :=
  segs.reverse.findSome? (·.fileByte a)

/-- The loader does not panic on a file, and loads what it says. -/
structure LoaderExact (bytes : List U8) : Prop where
  safe : Guarded.Safe (parse bytes)
  bounds : ∀ p, parse bytes = .ok p → ∀ seg ∈ p.segments, ∀ i < seg.extent,
    p.imageBounds.1.toNat ≤ (seg.vaddr + BitVec.ofNat 32 i).toNat ∧
      (seg.vaddr + BitVec.ofNat 32 i).toNat < p.imageBounds.2.toNat
  window : ∀ p, parse bytes = .ok p → Guarded.Safe (prepare p)
  contents : ∀ p, parse bytes = .ok p → ∀ m m', (∀ off, m.mem off = 0) →
    p.loadInto m = (.ok (), m') → ∀ a seg, lastHolder p.segments a = some seg →
      m'.cells a = some (seg.cell a)

/-- The end of the image, as a number without bound. -/
def Program.reach (p : Program) : Nat :=
  (p.segments.map fun s => s.vaddr.toNat + s.memsz.toNat).max?.getD 0

/-- An image that is loaded as it should be: it ends a page before the end of the address space, the
file bytes of a segment end where some segment does, the stack above it does not end at the end of
the address space (or the window begins at address zero), and where the last segment to hold an
address wants a zero, no file byte but a zero is left. -/
structure Program.Sound (p : Program) : Prop where
  reach : p.reach ≤ 0xfffff000
  files : ∀ seg ∈ p.segments, seg.data ≠ [] → seg.vaddr.toNat + seg.data.length ≤ p.reach
  stack : (p.reach + 0xfff) / 0x1000 * 0x1000 + STACK_SIZE.toNat ≠ 2 ^ 32 ∨
    ∃ seg ∈ p.segments, seg.vaddr.toNat < 0x1000
  clear : ∀ a seg, lastHolder p.segments a = some seg → seg.fileByte a = none →
    (lastFileByte p.segments a).getD 0 = 0

/-! ## What a segment does to a memory -/

/-- A mapping succeeds without a fault only. -/
theorem mapped_eq_ok {r : Except Fault Unit} : mapped r = .ok () ↔ r = .ok () := by
  cases r with
  | error f => exact iff_of_false nofun nofun
  | ok u => exact iff_of_true rfl rfl

namespace Segment

section
variable {seg : Segment} {m : Mmu} {a : U32}

/-- What loading the segment does to the cell at an address. -/
def effect (seg : Segment) (a : U32) (x : U8 × U8) : U8 × U8 :=
  if seg.holds a then ((seg.fileByte a).getD x.1, (seg.cell a).2) else x

/-- A segment holds an address below its extent. -/
theorem holds_iff : seg.holds a ↔ seg.place a < seg.extent := decide_eq_true_iff

/-- Past its file bytes, a segment has none. -/
theorem fileByte_eq_none : seg.fileByte a = none ↔ seg.data.length ≤ seg.place a :=
  List.getElem?_eq_none_iff

/-- A segment holds its file bytes. -/
theorem holds_of_fileByte {b : U8} (h : seg.fileByte a = some b) : seg.holds a := by
  rw [holds_iff, extent]
  have := (List.getElem?_eq_some_iff.1 h).1
  omega

/-- The segment's file bytes fit the address space, as those of a parsed file do. -/
def Fits (seg : Segment) : Prop := seg.data.length < 2 ^ 32

/-- The number of file bytes fits a word. -/
theorem Fits.filled (h : seg.Fits) : (BitVec.ofNat 32 seg.data.length).toNat = seg.data.length := by
  rw [BitVec.toNat_ofNat]
  exact Nat.mod_eq_of_lt h

/-- Where the zeros begin. -/
def tail (seg : Segment) : U32 := seg.vaddr + BitVec.ofNat 32 seg.data.length

/-- How many there are. -/
def zeros (seg : Segment) : Nat := seg.memsz.toNat - seg.data.length

/-- The `.bss` part is what the file leaves of the segment. -/
theorem Fits.zeros (h : seg.Fits) (hlt : BitVec.ofNat 32 seg.data.length < seg.memsz) :
    (seg.memsz - BitVec.ofNat 32 seg.data.length).toNat = seg.zeros := by
  rw [BitVec.toNat_sub_of_le (BitVec.le_of_lt hlt), h.filled, Segment.zeros]

/-- The places behind the file bytes. -/
theorem Fits.place_tail (h : seg.Fits) (a : U32) : (a - seg.tail).toNat < seg.zeros ↔
    seg.data.length ≤ seg.place a ∧ seg.place a < seg.memsz.toNat := by
  have hd := h.filled
  have hm := seg.memsz.isLt
  unfold tail place Segment.zeros
  generalize BitVec.ofNat 32 seg.data.length = f at hd ⊢
  rw [← hd]
  bv_omega

/-- The permissions behind the file bytes. -/
def tailPerm (seg : Segment) : U8 := seg.perm ||| PERM_READ ||| PERM_WRITE

/-- Once the file bytes are mapped, what is left is to stamp the `.bss` part. -/
theorem loadInto_of_map (hmap : (m.map seg.vaddr seg.data seg.perm).1 = .ok ()) :
    seg.loadInto m =
      if BitVec.ofNat 32 seg.data.length < seg.memsz then
        let r := (m.map seg.vaddr seg.data seg.perm).2.protect seg.tail
          (seg.memsz - BitVec.ofNat 32 seg.data.length).toNat seg.tailPerm
        (mapped r.1, r.2)
      else (.ok (), (m.map seg.vaddr seg.data seg.perm).2) := by
  rw [loadInto]
  cases hr : m.map seg.vaddr seg.data seg.perm with
  | mk r m' =>
    rw [hr] at hmap
    obtain rfl : r = .ok () := hmap
    rfl

/-- A segment that is loaded has its file bytes mapped. -/
theorem map_of_loadInto (h : (seg.loadInto m).1 = .ok ()) :
    (m.map seg.vaddr seg.data seg.perm).1 = .ok () := by
  rw [loadInto] at h
  split at h
  · cases h
  · rename_i heq
    rw [heq]

/-- The guest's comparison of the two sizes is that of the numbers. -/
theorem Fits.filled_lt (h : seg.Fits) :
    BitVec.ofNat 32 seg.data.length < seg.memsz ↔ seg.data.length < seg.memsz.toNat := by
  rw [BitVec.lt_def, h.filled]

/-- The segment is loaded if the memory has a cell for each of its bytes. -/
theorem loadInto_ok_iff (hf : seg.Fits) :
    (seg.loadInto m).1 = .ok () ↔ ∀ a, seg.holds a → (m.cells a).isSome := by
  have hlen : seg.data.length ≤ 2 ^ 32 := Nat.le_of_lt hf
  have htail : seg.zeros ≤ 2 ^ 32 := (Nat.sub_le _ _).trans (Nat.le_of_lt seg.memsz.isLt)
  constructor
  · intro h a ha
    have hmap := map_of_loadInto h
    rw [holds_iff, extent] at ha
    rcases Nat.lt_or_ge (seg.place a) seg.data.length with hp | hp
    · exact (Mmu.map_ok_iff hlen).1 hmap a hp
    · have hlt := hf.filled_lt.2 (show seg.data.length < seg.memsz.toNat by omega)
      rw [loadInto_of_map hmap, if_pos hlt, hf.zeros hlt] at h
      have hhas := (Mmu.protect_ok_iff htail).1 (mapped_eq_ok.1 h) a
        ((hf.place_tail a).2 ⟨hp, by omega⟩)
      rwa [Mmu.cells_map hlen hmap, Cells.isSome_modify] at hhas
  · intro h
    have hmap : (m.map seg.vaddr seg.data seg.perm).1 = .ok () :=
      (Mmu.map_ok_iff hlen).2 fun a ha => h a (holds_iff.2 (by rw [extent, place]; omega))
    rw [loadInto_of_map hmap]
    split
    next hlt =>
      rw [hf.zeros hlt]
      refine mapped_eq_ok.2 ((Mmu.protect_ok_iff htail).2 fun a ha => ?_)
      rw [Mmu.cells_map hlen hmap, Cells.isSome_modify]
      have := (hf.place_tail a).1 ha
      exact h a (holds_iff.2 (by rw [extent]; omega))
    next => rfl

/-- The cells behind the file bytes get permissions. -/
theorem cells_loadInto_map (hf : seg.Fits) (h : (seg.loadInto m).1 = .ok ()) (a : U32) :
    (seg.loadInto m).2.cells a =
      if seg.data.length ≤ seg.place a ∧ seg.place a < seg.memsz.toNat then
        ((m.map seg.vaddr seg.data seg.perm).2.cells a).map fun x => (x.1, seg.tailPerm)
      else (m.map seg.vaddr seg.data seg.perm).2.cells a := by
  have hmap := map_of_loadInto h
  rw [loadInto_of_map hmap] at h ⊢
  have htail : seg.zeros ≤ 2 ^ 32 := (Nat.sub_le _ _).trans (Nat.le_of_lt seg.memsz.isLt)
  split
  next hlt =>
    rw [if_pos hlt, hf.zeros hlt] at h
    rw [hf.zeros hlt, Mmu.cells_protect htail (mapped_eq_ok.1 h), Cells.modify]
    simp only [hf.place_tail a]
  next hge =>
    rw [hf.filled_lt] at hge
    exact (if_neg fun hp => hge (by omega)).symm

/-- Loading changes the cells by the effect of the segment. -/
theorem cells_loadInto (hf : seg.Fits) (h : (seg.loadInto m).1 = .ok ()) (a : U32) :
    (seg.loadInto m).2.cells a = (m.cells a).map (seg.effect a) := by
  rw [cells_loadInto_map hf h, Mmu.cells_map (Nat.le_of_lt hf) (map_of_loadInto h), Cells.modify]
  change (if _ then Option.map _ (if seg.place a < _ then _ else _) else if seg.place a < _ then _
    else _) = _
  rcases Nat.lt_or_ge (seg.place a) seg.data.length with hp | hp
  · have hb : seg.fileByte a = some (seg.data.getD (seg.place a) 0) := by
      rw [fileByte, List.getD_eq_getElem?_getD, List.getElem?_eq_getElem hp, Option.getD_some]
    have heff : seg.effect a = fun _ => (seg.data.getD (seg.place a) 0, seg.perm) := by
      funext x
      rw [effect, if_pos (holds_of_fileByte hb), cell, hb, Option.getD_some]
    rw [if_neg fun h => absurd h.1 (Nat.not_le.2 hp), if_pos hp, heff]
    rfl
  · have hb := fileByte_eq_none.2 hp
    simp only [if_neg (Nat.not_lt.2 hp)]
    split
    next hin =>
      have hh : seg.holds a := holds_iff.2 (by rw [extent]; omega)
      have heff : seg.effect a = fun x => (x.1, seg.tailPerm) := by
        funext x
        rw [effect, if_pos hh, cell, hb, Option.getD_none]
        rfl
      rw [heff]
    next hout =>
      have hh : ¬ seg.holds a := by
        rw [holds_iff, extent]
        omega
      have heff : seg.effect a = id := funext fun x => if_neg hh
      rw [heff, Option.map_id_fun, id]

end

end Segment

section
variable {segs : List Segment} {m : Mmu} {a : U32}

/-- The segments are loaded exactly when every address that one holds is in the window. -/
theorem loadAll_ok_iff (hf : ∀ seg ∈ segs, seg.Fits) : (loadAll segs m).1 = .ok () ↔
    ∀ seg ∈ segs, ∀ a, seg.holds a → (m.cells a).isSome := by
  induction segs generalizing m with
  | nil => exact iff_of_true rfl nofun
  | cons seg segs ih =>
    have hseg := hf seg List.mem_cons_self
    rw [List.forall_mem_cons, ← Segment.loadInto_ok_iff hseg, loadAll]
    cases hr : seg.loadInto m with
    | mk r m' =>
      cases r with
      | error e => exact iff_of_false nofun fun h => nomatch h.1
      | ok u =>
        have hok : (seg.loadInto m).1 = .ok () := by rw [hr]
        have hsome : ∀ a, (m'.cells a).isSome = (m.cells a).isSome := fun a => by
          have := Segment.cells_loadInto hseg hok a
          rw [hr] at this
          rw [this, Option.isSome_map]
        simp only [ih fun s hs => hf s (List.mem_cons_of_mem _ hs), hsome, true_and]

/-- A byte after all segments were loaded has the effects of each in turn. -/
theorem cells_loadAll (hf : ∀ seg ∈ segs, seg.Fits) (h : (loadAll segs m).1 = .ok ()) :
    (loadAll segs m).2.cells a = (m.cells a).map fun x => segs.foldl (fun x s => s.effect a x) x := by
  induction segs generalizing m with
  | nil => exact Option.map_id'.symm
  | cons seg segs ih =>
    rw [loadAll] at h ⊢
    cases hr : seg.loadInto m with
    | mk r m' =>
      rw [hr] at h
      cases r with
      | error e => cases h
      | ok u =>
        have hok : (seg.loadInto m).1 = .ok () := by rw [hr]
        have hc := Segment.cells_loadInto (hf seg List.mem_cons_self) hok a
        rw [hr] at hc
        simp only [ih (fun s hs => hf s (List.mem_cons_of_mem _ hs)) h, hc, Option.map_map]
        rfl

/-! ## The last segment -/

/-- The last segment counts first. -/
theorem lastHolder_append (s : Segment) :
    lastHolder (segs ++ [s]) a = if s.holds a then some s else lastHolder segs a := by
  rw [lastHolder, List.reverse_append, List.reverse_singleton, List.singleton_append,
    List.find?_cons]
  cases s.holds a <;> rfl

/-- The file byte of the last segment counts first. -/
theorem lastFileByte_append (s : Segment) :
    lastFileByte (segs ++ [s]) a = (s.fileByte a).or (lastFileByte segs a) := by
  rw [lastFileByte, List.reverse_append, List.reverse_singleton, List.singleton_append,
    List.findSome?_cons]
  cases s.fileByte a <;> rfl

/-- The byte at an address after loading. -/
theorem foldl_effect_fst (x : U8 × U8) :
    (segs.foldl (fun x s => s.effect a x) x).1 = (lastFileByte segs a).getD x.1 := by
  induction segs using List.reverseRecOn with
  | nil => rfl
  | append_singleton segs s ih =>
    rw [List.foldl_append, List.foldl_cons, List.foldl_nil, lastFileByte_append, Segment.effect]
    cases hb : s.fileByte a with
    | some b =>
      rw [if_pos (Segment.holds_of_fileByte hb)]
      rfl
    | none =>
      rw [Option.none_or, ← ih]
      split <;> rfl

/-- The permissions at an address after loading. -/
theorem foldl_effect_snd {seg : Segment} (h : lastHolder segs a = some seg) (x : U8 × U8) :
    (segs.foldl (fun x s => s.effect a x) x).2 = (seg.cell a).2 := by
  induction segs using List.reverseRecOn with
  | nil => cases h
  | append_singleton segs s ih =>
    rw [lastHolder_append] at h
    rw [List.foldl_append, List.foldl_cons, List.foldl_nil, Segment.effect]
    split at h
    next hs =>
      cases h
      rw [if_pos hs]
    next hs =>
      rw [if_neg hs]
      exact ih h

/-- The last holder is a segment that holds the address. -/
theorem lastHolder_mem {seg : Segment} (h : lastHolder segs a = some seg) :
    seg ∈ segs ∧ seg.holds a := by
  unfold lastHolder at h
  exact ⟨List.mem_reverse.1 (List.mem_of_find?_eq_some h), (List.find?_eq_some_iff_append.1 h).1⟩

/-- The file bytes of the last segment to hold an address are the last ones there. -/
theorem lastFileByte_of_holder {seg : Segment} {b : U8} (h : lastHolder segs a = some seg)
    (hb : seg.fileByte a = some b) : lastFileByte segs a = some b := by
  induction segs using List.reverseRecOn with
  | nil => cases h
  | append_singleton segs s ih =>
    rw [lastHolder_append] at h
    rw [lastFileByte_append]
    split at h
    next hs =>
      cases h
      rw [hb, Option.some_or]
    next hs =>
      have hn : s.fileByte a = none := by
        by_contra hn
        obtain ⟨b', hb'⟩ := Option.ne_none_iff_exists'.1 hn
        exact hs (Segment.holds_of_fileByte hb')
      rw [hn, Option.none_or]
      exact ih h

end

/-! ## The contents of the image -/

section
variable {segs : List Segment}

/-- No file byte but a zero is left where the last segment wants a zero. -/
def Clear (segs : List Segment) : Prop := ∀ a seg, lastHolder segs a = some seg →
  seg.fileByte a = none → (lastFileByte segs a).getD 0 = 0

/-- Without a stale byte, each byte is that of the last segment that holds it. -/
theorem Clear.contents (hclear : Clear segs) (hf : ∀ seg ∈ segs, seg.Fits) {m m' : Mmu}
    (hz : ∀ off, m.mem off = 0) (h : loadAll segs m = (.ok (), m')) {a : U32} {seg : Segment}
    (hh : lastHolder segs a = some seg) : m'.cells a = some (seg.cell a) := by
  have hok : (loadAll segs m).1 = .ok () := by rw [h]
  obtain ⟨hmem, hholds⟩ := lastHolder_mem hh
  obtain ⟨x, hx⟩ := Option.isSome_iff_exists.1 ((loadAll_ok_iff hf).1 hok seg hmem a hholds)
  have hc := cells_loadAll (a := a) hf hok
  rw [h, hx] at hc
  rw [hc, Option.map_some]
  refine congrArg some (Prod.ext ?_ (foldl_effect_snd hh x))
  rw [foldl_effect_fst, Mmu.cells_zero hz hx, Segment.cell]
  cases hb : seg.fileByte a with
  | some b => rw [lastFileByte_of_holder hh hb, Option.getD_some]
  | none => exact hclear a seg hh hb

/-- The whole address space shows a byte that is left. -/
theorem clear_of_contents (hf : ∀ seg ∈ segs, seg.Fits)
    (hc : ∀ m m', (∀ off, m.mem off = 0) → loadAll segs m = (.ok (), m') → ∀ a seg,
      lastHolder segs a = some seg → m'.cells a = some (seg.cell a)) : Clear segs := by
  intro a seg hh hb
  have hall : ∀ x, ((Mmu.new 0 (2 ^ 32)).cells x).isSome := fun x =>
    Mmu.cells_new.2 ⟨Nat.zero_le _, x.isLt⟩
  have hok : (loadAll segs (Mmu.new 0 (2 ^ 32))).1 = .ok () :=
    (loadAll_ok_iff hf).2 fun _ _ x _ => hall x
  obtain ⟨x, hx⟩ := Option.isSome_iff_exists.1 (hall a)
  have hz : x.1 = 0 := Mmu.cells_zero (fun _ => rfl) hx
  have hcell := hc _ _ (fun _ => rfl) (Prod.ext hok rfl) a seg hh
  rw [cells_loadAll hf hok, hx, Option.map_some, Segment.cell, hb, Option.some_inj] at hcell
  rw [← hz, ← foldl_effect_fst, hcell]
  exact hz.symm

end

/-! ## What the parser gives -/

section
variable {bytes : List U8}

open Guarded (bind_eq_ok)

/-- A slice has its length. -/
theorem length_of_slice {off len : Nat} {b : List U8} (h : Reader.slice bytes off len = .ok b) :
    b.length = len := by
  obtain ⟨stop, hstop, h⟩ := bind_eq_ok h
  have := usizeAdd_eq_ok hstop
  split at h
  · cases h
    rw [List.length_take, List.length_drop]
    omega
  · cases h

/-- A parsed segment fits its extent. -/
theorem fits_of_loadSegment {ph : Nat} {seg : Segment} (h : loadSegment bytes ph = .ok seg) :
    seg.Fits := by
  obtain ⟨offset, -, h⟩ := bind_eq_ok h
  obtain ⟨vaddr, -, h⟩ := bind_eq_ok h
  obtain ⟨filesz, -, h⟩ := bind_eq_ok h
  obtain ⟨memsz, -, h⟩ := bind_eq_ok h
  obtain ⟨flags, -, h⟩ := bind_eq_ok h
  obtain ⟨data, hdata, h⟩ := bind_eq_ok h
  cases h
  exact (length_of_slice hdata).trans_lt filesz.isLt

/-- So do all of them. -/
theorem fits_of_loadSegments {phoff phentsize : Nat} : ∀ {n i : Nat} {segs : List Segment},
    loadSegments bytes phoff phentsize i n = .ok segs → ∀ seg ∈ segs, seg.Fits := by
  intro n
  induction n with
  | zero =>
    intro i segs h
    cases h
    exact nofun
  | succ n ih =>
    intro i segs h
    obtain ⟨skip, -, h⟩ := bind_eq_ok h
    obtain ⟨ph, -, h⟩ := bind_eq_ok h
    obtain ⟨type, -, h⟩ := bind_eq_ok h
    split at h
    · exact ih h
    · obtain ⟨seg, hseg, h⟩ := bind_eq_ok h
      obtain ⟨rest, hrest, h⟩ := bind_eq_ok h
      cases h
      exact List.forall_mem_cons.2 ⟨fits_of_loadSegment hseg, ih hrest⟩

/-- A program has segments, and their file bytes fit the address space. -/
theorem segments_of_parse {p : Program} (h : parse bytes = .ok p) :
    p.segments ≠ [] ∧ ∀ seg ∈ p.segments, seg.Fits := by
  obtain ⟨magic, -, h⟩ := bind_eq_ok h
  split at h
  · cases h
  obtain ⟨ident, -, h⟩ := bind_eq_ok h
  split at h
  · cases h
  obtain ⟨order, -, h⟩ := bind_eq_ok h
  split at h
  · cases h
  obtain ⟨machine, -, h⟩ := bind_eq_ok h
  split at h
  · cases h
  obtain ⟨type, -, h⟩ := bind_eq_ok h
  split at h
  · cases h
  obtain ⟨entry, -, h⟩ := bind_eq_ok h
  obtain ⟨phoff, -, h⟩ := bind_eq_ok h
  obtain ⟨phentsize, -, h⟩ := bind_eq_ok h
  obtain ⟨phnum, -, h⟩ := bind_eq_ok h
  obtain ⟨segments, hsegs, h⟩ := bind_eq_ok h
  split at h
  · cases h
  obtain ⟨tohost, -, h⟩ := bind_eq_ok h
  cases h
  exact ⟨‹_›, fits_of_loadSegments hsegs⟩

end

/-! ## The bounds of the image -/

namespace Program

section
variable {p : Program}

/-- Each byte of the image is between its bounds. -/
def InBounds (p : Program) : Prop := ∀ seg ∈ p.segments, ∀ i < seg.extent,
  p.imageBounds.1.toNat ≤ (seg.vaddr + BitVec.ofNat 32 i).toNat ∧
    (seg.vaddr + BitVec.ofNat 32 i).toNat < p.imageBounds.2.toNat

/-- The lower bound is the least address of a segment. -/
theorem exists_low (hne : p.segments ≠ []) : ∃ seg ∈ p.segments, p.imageBounds.1 = seg.vaddr ∧
    ∀ s ∈ p.segments, seg.vaddr.toNat ≤ s.vaddr.toNat := by
  have hmap : p.segments.map (·.vaddr.toNat) ≠ [] := mt List.map_eq_nil_iff.1 hne
  obtain ⟨lo, hlo⟩ := Option.ne_none_iff_exists'.1 (mt List.min?_eq_none_iff.1 hmap)
  obtain ⟨hmem, hle⟩ := List.min?_eq_some_iff.1 hlo
  obtain ⟨seg, hseg, rfl⟩ := List.mem_map.1 hmem
  refine ⟨seg, hseg, ?_, fun s hs => hle _ (List.mem_map_of_mem hs)⟩
  rw [imageBounds, hlo, Option.getD_some, BitVec.ofNat_toNat, BitVec.setWidth_eq]

/-- The image starts at or below every segment. -/
theorem low_le {seg : Segment} (hseg : seg ∈ p.segments) :
    p.imageBounds.1.toNat ≤ seg.vaddr.toNat := by
  obtain ⟨s, -, hs, hle⟩ := exists_low (List.ne_nil_of_mem hseg)
  rw [hs]
  exact hle seg hseg

/-- Every segment ends within the reach. -/
theorem le_reach {seg : Segment} (hseg : seg ∈ p.segments) :
    seg.vaddr.toNat + seg.memsz.toNat ≤ p.reach := by
  have hmem : seg.vaddr.toNat + seg.memsz.toNat ∈
      p.segments.map fun s => s.vaddr.toNat + s.memsz.toNat := List.mem_map.2 ⟨seg, hseg, rfl⟩
  obtain ⟨hi, hhi⟩ := Option.ne_none_iff_exists'.1
    (mt List.max?_eq_none_iff.1 (List.ne_nil_of_mem hmem))
  rw [reach, hhi]
  exact (List.max?_eq_some_iff.1 hhi).2 _ hmem

/-- The reach is below what all segments end below. -/
theorem reach_lt {n : Nat} (hn : 0 < n)
    (h : ∀ seg ∈ p.segments, seg.vaddr.toNat + seg.memsz.toNat < n) : p.reach < n := by
  rw [reach]
  cases hhi : (p.segments.map fun s => s.vaddr.toNat + s.memsz.toNat).max? with
  | none => exact hn
  | some hi =>
    obtain ⟨seg, hseg, rfl⟩ := List.mem_map.1 (List.max?_eq_some_iff.1 hhi).1
    exact h seg hseg

/-- The upper bound is the end of the image unless the sum wraps. -/
theorem high_eq (h : p.reach < 2 ^ 32) : p.imageBounds.2.toNat = p.reach := by
  have hmap : (p.segments.map fun s => (s.vaddr + s.memsz).toNat) =
      p.segments.map fun s => s.vaddr.toNat + s.memsz.toNat :=
    List.map_congr_left fun s hs => by
      rw [BitVec.toNat_add]
      exact Nat.mod_eq_of_lt ((le_reach hs).trans_lt h)
  rw [imageBounds, hmap, BitVec.toNat_ofNat]
  exact Nat.mod_eq_of_lt h

/-- The file bytes of each segment end before the end of the image. -/
def Filed (p : Program) : Prop :=
  ∀ seg ∈ p.segments, seg.data ≠ [] → seg.vaddr.toNat + seg.data.length ≤ p.reach

/-- An address of a segment that does not wrap. -/
theorem toNat_place {v : U32} {i : Nat} (h : v.toNat + i < 2 ^ 32) :
    (v + BitVec.ofNat 32 i).toNat = v.toNat + i := by
  rw [BitVec.toNat_add, BitVec.toNat_ofNat, Nat.mod_eq_of_lt (show i < 2 ^ 32 by omega)]
  exact Nat.mod_eq_of_lt h

/-- A segment with a byte at the end of the address space is not in bounds. -/
theorem InBounds.no_wrap (h : p.InBounds) {seg : Segment} (hseg : seg ∈ p.segments) :
    seg.vaddr.toNat + seg.extent < 2 ^ 32 := by
  by_contra hc
  have hv := seg.vaddr.isLt
  have hlast := (h seg hseg (2 ^ 32 - 1 - seg.vaddr.toNat) (by omega)).2
  rw [toNat_place (by omega)] at hlast
  have := p.imageBounds.2.isLt
  omega

/-- The bounds of the image are in order when the segments end below the top of memory. -/
theorem inBounds_iff : p.InBounds ↔ p.reach < 2 ^ 32 ∧ p.Filed := by
  constructor
  · intro h
    have hreach : p.reach < 2 ^ 32 := reach_lt (by decide) fun seg hseg => by
      have := h.no_wrap hseg
      rw [Segment.extent] at this
      omega
    refine ⟨hreach, fun seg hseg hne => ?_⟩
    have hpos : 0 < seg.data.length := List.length_pos_of_ne_nil hne
    have hwrap := h.no_wrap hseg
    rw [Segment.extent] at hwrap
    have hlast := (h seg hseg (seg.data.length - 1) (by rw [Segment.extent]; omega)).2
    rw [toNat_place (by omega), high_eq hreach] at hlast
    omega
  · rintro ⟨hreach, hfiles⟩ seg hseg i hi
    have hlt : seg.vaddr.toNat + i < p.reach := by
      have hmem := le_reach hseg
      rw [Segment.extent, lt_max_iff] at hi
      rcases hi with hi | hi
      · have := hfiles seg hseg (List.ne_nil_of_length_pos (by omega))
        omega
      · omega
    rw [toNat_place (by omega), high_eq hreach]
    exact ⟨(low_le hseg).trans (Nat.le_add_right _ _), hlt⟩

end

/-! ## The window -/

open Guarded (Safe safe_pure safe_bind_iff bind_ok)

/-- A fault of the loader is an error, not a panic. -/
theorem safe_loaded (r : Except LoadError Unit) : Safe (loaded r) := by
  cases r with
  | error e => exact Guarded.safe_fail e
  | ok u => exact Guarded.safe_ok u

/-- The loader succeeds without a fault only. -/
theorem loaded_eq_ok {r : Except LoadError Unit} {u : Unit} : loaded r = .ok u ↔ r = .ok () := by
  cases r with
  | error e => exact iff_of_false nofun nofun
  | ok u => exact iff_of_true rfl rfl

/-- Guest arithmetic panics where it overflows. -/
theorem safe_guestArith {r : Option U32} : Safe (guestArith r) ↔ r ≠ none := by
  cases r with
  | none => exact iff_of_false (fun h => h rfl) fun h => h rfl
  | some v => exact iff_of_true (safe_pure v) nofun

/-- A guest sum panics from 2^32 on. -/
theorem safe_guestAdd {x y : U32} :
    Safe (guestArith (Checked.add x y)) ↔ x.toNat + y.toNat < 2 ^ 32 := by
  rw [safe_guestArith, Ne, Checked.add_eq_none, Nat.not_le]

section
variable {p : Program} {base top : U32} {size : Nat}

/-- Where the window begins. -/
def floor (p : Program) : Nat := p.imageBounds.1.toNat / 0x1000 * 0x1000

/-- Where the image ends and the stack begins. -/
def ceiling (p : Program) : Nat := (p.reach + 0xfff) / 0x1000 * 0x1000

/-- The image in a fresh window. -/
def image (p : Program) (base : U32) (size : Nat) : Except LoadError Unit × Mmu :=
  p.loadInto (Mmu.new base size)

/-- The image and its stack. -/
def stacked (p : Program) (base top : U32) (size : Nat) : Except Fault Unit × Mmu :=
  (p.image base size).2.protect top STACK_SIZE.toNat (PERM_READ ||| PERM_WRITE)

/-- Load the image into its window and put the stack above it. -/
def layOut (p : Program) (base top : U32) (size : Nat) : Loading (Mmu × U32) := do
  loaded (p.image base size).1
  loaded (mapped (p.stacked base top size).1)
  let sp ← guestArith (Checked.add base (BitVec.ofNat 32 size))
  pure ((p.stacked base top size).2, (sp &&& ~~~0xf) - 16)

/-- The top of the image can be rounded up to a page. -/
theorem high_of_safe (h : Safe (prepare p)) : p.imageBounds.2.toNat + 0xfff < 2 ^ 32 :=
  safe_guestAdd.1 (safe_bind_iff.1 h).1

/-- The layout that `execute` computes: page bounds of the image, and the stack above. -/
theorem prepare_eq (hne : p.segments ≠ []) (h : p.reach ≤ 0xfffff000) :
    ∃ base top : U32, base.toNat = p.floor ∧ top.toNat = p.ceiling ∧ p.floor ≤ p.ceiling ∧
      prepare p = p.layOut base top (p.ceiling - p.floor + STACK_SIZE.toNat) := by
  have hhigh : p.imageBounds.2.toNat = p.reach := high_eq (by omega)
  have hfff : (0xfff : U32).toNat = 0xfff := rfl
  have hedge : (p.imageBounds.2 + 0xfff).toNat = p.reach + 0xfff := by
    rw [BitVec.toNat_add, hhigh, hfff]
    exact Nat.mod_eq_of_lt (by omega)
  have hbase : (p.imageBounds.1 &&& ~~~0xfff).toNat = p.floor :=
    Checked.toNat_and_not_low p.imageBounds.1 12
  have htop : ((p.imageBounds.2 + 0xfff) &&& ~~~0xfff).toNat = p.ceiling := by
    rw [ceiling, ← hedge]
    exact Checked.toNat_and_not_low (p.imageBounds.2 + 0xfff) 12
  obtain ⟨seg, hseg⟩ := List.exists_mem_of_ne_nil _ hne
  have hle : p.floor ≤ p.ceiling := by
    have hlow := low_le hseg
    have hreach := le_reach hseg
    rw [floor, ceiling]
    omega
  refine ⟨_, _, hbase, htop, hle, ?_⟩
  rw [prepare]
  dsimp only
  rw [Checked.add_eq (by rw [hhigh, hfff]; omega)]
  rw [show guestArith (some (p.imageBounds.2 + 0xfff)) = .ok (p.imageBounds.2 + 0xfff) from rfl,
    bind_ok rfl, Checked.sub_eq (by rw [hbase, htop]; exact hle)]
  have hspan : ((p.imageBounds.2 + 0xfff &&& ~~~0xfff) - (p.imageBounds.1 &&& ~~~0xfff)).toNat =
      p.ceiling - p.floor := by
    rw [BitVec.toNat_sub_of_le (BitVec.le_def.2 (by rw [hbase, htop]; exact hle)), hbase, htop]
  refine (bind_ok rfl).trans ?_
  rw [hspan]
  refine (bind_ok (Guarded.add_eq ?_)).trans rfl
  have : p.ceiling ≤ 2 ^ 32 := by
    rw [ceiling]
    omega
  have : STACK_SIZE.toNat = 0x100000 := rfl
  omega

/-- The layout panics only where the top of the stack wraps. -/
theorem safe_layOut : Safe (p.layOut base top size) ↔ ((p.image base size).1 = .ok () →
    (p.stacked base top size).1 = .ok () → base.toNat + size % 2 ^ 32 < 2 ^ 32) := by
  unfold layOut
  rw [safe_bind_iff]
  simp only [safe_loaded, true_and, loaded_eq_ok, safe_bind_iff, mapped_eq_ok, safe_guestAdd,
    BitVec.toNat_ofNat, safe_pure, implies_true, and_true, forall_const]

/-- The image covers its window. -/
theorem isSome_image (hf : ∀ seg ∈ p.segments, seg.Fits) (h : (p.image base size).1 = .ok ())
    (x : U32) : ((p.image base size).2.cells x).isSome ↔
      base.toNat ≤ x.toNat ∧ x.toNat - base.toNat < size := by
  rw [image, loadInto, cells_loadAll hf h, Option.isSome_map]
  exact Mmu.cells_new

/-- The stack ends in the window, or goes round to a window that begins at zero. -/
theorem stacked_ok (hf : ∀ seg ∈ p.segments, seg.Fits) (h : (p.image base size).1 = .ok ()) :
    (p.stacked base top size).1 = .ok () ↔ ∀ x : U32, (x - top).toNat < STACK_SIZE.toNat →
      base.toNat ≤ x.toNat ∧ x.toNat - base.toNat < size := by
  rw [stacked, Mmu.protect_ok_iff (by decide)]
  exact forall_congr' fun x => imp_congr_right fun _ => isSome_image hf h x

/-- An image in bounds is loaded. -/
theorem image_ok (hf : ∀ seg ∈ p.segments, seg.Fits) (hreach : p.reach < 2 ^ 32) (hfiled : p.Filed)
    (hbase : base.toNat = p.floor) (hsize : p.ceiling - p.floor ≤ size) :
    (p.image base size).1 = .ok () := by
  refine (loadAll_ok_iff hf).2 fun seg hseg a ha => Mmu.cells_new.2 ?_
  have hin := inBounds_iff.2 ⟨hreach, hfiled⟩ seg hseg _ (Segment.holds_iff.1 ha)
  have ha : seg.vaddr + BitVec.ofNat 32 (seg.place a) = a := by
    rw [Segment.place, BitVec.ofNat_toNat, BitVec.setWidth_eq, add_sub_cancel]
  rw [ha, high_eq hreach] at hin
  rw [hbase]
  rw [floor, ceiling] at hsize
  rw [floor]
  omega

/-- The stack may end at the end of the address space only over a window that begins at zero. -/
def StackFits (p : Program) : Prop := p.ceiling + STACK_SIZE.toNat ≠ 2 ^ 32 ∨
  ∃ seg ∈ p.segments, seg.vaddr.toNat < 0x1000

/-- The image starts at page 0 when a segment does. -/
theorem floor_eq_zero (hne : p.segments ≠ []) :
    p.floor = 0 ↔ ∃ seg ∈ p.segments, seg.vaddr.toNat < 0x1000 := by
  obtain ⟨seg, hseg, hlow, hle⟩ := exists_low hne
  rw [floor, hlow]
  constructor
  · intro h
    exact ⟨seg, hseg, by omega⟩
  · rintro ⟨s, hs, hlt⟩
    have := hle s hs
    omega

/-- Nothing panics exactly when the stack fits below the top of memory. -/
theorem safe_prepare_iff (hne : p.segments ≠ []) (hf : ∀ seg ∈ p.segments, seg.Fits)
    (hfiled : p.Filed) (hreach : p.reach ≤ 0xfffff000) : Safe (prepare p) ↔ p.StackFits := by
  obtain ⟨base, top, hbase, htop, hle, heq⟩ := prepare_eq hne hreach
  have himage := image_ok hf (by omega) hfiled hbase
    (show _ ≤ p.ceiling - p.floor + STACK_SIZE.toNat by omega)
  have hS : STACK_SIZE.toNat = 0x100000 := rfl
  rw [heq, safe_layOut, forall_prop_of_true himage, stacked_ok hf himage, StackFits,
    ← floor_eq_zero hne]
  have hpage : p.floor % 0x1000 = 0 := by
    rw [floor]
    omega
  constructor
  · intro h
    by_contra hc
    rw [not_or, not_not] at hc
    have := h fun x hx => by
      have hx' : top.toNat ≤ x.toNat := by bv_omega
      omega
    omega
  · intro h hin
    rcases Nat.eq_zero_or_pos p.floor with h0 | hpos
    · omega
    · -- the stack of a window above zero does not go round the address space
      have hround : p.ceiling + STACK_SIZE.toNat ≤ 2 ^ 32 := by
        by_contra hc
        have := (hin 0 (by bv_omega)).1
        rw [hbase] at this
        exact absurd this (Nat.not_le.2 hpos)
      omega

end

end Program

/-! ## When the loader is exact -/

/-- The four conditions on a parsed program. -/
theorem Program.sound_iff (p : Program) :
    p.Sound ↔ p.reach ≤ 0xfffff000 ∧ p.Filed ∧ p.StackFits ∧ Clear p.segments :=
  ⟨fun h => ⟨h.reach, h.files, h.stack, h.clear⟩,
    fun ⟨hreach, hfiles, hstack, hclear⟩ => ⟨hreach, hfiles, hstack, hclear⟩⟩

/-- The loader is exact on a file if and only if the program of the file, if there is one, is
sound. -/
theorem loader_exact_iff (bytes : List U8) :
    LoaderExact bytes ↔ ∀ p, parse bytes = .ok p → p.Sound := by
  constructor
  · intro h p hp
    obtain ⟨hne, hf⟩ := segments_of_parse hp
    have hin := Program.inBounds_iff.1 (h.bounds p hp)
    have hwindow := h.window p hp
    have hreach : p.reach ≤ 0xfffff000 := by
      have := Program.high_of_safe hwindow
      rw [Program.high_eq hin.1] at this
      omega
    exact p.sound_iff.2 ⟨hreach, hin.2, (Program.safe_prepare_iff hne hf hin.2 hreach).1 hwindow,
      clear_of_contents hf (h.contents p hp)⟩
  · intro h
    refine ⟨safe_parse bytes, fun p hp => ?_, fun p hp => ?_, fun p hp m m' hz hload a seg hh => ?_⟩
    all_goals
      obtain ⟨hreach, hfiled, hstack, hclear⟩ := p.sound_iff.1 (h p hp)
      obtain ⟨hne, hf⟩ := segments_of_parse hp
    · exact Program.inBounds_iff.2 ⟨by omega, hfiled⟩
    · exact (Program.safe_prepare_iff hne hf hfiled hreach).2 hstack
    · exact hclear.contents hf hz hload hh

/-- A file of two segments at one address: a byte of the file, and a byte of zeros. -/
def overlapping : List U8 :=
  MAGIC ++ [1, 1, 1, 0] ++ List.replicate 8 0 ++ [2, 0, 243, 0, 1, 0, 0, 0] ++
    [0, 0x10, 0, 0] ++ [52, 0, 0, 0] ++ List.replicate 10 0 ++ [32, 0, 2, 0] ++
    List.replicate 6 0 ++
    [1, 0, 0, 0, 116, 0, 0, 0, 0, 0x10, 0, 0, 0, 0x10, 0, 0] ++
    [1, 0, 0, 0, 1, 0, 0, 0, 6, 0, 0, 0, 0, 0x10, 0, 0] ++
    [1, 0, 0, 0, 116, 0, 0, 0, 0, 0x10, 0, 0, 0, 0x10, 0, 0] ++
    [0, 0, 0, 0, 1, 0, 0, 0, 6, 0, 0, 0, 0, 0x10, 0, 0] ++ [0x2a]

/-- What the parser makes of it. -/
theorem parse_overlapping : parse overlapping = .ok ⟨0x1000, none,
    [⟨0x1000, [0x2a], 1, PERM_READ ||| PERM_WRITE⟩, ⟨0x1000, [], 1, PERM_READ ||| PERM_WRITE⟩]⟩ := by
  decide

/-- The byte of the file stays where the second segment wants a zero. -/
theorem overlapping_not_exact : ¬ LoaderExact overlapping := by
  intro h
  have hf := (segments_of_parse parse_overlapping).2
  have hclear := clear_of_contents hf (h.contents _ parse_overlapping)
  exact absurd (hclear 0x1000 ⟨0x1000, [], 1, PERM_READ ||| PERM_WRITE⟩ rfl rfl) (by decide)

end FuzzSoft
