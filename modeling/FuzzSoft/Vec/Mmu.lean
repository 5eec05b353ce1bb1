import FuzzSoft.Lib.Packed
import FuzzSoft.Mmu.Flat
import FuzzSoft.Vec.System

/-!
# The interleaved memory of sixteen lanes

`fs_vec::VecMmu`: one window for all lanes, in which every guest word holds four packed bytes, stands
beside a word of packed permission bytes, and is kept once for each lane, the copies of a word one
after the other. A lane is accessed alone, or all lanes at once: at one address, or at an address each.
-/

namespace FuzzSoft

open Lib

/-- A packed register: one value for each lane. -/
abbrev Simd (α : Type) := Lane → α

/-- Some lane is set. -/
def anyLane (p : Simd Bool) : Bool := (List.finRange LANES).any p

@[simp] theorem anyLane_eq_false {p : Simd Bool} : anyLane p = false ↔ ∀ l, p l = false := by
  simp [anyLane]

/-- The memory that all lanes share. The copies of word `w` of its lanes start at `w * LANES`. -/
structure VecMmu where
  base : U32
  numWords : Nat
  content : Nat → U32
  perms : Nat → U32
  aligned : base.toNat % 4 = 0

namespace VecMmu

/-- A zeroed window without permissions. A base or a size that is no multiple of four panics. -/
def new (base : U32) (size : Nat) : Option VecMmu :=
  if h : base.toNat % 4 = 0 ∧ size % 4 = 0 then
    some ⟨base, size / 4, fun _ => 0, fun _ => 0, h.1⟩
  else none

/-- The word of an address, and its byte in that word. -/
def wordOff (m : VecMmu) (addr : U32) : Option (Nat × Nat) :=
  if addr < m.base then none
  else
    let rel := (addr - m.base).toNat
    let word := rel / 4
    if word < m.numWords then some (word, rel % 4) else none

/-- The bytes `off, …, off + size - 1` of a word. -/
def regionMask (off size : Nat) : U32 :=
  let bits := size * 8
  let unshifted : U32 := if 32 ≤ bits then BitVec.allOnes 32 else (1#32 <<< bits) - 1
  unshifted <<< (off * 8)

/-- One permission byte in every byte of a word. -/
def splatByte (bit : U8) : U32 := bit.setWidth 32 * 0x01010101

/-- The permission bits `bit` of the bytes of a region. -/
def needMask (bit : U8) (off size : Nat) : U32 := splatByte bit &&& regionMask off size

/-! ## Loading an image -/

/-- A word with the byte `off` replaced. -/
def stamp (off : Nat) (b : U8) (w : U32) : U32 :=
  (w &&& ~~~(0xff#32 <<< (off * 8))) ||| (b.setWidth 32 <<< (off * 8))

/-- Replace the byte `off` of a word in every lane's copy. -/
def stampLanes (plane : Nat → U32) (word off : Nat) (b : U8) : Nat → U32 :=
  updateLanes (fun _ => word) (fun _ => stamp off b) plane (List.finRange LANES)

/-- Write `data` at `addr` in every lane and stamp `perm`. -/
def map (m : VecMmu) (addr : U32) (data : List U8) (perm : U8) : Except Fault Unit × VecMmu :=
  match data with
  | [] => (.ok (), m)
  | b :: bs =>
    match m.wordOff addr with
    | none => (.error ⟨addr, 1, .write, .unmapped⟩, m)
    | some (word, off) =>
      map { m with
        content := stampLanes m.content word off b
        perms := stampLanes m.perms word off perm } (addr + 1) bs perm

/-- Stamp `perm` over `[addr, addr + len)` in every lane. -/
def protect (m : VecMmu) (addr : U32) (len : Nat) (perm : U8) : Except Fault Unit × VecMmu :=
  go m addr len
where
  go (m : VecMmu) (a : U32) : Nat → Except Fault Unit × VecMmu
    | 0 => (.ok (), m)
    | n + 1 =>
      match m.wordOff a with
      | none => (.error ⟨a, BitVec.ofNat 32 len, .write, .unmapped⟩, m)
      | some (word, off) => go { m with perms := stampLanes m.perms word off perm } (a + 1) n

/-! ## The access of one lane -/

/-- Only half-words and words have an alignment. -/
def checkSize (addr : U32) (size : Nat) (access : Access) : Except Fault Unit :=
  if size = 2 then checkAlign addr 2 access
  else if size = 4 then checkAlign addr 4 access
  else .ok ()

/-- The checks of an access: the word and the byte it starts at. -/
def check (m : VecMmu) (lane : Lane) (addr : U32) (size : Nat) (access : Access) (bit : U8) :
    Except Fault (Nat × Nat) :=
  match checkSize addr size access with
  | .error f => .error f
  | .ok () =>
    match m.wordOff addr with
    | none => .error ⟨addr, BitVec.ofNat 32 size, access, .unmapped⟩
    | some (word, off) =>
      let need := needMask bit off size
      if m.perms (word * LANES + lane) &&& need ≠ need then
        .error ⟨addr, BitVec.ofNat 32 size, access, .permission⟩
      else .ok (word, off)

/-- The value of a region of a word. -/
def extract (off size : Nat) (w : U32) : U32 := (w &&& regionMask off size) >>> (off * 8)

/-- A word with a region replaced by the low bytes of `val`. -/
def deposit (off size : Nat) (val w : U32) : U32 :=
  (w &&& ~~~regionMask off size) ||| ((val <<< (off * 8)) &&& regionMask off size)

/-- The permissions of a word after a store to a region: its bytes are readable, none of them RAW. -/
def upgrade (off size : Nat) (p : U32) : U32 :=
  (p ||| needMask PERM_READ off size) &&& ~~~needMask PERM_RAW off size

def loadLane (m : VecMmu) (lane : Lane) (addr : U32) (size : Nat) : Except Fault U32 :=
  match m.check lane addr size .read PERM_READ with
  | .error f => .error f
  | .ok (word, off) => .ok (extract off size (m.content (word * LANES + lane)))

def storeLane (m : VecMmu) (lane : Lane) (addr : U32) (size : Nat) (val : U32) :
    Except Fault Unit × VecMmu :=
  match m.check lane addr size .write PERM_WRITE with
  | .error f => (.error f, m)
  | .ok (word, off) =>
    let idx := word * LANES + lane
    (.ok (), { m with
      content := setAt m.content idx (deposit off size val (m.content idx))
      perms := setAt m.perms idx (upgrade off size (m.perms idx)) })

def ifetch16Lane (m : VecMmu) (lane : Lane) (addr : U32) : Except Fault U16 :=
  match m.check lane addr 2 .exec PERM_EXEC with
  | .error f => .error f
  | .ok (word, off) => .ok ((extract off 2 (m.content (word * LANES + lane))).setWidth 16)

/-! ## One address for all lanes -/

/-- The copies of a word. -/
def line (plane : Nat → U32) (word : Nat) : Simd U32 := fun l => plane (word * LANES + l)

/-- Replace the copies of a word. -/
def setLine (plane : Nat → U32) (word : Nat) (v : Simd U32) : Nat → U32 :=
  setSpan plane (word * LANES) (List.ofFn v)

/-- The checks of an access at one address; declines unless every active lane is permitted. -/
def checkSame (m : VecMmu) (addr : U32) (size : Nat) (active : Simd Bool) (bit : U8) :
    Option (Nat × Nat) :=
  if size = 2 ∧ addr.toNat % 2 ≠ 0 then none
  else if size = 4 ∧ addr.toNat % 4 ≠ 0 then none
  else
    match m.wordOff addr with
    | none => none
    | some (word, off) =>
      let need := needMask bit off size
      let permLine := line m.perms word
      if anyLane fun l => active l && !(permLine l &&& need = need) then none else some (word, off)

def loadSame (m : VecMmu) (addr : U32) (size : Nat) (active : Simd Bool) : Option (Simd U32) :=
  (m.checkSame addr size active PERM_READ).map fun (word, off) =>
    fun l => extract off size (line m.content word l)

def storeSame (m : VecMmu) (addr : U32) (size : Nat) (active : Simd Bool) (vals : Simd U32) :
    Bool × VecMmu :=
  match m.checkSame addr size active PERM_WRITE with
  | none => (false, m)
  | some (word, off) =>
    let contentLine := line m.content word
    let permLine := line m.perms word
    (true, { m with
      content := setLine m.content word fun l =>
        if active l then deposit off size (vals l) (contentLine l) else contentLine l
      perms := setLine m.perms word fun l =>
        if active l then upgrade off size (permLine l) else permLine l })

def ifetch16Same (m : VecMmu) (addr : U32) (active : Simd Bool) : Option (Simd U32) :=
  (m.checkSame addr 2 active PERM_EXEC).map fun (word, off) =>
    fun l => extract off 2 (line m.content word l)

/-! ## An address for each lane -/

/-- Where a lane's access goes. The word of a lane that is not valid is replaced by the first one. -/
structure AddrPlan where
  word : Nat
  off : Nat
  valid : Bool

/-- The plan of a gather or scatter, for one lane. The number of words is cut to 32 bits. -/
def gatherAddrPlan (m : VecMmu) (addrs : Simd U32) (size : Nat) (active : Simd Bool) :
    Simd AddrPlan := fun l =>
  let inRangeLo := m.base ≤ addrs l
  let rel := addrs l - m.base
  let word := rel >>> 2
  let inBounds := inRangeLo && word < BitVec.ofNat 32 m.numWords
  let alignOk := size = 1 || addrs l &&& (BitVec.ofNat 32 size - 1) = 0
  let valid := active l && inBounds && alignOk
  { word := if valid then word.toNat else 0
    off := (addrs l &&& 3).toNat
    valid := valid }

/-- Read the planned cell of each enabled lane inside the plane, and zero elsewhere. -/
def gatherSelect (m : VecMmu) (plane : Nat → U32) (enable : Simd Bool) (plan : Simd AddrPlan) :
    Simd U32 := fun l =>
  let idx := (plan l).word * LANES + l
  if enable l && idx < m.numWords * LANES then plane idx else 0

/-- Write the planned cell of each enabled lane inside the plane. -/
def scatterSelect (m : VecMmu) (plane : Nat → U32) (enable : Simd Bool) (plan : Simd AddrPlan)
    (vals : Simd U32) : Nat → U32 :=
  updateLanes (fun l => (plan l).word)
    (fun l old => if enable l && (plan l).word * LANES + l < m.numWords * LANES then vals l else old)
    plane (List.finRange LANES)

/-- The lanes whose access is planned and permitted. -/
def gatherOk (m : VecMmu) (plan : Simd AddrPlan) (size : Nat) (bit : U8) : Simd Bool := fun l =>
  let need := needMask bit (plan l).off size
  let permLine := m.gatherSelect m.perms (fun l => (plan l).valid) plan
  (plan l).valid && permLine l &&& need = need

def loadGatherFast (m : VecMmu) (addrs : Simd U32) (size : Nat) (active : Simd Bool) :
    Simd U32 × Simd Bool :=
  let plan := m.gatherAddrPlan addrs size active
  let ok := m.gatherOk plan size PERM_READ
  let contentLine := m.gatherSelect m.content ok plan
  (fun l => extract (plan l).off size (contentLine l), ok)

def storeScatterFast (m : VecMmu) (addrs : Simd U32) (size : Nat) (vals : Simd U32)
    (active : Simd Bool) : Simd Bool × VecMmu :=
  let plan := m.gatherAddrPlan addrs size active
  let permLine := m.gatherSelect m.perms (fun l => (plan l).valid) plan
  let ok := m.gatherOk plan size PERM_WRITE
  let contentLine := m.gatherSelect m.content ok plan
  (ok, { m with
    content := m.scatterSelect m.content ok plan fun l =>
      deposit (plan l).off size (vals l) (contentLine l)
    perms := m.scatterSelect m.perms ok plan fun l => upgrade (plan l).off size (permLine l) })

end VecMmu

end FuzzSoft
