import FuzzSoft.Lib.Span
import FuzzSoft.Prog.Types

/-!
# Lowering

`lower` turns a typed program into what the guest agent understands: calls with six registers each, a
byte image for the pointees, and a table of fixups for the registers that an earlier call produces.
`toWire` encodes it into the flat buffer. The scratch image is bump-allocated and silently truncated
at its capacity.
-/

namespace FuzzSoft

open Lib

/-! ## The scratch image -/

/-- `round_up`, in 32 bits. -/
def roundUp (x align : Nat) : Nat :=
  let align := max align 1
  (x + align - 1) / align * align % 2 ^ 32

structure ScratchWriter where
  bytes : List U8
  cursor : Nat
  cap : Nat

namespace ScratchWriter

def new (cap : Nat) : ScratchWriter := ⟨[], 0, cap⟩

/-- Allocate `data`; past the capacity nothing is written and the capacity is the offset. -/
def write (w : ScratchWriter) (data : List U8) (align : Nat) : Nat × ScratchWriter :=
  let off := roundUp w.cursor align
  if off ≥ w.cap then (w.cap, w)
  else
    let padded := w.bytes ++ List.replicate (off - w.bytes.length) 0
    let n := min data.length (w.cap - off)
    (off, { w with bytes := padded ++ data.take n, cursor := off + n })

end ScratchWriter

/-! ## Sizes -/

def intBytes (bits : U8) : Nat := max bits.toNat 8 / 8

def intAlign (bits : U8) : Nat :=
  match bits.toNat with
  | 64 => 8
  | 32 => 4
  | 16 => 2
  | _ => 1

mutual

/-- The size and the alignment of a value. -/
def valueSizeAlign : ArgType → ArgValue → Nat × Nat
  | .const _, _ => (4, 4)
  | .int bits _, _ => (intBytes bits, intAlign bits)
  | .flags _ _, _ => (4, 4)
  | .res _, _ => (4, 4)
  | .len _, _ => (4, 4)
  | .ptr _ _ _, _ => (4, 4)
  | .buffer _, .bytes b => (b.length % 2 ^ 32, 1)
  | .stringConst _, .bytes b => (b.length % 2 ^ 32, 1)
  | .struct fields, .struct vals =>
    let l := layoutFrom fields vals 0 1
    (roundUp l.2.1 l.2.2, l.2.2)
  | _, _ => (0, 1)

/-- The loop of `struct_layout`: the offsets of the fields, where they end, and the largest
alignment. -/
def layoutFrom : List ArgType → List ArgValue → Nat → Nat → List Nat × Nat × Nat
  | f :: fields, v :: vals, off, maxAlign =>
    let sa := valueSizeAlign f v
    let align := max sa.2 1
    let off := roundUp off align
    let rest := layoutFrom fields vals ((off + sa.1) % 2 ^ 32) (max maxAlign align)
    (off :: rest.1, rest.2)
  | _, _, off, maxAlign => ([], off, maxAlign)

end

/-- The size of a pointee, which a length argument measures. -/
def ptrSizeOf (ty : ArgType) (v : ArgValue) : Nat := (valueSizeAlign ty v).1

/-- The offsets of the fields of a struct, its padded size and its alignment. -/
def structLayout (fields : List ArgType) (vals : List ArgValue) : List Nat × Nat × Nat :=
  let l := layoutFrom fields vals 0 1
  (l.1, roundUp l.2.1 l.2.2, l.2.2)

/-! ## Bytes -/

/-- The first `n` little-endian bytes of a 64-bit value. -/
def leBytes64 (v : U64) (n : Nat) : List U8 := (List.range n).map fun i => v.extractLsb' (8 * i) 8

/-- Copy `src` over `buf` at an offset, as far as `buf` goes. -/
def copyAt (buf : List U8) (off : Nat) (src : List U8) : List U8 :=
  let n := min src.length (buf.length - off)
  buf.take off ++ src.take n ++ buf.drop (off + n)

mutual

/-- The bytes of one value; the pointees in it are allocated on the way. -/
def buildBytes (base : U32) : ArgType → ArgValue → ScratchWriter → List U8 × ScratchWriter
  | .const _, .imm v, w => (leBytes (v.setWidth 32) 4, w)
  | .int bits _, .imm v, w => (leBytes64 v (min (intBytes bits) 8), w)
  | .flags _ _, .imm v, w => (leBytes (v.setWidth 32) 4, w)
  | .res _, .res (.seed s), w => (leBytes (s.setWidth 32) 4, w)
  | .res _, .res (.produced _ _), w => (leBytes 0 4, w)
  | .buffer _, .bytes b, w => (b, w)
  | .stringConst _, .bytes b, w => (b, w)
  | .ptr _ _ nullable, .imm v, w => if v = 0 && nullable then (leBytes 0 4, w) else ([], w)
  | .ptr _ inner _, .ptr pointee, w =>
    let r := buildBytes base inner pointee w
    let a := r.2.write r.1 (valueSizeAlign inner pointee).2
    (leBytes (base + BitVec.ofNat 32 a.1) 4, a.2)
  | .struct fields, .struct vals, w =>
    let l := structLayout fields vals
    buildFields base fields vals l.1 w (List.replicate l.2.1 0)
  | _, _, w => ([], w)

/-- The fields of a struct, copied to their offsets in its buffer. -/
def buildFields (base : U32) : List ArgType → List ArgValue → List Nat → ScratchWriter →
    List U8 → List U8 × ScratchWriter
  | f :: fields, v :: vals, off :: offsets, w, buf =>
    let r := buildBytes base f v w
    buildFields base fields vals offsets r.2 (copyAt buf off r.1)
  | _, _, _, w, buf => (buf, w)

end

/-- Allocate a pointee; its offset. -/
def serializeInto (base : U32) (ty : ArgType) (v : ArgValue) (w : ScratchWriter) :
    Nat × ScratchWriter :=
  let r := buildBytes base ty v w
  r.2.write r.1 (valueSizeAlign ty v).2

/-! ## Calls -/

/-- Where the real value of a register comes from at run time. -/
inductive FixupSrc where
  | reg (call : U16)
  | mem (off : U32)
  deriving DecidableEq

structure Fixup where
  dstCall : U8
  dstArg : U8
  sourceCallIndex : U16
  sourceSlot : U8
  src : FixupSrc
  deriving DecidableEq

/-- A call with its registers; a register with a fixup holds 0. -/
structure ConcreteCall where
  nr : U32
  args : List U32
  deriving DecidableEq

namespace Prog

structure Lowered where
  calls : List ConcreteCall
  fixups : List Fixup
  scratch : List U8
  deriving DecidableEq

end Prog

/-- What lowering carries along: the scratch image, the fixups, and where the out-arrays are. -/
structure Lowering where
  w : ScratchWriter
  fixups : List Fixup
  outArrayOff : List (Option Nat)

/-- Where argument `j` of call `i` is, for the fixup that a reference needs. -/
def lowerRef (p : Prog) (outArrayOff : List (Option Nat)) (i j : Nat) (callIdx : U16) (slot : U8) :
    Fixup where
  dstCall := BitVec.ofNat 8 i
  dstArg := BitVec.ofNat 8 j
  sourceCallIndex := callIdx
  sourceSlot := slot
  src := match (p.calls[callIdx.toNat]?).map fun c : TypedCall => c.desc.produces with
    | some (Produces.outArray _ _ _) =>
      .mem (BitVec.ofNat 32 (((outArrayOff[callIdx.toNat]?).join.getD 0) + 4 * slot.toNat))
    | _ => .reg callIdx

def lowerArg (p : Prog) (base : U32) (i j : Nat) (produces : Produces) :
    ArgType → ArgValue → Lowering → U32 × Lowering
  | .res _, .res (.seed s), l => (s.setWidth 32, l)
  | .res _, .res (.produced callIdx slot), l =>
    (0, { l with fixups := l.fixups ++ [lowerRef p l.outArrayOff i j callIdx slot] })
  | .ptr _ inner _, .ptr pointee, l =>
    let a := serializeInto base inner pointee l.w
    let outArrayOff := match produces with
      | .outArray argIdx _ _ =>
        if argIdx.toNat = j then l.outArrayOff.set i (some a.1) else l.outArrayOff
      | _ => l.outArrayOff
    (base + BitVec.ofNat 32 a.1, { l with w := a.2, outArrayOff := outArrayOff })
  -- a NULL pointer too
  | _, .imm v, l => (v.setWidth 32, l)
  | _, _, l => (0, l)

/-- The arguments of call `i` from `j` on. -/
def lowerArgs (p : Prog) (base : U32) (i : Nat) (produces : Produces) :
    Nat → List ArgType → List ArgValue → Lowering → List U32 × Lowering
  | j, ty :: tys, v :: vals, l =>
    let r := lowerArg p base i j produces ty v l
    let rest := lowerArgs p base i produces (j + 1) tys vals r.2
    (r.1 :: rest.1, rest.2)
  | _, _, _, l => ([], l)

/-- The registers of a call: six, with 0 where the description has no argument. -/
def registers (vals : List U32) : List U32 := (vals ++ List.replicate 6 0).take 6

/-- The calls from `i` on. -/
def lowerCalls (p : Prog) (base : U32) : Nat → List TypedCall → Lowering →
    List ConcreteCall × Lowering
  | _, [], l => ([], l)
  | i, c :: calls, l =>
    let r := lowerArgs p base i c.desc.produces 0 c.desc.args c.args l
    let rest := lowerCalls p base (i + 1) calls r.2
    (⟨c.desc.nr, registers r.1⟩ :: rest.1, rest.2)

/-- The size of the scratch region. -/
def DEFAULT_SCRATCH_CAP : Nat := 32 * 1024

namespace Prog

def lowerWithCap (p : Prog) (base : U32) (cap : Nat) : Lowered :=
  let r := lowerCalls p base 0 p.calls ⟨.new cap, [], List.replicate p.calls.length none⟩
  ⟨r.1, r.2.fixups, r.2.w.bytes⟩

def lower (p : Prog) (base : U32) : Lowered := p.lowerWithCap base DEFAULT_SCRATCH_CAP

end Prog

/-! ## The wire form -/

def MAX_FIXUPS : Nat := 32

def CALL_WORDS : Nat := 7

def FIXUP_WORDS : Nat := 4

def FixupSrc.words : FixupSrc → List U32
  | .reg call => [0, call.setWidth 32]
  | .mem off => [1, off]

def ConcreteCall.words (c : ConcreteCall) : List U32 := c.nr :: c.args

def Fixup.words (f : Fixup) : List U32 :=
  f.dstCall.setWidth 32 :: f.dstArg.setWidth 32 :: f.src.words

/-- A table of slots, zero-filled. -/
def slots (words : List (List U32)) (n width : Nat) : List U32 :=
  (words.take n).flatten ++ List.replicate ((n - words.length) * width) 0

/-- The number of calls, the call slots, the number of fixups, the fixup slots. -/
def toWire (l : Prog.Lowered) : List U32 :=
  BitVec.ofNat 32 (min l.calls.length MAX_CALLS) ::
    slots (l.calls.map (·.words)) MAX_CALLS CALL_WORDS ++
    BitVec.ofNat 32 (min l.fixups.length MAX_FIXUPS) ::
    slots (l.fixups.map (·.words)) MAX_FIXUPS FIXUP_WORDS

end FuzzSoft
