import FuzzSoft.Mmu.Bus

/-!
# Typed programs

The vocabulary of `fs-prog`: resource kinds with their subtyping and seed literals, the types of
syscall arguments, the descriptions of syscalls, and the program tree that the corpus stores and the
mutator edits. The table of descriptions is a parameter of everything that reads it.
-/

namespace FuzzSoft

/-! ## Resources -/

/-- The resource kinds. -/
inductive ResourceKind where
  | fd
  | sock
  | epoll
  | vma
  | key
  deriving DecidableEq, Repr

/-- A resource kind with its parent and the literals that stand for it without a producer. -/
structure ResourceDef where
  kind : ResourceKind
  subtypeOf : Option ResourceKind
  seeds : List U64

def RESOURCES : List ResourceDef :=
  [⟨.fd, none, [-1, -100, 0, 1, 2]⟩,
   ⟨.sock, some .fd, [-1]⟩,
   ⟨.epoll, some .fd, [-1, 0]⟩,
   ⟨.vma, none, [0, -1]⟩,
   ⟨.key, none, [-1, -3, -4]⟩]

/-- The kind a definition names as its parent. -/
def ResourceKind.parent (k : ResourceKind) : Option ResourceKind :=
  (RESOURCES.find? (·.kind = k)).bind (·.subtypeOf)

/-- `kindCompat` along at most so many parent links. -/
def kindCompatWithin (want : ResourceKind) : Nat → ResourceKind → Bool
  | 0, k => want = k
  | n + 1, k => want = k || k.parent.any (kindCompatWithin want n)

/-- Whether a value produced as one kind satisfies a consumer of another. A chain of parents is no
longer than the table. -/
def kindCompat (want k : ResourceKind) : Bool := kindCompatWithin want RESOURCES.length k

/-- The seed literals of a kind. -/
def seedsFor (k : ResourceKind) : List U64 := ((RESOURCES.find? (·.kind = k)).map (·.seeds)).getD []

/-! ## Descriptions -/

inductive Dir where
  | in
  | out
  | inOut
  deriving DecidableEq, Repr

/-- How many bytes a buffer should have. -/
inductive LenSpec where
  | fixed (n : U16)
  | range (lo hi : U16)
  deriving DecidableEq, Repr

/-- The type of an argument. -/
inductive ArgType where
  | const (v : U32)
  | int (bits : U8) (signed : Bool)
  | flags (vals : List U32) (bitmask : Bool)
  | res (kind : ResourceKind)
  /-- The byte length of the argument `of` of the same call. -/
  | len (of : U8)
  | ptr (dir : Dir) (inner : ArgType) (nullable : Bool)
  | buffer (len : LenSpec)
  | struct (fields : List ArgType)
  | stringConst (pool : List String)

/-- What a call produces. -/
inductive Produces where
  | none
  | ret (kind : ResourceKind)
  | outArray (argIdx : U8) (kind : ResourceKind) (count : U8)

namespace Produces

/-- The number of resources produced. -/
def slotCount : Produces → U8
  | .none => 0
  | .ret _ => 1
  | .outArray _ _ count => count

/-- The kind produced at a slot. -/
def kindAt (slot : U8) : Produces → Option ResourceKind
  | .none => Option.none
  | .ret k => if slot = 0 then some k else Option.none
  | .outArray _ k count => if slot < count then some k else Option.none

end Produces

/-- A syscall description. -/
structure SyscallDesc where
  name : String
  nr : U32
  args : List ArgType
  produces : Produces

/-! ## Programs -/

/-- The most calls a program may have. -/
def MAX_CALLS : Nat := 8

/-- The value of a resource argument: a signed literal, or what an earlier call produced. -/
inductive ResRef where
  | seed (s : U64)
  | produced (callIdx : U16) (slot : U8)
  deriving DecidableEq, Repr

/-- The value of an argument. -/
inductive ArgValue where
  | imm (v : U64)
  | res (r : ResRef)
  | bytes (b : List U8)
  | struct (vals : List ArgValue)
  | ptr (pointee : ArgValue)
  deriving Repr

structure TypedCall where
  desc : SyscallDesc
  args : List ArgValue

structure Prog where
  calls : List TypedCall

/-- A reference from call `i` points strictly backward, at a resource of a compatible kind. -/
def ResRef.threaded (calls : List TypedCall) (i : Nat) (want : ResourceKind) : ResRef → Bool
  | .seed _ => true
  | .produced callIdx slot =>
    if callIdx.toNat ≥ i then false
    else match calls[callIdx.toNat]? with
      | some c => (c.desc.produces.kindAt slot).any (kindCompat want)
      | none => false

/-- The check of one argument of call `i`. -/
def argThreaded (calls : List TypedCall) (i : Nat) : ArgType → ArgValue → Bool
  | .res want, .res r => r.threaded calls i want
  | .res _, _ => false
  | _, _ => true

/-- The check of call `i`. -/
def callThreaded (calls : List TypedCall) (i : Nat) (c : TypedCall) : Bool :=
  c.args.length == c.desc.args.length &&
    (c.desc.args.zip c.args).all fun a => argThreaded calls i a.1 a.2

/-- Every call has its arguments, and every resource argument is threaded. -/
def Prog.isWellFormed (p : Prog) : Bool :=
  p.calls.zipIdx.all fun c => callThreaded p.calls c.2 c.1

end FuzzSoft
