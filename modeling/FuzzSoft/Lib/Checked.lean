import Mathlib
import FuzzSoft.Lib.Comp

/-!
# Checked arithmetic

The integer operations of a build that checks them: each gives no value where the result does not
fit its width, or where a shift amount is not below it. A computation over checked operations raises
`none` where one of them gives nothing, and `some` of what the unchecked computation raises; `plain`
is the unchecked computation seen this way, so that a checked computation none of whose operations
can fail is shown equal to it piece by piece.
-/

namespace Lib.Checked

section
variable {w v : Nat}

def add (x y : BitVec w) : Option (BitVec w) := if x.uaddOverflow y then none else some (x + y)

def sub (x y : BitVec w) : Option (BitVec w) := if x.usubOverflow y then none else some (x - y)

def mul (x y : BitVec w) : Option (BitVec w) := if x.umulOverflow y then none else some (x * y)

/-- The product of signed numbers. -/
def smul (x y : BitVec w) : Option (BitVec w) := if x.smulOverflow y then none else some (x * y)

def shl (x : BitVec w) (n : BitVec v) : Option (BitVec w) :=
  if n.toNat < w then some (x <<< n.toNat) else none

def shr (x : BitVec w) (n : BitVec v) : Option (BitVec w) :=
  if n.toNat < w then some (x >>> n.toNat) else none

/-- The right shift of a signed number. -/
def sar (x : BitVec w) (n : BitVec v) : Option (BitVec w) :=
  if n.toNat < w then some (x.sshiftRight n.toNat) else none

/-- A sum that fits is the machine's. -/
theorem add_eq {x y : BitVec w} (h : x.toNat + y.toNat < 2 ^ w) : add x y = some (x + y) := by
  simp only [add, BitVec.uaddOverflow, ge_iff_le, decide_eq_true_eq, if_neg (Nat.not_le.2 h)]

/-- A sum overflows from 2^w on. -/
theorem add_eq_none {x y : BitVec w} : add x y = none ↔ 2 ^ w ≤ x.toNat + y.toNat := by
  simp only [add, BitVec.uaddOverflow, ge_iff_le, decide_eq_true_eq]
  split <;> simp_all

/-- So is a difference that does not wrap. -/
theorem sub_eq {x y : BitVec w} (h : y.toNat ≤ x.toNat) : sub x y = some (x - y) := by
  simp only [sub, BitVec.usubOverflow, decide_eq_true_eq, if_neg (Nat.not_lt.2 h)]

/-- So is a product that fits. -/
theorem mul_eq {x y : BitVec w} (h : x.toNat * y.toNat < 2 ^ w) : mul x y = some (x * y) := by
  simp only [mul, BitVec.umulOverflow, ge_iff_le, decide_eq_true_eq, if_neg (Nat.not_le.2 h)]

/-- So is a signed product that fits. -/
theorem smul_eq {x y : BitVec w} (hl : -(2 ^ (w - 1)) ≤ x.toInt * y.toInt)
    (hu : x.toInt * y.toInt < 2 ^ (w - 1)) : smul x y = some (x * y) := by
  have h : x.smulOverflow y = false := by
    simp only [BitVec.smulOverflow, ge_iff_le, Bool.or_eq_false_iff, decide_eq_false_iff_not]
    omega
  rw [smul, h, if_neg Bool.false_ne_true]

/-- A shift below the width is the machine's. -/
theorem shl_eq {x : BitVec w} {n : BitVec v} (h : n.toNat < w) : shl x n = some (x <<< n.toNat) :=
  if_pos h

/-- So is one to the right. -/
theorem shr_eq {x : BitVec w} {n : BitVec v} (h : n.toNat < w) : shr x n = some (x >>> n.toNat) :=
  if_pos h

/-- So is an arithmetic one. -/
theorem sar_eq {x : BitVec w} {n : BitVec v} (h : n.toNat < w) :
    sar x n = some (x.sshiftRight n.toNat) :=
  if_pos h

end

/-! ## Rounding down to a power of two -/

section
variable {w : Nat}

/-- Clearing the low bits is shifting there and back. -/
theorem and_not_low (x : BitVec w) (k : Nat) :
    x &&& ~~~BitVec.ofNat w (2 ^ k - 1) = x >>> k <<< k := by
  ext i hi
  rw [← BitVec.getLsbD_eq_getElem, ← BitVec.getLsbD_eq_getElem]
  simp only [BitVec.getLsbD_and, BitVec.getLsbD_not, BitVec.getLsbD_ofNat,
    Nat.testBit_two_pow_sub_one, BitVec.getLsbD_shiftLeft, BitVec.getLsbD_ushiftRight, hi,
    decide_true, Bool.true_and]
  rcases Nat.lt_or_ge i k with h | h
  · simp [h]
  · simp [Nat.not_lt.2 h, Nat.add_sub_of_le h]

/-- Clearing the low bits of a word rounds it down. -/
theorem toNat_and_not_low (x : BitVec w) (k : Nat) :
    (x &&& ~~~BitVec.ofNat w (2 ^ k - 1)).toNat = x.toNat / 2 ^ k * 2 ^ k := by
  rw [and_not_low, BitVec.toNat_shiftLeft, BitVec.toNat_ushiftRight, Nat.shiftLeft_eq,
    Nat.shiftRight_eq_div_pow]
  exact Nat.mod_eq_of_lt (Nat.lt_of_le_of_lt (Nat.div_mul_le_self _ _) x.isLt)

end

/-! ## Checked computations -/

section
variable {ε σ α β : Type}

/-- The result of checked operations; `none` stops the computation. -/
def arith (r : Option α) : Comp (Option ε) σ α :=
  match r with
  | some a => pure a
  | none => Comp.throw none

/-- A computation that checks nothing. -/
def plain (x : Comp ε σ α) : Comp (Option ε) σ α := fun s => ((x s).1.mapError some, (x s).2)

@[simp] theorem arith_some (a : α) : (arith (some a) : Comp (Option ε) σ α) = pure a := rfl

@[simp] theorem plain_pure (a : α) : plain (pure a : Comp ε σ α) = pure a := rfl

/-- Computations that do not overflow, one after the other. -/
theorem plain_bind (x : Comp ε σ α) (f : α → Comp ε σ β) :
    plain (x >>= f) = plain x >>= fun a => plain (f a) := by
  funext s
  rcases hx : x s with ⟨r, s'⟩
  have hp : plain x s = (r.mapError some, s') := by rw [plain, hx]
  cases r with
  | ok a =>
    rw [Comp.bind_ok hp, plain, Comp.bind_ok hx]
    rfl
  | error e =>
    rw [Comp.bind_error hp, plain, Comp.bind_error hx]
    rfl

@[simp] theorem pure_then (a : α) (f : α → Comp ε σ β) : (pure a >>= f) = f a := rfl

/-- A choice between two of them. -/
theorem plain_ite (c : Prop) [Decidable c] (x y : Comp ε σ α) :
    plain (if c then x else y) = if c then plain x else plain y := by
  split <;> rfl

end

end Lib.Checked
