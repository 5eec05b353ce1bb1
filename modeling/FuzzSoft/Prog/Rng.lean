import FuzzSoft.Lib.Gen
import FuzzSoft.Mmu.Bus

/-!
# The pseudo-random generator and the dictionary

The xorshift generator of `fs-prog` with its helpers, and the dictionary of kernel constants. A
`pick` from an empty slice panics; every other draw returns.
-/

namespace FuzzSoft

open Lib

/-- A computation that draws from the generator. -/
abbrev Rand := Gen U32

namespace Rng

def next : Rand U32 := fun x =>
  let x := x ^^^ (x <<< 13)
  let x := x ^^^ (x >>> 17)
  let x := x ^^^ (x <<< 5)
  some (x, x)

def nextU64 : Rand U64 := do
  let hi ← next
  let lo ← next
  pure ((hi.setWidth 64 <<< 32) ||| lo.setWidth 64)

/-- A number below `n`, or 0. -/
def below (n : Nat) : Rand Nat :=
  if n = 0 then pure 0 else do
    let x ← next
    pure (x.toNat % n)

/-- True in `pct` of 100 cases. -/
def chance (pct : Nat) : Rand Bool := do
  let x ← next
  pure (x.toNat % 100 < pct)

/-- The draw behind a short-circuit `&&`. -/
def chanceIf (c : Bool) (pct : Nat) : Rand Bool := if c then chance pct else pure false

def pick {α : Type} (s : List α) : Rand α := do
  let i ← below s.length
  Gen.index s i

def bool : Rand Bool := do
  let x ← next
  pure (x.toNat % 2 = 0)

/-! ## What the draws ensure -/

section
open Gen
variable {α β : Type}

/-- The generator always gives a number. -/
theorem ensures_next : Ensures next fun _ => True := fun _ => ⟨_, _, rfl, trivial⟩

/-- So does it of 64 bits. -/
theorem ensures_nextU64 : Ensures nextU64 fun _ => True :=
  ensures_bind ensures_next fun _ _ => ensures_bind ensures_next fun _ _ => ensures_pure trivial

/-- A number below a bound. -/
theorem ensures_below (n : Nat) : Ensures (below n) fun i => 0 < n → i < n := by
  refine ensures_ite (fun h => ensures_pure fun hn => absurd h (Nat.ne_of_gt hn)) fun _ => ?_
  exact ensures_bind ensures_next fun x _ => ensures_pure fun hn => Nat.mod_lt _ hn

/-- A chance is always decided. -/
theorem ensures_chance (pct : Nat) : Ensures (chance pct) fun _ => True :=
  ensures_bind ensures_next fun _ _ => ensures_pure trivial

/-- So is one under a condition. -/
theorem ensures_chanceIf (c : Bool) (pct : Nat) : Ensures (chanceIf c pct) fun _ => True :=
  ensures_ite (fun _ => ensures_chance pct) fun _ => ensures_pure trivial

/-- A short-circuited draw succeeds only if it was made. -/
theorem ensures_chanceIf_only (c : Bool) (pct : Nat) :
    Ensures (chanceIf c pct) fun b => b = true → c = true :=
  ensures_ite (fun h => (ensures_chance pct).mono fun _ _ _ => h)
    fun _ => ensures_pure fun h => by cases h

/-- So is a coin. -/
theorem ensures_bool : Ensures bool fun _ => True :=
  ensures_bind ensures_next fun _ _ => ensures_pure trivial

/-- A picked element is one of the list. -/
theorem ensures_pick {s : List α} (h : s ≠ []) : Ensures (pick s) (· ∈ s) := by
  have hpos : 0 < s.length := List.length_pos_iff.mpr h
  refine ensures_bind (ensures_below s.length) fun i hi => ?_
  exact (ensures_index (hi hpos)).mono fun _ ha => List.mem_of_getElem? ha

/-- A draw before which nothing needs to be known. -/
theorem ensures_chance_bind {pct : Nat} {f : Bool → Rand β} {Q : β → Prop}
    (h : ∀ b, Ensures (f b) Q) : Ensures (chance pct >>= f) Q :=
  ensures_bind (ensures_chance pct) fun b _ => h b

end

/-! ## Every word is drawn -/

/-- The inverse of a step `x ^^^ shift x`, as a sum of iterates of the shift. -/
def unshift (shift : U32 → U32) (y : U32) : Nat → U32
  | 0 => 0
  | n + 1 => y ^^^ shift (unshift shift y n)

/-- A step `x ^^^ shift x` reaches every word when the shift is linear and nilpotent. -/
theorem xorshift_surjective {shift : U32 → U32} (h0 : shift 0 = 0)
    (hxor : ∀ x y, shift (x ^^^ y) = shift x ^^^ shift y) {n : Nat} (hn : ∀ y, shift^[n] y = 0)
    (y : U32) : ∃ x, x ^^^ shift x = y := by
  have hdiff : ∀ m, unshift shift y (m + 1) ^^^ unshift shift y m = shift^[m] y := by
    intro m
    induction m with
    | zero =>
      change (y ^^^ shift 0) ^^^ 0 = y
      rw [h0]
      simp
    | succ m ih =>
      rw [Function.iterate_succ_apply', ← ih, hxor]
      change (y ^^^ shift (unshift shift y (m + 1))) ^^^ (y ^^^ shift (unshift shift y m)) = _
      rw [BitVec.xor_assoc, ← BitVec.xor_assoc _ y, BitVec.xor_comm _ y, BitVec.xor_assoc,
        ← BitVec.xor_assoc, BitVec.xor_self, BitVec.zero_xor]
  refine ⟨unshift shift y n, ?_⟩
  have hstep : unshift shift y (n + 1) = y ^^^ shift (unshift shift y n) := rfl
  have hlast := hdiff n
  rw [hn, hstep, BitVec.xor_assoc] at hlast
  rw [BitVec.xor_comm]
  exact (BitVec.xor_eq_zero_iff.mp hlast).symm

/-- Every word is the next one from some state. -/
theorem exists_next (y : U32) : ∃ x, next x = some (y, y) := by
  have hleft : ∀ k : Nat, 0 < k → ∀ y : U32, (fun x : U32 => x <<< k)^[32] y = 0 := by
    intro k hk y
    have hit : ∀ m : Nat, (fun x : U32 => x <<< k)^[m] y = y <<< (k * m) := by
      intro m
      induction m with
      | zero => simp
      | succ m ih => rw [Function.iterate_succ_apply', ih, Nat.mul_succ, BitVec.shiftLeft_add]
    rw [hit]
    exact BitVec.shiftLeft_eq_zero (Nat.le_mul_of_pos_left 32 hk)
  have hright : ∀ y : U32, (fun x : U32 => x >>> 17)^[2] y = 0 := by
    intro y
    change (y >>> 17) >>> 17 = 0
    rw [← BitVec.shiftRight_add]
    exact BitVec.ushiftRight_eq_zero (by decide)
  obtain ⟨c, hc⟩ := xorshift_surjective (by simp)
    (fun x y => BitVec.shiftLeft_xor_distrib x y 5) (hleft 5 (by decide)) y
  obtain ⟨b, hb⟩ := xorshift_surjective (by simp)
    (fun x y => BitVec.ushiftRight_xor_distrib x y 17) hright c
  obtain ⟨a, ha⟩ := xorshift_surjective (by simp)
    (fun x y => BitVec.shiftLeft_xor_distrib x y 13) (hleft 13 (by decide)) b
  refine ⟨a, ?_⟩
  simp only [next]
  rw [ha, hb, hc]

/-- Every number below `n` is drawn from some state. -/
theorem exists_below {n i : Nat} (hi : i < n) (h32 : i < 2 ^ 32) : ∃ x y, below n x = some (i, y) := by
  obtain ⟨x, hx⟩ := exists_next (BitVec.ofNat 32 i)
  refine ⟨x, BitVec.ofNat 32 i, ?_⟩
  rw [below, if_neg (by omega)]
  refine (Gen.bind_some hx _).trans ?_
  rw [BitVec.toNat_ofNat, Nat.mod_eq_of_lt h32, Nat.mod_eq_of_lt hi]
  rfl

end Rng

/-! ## The dictionary -/

def IOCTL_REQCODES : List U32 :=
  [0x5401, 0x5402, 0x5413, 0x5414, 0x541B, 0x5421, 0x540F, 0x5410, 0x5450, 0x5451, 0x5452, 0x8912,
   0x8913, 0x8914, 0x8927]

def NETLINK_CONSTS : List U32 :=
  [1, 2, 3, 4, 16, 18, 20, 22, 24, 26, 0x1, 0x2, 0x4, 0x8, 0x100, 0x200, 0x400, 0x300, 0x800]

def SOCKOPT_CONSTS : List U32 := [1, 2, 16, 1, 2, 3, 6, 17, 1, 270, 2, 4, 6, 7, 8, 9]

def ERRNO_CONSTS : List U32 :=
  [1, 2, 3, 4, 5, 6, 7, 9, 11, 12, 13, 14, 16, 17, 19, 20, 21, 22, 23, 24, 25, 27, 28, 29, 30, 32,
   34, 38, 39, 40]

def FCNTL_PRCTL_CONSTS : List U32 :=
  [0, 1, 2, 3, 4, 5, 6, 7, 8, 9, 10, 11, 1030, 15, 16, 38, 4, 1, 2, 3, 22, 23, 24, 21, 29, 30, 47]

def EPOLL_EVENTFD_TIMERFD_CONSTS : List U32 :=
  [0x1, 0x4, 0x8, 0x10, 0x2000, 0x40000000, 0x80000000, 1]

def BOUNDARY_CONSTS : List U32 :=
  [0, 1, 2, 4095, 4096, 4097, 0xFFFF, 0x10000, 0x7FFFFFFF, 0x80000000, 0xFFFFFFFF]

def DICTIONARY_GROUPS : List (List U32) :=
  [IOCTL_REQCODES, NETLINK_CONSTS, SOCKOPT_CONSTS, ERRNO_CONSTS, FCNTL_PRCTL_CONSTS,
   EPOLL_EVENTFD_TIMERFD_CONSTS, BOUNDARY_CONSTS]

/-- A group, then a constant of it. -/
def pickDictConst : Rand U32 := do
  let group ← Rng.pick DICTIONARY_GROUPS
  Rng.pick group

/-- A constant is always picked. -/
theorem ensures_pickDictConst : Gen.Ensures pickDictConst fun _ => True := by
  refine Gen.ensures_bind (Rng.ensures_pick (by decide)) fun group hg => ?_
  have hne : ∀ g ∈ DICTIONARY_GROUPS, g ≠ [] := by decide
  exact (Rng.ensures_pick (hne group hg)).mono fun _ _ => trivial

end FuzzSoft
