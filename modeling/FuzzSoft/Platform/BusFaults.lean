import FuzzSoft.Mmu.Access
import FuzzSoft.Platform.Machine

/-!
# The faults of a bus

A bus that refuses an access reports the operation it was asked for and the physical address of a byte
of the access (`LocatesFaults`). The memories and the machines of this repository do.
-/

namespace FuzzSoft

open Lib

/-- The fault of an access of `n` bytes at `pa` names the operation and one of the bytes. -/
def FaultAt (access : Access) (pa : U32) (n : Nat) (f : Fault) : Prop :=
  f.access = access ∧ ∃ j < n, f.addr = pa + BitVec.ofNat 32 j

/-- The bus reports what it was asked for and a byte that it refused. -/
class LocatesFaults (β : Type) [Bus β] : Prop where
  load : ∀ {b : β} {pa : U32} {n : Nat} {f : Fault}, AccessSize n →
    Bus.load b pa n = .error f → FaultAt .read pa n f
  store : ∀ {b : β} {pa v : U32} {n : Nat} {f : Fault}, AccessSize n →
    (Bus.store b pa n v).1 = .error f → FaultAt .write pa n f
  ifetch16 : ∀ {b : β} {pa : U32} {f : Fault}, Bus.ifetch16 b pa = .error f → FaultAt .exec pa 2 f

/-- A fault at the first byte of an access. -/
theorem faultAt_start {access : Access} {pa : U32} {n : Nat} {f : Fault} (hn : 0 < n)
    (ha : f.access = access) (hf : f.addr = pa) : FaultAt access pa n f :=
  ⟨ha, 0, hn, hf.trans (BitVec.add_zero pa).symm⟩

/-- An unaligned access faults at its start. -/
theorem checkAlign_faultAt {a : U32} {n : Nat} (hn : 0 < n) {access : Access} {f : Fault}
    (h : checkAlign a n access = .error f) : FaultAt access a n f := by
  unfold checkAlign at h
  split at h
  · cases h
  · cases h
    exact faultAt_start hn rfl rfl

/-- The fault of what follows the first byte. -/
theorem FaultAt.tail {access : Access} {a : U32} {n : Nat} {f : Fault}
    (h : FaultAt access (a + 1) n f) : FaultAt access a (n + 1) f := by
  obtain ⟨ha, j, hj, hf⟩ := h
  refine ⟨ha, j + 1, by omega, ?_⟩
  rw [hf]
  bv_omega

/-- A byte-wise read faults within its span. -/
theorem readLoop_faultAt {offset : U32 → Option Nat} {mem perms : Nat → U8} {need : U8}
    {access : Access} {len : U32} {f : Fault} : ∀ {n : Nat} {a : U32},
    readLoop offset mem perms need access len a n = .error f → FaultAt access a n f := by
  intro n
  induction n with
  | zero => exact fun h => nomatch h
  | succ n ih =>
    intro a h
    rw [readLoop] at h
    cases ho : offset a with
    | none =>
      rw [ho] at h
      cases h
      exact faultAt_start (Nat.succ_pos n) rfl rfl
    | some off =>
      rw [ho] at h
      dsimp only at h
      split at h
      · cases h
        exact faultAt_start (Nat.succ_pos n) rfl rfl
      · cases hr : readLoop offset mem perms need access len (a + 1) n with
        | ok bs =>
          rw [hr] at h
          cases h
        | error e =>
          rw [hr] at h
          cases h
          exact (ih hr).tail

/-- So does a byte-wise write. -/
theorem writeLoop_faultAt {σ : Type} {offset : U32 → Option Nat} {perm : σ → Nat → U8}
    {put : σ → Nat → U8 → σ} {len : U32} {f : Fault} : ∀ {data : List U8} {s : σ} {a : U32},
    (writeLoop offset perm put len s a data).1 = .error f → FaultAt .write a data.length f := by
  intro data
  induction data with
  | nil => exact fun h => nomatch h
  | cons b bs ih =>
    intro s a h
    rw [writeLoop] at h
    cases ho : offset a with
    | none =>
      rw [ho] at h
      cases h
      exact faultAt_start (Nat.succ_pos _) rfl rfl
    | some off =>
      rw [ho] at h
      dsimp only at h
      split at h
      · cases h
        exact faultAt_start (Nat.succ_pos _) rfl rfl
      · exact (ih h).tail

/-- A load fails in reading its bytes. -/
theorem byte_faultAt {access : Access} {a : U32} {n : Nat} {f : Fault}
    {bytes : Except Fault (List U8)} {α : Type} {g : List U8 → α}
    (hb : ∀ {f}, bytes = .error f → FaultAt access a n f)
    (h : (do let b ← bytes; .ok (g b) : Except Fault α) = .error f) : FaultAt access a n f := by
  cases hr : bytes with
  | error e =>
    rw [hr] at h
    cases h
    exact hb hr
  | ok bs =>
    rw [hr] at h
    cases h

/-- A wider load fails in its alignment or in reading its bytes. -/
theorem sized_faultAt {access : Access} {a : U32} {n : Nat} {f : Fault} (hn : 0 < n)
    {bytes : Except Fault (List U8)} {α : Type} {g : List U8 → α}
    (hb : ∀ {f}, bytes = .error f → FaultAt access a n f)
    (h : (do checkAlign a n access; let b ← bytes; .ok (g b) : Except Fault α) = .error f) :
    FaultAt access a n f := by
  cases ha : checkAlign a n access with
  | error e =>
    rw [ha] at h
    cases h
    exact checkAlign_faultAt hn ha
  | ok _ =>
    rw [ha] at h
    exact byte_faultAt hb h

/-- A mapped failure is one. -/
theorem eq_error_of_map {ε α α' : Type} {x : Except ε α} {g : α → α'} {e : ε}
    (h : x.map g = .error e) : x = .error e := by
  cases x with
  | error e' =>
    cases h
    rfl
  | ok a => cases h

instance : LocatesFaults Mmu where
  load {m a n f} hn h := by
    have hread : ∀ {k f}, m.read a k = .error f → FaultAt .read a k f := by
      intro k f h
      unfold Mmu.read at h
      split at h
      · cases h
      · exact readLoop_faultAt h
    change m.load a n = _ at h
    rcases hn with rfl | rfl | rfl
    · exact byte_faultAt hread (eq_error_of_map h)
    · exact sized_faultAt (by decide) hread (eq_error_of_map h)
    · exact sized_faultAt (by decide) hread h
  store {m a v n f} hn h := by
    have hwrite : (m.writeAligned a n v).1 = .error f := by
      rcases hn with rfl | rfl | rfl <;> exact h
    unfold Mmu.writeAligned at hwrite
    have hpos : 0 < n := by rcases hn with rfl | rfl | rfl <;> decide
    split at hwrite
    next ha =>
      cases hwrite
      exact checkAlign_faultAt hpos ha
    · unfold Mmu.write at hwrite
      split at hwrite
      · cases hwrite
      · have := writeLoop_faultAt hwrite
        rwa [length_leBytes] at this
  ifetch16 {m a f} h := by
    refine sized_faultAt (by decide) (fun {f} hb => ?_) h
    unfold Mmu.fetchBytes at hb
    split at hb
    · cases hb
    · exact readLoop_faultAt hb

instance : LocatesFaults CowRam where
  load {c a n f} hn h := by
    have hread : ∀ {k f}, c.read a k = .error f → FaultAt .read a k f := by
      intro k f h
      unfold CowRam.read at h
      split at h
      · cases h
      · exact readLoop_faultAt h
    change c.load a n = _ at h
    rcases hn with rfl | rfl | rfl
    · exact byte_faultAt hread (eq_error_of_map h)
    · exact sized_faultAt (by decide) hread (eq_error_of_map h)
    · exact sized_faultAt (by decide) hread h
  store {c a v n f} hn h := by
    have hwrite : (c.writeAligned a n v).1 = .error f := by
      rcases hn with rfl | rfl | rfl <;> exact h
    unfold CowRam.writeAligned at hwrite
    have hpos : 0 < n := by rcases hn with rfl | rfl | rfl <;> decide
    split at hwrite
    next ha =>
      cases hwrite
      exact checkAlign_faultAt hpos ha
    · unfold CowRam.write at hwrite
      split at hwrite
      · cases hwrite
      · have := writeLoop_faultAt hwrite
        rwa [length_leBytes] at this
  ifetch16 {c a f} h := by
    refine sized_faultAt (by decide) (fun {f} hb => ?_) h
    unfold CowRam.fetchBytes at hb
    split at hb
    · cases hb
    · exact readLoop_faultAt hb

instance {ρ : Type} [Bus ρ] [LocatesFaults ρ] : LocatesFaults (MachineOf ρ) where
  load {m a n f} hn h := by
    have hpos : 0 < n := by rcases hn with rfl | rfl | rfl <;> decide
    change m.load a n = _ at h
    unfold MachineOf.load at h
    split at h
    · cases h
    split at h
    · cases h
    split at h
    · exact LocatesFaults.load hn h
    · cases h
      exact faultAt_start hpos rfl rfl
  store {m a v n f} hn h := by
    have hpos : 0 < n := by rcases hn with rfl | rfl | rfl <;> decide
    change (m.store a n v).1 = _ at h
    unfold MachineOf.store at h
    split at h
    · cases h
    split at h
    · cases h
    split at h
    · exact LocatesFaults.store hn h
    · cases h
      exact faultAt_start hpos rfl rfl
  ifetch16 {m a f} h := by
    change m.ifetch16 a = _ at h
    unfold MachineOf.ifetch16 at h
    split at h
    · exact LocatesFaults.ifetch16 h
    · cases h
      exact faultAt_start (by decide) rfl rfl

end FuzzSoft
