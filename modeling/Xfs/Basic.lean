import Mathlib.Tactic.Linarith
import Mathlib.Tactic.SplitIfs

/-! Error numbers, 32-bit and 64-bit arithmetic and the geometry of an allocation or realtime
group. -/
namespace Xfs

inductive Errno where
  | efscorrupted
  | einval
  | eio
  | enospc
  | ecanceled
  | eoverflow
  | enoattr
  | enoent
  | eexist
  | efbig
  | enomem
deriving Repr, DecidableEq

@[simp] theorem ok_bind {ε α β : Type} (a : α) (k : α → Except ε β) :
    (Except.ok a >>= k) = k a := rfl

@[simp] theorem error_bind {ε α β : Type} (e : ε) (k : α → Except ε β) :
    ((Except.error e : Except ε α) >>= k) = .error e := rfl

@[simp] theorem pure_eq_ok {ε α : Type} (a : α) : (pure a : Except ε α) = .ok a := rfl

theorem bind_eq_ok {ε α β : Type} {x : Except ε α} {k : α → Except ε β} {b : β}
    (h : (x >>= k) = .ok b) : ∃ a, x = .ok a ∧ k a = .ok b := by
  cases x with
  | error e => cases h
  | ok a => exact ⟨a, rfl, h⟩

def add32 (a b : Nat) : Nat := (a + b) % 2 ^ 32

def sub32 (a b : Nat) : Nat := (a + (2 ^ 32 - b)) % 2 ^ 32

theorem add32_eq {a b : Nat} (h : a + b < 2 ^ 32) : add32 a b = a + b :=
  Nat.mod_eq_of_lt h

theorem sub32_eq {a b : Nat} (hba : b ≤ a) (ha : a < 2 ^ 32) : sub32 a b = a - b := by
  unfold sub32
  omega

def add64 (a b : Nat) : Nat := (a + b) % 2 ^ 64

def sub64 (a b : Nat) : Nat := (a + (2 ^ 64 - b)) % 2 ^ 64

theorem add64_eq {a b : Nat} (h : a + b < 2 ^ 64) : add64 a b = a + b :=
  Nat.mod_eq_of_lt h

theorem sub64_eq {a b : Nat} (hba : b ≤ a) (ha : a < 2 ^ 64) : sub64 a b = a - b := by
  unfold sub64
  omega

def howmany64 (x y : Nat) : Nat := add64 x (y - 1) / y

theorem howmany64_eq {x y : Nat} (h : x + (y - 1) < 2 ^ 64) : howmany64 x y = (x + (y - 1)) / y := by
  unfold howmany64
  rw [add64_eq h]

theorem le_howmany64 {k x y : Nat} (hy : 1 ≤ y) (h : x + (y - 1) < 2 ^ 64) (hk : y * k ≤ x) :
    k ≤ howmany64 x y := by
  rw [howmany64_eq h]
  apply (Nat.le_div_iff_mul_le hy).mpr
  rw [mul_comm]
  exact hk.trans (Nat.le_add_right _ _)

theorem howmany64_pos {x y : Nat} (hy : 1 ≤ y) (h : x + (y - 1) < 2 ^ 64) (hx : 1 ≤ x) :
    1 ≤ howmany64 x y := by
  rw [howmany64_eq h]
  apply (Nat.le_div_iff_mul_le hy).mpr
  omega

theorem howmany64_lt {x y : Nat} (hy : 2 ≤ y) (hx : 1 < x) : howmany64 x y < x := by
  have hmod : add64 x (y - 1) ≤ x + (y - 1) := Nat.mod_le _ _
  apply Nat.div_lt_of_lt_mul
  have hmul : 2 * (x - 1) ≤ y * (x - 1) := Nat.mul_le_mul_right _ hy
  have hsplit : y * x = y * (x - 1) + y := by
    rw [← Nat.mul_succ]
    congr 1
    omega
  omega

def nullagblock : Nat := 2 ^ 32 - 1

structure Group where
  blockCount : Nat
  minGbno : Nat
  maxBlocks : Nat
  blockCount_le : blockCount ≤ maxBlocks
  maxBlocks_lt : maxBlocks < 2 ^ 31

theorem Group.blockCount_lt (g : Group) : g.blockCount < 2 ^ 31 :=
  lt_of_le_of_lt g.blockCount_le g.maxBlocks_lt

def verifyGbno (g : Group) (gbno : Nat) : Bool :=
  decide (gbno < g.blockCount) && decide (g.minGbno ≤ gbno)

/-- An extent inside the group. The 32-bit sum must not wrap around. -/
def verifyGbext (g : Group) (gbno glen : Nat) : Bool :=
  verifyGbno g gbno && decide (glen ≠ 0) && decide (gbno + (glen - 1) < 2 ^ 32) &&
    verifyGbno g (gbno + (glen - 1))

theorem verifyGbext_iff {g : Group} {gbno glen : Nat} : verifyGbext g gbno glen ↔
      0 < glen ∧ g.minGbno ≤ gbno ∧ gbno + glen ≤ g.blockCount := by
  have := g.blockCount_lt
  simp only [verifyGbext, verifyGbno, Bool.and_eq_true, decide_eq_true_eq]
  omega

def sampleGroup : Group := ⟨64, 4, 64, by decide, by decide⟩

end Xfs
