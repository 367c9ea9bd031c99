import Mathlib.Data.List.Basic
import Mathlib.Data.List.Induction
import Mathlib.Tactic.Linarith
import Mathlib.Tactic.Ring

/-! Byte buffers: slices, writing bytes over others, and big-endian numbers. -/
namespace Xfs

open List

abbrev Bytes := List UInt8

def overwrite (data : Bytes) (o : Nat) (bytes : Bytes) : Bytes :=
  data.take o ++ bytes ++ data.drop (o + bytes.length)

def slice (data : Bytes) (o n : Nat) : Bytes := (data.drop o).take n

/-- A number in `w` bytes, the most significant first. -/
def putBe : Nat → Nat → Bytes
  | 0, _ => []
  | w + 1, n => putBe w (n / 256) ++ [UInt8.ofNat n]

def getBe (bytes : Bytes) : Nat := bytes.foldl (fun acc b => acc * 256 + b.toNat) 0

theorem getD_append_cons (before behind : Bytes) (x : UInt8) :
    (before ++ x :: behind).getD before.length 0 = x := by
  simp

theorem overwrite_take (before hole behind : Bytes) :
    (overwrite (before ++ (hole ++ behind)) before.length behind).take
      (before.length + behind.length) = before ++ behind := by
  have hle : (before ++ behind).length = before.length + behind.length := length_append
  rw [overwrite, take_left, ← hle, take_left]

theorem overwrite_end (data bytes : Bytes) (n : Nat) (h : bytes.length = n) :
    overwrite (data ++ List.replicate n 0) data.length bytes = data ++ bytes := by
  rw [overwrite, take_left, drop_eq_nil_of_le (by simp [h]), append_nil]

theorem overwrite_middle (before old new behind : Bytes) (h : new.length = old.length) :
    overwrite (before ++ (old ++ behind)) before.length new = before ++ (new ++ behind) := by
  rw [overwrite, take_left, h, ← drop_drop, drop_left, drop_left, append_assoc]

theorem slice_append (before mid behind : Bytes) (n : Nat) (h : mid.length = n) :
    slice (before ++ (mid ++ behind)) before.length n = mid := by
  rw [slice, drop_left, ← h, take_left]

theorem slice_of_prefix {data before mid : Bytes} {o n : Nat} (h : before ++ mid <+: data)
    (ho : before.length = o) (hn : mid.length = n) : slice data o n = mid := by
  obtain ⟨behind, rfl⟩ := h
  rw [← ho, append_assoc, slice_append before mid behind n hn]

@[simp] theorem length_putBe (w n : Nat) : (putBe w n).length = w := by
  induction w generalizing n with
  | zero => rfl
  | succ w ih => simp [putBe, ih]

theorem getBe_concat (bytes : Bytes) (b : UInt8) :
    getBe (bytes ++ [b]) = getBe bytes * 256 + b.toNat := by
  simp [getBe]

theorem getBe_putBe {w n : Nat} (h : n < 256 ^ w) : getBe (putBe w n) = n := by
  induction w generalizing n with
  | zero =>
    obtain rfl : n = 0 := by simpa using h
    rfl
  | succ w ih =>
    have hdiv : n / 256 < 256 ^ w := by
      rw [Nat.div_lt_iff_lt_mul (by omega)]
      rwa [pow_succ] at h
    rw [putBe, getBe_concat, ih hdiv, UInt8.toNat_ofNat']
    omega

theorem getBe_lt (bytes : Bytes) : getBe bytes < 256 ^ bytes.length := by
  induction bytes using List.reverseRecOn with
  | nil => decide
  | append_singleton bytes b ih =>
    rw [getBe_concat, length_append, length_singleton, pow_succ]
    have hb := b.toNat_lt
    omega

theorem putBe_getBe (bytes : Bytes) : putBe bytes.length (getBe bytes) = bytes := by
  induction bytes using List.reverseRecOn with
  | nil => rfl
  | append_singleton bytes b ih =>
    have hb := b.toNat_lt
    have hdiv : (getBe bytes * 256 + b.toNat) / 256 = getBe bytes := by omega
    rw [getBe_concat, length_append, length_singleton, putBe, hdiv, ih]
    congr 2
    apply UInt8.toNat_inj.mp
    rw [UInt8.toNat_ofNat']
    omega

end Xfs
