import Mathlib.Tactic.Ring
import Mathlib.Data.Nat.Log
import Xfs.Basic

/-! The words of the realtime bitmap as sequences of bits, and runs of equal bits. -/
namespace Xfs

open Nat

abbrev RtWord := BitVec 32

def highbit32 (v : RtWord) : Nat := v.toNat.log2

def lowbit32 (v : RtWord) : Nat := ((List.range 32).find? (fun i => v.getLsbD i)).getD 0

/-- `n` set bits from bit `first` on. -/
def rtMask (n first : Nat) : RtWord := ((1#32 <<< n) - 1#32) <<< first

/-- The word all of whose bits have the state of the given bit. -/
def rtWant (incore : RtWord) (bit : Nat) : RtWord :=
  if incore &&& (1#32 <<< bit) ≠ 0#32 then BitVec.allOnes 32 else 0#32

def rtApplyMask (incore mask : RtWord) (val : Bool) : RtWord :=
  if val then incore ||| mask else incore &&& ~~~mask

theorem bit_eq_mod (x : Nat) : x &&& 31 = x % 32 := and_two_pow_sub_one_eq_mod x 5

section Words

variable {v w mask : RtWord} {x n : Nat} {val : Bool}

theorem shiftLeft_sub_one (hn : n < 32) : 1#32 <<< n - 1#32 = BitVec.ofNat 32 (2 ^ n - 1) := by
  have h1 : 2 ^ n < 2 ^ 32 := Nat.pow_lt_pow_right (by decide) hn
  have h2 : 0 < 2 ^ n := Nat.two_pow_pos n
  apply BitVec.eq_of_toNat_eq
  rw [BitVec.toNat_sub, BitVec.toNat_shiftLeft, BitVec.toNat_ofNat, BitVec.toNat_ofNat,
    shiftLeft_eq, one_mod_two_pow_eq_one.mpr (by decide), one_mul, mod_eq_of_lt h1,
    mod_eq_of_lt (show 2 ^ n - 1 < 2 ^ 32 by omega)]
  omega

theorem rtMask_getLsbD {first : Nat} (hn : n < 32) :
    (rtMask n first).getLsbD x = decide (first ≤ x ∧ x < first + n ∧ x < 32) := by
  rw [rtMask, shiftLeft_sub_one hn, BitVec.getLsbD_shiftLeft, BitVec.getLsbD_ofNat,
    testBit_two_pow_sub_one, Bool.eq_iff_iff]
  simp only [Bool.and_eq_true, Bool.not_eq_true', decide_eq_true_eq, decide_eq_false_iff_not]
  omega

theorem highbit32_spec (h : v ≠ 0#32) : highbit32 v < 32 ∧ v.getLsbD (highbit32 v) ∧
    ∀ x, highbit32 v < x → v.getLsbD x = false := by
  have hne : v.toNat ≠ 0 := fun h0 => h (BitVec.eq_of_toNat_eq h0)
  refine ⟨(log2_lt hne).mpr v.isLt, testBit_log2 hne, fun x hx => ?_⟩
  exact testBit_lt_two_pow ((log2_lt hne).mp hx)

theorem lowbit32_spec (h : v ≠ 0#32) : lowbit32 v < 32 ∧ v.getLsbD (lowbit32 v) ∧
    ∀ x, x < lowbit32 v → v.getLsbD x = false := by
  cases hf : (List.range 32).find? (fun i => v.getLsbD i) with
  | none =>
    refine absurd (BitVec.eq_of_getLsbD_eq fun i hi => ?_) h
    have := List.find?_eq_none.mp hf i (List.mem_range.mpr hi)
    simpa using this
  | some k =>
    have hk : lowbit32 v = k := by rw [lowbit32, hf]; rfl
    obtain ⟨hset, hlt, hmin⟩ := List.find?_range_eq_some.mp hf
    rw [hk]
    exact ⟨List.mem_range.mp hlt, hset, fun x hx => by simpa using hmin x hx⟩

def rtFill (val : Bool) : RtWord := if val then BitVec.allOnes 32 else 0#32

theorem rtFill_getLsbD (hx : x < 32) : (rtFill val).getLsbD x = val := by
  cases val with
  | false => exact BitVec.getLsbD_zero
  | true => exact BitVec.getLsbD_allOnes.trans (decide_eq_true hx)

theorem rtWant_eq {bit : Nat} (hbit : bit < 32) : rtWant w bit = rtFill (w.getLsbD bit) := by
  have hone : ∀ i, (w &&& (1#32 <<< bit)).getLsbD i = (decide (i = bit) && w.getLsbD bit) := by
    intro i
    rw [BitVec.getLsbD_and, BitVec.getLsbD_shiftLeft, BitVec.getLsbD_one]
    by_cases hi : i = bit
    · subst hi
      simp [hbit]
    have : (decide (i < 32) && !decide (i < bit) && (decide (0 < 32) && decide (i - bit = 0))) =
        false := by
      simp only [Bool.and_eq_false_iff, decide_eq_false_iff_not, Bool.not_eq_false',
        decide_eq_true_eq]
      omega
    rw [this]
    simp [hi]
  unfold rtWant rtFill
  cases hw : w.getLsbD bit with
  | true =>
    rw [if_pos, if_pos rfl]
    intro h0
    have := hone bit
    rw [h0, hw] at this
    simp at this
  | false =>
    rw [if_neg, if_neg (by simp)]
    rw [not_not]
    exact BitVec.eq_of_getLsbD_eq fun i _ => by rw [hone, hw]; simp

theorem rtApplyMask_getLsbD (hx : x < 32) :
    (rtApplyMask w v val).getLsbD x = if v.getLsbD x then val else w.getLsbD x := by
  cases val with
  | true =>
    rw [rtApplyMask, if_pos rfl, BitVec.getLsbD_or]
    cases v.getLsbD x <;> simp
  | false =>
    rw [rtApplyMask, if_neg (by simp), BitVec.getLsbD_and, BitVec.getLsbD_not, decide_eq_true hx]
    cases v.getLsbD x <;> simp

theorem wdiff_getLsbD (hx : x < 32) : (w ^^^ rtFill val).getLsbD x ↔ w.getLsbD x ≠ val := by
  rw [BitVec.getLsbD_xor, rtFill_getLsbD hx]
  cases w.getLsbD x <;> cases val <;> simp

end Words

/-- From `p` to `start` every bit is the same, and the bit before `p` is not. -/
structure BackTo (f : Nat → Bool) (start p : Nat) : Prop where
  le : p ≤ start
  same : ∀ x, p ≤ x → x ≤ start → f x = f start
  stop : p = 0 ∨ f (p - 1) ≠ f start

/-- From `start` to `q` every bit is the same, and the bit after `q` is not. -/
structure ForwTo (f : Nat → Bool) (start limit q : Nat) : Prop where
  le : start ≤ q
  le_limit : q ≤ limit
  same : ∀ x, start ≤ x → x ≤ q → f x = f start
  stop : q = limit ∨ f (q + 1) ≠ f start

end Xfs
