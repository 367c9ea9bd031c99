import Mathlib.Data.List.Basic

/-! Hashes that rotate a word and add in the next value with exclusive or. They are linear, so a
change of a value shows in the hash at a place that depends only on how much follows it. -/
namespace RotateHash

open Nat List

variable {w : Nat} {x y h d c m : BitVec w} {r a b i n : Nat} {A B cs : List (BitVec w)}

theorem getLsbD_rotateLeft (hi : i < w) :
    (x.rotateLeft r).getLsbD i = x.getLsbD ((i + (w - r % w)) % w) := by
  have hr : r % w < w := mod_lt r (by omega)
  rw [BitVec.getLsbD_rotateLeft]
  generalize r % w = q at hr ⊢
  by_cases hlt : i < q
  · rw [decide_eq_true hlt, cond_true, mod_eq_of_lt (by omega), Nat.add_comm]
  · rw [decide_eq_false hlt, cond_false, decide_eq_true hi, Bool.true_and,
      show i + (w - q) = i - q + w by omega, add_mod_right, mod_eq_of_lt (by omega)]

theorem rotateLeft_xor : (x ^^^ y).rotateLeft r = x.rotateLeft r ^^^ y.rotateLeft r := by
  refine BitVec.eq_of_getLsbD_eq fun i hi => ?_
  simp [getLsbD_rotateLeft hi]

theorem rotateLeft_rotateLeft : (x.rotateLeft a).rotateLeft b = x.rotateLeft (a + b) := by
  refine BitVec.eq_of_getLsbD_eq fun i hi => ?_
  have hw : 0 < w := by omega
  rw [getLsbD_rotateLeft hi, getLsbD_rotateLeft (mod_lt _ hw), getLsbD_rotateLeft hi]
  congr 1
  have ha : a % w < w := mod_lt a hw
  have hb : b % w < w := mod_lt b hw
  have hab : (a + b) % w = if a % w + b % w < w then a % w + b % w else a % w + b % w - w := by
    rw [add_mod]
    split_ifs with hlt
    · exact mod_eq_of_lt hlt
    · rw [mod_eq_sub_mod (by omega), mod_eq_of_lt (by omega)]
  rw [add_mod, mod_mod, ← add_mod, hab]
  split_ifs with hlt
  · rw [show i + (w - b % w) + (w - a % w) = i + (w - (a % w + b % w)) + w by omega, add_mod_right]
  · rw [show i + (w - b % w) + (w - a % w) = i + (w - (a % w + b % w - w)) by omega]

theorem rotateLeft_twoPow (hi : i < w) :
    (BitVec.twoPow w i).rotateLeft n = BitVec.twoPow w ((i + n) % w) := by
  refine BitVec.eq_of_getLsbD_eq fun j hj => ?_
  have hn : n % w < w := mod_lt n (by omega)
  rw [getLsbD_rotateLeft hj, BitVec.getLsbD_twoPow, BitVec.getLsbD_twoPow, decide_eq_true hi,
    decide_eq_true (mod_lt (i + n) (by omega)), Bool.true_and, Bool.true_and,
    decide_eq_decide]
  rw [add_mod i n w, mod_eq_of_lt hi]
  generalize n % w = q at hn ⊢
  have h1 : (i + q) % w = if i + q < w then i + q else i + q - w := by
    split_ifs with hlt
    · exact mod_eq_of_lt hlt
    · rw [mod_eq_sub_mod (by omega), mod_eq_of_lt (by omega)]
  have h2 : (j + (w - q)) % w = if j < q then j + (w - q) else j - q := by
    split_ifs with hlt
    · exact mod_eq_of_lt (by omega)
    · rw [mod_eq_sub_mod (by omega), mod_eq_of_lt (by omega)]
      omega
  rw [h1, h2]
  split_ifs <;> omega

theorem rotateLeft_zero_amount : x.rotateLeft 0 = x := by
  refine BitVec.eq_of_getLsbD_eq fun i hi => ?_
  rw [getLsbD_rotateLeft hi, zero_mod, Nat.sub_zero, add_mod_right, mod_eq_of_lt hi]

/-- Add in the values one after another, with a rotation by `r` before each. -/
def rotHash (r : Nat) (h : BitVec w) (cs : List (BitVec w)) : BitVec w :=
  cs.foldl (fun h c => c ^^^ h.rotateLeft r) h

theorem rotHash_nil : rotHash r h [] = h := rfl

theorem rotHash_cons : rotHash r h (c :: cs) = rotHash r (c ^^^ h.rotateLeft r) cs := rfl

theorem rotHash_append : rotHash r h (A ++ B) = rotHash r (rotHash r h A) B :=
  foldl_append

theorem rotHash_xor : rotHash r (h ^^^ d) cs = rotHash r h cs ^^^ d.rotateLeft (r * cs.length) := by
  induction cs generalizing h d with
  | nil => rw [rotHash_nil, rotHash_nil, length_nil, Nat.mul_zero, rotateLeft_zero_amount]
  | cons c cs ih =>
    rw [rotHash_cons, rotHash_cons, rotateLeft_xor, ← BitVec.xor_assoc, ih,
      rotateLeft_rotateLeft, length_cons, Nat.mul_succ, Nat.add_comm r]

theorem rotHash_flip : rotHash r h (A ++ (c ^^^ m) :: B) =
      rotHash r h (A ++ c :: B) ^^^ m.rotateLeft (r * B.length) := by
  rw [rotHash_append, rotHash_append, rotHash_cons, rotHash_cons, BitVec.xor_assoc c m,
    BitVec.xor_comm m, ← BitVec.xor_assoc, rotHash_xor]

theorem rotHash_set (hi : i < cs.length) : rotHash r h (cs.set i (cs[i] ^^^ m)) =
      rotHash r h cs ^^^ m.rotateLeft (r * (cs.length - i - 1)) := by
  have hlen : (cs.drop (i + 1)).length = cs.length - i - 1 := by
    rw [length_drop]
    omega
  rw [set_eq_take_append_cons_drop, if_pos hi, rotHash_flip, hlen,
    ← drop_eq_getElem_cons hi, take_append_drop]

end RotateHash
