import Mathlib.Data.Nat.Basic
import Mathlib.Tactic.IntervalCases

/-! Bit fields of disk structures: reading them with or without a sign, and writing them. -/
namespace Xfs

open BitVec

abbrev BitMem := Nat → BitVec 8

def getbitL (ptr : BitMem) (bit : Nat) : BitVec 8 :=
  let shift := 7 - bit % 8
  (ptr (bit / 8) &&& (1#8 <<< shift)) >>> shift

def setbitL (ptr : BitMem) (bit : Nat) (val : BitVec 8) : BitMem := fun a =>
  let mask := 1#8 <<< (7 - bit % 8)
  if a = bit / 8 then if val ≠ 0#8 then ptr a ||| mask else ptr a &&& ~~~mask else ptr a

def getUnalignedBe (p : BitMem) : (bytes : Nat) → BitVec (8 * bytes)
  | 0 => 0
  | bytes + 1 => getUnalignedBe p bytes ++ p bytes

def scrapeBits (p : BitMem) (bit nbits : Nat) (signext : Bool) : Nat → BitVec 64
  | 0 => 0
  | i + 1 =>
    let rval := scrapeBits p bit nbits signext i
    if getbitL p (bit + i) ≠ 0#8 then
      -- the sign bit comes first
      (if i = 0 ∧ signext = true ∧ nbits < 64 then BitVec.allOnes 64 <<< nbits else rval) |||
        (1#64 <<< (nbits - i - 1))
    else rval

def getbitval (obj : BitMem) (bitoff nbits : Nat) (signext : Bool) : BitVec 64 :=
  let p : BitMem := fun a => obj (bitoff / 8 + a)
  let bit := bitoff % 8
  if bit ≠ 0 then scrapeBits p bit nbits signext nbits
  else
    match nbits with
    | 64 => getUnalignedBe p 8
    | 32 =>
      if signext then (getUnalignedBe p 4).signExtend 64 else (getUnalignedBe p 4).setWidth 64
    | 16 =>
      if signext then (getUnalignedBe p 2).signExtend 64 else (getUnalignedBe p 2).setWidth 64
    | 8 =>
      if signext then (getUnalignedBe p 1).signExtend 64 else (getUnalignedBe p 1).setWidth 64
    | _ => scrapeBits p bit nbits signext nbits

def setbits (out : BitMem) (bitoff : Nat) (inp : BitMem) : Nat → BitMem
  | 0 => out
  | bit + 1 => setbitL (setbits out bitoff inp bit) (bit + bitoff) (getbitL inp bit)

def setbitval (out : BitMem) (bitoff nbits : Nat) (inp : BitMem) : BitMem :=
  if bitoff % 8 ≠ 0 ∨ nbits % 8 ≠ 0 then setbits out bitoff inp nbits
  else fun a => if bitoff / 8 ≤ a ∧ a < bitoff / 8 + nbits / 8 then inp (a - bitoff / 8) else out a

def fieldBit (m : BitMem) (j : Nat) : Bool := (m (j / 8)).getLsbD (7 - j % 8)

/-- The field of `n` bits from `off` on. -/
def fieldVec (m : BitMem) (off : Nat) : (n : Nat) → BitVec n
  | 0 => 0
  | n + 1 => (fieldVec m off n).concat (fieldBit m (off + n))

variable {m p out inp : BitMem} {off n i j k bit nbits : Nat} {signext : Bool}

theorem getLsbD_fieldVec (m : BitMem) (off n k : Nat) :
    (fieldVec m off n).getLsbD k = (decide (k < n) && fieldBit m (off + (n - 1 - k))) := by
  induction n generalizing k with
  | zero => simp [fieldVec]
  | succ n ih =>
    rw [fieldVec, getLsbD_concat]
    cases k with
    | zero => simp
    | succ k => simp [ih, show n - 1 - k = n - (k + 1) by omega]

theorem fieldVec_congr (h : ∀ i < n, fieldBit m (off + i) = fieldBit p (bit + i)) :
    fieldVec m off n = fieldVec p bit n := by
  induction n with
  | zero => rfl
  | succ n ih => rw [fieldVec, fieldVec, ih fun i hi => h i (by omega), h n (by omega)]

theorem getbitL_ne_zero : getbitL m bit ≠ 0#8 ↔ fieldBit m bit := by
  have hs : 7 - bit % 8 < 8 := by omega
  rw [getbitL, fieldBit]
  generalize 7 - bit % 8 = s at hs
  rw [← twoPow_eq, and_twoPow]
  split_ifs with hbit
  · simp only [hbit, iff_true]
    interval_cases s <;> decide
  · simp [hbit]

theorem fieldBit_setbitL (m : BitMem) (bit : Nat) (val : BitVec 8) (j : Nat) :
    fieldBit (setbitL m bit val) j = if j = bit then decide (val ≠ 0#8) else fieldBit m j := by
  have hs : 7 - bit % 8 < 8 := by omega
  simp only [fieldBit, setbitL]
  rw [← twoPow_eq]
  by_cases heq : j = bit
  · by_cases hval : val = 0#8 <;> simp [heq, hval, hs]
  rw [if_neg heq]
  by_cases hbyte : j / 8 = bit / 8
  · have hne : 7 - bit % 8 ≠ 7 - j % 8 := by omega
    have hmask : (BitVec.twoPow 8 (7 - bit % 8)).getLsbD (7 - j % 8) = false := by
      simp [getLsbD_twoPow, hne]
    rw [if_pos hbyte]
    split_ifs
    · rw [getLsbD_or, hmask, Bool.or_false]
    · rw [getLsbD_and, getLsbD_not, hmask, decide_eq_true (by omega),
        Bool.not_false, Bool.and_true, Bool.and_true]
  · rw [if_neg hbyte]

theorem fieldBit_setbits (out : BitMem) (off : Nat) (inp : BitMem) (n j : Nat) :
    fieldBit (setbits out off inp n) j =
      if off ≤ j ∧ j < off + n then fieldBit inp (j - off) else fieldBit out j := by
  induction n with
  | zero => rw [if_neg (by omega), setbits]
  | succ n ih =>
    rw [setbits, fieldBit_setbitL, ih]
    by_cases hj : j = n + off
    · rw [if_pos hj, if_pos (by omega), hj, Nat.add_sub_cancel]
      simp only [getbitL_ne_zero, Bool.decide_eq_true]
    · rw [if_neg hj]
      exact if_congr (by omega) rfl rfl

theorem fieldBit_setbitval (out : BitMem) (off n : Nat) (inp : BitMem) (j : Nat) :
    fieldBit (setbitval out off n inp) j =
      if off ≤ j ∧ j < off + n then fieldBit inp (j - off) else fieldBit out j := by
  rw [setbitval]
  split_ifs with hpath hin hin
  · rw [fieldBit_setbits, if_pos hin]
  · rw [fieldBit_setbits, if_neg hin]
  · rw [fieldBit, if_pos (by omega), fieldBit, show (j - off) / 8 = j / 8 - off / 8 by omega,
      show (j - off) % 8 = j % 8 by omega]
  · rw [fieldBit, if_neg (by omega), fieldBit]

theorem getUnalignedBe_eq (p : BitMem) (bytes : Nat) :
    getUnalignedBe p bytes = fieldVec p 0 (8 * bytes) := by
  induction bytes with
  | zero => rfl
  | succ bytes ih =>
    refine eq_of_getLsbD_eq fun i hi => ?_
    rw [getLsbD_fieldVec, getUnalignedBe, ih, getLsbD_append, getLsbD_fieldVec]
    by_cases hlt : i < 8
    · simp only [hlt, if_true, fieldBit, decide_eq_true hi, Bool.true_and]
      congr 2 <;> omega
    · simp only [hlt, if_false]
      congr 2
      · exact propext (by omega)
      · omega

theorem getLsbD_scrapeBits (hi : i ≤ nbits) (hn : nbits ≤ 64) (hk : k < 64) :
    (scrapeBits p bit nbits signext i).getLsbD k =
      if k < nbits then decide (nbits ≤ k + i) && fieldBit p (bit + (nbits - 1 - k))
      else signext && decide (0 < i) && fieldBit p bit := by
  induction i with
  | zero =>
    rw [scrapeBits, ofNat_eq_ofNat, getLsbD_zero]
    split_ifs with hlt
    · rw [decide_eq_false (by omega), Bool.false_and]
    · simp
  | succ i ih =>
    have hshift : (1#64 <<< (nbits - i - 1)).getLsbD k = decide (nbits - i - 1 = k) := by
      rw [← twoPow_eq, getLsbD_twoPow, decide_eq_true (by omega), Bool.true_and]
    have hones : (BitVec.allOnes 64 <<< nbits).getLsbD k = decide (nbits ≤ k) := by
      rw [getLsbD_shiftLeft, getLsbD_allOnes]
      grind
    have hsame : nbits - 1 - k = i → fieldBit p (bit + (nbits - 1 - k)) = fieldBit p (bit + i) :=
      fun h => by rw [h]
    specialize ih (by omega)
    simp only [scrapeBits]
    by_cases hbit : fieldBit p (bit + i) = true
    · rw [if_pos (getbitL_ne_zero.mpr hbit), getLsbD_or, hshift]
      by_cases hsign : i = 0 ∧ signext ∧ nbits < 64
      · rw [if_pos hsign, hones]
        grind
      · rw [if_neg hsign, ih]
        grind
    rw [if_neg (mt getbitL_ne_zero.mp hbit), ih]
    split_ifs with hlt
    · by_cases hlast : nbits - 1 - k = i
      · simp [hlast, hbit]
      · congr 2
        exact propext (by omega)
    · cases i with
      | zero => simp [show fieldBit p bit = false by simpa using hbit]
      | succ i => simp

theorem scrapeBits_eq (hn : n ≤ 64) : scrapeBits p bit n signext n =
    if signext then (fieldVec p bit n).signExtend 64 else (fieldVec p bit n).setWidth 64 := by
  refine eq_of_getLsbD_eq fun k hk => ?_
  rw [getLsbD_scrapeBits le_rfl hn hk]
  cases signext with
  | false =>
    simp only [Bool.false_eq_true, if_false, getLsbD_setWidth, getLsbD_fieldVec,
      decide_eq_true hk, Bool.true_and, Bool.false_and]
    split_ifs with hlt
    · simp [hlt]
    · simp [hlt]
  | true =>
    simp only [if_true, getLsbD_signExtend, msb_eq_getLsbD_last, getLsbD_fieldVec,
      decide_eq_true hk, Bool.true_and]
    grind

theorem getbitval_eq (hn : n ≤ 64) : getbitval m off n signext =
    if signext then (fieldVec m off n).signExtend 64 else (fieldVec m off n).setWidth 64 := by
  have hfield : ∀ n, fieldVec (fun a => m (off / 8 + a)) (off % 8) n = fieldVec m off n := by
    intro n
    refine fieldVec_congr fun i _ => ?_
    simp only [fieldBit]
    congr 2 <;> omega
  unfold getbitval
  by_cases hbit : off % 8 ≠ 0
  · rw [if_pos hbit, scrapeBits_eq hn, hfield]
  rw [if_neg hbit]
  have hword : ∀ bytes, getUnalignedBe (fun a => m (off / 8 + a)) bytes =
      fieldVec m off (8 * bytes) := by
    intro bytes
    rw [getUnalignedBe_eq, ← hfield, not_not.mp hbit]
  split
  · rw [hword, signExtend_eq, setWidth_eq, ite_self]
  · simp only [hword]
  · simp only [hword]
  · simp only [hword]
  · rw [scrapeBits_eq hn, hfield]

/-- Reading a field gives its value, without or with a sign. Writing one and reading it again gives
what the source has in its first bits, and no other bit changes. -/
theorem bit_fields_exact (m : BitMem) (off n : Nat) (hn : n ≤ 64) :
    (getbitval m off n false).toNat = (fieldVec m off n).toNat ∧
      (getbitval m off n true).toInt = (fieldVec m off n).toInt ∧
      ∀ inp : BitMem,
        (∀ signext, getbitval (setbitval m off n inp) off n signext = getbitval inp 0 n signext) ∧
          ∀ j, j < off ∨ off + n ≤ j → fieldBit (setbitval m off n inp) j = fieldBit m j := by
  refine ⟨?_, ?_, fun inp => ⟨fun signext => ?_, fun j hj => ?_⟩⟩
  · rw [getbitval_eq hn]
    exact toNat_setWidth_of_le hn
  · rw [getbitval_eq hn]
    exact toInt_signExtend_of_le hn
  · have hsame : fieldVec (setbitval m off n inp) off n = fieldVec inp 0 n := by
      refine fieldVec_congr fun i hi => ?_
      rw [fieldBit_setbitval, if_pos (by omega), Nat.add_sub_cancel_left, Nat.zero_add]
    rw [getbitval_eq hn, getbitval_eq hn, hsame]
  · rw [fieldBit_setbitval, if_neg (by omega)]

/-- A field of three bits that reaches into the next byte, with its sign. -/
theorem bit_fields_exact_sample : (getbitval (fun _ => 0x82#8) 6 3 true).toInt = -3 :=
  (bit_fields_exact (fun _ => 0x82#8) 6 3 (by decide)).2.1.trans (by decide)

end Xfs
