import Mathlib.Algebra.Order.Ring.Int
import Mathlib.Data.List.Basic
import Mathlib.Tactic.LinearCombination

/-! Sizes with units, as the tools read them from their command lines. -/
namespace Xfs

def isSpace (c : Char) : Bool := c = ' ' || ('\t' ≤ c && c ≤ '\r')

def digitVal (c : Char) : Option Nat :=
  if '0' ≤ c ∧ c ≤ '9' then some (c.toNat - 48)
  else if 'a' ≤ c ∧ c ≤ 'z' then some (c.toNat - 87)
  else if 'A' ≤ c ∧ c ≤ 'Z' then some (c.toNat - 55)
  else none

def isDigit (base : Nat) (c : Char) : Bool := (digitVal c).any (· < base)

/-- The digits at the start of a string, behind those in `acc`, and what follows. -/
def scanDigits (base : Nat) : Nat → List Char → Nat × List Char
  | acc, [] => (acc, [])
  | acc, c :: s =>
    if isDigit base c then scanDigits base (acc * base + (digitVal c).getD 0) s else (acc, c :: s)

def scanNumber : List Char → Option (Nat × List Char)
  | '0' :: x :: d :: s =>
    if (x = 'x' ∨ x = 'X') ∧ isDigit 16 d then some (scanDigits 16 0 (d :: s))
    else some (scanDigits 8 0 ('0' :: x :: d :: s))
  | c :: s => if isDigit 10 c then some (scanDigits (if c = '0' then 8 else 10) 0 (c :: s)) else none
  | [] => none

def scanSign : List Char → Int × List Char
  | '-' :: s => (-1, s)
  | '+' :: s => (1, s)
  | s => (1, s)

/-- The integer at the start of a string, of any size, and what follows it. -/
def scanInteger (s : List Char) : Option (Int × List Char) :=
  let signed := scanSign (s.dropWhile isSpace)
  (scanNumber signed.2).map fun r => (signed.1 * r.1, r.2)

/-- The nearest `long long`. -/
def clampLL (v : Int) : Int := max (-2 ^ 63) (min v (2 ^ 63 - 1))

/-- `strtoll` with base 0. The rest is the whole string if there is no integer. -/
def strtoll (s : List Char) : Int × List Char :=
  match scanInteger s with
  | none => (0, s)
  | some (v, sp) => (clampLL v, sp)

/-- A product or a shift, cut to 64 bits. -/
def wrapLL (x : Int) : Int := x.bmod (2 ^ 64)

def cvtUnit (blksize sectsize : Nat) (i : Int) (c : Char) : Int :=
  match c.toLower with
  | 'b' => if blksize = 0 then -1 else wrapLL (i * blksize)
  | 's' => if sectsize = 0 then -1 else wrapLL (i * sectsize)
  | 'k' => wrapLL (i * 2 ^ 10)
  | 'm' => wrapLL (i * 2 ^ 20)
  | 'g' => wrapLL (i * 2 ^ 30)
  | 't' => wrapLL (i * 2 ^ 40)
  | 'p' => wrapLL (i * 2 ^ 50)
  | 'e' => wrapLL (i * 2 ^ 60)
  | _ => -1

def cvtnum (blksize sectsize : Nat) (s : List Char) : Int :=
  let (i, sp) := strtoll s
  if i = 0 ∧ sp = s then -1
  else
    match sp with
    | [] => i
    | [c] => cvtUnit blksize sectsize i c
    | _ => -1

def unitSize (blksize sectsize : Nat) : List Char → Option Nat
  | [] => some 1
  | [c] =>
    match c.toLower with
    | 'b' => some blksize
    | 's' => some sectsize
    | 'k' => some (2 ^ 10)
    | 'm' => some (2 ^ 20)
    | 'g' => some (2 ^ 30)
    | 't' => some (2 ^ 40)
    | 'p' => some (2 ^ 50)
    | 'e' => some (2 ^ 60)
    | _ => none
  | _ => none

def scanSize (blksize sectsize : Nat) (s : List Char) : Option (Int × Nat) :=
  (scanInteger s).bind fun r => (unitSize blksize sectsize r.2).map fun u => (r.1, u)

def InRangeLL (x : Int) : Prop := -2 ^ 63 ≤ x ∧ x < 2 ^ 63

instance (x : Int) : Decidable (InRangeLL x) := inferInstanceAs (Decidable (_ ∧ _))

/-- The product of the integer and its unit, if there are both and it is a `long long`. -/
def exactNum (blksize sectsize : Nat) (s : List Char) : Int :=
  match scanSize blksize sectsize s with
  | some (v, u) => if u ≠ 0 ∧ InRangeLL (v * u) then v * u else -1
  | none => -1

variable {blksize sectsize : Nat} {s sp : List Char} {v x : Int} {u : Nat}

theorem length_scanDigits_le (base acc : Nat) (s : List Char) :
    (scanDigits base acc s).2.length ≤ s.length := by
  induction s generalizing acc with
  | nil => simp [scanDigits]
  | cons c s ih =>
    rw [scanDigits]
    split_ifs
    · exact (ih _).trans (Nat.le_succ _)
    · exact le_rfl

theorem length_scanDigits_lt {base : Nat} {c : Char} (hc : isDigit base c) (acc : Nat)
    (s : List Char) : (scanDigits base acc (c :: s)).2.length < (c :: s).length := by
  rw [scanDigits, if_pos hc]
  exact Nat.lt_succ_of_le (length_scanDigits_le ..)

theorem scanNumber_length_lt {r : Nat × List Char} (h : scanNumber s = some r) :
    r.2.length < s.length := by
  unfold scanNumber at h
  split at h
  · split_ifs at h with hhex
    · obtain rfl := Option.some.inj h
      exact (length_scanDigits_lt hhex.2 ..).trans (by simp)
    · obtain rfl := Option.some.inj h
      exact length_scanDigits_lt (by decide) ..
  · split_ifs at h with hc hzero
    · obtain rfl := Option.some.inj h
      exact length_scanDigits_lt (by rw [hzero]; decide) ..
    · obtain rfl := Option.some.inj h
      exact length_scanDigits_lt hc ..
  · cases h

theorem length_scanSign_le (s : List Char) : (scanSign s).2.length ≤ s.length := by
  unfold scanSign
  split <;> simp

theorem scanInteger_ne (h : scanInteger s = some (v, sp)) : sp ≠ s := by
  obtain ⟨r, hr, heq⟩ := Option.map_eq_some_iff.mp h
  obtain rfl := (Prod.mk.inj heq).2
  intro hsame
  have hlt := scanNumber_length_lt hr
  have hsign := length_scanSign_le (s.dropWhile isSpace)
  have hspace := (List.dropWhile_sublist (l := s) isSpace).length_le
  rw [hsame] at hlt
  omega

theorem wrapLL_of_inRange (h : InRangeLL x) : wrapLL x = x := by
  obtain ⟨hlo, hhi⟩ := h
  rw [wrapLL, Int.bmod_def]
  split_ifs <;> omega

theorem clampLL_of_inRange (h : InRangeLL v) : clampLL v = v := by
  obtain ⟨hlo, hhi⟩ := h
  unfold clampLL
  omega

theorem inRange_clampLL (v : Int) : InRangeLL (clampLL v) := by
  unfold InRangeLL clampLL
  omega

theorem inRange_of_mul (hu : u ≠ 0) (h : InRangeLL (v * u)) : InRangeLL v := by
  obtain ⟨hlo, hhi⟩ := h
  have hone : (1 : Int) ≤ u := by omega
  rcases le_total 0 v with hv | hv
  · have := mul_le_mul_of_nonneg_left hone hv
    exact ⟨by omega, by omega⟩
  · have := mul_le_mul_of_nonpos_left hone hv
    exact ⟨by omega, by omega⟩

theorem cvtUnit_eq (blksize sectsize : Nat) (i : Int) (c : Char) : cvtUnit blksize sectsize i c =
    ((unitSize blksize sectsize [c]).map fun u : Nat =>
      if u = 0 then -1 else wrapLL (i * u)).getD (-1) := by
  simp only [cvtUnit, unitSize]
  generalize c.toLower = unit
  split <;> simp

theorem cvtnum_eq (blksize sectsize : Nat) (s : List Char) : cvtnum blksize sectsize s =
    ((scanSize blksize sectsize s).map fun r =>
      if r.2 = 0 then -1 else wrapLL (clampLL r.1 * r.2)).getD (-1) := by
  unfold cvtnum strtoll scanSize
  cases hs : scanInteger s with
  | none => simp
  | some r =>
    obtain ⟨v, sp⟩ := r
    simp only [Option.bind_some]
    rw [if_neg fun h => scanInteger_ne hs h.2]
    rcases sp with _ | ⟨c, _ | ⟨d, sp⟩⟩
    · simp [unitSize, wrapLL_of_inRange (inRange_clampLL v)]
    · rw [Option.map_map]
      exact cvtUnit_eq ..
    · simp [unitSize]

theorem wrapLL_eq_neg_one : wrapLL x = -1 ↔ (2 ^ 64 : Int) ∣ x + 1 := by
  rw [wrapLL, Int.bmod_def]
  split_ifs <;> omega

/-- The greatest `long long` is its own inverse in 64 bits. -/
theorem dvd_greatest_mul_add_one :
    (2 ^ 64 : Int) ∣ (2 ^ 63 - 1) * u + 1 ↔ (2 ^ 64 : Int) ∣ u - (2 ^ 63 + 1) := by
  constructor
  · rintro ⟨k, hk⟩
    exact ⟨(2 ^ 63 - 1) * k - (2 ^ 62 - 1) * u - 1, by linear_combination (2 ^ 63 - 1) * hk⟩
  · rintro ⟨k, hk⟩
    exact ⟨2 ^ 62 + (2 ^ 63 - 1) * k, by linear_combination (2 ^ 63 - 1) * hk⟩

theorem wrapLL_clampLL_eq_neg_one : wrapLL (clampLL v * u) = -1 ↔
    InRangeLL v ∧ (2 ^ 64 : Int) ∣ v * u + 1 ∨ 2 ^ 63 ≤ v ∧ (2 ^ 64 : Int) ∣ u - (2 ^ 63 + 1) := by
  rw [wrapLL_eq_neg_one]
  rcases lt_or_ge v (-2 ^ 63) with hlow | hlow
  · have hclamp : clampLL v = -2 ^ 63 := by
      unfold clampLL
      omega
    rw [hclamp]
    refine iff_of_false (by omega) ?_
    rintro (⟨hin, -⟩ | ⟨hhigh, -⟩)
    · exact absurd hin.1 (not_le.mpr hlow)
    · omega
  · rcases lt_or_ge v (2 ^ 63) with hhigh | hhigh
    · have hin : InRangeLL v := ⟨hlow, hhigh⟩
      rw [clampLL_of_inRange hin, and_iff_right hin,
        or_iff_left fun h => absurd h.1 (not_le.mpr hhigh)]
    · have hclamp : clampLL v = 2 ^ 63 - 1 := by
        unfold clampLL
        omega
      have hout : ¬ InRangeLL v := fun hin => absurd hin.2 (not_lt.mpr hhigh)
      simp only [hclamp, hout, hhigh, false_and, false_or, true_and]
      exact dvd_greatest_mul_add_one

/-- The conversion is exact, or refuses, in exactly those cases in which the unit is zero, the
product fits or what is left of it in 64 bits happens to be -1. -/
theorem cvtnum_exact_iff (blksize sectsize : Nat) (s : List Char) :
    cvtnum blksize sectsize s = exactNum blksize sectsize s ↔
      ∀ v u, scanSize blksize sectsize s = some (v, u) →
        u = 0 ∨ InRangeLL (v * u) ∨ InRangeLL v ∧ (2 ^ 64 : Int) ∣ v * u + 1 ∨
          2 ^ 63 ≤ v ∧ (2 ^ 64 : Int) ∣ u - (2 ^ 63 + 1) := by
  rw [cvtnum_eq, exactNum]
  cases hscan : scanSize blksize sectsize s with
  | none => simp
  | some r =>
    obtain ⟨v, u⟩ := r
    simp only [Option.map_some, Option.getD_some, Option.some.injEq, Prod.mk.injEq, and_imp,
      forall_apply_eq_imp_iff, forall_eq']
    rw [← wrapLL_clampLL_eq_neg_one]
    by_cases hu : u = 0
    · simp [hu]
    by_cases hin : InRangeLL (v * u)
    · have hv := clampLL_of_inRange (inRange_of_mul hu hin)
      simp [hu, hin, hv, wrapLL_of_inRange hin]
    · simp [hu, hin]

/-- Sixteen exabytes are taken for nothing, and one more than the largest number for that number,
where both should be refused. -/
theorem cvtnum_wraps :
    (cvtnum 4096 512 ['1', '6', 'e'] = 0 ∧ exactNum 4096 512 ['1', '6', 'e'] = -1) ∧
    cvtnum 4096 512 "9223372036854775808".toList = 9223372036854775807 ∧
    exactNum 4096 512 "9223372036854775808".toList = -1 := by
  decide

end Xfs
