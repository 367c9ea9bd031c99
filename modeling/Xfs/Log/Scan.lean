import Mathlib.Data.List.Find
import Xfs.Basic
import Xfs.Lib.BinarySearch

/-! Reading the log. Each block is stamped with the number of the cycle that wrote it, which is all
that the searches look at. A read takes whole log sectors: its start is rounded down and its length
is rounded up, each on its own. -/
namespace Xfs

open List

structure Xlog where
  logBBsize : Nat
  sectlog : Nat
  hasLogv2 : Bool
  sectlog_le : sectlog ≤ 6
  sect_dvd : 2 ^ sectlog ∣ logBBsize

namespace Xlog

variable (log : Xlog)

def sectBBsize : Nat := 2 ^ log.sectlog

def totalRecShift : Nat := (8 <<< if log.hasLogv2 then 18 else 15) / 512

def bufBbcountValid (bbcount : Nat) : Bool := decide (0 < bbcount ∧ bbcount ≤ log.logBBsize)

theorem sectBBsize_pos : 0 < log.sectBBsize := Nat.two_pow_pos _

theorem totalRecShift_eq : log.totalRecShift = 2 ^ if log.hasLogv2 then 12 else 9 := by
  unfold totalRecShift
  split <;> rfl

theorem sectBBsize_dvd_totalRecShift : log.sectBBsize ∣ log.totalRecShift := by
  have := log.sectlog_le
  rw [totalRecShift_eq]
  exact pow_dvd_pow 2 (by split <;> omega)

theorem sectBBsize_lt_totalRecShift : log.sectBBsize < log.totalRecShift := by
  have := log.sectlog_le
  rw [totalRecShift_eq]
  exact Nat.pow_lt_pow_right (by decide) (by split <;> omega)

theorem totalRecShift_lt : log.totalRecShift < 2 ^ 32 := by
  rw [totalRecShift_eq]
  exact Nat.pow_lt_pow_right (by decide) (by split <;> omega)

end Xlog

def roundDown (x y : Nat) : Nat := x - x % y

def roundUp (x y : Nat) : Nat := (x + (y - 1)) / y * y

theorem le_roundUp {y : Nat} (x : Nat) (hy : 0 < y) : x ≤ roundUp x y := by
  have := Nat.lt_div_mul_add (a := x + (y - 1)) hy
  unfold roundUp
  omega

theorem roundUp_eq {x y : Nat} (hx : 0 < x) (hxy : x ≤ y) : roundUp x y = y := by
  have hdiv : (x + (y - 1)) / y = 1 := by
    rw [Nat.div_eq_iff (by omega)]
    omega
  rw [roundUp, hdiv, one_mul]

theorem le_roundUp_of_pos {x y : Nat} (hx : 0 < x) (hy : 0 < y) : y ≤ roundUp x y := by
  have hdiv : 1 ≤ (x + (y - 1)) / y := (Nat.one_le_div_iff hy).mpr (by omega)
  exact Nat.le_mul_of_pos_left y hdiv

theorem roundUp_of_dvd {x y : Nat} (hy : 0 < y) (h : y ∣ x) : roundUp x y = x := by
  obtain ⟨q, rfl⟩ := h
  rw [roundUp, Nat.mul_add_div hy, Nat.div_eq_of_lt (by omega), add_zero, mul_comm]

/-- The least set bit, counted from 1, or 0 if there is none. -/
def ffs (v : Nat) : Nat := ((range 32).find? v.testBit).elim 0 (· + 1)

theorem lt_ffs {v s : Nat} (hpos : 0 < v) (hlt : v < 2 ^ 32) (hdvd : 2 ^ s ∣ v) : s < ffs v := by
  obtain ⟨q, rfl⟩ := hdvd
  unfold ffs
  cases hfind : (range 32).find? (2 ^ s * q).testBit with
  | none =>
    have hzero : 2 ^ s * q = 0 := Nat.eq_of_testBit_eq fun i => by
      rw [Nat.zero_testBit]
      rcases lt_or_ge i 32 with hi | hi
      · simpa using find?_eq_none.mp hfind i (mem_range.mpr hi)
      · exact Nat.testBit_lt_two_pow (hlt.trans_le (Nat.pow_le_pow_right (by decide) hi))
    omega
  | some i =>
    obtain ⟨hset, -, -⟩ := find?_range_eq_some.mp hfind
    rw [Nat.testBit_two_pow_mul, Bool.and_eq_true, decide_eq_true_eq] at hset
    exact Nat.lt_succ_of_le hset.1

section Read

variable (log : Xlog) (cycle : Nat → Nat)

def xlogGetBp (nbblks : Nat) : Except Errno (Nat → Nat) :=
  if log.bufBbcountValid nbblks then .ok fun _ => 0 else .error .enomem

def xlogFill (bp : Nat → Nat) (blkNo nbblks p : Nat) : Nat :=
  if p < roundUp nbblks log.sectBBsize then cycle (roundDown blkNo log.sectBBsize + p) else bp p

def xlogBread (bp : Nat → Nat) (blkNo nbblks : Nat) : Except Errno (Nat → Nat) :=
  if log.bufBbcountValid nbblks then .ok (xlogFill log cycle bp blkNo nbblks)
  else .error .efscorrupted

/-- The block of the buffer in which the given block of the log is looked up. -/
def xlogAlign (blkNo : Nat) : Nat := blkNo % log.sectBBsize

/-- The binary search for the first block stamped with cycle `c`. -/
def findCycleStart (c : Nat) : Nat → (Nat → Nat) → Nat → Nat → Except Errno Nat
  | 0, _, _, last => .ok last
  | fuel + 1, bp, first, last =>
    let mid := (first + last) / 2
    if mid ≠ first ∧ mid ≠ last then do
      let bp ← xlogBread log cycle bp mid 1
      if bp (xlogAlign log mid) = c then findCycleStart c fuel bp first mid
      else findCycleStart c fuel bp mid last
    else .ok last

def verifyBufblks (logBBsize : Nat) : Nat → Nat
  | 0 => if logBBsize < 1 then 0 else 1
  | f + 1 => if logBBsize < 2 ^ (f + 1) then verifyBufblks logBBsize f else 2 ^ (f + 1)

/-- The loop of `xlog_find_verify_cycle`, which reads `bufblks` blocks at a time. -/
def findVerifyLoop (bufblks stop : Nat) : Nat → (Nat → Nat) → Nat → Nat → Except Errno (Option Nat)
  | 0, _, _, _ => .ok none
  | fuel + 1, bp, i, last =>
    if i < last then do
      let bcount := min bufblks (last - i)
      let bp ← xlogBread log cycle bp i bcount
      match (range bcount).find? fun j => decide (bp (xlogAlign log i + j) = stop) with
      | some j => pure (some (i + j))
      | none => findVerifyLoop bufblks stop fuel bp (i + bufblks) last
    else .ok none

/-- Look for the cycle number `stop` among `nbblks` blocks. -/
def findVerifyCycle (start nbblks stop : Nat) : Except Errno (Option Nat) := do
  let bufblks := verifyBufblks log.logBBsize (ffs nbblks)
  let bp ← xlogGetBp log bufblks
  findVerifyLoop log cycle bufblks stop nbblks bp start (start + nbblks)

variable {log} {bp : Nat → Nat} {blkNo nbblks : Nat}

theorem xlogGetBp_ok (h0 : 0 < nbblks) (hn : nbblks ≤ log.logBBsize) :
    xlogGetBp log nbblks = .ok fun _ => 0 :=
  if_pos (decide_eq_true ⟨h0, hn⟩)

theorem xlogBread_ok (bp : Nat → Nat) (blkNo : Nat) (h0 : 0 < nbblks)
    (hn : nbblks ≤ log.logBBsize) :
    xlogBread log cycle bp blkNo nbblks = .ok (xlogFill log cycle bp blkNo nbblks) :=
  if_pos (decide_eq_true ⟨h0, hn⟩)

/-- One block never straddles a sector boundary. -/
theorem xlogBread_one (bp : Nat → Nat) (blkNo : Nat) (hn : 0 < log.logBBsize) :
    ∃ bp', xlogBread log cycle bp blkNo 1 = .ok bp' ∧ bp' (xlogAlign log blkNo) = cycle blkNo := by
  have hsect := log.sectBBsize_pos
  refine ⟨_, xlogBread_ok cycle bp blkNo one_pos hn, ?_⟩
  rw [xlogFill, roundUp_eq one_pos hsect, xlogAlign, if_pos (Nat.mod_lt _ hsect), roundDown,
    Nat.sub_add_cancel (Nat.mod_le _ _)]

variable {cycle}

theorem findCycleStart_eq {c fuel first last : Nat} (hn : 0 < log.logBBsize) (bp : Nat → Nat) :
    findCycleStart log cycle c fuel bp first last =
      .ok (BinarySearch.bisect (cycle · = c) fuel first last) := by
  induction fuel generalizing first last bp with
  | zero => rfl
  | succ fuel ih =>
    unfold findCycleStart BinarySearch.bisect
    by_cases hmid : (first + last) / 2 ≠ first ∧ (first + last) / 2 ≠ last
    · obtain ⟨bp', hread, hcycle⟩ := xlogBread_one cycle bp ((first + last) / 2) hn
      rw [if_pos hmid, if_pos hmid, hread, ok_bind, hcycle, ih, ih]
      by_cases hc : cycle ((first + last) / 2) = c
      · rw [if_pos hc, if_pos (decide_eq_true hc)]
      · rw [if_neg hc, if_neg (by simpa using hc)]
    · rw [if_neg hmid, if_neg hmid]

section Bufblks

variable {n f s : Nat}

theorem verifyBufblks_le (f : Nat) : verifyBufblks n f ≤ n := by
  induction f with
  | zero =>
    unfold verifyBufblks
    split_ifs <;> omega
  | succ f ih =>
    unfold verifyBufblks
    split_ifs with h
    · exact ih
    · exact not_lt.mp h

theorem verifyBufblks_eq_pow (f : Nat) (hn : 0 < n) : ∃ m ≤ f, verifyBufblks n f = 2 ^ m := by
  induction f with
  | zero => exact ⟨0, le_rfl, if_neg (not_lt.mpr hn)⟩
  | succ f ih =>
    unfold verifyBufblks
    split_ifs
    · obtain ⟨m, hm, heq⟩ := ih
      exact ⟨m, hm.trans (Nat.le_succ f), heq⟩
    · exact ⟨f + 1, le_rfl, rfl⟩

/-- The buffer consists of whole sectors if the range does. -/
theorem dvd_verifyBufblks (hs : s ≤ f) (hn : 2 ^ s ≤ n) : 2 ^ s ∣ verifyBufblks n f := by
  induction f with
  | zero => simp [Nat.le_zero.mp hs]
  | succ f ih =>
    by_cases h : n < 2 ^ (f + 1)
    · have hlt : s < f + 1 := (Nat.pow_lt_pow_iff_right (by decide)).mp (hn.trans_lt h)
      rw [verifyBufblks, if_pos h]
      exact ih (by omega)
    · rw [verifyBufblks, if_neg h]
      exact pow_dvd_pow 2 hs

end Bufblks

def partShown (log : Xlog) (bufblks i last b : Nat) : Bool :=
  let j := (b - i) % bufblks
  decide ((b - j) % log.sectBBsize + j < roundUp (min bufblks (last - (b - j))) log.sectBBsize)

section Loop

variable {bufblks stop fuel i j last b : Nat}

theorem partShown_first (hj : j < bufblks) : partShown log bufblks i last (i + j) =
      decide (i % log.sectBBsize + j < roundUp (min bufblks (last - i)) log.sectBBsize) := by
  simp only [partShown, Nat.add_sub_cancel_left, Nat.mod_eq_of_lt hj, Nat.add_sub_cancel]

theorem partShown_next (hb : i + bufblks ≤ b) :
    partShown log bufblks (i + bufblks) last b = partShown log bufblks i last b := by
  unfold partShown
  rw [show b - (i + bufblks) = b - i - bufblks by omega, ← Nat.mod_eq_sub_mod (by omega)]

theorem xlogFill_part (hj : j < min bufblks (last - i))
    (hbp : log.sectBBsize ∣ i ∨ ∀ p, log.sectBBsize ≤ p → bp p ≠ stop) :
    decide (xlogFill log cycle bp i (min bufblks (last - i)) (xlogAlign log i + j) = stop) =
      (decide (cycle (i + j) = stop) && partShown log bufblks i last (i + j)) := by
  have hle := le_roundUp (min bufblks (last - i)) log.sectBBsize_pos
  rw [partShown_first (by omega), xlogFill, xlogAlign, roundDown]
  split_ifs with hshown
  · rw [decide_eq_true hshown, Bool.and_true, ← Nat.add_assoc, Nat.sub_add_cancel (Nat.mod_le _ _)]
  · rw [decide_eq_false hshown, Bool.and_false, decide_eq_false_iff_not]
    rcases hbp with hdvd | hbp
    · rw [Nat.mod_eq_zero_of_dvd hdvd] at hshown
      omega
    · exact hbp _ ((le_roundUp_of_pos (by omega) log.sectBBsize_pos).trans (not_lt.mp hshown))

theorem xlogFill_rest (hpow : bufblks ≤ log.sectBBsize ∨ log.sectBBsize ∣ bufblks)
    (hbp : ∀ p, log.sectBBsize ≤ p → bp p ≠ stop)
    (hno : ∀ j < bufblks, xlogFill log cycle bp i bufblks (xlogAlign log i + j) ≠ stop) (p : Nat)
    (hp : log.sectBBsize ≤ p) : xlogFill log cycle bp i bufblks p ≠ stop := by
  have hsect := log.sectBBsize_pos
  have halign : xlogAlign log i < log.sectBBsize := Nat.mod_lt _ hsect
  by_cases hread : p < roundUp bufblks log.sectBBsize
  · have hlt : p < bufblks := by
      rcases hpow with hle | hdvd
      · rcases Nat.eq_zero_or_pos bufblks with rfl | hpos
        · simp [roundUp, Nat.div_eq_of_lt (Nat.sub_one_lt hsect.ne')] at hread
        · rw [roundUp_eq hpos hle] at hread
          omega
      · rwa [roundUp_of_dvd hsect hdvd] at hread
    have := hno (p - xlogAlign log i) (by omega)
    rwa [Nat.add_sub_cancel' (by omega)] at this
  · rw [xlogFill, if_neg hread]
    exact hbp p hp

theorem findVerifyLoop_done (h : last ≤ i) (fuel : Nat) (bp : Nat → Nat) :
    findVerifyLoop log cycle bufblks stop fuel bp i last = .ok none := by
  cases fuel with
  | zero => rfl
  | succ fuel => exact if_neg (not_lt.mpr h)

/-- The loop finds the first block with the cycle number that is shown. -/
theorem findVerifyLoop_eq (hbuf : 0 < bufblks) (hle : bufblks ≤ log.logBBsize)
    (hpow : bufblks ≤ log.sectBBsize ∨ log.sectBBsize ∣ bufblks) (hfuel : last - i ≤ fuel)
    (bp : Nat → Nat) (hbp : log.sectBBsize ∣ i ∧ log.sectBBsize ∣ bufblks ∨
      ∀ p, log.sectBBsize ≤ p → bp p ≠ stop) :
    findVerifyLoop log cycle bufblks stop fuel bp i last = .ok ((range' i (last - i)).find?
      fun b => decide (cycle b = stop) && partShown log bufblks i last b) := by
  induction fuel generalizing i bp with
  | zero => simp [findVerifyLoop, Nat.le_zero.mp hfuel]
  | succ fuel ih =>
    unfold findVerifyLoop
    split_ifs with hlast
    · have hsplit : range' i (last - i) = range' i (min bufblks (last - i)) ++
          range' (i + bufblks) (last - (i + bufblks)) := by
        rcases Nat.le_total bufblks (last - i) with hb | hb
        · rw [min_eq_left hb, range'_append_1]
          congr 1
          omega
        · simp [min_eq_right hb, show last - (i + bufblks) = 0 by omega]
      have hpart : ((range' i (min bufblks (last - i))).find? fun b =>
            decide (cycle b = stop) && partShown log bufblks i last b) =
          ((range (min bufblks (last - i))).find? fun j => decide (xlogFill log cycle bp i
            (min bufblks (last - i)) (xlogAlign log i + j) = stop)).map (i + ·) := by
        rw [range'_eq_map_range, find?_map]
        refine congrArg _ (find?_congr fun j hj => ?_)
        exact (xlogFill_part (mem_range.mp hj) (hbp.imp And.left id)).symm
      dsimp only
      rw [xlogBread_ok cycle bp i (by omega) (by omega), ok_bind, hsplit, find?_append, hpart]
      cases hfind : (range (min bufblks (last - i))).find? fun j => decide (xlogFill log cycle bp i
          (min bufblks (last - i)) (xlogAlign log i + j) = stop) with
      | some j => rfl
      | none =>
        rcases Nat.lt_or_ge (last - i) bufblks with hshort | hfull
        · rw [show last - (i + bufblks) = 0 by omega]
          exact findVerifyLoop_done (by omega) _ _
        rw [min_eq_left hfull] at hfind ⊢
        have hno : ∀ j < bufblks, xlogFill log cycle bp i bufblks (xlogAlign log i + j) ≠ stop :=
          fun j hj => by simpa using find?_eq_none.mp hfind j (mem_range.mpr hj)
        refine (ih (by omega) _ (hbp.imp (fun h => ⟨Nat.dvd_add h.1 h.2, h.2⟩)
          fun h => xlogFill_rest hpow h hno)).trans (congrArg Except.ok ?_)
        rw [Option.map_none, Option.none_or]
        exact find?_congr fun b hb => by rw [partShown_next (mem_range'_1.mp hb).1]
    · simp [show last - i = 0 by omega]

end Loop

/-- The scan shows block `b`. -/
def Shown (log : Xlog) (start nbblks b : Nat) : Prop :=
  partShown log (verifyBufblks log.logBBsize (ffs nbblks)) start (start + nbblks) b

instance (log : Xlog) (start nbblks b : Nat) : Decidable (Shown log start nbblks b) :=
  inferInstanceAs (Decidable (_ = true))

section Cycle

variable {start stop b : Nat} (hW : log.totalRecShift ≤ log.logBBsize)
  (hnb : nbblks ≤ log.totalRecShift)

include hW hnb

theorem findVerifyCycle_eq (h : log.sectBBsize ∣ start ∧ log.sectBBsize ∣ nbblks ∨ stop ≠ 0) :
    findVerifyCycle log cycle start nbblks stop = .ok ((range' start nbblks).find? fun b =>
      decide (cycle b = stop) &&
        partShown log (verifyBufblks log.logBBsize (ffs nbblks)) start (start + nbblks) b) := by
  have hlt := log.totalRecShift_lt
  have hpos : 0 < log.logBBsize := by
    have := log.sectBBsize_lt_totalRecShift
    omega
  obtain ⟨m, -, hpow⟩ := verifyBufblks_eq_pow (ffs nbblks) hpos
  have hbuf : 0 < verifyBufblks log.logBBsize (ffs nbblks) := hpow ▸ Nat.two_pow_pos m
  unfold findVerifyCycle
  dsimp only
  rw [xlogGetBp_ok hbuf (verifyBufblks_le _), ok_bind]
  rcases Nat.eq_zero_or_pos nbblks with rfl | h0
  · rfl
  have hsect : verifyBufblks log.logBBsize (ffs nbblks) ≤ log.sectBBsize ∨
      log.sectBBsize ∣ verifyBufblks log.logBBsize (ffs nbblks) := by
    rw [hpow]
    exact (Nat.le_total m log.sectlog).imp (Nat.pow_le_pow_right two_pos) (pow_dvd_pow 2)
  have hbp : log.sectBBsize ∣ start ∧ log.sectBBsize ∣ verifyBufblks log.logBBsize (ffs nbblks) ∨
      ∀ p, log.sectBBsize ≤ p → 0 ≠ stop := by
    refine h.imp (fun h => ⟨h.1, ?_⟩) fun hstop _ _ => hstop.symm
    exact dvd_verifyBufblks (lt_ffs h0 (by omega) h.2).le ((Nat.le_of_dvd h0 h.2).trans (by omega))
  rw [findVerifyLoop_eq hbuf (verifyBufblks_le _) hsect (by omega) _ hbp, Nat.add_sub_cancel_left]

/-- A scan of whole sectors shows all of them. -/
theorem shown_of_dvd (hs : log.sectBBsize ∣ start) (hdvd : log.sectBBsize ∣ nbblks)
    (hstart : start ≤ b) (hend : b < start + nbblks) : Shown log start nbblks b := by
  have hlt := log.totalRecShift_lt
  have hbuf : log.sectBBsize ∣ verifyBufblks log.logBBsize (ffs nbblks) :=
    dvd_verifyBufblks (lt_ffs (by omega) (by omega) hdvd).le
      ((Nat.le_of_dvd (by omega) hdvd).trans (by omega))
  obtain ⟨m, -, hpow⟩ := verifyBufblks_eq_pow (ffs nbblks) (show 0 < log.logBBsize by omega)
  have hpos : 0 < verifyBufblks log.logBBsize (ffs nbblks) := hpow ▸ Nat.two_pow_pos m
  unfold Shown partShown
  generalize verifyBufblks log.logBBsize (ffs nbblks) = bufblks at hbuf hpos
  have hmod := Nat.mod_lt (b - start) hpos
  have hdiv := Nat.div_add_mod (b - start) bufblks
  have hpart : b - (b - start) % bufblks = start + bufblks * ((b - start) / bufblks) := by omega
  have hzero : (b - (b - start) % bufblks) % log.sectBBsize = 0 := by
    rw [hpart]
    exact Nat.mod_eq_zero_of_dvd (Nat.dvd_add hs (hbuf.mul_right _))
  refine decide_eq_true ?_
  rw [hzero, zero_add]
  refine lt_of_lt_of_le ?_ (le_roundUp _ log.sectBBsize_pos)
  omega

end Cycle

end Read

end Xfs
