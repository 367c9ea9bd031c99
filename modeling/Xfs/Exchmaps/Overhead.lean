import Xfs.Basic

/-! The blocks to reserve for the growth of the bmap and reverse-mapping btrees during a mapping
exchange. -/
namespace Xfs

inductive Whichfork where
  | data
  | attr
deriving DecidableEq, Repr

/-- The most and the fewest records of the leaves and the heights of the trees. -/
structure ExchMount where
  bmapDmxr : Nat
  bmapDmnr : Nat
  rmapMxr : Nat
  rmapMnr : Nat
  rtrmapMxr : Nat
  rtrmapMnr : Nat
  bmMaxlevels : Whichfork → Nat
  rmapMaxlevels : Nat
  rtrmapMaxlevels : Nat
  hasRmapbt : Bool
  bmapDmnr_lt : bmapDmnr < bmapDmxr
  bmapDmxr_lt : bmapDmxr < 2 ^ 32
  rmapMnr_lt : rmapMnr < rmapMxr
  rmapMxr_lt : rmapMxr < 2 ^ 32
  rtrmapMnr_lt : rtrmapMnr < rtrmapMxr
  rtrmapMxr_lt : rtrmapMxr < 2 ^ 32

/-- What the estimates read and set of a request. The counters are 64 bits wide. -/
structure ExchmapsReq where
  reqfork : Whichfork
  realtime1 : Bool
  ip1Bcount : Nat
  ip2Bcount : Nat
  resblks : Nat
  nrExchanges : Nat
deriving DecidableEq

def uintMax : Nat := 2 ^ 32 - 1

namespace ExchMount

def maxContigBmapsPerBlock (mp : ExchMount) : Nat := sub32 mp.bmapDmxr mp.bmapDmnr

def maxContigRmapsPerBlock (mp : ExchMount) : Nat := sub32 mp.rmapMxr mp.rmapMnr

def maxContigRtrmapsPerBlock (mp : ExchMount) : Nat := sub32 mp.rtrmapMxr mp.rtrmapMnr

def extentaddSpaceRes (mp : ExchMount) (w : Whichfork) : Nat := sub32 (mp.bmMaxlevels w) 1

def rmapaddSpaceRes (mp : ExchMount) : Nat := mp.rmapMaxlevels

def rtrmapaddSpaceRes (mp : ExchMount) : Nat := mp.rtrmapMaxlevels

theorem maxContigBmaps_eq (mp : ExchMount) :
    mp.maxContigBmapsPerBlock = mp.bmapDmxr - mp.bmapDmnr :=
  sub32_eq mp.bmapDmnr_lt.le mp.bmapDmxr_lt

theorem maxContigRmaps_eq (mp : ExchMount) : mp.maxContigRmapsPerBlock = mp.rmapMxr - mp.rmapMnr :=
  sub32_eq mp.rmapMnr_lt.le mp.rmapMxr_lt

theorem maxContigRtrmaps_eq (mp : ExchMount) :
    mp.maxContigRtrmapsPerBlock = mp.rtrmapMxr - mp.rtrmapMnr :=
  sub32_eq mp.rtrmapMnr_lt.le mp.rtrmapMxr_lt

end ExchMount

def exchmapsBmbtBlocks (mp : ExchMount) (req : ExchmapsReq) : Nat :=
  howmany64 req.nrExchanges mp.maxContigBmapsPerBlock * mp.extentaddSpaceRes req.reqfork % 2 ^ 64

def exchmapsRmapbtBlocks (mp : ExchMount) (req : ExchmapsReq) : Nat :=
  if ¬ mp.hasRmapbt then 0
  else if req.realtime1 then
    howmany64 req.nrExchanges mp.maxContigRtrmapsPerBlock * mp.rtrmapaddSpaceRes % 2 ^ 64
  else howmany64 req.nrExchanges mp.maxContigRmapsPerBlock * mp.rmapaddSpaceRes % 2 ^ 64

/-- Whether `check_add_overflow` reports a wrap. The sum it stores is `add64`. -/
def addOverflows (a b : Nat) : Bool := decide (2 ^ 64 ≤ a + b)

/-- Estimate the bmbt and rmapbt overhead. The block counts change also on failure. -/
def exchmapsEstimateOverhead (mp : ExchMount) (req : ExchmapsReq) : ExchmapsReq × Option Errno :=
  let resblks := req.resblks
  let bmbtBlocks := exchmapsBmbtBlocks mp req
  let rmapbtBlocks := exchmapsRmapbtBlocks mp req
  let req1 := { req with ip1Bcount := add64 req.ip1Bcount bmbtBlocks }
  if addOverflows req.ip1Bcount bmbtBlocks then (req1, some .efbig)
  else
    let req2 := { req1 with ip2Bcount := add64 req1.ip2Bcount bmbtBlocks }
    if addOverflows req1.ip2Bcount bmbtBlocks then (req2, some .efbig)
    else if addOverflows resblks bmbtBlocks then (req2, some .enospc)
    else
      let resblks := add64 resblks bmbtBlocks
      if addOverflows resblks bmbtBlocks then (req2, some .enospc)
      else
        let resblks := add64 resblks bmbtBlocks
        if addOverflows resblks rmapbtBlocks then (req2, some .enospc)
        else
          let resblks := add64 resblks rmapbtBlocks
          if addOverflows resblks rmapbtBlocks then (req2, some .enospc)
          else
            let resblks := add64 resblks rmapbtBlocks
            -- the check is of the old reservation
            if uintMax < req2.resblks then (req2, some .enospc)
            else ({ req2 with resblks := resblks }, none)

/-- The blocks for additions, one whenever the records of a block are used up. -/
def addBlocks (nr perBlock cost : Nat) : Nat := (nr + (perBlock - 1)) / perBlock * cost

def exchmapsBmbtOverhead (mp : ExchMount) (req : ExchmapsReq) : Nat :=
  addBlocks req.nrExchanges mp.maxContigBmapsPerBlock (mp.extentaddSpaceRes req.reqfork)

def exchmapsRmapbtOverhead (mp : ExchMount) (req : ExchmapsReq) : Nat :=
  if ¬ mp.hasRmapbt then 0
  else if req.realtime1 then
    addBlocks req.nrExchanges mp.maxContigRtrmapsPerBlock mp.rtrmapaddSpaceRes
  else addBlocks req.nrExchanges mp.maxContigRmapsPerBlock mp.rmapaddSpaceRes

def exchmapsExactResblks (mp : ExchMount) (req : ExchmapsReq) : Nat :=
  req.resblks + 2 * exchmapsBmbtOverhead mp req + 2 * exchmapsRmapbtOverhead mp req

theorem howmany64_mul_eq {nr perBlock cost : Nat} (hpos : 0 < perBlock) (hlt : perBlock < 2 ^ 32)
    (hfits : addBlocks nr perBlock cost ≤ uintMax) :
    howmany64 nr perBlock * cost % 2 ^ 64 = addBlocks nr perBlock cost := by
  unfold addBlocks uintMax at *
  rcases Nat.eq_zero_or_pos cost with rfl | hcost
  · simp
  have hquot : (nr + (perBlock - 1)) / perBlock ≤ 2 ^ 32 - 1 :=
    (Nat.le_mul_of_pos_right _ hcost).trans hfits
  have hsum : nr + (perBlock - 1) < 2 ^ 64 := by
    have hlt' := Nat.lt_mul_of_div_lt (Nat.lt_succ_of_le hquot) hpos
    have hmul : 2 ^ 32 * perBlock ≤ 2 ^ 32 * 2 ^ 32 := Nat.mul_le_mul_left _ hlt.le
    exact hlt'.trans_le hmul
  rw [howmany64_eq hsum, Nat.mod_eq_of_lt (hfits.trans_lt (by decide))]

section

variable {mp : ExchMount} {req : ExchmapsReq}

theorem exchmapsBmbtBlocks_eq (hfits : exchmapsBmbtOverhead mp req ≤ uintMax) :
    exchmapsBmbtBlocks mp req = exchmapsBmbtOverhead mp req := by
  have hlt := mp.bmapDmnr_lt
  have hmax := mp.bmapDmxr_lt
  have hper := mp.maxContigBmaps_eq
  apply howmany64_mul_eq _ _ hfits
  · omega
  · omega

theorem exchmapsRmapbtBlocks_eq (hfits : exchmapsRmapbtOverhead mp req ≤ uintMax) :
    exchmapsRmapbtBlocks mp req = exchmapsRmapbtOverhead mp req := by
  unfold exchmapsRmapbtOverhead at hfits ⊢
  unfold exchmapsRmapbtBlocks
  split
  · rfl
  next hrmapbt =>
  rw [if_neg hrmapbt] at hfits
  split
  · next hrt =>
    rw [if_pos hrt] at hfits
    have hlt := mp.rtrmapMnr_lt
    have hmax := mp.rtrmapMxr_lt
    have hper := mp.maxContigRtrmaps_eq
    exact howmany64_mul_eq (by omega) (by omega) hfits
  · next hrt =>
    rw [if_neg hrt] at hfits
    have hlt := mp.rmapMnr_lt
    have hmax := mp.rmapMxr_lt
    have hper := mp.maxContigRmaps_eq
    exact howmany64_mul_eq (by omega) (by omega) hfits

/-- The sums of an estimate that succeeds. -/
structure OverheadFits (mp : ExchMount) (req : ExchmapsReq) : Prop where
  ip1Bcount : req.ip1Bcount + exchmapsBmbtBlocks mp req < 2 ^ 64
  ip2Bcount : req.ip2Bcount + exchmapsBmbtBlocks mp req < 2 ^ 64
  sum : req.resblks + 2 * exchmapsBmbtBlocks mp req + 2 * exchmapsRmapbtBlocks mp req < 2 ^ 64
  resblks : req.resblks ≤ uintMax

theorem addOverflows_eq_false {a b : Nat} (h : a + b < 2 ^ 64) : addOverflows a b = false :=
  decide_eq_false (not_le.mpr h)

theorem lt_of_addOverflows {a b : Nat} (h : ¬ addOverflows a b) : a + b < 2 ^ 64 :=
  not_le.mp (of_decide_eq_false (Bool.eq_false_iff.mpr h))

theorem exchmapsEstimateOverhead_ok (hfits : OverheadFits mp req) :
    (exchmapsEstimateOverhead mp req).2 = none ∧
    (exchmapsEstimateOverhead mp req).1.resblks =
      req.resblks + 2 * exchmapsBmbtBlocks mp req + 2 * exchmapsRmapbtBlocks mp req := by
  obtain ⟨h1, h2, hsum, hold⟩ := hfits
  unfold exchmapsEstimateOverhead
  generalize exchmapsBmbtBlocks mp req = b at *
  generalize exchmapsRmapbtBlocks mp req = r at *
  have hb : req.resblks + b < 2 ^ 64 := by omega
  have hbb : req.resblks + b + b < 2 ^ 64 := by omega
  have hbbr : req.resblks + b + b + r < 2 ^ 64 := by omega
  have hbbrr : req.resblks + b + b + r + r < 2 ^ 64 := by omega
  simp only [addOverflows_eq_false h1, addOverflows_eq_false h2, addOverflows_eq_false hb,
    add64_eq hb, addOverflows_eq_false hbb, add64_eq hbb, addOverflows_eq_false hbbr, add64_eq hbbr,
    addOverflows_eq_false hbbrr, add64_eq hbbrr, if_neg (not_lt.mpr hold), Bool.false_eq_true,
    if_false, true_and]
  omega

theorem overheadFits_of_ok (hok : (exchmapsEstimateOverhead mp req).2 = none) :
    OverheadFits mp req := by
  simp only [exchmapsEstimateOverhead] at hok
  split at hok
  · cases hok
  next h1 =>
  split at hok
  · cases hok
  next h2 =>
  split at hok
  · cases hok
  next hb =>
  have hb := lt_of_addOverflows hb
  rw [add64_eq hb] at hok
  split at hok
  · cases hok
  next hbb =>
  have hbb := lt_of_addOverflows hbb
  rw [add64_eq hbb] at hok
  split at hok
  · cases hok
  next hbbr =>
  have hbbr := lt_of_addOverflows hbbr
  rw [add64_eq hbbr] at hok
  split at hok
  · cases hok
  · next hbbrr =>
    split at hok
    · cases hok
    · next hold =>
      have hbbrr := lt_of_addOverflows hbbrr
      exact ⟨lt_of_addOverflows h1, lt_of_addOverflows h2, by omega, not_lt.mp hold⟩

theorem overhead_le_exact : exchmapsBmbtOverhead mp req ≤ exchmapsExactResblks mp req ∧
    exchmapsRmapbtOverhead mp req ≤ exchmapsExactResblks mp req := by
  unfold exchmapsExactResblks
  constructor <;> omega

def OverheadOverflows (mp : ExchMount) (req : ExchmapsReq) : Prop :=
  let bmbt := (req.nrExchanges + (mp.bmapDmxr - mp.bmapDmnr - 1)) % 2 ^ 64 /
    (mp.bmapDmxr - mp.bmapDmnr) * mp.extentaddSpaceRes req.reqfork % 2 ^ 64
  let rmapbt :=
    if ¬ mp.hasRmapbt then 0
    else if req.realtime1 then
      (req.nrExchanges + (mp.rtrmapMxr - mp.rtrmapMnr - 1)) % 2 ^ 64 /
        (mp.rtrmapMxr - mp.rtrmapMnr) * mp.rtrmapMaxlevels % 2 ^ 64
    else
      (req.nrExchanges + (mp.rmapMxr - mp.rmapMnr - 1)) % 2 ^ 64 /
        (mp.rmapMxr - mp.rmapMnr) * mp.rmapMaxlevels % 2 ^ 64
  2 ^ 64 ≤ req.ip1Bcount + bmbt ∨ 2 ^ 64 ≤ req.ip2Bcount + bmbt ∨
    2 ^ 64 ≤ req.resblks + 2 * bmbt + 2 * rmapbt

theorem overheadOverflows_iff : OverheadOverflows mp req ↔
    2 ^ 64 ≤ req.ip1Bcount + exchmapsBmbtBlocks mp req ∨
      2 ^ 64 ≤ req.ip2Bcount + exchmapsBmbtBlocks mp req ∨
      2 ^ 64 ≤ req.resblks + 2 * exchmapsBmbtBlocks mp req + 2 * exchmapsRmapbtBlocks mp req := by
  unfold OverheadOverflows exchmapsBmbtBlocks exchmapsRmapbtBlocks
  rw [mp.maxContigBmaps_eq, mp.maxContigRmaps_eq, mp.maxContigRtrmaps_eq]
  rfl

end

/-- A success means the exact reservation just if that fits into an `unsigned int`, or the estimate
fails for another reason: the old reservation, a file's block count or the 64-bit sum is too large. -/
theorem exchmaps_estimate_overhead_checked (mp : ExchMount) (req : ExchmapsReq) :
    (((exchmapsEstimateOverhead mp req).2 = none →
      (exchmapsEstimateOverhead mp req).1.resblks = exchmapsExactResblks mp req ∧
      (exchmapsEstimateOverhead mp req).1.resblks ≤ uintMax) ∧
    (uintMax < exchmapsExactResblks mp req → (exchmapsEstimateOverhead mp req).2 ≠ none)) ↔
    (exchmapsExactResblks mp req ≤ uintMax ∨ uintMax < req.resblks ∨ OverheadOverflows mp req) := by
  rw [overheadOverflows_iff]
  constructor
  · rintro ⟨-, hlarge⟩
    by_contra hnone
    simp only [not_or, not_le, not_lt] at hnone
    obtain ⟨hexact, hold, h1, h2, hsum⟩ := hnone
    exact hlarge hexact (exchmapsEstimateOverhead_ok ⟨h1, h2, hsum, hold⟩).1
  · intro hcond
    have hfail : (exchmapsEstimateOverhead mp req).2 = none →
        exchmapsExactResblks mp req ≤ uintMax := by
      intro hok
      obtain ⟨h1, h2, hsum, hold⟩ := overheadFits_of_ok hok
      rcases hcond with hexact | hcond | hcond | hcond | hcond
      · exact hexact
      · exact absurd hcond (not_lt.mpr hold)
      · exact absurd hcond (not_le.mpr h1)
      · exact absurd hcond (not_le.mpr h2)
      · exact absurd hcond (not_le.mpr hsum)
    constructor
    · intro hok
      have hexact := hfail hok
      have hres := (exchmapsEstimateOverhead_ok (overheadFits_of_ok hok)).2
      rw [exchmapsBmbtBlocks_eq (overhead_le_exact.1.trans hexact),
        exchmapsRmapbtBlocks_eq (overhead_le_exact.2.trans hexact)] at hres
      exact ⟨hres, hres.trans_le hexact⟩
    · intro hlarge hok
      exact absurd (hfail hok) (not_le.mpr hlarge)

def smallExchMount : ExchMount where
  bmapDmxr := 251
  bmapDmnr := 125
  rmapMxr := 168
  rmapMnr := 84
  rtrmapMxr := 168
  rtrmapMnr := 84
  bmMaxlevels := fun _ => 5
  rmapMaxlevels := 5
  rtrmapMaxlevels := 5
  hasRmapbt := false
  bmapDmnr_lt := by decide
  bmapDmxr_lt := by decide
  rmapMnr_lt := by decide
  rmapMxr_lt := by decide
  rtrmapMnr_lt := by decide
  rtrmapMxr_lt := by decide

/-- Enough exchanges reserve more than an `unsigned int` holds, and the estimate succeeds. -/
theorem exchmaps_estimate_overhead_too_large :
    (exchmapsEstimateOverhead smallExchMount ⟨.data, false, 0, 0, 0, 126 * 2 ^ 30⟩).2 = none ∧
    (exchmapsEstimateOverhead smallExchMount ⟨.data, false, 0, 0, 0, 126 * 2 ^ 30⟩).1.resblks =
      2 ^ 33 ∧ uintMax < 2 ^ 33 := by
  decide

end Xfs
