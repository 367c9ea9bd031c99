import Xfs.Basic

/-! Aligned places for an allocation inside a free extent. -/
namespace Xfs

open Nat

def roundup32 (x y : Nat) : Nat := add32 x (y - 1) / y * y

def absDiff (a b : Nat) : Nat := if b < a then a - b else b - a

/-- The aligned blocks next to `wantbno`, if the free extent reaches the target's end. -/
def computeDiffAround (wantbno wantlen alignment freebno freeend : Nat) : Nat :=
  let newbno1 := roundup32 wantbno alignment
  let newbno2 := sub32 newbno1 alignment
  let newlen1 := if freeend ≤ newbno1 then 0 else min wantlen (sub32 freeend newbno1)
  let newbno1 := if freeend ≤ newbno1 then nullagblock else newbno1
  let newlen2 := if newbno2 < freebno then 0 else min wantlen (sub32 freeend newbno2)
  let newbno2 := if newbno2 < freebno then nullagblock else newbno2
  if newbno1 ≠ nullagblock ∧ newbno2 ≠ nullagblock then
    if newlen1 < newlen2 ∨
        (newlen1 = newlen2 ∧ absDiff newbno2 wantbno < absDiff newbno1 wantbno) then newbno2
    else newbno1
  else if newbno2 ≠ nullagblock then newbno2
  else newbno1

def computeDiffTail (wantlen alignment freebno freeend : Nat) : Nat :=
  let newbno1 := roundup32 (sub32 freeend wantlen) alignment
  if sub32 freeend wantlen < newbno1 ∧ freebno ≤ sub32 newbno1 alignment then
    sub32 newbno1 alignment
  else if freeend ≤ newbno1 then nullagblock
  else newbno1

/-- The best start for `wantlen` blocks near `wantbno`, and its distance from there. -/
def allocComputeDiff (wantbno wantlen alignment : Nat) (userdata : Bool) (freebno freelen : Nat) :
    Nat × Nat :=
  let freeend := add32 freebno freelen
  let wantend := add32 wantbno wantlen
  let newbno :=
    if wantbno ≤ freebno ∨ (userdata = true ∧ freeend < wantend) then
      let newbno1 := roundup32 freebno alignment
      if freeend ≤ newbno1 then nullagblock else newbno1
    else if wantend ≤ freeend ∧ 1 < alignment then
      computeDiffAround wantbno wantlen alignment freebno freeend
    else if wantend ≤ freeend then wantbno
    else if 1 < alignment then computeDiffTail wantlen alignment freebno freeend
    else sub32 freeend wantlen
  (newbno, if newbno = nullagblock then 0 else absDiff newbno wantbno)

variable {x y a b : Nat}

theorem add_le_of_dvd_lt (ha : y ∣ a) (hb : y ∣ b) (h : a < b) : a + y ≤ b := by
  have hle := le_of_dvd (by omega) (dvd_sub hb ha)
  omega

theorem roundup32_spec (hy : 0 < y) (h : x + y ≤ 2 ^ 32) :
    y ∣ roundup32 x y ∧ x ≤ roundup32 x y ∧ roundup32 x y < x + y := by
  rw [roundup32, add32_eq (by omega)]
  have hdiv := div_add_mod (x + (y - 1)) y
  have hmod := mod_lt (x + (y - 1)) hy
  rw [mul_comm] at hdiv
  exact ⟨dvd_mul_left _ _, by omega, by omega⟩

theorem roundup32_of_dvd (hy : 0 < y) (h : x + y ≤ 2 ^ 32) (hdvd : y ∣ x) : roundup32 x y = x := by
  obtain ⟨hr, hle, hlt⟩ := roundup32_spec hy h
  rcases eq_or_lt_of_le hle with heq | hgt
  · exact heq.symm
  · have := add_le_of_dvd_lt hdvd hr hgt
    omega

/-- An aligned run of `wantlen` blocks from `newbno` on fits into the free extent. -/
def RunFits (wantlen alignment freebno freelen newbno : Nat) : Prop :=
  alignment ∣ newbno ∧ freebno ≤ newbno ∧ newbno + wantlen ≤ freebno + freelen

def Closest (wantbno wantlen alignment freebno freelen newbno : Nat) : Prop :=
  ∀ x, RunFits wantlen alignment freebno freelen x → absDiff newbno wantbno ≤ absDiff x wantbno

variable {wantbno wantlen alignment freebno freelen newbno : Nat}

theorem closest_of_le (h : wantbno ≤ newbno)
    (hall : ∀ x, RunFits wantlen alignment freebno freelen x → newbno ≤ x) :
    Closest wantbno wantlen alignment freebno freelen newbno := by
  intro x hx
  have := hall x hx
  unfold absDiff
  split_ifs <;> omega

theorem closest_of_ge (h : newbno ≤ wantbno)
    (hall : ∀ x, RunFits wantlen alignment freebno freelen x → x ≤ newbno) :
    Closest wantbno wantlen alignment freebno freelen newbno := by
  intro x hx
  have := hall x hx
  unfold absDiff
  split_ifs <;> omega

section

variable (hlen : 0 < wantlen) (halign : 0 < alignment) (hdvd : alignment ∣ freebno)
  (hle : wantlen ≤ freelen) (hend : freebno + freelen < 2 ^ 31)

include hlen halign hdvd hle hend

theorem computeDiffAround_spec (hfits : wantbno + alignment ≤ 2 ^ 32) (hstart : freebno < wantbno)
    (hwant : wantbno + wantlen ≤ freebno + freelen) :
    RunFits wantlen alignment freebno freelen
        (computeDiffAround wantbno wantlen alignment freebno (freebno + freelen)) ∧
      Closest wantbno wantlen alignment freebno freelen
        (computeDiffAround wantbno wantlen alignment freebno (freebno + freelen)) := by
  obtain ⟨hr, hr1, hr2⟩ := roundup32_spec halign hfits
  have hstep := add_le_of_dvd_lt hdvd hr (by omega)
  have hdown := sub32_eq (show alignment ≤ roundup32 wantbno alignment by omega) (by omega)
  simp only [computeDiffAround, hdown]
  generalize roundup32 wantbno alignment = up at *
  have hdvd2 : alignment ∣ up - alignment := dvd_sub hr (dvd_refl _)
  have hlow : RunFits wantlen alignment freebno freelen (up - alignment) :=
    ⟨hdvd2, by omega, by omega⟩
  -- a multiple is below the target or not before the one behind it
  have hsides : ∀ x, alignment ∣ x → x ≤ up - alignment ∨ up ≤ x := by
    intro x hx
    rcases lt_or_ge x up with hlt | hge
    · have := add_le_of_dvd_lt hx hr hlt
      omega
    · exact .inr hge
  have hnull : up - alignment ≠ nullagblock := by unfold nullagblock; omega
  have hlen2 : min wantlen (sub32 (freebno + freelen) (up - alignment)) = wantlen := by
    rw [sub32_eq (by omega) (by omega)]
    omega
  simp only [if_neg (show ¬ up - alignment < freebno by omega), hlen2]
  by_cases hup : freebno + freelen ≤ up
  · simp only [if_pos hup, ne_eq, not_true, false_and, if_false, hnull, not_false_eq_true, if_true]
    refine ⟨hlow, closest_of_ge (by omega) fun x hx => ?_⟩
    have := hsides x hx.1
    have := hx.2.2
    omega
  have hnull1 : up ≠ nullagblock := by unfold nullagblock; omega
  simp only [if_neg hup, ne_eq, hnull, hnull1, not_false_eq_true, and_self, if_true]
  rw [sub32_eq (by omega) (by omega)]
  by_cases hfit : up + wantlen ≤ freebno + freelen
  · have hhigh : RunFits wantlen alignment freebno freelen up := ⟨hr, by omega, by omega⟩
    rw [show min wantlen (freebno + freelen - up) = wantlen by omega]
    split_ifs with hcloser
    · refine ⟨hlow, fun x hx => ?_⟩
      have := hsides x hx.1
      unfold absDiff at *
      split_ifs at * <;> omega
    · refine ⟨hhigh, fun x hx => ?_⟩
      have := hsides x hx.1
      unfold absDiff at *
      split_ifs at * <;> omega
  · rw [if_pos (.inl (by omega))]
    refine ⟨hlow, closest_of_ge (by omega) fun x hx => ?_⟩
    have := hsides x hx.1
    have := hx.2.2
    omega

theorem computeDiffTail_spec (hfits : wantbno + alignment ≤ 2 ^ 32)
    (hwant : freebno + freelen < wantbno + wantlen) :
    RunFits wantlen alignment freebno freelen
        (computeDiffTail wantlen alignment freebno (freebno + freelen)) ∧
      Closest wantbno wantlen alignment freebno freelen
        (computeDiffTail wantlen alignment freebno (freebno + freelen)) := by
  have hlast : sub32 (freebno + freelen) wantlen = freebno + freelen - wantlen :=
    sub32_eq (by omega) (by omega)
  obtain ⟨hr, hr1, hr2⟩ := roundup32_spec (x := freebno + freelen - wantlen) halign (by omega)
  simp only [computeDiffTail, hlast]
  generalize roundup32 (freebno + freelen - wantlen) alignment = up at *
  rcases eq_or_lt_of_le hr1 with heq | hlt
  · -- the last run of the extent is aligned
    rw [if_neg (by omega), if_neg (by omega)]
    refine ⟨⟨hr, by omega, by omega⟩, closest_of_ge (by omega) fun x hx => ?_⟩
    have := hx.2.2
    omega
  have hstep := add_le_of_dvd_lt hdvd hr (by omega)
  rw [sub32_eq (by omega) (by omega), if_pos ⟨hlt, by omega⟩]
  have hdvd2 : alignment ∣ up - alignment := dvd_sub hr (dvd_refl _)
  refine ⟨⟨hdvd2, by omega, by omega⟩, closest_of_ge (by omega) fun x hx => ?_⟩
  have := hx.2.2
  have := add_le_of_dvd_lt hx.1 hr (by omega)
  omega

end

/-- The run that comes out fits, the distance is right, and except for user data there is no closer
one. -/
theorem allocComputeDiff_best (wantbno wantlen alignment : Nat) (userdata : Bool)
    (freebno freelen : Nat) (hlen : 1 ≤ wantlen) (halign : 1 ≤ alignment)
    (hfits : wantbno + alignment ≤ 2 ^ 32) (hdvd : alignment ∣ freebno) (hle : wantlen ≤ freelen)
    (hend : freebno + freelen < 2 ^ 31) (hwant : wantbno + wantlen < 2 ^ 31) :
    RunFits wantlen alignment freebno freelen
        (allocComputeDiff wantbno wantlen alignment userdata freebno freelen).1 ∧
      (allocComputeDiff wantbno wantlen alignment userdata freebno freelen).2 =
        absDiff (allocComputeDiff wantbno wantlen alignment userdata freebno freelen).1 wantbno ∧
      (userdata = false → Closest wantbno wantlen alignment freebno freelen
        (allocComputeDiff wantbno wantlen alignment userdata freebno freelen).1) := by
  suffices h : RunFits wantlen alignment freebno freelen
        (allocComputeDiff wantbno wantlen alignment userdata freebno freelen).1 ∧
      (userdata = false → Closest wantbno wantlen alignment freebno freelen
        (allocComputeDiff wantbno wantlen alignment userdata freebno freelen).1) by
    refine ⟨h.1, ?_, h.2⟩
    have hne : (allocComputeDiff wantbno wantlen alignment userdata freebno freelen).1 ≠
        nullagblock := by
      have := h.1.2.2
      unfold nullagblock
      omega
    exact if_neg hne
  simp only [allocComputeDiff, add32_eq (show freebno + freelen < 2 ^ 32 by omega),
    add32_eq (show wantbno + wantlen < 2 ^ 32 by omega)]
  by_cases hfront : wantbno ≤ freebno ∨ (userdata = true ∧ freebno + freelen < wantbno + wantlen)
  · have hsum : freebno + alignment ≤ 2 ^ 32 := by
      rcases Nat.eq_zero_or_pos freebno with rfl | hpos
      · omega
      · have := le_of_dvd hpos hdvd
        omega
    rw [if_pos hfront, roundup32_of_dvd halign hsum hdvd, if_neg (by omega)]
    refine ⟨⟨hdvd, le_rfl, by omega⟩, fun huser => ?_⟩
    rcases hfront with hge | ⟨htrue, -⟩
    · exact closest_of_le hge fun x hx => hx.2.1
    · rw [huser] at htrue
      cases htrue
  · have hstart : freebno < wantbno := by omega
    rw [if_neg hfront]
    by_cases hreach : wantbno + wantlen ≤ freebno + freelen
    · by_cases hone : 1 < alignment
      · rw [if_pos ⟨hreach, hone⟩]
        have h := computeDiffAround_spec hlen halign hdvd hle hend hfits hstart hreach
        exact ⟨h.1, fun _ => h.2⟩
      · obtain rfl : alignment = 1 := by omega
        rw [if_neg (by omega), if_pos hreach]
        refine ⟨⟨one_dvd _, by omega, hreach⟩, fun _ => ?_⟩
        intro x _
        simp [absDiff]
    · rw [if_neg (fun h => hreach h.1), if_neg hreach]
      have htail := computeDiffTail_spec hlen halign hdvd hle hend hfits (by omega)
      by_cases hone : 1 < alignment
      · rw [if_pos hone]
        exact ⟨htail.1, fun _ => htail.2⟩
      · obtain rfl : alignment = 1 := by omega
        rw [if_neg hone, sub32_eq (by omega) (by omega)]
        refine ⟨⟨one_dvd _, by omega, by omega⟩, fun _ => closest_of_ge (by omega) fun x hx => ?_⟩
        have := hx.2.2
        omega

theorem allocComputeDiff_best_sample : RunFits 4 8 8 40 (allocComputeDiff 21 4 8 false 8 40).1 ∧
      (allocComputeDiff 21 4 8 false 8 40).2 = 3 ∧
      Closest 21 4 8 8 40 (allocComputeDiff 21 4 8 false 8 40).1 := by
  have h := allocComputeDiff_best 21 4 8 false 8 40 (by decide) (by decide) (by decide) (by decide)
    (by decide) (by decide) (by decide)
  exact ⟨h.1, h.2.1, h.2.2 rfl⟩

/-- An alignment that wraps around: block 4 is not a multiple of it. -/
theorem allocComputeDiff_wraps :
    allocComputeDiff 5 1 (2 ^ 32 - 4) false 0 100 = (4, 1) ∧ ¬ (2 ^ 32 - 4) ∣ 4 := by
  decide

end Xfs
