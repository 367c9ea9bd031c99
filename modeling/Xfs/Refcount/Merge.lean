import Xfs.Refcount.Neighbours

/-! Merging at the ends of the range of a shared adjustment. -/
namespace Xfs

open RecordCursor

/-- The count a block should have after an adjustment. The maximum count is
pinned. -/
def adjustedCount (adj : RefcAdjustOp) (n : Nat) : Nat :=
  if n = refcRefcountMax then refcRefcountMax else
  match adj with
  | .increase => n + 1
  | .decrease => n - 1
  | .cowAlloc => n
  | .cowFree => n - 1

/-- The entry of the count map after an adjustment: counts below two are not
recorded. -/
def adjustedEntry (adj : RefcAdjustOp) (o : Option Nat) : Option Nat :=
  if adjustedCount adj (o.getD 1) ≤ 1 then none else some (adjustedCount adj (o.getD 1))

def timesIn (extents : List (Nat × Nat)) (b : Nat) : Nat :=
  extents.countP (fun e => decide (e.1 ≤ b ∧ b < e.1 + e.2))

theorem timesIn_append (F1 F2 : List (Nat × Nat)) (b : Nat) :
    timesIn (F1 ++ F2) b = timesIn F1 b + timesIn F2 b := List.countP_append

structure Adjusted (adj : RefcAdjustOp) (C : Nat → Option Nat) (lo hi : Nat)
    (C' : Nat → Option Nat) (lo' hi' : Nat) (freed : List (Nat × Nat)) : Prop where
  lo_le : lo ≤ lo'
  le : lo' ≤ hi'
  le_hi : hi' ≤ hi
  done : ∀ b, lo ≤ b → b < hi → ¬ (lo' ≤ b ∧ b < hi') → C' b = adjustedEntry adj (C b)
  same : ∀ b, ¬ (lo ≤ b ∧ b < hi) ∨ (lo' ≤ b ∧ b < hi') → C' b = C b
  freed : ∀ b, timesIn freed b =
    if (lo ≤ b ∧ b < hi) ∧ ¬ (lo' ≤ b ∧ b < hi') ∧ adjustedCount adj ((C b).getD 1) = 0
    then 1 else 0

theorem Adjusted.refl (adj : RefcAdjustOp) (C : Nat → Option Nat) {lo hi : Nat} (h : lo ≤ hi) :
    Adjusted adj C lo hi C lo hi [] := by
  refine ⟨le_rfl, h, le_rfl, fun b h1 h2 h3 => absurd ⟨h1, h2⟩ h3, fun _ _ => rfl, fun b => ?_⟩
  rw [if_neg (fun hb => hb.2.1 hb.1)]
  rfl

theorem Adjusted.trans {adj : RefcAdjustOp} {C C1 C2 : Nat → Option Nat}
    {lo hi lo1 hi1 lo2 hi2 : Nat} {F1 F2 : List (Nat × Nat)}
    (h1 : Adjusted adj C lo hi C1 lo1 hi1 F1) (h2 : Adjusted adj C1 lo1 hi1 C2 lo2 hi2 F2) :
    Adjusted adj C lo hi C2 lo2 hi2 (F1 ++ F2) := by
  obtain ⟨a1, b1, c1, d1, e1, f1⟩ := h1
  obtain ⟨a2, b2, c2, d2, e2, f2⟩ := h2
  refine ⟨by omega, by omega, by omega, fun b hlo hhi hout => ?_, fun b hb => ?_, fun b => ?_⟩
  · by_cases hin : lo1 ≤ b ∧ b < hi1
    · rw [d2 b hin.1 hin.2 hout, e1 b (.inr hin)]
    · rw [e2 b (.inl hin), d1 b hlo hhi hin]
  · have hb1 : ¬ (lo1 ≤ b ∧ b < hi1) ∨ (lo2 ≤ b ∧ b < hi2) := by omega
    rw [e2 b hb1, e1 b (by omega)]
  · rw [timesIn_append, f1 b, f2 b]
    by_cases hin : lo1 ≤ b ∧ b < hi1
    · rw [e1 b (.inr hin), if_neg (fun hb => hb.2.1 hin)]
      have hin' : lo ≤ b ∧ b < hi := by omega
      simp [hin, hin']
    · have hout : ¬ (lo2 ≤ b ∧ b < hi2) := by omega
      simp [hin, hout]

theorem Adjusted.complete_unique {adj : RefcAdjustOp} {C C1 C2 : Nat → Option Nat}
    {lo hi lo1 lo2 : Nat} {F1 F2 : List (Nat × Nat)}
    (h1 : Adjusted adj C lo hi C1 lo1 lo1 F1) (h2 : Adjusted adj C lo hi C2 lo2 lo2 F2) (b : Nat) :
    C1 b = C2 b ∧ timesIn F1 b = timesIn F2 b := by
  have hnone : ∀ n, ¬ (n ≤ b ∧ b < n) := fun n hn => by omega
  refine ⟨?_, by rw [h1.freed b, h2.freed b]; simp only [hnone lo1, hnone lo2]⟩
  by_cases hb : lo ≤ b ∧ b < hi
  · rw [h1.done b hb.1 hb.2 (by omega), h2.done b hb.1 hb.2 (by omega)]
  · rw [h1.same b (.inl hb), h2.same b (.inl hb)]

variable {g : Group} {d : RefcDomain} {C : Nat → Option Nat} {other : RefcountIrec → Prop}
  {c : RefcCur} {r left cleft right cright : RefcountIrec} {lo hi lo' b : Nat} {adj : RefcAdjustOp}
  {recs : List RefcountIrec}

theorem refcMergeRefcount_eq (h1 : 1 ≤ r.refcount) (h2 : r.refcount ≤ refcRefcountMax) :
    refcMergeRefcount r adj = adjustedCount adj r.refcount := by
  unfold refcMergeRefcount adjustedCount
  split_ifs with hmax
  · rfl
  · unfold refcRefcountMax at h2 hmax
    cases adj with
    | increase => exact add32_eq (by omega)
    | decrease => exact sub32_eq h1 (by omega)
    | cowAlloc => rfl
    | cowFree => exact sub32_eq h1 (by omega)

section

variable (h : Rep g .shared C other recs) (hr : RealOrGap .shared C recs r)
include h hr

omit hr in
theorem Rep.two_le_refcount (hr : r ∈ recs) (hd : r.domain = .shared) : 2 ≤ r.refcount :=
  (refcountCheckIrec_iff.mp (h.wf.check r hr)).2.2.2.2.2.2 hd

theorem RealOrGap.count (hb : r.Covers b) : (C b).getD 1 = r.refcount := by
  obtain ⟨hd, -, hmem | ⟨hone, hnone⟩⟩ := hr
  · rw [h.of_mem hmem hd hb]
    rfl
  · rw [hnone b hb, hone]
    rfl

theorem RealOrGap.legal : 1 ≤ r.refcount ∧ r.refcount ≤ refcRefcountMax := by
  obtain ⟨hd, -, hmem | ⟨hone, -⟩⟩ := hr
  · have := refcountCheckIrec_iff.mp (h.wf.check r hmem)
    omega
  · rw [hone]
    exact ⟨le_rfl, by decide⟩

theorem RealOrGap.real_iff : 1 < r.refcount ↔ r ∈ recs := by
  obtain ⟨hd, hpos, hmem | ⟨hone, hnone⟩⟩ := hr
  · have := h.two_le_refcount hmem hd
    exact ⟨fun _ => hmem, fun _ => by omega⟩
  · refine ⟨fun hlt => by omega, fun hmem => ?_⟩
    have hnone' := hnone r.startblock ⟨le_rfl, by omega⟩
    rw [h.start_of_mem hmem hd] at hnone'
    cases hnone'

end

theorem RealOrGap.mem_iff (h : Rep g d C other recs) (hr : RealOrGap d C recs r) (hb : r.Covers b) :
    r ∈ recs ↔ C b ≠ none := by
  obtain ⟨hd, -, hmem | ⟨-, hnone⟩⟩ := hr
  · simp [hmem, h.of_mem hmem hd hb]
  · refine ⟨fun hmem => ?_, fun hsome => absurd (hnone b hb) hsome⟩
    rw [h.of_mem hmem hd hb]
    simp

theorem RealOrGap.gap (hr : RealOrGap d C recs r) (hm : r ∉ recs) :
    ∀ b, r.Covers b → C b = none := by
  obtain ⟨-, -, hmem | ⟨-, hnone⟩⟩ := hr
  · exact absurd hmem hm
  · exact hnone

theorem setRange_self {lo len : Nat} {v : Option Nat} (h : ∀ b, lo ≤ b ∧ b < lo + len → C b = v) :
    setRange C lo len v = C := by
  funext b
  by_cases hb : lo ≤ b ∧ b < lo + len
  · rw [setRange_in hb, h b hb]
  · exact setRange_out hb

theorem refcountDeleteReal_spec (h : Rep g d C other c.bt.recs)
    (hr : RealOrGap d C c.bt.recs r) (hreal : 1 < r.refcount ↔ r ∈ c.bt.recs) :
    ∃ bt, refcountDeleteReal g c r = .ok (c.setBt bt) ∧
      Rep g d (setRange C r.startblock r.blockcount none) other bt.recs ∧
      ∀ s, s ∈ bt.recs ↔ s ∈ c.bt.recs ∧ s ≠ r := by
  by_cases hlt : 1 < r.refcount
  · have hmem := hreal.mp hlt
    obtain ⟨bt, hlookup, hrecs, hat⟩ := refcountLookupLe_mem h.wf.ordered hmem
    obtain ⟨bt1, hdel, hrep, -, hmem'⟩ := refcountDelete_spec (c := c.setBt bt)
      (by simpa [hrecs] using h) hat hr.1
    refine ⟨bt1, ?_, hrep, ?_⟩
    · simp [refcountDeleteReal, hlt, hlookup, hdel]
    · simpa [hrecs] using hmem'
  · have hnot : r ∉ c.bt.recs := fun hmem => hlt (hreal.mpr hmem)
    have hgap := hr.gap hnot
    refine ⟨c.bt, by simp [refcountDeleteReal, hlt], by rwa [setRange_self hgap], ?_⟩
    intro s
    exact ⟨fun hs => ⟨hs, fun he => hnot (he ▸ hs)⟩, fun hs => hs.1⟩

theorem refcountGrow_spec (h : Rep g d C other c.bt.recs) (hr : r ∈ c.bt.recs) (hrd : r.domain = d)
    {x : RefcountIrec} (hx : x = { r with startblock := x.startblock, blockcount := x.blockcount })
    (hmin : g.minGbno ≤ x.startblock) (hmax : x.startblock + x.blockcount ≤ g.blockCount)
    (hstart : x.startblock ≤ r.startblock)
    (hend : r.startblock + r.blockcount ≤ x.startblock + x.blockcount)
    (hgap : ∀ b, x.Covers b → ¬ r.Covers b → C b = none) :
    ∃ bt bt', refcountLookupLe c r.domain r.startblock = (c.setBt bt, true) ∧
      refcountUpdate (c.setBt bt) x = c.setBt bt' ∧
      Rep g d (setRange C x.startblock x.blockcount (some r.refcount)) other bt'.recs ∧
      ∀ s, s ∈ bt'.recs ↔ s = x ∨ s ∈ c.bt.recs ∧ s ≠ r := by
  have hrb := h.wf.bounds hr
  have hrc := refcountCheckIrec_iff.mp (h.wf.check r hr)
  have hcount : x.refcount = r.refcount := by rw [hx]
  have hdom : x.domain = r.domain := by rw [hx]
  have hcheck : refcountCheckIrec g x :=
    refcountCheckIrec_iff.mpr ⟨by omega, hmin, hmax, by rw [hcount, hdom]; exact hrc.2.2.2⟩
  obtain ⟨bt, hlookup, hrecs, hat⟩ := refcountLookupLe_mem h.wf.ordered hr
  obtain ⟨bt', hupd, hrep, -, hmem⟩ := refcountUpdate_spec (c := c.setBt bt)
    (by rw [RefcCur.setBt_bt, hrecs]; exact h) hat hrd (hdom.trans hrd) hcheck
    (fun b hb => (em (r.Covers b)).imp_right (hgap b hb)) ⟨le_rfl, by omega⟩ ⟨hstart, by omega⟩
  have hmap : setRange (setRange C r.startblock r.blockcount none) x.startblock x.blockcount
      (some x.refcount) = setRange C x.startblock x.blockcount (some r.refcount) := by
    funext b
    simp only [setRange, hcount]
    split_ifs <;> first | rfl | omega
  rw [RefcCur.setBt_bt, hrecs] at hmem
  exact ⟨bt, bt', hlookup, hupd, hmap ▸ hrep, hmem⟩

theorem setRange_merge (lo len lo' len' : Nat) {n : Nat}
    (hold : ∀ b, lo' ≤ b → b < lo' + len' → ¬ (lo ≤ b ∧ b < lo + len) → C b = some n)
    (hin' : ∀ b, lo ≤ b → b < lo + len → lo' ≤ b ∧ b < lo' + len') :
    setRange (setRange C lo len none) lo' len' (some n) = setRange C lo len (some n) := by
  funext b
  have hin := hin' b
  unfold setRange
  split_ifs with h1 h2 <;> first | rfl | omega | exact (hold b h1.1 h1.2 h2).symm

theorem refcountMergeLeftExtent_spec (h : Rep g d C other c.bt.recs)
    (hhi : hi ≤ g.blockCount) (hp : LeftPair d C c.bt.recs lo hi left cleft)
    (hreal : 1 < cleft.refcount ↔ cleft ∈ c.bt.recs) :
    ∃ bt, refcountMergeLeftExtent g c left cleft lo (hi - lo) =
        .ok (c.setBt bt, lo + cleft.blockcount, hi - (lo + cleft.blockcount)) ∧
      Rep g d (setRange C lo cleft.blockcount (some left.refcount)) other bt.recs ∧
      ∀ s, s ∈ bt.recs ↔ s = { left with blockcount := left.blockcount + cleft.blockcount } ∨
        (s ∈ c.bt.recs ∧ s ≠ cleft) ∧ s ≠ left := by
  have hg := g.blockCount_lt
  have hb := hp.bounds h
  obtain ⟨bt, hdel, hrep, hmem⟩ := refcountDeleteReal_spec h hp.inner hreal
  rw [hp.inner_start] at hrep
  have hne : left ≠ cleft := fun he => by rw [he] at hb; omega
  have hleft : left ∈ (c.setBt bt).bt.recs := (hmem left).mpr ⟨hp.left_mem, hne⟩
  obtain ⟨bt1, bt2, hlookup, hupd, hrep2, hmem2⟩ := refcountGrow_spec hrep hleft
    hp.left_domain (x := { left with blockcount := left.blockcount + cleft.blockcount }) rfl
    hb.2.1 (by simp only; omega) le_rfl (by simp only; omega)
    (fun b hb hnot => setRange_in (by simp only [RefcountIrec.Covers] at hb hnot; omega))
  have hsum : add32 left.blockcount cleft.blockcount = left.blockcount + cleft.blockcount :=
    add32_eq (by omega)
  have hsum' : add32 lo cleft.blockcount = lo + cleft.blockcount := add32_eq (by omega)
  have hsub : sub32 (hi - lo) cleft.blockcount = hi - (lo + cleft.blockcount) := by
    rw [sub32_eq (by omega) (by omega)]
    omega
  refine ⟨bt2, ?_, ?_, ?_⟩
  · simp only [refcountMergeLeftExtent, hdel, ok_bind, hlookup, Bool.true_eq_false,
      if_false, hsum, hsum', hsub]
    rw [hupd]
    rfl
  · rwa [setRange_merge _ _ _ _ (fun b h1 h2 hnot => h.of_mem hp.left_mem hp.left_domain
      ⟨h1, by simp only at h2; omega⟩) (by simp only; omega)] at hrep2
  · intro s
    rw [hmem2, RefcCur.setBt_bt, hmem]

theorem refcountMergeRightExtent_spec (h : Rep g d C other c.bt.recs) (hmin : g.minGbno ≤ lo)
    (hp : RightPair d C c.bt.recs lo hi right cright)
    (hreal : 1 < cright.refcount ↔ cright ∈ c.bt.recs) (hlo' : lo' ≤ cright.startblock) :
    ∃ bt, refcountMergeRightExtent g c right cright (hi - lo') =
        .ok (c.setBt bt, cright.startblock - lo') ∧
      Rep g d (setRange C cright.startblock cright.blockcount (some right.refcount)) other bt.recs ∧
      ∀ s, s ∈ bt.recs ↔ s = { right with
          startblock := cright.startblock
          blockcount := right.blockcount + cright.blockcount } ∨
        (s ∈ c.bt.recs ∧ s ≠ cright) ∧ s ≠ right := by
  have hb := hp.bounds h
  obtain ⟨bt, hdel, hrep, hmem⟩ := refcountDeleteReal_spec h hp.inner hreal
  have hne : right ≠ cright := fun he => by rw [he] at hb; omega
  have hright : right ∈ (c.setBt bt).bt.recs := (hmem right).mpr ⟨hp.right_mem, hne⟩
  obtain ⟨bt1, bt2, hlookup, hupd, hrep2, hmem2⟩ := refcountGrow_spec hrep hright
    hp.right_domain (x := { right with
      startblock := cright.startblock
      blockcount := right.blockcount + cright.blockcount }) rfl
    (hmin.trans hp.inner_start) (by simp only; omega) (by simp only; omega) (by simp only; omega)
    (fun b hb hnot => setRange_in (by simp only [RefcountIrec.Covers] at hb hnot; omega))
  have hsum : add32 right.blockcount cright.blockcount = right.blockcount + cright.blockcount :=
    add32_eq (by omega)
  have hsub : sub32 right.startblock cright.blockcount = cright.startblock := by
    rw [sub32_eq (by omega) (by omega)]
    omega
  have hsub' : sub32 (hi - lo') cright.blockcount = cright.startblock - lo' := by
    rw [sub32_eq (by omega) (by omega)]
    omega
  refine ⟨bt2, ?_, ?_, ?_⟩
  · simp only [refcountMergeRightExtent, hdel, ok_bind, hlookup, Bool.true_eq_false,
      if_false, hsum, hsub, hsub']
    rw [hupd]
    rfl
  · rwa [setRange_merge _ _ _ _ (fun b h1 h2 hnot => h.of_mem hp.right_mem hp.right_domain
      (by simp only [RefcountIrec.Covers] at h1 h2 ⊢; omega)) (by simp only; omega)] at hrep2
  · intro s
    rw [hmem2, RefcCur.setBt_bt, hmem]

section

variable (h : Rep g d C other c.bt.recs) (hhi : hi < 2 ^ 31)
  (hl : LeftPair d C c.bt.recs lo hi left cleft) (hcleft : 1 < cleft.refcount ↔ cleft ∈ c.bt.recs)
  (hr : RightPair d C c.bt.recs lo hi right cright) (hwhole : lo + cleft.blockcount = hi)
include h hhi hl hcleft hr hwhole

theorem refcountDeleteCenter_spec : ∃ bt, refcountDeleteCenter g c cleft = .ok (c.setBt bt) ∧
      Rep g d (setRange (setRange C lo cleft.blockcount none) right.startblock
        right.blockcount none) other bt.recs ∧
      ∀ s, s ∈ bt.recs ↔ (s ∈ c.bt.recs ∧ s ≠ cleft) ∧ s ≠ right := by
  have hstart := hl.inner_start
  have hrightStart := hr.right_start
  have hpos := hl.inner.2.1
  obtain ⟨bt, hlookup, hrecs, hseek⟩ := refcountLookupGe_eq c cleft.domain cleft.startblock
  have hrepBt : Rep g d C other bt.recs := hrecs ▸ h
  rw [hl.inner.1, hstart] at hseek
  by_cases hreal : 1 < cleft.refcount
  · -- a real center: it goes first and the cursor then stands on the right extent
    have hcm : cleft ∈ bt.recs := hrecs ▸ hcleft.mp hreal
    have hat : bt.rec? = some cleft := by
      refine Cursor.rec?_of_seek hrepBt.wf.ordered hcm ?_
      rw [refcKey, hl.inner.1, hstart]
      exact hseek
    obtain ⟨bt1, hdel1, hrep1, hseek1, hmem1⟩ :=
      refcountDelete_spec (c := c.setBt bt) hrepBt hat hl.inner.1
    have hrm : right ∈ bt1.recs := by
      refine (hmem1 right).mpr ⟨?_, fun he => by rw [he] at hrightStart; omega⟩
      rw [RefcCur.setBt_bt, hrecs]
      exact hr.right_mem
    have hat1 : bt1.rec? = some right := by
      refine Cursor.rec?_of_seek hrep1.wf.ordered hrm ?_
      rw [refcKey, hr.right_domain, hrightStart]
      refine (seek_iff_of_gap hrep1.wf (show lo ≤ hi by omega) hhi
        (hrep1.gap fun b h1 h2 => setRange_in (by omega))).mp ?_
      rw [refcKey, hl.inner.1, hstart] at hseek1
      exact hseek1
    obtain ⟨bt2, hdel2, hrep2, -, hmem2⟩ :=
      refcountDelete_spec (c := c.setBt bt1) hrep1 hat1 hr.right_domain
    refine ⟨bt2, ?_, hstart ▸ hrep2, fun s => ?_⟩
    · simp [refcountDeleteCenter, hlookup, hat, hdel1, hreal, hdel2]
    · rw [hmem2, RefcCur.setBt_bt, hmem1, RefcCur.setBt_bt, hrecs]
  · -- a gap: the first record found is the right extent already
    have hcm : cleft ∉ c.bt.recs := fun hm => hreal (hcleft.mpr hm)
    have hnone := hl.inner.gap hcm
    have hrm : right ∈ bt.recs := hrecs ▸ hr.right_mem
    have hat : bt.rec? = some right := by
      refine Cursor.rec?_of_seek hrepBt.wf.ordered hrm ?_
      rw [refcKey, hr.right_domain, hrightStart]
      exact (seek_iff_of_gap hrepBt.wf (by omega) hhi
        (hrepBt.gap fun b h1 h2 => hnone b ⟨by omega, by omega⟩)).mp hseek
    obtain ⟨bt1, hdel1, hrep1, -, hmem1⟩ :=
      refcountDelete_spec (c := c.setBt bt) hrepBt hat hr.right_domain
    have hsame := setRange_self hnone
    rw [hstart] at hsame
    refine ⟨bt1, ?_, hsame.symm ▸ hrep1, fun s => ?_⟩
    · simp [refcountDeleteCenter, hlookup, hat, hdel1, hreal]
    · rw [hmem1, RefcCur.setBt_bt, hrecs]
      exact ⟨fun hs => ⟨⟨hs.1, fun he => hcm (he ▸ hs.1)⟩, hs.2⟩, fun hs => ⟨hs.1.1, hs.2⟩⟩

theorem refcountMergeCenterExtents_spec (heq : right.refcount = left.refcount) :
    ∃ bt, refcountMergeCenterExtents g c left cleft
        (left.blockcount + (cleft.blockcount + right.blockcount)) = .ok (c.setBt bt, 0) ∧
      Rep g d (setRange C lo cleft.blockcount (some left.refcount)) other bt.recs := by
  have hlb := hl.bounds h
  have hrb := hr.bounds h
  obtain ⟨bt1, hdel, hrep1, hmem1⟩ := refcountDeleteCenter_spec h hhi hl hcleft hr hwhole
  have hleft : left ∈ (c.setBt bt1).bt.recs := (hmem1 left).mpr
    ⟨⟨hl.left_mem, fun he => by rw [he] at hlb; omega⟩, fun he => by rw [he] at hlb; omega⟩
  obtain ⟨bt2, bt3, hlookup, hupd, hrep3, -⟩ := refcountGrow_spec hrep1 hleft hl.left_domain
    (x := { left with blockcount := left.blockcount + (cleft.blockcount + right.blockcount) }) rfl
    hlb.2.1 (by simp only; omega) le_rfl (by simp only; omega) (fun b hb hnot => by
      simp only [RefcountIrec.Covers] at hb hnot
      by_cases hbr : b < hi
      · rw [setRange_out (by omega), setRange_in (by omega)]
      · exact setRange_in (by omega))
  refine ⟨bt3, ?_, ?_⟩
  · simp only [refcountMergeCenterExtents, hdel, ok_bind, hlookup, Bool.true_eq_false, if_false]
    rw [hupd]
    rfl
  · have hmap : setRange (setRange (setRange C lo cleft.blockcount none)
        right.startblock right.blockcount none)
        left.startblock (left.blockcount + (cleft.blockcount + right.blockcount))
        (some left.refcount) = setRange C lo cleft.blockcount (some left.refcount) := by
      funext b
      have ho := h.of_mem (b := b) hl.left_mem hl.left_domain
      have ho' := h.of_mem (b := b) hr.right_mem hr.right_domain
      rw [heq] at ho'
      unfold RefcountIrec.Covers at ho ho'
      unfold setRange
      split_ifs with h1 h2 <;> first
          | rfl
          | omega
          | (rcases lt_or_ge b lo with hb | hb
             · exact (ho (by omega)).symm
             · exact (ho' (by omega)).symm)
    exact hmap ▸ hrep3

end

theorem adjusted_setRange {lo hi hi' from_ len n : Nat}
    (hlo : lo ≤ lo') (hle : lo' ≤ hi') (hhi : hi' ≤ hi)
    (hrange : ∀ b, (from_ ≤ b ∧ b < from_ + len) ↔ (lo ≤ b ∧ b < hi) ∧ ¬ (lo' ≤ b ∧ b < hi'))
    (hcount : ∀ b, from_ ≤ b → b < from_ + len → adjustedCount adj ((C b).getD 1) = n) :
    Adjusted adj C lo hi (setRange C from_ len (if n ≤ 1 then none else some n)) lo' hi'
      (if n = 0 then [(from_, len)] else []) := by
  refine ⟨hlo, hle, hhi, fun b h1 h2 h3 => ?_, fun b hb => ?_, fun b => ?_⟩
  · have hb := (hrange b).mpr ⟨⟨h1, h2⟩, h3⟩
    rw [setRange_in hb, adjustedEntry, hcount b hb.1 hb.2]
  · exact setRange_out (fun hin => by have := (hrange b).mp hin; omega)
  · by_cases hb : from_ ≤ b ∧ b < from_ + len
    · rw [hcount b hb.1 hb.2]
      by_cases hn : n = 0 <;> simp [timesIn, hn, hb, ((hrange b).mp hb)]
    · have hnot : ¬ ((lo ≤ b ∧ b < hi) ∧ ¬ (lo' ≤ b ∧ b < hi') ∧
          adjustedCount adj ((C b).getD 1) = 0) := fun hc => hb ((hrange b).mpr ⟨hc.1, hc.2.1⟩)
      rw [if_neg hnot]
      by_cases hn : n = 0 <;> simp [timesIn, hn, hb]

theorem adjusted_setRange_some {lo hi hi' from_ len n : Nat} (hn : 1 < n)
    (hlo : lo ≤ lo') (hle : lo' ≤ hi') (hhi : hi' ≤ hi)
    (hrange : ∀ b, (from_ ≤ b ∧ b < from_ + len) ↔ (lo ≤ b ∧ b < hi) ∧ ¬ (lo' ≤ b ∧ b < hi'))
    (hcount : ∀ b, from_ ≤ b → b < from_ + len → adjustedCount adj ((C b).getD 1) = n) :
    Adjusted adj C lo hi (setRange C from_ len (some n)) lo' hi' [] := by
  have hadj := adjusted_setRange hlo hle hhi hrange hcount
  rwa [if_neg (by omega), if_neg (by omega)] at hadj

theorem refcValid_nullIrec : refcValid nullIrec = false := by decide

theorem refcValid_of_lt (h : r.startblock < 2 ^ 31) : refcValid r := by
  have hne : r.startblock ≠ nullagblock := by
    unfold nullagblock
    omega
  simp [refcValid, hne]

/-- The shoulders found on the left, or none. -/
def LeftFound (C : Nat → Option Nat) (recs : List RefcountIrec) (lo hi : Nat)
    (left cleft : RefcountIrec) : Prop :=
  (left = nullIrec ∧ cleft = nullIrec) ∨ LeftPair .shared C recs lo hi left cleft

def RightFound (C : Nat → Option Nat) (recs : List RefcountIrec) (lo hi : Nat)
    (right cright : RefcountIrec) : Prop :=
  (right = nullIrec ∧ cright = nullIrec) ∨ RightPair .shared C recs lo hi right cright

theorem LeftFound.pair (h : LeftFound C recs lo hi left cleft) (hv : refcValid left) :
    LeftPair .shared C recs lo hi left cleft := by
  rcases h with ⟨rfl, -⟩ | hp
  · cases hv
  · exact hp

theorem RightFound.pair (h : RightFound C recs lo hi right cright) (hv : refcValid right) :
    RightPair .shared C recs lo hi right cright := by
  rcases h with ⟨rfl, -⟩ | hp
  · cases hv
  · exact hp

theorem LeftPair.inner_disjoint (h : Rep g d C other recs) (hl : LeftPair d C recs lo hi left cleft)
    (hr : RightPair d C recs lo hi right cright)
    (hne : ¬ (cleft.startblock = cright.startblock ∧ cleft.blockcount = cright.blockcount)) :
    lo + cleft.blockcount ≤ cright.startblock := by
  by_contra hlt
  have h1 := hl.bounds h
  have h2 := hr.bounds h
  have hleftCov : cleft.Covers cright.startblock := ⟨by omega, by omega⟩
  have hrightCov : cright.Covers cright.startblock := ⟨le_rfl, by omega⟩
  have hrealIff : cleft ∈ recs ↔ cright ∈ recs :=
    (hl.inner.mem_iff h hleftCov).trans (hr.inner.mem_iff h hrightCov).symm
  by_cases hm : cleft ∈ recs
  · have heq := h.wf.eq_of_covers hm (hrealIff.mp hm) hl.inner.1 hr.inner.1 hleftCov hrightCov
    exact hne ⟨by rw [heq], by rw [heq]⟩
  -- both are gaps, and a gap ends only at the range's end or at a record
  have hmr : cright ∉ recs := fun hf => hm (hrealIff.mpr hf)
  have hend : lo + cleft.blockcount = hi := by
    rcases hl.maximal hm with hend | hsome
    · exact hend
    · by_contra hend
      exact hsome (hr.inner.gap hmr _ ⟨by omega, by omega⟩)
  have hbegin : cright.startblock = lo := by
    rcases hr.maximal hmr with hbegin | hsome
    · exact hbegin
    · by_contra hbegin
      exact hsome (hl.inner.gap hm _ ⟨by omega, by omega⟩)
  exact hne ⟨by omega, by omega⟩

structure MergeSpec (g : Group) (adj : RefcAdjustOp) (C : Nat → Option Nat)
    (other : RefcountIrec → Prop) (c : RefcCur) (lo hi : Nat) (m : MergeResult) : Prop where
  cur : ∃ bt, m.cur = c.setBt bt
  map : ∃ C', Rep g .shared C' other m.cur.bt.recs ∧
    Adjusted adj C lo hi C' m.agbno (m.agbno + m.aglen) []
  noCross : 0 < m.aglen → NoCross .shared m.cur.bt.recs m.agbno ∧
    NoCross .shared m.cur.bt.recs (m.agbno + m.aglen)

theorem Adjusted.mergeSpec {bt : Cursor RefcountIrec} {C' : Nat → Option Nat} {hi' : Nat}
    (hadj : Adjusted adj C lo hi C' lo' hi' []) (hrep : Rep g .shared C' other bt.recs)
    (hnc : lo' < hi' → NoCross .shared bt.recs lo' ∧ NoCross .shared bt.recs hi')
    (changed : Bool) : MergeSpec g adj C other c lo hi ⟨c.setBt bt, lo', hi' - lo', changed⟩ := by
  have hsum : lo' + (hi' - lo') = hi' := Nat.add_sub_cancel' hadj.le
  refine ⟨⟨bt, rfl⟩, ⟨C', hrep, ?_⟩, fun hpos => ?_⟩
  · simp only [hsum]
    exact hadj
  · simp only [hsum]
    exact hnc (by simp only at hpos; omega)

theorem refcountTryMergeRight_spec (adj : RefcAdjustOp) (h : Rep g .shared C other c.bt.recs)
    (hmin : g.minGbno ≤ lo) (hhi : lo ≤ hi) (hf : RightFound C c.bt.recs lo hi right cright)
    (hncLo : NoCross .shared c.bt.recs lo) (hncHi : NoCross .shared c.bt.recs hi)
    (changed : Bool) :
    ∃ m, refcountTryMergeRight g ⟨c, lo, hi - lo, changed⟩ cright right adj = .ok m ∧
      MergeSpec g adj C other c lo hi m := by
  by_cases hw : refcWantMergeRight cright right adj = true
  case neg =>
    exact ⟨_, by simp [refcountTryMergeRight, hw],
      (Adjusted.refl adj C hhi).mergeSpec h (fun _ => ⟨hncLo, hncHi⟩) changed⟩
  case pos =>
    have hw' := hw
    simp only [refcWantMergeRight, Bool.and_eq_true, decide_eq_true_eq] at hw'
    have hp := hf.pair hw'.1.1.1
    have hlegal := hp.inner.legal h
    have hb := hp.bounds h
    have hrd := h.two_le_refcount hp.right_mem hp.right_domain
    obtain ⟨bt, hmerge, hrep, hmem⟩ := refcountMergeRightExtent_spec h hmin hp
      (hp.inner.real_iff h) hp.inner_start
    have hadj : Adjusted adj C lo hi (setRange C cright.startblock cright.blockcount
        (some right.refcount)) lo cright.startblock [] := by
      refine adjusted_setRange_some (by omega) le_rfl hp.inner_start (by omega) (fun b => by omega)
        (fun b h1 h2 => ?_)
      rw [hp.inner.count h ⟨h1, h2⟩, ← refcMergeRefcount_eq hlegal.1 hlegal.2]
      exact hw'.1.2.symm
    refine ⟨_, by simp [refcountTryMergeRight, hw, hmerge],
      hadj.mergeSpec hrep (fun hlt => ⟨fun s hs hsd hc => ?_, ?_⟩) true⟩
    · rcases (hmem s).mp hs with rfl | ⟨⟨hs, -⟩, -⟩
      · simp only at hc
        omega
      · exact hncLo s hs hsd hc
    · have hbig := hrep.wf.noCross_start ((hmem _).mpr (.inl rfl)) hp.right_domain
      exact hbig

theorem RightFound.behind {recs' : List RefcountIrec} {v : Option Nat}
    (hf : RightFound C recs lo hi right cright) (h : Rep g .shared C other recs)
    (hl : LeftPair .shared C recs lo hi left cleft)
    (hne : ¬ (cleft.startblock = cright.startblock ∧ cleft.blockcount = cright.blockcount))
    (hkeep : ∀ s ∈ recs, lo + cleft.blockcount ≤ s.startblock → s ∈ recs') :
    RightFound (setRange C lo cleft.blockcount v) recs' (lo + cleft.blockcount) hi right
      cright := by
  rcases hf with hnull | hr
  · exact .inl hnull
  have hdisj := hl.inner_disjoint h hr hne
  have hrs := hr.right_start
  have hinnerEnd := hl.inner_end
  refine .inr ⟨hkeep right hr.right_mem (by omega), hr.right_domain, hrs,
    ⟨hr.inner.1, hr.inner.2.1, ?_⟩, hdisj, hr.inner_end, fun hn => ?_⟩
  · rcases hr.inner.2.2 with hm | ⟨hone, hnone⟩
    · exact .inl (hkeep cright hm hdisj)
    · refine .inr ⟨hone, fun b hb => ?_⟩
      rw [setRange_out (by have := hb.1; omega)]
      exact hnone b hb
  · have hpos := hl.inner.2.1
    rcases hr.maximal (fun hm => hn (hkeep cright hm hdisj)) with hbegin | hsome
    · omega
    · by_cases hb : cright.startblock = lo + cleft.blockcount
      · exact .inl hb
      · right
        rwa [setRange_out (by omega)]

section

variable (adj : RefcAdjustOp) (h : Rep g .shared C other c.bt.recs)
  (hmin : g.minGbno ≤ lo) (hlo : lo < hi) (hhi : hi ≤ g.blockCount)
  (hlF : LeftFound C c.bt.recs lo hi left cleft) (hrF : RightFound C c.bt.recs lo hi right cright)
include h hlF

include hrF in
theorem merge_center {ulen : Nat} (hcenter : refcWantMergeCenter left cleft cright right
      (decide (cleft.startblock = cright.startblock) &&
        decide (cleft.blockcount = cright.blockcount)) adj = some ulen) :
    ∃ bt, refcountMergeCenterExtents g c left cleft ulen = .ok (c.setBt bt, 0) ∧
      MergeSpec g adj C other c lo hi ⟨c.setBt bt, lo, 0, true⟩ := by
  simp only [refcWantMergeCenter] at hcenter
  split_ifs at hcenter with hvalid hcequal hcountL hcountR hlen
  simp only [Bool.or_eq_true, Bool.not_eq_true', not_or, Bool.not_eq_false] at hvalid
  simp only [Bool.not_eq_true', Bool.not_eq_false, Bool.and_eq_true, decide_eq_true_eq] at hcequal
  simp only [ne_eq, not_not] at hcountL hcountR
  have hl := hlF.pair hvalid.1.1.1
  have hr := hrF.pair hvalid.1.1.2
  have hlb := hl.bounds h
  have hrb := hr.bounds h
  have hlegal := hl.inner.legal h
  have hwhole : lo + cleft.blockcount = hi := by omega
  have hld := h.two_le_refcount hl.left_mem hl.left_domain
  obtain ⟨bt, hmerge, hrep⟩ := refcountMergeCenterExtents_spec h (by omega) hl
    (hl.inner.real_iff h) hr hwhole (hcountR.trans hcountL.symm)
  rw [add32_eq (by omega)] at hcenter
  obtain rfl := Option.some.inj hcenter
  have hadj : Adjusted adj C lo hi (setRange C lo cleft.blockcount (some left.refcount)) lo lo
      [] := by
    refine adjusted_setRange_some (by omega) le_rfl le_rfl (by omega) (fun b => by omega)
      (fun b h1 h2 => ?_)
    rw [hl.inner.count h ⟨by omega, by omega⟩, ← refcMergeRefcount_eq hlegal.1 hlegal.2]
    exact hcountL.symm
  exact ⟨bt, hmerge,
    Nat.sub_self lo ▸ hadj.mergeSpec hrep (fun hlt => absurd hlt (lt_irrefl lo)) true⟩

include hhi in
theorem merge_left (hncHi : NoCross .shared c.bt.recs hi)
    (hw : refcWantMergeLeft left cleft adj = true) :
    ∃ bt, refcountMergeLeftExtent g c left cleft lo (hi - lo) =
        .ok (c.setBt bt, lo + cleft.blockcount, hi - (lo + cleft.blockcount)) ∧
      Rep g .shared (setRange C lo cleft.blockcount (some left.refcount)) other bt.recs ∧
      Adjusted adj C lo hi (setRange C lo cleft.blockcount (some left.refcount))
        (lo + cleft.blockcount) hi [] ∧
      LeftPair .shared C c.bt.recs lo hi left cleft ∧
      NoCross .shared bt.recs (lo + cleft.blockcount) ∧ NoCross .shared bt.recs hi ∧
      ∀ s ∈ c.bt.recs, lo + cleft.blockcount ≤ s.startblock → s ∈ bt.recs := by
  simp only [refcWantMergeLeft, Bool.and_eq_true, decide_eq_true_eq] at hw
  have hl := hlF.pair hw.1.1.1
  have hlegal := hl.inner.legal h
  have hld := h.two_le_refcount hl.left_mem hl.left_domain
  have hlb := hl.bounds h
  obtain ⟨bt, hmerge, hrep, hmem⟩ := refcountMergeLeftExtent_spec h hhi hl (hl.inner.real_iff h)
  refine ⟨bt, hmerge, hrep, ?_, hl, ?_, fun s hs hsd hc => ?_, fun s hs hle => ?_⟩
  · refine adjusted_setRange_some (by omega) (by omega) hl.inner_end le_rfl (fun b => by omega)
      (fun b h1 h2 => ?_)
    rw [hl.inner.count h ⟨by omega, by omega⟩, ← refcMergeRefcount_eq hlegal.1 hlegal.2]
    exact hw.1.2.symm
  · have hend := hrep.wf.noCross_end ((hmem _).mpr (.inl rfl)) hl.left_domain
    rwa [← Nat.add_assoc, hl.left_end] at hend
  · rcases (hmem s).mp hs with rfl | ⟨⟨hs, -⟩, -⟩
    · simp only at hc
      omega
    · exact hncHi s hs hsd hc
  · refine (hmem s).mpr (.inr ⟨⟨hs, fun he => ?_⟩, fun he => ?_⟩)
    · rw [he] at hle
      omega
    · rw [he] at hle
      omega

include hmin hlo hhi hrF in
theorem refcountMergeFound_spec (hncLo : NoCross .shared c.bt.recs lo)
    (hncHi : NoCross .shared c.bt.recs hi) :
    ∃ m, refcountMergeFound g c left cleft right cright lo (hi - lo) adj = .ok m ∧
      MergeSpec g adj C other c lo hi m := by
  unfold refcountMergeFound
  by_cases hv : (!refcValid left && !refcValid right) = true
  · exact ⟨_, by rw [if_pos hv]; rfl,
      (Adjusted.refl adj C hlo.le).mergeSpec h (fun _ => ⟨hncLo, hncHi⟩) false⟩
  rw [if_neg hv]
  simp only
  cases hcenter : refcWantMergeCenter left cleft cright right
      (decide (cleft.startblock = cright.startblock) &&
        decide (cleft.blockcount = cright.blockcount)) adj with
  | some ulen =>
    obtain ⟨bt, hmerge, hspec⟩ := merge_center adj h hlF hrF hcenter
    exact ⟨_, by simp [hmerge], hspec⟩
  | none =>
    by_cases hw : refcWantMergeLeft left cleft adj = true
    case neg =>
      obtain ⟨m, hm, hspec⟩ := refcountTryMergeRight_spec adj h hmin hlo.le hrF hncLo hncHi false
      exact ⟨m, by simp only [hw]; exact hm, hspec⟩
    case pos =>
      obtain ⟨bt, hmerge, hrep, hadj, hl, hnc1, hnc2, hkeep⟩ := merge_left adj h hhi hlF hncHi hw
      by_cases hcequal : cleft.startblock = cright.startblock ∧ cleft.blockcount = cright.blockcount
      · exact ⟨_, by simp [hw, hmerge, hcequal], hadj.mergeSpec hrep (fun _ => ⟨hnc1, hnc2⟩) true⟩
      obtain ⟨m, hm, ⟨bt3, hcur⟩, ⟨C', hrep', hadj'⟩, hnc⟩ :=
        refcountTryMergeRight_spec (c := c.setBt bt) adj hrep (by omega) hl.inner_end
          (hrF.behind h hl hcequal hkeep) hnc1 hnc2 true
      refine ⟨m, ?_, ⟨bt3, by rw [hcur, RefcCur.setBt_setBt]⟩,
        ⟨C', hrep', by simpa using hadj.trans hadj'⟩, hnc⟩
      have hc' : (decide (cleft.startblock = cright.startblock) &&
          decide (cleft.blockcount = cright.blockcount)) = false := by
        simpa using hcequal
      simp only [hw, hmerge, hc']
      exact hm

end

theorem refcountMergeExtents_spec (adj : RefcAdjustOp) (h : Rep g .shared C other c.bt.recs)
    (hmin : g.minGbno ≤ lo) (hlo : lo < hi) (hhi : hi ≤ g.blockCount)
    (hncLo : NoCross .shared c.bt.recs lo) (hncHi : NoCross .shared c.bt.recs hi) :
    ∃ m, refcountMergeExtents g c .shared lo (hi - lo) adj = .ok m ∧
      MergeSpec g adj C other c lo hi m := by
  have hg := g.blockCount_lt
  obtain ⟨bt1, left, cleft, hfindL, hrecs1, hL⟩ :=
    refcountFindLeftExtents_spec h hlo (by omega) hncLo hncHi
  have h1 : Rep g .shared C other (c.setBt bt1).bt.recs := by rwa [RefcCur.setBt_bt, hrecs1]
  obtain ⟨bt, right, cright, hfindR, hrecs2, hR⟩ :=
    refcountFindRightExtents_spec h1 hlo (by omega) (by rwa [RefcCur.setBt_bt, hrecs1])
      (by rwa [RefcCur.setBt_bt, hrecs1])
  have hrecs : bt.recs = c.bt.recs := hrecs2.trans hrecs1
  rw [← hrecs] at hL h hncLo hncHi
  rw [← hrecs2] at hR
  obtain ⟨m, hm, ⟨bt', hcur⟩, hmap, hnc⟩ :=
    refcountMergeFound_spec (c := c.setBt bt) adj h hmin hlo hhi
      (hL.imp_left fun hnull => ⟨hnull.1, hnull.2.1⟩)
      (hR.imp_left fun hnull => ⟨hnull.1, hnull.2.1⟩) hncLo hncHi
  refine ⟨m, ?_, ⟨bt', hcur⟩, hmap, hnc⟩
  simp only [refcountMergeExtents, hfindL, hfindR, ok_bind]
  exact hm

end Xfs
