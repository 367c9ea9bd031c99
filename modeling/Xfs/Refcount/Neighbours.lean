import Xfs.Refcount.Split

/-! The extents on both shoulders of the range and those just inside it. -/
namespace Xfs

open Option RecordCursor Cursor

variable {g : Group} {d : RefcDomain} {C : Nat → Option Nat} {other : RefcountIrec → Prop}
  {c : RefcCur} {r left cleft right cright : RefcountIrec} {lo hi : Nat}
  {recs : List RefcountIrec}

def RealOrGap (d : RefcDomain) (C : Nat → Option Nat) (recs : List RefcountIrec)
    (r : RefcountIrec) : Prop :=
  r.domain = d ∧ 0 < r.blockcount ∧
    (r ∈ recs ∨ r.refcount = 1 ∧ ∀ b, r.Covers b → C b = none)

/-- `left` ends where the range starts, and `cleft` is the extent it starts with. -/
structure LeftPair (d : RefcDomain) (C : Nat → Option Nat) (recs : List RefcountIrec)
    (lo hi : Nat) (left cleft : RefcountIrec) : Prop where
  left_mem : left ∈ recs
  left_domain : left.domain = d
  left_end : left.startblock + left.blockcount = lo
  inner : RealOrGap d C recs cleft
  inner_start : cleft.startblock = lo
  inner_end : lo + cleft.blockcount ≤ hi
  maximal : cleft ∉ recs → lo + cleft.blockcount = hi ∨ C (lo + cleft.blockcount) ≠ none

/-- `right` starts where the range ends, and `cright` is the extent it ends with. -/
structure RightPair (d : RefcDomain) (C : Nat → Option Nat) (recs : List RefcountIrec)
    (lo hi : Nat) (right cright : RefcountIrec) : Prop where
  right_mem : right ∈ recs
  right_domain : right.domain = d
  right_start : right.startblock = hi
  inner : RealOrGap d C recs cright
  inner_start : lo ≤ cright.startblock
  inner_end : cright.startblock + cright.blockcount = hi
  maximal : cright ∉ recs → cright.startblock = lo ∨ C (cright.startblock - 1) ≠ none

theorem LeftPair.bounds (h : Rep g d C other recs) (hl : LeftPair d C recs lo hi left cleft) :
    0 < left.blockcount ∧ g.minGbno ≤ left.startblock ∧ left.startblock + left.blockcount = lo ∧
      cleft.startblock = lo ∧ 0 < cleft.blockcount ∧ lo + cleft.blockcount ≤ hi :=
  have hb := h.wf.bounds hl.left_mem
  ⟨hb.1, hb.2.1, hl.left_end, hl.inner_start, hl.inner.2.1, hl.inner_end⟩

theorem RightPair.bounds (h : Rep g d C other recs) (hr : RightPair d C recs lo hi right cright) :
    0 < right.blockcount ∧ right.startblock + right.blockcount ≤ g.blockCount ∧
      right.startblock + right.blockcount < 2 ^ 31 ∧ right.startblock = hi ∧
      lo ≤ cright.startblock ∧ 0 < cright.blockcount ∧
      cright.startblock + cright.blockcount = hi :=
  have hb := h.wf.bounds hr.right_mem
  ⟨hb.1, hb.2.2.1, hb.2.2.2, hr.right_start, hr.inner_start, hr.inner.2.1, hr.inner_end⟩

theorem Rep.none_of_outside (h : Rep g d C other recs) {m : Nat}
    (hout : ∀ s ∈ recs, s.domain = d → s.startblock + s.blockcount ≤ lo ∨ m ≤ s.startblock)
    {b : Nat} (hlo : lo ≤ b) (hm : b < m) : C b = none := by
  cases hb : C b with
  | none => rfl
  | some k =>
    obtain ⟨s, hs, hsd, ⟨h1, h2⟩, -⟩ := (h.cover b k).mp hb
    have := hout s hs hsd
    omega

section

variable (h : Rep g d C other c.bt.recs) (hlo : lo < hi) (hhi : hi < 2 ^ 31)
  (hncLo : NoCross d c.bt.recs lo) (hncHi : NoCross d c.bt.recs hi)
include h hlo hhi hncLo hncHi

theorem refcountFindLeftExtents_spec : ∃ bt left cleft,
      refcountFindLeftExtents g c d lo (hi - lo) = .ok (c.setBt bt, left, cleft) ∧
        bt.recs = c.bt.recs ∧
        ((left = nullIrec ∧ cleft = nullIrec ∧
            ∀ s ∈ c.bt.recs, s.domain = d → s.startblock + s.blockcount ≠ lo) ∨
          LeftPair d C c.bt.recs lo hi left cleft) := by
  obtain ⟨m, hm, hmod, hmlo⟩ : ∃ m, m < 2 ^ 31 ∧ sub32 lo 1 % 2 ^ 31 = m ∧
      (0 < lo → m = lo - 1) := by
    refine ⟨sub32 lo 1 % 2 ^ 31, Nat.mod_lt _ (by norm_num), rfl, fun hpos => ?_⟩
    rw [sub32_eq hpos (by omega)]
    omega
  obtain ⟨bt, hlookup, hrecs, hsome, hnone⟩ := refcountLookupLe_cases h.wf hm hmod
  -- a record that starts behind the block looked up does not end at `lo`
  have hbehind : ∀ s ∈ c.bt.recs, m < s.startblock → s.startblock + s.blockcount ≠ lo := by
    intro s hs hlt
    have := h.wf.bounds hs
    omega
  have hwfBt : RefcWF g d bt.recs := hrecs ▸ h.wf
  simp only [refcountFindLeftExtents, hlookup]
  rw [getRecFound_inDomain hwfBt]
  cases hfound : inDomain d bt with
  | none =>
    exact ⟨bt, nullIrec, nullIrec, rfl, hrecs,
      .inl ⟨rfl, rfl, fun s hs hsd => hbehind s hs (hnone hfound s hs hsd)⟩⟩
  | some left =>
    obtain ⟨hr, hdom⟩ := inDomain_some.mp hfound
    obtain ⟨hle, hmax⟩ := hsome left hfound
    rw [elim_some]
    have hmem : left ∈ c.bt.recs := hrecs ▸ mem_of_rec? hr
    have hlb := h.wf.bounds hmem
    have hnext' : refcNext left = left.startblock + left.blockcount := refcNext_eq h.wf hmem
    by_cases hend : refcNext left = lo
    case neg =>
      refine ⟨bt, nullIrec, nullIrec, if_pos hend, hrecs, .inl ⟨rfl, rfl, fun s hs hsd hsend => ?_⟩⟩
      -- the record found is the last one that starts before `lo`
      have hsm : s.startblock ≤ m := not_lt.mp fun hlt => hbehind s hs hlt hsend
      have hlast := hmax s hs hsd hsm
      have hne : s ≠ left := fun he => hend (by rw [hnext', ← he, hsend])
      have hsb := h.wf.bounds hs
      rcases h.wf.disjoint s hs left hmem hsd hdom hne with hlt | hlt <;> omega
    case pos =>
    have hleftEnd : left.startblock + left.blockcount = lo := hnext' ▸ hend
    -- stepping right seeks the place of `lo`
    have hseek : Seek refcKey bt.increment.1 (refcountEncodeStartblock lo d) :=
      hleftEnd ▸ seek_increment_end hwfBt hr hdom
    have hwfInc : RefcWF g d bt.increment.1.recs := hwfBt
    obtain ⟨htmp, hnoTmp⟩ := seek_cases hwfInc (by omega) hseek
    simp only [hend, ne_eq, not_true_eq_false, if_false, increment_setBt]
    rw [getRecFound_inDomain hwfInc]
    have hpairGap : ∀ n, 0 < n → lo + n ≤ hi →
        (∀ s ∈ c.bt.recs, s.domain = d → lo ≤ s.startblock → lo + n ≤ s.startblock) →
        (lo + n = hi ∨ C (lo + n) ≠ none) →
        LeftPair d C c.bt.recs lo hi left ⟨lo, n, 1, d⟩ := by
      intro n hpos hle hafter hmax'
      refine ⟨hmem, hdom, hleftEnd, ⟨rfl, hpos, .inr ⟨rfl, fun b hb => ?_⟩⟩, rfl, hle,
        fun _ => hmax'⟩
      refine h.none_of_outside (fun s hs hsd => ?_) hb.1 hb.2
      have := hncLo s hs hsd
      by_cases hside : lo ≤ s.startblock
      · exact .inr (hafter s hs hsd hside)
      · exact .inl (show s.startblock + s.blockcount ≤ lo by omega)
    cases hnext : inDomain d bt.increment.1 with
    | none =>
      refine ⟨bt.increment.1, left, ⟨lo, hi - lo, 1, d⟩, rfl, hrecs,
        .inr (hpairGap (hi - lo) (by omega) (by omega) (fun s hs hsd hside => ?_)
          (.inl (by omega)))⟩
      have := hnoTmp hnext s (hrecs ▸ hs) hsd
      omega
    | some tmp =>
      obtain ⟨hrt, htd⟩ := inDomain_some.mp hnext
      obtain ⟨htlo, htmin⟩ := htmp tmp hnext
      rw [elim_some]
      have htmem : tmp ∈ c.bt.recs := by
        have hin : tmp ∈ bt.increment.1.recs := mem_of_rec? hrt
        rwa [increment_recs, hrecs] at hin
      have htb := h.wf.bounds htmem
      by_cases hts : tmp.startblock = lo
      · refine ⟨bt.increment.1, left, tmp, if_pos hts, hrecs, .inr
          ⟨hmem, hdom, hleftEnd, ⟨htd, htb.1, .inl htmem⟩, hts, ?_, fun hf => absurd htmem hf⟩⟩
        have := hncHi tmp htmem htd
        omega
      have hsub : sub32 tmp.startblock lo = tmp.startblock - lo :=
        sub32_eq htlo (by omega)
      refine ⟨bt.increment.1, left, ⟨lo, min (hi - lo) (tmp.startblock - lo), 1, d⟩,
        by rw [if_neg hts, hsub]; rfl, hrecs, .inr ?_⟩
      refine hpairGap _ (by omega) (by omega) (fun s hs hsd hside => ?_) ?_
      · have := htmin s (hrecs ▸ hs) hsd hside
        omega
      · by_cases hcase : hi ≤ tmp.startblock
        · left
          omega
        · right
          have hat : lo + min (hi - lo) (tmp.startblock - lo) = tmp.startblock := by omega
          rw [hat, h.start_of_mem htmem htd]
          simp

theorem refcountFindRightExtents_spec : ∃ bt right cright,
      refcountFindRightExtents g c d lo (hi - lo) = .ok (c.setBt bt, right, cright) ∧
        bt.recs = c.bt.recs ∧
        ((right = nullIrec ∧ cright = nullIrec ∧
            ∀ s ∈ c.bt.recs, s.domain = d → s.startblock ≠ hi) ∨
          RightPair d C c.bt.recs lo hi right cright) := by
  have hsum : add32 lo (hi - lo) = hi := by
    rw [add32_eq (by omega)]
    omega
  obtain ⟨bt, hlookup, hrecs, hseek⟩ := refcountLookupGe_eq c d hi
  have hwfBt : RefcWF g d bt.recs := hrecs ▸ h.wf
  obtain ⟨hsome, hnone⟩ := seek_cases hwfBt hhi hseek
  simp only [refcountFindRightExtents, hsum, hlookup]
  rw [getRecFound_inDomain hwfBt]
  cases hfound : inDomain d bt with
  | none =>
    exact ⟨bt, nullIrec, nullIrec, rfl, hrecs,
      .inl ⟨rfl, rfl, fun s hs hsd => (hnone hfound s (hrecs ▸ hs) hsd).ne⟩⟩
  | some right =>
    obtain ⟨hr, hdom⟩ := inDomain_some.mp hfound
    obtain ⟨hge, hmin⟩ := hsome right hfound
    rw [elim_some]
    have hmem : right ∈ c.bt.recs := hrecs ▸ mem_of_rec? hr
    by_cases hstart : right.startblock = hi
    case neg =>
      refine ⟨bt, nullIrec, nullIrec, if_pos hstart, hrecs,
        .inl ⟨rfl, rfl, fun s hs hsd hshi => ?_⟩⟩
      have := hmin s (hrecs ▸ hs) hsd hshi.ge
      omega
    case pos =>
    simp only [hstart, ne_eq, not_true_eq_false, if_false, decrement_setBt]
    rw [getRecFound_inDomain (show RefcWF g d bt.decrement.1.recs from hwfBt)]
    have hpairGap : ∀ m, lo ≤ m → m < hi → (∀ s ∈ c.bt.recs, s.domain = d → s.startblock < hi →
          s.startblock + s.blockcount ≤ m) →
        (m = lo ∨ C (m - 1) ≠ none) →
        RightPair d C c.bt.recs lo hi right ⟨m, hi - m, 1, d⟩ := by
      intro m hle hlt hbefore hmax
      refine ⟨hmem, hdom, hstart, ⟨rfl, by simp only; omega, .inr ⟨rfl, fun b hb => ?_⟩⟩, hle,
        by simp only; omega, fun _ => hmax⟩
      simp only [RefcountIrec.Covers] at hb
      refine h.none_of_outside (m := hi) (fun s hs hsd => ?_) hb.1 (by omega)
      by_cases hside : hi ≤ s.startblock
      · exact .inr hside
      · exact .inl (hbefore s hs hsd (not_le.mp hside))
    -- records of the domain in front of `right` are in front of it in the btree
    have hfront : ∀ s ∈ c.bt.recs, s.domain = d → s.startblock < hi →
        refcKey s < refcKey right := fun s hs hsd hside =>
      (h.wf.key_lt_iff hs hmem).mpr (.inr ⟨hsd.trans hdom.symm, by omega⟩)
    cases hnext : inDomain d bt.decrement.1 with
    | none =>
      refine ⟨bt.decrement.1, right, ⟨lo, hi - lo, 1, d⟩, rfl, hrecs,
        .inr (hpairGap lo le_rfl hlo (fun s hs hsd hside => ?_) (.inl rfl))⟩
      have hkey := hfront s hs hsd hside
      cases hrt : bt.decrement.1.rec? with
      | none =>
        have := decrement_rec?_none hwfBt.ordered hr hrt s (hrecs ▸ hs)
        omega
      | some tmp =>
        -- the record before `right` is of the other domain, so `right` is the first
        have htd := inDomain_none hnext hrt
        obtain ⟨htmem, htlt, htmax⟩ := decrement_rec?_some hwfBt.ordered hr hrt
        rw [hrecs] at htmem htmax
        have hle := htmax s hs hkey
        rw [h.wf.key_lt_iff htmem hmem] at htlt
        have hside' : refcKey tmp < refcKey s := by
          refine (h.wf.key_lt_iff htmem hs).mpr (.inl ?_)
          rcases htlt with ⟨h1, h2⟩ | ⟨h1, -⟩
          · exact ⟨h1, by rw [hsd, ← hdom, h2]⟩
          · exact absurd (h1.trans hdom) htd
        omega
    | some tmp =>
      obtain ⟨hrt, htd⟩ := inDomain_some.mp hnext
      rw [elim_some]
      obtain ⟨htmem, htlt, htmax⟩ := decrement_rec?_some hwfBt.ordered hr hrt
      rw [hrecs] at htmem htmax
      have htb := h.wf.bounds htmem
      have htNext : refcNext tmp = tmp.startblock + tmp.blockcount := refcNext_eq h.wf htmem
      have htStart : tmp.startblock < hi := by
        rw [h.wf.key_lt_iff htmem hmem] at htlt
        rcases htlt with ⟨h1, h2⟩ | ⟨-, h2⟩
        · rw [htd.symm.trans h1] at hdom
          rw [hdom] at h2
          cases h2
        · omega
      have htEnd : tmp.startblock + tmp.blockcount ≤ hi := by
        have := hncHi tmp htmem htd
        omega
      have htLast : ∀ s ∈ c.bt.recs, s.domain = d → s.startblock < hi →
          s.startblock + s.blockcount ≤ tmp.startblock + tmp.blockcount := by
        intro s hs hsd hside
        have hle := htmax s hs (hfront s hs hsd hside)
        by_cases hst : s = tmp
        · rw [hst]
        · have hnot := mt (h.wf.key_lt_iff htmem hs).mpr (by omega)
          simp only [htd.trans hsd.symm, true_and, not_or] at hnot
          have := h.wf.disjoint s hs tmp htmem hsd htd hst
          omega
      by_cases hte : refcNext tmp = hi
      · refine ⟨bt.decrement.1, right, tmp, if_pos hte, hrecs, .inr
          ⟨hmem, hdom, hstart, ⟨htd, htb.1, .inl htmem⟩, ?_, by omega, fun hf => absurd htmem hf⟩⟩
        have := hncLo tmp htmem htd
        omega
      have hsub : sub32 hi (max lo (tmp.startblock + tmp.blockcount)) =
          hi - max lo (tmp.startblock + tmp.blockcount) := sub32_eq (by omega) (by omega)
      refine ⟨bt.decrement.1, right, ⟨max lo (tmp.startblock + tmp.blockcount),
          hi - max lo (tmp.startblock + tmp.blockcount), 1, d⟩,
        by rw [if_neg hte, htNext, hsub]; rfl, hrecs, .inr ?_⟩
      refine hpairGap _ (by omega) (by omega) (fun s hs hsd hside => ?_) ?_
      · have := htLast s hs hsd hside
        omega
      · by_cases hcase : tmp.startblock + tmp.blockcount ≤ lo
        · left
          omega
        · right
          rw [h.of_mem htmem htd ⟨by omega, by omega⟩]
          simp

end

end Xfs
