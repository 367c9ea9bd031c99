import Xfs.Refcount.CowAdjust

/-! When adding and removing reservations is right: the whole of `xfs_refcount_adjust_cow`. -/
namespace Xfs

open RecordCursor

variable {g : Group} {C : Nat → Option Nat} {other : RefcountIrec → Prop} {c : RefcCur}
  {recs recs' recs'' : List RefcountIrec} {lo hi agbno aglen : Nat}

theorem PartsKept.trans (h1 : PartsKept recs recs' lo hi) (h2 : PartsKept recs' recs'' lo hi) :
    PartsKept recs recs'' lo hi := by
  rintro r hr hd ⟨b, hb1, hb2, hb⟩
  obtain ⟨r', hr', hd', hsame⟩ := h1 r hr hd ⟨b, hb1, hb2, hb⟩
  obtain ⟨r'', hr'', hd'', hsame'⟩ := h2 r' hr' hd' ⟨b, hb1, hb2, (hsame b hb1 hb2).mpr hb⟩
  exact ⟨r'', hr'', hd'', fun b h1 h2 => (hsame' b h1 h2).trans (hsame b h1 h2)⟩

theorem NoCross.meets_iff (h : Rep g .cow C other recs) (hnc' : NoCross .cow recs lo)
    {s : RefcountIrec} (hs : s ∈ recs) (hsd : s.domain = .cow) :
    s.Meets lo hi ↔ lo ≤ s.startblock ∧ s.startblock < hi := by
  have hsb := h.wf.bounds hs
  have hnc := hnc' s hs hsd
  constructor
  · rintro ⟨b, h1, h2, h3, h4⟩
    omega
  · rintro ⟨h1, h2⟩
    exact ⟨s.startblock, h1, h2, le_rfl, by omega⟩

/-- The record set after the splits, with what the two searches find in it. -/
structure CowReady (g : Group) (C : Nat → Option Nat) (other : RefcountIrec → Prop) (c : RefcCur)
    (lo hi : Nat) (bt : Cursor RefcountIrec) (left cleft right cright : RefcountIrec) : Prop where
  rep : Rep g .cow C other bt.recs
  noCrossLo : NoCross .cow bt.recs lo
  noCrossHi : NoCross .cow bt.recs hi
  parts : PartsKept c.bt.recs bt.recs lo hi
  swallowed : Swallowed c.bt.recs lo hi ↔ Swallowed bt.recs lo hi
  leftSide : LeftSide C bt.recs lo hi left cleft
  rightSide : RightSide C bt.recs lo hi right cright
  run : ∀ adj, refcountAdjustCow g c lo (hi - lo) adj =
    (refcountMergeFound g (c.setBt bt) left cleft right cright lo (hi - lo) adj >>=
      fun m => refcountAdjustCowExtents g m.cur m.agbno m.aglen adj)

section

variable (h : Rep g .cow C other c.bt.recs)
include h

theorem cowReady_of_rep (hlo : lo < hi) (hhi : hi ≤ g.blockCount) :
    ∃ bt left cleft right cright, CowReady g C other c lo hi bt left cleft right cright := by
  have hg := g.blockCount_lt
  have hsum : add32 lo (hi - lo) = hi := by
    rw [add32_eq (by omega)]
    omega
  obtain ⟨bt1, ch1, hsplit1, hrep1, hnc1, -, hat1⟩ :=
    refcountSplitExtent_spec (n := lo) h (by omega)
  obtain ⟨bt2, ch2, hsplit2, hrep2, hnc2, hkeep2, hat2⟩ :=
    refcountSplitExtent_spec (c := c.setBt bt1) (n := hi) hrep1 (by omega)
  have hncLo := hkeep2 lo hnc1
  obtain ⟨bt3, left, cleft, hfindL, hrecs3, hL⟩ := refcountFindLeftExtents_spec
    (c := c.setBt bt2) hrep2 hlo (by omega) hncLo hnc2
  simp only [RefcCur.setBt_setBt, RefcCur.setBt_bt] at hsplit2 hfindL hrecs3 hL hat2
  have hrep3 : Rep g .cow C other bt3.recs := hrecs3 ▸ hrep2
  obtain ⟨bt4, right, cright, hfindR, hrecs4, hR⟩ := refcountFindRightExtents_spec
    (c := c.setBt bt3) hrep3 hlo (by omega)
    (show NoCross .cow bt3.recs lo by rw [hrecs3]; exact hncLo)
    (show NoCross .cow bt3.recs hi by rw [hrecs3]; exact hnc2)
  have hrecs : bt4.recs = bt2.recs := hrecs4.trans hrecs3
  rw [← hrecs] at hncLo hnc2 hL hat2
  rw [← hrecs4] at hR
  have hrep : Rep g .cow C other bt4.recs := hrecs4 ▸ hrep3
  have hstaged1 : ∀ b, Staged c.bt.recs b ↔ Staged bt1.recs b := fun b => by
    rw [h.staged_iff, hrep1.staged_iff]
  have hstaged2 : ∀ b, Staged bt1.recs b ↔ Staged bt4.recs b := fun b => by
    rw [hrep1.staged_iff, hrep.staged_iff]
  refine ⟨bt4, left, cleft, right, cright, hrep, hncLo, hnc2,
    (hat1.partsKept (.inl le_rfl)).1.trans (hat2.partsKept (.inr le_rfl)).1,
    (hat1.swallowed_iff (.inl le_rfl) hlo hstaged1).trans
      (hat2.swallowed_iff (.inr le_rfl) hlo hstaged2), hL, hR, fun adj => ?_⟩
  simp [refcountAdjustCow, hsum, hsplit1, hsplit2, refcountMergeExtents, hfindL, hfindR]

theorem refcountAdjustCow_alloc_free (hmin : g.minGbno ≤ lo) (hlo : lo < hi)
    (hhi : hi ≤ g.blockCount) (hfree : ∀ b, lo ≤ b → b < hi → C b = none) :
    ∃ c', refcountAdjustCow g c lo (hi - lo) .cowAlloc = .ok c' ∧
      Rep g .cow (setRange C lo (hi - lo) (some 1)) other c'.bt.recs := by
  obtain ⟨bt, left, cleft, right, cright, hready⟩ := cowReady_of_rep h hlo hhi
  have hrep := hready.rep
  obtain ⟨m, hm, hcase⟩ := refcountMergeFound_cowAlloc_free (c := c.setBt bt) hrep hmin hlo hhi
    hfree hready.leftSide hready.rightSide
  rw [hready.run, hm]
  simp only [ok_bind]
  rcases hcase with rfl | ⟨hz, hrep'⟩
  · have hgap := hrep.gap hfree
    rw [(refcountAdjustCowExtents_alloc hrep.wf hlo hhi (Regrown.refl hrep.wf.check)).2 hgap]
    obtain ⟨bt1, hlookup, hrecs1, hseek⟩ := refcountLookupGe_eq (c.setBt bt) .cow lo
    have hcheck : refcountCheckIrec g ⟨lo, hi - lo, 1, .cow⟩ :=
      refcountCheckIrec_iff.mpr ⟨by simp only; omega, hmin, by simp only; omega, Nat.one_pos,
        by simp only [refcRefcountMax]; omega, fun _ => rfl, fun hd => by cases hd⟩
    have hrep1 : Rep g .cow C other ((c.setBt bt).setBt bt1).bt.recs := by
      simp only [RefcCur.setBt_bt, hrecs1]
      exact hrep
    obtain ⟨bt2, hins, hrep2, -⟩ := refcountInsert_spec (x := ⟨lo, hi - lo, 1, .cow⟩) hrep1
      hseek rfl hcheck (fun b hb => hfree b hb.1 (by
        have := hb.2
        simp only at this
        omega))
    rw [hlookup]
    exact ⟨_, hins, hrep2⟩
  · refine ⟨m.cur, ?_, hrep'⟩
    rw [hz]
    simp [refcountAdjustCowExtents]

theorem refcountAdjustCow_alloc_staged (hmin : g.minGbno ≤ lo) (hlo : lo < hi)
    (hhi : hi ≤ g.blockCount) (hmeet : ∃ r ∈ c.bt.recs, r.domain = .cow ∧ r.Meets lo hi) :
    (¬ Swallowed c.bt.recs lo hi →
      refcountAdjustCow g c lo (hi - lo) .cowAlloc = .error .efscorrupted) ∧
    (Swallowed c.bt.recs lo hi → ∃ c', refcountAdjustCow g c lo (hi - lo) .cowAlloc = .ok c') := by
  obtain ⟨bt, left, cleft, right, cright, hready⟩ := cowReady_of_rep h hlo hhi
  have hrep := hready.rep
  obtain ⟨m, hm, hmerged⟩ := refcountMergeFound_cowAlloc (c := c.setBt bt) hrep hmin hlo hhi
    hready.noCrossLo hready.noCrossHi hready.leftSide hready.rightSide
  have h1 := hmerged.lo_le
  have h2 := hmerged.le_hi
  have hinside : ∀ s ∈ bt.recs, s.domain = .cow →
      (s.Meets lo hi ↔ lo ≤ s.startblock ∧ s.startblock < hi) := fun s hs hsd =>
    hready.noCrossLo.meets_iff hrep hs hsd
  rw [hready.run, hm]
  simp only [ok_bind]
  have hmeet' : ∃ r ∈ bt.recs, r.domain = .cow ∧ r.Meets lo hi := by
    obtain ⟨r, hr, hd, b, hb1, hb2, hb⟩ := hmeet
    obtain ⟨r', hr', hd', hsame⟩ := hready.parts r hr hd ⟨b, hb1, hb2, hb⟩
    exact ⟨r', hr', hd', b, hb1, hb2, (hsame b hb1 hb2).mpr hb⟩
  constructor
  · intro hnot
    -- a reservation that does not go on is still there
    obtain ⟨s, hs, hsd, hsm, hsr⟩ : ∃ s ∈ bt.recs, s.domain = .cow ∧ s.Meets lo hi ∧
        ¬ RunsOn bt.recs lo hi s := by
      by_contra hcon
      refine hnot (hready.swallowed.mpr ⟨hmeet', fun s hs hsd hsm => ?_⟩)
      by_contra hsr
      exact hcon ⟨s, hs, hsd, hsm, hsr⟩
    obtain ⟨hs1, hs2⟩ := (hinside s hs hsd).mp hsm
    have hleft := (hmerged.left s hs hsd hs1 hs2).mpr hsr
    have hres := (refcountAdjustCowExtents_alloc hrep.wf
      (show m.agbno < m.agbno + m.aglen by omega) (by omega)
      (hmerged.regrown (by omega))).1 ⟨s, hs, hsd, hleft⟩
    rwa [Nat.add_sub_cancel_left] at hres
  · intro hsw
    obtain ⟨-, hall⟩ := hready.swallowed.mp hsw
    rcases Nat.eq_zero_or_pos m.aglen with hz | hpos
    · rw [hz]
      exact ⟨m.cur, by simp [refcountAdjustCowExtents]⟩
    have hres := (refcountAdjustCowExtents_alloc hrep.wf
      (show m.agbno < m.agbno + m.aglen by omega) (by omega) (hmerged.regrown hpos)).2
      (fun s hs hsd hin => (hmerged.left s hs hsd (by omega) (by omega)).mp hin
        (hall s hs hsd ((hinside s hs hsd).mpr (by omega))))
    rw [Nat.add_sub_cancel_left] at hres
    rw [hres]
    exact refcountInsert_lookupGe _ _ _ _

theorem refcountAdjustCow_free (hlo : lo < hi) (hhi : hi ≤ g.blockCount) :
    ((∃ r ∈ c.bt.recs, r.domain = .cow ∧ r.startblock ≤ lo ∧ hi ≤ r.startblock + r.blockcount) →
      ∃ c', refcountAdjustCow g c lo (hi - lo) .cowFree = .ok c' ∧
        Rep g .cow (setRange C lo (hi - lo) none) other c'.bt.recs) ∧
    ∀ c', refcountAdjustCow g c lo (hi - lo) .cowFree = .ok c' →
      ∀ r, r.domain = .shared → (r ∈ c'.bt.recs ↔ r ∈ c.bt.recs) := by
  obtain ⟨bt, left, cleft, right, cright, hready⟩ := cowReady_of_rep h hlo hhi
  have hrep := hready.rep
  have hmerge : refcountMergeFound g (c.setBt bt) left cleft right cright lo (hi - lo) .cowFree =
      .ok ⟨c.setBt bt, lo, hi - lo, false⟩ := refcountMergeFound_cowFree hrep
    (hready.leftSide.imp_left fun hnull => ⟨hnull.1, hnull.2.1⟩)
    (hready.rightSide.imp_left fun hnull => ⟨hnull.1, hnull.2.1⟩)
  obtain ⟨hone, hshared⟩ := refcountAdjustCowExtents_free (c := c.setBt bt) hrep hlo hhi
  rw [hready.run, hmerge]
  constructor
  · rintro ⟨r, hr, hd, hr1, hr2⟩
    obtain ⟨r', hr', hd', hsame⟩ := hready.parts r hr hd
      ⟨lo, le_rfl, hlo, by omega, by omega⟩
    obtain ⟨h1, h2⟩ := (hsame lo le_rfl hlo).mpr ⟨by omega, by omega⟩
    obtain ⟨h3, h4⟩ := (hsame (hi - 1) (by omega) (by omega)).mpr ⟨by omega, by omega⟩
    have hnc1 := hready.noCrossLo r' hr' hd'
    have hnc2 := hready.noCrossHi r' hr' hd'
    obtain ⟨bt1, hrun, hrep1⟩ := hone ⟨r', hr', hd', by omega, by omega⟩
    exact ⟨_, hrun, hrep1⟩
  · intro c' hrun r hr
    have hnot : r.domain ≠ .cow := by rw [hr]; decide
    rw [hshared c' hrun r hr, RefcCur.setBt_bt, hrep.other r hnot, h.other r hnot]

end

theorem staged_setRange {v : Option Nat} (h : Rep g .cow C other recs)
    (h' : Rep g .cow (setRange C lo (hi - lo) v) other recs') (hlo : lo < hi) (b : Nat) :
    Staged recs' b ↔ if lo ≤ b ∧ b < hi then v ≠ none else Staged recs b := by
  rw [h'.staged_iff, h.staged_iff]
  by_cases hb : lo ≤ b ∧ b < hi
  · rw [if_pos hb, setRange_in (by omega)]
  · rw [if_neg hb, setRange_out (by omega)]

/-- Adding and removing reservations does what it should exactly if the range does not meet
reservations that all go on beyond one of its ends. -/
theorem refcount_adjust_cow_sound_iff (hwf : RefcWF g .cow c.bt.recs)
    (hrange : verifyGbext g agbno aglen = true) :
    CowAdjustSound g c agbno aglen ↔ ¬ Swallowed c.bt.recs agbno (agbno + aglen) := by
  obtain ⟨hpos, hmin, hmax⟩ := verifyGbext_iff.mp hrange
  have hlo : agbno < agbno + aglen := by omega
  have hlen : agbno + aglen - agbno = aglen := by omega
  have hrep := hwf.rep
  constructor
  · -- over swallowed reservations the call succeeds
    intro hsound hsw
    obtain ⟨r, hr, hd, b, hb1, hb2, hb⟩ := hsw.1
    obtain ⟨c', hrun⟩ := (refcountAdjustCow_alloc_staged hrep hmin hlo hmax hsw.1).2 hsw
    rw [hlen, hsound.staged ⟨b, hb1, hb2, r, hr, hd, hb⟩] at hrun
    cases hrun
  · intro hnot
    have hstaged : (∃ b, agbno ≤ b ∧ b < agbno + aglen ∧ Staged c.bt.recs b) →
        refcountAdjustCow g c agbno aglen .cowAlloc = .error .efscorrupted := by
      rintro ⟨b, hb1, hb2, r, hr, hd, hb⟩
      have hres := (refcountAdjustCow_alloc_staged hrep hmin hlo hmax
        ⟨r, hr, hd, b, hb1, hb2, hb⟩).1 hnot
      rwa [hlen] at hres
    -- a call that succeeds found the range free
    have halloc : ∀ c', refcountAdjustCow g c agbno aglen .cowAlloc = .ok c' →
        Rep g .cow (setRange (refcCover .cow c.bt.recs) agbno (agbno + aglen - agbno) (some 1))
          (fun r => r ∈ c.bt.recs) c'.bt.recs := by
      intro c' hrun
      have hfree : ∀ b, agbno ≤ b → b < agbno + aglen → refcCover .cow c.bt.recs b = none := by
        intro b hb1 hb2
        by_contra hb
        rw [hstaged ⟨b, hb1, hb2, (hrep.staged_iff b).mpr hb⟩] at hrun
        cases hrun
      obtain ⟨c1, hrun1, hrep1⟩ := refcountAdjustCow_alloc_free hrep hmin hlo hmax hfree
      rw [hlen, hrun] at hrun1
      obtain rfl := Except.ok.inj hrun1
      exact hrep1
    obtain ⟨hone, hshared⟩ := refcountAdjustCow_free hrep hlo hmax
    rw [hlen] at hone hshared
    refine ⟨fun c' hrun => ⟨(halloc c' hrun).wf, fun b => ?_⟩, hstaged, fun hex => ?_, ?_⟩
    · rw [staged_setRange hrep (halloc c' hrun) hlo b]
      by_cases hb : agbno ≤ b ∧ b < agbno + aglen <;> simp [hb]
    · obtain ⟨c', hrun, hrep'⟩ := hone hex
      refine ⟨c', hrun, fun b => ?_⟩
      rw [staged_setRange hrep (hlen.symm ▸ hrep') hlo b]
      by_cases hb : agbno ≤ b ∧ b < agbno + aglen <;> simp [hb]
    · rintro adj c' (rfl | rfl) hrun r hr
      · exact (halloc c' hrun).other r (by rw [hr]; decide)
      · exact hshared c' hrun r hr

def oneReservation : RefcCur := ⟨⟨[⟨30, 4, 2, .shared⟩, ⟨10, 10, 1, .cow⟩], 0⟩, 0, 0, 0, []⟩

/-- A range that holds the whole reservation: `COW_ALLOC` is refused. -/
theorem refcount_adjust_cow_sound_sample : CowAdjustSound sampleGroup oneReservation 9 13 := by
  refine (refcount_adjust_cow_sound_iff ⟨by unfold Ordered; decide, by decide, by decide⟩
    (by decide)).mpr ?_
  rintro ⟨-, hall⟩
  rcases hall ⟨10, 10, 1, .cow⟩ (by decide) rfl ⟨10, by decide, by decide, by decide⟩ with
    ⟨hcovers, -⟩ | ⟨hcovers, -⟩
  · exact absurd hcovers (by decide)
  · exact absurd hcovers (by decide)

/-- The second half of a reservation is reserved again, and both records stay. -/
theorem refcount_adjust_cow_twice_reserved :
    ((refcountAdjustCow sampleGroup oneReservation 15 5 .cowAlloc).map RefcCur.recs =
        .ok [⟨30, 4, 2, .shared⟩, ⟨10, 10, 1, .cow⟩, ⟨15, 5, 1, .cow⟩]) ∧
      ¬ CowAdjustSound sampleGroup oneReservation 15 5 := by
  have hrun : (refcountAdjustCow sampleGroup oneReservation 15 5 .cowAlloc).map RefcCur.recs =
      .ok [⟨30, 4, 2, .shared⟩, ⟨10, 10, 1, .cow⟩, ⟨15, 5, 1, .cow⟩] := by decide
  refine ⟨hrun, fun hsound => ?_⟩
  have hstaged : Staged oneReservation.bt.recs 15 := ⟨⟨10, 10, 1, .cow⟩, by decide, rfl, by decide⟩
  rw [hsound.staged ⟨15, le_rfl, by decide, hstaged⟩] at hrun
  cases hrun

end Xfs
