import Xfs.Refcount.Merge

/-! Reservations for copy-on-write: what `xfs_refcount_adjust_cow` does to the staged blocks.
The merge code takes a record of one reference for a gap, and every reservation has one. -/
namespace Xfs

open RecordCursor Cursor

/-- The block is reserved for copy-on-write. -/
def Staged (recs : List RefcountIrec) (b : Nat) : Prop :=
  ∃ r ∈ recs, r.domain = .cow ∧ r.Covers b

/-- The record has a block in `[lo, hi)`. -/
def RefcountIrec.Meets (r : RefcountIrec) (lo hi : Nat) : Prop :=
  ∃ b, lo ≤ b ∧ b < hi ∧ r.Covers b

/-- The reservation goes on beyond one of the ends of the range. -/
def RunsOn (recs : List RefcountIrec) (lo hi : Nat) (r : RefcountIrec) : Prop :=
  (r.Covers lo ∧ 0 < lo ∧ Staged recs (lo - 1)) ∨ (r.Covers (hi - 1) ∧ Staged recs hi)

/-- The range meets reservations, and all of them go on beyond an end of it. -/
def Swallowed (recs : List RefcountIrec) (lo hi : Nat) : Prop :=
  (∃ r ∈ recs, r.domain = .cow ∧ r.Meets lo hi) ∧
    ∀ r ∈ recs, r.domain = .cow → r.Meets lo hi → RunsOn recs lo hi r

structure CowAdjustSound (g : Group) (c : RefcCur) (agbno aglen : Nat) : Prop where
  alloc : ∀ c', refcountAdjustCow g c agbno aglen .cowAlloc = .ok c' →
    RefcWF g .cow c'.bt.recs ∧
      ∀ b, Staged c'.bt.recs b ↔ Staged c.bt.recs b ∨ agbno ≤ b ∧ b < agbno + aglen
  staged : (∃ b, agbno ≤ b ∧ b < agbno + aglen ∧ Staged c.bt.recs b) →
    refcountAdjustCow g c agbno aglen .cowAlloc = .error .efscorrupted
  free : (∃ r ∈ c.bt.recs, r.domain = .cow ∧ r.startblock ≤ agbno ∧
      agbno + aglen ≤ r.startblock + r.blockcount) →
    ∃ c', refcountAdjustCow g c agbno aglen .cowFree = .ok c' ∧
      ∀ b, Staged c'.bt.recs b ↔ Staged c.bt.recs b ∧ ¬ (agbno ≤ b ∧ b < agbno + aglen)
  shared : ∀ adj c', adj = .cowAlloc ∨ adj = .cowFree →
    refcountAdjustCow g c agbno aglen adj = .ok c' →
    ∀ r, r.domain = .shared → (r ∈ c'.bt.recs ↔ r ∈ c.bt.recs)

variable {g : Group} {d : RefcDomain} {C : Nat → Option Nat} {other : RefcountIrec → Prop}
  {c : RefcCur} {r s left cleft right cright : RefcountIrec} {lo hi n : Nat}
  {recs recs' : List RefcountIrec}

theorem Rep.staged_iff (h : Rep g .cow C other recs) (b : Nat) : Staged recs b ↔ C b ≠ none := by
  rw [Option.ne_none_iff_exists']
  constructor
  · rintro ⟨r, hr, hd, hb⟩
    exact ⟨_, h.of_mem hr hd hb⟩
  · rintro ⟨k, hk⟩
    obtain ⟨r, hr, hd, hb, -⟩ := (h.cover b k).mp hk
    exact ⟨r, hr, hd, hb⟩

/-- Every record that meets the range has a counterpart with the same blocks of the range. -/
def PartsKept (recs recs' : List RefcountIrec) (lo hi : Nat) : Prop :=
  ∀ r ∈ recs, r.domain = .cow → r.Meets lo hi → ∃ r' ∈ recs', r'.domain = .cow ∧
    ∀ b, lo ≤ b → b < hi → (r'.Covers b ↔ r.Covers b)

theorem Swallowed.of_parts (hlo : lo < hi) (hstaged : ∀ b, Staged recs b → Staged recs' b)
    (h1 : PartsKept recs recs' lo hi) (h2 : PartsKept recs' recs lo hi)
    (h : Swallowed recs lo hi) : Swallowed recs' lo hi := by
  obtain ⟨⟨r, hr, hd, b, hb1, hb2, hb⟩, hall⟩ := h
  refine ⟨?_, fun r' hr' hd' hm' => ?_⟩
  · obtain ⟨r', hr', hd', hsame⟩ := h1 r hr hd ⟨b, hb1, hb2, hb⟩
    exact ⟨r', hr', hd', b, hb1, hb2, (hsame b hb1 hb2).mpr hb⟩
  · obtain ⟨s, hs, hsd, hsame⟩ := h2 r' hr' hd' hm'
    obtain ⟨b', hb1', hb2', hb'⟩ := hm'
    rcases hall s hs hsd ⟨b', hb1', hb2', (hsame b' hb1' hb2').mpr hb'⟩ with
      ⟨hcov, hpos, hst⟩ | ⟨hcov, hst⟩
    · exact .inl ⟨(hsame lo le_rfl hlo).mp hcov, hpos, hstaged _ hst⟩
    · exact .inr ⟨(hsame (hi - 1) (by omega) (by omega)).mp hcov, hstaged _ hst⟩

theorem SplitAt.partsKept (h : SplitAt .cow n recs recs') (hn : n ≤ lo ∨ hi ≤ n) :
    PartsKept recs recs' lo hi ∧ PartsKept recs' recs lo hi := by
  rcases h with rfl | ⟨r, hr, hd, hlt, hgt, hmem⟩
  · exact ⟨fun s hs hsd _ => ⟨s, hs, hsd, fun _ _ _ => Iff.rfl⟩,
      fun s hs hsd _ => ⟨s, hs, hsd, fun _ _ _ => Iff.rfl⟩⟩
  obtain ⟨start, len, refs, dom⟩ := r
  simp only at hd hlt hgt hmem
  subst hd
  constructor
  · intro s hs hsd hm
    by_cases hsr : s = ⟨start, len, refs, .cow⟩
    · rcases hn with hle | hle
      · refine ⟨_, (hmem _).mpr (.inr (.inl rfl)), rfl, fun b h1 h2 => ?_⟩
        simp only [hsr, RefcountIrec.Covers]
        omega
      · refine ⟨_, (hmem _).mpr (.inl rfl), rfl, fun b h1 h2 => ?_⟩
        simp only [hsr, RefcountIrec.Covers]
        omega
    · exact ⟨s, (hmem s).mpr (.inr (.inr ⟨hs, hsr⟩)), hsd, fun _ _ _ => Iff.rfl⟩
  · rintro s hs hsd ⟨b0, h01, h02, hcov⟩
    rcases (hmem s).mp hs with rfl | rfl | ⟨hs, -⟩
    · refine ⟨_, hr, rfl, fun b h1 h2 => ?_⟩
      simp only [RefcountIrec.Covers] at hcov ⊢
      omega
    · refine ⟨_, hr, rfl, fun b h1 h2 => ?_⟩
      simp only [RefcountIrec.Covers] at hcov ⊢
      omega
    · exact ⟨s, hs, hsd, fun _ _ _ => Iff.rfl⟩

theorem SplitAt.swallowed_iff (h : SplitAt .cow n recs recs') (hn : n ≤ lo ∨ hi ≤ n) (hlo : lo < hi)
    (hstaged : ∀ b, Staged recs b ↔ Staged recs' b) :
    Swallowed recs lo hi ↔ Swallowed recs' lo hi := by
  obtain ⟨h1, h2⟩ := h.partsKept hn
  exact ⟨Swallowed.of_parts hlo (fun b => (hstaged b).mp) h1 h2,
    Swallowed.of_parts hlo (fun b => (hstaged b).mpr) h2 h1⟩

theorem refcMergeRefcount_cow (h : r.refcount = 1) :
    refcMergeRefcount r .cowAlloc = 1 ∧ refcMergeRefcount r .cowFree = 0 := by
  unfold refcMergeRefcount
  rw [h]
  decide

theorem refcWantMergeLeft_null (adj : RefcAdjustOp) :
    refcWantMergeLeft nullIrec nullIrec adj = false := by
  simp [refcWantMergeLeft, refcValid_nullIrec]

theorem refcountTryMergeRight_null (m : MergeResult) (adj : RefcAdjustOp) :
    refcountTryMergeRight g m nullIrec nullIrec adj = .ok m := by
  simp [refcountTryMergeRight, refcWantMergeRight, refcValid_nullIrec]

section

variable (h : Rep g .cow C other recs)
include h

theorem Rep.cow_refcount (hr : r ∈ recs) (hd : r.domain = .cow) : r.refcount = 1 :=
  (refcountCheckIrec_iff.mp (h.wf.check r hr)).2.2.2.2.2.1 hd

theorem RealOrGap.cow_refcount (hr : RealOrGap .cow C recs r) : r.refcount = 1 := by
  obtain ⟨hd, -, hmem | ⟨hone, -⟩⟩ := hr
  · exact h.cow_refcount hmem hd
  · exact hone

variable (hl : LeftPair .cow C recs lo hi left cleft) (hr : RightPair .cow C recs lo hi right cright)

section

include hl

theorem LeftPair.counts : left.refcount = 1 ∧ refcMergeRefcount cleft .cowAlloc = 1 ∧
    refcMergeRefcount cleft .cowFree = 0 :=
  ⟨h.cow_refcount hl.left_mem hl.left_domain, refcMergeRefcount_cow (hl.inner.cow_refcount h)⟩

theorem LeftPair.want (hhi : hi < 2 ^ 31) :
    refcValid left ∧ refcValid cleft ∧ refcWantMergeLeft left cleft .cowAlloc := by
  have hb := hl.bounds h
  have hv := refcValid_of_lt (r := left) (by omega)
  have hv' := refcValid_of_lt (r := cleft) (by omega)
  have hlen : left.blockcount + cleft.blockcount < refcLenMax := by unfold refcLenMax; omega
  refine ⟨hv, hv', ?_⟩
  simp [refcWantMergeLeft, hv, hv', hlen, hl.counts h]

theorem LeftPair.staged : 0 < lo ∧ Staged recs (lo - 1) := by
  have hb := hl.bounds h
  exact ⟨by omega, left, hl.left_mem, hl.left_domain, by omega, by omega⟩

theorem LeftPair.start_lt_iff (hs : s ∈ recs) (hsd : s.domain = .cow) (hlo : lo ≤ s.startblock) :
    s.startblock < lo + cleft.blockcount ↔ s.Covers lo := by
  have hsb := h.wf.bounds hs
  have hb := hl.bounds h
  constructor
  · intro hlt
    have hcov : cleft.Covers s.startblock := ⟨by omega, by omega⟩
    have hmem := (hl.inner.mem_iff h hcov).mpr (by rw [h.start_of_mem hs hsd]; simp)
    rw [h.wf.eq_of_covers hs hmem hsd hl.inner.1 ⟨le_rfl, by omega⟩ hcov]
    exact ⟨by omega, by omega⟩
  · rintro ⟨h1, -⟩
    omega

theorem LeftPair.check_grown (hhi : hi ≤ g.blockCount) :
    refcountCheckIrec g { left with blockcount := left.blockcount + cleft.blockcount } := by
  have hlc := refcountCheckIrec_iff.mp (h.wf.check left hl.left_mem)
  have hb := hl.bounds h
  exact refcountCheckIrec_iff.mpr ⟨by simp only; omega, hlc.2.1, by simp only; omega, hlc.2.2.2⟩

end

section

include hr

theorem RightPair.counts : right.refcount = 1 ∧ refcMergeRefcount cright .cowAlloc = 1 ∧
    refcMergeRefcount cright .cowFree = 0 :=
  ⟨h.cow_refcount hr.right_mem hr.right_domain, refcMergeRefcount_cow (hr.inner.cow_refcount h)⟩

theorem RightPair.want :
    refcValid right ∧ refcValid cright ∧ refcWantMergeRight cright right .cowAlloc := by
  have hb := hr.bounds h
  have hv := refcValid_of_lt (r := right) (by omega)
  have hv' := refcValid_of_lt (r := cright) (by omega)
  have hlen : right.blockcount + cright.blockcount < refcLenMax := by unfold refcLenMax; omega
  refine ⟨hv, hv', ?_⟩
  simp [refcWantMergeRight, hv, hv', hlen, hr.counts h]

theorem RightPair.staged : Staged recs hi := by
  have hb := hr.bounds h
  exact ⟨right, hr.right_mem, hr.right_domain, by omega, by omega⟩

theorem RightPair.le_start_iff (hs : s ∈ recs) (hsd : s.domain = .cow) (hhi : s.startblock < hi) :
    cright.startblock ≤ s.startblock ↔ s.Covers (hi - 1) := by
  have hsb := h.wf.bounds hs
  have hb := hr.bounds h
  constructor
  · intro hle
    have hcov : cright.Covers s.startblock := ⟨hle, by omega⟩
    have hmem := (hr.inner.mem_iff h hcov).mpr (by rw [h.start_of_mem hs hsd]; simp)
    rw [h.wf.eq_of_covers hs hmem hsd hr.inner.1 ⟨le_rfl, by omega⟩ hcov]
    exact ⟨by omega, by omega⟩
  · intro hcov
    have hcov' : cright.Covers (hi - 1) := ⟨by omega, by omega⟩
    have hmem := (hr.inner.mem_iff h hcov').mpr (by rw [h.of_mem hs hsd hcov]; simp)
    exact (congrArg RefcountIrec.startblock
      (h.wf.eq_of_covers hs hmem hsd hr.inner.1 hcov hcov')).ge

theorem RightPair.check_grown (hmin : g.minGbno ≤ lo) :
    refcountCheckIrec g { right with
      startblock := cright.startblock
      blockcount := right.blockcount + cright.blockcount } := by
  have hrc := refcountCheckIrec_iff.mp (h.wf.check right hr.right_mem)
  have hb := hr.bounds h
  exact refcountCheckIrec_iff.mpr ⟨by simp only; omega, by simp only; omega, by simp only; omega,
    hrc.2.2.2⟩

end

include hl hr in
theorem refcWantMergeCenter_cow (hhi : hi < 2 ^ 31) :
    refcWantMergeCenter left cleft cright right true .cowAlloc =
      some (left.blockcount + (cleft.blockcount + right.blockcount)) := by
  have hlb := hl.bounds h
  have hrb := hr.bounds h
  have hadd : add32 cleft.blockcount right.blockcount = cleft.blockcount + right.blockcount :=
    add32_eq (by omega)
  have hlen : ¬ refcLenMax ≤ left.blockcount + (cleft.blockcount + right.blockcount) := by
    unfold refcLenMax
    omega
  simp [refcWantMergeCenter, hl.want h hhi, hr.want h, hadd, hlen, hl.counts h, hr.counts h]

theorem refcountMergeFound_cowFree {agbno aglen : Nat}
    (hl : (left = nullIrec ∧ cleft = nullIrec) ∨ LeftPair .cow C recs lo hi left cleft)
    (hr : (right = nullIrec ∧ cright = nullIrec) ∨ RightPair .cow C recs lo hi right cright) :
    refcountMergeFound g c left cleft right cright agbno aglen .cowFree =
      .ok ⟨c, agbno, aglen, false⟩ := by
  have hL : refcWantMergeLeft left cleft .cowFree = false := by
    rcases hl with ⟨rfl, rfl⟩ | hl
    · exact refcWantMergeLeft_null _
    · simp [refcWantMergeLeft, hl.counts h]
  have hR : refcWantMergeRight cright right .cowFree = false := by
    rcases hr with ⟨rfl, rfl⟩ | hr
    · simp [refcWantMergeRight, refcValid_nullIrec]
    · simp [refcWantMergeRight, hr.counts h]
  have hC : ∀ cequal, refcWantMergeCenter left cleft cright right cequal .cowFree = none := by
    intro cequal
    rcases hl with ⟨rfl, rfl⟩ | hl
    · simp [refcWantMergeCenter, refcValid_nullIrec]
    · simp [refcWantMergeCenter, hl.counts h]
  simp [refcountMergeFound, hC, hL, refcountTryMergeRight, hR]

end

theorem refcountDeleteReal_cow (hone : r.refcount = 1) : refcountDeleteReal g c r = .ok c := by
  simp [refcountDeleteReal, hone]

theorem refcountMergeLeftExtent_cow (ho : Ordered refcKey c.bt.recs) (hm : left ∈ c.bt.recs)
    (hone : cleft.refcount = 1) (hlen : left.blockcount + cleft.blockcount < 2 ^ 32)
    (hend : lo + cleft.blockcount ≤ hi) (hhi : hi < 2 ^ 32) :
    ∃ bt, refcountMergeLeftExtent g c left cleft lo (hi - lo) =
        .ok (c.setBt bt, lo + cleft.blockcount, hi - (lo + cleft.blockcount)) ∧
      bt.recs = c.bt.recs.map fun s => if s = left then
        { left with blockcount := left.blockcount + cleft.blockcount } else s := by
  obtain ⟨bt, hlookup, hrecs, hat⟩ := refcountLookupLe_mem ho hm
  have hsub : sub32 (hi - lo) cleft.blockcount = hi - (lo + cleft.blockcount) := by
    rw [sub32_eq (by omega) (by omega)]
    omega
  refine ⟨bt.update { left with blockcount := left.blockcount + cleft.blockcount }, ?_, ?_⟩
  · simp only [refcountMergeLeftExtent, refcountDeleteReal_cow hone, ok_bind, hlookup,
      Bool.true_eq_false, if_false, add32_eq hlen, hsub,
      add32_eq (show lo + cleft.blockcount < 2 ^ 32 by omega)]
    rfl
  · rw [update_recs_eq_map (hrecs ▸ ho.nodup) hat, hrecs]

theorem refcountMergeRightExtent_cow (ho : Ordered refcKey c.bt.recs) (hm : right ∈ c.bt.recs)
    (hone : cright.refcount = 1) (hlen : right.startblock + right.blockcount < 2 ^ 32)
    (hstart : right.startblock = hi) (hend : cright.startblock + cright.blockcount = hi)
    (hlo : lo ≤ cright.startblock) :
    ∃ bt, refcountMergeRightExtent g c right cright (hi - lo) =
        .ok (c.setBt bt, cright.startblock - lo) ∧
      bt.recs = c.bt.recs.map fun s => if s = right then
        { right with
          startblock := cright.startblock
          blockcount := right.blockcount + cright.blockcount } else s := by
  obtain ⟨bt, hlookup, hrecs, hat⟩ := refcountLookupLe_mem ho hm
  have hsub : sub32 right.startblock cright.blockcount = cright.startblock := by
    rw [sub32_eq (by omega) (by omega)]
    omega
  have hsub' : sub32 (hi - lo) cright.blockcount = cright.startblock - lo := by
    rw [sub32_eq (by omega) (by omega)]
    omega
  refine ⟨bt.update { right with
    startblock := cright.startblock
    blockcount := right.blockcount + cright.blockcount }, ?_, ?_⟩
  · simp only [refcountMergeRightExtent, refcountDeleteReal_cow hone, ok_bind, hlookup,
      Bool.true_eq_false, if_false, hsub, hsub',
      add32_eq (show right.blockcount + cright.blockcount < 2 ^ 32 by omega)]
    rfl
  · rw [update_recs_eq_map (hrecs ▸ ho.nodup) hat, hrecs]

def Regrown (g : Group) (lo hi : Nat) (recs recs' : List RefcountIrec) : Prop :=
  ∃ f : RefcountIrec → RefcountIrec, recs' = recs.map f ∧ ∀ r ∈ recs,
    (f r).domain = r.domain ∧ refcountCheckIrec g (f r) = true ∧
      (lo ≤ (f r).startblock ↔ lo ≤ r.startblock) ∧
      ((f r).startblock < hi ↔ r.startblock < hi)

theorem Regrown.refl (h : ∀ r ∈ recs, refcountCheckIrec g r) : Regrown g lo hi recs recs :=
  ⟨id, (List.map_id recs).symm, fun r hr => ⟨rfl, h r hr, Iff.rfl, Iff.rfl⟩⟩

theorem Regrown.replace {x : RefcountIrec} (h : Regrown g lo hi recs recs') (hd : x.domain = r.domain)
    (hx : refcountCheckIrec g x) (hlo : lo ≤ x.startblock ↔ lo ≤ r.startblock)
    (hhi : x.startblock < hi ↔ r.startblock < hi) :
    Regrown g lo hi recs (recs'.map fun s => if s = r then x else s) := by
  obtain ⟨f, rfl, hf⟩ := h
  refine ⟨fun s => if f s = r then x else f s, by rw [List.map_map]; rfl, fun s hs => ?_⟩
  obtain ⟨h1, h2, h3, h4⟩ := hf s hs
  by_cases hsr : f s = r
  · simp only [if_pos hsr]
    rw [hsr] at h1 h3 h4
    exact ⟨hd.trans h1, hx, hlo.trans h3, hhi.trans h4⟩
  · simp only [if_neg hsr]
    exact ⟨h1, h2, h3, h4⟩

theorem refcKey_lt_cow (hn : n < 2 ^ 31) (hr : r.startblock < 2 ^ 31) :
    refcKey r < refcountEncodeStartblock n .cow ↔ r.domain = .shared ∨ r.startblock < n := by
  unfold refcKey refcountEncodeStartblock
  cases r.domain <;> simp <;> omega

theorem refcountInsert_lookupGe (c : RefcCur) (d : RefcDomain) (n : Nat) (r : RefcountIrec) :
    ∃ c', refcountInsert (refcountLookupGe c d n).1 r = .ok c' := by
  simp [refcountInsert, refcountLookupGe, Cursor.lookupGE, Cursor.insert, RefcCur.setBt]

theorem refcountAdjustCowExtents_alloc (hwf : RefcWF g .cow recs) (hlo : lo < hi)
    (hhi : hi ≤ g.blockCount) (hg : Regrown g lo hi recs c.bt.recs) :
    ((∃ s ∈ recs, s.domain = .cow ∧ lo ≤ s.startblock ∧ s.startblock < hi) →
      refcountAdjustCowExtents g c lo (hi - lo) .cowAlloc = .error .efscorrupted) ∧
    ((∀ s ∈ recs, s.domain = .cow → ¬ (lo ≤ s.startblock ∧ s.startblock < hi)) →
      refcountAdjustCowExtents g c lo (hi - lo) .cowAlloc =
        refcountInsert (refcountLookupGe c .cow lo).1 ⟨lo, hi - lo, 1, .cow⟩) := by
  have hle := g.blockCount_le
  have hmax := g.maxBlocks_lt
  obtain ⟨f, hrecs, hf⟩ := hg
  have hlow : ∀ s, refcountCheckIrec g s → s.startblock < 2 ^ 31 := fun s hs => by
    have := refcountCheckIrec_iff.mp hs
    omega
  obtain ⟨bt, hbt⟩ : ∃ bt, bt =
      (c.bt.lookupGE refcKey (refcountEncodeStartblock lo .cow)).1 := ⟨_, rfl⟩
  have hlookup : refcountLookupGe c .cow lo = (c.setBt bt, bt.rec?.isSome) := by
    rw [hbt, ← lookupGE_snd]
    rfl
  have hsum : add32 lo (hi - lo) = hi := by
    rw [add32_eq (by omega)]
    omega
  -- the same place in the records before the merges
  have hrec : bt.rec? = (Cursor.lookupGE refcKey (refcountEncodeStartblock lo .cow)
      ⟨recs, 0⟩).1.rec?.map f := by
    rw [hbt, show c.bt = ⟨recs.map f, c.bt.ptr⟩ by rw [← hrecs]]
    refine lookupGE_map_rec? fun s hs => ?_
    obtain ⟨h1, h2, h3, -⟩ := hf s hs
    rw [refcKey_lt_cow (by omega) (hlow _ h2),
      refcKey_lt_cow (by omega) (hlow _ (hwf.check s hs)), h1, ← not_le, ← not_le, h3]
  have hseek : Seek refcKey (Cursor.lookupGE refcKey (refcountEncodeStartblock lo .cow)
      ⟨recs, 0⟩).1 (refcountEncodeStartblock lo .cow) := seek_lookupGE _ _
  have hwf' : RefcWF g .cow (Cursor.lookupGE refcKey (refcountEncodeStartblock lo .cow)
      ⟨recs, 0⟩).1.recs := hwf
  obtain ⟨hsome, hnone⟩ := seek_cases hwf' (by omega) hseek
  unfold refcountAdjustCowExtents
  simp only [if_neg (show ¬ hi - lo = 0 by omega), hlookup, hsum, bind, Except.bind]
  cases hr : (Cursor.lookupGE refcKey (refcountEncodeStartblock lo .cow) ⟨recs, 0⟩).1.rec? with
  | none =>
    rw [hr] at hrec
    have hget : refcountGetRec g (c.setBt bt) = .ok none := by
      simp [refcountGetRec, hrec]
    simp only [hget, pure_eq_ok, if_neg (show ¬ g.maxBlocks < hi by omega)]
    refine ⟨?_, fun _ => trivial⟩
    rintro ⟨s, hs, hsd, h1, -⟩
    have := hnone (by rw [inDomain, hr]; rfl) s hs hsd
    omega
  | some r =>
    rw [hr] at hrec
    have hmem : r ∈ recs := mem_of_rec? hr
    obtain ⟨h1, h2, h3, h4⟩ := hf r hmem
    have hdom : r.domain = .cow := by
      obtain ⟨-, hge, -⟩ := seek_rec?_some hwf.ordered hseek hr
      have hnot := mt (refcKey_lt_cow (by omega) (hlow _ (hwf.check r hmem))).mpr (not_lt.mpr hge)
      cases hrd : r.domain with
      | cow => rfl
      | shared => exact absurd (.inl hrd) hnot
    obtain ⟨hge, hmin⟩ := hsome r (inDomain_some.mpr ⟨hr, hdom⟩)
    have hget : refcountGetRec g (c.setBt bt) = .ok (some (f r)) := by
      simp [refcountGetRec, hrec, h2]
    simp only [hget, h1, hdom, if_true, pure_eq_ok]
    constructor
    · rintro ⟨s, hs, hsd, hs1, hs2⟩
      have := hmin s hs hsd hs1
      rw [if_pos (h4.mpr (by omega))]
      rfl
    · intro hall
      rw [if_neg fun hlt => hall r hmem hdom ⟨hge, h4.mp hlt⟩]

theorem refcountAdjustCowExtents_free (h : Rep g .cow C other c.bt.recs) (hlo : lo < hi)
    (hhi : hi ≤ g.blockCount) :
    ((∃ s ∈ c.bt.recs, s.domain = .cow ∧ s.startblock = lo ∧ s.startblock + s.blockcount = hi) →
      ∃ bt, refcountAdjustCowExtents g c lo (hi - lo) .cowFree = .ok (c.setBt bt) ∧
        Rep g .cow (setRange C lo (hi - lo) none) other bt.recs) ∧
    ∀ c', refcountAdjustCowExtents g c lo (hi - lo) .cowFree = .ok c' →
      ∀ r, r.domain = .shared → (r ∈ c'.bt.recs ↔ r ∈ c.bt.recs) := by
  have hle := g.blockCount_le
  obtain ⟨bt, hlookup, hrecs, hseek⟩ := refcountLookupGe_eq c .cow lo
  have hrepBt : Rep g .cow C other bt.recs := hrecs ▸ h
  unfold refcountAdjustCowExtents
  simp only [if_neg (show ¬ hi - lo = 0 by omega), hlookup, bind, Except.bind]
  constructor
  · rintro ⟨s, hs, hsd, hs1, hs2⟩
    have hat : bt.rec? = some s :=
      rec?_of_seek hrepBt.wf.ordered (hrecs ▸ hs) (by rw [refcKey, hsd, hs1]; exact hseek)
    obtain ⟨bt1, hdel, hrep1, -, -⟩ := refcountDelete_spec (c := c.setBt bt) hrepBt hat hsd
    have hlen : s.blockcount = hi - lo := by omega
    rw [hs1, hlen] at hrep1
    refine ⟨bt1, ?_, hrep1⟩
    simp only [refcountGetRec_some (c := c.setBt bt) hrepBt.wf hat, hsd, if_true, pure_eq_ok,
      hs1, hlen, h.cow_refcount hs hsd, ne_eq, not_true_eq_false, if_false]
    exact hdel
  · intro c' hrun r hr
    cases hrec : bt.rec? with
    | none =>
      simp only [refcountGetRec, RefcCur.setBt_bt, hrec, pure_eq_ok,
        if_pos (show g.maxBlocks ≠ lo by omega)] at hrun
      cases hrun
    | some s =>
      simp only [refcountGetRec_some (c := c.setBt bt) hrepBt.wf hrec, pure_eq_ok] at hrun
      by_cases hsd : s.domain = .cow
      · obtain ⟨bt1, hdel, hrep1, -, -⟩ := refcountDelete_spec (c := c.setBt bt) hrepBt hrec hsd
        have hnot : r.domain ≠ .cow := by rw [hr]; decide
        simp only [hdel] at hrun
        split_ifs at hrun
        obtain rfl := Except.ok.inj hrun
        exact (hrep1.other r hnot).trans (h.other r hnot).symm
      · rw [if_neg hsd] at hrun
        cases hrun

theorem not_staged_before (hnc : NoCross .cow recs lo)
    (hno : ∀ s ∈ recs, s.domain = .cow → s.startblock + s.blockcount ≠ lo) :
    ¬ (0 < lo ∧ Staged recs (lo - 1)) := by
  rintro ⟨hpos, s, hs, hsd, h1, h2⟩
  have := hnc s hs hsd
  have := hno s hs hsd
  omega

theorem not_staged_behind (hnc : NoCross .cow recs hi)
    (hno : ∀ s ∈ recs, s.domain = .cow → s.startblock ≠ hi) : ¬ Staged recs hi := by
  rintro ⟨s, hs, hsd, h1, h2⟩
  have := hnc s hs hsd
  have := hno s hs hsd
  omega

theorem refcountMergeCenterExtents_cow (h : Rep g .cow C other c.bt.recs)
    (hl : LeftPair .cow C c.bt.recs lo hi left cleft)
    (hr : RightPair .cow C c.bt.recs lo hi right cright) (ulen : Nat) :
    ∃ bt, refcountMergeCenterExtents g c left cleft ulen = .ok (c.setBt bt, 0) := by
  have hlb := hl.bounds h
  have hrb := hr.bounds h
  obtain ⟨bt, hlookup, hrecs, hseek⟩ := refcountLookupGe_eq c cleft.domain cleft.startblock
  have hwf : RefcWF g .cow bt.recs := hrecs ▸ h.wf
  rw [hl.inner.1] at hseek
  obtain ⟨hsome, hnone⟩ := seek_cases hwf (by omega) hseek
  -- there is a record to delete, since the right extent is not below the range
  cases hfound : inDomain .cow bt with
  | none =>
    have := hnone hfound right (hrecs ▸ hr.right_mem) hr.right_domain
    omega
  | some r =>
    obtain ⟨hrec, hrd⟩ := inDomain_some.mp hfound
    obtain ⟨hge, -⟩ := hsome r hfound
    obtain ⟨bt1, hdel, hrep1, -, hmem1⟩ :=
      refcountDelete_spec (c := c.setBt bt) (hrecs ▸ h) hrec hrd
    have hne : left ≠ r := fun he => by rw [← he] at hge; omega
    have hleft : left ∈ bt1.recs :=
      (hmem1 left).mpr ⟨hrecs ▸ hl.left_mem, hne⟩
    obtain ⟨bt2, hlookup2, -, -⟩ :=
      refcountLookupLe_mem (c := c.setBt bt1) hrep1.wf.ordered hleft
    simp only [RefcCur.setBt_setBt] at hdel hlookup2
    refine ⟨bt2.update { left with blockcount := ulen }, ?_⟩
    simp only [refcountMergeCenterExtents, refcountDeleteCenter, hlookup, hrec,
      Option.isSome_some, Bool.true_eq_false, if_false, hdel, ok_bind,
      hl.inner.cow_refcount h, lt_irrefl, pure_eq_ok, hlookup2]
    rfl

/-- The records that are left in the range do not go on beyond an end. -/
structure AllocMerged (g : Group) (recs : List RefcountIrec) (lo hi : Nat) (m : MergeResult) :
    Prop where
  lo_le : lo ≤ m.agbno
  le_hi : m.agbno + m.aglen ≤ hi
  regrown : 0 < m.aglen → Regrown g m.agbno (m.agbno + m.aglen) recs m.cur.bt.recs
  left : ∀ s ∈ recs, s.domain = .cow → lo ≤ s.startblock → s.startblock < hi →
    (m.agbno ≤ s.startblock ∧ s.startblock < m.agbno + m.aglen ↔ ¬ RunsOn recs lo hi s)

/-- The left and right shoulders as the searches find them. -/
def LeftSide (C : Nat → Option Nat) (recs : List RefcountIrec) (lo hi : Nat)
    (left cleft : RefcountIrec) : Prop :=
  (left = nullIrec ∧ cleft = nullIrec ∧
    ∀ s ∈ recs, s.domain = .cow → s.startblock + s.blockcount ≠ lo) ∨
    LeftPair .cow C recs lo hi left cleft

def RightSide (C : Nat → Option Nat) (recs : List RefcountIrec) (lo hi : Nat)
    (right cright : RefcountIrec) : Prop :=
  (right = nullIrec ∧ cright = nullIrec ∧ ∀ s ∈ recs, s.domain = .cow → s.startblock ≠ hi) ∨
    RightPair .cow C recs lo hi right cright

section

variable (h : Rep g .cow C other c.bt.recs) (hmin : g.minGbno ≤ lo) (hlo : lo < hi)
  (hhi : hi ≤ g.blockCount)
include h hmin hlo hhi

theorem refcountMergeFound_cowAlloc (hncLo : NoCross .cow c.bt.recs lo)
    (hncHi : NoCross .cow c.bt.recs hi) (hlS : LeftSide C c.bt.recs lo hi left cleft)
    (hrS : RightSide C c.bt.recs lo hi right cright) :
    ∃ m, refcountMergeFound g c left cleft right cright lo (hi - lo) .cowAlloc = .ok m ∧
      AllocMerged g c.bt.recs lo hi m := by
  have hg := g.blockCount_lt
  have hchk := h.wf.check
  rcases hlS with ⟨rfl, rfl, hnoL⟩ | hl <;> rcases hrS with ⟨rfl, rfl, hnoR⟩ | hr
  · -- no neighbour on either side
    have hL := not_staged_before hncLo hnoL
    have hR := not_staged_behind hncHi hnoR
    refine ⟨⟨c, lo, hi - lo, false⟩, ?_, le_rfl, by simp only; omega, fun _ => Regrown.refl hchk,
      fun s hs hsd h1 h2 => ?_⟩
    · simp [refcountMergeFound, refcValid_nullIrec]
    · simp only [RunsOn, hL, hR, and_false, or_self, not_false_eq_true, iff_true]
      omega
  · -- only a right neighbour
    have hL := not_staged_before hncLo hnoL
    have hb := hr.bounds h
    obtain ⟨hv, -, hw⟩ := hr.want h
    obtain ⟨bt, hmerge, hrecs⟩ := refcountMergeRightExtent_cow (g := g) h.wf.ordered hr.right_mem
      (hr.inner.cow_refcount h) (by omega) hr.right_start hr.inner_end hr.inner_start
    refine ⟨⟨c.setBt bt, lo, cright.startblock - lo, true⟩, ?_, le_rfl, by simp only; omega,
      fun _ => ?_, fun s hs hsd hs1 hs2 => ?_⟩
    · simp [refcountMergeFound, refcWantMergeCenter, refcValid_nullIrec, hv,
        refcWantMergeLeft_null, refcountTryMergeRight, hw, hmerge]
    · simp only [RefcCur.setBt_bt, hrecs]
      exact (Regrown.refl hchk).replace rfl (hr.check_grown h hmin)
        (by simp only; omega) (by simp only; omega)
    · simp only [RunsOn, hL, and_false, false_or, hr.staged h, and_true,
        ← hr.le_start_iff h hs hsd hs2]
      omega
  · -- only a left neighbour
    have hR := not_staged_behind hncHi hnoR
    have hb := hl.bounds h
    obtain ⟨hv, -, hw⟩ := hl.want h (by omega)
    obtain ⟨bt, hmerge, hrecs⟩ := refcountMergeLeftExtent_cow (g := g)
      h.wf.ordered hl.left_mem (hl.inner.cow_refcount h) (by omega) hl.inner_end (by omega)
    refine ⟨⟨c.setBt bt, lo + cleft.blockcount, hi - (lo + cleft.blockcount), true⟩, ?_,
      by simp only; omega, by simp only; omega, fun _ => ?_, fun s hs hsd hs1 hs2 => ?_⟩
    · simp [refcountMergeFound, refcWantMergeCenter, refcValid_nullIrec, hv, hw, hmerge,
        refcountTryMergeRight_null]
    · simp only [RefcCur.setBt_bt, hrecs]
      exact (Regrown.refl hchk).replace rfl (hl.check_grown h hhi) Iff.rfl Iff.rfl
    · simp only [RunsOn, hR, and_false, or_false, hl.staged h, and_true,
        ← hl.start_lt_iff h hs hsd hs1]
      omega
  · -- both
    have hlb := hl.bounds h
    have hrb := hr.bounds h
    obtain ⟨hvl, hvl', hwl⟩ := hl.want h (by omega)
    obtain ⟨hvr, hvr', hwr⟩ := hr.want h
    by_cases hceq : cleft.startblock = cright.startblock ∧ cleft.blockcount = cright.blockcount
    · have hcequal : (decide (cleft.startblock = cright.startblock) &&
          decide (cleft.blockcount = cright.blockcount)) := by simp [hceq]
      obtain ⟨bt, hmerge⟩ := refcountMergeCenterExtents_cow h hl hr
        (left.blockcount + (cleft.blockcount + right.blockcount))
      refine ⟨⟨c.setBt bt, lo, 0, true⟩, ?_, le_rfl, by simp only; omega, fun hf => ?_,
        fun s hs hsd hs1 hs2 => ?_⟩
      · simp [refcountMergeFound, hvr, hcequal, refcWantMergeCenter_cow h hl hr (by omega), hmerge]
      · simp at hf
      · simp only [RunsOn, hl.staged h, and_true, ← hl.start_lt_iff h hs hsd hs1]
        omega
    · have hdisj := hl.inner_disjoint h hr hceq
      have hcequal : (decide (cleft.startblock = cright.startblock) &&
          decide (cleft.blockcount = cright.blockcount)) = false := by
        simpa using hceq
      obtain ⟨bt, hmerge, hrecs⟩ := refcountMergeLeftExtent_cow (g := g)
        h.wf.ordered hl.left_mem (hl.inner.cow_refcount h) (by omega) hl.inner_end (by omega)
      -- the keys are as before, and the right neighbour has not been touched
      have ho : Ordered refcKey bt.recs := by
        rw [hrecs]
        refine List.pairwise_map.mpr (h.wf.ordered.imp_of_mem fun ha hb hlt => ?_)
        have hkey : ∀ s : RefcountIrec, refcKey (if s = left then
            { left with blockcount := left.blockcount + cleft.blockcount } else s) = refcKey s := by
          intro s
          by_cases hsl : s = left
          · rw [if_pos hsl, hsl]
            rfl
          · rw [if_neg hsl]
        rwa [hkey, hkey]
      have hne : right ≠ left := fun he => by rw [he] at hrb; omega
      have hmem : right ∈ bt.recs := by
        rw [hrecs]
        exact List.mem_map.mpr ⟨right, hr.right_mem, if_neg hne⟩
      obtain ⟨bt2, hmerge2, hrecs2⟩ := refcountMergeRightExtent_cow (g := g) (c := c.setBt bt)
        ho hmem (hr.inner.cow_refcount h) (by omega) hr.right_start hr.inner_end hdisj
      refine ⟨⟨c.setBt bt2, lo + cleft.blockcount, cright.startblock - (lo + cleft.blockcount),
        true⟩, ?_, by simp only; omega, by simp only; omega, fun _ => ?_,
        fun s hs hsd hs1 hs2 => ?_⟩
      · simp [refcountMergeFound, hvr, hcequal, refcWantMergeCenter, hwl, hmerge,
          refcountTryMergeRight, hwr, hmerge2, ok_bind, pure_eq_ok]
      · simp only [RefcCur.setBt_bt] at hrecs2 ⊢
        rw [hrecs2, hrecs]
        have hleft : Regrown g (lo + cleft.blockcount) cright.startblock c.bt.recs
            (c.bt.recs.map fun s => if s = left then
              { left with blockcount := left.blockcount + cleft.blockcount } else s) :=
          (Regrown.refl hchk).replace rfl (hl.check_grown h hhi) Iff.rfl Iff.rfl
        rw [show lo + cleft.blockcount + (cright.startblock - (lo + cleft.blockcount)) =
          cright.startblock by omega]
        refine hleft.replace ?_ (hr.check_grown h hmin) ?_ ?_ <;> simp only
        · omega
        · omega
      · simp only [RunsOn, hl.staged h, hr.staged h, and_true, ← hl.start_lt_iff h hs hsd hs1,
          ← hr.le_start_iff h hs hsd hs2]
        omega

theorem refcountMergeFound_cowAlloc_free (hfree : ∀ b, lo ≤ b → b < hi → C b = none)
    (hlS : LeftSide C c.bt.recs lo hi left cleft) (hrS : RightSide C c.bt.recs lo hi right cright) :
    ∃ m, refcountMergeFound g c left cleft right cright lo (hi - lo) .cowAlloc = .ok m ∧
      (m = ⟨c, lo, hi - lo, false⟩ ∨
        m.aglen = 0 ∧ Rep g .cow (setRange C lo (hi - lo) (some 1)) other m.cur.bt.recs) := by
  have hg := g.blockCount_lt
  -- the first and the last extent are the gap that fills the range
  have hleft : LeftPair .cow C c.bt.recs lo hi left cleft →
      lo + cleft.blockcount = hi ∧ (1 < cleft.refcount ↔ cleft ∈ c.bt.recs) := by
    intro hl
    have hb := hl.bounds h
    have hmem : cleft ∉ c.bt.recs := fun hm =>
      (hl.inner.mem_iff h ⟨by omega, by omega⟩).mp hm (hfree lo le_rfl hlo)
    refine ⟨?_, ?_⟩
    · rcases hl.maximal hmem with hend | hsome
      · exact hend
      · by_contra hne
        exact hsome (hfree _ (by omega) (by omega))
    · simp [hl.inner.cow_refcount h, hmem]
  have hright : RightPair .cow C c.bt.recs lo hi right cright →
      cright.startblock = lo ∧ (1 < cright.refcount ↔ cright ∈ c.bt.recs) := by
    intro hr
    have hb := hr.bounds h
    have hmem : cright ∉ c.bt.recs := fun hm =>
      (hr.inner.mem_iff h (b := hi - 1) ⟨by omega, by omega⟩).mp hm
        (hfree _ (by omega) (by omega))
    refine ⟨?_, ?_⟩
    · rcases hr.maximal hmem with hstart | hsome
      · exact hstart
      · by_contra hne
        exact hsome (hfree _ (by omega) (by omega))
    · simp [hr.inner.cow_refcount h, hmem]
  rcases hlS with ⟨rfl, rfl, -⟩ | hl <;> rcases hrS with ⟨rfl, rfl, -⟩ | hr
  · refine ⟨_, ?_, .inl rfl⟩
    simp [refcountMergeFound, refcValid_nullIrec]
  · obtain ⟨hstart, hreal⟩ := hright hr
    have h2 := hr.inner_end
    obtain ⟨hv, -, hw⟩ := hr.want h
    obtain ⟨bt, hmerge, hrep, -⟩ := refcountMergeRightExtent_spec h hmin hr hreal hr.inner_start
    rw [hstart, show cright.blockcount = hi - lo by omega,
      h.cow_refcount hr.right_mem hr.right_domain] at hrep
    refine ⟨⟨c.setBt bt, lo, cright.startblock - lo, true⟩, ?_, .inr ⟨by simp only; omega, hrep⟩⟩
    simp [refcountMergeFound, refcWantMergeCenter, refcValid_nullIrec, hv, refcWantMergeLeft_null,
      refcountTryMergeRight, hw, hmerge]
  · obtain ⟨hend, hreal⟩ := hleft hl
    obtain ⟨hv, -, hw⟩ := hl.want h (by omega)
    obtain ⟨bt, hmerge, hrep, -⟩ := refcountMergeLeftExtent_spec h hhi hl hreal
    rw [show cleft.blockcount = hi - lo by omega, h.cow_refcount hl.left_mem hl.left_domain] at hrep
    refine ⟨⟨c.setBt bt, lo + cleft.blockcount, hi - (lo + cleft.blockcount), true⟩, ?_,
      .inr ⟨by simp only; omega, hrep⟩⟩
    simp [refcountMergeFound, refcWantMergeCenter, refcValid_nullIrec, hv, hw, hmerge,
      refcountTryMergeRight_null]
  · obtain ⟨hend, hreal⟩ := hleft hl
    obtain ⟨hstart, -⟩ := hright hr
    have h1 := hl.inner_start
    have h2 := hr.inner_end
    have hcequal : (decide (cleft.startblock = cright.startblock) &&
        decide (cleft.blockcount = cright.blockcount)) := by
      simp only [Bool.and_eq_true, decide_eq_true_eq]
      omega
    have hone := h.cow_refcount hl.left_mem hl.left_domain
    obtain ⟨bt, hmerge, hrep⟩ := refcountMergeCenterExtents_spec h (by omega) hl hreal hr hend
      ((h.cow_refcount hr.right_mem hr.right_domain).trans hone.symm)
    rw [show cleft.blockcount = hi - lo by omega, hone] at hrep
    refine ⟨⟨c.setBt bt, lo, 0, true⟩, ?_, .inr ⟨rfl, hrep⟩⟩
    simp [refcountMergeFound, hr.want h, hcequal,
      refcWantMergeCenter_cow h hl hr (by omega), hmerge]

end

end Xfs
