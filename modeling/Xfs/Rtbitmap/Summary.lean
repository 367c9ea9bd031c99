import Xfs.Lib.Runs
import Xfs.Rtbitmap.Group

/-! The summary counts the free extents of every size in every bitmap block,
and freeing a range keeps it that way. -/
namespace Xfs

open Nat Runs

def suminfo (g : RtGeometry) (st : RtState) (so : Nat) : RtWord :=
  st.summary (rtsumoffsToBlock g so) (rtsumoffsToInfoword g so)

/-- A free extent from bitmap block `j` on, with a length of level `k`. -/
def countedAt (g : RtGeometry) (k j s len : Nat) : Bool :=
  decide (len.log2 = k) && decide (rtxToRbmblock g s = j)

/-- The number of maximal free extents of level `k` in bitmap block `j`. -/
def freeRuns (g : RtGeometry) (free : Nat → Bool) (k j : Nat) : Nat :=
  runCount free g.rtgExtents (countedAt g k j)

/-- Every counter is the number of free extents it stands for. -/
def SummaryConsistent (g : RtGeometry) (st : RtState) : Prop :=
  ∀ k j, k < g.rsumlevels → j < g.rbmblocks →
    (suminfo g st (rtsumoffs g k j)).toNat = freeRuns g (rtFree g st) k j

/-- The cached level of a bitmap block is above every level in use. -/
def RsumCacheBound (g : RtGeometry) (st : RtState) : Prop :=
  ∀ cache, st.rsumCache = some cache → ∀ k j, k < g.rsumlevels → j < g.rbmblocks →
    suminfo g st (rtsumoffs g k j) ≠ 0#32 → k < cache j

section Offsets

variable {g : RtGeometry} {st : RtState} {k j k' j' so : Nat}

theorem rtsumoffsToBlock_eq (so : Nat) : rtsumoffsToBlock g so = so / g.blockwsize := by
  have hlog := g.blocklog_ge
  unfold rtsumoffsToBlock
  split
  case isTrue h => rfl
  case isFalse h =>
    have hpow : 2 ^ g.blocklog = 4 * 2 ^ (g.blocklog - 2) := by
      rw [show g.blocklog = 2 + (g.blocklog - 2) by omega, pow_add, Nat.add_sub_cancel_left]
      rfl
    rw [g.blockwsize_old (by simpa using h), shiftRight_eq_div_pow, hpow, mul_comm so 4,
      Nat.mul_div_mul_left so _ (by decide)]

theorem rtsumoffsToInfoword_eq (so : Nat) : rtsumoffsToInfoword g so = so % g.blockwsize := by
  have hlog := g.blocklog_ge
  unfold rtsumoffsToInfoword
  split
  case isTrue h => rfl
  case isFalse h =>
    have hpow : 2 ^ g.blocklog = 2 ^ (g.blocklog - 2) * 2 ^ 2 := by
      rw [← pow_add]
      congr 1
      omega
    have hmask : (2 ^ g.blocklog - 1) >>> 2 = 2 ^ (g.blocklog - 2) - 1 := by
      omega
    rw [hmask, and_two_pow_sub_one_eq_mod, g.blockwsize_old (by simpa using h)]

theorem suminfo_setSuminfo (so' : Nat) (value : RtWord) :
    suminfo g (st.setSuminfo (rtsumoffsToBlock g so) (rtsumoffsToInfoword g so) value) so' =
      if so' = so then value else suminfo g st so' := by
  have hiff : (rtsumoffsToBlock g so' = rtsumoffsToBlock g so ∧
      rtsumoffsToInfoword g so' = rtsumoffsToInfoword g so) ↔ so' = so := by
    constructor
    · rintro ⟨h1, h2⟩
      rw [rtsumoffsToBlock_eq, rtsumoffsToBlock_eq] at h1
      rw [rtsumoffsToInfoword_eq, rtsumoffsToInfoword_eq] at h2
      rw [← div_add_mod so' g.blockwsize, ← div_add_mod so g.blockwsize, h1, h2]
    · rintro rfl
      exact ⟨rfl, rfl⟩
  unfold suminfo RtState.setSuminfo
  simp only
  split_ifs with h1 h2 h2
  · rfl
  · exact absurd (hiff.mp h1) h2
  · exact absurd (hiff.mpr h2) h1
  · rfl

theorem sumoffs_lt (hk : k < g.rsumlevels) (hj : j < g.rbmblocks) :
    k * g.rbmblocks + j < g.rbmblocks * g.rsumlevels := by
  have h1 : (k + 1) * g.rbmblocks ≤ g.rsumlevels * g.rbmblocks := mul_le_mul_right _ hk
  rw [add_mul, one_mul] at h1
  rw [mul_comm g.rbmblocks]
  omega

theorem rtsumoffs_lt (hk : k < g.rsumlevels) (hj : j < g.rbmblocks) :
    rtsumoffs g k j < g.rbmblocks * g.rsumlevels :=
  (mod_le _ _).trans_lt (sumoffs_lt hk hj)

section

variable (hsmall : g.rbmblocks * g.rsumlevels ≤ 2 ^ 32) (hk : k < g.rsumlevels)
include hsmall hk

/-- While the summary has at most 2^32 counters, their places do not wrap around. -/
theorem rtsumoffs_eq (hj : j < g.rbmblocks) : rtsumoffs g k j = k * g.rbmblocks + j :=
  mod_eq_of_lt ((sumoffs_lt hk hj).trans_le hsmall)

theorem rtsumoffs_inj (hk' : k' < g.rsumlevels) (hj : j < g.rbmblocks) (hj' : j' < g.rbmblocks) :
    rtsumoffs g k j = rtsumoffs g k' j' ↔ k = k' ∧ j = j' := by
  constructor
  · intro h
    rw [rtsumoffs_eq hsmall hk hj, rtsumoffs_eq hsmall hk' hj'] at h
    have hdiv : ∀ a b, b < g.rbmblocks → (a * g.rbmblocks + b) / g.rbmblocks = a := by
      intro a b hb
      rw [mul_comm, mul_add_div (by omega), div_eq_of_lt hb, add_zero]
    have hk : k = k' := by rw [← hdiv k j hj, h, hdiv k' j' hj']
    subst hk
    exact ⟨rfl, by omega⟩
  · rintro ⟨rfl, rfl⟩
    rfl

end

theorem rtsummaryReadBuf_ok (h : so < g.rbmblocks * g.rsumlevels) :
    rtsummaryReadBuf g (rtsumoffsToBlock g so) = .ok () := by
  have hpos := g.blockwsize_pos
  rw [rtsummaryReadBuf, rtsumoffsToBlock_eq, if_neg]
  rw [not_le, div_lt_iff_lt_mul hpos]
  unfold RtGeometry.rsumblocks howmany
  have hlt := lt_div_mul_add (a := g.rbmblocks * g.rsumlevels + (g.blockwsize - 1)) hpos
  omega

theorem log2_lt_rsumlevels {len : Nat} (hpos : 0 < len) (hle : len ≤ g.rtgExtents) :
    len.log2 < g.rsumlevels := by
  have hle' := hle.trans g.rtgExtents_le
  unfold RtGeometry.rsumlevels
  rw [if_neg (by omega), log2_lt (by omega)]
  exact hle'.trans_lt lt_log2_self

theorem rtxToRbmblock_lt {x : Nat} (h : x < g.rtgExtents) : rtxToRbmblock g x < g.rbmblocks := by
  rw [rtxToRbmblock_eq]
  exact block_lt_of_word (by have := g.rtgExtents_le_capacity; omega)

theorem freeRuns_lt (free : Nat → Bool) (k j : Nat) : freeRuns g free k j < 2 ^ 32 := by
  have hpos := g.blockwsize_pos
  have hle := g.blockwsize_le
  have hcount : freeRuns g free k j ≤ (j + 1) * (32 * g.blockwsize) - j * (32 * g.blockwsize) := by
    refine runCount_le fun s len hp => ?_
    simp only [countedAt, Bool.and_eq_true, decide_eq_true_eq] at hp
    rw [rtxToRbmblock_eq, Nat.div_div_eq_div_mul] at hp
    have h1 := div_mul_le_self s (32 * g.blockwsize)
    have h2 := lt_div_mul_add (a := s) (show 0 < 32 * g.blockwsize by omega)
    rw [hp.2] at h1 h2
    exact ⟨h1, by rwa [add_mul, one_mul]⟩
  rw [add_mul] at hcount
  omega

end Offsets

section Modify

variable {g : RtGeometry} {st : RtState} {log bbno : Nat} {cond : Prop} {delta : Int}

structure SummaryStep (g : RtGeometry) (st st' : RtState) (delta : Nat → RtWord) : Prop where
  bitmap : st'.bitmap = st.bitmap
  counters : ∀ so, suminfo g st' so = suminfo g st so + delta so
  bound : g.rbmblocks * g.rsumlevels ≤ 2 ^ 32 → RsumCacheBound g st → RsumCacheBound g st'

theorem SummaryStep.trans {st1 st2 : RtState} {d d' : Nat → RtWord} (h : SummaryStep g st st1 d)
    (h' : SummaryStep g st1 st2 d') : SummaryStep g st st2 (fun so => d so + d' so) :=
  ⟨h'.bitmap.trans h.bitmap, fun so => by rw [h'.counters, h.counters, BitVec.add_assoc],
    fun hsmall hb => h'.bound hsmall (h.bound hsmall hb)⟩

/-- One counter, if the condition holds. -/
def deltaAt (g : RtGeometry) (cond : Prop) [Decidable cond] (log bbno : Nat) (delta : Int)
    (so : Nat) : RtWord :=
  if cond ∧ so = rtsumoffs g log bbno then BitVec.ofInt 32 delta else 0#32

theorem lt_rsumCacheUpdate {cache : Nat → Nat} {val : RtWord} {k j : Nat}
    (hother : ¬ (k = log ∧ j = bbno) → k < cache j) (hsame : k = log → j = bbno → val ≠ 0#32) :
    k < rsumCacheUpdate cache log bbno val j := by
  unfold rsumCacheUpdate
  by_cases hj : j = bbno
  · subst hj
    by_cases hval : val = 0#32
    · have hk : k ≠ log := fun h => hsame h rfl hval
      have hlt := hother (fun h => hk h.1)
      simp only [hval, true_and, ne_eq, not_true, false_and, if_false]
      split_ifs with h
      · rw [Function.update_self]
        omega
      · exact hlt
    · simp only [hval, false_and, if_false, ne_eq, not_false_eq_true, true_and]
      split_ifs with h
      · rw [Function.update_self]
        by_cases hk : k = log
        · omega
        · omega
      · by_cases hk : k = log
        · omega
        · exact hother (fun h => hk h.1)
  · have hlt := hother (fun h => hj h.2)
    split_ifs <;> simpa [Function.update_of_ne hj] using hlt

theorem rtmodifySummary_spec (st : RtState) (hlog : log < g.rsumlevels) (hbb : bbno < g.rbmblocks)
    (delta : Int) :
    ∃ st', rtmodifySummary g st log bbno delta = .ok st' ∧
      SummaryStep g st st' (deltaAt g True log bbno delta) := by
  have hread := rtsummaryReadBuf_ok (rtsumoffs_lt hlog hbb)
  have hcounters : ∀ so, suminfo g (st.setSuminfo (rtsumoffsToBlock g (rtsumoffs g log bbno))
      (rtsumoffsToInfoword g (rtsumoffs g log bbno))
      (suminfo g st (rtsumoffs g log bbno) + BitVec.ofInt 32 delta)) so =
      suminfo g st so + deltaAt g True log bbno delta so := by
    intro so
    rw [suminfo_setSuminfo, deltaAt]
    split_ifs with h h' h'
    · rw [h]
    · exact absurd ⟨trivial, h⟩ h'
    · exact absurd h'.2 h
    · rw [BitVec.add_zero]
  refine ⟨{ st.setSuminfo (rtsumoffsToBlock g (rtsumoffs g log bbno))
      (rtsumoffsToInfoword g (rtsumoffs g log bbno))
      (suminfo g st (rtsumoffs g log bbno) + BitVec.ofInt 32 delta) with
      rsumCache := st.rsumCache.map (rsumCacheUpdate · log bbno
        (suminfo g st (rtsumoffs g log bbno) + BitVec.ofInt 32 delta)) }, ?_, rfl, hcounters,
    fun hsmall hbound cache hcache k j hk hj hne => ?_⟩
  · simp only [rtmodifySummary, hread]
    rfl
  · obtain ⟨old, hold, rfl⟩ := Option.map_eq_some_iff.mp hcache
    have hval : suminfo g st (rtsumoffs g k j) + deltaAt g True log bbno delta (rtsumoffs g k j) ≠
        0#32 := by
      rw [← hcounters]
      exact hne
    unfold deltaAt at hval
    refine lt_rsumCacheUpdate (fun hother => hbound old hold k j hk hj ?_) ?_
    · rwa [if_neg (fun h => hother ((rtsumoffs_inj hsmall hk hlog hj hbb).mp h.2)), BitVec.add_zero] at hval
    · rintro rfl rfl
      rwa [if_pos ⟨trivial, rfl⟩] at hval

theorem rtmodifySummary_if (st : RtState) [Decidable cond]
    (h : cond → log < g.rsumlevels ∧ bbno < g.rbmblocks) :
    ∃ st', (if cond then rtmodifySummary g st log bbno (-1) else pure st) = .ok st' ∧
      SummaryStep g st st' (deltaAt g cond log bbno (-1)) := by
  by_cases hc : cond
  · obtain ⟨st', hrun, hstep⟩ := rtmodifySummary_spec st (h hc).1 (h hc).2 (-1)
    refine ⟨st', by rw [if_pos hc, hrun], hstep.bitmap, fun so => ?_, hstep.bound⟩
    rw [hstep.counters, deltaAt, deltaAt]
    simp only [hc]
  · refine ⟨st, by rw [if_neg hc]; rfl, rfl, fun so => ?_, fun _ => id⟩
    rw [deltaAt, if_neg (fun h => hc h.1), BitVec.add_zero]

theorem deltaAt_toNat [Decidable cond] {k j : Nat} (hsmall : g.rbmblocks * g.rsumlevels ≤ 2 ^ 32)
    (hk : k < g.rsumlevels) (hj : j < g.rbmblocks)
    (h : cond → log < g.rsumlevels ∧ bbno < g.rbmblocks) :
    (deltaAt g cond log bbno delta (rtsumoffs g k j)).toNat =
      if cond ∧ log = k ∧ bbno = j then (BitVec.ofInt 32 delta).toNat else 0 := by
  unfold deltaAt
  by_cases hc : cond
  · have hinj := rtsumoffs_inj hsmall hk (h hc).1 hj (h hc).2
    simp only [hc, true_and, hinj, eq_comm, eq_comm]
    split_ifs <;> rfl
  · simp [hc]

theorem deltaAt_outside [Decidable cond] {so : Nat} (hso : g.rbmblocks * g.rsumlevels ≤ so)
    (h : cond → log < g.rsumlevels ∧ bbno < g.rbmblocks) :
    deltaAt g cond log bbno delta so = 0#32 := by
  rw [deltaAt, if_neg]
  rintro ⟨hc, rfl⟩
  exact absurd (rtsumoffs_lt (h hc).1 (h hc).2) (by omega)

end Modify

section Free

variable {g : RtGeometry} {st st' : RtState} {start len pre post : Nat}

structure RtFreed (g : RtGeometry) (st st' : RtState) (start len pre post : Nat) : Prop where
  fills : Fills (rtFree g st) (rtFree g st') g.rtgExtents start (start + len) pre post
  bits : ∀ x, rtFree g st' x = if start ≤ x ∧ x < start + len then true else rtFree g st x
  counters : ∀ so, suminfo g st' so = suminfo g st so +
    (deltaAt g (pre < start) (start - pre).log2 (rtxToRbmblock g pre) (-1) so +
      deltaAt g (start + len < post) (post - (start + len)).log2
        (rtxToRbmblock g (start + len)) (-1) so +
      deltaAt g True (post - pre).log2 (rtxToRbmblock g pre) 1 so)
  bound : g.rbmblocks * g.rsumlevels ≤ 2 ^ 32 → RsumCacheBound g st → RsumCacheBound g st'

theorem fills_of_freed {free free' : Nat → Bool} {n last : Nat} (hlen : 0 < len)
    (hin : start + len ≤ n) (hused : ∀ x, start ≤ x → x < start + len → free x = false)
    (hbits : ∀ x, free' x = if start ≤ x ∧ x < start + len then true else free x)
    (hpre : BackTo free' start pre) (hpost : ForwTo free' (start + len - 1) (n - 1) last) :
    Fills free free' n start (start + len) pre (last + 1) := by
  have hstart : free' start := by rw [hbits, if_pos ⟨le_rfl, by omega⟩]
  have hfin : free' (start + len - 1) := by rw [hbits, if_pos ⟨by omega, by omega⟩]
  have hle := hpost.le
  have hlimit := hpost.le_limit
  refine ⟨by omega, hpre.le, by omega, by omega, hused, fun x _ hx => ?_, fun x h1 h2 => ?_, ?_, ?_⟩
  · rw [hbits, if_neg (by omega)]
  · rcases lt_or_ge x start with hx | hx
    · rw [hpre.same x h1 hx.le, hstart]
    · rcases lt_or_ge x (start + len) with hx' | hx'
      · rw [hbits, if_pos ⟨hx, hx'⟩]
      · rw [hpost.same x (by omega) (by omega), hfin]
  · refine hpre.stop.imp id fun h => ?_
    rw [hstart] at h
    simpa using h
  · refine hpost.stop.imp (by omega) fun h => ?_
    rw [hfin] at h
    simpa using h

theorem levels_of_fills {free free' : Nat → Bool}
    (h : Fills free free' g.rtgExtents start (start + len) pre post) :
    (pre < start → (start - pre).log2 < g.rsumlevels ∧ rtxToRbmblock g pre < g.rbmblocks) ∧
    (start + len < post → (post - (start + len)).log2 < g.rsumlevels ∧
      rtxToRbmblock g (start + len) < g.rbmblocks) ∧
    (post - pre).log2 < g.rsumlevels ∧ rtxToRbmblock g pre < g.rbmblocks := by
  have h1 := h.lt
  have h2 := h.pre_le
  have h3 := h.le_post
  have h4 := h.post_le
  exact ⟨fun _ => ⟨log2_lt_rsumlevels (by omega) (by omega), rtxToRbmblock_lt (by omega)⟩,
    fun _ => ⟨log2_lt_rsumlevels (by omega) (by omega), rtxToRbmblock_lt (by omega)⟩,
    log2_lt_rsumlevels (by omega) (by omega), rtxToRbmblock_lt (by omega)⟩

/-- Freeing a range of the group that is allocated succeeds, whatever the summary holds. -/
theorem rtfreeRange_freed (hpos : 0 < len) (hlen : len < 2 ^ 31) (hin : start + len ≤ g.rtgExtents)
    (hused : ∀ x, start ≤ x → x < start + len → rtFree g st x = false) :
    ∃ st' pre post, rtfreeRange g st start len = .ok st' ∧ RtFreed g st st' start len pre post := by
  obtain ⟨words, pre, last, hmodify, hback, hforw, hbits, hpre, hpost⟩ :=
    rtfreeRange_bitmap st hpos hlen hin
  have hfills := fills_of_freed hpos hin hused hbits hpre hpost
  obtain ⟨hleft, hright, hlog, hblock⟩ := levels_of_fills hfills
  obtain ⟨st2, hrun2, hstep2⟩ := rtmodifySummary_if { st with bitmap := words } hleft
  obtain ⟨st3, hrun3, hstep3⟩ := rtmodifySummary_if st2 hright
  obtain ⟨st4, hrun4, hstep4⟩ := rtmodifySummary_spec st3 hlog hblock 1
  have hstep := (hstep2.trans hstep3).trans hstep4
  have hfree : rtFree g st4 = (g.file words).bit := by
    unfold rtFree
    rw [hstep.bitmap]
  refine ⟨st4, pre, last + 1, ?_, hfree ▸ hfills, fun x => by rw [hfree, hbits], hstep.counters,
    hstep.bound⟩
  have hcond : start + len - 1 < last ↔ start + len < last + 1 := by omega
  simp only [rtfreeRange, hmodify, hback, hforw, ok_bind, RtGeometry.file_words, hcond,
    show last - (start + len - 1) = last + 1 - (start + len) by omega,
    show start + len - 1 + 1 = start + len by omega, hrun2, hrun3]
  exact hrun4

/-- The summary stays consistent if every counter has a place of its own. -/
theorem RtFreed.consistent (h : RtFreed g st st' start len pre post)
    (hsmall : g.rbmblocks * g.rsumlevels ≤ 2 ^ 32) (hcons : SummaryConsistent g st) :
    SummaryConsistent g st' := by
  intro k j hk hj
  obtain ⟨hleft, hright, hlog, hblock⟩ := levels_of_fills h.fills
  have hold := hcons k j hk hj
  have hcount := h.fills.runCount_eq (countedAt g k j)
  have hlt := freeRuns_lt (g := g) (rtFree g st') k j
  rw [h.counters]
  simp only [BitVec.toNat_add, deltaAt_toNat hsmall hk hj hleft, deltaAt_toNat hsmall hk hj hright,
    deltaAt_toNat hsmall hk hj fun _ => ⟨hlog, hblock⟩, hold]
  have hminus : (BitVec.ofInt 32 (-1)).toNat = 2 ^ 32 - 1 := by decide
  have hplus : (BitVec.ofInt 32 1).toNat = 1 := by decide
  simp only [countedAt, Bool.and_eq_true, decide_eq_true_eq] at hcount
  simp only [hminus, hplus, true_and]
  unfold freeRuns countedAt at *
  split_ifs at hcount ⊢ <;> omega

theorem RtFreed.outside (h : RtFreed g st st' start len pre post) {so : Nat}
    (hso : g.rbmblocks * g.rsumlevels ≤ so) : suminfo g st' so = suminfo g st so := by
  obtain ⟨hleft, hright, hlog, hblock⟩ := levels_of_fills h.fills
  rw [h.counters, deltaAt_outside hso hleft, deltaAt_outside hso hright,
    deltaAt_outside hso fun _ => ⟨hlog, hblock⟩]
  simp

end Free

end Xfs
