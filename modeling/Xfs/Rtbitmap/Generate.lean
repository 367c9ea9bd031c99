import Xfs.Rtbitmap.Summary

/-! The bitmap and the summary that repair computes from the free extents of a
group, and the agreement with a group that got there by freeing. -/
namespace Xfs

open Nat Function List Runs

/-- The variables of the loop. Words and counters are numbered through. -/
structure RtGen where
  extno : Nat
  startExt : Nat
  bmbno : Nat
  startBmbno : Nat
  inExtent : Bool
  words : Nat
  bmp : Nat → RtWord
  sum : Nat → RtWord
  frextents : Nat

def incSumcount (sum : Nat → RtWord) (index : Nat) : Nat → RtWord :=
  Function.update sum index (sum index + 1#32)

/-- Look at one extent: it starts or continues a free range, or it ends one. -/
def RtGen.extent (g : RtGeometry) (free : Nat → Bool) (s : RtGen) : RtGen :=
  if free s.extno then
    if s.inExtent then { s with frextents := s.frextents + 1, extno := s.extno + 1 }
    else { s with
      frextents := s.frextents + 1
      startExt := s.extno
      startBmbno := s.bmbno
      inExtent := true
      extno := s.extno + 1 }
  else if s.inExtent then
    { s with
      sum := incSumcount s.sum (rtsumoffs g (s.extno - s.startExt).log2 s.startBmbno)
      inExtent := false
      extno := s.extno + 1 }
  else { s with extno := s.extno + 1 }

def RtGen.bits (g : RtGeometry) (free : Nat → Bool) :
    Nat → RtGen → RtWord → RtWord → RtGen × RtWord
  | 0, s, _, bits => (s, bits)
  | n + 1, s, freebit, bits =>
    if s.extno = g.rtgExtents then (s, bits)
    else RtGen.bits g free n (s.extent g free) (freebit <<< 1)
      (if free s.extno then bits ||| freebit else bits)

def RtGen.word (g : RtGeometry) (free : Nat → Bool) (s : RtGen) : RtGen :=
  let (s, bits) := RtGen.bits g free 32 s 1#32 0#32
  { s with
    bmp := Function.update s.bmp s.words bits
    words := s.words + 1
    bmbno := if s.extno % (g.blockwsize <<< 5) = 0 then s.bmbno + 1 else s.bmbno }

section

variable (g : RtGeometry) (free : Nat → Bool)

theorem RtGen.extent_extno (s : RtGen) : (s.extent g free).extno = s.extno + 1 := by
  unfold RtGen.extent
  split_ifs <;> rfl

theorem RtGen.le_bits_extno (n : Nat) (s : RtGen) (freebit bits : RtWord) :
    s.extno ≤ (RtGen.bits g free n s freebit bits).1.extno := by
  induction n generalizing s freebit bits with
  | zero => exact le_rfl
  | succ n ih =>
    rw [RtGen.bits]
    split
    · exact le_rfl
    · have := ih (s.extent g free) (freebit <<< 1) (if free s.extno then bits ||| freebit else bits)
      rw [RtGen.extent_extno] at this
      omega

theorem RtGen.lt_word_extno (s : RtGen) (h : s.extno < g.rtgExtents) :
    s.extno < (s.word g free).extno := by
  have hle := RtGen.le_bits_extno g free 31 (s.extent g free) (1#32 <<< 1)
    (if free s.extno then 0#32 ||| 1#32 else 0#32)
  rw [RtGen.extent_extno] at hle
  change s.extno < (RtGen.bits g free 32 s 1#32 0#32).1.extno
  rw [RtGen.bits, if_neg (by omega)]
  exact hle

end

def RtGen.loop (g : RtGeometry) (free : Nat → Bool) (s : RtGen) : RtGen :=
  if _h : s.extno < g.rtgExtents then RtGen.loop g free (s.word g free) else s
termination_by g.rtgExtents - s.extno
decreasing_by
  have := RtGen.lt_word_extno g free s _h
  omega

def RtGen.init : RtGen :=
  ⟨0, 0, 0, 0, false, 0, fun _ => 0#32, fun _ => 0#32, 0⟩

/-- The bitmap and the summary of a group with the given free extents. -/
structure RtgComputed where
  bmp : Nat → RtWord
  sum : Nat → RtWord
  frextents : Nat

/-- Track start and size of each range of free extents to set the summary info
properly. -/
def generateRtgroupRtinfo (g : RtGeometry) (free : Nat → Bool) : RtgComputed :=
  let s := RtGen.loop g free RtGen.init
  let sum := if s.inExtent then
      incSumcount s.sum (rtsumoffs g (s.extno - s.startExt).log2 s.startBmbno)
    else s.sum
  ⟨s.bmp, sum, s.frextents⟩

section Invariant

variable {g : RtGeometry} {free : Nat → Bool} {s : RtGen}

/-- The free extents among the first `e`. -/
def freeBelow (free : Nat → Bool) (e x : Nat) : Bool := free x && decide (x < e)

/-- The counters stand for the free ranges that have ended. -/
structure RtGen.Counts (g : RtGeometry) (free : Nat → Bool) (s : RtGen) : Prop where
  le : s.extno ≤ g.rtgExtents
  counts : ∀ k j, k < g.rsumlevels → j < g.rbmblocks →
    freeRuns g (freeBelow free s.extno) k j = (s.sum (rtsumoffs g k j)).toNat +
      if s.inExtent = true ∧ (s.extno - s.startExt).log2 = k ∧ s.startBmbno = j then 1 else 0
  outside : ∀ so, g.rbmblocks * g.rsumlevels ≤ so → s.sum so = 0#32
  inside : s.inExtent = true → s.startExt < s.extno ∧
    (∀ x, s.startExt ≤ x → x < s.extno → free x = true) ∧
    (s.startExt = 0 ∨ free (s.startExt - 1) = false) ∧
    s.startBmbno = rtxToRbmblock g s.startExt
  between : s.inExtent = false → s.extno = 0 ∨ free (s.extno - 1) = false

theorem fills_freeBelow {e pre : Nat} (he : e < g.rtgExtents) (hfree : free e)
    (hpre : pre ≤ e) (hall : ∀ x, pre ≤ x → x < e → free x)
    (hstop : pre = 0 ∨ free (pre - 1) = false) :
    Fills (freeBelow free e) (freeBelow free (e + 1)) g.rtgExtents e (e + 1) pre (e + 1) := by
  unfold freeBelow
  refine ⟨by omega, hpre, le_rfl, he, fun x h1 h2 => ?_, fun x _ hx => ?_, fun x h1 h2 => ?_, ?_, ?_⟩
  · simp [show ¬ x < e by omega]
  · simp [show x < e + 1 ↔ x < e by omega]
  · by_cases hx : x = e
    · simp [hx, hfree]
    · simp [hall x h1 (by omega), h2]
  · exact hstop.imp id fun h => by simp [h]
  · exact .inr (by simp)

theorem incSumcount_toNat {sum : Nat → RtWord} {log bbno k j : Nat}
    (hsmall : g.rbmblocks * g.rsumlevels ≤ 2 ^ 32) (hk : k < g.rsumlevels) (hj : j < g.rbmblocks)
    (hlog : log < g.rsumlevels) (hbb : bbno < g.rbmblocks)
    (hlt : (sum (rtsumoffs g k j)).toNat + (if log = k ∧ bbno = j then 1 else 0) < 2 ^ 32) :
    (incSumcount sum (rtsumoffs g log bbno) (rtsumoffs g k j)).toNat =
      (sum (rtsumoffs g k j)).toNat + if log = k ∧ bbno = j then 1 else 0 := by
  unfold incSumcount
  by_cases h : log = k ∧ bbno = j
  · obtain ⟨rfl, rfl⟩ := h
    rw [update_self, BitVec.toNat_add]
    simp only [and_self, if_true] at hlt ⊢
    exact mod_eq_of_lt hlt
  · rw [update_of_ne, if_neg h, add_zero]
    intro he
    obtain ⟨rfl, rfl⟩ := (rtsumoffs_inj hsmall hk hlog hj hbb).mp he
    exact h ⟨rfl, rfl⟩

section

variable (h : s.Counts g free) (hsmall : g.rbmblocks * g.rsumlevels ≤ 2 ^ 32)
include h hsmall

theorem RtGen.Counts.close (hin : s.inExtent) : (∀ k j, k < g.rsumlevels → j < g.rbmblocks →
      freeRuns g (freeBelow free s.extno) k j = (incSumcount s.sum
        (rtsumoffs g (s.extno - s.startExt).log2 s.startBmbno) (rtsumoffs g k j)).toNat) ∧
    ∀ so, g.rbmblocks * g.rsumlevels ≤ so →
      incSumcount s.sum (rtsumoffs g (s.extno - s.startExt).log2 s.startBmbno) so = 0#32 := by
  obtain ⟨hlt, -, -, hblock⟩ := h.inside hin
  have hle := h.le
  have hbb : s.startBmbno < g.rbmblocks := hblock ▸ rtxToRbmblock_lt (by omega)
  have hlog : (s.extno - s.startExt).log2 < g.rsumlevels := log2_lt_rsumlevels (by omega) (by omega)
  refine ⟨fun k j hk hj => ?_, fun so hso => ?_⟩
  · have hcount := h.counts k j hk hj
    simp only [hin, true_and] at hcount
    have hlt' := freeRuns_lt (g := g) (freeBelow free s.extno) k j
    rw [incSumcount_toNat hsmall hk hj hlog hbb (by omega), hcount]
  · rw [incSumcount, update_of_ne, h.outside so hso]
    rintro rfl
    exact absurd (rtsumoffs_lt hlog hbb) (by omega)

theorem RtGen.Counts.extent (he : s.extno < g.rtgExtents)
    (hblock : s.bmbno = rtxToRbmblock g s.extno) : (s.extent g free).Counts g free := by
  unfold RtGen.extent
  cases hf : free s.extno with
  | true =>
    cases hin : s.inExtent with
    | true =>
      obtain ⟨hlt, hall, hstop, hb⟩ := h.inside hin
      simp only [if_true]
      have hfills := fills_freeBelow he hf hlt.le hall hstop
      refine ⟨he, fun k j hk hj => ?_, h.outside, fun _ => ⟨by simp only; omega, ?_, hstop, hb⟩,
        fun hc => absurd hc (by simp)⟩
      · have hcount := h.counts k j hk hj
        have hfill := hfills.runCount_eq (countedAt g k j)
        simp only [countedAt, Bool.and_eq_true, decide_eq_true_eq, ← hb, hlt, true_and,
          lt_irrefl, false_and, if_false, add_zero] at hfill
        simp only [hin, true_and] at hcount ⊢
        unfold freeRuns countedAt at *
        omega
      · intro x h1 h2
        by_cases hx : x = s.extno
        · rw [hx, hf]
        · exact hall x h1 (by simp only at h2; omega)
    | false =>
      have hstop := h.between hin
      simp only [if_true, Bool.false_eq_true, if_false]
      have hfills := fills_freeBelow he hf le_rfl (fun x h1 h2 => by omega) hstop
      refine ⟨he, fun k j hk hj => ?_, h.outside, fun _ => ⟨by simp only; omega, ?_, hstop, hblock⟩,
        fun hc => absurd hc (by simp)⟩
      · have hcount := h.counts k j hk hj
        have hfill := hfills.runCount_eq (countedAt g k j)
        simp only [countedAt, Bool.and_eq_true, decide_eq_true_eq, ← hblock,
          lt_irrefl, false_and, if_false, add_zero] at hfill
        simp only [hin, Bool.false_eq_true, false_and, if_false, add_zero, true_and] at hcount ⊢
        unfold freeRuns countedAt at *
        omega
      · intro x h1 h2
        rw [show x = s.extno by simp only at h1 h2; omega, hf]
  | false =>
    have hsame : freeBelow free (s.extno + 1) = freeBelow free s.extno := by
      funext x
      unfold freeBelow
      by_cases hx : x = s.extno
      · simp [hx, hf]
      · simp [show x < s.extno + 1 ↔ x < s.extno by omega]
    cases hin : s.inExtent with
    | true =>
      obtain ⟨hcounts, houtside⟩ := h.close hsmall hin
      simp only [Bool.false_eq_true, if_false, if_true]
      refine ⟨he, fun k j hk hj => ?_, houtside, fun hc => absurd hc (by simp), fun _ => .inr hf⟩
      simp only [hsame, Bool.false_eq_true, false_and, if_false, add_zero]
      exact hcounts k j hk hj
    | false =>
      refine ⟨he, fun k j hk hj => ?_, h.outside, fun hc => absurd hc (by simp), fun _ => .inr hf⟩
      have hcount := h.counts k j hk hj
      simp only [hin, Bool.false_eq_true, false_and, if_false, add_zero, hsame] at hcount ⊢
      exact hcount

end

theorem RtGen.extent_frame (g : RtGeometry) (free : Nat → Bool) (s : RtGen) :
    (s.extent g free).words = s.words ∧ (s.extent g free).bmp = s.bmp ∧
      (s.extent g free).bmbno = s.bmbno := by
  unfold RtGen.extent
  split_ifs <;> exact ⟨rfl, rfl, rfl⟩

def WordBits (free : Nat → Bool) (s : RtGen) (bits : RtWord) : Prop :=
  ∀ i, i < 32 → bits.getLsbD i = freeBelow free s.extno (32 * s.words + i)

theorem WordBits.extent {bits : RtWord} (h : WordBits free s bits) (h1 : 32 * s.words ≤ s.extno) :
    WordBits free (s.extent g free)
      (if free s.extno then bits ||| (1#32 <<< (s.extno - 32 * s.words)) else bits) := by
  intro i hi
  have hbit : (1#32 <<< (s.extno - 32 * s.words)).getLsbD i =
      decide (32 * s.words + i = s.extno) := by
    rw [BitVec.getLsbD_shiftLeft, BitVec.getLsbD_one, Bool.eq_iff_iff]
    simp only [Bool.and_eq_true, Bool.not_eq_true', decide_eq_true_eq, decide_eq_false_iff_not]
    omega
  have hold := h i hi
  rw [RtGen.extent_extno, (RtGen.extent_frame g free s).1]
  unfold freeBelow at hold ⊢
  by_cases hx : 32 * s.words + i = s.extno
  · cases hf : free s.extno <;> simp [hf, hbit, hx, hold]
  · have hlt : decide (32 * s.words + i < s.extno + 1) = decide (32 * s.words + i < s.extno) := by
      rw [decide_eq_decide]
      omega
    rw [hlt]
    cases hf : free s.extno <;> simp [hbit, hx, hold]

theorem RtGen.bits_spec (free : Nat → Bool) (hsmall : g.rbmblocks * g.rsumlevels ≤ 2 ^ 32) (n : Nat) :
    ∀ s freebit bits, s.Counts g free → 32 * s.words ≤ s.extno →
      s.extno + n = 32 * s.words + 32 → s.bmbno = s.words / g.blockwsize →
      freebit = 1#32 <<< (s.extno - 32 * s.words) → WordBits free s bits →
      ∃ s' bits', RtGen.bits g free n s freebit bits = (s', bits') ∧ s'.Counts g free ∧
        s'.words = s.words ∧ s'.bmp = s.bmp ∧ s'.bmbno = s.bmbno ∧ WordBits free s' bits' ∧
        s'.extno = min (32 * s.words + 32) g.rtgExtents := by
  induction n with
  | zero =>
    intro s freebit bits hC h1 h2 hb hf hB
    have := hC.le
    exact ⟨s, bits, rfl, hC, rfl, rfl, rfl, hB, by omega⟩
  | succ n ih =>
    intro s freebit bits hC h1 h2 hb hf hB
    have hle := hC.le
    by_cases he : s.extno = g.rtgExtents
    · exact ⟨s, bits, by rw [RtGen.bits, if_pos he], hC, rfl, rfl, rfl, hB, by omega⟩
    obtain ⟨hw, hbmp, hbno⟩ := RtGen.extent_frame g free s
    have hext := RtGen.extent_extno g free s
    have hblock : s.bmbno = rtxToRbmblock g s.extno := by
      rw [hb, rtxToRbmblock_eq, show s.extno / 32 = s.words by omega]
    have hbits := hB.extent (g := g) h1
    rw [← hf] at hbits
    obtain ⟨s', bits', hrun, hC', hw', hbmp', hbno', hB', he'⟩ := ih (s.extent g free)
      (freebit <<< 1) _ (hC.extent hsmall (by omega) hblock) (by omega) (by omega) (by rw [hbno, hw, hb])
      (by rw [hf, hext, hw, Nat.sub_add_comm h1, BitVec.shiftLeft_add]) hbits
    refine ⟨s', bits', ?_, hC', hw'.trans hw, hbmp'.trans hbmp, hbno'.trans hbno, hB',
      by rw [he', hw]⟩
    rw [RtGen.bits, if_neg he]
    exact hrun

/-- The words that are done are the bitmap of the extents that were looked at. -/
structure RtGen.Inv (g : RtGeometry) (free : Nat → Bool) (s : RtGen) : Prop where
  counts : s.Counts g free
  extno : s.extno = min (32 * s.words) g.rtgExtents
  bmbno : s.extno < g.rtgExtents → s.bmbno = s.words / g.blockwsize
  bmp : ∀ q i, i < 32 → (s.bmp q).getLsbD i = freeBelow free s.extno (32 * q + i)

theorem RtGen.Inv.word (h : s.Inv g free) (hsmall : g.rbmblocks * g.rsumlevels ≤ 2 ^ 32)
    (he : s.extno < g.rtgExtents) :
    (s.word g free).Inv g free := by
  have hext := h.extno
  have hfirst : s.extno = 32 * s.words := by omega
  obtain ⟨s', bits', hrun, hC, hw, hbmp, hbno, hB, he'⟩ := RtGen.bits_spec free hsmall 32
    s 1#32 0#32 h.counts (by omega) (by omega) (h.bmbno he) (by simp [hfirst]) (fun i _ => by
      simp [freeBelow, hfirst])
  unfold RtGen.word
  rw [hrun]
  refine ⟨⟨hC.le, hC.counts, hC.outside, hC.inside, hC.between⟩, ?_, fun hlt => ?_, fun q i hi => ?_⟩
  · simp only
    omega
  · simp only at hlt ⊢
    have hext' : s'.extno = 32 * (s.words + 1) := by omega
    rw [hbno, h.bmbno he, hw, shiftLeft_eq, hext', mul_comm g.blockwsize (2 ^ 5),
      show (2 : Nat) ^ 5 = 32 from rfl, mul_mod_mul_left, Nat.succ_div]
    by_cases hd : g.blockwsize ∣ s.words + 1
    · have hz : (s.words + 1) % g.blockwsize = 0 := mod_eq_zero_of_dvd hd
      simp [hd, hz]
    · rw [if_neg hd, if_neg (by omega)]
      rfl
  · simp only
    by_cases hq : q = s.words
    · rw [hw, hq, update_self, hB i hi, hw]
    · rw [hw, update_of_ne hq, hbmp, h.bmp q i hi]
      unfold freeBelow
      congr 1
      rw [decide_eq_decide]
      omega

theorem RtGen.Inv.loop (h : s.Inv g free) (hsmall : g.rbmblocks * g.rsumlevels ≤ 2 ^ 32) :
    (RtGen.loop g free s).Inv g free ∧ (RtGen.loop g free s).extno = g.rtgExtents := by
  induction hn : g.rtgExtents - s.extno using Nat.strong_induction_on generalizing s with
  | _ n ih =>
    rw [RtGen.loop]
    by_cases he : s.extno < g.rtgExtents
    · rw [dif_pos he]
      have := RtGen.lt_word_extno g free s he
      exact ih (g.rtgExtents - (s.word g free).extno) (by omega) (h.word hsmall he) rfl
    · rw [dif_neg he]
      exact ⟨h, le_antisymm h.counts.le (by omega)⟩

theorem RtGen.inv_init (g : RtGeometry) (free : Nat → Bool) : RtGen.init.Inv g free := by
  refine ⟨⟨zero_le _, fun k j _ _ => ?_, fun _ _ => rfl, fun h => absurd h (by decide),
    fun _ => .inl rfl⟩, by simp [RtGen.init], fun _ => by simp [RtGen.init],
    fun q i _ => by simp [RtGen.init, freeBelow]⟩
  have hzero : freeRuns g (freeBelow free RtGen.init.extno) k j = 0 :=
    runCount_eq_zero (fun x _ => by simp [freeBelow, RtGen.init]) _
  rw [hzero]
  simp [RtGen.init]

theorem generateRtgroupRtinfo_spec (free : Nat → Bool)
    (hsmall : g.rbmblocks * g.rsumlevels ≤ 2 ^ 32) :
    (∀ q i, i < 32 → ((generateRtgroupRtinfo g free).bmp q).getLsbD i =
      freeBelow free g.rtgExtents (32 * q + i)) ∧
    (∀ k j, k < g.rsumlevels → j < g.rbmblocks →
      ((generateRtgroupRtinfo g free).sum (rtsumoffs g k j)).toNat = freeRuns g free k j) ∧
    ∀ so, g.rbmblocks * g.rsumlevels ≤ so → (generateRtgroupRtinfo g free).sum so = 0#32 := by
  obtain ⟨hinv, hend⟩ := (RtGen.inv_init g free).loop hsmall
  have hruns : ∀ k j, freeRuns g (freeBelow free g.rtgExtents) k j = freeRuns g free k j :=
    fun k j => runCount_congr (fun x hx => by simp [freeBelow, hx]) _
  refine ⟨fun q i hi => by rw [← hend]; exact hinv.bmp q i hi, ?_⟩
  have hcounts := hinv.counts
  unfold generateRtgroupRtinfo
  generalize RtGen.loop g free RtGen.init = s at *
  by_cases hin : s.inExtent = true
  · obtain ⟨hclose, houtside⟩ := hcounts.close hsmall hin
    simp only [hin, if_true]
    exact ⟨fun k j hk hj => by rw [← hclose k j hk hj, hend, hruns], houtside⟩
  · simp only [hin, Bool.false_eq_true, if_false]
    refine ⟨fun k j hk hj => ?_, hcounts.outside⟩
    have hcount := hcounts.counts k j hk hj
    simp only [hin, Bool.false_eq_true, false_and, if_false, add_zero] at hcount
    rw [← hcount, hend, hruns]

end Invariant

def rtAllAllocated (cache : Option (Nat → Nat)) : RtState :=
  ⟨fun _ _ => 0#32, fun _ _ => 0#32, cache⟩

/-- Free one range after the other. -/
def rtfreeRanges (g : RtGeometry) : RtState → List (Nat × Nat) → RtFileM RtState
  | st, [] => .ok st
  | st, (start, len) :: ranges => do
      let st ← rtfreeRange g st start len
      rtfreeRanges g st ranges

def inRanges (ranges : List (Nat × Nat)) (x : Nat) : Bool :=
  ranges.any fun r => decide (r.1 ≤ x ∧ x < r.1 + r.2)

/-- Disjoint ranges of the group, with lengths that an `int` can count. -/
structure FreeableRanges (g : RtGeometry) (ranges : List (Nat × Nat)) : Prop where
  inside : ∀ r ∈ ranges, 0 < r.2 ∧ r.2 < 2 ^ 31 ∧ r.1 + r.2 ≤ g.rtgExtents
  disjoint : ranges.Pairwise fun r s => r.1 + r.2 ≤ s.1 ∨ s.1 + s.2 ≤ r.1

section Frees

variable {g : RtGeometry} {ranges : List (Nat × Nat)}

theorem inRanges_cons (start len : Nat) (ranges : List (Nat × Nat)) (x : Nat) :
    inRanges ((start, len) :: ranges) x =
      (decide (start ≤ x ∧ x < start + len) || inRanges ranges x) := rfl

theorem FreeableRanges.lt_of_inRanges (h : FreeableRanges g ranges) {x : Nat}
    (hx : inRanges ranges x) : x < g.rtgExtents := by
  obtain ⟨r, hr, hin⟩ := any_eq_true.mp hx
  have := h.inside r hr
  simp only [decide_eq_true_eq] at hin
  omega

theorem rtfreeRanges_spec (hsmall : g.rbmblocks * g.rsumlevels ≤ 2 ^ 32)
    (h : FreeableRanges g ranges) :
    ∀ st, SummaryConsistent g st → RsumCacheBound g st →
      (∀ r ∈ ranges, ∀ x, r.1 ≤ x → x < r.1 + r.2 → rtFree g st x = false) →
      ∃ st', rtfreeRanges g st ranges = .ok st' ∧ SummaryConsistent g st' ∧
        RsumCacheBound g st' ∧ (∀ x, rtFree g st' x = (inRanges ranges x || rtFree g st x)) ∧
        ∀ so, g.rbmblocks * g.rsumlevels ≤ so → suminfo g st' so = suminfo g st so := by
  induction ranges with
  | nil =>
    intro st hcons hbound _
    exact ⟨st, rfl, hcons, hbound, fun x => by simp [inRanges], fun _ _ => rfl⟩
  | cons r ranges ih =>
    intro st hcons hbound halloc
    obtain ⟨start, len⟩ := r
    obtain ⟨hdisj, hrest⟩ := pairwise_cons.mp h.disjoint
    obtain ⟨hpos, hlen, hin⟩ := h.inside (start, len) mem_cons_self
    obtain ⟨st1, pre, post, hrun1, hfreed⟩ := rtfreeRange_freed hpos hlen hin
      (halloc (start, len) mem_cons_self)
    obtain ⟨st', hrun, hcons', hbound', hbits, hout⟩ := ih
      ⟨fun r hr => h.inside r (mem_cons_of_mem _ hr), hrest⟩ st1 (hfreed.consistent hsmall hcons)
      (hfreed.bound hsmall hbound)
      (fun r hr x h1 h2 => by
        have hd := hdisj r hr
        rw [hfreed.bits, if_neg (by omega)]
        exact halloc r (mem_cons_of_mem _ hr) x h1 h2)
    refine ⟨st', ?_, hcons', hbound', fun x => ?_,
      fun so hso => (hout so hso).trans (hfreed.outside hso)⟩
    · simp only [rtfreeRanges, hrun1]
      exact hrun
    · rw [hbits, hfreed.bits, inRanges_cons]
      by_cases hx : start ≤ x ∧ x < start + len
      · simp [hx]
      · simp [hx]

theorem rtFree_allAllocated (cache : Option (Nat → Nat)) (x : Nat) :
    rtFree g (rtAllAllocated cache) x = false := by
  simp [rtFree, RtFile.bit, RtFile.flat, rtAllAllocated]

theorem suminfo_allAllocated (cache : Option (Nat → Nat)) (so : Nat) :
    suminfo g (rtAllAllocated cache) so = 0#32 := rfl

theorem summaryConsistent_allAllocated (cache : Option (Nat → Nat)) :
    SummaryConsistent g (rtAllAllocated cache) := by
  intro k j _ _
  exact (runCount_eq_zero (fun x _ => rtFree_allAllocated cache x) _).symm

end Frees

/-- Freeing an allocated range keeps the summary consistent and the cached
levels above every level in use. After any frees of disjoint ranges both files
are the ones repair computes from the extents that are free. -/
theorem rtbitmap_summary_consistent (g : RtGeometry)
    (hsmall : g.rbmblocks * g.rsumlevels ≤ 2 ^ 32) :
    (∀ st start len, SummaryConsistent g st → 0 < len → len < 2 ^ 31 → start + len ≤ g.rtgExtents →
      (∀ x, start ≤ x → x < start + len → rtFree g st x = false) →
      ∃ st', rtfreeRange g st start len = .ok st' ∧ SummaryConsistent g st' ∧
        (∀ x, rtFree g st' x = (decide (start ≤ x ∧ x < start + len) || rtFree g st x)) ∧
        (RsumCacheBound g st → RsumCacheBound g st')) ∧
    (∀ cache ranges, FreeableRanges g ranges →
      ∃ st', rtfreeRanges g (rtAllAllocated cache) ranges = .ok st' ∧
        (∀ block word, block < g.rbmblocks → word < g.blockwsize → st'.bitmap block word =
          (generateRtgroupRtinfo g (inRanges ranges)).bmp (block * g.blockwsize + word)) ∧
        (∀ so, so < g.rsumblocks * g.blockwsize →
          suminfo g st' so = (generateRtgroupRtinfo g (inRanges ranges)).sum so) ∧
        RsumCacheBound g st') := by
  refine ⟨fun st start len hcons hpos hlen hin halloc => ?_, fun cache ranges hr => ?_⟩
  · obtain ⟨st', pre, post, hrun, hfreed⟩ := rtfreeRange_freed hpos hlen hin halloc
    refine ⟨st', hrun, hfreed.consistent hsmall hcons, fun x => ?_, hfreed.bound hsmall⟩
    rw [hfreed.bits]
    by_cases hx : start ≤ x ∧ x < start + len <;> simp [hx]
  · obtain ⟨st', hrun, hcons, hbound, hbits, hout⟩ := rtfreeRanges_spec hsmall hr (rtAllAllocated cache)
      (summaryConsistent_allAllocated cache)
      (fun _ _ k j _ _ hne => absurd (suminfo_allAllocated cache _) hne)
      (fun _ _ x _ _ => rtFree_allAllocated cache x)
    obtain ⟨hbmp, hsum, hzero⟩ := generateRtgroupRtinfo_spec (inRanges ranges) hsmall
    have hfree : ∀ x, rtFree g st' x = inRanges ranges x := fun x => by
      rw [hbits, rtFree_allAllocated, Bool.or_false]
    refine ⟨st', hrun, fun block word _ hword => ?_, fun so _ => ?_, hbound⟩
    · have hat : (g.file st'.bitmap).At (block * g.blockwsize + word) block word := ⟨rfl, hword⟩
      refine BitVec.eq_of_getLsbD_eq fun i hi => ?_
      rw [show st'.bitmap block word = _ from hat.words, hbmp _ i hi, ← RtFile.bit_word _ hi,
        show RtFile.bit _ _ = _ from hfree _, freeBelow]
      cases hx : inRanges ranges (32 * (block * g.blockwsize + word) + i) with
      | false => rfl
      | true => simpa using hr.lt_of_inRanges hx
    · rcases lt_or_ge so (g.rbmblocks * g.rsumlevels) with hso | hso
      · have hpos : 0 < g.rbmblocks := Nat.pos_of_lt_mul_right hso
        have hk : so / g.rbmblocks < g.rsumlevels := Nat.div_lt_of_lt_mul hso
        have hj : so % g.rbmblocks < g.rbmblocks := mod_lt _ hpos
        have hoffs : rtsumoffs g (so / g.rbmblocks) (so % g.rbmblocks) = so :=
          (rtsumoffs_eq hsmall hk hj).trans (div_add_mod' _ _)
        apply BitVec.eq_of_toNat_eq
        rw [← hoffs, hcons _ _ hk hj, hsum _ _ hk hj, funext hfree]
      · rw [hout so hso, suminfo_allAllocated, hzero so hso]

def sampleRtGeometry : RtGeometry :=
  ⟨true, 12, 65536, 40000, by decide, by decide, by decide⟩

theorem rtbitmap_summary_consistent_sample :
    (∃ st', rtfreeRange sampleRtGeometry (rtAllAllocated none) 31 40 = .ok st' ∧
      SummaryConsistent sampleRtGeometry st') ∧
    ∃ st', rtfreeRanges sampleRtGeometry (rtAllAllocated (some fun _ => 0))
        [(31, 40), (32350, 50), (71, 9)] = .ok st' ∧
      (∀ so, so < sampleRtGeometry.rsumblocks * sampleRtGeometry.blockwsize →
        suminfo sampleRtGeometry st' so = (generateRtgroupRtinfo sampleRtGeometry
          (inRanges [(31, 40), (32350, 50), (71, 9)])).sum so) ∧
      RsumCacheBound sampleRtGeometry st' := by
  obtain ⟨hfree, hfrees⟩ := rtbitmap_summary_consistent sampleRtGeometry (by decide)
  refine ⟨?_, ?_⟩
  · obtain ⟨st', hrun, hcons, -⟩ := hfree (rtAllAllocated none) 31 40
      (summaryConsistent_allAllocated none) (by decide) (by decide) (by decide)
      (fun x _ _ => rtFree_allAllocated none x)
    exact ⟨st', hrun, hcons⟩
  · obtain ⟨st', hrun, -, hsum, hbound⟩ := hfrees (some fun _ => 0)
      [(31, 40), (32350, 50), (71, 9)] ⟨by decide, by decide⟩
    exact ⟨st', hrun, hsum, hbound⟩

/-- One group of 2^44 extents in blocks of 4 KiB: 2^29 blocks of bitmap and 45 levels. -/
def wideRtGeometry : RtGeometry :=
  ⟨false, 12, 2 ^ 44, 2 ^ 44, by decide, by decide, le_rfl⟩

/-- Freeing the first 256 extents of a group so large changes the counter of single extents, since
the place of the counter for 256 extents wraps around to 0. -/
theorem rtfree_summary_offset_wraps : SummaryConsistent wideRtGeometry (rtAllAllocated none) ∧
      ∃ st', rtfreeRange wideRtGeometry (rtAllAllocated none) 0 256 = .ok st' ∧
        ¬ SummaryConsistent wideRtGeometry st' := by
  refine ⟨summaryConsistent_allAllocated none, ?_⟩
  obtain ⟨st', pre, post, hrun, hfreed⟩ := @rtfreeRange_freed wideRtGeometry (rtAllAllocated none)
    0 256 (by decide) (by decide) (by decide) fun x _ _ => rtFree_allAllocated none x
  have hpre := hfreed.fills.pre_le
  have hle := hfreed.fills.le_post
  obtain rfl : pre = 0 := by omega
  obtain rfl : post = 256 := by
    by_contra hne
    have hfree := hfreed.fills.inner 256 (by omega) (by omega)
    rw [hfreed.bits, rtFree_allAllocated] at hfree
    simp at hfree
  refine ⟨st', hrun, fun hcons => ?_⟩
  have hcount := hfreed.fills.runCount_eq (countedAt wideRtGeometry 0 0)
  have hzero : freeRuns wideRtGeometry (rtFree wideRtGeometry (rtAllAllocated none)) 0 0 = 0 :=
    runCount_eq_zero (fun x _ => rtFree_allAllocated none x) _
  have hone : suminfo wideRtGeometry st' (rtsumoffs wideRtGeometry 0 0) = 1#32 := by
    rw [hfreed.counters, suminfo_allAllocated]
    rfl
  have hcounter := hcons 0 0 (by decide) (by decide)
  rw [hone] at hcounter
  unfold freeRuns at hcounter hzero
  rw [hzero, ← hcounter] at hcount
  revert hcount
  decide

end Xfs
