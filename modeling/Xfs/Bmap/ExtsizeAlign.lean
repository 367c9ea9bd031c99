import Xfs.Basic
import Xfs.Bmap.Record

/-! Aligning a request for new blocks to the extent size of the file, from
`xfs_bmap_extsize_align`. -/
namespace Xfs

open Nat

def nullFileOff : Nat := 2 ^ 64 - 1

def delayStartBlock : Nat := 2 ^ 64 - 1

def holeStartBlock : Nat := 2 ^ 64 - 2

def maxBmbtExtlen : Nat := 2 ^ 21 - 1

structure FileRange where
  off : Nat
  len : Nat
deriving DecidableEq, Repr

abbrev FileRange.fin (r : FileRange) : Nat := r.off + r.len

/-- Reduce the length by an extent size until it is under the limit. -/
def extsizeCutBack (extsz : Nat) : Nat → Nat → Nat
  | 0, alen => alen
  | fuel + 1, alen =>
    if maxBmbtExtlen < alen then extsizeCutBack extsz fuel (alen - extsz) else alen

def extsizeRound (extsz : Nat) (orig : FileRange) : FileRange :=
  let temp := orig.off % extsz
  let alen := orig.len + temp
  ⟨orig.off - temp, if alen % extsz = 0 then alen else alen + (extsz - alen % extsz)⟩

def extsizeAfterPrev (orig : FileRange) (prevo off : Nat) : Nat :=
  if off ≠ orig.off ∧ off < prevo then prevo else off

def extsizeBeforeNext (orig : FileRange) (eof : Bool) (nexto len off : Nat) : Nat :=
  if eof = false ∧ off + len ≠ orig.fin ∧ nexto < off + len then
    if len < nexto then nexto - len else 0
  else off

/-- Move the range into the hole, and cut it off if the hole is too small for it. -/
def extsizeFit (orig : FileRange) (eof : Bool) (prevo nexto : Nat) (r : FileRange) : FileRange :=
  let off := extsizeAfterPrev orig prevo
    (extsizeBeforeNext orig eof nexto r.len (extsizeAfterPrev orig prevo r.off))
  if off + r.len ≠ orig.fin ∧ nexto < off + r.len ∧ nexto ≠ nullFileOff then ⟨off, nexto - off⟩
  else ⟨off, r.len⟩

/-- Take `temp` blocks off at the start or the end, or trim to the minimum. -/
def extsizeRtCut (rextsize temp : Nat) (orig r : FileRange) : FileRange :=
  if r.off + temp ≤ orig.off then ⟨r.off + temp, r.len - temp⟩
  else if orig.fin ≤ r.fin - temp then ⟨r.off, r.len - temp⟩
  else
    let alen := r.len - (orig.off - r.off)
    ⟨orig.off, alen - alen % rextsize⟩

def extsizeRtTrim (rextsize : Nat) (orig r : FileRange) : Except Errno FileRange :=
  let temp := r.len % rextsize
  if temp = 0 then .ok r
  else if orig.off < r.off ∨ r.fin < orig.fin ∨ r.len - temp < orig.len then .error .einval
  else
    let s := extsizeRtCut rextsize temp orig r
    if orig.off < s.off ∨ s.fin < orig.fin then .error .einval else .ok s

def bmapExtsizeAlign (rextsize : Nat) (got prev : BmbtIrec) (extsz : Nat)
    (rt eof delay convert : Bool) (orig : FileRange) : Except Errno FileRange :=
  if convert then .ok orig
  else if delay = false ∧ eof = false ∧ got.startoff ≤ orig.off ∧
      orig.fin ≤ got.startoff + got.blockcount then .ok orig
  else
    let r := extsizeRound extsz orig
    let r := { r with len := extsizeCutBack extsz r.len r.len }
    let prevo :=
      if prev.startoff = nullFileOff then 0
      else if prev.startblock = holeStartBlock then prev.startoff
      else prev.startoff + prev.blockcount
    let nexto :=
      if eof = false ∧ got.startoff ≠ nullFileOff then
        if (delay = true ∧ got.startblock = holeStartBlock) ∨
            (delay = false ∧ got.startblock = delayStartBlock) then got.startoff + got.blockcount
        else got.startoff
      else nullFileOff
    let r := extsizeFit orig eof prevo nexto r
    if rt then extsizeRtTrim rextsize orig r else .ok r

def holeStart (prev : BmbtIrec) : Nat :=
  if prev.startoff = nullFileOff then 0 else prev.startoff + prev.blockcount

def holeEnd (eof : Bool) (got : BmbtIrec) : Nat :=
  if eof then nullFileOff else got.startoff

/-- A request in the hole between two extents of a file. File offsets have 54 bits. -/
structure InHole (got prev : BmbtIrec) (eof : Bool) (orig : FileRange) : Prop where
  pos : 1 ≤ orig.len
  len_le : orig.len ≤ maxBmbtExtlen
  fin_le : orig.fin ≤ 2 ^ 54
  start : holeStart prev ≤ orig.off
  stop : orig.fin ≤ holeEnd eof got
  gotReal : got.startblock ≠ delayStartBlock
  prevReal : prev.startblock ≠ holeStartBlock

/-- What is wanted of the aligned range. -/
structure ExtsizeAligned (rextsize : Nat) (got prev : BmbtIrec) (extsz : Nat) (rt eof : Bool)
    (orig r : FileRange) : Prop where
  mem : r.off ≤ orig.off ∧ orig.off < r.fin
  start : holeStart prev ≤ r.off
  stop : holeEnd eof got ≠ nullFileOff → r.fin ≤ holeEnd eof got
  len_le : r.len ≤ maxBmbtExtlen
  whole : (extsizeRound extsz orig).len ≤ maxBmbtExtlen → orig.fin ≤ r.fin
  aligned : (rt = true → rextsize ∣ extsz) → (extsizeRound extsz orig).len ≤ maxBmbtExtlen →
    holeStart prev ≤ (extsizeRound extsz orig).off →
    (extsizeRound extsz orig).fin ≤ holeEnd eof got → extsz ∣ r.off ∧ extsz ∣ r.fin
  rt : rt = true → rextsize ∣ r.len

variable {rextsize extsz prevo nexto : Nat} {got prev : BmbtIrec} {rt eof : Bool}
  {orig r s : FileRange}

theorem extsizeRound_spec (h : 0 < extsz) (orig : FileRange) :
    (extsizeRound extsz orig).off ≤ orig.off ∧ orig.off < (extsizeRound extsz orig).off + extsz ∧
      orig.fin ≤ (extsizeRound extsz orig).fin ∧ extsz ∣ (extsizeRound extsz orig).off ∧
      extsz ∣ (extsizeRound extsz orig).len ∧
      (extsizeRound extsz orig).len < orig.len + 2 * extsz := by
  have hmod := mod_lt orig.off h
  have hmod' := mod_lt (orig.len + orig.off % extsz) h
  have hle' := mod_le (orig.len + orig.off % extsz) extsz
  have hdvd' := dvd_sub_mod (n := extsz) (orig.len + orig.off % extsz)
  simp only [extsizeRound, FileRange.fin]
  refine ⟨by omega, by omega, ?_, dvd_sub_mod _, ?_, ?_⟩
  · split <;> omega
  · split
    · exact dvd_of_mod_eq_zero ‹_›
    · rw [show ∀ a b : Nat, b ≤ a → b < extsz → a + (extsz - b) = a - b + extsz by omega]
      · exact Nat.dvd_add hdvd' (dvd_refl extsz)
      · exact hle'
      · exact hmod'
  · split <;> omega

theorem extsizeCutBack_spec {fuel alen : Nat} (h : 0 < extsz) (hext : extsz ≤ maxBmbtExtlen)
    (hfuel : alen ≤ fuel) (hdvd : extsz ∣ alen) (hge : extsz ≤ alen) :
    extsz ∣ extsizeCutBack extsz fuel alen ∧ extsz ≤ extsizeCutBack extsz fuel alen ∧
      extsizeCutBack extsz fuel alen ≤ maxBmbtExtlen ∧ extsizeCutBack extsz fuel alen ≤ alen ∧
      (alen ≤ maxBmbtExtlen → extsizeCutBack extsz fuel alen = alen) := by
  induction fuel generalizing alen with
  | zero => omega
  | succ fuel ih =>
    rw [extsizeCutBack]
    by_cases hlong : maxBmbtExtlen < alen
    · rw [if_pos hlong]
      have hrest : extsz ∣ alen - extsz := dvd_sub hdvd (dvd_refl extsz)
      obtain ⟨h1, h2, h3, h4, -⟩ := ih (by omega) hrest (le_of_dvd (by omega) hrest)
      exact ⟨h1, h2, h3, by omega, by omega⟩
    · rw [if_neg hlong]
      exact ⟨hdvd, hge, by omega, le_rfl, fun _ => rfl⟩

theorem extsizeAfterPrev_spec {off : Nat} (hstart : prevo ≤ orig.off) (hoff : off ≤ orig.off) :
    prevo ≤ extsizeAfterPrev orig prevo off ∧ off ≤ extsizeAfterPrev orig prevo off ∧
      extsizeAfterPrev orig prevo off ≤ orig.off ∧
      (prevo ≤ off → extsizeAfterPrev orig prevo off = off) := by
  unfold extsizeAfterPrev
  split <;> omega

theorem extsizeFit_spec (hpos : 1 ≤ orig.len) (hstart : prevo ≤ orig.off) (hstop : orig.fin ≤ nexto)
    (hoff : r.off ≤ orig.off) (hmem : orig.off < r.fin)
    (hbound : orig.off + r.len < nullFileOff) (hs : extsizeFit orig eof prevo nexto r = s) :
    prevo ≤ s.off ∧ s.off ≤ orig.off ∧ orig.off < s.fin ∧
      (nexto ≠ nullFileOff → s.fin ≤ nexto) ∧ s.len ≤ r.len ∧
      (orig.fin ≤ r.fin → orig.fin ≤ s.fin) ∧ (prevo ≤ r.off → r.fin ≤ nexto → s = r) := by
  have h1 := extsizeAfterPrev_spec hstart hoff
  rw [extsizeFit] at hs
  generalize extsizeAfterPrev orig prevo r.off = a at h1 hs
  generalize hb : extsizeBeforeNext orig eof nexto r.len a = b at hs
  have h2 : b ≤ a ∧ (b = a ∨ nexto ≤ b + r.len) ∧ (a + r.len ≤ nexto → b = a) := by
    rw [← hb, extsizeBeforeNext]
    split_ifs <;> omega
  have h3 := extsizeAfterPrev_spec hstart (show b ≤ orig.off by omega)
  generalize extsizeAfterPrev orig prevo b = c at h3 hs
  subst hs
  split <;> simp only [FileRange.fin] at * <;>
    refine ⟨by omega, by omega, by omega, by omega, by omega, by omega, fun hp hn => ?_⟩
  · omega
  · rw [show c = r.off by omega]

theorem extsizeRtTrim_spec (hpos : 1 ≤ orig.len) (hoff : r.off ≤ orig.off) (hmem : orig.off < r.fin)
    (hs : extsizeRtTrim rextsize orig r = .ok s) :
    rextsize ∣ s.len ∧ r.off ≤ s.off ∧ s.off ≤ orig.off ∧ orig.off < s.fin ∧ s.fin ≤ r.fin ∧
      s.len ≤ r.len ∧ (orig.fin ≤ r.fin → orig.fin ≤ s.fin) ∧ (rextsize ∣ r.len → s = r) := by
  have hle := mod_le r.len rextsize
  have hcut : rextsize ∣ (extsizeRtCut rextsize (r.len % rextsize) orig r).len ∧
      r.off ≤ (extsizeRtCut rextsize (r.len % rextsize) orig r).off ∧
      (extsizeRtCut rextsize (r.len % rextsize) orig r).fin ≤ r.fin ∧
      (extsizeRtCut rextsize (r.len % rextsize) orig r).len ≤ r.len := by
    simp only [extsizeRtCut]
    split_ifs <;> exact ⟨dvd_sub_mod _, by dsimp only; omega, by simp only [FileRange.fin]; omega,
      by dsimp only; omega⟩
  rw [extsizeRtTrim] at hs
  by_cases hzero : r.len % rextsize = 0
  · rw [if_pos hzero] at hs
    obtain rfl := Except.ok.inj hs
    exact ⟨dvd_of_mod_eq_zero hzero, le_rfl, hoff, hmem, le_rfl, le_rfl, id, fun _ => rfl⟩
  simp only [if_neg hzero] at hs
  split_ifs at hs
  obtain rfl := Except.ok.inj hs
  obtain ⟨hdvd, hlow, hhigh, hlen⟩ := hcut
  simp only [FileRange.fin] at *
  exact ⟨hdvd, hlow, by omega, by omega, hhigh, hlen, by omega,
    fun hd => absurd (mod_eq_zero_of_dvd hd) hzero⟩

def extsizeInHole (got prev : BmbtIrec) (extsz : Nat) (eof : Bool) (orig : FileRange) : FileRange :=
  extsizeFit orig eof (holeStart prev) (holeEnd eof got)
    ⟨(extsizeRound extsz orig).off,
      extsizeCutBack extsz (extsizeRound extsz orig).len (extsizeRound extsz orig).len⟩

theorem bmapExtsizeAlign_eq (h : InHole got prev eof orig) :
    bmapExtsizeAlign rextsize got prev extsz rt eof false false orig =
      if rt then extsizeRtTrim rextsize orig (extsizeInHole got prev extsz eof orig)
      else .ok (extsizeInHole got prev extsz eof orig) := by
  have hnot : ¬ (eof = false ∧ got.startoff ≤ orig.off ∧
      orig.fin ≤ got.startoff + got.blockcount) := by
    rintro ⟨rfl, hle, -⟩
    have hstop := h.stop
    have hpos := h.pos
    simp only [holeEnd, FileRange.fin, Bool.false_eq_true, if_false] at hstop
    omega
  have hnexto : (if eof = false ∧ got.startoff ≠ nullFileOff then got.startoff
      else nullFileOff) = holeEnd eof got := by
    cases eof <;> by_cases hnull : got.startoff = nullFileOff <;> simp [holeEnd, hnull]
  simp only [bmapExtsizeAlign, h.gotReal, h.prevReal, Bool.false_eq_true, true_and, false_and,
    and_false, or_self, if_neg hnot, if_false, hnexto]
  rfl

/-- A range in the hole around the start of the request, aligned where there is
room, which covers the request unless its length had to be cut back. -/
theorem extsize_align_sound (hext : 1 ≤ extsz) (hmax : extsz ≤ maxBmbtExtlen)
    (h : InHole got prev eof orig)
    (hs : bmapExtsizeAlign rextsize got prev extsz rt eof false false orig = .ok s) :
    ExtsizeAligned rextsize got prev extsz rt eof orig s := by
  obtain ⟨hlow, hnear, hcover, hoffdvd, hlendvd, hround⟩ := extsizeRound_spec hext orig
  have hge : extsz ≤ (extsizeRound extsz orig).len := by
    refine le_of_dvd ?_ hlendvd
    have := h.pos
    simp only [FileRange.fin] at hcover
    omega
  obtain ⟨hcut, hcutge, hcutmax, hcutle, hkeep⟩ :=
    extsizeCutBack_spec hext hmax (le_rfl) hlendvd hge
  rw [bmapExtsizeAlign_eq h, extsizeInHole] at hs
  generalize extsizeCutBack extsz (extsizeRound extsz orig).len (extsizeRound extsz orig).len = alen
    at *
  have hfin := h.fin_le
  simp only [FileRange.fin] at hfin
  obtain ⟨h1, h2, h3, h4, h5, h6, h7⟩ := extsizeFit_spec (r := ⟨(extsizeRound extsz orig).off, alen⟩)
    h.pos h.start h.stop hlow (by simp only [FileRange.fin]; omega)
    (by simp only [nullFileOff, maxBmbtExtlen] at *; omega) (Eq.refl (extsizeFit orig eof _ _ _))
  generalize extsizeFit orig eof (holeStart prev) (holeEnd eof got) ⟨_, alen⟩ = r at *
  -- where there is room, the rounded request is what comes out
  have hwhole : (extsizeRound extsz orig).len ≤ maxBmbtExtlen → orig.fin ≤ r.fin := fun hle =>
    h6 (by rw [hkeep hle]; exact hcover)
  have haligned : (extsizeRound extsz orig).len ≤ maxBmbtExtlen →
      holeStart prev ≤ (extsizeRound extsz orig).off →
      (extsizeRound extsz orig).fin ≤ holeEnd eof got →
      extsz ∣ r.off ∧ extsz ∣ r.len := fun hle hfrom hto => by
    rw [h7 hfrom (by rw [hkeep hle]; exact hto)]
    exact ⟨hoffdvd, hcut⟩
  cases rt with
  | false =>
    obtain rfl : r = s := Except.ok.inj hs
    refine ⟨⟨h2, h3⟩, h1, h4, h5.trans hcutmax, hwhole, fun _ hle hfrom hto => ?_,
      fun hrt => by cases hrt⟩
    obtain ⟨ho, hl⟩ := haligned hle hfrom hto
    exact ⟨ho, Nat.dvd_add ho hl⟩
  | true =>
    obtain ⟨hdvd, t1, t2, t3, t4, t5, t6, t7⟩ := extsizeRtTrim_spec h.pos h2 h3 hs
    refine ⟨⟨t2, t3⟩, by omega, fun hne => t4.trans (h4 hne),
      t5.trans (h5.trans hcutmax), fun hle => t6 (hwhole hle),
      fun hrext hle hfrom hto => ?_, fun _ => hdvd⟩
    obtain ⟨ho, hl⟩ := haligned hle hfrom hto
    rw [t7 ((hrext rfl).trans hl)]
    exact ⟨ho, Nat.dvd_add ho hl⟩

/-- A mark for no extent. -/
def noExtent : BmbtIrec := ⟨nullFileOff, 0, 0, .norm⟩

/-- Blocks 5 to 7 in the hole between blocks 3 and 10. -/
theorem extsize_align_sample : ExtsizeAligned 1 ⟨10, 50, 4, .norm⟩ ⟨0, 30, 4, .norm⟩ 4 false false
    ⟨5, 3⟩ ⟨4, 4⟩ :=
  extsize_align_sound (by decide) (by decide)
    ⟨by decide, by decide, by decide, by decide, by decide, by decide, by decide⟩ (by decide)

/-- A realtime request of the greatest length whose range is cut back to half of it. -/
theorem extsize_align_rt_cut_short : InHole noExtent noExtent true ⟨1, 2 ^ 21 - 1⟩ ∧
    bmapExtsizeAlign (2 ^ 20) noExtent noExtent (2 ^ 20) true true false false ⟨1, 2 ^ 21 - 1⟩ =
      .ok ⟨0, 2 ^ 20⟩ :=
  ⟨⟨by decide, by decide, by decide, by decide, by decide, by decide, by decide⟩, by decide +kernel⟩

/-- A realtime extent size that does not divide the extent size moves the aligned start. -/
theorem extsize_align_rt_unaligned : InHole noExtent noExtent true ⟨1, 2⟩ ∧
    extsizeRound 4 ⟨1, 2⟩ = ⟨0, 4⟩ ∧
    bmapExtsizeAlign 3 noExtent noExtent 4 true true false false ⟨1, 2⟩ = .ok ⟨1, 3⟩ :=
  ⟨⟨by decide, by decide, by decide, by decide, by decide, by decide, by decide⟩, rfl, by decide⟩

end Xfs
