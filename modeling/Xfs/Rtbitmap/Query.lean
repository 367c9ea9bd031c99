import Xfs.Rtbitmap.FileSpec

/-! The free extents of a realtime group, one call of a function for each run of them. -/
namespace Xfs

open Nat List

structure RtallocRec where
  startext : Nat
  extcount : Nat
deriving DecidableEq, Repr

/-- The bitmap of a group with its number of extents. A zoned file system has no bitmap. -/
structure RtgBitmap where
  file : RtFile
  rtgExtents : Nat
  hasZoned : Bool

section Query

variable {σ : Type}

def queryReport (fn : σ → RtallocRec → RtFileM σ) (isFree : Bool) (rec : RtallocRec) (priv : σ) :
    RtFileM σ :=
  if isFree then fn priv rec else pure priv

/-- The loop over the runs of equal bits. `none` means that the fuel is used up. -/
def rtallocQueryLoop (file : RtFile) (fn : σ → RtallocRec → RtFileM σ) (fin : Nat) :
    Nat → Nat → σ → RtFileM (Option σ)
  | 0, _, _ => pure none
  | fuel + 1, start, priv =>
    if start ≤ fin then do
      let (_, isFree) ← file.rtcheckRange start 1 true
      let rtend ← file.rtfindForw start fin
      let priv ← queryReport fn isFree ⟨start, rtend - start + 1⟩ priv
      rtallocQueryLoop file fn fin fuel (rtend + 1) priv
    else pure (some priv)

def rtallocQueryRange (rtg : RtgBitmap) (start fin : Nat) (fn : σ → RtallocRec → RtFileM σ)
    (fuel : Nat) (priv : σ) : RtFileM (Option σ) :=
  if fin < start then .error (.err .einval)
  else if start = fin ∨ rtg.rtgExtents ≤ start then pure (some priv)
  else
    let fin := min fin (rtg.rtgExtents - 1)
    if rtg.hasZoned then .error (.err .einval)
    else rtallocQueryLoop rtg.file fn fin fuel start priv

def rtallocQueryAll (rtg : RtgBitmap) (fn : σ → RtallocRec → RtFileM σ) (fuel : Nat) (priv : σ) :
    RtFileM (Option σ) :=
  rtallocQueryRange rtg 0 (rtg.rtgExtents - 1) fn fuel priv

end Query

variable {f : Nat → Bool} {lo hi start p : Nat} {r : RtallocRec} {recs : List RtallocRec}

/-- The record is a run of set bits between `lo` and `hi` that cannot be extended there. -/
structure MaximalRun (f : Nat → Bool) (lo hi : Nat) (r : RtallocRec) : Prop where
  pos : 0 < r.extcount
  lo_le : lo ≤ r.startext
  le_hi : r.startext + r.extcount ≤ hi + 1
  free : ∀ x, r.startext ≤ x → x < r.startext + r.extcount → f x = true
  left : r.startext = lo ∨ f (r.startext - 1) = false
  right : r.startext + r.extcount = hi + 1 ∨ f (r.startext + r.extcount) = false

/-- The maximal runs, each once and in order, with every free extent in one. -/
structure MaximalRuns (f : Nat → Bool) (lo hi : Nat) (recs : List RtallocRec) : Prop where
  ordered : recs.Pairwise fun r s => r.startext + r.extcount ≤ s.startext
  mem_iff : ∀ r, r ∈ recs ↔ MaximalRun f lo hi r
  covers : ∀ x, lo ≤ x → x ≤ hi → f x = true →
    ∃ r ∈ recs, r.startext ≤ x ∧ x < r.startext + r.extcount

/-- The scan is at the start of a run. -/
def RunStart (f : Nat → Bool) (lo hi start : Nat) : Prop :=
  lo ≤ start ∧ (start = lo ∨ hi < start ∨ f (start - 1) ≠ f start)

theorem RunStart.next (h : RunStart f lo hi start) (hforw : ForwTo f start hi p) :
    RunStart f lo hi (p + 1) := by
  have hle := hforw.le
  refine ⟨by have := h.1; omega, .inr ?_⟩
  rcases hforw.stop with heq | hne
  · exact .inl (by omega)
  · refine .inr ?_
    rw [Nat.add_sub_cancel, hforw.same p hle (le_rfl)]
    exact hne.symm

theorem maximalRun_of_forwTo (h : RunStart f lo hi start) (hforw : ForwTo f start hi p)
    (hfree : f start) : MaximalRun f lo hi ⟨start, p - start + 1⟩ := by
  have hle := hforw.le
  have hlim := hforw.le_limit
  refine ⟨succ_pos _, h.1, by simp only; omega, fun x hx hxp => ?_, ?_, ?_⟩
  · simp only at hx hxp
    rw [hforw.same x hx (by omega), hfree]
  · rcases h.2 with heq | hlt | hne
    · exact .inl heq
    · omega
    · rw [hfree] at hne
      exact .inr (by simpa using hne)
  · rw [show start + (p - start + 1) = p + 1 by omega]
    rcases hforw.stop with heq | hne
    · exact .inl (by omega)
    · rw [hfree] at hne
      exact .inr (by simpa using hne)

theorem MaximalRun.eq_of_forwTo (hr : MaximalRun f lo hi r) (hlo : lo ≤ start)
    (hforw : ForwTo f start hi p) (hfree : f start) (hge : start ≤ r.startext)
    (hle : r.startext ≤ p) : r = ⟨start, p - start + 1⟩ := by
  obtain ⟨s, n⟩ := r
  have hpos := hr.pos
  have hhi := hr.le_hi
  have hlim := hforw.le_limit
  simp only at hpos hhi hge hle
  have hs : s = start := by
    by_contra hne
    rcases hr.left with heq | hbefore
    · simp only at heq
      omega
    · rw [hforw.same (s - 1) (by omega) (by omega), hfree] at hbefore
      cases hbefore
  subst hs
  have hn : s + n = p + 1 := by
    by_contra hne
    rcases lt_or_gt_of_ne hne with hlt | hgt
    · rcases hr.right with heq | hafter
      · simp only at heq
        omega
      · rw [hforw.same (s + n) (by omega) (by omega), hfree] at hafter
        cases hafter
    · rcases hforw.stop with heq | hne'
      · omega
      · exact hne' (by rw [hfree]; exact hr.free (p + 1) (by simp only; omega) (by simp only; omega))
  rw [show n = p - s + 1 by omega]

theorem MaximalRun.start_free (hr : MaximalRun f lo hi r) : f r.startext :=
  hr.free _ (le_rfl) (by have := hr.pos; omega)

theorem MaximalRun.start_le (hr : MaximalRun f lo hi r) : r.startext ≤ hi := by
  have := hr.pos
  have := hr.le_hi
  omega

/-- The records from `start` on. -/
structure RunsFrom (f : Nat → Bool) (lo hi start : Nat) (recs : List RtallocRec) : Prop where
  ordered : recs.Pairwise fun r s => r.startext + r.extcount ≤ s.startext
  mem_iff : ∀ r, r ∈ recs ↔ MaximalRun f lo hi r ∧ start ≤ r.startext
  covers : ∀ x, start ≤ x → x ≤ hi → f x = true →
    ∃ r ∈ recs, r.startext ≤ x ∧ x < r.startext + r.extcount

theorem RunsFrom.free (h : RunsFrom f lo hi (p + 1) recs) (hstart : RunStart f lo hi start)
    (hforw : ForwTo f start hi p) (hfree : f start) :
    RunsFrom f lo hi start (⟨start, p - start + 1⟩ :: recs) := by
  have hle := hforw.le
  refine ⟨pairwise_cons.mpr ⟨fun s hs => ?_, h.ordered⟩, fun r => ?_, fun x hx hxhi hfx => ?_⟩
  · have := ((h.mem_iff s).mp hs).2
    simp only
    omega
  · rw [mem_cons, h.mem_iff]
    constructor
    · rintro (rfl | ⟨hr, hge⟩)
      · exact ⟨maximalRun_of_forwTo hstart hforw hfree, le_rfl⟩
      · exact ⟨hr, by omega⟩
    · rintro ⟨hr, hge⟩
      rcases lt_or_ge p r.startext with hlt | hle'
      · exact .inr ⟨hr, hlt⟩
      · exact .inl (hr.eq_of_forwTo hstart.1 hforw hfree hge hle')
  · rcases lt_or_ge p x with hlt | hle'
    · obtain ⟨r, hr, hin⟩ := h.covers x hlt hxhi hfx
      exact ⟨r, mem_cons_of_mem _ hr, hin⟩
    · exact ⟨_, mem_cons_self, hx, by simp only; omega⟩

theorem RunsFrom.used (h : RunsFrom f lo hi (p + 1) recs) (hforw : ForwTo f start hi p)
    (hused : f start = false) : RunsFrom f lo hi start recs := by
  have hle := hforw.le
  have hafter : ∀ x, start ≤ x → f x → p + 1 ≤ x := by
    intro x hx hfx
    by_contra hlt
    rw [hforw.same x hx (by omega), hused] at hfx
    cases hfx
  refine ⟨h.ordered, fun r => (h.mem_iff r).trans (and_congr_right fun hr => ?_), fun x hx => ?_⟩
  · exact ⟨fun hge => by omega, fun hge => hafter _ hge hr.start_free⟩
  · exact fun hxhi hfx => h.covers x (hafter x hx hfx) hxhi hfx

theorem rtallocQueryLoop_spec (file : RtFile) (lo hi fuel : Nat)
    (hread : ∀ x ≤ hi, file.Readable x) :
    ∀ start, RunStart file.bit lo hi start → hi + 1 - start < fuel →
      ∃ recs, RunsFrom file.bit lo hi start recs ∧ ∀ {σ : Type} (g : σ → RtallocRec → σ) (priv : σ),
          rtallocQueryLoop file (fun s r => .ok (g s r)) hi fuel start priv =
            .ok (some (recs.foldl g priv)) := by
  induction fuel with
  | zero => exact fun start _ hfuel => absurd hfuel (not_lt_zero _)
  | succ fuel ih =>
    intro start hstart hfuel
    by_cases hle : start ≤ hi
    · obtain ⟨d, hcheck, hdiff⟩ := file.rtcheckRange_firstDiff start 1 true (by omega)
        (hread start hle) fun j hj _ => hread _ (by omega)
      obtain ⟨p, hfind, hforw⟩ := file.rtfindForw_forwTo hle fun j hj _ => hread _ (by omega)
      have hp := hforw.le
      have hfree : d.isNone = file.bit start := by
        cases d with
        | none => exact (hdiff 0 one_pos).symm
        | some i =>
          obtain ⟨hi, hne, -⟩ := hdiff
          rw [show start + i = start by omega] at hne
          exact (by simpa using hne : file.bit start = false).symm
      obtain ⟨recs, hruns, hloop⟩ := ih (p + 1) (hstart.next hforw) (by omega)
      cases hbit : file.bit start with
      | true =>
        refine ⟨_, hruns.free hstart hforw hbit, fun g priv => ?_⟩
        rw [rtallocQueryLoop, if_pos hle, hcheck, hfree, hbit]
        simp only [ok_bind, hfind, queryReport, if_true]
        exact hloop g _
      | false =>
        refine ⟨recs, hruns.used hforw hbit, fun g priv => ?_⟩
        rw [rtallocQueryLoop, if_pos hle, hcheck, hfree, hbit]
        simp only [ok_bind, hfind, queryReport, Bool.false_eq_true, if_false]
        exact hloop g priv
    · refine ⟨[], ⟨List.Pairwise.nil, fun r => ?_, fun x hx hxhi => by omega⟩, fun g priv => ?_⟩
      · refine iff_of_false not_mem_nil ?_
        rintro ⟨hr, hge⟩
        have := hr.start_le
        omega
      · rw [rtallocQueryLoop, if_neg hle]
        rfl

theorem rtallocQueryRange_runs {rtg : RtgBitmap} {fin fuel : Nat} (hzoned : rtg.hasZoned = false)
    (hread : ∀ x < rtg.rtgExtents, rtg.file.Readable x) (hlt : start < fin)
    (hin : start < rtg.rtgExtents) (hfuel : rtg.rtgExtents < fuel) :
    ∃ recs, MaximalRuns rtg.file.bit start (min fin (rtg.rtgExtents - 1)) recs ∧
      ∀ {σ : Type} (g : σ → RtallocRec → σ) (priv : σ),
        rtallocQueryRange rtg start fin (fun s r => .ok (g s r)) fuel priv =
          .ok (some (recs.foldl g priv)) := by
  obtain ⟨recs, hruns, hloop⟩ := rtallocQueryLoop_spec rtg.file start
    (min fin (rtg.rtgExtents - 1)) fuel (fun x hx => hread x (by omega)) start
    ⟨le_rfl, .inl rfl⟩ (by omega)
  refine ⟨recs, ⟨hruns.ordered, fun r => (hruns.mem_iff r).trans ?_, hruns.covers⟩, fun g priv => ?_⟩
  · exact ⟨fun h => h.1, fun h => ⟨h, h.lo_le⟩⟩
  · rw [rtallocQueryRange, if_neg (by omega), if_neg (by omega)]
    simp only [hzoned, Bool.false_eq_true, if_false]
    exact hloop g priv

theorem maximalRuns_nil_iff {start fin n : Nat} (h : start = fin ∨ n ≤ start) (hn : 1 ≤ n) :
    MaximalRuns f start (min fin (n - 1)) [] ↔ ¬ (start = fin ∧ start < n ∧ f start) := by
  constructor
  · rintro hruns ⟨rfl, hlt, hfree⟩
    rw [show min start (n - 1) = start by omega] at hruns
    have hrun : MaximalRun f start start ⟨start, 1⟩ := by
      refine ⟨one_pos, le_rfl, le_rfl, fun x hx hx1 => ?_, .inl rfl, .inl rfl⟩
      simp only at hx hx1
      rw [show x = start by omega, hfree]
    exact not_mem_nil ((hruns.mem_iff _).mpr hrun)
  · intro hnot
    have hnone : ∀ x, start ≤ x → x ≤ min fin (n - 1) → f x ≠ true := by
      intro x hx hxhi hfx
      rw [show x = start by omega] at hfx
      exact hnot ⟨by omega, by omega, hfx⟩
    refine ⟨List.Pairwise.nil, fun r => iff_of_false not_mem_nil fun hr => ?_,
      fun x hx hxhi hfx => absurd hfx (hnone x hx hxhi)⟩
    exact hnone _ hr.lo_le hr.start_le hr.start_free

/-- A query with a function that never fails ends, and it reports the maximal runs of free extents
unless the range is one extent and that is free. In a group of one extent this concerns the query for
all records. -/
theorem rtalloc_query_reports_iff (rtg : RtgBitmap) (fuel : Nat) (hzoned : rtg.hasZoned = false)
    (hpos : 1 ≤ rtg.rtgExtents) (hread : ∀ x < rtg.rtgExtents, rtg.file.Readable x)
    (hfuel : rtg.rtgExtents < fuel) :
    (∀ start fin, start ≤ fin → ∃ recs : List RtallocRec,
      (∀ {σ : Type} (g : σ → RtallocRec → σ) (priv : σ),
        rtallocQueryRange rtg start fin (fun s r => .ok (g s r)) fuel priv =
          .ok (some (recs.foldl g priv))) ∧
      (MaximalRuns rtg.file.bit start (min fin (rtg.rtgExtents - 1)) recs ↔
        ¬ (start = fin ∧ start < rtg.rtgExtents ∧ rtg.file.bit start = true))) ∧
    ∃ recs : List RtallocRec, (∀ {σ : Type} (g : σ → RtallocRec → σ) (priv : σ),
        rtallocQueryAll rtg (fun s r => .ok (g s r)) fuel priv = .ok (some (recs.foldl g priv))) ∧
      (MaximalRuns rtg.file.bit 0 (rtg.rtgExtents - 1) recs ↔
        ¬ (rtg.rtgExtents = 1 ∧ rtg.file.bit 0 = true)) := by
  have hrange : ∀ start fin, start ≤ fin → ∃ recs : List RtallocRec,
      (∀ {σ : Type} (g : σ → RtallocRec → σ) (priv : σ),
        rtallocQueryRange rtg start fin (fun s r => .ok (g s r)) fuel priv =
          .ok (some (recs.foldl g priv))) ∧
      (MaximalRuns rtg.file.bit start (min fin (rtg.rtgExtents - 1)) recs ↔
        ¬ (start = fin ∧ start < rtg.rtgExtents ∧ rtg.file.bit start = true)) := by
    intro start fin hle
    by_cases hskip : start = fin ∨ rtg.rtgExtents ≤ start
    · refine ⟨[], fun g priv => ?_, maximalRuns_nil_iff hskip hpos⟩
      rw [rtallocQueryRange, if_neg (by omega), if_pos hskip]
      rfl
    · obtain ⟨recs, hruns, hrun⟩ := rtallocQueryRange_runs hzoned hread
        (show start < fin by omega) (by omega) hfuel
      exact ⟨recs, hrun, iff_of_true hruns fun h => hskip (.inl h.1)⟩
  refine ⟨hrange, ?_⟩
  obtain ⟨recs, hrun, hiff⟩ := hrange 0 (rtg.rtgExtents - 1) (zero_le _)
  rw [min_self] at hiff
  refine ⟨recs, hrun, hiff.trans (not_congr ?_)⟩
  constructor
  · rintro ⟨hone, -, hfree⟩
    exact ⟨by omega, hfree⟩
  · rintro ⟨hone, hfree⟩
    exact ⟨by omega, by omega, hfree⟩

def sampleRtg (n : Nat) : RtgBitmap := ⟨RtFile.sampleRtFile, n, false⟩

theorem rtalloc_query_reports_sample : ∃ recs : List RtallocRec,
    MaximalRuns RtFile.sampleRtFile.bit 3 47 recs ∧
      rtallocQueryRange (sampleRtg 48) 3 100 (fun s r => .ok (s ++ [r])) 49 [] =
        .ok (some (recs.foldl (fun s r => s ++ [r]) [])) := by
  obtain ⟨recs, hrun, hiff⟩ := (rtalloc_query_reports_iff (sampleRtg 48) 49 rfl (by decide)
    (fun x hx => RtFile.sampleRtFile_readable (lt_trans hx (by decide))) (by decide)).1 3 100
    (by decide)
  exact ⟨recs, hiff.mpr fun h => absurd h.1 (by decide), hrun _ _⟩

/-- The only extent of a group is free, and the query for all records reports nothing. -/
theorem rtalloc_query_all_misses : rtallocQueryAll (sampleRtg 1) (fun s r => .ok (s ++ [r])) 2 [] =
        .ok (some ([] : List RtallocRec)) ∧
      MaximalRun RtFile.sampleRtFile.bit 0 0 ⟨0, 1⟩ := by
  refine ⟨rfl, by decide, by decide, by decide, fun x hx hx1 => ?_, .inl rfl, .inl rfl⟩
  simp only at hx hx1
  rw [show x = 0 by omega]
  rfl

end Xfs
