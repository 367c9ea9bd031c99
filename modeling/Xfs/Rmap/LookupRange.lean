import Xfs.Rmap.Queries
import Xfs.Rmap.Exact
import Xfs.Rmap.SharedSpec

/-! The lookup in front of the overlapped query of `xfs_rmap_lookup_le_range`, and
when it changes the answer. -/
namespace Xfs

open RecordCursor

variable {g : RmapGroup} {recs : List RmapIrec} {r : RmapIrec} {c : RmapCur}
  {bno owner offset : Nat} {flags : RmapFlags}

/-- The file offset a query is for. -/
def rmapQueryOffset (owner offset : Nat) (flags : RmapFlags) : Nat :=
  if rmapIgnoreOff owner flags then 0 else offset

/-- A record of the owner over the block and, if it maps file data, the offset. -/
structure RmapAnswers (bno owner offset : Nat) (flags : RmapFlags) (r : RmapIrec) : Prop where
  sameOwner : r.owner = owner
  physical : r.startblock ≤ bno ∧ bno < r.startblock + r.blockcount
  logical : r.ignoreOff = false → r.offset ≤ rmapQueryOffset owner offset flags ∧
    rmapQueryOffset owner offset flags < r.offset + r.blockcount

def rmapRangeQuery (g : RmapGroup) (recs : List RmapIrec) (bno owner offset : Nat)
    (flags : RmapFlags) : RmapM (Option RmapIrec) :=
  let key := rmapKeyOf bno owner (rmapQueryOffset owner offset flags) flags
  rmapQueryRange g key key
    (rmapLookupLeRangeHelper owner (rmapQueryOffset owner offset flags)) recs

/-- What is found answers the query, and the overlapped query finds it too. -/
def LookupRangeSound (g : RmapGroup) (c : RmapCur) (bno owner offset : Nat) (flags : RmapFlags) :
    Prop :=
  ∃ c' found alone, rmapLookupLeRange g c bno owner offset flags = .ok (c', found) ∧
    rmapRangeQuery g c.recs bno owner offset flags = .ok alone ∧
    (∀ r, found = some r → r ∈ c.recs ∧ RmapAnswers bno owner offset flags r) ∧
    found.isSome = alone.isSome

def RangeAccepts (bno owner offset : Nat) (flags : RmapFlags) (r : RmapIrec) : Prop :=
  let key := rmapKeyOf bno owner (rmapQueryOffset owner offset flags) flags
  keysOverlap key key r = true ∧
    rmapLookupLeRangeHelper owner (rmapQueryOffset owner offset flags) r = true

theorem rmapLookupLeRangeHelper_eq_true {high : Nat} :
    rmapLookupLeRangeHelper owner high r ↔ r.owner = owner ∧
      (r.ignoreOff = false → r.offset ≤ high ∧ high < r.offset + r.blockcount) := by
  unfold rmapLookupLeRangeHelper RmapIrec.ignoreOff rmapIgnoreOff
  by_cases howner : r.owner = owner
  · rw [if_neg (not_not_intro howner)]
    cases rmapNonInodeOwner r.owner <;> cases r.flags.bmbtBlock <;> simp [howner]
  · rw [if_pos howner]
    simp [howner]

theorem keysOverlap_physical {f : Nat} (hpos : 0 < r.blockcount)
    (h : keysOverlap (rmapKeyOf bno owner f flags) (rmapKeyOf bno owner f flags) r) :
    r.startblock ≤ bno ∧ bno < r.startblock + r.blockcount := by
  obtain ⟨hlow, hhigh⟩ := of_decide_eq_true h
  have hend := le_of_le_rmapHighKey hhigh
  exact ⟨le_of_rmapKeyOf_le hlow, by omega⟩

theorem RangeAccepts.answers (hpos : 0 < r.blockcount) (h : RangeAccepts bno owner offset flags r) :
    RmapAnswers bno owner offset flags r := by
  obtain ⟨howner, hlogical⟩ := rmapLookupLeRangeHelper_eq_true.mp h.2
  exact ⟨howner, keysOverlap_physical hpos h.1, hlogical⟩

theorem rmapRangeQuery_spec (h : RmapRecords g recs) (bno owner offset : Nat) (flags : RmapFlags) :
    ∃ alone, rmapRangeQuery g recs bno owner offset flags = .ok alone ∧
      (∀ r, alone = some r → r ∈ recs ∧ RangeAccepts bno owner offset flags r) ∧
      (alone = none → ∀ r ∈ recs, ¬ RangeAccepts bno owner offset flags r) := by
  obtain ⟨alone, hrun, hsome, hnone⟩ := rmapQueryRange_spec
    (rmapKeyOf bno owner (rmapQueryOffset owner offset flags) flags)
    (rmapKeyOf bno owner (rmapQueryOffset owner offset flags) flags)
    (rmapLookupLeRangeHelper owner (rmapQueryOffset owner offset flags)) h.ordered h.check
  refine ⟨alone, hrun, fun r hr => ?_, fun hal r hr hacc => ?_⟩
  · obtain ⟨hmem, hlow, hhigh, hfn⟩ := hsome r hr
    exact ⟨hmem, decide_eq_true ⟨hlow, hhigh⟩, hfn⟩
  · obtain ⟨hlow, hhigh⟩ := of_decide_eq_true hacc.1
    exact Bool.false_ne_true ((hnone hal r hr hlow hhigh).symm.trans hacc.2)

/-- The lookup is right exactly if the record it lands on, where the filter accepts it, contains
the block, and is not the only one that could be found. -/
theorem rmap_lookup_range_sound_iff (h : RmapRecords g c.recs) (bno owner offset : Nat)
    (flags : RmapFlags) :
    LookupRangeSound g c bno owner offset flags ↔ ∀ r, LastBelow c.recs bno owner offset flags r →
        rmapLookupLeRangeHelper owner (rmapQueryOffset owner offset flags) r = true →
        (r.startblock ≤ bno ∧ bno < r.startblock + r.blockcount) ∧
          ∃ s ∈ c.recs, RangeAccepts bno owner offset flags s := by
  obtain ⟨c', last, hlookup, hrecs, hlast⟩ := rmapLookupLe_last h.ordered h.check bno owner offset flags
  obtain ⟨alone, hquery, hsome, hnone⟩ := rmapRangeQuery_spec h bno owner offset flags
  have hquery' : rmapQueryRange g (rmapKeyOf bno owner (rmapQueryOffset owner offset flags) flags)
      (rmapKeyOf bno owner (rmapQueryOffset owner offset flags) flags)
      (rmapLookupLeRangeHelper owner (rmapQueryOffset owner offset flags)) c'.recs = .ok alone := by
    rw [hrecs]
    exact hquery
  have hrun : rmapLookupLeRange g c bno owner offset flags = .ok (c',
      if last.any (rmapLookupLeRangeHelper owner (rmapQueryOffset owner offset flags)) then last
      else alone) := by
    have hunfold : rmapLookupLeRange g c bno owner offset flags =
        rmapLookupOrQuery g c bno owner offset flags
          (rmapKeyOf bno owner (rmapQueryOffset owner offset flags) flags)
          (rmapLookupLeRangeHelper owner (rmapQueryOffset owner offset flags)) := rfl
    rw [hunfold, rmapLookupOrQuery, hlookup]
    simp only [ok_bind, hquery']
    split <;> rfl
  constructor
  · rintro ⟨c₁, found, alone₁, hrun₁, hquery₁, hanswers, hsame⟩ r hr haccept
    obtain rfl : last = some r := (hlast r).mpr hr
    obtain rfl : alone = alone₁ := Except.ok.inj (hquery.symm.trans hquery₁)
    have hfound : found = some r := by
      rw [hrun, if_pos (by simpa using haccept)] at hrun₁
      exact (Prod.mk.inj (Except.ok.inj hrun₁)).2.symm
    refine ⟨(hanswers r hfound).2.physical, ?_⟩
    rw [hfound] at hsame
    obtain ⟨s, hs⟩ := Option.isSome_iff_exists.mp hsame.symm
    exact ⟨s, hsome s hs⟩
  · intro hcond
    refine ⟨c', _, alone, hrun, hquery, ?_⟩
    cases hany : last.any (rmapLookupLeRangeHelper owner (rmapQueryOffset owner offset flags)) with
    | true =>
      obtain ⟨r, rfl, haccept⟩ : ∃ r, last = some r ∧
          rmapLookupLeRangeHelper owner (rmapQueryOffset owner offset flags) r = true := by
        simpa [Option.any_eq_true] using hany
      have hr := (hlast r).mp rfl
      obtain ⟨hphysical, s, hs, hsaccepts⟩ := hcond r hr haccept
      obtain ⟨howner, hlogical⟩ := rmapLookupLeRangeHelper_eq_true.mp haccept
      rw [if_pos rfl]
      refine ⟨fun r' hr' => ?_, ?_⟩
      · obtain rfl := Option.some.inj hr'
        exact ⟨hr.1, howner, hphysical, hlogical⟩
      · cases halone : alone with
        | none => exact absurd hsaccepts (hnone halone s hs)
        | some t => rfl
    | false =>
      rw [if_neg (by simp)]
      refine ⟨fun r hr => ?_, rfl⟩
      obtain ⟨hmem, haccepts⟩ := hsome r hr
      exact ⟨hmem, haccepts.answers (rmapCheckBtrec_bounds (h.check r hmem)).1⟩

/-- A record of the same owner to the left of the block, which contains the file offset but
not the block, is taken for the answer. The overlapped query finds nothing. -/
theorem rmap_lookup_range_off_the_record :
    (rmapLookupLeRange sampleRmapGroup ⟨sampleRmaps, 0⟩ 40 132 1 (dataFlags false)).map Prod.snd =
        .ok (some ⟨20, 2, 132, 0, dataFlags false⟩) ∧
      rmapRangeQuery sampleRmapGroup sampleRmaps 40 132 1 (dataFlags false) = .ok none ∧
      ¬ LookupRangeSound sampleRmapGroup ⟨sampleRmaps, 0⟩ 40 132 1 (dataFlags false) := by
  have hrun : (rmapLookupLeRange sampleRmapGroup ⟨sampleRmaps, 0⟩ 40 132 1 (dataFlags false)).map
      Prod.snd = .ok (some ⟨20, 2, 132, 0, dataFlags false⟩) := by decide
  have hquery : rmapRangeQuery sampleRmapGroup sampleRmaps 40 132 1 (dataFlags false) = .ok none := by
    decide
  refine ⟨hrun, hquery, ?_⟩
  rintro ⟨c', found, alone, hrun', hquery', -, hsame⟩
  rw [hrun'] at hrun
  obtain rfl : found = some _ := Except.ok.inj hrun
  obtain rfl : alone = none := Except.ok.inj (hquery'.symm.trans hquery)
  cases hsame

/-- Inside a record, and behind the last one of another owner. -/
theorem rmap_lookup_range_sound_sample :
    LookupRangeSound sampleRmapGroup ⟨sampleRmaps, 0⟩ 14 131 6 (dataFlags true) ∧
      LookupRangeSound sampleRmapGroup ⟨sampleRmaps, 0⟩ 40 131 6 (dataFlags true) := by
  have hrecords : RmapRecords sampleRmapGroup sampleRmaps :=
    ⟨sampleRmaps_wf.ordered, sampleRmaps_wf.check, by decide⟩
  have hinside : ∀ r ∈ sampleRmaps, rmapKey r ≤ rmapKeyOf 14 131 6 (dataFlags true) →
      (∀ s ∈ sampleRmaps, rmapKey s ≤ rmapKeyOf 14 131 6 (dataFlags true) →
        rmapKey s ≤ rmapKey r) → rmapLookupLeRangeHelper 131 6 r = true →
      (r.startblock ≤ 14 ∧ 14 < r.startblock + r.blockcount) ∧
        ∃ s ∈ sampleRmaps, RangeAccepts 14 131 6 (dataFlags true) s := by
    unfold RangeAccepts
    decide
  have hbehind : ∀ r ∈ sampleRmaps, rmapKey r ≤ rmapKeyOf 40 131 6 (dataFlags true) →
      (∀ s ∈ sampleRmaps, rmapKey s ≤ rmapKeyOf 40 131 6 (dataFlags true) →
        rmapKey s ≤ rmapKey r) → rmapLookupLeRangeHelper 131 6 r = false := by
    decide
  constructor
  · exact (rmap_lookup_range_sound_iff hrecords 14 131 6
      (dataFlags true)).mpr fun r hr => hinside r hr.1 hr.2.1 hr.2.2
  · refine (rmap_lookup_range_sound_iff hrecords 40 131 6
      (dataFlags true)).mpr fun r hr haccept => ?_
    exact absurd ((hbehind r hr.1 hr.2.1 hr.2.2).symm.trans haccept) Bool.false_ne_true

end Xfs
