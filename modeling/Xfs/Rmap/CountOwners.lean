import Xfs.Rmap.Queries
import Xfs.Rmap.Exact

/-! What `xfs_rmap_count_owners` and `xfs_rmap_has_other_keys` count: a record
that ends inside the extent is taken for one that covers it. -/
namespace Xfs

open List RecordCursor

variable {g : RmapGroup} {recs : List RmapIrec} {r : RmapIrec} {bno len : Nat} {oinfo : OwnerInfo}
  {reflink stop : Bool}

def RmapIrec.overlaps (r : RmapIrec) (bno len : Nat) : Bool :=
  decide (r.startblock < bno + len) && decide (bno < r.startblock + r.blockcount)

/-- The record has the owner and flags, and maps `bno` at the offset if it maps file data. -/
def OwnerInfo.startsIn (oinfo : OwnerInfo) (bno : Nat) (r : RmapIrec) : Bool :=
  decide (r.startblock ≤ bno) && decide (r.owner = oinfo.owner) &&
    decide (r.flags.attrFork = oinfo.attrFork) && decide (r.flags.bmbtBlock = oinfo.bmbtBlock) &&
    (r.ignoreOff || decide (r.offset + (bno - r.startblock) = oinfo.offset))

def OwnerInfo.covers (oinfo : OwnerInfo) (bno len : Nat) (r : RmapIrec) : Bool :=
  oinfo.startsIn bno r && decide (bno + len ≤ r.startblock + r.blockcount)

def OwnerInfo.ignoreOff (oinfo : OwnerInfo) : Bool :=
  rmapNonInodeOwner oinfo.owner || oinfo.bmbtBlock

structure OwnersCounted (g : RmapGroup) (reflink : Bool) (recs : List RmapIrec) (bno len : Nat)
    (oinfo : OwnerInfo) : Prop where
  count : ∃ res, rmapCountOwners g reflink recs bno len oinfo = .ok res ∧
    res.ownerMatches = recs.countP (oinfo.covers bno len) ∧
    res.nonOwnerMatches = recs.countP fun r => r.overlaps bno len && !oinfo.covers bno len r
  other : rmapHasOtherKeys g reflink recs bno len oinfo =
    .ok (recs.any fun r => r.overlaps bno len && !oinfo.covers bno len r)

/-- The callback over all records of a list, until it cancels. -/
def walkWith {σ : Type} (fn : σ → RmapIrec → σ × Bool) : σ → List RmapIrec → σ × Bool
  | s, [] => (s, false)
  | s, r :: recs => if (fn s r).2 then ((fn s r).1, true) else walkWith fn (fn s r).1 recs

theorem filter_of_high_lt {low high : RmapKey} (ho : Ordered rmapKey (r :: recs))
    (hhigh : high < rmapKey r) : (r :: recs).filter (keysOverlap low high) = [] := by
  refine filter_eq_nil_iff.mpr fun s hs hin => ?_
  have hle := (of_decide_eq_true hin).1
  rcases mem_cons.mp hs with rfl | hs
  · exact absurd hle (not_le.mpr hhigh)
  · exact absurd hle (not_le.mpr (hhigh.trans ((pairwise_cons.mp ho).1 s hs)))

theorem rmapQueryRangeWith_eq {σ : Type} (low high : RmapKey) (fn : σ → RmapIrec → σ × Bool)
    (ho : Ordered rmapKey recs) (hcheck : ∀ r ∈ recs, rmapCheckBtrec g r) (s : σ) :
    rmapQueryRangeWith g low high fn s recs = .ok (walkWith fn s
      (recs.filter (keysOverlap low high))) := by
  induction recs generalizing s with
  | nil => rfl
  | cons r recs ih =>
    have hrest := ih (pairwise_cons.mp ho).2 fun t ht => hcheck t (mem_cons_of_mem _ ht)
    rw [rmapQueryRangeWith]
    by_cases hhigh : high < rmapKey r
    · rw [if_pos hhigh, filter_of_high_lt ho hhigh]
      rfl
    rw [if_neg hhigh]
    by_cases hlow : low ≤ rmapHighKey r
    · have hin : keysOverlap low high r := decide_eq_true ⟨not_lt.mp hhigh, hlow⟩
      rw [if_pos hlow, if_neg (by simp [hcheck r mem_cons_self]), filter_cons_of_pos hin, walkWith]
      rcases hfn : fn s r with ⟨s', canceled⟩
      cases canceled with
      | true => rfl
      | false => exact hrest s'
    · rw [if_neg hlow, filter_cons_of_neg (by simp [keysOverlap, hlow])]
      exact hrest s

theorem ownercount_range (hpos : 0 < r.blockcount) (howner : r.owner < 2 ^ 64) (hlen : 1 ≤ len)
    (hfit : bno + len ≤ 2 ^ 32) :
    keysOverlap (rmapOwnercountInit bno len oinfo).low (rmapOwnercountInit bno len oinfo).high r =
      r.overlaps bno len := by
  have hmod : (bno + len - 1) % 2 ^ 32 = bno + len - 1 := Nat.mod_eq_of_lt (by omega)
  have hkey := rmapOffsetKey_le r.offset r.flags
  have hzero : rmapOffsetKey 0 ⟨false, false, false⟩ = 0 := rfl
  rw [Bool.eq_iff_iff]
  simp only [keysOverlap, rmapOwnercountInit, rmapKey, rmapKeyOf, rmapHighKey, hmod, hzero,
    Prod.Lex.toLex_le_toLex, RmapIrec.overlaps, Bool.and_eq_true, decide_eq_true_eq]
  omega

/-- What the callback takes for a match: a record that starts right, wherever it ends. -/
def OwnerInfo.judged (oinfo : OwnerInfo) (bno : Nat) (r : RmapIrec) : Bool :=
  decide (r.startblock ≤ bno) && decide (r.owner = oinfo.owner) &&
    decide (r.flags.attrFork = oinfo.attrFork) && decide (r.flags.bmbtBlock = oinfo.bmbtBlock) &&
    decide ((if r.ignoreOff then r.offset else r.offset + (bno - r.startblock)) = oinfo.offset)

section Trim
variable {good : RmapIrec}

theorem rmapTrimBefore_of_le (h : good.startblock ≤ r.startblock) : rmapTrimBefore good r = r :=
  if_neg (not_lt.mpr h)

theorem rmapTrimBefore_of_lt (h : r.startblock < good.startblock)
    (hend : good.startblock < r.startblock + r.blockcount) (hfit : r.startblock + r.blockcount < 2 ^ 31) :
    rmapTrimBefore good r = { r with
      startblock := good.startblock
      blockcount := r.startblock + r.blockcount - good.startblock
      offset := if r.ignoreOff then r.offset else r.offset + (good.startblock - r.startblock) } := by
  have hcount : sub32 r.blockcount (good.startblock - r.startblock) =
      r.startblock + r.blockcount - good.startblock := by
    unfold sub32
    omega
  have hstart : r.startblock + (good.startblock - r.startblock) = good.startblock := by omega
  rw [rmapTrimBefore, if_pos h]
  simp only [hcount, hstart]

theorem rmapOwnerMatches_iff : rmapOwnerMatches good r ↔
    r.startblock = good.startblock ∧ r.blockcount = good.blockcount ∧ r.owner = good.owner ∧
      r.offset = good.offset ∧ r.flags.attrFork = good.flags.attrFork ∧
      r.flags.bmbtBlock = good.flags.bmbtBlock := by
  simp [rmapOwnerMatches, and_assoc]

theorem rmapTrimBehind_blockcount (hstart : r.startblock = good.startblock) (hpos : 0 < r.blockcount)
    (hlen : 1 ≤ good.blockcount) (hlen' : good.blockcount < 2 ^ 32)
    (hfit : r.startblock + r.blockcount < 2 ^ 31) (hgood : good.startblock + good.blockcount ≤ 2 ^ 32) :
    (rmapTrimBehind good r).blockcount = good.blockcount := by
  have hdelta : sub32 (add32 r.startblock r.blockcount) (add32 good.startblock good.blockcount) =
      if good.blockcount ≤ r.blockcount then r.blockcount - good.blockcount
      else 2 ^ 32 - (good.blockcount - r.blockcount) := by
    unfold sub32 add32
    rcases hgood.lt_or_eq with hlt | heq
    · split <;> omega
    · split <;> omega
  unfold rmapTrimBehind
  dsimp only
  rw [hdelta]
  by_cases hle : good.blockcount ≤ r.blockcount
  · rw [if_pos hle]
    split
    · simp only [sub32]
      omega
    · omega
  · rw [if_neg hle, if_pos (by omega)]
    simp only [sub32]
    omega

theorem rmapTrimBehind_same (good r : RmapIrec) :
    (rmapTrimBehind good r).startblock = r.startblock ∧
    (rmapTrimBehind good r).owner = r.owner ∧ (rmapTrimBehind good r).offset = r.offset ∧
    (rmapTrimBehind good r).flags = r.flags := by
  unfold rmapTrimBehind
  dsimp only
  split <;> exact ⟨rfl, rfl, rfl, rfl⟩

end Trim

theorem rmapOwnerMatches_trimmed
    (hend : r.startblock + r.blockcount < 2 ^ 31) (hlen : 1 ≤ len) (hlen' : len < 2 ^ 32)
    (hfit : bno + len ≤ 2 ^ 32) (hover : r.overlaps bno len) :
    rmapOwnerMatches (rmapOwnercountInit bno len oinfo).good
        (rmapTrimBehind (rmapOwnercountInit bno len oinfo).good
          (rmapTrimBefore (rmapOwnercountInit bno len oinfo).good r)) =
      oinfo.judged bno r := by
  simp only [RmapIrec.overlaps, Bool.and_eq_true, decide_eq_true_eq] at hover
  obtain ⟨hlo, hhi⟩ := hover
  rcases lt_or_ge bno r.startblock with hbehind | hle
  · have hjudged : oinfo.judged bno r = false := by
      simp [OwnerInfo.judged, not_le.mpr hbehind]
    have hstart : decide (r.startblock = (rmapOwnercountInit bno len oinfo).good.startblock) = false :=
      decide_eq_false hbehind.ne'
    rw [rmapTrimBefore_of_le hbehind.le, hjudged, rmapOwnerMatches, (rmapTrimBehind_same _ _).1, hstart]
    simp
  -- in both cases the record now starts where the range does
  obtain ⟨t, ht, hstart, hcount, howner, hoff, hflags⟩ : ∃ t,
      rmapTrimBefore (rmapOwnercountInit bno len oinfo).good r = t ∧ t.startblock = bno ∧
      t.blockcount = r.startblock + r.blockcount - bno ∧ t.owner = r.owner ∧
      t.offset = (if r.ignoreOff then r.offset else r.offset + (bno - r.startblock)) ∧
      t.flags = r.flags := by
    rcases hle.lt_or_eq with hlt | heq
    · exact ⟨_, rmapTrimBefore_of_lt hlt hhi hend, rfl, rfl, rfl, rfl, rfl⟩
    · refine ⟨r, rmapTrimBefore_of_le heq.ge, heq, by omega, rfl, ?_, rfl⟩
      rw [heq]
      simp
  obtain ⟨hstart', howner', hoff', hflags'⟩ :=
    rmapTrimBehind_same (rmapOwnercountInit bno len oinfo).good t
  have hcount' : (rmapTrimBehind (rmapOwnercountInit bno len oinfo).good t).blockcount = len :=
    rmapTrimBehind_blockcount hstart (by omega) hlen hlen' (by omega) hfit
  rw [ht, Bool.eq_iff_iff, rmapOwnerMatches_iff, hstart', howner', hoff', hflags', hcount', hstart,
    howner, hoff, hflags]
  simp only [OwnerInfo.judged, Bool.and_eq_true, decide_eq_true_eq]
  exact ⟨fun h => ⟨⟨⟨⟨hle, h.2.2.1⟩, h.2.2.2.2.1⟩, h.2.2.2.2.2⟩, h.2.2.2.1⟩,
    fun h => ⟨rfl, rfl, h.1.1.1.2, h.2, h.1.1.2, h.1.2⟩⟩

/-- The match of the callback. -/
def trimmedMatch (good r : RmapIrec) : Bool :=
  rmapOwnerMatches good (rmapTrimBehind good (rmapTrimBefore good r))

theorem rmapCountOwnersHelper_cases (reflink stop : Bool) (good : RmapIrec) (res : RmapMatches)
    (r : RmapIrec) :
    ∃ bad, rmapCountOwnersHelper reflink good stop res r =
      if trimmedMatch good r then
        (⟨res.ownerMatches + 1, res.nonOwnerMatches, bad⟩, decide (res.nonOwnerMatches ≠ 0) && stop)
      else (⟨res.ownerMatches, res.nonOwnerMatches + 1, bad⟩, stop) := by
  unfold rmapCountOwnersHelper trimmedMatch
  dsimp only
  split
  · exact ⟨_, rfl⟩
  · exact ⟨_, Prod.ext rfl (by simp)⟩

theorem walk_counts (reflink : Bool) (good : RmapIrec) (res : RmapMatches) (recs : List RmapIrec) :
    (walkWith (rmapCountOwnersHelper reflink good false) res recs).1.ownerMatches =
        res.ownerMatches + recs.countP (trimmedMatch good) ∧
      (walkWith (rmapCountOwnersHelper reflink good false) res recs).1.nonOwnerMatches =
        res.nonOwnerMatches + recs.countP fun r => !trimmedMatch good r := by
  induction recs generalizing res with
  | nil => exact ⟨rfl, rfl⟩
  | cons r recs ih =>
    obtain ⟨bad, hstep⟩ := rmapCountOwnersHelper_cases reflink false good res r
    cases hmatch : trimmedMatch good r with
    | true =>
      rw [hmatch, if_pos rfl] at hstep
      obtain ⟨hown, hnon⟩ := ih ⟨res.ownerMatches + 1, res.nonOwnerMatches, bad⟩
      rw [walkWith, hstep, if_neg (by simp)]
      simp only [countP_cons, hmatch]
      exact ⟨by rw [hown]; simp; omega, by rw [hnon]; simp⟩
    | false =>
      rw [hmatch, if_neg (by simp)] at hstep
      obtain ⟨hown, hnon⟩ := ih ⟨res.ownerMatches, res.nonOwnerMatches + 1, bad⟩
      rw [walkWith, hstep, if_neg (by simp)]
      simp only [countP_cons, hmatch]
      exact ⟨by rw [hown]; simp, by rw [hnon]; simp; omega⟩

theorem walk_canceled (reflink : Bool) (good : RmapIrec) {res : RmapMatches} (hres : res.nonOwnerMatches = 0)
    (recs : List RmapIrec) :
    (walkWith (rmapCountOwnersHelper reflink good true) res recs).2 =
      recs.any fun r => !trimmedMatch good r := by
  induction recs generalizing res with
  | nil => rfl
  | cons r recs ih =>
    obtain ⟨bad, hstep⟩ := rmapCountOwnersHelper_cases reflink true good res r
    cases hmatch : trimmedMatch good r with
    | true =>
      rw [hmatch, if_pos rfl] at hstep
      have hrest := ih (show (⟨res.ownerMatches + 1, res.nonOwnerMatches, bad⟩ :
        RmapMatches).nonOwnerMatches = 0 from hres)
      rw [walkWith, hstep, if_neg (by simp [hres]), hrest]
      simp [hmatch]
    | false =>
      rw [hmatch, if_neg (by simp)] at hstep
      rw [walkWith, hstep, if_pos rfl]
      simp [hmatch]

section Query
variable (h : RmapRecords g recs) (hlen : 1 ≤ len) (hlen' : len < 2 ^ 32)
  (hfit : bno + len ≤ 2 ^ 32)

include h hlen hlen' hfit

theorem rmapOwnersQuery_eq : rmapOwnersQuery g reflink stop recs bno len oinfo =
    .ok (walkWith (rmapCountOwnersHelper reflink (rmapOwnercountInit bno len oinfo).good stop)
      ⟨0, 0, 0⟩ (recs.filter fun r => r.overlaps bno len)) := by
  have hkeys : ¬ (rmapOwnercountInit bno len oinfo).high < (rmapOwnercountInit bno len oinfo).low := by
    have hmod : (bno + len - 1) % 2 ^ 32 = bno + len - 1 := Nat.mod_eq_of_lt (by omega)
    simp only [rmapOwnercountInit, hmod, rmapKeyOf_lt_iff]
    omega
  unfold rmapOwnersQuery
  rw [if_neg hkeys, rmapQueryRangeWith_eq _ _ _ h.ordered h.check]
  congr 2
  refine filter_congr fun r hr => ?_
  obtain ⟨hpos, -⟩ := rmapCheckBtrec_bounds (h.check r hr)
  exact ownercount_range hpos (h.owner_lt r hr) hlen hfit

theorem trimmedMatch_eq (hr : r ∈ recs) (hover : r.overlaps bno len) :
    trimmedMatch (rmapOwnercountInit bno len oinfo).good r = oinfo.judged bno r := by
  obtain ⟨-, hend, -⟩ := rmapCheckBtrec_bounds (h.check r hr)
  exact rmapOwnerMatches_trimmed hend hlen hlen' hfit hover

theorem rmapCountOwners_eq : ∃ res, rmapCountOwners g reflink recs bno len oinfo = .ok res ∧
    res.ownerMatches = recs.countP (fun r => oinfo.judged bno r && r.overlaps bno len) ∧
    res.nonOwnerMatches = recs.countP (fun r => !oinfo.judged bno r && r.overlaps bno len) := by
  obtain ⟨hown, hnon⟩ := walk_counts reflink (rmapOwnercountInit bno len oinfo).good
    ⟨0, 0, 0⟩ (recs.filter fun r => r.overlaps bno len)
  have hjudged : ∀ r ∈ recs.filter fun r => r.overlaps bno len,
      trimmedMatch (rmapOwnercountInit bno len oinfo).good r = oinfo.judged bno r := fun r hr =>
    trimmedMatch_eq h hlen hlen' hfit (mem_filter.mp hr).1 (mem_filter.mp hr).2
  rw [countP_congr fun r hr => by rw [hjudged r hr], countP_filter, zero_add] at hown
  rw [countP_congr fun r hr => by rw [hjudged r hr], countP_filter, zero_add] at hnon
  unfold rmapCountOwners
  rw [rmapOwnersQuery_eq h hlen hlen' hfit]
  refine ⟨_, rfl, ?_, ?_⟩
  · rw [← hown]
    split <;> rfl
  · rw [← hnon]
    split <;> rfl

theorem rmapHasOtherKeys_eq : rmapHasOtherKeys g reflink recs bno len oinfo =
    .ok (recs.any fun r => r.overlaps bno len && !oinfo.judged bno r) := by
  have hcanceled := walk_canceled reflink (rmapOwnercountInit bno len oinfo).good
    (show (⟨0, 0, 0⟩ : RmapMatches).nonOwnerMatches = 0 from rfl)
    (recs.filter fun r => r.overlaps bno len)
  unfold rmapHasOtherKeys
  rw [rmapOwnersQuery_eq h hlen hlen' hfit]
  change Except.ok _ = _
  rw [hcanceled, any_filter]
  congr 1
  rw [Bool.eq_iff_iff, any_eq_true, any_eq_true]
  simp only [Bool.and_eq_true, Bool.not_eq_true']
  refine exists_congr fun r => and_congr_right fun hr => and_congr_right fun hover => ?_
  rw [trimmedMatch_eq h hlen hlen' hfit hr hover]

end Query

/-- A record of the owner that maps the start of the extent, and ends inside it. -/
def OwnerInfo.coversPart (oinfo : OwnerInfo) (bno len : Nat) (r : RmapIrec) : Prop :=
  oinfo.startsIn bno r = true ∧ bno < r.startblock + r.blockcount ∧
    r.startblock + r.blockcount < bno + len

def OwnerInfo.WellFormed (oinfo : OwnerInfo) : Prop := oinfo.ignoreOff = true → oinfo.offset = 0

theorem OwnerInfo.judged_iff (hcheck : rmapCheckBtrec g r) :
    oinfo.judged bno r ↔ oinfo.startsIn bno r ∧ oinfo.WellFormed := by
  obtain ⟨-, -, hzero⟩ := rmapCheckBtrec_bounds hcheck
  simp only [judged, startsIn, Bool.and_eq_true, decide_eq_true_eq, Bool.or_eq_true, and_assoc]
  refine and_congr_right fun _ => and_congr_right fun howner => and_congr_right fun _ =>
    and_congr_right fun hbmbt => ?_
  have hsame : oinfo.ignoreOff = r.ignoreOff := by
    simp [ignoreOff, RmapIrec.ignoreOff, rmapIgnoreOff, howner, hbmbt]
  unfold WellFormed
  rw [hsame]
  cases hi : r.ignoreOff with
  | true =>
    rw [hzero hi]
    simp [eq_comm]
  | false => simp

theorem OwnerInfo.covers_overlaps (hlen : 1 ≤ len) (h : oinfo.covers bno len r) :
    r.overlaps bno len := by
  simp only [covers, startsIn, RmapIrec.overlaps, Bool.and_eq_true, decide_eq_true_eq] at h ⊢
  omega

theorem countP_eq_iff_of_imp {p q : RmapIrec → Bool} (hpq : ∀ r ∈ recs, p r → q r) :
    recs.countP q = recs.countP p ↔ ∀ r ∈ recs, q r → p r := by
  constructor
  · intro hcount r hr hq
    have hmono : (recs.filter p).Sublist (recs.filter q) := by
      have hand : recs.filter p = (recs.filter q).filter p := by
        rw [filter_filter]
        refine filter_congr fun s hs => ?_
        cases hp : p s with
        | true => simp [hpq s hs hp]
        | false => simp
      rw [hand]
      exact filter_sublist
    have heq := hmono.eq_of_length (by
      rw [← countP_eq_length_filter, ← countP_eq_length_filter, hcount])
    have hmem : r ∈ recs.filter p := heq ▸ mem_filter.mpr ⟨hr, hq⟩
    exact (mem_filter.mp hmem).2
  · intro himp
    exact countP_congr fun r hr => ⟨himp r hr, hpq r hr⟩

theorem ownersCounted_of_judged (h : RmapRecords g recs) (hlen : 1 ≤ len) (hlen' : len < 2 ^ 32)
    (hfit : bno + len ≤ 2 ^ 32)
    (hjudged : ∀ r ∈ recs, r.overlaps bno len → oinfo.judged bno r = oinfo.covers bno len r) :
    OwnersCounted g reflink recs bno len oinfo := by
  obtain ⟨res, hres, hown, hnon⟩ := rmapCountOwners_eq h hlen hlen' hfit
  refine ⟨⟨res, hres, ?_, ?_⟩, ?_⟩
  · rw [hown]
    refine countP_congr fun r hr => ?_
    cases hover : r.overlaps bno len with
    | true => rw [hjudged r hr hover, Bool.and_true]
    | false =>
      have hnot : ¬ oinfo.covers bno len r := fun hc => by
        rw [OwnerInfo.covers_overlaps hlen hc] at hover
        cases hover
      simp [hnot]
  · rw [hnon]
    refine countP_congr fun r hr => ?_
    cases hover : r.overlaps bno len with
    | true => rw [hjudged r hr hover, Bool.and_true, Bool.true_and]
    | false => simp
  · rw [rmapHasOtherKeys_eq h hlen hlen' hfit]
    congr 1
    rw [Bool.eq_iff_iff, any_eq_true, any_eq_true]
    refine exists_congr fun r => and_congr_right fun hr => ?_
    cases hover : r.overlaps bno len with
    | true => rw [hjudged r hr hover]
    | false => simp

/-- Both functions are right exactly if no record of the owner maps the start of the extent
and ends inside it. An owner info with an offset it should not have matches nothing. -/
theorem rmap_owners_counted_iff (h : RmapRecords g recs) (hlen : 1 ≤ len) (hlen' : len < 2 ^ 32)
    (hfit : bno + len ≤ 2 ^ 32) :
    OwnersCounted g reflink recs bno len oinfo ↔
      (oinfo.WellFormed → ∀ r ∈ recs, ¬ oinfo.coversPart bno len r) ∧
      (¬ oinfo.WellFormed → ∀ r ∈ recs, oinfo.covers bno len r = false) := by
  have hjudged : ∀ r ∈ recs, oinfo.judged bno r = true ↔
      oinfo.startsIn bno r = true ∧ oinfo.WellFormed := fun r hr =>
    OwnerInfo.judged_iff (h.check r hr)
  constructor
  · rintro ⟨⟨res, hres, hown, -⟩, -⟩
    obtain ⟨res', hres', hown', -⟩ := rmapCountOwners_eq h hlen hlen' hfit
    obtain rfl : res = res' := Except.ok.inj (hres.symm.trans hres')
    rw [hown'] at hown
    refine ⟨fun hwf r hr hpart => ?_, fun hwf r hr => ?_⟩
    · obtain ⟨hstarts, hlo, hhi⟩ := hpart
      have himp : ∀ s ∈ recs, oinfo.covers bno len s = true →
          (oinfo.judged bno s && s.overlaps bno len) = true := by
        intro s hs hc
        rw [Bool.and_eq_true, hjudged s hs]
        exact ⟨⟨(Bool.and_eq_true_iff.mp hc).1, hwf⟩, OwnerInfo.covers_overlaps hlen hc⟩
      have hmatch : (oinfo.judged bno r && r.overlaps bno len) = true := by
        simp only [RmapIrec.overlaps, Bool.and_eq_true, decide_eq_true_eq]
        exact ⟨(hjudged r hr).mpr ⟨hstarts, hwf⟩, by omega, hlo⟩
      have hcovers := (countP_eq_iff_of_imp himp).mp hown r hr hmatch
      simp only [OwnerInfo.covers, Bool.and_eq_true, decide_eq_true_eq] at hcovers
      omega
    · have hnone : recs.countP (fun s => oinfo.judged bno s && s.overlaps bno len) = 0 := by
        refine countP_eq_zero.mpr fun s hs hmatch => ?_
        exact hwf ((hjudged s hs).mp (Bool.and_eq_true_iff.mp hmatch).1).2
      rw [hnone] at hown
      exact Bool.not_eq_true _ ▸ countP_eq_zero.mp hown.symm r hr
  · rintro ⟨hpart, hcovers⟩
    refine ownersCounted_of_judged h hlen hlen' hfit fun r hr hover => ?_
    rw [Bool.eq_iff_iff, hjudged r hr]
    by_cases hwf : oinfo.WellFormed
    · have hnot := hpart hwf r hr
      simp only [RmapIrec.overlaps, Bool.and_eq_true, decide_eq_true_eq] at hover
      simp only [OwnerInfo.covers, Bool.and_eq_true, decide_eq_true_eq, hwf, and_true]
      refine ⟨fun hstarts => ⟨hstarts, ?_⟩, fun hc => hc.1⟩
      by_contra hlt
      exact hnot ⟨hstarts, hover.2, by omega⟩
    · simp [hwf, hcovers hwf r hr]

/-- One block of the extent belongs to the file, and is taken for both. -/
theorem rmap_owners_partial_counted :
    rmapCountOwners sampleRmapGroup true [⟨20, 1, 132, 0, dataFlags false⟩] 20 2
        ⟨132, 0, false, false⟩ = .ok ⟨1, 0, 0⟩ ∧
      rmapHasOtherKeys sampleRmapGroup true [⟨20, 1, 132, 0, dataFlags false⟩] 20 2
        ⟨132, 0, false, false⟩ = .ok false ∧
      ¬ OwnersCounted sampleRmapGroup true [⟨20, 1, 132, 0, dataFlags false⟩] 20 2
        ⟨132, 0, false, false⟩ := by
  have hcount : rmapCountOwners sampleRmapGroup true [⟨20, 1, 132, 0, dataFlags false⟩] 20 2
      ⟨132, 0, false, false⟩ = .ok ⟨1, 0, 0⟩ := by decide
  refine ⟨hcount, by decide, ?_⟩
  rintro ⟨⟨res, hres, hown, -⟩, -⟩
  obtain rfl : res = ⟨1, 0, 0⟩ := Except.ok.inj (hres.symm.trans hcount)
  exact absurd hown (by decide)

/-- The last two blocks of a file extent, and blocks of another file behind them. -/
theorem rmap_owners_counted_sample :
    OwnersCounted sampleRmapGroup true sampleRmaps 16 2 ⟨131, 8, false, false⟩ ∧
      OwnersCounted sampleRmapGroup true sampleRmaps 16 5 ⟨132, 0, false, false⟩ := by
  have hrecords : RmapRecords sampleRmapGroup sampleRmaps :=
    ⟨sampleRmaps_wf.ordered, sampleRmaps_wf.check, by decide⟩
  constructor
  · refine (rmap_owners_counted_iff hrecords (by decide) (by decide) (by decide)).mpr
      ⟨fun _ => ?_, fun hwf => absurd (fun h => by cases h) hwf⟩
    unfold OwnerInfo.coversPart
    decide
  · refine (rmap_owners_counted_iff hrecords (by decide) (by decide) (by decide)).mpr
      ⟨fun _ => ?_, fun hwf => absurd (fun h => by cases h) hwf⟩
    unfold OwnerInfo.coversPart
    decide

end Xfs
