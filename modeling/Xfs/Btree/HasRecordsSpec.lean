import Xfs.Btree.HasRecords
import Xfs.Btree.QuerySpec

/-! The scan of the records in a range is a sweep over their blocks. -/
namespace Xfs

open HasRecords List RecordCursor Sweep

variable {R K : Type} {ops : ContigKeyOps R K} {info info' : HasRecords K} {r : R} {e : Errno}

def ContigKeyOps.lo (ops : ContigKeyOps R K) (r : R) : Nat := ops.blockOf (ops.initKeyFromRec r)

def ContigKeyOps.hi (ops : ContigKeyOps R K) (r : R) : Nat := ops.blockOf (ops.initHighKeyFromRec r)

theorem xbtreeKeyContig_gap {x y : Nat} (hx : x < 2 ^ 64 - 1) : xbtreeKeyContig x y = .gap ↔ x + 1 < y := by
  simp only [xbtreeKeyContig, Nat.mod_eq_of_lt (show x + 1 < 2 ^ 64 by omega)]
  split_ifs <;> simp <;> omega

theorem xbtreeKeyContig_overlap {x y : Nat} (hx : x < 2 ^ 64 - 1) :
    xbtreeKeyContig x y = .overlap ↔ y < x + 1 := by
  simp only [xbtreeKeyContig, Nat.mod_eq_of_lt (show x + 1 < 2 ^ 64 by omega)]
  split_ifs <;> simp <;> omega

def HasRecords.raise (ops : ContigKeyOps R K) (r : R) (info : HasRecords K) : HasRecords K :=
  if ops.blockOf info.highKey < ops.hi r then { info with highKey := ops.initHighKeyFromRec r } else info

theorem HasRecords.blockOf_raise : ops.blockOf (info.raise ops r).highKey =
    max (ops.blockOf info.highKey) (ops.hi r) := by
  unfold HasRecords.raise
  split_ifs with h
  · exact (max_eq_right (le_of_lt h)).symm
  · exact (max_eq_left (not_lt.mp h)).symm

theorem HasRecords.outcome_raise : (info.raise ops r).outcome = info.outcome := by
  unfold HasRecords.raise
  split_ifs <;> rfl

theorem HasRecords.endKey_raise : (info.raise ops r).endKey = info.endKey := by
  unfold HasRecords.raise
  split_ifs <;> rfl

theorem btreeHasRecordsHelper_ok
    (h : hasRecordsCheck ops info (ops.initKeyFromRec r) info = .ok () info') :
    btreeHasRecordsHelper ops r info = .ok () (info'.raise ops r) := by
  show EStateM.bind (hasRecordsCheck ops info (ops.initKeyFromRec r)) _ info = _
  simp only [EStateM.bind, h]
  rfl

theorem btreeHasRecordsHelper_error
    (h : hasRecordsCheck ops info (ops.initKeyFromRec r) info = .error e info') :
    btreeHasRecordsHelper ops r info = .error e info' := by
  show EStateM.bind (hasRecordsCheck ops info (ops.initKeyFromRec r)) _ info = _
  simp only [EStateM.bind, h]

theorem btreeHasRecordsHelper_first (h : info.outcome = .empty) : btreeHasRecordsHelper ops r info =
      if ops.blockOf info.startKey < ops.lo r then .error .ecanceled { info with outcome := .sparse }
      else .ok () (HasRecords.raise ops r { info with outcome := .sparse }) := by
  split_ifs with hlt
  · have hcheck : hasRecordsCheck ops info (ops.initKeyFromRec r) =
        (set { info with outcome := .sparse } >>= fun _ => throw .ecanceled) := by
      rw [hasRecordsCheck, if_pos h]
      simp [if_pos (show ops.blockOf info.startKey < ops.blockOf (ops.initKeyFromRec r) from hlt)]
    refine btreeHasRecordsHelper_error ?_
    rw [hcheck]
    rfl
  · have hcheck : hasRecordsCheck ops info (ops.initKeyFromRec r) =
        (set { info with outcome := .sparse } >>= fun _ => pure ()) := by
      rw [hasRecordsCheck, if_pos h]
      simp [if_neg (show ¬ ops.blockOf info.startKey < ops.blockOf (ops.initKeyFromRec r) from hlt)]
    refine btreeHasRecordsHelper_ok ?_
    rw [hcheck]
    rfl

theorem btreeHasRecordsHelper_next (h : info.outcome ≠ .empty)
    (hhigh : ops.blockOf info.highKey < 2 ^ 64 - 1) :
    btreeHasRecordsHelper ops r info =
      if ops.lo r < ops.blockOf info.highKey + 1 ∧ ops.overlapping = false then .error .efscorrupted info
      else if ops.blockOf info.highKey + 1 < ops.lo r then .error .ecanceled info
      else .ok () (info.raise ops r) := by
  have hcheck : hasRecordsCheck ops info (ops.initKeyFromRec r) =
      if ops.lo r < ops.blockOf info.highKey + 1 ∧ ops.overlapping = false then throw .efscorrupted
      else if ops.blockOf info.highKey + 1 < ops.lo r then throw .ecanceled
      else pure () := by
    rw [hasRecordsCheck, if_neg h]
    simp only [xbtreeKeyContig_overlap hhigh, xbtreeKeyContig_gap hhigh]
    rfl
  split_ifs with hover hgap
  · refine btreeHasRecordsHelper_error ?_
    rw [hcheck, if_pos hover]
    rfl
  · refine btreeHasRecordsHelper_error ?_
    rw [hcheck, if_neg hover, if_pos hgap]
    rfl
  · refine btreeHasRecordsHelper_ok ?_
    rw [hcheck, if_neg hover, if_neg hgap]
    rfl

/-- What a run over the records leaves behind when the sweep over their blocks ends. -/
def Sweeps (ops : ContigKeyOps R K) (info : HasRecords K) (e : Sweep.End)
    (res : EStateM.Result Errno (HasRecords K) Unit) : Prop :=
  match e with
  | .reaches high => ∃ info', res = .ok () info' ∧ info'.outcome = info.outcome ∧
      info'.endKey = info.endKey ∧ ops.blockOf info'.highKey = high
  | .gap => ∃ info', res = .error .ecanceled info' ∧ info'.outcome = info.outcome
  | .overlap => ∃ info', res = .error .efscorrupted info'

theorem Sweeps.congr {e : Sweep.End} {res : EStateM.Result Errno (HasRecords K) Unit}
    (h : Sweeps ops info' e res) (houtcome : info'.outcome = info.outcome)
    (hend : info'.endKey = info.endKey) :
    Sweeps ops info e res := by
  cases e with
  | reaches high =>
    obtain ⟨info1, hres, ho, he, hh⟩ := h
    exact ⟨info1, hres, ho.trans houtcome, he.trans hend, hh⟩
  | gap =>
    obtain ⟨info1, hres, ho⟩ := h
    exact ⟨info1, hres, ho.trans houtcome⟩
  | overlap => exact h

theorem forM_cons_run {σ : Type} (fn : R → EStateM Errno σ Unit) (l : List R) (s : σ) :
    forM (r :: l) fn s = EStateM.bind (fn r) (fun _ => forM l fn) s := rfl

theorem forM_helper_sweeps {l : List R} (h : info.outcome ≠ .empty)
    (hhigh : ops.blockOf info.highKey < 2 ^ 64 - 1) (hhi : ∀ r ∈ l, ops.hi r < 2 ^ 64 - 1) :
    Sweeps ops info (sweep ops.lo ops.hi ops.overlapping (ops.blockOf info.highKey) l)
      (forM l (btreeHasRecordsHelper ops) info) := by
  induction l generalizing info with
  | nil => exact ⟨info, rfl, rfl, rfl, rfl⟩
  | cons r l ih =>
    have hstep := btreeHasRecordsHelper_next (r := r) h hhigh
    rw [forM_cons_run, sweep]
    split_ifs at hstep ⊢ with hover hgap
    · exact ⟨info, by simp only [EStateM.bind, hstep]⟩
    · exact ⟨info, by simp only [EStateM.bind, hstep], rfl⟩
    have hrest : Sweeps ops (info.raise ops r)
        (sweep ops.lo ops.hi ops.overlapping (ops.blockOf (info.raise ops r).highKey) l)
        (forM l (btreeHasRecordsHelper ops) (info.raise ops r)) := by
      refine ih ?_ ?_ fun s hs => hhi s (mem_cons_of_mem _ hs)
      · rw [outcome_raise]
        exact h
      · rw [blockOf_raise]
        exact max_lt hhigh (hhi r mem_cons_self)
    rw [blockOf_raise] at hrest
    have hrun : EStateM.bind (btreeHasRecordsHelper ops r) (fun _ => forM l (btreeHasRecordsHelper ops))
        info = forM l (btreeHasRecordsHelper ops) (info.raise ops r) := by
      simp only [EStateM.bind, hstep]
    rw [hrun]
    exact hrest.congr outcome_raise endKey_raise

section Range

variable [LinearOrder K] {store : BtreeStore R K} {cur : BtreeCur} {fuel : Nat} {lowKey highKey : K}
  {l : List R}

def hasRecordsResult (last : Nat) : Sweep.End → Except Errno RecPacking
  | .reaches high => .ok (if high < last then .sparse else .full)
  | .gap => .ok .sparse
  | .overlap => .error .efscorrupted

theorem btreeHasRecords_of_ok {info : HasRecords K}
    (h : btreeQueryRange store ops.toBtreeKeyOps fuel cur lowKey highKey (btreeHasRecordsHelper ops)
      ⟨lowKey, highKey, ops.zeroKey, .empty⟩ = .ok () info) :
    btreeHasRecords store ops fuel cur lowKey highKey = .ok (btreeHasRecordsEnd ops info) := by
  rw [btreeHasRecords, EStateM.run, h]

theorem btreeHasRecords_of_canceled {info : HasRecords K}
    (h : btreeQueryRange store ops.toBtreeKeyOps fuel cur lowKey highKey (btreeHasRecordsHelper ops)
      ⟨lowKey, highKey, ops.zeroKey, .empty⟩ = .error .ecanceled info) :
    btreeHasRecords store ops fuel cur lowKey highKey = .ok info.outcome := by
  rw [btreeHasRecords, EStateM.run, h]

theorem btreeHasRecords_nil
    (hquery : btreeQueryRange store ops.toBtreeKeyOps fuel cur lowKey highKey (btreeHasRecordsHelper ops) =
      forM [] (btreeHasRecordsHelper ops)) :
    btreeHasRecords store ops fuel cur lowKey highKey = .ok .empty := by
  rw [btreeHasRecords_of_ok (by rw [hquery]; rfl)]
  rfl

section

variable
  (hquery : btreeQueryRange store ops.toBtreeKeyOps fuel cur lowKey highKey (btreeHasRecordsHelper ops) =
    forM (r :: l) (btreeHasRecordsHelper ops))
include hquery

theorem btreeHasRecords_hole (hhole : ops.blockOf lowKey < ops.lo r) :
    btreeHasRecords store ops fuel cur lowKey highKey = .ok .sparse := by
  have hfirst : btreeHasRecordsHelper ops r ⟨lowKey, highKey, ops.zeroKey, .empty⟩ = _ :=
    btreeHasRecordsHelper_first rfl
  rw [if_pos hhole] at hfirst
  rw [btreeHasRecords_of_canceled (by rw [hquery, forM_cons_run]; simp only [EStateM.bind, hfirst]; rfl)]

theorem btreeHasRecords_sweep (hstart : ¬ ops.blockOf lowKey < ops.lo r)
    (hzero : ops.blockOf ops.zeroKey = 0) (hhi : ∀ s ∈ r :: l, ops.hi s < 2 ^ 64 - 1) :
    btreeHasRecords store ops fuel cur lowKey highKey =
      hasRecordsResult (ops.blockOf highKey) (sweep ops.lo ops.hi ops.overlapping (ops.hi r) l) := by
  have hfirst : btreeHasRecordsHelper ops r ⟨lowKey, highKey, ops.zeroKey, .empty⟩ = _ :=
    btreeHasRecordsHelper_first rfl
  rw [if_neg hstart] at hfirst
  let info : HasRecords K := HasRecords.raise ops r ⟨lowKey, highKey, ops.zeroKey, .sparse⟩
  have hblock : ops.blockOf info.highKey = ops.hi r := by
    rw [blockOf_raise, hzero, Nat.zero_max]
  have houtcome : info.outcome = .sparse := outcome_raise
  have hendKey : info.endKey = highKey := endKey_raise
  have hne : info.outcome ≠ .empty := by
    rw [houtcome]
    exact Packing.noConfusion
  have hrun : btreeQueryRange store ops.toBtreeKeyOps fuel cur lowKey highKey (btreeHasRecordsHelper ops)
      ⟨lowKey, highKey, ops.zeroKey, .empty⟩ = forM l (btreeHasRecordsHelper ops) info := by
    rw [hquery, forM_cons_run]
    simp only [EStateM.bind, hfirst]
    rfl
  have hsweeps := forM_helper_sweeps hne (by rw [hblock]; exact hhi r mem_cons_self)
    fun s hs => hhi s (mem_cons_of_mem _ hs)
  rw [hblock, ← hrun] at hsweeps
  cases hend : sweep ops.lo ops.hi ops.overlapping (ops.hi r) l with
  | reaches high =>
    rw [hend] at hsweeps
    obtain ⟨info', hres, ho, he, hh⟩ := hsweeps
    rw [btreeHasRecords_of_ok hres, btreeHasRecordsEnd, ho, houtcome, if_neg Packing.noConfusion, hh, he,
      hendKey]
    rfl
  | gap =>
    rw [hend] at hsweeps
    obtain ⟨info', hres, ho⟩ := hsweeps
    rw [btreeHasRecords_of_canceled hres, ho, houtcome]
    rfl
  | overlap =>
    rw [hend] at hsweeps
    obtain ⟨info', hres⟩ := hsweeps
    rw [btreeHasRecords, EStateM.run, hres]
    rfl

end

section

variable
  (hquery : btreeQueryRange store ops.toBtreeKeyOps fuel cur lowKey highKey (btreeHasRecordsHelper ops) =
    forM l (btreeHasRecordsHelper ops))
  (hzero : ops.blockOf ops.zeroKey = 0) (hhi : ∀ s ∈ l, ops.hi s < 2 ^ 64 - 1)
include hquery hzero hhi

theorem btreeHasRecords_error (h : btreeHasRecords store ops fuel cur lowKey highKey = .error e) :
    ops.overlapping = false ∧ ∃ xs y ys, l = xs ++ y :: ys ∧ ∃ x ∈ xs, ops.lo y ≤ ops.hi x := by
  cases l with
  | nil =>
    rw [btreeHasRecords_nil hquery] at h
    cases h
  | cons r l =>
    by_cases hhole : ops.blockOf lowKey < ops.lo r
    · rw [btreeHasRecords_hole hquery hhole] at h
      cases h
    rw [btreeHasRecords_sweep hquery hhole hzero hhi] at h
    cases hend : sweep ops.lo ops.hi ops.overlapping (ops.hi r) l with
    | reaches high =>
      rw [hend] at h
      cases h
    | gap =>
      rw [hend] at h
      cases h
    | overlap =>
      rw [hend] at h
      obtain ⟨hov, xs, y, ys, rfl, hy⟩ := sweep_overlap hend
      refine ⟨hov, r :: xs, y, ys, rfl, ?_⟩
      rcases hy with hy | ⟨x, hx, hy⟩
      · exact ⟨r, mem_cons_self, hy⟩
      · exact ⟨x, mem_cons_of_mem _ hx, hy⟩

theorem btreeHasRecords_packs {covered : Nat → Prop} {p : RecPacking}
    (hmeets : Meets ops.lo ops.hi covered (ops.blockOf lowKey) (ops.blockOf highKey) l)
    (h : btreeHasRecords store ops fuel cur lowKey highKey = .ok p) :
    Packs covered (ops.blockOf lowKey) (ops.blockOf highKey) p := by
  cases l with
  | nil =>
    rw [btreeHasRecords_nil hquery] at h
    cases h
    exact hmeets.packs_nil
  | cons r l =>
    by_cases hhole : ops.blockOf lowKey < ops.lo r
    · rw [btreeHasRecords_hole hquery hhole] at h
      cases h
      exact hmeets.packs_hole hhole
    rw [btreeHasRecords_sweep hquery hhole hzero hhi] at h
    cases hend : sweep ops.lo ops.hi ops.overlapping (ops.hi r) l with
    | reaches high =>
      rw [hend] at h
      cases h
      exact hmeets.packs_reaches (not_lt.mp hhole) hend
    | gap =>
      rw [hend] at h
      cases h
      exact hmeets.packs_gap hend
    | overlap =>
      rw [hend] at h
      cases h

end

end Range

end Xfs
