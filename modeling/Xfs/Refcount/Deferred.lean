import Xfs.Refcount.AdjustSpec

/-! Deferred refcount updates: an update that runs out of log space is
continued in a new transaction. -/
namespace Xfs

variable {g : Group} {C : Nat → Option Nat} {other : RefcountIrec → Prop} {c : RefcCur}
  {adj : RefcAdjustOp} {ri : RefcountIntent}

def RefcountIntentType.adjusts : RefcountIntentType → RefcAdjustOp → Prop
  | .increase, adj => adj = .increase
  | .decrease, adj => adj = .decrease
  | .allocCow, _ => False
  | .freeCow, _ => False

theorem RefcountIntentType.adjusts.isShared {type : RefcountIntentType} (h : type.adjusts adj) :
    adj.IsShared := by
  cases type with
  | increase => exact .inl h
  | decrease => exact .inr h
  | allocCow => exact h.elim
  | freeCow => exact h.elim

theorem refcountFinishOne_eq (space : Nat → Bool) (hadj : ri.type.adjusts adj) :
    refcountFinishOne g space c ri = refcountFinishOne.finishAdjust g space c ri adj := by
  unfold refcountFinishOne
  cases ht : ri.type with
  | increase => rw [ht] at hadj; cases hadj; rfl
  | decrease => rw [ht] at hadj; cases hadj; rfl
  | allocCow => rw [ht] at hadj; exact hadj.elim
  | freeCow => rw [ht] at hadj; exact hadj.elim

/-- A call leaves a smaller update, and what it has done is in the map. -/
structure FinishStep (g : Group) (adj : RefcAdjustOp) (C : Nat → Option Nat)
    (other : RefcountIrec → Prop) (c : RefcCur) (ri : RefcountIntent) (c' : RefcCur)
    (ri' : RefcountIntent) : Prop where
  type : ri'.type = ri.type
  ext : 0 < ri'.blockcount → verifyGbext g ri'.startblock ri'.blockcount = true
  step : ∃ C' lo' F, Rep g .shared C' other c'.bt.recs ∧
    Adjusted adj C ri.startblock (ri.startblock + ri.blockcount) C' lo' (lo' + ri'.blockcount) F ∧
    (0 < ri'.blockcount → ri'.startblock = lo') ∧ c'.freed = c.freed ++ F

theorem refcountFinishOne_spec (hadj : ri.type.adjusts adj) (space : Nat → Bool)
    (h : Rep g .shared C other c.bt.recs)
    (hext : verifyGbext g ri.startblock ri.blockcount) :
    ∃ c' ri', refcountFinishOne g space c ri = .ok (c', ri') ∧
      FinishStep g adj C other c ri c' ri' ∧ ri'.blockcount ≤ ri.blockcount ∧
      (c.nrOps = 0 → ri'.blockcount < ri.blockcount) := by
  obtain ⟨hpos, hmin, hmax⟩ := verifyGbext_iff.mp hext
  obtain ⟨st, hrun, ⟨C', F, hrep, hadj', hfreed⟩, -, hprog⟩ :=
    refcountAdjust_spec hadj.isShared space h hext
  have hlo := hadj'.lo_le
  have hhi := hadj'.le_hi
  rw [refcountFinishOne_eq space hadj, refcountFinishOne.finishAdjust]
  simp only [hrun, ok_bind]
  by_cases hleft : 0 < st.aglen
  · have hext' : verifyGbext g st.agbno st.aglen :=
      verifyGbext_iff.mpr ⟨hleft, by omega, by omega⟩
    refine ⟨st.cur, ⟨ri.type, st.agbno, st.aglen⟩, ?_, ⟨rfl, fun _ => hext',
      C', st.agbno, F, hrep, hadj', fun _ => rfl, hfreed⟩, by simp only; omega, hprog hpos⟩
    simp only [hleft, if_true, refcountContinueOp, hext']
    rfl
  · refine ⟨st.cur, ⟨ri.type, ri.startblock, st.aglen⟩, ?_, ⟨rfl, fun hf => absurd hf hleft,
      C', st.agbno, F, hrep, hadj', fun hf => absurd hf hleft, hfreed⟩, by simp only; omega,
      hprog hpos⟩
    simp only [hleft, if_false]
    rfl

/-- One call for every block, and one more if the first may make no progress. -/
def callsNeeded (c : RefcCur) (ri : RefcountIntent) : Nat :=
  ri.blockcount + if c.nrOps = 0 then 0 else 1

theorem refcountFinish_spec (calls : Nat) :
    ∀ (space : Nat → Nat → Bool) (c : RefcCur) (ri : RefcountIntent) (C : Nat → Option Nat),
      ri.type.adjusts adj → Rep g .shared C other c.bt.recs →
      verifyGbext g ri.startblock ri.blockcount → callsNeeded c ri ≤ calls →
      ∃ c' ri', refcountFinish g calls space c ri = .ok (c', ri') ∧ ri'.blockcount = 0 ∧
        FinishStep g adj C other c ri c' ri' := by
  induction calls with
  | zero =>
    intro space c ri C _ _ hext hle
    have := (verifyGbext_iff.mp hext).1
    unfold callsNeeded at hle
    omega
  | succ calls ih =>
    intro space c ri C hadj h hext hle
    obtain ⟨c1, ri1, hrun, hstep, hle', hlt⟩ := refcountFinishOne_spec hadj (space 0) h hext
    rw [refcountFinish, hrun]
    simp only [ok_bind]
    by_cases hz : ri1.blockcount = 0
    · exact ⟨c1, ri1, by simp only [hz, if_true]; rfl, hz, hstep⟩
    obtain ⟨htype, hext1, C1, lo1, F1, hrep1, hadj1, hstart1, hfreed1⟩ := hstep
    have hpos := pos_of_ne_zero hz
    -- a fresh cursor is guaranteed to make progress
    have henough : callsNeeded c1.fresh ri1 ≤ calls := by
      unfold callsNeeded at hle ⊢
      simp only [RefcCur.fresh, if_true]
      by_cases hnr : c.nrOps = 0
      · rw [if_pos hnr] at hle
        omega
      · rw [if_neg hnr] at hle
        omega
    obtain ⟨c2, ri2, hrest, hdone, htype2, hext2, C2, lo2, F2, hrep2, hadj2, hstart2, hfreed2⟩ :=
      ih (fun i => space (i + 1)) c1.fresh ri1 C1 (by rw [htype]; exact hadj) hrep1 (hext1 hpos)
        henough
    refine ⟨c2, ri2, by simp only [hz, if_false]; exact hrest, hdone, htype2.trans htype, hext2,
      C2, lo2, F1 ++ F2, hrep2, ?_, hstart2, ?_⟩
    · rw [hstart1 hpos] at hadj2
      exact hadj1.trans hadj2
    · rw [hfreed2, ← List.append_assoc, ← hfreed1]
      rfl

/-- However often the transaction is rolled, the update ends, and it ends with
the counts and the freed blocks of one uninterrupted call. -/
theorem refcountFinish_eq_uninterrupted (g : Group) (space : Nat → Nat → Bool) (c : RefcCur)
    (ri : RefcountIntent) (adj : RefcAdjustOp) (calls : Nat) (hadj : ri.type.adjusts adj)
    (hwf : RefcWF g .shared c.recs) (hext : verifyGbext g ri.startblock ri.blockcount = true)
    (hcalls : callsNeeded c ri ≤ calls) :
    ∃ c' ri' st freed, refcountFinish g calls space c ri = .ok (c', ri') ∧ ri'.blockcount = 0 ∧
      refcountAdjust g (fun _ => true) c ri.startblock ri.blockcount adj = .ok st ∧
      st.aglen = 0 ∧
      (∀ b, refcCover .shared c'.recs b = refcCover .shared st.cur.recs b) ∧
      (∀ b, timesIn c'.freed b = timesIn st.cur.freed b) ∧
      c'.freed = c.freed ++ freed ∧
      RangeAdjusted g adj c.recs c'.recs ri.startblock ri.blockcount freed := by
  obtain ⟨c', ri', hrun, hz, -, -, C1, lo1, F1, hrep1, hadj1, -, hfreed1⟩ :=
    refcountFinish_spec calls space c ri _ hadj (RefcWF.rep hwf) hext hcalls
  obtain ⟨st, honce, ⟨C2, F2, hrep2, hadj2, hfreed2⟩, hall, -⟩ :=
    refcountAdjust_spec hadj.isShared (fun _ => true) hwf.rep hext
  have hz2 := hall (fun _ => rfl)
  rw [hz, add_zero] at hadj1
  rw [hz2, add_zero] at hadj2
  refine ⟨c', ri', st, F1, hrun, hz, honce, hz2, fun b => ?_, fun b => ?_, hfreed1,
    hadj1.rangeAdjusted hadj.isShared hwf hrep1⟩
  · have hc1 : C1 = refcCover .shared c'.recs := hrep1.eq_refcCover
    have hc2 : C2 = refcCover .shared st.cur.recs := hrep2.eq_refcCover
    rw [← hc1, ← hc2]
    exact (hadj1.complete_unique hadj2 b).1
  · rw [hfreed1, hfreed2, timesIn_append, timesIn_append, (hadj1.complete_unique hadj2 b).2]

theorem refcountFinish_eq_uninterrupted_sample : ∃ c' ri' st freed,
      refcountFinish sampleGroup 8 (fun _ _ => false) ⟨⟨sampleRecs, 0⟩, 0, 0, 0, []⟩
        ⟨.decrease, 6, 8⟩ = .ok (c', ri') ∧ ri'.blockcount = 0 ∧
      refcountAdjust sampleGroup (fun _ => true) ⟨⟨sampleRecs, 0⟩, 0, 0, 0, []⟩ 6 8 .decrease =
        .ok st ∧
      st.aglen = 0 ∧
      (∀ b, refcCover .shared c'.recs b = refcCover .shared st.cur.recs b) ∧
      (∀ b, timesIn c'.freed b = timesIn st.cur.freed b) ∧
      c'.freed = [] ++ freed ∧
      RangeAdjusted sampleGroup .decrease sampleRecs c'.recs 6 8 freed :=
  refcountFinish_eq_uninterrupted sampleGroup (fun _ _ => false)
    ⟨⟨sampleRecs, 0⟩, 0, 0, 0, []⟩ ⟨.decrease, 6, 8⟩ .decrease 8 rfl sampleRecs_wf (by decide)
    (by decide)

end Xfs
