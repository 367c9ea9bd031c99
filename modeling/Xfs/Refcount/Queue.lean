import Xfs.Refcount.Deferred

/-! Queues of deferred refcount updates: the work list of `xfs_defer_finish_one` for updates of
shared blocks, each of which may be requeued several times. -/
namespace Xfs

variable {g : Group} {recs recs' recs'' : List RefcountIrec} {ri : RefcountIntent}
  {owners : Nat → Nat} {freed freed' : List (Nat × Nat)} {c : RefcCur}

def refcountFinishAll (g : Group) : List RefcountIntent → (Nat → Nat → Nat → Bool) → RefcCur →
    RefcM RefcCur
  | [], _, cur => pure cur
  | ri :: ris, space, cur => do
      let (cur, _) ← refcountFinish g (callsNeeded cur ri) (space 0) cur ri
      refcountFinishAll g ris (fun i => space (i + 1)) cur

def RefcountIntentType.adj : RefcountIntentType → RefcAdjustOp
  | .increase => .increase
  | .decrease => .decrease
  | .allocCow => .cowAlloc
  | .freeCow => .cowFree

abbrev RefcountIntent.Covers (ri : RefcountIntent) (b : Nat) : Prop :=
  ri.startblock ≤ b ∧ b < ri.startblock + ri.blockcount

/-- What an update makes of the `n` owners of a block. -/
def ownersAfter (b n : Nat) (ri : RefcountIntent) : Nat :=
  if ri.Covers b then adjustedCount ri.type.adj n else n

/-- No update is for a block that has lost its last owner. -/
def StaysOwned (b : Nat) : List RefcountIntent → Nat → Prop
  | [], _ => True
  | ri :: ris, n => (ri.Covers b → 0 < n) ∧
      StaysOwned b ris (ownersAfter b n ri)

structure OwnersRecorded (g : Group) (recs : List RefcountIrec) (owners : Nat → Nat)
    (recs' : List RefcountIrec) (freed : List (Nat × Nat)) : Prop where
  wf : RefcWF g .shared recs'
  cow : ∀ r, r.domain = .cow → (r ∈ recs' ↔ r ∈ recs)
  count : ∀ b, rc recs' b = max 1 (owners b)
  freed : ∀ b, timesIn freed b = if owners b = 0 then 1 else 0

theorem OwnersRecorded.step (h : OwnersRecorded g recs owners recs' freed)
    (hadj : ri.type.adj.IsShared) (howned : ∀ b, ri.Covers b → 0 < owners b)
    (hstep : RangeAdjusted g ri.type.adj recs' recs'' ri.startblock ri.blockcount freed') :
    OwnersRecorded g recs (fun b => ownersAfter b (owners b) ri) recs'' (freed ++ freed') := by
  have hrc : ∀ b, ri.Covers b → rc recs' b = owners b ∧
      (adjustedCount ri.type.adj (owners b) = 0 ↔ ri.type.adj = .decrease ∧ rc recs' b = 1) := by
    intro b hin
    have hpos := howned b hin
    have hcount : rc recs' b = owners b := (h.count b).trans (max_eq_right hpos)
    rw [hcount]
    exact ⟨rfl, adjustedCount_eq_zero_iff hadj hpos⟩
  have hfreed : ∀ b, timesIn freed' b = if ri.startblock ≤ b ∧ b < ri.startblock + ri.blockcount ∧
      adjustedCount ri.type.adj (owners b) = 0 then 1 else 0 := by
    intro b
    rw [hstep.freed]
    by_cases hin : ri.Covers b
    · simp [hin, (hrc b hin).2]
    · simp [hin, ← and_assoc]
  refine ⟨hstep.wf, fun r hr => (hstep.cow r hr).trans (h.cow r hr), fun b => ?_, fun b => ?_⟩
  · by_cases hin : ri.Covers b
    · rw [ownersAfter, if_pos hin]
      by_cases hz : adjustedCount ri.type.adj (owners b) = 0
      · rw [hz, rc, hstep.unrecorded b ((hfreed b).trans (if_pos ⟨hin.1, hin.2, hz⟩))]
        rfl
      · rw [hstep.inside b hin.1 hin.2 fun hand => hz ((hrc b hin).2.mpr hand), (hrc b hin).1,
          max_eq_right (Nat.pos_of_ne_zero hz)]
    · rw [hstep.outside b hin, h.count, ownersAfter, if_neg hin]
  · rw [timesIn_append, h.freed, hfreed, ownersAfter]
    by_cases hin : ri.Covers b
    · simp [if_pos hin, hin.1, hin.2, (howned b hin).ne']
    · simp [hin, ← and_assoc]

theorem refcountFinishAll_spec (ris : List RefcountIntent) (space : Nat → Nat → Nat → Bool)
    (h : OwnersRecorded g recs owners c.recs freed)
    (hris : ∀ ri ∈ ris, ri.type.adjusts ri.type.adj ∧ verifyGbext g ri.startblock ri.blockcount)
    (howned : ∀ b, StaysOwned b ris (owners b)) :
    ∃ c' freed', refcountFinishAll g ris space c = .ok c' ∧ c'.freed = c.freed ++ freed' ∧
      OwnersRecorded g recs (fun b => ris.foldl (ownersAfter b) (owners b)) c'.recs
        (freed ++ freed') := by
  induction ris generalizing space c owners freed with
  | nil => exact ⟨c, [], rfl, (List.append_nil _).symm, by rwa [List.append_nil]⟩
  | cons ri ris ih =>
    obtain ⟨hadj, hext⟩ := hris ri List.mem_cons_self
    obtain ⟨c1, ri1, hrun, hz, -, -, C1, lo1, F1, hrep, hadj', -, hfreed⟩ :=
      refcountFinish_spec _ (space 0) c ri _ hadj h.wf.rep hext le_rfl
    rw [hz, add_zero] at hadj'
    have hstep := h.step hadj.isShared (fun b => (howned b).1)
      (hadj'.rangeAdjusted hadj.isShared h.wf hrep)
    obtain ⟨c2, F2, hrest, hfreed2, hdone⟩ := ih (fun i => space (i + 1)) hstep
      (fun ri hri => hris ri (List.mem_cons_of_mem _ hri)) fun b => (howned b).2
    refine ⟨c2, F1 ++ F2, ?_, ?_, ?_⟩
    · simp only [refcountFinishAll, hrun, ok_bind]
      exact hrest
    · rw [hfreed2, hfreed, List.append_assoc]
    · rw [← List.append_assoc]
      exact hdone

theorem ownersRecorded_self (h : RefcWF g .shared recs) : OwnersRecorded g recs (rc recs) recs [] :=
  ⟨h, fun _ _ => Iff.rfl, fun b => (max_eq_right (rc_pos h b)).symm,
    fun b => by rw [if_neg (rc_pos h b).ne']; rfl⟩

/-- A queue of updates ends with the owners of every block counted, as if each update changed them
at once: none is lost or made twice, however the transactions are rolled. -/
theorem refcount_queue_exact (g : Group) (ris : List RefcountIntent)
    (space : Nat → Nat → Nat → Bool) (c : RefcCur) (hwf : RefcWF g .shared c.recs)
    (hris : ∀ ri ∈ ris, ri.type.adjusts ri.type.adj ∧
      verifyGbext g ri.startblock ri.blockcount = true)
    (howned : ∀ b, StaysOwned b ris (rc c.recs b)) :
    ∃ c' freed, refcountFinishAll g ris space c = .ok c' ∧ c'.freed = c.freed ++ freed ∧
      OwnersRecorded g c.recs (fun b => ris.foldl (ownersAfter b) (rc c.recs b)) c'.recs freed :=
  refcountFinishAll_spec ris space (ownersRecorded_self hwf) hris howned

/-- A block and its neighbours lose a reference and get it back. -/
theorem refcount_queue_exact_sample :
    ∃ c' freed, refcountFinishAll sampleGroup [⟨.increase, 6, 8⟩, ⟨.decrease, 6, 8⟩]
        (fun _ _ _ => false) ⟨⟨sampleRecs, 0⟩, 0, 0, 0, []⟩ = .ok c' ∧ c'.freed = [] ++ freed ∧
      OwnersRecorded sampleGroup sampleRecs (fun b => [⟨.increase, 6, 8⟩, ⟨.decrease, 6, 8⟩].foldl
        (ownersAfter b) (rc sampleRecs b)) c'.recs freed := by
  refine refcount_queue_exact sampleGroup [⟨.increase, 6, 8⟩, ⟨.decrease, 6, 8⟩] (fun _ _ _ => false)
    ⟨⟨sampleRecs, 0⟩, 0, 0, 0, []⟩ sampleRecs_wf ?_ fun b => ?_
  · intro ri hri
    simp only [List.mem_cons, List.not_mem_nil, or_false] at hri
    rcases hri with rfl | rfl <;> exact ⟨rfl, by decide⟩
  · have hpos := rc_pos sampleRecs_wf b
    refine ⟨fun _ => hpos, fun _ => ?_, trivial⟩
    unfold ownersAfter adjustedCount
    split_ifs <;> first | exact hpos | decide | exact Nat.succ_pos _

end Xfs
