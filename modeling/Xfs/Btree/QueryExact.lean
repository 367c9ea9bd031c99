import Xfs.Alloc.FreeSpace
import Xfs.Btree.QuerySpec

/-! Both ways to query a btree call back for the records that overlap the range. -/
namespace Xfs

open RecordCursor

section

variable {R K σ : Type} [LinearOrder K] {ops : BtreeKeyOps R K} {store : BtreeStore R K} {cur : BtreeCur}

/-- A query calls back once for each record that overlaps the range, in the order of the keys: the
overlapped query for every arrangement of the records, the simple query if the records are disjoint
intervals. -/
theorem btree_query_range_exact (hwf : WfBtree ops store cur.root cur.nlevels) :
    ∃ steps, ∀ fuel, steps ≤ fuel → ∀ lowKey highKey : K, lowKey ≤ highKey →
      ∀ fn : R → EStateM Errno σ Unit,
      (ops.overlapping = true ∨ DisjointRecs ops (cur.recs store) →
        btreeQueryRange store ops fuel cur lowKey highKey fn =
          forM ((cur.recs store).filter (queryHit ops lowKey highKey)) fn) ∧
      (ops.overlapping = true → DisjointRecs ops (cur.recs store) →
        btreeSimpleQueryRange store ops fuel cur lowKey highKey fn =
          btreeOverlappedQueryRange store ops fuel cur lowKey highKey fn) := by
  refine ⟨queryCost store (cur.nlevels - 1) cur.root + (cur.recs store).length, ?_⟩
  intro fuel hfuel lowKey highKey hle fn
  constructor
  · intro h
    rw [btreeQueryRange, if_neg (not_not.mpr hle)]
    by_cases hov : ops.overlapping = true
    · rw [if_pos hov]
      exact btreeOverlappedQueryRange_eq hov hwf (by omega)
    · rw [if_neg hov]
      exact btreeSimpleQueryRange_eq hwf (h.resolve_left hov) (by omega)
  · intro hov hdis
    rw [btreeSimpleQueryRange_eq hwf hdis (by omega), btreeOverlappedQueryRange_eq hov hwf (by omega)]

end

def spanKeyOps : BtreeKeyOps (Nat × Nat) Nat := ⟨Prod.fst, Prod.snd, true, (0, 0)⟩

def recordCall {R : Type} (r : R) : EStateM Errno (List R) Unit := modify (· ++ [r])

theorem btree_query_range_exact_sample : ∃ steps, ∀ fuel, steps ≤ fuel →
      btreeQueryRange (twoLeafStore spanKeyOps [(0, 50), (10, 12)] [(20, 22), (30, 45)]) spanKeyOps fuel
        twoLeafCur 40 60 recordCall = forM [(0, 50), (30, 45)] recordCall := by
  have hwf : WfBtree spanKeyOps (twoLeafStore spanKeyOps [(0, 50), (10, 12)] [(20, 22), (30, 45)])
      twoLeafCur.root twoLeafCur.nlevels :=
    twoLeaf_wf (by decide) (by decide) (by decide) (by decide) (by unfold Ordered; decide)
  obtain ⟨steps, h⟩ := btree_query_range_exact hwf
  exact ⟨steps, fun fuel hfuel => (h fuel hfuel 40 60 (by decide) recordCall).1 (.inl rfl)⟩

/-- The keys of the by-size btree. The high key has no start block. -/
def cntbtKeyOps : BtreeKeyOps FreeRec (Nat ×ₗ Nat) where
  initKeyFromRec := cntKey
  initHighKeyFromRec r := toLex (r.len, 0)
  overlapping := false
  stale := ⟨0, 0⟩

/-- In the by-size btree a record is reported whose high key is less than the range: only the first
record is compared with it. -/
theorem btree_query_range_cntbt :
    WfBtree cntbtKeyOps (twoLeafStore cntbtKeyOps [⟨10, 5⟩] [⟨20, 5⟩]) twoLeafCur.root
      twoLeafCur.nlevels ∧
    toLex (5, 15) ≤ toLex (5, 30) ∧
    (∀ fuel, (btreeQueryRange (twoLeafStore cntbtKeyOps [⟨10, 5⟩] [⟨20, 5⟩]) cntbtKeyOps (fuel + 2)
      twoLeafCur (toLex (5, 15)) (toLex (5, 30)) recordCall).run [] = .ok () [⟨20, 5⟩]) ∧
    ¬ toLex (5, 15) ≤ cntbtKeyOps.initHighKeyFromRec ⟨20, 5⟩ := by
  refine ⟨?_, by decide, fun fuel => rfl, by decide⟩
  exact twoLeaf_wf (by decide) (by decide) (by decide) (by decide) (by unfold Ordered; decide)

end Xfs
