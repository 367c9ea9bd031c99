import Xfs.Rmap.Shared

/-! Counting the owners of an extent: `xfs_rmap_count_owners` and
`xfs_rmap_has_other_keys`. Both walk the records that overlap the extent. -/
namespace Xfs

open RecordCursor

/-- What an rmap btree can hold: records in key order that pass the checks. -/
structure RmapRecords (g : RmapGroup) (recs : List RmapIrec) : Prop where
  ordered : Ordered rmapKey recs
  check : ∀ r ∈ recs, rmapCheckBtrec g r = true
  owner_lt : ∀ r ∈ recs, r.owner < 2 ^ 64

/-- The record overlaps an interval of keys. -/
def keysOverlap (low high : RmapKey) (r : RmapIrec) : Bool :=
  decide (rmapKey r ≤ high ∧ low ≤ rmapHighKey r)

/-- Hand the overlapping records to a callback, in key order, until it cancels. -/
def rmapQueryRangeWith {σ : Type} (g : RmapGroup) (low high : RmapKey)
    (fn : σ → RmapIrec → σ × Bool) : σ → List RmapIrec → RmapM (σ × Bool)
  | s, [] => .ok (s, false)
  | s, r :: recs =>
    if high < rmapKey r then .ok (s, false)
    else if low ≤ rmapHighKey r then
      if rmapCheckBtrec g r = false then .error .efscorrupted
      else
        match fn s r with
        | (s, true) => .ok (s, true)
        | (s, false) => rmapQueryRangeWith g low high fn s recs
    else rmapQueryRangeWith g low high fn s recs

structure RmapMatches where
  ownerMatches : Nat
  nonOwnerMatches : Nat
  badNonOwnerMatches : Nat
deriving Repr, DecidableEq

/-- What the callback compares records with. Only the fork flags are set in `good`. -/
structure RmapOwnercount where
  good : RmapIrec
  low : RmapKey
  high : RmapKey

/-- Space that can have more than one owner. -/
def xfsRmapShareable (reflink : Bool) (r : RmapIrec) : Bool :=
  if !reflink then false
  else if rmapNonInodeOwner r.owner then false
  else if r.flags.attrFork || r.flags.bmbtBlock then false
  else true

/-- The high key is the largest one of the last block: all its other bits are set. -/
def rmapOwnercountInit (bno len : Nat) (oinfo : OwnerInfo) : RmapOwnercount where
  good := ⟨bno, len, oinfo.owner, oinfo.offset, oinfo.flags false⟩
  low := rmapKeyOf bno 0 0 ⟨false, false, false⟩
  high := rmapKeyOf ((bno + len - 1) % 2 ^ 32) (2 ^ 64 - 1) (2 ^ 64 - 1) ⟨true, true, true⟩

/-- The part of a record before the comparison range is cut off, with its file offsets. -/
def rmapTrimBefore (good check : RmapIrec) : RmapIrec :=
  if check.startblock < good.startblock then
    let delta := good.startblock - check.startblock
    { check with
      startblock := check.startblock + delta
      blockcount := sub32 check.blockcount delta
      offset := if check.ignoreOff then check.offset else check.offset + delta }
  else check

/-- The part behind the comparison range, from a difference of 32-bit numbers. -/
def rmapTrimBehind (good check : RmapIrec) : RmapIrec :=
  let delta := sub32 (add32 check.startblock check.blockcount)
    (add32 good.startblock good.blockcount)
  if 0 < delta then { check with blockcount := sub32 check.blockcount delta } else check

def rmapOwnerMatches (good check : RmapIrec) : Bool :=
  decide (check.startblock = good.startblock) && decide (check.blockcount = good.blockcount) &&
    decide (check.owner = good.owner) && decide (check.offset = good.offset) &&
    decide (check.flags.attrFork = good.flags.attrFork) &&
    decide (check.flags.bmbtBlock = good.flags.bmbtBlock)

def rmapCountOwnersHelper (reflink : Bool) (good : RmapIrec) (stopOnNonmatch : Bool)
    (res : RmapMatches) (r : RmapIrec) : RmapMatches × Bool :=
  let check := rmapTrimBehind good (rmapTrimBefore good r)
  let res :=
    if rmapOwnerMatches good check then { res with ownerMatches := res.ownerMatches + 1 }
    else
      { res with
        nonOwnerMatches := res.nonOwnerMatches + 1
        badNonOwnerMatches :=
          if xfsRmapShareable reflink good ^^ xfsRmapShareable reflink check then
            res.badNonOwnerMatches + 1
          else res.badNonOwnerMatches }
  (res, decide (res.nonOwnerMatches ≠ 0) && stopOnNonmatch)

def rmapOwnersQuery (g : RmapGroup) (reflink stopOnNonmatch : Bool) (recs : List RmapIrec)
    (bno len : Nat) (oinfo : OwnerInfo) : RmapM (RmapMatches × Bool) :=
  let roc := rmapOwnercountInit bno len oinfo
  if roc.high < roc.low then .error .einval
  else rmapQueryRangeWith g roc.low roc.high
    (rmapCountOwnersHelper reflink roc.good stopOnNonmatch) ⟨0, 0, 0⟩ recs

/-- Count the owners and non-owners of a range. Without an owner nothing conflicts. -/
def rmapCountOwners (g : RmapGroup) (reflink : Bool) (recs : List RmapIrec) (bno len : Nat)
    (oinfo : OwnerInfo) : RmapM RmapMatches := do
  let (res, _) ← rmapOwnersQuery g reflink false recs bno len oinfo
  pure (if res.ownerMatches = 0 then { res with badNonOwnerMatches := 0 } else res)

def rmapHasOtherKeys (g : RmapGroup) (reflink : Bool) (recs : List RmapIrec) (bno len : Nat)
    (oinfo : OwnerInfo) : RmapM Bool := do
  let (_, canceled) ← rmapOwnersQuery g reflink true recs bno len oinfo
  pure canceled

end Xfs
