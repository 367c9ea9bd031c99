import Xfs.Rmap.Ops

/-! Mapping, unmapping and conversion of data fork extents that other files may map as well. Records
are found by their key or by a query for overlapping records. -/
namespace Xfs

open RecordCursor

/-- Query the overlapping records in key order, up to the first one accepted. -/
def rmapQueryRange (g : RmapGroup) (low high : RmapKey) (fn : RmapIrec → Bool) :
    List RmapIrec → RmapM (Option RmapIrec)
  | [] => .ok none
  | r :: recs =>
    if high < rmapKey r then .ok none
    else if low ≤ rmapHighKey r then
      if rmapCheckBtrec g r = false then .error .efscorrupted
      else if fn r then .ok (some r)
      else rmapQueryRange g low high fn recs
    else rmapQueryRange g low high fn recs

def rmapFindLeftNeighborHelper (owner high : Nat) (r : RmapIrec) : Bool :=
  if r.owner ≠ owner then false
  else if !rmapNonInodeOwner r.owner && !r.flags.bmbtBlock &&
      decide (r.offset + r.blockcount - 1 ≠ high) then false
  else true

def rmapLookupLeRangeHelper (owner high : Nat) (r : RmapIrec) : Bool :=
  if r.owner ≠ owner then false
  else if !rmapNonInodeOwner r.owner && !r.flags.bmbtBlock &&
      (decide (high < r.offset) || decide (r.offset + r.blockcount ≤ high)) then false
  else true

/-- Try the record of the plain lookup, and fall back to the overlapped query. -/
def rmapLookupOrQuery (g : RmapGroup) (cur : RmapCur) (bno owner offset : Nat)
    (flags : RmapFlags) (high : RmapKey) (fn : RmapIrec → Bool) :
    RmapM (RmapCur × Option RmapIrec) := do
  let (cur, found) ← rmapLookupLe g cur bno owner offset flags
  if found.any fn then pure (cur, found) else
  let found ← rmapQueryRange g high high fn cur.recs
  pure (cur, found)

def rmapFindLeftNeighbor (g : RmapGroup) (cur : RmapCur) (bno owner offset : Nat)
    (flags : RmapFlags) : RmapM (RmapCur × Option RmapIrec) :=
  let ignoreOff := rmapIgnoreOff owner flags
  if bno = 0 then .ok (cur, none)
  else if ignoreOff = false ∧ offset = 0 then .ok (cur, none)
  else
    let high := if ignoreOff then 0 else offset - 1
    rmapLookupOrQuery g cur bno owner offset flags (rmapKeyOf (bno - 1) owner high flags)
      (rmapFindLeftNeighborHelper owner high)

def rmapLookupLeRange (g : RmapGroup) (cur : RmapCur) (bno owner offset : Nat)
    (flags : RmapFlags) : RmapM (RmapCur × Option RmapIrec) :=
  let high := if rmapIgnoreOff owner flags then 0 else offset
  rmapLookupOrQuery g cur bno owner offset flags (rmapKeyOf bno owner high flags)
    (rmapLookupLeRangeHelper owner high)

/-- Remove the range from the record `ltrec`. -/
def rmapUnmapSharedRec (cur : RmapCur) (ltrec : RmapIrec) (bno len offset : Nat) :
    RmapM RmapCur := do
  if ltrec.startblock = bno ∧ ltrec.blockcount = len then rmapDelete cur ltrec
  else if ltrec.startblock = bno then
    let cur ← rmapDelete cur ltrec
    rmapInsert cur { ltrec with
      startblock := ltrec.startblock + len
      blockcount := ltrec.blockcount - len
      offset := ltrec.offset + len }
  else if ltrec.startblock + ltrec.blockcount = bno + len then
    let cur ← rmapLookupEqFound cur ltrec
    pure (rmapUpdate cur { ltrec with blockcount := ltrec.blockcount - len })
  else
    let left := { ltrec with blockcount := bno - ltrec.startblock }
    let cur ← rmapLookupEqFound cur ltrec
    rmapInsert (rmapUpdate cur left) ⟨bno + len, ltrec.blockcount - len - left.blockcount,
      ltrec.owner, offset + len, ltrec.flags⟩

def rmapUnmapShared (g : RmapGroup) (cur : RmapCur) (bno len : Nat) (unwritten : Bool)
    (oinfo : OwnerInfo) : RmapM RmapCur := do
  let owner := oinfo.owner
  let offset := oinfo.offset
  let flags := oinfo.flags unwritten
  let (cur, found) ← rmapLookupLeRange g cur bno owner offset flags
  match found with
  | none => throw .efscorrupted
  | some ltrec =>
    if bno < ltrec.startblock ∨ ltrec.startblock + ltrec.blockcount < bno + len then
      throw .efscorrupted
    else if owner ≠ ltrec.owner then throw .efscorrupted
    else if flags.unwritten ≠ ltrec.flags.unwritten then throw .efscorrupted
    else if offset < ltrec.offset then throw .efscorrupted
    else if ltrec.offset + ltrec.blockcount < offset then throw .efscorrupted
    else rmapUnmapSharedRec cur ltrec bno len offset

def rmapMapSharedRec (cur : RmapCur) (ltrec gtrec : Option RmapIrec)
    (bno len owner offset : Nat) (flags : RmapFlags) : RmapM RmapCur :=
  let gtcontig := gtrec.filter (fun gt =>
    decide (bno + len = gt.startblock) && decide (offset + len = gt.offset))
  let ltcontig := ltrec.filter (fun lt =>
    decide (lt.startblock + lt.blockcount = bno) && decide (lt.offset + lt.blockcount = offset))
  match ltcontig, gtcontig with
  | some lt, some gt => do
      let lt := { lt with blockcount := lt.blockcount + len + gt.blockcount }
      let cur ← rmapDelete cur gt
      let cur ← rmapLookupEqFound cur lt
      pure (rmapUpdate cur lt)
  | some lt, none => do
      let lt := { lt with blockcount := lt.blockcount + len }
      let cur ← rmapLookupEqFound cur lt
      pure (rmapUpdate cur lt)
  | none, some gt => do
      let cur ← rmapDelete cur gt
      rmapInsert cur { gt with
        startblock := bno
        blockcount := gt.blockcount + len
        offset := offset }
  | none, none => rmapInsert cur ⟨bno, len, owner, offset, flags⟩

def rmapFindEq (g : RmapGroup) (cur : RmapCur) (bno owner offset : Nat) (flags : RmapFlags) :
    RmapM (RmapCur × Option RmapIrec) := do
  let (cur, found) := rmapLookupEq cur bno owner offset flags
  if found = false then pure (cur, none) else
  let r ← rmapGetRecFound g cur
  pure (cur, some r)

def rmapMapShared (g : RmapGroup) (cur : RmapCur) (bno len : Nat) (unwritten : Bool)
    (oinfo : OwnerInfo) : RmapM RmapCur := do
  let owner := oinfo.owner
  let offset := oinfo.offset
  let flags := oinfo.flags unwritten
  let (cur, ltrec) ← rmapFindLeftNeighbor g cur bno owner offset flags
  let (cur, gtrec) ← rmapFindEq g cur (bno + len) owner (offset + len) flags
  rmapMapSharedRec cur (ltrec.filter (fun lt => rmapIsMergeable lt owner flags))
    (gtrec.filter (fun gt => rmapIsMergeable gt owner flags)) bno len owner offset flags

def rmapConvertSharedPlan (g : RmapGroup) (cur : RmapCur) (bno len owner offset : Nat)
    (unwritten : Bool) : RmapM (RmapCur × ConvertPlan) := do
  let oldext := dataFlags unwritten
  let newext := dataFlags (!unwritten)
  let (cur, found) ← rmapLookupLeRange g cur bno owner offset oldext
  match found with
  | none => throw .efscorrupted
  | some prev =>
    let (cur, left) ← rmapFindLeftNeighbor g cur bno owner offset newext
    if left.any (fun l => decide (bno < l.startblock + l.blockcount)) then
      throw .efscorrupted
    else
    let (cur, right) ← rmapFindEq g cur (bno + len) owner (offset + len) newext
    if right.any (fun r => decide (r.startblock < bno + len)) then throw .efscorrupted
    else
    let state : ConvertState := ⟨decide (prev.offset = offset),
      decide (prev.offset + prev.blockcount = offset + len),
      left.any (fun l => rmapIsMergeable l owner newext),
      right.any (fun r => rmapIsMergeable r owner newext)⟩
    pure (cur, ⟨prev, left, right, state.limit left right len⟩)

def rmapConvertSharedRecs (cur : RmapCur) (plan : ConvertPlan) (bno len owner offset : Nat)
    (unwritten : Bool) : RmapM RmapCur := do
  let newext := dataFlags (!unwritten)
  let prev := plan.prev
  match plan.state, plan.left, plan.right with
  | ⟨true, true, true, true⟩, some left, some right =>
    let cur ← rmapDelete cur right
    let cur ← rmapDelete cur prev
    let cur ← rmapLookupEqFound cur left
    pure (rmapUpdate cur { left with
      blockcount := left.blockcount + (prev.blockcount + right.blockcount) })
  | ⟨true, true, true, false⟩, some left, _ =>
    let cur ← rmapDelete cur prev
    let cur ← rmapLookupEqFound cur left
    pure (rmapUpdate cur { left with blockcount := left.blockcount + prev.blockcount })
  | ⟨true, true, false, true⟩, _, some right =>
    let cur ← rmapDelete cur right
    let cur ← rmapLookupEqFound cur prev
    pure (rmapUpdate cur { prev with
      blockcount := prev.blockcount + right.blockcount, flags := right.flags })
  | ⟨true, true, false, false⟩, _, _ =>
    let cur ← rmapLookupEqFound cur prev
    pure (rmapUpdate cur { prev with flags := newext })
  | ⟨true, false, true, false⟩, some left, _ =>
    let cur ← rmapDelete cur prev
    let cur ← rmapInsert cur { prev with
      offset := prev.offset + len
      startblock := prev.startblock + len
      blockcount := prev.blockcount - len }
    let cur ← rmapLookupEqFound cur left
    pure (rmapUpdate cur { left with blockcount := left.blockcount + len })
  | ⟨true, false, false, false⟩, _, _ =>
    let cur ← rmapDelete cur prev
    let cur ← rmapInsert cur { prev with
      offset := prev.offset + len
      startblock := prev.startblock + len
      blockcount := prev.blockcount - len }
    rmapInsert cur ⟨bno, len, owner, offset, newext⟩
  | ⟨false, true, false, true⟩, _, some right =>
    let cur ← rmapLookupEqFound cur prev
    let cur ← rmapDelete (rmapUpdate cur { prev with blockcount := offset - prev.offset }) right
    rmapInsert cur { right with
      offset := offset
      startblock := bno
      blockcount := right.blockcount + len }
  | ⟨false, true, false, false⟩, _, _ =>
    let cur ← rmapLookupEqFound cur prev
    rmapInsert (rmapUpdate cur { prev with blockcount := prev.blockcount - len })
      ⟨bno, len, owner, offset, newext⟩
  | ⟨false, false, false, false⟩, _, _ =>
    -- one extent becomes three: the right part, the left part, the middle
    let cur ← rmapInsert cur ⟨bno + len,
      prev.offset + prev.blockcount - (offset + len), owner, offset + len, prev.flags⟩
    let cur ← rmapLookupEqFound cur prev
    rmapInsert (rmapUpdate cur { prev with blockcount := offset - prev.offset })
      ⟨bno, len, owner, offset, newext⟩
  | _, _, _ => pure cur

def rmapConvertShared (g : RmapGroup) (cur : RmapCur) (bno len : Nat) (unwritten : Bool)
    (oinfo : OwnerInfo) : RmapM RmapCur := do
  let (cur, plan) ← rmapConvertSharedPlan g cur bno len oinfo.owner oinfo.offset unwritten
  rmapConvertSharedRecs cur plan bno len oinfo.owner oinfo.offset unwritten

end Xfs
