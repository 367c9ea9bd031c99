import Xfs.Rmap.Basic

/-! Mapping, unmapping and conversion of extents that nobody else can map. -/
namespace Xfs

open RecordCursor

/-- The owner checks of a removal. An unknown owner has nothing to check. -/
def rmapFreeCheckOwner (r : RmapIrec) (len owner offset : Nat) (flags : RmapFlags) : RmapM Unit :=
  if owner = rmapOwnUnknown then .ok ()
  else if flags.unwritten ≠ r.flags.unwritten then .error .efscorrupted
  else if owner ≠ r.owner then .error .efscorrupted
  else if rmapNonInodeOwner owner then .ok ()
  else if flags.bmbtBlock then
    if r.flags.bmbtBlock then .ok () else .error .efscorrupted
  else if offset < r.offset then .error .efscorrupted
  else if r.offset + r.blockcount < offset + len then .error .efscorrupted
  else .ok ()

/-- Whether removing an unknown owner finds nothing: no mapping overlaps the ends. -/
def rmapUnmapNothing (g : RmapGroup) (cur : RmapCur) (ltrec : RmapIrec) (bno len owner : Nat) :
    RmapM Bool := do
  if owner = rmapOwnUnknown ∧ ltrec.startblock + ltrec.blockcount ≤ bno then
    let (cur, found) := cur.increment
    if found = false then pure true else
    let rtrec ← rmapGetRecFound g cur
    pure (decide (bno + len ≤ rtrec.startblock))
  else pure false

def rmapUnmapRec (cur : RmapCur) (ltrec : RmapIrec) (bno len offset : Nat) (flags : RmapFlags)
    (ignoreOff : Bool) : RmapM RmapCur :=
  if ltrec.startblock = bno ∧ ltrec.blockcount = len then rmapBtreeDelete cur
  else if ltrec.startblock = bno then
    .ok (rmapUpdate cur { ltrec with
      startblock := ltrec.startblock + len
      blockcount := ltrec.blockcount - len
      offset := if ignoreOff then ltrec.offset else ltrec.offset + len })
  else if ltrec.startblock + ltrec.blockcount = bno + len then
    .ok (rmapUpdate cur { ltrec with blockcount := ltrec.blockcount - len })
  else
    -- trim the record to its left part and insert the right part after it
    let left := { ltrec with blockcount := bno - ltrec.startblock }
    let cur := (rmapUpdate cur left).increment.1
    let right : RmapIrec := ⟨bno + len, ltrec.blockcount - len - left.blockcount, ltrec.owner,
      if ignoreOff then 0 else offset + len, flags⟩
    .ok (cur.insert right.pack).1

def rmapUnmap (g : RmapGroup) (cur : RmapCur) (bno len : Nat) (unwritten : Bool)
    (oinfo : OwnerInfo) : RmapM RmapCur := do
  let owner := oinfo.owner
  let offset := oinfo.offset
  let ignoreOff := rmapNonInodeOwner owner || oinfo.bmbtBlock
  let flags := oinfo.flags unwritten
  let (cur, found) ← rmapLookupLe g cur bno owner offset flags
  match found with
  | none => throw .efscorrupted
  | some ltrec =>
    -- growfs frees space that nobody has mapped
    if owner = rmapOwnNull then
      if bno < ltrec.startblock + ltrec.blockcount then throw .efscorrupted else pure cur
    else
    let nothing ← rmapUnmapNothing g cur ltrec bno len owner
    if nothing then pure cur else
    if bno < ltrec.startblock ∨ ltrec.startblock + ltrec.blockcount < bno + len then
      throw .efscorrupted
    else
    rmapFreeCheckOwner ltrec len owner offset flags
    rmapUnmapRec cur ltrec bno len offset flags ignoreOff

/-- Add the range next to the records on both sides. The cursor is behind `ltrec`. -/
def rmapMapRec (cur : RmapCur) (ltrec gtrec : Option RmapIrec) (bno len owner offset : Nat)
    (flags : RmapFlags) (ignoreOff : Bool) : RmapM RmapCur :=
  let gtcontig := gtrec.filter (fun gt =>
    decide (bno + len = gt.startblock) && (ignoreOff || decide (offset + len = gt.offset)))
  let ltcontig := ltrec.filter (fun lt =>
    decide (lt.startblock + lt.blockcount = bno) &&
      (ignoreOff || decide (lt.offset + lt.blockcount = offset)))
  match ltcontig, gtcontig with
  | some lt, some gt => do
      let lt := { lt with blockcount := lt.blockcount + len }
      if lt.blockcount + len + gt.blockcount ≤ rmapLenMax then
        -- the right edge is contiguous as well
        let cur ← rmapBtreeDelete cur
        pure (rmapUpdate cur.decrement.1 { lt with blockcount := lt.blockcount + gt.blockcount })
      else pure (rmapUpdate cur.decrement.1 lt)
  | some lt, none => .ok (rmapUpdate cur.decrement.1 { lt with blockcount := lt.blockcount + len })
  | none, some gt =>
    .ok (rmapUpdate cur { gt with
      startblock := bno
      blockcount := gt.blockcount + len
      offset := if ignoreOff then gt.offset else offset })
  | none, none => rmapBtreeInsert cur ⟨bno, len, owner, offset, flags⟩

def rmapMap (g : RmapGroup) (cur : RmapCur) (bno len : Nat) (unwritten : Bool)
    (oinfo : OwnerInfo) : RmapM RmapCur := do
  let owner := oinfo.owner
  let offset := oinfo.offset
  let ignoreOff := rmapNonInodeOwner owner || oinfo.bmbtBlock
  let flags := oinfo.flags unwritten
  let (cur, found) ← rmapLookupLe g cur bno owner offset flags
  let ltrec := found.filter (fun lt => rmapIsMergeable lt owner flags)
  if ltrec.any (fun lt => decide (bno < lt.startblock + lt.blockcount)) then throw .efscorrupted
  else
  let (cur, have_gt) := cur.increment
  let gtrec ← if have_gt then do
      let gt ← rmapGetRecFound g cur
      if gt.startblock < bno + len then throw .efscorrupted else
      pure (if rmapIsMergeable gt owner flags then some gt else none)
    else pure none
  rmapMapRec cur ltrec gtrec bno len owner offset flags ignoreOff

/-- Which ends are converted, and which neighbours can take the converted part. -/
structure ConvertState where
  leftFilling : Bool
  rightFilling : Bool
  leftContig : Bool
  rightContig : Bool
deriving Repr, DecidableEq

/-- The combinations the switch of the conversion does not handle. -/
def ConvertState.impossible (s : ConvertState) : Bool :=
  (s.leftContig && !s.leftFilling) || (s.rightContig && !s.rightFilling)

/-- Without this a merge of all three records could get too long. -/
def ConvertState.limit (s : ConvertState) (left right : Option RmapIrec) (len : Nat) :
    ConvertState :=
  match left, right with
  | some l, some r =>
    if s.leftFilling && s.leftContig && s.rightFilling && s.rightContig &&
        decide (rmapLenMax < l.blockcount + len + r.blockcount)
    then { s with rightContig := false }
    else s
  | _, _ => s

def dataFlags (unwritten : Bool) : RmapFlags := ⟨false, false, unwritten⟩

/-- What the conversion looks at before it changes anything. -/
structure ConvertPlan where
  prev : RmapIrec
  left : Option RmapIrec
  right : Option RmapIrec
  state : ConvertState
deriving Repr, DecidableEq

def rmapConvertLeft (g : RmapGroup) (cur : RmapCur) (bno : Nat) :
    RmapM (RmapCur × Option RmapIrec) := do
  let (cur, haveLeft) := cur.decrement
  if haveLeft = false then pure (cur, none) else
  let l ← rmapGetRecFound g cur
  if bno < l.startblock + l.blockcount then throw .efscorrupted else
  pure (cur, some l)

def rmapConvertRight (g : RmapGroup) (cur : RmapCur) (bno len : Nat) :
    RmapM (Option RmapIrec) := do
  let (cur, haveRight) := cur.increment
  if haveRight = false then pure none else
  let r ← rmapGetRecFound g cur
  if r.startblock < bno + len then throw .efscorrupted else
  pure (some r)

def rmapConvertPlan (g : RmapGroup) (cur : RmapCur) (bno len owner offset : Nat)
    (unwritten : Bool) : RmapM ConvertPlan := do
  let oldext := dataFlags unwritten
  let newext := dataFlags (!unwritten)
  let (cur, found) ← rmapLookupLe g cur bno owner offset oldext
  match found with
  | none => throw .efscorrupted
  | some prev =>
    let (cur, left) ← rmapConvertLeft g cur bno
    let leftContig := left.any (fun l =>
      decide (l.startblock + l.blockcount = bno) && decide (l.offset + l.blockcount = offset) &&
        rmapIsMergeable l owner newext)
    let cur ← rmapIncrementFound cur
    let right ← rmapConvertRight g cur bno len
    let rightContig := right.any (fun r =>
      decide (bno + len = r.startblock) && decide (offset + len = r.offset) &&
        rmapIsMergeable r owner newext)
    let state : ConvertState := ⟨decide (prev.offset = offset),
      decide (prev.offset + prev.blockcount = offset + len), leftContig, rightContig⟩
    pure ⟨prev, left, right, state.limit left right len⟩

/-- Change the records around `prev`. Missing combinations fall through the switch. -/
def rmapConvertRecs (cur : RmapCur) (plan : ConvertPlan) (bno len owner offset : Nat)
    (unwritten : Bool) : RmapM RmapCur := do
  let oldext := dataFlags unwritten
  let newext := dataFlags (!unwritten)
  let prev := plan.prev
  match plan.state, plan.left, plan.right with
  | ⟨true, true, true, true⟩, some left, some right =>
    let cur ← rmapIncrementFound cur
    let cur ← rmapBtreeDelete cur
    let cur ← rmapDecrementFound cur
    let cur ← rmapBtreeDelete cur
    let cur ← rmapDecrementFound cur
    pure (rmapUpdate cur { left with
      blockcount := left.blockcount + (prev.blockcount + right.blockcount) })
  | ⟨true, true, true, false⟩, some left, _ =>
    let cur ← rmapBtreeDelete cur
    let cur ← rmapDecrementFound cur
    pure (rmapUpdate cur { left with blockcount := left.blockcount + prev.blockcount })
  | ⟨true, true, false, true⟩, _, some right =>
    let cur ← rmapIncrementFound cur
    let cur ← rmapBtreeDelete cur
    let cur ← rmapDecrementFound cur
    pure (rmapUpdate cur { prev with blockcount := len + right.blockcount, flags := newext })
  | ⟨true, true, false, false⟩, _, _ => pure (rmapUpdate cur { prev with flags := newext })
  | ⟨true, false, true, false⟩, some left, _ =>
    let cur := rmapUpdate cur { prev with
      offset := prev.offset + len
      startblock := prev.startblock + len
      blockcount := prev.blockcount - len }
    pure (rmapUpdate cur.decrement.1 { left with blockcount := left.blockcount + len })
  | ⟨true, false, false, false⟩, _, _ =>
    let cur := rmapUpdate cur { prev with
      startblock := prev.startblock + len
      offset := prev.offset + len
      blockcount := prev.blockcount - len }
    rmapBtreeInsert cur ⟨bno, len, owner, offset, newext⟩
  | ⟨false, true, false, true⟩, _, some right =>
    let cur := rmapUpdate cur { prev with blockcount := prev.blockcount - len }
    pure (rmapUpdate cur.increment.1 { right with
      offset := offset
      startblock := bno
      blockcount := right.blockcount + len })
  | ⟨false, true, false, false⟩, _, _ =>
    let cur := rmapUpdate cur { prev with blockcount := prev.blockcount - len }
    let (cur, found) := rmapLookupEq cur bno owner offset oldext
    if found then throw .efscorrupted else
    rmapBtreeInsert cur ⟨bno, len, owner, offset, newext⟩
  | ⟨false, false, false, false⟩, _, _ =>
    -- one extent becomes three: the right part, the left part, the middle
    let cur := rmapUpdate cur ⟨bno + len,
      prev.offset + prev.blockcount - (offset + len), owner, offset + len, prev.flags⟩
    let cur ← rmapBtreeInsert cur { prev with blockcount := offset - prev.offset }
    let (cur, found) := rmapLookupEq cur bno owner offset oldext
    if found then throw .efscorrupted else
    rmapBtreeInsert cur ⟨bno, len, owner, offset, { oldext with unwritten := newext.unwritten }⟩
  | _, _, _ => pure cur

def rmapConvert (g : RmapGroup) (cur : RmapCur) (bno len : Nat) (unwritten : Bool)
    (oinfo : OwnerInfo) : RmapM RmapCur := do
  let owner := oinfo.owner
  let offset := oinfo.offset
  let plan ← rmapConvertPlan g cur bno len owner offset unwritten
  -- reset the cursor back to the previous extent
  let (cur, found) := rmapSeekLe cur bno owner offset (dataFlags unwritten)
  if found = false then throw .efscorrupted else
  rmapConvertRecs cur plan bno len owner offset unwritten

end Xfs
