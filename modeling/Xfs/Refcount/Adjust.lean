import Xfs.Refcount.Basic

/-! Adjusting the reference counts of a range: splitting the records that
cross its ends, merging with the neighbours and updating the middle. -/
namespace Xfs

open RecordCursor

inductive RefcAdjustOp where
  | increase
  | decrease
  | cowAlloc
  | cowFree
deriving Repr, DecidableEq

def RefcAdjustOp.apply (adj : RefcAdjustOp) (refcount : Nat) : Nat :=
  match adj with
  | .increase => add32 refcount 1
  | .decrease => sub32 refcount 1
  | .cowAlloc => refcount
  | .cowFree => sub32 refcount 1

/-- Split an extent that crosses `agbno`. The flag tells whether the shape changed. -/
def refcountSplitExtent (g : Group) (cur : RefcCur) (domain : RefcDomain) (agbno : Nat) :
    RefcM (RefcCur × Bool) := do
  let (cur, found) := refcountLookupLe cur domain agbno
  if found = false then pure (cur, false) else
  let rcext ← refcountGetRecFound g cur
  if rcext.domain ≠ domain then pure (cur, false) else
  if rcext.startblock = agbno ∨ refcNext rcext ≤ agbno then pure (cur, false) else
  -- the right part replaces the record, the left part goes in before it
  let cur := refcountUpdate cur { rcext with
    startblock := agbno
    blockcount := sub32 rcext.blockcount (sub32 agbno rcext.startblock) }
  let cur ← refcountInsert cur { rcext with blockcount := sub32 agbno rcext.startblock }
  pure (cur, true)

def nullIrec : RefcountIrec := ⟨nullagblock, 0, 0, .shared⟩

def refcValid (r : RefcountIrec) : Bool := decide (r.startblock ≠ nullagblock)

def refcountDeleteCenter (g : Group) (cur : RefcCur) (center : RefcountIrec) : RefcM RefcCur := do
  let (cur, found) := refcountLookupGe cur center.domain center.startblock
  if found = false then throw .efscorrupted else
  let cur ← refcountDelete g cur
  if 1 < center.refcount then refcountDelete g cur else pure cur

def refcountMergeCenterExtents (g : Group) (cur : RefcCur) (left center : RefcountIrec)
    (extlen : Nat) : RefcM (RefcCur × Nat) := do
  let cur ← refcountDeleteCenter g cur center
  -- enlarge the left extent
  let (cur, found) := refcountLookupLe cur left.domain left.startblock
  if found = false then throw .efscorrupted else
  pure (refcountUpdate cur { left with blockcount := extlen }, 0)

/-- Remove the extent to be merged, unless it was synthesized for a gap. -/
def refcountDeleteReal (g : Group) (cur : RefcCur) (r : RefcountIrec) : RefcM RefcCur :=
  if 1 < r.refcount then
    let (cur, found) := refcountLookupLe cur r.domain r.startblock
    if found = false then throw .efscorrupted else
    refcountDelete g cur
  else pure cur

def refcountMergeLeftExtent (g : Group) (cur : RefcCur) (left cleft : RefcountIrec)
    (agbno aglen : Nat) : RefcM (RefcCur × Nat × Nat) := do
  let cur ← refcountDeleteReal g cur cleft
  let (cur, found) := refcountLookupLe cur left.domain left.startblock
  if found = false then throw .efscorrupted else
  let cur := refcountUpdate cur
    { left with blockcount := add32 left.blockcount cleft.blockcount }
  pure (cur, add32 agbno cleft.blockcount, sub32 aglen cleft.blockcount)

def refcountMergeRightExtent (g : Group) (cur : RefcCur) (right cright : RefcountIrec)
    (aglen : Nat) : RefcM (RefcCur × Nat) := do
  let cur ← refcountDeleteReal g cur cright
  let (cur, found) := refcountLookupLe cur right.domain right.startblock
  if found = false then throw .efscorrupted else
  let cur := refcountUpdate cur { right with
    startblock := sub32 right.startblock cright.blockcount
    blockcount := add32 right.blockcount cright.blockcount }
  pure (cur, sub32 aglen cright.blockcount)

/-- Find the left extent and the one after it, which is synthesized for a gap. -/
def refcountFindLeftExtents (g : Group) (cur : RefcCur) (domain : RefcDomain)
    (agbno aglen : Nat) : RefcM (RefcCur × RefcountIrec × RefcountIrec) := do
  let (cur, found) := refcountLookupLe cur domain (sub32 agbno 1)
  if found = false then pure (cur, nullIrec, nullIrec) else
  let left ← refcountGetRecFound g cur
  if left.domain ≠ domain then pure (cur, nullIrec, nullIrec) else
  if refcNext left ≠ agbno then pure (cur, nullIrec, nullIrec) else
  let (cur, found) := cur.increment
  if found = false then pure (cur, left, ⟨agbno, aglen, 1, domain⟩) else
  let tmp ← refcountGetRecFound g cur
  if tmp.domain ≠ domain then pure (cur, left, ⟨agbno, aglen, 1, domain⟩) else
  if tmp.startblock = agbno then pure (cur, left, tmp) else
  pure (cur, left, ⟨agbno, min aglen (sub32 tmp.startblock agbno), 1, domain⟩)

/-- Find the right extent and the one before it, which is synthesized for a gap. -/
def refcountFindRightExtents (g : Group) (cur : RefcCur) (domain : RefcDomain)
    (agbno aglen : Nat) : RefcM (RefcCur × RefcountIrec × RefcountIrec) := do
  let (cur, found) := refcountLookupGe cur domain (add32 agbno aglen)
  if found = false then pure (cur, nullIrec, nullIrec) else
  let right ← refcountGetRecFound g cur
  if right.domain ≠ domain then pure (cur, nullIrec, nullIrec) else
  if right.startblock ≠ add32 agbno aglen then pure (cur, nullIrec, nullIrec) else
  let (cur, found) := cur.decrement
  if found = false then pure (cur, right, ⟨agbno, aglen, 1, domain⟩) else
  let tmp ← refcountGetRecFound g cur
  if tmp.domain ≠ domain then pure (cur, right, ⟨agbno, aglen, 1, domain⟩) else
  if refcNext tmp = add32 agbno aglen then pure (cur, right, tmp) else
  let start := max agbno (refcNext tmp)
  pure (cur, right, ⟨start, sub32 right.startblock start, 1, domain⟩)

/-- Once a record hits the maximum count, it is pinned forever. -/
def refcMergeRefcount (r : RefcountIrec) (adj : RefcAdjustOp) : Nat :=
  if r.refcount = refcRefcountMax then refcRefcountMax else adj.apply r.refcount

/-- Whether left, center and right become one record, and its length. -/
def refcWantMergeCenter (left cleft cright right : RefcountIrec) (cequal : Bool)
    (adj : RefcAdjustOp) : Option Nat :=
  if !refcValid left || !refcValid right || !refcValid cleft || !refcValid cright then none
  else if !cequal then none
  else if left.refcount ≠ refcMergeRefcount cleft adj then none
  else if right.refcount ≠ refcMergeRefcount cleft adj then none
  else
    let ulen := left.blockcount + add32 cleft.blockcount right.blockcount
    if refcLenMax ≤ ulen then none else some ulen

def refcWantMergeLeft (left cleft : RefcountIrec) (adj : RefcAdjustOp) : Bool :=
  refcValid left && refcValid cleft && decide (left.refcount = refcMergeRefcount cleft adj) &&
    decide (left.blockcount + cleft.blockcount < refcLenMax)

def refcWantMergeRight (cright right : RefcountIrec) (adj : RefcAdjustOp) : Bool :=
  refcValid right && refcValid cright && decide (right.refcount = refcMergeRefcount cright adj) &&
    decide (right.blockcount + cright.blockcount < refcLenMax)

structure MergeResult where
  cur : RefcCur
  agbno : Nat
  aglen : Nat
  shapeChanged : Bool
deriving Repr, DecidableEq

def refcountTryMergeRight (g : Group) (m : MergeResult) (cright right : RefcountIrec)
    (adj : RefcAdjustOp) : RefcM MergeResult :=
  if refcWantMergeRight cright right adj then do
    let (cur, aglen) ← refcountMergeRightExtent g m.cur right cright m.aglen
    pure ⟨cur, m.agbno, aglen, true⟩
  else pure m

/-- Merge what the searches on both sides found. -/
def refcountMergeFound (g : Group) (cur : RefcCur) (left cleft right cright : RefcountIrec)
    (agbno aglen : Nat) (adj : RefcAdjustOp) : RefcM MergeResult :=
  -- no left or right extent to merge
  if !refcValid left && !refcValid right then pure ⟨cur, agbno, aglen, false⟩ else
  let cequal := decide (cleft.startblock = cright.startblock) &&
    decide (cleft.blockcount = cright.blockcount)
  match refcWantMergeCenter left cleft cright right cequal adj with
  | some ulen => do
      let (cur, aglen) ← refcountMergeCenterExtents g cur left cleft ulen
      pure ⟨cur, agbno, aglen, true⟩
  | none =>
    if refcWantMergeLeft left cleft adj then do
      let (cur, agbno, aglen) ← refcountMergeLeftExtent g cur left cleft agbno aglen
      -- a single center record that went left cannot go right as well
      if cequal then pure ⟨cur, agbno, aglen, true⟩ else
      refcountTryMergeRight g ⟨cur, agbno, aglen, true⟩ cright right adj
    else refcountTryMergeRight g ⟨cur, agbno, aglen, false⟩ cright right adj

def refcountMergeExtents (g : Group) (cur : RefcCur) (domain : RefcDomain) (agbno aglen : Nat)
    (adj : RefcAdjustOp) : RefcM MergeResult := do
  let (cur, left, cleft) ← refcountFindLeftExtents g cur domain agbno aglen
  let (cur, right, cright) ← refcountFindRightExtents g cur domain agbno aglen
  refcountMergeFound g cur left cleft right cright agbno aglen adj

def refcountStillHaveSpace (space : Nat → Bool) (cur : RefcCur) : RefcCur × Bool :=
  ({ cur with asked := cur.asked + 1 }, if cur.nrOps = 0 then true else space cur.asked)

def xrefcFreeExtent (g : Group) (cur : RefcCur) (r : RefcountIrec) : RefcM RefcCur :=
  if verifyGbext g r.startblock r.blockcount then
    .ok { cur with freed := cur.freed ++ [(r.startblock, r.blockcount)] }
  else .error .efscorrupted

structure AdjustState where
  cur : RefcCur
  agbno : Nat
  aglen : Nat
deriving Repr, DecidableEq

def refcountFillHole (g : Group) (cur : RefcCur) (tmp : RefcountIrec) : RefcM RefcCur :=
  if tmp.refcount ≠ 0 then refcountInsert cur tmp else xrefcFreeExtent g cur tmp

/-- The hole in front of `ext`: cover it or free it. The flag: go on with `ext` itself. -/
def refcountAdjustHole (g : Group) (space : Nat → Bool) (st : AdjustState) (ext : RefcountIrec)
    (adj : RefcAdjustOp) : RefcM (AdjustState × Bool) := do
  if ext.startblock = st.agbno then pure (st, true) else
  let tmp : RefcountIrec :=
    ⟨st.agbno, min st.aglen (sub32 ext.startblock st.agbno), adj.apply 1, .shared⟩
  let cur := { st.cur with nrOps := st.cur.nrOps + 1 }
  let cur ← refcountFillHole g cur tmp
  let agbno := add32 st.agbno tmp.blockcount
  let aglen := sub32 st.aglen tmp.blockcount
  if aglen = 0 then pure (⟨cur, agbno, aglen⟩, false) else
  let (cur, more) := refcountStillHaveSpace space cur
  if more = false then pure (⟨cur, agbno, aglen⟩, false) else
  -- move the cursor to the start of ext
  pure (⟨(refcountLookupGe cur .shared agbno).1, agbno, aglen⟩, true)

def refcountAdjustRec (g : Group) (st : AdjustState) (ext : RefcountIrec) (adj : RefcAdjustOp) :
    RefcM AdjustState := do
  if ext.blockcount = 0 ∨ st.aglen < ext.blockcount then throw .efscorrupted else
  let agbno := add32 st.agbno ext.blockcount
  let aglen := sub32 st.aglen ext.blockcount
  if ext.refcount = refcRefcountMax then pure ⟨st.cur.increment.1, agbno, aglen⟩ else
  let ext := { ext with refcount := adj.apply ext.refcount }
  let cur := { st.cur with nrOps := st.cur.nrOps + 1 }
  if 1 < ext.refcount then pure ⟨(refcountUpdate cur ext).increment.1, agbno, aglen⟩ else
  if ext.refcount = 1 then do
    let cur ← refcountDelete g cur
    pure ⟨cur, agbno, aglen⟩
  else do
    let cur ← xrefcFreeExtent g cur ext
    pure ⟨cur.increment.1, agbno, aglen⟩

/-- The loop over the middle extents. Every pass consumes at least one block. -/
def refcountAdjustLoop (g : Group) (space : Nat → Bool) (adj : RefcAdjustOp) :
    Nat → AdjustState → RefcM AdjustState
  | 0, st => pure st
  | fuel + 1, st => do
      if st.aglen = 0 then pure st else
      let (cur, more) := refcountStillHaveSpace space st.cur
      if more = false then pure { st with cur := cur } else
      let ext := match ← refcountGetRec g cur with
        | some r => if r.domain = .shared then r else ⟨g.maxBlocks, 0, 0, .shared⟩
        | none => ⟨g.maxBlocks, 0, 0, .shared⟩
      let (st, goOn) ← refcountAdjustHole g space { st with cur := cur } ext adj
      if goOn = false then pure st else
      let st ← refcountAdjustRec g st ext adj
      refcountAdjustLoop g space adj fuel st

def refcountAdjustExtents (g : Group) (space : Nat → Bool) (cur : RefcCur) (agbno aglen : Nat)
    (adj : RefcAdjustOp) : RefcM AdjustState :=
  if aglen = 0 then pure ⟨cur, agbno, aglen⟩
  else
    let (cur, _) := refcountLookupGe cur .shared agbno
    refcountAdjustLoop g space adj aglen ⟨cur, agbno, aglen⟩

/-- Adjust the counts of a range of blocks. The result holds what is left of it. -/
def refcountAdjust (g : Group) (space : Nat → Bool) (cur : RefcCur) (agbno aglen : Nat)
    (adj : RefcAdjustOp) : RefcM AdjustState := do
  let (cur, changed1) ← refcountSplitExtent g cur .shared agbno
  let (cur, changed2) ← refcountSplitExtent g cur .shared (add32 agbno aglen)
  let m ← refcountMergeExtents g cur .shared agbno aglen adj
  let cur := if changed1 || changed2 || m.shapeChanged then
      { m.cur with shapeChanges := m.cur.shapeChanges + 1 }
    else m.cur
  refcountAdjustExtents g space cur m.agbno m.aglen adj

/-- Adjust the records of copy-on-write allocations, which have a refcount of one. -/
def refcountAdjustCowExtents (g : Group) (cur : RefcCur) (agbno aglen : Nat)
    (adj : RefcAdjustOp) : RefcM RefcCur := do
  if aglen = 0 then pure cur else
  let (cur, _) := refcountLookupGe cur .cow agbno
  let ext ← match ← refcountGetRec g cur with
    | some r => if r.domain = .cow then pure r else throw .efscorrupted
    | none => pure ⟨g.maxBlocks, 0, 0, .cow⟩
  match adj with
  | .cowAlloc =>
    -- adding a reservation, there should be nothing here
    if ext.startblock < add32 agbno aglen then throw .efscorrupted else
    refcountInsert cur ⟨agbno, aglen, 1, .cow⟩
  | .cowFree =>
    -- removing a reservation, there should be one extent
    if ext.startblock ≠ agbno then throw .efscorrupted else
    if ext.blockcount ≠ aglen then throw .efscorrupted else
    if ext.refcount ≠ 1 then throw .efscorrupted else
    refcountDelete g cur
  | .increase => pure cur
  | .decrease => pure cur

def refcountAdjustCow (g : Group) (cur : RefcCur) (agbno aglen : Nat) (adj : RefcAdjustOp) :
    RefcM RefcCur := do
  let (cur, _) ← refcountSplitExtent g cur .cow agbno
  let (cur, _) ← refcountSplitExtent g cur .cow (add32 agbno aglen)
  let m ← refcountMergeExtents g cur .cow agbno aglen adj
  refcountAdjustCowExtents g m.cur m.agbno m.aglen adj

/-- The kinds of deferred refcount updates. -/
inductive RefcountIntentType where
  | increase
  | decrease
  | allocCow
  | freeCow
deriving Repr, DecidableEq

/-- A deferred refcount update, with its start as a block of the group. -/
structure RefcountIntent where
  type : RefcountIntentType
  startblock : Nat
  blockcount : Nat
deriving Repr, DecidableEq

/-- Set up the continuation of an update, if it does not run off the end of the group. -/
def refcountContinueOp (g : Group) (ri : RefcountIntent) (newAgbno : Nat) : RefcM RefcountIntent :=
  if verifyGbext g newAgbno ri.blockcount then .ok { ri with startblock := newAgbno }
  else .error .efscorrupted

/-- Process a deferred update, as far as the log space of the transaction reaches. -/
def refcountFinishOne (g : Group) (space : Nat → Bool) (cur : RefcCur) (ri : RefcountIntent) :
    RefcM (RefcCur × RefcountIntent) := do
  match ri.type with
  | .increase => finishAdjust .increase
  | .decrease => finishAdjust .decrease
  | .allocCow =>
    let cur ← refcountAdjustCow g cur ri.startblock ri.blockcount .cowAlloc
    pure (cur, { ri with blockcount := 0 })
  | .freeCow =>
    let cur ← refcountAdjustCow g cur ri.startblock ri.blockcount .cowFree
    pure (cur, { ri with blockcount := 0 })
where
  finishAdjust (adj : RefcAdjustOp) : RefcM (RefcCur × RefcountIntent) := do
    let st ← refcountAdjust g space cur ri.startblock ri.blockcount adj
    let ri := { ri with blockcount := st.aglen }
    if 0 < ri.blockcount then
      let ri ← refcountContinueOp g ri st.agbno
      pure (st.cur, ri)
    else pure (st.cur, ri)

/-- The cursor of a new transaction. What has been queued for freeing stays queued. -/
def RefcCur.fresh (cur : RefcCur) : RefcCur := ⟨⟨cur.recs, 0⟩, 0, 0, 0, cur.freed⟩

def refcountFinish (g : Group) : Nat → (Nat → Nat → Bool) → RefcCur → RefcountIntent →
    RefcM (RefcCur × RefcountIntent)
  | 0, _, cur, ri => pure (cur, ri)
  | calls + 1, space, cur, ri => do
      let (cur, ri) ← refcountFinishOne g (space 0) cur ri
      if ri.blockcount = 0 then pure (cur, ri) else
      refcountFinish g calls (fun i => space (i + 1)) cur.fresh ri

end Xfs
