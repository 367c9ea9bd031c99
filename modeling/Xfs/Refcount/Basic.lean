import Xfs.Basic
import Xfs.Lib.RecordCursor

/-! Reference count records, the cursor of a refcount btree and the record
primitives of `xfs_refcount.c`. The btree is its key-ordered record list. -/
namespace Xfs

open RecordCursor

inductive RefcDomain where
  | shared
  | cow
deriving Repr, DecidableEq

structure RefcountIrec where
  startblock : Nat
  blockcount : Nat
  refcount : Nat
  domain : RefcDomain
deriving Repr, DecidableEq

def refcLenMax : Nat := 2 ^ 32 - 1

def refcRefcountMax : Nat := 2 ^ 32 - 1

/-- The start block with the domain in bit 31, as the btree stores and
compares it. -/
def refcountEncodeStartblock (startblock : Nat) (domain : RefcDomain) : Nat :=
  match domain with
  | .shared => startblock % 2 ^ 31
  | .cow => startblock % 2 ^ 31 + 2 ^ 31

def refcKey (r : RefcountIrec) : Nat :=
  refcountEncodeStartblock r.startblock r.domain

def refcountCheckDomain (r : RefcountIrec) : Bool :=
  match r.domain with
  | .cow => decide (r.refcount = 1)
  | .shared => decide (2 ≤ r.refcount)

/-- The checks made on every record that is read from the btree. -/
def refcountCheckIrec (g : Group) (r : RefcountIrec) : Bool :=
  decide (r.blockcount ≠ 0) && decide (r.blockcount ≤ refcLenMax) &&
    refcountCheckDomain r && verifyGbext g r.startblock r.blockcount &&
    decide (r.refcount ≠ 0) && decide (r.refcount ≤ refcRefcountMax)

structure RefcCur where
  bt : Cursor RefcountIrec
  nrOps : Nat
  shapeChanges : Nat
  asked : Nat
  freed : List (Nat × Nat)
deriving Repr, DecidableEq

namespace RefcCur

def recs (cur : RefcCur) : List RefcountIrec := cur.bt.recs

def setBt (cur : RefcCur) (bt : Cursor RefcountIrec) : RefcCur := { cur with bt := bt }

def increment (cur : RefcCur) : RefcCur × Bool :=
  let (bt, stat) := cur.bt.increment
  (cur.setBt bt, stat)

def decrement (cur : RefcCur) : RefcCur × Bool :=
  let (bt, stat) := cur.bt.decrement
  (cur.setBt bt, stat)

end RefcCur

abbrev RefcM := Except Errno

def refcountLookupLe (cur : RefcCur) (domain : RefcDomain) (bno : Nat) : RefcCur × Bool :=
  let (bt, stat) := cur.bt.lookupLE refcKey (refcountEncodeStartblock bno domain)
  (cur.setBt bt, stat)

def refcountLookupGe (cur : RefcCur) (domain : RefcDomain) (bno : Nat) : RefcCur × Bool :=
  let (bt, stat) := cur.bt.lookupGE refcKey (refcountEncodeStartblock bno domain)
  (cur.setBt bt, stat)

def refcountGetRec (g : Group) (cur : RefcCur) : RefcM (Option RefcountIrec) :=
  match cur.bt.rec? with
  | none => .ok none
  | some r => if refcountCheckIrec g r then .ok (some r) else .error .efscorrupted

def refcountGetRecFound (g : Group) (cur : RefcCur) : RefcM RefcountIrec := do
  match ← refcountGetRec g cur with
  | some r => pure r
  | none => throw .efscorrupted

def refcountUpdate (cur : RefcCur) (r : RefcountIrec) : RefcCur :=
  cur.setBt (cur.bt.update r)

def refcountInsert (cur : RefcCur) (r : RefcountIrec) : RefcM RefcCur :=
  let (bt, stat) := cur.bt.insert r
  if stat then .ok (cur.setBt bt) else .error .efscorrupted

/-- Delete under the cursor and reposition where the record could be
inserted again. -/
def refcountDelete (g : Group) (cur : RefcCur) : RefcM RefcCur := do
  let r ← refcountGetRecFound g cur
  let (bt, stat) := cur.bt.delete
  if stat then pure (refcountLookupGe (cur.setBt bt) r.domain r.startblock).1
  else throw .efscorrupted

def refcNext (r : RefcountIrec) : Nat := add32 r.startblock r.blockcount

end Xfs
