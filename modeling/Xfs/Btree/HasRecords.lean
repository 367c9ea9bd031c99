import Xfs.Alloc.FreeSpace
import Xfs.Btree.Query
import Xfs.Lib.Sweep
import Xfs.Refcount.Basic
import Xfs.Rmap.Basic

/-! Scan part of the keyspace of a btree and tell if it maps to no records, is fully mapped to records,
or is partially mapped. -/
namespace Xfs

abbrev RecPacking := Sweep.Packing

inductive KeyContig where
  | gap
  | contiguous
  | overlap
deriving DecidableEq, Repr

/-- Whether two key fields are contiguous or overlap, or there is a gap between them. -/
def xbtreeKeyContig (x y : Nat) : KeyContig :=
  let x := (x + 1) % 2 ^ 64
  if x < y then .gap else if x = y then .contiguous else .overlap

structure ContigKeyOps (R K : Type) extends BtreeKeyOps R K where
  blockOf : K → Nat
  zeroKey : K

structure HasRecords (K : Type) where
  startKey : K
  endKey : K
  /-- Highest record key we've seen so far. -/
  highKey : K
  outcome : RecPacking

section

variable {R K : Type} [LinearOrder K]

/-- Look for a hole before the record. The first one has to overlap the range's start. -/
def hasRecordsCheck (ops : ContigKeyOps R K) (info : HasRecords K) (recKey : K) :
    EStateM Errno (HasRecords K) Unit :=
  if info.outcome = .empty then do
    set { info with outcome := .sparse }
    if ops.blockOf info.startKey < ops.blockOf recKey then throw .ecanceled else pure ()
  else
    let keyContig := xbtreeKeyContig (ops.blockOf info.highKey) (ops.blockOf recKey)
    if keyContig = .overlap ∧ ops.overlapping = false then throw .efscorrupted
    else if keyContig = .gap then throw .ecanceled
    else pure ()

def btreeHasRecordsHelper (ops : ContigKeyOps R K) (r : R) : EStateM Errno (HasRecords K) Unit := do
  hasRecordsCheck ops (← get) (ops.initKeyFromRec r)
  modify fun info =>
    if ops.blockOf info.highKey < ops.blockOf (ops.initHighKeyFromRec r) then
      { info with highKey := ops.initHighKeyFromRec r }
    else info

def btreeHasRecordsEnd (ops : ContigKeyOps R K) (info : HasRecords K) : RecPacking :=
  if info.outcome = .empty then .empty
  else if ops.blockOf info.highKey < ops.blockOf info.endKey then info.outcome
  else .full

def btreeHasRecords (store : BtreeStore R K) (ops : ContigKeyOps R K) (fuel : Nat) (cur : BtreeCur)
    (lowKey highKey : K) : Except Errno RecPacking :=
  match (btreeQueryRange store ops.toBtreeKeyOps fuel cur lowKey highKey (btreeHasRecordsHelper ops)).run
      ⟨lowKey, highKey, ops.zeroKey, .empty⟩ with
  | .error .ecanceled info => .ok info.outcome
  | .error e _ => .error e
  | .ok _ info => .ok (btreeHasRecordsEnd ops info)

end

def bnobtKeyOps : ContigKeyOps FreeRec Nat where
  initKeyFromRec := bnoKey
  initHighKeyFromRec r := add32 r.bno (sub32 r.len 1)
  overlapping := false
  stale := ⟨0, 0⟩
  blockOf := id
  zeroKey := 0

def allocHasRecords (store : BtreeStore FreeRec Nat) (fuel : Nat) (cur : BtreeCur) (bno len : Nat) :
    Except Errno RecPacking :=
  btreeHasRecords store bnobtKeyOps fuel cur bno (sub32 (add32 bno len) 1)

def refcountbtKeyOps : ContigKeyOps RefcountIrec Nat where
  initKeyFromRec := refcKey
  initHighKeyFromRec r := add32 (refcKey r) (sub32 r.blockcount 1)
  overlapping := false
  stale := ⟨0, 0, 0, .shared⟩
  blockOf := id
  zeroKey := 0

def refcountHasRecords (store : BtreeStore RefcountIrec Nat) (fuel : Nat) (cur : BtreeCur)
    (domain : RefcDomain) (bno len : Nat) : Except Errno RecPacking :=
  btreeHasRecords store refcountbtKeyOps fuel cur (refcountEncodeStartblock bno domain)
    (refcountEncodeStartblock (sub32 (add32 bno len) 1) domain)

def rmapbtKeyOps : ContigKeyOps RmapIrec RmapKey where
  initKeyFromRec := rmapKey
  initHighKeyFromRec := rmapHighKey
  overlapping := true
  stale := ⟨0, 0, 0, 0, ⟨false, false, false⟩⟩
  blockOf key := (ofLex key).1
  zeroKey := rmapKeyOf 0 0 0 ⟨false, false, false⟩

def rmapHasRecords (store : BtreeStore RmapIrec RmapKey) (fuel : Nat) (cur : BtreeCur) (bno len : Nat) :
    Except Errno RecPacking :=
  btreeHasRecords store rmapbtKeyOps fuel cur (rmapKeyOf bno 0 0 ⟨false, false, false⟩)
    (rmapKeyOf (sub32 (add32 bno len) 1) (2 ^ 64 - 1) (2 ^ 64 - 1) ⟨true, true, true⟩)

end Xfs
