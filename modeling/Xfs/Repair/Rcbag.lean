import Xfs.Lib.SplitCursor
import Xfs.Rmap.Basic

/-! The refcount bag of `repair/rcbag.c`: the reverse mappings over the current block, in a btree
where equal mappings of one inode share a record with a count. Loops take the number of rounds they
may run. -/
namespace Xfs

open RecordCursor

/-- `doError` ends the program with a message, `outOfFuel` is a loop out of rounds. -/
inductive RepairError where
  | errno (e : Errno)
  | doError (message : String)
  | outOfFuel
deriving Repr, DecidableEq

abbrev RepairM := Except RepairError

def nullAgblock : Nat := 2 ^ 32 - 1

structure RcbagRec where
  startblock : Nat
  blockcount : Nat
  ino : Nat
  refcount : Nat
deriving Repr, DecidableEq

abbrev RcbagKey := Nat ×ₗ Nat ×ₗ Nat

def rcbagKey (x : RcbagRec) : RcbagKey := toLex (x.startblock, toLex (x.blockcount, x.ino))

def RmapIrec.bagKey (r : RmapIrec) : RcbagKey :=
  toLex (r.startblock, toLex (r.blockcount, r.owner))

structure Rcbag where
  recs : List RcbagRec
  nrItems : Nat
deriving Repr, DecidableEq

def gotoLeftEdge {R : Type} (recs : List R) : Cursor R := ⟨recs, 0⟩

def rcbagAdd (bag : Rcbag) (rmap : RmapIrec) : RepairM Rcbag :=
  let (cur, has) := (gotoLeftEdge bag.recs).lookupEQ rcbagKey rmap.bagKey
  if has then
    match cur.rec? with
    | none => .error (.doError "reading refcount bag records")
    | some bagrec =>
      .ok ⟨(cur.update { bagrec with refcount := bagrec.refcount + 1 }).recs, bag.nrItems + 1⟩
  else
    match cur.insert ⟨rmap.startblock, rmap.blockcount, rmap.owner, 1⟩ with
    | (_, false) => .error (.doError "adding refcount bag record")
    | (cur, true) => .ok ⟨cur.recs, bag.nrItems + 1⟩

def rcbagRecNextBno (x : RcbagRec) : Nat := add32 x.startblock x.blockcount

def rcbagNextEdgeLoop : Nat → Cursor RcbagRec → Nat → RepairM Nat
  | 0, _, _ => .error .outOfFuel
  | fuel + 1, cur, nextBno =>
    let (cur, has) := cur.increment
    if has = false then .ok nextBno else
    match cur.rec? with
    | none => .error (.doError "refcount bag btree record disappeared?")
    | some bagrec => rcbagNextEdgeLoop fuel cur (min nextBno (rcbagRecNextBno bagrec))

def rcbagNextEdge (fuel : Nat) (bag : Rcbag) (nextRmap : Option RmapIrec) : RepairM Nat := do
  let nextBno := nextRmap.elim nullAgblock RmapIrec.startblock
  let nextBno ← rcbagNextEdgeLoop fuel (gotoLeftEdge bag.recs) nextBno
  if nextBno = nullAgblock then .error (.doError "next refcount bag edge not found?")
  else pure nextBno

def rcbagRemoveLoop (nextBno : Nat) : Nat → Cursor RcbagRec → Nat → RepairM Rcbag
  | 0, _, _ => .error .outOfFuel
  | fuel + 1, cur, nrItems =>
    let (cur, has) := cur.decrement
    if has = false then .ok ⟨cur.recs, nrItems⟩ else
    match cur.rec? with
    | none => .error (.doError "refcount bag btree record disappeared?")
    | some bagrec =>
      if rcbagRecNextBno bagrec ≠ nextBno then rcbagRemoveLoop nextBno fuel cur nrItems else
      match cur.delete with
      | (_, false) => .error (.doError "couldn't delete refcount bag record?")
      | (cur, true) => rcbagRemoveLoop nextBno fuel cur (nrItems - bagrec.refcount)

/-- Pop all records that end at `nextBno`, walking back from behind the last one. -/
def rcbagRemoveEndingAt (fuel : Nat) (bag : Rcbag) (nextBno : Nat) : RepairM Rcbag :=
  let greatest : RcbagKey := toLex (2 ^ 32 - 1, toLex (2 ^ 32 - 1, 2 ^ 64 - 1))
  rcbagRemoveLoop nextBno fuel ((gotoLeftEdge bag.recs).lookupGE rcbagKey greatest).1 bag.nrItems

structure RcbagIter where
  cur : Cursor RcbagRec
  ino : Nat

/-- Step to the next record of an inode other than the last one. -/
def rcbagInoIterLoop : Nat → RcbagIter → RepairM (Option RcbagIter)
  | 0, _ => .error .outOfFuel
  | fuel + 1, iter =>
    let (cur, has) := iter.cur.increment
    if has = false then .ok none else
    match cur.rec? with
    | none => .error (.doError "refcount bag btree record disappeared?")
    | some bagrec =>
      if iter.ino = bagrec.ino then rcbagInoIterLoop fuel ⟨cur, iter.ino⟩
      else .ok (some ⟨cur, bagrec.ino⟩)

def rcbagInoIter (fuel : Nat) (bag : Rcbag) (iter : RcbagIter) : RepairM (Option RcbagIter) :=
  if bag.nrItems < 2 then .ok none else rcbagInoIterLoop fuel iter

abbrev ReflinkFlags := Nat → Bool

def setInodeIsRl (flags : ReflinkFlags) (ino : Nat) : ReflinkFlags :=
  fun i => flags i || decide (i = ino)

def markReflinkLoop (bag : Rcbag) : Nat → RcbagIter → ReflinkFlags → RepairM ReflinkFlags
  | 0, _, _ => .error .outOfFuel
  | fuel + 1, iter, flags => do
      match ← rcbagInoIter (fuel + 1) bag iter with
      | none => pure flags
      | some iter => markReflinkLoop bag fuel iter (setInodeIsRl flags iter.ino)

def markReflinkInodes (fuel : Nat) (bag : Rcbag) (flags : ReflinkFlags) : RepairM ReflinkFlags :=
  markReflinkLoop bag fuel ⟨gotoLeftEdge bag.recs, 0⟩ flags

end Xfs
