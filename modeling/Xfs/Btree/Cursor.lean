import Xfs.Lib.BinarySearch
import Xfs.Btree.Block

/-! The cursor of the generic btree: for every level the block it is in and the number of the record
or pointer there. -/
namespace Xfs

/-- One level of a cursor. Without a buffer it stands at the root in the inode. -/
structure BtreeLevel where
  loc : BlockLoc
  ptr : Nat

structure BtreeCur where
  nlevels : Nat
  root : BlockLoc
  inodeRooted : Bool
  levels : Nat → BtreeLevel

namespace BtreeCur

def loc (cur : BtreeCur) (level : Nat) : BlockLoc := (cur.levels level).loc

def ptr (cur : BtreeCur) (level : Nat) : Nat := (cur.levels level).ptr

def setLevel (cur : BtreeCur) (level : Nat) (l : BtreeLevel) : BtreeCur :=
  { cur with levels := fun lev => if lev = level then l else cur.levels lev }

def setbuf (cur : BtreeCur) (level : Nat) (loc : BlockLoc) : BtreeCur :=
  cur.setLevel level ⟨loc, cur.ptr level⟩

def setPtr (cur : BtreeCur) (level ptr : Nat) : BtreeCur :=
  cur.setLevel level ⟨cur.loc level, ptr % 2 ^ 16⟩

end BtreeCur

section

variable {R K : Type}

def btreeReadBufBlock (store : BtreeStore R K) (loc : BlockLoc) : Except Errno (BtreeBlock R K) :=
  match store.get loc with
  | some block => .ok block
  | none => .error .eio

def btreePtrAddr (block : BtreeBlock R K) (ptr : Nat) : Except Errno BlockLoc :=
  match block.ptrs[ptr - 1]? with
  | some p => .ok (.buf p)
  | none => .error .efscorrupted

/-- March up and increment the pointers, until one stays in its block. -/
def btreeIncrementUp (store : BtreeStore R K) : Nat → Nat → BtreeCur → Except Errno (BtreeCur × Nat)
  | 0, lev, cur => pure (cur, lev)
  | n + 1, lev, cur => do
      let block ← btreeReadBufBlock store (cur.loc lev)
      let cur := cur.setPtr lev (cur.ptr lev + 1)
      if cur.ptr lev ≤ block.numrecs then pure (cur, lev) else btreeIncrementUp store n (lev + 1) cur

def btreeDecrementUp : Nat → Nat → BtreeCur → BtreeCur × Nat
  | 0, lev, cur => (cur, lev)
  | n + 1, lev, cur =>
    let cur := cur.setPtr lev (cur.ptr lev + (2 ^ 16 - 1))
    if 0 < cur.ptr lev then (cur, lev) else btreeDecrementUp n (lev + 1) cur

/-- Walk `n` levels down to `level`, at the first or the last number of each block. -/
def btreeWalkDown (store : BtreeStore R K) (start : BtreeBlock R K → Nat) (level : Nat) :
    Nat → BtreeCur → Except Errno BtreeCur
  | 0, cur => pure cur
  | n + 1, cur => do
      let block ← btreeReadBufBlock store (cur.loc (level + n + 1))
      let loc ← btreePtrAddr block (cur.ptr (level + n + 1))
      let child ← btreeReadBufBlock store loc
      btreeWalkDown store start level n ((cur.setbuf (level + n) loc).setPtr (level + n) (start child))

/-- The second part of a step: march off the root of the tree, or walk down again. -/
def btreeStepDown (store : BtreeStore R K) (start : BtreeBlock R K → Nat) (level lev : Nat)
    (cur : BtreeCur) : Except Errno (BtreeCur × Bool) :=
  if lev = cur.nlevels then
    if cur.inodeRooted then pure (cur, false) else .error .efscorrupted
  else do
    let cur ← btreeWalkDown store start level (lev - level) cur
    pure (cur, true)

def btreeIncrement (store : BtreeStore R K) (cur : BtreeCur) (level : Nat) :
    Except Errno (BtreeCur × Bool) := do
  let block ← btreeReadBufBlock store (cur.loc level)
  let cur := cur.setPtr level (cur.ptr level + 1)
  if cur.ptr level ≤ block.numrecs then pure (cur, true)
  else if block.rightsib = none then pure (cur, false)
  else do
    let (cur, lev) ← btreeIncrementUp store (cur.nlevels - (level + 1)) (level + 1) cur
    btreeStepDown store (fun _ => 1) level lev cur

def btreeDecrement (store : BtreeStore R K) (cur : BtreeCur) (level : Nat) :
    Except Errno (BtreeCur × Bool) :=
  let cur := cur.setPtr level (cur.ptr level + (2 ^ 16 - 1))
  if 0 < cur.ptr level then pure (cur, true)
  else do
    let block ← btreeReadBufBlock store (cur.loc level)
    if block.leftsib = none then pure (cur, false)
    else
      let (cur, lev) := btreeDecrementUp (cur.nlevels - (level + 1)) (level + 1) cur
      btreeStepDown store BtreeBlock.numrecs level lev cur

def btreeGetRec (store : BtreeStore R K) (cur : BtreeCur) : Except Errno (Option R) := do
  let block ← btreeReadBufBlock store (cur.loc 0)
  if block.numrecs < cur.ptr 0 ∨ cur.ptr 0 = 0 then pure none else pure block.recs[cur.ptr 0 - 1]?

end

inductive LookupDir where
  | le
  | eq
  | ge
deriving DecidableEq, Repr

section

variable {R K : Type} [LinearOrder K]

def cmpKeyWithCur (k search : K) : Ordering :=
  if k < search then .lt else if search < k then .gt else .eq

/-- The block at `loc`. The root in the inode and a buffer already held are not checked. -/
def btreeLookupGetBlock (store : BtreeStore R K) (cur : BtreeCur) (level : Nat) (loc : BlockLoc) :
    Except Errno (BtreeBlock R K) := do
  let block ← btreeReadBufBlock store loc
  if loc = .iroot ∨ cur.loc level = loc then pure block
  else if block.level ≠ level then .error .efscorrupted
  else if level ≠ 0 ∧ block.numrecs = 0 then .error .efscorrupted
  else pure block

/-- The key with the given number. In a leaf it is made up from the record. -/
def lookupGetSearchKey (ops : BtreeKeyOps R K) (level keyno : Nat) (block : BtreeBlock R K) : K :=
  if level = 0 then ops.initKeyFromRec (block.recs[keyno - 1]?.getD ops.stale)
  else (block.keys[keyno - 1]?.map BtreeKey.low).getD (ops.initKeyFromRec ops.stale)

/-- The empty leaf of an empty tree, or the number probed last with its comparison. -/
inductive LookupEnd (R K : Type) where
  | empty (cur : BtreeCur)
  | found (cur : BtreeCur) (block : BtreeBlock R K) (keyno : Nat) (cmp : Ordering)

/-- Search a block. After a match at a higher level it is the first entry. -/
def btreeLookupBlock (ops : BtreeKeyOps R K) (k : K) (level : Nat) (block : BtreeBlock R K)
    (cmp : Ordering) : Nat × Ordering :=
  if cmp = .eq then (1, .eq)
  else
    BinarySearch.search (fun i => cmpKeyWithCur (lookupGetSearchKey ops level i block) k)
      block.numrecs 1 block.numrecs 0 cmp

/-- The pointer to follow: the previous one if the search moved left and there is one. -/
def btreeLookupKeyno (keyno : Nat) (cmp : Ordering) : Nat :=
  if cmp = .gt then max (keyno - 1) 1 else keyno

def btreeLookupLevel (store : BtreeStore R K) (ops : BtreeKeyOps R K) (k : K) (level : Nat)
    (loc : BlockLoc) (cmp : Ordering) (cur : BtreeCur) : Except Errno (LookupEnd R K) := do
  let block ← btreeLookupGetBlock store cur level loc
  let cur := cur.setbuf level loc
  if cmp ≠ .eq ∧ block.numrecs = 0 then
    if level ≠ 0 ∨ cur.nlevels ≠ 1 then .error .efscorrupted else pure (.empty cur)
  else
    let (keyno, cmp) := btreeLookupBlock ops k level block cmp
    pure (.found cur block keyno cmp)

def btreeLookupLevels (store : BtreeStore R K) (ops : BtreeKeyOps R K) (k : K) :
    Nat → BlockLoc → Ordering → BtreeCur → Except Errno (LookupEnd R K)
  | 0, loc, cmp, cur => btreeLookupLevel store ops k 0 loc cmp cur
  | level + 1, loc, cmp, cur => do
      match ← btreeLookupLevel store ops k (level + 1) loc cmp cur with
      | .empty cur => pure (.empty cur)
      | .found cur block keyno cmp => do
          let keyno := btreeLookupKeyno keyno cmp
          let loc ← btreePtrAddr block keyno
          btreeLookupLevels store ops k level loc cmp (cur.setPtr (level + 1) keyno)

def btreeLookupAdjust (store : BtreeStore R K) (dir : LookupDir) (cur : BtreeCur)
    (block : BtreeBlock R K) (keyno : Nat) (cmp : Ordering) : Except Errno (BtreeCur × Bool) :=
  if dir ≠ .le ∧ cmp = .lt ∧ dir = .ge ∧ block.numrecs < keyno + 1 ∧ block.rightsib ≠ none then do
    -- a search to the right went off the end of the block, and it's not the last block
    let (cur, stat) ← btreeIncrement store (cur.setPtr 0 (keyno + 1)) 0
    if stat then pure (cur, true) else .error .efscorrupted
  else
    let keyno :=
      if dir ≠ .le ∧ cmp = .lt then keyno + 1 else if dir = .le ∧ cmp = .gt then keyno - 1 else keyno
    let cur := cur.setPtr 0 keyno
    if keyno = 0 ∨ block.numrecs < keyno then pure (cur, false)
    else pure (cur, decide (dir ≠ .eq ∨ cmp = .eq))

/-- Lookup the record. The cursor is made to point to it, based on the direction. -/
def btreeLookup (store : BtreeStore R K) (ops : BtreeKeyOps R K) (cur : BtreeCur) (dir : LookupDir)
    (k : K) : Except Errno (BtreeCur × Bool) :=
  if cur.nlevels = 0 then .error .efscorrupted
  else do
    match ← btreeLookupLevels store ops k (cur.nlevels - 1) cur.root .gt cur with
    | .empty cur => pure (cur.setPtr 0 (if dir = .le then 0 else 1), false)
    | .found cur block keyno cmp => btreeLookupAdjust store dir cur block keyno cmp

end

end Xfs
