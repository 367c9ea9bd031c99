import Xfs.Btree.Cursor

/-! Queries for all records that overlap a range of keys. The callback may change a state of its own,
and an error of it ends the query. -/
namespace Xfs

section

variable {R K σ : Type} [LinearOrder K]

/-- Handle the record under the cursor. The answer tells whether the query goes on. -/
def btreeSimpleQueryRec (ops : BtreeKeyOps R K) (lowKey highKey : K) (fn : R → EStateM Errno σ Unit)
    (firstrec : Bool) (r : R) : EStateM Errno σ Bool :=
  -- Skip if low_key > high_key(rec).
  if firstrec ∧ ops.initHighKeyFromRec r < lowKey then pure true
  -- Stop if low_key(rec) > high_key.
  else if highKey < ops.initKeyFromRec r then pure false
  else do
    fn r
    pure true

/-- Visit the records from the cursor on. -/
def btreeSimpleQueryLoop (store : BtreeStore R K) (ops : BtreeKeyOps R K) (lowKey highKey : K)
    (fn : R → EStateM Errno σ Unit) : Nat → Bool → BtreeCur → EStateM Errno σ Unit
  | 0, _, _ => pure ()
  | fuel + 1, firstrec, cur => do
      match ← ofExcept (btreeGetRec store cur) with
      | none => pure ()
      | some r =>
        if ← btreeSimpleQueryRec ops lowKey highKey fn firstrec r then
          let (cur, stat) ← ofExcept (btreeIncrement store cur 0)
          if stat then btreeSimpleQueryLoop store ops lowKey highKey fn fuel false cur else pure ()
        else pure ()

def btreeSimpleQueryStart (store : BtreeStore R K) (ops : BtreeKeyOps R K) (cur : BtreeCur)
    (lowKey : K) : Except Errno (BtreeCur × Bool) := do
  let (cur, stat) ← btreeLookup store ops cur .le lowKey
  -- Nothing? See if there's anything to the right.
  if stat then pure (cur, stat) else btreeIncrement store cur 0

def btreeSimpleQueryRange (store : BtreeStore R K) (ops : BtreeKeyOps R K) (fuel : Nat)
    (cur : BtreeCur) (lowKey highKey : K) (fn : R → EStateM Errno σ Unit) : EStateM Errno σ Unit := do
  let (cur, stat) ← ofExcept (btreeSimpleQueryStart store ops cur lowKey)
  if stat then btreeSimpleQueryLoop store ops lowKey highKey fn fuel true cur else pure ()

inductive QueryMove (R : Type) where
  | popUp
  | next
  | call (r : R)
  | down (loc : BlockLoc)

/-- Decide on the record or the pointer under the cursor at the level. -/
def btreeOverlappedMove (store : BtreeStore R K) (ops : BtreeKeyOps R K) (lowKey highKey : K)
    (level : Nat) (cur : BtreeCur) : Except Errno (QueryMove R) := do
  let block ← btreeReadBufBlock store (cur.loc level)
  -- End of node, pop back towards the root.
  if block.numrecs < cur.ptr level then pure .popUp
  else if level = 0 then
    let r := (block.recs[cur.ptr level - 1]?).getD ops.stale
    if highKey < ops.initKeyFromRec r then pure .popUp
    else if lowKey ≤ ops.initHighKeyFromRec r then pure (.call r)
    else pure .next
  else
    let key := (block.keys[cur.ptr level - 1]?).getD ⟨ops.initKeyFromRec ops.stale, ⊥⟩
    if highKey < key.low then pure .popUp
    else if (lowKey : WithBot K) ≤ key.high then do
      let loc ← btreePtrAddr block (cur.ptr level)
      let _ ← btreeLookupGetBlock store cur (level - 1) loc
      pure (.down loc)
    else pure .next

def BtreeCur.nextPtr (cur : BtreeCur) (level : Nat) : BtreeCur :=
  cur.setPtr level (cur.ptr level + 1)

/-- Leave a block: the level above goes on with its next pointer. -/
def BtreeCur.popUp (cur : BtreeCur) (level : Nat) : BtreeCur :=
  if level < cur.nlevels - 1 then cur.nextPtr (level + 1) else cur

/-- Walk the tree from the place of the cursor at the level on. -/
def btreeOverlappedQueryLoop (store : BtreeStore R K) (ops : BtreeKeyOps R K) (lowKey highKey : K)
    (fn : R → EStateM Errno σ Unit) : Nat → Nat → BtreeCur → EStateM Errno σ Unit
  | 0, _, _ => pure ()
  | fuel + 1, level, cur =>
    if level < cur.nlevels then do
      match ← ofExcept (btreeOverlappedMove store ops lowKey highKey level cur) with
      | .popUp =>
        btreeOverlappedQueryLoop store ops lowKey highKey fn fuel (level + 1) (cur.popUp level)
      | .next => btreeOverlappedQueryLoop store ops lowKey highKey fn fuel level (cur.nextPtr level)
      | .call r => do
          fn r
          btreeOverlappedQueryLoop store ops lowKey highKey fn fuel level (cur.nextPtr level)
      | .down loc =>
        btreeOverlappedQueryLoop store ops lowKey highKey fn fuel (level - 1)
          ((cur.setbuf (level - 1) loc).setPtr (level - 1) 1)
    else pure ()

def btreeOverlappedQueryRange (store : BtreeStore R K) (ops : BtreeKeyOps R K) (fuel : Nat)
    (cur : BtreeCur) (lowKey highKey : K) (fn : R → EStateM Errno σ Unit) : EStateM Errno σ Unit := do
  let _ ← ofExcept (btreeLookupGetBlock store cur (cur.nlevels - 1) cur.root)
  btreeOverlappedQueryLoop store ops lowKey highKey fn fuel (cur.nlevels - 1)
    ((cur.setbuf (cur.nlevels - 1) cur.root).setPtr (cur.nlevels - 1) 1)

def btreeQueryRange (store : BtreeStore R K) (ops : BtreeKeyOps R K) (fuel : Nat) (cur : BtreeCur)
    (lowKey highKey : K) (fn : R → EStateM Errno σ Unit) : EStateM Errno σ Unit :=
  if ¬ lowKey ≤ highKey then throw .einval
  else if ops.overlapping then btreeOverlappedQueryRange store ops fuel cur lowKey highKey fn
  else btreeSimpleQueryRange store ops fuel cur lowKey highKey fn

end

end Xfs
