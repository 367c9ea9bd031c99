import Xfs.Btree.Block
import Xfs.Btree.BloadGeometry

/-! Bulk loading of a staged btree: blocks are claimed from the caller's
reservation and filled level by level, from the leaves up to the root. -/
namespace Xfs

structure BloadCtx (R K : Type) where
  geom : BtreeGeom
  keys : BtreeKeyOps R K
  getRecords : Nat → Nat → List R → Except Errno (List R × List R)

/-- `reserved` are the blocks left for `claim_block`, `written` the buffers submitted. -/
structure BloadState (R K : Type) where
  store : BtreeStore R K
  stream : List R
  reserved : List Nat
  childPtr : Option Nat := none
  ptr : Option Nat := none
  bp : Option Nat := none
  block : Option BlockLoc := none
  buffers : List Nat := []
  written : List Nat := []
  nrDirty : Nat := 0

/-- The fake root that commits the new tree. -/
structure FakeRoot where
  root : Option Nat
  levels : Nat
  blocks : Nat
deriving DecidableEq

section Loader

variable {R K : Type}

def bufDelwriSubmit (st : BloadState R K) : BloadState R K :=
  { st with written := st.written ++ st.buffers, buffers := [] }

/-- Queue the current buffer, and flush the list at the dirty threshold. -/
def bloadDropBuf (bbl : Bload) (st : BloadState R K) : BloadState R K :=
  match st.bp with
  | none => st
  | some bp =>
    let nrDirty := (st.nrDirty + 1) % 2 ^ 16
    let st := { st with buffers := st.buffers ++ [bp], bp := none, nrDirty := nrDirty }
    if bbl.maxDirty = 0 ∨ nrDirty < bbl.maxDirty then st
    else { bufDelwriSubmit st with nrDirty := 0 }

def btreeInitBlock (level numrecs : Nat) : BtreeBlock R K :=
  ⟨level, numrecs % 2 ^ 16, none, none, [], [], []⟩

def BtreeStore.modify (store : BtreeStore R K) (loc : BlockLoc)
    (f : BtreeBlock R K → BtreeBlock R K) : BtreeStore R K :=
  match store.get loc with
  | some block => store.set loc (f block)
  | none => store

def linkBehind (store : BtreeStore R K) (left : Option BlockLoc) (newPtr : Nat) : BtreeStore R K :=
  match left with
  | some left => store.modify left fun b => { b with rightsib := some newPtr }
  | none => store

def btreeAtIroot (g : BtreeGeom) (nlevels level : Nat) : Bool :=
  decide (g.root = .inode ∧ level + 1 = nlevels)

/-- Allocate the incore root, or claim a block and link it behind the block
before it. -/
def bloadPrepBlock (ctx : BloadCtx R K) (bbl : Bload) (level nrThisBlock : Nat)
    (st : BloadState R K) : Except Errno (BloadState R K × BlockLoc) :=
  if btreeAtIroot ctx.geom bbl.btreeHeight level then
    .ok ({ st with
      store := st.store.set .iroot (btreeInitBlock level nrThisBlock)
      ptr := none
      bp := none
      block := some .iroot }, .iroot)
  else
    match st.reserved with
    | [] => .error .enospc
    | newPtr :: reserved =>
      let st := bloadDropBuf bbl
        { st with store := linkBehind st.store st.block newPtr, reserved := reserved }
      .ok ({ st with
        store := st.store.set (.buf newPtr)
          { btreeInitBlock level nrThisBlock with leftsib := st.ptr }
        ptr := some newPtr
        bp := some newPtr
        block := some (.buf newPtr) }, .buf newPtr)

/-- The loop of `xfs_btree_bload_leaf`. Every call loads a record at least. -/
def bloadLeafLoop (ctx : BloadCtx R K) (loc : BlockLoc) (recsThisBlock : Nat) :
    Nat → Nat → BloadState R K → Except Errno (BloadState R K)
  | fuel, j, st =>
    if j ≤ recsThisBlock then
      match fuel with
      | 0 => .error .eio
      | fuel + 1 =>
        match ctx.getRecords j (recsThisBlock - j + 1) st.stream with
        | .error e => .error e
        | .ok (recs, stream) =>
          bloadLeafLoop ctx loc recsThisBlock fuel (j + recs.length)
            { st with
              stream := stream
              store := st.store.modify loc fun b => { b with recs := b.recs ++ recs } }
    else .ok st

def bloadLeaf (ctx : BloadCtx R K) (recsThisBlock : Nat) (loc : BlockLoc) (st : BloadState R K) :
    Except Errno (BloadState R K) :=
  bloadLeafLoop ctx loc recsThisBlock recsThisBlock 1 st

/-- Fill a node from the next blocks of the level below, along their right siblings. -/
def bloadNode [LinearOrder K] (ctx : BloadCtx R K) :
    Nat → BlockLoc → BloadState R K → Except Errno (BloadState R K)
  | 0, _, st => .ok st
  | recsThisBlock + 1, loc, st =>
    match st.childPtr with
    | none => .error .efscorrupted
    | some child =>
      match st.store.bufs child with
      | none => .error .eio
      | some childBlock =>
        bloadNode ctx recsThisBlock loc
          { st with
            store := st.store.modify loc fun b =>
              { b with
                ptrs := b.ptrs ++ [child]
                keys := b.keys ++ [btreeGetKeys ctx.keys childBlock] }
            childPtr := childBlock.rightsib }

def LevelGeometry.loads (geo : LevelGeometry) : List Nat :=
  (List.range geo.blocks).map fun i =>
    (geo.avgPerBlock + if i < geo.blocksWithExtra then 1 else 0) % 2 ^ 32

/-- The blocks of one level. The level above starts at the pointer of the first one. -/
def bloadLevel (ctx : BloadCtx R K) (bbl : Bload) (level : Nat)
    (fill : Nat → BlockLoc → BloadState R K → Except Errno (BloadState R K)) :
    List Nat → Nat → Option Nat → BloadState R K → Except Errno (BloadState R K × Option Nat)
  | [], _, first, st => .ok (st, first)
  | nrThisBlock :: rest, i, first, st => do
    let (st, loc) ← bloadPrepBlock ctx bbl level nrThisBlock st
    let st ← fill nrThisBlock loc st
    bloadLevel ctx bbl level fill rest (i + 1) (if i = 0 then st.ptr else first) st

/-- The node levels from `level` on. -/
def bloadNodeLevels [LinearOrder K] (ctx : BloadCtx R K) (bbl : Bload) :
    Nat → Nat → Nat → Nat → BloadState R K → Except Errno (BloadState R K × Nat)
  | 0, _, _, totalBlocks, st => .ok (st, totalBlocks)
  | n + 1, level, blocks, totalBlocks, st => do
    let geo := bloadLevelGeometry ctx.geom bbl bbl.btreeHeight level blocks
    let (st, first) ← bloadLevel ctx bbl level (bloadNode ctx) geo.loads 0 none
      { st with block := none, ptr := none }
    bloadNodeLevels ctx bbl n (level + 1) geo.blocks (totalBlocks + geo.blocks)
      { bloadDropBuf bbl st with childPtr := first }

def bload [LinearOrder K] (ctx : BloadCtx R K) (bbl : Bload) (st : BloadState R K) :
    Except Errno (BloadState R K × FakeRoot) := do
  let geo := bloadLevelGeometry ctx.geom bbl bbl.btreeHeight 0 bbl.nrRecords
  let (st, first) ← bloadLevel ctx bbl 0 (bloadLeaf ctx) geo.loads 0 none
    { st with childPtr := none, ptr := none, bp := none, block := none, buffers := [], nrDirty := 0 }
  let (st, totalBlocks) ← bloadNodeLevels ctx bbl (bbl.btreeHeight - 1) 1 geo.blocks geo.blocks
    { bloadDropBuf bbl st with childPtr := first }
  let fake := match ctx.geom.root with
    | .inode => ⟨none, bbl.btreeHeight, totalBlocks - 1⟩
    | .ag => ⟨st.ptr, bbl.btreeHeight, totalBlocks⟩
  return (bufDelwriSubmit st, fake)

end Loader

end Xfs
