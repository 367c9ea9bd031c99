import Xfs.Refcount.Basic
import Xfs.Repair.Rcbag

/-! `compute_refcounts` of `repair/rmap.c`: the observed reverse mappings of a
group are swept in block order, and every piece that is mapped more than once
becomes a refcount record. -/
namespace Xfs

open RecordCursor

def rmapShareable (isSbInum : Nat → Bool) (rmap : RmapIrec) : Bool :=
  !rmapNonInodeOwner rmap.owner && !isSbInum rmap.owner &&
    !(rmap.flags.attrFork || rmap.flags.bmbtBlock || rmap.flags.unwritten)

/-- The checks of the records and the inodes that the superblock names. -/
structure RefcountGenEnv where
  group : RmapGroup
  isSbInum : Nat → Bool

def refcountWalkRmaps (env : RefcountGenEnv) :
    Nat → RmapCur → RepairM (RmapCur × Option RmapIrec)
  | 0, _ => .error .outOfFuel
  | fuel + 1, cur =>
    let (cur, haveGt) := cur.increment
    if haveGt = false then .ok (cur, none) else
    match rmapGetRec env.group cur with
    | .error e => .error (.errno e)
    | .ok none => .error (.errno .efscorrupted)
    | .ok (some rmap) =>
      if rmapShareable env.isSbInum rmap then .ok (cur, some rmap)
      else refcountWalkRmaps env fuel cur

structure RefcountSweep where
  cur : RmapCur
  bag : Rcbag
  rmap : Option RmapIrec

def refcountPushLoop (env : RefcountGenEnv) (bno : Nat) :
    Nat → RefcountSweep → RepairM RefcountSweep
  | 0, _ => .error .outOfFuel
  | fuel + 1, st =>
    match st.rmap with
    | none => .ok st
    | some rmap =>
      if rmap.startblock ≠ bno then .ok st else do
      let bag ← rcbagAdd st.bag rmap
      let (cur, rmap) ← refcountWalkRmaps env (fuel + 1) st.cur
      refcountPushLoop env bno fuel ⟨cur, bag, rmap⟩

/-- Collect the rmaps that start at `bno`, and step the cursor back for the next walk. -/
def refcountPushRmapsAt (env : RefcountGenEnv) (fuel bno : Nat) (st : RefcountSweep) :
    RepairM RefcountSweep := do
  let st ← refcountPushLoop env bno fuel st
  let (cur, haveGt) := st.cur.decrement
  if haveGt = false then .error (.errno .efscorrupted) else
  pure { st with cur := cur }

/-- The refcount records of the group and the reflink flags of the inodes. -/
structure RefcountGenOut where
  refcountItems : List RefcountIrec
  isRl : ReflinkFlags

def refcountEmit (out : RefcountGenOut) (agbno len nrRmaps : Nat) : RefcountGenOut :=
  { out with refcountItems := out.refcountItems ++
      [⟨agbno, len, min nrRmaps refcRefcountMax, .shared⟩] }

def refcountPushAndMark (env : RefcountGenEnv) (fuel bno : Nat) (st : RefcountSweep)
    (isRl : ReflinkFlags) : RepairM (RefcountSweep × ReflinkFlags) := do
  let st ← (if st.rmap.isSome then refcountPushRmapsAt env fuel bno st else pure st)
  let isRl ← markReflinkInodes fuel st.bag isRl
  pure (st, isRl)

/-- Emit the piece before `nbno` if the height of the stack changes there. -/
def refcountEmitChanged (out : RefcountGenOut) (cbno nbno oldStackHeight stackHeight : Nat) :
    RefcountGenOut × Nat :=
  if stackHeight ≠ oldStackHeight then
    (if 1 < oldStackHeight then refcountEmit out cbno (sub32 nbno cbno) oldStackHeight else out,
      nbno)
  else (out, cbno)

def refcountStackLoop (env : RefcountGenEnv) :
    Nat → RefcountSweep → Nat → Nat → Nat → RefcountGenOut →
      RepairM (RefcountSweep × RefcountGenOut)
  | 0, _, _, _, _, _ => .error .outOfFuel
  | fuel + 1, st, cbno, nbno, oldStackHeight, out =>
    if st.bag.nrItems = 0 then .ok (st, out) else do
    -- pop all rmaps that end at nbno, then push those that start there
    let bag ← rcbagRemoveEndingAt (fuel + 1) st.bag nbno
    let (cur, rmap) ← refcountWalkRmaps env (fuel + 1) st.cur
    let (st, isRl) ← refcountPushAndMark env (fuel + 1) nbno ⟨cur, bag, rmap⟩ out.isRl
    let (out, cbno) :=
      refcountEmitChanged { out with isRl := isRl } cbno nbno oldStackHeight st.bag.nrItems
    if st.bag.nrItems = 0 then .ok (st, out) else do
    let next ← rcbagNextEdge (fuel + 1) st.bag st.rmap
    refcountStackLoop env fuel st cbno next st.bag.nrItems out

/-- The loop over the remaining records. -/
def refcountGenLoop (env : RefcountGenEnv) :
    Nat → RmapCur → Rcbag → RefcountGenOut → RepairM RefcountGenOut
  | 0, _, _, _ => .error .outOfFuel
  | fuel + 1, cur, bag, out =>
    -- libxfs_btree_has_more_records
    if ¬ cur.ptr < cur.recs.length then .ok out else do
    let (cur, rmap) ← refcountWalkRmaps env (fuel + 1) cur
    match rmap with
    | none => pure out
    | some r => do
        let sbno := r.startblock
        let (st, isRl) ← refcountPushAndMark env (fuel + 1) sbno ⟨cur, bag, some r⟩ out.isRl
        let nbno ← rcbagNextEdge (fuel + 1) st.bag st.rmap
        let (st, out) ← refcountStackLoop env (fuel + 1) st sbno nbno st.bag.nrItems
          { out with isRl := isRl }
        refcountGenLoop env fuel st.cur st.bag out

/-- Transform a pile of physical block mapping observations into refcount data. -/
def computeRefcounts (env : RefcountGenEnv) (fuel : Nat) (hasReflink : Bool)
    (observations : Option (List RmapIrec)) (out : RefcountGenOut) : RepairM RefcountGenOut :=
  if hasReflink = false then .ok out else
  match observations with
  | none => .ok out
  | some rmaps => refcountGenLoop env fuel (gotoLeftEdge rmaps) ⟨[], 0⟩ out

end Xfs
