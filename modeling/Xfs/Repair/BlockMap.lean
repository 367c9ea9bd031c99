import Xfs.Repair.KeyMap

/-! The block states that repair collects. A key of the map is the first block of a run of blocks
in one state. -/
namespace Xfs

/-- The block states, `XR_E_…`. -/
inductive BlockState where
  | unknown
  | free1
  | free
  | metadata
  | inuse
  | inuseFs
  | mult
  | ino
  | fsMap
  | inuse1
  | inuseFs1
  | ino1
  | fsMap1
  | refc
  | cow
  | badState
deriving DecidableEq, Repr

abbrev BlockMap := KeyMap BlockState

/-- What is known about the groups. `rgextents` is the nominal size of a realtime group. -/
structure BlockGeometry where
  sectsize : Nat
  blocksize : Nat
  agblocks : Nat
  agblklog : Nat
  agcount : Nat
  dblocks : Nat
  logstart : Nat
  logblocks : Nat
  hasRtgroups : Bool
  hasRtsb : Bool
  rgcount : Nat
  rgextents : Nat
  rextents : Nat
  rextsize : Nat
deriving Repr

structure BlockGroup where
  gno : Nat
  isrt : Bool
deriving DecidableEq, Repr

abbrev BlockMaps := BlockGroup → BlockMap

/-- Set the state of `blen` blocks from `offset` on. `stale` stands in for `next_key`. -/
def setBmapExt (stale : Nat) (bmap : BlockMap) (offset blen : Nat) (newState : BlockState) :
    BlockMap :=
  let stop := add32 offset blen
  match bmap.find offset with
  | (bmap, none) => bmap
  | (bmap, some (curKey, curState)) =>
    if offset = curKey then
      -- the start is the same as that of the current run
      if curState = newState then bmap
      else
        let prevState := bmap.peekPrev.map Prod.snd
        let (bmap, next) := bmap.peekNext
        let nextState := next.map Prod.snd
        if stop < (next.map Prod.fst).getD stale then
          if prevState = some newState then (bmap.updateKey offset stop).1
          else ((bmap.updateValue offset newState).1.insert stop curState).1
        else if nextState = some newState then
          if prevState = some newState then ((bmap.delete offset).1.delete stop).1
          else ((bmap.updateValue offset newState).1.delete stop).1
        else if prevState = some newState then (bmap.delete offset).1
        else (bmap.updateValue offset newState).1
    else
      -- the start is in the middle of the run before the current key
      let prevState := bmap.peekPrev.map Prod.snd
      if prevState = some newState then bmap
      else if stop = curKey then
        if newState = curState then (bmap.updateKey stop offset).1
        else (bmap.insert offset newState).1
      else
        match prevState with
        | none => (bmap.insert offset newState).1
        | some prevState => ((bmap.insert offset newState).1.insert stop prevState).1

/-- The state of a block, and how many blocks from it on are in this state. -/
def getBmapExt (bmap : BlockMap) (agbno maxbno : Nat) (wantLen : Bool) :
    BlockMap × Option (BlockState × Option Nat) :=
  match bmap.find agbno with
  | (bmap, none) => (bmap, none)
  | (bmap, some (key, state)) =>
    if key = agbno then
      if wantLen then
        match bmap.peekNext with
        | (bmap, none) => (bmap, none)
        | (bmap, some (key, _)) => (bmap, some (state, some (sub32 (min maxbno key) agbno)))
      else (bmap, some (state, none))
    else
      match bmap.peekPrev with
      | none => (bmap, none)
      | some (_, state) =>
        (bmap, some (state, if wantLen then some (sub32 (min maxbno key) agbno) else none))

def agHdrBlock (mp : BlockGeometry) : Nat := (4 * mp.sectsize + mp.blocksize - 1) / mp.blocksize

def agSize (mp : BlockGeometry) (agno : Nat) : Nat :=
  if agno = mp.agcount - 1 then (mp.dblocks - mp.agblocks * agno) % 2 ^ 32 else mp.agblocks

def resetAgBmap (mp : BlockGeometry) (agno : Nat) : BlockMap :=
  let bmap := (KeyMap.empty.insert 0 .inuseFs).1
  let bmap := (bmap.insert (agHdrBlock mp) .unknown).1
  (bmap.insert (agSize mp agno) .badState).1

def rtgroupExtents (mp : BlockGeometry) (rgno : Nat) : Nat :=
  if rgno = mp.rgcount - 1 then mp.rextents - rgno * mp.rgextents else mp.rgextents

def resetRtgBmap (mp : BlockGeometry) (rgno : Nat) : BlockMap :=
  let bmap :=
    if rgno = 0 ∧ mp.hasRtsb = true then
      ((KeyMap.empty.insert 0 .inuseFs).1.insert mp.rextsize .free).1
    else (KeyMap.empty.insert 0 .free).1
  (bmap.insert (rtgroupExtents mp rgno * mp.rextsize) .badState).1

/-- The maps of the groups start over. The realtime bitmap is not part of them. -/
def resetBmaps (stale : Nat) (mp : BlockGeometry) (bmaps : BlockMaps) : BlockMaps :=
  let bmaps : BlockMaps := fun g =>
    if g.isrt = false ∧ g.gno < mp.agcount then resetAgBmap mp g.gno else bmaps g
  let bmaps : BlockMaps :=
    if mp.logstart ≠ 0 then
      let g : BlockGroup := ⟨mp.logstart / 2 ^ mp.agblklog, false⟩
      Function.update bmaps g (setBmapExt stale (bmaps g) (mp.logstart % 2 ^ mp.agblklog)
        mp.logblocks .inuseFs)
    else bmaps
  if mp.hasRtgroups then
    fun g => if g.isrt = true ∧ g.gno < mp.rgcount then resetRtgBmap mp g.gno else bmaps g
  else bmaps

end Xfs
