import Xfs.Alloc.FreeSpace

/-! Whether a group takes part in an allocation, and the refill of its free list before that. -/
namespace Xfs

open RecordCursor

structure AdmitEnv extends AllocEnv where
  agMaxUsable : Nat
  bnoLevel : Nat
  cntLevel : Nat
  rmapLevel : Nat
  allocMaxlevels : Nat
  rmapMaxlevels : Nat
  hasRmapbt : Bool
  metaReserved : Nat
  rmapbtReserved : Nat
  prefersMetadata : Bool

structure AllocFlags where
  trylock : Bool
  freeing : Bool
  noshrink : Bool
deriving DecidableEq, Repr

/-- The blocks that are reserved for others. -/
def agResvNeeded (env : AdmitEnv) (resv : AgResv) : Nat :=
  let len := add32 env.metaReserved env.rmapbtReserved
  match resv with
  | .metadata => sub32 len env.metaReserved
  | .rmapbt => sub32 len env.rmapbtReserved
  | _ => len

/-- The least length of the free list: two splits of every level of every btree. -/
def allocMinFreelist (env : AdmitEnv) : Nat :=
  min (env.bnoLevel + 1) env.allocMaxlevels * 2 - 2 +
    (min (env.cntLevel + 1) env.allocMaxlevels * 2 - 2) +
    if env.hasRmapbt then min (env.rmapLevel + 1) env.rmapMaxlevels * 2 - 2 else 0

/-- The longest extent, less what the free list and the reservations take from it. -/
def allocLongestFreeExtent (env : AdmitEnv) (sp : AgSpace) (need reserved : Nat) : Nat :=
  let delta := if sp.agfl.pagfFlcount < need then sub32 need sp.agfl.pagfFlcount else 0
  let others := sub32 sp.pagfFreeblks sp.pagfLongest
  let delta := if others < reserved then add32 delta (sub32 reserved others) else delta
  if delta < sp.pagfLongest then min env.agMaxUsable (sub32 sp.pagfLongest delta)
  else if 0 < sp.agfl.pagfFlcount ∨ 0 < sp.pagfLongest then 1
  else 0

/-- Whether there is enough space. A final check cuts `maxlen` down to it. -/
def allocSpaceAvailable (env : AdmitEnv) (sp : AgSpace) (args : AllocArgs) (minFree : Nat)
    (freeing check : Bool) : Option AllocArgs :=
  if freeing then some args
  else
    let reservation := agResvNeeded env args.resv
    let allocLen := add32 (add32 args.minlen (args.alignment - 1)) args.minalignslop
    let longest := allocLongestFreeExtent env sp minFree reservation
    if longest < allocLen then none
    else
      let agflcount := min sp.agfl.pagfFlcount minFree
      let available := int32 (sub32 (sub32 (sub32 (add32 sp.pagfFreeblks agflcount) reservation)
        minFree) args.minleft)
      if available < int32 (max args.total allocLen) then none
      else if available < int32 args.maxlen ∧ check = false then
        some { args with maxlen := (available % 2 ^ 32).toNat }
      else some args

def shrinkFreelist (env : AdmitEnv) (need : Nat) : Nat → AgflState → AllocM AgflState
  | 0, agfl => pure agfl
  | fuel + 1, agfl =>
    if need < agfl.pagfFlcount then do
      let (agfl, answer) := allocGetFreelist env.agfl env.group agfl false
      let _ ← answer
      shrinkFreelist env need fuel agfl
    else pure agfl

def shrinkUnless (env : AdmitEnv) (noshrink : Bool) (need : Nat) (agfl : AgflState) :
    AllocM AgflState :=
  if noshrink then pure agfl else shrinkFreelist env need agfl.pagfFlcount agfl

/-- A free list that is marked as damaged is emptied before the final check. -/
def afterReset (env : AdmitEnv) (sp : AgSpace) : AgSpace :=
  if sp.agfl.needsReset then { sp with agfl := agflReset env.agfl sp.agfl } else sp

def putBlocks (m : AgflMount) : Nat → Nat → AgflState → AgflState
  | 0, _, agfl => agfl
  | len + 1, bno, agfl => putBlocks m len (bno + 1) (allocPutFreelist m agfl bno false)

def allocUpdateCounters (g : Group) (sp : AgSpace) (len : Nat) : AllocM AgSpace :=
  let sp :=
    { sp with pagfFreeblks := sub32 sp.pagfFreeblks len, freeblks := sub32 sp.freeblks len }
  if g.blockCount < sp.freeblks then .error .efscorrupted else .ok sp

def refillArgs (maxlen : Nat) : AllocArgs :=
  ⟨1, maxlen, 1, 0, 0, 0, 0, 1, 0, .agfl, false, 0, 0, false⟩

/-- Allocate blocks until the free list is long enough; `none` if there are not enough. -/
def refillFreelist (env : AdmitEnv) (freeing : Bool) (need : Nat) :
    Nat → AgSpace → AllocM (Option AgSpace)
  | 0, _ => pure none
  | fuel + 1, sp =>
    if sp.agfl.pagfFlcount < need then do
      let targs := refillArgs (sub32 need sp.agfl.pagfFlcount)
      match ← allocAgVextentSize env.toAllocEnv sp targs (fuel + 1) with
      | none => pure none
      | some (sp, targs) =>
        if targs.agbno = nullagblock then pure (if freeing then some sp else none)
        else
          let sp ← allocUpdateCounters env.group sp targs.len
          refillFreelist env freeing need fuel
            { sp with agfl := putBlocks env.agfl targs.len targs.agbno sp.agfl }
    else pure (some sp)

/-- Bring the free list to the right length; `none` if the group is not used. -/
def allocFixFreelist (env : AdmitEnv) (sp : AgSpace) (args : AllocArgs) (flags : AllocFlags)
    (fuel : Nat) : AllocM (Option (AgSpace × AllocArgs)) :=
  if env.prefersMetadata ∧ args.userdata ∧ flags.trylock then pure none
  else
    let need := allocMinFreelist env
    match allocSpaceAvailable env sp args need flags.freeing true with
    | none => pure none
    | some args =>
      let sp := afterReset env sp
      match allocSpaceAvailable env sp args need flags.freeing false with
      | none => pure none
      | some args => do
          let agfl ← shrinkUnless env flags.noshrink need sp.agfl
          match ← refillFreelist env flags.freeing need fuel { sp with agfl := agfl } with
          | none => pure none
          | some sp => pure (some (sp, args))

end Xfs
