import Mathlib.Data.Prod.Lex
import Xfs.Alloc.Agfl
import Xfs.Alloc.Align
import Xfs.Lib.RecordCursor

/-! The free space btrees of an allocation group and the allocation of an extent by size. The btrees
are their record lists, and there are no busy extents. -/
namespace Xfs

open RecordCursor

structure FreeRec where
  bno : Nat
  len : Nat
deriving DecidableEq, Repr

def bnoKey (r : FreeRec) : Nat := r.bno

/-- The by-size btree compares lengths first. -/
def cntKey (r : FreeRec) : Nat ×ₗ Nat := toLex (r.len, r.bno)

abbrev AllocM := Except Errno

structure AllocEnv where
  group : Group
  agfl : AgflMount
  beforeLastLeaf : List FreeRec → Nat

/-- The btrees, the counters with their copies in memory, the free list. -/
structure AgSpace where
  bnobt : List FreeRec
  cntbt : List FreeRec
  freeblks : Nat
  pagfFreeblks : Nat
  longest : Nat
  pagfLongest : Nat
  agfl : AgflState

/-- Who the reserved blocks are for. -/
inductive AgResv where
  | none
  | agfl
  | metadata
  | rmapbt
  | ignore
  | metafile
deriving DecidableEq, Repr

/-- The request, and in `agbno`, `len` and `wasfromfl` the answer. -/
structure AllocArgs where
  minlen : Nat
  maxlen : Nat
  alignment : Nat
  minalignslop : Nat
  total : Nat
  minleft : Nat
  mod : Nat
  prod : Nat
  minAgbno : Nat
  resv : AgResv
  userdata : Bool
  agbno : Nat
  len : Nat
  wasfromfl : Bool
deriving DecidableEq, Repr

/-- `XFS_IS_CORRUPT` -/
def corruptUnless (ok : Bool) : AllocM Unit := if ok then .ok () else .error .efscorrupted

def allocCheckIrec (g : Group) (r : FreeRec) : Bool :=
  decide (r.len ≠ 0) && verifyGbext g r.bno r.len

def allocGetRec (g : Group) (cur : Cursor FreeRec) : AllocM FreeRec :=
  match cur.rec? with
  | none => .error .efscorrupted
  | some r => if allocCheckIrec g r then .ok r else .error .efscorrupted

section

variable {K : Type} [LinearOrder K] (key : FreeRec → K)

def allocLookupPresent (cur : Cursor FreeRec) (r : FreeRec) : AllocM (Cursor FreeRec) := do
  let (cur, found) := cur.lookupEQ key (key r)
  corruptUnless found
  pure cur

def allocLookupUnless (ok : Bool) (cur : Cursor FreeRec) (r : FreeRec) : AllocM (Cursor FreeRec) :=
  if ok then pure cur else allocLookupPresent key cur r

/-- Look up a record that must not be there, and insert it. -/
def allocInsertAbsent (cur : Cursor FreeRec) (r : FreeRec) : AllocM (Cursor FreeRec) := do
  let (cur, found) := cur.lookupEQ key (key r)
  corruptUnless !found
  let (cur, done) := cur.insert r
  corruptUnless done
  pure cur

end

def allocDeleteRec (cur : Cursor FreeRec) : AllocM (Cursor FreeRec) := do
  let (cur, done) := cur.delete
  corruptUnless done
  pure cur

def allocLeftovers (f : FreeRec) (rbno rlen : Nat) : Option FreeRec × Option FreeRec :=
  if rbno = f.bno ∧ rlen = f.len then (none, none)
  else if rbno = f.bno then (some ⟨add32 rbno rlen, sub32 f.len rlen⟩, none)
  else if add32 rbno rlen = add32 f.bno f.len then (some ⟨f.bno, sub32 f.len rlen⟩, none)
  else
    (some ⟨f.bno, sub32 rbno f.bno⟩,
      some ⟨add32 rbno rlen, sub32 (add32 f.bno f.len) (add32 rbno rlen)⟩)

def allocCursorAtLastrec (env : AllocEnv) (cnt : Cursor FreeRec) : Bool :=
  decide (env.beforeLastLeaf cnt.recs < cnt.ptr)

def cntbtLongest (cnt : Cursor FreeRec) : Nat :=
  let (cnt, found) := cnt.lookupLE cntKey (toLex (2 ^ 32 - 1, 2 ^ 32 - 1))
  if found then (cnt.rec?.map FreeRec.len).getD 0 else 0

def allocFixupLongest (sp : AgSpace) (cnt : Cursor FreeRec) : AgSpace :=
  { sp with longest := cntbtLongest cnt, pagfLongest := cntbtLongest cnt }

def insertSome {K : Type} [LinearOrder K] (key : FreeRec → K) (cur : Cursor FreeRec) :
    Option FreeRec → AllocM (Cursor FreeRec)
  | none => pure cur
  | some r => allocInsertAbsent key cur r

def updateOrDelete (cur : Cursor FreeRec) : Option FreeRec → AllocM (Cursor FreeRec)
  | none => allocDeleteRec cur
  | some r => pure (cur.update r)

def fixupCnt (cnt : Cursor FreeRec) (rest : Option FreeRec × Option FreeRec) :
    AllocM (Cursor FreeRec) := do
  let cnt ← allocDeleteRec cnt
  let cnt ← insertSome cntKey cnt rest.1
  insertSome cntKey cnt rest.2

def fixupBno (bno : Cursor FreeRec) (rest : Option FreeRec × Option FreeRec) :
    AllocM (Cursor FreeRec) := do
  let bno ← updateOrDelete bno rest.1
  insertSome bnoKey bno rest.2

def allocFixupTrees (env : AllocEnv) (sp : AgSpace) (cnt bno : Cursor FreeRec) (f : FreeRec)
    (rbno rlen : Nat) (cntOk bnoOk : Bool) : AllocM AgSpace := do
  let cnt ← allocLookupUnless cntKey cntOk cnt f
  let bno ← allocLookupUnless bnoKey bnoOk bno f
  let rest := allocLeftovers f rbno rlen
  let fixupLongest := allocCursorAtLastrec env cnt
  let cnt ← fixupCnt cnt rest
  let bno ← fixupBno bno rest
  let sp := { sp with bnobt := bno.recs, cntbt := cnt.recs }
  pure (if fixupLongest then allocFixupLongest sp cnt else sp)

def allocComputeAligned (args : AllocArgs) (f : FreeRec) : Nat × Nat :=
  let start : FreeRec :=
    if f.bno < args.minAgbno ∧ args.minAgbno < add32 f.bno f.len then
      let diff := sub32 args.minAgbno f.bno
      if diff < f.len then ⟨add32 f.bno diff, sub32 f.len diff⟩ else f
    else f
  if 1 < args.alignment ∧ args.minlen ≤ start.len then
    let aligned := roundup32 start.bno args.alignment
    let diff := sub32 aligned start.bno
    (aligned, if start.len ≤ diff then 0 else sub32 start.len diff)
  else (start.bno, start.len)

def int32 (x : Nat) : Int := if x < 2 ^ 31 then x else (x : Int) - 2 ^ 32

/-- The length becomes `k * prod + mod` if that is possible. -/
def allocFixLen (args : AllocArgs) : Nat :=
  let rlen := args.len
  if args.prod ≤ 1 ∨ rlen < args.mod ∨ rlen = args.maxlen ∨ (args.mod = 0 ∧ rlen < args.prod) then
    rlen
  else
    let k := rlen % args.prod
    if k = args.mod then rlen
    else
      let fixed :=
        if args.mod < k then sub32 rlen (k - args.mod)
        else add32 (sub32 rlen args.prod) (args.mod - k)
      if int32 fixed < int32 args.minlen then rlen else fixed

structure SizeFound where
  cnt : Cursor FreeRec
  f : FreeRec
  rbno : Nat
  rlen : Nat

/-- `stat` is false if the block is from the free list. -/
structure SmallFound where
  sp : AgSpace
  args : AllocArgs
  cnt : Cursor FreeRec
  f : FreeRec
  stat : Bool

/-- The last record of the by-size btree, or a block of the free list if there is none. -/
def allocAgVextentSmall (env : AllocEnv) (sp : AgSpace) (args : AllocArgs) (cnt : Cursor FreeRec) :
    AllocM SmallFound := do
  let (cnt, found) := cnt.decrement
  let giveUp (f : FreeRec) : SmallFound :=
    if f.len < args.minlen then ⟨sp, { args with agbno := nullagblock }, cnt, ⟨f.bno, 0⟩, true⟩
    else ⟨sp, args, cnt, f, true⟩
  if found then
    let f ← allocGetRec env.group cnt
    pure (giveUp f)
  else if args.minlen ≠ 1 ∨ args.alignment ≠ 1 ∨ args.resv = .agfl ∨
      sp.agfl.flcount ≤ args.minleft then
    pure (giveUp ⟨nullagblock, 0⟩)
  else
    let (agfl, answer) := allocGetFreelist env.agfl env.group sp.agfl false
    let fbno ← answer
    let sp := { sp with agfl := agfl }
    if fbno = nullagblock then pure (giveUp ⟨nullagblock, 0⟩)
    else
      corruptUnless (decide (fbno < env.group.blockCount))
      pure ⟨sp, { args with agbno := fbno, len := 1, wasfromfl := true }, cnt, ⟨fbno, 1⟩, false⟩

/-- The extents that are long enough. Without busy extents the first one will do. -/
def sizeLargeLoop (g : Group) (args : AllocArgs) :
    Nat → Cursor FreeRec → AllocM (Option SizeFound)
  | 0, _ => pure none
  | fuel + 1, cnt => do
      let f ← allocGetRec g cnt
      let (rbno, rlen) := allocComputeAligned args f
      if args.maxlen ≤ rlen then pure (some ⟨cnt, f, rbno, rlen⟩)
      else
        let (cnt, more) := cnt.increment
        if more then sizeLargeLoop g args fuel cnt else pure none

def sizeInside (f : FreeRec) (rbno rlen : Nat) : Bool :=
  rlen == 0 || (decide (rlen ≤ f.len) && decide (add32 rbno rlen ≤ add32 f.bno f.len))

def sizeLeftLoop (g : Group) (args : AllocArgs) :
    Nat → Cursor FreeRec → SizeFound → AllocM SizeFound
  | 0, _, best => pure best
  | fuel + 1, cnt, best => do
      let (cnt, more) := cnt.decrement
      if more = false then pure best
      else
        let f ← allocGetRec g cnt
        if f.len ≤ best.rlen then pure best
        else
          let (rbno, rlen) := allocComputeAligned args f
          let rlen := min args.maxlen rlen
          corruptUnless (sizeInside f rbno rlen)
          if best.rlen < rlen then
            if rlen = args.maxlen then pure ⟨cnt, f, rbno, rlen⟩
            else sizeLeftLoop g args fuel cnt ⟨cnt, f, rbno, rlen⟩
          else sizeLeftLoop g args fuel cnt best

def sizeBest (g : Group) (args : AllocArgs) (first : SizeFound) : AllocM SizeFound := do
  let first := { first with rlen := min args.maxlen first.rlen }
  corruptUnless (sizeInside first.f first.rbno first.rlen)
  if first.rlen < args.maxlen then
    let best ← sizeLeftLoop g args first.cnt.ptr first.cnt first
    let cnt ← allocLookupPresent cntKey best.cnt best.f
    pure { best with cnt := cnt }
  else pure first

def sizeAllocate (env : AllocEnv) (sp : AgSpace) (args : AllocArgs) (best : SizeFound) :
    AllocM (AgSpace × AllocArgs) := do
  let args := { args with wasfromfl := false, len := best.rlen }
  if best.rlen < args.minlen then pure (sp, { args with agbno := nullagblock })
  else
    let args := { args with len := allocFixLen args }
    corruptUnless (decide (args.len ≤ best.f.len))
    let sp ← allocFixupTrees env sp best.cnt ⟨sp.bnobt, 0⟩ best.f best.rbno args.len true false
    let args := { args with agbno := best.rbno }
    corruptUnless (decide (add32 args.agbno args.len ≤ env.group.blockCount))
    pure (sp, args)

/-- Allocate an extent anywhere in the group. The fuel counts restarts. -/
def allocAgVextentSize (env : AllocEnv) (sp : AgSpace) (args : AllocArgs) :
    Nat → AllocM (Option (AgSpace × AllocArgs))
  | 0 => pure none
  | fuel + 1 => do
      let want := sub32 (add32 args.maxlen args.alignment) 1
      let (cnt, found) := Cursor.lookupGE cntKey (toLex (want, 0)) ⟨sp.cntbt, 0⟩
      if found = false then
        let small ← allocAgVextentSmall env sp args cnt
        if small.stat = false ∨ small.f.len = 0 then pure (some (small.sp, small.args))
        else
          let (rbno, rlen) := allocComputeAligned small.args small.f
          let best ← sizeBest env.group small.args ⟨small.cnt, small.f, rbno, rlen⟩
          let done ← sizeAllocate env small.sp small.args best
          pure (some done)
      else
        match ← sizeLargeLoop env.group args sp.cntbt.length cnt with
        | none => allocAgVextentSize env sp args fuel
        | some first =>
          let best ← sizeBest env.group args first
          let done ← sizeAllocate env sp args best
          pure (some done)

end Xfs
