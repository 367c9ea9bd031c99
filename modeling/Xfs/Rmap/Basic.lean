import Mathlib.Data.Prod.Lex
import Xfs.Basic
import Xfs.Lib.RecordCursor

/-! Reverse mapping records, the cursor of an rmap btree and the record primitives of `xfs_rmap.c`.
The btree is its key-ordered record list. -/
namespace Xfs

open RecordCursor

structure RmapFlags where
  attrFork : Bool
  bmbtBlock : Bool
  unwritten : Bool
deriving Repr, DecidableEq

@[ext] structure RmapIrec where
  startblock : Nat
  blockcount : Nat
  owner : Nat
  offset : Nat
  flags : RmapFlags
deriving Repr, DecidableEq

def rmapOwnNull : Nat := 2 ^ 64 - 1

def rmapOwnUnknown : Nat := 2 ^ 64 - 2

def rmapOwnFs : Nat := 2 ^ 64 - 3

def rmapOwnCow : Nat := 2 ^ 64 - 9

def rmapOwnMin : Nat := 2 ^ 64 - 10

def rmapLenMax : Nat := 2 ^ 32 - 1

def maxFileoff : Nat := (2 ^ 54 - 1) + (2 ^ 21 - 1)

/-- Owners with the top bit set are not inodes. -/
def rmapNonInodeOwner (owner : Nat) : Bool := decide (2 ^ 63 ≤ owner)

/-- Records without a file offset. -/
def rmapIgnoreOff (owner : Nat) (flags : RmapFlags) : Bool :=
  rmapNonInodeOwner owner || flags.bmbtBlock

def RmapIrec.ignoreOff (r : RmapIrec) : Bool := rmapIgnoreOff r.owner r.flags

/-- The offset as it is compared, with the fork and bmbt bits, without the written state. -/
def rmapOffsetKey (offset : Nat) (flags : RmapFlags) : Nat :=
  offset % 2 ^ 54 + (if flags.bmbtBlock then 2 ^ 62 else 0) +
    (if flags.attrFork then 2 ^ 63 else 0)

/-- The key with all offset and flag bits set comes last. -/
theorem rmapOffsetKey_le (offset : Nat) (flags : RmapFlags) :
    rmapOffsetKey offset flags ≤ rmapOffsetKey (2 ^ 64 - 1) ⟨true, true, true⟩ := by
  have hmax : rmapOffsetKey (2 ^ 64 - 1) ⟨true, true, true⟩ = 2 ^ 54 - 1 + 2 ^ 62 + 2 ^ 63 := by
    decide
  rw [hmax]
  unfold rmapOffsetKey
  split <;> split <;> omega

abbrev RmapKey := Nat ×ₗ Nat ×ₗ Nat

def rmapKeyOf (bno owner offset : Nat) (flags : RmapFlags) : RmapKey :=
  toLex (bno, toLex (owner, rmapOffsetKey offset flags))

def rmapKey (r : RmapIrec) : RmapKey := rmapKeyOf r.startblock r.owner r.offset r.flags

def rmapHighKey (r : RmapIrec) : RmapKey :=
  let adj := r.blockcount - 1
  toLex (r.startblock + adj, toLex (r.owner,
    if r.ignoreOff then rmapOffsetKey r.offset r.flags else rmapOffsetKey r.offset r.flags + adj))

/-- What the checks know about the group. The static headers end with the AGFL. -/
structure RmapGroup extends Group where
  agflBlock : Nat
  verifyIno : Nat → Bool
  realtime : Bool
  rextsize : Nat
  hasRtreflink : Bool
  agflBlock_le : agflBlock ≤ 3
  rextsize_lt : rextsize < 2 ^ 31

def verifyFileext (off len : Nat) : Bool :=
  decide (off < off + len) && decide (off ≤ maxFileoff) && decide (off + len - 1 ≤ maxFileoff)

def rmapCheckIrec (g : RmapGroup) (r : RmapIrec) : Bool :=
  let isInode := !rmapNonInodeOwner r.owner
  let isBmbt := r.flags.bmbtBlock
  let isAttr := r.flags.attrFork
  let isUnwritten := r.flags.unwritten
  if r.blockcount = 0 then false
  else if r.startblock ≤ g.agflBlock ∧ (r.owner ≠ rmapOwnFs ∨ r.blockcount ≠ g.agflBlock + 1) then
    false
  else if g.agflBlock < r.startblock ∧ verifyGbext g.toGroup r.startblock r.blockcount = false then
    false
  else if ¬ (g.verifyIno r.owner = true ∨ r.owner ≤ rmapOwnFs ∧ rmapOwnMin ≤ r.owner) then false
  else if isBmbt && decide (r.offset ≠ 0) then false
  else if !isInode && decide (r.offset ≠ 0) then false
  else if isUnwritten && (isBmbt || !isInode || isAttr) then false
  else if !isInode && (isBmbt || isUnwritten || isAttr) then false
  else if isInode && !isBmbt && !verifyFileext r.offset r.blockcount then false
  else true

def rtrmapCheckMetaIrec (g : RmapGroup) (r : RmapIrec) : Bool :=
  if r.offset ≠ 0 then false
  else if r.flags.unwritten then false
  else if r.owner = rmapOwnFs then
    decide (r.startblock = 0) && decide (r.blockcount = g.rextsize)
  else if r.owner = rmapOwnCow then
    g.hasRtreflink && verifyGbext g.toGroup r.startblock r.blockcount
  else false

def rtrmapCheckInodeIrec (g : RmapGroup) (r : RmapIrec) : Bool :=
  g.verifyIno r.owner && verifyGbext g.toGroup r.startblock r.blockcount &&
    verifyFileext r.offset r.blockcount

def rtrmapCheckIrec (g : RmapGroup) (r : RmapIrec) : Bool :=
  if r.blockcount = 0 then false
  else if r.flags.bmbtBlock || r.flags.attrFork then false
  else if rmapNonInodeOwner r.owner then rtrmapCheckMetaIrec g r
  else rtrmapCheckInodeIrec g r

def rmapCheckBtrec (g : RmapGroup) (r : RmapIrec) : Bool :=
  if g.realtime then rtrmapCheckIrec g r else rmapCheckIrec g r

abbrev RmapCur := Cursor RmapIrec

abbrev RmapM := Except Errno

/-- The record as it is packed on disk, where the offset has 54 bits. -/
def RmapIrec.pack (r : RmapIrec) : RmapIrec := { r with offset := r.offset % 2 ^ 54 }

/-- The record under the cursor, if any. A malformed record is an error. -/
def rmapGetRec (g : RmapGroup) (cur : RmapCur) : RmapM (Option RmapIrec) :=
  match cur.rec? with
  | none => .ok none
  | some r => if rmapCheckBtrec g r then .ok (some r) else .error .efscorrupted

/-- The record under the cursor. An empty position is an error as well. -/
def rmapGetRecFound (g : RmapGroup) (cur : RmapCur) : RmapM RmapIrec := do
  match ← rmapGetRec g cur with
  | some r => pure r
  | none => throw .efscorrupted

/-- Move to the last record that is not above the given mapping, and read it. -/
def rmapLookupLe (g : RmapGroup) (cur : RmapCur) (bno owner offset : Nat) (flags : RmapFlags) :
    RmapM (RmapCur × Option RmapIrec) := do
  let (cur, stat) := cur.lookupLE rmapKey (rmapKeyOf bno owner offset flags)
  if stat = false then pure (cur, none) else
  let r ← rmapGetRecFound g cur
  pure (cur, some r)

def rmapSeekLe (cur : RmapCur) (bno owner offset : Nat) (flags : RmapFlags) : RmapCur × Bool :=
  cur.lookupLE rmapKey (rmapKeyOf bno owner offset flags)

def rmapLookupEq (cur : RmapCur) (bno owner offset : Nat) (flags : RmapFlags) : RmapCur × Bool :=
  cur.lookupEQ rmapKey (rmapKeyOf bno owner offset flags)

def rmapUpdate (cur : RmapCur) (r : RmapIrec) : RmapCur := cur.update r.pack

def rmapBtreeInsert (cur : RmapCur) (r : RmapIrec) : RmapM RmapCur :=
  let (cur, stat) := cur.insert r.pack
  if stat then .ok cur else .error .efscorrupted

def rmapBtreeDelete (cur : RmapCur) : RmapM RmapCur :=
  let (cur, stat) := cur.delete
  if stat then .ok cur else .error .efscorrupted

def rmapIncrementFound (cur : RmapCur) : RmapM RmapCur :=
  let (cur, stat) := cur.increment
  if stat then .ok cur else .error .efscorrupted

def rmapDecrementFound (cur : RmapCur) : RmapM RmapCur :=
  let (cur, stat) := cur.decrement
  if stat then .ok cur else .error .efscorrupted

def rmapLookupEqFound (cur : RmapCur) (r : RmapIrec) : RmapM RmapCur :=
  let (cur, stat) := rmapLookupEq cur r.startblock r.owner r.offset r.flags
  if stat then .ok cur else .error .efscorrupted

def rmapInsert (cur : RmapCur) (r : RmapIrec) : RmapM RmapCur :=
  let (cur, stat) := rmapLookupEq cur r.startblock r.owner r.offset r.flags
  if stat then .error .efscorrupted else rmapBtreeInsert cur r

def rmapDelete (cur : RmapCur) (r : RmapIrec) : RmapM RmapCur := do
  let cur ← rmapLookupEqFound cur r
  rmapBtreeDelete cur

structure OwnerInfo where
  owner : Nat
  offset : Nat
  attrFork : Bool
  bmbtBlock : Bool
deriving Repr, DecidableEq

def OwnerInfo.flags (oinfo : OwnerInfo) (unwritten : Bool) : RmapFlags :=
  ⟨oinfo.attrFork, oinfo.bmbtBlock, unwritten⟩

/-- Only mappings of the same owner with the same flags are merged. -/
def rmapIsMergeable (r : RmapIrec) (owner : Nat) (flags : RmapFlags) : Bool :=
  if r.owner = rmapOwnNull then false
  else if r.owner ≠ owner then false
  else if flags.unwritten ≠ r.flags.unwritten then false
  else if flags.attrFork ≠ r.flags.attrFork then false
  else if flags.bmbtBlock ≠ r.flags.bmbtBlock then false
  else true

end Xfs
