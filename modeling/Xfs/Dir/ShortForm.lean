import Xfs.Basic
import Xfs.Lib.ByteBuf

/-! Short-form directories of `xfs_dir2_sf.c`: a header with the parent and the entries behind it.
Inode numbers have four bytes as long as all fit, and eight otherwise. -/
namespace Xfs

/-- What the functions read of the mount, the directory geometry and the fork. -/
structure DirMount where
  hasFtype : Bool
  hasCrc : Bool
  blksize : Nat
  forkSize : Nat
  verifyDirIno : Nat → Bool

structure DirArgs where
  name : Bytes
  inumber : Nat
  filetype : Nat
  justCheck : Bool
  total : Nat
deriving Repr, DecidableEq

structure DirInode where
  buf : Bytes
  ifBytes : Nat
  diskSize : Nat
deriving Repr, DecidableEq

/-- An operation is done, fails, or the directory has to be converted to block form. -/
inductive DirResult where
  | done (dp : DirInode)
  | failed (e : Errno) (dp : DirInode)
  | toBlock
deriving Repr, DecidableEq

def dir2MaxShortInum : Nat := 2 ^ 32 - 1

def maxInumber : Nat := 2 ^ 56 - 1

def dir3FtMax : Nat := 9

def ino64Diff : Nat := 4

/-- The width of an inode number in a directory with this `i8count`. -/
def inoSize (i8count : Nat) : Nat := if i8count = 0 then 4 else 8

def dir2SfHdrSize (i8count : Nat) : Nat := 10 - if i8count = 0 then ino64Diff else 0

def ftypeSize (mp : DirMount) : Nat := if mp.hasFtype then 1 else 0

def dir2DataEntsize (mp : DirMount) (namelen : Nat) : Nat :=
  (9 + namelen + 2 + ftypeSize mp + 7) / 8 * 8

def dataFirstOffset (mp : DirMount) : Nat :=
  (if mp.hasCrc then 64 else 16) + dir2DataEntsize mp 1 + dir2DataEntsize mp 2

def sfCount (buf : Bytes) : Nat := (buf.getD 0 0).toNat

def sfI8count (buf : Bytes) : Nat := (buf.getD 1 0).toNat

def setCount (buf : Bytes) (n : Nat) : Bytes := buf.set 0 (UInt8.ofNat n)

def setI8count (buf : Bytes) (n : Nat) : Bytes := buf.set 1 (UInt8.ofNat n)

def dir2SfEntsize (mp : DirMount) (i8count len : Nat) : Nat :=
  len + 3 + inoSize i8count + ftypeSize mp

def entNamelen (buf : Bytes) (o : Nat) : Nat := (buf.getD o 0).toNat

def entOffset (buf : Bytes) (o : Nat) : Nat := getBe (slice buf (o + 1) 2)

def entName (buf : Bytes) (o : Nat) : Bytes := slice buf (o + 3) (entNamelen buf o)

def entFtype (mp : DirMount) (buf : Bytes) (o : Nat) : Nat :=
  if mp.hasFtype then
    let ftype := (buf.getD (o + 3 + entNamelen buf o) 0).toNat
    if ftype < dir3FtMax then ftype else 0
  else 0

/-- An inode number as it is stored. Only 56 bits of eight bytes count. -/
def getIno (i8count : Nat) (bytes : Bytes) : Nat :=
  if i8count = 0 then getBe bytes else getBe bytes % 2 ^ 56

def entIno (mp : DirMount) (buf : Bytes) (o : Nat) : Nat :=
  getIno (sfI8count buf)
    (slice buf (o + 3 + entNamelen buf o + ftypeSize mp) (inoSize (sfI8count buf)))

def entNext (mp : DirMount) (buf : Bytes) (o : Nat) : Nat :=
  o + dir2SfEntsize mp (sfI8count buf) (entNamelen buf o)

def sfParentIno (buf : Bytes) : Nat :=
  getIno (sfI8count buf) (slice buf 2 (inoSize (sfI8count buf)))

/-- Length, offset, name, the file type if there is one, and the inode number. -/
def entBytes (mp : DirMount) (i8count : Nat) (name : Bytes) (offset ftype ino : Nat) : Bytes :=
  UInt8.ofNat name.length :: (putBe 2 offset ++ (name ++
    ((if mp.hasFtype then [UInt8.ofNat ftype] else []) ++ putBe (inoSize i8count) ino)))

def hdrBytes (count i8count parent : Nat) : Bytes :=
  UInt8.ofNat count :: UInt8.ofNat i8count :: putBe (inoSize i8count) parent

/-- The entries from an offset on, copied into a directory with another `i8count`. -/
def copyEntries (mp : DirMount) (old : Bytes) (i8count : Nat) : Nat → Nat → Bytes
  | 0, _ => []
  | i + 1, o =>
    entBytes mp i8count (entName old o) (entOffset old o) (entFtype mp old o) (entIno mp old o) ++
      copyEntries mp old i8count i (entNext mp old o)

/-- The common body of the two conversions. -/
def dir2SfConvert (mp : DirMount) (i8count newsize : Nat) (dp : DirInode) : DirInode :=
  { buf := hdrBytes (sfCount dp.buf) i8count (sfParentIno dp.buf) ++
      copyEntries mp dp.buf i8count (sfCount dp.buf) (dir2SfHdrSize (sfI8count dp.buf))
    ifBytes := newsize
    diskSize := newsize }

def dir2SfToino4 (mp : DirMount) (dp : DirInode) : DirInode :=
  dir2SfConvert mp 0 (dp.ifBytes - (sfCount dp.buf + 1) * ino64Diff) dp

/-- Convert to eight-byte inode numbers. The count of large ones is one afterwards. -/
def dir2SfToino8 (mp : DirMount) (dp : DirInode) : DirInode :=
  dir2SfConvert mp 1 (dp.ifBytes + (sfCount dp.buf + 1) * ino64Diff) dp

/-- Whether there is a hole, the first offset behind the entries, and their end. -/
def addnamePickLoop (mp : DirMount) (buf : Bytes) (size : Nat) :
    Nat → Nat → Bool → Nat → Bool × Nat × Nat
  | 0, sfep, holefit, offset => (holefit, offset, sfep)
  | i + 1, sfep, holefit, offset =>
    addnamePickLoop mp buf size i (entNext mp buf sfep)
      (if holefit then true else decide (offset + size ≤ entOffset buf sfep))
      (entOffset buf sfep + dir2DataEntsize mp (entNamelen buf sfep))

inductive SfPick where
  | wontFit
  | easy (sfep offset : Nat)
  | hard
deriving Repr, DecidableEq

/-- Decide if the new entry fits at all, and whether it goes to the end. -/
def dir2SfAddnamePick (mp : DirMount) (args : DirArgs) (objchange : Bool) (buf : Bytes) : SfPick :=
  let size := dir2DataEntsize mp args.name.length
  let (holefit, offset, sfep) := addnamePickLoop mp buf size (sfCount buf)
    (dir2SfHdrSize (sfI8count buf)) false (dataFirstOffset mp)
  let used := offset + (sfCount buf + 3) * 8 + 8
  if mp.blksize < used + (if holefit then 0 else size) then .wontFit
  else if objchange then .hard
  else if mp.blksize < used + size then .hard
  else .easy sfep offset

def countEntry (buf : Bytes) (large : Bool) : Bytes :=
  let buf := setCount buf ((sfCount buf + 1) % 2 ^ 8)
  if large then setI8count buf ((sfI8count buf + 1) % 2 ^ 8) else buf

def dir2SfAddnameEasy (mp : DirMount) (args : DirArgs) (sfep offset newIsize : Nat)
    (dp : DirInode) : DirInode :=
  let size := dir2SfEntsize mp (sfI8count dp.buf) args.name.length
  let buf := overwrite (dp.buf ++ List.replicate size 0) sfep
    (entBytes mp (sfI8count dp.buf) args.name offset args.filetype args.inumber)
  { buf := countEntry buf (decide (dir2MaxShortInum < args.inumber))
    ifBytes := dp.ifBytes + size
    diskSize := newIsize }

/-- The offset to use, where the entry goes, and whether that is the end. -/
def addnameHardLoop (mp : DirMount) (buf : Bytes) (oldIsize addDatasize : Nat) :
    Nat → Nat → Nat → Nat × Nat × Bool
  | 0, offset, oldsfep => (offset, oldsfep, true)
  | fuel + 1, offset, oldsfep =>
    if oldsfep = oldIsize then (offset, oldsfep, true)
    else
      let newOffset := entOffset buf oldsfep
      if offset + addDatasize ≤ newOffset then (offset, oldsfep, false)
      else addnameHardLoop mp buf oldIsize addDatasize fuel
        (newOffset + dir2DataEntsize mp (entNamelen buf oldsfep)) (entNext mp buf oldsfep)

/-- Add the new entry into a hole. With `objchange` it is already counted. -/
def dir2SfAddnameHard (mp : DirMount) (args : DirArgs) (objchange : Bool) (newIsize : Nat)
    (dp : DirInode) : DirInode :=
  let oldIsize := dp.diskSize
  let (offset, nbytes, eof) := addnameHardLoop mp dp.buf oldIsize
    (dir2DataEntsize mp args.name.length) (oldIsize + 1) (dataFirstOffset mp)
    (dir2SfHdrSize (sfI8count dp.buf))
  let entry := entBytes mp (sfI8count dp.buf) args.name offset args.filetype args.inumber
  let front := countEntry (dp.buf.take nbytes ++ entry)
    (decide (dir2MaxShortInum < args.inumber) && !objchange)
  { buf := if eof then front else front ++ slice dp.buf nbytes (oldIsize - nbytes)
    ifBytes := newIsize
    diskSize := newIsize }

def dir2SfAddname (mp : DirMount) (args : DirArgs) (dp : DirInode) : DirResult :=
  let objchange := decide (dir2MaxShortInum < args.inumber) && decide (sfI8count dp.buf = 0)
  let incrIsize := dir2SfEntsize mp (sfI8count dp.buf) args.name.length +
    if objchange then (sfCount dp.buf + 2) * ino64Diff else 0
  let newIsize := dp.diskSize + incrIsize
  let noFit := if args.justCheck || args.total == 0 then DirResult.failed .enospc dp else .toBlock
  if mp.forkSize < newIsize then noFit else
  match dir2SfAddnamePick mp args objchange dp.buf with
  | .wontFit => noFit
  | .easy sfep offset =>
    if args.justCheck then .done dp else .done (dir2SfAddnameEasy mp args sfep offset newIsize dp)
  | .hard =>
    if args.justCheck then .done dp else
    let dp := if objchange then dir2SfToino8 mp dp else dp
    .done (dir2SfAddnameHard mp args objchange newIsize dp)

def dir2SfFindname (mp : DirMount) (name buf : Bytes) : Nat → Nat → Option Nat
  | 0, _ => none
  | i + 1, o =>
    if name.length = entNamelen buf o ∧ name = entName buf o then some o
    else dir2SfFindname mp name buf i (entNext mp buf o)

/-- One large inode number fewer. The last one takes the width with it. -/
def dropLarge (mp : DirMount) (dp : DirInode) : DirInode :=
  if sfI8count dp.buf = 1 then dir2SfToino4 mp dp
  else { dp with buf := setI8count dp.buf ((sfI8count dp.buf + 255) % 2 ^ 8) }

def dir2SfRemovename (mp : DirMount) (args : DirArgs) (dp : DirInode) : DirResult :=
  match dir2SfFindname mp args.name dp.buf (sfCount dp.buf)
      (dir2SfHdrSize (sfI8count dp.buf)) with
  | none => .failed .enoent dp
  | some byteoff =>
    let entsize := dir2SfEntsize mp (sfI8count dp.buf) args.name.length
    let newsize := dp.diskSize - entsize
    let buf := if byteoff + entsize < dp.diskSize then
        overwrite dp.buf byteoff
          (slice dp.buf (byteoff + entsize) (dp.diskSize - (byteoff + entsize)))
      else dp.buf
    let dp : DirInode :=
      { buf := (setCount buf ((sfCount buf + 255) % 2 ^ 8)).take newsize
        ifBytes := dp.ifBytes - entsize
        diskSize := newsize }
    .done (if dir2MaxShortInum < args.inumber then dropLarge mp dp else dp)

def dir2SfReplaceNeedblock (mp : DirMount) (dp : DirInode) (inum : Nat) : Bool :=
  decide (dir2MaxShortInum < inum) && decide (sfI8count dp.buf = 0) &&
    decide (mp.forkSize < dp.ifBytes + (sfCount dp.buf + 1) * ino64Diff)

def replaceCounts (mp : DirMount) (i8elevated : Bool) (old new : Nat) (dp : DirInode) : DirInode :=
  if dir2MaxShortInum < old ∧ new ≤ dir2MaxShortInum then dropLarge mp dp
  else if old ≤ dir2MaxShortInum ∧ dir2MaxShortInum < new ∧ i8elevated = false then
    { dp with buf := setI8count dp.buf ((sfI8count dp.buf + 1) % 2 ^ 8) }
  else dp

def dotdot : Bytes := [46, 46]

def dir2SfReplace (mp : DirMount) (args : DirArgs) (dp : DirInode) : DirResult :=
  let i8elevated := decide (dir2MaxShortInum < args.inumber) && decide (sfI8count dp.buf = 0)
  if i8elevated && dir2SfReplaceNeedblock mp dp args.inumber then .toBlock else
  let dp := if i8elevated then dir2SfToino8 mp dp else dp
  let i8count := sfI8count dp.buf
  if args.name = dotdot then
    let ino := sfParentIno dp.buf
    let buf := overwrite dp.buf 2 (putBe (inoSize i8count) args.inumber)
    .done (replaceCounts mp i8elevated ino args.inumber { dp with buf := buf })
  else
    match dir2SfFindname mp args.name dp.buf (sfCount dp.buf) (dir2SfHdrSize i8count) with
    | none => .failed .enoent (if i8elevated then dir2SfToino4 mp dp else dp)
    | some o =>
      let ino := entIno mp dp.buf o
      let tail := (if mp.hasFtype then [UInt8.ofNat args.filetype] else []) ++
        putBe (inoSize i8count) args.inumber
      let buf := overwrite dp.buf (o + 3 + entNamelen dp.buf o) tail
      .done (replaceCounts mp i8elevated ino args.inumber { dp with buf := buf })

def dir2SfCreate (pino : Nat) : DirInode :=
  let i8count := if dir2MaxShortInum < pino then 1 else 0
  let size := dir2SfHdrSize i8count
  { buf := hdrBytes 0 i8count pino, ifBytes := size, diskSize := size }

/-- The verifier's loop, with the count of large numbers and the lowest next offset. -/
def dir2SfVerifyLoop (mp : DirMount) (buf : Bytes) (size : Nat) :
    Nat → Nat → Nat → Nat → Bool
  | 0, sfep, i8count, offset =>
    decide (i8count = sfI8count buf) && decide (sfep = size) &&
      decide (offset + (sfCount buf + 2) * 8 + 8 ≤ mp.blksize)
  | i + 1, sfep, i8count, offset =>
    if size ≤ sfep + 3 then false
    else if entNamelen buf sfep = 0 then false
    else if size < entNext mp buf sfep then false
    else if entOffset buf sfep < offset then false
    else if mp.verifyDirIno (entIno mp buf sfep) = false then false
    else if dir3FtMax ≤ entFtype mp buf sfep then false
    else dir2SfVerifyLoop mp buf size i (entNext mp buf sfep)
      (i8count + if dir2MaxShortInum < entIno mp buf sfep then 1 else 0)
      (entOffset buf sfep + dir2DataEntsize mp (entNamelen buf sfep))

def dir2SfVerify (mp : DirMount) (buf : Bytes) (size : Nat) : Bool :=
  if size ≤ 2 ∨ size < dir2SfHdrSize (sfI8count buf) then false
  else if mp.verifyDirIno (sfParentIno buf) = false then false
  else dir2SfVerifyLoop mp buf size (sfCount buf) (dir2SfHdrSize (sfI8count buf))
    (if dir2MaxShortInum < sfParentIno buf then 1 else 0) (dataFirstOffset mp)

end Xfs
