import Xfs.Basic
import Xfs.Lib.ByteBuf

/-! Short-form extended attributes: the list in the literal area of an inode behind the data fork, a
four-byte header and the bytes of its entries. -/
namespace Xfs

inductive AttrNamespace where
  | user
  | root
  | secure
  | parent
deriving Repr, DecidableEq

def attrParent : UInt8 := 8

def attrIncomplete : UInt8 := 128

def attrNspOndiskMask : UInt8 := 14

def AttrNamespace.flags : AttrNamespace → UInt8
  | .user => 0
  | .root => 2
  | .secure => 4
  | .parent => attrParent

structure DaOpFlags where
  addname : Bool
  replace : Bool
  recovery : Bool
deriving Repr, DecidableEq

structure DaArgs where
  attrFilter : AttrNamespace
  name : Bytes
  value : Bytes
  opFlags : DaOpFlags
deriving Repr, DecidableEq

structure AttrSf where
  totsize : Nat
  count : Nat
  data : Bytes
deriving Repr, DecidableEq

def attrSfHdrSize : Nat := 4

def attrSfEntsizeMax : Nat := 255

/-- The size of the fork in bytes. -/
def AttrSf.ifBytes (sf : AttrSf) : Nat := attrSfHdrSize + sf.data.length

/-- The data fork formats and what decides about their size. -/
inductive DataFork where
  | dev
  | loc (bytes : Nat)
  | extents (nextents : Nat)
  | btree (numrecs nextents : Nat)
  | metaBtree (rootBytes : Nat)
deriving Repr, DecidableEq

structure AttrMount where
  inodesize : Nat
  v3inodes : Bool
  hasParent : Bool
deriving Repr, DecidableEq

def AttrMount.litino (mp : AttrMount) : Nat := mp.inodesize - (if mp.v3inodes then 176 else 100)

/-- An inode with its two forks. Without an attribute fork `forkoff` is zero. -/
structure AttrInode where
  mount : AttrMount
  df : DataFork
  forkoff : Nat
  af : Option AttrSf
deriving Repr, DecidableEq

def bmdrSpaceCalc (nrecs : Nat) : Nat := 4 + nrecs * (8 + 8)

/-- `if_bytes` of the data fork. The root of a metadata btree is not in it. -/
def DataFork.ifBytes : DataFork → Nat
  | .dev => 0
  | .loc bytes => bytes
  | .extents nextents => nextents * 16
  | .btree _ nextents => nextents * 16
  | .metaBtree _ => 0

/-- The bytes of the literal area that the data fork takes. -/
def DataFork.size : DataFork → Nat
  | .dev => 4
  | .loc bytes => bytes
  | .extents nextents => nextents * 16
  | .btree numrecs _ => bmdrSpaceCalc numrecs
  | .metaBtree rootBytes => rootBytes

def minDbtPtrs : Nat := 3

def minAbtPtrs : Nat := 2

def inodeAttrForkSize (ip : AttrInode) : Nat :=
  if 0 < ip.forkoff then ip.mount.litino - ip.forkoff * 8 else 0

def defaultAttroffset (mp : AttrMount) : Nat :=
  if mp.inodesize = 256 then mp.litino - bmdrSpaceCalc minAbtPtrs
  else bmdrSpaceCalc (6 * minAbtPtrs)

def roundup8 (x : Nat) : Nat := (x + 7) / 8

def maxForkoff (mp : AttrMount) : Nat := (mp.litino - bmdrSpaceCalc minAbtPtrs) / 8

def bytesfitMove (mp : AttrMount) (dsize offset : Nat) : Nat :=
  if maxForkoff mp ≤ offset then maxForkoff mp
  else if roundup8 (max dsize (bmdrSpaceCalc minDbtPtrs)) ≤ offset then offset
  else 0

/-- The fork offset for the given number of bytes, or zero if they do not fit inline. -/
def attrShortformBytesfit (ip : AttrInode) (bytes : Nat) : Nat :=
  if ip.mount.litino < bytes then 0 else
  let offset := (ip.mount.litino - bytes) / 8
  if ip.df = .dev then
    if roundup8 4 ≤ offset then roundup8 4 else 0
  else if bytes ≤ inodeAttrForkSize ip then ip.forkoff
  else
    match ip.df with
    | .extents nextents =>
      bytesfitMove ip.mount
        (if ip.forkoff = 0 ∧ defaultAttroffset ip.mount < nextents * 16 then
          bmdrSpaceCalc minDbtPtrs else nextents * 16) offset
    | .btree numrecs _ =>
      if ip.forkoff ≠ 0 then
        if offset < ip.forkoff then 0 else ip.forkoff
      else bytesfitMove ip.mount (bmdrSpaceCalc numrecs) offset
    | df => bytesfitMove ip.mount df.ifBytes offset

def attrSfEntsizeByname (nlen vlen : Nat) : Nat := 3 + nlen % 256 + vlen % 256

def sfNamelen (data : Bytes) (o : Nat) : Nat := (data.getD o 0).toNat

def sfValuelen (data : Bytes) (o : Nat) : Nat := (data.getD (o + 1) 0).toNat

def sfFlags (data : Bytes) (o : Nat) : UInt8 := data.getD (o + 2) 0

def attrSfEntsize (data : Bytes) (o : Nat) : Nat := 3 + (sfNamelen data o + sfValuelen data o)

def sfName (data : Bytes) (o : Nat) : Bytes := (data.drop (o + 3)).take (sfNamelen data o)

def sfValue (data : Bytes) (o : Nat) : Bytes :=
  (data.drop (o + 3 + sfNamelen data o)).take (sfValuelen data o)

def attrMatchMask (args : DaArgs) : UInt8 :=
  if args.opFlags.recovery then attrNspOndiskMask else attrNspOndiskMask ||| attrIncomplete

/-- Parent pointers are found by name and value, others by name. -/
def attrMatch (args : DaArgs) (attrFlags : UInt8) (name value : Bytes) : Bool :=
  if args.name.length ≠ name.length then false
  else if args.attrFilter.flags &&& attrMatchMask args ≠ attrFlags &&& attrMatchMask args then false
  else if args.name ≠ name then false
  else if attrFlags &&& attrParent ≠ 0 then decide (value = args.value)
  else true

def attrSfEndptr (sf : AttrSf) : Nat := sf.totsize - attrSfHdrSize

def attrSfFindFrom (args : DaArgs) (data : Bytes) (stop o : Nat) : Option Nat :=
  if o < stop then
    if attrMatch args (sfFlags data o) (sfName data o) (sfValue data o) then some o
    else attrSfFindFrom args data stop (o + attrSfEntsize data o)
  else none
termination_by stop - o
decreasing_by
  unfold attrSfEntsize
  omega

def attrSfFindname (args : DaArgs) (sf : AttrSf) : Option Nat :=
  attrSfFindFrom args sf.data (attrSfEndptr sf) 0

/-- Add a name and value pair to the list. -/
def attrShortformAdd (args : DaArgs) (forkoff : Nat) (ip : AttrInode) (sf : AttrSf) : AttrInode :=
  let size := attrSfEntsizeByname args.name.length args.value.length
  let data := sf.data ++ List.replicate size 0
  let entry := UInt8.ofNat args.name.length :: UInt8.ofNat args.value.length ::
    args.attrFilter.flags :: (args.name ++ args.value)
  { ip with
    forkoff := forkoff
    af := some
      { totsize := (sf.totsize + size) % 2 ^ 16
        count := (sf.count + 1) % 2 ^ 8
        data := overwrite data (attrSfEndptr sf) entry } }

def DataFork.isBtree : DataFork → Bool
  | .btree _ _ => true
  | _ => false

/-- The last attribute is gone and the fork is not about to be used again. -/
def attrSfForkUnused (args : DaArgs) (ip : AttrInode) (totsize : Nat) : Bool :=
  decide (totsize = attrSfHdrSize) && !ip.df.isBtree &&
    !(args.opFlags.addname || args.opFlags.replace) && !ip.mount.hasParent

def attrSfRemovename (args : DaArgs) (ip : AttrInode) (sf : AttrSf) : Except Errno AttrInode :=
  match attrSfFindname args sf with
  | none => if args.opFlags.recovery then .ok ip else .error .enoattr
  | some o =>
    let size := attrSfEntsize sf.data o
    let next := o + size
    let stop := attrSfEndptr sf
    -- cover the hole
    let data := if next < stop then
        overwrite sf.data o ((sf.data.drop next).take (stop - next))
      else sf.data
    let totsize := (sf.totsize + 2 ^ 16 - size) % 2 ^ 16
    if attrSfForkUnused args ip totsize then .ok { ip with forkoff := 0, af := none }
    else
      .ok { ip with
        forkoff := attrShortformBytesfit ip totsize
        af := some
          { totsize := totsize
            count := (sf.count + 255) % 2 ^ 8
            data := data.take (sf.data.length - size) } }

/-- Add a name to the short-form list. An old value of the name goes first. -/
def attrShortformAddname (args : DaArgs) (ip : AttrInode) (sf : AttrSf) :
    Except Errno AttrInode := do
  let ip ← (if (attrSfFindname args sf).isSome then attrSfRemovename args ip sf else pure ip)
  match ip.af with
  | none => .error .efscorrupted
  | some sf =>
    if attrSfEntsizeMax ≤ args.name.length ∨ attrSfEntsizeMax ≤ args.value.length then
      .error .enospc
    else
      let newsize := sf.totsize + attrSfEntsizeByname args.name.length args.value.length
      let forkoff := attrShortformBytesfit ip newsize
      if forkoff = 0 then .error .enospc
      else pure (attrShortformAdd args forkoff ip sf)

def attrCheckNamespace (attrFlags : UInt8) : Bool :=
  decide (attrFlags &&& attrNspOndiskMask = 0) || decide (attrFlags &&& attrNspOndiskMask = 2) ||
    decide (attrFlags &&& attrNspOndiskMask = 4) || decide (attrFlags &&& attrNspOndiskMask = 8)

/-- The loop over the reported entries. Offsets are those behind the header. -/
def attrSfVerifyLoop (data : Bytes) (endp : Nat) : Nat → Nat → Bool
  | 0, o => decide (o = endp)
  | i + 1, o =>
    if endp ≤ o + 3 then false
    else if sfNamelen data o = 0 then false
    else if endp < o + attrSfEntsize data o then false
    else if sfFlags data o &&& ~~~attrNspOndiskMask ≠ 0 then false
    else if attrCheckNamespace (sfFlags data o) = false then false
    else attrSfVerifyLoop data endp i (o + attrSfEntsize data o)

def attrShortformVerify (sf : AttrSf) (size : Nat) : Bool :=
  if size < attrSfHdrSize then false
  else attrSfVerifyLoop sf.data (size - attrSfHdrSize) sf.count 0

end Xfs
