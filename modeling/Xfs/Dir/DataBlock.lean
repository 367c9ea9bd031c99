import Xfs.Dir.ShortForm
import Xfs.Lib.ByteMem

/-! Free space in the data blocks of directories, from `xfs_dir2_data.c`:
unused regions between the entries, and a table of the three best ones in the
header. -/
namespace Xfs

def dir2DataFreeTag : Nat := 0xffff

inductive DataMagic where
  | data2 | data3 | block2 | block3 | other
deriving Repr, DecidableEq

def DataMagic.isBlock : DataMagic → Bool
  | .block2 | .block3 => true
  | _ => false

/-- An entry of the bestfree table. All zero, it is not in use. -/
structure DataFree where
  offset : Nat
  length : Nat
deriving Repr, DecidableEq

structure BestFree where
  b0 : DataFree
  b1 : DataFree
  b2 : DataFree
deriving Repr, DecidableEq

def BestFree.get (bf : BestFree) : Fin 3 → DataFree
  | 0 => bf.b0
  | 1 => bf.b1
  | 2 => bf.b2

def DataFree.zero : DataFree := ⟨0, 0⟩

def BestFree.zero : BestFree := ⟨.zero, .zero, .zero⟩

/-- A data block: the fields of the header, and the bytes by their offset. -/
structure DataBlock where
  magic : DataMagic
  bf : BestFree
  mem : ByteMem

def dataEntryOffset (mp : DirMount) : Nat := if mp.hasCrc then 64 else 16

def blockTailCount (mp : DirMount) (blk : DataBlock) : Nat := get32 blk.mem (mp.blksize - 8)

def dir3DataEndOffset (mp : DirMount) (blk : DataBlock) : Nat :=
  match blk.magic with
  | .block2 | .block3 => mp.blksize - 8 - blockTailCount mp blk * 8
  | .data2 | .data3 => mp.blksize
  | .other => 0

def unusedLength (mem : ByteMem) (dup : Nat) : Nat := get16 mem (dup + 2)

def unusedTag (mem : ByteMem) (dup : Nat) : Nat := get16 mem (dup + unusedLength mem dup - 2)

/-- A new length for an unused region, and the tag at its new end. -/
def setUnusedLength (mem : ByteMem) (dup len : Nat) : ByteMem :=
  let mem := put16 mem (dup + 2) len
  put16 mem (dup + unusedLength mem dup - 2) dup

def putUnused (mem : ByteMem) (dup len : Nat) : ByteMem :=
  setUnusedLength (put16 mem dup dir2DataFreeTag) dup len

def dataNamelen (mem : ByteMem) (dep : Nat) : Nat := (mem (dep + 8)).toNat

def dataFtype (mp : DirMount) (mem : ByteMem) (dep : Nat) : Nat :=
  if mp.hasFtype then
    let ftype := (mem (dep + 9 + dataNamelen mem dep)).toNat
    if ftype < dir3FtMax then ftype else 0
  else 0

def entryTag (mp : DirMount) (mem : ByteMem) (dep : Nat) : Nat :=
  get16 mem (dep + dir2DataEntsize mp (dataNamelen mem dep) - 2)

def dir2DataUnusedsize (len : Nat) : Nat := (len + 7) / 8 * 8

def dir2DataFreefind (bf : BestFree) (mem : ByteMem) (dup : Nat) : Option (Fin 3) :=
  if unusedLength mem dup < bf.b2.length then none
  else if bf.b0.offset = 0 then none
  else if bf.b0.offset = dup then some 0
  else if bf.b1.offset = 0 then none
  else if bf.b1.offset = dup then some 1
  else if bf.b2.offset = 0 then none
  else if bf.b2.offset = dup then some 2
  else none

def dir2DataFreeinsert (bf : BestFree) (new : DataFree) : BestFree × Option (Fin 3) :=
  if bf.b0.length < new.length then (⟨new, bf.b0, bf.b1⟩, some 0)
  else if bf.b1.length < new.length then (⟨bf.b0, new, bf.b1⟩, some 1)
  else if bf.b2.length < new.length then (⟨bf.b0, bf.b1, new⟩, some 2)
  else (bf, none)

def dir2DataFreeremove (bf : BestFree) : Option (Fin 3) → BestFree
  | some 0 => ⟨bf.b1, bf.b2, .zero⟩
  | some 1 => ⟨bf.b0, bf.b2, .zero⟩
  | _ => ⟨bf.b0, bf.b1, .zero⟩

def freeAt (mem : ByteMem) (dup : Nat) : DataFree := ⟨dup, unusedLength mem dup⟩

def freescanLoop (mp : DirMount) (mem : ByteMem) (stop : Nat) :
    Nat → Nat → BestFree → BestFree
  | 0, _, bf => bf
  | fuel + 1, offset, bf =>
    if offset < stop then
      if get16 mem offset = dir2DataFreeTag then
        freescanLoop mp mem stop fuel (offset + unusedLength mem offset)
          (dir2DataFreeinsert bf (freeAt mem offset)).1
      else
        freescanLoop mp mem stop fuel
          (offset + dir2DataEntsize mp (dataNamelen mem offset)) bf
    else bf

def dir2DataFreescan (mp : DirMount) (blk : DataBlock) : DataBlock :=
  let stop := dir3DataEndOffset mp blk
  { blk with bf := freescanLoop mp blk.mem stop stop (dataEntryOffset mp) .zero }

/-- A new data block, all of it unused. -/
def dir3DataInit (mp : DirMount) (mem : ByteMem) : DataBlock :=
  let start := dataEntryOffset mp
  { magic := if mp.hasCrc then .data3 else .data2
    bf := ⟨⟨start, mp.blksize - start⟩, .zero, .zero⟩
    mem := putUnused mem start (mp.blksize - start) }

def prevUnused (mp : DirMount) (mem : ByteMem) (offset : Nat) : Option Nat :=
  if dataEntryOffset mp < offset then
    if get16 mem (get16 mem (offset - 2)) = dir2DataFreeTag then some (get16 mem (offset - 2))
    else none
  else none

def postUnused (mem : ByteMem) (stop offset : Nat) : Option Nat :=
  if offset < stop then
    if get16 mem offset = dir2DataFreeTag then some offset else none
  else none

/-- The table after a region has grown, and whether to scan the block. -/
def growFree (bf : BestFree) (dfp : Option (Fin 3)) (new : DataFree) : BestFree × Bool :=
  match dfp with
  | some i => ((dir2DataFreeinsert (dir2DataFreeremove bf (some i)) new).1, false)
  | none => (bf, decide (bf.b2.length < new.length))

def joinFree (bf : BestFree) (dfp dfp2 : Option (Fin 3)) (new : DataFree) : BestFree × Bool :=
  if bf.b2.length ≠ 0 then (bf, true)
  else
    let (dfp, dfp2) := if dfp = some 1 then (some 0, some 1) else (dfp, dfp2)
    ((dir2DataFreeinsert (dir2DataFreeremove (dir2DataFreeremove bf dfp2) dfp) new).1, false)

/-- Make a byte range unused. The result says whether the table has to be reconstructed. -/
def dir2DataMakeFree (mp : DirMount) (blk : DataBlock) (offset len : Nat) : DataBlock × Bool :=
  match prevUnused mp blk.mem offset,
      postUnused blk.mem (dir3DataEndOffset mp blk) (offset + len) with
  | some prevdup, some postdup =>
    let mem := setUnusedLength blk.mem prevdup
      (unusedLength blk.mem prevdup + (len + unusedLength blk.mem postdup))
    let (bf, needscan) := joinFree blk.bf (dir2DataFreefind blk.bf blk.mem prevdup)
      (dir2DataFreefind blk.bf blk.mem postdup) (freeAt mem prevdup)
    ({ blk with mem := mem, bf := bf }, needscan)
  | some prevdup, none =>
    let mem := setUnusedLength blk.mem prevdup (unusedLength blk.mem prevdup + len)
    let (bf, needscan) := growFree blk.bf (dir2DataFreefind blk.bf blk.mem prevdup)
      (freeAt mem prevdup)
    ({ blk with mem := mem, bf := bf }, needscan)
  | none, some postdup =>
    let mem := putUnused blk.mem offset (len + unusedLength blk.mem postdup)
    let (bf, needscan) := growFree blk.bf (dir2DataFreefind blk.bf blk.mem postdup)
      (freeAt mem offset)
    ({ blk with mem := mem, bf := bf }, needscan)
  | none, none =>
    let mem := putUnused blk.mem offset len
    ({ blk with mem := mem, bf := (dir2DataFreeinsert blk.bf (freeAt mem offset)).1 }, false)

def dir2DataCheckFree (blk : DataBlock) (dup offset len : Nat) : Bool :=
  decide (blk.magic ≠ .other) && decide (get16 blk.mem dup = dir2DataFreeTag) &&
    decide (dup ≤ offset) && decide (offset + len ≤ dup + unusedLength blk.mem dup) &&
    decide (unusedTag blk.mem dup = dup)

def dir2DataCheckNewFree (bf : BestFree) (dfp : Option (Fin 3)) (new : DataFree) : Bool :=
  match dfp with
  | none => false
  | some i => decide (bf.get i = new)

/-- The table after an unused region has lost one of its ends. -/
def trimFree (bf : BestFree) (dfp : Option (Fin 3)) (new : DataFree) :
    Except Errno (BestFree × Bool) :=
  match dfp with
  | none => .ok (bf, false)
  | some i =>
    let (bf, dfp) := dir2DataFreeinsert (dir2DataFreeremove bf (some i)) new
    if dir2DataCheckNewFree bf dfp new then .ok (bf, decide (dfp = some 2))
    else .error .efscorrupted

def dropFree (bf : BestFree) (dfp : Option (Fin 3)) : BestFree × Bool :=
  match dfp with
  | none => (bf, false)
  | some i =>
    if bf.b2.offset ≠ 0 then (bf, true) else (dir2DataFreeremove bf (some i), false)

def cutFree (bf : BestFree) (dfp : Option (Fin 3)) (new new2 : DataFree) : BestFree × Bool :=
  match dfp with
  | none => (bf, false)
  | some i =>
    if bf.b2.length ≠ 0 then (bf, true)
    else
      let bf := (dir2DataFreeinsert (dir2DataFreeremove bf (some i)) new).1
      ((dir2DataFreeinsert bf new2).1, false)

/-- Take a byte range out of an unused space. The result says whether to scan. -/
def dir2DataUseFree (blk : DataBlock) (dup offset len : Nat) :
    Except Errno (DataBlock × Bool) :=
  if dir2DataCheckFree blk dup offset len = false then .error .efscorrupted
  else
    let oldlen := unusedLength blk.mem dup
    let dfp := dir2DataFreefind blk.bf blk.mem dup
    let matchfront := decide (dup = offset)
    let matchback := decide (dup + oldlen = offset + len)
    if matchfront && matchback then
      let (bf, needscan) := dropFree blk.bf dfp
      .ok ({ blk with bf := bf }, needscan)
    else if matchfront then do
      let mem := putUnused blk.mem (offset + len) (oldlen - len)
      let (bf, needscan) ← trimFree blk.bf dfp (freeAt mem (offset + len))
      .ok ({ blk with mem := mem, bf := bf }, needscan)
    else if matchback then do
      let mem := setUnusedLength blk.mem dup (offset - dup)
      let (bf, needscan) ← trimFree blk.bf dfp (freeAt mem dup)
      .ok ({ blk with mem := mem, bf := bf }, needscan)
    else
      let mem := setUnusedLength blk.mem dup (offset - dup)
      let mem2 := putUnused mem (offset + len) (oldlen - len - unusedLength mem dup)
      let (bf, needscan) := cutFree blk.bf dfp (freeAt mem2 dup) (freeAt mem2 (offset + len))
      .ok ({ blk with mem := mem2, bf := bf }, needscan)

def freefindVerifyLoop (off len : Nat) : List DataFree → Option DataFree → Bool → Bool → Bool
  | [], _, _, _ => true
  | dfp :: rest, prev, matched, seenzero =>
    if dfp.offset = 0 then
      decide (dfp.length = 0) && freefindVerifyLoop off len rest (some dfp) matched true
    else if seenzero then false
    else
      let matched := matched || decide (dfp.offset = off)
      (if dfp.offset = off then decide (dfp.length = len)
        else if off < dfp.offset then decide (off + len ≤ dfp.offset)
        else decide (dfp.offset + dfp.length ≤ off)) &&
      (matched || decide (len ≤ dfp.length)) &&
      (prev.all fun p => decide (dfp.length ≤ p.length)) &&
      freefindVerifyLoop off len rest (some dfp) matched false

/-- `xfs_dir2_data_freefind_verify`, without the lookup that follows it -/
def dir2DataFreefindVerify (bf : BestFree) (mem : ByteMem) (dup : Nat) : Bool :=
  freefindVerifyLoop dup (unusedLength mem dup) [bf.b0, bf.b1, bf.b2] none false false

structure LeafSection where
  tailOk : Bool
  listed : Nat → Bool
  totalsOk : Nat → Bool

def dir3DataCheckLoop (mp : DirMount) (blk : DataBlock) (leaf : LeafSection) (stop : Nat) :
    Nat → Nat → (Fin 3 → Bool) → Bool → Nat → Bool
  | 0, _, _, _, _ => false
  | fuel + 1, offset, freeseen, lastfree, count =>
    let mem := blk.mem
    if offset < stop then
      if stop < offset + dir2DataUnusedsize 1 then false
      else if get16 mem offset = dir2DataFreeTag then
        let length := unusedLength mem offset
        let reclen := dir2DataUnusedsize length
        if lastfree then false
        else if length ≠ reclen then false
        else if stop < offset + reclen then false
        else if unusedTag mem offset ≠ offset then false
        else if dir2DataFreefindVerify blk.bf mem offset = false then false
        else
          match dir2DataFreefind blk.bf mem offset with
          | some i =>
            if freeseen i then false
            else dir3DataCheckLoop mp blk leaf stop fuel (offset + reclen)
              (Function.update freeseen i true) true count
          | none =>
            if blk.bf.b2.length < length then false
            else dir3DataCheckLoop mp blk leaf stop fuel (offset + reclen) freeseen true count
      else if stop < offset + dir2DataEntsize mp 1 then false
      else
        let namelen := dataNamelen mem offset
        let reclen := dir2DataEntsize mp namelen
        if namelen = 0 then false
        else if stop < offset + reclen then false
        else if mp.verifyDirIno (get64 mem offset) = false then false
        else if entryTag mp mem offset ≠ offset then false
        else if dir3FtMax ≤ dataFtype mp mem offset then false
        else if blk.magic.isBlock && !leaf.listed offset then false
        else dir3DataCheckLoop mp blk leaf stop fuel (offset + reclen) freeseen false (count + 1)
    else
      freeseen 0 && freeseen 1 && freeseen 2 && (!blk.magic.isBlock || leaf.totalsOk count)

/-- `__xfs_dir3_data_check`: the consistency of a data block -/
def dir3DataCheck (mp : DirMount) (blk : DataBlock) (leaf : LeafSection) : Bool :=
  let bf := blk.bf
  if blk.magic.isBlock && !leaf.tailOk then false
  else if dir3DataEndOffset mp blk = 0 then false
  else if (bf.b0.length = 0 ∧ bf.b0.offset ≠ 0) ∨ (bf.b1.length = 0 ∧ bf.b1.offset ≠ 0) ∨
      (bf.b2.length = 0 ∧ bf.b2.offset ≠ 0) then false
  else if bf.b0.length < bf.b1.length ∨ bf.b1.length < bf.b2.length then false
  else
    dir3DataCheckLoop mp blk leaf (dir3DataEndOffset mp blk) (dir3DataEndOffset mp blk + 1)
      (dataEntryOffset mp) (fun i => decide ((bf.get i).length = 0)) false 0

end Xfs
