import Xfs.Rtbitmap.Words

/-! The primitives of the realtime bitmap over a file of any geometry, some of whose blocks may be
unreadable. -/
namespace Xfs

/-- The blocks of the bitmap file. Without rtgroups they have a power of two of words. -/
structure RtFile where
  hasRtgroups : Bool
  blockwsize : Nat
  blkbitLog : Nat
  rbmblocks : Nat
  words : Nat → Nat → RtWord
  readErr : Nat → Option Errno
  blockwsize_pos : 0 < blockwsize
  blkbitLog_eq : hasRtgroups = false → 2 ^ blkbitLog = blockwsize * 32

/-- A block cannot be read, or C leaves it undefined: a negative shift, an `int` overflow. -/
inductive RtFault where
  | err (e : Errno)
  | undefined
deriving DecidableEq, Repr

abbrev RtFileM := Except RtFault

namespace RtFile

variable (file : RtFile)

def rtxPerRbmblock : Nat := file.blockwsize * 32

def rtxToRbmblock (rtx : Nat) : Nat :=
  if file.hasRtgroups then rtx / file.rtxPerRbmblock else rtx >>> file.blkbitLog

def rtxToRbmword (rtx : Nat) : Nat :=
  if file.hasRtgroups then (rtx >>> 5) % file.blockwsize else (rtx >>> 5) &&& (file.blockwsize - 1)

def rtbitmapReadBuf (block : Nat) : RtFileM Unit :=
  if file.rbmblocks ≤ block then .error (.err .efscorrupted)
  else
    match file.readErr block with
    | some e => .error (.err e)
    | none => .ok ()

def setword (block word : Nat) (value : RtWord) : RtFile :=
  { file with words := fun b w => if b = block ∧ w = word then value else file.words b w }

def nextWord (block word i len : Nat) : RtFileM (Nat × Nat) :=
  if word + 1 = file.blockwsize ∧ i < len then do
    file.rtbitmapReadBuf (block + 1)
    pure (block + 1, 0)
  else pure (block, word + 1)

def prevWord (block word i len : Nat) : RtFileM (Nat × Nat) :=
  if word = 0 ∧ i < len then
    if block = 0 then .error (.err .efscorrupted)
    else do
      file.rtbitmapReadBuf (block - 1)
      pure (block - 1, file.blockwsize - 1)
  else pure (block, word - 1)

/-- The bit at distance `i` differs, or the scan goes on in the given word. -/
inductive Span where
  | differs (i : Nat)
  | agrees (i block word : Nat)
deriving DecidableEq, Repr

def scanForwFirst (start len lastbit : Nat) (want : RtWord) (block word : Nat) : RtFileM Span :=
  let bit := start &&& 31
  if bit ≠ 0 then
    if lastbit < bit then .error .undefined
    else
      let mask := rtMask (lastbit - bit) bit
      let wdiff := (file.words block word ^^^ want) &&& mask
      if wdiff ≠ 0#32 then pure (.differs (lowbit32 wdiff - bit))
      else do
        let i := lastbit - bit
        let (block, word) ← file.nextWord block word i len
        pure (.agrees i block word)
  else pure (.agrees 0 block word)

def scanForwWords (len : Nat) (want : RtWord) (i block word : Nat) : RtFileM Span :=
  if 32 ≤ len - i then
    let wdiff := file.words block word ^^^ want
    if wdiff ≠ 0#32 then pure (.differs (i + lowbit32 wdiff))
    else do
      let (block', word') ← file.nextWord block word (i + 32) len
      scanForwWords len want (i + 32) block' word'
  else pure (.agrees i block word)
termination_by len - i

def scanForwLast (len : Nat) (want : RtWord) (i block word : Nat) : Option Nat :=
  let lastbit := len - i
  if lastbit ≠ 0 then
    let mask := rtMask lastbit 0
    let wdiff := (file.words block word ^^^ want) &&& mask
    if wdiff ≠ 0#32 then some (i + lowbit32 wdiff) else none
  else none

/-- The distance of the first bit that differs from `want`, or `none` if `len` bits agree. -/
def scanForw (start len lastbit : Nat) (want : RtWord) (block word : Nat) :
    RtFileM (Option Nat) := do
  match ← file.scanForwFirst start len lastbit want block word with
  | .differs i => pure (some i)
  | .agrees i block word =>
    match ← file.scanForwWords len want i block word with
    | .differs i => pure (some i)
    | .agrees i block word => pure (file.scanForwLast len want i block word)

/-- Search forward up to `limit` for the last extent with the state of `start`. -/
def rtfindForw (start limit : Nat) : RtFileM Nat := do
  let block := file.rtxToRbmblock start
  file.rtbitmapReadBuf block
  let word := file.rtxToRbmword start
  let bit := start &&& 31
  let len := limit - start + 1
  let want := rtWant (file.words block word) bit
  match ← file.scanForw start len (min (bit + len) 32) want block word with
  | some i => pure (start + i - 1)
  | none => pure (start + len - 1)

/-- Check that the range is all allocated or all free. Sums have 32 bits. -/
def rtcheckRange (start len : Nat) (val : Bool) : RtFileM (Nat × Bool) := do
  let block := file.rtxToRbmblock start
  file.rtbitmapReadBuf block
  let word := file.rtxToRbmword start
  let bit := start &&& 31
  let want := if val then BitVec.allOnes 32 else 0#32
  match ← file.scanForw start len (min (add32 bit len) 32) want block word with
  | some i => pure (start + i, false)
  | none => pure (start + len, true)

def scanBackFirst (start len : Nat) (want : RtWord) (block word : Nat) : RtFileM Span :=
  let bit := start &&& 31
  if bit < 31 then
    let firstbit := bit + 1 - len
    let mask := rtMask (bit - firstbit + 1) firstbit
    let wdiff := (file.words block word ^^^ want) &&& mask
    if wdiff ≠ 0#32 then pure (.differs (bit - highbit32 wdiff))
    else do
      let i := bit - firstbit + 1
      let (block, word) ← file.prevWord block word i len
      pure (.agrees i block word)
  else pure (.agrees 0 block word)

def scanBackWords (len : Nat) (want : RtWord) (i block word : Nat) : RtFileM Span :=
  if 32 ≤ len - i then
    let wdiff := file.words block word ^^^ want
    if wdiff ≠ 0#32 then pure (.differs (i + (31 - highbit32 wdiff)))
    else do
      let (block', word') ← file.prevWord block word (i + 32) len
      scanBackWords len want (i + 32) block' word'
  else pure (.agrees i block word)
termination_by len - i

/-- The partial last word of a backward scan. The answer is the number of bits that agree. -/
def scanBackLast (len : Nat) (want : RtWord) (i block word : Nat) : Nat :=
  if len - i ≠ 0 then
    let firstbit := 32 - (len - i)
    let mask := rtMask (len - i) firstbit
    let wdiff := (file.words block word ^^^ want) &&& mask
    if wdiff ≠ 0#32 then i + (31 - highbit32 wdiff) else len
  else i

def rtfindBack (start : Nat) : RtFileM Nat := do
  let block := file.rtxToRbmblock start
  file.rtbitmapReadBuf block
  let word := file.rtxToRbmword start
  let len := start + 1
  let want := rtWant (file.words block word) (start &&& 31)
  match ← file.scanBackFirst start len want block word with
  | .differs i => pure (start + 1 - i)
  | .agrees i block word =>
    match ← file.scanBackWords len want i block word with
    | .differs i => pure (start + 1 - i)
    | .agrees i block word => pure (start + 1 - file.scanBackLast len want i block word)

def modifyFirst (start len : Nat) (val : Bool) (block word : Nat) :
    RtFileM (RtFile × Nat × Nat × Nat) :=
  let bit := start &&& 31
  if bit ≠ 0 then
    let lastbit := min (add32 bit len) 32
    if lastbit < bit then .error .undefined
    else do
      let mask := rtMask (lastbit - bit) bit
      let i := lastbit - bit
      let (block', word') ← file.nextWord block word i len
      pure (file.setword block word (rtApplyMask (file.words block word) mask val), i, block', word')
  else pure (file, 0, block, word)

/-- The whole words of a change. The distance from the start is an `int`. -/
def modifyWords (file : RtFile) (len : Nat) (val : Bool) (i block word : Nat) :
    RtFileM (RtFile × Nat × Nat × Nat) :=
  if 32 ≤ len - i then
    if 2 ^ 31 ≤ i + 32 then .error .undefined
    else do
      let (block', word') ← file.nextWord block word (i + 32) len
      modifyWords (file.setword block word (if val then BitVec.allOnes 32 else 0#32)) len val
        (i + 32) block' word'
  else pure (file, i, block, word)
termination_by len - i

def rtmodifyRange (start len : Nat) (val : Bool) : RtFileM RtFile := do
  let block := file.rtxToRbmblock start
  file.rtbitmapReadBuf block
  let word := file.rtxToRbmword start
  let (file, i, block, word) ← file.modifyFirst start len val block word
  let (file, i, block, word) ← file.modifyWords len val i block word
  let lastbit := len - i
  if lastbit ≠ 0 then
    let mask := rtMask lastbit 0
    pure (file.setword block word (rtApplyMask (file.words block word) mask val))
  else pure file

end RtFile

end Xfs
