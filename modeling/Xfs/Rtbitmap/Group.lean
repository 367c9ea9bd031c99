import Xfs.Rtbitmap.FileSpec

/-! A realtime group: its bitmap, the summary of its free extents, and the freeing of a range. The
bitmap is a file of words all of whose blocks can be read. -/
namespace Xfs

structure RtGeometry where
  hasRtgroups : Bool
  blocklog : Nat
  rextents : Nat
  rtgExtents : Nat
  blocklog_ge : 9 ≤ blocklog
  blocklog_le : blocklog ≤ 16
  rtgExtents_le : rtgExtents ≤ rextents

def rtbufBlkinfoSize : Nat := 48

/-- The bytes of a block that hold words. -/
def rtbmblockSize (g : RtGeometry) : Nat :=
  if g.hasRtgroups then 2 ^ g.blocklog - rtbufBlkinfoSize else 2 ^ g.blocklog

def howmany (x y : Nat) : Nat := (x + (y - 1)) / y

namespace RtGeometry

variable (g : RtGeometry)

def blockwsize : Nat := rtbmblockSize g / 4

def rtxPerRbmblock : Nat := g.blockwsize * 32

def blkbitLog : Nat := g.blocklog + 3

def rbmblocks : Nat := howmany g.rextents g.rtxPerRbmblock

/-- One level for every power of two an extent can reach. -/
def rsumlevels : Nat := (if g.rextents = 0 then 0 else g.rextents.log2) + 1

def rsumblocks : Nat := howmany (g.rbmblocks * g.rsumlevels) g.blockwsize

theorem blockwsize_old (h : g.hasRtgroups = false) : g.blockwsize = 2 ^ (g.blocklog - 2) := by
  have hlog := g.blocklog_ge
  rw [blockwsize, rtbmblockSize, h]
  have hpow : 2 ^ g.blocklog = 2 ^ (g.blocklog - 2) * 2 ^ 2 := by
    rw [← pow_add]
    congr 1
    omega
  simp only [Bool.false_eq_true, if_false]
  omega

theorem blockwsize_pos : 0 < g.blockwsize := by
  have hpow : 2 ^ 9 ≤ 2 ^ g.blocklog := Nat.pow_le_pow_right (by decide) g.blocklog_ge
  unfold blockwsize rtbmblockSize rtbufBlkinfoSize
  split <;> omega

theorem blockwsize_le : g.blockwsize ≤ 2 ^ 14 := by
  have hpow : 2 ^ g.blocklog ≤ 2 ^ 16 := Nat.pow_le_pow_right (by decide) g.blocklog_le
  unfold blockwsize rtbmblockSize
  split <;> omega

/-- The bitmap file with the given words. -/
def file (words : Nat → Nat → RtWord) : RtFile where
  hasRtgroups := g.hasRtgroups
  blockwsize := g.blockwsize
  blkbitLog := g.blkbitLog
  rbmblocks := g.rbmblocks
  words := words
  readErr := fun _ => none
  blockwsize_pos := g.blockwsize_pos
  blkbitLog_eq h := by
    have hlog := g.blocklog_ge
    rw [g.blockwsize_old h, blkbitLog, show (32 : Nat) = 2 ^ 5 from rfl, ← pow_add]
    congr 1
    omega

@[simp] theorem file_words (words : Nat → Nat → RtWord) : (g.file words).words = words := rfl

end RtGeometry

/-- The bitmap block of an extent, which does not depend on the words. -/
def rtxToRbmblock (g : RtGeometry) (rtx : Nat) : Nat := (g.file fun _ _ => 0#32).rtxToRbmblock rtx

/-- The place of a counter in the summary, a number of 32 bits. -/
def rtsumoffs (g : RtGeometry) (log2Len rbmoff : Nat) : Nat :=
  (log2Len * g.rbmblocks + rbmoff) % 2 ^ 32

def rtsumoffsToBlock (g : RtGeometry) (rsumoff : Nat) : Nat :=
  if g.hasRtgroups then rsumoff / g.blockwsize else (rsumoff * 4) >>> g.blocklog

def rtsumoffsToInfoword (g : RtGeometry) (rsumoff : Nat) : Nat :=
  if g.hasRtgroups then rsumoff % g.blockwsize else rsumoff &&& ((2 ^ g.blocklog - 1) >>> 2)

/-- The words of both files, and cached bounds on the levels in use. -/
structure RtState where
  bitmap : Nat → Nat → RtWord
  summary : Nat → Nat → RtWord
  rsumCache : Option (Nat → Nat)

def RtState.setSuminfo (st : RtState) (block infoword : Nat) (value : RtWord) : RtState :=
  { st with summary := fun b w => if b = block ∧ w = infoword then value else st.summary b w }

def rtsummaryReadBuf (g : RtGeometry) (block : Nat) : RtFileM Unit :=
  if g.rsumblocks ≤ block then .error (.err .efscorrupted) else .ok ()

/-- Keep the cached level above every level that is in use. -/
def rsumCacheUpdate (cache : Nat → Nat) (log bbno : Nat) (val : RtWord) : Nat → Nat :=
  let cache := if val = 0#32 ∧ log + 1 = cache bbno then Function.update cache bbno log else cache
  if val ≠ 0#32 ∧ cache bbno ≤ log then Function.update cache bbno (log + 1) else cache

/-- Add to the counter for extents of a size that start in a bitmap block. -/
def rtmodifySummary (g : RtGeometry) (st : RtState) (log bbno : Nat) (delta : Int) :
    RtFileM RtState := do
  let so := rtsumoffs g log bbno
  let block := rtsumoffsToBlock g so
  rtsummaryReadBuf g block
  let infoword := rtsumoffsToInfoword g so
  let val := st.summary block infoword + BitVec.ofInt 32 delta
  let st := st.setSuminfo block infoword val
  pure { st with rsumCache := st.rsumCache.map (rsumCacheUpdate · log bbno val) }

/-- Mark a range free and move the counters from the free extents it joins to the new one. -/
def rtfreeRange (g : RtGeometry) (st : RtState) (start len : Nat) : RtFileM RtState := do
  let fin := start + len - 1
  let file ← (g.file st.bitmap).rtmodifyRange start len true
  let st := { st with bitmap := file.words }
  let preblock ← file.rtfindBack start
  let postblock ← file.rtfindForw fin (g.rtgExtents - 1)
  let st ← (if preblock < start then
      rtmodifySummary g st (start - preblock).log2 (rtxToRbmblock g preblock) (-1)
    else pure st)
  let st ← (if fin < postblock then
      rtmodifySummary g st (postblock - fin).log2 (rtxToRbmblock g (fin + 1)) (-1)
    else pure st)
  rtmodifySummary g st (postblock + 1 - preblock).log2 (rtxToRbmblock g preblock) 1

/-- A set bit is a free extent. -/
def rtFree (g : RtGeometry) (st : RtState) (rtx : Nat) : Bool := (g.file st.bitmap).bit rtx

section Geometry

variable {g : RtGeometry} {st : RtState} {q block word start len limit : Nat}

theorem rtxToRbmblock_eq (rtx : Nat) : rtxToRbmblock g rtx = rtx / 32 / g.blockwsize :=
  @RtFile.rtxToRbmblock_div (g.file fun _ _ => 0#32) rtx

/-- How many extents the bitmap file has bits for. -/
def RtGeometry.capacity (g : RtGeometry) : Nat := g.rbmblocks * g.rtxPerRbmblock

theorem RtGeometry.rtgExtents_le_capacity (g : RtGeometry) : g.rtgExtents ≤ g.capacity := by
  have hpos : 0 < g.rtxPerRbmblock := Nat.mul_pos g.blockwsize_pos (by decide)
  refine g.rtgExtents_le.trans ?_
  unfold RtGeometry.capacity RtGeometry.rbmblocks howmany
  have hlt := Nat.lt_div_mul_add (a := g.rextents + (g.rtxPerRbmblock - 1)) hpos
  omega

theorem block_lt_of_word (h : q * 32 < g.capacity) : q / g.blockwsize < g.rbmblocks := by
  rw [Nat.div_lt_iff_lt_mul g.blockwsize_pos]
  unfold RtGeometry.capacity RtGeometry.rtxPerRbmblock at h
  rw [← mul_assoc] at h
  exact Nat.lt_of_mul_lt_mul_right h

theorem readable_of_lt (words : Nat → Nat → RtWord) {x : Nat} (h : x < g.capacity) :
    (g.file words).Readable x := by
  have hblock := block_lt_of_word (show x / 32 * 32 < g.capacity by omega)
  rw [RtFile.Readable, RtFile.rtxToRbmblock_div]
  exact if_neg (not_le.mpr hblock)

theorem rtfreeRange_bitmap (st : RtState) (hpos : 0 < len) (hlen : len < 2 ^ 31)
    (hin : start + len ≤ g.rtgExtents) :
    ∃ words pre post, (g.file st.bitmap).rtmodifyRange start len true = .ok (g.file words) ∧
      (g.file words).rtfindBack start = .ok pre ∧
      (g.file words).rtfindForw (start + len - 1) (g.rtgExtents - 1) = .ok post ∧
      (∀ x, (g.file words).bit x = if start ≤ x ∧ x < start + len then true else rtFree g st x) ∧
      BackTo (g.file words).bit start pre ∧
      ForwTo (g.file words).bit (start + len - 1) (g.rtgExtents - 1) post := by
  have hcap := g.rtgExtents_le_capacity
  have hread : ∀ words x, x < g.rtgExtents → (g.file words).Readable x :=
    fun words x hx => readable_of_lt words (by omega)
  obtain ⟨file', hmodify, hframe, hbits⟩ := RtFile.rtmodifyRange_changed true hlen
    (hread st.bitmap start (by omega)) fun j hj => hread st.bitmap (start + j) (by omega)
  have hfile : file' = g.file file'.words := hframe
  generalize file'.words = words at hfile
  subst hfile
  have hreads : (g.file words).ReadsBack start := fun x hx _ => hread words x (by omega)
  obtain ⟨pre, hback, hpre⟩ := RtFile.rtfindBack_backTo hreads
  have hlimit : start + len - 1 ≤ g.rtgExtents - 1 := by omega
  obtain ⟨post, hforw, hpost⟩ := @RtFile.rtfindForw_forwTo (g.file words) _ _ hlimit
    fun j hj _ => hread words _ (by omega)
  exact ⟨words, pre, post, hmodify, hback, hforw, hbits, hpre, hpost⟩

end Geometry

end Xfs
