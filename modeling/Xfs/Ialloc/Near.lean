import Xfs.Basic
import Xfs.Lib.RecordCursor

/-! The search of `xfs_ialloc.c` for a free inode near its parent. The free
inode btree is its list of records in the order of their first inodes. -/
namespace Xfs

open RecordCursor Cursor

/-- `XFS_INODES_PER_CHUNK`, a 64-bit number: sums with it are taken to 64 bits. -/
def inodesPerChunk : Nat := 64

/-- The in-core inode record. A set bit of `holemask` takes four inodes out
of the chunk. -/
structure InobtIrec where
  startino : Nat
  holemask : BitVec 16
  count : Nat
  freecount : Nat
  free : BitVec 64
deriving Repr, DecidableEq

/-- The inode numbers of an allocation group. -/
structure InodeGroup where
  aginoMin : Nat
  aginoMax : Nat
  aginoMax_lt : aginoMax < 2 ^ 32

abbrev InobtCur := Cursor InobtIrec

def verifyAgino (g : InodeGroup) (agino : Nat) : Bool :=
  decide (g.aginoMin ≤ agino) && decide (agino ≤ g.aginoMax)

def inobtRecFreecount (r : InobtIrec) : Nat :=
  (List.range inodesPerChunk).countP fun i => r.free.getLsbD i && !r.holemask.getLsbD (i / 4)

def inobtCheckIrec (g : InodeGroup) (r : InobtIrec) : Bool :=
  verifyAgino g r.startino && verifyAgino g (add32 r.startino (inodesPerChunk - 1)) &&
    decide (4 ≤ r.count ∧ r.count ≤ inodesPerChunk) && decide (r.freecount ≤ inodesPerChunk) &&
    decide (inobtRecFreecount r = r.freecount)

def inobtLookupLe (ino : Nat) (cur : InobtCur) : InobtCur × Bool := cur.lookupLE InobtIrec.startino ino

def inobtLookupGe (ino : Nat) (cur : InobtCur) : InobtCur × Bool := cur.lookupGE InobtIrec.startino ino

/-- The record under the cursor, if any. A malformed record is an error. -/
def inobtGetRec (g : InodeGroup) (cur : InobtCur) : Except Errno (Option InobtIrec) :=
  match cur.rec? with
  | none => .ok none
  | some r => if inobtCheckIrec g r then .ok (some r) else .error .efscorrupted

def inobtGetFound (g : InodeGroup) (look : InobtCur × Bool) : Except Errno (Option InobtIrec) :=
  if look.2 = false then .ok none else do
    match ← inobtGetRec g look.1 with
    | some r => pure (some r)
    | none => throw .efscorrupted

/-- The choice around `pagino`, by the comparison as it is grouped in the source. -/
def finobtNearChoose (pagino : Nat) (lcur rcur : InobtCur) :
    Option InobtIrec → Option InobtIrec → Except Errno (InobtIrec × InobtCur)
  | some rec, some rrec =>
    if add64 (sub32 pagino rec.startino) (inodesPerChunk - 1) > sub32 rrec.startino pagino then
      .ok (rrec, rcur)
    else .ok (rec, lcur)
  | none, some rrec => .ok (rrec, rcur)
  | some rec, none => .ok (rec, lcur)
  | none, none => .error .efscorrupted

def diallocAgFinobtNear (g : InodeGroup) (pagino : Nat) (ocur : InobtCur) :
    Except Errno (InobtIrec × InobtCur) := do
  let left ← inobtGetFound g (inobtLookupLe pagino ocur)
  let lcur := (inobtLookupLe pagino ocur).1
  -- The chunk of the parent itself has a free inode.
  match left.filter fun rec => rec.startino ≤ pagino ∧ pagino < add64 rec.startino inodesPerChunk with
  | some rec => pure (rec, lcur)
  | none =>
    let right ← inobtGetFound g (inobtLookupGe pagino lcur)
    finobtNearChoose pagino lcur (inobtLookupGe pagino lcur).1 left right

/-- The candidate to look at next. One is missing when its side is done. -/
def diallocInobtUseleft (pagino : Nat) : Option InobtIrec → Option InobtIrec → Bool
  | some trec, some rec =>
    decide (sub64 pagino (sub64 (add64 trec.startino inodesPerChunk) 1) < sub32 rec.startino pagino)
  | trec, _ => trec.isSome

def chunkDistance (pagino : Nat) (r : InobtIrec) : Nat :=
  if pagino < r.startino then r.startino - pagino else pagino - (r.startino + 63)

def Nearest (pagino : Nat) (recs : List InobtIrec) (r : InobtIrec) : Prop :=
  ∀ s ∈ recs, chunkDistance pagino r ≤ chunkDistance pagino s

/-- Records that the btree may hold: in order, each of a chunk inside the group. -/
structure InobtRecs (g : InodeGroup) (recs : List InobtIrec) : Prop where
  ordered : Ordered InobtIrec.startino recs
  check : ∀ r ∈ recs, inobtCheckIrec g r = true
  chunk_lt : ∀ r ∈ recs, r.startino + 63 < 2 ^ 32

structure Around (pagino : Nat) (recs : List InobtIrec) (l r : InobtIrec) : Prop where
  left_mem : l ∈ recs
  right_mem : r ∈ recs
  left_lt : l.startino + 63 < pagino
  lt_right : pagino < r.startino
  outside : ∀ s ∈ recs, s.startino ≤ l.startino ∨ r.startino ≤ s.startino

/-- The left chunk is nearer, and the right one less than 126 inodes farther away. -/
def LeftPassedOver (pagino : Nat) (recs : List InobtIrec) : Prop :=
  ∃ l r, Around pagino recs l r ∧ chunkDistance pagino l < chunkDistance pagino r ∧
    chunkDistance pagino r < chunkDistance pagino l + 126

section

variable {g : InodeGroup} {recs : List InobtIrec} {cur : InobtCur} {pagino : Nat} {l r : InobtIrec}
  {s : InobtIrec}

theorem inobtGetFound_ok {look : InobtCur × Bool} (h : InobtRecs g look.1.recs)
    (hlook : look.2 = look.1.rec?.isSome) : inobtGetFound g look = .ok look.1.rec? := by
  unfold inobtGetFound inobtGetRec
  cases hr : look.1.rec? with
  | none => rw [if_pos (by rw [hlook, hr]; rfl)]
  | some r =>
    rw [if_neg (by rw [hlook, hr]; simp)]
    simp only [if_pos (h.check r (mem_of_rec? hr)), ok_bind]
    rfl

theorem inobtGetFound_le (h : InobtRecs g cur.recs) (ino : Nat) :
    inobtGetFound g (inobtLookupLe ino cur) = .ok (inobtLookupLe ino cur).1.rec? :=
  inobtGetFound_ok h (lookupLE_snd _ _)

theorem inobtGetFound_ge (h : InobtRecs g cur.recs) (ino : Nat) :
    inobtGetFound g (inobtLookupGe ino cur) = .ok (inobtLookupGe ino cur).1.rec? :=
  inobtGetFound_ok h (lookupGE_snd _ _)

theorem chunkDistance_le_left (hl : l.startino ≤ pagino) (hs : s.startino ≤ l.startino) :
    chunkDistance pagino l ≤ chunkDistance pagino s := by
  unfold chunkDistance
  split_ifs <;> omega

theorem chunkDistance_le_right (hr : pagino < r.startino) (hs : r.startino ≤ s.startino) :
    chunkDistance pagino r ≤ chunkDistance pagino s := by
  unfold chunkDistance
  split_ifs <;> omega

section

variable (hl : l.startino + 63 < pagino) (hr : pagino < r.startino) (hlt : r.startino + 63 < 2 ^ 32)
include hl hr hlt

theorem near_comparison_iff :
    add64 (sub32 pagino l.startino) (inodesPerChunk - 1) > sub32 r.startino pagino ↔
      chunkDistance pagino r < chunkDistance pagino l + 126 := by
  rw [sub32_eq (by omega) (by omega), sub32_eq (by omega) (by omega),
    add64_eq (by unfold inodesPerChunk; omega)]
  unfold chunkDistance inodesPerChunk
  rw [if_pos hr, if_neg (by omega)]
  omega

theorem diallocInobtUseleft_iff : diallocInobtUseleft pagino (some l) (some r) ↔
      chunkDistance pagino l < chunkDistance pagino r := by
  have hend : sub64 (add64 l.startino inodesPerChunk) 1 = l.startino + 63 := by
    rw [add64_eq (by unfold inodesPerChunk; omega)]
    exact sub64_eq (by unfold inodesPerChunk; omega) (by unfold inodesPerChunk; omega)
  unfold diallocInobtUseleft chunkDistance
  rw [decide_eq_true_iff, hend, sub64_eq (by omega) (by omega), sub32_eq (by omega) (by omega),
    if_pos hr, if_neg (by omega)]

end

section

variable (h : Around pagino recs l r)
include h

theorem Around.nearest_left_iff :
    Nearest pagino recs l ↔ chunkDistance pagino l ≤ chunkDistance pagino r := by
  have hleft := h.left_lt
  refine ⟨fun hn => hn r h.right_mem, fun hle s hs => ?_⟩
  rcases h.outside s hs with hsl | hsr
  · exact chunkDistance_le_left (by omega) hsl
  · exact hle.trans (chunkDistance_le_right h.lt_right hsr)

theorem Around.nearest_right_iff :
    Nearest pagino recs r ↔ chunkDistance pagino r ≤ chunkDistance pagino l := by
  have hleft := h.left_lt
  refine ⟨fun hn => hn l h.left_mem, fun hle s hs => ?_⟩
  rcases h.outside s hs with hsl | hsr
  · exact hle.trans (chunkDistance_le_left (by omega) hsl)
  · exact chunkDistance_le_right h.lt_right hsr

theorem Around.leftPassedOver_iff :
    LeftPassedOver pagino recs ↔ chunkDistance pagino l < chunkDistance pagino r ∧
      chunkDistance pagino r < chunkDistance pagino l + 126 := by
  refine ⟨?_, fun hd => ⟨l, r, h, hd⟩⟩
  rintro ⟨l', r', h', hnear, hfar⟩
  have hl := h.outside l' h'.left_mem
  have hr := h.outside r' h'.right_mem
  have hl' := h'.outside l h.left_mem
  have hr' := h'.outside r h.right_mem
  have := h.left_lt
  have := h.lt_right
  have := h'.left_lt
  have := h'.lt_right
  rw [show chunkDistance pagino l = chunkDistance pagino l' by
      unfold chunkDistance; rw [show l.startino = l'.startino by omega],
    show chunkDistance pagino r = chunkDistance pagino r' by
      unfold chunkDistance; rw [show r.startino = r'.startino by omega]]
  exact ⟨hnear, hfar⟩

theorem finobtNearChoose_around (hrecs : InobtRecs g recs) (lcur rcur : InobtCur) :
    (finobtNearChoose pagino lcur rcur (some l) (some r) = .ok (l, lcur) ∧
        Nearest pagino recs l ∧ ¬ LeftPassedOver pagino recs) ∨
      (finobtNearChoose pagino lcur rcur (some l) (some r) = .ok (r, rcur) ∧
        (Nearest pagino recs r ↔ ¬ LeftPassedOver pagino recs)) := by
  have hcmp := near_comparison_iff h.left_lt h.lt_right (hrecs.chunk_lt r h.right_mem)
  rw [h.nearest_left_iff, h.nearest_right_iff, h.leftPassedOver_iff]
  by_cases hfar : chunkDistance pagino r < chunkDistance pagino l + 126
  · exact .inr ⟨if_pos (hcmp.mpr hfar), by omega⟩
  · exact .inl ⟨if_neg (mt hcmp.mp hfar), by omega, by omega⟩

end

theorem not_leftPassedOver_of_mem (hl : l ∈ recs) (hle : l.startino ≤ pagino)
    (hlt : pagino < l.startino + 64) : ¬ LeftPassedOver pagino recs := by
  rintro ⟨l', r', ⟨-, -, hlt', hgt', hout⟩, -⟩
  have := hout l hl
  omega

section Search

variable (hrecs : InobtRecs g cur.recs)
include hrecs

theorem diallocAgFinobtNear_own (hl : (inobtLookupLe pagino cur).1.rec? = some l)
    (hlt : pagino < l.startino + 64) :
    diallocAgFinobtNear g pagino cur = .ok (l, (inobtLookupLe pagino cur).1) := by
  obtain ⟨hmem, hle, -⟩ := lookupLE_rec?_some hrecs.ordered hl
  have hchunk := hrecs.chunk_lt l hmem
  have hin : l.startino ≤ pagino ∧ pagino < add64 l.startino inodesPerChunk := by
    rw [add64_eq (by unfold inodesPerChunk; omega)]
    exact ⟨hle, hlt⟩
  unfold diallocAgFinobtNear
  rw [inobtGetFound_le hrecs, hl, ok_bind, Option.filter_some_pos (by simpa using hin)]
  rfl

theorem diallocAgFinobtNear_choose
    (hl : ∀ l, (inobtLookupLe pagino cur).1.rec? = some l → l.startino + 64 ≤ pagino) :
    diallocAgFinobtNear g pagino cur = finobtNearChoose pagino (inobtLookupLe pagino cur).1
        (inobtLookupGe pagino cur).1
        (inobtLookupLe pagino cur).1.rec?
        (inobtLookupGe pagino cur).1.rec? := by
  unfold diallocAgFinobtNear
  rw [inobtGetFound_le hrecs, ok_bind, Option.filter_eq_none_iff.mpr]
  · exact congrArg (· >>= _) (inobtGetFound_ge hrecs pagino)
  · intro l hfound hin
    have hfar := hl l hfound
    have hchunk := hrecs.chunk_lt l (lookupLE_rec?_some hrecs.ordered hfound).1
    rw [decide_eq_true_eq, add64_eq (by unfold inodesPerChunk; omega)] at hin
    unfold inodesPerChunk at hin
    omega

end Search

/-- The search finds a record, and it is that of the nearest chunk unless a
nearer left chunk is passed over. The other search compares the distances. -/
theorem finobt_near_nearest_iff (hrecs : InobtRecs g cur.recs) (hne : cur.recs ≠ []) (pagino : Nat) :
    (∃ rec cur', diallocAgFinobtNear g pagino cur = .ok (rec, cur') ∧ cur'.recs = cur.recs ∧
      cur'.rec? = some rec ∧
      (Nearest pagino cur.recs rec ↔ ¬ LeftPassedOver pagino cur.recs)) ∧
    ∀ l ∈ cur.recs, ∀ r ∈ cur.recs, l.startino + 63 < pagino → pagino < r.startino →
      (diallocInobtUseleft pagino (some l) (some r) = true ↔
        chunkDistance pagino l < chunkDistance pagino r) := by
  refine ⟨?_, fun l _ r hr hlt hgt => diallocInobtUseleft_iff hlt hgt (hrecs.chunk_lt r hr)⟩
  have hnone := seek_rec?_none (c := (inobtLookupGe pagino cur).1) hrecs.ordered rfl
  have hsome : ∀ r, _ := fun r =>
    seek_rec?_some (c := (inobtLookupGe pagino cur).1) (r := r) hrecs.ordered rfl
  cases hl : (inobtLookupLe pagino cur).1.rec? with
  | none =>
    have habove := (lookupLE_rec?_none hl).2
    have hnear := diallocAgFinobtNear_choose hrecs fun l' hl' => by
      cases hl.symm.trans hl'
    cases hr : (inobtLookupGe pagino cur).1.rec? with
    | none =>
      obtain ⟨s, hs⟩ := List.exists_mem_of_ne_nil _ hne
      exact absurd (hnone hr s hs) (habove s hs).not_gt
    | some r =>
      obtain ⟨hmem, -, hleast⟩ := hsome r hr
      refine ⟨r, (inobtLookupGe pagino cur).1, by rw [hnear, hl, hr]; rfl, rfl, hr,
        iff_of_true (fun s hs => ?_) ?_⟩
      · exact chunkDistance_le_right (habove r hmem) (hleast s hs (habove s hs).le)
      · rintro ⟨l, -, ⟨hl, -, hlt, -, -⟩, -⟩
        have := habove l hl
        omega
  | some l =>
    obtain ⟨hmem, hle, hmax⟩ := lookupLE_rec?_some hrecs.ordered hl
    by_cases hown : pagino < l.startino + 64
    · refine ⟨l, _, diallocAgFinobtNear_own hrecs hl hown, rfl, hl, iff_of_true (fun s _ => ?_) ?_⟩
      · rw [show chunkDistance pagino l = 0 by unfold chunkDistance; split_ifs <;> omega]
        exact Nat.zero_le _
      · exact not_leftPassedOver_of_mem hmem hle hown
    have hnear := diallocAgFinobtNear_choose hrecs fun l' hl' => by
      cases hl.symm.trans hl'
      exact Nat.le_of_not_lt hown
    cases hr : (inobtLookupGe pagino cur).1.rec? with
    | none =>
      refine ⟨l, (inobtLookupLe pagino cur).1, by rw [hnear, hl, hr]; rfl, rfl, hl,
        iff_of_true (fun s hs => ?_) ?_⟩
      · exact chunkDistance_le_left hle (hmax s hs (hnone hr s hs).le)
      · rintro ⟨-, r, ⟨-, hmem, -, hgt, -⟩, -⟩
        exact absurd (hnone hr r hmem) hgt.not_gt
    | some r =>
      obtain ⟨hrmem, hge, hleast⟩ := hsome r hr
      have haround : Around pagino cur.recs l r := by
        refine ⟨hmem, hrmem, by omega, ?_, fun s hs => ?_⟩
        · have := hmax r hrmem
          omega
        · have h1 := hmax s hs
          have h2 := hleast s hs
          omega
      rw [hnear, hl, hr]
      rcases finobtNearChoose_around haround hrecs _ _ with ⟨hrun, hn, hnot⟩ | ⟨hrun, hiff⟩
      · exact ⟨l, _, hrun, rfl, hl, iff_of_true hn hnot⟩
      · exact ⟨r, _, hrun, rfl, hr, hiff⟩

end

def sampleInodeGroup : InodeGroup := ⟨64, 1023, by decide⟩

def freeChunk (startino : Nat) : InobtIrec := ⟨startino, 0#16, 64, 64, BitVec.allOnes 64⟩

theorem freeChunks_inobtRecs : InobtRecs sampleInodeGroup [freeChunk 128, freeChunk 256] :=
  ⟨by unfold Ordered; decide, by decide, by decide⟩

/-- Inode 240 is 49 inodes after the left chunk and 16 before the right one. -/
theorem finobt_near_nearest_sample :
    ∃ rec cur', diallocAgFinobtNear sampleInodeGroup 240 ⟨[freeChunk 128, freeChunk 256], 0⟩ =
      .ok (rec, cur') ∧ Nearest 240 [freeChunk 128, freeChunk 256] rec := by
  obtain ⟨⟨rec, cur', hrun, -, -, hiff⟩, -⟩ :=
    @finobt_near_nearest_iff _ ⟨[freeChunk 128, freeChunk 256], 0⟩ freeChunks_inobtRecs (by decide) 240
  have haround : Around 240 [freeChunk 128, freeChunk 256] (freeChunk 128) (freeChunk 256) :=
    ⟨by decide, by decide, by decide, by decide, by decide⟩
  refine ⟨rec, cur', hrun, hiff.mpr ?_⟩
  rw [haround.leftPassedOver_iff]
  decide

/-- Inode 200 is nine inodes after the left chunk, and the right chunk, which
starts 56 inodes later, is chosen. -/
theorem finobt_near_left_passed_over :
    ∃ cur', diallocAgFinobtNear sampleInodeGroup 200 ⟨[freeChunk 128, freeChunk 256], 0⟩ =
      .ok (freeChunk 256, cur') ∧ ¬ Nearest 200 [freeChunk 128, freeChunk 256] (freeChunk 256) :=
  ⟨⟨[freeChunk 128, freeChunk 256], 2⟩, by decide, by unfold Nearest; decide⟩

end Xfs
