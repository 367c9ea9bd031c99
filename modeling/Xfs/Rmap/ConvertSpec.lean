import Xfs.Rmap.OpsSpec

/-! The conversion between written and unwritten extents, where nobody else
can map the blocks. -/
namespace Xfs

open RmapIrec Option List RecordCursor Cursor

/-- The range of a conversion in the data fork, in the given state. -/
def dataRange (bno len owner offset : Nat) (unwritten : Bool) : RmapIrec :=
  ⟨bno, len, owner, offset, dataFlags unwritten⟩

theorem dataRange_ignoreOff {bno len owner offset : Nat} {unwritten : Bool}
    (h : rmapNonInodeOwner owner = false) :
    (dataRange bno len owner offset unwritten).ignoreOff = false := by
  simp [RmapIrec.ignoreOff, rmapIgnoreOff, dataRange, dataFlags, h]

section Convert

variable {g : RmapGroup} {c : RmapCur} {pre post : List RmapIrec} {prev l r x : RmapIrec}
  {bno len owner offset : Nat} {unwritten : Bool} {left right : Option RmapIrec}

theorem rmapConvertLeft_spec (hwf : RmapWF g c.recs) (hc : c.recs = pre ++ prev :: post)
    (hpre : ∀ y ∈ pre, y.startblock + y.blockcount ≤ bno) :
    ∃ c1, rmapConvertLeft g (Cursor.split pre (prev :: post)) bno = .ok (c1, pre.getLast?) ∧
      rmapIncrementFound c1 = .ok (Cursor.split pre (prev :: post)) := by
  rcases eq_nil_or_concat pre with rfl | ⟨pre', y, rfl⟩
  · refine ⟨⟨prev :: post, 0⟩, ?_, by simp [rmapIncrementFound]⟩
    simp [rmapConvertLeft]
  · have hget : rmapGetRecFound g (Cursor.split pre' (y :: prev :: post)) = .ok y := by
      refine rmapGetRecFound_eq ?_ (by simp)
      simpa [hc] using hwf
    have hlt : ¬ bno < y.startblock + y.blockcount := not_lt.mpr (hpre y (by simp))
    refine ⟨Cursor.split pre' (y :: prev :: post), ?_, by simp [rmapIncrementFound]⟩
    simp [rmapConvertLeft, hget, hlt]

theorem rmapConvertRight_spec (hwf : RmapWF g c.recs) (hc : c.recs = pre ++ prev :: post)
    (hpost : ∀ y ∈ post, bno + len ≤ y.startblock) :
    rmapConvertRight g (Cursor.split pre (prev :: post)) bno len = .ok post.head? := by
  cases post with
  | nil => simp [rmapConvertRight]
  | cons z post =>
    have hget : rmapGetRecFound g (Cursor.split (pre ++ [prev]) (z :: post)) = .ok z := by
      refine rmapGetRecFound_eq ?_ (by simp)
      simpa [hc] using hwf
    have hlt : ¬ z.startblock < bno + len := not_lt.mpr (hpost z (by simp))
    simp [rmapConvertRight, hget, hlt]

/-- The extent `prev` of which a part is converted. In its new state that is `x`. -/
structure Converting (g : RmapGroup) (recs pre post : List RmapIrec) (prev x : RmapIrec)
    (bno len owner offset : Nat) (unwritten : Bool) : Prop where
  wf : RmapWF g recs
  apart : Apart recs
  ino : rmapNonInodeOwner owner = false
  pos : 0 < len
  recs_eq : recs = pre ++ prev :: post
  old : (dataRange bno len owner offset unwritten).Within prev
  new : x = dataRange bno len owner offset (!unwritten)

namespace Converting

variable {recs : List RmapIrec} (h : Converting g recs pre post prev x bno len owner offset unwritten)
include h

theorem prev_mem : prev ∈ recs := by simp [h.recs_eq]

theorem pre_mem {y : RmapIrec} (hy : y ∈ pre) : y ∈ recs := by simp [h.recs_eq, hy]

theorem post_mem {y : RmapIrec} (hy : y ∈ post) : y ∈ recs := by simp [h.recs_eq, hy]

theorem bounds : prev.startblock ≤ bno ∧ bno + len ≤ prev.startblock + prev.blockcount :=
  ⟨h.old.start, h.old.fin⟩

theorem pre_end {y : RmapIrec} (hy : y ∈ pre) : y.startblock + y.blockcount ≤ prev.startblock :=
  (Apart.of_append_cons (h.recs_eq ▸ h.apart)).1 y hy

theorem post_start {y : RmapIrec} (hy : y ∈ post) :
    prev.startblock + prev.blockcount ≤ y.startblock :=
  (Apart.of_append_cons (h.recs_eq ▸ h.apart)).2 y hy

theorem ignoreOff : prev.ignoreOff = false := by
  rw [ignoreOff_congr h.old.owner h.old.flags]
  exact dataRange_ignoreOff h.ino

theorem offset_eq : offset = prev.offset + (bno - prev.startblock) := h.old.offset h.ignoreOff

theorem start_eq : x.startblock = bno := by rw [h.new]; rfl

theorem count_eq : x.blockcount = len := by rw [h.new]; rfl

theorem left_fills (hl : l ∈ pre) (hab : l.Abuts x) : prev.startblock = bno := by
  have := hab.block
  have := h.pre_end hl
  have := h.start_eq
  have := h.bounds
  omega

theorem right_fills (hr : r ∈ post) (hab : x.Abuts r) :
    prev.startblock + prev.blockcount = bno + len := by
  have := hab.block
  have := h.post_start hr
  have := h.start_eq
  have := h.count_eq
  have := h.bounds
  omega

end Converting

theorem rmapConvertPlan_spec
    (h : Converting g c.recs pre post prev x bno len owner offset unwritten) :
    rmapConvertPlan g c bno len owner offset unwritten = .ok ⟨prev, pre.getLast?, post.head?,
      ⟨decide (prev.startblock = bno), decide (prev.startblock + prev.blockcount = bno + len),
        pre.getLast?.any (mergesLeft x), post.head?.any (mergesRight x)⟩⟩ ∧
    rmapSeekLe c bno owner offset (dataFlags unwritten) =
      (Cursor.split pre (prev :: post), true) := by
  obtain ⟨h1, h2⟩ := h.bounds
  have hpos := h.pos
  have hoff := h.offset_eq
  obtain ⟨hseek, hlookup⟩ := rmapLookupLe_of_covers owner offset (dataFlags unwritten) h.wf h.recs_eq
    h.apart h1 (by omega) (fun heq => h.old.key_le (h.wf.bounds h.prev_mem).2.2 heq)
  refine ⟨?_, hseek⟩
  -- the tests for the neighbours
  have hleftTest : (fun y : RmapIrec => decide (y.startblock + y.blockcount = bno) &&
      decide (y.offset + y.blockcount = offset) && rmapIsMergeable y owner (dataFlags !unwritten)) =
      mergesLeft x := by
    funext y
    rw [h.new, mergesLeft, dataRange_ignoreOff h.ino, Bool.false_or, Bool.and_comm]
    rfl
  have hrightTest : (fun y : RmapIrec => decide (bno + len = y.startblock) &&
      decide (offset + len = y.offset) && rmapIsMergeable y owner (dataFlags !unwritten)) =
      mergesRight x := by
    funext y
    rw [h.new, mergesRight, dataRange_ignoreOff h.ino, Bool.false_or, Bool.and_comm]
    rfl
  have hlF : decide (prev.offset = offset) = decide (prev.startblock = bno) := by
    rw [decide_eq_decide]
    omega
  have hrF : decide (prev.offset + prev.blockcount = offset + len) =
      decide (prev.startblock + prev.blockcount = bno + len) := by
    rw [decide_eq_decide]
    omega
  have hlimit : ∀ s : ConvertState, s.limit pre.getLast? post.head? len = s := by
    intro s
    unfold ConvertState.limit
    split
    case h_2 => rfl
    case h_1 y z hy hz =>
      have := h.pre_end (mem_of_getLast? hy)
      have := h.post_start (mem_of_mem_head? hz)
      have := (h.wf.bounds (h.post_mem (mem_of_mem_head? hz))).2.1
      rw [if_neg]
      simp only [Bool.and_eq_true, decide_eq_true_eq, not_and]
      intro _
      unfold rmapLenMax
      omega
  obtain ⟨c1, hleft, hinc⟩ :=
    rmapConvertLeft_spec h.wf h.recs_eq (fun y hy => (h.pre_end hy).trans h1)
  have hright := rmapConvertRight_spec h.wf h.recs_eq (fun y hy => h2.trans (h.post_start hy))
  simp only [rmapConvertPlan, hlookup, hleft, hinc, hright, ok_bind]
  rw [hleftTest, hrightTest, hlF, hrF, hlimit]
  rfl

theorem convertEdit_add (lt gt : Option RmapIrec) (h1 : prev.startblock ≤ x.startblock)
    (h2 : x.startblock + x.blockcount ≤ prev.startblock + prev.blockcount) :
    (convertEdit prev x lt gt).add =
      (if prev.startblock = x.startblock then [] else [prev.before x.startblock]) ++
        [joinNeighbours lt x gt] ++
        (if prev.startblock + prev.blockcount = x.startblock + x.blockcount then []
          else [prev.after (x.startblock + x.blockcount)]) := by
  simp [convertEdit, prev.parts_before h1, prev.parts_after h2]

theorem RmapIrec.pack_joinNeighbours {l : RmapIrec} (gt : Option RmapIrec) (n : Nat)
    (hl : l.offset < 2 ^ 54) (hn : n = l.blockcount + x.blockcount + gt.elim 0 RmapIrec.blockcount) :
    ({ l with blockcount := n } : RmapIrec).pack = joinNeighbours (some l) x gt := by
  subst hn
  cases gt <;> exact pack_eq hl

namespace Converting

variable {recs : List RmapIrec}

/-- From the cursor at `prev` the conversion in the given state does the edit. -/
def Converts (_ : Converting g recs pre post prev x bno len owner offset unwritten)
    (as bs : List RmapIrec) (lt gt left right : Option RmapIrec) (state : ConvertState) : Prop :=
  ∃ c', rmapConvertRecs (Cursor.split (as ++ lt.toList) (prev :: (gt.toList ++ bs)))
      ⟨prev, left, right, state⟩ bno len owner offset unwritten = .ok c' ∧
    c'.recs = as ++ (convertEdit prev x lt gt).add ++ bs

variable (h : Converting g recs pre post prev x bno len owner offset unwritten)
include h

theorem add_eq (lt gt : Option RmapIrec) : (convertEdit prev x lt gt).add =
    (if prev.startblock = bno then [] else [prev.before bno]) ++ [joinNeighbours lt x gt] ++
      (if prev.startblock + prev.blockcount = bno + len then [] else [prev.after (bno + len)]) := by
  have hstart := h.start_eq
  have hcount := h.count_eq
  have hbounds := h.bounds
  rw [convertEdit_add _ _ (by omega) (by omega), hstart, hcount]

theorem offset_lt : x.offset < 2 ^ 54 := by
  have hoff := h.offset_eq
  have hbounds := h.bounds
  have hpos := h.pos
  have := h.wf.fileoff prev h.prev_mem h.ignoreOff
  rw [h.new]
  simp only [dataRange]
  omega

theorem pack_new : (dataRange bno len owner offset (!unwritten)).pack = x := by
  rw [← h.new]
  exact pack_eq h.offset_lt

theorem pack_before {n : Nat} (hn : n = bno - prev.startblock) :
    ({ prev with blockcount := n } : RmapIrec).pack = prev.before bno :=
  pack_of_eq (h.wf.offset_lt h.prev_mem :) (by rw [hn]; rfl)

theorem pack_after (hend : prev.startblock + prev.blockcount ≠ bno + len)
    (hr : r = prev.after (bno + len)) : r.pack = prev.after (bno + len) := by
  have hbounds := h.bounds
  exact pack_of_eq (after_offset_lt (c := ⟨recs, 0⟩) h.wf h.prev_mem (by omega) (by omega)) hr

theorem pack_after_start (hbno : prev.startblock = bno)
    (hend : prev.startblock + prev.blockcount ≠ bno + len) :
    ({ prev with
      offset := prev.offset + len
      startblock := prev.startblock + len
      blockcount := prev.blockcount - len } : RmapIrec).pack = prev.after (bno + len) := by
  refine h.pack_after hend ?_
  ext <;> simp only [RmapIrec.after, h.ignoreOff, Bool.false_eq_true, if_false] <;> omega

variable (as bs : List RmapIrec) (left right : Option RmapIrec)

section

variable (hbno : prev.startblock = bno) (hend : prev.startblock + prev.blockcount = bno + len)
include hbno hend

theorem convert_all (hl : l.offset < 2 ^ 54) :
    h.Converts as bs (some l) (some r) (some l) (some r) ⟨true, true, true, true⟩ := by
  have hcount := h.count_eq
  refine ⟨Cursor.split as ({ l with
      blockcount := l.blockcount + (prev.blockcount + r.blockcount) }.pack :: bs), ?_, ?_⟩
  · simp only [toList_some, cons_append, nil_append, rmapConvertRecs, rmapIncrementFound,
      split_increment, isEmpty_cons, Bool.not_false, if_true, rmapDecrementFound, split_decrement,
      rmapBtreeDelete, split_delete, rmapUpdate, split_update, ok_bind, pure_eq_ok]
  · rw [h.add_eq, if_pos hbno, if_pos hend, pack_joinNeighbours (x := x) (some r) _ hl (by simp; omega)]
    simp

theorem convert_allLeft (hl : l.offset < 2 ^ 54) :
    h.Converts as bs (some l) none (some l) right ⟨true, true, true, false⟩ := by
  have hcount := h.count_eq
  refine ⟨Cursor.split as ({ l with blockcount := l.blockcount + prev.blockcount }.pack :: bs),
    ?_, ?_⟩
  · cases right <;> simp [rmapConvertRecs, rmapDecrementFound, rmapBtreeDelete, rmapUpdate]
  · rw [h.add_eq, if_pos hbno, if_pos hend, pack_joinNeighbours (x := x) none _ hl (by simp; omega)]
    simp

theorem convert_allRight :
    h.Converts as bs none (some r) left (some r) ⟨true, true, false, true⟩ := by
  have howner : prev.owner = owner := h.old.owner
  have hoff := h.offset_eq
  have hjoin : ({ prev with
      blockcount := len + r.blockcount, flags := dataFlags (!unwritten) } :
      RmapIrec).pack = x.join r := by
    refine pack_of_eq h.offset_lt ?_
    rw [h.new]
    ext <;> simp only [RmapIrec.join, dataRange] <;> omega
  refine ⟨Cursor.split as (x.join r :: bs), ?_, ?_⟩
  · cases left <;> simp [rmapConvertRecs, rmapIncrementFound, rmapDecrementFound, rmapBtreeDelete,
      rmapUpdate, hjoin]
  · rw [h.add_eq, if_pos hbno, if_pos hend]
    simp [joinNeighbours]

theorem convert_allAlone : h.Converts as bs none none left right ⟨true, true, false, false⟩ := by
  have howner : prev.owner = owner := h.old.owner
  have hoff := h.offset_eq
  have hconv : ({ prev with flags := dataFlags (!unwritten) } : RmapIrec).pack = x := by
    refine pack_of_eq h.offset_lt ?_
    rw [h.new]
    ext <;> simp only [dataRange] <;> omega
  refine ⟨Cursor.split as (x :: bs), ?_, ?_⟩
  · cases left <;> cases right <;> simp [rmapConvertRecs, rmapUpdate, hconv]
  · rw [h.add_eq, if_pos hbno, if_pos hend]
    simp [joinNeighbours]

end

section

variable (hbno : prev.startblock = bno) (hend : prev.startblock + prev.blockcount ≠ bno + len)
include hbno hend

theorem convert_firstLeft (hl : l.offset < 2 ^ 54) :
    h.Converts as bs (some l) none (some l) right ⟨true, false, true, false⟩ := by
  have hcount := h.count_eq
  refine ⟨Cursor.split as ({ l with blockcount := l.blockcount + len }.pack ::
    prev.after (bno + len) :: bs), ?_, ?_⟩
  · cases right <;> simp [rmapConvertRecs, rmapUpdate, h.pack_after_start hbno hend]
  · rw [h.add_eq, if_pos hbno, if_neg hend, pack_joinNeighbours (x := x) none _ hl (by simp; omega)]
    simp

theorem convert_first : h.Converts as bs none none left right ⟨true, false, false, false⟩ := by
  have hnew := h.pack_new
  unfold dataRange at hnew
  refine ⟨Cursor.split as (x :: prev.after (bno + len) :: bs), ?_, ?_⟩
  · cases left <;> cases right <;>
      simp [rmapConvertRecs, rmapUpdate, rmapBtreeInsert, hnew, h.pack_after_start hbno hend]
  · rw [h.add_eq, if_pos hbno, if_neg hend]
    simp [joinNeighbours]

end

theorem lookup_behind (hbno : prev.startblock ≠ bno) (rest : List RmapIrec)
    (hrest : ∀ y ∈ rest, bno < y.startblock) :
    rmapLookupEq (Cursor.split pre (prev.before bno :: rest)) bno owner offset
        (dataFlags unwritten) =
      (Cursor.split (pre ++ [prev.before bno]) rest, false) := by
  obtain ⟨h1, -⟩ := h.bounds
  refine lookupEQ_absent (by simp) (fun y hy => rmapKeyOf_lt_of_lt ?_ _ _ _ _ _ _)
    fun y hy => rmapKeyOf_lt_of_lt (hrest y hy) _ _ _ _ _ _
  rcases mem_append.mp hy with hy | hy
  · have := h.pre_end hy
    have := (h.wf.bounds (h.pre_mem hy)).1
    omega
  · rw [mem_singleton.mp hy]
    exact lt_of_le_of_ne h1 hbno

theorem lt_post {y : RmapIrec} (hy : y ∈ post) : bno < y.startblock := by
  have := h.post_start hy
  have := h.bounds
  have := h.pos
  omega

section

variable (hbno : prev.startblock ≠ bno) (hend : prev.startblock + prev.blockcount = bno + len)
include hbno hend

theorem convert_lastRight (hab : x.Abuts r) :
    h.Converts as bs none (some r) left (some r) ⟨false, true, false, true⟩ := by
  have hstart := h.start_eq
  have hcount := h.count_eq
  have hbefore := h.pack_before (by omega : prev.blockcount - len = bno - prev.startblock)
  have hjoin : ({ r with
      offset := offset, startblock := bno, blockcount := r.blockcount + len } :
      RmapIrec).pack = x.join r := by
    refine pack_of_eq h.offset_lt ?_
    ext
    · simp only [RmapIrec.join]; omega
    · simp only [RmapIrec.join]; omega
    · exact hab.owner.symm
    · rw [h.new]; rfl
    · exact hab.flags.symm
  refine ⟨Cursor.split (as ++ [prev.before bno]) (x.join r :: bs), ?_, ?_⟩
  · cases left <;> simp [rmapConvertRecs, rmapUpdate, hbefore, hjoin]
  · rw [h.add_eq, if_neg hbno, if_pos hend]
    simp [joinNeighbours]

theorem convert_last : h.Converts pre post none none left right ⟨false, true, false, false⟩ := by
  have hnew := h.pack_new
  unfold dataRange at hnew
  have hbefore := h.pack_before (by omega : prev.blockcount - len = bno - prev.startblock)
  have hseek := h.lookup_behind hbno post fun y hy => h.lt_post hy
  refine ⟨Cursor.split (pre ++ [prev.before bno]) (x :: post), ?_, ?_⟩
  · cases left <;> cases right <;>
      simp [rmapConvertRecs, rmapUpdate, hbefore, hseek, rmapBtreeInsert, hnew]
  · rw [h.add_eq, if_neg hbno, if_pos hend]
    simp [joinNeighbours]

end

theorem convert_middle (hbno : prev.startblock ≠ bno)
    (hend : prev.startblock + prev.blockcount ≠ bno + len) :
    h.Converts pre post none none left right ⟨false, false, false, false⟩ := by
  have howner : prev.owner = owner := h.old.owner
  have hoff := h.offset_eq
  have hbounds := h.bounds
  have hpos := h.pos
  have hnew := h.pack_new
  have hflags : ({ dataFlags unwritten with unwritten := (dataFlags (!unwritten)).unwritten } :
      RmapFlags) = dataFlags (!unwritten) := rfl
  unfold dataRange at hnew
  have hbefore := h.pack_before (by omega : offset - prev.offset = bno - prev.startblock)
  have hafter : (⟨bno + len, prev.offset + prev.blockcount - (offset + len), owner,
      offset + len, prev.flags⟩ : RmapIrec).pack = prev.after (bno + len) := by
    refine h.pack_after hend ?_
    ext <;> simp only [RmapIrec.after, h.ignoreOff, Bool.false_eq_true, if_false] <;> omega
  have hseek := h.lookup_behind hbno (prev.after (bno + len) :: post) fun y hy => by
    rcases mem_cons.mp hy with rfl | hy
    · simp only [RmapIrec.after]
      omega
    · exact h.lt_post hy
  refine ⟨Cursor.split (pre ++ [prev.before bno]) (x :: prev.after (bno + len) :: post), ?_, ?_⟩
  · cases left <;> cases right <;>
      simp [rmapConvertRecs, rmapUpdate, hafter, rmapBtreeInsert, hbefore, hseek, hflags, hnew]
  · rw [h.add_eq, if_neg hbno, if_neg hend]
    simp [joinNeighbours]

theorem convert_spec : ∃ pre' post', pre = pre' ++ (pre.getLast?.filter (mergesLeft x)).toList ∧
      post = (post.head?.filter (mergesRight x)).toList ++ post' ∧
      h.Converts pre' post' (pre.getLast?.filter (mergesLeft x))
        (post.head?.filter (mergesRight x)) pre.getLast? post.head?
        ⟨decide (prev.startblock = bno), decide (prev.startblock + prev.blockcount = bno + len),
          pre.getLast?.any (mergesLeft x), post.head?.any (mergesRight x)⟩ := by
  obtain ⟨pre', hpre'⟩ := exists_getLast_filter (mergesLeft x) pre
  obtain ⟨post', hpost'⟩ := exists_head_filter (mergesRight x) post
  refine ⟨pre', post', hpre', hpost', ?_⟩
  rw [← isSome_filter, ← isSome_filter]
  cases hlt : pre.getLast?.filter (mergesLeft x) with
  | some l =>
    obtain ⟨hlast, hm⟩ := filter_eq_some_iff.mp hlt
    have hl := h.wf.offset_lt (h.pre_mem (mem_of_getLast? hlast))
    have hbno := h.left_fills (mem_of_getLast? hlast) (mergesLeft_iff.mp hm).2
    rw [hlast, decide_eq_true hbno]
    cases hgt : post.head?.filter (mergesRight x) with
    | some r =>
      obtain ⟨hhead, hm⟩ := filter_eq_some_iff.mp hgt
      have hend := h.right_fills (mem_of_mem_head? hhead) (mergesRight_iff.mp hm).2
      rw [hhead, decide_eq_true hend]
      exact h.convert_all pre' post' hbno hend hl
    | none =>
      by_cases hend : prev.startblock + prev.blockcount = bno + len
      · rw [decide_eq_true hend]
        exact h.convert_allLeft pre' post' _ hbno hend hl
      · rw [decide_eq_false hend]
        exact h.convert_firstLeft pre' post' _ hbno hend hl
  | none =>
    cases hgt : post.head?.filter (mergesRight x) with
    | some r =>
      obtain ⟨hhead, hm⟩ := filter_eq_some_iff.mp hgt
      have hab := (mergesRight_iff.mp hm).2
      have hend := h.right_fills (mem_of_mem_head? hhead) hab
      rw [hhead, decide_eq_true hend]
      by_cases hbno : prev.startblock = bno
      · rw [decide_eq_true hbno]
        exact h.convert_allRight pre' post' _ hbno hend
      · rw [decide_eq_false hbno]
        exact h.convert_lastRight pre' post' _ hbno hend hab
    | none =>
      obtain rfl : pre = pre' := by simpa [hlt] using hpre'
      obtain rfl : post = post' := by simpa [hgt] using hpost'
      by_cases hbno : prev.startblock = bno <;>
        by_cases hend : prev.startblock + prev.blockcount = bno + len
      · rw [decide_eq_true hbno, decide_eq_true hend]
        exact h.convert_allAlone pre post _ _ hbno hend
      · rw [decide_eq_true hbno, decide_eq_false hend]
        exact h.convert_first pre post _ _ hbno hend
      · rw [decide_eq_false hbno, decide_eq_true hend]
        exact h.convert_last _ _ hbno hend
      · rw [decide_eq_false hbno, decide_eq_false hend]
        exact h.convert_middle _ _ hbno hend

end Converting

theorem rmapConvert_spec (hwf : RmapWF g c.recs) (hd : PhysDisjoint c.recs) {oinfo : OwnerInfo}
    (hino : rmapNonInodeOwner oinfo.owner = false) (hpos : 0 < len) (hr : prev ∈ c.recs)
    (hold : (dataRange bno len oinfo.owner oinfo.offset unwritten).Within prev)
    (hx : x = dataRange bno len oinfo.owner oinfo.offset (!unwritten)) :
    ∃ c' plan pre post lt gt, rmapConvertPlan g c bno len oinfo.owner oinfo.offset unwritten =
        .ok plan ∧ plan.state.impossible = false ∧
      rmapConvert g c bno len unwritten oinfo = .ok c' ∧
      c.recs = pre ++ (convertEdit prev x lt gt).del ++ post ∧
      c'.recs = pre ++ (convertEdit prev x lt gt).add ++ post ∧
      Neighbours c.recs lt x gt ∧
      ∀ y ∈ c.recs, (mergesLeft x y → lt = some y) ∧ (mergesRight x y → gt = some y) := by
  obtain ⟨pre, post, hc⟩ := append_of_mem hr
  have h : Converting g c.recs pre post prev x bno len oinfo.owner oinfo.offset unwritten :=
    ⟨hwf, hwf.apart hd, hino, hpos, hc, hold, hx⟩
  obtain ⟨hplan, hseek⟩ := rmapConvertPlan_spec h
  obtain ⟨pre', post', hpre', hpost', c', hrecs, hc'⟩ := h.convert_spec
  rw [← hpre', ← hpost'] at hrecs
  obtain ⟨h1, h2⟩ := h.bounds
  have hstart := h.start_eq
  have hcount := h.count_eq
  have hpreEnd : ∀ y ∈ pre, y.startblock + y.blockcount ≤ x.startblock := fun y hy =>
    (h.pre_end hy).trans (by omega)
  have hpostStart : ∀ y ∈ post, x.startblock + x.blockcount ≤ y.startblock := fun y hy =>
    le_trans (by omega) (h.post_start hy)
  refine ⟨c', _, pre', post', _, _, hplan, ?_, ?_, ?_, hc', ?_, ?_⟩
  · simp only [ConvertState.impossible, Bool.or_eq_false_iff, Bool.and_eq_false_iff,
      Bool.not_eq_false', decide_eq_true_eq]
    constructor
    · cases hany : pre.getLast?.any (mergesLeft x) with
      | true =>
        obtain ⟨l, hl, hm⟩ := any_eq_true _ _ |>.mp hany
        exact .inr (h.left_fills (mem_of_getLast? hl) (mergesLeft_iff.mp hm).2)
      | false => exact .inl rfl
    · cases hany : post.head?.any (mergesRight x) with
      | true =>
        obtain ⟨r, hr, hm⟩ := any_eq_true _ _ |>.mp hany
        exact .inr (h.right_fills (mem_of_mem_head? hr) (mergesRight_iff.mp hm).2)
      | false => exact .inl rfl
  · simp only [rmapConvert, hplan, hseek, Bool.true_eq_false, if_false]
    exact hrecs
  · rw [hc]
    nth_rewrite 1 [hpre', hpost']
    simp [convertEdit]
  · refine ⟨fun l hl => ?_, fun r hr' => ?_, fun l hl => ?_, fun r hr' => ?_⟩
    · exact h.pre_mem (mem_of_getLast? (filter_eq_some_iff.mp hl).1)
    · exact h.post_mem (mem_of_mem_head? (filter_eq_some_iff.mp hr').1)
    · exact (mergesLeft_iff.mp (filter_eq_some_iff.mp hl).2).2
    · exact (mergesRight_iff.mp (filter_eq_some_iff.mp hr').2).2
  · intro y hy
    have hsub : (pre ++ post).Sublist c.recs := by
      rw [hc]
      exact (sublist_cons_self prev post).append_left pre
    have hapart := h.apart.sublist hsub
    have hposAll : ∀ y ∈ pre ++ post, 0 < y.blockcount := fun y hy =>
      (hwf.bounds (hsub.subset hy)).1
    have hother : y ≠ prev → y ∈ pre ++ post := by
      intro hne
      rw [hc] at hy
      simp only [mem_append, mem_cons] at hy ⊢
      tauto
    refine ⟨fun hm => ?_, fun hm => ?_⟩
    · have hab := (mergesLeft_iff.mp hm).2.block
      have hne : y ≠ prev := by
        rintro rfl
        omega
      rw [getLast?_of_abuts hapart hposAll hpreEnd hpostStart (hother hne) hab, filter_some_pos hm]
    · have hab := (mergesRight_iff.mp hm).2.block
      have hne : y ≠ prev := by
        rintro rfl
        omega
      rw [head?_of_abuts hapart hposAll hpreEnd hpostStart (hother hne) hab, filter_some_pos hm]

end Convert

end Xfs
