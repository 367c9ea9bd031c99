import Xfs.Rmap.Records

/-! The operations on mappings that nobody else can map: each is the edit its
name says, on any record set without overlaps. -/
namespace Xfs

open Option List RecordCursor Cursor

def OwnerInfo.range (oinfo : OwnerInfo) (bno len : Nat) (unwritten : Bool) : RmapIrec :=
  ⟨bno, len, oinfo.owner, oinfo.offset, oinfo.flags unwritten⟩

section Lists

variable {pre del add post recs : List RmapIrec} {a b d : RmapIrec}

theorem Apart.replace (h : Apart (pre ++ del ++ post)) (hadd : Apart add)
    (hpre : ∀ p ∈ pre, ∀ a ∈ add, p.startblock + p.blockcount ≤ a.startblock)
    (hpost : ∀ a ∈ add, ∀ q ∈ post, a.startblock + a.blockcount ≤ q.startblock) :
    Apart (pre ++ add ++ post) := by
  obtain ⟨hleft, hp3, hcross⟩ := pairwise_append.mp h
  obtain ⟨hp1, -, -⟩ := pairwise_append.mp hleft
  refine pairwise_append.mpr ⟨pairwise_append.mpr ⟨hp1, hadd, hpre⟩, hp3, ?_⟩
  intro a ha q hq
  rcases mem_append.mp ha with ha | ha
  · exact hcross a (mem_append_left _ ha) q hq
  · exact hpost a ha q hq

theorem Apart.of_append_cons (h : Apart (pre ++ d :: post)) :
    (∀ p ∈ pre, p.startblock + p.blockcount ≤ d.startblock) ∧
      ∀ q ∈ post, d.startblock + d.blockcount ≤ q.startblock := by
  obtain ⟨-, hd, hcross⟩ := pairwise_append.mp h
  exact ⟨fun p hp => hcross p hp d mem_cons_self, (pairwise_cons.mp hd).1⟩

end Lists

theorem RmapIrec.parts_before (r : RmapIrec) {b : Nat} (h : r.startblock ≤ b) :
    (r.before b).parts = if r.startblock = b then [] else [r.before b] := by
  have hcount : (r.before b).blockcount = b - r.startblock := rfl
  unfold RmapIrec.parts
  by_cases hb : r.startblock = b
  · rw [if_pos (by omega), if_pos hb]
  · rw [if_neg (by omega), if_neg hb]

theorem RmapIrec.parts_after (r : RmapIrec) {b : Nat} (h : b ≤ r.startblock + r.blockcount) :
    (r.after b).parts = if r.startblock + r.blockcount = b then [] else [r.after b] := by
  have hcount : (r.after b).blockcount = r.startblock + r.blockcount - b := rfl
  unfold RmapIrec.parts
  by_cases hb : r.startblock + r.blockcount = b
  · rw [if_pos (by omega), if_pos hb]
  · rw [if_neg (by omega), if_neg hb]

section Unmap

variable {g : RmapGroup} {c : RmapCur} {pre post : List RmapIrec} {r x : RmapIrec}
  {bno len : Nat}

theorem rmapLookupLe_of_covers (owner offset : Nat) (flags : RmapFlags)
    (hwf : RmapWF g c.recs) (hc : c.recs = pre ++ r :: post)
    (ha : Apart c.recs) (h1 : r.startblock ≤ bno) (h2 : bno < r.startblock + r.blockcount)
    (hk : r.startblock = bno → rmapKey r ≤ rmapKeyOf bno owner offset flags) :
    c.lookupLE rmapKey (rmapKeyOf bno owner offset flags) = (Cursor.split pre (r :: post), true) ∧
    rmapLookupLe g c bno owner offset flags = .ok (Cursor.split pre (r :: post), some r) := by
  obtain ⟨hpre, hpost⟩ := Apart.of_append_cons (hc ▸ ha)
  have hpos : ∀ y ∈ c.recs, 0 < y.blockcount := fun y hy => (hwf.bounds hy).1
  have hseek : c.lookupLE rmapKey (rmapKeyOf bno owner offset flags) =
      (Cursor.split pre (r :: post), true) := by
    refine lookupLE_split hc (fun y hy => ?_) ?_ (fun y hy => ?_)
    · have := hpre y hy
      have := hpos y (by rw [hc]; exact mem_append_left _ hy)
      exact (rmapKeyOf_lt_of_lt (by omega) _ _ _ _ _ _).le
    · rcases h1.lt_or_eq with hlt | heq
      · exact (rmapKeyOf_lt_of_lt hlt _ _ _ _ _ _).le
      · exact hk heq
    · have := hpost y hy
      exact rmapKeyOf_lt_of_lt (by omega) _ _ _ _ _ _
  refine ⟨hseek, ?_⟩
  have hget : rmapGetRecFound g (Cursor.split pre (r :: post)) = .ok r :=
    rmapGetRecFound_eq (by simpa [← hc] using hwf) (by simp)
  simp [rmapLookupLe, hseek, hget]

theorem RmapIrec.Within.key_le (h : x.Within r) (hoff : r.ignoreOff → r.offset = 0)
    (heq : r.startblock = x.startblock) :
    rmapKey r ≤ rmapKey x := by
  have howner := h.owner
  have hflags := h.flags
  refine not_lt.mp fun hlt => ?_
  rcases rmapKeyOf_lt_iff.mp hlt with hlt | ⟨-, hlt | ⟨-, hlt⟩⟩
  · omega
  · omega
  unfold rmapOffsetKey at hlt
  rw [hflags] at hlt
  have hle : r.offset % 2 ^ 54 ≤ x.offset % 2 ^ 54 := by
    cases hi : r.ignoreOff with
    | true => rw [hoff hi]; exact Nat.zero_le _
    | false => rw [h.offset hi, heq, Nat.sub_self, Nat.add_zero]
  omega

theorem RmapIrec.after_offset_lt (hwf : RmapWF g c.recs) (hr : r ∈ c.recs) {b : Nat}
    (h1 : r.startblock ≤ b) (h2 : b < r.startblock + r.blockcount) :
    (r.after b).offset < 2 ^ 54 := by
  cases hi : r.ignoreOff with
  | true =>
    have := (hwf.bounds hr).2.2 hi
    simp [RmapIrec.after, hi, this]
  | false =>
    have := hwf.fileoff r hr hi
    simp only [RmapIrec.after, hi, Bool.false_eq_true, if_false]
    omega

theorem rmapFreeCheckOwner_ok (hx : x.Within r) (hown : x.owner ≠ rmapOwnUnknown) :
    rmapFreeCheckOwner r x.blockcount x.owner x.offset x.flags = .ok () := by
  have howner := hx.owner
  have hflags := hx.flags
  have hfin := hx.fin
  have hstart := hx.start
  unfold rmapFreeCheckOwner
  rw [if_neg hown, if_neg (by rw [hflags]; simp), if_neg (by rw [howner]; simp)]
  split
  · rfl
  case isFalse hN =>
  split
  case isTrue hB => rw [hflags, if_pos hB]
  case isFalse hB =>
    have hoff := hx.offset (by
      unfold RmapIrec.ignoreOff rmapIgnoreOff
      rw [howner, hflags]
      simp [hN, hB])
    rw [if_neg (by omega), if_neg (by omega)]

variable {oinfo : OwnerInfo}

variable {unwritten : Bool}

theorem rmapUnmap_spec (hwf : RmapWF g c.recs) (hd : PhysDisjoint c.recs) (hpos : 0 < len)
    (hr : r ∈ c.recs) (hx : (oinfo.range bno len unwritten).Within r)
    (hunk : oinfo.owner ≠ rmapOwnUnknown) (hnull : oinfo.owner ≠ rmapOwnNull) :
    ∃ c' pre post, rmapUnmap g c bno len unwritten oinfo = .ok c' ∧ c.recs = pre ++ [r] ++ post ∧
      c'.recs = pre ++ (unmapEdit r (oinfo.range bno len unwritten)).add ++ post := by
  have ha := hwf.apart hd
  obtain ⟨pre, post, hc⟩ := append_of_mem hr
  obtain ⟨hcount, -, hignZero⟩ := hwf.bounds hr
  have hoff := hwf.offset_lt hr
  have h1 : r.startblock ≤ bno := hx.start
  have h2 : bno + len ≤ r.startblock + r.blockcount := hx.fin
  have howner : r.owner = oinfo.owner := hx.owner
  have hflags : r.flags = oinfo.flags unwritten := hx.flags
  have hign : (rmapNonInodeOwner oinfo.owner || oinfo.bmbtBlock) = r.ignoreOff := by
    simp [RmapIrec.ignoreOff, rmapIgnoreOff, howner, hflags, OwnerInfo.flags]
  obtain ⟨-, hlookup⟩ := rmapLookupLe_of_covers oinfo.owner oinfo.offset
    (oinfo.flags unwritten) hwf hc ha h1 (by omega) (fun heq => hx.key_le hignZero heq)
  have hcheck := rmapFreeCheckOwner_ok hx hunk
  simp only [OwnerInfo.range] at hcheck
  have hrun : rmapUnmap g c bno len unwritten oinfo =
      rmapUnmapRec (Cursor.split pre (r :: post)) r bno len oinfo.offset (oinfo.flags unwritten)
        r.ignoreOff := by
    simp only [rmapUnmap, hlookup, ok_bind, if_neg hnull, rmapUnmapNothing, hunk,
      false_and, if_false, pure_eq_ok, Bool.false_eq_true, hcheck, hign]
    rw [if_neg (by omega)]
  rw [hrun]
  have hlist : c.recs = pre ++ [r] ++ post := by rw [hc, append_assoc, singleton_append]
  have hbefore := r.parts_before h1
  have hafter := r.parts_after h2
  have hpackB : (r.before bno).pack = r.before bno := RmapIrec.pack_eq hoff
  have hpackA : bno + len < r.startblock + r.blockcount →
      (r.after (bno + len)).pack = r.after (bno + len) := fun hlt =>
    RmapIrec.pack_eq (RmapIrec.after_offset_lt hwf hr (by omega) hlt)
  simp only [unmapEdit, OwnerInfo.range, hbefore, hafter, rmapUnmapRec]
  by_cases hs : r.startblock = bno
  case pos =>
    by_cases he : r.blockcount = len
    case pos =>
      refine ⟨Cursor.split pre post, pre, post, ?_, hlist, ?_⟩
      · simp [hs, he, rmapBtreeDelete]
      · rw [if_pos hs, if_pos (by omega)]
        simp
    case neg =>
      refine ⟨Cursor.split pre (r.after (bno + len) :: post), pre, post, ?_, hlist, ?_⟩
      · rw [if_neg (fun h => he h.2), if_pos hs, rmapUpdate, ← hpackA (by omega), split_update]
        congr 4
        ext
        · simp only [RmapIrec.after]; omega
        · simp only [RmapIrec.after]; omega
        · rfl
        · simp [RmapIrec.after, hs]
        · rfl
      · rw [if_pos hs, if_neg (by omega)]
        simp
  case neg =>
    by_cases he : r.startblock + r.blockcount = bno + len
    case pos =>
      refine ⟨Cursor.split pre (r.before bno :: post), pre, post, ?_, hlist, ?_⟩
      · rw [if_neg (fun h => hs h.1), if_neg hs, if_pos he, rmapUpdate, ← hpackB, split_update]
        congr 4
        ext <;> simp only [RmapIrec.before]
        omega
      · rw [if_neg hs, if_pos he]
        simp
    case neg =>
      refine ⟨Cursor.split (pre ++ [r.before bno]) (r.after (bno + len) :: post), pre, post, ?_,
        hlist, ?_⟩
      · rw [if_neg (fun h => hs h.1), if_neg hs, if_neg he]
        have hupd : rmapUpdate (Cursor.split pre (r :: post))
            { r with blockcount := bno - r.startblock } = Cursor.split pre (r.before bno :: post) := by
          rw [rmapUpdate, split_update]
          exact congrArg _ (congrArg (· :: post) hpackB)
        rw [hupd, split_increment, split_insert, ← hpackA (by omega)]
        dsimp only
        congr 4
        ext
        · rfl
        · simp only [RmapIrec.after]; omega
        · rfl
        · simp only [RmapIrec.after]
          cases hi : r.ignoreOff with
          | true => simp [hignZero hi]
          | false =>
            have := hx.offset hi
            simp only [OwnerInfo.range] at this
            simp only [Bool.false_eq_true, if_false]
            omega
        · exact hflags.symm
      · rw [if_neg hs, if_neg he]
        simp

end Unmap

section Map

variable {g : RmapGroup} {c : RmapCur} {pre post : List RmapIrec} {l r x : RmapIrec}
  {bno len : Nat}

theorem rmapLookupLe_gap (bno owner offset : Nat) (flags : RmapFlags) (hwf : RmapWF g c.recs)
    (hc : c.recs = pre ++ post)
    (hpre : ∀ y ∈ pre, rmapKey y < rmapKeyOf bno owner offset flags)
    (hpost : ∀ y ∈ post, rmapKeyOf bno owner offset flags < rmapKey y) :
    ∃ c1, rmapLookupLe g c bno owner offset flags = .ok (c1, pre.getLast?) ∧
      c1.increment = (Cursor.split pre post, !post.isEmpty) := by
  rcases eq_nil_or_concat pre with rfl | ⟨pre', l, rfl⟩
  · refine ⟨⟨c.recs, 0⟩, ?_, by rw [increment_zero, hc]; rfl⟩
    have hseek : c.lookupLE rmapKey (rmapKeyOf bno owner offset flags) = (⟨c.recs, 0⟩, false) :=
      lookupLE_zero (by rw [hc]; exact hpost)
    simp [rmapLookupLe, hseek]
  simp only [concat_eq_append] at *
  have hc' : c.recs = pre' ++ l :: post := by rw [hc, append_assoc, singleton_append]
  have hseek := lookupLE_split hc' (fun y hy => (hpre y (mem_append_left _ hy)).le)
    (hpre l (mem_append_right _ mem_cons_self)).le hpost
  have hget : rmapGetRecFound g (Cursor.split pre' (l :: post)) = .ok l :=
    rmapGetRecFound_eq (by simpa [← hc'] using hwf) (by simp)
  refine ⟨Cursor.split pre' (l :: post), ?_, split_increment _ _ _⟩
  simp [rmapLookupLe, hseek, hget]

theorem rmapIsMergeable_iff {owner : Nat} {flags : RmapFlags} : rmapIsMergeable r owner flags ↔
      r.owner ≠ rmapOwnNull ∧ r.owner = owner ∧ r.flags = flags := by
  unfold rmapIsMergeable
  obtain ⟨a, b, u⟩ := flags
  cases hf : r.flags with
  | mk a' b' u' =>
    simp only [ne_eq, RmapFlags.mk.injEq, Bool.if_false_left, Bool.and_true, Bool.and_eq_true,
      Bool.not_eq_true', decide_eq_false_iff_not, not_not]
    constructor
    · rintro ⟨h1, h2, h3, h4, h5⟩
      exact ⟨h1, h2, h4.symm, h5.symm, h3.symm⟩
    · rintro ⟨h1, h2, h3, h4, h5⟩
      exact ⟨h1, h2, h5.symm, h3.symm, h4.symm⟩

def mergesLeft (x l : RmapIrec) : Bool :=
  rmapIsMergeable l x.owner x.flags &&
    (decide (l.startblock + l.blockcount = x.startblock) &&
      (x.ignoreOff || decide (l.offset + l.blockcount = x.offset)))

def mergesRight (x r : RmapIrec) : Bool :=
  rmapIsMergeable r x.owner x.flags &&
    (decide (x.startblock + x.blockcount = r.startblock) &&
      (x.ignoreOff || decide (x.offset + x.blockcount = r.offset)))

theorem mergesLeft_iff : mergesLeft x l ↔ l.owner ≠ rmapOwnNull ∧ l.Abuts x := by
  simp only [mergesLeft, Bool.and_eq_true, rmapIsMergeable_iff, decide_eq_true_eq, Bool.or_eq_true]
  constructor
  · rintro ⟨⟨hnull, hown, hfl⟩, hblk, hoff⟩
    refine ⟨hnull, hblk, hown, hfl, fun hi => ?_⟩
    rcases hoff with hx | hoff
    · rw [RmapIrec.ignoreOff_congr hown hfl, hx] at hi
      cases hi
    · exact hoff
  · rintro ⟨hnull, h⟩
    refine ⟨⟨hnull, h.owner, h.flags⟩, h.block, ?_⟩
    cases hi : l.ignoreOff with
    | true => exact .inl (RmapIrec.ignoreOff_congr h.owner h.flags ▸ hi)
    | false => exact .inr (h.offset hi)

theorem mergesRight_iff : mergesRight x r ↔ r.owner ≠ rmapOwnNull ∧ x.Abuts r := by
  simp only [mergesRight, Bool.and_eq_true, rmapIsMergeable_iff, decide_eq_true_eq, Bool.or_eq_true]
  constructor
  · rintro ⟨⟨hnull, hown, hfl⟩, hblk, hoff⟩
    refine ⟨hnull, hblk, hown.symm, hfl.symm, fun hi => ?_⟩
    rcases hoff with hx | hoff
    · rw [hx] at hi
      cases hi
    · exact hoff
  · rintro ⟨hnull, h⟩
    refine ⟨⟨hnull, h.owner.symm, h.flags.symm⟩, h.block, ?_⟩
    cases hi : x.ignoreOff with
    | true => exact .inl rfl
    | false => exact .inr (h.offset hi)

theorem rmapMapRec_spec (hwf : RmapWF g c.recs) (hc : c.recs = pre ++ post)
    (hnew : rmapCheckBtrec g x) (hoff : x.offset < 2 ^ 54) :
    ∃ c' pre' post', rmapMapRec (Cursor.split pre post)
        (pre.getLast?.filter (fun lt => rmapIsMergeable lt x.owner x.flags))
        (post.head?.filter (fun gt => rmapIsMergeable gt x.owner x.flags))
        x.startblock x.blockcount x.owner x.offset x.flags x.ignoreOff = .ok c' ∧
      pre = pre' ++ (pre.getLast?.filter (mergesLeft x)).toList ∧
      post = (post.head?.filter (mergesRight x)).toList ++ post' ∧
      c'.recs = pre' ++ [joinNeighbours (pre.getLast?.filter (mergesLeft x)) x
        (post.head?.filter (mergesRight x))] ++ post' := by
  obtain ⟨pre', hpre'⟩ := exists_getLast_filter (mergesLeft x) pre
  obtain ⟨post', hpost'⟩ := exists_head_filter (mergesRight x) post
  have hlt : ((pre.getLast?.filter (fun lt => rmapIsMergeable lt x.owner x.flags)).filter
      (fun lt => decide (lt.startblock + lt.blockcount = x.startblock) &&
        (x.ignoreOff || decide (lt.offset + lt.blockcount = x.offset)))) =
      pre.getLast?.filter (mergesLeft x) := by
    rw [Option.filter_filter]
    rfl
  have hgt : ((post.head?.filter (fun gt => rmapIsMergeable gt x.owner x.flags)).filter
      (fun gt => decide (x.startblock + x.blockcount = gt.startblock) &&
        (x.ignoreOff || decide (x.offset + x.blockcount = gt.offset)))) =
      post.head?.filter (mergesRight x) := by
    rw [Option.filter_filter]
    rfl
  have hltAbuts : ∀ l ∈ pre.getLast?.filter (mergesLeft x), l.Abuts x := fun l hl =>
    (mergesLeft_iff.mp (filter_eq_some_iff.mp hl).2).2
  have hgtAbuts : ∀ r ∈ post.head?.filter (mergesRight x), x.Abuts r := fun r hr =>
    (mergesRight_iff.mp (filter_eq_some_iff.mp hr).2).2
  simp only [rmapMapRec, hlt, hgt]
  revert hpre' hpost' hltAbuts hgtAbuts
  generalize pre.getLast?.filter (mergesLeft x) = lt
  generalize post.head?.filter (mergesRight x) = gt
  intro hpre' hpost' hltAbuts hgtAbuts
  have hxPack : x.pack = x := RmapIrec.pack_eq hoff
  have hmemPre : ∀ y ∈ pre, y ∈ c.recs := fun y hy => hc ▸ mem_append_left _ hy
  have hmemPost : ∀ y ∈ post, y ∈ c.recs := fun y hy => hc ▸ mem_append_right _ hy
  cases lt with
  | none =>
    cases gt with
    | none =>
      refine ⟨Cursor.split pre (x :: post), pre', post', ?_, hpre', hpost', ?_⟩
      · simp only [rmapBtreeInsert, split_insert, if_true]
        exact congrArg (fun y => Except.ok (Cursor.split pre (y :: post))) hxPack
      · simp [joinNeighbours, hpre', hpost']
    | some r =>
      have hab := hgtAbuts r rfl
      simp only [toList_some, singleton_append] at hpost'
      refine ⟨Cursor.split pre (x.join r :: post'), pre', post', ?_, hpre', hpost', ?_⟩
      · have heq : (⟨x.startblock, r.blockcount + x.blockcount, r.owner,
            if x.ignoreOff then r.offset else x.offset, r.flags⟩ : RmapIrec) = x.join r := by
          ext
          · rfl
          · simp only [RmapIrec.join]; omega
          · exact hab.owner.symm
          · simp only [RmapIrec.join]
            cases hi : x.ignoreOff with
            | true =>
              have h1 := (rmapCheckBtrec_bounds hnew).2.2 hi
              have h2 := (hwf.bounds (hmemPost r (by simp [hpost']))).2.2
                (RmapIrec.ignoreOff_congr hab.owner hab.flags ▸ hi)
              rw [if_pos rfl, h1, h2]
            | false => rfl
          · exact hab.flags.symm
        simp only [heq, hpost', rmapUpdate, split_update]
        exact congrArg (fun y => Except.ok (Cursor.split pre (y :: post'))) (RmapIrec.pack_eq hoff)
      · simp [joinNeighbours, hpre']
  | some l =>
    have hab := hltAbuts l rfl
    simp only [toList_some] at hpre'
    have hmem : l ∈ c.recs := hmemPre l (by simp [hpre'])
    have hlOff := hwf.offset_lt hmem
    cases gt with
    | none =>
      refine ⟨Cursor.split pre' (l.join x :: post), pre', post', ?_, hpre', hpost', ?_⟩
      · simp only [hpre', split_decrement, rmapUpdate, split_update]
        exact congrArg (fun y => Except.ok (Cursor.split pre' (y :: post))) (RmapIrec.pack_eq hlOff)
      · simp [joinNeighbours, hpost']
    | some r =>
      have hab' := hgtAbuts r rfl
      simp only [toList_some, singleton_append] at hpost'
      have hend := (hwf.bounds (hmemPost r (by simp [hpost']))).2.1
      have h1 := hab.block
      have h2 := hab'.block
      refine ⟨Cursor.split pre' ((l.join x).join r :: post'), pre', post', ?_, hpre', hpost', ?_⟩
      · -- the extents of one group are never too long to be merged
        dsimp only
        rw [if_pos (by unfold rmapLenMax; omega), hpost', hpre']
        simp only [rmapBtreeDelete, split_delete, if_true, ok_bind,
          split_decrement, rmapUpdate, split_update]
        exact congrArg (fun y => Except.ok (Cursor.split pre' (y :: post')))
          (RmapIrec.pack_eq hlOff)
      · simp [joinNeighbours]

section

variable (ha : Apart (pre ++ post)) (hpos : ∀ y ∈ pre ++ post, 0 < y.blockcount)
  (hpre : ∀ y ∈ pre, y.startblock + y.blockcount ≤ x.startblock)
  (hpost : ∀ y ∈ post, x.startblock + x.blockcount ≤ y.startblock)
include ha hpos hpre hpost

theorem getLast?_of_abuts (hl : l ∈ pre ++ post) (hab : l.startblock + l.blockcount = x.startblock) :
    pre.getLast? = some l := by
  have hlpos := hpos l hl
  have hmem : l ∈ pre := by
    rcases mem_append.mp hl with hl | hl
    · exact hl
    · have := hpost l hl
      omega
  rcases eq_nil_or_concat pre with rfl | ⟨pre', y, rfl⟩
  · simp at hmem
  simp only [concat_eq_append] at *
  rw [getLast?_concat]
  rcases mem_append.mp hmem with hl' | hl'
  · rw [append_assoc, singleton_append] at ha
    have h1 := (Apart.of_append_cons ha).1 l hl'
    have h2 := hpre y (by simp)
    have h3 := hpos y (by simp)
    omega
  · simp only [mem_singleton] at hl'
    rw [hl']

theorem head?_of_abuts (hr : r ∈ pre ++ post) (hab : x.startblock + x.blockcount = r.startblock) :
    post.head? = some r := by
  have hrpos := hpos r hr
  have hmem : r ∈ post := by
    rcases mem_append.mp hr with hr | hr
    · have := hpre r hr
      omega
    · exact hr
  cases post with
  | nil => simp at hmem
  | cons y post =>
    rcases mem_cons.mp hmem with rfl | hr'
    · rfl
    · have h1 := (Apart.of_append_cons ha).2 r hr'
      have h2 := hpost y (by simp)
      have h3 := hpos y (by simp)
      omega

end

theorem rmapMap_spec (hwf : RmapWF g c.recs) (hd : PhysDisjoint c.recs)
    (hx : x = oinfo.range bno len unwritten) (hnew : rmapCheckBtrec g x)
    (hoff : x.offset < 2 ^ 54)
    (hfree : ∀ y ∈ c.recs, y.startblock + y.blockcount ≤ bno ∨ bno + len ≤ y.startblock) :
    ∃ c' pre post lt gt, rmapMap g c bno len unwritten oinfo = .ok c' ∧
      c.recs = pre ++ (mapEdit x lt gt).del ++ post ∧
      c'.recs = pre ++ (mapEdit x lt gt).add ++ post ∧
      (∀ y ∈ pre, y.startblock + y.blockcount ≤ bno) ∧ (∀ y ∈ post, bno + len ≤ y.startblock) ∧
      Neighbours c.recs lt x gt ∧
      ∀ y ∈ c.recs, (mergesLeft x y → lt = some y) ∧ (mergesRight x y → gt = some y) := by
  have ha := hwf.apart hd
  have hpos : ∀ y ∈ c.recs, 0 < y.blockcount := fun y hy => (hwf.bounds hy).1
  have hlen : 0 < len := by
    have := (rmapCheckBtrec_bounds hnew).1
    rwa [hx] at this
  obtain ⟨pre, post, hc, hpre, hpost⟩ := hwf.ordered.exists_split (rmapKey x)
  have hmemPre : ∀ y ∈ pre, y ∈ c.recs := fun y hy => hc ▸ mem_append_left _ hy
  have hmemPost : ∀ y ∈ post, y ∈ c.recs := fun y hy => hc ▸ mem_append_right _ hy
  have hstart : x.startblock = bno := by rw [hx]; rfl
  have hcount : x.blockcount = len := by rw [hx]; rfl
  have hpreEnd : ∀ y ∈ pre, y.startblock + y.blockcount ≤ x.startblock := by
    intro y hy
    have h1 := le_of_rmapKeyOf_le (hpre y hy).le
    rcases hfree y (hmemPre y hy) with h2 | h2 <;> omega
  have hpostStart : ∀ y ∈ post, x.startblock + x.blockcount ≤ y.startblock := by
    intro y hy
    have h1 := le_of_rmapKeyOf_le (hpost y hy)
    have h2 := hpos y (hmemPost y hy)
    rcases hfree y (hmemPost y hy) with h3 | h3 <;> omega
  obtain ⟨c1, hlookup, hinc⟩ := rmapLookupLe_gap x.startblock x.owner x.offset x.flags hwf hc hpre
    (fun y hy => lt_of_le_of_ne (hpost y hy) fun he => by
      have h1 := (rmapKeyOf_inj he).1
      have h2 := hpostStart y hy
      omega)
  obtain ⟨c', pre', post', hrec, hpre', hpost', hrecs⟩ := rmapMapRec_spec hwf hc hnew hoff
  have hign : (rmapNonInodeOwner oinfo.owner || oinfo.bmbtBlock) = x.ignoreOff := by
    rw [hx]
    rfl
  -- no mergeable record to the left reaches into the range
  have hnoLeft : (pre.getLast?.filter (fun lt => rmapIsMergeable lt x.owner x.flags)).any
      (fun lt => decide (bno < lt.startblock + lt.blockcount)) = false := by
    cases hl : pre.getLast? with
    | none => rfl
    | some l =>
      have := hpreEnd l (mem_of_getLast? hl)
      have hlt : ¬ bno < l.startblock + l.blockcount := by omega
      simp only [Option.filter]
      split <;> simp [hlt]
  have hrun : rmapMap g c bno len unwritten oinfo = rmapMapRec (Cursor.split pre post)
      (pre.getLast?.filter (fun lt => rmapIsMergeable lt x.owner x.flags))
      (post.head?.filter (fun gt => rmapIsMergeable gt x.owner x.flags))
      x.startblock x.blockcount x.owner x.offset x.flags x.ignoreOff := by
    subst hx
    simp only [OwnerInfo.range] at hlookup hnoLeft ⊢
    simp only [rmapMap, hlookup, bind, Except.bind, hnoLeft, Bool.false_eq_true, if_false, hinc,
      hign]
    cases hpost0 : post with
    | nil => rfl
    | cons y post0 =>
      have hget : rmapGetRecFound g (Cursor.split pre (y :: post0)) = .ok y :=
        rmapGetRecFound_eq (by rw [split_recs, ← hpost0, ← hc]; exact hwf) (by simp)
      have hy := hpostStart y (by simp [hpost0])
      have hlt : ¬ y.startblock < bno + len := by omega
      simp only [isEmpty_cons, Bool.not_false, if_true, hget, hlt, if_false, head?_cons,
        Option.filter]
      rfl
  refine ⟨c', pre', post', _, _, hrun.trans hrec, ?_, hrecs, ?_, ?_, ?_, ?_⟩
  · simp only [mapEdit]
    rw [hc]
    nth_rewrite 1 [hpre', hpost']
    simp
  · intro y hy
    rw [← hstart]
    exact hpreEnd y (hpre' ▸ mem_append_left _ hy)
  · intro y hy
    rw [← hstart, ← hcount]
    exact hpostStart y (hpost' ▸ mem_append_right _ hy)
  · refine ⟨fun l hl => ?_, fun r hr => ?_, fun l hl => ?_, fun r hr => ?_⟩
    · exact hmemPre l (mem_of_getLast? (filter_eq_some_iff.mp hl).1)
    · exact hmemPost r (mem_of_mem_head? (filter_eq_some_iff.mp hr).1)
    · exact (mergesLeft_iff.mp (filter_eq_some_iff.mp hl).2).2
    · exact (mergesRight_iff.mp (filter_eq_some_iff.mp hr).2).2
  · intro y hy
    rw [hc] at hy ha hpos
    refine ⟨fun hm => ?_, fun hm => ?_⟩
    · rw [getLast?_of_abuts ha hpos hpreEnd hpostStart hy (mergesLeft_iff.mp hm).2.block,
        filter_some_pos hm]
    · rw [head?_of_abuts ha hpos hpreEnd hpostStart hy (mergesRight_iff.mp hm).2.block,
        filter_some_pos hm]

end Map

end Xfs
