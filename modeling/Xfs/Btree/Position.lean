import Xfs.Btree.LookupSpec

/-! The position of a cursor among the records of its tree. -/
namespace Xfs

open BtreeCur List RecordCursor BinarySearch

variable {R K : Type} {store : BtreeStore R K} {cur cur' : BtreeCur} {before after : List BlockLoc}
  {b : BtreeBlock R K} {pos ptr : Nat}

theorem BtreeCur.SameTree.trans {cur'' : BtreeCur} (h : cur.SameTree cur') (h' : cur'.SameTree cur'') :
    cur.SameTree cur'' :=
  ⟨h'.nlevels.trans h.nlevels, h'.root.trans h.root⟩

/-- The cursor is at a record of a leaf, or before the first or after the last record. -/
structure InLeaf (store : BtreeStore R K) (cur : BtreeCur) (before after : List BlockLoc)
    (b : BtreeBlock R K) : Prop where
  path : Path store cur 0 (cur.loc 0) before after
  get : store.get (cur.loc 0) = some b
  first : cur.ptr 0 = 0 → before = []
  last : b.recs.length < cur.ptr 0 → after = [] ∧ cur.ptr 0 = b.recs.length + 1

def AtPos (store : BtreeStore R K) (cur : BtreeCur) (pos : Nat) : Prop :=
  ∃ before after b, InLeaf store cur before after b ∧
    pos = (before.flatMap (btreeRecs store 0)).length + cur.ptr 0

section

variable (h : Path store cur 0 (cur.loc 0) before after) (hget : store.get (cur.loc 0) = some b)
include h hget

theorem Path.recs_leaf : cur.recs store = before.flatMap (btreeRecs store 0) ++
      (b.recs ++ after.flatMap (btreeRecs store 0)) := by
  rw [h.recs, btreeRecs_leaf hget]

theorem Path.length_recs_leaf :
    (cur.recs store).length = (before.flatMap (btreeRecs store 0)).length +
      (b.recs.length + (after.flatMap (btreeRecs store 0)).length) := by
  rw [h.recs_leaf hget, length_append, length_append]

theorem Path.inLeaf_setPtr (hlt : ptr < 2 ^ 16) (hfirst : ptr = 0 → before = [])
    (hlast : b.recs.length < ptr → after = [] ∧ ptr = b.recs.length + 1) :
    InLeaf store (cur.setPtr 0 ptr) before after b where
  path := by
    rw [loc_setPtr]
    exact h.congr (cur.sameAbove_setPtr ptr (le_rfl))
  get := by
    rw [loc_setPtr]
    exact hget
  first := by
    rw [ptr_setPtr_self hlt]
    exact hfirst
  last := by
    rw [ptr_setPtr_self hlt]
    exact hlast

end

section

variable (h : InLeaf store cur before after b)
include h

theorem InLeaf.ptr_pos (hpos : 0 < (before.flatMap (btreeRecs store 0)).length + cur.ptr 0) :
    1 ≤ cur.ptr 0 := by
  by_contra hzero
  rw [h.first (by omega), flatMap_nil, length_nil] at hpos
  omega

theorem InLeaf.ptr_le (hle : (before.flatMap (btreeRecs store 0)).length + cur.ptr 0 ≤
      (cur.recs store).length) : cur.ptr 0 ≤ b.recs.length := by
  by_contra hgt
  rw [h.path.length_recs_leaf h.get, (h.last (by omega)).1, flatMap_nil, length_nil] at hle
  omega

end

section Steps

variable [LinearOrder K] {ops : BtreeKeyOps R K} {level : Nat}

theorem WfBlock.recs_pos {loc : BlockLoc} (hpath : Path store cur level loc before after)
    (hb : WfBlock ops store cur.nlevels level before after b) (hne : before ≠ [] ∨ after ≠ []) :
    0 < b.numrecs := by
  refine hb.nonempty fun hone => ?_
  cases hpath with
  | root _ => simp at hne
  | down above _ _ _ _ =>
    have := above.lt
    omega

section

variable (hwf : WfBtree ops store cur.root cur.nlevels)
include hwf

theorem btreeIncrement_next {loc loc' : BlockLoc}
    (hpath : Path store cur level loc before (loc' :: after)) (hloc : cur.loc level = loc)
    (hget : store.get loc = some b) (hge : b.numrecs ≤ cur.ptr level)
    (hlt : cur.ptr level + 1 < 2 ^ 16) :
    ∃ cur', btreeIncrement store cur level = .ok (cur', true) ∧
      MovedTo store cur cur' level loc' (before ++ [loc]) after 1 := by
  have hb := hpath.block_of_get hwf hget
  have hright : ¬ b.rightsib = none := by
    rw [hpath.rightsib_eq_none hb]
    exact cons_ne_nil _ _
  have hptr : (cur.setPtr level (cur.ptr level + 1)).ptr level = cur.ptr level + 1 :=
    ptr_setPtr_self hlt
  have hpath' := hpath.congr (cur.sameAbove_setPtr (cur.ptr level + 1) (le_rfl))
  have hwf' : WfBtree ops store (cur.setPtr level (cur.ptr level + 1)).root
      (cur.setPtr level (cur.ptr level + 1)).nlevels := hwf
  obtain ⟨cur1, lev, cur2, hup, hlev, hne, hwalk, hmoved⟩ := btreeIncrementUp_spec hwf' rfl hpath'
  refine ⟨cur2, ?_, ⟨hmoved.same.nlevels, hmoved.same.root⟩, hmoved.path, hmoved.loc, hmoved.ptr⟩
  rw [btreeIncrement, hloc, btreeReadBufBlock_ok hget, ok_bind]
  rw [if_neg (by omega), if_neg hright, hup, ok_bind]
  simp only [btreeStepDown, if_neg hne, hwalk, ok_bind]
  rfl

theorem btreeDecrement_prev {loc loc' : BlockLoc}
    (hpath : Path store cur level loc (before ++ [loc']) after) (hloc : cur.loc level = loc)
    (hone : cur.ptr level = 1) :
    ∃ cur' child, btreeDecrement store cur level = .ok (cur', true) ∧ store.get loc' = some child ∧
      MovedTo store cur cur' level loc' before (loc :: after) child.numrecs := by
  obtain ⟨b, hget, hb⟩ := hpath.block hwf
  have hleft : ¬ b.leftsib = none := by
    rw [hpath.leftsib_eq_none hb]
    exact concat_ne_nil _ _
  have hptr : (cur.setPtr level (0 + 1 + (2 ^ 16 - 1))).ptr level = 0 :=
    ptr_setPtr_pred (by decide)
  have hpath' := hpath.congr (cur.sameAbove_setPtr (0 + 1 + (2 ^ 16 - 1)) (le_rfl))
  have hwf' : WfBtree ops store (cur.setPtr level (0 + 1 + (2 ^ 16 - 1))).root
      (cur.setPtr level (0 + 1 + (2 ^ 16 - 1))).nlevels := hwf
  obtain ⟨cur1, lev, cur2, child, hup, hlev, hne, hwalk, hchild, hmoved⟩ :=
    btreeDecrementUp_spec hwf' rfl hpath'
  refine ⟨cur2, child, ?_, hchild, ⟨hmoved.same.nlevels, hmoved.same.root⟩, hmoved.path, hmoved.loc,
    hmoved.ptr⟩
  rw [btreeDecrement, hone, show 1 + (2 ^ 16 - 1) = 0 + 1 + (2 ^ 16 - 1) from rfl]
  simp only [hptr, lt_irrefl, if_false]
  rw [loc_setPtr, hloc, btreeReadBufBlock_ok hget, ok_bind, if_neg hleft, hup]
  simp only [btreeStepDown, if_neg hne, hwalk, ok_bind]
  rfl

theorem MovedTo.atPos_next {loc loc' : BlockLoc}
    (h : MovedTo store cur cur' 0 loc' (before ++ [loc]) after 1) (hget : store.get loc = some b) :
    cur.SameTree cur' ∧
      AtPos store cur' ((before.flatMap (btreeRecs store 0)).length + b.recs.length + 1) ∧
      (before.flatMap (btreeRecs store 0)).length + b.recs.length < (cur.recs store).length := by
  obtain ⟨b', hget', hb'⟩ := h.path.block (hwf.sameTree h.same)
  have hpos := hb'.recs_pos h.path (.inl (concat_ne_nil _ _))
  rw [(hb'.leaf rfl).1] at hpos
  have hbefore : ((before ++ [loc]).flatMap (btreeRecs store 0)).length =
      (before.flatMap (btreeRecs store 0)).length + b.recs.length := by
    rw [flatMap_append, length_append, flatMap_singleton, btreeRecs_leaf hget]
  obtain rfl := h.loc
  refine ⟨h.same, ⟨before ++ [loc], after, b', ⟨h.path, hget', ?_, ?_⟩, ?_⟩, ?_⟩
  · rw [h.ptr]
    exact fun hzero => absurd hzero Nat.one_ne_zero
  · rw [h.ptr]
    omega
  · rw [h.ptr, hbefore]
  · rw [← h.same.recs, h.path.length_recs_leaf hget', hbefore]
    omega

theorem btreeIncrement_atPos (h : AtPos store cur pos) (hpos : pos ≤ (cur.recs store).length) :
    ∃ cur', btreeIncrement store cur 0 = .ok (cur', decide (pos < (cur.recs store).length)) ∧
      cur.SameTree cur' ∧ AtPos store cur' (pos + 1) := by
  obtain ⟨before, after, b, hleaf, hat⟩ := h
  have hb := hleaf.path.block_of_get hwf hleaf.get
  have hnum := (hb.leaf rfl).1
  have hmax := hb.numrecs_lt
  have hlen := hleaf.path.length_recs_leaf hleaf.get
  have hle := hleaf.ptr_le (hat ▸ hpos)
  have hptr : (cur.setPtr 0 (cur.ptr 0 + 1)).ptr 0 = cur.ptr 0 + 1 :=
    ptr_setPtr_self (by omega)
  by_cases hin : cur.ptr 0 + 1 ≤ b.numrecs
  · refine ⟨cur.setPtr 0 (cur.ptr 0 + 1), ?_, ⟨rfl, rfl⟩, before, after, b,
      hleaf.path.inLeaf_setPtr hleaf.get (by omega) (by omega) (by omega), by rw [hptr]; omega⟩
    rw [btreeIncrement, btreeReadBufBlock_ok hleaf.get, ok_bind, decide_eq_true (by omega)]
    simp only [hptr, if_pos hin]
    rfl
  cases after with
  | nil =>
    -- the cursor goes off the right edge of the tree
    simp only [flatMap_nil, length_nil] at hlen
    refine ⟨cur.setPtr 0 (cur.ptr 0 + 1), ?_, ⟨rfl, rfl⟩, before, [], b,
      hleaf.path.inLeaf_setPtr hleaf.get (by omega) (by omega) fun _ => ⟨rfl, by omega⟩,
      by rw [hptr]; omega⟩
    rw [btreeIncrement, btreeReadBufBlock_ok hleaf.get, ok_bind, decide_eq_false (by omega)]
    simp only [hptr, if_neg hin, if_pos ((hleaf.path.rightsib_eq_none hb).mpr rfl)]
    rfl
  | cons loc' after =>
    obtain ⟨cur', hrun, hmoved⟩ := btreeIncrement_next hwf hleaf.path rfl hleaf.get (by omega) (by omega)
    obtain ⟨hsame, hnext, hlt⟩ := hmoved.atPos_next hwf hleaf.get
    have hend : cur.ptr 0 = b.recs.length := by omega
    refine ⟨cur', by rw [hrun, decide_eq_true (by omega)], hsame, ?_⟩
    rw [hat, hend]
    exact hnext

theorem btreeDecrement_atPos (h : AtPos store cur pos) (hpos : 0 < pos) :
    ∃ cur', btreeDecrement store cur 0 = .ok (cur', decide (1 < pos)) ∧
      cur.SameTree cur' ∧ AtPos store cur' (pos - 1) := by
  obtain ⟨before, after, b, hleaf, hat⟩ := h
  have hb := hleaf.path.block_of_get hwf hleaf.get
  have hnum := (hb.leaf rfl).1
  have hmax := hb.numrecs_lt
  have hone := hleaf.ptr_pos (hat ▸ hpos)
  have hbound : cur.ptr 0 ≤ b.recs.length + 1 := by
    by_contra hgt
    have := (hleaf.last (by omega)).2
    omega
  obtain ⟨ptr, hptr⟩ := Nat.exists_eq_add_of_le' hone
  have hpred : (cur.setPtr 0 (ptr + 1 + (2 ^ 16 - 1))).ptr 0 = ptr :=
    ptr_setPtr_pred (by omega)
  have hset : cur.setPtr 0 (ptr + 1 + (2 ^ 16 - 1)) = cur.setPtr 0 ptr := by
    unfold BtreeCur.setPtr
    rw [show (ptr + 1 + (2 ^ 16 - 1)) % 2 ^ 16 = ptr % 2 ^ 16 by omega]
  rcases Nat.eq_zero_or_pos ptr with rfl | hin
  · rcases eq_nil_or_concat before with rfl | ⟨before, loc', rfl⟩
    · -- the cursor goes off the left edge of the tree
      rw [flatMap_nil, length_nil] at hat
      refine ⟨cur.setPtr 0 0, ?_, ⟨rfl, rfl⟩, [], after, b,
        hleaf.path.inLeaf_setPtr hleaf.get (by decide) (fun _ => rfl) (by omega), ?_⟩
      · rw [btreeDecrement, hptr]
        rw [loc_setPtr, btreeReadBufBlock_ok hleaf.get, ok_bind,
          if_pos ((hleaf.path.leftsib_eq_none hb).mpr rfl), hset, decide_eq_false (by omega)]
        rfl
      · rw [← hset, hpred, flatMap_nil, length_nil]
        omega
    · rw [concat_eq_append] at hleaf hat hb
      obtain ⟨cur', child, hrun, hchild, hmoved⟩ := btreeDecrement_prev hwf hleaf.path rfl hptr
      have hb' := hmoved.path.block_of_get (hwf.sameTree hmoved.same) hchild
      have hpos' := hb'.recs_pos hmoved.path (.inr (cons_ne_nil _ _))
      have hnum' := (hb'.leaf rfl).1
      rw [flatMap_append, length_append, flatMap_singleton, btreeRecs_leaf hchild] at hat
      refine ⟨cur', ?_, hmoved.same, before, cur.loc 0 :: after, child, ⟨?_, ?_, ?_, ?_⟩, ?_⟩
      · rw [hrun, decide_eq_true (by omega)]
      · rw [hmoved.loc]
        exact hmoved.path
      · rw [hmoved.loc]
        exact hchild
      · rw [hmoved.ptr]
        omega
      · rw [hmoved.ptr]
        omega
      · rw [hmoved.ptr]
        omega
  · refine ⟨cur.setPtr 0 ptr, ?_, ⟨rfl, rfl⟩, before, after, b,
      hleaf.path.inLeaf_setPtr hleaf.get (by omega) (by omega) (by omega), by rw [← hset, hpred]; omega⟩
    rw [btreeDecrement, hptr]
    simp only [hpred, if_pos hin]
    rw [hset, decide_eq_true (by omega)]
    rfl

end

variable {k : K} {keyno : Nat} {cmp : Ordering} {loc : BlockLoc}

section

variable (h : FoundInLeaf ops store k cur cur' loc before after b keyno cmp)
include h

theorem FoundInLeaf.compare {i : Nat} {r : R} (hr : b.recs[i]? = some r) :
    cmpKeyWithCur (ops.initKeyFromRec r) k =
      if i + 1 < keyno then .lt else if i + 1 = keyno then cmp else .gt := by
  obtain ⟨hi, rfl⟩ := List.getElem?_eq_some_iff.mp hr
  have hkey : blockCmp ops k 0 b (i + 1) = cmpKeyWithCur (ops.initKeyFromRec b.recs[i]) k := by
    rw [blockCmp, lookupGetSearchKey_leaf hi]
  have hnum := (h.block.leaf rfl).1
  rw [← hkey]
  split_ifs with hlt heq
  · exact h.found.before _ (by omega) hlt
  · rw [heq]
    exact h.found.cmp_eq
  · exact h.found.after _ (by omega) (by omega)

theorem FoundInLeaf.bounds : 1 ≤ keyno ∧ keyno ≤ b.recs.length ∧ b.numrecs = b.recs.length ∧
      b.recs.length + 2 < 2 ^ 16 := by
  have hnum := (h.block.leaf rfl).1
  exact ⟨h.found.pos, hnum ▸ h.found.le, hnum, hnum ▸ h.block.numrecs_lt⟩

theorem FoundInLeaf.recs : cur.recs store = before.flatMap (btreeRecs store 0) ++
      (b.recs ++ after.flatMap (btreeRecs store 0)) := by
  rw [← h.same.recs, h.path.recs, btreeRecs_leaf h.get]

theorem FoundInLeaf.cutAt_le : CutAt (fun r => ops.initKeyFromRec r ≤ k) (cur.recs store)
      ((before.flatMap (btreeRecs store 0)).length + if cmp = .gt then keyno - 1 else keyno) := by
  obtain ⟨hpos, hle, -, -⟩ := h.bounds
  rw [h.recs]
  refine CutAt.append ⟨?_, fun i r hr => ?_⟩ (fun r hr => le_of_lt (h.lt r hr))
    fun r hr => not_le_of_gt (h.gt r hr)
  · split_ifs <;> omega
  · have hcmp := h.compare hr
    rw [← not_lt, ← cmpKeyWithCur_eq_gt (a := ops.initKeyFromRec r), hcmp]
    split_ifs <;> simp_all <;> omega

theorem FoundInLeaf.cutAt_lt : CutAt (fun r => ops.initKeyFromRec r < k) (cur.recs store)
      ((before.flatMap (btreeRecs store 0)).length + if cmp = .lt then keyno else keyno - 1) := by
  obtain ⟨hpos, hle, -, -⟩ := h.bounds
  rw [h.recs]
  refine CutAt.append ⟨?_, fun i r hr => ?_⟩ h.lt fun r hr => not_lt_of_gt (h.gt r hr)
  · split_ifs <;> omega
  · have hcmp := h.compare hr
    rw [← cmpKeyWithCur_eq_lt (a := ops.initKeyFromRec r), hcmp]
    split_ifs <;> simp_all <;> omega

end

theorem btreeLookup_found (hwf : WfBtree ops store cur.root cur.nlevels) (hne : cur.recs store ≠ [])
    (k : K) (dir : LookupDir) :
    ∃ cur' loc before after b keyno cmp,
      FoundInLeaf ops store k cur cur' loc before after b keyno cmp ∧
      btreeLookup store ops cur dir k = btreeLookupAdjust store dir cur' b keyno cmp := by
  have hpos := hwf.pos
  have hroot : Path store cur (cur.nlevels - 1) cur.root [] [] := .root (by omega)
  have hs : Sought ops store k (cur.nlevels - 1) cur.root [] [] .gt :=
    ⟨fun _ hr => absurd hr not_mem_nil, fun _ hr => absurd hr not_mem_nil,
      fun hne => absurd rfl hne, Ordering.noConfusion⟩
  obtain ⟨cur', loc, before, after, b, keyno, cmp, hrun, hfound⟩ :=
    btreeLookupLevels_spec hwf hne hroot hs
  refine ⟨cur', loc, before, after, b, keyno, cmp, hfound, ?_⟩
  rw [btreeLookup, if_neg (by omega), hrun, ok_bind]

theorem btreeLookup_empty (hwf : WfBtree ops store cur.root cur.nlevels) (hnil : cur.recs store = [])
    (k : K) (dir : LookupDir) :
    ∃ cur', btreeLookup store ops cur dir k = .ok (cur', false) ∧ cur.SameTree cur' ∧
      AtPos store cur' (if dir = .le then 0 else 1) := by
  have hpos := hwf.pos
  have hone : cur.nlevels = 1 := by
    by_contra hne
    exact btreeRecs_ne_nil hwf hne (by omega)
      (by rw [Nat.sub_self]; exact mem_singleton.mpr rfl) hnil
  have hroot : Path store cur 0 cur.root [] [] := .root (by omega)
  obtain ⟨b, hget, hb⟩ := hroot.block hwf
  have hrecs : b.recs = [] := by
    rw [BtreeCur.recs, hone, btreeRecs_leaf hget] at hnil
    exact hnil
  have hzero : b.numrecs = 0 := by rw [(hb.leaf rfl).1, hrecs, length_nil]
  have hlevel : btreeLookupLevel store ops k 0 cur.root .gt cur = .ok (.empty (cur.setbuf 0 cur.root)) := by
    rw [btreeLookupLevel, btreeLookupGetBlock_ok hget hb (.inr rfl), ok_bind]
    simp only [hzero, if_true, ne_eq, reduceCtorEq, not_false_eq_true, and_self, not_true, false_or]
    exact if_neg (not_not.mpr hone)
  have hpath : Path store (cur.setbuf 0 cur.root) 0 ((cur.setbuf 0 cur.root).loc 0) [] [] := by
    rw [loc_setbuf_self]
    exact hroot.congr (cur.sameAbove_setbuf cur.root (le_rfl))
  have hget' : store.get ((cur.setbuf 0 cur.root).loc 0) = some b := by
    rw [loc_setbuf_self]
    exact hget
  have hptr : (if dir = .le then 0 else 1) ≤ 1 := by split_ifs <;> decide
  refine ⟨(cur.setbuf 0 cur.root).setPtr 0 (if dir = .le then 0 else 1), ?_, ⟨rfl, rfl⟩, [], [], b,
    hpath.inLeaf_setPtr hget' (by omega) (fun _ => rfl) fun hlt => ⟨rfl, ?_⟩, ?_⟩
  · rw [btreeLookup, if_neg (by omega), hone, Nat.sub_self, btreeLookupLevels, hlevel, ok_bind]
    rfl
  · rw [hrecs, length_nil] at hlt ⊢
    omega
  · rw [ptr_setPtr_self (by omega), flatMap_nil, length_nil, zero_add]

section

variable (h : FoundInLeaf ops store k cur cur' loc before after b keyno cmp)
include h

theorem FoundInLeaf.atPos_setPtr (hlt : ptr < 2 ^ 16) (hfirst : ptr = 0 → before = [])
    (hlast : b.recs.length < ptr → after = [] ∧ ptr = b.recs.length + 1) :
    AtPos store (cur'.setPtr 0 ptr) ((before.flatMap (btreeRecs store 0)).length + ptr) := by
  obtain rfl := h.loc_eq
  exact ⟨before, after, b, h.path.inLeaf_setPtr h.get hlt hfirst hlast, by rw [ptr_setPtr_self hlt]⟩

theorem FoundInLeaf.before_eq_nil (hcmp : cmp = .gt) (hone : keyno = 1) : before = [] := by
  by_contra hne
  obtain ⟨r, rs, hr⟩ := exists_cons_of_ne_nil (ne_nil_of_length_pos (hone ▸ h.bounds.2.1))
  have hgt := h.compare (i := 0) (by rw [hr]; rfl)
  rw [if_neg (by omega), if_pos (by omega), hcmp, cmpKeyWithCur_eq_gt] at hgt
  exact absurd (h.low hne r rs hr) (not_le_of_gt hgt)

end

section

variable (hwf : WfBtree ops store cur.root cur.nlevels) (k : K)
include hwf

theorem btreeLookup_le_atPos :
    ∃ cur' n, btreeLookup store ops cur .le k = .ok (cur', decide (0 < n)) ∧ cur.SameTree cur' ∧
      AtPos store cur' n ∧ CutAt (fun r => ops.initKeyFromRec r ≤ k) (cur.recs store) n := by
  by_cases hne : cur.recs store = []
  · obtain ⟨cur', hrun, hsame, hat⟩ := btreeLookup_empty hwf hne k .le
    exact ⟨cur', 0, hrun, hsame, hat, hne ▸ .nil _⟩
  obtain ⟨cur', loc, before, after, b, keyno, cmp, hfound, hrun⟩ := btreeLookup_found hwf hne k .le
  obtain ⟨hpos, hle, hnum, hmax⟩ := hfound.bounds
  have hptr : (if cmp = .gt then keyno - 1 else keyno) ≤ keyno := by split_ifs <;> omega
  have hzero : (if cmp = .gt then keyno - 1 else keyno) = 0 → before = [] := by
    split_ifs with hgt
    · exact fun hzero => hfound.before_eq_nil hgt (by omega)
    · omega
  refine ⟨cur'.setPtr 0 (if cmp = .gt then keyno - 1 else keyno), _, ?_, hfound.same.setPtr,
    hfound.atPos_setPtr (by omega) hzero (by omega), hfound.cutAt_le⟩
  rw [hrun, btreeLookupAdjust]
  simp only [ne_eq, not_true, false_and, if_false, true_and, reduceCtorEq, not_false_eq_true, true_or,
    decide_true]
  generalize (if cmp = .gt then keyno - 1 else keyno) = ptr at *
  by_cases hptr0 : ptr = 0
  · rw [if_pos (.inl hptr0), hptr0, hzero hptr0]
    rfl
  · rw [if_neg (by omega), decide_eq_true (by omega)]
    rfl

theorem btreeLookup_ge_atPos :
    ∃ cur' n, btreeLookup store ops cur .ge k = .ok (cur', decide (n < (cur.recs store).length)) ∧
      cur.SameTree cur' ∧ AtPos store cur' (n + 1) ∧
      CutAt (fun r => ops.initKeyFromRec r < k) (cur.recs store) n := by
  by_cases hne : cur.recs store = []
  · obtain ⟨cur', hrun, hsame, hat⟩ := btreeLookup_empty hwf hne k .ge
    refine ⟨cur', 0, ?_, hsame, hat, hne ▸ .nil _⟩
    rw [hrun, hne]
    rfl
  obtain ⟨cur', loc, before, after, b, keyno, cmp, hfound, hrun⟩ := btreeLookup_found hwf hne k .ge
  obtain ⟨hpos, hle, hnum, hmax⟩ := hfound.bounds
  have hright := hfound.path.rightsib_eq_none hfound.block
  have hlen : (cur.recs store).length = (before.flatMap (btreeRecs store 0)).length +
      (b.recs.length + (after.flatMap (btreeRecs store 0)).length) := by
    rw [hfound.recs, length_append, length_append]
  have hcut := hfound.cutAt_lt
  rw [hrun, btreeLookupAdjust]
  by_cases hnext : cmp = .lt ∧ b.numrecs < keyno + 1 ∧ b.rightsib ≠ none
  · -- the record is in the next leaf
    obtain ⟨rfl, hend, hsib⟩ := hnext
    obtain ⟨loc', rest, rfl⟩ := exists_cons_of_ne_nil (mt hright.mpr hsib)
    have hptr : (cur'.setPtr 0 (keyno + 1)).ptr 0 = keyno + 1 := ptr_setPtr_self (by omega)
    have hset : cur.SameTree (cur'.setPtr 0 (keyno + 1)) := hfound.same.setPtr
    have hwf' := hwf.sameTree hset
    obtain ⟨cur'', hinc, hmoved⟩ := btreeIncrement_next hwf'
      (hfound.path.congr (cur'.sameAbove_setPtr (keyno + 1) (le_rfl)))
      (by rw [loc_setPtr, hfound.loc_eq]) hfound.get (by omega) (by omega)
    obtain ⟨hsame', hat, hlt⟩ := hmoved.atPos_next hwf' hfound.get
    have hlt' : (before.flatMap (btreeRecs store 0)).length + b.recs.length < (cur.recs store).length := by
      rw [← hset.recs]
      exact hlt
    have hkeyno : keyno = b.recs.length := by omega
    rw [if_pos rfl, hkeyno] at hcut
    refine ⟨cur'', _, ?_, hset.trans hsame', hat, hcut⟩
    rw [if_pos ⟨LookupDir.noConfusion, rfl, rfl, hend, hsib⟩, hinc, ok_bind, decide_eq_true hlt']
    rfl
  · have hptr : (if cmp = .lt then keyno + 1 else keyno) =
        (if cmp = .lt then keyno else keyno - 1) + 1 := by
      split_ifs <;> omega
    have hend : b.recs.length < (if cmp = .lt then keyno else keyno - 1) + 1 →
        after = [] ∧ (if cmp = .lt then keyno else keyno - 1) + 1 = b.recs.length + 1 := by
      split_ifs with hlt
      · exact fun hgt => ⟨hright.mp (by_contra fun hsib => hnext ⟨hlt, by omega, hsib⟩), by omega⟩
      · omega
    have hin : (if cmp = .lt then keyno else keyno - 1) ≤ keyno := by split_ifs <;> omega
    rw [if_neg (fun h => hnext ⟨h.2.1, h.2.2.2⟩)]
    simp only [ne_eq, reduceCtorEq, not_false_eq_true, true_and, false_and, if_false, true_or,
      decide_true, hptr, Nat.succ_ne_zero, false_or]
    generalize (if cmp = .lt then keyno else keyno - 1) = n at *
    refine ⟨cur'.setPtr 0 (n + 1), (before.flatMap (btreeRecs store 0)).length + n, ?_,
      hfound.same.setPtr, hfound.atPos_setPtr (by omega) (by omega) hend, hcut⟩
    by_cases hgt : b.recs.length < n + 1
    · rw [(hend hgt).1, flatMap_nil, length_nil] at hlen
      rw [if_pos (by omega), decide_eq_false (by omega)]
      rfl
    · rw [if_neg (by omega), decide_eq_true (by omega)]
      rfl

theorem btreeLookup_eq_atPos :
    ∃ cur' n stat, btreeLookup store ops cur .eq k = .ok (cur', stat) ∧ cur.SameTree cur' ∧
      (∃ before after, Path store cur' 0 (cur'.loc 0) before after) ∧
      CutAt (fun r => ops.initKeyFromRec r < k) (cur.recs store) n ∧
      (stat ↔ ∃ r ∈ cur.recs store, ops.initKeyFromRec r = k) ∧
      (stat → AtPos store cur' (n + 1)) := by
  by_cases hne : cur.recs store = []
  · obtain ⟨cur', hrun, hsame, before, after, b, hleaf, hat⟩ := btreeLookup_empty hwf hne k .eq
    refine ⟨cur', 0, false, hrun, hsame, ⟨before, after, hleaf.path⟩, hne ▸ .nil _, ?_,
      fun h => absurd h Bool.false_ne_true⟩
    rw [hne]
    simp
  obtain ⟨cur', loc, before, after, b, keyno, cmp, hfound, hrun⟩ := btreeLookup_found hwf hne k .eq
  obtain ⟨hpos, hle, hnum, hmax⟩ := hfound.bounds
  have hrun' : btreeLookup store ops cur .eq k =
      .ok (cur'.setPtr 0 (if cmp = .lt then keyno + 1 else keyno), decide (cmp = .eq)) := by
    rw [hrun, btreeLookupAdjust]
    simp only [ne_eq, reduceCtorEq, not_false_eq_true, not_true, true_and, false_and, and_false,
      if_false, false_or]
    by_cases hlt : cmp = .lt
    · simp only [hlt, if_true, reduceCtorEq, decide_false]
      split_ifs <;> rfl
    · simp only [hlt, if_false]
      rw [if_neg (by omega)]
      rfl
  have hpath : Path store (cur'.setPtr 0 (if cmp = .lt then keyno + 1 else keyno)) 0
      ((cur'.setPtr 0 (if cmp = .lt then keyno + 1 else keyno)).loc 0) before after := by
    rw [loc_setPtr, hfound.loc_eq]
    exact hfound.path.congr (cur'.sameAbove_setPtr _ (le_rfl))
  refine ⟨_, _, _, hrun', hfound.same.setPtr, ⟨before, after, hpath⟩, hfound.cutAt_lt, ?_, ?_⟩
  · rw [decide_eq_true_eq]
    constructor
    · intro heq
      obtain ⟨r, hr⟩ : ∃ r, b.recs[keyno - 1]? = some r :=
        ⟨_, getElem?_eq_getElem (by omega)⟩
      have hcmp := hfound.compare hr
      rw [if_neg (by omega), if_pos (by omega), heq, cmpKeyWithCur_eq_eq] at hcmp
      refine ⟨r, ?_, hcmp⟩
      rw [hfound.recs]
      exact mem_append_right _ (mem_append_left _ (mem_of_getElem? hr))
    · rintro ⟨r, hr, heq⟩
      rw [hfound.recs, mem_append, mem_append] at hr
      rcases hr with hr | hr | hr
      · exact absurd heq (ne_of_lt (hfound.lt r hr))
      · obtain ⟨i, hi⟩ := getElem?_of_mem hr
        have hcmp := hfound.compare hi
        rw [cmpKeyWithCur_eq_eq.mpr heq] at hcmp
        split_ifs at hcmp
        exact hcmp.symm
      · exact absurd heq (ne_of_gt (hfound.gt r hr))
  · intro heq
    rw [decide_eq_true_eq] at heq
    subst heq
    have hat : AtPos store (cur'.setPtr 0 keyno) _ := hfound.atPos_setPtr (by omega) (by omega) (by omega)
    simp only [reduceCtorEq, if_false]
    rwa [add_assoc, Nat.sub_add_cancel hpos]

end

end Steps

end Xfs
