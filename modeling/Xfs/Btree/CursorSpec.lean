import Xfs.Btree.WellFormed

/-! A step of the cursor goes to the neighbour of its block when it goes off the edge. -/
namespace Xfs

open BtreeCur List RecordCursor

variable {R K : Type} [LinearOrder K] {ops : BtreeKeyOps R K} {store : BtreeStore R K}
  {cur : BtreeCur} {level ptr p n : Nat} {loc loc' : BlockLoc} {before after : List BlockLoc}
  {b : BtreeBlock R K}

omit [LinearOrder K] in
theorem btreeReadBufBlock_ok (hget : store.get loc = some b) :
    btreeReadBufBlock store loc = .ok b := by
  rw [btreeReadBufBlock, hget]

omit [LinearOrder K] in
theorem btreePtrAddr_ok {xs ys : List Nat} (hptrs : b.ptrs = xs ++ p :: ys)
    (hptr : ptr = xs.length + 1) :
    btreePtrAddr b ptr = .ok (.buf p) := by
  have hget : b.ptrs[ptr - 1]? = some p := by
    rw [hptrs, hptr, Nat.add_sub_cancel]
    simp
  rw [btreePtrAddr, hget]

omit [LinearOrder K] in
theorem btreeWalkDown_succ (start : BtreeBlock R K → Nat) (level n : Nat) (cur : BtreeCur) :
    btreeWalkDown store start level (n + 1) cur =
      btreeWalkDown store start (level + 1) n cur >>= btreeWalkDown store start level 1 := by
  induction n generalizing cur with
  | zero => rfl
  | succ n ih =>
    rw [btreeWalkDown, btreeWalkDown]
    simp [ih, add_right_comm level 1 n, add_assoc level n 1]

/-- The cursors are over the same tree. -/
structure BtreeCur.SameTree (cur cur' : BtreeCur) : Prop where
  nlevels : cur'.nlevels = cur.nlevels
  root : cur'.root = cur.root

omit [LinearOrder K] in
theorem BtreeCur.SameTree.recs {cur' : BtreeCur} (h : cur.SameTree cur') (store : BtreeStore R K) :
    cur'.recs store = cur.recs store := by
  rw [BtreeCur.recs, BtreeCur.recs, h.nlevels, h.root]

omit [LinearOrder K] in
theorem BtreeCur.SameTree.setPtr {cur' : BtreeCur} (h : cur.SameTree cur') :
    cur.SameTree (cur'.setPtr level ptr) :=
  ⟨h.nlevels, h.root⟩

theorem WfBtree.sameTree {cur' : BtreeCur} (hwf : WfBtree ops store cur.root cur.nlevels)
    (h : cur.SameTree cur') : WfBtree ops store cur'.root cur'.nlevels := by
  rw [h.nlevels, h.root]
  exact hwf

/-- A move over one tree has led to the block `loc` of the level, at `ptr` in it. -/
structure MovedTo (store : BtreeStore R K) (cur cur' : BtreeCur) (level : Nat) (loc : BlockLoc)
    (before after : List BlockLoc) (ptr : Nat) : Prop where
  same : cur.SameTree cur'
  path : Path store cur' level loc before after
  loc : cur'.loc level = loc
  ptr : cur'.ptr level = ptr

theorem walkDown_moved (cur : BtreeCur) (start : BtreeBlock R K → Nat) {cur' : BtreeCur}
    {xs ys : List Nat} (above : Path store cur' (level + 1) loc before after)
    (hwf : WfBtree ops store cur'.root cur'.nlevels) (hloc : cur'.loc (level + 1) = loc)
    (hget : store.get loc = some b) (hptrs : b.ptrs = xs ++ p :: ys)
    (hptr : cur'.ptr (level + 1) = xs.length + 1)
    (hstart : ∀ child : BtreeBlock R K, child.numrecs + 2 < 2 ^ 16 → start child < 2 ^ 16)
    (hsame : cur.SameTree cur') :
    ∃ cur2 child, store.get (.buf p) = some child ∧
      btreeWalkDown store start level 1 cur' = .ok cur2 ∧
      MovedTo store cur cur2 level (.buf p) (btreeChildren store before ++ xs.map .buf)
        (ys.map .buf ++ btreeChildren store after) (start child) := by
  have hpath := Path.down above hloc hget hptrs hptr
  obtain ⟨child, hchild, hwfc⟩ := hpath.block hwf
  refine ⟨(cur'.setbuf level (.buf p)).setPtr level (start child), child, hchild, ?_,
    ⟨hsame.nlevels, hsame.root⟩, ?_,
    by simp, ptr_setPtr_self (hstart child hwfc.numrecs_lt)⟩
  · rw [btreeWalkDown, add_zero, hloc, btreeReadBufBlock_ok hget, ok_bind,
      btreePtrAddr_ok hptrs hptr, ok_bind, btreeReadBufBlock_ok hchild, ok_bind]
    rfl
  · exact hpath.congr ((cur'.sameAbove_setbuf (.buf p) le_rfl).trans (sameAbove_setPtr _ _ le_rfl))

theorem Path.numrecs_eq {xs ys : List Nat} (h : Path store cur (level + 1) loc before after)
    (hwf : WfBtree ops store cur.root cur.nlevels) (hget : store.get loc = some b)
    (hptrs : b.ptrs = xs ++ p :: ys) :
    b.numrecs = xs.length + (ys.length + 1) ∧ b.numrecs + 2 < 2 ^ 16 := by
  have hwfb := h.block_of_get hwf hget
  refine ⟨?_, hwfb.numrecs_lt⟩
  rw [(hwfb.node (Nat.succ_ne_zero _)).1, hptrs, length_append, length_cons]

theorem Path.node_block (h : Path store cur (level + 1) loc before after)
    (hwf : WfBtree ops store cur.root cur.nlevels) :
    ∃ b, store.get loc = some b ∧ b.numrecs = b.ptrs.length ∧ b.ptrs ≠ [] := by
  obtain ⟨b, hget, hwfb⟩ := h.block hwf
  have hnum := (hwfb.node (Nat.succ_ne_zero _)).1
  have hlt := h.lt
  exact ⟨b, hget, hnum, ne_nil_of_length_pos (hnum ▸ hwfb.nonempty (by omega))⟩

theorem btreeIncrementUp_spec (hwf : WfBtree ops store cur.root cur.nlevels)
    (hn : n = cur.nlevels - (level + 1)) (hpath : Path store cur level loc before (loc' :: after)) :
    ∃ cur1 lev cur2, btreeIncrementUp store n (level + 1) cur = .ok (cur1, lev) ∧ level < lev ∧
      lev ≠ cur1.nlevels ∧ btreeWalkDown store (fun _ => 1) level (lev - level) cur1 = .ok cur2 ∧
      MovedTo store cur cur2 level loc' (before ++ [loc]) after 1 := by
  induction n generalizing level loc loc' before after cur with
  | zero =>
    generalize hright : loc' :: after = right at hpath
    cases hpath with
    | root hlevel => cases hright
    | down above _ _ _ _ =>
      have := above.lt
      omega
  | succ n ih =>
    generalize hright : loc' :: after = right at hpath
    cases hpath with
    | root hlevel => cases hright
    | @down _ locp bp ap b xs ys p above hloc hget hptrs hptr =>
      obtain ⟨hnum, hlt⟩ := above.numrecs_eq hwf hget hptrs
      have habove := above.congr (cur.sameAbove_setPtr (xs.length + 1 + 1) (le_rfl))
      rw [btreeIncrementUp, hloc, btreeReadBufBlock_ok hget, ok_bind, hptr]
      set up := cur.setPtr (level + 1) (xs.length + 1 + 1)
      have hloc' : up.loc (level + 1) = locp := (loc_setPtr ..).trans hloc
      have hptr' : up.ptr (level + 1) = xs.length + 1 + 1 := ptr_setPtr_self (by omega)
      cases ys with
      | cons q ys =>
        -- the parent has a pointer to the right
        obtain ⟨rfl, rfl⟩ := List.cons.inj hright
        have hptrs' : b.ptrs = (xs ++ [p]) ++ q :: ys := by
          rw [hptrs, append_assoc]
          rfl
        have hlen' : xs.length + 1 + 1 = (xs ++ [p]).length + 1 := by
          rw [length_append]
          rfl
        obtain ⟨cur2, child, -, hwalk, hmoved⟩ := walkDown_moved cur (fun _ => 1) habove hwf
          hloc' hget hptrs' (hptr'.trans hlen') (fun _ _ => by decide) ⟨rfl, rfl⟩
        rw [map_append, ← append_assoc] at hmoved
        refine ⟨_, level + 1, _, if_pos (by rw [hnum, length_cons]; omega),
          Nat.lt_succ_self _, ne_of_lt above.lt, ?_, hmoved⟩
        rw [Nat.add_sub_cancel_left]
        exact hwalk
      | nil =>
        rw [if_neg (by rw [hnum, length_nil]; omega)]
        cases ap with
        | nil => cases hright
        | cons locp' ap =>
          have hwf' : WfBtree ops store up.root up.nlevels := hwf
          obtain ⟨cur1, lev, cur2, hup, hlev, hne, hwalk, hmoved⟩ := ih hwf'
            (by show n = cur.nlevels - (level + 1 + 1); omega) habove
          have hsame : cur.SameTree cur2 := ⟨hmoved.same.nlevels, hmoved.same.root⟩
          have hwf2 := hwf.sameTree hsame
          obtain ⟨bn, hgetn, -, hposn⟩ := hmoved.path.node_block hwf2
          obtain ⟨q, qs, hq⟩ := exists_cons_of_ne_nil hposn
          obtain ⟨cur3, child, -, hlast, hmoved'⟩ := walkDown_moved cur (fun _ => 1)
            hmoved.path hwf2 hmoved.loc hgetn (hq.trans (nil_append _).symm) hmoved.ptr
            (fun _ _ => by decide) hsame
          rw [map_nil, nil_append, btreeChildren_cons hgetn, hq, map_cons] at hright
          obtain ⟨rfl, rfl⟩ := List.cons.inj hright
          rw [btreeChildren_append, btreeChildren_cons hget, hptrs, btreeChildren_nil,
            map_nil, append_nil, append_nil, map_append, map_singleton,
            ← append_assoc] at hmoved'
          refine ⟨cur1, lev, _, hup, by omega, hne, ?_, hmoved'⟩
          rw [show lev - level = lev - (level + 1) + 1 by omega, btreeWalkDown_succ, hwalk]
          exact hlast

omit [LinearOrder K] in
theorem BtreeCur.ptr_setPtr_pred {cur : BtreeCur} {level : Nat} (hlt : ptr + 1 < 2 ^ 16) :
    (cur.setPtr level (ptr + 1 + (2 ^ 16 - 1))).ptr level = ptr := by
  simp only [BtreeCur.setPtr, BtreeCur.setLevel, BtreeCur.ptr, if_true]
  omega

theorem btreeDecrementUp_spec (hwf : WfBtree ops store cur.root cur.nlevels)
    (hn : n = cur.nlevels - (level + 1)) (hpath : Path store cur level loc (before ++ [loc']) after) :
    ∃ cur1 lev cur2 child, btreeDecrementUp n (level + 1) cur = (cur1, lev) ∧ level < lev ∧
      lev ≠ cur1.nlevels ∧ btreeWalkDown store BtreeBlock.numrecs level (lev - level) cur1 = .ok cur2 ∧
      store.get loc' = some child ∧
      MovedTo store cur cur2 level loc' before (loc :: after) child.numrecs := by
  induction n generalizing level loc loc' before after cur with
  | zero =>
    generalize hleft : before ++ [loc'] = left at hpath
    cases hpath with
    | root hlevel => exact absurd hleft (concat_ne_nil _ _)
    | down above _ _ _ _ =>
      have := above.lt
      omega
  | succ n ih =>
    generalize hleft : before ++ [loc'] = left at hpath
    cases hpath with
    | root hlevel => exact absurd hleft (concat_ne_nil _ _)
    | @down _ locp bp ap b xs ys p above hloc hget hptrs hptr =>
      obtain ⟨hnum, hlt⟩ := above.numrecs_eq hwf hget hptrs
      have habove := above.congr (cur.sameAbove_setPtr (xs.length + 1 + (2 ^ 16 - 1)) (le_rfl))
      rw [btreeDecrementUp, hptr]
      set up := cur.setPtr (level + 1) (xs.length + 1 + (2 ^ 16 - 1))
      have hloc' : up.loc (level + 1) = locp := (loc_setPtr ..).trans hloc
      have hptr' : up.ptr (level + 1) = xs.length := ptr_setPtr_pred (by omega)
      simp only [hptr']
      rcases eq_nil_or_concat xs with rfl | ⟨xs, q, rfl⟩
      · rw [map_nil, append_nil] at hleft
        rcases eq_nil_or_concat bp with rfl | ⟨bp, locp', rfl⟩
        · exact absurd hleft (concat_ne_nil _ _)
        have hwf' : WfBtree ops store up.root up.nlevels := hwf
        rw [concat_eq_append] at habove hleft
        obtain ⟨cur1, lev, cur2, bn, hup, hlev, hne, hwalk, hgetn, hmoved⟩ := ih hwf'
          (by show n = cur.nlevels - (level + 1 + 1); omega) habove
        have hsame : cur.SameTree cur2 := ⟨hmoved.same.nlevels, hmoved.same.root⟩
        have hwf2 := hwf.sameTree hsame
        obtain ⟨bn', hgetn', hnumn, hposn⟩ := hmoved.path.node_block hwf2
        obtain rfl : bn = bn' := Option.some.inj (hgetn.symm.trans hgetn')
        obtain ⟨qs, q, hq⟩ := eq_nil_or_concat bn.ptrs |>.resolve_left hposn
        rw [concat_eq_append] at hq
        have hptrn : cur2.ptr (level + 1) = qs.length + 1 := by
          rw [hmoved.ptr, hnumn, hq, length_append]
          rfl
        obtain ⟨cur3, child, hchild, hlast, hmoved'⟩ := walkDown_moved cur
          BtreeBlock.numrecs hmoved.path hwf2 hmoved.loc hgetn hq hptrn (fun _ h => by omega)
          hsame
        rw [btreeChildren_append, btreeChildren_cons hgetn, hq, btreeChildren_nil,
          append_nil, map_append, map_singleton, ← append_assoc] at hleft
        obtain ⟨rfl, hq'⟩ := append_inj' hleft rfl
        obtain rfl : loc' = .buf q := singleton_inj.mp hq'
        rw [map_nil, nil_append, btreeChildren_cons hget, hptrs, nil_append,
          map_cons, cons_append] at hmoved'
        refine ⟨cur1, lev, _, child, hup, by omega, hne, ?_, hchild, hmoved'⟩
        rw [show lev - level = lev - (level + 1) + 1 by omega, btreeWalkDown_succ, hwalk]
        exact hlast
      · -- the parent has a pointer to the left
        rw [concat_eq_append] at *
        have hptrs' : b.ptrs = xs ++ q :: (p :: ys) := by
          rw [hptrs, append_assoc]
          rfl
        have hlen' : (xs ++ [q]).length = xs.length + 1 := by
          rw [length_append]
          rfl
        rw [map_append, map_singleton, ← append_assoc] at hleft
        obtain ⟨rfl, hq'⟩ := append_inj' hleft rfl
        obtain rfl : loc' = .buf q := singleton_inj.mp hq'
        obtain ⟨cur2, child, hchild, hwalk, hmoved⟩ := walkDown_moved cur
          BtreeBlock.numrecs habove hwf hloc' hget hptrs' (hptr'.trans hlen') (fun _ h => by omega) ⟨rfl, rfl⟩
        refine ⟨_, level + 1, _, child, if_pos (by rw [hlen']; omega), Nat.lt_succ_self _,
          ne_of_lt above.lt, ?_, hchild, hmoved⟩
        rw [Nat.add_sub_cancel_left]
        exact hwalk

end Xfs
