import Xfs.Btree.CursorSpec

/-! A lookup leads to the place of its key among the records of the tree. -/
namespace Xfs

open List RecordCursor

variable {R K : Type} [LinearOrder K] {ops : BtreeKeyOps R K} {store : BtreeStore R K}
  {cur : BtreeCur} {level i : Nat} {loc : BlockLoc} {before after : List BlockLoc} {k : K}
  {cmp : Ordering}

theorem btreeRecs_ne_nil {root : BlockLoc} {nlevels : Nat} (hwf : WfBtree ops store root nlevels)
    (hn : nlevels ≠ 1) (hlevel : level < nlevels)
    (hmem : loc ∈ btreeDescend store (nlevels - 1 - level) [root]) : btreeRecs store level loc ≠ [] := by
  induction level generalizing loc with
  | zero =>
    obtain ⟨before, after, hsplit⟩ := append_of_mem hmem
    obtain ⟨b, hget, hb⟩ := hwf.blocks 0 hlevel before loc after hsplit
    have hpos := hb.nonempty hn
    rw [(hb.leaf rfl).1] at hpos
    rw [btreeRecs_leaf hget]
    exact ne_nil_of_length_pos hpos
  | succ level ih =>
    obtain ⟨before, after, hsplit⟩ := append_of_mem hmem
    obtain ⟨b, hget, hb⟩ := hwf.blocks (level + 1) hlevel before loc after hsplit
    have hpos := hb.nonempty hn
    rw [(hb.node (Nat.succ_ne_zero _)).1] at hpos
    obtain ⟨p, ps, hp⟩ := exists_cons_of_ne_nil (ne_nil_of_length_pos hpos)
    have hchild : .buf p ∈ btreeDescend store (nlevels - 1 - level) [root] := by
      rw [show nlevels - 1 - level = nlevels - 1 - (level + 1) + 1 by omega, btreeDescend_succ,
        hsplit, btreeChildren_append, btreeChildren_cons hget, hp]
      simp
    rw [btreeRecs_node level hget, hp, flatMap_cons]
    exact append_ne_nil_of_left_ne_nil (ih (by omega) hchild) _

theorem Path.ordered (hwf : WfBtree ops store cur.root cur.nlevels)
    (h : Path store cur level loc before after) :
    Ordered ops.initKeyFromRec (before.flatMap (btreeRecs store level) ++
      (btreeRecs store level loc ++ after.flatMap (btreeRecs store level))) := by
  rw [← h.recs]
  exact hwf.ordered

theorem Path.child_ne_nil {b : BtreeBlock R K} (hwf : WfBtree ops store cur.root cur.nlevels)
    (h : Path store cur (level + 1) loc before after) (hget : store.get loc = some b) {p : Nat}
    (hp : p ∈ b.ptrs) : btreeRecs store level (.buf p) ≠ [] := by
  have hlt := h.lt
  refine btreeRecs_ne_nil hwf (by omega) (by omega) ?_
  rw [show cur.nlevels - 1 - level = cur.nlevels - 1 - (level + 1) + 1 by omega, btreeDescend_succ,
    h.levelLocs, btreeChildren_append, btreeChildren_cons hget]
  exact mem_append_right _ (mem_append_left _ (mem_map_of_mem hp))

theorem cmpKeyWithCur_eq_lt {a b : K} : cmpKeyWithCur a b = .lt ↔ a < b := by
  unfold cmpKeyWithCur
  split_ifs with h1 h2 <;> simp [h1]

theorem cmpKeyWithCur_eq_gt {a b : K} : cmpKeyWithCur a b = .gt ↔ b < a := by
  unfold cmpKeyWithCur
  split_ifs with h1 h2
  · simp [le_of_lt h1]
  · simp [h2]
  · simp [le_of_not_gt h2]

theorem cmpKeyWithCur_eq_eq {a b : K} : cmpKeyWithCur a b = .eq ↔ a = b := by
  unfold cmpKeyWithCur
  split_ifs with h1 h2
  · simp [ne_of_lt h1]
  · simp [ne_of_gt h2]
  · simp [le_antisymm (le_of_not_gt h2) (le_of_not_gt h1)]

def blockCmp (ops : BtreeKeyOps R K) (k : K) (level : Nat) (b : BtreeBlock R K) (i : Nat) : Ordering :=
  cmpKeyWithCur (lookupGetSearchKey ops level i b) k

theorem blockCmp_monotone {b : BtreeBlock R K} {n : Nat} (hlt : ∀ i j, 1 ≤ i → i < j → j ≤ n →
      lookupGetSearchKey ops level i b < lookupGetSearchKey ops level j b) :
    BinarySearch.Monotone (blockCmp ops k level b) n := by
  intro i j hi hij hj hne
  refine cmpKeyWithCur_eq_lt.mpr (lt_of_lt_of_le (hlt i j hi hij hj) (le_of_not_gt fun hgt => ?_))
  exact hne (cmpKeyWithCur_eq_gt.mpr hgt)

theorem btreeLookupBlock_found {b : BtreeBlock R K} (hpos : 0 < b.numrecs)
    (hlt : ∀ i j, 1 ≤ i → i < j → j ≤ b.numrecs →
      lookupGetSearchKey ops level i b < lookupGetSearchKey ops level j b)
    (heq : cmp = .eq → lookupGetSearchKey ops level 1 b = k) :
    BinarySearch.Found (blockCmp ops k level b) b.numrecs (btreeLookupBlock ops k level b cmp).1
      (btreeLookupBlock ops k level b cmp).2 := by
  unfold btreeLookupBlock
  split_ifs with hcmp
  · have hfirst := heq hcmp
    refine ⟨le_rfl, hpos, cmpKeyWithCur_eq_eq.mpr hfirst, fun i hi hi1 => by omega, ?_⟩
    intro i hi hin
    refine cmpKeyWithCur_eq_gt.mpr ?_
    have := hlt 1 i (le_rfl) hi hin
    rwa [hfirst] at this
  · exact BinarySearch.search_all (blockCmp_monotone hlt) hpos 0 cmp

theorem lookupGetSearchKey_node {nlevels : Nat} {b : BtreeBlock R K} {xs ys : List Nat} {p : Nat}
    {r : R} {rs : List R} (hb : WfBlock ops store nlevels (level + 1) before after b)
    (hptrs : b.ptrs = xs ++ p :: ys) (hrecs : btreeRecs store level (.buf p) = r :: rs) :
    lookupGetSearchKey ops (level + 1) (xs.length + 1) b = ops.initKeyFromRec r := by
  have hkey := hb.keys xs.length p (by rw [hptrs]; simp)
  rw [Nat.add_sub_cancel, hrecs] at hkey
  rw [lookupGetSearchKey, if_neg (Nat.succ_ne_zero _), Nat.add_sub_cancel, hkey]
  rfl

omit [LinearOrder K] in
theorem lookupGetSearchKey_leaf {b : BtreeBlock R K} (hi : i < b.recs.length) :
    lookupGetSearchKey ops 0 (i + 1) b = ops.initKeyFromRec b.recs[i] := by
  rw [lookupGetSearchKey, if_pos rfl, Nat.add_sub_cancel, getElem?_eq_getElem hi]
  rfl

/-- The key is not outside the block. After a match it is the first one below it. -/
structure Sought (ops : BtreeKeyOps R K) (store : BtreeStore R K) (k : K) (level : Nat)
    (loc : BlockLoc) (before after : List BlockLoc) (cmp : Ordering) : Prop where
  lt : ∀ r ∈ before.flatMap (btreeRecs store level), ops.initKeyFromRec r < k
  gt : ∀ r ∈ after.flatMap (btreeRecs store level), k < ops.initKeyFromRec r
  low : before ≠ [] → ∀ r rs, btreeRecs store level loc = r :: rs → ops.initKeyFromRec r ≤ k
  eq : cmp = .eq → ∃ r rs, btreeRecs store level loc = r :: rs ∧ ops.initKeyFromRec r = k

theorem exists_split {α : Type} {l : List α} (hi : i < l.length) :
    ∃ xs x ys, l = xs ++ x :: ys ∧ xs.length = i := by
  refine ⟨l.take i, l[i], l.drop (i + 1), ?_, ?_⟩
  · rw [← drop_eq_getElem_cons hi, take_append_drop]
  · rw [length_take]
    omega

section Node

variable {nlevels : Nat} {b : BtreeBlock R K} {xs ys : List Nat} {p : Nat}

section

variable (hwf : WfBtree ops store cur.root cur.nlevels)
  (h : Path store cur (level + 1) loc before after) (hget : store.get loc = some b)
include hwf h hget

theorem Path.ordered_node (hptrs : b.ptrs = xs ++ p :: ys) :
    Ordered ops.initKeyFromRec (xs.flatMap (fun q => btreeRecs store level (.buf q)) ++
      (btreeRecs store level (.buf p) ++ ys.flatMap fun q => btreeRecs store level (.buf q))) := by
  have hord := (pairwise_append.mp (pairwise_append.mp (h.ordered hwf)).2.1).1
  rw [btreeRecs_node level hget, hptrs, flatMap_append, flatMap_cons] at hord
  exact hord

theorem Path.node_keys_lt (hb : WfBlock ops store nlevels (level + 1) before after b) {j : Nat}
    (hi : 1 ≤ i) (hij : i < j) (hj : j ≤ b.numrecs) :
    lookupGetSearchKey ops (level + 1) i b < lookupGetSearchKey ops (level + 1) j b := by
  rw [(hb.node (Nat.succ_ne_zero _)).1] at hj
  obtain ⟨xs, p, ys, hptrs, hlen⟩ := exists_split (show i - 1 < b.ptrs.length by omega)
  have hj' : j - i - 1 < ys.length := by
    have := congrArg List.length hptrs
    rw [length_append, length_cons] at this
    omega
  obtain ⟨zs, q, ws, hys, hlen'⟩ := exists_split hj'
  have hptrs' : b.ptrs = (xs ++ p :: zs) ++ q :: ws := by
    rw [hptrs, hys]
    simp
  obtain ⟨r, rs, hr⟩ := exists_cons_of_ne_nil
    (h.child_ne_nil (p := p) hwf hget (by rw [hptrs]; simp))
  obtain ⟨s, ss, hs⟩ := exists_cons_of_ne_nil
    (h.child_ne_nil (p := q) hwf hget (by rw [hptrs']; simp))
  have hkeyi := lookupGetSearchKey_node hb hptrs hr
  have hkeyj := lookupGetSearchKey_node hb hptrs' hs
  rw [show xs.length + 1 = i by omega] at hkeyi
  rw [show (xs ++ p :: zs).length + 1 = j by rw [length_append, length_cons]; omega] at hkeyj
  rw [hkeyi, hkeyj]
  have hord := (pairwise_append.mp (h.ordered_node hwf hget hptrs)).2.1
  rw [hr, hys] at hord
  refine (pairwise_append.mp hord).2.2 r mem_cons_self s ?_
  rw [flatMap_append, flatMap_cons, hs]
  simp

theorem Sought.child {last : Ordering} {keyno : Nat}
    (hb : WfBlock ops store nlevels (level + 1) before after b)
    (hs : Sought ops store k (level + 1) loc before after cmp)
    (hfound : BinarySearch.Found (blockCmp ops k (level + 1) b) b.numrecs keyno last)
    (hptrs : b.ptrs = xs ++ p :: ys) (hlen : xs.length + 1 = btreeLookupKeyno keyno last) :
    Sought ops store k level (.buf p) (btreeChildren store before ++ xs.map .buf)
      (ys.map .buf ++ btreeChildren store after) last := by
  obtain ⟨r, rs, hr⟩ := exists_cons_of_ne_nil
    (h.child_ne_nil (p := p) hwf hget (by rw [hptrs]; simp))
  have hkey := lookupGetSearchKey_node hb hptrs hr
  have hord := h.ordered_node hwf hget hptrs
  rw [hr] at hord
  obtain ⟨-, hord2, hbefore⟩ := pairwise_append.mp hord
  have hafter := (pairwise_append.mp hord2).2.2
  have hpos := hfound.pos
  have hcmp : ∀ i o, i = xs.length + 1 → blockCmp ops k (level + 1) b i = o →
      cmpKeyWithCur (ops.initKeyFromRec r) k = o := by
    rintro i o rfl ho
    rwa [blockCmp, hkey] at ho
  -- the first record below the pointer is not greater than the key, unless nothing is left of it
  have hlow : xs ≠ [] → ops.initKeyFromRec r ≤ k := by
    intro hne
    have hpos' : 0 < xs.length := length_pos_of_ne_nil hne
    unfold btreeLookupKeyno at hlen
    cases last with
    | lt =>
      exact le_of_lt (cmpKeyWithCur_eq_lt.mp (hcmp keyno _ (by simpa using hlen.symm) hfound.cmp_eq))
    | eq =>
      exact le_of_eq (cmpKeyWithCur_eq_eq.mp (hcmp keyno _ (by simpa using hlen.symm) hfound.cmp_eq))
    | gt =>
      rw [if_pos rfl] at hlen
      exact le_of_lt (cmpKeyWithCur_eq_lt.mp (hcmp _ _ rfl (hfound.before _ (by omega) (by omega))))
  have hhigh : k ≤ ops.initKeyFromRec r ∨ ∀ q zs, ys = q :: zs →
      k < lookupGetSearchKey ops (level + 1) (xs.length + 2) b := by
    have hbound : ∀ q zs, ys = q :: zs → xs.length + 2 ≤ b.numrecs := by
      rintro q zs rfl
      rw [(hb.node (Nat.succ_ne_zero _)).1, hptrs, length_append, length_cons, length_cons]
      omega
    unfold btreeLookupKeyno at hlen
    cases last with
    | lt =>
      refine .inr fun q zs hys => cmpKeyWithCur_eq_gt.mp (hfound.after _ ?_ (hbound q zs hys))
      simp only [reduceCtorEq, if_false] at hlen
      omega
    | eq =>
      exact .inl (le_of_eq (cmpKeyWithCur_eq_eq.mp
        (hcmp keyno _ (by simpa using hlen.symm) hfound.cmp_eq)).symm)
    | gt =>
      rw [if_pos rfl] at hlen
      have hgt := hfound.cmp_eq
      by_cases hone : keyno = 1
      · exact .inl (le_of_lt (cmpKeyWithCur_eq_gt.mp (hcmp keyno _ (by omega) hgt)))
      · refine .inr fun q zs hys => cmpKeyWithCur_eq_gt.mp ?_
        rw [show xs.length + 2 = keyno by omega]
        exact hgt
  refine ⟨fun s hs' => ?_, fun s hs' => ?_, fun hne s ss hss => ?_, fun heq => ⟨r, rs, hr, ?_⟩⟩
  · rw [flatMap_append, btreeRecs_children, mem_append, flatMap_map] at hs'
    rcases hs' with hs' | hs'
    · exact hs.lt s hs'
    · refine lt_of_lt_of_le (hbefore s hs' r (by simp)) (hlow ?_)
      rintro rfl
      cases hs'
  · rw [flatMap_append, btreeRecs_children, mem_append, flatMap_map] at hs'
    rcases hs' with hs' | hs'
    · rcases hhigh with hge | hnext
      · exact lt_of_le_of_lt hge (hafter r (by simp) s hs')
      · cases ys with
        | nil => cases hs'
        | cons q zs =>
          have hptrs' : b.ptrs = (xs ++ [p]) ++ q :: zs := by
            rw [hptrs]
            simp
          obtain ⟨t, ts, ht⟩ := exists_cons_of_ne_nil
            (h.child_ne_nil (p := q) hwf hget (by rw [hptrs']; simp))
          have hkeyq := lookupGetSearchKey_node hb hptrs' ht
          rw [length_append, length_singleton] at hkeyq
          have hlt := hnext q zs rfl
          rw [hkeyq] at hlt
          have hord3 := (pairwise_append.mp hord2).2.1
          rw [flatMap_cons, ht, cons_append] at hord3 hs'
          rcases mem_cons.mp hs' with rfl | hs'
          · exact hlt
          · exact lt_trans hlt ((pairwise_cons.mp hord3).1 s hs')
    · exact hs.gt s hs'
  · obtain ⟨rfl, -⟩ := List.cons.inj (hr.symm.trans hss)
    cases xs with
    | cons x xs => exact hlow (cons_ne_nil _ _)
    | nil =>
      have hne' : before ≠ [] := by
        rintro rfl
        exact hne rfl
      refine hs.low hne' r (rs ++ ys.flatMap fun q => btreeRecs store level (.buf q)) ?_
      rw [btreeRecs_node level hget, hptrs, nil_append, flatMap_cons, hr]
      rfl
  · subst heq
    unfold btreeLookupKeyno at hlen
    exact cmpKeyWithCur_eq_eq.mp (hcmp keyno _ (by simpa using hlen.symm) hfound.cmp_eq)

end

end Node

structure FoundInLeaf (ops : BtreeKeyOps R K) (store : BtreeStore R K) (k : K) (cur cur' : BtreeCur)
    (loc : BlockLoc) (before after : List BlockLoc) (b : BtreeBlock R K) (keyno : Nat)
    (cmp : Ordering) : Prop where
  same : cur.SameTree cur'
  path : Path store cur' 0 loc before after
  loc_eq : cur'.loc 0 = loc
  get : store.get loc = some b
  block : WfBlock ops store cur.nlevels 0 before after b
  found : BinarySearch.Found (blockCmp ops k 0 b) b.numrecs keyno cmp
  lt : ∀ r ∈ before.flatMap (btreeRecs store 0), ops.initKeyFromRec r < k
  gt : ∀ r ∈ after.flatMap (btreeRecs store 0), k < ops.initKeyFromRec r
  low : before ≠ [] → ∀ r rs, b.recs = r :: rs → ops.initKeyFromRec r ≤ k

theorem Path.numrecs_pos {b : BtreeBlock R K} (hne : cur.recs store ≠ [])
    (h : Path store cur level loc before after) (hget : store.get loc = some b)
    (hb : WfBlock ops store cur.nlevels level before after b) : 0 < b.numrecs := by
  by_cases hone : cur.nlevels = 1
  · cases h with
    | root hlevel =>
      obtain rfl : level = 0 := by omega
      rw [BtreeCur.recs, hone] at hne
      rw [(hb.leaf rfl).1]
      refine length_pos_of_ne_nil ?_
      rwa [btreeRecs_leaf hget] at hne
    | down above _ _ _ _ =>
      have := above.lt
      omega
  · exact hb.nonempty hone

theorem btreeLookupGetBlock_ok {b : BtreeBlock R K} (hget : store.get loc = some b)
    (hb : WfBlock ops store cur.nlevels level before after b) (hpos : 0 < b.numrecs ∨ level = 0) :
    btreeLookupGetBlock store cur level loc = .ok b := by
  have hlevel : ¬ b.level ≠ level := not_not.mpr hb.level_eq
  have hnum : ¬ (level ≠ 0 ∧ b.numrecs = 0) := by omega
  rw [btreeLookupGetBlock, btreeReadBufBlock_ok hget, ok_bind, if_neg hlevel, if_neg hnum, ite_self]
  rfl

theorem Sought.first_key {b : BtreeBlock R K} (hwf : WfBtree ops store cur.root cur.nlevels)
    (h : Path store cur level loc before after) (hget : store.get loc = some b)
    (hb : WfBlock ops store cur.nlevels level before after b)
    (hs : Sought ops store k level loc before after cmp) (heq : cmp = .eq) :
    lookupGetSearchKey ops level 1 b = k := by
  obtain ⟨r, rs, hr, hkey⟩ := hs.eq heq
  cases level with
  | zero =>
    rw [btreeRecs_leaf hget] at hr
    rw [lookupGetSearchKey, if_pos rfl, hr]
    exact hkey
  | succ level =>
    rw [btreeRecs_node level hget] at hr
    cases hp : b.ptrs with
    | nil =>
      rw [hp] at hr
      cases hr
    | cons p ps =>
      obtain ⟨t, ts, ht⟩ := exists_cons_of_ne_nil
        (h.child_ne_nil (p := p) hwf hget (by rw [hp]; simp))
      rw [hp, flatMap_cons, ht, cons_append] at hr
      obtain ⟨rfl, -⟩ := List.cons.inj hr
      have hkey' := lookupGetSearchKey_node hb (hp.trans (nil_append _).symm) ht
      rwa [hkey] at hkey'

theorem Path.keys_lt {b : BtreeBlock R K} (hwf : WfBtree ops store cur.root cur.nlevels)
    (h : Path store cur level loc before after) (hget : store.get loc = some b)
    (hb : WfBlock ops store cur.nlevels level before after b) (i j : Nat) (hi : 1 ≤ i) (hij : i < j)
    (hj : j ≤ b.numrecs) : lookupGetSearchKey ops level i b < lookupGetSearchKey ops level j b := by
  cases level with
  | zero =>
    rw [(hb.leaf rfl).1] at hj
    obtain ⟨i, rfl⟩ := Nat.exists_eq_add_of_le' hi
    obtain ⟨j, rfl⟩ := Nat.exists_eq_add_of_le' (le_trans hi (le_of_lt hij))
    have hord := (pairwise_append.mp (pairwise_append.mp (h.ordered hwf)).2.1).1
    rw [btreeRecs_leaf hget] at hord
    rw [lookupGetSearchKey_leaf (by omega), lookupGetSearchKey_leaf (by omega)]
    exact Ordered.getElem_lt hord (by omega) (by omega) (by omega)
  | succ level => exact h.node_keys_lt hwf hget hb hi hij hj

section

variable (hwf : WfBtree ops store cur.root cur.nlevels) (hne : cur.recs store ≠ [])
  (h : Path store cur level loc before after) (hs : Sought ops store k level loc before after cmp)
include hwf hne h hs

theorem btreeLookupLevel_spec : ∃ b keyno cmp', btreeLookupLevel store ops k level loc cmp cur =
        .ok (.found (cur.setbuf level loc) b keyno cmp') ∧ store.get loc = some b ∧
      WfBlock ops store cur.nlevels level before after b ∧
      BinarySearch.Found (blockCmp ops k level b) b.numrecs keyno cmp' := by
  obtain ⟨b, hget, hb⟩ := h.block hwf
  have hpos := h.numrecs_pos hne hget hb
  refine ⟨b, _, _, ?_, hget, hb, btreeLookupBlock_found hpos (h.keys_lt hwf hget hb)
    (hs.first_key hwf h hget hb)⟩
  rw [btreeLookupLevel, btreeLookupGetBlock_ok hget hb (.inl hpos), ok_bind, if_neg (by omega)]
  rfl

theorem btreeLookupLevels_spec : ∃ cur' loc' before' after' b keyno cmp',
      btreeLookupLevels store ops k level loc cmp cur = .ok (.found cur' b keyno cmp') ∧
      FoundInLeaf ops store k cur cur' loc' before' after' b keyno cmp' := by
  induction level generalizing loc before after cmp cur with
  | zero =>
    obtain ⟨b, keyno, cmp', hrun, hget, hb, hfound⟩ := btreeLookupLevel_spec hwf hne h hs
    exact ⟨cur.setbuf 0 loc, loc, before, after, b, keyno, cmp', hrun, ⟨rfl, rfl⟩,
      h.congr (cur.sameAbove_setbuf loc (le_rfl)), BtreeCur.loc_setbuf_self, hget, hb, hfound,
      hs.lt, hs.gt, fun hne r rs hr => hs.low hne r rs ((btreeRecs_leaf hget).trans hr)⟩
  | succ level ih =>
    obtain ⟨b, keyno, cmp', hrun, hget, hb, hfound⟩ := btreeLookupLevel_spec hwf hne h hs
    have hpos := hfound.pos
    have hle := hfound.le
    have hlt := hb.numrecs_lt
    have hnum := (hb.node (Nat.succ_ne_zero _)).1
    have hkeyno : 1 ≤ btreeLookupKeyno keyno cmp' ∧ btreeLookupKeyno keyno cmp' ≤ b.numrecs := by
      unfold btreeLookupKeyno
      split_ifs <;> omega
    obtain ⟨xs, p, ys, hptrs, hlen⟩ :=
      exists_split (show btreeLookupKeyno keyno cmp' - 1 < b.ptrs.length by omega)
    have hlen' : btreeLookupKeyno keyno cmp' = xs.length + 1 := by omega
    let cur1 := (cur.setbuf (level + 1) loc).setPtr (level + 1) (btreeLookupKeyno keyno cmp')
    have habove : Path store cur1 (level + 1) loc before after := h.congr
      ((cur.sameAbove_setbuf loc (le_rfl)).trans (BtreeCur.sameAbove_setPtr _ _ (le_rfl)))
    have hpath : Path store cur1 level (.buf p) _ _ := .down habove
      (by rw [BtreeCur.loc_setPtr, BtreeCur.loc_setbuf_self]) hget hptrs
      ((BtreeCur.ptr_setPtr_self (by omega)).trans hlen')
    have hwf1 : WfBtree ops store cur1.root cur1.nlevels := hwf
    have hne1 : cur1.recs store ≠ [] := hne
    obtain ⟨cur', loc', before', after', b', keyno', cmp'', hrun', hleaf⟩ := ih hwf1 hne1 hpath
      (hs.child hwf h hget hb hfound hptrs hlen'.symm)
    refine ⟨cur', loc', before', after', b', keyno', cmp'', ?_,
      ⟨hleaf.same.nlevels, hleaf.same.root⟩, hleaf.path, hleaf.loc_eq, hleaf.get, hleaf.block, hleaf.found, hleaf.lt, hleaf.gt, hleaf.low⟩
    rw [btreeLookupLevels, hrun, ok_bind]
    simp only [btreePtrAddr_ok hptrs hlen', ok_bind]
    exact hrun'

end

end Xfs
