import Xfs.Btree.CursorExact
import Xfs.Btree.Query

/-! A query calls back for the records that overlap the range, in their order. -/
namespace Xfs

open BtreeCur Nat List RecordCursor BinarySearch

variable {R K σ : Type} [LinearOrder K] {ops : BtreeKeyOps R K} {store : BtreeStore R K}
  {cur : BtreeCur} {level : Nat} {before after : List BlockLoc} {b : BtreeBlock R K}
  {lowKey highKey : K} {fn : R → EStateM Errno σ Unit} {fuel : Nat} {ys xs l : List R} {r : R}

/-- The record overlaps the range. -/
def queryHit (ops : BtreeKeyOps R K) (lowKey highKey : K) (r : R) : Bool :=
  decide (lowKey ≤ ops.initHighKeyFromRec r ∧ ops.initKeyFromRec r ≤ highKey)

omit [LinearOrder K] in
theorem ofExcept_ok_bind {α β : Type} (a : α) (k : α → EStateM Errno σ β) :
    (ofExcept (.ok a) >>= k) = k a := rfl

theorem filter_queryHit_of_gt (h : ∀ r ∈ l, highKey < ops.initKeyFromRec r) :
    l.filter (queryHit ops lowKey highKey) = [] := by
  rw [filter_eq_nil_iff]
  intro r hr
  rw [queryHit, decide_eq_true_eq]
  exact fun hit => absurd hit.2 (not_le_of_gt (h r hr))

theorem filter_queryHit_of_lt (h : ∀ r ∈ l, ops.initHighKeyFromRec r < lowKey) :
    l.filter (queryHit ops lowKey highKey) = [] := by
  rw [filter_eq_nil_iff]
  intro r hr
  rw [queryHit, decide_eq_true_eq]
  exact fun hit => absurd hit.1 (not_le_of_gt (h r hr))

theorem filter_queryHit_of_first_gt (hord : Ordered ops.initKeyFromRec (r :: l))
    (h : highKey < ops.initKeyFromRec r) : (r :: l).filter (queryHit ops lowKey highKey) = [] := by
  refine filter_queryHit_of_gt fun s hs => ?_
  rcases mem_cons.mp hs with rfl | hs
  · exact h
  · exact lt_trans h ((pairwise_cons.mp hord).1 s hs)

def queryCost (store : BtreeStore R K) : Nat → BlockLoc → Nat
  | 0, loc => (btreeRecs store 0 loc).length + 1
  | level + 1, loc =>
    ((((store.get loc).map BtreeBlock.ptrs).getD []).map fun p => queryCost store level (.buf p) + 1).sum + 1

omit [LinearOrder K] in
theorem BtreeCur.SameAbove.mono {cur' : BtreeCur} {lev : Nat} (h : cur.SameAbove cur' level)
    (hle : level ≤ lev) : cur.SameAbove cur' lev :=
  ⟨h.nlevels, h.root, fun l hl => h.loc l (by omega), fun l hl => h.ptr l (by omega)⟩

def Visits (ops : BtreeKeyOps R K) (store : BtreeStore R K) (lowKey highKey : K)
    (fn : R → EStateM Errno σ Unit) (level fuel : Nat) (base cur : BtreeCur) (recs : List R)
    (cost : Nat) : Prop :=
  ∃ fuel' cur', fuel - cost ≤ fuel' ∧ base.SameAbove cur' level ∧
    btreeOverlappedQueryLoop store ops lowKey highKey fn fuel level cur =
      (forM (recs.filter (queryHit ops lowKey highKey)) fn >>= fun _ =>
        btreeOverlappedQueryLoop store ops lowKey highKey fn fuel' (level + 1) (cur'.popUp level))

theorem visits_nil (hget : store.get (cur.loc level) = some b) (hend : b.numrecs < cur.ptr level)
    (hlt : level < cur.nlevels) {base : BtreeCur} (hsame : base.SameAbove cur level)
    (hfuel : 1 ≤ fuel) : Visits ops store lowKey highKey fn level fuel base cur [] 1 := by
  obtain ⟨fuel, rfl⟩ := Nat.exists_eq_add_of_le' hfuel
  refine ⟨fuel, cur, le_rfl, hsame, ?_⟩
  rw [btreeOverlappedQueryLoop, if_pos hlt, btreeOverlappedMove, btreeReadBufBlock_ok hget, ok_bind,
    if_pos hend]
  rfl

theorem btreeOverlappedQueryLoop_leaf (hget : store.get (cur.loc 0) = some b)
    (hnum : b.numrecs = b.recs.length) (hmax : b.numrecs + 2 < 2 ^ 16)
    (hord : Ordered ops.initKeyFromRec b.recs) (hlt : 0 < cur.nlevels) (hrecs : b.recs = xs ++ ys)
    (hptr : cur.ptr 0 = xs.length + 1) (hfuel : ys.length + 1 ≤ fuel) :
    Visits ops store lowKey highKey fn 0 fuel cur cur ys (ys.length + 1) := by
  induction ys generalizing xs cur fuel with
  | nil =>
    refine visits_nil hget ?_ hlt (.refl _ _) hfuel
    rw [hnum, hrecs, append_nil]
    omega
  | cons r ys ih =>
    obtain ⟨fuel, rfl⟩ := Nat.exists_eq_add_of_le' (show 1 ≤ fuel by omega)
    rw [length_cons] at hfuel
    have hlen : b.recs.length = xs.length + (ys.length + 1) := by
      rw [hrecs, length_append, length_cons]
    have hin : ¬ b.numrecs < cur.ptr 0 := by omega
    have hrec : (b.recs[cur.ptr 0 - 1]?).getD ops.stale = r := by
      rw [hrecs, hptr, Nat.add_sub_cancel]
      simp
    have hnext : (cur.nextPtr 0).ptr 0 = (xs ++ [r]).length + 1 := by
      rw [BtreeCur.nextPtr, ptr_setPtr_self (by omega), hptr, length_append]
      rfl
    have hsame : cur.SameAbove (cur.nextPtr 0) 0 := cur.sameAbove_setPtr _ (le_rfl)
    have hget' : store.get ((cur.nextPtr 0).loc 0) = some b := by
      exact hget
    obtain ⟨fuel', cur', hle, hsame', hrun⟩ := ih hget' (hlt)
      (by rw [hrecs]; simp) hnext (show ys.length + 1 ≤ fuel by omega)
    rw [Visits, btreeOverlappedQueryLoop, if_pos hlt, btreeOverlappedMove, btreeReadBufBlock_ok hget,
      ok_bind, if_neg hin, if_pos rfl]
    simp only [hrec]
    by_cases hhigh : highKey < ops.initKeyFromRec r
    · -- no more interesting records in this block
      rw [hrecs] at hord
      rw [filter_queryHit_of_first_gt (pairwise_append.mp hord).2.1 hhigh, if_pos hhigh]
      exact ⟨fuel, cur, by omega, .refl _ _, rfl⟩
    refine ⟨fuel', cur', by rw [length_cons]; omega, hsame.trans hsame', ?_⟩
    rw [if_neg hhigh]
    by_cases hlow : lowKey ≤ ops.initHighKeyFromRec r
    · have hhit : queryHit ops lowKey highKey r := decide_eq_true ⟨hlow, not_lt.mp hhigh⟩
      rw [if_pos hlow, filter_cons_of_pos hhit, forM_cons, bind_assoc, ← hrun]
      rfl
    · have hmiss : ¬ queryHit ops lowKey highKey r := fun h => hlow (of_decide_eq_true h).1
      rw [if_neg hlow, filter_cons_of_neg hmiss, ← hrun]
      rfl

theorem le_highest {k : WithBot K} {ks : List (WithBot K)} (h : k ∈ ks) : k ≤ highest ks := by
  induction ks with
  | nil => cases h
  | cons l ks ih =>
    rcases mem_cons.mp h with rfl | h
    · exact le_max_left _ _
    · exact le_trans (ih h) (le_max_right _ _)

theorem recsKey_high_lt {recs : List R} (hov : ops.overlapping)
    (h : ¬ (lowKey : WithBot K) ≤ (recsKey ops recs).high) :
    ∀ r ∈ recs, ops.initHighKeyFromRec r < lowKey := by
  intro r hr
  simp only [recsKey, if_pos hov] at h
  have hle : (ops.initHighKeyFromRec r : WithBot K) ≤
      highest (recs.map fun r => (ops.initHighKeyFromRec r : WithBot K)) :=
    le_highest (mem_map.mpr ⟨r, hr, rfl⟩)
  exact WithBot.coe_lt_coe.mp (lt_of_le_of_lt hle (not_le.mp h))

/-- The work for the rest of a node. -/
def queryCosts (store : BtreeStore R K) (level : Nat) (ptrs : List Nat) : Nat :=
  (ptrs.map fun p => queryCost store level (.buf p) + 1).sum + 1

omit [LinearOrder K] in
theorem queryCost_succ {loc : BlockLoc} (level : Nat) (hget : store.get loc = some b) :
    queryCost store (level + 1) loc = queryCosts store level b.ptrs := by
  rw [queryCost, hget]
  rfl

/-- The walk over a block calls back for the records below it, and goes on one level up. -/
def VisitsBlocks (ops : BtreeKeyOps R K) (store : BtreeStore R K) (lowKey highKey : K)
    (fn : R → EStateM Errno σ Unit) (level : Nat) : Prop :=
  ∀ (cur : BtreeCur) (fuel : Nat) (before after : List BlockLoc),
    Path store cur level (cur.loc level) before after → WfBtree ops store cur.root cur.nlevels →
    cur.ptr level = 1 → queryCost store level (cur.loc level) ≤ fuel →
    ∃ fuel' cur', fuel - queryCost store level (cur.loc level) ≤ fuel' ∧ cur.SameAbove cur' level ∧
      btreeOverlappedQueryLoop store ops lowKey highKey fn fuel level cur =
        (forM ((btreeRecs store level (cur.loc level)).filter (queryHit ops lowKey highKey)) fn >>= fun _ =>
          btreeOverlappedQueryLoop store ops lowKey highKey fn fuel' (level + 1) (cur'.popUp level))

theorem visitsBlocks_zero : VisitsBlocks ops store lowKey highKey fn 0 := by
  intro cur fuel before after hpath hwf hptr hfuel
  obtain ⟨b, hget, hb⟩ := hpath.block hwf
  rw [queryCost, btreeRecs_leaf hget] at hfuel ⊢
  have hord := (pairwise_append.mp (pairwise_append.mp (hpath.ordered hwf)).2.1).1
  rw [btreeRecs_leaf hget] at hord
  exact btreeOverlappedQueryLoop_leaf hget (hb.leaf rfl).1 hb.numrecs_lt hord hpath.lt
    (nil_append _).symm hptr hfuel

theorem btreeOverlappedQueryLoop_node (hov : ops.overlapping)
    (hchild : VisitsBlocks ops store lowKey highKey fn level)
    (hpath : Path store cur (level + 1) (cur.loc (level + 1)) before after)
    (hwf : WfBtree ops store cur.root cur.nlevels) (hget : store.get (cur.loc (level + 1)) = some b)
    (hb : WfBlock ops store cur.nlevels (level + 1) before after b) {cur1 : BtreeCur}
    (hsame : cur.SameAbove cur1 (level + 1)) (hloc : cur1.loc (level + 1) = cur.loc (level + 1))
    {xs ys : List Nat} (hptrs : b.ptrs = xs ++ ys) (hptr : cur1.ptr (level + 1) = xs.length + 1)
    (hfuel : queryCosts store level ys ≤ fuel) :
    Visits ops store lowKey highKey fn (level + 1) fuel cur cur1
      (ys.flatMap fun p => btreeRecs store level (.buf p)) (queryCosts store level ys) := by
  have hnum := (hb.node (succ_ne_zero _)).1
  have hmax := hb.numrecs_lt
  induction ys generalizing xs cur1 fuel with
  | nil =>
    refine visits_nil (hloc ▸ hget) ?_ (hsame.nlevels ▸ hpath.lt) hsame hfuel
    rw [hnum, hptrs, append_nil]
    omega
  | cons p ys ih =>
    have hcost : queryCosts store level (p :: ys) =
        queryCost store level (.buf p) + 1 + queryCosts store level ys := by
      simp only [queryCosts, map_cons, sum_cons]
      omega
    obtain ⟨fuel, rfl⟩ := Nat.exists_eq_add_of_le' (show 1 ≤ fuel by omega)
    have hlen : b.ptrs.length = xs.length + (ys.length + 1) := by
      rw [hptrs, length_append, length_cons]
    have hin : ¬ b.numrecs < cur1.ptr (level + 1) := by omega
    have hkey : b.keys[cur1.ptr (level + 1) - 1]? =
        some (recsKey ops (btreeRecs store level (.buf p))) := by
      rw [hptr, Nat.add_sub_cancel]
      exact hb.keys xs.length p (by rw [hptrs]; simp)
    have hptrs' : b.ptrs = (xs ++ [p]) ++ ys := by
      rw [hptrs]
      simp
    have hnext : xs.length + 1 + 1 = (xs ++ [p]).length + 1 := by
      rw [length_append]
      rfl
    obtain ⟨r, rs, hr⟩ := exists_cons_of_ne_nil
      (hpath.child_ne_nil (p := p) hwf hget (by rw [hptrs]; simp))
    have hlow : (recsKey ops (btreeRecs store level (.buf p))).low = ops.initKeyFromRec r := by
      rw [hr]
      rfl
    have hnodup : level + 1 ≠ 0 := succ_ne_zero _
    have hpath1 := hpath.congr hsame
    rw [← hloc] at hget hpath1
    have hlt := hpath1.lt
    rw [Visits, btreeOverlappedQueryLoop, if_pos hlt, btreeOverlappedMove, btreeReadBufBlock_ok hget,
      ok_bind, if_neg hin, if_neg hnodup]
    simp only [hkey, Option.getD_some, hlow]
    have hwf1 : WfBtree ops store cur1.root cur1.nlevels := by
      rwa [hsame.root, hsame.nlevels]
    by_cases hhigh : highKey < ops.initKeyFromRec r
    · -- no more interesting keys in this block
      have hord := (pairwise_append.mp (hpath1.ordered_node hwf1 hget hptrs)).2.1
      rw [hr, cons_append] at hord
      rw [flatMap_cons, hr, cons_append, filter_queryHit_of_first_gt hord hhigh, if_pos hhigh]
      exact ⟨fuel, cur1, by omega, hsame, rfl⟩
    rw [if_neg hhigh, flatMap_cons, filter_append]
    by_cases hcover : (lowKey : WithBot K) ≤ (recsKey ops (btreeRecs store level (.buf p))).high
    · -- follow the pointer, and come back at the next one
      have hdown := Path.down hpath1 rfl hget hptrs hptr
      obtain ⟨c, hgetc, hbc⟩ := hdown.block hwf1
      have hposc := hbc.nonempty (by omega)
      let cur2 := (cur1.setbuf level (.buf p)).setPtr level 1
      have hsame2 : cur1.SameAbove cur2 level := (cur1.sameAbove_setbuf (.buf p) (le_rfl)).trans
        (sameAbove_setPtr _ 1 (le_rfl))
      have hloc2 : cur2.loc level = .buf p := by
        rw [loc_setPtr, loc_setbuf_self]
      have hpath2 := hdown.congr hsame2
      rw [← hloc2] at hpath2
      obtain ⟨fuel1, cur3, hle1, hsame3, hrun1⟩ := hchild cur2 fuel _ _ hpath2 hwf1
        (ptr_setPtr_self (by decide)) (by rw [hloc2]; omega)
      rw [hloc2] at hle1 hrun1
      have hsame13 := hsame2.trans hsame3
      have hpop : cur3.popUp level = cur3.nextPtr (level + 1) := by
        rw [BtreeCur.popUp, hsame13.nlevels, if_pos (by omega)]
      have hptr3 : (cur3.nextPtr (level + 1)).ptr (level + 1) = xs.length + 1 + 1 := by
        rw [BtreeCur.nextPtr, hsame13.ptr _ (lt_succ_self _), hptr, ptr_setPtr_self (by omega)]
      have hloc3 : (cur3.nextPtr (level + 1)).loc (level + 1) = cur.loc (level + 1) := by
        rw [BtreeCur.nextPtr, loc_setPtr, hsame13.loc _ (lt_succ_self _), hloc]
      have hsame3 : cur.SameAbove (cur3.nextPtr (level + 1)) (level + 1) :=
        hsame.trans ((hsame13.mono (le_succ _)).trans (cur3.sameAbove_setPtr _ (le_rfl)))
      obtain ⟨fuel', cur', hle, hsame', hrun⟩ := ih hsame3 hloc3 hptrs' (hptr3.trans hnext)
        (show queryCosts store level ys ≤ fuel1 by omega)
      refine ⟨fuel', cur', by omega, hsame', ?_⟩
      rw [if_pos hcover, btreePtrAddr_ok hptrs hptr, ok_bind, Nat.add_sub_cancel,
        btreeLookupGetBlock_ok hgetc hbc (.inl hposc), forM_append, bind_assoc, ← hrun, ← hpop,
        ← hrun1]
      rfl
    · rw [if_neg hcover, filter_queryHit_of_lt (recsKey_high_lt hov hcover), nil_append]
      have hptr2 : (cur1.nextPtr (level + 1)).ptr (level + 1) = xs.length + 1 + 1 := by
        rw [BtreeCur.nextPtr, hptr, ptr_setPtr_self (by omega)]
      obtain ⟨fuel', cur', hle, hsame', hrun⟩ := ih
        (hsame.trans (cur1.sameAbove_setPtr _ (le_rfl))) (loc_setPtr.trans hloc) hptrs'
        (hptr2.trans hnext) (show queryCosts store level ys ≤ fuel by omega)
      exact ⟨fuel', cur', by omega, hsame', hrun⟩

theorem visitsBlocks (hov : ops.overlapping) (level : Nat) :
    VisitsBlocks ops store lowKey highKey fn level := by
  induction level with
  | zero => exact visitsBlocks_zero
  | succ level ih =>
    intro cur fuel before after hpath hwf hptr hfuel
    obtain ⟨b, hget, hb⟩ := hpath.block hwf
    rw [queryCost_succ level hget] at hfuel ⊢
    rw [btreeRecs_node level hget]
    exact btreeOverlappedQueryLoop_node hov ih hpath hwf hget hb (.refl _ _) rfl (nil_append _).symm
      hptr hfuel

omit [LinearOrder K] in
theorem BtreeCur.popUp_nlevels : (cur.popUp level).nlevels = cur.nlevels := by
  unfold BtreeCur.popUp
  split_ifs <;> rfl

theorem btreeOverlappedQueryLoop_end (h : ¬ level < cur.nlevels) :
    btreeOverlappedQueryLoop store ops lowKey highKey fn fuel level cur = pure () := by
  cases fuel with
  | zero => rfl
  | succ fuel => rw [btreeOverlappedQueryLoop, if_neg h]

theorem btreeOverlappedQueryRange_eq (hov : ops.overlapping)
    (hwf : WfBtree ops store cur.root cur.nlevels)
    (hfuel : queryCost store (cur.nlevels - 1) cur.root ≤ fuel) :
    btreeOverlappedQueryRange store ops fuel cur lowKey highKey fn =
      forM ((cur.recs store).filter (queryHit ops lowKey highKey)) fn := by
  have hpos := hwf.pos
  have hroot : Path store cur (cur.nlevels - 1) cur.root [] [] := .root (by omega)
  obtain ⟨b, hget, hb⟩ := hroot.block hwf
  let cur1 := (cur.setbuf (cur.nlevels - 1) cur.root).setPtr (cur.nlevels - 1) 1
  have hloc1 : cur1.loc (cur.nlevels - 1) = cur.root := by
    rw [loc_setPtr, loc_setbuf_self]
  have hpath1 : Path store cur1 (cur.nlevels - 1) (cur1.loc (cur.nlevels - 1)) [] [] := by
    rw [hloc1]
    exact .root (show cur.nlevels - 1 + 1 = cur.nlevels by omega)
  have hvisits : VisitsBlocks ops store lowKey highKey fn (cur.nlevels - 1) := visitsBlocks hov _
  obtain ⟨fuel', cur', -, hsame, hrun⟩ := hvisits cur1 fuel _ _ hpath1 hwf
    (ptr_setPtr_self (by decide)) (by rw [hloc1]; exact hfuel)
  have hnonempty : 0 < b.numrecs ∨ cur.nlevels - 1 = 0 := by
    by_cases hone : cur.nlevels = 1
    · exact .inr (by omega)
    · exact .inl (hb.nonempty hone)
  have hend : ¬ cur.nlevels - 1 + 1 < (cur'.popUp (cur.nlevels - 1)).nlevels := by
    rw [popUp_nlevels, hsame.nlevels]
    show ¬ cur.nlevels - 1 + 1 < cur.nlevels
    omega
  rw [btreeOverlappedQueryRange, btreeLookupGetBlock_ok hget hb hnonempty, ofExcept_ok_bind, hrun, hloc1]
  simp only [btreeOverlappedQueryLoop_end hend]
  exact bind_pure_unit

structure DisjointRecs (ops : BtreeKeyOps R K) (recs : List R) : Prop where
  interval : ∀ r ∈ recs, ops.initKeyFromRec r ≤ ops.initHighKeyFromRec r
  disjoint : recs.Pairwise fun r s => ops.initHighKeyFromRec r < ops.initKeyFromRec s

section

variable (hwf : WfBtree ops store cur.root cur.nlevels) (hrecs : cur.recs store = xs ++ r :: ys)
  (hat : AtPos store cur (xs.length + 1))
include hwf hrecs hat

theorem btreeSimpleQueryLoop_step (firstrec : Bool) (fuel : Nat) :
    ∃ cur', cur.SameTree cur' ∧ AtPos store cur' ((xs ++ [r]).length + 1) ∧
      btreeSimpleQueryLoop store ops lowKey highKey fn (fuel + 1) firstrec cur =
        (btreeSimpleQueryRec ops lowKey highKey fn firstrec r >>= fun goOn =>
          if goOn ∧ ys ≠ [] then btreeSimpleQueryLoop store ops lowKey highKey fn fuel false cur'
          else pure ()) := by
  have hlen : (cur.recs store).length = xs.length + (ys.length + 1) := by
    rw [hrecs, length_append, length_cons]
  obtain ⟨-, s, hs, hget⟩ := hat.onRec hwf (by omega)
  obtain rfl : r = s := by
    rw [hrecs] at hs
    simpa using hs
  obtain ⟨cur', hinc, hsame, hat'⟩ := btreeIncrement_atPos hwf hat (by omega)
  refine ⟨cur', hsame, by rw [length_append]; exact hat', ?_⟩
  have hnext : xs.length + 1 < (cur.recs store).length ↔ ys ≠ [] := by
    rw [← length_pos_iff]
    omega
  rw [btreeSimpleQueryLoop, hget, ofExcept_ok_bind, hinc]
  refine bind_congr fun goOn => ?_
  cases goOn with
  | false => simp
  | true =>
    simp [ofExcept_ok_bind, hnext]

theorem btreeSimpleQueryLoop_rest (hfuel : ys.length < fuel) :
    btreeSimpleQueryLoop store ops lowKey highKey fn fuel false cur =
      forM ((r :: ys).filter fun s => decide (ops.initKeyFromRec s ≤ highKey)) fn := by
  induction fuel generalizing xs ys r cur with
  | zero => omega
  | succ fuel ih =>
    obtain ⟨cur', hsame, hat', hrun⟩ := btreeSimpleQueryLoop_step hwf hrecs hat false fuel
    have hcont : (if true ∧ ys ≠ [] then
        btreeSimpleQueryLoop store ops lowKey highKey fn fuel false cur' else pure ()) =
          forM (ys.filter fun s => decide (ops.initKeyFromRec s ≤ highKey)) fn := by
      cases ys with
      | nil => rfl
      | cons s ys =>
        rw [length_cons] at hfuel
        exact ih (hwf.sameTree hsame) (by rw [hsame.recs, hrecs]; simp) hat' (by omega)
    rw [hrun, btreeSimpleQueryRec, if_neg (by simp)]
    by_cases hhigh : highKey < ops.initKeyFromRec r
    · have hord : Ordered ops.initKeyFromRec (cur.recs store) := hwf.ordered
      rw [hrecs] at hord
      have hright := (pairwise_cons.mp (pairwise_append.mp hord).2.1).1
      have hnil : (r :: ys).filter (fun s => decide (ops.initKeyFromRec s ≤ highKey)) = [] := by
        rw [filter_eq_nil_iff]
        intro s hs
        rw [decide_eq_true_eq, not_le]
        rcases mem_cons.mp hs with rfl | hs
        · exact hhigh
        · exact lt_trans hhigh (hright s hs)
      rw [if_pos hhigh, hnil]
      rfl
    · have hin : decide (ops.initKeyFromRec r ≤ highKey) := decide_eq_true (not_lt.mp hhigh)
      rw [if_neg hhigh, filter_cons, if_pos hin, forM_cons, bind_assoc]
      exact bind_congr fun _ => hcont

end

def simpleCalls (ops : BtreeKeyOps R K) (lowKey highKey : K) (r : R) (ys : List R) : List R :=
  (if ops.initHighKeyFromRec r < lowKey then ys else r :: ys).filter fun s =>
    decide (ops.initKeyFromRec s ≤ highKey)

theorem btreeSimpleQueryLoop_first (hwf : WfBtree ops store cur.root cur.nlevels)
    (hrecs : cur.recs store = xs ++ r :: ys) (hat : AtPos store cur (xs.length + 1))
    (hfuel : ys.length < fuel) :
    btreeSimpleQueryLoop store ops lowKey highKey fn fuel true cur =
      forM (simpleCalls ops lowKey highKey r ys) fn := by
  by_cases hskip : ops.initHighKeyFromRec r < lowKey
  · obtain ⟨fuel, rfl⟩ := Nat.exists_eq_add_of_le' (show 1 ≤ fuel by omega)
    obtain ⟨cur', hsame, hat', hrun⟩ := btreeSimpleQueryLoop_step hwf hrecs hat true fuel
    rw [hrun, btreeSimpleQueryRec, if_pos ⟨rfl, hskip⟩, simpleCalls, if_pos hskip, pure_bind]
    cases ys with
    | nil => rfl
    | cons s ys =>
      rw [length_cons] at hfuel
      exact btreeSimpleQueryLoop_rest (hwf.sameTree hsame) (by rw [hsame.recs, hrecs]; simp) hat' (by omega)
  · -- a record that is not skipped is handled like all others
    have hsame : btreeSimpleQueryLoop store ops lowKey highKey fn fuel true cur =
        btreeSimpleQueryLoop store ops lowKey highKey fn fuel false cur := by
      obtain ⟨fuel, rfl⟩ := Nat.exists_eq_add_of_le' (show 1 ≤ fuel by omega)
      obtain ⟨-, s, hs, hget⟩ := hat.onRec hwf (by rw [hrecs, length_append, length_cons]; omega)
      obtain rfl : r = s := by
        rw [hrecs] at hs
        simpa using hs
      rw [btreeSimpleQueryLoop, btreeSimpleQueryLoop, hget, ofExcept_ok_bind, ofExcept_ok_bind]
      simp [btreeSimpleQueryRec, hskip]
    rw [hsame, btreeSimpleQueryLoop_rest hwf hrecs hat hfuel, simpleCalls, if_neg hskip]

theorem simpleCalls_eq (hint : ∀ s ∈ r :: ys, ops.initKeyFromRec s ≤ ops.initHighKeyFromRec s)
    (hlow : ∀ s ∈ ys, lowKey < ops.initKeyFromRec s) :
    simpleCalls ops lowKey highKey r ys = (r :: ys).filter (queryHit ops lowKey highKey) := by
  have hrest : ys.filter (fun s => decide (ops.initKeyFromRec s ≤ highKey)) =
      ys.filter (queryHit ops lowKey highKey) := by
    refine filter_congr fun s hs => ?_
    rw [queryHit, decide_eq_decide]
    exact (and_iff_right (le_trans (le_of_lt (hlow s hs)) (hint s (mem_cons_of_mem _ hs)))).symm
  rw [simpleCalls]
  by_cases hskip : ops.initHighKeyFromRec r < lowKey
  · have hmiss : ¬ queryHit ops lowKey highKey r := fun h =>
      absurd (of_decide_eq_true h).1 (not_le_of_gt hskip)
    rw [if_pos hskip, filter_cons_of_neg hmiss, hrest]
  · have hfirst : queryHit ops lowKey highKey r = decide (ops.initKeyFromRec r ≤ highKey) := by
      rw [queryHit, decide_eq_decide]
      exact and_iff_right (not_lt.mp hskip)
    rw [if_neg hskip, filter_cons, filter_cons, hfirst, hrest]

section

variable (hwf : WfBtree ops store cur.root cur.nlevels)
include hwf

theorem btreeSimpleQueryStart_spec (hne : cur.recs store ≠ []) (lowKey : K) :
    ∃ cur' xs r ys, btreeSimpleQueryStart store ops cur lowKey = .ok (cur', true) ∧ cur.SameTree cur' ∧
      cur.recs store = xs ++ r :: ys ∧ AtPos store cur' (xs.length + 1) ∧
      (xs = [] ∨ ops.initKeyFromRec r ≤ lowKey) ∧ ∀ s ∈ ys, lowKey < ops.initKeyFromRec s := by
  obtain ⟨cur1, n, hrun, hsame, hat, hcut⟩ := btreeLookup_le_atPos hwf lowKey
  have hle := hcut.le
  have hlen : 0 < (cur.recs store).length := length_pos_iff.mpr hne
  -- the records behind the one where the query starts are greater
  have hright : ∀ (xs ys : List R) (r : R), cur.recs store = xs ++ r :: ys → n ≤ xs.length + 1 →
      ∀ s ∈ ys, lowKey < ops.initKeyFromRec s := by
    intro xs ys r hrecs hn s hs
    obtain ⟨i, hi⟩ := getElem?_of_mem hs
    have hs' : (cur.recs store)[xs.length + 1 + i]? = some s := by
      rw [hrecs, getElem?_append_right (by omega),
        show xs.length + 1 + i - xs.length = i + 1 by omega, getElem?_cons_succ]
      exact hi
    exact not_le.mp fun h => absurd ((hcut.iff _ s hs').mpr h) (by omega)
  rw [btreeSimpleQueryStart, hrun, ok_bind]
  rcases Nat.eq_zero_or_pos n with rfl | hpos
  · obtain ⟨r, ys, hrecs⟩ := exists_cons_of_ne_nil hne
    obtain ⟨cur2, hinc, hsame2, hat2⟩ := btreeIncrement_atPos (hwf.sameTree hsame) hat (zero_le _)
    rw [hsame.recs, decide_eq_true hlen] at hinc
    exact ⟨cur2, [], r, ys, hinc, hsame.trans hsame2, hrecs, hat2, .inl rfl,
      hright [] ys r hrecs (zero_le _)⟩
  obtain ⟨xs, r, ys, hrecs, hxs⟩ := exists_split (show n - 1 < (cur.recs store).length by omega)
  have hr : (cur.recs store)[xs.length]? = some r := by
    rw [hrecs]
    simp
  have hn : xs.length + 1 = n := by omega
  refine ⟨cur1, xs, r, ys, ?_, hsame, hrecs, hn ▸ hat, .inr ((hcut.iff _ r hr).mp (by omega)),
    hright xs ys r hrecs (by omega)⟩
  simp only [decide_eq_true hpos, if_true]
  rfl

theorem btreeSimpleQueryRange_calls (hfuel : (cur.recs store).length ≤ fuel) (lowKey highKey : K) :
    ∃ calls : List R, calls.Sublist (cur.recs store) ∧ (DisjointRecs ops (cur.recs store) →
        calls = (cur.recs store).filter (queryHit ops lowKey highKey)) ∧
      ∀ fn : R → EStateM Errno σ Unit,
        btreeSimpleQueryRange store ops fuel cur lowKey highKey fn = forM calls fn := by
  by_cases hne : cur.recs store = []
  · obtain ⟨cur1, n, hrun, hsame, hat, hcut⟩ := btreeLookup_le_atPos hwf lowKey
    have hn : n = 0 := by
      have := hcut.le
      rw [hne, length_nil] at this
      omega
    subst hn
    obtain ⟨cur2, hinc, -, -⟩ := btreeIncrement_atPos (hwf.sameTree hsame) hat (zero_le _)
    rw [hsame.recs, hne] at hinc
    refine ⟨[], nil_sublist _, fun _ => by rw [hne]; rfl, fun fn => ?_⟩
    rw [btreeSimpleQueryRange, btreeSimpleQueryStart, hrun, ok_bind]
    simp only [lt_irrefl, decide_false, Bool.false_eq_true, if_false]
    rw [hinc]
    rfl
  · obtain ⟨cur', xs, r, ys, hstart, hsame, hrecs, hat, hlow, hright⟩ :=
      btreeSimpleQueryStart_spec hwf hne lowKey
    have hlen : (cur.recs store).length = xs.length + (ys.length + 1) := by
      rw [hrecs, length_append, length_cons]
    refine ⟨simpleCalls ops lowKey highKey r ys, ?_, fun hdis => ?_, fun fn => ?_⟩
    · rw [hrecs]
      refine (filter_sublist.trans ?_).trans (sublist_append_right _ _)
      split_ifs
      · exact sublist_cons_self _ _
      · exact List.Sublist.refl _
    · have hint := hdis.interval
      have hdis' := hdis.disjoint
      rw [hrecs] at hint hdis'
      -- the records before the first one end before it starts, and so before the range
      have hleft : xs.filter (queryHit ops lowKey highKey) = [] := by
        refine filter_queryHit_of_lt fun s hs => ?_
        have hlt := (pairwise_append.mp hdis').2.2 s hs r mem_cons_self
        rcases hlow with rfl | hlow
        · cases hs
        · exact lt_of_lt_of_le hlt hlow
      rw [hrecs, filter_append, hleft, nil_append]
      exact simpleCalls_eq (fun s hs => hint s (mem_append_right _ hs)) hright
    · rw [btreeSimpleQueryRange, hstart, ofExcept_ok_bind]
      exact btreeSimpleQueryLoop_first (hwf.sameTree hsame) (by rw [hsame.recs]; exact hrecs) hat (by omega)

theorem btreeSimpleQueryRange_eq (hdis : DisjointRecs ops (cur.recs store))
    (hfuel : (cur.recs store).length ≤ fuel) :
    btreeSimpleQueryRange store ops fuel cur lowKey highKey fn =
      forM ((cur.recs store).filter (queryHit ops lowKey highKey)) fn := by
  obtain ⟨calls, -, hcalls, hrun⟩ := btreeSimpleQueryRange_calls hwf hfuel lowKey highKey
  rw [hrun, hcalls hdis]

end

end Xfs
