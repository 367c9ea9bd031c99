import Xfs.Btree.Position

/-! Lookups find the records they ask for, and steps visit the records in order. -/
namespace Xfs

open Nat List RecordCursor BinarySearch

variable {R K : Type} {store : BtreeStore R K} {cur cur' : BtreeCur} {before after : List BlockLoc}
  {loc : BlockLoc} {level : Nat}

/-- The block at each level is the child that the level above points to. -/
structure ConsistentPath (store : BtreeStore R K) (cur : BtreeCur) : Prop where
  root : cur.loc (cur.nlevels - 1) = cur.root
  child : ∀ level, level + 1 < cur.nlevels → ∃ b, store.get (cur.loc (level + 1)) = some b ∧
    0 < cur.ptr (level + 1) ∧ btreePtrAddr b (cur.ptr (level + 1)) = .ok (cur.loc level)

def OnRec (store : BtreeStore R K) (cur : BtreeCur) (j : Nat) : Prop :=
  ConsistentPath store cur ∧
    ∃ r, (cur.recs store)[j]? = some r ∧ btreeGetRec store cur = .ok (some r)

theorem btreePtrAddr_eq_ok {b : BtreeBlock R K} {ptr : Nat} (hpos : 0 < ptr)
    (h : btreePtrAddr b ptr = .ok loc) :
    ∃ xs p ys, b.ptrs = xs ++ p :: ys ∧ ptr = xs.length + 1 ∧ loc = .buf p := by
  unfold btreePtrAddr at h
  cases hget : b.ptrs[ptr - 1]? with
  | none =>
    rw [hget] at h
    cases h
  | some p =>
    rw [hget] at h
    obtain ⟨hi, hp⟩ := List.getElem?_eq_some_iff.mp hget
    obtain ⟨xs, q, ys, hptrs, hlen⟩ := exists_split hi
    have hq : b.ptrs[ptr - 1]? = some q := by
      rw [hptrs, ← hlen]
      simp
    obtain rfl : p = q := Option.some.inj (hget.symm.trans hq)
    exact ⟨xs, p, ys, hptrs, by omega, (Except.ok.inj h).symm⟩

theorem Path.links (h : Path store cur level loc before after) (hloc : cur.loc level = loc) :
    cur.loc (cur.nlevels - 1) = cur.root ∧ ∀ lev, level ≤ lev → lev + 1 < cur.nlevels →
      ∃ b, store.get (cur.loc (lev + 1)) = some b ∧ 0 < cur.ptr (lev + 1) ∧
        btreePtrAddr b (cur.ptr (lev + 1)) = .ok (cur.loc lev) := by
  induction h with
  | root hlevel =>
    rw [← hlevel, Nat.add_sub_cancel]
    exact ⟨hloc, fun lev hle hlt => absurd hlt (by omega)⟩
  | @down level loc before after b xs ys p above hloc' hget hptrs hptr ih =>
    obtain ⟨hroot, hlinks⟩ := ih hloc'
    refine ⟨hroot, fun lev hle hlt => ?_⟩
    rcases lt_or_eq_of_le hle with hgt | rfl
    · exact hlinks lev hgt hlt
    · refine ⟨b, by rw [hloc', hget], by omega, ?_⟩
      rw [btreePtrAddr_ok hptrs hptr, hloc]

theorem Path.consistent (h : Path store cur 0 (cur.loc 0) before after) : ConsistentPath store cur where
  root := (h.links rfl).1
  child level hlt := (h.links rfl).2 level (zero_le _) hlt

theorem ConsistentPath.path (h : ConsistentPath store cur) {n : Nat}
    (hn : level + n + 1 = cur.nlevels) :
    ∃ before after, Path store cur level (cur.loc level) before after := by
  induction n generalizing level with
  | zero =>
    have hroot : cur.loc level = cur.root := by
      rw [← h.root, ← hn]
      rfl
    rw [hroot]
    exact ⟨[], [], .root hn⟩
  | succ n ih =>
    obtain ⟨before, after, habove⟩ := ih (show level + 1 + n + 1 = cur.nlevels by omega)
    obtain ⟨b, hget, hpos, haddr⟩ := h.child level (by omega)
    obtain ⟨xs, p, ys, hptrs, hptr, hloc⟩ := btreePtrAddr_eq_ok hpos haddr
    rw [hloc]
    exact ⟨_, _, .down habove rfl hget hptrs hptr⟩

theorem AtPos.consistent {pos : Nat} (h : AtPos store cur pos) : ConsistentPath store cur := by
  obtain ⟨before, after, b, hleaf, -⟩ := h
  exact hleaf.path.consistent

section

variable [LinearOrder K] {ops : BtreeKeyOps R K} {j : Nat}

theorem AtPos.onRec (hwf : WfBtree ops store cur.root cur.nlevels) (h : AtPos store cur (j + 1))
    (hj : j < (cur.recs store).length) : OnRec store cur j := by
  refine ⟨h.consistent, ?_⟩
  obtain ⟨before, after, b, hleaf, hat⟩ := h
  have hnum := ((hleaf.path.block_of_get hwf hleaf.get).leaf rfl).1
  have hpos := hleaf.ptr_pos (by omega)
  have hle := hleaf.ptr_le (by omega)
  have hget : b.recs[cur.ptr 0 - 1]? = some b.recs[cur.ptr 0 - 1] := getElem?_eq_getElem (by omega)
  refine ⟨b.recs[cur.ptr 0 - 1], ?_, ?_⟩
  · rw [hleaf.path.recs_leaf hleaf.get, getElem?_append_right (by omega),
      getElem?_append_left (by omega),
      show j - (before.flatMap (btreeRecs store 0)).length = cur.ptr 0 - 1 by omega]
    exact hget
  · rw [btreeGetRec, btreeReadBufBlock_ok hleaf.get, ok_bind, if_neg (by omega), hget]
    rfl

theorem OnRec.atPos (hwf : WfBtree ops store cur.root cur.nlevels) (h : OnRec store cur j) :
    AtPos store cur (j + 1) := by
  obtain ⟨hcons, r, hr, hrec⟩ := h
  have hpos := hwf.pos
  obtain ⟨before, after, hpath⟩ := hcons.path (show 0 + (cur.nlevels - 1) + 1 = cur.nlevels by omega)
  obtain ⟨b, hget, hb⟩ := hpath.block hwf
  have hnum := (hb.leaf rfl).1
  rw [btreeGetRec, btreeReadBufBlock_ok hget, ok_bind] at hrec
  split_ifs at hrec with hptr
  · cases hrec
  have hrec' : b.recs[cur.ptr 0 - 1]? = some r := Except.ok.inj hrec
  have hindex : (cur.recs store)[(before.flatMap (btreeRecs store 0)).length + (cur.ptr 0 - 1)]? =
      some r := by
    rw [hpath.recs_leaf hget, getElem?_append_right (by omega), Nat.add_sub_cancel_left,
      getElem?_append_left (by omega)]
    exact hrec'
  have hj := (List.getElem?_inj (List.getElem?_eq_some_iff.mp hr).1 hwf.ordered.nodup).mp
    (hr.trans hindex.symm)
  exact ⟨before, after, b, ⟨hpath, hget, by omega, by omega⟩, by omega⟩

/-- Whether the lookup asks for a key. -/
def LookupDir.Accepts (dir : LookupDir) (k key : K) : Prop :=
  match dir with
  | .le => key ≤ k
  | .eq => key = k
  | .ge => k ≤ key

/-- The lookup asks for the last, the equal or the first record it accepts. -/
structure LookupDir.Selects (dir : LookupDir) (ops : BtreeKeyOps R K) (k : K) (recs : List R)
    (j : Nat) : Prop where
  accepts : ∃ r, recs[j]? = some r ∧ dir.Accepts k (ops.initKeyFromRec r)
  last : dir = .le → ∀ i r, j < i → recs[i]? = some r → ¬ dir.Accepts k (ops.initKeyFromRec r)
  first : dir = .ge → ∀ i r, i < j → recs[i]? = some r → ¬ dir.Accepts k (ops.initKeyFromRec r)

section

variable (hwf : WfBtree ops store cur.root cur.nlevels)
include hwf

theorem btreeLookup_spec (dir : LookupDir) (k : K) :
    ∃ cur' stat, btreeLookup store ops cur dir k = .ok (cur', stat) ∧ cur.SameTree cur' ∧
      ConsistentPath store cur' ∧
      (stat ↔ ∃ r ∈ cur.recs store, dir.Accepts k (ops.initKeyFromRec r)) ∧
      (stat → ∃ j, dir.Selects ops k (cur.recs store) j ∧ OnRec store cur' j) := by
  cases dir with
  | le =>
    obtain ⟨cur', n, hrun, hsame, hat, hcut⟩ := btreeLookup_le_atPos hwf k
    have hle := hcut.le
    refine ⟨cur', _, hrun, hsame, hat.consistent, ?_, fun hstat => ?_⟩
    · rw [decide_eq_true_eq]
      constructor
      · intro hn
        have hr := getElem?_eq_getElem (show 0 < (cur.recs store).length by omega)
        exact ⟨_, mem_of_getElem? hr, (hcut.iff 0 _ hr).mp hn⟩
      · rintro ⟨r, hr, hk⟩
        obtain ⟨i, hi⟩ := getElem?_of_mem hr
        have := (hcut.iff i r hi).mpr hk
        omega
    · rw [decide_eq_true_eq] at hstat
      obtain ⟨j, rfl⟩ := Nat.exists_eq_add_of_le' hstat
      have hr := getElem?_eq_getElem (show j < (cur.recs store).length by omega)
      refine ⟨j, ⟨⟨_, hr, (hcut.iff j _ hr).mp (lt_succ_self _)⟩, ?_, LookupDir.noConfusion⟩, ?_⟩
      · intro _ i s hji hs hk
        have := (hcut.iff i s hs).mpr hk
        omega
      · exact hat.onRec (hwf.sameTree hsame) (by rw [hsame.recs]; omega)
  | eq =>
    obtain ⟨cur', n, stat, hrun, hsame, ⟨before, after, hpath⟩, hcut, hstat, hat⟩ :=
      btreeLookup_eq_atPos hwf k
    refine ⟨cur', stat, hrun, hsame, hpath.consistent, hstat, fun htrue => ?_⟩
    obtain ⟨r, hr, hk⟩ := hstat.mp htrue
    obtain ⟨i, hi⟩ := getElem?_of_mem hr
    have hilt := (List.getElem?_eq_some_iff.mp hi).1
    have hord : Ordered ops.initKeyFromRec (cur.recs store) := hwf.ordered
    -- the records before the equal one are less, so that it is the one at the cut
    have hni : n = i := by
      refine le_antisymm (not_lt.mp fun hlt => ?_) (not_lt.mp fun hlt => ?_)
      · exact absurd ((hcut.iff i r hi).mp hlt) (by rw [hk]; exact lt_irrefl _)
      · have hs := getElem?_eq_getElem (show n < (cur.recs store).length by omega)
        have hlt' := hord.getElem_lt (by omega) hilt hlt
        rw [(List.getElem?_eq_some_iff.mp hi).2, hk] at hlt'
        exact absurd ((hcut.iff n _ hs).mpr hlt') (lt_irrefl _)
    subst hni
    refine ⟨n, ⟨⟨r, hi, hk⟩, LookupDir.noConfusion, LookupDir.noConfusion⟩, ?_⟩
    exact (hat htrue).onRec (hwf.sameTree hsame) (by rw [hsame.recs]; exact hilt)
  | ge =>
    obtain ⟨cur', n, hrun, hsame, hat, hcut⟩ := btreeLookup_ge_atPos hwf k
    refine ⟨cur', _, hrun, hsame, hat.consistent, ?_, fun hstat => ?_⟩
    · rw [decide_eq_true_eq]
      constructor
      · intro hn
        have hr := getElem?_eq_getElem hn
        exact ⟨_, mem_of_getElem? hr, not_lt.mp fun hlt =>
          absurd ((hcut.iff n _ hr).mpr hlt) (lt_irrefl _)⟩
      · rintro ⟨r, hr, hk⟩
        obtain ⟨i, hi⟩ := getElem?_of_mem hr
        have hilt := (List.getElem?_eq_some_iff.mp hi).1
        have hni : ¬ i < n := fun hlt => absurd ((hcut.iff i r hi).mp hlt) (not_lt.mpr hk)
        omega
    · rw [decide_eq_true_eq] at hstat
      have hr := getElem?_eq_getElem hstat
      refine ⟨n, ⟨⟨_, hr, not_lt.mp fun hlt =>
        absurd ((hcut.iff n _ hr).mpr hlt) (lt_irrefl _)⟩, LookupDir.noConfusion, ?_⟩, ?_⟩
      · intro _ i s hin hs
        exact not_le_of_gt ((hcut.iff i s hs).mp hin)
      · exact hat.onRec (hwf.sameTree hsame) (by rw [hsame.recs]; exact hstat)

theorem OnRec.increment (h : OnRec store cur j) :
    ∃ cur' stat, btreeIncrement store cur 0 = .ok (cur', stat) ∧ cur.SameTree cur' ∧
      ConsistentPath store cur' ∧ (stat ↔ j + 1 < (cur.recs store).length) ∧
      (stat → OnRec store cur' (j + 1)) := by
  obtain ⟨r, hr, -⟩ := h.2
  have hj := (List.getElem?_eq_some_iff.mp hr).1
  obtain ⟨cur', hrun, hsame, hat⟩ := btreeIncrement_atPos hwf (h.atPos hwf) hj
  refine ⟨cur', _, hrun, hsame, hat.consistent, decide_eq_true_iff, fun hstat => ?_⟩
  exact hat.onRec (hwf.sameTree hsame) (by rw [hsame.recs]; exact of_decide_eq_true hstat)

theorem OnRec.decrement (h : OnRec store cur j) :
    ∃ cur' stat, btreeDecrement store cur 0 = .ok (cur', stat) ∧ cur.SameTree cur' ∧
      ConsistentPath store cur' ∧ (stat ↔ 0 < j) ∧ (stat → OnRec store cur' (j - 1)) := by
  obtain ⟨r, hr, -⟩ := h.2
  have hj := (List.getElem?_eq_some_iff.mp hr).1
  obtain ⟨cur', hrun, hsame, hat⟩ := btreeDecrement_atPos hwf (h.atPos hwf) (succ_pos _)
  refine ⟨cur', _, hrun, hsame, hat.consistent, ?_, fun hstat => ?_⟩
  · rw [decide_eq_true_eq]
    exact Nat.lt_add_left_iff_pos
  · have hpos : 1 < j + 1 := of_decide_eq_true hstat
    rw [Nat.add_sub_cancel, ← Nat.sub_add_cancel (show 1 ≤ j by omega)] at hat
    exact hat.onRec (hwf.sameTree hsame) (by rw [hsame.recs]; omega)

end

def twoLeafStore (ops : BtreeKeyOps R K) (xs ys : List R) : BtreeStore R K where
  bufs ptr :=
    if ptr = 0 then some ⟨1, 2, none, none, [], [recsKey ops xs, recsKey ops ys], [1, 2]⟩
    else if ptr = 1 then some ⟨0, xs.length, none, some 2, xs, [], []⟩
    else if ptr = 2 then some ⟨0, ys.length, some 1, none, ys, [], []⟩
    else none
  iroot := none

theorem twoLeaf_recs (ops : BtreeKeyOps R K) (xs ys : List R) :
    btreeRecs (twoLeafStore ops xs ys) 1 (.buf 0) = xs ++ ys := by
  simp [btreeRecs, twoLeafStore, BtreeStore.get]

theorem twoLeaf_wf {xs ys : List R} (hxs : xs ≠ []) (hys : ys ≠ []) (hxlen : xs.length + 2 < 2 ^ 16)
    (hylen : ys.length + 2 < 2 ^ 16) (hord : Ordered ops.initKeyFromRec (xs ++ ys)) :
    WfBtree ops (twoLeafStore ops xs ys) (.buf 0) 2 where
  pos := by decide
  ordered := by
    rw [twoLeaf_recs]
    exact hord
  blocks level hlevel before loc after hsplit := by
    have hcases : level = 0 ∨ level = 1 := by omega
    rcases hcases with rfl | rfl
    · have hlocs : [.buf 1, .buf 2] = before ++ loc :: after := hsplit
      cases before with
      | nil =>
        obtain ⟨rfl, rfl⟩ := List.cons.inj hlocs
        exact ⟨_, rfl, rfl, rfl, rfl, fun _ => ⟨rfl, rfl⟩, fun h => absurd rfl h,
          fun _ => length_pos_of_ne_nil hxs, hxlen, fun i p hp => by simp at hp⟩
      | cons loc1 before =>
        obtain ⟨rfl, htail⟩ := List.cons.inj hlocs
        cases before with
        | nil =>
          obtain ⟨rfl, rfl⟩ := List.cons.inj htail
          exact ⟨_, rfl, rfl, rfl, rfl, fun _ => ⟨rfl, rfl⟩, fun h => absurd rfl h,
            fun _ => length_pos_of_ne_nil hys, hylen, fun i p hp => by simp at hp⟩
        | cons loc2 before =>
          have hnil := (List.cons.inj htail).2
          simp at hnil
    · have hlocs : [.buf 0] = before ++ loc :: after := hsplit
      cases before with
      | nil =>
        obtain ⟨rfl, rfl⟩ := List.cons.inj hlocs
        refine ⟨_, rfl, rfl, rfl, rfl, fun h => absurd h one_ne_zero, fun _ => ⟨rfl, rfl⟩,
          fun _ => two_pos, show 2 + 2 < 2 ^ 16 by decide, fun i p hp => ?_⟩
        rcases i with _ | _ | i
        · cases hp
          simp [twoLeafStore, btreeRecs, BtreeStore.get]
        · cases hp
          simp [twoLeafStore, btreeRecs, BtreeStore.get]
        · simp at hp
      | cons loc1 before =>
        have hnil := (List.cons.inj hlocs).2
        simp at hnil

/-- Lookups leave the cursor on the record they ask for, and from a record the cursor steps to its
neighbours. -/
theorem btree_cursor_visits_records (hwf : WfBtree ops store cur.root cur.nlevels) :
    (∀ dir k, ∃ cur' stat, btreeLookup store ops cur dir k = .ok (cur', stat) ∧ cur.SameTree cur' ∧
      ConsistentPath store cur' ∧
      (stat = true ↔ ∃ r ∈ cur.recs store, dir.Accepts k (ops.initKeyFromRec r)) ∧
      (stat = true → ∃ j, dir.Selects ops k (cur.recs store) j ∧ OnRec store cur' j)) ∧
    ∀ j, OnRec store cur j →
      (∃ cur' stat, btreeIncrement store cur 0 = .ok (cur', stat) ∧ cur.SameTree cur' ∧
        ConsistentPath store cur' ∧ (stat = true ↔ j + 1 < (cur.recs store).length) ∧
        (stat = true → OnRec store cur' (j + 1))) ∧
      ∃ cur' stat, btreeDecrement store cur 0 = .ok (cur', stat) ∧ cur.SameTree cur' ∧
        ConsistentPath store cur' ∧ (stat = true ↔ 0 < j) ∧ (stat = true → OnRec store cur' (j - 1)) :=
  ⟨btreeLookup_spec hwf, fun _ h => ⟨h.increment hwf, h.decrement hwf⟩⟩

end

def natKeyOps : BtreeKeyOps Nat Nat := ⟨id, id, false, 0⟩

def twoLeafCur : BtreeCur where
  nlevels := 2
  root := .buf 0
  inodeRooted := false
  levels level := if level = 0 then ⟨.buf 1, 2⟩ else ⟨.buf 0, 1⟩

theorem twoLeafCur_onRec : OnRec (twoLeafStore natKeyOps [10, 20] [30, 40]) twoLeafCur 1 := by
  refine ⟨⟨rfl, fun level hlt => ?_⟩, 20, rfl, rfl⟩
  have hzero : level = 0 := lt_one_iff.mp (lt_of_succ_lt_succ hlt)
  subst hzero
  exact ⟨_, rfl, one_pos, rfl⟩

theorem btree_cursor_visits_records_sample :
    WfBtree natKeyOps (twoLeafStore natKeyOps [10, 20] [30, 40]) twoLeafCur.root twoLeafCur.nlevels ∧
    (∃ cur' stat, btreeLookup (twoLeafStore natKeyOps [10, 20] [30, 40]) natKeyOps twoLeafCur .ge 25 =
      .ok (cur', stat) ∧ (stat = true ↔ ∃ r ∈ [10, 20, 30, 40], 25 ≤ r)) ∧
    ∃ cur' stat, btreeIncrement (twoLeafStore natKeyOps [10, 20] [30, 40]) twoLeafCur 0 =
      .ok (cur', stat) ∧ (stat = true ↔ 1 + 1 < 4) := by
  have hwf : WfBtree natKeyOps (twoLeafStore natKeyOps [10, 20] [30, 40]) twoLeafCur.root
      twoLeafCur.nlevels :=
    twoLeaf_wf (by decide) (by decide) (by decide) (by decide) (by unfold Ordered; decide)
  obtain ⟨hlookup, hsteps⟩ := btree_cursor_visits_records hwf
  obtain ⟨cur1, stat1, hrun1, -, -, hstat1, -⟩ := hlookup .ge 25
  obtain ⟨⟨cur2, stat2, hrun2, -, -, hstat2, -⟩, -⟩ := hsteps 1 twoLeafCur_onRec
  exact ⟨hwf, ⟨cur1, stat1, hrun1, hstat1⟩, ⟨cur2, stat2, hrun2, hstat2⟩⟩

end Xfs
