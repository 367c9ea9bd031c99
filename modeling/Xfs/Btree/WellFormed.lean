import Xfs.Lib.RecordCursor
import Xfs.Btree.BloadShape
import Xfs.Btree.Cursor

/-! Well-formed btrees, and the path of a cursor from the root to a block. -/
namespace Xfs

open BtreeCur List RecordCursor

variable {R K : Type} {b : BtreeBlock R K}

section Levels

variable {store : BtreeStore R K}

@[simp] theorem btreeChildren_nil (store : BtreeStore R K) : btreeChildren store [] = [] := rfl

theorem btreeChildren_append (locs locs' : List BlockLoc) :
    btreeChildren store (locs ++ locs') = btreeChildren store locs ++ btreeChildren store locs' :=
  flatMap_append

theorem btreeChildren_cons {loc : BlockLoc} (hget : store.get loc = some b) (locs : List BlockLoc) :
    btreeChildren store (loc :: locs) = b.ptrs.map .buf ++ btreeChildren store locs := by
  rw [btreeChildren, flatMap_cons, hget]
  rfl

theorem btreeDescend_succ (n : Nat) (locs : List BlockLoc) :
    btreeDescend store (n + 1) locs = btreeChildren store (btreeDescend store n locs) := by
  induction n generalizing locs with
  | zero => rfl
  | succ n ih => exact ih (btreeChildren store locs)

theorem btreeRecs_children (level : Nat) (locs : List BlockLoc) :
    (btreeChildren store locs).flatMap (btreeRecs store level) =
      locs.flatMap (btreeRecs store (level + 1)) := by
  rw [btreeChildren, flatMap_assoc]
  congr 1
  funext loc
  rw [flatMap_map]
  rfl

theorem btreeRecs_descend (store : BtreeStore R K) (level n : Nat) (locs : List BlockLoc) :
    (btreeDescend store n locs).flatMap (btreeRecs store level) =
      locs.flatMap (btreeRecs store (level + n)) := by
  induction n generalizing level with
  | zero => rfl
  | succ n ih =>
    rw [btreeDescend_succ, btreeRecs_children, ih, add_right_comm]
    rfl

theorem btreeRecs_leaf {loc : BlockLoc} (hget : store.get loc = some b) :
    btreeRecs store 0 loc = b.recs := by
  rw [btreeRecs, hget]
  rfl

theorem btreeRecs_node {loc : BlockLoc} (level : Nat) (hget : store.get loc = some b) :
    btreeRecs store (level + 1) loc = b.ptrs.flatMap fun ptr => btreeRecs store level (.buf ptr) := by
  rw [btreeRecs, hget]
  rfl

theorem exists_buf_of_mem_children {loc : BlockLoc} {locs : List BlockLoc}
    (h : loc ∈ btreeChildren store locs) : ∃ p, loc = .buf p := by
  obtain ⟨l, -, hloc⟩ := mem_flatMap.mp h
  obtain ⟨p, -, rfl⟩ := mem_map.mp hloc
  exact ⟨p, rfl⟩

end Levels

structure WfBlock [LinearOrder K] (ops : BtreeKeyOps R K) (store : BtreeStore R K)
    (nlevels level : Nat) (before after : List BlockLoc) (b : BtreeBlock R K) : Prop where
  level_eq : b.level = level
  leftsib : b.leftsib = before.getLast?.bind BlockLoc.ptr?
  rightsib : b.rightsib = after.head?.bind BlockLoc.ptr?
  leaf : level = 0 → b.numrecs = b.recs.length ∧ b.ptrs = []
  node : level ≠ 0 → b.numrecs = b.ptrs.length ∧ b.keys.length = b.ptrs.length
  nonempty : nlevels ≠ 1 → 0 < b.numrecs
  numrecs_lt : b.numrecs + 2 < 2 ^ 16
  keys : ∀ (i p : Nat), b.ptrs[i]? = some p →
    b.keys[i]? = some (recsKey ops (btreeRecs store (level - 1) (.buf p)))

/-- A tree whose blocks are well formed, with the records in strictly increasing order. -/
structure WfBtree [LinearOrder K] (ops : BtreeKeyOps R K) (store : BtreeStore R K)
    (root : BlockLoc) (nlevels : Nat) : Prop where
  pos : 0 < nlevels
  blocks : ∀ level < nlevels, ∀ before loc after,
    btreeDescend store (nlevels - 1 - level) [root] = before ++ loc :: after →
    ∃ b, store.get loc = some b ∧ WfBlock ops store nlevels level before after b
  ordered : Ordered ops.initKeyFromRec (btreeRecs store (nlevels - 1) root)

section Cursor

variable {cur cur' : BtreeCur} {level lev ptr : Nat} {loc : BlockLoc}

@[simp] theorem BtreeCur.loc_setbuf_self : (cur.setbuf level loc).loc level = loc := by
  simp [BtreeCur.setbuf, BtreeCur.setLevel, BtreeCur.loc]

@[simp] theorem BtreeCur.loc_setPtr : (cur.setPtr level ptr).loc lev = cur.loc lev := by
  by_cases h : lev = level
  · subst h
    simp [BtreeCur.setPtr, BtreeCur.setLevel, BtreeCur.loc]
  · simp [BtreeCur.setPtr, BtreeCur.setLevel, BtreeCur.loc, h]

theorem BtreeCur.loc_setbuf_of_ne (h : lev ≠ level) : (cur.setbuf level loc).loc lev = cur.loc lev := by
  simp [BtreeCur.setbuf, BtreeCur.setLevel, BtreeCur.loc, h]

theorem BtreeCur.ptr_setPtr_self (h : ptr < 2 ^ 16) : (cur.setPtr level ptr).ptr level = ptr := by
  simp only [BtreeCur.setPtr, BtreeCur.setLevel, BtreeCur.ptr, if_true]
  exact Nat.mod_eq_of_lt h

theorem BtreeCur.ptr_setPtr_of_ne (h : lev ≠ level) : (cur.setPtr level ptr).ptr lev = cur.ptr lev := by
  simp [BtreeCur.setPtr, BtreeCur.setLevel, BtreeCur.ptr, h]

@[simp] theorem BtreeCur.ptr_setbuf : (cur.setbuf level loc).ptr lev = cur.ptr lev := by
  by_cases h : lev = level
  · subst h
    simp [BtreeCur.setbuf, BtreeCur.setLevel, BtreeCur.ptr]
  · simp [BtreeCur.setbuf, BtreeCur.setLevel, BtreeCur.ptr, h]

/-- The same tree, and the same levels above `level`. -/
structure BtreeCur.SameAbove (cur cur' : BtreeCur) (level : Nat) : Prop where
  nlevels : cur'.nlevels = cur.nlevels
  root : cur'.root = cur.root
  loc : ∀ lev, level < lev → cur'.loc lev = cur.loc lev
  ptr : ∀ lev, level < lev → cur'.ptr lev = cur.ptr lev

theorem BtreeCur.SameAbove.refl (cur : BtreeCur) (level : Nat) : cur.SameAbove cur level :=
  ⟨rfl, rfl, fun _ _ => rfl, fun _ _ => rfl⟩

theorem BtreeCur.SameAbove.trans {cur'' : BtreeCur} (h : cur.SameAbove cur' level)
    (h' : cur'.SameAbove cur'' level) : cur.SameAbove cur'' level :=
  ⟨h'.nlevels.trans h.nlevels, h'.root.trans h.root,
    fun lev hlt => (h'.loc lev hlt).trans (h.loc lev hlt),
    fun lev hlt => (h'.ptr lev hlt).trans (h.ptr lev hlt)⟩

theorem BtreeCur.sameAbove_setPtr (cur : BtreeCur) (ptr : Nat) (h : lev ≤ level) :
    cur.SameAbove (cur.setPtr lev ptr) level :=
  ⟨rfl, rfl, fun _ _ => loc_setPtr, fun _ hlt => ptr_setPtr_of_ne (by omega)⟩

theorem BtreeCur.sameAbove_setbuf (cur : BtreeCur) (loc : BlockLoc) (h : lev ≤ level) :
    cur.SameAbove (cur.setbuf lev loc) level :=
  ⟨rfl, rfl, fun _ hlt => loc_setbuf_of_ne (by omega), fun _ _ => ptr_setbuf⟩

def BtreeCur.recs (store : BtreeStore R K) (cur : BtreeCur) : List R :=
  btreeRecs store (cur.nlevels - 1) cur.root

/-- At each level above `loc` the cursor is in the child that the level before points to. -/
inductive Path (store : BtreeStore R K) (cur : BtreeCur) :
    Nat → BlockLoc → List BlockLoc → List BlockLoc → Prop where
  | root {level : Nat} (hlevel : level + 1 = cur.nlevels) : Path store cur level cur.root [] []
  | down {level : Nat} {loc : BlockLoc} {before after : List BlockLoc} {b : BtreeBlock R K}
      {xs ys : List Nat} {p : Nat} (above : Path store cur (level + 1) loc before after)
      (hloc : cur.loc (level + 1) = loc) (hget : store.get loc = some b)
      (hptrs : b.ptrs = xs ++ p :: ys) (hptr : cur.ptr (level + 1) = xs.length + 1) :
      Path store cur level (.buf p) (btreeChildren store before ++ xs.map .buf)
        (ys.map .buf ++ btreeChildren store after)

variable {store : BtreeStore R K} {before after : List BlockLoc} {ops : BtreeKeyOps R K}
  {nlevels : Nat}

section

variable (h : Path store cur level loc before after)
include h

theorem Path.lt : level < cur.nlevels := by
  induction h with
  | root hlevel => omega
  | down _ _ _ _ _ ih => omega

theorem Path.congr (hsame : cur.SameAbove cur' level) : Path store cur' level loc before after := by
  induction h with
  | root hlevel =>
    rw [← hsame.root]
    exact .root (hsame.nlevels ▸ hlevel)
  | @down level _ _ _ _ _ _ _ _ hloc hget hptrs hptr ih =>
    refine .down (ih ⟨hsame.nlevels, hsame.root, ?_, ?_⟩) ?_ hget hptrs ?_
    · exact fun lev hlt => hsame.loc lev (by omega)
    · exact fun lev hlt => hsame.ptr lev (by omega)
    · rw [hsame.loc _ (Nat.lt_succ_self _), hloc]
    · rw [hsame.ptr _ (Nat.lt_succ_self _), hptr]

theorem Path.levelLocs :
    btreeDescend store (cur.nlevels - 1 - level) [cur.root] = before ++ loc :: after := by
  induction h with
  | root hlevel =>
    rw [show cur.nlevels - 1 - _ = 0 by omega]
    rfl
  | @down level loc before after b xs ys p above hloc hget hptrs hptr ih =>
    have hlt := above.lt
    rw [show cur.nlevels - 1 - level = cur.nlevels - 1 - (level + 1) + 1 by omega,
      btreeDescend_succ, ih, btreeChildren_append, btreeChildren_cons hget, hptrs]
    simp [append_assoc]

theorem Path.recs : cur.recs store = before.flatMap (btreeRecs store level) ++
        (btreeRecs store level loc ++ after.flatMap (btreeRecs store level)) := by
  have hlt := h.lt
  have hrecs := btreeRecs_descend store level (cur.nlevels - 1 - level) [cur.root]
  rw [h.levelLocs, show level + (cur.nlevels - 1 - level) = cur.nlevels - 1 by omega,
    flatMap_append, flatMap_cons, flatMap_singleton] at hrecs
  exact hrecs.symm

end

theorem Path.block [LinearOrder K] (hwf : WfBtree ops store cur.root cur.nlevels)
    (h : Path store cur level loc before after) :
    ∃ b, store.get loc = some b ∧ WfBlock ops store cur.nlevels level before after b :=
  hwf.blocks level h.lt before loc after h.levelLocs

theorem Path.block_of_get [LinearOrder K] {b : BtreeBlock R K}
    (h : Path store cur level loc before after) (hwf : WfBtree ops store cur.root cur.nlevels)
    (hget : store.get loc = some b) : WfBlock ops store cur.nlevels level before after b := by
  obtain ⟨b', hget', hb⟩ := h.block hwf
  rwa [Option.some.inj (hget.symm.trans hget')] at *

theorem Path.mem_buf {l : BlockLoc} (h : Path store cur level loc before after)
    (hl : l ∈ before ∨ l ∈ after) : ∃ p, l = .buf p := by
  cases h with
  | root _ => simp at hl
  | down _ _ _ _ _ =>
    simp only [mem_append, mem_map] at hl
    rcases hl with (hl | ⟨p, -, rfl⟩) | (⟨p, -, rfl⟩ | hl)
    · exact exists_buf_of_mem_children hl
    · exact ⟨p, rfl⟩
    · exact ⟨p, rfl⟩
    · exact exists_buf_of_mem_children hl

theorem Path.rightsib_eq_none [LinearOrder K] (h : Path store cur level loc before after)
    (hb : WfBlock ops store nlevels level before after b) : b.rightsib = none ↔ after = [] := by
  rw [hb.rightsib]
  cases hafter : after with
  | nil => simp
  | cons l rest =>
    obtain ⟨p, rfl⟩ := h.mem_buf (l := l) (.inr (by simp [hafter]))
    simp [BlockLoc.ptr?]

theorem Path.leftsib_eq_none [LinearOrder K] (h : Path store cur level loc before after)
    (hb : WfBlock ops store nlevels level before after b) : b.leftsib = none ↔ before = [] := by
  rw [hb.leftsib]
  rcases eq_nil_or_concat before with rfl | ⟨rest, l, rfl⟩
  · simp
  · obtain ⟨p, rfl⟩ := h.mem_buf (l := l) (.inl (by simp))
    simp [BlockLoc.ptr?]

end Cursor

end Xfs
