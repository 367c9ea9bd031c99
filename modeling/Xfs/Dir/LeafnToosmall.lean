import Mathlib.Data.List.Basic
import Mathlib.Logic.Function.Basic
import Xfs.Basic

/-! Removing the last entry of a leaf block of a node-format directory. The leaf should be dropped,
but the answer of the search for a sibling is tested the wrong way round. -/
namespace Xfs

open Option Function List

structure LeafnHdr where
  forw : Nat
  back : Nat
  count : Nat
  stale : Nat
deriving DecidableEq, Repr

def LeafnHdr.live (hdr : LeafnHdr) : Nat := hdr.count - hdr.stale

/-- One more entry is stale. -/
def LeafnHdr.remove (hdr : LeafnHdr) : LeafnHdr := { hdr with stale := hdr.stale + 1 }

theorem LeafnHdr.live_remove (hdr : LeafnHdr) : hdr.remove.live = hdr.live - 1 :=
  Nat.sub_add_eq hdr.count hdr.stale 1

/-- A block of the tree over the hash values: a node with its children, or a leaf. -/
inductive DaBlock where
  | node (before : List Nat)
  | leafn (hdr : LeafnHdr)
deriving DecidableEq, Repr

abbrev DaBlocks := Nat → Option DaBlock

structure DaGeometry where
  blksize : Nat
  leafHdrSize : Nat
  magicpct : Nat
deriving Repr

structure DaStateBlk where
  blkno : Nat
  index : Nat
deriving DecidableEq, Repr

abbrev DaPath := List DaStateBlk

def daShiftUp (blocks : DaBlocks) (forward : Bool) : DaPath → Option (Nat × Nat × DaPath)
  | [] => none
  | blk :: up =>
    match blocks blk.blkno with
    | some (.node before) =>
      if forward = true ∧ blk.index + 1 < before.length then
        some (1, before.getD (blk.index + 1) 0, ⟨blk.blkno, blk.index + 1⟩ :: up)
      else if forward = false ∧ 0 < blk.index then
        some (1, before.getD (blk.index - 1) 0, ⟨blk.blkno, blk.index - 1⟩ :: up)
      else (daShiftUp blocks forward up).map fun r => (r.1 + 1, r.2)
    | _ => none

/-- Roll down the edge of the subtree. -/
def daShiftDown (blocks : DaBlocks) (forward : Bool) : Nat → Nat → DaPath → Except Errno DaPath
  | 0, _, path => .ok path
  | levels + 1, blkno, path =>
    match blocks blkno with
    | none => .error .efscorrupted
    | some (.node before) =>
      let index := if forward then 0 else before.length - 1
      daShiftDown blocks forward levels (before.getD index 0) (⟨blkno, index⟩ :: path)
    | some (.leafn _) => daShiftDown blocks forward levels blkno (⟨blkno, 0⟩ :: path)

/-- The path to the sibling of the leaf, or nothing if there is none (`-ENOENT`). -/
def daPathShift (blocks : DaBlocks) (path : DaPath) (forward : Bool) :
    Except Errno (Option DaPath) :=
  match daShiftUp blocks forward path.tail with
  | none => .ok none
  | some (levels, blkno, up) => do
    let path ← daShiftDown blocks forward levels blkno up
    pure (some path)

/-- Nothing (0), coalesce (1) or unlink (2). `path` ends with the block to drop. -/
structure Toosmall where
  action : Nat
  path : DaPath
  altpath : DaPath
deriving Repr

/-- A sibling with which the leaf fits into one block, with a quarter of it to spare. -/
def leafnSibling (geo : DaGeometry) (blocks : DaBlocks) (hdr : LeafnHdr) (forward : Bool) :
    Except Errno (Option Nat) :=
  let blkno := if forward then hdr.forw else hdr.back
  if blkno = 0 then .ok none else
  match blocks blkno with
  | some (.leafn hdr2) =>
    if (hdr.live + hdr2.live) * 8 ≤ geo.blksize - geo.blksize / 4 then .ok (some blkno)
    else .ok none
  | _ => .error .efscorrupted

/-- An empty leaf. The answer of the search is read as if anything but zero were success. -/
def leafnDropEmpty (blocks : DaBlocks) (path : DaPath) (hdr : LeafnHdr) : Except Errno Toosmall := do
  match ← daPathShift blocks path (decide (hdr.forw ≠ 0)) with
  | none => pure ⟨2, path, path⟩
  | some altpath => pure ⟨0, path, altpath⟩

/-- Keep the block with the smaller number. -/
def leafnCoalesce (blocks : DaBlocks) (path : DaPath) (blkno sib : Nat) (forward : Bool) :
    Except Errno Toosmall := do
  match ← daPathShift blocks path forward with
  | none => pure ⟨0, path, path⟩
  | some shifted => pure (if sib < blkno then ⟨1, path, shifted⟩ else ⟨1, shifted, path⟩)

def leafnToosmall (geo : DaGeometry) (blocks : DaBlocks) (path : DaPath) : Except Errno Toosmall :=
  match path.head?.bind fun blk => (blocks blk.blkno).map fun b => (blk.blkno, b) with
  | some (blkno, .leafn hdr) =>
    if geo.blksize / 2 < geo.leafHdrSize + hdr.live * 8 then pure ⟨0, path, []⟩
    else if hdr.live = 0 then leafnDropEmpty blocks path hdr
    else do
      let forward := decide (hdr.forw < hdr.back)
      match ← leafnSibling geo blocks hdr forward with
      | some sib => leafnCoalesce blocks path blkno sib forward
      | none =>
        match ← leafnSibling geo blocks hdr (!forward) with
        | some sib => leafnCoalesce blocks path blkno sib (!forward)
        | none => pure ⟨0, path, []⟩
  | _ => throw .efscorrupted

/-- Join the leaf with a sibling. `drop` is what follows when a block is dropped. -/
def daJoin (geo : DaGeometry) (drop : Toosmall → DaBlocks → Except Errno (DaBlocks × Nat))
    (blocks : DaBlocks) (path : DaPath) : Except Errno (DaBlocks × Nat) := do
  let r ← leafnToosmall geo blocks path
  if r.action = 0 then pure (blocks, path.length) else drop r blocks

/-- Mark an entry of the leaf stale. The flag tells whether the leaf should be joined. -/
def leafnRemove (geo : DaGeometry) (blocks : DaBlocks) (path : DaPath) :
    Except Errno (DaBlocks × Bool) :=
  match path.head?.bind fun blk => (blocks blk.blkno).map fun b => (blk.blkno, b) with
  | some (blkno, .leafn hdr) =>
    .ok (Function.update blocks blkno (some (.leafn hdr.remove)),
      decide (geo.leafHdrSize + 8 * hdr.remove.live < geo.magicpct))
  | _ => .error .efscorrupted

/-- Remove the entry that the path leads to. One level may go back to leaf format. -/
def dir2NodeRemovename (geo : DaGeometry)
    (drop : Toosmall → DaBlocks → Except Errno (DaBlocks × Nat))
    (nodeToLeaf : DaBlocks → Except Errno DaBlocks) (blocks : DaBlocks) (path : DaPath) :
    Except Errno DaBlocks := do
  let (blocks, small) ← leafnRemove geo blocks path
  let (blocks, active) ←
    if small = true ∧ 1 < path.length then daJoin geo drop blocks path
    else pure (blocks, path.length)
  if 1 < active then pure blocks else nodeToLeaf blocks

/-- A block with leaves at the given depth below it. -/
def DaDepth (blocks : DaBlocks) : Nat → Nat → Prop
  | 0, blkno => ∃ hdr, blocks blkno = some (.leafn hdr)
  | depth + 1, blkno => ∃ before, blocks blkno = some (.node before) ∧ before ≠ [] ∧
    ∀ child ∈ before, DaDepth blocks depth child

/-- Nodes one above the other, with children of the given depth below the first. -/
def DaNodes (blocks : DaBlocks) : Nat → DaPath → Prop
  | _, [] => True
  | depth, blk :: up => (∃ before, blocks blk.blkno = some (.node before) ∧
    blk.index < before.length ∧ ∀ child ∈ before, DaDepth blocks depth child) ∧
    DaNodes blocks (depth + 1) up

def HasSibling (blocks : DaBlocks) (forward : Bool) (blk : DaStateBlk) : Prop :=
  ∃ before, blocks blk.blkno = some (.node before) ∧
    if forward then blk.index + 1 < before.length else 0 < blk.index

/-- A path to a leaf that is not the only one, with links like those of the nodes. -/
structure LeafPath (blocks : DaBlocks) (blk : DaStateBlk) (up : DaPath) (hdr : LeafnHdr) : Prop where
  leaf : blocks blk.blkno = some (.leafn hdr)
  nodes : DaNodes blocks 0 up
  forw : hdr.forw ≠ 0 ↔ ∃ b ∈ up, HasSibling blocks true b
  back : hdr.back ≠ 0 ↔ ∃ b ∈ up, HasSibling blocks false b
  several : hdr.forw ≠ 0 ∨ hdr.back ≠ 0

variable {blocks : DaBlocks} {blk : DaStateBlk} {up : DaPath} {hdr hdr' : LeafnHdr}
  {geo : DaGeometry} {forward : Bool} {depth blkno : Nat}

theorem getD_mem {l : List Nat} {i : Nat} (h : i < l.length) : l.getD i 0 ∈ l := by
  rw [getD_eq_getElem?_getD, getElem?_eq_getElem h]
  exact getElem_mem h

theorem daShiftDown_ok (forward : Bool) (h : DaDepth blocks depth blkno) (path : DaPath) :
    ∃ r, daShiftDown blocks forward (depth + 1) blkno path = .ok r := by
  induction depth generalizing blkno path with
  | zero =>
    obtain ⟨hdr, hb⟩ := h
    exact ⟨⟨blkno, 0⟩ :: path, by simp [daShiftDown, hb]⟩
  | succ depth ih =>
    obtain ⟨before, hb, hne, hchildren⟩ := h
    have hpos := length_pos_of_ne_nil hne
    rw [daShiftDown, hb]
    refine ih (hchildren _ (getD_mem ?_)) _
    split_ifs <;> omega

theorem daShiftUp_some (h : DaNodes blocks depth up)
    (hsib : ∃ b ∈ up, HasSibling blocks forward b) :
    ∃ levels blkno path, daShiftUp blocks forward up = some (levels + 1, blkno, path) ∧
      DaDepth blocks (depth + levels) blkno := by
  induction up generalizing depth with
  | nil => simp at hsib
  | cons blk up ih =>
    obtain ⟨⟨before, hb, hindex, hchildren⟩, hup⟩ := h
    rw [daShiftUp, hb]
    dsimp only
    split_ifs with hforw hback
    · exact ⟨0, _, _, rfl, hchildren _ (getD_mem hforw.2)⟩
    · exact ⟨0, _, _, rfl, hchildren _ (getD_mem (by omega))⟩
    have hrest : ∃ b ∈ up, HasSibling blocks forward b := by
      obtain ⟨b, hmem, hroom⟩ := hsib
      rcases mem_cons.mp hmem with rfl | hmem
      · obtain ⟨before', hb', hroom⟩ := hroom
        obtain rfl : before = before' := by simpa using hb.symm.trans hb'
        cases forward with
        | true => exact absurd ⟨rfl, hroom⟩ hforw
        | false => exact absurd ⟨rfl, hroom⟩ hback
      · exact ⟨b, hmem, hroom⟩
    obtain ⟨levels, blkno, path, heq, hdepth⟩ := ih hup hrest
    refine ⟨levels + 1, blkno, path, by rw [heq]; rfl, ?_⟩
    rwa [show depth + (levels + 1) = depth + 1 + levels by omega]

theorem daPathShift_some (blk : DaStateBlk) (h : DaNodes blocks 0 up)
    (hsib : ∃ b ∈ up, HasSibling blocks forward b) :
    ∃ altpath, daPathShift blocks (blk :: up) forward = .ok (some altpath) := by
  obtain ⟨levels, blkno, path, hup, hdepth⟩ := daShiftUp_some h hsib
  rw [zero_add] at hdepth
  obtain ⟨r, hdown⟩ := daShiftDown_ok forward hdepth path
  exact ⟨r, by simp [daPathShift, hup, hdown]⟩

theorem LeafPath.hasSibling (h : LeafPath blocks blk up hdr) :
    ∃ b ∈ up, HasSibling blocks (decide (hdr.forw ≠ 0)) b := by
  by_cases hforw : hdr.forw ≠ 0
  · rw [decide_eq_true hforw]
    exact h.forw.mp hforw
  · rw [decide_eq_false hforw]
    exact h.back.mp (h.several.resolve_left hforw)

theorem toosmall_empty (geo : DaGeometry) (hleaf : blocks blk.blkno = some (.leafn hdr))
    (hnodes : DaNodes blocks 0 up)
    (hsib : ∃ b ∈ up, HasSibling blocks (decide (hdr.forw ≠ 0)) b) (hlive : hdr.live = 0) :
    ∃ r, leafnToosmall geo blocks (blk :: up) = .ok r ∧ r.action = 0 := by
  obtain ⟨altpath, hshift⟩ := daPathShift_some blk hnodes hsib
  simp only [leafnToosmall, head?_cons, bind_some, hleaf, map_some, if_pos hlive]
  split_ifs
  · exact ⟨_, rfl, rfl⟩
  · rw [leafnDropEmpty, hshift]
    exact ⟨_, rfl, rfl⟩

theorem leafnCoalesce_action {r : Toosmall} {path : DaPath} {sib : Nat}
    (hr : leafnCoalesce blocks path blkno sib forward = .ok r) : r.action ≠ 2 := by
  obtain ⟨shifted, -, hr⟩ := bind_eq_ok hr
  cases shifted with
  | none =>
    cases hr
    simp
  | some shifted =>
    cases hr
    split_ifs <;> simp

theorem toosmall_live {r : Toosmall} (hleaf : blocks blk.blkno = some (.leafn hdr))
    (hlive : hdr.live ≠ 0) (hr : leafnToosmall geo blocks (blk :: up) = .ok r) : r.action ≠ 2 := by
  simp only [leafnToosmall, head?_cons, bind_some, hleaf, map_some, if_neg hlive] at hr
  split_ifs at hr
  · cases hr
    simp
  obtain ⟨first, -, hr⟩ := bind_eq_ok hr
  cases first with
  | some sib => exact leafnCoalesce_action hr
  | none =>
    obtain ⟨second, -, hr⟩ := bind_eq_ok hr
    cases second with
    | some sib => exact leafnCoalesce_action hr
    | none =>
      cases hr
      simp

section

variable (hleaf : blocks blk.blkno = some (.leafn hdr))
include hleaf

theorem update_node {before : List Nat} (hb : blocks blkno = some (.node before)) :
    Function.update blocks blk.blkno (some (.leafn hdr')) blkno = some (.node before) := by
  have hother : blkno ≠ blk.blkno := by
    rintro rfl
    simp [hb] at hleaf
  rw [update_of_ne hother, hb]

theorem DaDepth.update (h : DaDepth blocks depth blkno) :
    DaDepth (Function.update blocks blk.blkno (some (.leafn hdr'))) depth blkno := by
  induction depth generalizing blkno with
  | zero =>
    by_cases heq : blkno = blk.blkno
    · exact ⟨hdr', by rw [heq, update_self]⟩
    · obtain ⟨hdr₀, hb⟩ := h
      exact ⟨hdr₀, by rw [update_of_ne heq, hb]⟩
  | succ depth ih =>
    obtain ⟨before, hb, hne, hchildren⟩ := h
    exact ⟨before, update_node hleaf hb, hne, fun c hc => ih (hchildren c hc)⟩

theorem DaNodes.update (h : DaNodes blocks depth up) :
    DaNodes (Function.update blocks blk.blkno (some (.leafn hdr'))) depth up := by
  induction up generalizing depth with
  | nil => trivial
  | cons b up ih =>
    obtain ⟨⟨before, hb, hindex, hchildren⟩, hup⟩ := h
    exact ⟨⟨before, update_node hleaf hb, hindex, fun c hc => (hchildren c hc).update hleaf⟩,
      ih hup⟩

theorem HasSibling.update {b : DaStateBlk} (h : HasSibling blocks forward b) :
    HasSibling (Function.update blocks blk.blkno (some (.leafn hdr'))) forward b := by
  obtain ⟨before, hb, hroom⟩ := h
  exact ⟨before, update_node hleaf hb, hroom⟩

end

/-- What the comment on the check promises, for the check and for the removal. -/
structure EmptyLeafDropped (geo : DaGeometry)
    (drop : Toosmall → DaBlocks → Except Errno (DaBlocks × Nat))
    (nodeToLeaf : DaBlocks → Except Errno DaBlocks) (blocks : DaBlocks) (blk : DaStateBlk)
    (up : DaPath) (hdr : LeafnHdr) : Prop where
  action : (∃ r, leafnToosmall geo blocks (blk :: up) = .ok r ∧ r.action = 2 ∧
    ∃ b ∈ r.altpath.head?, b.blkno = hdr.forw ∨ b.blkno = hdr.back) ↔ hdr.live = 0
  removename : hdr.live = 1 → ∀ blocks',
    dir2NodeRemovename geo drop nodeToLeaf blocks (blk :: up) = .ok blocks' →
      ∀ hdr', blocks' blk.blkno = some (.leafn hdr') → hdr'.live ≠ 0

theorem LeafPath.removename_last (h : LeafPath blocks blk up hdr) (hlive : hdr.live = 1)
    (drop : Toosmall → DaBlocks → Except Errno (DaBlocks × Nat))
    (nodeToLeaf : DaBlocks → Except Errno DaBlocks) :
    dir2NodeRemovename geo drop nodeToLeaf blocks (blk :: up) = .ok
      (Function.update blocks blk.blkno (some (.leafn hdr.remove))) := by
  obtain ⟨b, hmem, hsib⟩ := h.hasSibling
  have hleaf : Function.update blocks blk.blkno (some (.leafn hdr.remove)) blk.blkno =
      some (.leafn hdr.remove) := update_self ..
  obtain ⟨r, hr, haction⟩ := toosmall_empty geo hleaf (h.nodes.update h.leaf)
    ⟨b, hmem, hsib.update h.leaf⟩ (by rw [hdr.live_remove, hlive])
  have hlen : 1 < (blk :: up).length := by
    have := length_pos_of_mem hmem
    simpa using this
  simp only [dir2NodeRemovename, leafnRemove, head?_cons, bind_some, h.leaf,
    map_some, ok_bind, daJoin, hr, haction, if_true, hlen, and_true]
  split_ifs
  · exact if_pos hlen
  · exact if_pos hlen

/-- Empty leaves are dropped only as long as there are none: the check does what it promises, for
the leaf and for the removal of an entry of it, exactly for leaves that keep a live entry. -/
theorem empty_leaf_dropped_iff (geo : DaGeometry)
    (drop : Toosmall → DaBlocks → Except Errno (DaBlocks × Nat))
    (nodeToLeaf : DaBlocks → Except Errno DaBlocks) (blocks : DaBlocks) (blk : DaStateBlk)
    (up : DaPath) (hdr : LeafnHdr) (h : LeafPath blocks blk up hdr) :
    EmptyLeafDropped geo drop nodeToLeaf blocks blk up hdr ↔ 2 ≤ hdr.live := by
  constructor
  · intro hdropped
    by_contra hlt
    obtain hzero | hone : hdr.live = 0 ∨ hdr.live = 1 := by omega
    · obtain ⟨r, hr, htwo, -⟩ := hdropped.action.mpr hzero
      obtain ⟨r', hr', haction⟩ := toosmall_empty geo h.leaf h.nodes h.hasSibling hzero
      obtain rfl := Except.ok.inj (hr.symm.trans hr')
      omega
    · refine hdropped.removename hone _ (h.removename_last hone drop nodeToLeaf) _
        (update_self ..) ?_
      rw [hdr.live_remove, hone]
  · intro hlive
    refine ⟨iff_of_false ?_ (by omega), fun hone => by omega⟩
    rintro ⟨r, hr, htwo, -⟩
    exact toosmall_live h.leaf (by omega) hr htwo

def leafnTree : DaBlocks
  | 0 => some (.node [1, 2])
  | 1 => some (.leafn ⟨2, 0, 3, 2⟩)
  | 2 => some (.leafn ⟨0, 1, 4, 1⟩)
  | _ => none

theorem leafnTree_second : LeafPath leafnTree ⟨2, 0⟩ [⟨0, 1⟩] ⟨0, 1, 4, 1⟩ where
  leaf := rfl
  nodes := by simp [DaNodes, DaDepth, leafnTree]
  forw := by simp [HasSibling, leafnTree]
  back := by simp [HasSibling, leafnTree]
  several := by simp

theorem empty_leaf_dropped_sample : EmptyLeafDropped ⟨4096, 64, 1515⟩ (fun _ b => .ok (b, 1)) .ok
    leafnTree ⟨2, 0⟩ [⟨0, 1⟩] ⟨0, 1, 4, 1⟩ :=
  (empty_leaf_dropped_iff _ _ _ _ _ _ _ leafnTree_second).mpr (by decide)

/-- The first leaf stays when its last live entry is removed, and nothing is done about it. -/
theorem empty_leaf_stays :
    (dir2NodeRemovename ⟨4096, 64, 1515⟩ (fun _ b => .ok (b, 1)) .ok leafnTree
        [⟨1, 0⟩, ⟨0, 0⟩]).map (fun blocks => blocks 1) = .ok (some (.leafn ⟨2, 0, 3, 3⟩)) ∧
      (leafnToosmall ⟨4096, 64, 1515⟩
        (Function.update leafnTree 1 (some (.leafn ⟨2, 0, 3, 3⟩))) [⟨1, 0⟩, ⟨0, 0⟩]).map
          Toosmall.action = .ok 0 := by
  decide

end Xfs
