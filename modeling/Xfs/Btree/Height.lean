import Xfs.Basic
import Xfs.Lib.BPlusTree
import Mathlib.Order.Bounds.Basic

/-! How high a btree gets and how many blocks it takes, from the number of its records or from the
space there is for it. -/
namespace Xfs

open Nat BPlusTree Finset

/-- The fewest records of a leaf and the fewest pointers of a node below the root. -/
structure BtreeLimits where
  leaf : Nat
  node : Nat
  leaf_pos : 1 ≤ leaf
  leaf_lt : leaf < 2 ^ 32
  two_le_node : 2 ≤ node
  node_lt : node < 2 ^ 32

def btreeComputeMaxlevelsLoop (limits : BtreeLimits) (levelBlocks height : Nat) : Nat :=
  if 1 < levelBlocks then
    btreeComputeMaxlevelsLoop limits (howmany64 levelBlocks limits.node) (height + 1)
  else height
termination_by levelBlocks
decreasing_by exact howmany64_lt limits.two_le_node ‹_›

def btreeComputeMaxlevels (limits : BtreeLimits) (records : Nat) : Nat :=
  btreeComputeMaxlevelsLoop limits (howmany64 records limits.leaf) 1

def btreeCalcSizeLoop (limits : BtreeLimits) (levelBlocks blocks : Nat) : Nat :=
  if 1 < levelBlocks then
    btreeCalcSizeLoop limits (howmany64 levelBlocks limits.node)
      (add64 blocks (howmany64 levelBlocks limits.node))
  else blocks
termination_by levelBlocks
decreasing_by exact howmany64_lt limits.two_le_node ‹_›

def btreeCalcSize (limits : BtreeLimits) (records : Nat) : Nat :=
  btreeCalcSizeLoop limits (howmany64 records limits.leaf) (howmany64 records limits.leaf)

/-- The blocks of the levels above a level, added up without a wrap. -/
def btreeBlocksAbove (limits : BtreeLimits) (levelBlocks : Nat) : Nat :=
  if 1 < levelBlocks then
    howmany64 levelBlocks limits.node + btreeBlocksAbove limits (howmany64 levelBlocks limits.node)
  else 0
termination_by levelBlocks
decreasing_by exact howmany64_lt limits.two_le_node ‹_›

section Levels

variable {limits : BtreeLimits} {leaf levelBlocks : Nat}

theorem le_btreeComputeMaxlevelsLoop (levelBlocks height : Nat) :
    height ≤ btreeComputeMaxlevelsLoop limits levelBlocks height := by
  induction levelBlocks using Nat.strong_induction_on generalizing height with
  | _ levelBlocks ih =>
    rw [btreeComputeMaxlevelsLoop]
    split
    · next hmore =>
      exact (le_succ height).trans (ih _ (howmany64_lt limits.two_le_node hmore) _)
    · exact le_refl height

theorem btreeCalcSizeLoop_eq (levelBlocks blocks : Nat)
    (hfits : blocks + btreeBlocksAbove limits levelBlocks < 2 ^ 64) :
    btreeCalcSizeLoop limits levelBlocks blocks = blocks + btreeBlocksAbove limits levelBlocks := by
  induction levelBlocks using Nat.strong_induction_on generalizing blocks with
  | _ levelBlocks ih =>
    rw [btreeCalcSizeLoop]
    rw [btreeBlocksAbove] at hfits ⊢
    split
    · next hmore =>
      rw [if_pos hmore, ← add_assoc] at hfits
      have hadd : add64 blocks (howmany64 levelBlocks limits.node) =
          blocks + howmany64 levelBlocks limits.node :=
        add64_eq ((le_add_right _ _).trans_lt hfits)
      rw [hadd, ih _ (howmany64_lt limits.two_le_node hmore) _ hfits, add_assoc]
    · rfl

theorem leaves_contract_le {h : Nat} {t : Shape (h + 1)}
    (hfill : Shape.RootFilled leaf limits.node (h + 1) t)
    (hleaves : Shape.leaves (h + 1) t ≤ levelBlocks)
    (hwrap : levelBlocks + (limits.node - 1) < 2 ^ 64) :
    Shape.leaves h (Shape.contract h t) ≤ howmany64 levelBlocks limits.node := by
  have htwo := hfill.two_le_leaves (zero_lt_of_lt limits.two_le_node)
  have hnode : 1 ≤ limits.node := zero_lt_of_lt limits.two_le_node
  cases h with
  | zero => exact howmany64_pos hnode hwrap (by omega)
  | succ h =>
    apply le_howmany64 hnode hwrap
    apply hfill.contract.mul_leaves_le_records.trans
    rw [Shape.records_contract]
    exact hleaves

theorem howmany64_nowrap (hmore : 1 < levelBlocks)
    (hwrap : levelBlocks + (limits.node - 1) < 2 ^ 64) :
    howmany64 levelBlocks limits.node + (limits.node - 1) < 2 ^ 64 :=
  (Nat.add_lt_add_right (howmany64_lt limits.two_le_node hmore) _).trans hwrap

theorem add_height_le {h : Nat} {t : Shape h} (levelBlocks height : Nat)
    (hfill : Shape.RootFilled leaf limits.node h t) (hleaves : Shape.leaves h t ≤ levelBlocks)
    (hwrap : levelBlocks + (limits.node - 1) < 2 ^ 64) :
    height + h ≤ btreeComputeMaxlevelsLoop limits levelBlocks height := by
  induction h generalizing leaf levelBlocks height with
  | zero => exact le_btreeComputeMaxlevelsLoop _ _
  | succ h ih =>
    have hmore : 1 < levelBlocks :=
      (hfill.two_le_leaves (zero_lt_of_lt limits.two_le_node)).trans hleaves
    rw [btreeComputeMaxlevelsLoop, if_pos hmore, add_comm h 1, ← add_assoc]
    exact ih _ _ hfill.contract (leaves_contract_le hfill hleaves hwrap)
      (howmany64_nowrap hmore hwrap)

theorem blocks_le_above {h : Nat} {t : Shape h} (levelBlocks : Nat)
    (hfill : Shape.RootFilled leaf limits.node h t) (hleaves : Shape.leaves h t ≤ levelBlocks)
    (hwrap : levelBlocks + (limits.node - 1) < 2 ^ 64) :
    Shape.blocks h t ≤ levelBlocks + btreeBlocksAbove limits levelBlocks := by
  induction h generalizing leaf levelBlocks with
  | zero => exact hleaves.trans (le_add_right _ _)
  | succ h ih =>
    have hmore : 1 < levelBlocks :=
      (hfill.two_le_leaves (zero_lt_of_lt limits.two_le_node)).trans hleaves
    rw [btreeBlocksAbove, if_pos hmore, Shape.blocks_contract]
    exact Nat.add_le_add hleaves (ih _ hfill.contract (leaves_contract_le hfill hleaves hwrap)
      (howmany64_nowrap hmore hwrap))

end Levels

theorem leaves_le_howmany64 {limits : BtreeLimits} {records h : Nat} {t : Shape (h + 1)}
    (hfill : Shape.RootFilled limits.leaf limits.node (h + 1) t)
    (hrecs : Shape.records (h + 1) t ≤ records) (hwrap : records + (limits.leaf - 1) < 2 ^ 64) :
    Shape.leaves (h + 1) t ≤ howmany64 records limits.leaf :=
  le_howmany64 limits.leaf_pos hwrap (hfill.mul_leaves_le_records.trans hrecs)

/-- As long as no sum wraps, no tree with that many records is higher than the computed height, and
none has more blocks than the computed size or, without records, than one. -/
theorem btree_size_bounds (limits : BtreeLimits) (records : Nat)
    (hleaf : records + (limits.leaf - 1) < 2 ^ 64)
    (hnode : howmany64 records limits.leaf + (limits.node - 1) < 2 ^ 64) :
    (∀ h t, Shape.RootFilled limits.leaf limits.node h t → Shape.records h t ≤ records →
      h + 1 ≤ btreeComputeMaxlevels limits records) ∧
    (howmany64 records limits.leaf + btreeBlocksAbove limits (howmany64 records limits.leaf) < 2 ^ 64 →
      (1 ≤ records → 1 ≤ btreeCalcSize limits records) ∧
      ∀ h t, Shape.RootFilled limits.leaf limits.node h t → Shape.records h t ≤ records →
        Shape.blocks h t ≤ max 1 (btreeCalcSize limits records)) := by
  constructor
  · intro h t hfill hrecs
    cases h with
    | zero => exact le_btreeComputeMaxlevelsLoop _ _
    | succ h =>
      rw [add_comm]
      exact add_height_le _ 1 hfill (leaves_le_howmany64 hfill hrecs hleaf) hnode
  · intro hfits
    rw [btreeCalcSize, btreeCalcSizeLoop_eq _ _ hfits]
    constructor
    · intro hpos
      exact (howmany64_pos limits.leaf_pos hleaf hpos).trans (le_add_right _ _)
    · intro h t hfill hrecs
      cases h with
      | zero => exact le_max_left _ _
      | succ h =>
        apply le_trans _ (le_max_right _ _)
        exact blocks_le_above _ hfill (leaves_le_howmany64 hfill hrecs hleaf) hnode

def binaryLimits : BtreeLimits where
  leaf := 2
  node := 2
  leaf_pos := by decide
  leaf_lt := by decide
  two_le_node := by decide
  node_lt := by decide

def twoLeaves : Shape 1 := Shape.ofChildren [Shape.ofLeaf 2, Shape.ofLeaf 2]

theorem twoLeaves_rootFilled : Shape.RootFilled 2 2 1 twoLeaves := by
  constructor
  · decide
  · intro c hc
    have hleaf : c = Shape.ofLeaf 2 := by simpa [twoLeaves] using hc
    rw [hleaf]
    exact le_refl 2

/-- Without records the size is zero, and a sum that wraps gives a height of one. -/
theorem btree_size_bounds_fail :
    (btreeCalcSize binaryLimits 0 = 0 ∧ Shape.blocks 0 (Shape.ofLeaf 0) = 1) ∧
    btreeComputeMaxlevels binaryLimits (2 ^ 64 - 1) = 1 ∧ Shape.RootFilled 2 2 1 twoLeaves ∧
      Shape.records 1 twoLeaves ≤ 2 ^ 64 - 1 := by
  have hzero : howmany64 0 binaryLimits.leaf = 0 := by decide
  have hwraps : howmany64 (2 ^ 64 - 1) binaryLimits.leaf = 0 := by decide
  constructor
  · constructor
    · rw [btreeCalcSize, hzero, btreeCalcSizeLoop, if_neg (by decide)]
    · rfl
  · constructor
    · rw [btreeComputeMaxlevels, hwraps, btreeComputeMaxlevelsLoop, if_neg (by decide)]
    · exact ⟨twoLeaves_rootFilled, by decide⟩

theorem btree_size_bounds_four_records :
    2 ≤ btreeComputeMaxlevels binaryLimits 4 ∧ 3 ≤ max 1 (btreeCalcSize binaryLimits 4) := by
  have hfour : howmany64 4 binaryLimits.leaf = 2 := by decide
  have htwo : howmany64 2 binaryLimits.node = 1 := by decide
  have habove : btreeBlocksAbove binaryLimits 2 = 1 := by
    rw [btreeBlocksAbove, if_pos (by decide), htwo, btreeBlocksAbove, if_neg (by decide)]
  have hbounds := btree_size_bounds binaryLimits 4 (by decide) (by decide)
  have hfits : howmany64 4 binaryLimits.leaf +
      btreeBlocksAbove binaryLimits (howmany64 4 binaryLimits.leaf) < 2 ^ 64 := by
    rw [hfour, habove]
    decide
  exact ⟨hbounds.1 1 twoLeaves twoLeaves_rootFilled (by decide),
    (hbounds.2 hfits).2 1 twoLeaves twoLeaves_rootFilled (by decide)⟩

/-- The loop of `xfs_btree_space_to_height`. It need not end when the product wraps. -/
def btreeSpaceToHeightLoop (node : Nat) : Nat → Nat → Nat → Nat → Option Nat
  | 0, nodeBlocks, blocksLeft, height => if nodeBlocks < blocksLeft then none else some height
  | fuel + 1, nodeBlocks, blocksLeft, height =>
    if nodeBlocks < blocksLeft then
      btreeSpaceToHeightLoop node fuel (nodeBlocks * node % 2 ^ 64) (blocksLeft - nodeBlocks)
        (height + 1)
    else some height

/-- The height for all the records the space can hold. Only the node limits are read. -/
def btreeSpaceToHeight (fuel node leafBlocks : Nat) : Option Nat :=
  if leafBlocks < 1 then some 0 else btreeSpaceToHeightLoop node fuel 2 (leafBlocks - 1) 1

def btreeMinBlocks (node height : Nat) : Nat := 1 + 2 * ∑ i ∈ range (height - 1), node ^ i

theorem btreeMinBlocks_succ (node k : Nat) :
    btreeMinBlocks node (k + 2) = btreeMinBlocks node (k + 1) + 2 * node ^ k := by
  change 1 + 2 * ∑ i ∈ range (k + 1), node ^ i = 1 + 2 * ∑ i ∈ range k, node ^ i + 2 * node ^ k
  rw [Finset.sum_range_succ, mul_add, add_assoc]

section Space

variable {node n k : Nat}

theorem btreeMinBlocks_lt (hnode : 2 ≤ node) (k : Nat) :
    btreeMinBlocks node (k + 1) < btreeMinBlocks node (k + 2) := by
  rw [btreeMinBlocks_succ]
  have hpos : 0 < node ^ k := Nat.pow_pos (by omega)
  omega

theorem btreeMinBlocks_strictMono (hnode : 2 ≤ node) :
    StrictMono fun k => btreeMinBlocks node (k + 1) :=
  strictMono_nat_of_lt_succ (btreeMinBlocks_lt hnode)

theorem le_of_btreeSpaceToHeightLoop {fuel nodeBlocks blocksLeft height h : Nat}
    (hrun : btreeSpaceToHeightLoop node fuel nodeBlocks blocksLeft height = some h) : height ≤ h := by
  induction fuel generalizing nodeBlocks blocksLeft height with
  | zero =>
    rw [btreeSpaceToHeightLoop] at hrun
    split at hrun
    · cases hrun
    · cases hrun
      exact le_rfl
  | succ fuel ih =>
    rw [btreeSpaceToHeightLoop] at hrun
    split at hrun
    · exact (le_succ height).trans (ih hrun)
    · cases hrun
      exact le_rfl

theorem btreeSpaceToHeightLoop_add {fuel nodeBlocks blocksLeft height h : Nat}
    (hrun : btreeSpaceToHeightLoop node fuel nodeBlocks blocksLeft height = some h) (more : Nat) :
    btreeSpaceToHeightLoop node (fuel + more) nodeBlocks blocksLeft height = some h := by
  induction fuel generalizing nodeBlocks blocksLeft height with
  | zero =>
    rw [btreeSpaceToHeightLoop] at hrun
    split at hrun
    · cases hrun
    · next hstop =>
      cases more with
      | zero => rw [btreeSpaceToHeightLoop, if_neg hstop, hrun]
      | succ more => rw [zero_add, btreeSpaceToHeightLoop, if_neg hstop, hrun]
  | succ fuel ih =>
    rw [btreeSpaceToHeightLoop] at hrun
    rw [add_right_comm, btreeSpaceToHeightLoop]
    split at hrun
    · next hmore =>
      rw [if_pos hmore]
      exact ih hrun
    · next hstop => rw [if_neg hstop, hrun]

theorem btreeSpaceToHeightLoop_reaches (hn : n < 2 ^ 64) (k fuel : Nat)
    (hfits : btreeMinBlocks node (k + 1) ≤ n) (hne : ∀ j < k, n ≠ btreeMinBlocks node (j + 2)) :
    btreeSpaceToHeightLoop node (fuel + k) 2 (n - 1) 1 =
      btreeSpaceToHeightLoop node fuel (2 * node ^ k % 2 ^ 64) (n - btreeMinBlocks node (k + 1))
        (k + 1) := by
  induction k generalizing fuel with
  | zero => rfl
  | succ k ih =>
    have hnek := hne k (lt_succ_self k)
    rw [btreeMinBlocks_succ] at hfits hnek
    have hnodes : 2 * node ^ k < n - btreeMinBlocks node (k + 1) := by omega
    have hsmall : 2 * node ^ k % 2 ^ 64 = 2 * node ^ k := mod_eq_of_lt (by omega)
    rw [← add_assoc, add_right_comm,
      ih (fuel + 1) (by omega) (fun j hj => hne j (lt_succ_of_lt hj)), btreeSpaceToHeightLoop,
      hsmall, if_pos hnodes, btreeMinBlocks_succ, Nat.sub_sub, mul_assoc, ← pow_succ]

theorem exists_top (hnode : 2 ≤ node) (hn : 1 ≤ n) :
    ∃ k, btreeMinBlocks node (k + 1) ≤ n ∧ n < btreeMinBlocks node (k + 2) := by
  have hgrows : ∃ k, n < btreeMinBlocks node (k + 2) :=
    ⟨n, (lt_succ_self n).trans_le ((btreeMinBlocks_strictMono hnode).le_apply)⟩
  refine ⟨Nat.find hgrows, ?_, Nat.find_spec hgrows⟩
  cases hk : Nat.find hgrows with
  | zero => exact hn
  | succ k =>
    have hmin := Nat.find_min hgrows (m := k) (by omega)
    exact not_lt.mp hmin

theorem le_top (hnode : 2 ≤ node) {j : Nat} (hk : n < btreeMinBlocks node (k + 2))
    (hj : btreeMinBlocks node (j + 1) ≤ n) : j ≤ k := by
  have hlt : btreeMinBlocks node (j + 1) < btreeMinBlocks node (k + 1 + 1) := hj.trans_lt hk
  exact le_of_lt_succ ((btreeMinBlocks_strictMono hnode).lt_iff_lt.mp hlt)

theorem isGreatest_top (hnode : 2 ≤ node) (hfits : btreeMinBlocks node (k + 1) ≤ n)
    (hk : n < btreeMinBlocks node (k + 2)) :
    IsGreatest {h | 1 ≤ h ∧ btreeMinBlocks node h ≤ n} (k + 1) := by
  constructor
  · exact ⟨le_add_left 1 k, hfits⟩
  · rintro h ⟨hpos, hle⟩
    obtain ⟨j, rfl⟩ := Nat.exists_eq_add_of_le' hpos
    exact succ_le_succ (le_top hnode hk hle)

theorem btreeSpaceToHeightLoop_exact (hnode : 2 ≤ node) (hn : n < 2 ^ 64) (j fuel : Nat)
    (heq : n = btreeMinBlocks node (j + 2)) :
    btreeSpaceToHeightLoop node (fuel + j) 2 (n - 1) 1 = some (j + 1) := by
  have hsucc := btreeMinBlocks_succ node j
  have hne : ∀ i < j, n ≠ btreeMinBlocks node (i + 2) := by
    intro i hi
    rw [heq]
    exact ((btreeMinBlocks_strictMono hnode) (succ_lt_succ hi)).ne'
  have hstop : ¬ 2 * node ^ j % 2 ^ 64 < n - btreeMinBlocks node (j + 1) := by
    omega
  rw [btreeSpaceToHeightLoop_reaches hn j fuel (by omega) hne]
  cases fuel with
  | zero => rw [btreeSpaceToHeightLoop, if_neg hstop]
  | succ fuel => rw [btreeSpaceToHeightLoop, if_neg hstop]

/-- The computed height is that of the highest tree there is room for unless the space is just that of
a smallest tree, or the nodes of the level that does not fit any more wrap to a number that does. -/
theorem btree_space_to_height_bound (node n : Nat) (hnode : 2 ≤ node) (hpos : 1 ≤ n)
    (hn : n < 2 ^ 64) :
    (∃ fuel h, btreeSpaceToHeight fuel node n = some h ∧
      (∀ k t, Shape.RootFilled 0 node k t → Shape.blocks k t ≤ n → k + 1 ≤ h) ∧
      IsGreatest {h | 1 ≤ h ∧ btreeMinBlocks node h ≤ n} h) ↔
    (∀ h, 2 ≤ h → n ≠ btreeMinBlocks node h) ∧
    ∀ h, 1 ≤ h → btreeMinBlocks node h ≤ n → n < btreeMinBlocks node (h + 1) →
      n - btreeMinBlocks node h ≤ 2 * node ^ (h - 1) % 2 ^ 64 := by
  obtain ⟨k, hfits, hk⟩ := exists_top hnode hpos
  have htop := isGreatest_top hnode hfits hk
  have hstart : ∀ fuel, btreeSpaceToHeight fuel node n =
      btreeSpaceToHeightLoop node fuel 2 (n - 1) 1 := by
    intro fuel
    rw [btreeSpaceToHeight, if_neg (not_lt.mpr hpos)]
  constructor
  · rintro ⟨fuel, h, hrun, -, hgreatest⟩
    obtain rfl := hgreatest.unique htop
    rw [hstart] at hrun
    have hne : ∀ h, 2 ≤ h → n ≠ btreeMinBlocks node h := by
      intro h htwo heq
      obtain ⟨j, rfl⟩ := Nat.exists_eq_add_of_le' htwo
      have hearly := btreeSpaceToHeightLoop_exact hnode hn j fuel heq
      rw [btreeSpaceToHeightLoop_add hrun j] at hearly
      cases hearly
      exact absurd hk (not_lt.mpr heq.ge)
    constructor
    · exact hne
    · intro h hone hle hlt
      have heq : h = k + 1 := by
        obtain ⟨j, rfl⟩ := Nat.exists_eq_add_of_le' hone
        exact (isGreatest_top hnode hle hlt).unique htop
      subst heq
      rw [Nat.add_sub_cancel]
      by_contra hover
      -- the round after the last level that fits returns a greater height, if any
      have hpast := btreeSpaceToHeightLoop_add hrun (1 + k)
      rw [← add_assoc, btreeSpaceToHeightLoop_reaches hn k (fuel + 1) hfits
        (fun j _ => hne (j + 2) (le_add_left 2 j)), btreeSpaceToHeightLoop,
        if_pos (not_le.mp hover)] at hpast
      exact absurd (le_of_btreeSpaceToHeightLoop hpast) (not_succ_le_self _)
  · rintro ⟨hne, hlast⟩
    have hstop := hlast (k + 1) (le_add_left 1 k) hfits hk
    rw [Nat.add_sub_cancel] at hstop
    have hreach := btreeSpaceToHeightLoop_reaches hn k 0 hfits
      (fun j _ => hne (j + 2) (le_add_left 2 j))
    rw [btreeSpaceToHeightLoop, if_neg (not_lt.mpr hstop), zero_add, ← hstart] at hreach
    refine ⟨k, k + 1, hreach, ?_, htop⟩
    intro j t hfill hblocks
    exact htop.2 ⟨le_add_left 1 j, hfill.geom_sum_le_blocks.trans hblocks⟩

theorem btree_space_to_height_bound_three : ¬ ∃ fuel h, btreeSpaceToHeight fuel 2 3 = some h ∧
      (∀ k t, Shape.RootFilled 0 2 k t → Shape.blocks k t ≤ 3 → k + 1 ≤ h) ∧
      IsGreatest {h | 1 ≤ h ∧ btreeMinBlocks 2 h ≤ 3} h := by
  intro hbound
  have hne := ((btree_space_to_height_bound 2 3 (by decide) (by decide) (by decide)).mp hbound).1
  exact hne 2 (by decide) rfl

/-- Three blocks are a root and two leaves, but the computed height is one. -/
theorem btree_space_to_height_fails :
    btreeSpaceToHeight 1 2 3 = some 1 ∧ Shape.RootFilled 0 2 1 (Shape.sparseRoot 2 1) ∧
      Shape.blocks 1 (Shape.sparseRoot 2 1) = 3 :=
  ⟨by decide, Shape.sparseRoot_rootFilled 2 1, Shape.blocks_sparseRoot 2 1⟩

end Space

end Xfs
