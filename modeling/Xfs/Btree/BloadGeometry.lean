import Mathlib.Algebra.BigOperators.Intervals
import Xfs.Basic
import Xfs.Lib.EvenSplit

/-! Geometry of a bulk-loaded btree: how many blocks each level takes, and the
height of the tree. -/
namespace Xfs

open EvenSplit

/-- Roots of a btree: a block of its group, or the fork of an inode. -/
inductive BtreeRoot where
  | ag
  | inode
deriving DecidableEq

structure BtreeGeom where
  root : BtreeRoot
  irootRecords : Bool
  maxlevels : Nat
  mxr : Bool → Nat
  drootMaxrecs : Bool → Nat
  irootMaxrecs : Bool → Nat
  two_le_mxr : ∀ node, 2 ≤ mxr node
  mxr_lt : ∀ node, mxr node < 2 ^ 16
  drootMaxrecs_lt : ∀ node, drootMaxrecs node < 2 ^ 16
  irootMaxrecs_lt : ∀ node, irootMaxrecs node < 2 ^ 30

/-- Geometry fields of a bulk load; a negative slack asks for the default. -/
structure Bload where
  nrRecords : Nat
  leafSlack : Int
  nodeSlack : Int
  nrBlocks : Nat
  btreeHeight : Nat
  maxDirty : Nat

/-- Loads of the blocks of one level. -/
structure LevelGeometry where
  avgPerBlock : Nat
  blocks : Nat
  blocksWithExtra : Nat
deriving DecidableEq

section Capacities

variable (g : BtreeGeom) (bbl : Bload) (nlevels level : Nat)

def getMaxrecs : Nat :=
  match g.root with
  | .ag => g.mxr (decide (level ≠ 0))
  | .inode =>
    if level + 1 = nlevels then g.irootMaxrecs (decide (level ≠ 0))
    else g.mxr (decide (level ≠ 0))

def getMinrecs : Nat := getMaxrecs g nlevels level / 2

/-- The ondisk maximum. Only inode-rooted btrees have a callback for it. -/
def getDmaxrecs : Option Nat :=
  match g.root with
  | .ag => none
  | .inode =>
    some (if level + 1 = nlevels then g.drootMaxrecs (decide (level ≠ 0))
      else g.mxr (decide (level ≠ 0)))

def bloadMaxnr : Nat := (getDmaxrecs g nlevels level).getD (getMaxrecs g nlevels level)

def Bload.slack : Int := if level = 0 then bbl.leafSlack else bbl.nodeSlack

/-- `xfs_btree_bload_max_npb`: the subtraction is of 32-bit unsigned values. -/
def bloadMaxNpb : Nat :=
  match getDmaxrecs g nlevels level with
  | some dmaxrecs =>
    if level + 1 = nlevels then dmaxrecs
    else ((getMaxrecs g nlevels level - bbl.slack level) % 2 ^ 32).toNat
  | none => ((getMaxrecs g nlevels level - bbl.slack level) % 2 ^ 32).toNat

def bloadDesiredNpb : Nat :=
  if level + 1 = nlevels then max 1 (bloadMaxNpb g bbl nlevels level)
  else max (getMinrecs g nlevels level) (bloadMaxNpb g bbl nlevels level)

def bloadLevelGeometry (nrThisLevel : Nat) : LevelGeometry :=
  let maxnr := bloadMaxnr g nlevels level
  let blocks := max 1 (nrThisLevel / bloadDesiredNpb g bbl nlevels level)
  let npb := nrThisLevel / blocks
  let blocksWithExtra := nrThisLevel % blocks
  if npb > maxnr ∨ npb = maxnr ∧ blocksWithExtra > 0 then
    let blocks := blocks + 1
    ⟨min (nrThisLevel / blocks) nrThisLevel % 2 ^ 32, blocks, nrThisLevel % blocks⟩
  else
    ⟨min npb nrThisLevel % 2 ^ 32, blocks, blocksWithExtra⟩

/-- A negative slack becomes half of what the minimum leaves free. -/
def bloadEnsureSlack (slack : Int) : Int :=
  let maxr : Int := getMaxrecs g nlevels level
  let minr : Int := getMinrecs g nlevels level
  let slack := if slack < 0 then maxr - (maxr + minr) / 2 else slack
  min slack (maxr - minr)

end Capacities

def bloadComputeLevels (g : BtreeGeom) (bbl : Bload) :
    Nat → Nat → Nat → Nat → Except Errno (Nat × Nat)
  | 0, _, _, _ => .error .eoverflow
  | left + 1, level, nrThisLevel, nrBlocks =>
    let asRoot := bloadLevelGeometry g bbl (level + 1) level nrThisLevel
    match g.root with
    | .inode =>
      if (level ≠ 0 ∨ g.irootRecords = true) ∧ nrThisLevel ≤ asRoot.avgPerBlock then
        .ok (level + 1, nrBlocks + 1)
      else
        let asBlocks := bloadLevelGeometry g bbl (level + 2) level nrThisLevel
        bloadComputeLevels g bbl left (level + 1) asBlocks.blocks (nrBlocks + asBlocks.blocks)
    | .ag =>
      if nrThisLevel ≤ asRoot.avgPerBlock then .ok (level + 1, nrBlocks + 1)
      else bloadComputeLevels g bbl left (level + 1) asRoot.blocks (nrBlocks + asRoot.blocks)

/-- Both slacks are checked with `bc_nlevels` set one below the height limit. -/
def bloadSlacks (g : BtreeGeom) (bbl : Bload) : Bload :=
  { bbl with
    leafSlack := bloadEnsureSlack g (g.maxlevels - 1) 0 bbl.leafSlack
    nodeSlack := bloadEnsureSlack g (g.maxlevels - 1) 1 bbl.nodeSlack }

def bloadComputeGeometry (g : BtreeGeom) (bbl : Bload) (nrRecords : Nat) : Except Errno Bload := do
  let bbl := { bloadSlacks g bbl with nrRecords := nrRecords }
  let (height, nrBlocks) ← bloadComputeLevels g bbl g.maxlevels 0 nrRecords 0
  return { bbl with
    btreeHeight := height
    nrBlocks := match g.root with
      | .inode => nrBlocks - 1
      | .ag => nrBlocks }

/-- Items of a level when the levels below are made of ordinary blocks. -/
def bloadItems (g : BtreeGeom) (bbl : Bload) (nrRecords : Nat) : Nat → Nat
  | 0 => nrRecords
  | level + 1 => (bloadLevelGeometry g bbl (level + 2) level (bloadItems g bbl nrRecords level)).blocks

section Facts

variable {g : BtreeGeom} {bbl : Bload} {nlevels level nr : Nat}

theorem bloadMaxnr_of_ne (h : level + 1 ≠ nlevels) :
    bloadMaxnr g nlevels level = g.mxr (decide (level ≠ 0)) := by
  unfold bloadMaxnr getDmaxrecs getMaxrecs
  cases g.root <;> simp [h]

theorem getMinrecs_of_ne (h : level + 1 ≠ nlevels) :
    getMinrecs g nlevels level = g.mxr (decide (level ≠ 0)) / 2 := by
  unfold getMinrecs getMaxrecs
  cases g.root <;> simp [h]

theorem bloadDesiredNpb_of_ne (h : level + 1 ≠ nlevels) : bloadDesiredNpb g bbl nlevels level =
      max (g.mxr (decide (level ≠ 0)) / 2)
        ((g.mxr (decide (level ≠ 0)) - bbl.slack level) % 2 ^ 32).toNat := by
  rw [bloadDesiredNpb, if_neg h, getMinrecs_of_ne h]
  unfold bloadMaxNpb getDmaxrecs getMaxrecs
  cases g.root <;> simp [h]

section

variable (g : BtreeGeom) (bbl : Bload) (nlevels level : Nat)

theorem bloadMaxNpb_lt : bloadMaxNpb g bbl nlevels level < 2 ^ 32 := by
  have hd := g.drootMaxrecs_lt (decide (level ≠ 0))
  unfold bloadMaxNpb getDmaxrecs
  cases g.root
  · simp only
    omega
  · simp only
    split_ifs <;> omega

theorem bloadDesiredNpb_lt : bloadDesiredNpb g bbl nlevels level < 2 ^ 32 := by
  have hn := bloadMaxNpb_lt g bbl nlevels level
  have hm := g.mxr_lt (decide (level ≠ 0))
  by_cases h : level + 1 = nlevels
  · rw [bloadDesiredNpb, if_pos h]
    omega
  · rw [bloadDesiredNpb, if_neg h, getMinrecs_of_ne h]
    omega

theorem bloadDesiredNpb_pos : 0 < bloadDesiredNpb g bbl nlevels level := by
  have hm := g.two_le_mxr (decide (level ≠ 0))
  by_cases h : level + 1 = nlevels
  · rw [bloadDesiredNpb, if_pos h]
    omega
  · rw [bloadDesiredNpb_of_ne h]
    omega

end

theorem bloadMaxnr_lt (g : BtreeGeom) (nlevels level : Nat) :
    bloadMaxnr g nlevels level < 2 ^ 16 := by
  have hd := g.drootMaxrecs_lt (decide (level ≠ 0))
  have hm := g.mxr_lt (decide (level ≠ 0))
  unfold bloadMaxnr getDmaxrecs getMaxrecs
  cases g.root
  · exact hm
  · split_ifs <;> assumption

def bloadBlocks (g : BtreeGeom) (bbl : Bload) (nlevels level nr : Nat) : Nat :=
  EvenSplit.blocks nr (bloadDesiredNpb g bbl nlevels level) (bloadMaxnr g nlevels level)

theorem bloadBlocks_pos : 0 < bloadBlocks g bbl nlevels level nr := blocks_pos

theorem bloadLevelGeometry_eq (g : BtreeGeom) (bbl : Bload) (nlevels level nr : Nat) :
    bloadLevelGeometry g bbl nlevels level nr =
      ⟨nr / bloadBlocks g bbl nlevels level nr, bloadBlocks g bbl nlevels level nr,
        nr % bloadBlocks g bbl nlevels level nr⟩ := by
  have hpos := bloadDesiredNpb_pos g bbl nlevels level
  have hlt := bloadDesiredNpb_lt g bbl nlevels level
  have hmax := bloadMaxnr_lt g nlevels level
  have havg : min (nr / bloadBlocks g bbl nlevels level nr) nr % 2 ^ 32 =
      nr / bloadBlocks g bbl nlevels level nr := by
    have h1 := div_blocks_lt nr hlt.le (show bloadMaxnr g nlevels level < 2 ^ 32 by omega) hpos
    rw [min_eq_left (Nat.div_le_self _ _)]
    exact Nat.mod_eq_of_lt h1
  have hover := over_iff nr (b := max 1 (nr / bloadDesiredNpb g bbl nlevels level))
    (m := bloadMaxnr g nlevels level) (by omega)
  unfold bloadLevelGeometry
  unfold bloadBlocks EvenSplit.blocks at havg ⊢
  by_cases h : max 1 (nr / bloadDesiredNpb g bbl nlevels level) * bloadMaxnr g nlevels level < nr
  · simp only [if_pos h, if_pos (hover.mpr h)] at havg ⊢
    rw [havg]
  · simp only [if_neg h, if_neg (mt hover.mp h)] at havg ⊢
    rw [havg]

theorem bloadBlocks_of_ne {nlevels' : Nat} (h : level + 1 ≠ nlevels)
    (h' : level + 1 ≠ nlevels') (nr : Nat) :
    bloadBlocks g bbl nlevels level nr = bloadBlocks g bbl nlevels' level nr := by
  simp [bloadBlocks, bloadDesiredNpb_of_ne h, bloadDesiredNpb_of_ne h', bloadMaxnr_of_ne h,
    bloadMaxnr_of_ne h']

theorem bloadDesiredNpb_le (h : level + 1 ≠ nlevels) (hpos : 0 ≤ bbl.slack level)
    (hle : bbl.slack level ≤ g.mxr (decide (level ≠ 0))) :
    bloadDesiredNpb g bbl nlevels level ≤ g.mxr (decide (level ≠ 0)) := by
  rw [bloadDesiredNpb_of_ne h]
  omega

theorem bloadDesiredNpb_huge (h : level + 1 ≠ nlevels)
    (hgt : g.mxr (decide (level ≠ 0)) < bbl.slack level) (hlt : bbl.slack level < 2 ^ 30) :
    2 * g.mxr (decide (level ≠ 0)) < bloadDesiredNpb g bbl nlevels level := by
  rw [bloadDesiredNpb_of_ne h]
  omega

theorem bloadBlocks_ag (nr : Nat) (hroot : g.root = .ag) (hpos : 0 ≤ bbl.slack level)
    (hle : bbl.slack level ≤ g.mxr (decide (level ≠ 0)) - (g.mxr (decide (level ≠ 0)) / 2 : Nat)) :
    bloadBlocks g bbl (level + 1) level nr = bloadBlocks g bbl (level + 2) level nr := by
  have h2 := g.two_le_mxr (decide (level ≠ 0))
  have hm := g.mxr_lt (decide (level ≠ 0))
  have hdesired : bloadDesiredNpb g bbl (level + 1) level = bloadDesiredNpb g bbl (level + 2) level := by
    have hblock : level + 1 ≠ level + 2 := by omega
    rw [bloadDesiredNpb_of_ne hblock, bloadDesiredNpb, if_pos rfl, bloadMaxNpb, getDmaxrecs,
      getMaxrecs, hroot]
    simp only
    omega
  have hmax : bloadMaxnr g (level + 1) level = bloadMaxnr g (level + 2) level := by
    simp [bloadMaxnr, getDmaxrecs, getMaxrecs, hroot]
  rw [bloadBlocks, bloadBlocks, hdesired, hmax]

theorem bloadBlocks_iroot (hroot : g.root = .inode) :
    bloadBlocks g bbl (level + 1) level nr = 1 ↔ nr ≤ g.drootMaxrecs (decide (level ≠ 0)) := by
  have hmax : bloadMaxnr g (level + 1) level = g.drootMaxrecs (decide (level ≠ 0)) := by
    simp [bloadMaxnr, getDmaxrecs, hroot]
  have hdesired : bloadDesiredNpb g bbl (level + 1) level =
      max 1 (g.drootMaxrecs (decide (level ≠ 0))) := by
    simp [bloadDesiredNpb, bloadMaxNpb, getDmaxrecs, hroot]
  rw [bloadBlocks, hdesired, hmax]
  exact blocks_max_eq_one_iff

theorem le_avgPerBlock_iff : nr ≤ (bloadLevelGeometry g bbl nlevels level nr).avgPerBlock ↔
      (bloadLevelGeometry g bbl nlevels level nr).blocks = 1 := by
  simp only [bloadLevelGeometry_eq]
  exact blocks_eq_one_iff

theorem bloadEnsureSlack_bounds (g : BtreeGeom) (nlevels level : Nat) (slack : Int) :
    0 ≤ bloadEnsureSlack g nlevels level slack ∧ bloadEnsureSlack g nlevels level slack ≤
        getMaxrecs g nlevels level - (getMaxrecs g nlevels level / 2 : Nat) := by
  unfold bloadEnsureSlack getMinrecs
  simp only
  split_ifs <;> omega

end Facts

section Levels

variable {g : BtreeGeom} {bbl : Bload} {nr : Nat}

def BloadRootFits (g : BtreeGeom) (bbl : Bload) (nr level : Nat) : Prop :=
  (g.root = .inode → level ≠ 0 ∨ g.irootRecords = true) ∧
    bloadBlocks g bbl (level + 1) level (bloadItems g bbl nr level) = 1

theorem bloadItems_succ (g : BtreeGeom) (bbl : Bload) (nr level : Nat) :
    bloadItems g bbl nr (level + 1) =
      bloadBlocks g bbl (level + 2) level (bloadItems g bbl nr level) := by
  rw [bloadItems, bloadLevelGeometry_eq]

theorem bloadComputeLevels_succ (nr left level nrBlocks : Nat) (hag : g.root = .ag → ∀ level nr,
      bloadBlocks g bbl (level + 1) level nr = bloadBlocks g bbl (level + 2) level nr) :
    (BloadRootFits g bbl nr level →
      bloadComputeLevels g bbl (left + 1) level (bloadItems g bbl nr level) nrBlocks =
        .ok (level + 1, nrBlocks + 1)) ∧
    (¬ BloadRootFits g bbl nr level →
      bloadComputeLevels g bbl (left + 1) level (bloadItems g bbl nr level) nrBlocks =
        bloadComputeLevels g bbl left (level + 1) (bloadItems g bbl nr (level + 1))
          (nrBlocks + bloadItems g bbl nr (level + 1))) := by
  have hblocks : ∀ nlevels n, (bloadLevelGeometry g bbl nlevels level n).blocks =
      bloadBlocks g bbl nlevels level n := fun nlevels n => by rw [bloadLevelGeometry_eq]
  rw [bloadComputeLevels, bloadItems_succ, BloadRootFits]
  cases hroot : g.root with
  | ag =>
    simp only [le_avgPerBlock_iff, hblocks, hag hroot, reduceCtorEq, false_implies, true_and]
    constructor <;> intro h
    · rw [if_pos h]
    · rw [if_neg h]
  | inode =>
    simp only [le_avgPerBlock_iff, hblocks, true_implies]
    constructor <;> intro h
    · rw [if_pos h]
    · rw [if_neg h]

theorem bloadComputeLevels_spec {left level nrBlocks height total : Nat}
    (hag : g.root = .ag → ∀ level nr,
      bloadBlocks g bbl (level + 1) level nr = bloadBlocks g bbl (level + 2) level nr)
    (hsum : nrBlocks = ∑ i ∈ Finset.range level, bloadItems g bbl nr (i + 1))
    (hrun : bloadComputeLevels g bbl left level (bloadItems g bbl nr level) nrBlocks =
      .ok (height, total)) :
    level < height ∧ height ≤ level + left ∧
      total = ∑ i ∈ Finset.range (height - 1), bloadItems g bbl nr (i + 1) + 1 ∧
      BloadRootFits g bbl nr (height - 1) ∧
      ∀ i, level ≤ i → i + 1 < height → ¬ BloadRootFits g bbl nr i := by
  induction left generalizing level nrBlocks with
  | zero => cases hrun
  | succ left ih =>
    obtain ⟨hroot, hnext⟩ := bloadComputeLevels_succ nr left level nrBlocks hag
    by_cases hfits : BloadRootFits g bbl nr level
    · rw [hroot hfits] at hrun
      obtain ⟨rfl, rfl⟩ := Prod.mk.inj (Except.ok.inj hrun)
      exact ⟨by omega, by omega, by rw [hsum, Nat.add_sub_cancel], hfits, fun i h1 h2 => by omega⟩
    · rw [hnext hfits] at hrun
      obtain ⟨h1, h2, h3, h4, h5⟩ := ih (by rw [hsum, Finset.sum_range_succ]) hrun
      refine ⟨by omega, by omega, h3, h4, fun i hi hlt => ?_⟩
      rcases Nat.eq_or_lt_of_le hi with rfl | hi'
      · exact hfits
      · exact h5 i hi' hlt

end Levels

end Xfs
