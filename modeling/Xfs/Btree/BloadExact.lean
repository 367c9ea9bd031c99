import Xfs.Btree.BloadShape

/-! Exactness of the bulk-load geometry: the loader builds the tree that was
measured, and every block is within its limits exactly when no level was
measured with the slack of the incore root. -/
namespace Xfs

open EvenSplit List BloadInput

section Statement

variable {R K : Type} [LinearOrder K]

def FakeRoot.loc (g : BtreeGeom) (fake : FakeRoot) : BlockLoc :=
  match g.root, fake.root with
  | .ag, some ptr => .buf ptr
  | _, _ => .iroot

def bloadedLevel (g : BtreeGeom) (bbl : Bload) (st : BloadState R K) (fake : FakeRoot)
    (level : Nat) : List BlockLoc :=
  btreeDescend st.store (bbl.btreeHeight - 1 - level) [fake.loc g]

def BtreeBlock.items (b : BtreeBlock R K) : Nat := b.recs.length + b.ptrs.length

/-- A block of a well-formed tree: number `j` of the blocks `locs` of its level. -/
structure BloadedBlock (ctx : BloadCtx R K) (store : BtreeStore R K) (height level : Nat)
    (locs : List BlockLoc) (j : Nat) (b : BtreeBlock R K) : Prop where
  level_eq : b.level = level
  leftsib : b.leftsib = leftLoc locs j
  rightsib : b.rightsib = rightLoc locs j
  numrecs : b.numrecs = b.items
  leaf : level = 0 → b.ptrs = []
  node : level ≠ 0 → b.recs = []
  keys_length : b.keys.length = b.ptrs.length
  le_max : b.items ≤ bloadMaxnr ctx.geom height level
  min_le : level + 1 ≠ height → locs.length ≠ 1 → getMinrecs ctx.geom height level ≤ b.items
  keys : ∀ (i ptr : Nat), b.ptrs[i]? = some ptr → btreeRecs store (level - 1) (.buf ptr) ≠ [] →
    b.keys[i]? = some (recsKey ctx.keys (btreeRecs store (level - 1) (.buf ptr)))

/-- What the loader promises. Each claimed block is reached once. -/
structure BloadedTree (ctx : BloadCtx R K) (bbl : Bload) (stream : List R) (reserved : List Nat)
    (st : BloadState R K) (fake : FakeRoot) : Prop where
  claimed : st.reserved = reserved.drop bbl.nrBlocks
  written : st.written = reserved.take bbl.nrBlocks ∧ st.buffers = []
  consumed : st.stream = stream.drop bbl.nrRecords
  height : fake.levels = bbl.btreeHeight
  nrBlocks : fake.blocks = bbl.nrBlocks
  records : btreeRecs st.store (bbl.btreeHeight - 1) (fake.loc ctx.geom) =
    stream.take bbl.nrRecords
  reached : (List.range bbl.btreeHeight).flatMap (bloadedLevel ctx.geom bbl st fake) =
    (reserved.take bbl.nrBlocks).map .buf ++ if ctx.geom.root = .inode then [.iroot] else []
  blocks : ∀ level < bbl.btreeHeight, ∀ (j : Nat) (loc : BlockLoc),
    (bloadedLevel ctx.geom bbl st fake level)[j]? = some loc →
    ∃ b, st.store.get loc = some b ∧
      BloadedBlock ctx st.store bbl.btreeHeight level (bloadedLevel ctx.geom bbl st fake level) j b
  loads : ∀ level < bbl.btreeHeight,
    ((bloadedLevel ctx.geom bbl st fake level).map fun loc =>
      ((st.store.get loc).map BtreeBlock.items).getD 0).sum =
      if level = 0 then bbl.nrRecords
      else (bloadedLevel ctx.geom bbl st fake (level - 1)).length

end Statement

def BloadMisread (g : BtreeGeom) (bbl : Bload) (level : Nat) : Prop :=
  g.root = .inode ∧ level + 2 = g.maxlevels ∧
    (g.mxr (decide (level ≠ 0)) : Int) <
      bloadEnsureSlack g (g.maxlevels - 1) level (bbl.slack level)

def BloadSafe (g : BtreeGeom) (bbl : Bload) (nrRecords : Nat) : Prop :=
  (BloadMisread g bbl 0 → nrRecords ≤ 2 * g.mxr false ∨
    g.irootRecords = true ∧ nrRecords ≤ g.drootMaxrecs false) ∧
  (BloadMisread g bbl 1 →
    (nrRecords ≤ max (2 * g.mxr true) (g.drootMaxrecs true) * g.mxr false ∧
      (nrRecords : Int) < (max (2 * g.mxr true) (g.drootMaxrecs true) + 1) *
        (g.mxr false - bloadEnsureSlack g (g.maxlevels - 1) 0 bbl.leafSlack)) ∨
    g.irootRecords = true ∧ nrRecords ≤ g.drootMaxrecs false)

section Measured

variable {g : BtreeGeom} {bbl bbl' : Bload} {nr : Nat}

theorem bloadBlocks_congr (h : ∀ level, bbl.slack level = bbl'.slack level)
    (nlevels level n : Nat) :
    bloadBlocks g bbl nlevels level n = bloadBlocks g bbl' nlevels level n := by
  simp [bloadBlocks, bloadDesiredNpb, bloadMaxNpb, h level]

theorem bloadItems_congr (h : ∀ level, bbl.slack level = bbl'.slack level) (nr level : Nat) :
    bloadItems g bbl nr level = bloadItems g bbl' nr level := by
  induction level with
  | zero => rfl
  | succ level ih => rw [bloadItems_succ, bloadItems_succ, ih, bloadBlocks_congr h]

/-- The height is that of the first level that fits the root, and the blocks are counted. -/
structure Measured (g : BtreeGeom) (bbl bbl' : Bload) (nr : Nat) : Prop where
  nrRecords : bbl'.nrRecords = nr
  slack : ∀ level, bbl'.slack level =
    bloadEnsureSlack g (g.maxlevels - 1) (min level 1) (bbl.slack level)
  height_pos : 0 < bbl'.btreeHeight
  height_le : bbl'.btreeHeight ≤ g.maxlevels
  fits : BloadRootFits g bbl' nr (bbl'.btreeHeight - 1)
  not_fits : ∀ i, i + 1 < bbl'.btreeHeight → ¬ BloadRootFits g bbl' nr i
  nrBlocks : bbl'.nrBlocks = ∑ i ∈ Finset.range (bbl'.btreeHeight - 1), bloadItems g bbl' nr (i + 1) +
    if g.root = .ag then 1 else 0

theorem bloadSlacks_slack (g : BtreeGeom) (bbl : Bload) (level : Nat) :
    (bloadSlacks g bbl).slack level =
      bloadEnsureSlack g (g.maxlevels - 1) (min level 1) (bbl.slack level) := by
  cases level with
  | zero => rfl
  | succ level =>
    rw [min_eq_right (by omega : 1 ≤ level + 1)]
    rfl

theorem slack_ag (bbl : Bload) (hroot : g.root = .ag) (level : Nat) :
    0 ≤ (bloadSlacks g bbl).slack level ∧ (bloadSlacks g bbl).slack level ≤
      g.mxr (decide (level ≠ 0)) - (g.mxr (decide (level ≠ 0)) / 2 : Nat) := by
  have hnode : decide (min level 1 ≠ 0) = decide (level ≠ 0) := by
    cases level <;> simp
  have h := bloadEnsureSlack_bounds g (g.maxlevels - 1) (min level 1) (bbl.slack level)
  rw [bloadSlacks_slack]
  simpa only [getMaxrecs, hroot, hnode] using h

theorem bloadComputeGeometry_measured (h : bloadComputeGeometry g bbl nr = .ok bbl') :
    Measured g bbl bbl' nr := by
  unfold bloadComputeGeometry at h
  cases hrun : bloadComputeLevels g { bloadSlacks g bbl with nrRecords := nr } g.maxlevels 0 nr 0 with
  | error e =>
    simp only [hrun] at h
    cases h
  | ok res =>
    obtain ⟨height, total⟩ := res
    simp only [hrun, ok_bind, pure_eq_ok, Except.ok.injEq] at h
    have hslack : ∀ level, Bload.slack { bloadSlacks g bbl with nrRecords := nr } level =
        bbl'.slack level := fun level => by rw [← h]; rfl
    have hag : g.root = .ag → ∀ level n,
        bloadBlocks g { bloadSlacks g bbl with nrRecords := nr } (level + 1) level n =
          bloadBlocks g { bloadSlacks g bbl with nrRecords := nr } (level + 2) level n :=
      fun hroot level n => bloadBlocks_ag n hroot (slack_ag bbl hroot level).1 (slack_ag bbl hroot level).2
    obtain ⟨h1, h2, h3, h4, h5⟩ := bloadComputeLevels_spec hag (by simp) hrun
    have hheight : bbl'.btreeHeight = height := by rw [← h]
    have hfits : ∀ level, BloadRootFits g { bloadSlacks g bbl with nrRecords := nr } nr level ↔
        BloadRootFits g bbl' nr level := fun level => by
      rw [BloadRootFits, BloadRootFits, bloadItems_congr hslack, bloadBlocks_congr hslack]
    refine ⟨by rw [← h], fun level => ?_, by omega, by omega, ?_, fun i hi => ?_, ?_⟩
    · rw [← hslack]
      exact bloadSlacks_slack g bbl level
    · rw [hheight, ← hfits]
      exact h4
    · rw [← hfits]
      exact h5 i (by omega) (by omega)
    · have hitems : ∀ i, bloadItems g { bloadSlacks g bbl with nrRecords := nr } nr (i + 1) =
          bloadItems g bbl' nr (i + 1) := fun i => bloadItems_congr hslack nr (i + 1)
      simp only [hitems] at h3
      have hnr := congrArg Bload.nrBlocks h
      rw [hheight, ← hnr, h3]
      cases g.root <;> rfl

namespace Measured

variable (hM : Measured g bbl bbl' nr)
include hM

theorem slack_nonneg (level : Nat) : 0 ≤ bbl'.slack level := by
  rw [hM.slack]
  exact (bloadEnsureSlack_bounds _ _ _ _).1

theorem slack_lt (level : Nat) : bbl'.slack level < 2 ^ 30 := by
  have h := (bloadEnsureSlack_bounds g (g.maxlevels - 1) (min level 1) (bbl.slack level)).2
  have h1 := g.mxr_lt (decide (min level 1 ≠ 0))
  have h2 := g.irootMaxrecs_lt (decide (min level 1 ≠ 0))
  have h3 : getMaxrecs g (g.maxlevels - 1) (min level 1) < 2 ^ 30 := by
    unfold getMaxrecs
    cases g.root
    · simp only
      omega
    · simp only
      split_ifs <;> omega
  rw [hM.slack]
  omega

variable {level : Nat}

theorem slack_le (hlevel : level + 1 < bbl'.btreeHeight)
    (hread : ¬ BloadMisread g bbl (min level 1)) :
    bbl'.slack level ≤ g.mxr (decide (level ≠ 0)) := by
  have hle := hM.height_le
  have hnode : decide (min level 1 ≠ 0) = decide (level ≠ 0) := by
    cases level <;> simp
  have harg : bbl.slack (min level 1) = bbl.slack level := by
    cases level with
    | zero => rfl
    | succ level => rw [min_eq_right (by omega : 1 ≤ level + 1)]; rfl
  have hbound := (bloadEnsureSlack_bounds g (g.maxlevels - 1) (min level 1) (bbl.slack level)).2
  rw [hM.slack]
  by_cases hcase : g.root = .inode ∧ min level 1 + 2 = g.maxlevels
  · by_contra hgt
    exact hread ⟨hcase.1, hcase.2, by rw [hnode, harg]; omega⟩
  have hmax : getMaxrecs g (g.maxlevels - 1) (min level 1) = g.mxr (decide (level ≠ 0)) := by
    rw [getMaxrecs, hnode]
    cases hroot : g.root with
    | ag => rfl
    | inode =>
      have hne : ¬ min level 1 + 1 = g.maxlevels - 1 := fun h => hcase ⟨hroot, by omega⟩
      simp only [hne, if_false]
  omega

theorem misread_gt (hmis : BloadMisread g bbl level) (hlevel : level ≤ 1) :
    (g.mxr (decide (level ≠ 0)) : Int) < bbl'.slack level := by
  rw [hM.slack, min_eq_left hlevel]
  exact hmis.2.2

theorem capacity_of_read (hlevel : level + 1 < bbl'.btreeHeight)
    (hread : ¬ BloadMisread g bbl (min level 1)) (n : Nat) :
    n ≤ bloadBlocks g bbl' bbl'.btreeHeight level n * bloadMaxnr g bbl'.btreeHeight level := by
  have hne : level + 1 ≠ bbl'.btreeHeight := by omega
  rw [bloadBlocks, bloadMaxnr_of_ne hne]
  exact le_blocks_mul n (bloadDesiredNpb_pos _ _ _ _)
    (bloadDesiredNpb_le hne (hM.slack_nonneg level) (hM.slack_le hlevel hread))

theorem capacity_of_misread (hlevel : level + 1 < bbl'.btreeHeight) (hle : level ≤ 1)
    (hmis : BloadMisread g bbl level) (n : Nat) :
    n ≤ bloadBlocks g bbl' bbl'.btreeHeight level n * bloadMaxnr g bbl'.btreeHeight level ↔
      n ≤ 2 * g.mxr (decide (level ≠ 0)) := by
  have hne : level + 1 ≠ bbl'.btreeHeight := by omega
  rw [bloadBlocks, bloadMaxnr_of_ne hne]
  exact le_blocks_mul_iff (bloadDesiredNpb_huge hne (hM.misread_gt hmis hle) (hM.slack_lt level))

omit hM in
theorem fits_iroot (hroot : g.root = .inode) (level : Nat) :
    BloadRootFits g bbl' nr level ↔ (level ≠ 0 ∨ g.irootRecords) ∧
      bloadItems g bbl' nr level ≤ g.drootMaxrecs (decide (level ≠ 0)) := by
  rw [BloadRootFits, bloadBlocks_iroot hroot]
  simp [hroot]

theorem capacity_root : bloadItems g bbl' nr (bbl'.btreeHeight - 1) ≤
      bloadMaxnr g bbl'.btreeHeight (bbl'.btreeHeight - 1) := by
  have hpos := hM.height_pos
  have hsucc : bbl'.btreeHeight - 1 + 1 = bbl'.btreeHeight := by omega
  obtain ⟨-, hone⟩ := hM.fits
  cases hroot : g.root with
  | inode =>
    have hle := (bloadBlocks_iroot hroot).mp hone
    simpa [bloadMaxnr, getDmaxrecs, hroot, hsucc] using hle
  | ag =>
    have hslack := slack_ag bbl hroot (bbl'.btreeHeight - 1)
    rw [bloadSlacks_slack, ← hM.slack] at hslack
    have hblocks := bloadBlocks_ag (bloadItems g bbl' nr (bbl'.btreeHeight - 1)) hroot
      hslack.1 hslack.2
    rw [hblocks] at hone
    have hne : bbl'.btreeHeight - 1 + 1 ≠ bbl'.btreeHeight - 1 + 2 := by omega
    have hcap := le_blocks_mul (bloadItems g bbl' nr (bbl'.btreeHeight - 1))
      (bloadDesiredNpb_pos g bbl' (bbl'.btreeHeight - 1 + 2) (bbl'.btreeHeight - 1))
      (bloadDesiredNpb_le hne hslack.1 (by omega))
    have hmax : bloadMaxnr g bbl'.btreeHeight (bbl'.btreeHeight - 1) =
        g.mxr (decide (bbl'.btreeHeight - 1 ≠ 0)) := by
      simp [bloadMaxnr, getDmaxrecs, getMaxrecs, hroot]
    rw [bloadBlocks, bloadMaxnr_of_ne hne] at hone
    rw [hone, one_mul] at hcap
    rwa [hmax]

theorem leafBlocks_le_iff (hmis : BloadMisread g bbl 1) {k : Nat} (hk : 1 ≤ k) :
    bloadItems g bbl' nr 1 ≤ k ↔ nr ≤ k * g.mxr false ∧ (nr : Int) < (k + 1) *
        (g.mxr false - bloadEnsureSlack g (g.maxlevels - 1) 0 bbl.leafSlack) := by
  obtain ⟨hroot, hmax, -⟩ := hmis
  have h2 := g.two_le_mxr false
  have hlt := g.mxr_lt false
  have hslack : bbl'.slack 0 = bloadEnsureSlack g (g.maxlevels - 1) 0 bbl.leafSlack := hM.slack 0
  have hbounds := bloadEnsureSlack_bounds g (g.maxlevels - 1) 0 bbl.leafSlack
  have hget : getMaxrecs g (g.maxlevels - 1) 0 = g.mxr false := by
    have hne : ¬ 0 + 1 = g.maxlevels - 1 := by omega
    simp [getMaxrecs, hroot, hne]
  generalize bloadEnsureSlack g (g.maxlevels - 1) 0 bbl.leafSlack = slack at hslack hbounds
  have hne : 0 + 1 ≠ 0 + 2 := by decide
  have hdesired : bloadDesiredNpb g bbl' (0 + 2) 0 = ((g.mxr false : Int) - slack).toNat := by
    rw [bloadDesiredNpb_of_ne hne, hslack]
    simp only [ne_eq, not_true_eq_false, decide_false]
    omega
  have hcast : ((((g.mxr false : Int) - slack).toNat : Nat) : Int) = g.mxr false - slack :=
    Int.toNat_of_nonneg (by omega)
  have hiff := blocks_le_iff nr (show 0 < ((g.mxr false : Int) - slack).toNat by omega)
    (show _ ≤ g.mxr false by omega) hk
  have hmax' : bloadMaxnr g (0 + 2) 0 = g.mxr false := by
    rw [bloadMaxnr_of_ne hne]
    rfl
  rw [bloadItems_succ, bloadBlocks, hdesired, hmax']
  change EvenSplit.blocks nr _ _ ≤ k ↔ _
  rw [hiff, and_comm, ← hcast]
  norm_cast

theorem capacity_iff : (∀ level < bbl'.btreeHeight, bloadItems g bbl' nr level ≤
      bloadBlocks g bbl' bbl'.btreeHeight level (bloadItems g bbl' nr level) *
        bloadMaxnr g bbl'.btreeHeight level) ↔ BloadSafe g bbl nr := by
  have hpos := hM.height_pos
  have hle := hM.height_le
  have h2 := g.two_le_mxr true
  have hfits := hM.fits
  constructor
  · intro hcap
    refine ⟨fun hmis => ?_, fun hmis => ?_⟩
    · rcases lt_or_ge 1 bbl'.btreeHeight with hh | hh
      · exact .inl ((hM.capacity_of_misread hh (by omega) hmis _).mp (hcap 0 hpos))
      · rw [show bbl'.btreeHeight - 1 = 0 by omega, fits_iroot hmis.1] at hfits
        exact .inr ⟨hfits.1.resolve_left (by simp), hfits.2⟩
    · rw [← hM.leafBlocks_le_iff hmis (by omega)]
      obtain hh | hh | hh : bbl'.btreeHeight = 1 ∨ bbl'.btreeHeight = 2 ∨ 2 < bbl'.btreeHeight := by
        omega
      · rw [hh, fits_iroot hmis.1] at hfits
        exact .inr ⟨hfits.1.resolve_left (by simp), hfits.2⟩
      · rw [hh, fits_iroot hmis.1] at hfits
        exact .inl (hfits.2.trans (le_max_right _ _))
      · have h := (hM.capacity_of_misread hh le_rfl hmis _).mp (hcap 1 (by omega))
        exact .inl (h.trans (le_max_left _ _))
  · rintro ⟨hleaf, hnode⟩ level hlevel
    rcases Nat.eq_or_lt_of_le (Nat.succ_le_of_lt hlevel) with heq | hlt
    · have heq' : level = bbl'.btreeHeight - 1 := by omega
      subst heq'
      obtain ⟨-, hone⟩ := hM.fits
      rw [show bbl'.btreeHeight - 1 + 1 = bbl'.btreeHeight by omega] at hone
      rw [hone, one_mul]
      exact hM.capacity_root
    by_cases hmis : BloadMisread g bbl (min level 1)
    · have hmax := hmis.2.1
      have hle1 : level ≤ 1 := by omega
      rw [min_eq_left hle1] at hmis
      rw [hM.capacity_of_misread hlt hle1 hmis]
      have hnot := hM.not_fits level hlt
      rw [fits_iroot hmis.1] at hnot
      obtain rfl | rfl : level = 0 ∨ level = 1 := by omega
      · rcases hleaf hmis with h | ⟨h1, h2⟩
        · exact h
        · exact absurd ⟨.inr h1, h2⟩ hnot
      have hnot0 := hM.not_fits 0 (by omega)
      rw [fits_iroot hmis.1] at hnot0
      have hsafe := hnode hmis
      rw [← hM.leafBlocks_le_iff hmis (by omega)] at hsafe
      rcases hsafe with h | ⟨h1, h2⟩
      · rcases le_max_iff.mp h with h | h
        · exact h
        · exact absurd ⟨.inl (by decide), h⟩ hnot
      · exact absurd ⟨.inr h1, h2⟩ hnot0
    · exact hM.capacity_of_read hlt hmis _

end Measured

end Measured

section Exact

variable {R K : Type} {reserved : List Nat} {ctx : BloadCtx R K} {stream : List R}

theorem Measured.ready {bbl bbl' : Bload} {nr : Nat} (hM : Measured ctx.geom bbl bbl' nr)
    (hrecs : nr ≤ stream.length) (hblocks : bbl'.nrBlocks ≤ reserved.length)
    (hnodup : reserved.Nodup) (hget : GetsRecords ctx) :
    BloadReady ⟨ctx, bbl', stream, reserved⟩ ∧
      claimedBelow ⟨ctx, bbl', stream, reserved⟩ bbl'.btreeHeight = bbl'.nrBlocks ∧
      ∑ i ∈ Finset.range bbl'.btreeHeight, blocksAt ⟨ctx, bbl', stream, reserved⟩ i =
        bbl'.nrBlocks + if ctx.geom.root = .inode then 1 else 0 := by
  obtain rfl := hM.nrRecords
  have hpos := hM.height_pos
  have hnr := hM.nrBlocks
  have hsucc : bbl'.btreeHeight = bbl'.btreeHeight - 1 + 1 := by omega
  generalize hI : (⟨ctx, bbl', stream, reserved⟩ : BloadInput R K) = I
  have hbelow : ∀ level, level + 1 < bbl'.btreeHeight →
      I.blocksAt level = bloadItems ctx.geom bbl' bbl'.nrRecords (level + 1) := by
    intro level h
    rw [← hI, bloadItems_succ]
    exact bloadBlocks_of_ne (show level + 1 ≠ bbl'.btreeHeight by omega) (by omega) _
  have hroot : I.blocksAt (bbl'.btreeHeight - 1) = 1 := by
    have hone := hM.fits.2
    rw [← hsucc] at hone
    rw [← hI]
    exact hone
  have hat : ∀ level, I.atIroot level =
      decide (ctx.geom.root = .inode ∧ level + 1 = bbl'.btreeHeight) := fun level => by
    rw [← hI]
    rfl
  have hsum : ∑ i ∈ Finset.range (bbl'.btreeHeight - 1), I.blocksAt i =
      ∑ i ∈ Finset.range (bbl'.btreeHeight - 1), bloadItems ctx.geom bbl' bbl'.nrRecords (i + 1) :=
    Finset.sum_congr rfl fun i hi => hbelow i (by rw [Finset.mem_range] at hi; omega)
  have hclaimed : ∑ i ∈ Finset.range (bbl'.btreeHeight - 1), I.claimedAt i =
      ∑ i ∈ Finset.range (bbl'.btreeHeight - 1), I.blocksAt i :=
    Finset.sum_congr rfl fun i hi => by
      rw [Finset.mem_range] at hi
      have hfalse : I.atIroot i = false := by
        rw [hat, decide_eq_false_iff_not]
        omega
      rw [claimedAt, hfalse, if_neg Bool.false_ne_true]
  have hblocks' : I.claimedBelow bbl'.btreeHeight = bbl'.nrBlocks := by
    rw [claimedBelow, hsucc, Finset.sum_range_succ, hclaimed, hsum, hnr,
      claimedAt, hat, hroot]
    cases ctx.geom.root <;> simp [hsucc.symm]
  have htotal : ∑ i ∈ Finset.range bbl'.btreeHeight, I.blocksAt i =
      bbl'.nrBlocks + if ctx.geom.root = .inode then 1 else 0 := by
    rw [hsucc, Finset.sum_range_succ, hsum, hroot, hnr]
    cases ctx.geom.root <;> simp
  refine ⟨?_, hblocks', htotal⟩
  subst hI
  exact ⟨hpos, hroot, fun level h => (hbelow level h).symm, hrecs, hblocks'.le.trans hblocks, hnodup,
    hget⟩

variable [LinearOrder K] {I : BloadInput R K} {st : BloadState R K} {fake : FakeRoot}

theorem contentsAt_size (hI : BloadReady I) (hst : I.LoadedBelow I.height st) (h : level < I.height) :
    (I.contentsAt level).map BlockContent.nr = I.loadsAt level ∧
      ∀ c ∈ I.contentsAt level, c.nr = c.recs.length + c.ptrs.length ∧
        c.keys.length = c.ptrs.length ∧ (level = 0 → c.ptrs = []) ∧ (level ≠ 0 → c.recs = []) := by
  cases level with
  | zero =>
    have hsum : (I.loadsAt 0).sum = (I.stream.take I.bbl.nrRecords).length := by
      rw [sum_loadsAt, length_take, min_eq_left hI.records]
      rfl
    rw [contentsAt, map_map]
    refine ⟨map_splitLengths_length _ _ hsum.le, fun c hc => ?_⟩
    obtain ⟨recs, -, rfl⟩ := mem_map.mp hc
    simp [leafContent]
  | succ level =>
    obtain ⟨-, -, hlen⟩ := entriesAt_unzip hI hst h
    rw [contentsAt_succ, map_map]
    refine ⟨map_splitLengths_length _ _ (by rw [sum_loadsAt, hlen]), fun c hc => ?_⟩
    obtain ⟨es, -, rfl⟩ := mem_map.mp hc
    simp [nodeContent]

theorem locsAt_root (hI : BloadReady I) (hst : I.LoadedBelow I.height st)
    (hfake : I.ctx.geom.root = .ag → fake.root = st.ptr) :
    I.locsAt (I.height - 1) = [fake.loc I.ctx.geom] := by
  have hpos := hI.height_pos
  unfold locsAt FakeRoot.loc
  cases hroot : I.ctx.geom.root with
  | inode =>
    have hat : I.atIroot (I.height - 1) := by
      simp only [atIroot, btreeAtIroot, hroot, true_and, decide_eq_true_eq]
      omega
    simp [hat]
  | ag =>
    have hat : I.atIroot (I.height - 1) = false := by
      simp [atIroot, btreeAtIroot, hroot]
    have hlen : (I.ptrsAt (I.height - 1)).length = 1 := by
      rw [hI.length_ptrsAt (by omega), claimedAt, hat, if_neg Bool.false_ne_true, hI.root]
    obtain ⟨p, hp⟩ := length_eq_one_iff.mp hlen
    have hptr : fake.root = some p := by
      rw [hfake hroot, hst.ptr, hp]
      rfl
    simp [hat, hp, hptr]

omit [LinearOrder K] in
theorem loadsAt_pos (hI : BloadReady I) (hnr : 0 < I.bbl.nrRecords) (h : level < I.height) :
    ∀ n ∈ I.loadsAt level, 0 < n := by
  have hitems : 0 < I.items level := by
    cases level with
    | zero => exact hnr
    | succ level =>
      rw [hI.below level h]
      exact bloadBlocks_pos
  refine (le_loads_iff bloadBlocks_pos).mpr ?_
  rw [Nat.mul_one]
  change I.blocksAt level ≤ I.items level
  rcases Nat.eq_or_lt_of_le (Nat.succ_le_of_lt h) with heq | hlt
  · rw [show level = I.height - 1 by omega] at hitems ⊢
    rw [hI.root]
    exact hitems
  · have hne : level + 1 ≠ I.height := by omega
    have h2 := I.ctx.geom.two_le_mxr (decide (level ≠ 0))
    refine blocks_le_self ?_ hitems
    rw [bloadMaxnr_of_ne hne]
    omega

omit [LinearOrder K] in
theorem loadsAt_min (I : BloadInput R K) (hne : level + 1 ≠ I.height) (htwo : I.blocksAt level ≠ 1) :
    ∀ n ∈ I.loadsAt level, getMinrecs I.ctx.geom I.height level ≤ n := by
  have hpos : 0 < I.blocksAt level := bloadBlocks_pos
  refine (le_loads_iff bloadBlocks_pos).mpr ?_
  rw [getMinrecs_of_ne hne]
  have hmin : I.ctx.geom.mxr (decide (level ≠ 0)) / 2 ≤
      bloadDesiredNpb I.ctx.geom I.bbl I.height level := by
    rw [bloadDesiredNpb_of_ne hne]
    exact le_max_left _ _
  refine blocks_mul_le hmin ?_ (show 2 ≤ I.blocksAt level by omega)
  rw [bloadMaxnr_of_ne hne]
  omega

section

variable (hI : BloadReady I) (hst : I.LoadedBelow I.height st)
include hI hst

theorem entriesAt_keys (hnr : 0 < I.bbl.nrRecords)
    (hlt : ∀ level < I.height, ∀ n ∈ I.loadsAt level, n < 2 ^ 16) (h : level + 1 < I.height) :
    ∀ e ∈ I.entriesAt level, e.2 = recsKey I.ctx.keys (btreeRecs st.store level (.buf e.1)) := by
  have hblock : I.atIroot level = false := BloadReady.atIroot_of_lt h
  have hkeys := (contentKeys_eq hI hst (fun l hl => loadsAt_pos hI hnr hl) hlt
    (show level < I.height by omega)).2
  rw [locsAt, hblock, if_neg Bool.false_ne_true, map_map, map_map] at hkeys
  intro e he
  rw [entriesAt, hkeys, ← map_prod_left_eq_zip] at he
  obtain ⟨p, -, rfl⟩ := mem_map.mp he
  rfl

theorem loadedBlock
    (hcap : ∀ level < I.height, I.items level ≤ I.blocksAt level * bloadMaxnr I.ctx.geom I.height level)
    {j : Nat} {loc : BlockLoc} (h : level < I.height) (hloc : (I.locsAt level)[j]? = some loc) :
    ∃ b, st.store.get loc = some b ∧
      BloadedBlock I.ctx st.store I.height level (I.locsAt level) j b := by
  obtain ⟨hlen, hget⟩ := locsAt_get (hst.loaded level h)
  obtain ⟨hnr', hshape⟩ := contentsAt_size hI hst h
  have hj : j < (I.contentsAt level).length := by
    rw [hlen]
    exact (List.getElem?_eq_some_iff.mp hloc).1
  have hc := getElem?_eq_getElem hj
  generalize (I.contentsAt level)[j] = c at hc
  have hmem := mem_of_getElem? hc
  obtain ⟨hsize, hkeysLen, hleaf, hnode⟩ := hshape c hmem
  have hload : c.nr ∈ I.loadsAt level := by
    rw [← hnr']
    exact mem_map_of_mem hmem
  have hle : c.nr ≤ bloadMaxnr I.ctx.geom I.height level :=
    (loads_le_iff bloadBlocks_pos).mpr (hcap level h) _ hload
  have hlt := bloadMaxnr_lt I.ctx.geom I.height level
  refine ⟨_, hget j loc c hloc hc, rfl, rfl, rfl, ?_, hleaf, hnode, hkeysLen, ?_, ?_, ?_⟩
  · change c.nr % 2 ^ 16 = c.recs.length + c.ptrs.length
    rw [← hsize, Nat.mod_eq_of_lt (by omega)]
  · exact hsize.ge.trans hle
  · intro hne hone
    refine (loadsAt_min I hne ?_ _ hload).trans hsize.le
    have hcount := congrArg List.length hnr'
    rw [length_map, hlen, loadsAt, length_loads] at hcount
    omega
  · intro i ptr hptr hrecs
    change c.ptrs[i]? = some ptr at hptr
    change c.keys[i]? = some _
    cases level with
    | zero =>
      rw [hleaf rfl] at hptr
      simp at hptr
    | succ level =>
      obtain ⟨es, hes, rfl⟩ := mem_map.mp (contentsAt_succ (I := I) level ▸ hmem)
      simp only [nodeContent, getElem?_map, Option.map_eq_some_iff] at hptr ⊢
      obtain ⟨e, he, rfl⟩ := hptr
      obtain ⟨-, -, hlen'⟩ := entriesAt_unzip hI hst h
      have hentry : e ∈ I.entriesAt level :=
        (mem_splitLengths (by rw [sum_loadsAt, hlen']) hes).2 e (mem_of_getElem? he)
      -- only an empty tree has blocks without records below them
      have hnr : 0 < I.bbl.nrRecords := by
        by_contra hzero
        have hflat := btreeRecs_flatten hI hst (show level < I.height by omega)
        rw [show I.bbl.nrRecords = 0 by omega, take_zero] at hflat
        have hblock : I.atIroot level = false := BloadReady.atIroot_of_lt h
        have hloc' : BlockLoc.buf e.1 ∈ I.locsAt level := by
          rw [locsAt, hblock, if_neg Bool.false_ne_true]
          exact mem_map_of_mem (of_mem_zip hentry).1
        exact hrecs (flatten_eq_nil_iff.mp hflat _ (mem_map_of_mem hloc'))
      have hsmall : ∀ l < I.height, ∀ n ∈ I.loadsAt l, n < 2 ^ 16 := fun l hl n hn =>
        lt_of_le_of_lt ((loads_le_iff bloadBlocks_pos).mpr (hcap l hl) n hn) (bloadMaxnr_lt _ _ _)
      exact ⟨e, he, entriesAt_keys hI hst hnr hsmall h e hentry⟩

theorem bloadedLevel_eq (hfake : I.ctx.geom.root = .ag → fake.root = st.ptr) (h : level < I.height) :
    bloadedLevel I.ctx.geom I.bbl (bufDelwriSubmit st) fake level = I.locsAt level := by
  have hsum : level + (I.height - 1 - level) = I.height - 1 := by omega
  have hbelow : level + (I.height - 1 - level) < I.height := by omega
  have hdown := btreeDescend_locsAt hI hst hbelow
  rw [hsum, locsAt_root hI hst hfake] at hdown
  exact hdown

theorem loaded_tree (hfake : I.ctx.geom.root = .ag → fake.root = st.ptr)
    (hlevels : fake.levels = I.bbl.btreeHeight) (hnr : fake.blocks = I.bbl.nrBlocks)
    (hclaimed : I.claimedBelow I.height = I.bbl.nrBlocks)
    (hcap : ∀ level < I.height, I.items level ≤ I.blocksAt level * bloadMaxnr I.ctx.geom I.height level) :
    BloadedTree I.ctx I.bbl I.stream I.reserved (bufDelwriSubmit st) fake := by
  have hpos := hI.height_pos
  have hroot := locsAt_root hI hst hfake
  have hlevel : ∀ level < I.height,
      bloadedLevel I.ctx.geom I.bbl (bufDelwriSubmit st) fake level = I.locsAt level :=
    fun level h => bloadedLevel_eq hI hst hfake h
  have hqueued : st.written ++ st.buffers = I.reserved.take I.bbl.nrBlocks := by
    have h := hst.queued
    rwa [BloadState.queued, hst.bp, Option.toList_none, append_nil, hclaimed] at h
  refine ⟨hclaimed ▸ hst.reserved, ⟨hqueued, rfl⟩, hst.stream, hlevels, hnr, ?_, ?_, ?_, ?_⟩
  · have hflat := btreeRecs_flatten hI hst (show I.height - 1 < I.height by omega)
    rw [hroot, map_singleton, flatten_singleton] at hflat
    exact hflat
  · -- level by level, the blocks of the tree are those of the reservation
    have htake : ∀ n ≤ I.height, ((List.range n).flatMap I.locsAt) =
        (I.reserved.take (I.claimedBelow n)).map .buf ++
          if n = I.height ∧ I.ctx.geom.root = .inode then [.iroot] else [] := by
      intro n hn
      induction n with
      | zero =>
        have hne : ¬ 0 = I.height := by omega
        simp [claimedBelow, hne]
      | succ n ih =>
        have hne : ¬ n = I.height := by omega
        rw [range_succ, flatMap_append, ih (by omega), BloadReady.take_claimedBelow, map_append]
        simp only [hne, false_and, if_false, append_nil, flatMap_cons, flatMap_nil, append_assoc]
        congr 1
        rw [locsAt]
        by_cases hat : I.atIroot n = true
        · have hend := hat
          simp only [atIroot, btreeAtIroot, decide_eq_true_eq] at hend
          rw [if_pos hat, (hI.atIroot_height hat).2.1, if_pos ⟨hend.2, hend.1⟩]
          rfl
        · have hend := hat
          simp only [atIroot, btreeAtIroot, decide_eq_true_eq] at hend
          rw [if_neg hat, if_neg fun h => hend ⟨h.2, h.1⟩, append_nil]
    have hall := htake I.height le_rfl
    rw [hclaimed] at hall
    simp only [true_and] at hall
    rw [← hall]
    exact flatMap_congr fun level hmem => hlevel level (mem_range.mp hmem)
  · intro level h j loc hloc
    rw [hlevel level h] at hloc ⊢
    exact loadedBlock hI hst hcap h hloc
  · intro level h
    change level < I.height at h
    have hmap := map_locsAt (hst.loaded level h) (fun b => (b.map BtreeBlock.items).getD 0)
      (fun c => c.recs.length + c.ptrs.length) (fun _ _ _ => rfl)
    obtain ⟨hnr', hshape⟩ := contentsAt_size hI hst h
    have hsizes : (I.contentsAt level).map (fun c => c.recs.length + c.ptrs.length) =
        I.loadsAt level := by
      rw [← hnr']
      exact map_congr_left fun c hc => (hshape c hc).1.symm
    rw [hlevel level h]
    change ((I.locsAt level).map fun loc => ((st.store.get loc).map BtreeBlock.items).getD 0).sum = _
    rw [hmap, hsizes, sum_loadsAt]
    cases level with
    | zero => rfl
    | succ level =>
      rw [if_neg (Nat.succ_ne_zero level), Nat.add_sub_cancel, hlevel level (by omega),
        hI.below level h]
      have hlen := length_contentsAt hst (show level < I.height by omega)
      have hcount := congrArg List.length
        (contentsAt_size hI hst (show level < I.height by omega)).1
      rw [length_map, hlen, loadsAt, length_loads] at hcount
      exact hcount.symm

theorem capacity_of_tree (hfake : I.ctx.geom.root = .ag → fake.root = st.ptr)
    (htree : BloadedTree I.ctx I.bbl I.stream I.reserved (bufDelwriSubmit st) fake) :
    ∀ level < I.height,
      I.items level ≤ I.blocksAt level * bloadMaxnr I.ctx.geom I.height level := by
  intro level h
  have hlevel := bloadedLevel_eq hI hst hfake h
  obtain ⟨hlen, hget⟩ := locsAt_get (hst.loaded level h)
  obtain ⟨hnr, hshape⟩ := contentsAt_size hI hst h
  refine (loads_le_iff bloadBlocks_pos).mp fun n hn => ?_
  change n ∈ I.loadsAt level at hn
  rw [← hnr] at hn
  obtain ⟨c, hc, rfl⟩ := mem_map.mp hn
  obtain ⟨j, hj, rfl⟩ := mem_iff_getElem.mp hc
  have hloc := getElem?_eq_getElem (hlen ▸ hj : j < (I.locsAt level).length)
  obtain ⟨b, hb, hblock⟩ := htree.blocks level h j _ (by rw [hlevel]; exact hloc)
  have hb' := hget j _ _ hloc (getElem?_eq_getElem hj)
  obtain rfl := Option.some.inj (hb.symm.trans hb')
  exact (hshape _ hc).1.le.trans hblock.le_max

end

theorem bload_tree_iff {bbl bbl' : Bload} {nr : Nat} (store : BtreeStore R K)
    (hM : Measured ctx.geom bbl bbl' nr) (hrecs : nr ≤ stream.length)
    (hblocks : bbl'.nrBlocks ≤ reserved.length) (hnodup : reserved.Nodup) (hget : GetsRecords ctx) :
    (∃ st fake, bload ctx bbl' ⟨store, stream, reserved, none, none, none, none, [], [], 0⟩ =
        .ok (st, fake) ∧ BloadedTree ctx bbl' stream reserved st fake) ↔
      ∀ level < bbl'.btreeHeight, bloadItems ctx.geom bbl' nr level ≤
        bloadBlocks ctx.geom bbl' bbl'.btreeHeight level (bloadItems ctx.geom bbl' nr level) *
          bloadMaxnr ctx.geom bbl'.btreeHeight level := by
  obtain ⟨hI, hclaimed, htotal⟩ := hM.ready hrecs hblocks hnodup hget
  obtain rfl := hM.nrRecords
  obtain ⟨st, fake, hrun, hst, hptr, hlevels, hblocks'⟩ := hI.bload_spec store
  constructor
  · rintro ⟨st', fake', hok, htree⟩
    obtain ⟨rfl, rfl⟩ := Prod.mk.inj (Except.ok.inj (hrun.symm.trans hok))
    exact capacity_of_tree hI hst hptr htree
  · intro hcap
    refine ⟨_, _, hrun, loaded_tree hI hst hptr hlevels ?_ hclaimed hcap⟩
    rw [hblocks']
    exact (congrArg (· - _) htotal).trans (Nat.add_sub_cancel _ _)

/-- **Bulk loading is exact on safe inputs.** Whenever the geometry could be
established, the loader claims the blocks and consumes the records it announced
and builds a well-formed tree of the announced height over them, with no block
over its limits, if and only if no level was measured with a slack that belongs
to the incore root and overflows it. -/
theorem bload_exact_iff (ctx : BloadCtx R K) (bbl bbl' : Bload) (nrRecords : Nat)
    (store : BtreeStore R K) (stream : List R) (reserved : List Nat)
    (hgeo : bloadComputeGeometry ctx.geom bbl nrRecords = .ok bbl')
    (hrecs : nrRecords ≤ stream.length) (hblocks : bbl'.nrBlocks ≤ reserved.length)
    (hnodup : reserved.Nodup) (hget : GetsRecords ctx) :
    (∃ st fake, bload ctx bbl' ⟨store, stream, reserved, none, none, none, none, [], [], 0⟩ =
        .ok (st, fake) ∧ BloadedTree ctx bbl' stream reserved st fake) ↔
      BloadSafe ctx.geom bbl nrRecords := by
  have hM := bloadComputeGeometry_measured hgeo
  rw [bload_tree_iff store hM hrecs hblocks hnodup hget]
  exact hM.capacity_iff

end Exact

section Samples

def sampleBloadCtx (g : BtreeGeom) : BloadCtx Nat Nat where
  geom := g
  keys := ⟨id, id, false, 0⟩
  getRecords := fun _ wanted stream => .ok (stream.take wanted, stream.drop wanted)

theorem sampleBloadCtx_getsRecords (g : BtreeGeom) : GetsRecords (sampleBloadCtx g) :=
  fun _ wanted _ hpos _ => ⟨wanted, hpos, le_rfl, rfl⟩

def sampleBtreeGeom : BtreeGeom :=
  ⟨.ag, false, 5, fun _ => 4, fun _ => 0, fun _ => 0, by decide, by decide, by decide, by decide⟩

theorem bload_exact_sample :
    ∃ bbl' st fake, bloadComputeGeometry sampleBtreeGeom ⟨0, -1, -1, 0, 0, 0⟩ 9 = .ok bbl' ∧
      bload (sampleBloadCtx sampleBtreeGeom) bbl' ⟨⟨fun _ => none, none⟩, List.range 12,
        [20, 21, 22, 23, 24, 25], none, none, none, none, [], [], 0⟩ = .ok (st, fake) ∧
      BloadedTree (sampleBloadCtx sampleBtreeGeom) bbl' (List.range 12) [20, 21, 22, 23, 24, 25]
        st fake := by
  obtain ⟨st, fake, h⟩ := (bload_exact_iff (sampleBloadCtx sampleBtreeGeom) ⟨0, -1, -1, 0, 0, 0⟩ _ 9
    ⟨fun _ => none, none⟩ (List.range 12) [20, 21, 22, 23, 24, 25] rfl (by decide) (by decide)
    (by decide) (sampleBloadCtx_getsRecords _)).mpr
    ⟨fun h => absurd h.1 (by decide), fun h => absurd h.1 (by decide)⟩
  exact ⟨_, st, fake, rfl, h⟩

/-- `xfs_bmbt_maxrecs` with checksums: 16 bytes for each entry, behind a header of 72. -/
def bmbtMaxrecs (blocklen : Nat) : Nat := sub32 blocklen 72 / 16

def bmdrMaxrecs (blocklen : Nat) : Nat := (blocklen - 4) / 16

/-- The loop of `xfs_bmap_compute_maxlevels`, which ends when one block is left. -/
def bmapComputeMaxlevels (maxrootrecs minnoderecs : Nat) : Nat → Nat → Nat → Nat
  | 0, level, _ => level
  | fuel + 1, level, maxblocks =>
    if maxblocks > 1 then
      bmapComputeMaxlevels maxrootrecs minnoderecs fuel (level + 1)
        (if maxblocks ≤ maxrootrecs then 1 else (maxblocks + minnoderecs - 1) / minnoderecs)
    else level

def bmbt64k : BtreeGeom where
  root := .inode
  irootRecords := false
  maxlevels := bmapComputeMaxlevels (bmdrMaxrecs (4 + 3 * 16)) (bmbtMaxrecs 65536 / 2) 64 1
    ((2 ^ 31 - 1 + (bmbtMaxrecs 65536 / 2) - 1) / (bmbtMaxrecs 65536 / 2))
  mxr := fun _ => bmbtMaxrecs 65536
  drootMaxrecs := fun _ => bmdrMaxrecs 336
  irootMaxrecs := fun _ => bmbtMaxrecs 0
  two_le_mxr := by decide
  mxr_lt := by decide
  drootMaxrecs_lt := by decide
  irootMaxrecs_lt := by decide

/-- Thirty million mappings with the default slack: the node level of the block
map is given two blocks of 4889 entries, where a block has room for 4091. -/
theorem bmbt64k_overfull :
    ∃ bbl', bloadComputeGeometry bmbt64k ⟨0, -1, -1, 0, 0, 0⟩ 30000000 = .ok bbl' ∧
      bbl'.nrBlocks = 9780 ∧ bbl'.btreeHeight = 3 ∧
      ¬ ∃ st fake, bload (sampleBloadCtx bmbt64k) bbl' ⟨⟨fun _ => none, none⟩,
          List.range 30000000, List.range 9780, none, none, none, none, [], [], 0⟩ =
            .ok (st, fake) ∧
        BloadedTree (sampleBloadCtx bmbt64k) bbl' (List.range 30000000) (List.range 9780) st fake := by
  have hgeo : bloadComputeGeometry (sampleBloadCtx bmbt64k).geom ⟨0, -1, -1, 0, 0, 0⟩ 30000000 =
      .ok ⟨30000000, 1023, 67108863, 9780, 3, 0⟩ := rfl
  have hM := bloadComputeGeometry_measured hgeo
  refine ⟨_, hgeo, rfl, rfl, ?_⟩
  rw [bload_tree_iff _ hM length_range.ge length_range.ge nodup_range
    (sampleBloadCtx_getsRecords bmbt64k)]
  intro h
  exact absurd (h 1 (by decide)) (by decide)

end Samples

end Xfs
