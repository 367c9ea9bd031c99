import Mathlib.Algebra.Order.BigOperators.Group.Finset
import Xfs.Btree.BloadLoad

/-! The levels a bulk load builds, from the geometry alone, and the run of the
loader over all of them. -/
namespace Xfs

open Finset Nat List

section Levels

variable {R K : Type}

/-- The callbacks, the geometry, the records supplied and the blocks reserved. -/
structure BloadInput (R K : Type) where
  ctx : BloadCtx R K
  bbl : Bload
  stream : List R
  reserved : List Nat

namespace BloadInput

variable (I : BloadInput R K)

def height : Nat := I.bbl.btreeHeight

def items (level : Nat) : Nat := bloadItems I.ctx.geom I.bbl I.bbl.nrRecords level

def blocksAt (level : Nat) : Nat :=
  bloadBlocks I.ctx.geom I.bbl I.height level (I.items level)

def atIroot (level : Nat) : Bool := btreeAtIroot I.ctx.geom I.height level

def claimedAt (level : Nat) : Nat := if I.atIroot level then 0 else I.blocksAt level

def claimedBelow (level : Nat) : Nat := ∑ i ∈ Finset.range level, I.claimedAt i

def loadsAt (level : Nat) : List Nat := EvenSplit.loads (I.items level) (I.blocksAt level)

def ptrsAt (level : Nat) : List Nat :=
  (I.reserved.drop (I.claimedBelow level)).take (I.claimedAt level)

def contentKeys [LinearOrder K] (level : Nat) (c : BlockContent R K) : BtreeKey K :=
  btreeGetKeys I.ctx.keys (c.block level none none)

/-- Records in the leaves, and in the nodes the keys and pointers of the blocks below. -/
def contentsAt [LinearOrder K] : Nat → List (BlockContent R K)
  | 0 => ((I.loadsAt 0).splitLengths (I.stream.take I.bbl.nrRecords)).map leafContent
  | level + 1 =>
    ((I.loadsAt (level + 1)).splitLengths
      ((I.ptrsAt level).zip ((contentsAt level).map (I.contentKeys level)))).map nodeContent

def entriesAt [LinearOrder K] (level : Nat) : List (Nat × BtreeKey K) :=
  (I.ptrsAt level).zip ((I.contentsAt level).map (I.contentKeys level))

def LevelLoaded [LinearOrder K] (store : BtreeStore R K) (level : Nat) : Prop :=
  if I.atIroot level then
    ∃ c, I.contentsAt level = [c] ∧ store.iroot = some (c.block level none none)
  else LevelOn store level (I.ptrsAt level) (I.contentsAt level)

structure LoadedBelow [LinearOrder K] (level : Nat) (st : BloadState R K) : Prop where
  loaded : ∀ i < level, I.LevelLoaded st.store i
  reserved : st.reserved = I.reserved.drop (I.claimedBelow level)
  childPtr : st.childPtr = (I.ptrsAt (level - 1)).head?
  ptr : st.ptr = (I.ptrsAt (level - 1)).getLast?
  bp : st.bp = none
  stream : st.stream = I.stream.drop I.bbl.nrRecords
  queued : st.queued = I.reserved.take (I.claimedBelow level)

end BloadInput

/-- The height has a root level with one block, and records and blocks are there. -/
structure BloadReady (I : BloadInput R K) : Prop where
  height_pos : 0 < I.height
  root : I.blocksAt (I.height - 1) = 1
  below : ∀ level, level + 1 < I.height → I.items (level + 1) = I.blocksAt level
  records : I.bbl.nrRecords ≤ I.stream.length
  blocks : I.claimedBelow I.height ≤ I.reserved.length
  nodup : I.reserved.Nodup
  getsRecords : GetsRecords I.ctx

namespace BloadReady

variable {I : BloadInput R K} {level : Nat}

theorem atIroot_of_lt (h : level + 1 < I.height) : I.atIroot level = false := by
  simp only [BloadInput.atIroot, btreeAtIroot, decide_eq_false_iff_not, not_and]
  intro _
  omega

theorem claimedBelow_mono {i j : Nat} (h : i ≤ j) : I.claimedBelow i ≤ I.claimedBelow j :=
  sum_le_sum_of_subset (range_mono h)

theorem claimedBelow_succ (level : Nat) :
    I.claimedBelow (level + 1) = I.claimedBelow level + I.claimedAt level :=
  Finset.sum_range_succ _ _

theorem ptrsAt_subset {i j : Nat} (h : i < j) :
    I.ptrsAt i ⊆ I.reserved.take (I.claimedBelow j) := by
  intro q hq
  have hle := claimedBelow_mono (I := I) (h)
  rw [claimedBelow_succ] at hle
  rw [BloadInput.ptrsAt, take_drop] at hq
  exact (take_subset_take_left _ hle) (mem_of_mem_drop hq)

variable (hI : BloadReady I)
include hI

theorem length_ptrsAt (h : level < I.height) : (I.ptrsAt level).length = I.claimedAt level := by
  have hle := claimedBelow_mono (I := I) (h)
  have hblocks := hI.blocks
  rw [claimedBelow_succ] at hle
  rw [BloadInput.ptrsAt, length_take, length_drop]
  omega

theorem ptrsAt_disjoint {i j q : Nat} (h : i < j) (hq : q ∈ I.ptrsAt i) : q ∉ I.ptrsAt j := by
  intro hq'
  have hdrop : q ∈ I.reserved.drop (I.claimedBelow j) := mem_of_mem_take hq'
  exact disjoint_take_drop hI.nodup le_rfl (ptrsAt_subset h hq) hdrop

theorem ptrsAt_nodup (level : Nat) : (I.ptrsAt level).Nodup :=
  (hI.nodup.sublist (drop_sublist _ _)).sublist (take_sublist _ _)

omit hI in
theorem drop_claimedBelow (level : Nat) : I.reserved.drop (I.claimedBelow level) =
      I.ptrsAt level ++ I.reserved.drop (I.claimedBelow (level + 1)) := by
  rw [claimedBelow_succ, ← drop_drop, BloadInput.ptrsAt, take_append_drop]

omit hI in
theorem take_claimedBelow (level : Nat) : I.reserved.take (I.claimedBelow (level + 1)) =
      I.reserved.take (I.claimedBelow level) ++ I.ptrsAt level := by
  rw [claimedBelow_succ, take_add, BloadInput.ptrsAt]

theorem atIroot_height (hroot : I.atIroot level) :
    I.loadsAt level = [I.items level] ∧ I.ptrsAt level = [] ∧
      I.claimedBelow (level + 1) = I.claimedBelow level := by
  have heq : level = I.height - 1 := by
    simp only [BloadInput.atIroot, btreeAtIroot, decide_eq_true_eq] at hroot
    omega
  have hblocks : I.blocksAt level = 1 := heq ▸ hI.root
  have hzero : I.claimedAt level = 0 := by rw [BloadInput.claimedAt, if_pos hroot]
  refine ⟨?_, ?_, ?_⟩
  · rw [BloadInput.loadsAt, hblocks]
    simp [EvenSplit.loads, range_succ, mod_one]
  · rw [BloadInput.ptrsAt, hzero, take_zero]
  · rw [claimedBelow_succ, hzero, add_zero]

variable [LinearOrder K] {st : BloadState R K}

omit hI in
theorem LevelLoaded_congr {store store' : BtreeStore R K} (h : I.LevelLoaded store level)
    (hlevel : I.atIroot level = false) (heq : ∀ p ∈ I.ptrsAt level, store'.bufs p = store.bufs p) :
    I.LevelLoaded store' level := by
  unfold BloadInput.LevelLoaded at h ⊢
  simp only [hlevel, Bool.false_eq_true, if_false] at h ⊢
  exact h.congr heq

theorem bloadLevel_loaded {α : Type}
    {fill : Nat → BlockLoc → BloadState R K → Except Errno (BloadState R K)} {lower : List Nat}
    {avail : List α → BloadState R K → Prop} {put : List α → BlockContent R K} {items : List α}
    (st : BloadState R K) (hfill : FillSpec fill lower avail put) (hlevel : level < I.height)
    (hlower : ∀ q ∈ lower, q ∉ I.ptrsAt level)
    (hres : st.reserved = I.reserved.drop (I.claimedBelow level)) (hptr : st.ptr = none)
    (hblock : st.block = none) (hbp : st.bp = none) (havail : avail items st)
    (hitems : items.length = I.items level)
    (hcontents : I.contentsAt level = ((I.loadsAt level).splitLengths items).map put) :
    ∃ st', bloadLevel I.ctx I.bbl level fill (I.loadsAt level) 0 none st =
        .ok (st', (I.ptrsAt level).head?) ∧ avail [] st' ∧ I.LevelLoaded st'.store level ∧
      (∀ i < level, I.LevelLoaded st.store i → I.LevelLoaded st'.store i) ∧
      st'.reserved = I.reserved.drop (I.claimedBelow (level + 1)) ∧
      st'.ptr = (I.ptrsAt level).getLast? ∧ st'.queued = st.queued ++ I.ptrsAt level := by
  by_cases hroot : I.atIroot level = true
  · obtain ⟨hloads, hptrs, hbelow⟩ := hI.atIroot_height hroot
    obtain ⟨st', hrun, havail', hiroot, hbufs, hres', hptr', hqueued⟩ :=
      bloadLevel_iroot hfill hroot havail hbp
    rw [hitems] at hrun
    refine ⟨st', ?_, havail', ?_, fun i hi h => ?_, ?_, ?_, ?_⟩
    · rw [hloads, hrun, hptrs, head?_nil]
    · unfold BloadInput.LevelLoaded
      rw [if_pos hroot]
      refine ⟨put items, ?_, hiroot⟩
      rw [hcontents, hloads, ← hitems]
      simp
    · exact LevelLoaded_congr h (atIroot_of_lt (by omega)) fun p _ => by rw [hbufs]
    · rw [hres', hres, hbelow]
    · rw [hptr', hptrs, getLast?_nil]
    · rw [hqueued, hptrs, append_nil]
  · rw [Bool.not_eq_true] at hroot
    have hcount : I.claimedAt level = I.blocksAt level := by
      rw [BloadInput.claimedAt, hroot, if_neg Bool.false_ne_true]
    have hlen : (I.ptrsAt level).length = (I.loadsAt level).length := by
      rw [hI.length_ptrsAt hlevel, hcount, BloadInput.loadsAt, EvenSplit.length_loads]
    have hsum : (I.loadsAt level).sum = items.length := by
      rw [hitems]
      exact EvenSplit.sum_loads bloadBlocks_pos
    have hne : I.loadsAt level ≠ [] := by
      have hpos : 0 < I.blocksAt level := bloadBlocks_pos
      intro h
      rw [h, length_nil, hI.length_ptrsAt hlevel, hcount] at hlen
      omega
    obtain ⟨st', first, hrun, -, hfirst, havail', hlevel', hres', hptr', hqueued, hframe⟩ :=
      bloadLevel_spec hfill hroot 0 none (LevelOn.nil st.store level)
        (hI.ptrsAt_nodup level) hlower hlen (hres.trans (drop_claimedBelow level))
        hptr hblock havail hsum
    rw [hfirst rfl hne] at hrun
    refine ⟨st', hrun, havail', ?_, fun i hi h => ?_, hres', hptr', hqueued⟩
    · unfold BloadInput.LevelLoaded
      rw [hroot, if_neg Bool.false_ne_true, hcontents]
      exact hlevel'
    · exact LevelLoaded_congr h (atIroot_of_lt (by omega)) fun p hp =>
        hframe p (hI.ptrsAt_disjoint hi hp)

omit hI [LinearOrder K] in
theorem loads_levelGeometry (level : Nat) :
    (bloadLevelGeometry I.ctx.geom I.bbl I.bbl.btreeHeight level (I.items level)).loads =
      I.loadsAt level := by
  have hlt := EvenSplit.div_blocks_lt (I.items level)
    (le_sub_one_of_lt (bloadDesiredNpb_lt I.ctx.geom I.bbl I.height level))
    (lt_trans (bloadMaxnr_lt I.ctx.geom I.height level) (by decide))
    (bloadDesiredNpb_pos I.ctx.geom I.bbl I.height level)
  change I.items level / I.blocksAt level < _ at hlt
  rw [bloadLevelGeometry_eq]
  change (List.range (I.blocksAt level)).map (fun i =>
    (I.items level / I.blocksAt level + if i < I.items level % I.blocksAt level then 1 else 0) %
      2 ^ 32) = (List.range (I.blocksAt level)).map _
  congr 1
  funext i
  exact mod_eq_of_lt (by split_ifs <;> omega)

omit hI [LinearOrder K] in
theorem blocks_levelGeometry (level : Nat) :
    (bloadLevelGeometry I.ctx.geom I.bbl I.bbl.btreeHeight level (I.items level)).blocks =
      I.blocksAt level := by
  rw [bloadLevelGeometry_eq]
  rfl

omit hI in
theorem loadedBelow_dropBuf {st' : BloadState R K}
    (hloaded : ∀ i < level + 1, I.LevelLoaded st'.store i)
    (hres : st'.reserved = I.reserved.drop (I.claimedBelow (level + 1)))
    (hptr : st'.ptr = (I.ptrsAt level).getLast?)
    (hstream : st'.stream = I.stream.drop I.bbl.nrRecords)
    (hqueued : st'.queued = st.queued ++ I.ptrsAt level)
    (hbelow : st.queued = I.reserved.take (I.claimedBelow level)) :
    I.LoadedBelow (level + 1)
      { bloadDropBuf I.bbl st' with childPtr := (I.ptrsAt level).head? } := by
  obtain ⟨h1, h2, h3, -, h5, h6, h7⟩ := bloadDropBuf_eq I.bbl st'
  refine ⟨fun i hi => ?_, h3.trans hres, rfl, h5.trans hptr, h6, h2.trans hstream, ?_⟩
  · rw [h1]
    exact hloaded i hi
  · change (bloadDropBuf I.bbl st').queued = _
    rw [h7, hqueued, hbelow, ← take_claimedBelow]

theorem bloadNode_loaded (hlevel : level + 1 < I.height) (hst : I.LoadedBelow (level + 1) st) :
    ∃ st', bloadLevel I.ctx I.bbl (level + 1) (bloadNode I.ctx) (I.loadsAt (level + 1)) 0 none
        { st with block := none, ptr := none } = .ok (st', (I.ptrsAt (level + 1)).head?) ∧
      I.LoadedBelow (level + 2)
        { bloadDropBuf I.bbl st' with childPtr := (I.ptrsAt (level + 1)).head? } := by
  have hblock : I.atIroot level = false := atIroot_of_lt hlevel
  have hon : LevelOn st.store level (I.ptrsAt level) (I.contentsAt level) := by
    have h := hst.loaded level (lt_succ_self level)
    unfold BloadInput.LevelLoaded at h
    rwa [hblock, if_neg Bool.false_ne_true] at h
  have hlen' : (I.entriesAt level).length = I.items (level + 1) := by
    rw [BloadInput.entriesAt, length_zip, length_map, hon.length_eq, min_self,
      hI.length_ptrsAt (by omega), hI.below level hlevel, BloadInput.claimedAt, hblock,
      if_neg Bool.false_ne_true]
  have hhead : st.childPtr = (I.entriesAt level).head?.map Prod.fst := by
    rw [hst.childPtr, BloadInput.entriesAt, Nat.add_sub_cancel]
    have hlen := hon.length_eq
    cases hp : I.ptrsAt level with
    | nil => simp
    | cons p ps =>
      cases hc : I.contentsAt level with
      | nil => simp [hp, hc] at hlen
      | cons c cs => simp
  obtain ⟨st', hrun, ⟨-, -, -, hstream⟩, hloaded, hframe, hres, hptr, hqueued⟩ :=
    hI.bloadLevel_loaded { st with block := none, ptr := none }
      (bloadNode_fill I.ctx (I.ptrsAt level) (I.stream.drop I.bbl.nrRecords)) hlevel
      (fun q hq => hI.ptrsAt_disjoint (lt_succ_self level) hq) hst.reserved rfl rfl hst.bp
      ⟨hon.childChain, hhead, fun e he => (of_mem_zip he).1, hst.stream⟩ hlen' rfl
  refine ⟨st', hrun, loadedBelow_dropBuf (fun i hi => ?_) hres hptr hstream hqueued hst.queued⟩
  rcases Nat.lt_succ_iff_lt_or_eq.mp hi with h | rfl
  · exact hframe i h (hst.loaded i h)
  · exact hloaded

theorem bloadNodeLevels_spec (n level total : Nat) (hn : n + (level + 1) = I.height)
    (hst : I.LoadedBelow (level + 1) st) :
    ∃ st', bloadNodeLevels I.ctx I.bbl n (level + 1) (I.blocksAt level) total st =
        .ok (st', total + ∑ i ∈ Finset.Ico (level + 1) I.height, I.blocksAt i) ∧
      I.LoadedBelow I.height st' := by
  induction n generalizing level total st with
  | zero =>
    have heq : level + 1 = I.height := by omega
    rw [heq] at hst
    refine ⟨st, ?_, hst⟩
    rw [heq, Ico_self, sum_empty]
    rfl
  | succ n ih =>
    have hlevel : level + 1 < I.height := by omega
    obtain ⟨st1, hrun, hst1⟩ := hI.bloadNode_loaded hlevel hst
    obtain ⟨st', hrest, hst'⟩ := ih (level + 1) (total + I.blocksAt (level + 1)) (by omega) hst1
    refine ⟨st', ?_, hst'⟩
    rw [bloadNodeLevels, ← hI.below level hlevel]
    simp only [loads_levelGeometry, blocks_levelGeometry, hrun, ok_bind]
    rw [hrest, sum_eq_sum_Ico_succ_bot hlevel, add_assoc]

theorem bload_spec (store : BtreeStore R K) : ∃ st fake, bload I.ctx I.bbl
        ⟨store, I.stream, I.reserved, none, none, none, none, [], [], 0⟩ =
          .ok (bufDelwriSubmit st, fake) ∧
      I.LoadedBelow I.height st ∧ (I.ctx.geom.root = .ag → fake.root = st.ptr) ∧
      fake.levels = I.height ∧ fake.blocks = ∑ i ∈ Finset.range I.height, I.blocksAt i -
        if I.ctx.geom.root = .inode then 1 else 0 := by
  have hpos := hI.height_pos
  have htake : (I.stream.take I.bbl.nrRecords).length = I.items 0 := by
    rw [length_take, min_eq_left hI.records]
    rfl
  obtain ⟨st1, hrun, hstream, hloaded, -, hres, hptr, hqueued⟩ :=
    hI.bloadLevel_loaded ⟨store, I.stream, I.reserved, none, none, none, none, [], [], 0⟩
      (bloadLeaf_fill hI.getsRecords (I.stream.drop I.bbl.nrRecords)) hpos
      (fun q hq => by simp at hq) rfl rfl rfl rfl (take_append_drop _ _).symm htake rfl
  have hst1 := loadedBelow_dropBuf
    (fun i hi => by rwa [lt_one_iff.mp hi]) hres hptr hstream hqueued rfl
  obtain ⟨st, hnodes, hst⟩ := hI.bloadNodeLevels_spec (I.height - 1) 0 (I.blocksAt 0)
    (by omega) hst1
  have hsum : I.blocksAt 0 + ∑ i ∈ Finset.Ico (0 + 1) I.height, I.blocksAt i =
      ∑ i ∈ Finset.range I.height, I.blocksAt i := by
    rw [range_eq_Ico, sum_eq_sum_Ico_succ_bot hpos]
  rw [hsum] at hnodes
  unfold bload
  have hgeo : I.bbl.nrRecords = I.items 0 := rfl
  simp only [hgeo, loads_levelGeometry, blocks_levelGeometry, hrun, ok_bind]
  change bloadNodeLevels I.ctx I.bbl (I.bbl.btreeHeight - 1) 1 (I.blocksAt 0) (I.blocksAt 0) _ =
    _ at hnodes
  rw [hnodes]
  cases hroot : I.ctx.geom.root with
  | inode => exact ⟨st, _, rfl, hst, fun h => by simp at h, rfl, rfl⟩
  | ag => exact ⟨st, _, rfl, hst, fun _ => rfl, rfl, rfl⟩

end BloadReady

end Levels

end Xfs
