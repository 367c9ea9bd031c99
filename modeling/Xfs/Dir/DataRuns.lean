import Xfs.Dir.DataUsing
import Xfs.Dir.DataCheck
import Mathlib.Order.Interval.Set.Basic

/-! Runs of using and freeing ranges of a data block, with a rescan after every
step that asks for one. -/
namespace Xfs

open List

variable {mp : DirMount} {mem : ByteMem} {o dup offset len : Nat}
  {xs ys pre ents post : List DataItem} {blk blk' blk'' : DataBlock} {r : DataFree}
  {needscan : Bool}

def readRegions (mp : DirMount) (mem : ByteMem) (stop : Nat) : Nat → Nat → List DataFree
  | 0, _ => []
  | fuel + 1, o =>
    if o < stop then
      if get16 mem o = dir2DataFreeTag then
        freeAt mem o :: readRegions mp mem stop fuel (o + unusedLength mem o)
      else readRegions mp mem stop fuel (o + dir2DataEntsize mp (dataNamelen mem o))
    else []

def DataBlock.regions (mp : DirMount) (blk : DataBlock) : List DataFree :=
  let stop := dir3DataEndOffset mp blk
  readRegions mp blk.mem stop stop (dataEntryOffset mp)

/-- The bytes behind the header that are in no unused region. -/
def DataBlock.used (mp : DirMount) (blk : DataBlock) : Set Nat :=
  {a | dataEntryOffset mp ≤ a ∧ a < mp.blksize ∧
    ¬ ∃ r ∈ blk.regions mp, r.offset ≤ a ∧ a < r.offset + r.length}

/-- Items tile the data area, no two unused regions are adjacent, and the table is good. -/
def DataWellFormed (mp : DirMount) (blk : DataBlock) : Prop := ∃ items, DataHolds mp blk items

section

variable (hgeo : DataGeoOk mp)
include hgeo

theorem TilesAt.readRegions (h : TilesAt mp mem o xs) {stop fuel : Nat}
    (hstop : o + itemsSize xs = stop) (hfuel : xs.length ≤ fuel) :
    readRegions mp mem stop fuel o = regionsAt o xs := by
  induction xs generalizing o fuel with
  | nil =>
    simp only [itemsSize] at hstop
    cases fuel with
    | zero => rfl
    | succ fuel => exact if_neg (by omega)
  | cons x xs ih =>
    obtain ⟨hx, hxs⟩ := h
    have hge := hx.size_ge
    simp only [itemsSize, length_cons] at hstop hfuel
    obtain ⟨fuel, rfl⟩ : ∃ k, fuel = k + 1 := ⟨fuel - 1, by omega⟩
    rw [Xfs.readRegions, if_pos (by omega)]
    cases x with
    | entry n =>
      have hsize : dir2DataEntsize mp (dataNamelen mem o) = n := (EntryAt.size hx).symm
      rw [if_neg (by rw [hx.freetag_iff hgeo]; exact Bool.false_ne_true), hsize]
      exact ih hxs (by simp only [DataItem.size] at hstop ⊢; omega) (by omega)
    | unused n =>
      have hlen : unusedLength mem o = n := UnusedAt.length hx
      rw [if_pos (UnusedAt.freetag hx), freeAt, hlen, regionsAt]
      exact congrArg _ (ih hxs (by simp only [DataItem.size] at hstop ⊢; omega) (by omega))

theorem DataTiled.regions (h : DataTiled mp blk xs) :
    blk.regions mp = regionsAt (dataEntryOffset mp) xs := by
  have hlen := h.tiles.length_le
  have hstop := h.stop
  exact h.tiles.readRegions hgeo h.stop (by omega)

theorem DataTiled.mem_used (h : DataTiled mp blk xs) (a : Nat) :
    a ∈ blk.used mp ↔ dataEntryOffset mp ≤ a ∧ a < mp.blksize ∧
      ¬ FreeIn (dataEntryOffset mp) xs a := by
  rw [DataBlock.used, h.regions hgeo]
  rfl

theorem TilesAt.unique (hxs : TilesAt mp mem o xs) (hys : TilesAt mp mem o ys)
    (hsize : itemsSize xs = itemsSize ys) : xs = ys := by
  induction xs generalizing o ys with
  | nil =>
    cases ys with
    | nil => rfl
    | cons y ys =>
      have := hys.1.size_ge
      simp only [itemsSize] at hsize
      omega
  | cons x xs ih =>
    cases ys with
    | nil =>
      have := hxs.1.size_ge
      simp only [itemsSize] at hsize
      omega
    | cons y ys =>
      have hkind : x.isUnused = y.isUnused := by
        rw [Bool.eq_iff_iff, ← hxs.1.freetag_iff hgeo, ← hys.1.freetag_iff hgeo]
      have hxy : x = y := by
        cases x <;> cases y
        · rw [EntryAt.size hxs.1, EntryAt.size hys.1]
        · cases hkind
        · cases hkind
        · rw [← UnusedAt.length hxs.1, ← UnusedAt.length hys.1]
      subst hxy
      simp only [itemsSize] at hsize
      rw [ih hxs.2 hys.2 (by omega)]

end

theorem mem_regionsAt_split (hr : r ∈ regionsAt o xs) :
    ∃ pre post, xs = pre ++ .unused r.length :: post ∧ o + itemsSize pre = r.offset := by
  induction xs generalizing o with
  | nil => simp [regionsAt] at hr
  | cons x xs ih =>
    cases x with
    | entry n =>
      obtain ⟨pre, post, rfl, hpre⟩ := ih hr
      exact ⟨.entry n :: pre, post, rfl, by simp only [itemsSize, DataItem.size]; omega⟩
    | unused n =>
      rcases mem_cons.mp hr with rfl | hr
      · exact ⟨[], xs, rfl, rfl⟩
      · obtain ⟨pre, post, rfl, hpre⟩ := ih hr
        exact ⟨.unused n :: pre, post, rfl, by simp only [itemsSize, DataItem.size]; omega⟩

/-- A range in an unused region, in units of the alignment as all requests are. -/
def RangeInUnused (mp : DirMount) (blk : DataBlock) (dup offset len : Nat) : Prop :=
  ∃ r ∈ blk.regions mp, r.offset = dup ∧ dup ≤ offset ∧ offset + len ≤ dup + r.length ∧ 0 < len ∧
    8 ∣ offset ∧ 8 ∣ len

/-- A range that is a run of whole entries. -/
def WholeEntries (mp : DirMount) (blk : DataBlock) (offset len : Nat) : Prop :=
  ∃ pre ents post, TilesAt mp blk.mem (dataEntryOffset mp) (pre ++ (ents ++ post)) ∧
    dataEntryOffset mp + itemsSize (pre ++ (ents ++ post)) = dir3DataEndOffset mp blk ∧
    (∀ x ∈ ents, x.isUnused = false) ∧ ents ≠ [] ∧
    dataEntryOffset mp + itemsSize pre = offset ∧ itemsSize ents = len

/-- The caller writes entries there, or the range goes to the leaf entries behind it. -/
inductive FilledIn (mp : DirMount) (offset len : Nat) (blk : DataBlock) : DataBlock → Prop
  | entries {mem : ByteMem} {ents : List DataItem} :
      (∀ a, a < offset ∨ offset + len ≤ a → mem a = blk.mem a) →
      TilesAt mp mem offset ents → (∀ x ∈ ents, x.isUnused = false) → itemsSize ents = len →
      FilledIn mp offset len blk { blk with mem := mem }
  | leaf {mem : ByteMem} :
      (∀ a, a < offset → mem a = blk.mem a) → offset + len = dir3DataEndOffset mp blk →
      dir3DataEndOffset mp { blk with mem := mem } = offset →
      FilledIn mp offset len blk { blk with mem := mem }

def rescan (mp : DirMount) (needscan : Bool) (blk : DataBlock) : DataBlock :=
  if needscan then dir2DataFreescan mp blk else blk

inductive DataStep (mp : DirMount) (blk : DataBlock) : DataBlock → Prop
  | useFree {dup offset len : Nat} {needscan : Bool} {blk' blk'' : DataBlock} :
      RangeInUnused mp blk dup offset len →
      dir2DataUseFree blk dup offset len = .ok (blk', needscan) →
      FilledIn mp offset len blk' blk'' → DataStep mp blk (rescan mp needscan blk'')
  | makeFree {offset len : Nat} {needscan : Bool} {blk' : DataBlock} :
      WholeEntries mp blk offset len →
      dir2DataMakeFree mp blk offset len = (blk', needscan) →
      DataStep mp blk (rescan mp needscan blk')

inductive DataSteps (mp : DirMount) (blk : DataBlock) : DataBlock → Prop
  | nil : DataSteps mp blk blk
  | concat {blk' blk'' : DataBlock} :
      DataSteps mp blk blk' → DataStep mp blk' blk'' → DataSteps mp blk blk''

theorem DataTiled.rescan (hgeo : DataGeoOk mp) (h : DataTiled mp blk xs)
    (htable : needscan = false → TableOk (· ∈ regionsAt (dataEntryOffset mp) xs) blk.bf) :
    DataHolds mp (rescan mp needscan blk) xs := by
  cases needscan with
  | true => exact h.freescan hgeo
  | false => exact ⟨h, htable rfl⟩

theorem regionsAt_entries (h : ∀ x ∈ ents, x.isUnused = false) (o : Nat) :
    regionsAt o ents = [] := by
  induction ents generalizing o with
  | nil => rfl
  | cons x xs ih =>
    obtain ⟨hx, hxs⟩ := forall_mem_cons.mp h
    cases x with
    | entry n => exact ih hxs _
    | unused n => cases hx

theorem freeIn_entries (h : ∀ x ∈ ents, x.isUnused = false) (o a : Nat) : ¬ FreeIn o ents a := by
  rintro ⟨r, hr, -⟩
  rw [regionsAt_entries h] at hr
  simp at hr

theorem apart_entries (hpre : UnusedApart pre) (hpost : UnusedApart post) (hne : ents ≠ [])
    (h : ∀ x ∈ ents, x.isUnused = false) : UnusedApart (pre ++ (ents ++ post)) := by
  have hents : UnusedApart ents := by
    refine isChain_iff_forall_rel_of_append_cons_cons.mpr fun x y l₁ l₂ heq hxy => ?_
    rw [h x (by simp [heq])] at hxy
    exact Bool.false_ne_true hxy.1
  refine isChain_append.mpr ⟨hpre, isChain_append.mpr ⟨hents, hpost, ?_⟩, ?_⟩
  · intro x hx y _ hxy
    rw [h x (mem_of_getLast? hx)] at hxy
    exact Bool.false_ne_true hxy.1
  · intro x _ y hy hxy
    have hmem : y ∈ ents := by
      cases ents with
      | nil => exact absurd rfl hne
      | cons z zs =>
        obtain rfl : z = y := Option.some.inj hy
        exact mem_cons_self
    rw [h y hmem] at hxy
    exact Bool.false_ne_true hxy.2

section

variable (hgeo : DataGeoOk mp)
include hgeo

theorem WholeEntries.range (h : DataHolds mp blk xs) (hents : WholeEntries mp blk offset len) :
    ∃ pre post, FreeRange mp blk pre post offset len ∧ ∀ a, FreeIn (dataEntryOffset mp) xs a ↔
        FreeIn (dataEntryOffset mp) pre a ∨ FreeIn (offset + len) post a := by
  obtain ⟨pre, ents, post, htiles, hstop, hused, hne, hstart, hlen⟩ := hents
  obtain rfl : xs = pre ++ (ents ++ post) := h.tiles.unique hgeo htiles (by
    have := h.stop
    omega)
  obtain ⟨hpre, hrest⟩ := tilesAt_append.mp htiles
  rw [hstart] at hrest
  obtain ⟨htents, hpost⟩ := tilesAt_append.mp hrest
  rw [hlen] at hpost
  obtain ⟨hapre, harest, -⟩ := isChain_append.mp h.apart
  have hpos : 0 < len := by
    obtain ⟨x, xs, rfl⟩ := exists_cons_of_ne_nil hne
    have := htents.1.size_ge
    simp only [itemsSize] at hlen
    omega
  refine ⟨pre, post, ⟨⟨h.magic, hpre, hstart, hpost, ?_, hapre, ?_, hlen ▸ htents.size_dvd, hpos⟩,
    ?_⟩, fun a => ?_⟩
  · rw [← hstop]
    simp only [itemsSize_append]
    omega
  · exact (isChain_append.mp harest).2.1
  · refine h.table.congr fun d => ?_
    rw [regionsAt_append, regionsAt_append, regionsAt_entries hused, hstart, hlen,
      nil_append, mem_append]
  · rw [freeIn_append, freeIn_append, hstart, hlen]
    simp [freeIn_entries hused]

theorem makeFree_step (h : DataHolds mp blk xs) (hents : WholeEntries mp blk offset len)
    (hmake : dir2DataMakeFree mp blk offset len = (blk', needscan)) :
    (∃ items, DataHolds mp (rescan mp needscan blk') items) ∧
      (rescan mp needscan blk').used mp = blk.used mp \ Set.Ico offset (offset + len) := by
  obtain ⟨pre, post, hrange, hfree⟩ := hents.range hgeo h
  obtain ⟨items, htiled, htable, hfree'⟩ := hrange.make_free hgeo
  rw [hmake] at htiled htable
  have hdone := htiled.rescan hgeo htable
  refine ⟨⟨items, hdone⟩, ?_⟩
  ext a
  rw [hdone.toDataTiled.mem_used hgeo, Set.mem_sdiff, h.toDataTiled.mem_used hgeo, hfree', hfree,
    Set.mem_Ico]
  constructor
  · rintro ⟨hlo, hhi, hnot⟩
    exact ⟨⟨hlo, hhi, fun hf => hnot (hf.imp_right .inl)⟩, fun hr => hnot (.inr (.inr hr))⟩
  · rintro ⟨⟨hlo, hhi, hnot⟩, hr⟩
    refine ⟨hlo, hhi, ?_⟩
    rintro (hf | hf | hf)
    · exact hnot (.inl hf)
    · exact hnot (.inr hf)
    · exact hr hf

theorem RangeInUnused.inUnused (h : DataHolds mp blk xs)
    (hrange : RangeInUnused mp blk dup offset len) :
    ∃ pre post n, xs = pre ++ .unused n :: post ∧ InUnused mp blk pre post n dup offset len := by
  obtain ⟨r, hr, hdup, hlo, hhi, hpos, hoff, hlen⟩ := hrange
  rw [h.toDataTiled.regions hgeo] at hr
  obtain ⟨pre, post, rfl, hstart⟩ := mem_regionsAt_split hr
  exact ⟨pre, post, r.length, rfl, h, hstart.trans hdup, hlo, hhi, hpos, hoff, hlen⟩

theorem FilledIn.tiled (h : DataRange mp blk' pre post offset len)
    (hfill : FilledIn mp offset len blk' blk'') :
    ∃ items, DataTiled mp blk'' items ∧ blk''.bf = blk'.bf ∧
      ∀ d, d ∈ regionsAt (dataEntryOffset mp) items ↔
        d ∈ regionsAt (dataEntryOffset mp) pre ∨ d ∈ regionsAt (offset + len) post := by
  have hstart := h.start
  have hstop := h.stop
  have hpos := h.len_pos
  cases hfill with
  | @entries mem ents hsame htents hused hlen =>
    have hne : ents ≠ [] := by
      rintro rfl
      simp only [itemsSize] at hlen
      omega
    have hend : dir3DataEndOffset mp { blk' with mem := mem } = dir3DataEndOffset mp blk' :=
      dir3DataEndOffset_congr hgeo rfl fun a ha => hsame a (by omega)
    refine ⟨pre ++ (ents ++ post), ⟨h.magic, tilesAt_append.mpr ⟨?_, tilesAt_append.mpr ⟨?_, ?_⟩⟩,
      ?_, apart_entries h.apartBefore h.apartBehind hne hused⟩, rfl, fun d => ?_⟩
    · exact h.before.congr fun a _ ha => hsame a (by omega)
    · rwa [hstart]
    · rw [hstart, hlen]
      exact h.behind.congr fun a ha _ => hsame a (.inr ha)
    · simp only [itemsSize_append]
      omega
    · rw [regionsAt_append, regionsAt_append, regionsAt_entries hused, hstart, hlen,
        nil_append, mem_append]
  | @leaf mem hsame hlast hend =>
    have hnil : post = [] := by
      have := h.behind.length_le
      exact length_eq_zero_iff.mp (by omega)
    subst hnil
    refine ⟨pre, ⟨h.magic, h.before.congr fun a _ ha => hsame a (by omega), ?_, h.apartBefore⟩,
      rfl, fun d => by simp [regionsAt]⟩
    rw [hend, hstart]

theorem useFree_step (h : DataHolds mp blk xs) (hrange : RangeInUnused mp blk dup offset len) :
    ∃ blk' needscan, dir2DataUseFree blk dup offset len = .ok (blk', needscan) ∧
      ∀ blk'', FilledIn mp offset len blk' blk'' →
        (∃ items, DataHolds mp (rescan mp needscan blk'') items) ∧
        (rescan mp needscan blk'').used mp = blk.used mp ∪ Set.Ico offset (offset + len) := by
  obtain ⟨pre, post, n, rfl, hin⟩ := hrange.inUnused hgeo h
  obtain ⟨⟨blk', needscan⟩, hok, front, back, hfront, hback, hsum, hr, htable⟩ := hin.use_free hgeo
  refine ⟨blk', needscan, hok, fun blk'' hfill => ?_⟩
  obtain ⟨items, htiled, hbf, hregions⟩ := hfill.tiled hgeo hr
  have hdone := htiled.rescan hgeo fun hscan => by
    rw [hbf]
    exact (htable hscan).congr fun d => (hregions d).symm
  refine ⟨⟨items, hdone⟩, ?_⟩
  have hfree : ∀ a, FreeIn (dataEntryOffset mp) items a ↔
      FreeIn (dataEntryOffset mp) (pre ++ front) a ∨ FreeIn (offset + len) (back ++ post) a := by
    intro a
    simp [FreeIn, hregions, or_and_right, exists_or]
  have hdup := hin.start
  have hstart := hr.start
  rw [itemsSize_append] at hstart
  have hend := dir3DataEndOffset_le mp blk
  have hstop := hin.stop
  ext a
  rw [hdone.toDataTiled.mem_used hgeo, Set.mem_union, h.toDataTiled.mem_used hgeo, hfree,
    freeIn_append, freeIn_append, hfront.freeIn_iff, hback.freeIn_iff, freeIn_unused hdup,
    Set.mem_Ico, hdup, show offset + len + itemsSize back = dup + n by omega]
  by_cases hpre : FreeIn (dataEntryOffset mp) pre a
  · have hbelow : a < dup := by
      obtain ⟨r, hmem, -, hlt⟩ := hpre
      have := (regionsAt_bounds hmem).2
      omega
    simp only [hpre, true_or, or_true, not_true_eq_false, and_false, false_or, false_iff]
    omega
  by_cases hpost : FreeIn (dup + n) post a
  · have habove : dup + n ≤ a := by
      obtain ⟨r, hmem, hle, -⟩ := hpost
      have := (regionsAt_bounds hmem).1
      omega
    simp only [hpost, or_true, not_true_eq_false, and_false, false_or, false_iff]
    omega
  · simp only [hpre, hpost, or_false, false_or]
    omega

theorem DataStep.wellFormed (h : DataWellFormed mp blk) (hstep : DataStep mp blk blk') :
    DataWellFormed mp blk' := by
  obtain ⟨items, hitems⟩ := h
  cases hstep with
  | useFree hrange hok hfill =>
    obtain ⟨blk₁, needscan₁, hok₁, hdone⟩ := useFree_step hgeo hitems hrange
    obtain ⟨rfl, rfl⟩ := Prod.mk.inj (Except.ok.inj (hok₁.symm.trans hok))
    exact (hdone _ hfill).1
  | makeFree hents hmake => exact (makeFree_step hgeo hitems hents hmake).1

theorem DataSteps.wellFormed (h : DataWellFormed mp blk) (hsteps : DataSteps mp blk blk') :
    DataWellFormed mp blk' := by
  induction hsteps with
  | nil => exact h
  | concat _ hstep ih => exact hstep.wellFormed hgeo ih

theorem dir3DataInit_wellFormed (mem : ByteMem) : DataWellFormed mp (dir3DataInit mp mem) := by
  have hge := hgeo.blksize_ge
  have hle := hgeo.blksize_le
  have hdvd := hgeo.aligned
  have hstart := dataEntryOffset_dvd mp
  have hbound : 16 ≤ dataEntryOffset mp ∧ dataEntryOffset mp ≤ 64 := by
    unfold dataEntryOffset
    split <;> omega
  have hstop : dir3DataEndOffset mp (dir3DataInit mp mem) = mp.blksize := by
    cases hcrc : mp.hasCrc <;> simp [dir3DataInit, dir3DataEndOffset, hcrc]
  have hnew : UnusedAt (putUnused mem (dataEntryOffset mp) (mp.blksize - dataEntryOffset mp))
      (dataEntryOffset mp) (mp.blksize - dataEntryOffset mp) :=
    unusedAt_putUnused (by omega) (by omega) (by omega) (by omega)
  refine ⟨[.unused (mp.blksize - dataEntryOffset mp)],
    ⟨?_, ⟨hnew, trivial⟩, ?_, isChain_singleton _⟩, ?_⟩
  · cases hcrc : mp.hasCrc <;> simp [dir3DataInit, hcrc]
  · simp only [itemsSize, DataItem.size]
    omega
  · have hbf : (dir2DataFreeinsert .zero ⟨dataEntryOffset mp,
        mp.blksize - dataEntryOffset mp⟩).1 = (dir3DataInit mp mem).bf := by
      have hlt : BestFree.zero.b0.length < mp.blksize - dataEntryOffset mp := by
        simp only [BestFree.zero, DataFree.zero]
        omega
      rw [dir2DataFreeinsert, if_pos hlt]
      rfl
    rw [← hbf]
    exact (TableOk.zero.insert id).congr fun d => by simp [regionsAt]

end

structure DataSound (mp : DirMount) (blk : DataBlock) : Prop where
  wellFormed : DataWellFormed mp blk
  longest : ∀ r ∈ blk.regions mp, r.length ≤ blk.bf.b0.length
  attained : blk.bf.b0.length = 0 ∨ ∃ r ∈ blk.regions mp, r.length = blk.bf.b0.length
  check : dir3DataCheck mp blk .good = true
  /-- Using a range succeeds, and makes exactly its bytes used. -/
  useFree : ∀ dup offset len, RangeInUnused mp blk dup offset len →
    ∃ blk' needscan, dir2DataUseFree blk dup offset len = .ok (blk', needscan) ∧
      ∀ blk'', FilledIn mp offset len blk' blk'' →
        (rescan mp needscan blk'').used mp = blk.used mp ∪ Set.Ico offset (offset + len)
  /-- Freeing entries makes exactly their bytes unused. -/
  makeFree : ∀ offset len blk' needscan, WholeEntries mp blk offset len →
    dir2DataMakeFree mp blk offset len = (blk', needscan) →
      (rescan mp needscan blk').used mp = blk.used mp \ Set.Ico offset (offset + len)

theorem dataFree_runs_sound (hgeo : DataGeoOk mp) {blk₀ : DataBlock}
    (hwf : DataWellFormed mp blk₀) (hsteps : DataSteps mp blk₀ blk) : DataSound mp blk := by
  obtain ⟨items, h⟩ := hsteps.wellFormed hgeo hwf
  obtain ⟨h01, h12⟩ := h.table.sorted
  have hregions := h.toDataTiled.regions hgeo
  refine ⟨⟨items, h⟩, fun r hr => ?_, ?_, h.check hgeo, fun dup offset len hrange => ?_,
    fun offset len blk' needscan hents hmake => (makeFree_step hgeo h hents hmake).2⟩
  · rw [hregions] at hr
    rcases h.table.rest r hr with (rfl | rfl | rfl) | hle <;> omega
  · rw [hregions]
    rcases h.table.real _ (.inl rfl) with hz | hr
    · exact .inl (by rw [hz]; rfl)
    · exact .inr ⟨_, hr, rfl⟩
  · obtain ⟨blk', needscan, hok, hdone⟩ := useFree_step hgeo h hrange
    exact ⟨blk', needscan, hok, fun blk'' hfill => (hdone blk'' hfill).2⟩

/-! A new block that gets four entries, of which the first and the third are freed, and then the one
between them. -/

def sampleDataMount : DirMount := ⟨false, false, 512, 156, fun ino => decide (0 < ino ∧ ino < 2 ^ 40)⟩

theorem sampleDataMount_ok : DataGeoOk sampleDataMount := by
  refine ⟨by decide, by decide, by decide, fun ino hino => ?_⟩
  have hlt := (of_decide_eq_true hino).2
  unfold maxInumber
  omega

def sampleDataBlock : DataBlock := dir3DataInit sampleDataMount fun _ => 0

def sampleDataEntries (mem : ByteMem) : ByteMem := fun a =>
  if a < 16 ∨ 80 ≤ a then mem a
  else [0, 0, 0, 0, 0, 0, 0, 131, 1, 97, 0, 0, 0, 0, 0, UInt8.ofNat (a / 16 * 16)].getD (a % 16) 0

def sampleFilled : DataBlock where
  magic := .data2
  bf := ⟨⟨80, 432⟩, .zero, .zero⟩
  mem := sampleDataEntries (putUnused sampleDataBlock.mem 80 432)

theorem sampleFilled_step : DataStep sampleDataMount sampleDataBlock sampleFilled := by
  have hrange : RangeInUnused sampleDataMount sampleDataBlock 16 16 64 :=
    ⟨⟨16, 496⟩, by decide, rfl, by decide, by decide, by decide, by decide, by decide⟩
  have hcheck : dir2DataCheckFree sampleDataBlock 16 16 64 = true := by decide
  have hlen : unusedLength sampleDataBlock.mem 16 = 496 := by decide
  have hfind : dir2DataFreefind sampleDataBlock.bf sampleDataBlock.mem 16 = some 0 := by decide
  have hrest : unusedLength (putUnused sampleDataBlock.mem 80 432) 80 = 432 := by decide
  have hok : dir2DataUseFree sampleDataBlock 16 16 64 =
      .ok ({ sampleFilled with mem := putUnused sampleDataBlock.mem 80 432 }, false) := by
    rw [dir2DataUseFree, hcheck, hlen, hfind]
    rfl
  exact .useFree hrange hok (@FilledIn.entries _ _ _ _ _ [.entry 16, .entry 16, .entry 16, .entry 16]
    (fun a ha => if_pos ha) (by decide) (by decide) rfl)

/-- The block without the entries in the range, and whether there was a scan. -/
def sampleMakeFree (blk : DataBlock) (offset : Nat) : DataBlock :=
  rescan sampleDataMount (dir2DataMakeFree sampleDataMount blk offset 16).2
    (dir2DataMakeFree sampleDataMount blk offset 16).1

theorem sampleMakeFree_step (pre post : List DataItem)
    (htiles : TilesAt sampleDataMount blk.mem 16 (pre ++ ([.entry 16] ++ post)))
    (hstop : 16 + itemsSize (pre ++ ([.entry 16] ++ post)) = dir3DataEndOffset sampleDataMount blk) :
    DataStep sampleDataMount blk (sampleMakeFree blk (16 + itemsSize pre)) :=
  .makeFree ⟨pre, [.entry 16], post, htiles, hstop, by decide, by decide, rfl, rfl⟩ rfl

/-- The last step joins three regions and needs a scan. -/
theorem dataFree_runs_sound_sample : DataSteps sampleDataMount sampleDataBlock
      (sampleMakeFree (sampleMakeFree (sampleMakeFree sampleFilled 16) 48) 32) ∧
    (dir2DataMakeFree sampleDataMount (sampleMakeFree (sampleMakeFree sampleFilled 16) 48) 32 16).2 =
      true ∧
    (sampleMakeFree (sampleMakeFree (sampleMakeFree sampleFilled 16) 48) 32).regions sampleDataMount =
      [⟨16, 48⟩, ⟨80, 432⟩] ∧
    DataSound sampleDataMount
      (sampleMakeFree (sampleMakeFree (sampleMakeFree sampleFilled 16) 48) 32) := by
  have hsteps : DataSteps sampleDataMount sampleDataBlock
      (sampleMakeFree (sampleMakeFree (sampleMakeFree sampleFilled 16) 48) 32) :=
    (((DataSteps.nil.concat sampleFilled_step).concat
      (sampleMakeFree_step [] [.entry 16, .entry 16, .entry 16, .unused 432] (by decide) rfl)).concat
      (sampleMakeFree_step [.unused 16, .entry 16] [.entry 16, .unused 432] (by decide) rfl)).concat
      (sampleMakeFree_step [.unused 16] [.unused 16, .entry 16, .unused 432] (by decide) rfl)
  exact ⟨hsteps, by decide, by decide, dataFree_runs_sound sampleDataMount_ok
    (dir3DataInit_wellFormed sampleDataMount_ok fun _ => 0) hsteps⟩

end Xfs
