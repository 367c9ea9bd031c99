import Xfs.Dir.BestFree
import Mathlib.Data.List.Chain

/-! Data blocks as sequences of entries and unused regions, and what scanning
and checking make of them. -/
namespace Xfs

open List

/-- An entry or an unused region, with its size. -/
inductive DataItem where
  | entry (size : Nat)
  | unused (size : Nat)
deriving Repr, DecidableEq

def DataItem.size : DataItem → Nat
  | .entry n | .unused n => n

def DataItem.isUnused : DataItem → Bool
  | .entry _ => false
  | .unused _ => true

structure EntryAt (mp : DirMount) (mem : ByteMem) (o n : Nat) : Prop where
  namelen : dataNamelen mem o ≠ 0
  size : n = dir2DataEntsize mp (dataNamelen mem o)
  ino : mp.verifyDirIno (get64 mem o) = true
  tag : get16 mem (o + n - 2) = o

structure UnusedAt (mem : ByteMem) (o n : Nat) : Prop where
  freetag : get16 mem o = dir2DataFreeTag
  length : unusedLength mem o = n
  tag : get16 mem (o + n - 2) = o
  aligned : 8 ∣ n
  pos : 0 < n

def ItemAt (mp : DirMount) (mem : ByteMem) (o : Nat) : DataItem → Prop
  | .entry n => EntryAt mp mem o n
  | .unused n => UnusedAt mem o n

def TilesAt (mp : DirMount) (mem : ByteMem) : Nat → List DataItem → Prop
  | _, [] => True
  | o, x :: xs => ItemAt mp mem o x ∧ TilesAt mp mem (o + x.size) xs

instance (mp : DirMount) (mem : ByteMem) (o : Nat) : (x : DataItem) → Decidable (ItemAt mp mem o x)
  | .entry n => decidable_of_iff (dataNamelen mem o ≠ 0 ∧ n = dir2DataEntsize mp (dataNamelen mem o) ∧
      mp.verifyDirIno (get64 mem o) = true ∧ get16 mem (o + n - 2) = o)
      ⟨fun ⟨h1, h2, h3, h4⟩ => ⟨h1, h2, h3, h4⟩, fun ⟨h1, h2, h3, h4⟩ => ⟨h1, h2, h3, h4⟩⟩
  | .unused n => decidable_of_iff (get16 mem o = dir2DataFreeTag ∧ unusedLength mem o = n ∧
      get16 mem (o + n - 2) = o ∧ 8 ∣ n ∧ 0 < n)
      ⟨fun ⟨h1, h2, h3, h4, h5⟩ => ⟨h1, h2, h3, h4, h5⟩,
        fun ⟨h1, h2, h3, h4, h5⟩ => ⟨h1, h2, h3, h4, h5⟩⟩

instance TilesAt.decidable (mp : DirMount) (mem : ByteMem) :
    (o : Nat) → (xs : List DataItem) → Decidable (TilesAt mp mem o xs)
  | _, [] => inferInstanceAs (Decidable True)
  | o, x :: xs =>
    have := TilesAt.decidable mp mem (o + x.size) xs
    inferInstanceAs (Decidable (_ ∧ _))

def itemsSize : List DataItem → Nat
  | [] => 0
  | x :: xs => x.size + itemsSize xs

def regionsAt : Nat → List DataItem → List DataFree
  | _, [] => []
  | o, .entry n :: xs => regionsAt (o + n) xs
  | o, .unused n :: xs => ⟨o, n⟩ :: regionsAt (o + n) xs

/-- The directory geometries: blocks of 512 bytes to 64 KiB, and inode numbers
of 56 bits. -/
structure DataGeoOk (mp : DirMount) : Prop where
  blksize_ge : 512 ≤ mp.blksize
  blksize_le : mp.blksize ≤ 65536
  aligned : 8 ∣ mp.blksize
  ino_le : ∀ ino, mp.verifyDirIno ino = true → ino ≤ maxInumber

def UnusedApart (items : List DataItem) : Prop :=
  items.IsChain fun x y => ¬ (x.isUnused = true ∧ y.isUnused = true)

/-- The items tile the data area, and no two unused regions are neighbours. -/
structure DataTiled (mp : DirMount) (blk : DataBlock) (items : List DataItem) : Prop where
  magic : blk.magic ≠ .other
  tiles : TilesAt mp blk.mem (dataEntryOffset mp) items
  stop : dataEntryOffset mp + itemsSize items = dir3DataEndOffset mp blk
  apart : UnusedApart items

/-- The items of a block with a good bestfree table. -/
structure DataHolds (mp : DirMount) (blk : DataBlock) (items : List DataItem) : Prop
    extends DataTiled mp blk items where
  table : TableOk (· ∈ regionsAt (dataEntryOffset mp) items) blk.bf

variable {mp : DirMount} {mem mem' : ByteMem} {o n : Nat} {x : DataItem}
  {xs ys : List DataItem} {blk : DataBlock} {r : DataFree} {P : DataFree → Prop}

@[simp] theorem itemsSize_append : itemsSize (xs ++ ys) = itemsSize xs + itemsSize ys := by
  induction xs with
  | nil => simp [itemsSize]
  | cons x xs ih => simp [itemsSize, ih, add_assoc]

theorem tilesAt_append : TilesAt mp mem o (xs ++ ys) ↔
    TilesAt mp mem o xs ∧ TilesAt mp mem (o + itemsSize xs) ys := by
  induction xs generalizing o with
  | nil => simp [TilesAt, itemsSize]
  | cons x xs ih => simp [TilesAt, itemsSize, ih, add_assoc, and_assoc]

theorem regionsAt_append :
    regionsAt o (xs ++ ys) = regionsAt o xs ++ regionsAt (o + itemsSize xs) ys := by
  induction xs generalizing o with
  | nil => simp [regionsAt, itemsSize]
  | cons x xs ih =>
    cases x <;> simp [regionsAt, itemsSize, ih, DataItem.size, add_assoc]

theorem dir2DataEntsize_ge (mp : DirMount) (n : Nat) : 16 ≤ dir2DataEntsize mp n := by
  unfold dir2DataEntsize
  omega

theorem dir2DataEntsize_dvd (mp : DirMount) (n : Nat) : 8 ∣ dir2DataEntsize mp n :=
  dvd_mul_left _ _

theorem ItemAt.size_ge (h : ItemAt mp mem o x) : 8 ≤ x.size := by
  cases x with
  | entry n =>
    have hge := dir2DataEntsize_ge mp (dataNamelen mem o)
    rw [← h.size] at hge
    exact le_trans (by decide) hge
  | unused n =>
    have hpos := h.pos
    have hdvd := h.aligned
    show 8 ≤ n
    omega

theorem ItemAt.size_dvd (h : ItemAt mp mem o x) : 8 ∣ x.size := by
  cases x with
  | entry n =>
    rw [DataItem.size, h.size]
    exact dir2DataEntsize_dvd mp _
  | unused n => exact h.aligned

theorem ItemAt.tag (h : ItemAt mp mem o x) : get16 mem (o + x.size - 2) = o := by
  cases x with
  | entry n => exact EntryAt.tag h
  | unused n => exact UnusedAt.tag h

theorem ItemAt.freetag_iff (hgeo : DataGeoOk mp) (h : ItemAt mp mem o x) :
    get16 mem o = dir2DataFreeTag ↔ x.isUnused := by
  cases x with
  | entry n =>
    have hle := hgeo.ino_le _ h.ino
    have hlt : get16 mem o < 256 := get16_lt_of_get64 (by unfold maxInumber at hle; omega)
    simp only [DataItem.isUnused, Bool.false_eq_true, iff_false]
    unfold dir2DataFreeTag
    omega
  | unused n => simp [DataItem.isUnused, UnusedAt.freetag h]

theorem ItemAt.congr (h : ItemAt mp mem o x)
    (hsame : ∀ a, o ≤ a → a < o + x.size → mem' a = mem a) : ItemAt mp mem' o x := by
  have hge := h.size_ge
  have hword : ∀ a, o ≤ a → a + 2 ≤ o + x.size → get16 mem' a = get16 mem a :=
    fun a hlo hhi => get16_congr fun b hb hb' => hsame b (by omega) (by omega)
  cases x with
  | entry n =>
    have hn : 16 ≤ n := by
      rw [h.size]
      exact dir2DataEntsize_ge _ _
    have hname : dataNamelen mem' o = dataNamelen mem o := by
      unfold dataNamelen
      rw [hsame (o + 8) (by omega) (by simp only [DataItem.size]; omega)]
    have hino : get64 mem' o = get64 mem o :=
      get64_congr fun a ha ha' => hsame a ha (by simp only [DataItem.size]; omega)
    simp only [DataItem.size] at hword
    refine ⟨?_, ?_, ?_, (hword _ (by omega) (by omega)).trans (EntryAt.tag h)⟩
    · rw [hname]
      exact h.namelen
    · rw [hname]
      exact h.size
    · rw [hino]
      exact h.ino
  | unused n =>
    simp only [DataItem.size] at hword hge
    exact ⟨(hword _ (by omega) (by omega)).trans (UnusedAt.freetag h),
      (hword _ (by omega) (by omega)).trans (UnusedAt.length h),
      (hword _ (by omega) (by omega)).trans (UnusedAt.tag h), h.aligned, h.pos⟩

theorem TilesAt.congr (h : TilesAt mp mem o xs)
    (hsame : ∀ a, o ≤ a → a < o + itemsSize xs → mem' a = mem a) : TilesAt mp mem' o xs := by
  induction xs generalizing o with
  | nil => trivial
  | cons x xs ih =>
    simp only [itemsSize] at hsame
    exact ⟨h.1.congr fun a ha ha' => hsame a ha (by omega),
      ih h.2 fun a ha ha' => hsame a (by omega) (by omega)⟩

theorem TilesAt.size_dvd (h : TilesAt mp mem o xs) : 8 ∣ itemsSize xs := by
  induction xs generalizing o with
  | nil => exact Nat.dvd_zero 8
  | cons x xs ih => exact Nat.dvd_add h.1.size_dvd (ih h.2)

theorem TilesAt.length_le (h : TilesAt mp mem o xs) : 8 * xs.length ≤ itemsSize xs := by
  induction xs generalizing o with
  | nil => exact Nat.zero_le _
  | cons x xs ih =>
    have hx := h.1.size_ge
    have hxs := ih h.2
    simp only [length_cons, itemsSize]
    omega

theorem TilesAt.last_tag (h : TilesAt mp mem o (xs ++ [x])) :
    get16 mem (o + itemsSize (xs ++ [x]) - 2) = o + itemsSize xs := by
  have hx := (tilesAt_append.mp h).2.1
  have hsize : itemsSize (xs ++ [x]) = itemsSize xs + x.size := by simp [itemsSize]
  rw [hsize, ← add_assoc]
  exact hx.tag

theorem regionsAt_bounds (hr : r ∈ regionsAt o xs) :
    o ≤ r.offset ∧ r.offset + r.length ≤ o + itemsSize xs := by
  induction xs generalizing o with
  | nil => simp [regionsAt] at hr
  | cons x xs ih =>
    cases x with
    | entry n =>
      have := ih hr
      simp only [itemsSize, DataItem.size]
      omega
    | unused n =>
      simp only [itemsSize, DataItem.size]
      rcases mem_cons.mp hr with rfl | hr
      · simp only
        omega
      · have := ih hr
        omega

theorem TilesAt.region (h : TilesAt mp mem o xs) (hr : r ∈ regionsAt o xs) :
    UnusedAt mem r.offset r.length := by
  induction xs generalizing o with
  | nil => simp [regionsAt] at hr
  | cons x xs ih =>
    cases x with
    | entry n => exact ih h.2 hr
    | unused n =>
      rcases mem_cons.mp hr with rfl | hr
      · exact h.1
      · exact ih h.2 hr

theorem regionsOk_of_unusedAt (mem : ByteMem)
    (h : ∀ d, P d → 0 < d.offset ∧ UnusedAt mem d.offset d.length) :
    RegionsOk P := by
  refine ⟨fun d hd => (h d hd).1, fun d hd => (h d hd).2.pos, fun d d' hd hd' heq => ?_⟩
  have hlen : d.length = d'.length := by
    rw [← (h d hd).2.length, ← (h d' hd').2.length, heq]
  cases d
  cases d'
  simp_all

theorem TilesAt.regionsOk (h : TilesAt mp mem o xs) (ho : 0 < o) :
    RegionsOk (· ∈ regionsAt o xs) := by
  refine regionsOk_of_unusedAt mem fun d hd => ⟨?_, h.region hd⟩
  have := (regionsAt_bounds hd).1
  omega

theorem dataEntryOffset_pos (mp : DirMount) : 0 < dataEntryOffset mp := by
  unfold dataEntryOffset
  split <;> decide

theorem dataEntryOffset_dvd (mp : DirMount) : 8 ∣ dataEntryOffset mp := by
  unfold dataEntryOffset
  split <;> decide

theorem dir3DataEndOffset_le (mp : DirMount) (blk : DataBlock) :
    dir3DataEndOffset mp blk ≤ mp.blksize := by
  unfold dir3DataEndOffset
  split <;> omega

theorem UnusedApart.next_used {items : List DataItem} (h : UnusedApart (.unused n :: items)) :
    ∀ y ∈ items.head?, y.isUnused = false := by
  intro y hy
  cases items with
  | nil => simp at hy
  | cons z zs =>
    obtain rfl : z = y := Option.some.inj hy
    have hpair := (isChain_cons_cons.mp h).1
    by_contra hne
    exact hpair ⟨rfl, by simpa using hne⟩

theorem UnusedApart.prev_used {pre post : List DataItem} (h : UnusedApart (pre ++ .unused n :: post)) :
    ∀ x ∈ pre.getLast?, x.isUnused = false := by
  intro x hx
  have hpair := (isChain_append.mp h).2.2 x hx _ rfl
  by_contra hne
  exact hpair ⟨by simpa using hne, rfl⟩

theorem TilesAt.freescanLoop (hgeo : DataGeoOk mp) (h : TilesAt mp mem o xs) {stop fuel : Nat}
    (hstop : o + itemsSize xs = stop) (hfuel : xs.length ≤ fuel) {bf : BestFree}
    (htable : TableOk P bf) (hbefore : ∀ d, P d → d.offset < o) :
    TableOk (fun d => d ∈ regionsAt o xs ∨ P d) (freescanLoop mp mem stop fuel o bf) := by
  induction xs generalizing o fuel P bf with
  | nil =>
    have hdone : freescanLoop mp mem stop fuel o bf = bf := by
      cases fuel with
      | zero => rfl
      | succ fuel =>
        rw [Xfs.freescanLoop, if_neg (by simp only [itemsSize] at hstop; omega)]
    rw [hdone]
    exact htable.congr fun d => by simp [regionsAt]
  | cons x xs ih =>
    obtain ⟨hx, hxs⟩ := h
    have hge := hx.size_ge
    simp only [itemsSize, length_cons] at hstop hfuel
    obtain ⟨fuel, rfl⟩ : ∃ k, fuel = k + 1 := ⟨fuel - 1, by omega⟩
    rw [Xfs.freescanLoop, if_pos (by omega)]
    cases x with
    | entry n =>
      have hsize : dir2DataEntsize mp (dataNamelen mem o) = n := (EntryAt.size hx).symm
      rw [if_neg (by rw [hx.freetag_iff hgeo]; simp [DataItem.isUnused]), hsize]
      exact ih hxs (by simp only [DataItem.size] at hstop ⊢; omega) (by omega) htable
        fun d hd => (hbefore d hd).trans_le (Nat.le_add_right _ _)
    | unused n =>
      have hlen : unusedLength mem o = n := UnusedAt.length hx
      rw [if_pos (UnusedAt.freetag hx), freeAt, hlen]
      have hnew : ¬ P ⟨o, n⟩ := fun hd => lt_irrefl _ (hbefore _ hd)
      have hrest := ih hxs (show o + n + itemsSize xs = stop by
        simp only [DataItem.size] at hstop; omega) (show xs.length ≤ fuel by omega)
        (htable.insert hnew) (fun d hd => by
          rcases hd with rfl | hd
          · simp only
            omega
          · have := hbefore d hd
            omega)
      refine hrest.congr fun d => ?_
      simp only [regionsAt, mem_cons, DataItem.size]
      exact or_left_comm.trans (or_assoc).symm

theorem DataTiled.freescan (hgeo : DataGeoOk mp) (h : DataTiled mp blk xs) :
    DataHolds mp (dir2DataFreescan mp blk) xs := by
  have hlen := h.tiles.length_le
  have hstop := h.stop
  have hloop := h.tiles.freescanLoop hgeo h.stop
    (show xs.length ≤ dir3DataEndOffset mp blk by omega) TableOk.zero (fun _ hd => hd.elim)
  exact ⟨⟨h.magic, h.tiles, h.stop, h.apart⟩, hloop.congr fun d => by simp⟩

end Xfs
