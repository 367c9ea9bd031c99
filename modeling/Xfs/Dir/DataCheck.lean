import Xfs.Dir.DataTiles

/-! The checker accepts the free space of every block whose items and table are
in order. -/
namespace Xfs

open List

variable {mp : DirMount} {mem : ByteMem} {o n : Nat} {x : DataItem}
  {xs ys : List DataItem} {blk : DataBlock} {r s : DataFree} {P : DataFree → Prop} {bf : BestFree}
  {freeseen : Fin 3 → Bool}

def LeafSection.good : LeafSection := ⟨true, fun _ => true, fun _ => true⟩

theorem regionsAt_disjoint (hr : r ∈ regionsAt o xs) (hs : s ∈ regionsAt o xs)
    (hlt : r.offset < s.offset) : r.offset + r.length ≤ s.offset := by
  induction xs generalizing o with
  | nil => simp [regionsAt] at hr
  | cons x xs ih =>
    cases x with
    | entry n => exact ih hr hs
    | unused n =>
      rcases mem_cons.mp hr with rfl | hr <;> rcases mem_cons.mp hs with rfl | hs
      · omega
      · exact (regionsAt_bounds hs).1
      · have := (regionsAt_bounds hr).1
        simp only at hlt
        omega
      · exact ih hr hs

/-- What a slot of a good table is: unused, the region looked for, or one apart
from it. -/
structure SlotFits (off len : Nat) (s : DataFree) : Prop where
  zero : s.offset = 0 ↔ s.length = 0
  same : s.offset = off → s.length = len
  before : s.offset ≠ 0 → s.offset < off → s.offset + s.length ≤ off
  behind : off < s.offset → off + len ≤ s.offset

theorem freefindVerifyLoop_sorted {off len : Nat} {rest : List DataFree} {prev : Option DataFree}
    {matched seenzero : Bool} (hfits : ∀ s ∈ rest, SlotFits off len s)
    (hzero : seenzero = true → ∀ s ∈ rest, s.offset = 0)
    (hprev : ∀ p ∈ prev, ∀ s ∈ rest, s.length ≤ p.length)
    (hsorted : rest.Pairwise fun s t => t.length ≤ s.length)
    (hlong : matched = false → (∃ t ∈ rest, t.offset = off) ∨
      ∀ s ∈ rest, s.offset ≠ 0 → len ≤ s.length) :
    freefindVerifyLoop off len rest prev matched seenzero = true := by
  induction rest generalizing prev matched seenzero with
  | nil => rfl
  | cons s rest ih =>
    obtain ⟨hs, hrest⟩ := forall_mem_cons.mp hfits
    obtain ⟨hle, hsorted⟩ := pairwise_cons.mp hsorted
    rw [freefindVerifyLoop]
    by_cases h0 : s.offset = 0
    · -- the slots behind an unused one are unused
      have hlen := hs.zero.mp h0
      have hempty : ∀ t ∈ rest, t.offset = 0 := fun t ht =>
        (hrest t ht).zero.mpr (by have := hle t ht; omega)
      rw [if_pos h0, decide_eq_true hlen, Bool.true_and]
      refine ih hrest (fun _ => hempty) (fun p hp t ht => ?_) hsorted fun _ =>
        .inr fun t ht hne => absurd (hempty t ht) hne
      obtain rfl : s = p := Option.some.inj hp
      exact hle t ht
    · have hseen : seenzero = false := by
        by_contra hseen
        exact h0 (hzero (by simpa using hseen) s mem_cons_self)
      have hplace : (if s.offset = off then decide (s.length = len)
          else if off < s.offset then decide (off + len ≤ s.offset)
          else decide (s.offset + s.length ≤ off)) = true := by
        split_ifs with hoff hlt
        · exact decide_eq_true (hs.same hoff)
        · exact decide_eq_true (hs.behind hlt)
        · exact decide_eq_true (hs.before h0 (by omega))
      have hmatch : (matched || decide (s.offset = off)) = true ∨ len ≤ s.length := by
        cases matched with
        | true => exact .inl rfl
        | false =>
          by_cases hoff : s.offset = off
          · exact .inl (decide_eq_true hoff)
          · refine .inr ?_
            rcases hlong rfl with ⟨t, ht, htoff⟩ | hall
            · rcases mem_cons.mp ht with rfl | ht
              · exact absurd htoff hoff
              · exact ((hrest t ht).same htoff).ge.trans (hle t ht)
            · exact hall s mem_cons_self h0
      have hprevs : (prev.all fun p => decide (s.length ≤ p.length)) = true := by
        cases prev with
        | none => rfl
        | some p => exact decide_eq_true (hprev p rfl s mem_cons_self)
      have hmatch' : ((matched || decide (s.offset = off)) || decide (len ≤ s.length)) = true := by
        simpa using hmatch
      rw [if_neg h0, hseen, if_neg Bool.false_ne_true]
      simp only [hplace, hmatch', hprevs, Bool.true_and]
      refine ih hrest (fun h => by simp at h) (fun p hp t ht => ?_) hsorted fun hm => ?_
      · obtain rfl : s = p := Option.some.inj hp
        exact hle t ht
      · obtain ⟨hm, hoff⟩ := Bool.or_eq_false_iff.mp hm
        have hoff := of_decide_eq_false hoff
        refine (hlong hm).imp (fun ht => ?_) fun hall t ht => hall t (mem_cons_of_mem _ ht)
        obtain ⟨t, ht, htoff⟩ := ht
        rcases mem_cons.mp ht with rfl | ht
        · exact absurd htoff hoff
        · exact ⟨t, ht, htoff⟩

theorem TableOk.slot_zero (h : TableOk P bf) (hP : RegionsOk P) (hs : bf.Has s) :
    s.offset = 0 ↔ s.length = 0 := by
  rcases h.real s hs with rfl | hs
  · exact ⟨fun _ => rfl, fun _ => rfl⟩
  · have := hP.offset s hs
    have := hP.length s hs
    omega

theorem TableOk.freefindVerify (h : TableOk (· ∈ regionsAt o xs) bf) (htiles : TilesAt mp mem o xs)
    (ho : 0 < o) {dup : Nat} (hd : freeAt mem dup ∈ regionsAt o xs) :
    dir2DataFreefindVerify bf mem dup := by
  have hP := htiles.regionsOk ho
  have hmem : ∀ s ∈ [bf.b0, bf.b1, bf.b2], bf.Has s := by
    simp [BestFree.Has]
  have hdup : 0 < dup := hP.offset _ hd
  refine freefindVerifyLoop_sorted (fun s hs => ?_) (fun h => by simp at h) (by simp) ?_ fun _ => ?_
  · have hzero := h.slot_zero hP (hmem s hs)
    have hreal : s.offset ≠ 0 → s ∈ regionsAt o xs := fun hne =>
      (h.real s (hmem s hs)).resolve_left fun hz => hne (by rw [hz]; rfl)
    refine ⟨hzero, fun heq => ?_, fun hne hlt => ?_, fun hlt => ?_⟩
    · exact congrArg DataFree.length (hP.unique s _ (hreal (by omega)) hd heq)
    · exact regionsAt_disjoint (hreal hne) hd hlt
    · exact regionsAt_disjoint hd (hreal (by omega)) hlt
  · obtain ⟨h01, h12⟩ := h.sorted
    simp only [pairwise_cons, mem_cons, not_mem_nil, or_false, false_implies,
      implies_true, List.Pairwise.nil, and_true, forall_eq_or_imp, forall_eq]
    exact ⟨⟨h01, h12.trans h01⟩, h12⟩
  · -- a region without a slot is not longer than the last one
    rcases h.rest _ hd with hhas | hle
    · exact .inl ⟨freeAt mem dup, by simpa [BestFree.Has] using hhas, rfl⟩
    · refine .inr fun s hs _ => hle.trans ?_
      obtain ⟨h01, h12⟩ := h.sorted
      rcases hmem s hs with rfl | rfl | rfl <;> omega

/-- The slots seen before an offset: those not in use, and those of the regions
gone by. -/
def SeenBefore (bf : BestFree) (regions : List DataFree) (freeseen : Fin 3 → Bool) : Prop :=
  ∀ i, freeseen i = true ↔ (bf.get i).length = 0 ∨ bf.get i ∈ regions

theorem BestFree.has_get (bf : BestFree) (i : Fin 3) : bf.Has (bf.get i) := by
  rcases slot_cases i with rfl | rfl | rfl
  · exact .inl rfl
  · exact .inr (.inl rfl)
  · exact .inr (.inr rfl)

theorem TableOk.get_inj (h : TableOk P bf) {i j : Fin 3} (heq : bf.get i = bf.get j)
    (hpos : 0 < (bf.get i).length) : i = j := by
  obtain ⟨h01, h02, h12⟩ := h.distinct
  have hz := DataFree.zero_length
  rcases slot_cases i with rfl | rfl | rfl <;> rcases slot_cases j with rfl | rfl | rfl <;>
    grind [BestFree.get]

theorem seenBefore_entry (hseen : SeenBefore bf (regionsAt o xs) freeseen) (n : Nat) :
    SeenBefore bf (regionsAt o (xs ++ [.entry n])) freeseen := by
  simpa [regionsAt_append, regionsAt] using hseen

theorem seenBefore_unused {n : Nat} {dfp : Option (Fin 3)}
    (hseen : SeenBefore bf (regionsAt o xs) freeseen) (htable : TableOk P bf) (hn : 0 < n)
    (hfound : bf.Found ⟨o + itemsSize xs, n⟩ dfp) :
    SeenBefore bf (regionsAt o (xs ++ [.unused n]))
      (dfp.elim freeseen fun i => Function.update freeseen i true) := by
  intro j
  rw [regionsAt_append, regionsAt, regionsAt, mem_append, mem_singleton, ← or_assoc, ← hseen j]
  cases dfp with
  | none =>
    have hne : bf.get j ≠ ⟨o + itemsSize xs, n⟩ := by
      intro heq
      exact hfound (heq ▸ bf.has_get j)
    simp [hne]
  | some i =>
    have hi : bf.get i = ⟨o + itemsSize xs, n⟩ := hfound
    simp only [Option.elim]
    by_cases hij : j = i
    · subst hij
      simp [hi]
    have hne : bf.get j ≠ ⟨o + itemsSize xs, n⟩ := by
      intro heq
      refine hij (htable.get_inj (heq.trans hi.symm) ?_)
      rw [heq]
      exact hn
    rw [Function.update_of_ne hij]
    simp [hne]

theorem DataTiled.next (h : DataTiled mp blk (xs ++ x :: ys)) :
    ItemAt mp blk.mem (dataEntryOffset mp + itemsSize xs) x ∧
      dataEntryOffset mp + itemsSize xs + x.size + itemsSize ys = dir3DataEndOffset mp blk ∧
      (x.isUnused → ∀ y ∈ ys.head?, y.isUnused = false) := by
  refine ⟨(tilesAt_append.mp h.tiles).2.1, ?_, fun hx => ?_⟩
  · rw [← h.stop, itemsSize_append, itemsSize]
    omega
  · cases x with
    | entry n => cases hx
    | unused n => exact UnusedApart.next_used (isChain_append.mp h.apart).2.1

theorem DataHolds.checkLoop (hgeo : DataGeoOk mp) (h : DataHolds mp blk (xs ++ ys)) {fuel : Nat}
    (hfuel : ys.length < fuel) {lastfree : Bool} (count : Nat)
    (hseen : SeenBefore blk.bf (regionsAt (dataEntryOffset mp) xs) freeseen)
    (hlast : lastfree → ∀ y ∈ ys.head?, y.isUnused = false) :
    dir3DataCheckLoop mp blk .good (dir3DataEndOffset mp blk) fuel
      (dataEntryOffset mp + itemsSize xs) freeseen lastfree count := by
  induction ys generalizing xs fuel freeseen lastfree count with
  | nil =>
    obtain ⟨fuel, rfl⟩ : ∃ k, fuel = k + 1 := ⟨fuel - 1, by omega⟩
    have hstop := h.stop
    rw [append_nil] at hstop
    have hall : ∀ i, freeseen i := by
      intro i
      refine (hseen i).mpr ?_
      rcases h.table.real _ (blk.bf.has_get i) with hz | hr
      · exact .inl (by rw [hz]; rfl)
      · exact .inr (by simpa using hr)
    rw [dir3DataCheckLoop, if_neg (by omega), hall, hall, hall]
    simp [LeafSection.good]
  | cons y ys ih =>
    have hnext : DataHolds mp blk ((xs ++ [y]) ++ ys) := by simpa using h
    obtain ⟨fuel, rfl⟩ : ∃ k, fuel = k + 1 := ⟨fuel - 1, by omega⟩
    obtain ⟨hy, hstop, happart⟩ := h.toDataTiled.next
    have hge := hy.size_ge
    have hsize : dataEntryOffset mp + itemsSize xs + y.size =
        dataEntryOffset mp + itemsSize (xs ++ [y]) := by
      simp [itemsSize, add_assoc]
    have hleft : ys.length < fuel := by simpa using hfuel
    rw [dir3DataCheckLoop]
    rw [if_pos (by omega), if_neg (by unfold dir2DataUnusedsize; omega)]
    cases y with
    | entry n =>
      have hreclen : dir2DataEntsize mp
          (dataNamelen blk.mem (dataEntryOffset mp + itemsSize xs)) = n :=
        (EntryAt.size hy).symm
      have hmin : dir2DataEntsize mp 1 ≤ n := by
        have := EntryAt.namelen hy
        rw [← hreclen]
        unfold dir2DataEntsize
        omega
      have hftype : ¬ dir3FtMax ≤ dataFtype mp blk.mem (dataEntryOffset mp + itemsSize xs) := by
        unfold dataFtype
        simp only
        split_ifs <;> simp_all [dir3FtMax]
      simp only [DataItem.size] at hstop hsize
      rw [if_neg (by rw [hy.freetag_iff hgeo]; simp [DataItem.isUnused]), if_neg (by omega),
        if_neg (EntryAt.namelen hy), hreclen, if_neg (by omega),
        if_neg (by rw [EntryAt.ino hy]; simp),
        if_neg (by rw [entryTag, hreclen, EntryAt.tag hy]; simp), if_neg hftype,
        if_neg (by simp [LeafSection.good]), hsize]
      exact ih hnext hleft _ (seenBefore_entry hseen n) (fun h => by simp at h)
    | unused n =>
      have hlen : unusedLength blk.mem (dataEntryOffset mp + itemsSize xs) = n :=
        UnusedAt.length hy
      have hreclen : dir2DataUnusedsize n = n := by
        have := UnusedAt.aligned hy
        unfold dir2DataUnusedsize
        omega
      have hmem : freeAt blk.mem (dataEntryOffset mp + itemsSize xs) ∈
          regionsAt (dataEntryOffset mp) (xs ++ .unused n :: ys) := by
        rw [freeAt, hlen, regionsAt_append, regionsAt]
        exact mem_append_right _ mem_cons_self
      have hpos := dataEntryOffset_pos mp
      have hregions := h.tiles.regionsOk hpos
      have hfound := h.table.freefind hregions hmem
      have hnotlast : ¬ lastfree := fun hl => by simpa [DataItem.isUnused] using hlast hl
      have hseen' := seenBefore_unused hseen h.table (UnusedAt.pos hy) (by
        rw [← hlen]
        exact hfound)
      simp only [DataItem.size] at hstop hsize
      rw [if_pos (UnusedAt.freetag hy), if_neg hnotlast, hlen, hreclen, if_neg (by simp),
        if_neg (by omega), if_neg (by rw [unusedTag, hlen, UnusedAt.tag hy]; simp),
        if_neg (by rw [h.table.freefindVerify h.tiles hpos hmem]; simp), hsize]
      cases hfind : dir2DataFreefind blk.bf blk.mem (dataEntryOffset mp + itemsSize xs) with
      | some i =>
        rw [hfind] at hfound hseen'
        have hi : blk.bf.get i = ⟨_, unusedLength _ _⟩ := hfound
        -- the slot belongs to a region that has not gone by yet
        have hfresh : ¬ freeseen i := by
          rw [hseen i, hi, hlen]
          rintro (hz | hr)
          · exact absurd hz (ne_of_gt (UnusedAt.pos hy))
          · have hb := (regionsAt_bounds hr).2
            have hn := UnusedAt.pos hy
            simp only at hb
            omega
        simp only
        rw [if_neg hfresh]
        exact ih hnext hleft _ hseen' fun _ => happart rfl
      | none =>
        rw [hfind] at hfound hseen'
        have hle := h.table.unlisted_le hmem hfound
        rw [freeAt, hlen] at hle
        rw [if_neg (not_lt.mpr hle)]
        exact ih hnext hleft _ hseen' fun _ => happart rfl

theorem DataHolds.check (hgeo : DataGeoOk mp) (h : DataHolds mp blk xs) :
    dir3DataCheck mp blk .good := by
  have hpos := dataEntryOffset_pos mp
  have hregions := h.tiles.regionsOk hpos
  have hstop := h.stop
  have hlen := h.tiles.length_le
  have hzero : ∀ s, blk.bf.Has s → ¬ (s.length = 0 ∧ s.offset ≠ 0) := fun s hs hne =>
    hne.2 ((h.table.slot_zero hregions hs).mpr hne.1)
  obtain ⟨h01, h12⟩ := h.table.sorted
  rw [dir3DataCheck, if_neg (by simp [LeafSection.good]), if_neg (by omega), if_neg ?_, if_neg (by omega)]
  · have hall : DataHolds mp blk ([] ++ xs) := h
    refine hall.checkLoop hgeo (by omega) 0 (fun i => ?_) (fun hf => by simp at hf)
    simp [regionsAt]
  · rintro (hz | hz | hz)
    · exact hzero _ (.inl rfl) hz
    · exact hzero _ (.inr (.inl rfl)) hz
    · exact hzero _ (.inr (.inr rfl)) hz

end Xfs
