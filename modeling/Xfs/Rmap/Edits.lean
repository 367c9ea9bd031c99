import Xfs.Lib.SplitCursor
import Xfs.Rmap.Tuples

/-! What the operations do to the record set, as records removed and records
added, and what that means for the set of mapped blocks. -/
namespace Xfs

open List RecordCursor

/-- Records without blocks are not stored. -/
def RmapIrec.parts (r : RmapIrec) : List RmapIrec := if r.blockcount = 0 then [] else [r]

/-- The records an operation removes and the records it adds. -/
structure RmapEdit where
  del : List RmapIrec
  add : List RmapIrec

def joinNeighbours (lt : Option RmapIrec) (x : RmapIrec) (gt : Option RmapIrec) : RmapIrec :=
  match lt, gt with
  | some l, some g => (l.join x).join g
  | some l, none => l.join x
  | none, some g => x.join g
  | none, none => x

def mapEdit (x : RmapIrec) (lt gt : Option RmapIrec) : RmapEdit :=
  ⟨lt.toList ++ gt.toList, [joinNeighbours lt x gt]⟩

/-- Unmap the part `x` of the record `r`. -/
def unmapEdit (r x : RmapIrec) : RmapEdit :=
  ⟨[r], (r.before x.startblock).parts ++ (r.after (x.startblock + x.blockcount)).parts⟩

/-- Replace a part of `prev` by `x`, next to the neighbours `x` can be merged with. -/
def convertEdit (prev x : RmapIrec) (lt gt : Option RmapIrec) : RmapEdit :=
  ⟨lt.toList ++ [prev] ++ gt.toList, (prev.before x.startblock).parts ++
    [joinNeighbours lt x gt] ++ (prev.after (x.startblock + x.blockcount)).parts⟩

/-- The key-ordered records `recs'` are `recs` after the edit. -/
structure Edited (recs : List RmapIrec) (e : RmapEdit) (recs' : List RmapIrec) : Prop where
  ordered : Ordered rmapKey recs'
  mem : ∀ r, r ∈ recs' ↔ (r ∈ recs ∧ r ∉ e.del) ∨ r ∈ e.add

section Meaning

variable {recs recs' : List RmapIrec} {e : RmapEdit} {r x prev : RmapIrec}
  {lt gt : Option RmapIrec} {t : RmapTuple}

theorem Edited.unique (h : Edited recs e recs') {recs'' : List RmapIrec}
    (h' : Edited recs e recs'') : recs' = recs'' :=
  h.ordered.eq_of_mem_iff h'.ordered fun r => by rw [h.mem, h'.mem]

theorem Edited.mem_tuples (h : Edited recs e recs') :
    t ∈ rmapTuples recs' ↔ (∃ r ∈ recs, r ∉ e.del ∧ r.Maps t) ∨ ∃ r ∈ e.add, r.Maps t := by
  simp only [rmapTuples, Set.mem_ofPred_eq, h.mem]
  constructor
  · rintro ⟨r, ⟨hr, hn⟩ | hr, hm⟩
    · exact .inl ⟨r, hr, hn, hm⟩
    · exact .inr ⟨r, hr, hm⟩
  · rintro (⟨r, hr, hn, hm⟩ | ⟨r, hr, hm⟩)
    · exact ⟨r, .inl ⟨hr, hn⟩, hm⟩
    · exact ⟨r, .inr hr, hm⟩

theorem RmapIrec.exists_parts_maps : (∃ s ∈ r.parts, s.Maps t) ↔ r.Maps t := by
  unfold RmapIrec.parts
  split
  case isTrue hz =>
    have := RmapIrec.not_maps_of_empty hz (t := t)
    simp [this]
  case isFalse => simp

structure Neighbours (recs : List RmapIrec) (lt : Option RmapIrec) (x : RmapIrec)
    (gt : Option RmapIrec) : Prop where
  ltMem : ∀ l ∈ lt, l ∈ recs
  gtMem : ∀ g ∈ gt, g ∈ recs
  ltAbuts : ∀ l ∈ lt, l.Abuts x
  gtAbuts : ∀ g ∈ gt, x.Abuts g

theorem Neighbours.maps_join (h : Neighbours recs lt x gt) : (joinNeighbours lt x gt).Maps t ↔
      (∃ l ∈ lt, l.Maps t) ∨ x.Maps t ∨ ∃ g ∈ gt, g.Maps t := by
  have hgt : ∀ l g, l ∈ lt → g ∈ gt → (l.join x).Abuts g := by
    intro l g hl hg
    have h1 := h.ltAbuts l hl
    have h2 := h.gtAbuts g hg
    refine ⟨?_, h1.owner.trans h2.owner, h1.flags.trans h2.flags, fun hi => ?_⟩
    · have := h1.block
      have := h2.block
      simp only [RmapIrec.join]
      omega
    · have := h1.offset hi
      have := h2.offset (RmapIrec.ignoreOff_congr h1.owner h1.flags ▸ hi)
      simp only [RmapIrec.join]
      omega
  cases lt with
  | none =>
    cases gt with
    | none => simp [joinNeighbours]
    | some g => simp [joinNeighbours, (h.gtAbuts g rfl).maps_join]
  | some l =>
    cases gt with
    | none => simp [joinNeighbours, (h.ltAbuts l rfl).maps_join]
    | some g =>
      simp [joinNeighbours, (hgt l g rfl rfl).maps_join, (h.ltAbuts l rfl).maps_join, or_assoc]

/-- No other record maps a block of `x`. -/
def Sole (recs : List RmapIrec) (r x : RmapIrec) : Prop :=
  ∀ s ∈ recs, s ≠ r → ∀ t, x.Maps t → ¬ s.Maps t

theorem Edited.tuples_map (h : Edited recs (mapEdit x lt gt) recs')
    (hn : Neighbours recs lt x gt) : rmapTuples recs' = rmapTuples recs ∪ {t | x.Maps t} := by
  ext t
  rw [h.mem_tuples, Set.mem_union, rmapTuples]
  simp only [mapEdit, mem_append, Option.mem_toList, mem_singleton, exists_eq_left,
    hn.maps_join, Set.mem_ofPred_eq]
  constructor
  · rintro (⟨r, hr, -, hm⟩ | ⟨l, hl, hm⟩ | hm | ⟨g, hg, hm⟩)
    · exact .inl ⟨r, hr, hm⟩
    · exact .inl ⟨l, hn.ltMem l hl, hm⟩
    · exact .inr hm
    · exact .inl ⟨g, hn.gtMem g hg, hm⟩
  · rintro (⟨r, hr, hm⟩ | hm)
    · by_cases hl : r ∈ lt
      · exact .inr (.inl ⟨r, hl, hm⟩)
      · by_cases hg : r ∈ gt
        · exact .inr (.inr (.inr ⟨r, hg, hm⟩))
        · exact .inl ⟨r, hr, fun hd => hd.elim hl hg, hm⟩
    · exact .inr (.inr (.inl hm))

theorem Edited.tuples_unmap (h : Edited recs (unmapEdit r x) recs') (hr : r ∈ recs)
    (hx : x.Within r) (hs : Sole recs r x) :
    rmapTuples recs' = rmapTuples recs \ {t | x.Maps t} := by
  ext t
  rw [h.mem_tuples, Set.mem_sdiff, rmapTuples]
  simp only [unmapEdit, mem_append, mem_singleton, or_and_right, exists_or,
    RmapIrec.exists_parts_maps, hx.maps_rest, Set.mem_ofPred_eq]
  constructor
  · rintro (⟨s, hs', hne, hm⟩ | ⟨hm, hn⟩)
    · exact ⟨⟨s, hs', hm⟩, fun hxm => hs s hs' hne t hxm hm⟩
    · exact ⟨⟨r, hr, hm⟩, hn⟩
  · rintro ⟨⟨s, hs', hm⟩, hn⟩
    by_cases hsr : s = r
    · exact .inr ⟨hsr ▸ hm, hn⟩
    · exact .inl ⟨s, hs', hsr, hm⟩

theorem Edited.tuples_convert {old : RmapIrec} (h : Edited recs (convertEdit prev x lt gt) recs')
    (hr : prev ∈ recs) (hold : old.Within prev) (hstart : x.startblock = old.startblock)
    (hcount : x.blockcount = old.blockcount) (hs : Sole recs prev old)
    (hn : Neighbours recs lt x gt) (hne : ∀ s, s ∈ lt ∨ s ∈ gt → s ≠ prev) :
    rmapTuples recs' = (rmapTuples recs \ {t | old.Maps t}) ∪ {t | x.Maps t} := by
  ext t
  rw [h.mem_tuples, Set.mem_union, Set.mem_sdiff, rmapTuples]
  simp only [convertEdit, mem_append, mem_singleton, Option.mem_toList, or_and_right,
    exists_or, RmapIrec.exists_parts_maps, exists_eq_left, hn.maps_join, Set.mem_ofPred_eq]
  rw [hstart, hcount]
  have hrest := hold.maps_rest (t := t)
  constructor
  · rintro (⟨s, hs', hd, hm⟩ | (hm | ⟨l, hl, hm⟩ | hm | ⟨g, hg, hm⟩) | hm)
    · exact .inl ⟨⟨s, hs', hm⟩, fun ho => hs s hs' (fun he => hd (.inl (.inr he))) t ho hm⟩
    · exact .inl ⟨⟨prev, hr, (hrest.mp (.inl hm)).1⟩, (hrest.mp (.inl hm)).2⟩
    · exact .inl ⟨⟨l, hn.ltMem l hl, hm⟩, fun ho =>
        hs l (hn.ltMem l hl) (hne l (.inl hl)) t ho hm⟩
    · exact .inr hm
    · exact .inl ⟨⟨g, hn.gtMem g hg, hm⟩, fun ho =>
        hs g (hn.gtMem g hg) (hne g (.inr hg)) t ho hm⟩
    · exact .inl ⟨⟨prev, hr, (hrest.mp (.inr hm)).1⟩, (hrest.mp (.inr hm)).2⟩
  · rintro (⟨⟨s, hs', hm⟩, ho⟩ | hm)
    · by_cases hsp : s = prev
      · rcases hrest.mpr ⟨hsp ▸ hm, ho⟩ with hm' | hm'
        · exact .inr (.inl (.inl hm'))
        · exact .inr (.inr hm')
      · by_cases hl : s ∈ lt
        · exact .inr (.inl (.inr (.inl ⟨s, hl, hm⟩)))
        · by_cases hg : s ∈ gt
          · exact .inr (.inl (.inr (.inr (.inr ⟨s, hg, hm⟩))))
          · exact .inl ⟨s, hs', fun hd => hd.elim (fun hd => hd.elim hl hsp) hg, hm⟩
    · exact .inr (.inl (.inr (.inr (.inl hm))))

end Meaning

end Xfs
