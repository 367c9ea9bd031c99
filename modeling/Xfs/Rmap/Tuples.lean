import Mathlib.Data.Set.Basic
import Xfs.Rmap.Ops

/-! The meaning of reverse mapping records: the set of mapped blocks, each with
its owner, its file offset and its flags. Records are cut and joined without
changing that set. -/
namespace Xfs

open RecordCursor

/-- One mapped block. Blocks of non-inode owners and of extent maps have no
file offset. -/
structure RmapTuple where
  block : Nat
  owner : Nat
  offset : Option Nat
  flags : RmapFlags
deriving Repr, DecidableEq

def RmapIrec.Maps (r : RmapIrec) (t : RmapTuple) : Prop :=
  r.startblock ≤ t.block ∧ t.block < r.startblock + r.blockcount ∧ t.owner = r.owner ∧
    t.flags = r.flags ∧
    t.offset = if r.ignoreOff then none else some (r.offset + (t.block - r.startblock))

def rmapTuples (recs : List RmapIrec) : Set RmapTuple := {t | ∃ r ∈ recs, r.Maps t}

def RmapIrec.before (r : RmapIrec) (b : Nat) : RmapIrec :=
  { r with blockcount := b - r.startblock }

def RmapIrec.after (r : RmapIrec) (b : Nat) : RmapIrec :=
  { r with
    startblock := b
    blockcount := r.startblock + r.blockcount - b
    offset := if r.ignoreOff then r.offset else r.offset + (b - r.startblock) }

def RmapIrec.join (l r : RmapIrec) : RmapIrec :=
  { l with blockcount := l.blockcount + r.blockcount }

/-- The record `r` goes on where `l` ends. -/
structure RmapIrec.Abuts (l r : RmapIrec) : Prop where
  block : l.startblock + l.blockcount = r.startblock
  owner : l.owner = r.owner
  flags : l.flags = r.flags
  offset : l.ignoreOff = false → l.offset + l.blockcount = r.offset

/-- The record `x` is a part of `r`. -/
structure RmapIrec.Within (x r : RmapIrec) : Prop where
  start : r.startblock ≤ x.startblock
  fin : x.startblock + x.blockcount ≤ r.startblock + r.blockcount
  owner : r.owner = x.owner
  flags : r.flags = x.flags
  offset : r.ignoreOff = false → x.offset = r.offset + (x.startblock - r.startblock)

section Records

variable {l r x : RmapIrec} {t : RmapTuple} {b : Nat}

theorem RmapIrec.ignoreOff_congr (howner : l.owner = r.owner) (hflags : l.flags = r.flags) :
    l.ignoreOff = r.ignoreOff := by
  unfold RmapIrec.ignoreOff
  rw [howner, hflags]

@[simp] theorem RmapIrec.join_ignoreOff (l r : RmapIrec) : (l.join r).ignoreOff = l.ignoreOff := rfl

theorem RmapIrec.not_maps_of_empty (h : r.blockcount = 0) : ¬ r.Maps t := by
  rintro ⟨h1, h2, -⟩
  omega

theorem RmapIrec.Abuts.maps_join (h : l.Abuts r) : (l.join r).Maps t ↔ l.Maps t ∨ r.Maps t := by
  have hign := RmapIrec.ignoreOff_congr h.owner h.flags
  have hblock := h.block
  have hoffset := h.offset
  unfold RmapIrec.Maps
  rw [RmapIrec.join_ignoreOff, ← hign, ← h.owner, ← h.flags]
  simp only [RmapIrec.join]
  cases hi : l.ignoreOff with
  | true =>
    constructor
    · rintro ⟨h1, h2, h3⟩
      by_cases hb : t.block < l.startblock + l.blockcount
      · exact .inl ⟨h1, hb, h3⟩
      · exact .inr ⟨by omega, by omega, h3⟩
    · rintro (⟨h1, h2, h3⟩ | ⟨h1, h2, h3⟩)
      · exact ⟨h1, by omega, h3⟩
      · exact ⟨by omega, by omega, h3⟩
  | false =>
    have hoff := hoffset hi
    simp only [Bool.false_eq_true, if_false]
    constructor
    · rintro ⟨h1, h2, h3, h4, h5⟩
      by_cases hb : t.block < l.startblock + l.blockcount
      · exact .inl ⟨h1, hb, h3, h4, h5⟩
      · refine .inr ⟨by omega, by omega, h3, h4, ?_⟩
        rw [h5]
        congr 1
        omega
    · rintro (⟨h1, h2, h3⟩ | ⟨h1, h2, h3, h4, h5⟩)
      · exact ⟨h1, by omega, h3⟩
      · refine ⟨by omega, by omega, h3, h4, ?_⟩
        rw [h5]
        congr 1
        omega

theorem RmapIrec.Within.maps_iff (h : x.Within r) :
    x.Maps t ↔ r.Maps t ∧ x.startblock ≤ t.block ∧ t.block < x.startblock + x.blockcount := by
  have hign := RmapIrec.ignoreOff_congr h.owner h.flags
  have h1 := h.start
  have h2 := h.fin
  have hoffset := h.offset
  unfold RmapIrec.Maps
  rw [← hign, ← h.owner, ← h.flags]
  cases hi : r.ignoreOff with
  | true =>
    constructor
    · rintro ⟨h3, h4, h5⟩
      exact ⟨⟨by omega, by omega, h5⟩, h3, h4⟩
    · rintro ⟨⟨-, -, h5⟩, h3, h4⟩
      exact ⟨h3, h4, h5⟩
  | false =>
    have hoff := hoffset hi
    simp only [Bool.false_eq_true, if_false]
    constructor
    · rintro ⟨h3, h4, h5, h6, h7⟩
      refine ⟨⟨by omega, by omega, h5, h6, ?_⟩, h3, h4⟩
      rw [h7]
      congr 1
      omega
    · rintro ⟨⟨-, -, h5, h6, h7⟩, h3, h4⟩
      refine ⟨h3, h4, h5, h6, ?_⟩
      rw [h7]
      congr 1
      omega

theorem RmapIrec.within_before (hb : b ≤ r.startblock + r.blockcount) :
    (r.before b).Within r ∨ (r.before b).blockcount = 0 := by
  by_cases hlt : r.startblock < b
  · refine .inl ⟨le_rfl, ?_, rfl, rfl, fun _ => ?_⟩
    · simp only [RmapIrec.before]
      omega
    · simp [RmapIrec.before]
  · refine .inr ?_
    simp only [RmapIrec.before]
    omega

theorem RmapIrec.within_after (hb : r.startblock ≤ b) (hb' : b ≤ r.startblock + r.blockcount) :
    (r.after b).Within r := by
  refine ⟨hb, ?_, rfl, rfl, fun hi => ?_⟩
  · simp only [RmapIrec.after]
    omega
  · simp [RmapIrec.after, hi]

theorem RmapIrec.Within.maps_rest (h : x.Within r) :
    (r.before x.startblock).Maps t ∨ (r.after (x.startblock + x.blockcount)).Maps t ↔
      r.Maps t ∧ ¬ x.Maps t := by
  have h1 := h.start
  have h2 := h.fin
  have hbefore : (r.before x.startblock).Maps t ↔ r.Maps t ∧ t.block < x.startblock := by
    rcases r.within_before (show x.startblock ≤ r.startblock + r.blockcount by omega) with hw | hz
    · rw [hw.maps_iff]
      simp only [RmapIrec.before]
      constructor
      · rintro ⟨hm, -, hlt⟩
        exact ⟨hm, by omega⟩
      · rintro ⟨hm, hlt⟩
        exact ⟨hm, hm.1, by omega⟩
    · refine ⟨fun hm => absurd hm (RmapIrec.not_maps_of_empty hz), fun ⟨hm, hlt⟩ => ?_⟩
      have := hm.1
      simp only [RmapIrec.before] at hz
      omega
  have hafter : (r.after (x.startblock + x.blockcount)).Maps t ↔
      r.Maps t ∧ x.startblock + x.blockcount ≤ t.block := by
    rw [(RmapIrec.within_after (by omega) h2).maps_iff]
    simp only [RmapIrec.after]
    constructor
    · rintro ⟨hm, hle, -⟩
      exact ⟨hm, hle⟩
    · rintro ⟨hm, hle⟩
      have := hm.2.1
      exact ⟨hm, hle, by omega⟩
  rw [hbefore, hafter, h.maps_iff]
  constructor
  · rintro (⟨hm, hlt⟩ | ⟨hm, hle⟩)
    · exact ⟨hm, fun hx => by omega⟩
    · exact ⟨hm, fun hx => by omega⟩
  · rintro ⟨hm, hn⟩
    by_cases hlt : t.block < x.startblock
    · exact .inl ⟨hm, hlt⟩
    · exact .inr ⟨hm, not_lt.mp (fun hlt' => hn ⟨hm, not_lt.mp hlt, hlt'⟩)⟩

end Records

end Xfs
