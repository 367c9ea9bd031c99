import Mathlib.Data.List.Induction
import Mathlib.Data.Set.Basic
import Xfs.Frog.BitmapClear

/-! Sequences of calls that set and clear ranges, starting from an empty bitmap. -/
namespace Xfs

open List IntervalList

inductive BitmapOp where
  | set (start length : Nat)
  | clear (start length : Nat)
deriving DecidableEq, Repr

/-- The range is not empty and its end leaves room for one more. -/
def BitmapOp.InRange : BitmapOp → Prop
  | .set start length => 1 ≤ length ∧ start + length + 1 < 2 ^ 64
  | .clear start length => 1 ≤ length ∧ start + length + 1 < 2 ^ 64

instance (op : BitmapOp) : Decidable op.InRange := by
  cases op <;> exact inferInstanceAs (Decidable (_ ∧ _))

/-- What a call is for. -/
def BitmapOp.onSet : BitmapOp → Set Nat → Set Nat
  | .set start length, s => s ∪ {b | start ≤ b ∧ b < start + length}
  | .clear start length, s => s \ {b | start ≤ b ∧ b < start + length}

/-- The extents are such that a call does what it is for. -/
def BitmapOp.Fits (l : List BitmapNode) : BitmapOp → Prop
  | .set start length => SetFits l start length
  | .clear start length => ClearFits l start length

instance (l : List BitmapNode) (op : BitmapOp) : Decidable (op.Fits l) := by
  cases op with
  | set start length => exact inferInstanceAs (Decidable (SetFits l start length))
  | clear start length => exact inferInstanceAs (Decidable (ClearFits l start length))

section

variable (bal : Avl64Balance BitmapNode)

def bitmapStep (bmap : Bitmap) : BitmapOp → BitmapRes
  | .set start length => bitmapSet bal bmap start length
  | .clear start length => bitmapClear bal bmap start length

def bitmapRun (ops : List BitmapOp) : Bitmap :=
  ops.foldl (fun bmap op => (bitmapStep bal bmap op).1) .nil

def bitmapSetAfter (ops : List BitmapOp) : Set Nat := ops.foldl (fun s op => op.onSet s) ∅

def bitmapRegions (bmap : Bitmap) : Except Errno (List (Nat × Nat)) :=
  bitmapIterate bmap (fun start length regions => .ok (regions ++ [(start, length)])) []

structure BitmapHolds (bmap : Bitmap) (s : Set Nat) : Prop where
  union : ∀ b, bitmapMem (inorder bmap) b ↔ b ∈ s
  apart : (inorder bmap).Pairwise fun x y => x.stop ≤ y.start
  test : ∀ start len, 1 ≤ len → start + len + 1 < 2 ^ 64 →
    (bitmapTest bmap start len = true ↔ ∃ b ∈ s, start ≤ b ∧ b < start + len)
  iterate : ∃ regions, bitmapRegions bmap = .ok regions ∧
    ∀ b, b ∈ s ↔ ∃ r ∈ regions, r.1 ≤ b ∧ b < r.1 + r.2

/-- Every call returns no error and leaves a bitmap that stands for the right set. -/
def BitmapSound (ops : List BitmapOp) : Prop :=
  ∀ pre op, pre ++ [op] <+: ops →
    (bitmapStep bal (bitmapRun bal pre) op).2 = none ∧
      BitmapHolds (bitmapRun bal (pre ++ [op])) (bitmapSetAfter (pre ++ [op]))

/-- Every call fits the extents it finds. -/
def BitmapFits (ops : List BitmapOp) : Prop :=
  ∀ pre op, pre ++ [op] <+: ops → op.Fits (inorder (bitmapRun bal pre))

variable {bal} {bmap bmap' : Bitmap} {s : Set Nat} {op : BitmapOp} {ops pre : List BitmapOp}

theorem bitmapRun_snoc :
    bitmapRun bal (pre ++ [op]) = (bitmapStep bal (bitmapRun bal pre) op).1 := by
  rw [bitmapRun, foldl_append]
  rfl

theorem bitmapSetAfter_snoc : bitmapSetAfter (pre ++ [op]) = op.onSet (bitmapSetAfter pre) := by
  rw [bitmapSetAfter, foldl_append]
  rfl

theorem bitmapRegions_eq :
    bitmapRegions bmap = .ok ((inorder bmap).map fun x => (x.start, x.length)) := by
  have hgo : ∀ (l : List BitmapNode) (regions : List (Nat × Nat)),
      l.foldlM (fun regions ext => (.ok (regions ++ [(ext.start, ext.length)]) :
        Except Errno (List (Nat × Nat)))) regions =
      .ok (regions ++ l.map fun x => (x.start, x.length)) := by
    intro l
    induction l with
    | nil =>
      intro regions
      rw [map_nil, append_nil]
      rfl
    | cons x l ih =>
      intro regions
      rw [foldlM_cons, map_cons]
      exact (ih _).trans (by rw [append_assoc]; rfl)
  exact hgo (inorder bmap) []

section

variable (h : BitmapInv (inorder bmap))
include h

theorem BitmapInv.holds (hs : ∀ b, bitmapMem (inorder bmap) b ↔ b ∈ s) : BitmapHolds bmap s where
  union := hs
  apart := h.sep.pairwise
  test start len hlen hend := by
    rw [bitmapTest_iff h hlen (by omega)]
    constructor
    · rintro ⟨b, h1, h2, hb⟩
      exact ⟨b, (hs b).mp hb, h1, h2⟩
    · rintro ⟨b, hb, h1, h2⟩
      exact ⟨b, h1, h2, (hs b).mpr hb⟩
  iterate := by
    refine ⟨_, bitmapRegions_eq, fun b => ?_⟩
    rw [← hs b]
    simp [bitmapMem, BitmapNode.stop]

theorem bitmapStep_right (hop : op.InRange) (hfits : op.Fits (inorder bmap))
    (hs : ∀ b, bitmapMem (inorder bmap) b ↔ b ∈ s) :
    ∃ bmap', bitmapStep bal bmap op = (bmap', none) ∧ BitmapInv (inorder bmap') ∧
      ∀ b, bitmapMem (inorder bmap') b ↔ b ∈ op.onSet s := by
  cases op with
  | set start length =>
    obtain ⟨bmap', hrun, hinv, hmem⟩ := bitmapSet_right bal h hop.1 hop.2 hfits
    exact ⟨bmap', hrun, hinv, fun b => by rw [hmem, hs]; rfl⟩
  | clear start length =>
    obtain ⟨bmap', hrun, hinv, hmem⟩ := bitmapClear_right bal h hop.1
      (by have := hop.2; omega) hfits
    exact ⟨bmap', hrun, hinv, fun b => by rw [hmem, hs]; rfl⟩

theorem bitmapStep_wrong (hop : op.InRange) (hfits : ¬ op.Fits (inorder bmap))
    (hs : ∀ b, bitmapMem (inorder bmap) b ↔ b ∈ s) (hrun : bitmapStep bal bmap op = (bmap', none)) :
    ∃ b, ¬ (bitmapMem (inorder bmap') b ↔ b ∈ op.onSet s) := by
  cases op with
  | set start length =>
    obtain ⟨b, hb⟩ := bitmapSet_wrong bal h hop.1 hop.2 hfits hrun
    exact ⟨b, by rwa [hs] at hb⟩
  | clear start length =>
    obtain ⟨b, hb⟩ := bitmapClear_wrong bal h hop.1 hop.2 hfits hrun
    exact ⟨b, by rwa [hs] at hb⟩

end

theorem bitmapFits_nil : BitmapFits bal [] := by
  intro pre op hpre
  exact absurd (prefix_nil.mp hpre) (by simp)

theorem bitmapFits_snoc (ops : List BitmapOp) (op : BitmapOp) : BitmapFits bal (ops ++ [op]) ↔
      BitmapFits bal ops ∧ op.Fits (inorder (bitmapRun bal ops)) := by
  constructor
  · intro h
    exact ⟨fun pre op' hpre => h pre op' (hpre.trans (prefix_append _ _)), h ops op (prefix_refl _)⟩
  · rintro ⟨h, hop⟩ pre op' hpre
    rcases prefix_concat_iff.mp hpre with heq | hpre
    · obtain ⟨rfl, hlast⟩ := append_inj' heq rfl
      obtain rfl := singleton_inj.mp hlast
      exact hop
    · exact h pre op' hpre

theorem BitmapFits.of_prefix (h : BitmapFits bal ops) (hpre : pre <+: ops) : BitmapFits bal pre :=
  fun pre' op hpre' => h pre' op (hpre'.trans hpre)

theorem BitmapFits.run (hfits : BitmapFits bal ops) (hops : ∀ op ∈ ops, op.InRange) :
    BitmapInv (inorder (bitmapRun bal ops)) ∧
      ∀ b, bitmapMem (inorder (bitmapRun bal ops)) b ↔ b ∈ bitmapSetAfter ops := by
  induction ops using List.reverseRecOn with
  | nil => exact ⟨⟨separated_nil, by simp [bitmapRun, inorder]⟩, fun b => ⟨by
      rintro ⟨x, hx, -⟩
      exact absurd hx not_mem_nil, fun hb => absurd hb (Set.notMem_empty b)⟩⟩
  | append_singleton ops op ih =>
    obtain ⟨hfits, hop⟩ := (bitmapFits_snoc _ _).mp hfits
    obtain ⟨hinv, hmem⟩ := ih hfits fun op' hop' => hops op' (by simp [hop'])
    obtain ⟨bmap', hstep, hinv', hmem'⟩ := bitmapStep_right hinv (hops op (by simp)) hop hmem
    rw [bitmapRun_snoc, bitmapSetAfter_snoc, hstep]
    exact ⟨hinv', hmem'⟩

theorem BitmapFits.sound (hfits : BitmapFits bal ops) (hops : ∀ op ∈ ops, op.InRange) :
    BitmapSound bal ops := by
  intro pre op hpre
  have hin : ∀ op' ∈ pre ++ [op], op'.InRange := fun op' hop' => hops op' (hpre.subset hop')
  have hpre' := hfits.of_prefix hpre
  obtain ⟨hinv, hmem⟩ := hpre'.run hin
  obtain ⟨hfits0, hop⟩ := (bitmapFits_snoc _ _).mp hpre'
  obtain ⟨hinv0, hmem0⟩ := hfits0.run fun op' hop' => hin op' (by simp [hop'])
  obtain ⟨bmap', hstep, -⟩ : ∃ bmap', bitmapStep bal (bitmapRun bal pre) op = (bmap', none) ∧ _ :=
    bitmapStep_right hinv0 (hin op (by simp)) hop hmem0
  exact ⟨by rw [hstep], hinv.holds hmem⟩

theorem BitmapSound.fits (hsound : BitmapSound bal ops) (hops : ∀ op ∈ ops, op.InRange) :
    BitmapFits bal ops := by
  induction ops using List.reverseRecOn with
  | nil => exact bitmapFits_nil
  | append_singleton ops op ih =>
    have hops' : ∀ op' ∈ ops, op'.InRange := fun op' hop' => hops op' (by simp [hop'])
    have hfits : BitmapFits bal ops :=
      ih (fun pre op' hpre => hsound pre op' (hpre.trans (prefix_append _ _))) hops'
    obtain ⟨hinv, hmem⟩ := hfits.run hops'
    obtain ⟨hok, hholds⟩ := hsound ops op (prefix_refl _)
    rw [bitmapRun_snoc, bitmapSetAfter_snoc] at hholds
    refine (bitmapFits_snoc _ _).mpr ⟨hfits, ?_⟩
    by_contra hnot
    obtain ⟨b, hb⟩ := bitmapStep_wrong hinv (hops op (by simp)) hnot hmem (Prod.ext rfl hok)
    exact hb (hholds.union b)

/-- The bitmap is right after every call exactly when every call fits. -/
theorem bitmap_sound_iff (bal : Avl64Balance BitmapNode) (ops : List BitmapOp)
    (hops : ∀ op ∈ ops, op.InRange) : BitmapSound bal ops ↔ BitmapFits bal ops :=
  ⟨fun h => h.fits hops, fun h => h.sound hops⟩

/-- Setting a range next to another one, and one from zero on, and clearing over their ends. -/
theorem bitmap_sound_sample :
    BitmapSound ⟨id, fun _ => rfl⟩ [.set 10 10, .set 20 5, .set 0 4, .clear 2 10, .clear 23 9] := by
  refine (bitmap_sound_iff _ _ (by decide)).mpr ?_
  have h0 : BitmapFits ⟨id, fun _ => rfl⟩ [] := bitmapFits_nil
  have h1 := (bitmapFits_snoc _ (.set 10 10)).mpr ⟨h0, by decide⟩
  have h2 := (bitmapFits_snoc _ (.set 20 5)).mpr ⟨h1, by decide⟩
  have h3 := (bitmapFits_snoc _ (.set 0 4)).mpr ⟨h2, by decide⟩
  have h4 := (bitmapFits_snoc _ (.clear 2 10)).mpr ⟨h3, by decide⟩
  exact (bitmapFits_snoc _ (.clear 23 9)).mpr ⟨h4, by decide⟩

/-- Clearing the middle of an extent leaves extents that hold the largest integer. -/
theorem bitmap_clear_middle_wrong : (∀ op ∈ [BitmapOp.set 10 10, .clear 13 3], op.InRange) ∧
      ¬ BitmapSound ⟨id, fun _ => rfl⟩ [.set 10 10, .clear 13 3] := by
  refine ⟨by decide, fun hsound => ?_⟩
  obtain ⟨-, hholds⟩ := hsound [.set 10 10] (.clear 13 3) (prefix_refl _)
  have hmem : bitmapMem (inorder (bitmapRun ⟨id, fun _ => rfl⟩ [.set 10 10, .clear 13 3]))
      (2 ^ 64 - 1) := ⟨⟨16, 2 ^ 64 - 3⟩, by decide, by decide, by decide⟩
  have hin := (hholds.union (2 ^ 64 - 1)).mp hmem
  simp [bitmapSetAfter, BitmapOp.onSet] at hin

end

end Xfs
