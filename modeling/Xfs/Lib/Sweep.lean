import Mathlib.Data.List.Basic
import Mathlib.Order.Lattice

/-! A sweep over intervals of numbers that come in the order of their first numbers. The highest last
number so far tells where the numbers that are covered without a gap end. -/
namespace Sweep

open List

variable {α : Type} {lo hi : α → Nat} {overlapping : Bool} {high first last b : Nat} {l : List α}

/-- A sweep covers everything up to a number, or stops at a gap or an overlap. -/
inductive End where
  | reaches (high : Nat)
  | gap
  | overlap

/-- Sweep over intervals when everything up to `high` is covered. -/
def sweep (lo hi : α → Nat) (overlapping : Bool) : Nat → List α → End
  | high, [] => .reaches high
  | high, x :: l =>
    if lo x < high + 1 ∧ overlapping = false then .overlap
    else if high + 1 < lo x then .gap
    else sweep lo hi overlapping (max high (hi x)) l

/-- One of the intervals has the number. -/
def Covers (lo hi : α → Nat) (l : List α) (b : Nat) : Prop := ∃ x ∈ l, lo x ≤ b ∧ b ≤ hi x

theorem Covers.mem {x : α} (hx : x ∈ l) (hlo : lo x ≤ b) (hhi : b ≤ hi x) :
    Covers lo hi l b := ⟨x, hx, hlo, hhi⟩

theorem Covers.cons {x : α} (h : Covers lo hi l b) : Covers lo hi (x :: l) b := by
  obtain ⟨y, hy, hyb⟩ := h
  exact ⟨y, mem_cons_of_mem _ hy, hyb⟩

theorem sweep_reaches {high' : Nat} (h : sweep lo hi overlapping high l = .reaches high') :
    high ≤ high' ∧ (∀ x ∈ l, hi x ≤ high') ∧ ∀ b, high < b → b ≤ high' → Covers lo hi l b := by
  induction l generalizing high with
  | nil =>
    cases h
    exact ⟨le_rfl, fun _ hx => absurd hx not_mem_nil, fun b hb hb' => by omega⟩
  | cons x l ih =>
    rw [sweep] at h
    split_ifs at h with hover hgap
    obtain ⟨hle, hmem, hcov⟩ := ih h
    have hhigh : high ≤ high' := le_trans (le_max_left _ _) hle
    have hx : hi x ≤ high' := le_trans (le_max_right _ _) hle
    refine ⟨hhigh, ?_, ?_⟩
    · intro y hy
      rcases mem_cons.mp hy with rfl | hy
      · exact hx
      · exact hmem y hy
    · intro b hb hb'
      by_cases hbx : b ≤ hi x
      · exact .mem mem_cons_self (by omega) hbx
      · exact (hcov b (by omega) hb').cons

theorem sweep_gap (hsorted : l.Pairwise fun x y => lo x ≤ lo y)
    (h : sweep lo hi overlapping high l = .gap) :
    ∃ g, high < g ∧ ¬ Covers lo hi l g ∧ ∃ x ∈ l, g < lo x := by
  induction l generalizing high with
  | nil => cases h
  | cons x l ih =>
    obtain ⟨hfirst, hrest⟩ := pairwise_cons.mp hsorted
    rw [sweep] at h
    split_ifs at h with hover hgap
    · refine ⟨high + 1, by omega, ?_, x, mem_cons_self, hgap⟩
      rintro ⟨y, hy, hlo, -⟩
      rcases mem_cons.mp hy with rfl | hy
      · omega
      · have := hfirst y hy
        omega
    · obtain ⟨g, hg, hcov, y, hy, hgy⟩ := ih hrest h
      refine ⟨g, by omega, ?_, y, mem_cons_of_mem _ hy, hgy⟩
      rintro ⟨z, hz, hlo, hhi⟩
      rcases mem_cons.mp hz with rfl | hz
      · omega
      · exact hcov ⟨z, hz, hlo, hhi⟩

theorem sweep_overlap (h : sweep lo hi overlapping high l = .overlap) :
    overlapping = false ∧ ∃ xs y ys, l = xs ++ y :: ys ∧ (lo y ≤ high ∨ ∃ x ∈ xs, lo y ≤ hi x) := by
  induction l generalizing high with
  | nil => cases h
  | cons x l ih =>
    rw [sweep] at h
    split_ifs at h with hover hgap
    · exact ⟨hover.2, [], x, l, rfl, .inl (by omega)⟩
    obtain ⟨hno, xs, y, ys, rfl, hy⟩ := ih h
    refine ⟨hno, x :: xs, y, ys, rfl, ?_⟩
    rcases hy with hy | ⟨z, hz, hyz⟩
    · by_cases hle : lo y ≤ high
      · exact .inl hle
      · exact .inr ⟨x, mem_cons_self, by omega⟩
    · exact .inr ⟨z, mem_cons_of_mem _ hz, hyz⟩

inductive Packing where
  | empty
  | sparse
  | full
deriving DecidableEq, Repr

/-- The packing of the numbers from `first` to `last`. -/
structure Packs (covered : Nat → Prop) (first last : Nat) (p : Packing) : Prop where
  empty_iff : p = .empty ↔ ∀ b, first ≤ b → b ≤ last → ¬ covered b
  full_iff : p = .full ↔ ∀ b, first ≤ b → b ≤ last → covered b

variable {covered covered' : Nat → Prop} {p : Packing}

theorem Packs.empty (hle : first ≤ last) (h : ∀ b, first ≤ b → b ≤ last → ¬ covered b) :
    Packs covered first last .empty :=
  ⟨⟨fun _ => h, fun _ => rfl⟩,
    ⟨Packing.noConfusion, fun hfull => absurd (hfull first (le_refl _) hle) (h first (le_refl _) hle)⟩⟩

theorem Packs.full (hle : first ≤ last) (h : ∀ b, first ≤ b → b ≤ last → covered b) :
    Packs covered first last .full :=
  ⟨⟨Packing.noConfusion, fun hempty => absurd (h first (le_refl _) hle) (hempty first (le_refl _) hle)⟩,
    ⟨fun _ => h, fun _ => rfl⟩⟩

theorem Packs.sparse {c : Nat} (hb : first ≤ b ∧ b ≤ last) (hcov : covered b)
    (hc : first ≤ c ∧ c ≤ last) (hnot : ¬ covered c) : Packs covered first last .sparse :=
  ⟨⟨Packing.noConfusion, fun hempty => absurd hcov (hempty b hb.1 hb.2)⟩,
    ⟨Packing.noConfusion, fun hfull => absurd (hfull c hc.1 hc.2) hnot⟩⟩

theorem Packs.shift {off : Nat} (h : Packs covered (first + off) (last + off) p)
    (hcov : ∀ b, first ≤ b → b ≤ last → (covered' b ↔ covered (b + off))) :
    Packs covered' first last p := by
  have hall : ∀ q : Prop → Prop, (∀ b, first + off ≤ b → b ≤ last + off → q (covered b)) ↔
      ∀ b, first ≤ b → b ≤ last → q (covered' b) := by
    intro q
    constructor
    · intro hq b hb hb'
      rw [hcov b hb hb']
      exact hq (b + off) (by omega) (by omega)
    · intro hq b hb hb'
      obtain ⟨c, rfl⟩ := Nat.exists_eq_add_of_le' (show off ≤ b by omega)
      rw [← hcov c (by omega) (by omega)]
      exact hq c (by omega) (by omega)
  exact ⟨h.empty_iff.trans (hall Not), h.full_iff.trans (hall id)⟩

theorem Packs.congr (h : Packs covered first last p)
    (hcov : ∀ b, first ≤ b → b ≤ last → (covered' b ↔ covered b)) : Packs covered' first last p :=
  Packs.shift (show Packs covered (first + 0) (last + 0) p from h) hcov

/-- Intervals that meet a range, in order, with all numbers of it that are covered. -/
structure Meets (lo hi : α → Nat) (covered : Nat → Prop) (first last : Nat) (l : List α) : Prop where
  le : first ≤ last
  meets : ∀ x ∈ l, lo x ≤ hi x ∧ lo x ≤ last ∧ first ≤ hi x
  sorted : l.Pairwise fun x y => lo x ≤ lo y
  covered_iff : ∀ b, first ≤ b → b ≤ last → (covered b ↔ Covers lo hi l b)

theorem Meets.packs_nil (h : Meets lo hi covered first last ([] : List α)) :
    Packs covered first last .empty := by
  refine .empty h.le fun b hb hb' hcov => ?_
  obtain ⟨x, hx, -⟩ := (h.covered_iff b hb hb').mp hcov
  exact absurd hx not_mem_nil

section

variable {x : α} (h : Meets lo hi covered first last (x :: l))
include h

theorem Meets.exists_covered : ∃ b, (first ≤ b ∧ b ≤ last) ∧ covered b := by
  obtain ⟨hle, hlast, hfirst⟩ := h.meets x mem_cons_self
  have := h.le
  refine ⟨max first (lo x), by omega, (h.covered_iff _ (by omega) (by omega)).mpr ?_⟩
  exact .mem mem_cons_self (by omega) (by omega)

theorem Meets.packs_hole (hhole : first < lo x) : Packs covered first last .sparse := by
  obtain ⟨b, hb, hcov⟩ := h.exists_covered
  refine .sparse hb hcov ⟨le_refl _, h.le⟩ fun hfirst => ?_
  obtain ⟨y, hy, hlo, -⟩ := (h.covered_iff first (le_refl _) h.le).mp hfirst
  rcases mem_cons.mp hy with rfl | hy
  · omega
  · have := (pairwise_cons.mp h.sorted).1 y hy
    omega

theorem Meets.packs_gap (hgap : sweep lo hi overlapping (hi x) l = .gap) :
    Packs covered first last .sparse := by
  obtain ⟨b, hb, hcov⟩ := h.exists_covered
  obtain ⟨g, hg, hnot, y, hy, hgy⟩ := sweep_gap (pairwise_cons.mp h.sorted).2 hgap
  have hx := h.meets x mem_cons_self
  have hy' := h.meets y (mem_cons_of_mem _ hy)
  refine .sparse hb hcov (show first ≤ g ∧ g ≤ last by omega) fun hg' => ?_
  obtain ⟨z, hz, hlo, hhi⟩ := (h.covered_iff g (by omega) (by omega)).mp hg'
  rcases mem_cons.mp hz with rfl | hz
  · omega
  · exact hnot ⟨z, hz, hlo, hhi⟩

theorem Meets.packs_reaches (hstart : lo x ≤ first)
    (hend : sweep lo hi overlapping (hi x) l = .reaches high) :
    Packs covered first last (if high < last then .sparse else .full) := by
  obtain ⟨hle, hmem, hcov⟩ := sweep_reaches hend
  split_ifs with hlt
  · obtain ⟨b, hb, hcov'⟩ := h.exists_covered
    refine .sparse hb hcov' ⟨h.le, le_refl _⟩ fun hlast => ?_
    obtain ⟨z, hz, -, hhi⟩ := (h.covered_iff last h.le (le_refl _)).mp hlast
    rcases mem_cons.mp hz with rfl | hz
    · omega
    · have := hmem z hz
      omega
  · refine .full h.le fun b hb hb' => (h.covered_iff b hb hb').mpr ?_
    by_cases hbx : b ≤ hi x
    · exact .mem mem_cons_self (by omega) hbx
    · exact (hcov b (by omega) (by omega)).cons

end

end Sweep
