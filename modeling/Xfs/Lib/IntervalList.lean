import Mathlib.Data.List.Basic
import Mathlib.Data.List.Nodup
import Mathlib.Order.Lattice

/-! Half-open intervals in a list, from left to right and without overlaps, and the part of the
list that meets a window. -/
namespace IntervalList

open List

variable {α K : Type} [LinearOrder K] {lo hi : α → K} {l l₁ l₂ : List α} {a c : K} {x y : α}

/-- The intervals are not empty and each ends before the later ones start. -/
structure Separated (lo hi : α → K) (l : List α) : Prop where
  nonempty : ∀ x ∈ l, lo x < hi x
  pairwise : l.Pairwise fun x y => hi x ≤ lo y

theorem separated_nil : Separated lo hi ([] : List α) :=
  ⟨fun _ hx => absurd hx not_mem_nil, List.Pairwise.nil⟩

theorem separated_cons :
    Separated lo hi (x :: l) ↔ lo x < hi x ∧ (∀ y ∈ l, hi x ≤ lo y) ∧ Separated lo hi l := by
  constructor
  · rintro ⟨h1, h2⟩
    obtain ⟨h3, h4⟩ := pairwise_cons.mp h2
    exact ⟨h1 x mem_cons_self, h3, fun y hy => h1 y (mem_cons_of_mem _ hy), h4⟩
  · rintro ⟨h1, h2, h3⟩
    refine ⟨fun y hy => ?_, pairwise_cons.mpr ⟨h2, h3.pairwise⟩⟩
    rcases mem_cons.mp hy with rfl | hy
    · exact h1
    · exact h3.nonempty y hy

theorem separated_append : Separated lo hi (l₁ ++ l₂) ↔
      Separated lo hi l₁ ∧ Separated lo hi l₂ ∧ ∀ x ∈ l₁, ∀ y ∈ l₂, hi x ≤ lo y := by
  constructor
  · rintro ⟨h1, h2⟩
    obtain ⟨h3, h4, h5⟩ := pairwise_append.mp h2
    exact ⟨⟨fun x hx => h1 x (mem_append_left _ hx), h3⟩,
      ⟨fun x hx => h1 x (mem_append_right _ hx), h4⟩, h5⟩
  · rintro ⟨h1, h2, h3⟩
    refine ⟨fun x hx => ?_, pairwise_append.mpr ⟨h1.pairwise, h2.pairwise, h3⟩⟩
    rcases mem_append.mp hx with hx | hx
    · exact h1.nonempty x hx
    · exact h2.nonempty x hx

theorem Separated.nodup (h : Separated lo hi l) : l.Nodup := by
  refine nodup_iff_pairwise_ne.mpr (h.pairwise.imp_of_mem fun hx _ hle heq => ?_)
  rw [← heq] at hle
  exact absurd (h.nonempty _ hx) (not_lt.mpr hle)

theorem Separated.eq_or_apart (h : Separated lo hi l) (hx : x ∈ l) (hy : y ∈ l) :
    x = y ∨ hi x ≤ lo y ∨ hi y ≤ lo x := by
  induction l with
  | nil => exact absurd hx not_mem_nil
  | cons z l ih =>
    obtain ⟨-, h2, h3⟩ := separated_cons.mp h
    rcases mem_cons.mp hx with rfl | hx' <;> rcases mem_cons.mp hy with rfl | hy'
    · exact .inl rfl
    · exact .inr (.inl (h2 y hy'))
    · exact .inr (.inr (h2 x hx'))
    · exact ih h3 hx' hy'

def below (hi : α → K) (a : K) (l : List α) : List α := l.filter fun x => decide (hi x ≤ a)

def window (lo hi : α → K) (a c : K) (l : List α) : List α :=
  l.filter fun x => decide (a < hi x ∧ lo x < c)

def above (lo : α → K) (c : K) (l : List α) : List α := l.filter fun x => decide (c ≤ lo x)

theorem mem_below : x ∈ below hi a l ↔ x ∈ l ∧ hi x ≤ a := by simp [below]

theorem mem_window : x ∈ window lo hi a c l ↔ x ∈ l ∧ a < hi x ∧ lo x < c := by simp [window]

theorem mem_above : x ∈ above lo c l ↔ x ∈ l ∧ c ≤ lo x := by simp [above]

/-- What is before, in and behind the window is the whole list, in this order. -/
theorem Separated.split (h : Separated lo hi l) (hac : a ≤ c) :
    l = below hi a l ++ (window lo hi a c l ++ above lo c l) := by
  induction l with
  | nil => rfl
  | cons x l ih =>
    obtain ⟨h1, h2, h3⟩ := separated_cons.mp h
    have ih := ih h3
    by_cases hb : hi x ≤ a
    · have hlo : lo x < c := lt_of_lt_of_le h1 (le_trans hb hac)
      simp only [below, window, above, hb, not_lt.mpr hb, not_le.mpr hlo, filter_cons,
        decide_true, decide_false, false_and, if_true, Bool.false_eq_true, if_false,
        cons_append]
      exact congrArg _ ih
    have hlt := not_le.mp hb
    -- nothing that follows ends before the window
    have hbelow : below hi a l = [] := by
      refine filter_eq_nil_iff.mpr fun y hy => ?_
      have : a < hi y := lt_trans (lt_of_lt_of_le hlt (h2 y hy)) (h3.nonempty y hy)
      simpa using this
    by_cases hw : lo x < c
    · rw [hbelow] at ih
      simp only [below, window, above, hb, hlt, hw, not_le.mpr hw, filter_cons,
        decide_true, decide_false, and_self, if_true, Bool.false_eq_true, if_false,
        cons_append] at hbelow ih ⊢
      rw [hbelow]
      exact congrArg _ ih
    have hge := not_lt.mp hw
    have hwindow : window lo hi a c l = [] := by
      refine filter_eq_nil_iff.mpr fun y hy => ?_
      have : c ≤ lo y := le_trans (le_trans hge (le_of_lt h1)) (h2 y hy)
      simp [not_lt.mpr this]
    rw [hbelow, hwindow] at ih
    simp only [below, window, above, hb, hlt, hw, hge, filter_cons, decide_true,
      decide_false, and_false, if_true, Bool.false_eq_true, if_false, nil_append]
      at hbelow hwindow ih ⊢
    rw [hbelow, hwindow]
    exact congrArg _ ih

end IntervalList
