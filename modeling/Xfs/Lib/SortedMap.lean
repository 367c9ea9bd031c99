import Mathlib.Data.List.Basic
import Mathlib.Order.Lattice

/-! Sorted maps as lists of keys and values in strictly increasing key order. The operations are
said by membership, and the list keeps its order under all of them. -/
namespace SortedMap

open List

variable {K V : Type} [LinearOrder K] {l : List (K × V)} {k k' : K} {v : V} {x y : K × V}

def Sorted (l : List (K × V)) : Prop := l.Pairwise fun x y => x.1 < y.1

/-- The item with the least key that is at least `k`. -/
def find (l : List (K × V)) (k : K) : Option (K × V) := l.find? fun x => decide (k ≤ x.1)

def after (l : List (K × V)) (k : K) : Option (K × V) := l.find? fun x => decide (k < x.1)

def before (l : List (K × V)) (k : K) : Option (K × V) :=
  (l.filter fun x => decide (x.1 < k)).getLast?

def insert (l : List (K × V)) (k : K) (v : V) : List (K × V) :=
  (l.filter fun x => decide (x.1 < k)) ++ (k, v) :: l.filter fun x => decide (k < x.1)

def erase (l : List (K × V)) (k : K) : List (K × V) := l.filter fun x => decide (x.1 ≠ k)

def setValue (l : List (K × V)) (k : K) (v : V) : List (K × V) :=
  l.map fun x => if x.1 = k then (k, v) else x

def setKey (l : List (K × V)) (k k' : K) : List (K × V) :=
  l.map fun x => if x.1 = k then (k', x.2) else x

theorem sorted_cons : Sorted (x :: l) ↔ (∀ y ∈ l, x.1 < y.1) ∧ Sorted l := pairwise_cons

theorem Sorted.eq_of_key (h : Sorted l) (hx : x ∈ l) (hy : y ∈ l) (hk : x.1 = y.1) : x = y := by
  induction l with
  | nil => exact absurd hx not_mem_nil
  | cons z l ih =>
    obtain ⟨hz, hl⟩ := sorted_cons.mp h
    rcases mem_cons.mp hx with rfl | hx' <;> rcases mem_cons.mp hy with rfl | hy'
    · rfl
    · exact absurd hk (ne_of_lt (hz y hy'))
    · exact absurd hk.symm (ne_of_lt (hz x hx'))
    · exact ih hl hx' hy'

/-- The first item whose key satisfies a condition that larger keys keep. -/
theorem Sorted.find?_some (h : Sorted l) {p : K → Bool} (hx : (l.find? fun x => p x.1) = some x) :
    x ∈ l ∧ p x.1 ∧ ∀ y ∈ l, y.1 < x.1 → p y.1 = false := by
  induction l with
  | nil => cases hx
  | cons z l ih =>
    obtain ⟨hz, hl⟩ := sorted_cons.mp h
    rw [find?_cons] at hx
    cases hp : p z.1 with
    | true =>
      rw [hp] at hx
      obtain rfl := Option.some.inj hx
      refine ⟨mem_cons_self, hp, fun y hy hlt => ?_⟩
      rcases mem_cons.mp hy with rfl | hy
      · exact absurd hlt (lt_irrefl _)
      · exact absurd hlt (lt_asymm (hz y hy))
    | false =>
      rw [hp] at hx
      obtain ⟨hmem, hpx, hbefore⟩ := ih hl hx
      refine ⟨mem_cons_of_mem _ hmem, hpx, fun y hy hlt => ?_⟩
      rcases mem_cons.mp hy with rfl | hy
      · exact hp
      · exact hbefore y hy hlt

theorem Sorted.find_some (h : Sorted l) (hx : find l k = some x) :
    x ∈ l ∧ k ≤ x.1 ∧ ∀ y ∈ l, k ≤ y.1 → x.1 ≤ y.1 := by
  obtain ⟨hmem, hp, hbefore⟩ := h.find?_some (p := fun a => decide (k ≤ a)) hx
  refine ⟨hmem, of_decide_eq_true hp, fun y hy hk => ?_⟩
  by_contra hlt
  exact absurd hk (of_decide_eq_false (hbefore y hy (not_le.mp hlt)))

theorem Sorted.find_self (h : Sorted l) (hx : (k, v) ∈ l) : find l k = some (k, v) := by
  cases hf : find l k with
  | none =>
    have := find?_eq_none.mp hf _ hx
    exact absurd (decide_eq_true (le_refl k)) this
  | some y =>
    obtain ⟨hy, hle, hfirst⟩ := h.find_some hf
    rw [h.eq_of_key hy hx (le_antisymm (hfirst _ hx le_rfl) hle)]

theorem find_none (hx : find l k = none) : ∀ y ∈ l, y.1 < k := by
  intro y hy
  have := find?_eq_none.mp hx y hy
  exact not_le.mp fun hle => this (decide_eq_true hle)

theorem Sorted.after_some (h : Sorted l) (hx : after l k = some x) :
    x ∈ l ∧ k < x.1 ∧ ∀ y ∈ l, k < y.1 → x.1 ≤ y.1 := by
  obtain ⟨hmem, hp, hbefore⟩ := h.find?_some (p := fun a => decide (k < a)) hx
  refine ⟨hmem, of_decide_eq_true hp, fun y hy hk => ?_⟩
  by_contra hlt
  exact absurd hk (of_decide_eq_false (hbefore y hy (not_le.mp hlt)))

theorem after_none (hx : after l k = none) : ∀ y ∈ l, y.1 ≤ k := by
  intro y hy
  have := find?_eq_none.mp hx y hy
  exact not_lt.mp fun hlt => this (decide_eq_true hlt)

theorem Sorted.after_cons_cons {A B : List (K × V)} (h : Sorted (A ++ x :: y :: B)) :
    after (A ++ x :: y :: B) x.1 = some y := by
  obtain ⟨-, hxy, hA⟩ := pairwise_append.mp h
  have hnone : (A.find? fun z => decide (x.1 < z.1)) = none :=
    find?_eq_none.mpr fun z hz => by
      simpa using le_of_lt (hA z hz x mem_cons_self)
  have hlt : x.1 < y.1 := (sorted_cons.mp hxy).1 y mem_cons_self
  rw [after, find?_append, hnone, Option.none_or, find?_cons, find?_cons,
    decide_eq_false (lt_irrefl x.1), decide_eq_true hlt]

theorem Sorted.before_some (h : Sorted l) (hx : before l k = some x) :
    x ∈ l ∧ x.1 < k ∧ ∀ y ∈ l, y.1 < k → y.1 ≤ x.1 := by
  have hsorted : Sorted (l.filter fun x => decide (x.1 < k)) := h.filter _
  obtain ⟨A, hA⟩ := getLast?_eq_some_iff.mp hx
  have hmem : x ∈ l.filter fun x => decide (x.1 < k) := by rw [hA]; simp
  obtain ⟨hxl, hxk⟩ := mem_filter.mp hmem
  refine ⟨hxl, of_decide_eq_true hxk, fun y hy hlt => ?_⟩
  have hy' : y ∈ A ++ [x] := hA ▸ mem_filter.mpr ⟨hy, decide_eq_true hlt⟩
  rcases mem_append.mp hy' with hyA | hyx
  · rw [hA] at hsorted
    exact le_of_lt ((pairwise_append.mp hsorted).2.2 y hyA x mem_cons_self)
  · rw [mem_singleton.mp hyx]

theorem before_none (hx : before l k = none) : ∀ y ∈ l, k ≤ y.1 := by
  intro y hy
  by_contra hlt
  have hmem : y ∈ l.filter fun x => decide (x.1 < k) :=
    mem_filter.mpr ⟨hy, decide_eq_true (not_le.mp hlt)⟩
  rw [getLast?_eq_none_iff.mp hx] at hmem
  exact not_mem_nil hmem

theorem mem_insert : x ∈ insert l k v ↔ x = (k, v) ∨ x ∈ l ∧ x.1 ≠ k := by
  simp only [insert, mem_append, mem_cons, mem_filter, decide_eq_true_eq]
  constructor
  · rintro (⟨hx, hlt⟩ | rfl | ⟨hx, hlt⟩)
    · exact .inr ⟨hx, ne_of_lt hlt⟩
    · exact .inl rfl
    · exact .inr ⟨hx, (ne_of_lt hlt).symm⟩
  · rintro (rfl | ⟨hx, hne⟩)
    · exact .inr (.inl rfl)
    · rcases lt_or_gt_of_ne hne with hlt | hlt
      · exact .inl ⟨hx, hlt⟩
      · exact .inr (.inr ⟨hx, hlt⟩)

theorem Sorted.insert (h : Sorted l) : Sorted (insert l k v) := by
  refine pairwise_append.mpr ⟨h.filter _, pairwise_cons.mpr ⟨fun y hy => ?_,
    h.filter _⟩, fun y hy z hz => ?_⟩
  · exact of_decide_eq_true (mem_filter.mp hy).2
  · have hyk : y.1 < k := of_decide_eq_true (mem_filter.mp hy).2
    rcases mem_cons.mp hz with rfl | hz
    · exact hyk
    · exact lt_trans hyk (of_decide_eq_true (mem_filter.mp hz).2)

theorem mem_erase : x ∈ erase l k ↔ x ∈ l ∧ x.1 ≠ k := by simp [erase]

theorem Sorted.erase (h : Sorted l) : Sorted (erase l k) := h.filter _

theorem mem_setValue : x ∈ setValue l k v ↔ (x ∈ l ∧ x.1 ≠ k) ∨ x = (k, v) ∧ ∃ y ∈ l, y.1 = k := by
  simp only [setValue, mem_map]
  constructor
  · rintro ⟨y, hy, rfl⟩
    by_cases hk : y.1 = k
    · exact .inr ⟨by rw [if_pos hk], y, hy, hk⟩
    · rw [if_neg hk]
      exact .inl ⟨hy, hk⟩
  · rintro (⟨hx, hne⟩ | ⟨rfl, y, hy, hk⟩)
    · exact ⟨x, hx, if_neg hne⟩
    · exact ⟨y, hy, if_pos hk⟩

theorem Sorted.setValue (h : Sorted l) : Sorted (setValue l k v) := by
  have hkey : ∀ y : K × V, (if y.1 = k then (k, v) else y).1 = y.1 := by
    intro y
    split_ifs with hk
    · exact hk.symm
    · rfl
  exact pairwise_map.mpr (h.imp fun hlt => by rwa [hkey, hkey])

theorem mem_setKey : x ∈ setKey l k k' ↔ (x ∈ l ∧ x.1 ≠ k) ∨ x.1 = k' ∧ (k, x.2) ∈ l := by
  simp only [setKey, mem_map]
  constructor
  · rintro ⟨y, hy, rfl⟩
    by_cases hk : y.1 = k
    · rw [if_pos hk]
      exact .inr ⟨rfl, hk ▸ hy⟩
    · rw [if_neg hk]
      exact .inl ⟨hy, hk⟩
  · rintro (⟨hx, hne⟩ | ⟨hk, hy⟩)
    · exact ⟨x, hx, if_neg hne⟩
    · exact ⟨(k, x.2), hy, by rw [if_pos rfl, ← hk]⟩

theorem Sorted.setKey (h : Sorted l) (hlo : ∀ y ∈ l, y.1 < k → y.1 < k')
    (hhi : ∀ y ∈ l, k < y.1 → k' < y.1) : Sorted (setKey l k k') := by
  refine pairwise_map.mpr (h.imp_of_mem fun {y z} hy hz hlt => ?_)
  by_cases hyk : y.1 = k <;> by_cases hzk : z.1 = k
  · exact absurd (hyk.trans hzk.symm) (ne_of_lt hlt)
  · rw [if_pos hyk, if_neg hzk]
    exact hhi z hz (hyk ▸ hlt)
  · rw [if_neg hyk, if_pos hzk]
    exact hlo y hy (hzk ▸ hlt)
  · rwa [if_neg hyk, if_neg hzk]

end SortedMap
