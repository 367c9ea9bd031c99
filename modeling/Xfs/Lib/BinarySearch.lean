import Mathlib.Order.Defs.LinearOrder

/-! Binary search in items that are numbered from one, with a three-way comparison. The search ends
at an equal item, or at a neighbour of the place where such an item would be. -/
namespace BinarySearch

/-- Probe the middle of `low` to `high`. `keyno` was probed last, with answer `last`. -/
def search (cmp : Nat → Ordering) : Nat → Nat → Nat → Nat → Ordering → Nat × Ordering
  | 0, _, _, keyno, last => (keyno, last)
  | fuel + 1, low, high, keyno, last =>
    if low ≤ high then
      let keyno := (low + high) >>> 1
      match cmp keyno with
      | .lt => search cmp fuel (keyno + 1) high keyno .lt
      | .gt => search cmp fuel low (keyno - 1) keyno .gt
      | .eq => (keyno, .eq)
    else (keyno, last)

/-- The items are in order: an item that is not greater is behind lesser items only. -/
def Monotone (cmp : Nat → Ordering) (n : Nat) : Prop :=
  ∀ i j, 1 ≤ i → i < j → j ≤ n → cmp j ≠ .gt → cmp i = .lt

/-- What the search says about the items. -/
structure Found (cmp : Nat → Ordering) (n keyno : Nat) (last : Ordering) : Prop where
  pos : 1 ≤ keyno
  le : keyno ≤ n
  cmp_eq : cmp keyno = last
  before : ∀ i, 1 ≤ i → i < keyno → cmp i = .lt
  after : ∀ i, keyno < i → i ≤ n → cmp i = .gt

/-- Only the items from `low` to `high` are open, and the last probe is next to them. -/
structure Narrowed (cmp : Nat → Ordering) (n low high keyno : Nat) (last : Ordering) : Prop where
  low_pos : 1 ≤ low
  high_le : high ≤ n
  le : low ≤ high + 1
  before : ∀ i, 1 ≤ i → i < low → cmp i = .lt
  after : ∀ i, high < i → i ≤ n → cmp i = .gt
  probed : low ≤ high ∨ (1 ≤ keyno ∧ keyno ≤ n ∧ cmp keyno = last ∧
    (last = .lt ∧ keyno + 1 = low ∨ last = .gt ∧ keyno = high + 1))

variable {cmp : Nat → Ordering} {n fuel low high keyno : Nat} {last : Ordering}

theorem Narrowed.found (h : Narrowed cmp n low high keyno last) (hend : ¬ low ≤ high) :
    Found cmp n keyno last := by
  have hle := h.le
  obtain ⟨hpos, hn, hcmp, hside⟩ := h.probed.resolve_left hend
  refine ⟨hpos, hn, hcmp, fun i hi hlt => h.before i hi ?_, fun i hlt hi => h.after i ?_ hi⟩
  · rcases hside with ⟨-, heq⟩ | ⟨-, heq⟩ <;> omega
  · rcases hside with ⟨-, heq⟩ | ⟨-, heq⟩ <;> omega

theorem search_found (hmono : Monotone cmp n) (hfuel : high + 1 - low ≤ fuel)
    (h : Narrowed cmp n low high keyno last) :
    Found cmp n (search cmp fuel low high keyno last).1 (search cmp fuel low high keyno last).2 := by
  induction fuel generalizing low high keyno last with
  | zero => exact h.found (by omega)
  | succ fuel ih =>
    rw [search]
    by_cases hle : low ≤ high
    · rw [if_pos hle]
      have hlow := h.low_pos
      have hhigh := h.high_le
      have hmid : (low + high) >>> 1 = (low + high) / 2 := Nat.shiftRight_eq_div_pow _ 1
      generalize (low + high) >>> 1 = mid at hmid
      cases hcmp : cmp mid with
      | lt =>
        simp only [hcmp]
        refine ih (by omega) ⟨by omega, hhigh, by omega, fun i hi hlt => ?_, h.after,
          .inr ⟨by omega, by omega, hcmp, .inl ⟨rfl, rfl⟩⟩⟩
        rcases Nat.lt_or_eq_of_le (Nat.le_of_lt_succ hlt) with hlt' | rfl
        · exact hmono i mid hi hlt' (by omega) (by rw [hcmp]; exact Ordering.noConfusion)
        · exact hcmp
      | gt =>
        simp only [hcmp]
        refine ih (by omega) ⟨hlow, by omega, by omega, h.before, fun i hlt hi => ?_,
          .inr ⟨by omega, by omega, hcmp, .inr ⟨rfl, by omega⟩⟩⟩
        rcases Nat.lt_or_eq_of_le (show mid ≤ i by omega) with hlt' | rfl
        · by_contra hne
          have := hmono mid i (by omega) hlt' hi hne
          rw [hcmp] at this
          cases this
        · exact hcmp
      | eq =>
        simp only [hcmp]
        refine ⟨by omega, by omega, hcmp, fun i hi hlt => ?_, fun i hlt hi => ?_⟩
        · exact hmono i mid hi hlt (by omega) (by rw [hcmp]; exact Ordering.noConfusion)
        · by_contra hne
          have := hmono mid i (by omega) hlt hi hne
          rw [hcmp] at this
          cases this
    · rw [if_neg hle]
      exact h.found hle

theorem search_all (hmono : Monotone cmp n) (hn : 0 < n) (keyno : Nat) (last : Ordering) :
    Found cmp n (search cmp n 1 n keyno last).1 (search cmp n 1 n keyno last).2 :=
  search_found hmono (Nat.le_refl _) ⟨Nat.le_refl _, Nat.le_refl _, by omega,
    fun i hi hlt => by omega, fun i hlt hi => by omega, .inl hn⟩

/-- The predicate holds of the first `n` items of the list and of no other. -/
structure CutAt {α : Type} (p : α → Prop) (l : List α) (n : Nat) : Prop where
  le : n ≤ l.length
  iff : ∀ i x, l[i]? = some x → (i < n ↔ p x)

def bisect (p : Nat → Bool) : Nat → Nat → Nat → Nat
  | 0, _, last => last
  | fuel + 1, first, last =>
    let mid := (first + last) / 2
    if mid ≠ first ∧ mid ≠ last then
      if p mid then bisect p fuel first mid else bisect p fuel mid last
    else last

theorem bisect_spec {p : Nat → Bool} {fuel first last : Nat} (hlt : first < last)
    (hfirst : p first = false) (hlast : p last) (hfuel : last - first ≤ fuel) :
    first < bisect p fuel first last ∧ bisect p fuel first last ≤ last ∧
      p (bisect p fuel first last) ∧ p (bisect p fuel first last - 1) = false ∧
      (first + 1 < last → p ((first + last) / 2) → bisect p fuel first last ≤ (first + last) / 2) := by
  induction fuel generalizing first last with
  | zero => omega
  | succ fuel ih =>
    unfold bisect
    dsimp only
    split_ifs with hmid hp
    · obtain ⟨h1, h2, h3, h4, -⟩ := ih (by omega) hfirst hp (by omega)
      exact ⟨h1, by omega, h3, h4, fun _ _ => h2⟩
    · have hp' : p ((first + last) / 2) = false := by simpa using hp
      obtain ⟨h1, h2, h3, h4, -⟩ := ih (by omega) hp' hlast (by omega)
      exact ⟨by omega, h2, h3, h4, fun _ h => absurd h hp⟩
    · obtain rfl : last = first + 1 := by omega
      exact ⟨hlt, Nat.le_refl _, hlast, by simpa using hfirst, fun h => by omega⟩

variable {α : Type} {p : α → Prop} {l before after : List α}

theorem CutAt.nil (p : α → Prop) : CutAt p [] 0 := ⟨Nat.le_refl _, fun i x h => by simp at h⟩

/-- A cut of a part of a list is a cut of the list, if the rest is on the right sides. -/
theorem CutAt.append (h : CutAt p l n) (hbefore : ∀ x ∈ before, p x) (hafter : ∀ x ∈ after, ¬ p x) :
    CutAt p (before ++ (l ++ after)) (before.length + n) := by
  have hle := h.le
  refine ⟨by simp only [List.length_append]; omega, fun i x hx => ?_⟩
  by_cases hb : i < before.length
  · rw [List.getElem?_append_left hb] at hx
    have := hbefore x (List.mem_of_getElem? hx)
    exact ⟨fun _ => this, fun _ => by omega⟩
  rw [List.getElem?_append_right (by omega)] at hx
  by_cases hl : i - before.length < l.length
  · rw [List.getElem?_append_left hl] at hx
    rw [← h.iff _ _ hx]
    omega
  · rw [List.getElem?_append_right (by omega)] at hx
    have := hafter x (List.mem_of_getElem? hx)
    exact ⟨fun hlt => absurd hlt (by omega), fun hpx => absurd hpx this⟩

end BinarySearch
