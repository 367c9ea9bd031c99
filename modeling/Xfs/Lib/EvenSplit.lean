import Mathlib.Algebra.BigOperators.Group.List.Basic
import Mathlib.Algebra.Order.BigOperators.Group.List
import Mathlib.Algebra.Group.Action.Defs
import Mathlib.Tactic.Ring
import Mathlib.Tactic.Linarith

/-! Spreading a number of items evenly over blocks: how many blocks are taken
for a wanted load, and how much each block then receives. -/
namespace Xfs.EvenSplit

open List

variable {nr desired maxnr b m k : Nat}

/-- Blocks for `nr` items at the wanted load, with one more when they do not fit. -/
def blocks (nr desired maxnr : Nat) : Nat :=
  if max 1 (nr / desired) * maxnr < nr then max 1 (nr / desired) + 1 else max 1 (nr / desired)

/-- The load of each of `b` blocks; the first ones take the remainder. -/
def loads (nr b : Nat) : List Nat :=
  (List.range b).map fun i => nr / b + if i < nr % b then 1 else 0

@[simp] theorem length_loads : (loads nr b).length = b := by simp [loads]

theorem sum_indicator (n r : Nat) :
    ((List.range n).map fun i => if i < r then 1 else 0).sum = min r n := by
  induction n with
  | zero => simp
  | succ n ih =>
    rw [range_succ, map_append, sum_append, ih]
    simp only [map_cons, map_nil, sum_cons, sum_nil]
    split_ifs <;> omega

theorem sum_loads (hb : 0 < b) : (loads nr b).sum = nr := by
  have hsum : (loads nr b).sum = b * (nr / b) + min (nr % b) b := by
    rw [loads, sum_map_add, sum_indicator]
    simp
  have hmod := Nat.mod_lt nr hb
  have hdiv := Nat.div_add_mod nr b
  omega

/-- No block is over `m` exactly when the items fit `b` blocks of `m`. -/
theorem loads_le_iff (hb : 0 < b) : (∀ x ∈ loads nr b, x ≤ m) ↔ nr ≤ b * m := by
  have hdiv := Nat.div_add_mod nr b
  constructor
  · intro h
    have hsum := sum_le_card_nsmul (loads nr b) m h
    rw [sum_loads hb, length_loads, smul_eq_mul] at hsum
    exact hsum
  · intro h x hx
    obtain ⟨i, -, rfl⟩ := mem_map.mp hx
    have hq : nr / b ≤ m := Nat.div_le_of_le_mul h
    split_ifs with hi
    · have hlt : nr / b ≠ m := by
        rintro rfl
        omega
      omega
    · omega

/-- No block is below `m` exactly when there are items for `b` blocks of `m`. -/
theorem le_loads_iff (hb : 0 < b) : (∀ x ∈ loads nr b, m ≤ x) ↔ b * m ≤ nr := by
  constructor
  · intro h
    have hsum := card_nsmul_le_sum (loads nr b) m h
    rw [sum_loads hb, length_loads, smul_eq_mul] at hsum
    exact hsum
  · intro h x hx
    obtain ⟨i, -, rfl⟩ := mem_map.mp hx
    have hq : m ≤ nr / b := (Nat.le_div_iff_mul_le hb).mpr (by rwa [mul_comm])
    omega

/-- A full quotient with a remainder, or more than that, is more than `b` blocks
of `m`. -/
theorem over_iff (nr : Nat) (hb : 0 < b) : (nr / b > m ∨ nr / b = m ∧ nr % b > 0) ↔ b * m < nr := by
  have hdiv := Nat.div_add_mod nr b
  constructor
  · rintro (h | ⟨rfl, h⟩)
    · have h1 : (m + 1) * b ≤ nr := (Nat.le_div_iff_mul_le hb).mp h
      have hmul : (m + 1) * b = b * m + b := by ring
      omega
    · omega
  · intro h
    rcases lt_trichotomy (nr / b) m with hq | hq | hq
    · have h1 := (Nat.div_lt_iff_lt_mul hb).mp hq
      rw [mul_comm] at h1
      omega
    · right
      rw [hq] at hdiv
      omega
    · exact .inl hq

theorem blocks_pos : 0 < blocks nr desired maxnr := by
  unfold blocks
  split_ifs <;> omega

theorem blocks_zero : blocks 0 desired maxnr = 1 := by
  simp [blocks]

theorem le_blocks_mul (nr : Nat) (hpos : 0 < desired) (hle : desired ≤ maxnr) :
    nr ≤ blocks nr desired maxnr * maxnr := by
  unfold blocks
  split_ifs with h
  · have h1 := Nat.lt_mul_div_succ nr hpos
    have h2 : nr / desired + 1 ≤ max 1 (nr / desired) + 1 := by omega
    calc nr ≤ desired * (nr / desired + 1) := h1.le
      _ ≤ maxnr * (max 1 (nr / desired) + 1) := Nat.mul_le_mul hle h2
      _ = _ := mul_comm _ _
  · omega

theorem blocks_mul_le (hm : m ≤ desired) (hhalf : 2 * m ≤ maxnr)
    (htwo : 2 ≤ blocks nr desired maxnr) : blocks nr desired maxnr * m ≤ nr := by
  have hdiv : nr / desired * desired ≤ nr := Nat.div_mul_le_self nr desired
  unfold blocks at htwo ⊢
  split_ifs at htwo ⊢ with h
  · calc (max 1 (nr / desired) + 1) * m ≤ (2 * max 1 (nr / desired)) * m :=
          Nat.mul_le_mul_right m (by omega)
      _ = max 1 (nr / desired) * (2 * m) := by ring
      _ ≤ max 1 (nr / desired) * maxnr := Nat.mul_le_mul_left _ hhalf
      _ ≤ nr := h.le
  · have h1 : max 1 (nr / desired) = nr / desired := by omega
    rw [h1]
    exact (Nat.mul_le_mul_left _ hm).trans hdiv

/-- A wanted load far over the maximum: at most two blocks are filled right. -/
theorem le_blocks_mul_iff (hbig : 2 * maxnr < desired) :
    nr ≤ blocks nr desired maxnr * maxnr ↔ nr ≤ 2 * maxnr := by
  have hpos : 0 < desired := by omega
  by_cases hlt : nr < desired
  · have h0 : nr / desired = 0 := Nat.div_eq_of_lt hlt
    unfold blocks
    rw [h0]
    rw [max_eq_left (Nat.zero_le 1)]
    split_ifs <;> omega
  have h1 : 1 ≤ nr / desired := (Nat.one_le_div_iff hpos).mpr (by omega)
  have h2 : max 1 (nr / desired) = nr / desired := by omega
  have hdiv : nr / desired * desired ≤ nr := Nat.div_mul_le_self nr desired
  have hover : 2 * (nr / desired) * maxnr < nr :=
    calc 2 * (nr / desired) * maxnr = nr / desired * (2 * maxnr) := by ring
      _ < nr / desired * desired := Nat.mul_lt_mul_of_pos_left hbig h1
      _ ≤ nr := hdiv
  have hb : blocks nr desired maxnr ≤ 2 * (nr / desired) := by
    unfold blocks
    rw [h2]
    split_ifs <;> omega
  have hmul := Nat.mul_le_mul_right maxnr hb
  constructor <;> intro h <;> omega

theorem blocks_le_iff (nr : Nat) (hpos : 0 < desired) (hle : desired ≤ maxnr) (hk : 1 ≤ k) :
    blocks nr desired maxnr ≤ k ↔ nr < (k + 1) * desired ∧ nr ≤ k * maxnr := by
  have hq : nr / desired ≤ k ↔ nr < (k + 1) * desired := by
    rw [← Nat.lt_succ_iff, Nat.div_lt_iff_lt_mul hpos]
  rw [← hq]
  unfold blocks
  by_cases heq : max 1 (nr / desired) = k
  · rw [heq]
    split_ifs <;> omega
  split_ifs with h
  · constructor
    · intro hb
      have h1 : nr / desired + 1 ≤ k := by omega
      refine ⟨by omega, ?_⟩
      have h2 := Nat.lt_mul_div_succ nr hpos
      calc nr ≤ desired * (nr / desired + 1) := h2.le
        _ ≤ maxnr * k := Nat.mul_le_mul hle h1
        _ = k * maxnr := mul_comm _ _
    · intro hb
      omega
  · constructor
    · intro hb
      refine ⟨by omega, ?_⟩
      have h1 := Nat.mul_le_mul_right maxnr hb
      omega
    · intro hb
      omega

theorem blocks_le_self (hmax : 0 < maxnr) (hnr : 0 < nr) : blocks nr desired maxnr ≤ nr := by
  have hdiv : nr / desired ≤ nr := Nat.div_le_self _ _
  unfold blocks
  split_ifs with h
  · have h1 : max 1 (nr / desired) * 1 ≤ max 1 (nr / desired) * maxnr :=
      Nat.mul_le_mul_left _ hmax
    omega
  · omega

theorem div_blocks_lt (nr : Nat) (hd : desired ≤ m) (hm : maxnr < m) (hpos : 0 < desired) :
    nr / blocks nr desired maxnr < m := by
  unfold blocks
  split_ifs with h
  · have h1 := Nat.lt_mul_div_succ nr hpos
    have h2 : nr / desired + 1 ≤ max 1 (nr / desired) + 1 := by omega
    rw [Nat.div_lt_iff_lt_mul (by omega)]
    calc nr < desired * (nr / desired + 1) := h1
      _ ≤ m * (max 1 (nr / desired) + 1) := Nat.mul_le_mul hd h2
  · have h1 : nr / max 1 (nr / desired) ≤ maxnr := Nat.div_le_of_le_mul (by omega)
    omega

/-- All items go to one block exactly when the even load is all of them. -/
theorem blocks_eq_one_iff : nr ≤ nr / blocks nr desired maxnr ↔ blocks nr desired maxnr = 1 := by
  constructor
  · intro h
    by_cases hnr : nr = 0
    · subst hnr
      exact blocks_zero
    · by_contra hne
      have hpos : 0 < blocks nr desired maxnr := blocks_pos
      have hlt : nr / blocks nr desired maxnr < nr := Nat.div_lt_self (by omega) (by omega)
      omega
  · intro h
    rw [h, Nat.div_one]

theorem blocks_max_eq_one_iff : blocks nr (max 1 m) m = 1 ↔ nr ≤ m := by
  have hpos : 0 < blocks nr (max 1 m) m := blocks_pos
  rcases Nat.eq_zero_or_pos m with rfl | hm
  · have h1 : nr / max 1 0 = nr := by simp
    unfold blocks
    rw [h1]
    split_ifs <;> omega
  have hle := blocks_le_iff nr hm (le_refl m) (le_refl 1)
  rw [max_eq_right hm] at hpos ⊢
  constructor
  · intro h
    omega
  · intro h
    omega

end Xfs.EvenSplit
