import Mathlib.Tactic.Linarith

/-! The maximal intervals on which a function of the natural numbers keeps one
value, and how the intervals that end before a bound grow when the bound moves
over a piece of constant value. -/
namespace Xfs.LevelRuns

variable {d : Nat → Nat} {s len c n k : Nat}

/-- A maximal interval of one value. -/
structure IsRun (d : Nat → Nat) (s len : Nat) : Prop where
  pos : 0 < len
  const : ∀ b, s ≤ b → b < s + len → d b = d s
  left : s = 0 ∨ d (s - 1) ≠ d s
  right : d (s + len) ≠ d s

/-- No run of the value at `c` starts before `c`. -/
def Fresh (d : Nat → Nat) (c : Nat) : Prop := c = 0 ∨ d (c - 1) ≠ d c

theorem IsRun.not_across (h : IsRun d s len) (hc : Fresh d c) (hs : s < c) : ¬ c < s + len := by
  intro hlt
  rcases hc with rfl | hc
  · omega
  · exact hc ((h.const _ (by omega) (by omega)).trans (h.const _ hs.le hlt).symm)

theorem isRun_extend (hcn : c < n) (hc : Fresh d c) (hk : ∀ b, c ≤ b → b < n → d b = k)
    (hn : d n ≠ k) :
    (IsRun d s len ∧ s + len ≤ n) ↔ (IsRun d s len ∧ s + len ≤ c) ∨ (s = c ∧ len = n - c) := by
  have hdc : d c = k := hk c le_rfl hcn
  constructor
  · rintro ⟨h, hle⟩
    by_cases hend : s + len ≤ c
    · exact .inl ⟨h, hend⟩
    right
    have hpos := h.pos
    have hsc : c ≤ s := by
      by_contra hlt
      exact h.not_across hc (by omega) (by omega)
    have hds : d s = k := hk s hsc (by omega)
    have hs : s = c := by
      rcases h.left with h0 | hl
      · omega
      · by_contra hne
        exact hl ((hk (s - 1) (by omega) (by omega)).trans hds.symm)
    have hlen : s + len = n := by
      by_contra hne
      exact h.right ((hk _ (by omega) (by omega)).trans hds.symm)
    omega
  · rintro (⟨h, hle⟩ | ⟨rfl, rfl⟩)
    · exact ⟨h, by omega⟩
    · have hsn : s + (n - s) = n := by omega
      refine ⟨⟨by omega, ?_, hc, by rwa [hsn, hdc]⟩, hsn.le⟩
      intro b hb hbn
      rw [hk b hb (by omega), hdc]

/-- Over a piece where `d` is zero no run of a positive value ends. -/
theorem isRun_skip (hzero : ∀ b, c ≤ b → b < n → d b = 0) (hpos : 0 < d s)
    (h : IsRun d s len) (hle : s + len ≤ n) : s + len ≤ c := by
  by_contra hlt
  have hlen := h.pos
  have hlast : d (s + len - 1) = d s := h.const _ (by omega) (by omega)
  have := hzero (s + len - 1) (by omega) (by omega)
  omega

end Xfs.LevelRuns
