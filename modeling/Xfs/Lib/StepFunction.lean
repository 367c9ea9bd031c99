import Mathlib.Data.List.Chain
import Xfs.Lib.SortedMap

/-! Functions on the natural numbers that are kept as a sorted map: the keys are the places where
the function changes. -/
namespace StepFunction

open SortedMap

variable {S : Type} {f : Nat → S} {l l' : List (Nat × S)} {k a b start stop : Nat} {s new e : S}

/-- The function starts or changes at `k`. -/
def ChangeAt (f : Nat → S) (k : Nat) : Prop := k = 0 ∨ f (k - 1) ≠ f k

/-- The list holds the places where `f` changes, with its values there. -/
structure Steps (l : List (Nat × S)) (f : Nat → S) : Prop where
  sorted : Sorted l
  mem : ∀ k s, (k, s) ∈ l ↔ f k = s ∧ ChangeAt f k

/-- The first place behind `b` with another value. -/
structure NextChange (f : Nat → S) (b n : Nat) : Prop where
  lt : b < n
  same : ∀ j, b ≤ j → j < n → f j = f b
  change : f n ≠ f b

/-- A new value from `start` on, up to `stop`. -/
def assign (f : Nat → S) (start stop : Nat) (new : S) (b : Nat) : S :=
  if start ≤ b ∧ b < stop then new else f b

theorem changeAt_zero : ChangeAt f 0 := .inl rfl

theorem changeAt_succ : ChangeAt f (k + 1) ↔ f k ≠ f (k + 1) := by simp [ChangeAt]

theorem not_changeAt_iff : ¬ ChangeAt f k ↔ k ≠ 0 ∧ f (k - 1) = f k := by
  simp [ChangeAt]

/-- Without a change the function is constant. -/
theorem constant_of_not_changeAt (h : ∀ j, a < j → j < b → ¬ ChangeAt f j) :
    ∀ j, a ≤ j → j < b → f j = f a := by
  intro j hj
  induction j, hj using Nat.le_induction with
  | base => exact fun _ => rfl
  | succ j hj ih =>
    intro hlt
    have hsame : f j = f (j + 1) := by
      by_contra hne
      exact h (j + 1) (by omega) hlt (changeAt_succ.mpr hne)
    rw [← hsame]
    exact ih (by omega)

section

variable (h : Steps l f) {x : Nat × S} {j : Nat}
include h

theorem Steps.not_changeAt (hk : ∀ x ∈ l, x.1 ≠ k) : ¬ ChangeAt f k :=
  fun hc => hk (k, f k) ((h.mem k (f k)).mpr ⟨rfl, hc⟩) rfl

theorem Steps.before_zero : before l 0 = none := by
  cases hb : before l 0 with
  | none => rfl
  | some x => exact absurd (h.sorted.before_some hb).2.1 (Nat.not_lt_zero _)

theorem Steps.before_pos (hk : 0 < k) : ∃ p, before l k = some (p, f (k - 1)) := by
  cases hb : before l k with
  | none =>
    have := before_none hb (0, f 0) ((h.mem 0 (f 0)).mpr ⟨rfl, changeAt_zero⟩)
    exact absurd hk (not_lt.mpr this)
  | some x =>
    obtain ⟨hx, hlt, hlast⟩ := h.sorted.before_some hb
    have hsame := constant_of_not_changeAt (fun j (h1 : x.1 < j) (h2 : j < k) =>
      h.not_changeAt fun y hy heq => by
        have := hlast y hy (by omega)
        omega)
    refine ⟨x.1, ?_⟩
    rw [hsame (k - 1) (by omega) (by omega), ((h.mem x.1 x.2).mp hx).1]

theorem Steps.after_some (hx : after l k = some x) : NextChange f k x.1 ∧ x.2 = f x.1 := by
  obtain ⟨hmem, hlt, hfirst⟩ := h.sorted.after_some hx
  obtain ⟨hval, hchange⟩ := (h.mem x.1 x.2).mp hmem
  have hsame := constant_of_not_changeAt (fun j (h1 : k < j) (h2 : j < x.1) =>
    h.not_changeAt fun y hy heq => by
      have := hfirst y hy (by omega)
      omega)
  refine ⟨⟨hlt, hsame, fun heq => ?_⟩, hval.symm⟩
  rcases hchange with h0 | hne
  · omega
  · exact hne ((hsame (x.1 - 1) (by omega) (by omega)).trans heq.symm)

theorem Steps.exists_after (hj : k < j) (hne : f j ≠ f k) : ∃ x, after l k = some x := by
  cases hx : after l k with
  | some x => exact ⟨x, rfl⟩
  | none =>
    refine absurd (constant_of_not_changeAt (fun i (h1 : k < i) (_ : i < j + 1) =>
      h.not_changeAt fun y hy heq => ?_) j hj.le (by omega)) hne
    have := after_none hx y hy
    omega

/-- The item found stands at `k`, or it is the next change behind it. -/
theorem Steps.find_some (hx : find l k = some x) :
    x.2 = f x.1 ∧ (x.1 = k ∧ ChangeAt f k ∨ ¬ ChangeAt f k ∧ NextChange f k x.1) := by
  obtain ⟨hmem, hle, hfirst⟩ := h.sorted.find_some hx
  obtain ⟨hval, hchange⟩ := (h.mem x.1 x.2).mp hmem
  refine ⟨hval.symm, ?_⟩
  rcases Nat.eq_or_lt_of_le hle with heq | hlt
  · exact .inl ⟨heq.symm, heq ▸ hchange⟩
  refine .inr ⟨h.not_changeAt fun y hy heq => ?_, ?_⟩
  · have := hfirst y hy heq.ge
    omega
  · have hsame := constant_of_not_changeAt (fun j (h1 : k < j) (h2 : j < x.1) =>
      h.not_changeAt fun y hy heq => by
        have := hfirst y hy (by omega)
        omega)
    refine ⟨hlt, hsame, fun heq => ?_⟩
    rcases hchange with h0 | hne
    · omega
    · exact hne ((hsame (x.1 - 1) (by omega) (by omega)).trans heq.symm)

theorem Steps.exists_find (hj : k < j) (hne : f j ≠ f k) : ∃ x, find l k = some x := by
  obtain ⟨x, hx⟩ := h.exists_after hj hne
  obtain ⟨hmem, hlt, -⟩ := h.sorted.after_some hx
  cases hf : find l k with
  | some y => exact ⟨y, rfl⟩
  | none => exact absurd (find_none hf x hmem) (not_lt.mpr hlt.le)

theorem Steps.isChain : l.IsChain fun x y => x.2 ≠ y.2 := by
  refine List.isChain_iff_forall_rel_of_append_cons_cons.mpr fun x y A B hl => ?_
  subst hl
  obtain ⟨hnext, hy⟩ := h.after_some h.sorted.after_cons_cons
  rw [hy, ← ((h.mem x.1 x.2).mp (by simp)).1]
  exact hnext.change.symm

end

theorem assign_inside (h1 : start ≤ b) (h2 : b < stop) : assign f start stop new b = new :=
  if_pos ⟨h1, h2⟩

theorem assign_outside (h : b < start ∨ stop ≤ b) : assign f start stop new b = f b :=
  if_neg (by omega)

theorem assign_eq_self (h : ∀ j, start ≤ j → j < stop → f j = new) :
    assign f start stop new = f := by
  funext j
  unfold assign
  split_ifs with hj
  · exact (h j hj.1 hj.2).symm
  · rfl

/-- Away from the two ends nothing changes, if there was one value before. -/
theorem changeAt_assign (hsame : ∀ j, start ≤ j → j < stop → f j = f start) (h1 : k ≠ start)
    (h2 : k ≠ stop) :
    (assign f start stop new k = s ∧ ChangeAt (assign f start stop new) k) ↔
      f k = s ∧ ChangeAt f k := by
  by_cases hin : start < k ∧ k < stop
  · have hold : ¬ ChangeAt f k := by
      rintro (h0 | hne)
      · omega
      · exact hne ((hsame (k - 1) (by omega) (by omega)).trans (hsame k (by omega) (by omega)).symm)
    have hnew : ¬ ChangeAt (assign f start stop new) k := by
      rintro (h0 | hne)
      · omega
      · rw [assign_inside (by omega) (by omega), assign_inside (by omega) (by omega)] at hne
        exact hne rfl
    exact ⟨fun h => absurd h.2 hnew, fun h => absurd h.2 hold⟩
  · unfold ChangeAt
    rw [assign_outside (by omega)]
    by_cases h0 : k = 0
    · simp [h0]
    · rw [assign_outside (by omega)]

/-- The list of the changed function: the two ends have to be right and the rest stays. -/
theorem Steps.assign (h : Steps l f) (hlt : start < stop)
    (hsame : ∀ j, start ≤ j → j < stop → f j = f start) (hsorted : Sorted l')
    (hrest : ∀ k s, k ≠ start → k ≠ stop → ((k, s) ∈ l' ↔ (k, s) ∈ l))
    (hstart : ∀ s, (start, s) ∈ l' ↔ s = new ∧ (start = 0 ∨ f (start - 1) ≠ new))
    (hstop : ∀ s, (stop, s) ∈ l' ↔ s = f stop ∧ new ≠ f stop) :
    Steps l' (assign f start stop new) := by
  refine ⟨hsorted, fun k s => ?_⟩
  by_cases h1 : k = start
  · subst h1
    rw [hstart, ChangeAt, assign_inside le_rfl hlt, eq_comm]
    refine and_congr_right fun _ => ?_
    by_cases h0 : k = 0
    · simp [h0]
    · rw [assign_outside (by omega)]
  by_cases h2 : k = stop
  · subst h2
    rw [hstop, ChangeAt, assign_outside (by omega), assign_inside (by omega) (by omega), eq_comm]
    have h0 : k ≠ 0 := by omega
    simp [h0]
  · rw [hrest k s h1 h2, h.mem, changeAt_assign hsame h1 h2]

theorem steps_const (e : S) : Steps [(0, e)] fun _ => e := by
  refine ⟨List.pairwise_singleton _ _, fun k s => ?_⟩
  simp only [List.mem_singleton, Prod.mk.injEq, ChangeAt, ne_eq, not_true_eq_false, or_false]
  exact and_comm.trans (and_congr_left fun _ => eq_comm)

theorem steps_two (hlt : 0 < a) (hne : s ≠ e) :
    Steps [(0, s), (a, e)] (assign (fun _ => e) 0 a s) := by
  refine (steps_const e).assign hlt (fun _ _ _ => rfl) (by simpa [Sorted] using hlt)
    (fun k r h1 h2 => ?_) (fun r => ?_) fun r => ?_
  · simp [h1, h2]
  · simp [hlt.ne]
  · simp [hlt.ne', hne]

theorem steps_three {r : S} (ha : 0 < a) (hab : a < b) (hrs : r ≠ s) (hse : s ≠ e) :
    Steps [(0, r), (a, s), (b, e)] (assign (assign (fun _ => e) 0 b s) 0 a r) := by
  have hin : ∀ j, j ≤ a → assign (fun _ => e) 0 b s j = s := fun j hj =>
    assign_inside (Nat.zero_le j) (by omega)
  refine (steps_two (ha.trans hab) hse).assign ha
    (fun j _ hj => (hin j hj.le).trans (hin 0 ha.le).symm)
    (by simpa [Sorted] using ⟨⟨ha, ha.trans hab⟩, hab⟩) (fun k q h1 h2 => ?_) (fun q => ?_) fun q => ?_
  · simp [h1, h2]
  · simp [ha.ne, (ha.trans hab).ne]
  · simp [ha.ne', hab.ne, hin a le_rfl, hrs]

end StepFunction
