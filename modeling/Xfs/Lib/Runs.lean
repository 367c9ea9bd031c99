import Mathlib.Algebra.BigOperators.Intervals
import Mathlib.Algebra.BigOperators.Ring.Finset
import Mathlib.Algebra.Order.BigOperators.Group.Finset
import Mathlib.Tactic.Ring

/-! The maximal runs of set positions below a bound, and how their number
changes when a clear interval is set. -/
namespace Xfs.Runs

open Finset

variable {f f' : Nat → Bool} {n m s a b pre post len : Nat}

/-- The number of set positions from `s` on without a gap, `m` at most. -/
def runLen (f : Nat → Bool) : Nat → Nat → Nat
  | 0, _ => 0
  | m + 1, s => if f s then runLen f m (s + 1) + 1 else 0

/-- A run starts at a set position behind a clear one. -/
def isRunStart (f : Nat → Bool) (s : Nat) : Bool :=
  f s && (decide (s = 0) || !f (s - 1))

/-- Whether a run starts at `s` that has the property. -/
def runAt (f : Nat → Bool) (n : Nat) (p : Nat → Nat → Bool) (s : Nat) : Nat :=
  if isRunStart f s && p s (runLen f (n - s) s) then 1 else 0

/-- The number of runs below `n` whose start and length have the property. -/
def runCount (f : Nat → Bool) (n : Nat) (p : Nat → Nat → Bool) : Nat :=
  ∑ s ∈ range n, runAt f n p s

theorem runLen_spec (f : Nat → Bool) (m s : Nat) :
    runLen f m s ≤ m ∧ (∀ x, s ≤ x → x < s + runLen f m s → f x) ∧
      (runLen f m s = m ∨ f (s + runLen f m s) = false) := by
  induction m generalizing s with
  | zero => exact ⟨le_rfl, fun x h1 h2 => by simp only [runLen] at h2; omega, .inl rfl⟩
  | succ m ih =>
    obtain ⟨hle, hall, hend⟩ := ih (s + 1)
    by_cases hs : f s = true
    · simp only [runLen, hs, if_true]
      refine ⟨by omega, fun x h1 h2 => ?_, ?_⟩
      · by_cases hx : x = s
        · rw [hx, hs]
        · exact hall x (by omega) (by omega)
      · rw [show s + (runLen f m (s + 1) + 1) = s + 1 + runLen f m (s + 1) by omega]
        exact hend.imp (by omega) id
    · simp only [runLen, hs, Bool.false_eq_true, if_false]
      exact ⟨by omega, fun x h1 h2 => by omega, .inr (by simpa using hs)⟩

theorem runLen_eq (hle : len ≤ m) (hall : ∀ x, s ≤ x → x < s + len → f x)
    (hend : len = m ∨ f (s + len) = false) : runLen f m s = len := by
  obtain ⟨hle', hall', hend'⟩ := runLen_spec f m s
  rcases lt_trichotomy (runLen f m s) len with hlt | heq | hgt
  · rcases hend' with h | h
    · omega
    · rw [hall _ (by omega) (by omega)] at h
      cases h
  · exact heq
  · rcases hend with h | h
    · omega
    · rw [hall' _ (by omega) (by omega)] at h
      cases h

/-- The run from `s` is the same for two sequences that agree up to a clear
position. -/
theorem runLen_congr {t : Nat} (hst : s ≤ t) (hagree : ∀ x, s ≤ x → x < t → f' x = f x)
    (hclear : t = s + m ∨ f t = false ∧ f' t = false) : runLen f' m s = runLen f m s := by
  obtain ⟨hle, hall, hend⟩ := runLen_spec f m s
  have hin : s + runLen f m s ≤ t := by
    by_contra hout
    rcases hclear with h | ⟨h, -⟩
    · omega
    · rw [hall t hst (by omega)] at h
      cases h
  refine runLen_eq hle (fun x h1 h2 => by rw [hagree x h1 (by omega)]; exact hall x h1 h2) ?_
  rcases hend with h | h
  · exact .inl h
  · rcases lt_or_ge (s + runLen f m s) t with hlt | hge
    · exact .inr (by rw [hagree _ (by omega) hlt]; exact h)
    · rcases hclear with ht | ⟨-, ht⟩
      · exact .inl (by omega)
      · exact .inr (by rw [show s + runLen f m s = t by omega]; exact ht)

theorem runCount_le {p : Nat → Nat → Bool} {lo hi : Nat}
    (hp : ∀ s len, p s len → lo ≤ s ∧ s < hi) : runCount f n p ≤ hi - lo := by
  have hat : ∀ s ∈ range n, runAt f n p s ≤ if s ∈ Ico lo hi then 1 else 0 := by
    intro s _
    unfold runAt
    by_cases hs : (isRunStart f s && p s (runLen f (n - s) s)) = true
    · have := hp s _ (Bool.and_eq_true _ _ ▸ hs).2
      rw [if_pos hs, if_pos (mem_Ico.mpr this)]
    · rw [if_neg hs]
      exact Nat.zero_le _
  calc runCount f n p ≤ ∑ s ∈ range n, if s ∈ Ico lo hi then 1 else 0 := sum_le_sum hat
    _ = (range n ∩ Ico lo hi).card := by rw [sum_boole, filter_mem_eq_inter]; rfl
    _ ≤ (Ico lo hi).card := card_le_card inter_subset_right
    _ = hi - lo := Nat.card_Ico lo hi

theorem runCount_eq_zero (hf : ∀ x, x < n → f x = false) (p : Nat → Nat → Bool) :
    runCount f n p = 0 := by
  refine sum_eq_zero fun s hs => ?_
  have hstart : isRunStart f s = false := by simp [isRunStart, hf s (mem_range.mp hs)]
  simp [runAt, hstart]

theorem runCount_congr (hf : ∀ x, x < n → f' x = f x) (p : Nat → Nat → Bool) :
    runCount f' n p = runCount f n p := by
  refine sum_congr rfl fun s hs => ?_
  have hsn := mem_range.mp hs
  have hstart : isRunStart f' s = isRunStart f s := by
    simp [isRunStart, hf s hsn, hf (s - 1) (by omega)]
  have hlen : runLen f' (n - s) s = runLen f (n - s) s :=
    runLen_congr hsn.le (fun x _ hx => hf x hx) (.inl (by omega))
  simp only [runAt, hstart, hlen]

/-- `f'` is `f` with `a` to `b` set, which belongs to the run from `pre` to `post`. -/
structure Fills (f f' : Nat → Bool) (n a b pre post : Nat) : Prop where
  lt : a < b
  pre_le : pre ≤ a
  le_post : b ≤ post
  post_le : post ≤ n
  clear : ∀ x, a ≤ x → x < b → f x = false
  same : ∀ x, x < n → x < a ∨ b ≤ x → f' x = f x
  inner : ∀ x, pre ≤ x → x < post → f' x = true
  pre_clear : pre = 0 ∨ f' (pre - 1) = false
  post_clear : post = n ∨ f' post = false

theorem runAt_of_not_start (p : Nat → Nat → Bool) (h : isRunStart f s = false) :
    runAt f n p s = 0 := by
  simp [runAt, h]

theorem isRunStart_eq_false_of_prev (h0 : s ≠ 0) (h : f (s - 1)) : isRunStart f s = false := by
  simp [isRunStart, h0, h]

theorem isRunStart_eq_false_of_clear (h : f s = false) : isRunStart f s = false := by
  simp [isRunStart, h]

theorem runAt_of_start (p : Nat → Nat → Bool) (hs : f s) (h : s = 0 ∨ f (s - 1) = false)
    (hlen : runLen f (n - s) s = len) :
    runAt f n p s = if p s len then 1 else 0 := by
  have hstart : isRunStart f s := by
    simpa [isRunStart, hs] using h
  simp [runAt, hstart, hlen]

section

variable (h : Fills f f' n a b pre post) (p : Nat → Nat → Bool)
include h p

theorem Fills.runAt_outside (hs : s < pre ∨ post ≤ s ∧ s < n) : runAt f' n p s = runAt f n p s := by
  have h1 := h.pre_le
  have h2 := h.le_post
  have h3 := h.post_le
  have h4 := h.lt
  rcases hs with hs | ⟨hs, hsn⟩
  · have hagree : ∀ x, x < pre → f' x = f x := fun x hx => h.same x (by omega) (by omega)
    have hstart : isRunStart f' s = isRunStart f s := by
      simp [isRunStart, hagree s hs, hagree (s - 1) (by omega)]
    have hclear : f' (pre - 1) = false := by
      rcases h.pre_clear with h0 | h0
      · omega
      · exact h0
    have hlen : runLen f' (n - s) s = runLen f (n - s) s :=
      runLen_congr (by omega) (fun x _ hx => hagree x (by omega))
        (.inr ⟨by rw [← hagree (pre - 1) (by omega)]; exact hclear, hclear⟩)
    simp only [runAt, hstart, hlen]
  · have hagree : ∀ x, post ≤ x → x < n → f' x = f x := fun x hx hxn => h.same x hxn (by omega)
    by_cases hsp : s = post
    · subst hsp
      have hclear : f' s = false := by
        rcases h.post_clear with h0 | h0
        · omega
        · exact h0
      rw [runAt_of_not_start p (isRunStart_eq_false_of_clear hclear),
        runAt_of_not_start p (isRunStart_eq_false_of_clear (hagree s le_rfl hsn ▸ hclear))]
    · have hstart : isRunStart f' s = isRunStart f s := by
        simp [isRunStart, hagree s hs hsn, hagree (s - 1) (by omega) (by omega)]
      have hlen : runLen f' (n - s) s = runLen f (n - s) s :=
        runLen_congr (by omega) (fun x hx hxn => hagree x (by omega) hxn) (.inl (by omega))
      simp only [runAt, hstart, hlen]

theorem Fills.runAt_eq (hs : s < n) :
    runAt f' n p s + (if s = pre then (if pre < a ∧ p pre (a - pre) = true then 1 else 0) else 0) +
        (if s = b then (if b < post ∧ p b (post - b) = true then 1 else 0) else 0) =
      runAt f n p s + (if s = pre then (if p pre (post - pre) = true then 1 else 0) else 0) := by
  have h1 := h.pre_le
  have h2 := h.le_post
  have h3 := h.post_le
  have h4 := h.lt
  have hpreStart : pre = 0 ∨ f (pre - 1) = false := by
    rcases h.pre_clear with h0 | h0
    · exact .inl h0
    · by_cases hz : pre = 0
      · exact .inl hz
      · exact .inr (by rw [← h.same (pre - 1) (by omega) (by omega)]; exact h0)
  rcases lt_trichotomy s pre with hlt | rfl | hgt
  · rw [if_neg (by omega), if_neg (by omega), if_neg (by omega), h.runAt_outside p (.inl hlt)]
  · -- the merged run, and the run it extends
    have hnew : runAt f' n p s = if p s (post - s) = true then 1 else 0 :=
      runAt_of_start p (h.inner s le_rfl (by omega)) h.pre_clear
        (runLen_eq (by omega) (fun x hx hx' => h.inner x hx (by omega))
          (h.post_clear.imp (by omega) (fun hc => by rwa [show s + (post - s) = post by omega])))
    have hsb : s ≠ b := by omega
    simp only [hsb, if_true, if_false, hnew]
    by_cases hpa : s < a
    · have hset : f s := by
        rw [← h.same s hs (.inl hpa)]
        exact h.inner s le_rfl (by omega)
      have hold : runAt f n p s = if p s (a - s) = true then 1 else 0 := by
        refine runAt_of_start p hset hpreStart (runLen_eq (by omega) (fun x hx hx' => ?_) (.inr ?_))
        · rw [← h.same x (by omega) (by omega)]
          exact h.inner x hx (by omega)
        · rw [show s + (a - s) = a by omega]
          exact h.clear a le_rfl h4
      simp only [hold, hpa, true_and]
      omega
    · have hold : runAt f n p s = 0 :=
        runAt_of_not_start p (isRunStart_eq_false_of_clear (h.clear s (by omega) (by omega)))
      rw [hold]
      simp [hpa]
  · have hspre : s ≠ pre := by omega
    simp only [hspre, if_false, add_zero]
    rcases lt_or_ge s post with hsp | hsp
    · have hnew : runAt f' n p s = 0 :=
        runAt_of_not_start p (isRunStart_eq_false_of_prev (by omega) (h.inner (s - 1) (by omega)
          (by omega)))
      rw [hnew]
      by_cases hsb : s = b
      · subst hsb
        have hset : f s := by
          rw [← h.same s hs (.inr le_rfl)]
          exact h.inner s (by omega) hsp
        have hold : runAt f n p s = if p s (post - s) = true then 1 else 0 := by
          refine runAt_of_start p hset (.inr (h.clear (s - 1) (by omega) (by omega)))
            (runLen_eq (by omega) (fun x hx hx' => ?_) ?_)
          · rw [← h.same x (by omega) (by omega)]
            exact h.inner x (by omega) (by omega)
          · rw [show s + (post - s) = post by omega]
            rcases h.post_clear with h0 | h0
            · exact .inl (by omega)
            · by_cases hz : post = n
              · exact .inl (by omega)
              · exact .inr (by rw [← h.same post (by omega) (by omega)]; exact h0)
        rw [hold, if_pos rfl]
        simp [hsp]
      · have hold : runAt f n p s = 0 := by
          rcases lt_or_ge s a with hsa | hsa
          · refine runAt_of_not_start p (isRunStart_eq_false_of_prev (by omega) ?_)
            rw [← h.same (s - 1) (by omega) (by omega)]
            exact h.inner (s - 1) (by omega) (by omega)
          · rcases lt_or_ge s b with hsb' | hsb'
            · exact runAt_of_not_start p (isRunStart_eq_false_of_clear (h.clear s hsa hsb'))
            · refine runAt_of_not_start p (isRunStart_eq_false_of_prev (by omega) ?_)
              rw [← h.same (s - 1) (by omega) (by omega)]
              exact h.inner (s - 1) (by omega) (by omega)
        rw [hold, if_neg hsb]
    · have hzero : (if s = b then (if b < post ∧ p b (post - b) = true then 1 else 0) else 0) = 0 := by
        by_cases hsb : s = b
        · rw [if_pos hsb, if_neg (by omega)]
        · rw [if_neg hsb]
      rw [hzero, h.runAt_outside p (.inr ⟨hsp, hs⟩), add_zero]

theorem Fills.runCount_eq : runCount f' n p + (if pre < a ∧ p pre (a - pre) = true then 1 else 0) +
        (if b < post ∧ p b (post - b) = true then 1 else 0) =
      runCount f n p + (if p pre (post - pre) = true then 1 else 0) := by
  have h1 := h.pre_le
  have h2 := h.le_post
  have h3 := h.post_le
  have h4 := h.lt
  have hsum := Finset.sum_congr rfl (fun s hs => h.runAt_eq p (mem_range.mp hs))
  simp only [sum_add_distrib, sum_ite_eq', mem_range] at hsum
  rw [if_pos (show pre < n by omega), if_pos (show pre < n by omega)] at hsum
  have hb : (if b < n then (if b < post ∧ p b (post - b) = true then 1 else 0) else 0) =
      (if b < post ∧ p b (post - b) = true then 1 else 0) := by
    by_cases hbn : b < n
    · rw [if_pos hbn]
    · rw [if_neg hbn, if_neg (by omega)]
  rw [hb] at hsum
  exact hsum

end

end Xfs.Runs
