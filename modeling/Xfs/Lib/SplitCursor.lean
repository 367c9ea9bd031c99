import Xfs.Lib.RecordCursor

/-! A cursor seen as the records before it and the records from it on. In this
view every move and every edit is a step on two lists. -/
namespace RecordCursor

open List

variable {R K : Type} [LinearOrder K] {key : R → K}

/-- Every key splits an ordered index into the records below it and the rest. -/
theorem Ordered.exists_split {recs : List R} (h : Ordered key recs) (k : K) :
    ∃ pre post, recs = pre ++ post ∧ (∀ y ∈ pre, key y < k) ∧ ∀ y ∈ post, k ≤ key y := by
  induction recs with
  | nil => exact ⟨[], [], rfl, by simp, by simp⟩
  | cons x recs ih =>
    obtain ⟨hx, hrecs⟩ := pairwise_cons.mp h
    by_cases hlt : key x < k
    · obtain ⟨pre, post, rfl, hpre, hpost⟩ := ih hrecs
      exact ⟨x :: pre, post, rfl, by simpa using ⟨hlt, hpre⟩, hpost⟩
    · refine ⟨[], x :: recs, rfl, by simp, fun y hy => ?_⟩
      rcases mem_cons.mp hy with rfl | hy
      · exact not_lt.mp hlt
      · exact (not_lt.mp hlt).trans (hx y hy).le

/-- Replacing a block of records in the middle, in terms of membership. -/
theorem Ordered.mem_replace {pre del add post : List R} (h : Ordered key (pre ++ del ++ post))
    (r : R) : r ∈ pre ++ add ++ post ↔ (r ∈ pre ++ del ++ post ∧ r ∉ del) ∨ r ∈ add := by
  have hnodup := h.nodup
  rw [nodup_append, nodup_append] at hnodup
  obtain ⟨⟨-, -, hpre⟩, -, hpost⟩ := hnodup
  simp only [mem_append] at hpost ⊢
  constructor
  · rintro ((hr | hr) | hr)
    · exact .inl ⟨.inl (.inl hr), fun hd => hpre r hr r hd rfl⟩
    · exact .inr hr
    · exact .inl ⟨.inr hr, fun hd => hpost r (.inr hd) r hr rfl⟩
  · rintro (⟨(hr | hr) | hr, hn⟩ | hr)
    · exact .inl (.inl hr)
    · exact absurd hr hn
    · exact .inr hr
    · exact .inl (.inr hr)

theorem exists_getLast_filter (q : R → Bool) (pre : List R) :
    ∃ pre', pre = pre' ++ (pre.getLast?.filter q).toList := by
  rcases eq_nil_or_concat pre with rfl | ⟨pre', x, rfl⟩
  · exact ⟨[], rfl⟩
  · simp only [concat_eq_append, getLast?_concat, Option.filter]
    split
    · exact ⟨pre', rfl⟩
    · exact ⟨pre' ++ [x], by simp⟩

theorem exists_head_filter (q : R → Bool) (post : List R) :
    ∃ post', post = (post.head?.filter q).toList ++ post' := by
  cases post with
  | nil => exact ⟨[], rfl⟩
  | cons x post =>
    simp only [head?_cons, Option.filter]
    split
    · exact ⟨post, rfl⟩
    · exact ⟨x :: post, rfl⟩

namespace Cursor

/-- The cursor with `pre` to its left and `post` under it and to its right. -/
def split (pre post : List R) : Cursor R := ⟨pre ++ post, pre.length + 1⟩

variable {pre post : List R} {x z : R} {k : K} {c : Cursor R}

@[simp] theorem split_recs (pre post : List R) : (split pre post).recs = pre ++ post := rfl

@[simp] theorem split_rec? (pre post : List R) : (split pre post).rec? = post.head? := by
  simp [split, rec?, head?_eq_getElem?, getElem?_append_right]

@[simp] theorem split_increment (pre post : List R) (x : R) :
    (split pre (x :: post)).increment = (split (pre ++ [x]) post, !post.isEmpty) := by
  cases post with
  | nil => simp [split, increment]
  | cons y post =>
    have hlen : pre.length + 1 + 1 ≤ (pre ++ x :: y :: post).length := by
      simp only [length_append, length_cons]
      omega
    refine Prod.ext (by simp [split, increment]) ?_
    exact decide_eq_true hlen

@[simp] theorem split_decrement (pre post : List R) (x : R) :
    (split (pre ++ [x]) post).decrement = (split pre (x :: post), true) := by
  simp [split, decrement]

@[simp] theorem split_decrement_nil (post : List R) :
    (split [] post).decrement = (⟨post, 0⟩, false) := by
  simp [split, decrement]

@[simp] theorem increment_zero (recs : List R) :
    (Cursor.mk recs 0).increment = (split [] recs, !recs.isEmpty) := by
  cases recs with
  | nil => simp [split, increment]
  | cons y post => simp [split, increment]

@[simp] theorem split_insert (pre post : List R) (z : R) :
    (split pre post).insert z = (split pre (z :: post), true) := by
  simp [split, insert, insertIdx_eq_take_append_drop]

@[simp] theorem split_delete (pre post : List R) (x : R) :
    (split pre (x :: post)).delete = (split pre post, true) := by
  simp only [delete, split_rec?, head?_cons, Option.isSome_some, if_true]
  simp [split, eraseIdx_append_of_length_le]

@[simp] theorem split_update (pre post : List R) (x z : R) :
    (split pre (x :: post)).update z = split pre (z :: post) := by
  simp [split, update]

theorem lookupLE_split (hc : c.recs = pre ++ x :: post) (hpre : ∀ y ∈ pre, key y ≤ k)
    (hx : key x ≤ k) (hpost : ∀ y ∈ post, k < key y) :
    c.lookupLE key k = (split pre (x :: post), true) := by
  have hcount : c.recs.countP (fun r => decide (key r ≤ k)) = pre.length + 1 := by
    rw [hc, countP_append, countP_cons_of_pos (by simpa using hx),
      countP_eq_length.mpr (by simpa using hpre),
      countP_eq_zero.mpr (by simpa using hpost)]
  rw [hc] at hcount
  simp only [lookupLE, split, hc, hcount]
  simp

theorem lookupLE_zero (h : ∀ y ∈ c.recs, k < key y) : c.lookupLE key k = (⟨c.recs, 0⟩, false) := by
  have hcount : c.recs.countP (fun r => decide (key r ≤ k)) = 0 :=
    countP_eq_zero.mpr (by simpa using h)
  simp [lookupLE, hcount]

/-- An exact lookup stops before the first record that is not below the key. -/
theorem lookupEQ_split (hc : c.recs = pre ++ post) (hpre : ∀ y ∈ pre, key y < k)
    (hpost : ∀ y ∈ post, k ≤ key y) :
    (c.lookupEQ key k).1 = split pre post := by
  have hcount : c.recs.countP (fun r => decide (key r < k)) = pre.length := by
    rw [hc, countP_append, countP_eq_length.mpr (by simpa using hpre),
      countP_eq_zero.mpr (by simpa using hpost), Nat.add_zero]
  rw [hc] at hcount
  simp only [lookupEQ, split, hc, hcount]

theorem lookupEQ_absent (hc : c.recs = pre ++ post) (hpre : ∀ y ∈ pre, key y < k)
    (hpost : ∀ y ∈ post, k < key y) :
    c.lookupEQ key k = (split pre post, false) := by
  refine Prod.ext (lookupEQ_split hc hpre fun y hy => (hpost y hy).le) ?_
  rw [← Bool.not_eq_true, lookupEQ_snd_iff, hc]
  rintro ⟨r, hr, hk⟩
  rcases mem_append.mp hr with hr | hr
  · exact absurd hk (hpre r hr).ne
  · exact absurd hk (hpost r hr).ne'

end Cursor

end RecordCursor
