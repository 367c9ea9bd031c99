import Mathlib.Data.List.Basic
import Mathlib.Data.List.Count
import Mathlib.Data.List.Sort
import Mathlib.Order.Defs.LinearOrder

/-! Records kept in strictly increasing key order, and a cursor into them. Positions are counted
from one: zero stands before the first record. The specifications speak about membership only, so
that clients never compute with positions. -/
namespace RecordCursor

open Nat List

variable {R K : Type} [LinearOrder K] {key : R → K} {recs : List R} {i : Nat}

/-- The records of an index and the current position. -/
structure Cursor (R : Type) where
  recs : List R
  ptr : Nat
deriving Repr, DecidableEq

/-- Strictly increasing keys. -/
def Ordered (key : R → K) (recs : List R) : Prop :=
  recs.Pairwise (fun r s => key r < key s)

namespace Cursor

/-- The record under the cursor. -/
def rec? (c : Cursor R) : Option R :=
  if c.ptr = 0 then none else c.recs[c.ptr - 1]?

/-- Move to the last record whose key is at most `k`, or before the first. -/
def lookupLE (key : R → K) (k : K) (c : Cursor R) : Cursor R × Bool :=
  let pos := c.recs.countP (fun r => decide (key r ≤ k))
  (⟨c.recs, pos⟩, decide (pos ≠ 0))

/-- Move to the first record whose key is at least `k`, or after the last. -/
def lookupGE (key : R → K) (k : K) (c : Cursor R) : Cursor R × Bool :=
  let pos := c.recs.countP (fun r => decide (key r < k)) + 1
  (⟨c.recs, pos⟩, decide (pos ≤ c.recs.length))

/-- Move to the place of the key `k`, and report whether it is present. -/
def lookupEQ (key : R → K) (k : K) (c : Cursor R) : Cursor R × Bool :=
  let pos := c.recs.countP (fun r => decide (key r < k)) + 1
  (⟨c.recs, pos⟩, c.recs.any (fun r => decide (key r = k)))

/-- Step right. The answer tells whether a record is under the cursor. -/
def increment (c : Cursor R) : Cursor R × Bool :=
  (⟨c.recs, c.ptr + 1⟩, decide (c.ptr + 1 ≤ c.recs.length))

/-- Step left. The answer tells whether a record is under the cursor. -/
def decrement (c : Cursor R) : Cursor R × Bool :=
  (⟨c.recs, c.ptr - 1⟩, decide (1 < c.ptr ∧ c.ptr - 1 ≤ c.recs.length))

/-- Insert at the cursor. The new record is under the cursor afterwards. -/
def insert (x : R) (c : Cursor R) : Cursor R × Bool :=
  if c.ptr = 0 then (c, false) else (⟨c.recs.insertIdx (c.ptr - 1) x, c.ptr⟩, true)

/-- Delete under the cursor. The following record moves under it. -/
def delete (c : Cursor R) : Cursor R × Bool :=
  if c.rec?.isSome then (⟨c.recs.eraseIdx (c.ptr - 1), c.ptr⟩, true) else (c, false)

def update (x : R) (c : Cursor R) : Cursor R :=
  ⟨c.recs.set (c.ptr - 1) x, c.ptr⟩

end Cursor

section

variable (h : Ordered key recs)
include h

theorem Ordered.getElem_lt {j : Nat} (hi : i < recs.length) (hj : j < recs.length) (hij : i < j) :
    key recs[i] < key recs[j] :=
  pairwise_iff_getElem.mp h i j hi hj hij

theorem Ordered.nodup : recs.Nodup :=
  h.imp (fun hlt heq => absurd (heq ▸ hlt) (lt_irrefl _))

theorem Ordered.key_inj {r s : R} (hr : r ∈ recs) (hs : s ∈ recs) (hk : key r = key s) : r = s := by
  obtain ⟨i, hi, rfl⟩ := getElem_of_mem hr
  obtain ⟨j, hj, rfl⟩ := getElem_of_mem hs
  rcases lt_trichotomy i j with hlt | rfl | hgt
  · exact absurd (hk ▸ h.getElem_lt hi hj hlt) (lt_irrefl _)
  · rfl
  · exact absurd (hk ▸ h.getElem_lt hj hi hgt) (lt_irrefl _)

theorem Ordered.eq_of_mem_iff {recs' : List R} (h' : Ordered key recs')
    (hm : ∀ r, r ∈ recs ↔ r ∈ recs') : recs = recs' := by
  have hp : recs.Perm recs' := (perm_ext_iff_of_nodup h.nodup h'.nodup).mpr hm
  exact hp.eq_of_pairwise (fun a b _ _ hab hba => absurd (lt_trans hab hba) (lt_irrefl _)) h h'

theorem Ordered.lt_countP_iff (p : R → Bool) (hp : ∀ r s, key r < key s → p s → p r)
    (hi : i < recs.length) :
    i < recs.countP p ↔ p recs[i] := by
  induction recs generalizing i with
  | nil => simp at hi
  | cons r recs ih =>
    obtain ⟨hhead, htail⟩ := pairwise_cons.mp h
    cases i with
    | zero =>
      by_cases hr : p r = true
      · simp [hr]
      · have hnone : recs.countP p = 0 := by
          rw [countP_eq_zero]
          intro s hs hps
          exact hr (hp r s (hhead s hs) hps)
        simp [hr, hnone]
    | succ i =>
      have hi' : i < recs.length := by simpa using hi
      have hstep := ih htail hi'
      by_cases hr : p r = true
      · simp [hr, hstep]
      have hnot : ¬ p recs[i] := fun hps =>
        hr (hp r recs[i] (hhead _ (getElem_mem _)) hps)
      have hnone : recs.countP p = 0 := by
        rw [countP_eq_zero]
        intro s hs hps
        exact hr (hp r s (hhead s hs) hps)
      simp [hr, hnone, hnot]

end

/-- The cursor stands where the key `k` is, or would have to be inserted. -/
def Seek (key : R → K) (c : Cursor R) (k : K) : Prop :=
  c.ptr = c.recs.countP (fun r => decide (key r < k)) + 1

theorem Ordered.lt_countP_lt_iff (h : Ordered key recs) (k : K) (hi : i < recs.length) :
    i < recs.countP (fun r => decide (key r < k)) ↔ key recs[i] < k := by
  rw [h.lt_countP_iff _ (fun r s hrs hs => by
    simp only [decide_eq_true_eq] at hs ⊢
    exact lt_trans hrs hs) hi]
  simp

theorem Ordered.lt_countP_le_iff (h : Ordered key recs) (k : K) (hi : i < recs.length) :
    i < recs.countP (fun r => decide (key r ≤ k)) ↔ key recs[i] ≤ k := by
  rw [h.lt_countP_iff _ (fun r s hrs hs => by
    simp only [decide_eq_true_eq] at hs ⊢
    exact le_trans hrs.le hs) hi]
  simp

namespace Cursor

theorem rec?_eq_some_iff {c : Cursor R} {r : R} :
    c.rec? = some r ↔ ∃ i, ∃ hi : i < c.recs.length, c.ptr = i + 1 ∧ c.recs[i] = r := by
  unfold rec?
  by_cases hz : c.ptr = 0
  · simp [hz]
  rw [if_neg hz, getElem?_eq_some_iff]
  constructor
  · rintro ⟨hi, hr⟩
    exact ⟨c.ptr - 1, hi, by omega, hr⟩
  · rintro ⟨i, hi, hp, hr⟩
    have hpi : c.ptr - 1 = i := by omega
    subst hpi
    exact ⟨hi, hr⟩

theorem mem_of_rec? {c : Cursor R} {r : R} (h : c.rec? = some r) : r ∈ c.recs := by
  obtain ⟨i, hi, _, rfl⟩ := rec?_eq_some_iff.mp h
  exact getElem_mem hi

theorem rec?_eq_none_iff {c : Cursor R} : c.rec? = none ↔ c.ptr = 0 ∨ c.recs.length < c.ptr := by
  unfold rec?
  by_cases hz : c.ptr = 0
  · simp [hz]
  · rw [if_neg hz, getElem?_eq_none_iff]
    omega

@[simp] theorem lookupGE_recs (k : K) (c : Cursor R) : (c.lookupGE key k).1.recs = c.recs := rfl

@[simp] theorem lookupEQ_recs (k : K) (c : Cursor R) : (c.lookupEQ key k).1.recs = c.recs := rfl

@[simp] theorem lookupLE_recs (k : K) (c : Cursor R) : (c.lookupLE key k).1.recs = c.recs := rfl

@[simp] theorem increment_recs (c : Cursor R) : c.increment.1.recs = c.recs := rfl

@[simp] theorem decrement_recs (c : Cursor R) : c.decrement.1.recs = c.recs := rfl

theorem seek_lookupGE (k : K) (c : Cursor R) : Seek key (c.lookupGE key k).1 k := rfl

theorem seek_lookupEQ (k : K) (c : Cursor R) : Seek key (c.lookupEQ key k).1 k := rfl

theorem isSome_rec?_iff {c : Cursor R} : c.rec?.isSome ↔ c.ptr ≠ 0 ∧ c.ptr ≤ c.recs.length := by
  rw [← Option.ne_none_iff_isSome, Ne, rec?_eq_none_iff]
  omega

theorem lookupGE_snd (k : K) (c : Cursor R) :
    (c.lookupGE key k).2 = (c.lookupGE key k).1.rec?.isSome := by
  rw [Bool.eq_iff_iff, isSome_rec?_iff]
  simp [lookupGE]

theorem increment_snd (c : Cursor R) : c.increment.2 = c.increment.1.rec?.isSome := by
  rw [Bool.eq_iff_iff, isSome_rec?_iff]
  simp [increment]

theorem decrement_snd (c : Cursor R) : c.decrement.2 = c.decrement.1.rec?.isSome := by
  rw [Bool.eq_iff_iff, isSome_rec?_iff]
  simp only [decrement, decide_eq_true_eq]
  omega

theorem lookupLE_snd (k : K) (c : Cursor R) :
    (c.lookupLE key k).2 = (c.lookupLE key k).1.rec?.isSome := by
  have hle : c.recs.countP (fun r => decide (key r ≤ k)) ≤ c.recs.length := countP_le_length
  rw [Bool.eq_iff_iff, isSome_rec?_iff]
  simp only [lookupLE, decide_eq_true_eq]
  omega

variable {c : Cursor R} {k : K} {r x : R}

section

variable (ho : Ordered key c.recs)
include ho

/-- At the place of `k` stands the least record that is not below `k`. -/
theorem seek_rec?_some (hs : Seek key c k) (hr : c.rec? = some r) :
    r ∈ c.recs ∧ k ≤ key r ∧ ∀ s ∈ c.recs, k ≤ key s → key r ≤ key s := by
  obtain ⟨i, hi, hp, rfl⟩ := rec?_eq_some_iff.mp hr
  have hcount : c.recs.countP (fun r => decide (key r < k)) = i := by
    unfold Seek at hs
    omega
  refine ⟨getElem_mem hi, ?_, ?_⟩
  · exact not_lt.mp (fun hlt => by have := (ho.lt_countP_lt_iff k hi).mpr hlt; omega)
  · intro s hs' hk
    obtain ⟨j, hj, rfl⟩ := getElem_of_mem hs'
    have hij : i ≤ j := by
      by_contra hlt
      have := (ho.lt_countP_lt_iff k hj).mp (by omega)
      exact absurd hk (not_le.mpr this)
    rcases lt_or_eq_of_le hij with hlt | rfl
    · exact (ho.getElem_lt hi hj hlt).le
    · exact le_rfl

theorem seek_rec?_none (hs : Seek key c k) (hr : c.rec? = none) : ∀ s ∈ c.recs, key s < k := by
  unfold Seek at hs
  intro s hs'
  obtain ⟨j, hj, rfl⟩ := getElem_of_mem hs'
  apply (ho.lt_countP_lt_iff k hj).mp
  rcases rec?_eq_none_iff.mp hr with hz | hz <;> omega

theorem seek_of_rec? (hr : c.rec? = some r) : Seek key c (key r) := by
  obtain ⟨i, hi, hp, rfl⟩ := rec?_eq_some_iff.mp hr
  unfold Seek
  have hup : ¬ i < c.recs.countP (fun s => decide (key s < key c.recs[i])) := fun hlt =>
    lt_irrefl _ ((ho.lt_countP_lt_iff _ hi).mp hlt)
  have hdown : ∀ j, j < i → j < c.recs.countP (fun s => decide (key s < key c.recs[i])) := by
    intro j hj
    exact (ho.lt_countP_lt_iff _ (by omega)).mpr (ho.getElem_lt (by omega) hi hj)
  have heq : c.recs.countP (fun s => decide (key s < key c.recs[i])) = i := by
    by_contra hne
    exact hup (by have := hdown (c.recs.countP fun s => decide (key s < key c.recs[i])); omega)
  omega

theorem rec?_of_seek (hm : r ∈ c.recs) (hs : Seek key c (key r)) : c.rec? = some r := by
  cases hr : c.rec? with
  | none => exact absurd (seek_rec?_none ho hs hr r hm) (lt_irrefl _)
  | some s =>
    obtain ⟨hs', hle, hleast⟩ := seek_rec?_some ho hs hr
    rw [ho.key_inj hs' hm (le_antisymm (hleast r hm le_rfl) hle)]

end

/-- Seeking depends on the key only through the records below it. -/
theorem Seek.congr {k' : K} (hs : Seek key c k) (h : ∀ s ∈ c.recs, key s < k ↔ key s < k') :
    Seek key c k' := by
  have hcount : c.recs.countP (fun r => decide (key r < k)) =
      c.recs.countP (fun r => decide (key r < k')) :=
    countP_congr (fun s hs' => by simpa using h s hs')
  unfold Seek at hs ⊢
  rw [hs, hcount]

/-- Looking up from below: the greatest record that is at most `k`. -/
theorem lookupLE_rec?_some (ho : Ordered key c.recs) (hr : (c.lookupLE key k).1.rec? = some r) :
    r ∈ c.recs ∧ key r ≤ k ∧ ∀ s ∈ c.recs, key s ≤ k → key s ≤ key r := by
  obtain ⟨i, hi, hp, rfl⟩ := rec?_eq_some_iff.mp hr
  have hcount : c.recs.countP (fun r => decide (key r ≤ k)) = i + 1 := hp
  refine ⟨getElem_mem hi, (ho.lt_countP_le_iff k hi).mp (by omega), ?_⟩
  intro s hs hk
  obtain ⟨j, hj, rfl⟩ := getElem_of_mem hs
  have hji := (ho.lt_countP_le_iff k hj).mpr hk
  rcases lt_or_eq_of_le (show j ≤ i by omega) with hlt | rfl
  · exact (ho.getElem_lt hj hi hlt).le
  · exact le_rfl

theorem lookupLE_rec?_none (hr : (c.lookupLE key k).1.rec? = none) :
    (c.lookupLE key k).1.ptr = 0 ∧ ∀ s ∈ c.recs, k < key s := by
  have hle : c.recs.countP (fun r => decide (key r ≤ k)) ≤ c.recs.length := countP_le_length
  have hz : c.recs.countP (fun r => decide (key r ≤ k)) = 0 := by
    rcases rec?_eq_none_iff.mp hr with hz | hz
    · exact hz
    · have hz' : c.recs.length < c.recs.countP (fun r => decide (key r ≤ k)) := hz
      omega
  refine ⟨hz, fun s hs => ?_⟩
  simpa using countP_eq_zero.mp hz s hs

theorem lookupLE_rec?_of_mem (ho : Ordered key c.recs) (hm : r ∈ c.recs) :
    (c.lookupLE key (key r)).1.rec? = some r := by
  cases hr : (c.lookupLE key (key r)).1.rec? with
  | none => exact absurd ((lookupLE_rec?_none hr).2 r hm) (lt_irrefl _)
  | some s =>
    obtain ⟨hs, hle, hmax⟩ := lookupLE_rec?_some ho hr
    rw [ho.key_inj hs hm (le_antisymm hle (hmax r hm le_rfl))]

theorem lookupEQ_snd_iff : (c.lookupEQ key k).2 ↔ ∃ r ∈ c.recs, key r = k := by
  simp [lookupEQ]

theorem seek_increment (ho : Ordered key c.recs) (hr : c.rec? = some r) (hk : key r < k)
    (hnext : ∀ s ∈ c.recs, key r < key s → k ≤ key s) : Seek key c.increment.1 k := by
  obtain ⟨i, hi, hp, rfl⟩ := rec?_eq_some_iff.mp hr
  have hup : ∀ j (hj : j < c.recs.length), key c.recs[j] < k ↔ j ≤ i := by
    intro j hj
    constructor
    · intro hlt
      by_contra hij
      exact absurd (hnext _ (getElem_mem hj) (ho.getElem_lt hi hj (by omega))) (not_le.mpr hlt)
    · intro hji
      rcases lt_or_eq_of_le hji with hlt | rfl
      · exact lt_trans (ho.getElem_lt hj hi hlt) hk
      · exact hk
  have hle : c.recs.countP (fun r => decide (key r < k)) ≤ c.recs.length := countP_le_length
  have hcount : c.recs.countP (fun r => decide (key r < k)) = i + 1 := by
    have h1 := (ho.lt_countP_lt_iff k hi).mpr ((hup i hi).mpr le_rfl)
    by_contra hne
    have h2 : i + 1 < c.recs.countP (fun r => decide (key r < k)) := by omega
    have h3 := (hup (i + 1) (by omega)).mp ((ho.lt_countP_lt_iff k (by omega)).mp h2)
    omega
  unfold Seek
  rw [increment_recs, hcount]
  simp [increment, hp]

theorem seek_increment_zero (hp : c.ptr = 0) (h : ∀ s ∈ c.recs, k ≤ key s) :
    Seek key c.increment.1 k := by
  have hz : c.recs.countP (fun r => decide (key r < k)) = 0 := by
    rw [countP_eq_zero]
    intro s hs
    simpa using h s hs
  unfold Seek
  rw [increment_recs, hz]
  simp [increment, hp]

theorem decrement_rec?_some {s : R} (ho : Ordered key c.recs) (hr : c.rec? = some r)
    (hs : c.decrement.1.rec? = some s) :
    s ∈ c.recs ∧ key s < key r ∧ ∀ t ∈ c.recs, key t < key r → key t ≤ key s := by
  obtain ⟨i, hi, hp, rfl⟩ := rec?_eq_some_iff.mp hr
  obtain ⟨j, hj, hq, rfl⟩ := rec?_eq_some_iff.mp hs
  have hij : i = j + 1 := by
    have hq' : c.ptr - 1 = j + 1 := hq
    omega
  subst hij
  refine ⟨getElem_mem hj, ho.getElem_lt hj hi (by omega), ?_⟩
  intro t ht hlt
  obtain ⟨m, hm, rfl⟩ := getElem_of_mem ht
  have hmj : m ≤ j := by
    by_contra hgt
    rcases lt_or_eq_of_le (show j + 1 ≤ m by omega) with hlt' | rfl
    · exact absurd hlt (not_lt.mpr (ho.getElem_lt hi hm hlt').le)
    · exact lt_irrefl _ hlt
  rcases lt_or_eq_of_le hmj with hlt' | rfl
  · exact (ho.getElem_lt hm hj hlt').le
  · exact le_rfl

theorem decrement_rec?_none (ho : Ordered key c.recs) (hr : c.rec? = some r)
    (hs : c.decrement.1.rec? = none) : ∀ t ∈ c.recs, key r ≤ key t := by
  obtain ⟨i, hi, hp, rfl⟩ := rec?_eq_some_iff.mp hr
  have hzero : i = 0 := by
    rcases rec?_eq_none_iff.mp hs with hz | hz
    · have hz' : c.ptr - 1 = 0 := hz
      omega
    · have hz' : c.recs.length < c.ptr - 1 := hz
      omega
  subst hzero
  intro t ht
  obtain ⟨m, hm, rfl⟩ := getElem_of_mem ht
  rcases m.eq_zero_or_pos with rfl | hpos
  · exact le_rfl
  · exact (ho.getElem_lt hi hm hpos).le

theorem decrement_rec?_end (ho : Ordered key c.recs) (hs : Seek key c k) (hr : c.rec? = none) :
    (∀ t, c.decrement.1.rec? = some t → t ∈ c.recs ∧ ∀ s ∈ c.recs, key s ≤ key t) ∧
      (c.decrement.1.rec? = none → c.recs = []) := by
  have hle : c.recs.countP (fun r => decide (key r < k)) ≤ c.recs.length := countP_le_length
  have hptr : c.ptr = c.recs.length + 1 := by
    unfold Seek at hs
    rcases rec?_eq_none_iff.mp hr with hz | hz <;> omega
  constructor
  · intro t ht
    obtain ⟨j, hj, hq, rfl⟩ := rec?_eq_some_iff.mp ht
    have hq' : c.ptr - 1 = j + 1 := hq
    refine ⟨getElem_mem hj, fun s hs' => ?_⟩
    obtain ⟨m, hm, rfl⟩ := getElem_of_mem hs'
    rcases lt_or_eq_of_le (show m ≤ j by omega) with hlt | rfl
    · exact (ho.getElem_lt hm hj hlt).le
    · exact le_rfl
  · intro hnone
    have hzero : c.recs.length = 0 := by
      rcases rec?_eq_none_iff.mp hnone with hz | hz
      · have hz' : c.ptr - 1 = 0 := hz
        omega
      · have hz' : c.recs.length < c.ptr - 1 := hz
        omega
    exact length_eq_zero_iff.mp hzero

theorem insertIdx_eq_take_append_drop (recs : List R) (x : R) (hi : i ≤ recs.length) :
    recs.insertIdx i x = recs.take i ++ x :: recs.drop i := by
  induction recs generalizing i with
  | nil =>
    obtain rfl : i = 0 := by simpa using hi
    rfl
  | cons r recs ih =>
    cases i with
    | zero => rfl
    | succ i => simp [ih (le_of_succ_le_succ hi)]

/-- Inserting at the place of a new key keeps the order and adds exactly the
new record. -/
theorem insert_spec (ho : Ordered key c.recs) (hs : Seek key c (key x))
    (hnew : ∀ s ∈ c.recs, key s ≠ key x) :
    ∃ c', c.insert x = (c', true) ∧ Ordered key c'.recs ∧ c'.rec? = some x ∧
      ∀ s, s ∈ c'.recs ↔ s = x ∨ s ∈ c.recs := by
  have hle : c.recs.countP (fun r => decide (key r < key x)) ≤ c.recs.length :=
    countP_le_length
  unfold Seek at hs
  have hp : c.ptr ≠ 0 := by omega
  have hp' : c.ptr - 1 ≤ c.recs.length := by omega
  refine ⟨⟨c.recs.insertIdx (c.ptr - 1) x, c.ptr⟩, by simp [insert, hp], ?_, ?_, ?_⟩
  · have hsplit : c.recs.insertIdx (c.ptr - 1) x =
        c.recs.take (c.ptr - 1) ++ x :: c.recs.drop (c.ptr - 1) :=
      insertIdx_eq_take_append_drop _ _ hp'
    have hlow : ∀ s ∈ c.recs.take (c.ptr - 1), key s < key x := by
      intro s hs'
      obtain ⟨i, hi, rfl⟩ := getElem_of_mem hs'
      rw [length_take] at hi
      rw [getElem_take]
      exact (ho.lt_countP_lt_iff _ (by omega)).mp (by omega)
    have hhigh : ∀ s ∈ c.recs.drop (c.ptr - 1), key x < key s := by
      intro s hs'
      obtain ⟨i, hi, rfl⟩ := getElem_of_mem hs'
      rw [length_drop] at hi
      rw [getElem_drop]
      have hnot : ¬ key c.recs[c.ptr - 1 + i] < key x := fun hlt => by
        have := (ho.lt_countP_lt_iff _ (by omega)).mpr hlt
        omega
      exact lt_of_le_of_ne (not_lt.mp hnot) (hnew _ (getElem_mem _)).symm
    have hboth : Ordered key (c.recs.take (c.ptr - 1) ++ c.recs.drop (c.ptr - 1)) := by
      rwa [take_append_drop]
    obtain ⟨htake, hdrop, hcross⟩ := pairwise_append.mp hboth
    simp only [Ordered, hsplit]
    refine pairwise_append.mpr ⟨htake, pairwise_cons.mpr ⟨hhigh, hdrop⟩, ?_⟩
    intro s hs' t ht
    rcases mem_cons.mp ht with rfl | ht
    · exact hlow s hs'
    · exact hcross s hs' t ht
  · have hi : c.ptr - 1 < (c.recs.insertIdx (c.ptr - 1) x).length := by
      rw [length_insertIdx_of_le_length hp']
      omega
    exact rec?_eq_some_iff.mpr ⟨c.ptr - 1, hi, by simp only; omega, getElem_insertIdx_self hi⟩
  · intro s
    exact mem_insertIdx hp'

theorem delete_spec (ho : Ordered key c.recs) (hr : c.rec? = some r) :
    ∃ c', c.delete = (c', true) ∧ Ordered key c'.recs ∧ Seek key c' (key r) ∧
      ∀ s, s ∈ c'.recs ↔ s ∈ c.recs ∧ s ≠ r := by
  classical
  have hseek := seek_of_rec? ho hr
  obtain ⟨i, hi, hp, rfl⟩ := rec?_eq_some_iff.mp hr
  have hidx : c.ptr - 1 = i := by omega
  have hmem : ∀ s, s ∈ c.recs.eraseIdx i ↔ s ∈ c.recs ∧ s ≠ c.recs[i] := by
    intro s
    rw [← ho.nodup.erase_getElem i hi, ho.nodup.mem_erase_iff]
    exact and_comm
  refine ⟨⟨c.recs.eraseIdx (c.ptr - 1), c.ptr⟩, by simp [delete, hr], ?_, ?_, ?_⟩
  · exact ho.sublist (eraseIdx_sublist _ _)
  · unfold Seek at hseek ⊢
    simp only [hidx]
    rw [hseek, ← ho.nodup.erase_getElem i hi, countP_erase]
    simp
  · rw [hidx]
    exact hmem

theorem update_spec (ho : Ordered key c.recs) (hr : c.rec? = some r)
    (hlow : ∀ s ∈ c.recs, key s < key r → key s < key x)
    (hhigh : ∀ s ∈ c.recs, key r < key s → key x < key s) :
    Ordered key (c.update x).recs ∧ (c.update x).rec? = some x ∧
      ∀ s, s ∈ (c.update x).recs ↔ s = x ∨ s ∈ c.recs ∧ s ≠ r := by
  obtain ⟨i, hi, hp, rfl⟩ := rec?_eq_some_iff.mp hr
  have hidx : c.ptr - 1 = i := by omega
  have hord : Ordered key (c.recs.set i x) := by
    refine pairwise_iff_getElem.mpr fun a b ha hb hab => ?_
    rw [length_set] at ha hb
    rw [getElem_set, getElem_set]
    split_ifs with h1 h2 h2
    · omega
    · subst h1
      exact hhigh _ (getElem_mem hb) (ho.getElem_lt ha hb hab)
    · subst h2
      exact hlow _ (getElem_mem ha) (ho.getElem_lt ha hb hab)
    · exact ho.getElem_lt ha hb hab
  refine ⟨by simpa only [update, hidx] using hord, ?_, ?_⟩
  · exact rec?_eq_some_iff.mpr ⟨i, by simpa [update] using hi, hp, by simp [update, hidx]⟩
  · intro s
    simp only [update, hidx]
    constructor
    · intro hs
      obtain ⟨j, hj, rfl⟩ := getElem_of_mem hs
      rw [length_set] at hj
      rw [getElem_set]
      split_ifs with h
      · exact .inl rfl
      · refine .inr ⟨getElem_mem hj, fun he => h ?_⟩
        exact (List.Nodup.getElem_inj_iff ho.nodup).mp he.symm
    · rintro (rfl | ⟨hs, hne⟩)
      · exact mem_set hi s
      · obtain ⟨j, hj, rfl⟩ := getElem_of_mem hs
        have hji : i ≠ j := by
          rintro rfl
          exact hne rfl
        exact mem_iff_getElem.mpr ⟨j, by rwa [length_set], by rw [getElem_set_ne hji]⟩

theorem update_recs_eq_map [DecidableEq R] (hn : c.recs.Nodup) (hr : c.rec? = some r) :
    (c.update x).recs = c.recs.map fun s => if s = r then x else s := by
  obtain ⟨i, hi, hp, rfl⟩ := rec?_eq_some_iff.mp hr
  have hidx : c.ptr - 1 = i := by omega
  refine ext_getElem (by simp [update]) fun j hj hj' => ?_
  simp only [update, hidx, getElem_set, getElem_map]
  by_cases hij : i = j
  · simp [hij]
  · rw [if_neg hij, if_neg fun he => hij ((List.Nodup.getElem_inj_iff hn).mp he.symm)]

/-- Records that stay on their side of `k` may be replaced under a lookup of `k`. -/
theorem lookupGE_map_rec? {f : R → R} {p p' : Nat} (hf : ∀ s ∈ recs, key (f s) < k ↔ key s < k) :
    (lookupGE key k ⟨recs.map f, p⟩).1.rec? = (lookupGE key k ⟨recs, p'⟩).1.rec?.map f := by
  have hcount : (recs.map f).countP (fun r => decide (key r < k)) =
      recs.countP fun r => decide (key r < k) := by
    rw [countP_map]
    exact countP_congr fun s hs => by simpa using hf s hs
  simp [lookupGE, rec?, hcount]

end Cursor

end RecordCursor
