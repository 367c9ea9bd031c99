import Mathlib.Logic.Function.Iterate
import Mathlib.Tactic.SplitIfs

/-! Queues in a ring of slots, with a first slot, a last slot and a count. The ends alone do not tell
an empty ring from a full one. -/
namespace Xfs

open List

variable {α : Type} {size first last i k j : Nat} {mem : Nat → α} {queue : List α} {b : α}

def ringNext (size i : Nat) : Nat := if i + 1 = size then 0 else i + 1

def ringAdvance (size i k : Nat) : Nat := (ringNext size)^[k] i

/-- The contents of `count` slots, beginning with `first`. -/
def ringSlots (size : Nat) (mem : Nat → α) : Nat → Nat → List α
  | _, 0 => []
  | first, count + 1 => mem first :: ringSlots size mem (ringNext size first) count

theorem ringNext_lt (h : i < size) : ringNext size i < size := by
  unfold ringNext
  split_ifs <;> omega

theorem ringNext_inj (h : ringNext size i = ringNext size j) : i = j := by
  unfold ringNext at h
  split_ifs at h <;> omega

theorem ringAdvance_succ (size i k : Nat) :
    ringAdvance size i (k + 1) = ringAdvance size (ringNext size i) k := rfl

theorem ringNext_ringAdvance (size i k : Nat) :
    ringNext size (ringAdvance size i k) = ringAdvance size i (k + 1) :=
  (Function.iterate_succ_apply' _ k i).symm

/-- Within one turn there is at most one wrap. -/
theorem ringAdvance_eq (h : i < size) (hk : k ≤ size) :
    ringAdvance size i k = if i + k < size then i + k else i + k - size := by
  induction k with
  | zero => rw [if_pos (by omega)]; rfl
  | succ k ih =>
    rw [← ringNext_ringAdvance, ih (by omega)]
    unfold ringNext
    split_ifs <;> omega

theorem ringAdvance_ne (h : i < size) (hjk : j < k) (hk : k < size) :
    ringAdvance size i j ≠ ringAdvance size i k := by
  rw [ringAdvance_eq h (by omega), ringAdvance_eq h (by omega)]
  split_ifs <;> omega

theorem ringSlots_snoc (size : Nat) (mem : Nat → α) (first k : Nat) :
    ringSlots size mem first (k + 1) =
      ringSlots size mem first k ++ [mem (ringAdvance size first k)] := by
  induction k generalizing first with
  | zero => rfl
  | succ k ih =>
    rw [ringSlots, ih, ringSlots, ringAdvance_succ]
    rfl

theorem ringSlots_update (b : α) (hout : ∀ k' < k, ringAdvance size first k' ≠ j) :
    ringSlots size (Function.update mem j b) first k = ringSlots size mem first k := by
  induction k generalizing first with
  | zero => rfl
  | succ k ih =>
    have hfirst : first ≠ j := hout 0 (by omega)
    rw [ringSlots, ringSlots, Function.update_of_ne hfirst]
    rw [ih (fun k' hk' => hout (k' + 1) (by omega))]

structure RingHolds (size first last : Nat) (mem : Nat → α) (queue : List α) : Prop where
  first_lt : first < size
  last_lt : last < size
  length_le : queue.length ≤ size
  next_last : ringNext size last = ringAdvance size first queue.length
  slots : ringSlots size mem first queue.length = queue

theorem RingHolds.empty (hsize : 0 < size) : RingHolds size 0 (size - 1) mem [] where
  first_lt := hsize
  last_lt := by omega
  length_le := Nat.zero_le _
  next_last := if_pos (by omega)
  slots := rfl

theorem RingHolds.push (h : RingHolds size first last mem queue) (hroom : queue.length < size)
    (b : α) :
    RingHolds size first (ringNext size last) (Function.update mem (ringNext size last) b)
      (queue ++ [b]) := by
  have hlength : (queue ++ [b]).length = queue.length + 1 := length_append
  refine ⟨h.first_lt, ringNext_lt h.last_lt, by omega, ?_, ?_⟩
  · rw [hlength, h.next_last, ringNext_ringAdvance]
  · rw [hlength, ringSlots_snoc, ← h.next_last, Function.update_self]
    rw [ringSlots_update b, h.slots]
    intro k hk
    rw [h.next_last]
    exact ringAdvance_ne h.first_lt hk hroom

section

variable (h : RingHolds size first last mem (b :: queue))
include h

theorem RingHolds.pop : mem first = b ∧ RingHolds size (ringNext size first) last mem queue := by
  have hslots := h.slots
  have hlength := h.length_le
  rw [length_cons] at hlength
  rw [length_cons, ringSlots, List.cons.injEq] at hslots
  exact ⟨hslots.1, ringNext_lt h.first_lt, h.last_lt, by omega, h.next_last, hslots.2⟩

theorem RingHolds.first_eq_last_iff : first = last ↔ queue = [] := by
  have hnext := h.next_last
  rw [length_cons, ringAdvance_succ] at hnext
  constructor
  · rintro rfl
    have hlength := h.length_le
    rw [length_cons] at hlength
    cases queue with
    | nil => rfl
    | cons b' queue =>
      -- the first slot would be met again before the turn is complete
      have hne := ringAdvance_ne (ringNext_lt h.first_lt) (Nat.zero_lt_succ queue.length) (hlength)
      exact absurd hnext hne
  · rintro rfl
    exact (ringNext_inj hnext).symm

theorem RingHolds.length_eq : (b :: queue).length =
      if first ≤ last then last - first + 1 else size - first + last + 1 := by
  have hnext := h.next_last
  have hfirst := h.first_lt
  have hlast := h.last_lt
  have hlength := h.length_le
  rw [ringAdvance_eq hfirst hlength, ringNext] at hnext
  rw [length_cons] at *
  split_ifs at hnext ⊢ <;> omega

end

end Xfs
