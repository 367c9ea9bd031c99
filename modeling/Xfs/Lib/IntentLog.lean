import Mathlib.Data.List.Perm.Lattice

/-! A log of intents, and of done items that retire an intent each. -/
namespace Xfs

open List

/-- An intent, known by its number, and what it promises. -/
structure Intent (α : Type) where
  id : Nat
  payload : α
deriving Repr, DecidableEq

inductive LogItem (α : Type) where
  | intent (i : Intent α)
  | done (id : Nat)
deriving Repr, DecidableEq

variable {α : Type} {log : List (LogItem α)} {i : Intent α} {id n : Nat}

/-- The number of an intent or of the one that is retired. -/
def LogItem.number : LogItem α → Nat
  | .intent i => i.id
  | .done id => id

def LogItem.intent? : LogItem α → Option (Intent α)
  | .intent i => some i
  | .done _ => none

def LogItem.retires (id : Nat) : LogItem α → Bool
  | .intent _ => false
  | .done id' => id' == id

def hasDone (log : List (LogItem α)) (id : Nat) : Bool := log.any (LogItem.retires id)

/-- The intents of a log without a done item. They are what a recovery replays. -/
def outstanding (log : List (LogItem α)) : List (Intent α) :=
  (log.filterMap LogItem.intent?).filter fun i => !hasDone log i.id

@[simp] theorem outstanding_nil : outstanding ([] : List (LogItem α)) = [] := rfl

theorem hasDone_intent : hasDone (log ++ [.intent i]) id = hasDone log id := by
  simp [hasDone, LogItem.retires]

theorem hasDone_done {id' : Nat} :
    hasDone (log ++ [.done id']) id = (hasDone log id || id' == id) := by
  simp [hasDone, LogItem.retires]

/-- The log names no number from `n` on. -/
def LogBelow (log : List (LogItem α)) (n : Nat) : Prop := ∀ x ∈ log, x.number < n

theorem LogBelow.hasDone_eq_false (h : LogBelow log n) (hle : n ≤ id) : hasDone log id = false := by
  refine any_eq_false.mpr fun x hx => ?_
  have hlt := h x hx
  cases x with
  | intent i => simp [LogItem.retires]
  | done id' =>
    simp only [LogItem.number] at hlt
    simp only [LogItem.retires, beq_iff_eq]
    omega

theorem LogBelow.concat {x : LogItem α} (h : LogBelow log n) (hx : x.number < n) :
    LogBelow (log ++ [x]) n := by
  intro y hy
  rcases mem_append.mp hy with hy | hy
  · exact h y hy
  · rwa [mem_singleton.mp hy]

theorem LogBelow.mono {m : Nat} (h : LogBelow log n) (hle : n ≤ m) : LogBelow log m :=
  fun x hx => Nat.lt_of_lt_of_le (h x hx) hle

theorem outstanding_intent (h : hasDone log i.id = false) :
    outstanding (log ++ [.intent i]) = outstanding log ++ [i] := by
  simp only [outstanding, filterMap_append, filter_append, hasDone_intent]
  simp [LogItem.intent?, h]

theorem outstanding_done : outstanding (log ++ [.done id]) =
    (outstanding log).filter fun i => i.id != id := by
  simp only [outstanding, filterMap_append, hasDone_done, filter_filter]
  have hnone : [LogItem.done id].filterMap (LogItem.intent? : LogItem α → _) = [] := rfl
  rw [hnone, append_nil]
  refine filter_congr fun i _ => ?_
  rw [Bool.not_or, Bool.and_comm, bne, BEq.comm]

theorem mem_outstanding : i ∈ outstanding log ↔ .intent i ∈ log ∧ hasDone log i.id = false := by
  simp only [outstanding, mem_filter, mem_filterMap, Bool.not_eq_true']
  refine and_congr_left fun _ => ⟨?_, fun h => ⟨_, h, rfl⟩⟩
  rintro ⟨x, hx, hxi⟩
  cases x with
  | intent j =>
    obtain rfl : j = i := Option.some.inj hxi
    exact hx
  | done id' => cases hxi

theorem LogBelow.outstanding_lt (h : LogBelow log n) (hi : i ∈ outstanding log) : i.id < n :=
  h _ (mem_outstanding.mp hi).1

end Xfs
