import Xfs.Basic
import Xfs.Lib.SortedMap

/-! What the in-memory btree of repair is for: a sorted map that remembers the item it came to
last. Values are never null. -/
namespace Xfs

/-- The items, the key of the last position, and whether the next item was fetched. -/
structure KeyMap (V : Type) where
  items : List (Nat × V)
  cur : Option Nat
  peeked : Bool
deriving DecidableEq, Repr

namespace KeyMap

variable {V : Type}

def empty : KeyMap V := ⟨[], none, false⟩

def search (m : KeyMap V) (key : Nat) : KeyMap V :=
  match SortedMap.find m.items key with
  | none => ⟨m.items, none, false⟩
  | some x => ⟨m.items, some x.1, m.peeked && decide (m.cur = some x.1)⟩

def find (m : KeyMap V) (key : Nat) : KeyMap V × Option (Nat × V) :=
  (m.search key, SortedMap.find m.items key)

def lookup (m : KeyMap V) (key : Nat) : KeyMap V × Option V :=
  match SortedMap.find m.items key with
  | none => (m.search key, none)
  | some x => (m.search key, if x.1 = key then some x.2 else none)

def peekPrev (m : KeyMap V) : Option (Nat × V) :=
  match m.cur with
  | none => none
  | some key => SortedMap.before m.items key

def peekNext (m : KeyMap V) : KeyMap V × Option (Nat × V) :=
  match m.cur with
  | none => (m, none)
  | some key => (⟨m.items, m.cur, true⟩, SortedMap.after m.items key)

def lookupNext (m : KeyMap V) : KeyMap V × Option (Nat × V) :=
  match m.cur with
  | none => (m, none)
  | some key =>
    match SortedMap.after m.items key with
    | none => (⟨m.items, none, false⟩, none)
    | some x => (⟨m.items, some x.1, false⟩, some x)

def lookupPrev (m : KeyMap V) : KeyMap V × Option (Nat × V) :=
  match m.cur with
  | none => (m, none)
  | some key =>
    match SortedMap.before m.items key with
    | none => (m, none)
    | some x => (⟨m.items, some x.1, false⟩, some x)

/-- The next key is looked at only if it has been fetched. -/
def updateKey (m : KeyMap V) (oldKey newKey : Nat) : KeyMap V × Option Errno :=
  let m := m.search oldKey
  if m.cur ≠ some oldKey then (m, some .enoent)
  else if m.peeked = true ∧ ∃ x ∈ SortedMap.after m.items oldKey, x.1 ≤ newKey then
    (m, some .einval)
  else if ∃ x ∈ SortedMap.before m.items oldKey, newKey ≤ x.1 then (m, some .einval)
  else (⟨SortedMap.setKey m.items oldKey newKey, some newKey, m.peeked⟩, none)

def updateValue (m : KeyMap V) (key : Nat) (newValue : V) : KeyMap V × Option Errno :=
  let m := m.search key
  if m.cur ≠ some key then (m, some .enoent)
  else (⟨SortedMap.setValue m.items key newValue, m.cur, m.peeked⟩, none)

def insert (m : KeyMap V) (key : Nat) (value : V) : KeyMap V × Option Errno :=
  let m := m.search key
  if m.cur = some key then (m, some .eexist)
  else (⟨SortedMap.insert m.items key value, none, false⟩, none)

def delete (m : KeyMap V) (key : Nat) : KeyMap V × Option V :=
  match m.lookup key with
  | (m, none) => (m, none)
  | (m, some value) => (⟨SortedMap.erase m.items key, none, false⟩, some value)

/-! What the operations do to the items. -/

variable {m : KeyMap V} {key newKey : Nat} {value newValue : V} {x : Nat × V}

theorem items_search : (m.search key).items = m.items := by
  unfold search
  split <;> rfl

theorem items_lookup : (m.lookup key).1.items = m.items := by
  unfold lookup
  split <;> exact items_search

theorem items_peekNext : m.peekNext.1.items = m.items := by
  unfold peekNext
  split <;> rfl

theorem search_cur (h : SortedMap.find m.items key = some x) : (m.search key).cur = some x.1 := by
  rw [search, h]

theorem search_cur_mem (hs : SortedMap.Sorted m.items) (h : (key, value) ∈ m.items) :
    (m.search key).cur = some key :=
  search_cur (hs.find_self h)

theorem search_cur_ne (hs : SortedMap.Sorted m.items) (h : ∀ y ∈ m.items, y.1 ≠ key) :
    (m.search key).cur ≠ some key := by
  unfold search
  cases hf : SortedMap.find m.items key with
  | none => exact Option.some_ne_none key ∘ Eq.symm
  | some x => exact fun heq => h x (hs.find_some hf).1 (Option.some.inj heq)

theorem peekPrev_search (h : SortedMap.find m.items key = some x) :
    (m.search key).peekPrev = SortedMap.before m.items x.1 := by
  rw [peekPrev, search_cur h, items_search]

theorem peekNext_search (h : SortedMap.find m.items key = some x) :
    (m.search key).peekNext = (⟨m.items, some x.1, true⟩, SortedMap.after m.items x.1) := by
  simp [peekNext, search_cur h, items_search]

section

variable (hs : SortedMap.Sorted m.items)
include hs

theorem items_updateValue (h : (key, value) ∈ m.items) :
    (m.updateValue key newValue).1.items = SortedMap.setValue m.items key newValue := by
  rw [updateValue, if_neg (not_not.mpr (search_cur_mem hs h)), items_search]

theorem items_insert (h : ∀ y ∈ m.items, y.1 ≠ key) :
    (m.insert key value).1.items = SortedMap.insert m.items key value := by
  rw [insert, if_neg (search_cur_ne hs h), items_search]

theorem items_delete : (m.delete key).1.items = SortedMap.erase m.items key := by
  by_cases hmem : ∃ v, (key, v) ∈ m.items
  · obtain ⟨v, hv⟩ := hmem
    simp [delete, lookup, hs.find_self hv, items_search]
  have hnone : (m.lookup key).2 = none := by
    unfold lookup
    cases hf : SortedMap.find m.items key with
    | none => rfl
    | some x =>
      have hne : x.1 ≠ key := fun heq => hmem ⟨x.2, heq ▸ (hs.find_some hf).1⟩
      exact if_neg hne
  rw [delete, show m.lookup key = ((m.lookup key).1, none) from Prod.ext rfl hnone]
  simp only [items_lookup]
  refine (List.filter_eq_self.mpr fun y hy => ?_).symm
  have hne : y.1 ≠ key := fun heq => hmem ⟨y.2, heq ▸ hy⟩
  exact decide_eq_true hne

theorem items_updateKey (h : (key, value) ∈ m.items) (hlo : ∀ y ∈ m.items, y.1 < key → y.1 < newKey)
    (hhi : ∀ y ∈ m.items, key < y.1 → newKey < y.1) :
    (m.updateKey key newKey).1.items = SortedMap.setKey m.items key newKey := by
  have hnext : ¬ ((m.search key).peeked ∧
      ∃ x ∈ SortedMap.after (m.search key).items key, x.1 ≤ newKey) := by
    rintro ⟨-, x, hx, hle⟩
    rw [items_search] at hx
    obtain ⟨hmem, hlt, -⟩ := hs.after_some hx
    exact absurd (hhi x hmem hlt) (not_lt.mpr hle)
  have hprev : ¬ ∃ x ∈ SortedMap.before (m.search key).items key, newKey ≤ x.1 := by
    rintro ⟨x, hx, hle⟩
    rw [items_search] at hx
    obtain ⟨hmem, hlt, -⟩ := hs.before_some hx
    exact absurd (hlo x hmem hlt) (not_lt.mpr hle)
  rw [updateKey, if_neg (not_not.mpr (search_cur_mem hs h)), if_neg hnext, if_neg hprev,
    items_search]

end

end KeyMap

end Xfs
