import Xfs.Repair.KeyMap

/-! Changing a key of repair's btree. The check against the next key is made only when that key
has been fetched, so the verdict is the right one exactly for the calls that find it fetched or do
not need it. -/
namespace Xfs.KeyMap

variable {V : Type} {m : KeyMap V} {oldKey newKey : Nat}

inductive Call (V : Type) where
  | find (key : Nat)
  | lookup (key : Nat)
  | peekNext
  | lookupNext
  | lookupPrev
  | updateKey (oldKey newKey : Nat)
  | updateValue (key : Nat) (newValue : V)
  | insert (key : Nat) (value : V)
  | delete (key : Nat)
deriving DecidableEq

def Call.apply (m : KeyMap V) : Call V → KeyMap V
  | .find key => (m.find key).1
  | .lookup key => (m.lookup key).1
  | .peekNext => m.peekNext.1
  | .lookupNext => m.lookupNext.1
  | .lookupPrev => m.lookupPrev.1
  | .updateKey oldKey newKey => (m.updateKey oldKey newKey).1
  | .updateValue key newValue => (m.updateValue key newValue).1
  | .insert key value => (m.insert key value).1
  | .delete key => (m.delete key).1

/-- What `P` says of the map and the two keys holds at each change of a key in the calls. -/
def AtUpdates (P : KeyMap V → Nat → Nat → Prop) : KeyMap V → List (Call V) → Prop
  | _, [] => True
  | m, .updateKey oldKey newKey :: calls =>
    P m oldKey newKey ∧ AtUpdates P (m.updateKey oldKey newKey).1 calls
  | m, call :: calls => AtUpdates P (call.apply m) calls

def HasKey (items : List (Nat × V)) (key : Nat) : Prop := ∃ x ∈ items, x.1 = key

/-- `newKey` is strictly between the neighbours of `oldKey`. -/
def Between (items : List (Nat × V)) (oldKey newKey : Nat) : Prop :=
  (∀ x ∈ items, x.1 < oldKey → x.1 < newKey) ∧ ∀ x ∈ items, oldKey < x.1 → newKey < x.1

instance (items : List (Nat × V)) (key : Nat) : Decidable (HasKey items key) :=
  inferInstanceAs (Decidable (∃ x ∈ items, x.1 = key))

instance (items : List (Nat × V)) (oldKey newKey : Nat) : Decidable (Between items oldKey newKey) :=
  inferInstanceAs (Decidable (_ ∧ _))

/-- The verdict that the items call for. -/
def updateVerdict (items : List (Nat × V)) (oldKey newKey : Nat) : Option Errno :=
  if ¬ HasKey items oldKey then some .enoent
  else if ¬ Between items oldKey newKey then some .einval
  else none

/-- The answer is that of the items, and the key is replaced exactly on success. -/
structure UpdateRight (m : KeyMap V) (oldKey newKey : Nat) : Prop where
  verdict : (m.updateKey oldKey newKey).2 = updateVerdict m.items oldKey newKey
  peek : ((m.search oldKey).peekNext.1.updateKey oldKey newKey).2 =
    (m.updateKey oldKey newKey).2
  items : (m.updateKey oldKey newKey).1.items =
    if (m.updateKey oldKey newKey).2 = none then SortedMap.setKey m.items oldKey newKey
    else m.items

/-- The next key, if it does not stay above the new one, has been fetched. -/
def NextFetched (m : KeyMap V) (oldKey newKey : Nat) : Prop :=
  HasKey m.items oldKey → (∃ x ∈ m.items, oldKey < x.1 ∧ x.1 ≤ newKey) →
    m.peeked = true ∧ m.cur = some oldKey

theorem not_between_iff : ¬ Between m.items oldKey newKey ↔
    (∃ x ∈ m.items, oldKey < x.1 ∧ x.1 ≤ newKey) ∨ ∃ x ∈ m.items, x.1 < oldKey ∧ newKey ≤ x.1 := by
  simp only [Between, not_and_or, not_forall, not_lt, exists_prop]
  exact or_comm

section

variable (hs : SortedMap.Sorted m.items)
include hs

theorem search_cur_iff : (m.search oldKey).cur = some oldKey ↔ HasKey m.items oldKey := by
  constructor
  · intro hcur
    by_contra hno
    exact search_cur_ne hs (fun y hy heq => hno ⟨y, hy, heq⟩) hcur
  · rintro ⟨x, hx, rfl⟩
    exact search_cur_mem hs hx

theorem search_peeked (hkey : HasKey m.items oldKey) :
    (m.search oldKey).peeked ↔ m.peeked ∧ m.cur = some oldKey := by
  obtain ⟨x, hx, rfl⟩ := hkey
  simp [search, hs.find_self hx]

theorem after_le_iff : (∃ x ∈ SortedMap.after m.items oldKey, x.1 ≤ newKey) ↔
    ∃ x ∈ m.items, oldKey < x.1 ∧ x.1 ≤ newKey := by
  constructor
  · rintro ⟨x, hx, hle⟩
    obtain ⟨hmem, hlt, -⟩ := hs.after_some hx
    exact ⟨x, hmem, hlt, hle⟩
  · rintro ⟨y, hy, hlt, hle⟩
    cases ha : SortedMap.after m.items oldKey with
    | none => exact absurd (SortedMap.after_none ha y hy) (not_le.mpr hlt)
    | some x => exact ⟨x, rfl, ((hs.after_some ha).2.2 y hy hlt).trans hle⟩

theorem le_before_iff : (∃ x ∈ SortedMap.before m.items oldKey, newKey ≤ x.1) ↔
    ∃ x ∈ m.items, x.1 < oldKey ∧ newKey ≤ x.1 := by
  constructor
  · rintro ⟨x, hx, hle⟩
    obtain ⟨hmem, hlt, -⟩ := hs.before_some hx
    exact ⟨x, hmem, hlt, hle⟩
  · rintro ⟨y, hy, hlt, hle⟩
    cases hb : SortedMap.before m.items oldKey with
    | none => exact absurd (SortedMap.before_none hb y hy) (not_le.mpr hlt)
    | some x => exact ⟨x, rfl, hle.trans ((hs.before_some hb).2.2 y hy hlt)⟩

theorem updateKey_enoent (hkey : ¬ HasKey m.items oldKey) :
    m.updateKey oldKey newKey = (m.search oldKey, some .enoent) :=
  if_pos fun hcur => hkey ((search_cur_iff hs).mp hcur)

theorem updateKey_hasKey (newKey : Nat) (hkey : HasKey m.items oldKey) :
    ((m.updateKey oldKey newKey).2 = some .einval ∧ (m.updateKey oldKey newKey).1.items = m.items ∧
        ((m.peeked ∧ m.cur = some oldKey ∧ ∃ x ∈ m.items, oldKey < x.1 ∧ x.1 ≤ newKey) ∨
          ∃ x ∈ m.items, x.1 < oldKey ∧ newKey ≤ x.1)) ∨
      ((m.updateKey oldKey newKey).2 = none ∧
        (m.updateKey oldKey newKey).1.items = SortedMap.setKey m.items oldKey newKey ∧
        ¬ (m.peeked ∧ m.cur = some oldKey ∧ ∃ x ∈ m.items, oldKey < x.1 ∧ x.1 ≤ newKey) ∧
        ¬ ∃ x ∈ m.items, x.1 < oldKey ∧ newKey ≤ x.1) := by
  have hcur := (search_cur_iff hs).mpr hkey
  unfold updateKey
  simp only [hcur, ne_eq, not_true_eq_false, if_false, items_search, search_peeked hs hkey,
    after_le_iff hs, le_before_iff hs, and_assoc]
  split_ifs with hnext hprev
  · exact .inl ⟨rfl, items_search, .inl hnext⟩
  · exact .inl ⟨rfl, items_search, .inr hprev⟩
  · exact .inr ⟨rfl, rfl, hnext, hprev⟩

theorem updateKey_verdict (hfetched : NextFetched m oldKey newKey) :
    (m.updateKey oldKey newKey).2 = updateVerdict m.items oldKey newKey := by
  unfold updateVerdict
  by_cases hkey : HasKey m.items oldKey
  · rw [if_neg (not_not.mpr hkey)]
    obtain ⟨hret, -, hbad⟩ | ⟨hret, -, hnext, hprev⟩ := updateKey_hasKey hs newKey hkey
    · have hnot := not_between_iff.mpr (hbad.imp_left fun h => h.2.2)
      rw [hret, if_pos hnot]
    · have hbetween : ¬¬ Between m.items oldKey newKey := fun hnot =>
        (not_between_iff.mp hnot).elim
          (fun h => hnext ⟨(hfetched hkey h).1, (hfetched hkey h).2, h⟩) hprev
      rw [hret, if_neg hbetween]
  · rw [updateKey_enoent hs hkey, if_pos hkey]

theorem updateKey_items : (m.updateKey oldKey newKey).1.items =
    if (m.updateKey oldKey newKey).2 = none then SortedMap.setKey m.items oldKey newKey
    else m.items := by
  by_cases hkey : HasKey m.items oldKey
  · obtain ⟨hret, hitems, -⟩ | ⟨hret, hitems, -⟩ := updateKey_hasKey hs newKey hkey
    · rw [hret, hitems, if_neg (by simp)]
    · rw [hret, hitems, if_pos rfl]
  · rw [updateKey_enoent hs hkey, items_search, if_neg (by simp)]

theorem peekNext_updateKey : ((m.search oldKey).peekNext.1.updateKey oldKey newKey).2 =
    updateVerdict m.items oldKey newKey := by
  have hitems : (m.search oldKey).peekNext.1.items = m.items := items_peekNext.trans items_search
  rw [updateKey_verdict (by rwa [hitems]), hitems]
  intro hkey _
  rw [hitems] at hkey
  obtain ⟨x, hx, rfl⟩ := hkey
  rw [peekNext_search (hs.find_self hx)]
  exact ⟨rfl, rfl⟩

theorem updateRight_iff : UpdateRight m oldKey newKey ↔ NextFetched m oldKey newKey := by
  constructor
  · rintro ⟨hverdict, -, -⟩ hkey ⟨x, hx, hlt, hle⟩
    have hnot := not_between_iff.mpr (.inl ⟨x, hx, hlt, hle⟩)
    rw [updateVerdict, if_neg (not_not.mpr hkey), if_pos hnot] at hverdict
    obtain ⟨-, -, hbad⟩ | ⟨hret, -⟩ := updateKey_hasKey hs newKey hkey
    · obtain ⟨hpeeked, hcur, -⟩ | ⟨y, -, hylt, hley⟩ := hbad
      · exact ⟨hpeeked, hcur⟩
      · omega
    · rw [hret] at hverdict
      cases hverdict
  · intro hfetched
    have hverdict := updateKey_verdict hs hfetched
    exact ⟨hverdict, (peekNext_updateKey hs).trans hverdict.symm, updateKey_items hs⟩

theorem UpdateRight.sorted (hright : UpdateRight m oldKey newKey) :
    SortedMap.Sorted (m.updateKey oldKey newKey).1.items := by
  rw [hright.items]
  split_ifs with hret
  · have hbetween : Between m.items oldKey newKey := by
      by_contra hnot
      rw [hright.verdict, updateVerdict] at hret
      split_ifs at hret
    exact hs.setKey hbetween.1 hbetween.2
  · exact hs

theorem apply_sorted {call : Call V} (hcall : ∀ o n, call ≠ .updateKey o n) :
    SortedMap.Sorted (call.apply m).items := by
  cases call with
  | find key => rwa [Call.apply, find, items_search]
  | lookup key => rwa [Call.apply, items_lookup]
  | peekNext => rwa [Call.apply, items_peekNext]
  | lookupNext =>
    simp only [Call.apply, lookupNext]
    split
    · exact hs
    · split <;> exact hs
  | lookupPrev =>
    simp only [Call.apply, lookupPrev]
    split
    · exact hs
    · split <;> exact hs
  | updateKey oldKey newKey => exact absurd rfl (hcall oldKey newKey)
  | updateValue key newValue =>
    simp only [Call.apply, updateValue]
    split_ifs
    · rwa [items_search]
    · rw [items_search]
      exact hs.setValue
  | insert key value =>
    simp only [Call.apply, insert]
    split_ifs
    · rwa [items_search]
    · rw [items_search]
      exact hs.insert
  | delete key => exact items_delete hs ▸ hs.erase

end

theorem atUpdates_iff (hs : SortedMap.Sorted m.items) (calls : List (Call V)) :
    AtUpdates UpdateRight m calls ↔ AtUpdates NextFetched m calls := by
  induction calls generalizing m with
  | nil => rfl
  | cons call calls ih =>
    cases call with
    | updateKey oldKey newKey =>
      simp only [AtUpdates, updateRight_iff hs]
      refine and_congr_right fun hfetched => ih ?_
      exact ((updateRight_iff hs).mpr hfetched).sorted hs
    | _ => exact ih (apply_sorted hs (by simp))

/-- The verdicts on changes of keys are right in exactly those sequences of calls on a new btree in
which each change that would reach the next key comes when that key has been fetched. -/
theorem update_key_verdict_iff (calls : List (Call V)) :
    AtUpdates UpdateRight empty calls ↔ AtUpdates NextFetched empty calls :=
  atUpdates_iff (m := empty) List.Pairwise.nil calls

/-- Keys 1 and 5, then 1 changed to 9 with the next key not fetched: the change is accepted. -/
theorem update_key_passes_next : ¬ AtUpdates UpdateRight (empty : KeyMap Nat)
        [.insert 1 0, .insert 5 0, .lookup 1, .updateKey 1 9] ∧
      (((((empty : KeyMap Nat).insert 1 0).1.insert 5 0).1.lookup 1).1.updateKey 1 9) =
        (⟨[(9, 0), (5, 0)], some 9, false⟩, none) := by
  exact ⟨fun h => absurd h.1.verdict (by decide), by decide⟩

end Xfs.KeyMap
