import Xfs.Lib.StepFunction
import Xfs.Repair.BlockMap

/-! One call on a map whose keys are the places where the block state changes. -/
namespace Xfs

open KeyMap StepFunction SortedMap

variable {bmap : BlockMap} {f : Nat → BlockState} {offset stop b maxbno stale : Nat}
  {new : BlockState}

theorem prevState_eq_iff {l : List (Nat × BlockState)} (h : Steps l f) :
    (before l offset).map Prod.snd = some new ↔ offset ≠ 0 ∧ f (offset - 1) = new := by
  by_cases h0 : offset = 0
  · subst h0
    simp [h.before_zero]
  · obtain ⟨p, hp⟩ := h.before_pos (pos_of_ne_zero h0)
    simp [hp, h0]

/-- The range `[offset, stop)` is in one state, other than the new one. -/
structure SetRange (bmap : BlockMap) (f : Nat → BlockState) (offset stop : Nat)
    (new : BlockState) : Prop where
  steps : Steps bmap.items f
  lt : offset < stop
  same : ∀ j, offset ≤ j → j < stop → f j = f offset
  ne : new ≠ f offset

namespace SetRange

variable (h : SetRange bmap f offset stop new)
include h

theorem mem_stop_iff (s : BlockState) :
    (stop, s) ∈ bmap.items ↔ f stop = s ∧ f offset ≠ f stop := by
  have hlt := h.lt
  rw [h.steps.mem, ChangeAt, h.same (stop - 1) (by omega) (by omega)]
  have h0 : stop ≠ 0 := by omega
  simp [h0]

theorem mem_start_iff (hc : ChangeAt f offset) (s : BlockState) :
    (offset, s) ∈ bmap.items ↔ f offset = s := by
  rw [h.steps.mem, and_iff_left hc]

theorem not_mem_start (hc : ¬ ChangeAt f offset) (s : BlockState) : (offset, s) ∉ bmap.items :=
  fun hmem => hc ((h.steps.mem offset s).mp hmem).2

theorem not_mem_stop (hgo : f stop = f offset) (s : BlockState) : (stop, s) ∉ bmap.items :=
  fun hmem => ((h.mem_stop_iff s).mp hmem).2 hgo.symm

theorem not_mem_inside {x : Nat × BlockState} (hx : x ∈ bmap.items) (h1 : offset < x.1) :
    stop ≤ x.1 := by
  by_contra h2
  rcases ((h.steps.mem x.1 x.2).mp hx).2 with h0 | hne
  · omega
  · exact hne ((h.same (x.1 - 1) (by omega) (by omega)).trans
      (h.same x.1 (by omega) (by omega)).symm)

section

variable (hc : ChangeAt f offset)
include hc

theorem move_up (hgo : f stop = f offset) (h0 : offset ≠ 0) (hprev : f (offset - 1) = new) :
    Steps (bmap.updateKey offset stop).1.items (assign f offset stop new) := by
  have hlt := h.lt
  have hlo : ∀ y ∈ bmap.items, y.1 < offset → y.1 < stop := fun y _ hy => by omega
  have hhi : ∀ y ∈ bmap.items, offset < y.1 → stop < y.1 := fun y hy hlt' =>
    lt_of_le_of_ne (h.not_mem_inside hy hlt') fun heq =>
      h.not_mem_stop hgo y.2 (heq ▸ hy)
  rw [items_updateKey h.steps.sorted ((h.mem_start_iff hc _).mpr rfl) hlo hhi]
  refine h.steps.assign hlt h.same (h.steps.sorted.setKey hlo hhi) (fun k s h1 h2 => ?_)
    (fun s => ?_) fun s => ?_
  · simp [mem_setKey, h1, h2]
  · simp [mem_setKey, hlt.ne, h0, hprev]
  · simp only [mem_setKey, h.not_mem_stop hgo, h.mem_start_iff hc, hgo]
    simp [h.ne, eq_comm]

theorem updateValue_items :
    (bmap.updateValue offset new).1.items = setValue bmap.items offset new :=
  items_updateValue h.steps.sorted ((h.mem_start_iff hc _).mpr rfl)

theorem mem_updateValue_iff (x : Nat × BlockState) :
    x ∈ (bmap.updateValue offset new).1.items ↔ x ∈ bmap.items ∧ x.1 ≠ offset ∨
      x = (offset, new) := by
  rw [h.updateValue_items hc, mem_setValue]
  refine or_congr_right (and_iff_left ⟨(offset, f offset), (h.mem_start_iff hc _).mpr rfl, rfl⟩)

theorem sorted_updateValue : Sorted (bmap.updateValue offset new).1.items := by
  rw [h.updateValue_items hc]
  exact h.steps.sorted.setValue

theorem split_end (hgo : f stop = f offset) (hprev : ¬ (offset ≠ 0 ∧ f (offset - 1) = new)) :
    Steps ((bmap.updateValue offset new).1.insert stop (f offset)).1.items
      (assign f offset stop new) := by
  have hlt := h.lt
  have hfresh : ∀ y ∈ (bmap.updateValue offset new).1.items, y.1 ≠ stop := by
    intro y hy heq
    rcases (h.mem_updateValue_iff hc y).mp hy with ⟨hy, -⟩ | rfl
    · exact h.not_mem_stop hgo y.2 (heq ▸ hy)
    · exact hlt.ne heq
  rw [items_insert (h.sorted_updateValue hc) hfresh]
  refine h.steps.assign hlt h.same (h.sorted_updateValue hc).insert (fun k s h1 h2 => ?_)
    (fun s => ?_) fun s => ?_
  · simp [mem_insert, h.mem_updateValue_iff hc, h1, h2]
  · have hprev' : offset = 0 ∨ f (offset - 1) ≠ new := by tauto
    simp [mem_insert, h.mem_updateValue_iff hc, hlt.ne, hprev']
  · simp [mem_insert, hgo, h.ne]

end

theorem join_prev (hend : f stop ≠ f offset) (hnext : f stop ≠ new)
    (h0 : offset ≠ 0) (hprev : f (offset - 1) = new) :
    Steps (bmap.delete offset).1.items (assign f offset stop new) := by
  have hlt := h.lt
  rw [items_delete h.steps.sorted]
  refine h.steps.assign hlt h.same h.steps.sorted.erase (fun k s h1 h2 => ?_)
    (fun s => ?_) fun s => ?_
  · simp [mem_erase, h1]
  · simp [mem_erase, h0, hprev]
  · simp [mem_erase, hlt.ne', h.mem_stop_iff, hend.symm, hnext.symm, eq_comm]

theorem join_both (hnext : f stop = new) (h0 : offset ≠ 0) (hprev : f (offset - 1) = new) :
    Steps ((bmap.delete offset).1.delete stop).1.items (assign f offset stop new) := by
  have hlt := h.lt
  have hdel : (bmap.delete offset).1.items = erase bmap.items offset :=
    items_delete h.steps.sorted
  rw [items_delete (by rw [hdel]; exact h.steps.sorted.erase), hdel]
  refine h.steps.assign hlt h.same h.steps.sorted.erase.erase (fun k s h1 h2 => ?_)
    (fun s => ?_) fun s => ?_
  · simp [mem_erase, h1, h2]
  · simp [mem_erase, h0, hprev]
  · simp [mem_erase, hnext]

theorem join_next (hc : ChangeAt f offset) (hnext : f stop = new)
    (hprev : ¬ (offset ≠ 0 ∧ f (offset - 1) = new)) :
    Steps ((bmap.updateValue offset new).1.delete stop).1.items (assign f offset stop new) := by
  have hlt := h.lt
  rw [items_delete (h.sorted_updateValue hc)]
  refine h.steps.assign hlt h.same (h.sorted_updateValue hc).erase (fun k s h1 h2 => ?_)
    (fun s => ?_) fun s => ?_
  · simp [mem_erase, h.mem_updateValue_iff hc, h1, h2]
  · have hprev' : offset = 0 ∨ f (offset - 1) ≠ new := by tauto
    simp [mem_erase, h.mem_updateValue_iff hc, hlt.ne, hprev']
  · simp [mem_erase, hnext]

theorem change_value (hc : ChangeAt f offset) (hend : f stop ≠ f offset) (hnext : f stop ≠ new)
    (hprev : ¬ (offset ≠ 0 ∧ f (offset - 1) = new)) :
    Steps (bmap.updateValue offset new).1.items (assign f offset stop new) := by
  have hlt := h.lt
  refine h.steps.assign hlt h.same (h.sorted_updateValue hc) (fun k s h1 h2 => ?_)
    (fun s => ?_) fun s => ?_
  · simp [h.mem_updateValue_iff hc, h1]
  · have hprev' : offset = 0 ∨ f (offset - 1) ≠ new := by tauto
    simp [h.mem_updateValue_iff hc, hprev']
  · simp only [h.mem_updateValue_iff hc, h.mem_stop_iff, Prod.mk.injEq, hlt.ne', false_and,
      or_false]
    simp [hlt.ne', hend.symm, hnext.symm, eq_comm]

section

variable (hc : ¬ ChangeAt f offset)
include hc

theorem move_down (hnext : f stop = new) :
    Steps (bmap.updateKey stop offset).1.items (assign f offset stop new) := by
  have hlt := h.lt
  have hne := h.ne
  obtain ⟨h0, hsame⟩ := not_changeAt_iff.mp hc
  have hlo : ∀ y ∈ bmap.items, y.1 < stop → y.1 < offset := by
    intro y hy hlt'
    by_contra hge
    rcases Nat.eq_or_lt_of_le (not_lt.mp hge) with heq | hgt
    · exact h.not_mem_start hc y.2 (heq ▸ hy)
    · exact absurd (h.not_mem_inside hy hgt) (not_le.mpr hlt')
  have hhi : ∀ y ∈ bmap.items, stop < y.1 → offset < y.1 := fun y _ hy => hlt.trans hy
  have hmem : (stop, new) ∈ bmap.items :=
    (h.mem_stop_iff new).mpr ⟨hnext, by rw [hnext]; exact hne.symm⟩
  rw [items_updateKey h.steps.sorted hmem hlo hhi]
  refine h.steps.assign hlt h.same (h.steps.sorted.setKey hlo hhi) (fun k s h1 h2 => ?_)
    (fun s => ?_) fun s => ?_
  · simp [mem_setKey, h1, h2]
  · simp [mem_setKey, h.not_mem_start hc, h.mem_stop_iff, hnext, hsame, hne.symm, eq_comm]
  · simp [mem_setKey, hlt.ne', hnext]

theorem fresh_start : ∀ y ∈ bmap.items, y.1 ≠ offset :=
  fun y hy heq => h.not_mem_start hc y.2 (heq ▸ hy)

theorem insert_start (hend : f stop ≠ f offset) (hnext : f stop ≠ new) :
    Steps (bmap.insert offset new).1.items (assign f offset stop new) := by
  have hlt := h.lt
  obtain ⟨h0, hsame⟩ := not_changeAt_iff.mp hc
  rw [items_insert h.steps.sorted (h.fresh_start hc)]
  refine h.steps.assign hlt h.same h.steps.sorted.insert (fun k s h1 h2 => ?_)
    (fun s => ?_) fun s => ?_
  · simp [mem_insert, h1]
  · simp [mem_insert, hsame, h.ne.symm]
  · simp only [mem_insert, h.mem_stop_iff, Prod.mk.injEq, hlt.ne', false_and, false_or]
    simp [hlt.ne', hend.symm, hnext.symm, eq_comm]

theorem insert_middle (hgo : f stop = f offset) :
    Steps ((bmap.insert offset new).1.insert stop (f offset)).1.items
      (assign f offset stop new) := by
  have hlt := h.lt
  obtain ⟨h0, hsame⟩ := not_changeAt_iff.mp hc
  have hins : (bmap.insert offset new).1.items = SortedMap.insert bmap.items offset new :=
    items_insert h.steps.sorted (h.fresh_start hc)
  have hfresh : ∀ y ∈ (bmap.insert offset new).1.items, y.1 ≠ stop := by
    intro y hy heq
    rw [hins, mem_insert] at hy
    rcases hy with rfl | ⟨hy, -⟩
    · exact hlt.ne heq
    · exact h.not_mem_stop hgo y.2 (heq ▸ hy)
  rw [items_insert (by rw [hins]; exact h.steps.sorted.insert) hfresh, hins]
  refine h.steps.assign hlt h.same h.steps.sorted.insert.insert (fun k s h1 h2 => ?_)
    (fun s => ?_) fun s => ?_
  · simp [mem_insert, h1, h2]
  · simp [mem_insert, hlt.ne, hsame, h.ne.symm]
  · simp [mem_insert, hgo, h.ne]

end

end SetRange

variable {blen j : Nat} {y : Nat × BlockState}

section

variable (h : SetRange bmap f offset (offset + blen) new) (hb : offset + blen < 2 ^ 32)
include h hb

theorem setBmapExt_start (hc : ChangeAt f offset)
    (hfind : find bmap.items offset = some (offset, f offset))
    (hafter : after bmap.items offset = some y) :
    Steps (setBmapExt stale bmap offset blen new).items (assign f offset (offset + blen) new) := by
  obtain ⟨hnext, hy⟩ := h.steps.after_some hafter
  have hle : offset + blen ≤ y.1 := by
    by_contra hgt
    exact hnext.change (h.same y.1 hnext.lt.le (by omega))
  have hm : SetRange ⟨bmap.items, some offset, true⟩ f offset (offset + blen) new :=
    ⟨h.steps, h.lt, h.same, h.ne⟩
  simp only [setBmapExt, add32_eq hb, KeyMap.find, hfind, if_true, peekPrev_search hfind,
    peekNext_search hfind, hafter, Option.map_some, Option.getD_some, Option.some.injEq,
    hy, prevState_eq_iff h.steps, if_neg h.ne.symm]
  by_cases hgo : offset + blen < y.1
  · -- the run goes on behind the range
    have hsame := hnext.same (offset + blen) h.lt.le hgo
    split_ifs with hprev
    · exact hm.move_up hc hsame hprev.1 hprev.2
    · exact hm.split_end hc hsame hprev
  have heq : y.1 = offset + blen := by omega
  have hend : f (offset + blen) ≠ f offset := heq ▸ hnext.change
  rw [if_neg hgo, heq]
  split_ifs with h1 h2 h2
  · exact hm.join_both h1 h2.1 h2.2
  · exact hm.join_next hc h1 h2
  · exact hm.join_prev hend h1 h2.1 h2.2
  · exact hm.change_value hc hend h1 h2

theorem setBmapExt_middle (hc : ¬ ChangeAt f offset) (hfind : find bmap.items offset = some y)
    (hnext : NextChange f offset y.1) (hy : y.2 = f y.1) :
    Steps (setBmapExt stale bmap offset blen new).items (assign f offset (offset + blen) new) := by
  have hle : offset + blen ≤ y.1 := by
    by_contra hgt
    exact hnext.change (h.same y.1 hnext.lt.le (by omega))
  have hm : SetRange (bmap.search offset) f offset (offset + blen) new :=
    ⟨by rw [items_search]; exact h.steps, h.lt, h.same, h.ne⟩
  have hlt := hnext.lt
  have hold : f (y.1 - 1) = f offset := hnext.same (y.1 - 1) (by omega) (by omega)
  obtain ⟨p, hp⟩ := h.steps.before_pos (show 0 < y.1 by omega)
  rw [hold] at hp
  have hne : ¬ f offset = new := h.ne.symm
  simp only [setBmapExt, add32_eq hb, KeyMap.find, hfind, if_neg hlt.ne,
    peekPrev_search hfind, hp, Option.map_some, Option.some.injEq, if_neg hne, hy]
  by_cases hstop : offset + blen = y.1
  · have hend : f (offset + blen) ≠ f offset := hstop ▸ hnext.change
    rw [if_pos hstop, ← hstop]
    split_ifs with h1
    · exact hm.move_down hc h1.symm
    · exact hm.insert_start hc hend fun heq => h1 heq.symm
  · rw [if_neg hstop]
    exact hm.insert_middle hc (hnext.same _ h.lt.le (by omega))

end

theorem setBmapExt_steps (h : Steps bmap.items f) (hlen : 0 < blen) (hb : offset + blen < 2 ^ 32)
    (hsame : ∀ i, offset ≤ i → i < offset + blen → f i = f offset) (hj : offset < j)
    (hmore : f j ≠ f offset) :
    Steps (setBmapExt stale bmap offset blen new).items (assign f offset (offset + blen) new) := by
  obtain ⟨x, hfind⟩ := h.exists_find hj hmore
  obtain ⟨y, hafter⟩ := h.exists_after hj hmore
  obtain ⟨hx, hcase⟩ := h.find_some hfind
  by_cases hnew : f offset = new
  · -- nothing to do
    have hitems : (setBmapExt stale bmap offset blen new).items = bmap.items := by
      rcases hcase with ⟨hx1, hc⟩ | ⟨hc, hnext⟩
      · have hs : x.2 = new := by rw [hx, hx1, hnew]
        simp [setBmapExt, KeyMap.find, hfind, hx1, hs, items_search]
      · have hlt := hnext.lt
        obtain ⟨p, hp⟩ := h.before_pos (show 0 < x.1 by omega)
        rw [hnext.same (x.1 - 1) (by omega) (by omega), hnew] at hp
        simp [setBmapExt, KeyMap.find, hfind, if_neg hlt.ne, peekPrev_search hfind, hp,
          items_search]
    rw [hitems, assign_eq_self fun i h1 h2 => (hsame i h1 h2).trans hnew]
    exact h
  · have hrange : SetRange bmap f offset (offset + blen) new :=
      ⟨h, by omega, hsame, fun heq => hnew heq.symm⟩
    rcases hcase with ⟨hx1, hc⟩ | ⟨hc, hnext⟩
    · have hpair : x = (offset, f offset) := Prod.ext hx1 (hx1 ▸ hx)
      exact setBmapExt_start hrange hb hc (hpair ▸ hfind) hafter
    · exact setBmapExt_middle hrange hb hc hfind hnext hx

theorem getBmapExt_items {wantLen : Bool} :
    (getBmapExt bmap b maxbno wantLen).1.items = bmap.items := by
  simp only [getBmapExt, KeyMap.find]
  cases hfind : find bmap.items b with
  | none => exact items_search
  | some x =>
    simp only [peekNext_search hfind, peekPrev_search hfind]
    split_ifs
    · cases after bmap.items x.1 <;> rfl
    · exact items_search
    · cases before bmap.items x.1 <;> exact items_search
    · cases before bmap.items x.1 <;> exact items_search

theorem getBmapExt_steps (h : Steps bmap.items f) (hj : b < j) (hmore : f j ≠ f b)
    (hmax : b ≤ maxbno) (hmax32 : maxbno < 2 ^ 32) :
    ∃ n, NextChange f b n ∧
      (getBmapExt bmap b maxbno true).2 = some (f b, some (min maxbno n - b)) := by
  obtain ⟨x, hfind⟩ := h.exists_find hj hmore
  obtain ⟨y, hafter⟩ := h.exists_after hj hmore
  obtain ⟨hnextY, -⟩ := h.after_some hafter
  obtain ⟨hx, hcase⟩ := h.find_some hfind
  have hsub : ∀ n, b < n → sub32 (min maxbno n) b = min maxbno n - b := fun n hn =>
    sub32_eq (by omega) (by omega)
  rcases hcase with ⟨hx1, hc⟩ | ⟨hc, hnext⟩
  · refine ⟨y.1, hnextY, ?_⟩
    simp [getBmapExt, KeyMap.find, hfind, peekNext_search hfind, hafter, hx1, hx,
      hsub y.1 hnextY.lt]
  · refine ⟨x.1, hnext, ?_⟩
    have hlt := hnext.lt
    obtain ⟨p, hp⟩ := h.before_pos (show 0 < x.1 by omega)
    rw [hnext.same (x.1 - 1) (by omega) (by omega)] at hp
    simp [getBmapExt, KeyMap.find, hfind, if_neg hlt.ne', peekPrev_search hfind, hp, hsub x.1 hlt]

end Xfs
