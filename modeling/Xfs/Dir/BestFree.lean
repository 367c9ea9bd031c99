import Xfs.Dir.DataBlock

/-! The bestfree table against the unused regions of a block: what the table
routines keep, and when they need a scan. -/
namespace Xfs

variable {P Q : DataFree → Prop} {bf : BestFree} {new old d : DataFree} {i : Fin 3}

def BestFree.Has (bf : BestFree) (d : DataFree) : Prop := d = bf.b0 ∨ d = bf.b1 ∨ d = bf.b2

structure TableOk (P : DataFree → Prop) (bf : BestFree) : Prop where
  sorted : bf.b1.length ≤ bf.b0.length ∧ bf.b2.length ≤ bf.b1.length
  real : ∀ d, bf.Has d → d = .zero ∨ P d
  distinct : (bf.b0 = bf.b1 → bf.b0 = .zero) ∧ (bf.b0 = bf.b2 → bf.b0 = .zero) ∧
    (bf.b1 = bf.b2 → bf.b1 = .zero)
  rest : ∀ d, P d → bf.Has d ∨ d.length ≤ bf.b2.length

theorem slot_cases (i : Fin 3) : i = 0 ∨ i = 1 ∨ i = 2 := by omega

theorem TableOk.congr (h : TableOk P bf) (hpQ : ∀ d, P d ↔ Q d) : TableOk Q bf := by
  have : P = Q := funext fun d => propext (hpQ d)
  rwa [← this]

theorem TableOk.zero : TableOk (fun _ => False) .zero :=
  ⟨⟨le_rfl, le_rfl⟩, fun d hd => by rcases hd with rfl | rfl | rfl <;> exact .inl rfl,
    ⟨fun _ => rfl, fun _ => rfl, fun _ => rfl⟩, fun _ hd => hd.elim⟩

theorem DataFree.zero_length : DataFree.zero.length = 0 := rfl

theorem TableOk.insert (h : TableOk P bf) (hnew : ¬ P new) :
    TableOk (fun d => d = new ∨ P d) (dir2DataFreeinsert bf new).1 := by
  obtain ⟨⟨h01, h12⟩, hreal, ⟨hd01, hd02, hd12⟩, hrest⟩ := h
  unfold dir2DataFreeinsert
  split
  · refine ⟨?_, ?_, ?_, ?_⟩ <;> grind [BestFree.Has]
  · split
    · refine ⟨?_, ?_, ?_, ?_⟩ <;> grind [BestFree.Has]
    · split
      · refine ⟨?_, ?_, ?_, ?_⟩ <;> grind [BestFree.Has]
      · refine ⟨?_, ?_, ?_, ?_⟩ <;> grind [BestFree.Has]

theorem TableOk.remove (h : TableOk P bf) (hpos : ∀ d, P d → 0 < d.length)
    (hall : bf.b2.length = 0) (hold : P (bf.get i)) :
    TableOk (fun d => d ≠ bf.get i ∧ P d) (dir2DataFreeremove bf (some i)) ∧
      (dir2DataFreeremove bf (some i)).b2.length = 0 := by
  obtain ⟨⟨h01, h12⟩, hreal, ⟨hd01, hd02, hd12⟩, hrest⟩ := h
  refine ⟨?_, ?_⟩
  · rcases slot_cases i with rfl | rfl | rfl <;>
      refine ⟨?_, ?_, ?_, ?_⟩ <;> grind [BestFree.Has, BestFree.get, dir2DataFreeremove]
  · rcases slot_cases i with rfl | rfl | rfl <;> rfl

theorem TableOk.exchange (h : TableOk P bf) (hold : P (bf.get i)) (hnew : ¬ P new) (hlen : 0 < new.length)
    (hgood : (dir2DataFreeinsert (dir2DataFreeremove bf (some i)) new).2 ≠ some 2 ∨
      bf.b2.length ≤ new.length) :
    TableOk (fun d => d = new ∨ (d ≠ bf.get i ∧ P d))
      (dir2DataFreeinsert (dir2DataFreeremove bf (some i)) new).1 := by
  obtain ⟨⟨h01, h12⟩, hreal, ⟨hd01, hd02, hd12⟩, hrest⟩ := h
  have hz := DataFree.zero_length
  rcases slot_cases i with rfl | rfl | rfl <;> refine ⟨?_, ?_, ?_, ?_⟩ <;>
    grind [BestFree.Has, BestFree.get, dir2DataFreeremove, dir2DataFreeinsert]

def BestFree.Found (bf : BestFree) (d : DataFree) : Option (Fin 3) → Prop
  | some i => bf.get i = d
  | none => ¬ bf.Has d

/-- Unused regions do not start at zero, are not empty, and start at different
places. -/
structure RegionsOk (P : DataFree → Prop) : Prop where
  offset : ∀ d, P d → 0 < d.offset
  length : ∀ d, P d → 0 < d.length
  unique : ∀ d d', P d → P d' → d.offset = d'.offset → d = d'

theorem TableOk.freefind (h : TableOk P bf) (hP : RegionsOk P) {mem : ByteMem} {dup : Nat}
    (hd : P (freeAt mem dup)) : bf.Found (freeAt mem dup) (dir2DataFreefind bf mem dup) := by
  obtain ⟨⟨h01, h12⟩, hreal, -, -⟩ := h
  have hpos : 0 < dup := hP.offset _ hd
  have heq : ∀ s, bf.Has s → s.offset = dup → s = freeAt mem dup := by
    intro s hs hoff
    rcases hreal s hs with rfl | hs
    · exact absurd hoff (ne_of_lt hpos)
    · exact hP.unique _ _ hs hd hoff
  have hempty : ∀ s, bf.Has s → s.offset = 0 → s.length = 0 := by
    intro s hs hoff
    rcases hreal s hs with rfl | hs
    · rfl
    · exact absurd hoff (ne_of_gt (hP.offset s hs))
  have hlen : 0 < unusedLength mem dup := hP.length _ hd
  have hz0 := hempty bf.b0 (.inl rfl)
  have hz1 := hempty bf.b1 (.inr (.inl rfl))
  -- a region that is not found differs from every slot in offset or length
  have hnone : (∀ s, bf.Has s → s.offset = dup → s.length ≠ unusedLength mem dup) →
      ¬ bf.Has (freeAt mem dup) := fun h hd => h _ hd rfl rfl
  unfold dir2DataFreefind
  split_ifs with hlt hb0 hs0 hb1 hs1 hb2 hs2
  · refine hnone fun s hs _ => ?_
    rcases hs with rfl | rfl | rfl <;> omega
  · refine hnone fun s hs _ => ?_
    rcases hs with rfl | rfl | rfl <;> omega
  · exact heq _ (.inl rfl) hs0
  · refine hnone fun s hs _ => ?_
    rcases hs with rfl | rfl | rfl <;> omega
  · exact heq _ (.inr (.inl rfl)) hs1
  · refine hnone fun s hs _ => ?_
    rcases hs with rfl | rfl | rfl <;> omega
  · exact heq _ (.inr (.inr rfl)) hs2
  · refine hnone fun s hs _ => ?_
    rcases hs with rfl | rfl | rfl <;> omega

section Change

variable {dfp dfp2 : Option (Fin 3)} {old2 new2 : DataFree}

theorem TableOk.last_le (h : TableOk P bf) (i : Fin 3) : bf.b2.length ≤ (bf.get i).length := by
  have := h.sorted
  rcases slot_cases i with rfl | rfl | rfl <;> simp only [BestFree.get] <;> omega

theorem TableOk.found_some (h : TableOk P bf) (hpos : ∀ d, P d → 0 < d.length)
    (hall : bf.b2.length = 0) (hold : P old) (hfound : bf.Found old dfp) :
    ∃ i, dfp = some i ∧ bf.get i = old := by
  cases dfp with
  | some i => exact ⟨i, rfl, hfound⟩
  | none =>
    have := hpos old hold
    rcases h.rest old hold with hhas | hle
    · exact absurd hhas hfound
    · omega

variable (h : TableOk P bf) (hold : P old)
include h hold

theorem TableOk.unlisted (hnone : ¬ bf.Has old) (hle : ∀ d, Q d → P d ∨ d.length ≤ bf.b2.length)
    (hkeep : ∀ d, P d → d ≠ old → Q d) : TableOk Q bf := by
  refine ⟨h.sorted, fun d hd => ?_, h.distinct, fun d hd => ?_⟩
  · refine (h.real d hd).imp_right fun hP => hkeep d hP ?_
    rintro rfl
    exact hnone hd
  · rcases hle d hd with hP | hlen
    · exact h.rest d hP
    · exact .inr hlen

theorem TableOk.unlisted_le (hnone : ¬ bf.Has old) : old.length ≤ bf.b2.length :=
  (h.rest old hold).resolve_left hnone

theorem TableOk.growFree (hnew : ¬ P new) (hfound : bf.Found old dfp)
    (hlt : old.length < new.length) (hscan : (growFree bf dfp new).2 = false) :
    TableOk (fun d => d = new ∨ (d ≠ old ∧ P d)) (growFree bf dfp new).1 := by
  cases dfp with
  | none =>
    have hle : ¬ bf.b2.length < new.length := of_decide_eq_false hscan
    refine h.unlisted hold hfound (fun d hd => ?_) fun d hP hne => .inr ⟨hne, hP⟩
    rcases hd with rfl | hd
    · exact .inr (by omega)
    · exact .inl hd.2
  | some i =>
    obtain rfl : bf.get i = old := hfound
    have hlast := h.last_le i
    exact h.exchange hold hnew (by omega) (.inr (by omega))

theorem TableOk.trimFree (hnew : ¬ P new) (hfound : bf.Found old dfp) (hpos : 0 < new.length)
    (hlt : new.length < old.length) :
    ∃ bf' needscan, trimFree bf dfp new = .ok (bf', needscan) ∧
      (needscan = false → TableOk (fun d => d = new ∨ (d ≠ old ∧ P d)) bf') := by
  cases dfp with
  | none =>
    refine ⟨bf, false, rfl, fun _ => h.unlisted hold hfound (fun d hd => ?_)
      fun d hP hne => .inr ⟨hne, hP⟩⟩
    rcases hd with rfl | hd
    · exact .inr (hlt.le.trans (h.unlisted_le hold hfound))
    · exact .inl hd.2
  | some i =>
    obtain rfl : bf.get i = old := hfound
    -- the third slot is empty after the removal, so the insertion finds a slot
    have hcheck : dir2DataCheckNewFree (dir2DataFreeinsert (dir2DataFreeremove bf (some i)) new).1
        (dir2DataFreeinsert (dir2DataFreeremove bf (some i)) new).2 new := by
      have hempty : (dir2DataFreeremove bf (some i)).b2.length = 0 := by
        rcases slot_cases i with rfl | rfl | rfl <;> rfl
      unfold dir2DataFreeinsert
      split_ifs
      · exact decide_eq_true rfl
      · exact decide_eq_true rfl
      · exact decide_eq_true rfl
      · omega
    refine ⟨_, _, if_pos hcheck, fun hscan => h.exchange hold hnew hpos (.inl ?_)⟩
    exact of_decide_eq_false hscan

theorem TableOk.dropFree (hP : RegionsOk P) (hfound : bf.Found old dfp)
    (hscan : (dropFree bf dfp).2 = false) :
    TableOk (fun d => d ≠ old ∧ P d) (dropFree bf dfp).1 := by
  cases dfp with
  | none => exact h.unlisted hold hfound (fun d hd => .inl hd.2) fun d hP hne => ⟨hne, hP⟩
  | some i =>
    obtain rfl : bf.get i = old := hfound
    simp only [Xfs.dropFree] at hscan ⊢
    by_cases h2 : bf.b2.offset ≠ 0
    · rw [if_pos h2] at hscan
      cases hscan
    rw [if_neg h2]
    have hall : bf.b2.length = 0 := by
      rcases h.real bf.b2 (.inr (.inr rfl)) with hz | hb2
      · rw [hz]
        rfl
      · exact absurd (ne_of_gt (hP.offset _ hb2)) h2
    exact (h.remove hP.length hall hold).1

theorem TableOk.cutFree (hnew : ¬ P new) (hnew2 : ¬ P new2) (hne : new2 ≠ new) (hfound : bf.Found old dfp)
    (hlen : 0 < new.length)
    (hlt : new.length ≤ old.length) (hlt2 : new2.length ≤ old.length)
    (hscan : (cutFree bf dfp new new2).2 = false) :
    TableOk (fun d => d = new2 ∨ d = new ∨ (d ≠ old ∧ P d)) (cutFree bf dfp new new2).1 := by
  cases dfp with
  | none =>
    have hle := h.unlisted_le hold hfound
    refine h.unlisted hold hfound (fun d hd => ?_) fun d hP hne => .inr (.inr ⟨hne, hP⟩)
    rcases hd with rfl | rfl | hd
    · exact .inr (hlt2.trans hle)
    · exact .inr (hlt.trans hle)
    · exact .inl hd.2
  | some i =>
    obtain rfl : bf.get i = old := hfound
    simp only [Xfs.cutFree] at hscan ⊢
    by_cases hall : bf.b2.length ≠ 0
    · rw [if_pos hall] at hscan
      cases hscan
    · rw [if_neg hall]
      have hone := h.exchange hold hnew hlen (.inr (by omega))
      refine hone.insert ?_
      rintro (heq | ⟨-, hP⟩)
      · exact hne heq
      · exact hnew2 hP

theorem TableOk.joinFree (hpos : ∀ d, P d → 0 < d.length) (hold2 : P old2) (hne : old ≠ old2)
    (hnew : ¬ P new) (hfound : bf.Found old dfp) (hfound2 : bf.Found old2 dfp2)
    (hscan : (joinFree bf dfp dfp2 new).2 = false) :
    TableOk (fun d => d = new ∨ (d ≠ old ∧ d ≠ old2 ∧ P d)) (joinFree bf dfp dfp2 new).1 := by
  simp only [Xfs.joinFree] at hscan ⊢
  by_cases hall : bf.b2.length ≠ 0
  · rw [if_pos hall] at hscan
    cases hscan
  rw [if_neg hall]
  have hall : bf.b2.length = 0 := by omega
  obtain ⟨i, rfl, hi⟩ := h.found_some hpos hall hold hfound
  obtain ⟨j, rfl, hj⟩ := h.found_some hpos hall hold2 hfound2
  -- the two slots in use are the first and the second, in either order
  have hslots : ∀ k, P (bf.get k) → k = 0 ∨ k = 1 := by
    intro k hk
    rcases slot_cases k with rfl | rfl | rfl
    · exact .inl rfl
    · exact .inr rfl
    · exact absurd (hpos _ hk) (by simp only [BestFree.get]; omega)
  have hij : (i = 0 ∧ j = 1) ∨ (i = 1 ∧ j = 0) := by
    rcases hslots i (hi ▸ hold) with rfl | rfl <;> rcases hslots j (hj ▸ hold2) with rfl | rfl
    · exact absurd (hi.symm.trans hj) hne
    · exact .inl ⟨rfl, rfl⟩
    · exact .inr ⟨rfl, rfl⟩
    · exact absurd (hi.symm.trans hj) hne
  have hb0 : P (bf.get 0) := by rcases hij with ⟨rfl, rfl⟩ | ⟨rfl, rfl⟩ <;> simp_all
  have hb1 : P (bf.get 1) := by rcases hij with ⟨rfl, rfl⟩ | ⟨rfl, rfl⟩ <;> simp_all
  obtain ⟨hone, hnone⟩ := h.remove hpos hall hb1
  have h0 : (dir2DataFreeremove bf (some 1)).get 0 = bf.get 0 := rfl
  have hne01 : bf.get 0 ≠ bf.get 1 := by
    rcases hij with ⟨rfl, rfl⟩ | ⟨rfl, rfl⟩
    · rwa [hi, hj]
    · rw [hi, hj]
      exact hne.symm
  obtain ⟨htwo, -⟩ := hone.remove (fun d hd => hpos d hd.2) hnone (by rw [h0]; exact ⟨hne01, hb0⟩)
  have habsent : ¬ (new ≠ (dir2DataFreeremove bf (some 1)).get 0 ∧ new ≠ bf.get 1 ∧ P new) :=
    fun hd => hnew hd.2.2
  have hthree := htwo.insert habsent
  rw [h0] at hthree
  rcases hij with ⟨rfl, rfl⟩ | ⟨rfl, rfl⟩
  · refine TableOk.congr hthree fun d => ?_
    rw [hi, hj]
  · refine TableOk.congr hthree fun d => ?_
    rw [hi, hj, and_left_comm]

end Change

end Xfs
