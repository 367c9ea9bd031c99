import Xfs.Repair.BlockMapRuns

/-! The index of the blocks of an allocation group that were claimed more than once. -/
namespace Xfs

open StepFunction SortedMap

/-- The value of a key is the end of the extent that starts there. -/
def addDupExtent (dups : KeyMap Nat) (startblock blockcount : Nat) : KeyMap Nat :=
  (dups.insert startblock (add32 startblock blockcount)).1

def searchDupExtent (dups : KeyMap Nat) (startAgbno endAgbno : Nat) : KeyMap Nat × Bool :=
  match dups.find startAgbno with
  | (dups, none) => (dups, false)
  | (dups, some (bno, _)) =>
    if bno < endAgbno then (dups, true)
    else (dups, dups.peekPrev.any fun x => decide (startAgbno < x.2))

/-- Set up the index for a group, run by run. Realtime extents are never searched. -/
def processDupExtents (isrt : Bool) (agEnd : Nat) :
    Nat → BlockMap → KeyMap Nat → Nat → BlockMap × KeyMap Nat
  | 0, bmap, dups, _ => (bmap, dups)
  | passes + 1, bmap, dups, agbno =>
    match getBmapExt bmap agbno agEnd true with
    | (bmap, some (bstate, some blen)) =>
      let dups := if bstate = .mult ∧ isrt = false then addDupExtent dups agbno blen else dups
      let agbno := add32 agbno blen
      if agbno < agEnd then processDupExtents isrt agEnd passes bmap dups agbno else (bmap, dups)
    | (bmap, _) => (bmap, dups)

/-- The extents are runs of duplicate blocks, and none from `lo` to `hi` is left out. -/
structure DupIndex (f : Nat → BlockState) (lo hi : Nat) (items : List (Nat × Nat)) : Prop where
  sorted : Sorted items
  bounds : ∀ x ∈ items, lo ≤ x.1 ∧ x.1 < x.2 ∧ x.2 ≤ hi
  mult : ∀ x ∈ items, ∀ b, x.1 ≤ b → b < x.2 → f b = .mult
  start : ∀ x ∈ items, x.1 = lo ∨ f (x.1 - 1) ≠ .mult
  covers : ∀ b, lo ≤ b → b < hi → f b = .mult → ∃ x ∈ items, x.1 ≤ b ∧ b < x.2

variable {f : Nat → BlockState} {lo hi s e : Nat} {items : List (Nat × Nat)} {dups : KeyMap Nat}
  {bmap : BlockMap}

theorem DupIndex.skip (h : DupIndex f lo hi items) {stop : Nat} (hle : hi ≤ stop)
    (hno : ∀ b, hi ≤ b → b < stop → f b ≠ .mult) : DupIndex f lo stop items := by
  refine ⟨h.sorted, fun x hx => ?_, h.mult, h.start, fun b h1 h2 hb => ?_⟩
  · have := h.bounds x hx
    omega
  · rcases lt_or_ge b hi with hlt | hge
    · exact h.covers b h1 hlt hb
    · exact absurd hb (hno b hge h2)

theorem DupIndex.add (h : DupIndex f lo hi dups.items) {blen : Nat} (hlo : lo ≤ hi)
    (hpos : 0 < blen) (h32 : hi + blen < 2 ^ 32)
    (hmult : ∀ b, hi ≤ b → b < hi + blen → f b = .mult) (hstart : hi = lo ∨ f (hi - 1) ≠ .mult) :
    DupIndex f lo (hi + blen) (addDupExtent dups hi blen).items := by
  have hfresh : ∀ y ∈ dups.items, y.1 ≠ hi := fun y hy => by
    have := h.bounds y hy
    omega
  rw [addDupExtent, add32_eq h32, KeyMap.items_insert h.sorted hfresh]
  have hmem : ∀ x, x ∈ SortedMap.insert dups.items hi (hi + blen) →
      x = (hi, hi + blen) ∨ x ∈ dups.items := fun x hx => (mem_insert.mp hx).imp_right And.left
  refine ⟨h.sorted.insert, fun x hx => ?_, fun x hx => ?_, fun x hx => ?_, fun b h1 h2 hb => ?_⟩
  · rcases hmem x hx with rfl | hx
    · exact ⟨hlo, by simpa using hpos, le_rfl⟩
    · have := h.bounds x hx
      omega
  · rcases hmem x hx with rfl | hx
    · exact hmult
    · exact h.mult x hx
  · rcases hmem x hx with rfl | hx
    · exact hstart
    · exact h.start x hx
  · rcases lt_or_ge b hi with hlt | hge
    · obtain ⟨x, hx, hxb⟩ := h.covers b h1 hlt hb
      exact ⟨x, mem_insert.mpr (.inr ⟨hx, hfresh x hx⟩), hxb⟩
    · exact ⟨_, mem_insert.mpr (.inl rfl), hge, h2⟩

theorem processDupExtents_index {agEnd : Nat} (h : Steps bmap.items f)
    (hmore : ∀ b < agEnd, ∃ j, b < j ∧ f j ≠ f b) (h32 : agEnd < 2 ^ 32) {passes agbno : Nat}
    (hlo : lo ≤ agbno) (hlt : agbno < agEnd) (hpasses : agEnd ≤ agbno + passes)
    (hidx : DupIndex f lo agbno dups.items) (hchange : agbno = lo ∨ f (agbno - 1) ≠ f agbno) :
    DupIndex f lo agEnd (processDupExtents false agEnd passes bmap dups agbno).2.items := by
  induction passes generalizing bmap dups agbno with
  | zero => omega
  | succ passes ih =>
    obtain ⟨j, hj, hne⟩ := hmore agbno hlt
    obtain ⟨n, hn, hget⟩ := getBmapExt_steps h hj hne hlt.le h32
    have hnlt := hn.lt
    have hitems : (getBmapExt bmap agbno agEnd true).1.items = bmap.items := getBmapExt_items
    have hadd : add32 agbno (min agEnd n - agbno) = min agEnd n := by
      rw [add32_eq (by omega)]
      omega
    unfold processDupExtents
    generalize getBmapExt bmap agbno agEnd true = r at hget hitems
    obtain ⟨bmap', answer⟩ := r
    obtain rfl : answer = _ := hget
    simp only [hadd, and_true]
    generalize hdups : (if f agbno = .mult then addDupExtent dups agbno (min agEnd n - agbno)
      else dups) = dups'
    have hidx' : DupIndex f lo (min agEnd n) dups'.items := by
      rw [← hdups]
      split_ifs with hmult
      · have hstop : agbno + (min agEnd n - agbno) = min agEnd n := by omega
        have hadded := hidx.add hlo (show 0 < min agEnd n - agbno by omega) (by omega)
          (fun b h1 h2 => (hn.same b h1 (by omega)).trans hmult)
          (hchange.imp_right fun hne => hmult ▸ hne)
        rwa [hstop] at hadded
      · refine hidx.skip (by omega) fun b h1 h2 => ?_
        rwa [hn.same b h1 (by omega)]
    split_ifs with hgo
    · have hmin : min agEnd n = n := by omega
      rw [hmin] at hgo hidx' ⊢
      refine ih (hitems ▸ h) (by omega) hgo (by omega) hidx' (.inr ?_)
      rw [hn.same (n - 1) (by omega) (by omega)]
      exact hn.change.symm
    · have hmin : min agEnd n = agEnd := by omega
      exact hmin ▸ hidx'

theorem DupIndex.le_of_lt (h : DupIndex f lo hi items) {x y : Nat × Nat} (hx : x ∈ items)
    (hy : y ∈ items) (hlt : x.1 < y.1) : x.2 ≤ y.1 := by
  by_contra hover
  have hxlo := (h.bounds x hx).1
  rcases h.start y hy with heq | hne
  · omega
  · exact hne (h.mult x hx (y.1 - 1) (by omega) (by omega))

theorem searchDupExtent_iff (h : DupIndex f lo hi dups.items) (hse : s < e) :
    (searchDupExtent dups s e).2 ↔
      (∃ x ∈ dups.items, s ≤ x.1) ∧ ∃ x ∈ dups.items, x.1 < e ∧ s < x.2 := by
  unfold searchDupExtent KeyMap.find
  cases hfind : SortedMap.find dups.items s with
  | none =>
    refine iff_of_false Bool.false_ne_true ?_
    rintro ⟨⟨x, hx, hle⟩, -⟩
    exact absurd (find_none hfind x hx) (not_lt.mpr hle)
  | some y =>
    obtain ⟨hy, hle, hfirst⟩ := h.sorted.find_some hfind
    have hybounds := h.bounds y hy
    simp only [KeyMap.peekPrev_search hfind]
    split_ifs with hlt
    · exact iff_of_true rfl ⟨⟨y, hy, hle⟩, y, hy, hlt, by omega⟩
    rw [and_iff_right ⟨y, hy, hle⟩]
    simp only [Option.any_eq_true, decide_eq_true_eq]
    constructor
    · rintro ⟨x, hx, hs⟩
      obtain ⟨hmem, hxy, -⟩ := h.sorted.before_some hx
      have hxs : x.1 < s := by
        by_contra hge
        have := hfirst x hmem (not_lt.mp hge)
        omega
      exact ⟨x, hmem, by omega, hs⟩
    · rintro ⟨x, hx, hxe, hxs⟩
      cases hb : before dups.items y.1 with
      | none =>
        have := before_none hb x hx
        omega
      | some z =>
        obtain ⟨hz, -, hlast⟩ := h.sorted.before_some hb
        have hxz := hlast x hx (by omega)
        refine ⟨z, rfl, ?_⟩
        rcases hxz.lt_or_eq with hlt' | heq
        · have := h.le_of_lt hx hz hlt'
          have := h.bounds z hz
          omega
        · rwa [← h.sorted.eq_of_key hx hz heq]

theorem DupIndex.overlap_iff (h : DupIndex f lo hi items) (hse : s < e) (he : e ≤ hi) :
    (∃ x ∈ items, x.1 < e ∧ s < x.2) ↔ ∃ b, s ≤ b ∧ b < e ∧ lo ≤ b ∧ f b = .mult := by
  constructor
  · rintro ⟨x, hx, hxe, hxs⟩
    have := h.bounds x hx
    exact ⟨max s x.1, by omega, by omega, by omega, h.mult x hx _ (by omega) (by omega)⟩
  · rintro ⟨b, h1, h2, h3, hb⟩
    obtain ⟨x, hx, hxb⟩ := h.covers b h3 (by omega) hb
    exact ⟨x, hx, by omega, by omega⟩

/-- A block where a run of duplicate blocks starts, as the walk from `lo` sees it. -/
def DupStart (f : Nat → BlockState) (lo hi b : Nat) : Prop :=
  lo ≤ b ∧ b < hi ∧ f b = .mult ∧ (b = lo ∨ f (b - 1) ≠ .mult)

theorem DupIndex.start_iff (h : DupIndex f lo hi items) :
    (∃ x ∈ items, s ≤ x.1) ↔ ∃ b, s ≤ b ∧ DupStart f lo hi b := by
  constructor
  · rintro ⟨x, hx, hle⟩
    have hb := h.bounds x hx
    exact ⟨x.1, hle, hb.1, by omega, h.mult x hx _ le_rfl hb.2.1, h.start x hx⟩
  · rintro ⟨b, hle, h1, h2, hb, hstart⟩
    obtain ⟨x, hx, hxb, hbx⟩ := h.covers b h1 h2 hb
    refine ⟨x, hx, ?_⟩
    have hxlo := (h.bounds x hx).1
    rcases hxb.lt_or_eq with hlt | heq
    · rcases hstart with heq | hne
      · omega
      · exact absurd (h.mult x hx (b - 1) (by omega) (by omega)) hne
    · omega

def dupIndexAfter (mp : BlockGeometry) (agno : Nat) (bmap : BlockMap) : KeyMap Nat :=
  (processDupExtents false (agSize mp agno) (agSize mp agno) bmap .empty (agHdrBlock mp)).2

/-- A search for duplicate blocks is right exactly when, if there are any in the range, one lies
behind the headers of the group and some run of them starts in or behind the range. -/
theorem dup_index_exact_iff (mp : BlockGeometry) (agno : Nat) (bmap : BlockMap)
    (f : Nat → BlockState) (hhdr : agHdrBlock mp < agSize mp agno)
    (h : GroupHolds mp ⟨agno, false⟩ bmap f) (s e : Nat) (hse : s < e) (he : e ≤ agSize mp agno) :
    ((searchDupExtent (dupIndexAfter mp agno bmap) s e).2 = true ↔
        ∃ b, s ≤ b ∧ b < e ∧ f b = .mult) ↔
      ((∃ b, s ≤ b ∧ b < e ∧ f b = .mult) → (∃ b, s ≤ b ∧ b < e ∧ agHdrBlock mp ≤ b ∧ f b = .mult) ∧
          ∃ b, s ≤ b ∧ DupStart f (agHdrBlock mp) (agSize mp agno) b) := by
  have hempty : DupIndex f (agHdrBlock mp) (agHdrBlock mp) (KeyMap.empty : KeyMap Nat).items :=
    ⟨List.Pairwise.nil, by simp [KeyMap.empty], by simp [KeyMap.empty], by simp [KeyMap.empty],
      fun b h1 h2 => by omega⟩
  have hidx : DupIndex f (agHdrBlock mp) (agSize mp agno) (dupIndexAfter mp agno bmap).items :=
    processDupExtents_index h.steps (fun b hb => h.more hb) h.size_lt le_rfl hhdr
      (Nat.le_add_left _ _) hempty (.inl rfl)
  rw [searchDupExtent_iff hidx hse, hidx.overlap_iff hse he, hidx.start_iff]
  constructor
  · exact fun hexact hany => (hexact.mpr hany).symm
  · intro hseen
    refine ⟨fun hfound => ?_, fun hany => (hseen hany).symm⟩
    obtain ⟨b, h1, h2, -, hb⟩ := hfound.2
    exact ⟨b, h1, h2, hb⟩

def sampleDups : List BlockCall := [.set ⟨0, false⟩ 60 5 .mult 0]

theorem sampleDups_holds : GroupHolds sampleGeometry ⟨0, false⟩
    (bmapsAfter 0 sampleGeometry (fun _ => .empty) sampleDups ⟨0, false⟩)
    (statesAfter sampleGeometry sampleDups ⟨0, false⟩) := by
  have hfit : CallsFit sampleGeometry (resetStates sampleGeometry) sampleDups := by
    refine ⟨⟨by decide, by decide, by decide, fun i j h1 h2 h3 h4 => ?_, by decide⟩, trivial⟩
    interval_cases i <;> interval_cases j <;> rfl
  exact blockRun_holds (resetBmaps_holds sampleGeometry_valid 0 _) hfit _ (by decide)

/-- A search that starts in front of the only run of duplicate blocks finds it. -/
theorem dup_index_exact_sample : (searchDupExtent (dupIndexAfter sampleGeometry 0
      (bmapsAfter 0 sampleGeometry (fun _ => .empty) sampleDups ⟨0, false⟩)) 50 62).2 = true ↔
      ∃ b, 50 ≤ b ∧ b < 62 ∧ statesAfter sampleGeometry sampleDups ⟨0, false⟩ b = .mult :=
  (dup_index_exact_iff sampleGeometry 0 _ _ (by decide) sampleDups_holds 50 62 (by decide)
    (by decide)).mpr fun _ => ⟨⟨60, by decide, by decide, by decide, by decide⟩,
      60, by decide, by decide, by decide, by decide, .inr (by decide)⟩

/-- A search that starts inside of the last run of duplicate blocks finds nothing. -/
theorem dup_index_misses_last : (searchDupExtent (dupIndexAfter sampleGeometry 0
      (bmapsAfter 0 sampleGeometry (fun _ => .empty) sampleDups ⟨0, false⟩)) 62 64).2 = false ∧
      statesAfter sampleGeometry sampleDups ⟨0, false⟩ 62 = .mult := by
  decide

end Xfs
