import Xfs.Frog.BitmapSet

/-! What `bitmapClear` does to the set, and the test. -/
namespace Xfs

open List IntervalList

/-- When clearing works: no extent reaches over both ends. -/
def ClearFits (l : List BitmapNode) (start len : Nat) : Prop :=
  ∀ x ∈ l, ¬ (x.start < start ∧ start + len < x.stop)

instance (l : List BitmapNode) (start len : Nat) : Decidable (ClearFits l start len) :=
  inferInstanceAs (Decidable (∀ x ∈ l, _))

section

variable (bal : Avl64Balance BitmapNode) {bmap bmap' : Bitmap} {l A B F G : List BitmapNode}
  {x y f : BitmapNode} {start b : Nat}

/-- What is left of an extent. -/
def clearPiece (start len : Nat) (x : BitmapNode) : List BitmapNode :=
  (if x.start < start then [⟨x.start, start - x.start⟩] else []) ++
    if start + len < x.stop then [⟨start + len, x.stop - (start + len)⟩] else []

theorem bitmapMem_nil : ¬ bitmapMem [] b := by
  rintro ⟨x, hx, -⟩
  exact absurd hx not_mem_nil

variable {len : Nat}

theorem bitmapMem_clearPiece (h1 : start < x.stop) (h2 : x.start < start + len) :
    bitmapMem (clearPiece start len x) b ↔
      (x.start ≤ b ∧ b < x.stop) ∧ ¬ (start ≤ b ∧ b < start + len) := by
  have hleft : bitmapMem (if x.start < start then [⟨x.start, start - x.start⟩] else []) b ↔
      x.start ≤ b ∧ b < start := by
    split_ifs with hlt
    · rw [bitmapMem_cons]
      simp only [bitmapMem_nil, or_false, BitmapNode.stop]
      omega
    · simp only [bitmapMem_nil, false_iff]
      omega
  have hright : bitmapMem (if start + len < x.stop then
      [⟨start + len, x.stop - (start + len)⟩] else []) b ↔ start + len ≤ b ∧ b < x.stop := by
    split_ifs with hlt
    · rw [bitmapMem_cons]
      simp only [bitmapMem_nil, or_false, BitmapNode.stop]
      omega
    · simp only [bitmapMem_nil, false_iff]
      omega
  rw [clearPiece, bitmapMem_append, hleft, hright]
  omega

theorem BitmapInv.replace {p : List BitmapNode} (h : BitmapInv (A ++ x :: B)) (hp : BitmapInv p)
    (hin : ∀ y ∈ p, x.start ≤ y.start ∧ y.stop ≤ x.stop) : BitmapInv ((A ++ p) ++ B) := by
  obtain ⟨hA, hxB, haxB⟩ := BitmapInv.append_iff.mp h
  obtain ⟨-, -, hxB', hB⟩ := BitmapInv.cons_iff.mp hxB
  refine BitmapInv.append_iff.mpr ⟨BitmapInv.append_iff.mpr ⟨hA, hp, fun y hy z hz => ?_⟩, hB,
    fun y hy z hz => ?_⟩
  · exact (haxB y hy x (by simp)).trans (hin z hz).1
  · rcases mem_append.mp hy with hy | hy
    · exact haxB y hy z (by simp [hz])
    · exact (hin y hy).2.trans (hxB' z hz)

theorem bitmapClearLoop_right (h : BitmapInv (A ++ (G ++ B)))
    (ht : inorder bmap = A ++ (G ++ B)) (hend : start + len < 2 ^ 64)
    (hG : ∀ x ∈ G, start < x.stop ∧ x.start < start + len ∧
      ¬ (x.start < start ∧ start + len < x.stop)) :
    ∃ bmap', bitmapClearLoop bal start len G bmap = (bmap', none) ∧ BitmapInv (inorder bmap') ∧
      inorder bmap' = A ++ (G.flatMap (clearPiece start len) ++ B) := by
  induction G generalizing A bmap with
  | nil => exact ⟨bmap, rfl, ht ▸ h, ht⟩
  | cons x G ih =>
    have hmem : x ∈ A ++ (x :: G ++ B) := by simp
    have hxb := h.bound x hmem
    have hnodup : (inorder bmap).Nodup := ht ▸ h.sep.nodup
    obtain ⟨h1, h2, h3⟩ := hG x (by simp)
    have hstop : extentEnd x = x.stop := h.extentEnd hmem
    have hstep : ∀ bmap1 p, clearPiece start len x = p → BitmapInv p →
        (∀ y ∈ p, x.start ≤ y.start ∧ y.stop ≤ x.stop) →
        inorder bmap1 = A ++ (p ++ (G ++ B)) →
        bitmapClearLoop bal start len (x :: G) bmap = bitmapClearLoop bal start len G bmap1 →
        ∃ bmap', bitmapClearLoop bal start len (x :: G) bmap = (bmap', none) ∧
          BitmapInv (inorder bmap') ∧
          inorder bmap' = A ++ ((x :: G).flatMap (clearPiece start len) ++ B) := by
      intro bmap1 p hp hpinv hpin ht1 hrun1
      obtain ⟨bmap', hrun, hinv, hin⟩ := ih (h.replace hpinv hpin)
        (by rw [ht1, append_assoc]) (fun y hy => hG y (by simp [hy]))
      refine ⟨bmap', hrun1.trans hrun, hinv, ?_⟩
      rw [hin, flatMap_cons, hp]
      simp only [append_assoc]
    by_cases hl : x.start < start
    · -- cut off at the start of the range
      have hr : ¬ start + len < x.stop := fun hr => h3 ⟨hl, hr⟩
      have hsub : sub64 start x.start = start - x.start := sub64_eq hl.le (by omega)
      have hleft : BitmapNode.stop ⟨x.start, start - x.start⟩ = start := by
        simp only [BitmapNode.stop]
        omega
      refine hstep (avlModify bmap x ⟨x.start, start - x.start⟩) [⟨x.start, start - x.start⟩]
        (by simp [clearPiece, hl, hr]) ?_ ?_ (inorder_avlModify hnodup ht) ?_
      · refine BitmapInv.cons_iff.mpr ⟨?_, ?_, by simp, separated_nil, by simp⟩
        · rw [hleft]
          exact hl
        · omega
      · intro y hy
        obtain rfl := mem_singleton.mp hy
        rw [hleft]
        exact ⟨le_rfl, h1.le⟩
      · rw [bitmapClearLoop, hstop, add64_eq hend, hsub, decide_eq_true hl, decide_eq_false hr]
    · by_cases hr : start + len < x.stop
      · -- moved to the end of the range
        have hsub : sub64 x.stop (start + len) = x.stop - (start + len) :=
          sub64_eq hr.le (by omega)
        have hright : BitmapNode.stop ⟨start + len, x.stop - (start + len)⟩ = x.stop := by
          rw [show BitmapNode.stop ⟨start + len, x.stop - (start + len)⟩ =
            start + len + (x.stop - (start + len)) from rfl]
          omega
        refine hstep (avlModify bmap x ⟨start + len, x.stop - (start + len)⟩)
          [⟨start + len, x.stop - (start + len)⟩] (by simp [clearPiece, hl, hr]) ?_ ?_
          (inorder_avlModify hnodup ht) ?_
        · refine BitmapInv.cons_iff.mpr ⟨?_, ?_, by simp, separated_nil, by simp⟩
          · rw [hright]
            exact hr
          · rw [hright]
            exact hxb
        · intro y hy
          obtain rfl := mem_singleton.mp hy
          rw [hright]
          exact ⟨h2.le, le_rfl⟩
        · rw [bitmapClearLoop, hstop, add64_eq hend, hsub, decide_eq_false hl, decide_eq_true hr]
      · -- inside the range
        refine hstep (avl64Delete bal bmap x) [] (by simp [clearPiece, hl, hr])
          ⟨separated_nil, by simp⟩ (by simp) (inorder_avl64Delete hnodup ht) ?_
        rw [bitmapClearLoop, hstop, add64_eq hend, decide_eq_false hl, decide_eq_false hr]

section

variable (h : BitmapInv (inorder bmap)) (hlen : 0 < len) (hend : start + len < 2 ^ 64)
include h hlen hend

theorem bitmap_split : ∃ A F B, inorder bmap = A ++ (F ++ B) ∧ (∀ x ∈ A, x.stop ≤ start) ∧
      (∀ x ∈ F, start < x.stop ∧ x.start < start + len) ∧ (∀ x ∈ B, start + len ≤ x.start) ∧
      (F = [] → avl64Findranges bitmapOps bmap start (add64 start len) = none) ∧
      (F ≠ [] → ∃ first last,
        avl64Findranges bitmapOps bmap start (add64 start len) = some (first, last) ∧
          avlRange (inorder bmap) first last = F) := by
  rw [add64_eq hend]
  obtain ⟨hnone, hsome⟩ := avl64Findranges_spec h.avlSeparated (show start < start + len by omega)
  rw [h.window_eq] at hnone hsome
  exact ⟨_, _, _, h.sep.split (by omega),
    fun x hx => (mem_below.mp hx).2, fun x hx => (mem_window.mp hx).2,
    fun x hx => (mem_above.mp hx).2, hnone, hsome⟩

theorem bitmapTest_iff : bitmapTest bmap start len ↔
      ∃ b, start ≤ b ∧ b < start + len ∧ bitmapMem (inorder bmap) b := by
  obtain ⟨A, F, B, hsplit, hA, hF, hB, hnone, hsome⟩ := bitmap_split h hlen hend
  cases F with
  | nil =>
    rw [bitmapTest, hnone rfl]
    simp only [Option.isSome_none, Bool.false_eq_true, false_iff]
    rintro ⟨b, h1, h2, x, hx, h3, h4⟩
    rw [hsplit] at hx
    rcases mem_append.mp hx with hx | hx
    · have := hA x hx
      omega
    · have := hB x hx
      omega
  | cons f G =>
    obtain ⟨first, last, hfind, -⟩ := hsome (by simp)
    obtain ⟨h1, h2⟩ := hF f (by simp)
    have hmem : f ∈ inorder bmap := by simp [hsplit]
    have hpos := h.pos hmem
    rw [bitmapTest, hfind]
    simp only [Option.isSome_some, true_iff]
    exact ⟨max start f.start, by omega, by omega, f, hmem, by omega, by omega⟩

end

theorem bitmapMem_flatMap_clearPiece (hF : ∀ x ∈ F, start < x.stop ∧ x.start < start + len) :
    bitmapMem (F.flatMap (clearPiece start len)) b ↔
      bitmapMem F b ∧ ¬ (start ≤ b ∧ b < start + len) := by
  constructor
  · rintro ⟨y, hy, hb⟩
    obtain ⟨x, hx, hyx⟩ := mem_flatMap.mp hy
    obtain ⟨hxb, hnot⟩ := (bitmapMem_clearPiece (hF x hx).1 (hF x hx).2).mp ⟨y, hyx, hb⟩
    exact ⟨⟨x, hx, hxb⟩, hnot⟩
  · rintro ⟨⟨x, hx, hxb⟩, hnot⟩
    obtain ⟨y, hy, hb⟩ := (bitmapMem_clearPiece (hF x hx).1 (hF x hx).2).mpr ⟨hxb, hnot⟩
    exact ⟨y, mem_flatMap.mpr ⟨x, hx, hy⟩, hb⟩

theorem bitmapClear_right (h : BitmapInv (inorder bmap)) (hlen : 0 < len)
    (hend : start + len < 2 ^ 64) (hfits : ClearFits (inorder bmap) start len) :
    ∃ bmap', bitmapClear bal bmap start len = (bmap', none) ∧ BitmapInv (inorder bmap') ∧
      ∀ b, bitmapMem (inorder bmap') b ↔
        bitmapMem (inorder bmap) b ∧ ¬ (start ≤ b ∧ b < start + len) := by
  obtain ⟨A, F, B, hsplit, hA, hF, hB, hnone, hsome⟩ := bitmap_split h hlen hend
  obtain ⟨bmap', hrun, hinv, hin⟩ : ∃ bmap', bitmapClear bal bmap start len = (bmap', none) ∧
      BitmapInv (inorder bmap') ∧
      inorder bmap' = A ++ (F.flatMap (clearPiece start len) ++ B) := by
    by_cases hnil : F = []
    · subst hnil
      exact ⟨bmap, by rw [bitmapClear, hnone rfl], h, hsplit⟩
    obtain ⟨first, last, hfind, hrange⟩ := hsome hnil
    have hfound : ∀ x ∈ F, start < x.stop ∧ x.start < start + len ∧
        ¬ (x.start < start ∧ start + len < x.stop) := by
      intro x hx
      exact ⟨(hF x hx).1, (hF x hx).2, hfits x (by rw [hsplit]; simp [hx])⟩
    rw [hsplit] at h
    obtain ⟨bmap', hloop, hdone⟩ := bitmapClearLoop_right bal h hsplit hend hfound
    refine ⟨bmap', ?_, hdone⟩
    rw [bitmapClear, hfind]
    simp only [hrange, hloop]
  refine ⟨bmap', hrun, hinv, fun b => ?_⟩
  have haout : bitmapMem A b → ¬ (start ≤ b ∧ b < start + len) := by
    rintro ⟨x, hx, h1, h2⟩
    have := hA x hx
    omega
  have hbout : bitmapMem B b → ¬ (start ≤ b ∧ b < start + len) := by
    rintro ⟨x, hx, h1, h2⟩
    have := hB x hx
    omega
  rw [hin, hsplit, bitmapMem_append, bitmapMem_append, bitmapMem_append, bitmapMem_append,
    bitmapMem_flatMap_clearPiece hF, or_and_right, or_and_right, and_iff_left_of_imp haout,
    and_iff_left_of_imp hbout]

theorem BitmapInv.found_over (h : BitmapInv (A ++ (F ++ B))) (hx : x ∈ A ++ (F ++ B))
    (hA : ∀ y ∈ A, y.stop ≤ start) (hF : ∀ y ∈ F, start < y.stop ∧ y.start < start + len)
    (hB : ∀ y ∈ B, start + len ≤ y.start) (h1 : x.start < start) (h2 : start + len < x.stop) :
    F = [x] := by
  have hxF : x ∈ F := by
    rcases mem_append.mp hx with hxA | hxFB
    · have := hA x hxA
      omega
    · rcases mem_append.mp hxFB with hxF | hxB
      · exact hxF
      · have := hB x hxB
        omega
  have hall : ∀ y ∈ F, y = x := by
    intro y hy
    have hyF := hF y hy
    rcases h.sep.eq_or_apart hx (show y ∈ A ++ (F ++ B) by simp [hy]) with heq | hle | hle
    · exact heq.symm
    · omega
    · omega
  have hnodup : F.Nodup :=
    (nodup_append.mp (nodup_append.mp h.sep.nodup).2.1).1
  rcases F with _ | ⟨y, _ | ⟨z, G⟩⟩
  · exact absurd hxF not_mem_nil
  · rw [hall y (mem_singleton_self y)]
  · have hy := hall y (by simp)
    have hz := hall z (by simp)
    exact absurd hnodup (by simp [hy, hz])

theorem bitmapClearLoop_over (h : BitmapInv (A ++ x :: B)) (ht : inorder bmap = A ++ x :: B)
    (hA : ∀ y ∈ A, y.stop ≤ start) (hB : ∀ y ∈ B, start + len ≤ y.start) (hlen : 0 < len)
    (h1 : x.start < start) (h2 : start + len < x.stop) :
    ∃ bmap', bitmapClearLoop bal start len [x] bmap = (bmap', none) ∧ inorder bmap' =
        (A ++ [⟨x.start, start - x.start⟩]) ++ ⟨start + len, 2 ^ 64 - len⟩ :: B := by
  have hmem : x ∈ A ++ x :: B := by simp
  have hxb := h.bound x hmem
  have hainv : BitmapInv A := (BitmapInv.append_iff.mp h).1
  have hstop : extentEnd x = x.stop := h.extentEnd hmem
  have hsub : sub64 start x.start = start - x.start := sub64_eq h1.le (by omega)
  have hleft : extentEnd ⟨x.start, start - x.start⟩ = start :=
    (add64_eq (show x.start + (start - x.start) < 2 ^ 64 by omega)).trans (by omega)
  have hnew : sub64 start (start + len) = 2 ^ 64 - len := by
    unfold sub64
    omega
  have hnewEnd : extentEnd ⟨start + len, 2 ^ 64 - len⟩ = start := by
    show (start + len + (2 ^ 64 - len)) % 2 ^ 64 = start
    omega
  obtain ⟨bmap', hins, hin⟩ : ∃ bmap', avl64Insert bitmapOps bal
      (avlModify bmap x ⟨x.start, start - x.start⟩) ⟨start + len, 2 ^ 64 - len⟩ = some bmap' ∧
      inorder bmap' = (A ++ [⟨x.start, start - x.start⟩]) ++ ⟨start + len, 2 ^ 64 - len⟩ :: B := by
    refine avl64Insert_some ?_ (fun y hy => ?_) fun y hy => ?_
    · rw [inorder_avlModify (ht ▸ h.sep.nodup) ht]
      simp
    · show extentEnd y ≤ start + len ∧ y.start < extentEnd _
      rw [hnewEnd]
      rcases mem_append.mp hy with hyA | hyx
      · rw [hainv.extentEnd hyA]
        have hle := hA y hyA
        have hpos := hainv.pos hyA
        omega
      · obtain rfl := mem_singleton.mp hyx
        rw [hleft]
        exact ⟨Nat.le_add_right _ _, h1⟩
    · show extentEnd _ ≤ y.start
      have hle := hB y hy
      omega
  refine ⟨bmap', ?_, hin⟩
  rw [bitmapClearLoop, hstop, add64_eq (by omega), decide_eq_true h1, decide_eq_true h2]
  simp only [hsub, hleft, hnew, hins, bitmapClearLoop]

theorem bitmapClear_wrong (h : BitmapInv (inorder bmap)) (hlen : 0 < len)
    (hend : start + len + 1 < 2 ^ 64) (hfits : ¬ ClearFits (inorder bmap) start len)
    (hrun : bitmapClear bal bmap start len = (bmap', none)) :
    ∃ b, ¬ (bitmapMem (inorder bmap') b ↔
      bitmapMem (inorder bmap) b ∧ ¬ (start ≤ b ∧ b < start + len)) := by
  unfold ClearFits at hfits
  push Not at hfits
  obtain ⟨x, hx, h1, h2⟩ := hfits
  obtain ⟨A, F, B, hsplit, hA, hF, hB, -, hsome⟩ := bitmap_split h hlen
    (show start + len < 2 ^ 64 by omega)
  rw [hsplit] at h hx
  obtain rfl := h.found_over hx hA hF hB h1 h2
  obtain ⟨first, last, hfind, hrange⟩ := hsome (by simp)
  obtain ⟨bmap1, hloop, hin⟩ := bitmapClearLoop_over bal h hsplit hA hB hlen h1 h2
  rw [bitmapClear, hfind] at hrun
  simp only [hrange, hloop] at hrun
  obtain rfl : bmap1 = bmap' := congrArg Prod.fst hrun
  refine ⟨2 ^ 64 - 1, fun hiff => ?_⟩
  have hmem : bitmapMem (inorder bmap1) (2 ^ 64 - 1) := by
    rw [hin]
    refine ⟨⟨start + len, 2 ^ 64 - len⟩, by simp, ?_, ?_⟩
    · show start + len ≤ 2 ^ 64 - 1
      omega
    · show 2 ^ 64 - 1 < start + len + (2 ^ 64 - len)
      omega
  obtain ⟨⟨y, hy, hy1, hy2⟩, -⟩ := hiff.mp hmem
  have := h.bound y (hsplit ▸ hy)
  omega

end

end Xfs
