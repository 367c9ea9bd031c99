import Xfs.Frog.Bitmap

/-! Extents that are apart and in order, and what `bitmapSet` does to the set they stand for. -/
namespace Xfs

open List IntervalList

def BitmapNode.stop (x : BitmapNode) : Nat := x.start + x.length

/-- The extents are apart and in order, and their ends leave room for one more. -/
structure BitmapInv (l : List BitmapNode) : Prop where
  sep : Separated BitmapNode.start BitmapNode.stop l
  bound : ∀ x ∈ l, x.stop + 1 < 2 ^ 64

def bitmapMem (l : List BitmapNode) (b : Nat) : Prop := ∃ x ∈ l, x.start ≤ b ∧ b < x.stop

def SetFits (l : List BitmapNode) (start length : Nat) : Prop :=
  (start = 0 → ∀ x ∈ l, length ≤ x.start) ∧
  (0 < start → ∀ x ∈ l, x.start < start → start ≤ x.stop → x.stop < start + length →
    (x.stop = start → ∀ y ∈ l, y.start = start → y.stop < start + length) ∧
    (start < x.stop → ∃ y ∈ l, y.start ≤ start + length ∧ start + length ≤ y.stop ∧
      (length + x.stop ≤ y.stop ∨ 2 ^ 64 ≤ length + x.stop)))

instance (l : List BitmapNode) (start length : Nat) : Decidable (SetFits l start length) :=
  inferInstanceAs (Decidable (_ ∧ _))

section

variable (bal : Avl64Balance BitmapNode) {bmap bmap' : Bitmap} {l A B F G : List BitmapNode}
  {x y f : BitmapNode} {start length a c b : Nat}

theorem bitmapMem_append : bitmapMem (A ++ B) b ↔ bitmapMem A b ∨ bitmapMem B b := by
  unfold bitmapMem
  simp [or_and_right, exists_or]

theorem bitmapMem_cons : bitmapMem (x :: l) b ↔ (x.start ≤ b ∧ b < x.stop) ∨ bitmapMem l b := by
  unfold bitmapMem
  simp

theorem BitmapInv.pos (h : BitmapInv l) (hx : x ∈ l) : x.start < x.stop := h.sep.nonempty x hx

theorem BitmapInv.extentEnd (h : BitmapInv l) (hx : x ∈ l) : extentEnd x = x.stop :=
  add64_eq (by have := h.bound x hx; unfold BitmapNode.stop at this; omega)

theorem BitmapInv.avlSeparated (h : BitmapInv l) : AvlSeparated bitmapOps l where
  nonempty _ hx := (h.pos hx).trans_eq (h.extentEnd hx).symm
  pairwise := h.sep.pairwise.imp_of_mem fun hx _ hle => (h.extentEnd hx).trans_le hle

theorem BitmapInv.window_eq (h : BitmapInv l) : window bitmapOps.avlStart bitmapOps.avlEnd a c l =
      window BitmapNode.start BitmapNode.stop a c l :=
  filter_congr fun x hx => by
    show decide (a < Xfs.extentEnd x ∧ x.start < c) = _
    rw [h.extentEnd hx]

theorem BitmapInv.append_iff :
    BitmapInv (A ++ B) ↔ BitmapInv A ∧ BitmapInv B ∧ ∀ x ∈ A, ∀ y ∈ B, x.stop ≤ y.start := by
  constructor
  · rintro ⟨h1, h2⟩
    obtain ⟨h3, h4, h5⟩ := separated_append.mp h1
    exact ⟨⟨h3, fun x hx => h2 x (mem_append_left _ hx)⟩,
      ⟨h4, fun x hx => h2 x (mem_append_right _ hx)⟩, h5⟩
  · rintro ⟨⟨h1, h2⟩, ⟨h3, h4⟩, h5⟩
    refine ⟨separated_append.mpr ⟨h1, h3, h5⟩, fun x hx => ?_⟩
    rcases mem_append.mp hx with hx | hx
    · exact h2 x hx
    · exact h4 x hx

theorem BitmapInv.cons_iff :
    BitmapInv (x :: l) ↔ x.start < x.stop ∧ x.stop + 1 < 2 ^ 64 ∧ (∀ y ∈ l, x.stop ≤ y.start) ∧
      BitmapInv l := by
  constructor
  · rintro ⟨h1, h2⟩
    obtain ⟨h3, h4, h5⟩ := separated_cons.mp h1
    exact ⟨h3, h2 x mem_cons_self, h4, h5, fun y hy => h2 y (mem_cons_of_mem _ hy)⟩
  · rintro ⟨h1, h2, h3, h4, h5⟩
    refine ⟨separated_cons.mpr ⟨h1, h3, h4⟩, fun y hy => ?_⟩
    rcases mem_cons.mp hy with rfl | hy
    · exact h2
    · exact h5 y hy

theorem BitmapInv.drop_mid (h : BitmapInv (A ++ (F ++ B))) : BitmapInv (A ++ B) := by
  obtain ⟨hA, hfB, haFB⟩ := BitmapInv.append_iff.mp h
  exact BitmapInv.append_iff.mpr ⟨hA, (BitmapInv.append_iff.mp hfB).2.1,
    fun x hx y hy => haFB x hx y (mem_append_right _ hy)⟩

section

variable (h : BitmapInv (A ++ B)) (ht : inorder bmap = A ++ B) (hlen : 0 < length)
  (hend : start + length < 2 ^ 64) (hA : ∀ x ∈ A, x.stop ≤ start)
  (hB : ∀ x ∈ B, start + length ≤ x.start)
include h ht hlen hend hA hB

theorem bitmapInsert_fits : ∃ bmap', bitmapInsert bal bmap start length = (bmap', none) ∧
      inorder bmap' = A ++ ⟨start, length⟩ :: B := by
  have hnew : extentEnd ⟨start, length⟩ = start + length := add64_eq hend
  obtain ⟨bmap', hins, hin⟩ : ∃ bmap', avl64Insert bitmapOps bal bmap ⟨start, length⟩ = some bmap' ∧
      inorder bmap' = A ++ ⟨start, length⟩ :: B := by
    refine avl64Insert_some ht (fun x hx => ?_) fun x hx => ?_
    · have hmem := mem_append_left B hx
      have h1 := h.pos hmem
      have h2 := hA x hx
      show extentEnd x ≤ start ∧ x.start < extentEnd _
      rw [h.extentEnd hmem, hnew]
      omega
    · show extentEnd _ ≤ x.start
      rw [hnew]
      exact hB x hx
  exact ⟨bmap', by rw [bitmapInsert, hins], hin⟩

theorem bitmapInsert_inorder (hrun : bitmapInsert bal bmap start length = (bmap', none)) :
    inorder bmap' = A ++ ⟨start, length⟩ :: B := by
  obtain ⟨bmap1, hins, hin⟩ := bitmapInsert_fits bal h ht hlen hend hA hB
  obtain rfl : bmap1 = bmap' := congrArg Prod.fst (hins.symm.trans hrun)
  exact hin

end

theorem bitmapInsert_meets (h : BitmapInv (inorder bmap)) (hx : x ∈ inorder bmap)
    (hend : start + length < 2 ^ 64) (h1 : x.start < start + length) (h2 : start < x.stop) :
    bitmapInsert bal bmap start length = (bmap, some .eexist) := by
  have hnew : extentEnd ⟨start, length⟩ = start + length := add64_eq hend
  have hins : avl64Insert bitmapOps bal bmap ⟨start, length⟩ = none := by
    refine avl64Insert_none h.avlSeparated hx ?_ ?_
    · show x.start < extentEnd _
      rwa [hnew]
    · show start < extentEnd x
      rwa [h.extentEnd hx]
  rw [bitmapInsert, hins]

theorem bitmapSetLoop_right (st : BitmapSetState) (h : BitmapInv (A ++ (G ++ B)))
    (ht : inorder st.bmap = A ++ (G ++ B)) (hend : start + length < 2 ^ 64)
    (hG : ∀ x ∈ G, start ≤ x.start ∧ (x.start = start → x.stop < start + length))
    (hst : st.newStart ≤ start) (hnew : st.newStart + st.newLength < 2 ^ 64) :
    ∃ st', bitmapSetLoop bal start length G st = (st', false) ∧ inorder st'.bmap = A ++ B ∧
      st'.newStart = st.newStart ∧ st.newLength ≤ st'.newLength ∧
      (∀ x ∈ G, x.stop ≤ st'.newStart + st'.newLength) ∧
      (st'.newLength = st.newLength ∨ ∃ x ∈ G, st'.newStart + st'.newLength = x.stop) := by
  induction G generalizing st with
  | nil => exact ⟨st, rfl, ht, rfl, le_rfl, by simp, .inl rfl⟩
  | cons x G ih =>
    have hmem : x ∈ A ++ (x :: G ++ B) := by simp
    have hx := h.bound x hmem
    have hpos := h.pos hmem
    obtain ⟨hge, hnot⟩ := hG x (by simp)
    have hout : ¬ (x.start ≤ start ∧ add64 start length ≤ extentEnd x) := by
      rw [add64_eq hend, h.extentEnd hmem]
      intro hc
      omega
    have hover : start ≤ extentEnd x ∨ x.start ≤ add64 start length := by
      rw [h.extentEnd hmem]
      exact .inl (by omega)
    -- the length after this extent
    obtain ⟨n, hn⟩ : ∃ n, n = max (st.newStart + st.newLength) x.stop - st.newStart := ⟨_, rfl⟩
    have hlen : (if add64 st.newStart st.newLength < extentEnd x then
        { st with newLength := sub64 (extentEnd x) st.newStart } else st) =
        { st with newLength := n } := by
      rw [add64_eq hnew, h.extentEnd hmem]
      by_cases hlt : st.newStart + st.newLength < x.stop
      · rw [if_pos hlt, sub64_eq (by omega) (by omega), hn, max_eq_right hlt.le]
      · rw [if_neg hlt, hn, max_eq_left (by omega), Nat.add_sub_cancel_left]
    have hdel : inorder (avl64Delete bal st.bmap x) = A ++ (G ++ B) :=
      inorder_avl64Delete (ht ▸ h.sep.nodup) ht
    have h' : BitmapInv (A ++ (G ++ B)) := by
      have hsplit : A ++ (x :: G ++ B) = A ++ ([x] ++ (G ++ B)) := by simp
      rw [hsplit] at h
      exact h.drop_mid
    obtain ⟨st', hrun, hin, hs, hle, hall, hor⟩ := ih
      ⟨avl64Delete bal st.bmap x, st.newStart, n⟩ h' hdel (fun y hy => hG y (by simp [hy])) hst
      (by simp only; omega)
    simp only at hs hle hor
    refine ⟨st', ?_, hin, hs, by omega, fun y hy => ?_, ?_⟩
    · rw [bitmapSetLoop, if_neg hout, if_pos hover]
      simp only [if_neg (not_lt.mpr hge), hlen]
      exact hrun
    · rcases mem_cons.mp hy with rfl | hy
      · omega
      · exact hall y hy
    · rcases hor with heq | ⟨y, hy, heq⟩
      · by_cases hlt : st.newStart + st.newLength < x.stop
        · exact .inr ⟨x, by simp, by omega⟩
        · exact .inl (by omega)
      · exact .inr ⟨y, by simp [hy], heq⟩

def setOverEnd (length : Nat) (x : BitmapNode) : Nat :=
  if length + x.stop < 2 ^ 64 then length + x.stop else x.stop

theorem bitmapSetLoop_left (hx : x.stop < 2 ^ 64) (hend : start + length < 2 ^ 64)
    (h1 : x.start < start) (h2 : start ≤ x.stop) (h3 : x.stop < start + length) :
    bitmapSetLoop bal start length (x :: G) ⟨bmap, start, length⟩ = bitmapSetLoop bal start length G
        ⟨avl64Delete bal bmap x, x.start, setOverEnd length x - x.start⟩ := by
  have hstop : extentEnd x = x.stop := add64_eq hx
  have hlen : x.stop = x.start + x.length := rfl
  have hout : ¬ (x.start ≤ start ∧ add64 start length ≤ extentEnd x) := by
    rw [add64_eq hend, hstop]
    omega
  have hover : start ≤ extentEnd x ∨ x.start ≤ add64 start length := by
    rw [hstop]
    exact .inl h2
  -- the second test only corrects a sum that has wrapped around
  have hsum : add64 x.start (add64 length x.length) = (length + x.stop) % 2 ^ 64 := by
    unfold add64
    rw [Nat.add_mod_mod, hlen]
    congr 1
    omega
  rw [bitmapSetLoop, if_neg hout, if_pos hover]
  simp only [if_pos h1, hsum, hstop]
  unfold setOverEnd
  by_cases hw : length + x.stop < 2 ^ 64
  · rw [if_pos hw, Nat.mod_eq_of_lt hw, if_neg (by omega), add64_eq (by omega)]
    simp only
    congr 2
    omega
  · rw [if_neg hw, if_pos (by omega), sub64_eq (by omega) (by omega)]

theorem bitmapSet_split (h : BitmapInv (inorder bmap)) (hs : 0 < start)
    (hend : start + length + 1 < 2 ^ 64) :
    ∃ A F B, inorder bmap = A ++ (F ++ B) ∧ (∀ x ∈ A, x.stop < start) ∧
      (∀ x ∈ F, start ≤ x.stop ∧ x.start ≤ start + length) ∧
      (∀ x ∈ B, start + length < x.start) ∧
      (F = [] → bitmapSet bal bmap start length = bitmapInsert bal bmap start length) ∧
      (F ≠ [] → bitmapSet bal bmap start length =
        bitmapSetDone bal (bitmapSetLoop bal start length F ⟨bmap, start, length⟩)) := by
  have hsub : sub64 start 1 = start - 1 := sub64_eq hs (by omega)
  have hadd : add64 (add64 start length) 1 = start + length + 1 := by
    rw [add64_eq (show start + length < 2 ^ 64 by omega), add64_eq hend]
  obtain ⟨hnone, hsome⟩ := avl64Findranges_spec h.avlSeparated
    (show start - 1 < start + length + 1 by omega)
  rw [h.window_eq] at hnone hsome
  refine ⟨_, _, _, h.sep.split (show start - 1 ≤ start + length + 1 by omega), fun x hx => ?_,
    fun x hx => ?_, fun x hx => ?_, fun hF => ?_, fun hF => ?_⟩
  · have := (mem_below.mp hx).2
    omega
  · have := (mem_window.mp hx).2
    omega
  · have := (mem_above.mp hx).2
    omega
  · rw [bitmapSet, hsub, hadd, hnone hF]
  · obtain ⟨first, last, hfind, hrange⟩ := hsome hF
    rw [bitmapSet, hsub, hadd, hfind]
    simp only [hrange]

theorem bitmapSet_zero (h : BitmapInv (inorder bmap)) :
    bitmapSet bal bmap 0 length = bitmapInsert bal bmap 0 length := by
  have hnone : avl64Findadjacent bitmapOps bmap (sub64 0 1) .succeed = none := by
    rw [avl64Findadjacent_succeed h.avlSeparated]
    refine find?_none_of_end_le fun x hx => ?_
    have hb := h.bound x hx
    show extentEnd x ≤ sub64 0 1
    rw [h.extentEnd hx]
    unfold sub64
    omega
  rw [bitmapSet, avl64Findranges, hnone]

theorem bitmapInsert_merged (st : BitmapSetState) (h : BitmapInv (A ++ (F ++ B)))
    (ht : inorder st.bmap = A ++ B) (hlen : 0 < length) (hend : start + length + 1 < 2 ^ 64)
    (hF : ∀ x ∈ F, start ≤ x.stop ∧ x.start ≤ start + length)
    (hA : ∀ x ∈ A, x.stop ≤ start) (hB : ∀ x ∈ B, start + length ≤ x.start)
    (hle : st.newStart ≤ start) (hge : start + length ≤ st.newStart + st.newLength)
    (hin : ∀ x ∈ F, st.newStart ≤ x.start ∧ x.stop ≤ st.newStart + st.newLength)
    (hs : st.newStart = start ∨ ∃ x ∈ F, st.newStart = x.start)
    (he : st.newStart + st.newLength = start + length ∨
      ∃ x ∈ F, st.newStart + st.newLength = x.stop) :
    ∃ bmap', bitmapInsert bal st.bmap st.newStart st.newLength = (bmap', none) ∧
      BitmapInv (inorder bmap') ∧
      ∀ b, bitmapMem (inorder bmap') b ↔
        bitmapMem (A ++ (F ++ B)) b ∨ start ≤ b ∧ b < start + length := by
  obtain ⟨hainv, hfB, haFB⟩ := BitmapInv.append_iff.mp h
  obtain ⟨hfinv, hbinv, hfBsep⟩ := BitmapInv.append_iff.mp hfB
  have hA' : ∀ x ∈ A, x.stop ≤ st.newStart := by
    intro x hx
    rcases hs with heq | ⟨y, hy, heq⟩
    · have := hA x hx
      omega
    · rw [heq]
      exact haFB x hx y (mem_append_left _ hy)
  have hB' : ∀ x ∈ B, st.newStart + st.newLength ≤ x.start := by
    intro x hx
    rcases he with heq | ⟨y, hy, heq⟩
    · have := hB x hx
      omega
    · rw [heq]
      exact hfBsep y hy x hx
  have hbound : st.newStart + st.newLength + 1 < 2 ^ 64 := by
    rcases he with heq | ⟨y, hy, heq⟩
    · omega
    · rw [heq]
      exact hfinv.bound y hy
  obtain ⟨bmap', hins, hin'⟩ : ∃ bmap', bitmapInsert bal st.bmap st.newStart st.newLength =
      (bmap', none) ∧ inorder bmap' = A ++ ⟨st.newStart, st.newLength⟩ :: B :=
    bitmapInsert_fits bal h.drop_mid ht (by omega) (by omega) hA' hB'
  refine ⟨bmap', hins, ?_, fun b => ?_⟩
  · rw [hin']
    refine BitmapInv.append_iff.mpr ⟨hainv, BitmapInv.cons_iff.mpr
      ⟨show st.newStart < st.newStart + st.newLength by omega, hbound, hB', hbinv⟩, ?_⟩
    intro x hx y hy
    rcases mem_cons.mp hy with rfl | hy
    · exact hA' x hx
    · exact haFB x hx y (mem_append_right _ hy)
  · rw [hin', bitmapMem_append, bitmapMem_cons, bitmapMem_append, bitmapMem_append]
    -- the new extent is the range and the extents that were found
    have hnew : st.newStart ≤ b ∧ b < st.newStart + st.newLength ↔
        bitmapMem F b ∨ start ≤ b ∧ b < start + length := by
      constructor
      · rintro ⟨h1, h2⟩
        by_cases hlo : b < start
        · rcases hs with heq | ⟨y, hy, heq⟩
          · omega
          · exact .inl ⟨y, hy, by omega, by have := (hF y hy).1; omega⟩
        · by_cases hhi : b < start + length
          · exact .inr ⟨by omega, hhi⟩
          · rcases he with heq | ⟨y, hy, heq⟩
            · omega
            · exact .inl ⟨y, hy, by have := (hF y hy).2; omega, by omega⟩
      · rintro (⟨y, hy, h1, h2⟩ | ⟨h1, h2⟩)
        · have := hin y hy
          omega
        · omega
    show bitmapMem A b ∨ (st.newStart ≤ b ∧ b < st.newStart + st.newLength) ∨ bitmapMem B b ↔ _
    rw [hnew]
    simp only [or_left_comm, or_comm]

theorem mem_found (hA : ∀ x ∈ A, x.stop < start) (hB : ∀ x ∈ B, start + length < x.start)
    (hx : x ∈ A ++ (F ++ B)) (h1 : start ≤ x.stop) (h2 : x.start ≤ start + length) : x ∈ F := by
  rcases mem_append.mp hx with hx | hx
  · have := hA x hx
    omega
  · rcases mem_append.mp hx with hx | hx
    · exact hx
    · have := hB x hx
      omega

theorem BitmapInv.first_left (h : BitmapInv (f :: G)) (hf : start ≤ f.stop) (hx : x ∈ f :: G)
    (h1 : x.start < start) : x = f := by
  rcases mem_cons.mp hx with rfl | hx
  · rfl
  · have := (BitmapInv.cons_iff.mp h).2.2.1 x hx
    omega

theorem bitmapSetLoop_found_left (h : BitmapInv (A ++ (f :: G ++ B)))
    (ht : inorder bmap = A ++ (f :: G ++ B)) (hend : start + length + 1 < 2 ^ 64)
    (h1 : f.start < start) (h2 : start ≤ f.stop) (h3 : f.stop < start + length)
    (hG : f.stop = start → ∀ x ∈ G, x.start = start → x.stop < start + length) :
    ∃ st, bitmapSetLoop bal start length (f :: G) ⟨bmap, start, length⟩ = (st, false) ∧
      inorder st.bmap = A ++ B ∧ st.newStart = f.start ∧
      setOverEnd length f ≤ st.newStart + st.newLength ∧
      (∀ x ∈ G, x.stop ≤ st.newStart + st.newLength) ∧
      (st.newStart + st.newLength = setOverEnd length f ∨
        ∃ x ∈ G, st.newStart + st.newLength = x.stop) := by
  obtain ⟨-, hfB, -⟩ := BitmapInv.append_iff.mp h
  obtain ⟨hfpos, hfb, hfG, -⟩ := BitmapInv.cons_iff.mp (BitmapInv.append_iff.mp hfB).1
  have hover : f.stop ≤ setOverEnd length f ∧ setOverEnd length f < 2 ^ 64 := by
    unfold setOverEnd
    split_ifs <;> omega
  have hdel : inorder (avl64Delete bal bmap f) = A ++ (G ++ B) :=
    inorder_avl64Delete (ht ▸ h.sep.nodup) ht
  have h' : BitmapInv (A ++ (G ++ B)) := by
    rw [show A ++ (f :: G ++ B) = A ++ ([f] ++ (G ++ B)) by simp] at h
    exact h.drop_mid
  obtain ⟨st, hrun, hin, hs, hle, hall, hor⟩ := bitmapSetLoop_right bal
    ⟨avl64Delete bal bmap f, f.start, setOverEnd length f - f.start⟩ h' hdel
    (show start + length < 2 ^ 64 by omega)
    (fun x hx => by
      have := hfG x hx
      exact ⟨by omega, fun hxs => hG (by omega) x hx hxs⟩) h1.le (by simp only; omega)
  simp only at hs hle hor
  refine ⟨st, ?_, hin, hs, by omega, hall, ?_⟩
  · rw [bitmapSetLoop_left bal (by omega) (by omega) h1 h2 h3]
    exact hrun
  · rcases hor with heq | hex
    · exact .inl (by omega)
    · exact .inr hex

theorem bitmapSet_right (h : BitmapInv (inorder bmap)) (hlen : 0 < length)
    (hend : start + length + 1 < 2 ^ 64) (hfits : SetFits (inorder bmap) start length) :
    ∃ bmap', bitmapSet bal bmap start length = (bmap', none) ∧ BitmapInv (inorder bmap') ∧
      ∀ b, bitmapMem (inorder bmap') b ↔
        bitmapMem (inorder bmap) b ∨ start ≤ b ∧ b < start + length := by
  obtain ⟨hzero, hpos⟩ := hfits
  rcases Nat.eq_zero_or_pos start with rfl | hs
  · -- nothing was set, so the range goes in front
    rw [bitmapSet_zero bal h]
    exact bitmapInsert_merged bal (A := []) (F := []) ⟨bmap, 0, length⟩ h rfl hlen hend
      (by simp) (by simp) (fun x hx => by simpa using hzero rfl x hx) le_rfl le_rfl (by simp)
      (.inl rfl) (.inl rfl)
  obtain ⟨A, F, B, hsplit, hA, hF, hB, hnone, hsome⟩ := bitmapSet_split bal h hs hend
  rw [hsplit] at h hpos ⊢
  have hA' : ∀ x ∈ A, x.stop ≤ start := fun x hx => (hA x hx).le
  have hB' : ∀ x ∈ B, start + length ≤ x.start := fun x hx => (hB x hx).le
  cases F with
  | nil =>
    rw [hnone rfl]
    exact bitmapInsert_merged bal ⟨bmap, start, length⟩ h hsplit hlen hend hF hA' hB' le_rfl
      le_rfl (by simp) (.inl rfl) (.inl rfl)
  | cons f G =>
    rw [hsome (by simp)]
    obtain ⟨-, hfB, -⟩ := BitmapInv.append_iff.mp h
    obtain ⟨hfpos, hfb, hfG, -⟩ := BitmapInv.cons_iff.mp (BitmapInv.append_iff.mp hfB).1
    have hf := hF f (by simp)
    have hstop : extentEnd f = f.stop := h.extentEnd (by simp)
    by_cases hcon : f.start ≤ start ∧ start + length ≤ f.stop
    · -- the range is set already
      refine ⟨bmap, ?_, hsplit ▸ h, fun b => ?_⟩
      · rw [bitmapSetLoop, if_pos (by rw [add64_eq (by omega), hstop]; exact hcon)]
        rfl
      · rw [hsplit]
        refine ⟨.inl, ?_⟩
        rintro (hb | hb)
        · exact hb
        · exact ⟨f, by simp, by omega, by omega⟩
    by_cases hleft : f.start < start
    · obtain ⟨hexact, hover⟩ := hpos hs f (by simp) hleft hf.1 (by omega)
      obtain ⟨st, hrun, hin, hns, hge, hall, hor⟩ := bitmapSetLoop_found_left bal h
        hsplit hend hleft hf.1 (by omega) (fun he x hx => hexact he x (by simp [hx]))
      -- the end is that of the range or of an old extent
      have hend' : start + length ≤ st.newStart + st.newLength ∧
          (st.newStart + st.newLength = start + length ∨
            ∃ x ∈ f :: G, st.newStart + st.newLength = x.stop) := by
        rcases Nat.eq_or_lt_of_le hf.1 with heq | hlt
        · have hv : setOverEnd length f = start + length := by
            unfold setOverEnd
            rw [if_pos (by omega)]
            omega
          rw [hv] at hge hor
          refine ⟨hge, hor.imp_right ?_⟩
          rintro ⟨x, hx, hxe⟩
          exact ⟨x, by simp [hx], hxe⟩
        · obtain ⟨y, hy, hy1, hy2, hy3⟩ := hover hlt
          have hyG : y ∈ G := by
            clear hor
            rcases mem_cons.mp (mem_found hA hB hy (by omega) hy1) with rfl | hy
            · omega
            · exact hy
          have hyle := hall y hyG
          refine ⟨by omega, .inr ?_⟩
          rcases hor with heq | ⟨x, hx, hxe⟩
          · refine ⟨y, by simp [hyG], ?_⟩
            unfold setOverEnd at hge heq
            split_ifs at hge heq <;> omega
          · exact ⟨x, by simp [hx], hxe⟩
      obtain ⟨hreach, hlast⟩ := hend'
      rw [hrun]
      refine bitmapInsert_merged bal st h hin hlen hend hF hA' hB' (by omega) hreach
        (fun x hx => ?_) (.inr ⟨f, by simp, hns⟩) hlast
      clear hor hlast
      rcases mem_cons.mp hx with rfl | hx
      · omega
      · have := hfG x hx
        exact ⟨by omega, hall x hx⟩
    · obtain ⟨st, hrun, hin, hns, hge, hall, hor⟩ := bitmapSetLoop_right bal
        ⟨bmap, start, length⟩ h hsplit (show start + length < 2 ^ 64 by omega)
        (fun x hx => by
          rcases mem_cons.mp hx with rfl | hx
          · exact ⟨by omega, fun heq => by omega⟩
          · have := hfG x hx
            exact ⟨by omega, fun heq => by omega⟩) le_rfl (by simp only; omega)
      simp only at hns hge hor
      rw [hrun]
      refine bitmapInsert_merged bal st h hin hlen hend hF hA' hB' (by omega) (by omega) (fun x hx => ?_)
        (.inl hns) (hor.imp_left fun heq => by omega)
      refine ⟨?_, hall x hx⟩
      rcases mem_cons.mp hx with rfl | hx
      · omega
      · have := hfG x hx
        omega

theorem not_setFits (h : ¬ SetFits l start length) : (start = 0 ∧ ∃ x ∈ l, x.start < length) ∨
      (0 < start ∧ ∃ x ∈ l, x.start < start ∧ start ≤ x.stop ∧ x.stop < start + length ∧
        ((x.stop = start ∧ ∃ y ∈ l, y.start = start ∧ start + length ≤ y.stop) ∨
          (start < x.stop ∧ ∀ y ∈ l, y.start ≤ start + length → start + length ≤ y.stop →
            y.stop < length + x.stop ∧ length + x.stop < 2 ^ 64))) := by
  unfold SetFits at h
  rw [not_and_or] at h
  rcases h with h | h
  · obtain ⟨h0, h⟩ := Classical.not_imp.mp h
    push Not at h
    exact .inl ⟨h0, h⟩
  obtain ⟨h0, h⟩ := Classical.not_imp.mp h
  obtain ⟨x, h⟩ := not_forall.mp h
  obtain ⟨hx, h⟩ := Classical.not_imp.mp h
  obtain ⟨h1, h⟩ := Classical.not_imp.mp h
  obtain ⟨h2, h⟩ := Classical.not_imp.mp h
  obtain ⟨h3, h⟩ := Classical.not_imp.mp h
  refine .inr ⟨h0, x, hx, h1, h2, h3, ?_⟩
  rw [not_and_or] at h
  rcases h with h | h
  · obtain ⟨h4, h⟩ := Classical.not_imp.mp h
    push Not at h
    exact .inl ⟨h4, h⟩
  · obtain ⟨h4, h⟩ := Classical.not_imp.mp h
    push Not at h
    exact .inr ⟨h4, h⟩

section

variable (h : BitmapInv (A ++ (x :: G ++ B))) (hsplit : inorder bmap = A ++ (x :: G ++ B))
  (hend : start + length + 1 < 2 ^ 64) (hA : ∀ z ∈ A, z.stop < start)
  (hF : ∀ z ∈ x :: G, start ≤ z.stop ∧ z.start ≤ start + length)
  (hB : ∀ z ∈ B, start + length < z.start) (h1 : x.start < start) (h2 : start ≤ x.stop)
  (h3 : x.stop < start + length)
include h hsplit hend hA hB h1 h2 h3

theorem bitmapSet_lost (heq : x.stop = start) (hy : y ∈ A ++ (x :: G ++ B)) (hys : y.start = start)
    (hye : start + length ≤ y.stop)
    (hrun : bitmapSetDone bal (bitmapSetLoop bal start length (x :: G) ⟨bmap, start, length⟩) =
      (bmap', none)) :
    ¬ bitmapMem (inorder bmap') x.start := by
  obtain ⟨-, hfB, haFB⟩ := BitmapInv.append_iff.mp h
  obtain ⟨hfinv, -, hfBsep⟩ := BitmapInv.append_iff.mp hfB
  obtain ⟨hxpos, hxb, hxG, hginv⟩ := BitmapInv.cons_iff.mp hfinv
  obtain ⟨G', rfl⟩ : ∃ G', G = y :: G' := by
    have hyF := mem_found hA hB hy (by omega) (by omega)
    rcases mem_cons.mp hyF with rfl | hyG
    · omega
    cases G with
    | nil => exact absurd hyG not_mem_nil
    | cons g G' =>
      have hg := hxG g (by simp)
      have hgpos := hginv.pos (mem_cons_self)
      rcases mem_cons.mp hyG with rfl | hyG
      · exact ⟨G', rfl⟩
      · have := (BitmapInv.cons_iff.mp hginv).2.2.1 y hyG
        omega
  rw [bitmapSetLoop_left bal (by omega) (by omega) h1 h2 h3, bitmapSetLoop, if_pos (by
    rw [add64_eq (by omega), h.extentEnd (show y ∈ _ by simp)]
    exact ⟨hys.le, hye⟩)] at hrun
  have hbmap : avl64Delete bal bmap x = bmap' := congrArg Prod.fst hrun
  rw [← hbmap, inorder_avl64Delete (hsplit ▸ h.sep.nodup) hsplit]
  rintro ⟨z, hz, hz1, hz2⟩
  rcases mem_append.mp hz with hz | hz
  · have := haFB z hz x (by simp)
    omega
  · have : x.stop ≤ z.start := by
      rcases mem_append.mp hz with hz | hz
      · exact hxG z hz
      · exact hfBsep x (by simp) z hz
    omega

include hF in
theorem bitmapSet_misplaced (hlt : start < x.stop)
    (hreach : ∀ y ∈ A ++ (x :: G ++ B), y.start ≤ start + length → start + length ≤ y.stop →
      y.stop < length + x.stop ∧ length + x.stop < 2 ^ 64)
    (hrun : bitmapSetDone bal (bitmapSetLoop bal start length (x :: G) ⟨bmap, start, length⟩) =
      (bmap', none)) :
    ∃ b, ¬ (bitmapMem (inorder bmap') b ↔
      bitmapMem (A ++ (x :: G ++ B)) b ∨ start ≤ b ∧ b < start + length) := by
  obtain ⟨-, hfB, haFB⟩ := BitmapInv.append_iff.mp h
  obtain ⟨hfinv, hbinv, -⟩ := BitmapInv.append_iff.mp hfB
  obtain ⟨hxpos, -, -, -⟩ := BitmapInv.cons_iff.mp hfinv
  obtain ⟨st, hloop, hin, hns, hge, hall, hor⟩ := bitmapSetLoop_found_left bal h hsplit hend
    h1 h2 h3 (fun he => by omega)
  rw [hloop] at hrun
  have hrun' : bitmapInsert bal st.bmap st.newStart st.newLength = (bmap', none) := hrun
  have hinv : BitmapInv (A ++ B) := h.drop_mid
  have hA' : ∀ z ∈ A, z.stop ≤ st.newStart := fun z hz => hns ▸ haFB z hz x (by simp)
  by_cases hwrap : length + x.stop < 2 ^ 64
  · -- too far to the right
    have hv : st.newStart + st.newLength = length + x.stop := by
      have hover : setOverEnd length x = length + x.stop := if_pos hwrap
      rw [hover] at hge hor
      rcases hor with heq | ⟨y, hy, heq⟩
      · exact heq
      · have hyF := hF y (mem_cons_of_mem _ hy)
        have := (hreach y (by simp [hy]) hyF.2 (by omega)).1
        omega
    have hB' : ∀ z ∈ B, st.newStart + st.newLength ≤ z.start := by
      intro z hz
      by_contra hlt'
      have hzpos := hbinv.pos hz
      have hzB := hB z hz
      have hmem : z ∈ inorder st.bmap := by rw [hin]; exact mem_append_right _ hz
      rw [bitmapInsert_meets bal (hin ▸ hinv) hmem (by omega) (by omega) (by omega)] at hrun'
      cases hrun'
    have hin' := bitmapInsert_inorder bal hinv hin (by omega) (by omega) hA' hB' hrun'
    refine ⟨length + x.stop - 1, fun hiff => ?_⟩
    have hnew : bitmapMem (inorder bmap') (length + x.stop - 1) := by
      rw [hin']
      exact ⟨⟨st.newStart, st.newLength⟩, by simp, by simp only; omega,
        show _ < st.newStart + st.newLength by omega⟩
    rcases hiff.mp hnew with ⟨z, hz, hz1, hz2⟩ | hr
    · by_cases hzB : z ∈ B
      · have := hB' z hzB
        omega
      · have hzle : z.start ≤ start + length := by
          rcases mem_append.mp hz with hz | hz
          · have := hA' z hz
            have := (BitmapInv.append_iff.mp h).1.pos hz
            omega
          · exact (hF z ((mem_append.mp hz).resolve_right hzB)).2
        have := hreach z hz hzle
        omega
    · omega
  · -- the sum has wrapped around and the end of the range is lost
    have hover : setOverEnd length x = x.stop := if_neg hwrap
    have hv : st.newStart + st.newLength < start + length := by
      rcases hor with heq | ⟨y, hy, heq⟩
      · omega
      · have hyF := hF y (mem_cons_of_mem _ hy)
        have := hreach y (by simp [hy]) hyF.2
        omega
    clear hor
    have hin' := bitmapInsert_inorder bal hinv hin (by omega) (by omega) hA'
      (fun z hz => by have := hB z hz; omega) hrun'
    refine ⟨start + length - 1, fun hiff => ?_⟩
    obtain ⟨z, hz, hz1, hz2⟩ := hiff.mpr (.inr ⟨by omega, by omega⟩)
    rw [hin'] at hz
    rcases mem_append.mp hz with hz | hz
    · have := hA z hz
      omega
    · rcases mem_cons.mp hz with rfl | hz
      · have hz2' : start + length - 1 < st.newStart + st.newLength := hz2
        omega
      · have := hB z hz
        omega

end

theorem bitmapSet_wrong (h : BitmapInv (inorder bmap)) (hlen : 0 < length)
    (hend : start + length + 1 < 2 ^ 64) (hfits : ¬ SetFits (inorder bmap) start length)
    (hrun : bitmapSet bal bmap start length = (bmap', none)) :
    ∃ b, ¬ (bitmapMem (inorder bmap') b ↔
      bitmapMem (inorder bmap) b ∨ start ≤ b ∧ b < start + length) := by
  rcases not_setFits hfits with ⟨rfl, x, hx, hlt⟩ | ⟨hs, x, hx, h1, h2, h3, hbad⟩
  · -- the insertion meets what is set
    rw [bitmapSet_zero bal h, bitmapInsert_meets bal h hx (by omega) (by omega)
      (by have := h.pos hx; omega)] at hrun
    cases hrun
  obtain ⟨A, F, B, hsplit, hA, hF, hB, -, hsome⟩ := bitmapSet_split bal h hs hend
  rw [hsplit] at h hx hbad ⊢
  have hxF := mem_found hA hB hx h2 (by omega)
  cases F with
  | nil => exact absurd hxF not_mem_nil
  | cons f G =>
    obtain ⟨-, hfB, -⟩ := BitmapInv.append_iff.mp h
    have hfinv := (BitmapInv.append_iff.mp hfB).1
    obtain rfl := hfinv.first_left (hF f (by simp)).1 hxF h1
    rw [hsome (by simp)] at hrun
    rcases hbad with ⟨heq, y, hy, hys, hye⟩ | ⟨hlt, hreach⟩
    · have hlost := bitmapSet_lost bal h hsplit hend hA hB h1 h2 h3 heq hy hys hye hrun
      exact ⟨x.start, fun hiff =>
        hlost (hiff.mpr (.inl ⟨x, by simp, le_rfl, hfinv.pos (by simp)⟩))⟩
    · exact bitmapSet_misplaced bal h hsplit hend hA hF hB h1 h2 h3 hlt hreach hrun

end

end Xfs
