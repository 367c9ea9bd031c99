import Xfs.Dir.DataFreeing

/-! Taking a range out of an unused region: what is left of the region at its
ends stays unused, and the table follows or asks for a scan. -/
namespace Xfs

open List

variable {mp : DirMount} {mem : ByteMem} {n dup offset len : Nat}
  {pre post : List DataItem} {blk : DataBlock} {d : DataFree}

structure InUnused (mp : DirMount) (blk : DataBlock) (pre post : List DataItem)
    (n dup offset len : Nat) : Prop where
  holds : DataHolds mp blk (pre ++ .unused n :: post)
  start : dataEntryOffset mp + itemsSize pre = dup
  lower : dup ≤ offset
  upper : offset + len ≤ dup + n
  pos : 0 < len
  offset_dvd : 8 ∣ offset
  len_dvd : 8 ∣ len

/-- The range has been taken out, with the rest of the region around it, up to a
scan. -/
def TakenOut (mp : DirMount) (pre post : List DataItem) (n offset len : Nat)
    (res : DataBlock × Bool) : Prop :=
  ∃ front back, AtMostUnused front ∧ AtMostUnused back ∧
    itemsSize front + len + itemsSize back = n ∧
    DataRange mp res.1 (pre ++ front) (back ++ post) offset len ∧
    (res.2 = false → TableOk (fun d => d ∈ regionsAt (dataEntryOffset mp) (pre ++ front) ∨
      d ∈ regionsAt (offset + len) (back ++ post)) res.1.bf)

namespace InUnused

def Taken (_ : InUnused mp blk pre post n dup offset len) : Prop :=
  ∃ res, dir2DataUseFree blk dup offset len = .ok res ∧ TakenOut mp pre post n offset len res

variable (h : InUnused mp blk pre post n dup offset len)
include h

theorem region : UnusedAt blk.mem dup n := by
  have hx := (tilesAt_append.mp h.holds.tiles).2.1
  rw [h.start] at hx
  exact hx

theorem mem_region : (⟨dup, n⟩ : DataFree) ∈
    regionsAt (dataEntryOffset mp) (pre ++ .unused n :: post) := by
  rw [mem_regionsAt_unused h.start]
  exact .inl rfl

theorem behind : TilesAt mp blk.mem (dup + n) post := by
  have hx := (tilesAt_append.mp h.holds.tiles).2.2
  rw [h.start] at hx
  exact hx

theorem stop : dup + n + itemsSize post = dir3DataEndOffset mp blk := by
  rw [← h.holds.stop, ← h.start]
  simp only [itemsSize_append, itemsSize, DataItem.size]
  omega

theorem bounds (hgeo : DataGeoOk mp) : dup + n ≤ 2 ^ 16 ∧ 16 ≤ dup ∧ 8 ∣ dup ∧ 8 ∣ n ∧
    dup ≤ offset ∧ offset + len ≤ dup + n ∧ 0 < len ∧ 8 ∣ offset ∧ 8 ∣ len := by
  have hend := dir3DataEndOffset_le mp blk
  have hblk := hgeo.blksize_le
  have hstop := h.stop
  have hstart := h.start
  have hdvd := dataEntryOffset_dvd mp
  have hpre := (tilesAt_append.mp h.holds.tiles).1.size_dvd
  have hge : 16 ≤ dataEntryOffset mp := by
    unfold dataEntryOffset
    split <;> omega
  exact ⟨by omega, by omega, by omega, h.region.aligned, h.lower, h.upper, h.pos, h.offset_dvd,
    h.len_dvd⟩

theorem check_free : dir2DataCheckFree blk dup offset len := by
  have hr := h.region
  have hlo := h.lower
  have hhi := h.upper
  simp only [dir2DataCheckFree, unusedTag, hr.freetag, hr.length, hr.tag, decide_true,
    Bool.and_true, Bool.and_eq_true, decide_eq_true_eq]
  exact ⟨⟨h.holds.magic, hlo⟩, hhi⟩

theorem found : blk.bf.Found ⟨dup, n⟩ (dir2DataFreefind blk.bf blk.mem dup) := by
  have hfree : freeAt blk.mem dup = ⟨dup, n⟩ := by rw [freeAt, h.region.length]
  have hfound := h.holds.table.freefind
    (h.holds.tiles.regionsOk (dataEntryOffset_pos mp)) (hfree ▸ h.mem_region)
  rwa [hfree] at hfound

theorem not_beside {o m : Nat} (hm : 0 < m) (hlo : dup ≤ o) (hhi : o + m ≤ dup + n) :
    ¬ ((⟨o, m⟩ : DataFree) ∈ regionsAt (dataEntryOffset mp) pre ∨
      (⟨o, m⟩ : DataFree) ∈ regionsAt (dup + n) post) := by
  have hstart := h.start
  rintro (hd | hd)
  · have hb := (regionsAt_bounds hd).2
    simp only at hb
    omega
  · have hb := (regionsAt_bounds hd).1
    simp only at hb
    omega

theorem not_region {o m : Nat} (hne : ¬ (o = dup ∧ m = n)) (hlo : dup ≤ o) (hm : 0 < m)
    (hhi : o + m ≤ dup + n) : (⟨o, m⟩ : DataFree) ∉
      regionsAt (dataEntryOffset mp) (pre ++ .unused n :: post) := by
  rw [mem_regionsAt_unused h.start]
  rintro (heq | hd)
  · simp only [DataFree.mk.injEq] at heq
    exact hne heq
  · exact h.not_beside hm hlo hhi hd

theorem others (d : DataFree) :
    (d ≠ ⟨dup, n⟩ ∧ d ∈ regionsAt (dataEntryOffset mp) (pre ++ .unused n :: post)) ↔
      d ∈ regionsAt (dataEntryOffset mp) pre ∨ d ∈ regionsAt (dup + n) post := by
  rw [mem_regionsAt_unused h.start]
  constructor
  · rintro ⟨hne, heq | hd⟩
    · exact absurd heq hne
    · exact hd
  · intro hd
    refine ⟨?_, .inr hd⟩
    rintro rfl
    exact h.not_beside h.region.pos le_rfl le_rfl hd

section

variable (hgeo : DataGeoOk mp)
include hgeo

theorem range {blk' : DataBlock} {front back : List DataItem} (hmagic : blk'.magic = blk.magic)
    (hsame : ∀ a, a < dup ∨ dup + n ≤ a → blk'.mem a = blk.mem a) (hfront : AtMostUnused front)
    (hback : AtMostUnused back) (htfront : TilesAt mp blk'.mem dup front)
    (hsfront : dup + itemsSize front = offset) (htback : TilesAt mp blk'.mem (offset + len) back)
    (hsback : offset + len + itemsSize back = dup + n) :
    DataRange mp blk' (pre ++ front) (back ++ post) offset len := by
  have hstart := h.start
  have hstop := h.stop
  have hpre := (tilesAt_append.mp h.holds.tiles).1
  have hend : dir3DataEndOffset mp blk' = dir3DataEndOffset mp blk :=
    dir3DataEndOffset_congr hgeo hmagic fun a ha => hsame a (by omega)
  obtain ⟨hapre, hapost, -⟩ := isChain_append.mp h.holds.apart
  refine ⟨hmagic ▸ h.holds.magic, ?_, ?_, ?_, ?_, ?_, ?_, h.len_dvd, h.pos⟩
  · refine tilesAt_append.mpr ⟨hpre.congr fun a _ ha => hsame a (by omega), ?_⟩
    rwa [hstart]
  · rw [itemsSize_append]
    omega
  · refine tilesAt_append.mpr ⟨htback, ?_⟩
    rw [hsback]
    exact h.behind.congr fun a ha _ => hsame a (by omega)
  · rw [hend, ← hstop, itemsSize_append]
    omega
  · rcases hfront with rfl | ⟨m, rfl⟩
    · rwa [append_nil]
    · exact apart_unused hapre isChain_nil h.holds.apart.prev_used (by simp) m
  · have hpost : UnusedApart post := by
      cases post with
      | nil => exact isChain_nil
      | cons y ys => exact (isChain_cons_cons.mp hapost).2
    rcases hback with rfl | ⟨m, rfl⟩
    · exact hpost
    · exact apart_unused isChain_nil hpost (by simp) (UnusedApart.next_used hapost) m

theorem use_all (hfront : dup = offset) (hback : dup + n = offset + len) : h.Taken := by
  subst hfront
  obtain rfl : n = len := by omega
  have hregions := h.holds.tiles.regionsOk (dataEntryOffset_pos mp)
  rw [Taken, dir2DataUseFree, if_neg (by rw [h.check_free]; simp)]
  simp only [h.region.length, decide_true, Bool.and_self, if_true]
  rcases hdrop : dropFree blk.bf (dir2DataFreefind blk.bf blk.mem dup) with ⟨bf, needscan⟩
  refine ⟨_, rfl, [], [], .inl rfl, .inl rfl, by simp [itemsSize], ?_, fun hscan => ?_⟩
  · exact h.range hgeo rfl (fun _ _ => rfl) (.inl rfl) (.inl rfl) trivial
      (by simp only [itemsSize, add_zero]) trivial (by simp only [itemsSize, add_zero])
  · have hdropped := h.holds.table.dropFree h.mem_region hregions h.found
      (by rw [hdrop]; exact hscan)
    rw [hdrop] at hdropped
    refine hdropped.congr fun d => ?_
    rw [h.others d, append_nil, nil_append]

theorem use_front (hfront : dup = offset) (hback : dup + n ≠ offset + len) : h.Taken := by
  have hb := h.bounds hgeo
  have hnew : UnusedAt (putUnused blk.mem (offset + len) (n - len)) (offset + len) (n - len) :=
    unusedAt_putUnused (by omega) (by omega) (by omega) (by omega)
  have habsent := h.not_region (show ¬ (offset + len = dup ∧ n - len = n) by omega)
    (by omega) (by omega) (by omega)
  obtain ⟨bf, needscan, htrim, htable⟩ := h.holds.table.trimFree h.mem_region habsent h.found
    (show 0 < n - len by omega) (show n - len < n by omega)
  rw [Taken, dir2DataUseFree, if_neg (by rw [h.check_free]; simp)]
  simp only [h.region.length, decide_eq_false hback, decide_eq_true hfront, Bool.and_false,
    Bool.false_eq_true, if_false, if_true, freeAt, hnew.length, htrim]
  refine ⟨_, rfl, [], [.unused (n - len)], .inl rfl, .inr ⟨_, rfl⟩,
    by simp only [itemsSize, DataItem.size]; omega, ?_, fun hscan => ?_⟩
  · exact h.range hgeo rfl (fun a ha => putUnused_outside (by omega) (by omega) (by omega))
      (.inl rfl) (.inr ⟨_, rfl⟩) trivial (by simp only [itemsSize]; omega) ⟨hnew, trivial⟩
      (by simp only [itemsSize, DataItem.size]; omega)
  · refine (htable hscan).congr fun d => ?_
    rw [h.others d, append_nil, singleton_append, regionsAt, mem_cons,
      show offset + len + (n - len) = dup + n by omega]
    exact or_left_comm

theorem use_back (hfront : dup ≠ offset) (hback : dup + n = offset + len) : h.Taken := by
  have hb := h.bounds hgeo
  have hr := h.region
  have hnew : UnusedAt (setUnusedLength blk.mem dup (offset - dup)) dup (offset - dup) :=
    unusedAt_setUnusedLength hr.freetag (by omega) (by omega) (by omega) (by omega)
  have habsent := h.not_region (show ¬ (dup = dup ∧ offset - dup = n) by omega)
    (by omega) (by omega) (by omega)
  obtain ⟨bf, needscan, htrim, htable⟩ := h.holds.table.trimFree h.mem_region habsent h.found
    (show 0 < offset - dup by omega) (show offset - dup < n by omega)
  rw [Taken, dir2DataUseFree, if_neg (by rw [h.check_free]; simp)]
  simp only [hr.length, decide_eq_true hback, decide_eq_false hfront, Bool.false_and,
    Bool.false_eq_true, if_false, if_true, freeAt, hnew.length, htrim]
  refine ⟨_, rfl, [.unused (offset - dup)], [], .inr ⟨_, rfl⟩, .inl rfl,
    by simp only [itemsSize, DataItem.size]; omega, ?_, fun hscan => ?_⟩
  · exact h.range hgeo rfl (fun a ha => setUnusedLength_outside (by omega) (by omega) (by omega))
      (.inr ⟨_, rfl⟩) (.inl rfl) ⟨hnew, trivial⟩
      (by simp only [itemsSize, DataItem.size]; omega) trivial (by simp only [itemsSize]; omega)
  · refine (htable hscan).congr fun d => ?_
    rw [h.others d, mem_regionsAt_unused h.start, nil_append, ← hback, or_assoc]
    simp [regionsAt]

theorem use_middle (hfront : dup ≠ offset) (hback : dup + n ≠ offset + len) : h.Taken := by
  have hb := h.bounds hgeo
  have hr := h.region
  generalize hfirst : setUnusedLength blk.mem dup (offset - dup) = mem₁
  have hnew₁ : UnusedAt mem₁ dup (offset - dup) := hfirst ▸
    unusedAt_setUnusedLength hr.freetag (by omega) (by omega) (by omega) (by omega)
  generalize hsecond : putUnused mem₁ (offset + len) (n - len - (offset - dup)) = mem₂
  have hnew₂ : UnusedAt mem₂ (offset + len) (n - len - (offset - dup)) := hsecond ▸
    unusedAt_putUnused (by omega) (by omega) (by omega) (by omega)
  have hsame₂ : ∀ a, a < offset + len → mem₂ a = mem₁ a := fun a ha => by
    rw [← hsecond, putUnused_outside (by omega) (by omega) (.inl ha)]
  have hnew : UnusedAt mem₂ dup (offset - dup) := by
    have hitem : ItemAt mp mem₁ dup (.unused (offset - dup)) := hnew₁
    exact hitem.congr fun a _ ha => hsame₂ a (by simp only [DataItem.size] at ha; omega)
  have habsent := h.not_region (show ¬ (dup = dup ∧ offset - dup = n) by omega)
    (by omega) (by omega) (by omega)
  have habsent₂ := h.not_region
    (show ¬ (offset + len = dup ∧ n - len - (offset - dup) = n) by omega)
    (by omega) (by omega) (by omega)
  have hne : (⟨offset + len, n - len - (offset - dup)⟩ : DataFree) ≠ ⟨dup, offset - dup⟩ := by
    simp only [ne_eq, DataFree.mk.injEq, not_and]
    omega
  rw [Taken, dir2DataUseFree, if_neg (by rw [h.check_free]; simp)]
  simp only [hr.length, decide_eq_false hback, decide_eq_false hfront, Bool.and_self,
    Bool.false_eq_true, if_false, hfirst, hnew₁.length, hsecond, freeAt, hnew.length, hnew₂.length]
  rcases hcut : cutFree blk.bf (dir2DataFreefind blk.bf blk.mem dup) ⟨dup, offset - dup⟩
    ⟨offset + len, n - len - (offset - dup)⟩ with ⟨bf, needscan⟩
  refine ⟨_, rfl, [.unused (offset - dup)], [.unused (n - len - (offset - dup))],
    .inr ⟨_, rfl⟩, .inr ⟨_, rfl⟩, by simp only [itemsSize, DataItem.size]; omega, ?_,
    fun hscan => ?_⟩
  · refine h.range hgeo rfl (fun a ha => ?_) (.inr ⟨_, rfl⟩) (.inr ⟨_, rfl⟩) ⟨hnew, trivial⟩
      (by simp only [itemsSize, DataItem.size]; omega) ⟨hnew₂, trivial⟩
      (by simp only [itemsSize, DataItem.size]; omega)
    show mem₂ a = blk.mem a
    rw [← hsecond, putUnused_outside (by omega) (by omega) (by omega), ← hfirst,
      setUnusedLength_outside (by omega) (by omega) (by omega)]
  · have htable := h.holds.table.cutFree h.mem_region habsent habsent₂ hne h.found
      (show 0 < offset - dup by omega) (show offset - dup ≤ n by omega)
      (show n - len - (offset - dup) ≤ n by omega) (by rw [hcut]; exact hscan)
    rw [hcut] at htable
    refine htable.congr fun d => ?_
    rw [h.others d, mem_regionsAt_unused h.start]
    simp only [singleton_append, regionsAt, mem_cons, not_mem_nil, or_false,
      show offset + len + (n - len - (offset - dup)) = dup + n by omega]
    constructor
    · rintro (hd | hd | hd | hd) <;> simp [hd]
    · rintro ((hd | hd) | hd | hd) <;> simp [hd]

theorem use_free : h.Taken := by
  by_cases hfront : dup = offset <;> by_cases hback : dup + n = offset + len
  · exact h.use_all hgeo hfront hback
  · exact h.use_front hgeo hfront hback
  · exact h.use_back hgeo hfront hback
  · exact h.use_middle hgeo hfront hback

end

end InUnused

end Xfs
