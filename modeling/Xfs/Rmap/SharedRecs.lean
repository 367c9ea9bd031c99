import Xfs.Rmap.SharedSpec

/-! How the operations on a shared extent change the records, once the extent
and its neighbours are found. -/
namespace Xfs

open RmapIrec List RecordCursor

section Recs

variable {g : RmapGroup} {c : RmapCur} {r s x : RmapIrec} {bno len owner offset : Nat} {u : Bool}

theorem ShareWF.eq_of_key (hwf : ShareWF g c.recs) (hr : r ∈ c.recs) (hd : r.isData)
    (hs : s ∈ c.recs) {b f : Nat} {u : Bool}
    (hk : rmapKey s = rmapKeyOf b r.owner f (dataFlags u)) (h1 : r.offset ≤ f)
    (h2 : f < r.offset + r.blockcount) : s = r := by
  obtain ⟨-, howner, hoff⟩ := rmapKeyOf_inj hk
  obtain ⟨hmod, hattr, hbmbt⟩ := rmapOffsetKey_inj hoff
  have hlim := hwf.filesize r hr (ignoreOff_of_isData hd)
  rw [Nat.mod_eq_of_lt (hwf.offset_lt hs), Nat.mod_eq_of_lt (by omega)] at hmod
  have hsd : s.isData :=
    isData_iff.mpr ⟨howner ▸ (isData_iff.mp hd).1, hbmbt, hattr⟩
  have hsPos := (hwf.bounds hs).1
  exact hwf.eq_of_offset hs hr hsd hd howner (by omega) (by omega) h1 h2

structure SharedRange (g : RmapGroup) (recs : List RmapIrec) (r : RmapIrec)
    (bno len owner offset : Nat) (u : Bool) : Prop where
  wf : ShareWF g recs
  mem : r ∈ recs
  ino : rmapNonInodeOwner owner = false
  pos : 0 < len
  within : (dataRange bno len owner offset u).Within r

section

variable (h : SharedRange g c.recs r bno len owner offset u)
include h

theorem SharedRange.isData : r.isData :=
  isData_of_flags (h.within.owner ▸ h.ino) h.within.flags

theorem SharedRange.ignoreOff : r.ignoreOff = false := ignoreOff_of_isData h.isData

theorem SharedRange.bounds : r.startblock ≤ bno ∧ bno + len ≤ r.startblock + r.blockcount ∧
      offset = r.offset + (bno - r.startblock) ∧ r.offset + r.blockcount ≤ 2 ^ 53 :=
  ⟨h.within.start, h.within.fin, h.within.offset h.ignoreOff, h.wf.filesize r h.mem h.ignoreOff⟩

theorem SharedRange.after_offset : (r.after (bno + len)).offset = offset + len := by
  obtain ⟨h1, h2, h3, h4⟩ := h.bounds
  simp only [RmapIrec.after, h.ignoreOff, Bool.false_eq_true, if_false]
  omega

theorem SharedRange.key_ne {u' : Bool} (hs : s ∈ c.recs) (hne : s ≠ r) :
    rmapKey s ≠ rmapKey (dataRange bno len owner offset u') := by
  obtain ⟨h1, h2, h3, h4⟩ := h.bounds
  have hpos := h.pos
  have howner : r.owner = owner := h.within.owner
  intro hk
  refine hne (h.wf.eq_of_key h.mem h.isData hs (b := bno) (f := offset) (u := u') ?_ (by omega)
    (by omega))
  rw [hk, howner]
  rfl

theorem SharedRange.key_ne_after (hright : r.startblock + r.blockcount ≠ bno + len)
    (hs : s ∈ c.recs) :
    rmapKey s ≠ rmapKey (r.after (bno + len)) := by
  obtain ⟨h1, h2, h3, h4⟩ := h.bounds
  have hpos := h.pos
  intro hk
  have hk' : rmapKey s = rmapKeyOf (bno + len) r.owner (offset + len) (dataFlags u) := by
    rw [hk, rmapKey, h.after_offset]
    simp only [RmapIrec.after, h.within.flags]
    rfl
  obtain rfl := h.wf.eq_of_key h.mem h.isData hs hk' (by omega) (by omega)
  have := (rmapKeyOf_inj hk').1
  omega

theorem SharedRange.before_eq : r.before bno = { r with blockcount := offset - r.offset } := by
  have := h.bounds
  simp only [RmapIrec.before, RmapIrec.mk.injEq, true_and, and_true]
  omega

theorem SharedRange.before_eq_of_end (hR : r.startblock + r.blockcount = bno + len) :
    r.before bno = { r with blockcount := r.blockcount - len } := by
  have := h.bounds
  simp only [RmapIrec.before, RmapIrec.mk.injEq, true_and, and_true]
  omega

theorem SharedRange.after_eq {n o : Nat} (hn : bno + len + n = r.startblock + r.blockcount)
    (ho : r.owner = o) : r.after (bno + len) = ⟨bno + len, n, o, offset + len, r.flags⟩ := by
  ext
  · rfl
  · simp only [RmapIrec.after]
    omega
  · exact ho
  · exact h.after_offset
  · rfl

theorem SharedRange.after_eq_of_start (hL : r.startblock = bno) :
    r.after (bno + len) = { r with
      offset := r.offset + len
      startblock := r.startblock + len
      blockcount := r.blockcount - len } := by
  have := h.bounds
  rw [h.after_eq (n := r.blockcount - len) (by omega) rfl, hL, show r.offset = offset by omega]

variable {c1 : RmapCur}

theorem SharedRange.insert_after (hR : r.startblock + r.blockcount ≠ bno + len)
    (ho : Ordered rmapKey c1.recs) (hsub : ∀ s ∈ c1.recs, s = r.before bno ∨ s ∈ c.recs) :
    ∃ c', rmapInsert c1 (r.after (bno + len)) = .ok c' ∧ Ordered rmapKey c'.recs ∧
      ∀ s, s ∈ c'.recs ↔ s = r.after (bno + len) ∨ s ∈ c1.recs := by
  refine rmapInsert_spec ho (fun s hs => ?_) ?_
  · rcases hsub s hs with rfl | hs
    · exact h.key_ne_after (s := r) hR h.mem
    · exact h.key_ne_after hR hs
  · have := h.bounds
    rw [h.after_offset]
    omega

theorem SharedRange.replace_before (ho : Ordered rmapKey c1.recs) (hp : r ∈ c1.recs) :
    ∃ c2, rmapLookupEqFound c1 r = .ok c2 ∧
      Ordered rmapKey (rmapUpdate c2 (r.before bno)).recs ∧
      ∀ s, s ∈ (rmapUpdate c2 (r.before bno)).recs ↔ s = r.before bno ∨ s ∈ c1.recs ∧ s ≠ r :=
  rmapReplace_spec ho hp rfl rfl (show r.offset < 2 ^ 54 from h.wf.offset_lt h.mem)

theorem rmapUnmapSharedRec_spec :
    ∃ c', rmapUnmapSharedRec c r bno len offset = .ok c' ∧
      Edited c.recs (unmapEdit r (dataRange bno len owner offset u)) c'.recs := by
  obtain ⟨hstart, hend, hoff, hlim⟩ := h.bounds
  have hpos := h.pos
  have hadd : (unmapEdit r (dataRange bno len owner offset u)).add =
      (if r.startblock = bno then [] else [r.before bno]) ++
        (if r.startblock + r.blockcount = bno + len then [] else [r.after (bno + len)]) := by
    simp [unmapEdit, dataRange, r.parts_before hstart, r.parts_after hend]
  have hdel : (unmapEdit r (dataRange bno len owner offset u)).del = [r] := rfl
  unfold rmapUnmapSharedRec
  by_cases hleft : r.startblock = bno
  · obtain ⟨c1, hrun1, hord1, hmem1⟩ := rmapDelete_spec h.wf.ordered h.mem
    by_cases hright : r.startblock + r.blockcount = bno + len
    · refine ⟨c1, ?_, hord1, fun s => ?_⟩
      · rw [if_pos ⟨hleft, by omega⟩, hrun1]
      · rw [hmem1, hadd, hdel, if_pos hleft, if_pos hright]
        simp
    · obtain ⟨c', hrun, hord, hmem⟩ :=
        h.insert_after hright hord1 fun s hs => .inr ((hmem1 s).mp hs).1
      rw [h.after_eq_of_start hleft] at hrun
      refine ⟨c', ?_, hord, fun s => ?_⟩
      · rw [if_neg (by omega), if_pos hleft, hrun1]
        exact hrun
      · rw [hmem, hmem1, hadd, hdel, if_pos hleft, if_neg hright]
        simp [or_comm]
  · obtain ⟨c1, hrun1, hord1, hmem1⟩ := h.replace_before h.wf.ordered h.mem
    by_cases hright : r.startblock + r.blockcount = bno + len
    · refine ⟨rmapUpdate c1 (r.before bno), ?_, hord1, fun s => ?_⟩
      · rw [if_neg (by omega), if_neg hleft, if_pos hright, hrun1, ← h.before_eq_of_end hright]
        rfl
      · rw [hmem1, hadd, hdel, if_neg hleft, if_pos hright]
        simp [or_comm]
    · obtain ⟨c', hrun, hord, hmem⟩ :=
        h.insert_after hright hord1 fun s hs => ((hmem1 s).mp hs).imp_right And.left
      refine ⟨c', ?_, hord, fun s => ?_⟩
      · rw [if_neg (by omega), if_neg hleft, if_neg hright, hrun1]
        change rmapInsert (rmapUpdate c1 (r.before bno)) _ = _
        rw [← hrun, h.after_eq (n := r.blockcount - len - (r.before bno).blockcount)
          (by simp only [RmapIrec.before]; omega) rfl]
        rfl
      · rw [hmem, hmem1, hadd, hdel, if_neg hleft, if_neg hright]
        grind

end

theorem rmapMapSharedRec_filter (hino : rmapNonInodeOwner owner = false) (lt gt : Option RmapIrec) :
    rmapMapSharedRec c (lt.filter (fun l => rmapIsMergeable l owner (dataFlags u)))
        (gt.filter (fun r => rmapIsMergeable r owner (dataFlags u))) bno len owner offset
        (dataFlags u) =
      rmapMapSharedRec c (lt.filter (mergesLeft (dataRange bno len owner offset u)))
        (gt.filter (mergesRight (dataRange bno len owner offset u))) bno len owner offset
        (dataFlags u) := by
  have hl : ∀ l, mergesLeft (dataRange bno len owner offset u) l =
      (rmapIsMergeable l owner (dataFlags u) && (decide (l.startblock + l.blockcount = bno) &&
        decide (l.offset + l.blockcount = offset))) := by
    intro l
    simp only [mergesLeft, dataRange_ignoreOff hino, Bool.false_or]
    rfl
  have hr : ∀ r, mergesRight (dataRange bno len owner offset u) r =
      (rmapIsMergeable r owner (dataFlags u) && (decide (bno + len = r.startblock) &&
        decide (offset + len = r.offset))) := by
    intro r
    simp only [mergesRight, dataRange_ignoreOff hino, Bool.false_or]
    rfl
  simp only [rmapMapSharedRec, Option.filter_filter, hl, hr]
  congr 2 <;> funext y <;> grind

theorem rmapMapSharedRec_spec (ho : Ordered rmapKey c.recs) {lt gt : Option RmapIrec}
    (hlim : ∀ y ∈ c.recs, y.offset < 2 ^ 54) (hino : rmapNonInodeOwner owner = false)
    (hoff : offset < 2 ^ 54) (hpos : 0 < len)
    (hnew : ∀ y ∈ c.recs, rmapKey y ≠ rmapKey (dataRange bno len owner offset u))
    (hn : Neighbours c.recs lt (dataRange bno len owner offset u) gt) :
    ∃ c', rmapMapSharedRec c lt gt bno len owner offset (dataFlags u) = .ok c' ∧
      Edited c.recs (mapEdit (dataRange bno len owner offset u) lt gt) c'.recs := by
  set x := dataRange bno len owner offset u
  have hltc : lt.filter (fun l => decide (l.startblock + l.blockcount = bno) &&
      decide (l.offset + l.blockcount = offset)) = lt := by
    cases lt with
    | none => rfl
    | some l =>
      have hab := hn.ltAbuts l rfl
      have hign := (ignoreOff_congr hab.owner hab.flags).trans (dataRange_ignoreOff hino)
      have h1 : l.startblock + l.blockcount = bno := hab.block
      have h2 : l.offset + l.blockcount = offset := hab.offset hign
      simp [h1, h2]
  have hgtc : gt.filter (fun r => decide (bno + len = r.startblock) &&
      decide (offset + len = r.offset)) = gt := by
    cases gt with
    | none => rfl
    | some r =>
      have hab := hn.gtAbuts r rfl
      have h1 : bno + len = r.startblock := hab.block
      have h2 : offset + len = r.offset := hab.offset (dataRange_ignoreOff hino)
      simp [h1, h2]
  simp only [rmapMapSharedRec, hltc, hgtc]
  cases lt with
  | none =>
    cases gt with
    | none =>
      obtain ⟨c', hrun, hord, hmem⟩ := rmapInsert_spec ho hnew hoff
      exact ⟨c', hrun, hord, fun s => by rw [hmem]; simp [mapEdit, joinNeighbours, or_comm]⟩
    | some r =>
      have hab := hn.gtAbuts r rfl
      obtain ⟨c1, hrun1, hord1, hmem1⟩ := rmapDelete_spec ho (hn.gtMem r rfl)
      have hjoin : x.join r = { r with
          startblock := bno, blockcount := r.blockcount + len, offset := offset } := by
        ext
        · rfl
        · exact add_comm _ _
        · exact hab.owner
        · rfl
        · exact hab.flags
      obtain ⟨c', hrun, hord, hmem⟩ := rmapInsert_spec (y := x.join r) hord1
        (fun s hs => hnew s ((hmem1 s).mp hs).1) hoff
      refine ⟨c', ?_, hord, fun s => ?_⟩
      · simp only [hrun1, ← hjoin]
        exact hrun
      · rw [hmem, hmem1]
        simp [mapEdit, joinNeighbours, or_comm]
  | some l =>
    have hl := hn.ltMem l rfl
    have hab := hn.ltAbuts l rfl
    cases gt with
    | none =>
      obtain ⟨c1, hrun1, hord1, hmem1⟩ := rmapReplace_spec (z := l.join x) (y := l.join x)
        ho hl rfl rfl (hlim l hl)
      refine ⟨_, ?_, hord1, fun s => ?_⟩
      · change (rmapLookupEqFound c (l.join x)).bind _ = _
        rw [hrun1]
        rfl
      · rw [hmem1]
        simp [mapEdit, joinNeighbours, or_comm]
    | some r =>
      have hr := hn.gtMem r rfl
      have hne : l ≠ r := by
        rintro rfl
        have h1 := hab.block
        have h2 := (hn.gtAbuts l rfl).block
        simp only [x, dataRange] at h1 h2
        omega
      obtain ⟨c1, hrun1, hord1, hmem1⟩ := rmapDelete_spec ho hr
      obtain ⟨c2, hrun2, hord2, hmem2⟩ := rmapReplace_spec (z := (l.join x).join r)
        (y := (l.join x).join r) hord1         ((hmem1 l).mpr ⟨hl, hne⟩) rfl rfl (hlim l hl)
      refine ⟨_, ?_, hord2, fun s => ?_⟩
      · simp only [hrun1]
        change (rmapLookupEqFound c1 ((l.join x).join r)).bind _ = _
        rw [hrun2]
        rfl
      · simp only [mapEdit, joinNeighbours, Option.toList_some, cons_append,
          nil_append, mem_cons, not_mem_nil, or_false]
        grind

end Recs

section Convert

variable {g : RmapGroup} {c : RmapCur} {prev x l r : RmapIrec} {lt gt : Option RmapIrec}
  {bno len owner offset : Nat} {u : Bool} (left right : Option RmapIrec)

/-- With these neighbours and in this state the conversion does the edit. -/
def SharedRange.Converts (_ : SharedRange g c.recs prev bno len owner offset u)
    (left right : Option RmapIrec) (state : ConvertState) (edit : RmapEdit) : Prop :=
  ∃ c', rmapConvertSharedRecs c ⟨prev, left, right, state⟩ bno len owner offset u = .ok c' ∧
    Edited c.recs edit c'.recs

section

variable (h : SharedRange g c.recs prev bno len owner offset u) {c1 : RmapCur}
include h

theorem SharedRange.range_offset_lt : offset < 2 ^ 54 := by
  obtain ⟨h1, h2, h3, h4⟩ := h.bounds
  omega

theorem SharedRange.range_key {u' : Bool} (hL : prev.startblock = bno) :
    rmapKey (dataRange bno len owner offset u') = rmapKey prev := by
  have howner : prev.owner = owner := h.within.owner
  have hflags : prev.flags = dataFlags u := h.within.flags
  have hoff : offset = prev.offset := by
    have := h.bounds
    omega
  rw [rmapKey, rmapKey, howner, hflags, hL, ← hoff]
  rfl

variable (hx : x = dataRange bno len owner offset (!u))
include hx

theorem SharedRange.range_eq : x.startblock = bno ∧ x.blockcount = len ∧ x.offset < 2 ^ 54 := by
  rw [hx]
  exact ⟨rfl, rfl, h.range_offset_lt⟩

theorem SharedRange.insert_range {y : RmapIrec} (hy : rmapKey y = rmapKey x)
    (hoff : y.offset < 2 ^ 54) (ho : Ordered rmapKey c1.recs)
    (hsub : ∀ s ∈ c1.recs, (prev.startblock ≠ bno ∧ s = prev.before bno) ∨
      s = prev.after (bno + len) ∨ s ∈ c.recs ∧ s ≠ prev) :
    ∃ c', rmapInsert c1 y = .ok c' ∧ Ordered rmapKey c'.recs ∧
      ∀ s, s ∈ c'.recs ↔ s = y ∨ s ∈ c1.recs := by
  refine rmapInsert_spec ho (fun s hs => ?_) hoff
  rw [hy, hx]
  rcases hsub s hs with ⟨hL, rfl⟩ | rfl | ⟨hs, hne⟩
  · exact fun hk => hL (rmapKeyOf_inj hk).1
  · intro hk
    have : bno + len = bno := (rmapKeyOf_inj hk).1
    have := h.pos
    omega
  · exact h.key_ne hs hne

theorem SharedRange.edited {recs' : List RmapIrec} (ho : Ordered rmapKey recs')
    (hmem : ∀ s, s ∈ recs' ↔ (s ∈ c.recs ∧ s ∉ lt ∧ s ≠ prev ∧ s ∉ gt) ∨
      s = joinNeighbours lt x gt ∨ (prev.startblock ≠ bno ∧ s = prev.before bno) ∨
      (prev.startblock + prev.blockcount ≠ bno + len ∧ s = prev.after (bno + len))) :
    Edited c.recs (convertEdit prev x lt gt) recs' := by
  obtain ⟨hstart, hcount, -⟩ := h.range_eq hx
  have := h.bounds
  refine ⟨ho, fun s => ?_⟩
  have hdel : s ∉ (convertEdit prev x lt gt).del ↔ s ∉ lt ∧ s ≠ prev ∧ s ∉ gt := by
    simp [convertEdit, not_or]
  rw [hmem, hdel, convertEdit_add lt gt (by omega) (by omega), hstart, hcount]
  split_ifs with hL hR hR <;> grind

section

variable (hL : prev.startblock = bno) (hR : prev.startblock + prev.blockcount = bno + len)
include hL hR

theorem rmapConvertSharedRecs_all (hl : l ∈ c.recs) (hr : r ∈ c.recs) (hlx : l.Abuts x)
    (hxr : x.Abuts r) :
    h.Converts (some l) (some r) ⟨true, true, true, true⟩
      (convertEdit prev x (some l) (some r)) := by
  have hpos := h.pos
  have hlPos := (h.wf.bounds hl).1
  have h1 := hlx.block
  have h2 := hxr.block
  obtain ⟨hstart, hcount, -⟩ := h.range_eq hx
  have hpr : prev ≠ r := by rintro rfl; omega
  have hlp : l ≠ prev := by rintro rfl; omega
  have hlr : l ≠ r := by rintro rfl; omega
  obtain ⟨c1, hrun1, hord1, hmem1⟩ := rmapDelete_spec h.wf.ordered hr
  obtain ⟨c2, hrun2, hord2, hmem2⟩ := rmapDelete_spec hord1 ((hmem1 prev).mpr ⟨h.mem, hpr⟩)
  obtain ⟨c3, hrun3, hord3, hmem3⟩ := rmapReplace_spec (y := (l.join x).join r) hord2
    ((hmem2 l).mpr ⟨(hmem1 l).mpr ⟨hl, hlr⟩, hlp⟩) rfl rfl
    (show l.offset < 2 ^ 54 from h.wf.offset_lt hl)
  have hjoin : (l.join x).join r = { l with
      blockcount := l.blockcount + (prev.blockcount + r.blockcount) } := by
    simp only [RmapIrec.join, RmapIrec.mk.injEq, true_and, and_true]
    omega
  refine ⟨rmapUpdate c3 ((l.join x).join r), ?_, h.edited hx hord3 fun s => ?_⟩
  · simp only [rmapConvertSharedRecs, hrun1, hrun2, hrun3, ok_bind, hjoin]
    rfl
  · grind [joinNeighbours]

theorem rmapConvertSharedRecs_allLeft (hl : l ∈ c.recs) (hlx : l.Abuts x) :
    h.Converts (some l) right ⟨true, true, true, false⟩ (convertEdit prev x (some l) none) := by
  have hlPos := (h.wf.bounds hl).1
  have h1 := hlx.block
  obtain ⟨hstart, hcount, -⟩ := h.range_eq hx
  have hlp : l ≠ prev := by rintro rfl; omega
  obtain ⟨c1, hrun1, hord1, hmem1⟩ := rmapDelete_spec h.wf.ordered h.mem
  obtain ⟨c2, hrun2, hord2, hmem2⟩ := rmapReplace_spec (y := l.join x) hord1
    ((hmem1 l).mpr ⟨hl, hlp⟩) rfl rfl (show l.offset < 2 ^ 54 from h.wf.offset_lt hl)
  have hjoin : l.join x = { l with blockcount := l.blockcount + prev.blockcount } := by
    simp only [RmapIrec.join, RmapIrec.mk.injEq, true_and, and_true]
    omega
  refine ⟨rmapUpdate c2 (l.join x), ?_, h.edited hx hord2 fun s => ?_⟩
  · simp only [rmapConvertSharedRecs, hrun1, hrun2, ok_bind, hjoin]
    rfl
  · grind [joinNeighbours]

theorem rmapConvertSharedRecs_allRight (hr : r ∈ c.recs) (hxr : x.Abuts r) :
    h.Converts left (some r) ⟨true, true, false, true⟩ (convertEdit prev x none (some r)) := by
  have hpos := h.pos
  have h2 := hxr.block
  obtain ⟨hstart, hcount, hoff⟩ := h.range_eq hx
  have hpr : prev ≠ r := by rintro rfl; omega
  obtain ⟨c1, hrun1, hord1, hmem1⟩ := rmapDelete_spec h.wf.ordered hr
  have hkey : rmapKey (x.join r) = rmapKey prev := by
    rw [hx]
    exact h.range_key hL
  obtain ⟨c2, hrun2, hord2, hmem2⟩ := rmapReplace_spec hord1
    ((hmem1 prev).mpr ⟨h.mem, hpr⟩) rfl hkey hoff
  have hjoin : x.join r = { prev with
      blockcount := prev.blockcount + r.blockcount, flags := r.flags } := by
    have howner : prev.owner = owner := h.within.owner
    have hflags := hxr.flags
    have := h.bounds
    rw [hx] at hflags ⊢
    simp only [RmapIrec.join, RmapIrec.mk.injEq, dataRange, howner, true_and]
    exact ⟨hL.symm, by omega, by omega, hflags⟩
  refine ⟨rmapUpdate c2 (x.join r), ?_, h.edited hx hord2 fun s => ?_⟩
  · simp only [rmapConvertSharedRecs, hrun1, hrun2, ok_bind, hjoin]
    rfl
  · grind [joinNeighbours]

theorem rmapConvertSharedRecs_allAlone :
    h.Converts left right ⟨true, true, false, false⟩ (convertEdit prev x none none) := by
  have hkey : rmapKey x = rmapKey prev := by
    rw [hx]
    exact h.range_key hL
  obtain ⟨c1, hrun1, hord1, hmem1⟩ := rmapReplace_spec h.wf.ordered h.mem rfl
    hkey (h.range_eq hx).2.2
  have hrec : x = { prev with flags := dataFlags (!u) } := by
    have howner : prev.owner = owner := h.within.owner
    have := h.bounds
    rw [hx]
    simp only [RmapIrec.mk.injEq, dataRange, howner, and_true, true_and]
    exact ⟨hL.symm, by omega, by omega⟩
  refine ⟨rmapUpdate c1 x, ?_, h.edited hx hord1 fun s => ?_⟩
  · simp only [rmapConvertSharedRecs, hrun1, ← hrec]
    rfl
  · grind [joinNeighbours]

end

section

variable (hL : prev.startblock = bno) (hR : prev.startblock + prev.blockcount ≠ bno + len)
include hL hR

theorem rmapConvertSharedRecs_firstLeft (hl : l ∈ c.recs) (hlx : l.Abuts x) :
    h.Converts (some l) right ⟨true, false, true, false⟩ (convertEdit prev x (some l) none) := by
  have hlPos := (h.wf.bounds hl).1
  have h1 := hlx.block
  obtain ⟨hstart, hcount, -⟩ := h.range_eq hx
  have hlp : l ≠ prev := by rintro rfl; omega
  have hla : l ≠ prev.after (bno + len) := fun he =>
    h.key_ne_after hR hl (congrArg rmapKey he)
  obtain ⟨c1, hrun1, hord1, hmem1⟩ := rmapDelete_spec h.wf.ordered h.mem
  obtain ⟨c2, hrun2, hord2, hmem2⟩ := h.insert_after hR hord1 fun s hs => .inr ((hmem1 s).mp hs).1
  obtain ⟨c3, hrun3, hord3, hmem3⟩ := rmapReplace_spec (y := l.join x) hord2
    ((hmem2 l).mpr (.inr ((hmem1 l).mpr ⟨hl, hlp⟩))) rfl rfl
    (show l.offset < 2 ^ 54 from h.wf.offset_lt hl)
  have hjoin : l.join x = { l with blockcount := l.blockcount + len } := by
    rw [RmapIrec.join, hcount]
  rw [h.after_eq_of_start hL] at hrun2
  refine ⟨rmapUpdate c3 (l.join x), ?_, h.edited hx hord3 fun s => ?_⟩
  · simp only [rmapConvertSharedRecs, hrun1, hrun2, hrun3, ok_bind, hjoin]
    rfl
  · grind [joinNeighbours]

theorem rmapConvertSharedRecs_first :
    h.Converts left right ⟨true, false, false, false⟩ (convertEdit prev x none none) := by
  obtain ⟨c1, hrun1, hord1, hmem1⟩ := rmapDelete_spec h.wf.ordered h.mem
  obtain ⟨c2, hrun2, hord2, hmem2⟩ := h.insert_after hR hord1 fun s hs => .inr ((hmem1 s).mp hs).1
  obtain ⟨c', hrun, hord, hmem⟩ := h.insert_range hx rfl (h.range_eq hx).2.2 hord2 fun s hs =>
    .inr (((hmem2 s).mp hs).imp_right (hmem1 s).mp)
  rw [h.after_eq_of_start hL] at hrun2
  refine ⟨c', ?_, h.edited hx hord fun s => ?_⟩
  · simp only [rmapConvertSharedRecs, hrun1, hrun2, ok_bind]
    rw [← hrun, hx]
    rfl
  · grind [joinNeighbours]

end

section

variable (hL : prev.startblock ≠ bno) (hR : prev.startblock + prev.blockcount = bno + len)
include hL hR

theorem rmapConvertSharedRecs_lastRight (hr : r ∈ c.recs) (hxr : x.Abuts r) :
    h.Converts left (some r) ⟨false, true, false, true⟩ (convertEdit prev x none (some r)) := by
  have hpos := h.pos
  have h2 := hxr.block
  have hbounds := h.bounds
  obtain ⟨hstart, hcount, hoff⟩ := h.range_eq hx
  have hrp : r ≠ prev := by rintro rfl; omega
  have hrb : r ≠ prev.before bno := by
    intro he
    have : r.startblock = prev.startblock := by rw [he]; rfl
    omega
  obtain ⟨c1, hrun1, hord1, hmem1⟩ := h.replace_before h.wf.ordered h.mem
  obtain ⟨c2, hrun2, hord2, hmem2⟩ := rmapDelete_spec hord1 ((hmem1 r).mpr (.inr ⟨hr, hrp⟩))
  obtain ⟨c', hrun, hord, hmem⟩ := h.insert_range hx (y := x.join r) rfl hoff hord2 fun s hs =>
    ((hmem1 s).mp ((hmem2 s).mp hs).1).imp (⟨hL, ·⟩) .inr
  have hjoin : x.join r = { r with
      offset := offset, startblock := bno, blockcount := r.blockcount + len } := by
    have howner := hxr.owner
    have hflags := hxr.flags
    rw [hx] at howner hflags ⊢
    simp only [RmapIrec.join, RmapIrec.mk.injEq, dataRange, true_and] at howner hflags ⊢
    exact ⟨add_comm _ _, howner, hflags⟩
  rw [h.before_eq] at hrun2
  refine ⟨c', ?_, h.edited hx hord fun s => ?_⟩
  · simp only [rmapConvertSharedRecs, hrun1, hrun2, ok_bind]
    rw [← hrun, hjoin]
  · grind [joinNeighbours]

theorem rmapConvertSharedRecs_last :
    h.Converts left right ⟨false, true, false, false⟩ (convertEdit prev x none none) := by
  obtain ⟨c1, hrun1, hord1, hmem1⟩ := h.replace_before h.wf.ordered h.mem
  obtain ⟨c', hrun, hord, hmem⟩ := h.insert_range hx rfl (h.range_eq hx).2.2 hord1 fun s hs =>
    ((hmem1 s).mp hs).imp (⟨hL, ·⟩) .inr
  refine ⟨c', ?_, h.edited hx hord fun s => ?_⟩
  · simp only [rmapConvertSharedRecs, hrun1, ← h.before_eq_of_end hR]
    rw [← hrun, hx]
    rfl
  · grind [joinNeighbours]

end

theorem rmapConvertSharedRecs_middle (hL : prev.startblock ≠ bno)
    (hR : prev.startblock + prev.blockcount ≠ bno + len) :
    h.Converts left right ⟨false, false, false, false⟩ (convertEdit prev x none none) := by
  have hpa : prev ≠ prev.after (bno + len) := fun he =>
    h.key_ne_after hR h.mem (congrArg rmapKey he)
  obtain ⟨c1, hrun1, hord1, hmem1⟩ := h.insert_after hR h.wf.ordered fun s hs => .inr hs
  obtain ⟨c2, hrun2, hord2, hmem2⟩ := h.replace_before hord1 ((hmem1 prev).mpr (.inr h.mem))
  obtain ⟨c', hrun, hord, hmem⟩ := h.insert_range hx rfl (h.range_eq hx).2.2 hord2 fun s hs =>
    ((hmem2 s).mp hs).imp (⟨hL, ·⟩) fun hs => ((hmem1 s).mp hs.1).imp_right (⟨·, hs.2⟩)
  refine ⟨c', ?_, h.edited hx hord fun s => ?_⟩
  · have := h.bounds
    rw [h.after_eq (n := prev.offset + prev.blockcount - (offset + len)) (o := owner) (by omega)
      h.within.owner] at hrun1
    simp only [rmapConvertSharedRecs, hrun1, hrun2, ok_bind, ← h.before_eq]
    rw [← hrun, hx]
    rfl
  · grind [joinNeighbours]

theorem rmapConvertSharedRecs_spec (hn : Neighbours c.recs lt x gt)
    (hlt : ∀ l, lt = some l → left = some l ∧ prev.startblock = bno)
    (hgt : ∀ r, gt = some r → right = some r ∧ prev.startblock + prev.blockcount = bno + len) :
    h.Converts left right ⟨decide (prev.startblock = bno),
        decide (prev.startblock + prev.blockcount = bno + len), lt.isSome, gt.isSome⟩
      (convertEdit prev x lt gt) := by
  cases lt with
  | none =>
    cases gt with
    | none =>
      by_cases hL : prev.startblock = bno
      · by_cases hR : prev.startblock + prev.blockcount = bno + len
        · rw [decide_eq_true hL, decide_eq_true hR]
          exact rmapConvertSharedRecs_allAlone left right h hx hL hR
        · rw [decide_eq_true hL, decide_eq_false hR]
          exact rmapConvertSharedRecs_first left right h hx hL hR
      · by_cases hR : prev.startblock + prev.blockcount = bno + len
        · rw [decide_eq_false hL, decide_eq_true hR]
          exact rmapConvertSharedRecs_last left right h hx hL hR
        · rw [decide_eq_false hL, decide_eq_false hR]
          exact rmapConvertSharedRecs_middle left right h hx hL hR
    | some r =>
      obtain ⟨rfl, hR⟩ := hgt r rfl
      rw [decide_eq_true hR]
      by_cases hL : prev.startblock = bno
      · rw [decide_eq_true hL]
        exact rmapConvertSharedRecs_allRight left h hx hL hR (hn.gtMem r rfl) (hn.gtAbuts r rfl)
      · rw [decide_eq_false hL]
        exact rmapConvertSharedRecs_lastRight left h hx hL hR (hn.gtMem r rfl) (hn.gtAbuts r rfl)
  | some l =>
    obtain ⟨rfl, hL⟩ := hlt l rfl
    have hl := hn.ltMem l rfl
    have hlx := hn.ltAbuts l rfl
    rw [decide_eq_true hL]
    cases gt with
    | none =>
      by_cases hR : prev.startblock + prev.blockcount = bno + len
      · rw [decide_eq_true hR]
        exact rmapConvertSharedRecs_allLeft right h hx hL hR hl hlx
      · rw [decide_eq_false hR]
        exact rmapConvertSharedRecs_firstLeft right h hx hL hR hl hlx
    | some r =>
      obtain ⟨rfl, hR⟩ := hgt r rfl
      rw [decide_eq_true hR]
      exact rmapConvertSharedRecs_all h hx hL hR hl (hn.gtMem r rfl) hlx (hn.gtAbuts r rfl)

end

end Convert

end Xfs
