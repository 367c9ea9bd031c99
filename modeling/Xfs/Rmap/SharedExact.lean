import Xfs.Rmap.SharedRecs

/-! The operations on shared extents change exactly the blocks of the range,
and without overlaps they do what the plain operations do. -/
namespace Xfs

open RmapIrec Option RecordCursor

section Plan

variable {g : RmapGroup} {c : RmapCur} {prev x l r : RmapIrec} {bno len owner offset : Nat}
  {u : Bool}

theorem rmapIsMergeable_data (hino : rmapNonInodeOwner owner = false) :
    rmapIsMergeable l owner (dataFlags u) ↔ l.owner = owner ∧ l.flags = dataFlags u := by
  rw [rmapIsMergeable_iff]
  refine ⟨fun h => h.2, fun h => ⟨fun hnull => ?_, h⟩⟩
  rw [← h.1, hnull] at hino
  exact absurd hino (by decide)

section

variable (h : SharedRange g c.recs prev bno len owner offset u)
include h

theorem SharedRange.left_ne (hl : l.flags.bmbtBlock = false → l.offset + l.blockcount = offset) :
    l ≠ prev := by
  rintro rfl
  have := h.bounds
  have := h.pos
  have := hl (isData_iff.mp h.isData).2.1
  omega

theorem SharedRange.left_abuts (hx : x = dataRange bno len owner offset (!u)) (hl : l ∈ c.recs)
    (hoff : l.flags.bmbtBlock = false → l.offset + l.blockcount = offset)
    (hpath : FoundLeft c.recs bno owner offset (!u) l)
    (hend : l.startblock + l.blockcount ≤ bno) (hm : rmapIsMergeable l owner (dataFlags !u)) :
    l.Abuts x ∧ prev.startblock = bno := by
  obtain ⟨howner, hflags⟩ := (rmapIsMergeable_data h.ino).mp hm
  obtain ⟨h1, h2, h3, h4⟩ := h.bounds
  have hpos := h.pos
  have hlPos := (h.wf.bounds hl).1
  have hdata : l.isData := isData_of_flags (howner ▸ h.ino) hflags
  have hoff' := hoff (isData_iff.mp hdata).2.1
  have hne := h.left_ne hoff
  have hpOwner : prev.owner = owner := h.within.owner
  have hstart : prev.startblock = bno := by
    by_contra hne'
    exact hne (h.wf.eq_of_offset hl h.mem hdata h.isData (howner.trans hpOwner.symm)
      (f := offset - 1) (by omega) (by omega) (by omega) (by omega))
  refine ⟨?_, hstart⟩
  rcases hpath with ⟨-, hle, hmax⟩ | ⟨-, hge⟩
  · -- the plain lookup ends at `prev`, which has the key of the range
    have hk : rmapKeyOf bno owner offset (dataFlags !u) = rmapKey prev := h.range_key hstart
    rw [hk] at hle hmax
    exact absurd (h.wf.ordered.key_inj hl h.mem (le_antisymm hle (hmax prev h.mem le_rfl))) hne
  · rw [hx]
    exact ⟨by simp only [dataRange]; omega, howner, hflags, fun _ => hoff'⟩

theorem SharedRange.right_filling (hx : x = dataRange bno len owner offset (!u)) (hr : r ∈ c.recs)
    (hab : x.Abuts r) :
    prev.startblock + prev.blockcount = bno + len := by
  subst hx
  obtain ⟨h1, h2, h3, h4⟩ := h.bounds
  have hpos := h.pos
  have hrPos := (h.wf.bounds hr).1
  have hstart : bno + len = r.startblock := hab.block
  have howner : owner = r.owner := hab.owner
  have hpOwner : prev.owner = owner := h.within.owner
  have hoff : offset + len = r.offset := hab.offset (dataRange_ignoreOff h.ino)
  have hdata : r.isData := isData_of_flags (howner ▸ h.ino) hab.flags.symm
  by_contra hne
  have := h.wf.eq_of_offset hr h.mem hdata h.isData (howner.symm.trans hpOwner.symm)
    (f := offset + len) (by omega) (by omega) (by omega) (by omega)
  rw [this] at hstart
  omega

end

variable {recs : List RmapIrec}

theorem PhysDisjoint.eq_of_block (hd : PhysDisjoint recs) {r s : RmapIrec} (hr : r ∈ recs)
    (hs : s ∈ recs) {b : Nat} (hr1 : r.startblock ≤ b) (hr2 : b < r.startblock + r.blockcount)
    (hs1 : s.startblock ≤ b) (hs2 : b < s.startblock + s.blockcount) : r = s := by
  by_contra hne
  rcases hd r hr s hs hne with h | h <;> omega

theorem SharedRange.left_end (h : SharedRange g c.recs prev bno len owner offset u)
    (hd : PhysDisjoint c.recs) (hl : l ∈ c.recs)
    (hoff : l.flags.bmbtBlock = false → l.offset + l.blockcount = offset)
    (hpath : FoundLeft c.recs bno owner offset (!u) l) :
    l.startblock + l.blockcount ≤ bno := by
  obtain ⟨h1, h2, h3, h4⟩ := h.bounds
  have hpos := h.pos
  by_contra hend
  exact h.left_ne hoff (hd.eq_of_block hl h.mem hpath.start_le (by omega) h1 (by omega))

variable {y : RmapIrec}

theorem PhysDisjoint.left_eq (hd : PhysDisjoint c.recs) (hwf : RmapWF g c.recs) (hl : l ∈ c.recs)
    (hend : l.startblock + l.blockcount ≤ bno)
    (hpath : FoundLeft c.recs bno owner offset u l) (hy : y ∈ c.recs) (hblock : y.startblock + y.blockcount = bno) : l = y := by
  have hlPos := (hwf.bounds hl).1
  have hyPos := (hwf.bounds hy).1
  rcases hpath with ⟨-, -, hmax⟩ | ⟨hlt, hge⟩
  · have hk : rmapKey y ≤ rmapKeyOf bno owner offset (dataFlags u) :=
      (rmapKeyOf_lt_of_lt (by omega) _ _ _ _ _ _).le
    have hle := le_of_rmapKeyOf_le (hmax y hy hk)
    exact hd.eq_of_block hl hy le_rfl (by omega) hle (by omega)
  · exact hd.eq_of_block hl hy (b := bno - 1) (by omega) (by omega) (by omega) (by omega)

theorem rmapConvertSharedPlan_spec (h : SharedRange g c.recs prev bno len owner offset u)
    (hx : x = dataRange bno len owner offset (!u)) :
    ∃ c1 left right lt gt, c1.recs = c.recs ∧ rmapConvertSharedPlan g c bno len owner offset u =
        (if left.any (fun l => decide (bno < l.startblock + l.blockcount)) then
          .error .efscorrupted
        else .ok (c1, ⟨prev, left, right, ⟨decide (prev.startblock = bno),
          decide (prev.startblock + prev.blockcount = bno + len), lt.isSome, gt.isSome⟩⟩)) ∧
      (left.any (fun l => decide (bno < l.startblock + l.blockcount)) = false →
        Neighbours c.recs lt x gt ∧
        (∀ l, lt = some l → left = some l ∧ prev.startblock = bno) ∧
        (∀ r, gt = some r → right = some r ∧ prev.startblock + prev.blockcount = bno + len)) ∧
      (PhysDisjoint c.recs →
        left.any (fun l => decide (bno < l.startblock + l.blockcount)) = false ∧
        ∀ y ∈ c.recs, (y.Abuts x → lt = some y) ∧ (x.Abuts y → gt = some y)) := by
  obtain ⟨h1, h2, h3, h4⟩ := h.bounds
  have hoffLt := h.range_offset_lt
  obtain ⟨c1, hprev, hrecs1⟩ := rmapLookupLeRange_spec h.wf h.ino h.pos h.mem h.within
  obtain ⟨c2, left, hleft, hrecs2, hleftSome, hleftNone⟩ := rmapFindLeftNeighbor_spec
    bno len (!u) (hrecs1 ▸ h.wf.toRmapWF) h.ino hoffLt
  rw [hrecs1] at hrecs2 hleftSome hleftNone
  obtain ⟨c3, right, hright, hrecs3, hrightSome, hrightAll⟩ := rmapFindEq_abuts
    bno len offset (!u) (hrecs2 ▸ h.wf.toRmapWF)
    h.ino (by omega)
  rw [hrecs2] at hrecs3 hrightSome hrightAll
  rw [← hx] at hrightSome hrightAll hleftNone
  have hlF : decide (prev.offset = offset) = decide (prev.startblock = bno) := by
    rw [decide_eq_decide]
    omega
  have hrF : decide (prev.offset + prev.blockcount = offset + len) =
      decide (prev.startblock + prev.blockcount = bno + len) := by
    rw [decide_eq_decide]
    omega
  have hany : ∀ o : Option RmapIrec, o.any (fun l => rmapIsMergeable l owner (dataFlags !u)) =
      (o.filter (fun l => rmapIsMergeable l owner (dataFlags !u))).isSome := by
    intro o
    cases o with
    | none => rfl
    | some y => cases hm : rmapIsMergeable y owner (dataFlags !u) <;> simp [hm]
  have hrightFar : right.any (fun r => decide (r.startblock < bno + len)) = false := by
    cases right with
    | none => rfl
    | some r => simpa using (hrightSome r rfl).2.1.le
  -- a merge of all three records stays inside the group
  have hlimit : left.any (fun l => decide (bno < l.startblock + l.blockcount)) = false →
      ∀ s : ConvertState, s.limit left right len = s := by
    intro hfree s
    unfold ConvertState.limit
    split
    case h_2 => rfl
    case h_1 y z =>
      have hy : y.startblock + y.blockcount ≤ bno := by simpa using hfree
      have hz := (hrightSome z rfl).2.1
      have hzEnd := (h.wf.bounds (hrightSome z rfl).1).2.1
      rw [if_neg]
      simp only [Bool.and_eq_true, decide_eq_true_eq, not_and]
      intro _
      unfold rmapLenMax
      omega
  refine ⟨c3, left, right, left.filter (fun l => rmapIsMergeable l owner (dataFlags !u)),
    right.filter (fun r => rmapIsMergeable r owner (dataFlags !u)), hrecs3, ?_, fun hfree => ?_,
    fun hd => ?_⟩
  · simp only [rmapConvertSharedPlan, hprev, hleft, bind, Except.bind]
    by_cases hfree : left.any (fun l => decide (bno < l.startblock + l.blockcount)) = true
    · rw [if_pos hfree, if_pos hfree]
      rfl
    · rw [if_neg hfree, if_neg hfree, hright]
      simp only [hrightFar, hlF, hrF, hany, hlimit (Bool.not_eq_true _ ▸ hfree)]
      rfl
  · have hlt : ∀ l, left.filter (fun l => rmapIsMergeable l owner (dataFlags !u)) = some l →
        left = some l ∧ l ∈ c.recs ∧ l.Abuts x ∧ prev.startblock = bno := by
      intro l hl
      obtain ⟨rfl, hm⟩ := filter_eq_some_iff.mp hl
      obtain ⟨hmem, -, hoff, hpath⟩ := hleftSome l rfl
      have hend : l.startblock + l.blockcount ≤ bno := by simpa using hfree
      exact ⟨rfl, hmem, h.left_abuts hx hmem hoff hpath hend hm⟩
    have hgt : ∀ r, right.filter (fun r => rmapIsMergeable r owner (dataFlags !u)) = some r →
        right = some r ∧ r ∈ c.recs ∧ x.Abuts r := by
      intro r hr
      obtain ⟨rfl, hm⟩ := filter_eq_some_iff.mp hr
      obtain ⟨hmem, -, hab⟩ := hrightSome r rfl
      exact ⟨rfl, hmem, hab hm⟩
    refine ⟨⟨fun l hl => (hlt l hl).2.1, fun r hr => (hgt r hr).2.1,
      fun l hl => (hlt l hl).2.2.1, fun r hr => (hgt r hr).2.2⟩,
      fun l hl => ⟨(hlt l hl).1, (hlt l hl).2.2.2⟩, fun r hr => ⟨(hgt r hr).1, ?_⟩⟩
    exact h.right_filling hx (hgt r hr).2.1 (hgt r hr).2.2
  · have hend : ∀ l, left = some l → l.startblock + l.blockcount ≤ bno := fun l hl =>
      h.left_end hd (hleftSome l hl).1 (hleftSome l hl).2.2.1 (hleftSome l hl).2.2.2
    refine ⟨?_, fun y hy => ⟨fun hab => ?_, fun hab => ?_⟩⟩
    · cases left with
      | none => rfl
      | some l => simpa using hend l rfl
    · have hm : rmapIsMergeable y owner (dataFlags !u) :=
        (rmapIsMergeable_data h.ino).mpr (by rw [hab.owner, hab.flags, hx]; exact ⟨rfl, rfl⟩)
      cases left with
      | none => exact absurd hab (hleftNone rfl y hy)
      | some l =>
        obtain ⟨hmem, -, -, hpath⟩ := hleftSome l rfl
        have hblock : y.startblock + y.blockcount = bno := by rw [hab.block, hx]; rfl
        obtain rfl := hd.left_eq h.wf.toRmapWF hmem (hend l rfl) hpath hy hblock
        simp [hm]
    · have hm : rmapIsMergeable y owner (dataFlags !u) :=
        (rmapIsMergeable_data h.ino).mpr (by rw [← hab.owner, ← hab.flags, hx]; exact ⟨rfl, rfl⟩)
      rw [hrightAll y hy hab]
      simp [hm]

end Plan

section Exact

variable {g : RmapGroup} {c : RmapCur} {r x : RmapIrec} {bno len : Nat} {u : Bool}
  {oinfo : OwnerInfo}

theorem OwnerInfo.flags_data (hattr : oinfo.attrFork = false) (hbmbt : oinfo.bmbtBlock = false)
    (u : Bool) : oinfo.flags u = dataFlags u := by
  rw [OwnerInfo.flags, hattr, hbmbt, dataFlags]

theorem SharedRange.sole {owner offset : Nat} (h : SharedRange g c.recs r bno len owner offset u) :
    Sole c.recs r (dataRange bno len owner offset u) := by
  intro s hs hne t hxt hst
  obtain ⟨h1, h2, h3, h4⟩ := h.bounds
  obtain ⟨hb1, hb2, howner, hflags, hoff⟩ := hxt
  obtain ⟨hs1, hs2, hsOwner, hsFlags, hsOff⟩ := hst
  have hrOwner : r.owner = owner := h.within.owner
  have howner' : s.owner = owner := hsOwner.symm.trans howner
  have hdata : s.isData :=
    isData_of_flags (howner' ▸ h.ino) (hsFlags.symm.trans hflags)
  rw [dataRange_ignoreOff h.ino] at hoff
  rw [hoff, ignoreOff_of_isData hdata] at hsOff
  simp only [Bool.false_eq_true, if_false, Option.some.injEq, dataRange] at hsOff hb1 hb2
  exact hne (h.wf.eq_of_offset hs h.mem hdata h.isData (howner'.trans hrOwner.symm)
    (f := offset + (t.block - bno)) (by omega) (by omega) (by omega) (by omega))

theorem rmapUnmapShared_exact (h : SharedRange g c.recs r bno len oinfo.owner oinfo.offset u)
    (hattr : oinfo.attrFork = false) (hbmbt : oinfo.bmbtBlock = false) :
    ∃ c', rmapUnmapShared g c bno len u oinfo = .ok c' ∧
      Edited c.recs (unmapEdit r (dataRange bno len oinfo.owner oinfo.offset u)) c'.recs := by
  obtain ⟨h1, h2, h3, h4⟩ := h.bounds
  have hpos := h.pos
  have howner : r.owner = oinfo.owner := h.within.owner
  have hflags : r.flags = dataFlags u := h.within.flags
  obtain ⟨c1, hfind, hrecs⟩ := rmapLookupLeRange_spec h.wf h.ino h.pos h.mem h.within
  have h' : SharedRange g c1.recs r bno len oinfo.owner oinfo.offset u := hrecs ▸ h
  obtain ⟨c', hrun, hedit⟩ := rmapUnmapSharedRec_spec h'
  refine ⟨c', ?_, hrecs ▸ hedit⟩
  rw [rmapUnmapShared, OwnerInfo.flags_data hattr hbmbt]
  simp only [hfind, ok_bind]
  rw [if_neg (by omega), if_neg (by rw [howner]; simp), if_neg (by rw [hflags]; simp),
    if_neg (by omega), if_neg (by omega), hrun]

theorem mergesLeft_of_abuts (hino : rmapNonInodeOwner x.owner = false) (hab : y.Abuts x) :
    mergesLeft x y := by
  refine mergesLeft_iff.mpr ⟨fun hnull => ?_, hab⟩
  rw [← hab.owner, hnull] at hino
  exact absurd hino (by decide)

theorem mergesRight_of_abuts (hino : rmapNonInodeOwner x.owner = false) (hab : x.Abuts y) :
    mergesRight x y := by
  refine mergesRight_iff.mpr ⟨fun hnull => ?_, hab⟩
  rw [hab.owner, hnull] at hino
  exact absurd hino (by decide)

theorem rmapMapShared_exact (hwf : RmapWF g c.recs)
    (hino : rmapNonInodeOwner oinfo.owner = false) (hattr : oinfo.attrFork = false)
    (hbmbt : oinfo.bmbtBlock = false) (hpos : 0 < len) (hoff : oinfo.offset + len < 2 ^ 54)
    (hx : x = dataRange bno len oinfo.owner oinfo.offset u)
    (hnew : ∀ y ∈ c.recs, rmapKey y ≠ rmapKey x) :
    ∃ c' lt gt, rmapMapShared g c bno len u oinfo = .ok c' ∧
      Edited c.recs (mapEdit x lt gt) c'.recs ∧ Neighbours c.recs lt x gt ∧
      (PhysDisjoint c.recs → (∀ y ∈ c.recs, y.startblock + y.blockcount ≤ bno ∨
          bno + len ≤ y.startblock) →
        ∀ y ∈ c.recs, (y.Abuts x → lt = some y) ∧ (x.Abuts y → gt = some y)) := by
  obtain ⟨c1, left, hleft, hrecs1, hleftSome, hleftNone⟩ := rmapFindLeftNeighbor_spec
    bno len u hwf hino (show oinfo.offset < 2 ^ 54 by omega)
  obtain ⟨c2, right, hright, hrecs2, hrightSome, hrightAll⟩ := rmapFindEq_abuts
    bno len oinfo.offset u (hrecs1 ▸ hwf) hino hoff
  rw [hrecs1] at hrecs2 hrightSome hrightAll
  have hn : Neighbours c.recs (left.filter (mergesLeft x)) x (right.filter (mergesRight x)) := by
    refine ⟨fun l hl => ?_, fun r hr => ?_, fun l hl => ?_, fun r hr => ?_⟩
    · exact (hleftSome l (filter_eq_some_iff.mp hl).1).1
    · exact (hrightSome r (filter_eq_some_iff.mp hr).1).1
    · exact (mergesLeft_iff.mp (filter_eq_some_iff.mp hl).2).2
    · exact (mergesRight_iff.mp (filter_eq_some_iff.mp hr).2).2
  subst hx
  obtain ⟨c', hrun, hedit⟩ := rmapMapSharedRec_spec (hrecs2 ▸ hwf.ordered)
    (fun y hy => hwf.offset_lt (hrecs2 ▸ hy)) hino (show oinfo.offset < 2 ^ 54 by omega) hpos
    (hrecs2 ▸ hnew) (hrecs2.symm ▸ hn)
  refine ⟨c', _, _, ?_, hrecs2 ▸ hedit, hn, fun hd hfree y hy => ⟨fun hab => ?_, fun hab => ?_⟩⟩
  · rw [rmapMapShared, OwnerInfo.flags_data hattr hbmbt]
    simp only [hleft, hright, ok_bind]
    rw [rmapMapSharedRec_filter hino, hrun]
  · have hm := mergesLeft_of_abuts hino hab
    cases left with
    | none => exact absurd hab (hleftNone rfl y hy)
    | some l =>
      obtain ⟨hmem, -, -, hpath⟩ := hleftSome l rfl
      have hend : l.startblock + l.blockcount ≤ bno := by
        have := hpath.start_le
        rcases hfree l hmem with h | h <;> omega
      obtain rfl := hd.left_eq hwf hmem hend hpath hy hab.block
      simp [hm]
  · have hm := mergesRight_of_abuts hino hab
    rw [hrightAll y hy hab]
    simp [hm]

theorem rmapConvertShared_exact (h : SharedRange g c.recs r bno len oinfo.owner oinfo.offset u)
    (hx : x = dataRange bno len oinfo.owner oinfo.offset (!u)) :
    (∀ c', rmapConvertShared g c bno len u oinfo = .ok c' →
      ∃ lt gt, Edited c.recs (convertEdit r x lt gt) c'.recs ∧ Neighbours c.recs lt x gt) ∧
    (PhysDisjoint c.recs → ∃ c' lt gt, rmapConvertShared g c bno len u oinfo = .ok c' ∧
      Edited c.recs (convertEdit r x lt gt) c'.recs ∧ Neighbours c.recs lt x gt ∧
      ∀ y ∈ c.recs, (y.Abuts x → lt = some y) ∧ (x.Abuts y → gt = some y)) := by
  obtain ⟨c1, left, right, lt, gt, hrecs, hplan, hfree, hdisj⟩ := rmapConvertSharedPlan_spec h hx
  have hrun : left.any (fun l => decide (bno < l.startblock + l.blockcount)) = false →
      ∃ c', rmapConvertShared g c bno len u oinfo = .ok c' ∧
        Edited c.recs (convertEdit r x lt gt) c'.recs ∧ Neighbours c.recs lt x gt := by
    intro hleft
    obtain ⟨hn, hlt, hgt⟩ := hfree hleft
    have h' : SharedRange g c1.recs r bno len oinfo.owner oinfo.offset u := hrecs.symm ▸ h
    obtain ⟨c', hrun, hedit⟩ := rmapConvertSharedRecs_spec left right h' hx (hrecs.symm ▸ hn)
      hlt hgt
    refine ⟨c', ?_, hrecs ▸ hedit, hn⟩
    rw [rmapConvertShared, hplan, hleft]
    exact hrun
  refine ⟨fun c' hok => ?_, fun hd => ?_⟩
  · cases hleft : left.any (fun l => decide (bno < l.startblock + l.blockcount)) with
    | true =>
      rw [rmapConvertShared, hplan, hleft] at hok
      cases hok
    | false =>
      obtain ⟨c'', hok', hedit, hn⟩ := hrun hleft
      rw [hok] at hok'
      cases hok'
      exact ⟨lt, gt, hedit, hn⟩
  · obtain ⟨hleft, hall⟩ := hdisj hd
    obtain ⟨c', hok, hedit, hn⟩ := hrun hleft
    exact ⟨c', lt, gt, hok, hedit, hn, hall⟩

theorem SharedRange.neighbours_ne {owner offset : Nat}
    (h : SharedRange g c.recs r bno len owner offset u) {u' : Bool} {lt gt : Option RmapIrec}
    (hn : Neighbours c.recs lt (dataRange bno len owner offset u') gt) (s : RmapIrec)
    (hs : s ∈ lt ∨ s ∈ gt) : s ≠ r := by
  rintro rfl
  have := h.bounds
  have := h.pos
  rcases hs with hs | hs
  · have : s.startblock + s.blockcount = bno := (hn.ltAbuts s hs).block
    omega
  · have : bno + len = s.startblock := (hn.gtAbuts s hs).block
    omega

theorem Neighbours.unique {lt lt' gt gt' : Option RmapIrec} (hn : Neighbours recs lt x gt)
    (hn' : Neighbours recs lt' x gt')
    (hall : ∀ y ∈ recs, (y.Abuts x → lt = some y) ∧ (x.Abuts y → gt = some y))
    (hall' : ∀ y ∈ recs, (y.Abuts x → lt' = some y) ∧ (x.Abuts y → gt' = some y)) :
    lt = lt' ∧ gt = gt' := by
  constructor
  · cases lt with
    | none =>
      cases lt' with
      | none => rfl
      | some l => exact (hall l (hn'.ltMem l rfl)).1 (hn'.ltAbuts l rfl)
    | some l => exact ((hall' l (hn.ltMem l rfl)).1 (hn.ltAbuts l rfl)).symm
  · cases gt with
    | none =>
      cases gt' with
      | none => rfl
      | some r => exact (hall r (hn'.gtMem r rfl)).2 (hn'.gtAbuts r rfl)
    | some r => exact ((hall' r (hn.gtMem r rfl)).2 (hn.gtAbuts r rfl)).symm

end Exact

def FileRangeFree (recs : List RmapIrec) (x : RmapIrec) : Prop :=
  ∀ r ∈ recs, r.isData = true → r.owner = x.owner →
    r.offset + r.blockcount ≤ x.offset ∨ x.offset + x.blockcount ≤ r.offset

theorem FileRangeFree.key_ne {g : RmapGroup} {x : RmapIrec} (h : FileRangeFree recs x)
    (hwf : ShareWF g recs) {bno len owner offset : Nat} {u : Bool} (hpos : 0 < len)
    (hx : x = dataRange bno len owner offset u) (hino : rmapNonInodeOwner owner = false)
    (hoff : offset < 2 ^ 54) :
    ∀ y ∈ recs, rmapKey y ≠ rmapKey x := by
  subst hx
  intro y hy hk
  obtain ⟨-, howner, hoff''⟩ := rmapKeyOf_inj hk
  obtain ⟨hmod, hattr, hbmbt⟩ := rmapOffsetKey_inj hoff''
  have hoff' : y.offset = offset := by
    rwa [Nat.mod_eq_of_lt (hwf.offset_lt hy), dataRange, Nat.mod_eq_of_lt hoff] at hmod
  have hdata : y.isData :=
    isData_iff.mpr ⟨howner ▸ hino, hbmbt, hattr⟩
  have hyPos := (hwf.bounds hy).1
  have hdisj : y.offset + y.blockcount ≤ offset ∨ offset + len ≤ y.offset :=
    h y hy hdata howner
  omega

/-- The records map exactly the given blocks, and nothing has changed for other owners. -/
structure ChangesOwner (recs recs' : List RmapIrec) (owner : Nat) (tuples : Set RmapTuple) :
    Prop where
  ordered : Ordered rmapKey recs'
  tuples : rmapTuples recs' = tuples
  others : ∀ t, t.owner ≠ owner → (t ∈ rmapTuples recs' ↔ t ∈ rmapTuples recs)

/-- Where data fork extents may overlap, mapping adds the blocks of the range,
unmapping removes them and converting flips their written state. Where they do
not overlap, the records are those of the plain operations. -/
theorem rmap_shared_operations_exact (g : RmapGroup) (c : RmapCur) (hwf : ShareWF g c.recs)
    (bno len : Nat) (unwritten : Bool) (oinfo : OwnerInfo) (hpos : 0 < len)
    (hino : rmapNonInodeOwner oinfo.owner = false) (hattr : oinfo.attrFork = false)
    (hbmbt : oinfo.bmbtBlock = false) :
    (oinfo.offset + len ≤ 2 ^ 53 → FileRangeFree c.recs (oinfo.range bno len unwritten) →
      ∃ c', rmapMapShared g c bno len unwritten oinfo = .ok c' ∧
        ChangesOwner c.recs c'.recs oinfo.owner
          (rmapTuples c.recs ∪ {t | (oinfo.range bno len unwritten).Maps t})) ∧
    ((∃ r ∈ c.recs, (oinfo.range bno len unwritten).Within r) →
      ∃ c', rmapUnmapShared g c bno len unwritten oinfo = .ok c' ∧
        ChangesOwner c.recs c'.recs oinfo.owner
          (rmapTuples c.recs \ {t | (oinfo.range bno len unwritten).Maps t})) ∧
    ((∃ r ∈ c.recs, (oinfo.range bno len unwritten).Within r) →
      ∀ c', rmapConvertShared g c bno len unwritten oinfo = .ok c' →
        ChangesOwner c.recs c'.recs oinfo.owner
          ((rmapTuples c.recs \ {t | (oinfo.range bno len unwritten).Maps t}) ∪
            {t | (oinfo.range bno len (!unwritten)).Maps t})) ∧
    (PhysDisjoint c.recs →
      (oinfo.offset + len ≤ 2 ^ 53 → MapAdmissible g c.recs (oinfo.range bno len unwritten) →
        ∃ c' c'', rmapMapShared g c bno len unwritten oinfo = .ok c' ∧
          rmapMap g c bno len unwritten oinfo = .ok c'' ∧ c'.recs = c''.recs) ∧
      ((∃ r ∈ c.recs, (oinfo.range bno len unwritten).Within r) →
        (∃ c' c'', rmapUnmapShared g c bno len unwritten oinfo = .ok c' ∧
          rmapUnmap g c bno len unwritten oinfo = .ok c'' ∧ c'.recs = c''.recs) ∧
        ∃ c' c'', rmapConvertShared g c bno len unwritten oinfo = .ok c' ∧
          rmapConvert g c bno len unwritten oinfo = .ok c'' ∧ c'.recs = c''.recs)) := by
  have hdata : ∀ u, oinfo.range bno len u = dataRange bno len oinfo.owner oinfo.offset u := by
    intro u
    simp [OwnerInfo.range, OwnerInfo.flags, dataRange, dataFlags, hattr, hbmbt]
  have hrange : ∀ r ∈ c.recs, (oinfo.range bno len unwritten).Within r →
      SharedRange g c.recs r bno len oinfo.owner oinfo.offset unwritten :=
    fun r hr hx => ⟨hwf, hr, hino, hpos, hdata unwritten ▸ hx⟩
  have hother : ∀ u t, t.owner ≠ oinfo.owner → ¬ (oinfo.range bno len u).Maps t :=
    fun u t hne hm => hne hm.2.2.1
  refine ⟨fun hoff hfree => ?_, ?_, ?_, fun hd => ⟨fun hoff hadm => ?_, ?_⟩⟩
  · have hnew := hfree.key_ne hwf hpos (hdata unwritten) hino (by omega)
    obtain ⟨c', lt, gt, hok, hedit, hn, -⟩ := rmapMapShared_exact hwf.toRmapWF hino hattr hbmbt
      hpos (by omega) (hdata unwritten) hnew
    have htuples := hedit.tuples_map hn
    refine ⟨c', hok, hedit.ordered, htuples, fun t hne => ?_⟩
    rw [htuples, Set.mem_union]
    exact or_iff_left (hother unwritten t hne)
  · rintro ⟨r, hr, hx⟩
    obtain ⟨c', hok, hedit⟩ := rmapUnmapShared_exact (hrange r hr hx) hattr hbmbt
    have htuples := hedit.tuples_unmap hr (hdata unwritten ▸ hx) (hrange r hr hx).sole
    rw [← hdata] at htuples
    refine ⟨c', hok, hedit.ordered, htuples, fun t hne => ?_⟩
    rw [htuples, Set.mem_sdiff]
    exact ⟨fun ht => ht.1, fun ht => ⟨ht, hother unwritten t hne⟩⟩
  · rintro ⟨r, hr, hx⟩ c' hok
    obtain ⟨lt, gt, hedit, hn⟩ := (rmapConvertShared_exact (hrange r hr hx) rfl).1 c' hok
    have hne := (hrange r hr hx).neighbours_ne hn
    have htuples := hedit.tuples_convert hr (hrange r hr hx).within rfl rfl (hrange r hr hx).sole hn
      hne
    rw [← hdata, ← hdata] at htuples
    refine ⟨hedit.ordered, htuples, fun t hne => ?_⟩
    have h1 := hother unwritten t hne
    have h2 := hother (!unwritten) t hne
    rw [htuples, Set.mem_union, Set.mem_sdiff]
    simp [h1, h2]
  · have hstart : ∀ y ∈ c.recs, rmapKey y ≠ rmapKey (oinfo.range bno len unwritten) := by
      intro y hy hk
      have h1 : y.startblock = bno := (rmapKeyOf_inj hk).1
      have h2 := (hwf.bounds hy).1
      have h3 : y.startblock + y.blockcount ≤ bno ∨ bno + len ≤ y.startblock := hadm.free y hy
      omega
    obtain ⟨c', lt, gt, hok, hedit, hn, hall⟩ := rmapMapShared_exact hwf.toRmapWF hino hattr hbmbt
      hpos (by omega) (hdata unwritten) hstart
    obtain ⟨c'', lt', gt', hok', hedit', -, hn', hall', -⟩ :=
      rmapMap_exact hwf.toRmapWF hd hadm.valid hadm.offset_lt hadm.free
    obtain ⟨rfl, rfl⟩ := hn.unique hn' (hall hd hadm.free) fun y hy =>
      ⟨fun hab => (hall' y hy).1 (mergesLeft_of_abuts hino hab),
        fun hab => (hall' y hy).2 (mergesRight_of_abuts hino hab)⟩
    exact ⟨c', c'', hok, hok', hedit.unique hedit'⟩
  · rintro ⟨r, hr, hx⟩
    constructor
    · obtain ⟨c', hok, hedit⟩ := rmapUnmapShared_exact (hrange r hr hx) hattr hbmbt
      have hunk : oinfo.owner ≠ rmapOwnUnknown := fun he =>
        absurd (he ▸ hino : rmapNonInodeOwner rmapOwnUnknown = false) (by decide)
      have hnull : oinfo.owner ≠ rmapOwnNull := fun he =>
        absurd (he ▸ hino : rmapNonInodeOwner rmapOwnNull = false) (by decide)
      obtain ⟨c'', hok', hedit', -⟩ := rmapUnmap_exact hwf.toRmapWF hd hpos hr hx hunk hnull
      exact ⟨c', c'', hok, hok', hedit.unique hedit'⟩
    · obtain ⟨c', lt, gt, hok, hedit, hn, hall⟩ :=
        (rmapConvertShared_exact (hrange r hr hx) rfl).2 hd
      obtain ⟨c'', -, lt', gt', -, -, hok', hedit', -, hn', hall', -⟩ :=
        rmapConvert_exact hwf.toRmapWF hd hpos hino hr (hdata unwritten ▸ hx) rfl
      obtain ⟨rfl, rfl⟩ := hn.unique hn' hall fun y hy =>
        ⟨fun hab => (hall' y hy).1 (mergesLeft_of_abuts hino hab),
          fun hab => (hall' y hy).2 (mergesRight_of_abuts hino hab)⟩
      exact ⟨c', c'', hok, hok', hedit.unique hedit'⟩

/-- Three files share blocks of the group. -/
def sampleSharedRmaps : List RmapIrec :=
  [⟨0, 4, rmapOwnFs, 0, dataFlags false⟩, ⟨8, 4, 131, 0, dataFlags false⟩,
    ⟨8, 6, 132, 0, dataFlags false⟩, ⟨10, 4, 133, 6, dataFlags true⟩,
    ⟨12, 6, 131, 4, dataFlags true⟩]

theorem sampleSharedRmaps_wf : ShareWF sampleRmapGroup sampleSharedRmaps := by
  refine ⟨⟨?_, by decide, by decide⟩, by decide, by decide, by decide⟩
  unfold Ordered
  decide

theorem sampleRmaps_shareWF : ShareWF sampleRmapGroup sampleRmaps :=
  ⟨sampleRmaps_wf, by decide, by decide, by decide⟩

theorem rmap_shared_operations_exact_sample :
    (∃ c', rmapMapShared sampleRmapGroup ⟨sampleSharedRmaps, 0⟩ 14 2 true ⟨133, 10, false, false⟩ =
        .ok c' ∧
      ChangesOwner sampleSharedRmaps c'.recs 133 (rmapTuples sampleSharedRmaps ∪
        {t | ((⟨133, 10, false, false⟩ : OwnerInfo).range 14 2 true).Maps t})) ∧
    (∃ c', rmapUnmapShared sampleRmapGroup ⟨sampleSharedRmaps, 0⟩ 12 3 true
        ⟨131, 4, false, false⟩ = .ok c' ∧
      ChangesOwner sampleSharedRmaps c'.recs 131 (rmapTuples sampleSharedRmaps \
        {t | ((⟨131, 4, false, false⟩ : OwnerInfo).range 12 3 true).Maps t})) ∧
    (∃ c', rmapConvertShared sampleRmapGroup ⟨sampleSharedRmaps, 0⟩ 12 3 true
        ⟨131, 4, false, false⟩ = .ok c' ∧
      ChangesOwner sampleSharedRmaps c'.recs 131 ((rmapTuples sampleSharedRmaps \
        {t | ((⟨131, 4, false, false⟩ : OwnerInfo).range 12 3 true).Maps t}) ∪
        {t | ((⟨131, 4, false, false⟩ : OwnerInfo).range 12 3 false).Maps t})) ∧
    (∃ c' c'', rmapConvertShared sampleRmapGroup ⟨sampleRmaps, 0⟩ 12 3 true
        ⟨131, 4, false, false⟩ = .ok c' ∧
      rmapConvert sampleRmapGroup ⟨sampleRmaps, 0⟩ 12 3 true ⟨131, 4, false, false⟩ = .ok c'' ∧
      c'.recs = c''.recs) := by
  have hmem : (⟨12, 6, 131, 4, dataFlags true⟩ : RmapIrec) ∈ sampleSharedRmaps := by decide
  have hmem' : (⟨12, 6, 131, 4, dataFlags true⟩ : RmapIrec) ∈ sampleRmaps := by decide
  have hwithin : ((⟨131, 4, false, false⟩ : OwnerInfo).range 12 3 true).Within
      ⟨12, 6, 131, 4, dataFlags true⟩ := ⟨by decide, by decide, by decide, by decide, by decide⟩
  have hshared := rmap_shared_operations_exact sampleRmapGroup ⟨sampleSharedRmaps, 0⟩
    sampleSharedRmaps_wf 12 3 true ⟨131, 4, false, false⟩ (by decide) (by decide) rfl rfl
  refine ⟨?_, hshared.2.1 ⟨_, hmem, hwithin⟩, ?_, ?_⟩
  · exact (rmap_shared_operations_exact sampleRmapGroup ⟨sampleSharedRmaps, 0⟩
      sampleSharedRmaps_wf 14 2 true ⟨133, 10, false, false⟩ (by decide) (by decide) rfl rfl).1
      (by decide) (by unfold FileRangeFree; decide)
  · exact ⟨_, rfl, hshared.2.2.1 ⟨_, hmem, hwithin⟩ _ rfl⟩
  · exact ((rmap_shared_operations_exact sampleRmapGroup ⟨sampleRmaps, 0⟩ sampleRmaps_shareWF 12 3
      true ⟨131, 4, false, false⟩ (by decide) (by decide) rfl rfl).2.2.2 sampleRmaps_disjoint).2
      ⟨_, hmem', hwithin⟩ |>.2

end Xfs
