import Xfs.Rmap.ConvertSpec

/-! On record sets without overlaps the operations change exactly the mapped
blocks they are asked to change. -/
namespace Xfs

open List RecordCursor

section Replace

variable {g : RmapGroup} {recs pre del add post : List RmapIrec} {x prev : RmapIrec}
  {lt gt : Option RmapIrec}

theorem replace_spec (hwf : RmapWF g recs) (hd : PhysDisjoint recs)
    (hc : recs = pre ++ del ++ post) (hadd : Apart add) (hpos : ∀ a ∈ add, 0 < a.blockcount)
    (hpre : ∀ p ∈ pre, ∀ a ∈ add, p.startblock + p.blockcount ≤ a.startblock)
    (hpost : ∀ a ∈ add, ∀ q ∈ post, a.startblock + a.blockcount ≤ q.startblock) :
    Edited recs ⟨del, add⟩ (pre ++ add ++ post) ∧ PhysDisjoint (pre ++ add ++ post) := by
  have hapart : Apart (pre ++ add ++ post) :=
    Apart.replace (hc ▸ hwf.apart hd) hadd hpre hpost
  have hposAll : ∀ r ∈ pre ++ add ++ post, 0 < r.blockcount := by
    intro r hr
    have hmem : r ∈ pre ∨ r ∈ post → r ∈ recs := by
      rw [hc]
      simp only [mem_append]
      tauto
    simp only [mem_append] at hr
    rcases hr with (hr | hr) | hr
    · exact (hwf.bounds (hmem (.inl hr))).1
    · exact hpos r hr
    · exact (hwf.bounds (hmem (.inr hr))).1
  refine ⟨⟨hapart.ordered hposAll, fun r => ?_⟩, hapart.physDisjoint⟩
  have hord : Ordered rmapKey (pre ++ del ++ post) := hc ▸ hwf.ordered
  rw [hc]
  exact hord.mem_replace r

theorem Apart.beside (h : Apart (pre ++ del ++ post)) :
    (∀ p ∈ pre, ∀ d ∈ del, p.startblock + p.blockcount ≤ d.startblock) ∧
      ∀ d ∈ del, ∀ q ∈ post, d.startblock + d.blockcount ≤ q.startblock := by
  obtain ⟨hleft, -, hcross⟩ := pairwise_append.mp h
  obtain ⟨-, -, hpre⟩ := pairwise_append.mp hleft
  exact ⟨hpre, fun d hd q hq => hcross d (mem_append_right _ hd) q hq⟩

theorem Neighbours.join_bounds (h : Neighbours recs lt x gt) :
    (joinNeighbours lt x gt).startblock = (lt.map RmapIrec.startblock).getD x.startblock ∧
      (joinNeighbours lt x gt).startblock + (joinNeighbours lt x gt).blockcount =
        (gt.map (fun r => r.startblock + r.blockcount)).getD (x.startblock + x.blockcount) := by
  have hl := h.ltAbuts
  have hr := h.gtAbuts
  cases lt with
  | none =>
    cases gt with
    | none => exact ⟨rfl, rfl⟩
    | some r =>
      have := (hr r rfl).block
      refine ⟨rfl, ?_⟩
      change x.startblock + (x.blockcount + r.blockcount) = r.startblock + r.blockcount
      omega
  | some l =>
    have := (hl l rfl).block
    refine ⟨by cases gt <;> rfl, ?_⟩
    cases gt with
    | none =>
      change l.startblock + (l.blockcount + x.blockcount) = x.startblock + x.blockcount
      omega
    | some r =>
      have := (hr r rfl).block
      change l.startblock + (l.blockcount + x.blockcount + r.blockcount) =
        r.startblock + r.blockcount
      omega

end Replace

section Exact

variable {g : RmapGroup} {c : RmapCur} {bno len : Nat} {unwritten : Bool} {oinfo : OwnerInfo}

theorem PhysDisjoint.sole {recs : List RmapIrec} (hd : PhysDisjoint recs) {r x : RmapIrec}
    (hr : r ∈ recs) (hx : x.Within r) : Sole recs r x := by
  intro s hs hne t hxm hsm
  have h1 := (hx.maps_iff.mp hxm).1
  have h2 := h1.1
  have h3 := h1.2.1
  have h4 := hsm.1
  have h5 := hsm.2.1
  rcases hd s hs r hr hne with h | h <;> omega

section

variable (hwf : RmapWF g c.recs) (hd : PhysDisjoint c.recs)
include hwf hd

theorem rmapMap_exact (hnew : rmapCheckBtrec g (oinfo.range bno len unwritten))
    (hoff : oinfo.offset < 2 ^ 54)
    (hfree : ∀ y ∈ c.recs, y.startblock + y.blockcount ≤ bno ∨ bno + len ≤ y.startblock) :
    ∃ c' lt gt, rmapMap g c bno len unwritten oinfo = .ok c' ∧
      Edited c.recs (mapEdit (oinfo.range bno len unwritten) lt gt) c'.recs ∧
      PhysDisjoint c'.recs ∧ Neighbours c.recs lt (oinfo.range bno len unwritten) gt ∧
      (∀ y ∈ c.recs, (mergesLeft (oinfo.range bno len unwritten) y → lt = some y) ∧
        (mergesRight (oinfo.range bno len unwritten) y → gt = some y)) ∧
      rmapTuples c'.recs = rmapTuples c.recs ∪ {t | (oinfo.range bno len unwritten).Maps t} := by
  obtain ⟨c', pre, post, lt, gt, hrun, hc, hc', hpre, hpost, hn, hall⟩ :=
    rmapMap_spec hwf hd rfl hnew hoff hfree
  have hlen := (rmapCheckBtrec_bounds hnew).1
  have hapart : Apart (pre ++ (mapEdit (oinfo.range bno len unwritten) lt gt).del ++ post) :=
    hc ▸ hwf.apart hd
  obtain ⟨hbeforeDel, hdelAfter⟩ := hapart.beside
  obtain ⟨hs, he⟩ := hn.join_bounds
  have hreplace : Edited c.recs (mapEdit (oinfo.range bno len unwritten) lt gt) c'.recs ∧
      PhysDisjoint c'.recs := by
    rw [hc']
    refine replace_spec hwf hd hc (pairwise_singleton _ _) ?_ ?_ ?_
    all_goals simp only [mem_singleton, forall_eq]
    · cases lt <;> cases gt <;> simp only [joinNeighbours, RmapIrec.join] <;> omega
    · intro p hp
      rw [hs]
      cases lt with
      | none => exact hpre p hp
      | some l => exact hbeforeDel p hp l (by simp [mapEdit])
    · intro q hq
      rw [he]
      cases gt with
      | none => exact hpost q hq
      | some r => exact hdelAfter r (by simp [mapEdit]) q hq
  exact ⟨c', lt, gt, hrun, hreplace.1, hreplace.2, hn, hall, hreplace.1.tuples_map hn⟩

theorem rmapUnmap_exact (hpos : 0 < len) {r : RmapIrec} (hr : r ∈ c.recs)
    (hx : (oinfo.range bno len unwritten).Within r) (hunk : oinfo.owner ≠ rmapOwnUnknown)
    (hnull : oinfo.owner ≠ rmapOwnNull) :
    ∃ c', rmapUnmap g c bno len unwritten oinfo = .ok c' ∧
      Edited c.recs (unmapEdit r (oinfo.range bno len unwritten)) c'.recs ∧
      PhysDisjoint c'.recs ∧
      rmapTuples c'.recs = rmapTuples c.recs \ {t | (oinfo.range bno len unwritten).Maps t} := by
  obtain ⟨c', pre, post, hrun, hc, hc'⟩ := rmapUnmap_spec hwf hd hpos hr hx hunk hnull
  have hapart : Apart (pre ++ [r] ++ post) := hc ▸ hwf.apart hd
  obtain ⟨hbeforeDel, hdelAfter⟩ := hapart.beside
  have h1 : r.startblock ≤ bno := hx.start
  have h2 : bno + len ≤ r.startblock + r.blockcount := hx.fin
  have hadd : (unmapEdit r (oinfo.range bno len unwritten)).add =
      (if r.startblock = bno then [] else [r.before bno]) ++
        (if r.startblock + r.blockcount = bno + len then [] else [r.after (bno + len)]) := by
    simp [unmapEdit, OwnerInfo.range, r.parts_before h1, r.parts_after h2]
  -- both remaining parts lie inside the record
  have hin : ∀ a ∈ (unmapEdit r (oinfo.range bno len unwritten)).add,
      0 < a.blockcount ∧ r.startblock ≤ a.startblock ∧
        a.startblock + a.blockcount ≤ r.startblock + r.blockcount := by
    intro a ha
    rw [hadd] at ha
    split_ifs at ha <;> simp only [mem_append, mem_singleton, not_mem_nil, or_false, false_or] at ha
    · subst ha
      simp only [RmapIrec.after]
      omega
    · subst ha
      simp only [RmapIrec.before]
      omega
    · rcases ha with rfl | rfl
      · simp only [RmapIrec.before]
        omega
      · simp only [RmapIrec.after]
        omega
  have hreplace : Edited c.recs (unmapEdit r (oinfo.range bno len unwritten)) c'.recs ∧
      PhysDisjoint c'.recs := by
    rw [hc']
    refine replace_spec hwf hd hc ?_ (fun a ha => (hin a ha).1)
      (fun p hp a ha => (hbeforeDel p hp r (by simp)).trans (hin a ha).2.1)
      (fun a ha q hq => (hin a ha).2.2.trans (hdelAfter r (by simp) q hq))
    change Apart (unmapEdit r (oinfo.range bno len unwritten)).add
    rw [hadd, Apart]
    split_ifs <;> simp [RmapIrec.before, RmapIrec.after]
    omega
  exact ⟨c', hrun, hreplace.1, hreplace.2, hreplace.1.tuples_unmap hr hx (hd.sole hr hx)⟩

theorem rmapConvert_exact (hpos : 0 < len) (hino : rmapNonInodeOwner oinfo.owner = false)
    {prev : RmapIrec} (hr : prev ∈ c.recs)
    (hold : (dataRange bno len oinfo.owner oinfo.offset unwritten).Within prev) {x : RmapIrec}
    (hx : x = dataRange bno len oinfo.owner oinfo.offset (!unwritten)) :
    ∃ c' plan lt gt, rmapConvertPlan g c bno len oinfo.owner oinfo.offset unwritten = .ok plan ∧
      plan.state.impossible = false ∧ rmapConvert g c bno len unwritten oinfo = .ok c' ∧
      Edited c.recs (convertEdit prev x lt gt) c'.recs ∧ PhysDisjoint c'.recs ∧
      Neighbours c.recs lt x gt ∧
      (∀ y ∈ c.recs, (mergesLeft x y → lt = some y) ∧ (mergesRight x y → gt = some y)) ∧
      rmapTuples c'.recs = (rmapTuples c.recs \
        {t | (dataRange bno len oinfo.owner oinfo.offset unwritten).Maps t}) ∪ {t | x.Maps t} := by
  obtain ⟨c', plan, pre, post, lt, gt, hplan, hposs, hrun, hc, hc', hn, hall⟩ :=
    rmapConvert_spec hwf hd hino hpos hr hold hx
  have hstart : x.startblock = bno := by rw [hx]; rfl
  have hcount : x.blockcount = len := by rw [hx]; rfl
  have h1 : prev.startblock ≤ bno := hold.start
  have h2 : bno + len ≤ prev.startblock + prev.blockcount := hold.fin
  have hapart : Apart (pre ++ (convertEdit prev x lt gt).del ++ post) := hc ▸ hwf.apart hd
  obtain ⟨hbeforeDel, hdelAfter⟩ := hapart.beside
  obtain ⟨hs, he⟩ := hn.join_bounds
  have hadd : (convertEdit prev x lt gt).add = _ := convertEdit_add lt gt (by omega) (by omega)
  rw [hstart, hcount] at hadd he
  rw [hstart] at hs
  -- a neighbour leaves nothing of the extent on its side
  have hdelApart : Apart (convertEdit prev x lt gt).del :=
    (pairwise_append.mp (pairwise_append.mp hapart).1).2.1
  have hleft : prev.startblock ≠ bno → (joinNeighbours lt x gt).startblock = bno := by
    intro hne
    cases lt with
    | none => exact hs
    | some l =>
      have hb := (hn.ltAbuts l rfl).block
      have hA : Apart ([l] ++ prev :: gt.toList) := by simpa [convertEdit] using hdelApart
      have := hA.of_append_cons.1 l (by simp)
      omega
  have hright : prev.startblock + prev.blockcount ≠ bno + len →
      (joinNeighbours lt x gt).startblock + (joinNeighbours lt x gt).blockcount = bno + len := by
    intro hne
    cases gt with
    | none => exact he
    | some r =>
      have hb := (hn.gtAbuts r rfl).block
      have hA : Apart (lt.toList ++ prev :: [r]) := by simpa [convertEdit] using hdelApart
      have := hA.of_append_cons.2 r (by simp)
      omega
  have hjoinPos : 0 < (joinNeighbours lt x gt).blockcount := by
    cases lt <;> cases gt <;> simp only [joinNeighbours, RmapIrec.join] <;> omega
  have hpreJoin : ∀ p ∈ pre, p.startblock + p.blockcount ≤ prev.startblock ∧
      p.startblock + p.blockcount ≤ (joinNeighbours lt x gt).startblock := by
    intro p hp
    have hp1 := hbeforeDel p hp prev (by simp [convertEdit])
    refine ⟨hp1, ?_⟩
    rw [hs]
    cases lt with
    | none => exact hp1.trans h1
    | some l => exact hbeforeDel p hp l (by simp [convertEdit])
  have hjoinPost : ∀ q ∈ post, prev.startblock + prev.blockcount ≤ q.startblock ∧
      (joinNeighbours lt x gt).startblock + (joinNeighbours lt x gt).blockcount ≤ q.startblock := by
    intro q hq
    have hq1 := hdelAfter prev (by simp [convertEdit]) q hq
    refine ⟨hq1, ?_⟩
    rw [he]
    cases gt with
    | none => exact h2.trans hq1
    | some r => exact hdelAfter r (by simp [convertEdit]) q hq
  have hcases : ∀ a ∈ (convertEdit prev x lt gt).add, a = joinNeighbours lt x gt ∨
      (prev.startblock ≠ bno ∧ a = prev.before bno) ∨
      (prev.startblock + prev.blockcount ≠ bno + len ∧ a = prev.after (bno + len)) := by
    intro a ha
    rw [hadd] at ha
    split_ifs at ha <;> simp only [mem_append, mem_singleton, not_mem_nil, or_false,
      false_or] at ha <;> tauto
  have hreplace : Edited c.recs (convertEdit prev x lt gt) c'.recs ∧ PhysDisjoint c'.recs := by
    rw [hc']
    refine replace_spec hwf hd hc ?_ (fun a ha => ?_) (fun p hp a ha => ?_) (fun a ha q hq => ?_)
    · change Apart (convertEdit prev x lt gt).add
      rw [hadd, Apart]
      by_cases hb : prev.startblock = bno
      · rw [if_pos hb]
        by_cases hE : prev.startblock + prev.blockcount = bno + len
        · rw [if_pos hE]
          simp
        · rw [if_neg hE]
          simp [RmapIrec.after]
          omega
      · rw [if_neg hb]
        by_cases hE : prev.startblock + prev.blockcount = bno + len
        · rw [if_pos hE]
          simp [RmapIrec.before]
          omega
        · rw [if_neg hE]
          simp [RmapIrec.before, RmapIrec.after]
          omega
    · rcases hcases a ha with rfl | ⟨hne, rfl⟩ | ⟨hne, rfl⟩
      · exact hjoinPos
      · simp only [RmapIrec.before]
        omega
      · simp only [RmapIrec.after]
        omega
    · have hp' := hpreJoin p hp
      rcases hcases a ha with rfl | ⟨hne, rfl⟩ | ⟨hne, rfl⟩
      · exact hp'.2
      · exact hp'.1
      · simp only [RmapIrec.after]
        omega
    · have hq' := hjoinPost q hq
      rcases hcases a ha with rfl | ⟨hne, rfl⟩ | ⟨hne, rfl⟩
      · exact hq'.2
      · simp only [RmapIrec.before]
        omega
      · simp only [RmapIrec.after]
        omega
  refine ⟨c', plan, lt, gt, hplan, hposs, hrun, hreplace.1, hreplace.2, hn, hall,
    hreplace.1.tuples_convert hr hold hstart hcount (hd.sole hr hold) hn ?_⟩
  rintro s (hs' | hs') rfl
  · have := (hn.ltAbuts _ hs').block
    omega
  · have := (hn.gtAbuts _ hs').block
    omega

end

end Exact

/-- The mapping `x` can be added: it is a valid record and nobody maps its blocks. -/
structure MapAdmissible (g : RmapGroup) (recs : List RmapIrec) (x : RmapIrec) : Prop where
  valid : rmapCheckBtrec g x = true
  fileoff : x.ignoreOff = false → x.offset + x.blockcount ≤ 2 ^ 54
  free : ∀ y ∈ recs, y.startblock + y.blockcount ≤ x.startblock ∨
    x.startblock + x.blockcount ≤ y.startblock

theorem MapAdmissible.offset_lt {g : RmapGroup} {recs : List RmapIrec} {x : RmapIrec}
    (h : MapAdmissible g recs x) : x.offset < 2 ^ 54 := by
  obtain ⟨hpos, -, hign⟩ := rmapCheckBtrec_bounds h.valid
  cases hi : x.ignoreOff with
  | true => rw [hign hi]; decide
  | false =>
    have := h.fileoff hi
    omega

structure MapsExactly (recs : List RmapIrec) (tuples : Set RmapTuple) : Prop where
  ordered : Ordered rmapKey recs
  disjoint : PhysDisjoint recs
  tuples : rmapTuples recs = tuples

/-- On record sets without overlaps mapping adds the blocks of the range,
unmapping removes them and converting flips their written state. -/
theorem rmap_operations_exact (g : RmapGroup) (c : RmapCur) (hwf : RmapWF g c.recs)
    (hd : PhysDisjoint c.recs) (bno len : Nat) (unwritten : Bool) (oinfo : OwnerInfo) :
    (MapAdmissible g c.recs (oinfo.range bno len unwritten) →
      ∃ c', rmapMap g c bno len unwritten oinfo = .ok c' ∧ MapsExactly c'.recs
          (rmapTuples c.recs ∪ {t | (oinfo.range bno len unwritten).Maps t})) ∧
    (0 < len → oinfo.owner ≠ rmapOwnUnknown → oinfo.owner ≠ rmapOwnNull →
      (∃ r ∈ c.recs, (oinfo.range bno len unwritten).Within r) →
      ∃ c', rmapUnmap g c bno len unwritten oinfo = .ok c' ∧ MapsExactly c'.recs
          (rmapTuples c.recs \ {t | (oinfo.range bno len unwritten).Maps t})) ∧
    (0 < len → rmapNonInodeOwner oinfo.owner = false → oinfo.attrFork = false →
      oinfo.bmbtBlock = false → (∃ r ∈ c.recs, (oinfo.range bno len unwritten).Within r) →
      ∃ c' plan, rmapConvert g c bno len unwritten oinfo = .ok c' ∧
        rmapConvertPlan g c bno len oinfo.owner oinfo.offset unwritten = .ok plan ∧
        plan.state.impossible = false ∧
        MapsExactly c'.recs ((rmapTuples c.recs \ {t | (oinfo.range bno len unwritten).Maps t}) ∪
            {t | (oinfo.range bno len (!unwritten)).Maps t})) := by
  refine ⟨fun hadm => ?_, fun hpos hunk hnull ⟨r, hr, hx⟩ => ?_,
    fun hpos hino hattr hbmbt ⟨r, hr, hx⟩ => ?_⟩
  · obtain ⟨c', lt, gt, hrun, hedit, hdisj, -, -, htuples⟩ :=
      rmapMap_exact hwf hd hadm.valid hadm.offset_lt hadm.free
    exact ⟨c', hrun, hedit.ordered, hdisj, htuples⟩
  · obtain ⟨c', hrun, hedit, hdisj, htuples⟩ := rmapUnmap_exact hwf hd hpos hr hx hunk hnull
    exact ⟨c', hrun, hedit.ordered, hdisj, htuples⟩
  · have hdata : ∀ u, oinfo.range bno len u = dataRange bno len oinfo.owner oinfo.offset u := by
      intro u
      simp [OwnerInfo.range, OwnerInfo.flags, dataRange, dataFlags, hattr, hbmbt]
    rw [hdata] at hx
    obtain ⟨c', plan, lt, gt, hplan, hposs, hrun, hedit, hdisj, -, -, htuples⟩ :=
      rmapConvert_exact hwf hd hpos hino hr hx rfl
    rw [hdata, hdata]
    exact ⟨c', plan, hrun, hplan, hposs, hedit.ordered, hdisj, htuples⟩

def sampleRmapGroup : RmapGroup :=
  { sampleGroup with
    agflBlock := 3
    verifyIno := fun ino => decide (128 ≤ ino ∧ ino < 256)
    realtime := false
    rextsize := 1
    hasRtreflink := false
    agflBlock_le := by decide
    rextsize_lt := by decide }

def sampleRmaps : List RmapIrec :=
  [⟨0, 4, rmapOwnFs, 0, dataFlags false⟩, ⟨8, 4, 131, 0, dataFlags false⟩,
    ⟨12, 6, 131, 4, dataFlags true⟩, ⟨20, 2, 132, 0, dataFlags false⟩]

theorem sampleRmaps_wf : RmapWF sampleRmapGroup sampleRmaps := by
  refine ⟨?_, by decide, by decide⟩
  unfold Ordered
  decide

theorem sampleRmaps_disjoint : PhysDisjoint sampleRmaps := by
  unfold PhysDisjoint
  decide

theorem rmap_operations_exact_sample :
    (∃ c', rmapMap sampleRmapGroup ⟨sampleRmaps, 0⟩ 18 2 true ⟨131, 10, false, false⟩ = .ok c' ∧
      MapsExactly c'.recs (rmapTuples sampleRmaps ∪
        {t | ((⟨131, 10, false, false⟩ : OwnerInfo).range 18 2 true).Maps t})) ∧
    (∃ c', rmapUnmap sampleRmapGroup ⟨sampleRmaps, 0⟩ 14 2 true ⟨131, 6, false, false⟩ = .ok c' ∧
      MapsExactly c'.recs (rmapTuples sampleRmaps \
        {t | ((⟨131, 6, false, false⟩ : OwnerInfo).range 14 2 true).Maps t})) ∧
    (∃ c' plan, rmapConvert sampleRmapGroup ⟨sampleRmaps, 0⟩ 12 3 true ⟨131, 4, false, false⟩ =
        .ok c' ∧
      rmapConvertPlan sampleRmapGroup ⟨sampleRmaps, 0⟩ 12 3 131 4 true = .ok plan ∧
      plan.state.impossible = false ∧
      MapsExactly c'.recs ((rmapTuples sampleRmaps \
        {t | ((⟨131, 4, false, false⟩ : OwnerInfo).range 12 3 true).Maps t}) ∪
        {t | ((⟨131, 4, false, false⟩ : OwnerInfo).range 12 3 false).Maps t})) := by
  have hmem : (⟨12, 6, 131, 4, dataFlags true⟩ : RmapIrec) ∈ sampleRmaps := by decide
  refine ⟨?_, ?_, ?_⟩
  · exact (rmap_operations_exact sampleRmapGroup ⟨sampleRmaps, 0⟩ sampleRmaps_wf
      sampleRmaps_disjoint 18 2 true ⟨131, 10, false, false⟩).1 ⟨by decide, by decide, by decide⟩
  · exact (rmap_operations_exact sampleRmapGroup ⟨sampleRmaps, 0⟩ sampleRmaps_wf
      sampleRmaps_disjoint 14 2 true ⟨131, 6, false, false⟩).2.1 (by decide) (by decide) (by decide)
      ⟨_, hmem, by decide, by decide, by decide, by decide, by decide⟩
  · exact (rmap_operations_exact sampleRmapGroup ⟨sampleRmaps, 0⟩ sampleRmaps_wf
      sampleRmaps_disjoint 12 3 true ⟨131, 4, false, false⟩).2.2 (by decide) (by decide) rfl rfl
      ⟨_, hmem, by decide, by decide, by decide, by decide, by decide⟩

end Xfs
