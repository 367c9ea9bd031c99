import Xfs.Repair.Rcbag

/-! What the operations of the refcount bag do to the list of reverse mappings
that it stands for. -/
namespace Xfs

open RecordCursor

variable {bag : Rcbag} {rs : List RmapIrec} {r : RmapIrec} {x : RcbagRec} {n fuel : Nat}
  {recs : List RcbagRec}

structure Rcbag.Holds (bag : Rcbag) (rs : List RmapIrec) : Prop where
  ordered : Ordered rcbagKey bag.recs
  nrItems : bag.nrItems = rs.length
  count : ∀ x ∈ bag.recs, x.refcount = rs.countP (fun r => decide (r.bagKey = rcbagKey x))
  used : ∀ x ∈ bag.recs, ∃ r ∈ rs, r.bagKey = rcbagKey x
  tracked : ∀ r ∈ rs, ∃ x ∈ bag.recs, rcbagKey x = r.bagKey

def RmapIrec.nextBno (r : RmapIrec) : Nat := add32 r.startblock r.blockcount

theorem bagKey_eq_iff : r.bagKey = rcbagKey x ↔
    r.startblock = x.startblock ∧ r.blockcount = x.blockcount ∧ r.owner = x.ino := by
  simp [RmapIrec.bagKey, rcbagKey]

theorem nextBno_of_bagKey (h : r.bagKey = rcbagKey x) : r.nextBno = rcbagRecNextBno x := by
  obtain ⟨h1, h2, -⟩ := bagKey_eq_iff.mp h
  rw [RmapIrec.nextBno, rcbagRecNextBno, h1, h2]

theorem Rcbag.holds_nil : Rcbag.Holds ⟨[], 0⟩ [] :=
  ⟨List.Pairwise.nil, rfl, by simp, by simp, by simp⟩

theorem Rcbag.Holds.perm {rs' : List RmapIrec} (h : bag.Holds rs) (hp : rs.Perm rs') :
    bag.Holds rs' where
  ordered := h.ordered
  nrItems := h.nrItems.trans hp.length_eq
  count x hx := (h.count x hx).trans (hp.countP_eq _)
  used x hx := by
    obtain ⟨r, hr, hk⟩ := h.used x hx
    exact ⟨r, hp.mem_iff.mp hr, hk⟩
  tracked r hr := h.tracked r (hp.mem_iff.mpr hr)

theorem Rcbag.Holds.add_new (h : bag.Holds rs) (hnew : ∀ x ∈ bag.recs, rcbagKey x ≠ r.bagKey)
    (ho : Ordered rcbagKey recs)
    (hm : ∀ x, x ∈ recs ↔ x = ⟨r.startblock, r.blockcount, r.owner, 1⟩ ∨ x ∈ bag.recs) :
    Rcbag.Holds ⟨recs, bag.nrItems + 1⟩ (r :: rs) := by
  have hnone : rs.countP (fun s => decide (s.bagKey = r.bagKey)) = 0 := by
    refine List.countP_eq_zero.mpr fun s hs hk => ?_
    obtain ⟨x, hx, hxs⟩ := h.tracked s hs
    exact hnew x hx (hxs.trans (of_decide_eq_true hk))
  refine ⟨ho, by simp [h.nrItems], ?_, ?_, ?_⟩
  · intro x hx
    rcases (hm x).mp hx with rfl | hx
    · have hkey : rcbagKey ⟨r.startblock, r.blockcount, r.owner, 1⟩ = r.bagKey := rfl
      simp [hkey, hnone]
    · rw [List.countP_cons, h.count x hx, if_neg (by simpa using (hnew x hx).symm), add_zero]
  · intro x hx
    rcases (hm x).mp hx with rfl | hx
    · exact ⟨r, List.mem_cons_self, rfl⟩
    · obtain ⟨s, hs, hk⟩ := h.used x hx
      exact ⟨s, List.mem_cons_of_mem _ hs, hk⟩
  · intro s hs
    rcases List.mem_cons.mp hs with rfl | hs
    · exact ⟨_, (hm _).mpr (.inl rfl), rfl⟩
    · obtain ⟨x, hx, hk⟩ := h.tracked s hs
      exact ⟨x, (hm x).mpr (.inr hx), hk⟩

theorem Rcbag.Holds.add_again (h : bag.Holds rs) (hx : x ∈ bag.recs) (hk : rcbagKey x = r.bagKey)
    (ho : Ordered rcbagKey recs)
    (hm : ∀ y, y ∈ recs ↔ y = { x with refcount := x.refcount + 1 } ∨ y ∈ bag.recs ∧ y ≠ x) :
    Rcbag.Holds ⟨recs, bag.nrItems + 1⟩ (r :: rs) := by
  have hkey : rcbagKey { x with refcount := x.refcount + 1 } = r.bagKey := hk
  have hother : ∀ y ∈ bag.recs, y ≠ x → rcbagKey y ≠ r.bagKey := fun y hy hne hyk =>
    hne (h.ordered.key_inj hy hx (hyk.trans hk.symm))
  refine ⟨ho, by simp [h.nrItems], ?_, ?_, ?_⟩
  · intro y hy
    rcases (hm y).mp hy with rfl | ⟨hy, hne⟩
    · have hcx := h.count x hx
      rw [hk] at hcx
      rw [hkey, List.countP_cons, if_pos (by simp), ← hcx]
    · rw [List.countP_cons, h.count y hy, if_neg (by simpa using (hother y hy hne).symm), add_zero]
  · intro y hy
    rcases (hm y).mp hy with rfl | ⟨hy, -⟩
    · exact ⟨r, List.mem_cons_self, hkey.symm⟩
    · obtain ⟨s, hs, hks⟩ := h.used y hy
      exact ⟨s, List.mem_cons_of_mem _ hs, hks⟩
  · intro s hs
    by_cases hsr : s.bagKey = r.bagKey
    · exact ⟨_, (hm _).mpr (.inl rfl), hkey.trans hsr.symm⟩
    · have hs : s ∈ rs := (List.mem_cons.mp hs).resolve_left (fun he => hsr (he ▸ rfl))
      obtain ⟨y, hy, hyk⟩ := h.tracked s hs
      have hne : y ≠ x := fun he => hsr (hyk.symm.trans (he ▸ hk))
      exact ⟨y, (hm y).mpr (.inr ⟨hy, hne⟩), hyk⟩

theorem rcbagAdd_spec (h : bag.Holds rs) (r : RmapIrec) :
    ∃ bag', rcbagAdd bag r = .ok bag' ∧ bag'.Holds (r :: rs) := by
  set cur := ((gotoLeftEdge bag.recs).lookupEQ rcbagKey r.bagKey).1 with hcur
  have hrecs : cur.recs = bag.recs := rfl
  have hseek : Seek rcbagKey cur r.bagKey := Cursor.seek_lookupEQ _ _
  have hsnd : ((gotoLeftEdge bag.recs).lookupEQ rcbagKey r.bagKey).2 ↔
      ∃ x ∈ bag.recs, rcbagKey x = r.bagKey := Cursor.lookupEQ_snd_iff
  by_cases hhas : ∃ x ∈ bag.recs, rcbagKey x = r.bagKey
  · have htrue := hsnd.mpr hhas
    obtain ⟨x, hx, hk⟩ := hhas
    have hrec : cur.rec? = some x :=
      Cursor.rec?_of_seek (hrecs ▸ h.ordered) (hrecs ▸ hx) (hk ▸ hseek)
    obtain ⟨ho, -, hm⟩ := Cursor.update_spec (x := { x with refcount := x.refcount + 1 })
      (hrecs ▸ h.ordered) hrec (fun _ _ hlt => hlt) (fun _ _ hlt => hlt)
    refine ⟨⟨(cur.update { x with refcount := x.refcount + 1 }).recs, bag.nrItems + 1⟩, ?_,
      h.add_again hx hk ho hm⟩
    simp [rcbagAdd, htrue, ← hcur, hrec]
  · have hfalse : ((gotoLeftEdge bag.recs).lookupEQ rcbagKey r.bagKey).2 = false := by
      rw [Bool.eq_false_iff]
      exact fun ht => hhas (hsnd.mp ht)
    have hnew : ∀ x ∈ bag.recs, rcbagKey x ≠ r.bagKey := fun x hx hk => hhas ⟨x, hx, hk⟩
    obtain ⟨cur', hins, ho, -, hm⟩ := Cursor.insert_spec
      (x := ⟨r.startblock, r.blockcount, r.owner, 1⟩) (hrecs ▸ h.ordered) hseek hnew
    refine ⟨⟨cur'.recs, bag.nrItems + 1⟩, ?_, h.add_new hnew ho hm⟩
    simp [rcbagAdd, hfalse, Bool.false_eq_true, ← hcur, hins]

theorem rcbagNextEdgeLoop_eq (pre post : List RcbagRec) (next : Nat) (hf : post.length < fuel) :
    rcbagNextEdgeLoop fuel ⟨pre ++ post, pre.length⟩ next =
      .ok (post.foldl (fun m x => min m (rcbagRecNextBno x)) next) := by
  induction post generalizing pre next fuel with
  | nil =>
    obtain ⟨fuel, rfl⟩ := Nat.exists_eq_add_of_lt hf
    simp [rcbagNextEdgeLoop, Cursor.increment]
  | cons x post ih =>
    obtain ⟨fuel, rfl⟩ : ∃ k, fuel = k + 1 := ⟨fuel - 1, by omega⟩
    have hrec : (Cursor.mk (pre ++ x :: post) (pre.length + 1)).rec? = some x := by
      simp [Cursor.rec?]
    have hnext := ih (pre ++ [x]) (min next (rcbagRecNextBno x)) (by simpa using hf)
    simp only [List.append_assoc, List.singleton_append, List.length_append,
      List.length_singleton] at hnext
    simp [rcbagNextEdgeLoop, Cursor.increment, hrec, hnext]

theorem foldl_min_le (f : RcbagRec → Nat) (xs : List RcbagRec) (m : Nat) :
    xs.foldl (fun m x => min m (f x)) m ≤ m ∧
      (∀ x ∈ xs, xs.foldl (fun m x => min m (f x)) m ≤ f x) ∧
      (xs.foldl (fun m x => min m (f x)) m = m ∨
        ∃ x ∈ xs, xs.foldl (fun m x => min m (f x)) m = f x) := by
  induction xs generalizing m with
  | nil => simp
  | cons y ys ih =>
    obtain ⟨hle, hall, hatt⟩ := ih (min m (f y))
    simp only [List.foldl_cons, List.forall_mem_cons]
    refine ⟨by omega, ⟨by omega, hall⟩, ?_⟩
    rcases hatt with hatt | ⟨x, hx, hatt⟩
    · rw [hatt]
      rcases le_total m (f y) with hle | hle
      · exact .inl (min_eq_left hle)
      · exact .inr ⟨y, List.mem_cons_self, min_eq_right hle⟩
    · exact .inr ⟨x, List.mem_cons_of_mem _ hx, hatt⟩

theorem Rcbag.Holds.length_le (h : bag.Holds rs) : bag.recs.length ≤ rs.length := by
  have hnodup : (bag.recs.map rcbagKey).Nodup :=
    List.pairwise_map.mpr (h.ordered.imp fun hlt => ne_of_lt hlt)
  have hsub : bag.recs.map rcbagKey ⊆ rs.map RmapIrec.bagKey := by
    intro k hk
    obtain ⟨x, hx, rfl⟩ := List.mem_map.mp hk
    obtain ⟨r, hr, hrk⟩ := h.used x hx
    exact List.mem_map.mpr ⟨r, hr, hrk⟩
  simpa using (List.subperm_of_subset hnodup hsub).length_le

theorem rcbagNextEdge_spec (h : bag.Holds rs) (next : Option RmapIrec) (hne : rs ≠ [])
    (hend : ∀ r ∈ rs, r.nextBno < nullAgblock) (hf : rs.length < fuel) :
    ∃ n, rcbagNextEdge fuel bag next = .ok n ∧ (∀ r ∈ rs, n ≤ r.nextBno) ∧
      (∀ r ∈ next, n ≤ r.startblock) ∧
      ((∃ r ∈ rs, r.nextBno = n) ∨ ∃ r ∈ next, r.startblock = n) := by
  set m := next.elim nullAgblock RmapIrec.startblock with hm
  obtain ⟨hle, hall, hatt⟩ := foldl_min_le rcbagRecNextBno bag.recs m
  have hloop : rcbagNextEdgeLoop fuel (gotoLeftEdge bag.recs) m =
      .ok (bag.recs.foldl (fun m x => min m (rcbagRecNextBno x)) m) :=
    rcbagNextEdgeLoop_eq [] bag.recs m (h.length_le.trans_lt hf)
  set n := bag.recs.foldl (fun m x => min m (rcbagRecNextBno x)) m
  have hle' : ∀ r ∈ rs, n ≤ r.nextBno := by
    intro r hr
    obtain ⟨x, hx, hk⟩ := h.tracked r hr
    rw [nextBno_of_bagKey hk.symm]
    exact hall x hx
  obtain ⟨r₀, hr₀⟩ := List.exists_mem_of_ne_nil rs hne
  have hnull : n ≠ nullAgblock := ((hle' r₀ hr₀).trans_lt (hend r₀ hr₀)).ne
  refine ⟨n, ?_, hle', ?_, ?_⟩
  · simp [rcbagNextEdge, ← hm, hloop, if_neg hnull]
  · intro r hr
    rw [Option.mem_def.mp hr] at hm
    exact hle.trans (le_of_eq hm)
  · rcases hatt with hatt | ⟨x, hx, hatt⟩
    · cases next with
      | none => exact absurd (hatt.trans hm) hnull
      | some r => exact .inr ⟨r, rfl, hm.symm.trans hatt.symm⟩
    · obtain ⟨r, hr, hk⟩ := h.used x hx
      exact .inl ⟨r, hr, (nextBno_of_bagKey hk).trans hatt.symm⟩

theorem Rcbag.Holds.delete {pre post : List RcbagRec} {nr : Nat}
    (h : Rcbag.Holds ⟨pre ++ x :: post, nr⟩ rs) :
    Rcbag.Holds ⟨pre ++ post, nr - x.refcount⟩
      (rs.filter (fun r => decide (r.bagKey ≠ rcbagKey x))) := by
  have hsub : ∀ y, y ∈ pre ++ post → y ∈ pre ++ x :: post := by
    intro y hy
    rw [List.mem_append, List.mem_cons]
    rcases List.mem_append.mp hy with hy | hy
    · exact .inl hy
    · exact .inr (.inr hy)
  have hx : x ∈ pre ++ x :: post := by simp
  have hkey : ∀ y ∈ pre ++ post, rcbagKey y ≠ rcbagKey x := by
    intro y hy he
    have hyx := h.ordered.key_inj (hsub y hy) hx he
    have hnodup := List.nodup_middle.mp h.ordered.nodup
    exact (List.nodup_cons.mp hnodup).1 (hyx ▸ hy)
  have hcount := h.count x hx
  have hlen := List.length_eq_length_filter_add (l := rs) (fun r => decide (r.bagKey ≠ rcbagKey x))
  refine ⟨?_, ?_, ?_, ?_, ?_⟩
  · exact h.ordered.sublist (List.Sublist.append_left (List.sublist_cons_self _ _) _)
  · have hout : (rs.filter fun r => !decide (r.bagKey ≠ rcbagKey x)).length = x.refcount := by
      rw [hcount, List.countP_eq_length_filter]
      congr 2
      funext r
      simp
    have hnr : nr = rs.length := h.nrItems
    change nr - x.refcount = _
    omega
  · intro y hy
    rw [h.count y (hsub y hy), List.countP_filter]
    refine List.countP_congr fun r _ => ?_
    simp only [decide_eq_true_eq, Bool.and_eq_true]
    exact ⟨fun hr => ⟨hr, hr ▸ hkey y hy⟩, And.left⟩
  · intro y hy
    obtain ⟨r, hr, hk⟩ := h.used y (hsub y hy)
    exact ⟨r, List.mem_filter.mpr ⟨hr, by simpa [hk] using hkey y hy⟩, hk⟩
  · intro r hr
    obtain ⟨hr, hne⟩ := List.mem_filter.mp hr
    obtain ⟨y, hy, hk⟩ := h.tracked r hr
    have hyx : y ≠ x := by
      rintro rfl
      exact of_decide_eq_true hne hk.symm
    refine ⟨y, ?_, hk⟩
    simpa [hyx] using hy

theorem rcbagRemoveLoop_spec (pre post : List RcbagRec) (nr : Nat) (hf : pre.length < fuel)
    (h : Rcbag.Holds ⟨pre ++ post, nr⟩ rs) (hpost : ∀ y ∈ post, rcbagRecNextBno y ≠ n) :
    ∃ bag', rcbagRemoveLoop n fuel (.split pre post) nr = .ok bag' ∧
      bag'.Holds (rs.filter (fun r => decide (r.nextBno ≠ n))) := by
  induction fuel generalizing pre post nr rs with
  | zero => omega
  | succ fuel ih =>
    rcases List.eq_nil_or_concat pre with rfl | ⟨pre, x, rfl⟩
    · refine ⟨⟨post, nr⟩, by simp [rcbagRemoveLoop], ?_⟩
      rw [List.filter_eq_self.mpr]
      · exact h
      · intro r hr
        obtain ⟨y, hy, hk⟩ := h.tracked r hr
        simpa [nextBno_of_bagKey hk.symm] using hpost y hy
    rw [List.concat_eq_append] at hf h ⊢
    rw [List.append_assoc, List.singleton_append] at h
    have hlen : pre.length < fuel := by simpa using hf
    by_cases hx : rcbagRecNextBno x = n
    · obtain ⟨bag', hrun, hbag⟩ := ih pre post (nr - x.refcount) hlen h.delete hpost
      refine ⟨bag', by simpa [rcbagRemoveLoop, hx] using hrun, ?_⟩
      rw [List.filter_filter] at hbag
      convert hbag using 2
      funext r
      have hkey : r.bagKey = rcbagKey x → r.nextBno = n := fun hk =>
        (nextBno_of_bagKey hk).trans hx
      by_cases hr : r.nextBno = n
      · simp [hr]
      · have hk : r.bagKey ≠ rcbagKey x := fun hk => hr (hkey hk)
        simp [hr, hk]
    · obtain ⟨bag', hrun, hbag⟩ := ih pre (x :: post) nr hlen h
        (List.forall_mem_cons.mpr ⟨hx, hpost⟩)
      exact ⟨bag', by simpa [rcbagRemoveLoop, hx] using hrun, hbag⟩

theorem rcbagRemoveEndingAt_spec (h : bag.Holds rs) (hstart : ∀ r ∈ rs, r.startblock < nullAgblock)
    (hf : rs.length < fuel) (n : Nat) :
    ∃ bag', rcbagRemoveEndingAt fuel bag n = .ok bag' ∧
      bag'.Holds (rs.filter (fun r => decide (r.nextBno ≠ n))) := by
  have hall : bag.recs.countP (fun x => decide (rcbagKey x <
      toLex (2 ^ 32 - 1, toLex (2 ^ 32 - 1, 2 ^ 64 - 1)))) = bag.recs.length := by
    refine List.countP_eq_length.mpr fun x hx => ?_
    obtain ⟨r, hr, hk⟩ := h.used x hx
    have hlt := hstart r hr
    rw [(bagKey_eq_iff.mp hk).1] at hlt
    exact decide_eq_true (Prod.Lex.toLex_lt_toLex.mpr (.inl hlt))
  have hsplit : ((gotoLeftEdge bag.recs).lookupGE rcbagKey
      (toLex (2 ^ 32 - 1, toLex (2 ^ 32 - 1, 2 ^ 64 - 1)))).1 = .split bag.recs [] := by
    simp only [Cursor.lookupGE, gotoLeftEdge, hall, Cursor.split, List.append_nil]
  have hrun := rcbagRemoveLoop_spec (n := n) bag.recs [] bag.nrItems
    (h.length_le.trans_lt hf) (by simpa using h) (by simp)
  simpa only [rcbagRemoveEndingAt, hsplit] using hrun

theorem rcbagInoIterLoop_spec (pre post : List RcbagRec) (ino : Nat) (hf : post.length < fuel) :
    (rcbagInoIterLoop fuel ⟨⟨pre ++ post, pre.length⟩, ino⟩ = .ok none ∧ ∀ x ∈ post, x.ino = ino) ∨
      ∃ mid x post', post = mid ++ x :: post' ∧ (∀ y ∈ mid, y.ino = ino) ∧ x.ino ≠ ino ∧
        rcbagInoIterLoop fuel ⟨⟨pre ++ post, pre.length⟩, ino⟩ =
          .ok (some ⟨⟨(pre ++ mid ++ [x]) ++ post', (pre ++ mid ++ [x]).length⟩, x.ino⟩) := by
  induction post generalizing pre fuel with
  | nil =>
    obtain ⟨fuel, rfl⟩ : ∃ k, fuel = k + 1 := ⟨fuel - 1, by omega⟩
    exact .inl ⟨by simp [rcbagInoIterLoop, Cursor.increment], by simp⟩
  | cons x post ih =>
    obtain ⟨fuel, rfl⟩ : ∃ k, fuel = k + 1 := ⟨fuel - 1, by omega⟩
    have hrec : (Cursor.mk (pre ++ x :: post) (pre.length + 1)).rec? = some x := by
      simp [Cursor.rec?]
    by_cases hx : ino = x.ino
    · have hstep : rcbagInoIterLoop (fuel + 1) ⟨⟨pre ++ x :: post, pre.length⟩, ino⟩ =
          rcbagInoIterLoop fuel ⟨⟨(pre ++ [x]) ++ post, (pre ++ [x]).length⟩, ino⟩ := by
        simp [rcbagInoIterLoop, Cursor.increment, hrec, hx]
      rw [hstep]
      rcases ih (pre ++ [x]) (by simpa using hf) with ⟨hrun, hall⟩ | ⟨mid, y, post', rfl, hmid, hy, hrun⟩
      · exact .inl ⟨hrun, List.forall_mem_cons.mpr ⟨hx.symm, hall⟩⟩
      · refine .inr ⟨x :: mid, y, post', rfl, List.forall_mem_cons.mpr ⟨hx.symm, hmid⟩, hy, ?_⟩
        rw [hrun]
        simp
    · refine .inr ⟨[], x, post, rfl, by simp, fun he => hx he.symm, ?_⟩
      simp [rcbagInoIterLoop, Cursor.increment, hrec, hx]

theorem markReflinkLoop_spec (pre post : List RcbagRec) (ino : Nat) (flags : ReflinkFlags)
    (htwo : 2 ≤ bag.nrItems) (hf : post.length < fuel) (hino : ino = 0 ∨ flags ino)
    (hpos : ∀ x ∈ post, x.ino ≠ 0) :
    ∃ flags', markReflinkLoop bag fuel ⟨⟨pre ++ post, pre.length⟩, ino⟩ flags = .ok flags' ∧
      ∀ i, flags' i ↔ flags i ∨ ∃ x ∈ post, x.ino = i := by
  induction fuel generalizing pre post ino flags with
  | zero => omega
  | succ fuel ih =>
    have hiter : rcbagInoIter (fuel + 1) bag ⟨⟨pre ++ post, pre.length⟩, ino⟩ =
        rcbagInoIterLoop (fuel + 1) ⟨⟨pre ++ post, pre.length⟩, ino⟩ := by
      rw [rcbagInoIter, if_neg (by omega)]
    have hskip : ∀ x ∈ post, x.ino = ino → flags x.ino := by
      intro x hx he
      rcases hino with h0 | h1
      · exact absurd (he.trans h0) (hpos x hx)
      · rwa [he]
    rcases rcbagInoIterLoop_spec pre post ino hf with ⟨hrun, hall⟩ | ⟨mid, x, post', rfl, hmid, hx, hrun⟩
    · refine ⟨flags, by simp [markReflinkLoop, hiter, hrun], fun i => ⟨.inl, ?_⟩⟩
      rintro (hi | ⟨x, hx, rfl⟩)
      · exact hi
      · exact hskip x hx (hall x hx)
    obtain ⟨flags', hrest, hflags⟩ := ih (pre ++ mid ++ [x]) post' x.ino (setInodeIsRl flags x.ino)
      (by simp only [List.length_append, List.length_cons] at hf; omega)
      (.inr (by simp [setInodeIsRl]))
      (fun y hy => hpos y (by simp [hy]))
    refine ⟨flags', by simpa [markReflinkLoop, hiter, hrun] using hrest, ?_⟩
    intro i
    rw [hflags i]
    simp only [setInodeIsRl, Bool.or_eq_true, decide_eq_true_eq, List.mem_append, List.mem_cons]
    constructor
    · rintro ((hi | rfl) | ⟨y, hy, rfl⟩)
      · exact .inl hi
      · exact .inr ⟨x, .inr (.inl rfl), rfl⟩
      · exact .inr ⟨y, .inr (.inr hy), rfl⟩
    · rintro (hi | ⟨y, hy | rfl | hy, rfl⟩)
      · exact .inl (.inl hi)
      · exact .inl (.inl (hskip y (by simp [hy]) (hmid y hy)))
      · exact .inl (.inr rfl)
      · exact .inr ⟨y, hy, rfl⟩

theorem markReflinkInodes_spec (h : bag.Holds rs) (flags : ReflinkFlags) (hf : rs.length < fuel)
    (hpos : ∀ r ∈ rs, r.owner ≠ 0) :
    ∃ flags', markReflinkInodes fuel bag flags = .ok flags' ∧
      ∀ i, flags' i ↔ flags i ∨ 2 ≤ rs.length ∧ ∃ r ∈ rs, r.owner = i := by
  by_cases htwo : 2 ≤ rs.length
  · have hitems : 2 ≤ bag.nrItems := h.nrItems ▸ htwo
    obtain ⟨flags', hrun, hflags⟩ := markReflinkLoop_spec [] bag.recs 0 flags hitems
      (h.length_le.trans_lt hf) (.inl rfl) (by
        intro x hx
        obtain ⟨r, hr, hk⟩ := h.used x hx
        exact (bagKey_eq_iff.mp hk).2.2 ▸ hpos r hr)
    refine ⟨flags', hrun, fun i => ?_⟩
    rw [hflags i]
    refine or_congr Iff.rfl ⟨?_, ?_⟩
    · rintro ⟨x, hx, rfl⟩
      obtain ⟨r, hr, hk⟩ := h.used x hx
      exact ⟨htwo, r, hr, (bagKey_eq_iff.mp hk).2.2⟩
    · rintro ⟨-, r, hr, rfl⟩
      obtain ⟨x, hx, hk⟩ := h.tracked r hr
      exact ⟨x, hx, (bagKey_eq_iff.mp hk.symm).2.2.symm⟩
  · obtain ⟨fuel, rfl⟩ : ∃ k, fuel = k + 1 := ⟨fuel - 1, by omega⟩
    have hfew : bag.nrItems < 2 := by
      rw [h.nrItems]
      omega
    refine ⟨flags, ?_, fun i => ?_⟩
    · simp [markReflinkInodes, markReflinkLoop, rcbagInoIter, hfew]
    · simp [htwo]

end Xfs
