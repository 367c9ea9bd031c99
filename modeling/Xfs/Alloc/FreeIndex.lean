import Xfs.Alloc.FreeSpace

/-! The two btrees stay two views of the same free extents when an extent is taken out. -/
namespace Xfs

open RecordCursor Cursor

/-- Both btrees hold the same extents of the group, and these do not overlap. -/
structure FreeIndex (g : Group) (bnobt cntbt : List FreeRec) : Prop where
  bno_ordered : Ordered bnoKey bnobt
  cnt_ordered : Ordered cntKey cntbt
  same : ∀ r, r ∈ cntbt ↔ r ∈ bnobt
  inside : ∀ r ∈ bnobt, 0 < r.len ∧ g.minGbno ≤ r.bno ∧ r.bno + r.len ≤ g.blockCount
  disjoint : ∀ r ∈ bnobt, ∀ s ∈ bnobt, r.bno < s.bno → r.bno + r.len ≤ s.bno

variable {g : Group} {bnobt cntbt : List FreeRec} {f r s : FreeRec} {rbno rlen : Nat}
  {cnt : Cursor FreeRec} {o : Option FreeRec}

theorem cntKey_inj : cntKey r = cntKey s ↔ r = s := by
  obtain ⟨rbno, rlen⟩ := r
  obtain ⟨sbno, slen⟩ := s
  simp [cntKey, and_comm]

theorem cntKey_lt : cntKey r < cntKey s ↔ r.len < s.len ∨ r.len = s.len ∧ r.bno < s.bno :=
  Prod.Lex.toLex_lt_toLex

section

variable (h : FreeIndex g bnobt cntbt)
include h

theorem FreeIndex.lt_max (hr : r ∈ bnobt) : r.bno + r.len < 2 ^ 31 := by
  have := h.inside r hr
  have := g.blockCount_lt
  omega

theorem FreeIndex.eq_of_bno_eq (hr : r ∈ bnobt) (hs : s ∈ bnobt) (heq : r.bno = s.bno) :
    r = s := h.bno_ordered.key_inj hr hs heq

theorem FreeIndex.apart (hf : f ∈ bnobt) (hs : s ∈ bnobt) (hne : s ≠ f) :
    s.bno + s.len ≤ f.bno ∨ f.bno + f.len ≤ s.bno := by
  rcases lt_trichotomy s.bno f.bno with hlt | heq | hgt
  · exact .inl (h.disjoint s hs f hf hlt)
  · exact absurd (h.eq_of_bno_eq hs hf heq) hne
  · exact .inr (h.disjoint f hf s hs hgt)

theorem FreeIndex.checkIrec (hr : r ∈ bnobt) : allocCheckIrec g r := by
  obtain ⟨hpos, hmin, hend⟩ := h.inside r hr
  have hne : r.len ≠ 0 := by omega
  simp [allocCheckIrec, hne, verifyGbext_iff, hpos, hmin, hend]

theorem FreeIndex.allocGetRec (hcnt : cnt.recs = cntbt) (hr : cnt.rec? = some r) :
    allocGetRec g cnt = .ok r := by
  have hmem : r ∈ bnobt := (h.same r).mp (hcnt ▸ mem_of_rec? hr)
  rw [Xfs.allocGetRec, hr]
  exact if_pos (h.checkIrec hmem)

end

section

variable {K : Type} [LinearOrder K] {key : FreeRec → K} {cur : Cursor FreeRec}

section

variable (ho : Ordered key cur.recs)
include ho

theorem allocLookupPresent_spec (hr : r ∈ cur.recs) :
    ∃ cur', allocLookupPresent key cur r = .ok cur' ∧ cur'.recs = cur.recs ∧
      cur'.rec? = some r := by
  have hfound : (cur.lookupEQ key (key r)).2 := lookupEQ_snd_iff.mpr ⟨r, hr, rfl⟩
  refine ⟨(cur.lookupEQ key (key r)).1, ?_, rfl, ?_⟩
  · show (do corruptUnless (cur.lookupEQ key (key r)).2; pure _) = _
    rw [hfound]
    rfl
  · exact rec?_of_seek ho hr (seek_lookupEQ _ _)

theorem allocLookupUnless_spec {ok : Bool} (hr : r ∈ cur.recs) (hok : ok → cur.rec? = some r) :
    ∃ cur', allocLookupUnless key ok cur r = .ok cur' ∧ cur'.recs = cur.recs ∧
      cur'.rec? = some r := by
  cases ok with
  | true => exact ⟨cur, rfl, rfl, hok rfl⟩
  | false => exact allocLookupPresent_spec ho hr

theorem allocDeleteRec_spec (hr : cur.rec? = some r) :
    ∃ cur', allocDeleteRec cur = .ok cur' ∧ Ordered key cur'.recs ∧
      ∀ s, s ∈ cur'.recs ↔ s ∈ cur.recs ∧ s ≠ r := by
  obtain ⟨cur', hdel, ho', -, hmem⟩ := delete_spec ho hr
  refine ⟨cur', ?_, ho', hmem⟩
  rw [allocDeleteRec, hdel]
  rfl

theorem insertSome_spec (hnew : ∀ r, o = some r → ∀ s ∈ cur.recs, key s ≠ key r) :
    ∃ cur', insertSome key cur o = .ok cur' ∧ Ordered key cur'.recs ∧
      ∀ s, s ∈ cur'.recs ↔ o = some s ∨ s ∈ cur.recs := by
  cases o with
  | none => exact ⟨cur, rfl, ho, by simp⟩
  | some r =>
    have hnone : (cur.lookupEQ key (key r)).2 = false := by
      rw [← Bool.not_eq_true, lookupEQ_snd_iff]
      rintro ⟨s, hs, heq⟩
      exact hnew r rfl s hs heq
    obtain ⟨cur', hins, ho', -, hmem⟩ := insert_spec (c := (cur.lookupEQ key (key r)).1)
      ho (seek_lookupEQ _ _) (hnew r rfl)
    refine ⟨cur', ?_, ho', fun s => ?_⟩
    · simp only [insertSome, allocInsertAbsent, hnone, hins]
      rfl
    · rw [hmem, Option.some.injEq, eq_comm]
      rfl

end

end

/-- What is left of `f` when the extent `rbno`, `rlen` is taken out. -/
def Leftover (f : FreeRec) (rbno rlen : Nat) (s : FreeRec) : Prop :=
  f.bno < rbno ∧ s = ⟨f.bno, rbno - f.bno⟩ ∨
    rbno + rlen < f.bno + f.len ∧ s = ⟨rbno + rlen, f.bno + f.len - (rbno + rlen)⟩

section

variable (hpos : 0 < rlen) (hlo : f.bno ≤ rbno) (hhi : rbno + rlen ≤ f.bno + f.len)
include hpos hlo hhi

theorem allocLeftovers_eq (hmax : f.bno + f.len < 2 ^ 31) : allocLeftovers f rbno rlen =
      if rbno = f.bno ∧ rlen = f.len then (none, none)
      else if rbno = f.bno then (some ⟨rbno + rlen, f.len - rlen⟩, none)
      else if rbno + rlen = f.bno + f.len then (some ⟨f.bno, f.len - rlen⟩, none)
      else (some ⟨f.bno, rbno - f.bno⟩, some ⟨rbno + rlen, f.bno + f.len - (rbno + rlen)⟩) := by
  rw [allocLeftovers, add32_eq (by omega), add32_eq (by omega), sub32_eq (by omega) (by omega),
    sub32_eq (by omega) (by omega), sub32_eq (by omega) (by omega)]

theorem leftover_iff (hmax : f.bno + f.len < 2 ^ 31) (s : FreeRec) :
    (allocLeftovers f rbno rlen).1 = some s ∨ (allocLeftovers f rbno rlen).2 = some s ↔
      Leftover f rbno rlen s := by
  obtain ⟨fbno, flen⟩ := f
  obtain ⟨sbno, slen⟩ := s
  rw [allocLeftovers_eq hpos hlo hhi hmax]
  simp only [Leftover, FreeRec.mk.injEq] at *
  split_ifs <;> simp <;> omega

theorem allocLeftovers_lt (hmax : f.bno + f.len < 2 ^ 31)
    (hr : (allocLeftovers f rbno rlen).1 = some r) (hs : (allocLeftovers f rbno rlen).2 = some s) :
    r.bno < s.bno := by
  rw [allocLeftovers_eq hpos hlo hhi hmax] at hr hs
  split_ifs at hr hs
  cases hr
  cases hs
  simp only
  omega

theorem Leftover.bounds (h : Leftover f rbno rlen s) :
    0 < s.len ∧ f.bno ≤ s.bno ∧ s.bno + s.len ≤ f.bno + f.len ∧ s.bno < f.bno + f.len := by
  rcases h with ⟨hlt, rfl⟩ | ⟨hlt, rfl⟩
  · exact ⟨by simp only; omega, by simp only; omega, by simp only; omega, by simp only; omega⟩
  · exact ⟨by simp only; omega, by simp only; omega, by simp only; omega, by simp only; omega⟩

end

def TakenFrom (f : FreeRec) (rbno rlen : Nat) (recs recs' : List FreeRec) : Prop :=
  ∀ s, s ∈ recs' ↔ s ∈ recs ∧ s ≠ f ∨ Leftover f rbno rlen s

section

variable (h : FreeIndex g bnobt cntbt) (hf : f ∈ bnobt) (hpos : 0 < rlen) (hlo : f.bno ≤ rbno)
  (hhi : rbno + rlen ≤ f.bno + f.len) {bno : Cursor FreeRec}

include h hf hpos hlo hhi

theorem FreeIndex.leftover_ne (hs : s ∈ bnobt) (hne : s ≠ f) (hr : Leftover f rbno rlen r) :
    s.bno ≠ r.bno := by
  have hb := hr.bounds hpos hlo hhi
  have hs' := (h.inside s hs).1
  rcases h.apart hf hs hne with hlt | hgt <;> omega

theorem FreeIndex.taken {bnobt' cntbt' : List FreeRec} (ho : Ordered bnoKey bnobt')
    (ho' : Ordered cntKey cntbt') (hbno : TakenFrom f rbno rlen bnobt bnobt')
    (hcnt : TakenFrom f rbno rlen cntbt cntbt') : FreeIndex g bnobt' cntbt' := by
  have hold := h.inside f hf
  refine ⟨ho, ho', fun r => ?_, fun r hr => ?_, fun r hr s hs hlt => ?_⟩
  · rw [hbno r, hcnt r, h.same r]
  · rcases (hbno r).mp hr with ⟨hr, -⟩ | hr
    · exact h.inside r hr
    · have := hr.bounds hpos hlo hhi
      omega
  · rcases (hbno r).mp hr with ⟨hr, hrf⟩ | hr <;> rcases (hbno s).mp hs with ⟨hs, hsf⟩ | hs
    · exact h.disjoint r hr s hs hlt
    · have := hs.bounds hpos hlo hhi
      rcases h.apart hf hr hrf <;> omega
    · have := hr.bounds hpos hlo hhi
      rcases h.apart hf hs hsf <;> omega
    · rcases hr with ⟨h1, rfl⟩ | ⟨h1, rfl⟩ <;> rcases hs with ⟨h2, rfl⟩ | ⟨h2, rfl⟩ <;>
        simp only at hlt ⊢ <;> omega

theorem FreeIndex.fixupCnt (hrecs : cnt.recs = cntbt) (hcnt : cnt.rec? = some f) :
    ∃ cnt', fixupCnt cnt (allocLeftovers f rbno rlen) = .ok cnt' ∧ Ordered cntKey cnt'.recs ∧
      TakenFrom f rbno rlen cntbt cnt'.recs := by
  have hleft := leftover_iff hpos hlo hhi (h.lt_max hf)
  subst hrecs
  obtain ⟨c1, hd, ho1, hm1⟩ := allocDeleteRec_spec h.cnt_ordered hcnt
  have hne1 : ∀ r, Leftover f rbno rlen r → ∀ s ∈ c1.recs, cntKey s ≠ cntKey r := by
    intro r hr s hs heq
    obtain ⟨hs, hsf⟩ := (hm1 s).mp hs
    exact h.leftover_ne hf hpos hlo hhi ((h.same s).mp hs) hsf hr (by rw [cntKey_inj.mp heq])
  obtain ⟨c2, hi2, ho2, hm2⟩ := insertSome_spec ho1 fun r hr => hne1 r ((hleft r).mp (.inl hr))
  have hne2 : ∀ r, (allocLeftovers f rbno rlen).2 = some r → ∀ s ∈ c2.recs,
      cntKey s ≠ cntKey r := by
    intro r hr s hs heq
    rcases (hm2 s).mp hs with hs | hs
    · have hlt := allocLeftovers_lt hpos hlo hhi (h.lt_max hf) hs hr
      rw [cntKey_inj.mp heq] at hlt
      exact lt_irrefl _ hlt
    · exact hne1 r ((hleft r).mp (.inr hr)) s hs heq
  obtain ⟨c3, hi3, ho3, hm3⟩ := insertSome_spec ho2 hne2
  refine ⟨c3, ?_, ho3, fun s => ?_⟩
  · rw [Xfs.fixupCnt, hd, ok_bind, hi2, ok_bind, hi3]
  · rw [hm3, hm2, hm1, ← hleft]
    simp only [or_left_comm, or_comm]

theorem updateOrDelete_spec (hrecs : bno.recs = bnobt) (hbno : bno.rec? = some f)
    (ho : ∀ r, o = some r → Leftover f rbno rlen r) :
    ∃ bno', updateOrDelete bno o = .ok bno' ∧ Ordered bnoKey bno'.recs ∧
      ∀ s, s ∈ bno'.recs ↔ o = some s ∨ s ∈ bnobt ∧ s ≠ f := by
  subst hrecs
  cases o with
  | none =>
    obtain ⟨c1, hd, ho1, hm1⟩ := allocDeleteRec_spec h.bno_ordered hbno
    exact ⟨c1, hd, ho1, by simpa using hm1⟩
  | some r =>
    have hb := (ho r rfl).bounds hpos hlo hhi
    obtain ⟨ho1, -, hm1⟩ := update_spec h.bno_ordered hbno
      (fun s hs hlt => lt_of_lt_of_le hlt hb.2.1)
      (fun s hs hlt => lt_of_lt_of_le hb.2.2.2 (h.disjoint f hf s hs hlt))
    refine ⟨_, rfl, ho1, fun s => ?_⟩
    rw [hm1, Option.some.injEq, eq_comm]

theorem FreeIndex.fixupBno (hrecs : bno.recs = bnobt) (hbno : bno.rec? = some f) :
    ∃ bno', fixupBno bno (allocLeftovers f rbno rlen) = .ok bno' ∧ Ordered bnoKey bno'.recs ∧
      TakenFrom f rbno rlen bnobt bno'.recs := by
  have hleft := leftover_iff hpos hlo hhi (h.lt_max hf)
  obtain ⟨c1, hu, ho1, hm1⟩ := updateOrDelete_spec h hf hpos hlo hhi hrecs hbno
    fun r hr => (hleft r).mp (.inl hr)
  have hne : ∀ r, (allocLeftovers f rbno rlen).2 = some r → ∀ s ∈ c1.recs, bnoKey s ≠ bnoKey r := by
    intro r hr s hs
    rcases (hm1 s).mp hs with hs | ⟨hs, hsf⟩
    · exact ne_of_lt (allocLeftovers_lt hpos hlo hhi (h.lt_max hf) hs hr)
    · exact h.leftover_ne hf hpos hlo hhi hs hsf ((hleft r).mp (.inr hr))
  obtain ⟨c2, hi2, ho2, hm2⟩ := insertSome_spec ho1 hne
  refine ⟨c2, ?_, ho2, fun s => ?_⟩
  · rw [Xfs.fixupBno, hu, ok_bind, hi2]
  · rw [hm2, hm1, ← hleft]
    simp only [or_left_comm, or_comm]

end

theorem allocFixupTrees_spec {env : AllocEnv} {sp : AgSpace} (cnt bno : Cursor FreeRec)
    (rbno rlen : Nat) (cntOk bnoOk : Bool) (h : FreeIndex env.group sp.bnobt sp.cntbt)
    (hcnt : cnt.recs = sp.cntbt)
    (hbno : bno.recs = sp.bnobt) (hf : f ∈ sp.bnobt) (hcntOk : cntOk → cnt.rec? = some f)
    (hbnoOk : bnoOk → bno.rec? = some f) (hpos : 0 < rlen) (hlo : f.bno ≤ rbno)
    (hhi : rbno + rlen ≤ f.bno + f.len) :
    ∃ sp', allocFixupTrees env sp cnt bno f rbno rlen cntOk bnoOk = .ok sp' ∧
      FreeIndex env.group sp'.bnobt sp'.cntbt ∧ TakenFrom f rbno rlen sp.bnobt sp'.bnobt ∧
      sp'.freeblks = sp.freeblks ∧ sp'.pagfFreeblks = sp.pagfFreeblks ∧ sp'.agfl = sp.agfl := by
  obtain ⟨c1, hc1, hc1recs, hc1rec⟩ := allocLookupUnless_spec (hcnt ▸ h.cnt_ordered)
    (hcnt ▸ (h.same f).mpr hf) hcntOk
  obtain ⟨b1, hb1, hb1recs, hb1rec⟩ := allocLookupUnless_spec (hbno ▸ h.bno_ordered)
    (hbno ▸ hf) hbnoOk
  rw [hcnt] at hc1recs
  rw [hbno] at hb1recs
  obtain ⟨c2, hc2, hc2o, hc2m⟩ := h.fixupCnt hf hpos hlo hhi hc1recs hc1rec
  obtain ⟨b2, hb2, hb2o, hb2m⟩ := h.fixupBno hf hpos hlo hhi hb1recs hb1rec
  have hindex := h.taken hf hpos hlo hhi hb2o hc2o hb2m hc2m
  simp only [allocFixupTrees, hc1, hb1, hc2, hb2, ok_bind]
  refine ⟨_, rfl, ?_⟩
  split_ifs <;> exact ⟨hindex, hb2m, rfl, rfl, rfl⟩

end Xfs
