import Xfs.Alloc.FreeExtent

/-! Runs of allocations and frees: every block stays free or in one extent that is held, and the
btrees only depend on which blocks are free. -/
namespace Xfs

open List RecordCursor Cursor FreeRec

def FreeRec.holds (b : Nat) (r : FreeRec) : Bool := decide (r.bno ≤ b ∧ b < r.bno + r.len)

/-- How many of the extents hold a block. -/
def timesHeld (recs : List FreeRec) (b : Nat) : Nat := recs.countP (holds b)

variable {env : AllocEnv} {sp sp' : AgSpace} {g : Group} {bnobt bnobt' cntbt cntbt' : List FreeRec}
  {bno len b : Nat} {f r : FreeRec} {held : List FreeRec}

theorem timesHeld_cons : timesHeld (r :: held) b = timesHeld held b + timesHeld [r] b := by
  simp [timesHeld, countP_cons]

theorem timesHeld_erase (hr : r ∈ held) :
    timesHeld (held.erase r) b + timesHeld [r] b = timesHeld held b := by
  rw [← timesHeld_cons]
  exact ((perm_cons_erase hr).countP_eq _).symm

theorem timesHeld_pos : 0 < timesHeld held b ↔ ∃ r ∈ held, r.bno ≤ b ∧ b < r.bno + r.len := by
  simp [timesHeld, countP_pos_iff, holds]

theorem timesHeld_leftoverList (hlo : f.bno ≤ bno) (hhi : bno + len ≤ f.bno + f.len) :
    timesHeld (leftoverList f bno len) b + timesHeld [⟨bno, len⟩] b = timesHeld [f] b := by
  unfold timesHeld leftoverList holds
  split_ifs <;> simp [countP_cons] <;> split_ifs <;> omega

/-- The part of a held extent that goes back to its owner when a piece of it is freed. -/
theorem timesHeld_replace (hr : r ∈ held) (hlo : r.bno ≤ bno) (hhi : bno + len ≤ r.bno + r.len) :
    timesHeld (leftoverList r bno len ++ held.erase r) b + timesHeld [⟨bno, len⟩] b =
      timesHeld held b := by
  have h1 := timesHeld_leftoverList (b := b) hlo hhi
  have h2 := timesHeld_erase (b := b) hr
  have h3 : timesHeld (leftoverList r bno len ++ held.erase r) b =
      timesHeld (leftoverList r bno len) b + timesHeld (held.erase r) b := countP_append
  omega

theorem TakenFrom.timesHeld (h : FreeIndex g bnobt cntbt) (h' : FreeIndex g bnobt' cntbt')
    (hf : f ∈ bnobt) (hpos : 0 < len) (hlo : f.bno ≤ bno) (hhi : bno + len ≤ f.bno + f.len)
    (htaken : TakenFrom f bno len bnobt bnobt') :
    Xfs.timesHeld bnobt' b + Xfs.timesHeld [⟨bno, len⟩] b = Xfs.timesHeld bnobt b := by
  rw [← timesHeld_replace hf hlo hhi, Xfs.timesHeld,
    (TakenFrom.perm h h' hf hpos hlo hhi htaken).countP_eq]
  rfl

theorem exists_free_of_overlap (h : FreeIndex g bnobt cntbt) (hpos : 0 < len)
    (hover : ∃ s ∈ bnobt, s.bno < bno + len ∧ bno < s.bno + s.len) :
    ∃ b, bno ≤ b ∧ b < bno + len ∧ 0 < timesHeld bnobt b := by
  obtain ⟨s, hs, hlt, hgt⟩ := hover
  have := (h.inside s hs).1
  refine ⟨max bno s.bno, le_max_left _ _, by omega, timesHeld_pos.mpr ⟨s, hs, le_max_right _ _, ?_⟩⟩
  omega

theorem FreeSplit.timesHeld {A B : List FreeRec} {left right : Option FreeRec}
    (hn : FreeSplit bnobt bno len A B left right) (h : FreeIndex g bnobt cntbt)
    (hext : verifyGbext g bno len) :
    Xfs.timesHeld (A ++ [freeJoined bno len left right] ++ B) b =
      Xfs.timesHeld bnobt b + Xfs.timesHeld [⟨bno, len⟩] b := by
  obtain ⟨hbno, hlen, -⟩ := freeJoined_eq h hext hn
  have hl := hn.left_end
  have hr := hn.right_start
  rw [hn.recs]
  unfold Xfs.timesHeld holds
  cases left <;> cases right <;> simp [lenOf, countP_cons] at * <;> split_ifs <;> omega

theorem freeAgExtent_of_not_free (h : Counted env.group sp) (hext : verifyGbext env.group bno len)
    (hnone : ∀ b, bno ≤ b → b < bno + len → timesHeld sp.bnobt b = 0) :
    ∃ sp', freeAgExtent env sp bno len = .ok sp' ∧ Counted env.group sp' ∧
      (∀ b, timesHeld sp'.bnobt b = timesHeld sp.bnobt b + timesHeld [⟨bno, len⟩] b) ∧
      (Gaps 1 sp.bnobt → Gaps 1 sp'.bnobt) ∧ sp'.agfl = sp.agfl := by
  rcases freeAgExtent_spec h hext with ⟨-, hover⟩ |
    ⟨sp', A, B, left, right, hrun, hn, hrecs, hcounted, hagfl⟩
  · obtain ⟨b, h1, h2, hfree⟩ := exists_free_of_overlap h.index (verifyGbext_iff.mp hext).1 hover
    exact absurd (hnone b h1 h2) hfree.ne'
  · refine ⟨sp', hrun, hcounted, fun b => ?_, fun hgaps => ?_, hagfl⟩
    · rw [hrecs, hn.timesHeld h.index hext]
    · rw [hrecs]
      exact Gaps.joined h.index hext hn le_rfl hgaps

theorem FreeSplit.timesHeld_eq_zero {A B : List FreeRec} {left right : Option FreeRec}
    (hn : FreeSplit bnobt bno len A B left right) (hlo : bno ≤ b) (hhi : b < bno + len) :
    Xfs.timesHeld bnobt b = 0 := by
  by_contra hne
  obtain ⟨s, hs, h3, h4⟩ := timesHeld_pos.mp (Nat.pos_of_ne_zero hne)
  rw [hn.recs] at hs
  simp only [mem_append, Option.mem_toList] at hs
  rcases hs with (hs | hs | hs) | hs
  · have := hn.before s hs
    omega
  · have := hn.left_end s hs
    omega
  · have := hn.right_start s hs
    omega
  · have := hn.behind s hs
    omega

/-- Space is freed exactly if none of it is free already. -/
theorem free_extent_exact (env : AllocEnv) (sp : AgSpace) (bno len : Nat)
    (h : Counted env.group sp) (hext : verifyGbext env.group bno len = true) :
    ((∃ b, bno ≤ b ∧ b < bno + len ∧ 0 < timesHeld sp.bnobt b) →
      freeAgExtent env sp bno len = .error .efscorrupted) ∧
    ((∀ b, bno ≤ b → b < bno + len → timesHeld sp.bnobt b = 0) →
      ∃ sp', freeAgExtent env sp bno len = .ok sp' ∧ Counted env.group sp' ∧
        (∀ b, timesHeld sp'.bnobt b = timesHeld sp.bnobt b + timesHeld [⟨bno, len⟩] b) ∧
        (Gaps 1 sp.bnobt → Gaps 1 sp'.bnobt)) := by
  refine ⟨fun ⟨b, hlo, hhi, hfree⟩ => ?_, fun hnone => ?_⟩
  · rcases freeAgExtent_spec h hext with ⟨hrun, -⟩ | ⟨sp', A, B, left, right, -, hn, -⟩
    · exact hrun
    · exact absurd (hn.timesHeld_eq_zero hlo hhi) hfree.ne'
  · obtain ⟨sp', hrun, hcounted, htimes, hgaps, -⟩ := freeAgExtent_of_not_free h hext hnone
    exact ⟨sp', hrun, hcounted, htimes, hgaps⟩

theorem sampleSpace_counted : Counted sampleGroup (sampleAgSpace sampleFree) :=
  ⟨sampleFree_index, rfl, rfl⟩

/-- A second free of two blocks, and the blocks between two free extents. -/
theorem free_extent_exact_sample :
    freeAgExtent sampleAllocEnv (sampleAgSpace sampleFree) 13 4 = .error .efscorrupted ∧
      ∃ sp', freeAgExtent sampleAllocEnv (sampleAgSpace sampleFree) 15 6 = .ok sp' ∧
        Counted sampleGroup sp' := by
  have h := sampleSpace_counted
  refine ⟨(free_extent_exact sampleAllocEnv _ 13 4 h (by decide)).1 ⟨13, by decide⟩, ?_⟩
  obtain ⟨sp', hrun, hcounted, -⟩ := (free_extent_exact sampleAllocEnv _ 15 6 h (by decide)).2
    fun b h1 h2 => by
      simp [sampleAgSpace, sampleFree, timesHeld, holds]
      omega
  exact ⟨sp', hrun, hcounted⟩

/-- The end of an allocation, unless the block is from the free list. -/
def allocVextentFinish (env : AllocEnv) (found : AgSpace × AllocArgs) : AllocM AgSpace :=
  if found.2.agbno = nullagblock ∨ found.2.wasfromfl then pure found.1
  else allocUpdateCounters env.group found.1 found.2.len

inductive SpaceOp where
  | alloc (args : AllocArgs)
  | free (r : FreeRec) (bno len : Nat)

/-- One operation, and the extents the caller has. It only frees pieces of these. -/
def spaceStep (env : AllocEnv) (fuel : Nat) (st : AgSpace × List FreeRec) :
    SpaceOp → AllocM (AgSpace × List FreeRec)
  | .alloc args => do
      match ← allocAgVextentSize env st.1 args fuel with
      | none => pure st
      | some found =>
        let sp ← allocVextentFinish env found
        pure (sp, if found.2.agbno = nullagblock then st.2
          else ⟨found.2.agbno, found.2.len⟩ :: st.2)
  | .free r bno len =>
    if r ∈ st.2 ∧ r.bno ≤ bno ∧ 0 < len ∧ bno + len ≤ r.bno + r.len then do
      let sp ← freeAgExtent env st.1 bno len
      pure (sp, leftoverList r bno len ++ st.2.erase r)
    else pure st

def spaceRun (env : AllocEnv) (fuel : Nat) (ops : List SpaceOp) (st : AgSpace × List FreeRec) :
    AllocM (AgSpace × List FreeRec) := ops.foldlM (spaceStep env fuel) st

/-- The request may not fall back on the free list. -/
def AllocArgs.FromBtrees (args : AllocArgs) (agfl : AgflState) : Prop :=
  args.minlen ≠ 1 ∨ args.alignment ≠ 1 ∨ args.resv = .agfl ∨ agfl.flcount ≤ args.minleft

def SpaceOp.Sound (agfl : AgflState) : SpaceOp → Prop
  | .alloc args => args.Sound ∧ args.FromBtrees agfl
  | .free _ _ _ => True

theorem sizeAllocate_wasfromfl {best : SizeFound} {args args' : AllocArgs}
    (h : sizeAllocate env sp args best = .ok (sp', args')) : args'.wasfromfl = false := by
  unfold sizeAllocate at h
  dsimp only at h
  split_ifs at h
  · cases h
    rfl
  · obtain ⟨-, -, h⟩ := bind_eq_ok h
    obtain ⟨sp1, -, h⟩ := bind_eq_ok h
    obtain ⟨-, -, h⟩ := bind_eq_ok h
    cases h
    rfl

theorem allocAgVextentSmall_stat {args : AllocArgs} {cnt : Cursor FreeRec} {small : SmallFound}
    (hmin : 1 ≤ args.minlen) (hfl : args.FromBtrees sp.agfl)
    (h : allocAgVextentSmall env sp args cnt = .ok small) :
    small.stat = true ∧ (small.f.len = 0 → small.args.agbno = nullagblock) := by
  unfold allocAgVextentSmall at h
  dsimp only at h
  unfold AllocArgs.FromBtrees at hfl
  have hgive : ∀ f : FreeRec, (if f.len < args.minlen then
      (⟨sp, { args with agbno := nullagblock }, cnt.decrement.1, ⟨f.bno, 0⟩, true⟩ : SmallFound)
      else ⟨sp, args, cnt.decrement.1, f, true⟩) = small →
      small.stat = true ∧ (small.f.len = 0 → small.args.agbno = nullagblock) := by
    intro f hf
    split_ifs at hf <;> subst hf
    · exact ⟨rfl, fun _ => rfl⟩
    · exact ⟨rfl, fun hz => absurd hz (by simp only; omega)⟩
  split at h
  · obtain ⟨f, -, h⟩ := bind_eq_ok h
    exact hgive f (Except.ok.inj h)
  · exact hgive ⟨nullagblock, 0⟩ (Except.ok.inj h)

theorem allocAgVextentSize_wasfromfl {args args' : AllocArgs} {fuel : Nat}
    (hmin : 1 ≤ args.minlen) (hfl : args.FromBtrees sp.agfl)
    (h : allocAgVextentSize env sp args fuel = .ok (some (sp', args'))) :
    args'.agbno = nullagblock ∨ args'.wasfromfl = false := by
  induction fuel with
  | zero => cases h
  | succ fuel ih =>
    rw [allocAgVextentSize] at h
    dsimp only at h
    split_ifs at h
    · obtain ⟨small, hsmall, h⟩ := bind_eq_ok h
      obtain ⟨hstat, hnull⟩ := allocAgVextentSmall_stat hmin hfl hsmall
      split_ifs at h with hempty
      · simp only [hstat, Bool.true_eq_false, false_or] at hempty
        cases h
        exact .inl (hnull hempty)
      · obtain ⟨best, -, h⟩ := bind_eq_ok h
        obtain ⟨done, hdone, h⟩ := bind_eq_ok h
        cases h
        exact .inr (sizeAllocate_wasfromfl hdone)
    · obtain ⟨first, -, h⟩ := bind_eq_ok h
      cases first with
      | none => exact ih h
      | some first =>
        obtain ⟨best, -, h⟩ := bind_eq_ok h
        obtain ⟨done, hdone, h⟩ := bind_eq_ok h
        cases h
        exact .inr (sizeAllocate_wasfromfl hdone)

theorem Gaps.taken (hgaps : Gaps 1 bnobt) (h : FreeIndex g bnobt cntbt) (hf : f ∈ bnobt)
    (hpos : 0 < len) (hlo : f.bno ≤ bno) (hhi : bno + len ≤ f.bno + f.len)
    (htaken : TakenFrom f bno len bnobt bnobt') : Gaps 1 bnobt' := by
  have hold : ∀ t ∈ bnobt, t ≠ f → t.bno + t.len + 1 ≤ f.bno ∨ f.bno + f.len + 1 ≤ t.bno := by
    intro t ht hne
    rcases lt_trichotomy t.bno f.bno with hlt | heq | hgt
    · exact .inl (hgaps t ht f hf hlt)
    · exact absurd (h.eq_of_bno_eq ht hf heq) hne
    · exact .inr (hgaps f hf t ht hgt)
  intro r hr s hs hlt
  rcases (htaken r).mp hr with ⟨hr, hrf⟩ | hr <;> rcases (htaken s).mp hs with ⟨hs, hsf⟩ | hs
  · exact hgaps r hr s hs hlt
  · have := hs.bounds hpos hlo hhi
    rcases hold r hr hrf <;> omega
  · have := hr.bounds hpos hlo hhi
    rcases hold s hs hsf <;> omega
  · rcases hr with ⟨h1, rfl⟩ | ⟨h1, rfl⟩ <;> rcases hs with ⟨h2, rfl⟩ | ⟨h2, rfl⟩ <;>
      simp only at hlt ⊢ <;> omega

/-- Every block is in as many free or held extents as before. -/
structure Conserved (env : AllocEnv) (st st' : AgSpace × List FreeRec) : Prop where
  counted : Counted env.group st'.1
  times : ∀ b, timesHeld st'.1.bnobt b + timesHeld st'.2 b =
    timesHeld st.1.bnobt b + timesHeld st.2 b
  gaps : Gaps 1 st.1.bnobt → Gaps 1 st'.1.bnobt
  agfl : st'.1.agfl = st.1.agfl

/-- Every block is at most once free or held, and only blocks of the group are. -/
def AtMostOnce (g : Group) (st : AgSpace × List FreeRec) : Prop :=
  ∀ b, timesHeld st.1.bnobt b + timesHeld st.2 b ≤
    if g.minGbno ≤ b ∧ b < g.blockCount then 1 else 0

variable {st : AgSpace × List FreeRec} {fuel : Nat}

theorem spaceStep_alloc {args : AllocArgs} (h : Counted env.group st.1) (hargs : args.Sound)
    (hfl : args.FromBtrees st.1.agfl) (hfuel : 0 < fuel) :
    ∃ st', spaceStep env fuel st (.alloc args) = .ok st' ∧ Conserved env st st' := by
  obtain ⟨sp', args', hrun, hdone⟩ := allocAgVextentSize_spec env st.1 args fuel h.index hargs hfuel
    fun _ => hfl
  simp only [spaceStep, hrun, ok_bind, allocVextentFinish]
  rcases hdone with ⟨-, f, ht⟩ | ⟨-, rfl, hnull⟩
  · have hpos : 0 < args'.len := lt_of_lt_of_le hargs.minlen_pos ht.minlen_le
    have hmax := h.index.lt_max ht.mem
    have hlo := ht.fits.2.1
    have hhi := ht.fits.2.2
    have hne : args'.agbno ≠ nullagblock := by
      unfold nullagblock
      omega
    have hwas := (allocAgVextentSize_wasfromfl hargs.minlen_pos hfl hrun).resolve_left hne
    have htotal := totalFree_taken h.index ht.index ht.mem hpos hlo hhi ht.taken
    rw [if_neg (by simp [hne, hwas]), if_neg hne, allocUpdateCounters_taken ht.index
      (ht.freeblks.1.trans h.freeblks) (ht.freeblks.2.trans h.pagfFreeblks) htotal
      h.index.totalFree_le, ok_bind]
    refine ⟨_, rfl, ⟨ht.index, rfl, rfl⟩, fun b => ?_,
      fun hgaps => hgaps.taken h.index ht.mem hpos hlo hhi ht.taken, ht.agfl⟩
    have := ht.taken.timesHeld (b := b) h.index ht.index ht.mem hpos hlo hhi
    rw [timesHeld_cons]
    simp only
    omega
  · rw [if_pos (.inl hnull), if_pos hnull]
    exact ⟨st, rfl, h, fun _ => rfl, id, rfl⟩

theorem spaceStep_free (h : Counted env.group st.1) (hone : AtMostOnce env.group st) (r : FreeRec)
    (bno len : Nat) :
    ∃ st', spaceStep env fuel st (.free r bno len) = .ok st' ∧ Conserved env st st' := by
  simp only [spaceStep]
  split_ifs with hfree
  · obtain ⟨hr, hlo, hpos, hhi⟩ := hfree
    have hheld : ∀ b, bno ≤ b → b < bno + len → 0 < timesHeld st.2 b := fun b h1 h2 =>
      timesHeld_pos.mpr ⟨r, hr, by omega, by omega⟩
    have hin : ∀ b, bno ≤ b → b < bno + len → timesHeld st.1.bnobt b = 0 ∧
        env.group.minGbno ≤ b ∧ b < env.group.blockCount := by
      intro b h1 h2
      have hb := hone b
      have := hheld b h1 h2
      split_ifs at hb with hgroup
      · exact ⟨by omega, hgroup⟩
      · omega
    have hext : verifyGbext env.group bno len := by
      have h1 := (hin bno le_rfl (by omega)).2
      have h2 := (hin (bno + len - 1) (by omega) (by omega)).2
      exact verifyGbext_iff.mpr ⟨hpos, h1.1, by omega⟩
    obtain ⟨sp', hrun, hcounted, htimes, hgaps, hagfl⟩ :=
      freeAgExtent_of_not_free h hext fun b h1 h2 => (hin b h1 h2).1
    refine ⟨_, by rw [hrun]; rfl, hcounted, fun b => ?_, hgaps, hagfl⟩
    have h1 := htimes b
    have h2 := timesHeld_replace (b := b) hr hlo hhi
    simp only
    omega
  · exact ⟨st, rfl, h, fun _ => rfl, id, rfl⟩

theorem spaceRun_spec (ops : List SpaceOp) (h : Counted env.group st.1)
    (hone : AtMostOnce env.group st) (hops : ∀ op ∈ ops, op.Sound st.1.agfl) (hfuel : 0 < fuel) :
    ∃ st', spaceRun env fuel ops st = .ok st' ∧ Conserved env st st' := by
  induction ops generalizing st with
  | nil => exact ⟨st, rfl, h, fun _ => rfl, id, rfl⟩
  | cons op ops ih =>
    have hop := hops op mem_cons_self
    obtain ⟨st1, hrun1, h1⟩ : ∃ st1, spaceStep env fuel st op = .ok st1 ∧ Conserved env st st1 := by
      cases op with
      | alloc args => exact spaceStep_alloc h hop.1 hop.2 hfuel
      | free r bno len => exact spaceStep_free h hone r bno len
    obtain ⟨st2, hrun2, h2⟩ := ih h1.counted (fun b => h1.times b ▸ hone b)
      fun op hop => h1.agfl ▸ hops op (mem_cons_of_mem _ hop)
    refine ⟨st2, ?_, h2.counted, fun b => (h2.times b).trans (h1.times b),
      fun hgaps => h2.gaps (h1.gaps hgaps), h2.agfl.trans h1.agfl⟩
    rw [spaceRun, foldlM_cons, hrun1]
    exact hrun2

theorem Gaps.not_held (hgaps : Gaps 1 bnobt) (h : FreeIndex g bnobt cntbt) (hr : r ∈ bnobt)
    (hb : b + 1 = r.bno ∨ b = r.bno + r.len) : timesHeld bnobt b = 0 := by
  by_contra hne
  obtain ⟨t, ht, hlo, hhi⟩ := timesHeld_pos.mp (Nat.pos_of_ne_zero hne)
  rcases lt_trichotomy t.bno r.bno with hlt | heq | hgt
  · have := hgaps t ht r hr hlt
    omega
  · obtain rfl := h.eq_of_bno_eq ht hr heq
    omega
  · have := hgaps r hr t ht hgt
    omega

section

variable (hgaps : Gaps 1 bnobt) (hgaps' : Gaps 1 bnobt') (h : FreeIndex g bnobt cntbt)
  (h' : FreeIndex g bnobt' cntbt') (htimes : ∀ b, timesHeld bnobt b = timesHeld bnobt' b)
include hgaps hgaps' h h' htimes

theorem Gaps.mem_of_timesHeld (hr : r ∈ bnobt) : r ∈ bnobt' := by
  have hlen := (h.inside r hr).1
  obtain ⟨s, hs, hlo, hhi⟩ := timesHeld_pos.mp
    (htimes r.bno ▸ timesHeld_pos.mpr ⟨r, hr, le_rfl, by omega⟩)
  -- neither extent goes on where the other one ends
  have hout : ¬(s.bno ≤ r.bno + r.len ∧ r.bno + r.len < s.bno + s.len) := fun hin =>
    absurd (timesHeld_pos.mpr ⟨s, hs, hin⟩) (by rw [← htimes, hgaps.not_held h hr (.inr rfl)]; simp)
  have hout' : ¬(r.bno ≤ s.bno + s.len ∧ s.bno + s.len < r.bno + r.len) := fun hin =>
    absurd (timesHeld_pos.mpr ⟨r, hr, hin⟩) (by rw [htimes, hgaps'.not_held h' hs (.inr rfl)]; simp)
  have hbno : s.bno = r.bno := by
    by_contra hne
    have hin := timesHeld_pos.mpr ⟨s, hs, (by omega : s.bno ≤ r.bno - 1), by omega⟩
    rw [← htimes, hgaps.not_held h hr (.inl (by omega))] at hin
    exact hin.false
  obtain rfl : s = r := by
    cases s
    cases r
    simp_all
    omega
  exact hs

/-- Btrees without extents that touch each other are determined by the free blocks. -/
theorem Gaps.eq_of_timesHeld : bnobt = bnobt' ∧ cntbt = cntbt' := by
  have hmem : ∀ r, r ∈ bnobt ↔ r ∈ bnobt' := fun r =>
    ⟨hgaps.mem_of_timesHeld hgaps' h h' htimes,
      hgaps'.mem_of_timesHeld hgaps h' h fun b => (htimes b).symm⟩
  exact ⟨h.bno_ordered.eq_of_mem_iff h'.bno_ordered hmem,
    h.cnt_ordered.eq_of_mem_iff h'.cnt_ordered fun r => by rw [h.same, h'.same, hmem]⟩

end

theorem sampleSpace_once : AtMostOnce sampleGroup (sampleAgSpace sampleFree, []) := by
  intro b
  show timesHeld sampleFree b + 0 ≤ if 4 ≤ b ∧ b < 64 then 1 else 0
  simp [sampleFree, timesHeld, holds, countP_cons]
  split_ifs <;> omega

/-- An allocation of the last six blocks, and a free of some of them. -/
def sampleSpaceOps (bno len : Nat) : List SpaceOp := [.alloc sampleAllocArgs, .free ⟨24, 6⟩ bno len]

theorem sampleSpaceOps_sound (bno len : Nat) :
    ∀ op ∈ sampleSpaceOps bno len, op.Sound sampleAgflState := by
  simp [sampleSpaceOps, SpaceOp.Sound, AllocArgs.FromBtrees, sampleAllocArgs]
  exact ⟨by decide, by decide, by decide, by decide, by decide, rfl⟩

/-- No sequence of allocations and frees fails, and none loses a block or hands one out twice. -/
theorem space_runs_conserve (env : AllocEnv) (sp : AgSpace) (held : List FreeRec) (fuel : Nat)
    (ops : List SpaceOp) (h : Counted env.group sp) (hone : AtMostOnce env.group (sp, held))
    (hops : ∀ op ∈ ops, op.Sound sp.agfl) (hfuel : 0 < fuel) :
    ∃ sp' held', spaceRun env fuel ops (sp, held) = .ok (sp', held') ∧ Counted env.group sp' ∧
      (∀ b, timesHeld sp'.bnobt b + timesHeld held' b = timesHeld sp.bnobt b + timesHeld held b) ∧
      AtMostOnce env.group (sp', held') ∧ (Gaps 1 sp.bnobt → Gaps 1 sp'.bnobt) := by
  obtain ⟨st, hrun, hst⟩ := spaceRun_spec ops h hone hops hfuel
  exact ⟨st.1, st.2, hrun, hst.counted, hst.times, fun b => hst.times b ▸ hone b, hst.gaps⟩

theorem space_runs_conserve_sample :
    ∃ sp' held', spaceRun sampleAllocEnv 1 (sampleSpaceOps 25 2) (sampleAgSpace sampleFree, []) =
      .ok (sp', held') ∧ Counted sampleGroup sp' := by
  obtain ⟨sp', held', hrun, hcounted, -⟩ := space_runs_conserve sampleAllocEnv _ [] 1 _
    sampleSpace_counted sampleSpace_once (sampleSpaceOps_sound 25 2) (by decide)
  exact ⟨sp', held', hrun, hcounted⟩

/-- Two sequences after which the caller has the same blocks leave the same btrees. -/
theorem space_runs_confluent (env : AllocEnv) (sp : AgSpace) (held : List FreeRec) (fuel : Nat)
    (ops ops' : List SpaceOp) (h : Counted env.group sp)
    (hone : AtMostOnce env.group (sp, held)) (hgaps : Gaps 1 sp.bnobt)
    (hops : ∀ op ∈ ops ++ ops', op.Sound sp.agfl) (hfuel : 0 < fuel) :
    ∃ st st', spaceRun env fuel ops (sp, held) = .ok st ∧
      spaceRun env fuel ops' (sp, held) = .ok st' ∧
      ((∀ b, timesHeld st.2 b = timesHeld st'.2 b) → st.1.bnobt = st'.1.bnobt ∧
        st.1.cntbt = st'.1.cntbt ∧ st.1.freeblks = st'.1.freeblks) := by
  obtain ⟨st, hrun, hst⟩ := spaceRun_spec ops h hone
    (fun op hop => hops op (mem_append_left _ hop)) hfuel
  obtain ⟨st', hrun', hst'⟩ := spaceRun_spec ops' h hone
    (fun op hop => hops op (mem_append_right _ hop)) hfuel
  refine ⟨st, st', hrun, hrun', fun hheld => ?_⟩
  obtain ⟨hbno, hcnt⟩ := Gaps.eq_of_timesHeld (hst.gaps hgaps) (hst'.gaps hgaps)
    hst.counted.index hst'.counted.index fun b => by
      have h1 := hst.times b
      have h2 := hst'.times b
      have h3 := hheld b
      omega
  exact ⟨hbno, hcnt, by rw [hst.counted.freeblks, hst'.counted.freeblks, hbno]⟩

theorem space_runs_confluent_sample :
    ∃ st, spaceRun sampleAllocEnv 1 (sampleSpaceOps 24 6) (sampleAgSpace sampleFree, []) = .ok st ∧
      st.1.bnobt = sampleFree := by
  obtain ⟨st, st', hrun, hrun', hsame⟩ := space_runs_confluent sampleAllocEnv _ [] 1
    (sampleSpaceOps 24 6) [] sampleSpace_counted sampleSpace_once
    (by simp [Gaps, sampleAgSpace, sampleFree]) (sampleSpaceOps_sound 24 6) (by decide)
  cases hrun'
  have hheld : (spaceRun sampleAllocEnv 1 (sampleSpaceOps 24 6) (sampleAgSpace sampleFree, [])).map
      Prod.snd = .ok [] := by rfl
  rw [hrun] at hheld
  exact ⟨st, hrun, (hsame fun b => congrArg (timesHeld · b) (Except.ok.inj hheld)).1⟩

end Xfs
