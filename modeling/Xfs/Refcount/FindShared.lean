import Xfs.Refcount.Split

/-! Finding the first run of shared blocks in a range: `xfs_refcount_find_shared`. -/
namespace Xfs

open RecordCursor Cursor

def refcountGetShared (g : Group) (cur : RefcCur) (found : Bool) : RefcM (Option RefcountIrec) := do
  if found = false then pure none else
  let r ← refcountGetRecFound g cur
  pure (if r.domain = .shared then some r else none)

def refcountFindSharedStart (g : Group) (cur : RefcCur) (agbno : Nat) :
    RefcM (RefcCur × Option RefcountIrec) := do
  let (cur, found) := refcountLookupLe cur .shared agbno
  -- no left extent, look at the next one
  let (cur, found) := if found then (cur, true) else cur.increment
  match ← refcountGetShared g cur found with
  | none => pure (cur, none)
  | some tmp =>
    if refcNext tmp ≤ agbno then
      let (cur, found) := cur.increment
      let next ← refcountGetShared g cur found
      pure (cur, next)
    else pure (cur, some tmp)

/-- Extend the run by the records that follow without a gap, a block at least each. -/
def refcountFindSharedEnd (g : Group) (stop fbno : Nat) :
    Nat → RefcCur → Nat → RefcM (RefcCur × Nat)
  | 0, cur, flen => pure (cur, flen)
  | fuel + 1, cur, flen => do
      if stop ≤ add32 fbno flen then pure (cur, flen) else
      let (cur, found) := cur.increment
      match ← refcountGetShared g cur found with
      | none => pure (cur, flen)
      | some tmp =>
        if stop ≤ tmp.startblock ∨ tmp.startblock ≠ add32 fbno flen then pure (cur, flen)
        else
          refcountFindSharedEnd g stop fbno fuel cur
            (min (add32 flen tmp.blockcount) (sub32 stop fbno))

/-- The lowest run of shared blocks in a range, as `fbno` and `flen`. -/
def refcountFindShared (g : Group) (cur : RefcCur) (agbno aglen : Nat) (findEndOfShared : Bool) :
    RefcM (RefcCur × Nat × Nat) := do
  let stop := add32 agbno aglen
  match ← refcountFindSharedStart g cur agbno with
  | (cur, none) => pure (cur, nullagblock, 0)
  | (cur, some tmp) =>
    if stop ≤ tmp.startblock then pure (cur, nullagblock, 0) else
    let tmp := if tmp.startblock < agbno then
        { tmp with
          startblock := agbno
          blockcount := sub32 tmp.blockcount (sub32 agbno tmp.startblock) }
      else tmp
    let fbno := tmp.startblock
    let flen := min tmp.blockcount (sub32 stop fbno)
    if findEndOfShared = false then pure (cur, fbno, flen) else
    let (cur, flen) ← refcountFindSharedEnd g stop fbno aglen cur flen
    pure (cur, fbno, flen)

variable {g : Group} {c : RefcCur} {r : RefcountIrec} {agbno aglen lo hi n flen : Nat}
  {recs : List RefcountIrec} {findEnd : Bool}

def SharedBlock (recs : List RefcountIrec) (b : Nat) : Prop :=
  ∃ r ∈ recs, r.domain = .shared ∧ r.Covers b

structure SharedRun (recs : List RefcountIrec) (lo hi : Nat) (findEnd : Bool) (fbno flen : Nat) :
    Prop where
  none : (∀ b, lo ≤ b → b < hi → ¬ SharedBlock recs b) → fbno = nullagblock ∧ flen = 0
  lowest : (∃ b, lo ≤ b ∧ b < hi ∧ SharedBlock recs b) → lo ≤ fbno ∧ fbno < hi ∧
    SharedBlock recs fbno ∧ ∀ b, lo ≤ b → b < fbno → ¬ SharedBlock recs b
  run : (∃ b, lo ≤ b ∧ b < hi ∧ SharedBlock recs b) → 0 < flen ∧ fbno + flen ≤ hi ∧
    ∀ b, fbno ≤ b → b < fbno + flen → SharedBlock recs b
  maximal : findEnd = true → (∃ b, lo ≤ b ∧ b < hi ∧ SharedBlock recs b) →
    fbno + flen = hi ∨ ¬ SharedBlock recs (fbno + flen)

theorem refcountGetShared_seek (hwf : RefcWF g .shared c.bt.recs) (hn : n < 2 ^ 31)
    (hs : Seek refcKey c.bt (refcountEncodeStartblock n .shared)) :
    ∃ o, refcountGetShared g c c.bt.rec?.isSome = .ok o ∧
      (o = none → ∀ s ∈ c.bt.recs, s.domain = .shared → s.startblock < n) ∧
      ∀ r, o = some r → c.bt.rec? = some r ∧ r.domain = .shared ∧ n ≤ r.startblock ∧
        ∀ s ∈ c.bt.recs, s.domain = .shared → n ≤ s.startblock → r.startblock ≤ s.startblock := by
  obtain ⟨hsome, hnone⟩ := seek_cases hwf hn hs
  refine ⟨inDomain .shared c.bt, ?_, hnone, fun r hr => ?_⟩
  · unfold refcountGetShared inDomain
    cases hr : c.bt.rec? with
    | none => rfl
    | some r => simp [refcountGetRecFound_eq hwf hr, Option.filter]
  · obtain ⟨hrec, hd⟩ := inDomain_some.mp hr
    exact ⟨hrec, hd, hsome r hr⟩

structure FirstAfter (recs : List RefcountIrec) (lo : Nat) (r : RefcountIrec) : Prop where
  shared : r.domain = .shared
  lt_end : lo < r.startblock + r.blockcount
  first : ∀ s ∈ recs, s.domain = .shared →
    s.startblock + s.blockcount ≤ lo ∨ r.startblock ≤ s.startblock

theorem refcountFindSharedStart_spec (hwf : RefcWF g .shared c.bt.recs) (hlo : lo < 2 ^ 31) :
    ∃ bt o, refcountFindSharedStart g c lo = .ok (c.setBt bt, o) ∧ bt.recs = c.bt.recs ∧
      (o = none → ∀ s ∈ c.bt.recs, s.domain = .shared → s.startblock + s.blockcount ≤ lo) ∧
      ∀ r, o = some r → bt.rec? = some r ∧ FirstAfter c.bt.recs lo r := by
  have hkey : ∀ s ∈ c.bt.recs, s.domain = .shared →
      (refcKey s ≤ refcountEncodeStartblock lo .shared ↔ s.startblock ≤ lo) := fun s hs hd =>
    (refcKey_cmp_encode hlo (by have := hwf.bounds hs; omega) hd).1
  obtain ⟨bt, hbt⟩ : ∃ bt, bt = (c.bt.lookupLE refcKey (refcountEncodeStartblock lo .shared)).1 :=
    ⟨_, rfl⟩
  have hrecs : bt.recs = c.bt.recs := by rw [hbt]; rfl
  have hlookup : refcountLookupLe c .shared lo = (c.setBt bt, bt.rec?.isSome) := by
    rw [hbt, ← lookupLE_snd]
    rfl
  have hwf' : RefcWF g .shared bt.recs := hrecs ▸ hwf
  have hnext : ∀ r, bt.increment.1.rec? = some r → r ∈ c.bt.recs := by
    intro r hr
    have hmem := mem_of_rec? hr
    rwa [increment_recs, hrecs] at hmem
  unfold refcountFindSharedStart
  rw [hlookup]
  cases hr : bt.rec? with
  | none =>
    rw [hbt] at hr
    obtain ⟨hptr, habove⟩ := lookupLE_rec?_none hr
    rw [← hbt] at hptr
    have hstart : ∀ s ∈ c.bt.recs, s.domain = .shared → lo < s.startblock := fun s hs hd =>
      not_le.mp fun hle => absurd ((hkey s hs hd).mpr hle) (not_le.mpr (habove s hs))
    have hseek : Seek refcKey bt.increment.1 (refcountEncodeStartblock lo .shared) :=
      seek_increment_zero hptr fun s hs => (habove s (hrecs ▸ hs)).le
    obtain ⟨o, hget, hnone, hsome⟩ := refcountGetShared_seek (c := c.setBt bt.increment.1) hwf'
      hlo hseek
    simp only [RefcCur.setBt_bt] at hget hnone hsome
    refine ⟨bt.increment.1, o, ?_, hrecs, fun ho s hs hd => ?_, fun r hro => ?_⟩
    · simp only [Option.isSome_none, Bool.false_eq_true, if_false, increment_setBt, hget, ok_bind, pure_eq_ok]
      cases o with
      | none => rfl
      | some tmp =>
        obtain ⟨hrec, hd, -⟩ := hsome tmp rfl
        have hend : refcNext tmp = tmp.startblock + tmp.blockcount :=
          refcNext_eq hwf (hnext tmp hrec)
        have := hstart tmp (hnext tmp hrec) hd
        simp only
        rw [if_neg (by omega)]
    · have h1 := hnone ho s (hrecs ▸ hs) hd
      have h2 := hstart s hs hd
      omega
    · obtain ⟨hrec, hd, -, hmin⟩ := hsome r hro
      have := hstart r (hnext r hrec) hd
      refine ⟨hrec, hd, by omega, fun s hs hsd => .inr ?_⟩
      exact hmin s (hrecs ▸ hs) hsd (hstart s hs hsd).le
  | some r =>
    have hfound := hr
    rw [hbt] at hfound
    obtain ⟨hmem, hle, hmax⟩ := lookupLE_rec?_some hwf.ordered hfound
    have hrb := hwf.bounds hmem
    have hd : r.domain = .shared := by
      -- the keys of the other domain are above all block numbers
      by_contra hd
      unfold refcKey refcountEncodeStartblock at hle
      cases hrd : r.domain with
      | shared => exact hd hrd
      | cow =>
        rw [hrd] at hle
        simp only at hle
        omega
    have hlast : ∀ s ∈ c.bt.recs, s.domain = .shared → s.startblock ≤ lo →
        s = r ∨ s.startblock + s.blockcount ≤ r.startblock := by
      intro s hs hsd hsle
      by_cases hsr : s = r
      · exact .inl hsr
      · refine .inr ((hwf.disjoint s hs r hmem hsd hd hsr).resolve_right fun hgt => ?_)
        have hlt : refcKey r < refcKey s :=
          (hwf.key_lt_iff hmem hs).mpr (.inr ⟨hd.trans hsd.symm, by omega⟩)
        exact absurd (hmax s hs ((hkey s hs hsd).mpr hsle)) (not_le.mpr hlt)
    have hget : refcountGetShared g (c.setBt bt) true = .ok (some r) := by
      simp [refcountGetShared, refcountGetRecFound_eq (c := c.setBt bt) hwf' hr, hd]
    have hend : refcNext r = r.startblock + r.blockcount := refcNext_eq hwf hmem
    simp only [Option.isSome_some, if_true, hget, bind, Except.bind, pure, Except.pure]
    by_cases hbefore : r.startblock + r.blockcount ≤ lo
    · have hseek := seek_increment_end hwf' hr hd
      obtain ⟨o, hget', hnone, hsome⟩ := refcountGetShared_seek (c := c.setBt bt.increment.1)
        hwf' (by omega) hseek
      simp only [RefcCur.setBt_bt] at hget' hnone hsome
      refine ⟨bt.increment.1, o, ?_, hrecs, fun ho s hs hsd => ?_, fun r' hro => ?_⟩
      · simp [hend, if_pos hbefore, increment_setBt, hget']
      · have hlt := hnone ho s (hrecs ▸ hs) hsd
        rcases hlast s hs hsd (by omega) with rfl | hle'
        · exact hbefore
        · omega
      · obtain ⟨hrec, hd', hge, hmin⟩ := hsome r' hro
        have hmem' := hnext r' hrec
        have hafter : lo < r'.startblock := by
          by_contra hnot
          rcases hlast r' hmem' hd' (not_lt.mp hnot) with rfl | hle'
          · omega
          · omega
        refine ⟨hrec, hd', by omega, fun s hs hsd => ?_⟩
        rcases lt_or_ge lo s.startblock with hgt | hsle
        · exact .inr (hmin s (hrecs ▸ hs) hsd (by omega))
        · rcases hlast s hs hsd hsle with rfl | hle'
          · exact .inl hbefore
          · exact .inl (by omega)
    · refine ⟨bt, some r, ?_, hrecs, (fun ho => by cases ho), fun r' hr' => ?_⟩
      · simp only [hend, if_neg hbefore]
      · obtain rfl := Option.some.inj hr'
        refine ⟨hr, hd, by omega, fun s hs hsd => ?_⟩
        rcases lt_or_ge lo s.startblock with hgt | hsle
        · have hstart := (hkey r hmem hd).mp hle
          exact .inr (by omega)
        · rcases hlast s hs hsd hsle with rfl | hle'
          · exact .inr le_rfl
          · have hstart := (hkey r hmem hd).mp hle
            exact .inl (by omega)

theorem refcountFindSharedEnd_spec (hwf : RefcWF g .shared c.bt.recs) {fbno fuel : Nat}
    {bt : Cursor RefcountIrec} (hrecs : bt.recs = c.bt.recs) (hr : bt.rec? = some r)
    (hd : r.domain = .shared) (hhi : hi < 2 ^ 31) (hpos : 0 < flen)
    (hreach : fbno + flen = min (r.startblock + r.blockcount) hi) (hfuel : hi ≤ fbno + flen + fuel) :
    ∃ bt' flen', refcountFindSharedEnd g hi fbno fuel (c.setBt bt) flen =
        .ok (c.setBt bt', flen') ∧ flen ≤ flen' ∧ fbno + flen' ≤ hi ∧
      (∀ b, fbno + flen ≤ b → b < fbno + flen' → SharedBlock c.bt.recs b) ∧
      (fbno + flen' = hi ∨ ¬ SharedBlock c.bt.recs (fbno + flen')) := by
  induction fuel generalizing r bt flen with
  | zero =>
    exact ⟨bt, flen, rfl, le_rfl, by omega, fun b h1 h2 => by omega, .inl (by omega)⟩
  | succ fuel ih =>
    have hmem : r ∈ c.bt.recs := hrecs ▸ mem_of_rec? hr
    have hwf' : RefcWF g .shared bt.recs := hrecs ▸ hwf
    have hsum : add32 fbno flen = fbno + flen := add32_eq (by omega)
    unfold refcountFindSharedEnd
    rw [hsum]
    by_cases hstop : hi ≤ fbno + flen
    · rw [if_pos hstop]
      exact ⟨bt, flen, rfl, le_rfl, by omega, fun b h1 h2 => by omega, .inl (by omega)⟩
    have hat : fbno + flen = r.startblock + r.blockcount := by omega
    obtain ⟨o, hget, hnone, hsome⟩ := refcountGetShared_seek (c := c.setBt bt.increment.1)
      hwf' (by omega) (seek_increment_end hwf' hr hd)
    simp only [RefcCur.setBt_bt] at hget hnone hsome
    -- the run ends here unless a record starts here
    have hends : (∀ s ∈ c.bt.recs, s.domain = .shared →
        s.startblock ≠ r.startblock + r.blockcount) →
        ¬ SharedBlock c.bt.recs (fbno + flen) := by
      rintro hstart ⟨s, hs, hsd, h1, h2⟩
      have hne : s ≠ r := fun he => by subst he; omega
      have := hstart s hs hsd
      rcases hwf.disjoint s hs r hmem hsd hd hne with hlt | hlt <;> omega
    rw [if_neg hstop]
    simp only [increment_setBt, hget, ok_bind]
    cases o with
    | none =>
      refine ⟨bt.increment.1, flen, rfl, le_rfl, by omega, fun b h1 h2 => by omega,
        .inr (hends fun s hs hsd heq => ?_)⟩
      have := hnone rfl s (hrecs ▸ hs) hsd
      omega
    | some tmp =>
      obtain ⟨hrec, hd', hge, hmin⟩ := hsome tmp rfl
      have hmem' : tmp ∈ c.bt.recs := by
        have hin := mem_of_rec? hrec
        rwa [increment_recs, hrecs] at hin
      have htb := hwf.bounds hmem'
      dsimp only
      by_cases hgap : hi ≤ tmp.startblock ∨ tmp.startblock ≠ fbno + flen
      · rw [if_pos hgap]
        refine ⟨bt.increment.1, flen, rfl, le_rfl, by omega, fun b h1 h2 => by omega,
          .inr (hends fun s hs hsd heq => ?_)⟩
        have := hmin s (hrecs ▸ hs) hsd (by omega)
        omega
      rw [if_neg hgap, add32_eq (by omega), sub32_eq (by omega) (by omega)]
      have hreach' : fbno + min (flen + tmp.blockcount) (hi - fbno) =
          min (tmp.startblock + tmp.blockcount) hi := by omega
      obtain ⟨bt', flen', hrun, hle, hin, hblocks, hmax⟩ :=
        ih (show bt.increment.1.recs = c.bt.recs from hrecs) hrec hd' (by omega) hreach' (by omega)
      refine ⟨bt', flen', hrun, by omega, hin, fun b h1 h2 => ?_, hmax⟩
      rcases lt_or_ge b (fbno + min (flen + tmp.blockcount) (hi - fbno)) with hlt | hge'
      · exact ⟨tmp, hmem', hd', by omega, by omega⟩
      · exact hblocks b hge' h2

theorem FirstAfter.sharedBlock (h : FirstAfter recs lo r) (hmem : r ∈ recs)
    (hpos : 0 < r.blockcount) : SharedBlock recs (max lo r.startblock) := by
  have := h.lt_end
  exact ⟨r, hmem, h.shared, by omega, by omega⟩

theorem FirstAfter.not_sharedBlock (h : FirstAfter recs lo r) {b : Nat} (hlo : lo ≤ b)
    (hb : b < max lo r.startblock) : ¬ SharedBlock recs b := by
  rintro ⟨s, hs, hsd, h1, h2⟩
  rcases h.first s hs hsd with hle | hle <;> omega

theorem sharedRun_null (h : ∀ b, lo ≤ b → b < hi → ¬ SharedBlock recs b) :
    SharedRun recs lo hi findEnd nullagblock 0 := by
  have hno : ¬ ∃ b, lo ≤ b ∧ b < hi ∧ SharedBlock recs b := fun ⟨b, h1, h2, hb⟩ => h b h1 h2 hb
  exact ⟨fun _ => ⟨rfl, rfl⟩, fun hex => absurd hex hno, fun hex => absurd hex hno,
    fun _ hex => absurd hex hno⟩

theorem FirstAfter.sharedRun (h : FirstAfter recs lo r) (hmem : r ∈ recs) (hpos : 0 < r.blockcount)
    (hhi : max lo r.startblock < hi) (hlen : 0 < flen) (hin : max lo r.startblock + flen ≤ hi)
    (hrun : ∀ b, max lo r.startblock ≤ b → b < max lo r.startblock + flen → SharedBlock recs b)
    (hmax : findEnd → max lo r.startblock + flen = hi ∨
      ¬ SharedBlock recs (max lo r.startblock + flen)) :
    SharedRun recs lo hi findEnd (max lo r.startblock) flen where
  none hno := absurd (h.sharedBlock hmem hpos) (hno _ (le_max_left ..) hhi)
  lowest _ := ⟨le_max_left .., hhi, h.sharedBlock hmem hpos, fun _ => h.not_sharedBlock⟩
  run _ := ⟨hlen, hin, hrun⟩
  maximal he _ := hmax he

/-- The search returns the lowest run of shared blocks of the range, whatever records of the
other domain there are. An empty range gives an empty run. -/
theorem refcount_find_shared_exact (hwf : RefcWF g .shared c.bt.recs)
    (hrange : agbno + aglen ≤ g.blockCount) (findEnd : Bool) :
    ∃ c' fbno flen, refcountFindShared g c agbno aglen findEnd = .ok (c', fbno, flen) ∧
      (0 < aglen → SharedRun c.bt.recs agbno (agbno + aglen) findEnd fbno flen) ∧
      (aglen = 0 → flen = 0) := by
  have hg := g.blockCount_lt
  obtain ⟨bt, o, hstart, hrecs, hnone, hsome⟩ :=
    refcountFindSharedStart_spec hwf (show agbno < 2 ^ 31 by omega)
  unfold refcountFindShared
  simp only [hstart, add32_eq (show agbno + aglen < 2 ^ 32 by omega), ok_bind]
  cases o with
  | none =>
    refine ⟨_, _, _, rfl, fun _ => sharedRun_null ?_, fun _ => rfl⟩
    rintro b h1 h2 ⟨s, hs, hsd, h3, h4⟩
    have := hnone rfl s hs hsd
    omega
  | some r =>
    obtain ⟨hrec, hfirst⟩ := hsome r rfl
    have hmem : r ∈ c.bt.recs := hrecs ▸ mem_of_rec? hrec
    have hrb := hwf.bounds hmem
    have hend := hfirst.lt_end
    by_cases hpast : agbno + aglen ≤ r.startblock
    · simp only [if_pos hpast]
      refine ⟨_, _, _, rfl, fun _ => sharedRun_null fun b h1 h2 => ?_, fun _ => rfl⟩
      exact hfirst.not_sharedBlock h1 (by omega)
    -- the record, cut off at the start of the range
    have hcut : (if r.startblock < agbno then
          { r with
            startblock := agbno
            blockcount := sub32 r.blockcount (sub32 agbno r.startblock) }
        else r) =
        { r with
          startblock := max agbno r.startblock
          blockcount := r.startblock + r.blockcount - max agbno r.startblock } := by
      by_cases hlt : r.startblock < agbno
      · rw [if_pos hlt, max_eq_left hlt.le, sub32_eq hlt.le (by omega),
          sub32_eq (by omega) (by omega)]
        congr 1
        omega
      · rw [if_neg hlt, max_eq_right (by omega), Nat.add_sub_cancel_left]
    simp only [if_neg hpast, hcut]
    rw [sub32_eq (show max agbno r.startblock ≤ agbno + aglen by omega) (by omega)]
    obtain ⟨fbno, hfbno⟩ : ∃ fbno, fbno = max agbno r.startblock := ⟨_, rfl⟩
    obtain ⟨flen, hflen⟩ : ∃ flen, flen =
        min (r.startblock + r.blockcount - fbno) (agbno + aglen - fbno) := ⟨_, rfl⟩
    have hshared : ∀ b, fbno ≤ b → b < fbno + flen → SharedBlock c.bt.recs b := fun b h1 h2 =>
      ⟨r, hmem, hfirst.shared, by omega, by omega⟩
    rw [← hfbno, ← hflen]
    cases findEnd with
    | false =>
      refine ⟨_, _, _, rfl, fun hpos => ?_, fun hz => by omega⟩
      rw [hfbno] at hshared ⊢
      exact hfirst.sharedRun hmem (by omega) (by omega) (by omega) (by omega) hshared
        (fun he => by cases he)
    | true =>
      rcases Nat.eq_zero_or_pos aglen with hz | hpos
      · subst hz
        exact ⟨_, _, _, rfl, fun hpos => absurd hpos (lt_irrefl 0), fun _ => by omega⟩
      have hreach : fbno + flen = min (r.startblock + r.blockcount) (agbno + aglen) := by
        omega
      have hfuel : agbno + aglen ≤ fbno + flen + aglen := by omega
      obtain ⟨bt', flen', hrun, hle, hin, hblocks, hmax⟩ :=
        refcountFindSharedEnd_spec hwf hrecs hrec hfirst.shared (by omega) (by omega) hreach hfuel
      simp only [hrun, Bool.true_eq_false, if_false]
      refine ⟨_, _, _, rfl, fun _ => ?_, fun hz => by omega⟩
      have hall : ∀ b, fbno ≤ b → b < fbno + flen' → SharedBlock c.bt.recs b := by
        intro b h1 h2
        rcases lt_or_ge b (fbno + flen) with hlt | hge
        · exact hshared b h1 hlt
        · exact hblocks b hge h2
      rw [hfbno] at hall hin hmax ⊢
      exact hfirst.sharedRun hmem (by omega) (by omega) (by omega) hin hall (fun _ => hmax)

def abuttingRecs : List RefcountIrec :=
  [⟨8, 4, 2, .shared⟩, ⟨12, 6, 3, .shared⟩, ⟨18, 5, 1, .cow⟩]

theorem refcount_find_shared_exact_sample : ∃ c' fbno flen,
      refcountFindShared sampleGroup ⟨⟨abuttingRecs, 0⟩, 0, 0, 0, []⟩ 6 20 true =
        .ok (c', fbno, flen) ∧
      (0 < 20 → SharedRun abuttingRecs 6 (6 + 20) true fbno flen) ∧ (20 = 0 → flen = 0) :=
  refcount_find_shared_exact (c := ⟨⟨abuttingRecs, 0⟩, 0, 0, 0, []⟩)
    ⟨by unfold Ordered; decide, by decide, by decide⟩ (by decide) true

end Xfs
