import Mathlib.Order.Bounds.Defs
import Xfs.Alloc.AgflSpec
import Xfs.Alloc.FreeIndex

/-! Allocation by size finds the longest aligned extent. -/
namespace Xfs

open Nat RecordCursor Cursor

variable {env : AllocEnv} {sp : AgSpace} {args : AllocArgs} {g : Group} {f s : FreeRec}
  {bnobt cntbt : List FreeRec} {a fuel : Nat} {cnt : Cursor FreeRec} {best : SizeFound}

def alignedLen (a : Nat) (f : FreeRec) : Nat := f.bno + f.len - (f.bno + (a - 1)) / a * a

theorem alignedLen_le (ha : 0 < a) : alignedLen a f ≤ f.len := by
  have hdiv := div_add_mod (f.bno + (a - 1)) a
  have hmod := mod_lt (f.bno + (a - 1)) ha
  rw [mul_comm] at hdiv
  unfold alignedLen
  omega

theorem le_alignedLen_iff {n : Nat} (ha : 0 < a) (hn : 0 < n) :
    n ≤ alignedLen a f ↔ ∃ x, RunFits n a f.bno f.len x := by
  have hdiv := div_add_mod (f.bno + (a - 1)) a
  have hmod := mod_lt (f.bno + (a - 1)) ha
  have hdvd : a ∣ (f.bno + (a - 1)) / a * a := dvd_mul_left _ _
  rw [mul_comm] at hdiv
  unfold alignedLen
  constructor
  · intro hle
    exact ⟨_, hdvd, by omega, by omega⟩
  · rintro ⟨x, hx, hlo, hhi⟩
    rcases lt_or_ge x ((f.bno + (a - 1)) / a * a) with hlt | hge
    · have := add_le_of_dvd_lt hx hdvd hlt
      omega
    · omega

/-- The requests whose sums do not wrap around. -/
structure AllocArgs.Sound (args : AllocArgs) : Prop where
  minlen_pos : 1 ≤ args.minlen
  minlen_le : args.minlen ≤ args.maxlen
  alignment_pos : 1 ≤ args.alignment
  sum_le : args.maxlen + args.alignment ≤ 2 ^ 32
  mod_lt : 1 < args.prod → args.mod < args.prod
  minAgbno : args.minAgbno = 0

structure AlignedPart (args : AllocArgs) (f : FreeRec) (rbno rlen : Nat) : Prop where
  le_len : rlen ≤ f.len
  le_bno : 0 < rlen → f.bno ≤ rbno
  ends : 0 < rlen → rbno + rlen = f.bno + f.len
  alignedLen_le : alignedLen args.alignment f ≤ rlen
  aligned : args.minlen ≤ f.len → args.alignment ∣ rbno ∧ rlen = alignedLen args.alignment f

/-- A sum that wraps around rounds to zero, from where nothing of the extent is left. -/
theorem roundup32_wraps {x : Nat} (hx : x < 2 ^ 31) (ha : a < 2 ^ 32) (hwrap : 2 ^ 32 < x + a) :
    roundup32 x a = 0 := by
  rw [roundup32, add32, mod_eq_sub_mod (by omega), mod_eq_of_lt (by omega),
    Nat.div_eq_of_lt (by omega), Nat.zero_mul]

theorem alignedLen_wraps (hmax : f.bno + f.len < 2 ^ 31) (ha : a < 2 ^ 32)
    (hwrap : 2 ^ 32 < f.bno + a) : alignedLen a f = 0 := by
  have hdiv : 1 ≤ (f.bno + (a - 1)) / a := (Nat.one_le_div_iff (by omega)).mpr (by omega)
  have hge := Nat.mul_le_mul_right a hdiv
  unfold alignedLen
  omega

theorem alignedPart_of_mem (h : FreeIndex g bnobt cntbt) (hargs : args.Sound) (hf : f ∈ bnobt) :
    AlignedPart args f (allocComputeAligned args f).1 (allocComputeAligned args f).2 := by
  have hmax := h.lt_max hf
  have hpos := hargs.alignment_pos
  have hmin := hargs.minlen_pos
  have hminlen := hargs.minlen_le
  have hsum := hargs.sum_le
  have hnone : ¬ (f.bno < args.minAgbno ∧ args.minAgbno < add32 f.bno f.len) := by
    rw [hargs.minAgbno]
    omega
  simp only [allocComputeAligned, if_neg hnone]
  by_cases hcase : 1 < args.alignment ∧ args.minlen ≤ f.len
  · rw [if_pos hcase]
    by_cases hwrap : 2 ^ 32 < f.bno + args.alignment
    · have hdiff : f.len ≤ sub32 0 f.bno := by
        unfold sub32
        omega
      have hzero := alignedLen_wraps hmax (by omega) hwrap
      rw [roundup32_wraps (by omega) (by omega) hwrap, if_pos hdiff]
      exact ⟨by omega, by omega, by omega, by omega, fun _ => ⟨dvd_zero _, hzero.symm⟩⟩
    obtain ⟨hdvd, hle, hlt⟩ := roundup32_spec (x := f.bno) hpos (by omega)
    have hlen : alignedLen args.alignment f = f.bno + f.len - roundup32 f.bno args.alignment := by
      rw [alignedLen, roundup32, add32_eq (by omega)]
    rw [sub32_eq hle (by omega)]
    generalize roundup32 f.bno args.alignment = up at *
    have hrest : (if f.len ≤ up - f.bno then 0 else sub32 f.len (up - f.bno)) =
        f.bno + f.len - up := by
      split_ifs with hshort
      · omega
      · rw [sub32_eq (by omega) (by omega)]
        omega
    simp only [hrest]
    exact ⟨by omega, fun _ => hle, by omega, by omega, fun _ => ⟨hdvd, hlen.symm⟩⟩
  · rw [if_neg hcase]
    refine ⟨le_rfl, fun _ => le_rfl, fun _ => rfl, alignedLen_le hpos, fun hmin => ?_⟩
    have hone : args.alignment = 1 := by omega
    exact ⟨hone ▸ one_dvd _, by rw [hone, alignedLen]; omega⟩

theorem sizeInside_of_mem (h : FreeIndex g bnobt cntbt) (hargs : args.Sound) (hf : f ∈ bnobt)
    (n : Nat) : sizeInside f (allocComputeAligned args f).1
      (min n (allocComputeAligned args f).2) := by
  have hpart := alignedPart_of_mem h hargs hf
  have hmax := h.lt_max hf
  rcases Nat.eq_zero_or_pos (min n (allocComputeAligned args f).2) with hzero | hpos
  · simp [sizeInside, hzero]
  · have hle := hpart.le_len
    have hends := hpart.ends (by omega)
    rw [sizeInside, add32_eq (by omega), add32_eq (by omega)]
    simp only [Bool.or_eq_true, Bool.and_eq_true, decide_eq_true_eq]
    omega

/-- A place for the allocation: a free extent with its aligned part, cut off at `maxlen`. -/
structure Candidate (args : AllocArgs) (cntbt : List FreeRec) (x : SizeFound) : Prop where
  recs : x.cnt.recs = cntbt
  mem : x.f ∈ cntbt
  rbno : x.rbno = (allocComputeAligned args x.f).1
  rlen : x.rlen = min args.maxlen (allocComputeAligned args x.f).2

/-- No extent has a longer aligned part. -/
def LongestPart (args : AllocArgs) (cntbt : List FreeRec) (rlen : Nat) : Prop :=
  ∀ s ∈ cntbt, min args.maxlen (allocComputeAligned args s).2 ≤ rlen

theorem len_le_of_cntKey_le (hle : cntKey s ≤ cntKey f) : s.len ≤ f.len := by
  rcases lt_or_eq_of_le hle with hlt | heq
  · rcases cntKey_lt.mp hlt with hlt | ⟨heq, -⟩ <;> omega
  · rw [cntKey_inj.mp heq]

section

variable (h : FreeIndex g bnobt cntbt) (hargs : args.Sound)
include h hargs

theorem part_le_of_cntKey_le (hs : s ∈ cntbt) (hle : cntKey s ≤ cntKey f) :
    (allocComputeAligned args s).2 ≤ f.len :=
  (alignedPart_of_mem h hargs ((h.same s).mp hs)).le_len.trans (len_le_of_cntKey_le hle)

theorem sizeLeftLoop_spec {r : FreeRec} (hrecs : cnt.recs = cntbt) (hr : cnt.rec? = some r)
    (hfuel : cnt.ptr ≤ fuel) (hbest : Candidate args cntbt best)
    (hseen : ∀ s ∈ cntbt, cntKey r ≤ cntKey s → min args.maxlen (allocComputeAligned args s).2 ≤ best.rlen) :
    ∃ best', sizeLeftLoop g args fuel cnt best = .ok best' ∧ Candidate args cntbt best' ∧
      LongestPart args cntbt best'.rlen := by
  induction fuel generalizing cnt best r with
  | zero =>
    rw [rec?_eq_none_iff.mpr (.inl (by omega))] at hr
    cases hr
  | succ fuel ih =>
    have ho : Ordered cntKey cnt.recs := hrecs ▸ h.cnt_ordered
    have hmore := decrement_snd cnt
    have hrecs' : cnt.decrement.1.recs = cntbt := hrecs
    have hptr : cnt.decrement.1.ptr = cnt.ptr - 1 := rfl
    have hpos : cnt.ptr ≠ 0 := (isSome_rec?_iff.mp (by rw [hr]; rfl)).1
    cases hdec : cnt.decrement.1.rec? with
    | none =>
      have hall := decrement_rec?_none ho hr hdec
      rw [hdec] at hmore
      rw [sizeLeftLoop, show cnt.decrement = (cnt.decrement.1, false) from Prod.ext rfl hmore]
      exact ⟨best, rfl, hbest, fun s hs => hseen s hs (hall s (hrecs ▸ hs))⟩
    | some f =>
      obtain ⟨hf, hlt, hall⟩ := decrement_rec?_some ho hr hdec
      rw [hrecs] at hf hall
      rw [hdec] at hmore
      have hget := h.allocGetRec hrecs' hdec
      rw [sizeLeftLoop, show cnt.decrement = (cnt.decrement.1, true) from Prod.ext rfl hmore]
      simp only [Bool.true_eq_false, if_false, hget, ok_bind]
      by_cases hshort : f.len ≤ best.rlen
      · -- what is left is not longer than `f`
        rw [if_pos hshort]
        refine ⟨best, rfl, hbest, fun s hs => ?_⟩
        rcases lt_or_ge (cntKey s) (cntKey r) with hsr | hsr
        · have := part_le_of_cntKey_le h hargs hs (hall s hs hsr)
          omega
        · exact hseen s hs hsr
      · have hin := sizeInside_of_mem h hargs ((h.same f).mp hf) args.maxlen
        have hcand : Candidate args cntbt ⟨cnt.decrement.1, f, (allocComputeAligned args f).1,
            min args.maxlen (allocComputeAligned args f).2⟩ := ⟨hrecs', hf, rfl, rfl⟩
        rw [if_neg hshort, hin]
        split_ifs with hbetter hfull
        · refine ⟨_, rfl, hcand, fun s hs => ?_⟩
          exact (min_le_left _ _).trans (le_of_eq hfull.symm)
        · refine ih hrecs' hdec (by omega) hcand fun s hs hfs => ?_
          rcases lt_or_ge (cntKey s) (cntKey r) with hsr | hsr
          · rw [cntKey_inj.mp (le_antisymm (hall s hs hsr) hfs)]
          · exact (hseen s hs hsr).trans (le_of_lt hbetter)
        · refine ih hrecs' hdec (by omega) hbest fun s hs hfs => ?_
          rcases lt_or_ge (cntKey s) (cntKey r) with hsr | hsr
          · rw [cntKey_inj.mp (le_antisymm (hall s hs hsr) hfs)]
            exact Nat.le_of_not_lt hbetter
          · exact hseen s hs hsr

theorem sizeBest_spec (hrecs : cnt.recs = cntbt) (hrec : cnt.rec? = some f)
    (hseen : ∀ s ∈ cntbt, cntKey f ≤ cntKey s → min args.maxlen (allocComputeAligned args s).2 ≤
      min args.maxlen (allocComputeAligned args f).2) :
    ∃ best, sizeBest g args
        ⟨cnt, f, (allocComputeAligned args f).1, (allocComputeAligned args f).2⟩ = .ok best ∧
      Candidate args cntbt best ∧ LongestPart args cntbt best.rlen ∧
      best.cnt.rec? = some best.f := by
  have hmem : f ∈ cntbt := hrecs ▸ mem_of_rec? hrec
  have hin := sizeInside_of_mem h hargs ((h.same _).mp hmem) args.maxlen
  have hfirst : Candidate args cntbt ⟨cnt, f, (allocComputeAligned args f).1,
      min args.maxlen (allocComputeAligned args f).2⟩ := ⟨hrecs, hmem, rfl, rfl⟩
  simp only [sizeBest]
  rw [hin]
  split_ifs with hless
  · obtain ⟨best, hrun, hbest, hlongest⟩ := sizeLeftLoop_spec h hargs hrecs hrec (le_rfl)
      hfirst hseen
    obtain ⟨cnt, hlook, hcnt, hcntrec⟩ := allocLookupPresent_spec
      (hbest.recs ▸ h.cnt_ordered) (hbest.recs ▸ hbest.mem)
    rw [hrun, ok_bind, hlook]
    exact ⟨_, rfl, ⟨hcnt.trans hbest.recs, hbest.mem, hbest.rbno, hbest.rlen⟩, hlongest, hcntrec⟩
  · refine ⟨_, rfl, hfirst, fun s hs => ?_, hrec⟩
    simp only
    omega

end

theorem int32_eq {x : Nat} (h : x < 2 ^ 31) : int32 x = x := if_pos h

theorem allocFixLen_bounds (args : AllocArgs) (hmin : args.minlen ≤ args.len) (hlt : args.len < 2 ^ 31)
    (hmod : 1 < args.prod → args.mod < args.prod) :
    args.minlen ≤ allocFixLen args ∧ allocFixLen args ≤ args.len := by
  simp only [allocFixLen]
  split_ifs with hskip hk hgt hsmall hsmall
  · exact ⟨hmin, le_rfl⟩
  · exact ⟨hmin, le_rfl⟩
  · exact ⟨hmin, le_rfl⟩
  · have hkle := mod_le args.len args.prod
    rw [sub32_eq (by omega) (by omega)] at hsmall ⊢
    rw [int32_eq (by omega), int32_eq (by omega)] at hsmall
    omega
  · exact ⟨hmin, le_rfl⟩
  · -- the remainder is below `mod`, so there is a whole `prod` to take away
    have hge : args.prod ≤ args.len := by
      by_contra hlt'
      rw [mod_eq_of_lt (by omega)] at hk hgt
      omega
    generalize args.len % args.prod = k at *
    rw [sub32_eq hge (by omega), add32_eq (by omega)] at hsmall ⊢
    rw [int32_eq (by omega), int32_eq (by omega)] at hsmall
    omega

def alignedLens (args : AllocArgs) (recs : List FreeRec) : Set Nat :=
  {n | ∃ r ∈ recs, n = min args.maxlen (alignedLen args.alignment r)}

structure SizeTaken (env : AllocEnv) (sp : AgSpace) (args : AllocArgs) (f : FreeRec)
    (sp' : AgSpace) (args' : AllocArgs) : Prop where
  mem : f ∈ sp.bnobt
  fits : RunFits args'.len args.alignment f.bno f.len args'.agbno
  minlen_le : args.minlen ≤ args'.len
  le_maxlen : args'.len ≤ args.maxlen
  longest : ∃ rlen, IsGreatest (alignedLens args sp.bnobt) rlen ∧
    args'.len = allocFixLen { args with len := rlen }
  index : FreeIndex env.group sp'.bnobt sp'.cntbt
  taken : TakenFrom f args'.agbno args'.len sp.bnobt sp'.bnobt
  start : args.alignment = 1 → args'.agbno = f.bno
  freeblks : sp'.freeblks = sp.freeblks ∧ sp'.pagfFreeblks = sp.pagfFreeblks
  agfl : sp'.agfl = sp.agfl

/-- Some free extent has room for an aligned run of `minlen` blocks. -/
def HasRoom (args : AllocArgs) (recs : List FreeRec) : Prop :=
  ∃ f ∈ recs, ∃ x, RunFits args.minlen args.alignment f.bno f.len x

theorem Candidate.greatest {x : SizeFound} (h : FreeIndex g bnobt cntbt) (hargs : args.Sound)
    (hx : Candidate args cntbt x) (hlongest : LongestPart args cntbt x.rlen) :
    (x.rlen < args.minlen → ¬ HasRoom args bnobt) ∧
      (args.minlen ≤ x.rlen → IsGreatest (alignedLens args bnobt) x.rlen ∧
        args.alignment ∣ x.rbno ∧ x.rbno + x.rlen ≤ x.f.bno + x.f.len) := by
  have hle : ∀ s ∈ bnobt, min args.maxlen (alignedLen args.alignment s) ≤ x.rlen := by
    intro s hs
    have hpart := (alignedPart_of_mem h hargs hs).alignedLen_le
    have := hlongest s ((h.same s).mpr hs)
    omega
  have hf := (h.same _).mp hx.mem
  have hpart := alignedPart_of_mem h hargs hf
  rw [← hx.rbno] at hpart
  have hrlen := hx.rlen
  have hminlen := hargs.minlen_le
  have hpos := hargs.minlen_pos
  constructor
  · rintro hshort ⟨s, hs, hrun⟩
    have hs' := (le_alignedLen_iff hargs.alignment_pos hpos).mpr hrun
    have := hle s hs
    omega
  · intro hlong
    have hflen := hpart.le_len
    obtain ⟨hdvd, heq⟩ := hpart.aligned (by omega)
    have hends := hpart.ends (by omega)
    refine ⟨⟨⟨x.f, hf, by rw [hrlen, heq]⟩, ?_⟩, hdvd, by omega⟩
    rintro n ⟨s, hs, rfl⟩
    exact hle s hs

theorem sizeAllocate_spec (h : FreeIndex env.group sp.bnobt sp.cntbt) (hargs : args.Sound)
    (hbest : Candidate args sp.cntbt best) (hlongest : LongestPart args sp.cntbt best.rlen)
    (hrec : best.cnt.rec? = some best.f) :
    ∃ sp' args', sizeAllocate env sp args best = .ok (sp', args') ∧
      (HasRoom args sp.bnobt ∧ SizeTaken env sp args best.f sp' args' ∨
        ¬ HasRoom args sp.bnobt ∧ sp' = sp ∧ args'.agbno = nullagblock) := by
  obtain ⟨hnone, hsome⟩ := hbest.greatest h hargs hlongest
  simp only [sizeAllocate]
  by_cases hshort : best.rlen < args.minlen
  · rw [if_pos hshort]
    exact ⟨_, _, rfl, .inr ⟨hnone hshort, rfl, rfl⟩⟩
  have hlong : args.minlen ≤ best.rlen := by omega
  obtain ⟨hgreatest, hdvd, hend⟩ := hsome hlong
  have hf := (h.same _).mp hbest.mem
  have hmax := h.lt_max hf
  have hpart := alignedPart_of_mem h hargs hf
  rw [← hbest.rbno] at hpart
  have hrlen := hbest.rlen
  have hinside := h.inside _ hf
  have hpos := hargs.minlen_pos
  have hle := hpart.le_bno (by omega)
  obtain ⟨hfix1, hfix2⟩ := allocFixLen_bounds { args with len := best.rlen } hlong
    (show best.rlen < 2 ^ 31 by omega) hargs.mod_lt
  have hfix : allocFixLen { args with wasfromfl := false, len := best.rlen } =
      allocFixLen { args with len := best.rlen } := rfl
  simp only at hfix1 hfix2
  have hfits : decide (allocFixLen { args with len := best.rlen } ≤ best.f.len) :=
    decide_eq_true (by omega)
  obtain ⟨sp', hfixup, hindex, htaken, hfree, hpagf, hagfl⟩ := allocFixupTrees_spec best.cnt
    ⟨sp.bnobt, 0⟩ best.rbno (allocFixLen { args with len := best.rlen }) true false h hbest.recs
    rfl hf (fun _ => hrec) (fun hfalse => by cases hfalse) (by omega) hle (by omega)
  have hagf : decide (add32 best.rbno (allocFixLen { args with len := best.rlen }) ≤
      env.group.blockCount) := by
    rw [add32_eq (by omega)]
    exact decide_eq_true (by omega)
  rw [if_neg hshort, hfix, hfits]
  simp only [corruptUnless, if_true, ok_bind, hfixup, hagf]
  refine ⟨sp', _, rfl, .inl ⟨?_, hf, ⟨hdvd, hle, ?_⟩, hfix1, ?_, ⟨_, hgreatest, rfl⟩, hindex,
    htaken, fun hone => ?_, ⟨hfree, hpagf⟩, hagfl⟩⟩
  · exact ⟨best.f, hf, best.rbno, hdvd, hle, by omega⟩
  · show best.rbno + allocFixLen { args with len := best.rlen } ≤ _
    omega
  · show allocFixLen { args with len := best.rlen } ≤ _
    omega
  · obtain ⟨-, hpartlen⟩ := hpart.aligned (by omega)
    have hends := hpart.ends (by omega)
    rw [hone, alignedLen] at hpartlen
    show best.rbno = _
    omega

theorem maxlen_le_part (h : FreeIndex g bnobt cntbt) (hargs : args.Sound) (hf : f ∈ bnobt)
    (hlen : args.maxlen + args.alignment - 1 ≤ f.len) :
    args.maxlen ≤ (allocComputeAligned args f).2 := by
  have hpos := hargs.alignment_pos
  have hmin := hargs.minlen_le
  obtain ⟨-, heq⟩ := (alignedPart_of_mem h hargs hf).aligned (by omega)
  have hdiv := div_add_mod (f.bno + (args.alignment - 1)) args.alignment
  rw [mul_comm] at hdiv
  rw [heq, alignedLen]
  omega

theorem sizeLargeLoop_spec (h : FreeIndex g bnobt cntbt) (hargs : args.Sound)
    (hrecs : cnt.recs = cntbt) (hrec : cnt.rec? = some f)
    (hlen : args.maxlen + args.alignment - 1 ≤ f.len) :
    sizeLargeLoop g args (fuel + 1) cnt =
      .ok (some ⟨cnt, f, (allocComputeAligned args f).1, (allocComputeAligned args f).2⟩) := by
  have hf : f ∈ bnobt := (h.same f).mp (hrecs ▸ mem_of_rec? hrec)
  rw [sizeLargeLoop, h.allocGetRec hrecs hrec, ok_bind]
  exact if_pos (maxlen_le_part h hargs hf hlen)

theorem allocAgVextentSmall_spec (h : FreeIndex env.group sp.bnobt sp.cntbt) {k : Nat ×ₗ Nat} (hrecs : cnt.recs = sp.cntbt) (hseek : Seek cntKey cnt k)
    (hend : cnt.rec? = none)
    (hfl : sp.cntbt = [] → args.minlen ≠ 1 ∨ args.alignment ≠ 1 ∨ args.resv = .agfl ∨
      sp.agfl.flcount ≤ args.minleft) (hpos : 1 ≤ args.minlen) :
    (∃ f, cnt.decrement.1.rec? = some f ∧ args.minlen ≤ f.len ∧
      (∀ s ∈ sp.cntbt, cntKey s ≤ cntKey f) ∧
      allocAgVextentSmall env sp args cnt = .ok ⟨sp, args, cnt.decrement.1, f, true⟩) ∨
    ((∀ s ∈ sp.cntbt, s.len < args.minlen) ∧ ∃ bno, allocAgVextentSmall env sp args cnt =
      .ok ⟨sp, { args with agbno := nullagblock }, cnt.decrement.1, ⟨bno, 0⟩, true⟩) := by
  have hmore := decrement_snd cnt
  have ho : Ordered cntKey cnt.recs := hrecs ▸ h.cnt_ordered
  obtain ⟨hlast, hempty⟩ := decrement_rec?_end ho hseek hend
  rw [hrecs] at hlast hempty
  have hrecs' : cnt.decrement.1.recs = sp.cntbt := hrecs
  cases hdec : cnt.decrement.1.rec? with
  | none =>
    have hnil := hempty hdec
    rw [hdec] at hmore
    rw [allocAgVextentSmall, show cnt.decrement = (cnt.decrement.1, false) from Prod.ext rfl hmore]
    simp only [Bool.false_eq_true, if_false, if_pos (hfl hnil),
      if_pos (show 0 < args.minlen from hpos)]
    exact .inr ⟨by simp [hnil], _, rfl⟩
  | some f =>
    obtain ⟨hf, hall⟩ := hlast f hdec
    rw [hdec] at hmore
    rw [allocAgVextentSmall, show cnt.decrement = (cnt.decrement.1, true) from Prod.ext rfl hmore]
    simp only [if_true, h.allocGetRec hrecs' hdec, ok_bind]
    by_cases hshort : f.len < args.minlen
    · rw [if_pos hshort]
      refine .inr ⟨fun s hs => ?_, f.bno, rfl⟩
      have := len_le_of_cntKey_le (hall s hs)
      omega
    · rw [if_neg hshort]
      exact .inl ⟨f, rfl, by omega, hall, rfl⟩

theorem allocAgVextentSize_spec (env : AllocEnv) (sp : AgSpace) (args : AllocArgs) (fuel : Nat)
    (h : FreeIndex env.group sp.bnobt sp.cntbt) (hargs : args.Sound) (hfuel : 0 < fuel)
    (hfl : sp.cntbt = [] → args.minlen ≠ 1 ∨ args.alignment ≠ 1 ∨ args.resv = .agfl ∨
      sp.agfl.flcount ≤ args.minleft) :
    ∃ sp' args', allocAgVextentSize env sp args fuel = .ok (some (sp', args')) ∧
      (HasRoom args sp.bnobt ∧ (∃ f, SizeTaken env sp args f sp' args') ∨
        ¬ HasRoom args sp.bnobt ∧ sp' = sp ∧ args'.agbno = nullagblock) := by
  obtain ⟨fuel, rfl⟩ := exists_eq_succ_of_ne_zero (ne_zero_of_lt hfuel)
  have hsum := hargs.sum_le
  have hpos := hargs.alignment_pos
  have hwant : sub32 (add32 args.maxlen args.alignment) 1 = args.maxlen + args.alignment - 1 := by
    unfold sub32 add32
    omega
  let look := Cursor.lookupGE cntKey (toLex (args.maxlen + args.alignment - 1, 0)) ⟨sp.cntbt, 0⟩
  have hrecs : look.1.recs = sp.cntbt := rfl
  have ho : Ordered cntKey look.1.recs := h.cnt_ordered
  have hfound : look.2 = look.1.rec?.isSome := lookupGE_snd _ _
  have hseek : Seek cntKey look.1 (toLex (args.maxlen + args.alignment - 1, 0)) :=
    seek_lookupGE _ _
  rw [allocAgVextentSize, hwant, show Cursor.lookupGE cntKey
    (toLex (args.maxlen + args.alignment - 1, 0)) ⟨sp.cntbt, 0⟩ = (look.1, look.2) from rfl, hfound]
  cases hrec : look.1.rec? with
  | some f =>
    obtain ⟨hf, hge, -⟩ := seek_rec?_some ho hseek hrec
    have hlen : args.maxlen + args.alignment - 1 ≤ f.len := by
      rcases Prod.Lex.toLex_le_toLex.mp hge with hlt | ⟨heq, -⟩
      · exact le_of_lt hlt
      · exact le_of_eq heq
    obtain ⟨n, hn⟩ := exists_eq_succ_of_ne_zero
      (ne_zero_of_lt (List.length_pos_of_mem (hrecs ▸ hf)))
    have hmax := maxlen_le_part h hargs ((h.same f).mp (hrecs ▸ hf)) hlen
    obtain ⟨best, hbest, hcand, hlongest, hbrec⟩ := sizeBest_spec h hargs hrecs hrec
      fun s _ _ => by omega
    obtain ⟨sp', args', hrun, hdone⟩ := sizeAllocate_spec h hargs hcand hlongest hbrec
    refine ⟨sp', args', ?_, ?_⟩
    · simp only [Option.isSome_some, Bool.true_eq_false, if_false, hn,
        sizeLargeLoop_spec h hargs hrecs hrec hlen, ok_bind, hbest, hrun]
      rfl
    · rcases hdone with ⟨hroom, htaken⟩ | hdone
      · exact .inl ⟨hroom, _, htaken⟩
      · exact .inr hdone
  | none =>
    have hmin := hargs.minlen_pos
    rcases allocAgVextentSmall_spec h hrecs hseek hrec hfl hmin with
      ⟨f, hdec, hlen, hall, hsmall⟩ | ⟨hshort, bno, hsmall⟩
    · have hrecs' : look.1.decrement.1.recs = sp.cntbt := hrecs
      obtain ⟨best, hbest, hcand, hlongest, hbrec⟩ := sizeBest_spec h hargs hrecs' hdec
        fun s hs hle => by rw [cntKey_inj.mp (le_antisymm (hall s hs) hle)]
      obtain ⟨sp', args', hrun, hdone⟩ := sizeAllocate_spec h hargs hcand hlongest hbrec
      refine ⟨sp', args', ?_, ?_⟩
      · simp only [Option.isSome_none, if_true, hsmall, ok_bind, Bool.true_eq_false, false_or,
          if_neg (show f.len ≠ 0 by omega), hbest, hrun]
        rfl
      · rcases hdone with ⟨hroom, htaken⟩ | hdone
        · exact .inl ⟨hroom, _, htaken⟩
        · exact .inr hdone
    · refine ⟨sp, { args with agbno := nullagblock }, ?_, .inr ⟨?_, rfl, rfl⟩⟩
      · simp only [Option.isSome_none, if_true, hsmall, ok_bind, or_true]
        rfl
      · rintro ⟨f, hf, x, -, hlo, hhi⟩
        have := hshort f ((h.same f).mpr hf)
        omega

/-- Allocation by size in full: if there is room, the extent lies in a free extent, is aligned and
has the greatest length there is, up to the fix of its length; otherwise there is no extent. -/
theorem size_allocation_longest (env : AllocEnv) (sp : AgSpace) (args : AllocArgs) (fuel : Nat)
    (h : FreeIndex env.group sp.bnobt sp.cntbt) (hargs : args.Sound) (hfuel : 0 < fuel)
    (hfl : sp.cntbt = [] → args.minlen ≠ 1 ∨ args.alignment ≠ 1 ∨ args.resv = .agfl ∨
      sp.agfl.flcount ≤ args.minleft) :
    ∃ sp' args', allocAgVextentSize env sp args fuel = .ok (some (sp', args')) ∧
      ((∃ f ∈ sp.bnobt, ∃ x, RunFits args.minlen args.alignment f.bno f.len x) →
        (∃ f ∈ sp.bnobt, RunFits args'.len args.alignment f.bno f.len args'.agbno) ∧
        args.minlen ≤ args'.len ∧ args'.len ≤ args.maxlen ∧
        ∃ rlen, IsGreatest (alignedLens args sp.bnobt) rlen ∧
          args'.len = allocFixLen { args with len := rlen }) ∧
      ((¬ ∃ f ∈ sp.bnobt, ∃ x, RunFits args.minlen args.alignment f.bno f.len x) →
        args'.agbno = nullagblock) := by
  obtain ⟨sp', args', hrun, hdone⟩ := allocAgVextentSize_spec env sp args fuel h hargs hfuel hfl
  refine ⟨sp', args', hrun, fun hroom => ?_, fun hnone => ?_⟩
  · rcases hdone with ⟨-, f, htaken⟩ | ⟨hnone, -⟩
    · exact ⟨⟨f, htaken.mem, htaken.fits⟩, htaken.minlen_le, htaken.le_maxlen, htaken.longest⟩
    · exact absurd hroom hnone
  · rcases hdone with ⟨hroom, -⟩ | ⟨-, -, hnull⟩
    · exact absurd hroom hnone
    · exact hnull

def sampleFree : List FreeRec := [⟨10, 5⟩, ⟨21, 9⟩]

def sampleAgSpace (recs : List FreeRec) : AgSpace := ⟨recs, recs, 14, 14, 9, 9, sampleAgflState⟩

def sampleAllocEnv : AllocEnv := ⟨sampleGroup, sampleAgflMount, fun _ => 0⟩

def sampleAllocArgs : AllocArgs := ⟨4, 8, 4, 0, 0, 0, 0, 1, 0, .none, false, 7, 0, false⟩

theorem sampleFree_index : FreeIndex sampleGroup sampleFree sampleFree := by
  refine ⟨?_, ?_, fun _ => Iff.rfl, by decide, by decide⟩
  · exact List.pairwise_pair.mpr (by decide)
  · exact List.pairwise_pair.mpr (cntKey_lt.mpr (by decide))

theorem size_allocation_longest_sample :
    ∃ sp' args', allocAgVextentSize sampleAllocEnv (sampleAgSpace sampleFree) sampleAllocArgs 1 =
        .ok (some (sp', args')) ∧
      (∃ f ∈ sampleFree, RunFits args'.len 4 f.bno f.len args'.agbno) ∧
      4 ≤ args'.len ∧ args'.len ≤ 8 := by
  obtain ⟨sp', args', hrun, hroom, -⟩ := size_allocation_longest sampleAllocEnv
    (sampleAgSpace sampleFree) sampleAllocArgs 1 sampleFree_index
    ⟨by decide, by decide, by decide, by decide, by decide, rfl⟩ (by decide)
    (fun hnil => by cases hnil)
  obtain ⟨hfits, hmin, hmax, -⟩ := hroom ⟨⟨21, 9⟩, by decide, 24, by decide, by decide, by decide⟩
  exact ⟨sp', args', hrun, hfits, hmin, hmax⟩

/-- Without records and with a `minlen` of zero the answer keeps the block it came with. -/
theorem size_allocation_minlen_zero : let args : AllocArgs := { sampleAllocArgs with minlen := 0 }
    allocAgVextentSize sampleAllocEnv (sampleAgSpace []) args 1 =
      .ok (some (sampleAgSpace [], args)) ∧ args.agbno ≠ nullagblock := by
  exact ⟨rfl, by decide⟩

def wideAllocArgs : AllocArgs := { sampleAllocArgs with maxlen := 2 ^ 32 - 1 }

theorem size_allocation_sum_wraps (fuel : Nat) :
    allocAgVextentSize sampleAllocEnv (sampleAgSpace sampleFree) wideAllocArgs fuel = .ok none := by
  induction fuel with
  | zero => rfl
  | succ fuel ih =>
    exact ih

/-- Blocks below `min_agbno` are passed over, even if there is room nowhere else. -/
theorem size_allocation_min_agbno :
    (∃ args', allocAgVextentSize sampleAllocEnv (sampleAgSpace sampleFree)
        { sampleAllocArgs with minAgbno := 28 } 1 = .ok (some (sampleAgSpace sampleFree, args')) ∧
      args'.agbno = nullagblock) ∧ ⟨21, 9⟩ ∈ sampleFree ∧ RunFits 4 4 21 9 24 := by
  exact ⟨⟨_, rfl, rfl⟩, by decide, by decide, by decide, by decide⟩

end Xfs
