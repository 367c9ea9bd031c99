import Mathlib.Algebra.BigOperators.Group.List.Basic
import Xfs.Alloc.Admission
import Xfs.Alloc.SizeSpec

/-! A group that admits an allocation has the space for it when its free list has been refilled. -/
namespace Xfs

open List RecordCursor FreeRec

variable {env : AdmitEnv} {sp : AgSpace} {g : Group} {f : FreeRec} {bnobt cntbt : List FreeRec}
  {rbno rlen : Nat}

def totalFree (recs : List FreeRec) : Nat := (recs.map len).sum

def leftoverList (f : FreeRec) (rbno rlen : Nat) : List FreeRec :=
  (if f.bno < rbno then [⟨f.bno, rbno - f.bno⟩] else []) ++
    if rbno + rlen < f.bno + f.len then [⟨rbno + rlen, f.bno + f.len - (rbno + rlen)⟩] else []

theorem mem_leftoverList {s : FreeRec} : s ∈ leftoverList f rbno rlen ↔ Leftover f rbno rlen s := by
  unfold leftoverList Leftover
  split_ifs with h1 h2 h2 <;> simp [h1, h2]

theorem leftoverList_nodup (hpos : 0 < rlen) : (leftoverList f rbno rlen).Nodup := by
  unfold leftoverList
  split_ifs <;> simp
  omega

theorem totalFree_leftoverList (hlo : f.bno ≤ rbno) (hhi : rbno + rlen ≤ f.bno + f.len) :
    totalFree (leftoverList f rbno rlen) + rlen = f.len := by
  unfold leftoverList totalFree
  split_ifs <;> simp <;> omega

section

variable {bnobt' cntbt' : List FreeRec} (h : FreeIndex g bnobt cntbt)
  (h' : FreeIndex g bnobt' cntbt') (hf : f ∈ bnobt) (hpos : 0 < rlen) (hlo : f.bno ≤ rbno)
  (hhi : rbno + rlen ≤ f.bno + f.len) (htaken : TakenFrom f rbno rlen bnobt bnobt')

include h h' hf hpos hlo hhi htaken

theorem TakenFrom.perm : bnobt'.Perm (leftoverList f rbno rlen ++ bnobt.erase f) := by
  have hnd := h.bno_ordered.nodup
  refine (perm_ext_iff_of_nodup h'.bno_ordered.nodup ?_).mpr fun s => ?_
  · refine List.Nodup.append (leftoverList_nodup hpos) (hnd.erase f) fun s hs hs' => ?_
    obtain ⟨hne, hs'⟩ := hnd.mem_erase_iff.mp hs'
    exact h.leftover_ne hf hpos hlo hhi hs' hne (mem_leftoverList.mp hs) rfl
  · rw [htaken s, mem_append, mem_leftoverList, hnd.mem_erase_iff, or_comm, and_comm]

theorem totalFree_taken : totalFree bnobt' + rlen = totalFree bnobt := by
  have hsum : totalFree bnobt' =
      totalFree (leftoverList f rbno rlen) + totalFree (bnobt.erase f) := by
    unfold totalFree
    rw [((TakenFrom.perm h h' hf hpos hlo hhi htaken).map len).sum_eq, map_append, sum_append]
  have herase : totalFree bnobt = f.len + totalFree (bnobt.erase f) := by
    unfold totalFree
    rw [((perm_cons_erase hf).map len).sum_eq, map_cons, sum_cons]
  have hleft := totalFree_leftoverList hlo hhi
  omega

end

theorem totalFree_le_of_ordered {lo hi : Nat} (ho : Ordered bnoKey bnobt)
    (hin : ∀ r ∈ bnobt, lo ≤ r.bno ∧ r.bno + r.len ≤ hi) (hle : lo ≤ hi)
    (hdis : ∀ r ∈ bnobt, ∀ s ∈ bnobt, r.bno < s.bno → r.bno + r.len ≤ s.bno) :
    totalFree bnobt ≤ hi - lo := by
  induction bnobt generalizing lo with
  | nil => exact Nat.zero_le _
  | cons r recs ih =>
    obtain ⟨hhead, htail⟩ := pairwise_cons.mp ho
    have hr := hin r mem_cons_self
    have hrest : totalFree recs ≤ hi - (r.bno + r.len) := by
      refine ih htail (fun s hs => ⟨?_, (hin s (mem_cons_of_mem _ hs)).2⟩) hr.2 ?_
      · exact hdis r mem_cons_self s (mem_cons_of_mem _ hs) (hhead s hs)
      · exact fun s hs t ht => hdis s (mem_cons_of_mem _ hs) t (mem_cons_of_mem _ ht)
    have hcons : totalFree (r :: recs) = r.len + totalFree recs := rfl
    omega

theorem FreeIndex.totalFree_le (h : FreeIndex g bnobt cntbt) : totalFree bnobt ≤ g.blockCount :=
  totalFree_le_of_ordered h.bno_ordered (fun r hr => ⟨Nat.zero_le _, (h.inside r hr).2.2⟩)
    (Nat.zero_le _) h.disjoint

theorem allocUpdateCounters_taken {sp' : AgSpace} {total : Nat} (h : FreeIndex g sp'.bnobt sp'.cntbt)
    (hfree : sp'.freeblks = total) (hpagf : sp'.pagfFreeblks = total)
    (htotal : totalFree sp'.bnobt + rlen = total) (hle : total ≤ g.blockCount) :
    allocUpdateCounters g sp' rlen = .ok
      { sp' with pagfFreeblks := totalFree sp'.bnobt, freeblks := totalFree sp'.bnobt } := by
  have hblocks := g.blockCount_lt
  have hsub : sub32 total rlen = totalFree sp'.bnobt := by
    rw [sub32_eq (by omega) (by omega)]
    omega
  simp only [allocUpdateCounters, hfree, hpagf, hsub]
  exact if_neg (by have := h.totalFree_le; omega)

theorem exists_mem_of_totalFree_pos (h : 0 < totalFree bnobt) : ∃ r ∈ bnobt, 0 < r.len := by
  by_contra hnone
  have hzero : totalFree bnobt = 0 := sum_eq_zero fun n hn => by
    obtain ⟨r, hr, rfl⟩ := mem_map.mp hn
    exact Nat.eq_zero_of_not_pos fun hpos => hnone ⟨r, hr, hpos⟩
  omega

variable {b pb fuel n : Nat} {agfl : AgflState} {q : AgflQueue} {need : Nat}

theorem AgflHolds.putBlocks {m : AgflMount} (len bno : Nat) (h : AgflHolds m b pb agfl q)
    (hroom : q.blocks.length + len ≤ agflSize m) :
    ∃ q', AgflHolds m b pb (putBlocks m len bno agfl) q' ∧
      q'.blocks.length = q.blocks.length + len := by
  induction len generalizing bno agfl q with
  | zero => exact ⟨q, h, rfl⟩
  | succ len ih =>
    have hlength : (q.blocks ++ [bno]).length = q.blocks.length + 1 := length_append
    obtain ⟨q', hq', hlen⟩ := ih (bno + 1) (h.put (by omega) bno false) (by simp only; omega)
    simp only at hlen
    exact ⟨q', hq', by omega⟩

theorem shrinkFreelist_spec (need : Nat) (h : AgflHolds env.agfl b pb agfl q)
    (hvalid : ∀ bno ∈ q.blocks, verifyGbno env.group bno) (hfuel : q.blocks.length ≤ fuel) :
    ∃ agfl' q', shrinkFreelist env need fuel agfl = .ok agfl' ∧ AgflHolds env.agfl b pb agfl' q' ∧
      q'.blocks.length = min q.blocks.length need := by
  induction fuel generalizing agfl q with
  | zero => exact ⟨agfl, q, rfl, h, by omega⟩
  | succ fuel ih =>
    rw [shrinkFreelist, h.pagfFlcount]
    split_ifs with hlong
    · obtain ⟨hget, hanswer⟩ := h.get (g := env.group) false
      obtain ⟨blocks, btreeblks⟩ := q
      cases blocks with
      | nil => exact absurd hlong (Nat.not_lt_zero _)
      | cons bno blocks =>
        simp only [AgflQueue.step, if_pos (hvalid bno mem_cons_self), List.cons.injEq,
          and_true] at hget hanswer
        obtain ⟨agfl', q', hrun, hq', hlen⟩ := ih hget
          (fun bno' hbno' => hvalid bno' (mem_cons_of_mem _ hbno'))
          (Nat.le_of_succ_le_succ hfuel)
        refine ⟨agfl', q', ?_, hq', ?_⟩
        · show (do let _ ← (allocGetFreelist env.agfl env.group agfl false).2; _) = _
          rw [hanswer]
          exact hrun
        · simp only [length_cons] at hlen hlong ⊢
          omega
    · exact ⟨agfl, q, rfl, h, by omega⟩

theorem shrinkUnless_spec (noshrink : Bool) (need : Nat) (h : AgflHolds env.agfl b pb agfl q)
    (hvalid : ∀ bno ∈ q.blocks, verifyGbno env.group bno) :
    ∃ agfl' q', shrinkUnless env noshrink need agfl = .ok agfl' ∧ AgflHolds env.agfl b pb agfl' q' ∧
      need - q'.blocks.length = need - q.blocks.length := by
  cases noshrink with
  | true => exact ⟨agfl, q, rfl, h, rfl⟩
  | false =>
    obtain ⟨agfl', q', hrun, hq', hlen⟩ := shrinkFreelist_spec need h hvalid
      (le_of_eq h.pagfFlcount.symm)
    exact ⟨agfl', q', hrun, hq', by omega⟩

/-- The btrees agree, and the counters and the free list are right. -/
structure SpaceCounted (env : AdmitEnv) (b pb : Nat) (sp : AgSpace) (q : AgflQueue) : Prop where
  index : FreeIndex env.group sp.bnobt sp.cntbt
  freeblks : sp.freeblks = totalFree sp.bnobt
  pagfFreeblks : sp.pagfFreeblks = totalFree sp.bnobt
  agfl : AgflHolds env.agfl b pb sp.agfl q

theorem refillArgs_sound (hpos : 0 < n) (hn : n < 2 ^ 31) : (refillArgs n).Sound where
  minlen_pos := le_rfl
  minlen_le := hpos
  alignment_pos := le_rfl
  sum_le := show n + 1 ≤ 2 ^ 32 by omega
  mod_lt := fun h => absurd h (lt_irrefl 1)
  minAgbno := rfl

theorem leftover_of_start (h : rlen < f.len) : Leftover f f.bno rlen ⟨f.bno + rlen, f.len - rlen⟩ := by
  refine .inr ⟨by omega, ?_⟩
  simp only [mk.injEq, true_and]
  omega

theorem refill_step (h : SpaceCounted env b pb sp q) (hneed : need ≤ agflSize env.agfl)
    (hshort : q.blocks.length < need) (hroom : 0 < totalFree sp.bnobt) (hfuel : 0 < fuel) :
    ∃ sp1 targs sp2 q', allocAgVextentSize env.toAllocEnv sp (refillArgs (need - q.blocks.length))
        fuel = .ok (some (sp1, targs)) ∧ targs.agbno ≠ nullagblock ∧
      allocUpdateCounters env.group sp1 targs.len = .ok sp2 ∧
      SpaceCounted env b pb
        { sp2 with agfl := putBlocks env.agfl targs.len targs.agbno sp2.agfl } q' ∧
      0 < targs.len ∧ targs.len ≤ need - q.blocks.length ∧
      q'.blocks.length = q.blocks.length + targs.len ∧
      totalFree sp2.bnobt + targs.len = totalFree sp.bnobt ∧
      ∀ r ∈ sp.bnobt, targs.len < r.len → ∃ r' ∈ sp2.bnobt, r.len - targs.len ≤ r'.len := by
  have hsize := agflSize_lt env.agfl
  obtain ⟨r, hr, hrpos⟩ := exists_mem_of_totalFree_pos hroom
  obtain ⟨sp1, targs, hrun, hdone⟩ := allocAgVextentSize_spec env.toAllocEnv sp
    (refillArgs (need - q.blocks.length)) fuel h.index
    (refillArgs_sound (by omega) (by omega)) hfuel (fun _ => .inr (.inr (.inl rfl)))
  have hhas : HasRoom (refillArgs (need - q.blocks.length)) sp.bnobt :=
    ⟨r, hr, r.bno, Nat.one_dvd _, le_rfl, by show r.bno + 1 ≤ _; omega⟩
  rcases hdone with ⟨-, f, ht⟩ | ⟨hnone, -⟩
  · have hstart := ht.start rfl
    have hmin : 1 ≤ targs.len := ht.minlen_le
    have hmax : targs.len ≤ need - q.blocks.length := ht.le_maxlen
    have hfits := ht.fits.2.2
    have hflt := h.index.lt_max ht.mem
    have htotal := totalFree_taken h.index ht.index ht.mem hmin ht.fits.2.1 hfits ht.taken
    have hupdate := allocUpdateCounters_taken ht.index (ht.freeblks.1.trans h.freeblks)
      (ht.freeblks.2.trans h.pagfFreeblks) htotal h.index.totalFree_le
    obtain ⟨q', hq', hlen⟩ := AgflHolds.putBlocks targs.len targs.agbno h.agfl (by omega)
    refine ⟨sp1, targs, _, q', hrun, ?_, hupdate, ⟨ht.index, rfl, rfl, ?_⟩, hmin, hmax, hlen, htotal,
      fun r hr hlt => ?_⟩
    · unfold nullagblock
      omega
    · rw [← ht.agfl] at hq'
      exact hq'
    · by_cases hrf : r = f
      · subst hrf
        have htaken := ht.taken
        rw [hstart] at htaken
        exact ⟨_, (htaken _).mpr (.inr (leftover_of_start hlt)), le_rfl⟩
      · exact ⟨r, (ht.taken r).mpr (.inl ⟨hr, hrf⟩), Nat.sub_le _ _⟩
  · exact absurd hhas hnone

theorem refillFreelist_spec (freeing : Bool) (fuel : Nat) (h : SpaceCounted env b pb sp q)
    (hneed : need ≤ agflSize env.agfl) (hroom : need - q.blocks.length ≤ totalFree sp.bnobt)
    (hfuel : need - q.blocks.length < fuel) :
    ∃ sp' q', refillFreelist env freeing need fuel sp = .ok (some sp') ∧
      SpaceCounted env b pb sp' q' ∧ q'.blocks.length = max q.blocks.length need ∧
      totalFree sp'.bnobt + (need - q.blocks.length) = totalFree sp.bnobt ∧
      ∀ r ∈ sp.bnobt, need - q.blocks.length < r.len →
        ∃ r' ∈ sp'.bnobt, r.len - (need - q.blocks.length) ≤ r'.len := by
  induction fuel generalizing sp q with
  | zero => exact absurd hfuel (Nat.not_lt_zero _)
  | succ fuel ih =>
    rw [refillFreelist, h.agfl.pagfFlcount]
    by_cases hshort : q.blocks.length < need
    · rw [if_pos hshort]
      have hsize := agflSize_lt env.agfl
      obtain ⟨sp1, targs, sp2, q1, hrun, hne, hupdate, hcounted, hpos, hle, hlen, htotal, hlongest⟩ :=
        refill_step h hneed hshort (by omega) (Nat.succ_pos fuel)
      obtain ⟨sp', q', hrest, hcounted', hlen', htotal', hlongest'⟩ := ih hcounted
        (by simp only; omega) (by omega)
      refine ⟨sp', q', ?_, hcounted', by omega, ?_, fun r hr hlt => ?_⟩
      · rw [sub32_eq (by omega) (by omega)]
        simp only [hrun, ok_bind, if_neg hne, hupdate]
        exact hrest
      · simp only at htotal'
        omega
      · obtain ⟨r1, hr1, hle1⟩ := hlongest r hr (by omega)
        obtain ⟨r2, hr2, hle2⟩ := hlongest' r1 hr1 (by omega)
        exact ⟨r2, hr2, by omega⟩
    · rw [if_neg hshort]
      exact ⟨sp, q, rfl, h, by omega, by omega, fun r hr _ => ⟨r, hr, Nat.sub_le _ _⟩⟩

variable {args args' : AllocArgs} {freeing : Bool}

def longestFree (recs : List FreeRec) : Nat := (recs.map len).foldr max 0

theorem exists_mem_of_longestFree_pos (h : 0 < longestFree bnobt) :
    ∃ r ∈ bnobt, r.len = longestFree bnobt := by
  induction bnobt with
  | nil => exact absurd h (lt_irrefl 0)
  | cons r recs ih =>
    have hcons : longestFree (r :: recs) = max r.len (longestFree recs) := rfl
    rw [hcons] at h ⊢
    rcases le_total (longestFree recs) r.len with hle | hle
    · exact ⟨r, mem_cons_self, (max_eq_left hle).symm⟩
    · rw [max_eq_right hle] at h ⊢
      obtain ⟨s, hs, heq⟩ := ih h
      exact ⟨s, mem_cons_of_mem _ hs, heq⟩

theorem longestFree_le (bnobt : List FreeRec) : longestFree bnobt ≤ totalFree bnobt := by
  induction bnobt with
  | nil => exact le_rfl
  | cons r recs ih =>
    have hmax : longestFree (r :: recs) = max r.len (longestFree recs) := rfl
    have hsum : totalFree (r :: recs) = r.len + totalFree recs := rfl
    omega

/-- The counters of the group are right, and the free list holds blocks of the group. -/
structure AdmitReady (env : AdmitEnv) (b pb : Nat) (sp : AgSpace) (q : AgflQueue) : Prop where
  counted : SpaceCounted env b pb sp q
  longest : sp.pagfLongest = longestFree sp.bnobt
  valid : ∀ bno ∈ q.blocks, verifyGbno env.group bno = true
  need_le : allocMinFreelist env ≤ agflSize env.agfl

/-- The sums of the check do not wrap around. -/
structure AllocArgs.Bounded (env : AdmitEnv) (args : AllocArgs) : Prop where
  total_lt : args.total < 2 ^ 31
  allocLen_lt : args.minlen + (args.alignment - 1) + args.minalignslop < 2 ^ 31
  needs_le : agResvNeeded env args.resv + allocMinFreelist env + args.minleft ≤ 2 ^ 31

structure Accepted (env : AdmitEnv) (sp : AgSpace) (q : AgflQueue) (args args' : AllocArgs) : Prop where
  maxlen : args' = { args with maxlen := args'.maxlen }
  minlen_le : args.minlen ≤ args'.maxlen
  maxlen_le : args'.maxlen ≤ args.maxlen
  free : args.minlen + (args.alignment - 1) + (allocMinFreelist env - q.blocks.length) ≤
    totalFree sp.bnobt
  longest : args.minlen + (args.alignment - 1) + (allocMinFreelist env - q.blocks.length) ≤
      longestFree sp.bnobt ∨ args.minlen + (args.alignment - 1) = 1

theorem allocLongestFreeExtent_spec {reserved : Nat} (h : AdmitReady env b pb sp q)
    (hsmall : reserved + need ≤ 2 ^ 31) (hle : n ≤ allocLongestFreeExtent env sp need reserved) :
    n + (need - q.blocks.length) ≤ longestFree sp.bnobt ∨ n ≤ 1 := by
  have htotal := h.counted.index.totalFree_le
  have hlongest := longestFree_le sp.bnobt
  have hblocks := env.group.blockCount_le
  have hmaxblocks := env.group.maxBlocks_lt
  have hdelta : (if q.blocks.length < need then sub32 need q.blocks.length else 0) =
      need - q.blocks.length := by
    split_ifs with hlt
    · exact sub32_eq (by omega) (by omega)
    · omega
  rw [allocLongestFreeExtent, h.counted.agfl.pagfFlcount, h.counted.pagfFreeblks, h.longest,
    sub32_eq hlongest (by omega)] at hle
  simp only [hdelta] at hle
  generalize hothers : totalFree sp.bnobt - longestFree sp.bnobt = others at hle
  generalize hd : (if others < reserved then
    add32 (need - q.blocks.length) (sub32 reserved others) else need - q.blocks.length) = delta at hle
  have hge : need - q.blocks.length ≤ delta := by
    rw [← hd]
    split_ifs with hlt
    · rw [sub32_eq (by omega) (by omega), add32_eq (by omega)]
      exact Nat.le_add_right _ _
    · exact le_rfl
  split_ifs at hle with hlong hone
  · rw [sub32_eq (by omega) (by omega)] at hle
    omega
  · omega
  · omega

theorem allocSpaceAvailable_spec {check : Bool} (h : AdmitReady env b pb sp q) (hargs : args.Sound)
    (hsmall : args.Bounded env)
    (hsome : allocSpaceAvailable env sp args (allocMinFreelist env) false check = some args') :
    Accepted env sp q args args' := by
  have hmin := hargs.minlen_pos
  have hle := hargs.minlen_le
  have htotal := hsmall.total_lt
  have hlen := hsmall.allocLen_lt
  have hneeds := hsmall.needs_le
  have hfree := h.counted.index.totalFree_le
  have hblocks := env.group.blockCount_le
  have hmaxblocks := env.group.maxBlocks_lt
  have hallocLen : add32 (add32 args.minlen (args.alignment - 1)) args.minalignslop =
      args.minlen + (args.alignment - 1) + args.minalignslop := by
    unfold add32
    omega
  have hmax : max args.total (args.minlen + (args.alignment - 1) + args.minalignslop) < 2 ^ 31 :=
    max_lt htotal hlen
  -- the reserved blocks may exceed the free ones, and then the difference is a negative number
  have havail : int32 (sub32 (sub32 (sub32 (add32 (totalFree sp.bnobt)
      (min q.blocks.length (allocMinFreelist env))) (agResvNeeded env args.resv))
        (allocMinFreelist env)) args.minleft) =
      (totalFree sp.bnobt : Int) + min q.blocks.length (allocMinFreelist env) -
        (agResvNeeded env args.resv + allocMinFreelist env + args.minleft : Nat) := by
    generalize allocMinFreelist env = need at hneeds ⊢
    unfold int32 sub32 add32
    split_ifs <;> omega
  simp only [allocSpaceAvailable, Bool.false_eq_true, if_false, h.counted.agfl.pagfFlcount,
    h.counted.pagfFreeblks, hallocLen, int32_eq hmax, havail] at hsome
  split_ifs at hsome with hshort hlow hclamp
  · obtain rfl := Option.some.inj hsome
    have hlt := hclamp.1
    have hroom := allocLongestFreeExtent_spec h (by omega) (Nat.le_of_not_lt hshort)
    unfold int32 at hlt
    refine ⟨rfl, ?_, ?_, by omega, by omega⟩ <;> simp only <;> split_ifs at hlt <;> omega
  · obtain rfl := Option.some.inj hsome
    have hroom := allocLongestFreeExtent_spec h (by omega) (Nat.le_of_not_lt hshort)
    exact ⟨rfl, hle, le_rfl, by omega, by omega⟩

theorem Accepted.hasRoom {sp' : AgSpace} (h : Accepted env sp q args args') (hargs : args.Sound)
    (htotal : totalFree sp'.bnobt + (allocMinFreelist env - q.blocks.length) = totalFree sp.bnobt)
    (hkept : ∀ r ∈ sp.bnobt, allocMinFreelist env - q.blocks.length < r.len →
      ∃ r' ∈ sp'.bnobt, r.len - (allocMinFreelist env - q.blocks.length) ≤ r'.len) :
    HasRoom args sp'.bnobt := by
  have hmin := hargs.minlen_pos
  have halign := hargs.alignment_pos
  have hfree := h.free
  -- an extent of `minlen + alignment - 1` blocks has room for an aligned run
  suffices hlong : ∃ r ∈ sp'.bnobt, args.minlen + (args.alignment - 1) ≤ r.len by
    obtain ⟨r, hr, hle⟩ := hlong
    refine ⟨r, hr, (le_alignedLen_iff halign hmin).mp ?_⟩
    have hdiv := Nat.div_add_mod (r.bno + (args.alignment - 1)) args.alignment
    rw [mul_comm] at hdiv
    unfold alignedLen
    omega
  rcases h.longest with hlong | hone
  · have hpos : 0 < longestFree sp.bnobt := by omega
    obtain ⟨r, hr, hlen⟩ := exists_mem_of_longestFree_pos hpos
    obtain ⟨r', hr', hle⟩ := hkept r hr (by omega)
    exact ⟨r', hr', by omega⟩
  · have hleft : 0 < totalFree sp'.bnobt := by omega
    obtain ⟨r, hr, hpos⟩ := exists_mem_of_totalFree_pos hleft
    exact ⟨r, hr, by omega⟩

section

variable (h : (allocSpaceAvailable env sp args need freeing true).isSome)
include h

theorem allocSpaceAvailable_check :
    allocSpaceAvailable env sp args need freeing true = some args := by
  simp only [allocSpaceAvailable, Bool.true_eq_false, and_false, if_false] at h ⊢
  split_ifs at h ⊢ <;> first | rfl | cases h

theorem allocSpaceAvailable_isSome :
    (allocSpaceAvailable env sp args need freeing false).isSome := by
  simp only [allocSpaceAvailable, Bool.true_eq_false, and_false, if_false] at h ⊢
  split_ifs at h ⊢ <;> first | rfl | cases h

end

theorem allocFixFreelist_spec {flags : AllocFlags}
    (h : AdmitReady env b pb (afterReset env sp) q) (hargs : args.Sound)
    (hsmall : args.Bounded env) (hfreeing : flags.freeing = false)
    (huse : ¬ (env.prefersMetadata ∧ args.userdata ∧ flags.trylock))
    (hfuel : allocMinFreelist env < fuel)
    (hfirst : (allocSpaceAvailable env sp args (allocMinFreelist env) false true).isSome)
    (hsecond : (allocSpaceAvailable env (afterReset env sp) args (allocMinFreelist env) false
      false).isSome) :
    ∃ sp' q' args', allocFixFreelist env sp args flags fuel = .ok (some (sp', args')) ∧
      Accepted env (afterReset env sp) q args args' ∧ SpaceCounted env b pb sp' q' ∧
      allocMinFreelist env ≤ q'.blocks.length ∧ HasRoom args sp'.bnobt := by
  obtain ⟨args', hsome⟩ := Option.isSome_iff_exists.mp hsecond
  have hacc := allocSpaceAvailable_spec h hargs hsmall hsome
  have hfree := hacc.free
  obtain ⟨agfl, q1, hshrink, hagfl, hlen⟩ := shrinkUnless_spec flags.noshrink
    (allocMinFreelist env) h.counted.agfl h.valid
  have hcounted : SpaceCounted env b pb { afterReset env sp with agfl := agfl } q1 :=
    ⟨h.counted.index, h.counted.freeblks, h.counted.pagfFreeblks, hagfl⟩
  obtain ⟨sp', q', hrefill, hcounted', hlen', htotal, hkept⟩ := refillFreelist_spec false fuel
    hcounted h.need_le (by rw [hlen]; simp only; omega) (by omega)
  rw [hlen] at htotal hkept
  refine ⟨sp', q', args', ?_, hacc, hcounted', by omega, hacc.hasRoom hargs htotal hkept⟩
  rw [allocFixFreelist, if_neg huse]
  simp only [hfreeing, allocSpaceAvailable_check hfirst, hsome, hshrink, ok_bind, hrefill]
  rfl

/-- Admission is sound: if the sums of the check do not wrap around, the free list of an accepted
request gets all its blocks, and after that an allocation by size succeeds. The clamp keeps `maxlen`
at `minlen` or above. -/
theorem admission_sound (env : AdmitEnv) (sp : AgSpace) (args : AllocArgs) (flags : AllocFlags)
    (fuel b pb : Nat) (q : AgflQueue) (h : AdmitReady env b pb (afterReset env sp) q)
    (hargs : args.Sound) (hsmall : args.Bounded env) (hfreeing : flags.freeing = false)
    (huse : ¬ (env.prefersMetadata ∧ args.userdata ∧ flags.trylock))
    (hfuel : allocMinFreelist env < fuel)
    (hfirst : (allocSpaceAvailable env sp args (allocMinFreelist env) false true).isSome)
    (hsecond : sp.agfl.needsReset = true →
      (allocSpaceAvailable env (afterReset env sp) args (allocMinFreelist env) false false).isSome) :
    ∃ sp' args', allocFixFreelist env sp args flags fuel = .ok (some (sp', args')) ∧
      args' = { args with maxlen := args'.maxlen } ∧ args'.maxlen ≤ args.maxlen ∧
      args.minlen ≤ args'.maxlen ∧ 0 < args'.maxlen ∧
      allocMinFreelist env ≤ sp'.agfl.pagfFlcount ∧
      ∃ sp'' res, allocAgVextentSize env.toAllocEnv sp' args' fuel = .ok (some (sp'', res)) ∧
        res.agbno ≠ nullagblock ∧ args'.minlen ≤ res.len ∧ res.len ≤ args'.maxlen := by
  have hmin := hargs.minlen_pos
  have hfinal : (allocSpaceAvailable env (afterReset env sp) args (allocMinFreelist env) false
      false).isSome := by
    by_cases hreset : sp.agfl.needsReset = true
    · exact hsecond hreset
    · have hsame : afterReset env sp = sp := if_neg hreset
      rw [hsame]
      exact allocSpaceAvailable_isSome hfirst
  obtain ⟨sp', q', args', hrun, hacc, hcounted, hlen, hroom⟩ :=
    allocFixFreelist_spec h hargs hsmall hfreeing huse hfuel hfirst hfinal
  have hmaxlen := hacc.minlen_le
  have hle := hacc.maxlen_le
  have hsum := hargs.sum_le
  have hargs' : args'.Sound := by
    rw [hacc.maxlen]
    exact ⟨hmin, hmaxlen, hargs.alignment_pos, by simp only; omega, hargs.mod_lt, hargs.minAgbno⟩
  have hroom' : HasRoom args' sp'.bnobt := by
    rw [hacc.maxlen]
    exact hroom
  have hne : sp'.cntbt ≠ [] := by
    obtain ⟨f, hf, -⟩ := hroom
    exact ne_nil_of_mem ((hcounted.index.same f).mpr hf)
  obtain ⟨sp'', res, hsize, hdone⟩ := allocAgVextentSize_spec env.toAllocEnv sp' args' fuel
    hcounted.index hargs' (by omega) fun hnil => absurd hnil hne
  refine ⟨sp', args', hrun, hacc.maxlen, hle, hmaxlen, by omega,
    le_trans hlen (le_of_eq hcounted.agfl.pagfFlcount.symm), sp'', res, hsize, ?_⟩
  rcases hdone with ⟨-, f, htaken⟩ | ⟨hnone, -⟩
  · refine ⟨?_, htaken.minlen_le, htaken.le_maxlen⟩
    have hfits := htaken.fits.2.2
    have hlt := hcounted.index.lt_max htaken.mem
    unfold nullagblock
    omega
  · exact absurd hroom' hnone

def sampleAdmitEnv : AdmitEnv :=
  ⟨⟨sampleGroup, ⟨512, true, by decide, by decide⟩, fun _ => 0⟩, 60, 1, 1, 1, 5, 5, true, 0, 0, false⟩

def sampleAdmitArgs : AllocArgs := ⟨2, 9, 2, 0, 4, 0, 0, 1, 0, .none, false, 0, 0, false⟩

theorem sampleAgSpace_ready : AdmitReady sampleAdmitEnv 0 0
    (afterReset sampleAdmitEnv (sampleAgSpace sampleFree)) ⟨[], 0⟩ where
  counted := by
    have hagfl : AgflHolds sampleAdmitEnv.agfl sampleAgflState.btreeblks sampleAgflState.pagfBtreeblks
        (agflReset sampleAdmitEnv.agfl sampleAgflState) ⟨[], 0⟩ :=
      agflReset_holds (by decide) (by decide)
    exact ⟨sampleFree_index, rfl, rfl, hagfl⟩
  longest := rfl
  valid := fun _ hbno => absurd hbno not_mem_nil
  need_le := by decide

theorem admission_sound_sample : ∃ sp' args',
    allocFixFreelist sampleAdmitEnv (sampleAgSpace sampleFree) sampleAdmitArgs ⟨false, false, false⟩ 7 =
      .ok (some (sp', args')) ∧ 2 ≤ args'.maxlen ∧ 6 ≤ sp'.agfl.pagfFlcount := by
  obtain ⟨sp', args', hrun, -, -, hmin, -, hcount, -⟩ := admission_sound sampleAdmitEnv
    (sampleAgSpace sampleFree) sampleAdmitArgs ⟨false, false, false⟩ 7 0 0 ⟨[], 0⟩
    sampleAgSpace_ready
    ⟨by decide, by decide, by decide, by decide, by decide, rfl⟩
    ⟨by decide, by decide, by decide⟩ rfl (by decide) (by decide) (by decide) (fun _ => by decide)
  exact ⟨sp', args', hrun, hmin, hcount⟩

/-- A `total` of 2^31 blocks is negative as an `int`, so that the check accepts a request for which
no block is available and sets `maxlen` to zero. -/
theorem admission_total_wraps :
    let args : AllocArgs := { sampleAdmitArgs with total := 2 ^ 31, minleft := 8 }
    args.Sound ∧ AdmitReady sampleAdmitEnv 0 0
        (afterReset sampleAdmitEnv (sampleAgSpace sampleFree)) ⟨[], 0⟩ ∧
      (allocSpaceAvailable sampleAdmitEnv (sampleAgSpace sampleFree) args
        (allocMinFreelist sampleAdmitEnv) false true).isSome ∧
      (allocSpaceAvailable sampleAdmitEnv (afterReset sampleAdmitEnv (sampleAgSpace sampleFree)) args
        (allocMinFreelist sampleAdmitEnv) false false).map AllocArgs.maxlen = some 0 := by
  exact ⟨⟨by decide, by decide, by decide, by decide, by decide, rfl⟩,
    sampleAgSpace_ready, by decide, by decide⟩

end Xfs
