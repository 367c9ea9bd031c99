import Xfs.Alloc.AdmissionSpec
import Xfs.Lib.SplitCursor

/-! Freeing an extent. It is joined with the free extents on both sides of it, and space that is
free already is never freed again. -/
namespace Xfs

open List RecordCursor Cursor Option

def freeNeighbor (g : Group) (moved : Cursor FreeRec × Bool) (places : FreeRec → Nat × Nat) :
    AllocM (Option FreeRec) :=
  if moved.2 then do
    let r ← allocGetRec g moved.1
    if (places r).1 < (places r).2 then pure none
    else
      corruptUnless (decide ((places r).1 ≤ (places r).2))
      pure (some r)
  else pure none

def freeLookup (bnobt : List FreeRec) (bno : Nat) : Cursor FreeRec × Bool :=
  lookupLE bnoKey bno ⟨bnobt, 0⟩

/-- The free extents that end where the space starts and start where it ends. -/
def freeNeighbors (g : Group) (bnobt : List FreeRec) (bno len : Nat) :
    AllocM (Option FreeRec × Option FreeRec) := do
  let lookup := freeLookup bnobt bno
  let left ← freeNeighbor g lookup fun l => (add32 l.bno l.len, bno)
  let right ← freeNeighbor g lookup.1.increment fun r => (add32 bno len, r.bno)
  pure (left, right)

def lenOf : Option FreeRec → Nat
  | none => 0
  | some r => r.len

/-- `nbno` and `nlen` of the joined extent. A neighbor that is not there adds nothing. -/
def freeJoined (bno len : Nat) (left right : Option FreeRec) : FreeRec :=
  ⟨(left.map FreeRec.bno).getD bno, add32 (add32 len (lenOf left)) (lenOf right)⟩

/-- Delete the by-size entry of a neighbor. -/
def freeDeleteCnt (cnt : Cursor FreeRec) : Option FreeRec → AllocM (Cursor FreeRec)
  | none => pure cnt
  | some r => do
      let cnt ← allocLookupPresent cntKey cnt r
      allocDeleteRec cnt

/-- Move the by-block cursor back to the left neighbor, which becomes the joined extent. -/
def freeUpdateLeft (bt : Cursor FreeRec) (new : FreeRec) : AllocM (Cursor FreeRec) := do
  let (bt, found) := bt.decrement
  corruptUnless found
  pure (bt.update new)

/-- The by-block btree. The cursor is behind the left neighbor. -/
def freeUpdateBno (bt : Cursor FreeRec) (new : FreeRec) :
    Option FreeRec → Option FreeRec → AllocM (Cursor FreeRec)
  | some _, some _ => do
      let bt ← allocDeleteRec bt
      freeUpdateLeft bt new
  | some _, none => freeUpdateLeft bt new
  | none, some _ => pure (bt.update new)
  | none, none => do
      let (bt, done) := bt.insert new
      corruptUnless done
      pure bt

/-- Add an extent of `len` blocks to the counters. -/
def allocCountFreed (g : Group) (sp : AgSpace) (len : Nat) : AllocM AgSpace :=
  let sp :=
    { sp with pagfFreeblks := add32 sp.pagfFreeblks len, freeblks := add32 sp.freeblks len }
  if g.blockCount < sp.freeblks then .error .efscorrupted else .ok sp

/-- Free an extent. -/
def freeAgExtent (env : AllocEnv) (sp : AgSpace) (bno len : Nat) : AllocM AgSpace := do
  let (left, right) ← freeNeighbors env.group sp.bnobt bno len
  let new := freeJoined bno len left right
  let cnt ← freeDeleteCnt ⟨sp.cntbt, 0⟩ left
  let cnt ← freeDeleteCnt cnt right
  let bt ← freeUpdateBno (freeLookup sp.bnobt bno).1.increment.1 new left right
  let fixupLongest := allocCursorAtLastrec env (cnt.lookupEQ cntKey (cntKey new)).1
  let cnt ← allocInsertAbsent cntKey cnt new
  let sp := { sp with bnobt := bt.recs, cntbt := cnt.recs }
  allocCountFreed env.group (if fixupLongest then allocFixupLongest sp cnt else sp) len

variable {env : AllocEnv} {sp : AgSpace} {g : Group} {bnobt cntbt pre post A B : List FreeRec}
  {bno len k : Nat} {left right : Option FreeRec} {c : Cursor FreeRec} {s : FreeRec}

theorem freeNeighbor_cases (moved : Cursor FreeRec × Bool) (places : FreeRec → Nat × Nat)
    {o : Option FreeRec} (h : FreeIndex g bnobt cntbt) (hrecs : moved.1.recs = bnobt)
    (hmoved : moved.2 = o.isSome) (ho : moved.1.rec? = o) :
    freeNeighbor g moved places = .error .efscorrupted ∧
        (∃ r, o = some r ∧ (places r).2 < (places r).1) ∨
      freeNeighbor g moved places = .ok (o.filter fun r => decide ((places r).1 = (places r).2)) ∧
        ∀ r, o = some r → (places r).1 ≤ (places r).2 := by
  rw [freeNeighbor, hmoved]
  cases o with
  | none => exact .inr ⟨rfl, by simp⟩
  | some r =>
    have hget : allocGetRec g moved.1 = .ok r := by
      rw [allocGetRec, ho]
      exact if_pos (h.checkIrec (hrecs ▸ mem_of_rec? ho))
    rw [hget]
    rcases lt_trichotomy (places r).1 (places r).2 with hlt | heq | hgt
    · exact .inr (by simp [hlt, hlt.ne, hlt.le, Option.filter])
    · exact .inr (by simp [heq, corruptUnless, Option.filter])
    · exact .inl (by simp [hgt, hgt.not_gt, hgt.not_ge, corruptUnless])

theorem freeLookup_split (hpre : ∀ s ∈ pre, s.bno ≤ bno) (hpost : ∀ s ∈ post, bno < s.bno) :
    (freeLookup (pre ++ post) bno).1.recs = pre ++ post ∧
      (freeLookup (pre ++ post) bno).1.rec? = pre.getLast? ∧
      (freeLookup (pre ++ post) bno).2 = pre.getLast?.isSome ∧
      (freeLookup (pre ++ post) bno).1.increment = (split pre post, post.head?.isSome) := by
  have hempty : (!post.isEmpty) = post.head?.isSome := by cases post <;> rfl
  rcases eq_nil_or_concat pre with rfl | ⟨p, x, rfl⟩
  · have hzero : freeLookup post bno = (⟨post, 0⟩, false) := lookupLE_zero hpost
    rw [nil_append, hzero]
    exact ⟨rfl, rfl, rfl, (increment_zero post).trans (by rw [hempty])⟩
  · have hlook : freeLookup (p ++ [x] ++ post) bno = (split p (x :: post), true) :=
      lookupLE_split (by simp) (fun s hs => hpre s (by simp [hs])) (hpre x (by simp)) hpost
    rw [concat_eq_append, hlook]
    simp [hempty]

/-- The records before and behind the space and its neighbors. -/
structure FreeSplit (bnobt : List FreeRec) (bno len : Nat) (A B : List FreeRec)
    (left right : Option FreeRec) : Prop where
  recs : bnobt = A ++ (left.toList ++ right.toList) ++ B
  cursor : (freeLookup bnobt bno).1.increment.1 = split (A ++ left.toList) (right.toList ++ B)
  left_end : ∀ l, left = some l → l.bno + l.len = bno
  right_start : ∀ r, right = some r → bno + len = r.bno
  before : ∀ s ∈ A, s.bno + s.len < bno
  behind : ∀ s ∈ B, bno + len < s.bno

theorem FreeIndex.split_left (h : FreeIndex g (pre ++ post) cntbt)
    (hle : ∀ l, pre.getLast? = some l → add32 l.bno l.len ≤ bno) :
    ∃ A, pre = A ++ (pre.getLast?.filter fun l => decide (add32 l.bno l.len = bno)).toList ∧
      ∀ s ∈ A, s.bno + s.len < bno := by
  rcases eq_nil_or_concat pre with rfl | ⟨p, x, rfl⟩
  · exact ⟨[], rfl, by simp⟩
  rw [concat_eq_append] at *
  have hx : x ∈ p ++ [x] ++ post := by simp
  have hpos := (h.inside x hx).1
  have hadd : add32 x.bno x.len = x.bno + x.len := add32_eq (by have := h.lt_max hx; omega)
  have hend := hle x (by simp)
  have hp : ∀ s ∈ p, s.bno + s.len ≤ x.bno := fun s hs =>
    h.disjoint s (by simp [hs]) x hx ((pairwise_append.mp (pairwise_append.mp h.bno_ordered).1).2.2
      s hs x (by simp))
  by_cases heq : x.bno + x.len = bno
  · refine ⟨p, by simp [Option.filter, hadd, heq], fun s hs => ?_⟩
    have := hp s hs
    omega
  · refine ⟨p ++ [x], by simp [Option.filter, hadd, heq], fun s hs => ?_⟩
    rcases mem_append.mp hs with hs | hs
    · have := hp s hs
      omega
    · obtain rfl := mem_singleton.mp hs
      omega

theorem FreeIndex.split_right (h : FreeIndex g (pre ++ post) cntbt)
    (hge : ∀ r, post.head? = some r → k ≤ r.bno) :
    ∃ B, post = (post.head?.filter fun r => decide (k = r.bno)).toList ++ B ∧
      ∀ s ∈ B, k < s.bno := by
  cases post with
  | nil => exact ⟨[], rfl, by simp⟩
  | cons x q =>
    have hx := hge x rfl
    have hq : ∀ s ∈ q, x.bno < s.bno := (pairwise_cons.mp (pairwise_append.mp h.bno_ordered).2.1).1
    by_cases heq : k = x.bno
    · exact ⟨q, by simp [Option.filter, heq], fun s hs => heq ▸ hq s hs⟩
    · refine ⟨x :: q, by simp [Option.filter, heq], fun s hs => ?_⟩
      rcases mem_cons.mp hs with rfl | hs
      · omega
      · exact lt_of_le_of_lt hx (hq s hs)

theorem freeNeighbors_cases (h : FreeIndex g bnobt cntbt) (hlen : 0 < len)
    (hsum : bno + len < 2 ^ 32) :
    freeNeighbors g bnobt bno len = .error .efscorrupted ∧
        (∃ s ∈ bnobt, s.bno < bno + len ∧ bno < s.bno + s.len) ∨
      ∃ A B left right, freeNeighbors g bnobt bno len = .ok (left, right) ∧
        FreeSplit bnobt bno len A B left right := by
  obtain ⟨pre, post, rfl, hpre, hpost⟩ := h.bno_ordered.exists_split (bno + 1)
  obtain ⟨hrecs, hrec, hsome, hinc⟩ := freeLookup_split (fun s hs => Nat.le_of_lt_succ (hpre s hs))
    hpost
  rw [freeNeighbors, hinc]
  rcases freeNeighbor_cases _ (fun l => (add32 l.bno l.len, bno)) h hrecs hsome hrec with
    ⟨hL, l, hl, hlt⟩ | ⟨hL, hle⟩
  · have hmem := mem_of_getLast? hl
    have := h.lt_max (mem_append_left post hmem)
    have hbno := hpre l hmem
    rw [add32_eq (by omega)] at hlt
    exact .inl ⟨by rw [hL]; rfl, l, mem_append_left _ hmem, by unfold bnoKey at hbno; omega, hlt⟩
  rcases freeNeighbor_cases (split pre post, post.head?.isSome) (fun r => (add32 bno len, r.bno)) h
    rfl rfl (split_rec? pre post) with
    ⟨hR, r, hr, hlt⟩ | ⟨hR, hge⟩
  · have hmem := mem_of_head? hr
    have hpos := (h.inside r (mem_append_right pre hmem)).1
    have hbno := hpost r hmem
    rw [add32_eq hsum] at hlt
    exact .inl ⟨by rw [hL, ok_bind, hR]; rfl, r, mem_append_right _ hmem, hlt, by
      unfold bnoKey at hbno; omega⟩
  obtain ⟨A, hA, hbefore⟩ := h.split_left hle
  obtain ⟨B, hB, hbehind⟩ := h.split_right (k := add32 bno len) hge
  rw [add32_eq hsum] at hB hbehind hR
  refine .inr ⟨A, B, _, _, by rw [hL, ok_bind, add32_eq hsum, hR]; rfl, ?_, ?_, fun l hl => ?_,
    fun r hr => ?_, hbefore, hbehind⟩
  · rw [append_assoc, append_assoc, ← append_assoc A, ← hA, ← hB]
  · rw [hinc, ← hA, ← hB]
  · obtain ⟨hl, heq⟩ := filter_eq_some_iff.mp hl
    have := h.lt_max (mem_append_left post (mem_of_getLast? hl))
    rwa [decide_eq_true_eq, add32_eq (by omega)] at heq
  · exact of_decide_eq_true (filter_eq_some_iff.mp hr).2

theorem freeDeleteCnt_spec {o : Option FreeRec} (ho : Ordered cntKey c.recs)
    (hmem : ∀ r ∈ o.toList, r ∈ c.recs) :
    ∃ c', freeDeleteCnt c o = .ok c' ∧ Ordered cntKey c'.recs ∧
      ∀ s, s ∈ c'.recs ↔ s ∈ c.recs ∧ s ∉ o.toList := by
  cases o with
  | none => exact ⟨c, rfl, ho, by simp⟩
  | some r =>
    obtain ⟨c1, hlook, hrecs, hrec⟩ := allocLookupPresent_spec ho (hmem r (by simp))
    obtain ⟨c2, hdel, ho2, hm2⟩ := allocDeleteRec_spec (hrecs ▸ ho) hrec
    exact ⟨c2, by rw [freeDeleteCnt, hlook, ok_bind, hdel], ho2, fun s => by simp [hm2, hrecs]⟩

theorem freeUpdateBno_spec (hn : FreeSplit bnobt bno len A B left right) :
    ∃ c', freeUpdateBno (freeLookup bnobt bno).1.increment.1 (freeJoined bno len left right) left
        right = .ok c' ∧ c'.recs = A ++ [freeJoined bno len left right] ++ B := by
  rw [hn.cursor]
  cases left <;> cases right <;>
    simp [freeUpdateBno, freeUpdateLeft, allocDeleteRec, corruptUnless]

theorem mem_joined {new : FreeRec} (hn : FreeSplit bnobt bno len A B left right)
    (hs : s ∈ A ++ [new] ++ B) : s = new ∨ s ∈ bnobt ∧ (s ∈ A ∨ s ∈ B) := by
  rw [hn.recs]
  simp only [mem_append, mem_singleton] at hs ⊢
  tauto

/-- From the end of an extent to the next one there are at least `k` blocks. -/
def Gaps (k : Nat) (recs : List FreeRec) : Prop :=
  ∀ r ∈ recs, ∀ s ∈ recs, r.bno < s.bno → r.bno + r.len + k ≤ s.bno

section

variable (h : FreeIndex g bnobt cntbt) (hext : verifyGbext g bno len)
  (hn : FreeSplit bnobt bno len A B left right)
include h hext hn

theorem freeJoined_eq : (freeJoined bno len left right).bno + lenOf left = bno ∧
    (freeJoined bno len left right).len = lenOf left + len + lenOf right ∧
    bno + len + lenOf right ≤ g.blockCount ∧ g.minGbno ≤ (freeJoined bno len left right).bno := by
  have hblocks := g.blockCount_lt
  have hrecs := hn.recs
  obtain ⟨hpos, hmin, hend⟩ := verifyGbext_iff.mp hext
  have hl : (freeJoined bno len left right).bno + lenOf left = bno ∧
      g.minGbno ≤ (freeJoined bno len left right).bno := by
    cases left with
    | none => exact ⟨rfl, hmin⟩
    | some l => exact ⟨hn.left_end l rfl, (h.inside l (by simp [hrecs])).2.1⟩
  have hr : bno + len + lenOf right ≤ g.blockCount := by
    cases right with
    | none => exact hend
    | some r =>
      rw [hn.right_start r rfl]
      exact (h.inside r (by simp [hrecs])).2.2
  refine ⟨hl.1, ?_, hr, hl.2⟩
  rw [freeJoined, add32_eq (show len + lenOf left < 2 ^ 32 by omega), add32_eq (by omega)]
  simp only
  omega

/-- The other extents stay away from the new one. -/
theorem freeJoined_apart (hk : k ≤ 1) (hgaps : Gaps k bnobt) :
    (∀ s ∈ A, s.bno + s.len + k ≤ (freeJoined bno len left right).bno) ∧
      ∀ s ∈ B, (freeJoined bno len left right).bno + (freeJoined bno len left right).len + k ≤
        s.bno := by
  obtain ⟨hbno, hlen, -⟩ := freeJoined_eq h hext hn
  have hrecs := hn.recs
  refine ⟨fun s hs => ?_, fun s hs => ?_⟩
  · have hlt := hn.before s hs
    cases left with
    | none =>
      have hzero : lenOf none = 0 := rfl
      omega
    | some l =>
      have hend := hn.left_end l rfl
      have hsmem : s ∈ bnobt := by simp [hrecs, hs]
      have hlmem : l ∈ bnobt := by simp [hrecs]
      have hpos := (h.inside s hsmem).1
      refine hgaps s hsmem l hlmem ?_
      rcases h.apart hlmem hsmem (by rintro rfl; omega) <;> omega
  · have hlt := hn.behind s hs
    cases right with
    | none =>
      have hzero : lenOf none = 0 := rfl
      omega
    | some r =>
      have hstart := hn.right_start r rfl
      have hlen_r : lenOf (some r) = r.len := rfl
      have := hgaps r (by simp [hrecs]) s (by simp [hrecs, hs]) (by omega)
      omega

theorem Gaps.joined (hk : k ≤ 1) (hgaps : Gaps k bnobt) :
    Gaps k (A ++ [freeJoined bno len left right] ++ B) := by
  obtain ⟨hA, hB⟩ := freeJoined_apart h hext hn hk hgaps
  have hlen := (freeJoined_eq h hext hn).2.1
  intro r hr s hs hlt
  rcases mem_joined hn hr with rfl | ⟨hr, hrAB⟩ <;> rcases mem_joined hn hs with rfl | ⟨hs, hsAB⟩
  · omega
  · rcases hsAB with hsA | hsB
    · have := hA s hsA
      omega
    · exact hB s hsB
  · rcases hrAB with hrA | hrB
    · exact hA r hrA
    · have := hB r hrB
      omega
  · exact hgaps r hr s hs hlt

theorem freeUpdateCnt_spec :
    ∃ c1 c2 c3, freeDeleteCnt ⟨cntbt, 0⟩ left = .ok c1 ∧ freeDeleteCnt c1 right = .ok c2 ∧
      allocInsertAbsent cntKey c2 (freeJoined bno len left right) = .ok c3 ∧
      Ordered cntKey c3.recs ∧
      ∀ s, s ∈ c3.recs ↔ s ∈ A ++ [freeJoined bno len left right] ++ B := by
  have hmem : ∀ s, s ∈ bnobt ↔ s ∈ A ++ (left.toList ++ right.toList) ++ B := fun s => by
    rw [hn.recs]
  obtain ⟨hA, hB⟩ := freeJoined_apart h hext hn (Nat.zero_le 1) h.disjoint
  obtain ⟨c1, hd1, ho1, hm1⟩ := freeDeleteCnt_spec (c := ⟨cntbt, 0⟩) (o := left) h.cnt_ordered
    fun l hl => by simp [h.same, hmem, hl]
  obtain ⟨c2, hd2, ho2, hm2⟩ := freeDeleteCnt_spec (o := right) ho1 fun r hr => by
    refine (hm1 r).mpr ⟨by simp [h.same, hmem, hr], fun hl => ?_⟩
    have := hn.left_end r (mem_toList.mp hl)
    have := hn.right_start r (mem_toList.mp hr)
    have := (verifyGbext_iff.mp hext).1
    omega
  have hm : ∀ s, s ∈ c2.recs ↔ s ∈ A ++ (left.toList ++ right.toList) ++ B ∧
      s ∉ left.toList ++ right.toList := fun s => by
    rw [hm2, hm1, h.same, hmem, mem_append (t := right.toList), not_or, and_assoc]
  obtain ⟨c3, hins, ho3, hm3⟩ := insertSome_spec (o := some (freeJoined bno len left right)) ho2
    fun r hr s hs heq => by
      cases hr
      obtain ⟨hs, hout⟩ := (hm s).mp hs
      have := (h.inside s ((hmem s).mpr hs)).1
      have heq := cntKey_inj.mp heq
      rcases mem_append.mp hs with hs | hs
      · have := hA s ((mem_append.mp hs).resolve_right hout)
        rw [← heq] at this
        omega
      · have := hB s hs
        rw [← heq] at this
        omega
  refine ⟨c1, c2, c3, hd1, hd2, hins, ho3, fun s => ?_⟩
  have hreplace : s ∈ A ++ [freeJoined bno len left right] ++ B ↔ _ :=
    Ordered.mem_replace (hn.recs ▸ h.bno_ordered) s
  rw [hm3, hm, hreplace, mem_singleton, or_comm, some.injEq, eq_comm]

theorem FreeIndex.joined {cntbt' : List FreeRec} (ho : Ordered cntKey cntbt')
    (hmem : ∀ s, s ∈ cntbt' ↔ s ∈ A ++ [freeJoined bno len left right] ++ B) :
    FreeIndex g (A ++ [freeJoined bno len left right] ++ B) cntbt' := by
  obtain ⟨hjbno, hjlen, hjend, hjmin⟩ := freeJoined_eq h hext hn
  have hpos := (verifyGbext_iff.mp hext).1
  refine ⟨?_, ho, hmem, fun s hs => ?_, Gaps.joined h hext hn (Nat.zero_le 1) h.disjoint⟩
  · obtain ⟨hA, hB⟩ := freeJoined_apart h hext hn (Nat.zero_le 1) h.disjoint
    obtain ⟨hoA, hoB, hoAB⟩ := pairwise_append.mp (hn.recs ▸ h.bno_ordered)
    refine pairwise_append.mpr ⟨pairwise_append.mpr ⟨(pairwise_append.mp hoA).1,
      pairwise_singleton _ _, fun s hs t ht => ?_⟩, hoB, fun s hs t ht => ?_⟩
    · have := hA s hs
      have := (h.inside s (by simp [hn.recs, hs])).1
      rw [mem_singleton.mp ht]
      unfold bnoKey
      omega
    · rcases mem_append.mp hs with hs | hs
      · exact hoAB s (mem_append_left _ hs) t ht
      · have := hB t ht
        rw [mem_singleton.mp hs]
        unfold bnoKey
        omega
  · rcases mem_joined hn hs with rfl | ⟨hs, -⟩
    · omega
    · exact h.inside s hs

end

/-- The btrees agree, and the counters are those of the free extents. -/
structure Counted (g : Group) (sp : AgSpace) : Prop where
  index : FreeIndex g sp.bnobt sp.cntbt
  freeblks : sp.freeblks = totalFree sp.bnobt
  pagfFreeblks : sp.pagfFreeblks = totalFree sp.bnobt

theorem freeAgExtent_spec (h : Counted env.group sp) (hext : verifyGbext env.group bno len) :
    freeAgExtent env sp bno len = .error .efscorrupted ∧
        (∃ s ∈ sp.bnobt, s.bno < bno + len ∧ bno < s.bno + s.len) ∨
      ∃ sp' A B left right, freeAgExtent env sp bno len = .ok sp' ∧
        FreeSplit sp.bnobt bno len A B left right ∧
        sp'.bnobt = A ++ [freeJoined bno len left right] ++ B ∧ Counted env.group sp' ∧
        sp'.agfl = sp.agfl := by
  obtain ⟨hpos, -, hend⟩ := verifyGbext_iff.mp hext
  have hblocks := env.group.blockCount_lt
  rcases freeNeighbors_cases h.index hpos (show bno + len < 2 ^ 32 by omega) with
    ⟨hrun, hover⟩ | ⟨A, B, left, right, hrun, hn⟩
  · exact .inl ⟨by rw [freeAgExtent, hrun]; rfl, hover⟩
  obtain ⟨bt, hrunB, hB⟩ := freeUpdateBno_spec hn
  obtain ⟨c1, c2, c3, hd1, hd2, hins, hoC, hC⟩ := freeUpdateCnt_spec h.index hext hn
  have hindex := h.index.joined hext hn hoC hC
  have htotal : totalFree sp.bnobt + len = totalFree bt.recs := by
    have hjlen := (freeJoined_eq h.index hext hn).2.1
    rw [hB, hn.recs]
    cases left <;> cases right <;> simp [totalFree, hjlen, lenOf] <;> omega
  rw [← hB] at hindex
  have hle := hindex.totalFree_le
  have hcount : ∀ sp1 : AgSpace, sp1.freeblks = sp.freeblks → sp1.pagfFreeblks = sp.pagfFreeblks →
      allocCountFreed env.group sp1 len = .ok
        { sp1 with pagfFreeblks := totalFree bt.recs, freeblks := totalFree bt.recs } := by
    intro sp1 h1 h2
    have hsum : add32 (totalFree sp.bnobt) len = totalFree bt.recs := by
      rw [add32_eq (by omega), htotal]
    simp only [allocCountFreed, h1, h2, h.freeblks, h.pagfFreeblks, hsum]
    exact if_neg (by omega)
  simp only [freeAgExtent, hrun, hd1, hd2, hrunB, hins, ok_bind]
  right
  split_ifs <;> exact ⟨_, A, B, left, right, hcount _ rfl rfl, hn, hB, ⟨hindex, rfl, rfl⟩, rfl⟩

end Xfs
