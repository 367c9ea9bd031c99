import Xfs.Refcount.Merge

/-! The loop over the middle extents and the whole adjustment. -/
namespace Xfs

open RecordCursor

variable {g : Group} {C : Nat → Option Nat} {other : RefcountIrec → Prop} {c : RefcCur}
  {ext : RefcountIrec} {adj : RefcAdjustOp} {st : AdjustState} {space : Nat → Bool} {n : Nat}

/-- The two adjustments of shared blocks. -/
def RefcAdjustOp.IsShared (adj : RefcAdjustOp) : Prop := adj = .increase ∨ adj = .decrease

/-- The cursor stands at the start of what is left, and no record crosses its ends. -/
structure LoopInv (g : Group) (C : Nat → Option Nat) (other : RefcountIrec → Prop)
    (st : AdjustState) : Prop where
  rep : Rep g .shared C other st.cur.bt.recs
  seek : Seek refcKey st.cur.bt (refcountEncodeStartblock st.agbno .shared)
  min : g.minGbno ≤ st.agbno
  max : st.agbno + st.aglen ≤ g.blockCount
  noCrossLo : NoCross .shared st.cur.bt.recs st.agbno
  noCrossHi : NoCross .shared st.cur.bt.recs (st.agbno + st.aglen)

/-- The first shared record that is not before the range, or a stand-in. -/
structure Ahead (g : Group) (C : Nat → Option Nat) (recs : List RefcountIrec) (lo hi : Nat)
    (ext : RefcountIrec) : Prop where
  le : lo ≤ ext.startblock
  lt : ext.startblock < 2 ^ 31
  gap : ∀ b, lo ≤ b → b < ext.startblock → C b = none
  mem : ext.startblock < hi → ext ∈ recs ∧ ext.domain = .shared

theorem LoopInv.ahead (h : LoopInv g C other st) :
    ∃ ext, (refcountGetRec g st.cur = .ok (some ext) ∧ ext.domain = .shared ∨
        (refcountGetRec g st.cur = .ok none ∨
          ∃ r, refcountGetRec g st.cur = .ok (some r) ∧ r.domain ≠ .shared) ∧
          ext = ⟨g.maxBlocks, 0, 0, .shared⟩) ∧
      Ahead g C st.cur.bt.recs st.agbno (st.agbno + st.aglen) ext := by
  have hg := g.blockCount_le
  have hg' := g.maxBlocks_lt
  have hmax := h.max
  obtain ⟨hsome, hnone⟩ := seek_cases h.rep.wf (by omega) h.seek
  -- with no shared record ahead the whole rest of the group is a gap
  have hgapAll : (∀ s ∈ st.cur.bt.recs, s.domain = .shared → s.startblock < st.agbno) →
      Ahead g C st.cur.bt.recs st.agbno (st.agbno + st.aglen) ⟨g.maxBlocks, 0, 0, .shared⟩ := by
    intro hall
    refine ⟨by simp only; omega, hg', fun b h1 h2 => ?_, fun hf => by simp only at hf; omega⟩
    refine h.rep.none_of_outside (fun s hs hsd => ?_) h1 h2
    have := hall s hs hsd
    have := h.noCrossLo s hs hsd
    omega
  cases hfound : inDomain .shared st.cur.bt with
  | none =>
    refine ⟨_, .inr ⟨?_, rfl⟩, hgapAll (hnone hfound)⟩
    cases hr : st.cur.bt.rec? with
    | none => exact .inl (by simp [refcountGetRec, hr])
    | some r => exact .inr ⟨r, refcountGetRec_some h.rep.wf hr, inDomain_none hfound hr⟩
  | some r =>
    obtain ⟨hr, hd⟩ := inDomain_some.mp hfound
    obtain ⟨hle, hmin⟩ := hsome r hfound
    have hmem := Cursor.mem_of_rec? hr
    refine ⟨r, .inl ⟨refcountGetRec_some h.rep.wf hr, hd⟩, hle,
      by have := h.rep.wf.bounds hmem; omega, fun b h1 h2 => ?_, fun _ => ⟨hmem, hd⟩⟩
    refine h.rep.none_of_outside (fun s hs hsd => ?_) h1 h2
    have := h.noCrossLo s hs hsd
    by_cases hs' : st.agbno ≤ s.startblock
    · exact .inr (hmin s hs hsd hs')
    · omega

theorem adjusted_front {lo len n k : Nat} (hn : n ≤ len)
    (hcount : ∀ b, lo ≤ b → b < lo + n → adjustedCount adj ((C b).getD 1) = k) :
    Adjusted adj C lo (lo + len) (setRange C lo n (if k ≤ 1 then none else some k)) (lo + n)
      (lo + n + (len - n)) (if k = 0 then [(lo, n)] else []) :=
  adjusted_setRange (by omega) (by omega) (by omega) (fun b => by omega) hcount

theorem LoopInv.advance {C' : Nat → Option Nat} {cur : RefcCur} (h : LoopInv g C other st)
    (hn : n ≤ st.aglen) (hrep : Rep g .shared C' other cur.bt.recs)
    (hseek : Seek refcKey cur.bt (refcountEncodeStartblock (st.agbno + n) .shared))
    (hnc : NoCross .shared st.cur.bt.recs (st.agbno + n))
    (hold : ∀ s ∈ cur.bt.recs, s ∈ st.cur.bt.recs ∨ s.startblock + s.blockcount = st.agbno + n) :
    LoopInv g C' other ⟨cur, st.agbno + n, st.aglen - n⟩ := by
  have hmin := h.min
  have hmax := h.max
  have hrest : st.agbno + n + (st.aglen - n) = st.agbno + st.aglen := by omega
  refine ⟨hrep, hseek, by simp only; omega, by simp only; omega, ?_, ?_⟩
  · intro s hs hsd hc
    rcases hold s hs with hs' | hend
    · exact hnc s hs' hsd hc
    · simp only at hc
      omega
  · simp only [hrest]
    intro s hs hsd hc
    rcases hold s hs with hs' | hend
    · exact h.noCrossHi s hs' hsd hc
    · omega

theorem refcountFillHole_spec {lo : Nat} (hadj : adj.IsShared) (h : Rep g .shared C other c.bt.recs)
    (hs : Seek refcKey c.bt (refcountEncodeStartblock lo .shared)) (hpos : 0 < n)
    (hmin : g.minGbno ≤ lo) (hmax : lo + n ≤ g.blockCount)
    (hgap : ∀ b, lo ≤ b ∧ b < lo + n → C b = none) :
    ∃ cur, refcountFillHole g c ⟨lo, n, adj.apply 1, .shared⟩ = .ok cur ∧ cur.nrOps = c.nrOps ∧
      Rep g .shared (setRange C lo n (if adj.apply 1 ≤ 1 then none else some (adj.apply 1))) other
        cur.bt.recs ∧
      cur.freed = c.freed ++ (if adj.apply 1 = 0 then [(lo, n)] else []) ∧
      (∀ s ∈ cur.bt.recs, s ∈ c.bt.recs ∨ s.startblock + s.blockcount = lo + n) ∧
      ∀ s ∈ c.bt.recs, s ∈ cur.bt.recs := by
  rcases hadj with rfl | rfl
  · have hcheck : refcountCheckIrec g ⟨lo, n, 2, .shared⟩ :=
      refcountCheckIrec_iff.mpr ⟨hpos, hmin, hmax, by simp, by simp [refcRefcountMax], by simp,
        by simp⟩
    obtain ⟨bt, hins, hrep, hmem⟩ := refcountInsert_spec (x := ⟨lo, n, 2, .shared⟩) h hs rfl hcheck
      hgap
    refine ⟨c.setBt bt, hins, rfl, hrep, by simp [RefcAdjustOp.apply, add32, RefcCur.setBt],
      fun s hs => ?_, fun s hs => (hmem s).mpr (.inr hs)⟩
    rcases (hmem s).mp hs with rfl | hs
    · exact .inr rfl
    · exact .inl hs
  · have hver : verifyGbext g lo n := verifyGbext_iff.mpr ⟨hpos, hmin, hmax⟩
    refine ⟨{ c with freed := c.freed ++ [(lo, n)] }, ?_, rfl, ?_, rfl, fun s hs => .inl hs,
      fun s hs => hs⟩
    · simp [refcountFillHole, RefcAdjustOp.apply, sub32, xrefcFreeExtent, hver]
    · have hsame : setRange C lo n none = C := setRange_self hgap
      exact hsame.symm ▸ h

theorem refcountAdjustHole_spec (space : Nat → Bool) (hadj : adj.IsShared)
    (h : LoopInv g C other st)
    (hpos : 0 < st.aglen)
    (ha : Ahead g C st.cur.bt.recs st.agbno (st.agbno + st.aglen) ext) :
    ∃ st' goOn, refcountAdjustHole g space st ext adj = .ok (st', goOn) ∧
      ∃ C' F, Rep g .shared C' other st'.cur.bt.recs ∧
        Adjusted adj C st.agbno (st.agbno + st.aglen) C' st'.agbno (st'.agbno + st'.aglen) F ∧
        st'.cur.freed = st.cur.freed ++ F ∧
        (goOn → LoopInv g C' other st' ∧ ext.startblock = st'.agbno ∧ 0 < st'.aglen ∧
          ext ∈ st'.cur.bt.recs ∧ ext.domain = .shared) ∧
        (goOn = false → st'.aglen < st.aglen ∧ ((∀ n, space n) → st'.aglen = 0)) := by
  have hg := g.blockCount_lt
  have hmax := h.max
  have hle := ha.le
  have hlt := ha.lt
  by_cases hstart : ext.startblock = st.agbno
  · refine ⟨st, true, by simp [refcountAdjustHole, hstart], C, [], h.rep,
      Adjusted.refl adj C (by omega), by simp, fun _ => ⟨h, hstart, hpos, ha.mem (by omega)⟩,
      fun hf => Bool.noConfusion hf⟩
  have hsub : sub32 ext.startblock st.agbno = ext.startblock - st.agbno :=
    sub32_eq hle (by omega)
  obtain ⟨n, hn⟩ : ∃ n, n = min st.aglen (ext.startblock - st.agbno) := ⟨_, rfl⟩
  have hgap : ∀ b, st.agbno ≤ b ∧ b < st.agbno + n → C b = none :=
    fun b hb => ha.gap b hb.1 (by omega)
  obtain ⟨cur, hfill, hops, hrep, hfreed, hold, hkeep⟩ := refcountFillHole_spec
    (c := { st.cur with nrOps := st.cur.nrOps + 1 }) hadj h.rep h.seek (by omega)
    h.min (by omega) hgap
  have hcount : ∀ b, st.agbno ≤ b → b < st.agbno + n →
      adjustedCount adj ((C b).getD 1) = adj.apply 1 := by
    intro b h1 h2
    rw [hgap b ⟨h1, h2⟩]
    rcases hadj with rfl | rfl <;> decide
  have hadj' := adjusted_front (show n ≤ st.aglen by omega) hcount
  have hagbno : add32 st.agbno n = st.agbno + n := add32_eq (by omega)
  have haglen : sub32 st.aglen n = st.aglen - n := sub32_eq (by omega) (by omega)
  have hnr : cur.nrOps ≠ 0 := by
    rw [hops]
    exact Nat.succ_ne_zero _
  -- once the hole is filled the pass ends, stops for want of space or goes on
  have hrun : refcountAdjustHole g space st ext adj =
      if st.aglen - n = 0 then .ok (⟨cur, st.agbno + n, st.aglen - n⟩, false)
      else if space cur.asked = false then
        .ok (⟨{ cur with asked := cur.asked + 1 }, st.agbno + n, st.aglen - n⟩, false)
      else .ok (⟨(refcountLookupGe { cur with asked := cur.asked + 1 } .shared
        (st.agbno + n)).1, st.agbno + n, st.aglen - n⟩, true) := by
    simp only [refcountAdjustHole, if_neg hstart, hsub, ← hn, hfill, ok_bind, hagbno, haglen,
      refcountStillHaveSpace, if_neg hnr]
    rfl
  by_cases hdone : st.aglen - n = 0
  · exact ⟨_, false, by rw [hrun, if_pos hdone], _, _, hrep, hadj', hfreed,
      fun hf => Bool.noConfusion hf, fun _ => ⟨by simp only; omega, fun _ => hdone⟩⟩
  cases hmore : space cur.asked with
  | false =>
    exact ⟨_, false, by rw [hrun, if_neg hdone, if_pos hmore], _, _, hrep, hadj', hfreed,
      fun hf => Bool.noConfusion hf,
      fun _ => ⟨by simp only; omega, fun hall => absurd (hall cur.asked) (by simp [hmore])⟩⟩
  | true =>
    obtain ⟨bt, hge, hrecs, hseek⟩ := refcountLookupGe_eq
      { cur with asked := cur.asked + 1 } .shared (st.agbno + n)
    obtain ⟨hextMem, hextDom⟩ := ha.mem (by omega)
    have hnc : NoCross .shared st.cur.bt.recs (st.agbno + n) := by
      intro s hs hsd hc
      have hnone := hgap (st.agbno + n - 1) (by omega)
      rw [h.rep.of_mem hs hsd ⟨by omega, by omega⟩] at hnone
      cases hnone
    rw [← hrecs] at hrep hold hkeep
    refine ⟨⟨RefcCur.setBt { cur with asked := cur.asked + 1 } bt, st.agbno + n, st.aglen - n⟩,
      true, by rw [hrun, if_neg hdone, if_neg (by simp [hmore]), hge], _, _, hrep, hadj', hfreed,
      fun _ => ⟨h.advance (by omega) hrep hseek hnc hold, by simp only; omega,
        by simp only; omega, hkeep ext hextMem, hextDom⟩, fun hf => Bool.noConfusion hf⟩

theorem adjust_shared_count (hadj : adj.IsShared) (h2 : 2 ≤ n) (hmax : n < refcRefcountMax) :
    adj.apply n = adjustedCount adj n ∧ 1 ≤ adj.apply n ∧ adj.apply n ≤ refcRefcountMax := by
  have hne : n ≠ refcRefcountMax := by omega
  have htop : refcRefcountMax = 2 ^ 32 - 1 := rfl
  rcases hadj with rfl | rfl
  · have hadd : add32 n 1 = n + 1 := add32_eq (by omega)
    rw [RefcAdjustOp.apply, hadd, adjustedCount, if_neg hne]
    exact ⟨rfl, by omega, by omega⟩
  · have hsub : sub32 n 1 = n - 1 := sub32_eq (by omega) (by omega)
    rw [RefcAdjustOp.apply, hsub, adjustedCount, if_neg hne]
    exact ⟨rfl, by omega, by omega⟩

theorem refcountAdjustRec_spec (hadj : adj.IsShared) (h : LoopInv g C other st)
    (hmem : ext ∈ st.cur.bt.recs) (hd : ext.domain = .shared) (hstart : ext.startblock = st.agbno)
    (hpos : 0 < st.aglen) :
    ∃ st', refcountAdjustRec g st ext adj = .ok st' ∧ ∃ C', LoopInv g C' other st' ∧
        Adjusted adj C st.agbno (st.agbno + st.aglen) C' st'.agbno (st'.agbno + st'.aglen) [] ∧
        st'.cur.freed = st.cur.freed ∧ st'.aglen < st.aglen := by
  have hg := g.blockCount_lt
  have hmax := h.max
  have hec := refcountCheckIrec_iff.mp (h.rep.wf.check ext hmem)
  have htwo := hec.2.2.2.2.2.2 hd
  have hfits : ext.blockcount ≤ st.aglen := by
    have := h.noCrossHi ext hmem hd
    omega
  have hat : st.cur.bt.rec? = some ext := by
    refine Cursor.rec?_of_seek h.rep.wf.ordered hmem ?_
    rw [refcKey, hd, hstart]
    exact h.seek
  have hagbno : add32 st.agbno ext.blockcount = st.agbno + ext.blockcount := add32_eq (by omega)
  have haglen : sub32 st.aglen ext.blockcount = st.aglen - ext.blockcount :=
    sub32_eq hfits (by omega)
  have hguard : ¬ (ext.blockcount = 0 ∨ st.aglen < ext.blockcount) := by omega
  have hcov : ∀ b, st.agbno ≤ b ∧ b < st.agbno + ext.blockcount → C b = some ext.refcount :=
    fun b hb => h.rep.of_mem hmem hd (by rw [← hstart] at hb; exact hb)
  have hnc : NoCross .shared st.cur.bt.recs (st.agbno + ext.blockcount) :=
    hstart ▸ h.rep.wf.noCross_end hmem hd
  -- all blocks of the record get the same count
  have hadj' : ∀ k, adjustedCount adj ext.refcount = k →
      Adjusted adj C st.agbno (st.agbno + st.aglen)
        (setRange C st.agbno ext.blockcount (if k ≤ 1 then none else some k))
        (st.agbno + ext.blockcount) (st.agbno + ext.blockcount + (st.aglen - ext.blockcount))
        (if k = 0 then [(st.agbno, ext.blockcount)] else []) :=
    fun k hk => adjusted_front hfits fun b h1 h2 => by
      rw [hcov b ⟨h1, h2⟩]
      exact hk
  by_cases hpinned : ext.refcount = refcRefcountMax
  · have hadj' := hadj' refcRefcountMax (by simp [adjustedCount, hpinned])
    have hsame : setRange C st.agbno ext.blockcount (some refcRefcountMax) = C :=
      setRange_self (hpinned ▸ hcov)
    rw [if_neg (by decide), if_neg (by decide), hsame] at hadj'
    have hseek := seek_increment_end h.rep.wf hat hd
    rw [hstart] at hseek
    refine ⟨⟨st.cur.increment.1, st.agbno + ext.blockcount, st.aglen - ext.blockcount⟩, ?_, C,
      h.advance hfits h.rep hseek hnc (fun s hs => .inl hs), hadj', rfl,
      by simp only; omega⟩
    simp [refcountAdjustRec, hguard, hpinned, hagbno, haglen]
  obtain ⟨happly, hone, htop⟩ := adjust_shared_count hadj htwo (by omega)
  have hadj' := hadj' _ happly.symm
  rw [if_neg (show ¬ adj.apply ext.refcount = 0 by omega)] at hadj'
  by_cases hlive : 1 < adj.apply ext.refcount
  · let ext' : RefcountIrec := { ext with refcount := adj.apply ext.refcount }
    have hcheck : refcountCheckIrec g ext' :=
      refcountCheckIrec_iff.mpr ⟨hec.1, hec.2.1, hec.2.2.1, by simp only [ext']; omega, htop,
        fun hf => by simp [ext', hd] at hf, fun _ => hlive⟩
    obtain ⟨bt, hupd, hrep, hat', hmem'⟩ := refcountUpdate_spec (x := ext')
      (c := { st.cur with nrOps := st.cur.nrOps + 1 }) h.rep hat hd hd hcheck
      (fun b hb => .inl hb) ⟨le_rfl, by omega⟩ ⟨le_rfl, by simp only [ext']; omega⟩
    have hmap : setRange (setRange C ext.startblock ext.blockcount none) ext'.startblock
        ext'.blockcount (some ext'.refcount) =
        setRange C st.agbno ext.blockcount (some (adj.apply ext.refcount)) := by
      funext b
      simp only [setRange, ext', hstart]
      split_ifs <;> rfl
    rw [if_neg (by omega), ← hmap] at hadj'
    have hseek := seek_increment_end hrep.wf hat' hd
    simp only [ext', hstart] at hseek
    refine ⟨⟨(RefcCur.setBt { st.cur with nrOps := st.cur.nrOps + 1 } bt).increment.1,
      st.agbno + ext.blockcount, st.aglen - ext.blockcount⟩, ?_, _,
      h.advance hfits hrep hseek hnc (fun s hs => ?_), hadj', rfl, by simp only; omega⟩
    · simp only [refcountAdjustRec, hguard, hpinned, if_false, hagbno, haglen, hlive, if_true]
      rw [hupd]
      rfl
    · rcases (hmem' s).mp hs with rfl | ⟨hs', -⟩
      · exact .inr (by rw [← hstart])
      · exact .inl hs'
  · -- one owner is left: the record goes away
    have hsingle : adj.apply ext.refcount = 1 := by omega
    obtain ⟨bt, hdel, hrep, hseek, hmem'⟩ := refcountDelete_spec
      (c := { st.cur with nrOps := st.cur.nrOps + 1 }) h.rep hat hd
    rw [hstart] at hrep
    rw [refcKey, hd, hstart, seek_iff_of_gap hrep.wf
      (show st.agbno ≤ st.agbno + ext.blockcount by omega) (by omega)
      (hrep.gap fun b h1 h2 => setRange_in ⟨h1, h2⟩)] at hseek
    rw [if_pos (by omega)] at hadj'
    refine ⟨⟨RefcCur.setBt { st.cur with nrOps := st.cur.nrOps + 1 } bt,
      st.agbno + ext.blockcount, st.aglen - ext.blockcount⟩, ?_, _,
      h.advance hfits hrep hseek hnc (fun s hs => .inl ((hmem' s).mp hs).1), hadj', rfl,
      by simp only; omega⟩
    simp only [refcountAdjustRec, hguard, hpinned, if_false, hagbno, haglen, hsingle,
      lt_irrefl, if_true, hdel]
    rfl

/-- What a run of the loop, or of a call, achieves whatever the log space is. -/
structure AdjustSpec (g : Group) (adj : RefcAdjustOp) (space : Nat → Bool)
    (C : Nat → Option Nat) (other : RefcountIrec → Prop) (c : RefcCur) (lo len : Nat)
    (st' : AdjustState) : Prop where
  step : ∃ C' F, Rep g .shared C' other st'.cur.bt.recs ∧
    Adjusted adj C lo (lo + len) C' st'.agbno (st'.agbno + st'.aglen) F ∧
    st'.cur.freed = c.freed ++ F
  unlimited : (∀ n, space n = true) → st'.aglen = 0
  progress : 0 < len → c.nrOps = 0 → st'.aglen < len

section

variable (hadj : adj.IsShared) (space : Nat → Bool)
include hadj

theorem refcountAdjustLoop_spec (fuel : Nat) : ∀ st C, LoopInv g C other st → st.aglen ≤ fuel →
      ∃ st', refcountAdjustLoop g space adj fuel st = .ok st' ∧
        AdjustSpec g adj space C other st.cur st.agbno st.aglen st' := by
  induction fuel with
  | zero =>
    intro st C h hle
    exact ⟨st, rfl, ⟨C, [], h.rep, Adjusted.refl adj C (by omega), by simp⟩, fun _ => by omega,
      fun hpos => by omega⟩
  | succ fuel ih =>
    intro st C h hle
    by_cases hz : st.aglen = 0
    · refine ⟨st, by simp [refcountAdjustLoop, hz],
        ⟨C, [], h.rep, Adjusted.refl adj C (by omega), by simp⟩, fun _ => hz,
        fun hpos => by omega⟩
    -- ask for space, then handle the hole and the record after it
    let cur1 : RefcCur := { st.cur with asked := st.cur.asked + 1 }
    by_cases hmore : (if st.cur.nrOps = 0 then true else space st.cur.asked) = true
    case neg =>
      have hmore' : (if st.cur.nrOps = 0 then true else space st.cur.asked) = false :=
        Bool.not_eq_true _ ▸ hmore
      refine ⟨{ st with cur := cur1 }, ?_,
        ⟨C, [], h.rep, Adjusted.refl adj C (by omega), by simp [cur1]⟩, fun hall => ?_,
        fun _ hops => ?_⟩
      · simp only [refcountAdjustLoop, hz, if_false, refcountStillHaveSpace, hmore', if_true]
        rfl
      · simp [hall] at hmore
      · simp [hops] at hmore
    case pos =>
      have h1 : LoopInv g C other { st with cur := cur1 } :=
        ⟨h.rep, h.seek, h.min, h.max, h.noCrossLo, h.noCrossHi⟩
      obtain ⟨ext, hget, hahead⟩ := h1.ahead
      obtain ⟨st2, goOn, hhole, C2, F2, hrep2, hadj2, hfreed2, hgo, hstop⟩ :=
        refcountAdjustHole_spec space hadj h1 (pos_of_ne_zero hz) hahead
      -- the record read this pass, with the stand-in past the end of the group
      have hunfold : refcountAdjustLoop g space adj (fuel + 1) st = (do
          if goOn = false then pure st2 else
          let st ← refcountAdjustRec g st2 ext adj
          refcountAdjustLoop g space adj fuel st) := by
        simp only [refcountAdjustLoop, hz, if_false, refcountStillHaveSpace, hmore,
          Bool.true_eq_false]
        rcases hget with ⟨hget, hd⟩ | ⟨hget | ⟨r, hget, hd⟩, rfl⟩
        · simp only [cur1] at hget
          simp only [hget, bind, Except.bind, hd, if_true]
          rw [hhole]
        · simp only [cur1] at hget
          simp only [hget, bind, Except.bind]
          rw [hhole]
        · simp only [cur1] at hget
          simp only [hget, bind, Except.bind, hd, if_false]
          rw [hhole]
      cases goOn with
      | false =>
        obtain ⟨hlt, hall⟩ := hstop rfl
        refine ⟨st2, by rw [hunfold]; rfl, ⟨C2, F2, hrep2, hadj2, hfreed2⟩, hall, fun _ _ => hlt⟩
      | true =>
        obtain ⟨hinv2, hstart2, hpos2, hmem2, hdom2⟩ := hgo rfl
        obtain ⟨st3, hrec, C3, hinv3, hadj3, hfreed3, hlt3⟩ :=
          refcountAdjustRec_spec hadj hinv2 hmem2 hdom2 hstart2 hpos2
        have hle2 : st2.aglen ≤ st.aglen := by
          have h1 := hadj2.lo_le
          have h2 := hadj2.le_hi
          simp only at h1 h2
          omega
        obtain ⟨st4, hloop, ⟨C4, F4, hrep4, hadj4, hfreed4⟩, hall4, -⟩ :=
          ih st3 C3 hinv3 (by omega)
        have hle4 : st4.aglen ≤ st3.aglen := by
          have h1 := hadj4.lo_le
          have h2 := hadj4.le_hi
          omega
        refine ⟨st4, ?_, ⟨C4, F2 ++ F4, hrep4, ?_, ?_⟩, hall4, fun _ _ => by omega⟩
        · rw [hunfold]
          simp only [Bool.true_eq_false, if_false, hrec]
          exact hloop
        · have hadj' := (hadj2.trans hadj3).trans hadj4
          rwa [List.append_nil] at hadj'
        · rw [hfreed4, hfreed3, hfreed2, List.append_assoc]

theorem refcountAdjustExtents_spec (h : Rep g .shared C other c.bt.recs) {lo len : Nat}
    (hmin : g.minGbno ≤ lo) (hmax : lo + len ≤ g.blockCount)
    (hnc : 0 < len → NoCross .shared c.bt.recs lo ∧ NoCross .shared c.bt.recs (lo + len)) :
    ∃ st', refcountAdjustExtents g space c lo len adj = .ok st' ∧
      AdjustSpec g adj space C other c lo len st' := by
  by_cases hz : len = 0
  · refine ⟨⟨c, lo, len⟩, by simp only [refcountAdjustExtents, hz, if_true]; rfl,
      ⟨C, [], h, Adjusted.refl adj C (by omega), by simp⟩, fun _ => hz, fun hpos => by omega⟩
  obtain ⟨bt, hge, hrecs, hseek⟩ := refcountLookupGe_eq c .shared lo
  obtain ⟨hlo, hhi⟩ := hnc (pos_of_ne_zero hz)
  have hinv : LoopInv g C other ⟨c.setBt bt, lo, len⟩ := by
    refine ⟨?_, hseek, hmin, hmax, ?_, ?_⟩ <;> simpa only [RefcCur.setBt_bt, hrecs]
  obtain ⟨st', hloop, hspec⟩ := refcountAdjustLoop_spec hadj space len _ C hinv le_rfl
  refine ⟨st', ?_, hspec.step, hspec.unlimited, hspec.progress⟩
  simp only [refcountAdjustExtents, hz, if_false, hge]
  exact hloop

theorem refcountAdjust_spec (h : Rep g .shared C other c.bt.recs) {agbno aglen : Nat}
    (hext : verifyGbext g agbno aglen) :
    ∃ st', refcountAdjust g space c agbno aglen adj = .ok st' ∧
      AdjustSpec g adj space C other c agbno aglen st' := by
  obtain ⟨hpos, hmin, hmax⟩ := verifyGbext_iff.mp hext
  have hg := g.blockCount_lt
  have hsum : add32 agbno aglen = agbno + aglen := add32_eq (by omega)
  have hlen : agbno + aglen - agbno = aglen := by omega
  obtain ⟨bt1, ch1, hsplit1, hrep1, hnc1, -⟩ :=
    refcountSplitExtent_spec (n := agbno) h (by omega)
  obtain ⟨bt2, ch2, hsplit2, hrep2, hnc2, hkeep, -⟩ :=
    refcountSplitExtent_spec (c := c.setBt bt1) (n := agbno + aglen) hrep1 (by omega)
  obtain ⟨m, hmerge, ⟨bt, hcur⟩, ⟨C', hrep, hadj'⟩, hnc⟩ :=
    refcountMergeExtents_spec (c := c.setBt bt2) adj hrep2 hmin
      (by omega) hmax (hkeep agbno hnc1) hnc2
  rw [hlen] at hmerge
  have hlo := hadj'.lo_le
  have hhi := hadj'.le_hi
  -- the count of shape changes plays no part in what follows
  let cur : RefcCur := if ch1 || ch2 || m.shapeChanged then
      { m.cur with shapeChanges := m.cur.shapeChanges + 1 }
    else m.cur
  have hbt : cur.bt = m.cur.bt := by simp only [cur]; split <;> rfl
  have hfreed : cur.freed = c.freed := by simp only [cur, hcur]; split <;> rfl
  have hops : cur.nrOps = c.nrOps := by simp only [cur, hcur]; split <;> rfl
  obtain ⟨st', hextents, ⟨C2, F, hrep3, hadj2, hfreed2⟩, hall, hprog⟩ :=
    refcountAdjustExtents_spec hadj space (hbt ▸ hrep) (by omega) (by omega) (hbt ▸ hnc)
  refine ⟨st', ?_, ⟨C2, F, hrep3, ?_, by rw [hfreed2, hfreed]⟩, hall, fun _ hnr => ?_⟩
  · simp only [refcountAdjust, hsplit1, hsum, bind, Except.bind]
    simp only [RefcCur.setBt_setBt] at hsplit2
    simp only [hsplit2, hmerge]
    exact hextents
  · simpa using hadj'.trans hadj2
  · have h1 := hadj2.lo_le
    have h2 := hadj2.le_hi
    by_cases hm : m.aglen = 0
    · omega
    · omega

end

structure RangeAdjusted (g : Group) (adj : RefcAdjustOp) (recs recs' : List RefcountIrec)
    (lo len : Nat) (queued : List (Nat × Nat)) : Prop where
  wf : RefcWF g .shared recs'
  outside : ∀ b, ¬ (lo ≤ b ∧ b < lo + len) → rc recs' b = rc recs b
  cow : ∀ r, r.domain = .cow → (r ∈ recs' ↔ r ∈ recs)
  inside : ∀ b, lo ≤ b → b < lo + len → ¬ (adj = .decrease ∧ rc recs b = 1) →
    rc recs' b = adjustedCount adj (rc recs b)
  freed : ∀ b, timesIn queued b =
    if (lo ≤ b ∧ b < lo + len) ∧ adj = .decrease ∧ rc recs b = 1 then 1 else 0
  unrecorded : ∀ b, timesIn queued b = 1 → refcCover .shared recs' b = none

theorem adjustedCount_eq_zero_iff (hadj : adj.IsShared) (hn : 0 < n) :
    adjustedCount adj n = 0 ↔ adj = .decrease ∧ n = 1 := by
  have htop : refcRefcountMax = 2 ^ 32 - 1 := rfl
  unfold adjustedCount
  by_cases hm : n = refcRefcountMax
  · rw [if_pos hm]
    omega
  · rw [if_neg hm]
    rcases hadj with rfl | rfl
    · simp
    · simp
      omega

theorem adjustedEntry_getD {o : Option Nat} (h : adjustedCount adj (o.getD 1) ≠ 0) :
    (adjustedEntry adj o).getD 1 = adjustedCount adj (o.getD 1) := by
  unfold adjustedEntry
  split
  · simp only [Option.getD_none]
    omega
  · rfl

theorem rc_pos {recs : List RefcountIrec} (h : RefcWF g .shared recs) (b : Nat) :
    0 < rc recs b := by
  unfold rc
  cases hc : refcCover .shared recs b with
  | none => exact Nat.one_pos
  | some n =>
    obtain ⟨r, hr, -, -, hn⟩ := (h.rep.cover b n).mp hc
    have := refcountCheckIrec_iff.mp (h.check r hr)
    simp only [Option.getD_some]
    omega

theorem Adjusted.rangeAdjusted (hadj : adj.IsShared) {recs recs' : List RefcountIrec}
    (hwf : RefcWF g .shared recs) {C' : Nat → Option Nat} {lo len lo' : Nat}
    {freed : List (Nat × Nat)}
    (hrep : Rep g .shared C' (fun r => r ∈ recs) recs')
    (h : Adjusted adj (refcCover .shared recs) lo (lo + len) C' lo' lo' freed) :
    RangeAdjusted g adj recs recs' lo len freed := by
  have hC := hrep.eq_refcCover
  have hnone : ∀ b, ¬ (lo' ≤ b ∧ b < lo') := fun b hb => by omega
  have hzero : ∀ b, adjustedCount adj ((refcCover .shared recs b).getD 1) = 0 ↔
      adj = .decrease ∧ rc recs b = 1 := fun b => adjustedCount_eq_zero_iff hadj (rc_pos hwf b)
  refine ⟨hrep.wf, fun b hb => ?_, fun r hr => hrep.other r (by simp [hr]), fun b h1 h2 hne => ?_,
    fun b => ?_, fun b hb => ?_⟩
  · rw [rc, ← hC, h.same b (.inl hb), rc]
  · rw [rc, ← hC, h.done b h1 h2 (hnone b), rc]
    exact adjustedEntry_getD (fun hz => hne ((hzero b).mp hz))
  · rw [h.freed b]
    simp [hzero]
  · rw [h.freed b] at hb
    split at hb
    case isFalse => cases hb
    case isTrue hin =>
      rw [← hC, h.done b hin.1.1 hin.1.2 (hnone b), adjustedEntry, hin.2.2]
      rfl

/-- With unlimited log space one call adjusts the whole range. -/
theorem refcountAdjust_unlimited (g : Group) (c : RefcCur) (agbno aglen : Nat)
    (adj : RefcAdjustOp) (hadj : adj = .increase ∨ adj = .decrease)
    (hwf : RefcWF g .shared c.recs) (hext : verifyGbext g agbno aglen = true) :
    ∃ st freed, refcountAdjust g (fun _ => true) c agbno aglen adj = .ok st ∧ st.aglen = 0 ∧
      st.cur.freed = c.freed ++ freed ∧
      RangeAdjusted g adj c.recs st.cur.recs agbno aglen freed := by
  obtain ⟨st, hrun, ⟨C', F, hrep, hadj', hfreed⟩, hall, -⟩ :=
    refcountAdjust_spec hadj (fun _ => true) hwf.rep hext
  have hz := hall (fun _ => rfl)
  rw [hz] at hadj'
  exact ⟨st, F, hrun, hz, hfreed, hadj'.rangeAdjusted hadj hwf hrep⟩

def sampleRecs : List RefcountIrec :=
  [⟨8, 4, 2, .shared⟩, ⟨12, 6, 3, .shared⟩, ⟨30, 5, 1, .cow⟩]

theorem sampleRecs_wf : RefcWF sampleGroup .shared sampleRecs :=
  ⟨by unfold Ordered; decide, by decide, by decide⟩

theorem refcountAdjust_unlimited_sample :
    ∃ st freed, refcountAdjust sampleGroup (fun _ => true) ⟨⟨sampleRecs, 0⟩, 0, 0, 0, []⟩ 6 8
        .decrease = .ok st ∧ st.aglen = 0 ∧ st.cur.freed = [] ++ freed ∧
      RangeAdjusted sampleGroup .decrease sampleRecs st.cur.recs 6 8 freed :=
  refcountAdjust_unlimited sampleGroup ⟨⟨sampleRecs, 0⟩, 0, 0, 0, []⟩ 6 8 .decrease
    (.inr rfl) sampleRecs_wf (by decide)

end Xfs
