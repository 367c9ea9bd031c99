import Xfs.Refcount.Primitives

/-! Splitting at the ends of the range and finding the neighbours. -/
namespace Xfs

open RecordCursor

variable {g : Group} {d : RefcDomain} {C : Nat → Option Nat} {other : RefcountIrec → Prop}
  {c : RefcCur} {r x left cleft right cright : RefcountIrec} {n m agbno aglen : Nat}
  {bt : Cursor RefcountIrec}

/-- No record of the domain reaches across the block boundary `n`. -/
def NoCross (d : RefcDomain) (recs : List RefcountIrec) (n : Nat) : Prop :=
  ∀ r ∈ recs, r.domain = d → ¬ (r.startblock < n ∧ n < r.startblock + r.blockcount)

section

variable {recs : List RefcountIrec} (h : RefcWF g d recs) (hx : x ∈ recs) (hd : x.domain = d)
include h hx hd

theorem RefcWF.noCross_start : NoCross d recs x.startblock := by
  intro s hs hsd hc
  have hxb := h.bounds hx
  have heq := h.eq_of_covers hs hx hsd hd ⟨hc.1.le, hc.2⟩ ⟨le_rfl, by omega⟩
  rw [heq] at hc
  omega

theorem RefcWF.noCross_end : NoCross d recs (x.startblock + x.blockcount) := by
  intro s hs hsd hc
  have hxb := h.bounds hx
  have heq := h.eq_of_covers (b := x.startblock + x.blockcount - 1) hs hx hsd hd
    ⟨by omega, by omega⟩ ⟨by omega, by omega⟩
  rw [heq] at hc
  omega

end

theorem seek_iff_of_gap (hwf : RefcWF g d bt.recs) (hmn : m ≤ n) (hn : n < 2 ^ 31)
    (hgap : ∀ s ∈ bt.recs, s.domain = d → ¬ (m ≤ s.startblock ∧ s.startblock < n)) :
    Seek refcKey bt (refcountEncodeStartblock m d) ↔
      Seek refcKey bt (refcountEncodeStartblock n d) := by
  have hiff : ∀ s ∈ bt.recs, refcKey s < refcountEncodeStartblock m d ↔
      refcKey s < refcountEncodeStartblock n d := by
    intro s hs
    have hsb := hwf.bounds hs
    by_cases hsd : s.domain = d
    · have hs' := hgap s hs hsd
      unfold refcKey refcountEncodeStartblock
      rw [hsd]
      cases d <;> simp only <;> omega
    · unfold refcKey refcountEncodeStartblock
      cases hsd' : s.domain <;> cases d <;> simp only [hsd', not_true_eq_false] at hsd ⊢ <;> omega
  exact ⟨fun h => Cursor.Seek.congr h hiff,
    fun h => Cursor.Seek.congr h (fun s hs => (hiff s hs).symm)⟩

theorem Rep.gap {recs : List RefcountIrec} (h : Rep g d C other recs)
    (hnone' : ∀ b, m ≤ b → b < n → C b = none) :
    ∀ s ∈ recs, s.domain = d → ¬ (m ≤ s.startblock ∧ s.startblock < n) := by
  rintro s hs hsd ⟨h1, h2⟩
  have hnone := hnone' _ h1 h2
  rw [h.start_of_mem hs hsd] at hnone
  cases hnone

theorem seek_increment_end (hwf : RefcWF g d bt.recs) (hr : bt.rec? = some r) (hd : r.domain = d) :
    Seek refcKey bt.increment.1 (refcountEncodeStartblock (r.startblock + r.blockcount) d) := by
  have hmem := Cursor.mem_of_rec? hr
  have hrb := hwf.bounds hmem
  refine Cursor.seek_increment hwf.ordered hr ?_ ?_
  · unfold refcKey refcountEncodeStartblock
    rw [hd]
    cases d <;> simp only <;> omega
  · intro s hs hlt
    have hsb := hwf.bounds hs
    rw [hwf.key_lt_iff hmem hs] at hlt
    unfold refcKey refcountEncodeStartblock
    rcases hlt with ⟨h1, h2⟩ | ⟨h1, h2⟩
    · rw [h2, ← hd, h1]
      simp only
      omega
    · have hne : r ≠ s := fun he => by rw [he] at h2; omega
      have := hwf.disjoint r hmem s hs hd (h1.symm.trans hd) hne
      rw [← h1, hd]
      cases d <;> simp only <;> omega

/-- Either nothing has changed or the record across `n` has become two. -/
def SplitAt (d : RefcDomain) (n : Nat) (recs recs' : List RefcountIrec) : Prop :=
  recs' = recs ∨ ∃ r ∈ recs, r.domain = d ∧ r.startblock < n ∧ n < r.startblock + r.blockcount ∧
    ∀ s, s ∈ recs' ↔ s = { r with blockcount := n - r.startblock } ∨
      s = { r with
        startblock := n
        blockcount := r.blockcount - (n - r.startblock) } ∨
      s ∈ recs ∧ s ≠ r

theorem refcountSplitExtent_spec (h : Rep g d C other c.bt.recs) (hn : n < 2 ^ 31) :
    ∃ bt changed, refcountSplitExtent g c d n = .ok (c.setBt bt, changed) ∧
      Rep g d C other bt.recs ∧ NoCross d bt.recs n ∧
      (∀ m, NoCross d c.bt.recs m → NoCross d bt.recs m) ∧ SplitAt d n c.bt.recs bt.recs := by
  obtain ⟨bt, hlookup, hrecs, hsome, hnone⟩ :=
    refcountLookupLe_cases h.wf hn (Nat.mod_eq_of_lt hn)
  have hrep : Rep g d C other bt.recs := hrecs ▸ h
  -- nothing crosses unless the record found does
  have hdone : (∀ s ∈ c.bt.recs, s.domain = d → ¬ (s.startblock < n ∧
      n < s.startblock + s.blockcount)) → Rep g d C other bt.recs ∧ NoCross d bt.recs n ∧
      (∀ m, NoCross d c.bt.recs m → NoCross d bt.recs m) ∧ SplitAt d n c.bt.recs bt.recs := by
    intro hs
    rw [hrecs]
    exact ⟨h, hs, fun m hm => hm, .inl rfl⟩
  simp only [refcountSplitExtent, hlookup]
  rw [getRecFound_inDomain (hrecs ▸ h.wf)]
  cases hfound : inDomain d bt with
  | none =>
    refine ⟨bt, false, rfl, hdone fun s hs hsd hc => ?_⟩
    have := hnone hfound s hs hsd
    omega
  | some r =>
    obtain ⟨hr, hdom⟩ := inDomain_some.mp hfound
    obtain ⟨hle, hmax⟩ := hsome r hfound
    rw [Option.elim_some]
    have hmem : r ∈ c.bt.recs := hrecs ▸ Cursor.mem_of_rec? hr
    have hrb := h.wf.bounds hmem
    have hnext : refcNext r = r.startblock + r.blockcount := refcNext_eq h.wf hmem
    by_cases hcross : r.startblock = n ∨ refcNext r ≤ n
    · refine ⟨bt, false, if_pos hcross, hdone fun s hs hsd hc => ?_⟩
      have hlast := hmax s hs hsd (by omega)
      have hne : s ≠ r := fun he => by subst he; omega
      have := h.wf.disjoint s hs r hmem hsd hdom hne
      omega
    -- the record is cut in two: first the right part, then the left
    obtain ⟨rstart, rlen, rcount, rdom⟩ := r
    simp only at hdom hrb hle hnext hcross hmax
    subst hdom
    have hlen : sub32 n rstart = n - rstart := sub32_eq hle (by omega)
    have hlen' : sub32 rlen (n - rstart) = rlen - (n - rstart) :=
      sub32_eq (by omega) (by omega)
    have hcheck := refcountCheckIrec_iff.mp (h.wf.check _ hmem)
    let hi : RefcountIrec := ⟨n, rlen - (n - rstart), rcount, rdom⟩
    let lo : RefcountIrec := ⟨rstart, n - rstart, rcount, rdom⟩
    have hhi : refcountCheckIrec g hi :=
      refcountCheckIrec_iff.mpr ⟨by simp only [hi]; omega, by simp only [hi]; omega,
        by simp only [hi]; omega, hcheck.2.2.2⟩
    have hlo : refcountCheckIrec g lo :=
      refcountCheckIrec_iff.mpr ⟨by simp only [lo]; omega, by simp only [lo]; omega,
        by simp only [lo]; omega, hcheck.2.2.2⟩
    obtain ⟨bt1, hupd, hrep1, hat1, hmem1⟩ := refcountUpdate_spec (p := n)
      (c := c.setBt bt) hrep hr rfl (x := hi) rfl hhi
      (by intro b hb; left; simp only [RefcountIrec.Covers, hi] at hb ⊢; omega)
      ⟨by simp only; omega, by simp only; omega⟩ ⟨le_rfl, by simp only [hi]; omega⟩
    have hseek : Seek refcKey bt1 (refcKey lo) := by
      refine (seek_iff_of_gap hrep1.wf hle hn (hrep1.gap fun b h1 h2 => ?_)).mpr
        (Cursor.seek_of_rec? hrep1.wf.ordered hat1)
      rw [setRange_out (by simp only [hi]; omega), setRange_in (by simp only; omega)]
    obtain ⟨bt2, hins, hrep2, hmem2⟩ := refcountInsert_spec (c := c.setBt bt1)
      (x := lo) hrep1 hseek rfl hlo (by
        intro b hb
        simp only [RefcountIrec.Covers, lo] at hb
        rw [setRange_out (by simp only [hi]; omega), setRange_in (by simp only; omega)])
    have hsame : setRange (setRange (setRange C rstart rlen none) n (rlen - (n - rstart))
        (some rcount)) rstart (n - rstart) (some rcount) = C := by
      funext b
      have hcov := h.of_mem (b := b) hmem rfl
      simp only [RefcountIrec.Covers, setRange] at hcov ⊢
      split_ifs with h1 h2 h3
      · exact (hcov (by omega)).symm
      · exact (hcov (by omega)).symm
      · omega
      · rfl
    have hmem' : ∀ s, s ∈ bt2.recs ↔ s = lo ∨ s = hi ∨
        s ∈ c.bt.recs ∧ s ≠ ⟨rstart, rlen, rcount, rdom⟩ := by
      intro s
      rw [hmem2, RefcCur.setBt_bt, hmem1, RefcCur.setBt_bt, hrecs]
    refine ⟨bt2, true, ?_, ?_, ?_, ?_, .inr ⟨_, hmem, rfl, ?_, ?_, hmem'⟩⟩
    · simp only [RefcCur.setBt_setBt] at hupd hins
      simp only [hcross, if_false, hlen, hlen']
      rw [hupd, hins]
      rfl
    · exact hsame ▸ hrep2
    · exact (hsame ▸ hrep2).wf.noCross_start ((hmem' hi).mpr (.inr (.inl rfl))) rfl
    · intro m hm s hs hsd hc
      rcases (hmem' s).mp hs with rfl | rfl | ⟨hs, hne⟩
      · have := hm _ hmem rfl
        simp only [lo] at hc this
        omega
      · have := hm _ hmem rfl
        simp only [hi] at hc this
        omega
      · exact hm s hs hsd hc
    · simp only
      omega
    · simp only
      omega

end Xfs
