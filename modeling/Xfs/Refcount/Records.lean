import Xfs.Refcount.Adjust

/-! Well-formed refcount record sets and the count map they stand for. Edits of single records
become updates of the map on a range of blocks. -/
namespace Xfs

open RecordCursor

def RefcountIrec.Covers (r : RefcountIrec) (b : Nat) : Prop :=
  r.startblock ≤ b ∧ b < r.startblock + r.blockcount

instance (r : RefcountIrec) (b : Nat) : Decidable (r.Covers b) :=
  inferInstanceAs (Decidable (_ ∧ _))

/-- Every record passes the checks, and those of the domain `d` are disjoint. -/
structure RefcWF (g : Group) (d : RefcDomain) (recs : List RefcountIrec) : Prop where
  ordered : Ordered refcKey recs
  check : ∀ r ∈ recs, refcountCheckIrec g r = true
  disjoint : ∀ r ∈ recs, ∀ s ∈ recs, r.domain = d → s.domain = d → r ≠ s →
    r.startblock + r.blockcount ≤ s.startblock ∨ s.startblock + s.blockcount ≤ r.startblock

/-- The count of the record of the domain `d` covering a block. -/
def refcCover (d : RefcDomain) (recs : List RefcountIrec) (b : Nat) : Option Nat :=
  (recs.find? (fun r => decide (r.domain = d ∧ r.Covers b))).map RefcountIrec.refcount

/-- The count of a block: that of the shared record covering it, or one. -/
def rc (recs : List RefcountIrec) (b : Nat) : Nat := (refcCover .shared recs b).getD 1

theorem refcountCheckIrec_iff {g : Group} {r : RefcountIrec} : refcountCheckIrec g r ↔
      0 < r.blockcount ∧ g.minGbno ≤ r.startblock ∧
        r.startblock + r.blockcount ≤ g.blockCount ∧ 0 < r.refcount ∧
        r.refcount ≤ refcRefcountMax ∧
        (r.domain = .cow → r.refcount = 1) ∧ (r.domain = .shared → 2 ≤ r.refcount) := by
  have := g.blockCount_lt
  simp only [refcountCheckIrec, Bool.and_eq_true, decide_eq_true_eq, verifyGbext_iff]
  simp only [refcLenMax, refcRefcountMax]
  cases hd : r.domain <;>
    simp only [refcountCheckDomain, hd, decide_eq_true_eq, reduceCtorEq, false_imp_iff,
      forall_const, and_true, true_and] <;>
    omega

theorem refcKey_lt_iff {r s : RefcountIrec} (hr : r.startblock < 2 ^ 31)
    (hs : s.startblock < 2 ^ 31) :
    refcKey r < refcKey s ↔ (r.domain = .shared ∧ s.domain = .cow) ∨
        (r.domain = s.domain ∧ r.startblock < s.startblock) := by
  unfold refcKey refcountEncodeStartblock
  cases r.domain <;> cases s.domain <;> simp <;> omega

/-- Replace the values of a map on `[lo, lo + len)`. -/
def setRange (C : Nat → Option Nat) (lo len : Nat) (v : Option Nat) : Nat → Option Nat :=
  fun b => if lo ≤ b ∧ b < lo + len then v else C b

theorem setRange_in {C : Nat → Option Nat} {lo len b : Nat} {v : Option Nat}
    (h : lo ≤ b ∧ b < lo + len) : setRange C lo len v b = v := if_pos h

theorem setRange_out {C : Nat → Option Nat} {lo len b : Nat} {v : Option Nat}
    (h : ¬ (lo ≤ b ∧ b < lo + len)) : setRange C lo len v b = C b := if_neg h

structure Rep (g : Group) (d : RefcDomain) (C : Nat → Option Nat) (other : RefcountIrec → Prop)
    (recs : List RefcountIrec) : Prop where
  wf : RefcWF g d recs
  cover : ∀ b n, C b = some n ↔ ∃ r ∈ recs, r.domain = d ∧ r.Covers b ∧ r.refcount = n
  other : ∀ r, r.domain ≠ d → (r ∈ recs ↔ other r)

section Rep

variable {g : Group} {d : RefcDomain} {C : Nat → Option Nat} {other : RefcountIrec → Prop}
  {recs recs' : List RefcountIrec} {r s x : RefcountIrec} {b : Nat}

section

variable (h : RefcWF g d recs) (hr : r ∈ recs)
include h hr

theorem RefcWF.bounds :
    0 < r.blockcount ∧ g.minGbno ≤ r.startblock ∧ r.startblock + r.blockcount ≤ g.blockCount ∧
      r.startblock + r.blockcount < 2 ^ 31 := by
  have hc := refcountCheckIrec_iff.mp (h.check r hr)
  have := g.blockCount_lt
  omega

theorem RefcWF.key_lt_iff (hs : s ∈ recs) : refcKey r < refcKey s ↔
      (r.domain = .shared ∧ s.domain = .cow) ∨
        (r.domain = s.domain ∧ r.startblock < s.startblock) :=
  refcKey_lt_iff (by have := h.bounds hr; omega) (by have := h.bounds hs; omega)

theorem RefcWF.eq_of_covers (hs : s ∈ recs) (hrd : r.domain = d) (hsd : s.domain = d)
    (hrb : r.Covers b) (hsb : s.Covers b) : r = s := by
  by_contra hne
  unfold RefcountIrec.Covers at hrb hsb
  rcases h.disjoint r hr s hs hrd hsd hne with hlt | hlt <;> omega

end

theorem RefcWF.rep (h : RefcWF g d recs) : Rep g d (refcCover d recs) (fun r => r ∈ recs) recs := by
  refine ⟨h, fun b n => ?_, fun _ _ => Iff.rfl⟩
  unfold refcCover
  rw [Option.map_eq_some_iff]
  constructor
  · rintro ⟨r, hf, hn⟩
    have hp := List.find?_some hf
    simp only [decide_eq_true_eq] at hp
    exact ⟨r, List.mem_of_find?_eq_some hf, hp.1, hp.2, hn⟩
  · rintro ⟨r, hr, hd, hb, hn⟩
    cases hf : recs.find? (fun r => decide (r.domain = d ∧ r.Covers b)) with
    | none =>
      have := List.find?_eq_none.mp hf r hr
      simp [hd, hb] at this
    | some s =>
      have hp := List.find?_some hf
      simp only [decide_eq_true_eq] at hp
      have hs := h.eq_of_covers hr (List.mem_of_find?_eq_some hf) hd hp.1 hb hp.2
      exact ⟨s, rfl, by rw [← hs, hn]⟩

section

variable (h : Rep g d C other recs)
include h

theorem Rep.eq_refcCover : C = refcCover d recs := by
  funext b
  apply Option.ext
  intro n
  rw [h.cover b n, h.wf.rep.cover b n]

theorem Rep.of_mem (hr : r ∈ recs) (hd : r.domain = d) (hb : r.Covers b) : C b = some r.refcount :=
  (h.cover b _).mpr ⟨r, hr, hd, hb, rfl⟩

theorem Rep.start_of_mem (hr : r ∈ recs) (hd : r.domain = d) : C r.startblock = some r.refcount :=
  h.of_mem hr hd ⟨le_rfl, by have := h.wf.bounds hr; omega⟩

theorem Rep.beside (hs : s ∈ recs) (hsd : s.domain = d) (hx : ∀ b, x.Covers b → C b = none)
    (hpos : 0 < x.blockcount) :
    s.startblock + s.blockcount ≤ x.startblock ∨ x.startblock + x.blockcount ≤ s.startblock := by
  have hsb := h.wf.bounds hs
  by_contra hcon
  -- the later of the two start blocks would lie in both extents
  have hcommon : s.Covers (max s.startblock x.startblock) ∧
      x.Covers (max s.startblock x.startblock) := by
    unfold RefcountIrec.Covers
    omega
  have hnone := hx _ hcommon.2
  rw [h.of_mem hs hsd hcommon.1] at hnone
  cases hnone

theorem Rep.delete (hr : r ∈ recs) (hd : r.domain = d) (ho : Ordered refcKey recs')
    (hm : ∀ s, s ∈ recs' ↔ s ∈ recs ∧ s ≠ r) :
    Rep g d (setRange C r.startblock r.blockcount none) other recs' := by
  refine ⟨⟨ho, fun s hs => h.wf.check s ((hm s).mp hs).1, fun s hs t ht =>
    h.wf.disjoint s ((hm s).mp hs).1 t ((hm t).mp ht).1⟩, fun b n => ?_, fun s hsd => ?_⟩
  · by_cases hb : r.Covers b
    · rw [setRange_in hb]
      refine ⟨(by intro hf; cases hf), ?_⟩
      rintro ⟨s, hs, hsd, hsb, _⟩
      exact absurd (h.wf.eq_of_covers ((hm s).mp hs).1 hr hsd hd hsb hb) ((hm s).mp hs).2
    · rw [setRange_out hb, h.cover]
      constructor
      · rintro ⟨s, hs, hsd, hsb, hn⟩
        exact ⟨s, (hm s).mpr ⟨hs, fun he => hb (he ▸ hsb)⟩, hsd, hsb, hn⟩
      · rintro ⟨s, hs, hrest⟩
        exact ⟨s, ((hm s).mp hs).1, hrest⟩
  · rw [hm, ← h.other s hsd, and_iff_left]
    rintro rfl
    exact hsd hd

theorem Rep.insert (hd : x.domain = d) (hc : refcountCheckIrec g x)
    (hx : ∀ b, x.Covers b → C b = none) (ho : Ordered refcKey recs')
    (hm : ∀ s, s ∈ recs' ↔ s = x ∨ s ∈ recs) :
    Rep g d (setRange C x.startblock x.blockcount (some x.refcount)) other recs' := by
  have hpos := (refcountCheckIrec_iff.mp hc).1
  refine ⟨⟨ho, fun s hs => ?_, fun s hs t ht hsd htd hne => ?_⟩, fun b n => ?_, fun s hsd => ?_⟩
  · rcases (hm s).mp hs with rfl | hs
    · exact hc
    · exact h.wf.check s hs
  · rcases (hm s).mp hs with rfl | hs <;> rcases (hm t).mp ht with rfl | ht
    · exact absurd rfl hne
    · exact (h.beside ht htd hx hpos).symm
    · exact h.beside hs hsd hx hpos
    · exact h.wf.disjoint s hs t ht hsd htd hne
  · simp only [hm, or_and_right, exists_or, exists_eq_left, ← h.cover]
    by_cases hb : x.Covers b
    · simp [setRange_in hb, hb, hd, hx b hb]
    · simp [setRange_out hb, hb]
  · rw [hm, ← h.other s hsd, or_iff_right]
    rintro rfl
    exact hsd hd

theorem Rep.update (hr : r ∈ recs) (hrd : r.domain = d) (hd : x.domain = d)
    (hc : refcountCheckIrec g x) (hx : ∀ b, x.Covers b → r.Covers b ∨ C b = none)
    (ho : Ordered refcKey recs') (hm : ∀ s, s ∈ recs' ↔ s = x ∨ s ∈ recs ∧ s ≠ r) :
    Rep g d (setRange (setRange C r.startblock r.blockcount none) x.startblock x.blockcount
      (some x.refcount)) other recs' := by
  have hdel : Rep g d _ other (recs.filter (· ≠ r)) :=
    h.delete hr hrd (h.wf.ordered.filter _) fun s => by simp
  refine hdel.insert hd hc (fun b hb => ?_) ho fun s => by simp [hm]
  by_cases hrb : r.Covers b
  · exact setRange_in hrb
  · rw [setRange_out hrb]
    exact (hx b hb).resolve_left hrb

end

end Rep

end Xfs
