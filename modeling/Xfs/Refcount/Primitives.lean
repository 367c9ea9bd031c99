import Xfs.Refcount.Records

/-! The record primitives on a represented record set: what the lookups find
and how deletion, insertion and update change the count map. -/
namespace Xfs

open RecordCursor Cursor

variable {g : Group} {d : RefcDomain} {C : Nat → Option Nat} {other : RefcountIrec → Prop}
  {c : RefcCur} {r x : RefcountIrec} {n : Nat}

@[simp] theorem RefcCur.setBt_bt (c : RefcCur) (bt : Cursor RefcountIrec) :
    (c.setBt bt).bt = bt := rfl

@[simp] theorem RefcCur.setBt_setBt (c : RefcCur) (bt bt' : Cursor RefcountIrec) :
    (c.setBt bt).setBt bt' = c.setBt bt' := rfl

@[simp] theorem RefcCur.setBt_self (c : RefcCur) : c.setBt c.bt = c := rfl

theorem increment_setBt (c : RefcCur) (bt : Cursor RefcountIrec) :
    (c.setBt bt).increment = (c.setBt bt.increment.1, bt.increment.1.rec?.isSome) := by
  rw [← increment_snd]
  rfl

theorem decrement_setBt (c : RefcCur) (bt : Cursor RefcountIrec) :
    (c.setBt bt).decrement = (c.setBt bt.decrement.1, bt.decrement.1.rec?.isSome) := by
  rw [← decrement_snd]
  rfl

theorem refcountGetRec_some (hwf : RefcWF g d c.bt.recs) (hr : c.bt.rec? = some r) :
    refcountGetRec g c = .ok (some r) := by
  simp [refcountGetRec, hr, hwf.check r (mem_of_rec? hr)]

theorem refcountGetRecFound_eq (hwf : RefcWF g d c.bt.recs) (hr : c.bt.rec? = some r) :
    refcountGetRecFound g c = .ok r := by
  simp [refcountGetRecFound, refcountGetRec_some hwf hr]

theorem refcNext_eq (hwf : RefcWF g d c.bt.recs) (hr : r ∈ c.bt.recs) :
    refcNext r = r.startblock + r.blockcount :=
  add32_eq (by have := hwf.bounds hr; omega)

theorem refcKey_cmp_encode (hn : n < 2 ^ 31) (hr : r.startblock < 2 ^ 31) (hd : r.domain = d) :
    (refcKey r ≤ refcountEncodeStartblock n d ↔ r.startblock ≤ n) ∧
      (refcountEncodeStartblock n d ≤ refcKey r ↔ n ≤ r.startblock) := by
  unfold refcKey refcountEncodeStartblock
  rw [hd]
  cases d <;> simp only <;> omega

def inDomain (d : RefcDomain) (bt : Cursor RefcountIrec) : Option RefcountIrec :=
  bt.rec?.filter fun r => decide (r.domain = d)

theorem inDomain_none {bt : Cursor RefcountIrec} (h : inDomain d bt = none)
    (hr : bt.rec? = some r) : r.domain ≠ d := by
  simpa [inDomain, hr, Option.filter] using h

theorem inDomain_some {bt : Cursor RefcountIrec} :
    inDomain d bt = some r ↔ bt.rec? = some r ∧ r.domain = d := by
  rw [inDomain, Option.filter_eq_some_iff, decide_eq_true_eq]

theorem getRecFound_inDomain {bt : Cursor RefcountIrec} (hwf : RefcWF g d bt.recs) {α : Type}
    (none : RefcM α) (some : RefcountIrec → RefcM α) :
    (if bt.rec?.isSome = false then none else
      refcountGetRecFound g (c.setBt bt) >>= fun r => if r.domain ≠ d then none else some r) =
      (inDomain d bt).elim none some := by
  unfold inDomain
  cases hr : bt.rec? with
  | none => rfl
  | some r =>
    have hget : refcountGetRecFound g (c.setBt bt) = .ok r :=
      refcountGetRecFound_eq hwf hr
    by_cases hd : r.domain = d
    · simp [hget, hd, Option.filter]
    · simp [hget, hd, Option.filter]

theorem refcountLookupLe_cases (hwf : RefcWF g d c.bt.recs) {m : Nat} (hm : m < 2 ^ 31)
    (hn : n % 2 ^ 31 = m) :
    ∃ bt, refcountLookupLe c d n = (c.setBt bt, bt.rec?.isSome) ∧ bt.recs = c.bt.recs ∧
      (∀ r, inDomain d bt = some r → r.startblock ≤ m ∧
        ∀ s ∈ c.bt.recs, s.domain = d → s.startblock ≤ m → s.startblock ≤ r.startblock) ∧
      (inDomain d bt = none → ∀ s ∈ c.bt.recs, s.domain = d → m < s.startblock) := by
  have henc : refcountEncodeStartblock n d = refcountEncodeStartblock m d := by
    subst hn
    simp [refcountEncodeStartblock]
  have hlow : ∀ s ∈ c.bt.recs, s.startblock < 2 ^ 31 := fun s hs => by
    have := hwf.bounds hs
    omega
  refine ⟨(c.bt.lookupLE refcKey (refcountEncodeStartblock n d)).1, ?_, rfl, fun r hr => ?_,
    fun hno s hs hsd => ?_⟩
  · simp [refcountLookupLe, ← lookupLE_snd]
  · obtain ⟨hr, hd⟩ := inDomain_some.mp hr
    rw [henc] at hr
    obtain ⟨hmem, hle, hmax⟩ := lookupLE_rec?_some hwf.ordered hr
    refine ⟨(refcKey_cmp_encode hm (hlow r hmem) hd).1.mp hle, fun s hs hsd hsm => ?_⟩
    have hkey := hmax s hs ((refcKey_cmp_encode hm (hlow s hs) hsd).1.mpr hsm)
    by_contra hlt
    have hkey' := (hwf.key_lt_iff hmem hs).mpr (.inr ⟨hd.trans hsd.symm, by omega⟩)
    omega
  · by_contra hsm
    have hsle := (refcKey_cmp_encode hm (hlow s hs) hsd).1.mpr (not_lt.mp hsm)
    cases hr : (c.bt.lookupLE refcKey (refcountEncodeStartblock n d)).1.rec? with
    | none =>
      have := (lookupLE_rec?_none hr).2 s hs
      omega
    | some r =>
      have hd := inDomain_none hno hr
      rw [henc] at hr
      obtain ⟨hmem, hle, hmax⟩ := lookupLE_rec?_some hwf.ordered hr
      have hkey := hmax s hs hsle
      -- the record found has a key at most that of `m`, so it is of the domain before
      have hside : refcKey r < refcKey s := by
        refine (hwf.key_lt_iff hmem hs).mpr (.inl ?_)
        unfold refcKey refcountEncodeStartblock at hle
        cases hrd : r.domain <;> cases d <;> simp_all
        omega
      omega

theorem refcountLookupLe_mem (ho : Ordered refcKey c.bt.recs) (hr : r ∈ c.bt.recs) :
    ∃ bt, refcountLookupLe c r.domain r.startblock = (c.setBt bt, true) ∧
      bt.recs = c.bt.recs ∧ bt.rec? = some r := by
  have hfound := lookupLE_rec?_of_mem ho hr
  refine ⟨(c.bt.lookupLE refcKey (refcKey r)).1, ?_, rfl, hfound⟩
  have hstat : (c.bt.lookupLE refcKey (refcKey r)).2 := by
    rw [lookupLE_snd, hfound]
    rfl
  exact congrArg (Prod.mk _) hstat

theorem refcountLookupGe_eq (c : RefcCur) (d : RefcDomain) (n : Nat) :
    ∃ bt, refcountLookupGe c d n = (c.setBt bt, bt.rec?.isSome) ∧ bt.recs = c.bt.recs ∧
      Seek refcKey bt (refcountEncodeStartblock n d) := by
  refine ⟨(c.bt.lookupGE refcKey (refcountEncodeStartblock n d)).1, ?_, rfl, seek_lookupGE _ _⟩
  simp [refcountLookupGe, ← lookupGE_snd]

theorem seek_cases {bt : Cursor RefcountIrec} (hwf : RefcWF g d bt.recs) (hn : n < 2 ^ 31)
    (hs : Seek refcKey bt (refcountEncodeStartblock n d)) :
    (∀ r, inDomain d bt = some r → n ≤ r.startblock ∧
      ∀ s ∈ bt.recs, s.domain = d → n ≤ s.startblock → r.startblock ≤ s.startblock) ∧
    (inDomain d bt = none → ∀ s ∈ bt.recs, s.domain = d → s.startblock < n) := by
  have hlow : ∀ s ∈ bt.recs, s.startblock < 2 ^ 31 := fun s hs => by
    have := hwf.bounds hs
    omega
  refine ⟨fun r hr => ?_, fun hno s hs' hsd => ?_⟩
  · obtain ⟨hr, hd⟩ := inDomain_some.mp hr
    obtain ⟨hmem, hge, hmin⟩ := seek_rec?_some hwf.ordered hs hr
    refine ⟨(refcKey_cmp_encode hn (hlow r hmem) hd).2.mp hge, fun s hs' hsd hns => ?_⟩
    have hkey := hmin s hs' ((refcKey_cmp_encode hn (hlow s hs') hsd).2.mpr hns)
    by_contra hlt
    have hkey' := (hwf.key_lt_iff hs' hmem).mpr (.inr ⟨hsd.trans hd.symm, by omega⟩)
    omega
  · by_contra hsm
    have hsge := (refcKey_cmp_encode hn (hlow s hs') hsd).2.mpr (not_lt.mp hsm)
    cases hr : bt.rec? with
    | none =>
      have := seek_rec?_none hwf.ordered hs hr s hs'
      omega
    | some r =>
      have hd := inDomain_none hno hr
      obtain ⟨hmem, hge, hmin⟩ := seek_rec?_some hwf.ordered hs hr
      have hkey := hmin s hs' hsge
      have hside : refcKey s < refcKey r := by
        refine (hwf.key_lt_iff hs' hmem).mpr (.inl ?_)
        unfold refcKey refcountEncodeStartblock at hge
        cases hrd : r.domain <;> cases d <;> simp_all
        omega
      omega

section

variable (h : Rep g d C other c.bt.recs)
include h

theorem refcountDelete_spec (hr : c.bt.rec? = some r) (hd : r.domain = d) :
    ∃ bt, refcountDelete g c = .ok (c.setBt bt) ∧
      Rep g d (setRange C r.startblock r.blockcount none) other bt.recs ∧
      Seek refcKey bt (refcKey r) ∧ ∀ s, s ∈ bt.recs ↔ s ∈ c.bt.recs ∧ s ≠ r := by
  obtain ⟨c', hdel, hord, _, hmem⟩ := delete_spec h.wf.ordered hr
  obtain ⟨bt, hge, hrecs, hseek⟩ := refcountLookupGe_eq (c.setBt c') r.domain r.startblock
  refine ⟨bt, ?_, ?_, hseek, ?_⟩
  · simp [refcountDelete, refcountGetRecFound_eq h.wf hr, hdel, hge]
  · rw [hrecs]
    exact h.delete (mem_of_rec? hr) hd hord hmem
  · rw [hrecs]
    exact hmem

theorem refcountInsert_spec (hs : Seek refcKey c.bt (refcKey x)) (hd : x.domain = d)
    (hc : refcountCheckIrec g x) (hx : ∀ b, x.Covers b → C b = none) :
    ∃ bt, refcountInsert c x = .ok (c.setBt bt) ∧
      Rep g d (setRange C x.startblock x.blockcount (some x.refcount)) other bt.recs ∧
      ∀ s, s ∈ bt.recs ↔ s = x ∨ s ∈ c.bt.recs := by
  have hxb := refcountCheckIrec_iff.mp hc
  have hg := g.blockCount_lt
  have hnew : ∀ s ∈ c.bt.recs, refcKey s ≠ refcKey x := by
    intro s hs' heq
    have hsb := h.wf.bounds hs'
    by_cases hsd : s.domain = d
    · have hbeside := h.beside hs' hsd hx hxb.1
      have h1 := mt (refcKey_lt_iff (r := s) (s := x) (by omega) (by omega)).mpr (by omega)
      have h2 := mt (refcKey_lt_iff (r := x) (s := s) (by omega) (by omega)).mpr (by omega)
      have hsx : s.domain = x.domain := hsd.trans hd.symm
      simp only [hsx, true_and, not_or] at h1 h2
      omega
    · have h1 := mt (refcKey_lt_iff (r := s) (s := x) (by omega) (by omega)).mpr (by omega)
      have h2 := mt (refcKey_lt_iff (r := x) (s := s) (by omega) (by omega)).mpr (by omega)
      cases hsdom : s.domain <;> cases hxdom : x.domain <;> simp_all
  obtain ⟨bt, hins, hord, -, hmem⟩ := insert_spec h.wf.ordered hs hnew
  exact ⟨bt, by simp [refcountInsert, hins], h.insert hd hc hx hord hmem, hmem⟩

theorem refcountUpdate_spec {p : Nat} (hr : c.bt.rec? = some r) (hrd : r.domain = d)
    (hd : x.domain = d) (hc : refcountCheckIrec g x)
    (hx : ∀ b, x.Covers b → r.Covers b ∨ C b = none) (hrp : r.Covers p) (hxp : x.Covers p) :
    ∃ bt, refcountUpdate c x = c.setBt bt ∧
      Rep g d (setRange (setRange C r.startblock r.blockcount none) x.startblock x.blockcount
        (some x.refcount)) other bt.recs ∧
      bt.rec? = some x ∧ ∀ s, s ∈ bt.recs ↔ s = x ∨ s ∈ c.bt.recs ∧ s ≠ r := by
  have hmem := mem_of_rec? hr
  have hxb := refcountCheckIrec_iff.mp hc
  have hg := g.blockCount_lt
  have hx31 : x.startblock < 2 ^ 31 := by omega
  -- another record of the domain avoids both extents, which meet at `p`
  have hside : ∀ s ∈ c.bt.recs, s.domain = d → s ≠ r →
      (s.startblock < r.startblock ↔ s.startblock < x.startblock) ∧
        (r.startblock < s.startblock ↔ x.startblock < s.startblock) := by
    intro s hs hsd hne
    have hsb := h.wf.bounds hs
    have hsr := h.wf.disjoint s hs r hmem hsd hrd hne
    have hsx : ¬ x.Covers (max s.startblock x.startblock) ∨
        ¬ s.Covers (max s.startblock x.startblock) := by
      by_contra hcon
      simp only [not_or, not_not] at hcon
      rcases hx _ hcon.1 with hrb | hnone
      · exact hne (h.wf.eq_of_covers hs hmem hsd hrd hcon.2 hrb)
      · rw [h.of_mem hs hsd hcon.2] at hnone
        cases hnone
    unfold RefcountIrec.Covers at hrp hxp hsx
    omega
  have hlow : ∀ s ∈ c.bt.recs, refcKey s < refcKey r → refcKey s < refcKey x := by
    intro s hs hlt
    have hsb := h.wf.bounds hs
    rw [h.wf.key_lt_iff hs hmem] at hlt
    rw [refcKey_lt_iff (by omega) hx31, hd, ← hrd]
    rcases hlt with hlt | ⟨hdom, hlt⟩
    · exact .inl hlt
    · have hne : s ≠ r := fun he => by subst he; omega
      exact .inr ⟨hdom, (hside s hs (hdom.trans hrd) hne).1.mp hlt⟩
  have hhigh : ∀ s ∈ c.bt.recs, refcKey r < refcKey s → refcKey x < refcKey s := by
    intro s hs hlt
    have hsb := h.wf.bounds hs
    rw [h.wf.key_lt_iff hmem hs] at hlt
    rw [refcKey_lt_iff hx31 (by omega), hd, ← hrd]
    rcases hlt with hlt | ⟨hdom, hlt⟩
    · exact .inl hlt
    · have hne : s ≠ r := fun he => by subst he; omega
      exact .inr ⟨hdom, (hside s hs (hdom.symm.trans hrd) hne).2.mp hlt⟩
  obtain ⟨hord, hat, hmem'⟩ := update_spec h.wf.ordered hr hlow hhigh
  exact ⟨_, rfl, h.update hmem hrd hd hc hx hord hmem', hat, hmem'⟩

end

end Xfs
