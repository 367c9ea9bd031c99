import Xfs.Rmap.Edits

/-! Well-formed record sets, their order, and the lookups in them. -/
namespace Xfs

open Bool RecordCursor

/-- Every record passes the checks, and file offsets fit 54 bits. -/
structure RmapWF (g : RmapGroup) (recs : List RmapIrec) : Prop where
  ordered : Ordered rmapKey recs
  check : ∀ r ∈ recs, rmapCheckBtrec g r = true
  fileoff : ∀ r ∈ recs, r.ignoreOff = false → r.offset + r.blockcount ≤ 2 ^ 54

/-- No two records share a block. -/
def PhysDisjoint (recs : List RmapIrec) : Prop :=
  ∀ r ∈ recs, ∀ s ∈ recs, r ≠ s →
    r.startblock + r.blockcount ≤ s.startblock ∨ s.startblock + s.blockcount ≤ r.startblock

def Apart (recs : List RmapIrec) : Prop :=
  recs.Pairwise (fun r s => r.startblock + r.blockcount ≤ s.startblock)

theorem rmapKeyOf_lt_iff {b b' o o' f f' : Nat} {p p' : RmapFlags} :
    rmapKeyOf b o f p < rmapKeyOf b' o' f' p' ↔ b < b' ∨ b = b' ∧ (o < o' ∨ o = o' ∧
      rmapOffsetKey f p < rmapOffsetKey f' p') := by
  simp [rmapKeyOf, Prod.Lex.toLex_lt_toLex]

theorem rmapKeyOf_lt_of_lt {b b' : Nat} (h : b < b') (o o' f f' : Nat) (p p' : RmapFlags) :
    rmapKeyOf b o f p < rmapKeyOf b' o' f' p' := rmapKeyOf_lt_iff.mpr (.inl h)

theorem le_of_rmapKeyOf_le {b b' o o' f f' : Nat} {p p' : RmapFlags}
    (h : rmapKeyOf b o f p ≤ rmapKeyOf b' o' f' p') : b ≤ b' :=
  not_lt.mp fun hlt => absurd h (not_le.mpr (rmapKeyOf_lt_of_lt hlt _ _ _ _ _ _))

theorem rmapKeyOf_inj {b b' o o' f f' : Nat} {p p' : RmapFlags}
    (h : rmapKeyOf b o f p = rmapKeyOf b' o' f' p') :
    b = b' ∧ o = o' ∧ rmapOffsetKey f p = rmapOffsetKey f' p' := by
  simpa [rmapKeyOf] using h

theorem rmapOffsetKey_inj {f f' : Nat} {p p' : RmapFlags}
    (h : rmapOffsetKey f p = rmapOffsetKey f' p') :
    f % 2 ^ 54 = f' % 2 ^ 54 ∧ p.attrFork = p'.attrFork ∧ p.bmbtBlock = p'.bmbtBlock := by
  unfold rmapOffsetKey at h
  have h1 := Nat.mod_lt f (show 0 < 2 ^ 54 by decide)
  have h2 := Nat.mod_lt f' (show 0 < 2 ^ 54 by decide)
  cases hA : p.attrFork <;> cases hA' : p'.attrFork <;> cases hB : p.bmbtBlock <;>
    cases hB' : p'.bmbtBlock <;> simp only [hA, hA', hB, hB', false_eq_true, if_false,
      if_true] at h <;> refine ⟨by omega, ?_, ?_⟩ <;> first | rfl | omega

section Check

variable {g : RmapGroup} {r : RmapIrec}

theorem verifyGbext_end {g : Group} {gbno glen : Nat} (h : verifyGbext g gbno glen) :
    gbno + glen < 2 ^ 31 := by
  have := g.blockCount_lt
  have := verifyGbext_iff.mp h
  omega

theorem rmapCheckIrec_bounds (h : rmapCheckIrec g r) :
    0 < r.blockcount ∧ r.startblock + r.blockcount < 2 ^ 31 ∧ (r.ignoreOff → r.offset = 0) := by
  have hagfl := g.agflBlock_le
  unfold rmapCheckIrec at h
  simp only [if_false_left, and_eq_true, decide_eq_true_eq, not_eq_true',
    decide_eq_false_iff_not, Bool.and_true] at h
  obtain ⟨hpos, hhead, hext, -, hbmbt, hino, -⟩ := h
  refine ⟨pos_of_ne_zero hpos, ?_, fun hi => ?_⟩
  · by_cases hle : r.startblock ≤ g.agflBlock
    · have : r.blockcount = g.agflBlock + 1 := by
        by_contra hne
        exact hhead ⟨hle, .inr hne⟩
      omega
    · refine verifyGbext_end (g := g.toGroup) ?_
      by_contra hne
      exact hext ⟨not_le.mp hle, by simpa using hne⟩
  · unfold RmapIrec.ignoreOff rmapIgnoreOff at hi
    by_contra hne
    cases hN : rmapNonInodeOwner r.owner with
    | true => simp [hN, hne] at hino
    | false =>
      rw [hN, Bool.false_or] at hi
      simp [hi, hne] at hbmbt

theorem rtrmapCheckIrec_bounds (h : rtrmapCheckIrec g r) :
    0 < r.blockcount ∧ r.startblock + r.blockcount < 2 ^ 31 ∧ (r.ignoreOff → r.offset = 0) := by
  have hrext := g.rextsize_lt
  unfold rtrmapCheckIrec at h
  split at h
  · cases h
  case isFalse hpos =>
  split at h
  · cases h
  case isFalse hflags =>
  refine ⟨pos_of_ne_zero hpos, ?_⟩
  split at h
  case isTrue hN =>
    unfold rtrmapCheckMetaIrec at h
    split at h
    · cases h
    case isFalse hoff =>
    refine ⟨?_, fun _ => by simpa using hoff⟩
    split at h
    · cases h
    · split at h
      · simp only [and_eq_true, decide_eq_true_eq] at h
        omega
      · split at h
        · exact verifyGbext_end (and_eq_true _ _ ▸ h).2
        · cases h
  case isFalse hN =>
    simp only [rtrmapCheckInodeIrec, and_eq_true] at h
    refine ⟨verifyGbext_end h.1.2, fun hi => ?_⟩
    unfold RmapIrec.ignoreOff rmapIgnoreOff at hi
    simp only [or_eq_true] at hi hflags
    exact (hi.elim hN (fun hb => hflags (.inl hb))).elim

theorem rmapCheckBtrec_bounds (h : rmapCheckBtrec g r) :
    0 < r.blockcount ∧ r.startblock + r.blockcount < 2 ^ 31 ∧ (r.ignoreOff → r.offset = 0) := by
  unfold rmapCheckBtrec at h
  split at h
  · exact rtrmapCheckIrec_bounds h
  · exact rmapCheckIrec_bounds h

end Check

section WF

variable {g : RmapGroup} {recs pre post : List RmapIrec} {r s x : RmapIrec} {c : RmapCur}

theorem RmapWF.bounds (h : RmapWF g recs) (hr : r ∈ recs) :
    0 < r.blockcount ∧ r.startblock + r.blockcount < 2 ^ 31 ∧
      (r.ignoreOff → r.offset = 0) := rmapCheckBtrec_bounds (h.check r hr)

theorem RmapIrec.pack_eq (h : r.offset < 2 ^ 54) : r.pack = r := by
  simp only [RmapIrec.pack, Nat.mod_eq_of_lt h]

theorem RmapIrec.pack_of_eq (hs : s.offset < 2 ^ 54) (h : r = s) : r.pack = s := by
  rw [h, RmapIrec.pack_eq hs]

theorem RmapWF.offset_lt (h : RmapWF g recs) (hr : r ∈ recs) : r.offset < 2 ^ 54 := by
  obtain ⟨hpos, -, hign⟩ := h.bounds hr
  cases hi : r.ignoreOff with
  | true => rw [hign hi]; decide
  | false =>
    have := h.fileoff r hr hi
    omega

theorem RmapWF.apart (h : RmapWF g recs) (hd : PhysDisjoint recs) : Apart recs := by
  refine h.ordered.imp_of_mem ?_
  intro r s hr hs hlt
  have hle := le_of_rmapKeyOf_le hlt.le
  have hne : r ≠ s := by
    rintro rfl
    exact lt_irrefl _ hlt
  have := (h.bounds hs).1
  rcases hd r hr s hs hne with hlt' | hlt'
  · exact hlt'
  · omega

theorem Apart.ordered (h : Apart recs) (hpos : ∀ r ∈ recs, 0 < r.blockcount) :
    Ordered rmapKey recs := by
  refine List.Pairwise.imp_of_mem ?_ h
  intro r s hr hs hle
  have := hpos r hr
  exact rmapKeyOf_lt_of_lt (by omega) _ _ _ _ _ _

theorem Apart.physDisjoint (h : Apart recs) : PhysDisjoint recs := by
  intro r hr s hs hne
  obtain ⟨i, hi, rfl⟩ := List.getElem_of_mem hr
  obtain ⟨j, hj, rfl⟩ := List.getElem_of_mem hs
  rcases lt_trichotomy i j with hij | rfl | hij
  · exact .inl (List.pairwise_iff_getElem.mp h i j hi hj hij)
  · exact absurd rfl hne
  · exact .inr (List.pairwise_iff_getElem.mp h j i hj hi hij)

theorem rmapGetRec_some (hwf : RmapWF g c.recs) (hr : c.rec? = some r) :
    rmapGetRec g c = .ok (some r) := by
  simp [rmapGetRec, hr, hwf.check r (Cursor.mem_of_rec? hr)]

theorem rmapGetRecFound_eq (hwf : RmapWF g c.recs) (hr : c.rec? = some r) :
    rmapGetRecFound g c = .ok r := by
  simp [rmapGetRecFound, rmapGetRec_some hwf hr]

end WF

end Xfs
