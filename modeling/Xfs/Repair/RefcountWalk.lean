import Xfs.Repair.RcbagSpec
import Xfs.Repair.RefcountGen

/-! The cursor of the sweep, seen as the list of shareable rmaps that it has not passed. -/
namespace Xfs

open List RecordCursor

variable {env : RefcountGenEnv} {recs P rs : List RmapIrec} {cur : RmapCur} {bno fuel p : Nat}
  {bag : Rcbag}

def startsAt (bno : Nat) (r : RmapIrec) : Bool := decide (r.startblock = bno)

def shareableFrom (env : RefcountGenEnv) (recs : List RmapIrec) (p : Nat) : List RmapIrec :=
  (recs.drop p).filter (rmapShareable env.isSbInum)

theorem shareableFrom_of_length_le (h : recs.length ≤ p) : shareableFrom env recs p = [] := by
  simp [shareableFrom, drop_eq_nil_of_le h]

/-- The cursor of a walk that found the head of `P`, or ran off the end. -/
structure WalkedTo (env : RefcountGenEnv) (recs P : List RmapIrec) (p : Nat) : Prop where
  tail : shareableFrom env recs p = P.tail
  back : p ≤ recs.length + 1 → shareableFrom env recs (p - 1) = P
  inside : P ≠ [] → p ≤ recs.length

theorem refcountWalkRmaps_spec (hcheck : ∀ r ∈ recs, rmapCheckBtrec env.group r) (p : Nat)
    (hf : recs.length < fuel + p) (hp : 0 < fuel) :
    ∃ p', refcountWalkRmaps env fuel ⟨recs, p⟩ =
        .ok (⟨recs, p'⟩, (shareableFrom env recs p).head?) ∧
      p < p' ∧ (p ≤ recs.length → p' ≤ recs.length + 1) ∧
      WalkedTo env recs (shareableFrom env recs p) p' := by
  induction fuel generalizing p with
  | zero => omega
  | succ fuel ih =>
    by_cases hend : recs.length ≤ p
    · have hnil : ∀ q, p ≤ q → shareableFrom env recs q = [] := fun q hq =>
        shareableFrom_of_length_le (hend.trans hq)
      refine ⟨p + 1, ?_, by omega, by omega, ?_⟩
      · have hstat : ¬ p + 1 ≤ recs.length := by omega
        simp [refcountWalkRmaps, Cursor.increment, hstat, hnil p le_rfl]
      · rw [hnil p le_rfl]
        exact ⟨hnil _ (by omega), fun _ => hnil _ (by omega), fun h => absurd rfl h⟩
    · have hlt : p < recs.length := by omega
      have hdrop : recs.drop p = recs[p] :: recs.drop (p + 1) := drop_eq_getElem_cons hlt
      have hget : rmapGetRec env.group ⟨recs, p + 1⟩ = .ok (some recs[p]) := by
        simp [rmapGetRec, Cursor.rec?, hlt, hcheck _ (getElem_mem hlt)]
      have hstat : p + 1 ≤ recs.length := hlt
      by_cases hs : rmapShareable env.isSbInum recs[p] = true
      · have hfrom : shareableFrom env recs p = recs[p] :: shareableFrom env recs (p + 1) := by
          rw [shareableFrom, hdrop, filter_cons_of_pos hs, shareableFrom]
        refine ⟨p + 1, ?_, by omega, by omega, ?_⟩
        · simp [refcountWalkRmaps, Cursor.increment, hstat, hget, hs, hfrom]
        · exact ⟨by rw [hfrom, tail_cons], fun _ => rfl, fun _ => hstat⟩
      · have hfrom : shareableFrom env recs p = shareableFrom env recs (p + 1) := by
          rw [shareableFrom, hdrop, filter_cons_of_neg hs, shareableFrom]
        obtain ⟨p', hrun, hlt', hle, hw⟩ := ih (p + 1) (by omega) (by omega)
        refine ⟨p', ?_, by omega, fun _ => hle hstat, hfrom ▸ hw⟩
        rw [hfrom, ← hrun]
        simp [refcountWalkRmaps, Cursor.increment, hstat, hget, hs]

section

variable (bno : Nat) (hcheck : ∀ r ∈ recs, rmapCheckBtrec env.group r) (hbag : bag.Holds rs)
include hcheck hbag

theorem refcountPushLoop_spec (hw : WalkedTo env recs P p) (hp : p ≤ recs.length + 1)
    (hf : recs.length + P.length < fuel) :
    ∃ p' bag', refcountPushLoop env bno fuel ⟨⟨recs, p⟩, bag, P.head?⟩ =
        .ok ⟨⟨recs, p'⟩, bag', (P.dropWhile (startsAt bno)).head?⟩ ∧
      WalkedTo env recs (P.dropWhile (startsAt bno)) p' ∧
      bag'.Holds ((P.takeWhile (startsAt bno)).reverse ++ rs) ∧
      p' ≤ recs.length + 1 ∧ p + (P.takeWhile (startsAt bno)).length ≤ p' := by
  induction P generalizing p bag rs fuel with
  | nil =>
    obtain ⟨fuel, rfl⟩ : ∃ k, fuel = k + 1 := ⟨fuel - 1, by omega⟩
    exact ⟨p, bag, rfl, hw, by simpa using hbag, hp, le_rfl⟩
  | cons r P ih =>
    obtain ⟨fuel, rfl⟩ : ∃ k, fuel = k + 1 := ⟨fuel - 1, by omega⟩
    by_cases hr : r.startblock = bno
    · obtain ⟨bag₁, hadd, hbag₁⟩ := rcbagAdd_spec hbag r
      have hin := hw.inside (cons_ne_nil _ _)
      have htail : shareableFrom env recs p = P := hw.tail
      obtain ⟨p₁, hwalk, hlt, hle, hw₁⟩ :=
        refcountWalkRmaps_spec hcheck p (show recs.length < fuel + 1 + p by omega) (by omega)
      rw [htail] at hwalk hw₁
      rw [length_cons] at hf
      obtain ⟨p', bag', hrun, hw', hbag', hp', hle'⟩ := ih hbag₁ hw₁ (hle hin)
        (show recs.length + P.length < fuel by omega)
      have hd : startsAt bno r := decide_eq_true hr
      rw [dropWhile_cons_of_pos hd, takeWhile_cons_of_pos hd]
      refine ⟨p', bag', ?_, hw', by simpa using hbag', hp', ?_⟩
      · simp only [refcountPushLoop, head?_cons, hr, ne_eq, not_true_eq_false, if_false,
          hadd, hwalk]
        exact hrun
      · rw [length_cons]
        omega
    · have hd : ¬ startsAt bno r := by simpa [startsAt] using hr
      rw [dropWhile_cons_of_neg hd, takeWhile_cons_of_neg hd]
      refine ⟨p, bag, ?_, hw, by simpa using hbag, hp, le_rfl⟩
      simp [refcountPushLoop, hr]

theorem refcountAdvance_spec (hP : shareableFrom env recs p = P)
    (hlo : 1 ≤ p ∨ ∃ r ∈ P.head?, r.startblock = bno) (hf : recs.length + P.length < fuel) :
    ∃ cur p' bag', refcountWalkRmaps env fuel ⟨recs, p⟩ = .ok (cur, P.head?) ∧
      (if P.head?.isSome then refcountPushRmapsAt env fuel bno ⟨cur, bag, P.head?⟩
        else pure ⟨cur, bag, P.head?⟩) =
        .ok ⟨⟨recs, p'⟩, bag', (P.dropWhile (startsAt bno)).head?⟩ ∧
      shareableFrom env recs p' = P.dropWhile (startsAt bno) ∧
      bag'.Holds ((P.takeWhile (startsAt bno)).reverse ++ rs) ∧ 1 ≤ p' := by
  subst hP
  obtain ⟨p₁, hwalk, hlt, hle, hw⟩ :=
    refcountWalkRmaps_spec hcheck p (show recs.length < fuel + p by omega) (by omega)
  cases hP : shareableFrom env recs p with
  | nil =>
    rw [hP] at hwalk hw
    exact ⟨⟨recs, p₁⟩, p₁, bag, hwalk, rfl, hw.tail, by simpa using hbag, by omega⟩
  | cons r Q =>
    rw [hP] at hwalk hw hf hlo
    have hin := hw.inside (cons_ne_nil _ _)
    obtain ⟨p₂, bag', hpush, hw', hbag', hp₂, hadd⟩ :=
      refcountPushLoop_spec bno hcheck hbag hw (by omega) hf
    have htwo : 1 < p₂ := by
      rcases hlo with hlo | ⟨r', hr', hb⟩
      · omega
      · obtain rfl : r = r' := by simpa using hr'
        rw [takeWhile_cons_of_pos (show startsAt bno r = true from decide_eq_true hb),
          length_cons] at hadd
        omega
    refine ⟨⟨recs, p₁⟩, p₂ - 1, bag', hwalk, ?_, hw'.back hp₂, hbag', by omega⟩
    have hdec : (Cursor.mk recs p₂).decrement = (⟨recs, p₂ - 1⟩, true) := by
      have hstat : 1 < p₂ ∧ p₂ - 1 ≤ recs.length := ⟨htwo, by omega⟩
      simp [Cursor.decrement, hstat]
    rw [head?_cons, Option.isSome_some, if_pos rfl, refcountPushRmapsAt, ← head?_cons, hpush]
    simp [hdec]

end

end Xfs
