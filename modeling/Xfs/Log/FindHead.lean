import Xfs.Log.Scan

/-! The head of the log. The last writes may have reached the disk in any order, so
`xlog_find_head` looks for a drop of the cycle number with a binary search and then goes back over
the blocks that may not have been written. -/
namespace Xfs

open List

section Search

variable (log : Xlog) (cycle : Nat → Nat)

def findZeroed : Except Errno (Option Nat) := do
  let bp ← xlogGetBp log 1
  let bp ← xlogBread log cycle bp 0 1
  let first := bp (xlogAlign log 0)
  if first = 0 then pure (some 0)
  else do
    let bp ← xlogBread log cycle bp (log.logBBsize - 1) 1
    if bp (xlogAlign log (log.logBBsize - 1)) ≠ 0 then pure none
    else if first ≠ 1 then .error .einval
    else do
      let last ← findCycleStart log cycle 0 log.logBBsize bp 0 (log.logBBsize - 1)
      let scan := if last < log.totalRecShift then last else log.totalRecShift
      let new ← findVerifyCycle log cycle (last - scan) scan 0
      pure (some (new.getD last))

def headScan (head stop : Nat) : Except Errno Nat :=
  if log.totalRecShift ≤ head then do
    let new ← findVerifyCycle log cycle (head - log.totalRecShift) log.totalRecShift stop
    pure (new.getD head)
  else do
    let new ← findVerifyCycle log cycle (log.logBBsize - (log.totalRecShift - head))
      (log.totalRecShift - head) (sub32 stop 1)
    match new with
    | some new => pure new
    | none => do
      let new ← findVerifyCycle log cycle 0 head stop
      pure (new.getD head)

def findHead : Except Errno (Option Nat) := do
  match ← findZeroed log cycle with
  | some _ => pure none
  | none => do
    let bp ← xlogGetBp log 1
    let bp ← xlogBread log cycle bp 0 1
    let first := bp (xlogAlign log 0)
    let bp ← xlogBread log cycle bp (log.logBBsize - 1) 1
    let last := bp (xlogAlign log (log.logBBsize - 1))
    if first = last then do
      let head ← headScan log cycle log.logBBsize (sub32 last 1)
      pure (some head)
    else do
      let head ← findCycleStart log cycle last log.logBBsize bp 0 (log.logBBsize - 1)
      let head ← headScan log cycle head last
      pure (some head)

/-- Where the binary search for the head ends. -/
def headStart : Nat :=
  if cycle 0 = cycle (log.logBBsize - 1) then log.logBBsize
  else BinarySearch.bisect (cycle · = cycle (log.logBBsize - 1)) log.logBBsize 0 (log.logBBsize - 1)

variable {log cycle}

section

variable (hn : 0 < log.logBBsize) (hfirst : cycle 0 ≠ 0) (hlast : cycle (log.logBBsize - 1) ≠ 0)
include hn hfirst hlast

theorem findZeroed_written : findZeroed log cycle = .ok none := by
  obtain ⟨bp, hread, hbp⟩ := xlogBread_one cycle (fun _ => 0) 0 hn
  obtain ⟨bp', hread', hbp'⟩ := xlogBread_one cycle bp (log.logBBsize - 1) hn
  unfold findZeroed
  simp only [xlogGetBp_ok one_pos hn, hread, hread', hbp, hbp', ok_bind, if_neg hfirst,
    if_pos hlast]
  rfl

/-- The search scans back from where the binary search ends. -/
theorem findHead_eq : findHead log cycle = some <$> headScan log cycle (headStart log cycle)
      (if cycle 0 = cycle (log.logBBsize - 1) then sub32 (cycle (log.logBBsize - 1)) 1
        else cycle (log.logBBsize - 1)) := by
  obtain ⟨bp, hread, hbp⟩ := xlogBread_one cycle (fun _ => 0) 0 hn
  obtain ⟨bp', hread', hbp'⟩ := xlogBread_one cycle bp (log.logBBsize - 1) hn
  unfold findHead headStart
  simp only [findZeroed_written hn hfirst hlast, xlogGetBp_ok one_pos hn, hread, hread', hbp, hbp',
    findCycleStart_eq hn, ok_bind]
  split_ifs <;> rfl

end

end Search

section FirstHole

def stamped (x k : Nat) (S : Nat → Bool) (b : Nat) : Nat :=
  if b < k then if S b then x else x + 1 else if S b then x - 1 else x

/-- Block `b` is one of the last `W` blocks written before block `k`. -/
def RecentlyWritten (n W k b : Nat) : Prop :=
  b < k ∧ k ≤ b + W ∨ k ≤ b ∧ b < n ∧ n + k ≤ b + W

/-- The missing writes of a log written up to block `k` are all among the last `W`. -/
structure LostWrites (n W k x : Nat) (S : Nat → Bool) : Prop where
  scan_le : 2 * W ≤ n
  head_lt : k < n
  cycle_ge : 2 ≤ x
  cycle_lt : x + 1 < 2 ^ 32
  recent : ∀ b, S b → RecentlyWritten n W k b

def writeOrder (n k b : Nat) : Nat := if k ≤ b then b - k else n + b - k

def FirstHole (n k : Nat) (S : Nat → Bool) (h : Nat) : Prop :=
  (∀ b, S b = false) ∧ h = k ∨ S h ∧ ∀ b, S b → writeOrder n k h ≤ writeOrder n k b

def ScanShows (log : Xlog) (e b : Nat) : Prop :=
  if log.totalRecShift ≤ e then Shown log (e - log.totalRecShift) log.totalRecShift b
  else if e ≤ b then
    Shown log (log.logBBsize - (log.totalRecShift - e)) (log.totalRecShift - e) b
  else Shown log 0 e b

instance (log : Xlog) (e b : Nat) : Decidable (ScanShows log e b) :=
  inferInstanceAs (Decidable (if log.totalRecShift ≤ e then _ else if e ≤ b then _ else _))

/-- The first hole is where the binary search ends, or the scan back from there shows it. -/
def HoleShown (log : Xlog) (k x : Nat) (S : Nat → Bool) : Prop :=
  ∀ h, S h → FirstHole log.logBBsize k S h →
    h = headStart log (stamped x k S) % log.logBBsize ∨
      ScanShows log (headStart log (stamped x k S)) h

/-- The search comes to `validate_head` with the first hole. -/
def FindsFirstHole (log : Xlog) (k x : Nat) (S : Nat → Bool) : Prop :=
  ∃ head, findHead log (stamped x k S) = .ok (some head) ∧
    FirstHole log.logBBsize k S (head % log.logBBsize)

/-- The head and the holes lie on sector boundaries. -/
def SectorAligned (log : Xlog) (k : Nat) (S : Nat → Bool) : Prop :=
  log.sectBBsize ∣ k ∧ ∀ a b, a / log.sectBBsize = b / log.sectBBsize → S a = S b

section HeadScan

variable {log : Xlog} {cycle : Nat → Nat} {e b stop : Nat}

def scanBlocks (log : Xlog) (e : Nat) : List Nat :=
  if log.totalRecShift ≤ e then range' (e - log.totalRecShift) log.totalRecShift
  else range' (log.logBBsize - (log.totalRecShift - e)) (log.totalRecShift - e) ++ range' 0 e

/-- Block `b` has the cycle number that the scan back from `e` looks for there. -/
def ScanHit (cycle : Nat → Nat) (e stop b : Nat) : Prop :=
  cycle b = if b < e then stop else sub32 stop 1

instance (cycle : Nat → Nat) (e stop b : Nat) : Decidable (ScanHit cycle e stop b) :=
  inferInstanceAs (Decidable (_ = _))

variable (hW : 2 * log.totalRecShift ≤ log.logBBsize) (he : e ≤ log.logBBsize)

include hW he

theorem mem_scanBlocks :
    b ∈ scanBlocks log e ↔ RecentlyWritten log.logBBsize log.totalRecShift e b := by
  unfold scanBlocks RecentlyWritten
  split_ifs with hwe
  · rw [mem_range'_1]
    omega
  · rw [mem_append, mem_range'_1, mem_range'_1]
    omega

theorem scanBlocks_pairwise : (scanBlocks log e).Pairwise fun a b =>
    writeOrder log.logBBsize e a < writeOrder log.logBBsize e b := by
  have hpart : ∀ start len, start + len ≤ e ∨ e ≤ start → (range' start len).Pairwise fun a b =>
      writeOrder log.logBBsize e a < writeOrder log.logBBsize e b := fun start len hside => by
    refine Pairwise.imp_of_mem (fun {a b} ha hb hlt => ?_) pairwise_lt_range'
    rw [mem_range'_1] at ha hb
    unfold writeOrder
    split_ifs <;> omega
  unfold scanBlocks
  split_ifs with hwe
  · exact hpart _ _ (.inl (by omega))
  · refine pairwise_append.mpr ⟨hpart _ _ (.inr (by omega)), hpart _ _ (.inl (by omega)), ?_⟩
    intro a ha b hb
    rw [mem_range'_1] at ha hb
    unfold writeOrder
    rw [if_pos (by omega), if_neg (by omega)]
    omega

variable (hstop : stop ≠ 0) (hpred : e < log.totalRecShift → sub32 stop 1 ≠ 0)

include hstop hpred

/-- The scan ends at the first hit that it shows. -/
theorem headScan_eq (cycle : Nat → Nat) : headScan log cycle e stop =
    .ok (((scanBlocks log e).find? fun b =>
      decide (ScanHit cycle e stop b) && decide (ScanShows log e b)).getD e) := by
  have hW' : log.totalRecShift ≤ log.logBBsize := by omega
  unfold headScan scanBlocks
  split_ifs with hwe
  · rw [findVerifyCycle_eq hW' le_rfl (.inr hstop), ok_bind]
    refine congrArg (fun r : Option Nat => Except.ok (r.getD e)) (find?_congr fun b hb => ?_)
    rw [mem_range'_1] at hb
    simp only [ScanHit, ScanShows, Shown, if_pos (show b < e by omega), if_pos hwe, Bool.decide_coe]
  have hparts : ∀ r r' : Option Nat, (do
      match ← (Except.ok r : Except Errno (Option Nat)) with
      | some new => pure new
      | none => do
        let new ← Except.ok r'
        pure (new.getD e)) = (Except.ok ((r.or r').getD e) : Except Errno Nat) := by
    rintro (_ | _) r' <;> rfl
  rw [findVerifyCycle_eq hW' (Nat.sub_le _ _) (.inr (hpred (by omega))),
    findVerifyCycle_eq hW' (by omega) (.inr hstop), find?_append]
  refine (hparts _ _).trans (congrArg₂ (fun r r' : Option Nat => Except.ok ((r.or r').getD e))
    (find?_congr fun b hb => ?_) (find?_congr fun b hb => ?_))
  · rw [mem_range'_1] at hb
    simp only [ScanHit, ScanShows, Shown, if_neg hwe, if_neg (show ¬ b < e by omega),
      if_pos (show e ≤ b by omega), Bool.decide_coe]
  · rw [mem_range'_1] at hb
    simp only [ScanHit, ScanShows, Shown, if_neg hwe, if_pos (show b < e by omega),
      if_neg (show ¬ e ≤ b by omega), Bool.decide_coe]

theorem headScan_sound (cycle : Nat → Nat) : ∃ head, headScan log cycle e stop = .ok head ∧
      (head = e ∨ head < log.logBBsize ∧ ScanShows log e head) := by
  refine ⟨_, headScan_eq hW he hstop hpred cycle, ?_⟩
  cases hfind : (scanBlocks log e).find? _ with
  | none => exact .inl rfl
  | some b =>
    have hmem := (mem_scanBlocks hW he).mp (mem_of_find?_eq_some hfind)
    have hshown := find?_some hfind
    simp only [Bool.and_eq_true, decide_eq_true_eq] at hshown
    unfold RecentlyWritten at hmem
    exact .inr ⟨by rw [Option.getD_some]; omega, hshown.2⟩

/-- Without a hit the search stays where it is. -/
theorem headScan_none (hno : ∀ b ∈ scanBlocks log e, ¬ ScanHit cycle e stop b) :
    headScan log cycle e stop = .ok e := by
  rw [headScan_eq hW he hstop hpred, find?_eq_none.mpr fun b hb => by simp [hno b hb]]
  rfl

/-- The first hit is found if the scan shows it. -/
theorem headScan_first (hb : b ∈ scanBlocks log e) (hhit : ScanHit cycle e stop b)
    (hshown : ScanShows log e b) (hmin : ∀ a ∈ scanBlocks log e, ScanHit cycle e stop a →
      writeOrder log.logBBsize e b ≤ writeOrder log.logBBsize e a) :
    headScan log cycle e stop = .ok b := by
  obtain ⟨before, behind, hsplit⟩ := append_of_mem hb
  have hsorted := scanBlocks_pairwise hW he
  rw [headScan_eq hW he hstop hpred]
  rw [hsplit] at hsorted hmin ⊢
  have hbefore : before.find? (fun b => decide (ScanHit cycle e stop b) &&
      decide (ScanShows log e b)) = none := by
    refine find?_eq_none.mpr fun a ha hp => ?_
    simp only [Bool.and_eq_true, decide_eq_true_eq] at hp
    have hlt := (pairwise_append.mp hsorted).2.2 a ha b mem_cons_self
    have hle := hmin a (mem_append_left _ ha) hp.1
    omega
  rw [find?_append, hbefore, Option.none_or, find?_cons_of_pos (by simp [hhit, hshown])]
  rfl

end HeadScan

section LostWrites

variable {n W k x a b e stop t : Nat} {S : Nat → Bool}

inductive SearchEnds (n k x : Nat) (S : Nat → Bool) : Nat → Nat → Nat → Prop
  | same (hfirst : stamped x k S 0 = x) : SearchEnds n k x S n (x - 1) (n - k)
  | lastHole {e : Nat} (he : k ≤ e) (hse : S e) : SearchEnds n k x S e (x - 1) (e - k)
  | drop {e : Nat} (he : e ≤ k) (hxe : stamped x k S e = x) : SearchEnds n k x S e x (n + e - k)

variable (hlost : LostWrites n W k x S)

include hlost

namespace LostWrites

theorem stamped_eq_pred : stamped x k S b = x - 1 ↔ k ≤ b ∧ S b := by
  have := hlost.cycle_ge
  unfold stamped
  grind

theorem stamped_eq_self : stamped x k S b = x ↔ (b < k ↔ S b) := by
  have := hlost.cycle_ge
  unfold stamped
  grind

theorem stamped_ne_zero (b : Nat) : stamped x k S b ≠ 0 := by
  have := hlost.cycle_ge
  unfold stamped
  split_ifs <;> omega

theorem sub32_pred : sub32 x 1 = x - 1 :=
  sub32_eq (by have := hlost.cycle_ge; omega) (by have := hlost.cycle_lt; omega)

theorem hole_cases (hb : S b) : b < k ∧ k ≤ b + W ∨ k ≤ b ∧ b < n ∧ n + k ≤ b + W :=
  hlost.recent b hb

theorem bisect_le (hfirst : stamped x k S 0 ≠ x) (hlast : stamped x k S (n - 1) = x) :
    ∃ t, SearchEnds n k x S (BinarySearch.bisect (stamped x k S · = x) n 0 (n - 1)) x t := by
  have hW := hlost.scan_le
  have hk := hlost.head_lt
  -- what is not stamped with `x` from `k` on is a hole at the end
  have hhole : ∀ a, k ≤ a → stamped x k S a ≠ x → n + k ≤ a + W := by
    intro a hka hne
    have hsa : S a := by_contra fun hf =>
      hne (hlost.stamped_eq_self.mpr ⟨fun h => by omega, fun h => absurd h hf⟩)
    have := hlost.hole_cases hsa
    omega
  have h0 : 0 < k := Nat.pos_of_ne_zero fun h => by
    have := hhole 0 (by omega) hfirst
    omega
  obtain ⟨-, hle, hc, hpred, hmid⟩ := BinarySearch.bisect_spec (p := (stamped x k S · = x))
    (by omega) (decide_eq_false hfirst) (decide_eq_true hlast)
    (show n - 1 - 0 ≤ n by omega)
  generalize BinarySearch.bisect (stamped x k S · = x) n 0 (n - 1) = e at *
  refine ⟨_, .drop ?_ (of_decide_eq_true hc)⟩
  by_contra hgt
  have h1 := hhole _ (by omega) (of_decide_eq_false hpred)
  by_cases hm : stamped x k S ((0 + (n - 1)) / 2) = x
  · have := hmid (by omega) (decide_eq_true hm)
    omega
  · have := hhole _ (by omega) hm
    omega

section

variable (he : SearchEnds n k x S e stop t)
include he

/-- The hits of the scan are the holes that were to be written before the scan's start. -/
theorem hit_iff : RecentlyWritten n W e a ∧ ScanHit (stamped x k S) e stop a ↔
      S a ∧ writeOrder n k a < t := by
  have hW := hlost.scan_le
  have hk := hlost.head_lt
  have hhole := hlost.hole_cases (b := a)
  have hpred := hlost.stamped_eq_pred (b := a)
  unfold RecentlyWritten ScanHit writeOrder
  cases he with
  | same hfirst => grind
  | lastHole he hse =>
    have := hlost.hole_cases hse
    grind
  | drop he hxe =>
    have hself := hlost.stamped_eq_self (b := a)
    rw [hlost.sub32_pred]
    grind

/-- The scan goes through the hits in the order of their writes. -/
theorem hits_ordered (hat : writeOrder n k a < t) (hle : writeOrder n k b ≤ writeOrder n k a) :
    writeOrder n e b ≤ writeOrder n e a := by
  have hk := hlost.head_lt
  unfold writeOrder at *
  cases he with
  | same hfirst => split_ifs at * <;> omega
  | lastHole he hse =>
    have := hlost.hole_cases hse
    split_ifs at * <;> omega
  | drop he hxe => split_ifs at * <;> omega

/-- The search ends at the head, behind which all of the log was written, or at a hole. -/
theorem end_cases : t = n ∧ e % n = k ∨ S (e % n) ∧ writeOrder n k (e % n) = t := by
  have hk := hlost.head_lt
  unfold writeOrder
  cases he with
  | same hfirst =>
    rw [Nat.mod_self]
    rcases Nat.eq_zero_or_pos k with rfl | hpos
    · exact .inl ⟨rfl, rfl⟩
    · refine .inr ⟨(hlost.stamped_eq_self.mp hfirst).mp hpos, ?_⟩
      rw [if_neg (by omega), add_zero]
  | lastHole he hse =>
    have := hlost.hole_cases hse
    rw [Nat.mod_eq_of_lt (by omega), if_pos he]
    exact .inr ⟨hse, rfl⟩
  | drop he hxe =>
    rw [Nat.mod_eq_of_lt (by omega)]
    rcases he.lt_or_eq with hlt | rfl
    · exact .inr ⟨(hlost.stamped_eq_self.mp hxe).mp hlt, if_neg (by omega)⟩
    · exact .inl ⟨by omega, rfl⟩

end

theorem eq_of_writeOrder (ha : S b) (hb : S e) (h1 : writeOrder n k b ≤ writeOrder n k e)
    (h2 : writeOrder n k e ≤ writeOrder n k b) : b = e := by
  have := hlost.head_lt
  have := hlost.hole_cases ha
  have := hlost.hole_cases hb
  unfold writeOrder at h1 h2
  split_ifs at h1 h2 <;> omega

/-- Where the scan starts and what it looks for are as the scan needs them. -/
theorem scan_bounds (he : SearchEnds n k x S e stop t) :
    e ≤ n ∧ stop ≠ 0 ∧ (e < W → sub32 stop 1 ≠ 0) := by
  have hW := hlost.scan_le
  have hk := hlost.head_lt
  have hx := hlost.cycle_ge
  cases he with
  | same hfirst => exact ⟨le_rfl, by omega, fun h => by omega⟩
  | lastHole he hse =>
    have := hlost.hole_cases hse
    exact ⟨by omega, by omega, fun h => by omega⟩
  | drop he hxe => exact ⟨by omega, by omega, fun _ => by rw [hlost.sub32_pred]; omega⟩

/-- The first hole is where the search ends, and then nothing is hit, or it is a hit. -/
theorem first_hole_cases (he : SearchEnds n k x S e stop t) (hb : S b)
    (hmin : ∀ a, S a → writeOrder n k b ≤ writeOrder n k a) :
    b = e % n ∧ (∀ a, S a → t ≤ writeOrder n k a) ∨ writeOrder n k b < t := by
  have hlt : writeOrder n k b < n := by
    have := hlost.head_lt
    have := hlost.hole_cases hb
    unfold writeOrder
    split_ifs <;> omega
  refine or_iff_not_imp_right.mpr fun hnot => ?_
  rcases hlost.end_cases he with ⟨rfl, -⟩ | ⟨hse, heq⟩
  · exact absurd hlt hnot
  · refine ⟨hlost.eq_of_writeOrder hb hse (hmin _ hse) (by omega), fun a ha => ?_⟩
    exact (not_lt.mp hnot).trans (hmin a ha)

end LostWrites

end LostWrites

section Finds

variable {log : Xlog} {k x b : Nat} {S : Nat → Bool}
  (hlost : LostWrites log.logBBsize log.totalRecShift k x S)

include hlost

namespace LostWrites

/-- The search scans back from one of the places it may end at. -/
theorem searchEnds : ∃ stop, findHead log (stamped x k S) =
        some <$> headScan log (stamped x k S) (headStart log (stamped x k S)) stop ∧
      ∃ t, SearchEnds log.logBBsize k x S (headStart log (stamped x k S)) stop t := by
  have hW := hlost.scan_le
  have hk := hlost.head_lt
  refine ⟨_, findHead_eq (by omega) (hlost.stamped_ne_zero 0) (hlost.stamped_ne_zero _), ?_⟩
  unfold headStart
  by_cases hlast : S (log.logBBsize - 1)
  · have hl : stamped x k S (log.logBBsize - 1) = x - 1 :=
      hlost.stamped_eq_pred.mpr ⟨by omega, hlast⟩
    have hf : stamped x k S 0 ≠ x - 1 := fun h => by
      obtain ⟨h0, hs0⟩ := hlost.stamped_eq_pred.mp h
      have := hlost.hole_cases hs0
      omega
    have h1 : 0 < log.logBBsize - 1 := Nat.pos_of_ne_zero fun h => hf (h ▸ hl)
    obtain ⟨-, -, hc, -⟩ := BinarySearch.bisect_spec (p := (stamped x k S · = x - 1)) h1
      (decide_eq_false hf) (decide_eq_true hl) (show log.logBBsize - 1 - 0 ≤ log.logBBsize by omega)
    obtain ⟨hke, hse⟩ := hlost.stamped_eq_pred.mp (of_decide_eq_true hc)
    rw [hl, if_neg hf, if_neg hf]
    exact ⟨_, .lastHole hke hse⟩
  have hl : stamped x k S (log.logBBsize - 1) = x :=
    hlost.stamped_eq_self.mpr ⟨fun h => by omega, fun h => absurd h hlast⟩
  rw [hl]
  by_cases hf : stamped x k S 0 = x
  · rw [if_pos hf, if_pos hf, hlost.sub32_pred]
    exact ⟨_, .same hf⟩
  · rw [if_neg hf, if_neg hf]
    exact hlost.bisect_le hf hl

/-- The head found is the first hole only if the scan shows it. -/
theorem holeShown_of_finds (h : FindsFirstHole log k x S) : HoleShown log k x S := by
  obtain ⟨head, hrun, hfirst⟩ := h
  obtain ⟨stop, hsearch, t, hends⟩ := hlost.searchEnds
  obtain ⟨he, hstop, hpred⟩ := hlost.scan_bounds hends
  obtain ⟨head', hscan, hhead⟩ := headScan_sound hlost.scan_le he hstop hpred (stamped x k S)
  obtain rfl : head' = head := by
    rw [hsearch, hscan] at hrun
    cases hrun
    rfl
  intro b hb hbfirst
  obtain ⟨-, hbmin⟩ := hbfirst.resolve_left fun h => by simp [h.1] at hb
  obtain ⟨hS, hmin⟩ := hfirst.resolve_left fun h => by simp [h.1] at hb
  have heq := hlost.eq_of_writeOrder hb hS (hbmin _ hS) (hmin b hb)
  refine hhead.imp (fun h => by rw [heq, h]) fun ⟨hlt, hshown⟩ => ?_
  rwa [heq, Nat.mod_eq_of_lt hlt]

/-- The head found is the first hole if the scan shows it. -/
theorem finds_of_holeShown (h : HoleShown log k x S) : FindsFirstHole log k x S := by
  obtain ⟨stop, hsearch, t, hends⟩ := hlost.searchEnds
  obtain ⟨he, hstop, hpred⟩ := hlost.scan_bounds hends
  have hstays : (∀ a, S a → t ≤ writeOrder log.logBBsize k a) →
      headScan log (stamped x k S) (headStart log (stamped x k S)) stop = .ok _ := fun hno =>
    headScan_none hlost.scan_le he hstop hpred fun a ha hhit => by
      obtain ⟨hs, hlt⟩ := (hlost.hit_iff hends).mp ⟨(mem_scanBlocks hlost.scan_le he).mp ha, hhit⟩
      exact absurd (hno a hs) (not_le.mpr hlt)
  unfold FindsFirstHole
  rw [hsearch]
  by_cases hne : ∃ b, S b
  · obtain ⟨b, hb, hmin⟩ :=
      (measure (writeOrder log.logBBsize k)).wf.has_min {b | S b = true} hne
    have hmin' : ∀ a, S a → writeOrder log.logBBsize k b ≤ writeOrder log.logBBsize k a :=
      fun a ha => not_lt.mp (hmin a ha)
    rcases hlost.first_hole_cases hends hb hmin' with ⟨heq, hno⟩ | hlt
    · rw [hstays hno]
      exact ⟨_, rfl, .inr (heq ▸ ⟨hb, hmin'⟩)⟩
    obtain ⟨hrecent, hhit⟩ := (hlost.hit_iff hends).mpr ⟨hb, hlt⟩
    have hW := hlost.scan_le
    have hne : b ≠ headStart log (stamped x k S) % log.logBBsize := fun heq => by
      unfold RecentlyWritten at hrecent
      rcases he.lt_or_eq with hlt | hn
      · rw [Nat.mod_eq_of_lt hlt] at heq
        omega
      · rw [hn, Nat.mod_self] at heq
        omega
    have hshown := (h b hb (.inr ⟨hb, hmin'⟩)).resolve_left hne
    have hmem := fun a => mem_scanBlocks hlost.scan_le he (b := a)
    rw [headScan_first hlost.scan_le he hstop hpred ((hmem b).mpr hrecent) hhit hshown
      fun a ha hahit => ?_]
    · refine ⟨b, rfl, .inr ?_⟩
      have := hlost.hole_cases hb
      rw [Nat.mod_eq_of_lt (by have := hlost.head_lt; omega)]
      exact ⟨hb, hmin'⟩
    · obtain ⟨hsa, hat⟩ := (hlost.hit_iff hends).mp ⟨(hmem a).mp ha, hahit⟩
      exact hlost.hits_ordered hends hat (hmin' a hsa)
  · have hS : ∀ b, S b = false := fun b => Bool.eq_false_iff.mpr fun hb => hne ⟨b, hb⟩
    rw [hstays fun a ha => absurd ⟨a, ha⟩ hne]
    refine ⟨_, rfl, .inl ⟨hS, ?_⟩⟩
    rcases hlost.end_cases hends with ⟨-, hk⟩ | ⟨hse, -⟩
    · exact hk
    · exact absurd ⟨_, hse⟩ hne

omit hlost in
/-- A block that differs from the one before starts a sector. -/
theorem sect_dvd_of_stamped_ne (hA : SectorAligned log k S) (h0 : 0 < b)
    (hne : stamped x k S b ≠ stamped x k S (b - 1)) : log.sectBBsize ∣ b := by
  obtain ⟨hk, hS⟩ := hA
  by_contra hdvd
  have hdiv : (b - 1) / log.sectBBsize = b / log.sectBBsize := by
    obtain ⟨c, rfl⟩ := Nat.exists_eq_add_of_le' h0
    rw [Nat.add_sub_cancel, Nat.succ_div_of_not_dvd hdvd]
  have hlt : b - 1 < k ↔ b < k := by
    obtain ⟨m, rfl⟩ := hk
    rw [mul_comm, ← Nat.div_lt_iff_lt_mul log.sectBBsize_pos, hdiv,
      Nat.div_lt_iff_lt_mul log.sectBBsize_pos]
  apply hne
  unfold stamped
  simp only [hS _ _ hdiv, hlt]

omit hlost in
theorem sect_dvd_headStart (hA : SectorAligned log k S) :
    log.sectBBsize ∣ headStart log (stamped x k S) := by
  unfold headStart
  split_ifs with hsame
  · exact log.sect_dvd
  · have hpos : 0 < log.logBBsize - 1 := Nat.pos_of_ne_zero fun h => hsame (by rw [h])
    obtain ⟨h0, -, hc, hne, -⟩ := BinarySearch.bisect_spec
      (p := (stamped x k S · = stamped x k S (log.logBBsize - 1))) hpos (decide_eq_false hsame)
      (decide_eq_true rfl) (show log.logBBsize - 1 - 0 ≤ log.logBBsize by omega)
    have hc' := of_decide_eq_true hc
    exact sect_dvd_of_stamped_ne hA h0 fun heq => of_decide_eq_false hne (heq ▸ hc')

/-- A head and holes on sector boundaries are always shown. -/
theorem holeShown_of_aligned (hA : SectorAligned log k S) : HoleShown log k x S := by
  intro b hb hbfirst
  obtain ⟨-, hmin⟩ := hbfirst.resolve_left fun h => by simp [h.1] at hb
  obtain ⟨stop, -, t, hends⟩ := hlost.searchEnds
  rcases hlost.first_hole_cases hends hb hmin with ⟨heq, -⟩ | hlt
  · exact .inl heq
  refine .inr ?_
  have hW := hlost.scan_le
  have hrecent := ((hlost.hit_iff hends).mpr ⟨hb, hlt⟩).1
  have hdvd := log.sectBBsize_dvd_totalRecShift
  have he : log.sectBBsize ∣ headStart log (stamped x k S) := sect_dvd_headStart hA
  unfold ScanShows
  unfold RecentlyWritten at hrecent
  split_ifs
  · exact shown_of_dvd (by omega) le_rfl (Nat.dvd_sub he hdvd) hdvd (by omega) (by omega)
  · exact shown_of_dvd (by omega) (Nat.sub_le _ _)
      (Nat.dvd_sub log.sect_dvd (Nat.dvd_sub hdvd he)) (Nat.dvd_sub hdvd he) (by omega) (by omega)
  · exact shown_of_dvd (by omega) (by omega) (dvd_zero _) he (by omega) (by omega)

end LostWrites

end Finds

/-- In a log of at least twice as many blocks as may be in flight, and for any set of missing last
writes, the head is found at the first of them if and only if the binary search ends there or the
scan back shows it. Both hold if the head and the missing writes are whole sectors, as they always
are with sectors of one block. -/
theorem find_head_first_hole_iff (log : Xlog) (k x : Nat) (S : Nat → Bool)
    (hlost : LostWrites log.logBBsize log.totalRecShift k x S) :
    (FindsFirstHole log k x S ↔ HoleShown log k x S) ∧
      (SectorAligned log k S → FindsFirstHole log k x S) :=
  ⟨⟨hlost.holeShown_of_finds, hlost.finds_of_holeShown⟩,
    fun hA => hlost.finds_of_holeShown (hlost.holeShown_of_aligned hA)⟩

/-- A log of 8192 blocks with sectors of 4 KiB. -/
def sampleXlog : Xlog := ⟨8192, 3, true, by decide, by decide⟩

/-- The last sector before the head is missing. -/
theorem find_head_first_hole_sector : FindsFirstHole sampleXlog 4104 2 fun b => b / 8 = 512 := by
  have hlost : LostWrites 8192 4096 4104 2 fun b => b / 8 = 512 :=
    ⟨by decide, by decide, by decide, by decide, fun b hb => .inl (by
      have := of_decide_eq_true hb
      omega)⟩
  refine (find_head_first_hole_iff sampleXlog 4104 2 _ hlost).2 ⟨by decide, fun a b h => ?_⟩
  have hdiv : a / 8 = b / 8 := h
  simp only [hdiv]

/-- Block 4098 is missing and the head is 4101. The scan starts with block 5, reads 4096 blocks from
block 0 on, and so does not come to block 4098. -/
theorem find_head_unaligned_missed : LostWrites 8192 4096 4101 2 (fun b => b = 4098) ∧
      ¬ FindsFirstHole sampleXlog 4101 2 fun b => b = 4098 := by
  have hlost : LostWrites 8192 4096 4101 2 (fun b => b = 4098) :=
    ⟨by decide, by decide, by decide, by decide, fun b hb => .inl (by
      have := of_decide_eq_true hb
      omega)⟩
  refine ⟨hlost, fun h => ?_⟩
  have hstart : headStart sampleXlog (stamped 2 4101 fun b => b = 4098) = 4101 := by decide
  have hshown := @LostWrites.holeShown_of_finds sampleXlog _ _ _ hlost h 4098 rfl
    (.inr ⟨rfl, fun b hb => by rw [of_decide_eq_true hb]⟩)
  rw [hstart] at hshown
  revert hshown
  decide

end FirstHole

end Xfs
