import Xfs.Lib.LevelRuns
import Xfs.Repair.RefcountWalk

/-! The sweep over the shareable rmaps without the cursor and the bag: which mappings cover a block,
where this set changes, and what is due by a block. -/
namespace Xfs

open List LevelRuns

def RmapIrec.covers (b : Nat) (r : RmapIrec) : Bool :=
  decide (r.startblock ≤ b ∧ b < r.startblock + r.blockcount)

def live (S : List RmapIrec) (b : Nat) : List RmapIrec := S.filter (RmapIrec.covers b)

def depth (S : List RmapIrec) (b : Nat) : Nat := (live S b).length

def pending (S : List RmapIrec) (n : Nat) : List RmapIrec :=
  S.filter (fun r => decide (n < r.startblock))

/-- Shareable rmaps as the sweep meets them. -/
structure Shareables (S : List RmapIrec) : Prop where
  sorted : S.Pairwise (fun r s => r.startblock ≤ s.startblock)
  pos : ∀ r ∈ S, 0 < r.blockcount
  bound : ∀ r ∈ S, r.startblock + r.blockcount < nullAgblock
  owner : ∀ r ∈ S, r.owner ≠ 0

variable {S P : List RmapIrec} {r : RmapIrec} {b m n nbno c : Nat}

theorem mem_live : r ∈ live S b ↔ r ∈ S ∧ r.startblock ≤ b ∧ b < r.startblock + r.blockcount := by
  simp [live, RmapIrec.covers]

theorem mem_pending : r ∈ pending S n ↔ r ∈ S ∧ n < r.startblock := by
  simp [pending]

theorem Shareables.nextBno_eq (hS : Shareables S) (hr : r ∈ S) :
    r.nextBno = r.startblock + r.blockcount := by
  have := hS.bound r hr
  unfold nullAgblock at this
  exact add32_eq (by omega)

theorem takeWhile_startsAt (hs : P.Pairwise (fun r s => r.startblock ≤ s.startblock))
    (hb : ∀ r ∈ P, b ≤ r.startblock) :
    P.takeWhile (startsAt b) = P.filter (startsAt b) ∧ P.dropWhile (startsAt b) = pending P b := by
  induction P with
  | nil => exact ⟨rfl, rfl⟩
  | cons r P ih =>
    obtain ⟨hr, hs⟩ := pairwise_cons.mp hs
    obtain ⟨ihTake, ihDrop⟩ := ih hs (fun s h => hb s (mem_cons_of_mem _ h))
    by_cases hrb : r.startblock = b
    · have hd : startsAt b r := decide_eq_true hrb
      have hn : pending (r :: P) b = pending P b := by simp [pending, hrb]
      rw [takeWhile_cons_of_pos hd, dropWhile_cons_of_pos hd, filter_cons_of_pos hd, hn, ihTake]
      exact ⟨rfl, ihDrop⟩
    have hd : ¬ startsAt b r := by simpa [startsAt] using hrb
    have hlt : ∀ s ∈ r :: P, b < s.startblock := by
      have h0 := hb r mem_cons_self
      intro s h
      rcases mem_cons.mp h with rfl | h
      · omega
      · have := hr s h
        omega
    rw [takeWhile_cons_of_neg hd, dropWhile_cons_of_neg hd]
    refine ⟨(filter_eq_nil_iff.mpr fun s h he => ?_).symm,
      (filter_eq_self.mpr fun s h => decide_eq_true (hlt s h)).symm⟩
    have := hlt s h
    have : s.startblock = b := of_decide_eq_true he
    omega

theorem pending_pending (h : n ≤ m) : pending (pending S n) m = pending S m := by
  simp only [pending, filter_filter]
  refine filter_congr fun r _ => ?_
  rw [← Bool.decide_and, decide_eq_decide]
  omega

theorem pending_filter_startsAt (h : n < m) :
    (pending S n).filter (startsAt m) = S.filter (startsAt m) := by
  simp only [pending, filter_filter]
  refine filter_congr fun r _ => ?_
  simp only [startsAt, ← Bool.decide_and, decide_eq_decide]
  omega

theorem Shareables.pending_sorted (hS : Shareables S) (n : Nat) :
    (pending S n).Pairwise (fun r s => r.startblock ≤ s.startblock) :=
  hS.sorted.sublist filter_sublist

/-- `nbno` is the first block after `n` where a mapping starts or has ended. -/
structure NextEdge (S : List RmapIrec) (n nbno : Nat) : Prop where
  lt : n < nbno
  bound : nbno < nullAgblock
  ends : ∀ r ∈ live S n, nbno ≤ r.startblock + r.blockcount
  starts : ∀ r ∈ pending S n, nbno ≤ r.startblock
  attained : (∃ r ∈ live S n, r.startblock + r.blockcount = nbno) ∨
    ∃ r ∈ pending S n, r.startblock = nbno

theorem NextEdge.live_eq (h : NextEdge S n nbno) (hb : n ≤ b) (hbn : b < nbno) :
    live S b = live S n := by
  refine filter_congr fun r hr => ?_
  simp only [RmapIrec.covers, decide_eq_decide]
  constructor
  · rintro ⟨h1, h2⟩
    refine ⟨?_, by omega⟩
    by_contra hlt
    have := h.starts r (mem_pending.mpr ⟨hr, by omega⟩)
    omega
  · rintro ⟨h1, h2⟩
    have := h.ends r (mem_live.mpr ⟨hr, h1, h2⟩)
    omega

theorem NextEdge.live_perm (h : NextEdge S n nbno) (hS : Shareables S) :
    (((pending S n).filter (startsAt nbno)).reverse ++
      (live S n).filter (fun r => decide (r.nextBno ≠ nbno))).Perm (live S nbno) := by
  have hlt := h.lt
  have hstart : (live S nbno).filter (startsAt nbno) = S.filter (startsAt nbno) := by
    rw [live, filter_filter]
    refine filter_congr fun r hr => ?_
    have := hS.pos r hr
    simp only [RmapIrec.covers, startsAt, ← Bool.decide_and, decide_eq_decide]
    omega
  have hstay : (live S nbno).filter (fun r => !startsAt nbno r) =
      (live S n).filter (fun r => decide (r.nextBno ≠ nbno)) := by
    rw [live, live, filter_filter, filter_filter]
    refine filter_congr fun r hr => ?_
    have hend := h.ends r
    have hbeg := h.starts r
    rw [mem_live] at hend
    rw [mem_pending] at hbeg
    rw [hS.nextBno_eq hr, Bool.eq_iff_iff]
    simp only [RmapIrec.covers, startsAt, Bool.and_eq_true, Bool.not_eq_true',
      decide_eq_true_eq, decide_eq_false_iff_not]
    constructor
    · rintro ⟨h1, h2, h3⟩
      have : r.startblock ≤ n := by
        by_contra hgt
        have := hbeg ⟨hr, by omega⟩
        omega
      omega
    · rintro ⟨h1, h2, h3⟩
      have := hend ⟨hr, h2, h3⟩
      omega
  have hperm := filter_append_perm (startsAt nbno) (live S nbno)
  rw [hstart, hstay] at hperm
  rw [pending_filter_startsAt hlt]
  exact ((reverse_perm _).append_right _).trans hperm

theorem NextEdge.measure_lt (h : NextEdge S n nbno) (hS : Shareables S) :
    2 * (pending S nbno).length + (live S nbno).length <
      2 * (pending S n).length + (live S n).length := by
  have hlt := h.lt
  have htake := takeWhile_startsAt (hS.pending_sorted n) h.starts
  have hsplit := congrArg List.length
    (takeWhile_append_dropWhile (p := startsAt nbno) (l := pending S n))
  rw [htake.1, htake.2, pending_pending hlt.le, length_append] at hsplit
  have hlive := (h.live_perm hS).length_eq
  rw [length_append, length_reverse] at hlive
  have hbag := length_eq_length_filter_add (l := live S n) (fun r => decide (r.nextBno ≠ nbno))
  rcases h.attained with ⟨r, hr, he⟩ | ⟨r, hr, he⟩
  · have hpos : 0 < ((live S n).filter fun r => !decide (r.nextBno ≠ nbno)).length := by
      refine length_pos_of_mem (mem_filter.mpr ⟨hr, ?_⟩)
      simp [hS.nextBno_eq (mem_live.mp hr).1, he]
    omega
  · have hpos : 0 < ((pending S n).filter (startsAt nbno)).length :=
      length_pos_of_mem (mem_filter.mpr ⟨hr, decide_eq_true he⟩)
    omega

def runRec (d : Nat → Nat) (s len : Nat) : RefcountIrec :=
  ⟨s, len, min (d s) refcRefcountMax, .shared⟩

/-- The records of all runs of two or more mappings that end by `c`. -/
structure Emitted (d : Nat → Nat) (c : Nat) (items : List RefcountIrec) : Prop where
  increasing : items.Pairwise (fun x y => x.startblock + x.blockcount ≤ y.startblock)
  mem_iff : ∀ x, x ∈ items ↔
    ∃ s len, IsRun d s len ∧ s + len ≤ c ∧ 2 ≤ d s ∧ x = runRec d s len

variable {d : Nat → Nat} {items : List RefcountIrec} {flags₀ flags : ReflinkFlags} {k : Nat}

theorem emitted_zero (d : Nat → Nat) : Emitted d 0 [] := by
  refine ⟨List.Pairwise.nil, fun x => ⟨by simp, ?_⟩⟩
  rintro ⟨s, len, hrun, hle, -⟩
  have := hrun.pos
  omega

theorem Emitted.extend (h : Emitted d c items) (hcn : c < n) (hc : Fresh d c)
    (hk : ∀ b, c ≤ b → b < n → d b = k) (hn : d n ≠ k) :
    Emitted d n (items ++ if 1 < k then [⟨c, n - c, min k refcRefcountMax, .shared⟩] else []) := by
  have hdc : d c = k := hk c le_rfl hcn
  constructor
  · refine pairwise_append.mpr ⟨h.increasing, by split <;> simp, ?_⟩
    intro x hx y hy
    obtain ⟨s, len, -, hle, -, rfl⟩ := (h.mem_iff x).mp hx
    split at hy
    · rw [mem_singleton.mp hy]
      exact hle
    · simp at hy
  · intro x
    rw [mem_append, h.mem_iff x]
    constructor
    · rintro (⟨s, len, hrun, hle, h2, rfl⟩ | hx)
      · exact ⟨s, len, hrun, by omega, h2, rfl⟩
      · split at hx
        · obtain ⟨hrun, hle⟩ := (isRun_extend hcn hc hk hn).mpr (.inr ⟨rfl, rfl⟩)
          refine ⟨c, n - c, hrun, hle, by omega, ?_⟩
          rw [mem_singleton.mp hx, runRec, hdc]
        · simp at hx
    · rintro ⟨s, len, hrun, hle, h2, rfl⟩
      rcases (isRun_extend hcn hc hk hn).mp ⟨hrun, hle⟩ with ⟨-, hle⟩ | ⟨rfl, rfl⟩
      · exact .inl ⟨s, len, hrun, hle, h2, rfl⟩
      · right
        rw [if_pos (by omega), mem_singleton, runRec, hdc]

theorem Emitted.skip (h : Emitted d c items) (hcn : c ≤ n)
    (hzero : ∀ b, c ≤ b → b < n → d b = 0) : Emitted d n items := by
  refine ⟨h.increasing, fun x => ?_⟩
  rw [h.mem_iff x]
  constructor
  · rintro ⟨s, len, hrun, hle, h2⟩
    exact ⟨s, len, hrun, by omega, h2⟩
  · rintro ⟨s, len, hrun, hle, h2⟩
    exact ⟨s, len, hrun, isRun_skip hzero (by omega) hrun hle, h2⟩

/-- The inodes with a shared block below `n` have been marked. -/
def MarkedTo (S : List RmapIrec) (flags₀ : ReflinkFlags) (n : Nat) (flags : ReflinkFlags) : Prop :=
  ∀ i, flags i = true ↔
    flags₀ i = true ∨ ∃ b, b < n ∧ 2 ≤ depth S b ∧ ∃ r ∈ live S b, r.owner = i

theorem MarkedTo.extend (h : MarkedTo S flags₀ (n + 1) flags)
    (hlive : ∀ b, n ≤ b → b < nbno → live S b = live S n) (hlt : n < nbno) :
    MarkedTo S flags₀ nbno flags := by
  intro i
  rw [h i]
  refine or_congr Iff.rfl ⟨?_, ?_⟩
  · rintro ⟨b, hb, h2⟩
    exact ⟨b, by omega, h2⟩
  · rintro ⟨b, hb, h2⟩
    by_cases hbn : b ≤ n
    · exact ⟨b, by omega, h2⟩
    · rw [depth, hlive b (by omega) hb] at h2
      exact ⟨n, by omega, h2⟩

theorem MarkedTo.skip (h : MarkedTo S flags₀ m flags) (hmn : m ≤ n)
    (hnone : ∀ b, m ≤ b → b < n → live S b = []) : MarkedTo S flags₀ n flags := by
  intro i
  rw [h i]
  refine or_congr Iff.rfl ⟨?_, ?_⟩
  · rintro ⟨b, hb, h2⟩
    exact ⟨b, by omega, h2⟩
  · rintro ⟨b, hb, h2, h3⟩
    by_cases hbm : b < m
    · exact ⟨b, hbm, h2, h3⟩
    · rw [depth, hnone b (by omega) hb] at h2
      simp at h2

theorem MarkedTo.mark {flags' : ReflinkFlags} {rs : List RmapIrec}
    (h : MarkedTo S flags₀ n flags) (hp : rs.Perm (live S n))
    (hm : ∀ i, flags' i ↔ flags i ∨ 2 ≤ rs.length ∧ ∃ r ∈ rs, r.owner = i) :
    MarkedTo S flags₀ (n + 1) flags' := by
  intro i
  rw [hm i, h i, hp.length_eq, or_assoc]
  refine or_congr Iff.rfl ⟨?_, ?_⟩
  · rintro (⟨b, hb, h2⟩ | ⟨h2, r, hr, hi⟩)
    · exact ⟨b, by omega, h2⟩
    · exact ⟨n, by omega, h2, r, hp.mem_iff.mp hr, hi⟩
  · rintro ⟨b, hb, h2, r, hr, hi⟩
    by_cases hbn : b = n
    · subst hbn
      exact .inr ⟨h2, r, hp.mem_iff.mpr hr, hi⟩
    · exact .inl ⟨b, by omega, h2, r, hr, hi⟩

end Xfs
