import Xfs.Alloc.Agfl

/-! The free list is a bounded queue. -/
namespace Xfs

open List AgflQueue

variable {m : AgflMount} {g : Group} {st : AgflState} {q : AgflQueue} {calls : List AgflCall}
  {queue : List Nat}

theorem agflSize_pos (m : AgflMount) : 0 < agflSize m := by
  have := m.sectsize_ge
  unfold agflSize
  split_ifs <;> omega

theorem agflSize_lt (m : AgflMount) : agflSize m < 2 ^ 31 := by
  have := m.sectsize_lt
  unfold agflSize
  split_ifs <;> omega

/-- The state holds the queue. The block counts of the btrees started at `b` and `pb`. -/
structure AgflHolds (m : AgflMount) (b pb : Nat) (st : AgflState) (q : AgflQueue) : Prop where
  ring : RingHolds (agflSize m) st.flfirst st.fllast st.agflBno q.blocks
  flcount : st.flcount = q.blocks.length
  pagfFlcount : st.pagfFlcount = q.blocks.length
  btreeblks : (st.btreeblks : Int) = (b + q.btreeblks) % 2 ^ 32
  pagfBtreeblks : (st.pagfBtreeblks : Int) = (pb + q.btreeblks) % 2 ^ 32

variable {b pb fuel bno a : Nat} {call : AgflCall} {x : Int}

theorem add32_one_int (h : (a : Int) = x % 2 ^ 32) : (add32 a 1 : Int) = (x + 1) % 2 ^ 32 := by
  unfold add32
  omega

theorem sub32_one_int (h : (a : Int) = x % 2 ^ 32) : (sub32 a 1 : Int) = (x - 1) % 2 ^ 32 := by
  unfold sub32
  omega

theorem add32_wrap {i : Nat} (hi : i < agflSize m) :
    (if add32 i 1 = agflSize m then 0 else add32 i 1) = ringNext (agflSize m) i := by
  have := agflSize_lt m
  rw [add32_eq (by omega), ringNext]

theorem agflReset_holds (hb : st.btreeblks < 2 ^ 32) (hpb : st.pagfBtreeblks < 2 ^ 32) :
    AgflHolds m st.btreeblks st.pagfBtreeblks (agflReset m st) ⟨[], 0⟩ where
  ring := RingHolds.empty (agflSize_pos m)
  flcount := rfl
  pagfFlcount := rfl
  btreeblks := by
    show (st.btreeblks : Int) = (st.btreeblks + 0) % 2 ^ 32
    omega
  pagfBtreeblks := by
    show (st.pagfBtreeblks : Int) = (st.pagfBtreeblks + 0) % 2 ^ 32
    omega

theorem AgflHolds.put (h : AgflHolds m b pb st q) (hroom : q.blocks.length < agflSize m)
    (bno : Nat) (btreeblk : Bool) :
    AgflHolds m b pb (allocPutFreelist m st bno btreeblk)
      ⟨q.blocks ++ [bno], q.btreeblks - btreeblk.toNat⟩ := by
  have hsize := agflSize_lt m
  have hring := h.ring.push hroom bno
  rw [← add32_wrap h.ring.last_lt] at hring
  have hlength : (q.blocks ++ [bno]).length = q.blocks.length + 1 := length_append
  have hcount : add32 st.flcount 1 = (q.blocks ++ [bno]).length := by
    rw [h.flcount, add32_eq (by omega), hlength]
  have hpagf : add32 st.pagfFlcount 1 = (q.blocks ++ [bno]).length := by
    rw [h.pagfFlcount, add32_eq (by omega), hlength]
  cases btreeblk with
  | false =>
    refine ⟨hring, hcount, hpagf, ?_, ?_⟩
    · simpa [allocPutFreelist] using h.btreeblks
    · simpa [allocPutFreelist] using h.pagfBtreeblks
  | true =>
    refine ⟨hring, hcount, hpagf, ?_, ?_⟩
    · exact (sub32_one_int h.btreeblks).trans (by rw [add_sub_assoc]; rfl)
    · exact (sub32_one_int h.pagfBtreeblks).trans (by rw [add_sub_assoc]; rfl)

theorem AgflHolds.get (h : AgflHolds m b pb st q) (btreeblk : Bool) :
    AgflHolds m b pb (allocGetFreelist m g st btreeblk).1 (q.step g (.get btreeblk)).1 ∧
      [(allocGetFreelist m g st btreeblk).2] = (q.step g (.get btreeblk)).2 := by
  obtain ⟨blocks, btreeblks⟩ := q
  cases blocks with
  | nil =>
    have hzero : st.flcount = 0 := h.flcount
    rw [allocGetFreelist, if_pos hzero]
    exact ⟨h, rfl⟩
  | cons bno blocks =>
    have hsize := agflSize_lt m
    have hlength := h.ring.length_le
    rw [length_cons] at hlength
    obtain ⟨hbno, hring⟩ := h.ring.pop
    have hne : st.flcount ≠ 0 := by
      rw [h.flcount]
      exact Nat.succ_ne_zero _
    rw [allocGetFreelist, if_neg hne, hbno]
    simp only [step]
    by_cases hver : verifyGbno g bno = true
    · rw [if_neg (by simp [hver]), if_pos hver]
      rw [← add32_wrap h.ring.first_lt] at hring
      have hcount : sub32 st.flcount 1 = blocks.length := by
        rw [h.flcount, length_cons, sub32_eq (by omega) (by omega)]
        rfl
      have hpagf : sub32 st.pagfFlcount 1 = blocks.length := by
        rw [h.pagfFlcount, length_cons, sub32_eq (by omega) (by omega)]
        rfl
      cases btreeblk with
      | false =>
        refine ⟨⟨hring, hcount, hpagf, ?_, ?_⟩, rfl⟩
        · simpa using h.btreeblks
        · simpa using h.pagfBtreeblks
      | true =>
        refine ⟨⟨hring, hcount, hpagf, ?_, ?_⟩, rfl⟩
        · exact (add32_one_int h.btreeblks).trans (by rw [add_assoc]; rfl)
        · exact (add32_one_int h.pagfBtreeblks).trans (by rw [add_assoc]; rfl)
    · rw [if_pos (by simpa using hver), if_neg hver]
      exact ⟨h, rfl⟩

theorem AgflHolds.needsReset (h : AgflHolds m b pb st q) : agflNeedsReset m st = false := by
  have hfirst := h.ring.first_lt
  have hlast := h.ring.last_lt
  have hlength := h.ring.length_le
  have hcount := h.flcount
  rw [agflNeedsReset, if_neg (by omega), if_neg (by omega)]
  obtain ⟨blocks, btreeblks⟩ := q
  cases blocks with
  | nil => simp [hcount]
  | cons bno blocks =>
    have heq := h.ring.length_eq
    have hne : st.flcount ≠ 0 := by
      rw [hcount]
      exact Nat.succ_ne_zero _
    simp only [ne_eq, hne, not_false_eq_true, true_and, if_true, bne_eq_false_iff_eq]
    rw [hcount, heq]

theorem agflWalkFrom_eq {σ ε : Type} (walkFn : σ → Nat → Except ε σ) {first : Nat}
    (h : RingHolds (agflSize m) first st.fllast st.agflBno (bno :: queue))
    (hfuel : queue.length < fuel) (priv : σ) :
    agflWalkFrom m st walkFn fuel first priv = some ((bno :: queue).foldlM walkFn priv) := by
  induction queue generalizing fuel first bno priv with
  | nil =>
    obtain ⟨fuel, rfl⟩ := Nat.exists_eq_succ_of_ne_zero (ne_zero_of_lt hfuel)
    rw [agflWalkFrom, h.pop.1, foldlM_cons]
    cases hfn : walkFn priv bno with
    | error e => rfl
    | ok priv' => exact if_pos (h.first_eq_last_iff.mpr rfl)
  | cons bno' queue ih =>
    obtain ⟨fuel, rfl⟩ := Nat.exists_eq_succ_of_ne_zero (ne_zero_of_lt hfuel)
    have hne : first ≠ st.fllast := fun heq =>
      cons_ne_nil _ _ (h.first_eq_last_iff.mp heq)
    have hrest : ∀ priv, agflWalkFrom m st walkFn fuel
        (if first + 1 = agflSize m then 0 else first + 1) priv =
          some ((bno' :: queue).foldlM walkFn priv) := fun priv =>
      ih h.pop.2 (Nat.lt_of_succ_lt_succ hfuel) priv
    rw [agflWalkFrom, h.pop.1, foldlM_cons]
    cases hfn : walkFn priv bno with
    | error e => rfl
    | ok priv' => exact (if_neg hne).trans (hrest priv')

theorem AgflHolds.walk {σ ε : Type} (h : AgflHolds m b pb st q) (walkFn : σ → Nat → Except ε σ)
    (hfuel : agflSize m ≤ fuel) (priv : σ) :
    agflWalk m st walkFn fuel priv = some (q.blocks.foldlM walkFn priv) := by
  obtain ⟨blocks, btreeblks⟩ := q
  cases blocks with
  | nil =>
    have hzero : st.flcount = 0 := h.flcount
    rw [agflWalk, if_pos hzero]
    rfl
  | cons bno blocks =>
    have hne : st.flcount ≠ 0 := by
      rw [h.flcount]
      exact Nat.succ_ne_zero _
    have hlength := h.ring.length_le
    rw [length_cons] at hlength
    rw [agflWalk, if_neg hne]
    exact agflWalkFrom_eq walkFn h.ring (by omega) priv

/-- The queue never outgrows the list. -/
def AgflFits (m : AgflMount) (g : Group) (q : AgflQueue) (calls : List AgflCall) : Prop :=
  ∀ before, before <+: calls → (q.run g before).1.blocks.length ≤ agflSize m

theorem AgflFits.tail (h : AgflFits m g q (call :: calls)) :
    AgflFits m g (q.step g call).1 calls := by
  intro before hbefore
  exact h (call :: before) (cons_prefix_cons.mpr ⟨rfl, hbefore⟩)

theorem AgflFits.room {btreeblk : Bool} (h : AgflFits m g q (.put bno btreeblk :: calls)) :
    q.blocks.length < agflSize m := by
  have hfirst := h [.put bno btreeblk] (cons_prefix_cons.mpr ⟨rfl, nil_prefix⟩)
  simp only [run, step, length_append, length_singleton] at hfirst
  omega

theorem AgflHolds.step (h : AgflHolds m b pb st q) (hfits : AgflFits m g q (call :: calls)) :
    AgflHolds m b pb (agflStep m g st call).1 (q.step g call).1 ∧
      (agflStep m g st call).2 = (q.step g call).2 := by
  cases call with
  | put bno btreeblk => exact ⟨h.put hfits.room bno btreeblk, rfl⟩
  | get btreeblk => exact h.get btreeblk

theorem AgflHolds.run (h : AgflHolds m b pb st q) (hfits : AgflFits m g q calls) :
    AgflHolds m b pb (agflRun m g st calls).1 (q.run g calls).1 ∧
      (agflRun m g st calls).2 = (q.run g calls).2 := by
  induction calls generalizing st q with
  | nil => exact ⟨h, rfl⟩
  | cons call calls ih =>
    obtain ⟨hstep, hanswer⟩ := h.step hfits
    obtain ⟨hrun, hanswers⟩ := ih hstep hfits.tail
    refine ⟨hrun, ?_⟩
    exact congrArg₂ (· ++ ·) hanswer hanswers

theorem verifyGbno_nullagblock (g : Group) : verifyGbno g nullagblock = false := by
  have := g.blockCount_lt
  have hlt : ¬ nullagblock < g.blockCount := by
    unfold nullagblock
    omega
  rw [verifyGbno, decide_eq_false hlt, Bool.false_and]

theorem AgflQueue.step_blocks (q : AgflQueue) (call : AgflCall) :
    blocksGot (q.step g call).2 ++ (q.step g call).1.blocks = q.blocks ++ blocksPut [call] := by
  cases call with
  | put bno btreeblk => rfl
  | get btreeblk =>
    obtain ⟨blocks, btreeblks⟩ := q
    cases blocks with
    | nil => rfl
    | cons bno blocks =>
      simp only [step]
      by_cases hver : verifyGbno g bno = true
      · have hne : bno ≠ nullagblock := by
          rintro rfl
          rw [verifyGbno_nullagblock] at hver
          cases hver
        rw [if_pos hver]
        simp [blocksGot, blocksPut, hne]
      · rw [if_neg hver]
        simp [blocksGot, blocksPut]

theorem AgflQueue.run_blocks (q : AgflQueue) (calls : List AgflCall) :
    blocksGot (q.run g calls).2 ++ (q.run g calls).1.blocks = q.blocks ++ blocksPut calls := by
  induction calls generalizing q with
  | nil => simp [run, blocksGot, blocksPut]
  | cons call calls ih =>
    have hgot : blocksGot (q.run g (call :: calls)).2 =
        blocksGot (q.step g call).2 ++ blocksGot ((q.step g call).1.run g calls).2 :=
      filterMap_append
    have hput : blocksPut (call :: calls) = blocksPut [call] ++ blocksPut calls :=
      filterMap_append (l := [call])
    calc blocksGot (q.run g (call :: calls)).2 ++ (q.run g (call :: calls)).1.blocks
        = blocksGot (q.step g call).2 ++ (blocksGot ((q.step g call).1.run g calls).2 ++
            ((q.step g call).1.run g calls).1.blocks) := by rw [hgot, append_assoc]; rfl
      _ = blocksGot (q.step g call).2 ++ (q.step g call).1.blocks ++ blocksPut calls := by
          rw [ih, append_assoc]
      _ = q.blocks ++ blocksPut (call :: calls) := by
          rw [step_blocks, hput, append_assoc]

/-- After a reset the free list is a queue: the answers are those of the queue, the counts are its
length, no reset is called for, and the walk visits it in order. -/
theorem agfl_is_queue (m : AgflMount) (g : Group) (st : AgflState) (calls : List AgflCall)
    (hb : st.btreeblks < 2 ^ 32) (hpb : st.pagfBtreeblks < 2 ^ 32)
    (hfits : AgflFits m g ⟨[], 0⟩ calls) :
    let (st', answers) := agflRun m g (agflReset m st) calls
    let (q, expected) := run g ⟨[], 0⟩ calls
    answers = expected ∧ blocksGot answers ++ q.blocks = blocksPut calls ∧
      agflNeedsReset m st' = false ∧
      st'.flcount = q.blocks.length ∧ st'.pagfFlcount = q.blocks.length ∧
      (st'.btreeblks : Int) = (st.btreeblks + q.btreeblks) % 2 ^ 32 ∧
      (st'.pagfBtreeblks : Int) = (st.pagfBtreeblks + q.btreeblks) % 2 ^ 32 ∧
      ∀ (σ ε : Type) (walkFn : σ → Nat → Except ε σ) (fuel : Nat) (priv : σ), agflSize m ≤ fuel →
        agflWalk m st' walkFn fuel priv = some (q.blocks.foldlM walkFn priv) := by
  obtain ⟨hrun, hanswers⟩ := (agflReset_holds hb hpb).run hfits
  refine ⟨hanswers, ?_, hrun.needsReset, hrun.flcount, hrun.pagfFlcount, hrun.btreeblks,
    hrun.pagfBtreeblks, fun σ ε walkFn fuel priv hfuel => hrun.walk walkFn hfuel priv⟩
  rw [hanswers]
  exact run_blocks ⟨[], 0⟩ calls

/-- A list of two slots that wraps around. -/
def sampleAgflMount : AgflMount := ⟨44, true, by decide, by decide⟩

def sampleAgflState : AgflState := ⟨1, 1, 2, 0, 2, 0, true, fun _ => 0⟩

def sampleAgflCalls : List AgflCall :=
  [.put 10 false, .put 11 true, .get true, .put 12 false, .get false]

theorem sampleAgflCalls_fit : AgflFits sampleAgflMount sampleGroup ⟨[], 0⟩ sampleAgflCalls := by
  have hall : ∀ n ≤ 5, ((mk [] 0).run sampleGroup
      (sampleAgflCalls.take n)).1.blocks.length ≤ agflSize sampleAgflMount := by decide
  intro before hbefore
  rw [prefix_iff_eq_take.mp hbefore]
  exact hall _ hbefore.length_le

theorem agfl_is_queue_sample :
    (agflRun sampleAgflMount sampleGroup (agflReset sampleAgflMount sampleAgflState)
        sampleAgflCalls).2 = [.ok 10, .ok 11] ∧
      agflNeedsReset sampleAgflMount (agflRun sampleAgflMount sampleGroup
        (agflReset sampleAgflMount sampleAgflState) sampleAgflCalls).1 = false := by
  have h := agfl_is_queue sampleAgflMount sampleGroup sampleAgflState sampleAgflCalls (by decide)
    (by decide) sampleAgflCalls_fit
  exact ⟨h.1, h.2.2.1⟩

end Xfs
