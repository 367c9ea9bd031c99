import Xfs.Defer.Ledger

/-! What each function does to the ledger. -/
namespace Xfs

open List

variable {S T W : Type} {env : DeferEnv S T W} {logs : T → Bool}
  {st st' : DeferState S T W} {dfp dfp' : DeferPending T W}
  {ds ds' rest others : List (DeferPending T W)} {g : DeferLedger T W} {ws : List (WorkItem W)}
  {res : Except Errno Bool} {li : WorkItem W} {ops : T}

structure DeferContract (env : DeferEnv S T W) (logs : T → Bool) : Prop where
  createIntent : ∀ t s work sort, ((env.opType t).createIntent s work sort).1 ≠
    if logs t then .null else .intent
  createIntent_work : ∀ t s work sort, ((env.opType t).createIntent s work sort).2.1.Perm work
  createDone : ∀ t s intent count, logs t = true →
    ((env.opType t).createDone s intent count).1 = true
  relogIntent : ∀ t s intent, logs t = true → ((env.opType t).relogIntent s intent).1 = true

def Logged (logs : T → Bool) (ds : List (DeferPending T W)) : Prop :=
  ∀ d ∈ ds, logs d.ops = true → d.intent.isSome = true

theorem Logged.cons {d : DeferPending T W} (hds : Logged logs ds)
    (hd : logs d.ops → d.intent.isSome) : Logged logs (d :: ds) := by
  intro d' hd'
  rcases mem_cons.mp hd' with rfl | hd'
  · exact hd
  · exact hds d' hd'

theorem logged_append : Logged logs (ds ++ ds') ↔ Logged logs ds ∧ Logged logs ds' :=
  forall_mem_append

theorem deferCreateDone_spec (hc : DeferContract env logs)
    (h : DeferInv logs st.ledger (dfp :: rest)) (hrun : deferCreateDone env st dfp = (st', dfp')) :
    st'.dfops = st.dfops ∧ st'.commits = st.commits ∧ dfp' = { dfp with done := dfp'.done } ∧
      DeferInv logs st'.ledger ({ dfp with intent := none } :: rest) := by
  unfold deferCreateDone at hrun
  cases hi : dfp.intent with
  | none =>
    rw [hi] at hrun
    obtain ⟨rfl, rfl⟩ := Prod.mk.inj hrun
    exact ⟨rfl, rfl, by rw [← hi], by rwa [← hi]⟩
  | some i =>
    have hlogs := (h.promised dfp mem_cons_self i hi).2
    rw [hi] at hrun
    obtain ⟨rfl, rfl⟩ := Prod.mk.inj
      ((if_pos (hc.createDone dfp.ops st.sys i dfp.count hlogs)).symm.trans hrun)
    exact ⟨rfl, rfl, by rw [← hi], h.retire hi⟩

theorem DeferInv.sorted (h : DeferInv logs g (dfp :: rest)) (hi : dfp.intent = none)
    {work : List (WorkItem W)} (hwork : work.Perm dfp.work) :
    DeferInv logs g ({ dfp with work := work } :: rest) := by
  have hds : ∀ d ∈ [{ dfp with work := work }], d.intent = none := by simpa using hi
  refine h.replace hi hds rfl rfl (List.Perm.trans ?_ h.account) h.addedNodup h.addedLt
  simp only [flatMap_cons, flatMap_nil, append_nil]
  exact ((hwork.map _).append_right _).append_right _

section

variable (hc : DeferContract env logs)
include hc

theorem deferCreateIntent_spec {sort : Bool} (h : DeferInv logs st.ledger (dfp :: rest))
    (hrun : deferCreateIntent env st dfp sort = (st', dfp', res)) :
    st'.dfops = st.dfops ∧ st'.commits = st.commits ∧ DeferInv logs st'.ledger (dfp' :: rest) ∧
      ∀ has, res = .ok has → logs dfp'.ops → dfp'.intent.isSome := by
  unfold deferCreateIntent at hrun
  cases hi : dfp.intent with
  | some i =>
    rw [hi] at hrun
    obtain ⟨rfl, rfl, rfl⟩ := by simpa only [Prod.mk.injEq] using hrun
    exact ⟨rfl, rfl, h, fun _ _ _ => by rw [hi]; rfl⟩
  | none =>
    have hnot := hc.createIntent dfp.ops st.sys dfp.work sort
    have hsorted := h.sorted hi (hc.createIntent_work dfp.ops st.sys dfp.work sort)
    rw [hi] at hrun hsorted
    dsimp only at hrun
    split at hrun
    · rename_i hnull
      obtain ⟨rfl, rfl, rfl⟩ := by simpa only [Prod.mk.injEq] using hrun
      refine ⟨rfl, rfl, hsorted, fun _ _ hlogs => ?_⟩
      rw [if_pos hlogs] at hnot
      exact absurd hnull hnot
    · obtain ⟨rfl, rfl, rfl⟩ := by simpa only [Prod.mk.injEq] using hrun
      exact ⟨rfl, rfl, hsorted, fun _ herr => by cases herr⟩
    rename_i hint
    obtain ⟨rfl, rfl, rfl⟩ := by simpa only [Prod.mk.injEq] using hrun
    have hlogs : logs dfp.ops := by
      by_contra hlogs
      rw [if_neg hlogs] at hnot
      exact hnot hint
    exact ⟨rfl, rfl, hsorted.promise rfl hlogs, fun _ _ _ => rfl⟩

theorem createIntentsLoop_spec (h : DeferInv logs st.ledger (ds ++ others))
    (hrun : createIntentsLoop env st ds = (st', ds', res)) :
    st'.commits = st.commits ∧ DeferInv logs st'.ledger (ds' ++ others) ∧
      ∀ has, res = .ok has → Logged logs ds' := by
  induction ds generalizing st st' ds' res others with
  | nil =>
    obtain ⟨rfl, rfl, rfl⟩ := by simpa only [createIntentsLoop, Prod.mk.injEq] using hrun
    exact ⟨rfl, h, fun _ _ d hd => by cases hd⟩
  | cons d ds ih =>
    rcases hone : deferCreateIntent env st d true with ⟨st₁, d₁, res₁⟩
    obtain ⟨-, hcommits₁, h₁, hlogged₁⟩ := deferCreateIntent_spec hc h hone
    rw [createIntentsLoop, hone] at hrun
    cases res₁ with
    | error e =>
      obtain ⟨rfl, rfl, rfl⟩ := by simpa only [Prod.mk.injEq] using hrun
      exact ⟨hcommits₁, h₁, fun _ herr => by cases herr⟩
    | ok has =>
      rcases hloop : createIntentsLoop env st₁ ds with ⟨st₂, ds₂, res₂⟩
      have hswap : DeferInv logs st₁.ledger (ds ++ (d₁ :: others)) :=
        h₁.perm perm_middle.symm
      obtain ⟨hcommits₂, h₂, hlogged₂⟩ := ih hswap hloop
      dsimp only at hrun
      rw [hloop] at hrun
      cases res₂ with
      | error e =>
        obtain ⟨rfl, rfl, rfl⟩ := by simpa only [Prod.mk.injEq] using hrun
        exact ⟨hcommits₂.trans hcommits₁, h₂.perm perm_middle, fun _ herr => by cases herr⟩
      | ok has' =>
        obtain ⟨rfl, rfl, rfl⟩ := by simpa only [Prod.mk.injEq] using hrun
        exact ⟨hcommits₂.trans hcommits₁, h₂.perm perm_middle,
          fun _ _ => (hlogged₂ _ rfl).cons (hlogged₁ _ rfl)⟩

theorem deferRelogIntent_spec (h : DeferInv logs st.ledger (dfp :: rest))
    {i : Intent (IntentWork T W)} (hi : dfp.intent = some i)
    (hrun : deferRelogIntent env st dfp = (st', dfp')) :
    st'.dfops = st.dfops ∧ st'.commits = st.commits ∧ dfp'.intent.isSome ∧
      DeferInv logs st'.ledger (dfp' :: rest) := by
  obtain ⟨hpay, hlogs⟩ := h.promised dfp mem_cons_self i hi
  rcases hdone : deferCreateDone env st dfp with ⟨st₁, dfp₁⟩
  obtain ⟨hdfops, hcommits, hdfp₁, h₁⟩ := deferCreateDone_spec hc h hdone
  have hops : dfp₁.ops = dfp.ops := by rw [hdfp₁]
  have hmade := hc.relogIntent dfp₁.ops st₁.sys i (hops ▸ hlogs)
  unfold deferRelogIntent at hrun
  rw [hi] at hrun
  rw [hdone] at hrun
  obtain ⟨rfl, rfl⟩ := Prod.mk.inj ((if_pos hmade).symm.trans hrun)
  refine ⟨hdfops, hcommits, rfl, ?_⟩
  rw [hdfp₁, hpay]
  exact (h₁.promise rfl hlogs).same rfl rfl rfl

theorem deferRelogLoop_spec {threshold : Option Nat} (h : DeferInv logs st.ledger (ds ++ others))
    (hlogged : Logged logs ds) (hrun : deferRelogLoop env threshold st ds = (st', ds')) :
    st'.dfops = st.dfops ∧ st'.commits = st.commits ∧ Logged logs ds' ∧
      DeferInv logs st'.ledger (ds' ++ others) := by
  induction ds generalizing st st' ds' others threshold with
  | nil =>
    obtain ⟨rfl, rfl⟩ := Prod.mk.inj hrun
    exact ⟨rfl, rfl, hlogged, h⟩
  | cons d ds ih =>
    obtain ⟨hd, hds⟩ := forall_mem_cons.mp hlogged
    -- the rest of the list, behind a batch that is now `d₁`
    have hrest : ∀ {st₁ : DeferState S T W} {d₁ : DeferPending T W} {threshold : Option Nat},
        st₁.dfops = st.dfops → st₁.commits = st.commits →
        (logs d₁.ops → d₁.intent.isSome) →
        DeferInv logs st₁.ledger (d₁ :: (ds ++ others)) →
        (st', ds') = ((deferRelogLoop env threshold st₁ ds).1,
          d₁ :: (deferRelogLoop env threshold st₁ ds).2) →
        st'.dfops = st.dfops ∧ st'.commits = st.commits ∧ Logged logs ds' ∧
          DeferInv logs st'.ledger (ds' ++ others) := by
      intro st₁ d₁ threshold hdfops hcommits hd₁ h₁ heq
      obtain ⟨rfl, rfl⟩ := Prod.mk.inj heq
      obtain ⟨hdfops', hcommits', hlogged', h'⟩ := ih (h₁.perm perm_middle.symm) hds rfl
      exact ⟨hdfops'.trans hdfops, hcommits'.trans hcommits, hlogged'.cons hd₁, h'.perm perm_middle⟩
    unfold deferRelogLoop at hrun
    split at hrun
    · exact hrest rfl rfl hd h hrun.symm
    rename_i i hi
    split at hrun
    · exact hrest rfl rfl hd h hrun.symm
    split at hrun
    · obtain ⟨rfl, rfl⟩ := Prod.mk.inj hrun
      exact ⟨rfl, rfl, hlogged, h⟩
    rename_i target _
    by_cases hlsn : target ≤ env.lsn st.sys i
    · rw [if_pos hlsn] at hrun
      exact hrest rfl rfl hd h hrun.symm
    · rcases hone : deferRelogIntent env st d with ⟨st₁, d₁⟩
      obtain ⟨hdfops, hcommits, hsome, h₁⟩ := deferRelogIntent_spec hc h hi hone
      rw [if_neg hlsn, hone] at hrun
      exact hrest hdfops hcommits (fun _ => hsome) h₁ hrun.symm

end

theorem DeferInv.alloc (h : DeferInv logs g others) (ops : T) :
    DeferInv logs g (deferAlloc ops :: others) where
  out := h.out
  ids := h.ids
  below := h.below
  promised := by
    intro d hd i hi
    rcases mem_cons.mp hd with rfl | hd
    · cases hi
    · exact h.promised d hd i hi
  account := h.account
  addedNodup := h.addedNodup
  addedLt := h.addedLt

theorem DeferInv.putBack
    (h : DeferInv logs g ({ dfp with work := li :: ws, intent := none } :: rest)) (data : W) :
    DeferInv logs g
      ({ dfp with work := ⟨li.id, data⟩ :: ws, done := none, intent := none } :: rest) := by
  have hds : ∀ d ∈ [{ dfp with work := ⟨li.id, data⟩ :: ws, done := none, intent := none }],
      d.intent = none := by simp
  refine h.replace rfl hds rfl rfl ?_ h.addedNodup h.addedLt
  simpa [DeferPending.items] using h.account

theorem deferCanAppend_intent (h : deferCanAppend env dfp ops) : dfp.intent = none := by
  unfold deferCanAppend at h
  split at h
  · cases h
  · simpa using ‹¬ dfp.intent.isSome = true›

section
variable [DecidableEq T] {left : Option (DeferPending T W)}

theorem DeferInv.add (h : DeferInv logs g (dfp :: rest)) (hi : dfp.intent = none) (data : W) :
    DeferInv logs { g with nextWork := g.nextWork + 1, added := g.added ++ [(dfp.ops, g.nextWork)] }
      ({ dfp with work := dfp.work ++ [⟨g.nextWork, data⟩] } :: rest) := by
  have hds : ∀ d ∈ [{ dfp with work := dfp.work ++ [(⟨g.nextWork, data⟩ : WorkItem W)] }],
      d.intent = none := by simpa using hi
  refine h.replace hi hds rfl rfl ?_ ?_ ?_
  · refine perm_iff_count.mpr fun a => ?_
    have hcount := h.account.count_eq a
    simp only [flatMap_cons, flatMap_nil, append_nil, count_append,
      DeferPending.items, map_append, map_cons, map_nil] at hcount ⊢
    omega
  · rw [map_append]
    refine nodup_append.mpr ⟨h.addedNodup, nodup_singleton _, ?_⟩
    intro n hn m hm hnm
    obtain ⟨a, ha, rfl⟩ := mem_map.mp hn
    have := h.addedLt a ha
    simp only [map_cons, map_nil, mem_singleton] at hm
    omega
  · intro a ha
    rcases mem_append.mp ha with ha | ha
    · exact (h.addedLt a ha).trans (Nat.lt_succ_self _)
    · rw [mem_singleton.mp ha]
      exact Nat.lt_succ_self _

theorem deferFindLast_eq (h : deferFindLast st ops = some dfp) :
    st.dfops = st.dfops.dropLast ++ [dfp] ∧ dfp.ops = ops := by
  obtain ⟨hlast, hops⟩ := Option.filter_eq_some_iff.mp h
  obtain ⟨ds, hds⟩ := getLast?_eq_some_iff.mp hlast
  rw [hds, dropLast_concat]
  exact ⟨rfl, of_decide_eq_true hops⟩

section

variable (h : DeferInv logs st.ledger (st.dfops ++ others))
include h

theorem deferQueue_add (ops : T) (data : W) :
    (deferQueue env st (.add ops data)).commits = st.commits ∧
      DeferInv logs (deferQueue env st (.add ops data)).ledger
        ((deferQueue env st (.add ops data)).dfops ++ others) := by
  have halloc := (h.alloc ops).add rfl data
  have hnew : ∀ w : DeferPending T W, (w :: (st.dfops ++ others)).Perm (st.dfops ++ [w] ++ others) :=
    fun w => by
      rw [append_assoc]
      exact perm_middle.symm
  unfold deferQueue deferAdd
  dsimp only
  split
  · rename_i last hlast
    obtain ⟨hdfops, rfl⟩ := deferFindLast_eq hlast
    split
    · rename_i happend
      refine ⟨rfl, ?_⟩
      have hfront : (st.dfops ++ others).Perm (last :: (st.dfops.dropLast ++ others)) := by
        have hdfops : st.dfops = st.dfops.dropLast ++ [last] := hdfops
        nth_rewrite 1 [hdfops]
        rw [append_assoc]
        exact perm_middle
      refine ((h.perm hfront).add (deferCanAppend_intent happend) data).perm ?_
      rw [append_assoc]
      exact perm_middle.symm
    · exact ⟨rfl, halloc.perm (hnew _)⟩
  · exact ⟨rfl, halloc.perm (hnew _)⟩

theorem deferAddBarrier_spec : (deferAddBarrier env st).commits = st.commits ∧
      DeferInv logs (deferAddBarrier env st).ledger ((deferAddBarrier env st).dfops ++ others) := by
  unfold deferAddBarrier
  split
  · exact ⟨rfl, h⟩
  · refine ⟨rfl, (h.alloc env.barrier).perm ?_⟩
    rw [append_assoc]
    exact perm_middle.symm

theorem deferQueue_spec (env : DeferEnv S T W) (queued : List (DeferQueue T W)) :
    (queued.foldl (deferQueue env) st).commits = st.commits ∧
      DeferInv logs (queued.foldl (deferQueue env) st).ledger
        ((queued.foldl (deferQueue env) st).dfops ++ others) := by
  induction queued generalizing st with
  | nil => exact ⟨rfl, h⟩
  | cons q queued ih =>
    have hone : (deferQueue env st q).commits = st.commits ∧
        DeferInv logs (deferQueue env st q).ledger ((deferQueue env st q).dfops ++ others) := by
      cases q with
      | add ops data => exact deferQueue_add h ops data
      | barrier => exact deferAddBarrier_spec h
    obtain ⟨hcommits, hrest⟩ := ih hone.2
    exact ⟨hcommits.trans hone.1, hrest⟩

end

theorem DeferInv.finish
    (h : DeferInv logs g ({ dfp with work := li :: ws, intent := none } :: rest)) :
    DeferInv logs { g with finished := g.finished ++ [(dfp.ops, li.id)] }
      ({ dfp with work := ws, intent := none } :: rest) := by
  have hds : ∀ d ∈ [{ dfp with work := ws, intent := none }], d.intent = none := by simp
  refine h.replace rfl hds rfl rfl ?_ h.addedNodup h.addedLt
  refine perm_iff_count.mpr fun a => ?_
  have hcount := h.account.count_eq a
  simp only [flatMap_cons, flatMap_nil, append_nil, count_append,
    DeferPending.items, map_cons, count_cons, count_nil] at hcount ⊢
  omega

theorem finishOneLoop_spec {res : FinishOne} (hc : DeferContract env logs)
    (h : DeferInv logs st.ledger ({ dfp with work := ws, intent := none } :: (st.dfops ++ others)))
    (hrun : finishOneLoop env st dfp ws = (st', left, res)) :
    st'.commits = st.commits ∧ (res.errno = none → Logged logs left.toList ∧
      DeferInv logs st'.ledger (left.toList ++ (st'.dfops ++ others))) := by
  induction ws generalizing st with
  | nil =>
    obtain ⟨rfl, rfl, rfl⟩ := by simpa only [finishOneLoop, Prod.mk.injEq] using hrun
    refine ⟨rfl, fun _ => ⟨by simp [Logged], ?_⟩⟩
    have hds : ∀ d ∈ ([] : List (DeferPending T W)), d.intent = none := by simp
    exact h.replace rfl hds rfl rfl h.account h.addedNodup h.addedLt
  | cons li ws ih =>
    unfold finishOneLoop at hrun
    rcases hitem : (env.opType dfp.ops).finishItem st.sys li.data with ⟨r, queued, sys⟩
    rw [hitem] at hrun
    -- the batch itself counts among the others while the item queues work
    have hmoved : DeferInv logs { st with sys := sys }.ledger
        (st.dfops ++ ({ dfp with work := li :: ws, intent := none } :: others)) :=
      h.perm perm_middle.symm
    obtain ⟨hcommits, hqueued⟩ := deferQueue_spec hmoved env queued
    have hback := hqueued.perm perm_middle
    cases r with
    | ok =>
      obtain ⟨hcommits', hrest⟩ := ih hback.finish hrun
      exact ⟨hcommits'.trans hcommits, hrest⟩
    | error e =>
      obtain ⟨rfl, rfl, rfl⟩ := by simpa only [Prod.mk.injEq] using hrun
      exact ⟨hcommits, fun herr => by cases herr⟩
    | again data =>
      rcases hone : deferCreateIntent env (queued.foldl (deferQueue env) { st with sys := sys })
        { dfp with work := ⟨li.id, data⟩ :: ws, done := none, intent := none } false
        with ⟨st₁, dfp₁, res₁⟩
      obtain ⟨hdfops₁, hcommits₁, h₁, hlogged₁⟩ :=
        deferCreateIntent_spec hc (hback.putBack data) hone
      dsimp only at hrun
      rw [hone] at hrun
      cases res₁ with
      | error e =>
        obtain ⟨rfl, rfl, rfl⟩ := by simpa only [Prod.mk.injEq] using hrun
        exact ⟨hcommits₁.trans hcommits, fun herr => by cases herr⟩
      | ok has =>
        obtain ⟨rfl, rfl, rfl⟩ := by simpa only [Prod.mk.injEq] using hrun
        refine ⟨hcommits₁.trans hcommits, fun _ => ⟨?_, ?_⟩⟩
        · intro d hd
          obtain rfl : d = dfp₁ := by simpa using hd
          exact hlogged₁ has rfl
        · rw [hdfops₁]
          exact h₁

theorem deferFinishOne_spec {res : FinishOne} (hc : DeferContract env logs)
    (h : DeferInv logs st.ledger (dfp :: (st.dfops ++ others)))
    (hrun : deferFinishOne env st dfp = (st', left, res)) :
    st'.commits = st.commits ∧ (res.errno = none → Logged logs left.toList ∧
      DeferInv logs st'.ledger (left.toList ++ (st'.dfops ++ others))) := by
  rcases hdone : deferCreateDone env st dfp with ⟨st₁, dfp₁⟩
  obtain ⟨hdfops₁, hcommits₁, hdfp₁, h₁⟩ := deferCreateDone_spec hc h hdone
  rcases hloop : finishOneLoop env st₁ dfp₁ dfp₁.work with ⟨st₂, left₂, res₂⟩
  unfold deferFinishOne at hrun
  rw [hdone] at hrun
  dsimp only at hrun
  rw [hloop] at hrun
  obtain ⟨rfl, rfl, rfl⟩ := by simpa only [Prod.mk.injEq] using hrun
  have hstart : DeferInv logs st₁.ledger
      ({ dfp₁ with work := dfp₁.work, intent := none } :: (st₁.dfops ++ others)) := by
    rw [hdfops₁, hdfp₁]
    exact h₁.same rfl rfl rfl
  obtain ⟨hcommits₂, hdone₂⟩ := finishOneLoop_spec hc hstart hloop
  exact ⟨hcommits₂.trans hcommits₁, hdone₂⟩

end

end Xfs
