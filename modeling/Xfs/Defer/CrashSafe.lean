import Xfs.Defer.Steps
import Mathlib.Data.List.Flatten
import Mathlib.Data.List.Nodup
import Mathlib.Algebra.Order.Group.Multiset
import Mathlib.Tactic.Abel

/-! A crash right after a commit: the log has one intent for every batch that is
not finished, and a recovery replays the items that were not finished, each once. -/
namespace Xfs

open List

variable {S T W : Type} {env : DeferEnv S T W} {logs : T → Bool} {l l' : DeferLoop S T W}
  {all ds : List (DeferPending T W)} {g : DeferLedger T W} {err : Option Errno}

def DeferCommit.live (logs : T → Bool) (c : DeferCommit T W) : List (DeferPending T W) :=
  (c.pending ++ c.paused).filter fun d => logs d.ops

/-- Batches with an intent for their work. -/
def Made (ds : List (DeferPending T W)) : Prop :=
  ∀ d ∈ ds, ∃ i, d.intent = some i ∧ i.payload = (d.ops, d.work)

structure CrashSafe (logs : T → Bool) (c : DeferCommit T W) : Prop where
  intents : (outstanding c.log).Perm ((c.live logs).filterMap (·.intent))
  made : Made (c.live logs)
  once : (replayed c.log).Nodup
  unfinished : ∀ a, a ∈ replayed c.log ↔ a ∈ c.added ∧ logs a.1 = true ∧ a ∉ c.finished

structure FinishInv (logs : T → Bool) (l : DeferLoop S T W) : Prop where
  ledger : DeferInv logs l.st.ledger (l.st.dfops ++ (l.pending ++ l.paused))
  logged : Logged logs (l.pending ++ l.paused)
  commits : ∀ c ∈ l.st.commits, CrashSafe logs c

theorem DeferInv.intents_live (h : DeferInv logs g all) :
    all.filterMap (·.intent) = (all.filter fun d => logs d.ops).filterMap (·.intent) := by
  rw [filterMap_filter]
  refine filterMap_congr fun d hd => ?_
  cases hi : d.intent with
  | none => simp
  | some i => simp [(h.promised d hd i hi).2]

theorem DeferInv.made_live (h : DeferInv logs g all) (hlogged : Logged logs all) :
    Made (all.filter fun d => logs d.ops) := by
  intro d hd
  obtain ⟨hmem, hl⟩ := mem_filter.mp hd
  obtain ⟨i, hi⟩ := Option.isSome_iff_exists.mp (hlogged d hmem hl)
  exact ⟨i, hi, (h.promised d hmem i hi).1⟩

theorem Made.items_eq (h : Made ds) :
    ((ds.filterMap (·.intent)).flatMap fun i => i.payload.2.map fun w => (i.payload.1, w.id)) =
      ds.flatMap (·.items) := by
  induction ds with
  | nil => rfl
  | cons d ds ih =>
    obtain ⟨⟨i, hi, hpay⟩, hds⟩ := forall_mem_cons.mp h
    rw [filterMap_cons_some hi, flatMap_cons, flatMap_cons, ih hds, hpay]
    rfl

theorem DeferInv.replayed_perm (h : DeferInv logs g all) (hlogged : Logged logs all) :
    (replayed g.log).Perm ((all.filter fun d => logs d.ops).flatMap (·.items)) := by
  rw [← (h.made_live hlogged).items_eq, ← h.intents_live]
  exact h.out.flatMap_right _

theorem DeferInv.crashSafe {c : DeferCommit T W} {nextIntent nextWork : Nat}
    (h : DeferInv logs ⟨c.log, nextIntent, nextWork, c.added, c.finished⟩ (c.pending ++ c.paused))
    (hlogged : Logged logs (c.pending ++ c.paused)) : CrashSafe logs c := by
  have hreplay := h.replayed_perm hlogged
  have hall : ∀ a, a ∈ replayed c.log ↔
      a ∈ (c.pending ++ c.paused).flatMap (·.items) ∧ logs a.1 := by
    intro a
    rw [hreplay.mem_iff]
    simp only [mem_flatMap, mem_filter, DeferPending.items, mem_map]
    constructor
    · rintro ⟨d, ⟨hd, hl⟩, w, hw, rfl⟩
      exact ⟨⟨d, hd, w, hw, rfl⟩, hl⟩
    · rintro ⟨⟨d, hd, w, hw, rfl⟩, hl⟩
      exact ⟨d, ⟨hd, hl⟩, w, hw, rfl⟩
  have hnodup : ((c.pending ++ c.paused).flatMap (·.items) ++ c.finished).Nodup :=
    h.account.nodup_iff.mpr (List.Nodup.of_map _ h.addedNodup)
  obtain ⟨hitems, -, hdisj⟩ := nodup_append.mp hnodup
  refine ⟨h.intents_live ▸ h.out, h.made_live hlogged, ?_, fun a => ?_⟩
  · exact hreplay.nodup_iff.mpr (hitems.sublist (filter_sublist.flatMap _))
  · rw [hall]
    have hadded : a ∈ c.added ↔ a ∈ (c.pending ++ c.paused).flatMap (·.items) ∨ a ∈ c.finished := by
      rw [← h.account.mem_iff, mem_append]
    rw [hadded]
    constructor
    · rintro ⟨hmem, hl⟩
      exact ⟨.inl hmem, hl, fun hfin => hdisj a hmem a hfin rfl⟩
    · rintro ⟨hmem | hfin, hl, hnot⟩
      · exact ⟨hmem, hl⟩
      · exact absurd hfin hnot

theorem deferTransRoll_spec (h : FinishInv logs l) (hdfops : l.st.dfops = [])
    (hrun : deferTransRoll env l = (l', err)) :
    l'.st.dfops = [] ∧ FinishInv logs l' := by
  have hledger := h.ledger
  rw [hdfops, nil_append] at hledger
  have hsafe : CrashSafe logs ⟨l.st.log, l.pending, l.paused, l.st.added, l.st.finished⟩ :=
    hledger.crashSafe h.logged
  have hcommits : ∀ c ∈ l.st.commits ++
      [⟨l.st.log, l.pending, l.paused, l.st.added, l.st.finished⟩], CrashSafe logs c := by
    intro c hc
    rcases mem_append.mp hc with hc | hc
    · exact h.commits c hc
    · rwa [mem_singleton.mp hc]
  unfold deferTransRoll at hrun
  split at hrun
  · obtain ⟨rfl, rfl⟩ := Prod.mk.inj hrun
    exact ⟨hdfops, h.ledger, h.logged, hcommits⟩
  · obtain ⟨rfl, rfl⟩ := Prod.mk.inj hrun
    exact ⟨hdfops, h.ledger, h.logged, hcommits⟩
  · obtain ⟨rfl, rfl⟩ := Prod.mk.inj hrun
    exact ⟨hdfops, h.ledger, h.logged, h.commits⟩

section

variable (hc : DeferContract env logs) (h : FinishInv logs l)
include hc h

theorem deferRelogAll_spec (hdfops : l.st.dfops = []) :
    (deferRelogAll env l).st.dfops = [] ∧ FinishInv logs (deferRelogAll env l) := by
  obtain ⟨hpending, hpaused⟩ := logged_append.mp h.logged
  have hledger := h.ledger
  rw [hdfops, nil_append] at hledger
  unfold deferRelogAll
  rcases hone : deferRelog env l.st l.pending with ⟨st₁, pending⟩
  obtain ⟨hdfops₁, hcommits₁, hlogged₁, h₁⟩ := deferRelogLoop_spec hc hledger hpending hone
  rcases htwo : deferRelog env st₁ l.paused with ⟨st₂, paused⟩
  obtain ⟨hdfops₂, hcommits₂, hlogged₂, h₂⟩ :=
    deferRelogLoop_spec hc (h₁.perm perm_append_comm) hpaused htwo
  simp only [htwo]
  have hnil : st₂.dfops = [] := hdfops₂.trans (hdfops₁.trans hdfops)
  refine ⟨hnil, ?_, logged_append.mpr ⟨hlogged₁, hlogged₂⟩, ?_⟩
  · rw [hnil]
    exact h₂.perm perm_append_comm
  · rw [hcommits₂, hcommits₁]
    exact h.commits

theorem deferRollRelog_spec (hdfops : l.st.dfops = []) (hrun : deferRollRelog env l = (l', err)) :
    FinishInv logs l' := by
  rcases hone : deferTransRoll env l with ⟨l₁, err₁⟩
  obtain ⟨hdfops₁, h₁⟩ := deferTransRoll_spec h hdfops hone
  unfold deferRollRelog at hrun
  rw [hone] at hrun
  cases err₁ with
  | some e =>
    obtain ⟨rfl, rfl⟩ := Prod.mk.inj hrun
    exact h₁
  | none =>
    obtain ⟨hdfops₂, h₂⟩ := deferRelogAll_spec hc h₁ hdfops₁
    dsimp only at hrun
    split at hrun
    · exact (deferTransRoll_spec h₂ hdfops₂ hrun).2
    · obtain ⟨rfl, rfl⟩ := Prod.mk.inj hrun
      exact h₂

theorem deferCreateIntents_spec {st' : DeferState S T W} {res : Except Errno Bool}
    (hrun : deferCreateIntents env l.st = (st', res)) :
    (∀ c ∈ st'.commits, CrashSafe logs c) ∧
      ∀ has, res = .ok has → FinishInv logs (deferCollect { l with st := st' }) := by
  rcases hloop : createIntentsLoop env l.st l.st.dfops with ⟨st₁, dfops, res₁⟩
  obtain ⟨hcommits, hledger, hlogged⟩ := createIntentsLoop_spec hc h.ledger hloop
  unfold deferCreateIntents at hrun
  rw [hloop] at hrun
  obtain ⟨rfl, rfl⟩ := Prod.mk.inj hrun
  have hsafe : ∀ c ∈ st₁.commits, CrashSafe logs c := by
    rw [hcommits]
    exact h.commits
  refine ⟨hsafe, fun has hok => ⟨?_, ?_, hsafe⟩⟩
  · refine DeferInv.perm hledger ?_
    simp only [deferCollect, nil_append]
    have hsplit := (filter_append_perm (fun d : DeferPending T W => d.paused) dfops).symm
    refine (hsplit.append_right _).trans ?_
    simp only [← Multiset.coe_eq_coe, ← Multiset.coe_add]
    abel
  · obtain ⟨hpending, hpaused⟩ := logged_append.mp h.logged
    have hfilter : ∀ p : DeferPending T W → Bool, Logged logs (dfops.filter p) :=
      fun p d hd => hlogged has hok d (mem_filter.mp hd).1
    exact logged_append.mpr ⟨logged_append.mpr ⟨hfilter _, hpending⟩,
      logged_append.mpr ⟨hpaused, hfilter _⟩⟩

end

/-- What a turn of the loop may leave behind. -/
def DeferTurn.Sound (logs : T → Bool) : DeferTurn S T W → Prop
  | .next l => FinishInv logs l
  | .stop l => ∀ c ∈ l.st.commits, CrashSafe logs c
  | .shutdown l _ => ∀ c ∈ l.st.commits, CrashSafe logs c

theorem deferPendingAbort_commits {st : DeferState S T W} :
    (ds.foldl deferPendingAbort st).commits = st.commits := by
  induction ds generalizing st with
  | nil => rfl
  | cons d ds ih =>
    rw [foldl_cons, ih]
    unfold deferPendingAbort
    split <;> rfl

section
variable [DecidableEq T]

theorem deferFinishFirst_sound (hc : DeferContract env logs) (h : FinishInv logs l) :
    (deferFinishFirst env l).Sound logs := by
  unfold deferFinishFirst
  cases hpending : l.pending with
  | nil => exact h.commits
  | cons dfp rest =>
    have hlogged := h.logged
    have hledger := h.ledger
    rw [hpending, cons_append] at hlogged hledger
    rcases hone : deferFinishOne env l.st dfp with ⟨st₁, left, res⟩
    obtain ⟨hcommits, hdone⟩ := deferFinishOne_spec hc (hledger.perm perm_middle) hone
    dsimp only
    rw [hone]
    have hsafe : ∀ c ∈ st₁.commits, CrashSafe logs c := by
      rw [hcommits]
      exact h.commits
    have hnext : res.errno = none → FinishInv logs
        { l with st := st₁, pending := left.toList ++ rest, ranOne := true } := by
      intro hres
      obtain ⟨hleft, hledger'⟩ := hdone hres
      obtain ⟨-, hrest⟩ := forall_mem_cons.mp hlogged
      refine ⟨hledger'.perm ?_, ?_, hsafe⟩
      · simp only [← Multiset.coe_eq_coe, ← Multiset.coe_add]
        abel
      · rw [append_assoc]
        exact logged_append.mpr ⟨hleft, hrest⟩
    cases res with
    | ok => exact hnext rfl
    | again => exact hnext rfl
    | error e => exact hsafe

theorem deferTurn_sound (hc : DeferContract env logs) (h : FinishInv logs l) :
    (deferTurn env l).Sound logs := by
  rcases hintents : deferCreateIntents env l.st with ⟨st₁, res₁⟩
  obtain ⟨hsafe, hcollect⟩ := deferCreateIntents_spec hc h hintents
  unfold deferTurn
  rw [hintents]
  cases res₁ with
  | error e => exact hsafe
  | ok has =>
    have h₁ := hcollect has rfl
    dsimp only
    split
    · rename_i l₂ e heq
      split at heq
      · exact (deferRollRelog_spec hc h₁ rfl heq).commits
      · cases heq
    · rename_i l₂ heq
      split at heq
      · exact deferFinishFirst_sound hc (deferRollRelog_spec hc h₁ rfl heq)
      · obtain ⟨rfl, -⟩ := Prod.mk.inj heq
        exact deferFinishFirst_sound hc h₁

theorem deferFinishLoop_safe (hc : DeferContract env logs) (fuel : Nat) (h : FinishInv logs l) :
    ∀ c ∈ (deferFinishLoop env fuel l).1.commits, CrashSafe logs c := by
  induction fuel generalizing l with
  | zero => exact h.commits
  | succ fuel ih =>
    have hturn := deferTurn_sound hc h
    unfold deferFinishLoop
    split
    · exact h.commits
    cases hres : deferTurn env l with
    | next l' => exact ih (by rwa [hres] at hturn)
    | stop l' => rwa [hres] at hturn
    | shutdown l' e =>
      rw [hres] at hturn
      simp only [deferShutdown, deferPendingAbort_commits]
      exact hturn

/-- The batches with an intent have it in the log, for the work they have. -/
structure DeferStart (logs : T → Bool) (st : DeferState S T W) : Prop where
  ledger : DeferInv logs st.ledger st.dfops
  commits : st.commits = []

/-- A crash right after any commit of a run loses no work and repeats none. -/
theorem deferFinish_crash_safe (hc : DeferContract env logs) {st : DeferState S T W}
    (hstart : DeferStart logs st) (fuel : Nat) :
    ∀ c ∈ (deferFinishNoroll env fuel st).1.commits, CrashSafe logs c := by
  refine deferFinishLoop_safe hc fuel ⟨?_, ?_, ?_⟩
  · simpa using hstart.ledger
  · simp [Logged]
  · simp [hstart.commits]

/-! One type logs intents and finishes an item in two goes, queueing a barrier and
an item of a type that logs none. One batch is paused, one is still to be logged. -/

inductive SampleType where
  | logged
  | plain
  | barrier
deriving Repr, DecidableEq

def SampleType.logsIntents : SampleType → Bool
  | .logged => true
  | _ => false

def sampleOpType : SampleType → DeferOpType Unit SampleType Nat
  | .logged => {
      maxItems := 0
      createIntent := fun s work _ => (.intent, work, s)
      createDone := fun s _ _ => (true, s)
      finishItem := fun s n =>
        if n = 0 then (.ok, [], s) else (.again (n - 1), [.barrier, .add .plain 0], s)
      finishCleanup := fun s _ => s
      relogIntent := fun s _ => (true, s) }
  | .plain => {
      maxItems := 0
      createIntent := fun s work _ => (.null, work, s)
      createDone := fun s _ _ => (false, s)
      finishItem := fun s _ => (.ok, [], s)
      finishCleanup := fun s _ => s
      relogIntent := fun s _ => (false, s) }
  | .barrier => {
      maxItems := 1
      createIntent := fun s work _ => (.null, work, s)
      createDone := fun s _ _ => (false, s)
      finishItem := fun s _ => (.error .efscorrupted, [], s)
      finishCleanup := fun s _ => s
      relogIntent := fun s _ => (false, s) }

/-- Every intent is relogged at every chance. -/
def sampleDeferEnv : DeferEnv Unit SampleType Nat where
  opType := sampleOpType
  barrier := .barrier
  transRoll := fun s => (.ok false, s)
  inCurrentChkpt := fun _ _ => false
  pushTarget := fun _ => some 1
  lsn := fun _ _ => 0

theorem sampleDeferEnv_contract : DeferContract sampleDeferEnv SampleType.logsIntents where
  createIntent := by
    intro t s work sort
    cases t <;> simp [sampleDeferEnv, sampleOpType, SampleType.logsIntents]
  createIntent_work := by
    intro t s work sort
    cases t <;> exact List.Perm.refl _
  createDone := by
    intro t s intent count ht
    cases t with
    | logged => rfl
    | plain => cases ht
    | barrier => cases ht
  relogIntent := by
    intro t s intent ht
    cases t with
    | logged => rfl
    | plain => cases ht
    | barrier => cases ht

def sampleDeferState : DeferState Unit SampleType Nat where
  sys := ()
  dfops := [⟨.logged, [⟨0, 2⟩], some ⟨0, .logged, [⟨0, 2⟩]⟩, none, true⟩,
    ⟨.logged, [⟨1, 1⟩], none, none, false⟩]
  dirty := true
  log := [.intent ⟨0, .logged, [⟨0, 2⟩]⟩]
  nextIntent := 1
  nextWork := 2
  added := [(.logged, 0), (.logged, 1)]
  finished := []
  commits := []
  aborted := []

theorem sampleDeferState_start : DeferStart SampleType.logsIntents sampleDeferState where
  ledger := by
    refine ⟨?_, ?_, ?_, ?_, ?_, ?_, ?_⟩
    · exact List.Perm.refl _
    · decide
    · simp [LogBelow, DeferState.ledger, sampleDeferState, LogItem.number]
    · simp [sampleDeferState, SampleType.logsIntents]
    · exact List.Perm.refl _
    · decide
    · decide
  commits := rfl

/-- The run ends after four turns of two commits each. -/
theorem deferFinish_crash_safe_sample :
    (deferFinishNoroll sampleDeferEnv 5 sampleDeferState).2 = .finished ∧
      (deferFinishNoroll sampleDeferEnv 5 sampleDeferState).1.commits.length = 8 ∧
      ∀ c ∈ (deferFinishNoroll sampleDeferEnv 5 sampleDeferState).1.commits,
        CrashSafe SampleType.logsIntents c :=
  ⟨by decide, by decide, deferFinish_crash_safe sampleDeferEnv_contract sampleDeferState_start 5⟩

end

end Xfs
