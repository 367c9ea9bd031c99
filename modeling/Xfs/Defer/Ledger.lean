import Xfs.Defer.Basic

/-! What the log and the history say about the batches that are alive. -/
namespace Xfs

open List

variable {S T W : Type} {logs : T → Bool} {dfp : DeferPending T W}
  {rest all all' : List (DeferPending T W)}

structure DeferLedger (T W : Type) where
  log : List (LogItem (IntentWork T W))
  nextIntent : Nat
  nextWork : Nat
  added : List (T × Nat)
  finished : List (T × Nat)

def DeferState.ledger (st : DeferState S T W) : DeferLedger T W :=
  ⟨st.log, st.nextIntent, st.nextWork, st.added, st.finished⟩

variable {g : DeferLedger T W}

def DeferPending.items (dfp : DeferPending T W) : List (T × Nat) :=
  dfp.work.map fun w => (dfp.ops, w.id)

/-- What a recovery would do with a log. -/
def replayed (log : List (LogItem (IntentWork T W))) : List (T × Nat) :=
  (outstanding log).flatMap fun i => i.payload.2.map fun w => (i.payload.1, w.id)

structure DeferInv (logs : T → Bool) (g : DeferLedger T W) (all : List (DeferPending T W)) :
    Prop where
  out : (outstanding g.log).Perm (all.filterMap (·.intent))
  ids : ((all.filterMap (·.intent)).map (·.id)).Nodup
  below : LogBelow g.log g.nextIntent
  promised : ∀ d ∈ all, ∀ i, d.intent = some i →
    i.payload = (d.ops, d.work) ∧ logs d.ops = true
  account : (all.flatMap (·.items) ++ g.finished).Perm g.added
  addedNodup : (g.added.map Prod.snd).Nodup
  addedLt : ∀ a ∈ g.added, a.2 < g.nextWork

namespace DeferInv

theorem perm (h : DeferInv logs g all) (hp : all.Perm all') : DeferInv logs g all' where
  out := h.out.trans (hp.filterMap _)
  ids := (((hp.filterMap _).map _).nodup_iff).mp h.ids
  below := h.below
  promised := fun d hd => h.promised d (hp.mem_iff.mpr hd)
  account := ((hp.flatMap_right _).symm.append_right _).trans h.account
  addedNodup := h.addedNodup
  addedLt := h.addedLt

section

variable (h : DeferInv logs g (dfp :: rest))
include h

theorem same {dfp' : DeferPending T W} (hops : dfp'.ops = dfp.ops) (hwork : dfp'.work = dfp.work)
    (hintent : dfp'.intent = dfp.intent) :
    DeferInv logs g (dfp' :: rest) := by
  have hitems : dfp'.items = dfp.items := by rw [DeferPending.items, hops, hwork]; rfl
  have hintents : (dfp' :: rest).filterMap (·.intent) = (dfp :: rest).filterMap (·.intent) := by
    simp only [filterMap_cons, hintent]
  refine ⟨hintents ▸ h.out, hintents ▸ h.ids, h.below, ?_, ?_, h.addedNodup, h.addedLt⟩
  · intro d hd i hi
    rcases mem_cons.mp hd with rfl | hd
    · rw [hops, hwork]
      exact h.promised dfp mem_cons_self i (hintent ▸ hi)
    · exact h.promised d (mem_cons_of_mem _ hd) i hi
  · have haccount := h.account
    rw [flatMap_cons] at haccount ⊢
    rwa [hitems]

theorem retire {i : Intent (IntentWork T W)} (hi : dfp.intent = some i) :
    DeferInv logs { g with log := g.log ++ [.done i.id] } ({ dfp with intent := none } :: rest) := by
  have hout := h.out
  have hids := h.ids
  rw [filterMap_cons_some hi] at hout hids
  rw [map_cons, nodup_cons] at hids
  have hlt : i.id < g.nextIntent := h.below.outstanding_lt (hout.mem_iff.mpr mem_cons_self)
  refine ⟨?_, ?_, h.below.concat hlt, ?_, h.account, h.addedNodup, h.addedLt⟩
  · rw [outstanding_done, filterMap_cons_none rfl]
    -- no other batch has an intent of this number
    have hkeep : (rest.filterMap (·.intent)).filter (fun j => j.id != i.id) =
        rest.filterMap (·.intent) :=
      filter_eq_self.mpr fun j hj =>
        bne_iff_ne.mpr fun heq => hids.1 (mem_map.mpr ⟨j, hj, heq⟩)
    have := hout.filter fun j => j.id != i.id
    rwa [filter_cons_of_neg (by simp), hkeep] at this
  · rw [filterMap_cons_none rfl]
    exact hids.2
  · intro d hd j hj
    rcases mem_cons.mp hd with rfl | hd
    · cases hj
    · exact h.promised d (mem_cons_of_mem _ hd) j hj

theorem promise (hi : dfp.intent = none) (hlogs : logs dfp.ops) : DeferInv logs { g with
        log := g.log ++ [.intent ⟨g.nextIntent, dfp.ops, dfp.work⟩]
        nextIntent := g.nextIntent + 1 }
      ({ dfp with intent := some ⟨g.nextIntent, dfp.ops, dfp.work⟩ } :: rest) := by
  have hout := h.out
  have hids := h.ids
  rw [filterMap_cons_none hi] at hout hids
  refine ⟨?_, ?_, ?_, ?_, h.account, h.addedNodup, h.addedLt⟩
  · rw [outstanding_intent (h.below.hasDone_eq_false le_rfl)]
    exact (perm_append_singleton _ _).trans (hout.cons _)
  · refine nodup_cons.mpr ⟨fun hmem => ?_, hids⟩
    obtain ⟨j, hj, hid⟩ := mem_map.mp hmem
    have hlt := h.below.outstanding_lt (hout.mem_iff.mpr hj)
    simp only at hid
    omega
  · exact (h.below.mono (Nat.le_succ _)).concat (Nat.lt_succ_self _)
  · intro d hd j hj
    rcases mem_cons.mp hd with rfl | hd
    · obtain rfl := Option.some.inj hj
      exact ⟨rfl, hlogs⟩
    · exact h.promised d (mem_cons_of_mem _ hd) j hj

theorem replace (hi : dfp.intent = none) {ds : List (DeferPending T W)}
    (hds : ∀ d ∈ ds, d.intent = none) {g' : DeferLedger T W} (hlog : g'.log = g.log)
    (hnext : g'.nextIntent = g.nextIntent)
    (haccount : (ds.flatMap (·.items) ++ rest.flatMap (·.items) ++ g'.finished).Perm g'.added)
    (hnodup : (g'.added.map Prod.snd).Nodup) (hlt : ∀ a ∈ g'.added, a.2 < g'.nextWork) :
    DeferInv logs g' (ds ++ rest) := by
  have hnone : ds.filterMap (·.intent) = [] := filterMap_eq_nil_iff.mpr hds
  have hout := h.out
  have hids := h.ids
  rw [filterMap_cons_none hi] at hout hids
  refine ⟨?_, ?_, ?_, ?_, ?_, hnodup, hlt⟩
  · rw [hlog, filterMap_append, hnone]
    exact hout
  · rw [filterMap_append, hnone]
    exact hids
  · rw [hlog, hnext]
    exact h.below
  · intro d hd j hj
    rcases mem_append.mp hd with hd | hd
    · rw [hds d hd] at hj
      cases hj
    · exact h.promised d (mem_cons_of_mem _ hd) j hj
  · rwa [flatMap_append]

end

end DeferInv

end Xfs
