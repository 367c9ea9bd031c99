import Xfs.Basic
import Xfs.Lib.IntentLog

/-! Deferred work: `xfs_defer.c`. Work items are queued on a transaction by type, an intent is
logged for every batch, and the batches are finished one by one in a chain of transactions. `S` is
the state of the op types and the log, `T` the type of the op types, `W` that of a work item's
content. -/
namespace Xfs

/-- A work item. The number is its identity, the content changes while it is
worked on. -/
structure WorkItem (W : Type) where
  id : Nat
  data : W
deriving Repr, DecidableEq

abbrev IntentWork (T W : Type) := T × List (WorkItem W)

/-- A batch of work items of one type. Their number is the length of `work`. -/
structure DeferPending (T W : Type) where
  ops : T
  work : List (WorkItem W)
  intent : Option (Intent (IntentWork T W))
  done : Option Nat
  paused : Bool
deriving Repr, DecidableEq

def DeferPending.count {T W : Type} (dfp : DeferPending T W) : Nat := dfp.work.length

inductive IntentResult where
  | null
  | intent
  | error (e : Errno)
deriving Repr, DecidableEq

/-- What `finish_item` returns. With `again` it leaves the work that remains in
the item. -/
inductive FinishResult (W : Type) where
  | ok
  | again (data : W)
  | error (e : Errno)
deriving Repr, DecidableEq

inductive DeferQueue (T W : Type) where
  | add (ops : T) (data : W)
  | barrier
deriving Repr, DecidableEq

structure DeferOpType (S T W : Type) where
  maxItems : Nat
  createIntent : S → List (WorkItem W) → Bool → IntentResult × List (WorkItem W) × S
  createDone : S → Intent (IntentWork T W) → Nat → Bool × S
  finishItem : S → W → FinishResult W × List (DeferQueue T W) × S
  finishCleanup : S → Option Errno → S
  relogIntent : S → Intent (IntentWork T W) → Bool × S

/-- A roll can fail before or after the old transaction is committed. -/
inductive RollResult where
  | ok (dirty : Bool)
  | failed (committed : Bool) (e : Errno)
deriving Repr, DecidableEq

/-- The op types and the log underneath. -/
structure DeferEnv (S T W : Type) where
  opType : T → DeferOpType S T W
  barrier : T
  transRoll : S → RollResult × S
  inCurrentChkpt : S → Intent (IntentWork T W) → Bool
  pushTarget : S → Option Nat
  lsn : S → Intent (IntentWork T W) → Nat

structure DeferCommit (T W : Type) where
  log : List (LogItem (IntentWork T W))
  pending : List (DeferPending T W)
  paused : List (DeferPending T W)
  added : List (T × Nat)
  finished : List (T × Nat)
deriving Repr, DecidableEq

structure DeferState (S T W : Type) where
  sys : S
  dfops : List (DeferPending T W)
  dirty : Bool
  log : List (LogItem (IntentWork T W))
  nextIntent : Nat
  nextWork : Nat
  added : List (T × Nat)
  finished : List (T × Nat)
  commits : List (DeferCommit T W)
  aborted : List Nat

section
variable {S T W : Type} [DecidableEq T] (env : DeferEnv S T W)

def deferFindLast (st : DeferState S T W) (ops : T) : Option (DeferPending T W) :=
  st.dfops.getLast?.filter fun dfp => decide (dfp.ops = ops)

def deferCanAppend (dfp : DeferPending T W) (ops : T) : Bool :=
  if dfp.intent.isSome then false
  else if dfp.paused then false
  else if (env.opType ops).maxItems ≠ 0 ∧ (env.opType ops).maxItems ≤ dfp.count then false
  else true

def deferAlloc (ops : T) : DeferPending T W := ⟨ops, [], none, none, false⟩

def deferAdd (st : DeferState S T W) (ops : T) (data : W) : DeferState S T W :=
  let w : WorkItem W := ⟨st.nextWork, data⟩
  let st := { st with nextWork := st.nextWork + 1 }
  match deferFindLast st ops with
  | some dfp =>
    if deferCanAppend env dfp ops then
      { st with dfops := st.dfops.dropLast ++ [{ dfp with work := dfp.work ++ [w] }] }
    else { st with dfops := st.dfops ++ [{ deferAlloc ops with work := [w] }] }
  | none => { st with dfops := st.dfops ++ [{ deferAlloc ops with work := [w] }] }

def deferAddBarrier (st : DeferState S T W) : DeferState S T W :=
  match deferFindLast st env.barrier with
  | some _ => st
  | none => { st with dfops := st.dfops ++ [deferAlloc env.barrier] }

/-- What `finish_item` queues, with a note of the item in the history. -/
def deferQueue (st : DeferState S T W) : DeferQueue T W → DeferState S T W
  | .add ops data => { deferAdd env st ops data with added := st.added ++ [(ops, st.nextWork)] }
  | .barrier => deferAddBarrier env st

def deferCreateDone (st : DeferState S T W) (dfp : DeferPending T W) :
    DeferState S T W × DeferPending T W :=
  match dfp.intent with
  | none => (st, dfp)
  | some intent =>
    let (made, sys) := (env.opType dfp.ops).createDone st.sys intent dfp.count
    let st := { st with sys := sys, dirty := true }
    if made then
      ({ st with log := st.log ++ [.done intent.id] }, { dfp with done := some intent.id })
    else (st, dfp)

def deferCreateIntent (st : DeferState S T W) (dfp : DeferPending T W) (sort : Bool) :
    DeferState S T W × DeferPending T W × Except Errno Bool :=
  match dfp.intent with
  | some _ => (st, dfp, .ok true)
  | none =>
    let (lip, work, sys) := (env.opType dfp.ops).createIntent st.sys dfp.work sort
    let st := { st with sys := sys }
    let dfp := { dfp with work := work }
    match lip with
    | .null => (st, dfp, .ok false)
    | .error e => (st, dfp, .error e)
    | .intent =>
      let intent : Intent (IntentWork T W) := ⟨st.nextIntent, dfp.ops, work⟩
      ({ st with
          dirty := true
          log := st.log ++ [.intent intent]
          nextIntent := st.nextIntent + 1 },
        { dfp with intent := some intent }, .ok true)

def createIntentsLoop (st : DeferState S T W) :
    List (DeferPending T W) → DeferState S T W × List (DeferPending T W) × Except Errno Bool
  | [] => (st, [], .ok false)
  | dfp :: rest =>
    match deferCreateIntent env st dfp true with
    | (st, dfp, .error e) => (st, dfp :: rest, .error e)
    | (st, dfp, .ok has) =>
      match createIntentsLoop st rest with
      | (st, rest, .error e) => (st, dfp :: rest, .error e)
      | (st, rest, .ok has') => (st, dfp :: rest, .ok (has || has'))

def deferCreateIntents (st : DeferState S T W) : DeferState S T W × Except Errno Bool :=
  let (st, dfops, res) := createIntentsLoop env st st.dfops
  ({ st with dfops := dfops }, res)

/-- The replacement promises what the intent in its place did. -/
def deferRelogIntent (st : DeferState S T W) (dfp : DeferPending T W) :
    DeferState S T W × DeferPending T W :=
  match dfp.intent with
  | none => (st, dfp)
  | some intent =>
    let (st, dfp) := deferCreateDone env st dfp
    let (made, sys) := (env.opType dfp.ops).relogIntent st.sys intent
    let st := { st with sys := sys }
    if made then
      let new : Intent (IntentWork T W) := ⟨st.nextIntent, intent.payload⟩
      ({ st with log := st.log ++ [.intent new], nextIntent := st.nextIntent + 1 },
        { dfp with done := none, intent := some new })
    else (st, { dfp with done := none, intent := none })

/-- The threshold is sampled once. Without one the rest of the list stays as it is. -/
def deferRelogLoop (threshold : Option Nat) (st : DeferState S T W) :
    List (DeferPending T W) → DeferState S T W × List (DeferPending T W)
  | [] => (st, [])
  | dfp :: rest =>
    match dfp.intent with
    | none =>
      let (st, rest) := deferRelogLoop threshold st rest
      (st, dfp :: rest)
    | some intent =>
      if env.inCurrentChkpt st.sys intent then
        let (st, rest) := deferRelogLoop threshold st rest
        (st, dfp :: rest)
      else
        match threshold <|> env.pushTarget st.sys with
        | none => (st, dfp :: rest)
        | some target =>
          let (st, dfp) :=
            if target ≤ env.lsn st.sys intent then (st, dfp)
            else deferRelogIntent env st dfp
          let (st, rest) := deferRelogLoop (some target) st rest
          (st, dfp :: rest)

def deferRelog (st : DeferState S T W) (dfops : List (DeferPending T W)) :
    DeferState S T W × List (DeferPending T W) :=
  deferRelogLoop env none st dfops

/-- How `xfs_defer_finish_one` returns. -/
inductive FinishOne where
  | ok
  | again
  | error (e : Errno)
deriving Repr, DecidableEq

/-- The loop over the work items. The batch is gone when there are none left. -/
def finishOneLoop (st : DeferState S T W) (dfp : DeferPending T W) :
    List (WorkItem W) → DeferState S T W × Option (DeferPending T W) × FinishOne
  | [] => (st, none, .ok)
  | li :: rest =>
    let (res, queued, sys) := (env.opType dfp.ops).finishItem st.sys li.data
    let st := queued.foldl (deferQueue env) { st with sys := sys }
    match res with
    | .ok => finishOneLoop { st with finished := st.finished ++ [(dfp.ops, li.id)] } dfp rest
    | .error e => (st, some { dfp with work := rest }, .error e)
    | .again data =>
      let dfp := { dfp with
        work := ⟨li.id, data⟩ :: rest
        done := none
        intent := none }
      match deferCreateIntent env st dfp false with
      | (st, dfp, .error e) => (st, some dfp, .error e)
      | (st, dfp, .ok _) => (st, some dfp, .again)

def FinishOne.errno : FinishOne → Option Errno
  | .error e => some e
  | _ => none

def deferFinishOne (st : DeferState S T W) (dfp : DeferPending T W) :
    DeferState S T W × Option (DeferPending T W) × FinishOne :=
  let (st, dfp) := deferCreateDone env st dfp
  let (st, left, res) := finishOneLoop env st dfp dfp.work
  ({ st with sys := (env.opType dfp.ops).finishCleanup st.sys res.errno }, left, res)

structure DeferLoop (S T W : Type) where
  st : DeferState S T W
  pending : List (DeferPending T W)
  paused : List (DeferPending T W)
  ranOne : Bool

def deferTransRoll (l : DeferLoop S T W) : DeferLoop S T W × Option Errno :=
  let commit : DeferCommit T W := ⟨l.st.log, l.pending, l.paused, l.st.added, l.st.finished⟩
  match env.transRoll l.st.sys with
  | (.ok dirty, sys) =>
    ({ l with st := { l.st with
        sys := sys
        dirty := dirty
        commits := l.st.commits ++ [commit] } }, none)
  | (.failed true e, sys) =>
    ({ l with st := { l.st with
        sys := sys
        dirty := false
        commits := l.st.commits ++ [commit] } }, some e)
  | (.failed false e, sys) => ({ l with st := { l.st with sys := sys, dirty := false } }, some e)

/-- The paused batches leave, the others go to the head of the pending list. -/
def deferCollect (l : DeferLoop S T W) : DeferLoop S T W :=
  { l with
    st := { l.st with dfops := [] }
    paused := l.paused ++ l.st.dfops.filter (·.paused)
    pending := l.st.dfops.filter (fun dfp => !dfp.paused) ++ l.pending }

def deferRelogAll (l : DeferLoop S T W) : DeferLoop S T W :=
  let (st, pending) := deferRelog env l.st l.pending
  let (st, paused) := deferRelog env st l.paused
  { l with st := st, pending := pending, paused := paused }

def deferRollRelog (l : DeferLoop S T W) : DeferLoop S T W × Option Errno :=
  match deferTransRoll env l with
  | (l, some e) => (l, some e)
  | (l, none) =>
    let l := deferRelogAll env l
    if l.st.dirty then deferTransRoll env l else (l, none)

inductive DeferTurn (S T W : Type) where
  | next (l : DeferLoop S T W)
  | stop (l : DeferLoop S T W)
  | shutdown (l : DeferLoop S T W) (e : Errno)

def deferFinishFirst (l : DeferLoop S T W) : DeferTurn S T W :=
  match l.pending with
  | [] => .stop l
  | dfp :: rest =>
    match deferFinishOne env l.st dfp with
    | (st, left, .error e) => .shutdown { l with st := st, pending := left.toList ++ rest } e
    | (st, left, _) =>
      .next { l with st := st, pending := left.toList ++ rest, ranOne := true }

def deferTurn (l : DeferLoop S T W) : DeferTurn S T W :=
  let (st, hasIntents) := deferCreateIntents env l.st
  let l := deferCollect { l with st := st }
  match hasIntents with
  | .error e => .shutdown l e
  | .ok has =>
    match if has || l.ranOne then deferRollRelog env l else (l, none) with
    | (l, some e) => .shutdown l e
    | (l, none) => deferFinishFirst env l

def deferPendingAbort (st : DeferState S T W) (dfp : DeferPending T W) : DeferState S T W :=
  match dfp.intent, dfp.done with
  | some intent, none => { st with aborted := st.aborted ++ [intent.id] }
  | _, _ => st

def deferShutdown (l : DeferLoop S T W) : DeferState S T W :=
  let st := (l.pending ++ l.paused).foldl deferPendingAbort l.st
  let st := st.dfops.foldl deferPendingAbort st
  { st with dfops := [] }

inductive DeferStatus where
  | running
  | finished
  | failed (e : Errno)
deriving Repr, DecidableEq

def deferFinishLoop : Nat → DeferLoop S T W → DeferState S T W × DeferStatus
  | 0, l => (l.st, .running)
  | fuel + 1, l =>
    if l.pending.isEmpty && l.st.dfops.isEmpty then
      ({ l.st with dfops := l.st.dfops ++ l.paused }, .finished)
    else
      match deferTurn env l with
      | .next l => deferFinishLoop fuel l
      | .stop l => ({ l.st with dfops := l.st.dfops ++ l.paused }, .finished)
      | .shutdown l e => (deferShutdown l, .failed e)

/-- The state after at most `fuel` turns. -/
def deferFinishNoroll (fuel : Nat) (st : DeferState S T W) : DeferState S T W × DeferStatus :=
  deferFinishLoop env fuel ⟨st, [], [], false⟩

end

end Xfs
