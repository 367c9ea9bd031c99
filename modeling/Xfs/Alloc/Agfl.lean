import Xfs.Basic
import Xfs.Lib.Ring

/-! The free list of an allocation group: a ring of block numbers in one sector, with its ends and
its count in the group's header and the count once more in memory. -/
namespace Xfs

/-- The superblock fields behind the size of the list. The list has at least one slot. -/
structure AgflMount where
  sectsize : Nat
  hasCrc : Bool
  sectsize_ge : 40 ≤ sectsize
  sectsize_lt : sectsize < 2 ^ 16

/-- The number of slots. With checksums the sector starts with a header of 36 bytes. -/
def agflSize (m : AgflMount) : Nat := (if m.hasCrc then m.sectsize - 36 else m.sectsize) / 4

/-- The fields of the group's header, their copies in memory, and the slots. -/
structure AgflState where
  flfirst : Nat
  fllast : Nat
  flcount : Nat
  btreeblks : Nat
  pagfFlcount : Nat
  pagfBtreeblks : Nat
  needsReset : Bool
  agflBno : Nat → Nat

section

variable (m : AgflMount) (g : Group)

/-- The count does not agree with the ends. -/
def agflNeedsReset (st : AgflState) : Bool :=
  let f := st.flfirst
  let l := st.fllast
  let c := st.flcount
  if agflSize m ≤ f ∨ agflSize m ≤ l then true
  else if agflSize m < c then true
  else
    let active :=
      if c ≠ 0 ∧ f ≤ l then l - f + 1
      else if c ≠ 0 then agflSize m - f + l + 1
      else 0
    active != c

def agflReset (st : AgflState) : AgflState :=
  { st with
    flfirst := 0
    fllast := agflSize m - 1
    flcount := 0
    pagfFlcount := 0
    needsReset := false }

def allocGetFreelist (st : AgflState) (btreeblk : Bool) : AgflState × Except Errno Nat :=
  if st.flcount = 0 then (st, .ok nullagblock)
  else
    let bno := st.agflBno st.flfirst
    if verifyGbno g bno = false then (st, .error .efscorrupted)
    else
      let flfirst := add32 st.flfirst 1
      let st :=
        { st with
          flfirst := if flfirst = agflSize m then 0 else flfirst
          flcount := sub32 st.flcount 1
          pagfFlcount := sub32 st.pagfFlcount 1 }
      let st :=
        if btreeblk then
          { st with
            btreeblks := add32 st.btreeblks 1
            pagfBtreeblks := add32 st.pagfBtreeblks 1 }
        else st
      (st, .ok bno)

/-- Append a block. Nothing checks that there is room. -/
def allocPutFreelist (st : AgflState) (bno : Nat) (btreeblk : Bool) : AgflState :=
  let fllast := add32 st.fllast 1
  let st :=
    { st with
      fllast := if fllast = agflSize m then 0 else fllast
      flcount := add32 st.flcount 1
      pagfFlcount := add32 st.pagfFlcount 1 }
  let st :=
    if btreeblk then
      { st with
        btreeblks := sub32 st.btreeblks 1
        pagfBtreeblks := sub32 st.pagfBtreeblks 1 }
    else st
  { st with agflBno := Function.update st.agflBno st.fllast bno }

/-- The loop of the walk. It has no bound of its own. -/
def agflWalkFrom {σ ε : Type} (st : AgflState) (walkFn : σ → Nat → Except ε σ) :
    Nat → Nat → σ → Option (Except ε σ)
  | 0, _, _ => none
  | fuel + 1, i, priv =>
    match walkFn priv (st.agflBno i) with
    | .error e => some (.error e)
    | .ok priv =>
      if i = st.fllast then some (.ok priv)
      else agflWalkFrom st walkFn fuel (if i + 1 = agflSize m then 0 else i + 1) priv

def agflWalk {σ ε : Type} (st : AgflState) (walkFn : σ → Nat → Except ε σ) (fuel : Nat) (priv : σ) :
    Option (Except ε σ) :=
  if st.flcount = 0 then some (.ok priv) else agflWalkFrom m st walkFn fuel st.flfirst priv

inductive AgflCall where
  | put (bno : Nat) (btreeblk : Bool)
  | get (btreeblk : Bool)
deriving DecidableEq, Repr

/-- A call, with the answer if it is a `get`. -/
def agflStep (st : AgflState) : AgflCall → AgflState × List (Except Errno Nat)
  | .put bno btreeblk => (allocPutFreelist m st bno btreeblk, [])
  | .get btreeblk =>
    let (st, bno) := allocGetFreelist m g st btreeblk
    (st, [bno])

def agflRun : AgflState → List AgflCall → AgflState × List (Except Errno Nat)
  | st, [] => (st, [])
  | st, call :: calls =>
    let (st, answer) := agflStep m g st call
    let (st, answers) := agflRun st calls
    (st, answer ++ answers)

/-- The queued blocks, and the blocks handed to the btrees less those they gave back. -/
structure AgflQueue where
  blocks : List Nat
  btreeblks : Int
deriving DecidableEq, Repr

/-- A block of the static headers or past the end of the group stays in front for ever. -/
def AgflQueue.step (q : AgflQueue) : AgflCall → AgflQueue × List (Except Errno Nat)
  | .put bno btreeblk => (⟨q.blocks ++ [bno], q.btreeblks - btreeblk.toNat⟩, [])
  | .get btreeblk =>
    match q.blocks with
    | [] => (q, [.ok nullagblock])
    | bno :: blocks =>
      if verifyGbno g bno then (⟨blocks, q.btreeblks + btreeblk.toNat⟩, [.ok bno])
      else (q, [.error .efscorrupted])

def AgflQueue.run : AgflQueue → List AgflCall → AgflQueue × List (Except Errno Nat)
  | q, [] => (q, [])
  | q, call :: calls =>
    let (q, answer) := q.step g call
    let (q, answers) := AgflQueue.run q calls
    (q, answer ++ answers)

def blocksPut (calls : List AgflCall) : List Nat :=
  calls.filterMap fun call =>
    match call with
    | .put bno _ => some bno
    | .get _ => none

def blocksGot (answers : List (Except Errno Nat)) : List Nat :=
  answers.filterMap fun answer =>
    match answer with
    | .ok bno => if bno = nullagblock then none else some bno
    | .error _ => none

end

end Xfs
