import Mathlib.Order.WithBot
import Xfs.Basic

/-! Blocks of the generic btree, the keys a parent stores for a block, and the
records found below a block. -/
namespace Xfs

open List

/-- Keys of a record type. With overlapping records there is also a high key. -/
structure BtreeKeyOps (R K : Type) where
  initKeyFromRec : R → K
  initHighKeyFromRec : R → K
  overlapping : Bool
  /-- What lies in the record area of a block nobody has filled. -/
  stale : R

/-- The key a parent holds for a child; plain btrees have no high key. -/
structure BtreeKey (K : Type) where
  low : K
  high : WithBot K

/-- A btree block. Leaf blocks hold records, node blocks keys and pointers. -/
structure BtreeBlock (R K : Type) where
  level : Nat
  numrecs : Nat
  leftsib : Option Nat
  rightsib : Option Nat
  recs : List R
  keys : List (BtreeKey K)
  ptrs : List Nat

/-- Where a block lives: in a buffer, or in the inode fork. -/
inductive BlockLoc where
  | buf (ptr : Nat)
  | iroot
deriving DecidableEq

section Keys

variable {R K : Type} [LinearOrder K]

/-- The running maximum of the key loops. -/
def maxKey (a b : WithBot K) : WithBot K := if a < b then b else a

def btreeGetLeafKeys (ops : BtreeKeyOps R K) (block : BtreeBlock R K) : BtreeKey K where
  low := ops.initKeyFromRec (block.recs.headD ops.stale)
  high :=
    if ops.overlapping then
      ((block.recs.take block.numrecs).tail.map fun r => (ops.initHighKeyFromRec r : WithBot K)).foldl
        maxKey (ops.initHighKeyFromRec (block.recs.headD ops.stale))
    else ⊥

def btreeGetNodeKeys (ops : BtreeKeyOps R K) (block : BtreeBlock R K) : BtreeKey K :=
  match block.keys with
  | [] => ⟨ops.initKeyFromRec ops.stale, ⊥⟩
  | k :: rest =>
    { low := k.low
      high :=
        if ops.overlapping then
          ((rest.take (block.numrecs - 1)).map BtreeKey.high).foldl maxKey k.high
        else ⊥ }

def btreeGetKeys (ops : BtreeKeyOps R K) (block : BtreeBlock R K) : BtreeKey K :=
  if block.level = 0 then btreeGetLeafKeys ops block else btreeGetNodeKeys ops block

def highest (ks : List (WithBot K)) : WithBot K := ks.foldr max ⊥

/-- The key of a run of records: what a parent must store for a subtree that
holds them. -/
def recsKey (ops : BtreeKeyOps R K) (recs : List R) : BtreeKey K where
  low := ops.initKeyFromRec (recs.headD ops.stale)
  high := if ops.overlapping then highest (recs.map fun r => (ops.initHighKeyFromRec r : WithBot K))
    else ⊥

@[simp] theorem highest_nil : highest ([] : List (WithBot K)) = ⊥ := rfl

@[simp] theorem highest_cons (k : WithBot K) (ks : List (WithBot K)) :
    highest (k :: ks) = max k (highest ks) := rfl

theorem highest_append (ks ls : List (WithBot K)) :
    highest (ks ++ ls) = max (highest ks) (highest ls) := by
  induction ks with
  | nil => simp
  | cons k ks ih => simp [ih, max_assoc]

theorem maxKey_eq (a b : WithBot K) : maxKey a b = max a b := by
  unfold maxKey
  split_ifs with h
  · exact (max_eq_right h.le).symm
  · exact (max_eq_left (not_lt.mp h)).symm

theorem foldl_maxKey (k : WithBot K) (ks : List (WithBot K)) :
    ks.foldl maxKey k = max k (highest ks) := by
  induction ks generalizing k with
  | nil => simp
  | cons l ks ih => rw [foldl_cons, ih, maxKey_eq, highest_cons, max_assoc]

variable {ops : BtreeKeyOps R K}

variable {block : BtreeBlock R K}

theorem btreeGetLeafKeys_eq (hne : block.recs ≠ []) (hnum : block.numrecs = block.recs.length) :
    btreeGetLeafKeys ops block = recsKey ops block.recs := by
  obtain ⟨r, rest, hrecs⟩ := exists_cons_of_ne_nil hne
  simp [btreeGetLeafKeys, recsKey, hrecs, hnum, foldl_maxKey]

theorem btreeGetNodeKeys_eq {groups : List (List R)} (hkeys : block.keys = groups.map (recsKey ops))
    (hne : groups ≠ []) (hpos : ∀ g ∈ groups, g ≠ []) (hnum : block.numrecs = groups.length) :
    btreeGetNodeKeys ops block = recsKey ops groups.flatten := by
  obtain ⟨g, rest, rfl⟩ := exists_cons_of_ne_nil hne
  obtain ⟨r, rs, rfl⟩ := exists_cons_of_ne_nil (hpos g (by simp))
  have hhigh : ∀ gs : List (List R), ops.overlapping →
      highest ((gs.map (recsKey ops)).map BtreeKey.high) =
        highest (gs.flatten.map fun r => (ops.initHighKeyFromRec r : WithBot K)) := by
    intro gs hov
    induction gs with
    | nil => rfl
    | cons g gs ih =>
      simp only [map_cons, highest_cons, ih, flatten_cons, map_append,
        highest_append, recsKey, hov, if_true]
  have htake : ((rest.map (recsKey ops)).take (block.numrecs - 1)) = rest.map (recsKey ops) := by
    rw [hnum]
    exact take_of_length_le (by simp)
  rw [btreeGetNodeKeys, hkeys]
  simp only [map_cons, htake, foldl_maxKey]
  by_cases hov : ops.overlapping = true
  · simp only [hov, if_true, hhigh rest hov, recsKey, flatten_cons, map_append,
      highest_append, highest_cons, headD_cons, cons_append, map_cons, max_assoc]
  · simp [recsKey, hov]

end Keys

section Store

variable {R K : Type}

/-- Buffers by block pointer, and the root in the inode fork, if the tree has one. -/
structure BtreeStore (R K : Type) where
  bufs : Nat → Option (BtreeBlock R K)
  iroot : Option (BtreeBlock R K)

def BtreeStore.get (store : BtreeStore R K) : BlockLoc → Option (BtreeBlock R K)
  | .buf ptr => store.bufs ptr
  | .iroot => store.iroot

def BtreeStore.set (store : BtreeStore R K) (loc : BlockLoc) (block : BtreeBlock R K) :
    BtreeStore R K :=
  match loc with
  | .buf ptr => { store with bufs := fun p => if p = ptr then some block else store.bufs p }
  | .iroot => { store with iroot := some block }

@[simp] theorem BtreeStore.get_set_self (store : BtreeStore R K) (loc : BlockLoc)
    (block : BtreeBlock R K) : (store.set loc block).get loc = some block := by
  cases loc <;> simp [BtreeStore.get, BtreeStore.set]

theorem BtreeStore.get_set_of_ne {store : BtreeStore R K} {loc loc' : BlockLoc} (hne : loc' ≠ loc) :
    (store.set loc block).get loc' = store.get loc' := by
  cases loc <;> cases loc' <;> simp_all [BtreeStore.get, BtreeStore.set]

theorem BtreeStore.set_set (store : BtreeStore R K) (loc : BlockLoc) (b b' : BtreeBlock R K) :
    (store.set loc b).set loc b' = store.set loc b' := by
  cases loc with
  | buf ptr =>
    simp only [BtreeStore.set]
    congr 1
    funext p
    split_ifs <;> rfl
  | iroot => rfl

theorem BtreeStore.set_of_get {store : BtreeStore R K} {loc : BlockLoc} {b : BtreeBlock R K}
    (hget : store.get loc = some b) : store.set loc b = store := by
  cases loc with
  | buf ptr =>
    have hbufs : (fun p => if p = ptr then some b else store.bufs p) = store.bufs := by
      funext p
      split_ifs with h
      · rw [h]
        exact hget.symm
      · rfl
    simp only [BtreeStore.set, hbufs]
  | iroot =>
    have hiroot : some b = store.iroot := hget.symm
    simp only [BtreeStore.set, hiroot]

def btreeRecs (store : BtreeStore R K) : Nat → BlockLoc → List R
  | 0, loc => ((store.get loc).map BtreeBlock.recs).getD []
  | level + 1, loc =>
    (((store.get loc).map BtreeBlock.ptrs).getD []).flatMap fun ptr =>
      btreeRecs store level (.buf ptr)

end Store

end Xfs
