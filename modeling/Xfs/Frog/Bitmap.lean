import Xfs.Frog.Avl64

/-! The bitmap of `libfrog/bitmap.c`: a set of 64-bit integers kept as extents in a search tree.
Memory allocation succeeds, and the lock is left out. -/
namespace Xfs

/-- An extent of set bits. -/
structure BitmapNode where
  start : Nat
  length : Nat
deriving Repr, DecidableEq

def extentStart (ext : BitmapNode) : Nat := ext.start

def extentEnd (ext : BitmapNode) : Nat := add64 ext.start ext.length

def bitmapOps : Avl64Ops BitmapNode := ⟨extentStart, extentEnd⟩

/-- The tree of a bitmap. -/
abbrev Bitmap := BinaryTree BitmapNode

abbrev BitmapRes := Bitmap × Option Errno

section

variable (bal : Avl64Balance BitmapNode)

def bitmapInsert (bmap : Bitmap) (start length : Nat) : BitmapRes :=
  match avl64Insert bitmapOps bal bmap ⟨start, length⟩ with
  | none => (bmap, some .eexist)
  | some bmap => (bmap, none)

/-- The extent that is going to be inserted. -/
structure BitmapSetState where
  bmap : Bitmap
  newStart : Nat
  newLength : Nat

/-- The loop over the extents found. The flag says that it returned early. -/
def bitmapSetLoop (start length : Nat) : List BitmapNode → BitmapSetState → BitmapSetState × Bool
  | [], st => (st, false)
  | ext :: exts, st =>
    if ext.start ≤ start ∧ add64 start length ≤ extentEnd ext then (st, true)
    else if start ≤ extentEnd ext ∨ ext.start ≤ add64 start length then
      let st := if ext.start < start then
          { st with
            newStart := ext.start
            newLength := add64 st.newLength ext.length }
        else st
      let st := if add64 st.newStart st.newLength < extentEnd ext then
          { st with newLength := sub64 (extentEnd ext) st.newStart }
        else st
      bitmapSetLoop start length exts { st with bmap := avl64Delete bal st.bmap ext }
    else bitmapSetLoop start length exts st

/-- The end of `bitmapSet`: insert the merged extent, unless the loop has returned. -/
def bitmapSetDone : BitmapSetState × Bool → BitmapRes
  | (st, true) => (st.bmap, none)
  | (st, false) => bitmapInsert bal st.bmap st.newStart st.newLength

def bitmapSet (bmap : Bitmap) (start length : Nat) : BitmapRes :=
  -- find any existing nodes adjacent or within that range
  match avl64Findranges bitmapOps bmap (sub64 start 1) (add64 (add64 start length) 1) with
  | none => bitmapInsert bal bmap start length
  | some (firstn, lastn) =>
    bitmapSetDone bal (bitmapSetLoop bal start length (avlRange (inorder bmap) firstn lastn)
      ⟨bmap, start, length⟩)

def bitmapClearLoop (start len : Nat) : List BitmapNode → Bitmap → BitmapRes
  | [], bmap => (bmap, none)
  | ext :: exts, bmap =>
    match decide (ext.start < start), decide (add64 start len < extentEnd ext) with
    | false, false => bitmapClearLoop start len exts (avl64Delete bal bmap ext)
    | true, false =>
      bitmapClearLoop start len exts
        (avlModify bmap ext { ext with length := sub64 start ext.start })
    | false, true =>
      bitmapClearLoop start len exts (avlModify bmap ext
        { ext with
          length := sub64 (extentEnd ext) (add64 start len)
          start := add64 start len })
    | true, true =>
      let left := { ext with length := sub64 start ext.start }
      let newStart := add64 start len
      -- the length has been changed already
      let newLength := sub64 (extentEnd left) newStart
      match avl64Insert bitmapOps bal (avlModify bmap ext left) ⟨newStart, newLength⟩ with
      | none => (avlModify bmap ext left, some .eexist)
      | some bmap => bitmapClearLoop start len exts bmap

def bitmapClear (bmap : Bitmap) (start len : Nat) : BitmapRes :=
  match avl64Findranges bitmapOps bmap start (add64 start len) with
  | none => (bmap, none)
  | some (firstn, lastn) =>
    bitmapClearLoop bal start len (avlRange (inorder bmap) firstn lastn) bmap

end

/-- Is any part of this range set? -/
def bitmapTest (bmap : Bitmap) (start len : Nat) : Bool :=
  (avl64Findranges bitmapOps bmap start (add64 start len)).isSome

/-- Iterate the set regions. An error of `fn` ends the iteration. -/
def bitmapIterate {σ : Type} (bmap : Bitmap) (fn : Nat → Nat → σ → Except Errno σ) (arg : σ) :
    Except Errno σ :=
  (inorder bmap).foldlM (fun arg ext => fn ext.start ext.length arg) arg

end Xfs
