import Mathlib.Algebra.BigOperators.Ring.List
import Mathlib.Algebra.Order.BigOperators.Group.List
import Mathlib.Algebra.Ring.GeomSum
import Mathlib.Algebra.Group.Action.Defs

/-! The shapes of B+trees: how many records a leaf has and which blocks a node points to, with every
leaf at the same depth. -/
namespace BPlusTree

open List

/-- A tree with `h` levels of nodes above its leaves. A leaf is the number of its records. -/
def Shape : Nat → Type
  | 0 => Nat
  | h + 1 => List (Shape h)

namespace Shape

def children {h : Nat} (t : Shape (h + 1)) : List (Shape h) := t

def ofLeaf (n : Nat) : Shape 0 := n

def ofChildren {h : Nat} (cs : List (Shape h)) : Shape (h + 1) := cs

variable {h : Nat}

@[simp] theorem children_ofChildren (cs : List (Shape h)) : (ofChildren cs).children = cs := rfl

def records : (h : Nat) → Shape h → Nat
  | 0, n => n
  | h + 1, t => (t.children.map (records h)).sum

def leaves : (h : Nat) → Shape h → Nat
  | 0, _ => 1
  | h + 1, t => (t.children.map (leaves h)).sum

def blocks : (h : Nat) → Shape h → Nat
  | 0, _ => 1
  | h + 1, t => 1 + (t.children.map (blocks h)).sum

/-- Every block below the root has its minimum: `leaf` records or `node` pointers. -/
def Filled (leaf node : Nat) : (h : Nat) → Shape h → Prop
  | 0, n => leaf ≤ records 0 n
  | h + 1, t => node ≤ t.children.length ∧ ∀ c ∈ t.children, Filled leaf node h c

/-- A root node has two pointers at least, and the blocks below have their minimum. -/
def RootFilled (leaf node : Nat) : (h : Nat) → Shape h → Prop
  | 0, _ => True
  | h + 1, t => 2 ≤ t.children.length ∧ ∀ c ∈ t.children, Filled leaf node h c

/-- The tree without its leaves. The nodes above them are the new leaves. -/
def contract : (h : Nat) → Shape (h + 1) → Shape h
  | 0, t => ofLeaf t.children.length
  | h + 1, t => ofChildren (t.children.map (contract h))

theorem records_contract (h : Nat) (t : Shape (h + 1)) :
    records h (contract h t) = leaves (h + 1) t := by
  induction h with
  | zero =>
    change t.children.length = (t.children.map fun _ => 1).sum
    rw [map_const', sum_replicate, smul_eq_mul, mul_one]
  | succ h ih =>
    simp only [contract, records, leaves, children_ofChildren, map_map]
    congr 1
    apply map_congr_left
    intro c _
    exact ih c

theorem blocks_contract (h : Nat) (t : Shape (h + 1)) :
    blocks (h + 1) t = leaves (h + 1) t + blocks h (contract h t) := by
  induction h with
  | zero => exact add_comm _ _
  | succ h ih =>
    have hsum : (t.children.map (blocks (h + 1))).sum =
        (t.children.map fun c => leaves (h + 1) c + blocks h (contract h c)).sum := by
      congr 1
      apply map_congr_left
      intro c _
      exact ih c
    rw [blocks, hsum, sum_map_add]
    simp only [contract, leaves, blocks, children_ofChildren, map_map, Function.comp_def]
    exact add_left_comm _ _ _

variable {leaf node : Nat} {t : Shape h}

theorem Filled.contract {t : Shape (h + 1)} (hfill : Filled leaf node (h + 1) t) :
    Filled node node h (contract h t) := by
  induction h with
  | zero => exact hfill.1
  | succ h ih =>
    constructor
    · rw [Shape.contract, children_ofChildren, length_map]
      exact hfill.1
    · intro c hc
      rw [Shape.contract, children_ofChildren] at hc
      obtain ⟨d, hd, rfl⟩ := mem_map.mp hc
      exact ih (hfill.2 d hd)

theorem RootFilled.contract {t : Shape (h + 1)} (hfill : RootFilled leaf node (h + 1) t) :
    RootFilled node node h (contract h t) := by
  cases h with
  | zero => trivial
  | succ h =>
    constructor
    · rw [Shape.contract, children_ofChildren, length_map]
      exact hfill.1
    · intro c hc
      rw [Shape.contract, children_ofChildren] at hc
      obtain ⟨d, hd, rfl⟩ := mem_map.mp hc
      exact (hfill.2 d hd).contract

theorem mul_length_le_sum (k : Nat) (l : List Nat) (hl : ∀ n ∈ l, k ≤ n) : k * l.length ≤ l.sum := by
  have hcard := card_nsmul_le_sum l k hl
  rw [smul_eq_mul] at hcard
  rwa [mul_comm]

theorem leaves_pos (hnode : 0 < node) (hfill : Filled leaf node h t) : 0 < leaves h t := by
  induction h with
  | zero => exact Nat.one_pos
  | succ h ih =>
    have hone : ∀ n ∈ t.children.map (leaves h), 1 ≤ n := by
      intro n hn
      obtain ⟨c, hc, rfl⟩ := mem_map.mp hn
      exact ih (hfill.2 c hc)
    have hsum := mul_length_le_sum 1 _ hone
    have hlen := hfill.1
    rw [length_map] at hsum
    change 0 < (t.children.map (leaves h)).sum
    omega

theorem mul_leaves_le_records (hfill : Filled leaf node h t) : leaf * leaves h t ≤ records h t := by
  induction h with
  | zero =>
    rw [leaves, mul_one]
    exact hfill
  | succ h ih =>
    rw [leaves, records, ← sum_map_mul_left]
    apply sum_le_sum
    intro c hc
    exact ih (hfill.2 c hc)

theorem RootFilled.two_le_leaves {t : Shape (h + 1)} (hnode : 0 < node)
    (hfill : RootFilled leaf node (h + 1) t) : 2 ≤ leaves (h + 1) t := by
  have hone : ∀ n ∈ t.children.map (leaves h), 1 ≤ n := by
    intro n hn
    obtain ⟨c, hc, rfl⟩ := mem_map.mp hn
    exact leaves_pos hnode (hfill.2 c hc)
  have hsum := mul_length_le_sum 1 _ hone
  have hlen := hfill.1
  rw [length_map] at hsum
  change 2 ≤ (t.children.map (leaves h)).sum
  omega

theorem RootFilled.mul_leaves_le_records {t : Shape (h + 1)}
    (hfill : RootFilled leaf node (h + 1) t) : leaf * leaves (h + 1) t ≤ records (h + 1) t := by
  rw [leaves, records, ← sum_map_mul_left]
  apply sum_le_sum
  intro c hc
  exact Shape.mul_leaves_le_records (hfill.2 c hc)

open Finset in
theorem Filled.geom_sum_le_blocks (hfill : Filled leaf node h t) :
    ∑ i ∈ range (h + 1), node ^ i ≤ blocks h t := by
  induction h with
  | zero => exact le_refl 1
  | succ h ih =>
    have hmin : ∀ n ∈ t.children.map (blocks h), ∑ i ∈ range (h + 1), node ^ i ≤ n := by
      intro n hn
      obtain ⟨c, hc, rfl⟩ := mem_map.mp hn
      exact ih (hfill.2 c hc)
    have hsum := mul_length_le_sum _ _ hmin
    rw [length_map] at hsum
    have hlen := Nat.mul_le_mul_left (∑ i ∈ range (h + 1), node ^ i) hfill.1
    rw [geom_sum_succ, mul_comm, add_comm]
    exact Nat.add_le_add_left (hlen.trans hsum) 1

open Finset in
theorem RootFilled.geom_sum_le_blocks (hfill : RootFilled leaf node h t) :
    1 + 2 * ∑ i ∈ range h, node ^ i ≤ blocks h t := by
  cases h with
  | zero => exact le_refl 1
  | succ h =>
    have hmin : ∀ n ∈ t.children.map (blocks h), ∑ i ∈ range (h + 1), node ^ i ≤ n := by
      intro n hn
      obtain ⟨c, hc, rfl⟩ := mem_map.mp hn
      exact (hfill.2 c hc).geom_sum_le_blocks
    have hsum := mul_length_le_sum _ _ hmin
    rw [length_map] at hsum
    have hlen := Nat.mul_le_mul_left (∑ i ∈ range (h + 1), node ^ i) hfill.1
    rw [mul_comm]
    exact Nat.add_le_add_left (hlen.trans hsum) 1

/-- A subtree in which every node has just the pointers it must have. -/
def sparse (node : Nat) : (h : Nat) → Shape h
  | 0 => ofLeaf 0
  | h + 1 => ofChildren (List.replicate node (sparse node h))

/-- A tree in which every node has just the pointers it must have. -/
def sparseRoot (node : Nat) : (h : Nat) → Shape h
  | 0 => ofLeaf 0
  | h + 1 => ofChildren (List.replicate 2 (sparse node h))

theorem sparse_filled (node h : Nat) : Filled 0 node h (sparse node h) := by
  induction h with
  | zero => exact Nat.zero_le _
  | succ h ih =>
    constructor
    · rw [sparse, children_ofChildren, length_replicate]
    · intro c hc
      rw [sparse, children_ofChildren] at hc
      rw [eq_of_mem_replicate hc]
      exact ih

theorem sparseRoot_rootFilled (node h : Nat) : RootFilled 0 node h (sparseRoot node h) := by
  cases h with
  | zero => trivial
  | succ h =>
    constructor
    · rw [sparseRoot, children_ofChildren, length_replicate]
    · intro c hc
      rw [sparseRoot, children_ofChildren] at hc
      rw [eq_of_mem_replicate hc]
      exact sparse_filled node h

open Finset in
theorem blocks_sparse (node h : Nat) :
    blocks h (sparse node h) = ∑ i ∈ range (h + 1), node ^ i := by
  induction h with
  | zero => rfl
  | succ h ih =>
    rw [sparse, blocks, children_ofChildren, map_replicate, sum_replicate, smul_eq_mul, ih,
      add_comm, ← geom_sum_succ]

open Finset in
theorem blocks_sparseRoot (node h : Nat) :
    blocks h (sparseRoot node h) = 1 + 2 * ∑ i ∈ range h, node ^ i := by
  cases h with
  | zero => rfl
  | succ h =>
    rw [sparseRoot, blocks, children_ofChildren, map_replicate, sum_replicate, smul_eq_mul,
      blocks_sparse]

end Shape

end BPlusTree
