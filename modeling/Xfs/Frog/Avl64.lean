import Mathlib.Data.Tree.Basic
import Xfs.Basic
import Xfs.Lib.IntervalList

/-! The search tree of `libfrog/avl64.c`: a binary tree of nodes, each for the range from `avlStart`
to `avlEnd`. Links between the nodes follow from the shape. -/
namespace Xfs

open Option List IntervalList

/-- The bounds of the range a node stands for. -/
structure Avl64Ops (α : Type) where
  avlStart : α → Nat
  avlEnd : α → Nat

def inorder {α : Type} : BinaryTree α → List α
  | .nil => []
  | .node np back forw => inorder back ++ np :: inorder forw

/-- The rotations after an insertion or a deletion keep the order of the nodes. -/
structure Avl64Balance (α : Type) where
  run : BinaryTree α → BinaryTree α
  inorder_run : ∀ t, inorder (run t) = inorder t

inductive Avl64Dir where
  | preceed
  | succeed
deriving Repr, DecidableEq

section Model

variable {α : Type}

def avl64FindadjacentFrom (ops : Avl64Ops α) (value : Nat) (dir : Avl64Dir) :
    BinaryTree α → List α → Option α → Option α
  | .nil, _, _ => none
  | .node np back forw, parents, nextino =>
    if value < ops.avlStart np then
      match back with
      | .nil =>
        match dir with
        | .succeed => some np
        | .preceed => parents.find? fun p => decide (ops.avlEnd p ≤ value)
      | .node _ _ _ => avl64FindadjacentFrom ops value dir back (np :: parents) (some np)
    else if ops.avlEnd np ≤ value then
      match forw with
      | .nil =>
        match dir with
        | .succeed => nextino
        | .preceed => some np
      | .node _ _ _ => avl64FindadjacentFrom ops value dir forw (np :: parents) nextino
    else some np

def avl64Findadjacent (ops : Avl64Ops α) (t : BinaryTree α) (value : Nat) (dir : Avl64Dir) :
    Option α :=
  avl64FindadjacentFrom ops value dir t [] none

variable [DecidableEq α]

/-- The node that follows in order. -/
def avlNextino (l : List α) (np : α) : Option α := (l.dropWhile (fun x => x ≠ np)).tail.head?

def avl64Findranges (ops : Avl64Ops α) (t : BinaryTree α) (start stop : Nat) : Option (α × α) :=
  match avl64Findadjacent ops t start .succeed with
  | none => none
  | some np =>
    if stop ≤ ops.avlStart np then none
    else
      let endsHere :=
        match avlNextino (inorder t) np with
        | none => true
        | some next => decide (stop ≤ ops.avlStart next)
      if stop ≤ ops.avlEnd np || endsHere then some (np, np)
      else
        -- look for the last value, not for the end
        (avl64Findadjacent ops t (stop - 1) .preceed).map fun last => (np, last)

def avlRange (l : List α) (first last : α) : List α :=
  (l.dropWhile fun x => x ≠ first).takeWhile fun x => some x ≠ avlNextino l last

def avl64InsertGrow (ops : Avl64Ops α) (new : α) : BinaryTree α → Option (BinaryTree α)
  | .nil => some (.node new .nil .nil)
  | .node np back forw =>
    if ops.avlEnd new ≤ ops.avlStart np then
      (avl64InsertGrow ops new back).map fun back => .node np back forw
    else if ops.avlEnd np ≤ ops.avlStart new then
      (avl64InsertGrow ops new forw).map fun forw => .node np back forw
    else none

def avl64Insert (ops : Avl64Ops α) (bal : Avl64Balance α) (t : BinaryTree α) (new : α) :
    Option (BinaryTree α) :=
  (avl64InsertGrow ops new t).map bal.run

def avlTakeLast : BinaryTree α → α → BinaryTree α → BinaryTree α × α
  | back, np, .nil => (back, np)
  | back, np, .node forw fback fforw =>
    let (rest, last) := avlTakeLast fback forw fforw
    (.node np back rest, last)

/-- What takes the place of a node with these subtrees. -/
def avlJoin : BinaryTree α → BinaryTree α → BinaryTree α
  | back, .nil => back
  | .nil, forw => forw
  | .node np back bforw, forw =>
    let (rest, last) := avlTakeLast back np bforw
    .node last rest forw

def avlRemove (np : α) : BinaryTree α → BinaryTree α
  | .nil => .nil
  | .node x back forw =>
    if x = np then avlJoin back forw else .node x (avlRemove np back) (avlRemove np forw)

def avl64Delete (bal : Avl64Balance α) (t : BinaryTree α) (np : α) : BinaryTree α :=
  bal.run (avlRemove np t)

def avlModify (t : BinaryTree α) (np new : α) : BinaryTree α :=
  t.map fun x => if x = np then new else x

end Model

section Search

variable {α : Type} {ops : Avl64Ops α} {t : BinaryTree α} {l A F B : List α} {v a c : Nat}
  {x y new : α}

/-- The ranges of the nodes in order. -/
abbrev AvlSeparated (ops : Avl64Ops α) (l : List α) : Prop :=
  Separated ops.avlStart ops.avlEnd l

theorem find?_none_of_end_le (h : ∀ x ∈ l, ops.avlEnd x ≤ v) :
    l.find? (fun x => decide (v < ops.avlEnd x)) = none := by
  refine find?_eq_none.mpr fun x hx => ?_
  simpa using h x hx

section

variable (h : AvlSeparated ops (inorder t))
include h

theorem avl64FindadjacentFrom_succeed (ht : t ≠ .nil) (parents : List α) (nextino : Option α) :
    avl64FindadjacentFrom ops v .succeed t parents nextino =
      ((inorder t).find? fun x => decide (v < ops.avlEnd x)).or nextino := by
  induction t generalizing parents nextino with
  | nil => exact absurd rfl ht
  | node np back forw ihb ihf =>
    obtain ⟨hb, hcons, hleft⟩ := separated_append.mp h
    obtain ⟨hnp, hright, hf⟩ := separated_cons.mp hcons
    have hbnp := fun x hx => hleft x hx np mem_cons_self
    unfold avl64FindadjacentFrom
    rw [inorder, find?_append]
    by_cases h1 : v < ops.avlStart np
    · have hend : v < ops.avlEnd np := h1.trans hnp
      rw [if_pos h1, find?_cons_of_pos (by simpa using hend)]
      cases back with
      | nil => rfl
      | node bp bb bf =>
        rw [ihb hb (by simp)]
        cases (inorder (.node bp bb bf)).find? fun x => decide (v < ops.avlEnd x) <;> rfl
    · have hback : (inorder back).find? (fun x => decide (v < ops.avlEnd x)) = none :=
        find?_none_of_end_le fun x hx => (hbnp x hx).trans (not_lt.mp h1)
      rw [if_neg h1, hback, none_or]
      by_cases h2 : ops.avlEnd np ≤ v
      · rw [if_pos h2, find?_cons_of_neg (by simpa using h2)]
        cases forw with
        | nil => rfl
        | node fp fb ff => exact ihf hf (by simp) _ _
      · rw [if_neg h2, find?_cons_of_pos (by simpa using h2)]
        rfl

theorem avl64FindadjacentFrom_preceed (ht : t ≠ .nil) (parents : List α) (nextino : Option α) :
    avl64FindadjacentFrom ops v .preceed t parents nextino =
      ((inorder t).reverse.find? fun x => decide (ops.avlStart x ≤ v)).or
        (parents.find? fun p => decide (ops.avlEnd p ≤ v)) := by
  induction t generalizing parents nextino with
  | nil => exact absurd rfl ht
  | node np back forw ihb ihf =>
    obtain ⟨hb, hcons, hleft⟩ := separated_append.mp h
    obtain ⟨hnp, hright, hf⟩ := separated_cons.mp hcons
    unfold avl64FindadjacentFrom
    rw [inorder, reverse_append, reverse_cons, append_assoc, find?_append, singleton_append]
    -- a later node starts behind the end of this one
    have hlater : v < ops.avlEnd np →
        (inorder forw).reverse.find? (fun x => decide (ops.avlStart x ≤ v)) = none := by
      intro hv
      refine find?_eq_none.mpr fun x hx => ?_
      have := hright x (mem_reverse.mp hx)
      simp only [decide_eq_true_eq, not_le]
      omega
    by_cases h1 : v < ops.avlStart np
    · rw [if_pos h1, hlater (h1.trans hnp), find?_cons_of_neg (by simpa using h1), none_or]
      cases back with
      | nil => rfl
      | node bp bb bf =>
        rw [ihb hb (by simp), find?_cons_of_neg
          (by simp only [decide_eq_true_eq, not_le]; exact h1.trans hnp)]
    · have hstart : ops.avlStart np ≤ v := not_lt.mp h1
      rw [if_neg h1, find?_cons_of_pos (by simpa using hstart)]
      by_cases h2 : ops.avlEnd np ≤ v
      · rw [if_pos h2]
        cases forw with
        | nil => rfl
        | node fp fb ff =>
          rw [ihf hf (by simp), find?_cons_of_pos (by simpa using h2)]
          cases (inorder (.node fp fb ff)).reverse.find? fun x =>
            decide (ops.avlStart x ≤ v) <;> rfl
      · rw [if_neg h2, hlater (not_le.mp h2)]
        rfl

theorem avl64Findadjacent_succeed : avl64Findadjacent ops t v .succeed =
      (inorder t).find? fun x => decide (v < ops.avlEnd x) := by
  cases t with
  | nil => rfl
  | node np back forw =>
    rw [avl64Findadjacent, avl64FindadjacentFrom_succeed h (by simp), or_none]

theorem avl64Findadjacent_preceed : avl64Findadjacent ops t v .preceed =
      (inorder t).reverse.find? fun x => decide (ops.avlStart x ≤ v) := by
  cases t with
  | nil => rfl
  | node np back forw =>
    rw [avl64Findadjacent, avl64FindadjacentFrom_preceed h (by simp)]
    simp

end

variable [DecidableEq α]

theorem dropWhile_ne_append (hx : x ∉ A) :
    (A ++ x :: l).dropWhile (fun y => decide (y ≠ x)) = x :: l := by
  rw [dropWhile_append_of_pos fun y hy => by
    simpa using fun he : y = x => hx (he ▸ hy)]
  simp

theorem avlNextino_append (hx : x ∉ A) : avlNextino (A ++ x :: l) x = l.head? := by
  rw [avlNextino, dropWhile_ne_append hx]
  rfl

theorem avlRange_append (hn : (A ++ (x :: F ++ B)).Nodup) (hy : (x :: F).getLast? = some y) :
    avlRange (A ++ (x :: F ++ B)) x y = x :: F := by
  obtain ⟨-, hfB, hdisj⟩ := nodup_append.mp hn
  have hxA : x ∉ A := fun hx => hdisj x hx x (by simp) rfl
  -- behind the last node comes what is behind the part
  have hnext : avlNextino (A ++ (x :: F ++ B)) y = B.head? := by
    obtain ⟨F', hF'⟩ : ∃ F', x :: F = F' ++ [y] := by
      obtain ⟨F', hF'⟩ := getLast?_eq_some_iff.mp hy
      exact ⟨F', hF'⟩
    rw [hF'] at hn ⊢
    rw [append_assoc, singleton_append, ← append_assoc] at hn ⊢
    refine avlNextino_append fun hyA => ?_
    exact (nodup_append.mp hn).2.2 y hyA y (by simp) rfl
  rw [avlRange, hnext, cons_append, dropWhile_ne_append hxA, ← cons_append]
  have hsep := (nodup_append.mp hfB).2.2
  rw [takeWhile_append_of_pos]
  · cases B with
    | nil => simp
    | cons b B => simp
  · intro z hz
    cases B with
    | nil => simp
    | cons b B =>
      have : z ≠ b := fun he => hsep z hz b (by simp) he
      simpa using this

theorem avl64Findranges_spec (h : AvlSeparated ops (inorder t)) (hac : a < c) :
    (window ops.avlStart ops.avlEnd a c (inorder t) = [] → avl64Findranges ops t a c = none) ∧
    (window ops.avlStart ops.avlEnd a c (inorder t) ≠ [] → ∃ f g,
      avl64Findranges ops t a c = some (f, g) ∧
        avlRange (inorder t) f g = window ops.avlStart ops.avlEnd a c (inorder t)) := by
  have hsplit := h.split hac.le
  generalize hA : below ops.avlEnd a (inorder t) = A at hsplit
  generalize hF : window ops.avlStart ops.avlEnd a c (inorder t) = F at hsplit ⊢
  generalize hB : above ops.avlStart c (inorder t) = B at hsplit
  have hamem : ∀ x ∈ A, ops.avlEnd x ≤ a := fun x hx => (mem_below.mp (hA ▸ hx)).2
  have hfmem : ∀ x ∈ F, a < ops.avlEnd x ∧ ops.avlStart x < c := fun x hx =>
    (mem_window.mp (hF ▸ hx)).2
  have hbmem : ∀ x ∈ B, c ≤ ops.avlStart x := fun x hx => (mem_above.mp (hB ▸ hx)).2
  have hsep : AvlSeparated ops (A ++ (F ++ B)) := hsplit ▸ h
  obtain ⟨-, hfB, -⟩ := separated_append.mp hsep
  obtain ⟨hfsep, hbsep, -⟩ := separated_append.mp hfB
  have hfirst : avl64Findadjacent ops t a .succeed =
      (F ++ B).find? fun x => decide (a < ops.avlEnd x) := by
    rw [avl64Findadjacent_succeed h, hsplit, find?_append, find?_none_of_end_le hamem, none_or]
  constructor
  · rintro rfl
    rw [avl64Findranges, hfirst, nil_append]
    cases hfind : B.find? fun x => decide (a < ops.avlEnd x) with
    | none => rfl
    | some np => simp [hbmem np (mem_of_find?_eq_some hfind)]
  · intro hne
    obtain ⟨f, F', rfl⟩ := exists_cons_of_ne_nil hne
    obtain ⟨g, hg⟩ : ∃ g, (f :: F').getLast? = some g :=
      ⟨_, getLast?_eq_some_getLast (by simp)⟩
    have hf := hfmem f (by simp)
    refine ⟨f, g, ?_, ?_⟩
    · have hfA : f ∉ A := fun hx => absurd (hamem f hx) (not_le.mpr hf.1)
      have hnext : avlNextino (inorder t) f = (F' ++ B).head? := by
        rw [hsplit, cons_append, avlNextino_append hfA]
      rw [avl64Findranges, hfirst, cons_append, find?_cons_of_pos (by simpa using hf.1)]
      simp only [if_neg (not_le.mpr hf.2), hnext]
      cases F' with
      | nil =>
        obtain rfl : f = g := by simpa using hg
        cases B with
        | nil => simp
        | cons b B => simp [hbmem b (by simp)]
      | cons f' F' =>
        have hf' := hfmem f' (by simp)
        have hff' := (separated_cons.mp hfsep).2.1 f' (by simp)
        have hlast : avl64Findadjacent ops t (c - 1) .preceed = some g := by
          rw [avl64Findadjacent_preceed h, hsplit, reverse_append, reverse_append,
            append_assoc, find?_append]
          have hbnone : B.reverse.find? (fun x => decide (ops.avlStart x ≤ c - 1)) = none := by
            refine find?_eq_none.mpr fun x hx => ?_
            have := hbmem x (mem_reverse.mp hx)
            simp only [decide_eq_true_eq, not_le]
            omega
          obtain ⟨G, hG⟩ := getLast?_eq_some_iff.mp hg
          have hgc := hfmem g (by rw [hG]; simp)
          rw [hbnone, none_or, hG, reverse_append, reverse_singleton,
            singleton_append, cons_append, find?_cons_of_pos]
          simp only [decide_eq_true_eq]
          omega
        have hnot : ¬ c ≤ ops.avlEnd f := by omega
        simp [hlast, hnot, hf'.2]
    · rw [hsplit]
      exact avlRange_append (hsplit ▸ h.nodup) hg

end Search

section Edits

variable {α : Type} {ops : Avl64Ops α} {bal : Avl64Balance α} {t : BinaryTree α} {A B : List α}
  {x y new : α}

theorem avl64Insert_some (ht : inorder t = A ++ B)
    (hA : ∀ x ∈ A, ops.avlEnd x ≤ ops.avlStart new ∧ ops.avlStart x < ops.avlEnd new)
    (hB : ∀ x ∈ B, ops.avlEnd new ≤ ops.avlStart x) :
    ∃ t', avl64Insert ops bal t new = some t' ∧ inorder t' = A ++ new :: B := by
  obtain ⟨t', hgrow, hin⟩ : ∃ t', avl64InsertGrow ops new t = some t' ∧
      inorder t' = A ++ new :: B := by
    induction t generalizing A B with
    | nil =>
      obtain ⟨rfl, rfl⟩ := append_eq_nil_iff.mp ht.symm
      exact ⟨_, rfl, rfl⟩
    | node np back forw ihb ihf =>
      rw [avl64InsertGrow]
      rcases append_eq_append_iff.mp ht with ⟨A', hA', hB'⟩ | ⟨B', hA', hB'⟩
      · cases A' with
        | nil =>
          -- the new node comes right before this one
          have hnp : np ∈ B := by rw [← nil_append B, ← hB']; simp
          obtain ⟨t', h1, h2⟩ := ihb (B := []) (by simp [hA']) hA (by simp)
          refine ⟨.node np t' forw, by rw [if_pos (hB np hnp), h1]; rfl, ?_⟩
          rw [inorder, h2, hB', append_assoc]
          rfl
        | cons z A' =>
          obtain ⟨rfl, hforw⟩ := List.cons.inj hB'
          obtain ⟨h1, h2⟩ := hA np (by rw [hA']; simp)
          obtain ⟨t', h3, h4⟩ := ihf hforw (fun x hx => hA x (by rw [hA']; simp [hx])) hB
          refine ⟨.node np back t', by rw [if_neg (not_le.mpr h2), if_pos h1, h3]; rfl, ?_⟩
          rw [inorder, h4, hA', append_assoc]
          rfl
      · have hnp : np ∈ B := by rw [hB']; simp
        obtain ⟨t', h1, h2⟩ := ihb hA' hA (fun x hx => hB x (by rw [hB']; simp [hx]))
        refine ⟨.node np t' forw, by rw [if_pos (hB np hnp), h1]; rfl, ?_⟩
        rw [inorder, h2, hB', append_assoc]
        rfl
  exact ⟨bal.run t', by rw [avl64Insert, hgrow]; rfl, by rw [bal.inorder_run, hin]⟩

theorem avl64Insert_none (h : AvlSeparated ops (inorder t)) (hy : y ∈ inorder t)
    (h1 : ops.avlStart y < ops.avlEnd new) (h2 : ops.avlStart new < ops.avlEnd y) :
    avl64Insert ops bal t new = none := by
  suffices hgrow : avl64InsertGrow ops new t = none by rw [avl64Insert, hgrow]; rfl
  induction t with
  | nil => exact absurd hy not_mem_nil
  | node np back forw ihb ihf =>
    obtain ⟨hb, hcons, hleft⟩ := separated_append.mp h
    obtain ⟨hnp, hright, hf⟩ := separated_cons.mp hcons
    rw [avl64InsertGrow]
    by_cases hback : ops.avlEnd new ≤ ops.avlStart np
    · -- the old range starts before this node
      have hmem : y ∈ inorder back := by
        rcases mem_append.mp hy with hy | hy
        · exact hy
        · exfalso
          rcases mem_cons.mp hy with rfl | hy
          · omega
          · have := hright y hy
            omega
      rw [if_pos hback, ihb hb hmem]
      rfl
    · rw [if_neg hback]
      by_cases hforw : ops.avlEnd np ≤ ops.avlStart new
      · have hmem : y ∈ inorder forw := by
          rcases mem_append.mp hy with hy | hy
          · have := hleft y hy np mem_cons_self
            omega
          · rcases mem_cons.mp hy with rfl | hy
            · omega
            · exact hy
        rw [if_pos hforw, ihf hf hmem]
        rfl
      · rw [if_neg hforw]

theorem inorder_avlTakeLast (back : BinaryTree α) (np : α) (forw : BinaryTree α) :
    inorder (avlTakeLast back np forw).1 ++ [(avlTakeLast back np forw).2] =
      inorder back ++ np :: inorder forw := by
  induction forw generalizing back np with
  | nil => rfl
  | node fp fback fforw _ ihf =>
    rw [avlTakeLast]
    simp only [inorder, append_assoc, cons_append]
    rw [ihf]

theorem inorder_avlJoin (back forw : BinaryTree α) :
    inorder (avlJoin back forw) = inorder back ++ inorder forw := by
  cases forw with
  | nil => cases back <;> simp [avlJoin, inorder]
  | node fp fback fforw =>
    cases back with
    | nil => rfl
    | node bp bback bforw =>
      simp only [avlJoin, inorder]
      rw [← singleton_append, ← append_assoc, inorder_avlTakeLast]

theorem inorder_map {β : Type} (f : α → β) (t : BinaryTree α) :
    inorder (t.map f) = (inorder t).map f := by
  induction t with
  | nil => rfl
  | node np back forw ihb ihf => simp [BinaryTree.map, inorder, ihb, ihf]

variable [DecidableEq α]

theorem inorder_avlRemove (h : (inorder t).Nodup) :
    inorder (avlRemove x t) = (inorder t).filter fun y => decide (y ≠ x) := by
  induction t with
  | nil => rfl
  | node np back forw ihb ihf =>
    obtain ⟨hb, hcons, hdisj⟩ := nodup_append.mp h
    obtain ⟨hnp, hf⟩ := nodup_cons.mp hcons
    rw [avlRemove, inorder, filter_append, ← ihb hb, filter_cons, ← ihf hf]
    by_cases hx : np = x
    · have hback : inorder (avlRemove x back) = inorder back := by
        rw [ihb hb, filter_eq_self]
        intro y hy
        simpa using fun he : y = x => hdisj y hy np mem_cons_self (he.trans hx.symm)
      have hforw : inorder (avlRemove x forw) = inorder forw := by
        rw [ihf hf, filter_eq_self]
        intro y hy
        simpa using fun he : y = x => hnp (by rw [hx, ← he]; exact hy)
      rw [if_pos hx, inorder_avlJoin, hforw]
      simp [hback, hx]
    · simp [hx, inorder]

theorem inorder_avl64Delete (h : (inorder t).Nodup) (ht : inorder t = A ++ x :: B) :
    inorder (avl64Delete bal t x) = A ++ B := by
  rw [avl64Delete, bal.inorder_run, inorder_avlRemove h]
  rw [ht] at h ⊢
  obtain ⟨-, hcons, hdisj⟩ := nodup_append.mp h
  obtain ⟨hxB, -⟩ := nodup_cons.mp hcons
  rw [filter_append, filter_cons]
  have hA : A.filter (fun y => decide (y ≠ x)) = A := filter_eq_self.mpr fun y hy => by
    simpa using fun he : y = x => hdisj y hy x mem_cons_self he
  have hB : B.filter (fun y => decide (y ≠ x)) = B := filter_eq_self.mpr fun y hy => by
    simpa using fun he : y = x => hxB (he ▸ hy)
  rw [hA, hB]
  simp

theorem inorder_avlModify (h : (inorder t).Nodup) (ht : inorder t = A ++ x :: B) :
    inorder (avlModify t x new) = A ++ new :: B := by
  rw [avlModify, inorder_map]
  rw [ht] at h ⊢
  obtain ⟨-, hcons, hdisj⟩ := nodup_append.mp h
  obtain ⟨hxB, -⟩ := nodup_cons.mp hcons
  rw [map_append, map_cons, if_pos rfl]
  congr 1
  · refine (map_congr_left fun y hy => ?_).trans (map_id A)
    exact if_neg fun he : y = x => hdisj y hy x mem_cons_self he
  · congr 1
    refine (map_congr_left fun y hy => ?_).trans (map_id B)
    exact if_neg fun he : y = x => hxB (he ▸ hy)

end Edits

end Xfs
