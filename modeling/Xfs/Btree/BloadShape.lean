import Xfs.Btree.BloadTree

/-! The tree that the loaded levels make: its blocks level by level from the
root, the records below each block, and the keys that stand for them. -/
namespace Xfs

open List

variable {R K α : Type}

def BlockLoc.ptr? : BlockLoc → Option Nat
  | .buf ptr => some ptr
  | .iroot => none

def btreeChildren (store : BtreeStore R K) (locs : List BlockLoc) : List BlockLoc :=
  locs.flatMap fun loc => (((store.get loc).map BtreeBlock.ptrs).getD []).map .buf

def btreeDescend (store : BtreeStore R K) : Nat → List BlockLoc → List BlockLoc
  | 0, locs => locs
  | n + 1, locs => btreeDescend store n (btreeChildren store locs)

theorem splitLengths_map {β : Type} (f : α → β) (ns : List Nat) (l : List α) :
    ns.splitLengths (l.map f) = (ns.splitLengths l).map (List.map f) := by
  induction ns generalizing l with
  | nil => rfl
  | cons n ns ih => simp [ih, map_take, ← map_drop]

theorem mem_splitLengths {ns : List Nat} {l gs : List α} (hsum : ns.sum = l.length)
    (h : gs ∈ ns.splitLengths l) : gs.length ∈ ns ∧ ∀ x ∈ gs, x ∈ l := by
  constructor
  · rw [← map_splitLengths_length l ns hsum.le]
    exact mem_map_of_mem h
  · intro x hx
    rw [← flatten_splitLengths l ns hsum.ge]
    exact mem_flatten_of_mem h hx

section Shape

variable [LinearOrder K] {I : BloadInput R K} {level : Nat} {store : BtreeStore R K}

def BloadInput.locsAt (I : BloadInput R K) (level : Nat) : List BlockLoc :=
  if I.atIroot level then [.iroot] else (I.ptrsAt level).map .buf

def leftLoc (locs : List BlockLoc) (j : Nat) : Option Nat :=
  if j = 0 then none else locs[j - 1]?.bind BlockLoc.ptr?

def rightLoc (locs : List BlockLoc) (j : Nat) : Option Nat := locs[j + 1]?.bind BlockLoc.ptr?

theorem locsAt_get (h : I.LevelLoaded store level) :
    (I.contentsAt level).length = (I.locsAt level).length ∧
      ∀ (j : Nat) (loc : BlockLoc) (c : BlockContent R K), (I.locsAt level)[j]? = some loc →
      (I.contentsAt level)[j]? = some c →
        store.get loc = some (c.block level (leftLoc (I.locsAt level) j)
          (rightLoc (I.locsAt level) j)) := by
  unfold BloadInput.LevelLoaded at h
  unfold BloadInput.locsAt
  split_ifs at h ⊢ with hroot
  · obtain ⟨c, hc, hiroot⟩ := h
    refine ⟨by simp [hc], fun j loc d hloc hd => ?_⟩
    cases j with
    | zero =>
      obtain rfl : BlockLoc.iroot = loc := by simpa using hloc
      obtain rfl : c = d := by simpa [hc] using hd
      exact hiroot
    | succ j => simp at hloc
  · refine ⟨by simp [h.length_eq], fun j loc c hloc hc => ?_⟩
    rw [getElem?_map, Option.map_eq_some_iff] at hloc
    obtain ⟨p, hp, rfl⟩ := hloc
    have hget := h.block hp hc
    have hleft : leftLoc ((I.ptrsAt level).map .buf) j = prevOf (I.ptrsAt level) j := by
      unfold leftLoc prevOf
      split_ifs
      · rfl
      · rw [getElem?_map]
        cases (I.ptrsAt level)[j - 1]? <;> rfl
    have hright : rightLoc ((I.ptrsAt level).map .buf) j = (I.ptrsAt level)[j + 1]? := by
      rw [rightLoc, getElem?_map]
      cases (I.ptrsAt level)[j + 1]? <;> rfl
    rw [hleft, hright]
    exact hget

theorem map_locsAt (h : I.LevelLoaded store level) (f : Option (BtreeBlock R K) → α)
    (f' : BlockContent R K → α) (hf : ∀ c left right, f (some (c.block level left right)) = f' c) :
    (I.locsAt level).map (fun loc => f (store.get loc)) = (I.contentsAt level).map f' := by
  obtain ⟨hlen, hget⟩ := locsAt_get h
  refine ext_getElem? fun j => ?_
  rw [getElem?_map, getElem?_map]
  rcases lt_or_ge j (I.locsAt level).length with hj | hj
  · have hj' : j < (I.contentsAt level).length := by omega
    rw [getElem?_eq_getElem hj, getElem?_eq_getElem hj', Option.map_some, Option.map_some,
      hget j _ _ (getElem?_eq_getElem hj) (getElem?_eq_getElem hj'), hf]
  · rw [getElem?_eq_none hj, getElem?_eq_none (by omega)]
    rfl

variable (hI : BloadReady I) {st : BloadState R K} (hst : I.LoadedBelow I.height st)
include hI hst

omit hI in
theorem length_contentsAt (h : level < I.height) :
    (I.contentsAt level).length = (I.locsAt level).length :=
  (locsAt_get (hst.loaded level h)).1

theorem entriesAt_unzip (h : level + 1 < I.height) :
    (I.entriesAt level).map Prod.fst = I.ptrsAt level ∧
      (I.entriesAt level).map Prod.snd = (I.contentsAt level).map (I.contentKeys level) ∧
      (I.entriesAt level).length = I.items (level + 1) := by
  have hblock : I.atIroot level = false := BloadReady.atIroot_of_lt h
  have hlen : (I.contentsAt level).length = (I.ptrsAt level).length := by
    rw [length_contentsAt hst (by omega), BloadInput.locsAt, hblock, if_neg Bool.false_ne_true,
      length_map]
  refine ⟨map_fst_zip (by simp [hlen]), map_snd_zip (by simp [hlen]), ?_⟩
  rw [BloadInput.entriesAt, length_zip, length_map, hlen, Nat.min_self,
    hI.length_ptrsAt (by omega), BloadInput.claimedAt, hblock, if_neg Bool.false_ne_true,
    hI.below level h]

omit hI hst in
theorem contentsAt_succ (level : Nat) : I.contentsAt (level + 1) =
      ((I.loadsAt (level + 1)).splitLengths (I.entriesAt level)).map nodeContent := rfl

omit hI hst [LinearOrder K] in
theorem sum_loadsAt (level : Nat) : (I.loadsAt level).sum = I.items level :=
  EvenSplit.sum_loads bloadBlocks_pos

theorem btreeChildren_locsAt (h : level + 1 < I.height) :
    btreeChildren st.store (I.locsAt (level + 1)) = I.locsAt level := by
  obtain ⟨hfst, -, hlen⟩ := entriesAt_unzip hI hst h
  have hblock : I.atIroot level = false := BloadReady.atIroot_of_lt h
  have hmap := map_locsAt (hst.loaded (level + 1) h)
    (fun b => ((b.map BtreeBlock.ptrs).getD []).map BlockLoc.buf)
    (fun c => c.ptrs.map BlockLoc.buf) (fun _ _ _ => rfl)
  rw [btreeChildren, flatMap_def, hmap, contentsAt_succ, map_map]
  have hptrs : ((fun c : BlockContent R K => c.ptrs.map BlockLoc.buf) ∘ nodeContent) =
      List.map (fun e : Nat × BtreeKey K => BlockLoc.buf e.1) := by
    funext es
    simp [nodeContent]
  have hflat := flatten_splitLengths (I.entriesAt level) (I.loadsAt (level + 1))
    (by rw [sum_loadsAt, hlen])
  rw [hptrs, ← map_flatten, hflat, BloadInput.locsAt, hblock, if_neg Bool.false_ne_true,
    ← hfst, map_map]
  rfl

theorem btreeDescend_locsAt {n : Nat} (h : level + n < I.height) :
    btreeDescend st.store n (I.locsAt (level + n)) = I.locsAt level := by
  induction n with
  | zero => rfl
  | succ n ih =>
    have hnext : level + n + 1 < I.height := h
    rw [btreeDescend, ← add_assoc, btreeChildren_locsAt hI hst hnext]
    exact ih (by omega)

omit hI in
theorem btreeRecs_leaves (h : 0 < I.height) : (I.locsAt 0).map (btreeRecs st.store 0) =
      (I.loadsAt 0).splitLengths (I.stream.take I.bbl.nrRecords) := by
  have hmap := map_locsAt (hst.loaded 0 h) (fun b => (b.map BtreeBlock.recs).getD [])
    BlockContent.recs (fun _ _ _ => rfl)
  change (I.locsAt 0).map (fun loc => ((st.store.get loc).map BtreeBlock.recs).getD []) = _
  rw [hmap, BloadInput.contentsAt, map_map]
  exact map_id _

theorem btreeRecs_nodes (h : level + 1 < I.height) :
    (I.locsAt (level + 1)).map (btreeRecs st.store (level + 1)) =
      ((I.loadsAt (level + 1)).splitLengths ((I.locsAt level).map (btreeRecs st.store level))).map
        List.flatten := by
  obtain ⟨hfst, -, -⟩ := entriesAt_unzip hI hst h
  have hblock : I.atIroot level = false := BloadReady.atIroot_of_lt h
  have hmap := map_locsAt (hst.loaded (level + 1) h)
    (fun b => ((b.map BtreeBlock.ptrs).getD []).flatMap fun ptr => btreeRecs st.store level (.buf ptr))
    (fun c => c.ptrs.flatMap fun ptr => btreeRecs st.store level (.buf ptr)) (fun _ _ _ => rfl)
  change (I.locsAt (level + 1)).map (fun loc => (((st.store.get loc).map BtreeBlock.ptrs).getD
    []).flatMap fun ptr => btreeRecs st.store level (.buf ptr)) = _
  rw [hmap, contentsAt_succ, map_map, BloadInput.locsAt, hblock,
    if_neg Bool.false_ne_true, ← hfst, map_map, map_map, splitLengths_map, map_map]
  refine map_congr_left fun es _ => ?_
  change ((es.map Prod.fst).flatMap fun ptr => btreeRecs st.store level (.buf ptr)) = _
  rw [flatMap_def, map_map]
  rfl

theorem btreeRecs_flatten (h : level < I.height) :
    ((I.locsAt level).map (btreeRecs st.store level)).flatten = I.stream.take I.bbl.nrRecords := by
  induction level with
  | zero =>
    rw [btreeRecs_leaves hst h]
    refine flatten_splitLengths _ _ ?_
    rw [sum_loadsAt, length_take]
    exact min_le_left _ _
  | succ level ih =>
    obtain ⟨hfst, -, hlen⟩ := entriesAt_unzip hI hst h
    have hblock : I.atIroot level = false := BloadReady.atIroot_of_lt h
    rw [btreeRecs_nodes hI hst h, ← flatten_flatten, flatten_splitLengths, ih (by omega)]
    rw [sum_loadsAt, ← hlen, length_map, BloadInput.locsAt, hblock, if_neg Bool.false_ne_true,
      ← hfst]
    simp

omit hI hst in
theorem contentKeys_leaf {recs : List R} (hne : recs ≠ []) (hlt : recs.length < 2 ^ 16) :
    I.contentKeys 0 (leafContent recs) = recsKey I.ctx.keys recs :=
  btreeGetLeafKeys_eq hne (Nat.mod_eq_of_lt hlt)

omit hI hst in
theorem contentKeys_node {es : List (Nat × BtreeKey K)} {groups : List (List R)}
    (hkeys : es.map Prod.snd = groups.map (recsKey I.ctx.keys)) (hne : groups ≠ [])
    (hpos : ∀ g ∈ groups, g ≠ []) (hlt : groups.length < 2 ^ 16) :
    I.contentKeys (level + 1) (nodeContent es) = recsKey I.ctx.keys groups.flatten := by
  have hlen : es.length = groups.length := by
    simpa using congrArg List.length hkeys
  have hnum : ((nodeContent es : BlockContent R K).block (level + 1) none none).numrecs =
      groups.length := by
    change es.length % 2 ^ 16 = groups.length
    rw [hlen, Nat.mod_eq_of_lt hlt]
  rw [BloadInput.contentKeys, btreeGetKeys]
  exact (if_neg (Nat.succ_ne_zero level)).trans (btreeGetNodeKeys_eq hkeys hne hpos hnum)

theorem length_groups (h : level + 1 < I.height) :
    (I.loadsAt (level + 1)).sum = ((I.locsAt level).map (btreeRecs st.store level)).length := by
  obtain ⟨hfst, -, hlen⟩ := entriesAt_unzip hI hst h
  have hblock : I.atIroot level = false := BloadReady.atIroot_of_lt h
  rw [sum_loadsAt, ← hlen, length_map, BloadInput.locsAt, hblock, if_neg Bool.false_ne_true,
    ← hfst, length_map, length_map]

theorem contentKeys_eq (hpos : ∀ level < I.height, ∀ n ∈ I.loadsAt level, 0 < n)
    (hlt : ∀ level < I.height, ∀ n ∈ I.loadsAt level, n < 2 ^ 16) (h : level < I.height) :
    (∀ g ∈ (I.locsAt level).map (btreeRecs st.store level), g ≠ []) ∧
      (I.contentsAt level).map (I.contentKeys level) =
        ((I.locsAt level).map (btreeRecs st.store level)).map (recsKey I.ctx.keys) := by
  induction level with
  | zero =>
    have hsum : (I.loadsAt 0).sum = (I.stream.take I.bbl.nrRecords).length := by
      rw [sum_loadsAt, length_take, min_eq_left hI.records]
      rfl
    rw [btreeRecs_leaves hst h]
    have hne' : ∀ g ∈ (I.loadsAt 0).splitLengths (I.stream.take I.bbl.nrRecords), g ≠ [] :=
      fun g hg => ne_nil_of_length_pos (hpos 0 h _ (mem_splitLengths hsum hg).1)
    refine ⟨hne', ?_⟩
    rw [BloadInput.contentsAt, map_map]
    exact map_congr_left fun g hg =>
      contentKeys_leaf (hne' g hg) (hlt 0 h _ (mem_splitLengths hsum hg).1)
  | succ level ih =>
    obtain ⟨hgroups, hkeys⟩ := ih (by omega)
    obtain ⟨-, hsnd, hlen⟩ := entriesAt_unzip hI hst h
    have hsum := length_groups hI hst h
    rw [btreeRecs_nodes hI hst h]
    generalize hgs : (I.locsAt level).map (btreeRecs st.store level) = groups at hgroups hkeys hsum
    have hchunk : ∀ gs ∈ (I.loadsAt (level + 1)).splitLengths groups,
        gs ≠ [] ∧ gs.length < 2 ^ 16 ∧ ∀ g ∈ gs, g ≠ [] := by
      intro gs hmem
      obtain ⟨h1, h2⟩ := mem_splitLengths hsum hmem
      exact ⟨ne_nil_of_length_pos (hpos _ h _ h1), hlt _ h _ h1, fun g hg => hgroups g (h2 g hg)⟩
    constructor
    · intro g hg
      obtain ⟨gs, hmem, rfl⟩ := mem_map.mp hg
      obtain ⟨hne, -, hall⟩ := hchunk gs hmem
      obtain ⟨x, hx⟩ := exists_mem_of_ne_nil gs hne
      obtain ⟨r, hr⟩ := exists_mem_of_ne_nil x (hall x hx)
      exact ne_nil_of_mem (mem_flatten_of_mem hx hr)
    · -- the keys of the entries, cut like the entries, are the keys of the groups, cut alike
      have hcut : ((I.loadsAt (level + 1)).splitLengths (I.entriesAt level)).map (List.map Prod.snd) =
          ((I.loadsAt (level + 1)).splitLengths groups).map (List.map (recsKey I.ctx.keys)) := by
        rw [← splitLengths_map, ← splitLengths_map, hsnd, hkeys]
      rw [contentsAt_succ, map_map, map_map]
      refine ext_getElem? fun j => ?_
      have hj := congrArg (fun l => l[j]?) hcut
      simp only [getElem?_map] at hj ⊢
      cases hes : ((I.loadsAt (level + 1)).splitLengths (I.entriesAt level))[j]? with
      | none =>
        cases hg : ((I.loadsAt (level + 1)).splitLengths groups)[j]? with
        | none => rfl
        | some gs => simp [hes, hg] at hj
      | some es =>
        cases hg : ((I.loadsAt (level + 1)).splitLengths groups)[j]? with
        | none => simp [hes, hg] at hj
        | some gs =>
          obtain ⟨hne, hlt', hall⟩ := hchunk gs (mem_of_getElem? hg)
          simp only [hes, hg, Option.map_some, Option.some.injEq] at hj
          rw [Option.map_some, Option.map_some, Function.comp_apply, Function.comp_apply,
            contentKeys_node hj hne hall hlt']

end Shape

end Xfs
