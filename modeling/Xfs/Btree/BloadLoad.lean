import Mathlib.Data.List.SplitLengths
import Mathlib.Data.List.Nodup
import Xfs.Btree.Bload

/-! What the block loops of the bulk loader leave in the store: one level of
blocks, chained to each other and holding consecutive items. -/
namespace Xfs

open List

variable {R K α : Type} {fill : Nat → BlockLoc → BloadState R K → Except Errno (BloadState R K)}
  {store store' : BtreeStore R K} {ctx : BloadCtx R K} {level p q : Nat} {reserved lower : List Nat}
  {bbl : Bload} {loc : BlockLoc} {ops : BtreeKeyOps R K} {avail : List α → BloadState R K → Prop}
  {items : List α}

structure BlockContent (R K : Type) where
  nr : Nat
  recs : List R
  keys : List (BtreeKey K)
  ptrs : List Nat

def BlockContent.block (c : BlockContent R K) (level : Nat) (left right : Option Nat) :
    BtreeBlock R K :=
  ⟨level, c.nr % 2 ^ 16, left, right, c.recs, c.keys, c.ptrs⟩

def leafContent (recs : List R) : BlockContent R K := ⟨recs.length, recs, [], []⟩

def nodeContent (entries : List (Nat × BtreeKey K)) : BlockContent R K :=
  ⟨entries.length, [], entries.map Prod.snd, entries.map Prod.fst⟩

def prevOf (ps : List Nat) (j : Nat) : Option Nat := if j = 0 then none else ps[j - 1]?

/-- The blocks at `ps` are a chain of siblings of one level with the given
contents. -/
structure LevelOn (store : BtreeStore R K) (level : Nat) (ps : List Nat)
    (cs : List (BlockContent R K)) : Prop where
  length_eq : cs.length = ps.length
  block : ∀ {j : Nat} {p : Nat} {c : BlockContent R K}, ps[j]? = some p → cs[j]? = some c →
    store.bufs p = some (c.block level (prevOf ps j) ps[j + 1]?)

theorem LevelOn.nil (store : BtreeStore R K) (level : Nat) : LevelOn store level [] [] :=
  ⟨rfl, fun h => by simp at h⟩

theorem LevelOn.congr {ps : List Nat} {cs : List (BlockContent R K)} (h : LevelOn store level ps cs)
    (heq : ∀ p ∈ ps, store'.bufs p = store.bufs p) :
    LevelOn store' level ps cs :=
  ⟨h.length_eq, fun hp hc => by rw [heq _ (mem_of_getElem? hp), h.block hp hc]⟩

theorem bufs_set_of_ne {b : BtreeBlock R K} (hne : q ≠ p) :
    (store.set (.buf p) b).bufs q = store.bufs q := by
  simp [BtreeStore.set, hne]

theorem bufs_set_self (store : BtreeStore R K) (p : Nat) (b : BtreeBlock R K) :
    (store.set (.buf p) b).bufs p = some b := by
  simp [BtreeStore.set]

theorem linkBehind_of_ne {ps : List Nat} (hne : ps.getLast? ≠ some q) :
    (linkBehind store (ps.getLast?.map .buf) p).bufs q = store.bufs q := by
  cases hlast : ps.getLast? with
  | none => rfl
  | some l =>
    have hql : q ≠ l := fun h => hne (by rw [hlast, h])
    simp only [linkBehind, Option.map_some, BtreeStore.modify]
    cases store.get (.buf l) with
    | none => rfl
    | some b => exact bufs_set_of_ne hql

theorem linkBehind_last {ps : List Nat} {l : Nat} {b : BtreeBlock R K}
    (hlast : ps.getLast? = some l) (hget : store.bufs l = some b) :
    (linkBehind store (ps.getLast?.map .buf) p).bufs l = some { b with rightsib := some p } := by
  simp [linkBehind, hlast, BtreeStore.modify, BtreeStore.get, BtreeStore.set, hget]

theorem LevelOn.snoc {ps : List Nat} {cs : List (BlockContent R K)} {c : BlockContent R K}
    (h : LevelOn store level ps cs) (hnodup : (ps ++ [p]).Nodup) :
    LevelOn ((linkBehind store (ps.getLast?.map .buf) p).set (.buf p)
      (c.block level ps.getLast? none)) level (ps ++ [p]) (cs ++ [c]) := by
  have hlen := h.length_eq
  have hnew : p ∉ ps := by
    rw [nodup_append] at hnodup
    exact fun hp => hnodup.2.2 p hp p (by simp) rfl
  refine ⟨by simp [hlen], fun {j q d} hq hd => ?_⟩
  rcases lt_trichotomy j ps.length with hj | rfl | hj
  · rw [getElem?_append_left hj] at hq
    rw [getElem?_append_left (by omega)] at hd
    have hqp : q ≠ p := fun he => hnew (he ▸ mem_of_getElem? hq)
    have hold := h.block hq hd
    have hprev : prevOf (ps ++ [p]) j = prevOf ps j := by
      unfold prevOf
      split_ifs with h0
      · rfl
      · rw [getElem?_append_left (by omega)]
    rw [bufs_set_of_ne hqp, hprev]
    rcases Nat.eq_or_lt_of_le hj with hlast | hlt
    · -- the old last block, whose right sibling is new
      have hget : ps.getLast? = some q := by
        rw [getLast?_eq_getElem?, ← hlast]
        exact hq
      rw [linkBehind_last hget hold, getElem?_append_right (by omega)]
      simp [BlockContent.block, ← hlast]
    have hget : ps.getLast? ≠ some q := by
      rw [getLast?_eq_getElem?]
      intro he
      have hps : ps.Nodup := (nodup_append.mp hnodup).1
      have hjl : j = ps.length - 1 :=
        (getElem?_inj hj hps).mp (hq.trans he.symm)
      omega
    rw [linkBehind_of_ne hget, hold, getElem?_append_left hlt]
  · have hqp : q = p := by simpa using hq.symm
    have hdc : d = c := by
      rw [← hlen] at hd
      simpa using hd.symm
    subst hqp hdc
    have hprev : prevOf (ps ++ [q]) ps.length = ps.getLast? := by
      unfold prevOf
      rw [getLast?_eq_getElem?]
      split_ifs with h0
      · rw [length_eq_zero_iff.mp h0]
        rfl
      · rw [getElem?_append_left (by omega)]
    rw [bufs_set_self, hprev]
    simp
  · rw [getElem?_eq_none (by simp; omega)] at hq
    cases hq

def BloadState.queued (st : BloadState R K) : List Nat :=
  st.written ++ st.buffers ++ st.bp.toList

theorem bloadDropBuf_eq (bbl : Bload) (st : BloadState R K) :
    (bloadDropBuf bbl st).store = st.store ∧ (bloadDropBuf bbl st).stream = st.stream ∧
      (bloadDropBuf bbl st).reserved = st.reserved ∧
      (bloadDropBuf bbl st).childPtr = st.childPtr ∧ (bloadDropBuf bbl st).ptr = st.ptr ∧
      (bloadDropBuf bbl st).bp = none ∧ (bloadDropBuf bbl st).queued = st.queued := by
  unfold bloadDropBuf
  cases hbp : st.bp with
  | none => simp [hbp]
  | some bp =>
    simp only
    split_ifs <;> simp [bufDelwriSubmit, BloadState.queued, hbp]

/-- The parts of the loader's state that filling a block does not touch. -/
structure SameCursor (st st' : BloadState R K) : Prop where
  reserved : st'.reserved = st.reserved
  ptr : st'.ptr = st.ptr
  block : st'.block = st.block
  queued : st'.queued = st.queued

theorem SameCursor.refl (st : BloadState R K) : SameCursor st st := ⟨rfl, rfl, rfl, rfl⟩

/-- Filling a block moves the next items into it. `lower` are the blocks it reads. -/
structure FillSpec {α : Type} (fill : Nat → BlockLoc → BloadState R K → Except Errno (BloadState R K))
    (lower : List Nat) (avail : List α → BloadState R K → Prop)
    (put : List α → BlockContent R K) : Prop where
  nr : ∀ items, (put items).nr = items.length
  frame : ∀ {items : List α} {st st' : BloadState R K}, avail items st →
    (∀ q ∈ lower, st'.store.bufs q = st.store.bufs q) → st'.stream = st.stream →
    st'.childPtr = st.childPtr → avail items st'
  run : ∀ {items rest : List α} {st : BloadState R K} {loc : BlockLoc} {level : Nat}
    {left : Option Nat}, avail (items ++ rest) st → (∀ q ∈ lower, loc ≠ .buf q) →
    st.store.get loc = some { btreeInitBlock level items.length with leftsib := left } →
    ∃ st', fill items.length loc st = .ok st' ∧ avail rest st' ∧ SameCursor st st' ∧
      st'.store = st.store.set loc ((put items).block level left none)

theorem bloadPrepBlock_spec {n : Nat} {st : BloadState R K}
    (hroot : btreeAtIroot ctx.geom bbl.btreeHeight level = false)
    (hres : st.reserved = p :: reserved) :
    ∃ st', bloadPrepBlock ctx bbl level n st = .ok (st', .buf p) ∧
      st'.store = (linkBehind st.store st.block p).set (.buf p)
        { btreeInitBlock level n with leftsib := st.ptr } ∧
      st'.stream = st.stream ∧ st'.childPtr = st.childPtr ∧ st'.reserved = reserved ∧
      st'.ptr = some p ∧ st'.block = some (.buf p) ∧ st'.queued = st.queued ++ [p] := by
  obtain ⟨h1, h2, h3, h4, h5, h6, h7⟩ := bloadDropBuf_eq bbl
    { st with store := linkBehind st.store st.block p, reserved := reserved }
  simp only [bloadPrepBlock, hroot, hres, Bool.false_eq_true, if_false]
  refine ⟨_, rfl, ?_, h2, h4, h3, rfl, rfl, ?_⟩
  · simp only [h1, h5]
  · simp only [BloadState.queued, h6, Option.toList_none, append_nil] at h7
    simp [BloadState.queued, h7]

theorem bloadLevel_step {put : List α → BlockContent R K} {ps : List Nat}
    {cs : List (BlockContent R K)} {st : BloadState R K} (items rest : List α)
    (hfill : FillSpec fill lower avail put)
    (hroot : btreeAtIroot ctx.geom bbl.btreeHeight level = false)
    (hlevel : LevelOn st.store level ps cs) (hnodup : (ps ++ [p]).Nodup)
    (hlower : ∀ q ∈ lower, q ∉ ps ++ [p]) (hres : st.reserved = p :: reserved)
    (hptr : st.ptr = ps.getLast?) (hblock : st.block = ps.getLast?.map .buf)
    (havail : avail (items ++ rest) st) :
    ∃ mid st', bloadPrepBlock ctx bbl level items.length st = .ok (mid, .buf p) ∧
      fill items.length (.buf p) mid = .ok st' ∧ avail rest st' ∧
      LevelOn st'.store level (ps ++ [p]) (cs ++ [put items]) ∧ st'.reserved = reserved ∧
      st'.ptr = some p ∧ st'.block = some (.buf p) ∧ st'.queued = st.queued ++ [p] ∧
      ∀ q, q ∉ ps ++ [p] → st'.store.bufs q = st.store.bufs q := by
  obtain ⟨mid, hprep, hstore, hstream, hchild, hres', hptr', hblock', hqueued⟩ :=
    bloadPrepBlock_spec hroot hres
  rw [hblock, hptr] at hstore
  have hframe : ∀ q, q ∉ ps ++ [p] → mid.store.bufs q = st.store.bufs q := by
    intro q hq
    simp only [mem_append, mem_singleton, not_or] at hq
    rw [hstore, bufs_set_of_ne hq.2]
    exact linkBehind_of_ne fun h => hq.1 (mem_of_getLast? h)
  have hget : mid.store.get (.buf p) =
      some { btreeInitBlock level items.length with leftsib := ps.getLast? } := by
    rw [hstore]
    exact bufs_set_self _ _ _
  have havail' := hfill.frame havail (fun q hq => hframe q (hlower q hq)) hstream hchild
  obtain ⟨st', hrun, hrest, hsame, hstore'⟩ := hfill.run havail'
    (fun q hq he => hlower q hq (by rw [BlockLoc.buf.inj he]; simp)) hget
  have hset : st'.store = (linkBehind st.store (ps.getLast?.map .buf) p).set (.buf p)
      ((put items).block level ps.getLast? none) := by
    rw [hstore', hstore, BtreeStore.set_set]
  refine ⟨mid, st', hprep, hrun, hrest, ?_, hsame.reserved.trans hres', hsame.ptr.trans hptr',
    hsame.block.trans hblock', hsame.queued.trans hqueued, fun q hq => ?_⟩
  · rw [hset]
    exact hlevel.snoc hnodup
  · simp only [mem_append, mem_singleton, not_or] at hq
    rw [hset, bufs_set_of_ne hq.2]
    exact linkBehind_of_ne fun h => hq.1 (mem_of_getLast? h)

theorem bloadLevel_spec {put : List α → BlockContent R K} (hfill : FillSpec fill lower avail put)
    (hroot : btreeAtIroot ctx.geom bbl.btreeHeight level = false) {loads : List Nat}
    {ps new : List Nat} {cs : List (BlockContent R K)} {st : BloadState R K} (i : Nat)
    (first : Option Nat) (hlevel : LevelOn st.store level ps cs) (hnodup : (ps ++ new).Nodup)
    (hlower : ∀ q ∈ lower, q ∉ ps ++ new) (hlen : new.length = loads.length)
    (hres : st.reserved = new ++ reserved) (hptr : st.ptr = ps.getLast?)
    (hblock : st.block = ps.getLast?.map .buf) (havail : avail items st)
    (hsum : loads.sum = items.length) :
    ∃ st' first', bloadLevel ctx bbl level fill loads i first st = .ok (st', first') ∧
      (i ≠ 0 → first' = first) ∧ (i = 0 → loads ≠ [] → first' = new.head?) ∧ avail [] st' ∧
      LevelOn st'.store level (ps ++ new) (cs ++ (loads.splitLengths items).map put) ∧
      st'.reserved = reserved ∧ st'.ptr = (ps ++ new).getLast? ∧
      st'.queued = st.queued ++ new ∧
      ∀ q, q ∉ ps ++ new → st'.store.bufs q = st.store.bufs q := by
  induction loads generalizing items ps new cs st i first with
  | nil =>
    obtain rfl : new = [] := length_eq_zero_iff.mp (by simpa using hlen)
    obtain rfl : items = [] := length_eq_zero_iff.mp (by simpa using hsum.symm)
    refine ⟨st, first, rfl, fun _ => rfl, fun _ h => absurd rfl h, havail, ?_, ?_⟩
    · simpa using hlevel
    · simpa using ⟨hres, hptr⟩
  | cons n loads ih =>
    obtain ⟨p, new, rfl⟩ : ∃ p new', new = p :: new' := by
      cases new with
      | nil => simp at hlen
      | cons p new => exact ⟨p, new, rfl⟩
    have hn : n ≤ items.length := by
      rw [sum_cons] at hsum
      omega
    have htake : (items.take n).length = n := by simpa using hn
    have hsplit : ps ++ p :: new = (ps ++ [p]) ++ new := by simp
    rw [hsplit] at hnodup hlower ⊢
    obtain ⟨mid, st1, hprep, hfill', havail', hlevel', hres', hptr', hblock', hqueued, hframe⟩ :=
      bloadLevel_step (items.take n) (items.drop n) hfill hroot hlevel
        (nodup_append.mp hnodup).1 (fun q hq h => hlower q hq (mem_append_left _ h))
        hres hptr hblock (by rwa [take_append_drop])
    rw [htake] at hprep hfill'
    have hloads : loads.sum = (items.drop n).length := by
      rw [sum_cons] at hsum
      rw [length_drop]
      omega
    obtain ⟨st', first', hrun, hfirst, -, hrest⟩ := @ih (items.drop n) (ps ++ [p]) new
      (cs ++ [put (items.take n)]) st1 (i + 1) (if i = 0 then st1.ptr else first) hlevel' hnodup
      hlower (by simpa using hlen) hres' (by simp [hptr']) (by simp [hblock']) havail' hloads
    have hstep : bloadLevel ctx bbl level fill (n :: loads) i first st =
        bloadLevel ctx bbl level fill loads (i + 1) (if i = 0 then st1.ptr else first) st1 := by
      simp [bloadLevel, hprep, hfill']
    have hfirst' := hfirst (by omega)
    obtain ⟨hA, hL, hR, hP, hQ, hF⟩ := hrest
    refine ⟨st', first', hstep.trans hrun, fun hi => ?_, fun hi _ => ?_, hA, ?_, hR, hP, ?_, ?_⟩
    · rw [hfirst', if_neg hi]
    · rw [hfirst', if_pos hi, hptr', head?_cons]
    · simpa using hL
    · rw [hQ, hqueued, append_assoc]
      rfl
    · intro q hq
      rw [hF q hq, hframe q fun h => hq (mem_append_left _ h)]

/-- A call of `get_records` hands out some of the records wanted, at least one. -/
def GetsRecords (ctx : BloadCtx R K) : Prop :=
  ∀ (idx wanted : Nat) (stream : List R), 0 < wanted → wanted ≤ stream.length →
    ∃ n, 0 < n ∧ n ≤ wanted ∧ ctx.getRecords idx wanted stream = .ok (stream.take n, stream.drop n)

theorem modify_eq_set {b : BtreeBlock R K} {f : BtreeBlock R K → BtreeBlock R K}
    (hget : store.get loc = some b) :
    store.modify loc f = store.set loc (f b) := by
  simp [BtreeStore.modify, hget]

theorem bloadLeafLoop_spec (hctx : GetsRecords ctx) {recsThisBlock fuel j : Nat}
    {items tail : List R} {st : BloadState R K} {b : BtreeBlock R K}
    (hstream : st.stream = items ++ tail) (hlen : items.length + j = recsThisBlock + 1)
    (hfuel : items.length ≤ fuel) (hget : st.store.get loc = some b) :
    ∃ st', bloadLeafLoop ctx loc recsThisBlock fuel j st = .ok st' ∧ st'.stream = tail ∧
      SameCursor st st' ∧ st'.store = st.store.set loc { b with recs := b.recs ++ items } := by
  induction fuel generalizing j items st b with
  | zero =>
    obtain rfl : items = [] := length_eq_zero_iff.mp (by omega)
    have hj : ¬ j ≤ recsThisBlock := by omega
    refine ⟨st, by rw [bloadLeafLoop, if_neg hj], hstream, .refl st, ?_⟩
    rw [append_nil]
    exact (BtreeStore.set_of_get hget).symm
  | succ fuel ih =>
    by_cases hj : j ≤ recsThisBlock
    · obtain ⟨n, hpos, hle, hcall⟩ := hctx j (recsThisBlock - j + 1) st.stream (by omega)
        (by rw [hstream, length_append]; omega)
      have hn : n ≤ items.length := by omega
      rw [hstream, take_append_of_le_length hn, drop_append_of_le_length hn] at hcall
      have htake : (items.take n).length = n := by simpa using hn
      have hdrop : (items.drop n).length = items.length - n := length_drop
      obtain ⟨st', hrun, hstream', hsame, hstore⟩ := @ih (j + (items.take n).length) (items.drop n)
        { st with
          stream := items.drop n ++ tail
          store := st.store.set loc { b with recs := b.recs ++ items.take n } }
        { b with recs := b.recs ++ items.take n } rfl
        (by omega) (by omega) (BtreeStore.get_set_self _ _ _)
      refine ⟨st', ?_, hstream', ?_, ?_⟩
      · rw [bloadLeafLoop, if_pos hj]
        simp only [hstream, hcall, modify_eq_set hget]
        exact hrun
      · exact ⟨hsame.reserved, hsame.ptr, hsame.block, hsame.queued⟩
      · rw [hstore, BtreeStore.set_set]
        simp
    · obtain rfl : items = [] := length_eq_zero_iff.mp (by omega)
      refine ⟨st, by rw [bloadLeafLoop, if_neg hj], hstream, .refl st, ?_⟩
      rw [append_nil]
      exact (BtreeStore.set_of_get hget).symm

theorem bloadLeaf_fill (hctx : GetsRecords ctx) (tail : List R) :
    FillSpec (bloadLeaf ctx) [] (fun items st => st.stream = items ++ tail) leafContent where
  nr := fun _ => rfl
  frame := fun h _ hs _ => hs.trans h
  run := by
    intro items rest st loc level left hstream _ hget
    obtain ⟨st', hrun, hstream', hsame, hstore⟩ := bloadLeafLoop_spec hctx
      (hstream.trans (append_assoc _ _ _)) (rfl : items.length + 1 = items.length + 1) le_rfl
      hget
    exact ⟨st', hrun, hstream', hsame, hstore⟩

/-- The blocks still to be entered into the level above, with their keys. -/
def ChildChain [LinearOrder K] (ops : BtreeKeyOps R K) (store : BtreeStore R K) :
    List (Nat × BtreeKey K) → Prop
  | [] => True
  | e :: rest =>
    (∃ b, store.bufs e.1 = some b ∧ btreeGetKeys ops b = e.2 ∧
      b.rightsib = rest.head?.map Prod.fst) ∧ ChildChain ops store rest

theorem ChildChain.congr [LinearOrder K] {es : List (Nat × BtreeKey K)}
    (h : ChildChain ops store es) (heq : ∀ e ∈ es, store'.bufs e.1 = store.bufs e.1) :
    ChildChain ops store' es := by
  induction es with
  | nil => trivial
  | cons e es ih =>
    obtain ⟨⟨b, hb, hkeys, hright⟩, hrest⟩ := h
    exact ⟨⟨b, (heq e (by simp)).trans hb, hkeys, hright⟩,
      ih hrest fun e' he' => heq e' (mem_cons_of_mem _ he')⟩

theorem bloadNode_spec [LinearOrder K] {items rest : List (Nat × BtreeKey K)} {st : BloadState R K}
    {b : BtreeBlock R K} (hchain : ChildChain ctx.keys st.store (items ++ rest))
    (hchild : st.childPtr = (items ++ rest).head?.map Prod.fst)
    (hloc : ∀ e ∈ items ++ rest, loc ≠ .buf e.1) (hget : st.store.get loc = some b) :
    ∃ st', bloadNode ctx items.length loc st = .ok st' ∧
      ChildChain ctx.keys st'.store rest ∧ st'.childPtr = rest.head?.map Prod.fst ∧
      SameCursor st st' ∧ st'.stream = st.stream ∧
      st'.store = st.store.set loc { b with
        keys := b.keys ++ items.map Prod.snd
        ptrs := b.ptrs ++ items.map Prod.fst } := by
  induction items generalizing st b with
  | nil =>
    refine ⟨st, rfl, hchain, hchild, .refl st, rfl, ?_⟩
    simp only [map_nil, append_nil]
    exact (BtreeStore.set_of_get hget).symm
  | cons e items ih =>
    obtain ⟨⟨cb, hcb, hkeys, hright⟩, hrest⟩ := hchain
    have hframe : ∀ e' ∈ items ++ rest, (st.store.set loc { b with
        keys := b.keys ++ [e.2], ptrs := b.ptrs ++ [e.1] }).bufs e'.1 = st.store.bufs e'.1 :=
      fun e' he' => BtreeStore.get_set_of_ne (hloc e' (mem_cons_of_mem _ he')).symm
    obtain ⟨st', hrun, hchain', hchild', hsame, hstream, hstore⟩ := @ih { st with
        store := st.store.set loc { b with keys := b.keys ++ [e.2], ptrs := b.ptrs ++ [e.1] }
        childPtr := cb.rightsib }
      { b with keys := b.keys ++ [e.2], ptrs := b.ptrs ++ [e.1] } (hrest.congr hframe) hright
      (fun e' he' => hloc e' (mem_cons_of_mem _ he'))
      (BtreeStore.get_set_self _ _ _)
    refine ⟨st', ?_, hchain', hchild', ⟨hsame.reserved, hsame.ptr, hsame.block, hsame.queued⟩,
      hstream, ?_⟩
    · have hptr : st.childPtr = some e.1 := hchild
      simp only [length_cons, bloadNode, hptr, hcb, modify_eq_set hget, hkeys]
      exact hrun
    · rw [hstore, BtreeStore.set_set]
      simp

theorem bloadNode_fill [LinearOrder K] (ctx : BloadCtx R K) (lower : List Nat) (stream : List R) :
    FillSpec (bloadNode ctx) lower
      (fun (items : List (Nat × BtreeKey K)) st => ChildChain ctx.keys st.store items ∧
        st.childPtr = items.head?.map Prod.fst ∧ (∀ e ∈ items, e.1 ∈ lower) ∧ st.stream = stream)
      nodeContent where
  nr := fun _ => rfl
  frame := fun ⟨h1, h2, h3, h4⟩ heq hs hc =>
    ⟨h1.congr fun e he => heq _ (h3 e he), hc.trans h2, h3, hs.trans h4⟩
  run := by
    rintro items rest st loc level left ⟨h1, h2, h3, h4⟩ hloc hget
    obtain ⟨st', hrun, hchain, hchild, hsame, hstream, hstore⟩ := bloadNode_spec h1 h2
      (fun e he => hloc _ (h3 e he)) hget
    exact ⟨st', hrun, ⟨hchain, hchild, fun e he => h3 e (mem_append_right _ he),
      hstream.trans h4⟩, hsame, hstore⟩

theorem bloadLevel_iroot {put : List α → BlockContent R K} {st : BloadState R K}
    (hfill : FillSpec fill lower avail put)
    (hroot : btreeAtIroot ctx.geom bbl.btreeHeight level) (havail : avail items st)
    (hbp : st.bp = none) :
    ∃ st', bloadLevel ctx bbl level fill [items.length] 0 none st = .ok (st', none) ∧
      avail [] st' ∧ st'.store.iroot = some ((put items).block level none none) ∧
      st'.store.bufs = st.store.bufs ∧ st'.reserved = st.reserved ∧ st'.ptr = none ∧
      st'.queued = st.queued := by
  have havail' : avail (items ++ []) { st with
      store := st.store.set .iroot (btreeInitBlock level items.length)
      ptr := none, bp := none, block := some .iroot } := by
    rw [append_nil]
    exact hfill.frame havail (fun _ _ => rfl) rfl rfl
  have hget : (st.store.set .iroot (btreeInitBlock level items.length)).get .iroot =
      some { btreeInitBlock level items.length with leftsib := none } := rfl
  have hloc : ∀ q ∈ lower, BlockLoc.iroot ≠ .buf q := fun q _ => by simp
  obtain ⟨st', hrun, hrest, hsame, hstore⟩ := hfill.run havail' hloc hget
  refine ⟨st', ?_, hrest, ?_, ?_, hsame.reserved, hsame.ptr, ?_⟩
  · simp [bloadLevel, bloadPrepBlock, hroot, hrun, hsame.ptr]
  · rw [hstore]
    rfl
  · rw [hstore]
    rfl
  · rw [hsame.queued]
    simp [BloadState.queued, hbp]

theorem LevelOn.childChain [LinearOrder K] {ps : List Nat} {cs : List (BlockContent R K)}
    (h : LevelOn store level ps cs) :
    ChildChain ops store (ps.zip (cs.map fun c => btreeGetKeys ops (c.block level none none))) := by
  generalize hes : ps.zip (cs.map fun c => btreeGetKeys ops (c.block level none none)) = es
  have hlen : es.length = ps.length := by simp [← hes, h.length_eq]
  -- from the last block to the first
  have hdrop : ∀ n k, n + k = es.length → ChildChain ops store (es.drop k) := by
    intro n
    induction n with
    | zero =>
      intro k hk
      rw [drop_of_length_le (by omega)]
      trivial
    | succ n ih =>
      intro k hk
      have hkes : k < es.length := by omega
      have hkcs : k < cs.length := by rw [h.length_eq]; omega
      rw [drop_eq_getElem_cons hkes]
      refine ⟨⟨_, h.block (j := k) (c := cs[k]) ?_ ?_, ?_, ?_⟩, ih (k + 1) (by omega)⟩
      · simp only [← hes, getElem_zip]
        exact getElem?_eq_getElem _
      · exact getElem?_eq_getElem _
      · simp only [← hes, getElem_zip, getElem_map]
        rfl
      · rw [head?_drop, ← hes]
        change ps[k + 1]? = _
        rcases lt_or_ge (k + 1) ps.length with hlt | hge
        · have hkcs' : k + 1 < cs.length := by rw [h.length_eq]; omega
          rw [getElem?_eq_getElem hlt, getElem?_eq_getElem (by simp; omega)]
          simp
        · rw [getElem?_eq_none hge, getElem?_eq_none (by simp; omega)]
          rfl
  simpa using hdrop es.length 0 rfl

end Xfs
