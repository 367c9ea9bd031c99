import Xfs.Btree.HasRecordsSpec
import Xfs.Refcount.Records

/-! The scan tells exactly how much of a range of blocks is covered by records. -/
namespace Xfs

open Nat List RecordCursor Sweep

section

variable {R K : Type} [LinearOrder K] {ops : ContigKeyOps R K} {store : BtreeStore R K} {cur : BtreeCur}
  {fuel : Nat} {lowKey highKey : K} {recs : List R}

/-- No block is in two records. -/
def DisjointBlocks (covers : R → Nat → Prop) (recs : List R) : Prop :=
  recs.Pairwise fun r s => ∀ b, ¬ (covers r b ∧ covers s b)

omit [LinearOrder K] in
theorem disjointBlocks_congr {covers covers' : R → Nat → Prop}
    (h : ∀ r ∈ recs, ∀ b, covers r b ↔ covers' r b) :
    DisjointBlocks covers recs ↔ DisjointBlocks covers' recs := by
  refine List.Pairwise.iff_of_mem fun hr hs => forall_congr' fun b => ?_
  rw [h _ hr b, h _ hs b]

structure BlockRecs (ops : ContigKeyOps R K) (recs : List R) : Prop where
  zero : ops.blockOf ops.zeroKey = 0
  mono : ∀ r s, ops.initKeyFromRec r < ops.initKeyFromRec s → ops.lo r ≤ ops.lo s
  le : ∀ r ∈ recs, ops.lo r ≤ ops.hi r
  hi_lt : ∀ r ∈ recs, ops.hi r < 2 ^ 64 - 1

/-- The range of keys is a range of blocks. -/
structure BlockRange (ops : ContigKeyOps R K) (recs : List R) (lowKey highKey : K) : Prop where
  le : lowKey ≤ highKey
  block_le : ops.blockOf lowKey ≤ ops.blockOf highKey
  hit : ∀ r ∈ recs, queryHit ops.toBtreeKeyOps lowKey highKey r = true ↔
    ops.blockOf lowKey ≤ ops.hi r ∧ ops.lo r ≤ ops.blockOf highKey

theorem BlockRecs.meets (h : BlockRecs ops recs) (hord : Ordered ops.initKeyFromRec recs)
    (hrange : BlockRange ops recs lowKey highKey) :
    Meets ops.lo ops.hi (Covers ops.lo ops.hi recs) (ops.blockOf lowKey) (ops.blockOf highKey)
      (recs.filter (queryHit ops.toBtreeKeyOps lowKey highKey)) where
  le := hrange.block_le
  meets r hr := by
    obtain ⟨hmem, hhit⟩ := mem_filter.mp hr
    have hin := (hrange.hit r hmem).mp hhit
    exact ⟨h.le r hmem, hin.2, hin.1⟩
  sorted := (List.Pairwise.sublist filter_sublist hord).imp fun hlt => h.mono _ _ hlt
  covered_iff b hb hb' := by
    constructor
    · rintro ⟨r, hr, hlo, hhi⟩
      exact ⟨r, mem_filter.mpr ⟨hr, (hrange.hit r hr).mpr ⟨by omega, by omega⟩⟩, hlo, hhi⟩
    · rintro ⟨r, hr, hlo, hhi⟩
      exact ⟨r, (mem_filter.mp hr).1, hlo, hhi⟩

theorem DisjointBlocks.lt (h : BlockRecs ops recs) (hord : Ordered ops.initKeyFromRec recs)
    (hdis : DisjointBlocks (fun r b => ops.lo r ≤ b ∧ b ≤ ops.hi r) recs) :
    recs.Pairwise fun r s => ops.hi r < ops.lo s := by
  refine (pairwise_and_iff.mpr ⟨hord, hdis⟩).imp_of_mem fun hr hs hrs => ?_
  obtain ⟨hlt, hno⟩ := hrs
  by_contra hge
  exact hno _ ⟨⟨h.mono _ _ hlt, not_lt.mp hge⟩, le_refl _, h.le _ hs⟩

section

variable (hwf : WfBtree ops.toBtreeKeyOps store cur.root cur.nlevels)
  (hrecs : BlockRecs ops (cur.recs store))
include hwf hrecs

theorem btreeHasRecords_exact (hrange : BlockRange ops (cur.recs store) lowKey highKey)
    (hquery : btreeQueryRange store ops.toBtreeKeyOps fuel cur lowKey highKey (btreeHasRecordsHelper ops) =
      forM ((cur.recs store).filter (queryHit ops.toBtreeKeyOps lowKey highKey))
        (btreeHasRecordsHelper ops))
    (hok : ops.overlapping ∨
      DisjointBlocks (fun r b => ops.lo r ≤ b ∧ b ≤ ops.hi r) (cur.recs store)) :
    ∃ p, btreeHasRecords store ops fuel cur lowKey highKey = .ok p ∧
      Packs (Covers ops.lo ops.hi (cur.recs store)) (ops.blockOf lowKey) (ops.blockOf highKey) p := by
  have hhi : ∀ s ∈ (cur.recs store).filter (queryHit ops.toBtreeKeyOps lowKey highKey),
      ops.hi s < 2 ^ 64 - 1 := fun s hs => hrecs.hi_lt s (mem_filter.mp hs).1
  cases hres : btreeHasRecords store ops fuel cur lowKey highKey with
  | ok p => exact ⟨p, rfl, btreeHasRecords_packs hquery hrecs.zero hhi (hrecs.meets hwf.ordered hrange) hres⟩
  | error e =>
    obtain ⟨hov, xs, y, ys, hsplit, x, hx, hle⟩ := btreeHasRecords_error hquery hrecs.zero hhi hres
    have hdis := hok.resolve_left (by rw [hov]; exact Bool.false_ne_true)
    have hlt := (hdis.lt hrecs hwf.ordered).sublist
      (filter_sublist (p := queryHit ops.toBtreeKeyOps lowKey highKey))
    rw [hsplit] at hlt
    have := (pairwise_append.mp hlt).2.2 x hx y mem_cons_self
    omega

theorem btreeHasRecords_corrupt {e : Errno} (hle : lowKey ≤ highKey) (hov : ops.overlapping = false)
    (hfuel : (cur.recs store).length ≤ fuel)
    (h : btreeHasRecords store ops fuel cur lowKey highKey = .error e) :
    ¬ DisjointBlocks (fun r b => ops.lo r ≤ b ∧ b ≤ ops.hi r) (cur.recs store) := by
  intro hdis
  obtain ⟨calls, hsub, -, hrun⟩ := btreeSimpleQueryRange_calls hwf hfuel lowKey highKey
  have hquery : btreeQueryRange store ops.toBtreeKeyOps fuel cur lowKey highKey (btreeHasRecordsHelper ops) =
      forM calls (btreeHasRecordsHelper ops) := by
    rw [btreeQueryRange, if_neg (not_not.mpr hle), if_neg (by rw [hov]; exact Bool.false_ne_true)]
    exact hrun _
  obtain ⟨-, xs, y, ys, hsplit, x, hx, hle⟩ := btreeHasRecords_error hquery hrecs.zero
    (fun s hs => hrecs.hi_lt s (hsub.subset hs)) h
  have hlt := List.Pairwise.sublist hsub (hdis.lt hrecs hwf.ordered)
  rw [hsplit] at hlt
  have := (pairwise_append.mp hlt).2.2 x hx y mem_cons_self
  omega

end

section Plain

variable {ops : ContigKeyOps R Nat} {store : BtreeStore R Nat} {first last : Nat}

theorem btreeHasRecords_plain (hid : ops.blockOf = id) (hzero : ops.zeroKey = 0)
    (hov : ops.overlapping = false) (hwf : WfBtree ops.toBtreeKeyOps store cur.root cur.nlevels)
    (hspan : ∀ r ∈ cur.recs store, ops.initKeyFromRec r ≤ ops.initHighKeyFromRec r ∧
      ops.initHighKeyFromRec r < 2 ^ 64 - 1)
    (hle : first ≤ last) (hfuel : (cur.recs store).length ≤ fuel) :
    (DisjointBlocks (fun r b => ops.initKeyFromRec r ≤ b ∧ b ≤ ops.initHighKeyFromRec r)
        (cur.recs store) →
      ∃ p, btreeHasRecords store ops fuel cur first last = .ok p ∧
        Packs (Covers ops.initKeyFromRec ops.initHighKeyFromRec (cur.recs store)) first last p) ∧
    ∀ e, btreeHasRecords store ops fuel cur first last = .error e →
      ¬ DisjointBlocks (fun r b => ops.initKeyFromRec r ≤ b ∧ b ≤ ops.initHighKeyFromRec r)
        (cur.recs store) := by
  have hblock : ∀ k, ops.blockOf k = k := fun k => by rw [hid]; rfl
  have hlo : ops.lo = ops.initKeyFromRec := funext fun r => hblock _
  have hhi : ops.hi = ops.initHighKeyFromRec := funext fun r => hblock _
  have hrecs : BlockRecs ops (cur.recs store) :=
    ⟨by rw [hblock, hzero], fun r s hlt => by rw [hlo]; exact le_of_lt hlt,
      fun r hr => by rw [hlo, hhi]; exact (hspan r hr).1, fun r hr => by rw [hhi]; exact (hspan r hr).2⟩
  have hrange : BlockRange ops (cur.recs store) first last :=
    ⟨hle, by rw [hblock, hblock]; exact hle, fun r _ => by
      rw [queryHit, decide_eq_true_eq, hblock, hblock, hlo, hhi]⟩
  rw [← hlo, ← hhi]
  constructor
  · intro hdis
    have hdis' : DisjointRecs ops.toBtreeKeyOps (cur.recs store) := by
      refine ⟨fun r hr => (hspan r hr).1, ?_⟩
      rw [← hlo, ← hhi]
      exact hdis.lt hrecs hwf.ordered
    have hquery : btreeQueryRange store ops.toBtreeKeyOps fuel cur first last (btreeHasRecordsHelper ops) =
        forM ((cur.recs store).filter (queryHit ops.toBtreeKeyOps first last))
          (btreeHasRecordsHelper ops) := by
      rw [btreeQueryRange, if_neg (not_not.mpr hle), if_neg (by rw [hov]; exact Bool.false_ne_true)]
      exact btreeSimpleQueryRange_eq hwf hdis' hfuel
    obtain ⟨p, hres, hpacks⟩ := btreeHasRecords_exact hwf hrecs hrange hquery (.inr hdis)
    rw [hblock, hblock] at hpacks
    exact ⟨p, hres, hpacks⟩
  · exact fun e h => btreeHasRecords_corrupt hwf hrecs hle hov hfuel h

end Plain

end

/-- The scan tells how much of every range of blocks below the limit is covered. -/
def ScansExactly (scan : Nat → Nat → Nat → Except Errno RecPacking) (covered : Nat → Prop)
    (limit : Nat) : Prop :=
  ∃ steps, ∀ fuel, steps ≤ fuel → ∀ bno len, 0 < len → bno + len ≤ limit →
    ∃ p, scan fuel bno len = .ok p ∧ Packs covered bno (bno + len - 1) p

/-- The scan of a range of blocks below the limit fails in one case only. -/
def FailsOnlyIf (scan : Nat → Nat → Nat → Except Errno RecPacking) (limit : Nat) (cause : Prop) : Prop :=
  ∃ steps, ∀ fuel, steps ≤ fuel → ∀ bno len, 0 < len → bno + len ≤ limit →
    ∀ e, scan fuel bno len = .error e → cause

theorem add32_sub32_one {a n : Nat} (hn : 0 < n) (h : a + n ≤ 2 ^ 32) :
    add32 a (sub32 n 1) = a + n - 1 := by
  unfold add32 sub32
  omega

theorem sub32_add32_one {a n : Nat} (hn : 0 < n) (h : a + n ≤ 2 ^ 32) :
    sub32 (add32 a n) 1 = a + n - 1 := by
  unfold add32 sub32
  omega

def FreeRec.Covers (r : FreeRec) (b : Nat) : Prop := r.bno ≤ b ∧ b < r.bno + r.len

section Free

variable {store : BtreeStore FreeRec Nat} {cur : BtreeCur}

theorem bnobt_covers {r : FreeRec} (hfit : 0 < r.len ∧ r.bno + r.len ≤ 2 ^ 32) (b : Nat) :
    r.Covers b ↔ bnobtKeyOps.initKeyFromRec r ≤ b ∧ b ≤ bnobtKeyOps.initHighKeyFromRec r := by
  have hhigh : bnobtKeyOps.initHighKeyFromRec r = r.bno + r.len - 1 := add32_sub32_one hfit.1 hfit.2
  rw [hhigh]
  show r.bno ≤ b ∧ b < r.bno + r.len ↔ r.bno ≤ b ∧ b ≤ r.bno + r.len - 1
  omega

theorem allocHasRecords_spec (hwf : WfBtree bnobtKeyOps.toBtreeKeyOps store cur.root cur.nlevels)
    (hfit : ∀ r ∈ cur.recs store, 0 < r.len ∧ r.bno + r.len ≤ 2 ^ 32) :
    (DisjointBlocks FreeRec.Covers (cur.recs store) →
      ScansExactly (fun fuel => allocHasRecords store fuel cur)
        (fun b => ∃ r ∈ cur.recs store, r.Covers b) (2 ^ 32)) ∧
    FailsOnlyIf (fun fuel => allocHasRecords store fuel cur) (2 ^ 32)
      (¬ DisjointBlocks FreeRec.Covers (cur.recs store)) := by
  have hspan : ∀ r ∈ cur.recs store, bnobtKeyOps.initKeyFromRec r ≤ bnobtKeyOps.initHighKeyFromRec r ∧
      bnobtKeyOps.initHighKeyFromRec r < 2 ^ 64 - 1 := by
    intro r hr
    have hfit' := hfit r hr
    rw [show bnobtKeyOps.initHighKeyFromRec r = r.bno + r.len - 1 from add32_sub32_one hfit'.1 hfit'.2]
    show r.bno ≤ r.bno + r.len - 1 ∧ r.bno + r.len - 1 < 2 ^ 64 - 1
    omega
  rw [disjointBlocks_congr fun r hr => bnobt_covers (hfit r hr)]
  refine ⟨fun hdis => ⟨(cur.recs store).length, fun fuel hfuel bno len hlen hlim => ?_⟩,
    (cur.recs store).length, fun fuel hfuel bno len hlen hlim e he => ?_⟩
  · obtain ⟨p, hres, hpacks⟩ := (btreeHasRecords_plain rfl rfl rfl hwf hspan
      (show bno ≤ bno + len - 1 by omega) hfuel).1 hdis
    refine ⟨p, ?_, hpacks.congr fun b _ _ => ?_⟩
    · show btreeHasRecords store bnobtKeyOps fuel cur bno (sub32 (add32 bno len) 1) = .ok p
      rw [sub32_add32_one hlen hlim, hres]
    · exact exists_congr fun r => and_congr_right fun hr => bnobt_covers (hfit r hr) b
  · have he' : btreeHasRecords store bnobtKeyOps fuel cur bno (bno + len - 1) = .error e := by
      rw [← sub32_add32_one hlen hlim]
      exact he
    exact (btreeHasRecords_plain rfl rfl rfl hwf hspan (by omega) hfuel).2 e he'

end Free

def RefcDomain.offset : RefcDomain → Nat
  | .shared => 0
  | .cow => 2 ^ 31

theorem refcountEncodeStartblock_eq {b : Nat} (hb : b < 2 ^ 31) (domain : RefcDomain) :
    refcountEncodeStartblock b domain = b + domain.offset := by
  cases domain with
  | shared => exact mod_eq_of_lt hb
  | cow =>
    show b % 2 ^ 31 + 2 ^ 31 = b + 2 ^ 31
    rw [mod_eq_of_lt hb]

section Refcount

variable {store : BtreeStore RefcountIrec Nat} {cur : BtreeCur} {r : RefcountIrec}

section

variable (hfit : 0 < r.blockcount ∧ r.startblock + r.blockcount ≤ 2 ^ 31)
include hfit

theorem refcountbt_span : refcountbtKeyOps.initKeyFromRec r = r.startblock + r.domain.offset ∧
      refcountbtKeyOps.initHighKeyFromRec r = r.startblock + r.domain.offset + r.blockcount - 1 := by
  have hkey : refcKey r = r.startblock + r.domain.offset := refcountEncodeStartblock_eq (by omega) _
  refine ⟨hkey, ?_⟩
  show add32 (refcKey r) (sub32 r.blockcount 1) = _
  have hoff : r.domain.offset ≤ 2 ^ 31 := by
    cases r.domain <;> decide
  rw [hkey, add32_sub32_one hfit.1 (by omega)]

theorem refcountbt_covers {b : Nat} {domain : RefcDomain} (hb : b < 2 ^ 31) :
    r.domain = domain ∧ r.Covers b ↔ refcountbtKeyOps.initKeyFromRec r ≤ b + domain.offset ∧
      b + domain.offset ≤ refcountbtKeyOps.initHighKeyFromRec r := by
  obtain ⟨hkey, hhigh⟩ := refcountbt_span hfit
  rw [hkey, hhigh]
  unfold RefcountIrec.Covers
  cases hdom : r.domain <;> cases domain <;>
    simp only [RefcDomain.offset, reduceCtorEq, false_and, true_and, false_iff] <;> omega

end

theorem refcountbt_disjoint (hfit : ∀ r ∈ cur.recs store, 0 < r.blockcount ∧
      r.startblock + r.blockcount ≤ 2 ^ 31) :
    DisjointBlocks (fun r b => refcountbtKeyOps.initKeyFromRec r ≤ b ∧
        b ≤ refcountbtKeyOps.initHighKeyFromRec r) (cur.recs store) ↔
      (cur.recs store).Pairwise fun r s => r.domain = s.domain → ∀ b, ¬ (r.Covers b ∧ s.Covers b) := by
  refine List.Pairwise.iff_of_mem fun {r s} hr hs => ?_
  have hfr := hfit r hr
  have hfs := hfit s hs
  constructor
  · rintro h hdom b ⟨hrb, hsb⟩
    have hb : b < 2 ^ 31 := by
      have := hrb.2
      omega
    refine h (b + r.domain.offset) ⟨(refcountbt_covers hfr hb).mp ⟨rfl, hrb⟩, ?_⟩
    rw [hdom]
    exact (refcountbt_covers hfs hb).mp ⟨rfl, hsb⟩
  · rintro h b ⟨hrb, hsb⟩
    rw [(refcountbt_span hfr).1, (refcountbt_span hfr).2] at hrb
    rw [(refcountbt_span hfs).1, (refcountbt_span hfs).2] at hsb
    have hdom : r.domain = s.domain := by
      cases hrd : r.domain <;> cases hsd : s.domain <;>
        simp only [hrd, hsd, RefcDomain.offset] at hrb hsb ⊢ <;> omega
    rw [← hdom] at hsb
    exact h hdom (b - r.domain.offset) ⟨⟨by omega, by omega⟩, by omega, by omega⟩

theorem refcountHasRecords_spec
    (hwf : WfBtree refcountbtKeyOps.toBtreeKeyOps store cur.root cur.nlevels)
    (hfit : ∀ r ∈ cur.recs store, 0 < r.blockcount ∧ r.startblock + r.blockcount ≤ 2 ^ 31)
    (domain : RefcDomain) :
    ((cur.recs store).Pairwise (fun r s => r.domain = s.domain → ∀ b, ¬ (r.Covers b ∧ s.Covers b)) →
      ScansExactly (fun fuel => refcountHasRecords store fuel cur domain)
        (fun b => ∃ r ∈ cur.recs store, r.domain = domain ∧ r.Covers b) (2 ^ 31)) ∧
    FailsOnlyIf (fun fuel => refcountHasRecords store fuel cur domain) (2 ^ 31)
      (¬ (cur.recs store).Pairwise fun r s => r.domain = s.domain → ∀ b, ¬ (r.Covers b ∧ s.Covers b)) := by
  have hoff : ∀ d : RefcDomain, d.offset ≤ 2 ^ 31 := fun d => by cases d <;> decide
  have hspan : ∀ r ∈ cur.recs store,
      refcountbtKeyOps.initKeyFromRec r ≤ refcountbtKeyOps.initHighKeyFromRec r ∧
        refcountbtKeyOps.initHighKeyFromRec r < 2 ^ 64 - 1 := by
    intro r hr
    have hfr := hfit r hr
    have := hoff r.domain
    rw [(refcountbt_span hfr).1, (refcountbt_span hfr).2]
    omega
  have hscan : ∀ fuel bno len, 0 < len → bno + len ≤ 2 ^ 31 →
      refcountHasRecords store fuel cur domain bno len =
        btreeHasRecords store refcountbtKeyOps fuel cur (bno + domain.offset)
          (bno + len - 1 + domain.offset) := by
    intro fuel bno len hlen hlim
    rw [refcountHasRecords, sub32_add32_one hlen (by omega), refcountEncodeStartblock_eq (by omega),
      refcountEncodeStartblock_eq (by omega)]
  rw [← refcountbt_disjoint hfit]
  refine ⟨fun hdis => ⟨(cur.recs store).length, fun fuel hfuel bno len hlen hlim => ?_⟩,
    (cur.recs store).length, fun fuel hfuel bno len hlen hlim e he => ?_⟩
  · obtain ⟨p, hres, hpacks⟩ := (btreeHasRecords_plain rfl rfl rfl hwf hspan
      (show bno + domain.offset ≤ bno + len - 1 + domain.offset by omega) hfuel).1 hdis
    refine ⟨p, (hscan fuel bno len hlen hlim).trans hres, hpacks.shift fun b hb hb' => ?_⟩
    exact exists_congr fun r => and_congr_right fun hr => refcountbt_covers (hfit r hr) (by omega)
  · exact (btreeHasRecords_plain rfl rfl rfl hwf hspan (by omega) hfuel).2 e
      ((hscan fuel bno len hlen hlim).symm.trans he)

end Refcount

def RmapIrec.Covers (r : RmapIrec) (b : Nat) : Prop :=
  r.startblock ≤ b ∧ b < r.startblock + r.blockcount

section Rmap

variable {store : BtreeStore RmapIrec RmapKey} {cur : BtreeCur}

theorem rmapKey_low_le {bno : Nat} {k : RmapKey} :
    rmapKeyOf bno 0 0 ⟨false, false, false⟩ ≤ k ↔ bno ≤ (ofLex k).1 := by
  rw [Prod.Lex.le_iff]
  constructor
  · rintro (hlt | ⟨heq, -⟩)
    · exact le_of_lt hlt
    · exact le_of_eq heq
  · intro hle
    rcases lt_or_eq_of_le hle with hlt | heq
    · exact .inl hlt
    · refine .inr ⟨heq, Prod.Lex.le_iff.mpr ?_⟩
      rcases Nat.eq_zero_or_pos (ofLex (ofLex k).2).1 with hzero | hpos
      · exact .inr ⟨hzero.symm, zero_le _⟩
      · exact .inl hpos

theorem rmapKey_le_high {r : RmapIrec} {last owner offset : Nat} {flags : RmapFlags}
    (howner : r.owner ≤ owner)
    (hoffset : rmapOffsetKey r.offset r.flags ≤ rmapOffsetKey offset flags) :
    rmapKey r ≤ rmapKeyOf last owner offset flags ↔ r.startblock ≤ last := by
  rw [Prod.Lex.le_iff]
  constructor
  · rintro (hlt | ⟨heq, -⟩)
    · exact le_of_lt hlt
    · exact le_of_eq heq
  · intro hle
    rcases lt_or_eq_of_le hle with hlt | heq
    · exact .inl hlt
    · refine .inr ⟨heq, Prod.Lex.le_iff.mpr ?_⟩
      rcases lt_or_eq_of_le howner with hlt | howner
      · exact .inl hlt
      · exact .inr ⟨howner, hoffset⟩

theorem rmapHasRecords_spec (hwf : WfBtree rmapbtKeyOps.toBtreeKeyOps store cur.root cur.nlevels)
    (hfit : ∀ r ∈ cur.recs store, 0 < r.blockcount ∧ r.startblock + r.blockcount ≤ 2 ^ 32 ∧
      r.owner < 2 ^ 64) :
    ScansExactly (fun fuel => rmapHasRecords store fuel cur)
      (fun b => ∃ r ∈ cur.recs store, r.Covers b) (2 ^ 32) := by
  have hlo : ∀ r : RmapIrec, rmapbtKeyOps.lo r = r.startblock := fun r => rfl
  have hhi : ∀ r : RmapIrec, rmapbtKeyOps.hi r = r.startblock + (r.blockcount - 1) := fun r => rfl
  have hrecs : BlockRecs rmapbtKeyOps (cur.recs store) := by
    refine ⟨rfl, fun r s hlt => ?_, fun r hr => ?_, fun r hr => ?_⟩
    · rcases Prod.Lex.lt_iff.mp hlt with hlt | heq
      · exact le_of_lt hlt
      · exact le_of_eq heq.1
    · rw [hlo, hhi]
      omega
    · have := hfit r hr
      rw [hhi]
      omega
  refine ⟨queryCost store (cur.nlevels - 1) cur.root, fun fuel hfuel bno len hlen hlim => ?_⟩
  let lowKey := rmapKeyOf bno 0 0 ⟨false, false, false⟩
  let highKey := rmapKeyOf (bno + len - 1) (2 ^ 64 - 1) (2 ^ 64 - 1) ⟨true, true, true⟩
  have hle : bno ≤ bno + len - 1 := by omega
  have hkeys : lowKey ≤ highKey := rmapKey_low_le.mpr hle
  have hrange : BlockRange rmapbtKeyOps (cur.recs store) lowKey highKey := by
    refine ⟨hkeys, hle, fun r hr => ?_⟩
    rw [queryHit, decide_eq_true_eq]
    exact and_congr rmapKey_low_le (rmapKey_le_high (le_sub_one_of_lt (hfit r hr).2.2)
      (rmapOffsetKey_le _ _))
  have hquery : btreeQueryRange store rmapbtKeyOps.toBtreeKeyOps fuel cur lowKey highKey
      (btreeHasRecordsHelper rmapbtKeyOps) =
        forM ((cur.recs store).filter (queryHit rmapbtKeyOps.toBtreeKeyOps lowKey highKey))
          (btreeHasRecordsHelper rmapbtKeyOps) := by
    rw [btreeQueryRange, if_neg (not_not.mpr hkeys), if_pos (show rmapbtKeyOps.overlapping = true from rfl)]
    exact btreeOverlappedQueryRange_eq rfl hwf hfuel
  obtain ⟨p, hres, hpacks⟩ := btreeHasRecords_exact hwf hrecs hrange hquery (.inl rfl)
  have hpacks' : Packs _ bno (bno + len - 1) p := hpacks
  refine ⟨p, ?_, hpacks'.congr fun b _ _ => exists_congr fun r => and_congr_right fun hr => ?_⟩
  · show btreeHasRecords store rmapbtKeyOps fuel cur lowKey
      (rmapKeyOf (sub32 (add32 bno len) 1) (2 ^ 64 - 1) (2 ^ 64 - 1) ⟨true, true, true⟩) = .ok p
    rw [sub32_add32_one hlen hlim]
    exact hres
  · have := hfit r hr
    rw [hlo, hhi]
    unfold RmapIrec.Covers
    omega

end Rmap

/-- The scan of the free space and of the reference counts is exact if no two records overlap, and
fails only if two overlap. The scan of the reverse mappings is exact for all records. -/
theorem btree_has_records_exact : (∀ (store : BtreeStore FreeRec Nat) (cur : BtreeCur),
      WfBtree bnobtKeyOps.toBtreeKeyOps store cur.root cur.nlevels →
      (∀ r ∈ cur.recs store, 0 < r.len ∧ r.bno + r.len ≤ 2 ^ 32) →
      (DisjointBlocks FreeRec.Covers (cur.recs store) →
        ScansExactly (fun fuel => allocHasRecords store fuel cur)
          (fun b => ∃ r ∈ cur.recs store, r.Covers b) (2 ^ 32)) ∧
      FailsOnlyIf (fun fuel => allocHasRecords store fuel cur) (2 ^ 32)
        (¬ DisjointBlocks FreeRec.Covers (cur.recs store))) ∧
    (∀ (store : BtreeStore RefcountIrec Nat) (cur : BtreeCur) (domain : RefcDomain),
      WfBtree refcountbtKeyOps.toBtreeKeyOps store cur.root cur.nlevels →
      (∀ r ∈ cur.recs store, 0 < r.blockcount ∧ r.startblock + r.blockcount ≤ 2 ^ 31) →
      ((cur.recs store).Pairwise (fun r s => r.domain = s.domain → ∀ b, ¬ (r.Covers b ∧ s.Covers b)) →
        ScansExactly (fun fuel => refcountHasRecords store fuel cur domain)
          (fun b => ∃ r ∈ cur.recs store, r.domain = domain ∧ r.Covers b) (2 ^ 31)) ∧
      FailsOnlyIf (fun fuel => refcountHasRecords store fuel cur domain) (2 ^ 31)
        (¬ (cur.recs store).Pairwise fun r s => r.domain = s.domain → ∀ b, ¬ (r.Covers b ∧ s.Covers b))) ∧
    ∀ (store : BtreeStore RmapIrec RmapKey) (cur : BtreeCur),
      WfBtree rmapbtKeyOps.toBtreeKeyOps store cur.root cur.nlevels →
      (∀ r ∈ cur.recs store, 0 < r.blockcount ∧ r.startblock + r.blockcount ≤ 2 ^ 32 ∧
        r.owner < 2 ^ 64) →
      ScansExactly (fun fuel => rmapHasRecords store fuel cur)
        (fun b => ∃ r ∈ cur.recs store, r.Covers b) (2 ^ 32) :=
  ⟨fun _ _ => allocHasRecords_spec, fun _ _ domain hwf hfit => refcountHasRecords_spec hwf hfit domain,
    fun _ _ => rmapHasRecords_spec⟩

def sampleFreeTree : BtreeStore FreeRec Nat :=
  twoLeafStore bnobtKeyOps.toBtreeKeyOps [⟨0, 10⟩] [⟨20, 5⟩]

def sampleRefcountTree : BtreeStore RefcountIrec Nat :=
  twoLeafStore refcountbtKeyOps.toBtreeKeyOps [⟨8, 4, 2, .shared⟩] [⟨8, 4, 1, .cow⟩]

def sampleRmapTree : BtreeStore RmapIrec RmapKey :=
  twoLeafStore rmapbtKeyOps.toBtreeKeyOps [⟨0, 100, 128, 0, ⟨false, false, false⟩⟩]
    [⟨10, 2, 129, 7, ⟨false, false, false⟩⟩]

theorem btree_has_records_exact_sample :
    ScansExactly (fun fuel => allocHasRecords sampleFreeTree fuel twoLeafCur)
      (fun b => ∃ r ∈ twoLeafCur.recs sampleFreeTree, r.Covers b) (2 ^ 32) ∧
    ScansExactly (fun fuel => refcountHasRecords sampleRefcountTree fuel twoLeafCur .cow)
      (fun b => ∃ r ∈ twoLeafCur.recs sampleRefcountTree, r.domain = .cow ∧ r.Covers b) (2 ^ 31) ∧
    ScansExactly (fun fuel => rmapHasRecords sampleRmapTree fuel twoLeafCur)
      (fun b => ∃ r ∈ twoLeafCur.recs sampleRmapTree, r.Covers b) (2 ^ 32) := by
  refine ⟨(btree_has_records_exact.1 sampleFreeTree twoLeafCur ?_ (by decide)).1 ?_,
    (btree_has_records_exact.2.1 sampleRefcountTree twoLeafCur .cow ?_ (by decide)).1 ?_,
    btree_has_records_exact.2.2 sampleRmapTree twoLeafCur ?_ (by decide)⟩
  · exact twoLeaf_wf (by decide) (by decide) (by decide) (by decide) (by unfold Ordered; decide)
  · refine pairwise_pair.mpr fun b hb => ?_
    simp only [FreeRec.Covers] at hb
    omega
  · exact twoLeaf_wf (by decide) (by decide) (by decide) (by decide) (by unfold Ordered; decide)
  · exact pairwise_pair.mpr fun hdom => absurd hdom (by decide)
  · exact twoLeaf_wf (by decide) (by decide) (by decide) (by decide) (by unfold Ordered; decide)

/-- If free extents overlap, one that starts left of the range is missed. -/
theorem alloc_has_records_misses :
    WfBtree bnobtKeyOps.toBtreeKeyOps (twoLeafStore bnobtKeyOps.toBtreeKeyOps [⟨0, 100⟩] [⟨10, 2⟩])
      twoLeafCur.root twoLeafCur.nlevels ∧
    (∀ fuel, allocHasRecords (twoLeafStore bnobtKeyOps.toBtreeKeyOps [⟨0, 100⟩] [⟨10, 2⟩]) (fuel + 2)
      twoLeafCur 50 1 = .ok .empty) ∧
    FreeRec.Covers ⟨0, 100⟩ 50 := by
  refine ⟨?_, fun fuel => rfl, by unfold FreeRec.Covers; decide⟩
  exact twoLeaf_wf (by decide) (by decide) (by decide) (by decide) (by unfold Ordered; decide)

end Xfs
