import Xfs.Rmap.Exact
import Xfs.Rmap.Shared

/-! The operations on shared mappings: each is the edit its name says, on any
record set in which a file maps every offset at most once. -/
namespace Xfs

open RmapIrec List RecordCursor Cursor

section Primitives

variable {g : RmapGroup} {c : RmapCur} {r y : RmapIrec} {recs : List RmapIrec}

section

variable (ho : Ordered rmapKey c.recs) (hr : r ∈ c.recs)
include ho hr

theorem rmapLookupEqFound_spec (hk : rmapKey r = rmapKey y) :
    ∃ c', rmapLookupEqFound c y = .ok c' ∧ c'.recs = c.recs ∧ c'.rec? = some r := by
  have hfound : (c.lookupEQ rmapKey (rmapKey y)).2 :=
    lookupEQ_snd_iff.mpr ⟨r, hr, hk⟩
  refine ⟨(c.lookupEQ rmapKey (rmapKey y)).1, ?_, rfl, ?_⟩
  · change (if (c.lookupEQ rmapKey (rmapKey y)).2 then Except.ok _ else _) = _
    rw [if_pos hfound]
    rfl
  · refine rec?_of_seek ho hr ?_
    rw [hk]
    exact seek_lookupEQ _ _

theorem rmapDelete_spec : ∃ c', rmapDelete c r = .ok c' ∧ Ordered rmapKey c'.recs ∧
      ∀ s, s ∈ c'.recs ↔ s ∈ c.recs ∧ s ≠ r := by
  obtain ⟨c1, hlookup, hrecs, hrec⟩ := rmapLookupEqFound_spec ho hr rfl
  have ho1 : Ordered rmapKey c1.recs := hrecs ▸ ho
  obtain ⟨c', hdel, hord, -, hmem⟩ := delete_spec ho1 hrec
  refine ⟨c', ?_, hord, fun s => by rw [hmem, hrecs]⟩
  simp [rmapDelete, hlookup, rmapBtreeDelete, hdel]

theorem rmapReplace_spec {z : RmapIrec} (hz : rmapKey r = rmapKey z) (hy : rmapKey y = rmapKey r)
    (hoff : y.offset < 2 ^ 54) :
    ∃ c1, rmapLookupEqFound c z = .ok c1 ∧ Ordered rmapKey (rmapUpdate c1 y).recs ∧
      ∀ s, s ∈ (rmapUpdate c1 y).recs ↔ s = y ∨ s ∈ c.recs ∧ s ≠ r := by
  obtain ⟨c1, hlookup, hrecs, hrec⟩ := rmapLookupEqFound_spec ho hr hz
  have ho1 : Ordered rmapKey c1.recs := hrecs ▸ ho
  obtain ⟨hord, -, hmem⟩ := update_spec ho1 hrec (fun s _ hlt => by rwa [hy])
    (fun s _ hlt => by rwa [hy])
  refine ⟨c1, hlookup, ?_, fun s => ?_⟩
  · rw [rmapUpdate, pack_eq hoff]
    exact hord
  · rw [rmapUpdate, pack_eq hoff, hmem, hrecs]

end

theorem rmapInsert_spec (ho : Ordered rmapKey c.recs)
    (hnew : ∀ s ∈ c.recs, rmapKey s ≠ rmapKey y) (hy : y.offset < 2 ^ 54) :
    ∃ c', rmapInsert c y = .ok c' ∧ Ordered rmapKey c'.recs ∧
      ∀ s, s ∈ c'.recs ↔ s = y ∨ s ∈ c.recs := by
  have habsent : (c.lookupEQ rmapKey (rmapKey y)).2 = false := by
    rw [← Bool.not_eq_true, lookupEQ_snd_iff]
    rintro ⟨s, hs, hk⟩
    exact hnew s hs hk
  obtain ⟨c', hins, hord, -, hmem⟩ := insert_spec
    (c := (c.lookupEQ rmapKey (rmapKey y)).1) ho (seek_lookupEQ _ _) hnew
  refine ⟨c', ?_, hord, hmem⟩
  change (if (c.lookupEQ rmapKey (rmapKey y)).2 then _ else
    rmapBtreeInsert (c.lookupEQ rmapKey (rmapKey y)).1 y) = _
  rw [habsent, rmapBtreeInsert, pack_eq hy, hins]
  rfl

theorem rmapQueryRange_spec (low high : RmapKey) (fn : RmapIrec → Bool)
    (ho : Ordered rmapKey recs) (hcheck : ∀ r ∈ recs, rmapCheckBtrec g r) :
    ∃ o, rmapQueryRange g low high fn recs = .ok o ∧
      (∀ r, o = some r → r ∈ recs ∧ rmapKey r ≤ high ∧ low ≤ rmapHighKey r ∧ fn r) ∧
      (o = none → ∀ r ∈ recs, rmapKey r ≤ high → low ≤ rmapHighKey r → fn r = false) := by
  induction recs with
  | nil => exact ⟨none, rfl, by simp, by simp⟩
  | cons x recs ih =>
    obtain ⟨hx, hrecs⟩ := pairwise_cons.mp ho
    obtain ⟨o, hrun, hsome, hnone⟩ := ih hrecs fun r hr => hcheck r (mem_cons_of_mem _ hr)
    by_cases hhigh : high < rmapKey x
    · refine ⟨none, by simp [rmapQueryRange, hhigh], by simp, fun _ r hr hle => ?_⟩
      rcases mem_cons.mp hr with rfl | hr
      · exact absurd hle (not_le.mpr hhigh)
      · exact absurd hle (not_le.mpr (hhigh.trans (hx r hr)))
    by_cases hacc : low ≤ rmapHighKey x ∧ fn x = true
    · refine ⟨some x, ?_, fun r hr => ?_, by simp⟩
      · simp [rmapQueryRange, hhigh, hacc, hcheck x mem_cons_self]
      · obtain rfl := Option.some.inj hr
        exact ⟨mem_cons_self, not_lt.mp hhigh, hacc⟩
    refine ⟨o, ?_, fun r hr => ?_, fun ho' r hr hle hlow => ?_⟩
    · rw [rmapQueryRange, if_neg hhigh, hrun]
      by_cases hlow : low ≤ rmapHighKey x
      · have hfn : ¬ fn x := fun hf => hacc ⟨hlow, hf⟩
        simp [hlow, hfn, hcheck x mem_cons_self]
      · rw [if_neg hlow]
    · obtain ⟨hmem, hrest⟩ := hsome r hr
      exact ⟨mem_cons_of_mem _ hmem, hrest⟩
    · rcases mem_cons.mp hr with rfl | hr
      · exact Bool.not_eq_true _ ▸ fun hf => hacc ⟨hlow, hf⟩
      · exact hnone ho' r hr hle hlow

end Primitives

def RmapIrec.isData (r : RmapIrec) : Bool := !r.ignoreOff && !r.flags.attrFork

structure ShareWF (g : RmapGroup) (recs : List RmapIrec) : Prop extends RmapWF g recs where
  unique : ∀ r ∈ recs, ∀ s ∈ recs, r ≠ s → r.owner = s.owner →
    r.flags.attrFork = s.flags.attrFork → r.ignoreOff = false → s.ignoreOff = false →
    r.offset + r.blockcount ≤ s.offset ∨ s.offset + s.blockcount ≤ r.offset
  unshared : ∀ r ∈ recs, ∀ s ∈ recs, r ≠ s → r.isData = false →
    r.startblock + r.blockcount ≤ s.startblock ∨ s.startblock + s.blockcount ≤ r.startblock
  filesize : ∀ r ∈ recs, r.ignoreOff = false → r.offset + r.blockcount ≤ 2 ^ 53

section Lookups

variable {g : RmapGroup} {c : RmapCur} {recs : List RmapIrec} {r s x : RmapIrec}
  {bno len owner offset f b : Nat} {u : Bool}

theorem RmapIrec.isData_iff : r.isData ↔
    rmapNonInodeOwner r.owner = false ∧ r.flags.bmbtBlock = false ∧ r.flags.attrFork = false := by
  simp [RmapIrec.isData, RmapIrec.ignoreOff, rmapIgnoreOff, and_assoc]

theorem RmapIrec.isData_of_flags (hino : rmapNonInodeOwner r.owner = false)
    (hf : r.flags = dataFlags u) : r.isData := by
  rw [isData_iff, hf]
  exact ⟨hino, rfl, rfl⟩

theorem RmapIrec.ignoreOff_of_isData (h : r.isData) : r.ignoreOff = false := by
  simpa [RmapIrec.ignoreOff, rmapIgnoreOff] using
    And.intro (isData_iff.mp h).1 (isData_iff.mp h).2.1

theorem ShareWF.eq_of_offset (h : ShareWF g recs) (hr : r ∈ recs) (hs : s ∈ recs)
    (hrd : r.isData) (hsd : s.isData) (ho : r.owner = s.owner) (hr1 : r.offset ≤ f)
    (hr2 : f < r.offset + r.blockcount) (hs1 : s.offset ≤ f) (hs2 : f < s.offset + s.blockcount) :
    r = s := by
  by_contra hne
  have hfork : r.flags.attrFork = s.flags.attrFork :=
    (isData_iff.mp hrd).2.2.trans (isData_iff.mp hsd).2.2.symm
  rcases h.unique r hr s hs hne ho hfork (ignoreOff_of_isData hrd)
    (ignoreOff_of_isData hsd) with hd | hd <;> omega

theorem ShareWF.isData_of_block (h : ShareWF g recs) (hr : r ∈ recs) (hs : s ∈ recs) (hne : r ≠ s)
    (hr1 : r.startblock ≤ b) (hr2 : b < r.startblock + r.blockcount) (hs1 : s.startblock ≤ b)
    (hs2 : b < s.startblock + s.blockcount) : r.isData := by
  by_contra hd
  rw [Bool.not_eq_true] at hd
  rcases h.unshared r hr s hs hne hd with hd | hd <;> omega

theorem rmapKeyOf_data_le {b' f' : Nat} {u u' : Bool} (hb : b ≤ b') (hf : b = b' → f ≤ f')
    (hf' : f' < 2 ^ 54) :
    rmapKeyOf b owner f (dataFlags u) ≤ rmapKeyOf b' owner f' (dataFlags u') := by
  refine not_lt.mp fun hlt => ?_
  rcases rmapKeyOf_lt_iff.mp hlt with h | ⟨heq, h | ⟨-, h⟩⟩
  · omega
  · omega
  · simp only [rmapOffsetKey, dataFlags, Nat.mod_eq_of_lt hf', Bool.false_eq_true, if_false] at h
    omega

theorem rmapHighKey_data (hwf : RmapWF g recs) (hr : r ∈ recs)
    (hino : rmapNonInodeOwner r.owner = false) (hf : r.flags = dataFlags u) :
    rmapHighKey r = rmapKeyOf (r.startblock + (r.blockcount - 1)) r.owner
      (r.offset + (r.blockcount - 1)) (dataFlags u) := by
  have hign := ignoreOff_of_isData (isData_of_flags hino hf)
  have hpos := (hwf.bounds hr).1
  have hoff := hwf.fileoff r hr hign
  simp only [rmapHighKey, rmapKeyOf, hign, hf, rmapOffsetKey, dataFlags, Bool.false_eq_true,
    if_false, add_zero]
  rw [Nat.mod_eq_of_lt (by omega), Nat.mod_eq_of_lt (by omega)]

theorem le_of_le_rmapHighKey {p : RmapFlags} (h : rmapKeyOf b owner f p ≤ rmapHighKey r) :
    b ≤ r.startblock + (r.blockcount - 1) := by
  by_contra hlt
  refine absurd h (not_le.mpr ?_)
  simp only [rmapHighKey, rmapKeyOf, Prod.Lex.toLex_lt_toLex]
  exact .inl (not_le.mp hlt)

/-- The last record whose key is not above that of the query. -/
def LastBelow (recs : List RmapIrec) (bno owner offset : Nat) (flags : RmapFlags) (r : RmapIrec) :
    Prop :=
  r ∈ recs ∧ rmapKey r ≤ rmapKeyOf bno owner offset flags ∧
    ∀ s ∈ recs, rmapKey s ≤ rmapKeyOf bno owner offset flags → rmapKey s ≤ rmapKey r

theorem rmapLookupLe_last (ho : Ordered rmapKey c.recs) (hcheck : ∀ r ∈ c.recs, rmapCheckBtrec g r)
    (bno owner offset : Nat) (flags : RmapFlags) :
    ∃ c' found, rmapLookupLe g c bno owner offset flags = .ok (c', found) ∧ c'.recs = c.recs ∧
      ∀ r, found = some r ↔ LastBelow c.recs bno owner offset flags r := by
  refine ⟨(c.lookupLE rmapKey (rmapKeyOf bno owner offset flags)).1,
    (c.lookupLE rmapKey (rmapKeyOf bno owner offset flags)).1.rec?, ?_, rfl, fun r => ⟨fun hr =>
      lookupLE_rec?_some ho hr, fun hlast => ?_⟩⟩
  · unfold rmapLookupLe rmapGetRecFound rmapGetRec
    dsimp only
    rw [lookupLE_snd]
    cases hr : (c.lookupLE rmapKey (rmapKeyOf bno owner offset flags)).1.rec? with
    | none => rfl
    | some r =>
      have hc := hcheck r (lookupLE_rec?_some ho hr).1
      simp [hc]
  · obtain ⟨hmem, hle, hmax⟩ := hlast
    cases hr : (c.lookupLE rmapKey (rmapKeyOf bno owner offset flags)).1.rec? with
    | none => exact absurd ((lookupLE_rec?_none hr).2 r hmem) (not_lt.mpr hle)
    | some s =>
      obtain ⟨hs, hsle, hsmax⟩ := lookupLE_rec?_some ho hr
      rw [ho.key_inj hs hmem (le_antisymm (hmax s hs hsle) (hsmax r hmem hle))]

section

variable (hwf : RmapWF g c.recs) (bno owner offset : Nat) (flags : RmapFlags)
include hwf

theorem rmapLookupOrQuery_spec (high : RmapKey) (fn : RmapIrec → Bool) :
    ∃ c1 o, rmapLookupOrQuery g c bno owner offset flags high fn = .ok (c1, o) ∧ c1.recs = c.recs ∧
      (∀ r, o = some r → r ∈ c.recs ∧ fn r ∧
        (LastBelow c.recs bno owner offset flags r ∨ rmapKey r ≤ high ∧ high ≤ rmapHighKey r)) ∧
      (o = none → ∀ r ∈ c.recs, rmapKey r ≤ high → high ≤ rmapHighKey r → fn r = false) := by
  obtain ⟨c1, o, hlookup, hrecs, hsome⟩ :=
    rmapLookupLe_last hwf.ordered hwf.check bno owner offset flags
  obtain ⟨o', hquery, hsome', hnone'⟩ := rmapQueryRange_spec high high fn
    (hrecs ▸ hwf.ordered) (hrecs ▸ hwf.check)
  by_cases hany : o.any fn = true
  · refine ⟨c1, o, ?_, hrecs, fun r hr => ?_, fun ho => ?_⟩
    · simp [rmapLookupOrQuery, hlookup, hany]
    · have hlast := (hsome r).mp hr
      rw [hr] at hany
      exact ⟨hlast.1, hany, .inl hlast⟩
    · rw [ho] at hany
      exact absurd hany (by simp)
  · refine ⟨c1, o', ?_, hrecs, fun r hr => ?_, fun ho r hr => ?_⟩
    · simp [rmapLookupOrQuery, hlookup, hany, hquery]
    · obtain ⟨hmem, hlow, hhigh, hfn⟩ := hsome' r hr
      exact ⟨hrecs ▸ hmem, hfn, .inr ⟨hlow, hhigh⟩⟩
    · exact hnone' ho r (hrecs.symm ▸ hr)

theorem rmapFindEq_spec :
    ∃ c1 o, rmapFindEq g c bno owner offset flags = .ok (c1, o) ∧ c1.recs = c.recs ∧
      (∀ r, o = some r → r ∈ c.recs ∧ rmapKey r = rmapKeyOf bno owner offset flags) ∧
      (o = none → ∀ r ∈ c.recs, rmapKey r ≠ rmapKeyOf bno owner offset flags) := by
  set p := c.lookupEQ rmapKey (rmapKeyOf bno owner offset flags)
  have hunfold : rmapFindEq g c bno owner offset flags = if p.2 = false then .ok (p.1, none)
      else (rmapGetRecFound g p.1).bind fun r => .ok (p.1, some r) := rfl
  by_cases hfound : p.2 = true
  · obtain ⟨r, hr, hk⟩ := lookupEQ_snd_iff.mp hfound
    have hrec : p.1.rec? = some r := rec?_of_seek hwf.ordered hr (hk ▸ seek_lookupEQ _ _)
    refine ⟨p.1, some r, ?_, rfl, fun s hs => Option.some.inj hs ▸ ⟨hr, hk⟩, by simp⟩
    rw [hunfold, hfound, rmapGetRecFound_eq (c := p.1) hwf hrec]
    rfl
  · refine ⟨p.1, none, ?_, rfl, by simp,
      fun _ r hr hk => hfound (lookupEQ_snd_iff.mpr ⟨r, hr, hk⟩)⟩
    rw [hunfold, if_pos (Bool.not_eq_true _ ▸ hfound)]

end

theorem rmapLookupLeRangeHelper_iff (hino : rmapNonInodeOwner owner = false) :
    rmapLookupLeRangeHelper owner offset r ↔ r.owner = owner ∧
      (r.flags.bmbtBlock = false → r.offset ≤ offset ∧ offset < r.offset + r.blockcount) := by
  unfold rmapLookupLeRangeHelper
  by_cases ho : r.owner = owner
  · cases hb : r.flags.bmbtBlock <;> simp [ho, hino]
  · simp [ho]

theorem rmapFindLeftNeighborHelper_iff (hino : rmapNonInodeOwner owner = false) :
    rmapFindLeftNeighborHelper owner offset r ↔ r.owner = owner ∧
      (r.flags.bmbtBlock = false → r.offset + r.blockcount - 1 = offset) := by
  unfold rmapFindLeftNeighborHelper
  by_cases ho : r.owner = owner
  · cases hb : r.flags.bmbtBlock <;> simp [ho, hino]
  · simp [ho]

theorem rmapLookupLeRange_spec (hwf : ShareWF g c.recs)
    (hino : rmapNonInodeOwner owner = false) (hpos : 0 < len) (hr : r ∈ c.recs)
    (hx : (dataRange bno len owner offset u).Within r) :
    ∃ c1, rmapLookupLeRange g c bno owner offset (dataFlags u) = .ok (c1, some r) ∧
      c1.recs = c.recs := by
  have howner : r.owner = owner := hx.owner
  have hflags : r.flags = dataFlags u := hx.flags
  have hdata : r.isData := isData_of_flags (howner ▸ hino) hflags
  have hstart : r.startblock ≤ bno := hx.start
  have hend : bno + len ≤ r.startblock + r.blockcount := hx.fin
  have hoff : offset = r.offset + (bno - r.startblock) :=
    hx.offset (ignoreOff_of_isData hdata)
  have hlim := hwf.fileoff r hr (ignoreOff_of_isData hdata)
  have hign : rmapIgnoreOff owner (dataFlags u) = false := by
    simp [rmapIgnoreOff, hino, dataFlags]
  have hkey : rmapKey r ≤ rmapKeyOf bno owner offset (dataFlags u) := by
    rw [rmapKey, howner, hflags]
    exact rmapKeyOf_data_le hstart (fun _ => by omega) (by omega)
  have hhigh : rmapKeyOf bno owner offset (dataFlags u) ≤ rmapHighKey r := by
    rw [rmapHighKey_data hwf.toRmapWF hr (howner ▸ hino) hflags, howner]
    exact rmapKeyOf_data_le (by omega) (fun _ => by omega) (by omega)
  obtain ⟨c1, o, hrun, hrecs, hsome, hnone⟩ := rmapLookupOrQuery_spec hwf.toRmapWF bno owner
    offset (dataFlags u) (rmapKeyOf bno owner offset (dataFlags u))
    (rmapLookupLeRangeHelper owner offset)
  have hrun' : rmapLookupLeRange g c bno owner offset (dataFlags u) = .ok (c1, o) := by
    simp only [rmapLookupLeRange, hign, Bool.false_eq_true, if_false]
    exact hrun
  -- whatever is found covers the first block of the range, and so does `r`
  cases o with
  | none =>
    have hfn := hnone rfl r hr hkey hhigh
    rw [← Bool.not_eq_true, rmapLookupLeRangeHelper_iff hino] at hfn
    exact absurd ⟨howner, fun _ => ⟨by omega, by omega⟩⟩ hfn
  | some s =>
    obtain ⟨hs, hfn, hpath⟩ := hsome s rfl
    obtain ⟨hsOwner, hsOff⟩ := (rmapLookupLeRangeHelper_iff hino).mp hfn
    have hshare : ∃ b, r.startblock ≤ b ∧ b < r.startblock + r.blockcount ∧
        s.startblock ≤ b ∧ b < s.startblock + s.blockcount := by
      have hsPos := (hwf.bounds hs).1
      rcases hpath with ⟨-, hle, hmax⟩ | ⟨hle, hge⟩
      · have h1 := le_of_rmapKeyOf_le hle
        have h2 := le_of_rmapKeyOf_le (hmax r hr hkey)
        exact ⟨s.startblock, by omega⟩
      · have h1 := le_of_rmapKeyOf_le hle
        have h2 := le_of_le_rmapHighKey hge
        exact ⟨bno, by omega⟩
    have heq : s = r := by
      by_contra hne
      obtain ⟨b, h1, h2, h3, h4⟩ := hshare
      have hsData := hwf.isData_of_block hs hr hne h3 h4 h1 h2
      have hin := hsOff (isData_iff.mp hsData).2.1
      exact hne (hwf.eq_of_offset hs hr hsData hdata (hsOwner.trans howner.symm) hin.1 hin.2
        (by omega) (by omega))
    exact ⟨c1, heq ▸ hrun', hrecs⟩

/-- The record the plain lookup ends at, or one over the block in front of the range. -/
def FoundLeft (recs : List RmapIrec) (bno owner offset : Nat) (u : Bool) (l : RmapIrec) : Prop :=
  LastBelow recs bno owner offset (dataFlags u) l ∨
    l.startblock < bno ∧ bno ≤ l.startblock + l.blockcount

theorem FoundLeft.start_le {recs : List RmapIrec} {l : RmapIrec}
    (h : FoundLeft recs bno owner offset u l) : l.startblock ≤ bno := by
  rcases h with ⟨-, hle, -⟩ | ⟨hlt, -⟩
  · exact le_of_rmapKeyOf_le hle
  · exact hlt.le

theorem rmapFindLeftNeighbor_spec (bno len : Nat) (u : Bool) (hwf : RmapWF g c.recs)
    (hino : rmapNonInodeOwner owner = false) (hoff : offset < 2 ^ 54) :
    ∃ c1 o, rmapFindLeftNeighbor g c bno owner offset (dataFlags u) = .ok (c1, o) ∧
      c1.recs = c.recs ∧
      (∀ l, o = some l → l ∈ c.recs ∧ l.owner = owner ∧
        (l.flags.bmbtBlock = false → l.offset + l.blockcount = offset) ∧
        FoundLeft c.recs bno owner offset u l) ∧
      (o = none → ∀ l ∈ c.recs, ¬ l.Abuts (dataRange bno len owner offset u)) := by
  have hign : rmapIgnoreOff owner (dataFlags u) = false := by
    simp [rmapIgnoreOff, hino, dataFlags]
  have habuts : ∀ l ∈ c.recs, l.Abuts (dataRange bno len owner offset u) →
      0 < l.blockcount ∧ l.startblock + l.blockcount = bno ∧ l.offset + l.blockcount = offset := by
    intro l hl hab
    have hfork : l.ignoreOff = false :=
      ignoreOff_of_isData (isData_of_flags (hab.owner ▸ hino) hab.flags)
    exact ⟨(hwf.bounds hl).1, hab.block, hab.offset hfork⟩
  by_cases hzero : bno = 0 ∨ offset = 0
  · refine ⟨c, none, ?_, rfl, by simp, fun _ l hl hab => ?_⟩
    · rcases hzero with h | h
      · simp [rmapFindLeftNeighbor, h]
      · simp [rmapFindLeftNeighbor, h, hign]
    · have := habuts l hl hab
      omega
  rw [not_or] at hzero
  obtain ⟨c1, o, hrun, hrecs, hsome, hnone⟩ := rmapLookupOrQuery_spec hwf bno owner
    offset (dataFlags u) (rmapKeyOf (bno - 1) owner (offset - 1) (dataFlags u))
    (rmapFindLeftNeighborHelper owner (offset - 1))
  refine ⟨c1, o, ?_, hrecs, fun l hl => ?_, fun ho l hl hab => ?_⟩
  · simp only [rmapFindLeftNeighbor, hign, hzero, Bool.false_eq_true, if_false, and_false]
    exact hrun
  · obtain ⟨hmem, hfn, hpath⟩ := hsome l hl
    obtain ⟨hlOwner, hlOff⟩ := (rmapFindLeftNeighborHelper_iff hino).mp hfn
    have hlPos := (hwf.bounds hmem).1
    refine ⟨hmem, hlOwner, fun hb => by have := hlOff hb; omega, ?_⟩
    rcases hpath with hfast | ⟨hle, hge⟩
    · exact .inl hfast
    · have h1 := le_of_rmapKeyOf_le hle
      have h2 := le_of_le_rmapHighKey hge
      exact .inr ⟨by omega, by omega⟩
  · obtain ⟨hlPos, hend, hoffEnd⟩ := habuts l hl hab
    have hlOwner : l.owner = owner := hab.owner
    have hlFlags : l.flags = dataFlags u := hab.flags
    have hfn : rmapFindLeftNeighborHelper owner (offset - 1) l = false := by
      refine hnone ho l hl ?_ ?_
      · rw [rmapKey, hlOwner, hlFlags]
        exact rmapKeyOf_data_le (by omega) (fun _ => by omega) (by omega)
      · rw [rmapHighKey_data hwf hl (hlOwner ▸ hino) hlFlags, hlOwner]
        exact rmapKeyOf_data_le (by omega) (fun _ => by omega) (by omega)
    rw [← Bool.not_eq_true, rmapFindLeftNeighborHelper_iff hino] at hfn
    exact hfn ⟨hlOwner, fun _ => by omega⟩

theorem rmapFindEq_abuts (bno len offset : Nat) (u : Bool) (hwf : RmapWF g c.recs)
    (hino : rmapNonInodeOwner owner = false) (hoff : offset + len < 2 ^ 54) :
    ∃ c1 o, rmapFindEq g c (bno + len) owner (offset + len) (dataFlags u) = .ok (c1, o) ∧
      c1.recs = c.recs ∧
      (∀ r, o = some r → r ∈ c.recs ∧ bno + len = r.startblock ∧
        (rmapIsMergeable r owner (dataFlags u) → (dataRange bno len owner offset u).Abuts r)) ∧
      (∀ r ∈ c.recs, (dataRange bno len owner offset u).Abuts r → o = some r) := by
  obtain ⟨c1, o, hrun, hrecs, hsome, hnone⟩ := rmapFindEq_spec hwf (bno + len) owner
    (offset + len) (dataFlags u)
  refine ⟨c1, o, hrun, hrecs, fun r hr => ?_, fun r hr hab => ?_⟩
  · obtain ⟨hmem, hk⟩ := hsome r hr
    obtain ⟨hstart, howner, hoff''⟩ := rmapKeyOf_inj hk
    have hoff' := (rmapOffsetKey_inj hoff'').1
    rw [Nat.mod_eq_of_lt (hwf.offset_lt hmem), Nat.mod_eq_of_lt hoff] at hoff'
    refine ⟨hmem, hstart.symm, fun hmerge => ?_⟩
    obtain ⟨-, -, hflags⟩ := rmapIsMergeable_iff.mp hmerge
    exact ⟨hstart.symm, howner.symm, hflags.symm, fun _ => hoff'.symm⟩
  · have hk : rmapKey r = rmapKeyOf (bno + len) owner (offset + len) (dataFlags u) := by
      have hblock : bno + len = r.startblock := hab.block
      have howner : owner = r.owner := hab.owner
      have hflags : dataFlags u = r.flags := hab.flags
      have hoff'' : offset + len = r.offset := hab.offset (dataRange_ignoreOff hino)
      rw [rmapKey, hblock, howner, hflags, hoff'']
    cases o with
    | none => exact absurd hk (hnone rfl r hr)
    | some s =>
      obtain ⟨hs, hks⟩ := hsome s rfl
      rw [hwf.ordered.key_inj hs hr (hks.trans hk.symm)]

end Lookups

end Xfs
