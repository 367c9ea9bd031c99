import Xfs.Dir.DataTiles

/-! Making a range of a data block unused: the new region takes in the unused
regions on both sides, and the table follows or asks for a scan. -/
namespace Xfs

open List

variable {mp : DirMount} {mem mem' : ByteMem} {o n m offset len a : Nat} {x y : DataItem}
  {xs ys pre post : List DataItem} {blk : DataBlock} {r d : DataFree} {P : DataFree → Prop}

/-- A byte in one of the unused regions. -/
def FreeIn (o : Nat) (items : List DataItem) (a : Nat) : Prop :=
  ∃ r ∈ regionsAt o items, r.offset ≤ a ∧ a < r.offset + r.length

theorem setUnusedLength_eq (h : m < 2 ^ 16) :
    setUnusedLength mem o m = put16 (put16 mem (o + 2) m) (o + m - 2) o := by
  simp [setUnusedLength, unusedLength, get16_put16 h]

theorem setUnusedLength_outside (h : m < 2 ^ 16) (hm : 8 ≤ m) (ha : a < o ∨ o + m ≤ a) :
    setUnusedLength mem o m a = mem a := by
  rw [setUnusedLength_eq h, put16_of_outside (by omega), put16_of_outside (by omega)]

theorem unusedAt_setUnusedLength (hfree : get16 mem o = dir2DataFreeTag) (h : m < 2 ^ 16)
    (hm : 8 ≤ m) (hdvd : 8 ∣ m) (ho : o < 2 ^ 16) : UnusedAt (setUnusedLength mem o m) o m := by
  rw [setUnusedLength_eq h]
  refine ⟨?_, ?_, get16_put16 ho, hdvd, by omega⟩
  · rw [get16_put16_of_disjoint (by omega), get16_put16_of_disjoint (by omega), hfree]
  · rw [unusedLength, get16_put16_of_disjoint (by omega), get16_put16 h]

theorem putUnused_outside (h : m < 2 ^ 16) (hm : 8 ≤ m) (ha : a < o ∨ o + m ≤ a) :
    putUnused mem o m a = mem a := by
  rw [putUnused, setUnusedLength_outside h hm ha, put16_of_outside (by omega)]

theorem unusedAt_putUnused (h : m < 2 ^ 16) (hm : 8 ≤ m) (hdvd : 8 ∣ m) (ho : o < 2 ^ 16) :
    UnusedAt (putUnused mem o m) o m :=
  unusedAt_setUnusedLength (get16_put16 (by decide)) h hm hdvd ho

theorem dir3DataEndOffset_congr {blk' : DataBlock} (hgeo : DataGeoOk mp)
    (hmagic : blk'.magic = blk.magic)
    (hsame : ∀ a, dir3DataEndOffset mp blk ≤ a → blk'.mem a = blk.mem a) :
    dir3DataEndOffset mp blk' = dir3DataEndOffset mp blk := by
  have hge := hgeo.blksize_ge
  have hcount : dir3DataEndOffset mp blk ≤ mp.blksize - 8 →
      blockTailCount mp blk' = blockTailCount mp blk := by
    intro hle
    unfold blockTailCount get32
    rw [get16_congr fun a ha _ => hsame a (by omega), get16_congr fun a ha _ => hsame a (by omega)]
  have hblock : blk.magic = .block2 ∨ blk.magic = .block3 →
      dir3DataEndOffset mp blk ≤ mp.blksize - 8 := by
    rintro (hb | hb) <;> simp only [dir3DataEndOffset, hb] <;> omega
  cases hb : blk.magic with
  | data2 => simp [dir3DataEndOffset, hmagic, hb]
  | data3 => simp [dir3DataEndOffset, hmagic, hb]
  | other => simp [dir3DataEndOffset, hmagic, hb]
  | block2 =>
    have := hcount (hblock (.inl hb))
    simp [dir3DataEndOffset, hmagic, this]
  | block3 =>
    have := hcount (hblock (.inr hb))
    simp [dir3DataEndOffset, hmagic, this]

theorem apart_unused (hpre : UnusedApart pre) (hpost : UnusedApart post)
    (hlast : ∀ x ∈ pre.getLast?, x.isUnused = false)
    (hfirst : ∀ y ∈ post.head?, y.isUnused = false) (m : Nat) :
    UnusedApart (pre ++ .unused m :: post) := by
  refine isChain_append.mpr ⟨hpre, ?_, fun x hx y _ hxy => ?_⟩
  · cases post with
    | nil => exact isChain_singleton _
    | cons y ys =>
      refine isChain_cons_cons.mpr ⟨fun hxy => ?_, hpost⟩
      rw [hfirst y rfl] at hxy
      exact Bool.false_ne_true hxy.2
  · rw [hlast x hx] at hxy
    exact Bool.false_ne_true hxy.1

theorem tiled_unused (hgeo : DataGeoOk mp) (hmagic : blk.magic ≠ .other)
    (hpre : TilesAt mp blk.mem (dataEntryOffset mp) pre) (ho : dataEntryOffset mp + itemsSize pre = o)
    (hpost : TilesAt mp blk.mem (o + m) post)
    (hstop : o + m + itemsSize post = dir3DataEndOffset mp blk) (hnew : UnusedAt mem' o m)
    (hsame : ∀ a, a < o ∨ o + m ≤ a → mem' a = blk.mem a)
    (hapart : UnusedApart (pre ++ .unused m :: post)) (bf : BestFree) :
    DataTiled mp { blk with mem := mem', bf := bf } (pre ++ .unused m :: post) := by
  have hend : dir3DataEndOffset mp { blk with mem := mem', bf := bf } = dir3DataEndOffset mp blk :=
    dir3DataEndOffset_congr hgeo rfl fun a ha => hsame a (by omega)
  refine ⟨hmagic, tilesAt_append.mpr ⟨?_, ?_, ?_⟩, ?_, hapart⟩
  · exact hpre.congr fun a _ ha => hsame a (by omega)
  · rw [ho]
    exact hnew
  · rw [ho]
    exact hpost.congr fun a ha _ => hsame a (.inr ha)
  · simp only [itemsSize_append, itemsSize, DataItem.size]
    omega

theorem mem_regionsAt_unused (ho : o + itemsSize pre = offset) :
    d ∈ regionsAt o (pre ++ .unused m :: post) ↔
      d = ⟨offset, m⟩ ∨ d ∈ regionsAt o pre ∨ d ∈ regionsAt (offset + m) post := by
  rw [regionsAt_append, regionsAt, ho, mem_append, mem_cons]
  exact or_left_comm

theorem freeIn_unused (ho : o + itemsSize pre = offset) (a : Nat) :
    FreeIn o (pre ++ .unused m :: post) a ↔
      (offset ≤ a ∧ a < offset + m) ∨ FreeIn o pre a ∨ FreeIn (offset + m) post a := by
  simp [FreeIn, mem_regionsAt_unused ho, or_and_right, exists_or]

/-- A range between items, which are in order on both sides of it. -/
structure DataRange (mp : DirMount) (blk : DataBlock) (pre post : List DataItem)
    (offset len : Nat) : Prop where
  magic : blk.magic ≠ .other
  before : TilesAt mp blk.mem (dataEntryOffset mp) pre
  start : dataEntryOffset mp + itemsSize pre = offset
  behind : TilesAt mp blk.mem (offset + len) post
  stop : offset + len + itemsSize post = dir3DataEndOffset mp blk
  apartBefore : UnusedApart pre
  apartBehind : UnusedApart post
  len_dvd : 8 ∣ len
  len_pos : 0 < len

/-- A range that has no unused region in it, with a good table. -/
structure FreeRange (mp : DirMount) (blk : DataBlock) (pre post : List DataItem)
    (offset len : Nat) : Prop extends DataRange mp blk pre post offset len where
  table : TableOk (fun d => d ∈ regionsAt (dataEntryOffset mp) pre ∨
    d ∈ regionsAt (offset + len) post) blk.bf

def Freed (mp : DirMount) (pre post : List DataItem) (offset len : Nat) (res : DataBlock × Bool) :
    Prop :=
  ∃ items, DataTiled mp res.1 items ∧
    (res.2 = false → TableOk (· ∈ regionsAt (dataEntryOffset mp) items) res.1.bf) ∧
    ∀ a, FreeIn (dataEntryOffset mp) items a ↔ FreeIn (dataEntryOffset mp) pre a ∨
      FreeIn (offset + len) post a ∨ (offset ≤ a ∧ a < offset + len)

namespace FreeRange

theorem bounds (hgeo : DataGeoOk mp) (h : FreeRange mp blk pre post offset len) :
    offset + len + itemsSize post < 2 ^ 16 + 1 ∧ 16 ≤ dataEntryOffset mp ∧ 8 ≤ len := by
  have hend := dir3DataEndOffset_le mp blk
  have hblk := hgeo.blksize_le
  have hstop := h.stop
  have hdvd := h.len_dvd
  have hpos := h.len_pos
  refine ⟨by omega, ?_, by omega⟩
  unfold dataEntryOffset
  split <;> omega

theorem regionsOk (h : FreeRange mp blk pre post offset len) :
    RegionsOk (fun d => d ∈ regionsAt (dataEntryOffset mp) pre ∨
      d ∈ regionsAt (offset + len) post) := by
  refine regionsOk_of_unusedAt blk.mem fun d hd => ?_
  have hpos := dataEntryOffset_pos mp
  have hstart := h.start
  rcases hd with hd | hd
  · have := (regionsAt_bounds hd).1
    exact ⟨by omega, h.before.region hd⟩
  · have := (regionsAt_bounds hd).1
    exact ⟨by omega, h.behind.region hd⟩

theorem prev_unused (h : FreeRange mp blk (pre ++ [.unused n]) post offset len) :
    prevUnused mp blk.mem offset = some (dataEntryOffset mp + itemsSize pre) := by
  have htag := h.before.last_tag
  rw [h.start] at htag
  have hx : UnusedAt blk.mem (dataEntryOffset mp + itemsSize pre) n :=
    (tilesAt_append.mp h.before).2.1
  have hlt : dataEntryOffset mp < offset := by
    have hpos := hx.pos
    rw [← h.start]
    simp only [itemsSize_append, itemsSize, DataItem.size]
    omega
  rw [prevUnused, if_pos hlt, htag, if_pos hx.freetag]

theorem prev_used (hgeo : DataGeoOk mp) (h : FreeRange mp blk pre post offset len)
    (hlast : ∀ x ∈ pre.getLast?, x.isUnused = false) : prevUnused mp blk.mem offset = none := by
  rcases pre.eq_nil_or_concat' with rfl | ⟨pre, x, rfl⟩
  · rw [prevUnused, if_neg]
    have := h.start
    simp only [itemsSize] at this
    omega
  have htag := h.before.last_tag
  rw [h.start] at htag
  have hx := (tilesAt_append.mp h.before).2.1
  have hused := hlast x (by simp)
  have hfree : ¬ get16 blk.mem (dataEntryOffset mp + itemsSize pre) = dir2DataFreeTag := by
    rw [hx.freetag_iff hgeo, hused]
    exact Bool.false_ne_true
  rw [prevUnused, htag, if_neg hfree]
  exact ite_self _

theorem post_unused (h : FreeRange mp blk pre (.unused n :: post) offset len) :
    postUnused blk.mem (dir3DataEndOffset mp blk) (offset + len) = some (offset + len) := by
  have hx : UnusedAt blk.mem (offset + len) n := h.behind.1
  have hpos := hx.pos
  have hstop := h.stop
  simp only [itemsSize, DataItem.size] at hstop
  rw [postUnused, if_pos (by omega), if_pos hx.freetag]

theorem post_used (hgeo : DataGeoOk mp) (h : FreeRange mp blk pre post offset len)
    (hfirst : ∀ y ∈ post.head?, y.isUnused = false) :
    postUnused blk.mem (dir3DataEndOffset mp blk) (offset + len) = none := by
  cases post with
  | nil =>
    have hstop := h.stop
    simp only [itemsSize] at hstop
    rw [postUnused, if_neg (by omega)]
  | cons y ys =>
    have hused : ¬ get16 blk.mem (offset + len) = dir2DataFreeTag := by
      rw [h.behind.1.freetag_iff hgeo, hfirst y rfl]
      exact Bool.false_ne_true
    rw [postUnused, if_neg hused]
    exact ite_self _

end FreeRange

/-- No item, or one unused region. -/
def AtMostUnused (items : List DataItem) : Prop := items = [] ∨ ∃ n, items = [.unused n]

theorem freeIn_append (o : Nat) (xs ys : List DataItem) (a : Nat) :
    FreeIn o (xs ++ ys) a ↔ FreeIn o xs a ∨ FreeIn (o + itemsSize xs) ys a := by
  simp [FreeIn, regionsAt_append, or_and_right, exists_or]

theorem AtMostUnused.freeIn_iff (h : AtMostUnused xs) (o a : Nat) :
    FreeIn o xs a ↔ o ≤ a ∧ a < o + itemsSize xs := by
  rcases h with rfl | ⟨n, rfl⟩
  · simp only [FreeIn, regionsAt, itemsSize, not_mem_nil, false_and, exists_false, false_iff]
    omega
  · simp [FreeIn, regionsAt, itemsSize, DataItem.size]

section Freed

variable {front back : List DataItem} {bf : BestFree} {needscan : Bool}

theorem ne_of_regionsAt {o₁ o₂ : Nat} {xs ys : List DataItem} (hd : d ∈ regionsAt o₁ xs)
    (hr : r ∈ regionsAt o₂ ys) (hpos : 0 < d.length) (hle : o₁ + itemsSize xs ≤ o₂) : d ≠ r := by
  rintro rfl
  have := (regionsAt_bounds hd).2
  have := (regionsAt_bounds hr).1
  omega

theorem FreeRange.freed (hgeo : DataGeoOk mp)
    (h : FreeRange mp blk (pre ++ front) (back ++ post) offset len) (hfront : AtMostUnused front)
    (hback : AtMostUnused back) (hlast : ∀ x ∈ pre.getLast?, x.isUnused = false)
    (hfirst : ∀ y ∈ post.head?, y.isUnused = false)
    (ho : dataEntryOffset mp + itemsSize pre = o)
    (hm : itemsSize front + len + itemsSize back = m) (hnew : UnusedAt mem' o m)
    (hsame : ∀ a, a < o ∨ o + m ≤ a → mem' a = blk.mem a)
    (htable : needscan = false → TableOk (fun d => d = ⟨o, m⟩ ∨ (d ∉ regionsAt o front ∧
      d ∉ regionsAt (offset + len) back ∧
      (d ∈ regionsAt (dataEntryOffset mp) (pre ++ front) ∨
        d ∈ regionsAt (offset + len) (back ++ post)))) bf) :
    Freed mp (pre ++ front) (back ++ post) offset len
      ({ blk with mem := mem', bf := bf }, needscan) := by
  have hstart := h.start
  have hstop := h.stop
  rw [itemsSize_append] at hstart hstop
  obtain ⟨hpre, -⟩ := tilesAt_append.mp h.before
  obtain ⟨-, hpost⟩ := tilesAt_append.mp h.behind
  have hend : offset + len + itemsSize back = o + m := by omega
  rw [hend] at hpost
  refine ⟨pre ++ .unused m :: post, ?_, fun hscan => ?_, fun a => ?_⟩
  · exact tiled_unused hgeo h.magic hpre ho hpost (by omega) hnew hsame
      (apart_unused (isChain_append.mp h.apartBefore).1
        (isChain_append.mp h.apartBehind).2.1 hlast hfirst m) bf
  · refine (htable hscan).congr fun d => ?_
    rw [mem_regionsAt_unused ho, regionsAt_append, regionsAt_append, ho, hend, mem_append,
      mem_append]
    refine or_congr_right ⟨?_, ?_⟩
    · rintro ⟨hf, hb, (hd | hd) | hd | hd⟩
      · exact .inl hd
      · exact absurd hd hf
      · exact absurd hd hb
      · exact .inr hd
    · rintro (hd | hd)
      · have hlen := (hpre.region hd).pos
        exact ⟨fun hr => ne_of_regionsAt hd hr hlen (by omega) rfl,
          fun hr => ne_of_regionsAt hd hr hlen (by omega) rfl, .inl (.inl hd)⟩
      · have hlen := (hpost.region hd).pos
        exact ⟨fun hr => ne_of_regionsAt hr hd hlen (by omega) rfl,
          fun hr => ne_of_regionsAt hr hd hlen (by omega) rfl, .inr (.inr hd)⟩
  · rw [freeIn_unused ho, freeIn_append, freeIn_append, ho, hend, hfront.freeIn_iff,
      hback.freeIn_iff]
    constructor
    · rintro (hrange | hf | hf)
      · by_cases h1 : a < o + itemsSize front
        · exact .inl (.inr (by omega))
        · by_cases h2 : a < offset + len
          · exact .inr (.inr (by omega))
          · exact .inr (.inl (.inl (by omega)))
      · exact .inl (.inl hf)
      · exact .inr (.inl (.inr hf))
    · rintro ((hf | hf) | (hf | hf) | hf)
      · exact .inr (.inl hf)
      · exact .inl (by omega)
      · exact .inl (by omega)
      · exact .inr (.inr hf)
      · exact .inl (by omega)

theorem FreeRange.not_region (h : FreeRange mp blk pre post offset len) (n : Nat) :
    ¬ ((⟨offset, n⟩ : DataFree) ∈ regionsAt (dataEntryOffset mp) pre ∨
      (⟨offset, n⟩ : DataFree) ∈ regionsAt (offset + len) post) := by
  have hstart := h.start
  have hpos := h.len_pos
  rintro (hd | hd)
  · have hb := (regionsAt_bounds hd).2
    have hn := (h.before.region hd).pos
    simp only at hb hn
    omega
  · have hb := (regionsAt_bounds hd).1
    simp only at hb
    omega

theorem FreeRange.front_region (h : FreeRange mp blk (pre ++ [.unused n]) post offset len)
    (ho : dataEntryOffset mp + itemsSize pre = o) :
    UnusedAt blk.mem o n ∧ (⟨o, n⟩ : DataFree) ∈ regionsAt (dataEntryOffset mp) (pre ++ [.unused n]) ∧
      blk.bf.Found ⟨o, n⟩ (dir2DataFreefind blk.bf blk.mem o) ∧
      ∀ m, n < m → ¬ ((⟨o, m⟩ : DataFree) ∈ regionsAt (dataEntryOffset mp) (pre ++ [.unused n]) ∨
        (⟨o, m⟩ : DataFree) ∈ regionsAt (offset + len) post) := by
  have hold : UnusedAt blk.mem o n := ho ▸ (tilesAt_append.mp h.before).2.1
  have hregion : (⟨o, n⟩ : DataFree) ∈ regionsAt (dataEntryOffset mp) (pre ++ [.unused n]) := by
    rw [mem_regionsAt_unused ho]
    exact .inl rfl
  have hfree : freeAt blk.mem o = ⟨o, n⟩ := by rw [freeAt, hold.length]
  have hfound := h.table.freefind h.regionsOk (hfree ▸ Or.inl hregion)
  rw [hfree] at hfound
  refine ⟨hold, hregion, hfound, fun m hm hd => ?_⟩
  have heq := h.regionsOk.unique _ _ hd (.inl hregion) rfl
  simp only [DataFree.mk.injEq, true_and] at heq
  omega

theorem FreeRange.back_region (h : FreeRange mp blk pre (.unused n :: post) offset len) :
    UnusedAt blk.mem (offset + len) n ∧
      (⟨offset + len, n⟩ : DataFree) ∈ regionsAt (offset + len) (.unused n :: post) ∧
      blk.bf.Found ⟨offset + len, n⟩ (dir2DataFreefind blk.bf blk.mem (offset + len)) := by
  have hold : UnusedAt blk.mem (offset + len) n := h.behind.1
  have hregion : (⟨offset + len, n⟩ : DataFree) ∈
      regionsAt (offset + len) (.unused n :: post) := mem_cons_self
  have hfree : freeAt blk.mem (offset + len) = ⟨offset + len, n⟩ := by rw [freeAt, hold.length]
  have hfound := h.table.freefind h.regionsOk (hfree ▸ Or.inr hregion)
  rw [hfree] at hfound
  exact ⟨hold, hregion, hfound⟩

section

variable (hgeo : DataGeoOk mp)
include hgeo

theorem FreeRange.make_alone (h : FreeRange mp blk pre post offset len)
    (hlast : ∀ x ∈ pre.getLast?, x.isUnused = false) (hfirst : ∀ y ∈ post.head?, y.isUnused = false) :
    Freed mp pre post offset len (dir2DataMakeFree mp blk offset len) := by
  obtain ⟨hbound, hge, hlen⟩ := h.bounds hgeo
  have hstart := h.start
  have hnew : UnusedAt (putUnused blk.mem offset len) offset len :=
    unusedAt_putUnused (by omega) hlen h.len_dvd (by omega)
  have h' : FreeRange mp blk (pre ++ []) ([] ++ post) offset len := by
    rw [append_nil]
    exact h
  rw [dir2DataMakeFree, h.prev_used hgeo hlast, h.post_used hgeo hfirst]
  simp only [freeAt, hnew.length]
  have hdone : Freed mp (pre ++ []) ([] ++ post) offset len ({ blk with
      mem := putUnused blk.mem offset len
      bf := (dir2DataFreeinsert blk.bf ⟨offset, len⟩).1 }, false) :=
    h'.freed hgeo (.inl rfl) (.inl rfl) hlast hfirst h.start (by simp [itemsSize]) hnew
      (fun a ha => putUnused_outside (by omega) hlen ha)
      (fun _ => (h.table.insert (h.not_region len)).congr fun d => by simp [regionsAt])
  rwa [append_nil] at hdone

theorem FreeRange.make_prev (h : FreeRange mp blk (pre ++ [.unused n]) post offset len)
    (hfirst : ∀ y ∈ post.head?, y.isUnused = false) :
    Freed mp (pre ++ [.unused n]) post offset len (dir2DataMakeFree mp blk offset len) := by
  obtain ⟨hbound, hge, hlen⟩ := h.bounds hgeo
  have hstart := h.start
  simp only [itemsSize_append, itemsSize, DataItem.size, add_zero] at hstart
  generalize ho : dataEntryOffset mp + itemsSize pre = o at *
  obtain ⟨hold, hregion, hfound, habsent⟩ := h.front_region ho
  have hnew : UnusedAt (setUnusedLength blk.mem o (n + len)) o (n + len) :=
    unusedAt_setUnusedLength hold.freetag (by omega) (by omega)
      (Nat.dvd_add hold.aligned h.len_dvd) (by omega)
  rw [dir2DataMakeFree, h.prev_unused, h.post_used hgeo hfirst, ho]
  simp only [freeAt, hold.length, hnew.length]
  have h' : FreeRange mp blk (pre ++ [.unused n]) ([] ++ post) offset len := h
  rcases hgrow : growFree blk.bf (dir2DataFreefind blk.bf blk.mem o) ⟨o, n + len⟩ with
    ⟨bf, needscan⟩
  refine h'.freed hgeo (.inr ⟨n, rfl⟩) (.inl rfl) h.apartBefore.prev_used hfirst ho
    (by simp [itemsSize, DataItem.size]) hnew
    (fun a ha => setUnusedLength_outside (by omega) (by omega) ha) fun hscan => ?_
  have hgrown := h.table.growFree (.inl hregion) (habsent (n + len) (by omega)) hfound
    (show n < n + len by omega) (by rw [hgrow]; exact hscan)
  rw [hgrow] at hgrown
  exact hgrown.congr fun d => by simp [regionsAt]

theorem FreeRange.make_post (h : FreeRange mp blk pre (.unused n :: post) offset len)
    (hlast : ∀ x ∈ pre.getLast?, x.isUnused = false) :
    Freed mp pre (.unused n :: post) offset len (dir2DataMakeFree mp blk offset len) := by
  obtain ⟨hbound, hge, hlen⟩ := h.bounds hgeo
  have hstart := h.start
  simp only [itemsSize, DataItem.size] at hbound
  obtain ⟨hold, hregion, hfound⟩ := h.back_region
  have hnew : UnusedAt (putUnused blk.mem offset (len + n)) offset (len + n) :=
    unusedAt_putUnused (by omega) (by omega) (Nat.dvd_add h.len_dvd hold.aligned) (by omega)
  rw [dir2DataMakeFree, h.prev_used hgeo hlast, h.post_unused]
  simp only [freeAt, hold.length, hnew.length]
  have h' : FreeRange mp blk (pre ++ []) ([.unused n] ++ post) offset len := by
    rw [append_nil]
    exact h
  rcases hgrow : growFree blk.bf (dir2DataFreefind blk.bf blk.mem (offset + len))
    ⟨offset, len + n⟩ with ⟨bf, needscan⟩
  have hdone : Freed mp (pre ++ []) ([.unused n] ++ post) offset len
      ({ blk with mem := putUnused blk.mem offset (len + n), bf := bf }, needscan) := by
    refine h'.freed hgeo (.inl rfl) (.inr ⟨n, rfl⟩) hlast h.apartBehind.next_used h.start
      (by simp [itemsSize, DataItem.size]) hnew
      (fun a ha => putUnused_outside (by omega) (by omega) ha) fun hscan => ?_
    have hgrown := h.table.growFree (.inr hregion) (h.not_region _) hfound
      (show n < len + n by omega) (by rw [hgrow]; exact hscan)
    rw [hgrow] at hgrown
    exact hgrown.congr fun d => by simp [regionsAt]
  rwa [append_nil] at hdone

theorem FreeRange.make_both {k : Nat}
    (h : FreeRange mp blk (pre ++ [.unused n]) (.unused k :: post) offset len) :
    Freed mp (pre ++ [.unused n]) (.unused k :: post) offset len
      (dir2DataMakeFree mp blk offset len) := by
  obtain ⟨hbound, hge, hlen⟩ := h.bounds hgeo
  have hstart := h.start
  simp only [itemsSize_append, itemsSize, DataItem.size, add_zero] at hstart hbound
  generalize ho : dataEntryOffset mp + itemsSize pre = o at *
  obtain ⟨hold, hregion, hfound, habsent⟩ := h.front_region ho
  obtain ⟨hold2, hregion2, hfound2⟩ := h.back_region
  have hnew : UnusedAt (setUnusedLength blk.mem o (n + (len + k))) o (n + (len + k)) :=
    unusedAt_setUnusedLength hold.freetag (by omega) (by omega)
      (Nat.dvd_add hold.aligned (Nat.dvd_add h.len_dvd hold2.aligned)) (by omega)
  rw [dir2DataMakeFree, h.prev_unused, h.post_unused, ho]
  simp only [freeAt, hold.length, hold2.length, hnew.length]
  have h' : FreeRange mp blk (pre ++ [.unused n]) ([.unused k] ++ post) offset len := h
  rcases hjoin : joinFree blk.bf (dir2DataFreefind blk.bf blk.mem o)
    (dir2DataFreefind blk.bf blk.mem (offset + len)) ⟨o, n + (len + k)⟩ with ⟨bf, needscan⟩
  refine h'.freed hgeo (.inr ⟨n, rfl⟩) (.inr ⟨k, rfl⟩) h.apartBefore.prev_used
    h.apartBehind.next_used ho (by simp [itemsSize, DataItem.size, add_assoc]) hnew
    (fun a ha => setUnusedLength_outside (by omega) (by omega) ha) fun hscan => ?_
  have hne : (⟨o, n⟩ : DataFree) ≠ ⟨offset + len, k⟩ := by
    simp only [ne_eq, DataFree.mk.injEq, not_and]
    omega
  have hjoined := h.table.joinFree (.inl hregion) h.regionsOk.length (.inr hregion2) hne
    (habsent (n + (len + k)) (by omega)) hfound hfound2 (by rw [hjoin]; exact hscan)
  rw [hjoin] at hjoined
  exact hjoined.congr fun d => by simp [regionsAt]

theorem FreeRange.make_free (h : FreeRange mp blk pre post offset len) :
    Freed mp pre post offset len (dir2DataMakeFree mp blk offset len) := by
  have hprev : (∃ pre' n, pre = pre' ++ [.unused n]) ∨ ∀ x ∈ pre.getLast?, x.isUnused = false := by
    rcases pre.eq_nil_or_concat' with rfl | ⟨pre', x, rfl⟩
    · exact .inr (by simp)
    · cases x with
      | entry n => exact .inr (by simp [DataItem.isUnused])
      | unused n => exact .inl ⟨pre', n, rfl⟩
  have hpost : (∃ n post', post = .unused n :: post') ∨ ∀ y ∈ post.head?, y.isUnused = false := by
    cases post with
    | nil => exact .inr (by simp)
    | cons y ys =>
      cases y with
      | entry n => exact .inr (by simp [DataItem.isUnused])
      | unused n => exact .inl ⟨n, ys, rfl⟩
  rcases hprev with ⟨pre', n, rfl⟩ | hlast <;> rcases hpost with ⟨k, post', rfl⟩ | hfirst
  · exact h.make_both hgeo
  · exact h.make_prev hgeo hfirst
  · exact h.make_post hgeo hlast
  · exact h.make_alone hgeo hlast hfirst

end

end Freed

end Xfs
