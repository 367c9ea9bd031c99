import Xfs.Dir.ShortForm

/-! The bytes of a short-form directory as the encoding of its entries, and
what scanning and converting do to the entries. -/
namespace Xfs

open List

structure DirEntry where
  name : Bytes
  offset : Nat
  ftype : Nat
  ino : Nat
deriving Repr, DecidableEq

def DirEntry.encode (mp : DirMount) (i8count : Nat) (e : DirEntry) : Bytes :=
  entBytes mp i8count e.name e.offset e.ftype e.ino

def encodeEntries (mp : DirMount) (i8count : Nat) (es : List DirEntry) : Bytes :=
  es.flatMap (DirEntry.encode mp i8count)

def InoFits (i8count ino : Nat) : Prop :=
  ino ≤ maxInumber ∧ (i8count = 0 → ino ≤ dir2MaxShortInum)

structure DirEntry.Fits (mp : DirMount) (e : DirEntry) : Prop where
  name : e.name.length < 256
  offset : e.offset < 2 ^ 16
  ftype : e.ftype < dir3FtMax
  noFtype : mp.hasFtype = false → e.ftype = 0

structure DirHolds (mp : DirMount) (i8count parent : Nat) (es : List DirEntry) (buf : Bytes) :
    Prop where
  eq : buf = hdrBytes es.length i8count parent ++ encodeEntries mp i8count es
  count_lt : es.length < 256
  i8count_lt : i8count < 256
  parent : InoFits i8count parent
  inos : ∀ e ∈ es, InoFits i8count e.ino
  fits : ∀ e ∈ es, e.Fits mp

variable {mp : DirMount} {i8count parent start : Nat} {es pre post : List DirEntry} {e : DirEntry}
  {buf before behind name : Bytes} {ino : Nat}

@[simp] theorem encodeEntries_nil : encodeEntries mp i8count [] = [] := rfl

@[simp] theorem encodeEntries_cons :
    encodeEntries mp i8count (e :: es) = e.encode mp i8count ++ encodeEntries mp i8count es :=
  flatMap_cons

@[simp] theorem encodeEntries_append : encodeEntries mp i8count (pre ++ post) =
      encodeEntries mp i8count pre ++ encodeEntries mp i8count post := flatMap_append

theorem forall_mem_middle {p : DirEntry → Prop} :
    (∀ x ∈ pre ++ e :: post, p x) ↔ p e ∧ ∀ x ∈ pre ++ post, p x := by
  simp only [forall_mem_append, forall_mem_cons]
  exact and_left_comm

theorem length_entBytes (mp : DirMount) (i8count : Nat) (name : Bytes) (offset ftype ino : Nat) :
    (entBytes mp i8count name offset ftype ino).length = dir2SfEntsize mp i8count name.length := by
  cases h : mp.hasFtype <;> simp [entBytes, dir2SfEntsize, ftypeSize, h] <;> omega

@[simp] theorem DirEntry.length_encode :
    (e.encode mp i8count).length = dir2SfEntsize mp i8count e.name.length :=
  length_entBytes _ _ _ _ _ _

theorem length_hdrBytes (count i8count parent : Nat) :
    (hdrBytes count i8count parent).length = dir2SfHdrSize i8count := by
  unfold dir2SfHdrSize
  simp only [hdrBytes, length_cons, length_putBe, inoSize, ino64Diff]
  split <;> omega

theorem inoFits_lt (h : InoFits i8count ino) : ino < 256 ^ inoSize i8count := by
  obtain ⟨hmax, hshort⟩ := h
  unfold inoSize
  split
  case isTrue h0 =>
    have := hshort h0
    unfold dir2MaxShortInum at this
    omega
  case isFalse =>
    unfold maxInumber at hmax
    omega

theorem getIno_putBe (h : InoFits i8count ino) :
    getIno i8count (putBe (inoSize i8count) ino) = ino := by
  have hmax := h.1
  unfold maxInumber at hmax
  rw [getIno, getBe_putBe (inoFits_lt h)]
  split
  · rfl
  · exact Nat.mod_eq_of_lt (by omega)

section Entry

variable (hfit : e.Fits mp)
include hfit

theorem entNamelen_encode :
    entNamelen (before ++ (e.encode mp i8count ++ behind)) before.length = e.name.length := by
  have hlt := hfit.name
  simp only [entNamelen, DirEntry.encode, entBytes, cons_append, getD_append_cons]
  rw [UInt8.toNat_ofNat', Nat.mod_eq_of_lt (by omega)]

theorem entOffset_encode :
    entOffset (before ++ (e.encode mp i8count ++ behind)) before.length = e.offset := by
  have hlt := hfit.offset
  have hbefore : (before ++ [UInt8.ofNat e.name.length]) ++ putBe 2 e.offset <+:
      before ++ (e.encode mp i8count ++ behind) := by
    simp [DirEntry.encode, entBytes]
  rw [entOffset, slice_of_prefix hbefore (by simp) (length_putBe _ _), getBe_putBe (by omega)]

theorem entName_encode :
    entName (before ++ (e.encode mp i8count ++ behind)) before.length = e.name := by
  have hbefore : (before ++ UInt8.ofNat e.name.length :: putBe 2 e.offset) ++ e.name <+:
      before ++ (e.encode mp i8count ++ behind) := by
    simp [DirEntry.encode, entBytes]
  rw [entName, entNamelen_encode hfit, slice_of_prefix hbefore (by simp) rfl]

theorem entFtype_encode :
    entFtype mp (before ++ (e.encode mp i8count ++ behind)) before.length = e.ftype := by
  rw [entFtype, entNamelen_encode hfit]
  cases hft : mp.hasFtype with
  | false => simp [hfit.noFtype hft]
  | true =>
    have hlt := hfit.ftype
    have hbyte : (UInt8.ofNat e.ftype).toNat = e.ftype := by
      unfold dir3FtMax at hlt
      rw [UInt8.toNat_ofNat', Nat.mod_eq_of_lt (by omega)]
    have hsplit : before ++ (e.encode mp i8count ++ behind) =
        (before ++ (UInt8.ofNat e.name.length :: putBe 2 e.offset ++ e.name)) ++
          UInt8.ofNat e.ftype :: (putBe (inoSize i8count) e.ino ++ behind) := by
      simp [DirEntry.encode, entBytes, hft]
    have hlen : (before ++ (UInt8.ofNat e.name.length :: putBe 2 e.offset ++ e.name)).length =
        before.length + 3 + e.name.length := by
      simp only [length_append, length_cons, length_putBe]
      omega
    rw [hsplit, ← hlen, getD_append_cons, hbyte]
    simp only [if_true, if_pos hlt]

theorem entIno_encode (hino : InoFits i8count e.ino)
    (h8 : sfI8count (before ++ (e.encode mp i8count ++ behind)) = i8count) :
    entIno mp (before ++ (e.encode mp i8count ++ behind)) before.length = e.ino := by
  have hbefore : (before ++ (UInt8.ofNat e.name.length :: putBe 2 e.offset ++ (e.name ++
      if mp.hasFtype then [UInt8.ofNat e.ftype] else []))) ++ putBe (inoSize i8count) e.ino <+:
      before ++ (e.encode mp i8count ++ behind) := by
    simp [DirEntry.encode, entBytes]
  have hlen : (before ++ (UInt8.ofNat e.name.length :: putBe 2 e.offset ++ (e.name ++
      if mp.hasFtype then [UInt8.ofNat e.ftype] else []))).length =
      before.length + 3 + e.name.length + ftypeSize mp := by
    cases hft : mp.hasFtype <;> simp [ftypeSize, hft] <;> omega
  rw [entIno, h8, entNamelen_encode hfit, slice_of_prefix hbefore hlen (length_putBe _ _),
    getIno_putBe hino]

end Entry

def entPos (mp : DirMount) (i8count : Nat) (pre : List DirEntry) : Nat :=
  dir2SfHdrSize i8count + (encodeEntries mp i8count pre).length

@[simp] theorem entPos_nil : entPos mp i8count [] = dir2SfHdrSize i8count := rfl

theorem entPos_concat (mp : DirMount) (i8count : Nat) (pre : List DirEntry) (e : DirEntry) :
    entPos mp i8count (pre ++ [e]) =
      entPos mp i8count pre + dir2SfEntsize mp i8count e.name.length := by
  simp [entPos, add_assoc]

namespace DirHolds

section

variable (h : DirHolds mp i8count parent es buf)
include h

theorem count : sfCount buf = es.length := by
  have hlt := h.count_lt
  rw [sfCount, h.eq, hdrBytes]
  simp only [cons_append, getD_cons_zero]
  rw [UInt8.toNat_ofNat', Nat.mod_eq_of_lt (by omega)]

theorem i8 : sfI8count buf = i8count := by
  have hlt := h.i8count_lt
  rw [sfI8count, h.eq, hdrBytes]
  simp only [cons_append, getD_cons_succ, getD_cons_zero]
  rw [UInt8.toNat_ofNat', Nat.mod_eq_of_lt (by omega)]

theorem parentIno : sfParentIno buf = parent := by
  have hslice := slice_append [UInt8.ofNat es.length, UInt8.ofNat i8count]
    (putBe (inoSize i8count) parent) (encodeEntries mp i8count es) (inoSize i8count)
    (length_putBe _ _)
  have hread : slice buf 2 (inoSize i8count) = putBe (inoSize i8count) parent := by
    rw [h.eq]
    exact hslice
  rw [sfParentIno, h.i8, hread, getIno_putBe h.parent]

theorem length : buf.length = entPos mp i8count es := by
  rw [h.eq, length_append, length_hdrBytes, entPos]

end

section Split

variable (h : DirHolds mp i8count parent (pre ++ e :: post) buf)
include h

theorem split : buf = (hdrBytes (pre ++ e :: post).length i8count parent ++
    encodeEntries mp i8count pre) ++ (e.encode mp i8count ++ encodeEntries mp i8count post) := by
  rw [h.eq, encodeEntries_append, encodeEntries_cons, append_assoc]

omit h in
theorem before_length : (hdrBytes (pre ++ e :: post).length i8count parent ++
    encodeEntries mp i8count pre).length = entPos mp i8count pre := by
  rw [length_append, length_hdrBytes, entPos]

theorem fitsAt : e.Fits mp := h.fits e (by simp)

theorem namelenAt : entNamelen buf (entPos mp i8count pre) = e.name.length := by
  rw [h.split, ← before_length]
  exact entNamelen_encode h.fitsAt

theorem offsetAt : entOffset buf (entPos mp i8count pre) = e.offset := by
  rw [h.split, ← before_length]
  exact entOffset_encode h.fitsAt

theorem nameAt : entName buf (entPos mp i8count pre) = e.name := by
  rw [h.split, ← before_length]
  exact entName_encode h.fitsAt

theorem ftypeAt : entFtype mp buf (entPos mp i8count pre) = e.ftype := by
  rw [h.split, ← before_length]
  exact entFtype_encode h.fitsAt

theorem inoAt : entIno mp buf (entPos mp i8count pre) = e.ino := by
  have h8 := h.i8
  rw [h.split] at h8
  rw [h.split, ← before_length]
  exact entIno_encode h.fitsAt (h.inos e (by simp)) h8

theorem nextAt : entNext mp buf (entPos mp i8count pre) = entPos mp i8count (pre ++ [e]) := by
  rw [entNext, h.i8, h.namelenAt, entPos_concat]

end Split

theorem copyEntries_eq (h : DirHolds mp i8count parent (pre ++ post) buf) (i8count' : Nat) :
    copyEntries mp buf i8count' post.length (entPos mp i8count pre) =
      encodeEntries mp i8count' post := by
  induction post generalizing pre with
  | nil => rfl
  | cons e post ih =>
    rw [length_cons, copyEntries, h.nameAt, h.offsetAt, h.ftypeAt, h.inoAt, h.nextAt,
      ih (by simpa using h), encodeEntries_cons, DirEntry.encode]

theorem convert {dp : DirInode} (h : DirHolds mp i8count parent es dp.buf) {i8count' : Nat}
    (hlt : i8count' < 256) (hparent : InoFits i8count' parent)
    (hinos : ∀ e ∈ es, InoFits i8count' e.ino) (newsize : Nat) :
    DirHolds mp i8count' parent es (dir2SfConvert mp i8count' newsize dp).buf := by
  refine ⟨?_, h.count_lt, hlt, hparent, hinos, h.fits⟩
  simp only [dir2SfConvert]
  have hall : DirHolds mp i8count parent ([] ++ es) dp.buf := h
  rw [h.count, h.parentIno, h.i8, ← entPos_nil, hall.copyEntries_eq]

theorem findname_from (h : DirHolds mp i8count parent (pre ++ post) buf) (name : Bytes) :
    (dir2SfFindname mp name buf post.length (entPos mp i8count pre) = none ∧
        ∀ e ∈ post, e.name ≠ name) ∨
      ∃ mid e rest, post = mid ++ e :: rest ∧ e.name = name ∧
        dir2SfFindname mp name buf post.length (entPos mp i8count pre) =
          some (entPos mp i8count (pre ++ mid)) := by
  induction post generalizing pre with
  | nil => exact .inl ⟨rfl, by simp⟩
  | cons e post ih =>
    rw [length_cons, dir2SfFindname, h.namelenAt, h.nameAt, h.nextAt]
    by_cases hn : e.name = name
    · refine .inr ⟨[], e, post, rfl, hn, ?_⟩
      rw [if_pos ⟨by rw [hn], hn.symm⟩, append_nil]
    · rw [if_neg (fun hc => hn hc.2.symm)]
      have hnext : DirHolds mp i8count parent ((pre ++ [e]) ++ post) buf := by simpa using h
      rcases ih hnext with ⟨hrun, hall⟩ | ⟨mid, x, rest, rfl, hx, hrun⟩
      · exact .inl ⟨hrun, forall_mem_cons.mpr ⟨hn, hall⟩⟩
      · exact .inr ⟨e :: mid, x, rest, rfl, hx, by rw [hrun]; simp⟩

theorem findname (h : DirHolds mp i8count parent es buf) (name : Bytes) :
    (dir2SfFindname mp name buf (sfCount buf) (dir2SfHdrSize i8count) = none ∧
        ∀ e ∈ es, e.name ≠ name) ∨
      ∃ pre e post, es = pre ++ e :: post ∧ e.name = name ∧
        dir2SfFindname mp name buf (sfCount buf) (dir2SfHdrSize i8count) =
          some (entPos mp i8count pre) := by
  rw [h.count]
  have h' : DirHolds mp i8count parent ([] ++ es) buf := h
  exact h'.findname_from name

end DirHolds

def DirEntry.dataEnd (mp : DirMount) (e : DirEntry) : Nat :=
  e.offset + dir2DataEntsize mp e.name.length

def offsetsEnd (mp : DirMount) : Nat → List DirEntry → Nat
  | start, [] => start
  | _, e :: es => offsetsEnd mp (e.dataEnd mp) es

/-- No entry starts before the one in front of it ends. -/
def OffsetsOk (mp : DirMount) : Nat → List DirEntry → Prop
  | _, [] => True
  | start, e :: es => start ≤ e.offset ∧ OffsetsOk mp (e.dataEnd mp) es

def hasHole (mp : DirMount) (size : Nat) : Nat → List DirEntry → Bool
  | _, [] => false
  | start, e :: es => decide (start + size ≤ e.offset) || hasHole mp size (e.dataEnd mp) es

theorem offsetsEnd_append (mp : DirMount) (start : Nat) (pre post : List DirEntry) :
    offsetsEnd mp start (pre ++ post) = offsetsEnd mp (offsetsEnd mp start pre) post := by
  induction pre generalizing start with
  | nil => rfl
  | cons e pre ih => exact ih _

theorem offsetsOk_append {mp : DirMount} {pre post : List DirEntry} :
    OffsetsOk mp start (pre ++ post) ↔
      OffsetsOk mp start pre ∧ OffsetsOk mp (offsetsEnd mp start pre) post := by
  induction pre generalizing start with
  | nil => simp [OffsetsOk, offsetsEnd]
  | cons e pre ih => simp [OffsetsOk, ih, offsetsEnd, and_assoc]

theorem OffsetsOk.le_end {mp : DirMount} {es : List DirEntry} (h : OffsetsOk mp start es) :
    start ≤ offsetsEnd mp start es := by
  induction es generalizing start with
  | nil => exact le_rfl
  | cons e es ih =>
    have h1 := h.1
    have h2 := ih h.2
    rw [offsetsEnd]
    unfold DirEntry.dataEnd at h2
    unfold DirEntry.dataEnd
    omega

theorem OffsetsOk.mono {mp : DirMount} {start' : Nat} {es : List DirEntry}
    (h : OffsetsOk mp start es) (hle : start' ≤ start) : OffsetsOk mp start' es := by
  cases es with
  | nil => trivial
  | cons e es => exact ⟨hle.trans h.1, h.2⟩

end Xfs
