import Xfs.Dir.ShortFormBytes

/-! What adding, removing and replacing do to the entries of a short-form
directory and to its sizes. -/
namespace Xfs

open List

variable {mp : DirMount} {i8count parent n ino : Nat} {es pre post : List DirEntry} {e : DirEntry}
  {buf rest : Bytes} {dp : DirInode} {args : DirArgs} {large : Bool} {count start ftype : Nat}

theorem setCount_hdrBytes (count i8count parent n : Nat) (rest : Bytes) :
    setCount (hdrBytes count i8count parent ++ rest) n = hdrBytes n i8count parent ++ rest := rfl

theorem inoSize_of_ne_zero (h : n ≠ 0) : inoSize n = 8 := if_neg h

theorem setI8count_hdrBytes (count parent : Nat) {i8count : Nat} (h : i8count ≠ 0) (hn : n ≠ 0)
    (rest : Bytes) :
    setI8count (hdrBytes count i8count parent ++ rest) n = hdrBytes count n parent ++ rest := by
  simp only [hdrBytes, inoSize_of_ne_zero h, inoSize_of_ne_zero hn]
  rfl

theorem sfCount_hdrBytes (h : count < 256) (i8count parent : Nat) (rest : Bytes) :
    sfCount (hdrBytes count i8count parent ++ rest) = count := by
  show (UInt8.ofNat count).toNat = count
  rw [UInt8.toNat_ofNat', Nat.mod_eq_of_lt (by omega)]

theorem sfI8count_hdrBytes {i8count : Nat} (h : i8count < 256) (count parent : Nat)
    (rest : Bytes) : sfI8count (hdrBytes count i8count parent ++ rest) = i8count := by
  show (UInt8.ofNat i8count).toNat = i8count
  rw [UInt8.toNat_ofNat', Nat.mod_eq_of_lt (by omega)]

theorem encodeEntries_wide (h : i8count ≠ 0) (hn : n ≠ 0) :
    encodeEntries mp i8count es = encodeEntries mp n es := by
  unfold encodeEntries DirEntry.encode entBytes
  rw [inoSize_of_ne_zero h, inoSize_of_ne_zero hn]

theorem inoFits_wide (h : InoFits i8count ino) (hn : n ≠ 0) : InoFits n ino :=
  ⟨h.1, fun h0 => absurd h0 hn⟩

/-- The fork holds these entries, and both sizes are the length of the buffer. -/
structure SfHolds (mp : DirMount) (i8count parent : Nat) (es : List DirEntry) (dp : DirInode) :
    Prop where
  holds : DirHolds mp i8count parent es dp.buf
  ifBytes : dp.ifBytes = dp.buf.length
  diskSize : dp.diskSize = dp.buf.length

namespace SfHolds

theorem unique {dp' : DirInode} (h : SfHolds mp i8count parent es dp)
    (h' : SfHolds mp i8count parent es dp') : dp = dp' := by
  have hbuf : dp.buf = dp'.buf := by rw [h.holds.eq, h'.holds.eq]
  have hif : dp.ifBytes = dp'.ifBytes := by rw [h.ifBytes, h'.ifBytes, hbuf]
  have hsize : dp.diskSize = dp'.diskSize := by rw [h.diskSize, h'.diskSize, hbuf]
  cases dp
  cases dp'
  simp_all

theorem length_narrow_wide (hn : n ≠ 0) (mp : DirMount) (es : List DirEntry) :
    entPos mp n es = entPos mp 0 es + (es.length + 1) * ino64Diff := by
  have hlen : (encodeEntries mp n es).length =
      (encodeEntries mp 0 es).length + es.length * ino64Diff := by
    induction es with
    | nil => rfl
    | cons x xs ih =>
      simp only [encodeEntries_cons, length_append, DirEntry.length_encode, ih,
        length_cons, dir2SfEntsize, inoSize_of_ne_zero hn, ino64Diff]
      rw [show inoSize 0 = 4 from rfl]
      omega
  unfold entPos dir2SfHdrSize
  rw [hlen, if_neg hn, if_pos rfl]
  unfold ino64Diff
  omega

theorem toino8 (h : SfHolds mp 0 parent es dp) : SfHolds mp 1 parent es (dir2SfToino8 mp dp) := by
  have hbuf : DirHolds mp 1 parent es (dir2SfToino8 mp dp).buf :=
    h.holds.convert (by omega) (inoFits_wide h.holds.parent one_ne_zero)
      (fun e he => inoFits_wide (h.holds.inos e he) one_ne_zero) _
  have hsize : dp.ifBytes + (sfCount dp.buf + 1) * ino64Diff = (dir2SfToino8 mp dp).buf.length := by
    rw [hbuf.length, length_narrow_wide one_ne_zero, h.ifBytes, h.holds.length, h.holds.count]
  exact ⟨hbuf, hsize, hsize⟩

theorem toino4 (h : SfHolds mp i8count parent es dp) (h8 : i8count ≠ 0)
    (hparent : InoFits 0 parent) (hinos : ∀ e ∈ es, InoFits 0 e.ino) :
    SfHolds mp 0 parent es (dir2SfToino4 mp dp) := by
  have hbuf : DirHolds mp 0 parent es (dir2SfToino4 mp dp).buf :=
    h.holds.convert (by omega) hparent hinos _
  have hsize : dp.ifBytes - (sfCount dp.buf + 1) * ino64Diff = (dir2SfToino4 mp dp).buf.length := by
    rw [hbuf.length, h.ifBytes, h.holds.length, length_narrow_wide h8, h.holds.count,
      Nat.add_sub_cancel]
  exact ⟨hbuf, hsize, hsize⟩

theorem toino4_toino8 (h : SfHolds mp 0 parent es dp) : dir2SfToino4 mp (dir2SfToino8 mp dp) = dp :=
  (h.toino8.toino4 one_ne_zero h.holds.parent h.holds.inos).unique h

theorem setI8 (h : SfHolds mp i8count parent es dp) (h8 : i8count ≠ 0) (hn : n ≠ 0) (hlt : n < 256) :
    SfHolds mp n parent es { dp with buf := setI8count dp.buf n } := by
  have hbuf : setI8count dp.buf n = hdrBytes es.length n parent ++ encodeEntries mp n es := by
    rw [h.holds.eq, setI8count_hdrBytes _ _ h8 hn, encodeEntries_wide h8 hn]
  have hlen : (setI8count dp.buf n).length = dp.buf.length := length_set
  exact ⟨⟨hbuf, h.holds.count_lt, hlt, inoFits_wide h.holds.parent hn,
    fun e he => inoFits_wide (h.holds.inos e he) hn, h.holds.fits⟩,
    h.ifBytes.trans hlen.symm, h.diskSize.trans hlen.symm⟩

theorem dropLarge (h : SfHolds mp (n + 1) parent es dp) (hparent : InoFits n parent)
    (hinos : ∀ e ∈ es, InoFits n e.ino) :
    SfHolds mp n parent es (dropLarge mp dp) := by
  have hlt := h.holds.i8count_lt
  rw [Xfs.dropLarge, h.holds.i8]
  by_cases hn : n = 0
  · subst hn
    exact h.toino4 one_ne_zero hparent hinos
  · rw [if_neg (by omega), show (n + 1 + 255) % 2 ^ 8 = n by omega]
    exact h.setI8 (by omega) hn (by omega)

theorem raiseLarge (h : SfHolds mp i8count parent es dp) (h8 : i8count ≠ 0)
    (hlt : i8count + 1 < 256) : SfHolds mp (i8count + 1) parent es
      { dp with buf := setI8count dp.buf ((sfI8count dp.buf + 1) % 2 ^ 8) } := by
  rw [h.holds.i8, show (i8count + 1) % 2 ^ 8 = i8count + 1 by omega]
  exact h.setI8 h8 (by omega) hlt

end SfHolds

namespace DirHolds

section

variable (h : DirHolds mp i8count parent (pre ++ post) buf)
include h

theorem cut :
    buf = (hdrBytes (pre ++ post).length i8count parent ++ encodeEntries mp i8count pre) ++
      encodeEntries mp i8count post := by
  rw [h.eq, encodeEntries_append, append_assoc]

theorem take_entPos : buf.take (entPos mp i8count pre) =
      hdrBytes (pre ++ post).length i8count parent ++ encodeEntries mp i8count pre := by
  have hlen : (hdrBytes (pre ++ post).length i8count parent ++
      encodeEntries mp i8count pre).length = entPos mp i8count pre := by
    rw [length_append, length_hdrBytes, entPos]
  rw [h.cut, ← hlen, take_left]

theorem slice_entPos : slice buf (entPos mp i8count pre) (buf.length - entPos mp i8count pre) =
      encodeEntries mp i8count post := by
  have hlen : (hdrBytes (pre ++ post).length i8count parent ++
      encodeEntries mp i8count pre).length = entPos mp i8count pre := by
    rw [length_append, length_hdrBytes, entPos]
  have hdrop : buf.drop (entPos mp i8count pre) = encodeEntries mp i8count post := by
    rw [h.cut, ← hlen, drop_left]
  rw [slice, hdrop, ← hdrop, ← length_drop, take_length]

end

end DirHolds

theorem countEntry_hdrBytes (hcount : count + 1 < 256) (h8 : i8count + 1 < 256)
    (hlarge : large → i8count ≠ 0) (parent : Nat) (rest : Bytes) :
    countEntry (hdrBytes count i8count parent ++ rest) large =
      hdrBytes (count + 1) (i8count + large.toNat) parent ++ rest := by
  rw [countEntry, sfCount_hdrBytes (by omega), setCount_hdrBytes,
    show (count + 1) % 2 ^ 8 = count + 1 by omega]
  cases large with
  | false => rfl
  | true =>
    rw [if_pos rfl, sfI8count_hdrBytes (by omega),
      show (i8count + 1) % 2 ^ 8 = i8count + 1 by omega,
      setI8count_hdrBytes _ _ (hlarge rfl) (by omega)]
    rfl

section

variable (h : DirHolds mp i8count parent (pre ++ post) buf)
include h

theorem DirHolds.insert (hfit : e.Fits mp) (hino : InoFits i8count e.ino)
    (hcount : (pre ++ post).length + 1 < 256) (h8 : i8count + 1 < 256)
    (hlarge : large → i8count ≠ 0) :
    DirHolds mp (i8count + large.toNat) parent (pre ++ e :: post)
      (countEntry (buf.take (entPos mp i8count pre) ++ e.encode mp i8count) large ++
        encodeEntries mp i8count post) := by
  have hwiden : ∀ {ino}, InoFits i8count ino → InoFits (i8count + large.toNat) ino :=
    fun hi => ⟨hi.1, fun h0 => hi.2 (by omega)⟩
  have hcode : ∀ xs, encodeEntries mp i8count xs = encodeEntries mp (i8count + large.toNat) xs := by
    intro xs
    cases large with
    | false => rfl
    | true => exact encodeEntries_wide (hlarge rfl) (Nat.succ_ne_zero _)
  refine ⟨?_, ?_, ?_, hwiden h.parent, ?_, ?_⟩
  · have hone : e.encode mp i8count = encodeEntries mp i8count [e] := by simp
    rw [h.take_entPos, hone, append_assoc, countEntry_hdrBytes hcount h8 hlarge, hcode, hcode,
      hcode]
    simp [add_assoc]
  · simp only [length_append, length_cons] at hcount ⊢
    omega
  · have := Bool.toNat_le large
    omega
  · exact forall_mem_middle.mpr ⟨hwiden hino, fun x hx => hwiden (h.inos x hx)⟩
  · exact forall_mem_middle.mpr ⟨hfit, h.fits⟩

theorem DirHolds.pickLoop (size : Nat) (holefit : Bool) (offset : Nat) :
    addnamePickLoop mp buf size post.length (entPos mp i8count pre) holefit offset =
      (holefit || hasHole mp size offset post, offsetsEnd mp offset post,
        entPos mp i8count (pre ++ post)) := by
  induction post generalizing pre holefit offset with
  | nil => simp [addnamePickLoop, hasHole, offsetsEnd]
  | cons e post ih =>
    have hnext : DirHolds mp i8count parent ((pre ++ [e]) ++ post) buf := by simpa using h
    rw [length_cons, addnamePickLoop, h.nextAt, h.offsetAt, h.namelenAt, ih hnext]
    cases holefit <;>
      simp [hasHole, offsetsEnd, DirEntry.dataEnd]

theorem DirHolds.hardLoop (size : Nat) (fuel offset : Nat) (hfuel : post.length < fuel) :
    ∃ mid rest, post = mid ++ rest ∧
      addnameHardLoop mp buf buf.length size fuel offset (entPos mp i8count pre) =
        (offsetsEnd mp offset mid, entPos mp i8count (pre ++ mid), decide (rest = [])) ∧
      (∀ x xs, rest = x :: xs → offsetsEnd mp offset mid + size ≤ x.offset) ∧
      (rest = [] → hasHole mp size offset post = false) := by
  induction fuel generalizing pre post offset with
  | zero => omega
  | succ fuel ih =>
    rw [addnameHardLoop]
    cases post with
    | nil =>
      refine ⟨[], [], rfl, ?_, by simp, fun _ => rfl⟩
      rw [if_pos (by rw [h.length, append_nil])]
      simp [offsetsEnd]
    | cons e post =>
      have hnext : DirHolds mp i8count parent ((pre ++ [e]) ++ post) buf := by simpa using h
      have hlen := h.length
      have hbefore : entPos mp i8count pre < buf.length := by
        rw [hlen]
        simp only [entPos, encodeEntries_append, encodeEntries_cons, length_append,
          DirEntry.length_encode, dir2SfEntsize]
        omega
      rw [if_neg (by omega), h.offsetAt, h.namelenAt, h.nextAt]
      by_cases hhole : offset + size ≤ e.offset
      · refine ⟨[], e :: post, rfl, ?_, ?_, by simp⟩
        · simp only [if_pos hhole]
          simp [offsetsEnd]
        · rintro x xs hx
          obtain ⟨rfl, -⟩ := List.cons.inj hx
          exact hhole
      simp only [if_neg hhole]
      obtain ⟨mid, rest, rfl, hrun, hlate, hnone⟩ :=
        ih hnext (e.dataEnd mp) (by simpa using hfuel)
      refine ⟨e :: mid, rest, rfl, ?_, hlate, fun hr => ?_⟩
      · rw [show e.offset + dir2DataEntsize mp e.name.length = e.dataEnd mp from rfl, hrun]
        simp [offsetsEnd]
      · simp [hasHole, hhole, hnone hr]

end

theorem OffsetsOk.insert (h : OffsetsOk mp start (pre ++ post))
    (hoff : e.offset = offsetsEnd mp start pre)
    (hlate : ∀ x xs, post = x :: xs → e.dataEnd mp ≤ x.offset) :
    OffsetsOk mp start (pre ++ e :: post) := by
  obtain ⟨hpre, hpost⟩ := offsetsOk_append.mp h
  refine offsetsOk_append.mpr ⟨hpre, hoff.ge, ?_⟩
  cases post with
  | nil => trivial
  | cons x xs => exact ⟨hlate x xs rfl, hpost.2⟩

theorem OffsetsOk.remove (h : OffsetsOk mp start (pre ++ e :: post)) :
    OffsetsOk mp start (pre ++ post) ∧
      offsetsEnd mp start (pre ++ post) ≤ offsetsEnd mp start (pre ++ e :: post) := by
  obtain ⟨hpre, hstart, hpost⟩ := offsetsOk_append.mp h
  have hle : offsetsEnd mp start pre ≤ e.dataEnd mp := hstart.trans (Nat.le_add_right _ _)
  refine ⟨offsetsOk_append.mpr ⟨hpre, hpost.mono hle⟩, ?_⟩
  rw [offsetsEnd_append, offsetsEnd_append, offsetsEnd]
  cases post with
  | nil => exact hle
  | cons x xs => exact le_rfl

theorem DirHolds.remove (h : DirHolds mp i8count parent (pre ++ e :: post) buf) :
    DirHolds mp i8count parent (pre ++ post)
      ((setCount (overwrite buf (entPos mp i8count pre) (encodeEntries mp i8count post))
        ((sfCount (overwrite buf (entPos mp i8count pre) (encodeEntries mp i8count post)) + 255) %
          2 ^ 8)).take
        (buf.length - dir2SfEntsize mp i8count e.name.length)) := by
  have hcount := h.count_lt
  have hlen : (pre ++ e :: post).length = (pre ++ post).length + 1 := by
    simp only [length_append, length_cons]
    omega
  have hmoved : overwrite buf (entPos mp i8count pre) (encodeEntries mp i8count post) =
      hdrBytes (pre ++ e :: post).length i8count parent ++ (encodeEntries mp i8count (pre ++ post) ++
        buf.drop (entPos mp i8count pre + (encodeEntries mp i8count post).length)) := by
    have hcut : DirHolds mp i8count parent (pre ++ (e :: post)) buf := h
    rw [overwrite, hcut.take_entPos, encodeEntries_append]
    simp only [append_assoc]
  have hnew : (hdrBytes (pre ++ post).length i8count parent ++
      encodeEntries mp i8count (pre ++ post)).length =
      buf.length - dir2SfEntsize mp i8count e.name.length := by
    rw [h.length]
    simp only [entPos, encodeEntries_append, encodeEntries_cons, length_append,
      length_hdrBytes, DirEntry.length_encode]
    omega
  refine ⟨?_, by omega, h.i8count_lt, h.parent, (forall_mem_middle.mp h.inos).2,
    (forall_mem_middle.mp h.fits).2⟩
  rw [hmoved, sfCount_hdrBytes hcount, setCount_hdrBytes, ← append_assoc,
    show ((pre ++ e :: post).length + 255) % 2 ^ 8 = (pre ++ post).length by omega, ← hnew,
    take_left]

def storedFtype (mp : DirMount) (ftype : Nat) : Nat := if mp.hasFtype then ftype else 0

theorem storedFtype_lt (h : ftype < dir3FtMax) : storedFtype mp ftype < dir3FtMax := by
  unfold storedFtype
  split
  · exact h
  · decide

theorem DirHolds.replaceParent (h : DirHolds mp i8count parent es buf) (hino : InoFits i8count ino) :
    DirHolds mp i8count ino es (overwrite buf 2 (putBe (inoSize i8count) ino)) := by
  refine ⟨?_, h.count_lt, h.i8count_lt, hino, h.inos, h.fits⟩
  have hwrite := overwrite_middle [UInt8.ofNat es.length, UInt8.ofNat i8count]
    (putBe (inoSize i8count) parent) (putBe (inoSize i8count) ino) (encodeEntries mp i8count es)
    (by rw [length_putBe, length_putBe])
  rw [h.eq]
  exact hwrite

def DirEntry.retarget (mp : DirMount) (e : DirEntry) (ino ftype : Nat) : DirEntry :=
  { e with ino := ino, ftype := storedFtype mp ftype }

def entTail (mp : DirMount) (i8count ftype ino : Nat) : Bytes :=
  (if mp.hasFtype then [UInt8.ofNat ftype] else []) ++ putBe (inoSize i8count) ino

theorem length_entTail (mp : DirMount) (i8count ftype ino : Nat) :
    (entTail mp i8count ftype ino).length = ftypeSize mp + inoSize i8count := by
  cases h : mp.hasFtype <;> simp [entTail, ftypeSize, h]
  omega

theorem encode_retarget (e : DirEntry) (ino ftype : Nat) :
    (e.retarget mp ino ftype).encode mp i8count =
      UInt8.ofNat e.name.length :: (putBe 2 e.offset ++ (e.name ++
        entTail mp i8count ftype ino)) := by
  cases h : mp.hasFtype <;>
    simp [DirEntry.retarget, DirEntry.encode, entBytes, entTail, storedFtype, h]

theorem DirHolds.replaceEntry (h : DirHolds mp i8count parent (pre ++ e :: post) buf)
    (hino : InoFits i8count ino) (hft : ftype < dir3FtMax) :
    DirHolds mp i8count parent (pre ++ e.retarget mp ino ftype :: post)
      (overwrite buf (entPos mp i8count pre + 3 + e.name.length)
        (entTail mp i8count ftype ino)) := by
  have hcount := h.count_lt
  have hfit := h.fitsAt
  have hsplit : buf = (hdrBytes (pre ++ e :: post).length i8count parent ++
      encodeEntries mp i8count pre ++ (UInt8.ofNat e.name.length ::
        (putBe 2 e.offset ++ e.name))) ++
      (entTail mp i8count e.ftype e.ino ++ encodeEntries mp i8count post) := by
    rw [h.split]
    simp [DirEntry.encode, entBytes, entTail]
  have hpos : (hdrBytes (pre ++ e :: post).length i8count parent ++
      encodeEntries mp i8count pre ++ (UInt8.ofNat e.name.length ::
        (putBe 2 e.offset ++ e.name))).length = entPos mp i8count pre + 3 + e.name.length := by
    simp only [length_append, length_cons, length_hdrBytes, length_putBe, entPos]
    omega
  have hwrite := overwrite_middle (hdrBytes (pre ++ e :: post).length i8count parent ++
      encodeEntries mp i8count pre ++ (UInt8.ofNat e.name.length :: (putBe 2 e.offset ++ e.name)))
    (entTail mp i8count e.ftype e.ino) (entTail mp i8count ftype ino)
    (encodeEntries mp i8count post) (by rw [length_entTail, length_entTail])
  have hfits : (e.retarget mp ino ftype).Fits mp :=
    ⟨hfit.name, hfit.offset, storedFtype_lt hft, fun hn => if_neg (by simp [hn])⟩
  refine ⟨?_, by simpa using hcount, h.i8count_lt, h.parent,
    forall_mem_middle.mpr ⟨hino, (forall_mem_middle.mp h.inos).2⟩,
    forall_mem_middle.mpr ⟨hfits, (forall_mem_middle.mp h.fits).2⟩⟩
  rw [hsplit, ← hpos, hwrite, encodeEntries_append, encodeEntries_cons, encode_retarget]
  simp

end Xfs
