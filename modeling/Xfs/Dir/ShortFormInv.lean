import Xfs.Dir.ShortFormOps
import Mathlib.Data.List.Nodup

/-! The invariant of short-form directories: the verifier accepts them, and
adding, removing and replacing keep it. -/
namespace Xfs

open Bool List

variable {mp : DirMount} {i8count parent offset : Nat} {es pre post : List DirEntry} {e : DirEntry}
  {buf : Bytes} {dp dp' dp₁ : DirInode} {args : DirArgs} {objchange : Bool}

/-- Blocks have 512 bytes to 64 KiB, literal areas 1948 at most, inode numbers 56 bits. -/
structure DirMount.Valid (mp : DirMount) : Prop where
  blksize_ge : 512 ≤ mp.blksize
  blksize_le : mp.blksize ≤ 65536
  forkSize_ge : dir2SfHdrSize 1 ≤ mp.forkSize
  forkSize_le : mp.forkSize ≤ 1948
  ino_le : ∀ ino, mp.verifyDirIno ino = true → ino ≤ maxInumber

def isLarge (ino : Nat) : Bool := decide (dir2MaxShortInum < ino)

def largeNum (parent : Nat) (es : List DirEntry) : Nat :=
  (isLarge parent).toNat + es.countP (fun e => isLarge e.ino)

structure DirInv (mp : DirMount) (parent : Nat) (es : List DirEntry) (dp : DirInode) : Prop where
  sf : SfHolds mp (largeNum parent es) parent es dp
  fork : dp.buf.length ≤ mp.forkSize
  offsets : OffsetsOk mp (dataFirstOffset mp) es
  block : offsetsEnd mp (dataFirstOffset mp) es + (es.length + 2) * 8 + 8 ≤ mp.blksize
  names : (es.map DirEntry.name).Nodup
  named : ∀ e ∈ es, e.name ≠ []
  parentOk : mp.verifyDirIno parent = true
  inosOk : ∀ e ∈ es, mp.verifyDirIno e.ino = true

theorem largeNum_insert (parent : Nat) (pre post : List DirEntry) (e : DirEntry) :
    largeNum parent (pre ++ e :: post) = largeNum parent (pre ++ post) + (isLarge e.ino).toNat := by
  simp only [largeNum, countP_append, countP_cons]
  cases isLarge e.ino with
  | false => simp
  | true =>
    simp only [if_true, toNat_true]
    omega

theorem largeNum_le (parent : Nat) (es : List DirEntry) : largeNum parent es ≤ es.length + 1 := by
  have hcount := countP_le_length (p := fun e : DirEntry => isLarge e.ino) (l := es)
  have hbit := toNat_le (isLarge parent)
  unfold largeNum
  omega

theorem inoFits_of_le {ino : Nat} (hmax : ino ≤ maxInumber) (h : (isLarge ino).toNat ≤ i8count) :
    InoFits i8count ino := by
  refine ⟨hmax, fun h0 => ?_⟩
  by_contra hlarge
  have : isLarge ino := decide_eq_true (by omega)
  rw [this] at h
  simp at h
  omega

theorem inoFits_parent (hmax : parent ≤ maxInumber) (es : List DirEntry) :
    InoFits (largeNum parent es) parent :=
  inoFits_of_le hmax (Nat.le_add_right _ _)

theorem inoFits_entry (hmax : e.ino ≤ maxInumber) (he : e ∈ es) (parent : Nat) :
    InoFits (largeNum parent es) e.ino := by
  obtain ⟨pre, post, rfl⟩ := append_of_mem he
  refine inoFits_of_le hmax ?_
  rw [largeNum_insert]
  omega

theorem entPos_ge (h : ∀ e ∈ es, e.name ≠ []) : 6 + 8 * es.length ≤ entPos mp i8count es := by
  have hhdr : 6 ≤ dir2SfHdrSize i8count := by
    unfold dir2SfHdrSize ino64Diff
    split <;> omega
  have hentries : 8 * es.length ≤ (encodeEntries mp i8count es).length := by
    induction es with
    | nil => simp
    | cons x xs ih =>
      have hx := length_pos_iff.mpr (h x mem_cons_self)
      have hxs := ih (fun e he => h e (mem_cons_of_mem _ he))
      have hino : 4 ≤ inoSize i8count := by
        unfold inoSize
        split <;> omega
      simp only [encodeEntries_cons, length_append, DirEntry.length_encode, dir2SfEntsize,
        length_cons]
      omega
  unfold entPos
  omega

theorem DirInv.length_le (h : DirInv mp parent es dp) (hmp : mp.Valid) : es.length ≤ 242 := by
  have hlow : 6 + 8 * es.length ≤ entPos mp (largeNum parent es) es := entPos_ge h.named
  have hlen := h.sf.holds.length
  have hfork := h.fork
  have hmax := hmp.forkSize_le
  omega

theorem DirInv.count_lt (h : DirInv mp parent es dp) (hmp : mp.Valid) : es.length + 1 < 256 := by
  have := h.length_le hmp
  omega

theorem DirHolds.verifyLoop (h : DirHolds mp i8count parent (pre ++ post) buf)
    (hnamed : ∀ e ∈ post, e.name ≠ []) (hinos : ∀ e ∈ post, mp.verifyDirIno e.ino)
    {large : Nat} (hoff : OffsetsOk mp offset post)
    (hlarge : large + post.countP (fun e => isLarge e.ino) = i8count)
    (hblock : offsetsEnd mp offset post + ((pre ++ post).length + 2) * 8 + 8 ≤ mp.blksize) :
    dir2SfVerifyLoop mp buf buf.length post.length (entPos mp i8count pre) large offset := by
  induction post generalizing pre large offset with
  | nil =>
    have hlen := h.length
    rw [append_nil] at hlen hblock
    rw [length_nil, dir2SfVerifyLoop, h.i8, h.count, hlen, append_nil]
    simp only [countP_nil, add_zero] at hlarge
    simp only [hlarge, decide_true, Bool.and_self, Bool.true_and, decide_eq_true_eq]
    exact hblock
  | cons e post ih =>
    have hnext : DirHolds mp i8count parent ((pre ++ [e]) ++ post) buf := by simpa using h
    have hname := length_pos_iff.mpr (hnamed e mem_cons_self)
    have hend : entPos mp i8count (pre ++ [e]) ≤ buf.length := by
      rw [hnext.length]
      simp only [entPos, encodeEntries_append, length_append]
      omega
    have hroom : entPos mp i8count pre + 3 < buf.length := by
      rw [entPos_concat] at hend
      unfold dir2SfEntsize at hend
      omega
    have hftype := h.fitsAt.ftype
    have hstart := hoff.1
    rw [length_cons, dir2SfVerifyLoop, h.namelenAt, h.nextAt, h.offsetAt, h.inoAt,
      h.ftypeAt, if_neg (by omega), if_neg (by omega), if_neg (by omega), if_neg (by omega),
      if_neg (by simp [hinos e mem_cons_self]), if_neg (by omega)]
    refine ih hnext (fun x hx => hnamed x (mem_cons_of_mem _ hx))
      (fun x hx => hinos x (mem_cons_of_mem _ hx)) hoff.2 ?_ ?_
    · rw [← hlarge, countP_cons]
      simp only [isLarge, decide_eq_true_eq]
      omega
    · have hsame : ((pre ++ [e]) ++ post).length = (pre ++ e :: post).length := by simp
      rw [hsame]
      exact hblock

theorem DirInv.verify (h : DirInv mp parent es dp) : dir2SfVerify mp dp.buf dp.diskSize := by
  have hholds := h.sf.holds
  have hlow : 6 + 8 * es.length ≤ entPos mp (largeNum parent es) es := entPos_ge h.named
  have hlen := hholds.length
  have hhdr : dir2SfHdrSize (largeNum parent es) ≤ dp.buf.length := by
    rw [hlen, entPos]
    omega
  rw [dir2SfVerify, h.sf.diskSize, hholds.i8, hholds.parentIno, hholds.count,
    if_neg (by omega), if_neg (by simp [h.parentOk])]
  have hall : DirHolds mp (largeNum parent es) parent ([] ++ es) dp.buf := hholds
  refine hall.verifyLoop h.named h.inosOk h.offsets ?_ h.block
  unfold largeNum isLarge
  split <;> simp_all

def DirArgs.entry (mp : DirMount) (args : DirArgs) (offset : Nat) : DirEntry :=
  ⟨args.name, offset, storedFtype mp args.filetype, args.inumber⟩

theorem encode_argsEntry (args : DirArgs) (offset : Nat) :
    (args.entry mp offset).encode mp i8count =
      entBytes mp i8count args.name offset args.filetype args.inumber := by
  cases h : mp.hasFtype <;>
    simp [DirArgs.entry, DirEntry.encode, entBytes, storedFtype, h]

structure DirArgs.Ok (mp : DirMount) (args : DirArgs) : Prop where
  name_ne : args.name ≠ []
  name_lt : args.name.length < 256
  inumber : mp.verifyDirIno args.inumber = true
  filetype : args.filetype < dir3FtMax

theorem DirArgs.Ok.fits (h : args.Ok mp) (hoff : offset < 2 ^ 16) :
    (args.entry mp offset).Fits mp :=
  ⟨h.name_lt, hoff, storedFtype_lt h.filetype, fun hn => if_neg (by simp [hn])⟩

theorem length_countEntry (buf : Bytes) (large : Bool) :
    (countEntry buf large).length = buf.length := by
  cases large <;> simp [countEntry, setCount, setI8count]

theorem DirHolds.insert_length (h : DirHolds mp i8count parent (pre ++ post) buf)
    (e : DirEntry) (large : Bool) :
    (countEntry (buf.take (entPos mp i8count pre) ++ e.encode mp i8count) large ++
      encodeEntries mp i8count post).length =
        buf.length + dir2SfEntsize mp i8count e.name.length := by
  rw [length_append, length_countEntry, h.take_entPos, h.length]
  simp only [entPos, length_append, length_hdrBytes, DirEntry.length_encode, encodeEntries_append]
  omega

theorem DirInv.insert {large : Bool}
    (h : DirInv mp parent (pre ++ post) dp) (hmp : mp.Valid) (hargs : args.Ok mp)
    (habsent : ∀ x ∈ pre ++ post, x.name ≠ args.name)
    (hsf : SfHolds mp i8count parent (pre ++ post) dp₁)
    (hwide : isLarge args.inumber → i8count ≠ 0)
    (hlarge : large → isLarge args.inumber)
    (hnum : i8count + large.toNat = largeNum parent (pre ++ post) + (isLarge args.inumber).toNat)
    (hoff : offset = offsetsEnd mp (dataFirstOffset mp) pre)
    (hlate : ∀ x xs, post = x :: xs → (args.entry mp offset).dataEnd mp ≤ x.offset)
    (hblock : offsetsEnd mp (dataFirstOffset mp) (pre ++ args.entry mp offset :: post) +
      ((pre ++ post).length + 3) * 8 + 8 ≤ mp.blksize)
    (hbuf : countEntry (dp₁.buf.take (entPos mp i8count pre) ++
        (args.entry mp offset).encode mp i8count) large ++ encodeEntries mp i8count post = dp'.buf)
    (hif : dp'.ifBytes = dp₁.buf.length + dir2SfEntsize mp i8count args.name.length)
    (hdisk : dp'.diskSize = dp'.ifBytes) (hfork : dp'.ifBytes ≤ mp.forkSize) :
    DirInv mp parent (pre ++ args.entry mp offset :: post) dp' := by
  have hblk := hmp.blksize_le
  have hcount := h.count_lt hmp
  have hnum' : largeNum parent (pre ++ args.entry mp offset :: post) = i8count + large.toNat := by
    rw [largeNum_insert, hnum]
    rfl
  have hino : InoFits i8count args.inumber := by
    refine inoFits_of_le (hmp.ino_le _ hargs.inumber) ?_
    cases hlarge : isLarge args.inumber with
    | false => exact Nat.zero_le _
    | true => exact pos_of_ne_zero (hwide hlarge)
  have hpreEnd : offsetsEnd mp (dataFirstOffset mp) pre ≤
      offsetsEnd mp (dataFirstOffset mp) (pre ++ post) := by
    rw [offsetsEnd_append]
    exact (offsetsOk_append.mp h.offsets).2.le_end
  have hfit : (args.entry mp offset).Fits mp := hargs.fits (by have := h.block; omega)
  have h8 : i8count + 1 < 256 := by
    have := largeNum_le parent (pre ++ post)
    have := toNat_le (isLarge args.inumber)
    have := h.length_le hmp
    omega
  have hinsert := hsf.holds.insert hfit hino hcount h8 fun hl => hwide (hlarge hl)
  have hlength := hsf.holds.insert_length (args.entry mp offset) large
  rw [hbuf] at hinsert hlength
  have hsize : dp'.ifBytes = dp'.buf.length := hif.trans hlength.symm
  refine ⟨hnum' ▸ ⟨hinsert, hsize, hdisk.trans hsize⟩, hsize ▸ hfork, h.offsets.insert hoff hlate, ?_,
    ?_, forall_mem_middle.mpr ⟨hargs.name_ne, h.named⟩, h.parentOk,
    forall_mem_middle.mpr ⟨hargs.inumber, h.inosOk⟩⟩
  · have hlen : (pre ++ args.entry mp offset :: post).length = (pre ++ post).length + 1 := by
      simp only [length_append, length_cons]
      omega
    omega
  · have hnodup := h.names
    simp only [map_append, map_cons] at hnodup ⊢
    refine nodup_middle.mpr (nodup_cons.mpr ⟨?_, hnodup⟩)
    rw [← map_append]
    rintro hin
    obtain ⟨x, hx, hname⟩ := mem_map.mp hin
    exact habsent x hx hname

/-- The room the directory with one more entry needs in a block, without the entry. -/
def pickUsed (mp : DirMount) (es : List DirEntry) : Nat :=
  offsetsEnd mp (dataFirstOffset mp) es + (es.length + 3) * 8 + 8

/-- The room that is needed with the entry, which may go into a hole. -/
def pickNeed (mp : DirMount) (size : Nat) (es : List DirEntry) : Nat :=
  pickUsed mp es + if hasHole mp size (dataFirstOffset mp) es then 0 else size

theorem DirHolds.pick_eq (h : DirHolds mp i8count parent es buf) (args : DirArgs)
    (objchange : Bool) :
    dir2SfAddnamePick mp args objchange buf =
      if mp.blksize < pickNeed mp (dir2DataEntsize mp args.name.length) es then .wontFit
      else if objchange then .hard
      else if mp.blksize < pickUsed mp es + dir2DataEntsize mp args.name.length then .hard
      else .easy buf.length (offsetsEnd mp (dataFirstOffset mp) es) := by
  have hall : DirHolds mp i8count parent ([] ++ es) buf := h
  have hloop := hall.pickLoop (dir2DataEntsize mp args.name.length) false (dataFirstOffset mp)
  rw [entPos_nil] at hloop
  simp only [dir2SfAddnamePick, h.count, h.i8, hloop, nil_append, Bool.false_or, h.length]
  rfl

theorem DirInv.addnameEasy (h : DirInv mp parent es dp) (hmp : mp.Valid) (hargs : args.Ok mp)
    (habsent : ∀ x ∈ es, x.name ≠ args.name)
    (hwide : isLarge args.inumber → largeNum parent es ≠ 0)
    (hfork : dp.diskSize + dir2SfEntsize mp (largeNum parent es) args.name.length ≤ mp.forkSize)
    (hroom : pickUsed mp es + dir2DataEntsize mp args.name.length ≤ mp.blksize) :
    DirInv mp parent (es ++ [args.entry mp (offsetsEnd mp (dataFirstOffset mp) es)])
      (dir2SfAddnameEasy mp args dp.buf.length (offsetsEnd mp (dataFirstOffset mp) es)
        (dp.diskSize + dir2SfEntsize mp (largeNum parent es) args.name.length) dp) := by
  unfold pickUsed at hroom
  have hall : DirInv mp parent (es ++ []) dp := by rwa [append_nil]
  have hsf := hall.sf
  have h8 := h.sf.holds.i8
  refine hall.insert hmp hargs (by simpa using habsent) hsf (by simpa using hwide) id rfl rfl (by simp)
    ?_ ?_ ?_ ?_ ?_
  · rw [offsetsEnd_append, append_nil]
    show offsetsEnd mp _ es + dir2DataEntsize mp args.name.length + _ + 8 ≤ _
    omega
  · rw [append_nil, ← h.sf.holds.length, take_length, encodeEntries_nil, append_nil,
      encode_argsEntry, dir2SfAddnameEasy, h8]
    rw [overwrite_end _ _ _ (length_entBytes _ _ _ _ _ _)]
    rfl
  · simp [dir2SfAddnameEasy, h8, h.sf.ifBytes]
  · simp [dir2SfAddnameEasy, h8, h.sf.ifBytes, h.sf.diskSize]
  · simpa only [dir2SfAddnameEasy, h8, h.sf.ifBytes, h.sf.diskSize] using hfork

theorem SfHolds.addnameHard_buf (h : SfHolds mp i8count parent (pre ++ post) dp)
    (hloop : addnameHardLoop mp dp.buf dp.buf.length (dir2DataEntsize mp args.name.length)
      (dp.buf.length + 1) (dataFirstOffset mp) (dir2SfHdrSize i8count) =
        (offset, entPos mp i8count pre, decide (post = []))) (newIsize : Nat) :
    countEntry (dp.buf.take (entPos mp i8count pre) ++
        (args.entry mp offset).encode mp i8count) (isLarge args.inumber && !objchange) ++
      encodeEntries mp i8count post = (dir2SfAddnameHard mp args objchange newIsize dp).buf := by
  rw [dir2SfAddnameHard, h.holds.i8, h.diskSize, hloop, encode_argsEntry]
  simp only [decide_eq_true_eq, h.holds.slice_entPos]
  by_cases hpost : post = []
  · rw [if_pos hpost, hpost, encodeEntries_nil, append_nil]
    rfl
  · rw [if_neg hpost]
    rfl

section

variable (h : DirInv mp parent es dp) (hmp : mp.Valid) (hargs : args.Ok mp)
  (habsent : ∀ x ∈ es, x.name ≠ args.name)
include h hmp hargs habsent

theorem DirInv.addnameHard {newIsize : Nat}
    (hsf : SfHolds mp i8count parent es dp₁) (hwide : isLarge args.inumber → i8count ≠ 0)
    (hnum : i8count + (isLarge args.inumber && !objchange).toNat =
      largeNum parent es + (isLarge args.inumber).toNat)
    (hsize : newIsize = dp₁.buf.length + dir2SfEntsize mp i8count args.name.length)
    (hfork : newIsize ≤ mp.forkSize)
    (hroom : pickNeed mp (dir2DataEntsize mp args.name.length) es ≤ mp.blksize) :
    ∃ pre post offset, es = pre ++ post ∧ DirInv mp parent (pre ++ args.entry mp offset :: post)
        (dir2SfAddnameHard mp args objchange newIsize dp₁) := by
  unfold pickNeed pickUsed at hroom
  have hall : DirHolds mp i8count parent ([] ++ es) dp₁.buf := hsf.holds
  have hfuel : es.length < dp₁.buf.length + 1 := by
    have hlow : 6 + 8 * es.length ≤ entPos mp i8count es := entPos_ge h.named
    rw [hsf.holds.length]
    omega
  obtain ⟨pre, post, rfl, hloop, hlate, hnone⟩ := hall.hardLoop
    (dir2DataEntsize mp args.name.length) (dp₁.buf.length + 1) (dataFirstOffset mp) hfuel
  refine ⟨pre, post, _, rfl, h.insert hmp hargs habsent hsf hwide
    (fun hl => (and_eq_true_iff.mp hl).1) hnum rfl hlate ?_
    (hsf.addnameHard_buf hloop newIsize) hsize rfl hfork⟩
  rw [offsetsEnd_append]
  cases post with
  | nil =>
    rw [hnone rfl, if_neg (by simp), append_nil] at hroom
    show offsetsEnd mp _ pre + dir2DataEntsize mp args.name.length + _ + 8 ≤ _
    rw [append_nil]
    omega
  | cons x xs =>
    rw [offsetsEnd_append] at hroom
    exact le_trans (Nat.le_add_right _ _) hroom

theorem DirInv.addnameWiden (hlarge : isLarge args.inumber) (hnone : largeNum parent es = 0)
    (hfork : dp.diskSize + (dir2SfEntsize mp (largeNum parent es) args.name.length +
      (es.length + 2) * ino64Diff) ≤ mp.forkSize)
    (hroom : pickNeed mp (dir2DataEntsize mp args.name.length) es ≤ mp.blksize) :
    ∃ pre post offset, es = pre ++ post ∧ DirInv mp parent (pre ++ args.entry mp offset :: post)
        (dir2SfAddnameHard mp args true (dp.diskSize + (dir2SfEntsize mp (largeNum parent es)
          args.name.length + (es.length + 2) * ino64Diff)) (dir2SfToino8 mp dp)) := by
  have hsf := h.sf
  rw [hnone] at hsf
  have hnum : 1 + (isLarge args.inumber && !true).toNat =
      largeNum parent es + (isLarge args.inumber).toNat := by
    rw [hnone, hlarge]
    rfl
  have hsize : dp.diskSize + (dir2SfEntsize mp (largeNum parent es) args.name.length +
      (es.length + 2) * ino64Diff) =
      (dir2SfToino8 mp dp).buf.length + dir2SfEntsize mp 1 args.name.length := by
    rw [hsf.toino8.holds.length, SfHolds.length_narrow_wide one_ne_zero, hsf.diskSize,
      hsf.holds.length, hnone]
    simp only [dir2SfEntsize, inoSize, ino64Diff, if_true, one_ne_zero, if_false]
    omega
  exact h.addnameHard hmp hargs habsent hsf.toino8 (fun _ => one_ne_zero) hnum hsize hfork hroom

theorem DirInv.addname :
    dir2SfAddname mp args dp = .toBlock ∨ dir2SfAddname mp args dp = .failed .enospc dp ∨
      (args.justCheck ∧ dir2SfAddname mp args dp = .done dp) ∨
      (args.justCheck = false ∧ ∃ pre post offset dp', es = pre ++ post ∧
        dir2SfAddname mp args dp = .done dp' ∧
        DirInv mp parent (pre ++ args.entry mp offset :: post) dp') := by
  have hholds := h.sf.holds
  have hobj : (decide (dir2MaxShortInum < args.inumber) && decide (sfI8count dp.buf = 0)) =
      (isLarge args.inumber && decide (largeNum parent es = 0)) := by
    rw [hholds.i8]
    rfl
  rw [dir2SfAddname, hobj, hholds.pick_eq, hholds.i8, hholds.count]
  generalize hchange : (isLarge args.inumber && decide (largeNum parent es = 0)) = objchange
  have hnoFit : ∀ {p : Prop},
      (if (args.justCheck || args.total == 0) = true then DirResult.failed .enospc dp
        else .toBlock) = .toBlock ∨
      (if (args.justCheck || args.total == 0) = true then DirResult.failed .enospc dp
        else .toBlock) = .failed .enospc dp ∨ p := by
    intro p
    split
    · exact .inr (.inl rfl)
    · exact .inl rfl
  by_cases hsize : mp.forkSize < dp.diskSize + (dir2SfEntsize mp (largeNum parent es)
      args.name.length + if objchange = true then (es.length + 2) * ino64Diff else 0)
  · rw [if_pos hsize]
    exact hnoFit
  rw [if_neg hsize]
  by_cases hfit : mp.blksize < pickNeed mp (dir2DataEntsize mp args.name.length) es
  · rw [if_pos hfit]
    exact hnoFit
  rw [if_neg hfit]
  cases hjust : args.justCheck with
  | true =>
    refine .inr (.inr (.inl ⟨rfl, ?_⟩))
    simp only [if_true]
    split_ifs <;> rfl
  | false =>
    refine .inr (.inr (.inr ⟨rfl, ?_⟩))
    cases objchange with
    | true =>
      obtain ⟨hlarge, hnone⟩ := and_eq_true_iff.mp hchange
      obtain ⟨pre, post, offset, hes, hinv⟩ := h.addnameWiden hmp hargs habsent hlarge
        (of_decide_eq_true hnone) (by simpa using hsize) (by omega)
      exact ⟨pre, post, offset, _, hes, rfl, hinv⟩
    | false =>
      have hwide : isLarge args.inumber → largeNum parent es ≠ 0 := by
        intro hlarge hnone
        rw [hlarge, hnone] at hchange
        simp at hchange
      simp only [false_eq_true, if_false, add_zero] at hsize ⊢
      by_cases hend : mp.blksize < pickUsed mp es + dir2DataEntsize mp args.name.length
      · obtain ⟨pre, post, offset, hes, hinv⟩ := h.addnameHard hmp hargs habsent h.sf hwide
          (show largeNum parent es + (isLarge args.inumber && !false).toNat = _ by simp)
          (show dp.diskSize + dir2SfEntsize mp (largeNum parent es) args.name.length = _ by
            rw [h.sf.diskSize]) (by omega) (by omega)
        refine ⟨pre, post, offset, _, hes, ?_, hinv⟩
        rw [if_pos hend]
      · refine ⟨es, [], _, _, (append_nil _).symm, ?_,
          h.addnameEasy hmp hargs habsent hwide (by omega) (by omega)⟩
        rw [if_neg hend]

end

end Xfs
