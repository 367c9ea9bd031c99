import Xfs.Dir.ShortFormInv

/-! Removing a name and replacing an inode number keep the invariant of
short-form directories. -/
namespace Xfs

open List

variable {mp : DirMount} {i8count parent new old : Nat} {es pre post : List DirEntry} {e : DirEntry}
  {dp dp₁ : DirInode} {args : DirArgs} {elevated : Bool} {n : Nat}

theorem SfHolds.moved (h : SfHolds mp i8count parent (pre ++ e :: post) dp) :
    (if entPos mp i8count pre + dir2SfEntsize mp i8count e.name.length < dp.diskSize then
      overwrite dp.buf (entPos mp i8count pre)
        (slice dp.buf (entPos mp i8count pre + dir2SfEntsize mp i8count e.name.length)
          (dp.diskSize - (entPos mp i8count pre + dir2SfEntsize mp i8count e.name.length)))
      else dp.buf) =
      overwrite dp.buf (entPos mp i8count pre) (encodeEntries mp i8count post) := by
  have hcut : DirHolds mp i8count parent ((pre ++ [e]) ++ post) dp.buf := by simpa using h.holds
  have hslice := hcut.slice_entPos
  rw [h.diskSize, ← entPos_concat]
  split
  case isTrue => rw [hslice]
  case isFalse hlast =>
    have hnone : encodeEntries mp i8count post = [] := by
      have hlen := hcut.length
      simp only [entPos, encodeEntries_append, length_append] at hlen hlast
      exact length_eq_zero_iff.mp (by omega)
    rw [hnone, overwrite, append_nil, length_nil, add_zero, take_append_drop]

def cutEntry (mp : DirMount) (i8count : Nat) (pre post : List DirEntry) (e : DirEntry)
    (dp : DirInode) : DirInode :=
  let moved := overwrite dp.buf (entPos mp i8count pre) (encodeEntries mp i8count post)
  { buf := (setCount moved ((sfCount moved + 255) % 2 ^ 8)).take
      (dp.diskSize - dir2SfEntsize mp i8count e.name.length)
    ifBytes := dp.ifBytes - dir2SfEntsize mp i8count e.name.length
    diskSize := dp.diskSize - dir2SfEntsize mp i8count e.name.length }

theorem SfHolds.cutEntry (h : SfHolds mp i8count parent (pre ++ e :: post) dp) :
    SfHolds mp i8count parent (pre ++ post) (cutEntry mp i8count pre post e dp) := by
  have hbuf : DirHolds mp i8count parent (pre ++ post)
      (Xfs.cutEntry mp i8count pre post e dp).buf := by
    have hremoved := h.holds.remove
    rw [← h.diskSize] at hremoved
    exact hremoved
  have hsize : dp.buf.length - dir2SfEntsize mp i8count e.name.length =
      (Xfs.cutEntry mp i8count pre post e dp).buf.length := by
    rw [hbuf.length, h.holds.length]
    simp only [entPos, encodeEntries_append, encodeEntries_cons, length_append,
      DirEntry.length_encode]
    omega
  refine ⟨hbuf, ?_, ?_⟩
  · rw [← hsize, ← h.ifBytes]
    rfl
  · rw [← hsize, ← h.diskSize]
    rfl

theorem entPos_le (h : n ≠ 0 → i8count ≠ 0) (mp : DirMount) (es : List DirEntry) :
    entPos mp n es ≤ entPos mp i8count es := by
  by_cases h8 : i8count = 0
  · have hn : n = 0 := by
      by_contra hn
      exact h hn h8
    rw [hn, h8]
  · rw [SfHolds.length_narrow_wide h8]
    by_cases hn : n = 0
    · rw [hn]
      omega
    · rw [SfHolds.length_narrow_wide hn]

theorem DirInv.remove {dp' : DirInode} (h : DirInv mp parent (pre ++ e :: post) dp)
    (hsf : SfHolds mp (largeNum parent (pre ++ post)) parent (pre ++ post) dp') :
    DirInv mp parent (pre ++ post) dp' := by
  have hlen : (pre ++ e :: post).length = (pre ++ post).length + 1 := by
    simp only [length_append, length_cons]
    omega
  have hblock := h.block
  have hnames := h.names
  obtain ⟨hoffsets, hend⟩ := h.offsets.remove
  refine ⟨hsf, ?_, hoffsets, ?_, ?_, (forall_mem_middle.mp h.named).2, h.parentOk,
    (forall_mem_middle.mp h.inosOk).2⟩
  · have hshort : entPos mp (largeNum parent (pre ++ post)) (pre ++ post) ≤
        entPos mp (largeNum parent (pre ++ e :: post)) (pre ++ post) :=
      entPos_le (by rw [largeNum_insert]; omega) _ _
    have hfork := h.fork
    rw [h.sf.holds.length] at hfork
    rw [hsf.holds.length]
    simp only [entPos, encodeEntries_append, encodeEntries_cons, length_append] at *
    omega
  · omega
  · simp only [map_append, map_cons] at hnames ⊢
    exact (nodup_cons.mp (nodup_middle.mp hnames)).2

theorem DirInv.removename (h : DirInv mp parent es dp) (hmp : mp.Valid)
    (hino : ∀ e ∈ es, e.name = args.name → e.ino = args.inumber) :
    (dir2SfRemovename mp args dp = .failed .enoent dp ∧ ∀ e ∈ es, e.name ≠ args.name) ∨
      ∃ pre e post dp', es = pre ++ e :: post ∧ e.name = args.name ∧
        dir2SfRemovename mp args dp = .done dp' ∧ DirInv mp parent (pre ++ post) dp' := by
  have hholds := h.sf.holds
  rw [dir2SfRemovename, hholds.i8]
  rcases hholds.findname args.name with ⟨hnone, habsent⟩ | ⟨pre, e, post, rfl, hname, hfind⟩
  · rw [hnone]
    exact .inl ⟨rfl, habsent⟩
  have hnum := largeNum_insert parent pre post e
  have hcut := h.sf.cutEntry
  rw [hfind, ← hino e (by simp) hname]
  simp only [← hname, h.sf.moved]
  refine .inr ⟨pre, e, post, _, rfl, rfl, rfl, h.remove ?_⟩
  by_cases hlarge : dir2MaxShortInum < e.ino
  · rw [if_pos hlarge]
    rw [show isLarge e.ino = true from decide_eq_true hlarge] at hnum
    rw [hnum] at hcut ⊢
    exact hcut.dropLarge (inoFits_parent (hmp.ino_le _ h.parentOk) _) fun x hx =>
      inoFits_entry (hmp.ino_le _ ((forall_mem_middle.mp h.inosOk).2 x hx)) hx _
  · rw [if_neg hlarge]
    rw [show isLarge e.ino = false from decide_eq_false hlarge] at hnum
    rw [hnum] at hcut ⊢
    exact hcut

/-- The count in the header during a replacement. `n` is that of the old numbers. -/
structure Elevated (elevated : Bool) (n old new i8count : Nat) : Prop where
  eq : i8count = if elevated then 1 else n
  first : elevated = true → n = 0 ∧ isLarge old = false ∧ isLarge new = true
  wide : elevated = false → isLarge new = true → n ≠ 0

theorem SfHolds.replaceCounts (h : SfHolds mp i8count parent es dp)
    (hel : Elevated elevated n old new i8count)
    (hnum : largeNum parent es + (isLarge old).toNat = n + (isLarge new).toNat)
    (hlt : largeNum parent es < 256) (hparent : parent ≤ maxInumber)
    (hinos : ∀ e ∈ es, e.ino ≤ maxInumber) :
    SfHolds mp (largeNum parent es) parent es (replaceCounts mp elevated old new dp) := by
  obtain ⟨heq, hfirst, hwide⟩ := hel
  have hold : isLarge old = decide (dir2MaxShortInum < old) := rfl
  have hnew : isLarge new = decide (dir2MaxShortInum < new) := rfl
  rw [Xfs.replaceCounts]
  by_cases hdrop : dir2MaxShortInum < old ∧ new ≤ dir2MaxShortInum
  · rw [if_pos hdrop]
    rw [decide_eq_true hdrop.1] at hold
    rw [decide_eq_false (by omega)] at hnew
    have hel : elevated = false := by
      cases elevated with
      | false => rfl
      | true => simp [hold] at hfirst
    rw [hold, hnew] at hnum
    rw [hel] at heq
    have hcount : i8count = largeNum parent es + 1 := heq.trans hnum.symm
    rw [hcount] at h
    exact h.dropLarge (inoFits_parent hparent _) fun e he => inoFits_entry (hinos e he) he _
  · rw [if_neg hdrop]
    by_cases hraise : old ≤ dir2MaxShortInum ∧ dir2MaxShortInum < new ∧ elevated = false
    · rw [if_pos hraise]
      obtain ⟨hsmall, hlarge, hel⟩ := hraise
      rw [decide_eq_false (by omega)] at hold
      rw [decide_eq_true hlarge] at hnew
      rw [hold, hnew] at hnum
      rw [hel] at heq
      have hne : n ≠ 0 := hwide hel hnew
      have hcount : largeNum parent es = i8count + 1 := by rw [heq]; exact hnum
      rw [hcount] at hlt ⊢
      exact h.raiseLarge (by rw [heq]; exact hne) hlt
    · rw [if_neg hraise]
      have hcount : largeNum parent es = i8count := by
        cases elevated with
        | true =>
          obtain ⟨h0, hsmall, hlarge⟩ := hfirst rfl
          rw [h0, hsmall, hlarge] at hnum
          exact hnum.trans heq.symm
        | false =>
          have hsame : isLarge old = isLarge new := by
            refine decide_eq_decide.mpr ⟨fun _ => ?_, fun _ => ?_⟩ <;> by_contra <;> simp_all
          rw [hsame] at hnum
          exact (Nat.add_right_cancel hnum).trans heq.symm
      rw [hcount]
      exact h

theorem Elevated.narrow {large : Nat} (h : Elevated elevated n old new i8count)
    (hnum : large + (isLarge old).toNat = n + (isLarge new).toNat) :
    large ≠ 0 → i8count ≠ 0 := by
  intro hlarge h8
  have heq := h.eq
  cases elevated with
  | true => simp [h8] at heq
  | false =>
    have hn : n = 0 := by simpa [h8] using heq.symm
    have hnew : isLarge new = false := by
      by_contra hnew
      exact h.wide rfl (by simpa using hnew) hn
    rw [hn, hnew] at hnum
    simp at hnum
    omega

theorem Elevated.fits (h : Elevated elevated n old new i8count) (hmax : new ≤ maxInumber) :
    InoFits i8count new := by
  refine inoFits_of_le hmax ?_
  have heq := h.eq
  cases hlarge : isLarge new with
  | false => exact Nat.zero_le _
  | true =>
    cases helev : elevated with
    | true =>
      rw [heq, helev]
      exact le_rfl
    | false =>
      rw [heq, helev]
      exact pos_of_ne_zero (h.wide helev hlarge)

theorem entPos_retarget (e : DirEntry) (ino ftype : Nat) :
    entPos mp i8count (pre ++ e.retarget mp ino ftype :: post) =
      entPos mp i8count (pre ++ e :: post) := by
  simp only [entPos, encodeEntries_append, encodeEntries_cons, length_append,
    DirEntry.length_encode]
  rfl

theorem DirInv.elevate (h : DirInv mp parent es dp)
    (hblock : (isLarge new && decide (largeNum parent es = 0) &&
      dir2SfReplaceNeedblock mp dp new) = false) :
    ∃ i8count dp₁, (if (isLarge new && decide (largeNum parent es = 0)) = true
        then dir2SfToino8 mp dp else dp) = dp₁ ∧
      SfHolds mp i8count parent es dp₁ ∧ dp₁.buf.length ≤ mp.forkSize ∧
      i8count = (if (isLarge new && decide (largeNum parent es = 0)) = true then 1
        else largeNum parent es) := by
  cases helev : isLarge new && decide (largeNum parent es = 0) with
  | false => exact ⟨_, dp, rfl, h.sf, h.fork, rfl⟩
  | true =>
    obtain ⟨hlarge, hnone⟩ := Bool.and_eq_true_iff.mp helev
    have hnone := of_decide_eq_true hnone
    have hsf := h.sf
    rw [hnone] at hsf
    have hlen : (dir2SfToino8 mp dp).buf.length = dp.ifBytes + (es.length + 1) * ino64Diff := by
      rw [hsf.toino8.holds.length, SfHolds.length_narrow_wide one_ne_zero, hsf.ifBytes,
        hsf.holds.length]
    refine ⟨1, _, rfl, hsf.toino8, ?_, rfl⟩
    rw [helev, Bool.true_and, dir2SfReplaceNeedblock, h.sf.holds.i8, h.sf.holds.count, hnone,
      show decide (dir2MaxShortInum < new) = true from hlarge] at hblock
    simp only [decide_true, Bool.and_self, Bool.true_and, decide_eq_false_iff_not] at hblock
    rw [if_pos rfl, hlen]
    omega

theorem elevated_of (hold : n = 0 → isLarge old = false)
    (h8 : i8count = if (isLarge new && decide (n = 0)) = true then 1 else n) :
    Elevated (isLarge new && decide (n = 0)) n old new i8count := by
  refine ⟨h8, fun hel => ?_, fun hel hnew hn => ?_⟩
  · obtain ⟨hlarge, hnone⟩ := Bool.and_eq_true_iff.mp hel
    have hnone := of_decide_eq_true hnone
    exact ⟨hnone, hold hnone, hlarge⟩
  · simp [hnew, hn] at hel

theorem isLarge_parent_of_none (h : largeNum parent es = 0) : isLarge parent = false := by
  unfold largeNum at h
  cases hp : isLarge parent with
  | false => rfl
  | true =>
    rw [hp] at h
    simp at h

theorem isLarge_of_none (h : largeNum parent (pre ++ e :: post) = 0) : isLarge e.ino = false := by
  rw [largeNum_insert] at h
  cases he : isLarge e.ino with
  | false => rfl
  | true =>
    rw [he] at h
    simp at h

theorem DirInv.replaceParent (h : DirInv mp parent es dp) (hmp : mp.Valid)
    (hnew : mp.verifyDirIno new) (hsf : SfHolds mp i8count parent es dp₁)
    (hfork : dp₁.buf.length ≤ mp.forkSize)
    (hel : Elevated elevated (largeNum parent es) parent new i8count) :
    DirInv mp new es (replaceCounts mp elevated parent new
      { dp₁ with buf := overwrite dp₁.buf 2 (putBe (inoSize i8count) new) }) := by
  have hholds := hsf.holds.replaceParent (hel.fits (hmp.ino_le _ hnew))
  have hlen : (overwrite dp₁.buf 2 (putBe (inoSize i8count) new)).length = dp₁.buf.length := by
    rw [hholds.length, hsf.holds.length]
  have hnum : largeNum new es + (isLarge parent).toNat =
      largeNum parent es + (isLarge new).toNat := by
    unfold largeNum
    omega
  have hlt : largeNum new es < 256 := by
    have := largeNum_le new es
    have := h.length_le hmp
    omega
  have hsf' : SfHolds mp i8count new es
      { dp₁ with buf := overwrite dp₁.buf 2 (putBe (inoSize i8count) new) } :=
    ⟨hholds, hsf.ifBytes.trans hlen.symm, hsf.diskSize.trans hlen.symm⟩
  have hdone := hsf'.replaceCounts hel hnum hlt (hmp.ino_le _ hnew)
    (fun e he => hmp.ino_le _ (h.inosOk e he))
  refine ⟨hdone, ?_, h.offsets, h.block, h.names, h.named, hnew, h.inosOk⟩
  have hshort := entPos_le (hel.narrow hnum) mp es
  rw [hsf.holds.length] at hfork
  rw [hdone.holds.length]
  omega

theorem DirInv.replaceEntry {ftype : Nat} (h : DirInv mp parent (pre ++ e :: post) dp)
    (hmp : mp.Valid) (hnew : mp.verifyDirIno new) (hft : ftype < dir3FtMax)
    (hsf : SfHolds mp i8count parent (pre ++ e :: post) dp₁) (hfork : dp₁.buf.length ≤ mp.forkSize)
    (hel : Elevated elevated (largeNum parent (pre ++ e :: post)) e.ino new i8count) :
    DirInv mp parent (pre ++ e.retarget mp new ftype :: post) (replaceCounts mp elevated e.ino new
        { dp₁ with
          buf := overwrite dp₁.buf (entPos mp i8count pre + 3 + e.name.length)
            (entTail mp i8count ftype new) }) := by
  have hholds := hsf.holds.replaceEntry (hel.fits (hmp.ino_le _ hnew)) hft
  have hlen : (overwrite dp₁.buf (entPos mp i8count pre + 3 + e.name.length)
      (entTail mp i8count ftype new)).length = dp₁.buf.length := by
    rw [hholds.length, hsf.holds.length, entPos_retarget]
  have hsame : (pre ++ e.retarget mp new ftype :: post).length = (pre ++ e :: post).length := by
    simp
  have hnum : largeNum parent (pre ++ e.retarget mp new ftype :: post) + (isLarge e.ino).toNat =
      largeNum parent (pre ++ e :: post) + (isLarge new).toNat := by
    rw [largeNum_insert, largeNum_insert]
    show _ + (isLarge new).toNat + _ = _
    omega
  have hlt : largeNum parent (pre ++ e.retarget mp new ftype :: post) < 256 := by
    have := largeNum_le parent (pre ++ e.retarget mp new ftype :: post)
    have := h.length_le hmp
    omega
  have hinos : ∀ x ∈ pre ++ e.retarget mp new ftype :: post, mp.verifyDirIno x.ino :=
    forall_mem_middle.mpr ⟨hnew, (forall_mem_middle.mp h.inosOk).2⟩
  have hsf' : SfHolds mp i8count parent (pre ++ e.retarget mp new ftype :: post) { dp₁ with
        buf := overwrite dp₁.buf (entPos mp i8count pre + 3 + e.name.length)
          (entTail mp i8count ftype new) } :=
    ⟨hholds, hsf.ifBytes.trans hlen.symm, hsf.diskSize.trans hlen.symm⟩
  have hdone := hsf'.replaceCounts hel hnum hlt (hmp.ino_le _ h.parentOk)
    (fun x hx => hmp.ino_le _ (hinos x hx))
  refine ⟨hdone, ?_, ?_, ?_, ?_, forall_mem_middle.mpr (forall_mem_middle.mp h.named), h.parentOk,
    hinos⟩
  · have hshort := entPos_le (hel.narrow hnum) mp (pre ++ e.retarget mp new ftype :: post)
    rw [← hholds.length, hlen] at hshort
    rw [hdone.holds.length]
    omega
  · obtain ⟨hpre, hpost⟩ := offsetsOk_append.mp h.offsets
    exact offsetsOk_append.mpr ⟨hpre, hpost⟩
  · have hblock := h.block
    rw [offsetsEnd_append] at hblock ⊢
    rw [hsame]
    exact hblock
  · have hnames := h.names
    rw [map_append, map_cons] at hnames ⊢
    exact hnames

theorem DirInv.replace (h : DirInv mp parent es dp) (hmp : mp.Valid)
    (hnew : mp.verifyDirIno args.inumber) (hft : args.filetype < dir3FtMax) :
    dir2SfReplace mp args dp = .toBlock ∨
      (args.name = dotdot ∧ ∃ dp', dir2SfReplace mp args dp = .done dp' ∧
        DirInv mp args.inumber es dp') ∨
      (args.name ≠ dotdot ∧ (∀ e ∈ es, e.name ≠ args.name) ∧
        dir2SfReplace mp args dp = .failed .enoent dp) ∨
      (args.name ≠ dotdot ∧ ∃ pre e post dp', es = pre ++ e :: post ∧ e.name = args.name ∧
        dir2SfReplace mp args dp = .done dp' ∧
        DirInv mp parent (pre ++ e.retarget mp args.inumber args.filetype :: post) dp') := by
  have helev : (decide (dir2MaxShortInum < args.inumber) && decide (sfI8count dp.buf = 0)) =
      (isLarge args.inumber && decide (largeNum parent es = 0)) := by
    rw [h.sf.holds.i8]
    rfl
  rw [dir2SfReplace, helev]
  simp only
  cases hblock : isLarge args.inumber && decide (largeNum parent es = 0) &&
      dir2SfReplaceNeedblock mp dp args.inumber with
  | true => exact .inl (if_pos rfl)
  | false =>
    rw [if_neg Bool.false_ne_true]
    obtain ⟨i8count, dp₁, hdp, hsf, hfork, h8⟩ := h.elevate hblock
    rw [hdp, hsf.holds.i8, hsf.holds.parentIno]
    by_cases hdd : args.name = dotdot
    · rw [if_pos hdd]
      have hel := elevated_of (fun hn => isLarge_parent_of_none hn) h8
      exact .inr (.inl ⟨hdd, _, rfl, h.replaceParent hmp hnew hsf hfork hel⟩)
    rw [if_neg hdd]
    rcases hsf.holds.findname args.name with ⟨hnone, habsent⟩ | ⟨pre, e, post, rfl, hname, hfind⟩
    · refine .inr (.inr (.inl ⟨hdd, habsent, ?_⟩))
      rw [hnone]
      cases hel : isLarge args.inumber && decide (largeNum parent es = 0) with
      | false =>
        rw [hel, if_neg Bool.false_ne_true] at hdp
        rw [hdp]
        rfl
      | true =>
        have hnone := of_decide_eq_true (Bool.and_eq_true_iff.mp hel).2
        have hsf₀ := h.sf
        rw [hnone] at hsf₀
        rw [hel, if_pos rfl] at hdp
        rw [← hdp]
        exact congrArg _ hsf₀.toino4_toino8
    · have hel := elevated_of (fun hn => isLarge_of_none hn) h8
      rw [hfind]
      simp only [hsf.holds.inoAt, hsf.holds.namelenAt]
      exact .inr (.inr (.inr ⟨hdd, pre, e, post, _, rfl, hname, rfl,
        h.replaceEntry hmp hnew hft hsf hfork hel⟩))

end Xfs
