import Xfs.Dir.ShortFormEdit
import Mathlib.Data.Set.Card
import Mathlib.Logic.Function.Basic

/-! Runs of a directory that stays in short form, against the map from names to
inode numbers and file types that the run describes. -/
namespace Xfs

open Function List

variable {mp : DirMount} {parent pino : Nat} {es pre post : List DirEntry} {e x : DirEntry}
  {dp dp' : DirInode} {args : DirArgs} {m : DirMap}

def readEntries (mp : DirMount) (buf : Bytes) : Nat → Nat → List DirEntry
  | 0, _ => []
  | i + 1, o => ⟨entName buf o, entOffset buf o, entFtype mp buf o, entIno mp buf o⟩ ::
      readEntries mp buf i (entNext mp buf o)

def DirInode.entries (mp : DirMount) (dp : DirInode) : List DirEntry :=
  readEntries mp dp.buf (sfCount dp.buf) (dir2SfHdrSize (sfI8count dp.buf))

theorem DirHolds.readEntries {buf : Bytes} {i8count : Nat}
    (h : DirHolds mp i8count parent (pre ++ post) buf) :
    readEntries mp buf post.length (entPos mp i8count pre) = post := by
  induction post generalizing pre with
  | nil => rfl
  | cons e post ih =>
    have hnext : DirHolds mp i8count parent ((pre ++ [e]) ++ post) buf := by simpa using h
    rw [length_cons, Xfs.readEntries, h.nameAt, h.offsetAt, h.ftypeAt, h.inoAt, h.nextAt, ih hnext]

theorem DirInv.entries (h : DirInv mp parent es dp) : dp.entries mp = es := by
  have hall : DirHolds mp (largeNum parent es) parent ([] ++ es) dp.buf := h.sf.holds
  rw [DirInode.entries, h.sf.holds.count, h.sf.holds.i8, ← entPos_nil, hall.readEntries]

/-- A directory as its users see it: the parent, and the number and type of every name. -/
structure DirMap where
  parent : Nat
  entry : Bytes → Option (Nat × Nat)

def DirMap.set (m : DirMap) (name : Bytes) (v : Option (Nat × Nat)) : DirMap :=
  { m with entry := Function.update m.entry name v }

inductive DirOp where
  | addname (args : DirArgs)
  | removename (args : DirArgs)
  | replace (args : DirArgs)

/-- New names are absent, numbers and types good, and a removal knows the number. -/
def DirOp.Valid (mp : DirMount) (m : DirMap) : DirOp → Prop
  | .addname args => args.Ok mp ∧ m.entry args.name = none
  | .removename args => ∀ ino ftype, m.entry args.name = some (ino, ftype) → ino = args.inumber
  | .replace args => mp.verifyDirIno args.inumber = true ∧ args.filetype < dir3FtMax

/-- What an operation means. Only adding a name may be refused, and a check
adds nothing. -/
def DirOp.apply (mp : DirMount) (refused : Bool) (m : DirMap) : DirOp → DirMap
  | .addname args =>
    if refused || args.justCheck then m
    else m.set args.name (some (args.inumber, storedFtype mp args.filetype))
  | .removename args => m.set args.name none
  | .replace args =>
    if args.name = dotdot then { m with parent := args.inumber }
    else if m.entry args.name = none then m
    else m.set args.name (some (args.inumber, storedFtype mp args.filetype))

def DirOp.exec (mp : DirMount) (dp : DirInode) : DirOp → DirResult
  | .addname args => dir2SfAddname mp args dp
  | .removename args => dir2SfRemovename mp args dp
  | .replace args => dir2SfReplace mp args dp

structure DirState where
  dp : DirInode
  map : DirMap

/-- A step that stays in short form. -/
def DirStep (mp : DirMount) (op : DirOp) (s t : DirState) : Prop :=
  op.Valid mp s.map ∧
    ((op.exec mp s.dp = .done t.dp ∧ t.map = op.apply mp false s.map) ∨
      ∃ e, op.exec mp s.dp = .failed e t.dp ∧ t.map = op.apply mp true s.map)

inductive DirSteps (mp : DirMount) : List DirOp → DirState → DirState → Prop
  | nil (s : DirState) : DirSteps mp [] s s
  | concat {ops : List DirOp} {op : DirOp} {s t u : DirState} :
      DirSteps mp ops s t → DirStep mp op t u → DirSteps mp (ops ++ [op]) s u

def DirState.create (pino : Nat) : DirState := ⟨dir2SfCreate pino, ⟨pino, fun _ => none⟩⟩

/-- The entries stand for the map. -/
def DirMap.Matches (m : DirMap) (es : List DirEntry) : Prop :=
  ∀ name ino ftype, m.entry name = some (ino, ftype) ↔
    ∃ e ∈ es, e.name = name ∧ e.ino = ino ∧ e.ftype = ftype

theorem DirMap.Matches.absent_iff (h : m.Matches es) {name : Bytes} :
    m.entry name = none ↔ ∀ e ∈ es, e.name ≠ name := by
  constructor
  · intro hnone e he hname
    have hsome := (h name e.ino e.ftype).mpr ⟨e, he, hname, rfl, rfl⟩
    rw [hnone] at hsome
    cases hsome
  · intro habsent
    by_contra hsome
    obtain ⟨⟨ino, ftype⟩, hv⟩ := Option.ne_none_iff_exists'.mp hsome
    obtain ⟨e, he, hname, -⟩ := (h name ino ftype).mp hv
    exact habsent e he hname

theorem DirInv.name_ne (h : DirInv mp parent (pre ++ e :: post) dp) :
    ∀ x ∈ pre ++ post, x.name ≠ e.name := by
  have hnames := h.names
  rw [map_append, map_cons] at hnames
  have hnotin := (nodup_cons.mp (nodup_middle.mp hnames)).1
  rw [← map_append] at hnotin
  exact fun x hx hname => hnotin (mem_map.mpr ⟨x, hx, hname⟩)

theorem mem_middle : x ∈ pre ++ e :: post ↔ x = e ∨ x ∈ pre ++ post := by
  simp only [mem_append, mem_cons]
  exact or_left_comm

theorem DirMap.Matches.insert (h : m.Matches (pre ++ post))
    (hne : ∀ x ∈ pre ++ post, x.name ≠ e.name) :
    (m.set e.name (some (e.ino, e.ftype))).Matches (pre ++ e :: post) := by
  intro name ino ftype
  simp only [mem_middle, or_and_right, exists_or, exists_eq_left, ← h name ino ftype]
  show Function.update m.entry e.name _ name = _ ↔ _
  by_cases hname : name = e.name
  · subst hname
    have hnone : m.entry e.name = none := h.absent_iff.mpr hne
    simp [hnone]
  · rw [update_of_ne hname]
    simp [Ne.symm hname]

section

variable (h : m.Matches (pre ++ e :: post)) (hne : ∀ x ∈ pre ++ post, x.name ≠ e.name)
include h hne

theorem DirMap.Matches.remove : (m.set e.name none).Matches (pre ++ post) := by
  intro name ino ftype
  show Function.update m.entry e.name none name = _ ↔ _
  by_cases hname : name = e.name
  · subst hname
    rw [update_self]
    constructor
    · rintro ⟨⟩
    · rintro ⟨x, hx, hxn, -⟩
      exact absurd hxn (hne x hx)
  · rw [update_of_ne hname, h name ino ftype]
    simp only [mem_middle, or_and_right, exists_or, exists_eq_left]
    exact or_iff_right (fun hx => hname hx.1.symm)

theorem DirMap.Matches.exchange (hname : x.name = e.name) :
    (m.set e.name (some (x.ino, x.ftype))).Matches (pre ++ x :: post) := by
  have hset : m.set e.name (some (x.ino, x.ftype)) =
      (m.set e.name none).set x.name (some (x.ino, x.ftype)) := by
    rw [hname]
    simp [DirMap.set]
  rw [hset]
  exact (h.remove hne).insert (fun y hy => hname ▸ hne y hy)

end

/-- Every entry is still there with its offset, unless its name is removed. -/
def DirOp.KeepsOffsets (op : DirOp) (es es' : List DirEntry) : Prop :=
  ∀ e ∈ es, (∀ args, op = .removename args → args.name ≠ e.name) →
    ∃ e' ∈ es', e'.name = e.name ∧ e'.offset = e.offset

theorem DirOp.KeepsOffsets.refl (op : DirOp) (es : List DirEntry) : op.KeepsOffsets es es :=
  fun e he _ => ⟨e, he, rfl, rfl⟩

theorem DirOp.KeepsOffsets.insert (op : DirOp) (pre post : List DirEntry) (e : DirEntry) :
    op.KeepsOffsets (pre ++ post) (pre ++ e :: post) :=
  fun x hx _ => ⟨x, mem_middle.mpr (.inr hx), rfl, rfl⟩

section Step

variable {op : DirOp} {s t : DirState} (h : DirStep mp op s t)
include h

theorem DirStep.of_done (hexec : op.exec mp s.dp = .done dp') :
    t = ⟨dp', op.apply mp false s.map⟩ := by
  obtain ⟨-, ⟨hrun, hmap⟩ | ⟨e, hrun, -⟩⟩ := h
  · rw [hexec] at hrun
    cases hrun
    cases t
    exact congrArg _ hmap
  · rw [hexec] at hrun
    cases hrun

theorem DirStep.of_failed {e : Errno} (hexec : op.exec mp s.dp = .failed e dp') :
    t = ⟨dp', op.apply mp true s.map⟩ := by
  obtain ⟨-, ⟨hrun, -⟩ | ⟨e, hrun, hmap⟩⟩ := h
  · rw [hexec] at hrun
    cases hrun
  · rw [hexec] at hrun
    cases hrun
    cases t
    exact congrArg _ hmap

theorem DirStep.not_toBlock : op.exec mp s.dp ≠ .toBlock := by
  intro hexec
  obtain ⟨-, ⟨hrun, -⟩ | ⟨e, hrun, -⟩⟩ := h
  · rw [hexec] at hrun
    cases hrun
  · rw [hexec] at hrun
    cases hrun

end Step

section Spec

variable {s t : DirState} (hmp : mp.Valid) (hinv : DirInv mp s.map.parent es s.dp)
  (hm : s.map.Matches es)
include hmp hinv hm

theorem DirStep.addname_spec (h : DirStep mp (.addname args) s t) :
    ∃ es', DirInv mp t.map.parent es' t.dp ∧ t.map.Matches es' ∧
      (DirOp.addname args).KeepsOffsets es es' := by
  obtain ⟨hargs, hnone⟩ := h.1
  have habsent := hm.absent_iff.mp hnone
  rcases hinv.addname hmp hargs habsent with
    hblock | hfail | ⟨hjust, hdone⟩ | ⟨hjust, pre, post, offset, dp', rfl, hdone, hinv'⟩
  · exact absurd hblock h.not_toBlock
  · rw [h.of_failed hfail]
    exact ⟨es, hinv, hm, .refl _ _⟩
  · rw [h.of_done hdone]
    have hsame : (DirOp.addname args).apply mp false s.map = s.map := by
      simp [DirOp.apply, hjust]
    rw [hsame]
    exact ⟨es, hinv, hm, .refl _ _⟩
  · rw [h.of_done hdone]
    have hset : (DirOp.addname args).apply mp false s.map = s.map.set (args.entry mp offset).name
          (some ((args.entry mp offset).ino, (args.entry mp offset).ftype)) := by
      simp [DirOp.apply, hjust, DirArgs.entry]
    rw [hset]
    exact ⟨_, hinv', hm.insert habsent, .insert _ _ _ _⟩

theorem DirStep.removename_spec (h : DirStep mp (.removename args) s t) :
    ∃ es', DirInv mp t.map.parent es' t.dp ∧ t.map.Matches es' ∧
      (DirOp.removename args).KeepsOffsets es es' := by
  have hino : ∀ e ∈ es, e.name = args.name → e.ino = args.inumber :=
    fun e he hname => h.1 e.ino e.ftype ((hm _ _ _).mpr ⟨e, he, hname, rfl, rfl⟩)
  rcases hinv.removename hmp hino with
    ⟨hfail, habsent⟩ | ⟨pre, e, post, dp', rfl, hname, hdone, hinv'⟩
  · rw [h.of_failed hfail]
    have hsame : (DirOp.removename args).apply mp true s.map = s.map := by
      have hupd : Function.update s.map.entry args.name none = s.map.entry := by
        rw [← hm.absent_iff.mpr habsent, update_eq_self]
      simp [DirOp.apply, DirMap.set, hupd]
    rw [hsame]
    exact ⟨es, hinv, hm, .refl _ _⟩
  · rw [h.of_done hdone]
    have hset : (DirOp.removename args).apply mp false s.map = s.map.set e.name none := by
      rw [hname]
      rfl
    rw [hset]
    refine ⟨_, hinv', hm.remove hinv.name_ne, fun x hx hkeep => ?_⟩
    rcases mem_middle.mp hx with rfl | hx
    · exact absurd hname.symm (hkeep args rfl)
    · exact ⟨x, hx, rfl, rfl⟩

theorem DirStep.replace_spec (h : DirStep mp (.replace args) s t) :
    ∃ es', DirInv mp t.map.parent es' t.dp ∧ t.map.Matches es' ∧
      (DirOp.replace args).KeepsOffsets es es' := by
  obtain ⟨hnew, hft⟩ := h.1
  rcases hinv.replace hmp hnew hft with
    hblock | ⟨hdd, dp', hdone, hinv'⟩ | ⟨hdd, habsent, hfail⟩ |
      ⟨hdd, pre, e, post, dp', rfl, hname, hdone, hinv'⟩
  · exact absurd hblock h.not_toBlock
  · rw [h.of_done hdone]
    have hset : (DirOp.replace args).apply mp false s.map =
        { s.map with parent := args.inumber } := if_pos hdd
    rw [hset]
    exact ⟨es, hinv', hm, .refl _ _⟩
  · rw [h.of_failed hfail]
    have hsame : (DirOp.replace args).apply mp true s.map = s.map := by
      simp [DirOp.apply, hdd, hm.absent_iff.mpr habsent]
    rw [hsame]
    exact ⟨es, hinv, hm, .refl _ _⟩
  · rw [h.of_done hdone]
    have hsome : s.map.entry args.name ≠ none := by
      rw [← hname, (hm e.name e.ino e.ftype).mpr ⟨e, by simp, rfl, rfl, rfl⟩]
      exact Option.some_ne_none _
    have hset : (DirOp.replace args).apply mp false s.map = s.map.set e.name
        (some ((e.retarget mp args.inumber args.filetype).ino,
          (e.retarget mp args.inumber args.filetype).ftype)) := by
      simp [DirOp.apply, hdd, hsome, hname, DirEntry.retarget]
    rw [hset]
    refine ⟨_, hinv', hm.exchange hinv.name_ne rfl, fun x hx _ => ?_⟩
    rcases mem_middle.mp hx with rfl | hx
    · exact ⟨_, mem_middle.mpr (.inl rfl), rfl, rfl⟩
    · exact ⟨x, mem_middle.mpr (.inr hx), rfl, rfl⟩

theorem DirStep.spec {op : DirOp} (h : DirStep mp op s t) :
    ∃ es', DirInv mp t.map.parent es' t.dp ∧ t.map.Matches es' ∧ op.KeepsOffsets es es' := by
  cases op with
  | addname args => exact h.addname_spec hmp hinv hm
  | removename args => exact h.removename_spec hmp hinv hm
  | replace args => exact h.replace_spec hmp hinv hm

end Spec

theorem dir2SfCreate_inv (hmp : mp.Valid) (hpino : mp.verifyDirIno pino) :
    DirInv mp pino [] (dir2SfCreate pino) := by
  have hnum : largeNum pino [] = if dir2MaxShortInum < pino then 1 else 0 := by
    unfold largeNum isLarge
    split <;> simp_all
  have hlen : (hdrBytes 0 (largeNum pino []) pino).length = dir2SfHdrSize (largeNum pino []) :=
    length_hdrBytes _ _ _
  have hle := hmp.forkSize_ge
  have hhdr : dir2SfHdrSize (largeNum pino []) ≤ dir2SfHdrSize 1 := by
    unfold dir2SfHdrSize
    split <;> simp
  have hcreate : dir2SfCreate pino = ⟨hdrBytes 0 (largeNum pino []) pino,
      dir2SfHdrSize (largeNum pino []), dir2SfHdrSize (largeNum pino [])⟩ := by
    rw [dir2SfCreate, hnum]
  have hblk := hmp.blksize_ge
  rw [hcreate]
  refine ⟨⟨⟨?_, by simp, ?_, inoFits_parent (hmp.ino_le _ hpino) [], by simp, by simp⟩,
    hlen.symm, hlen.symm⟩, ?_, trivial, ?_, nodup_nil, by simp, hpino, by simp⟩
  · simp
  · have := largeNum_le pino []
    simp at this
    omega
  · show (hdrBytes 0 (largeNum pino []) pino).length ≤ _
    omega
  · simp only [offsetsEnd, length_nil, dataFirstOffset, dir2DataEntsize, ftypeSize]
    split <;> split <;> omega

theorem DirSteps.inv {ops : List DirOp} {s t : DirState} (hmp : mp.Valid)
    (h : DirSteps mp ops s t) (hinv : DirInv mp s.map.parent es s.dp) (hm : s.map.Matches es) :
    ∃ es', DirInv mp t.map.parent es' t.dp ∧ t.map.Matches es' ∧
      ∀ e ∈ es, (∀ args, DirOp.removename args ∈ ops → args.name ≠ e.name) →
        ∃ e' ∈ es', e'.name = e.name ∧ e'.offset = e.offset := by
  induction h with
  | nil s => exact ⟨es, hinv, hm, fun e he _ => ⟨e, he, rfl, rfl⟩⟩
  | concat _ hstep ih =>
    obtain ⟨es₁, hinv₁, hm₁, hkeep₁⟩ := ih hinv hm
    obtain ⟨es₂, hinv₂, hm₂, hkeep₂⟩ := hstep.spec hmp hinv₁ hm₁
    refine ⟨es₂, hinv₂, hm₂, fun e he hnot => ?_⟩
    obtain ⟨e₁, he₁, hname₁, hoff₁⟩ := hkeep₁ e he fun args hargs => hnot args (by simp [hargs])
    obtain ⟨e₂, he₂, hname₂, hoff₂⟩ := hkeep₂ e₁ he₁ fun args hop =>
      hname₁ ▸ hnot args (by simp [hop])
    exact ⟨e₂, he₂, hname₂.trans hname₁, hoff₂.trans hoff₁⟩

structure DirSound (mp : DirMount) (s : DirState) : Prop where
  verify : dir2SfVerify mp s.dp.buf s.dp.diskSize = true
  ifBytes : s.dp.ifBytes = s.dp.diskSize
  length : s.dp.buf.length = s.dp.ifBytes
  fork : s.dp.ifBytes ≤ mp.forkSize
  i8count : sfI8count s.dp.buf = (sfParentIno s.dp.buf :: (s.dp.entries mp).map DirEntry.ino).countP
    (fun ino => decide (dir2MaxShortInum < ino))
  count : sfCount s.dp.buf = Set.ncard {name | s.map.entry name ≠ none}
  parent : sfParentIno s.dp.buf = s.map.parent
  names : ((s.dp.entries mp).map DirEntry.name).Nodup
  entries : s.map.Matches (s.dp.entries mp)
  /-- An entry keeps its offset until its name is removed. -/
  offsets : ∀ ops t, DirSteps mp ops s t → ∀ e ∈ s.dp.entries mp,
    (∀ args, DirOp.removename args ∈ ops → args.name ≠ e.name) →
      ∃ e' ∈ t.dp.entries mp, e'.name = e.name ∧ e'.offset = e.offset
  /-- Replacing an absent name changes nothing. -/
  enoent : ∀ args dp', (DirOp.replace args).Valid mp s.map →
    dir2SfReplace mp args s.dp = .failed .enoent dp' → dp' = s.dp

theorem DirMap.Matches.ncard (h : m.Matches es) (hnames : (es.map DirEntry.name).Nodup) :
    Set.ncard {name | m.entry name ≠ none} = es.length := by
  have hset : {name | m.entry name ≠ none} = ((es.map DirEntry.name).toFinset : Set Bytes) := by
    ext name
    simp [h.absent_iff]
  rw [hset, Set.ncard_coe_finset, toFinset_card_of_nodup hnames, length_map]

theorem dirSf_runs_sound (hmp : mp.Valid) (hpino : mp.verifyDirIno pino = true)
    {ops : List DirOp} {s : DirState} (hrun : DirSteps mp ops (.create pino) s) :
    DirSound mp s := by
  have hempty : (DirState.create pino).map.Matches [] := by
    intro name ino ftype
    simp [DirState.create]
  obtain ⟨es, hinv, hm, -⟩ := hrun.inv hmp (dir2SfCreate_inv hmp hpino) hempty
  have hes := hinv.entries
  have hholds := hinv.sf.holds
  refine ⟨hinv.verify, ?_, hinv.sf.ifBytes.symm, ?_, ?_, ?_, hholds.parentIno, ?_, ?_, ?_, ?_⟩
  · rw [hinv.sf.ifBytes, hinv.sf.diskSize]
  · rw [hinv.sf.ifBytes]
    exact hinv.fork
  · rw [hholds.i8, hholds.parentIno, hes, countP_cons, countP_map]
    unfold largeNum isLarge
    rw [add_comm]
    congr 1
    by_cases hlarge : dir2MaxShortInum < s.map.parent <;> simp [hlarge]
  · rw [hholds.count, hm.ncard hinv.names]
  · rw [hes]
    exact hinv.names
  · rw [hes]
    exact hm
  · intro ops' t hsteps e he hkeep
    obtain ⟨es', hinv', -, hoffsets⟩ := hsteps.inv hmp hinv hm
    rw [hes] at he
    rw [hinv'.entries]
    exact hoffsets e he hkeep
  · intro args dp' hvalid hfail
    rcases hinv.replace hmp hvalid.1 hvalid.2 with
      hblock | ⟨-, dp₁, hdone, -⟩ | ⟨-, -, hsame⟩ | ⟨-, pre, e, post, dp₁, -, -, hdone, -⟩
    · rw [hfail] at hblock
      cases hblock
    · rw [hfail] at hdone
      cases hdone
    · rw [hfail] at hsame
      cases hsame
      rfl
    · rw [hfail] at hdone
      cases hdone

/-! A directory gets a large number and loses it again. -/

def sampleDirMount : DirMount := ⟨true, true, 4096, 156, fun ino => decide (0 < ino ∧ ino < 2 ^ 40)⟩

theorem sampleDirMount_valid : sampleDirMount.Valid := by
  refine ⟨by decide, by decide, by decide, by decide, fun ino hino => ?_⟩
  have hlt := (of_decide_eq_true hino).2
  unfold maxInumber
  omega

def sampleWideArgs : DirArgs := ⟨[97], 2 ^ 32 + 5, 1, false, 1⟩

def sampleNarrowArgs : DirArgs := ⟨[97], 132, 2, false, 1⟩

def sampleWideState : DirState :=
  ⟨⟨[1, 1, 0, 0, 0, 0, 0, 0, 0, 128, 1, 0, 96, 97, 1, 0, 0, 0, 1, 0, 0, 0, 5], 23, 23⟩,
    (DirOp.addname sampleWideArgs).apply sampleDirMount false ⟨128, fun _ => none⟩⟩

def sampleNarrowState : DirState :=
  ⟨⟨[1, 0, 0, 0, 0, 128, 1, 0, 96, 97, 2, 0, 0, 0, 132], 15, 15⟩,
    (DirOp.replace sampleNarrowArgs).apply sampleDirMount false sampleWideState.map⟩

theorem sampleDirSteps : DirSteps sampleDirMount
    ([] ++ [.addname sampleWideArgs] ++ [.replace sampleNarrowArgs]) (.create 128)
    sampleNarrowState := by
  have hadd : DirStep sampleDirMount (.addname sampleWideArgs) (.create 128) sampleWideState :=
    ⟨⟨⟨by decide, by decide, by decide, by decide⟩, rfl⟩, .inl ⟨by decide, rfl⟩⟩
  have hreplace : DirStep sampleDirMount (.replace sampleNarrowArgs) sampleWideState
      sampleNarrowState :=
    ⟨⟨by decide, by decide⟩, .inl ⟨by decide, rfl⟩⟩
  exact .concat (.concat (.nil _) hadd) hreplace

theorem dirSf_runs_sound_sample : sampleDirMount.Valid ∧ DirSteps sampleDirMount
    ([] ++ [.addname sampleWideArgs] ++ [.replace sampleNarrowArgs]) (.create 128)
    sampleNarrowState ∧ DirSound sampleDirMount sampleNarrowState :=
  ⟨sampleDirMount_valid, sampleDirSteps,
    dirSf_runs_sound sampleDirMount_valid (by decide) sampleDirSteps⟩

end Xfs
