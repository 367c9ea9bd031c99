import Xfs.Db.Metadump
import Xfs.Db.ObfuscateSpec

/-! The entries of a directory and the parent pointers of its children, in any order. -/
namespace Xfs

open List

structure DumpEntry where
  name : List NameByte
  ino : Nat
deriving DecidableEq, Repr

/-- An entry is renamed in the directory, or in the parent pointer of its inode. -/
inductive DumpEvent where
  | dirent (e : DumpEntry)
  | pptr (e : DumpEntry)
deriving DecidableEq, Repr

def DumpEvent.entry : DumpEvent → DumpEntry
  | .dirent e => e
  | .pptr e => e

abbrev DumpNames := List (DumpEvent × List NameByte)

section

variable (mp : DumpMount) (dirIno : Nat)

def dumpStep (st : DumpState) : DumpEvent → DumpState × List NameByte
  | .dirent e => generateObfuscatedName mp st dirIno e.ino e.name
  | .pptr e => maybeObfuscatePptr mp st true false e.ino (some dirIno) e.name

def dumpRun : DumpState → List DumpEvent → DumpState × DumpNames
  | st, [] => (st, [])
  | st, ev :: evs =>
    let (st, name) := dumpStep mp dirIno st ev
    let (st, names) := dumpRun st evs
    (st, (ev, name) :: names)

/-- The entry "lost+found" of the root directory keeps its name. -/
def KeepsName (e : DumpEntry) : Prop := dirIno = mp.rootino ∧ e.name = nameBytes "lost+found"

instance (e : DumpEntry) : Decidable (KeepsName mp dirIno e) := inferInstanceAs (Decidable (_ ∧ _))

/-- What is known about "lost+found" is right, and there are no orphans in it. -/
structure NoOrphans (entries : List DumpEntry) (orphanageIno : Nat) : Prop where
  only : ∀ e ∈ entries, e.ino = orphanageIno → KeepsName mp dirIno e
  known : ∀ e ∈ entries, KeepsName mp dirIno e → orphanageIno = 0 ∨ orphanageIno = e.ino
  orphan : dirIno = orphanageIno → ∀ e ∈ entries, e.name ≠ nameBytes (Nat.repr e.ino)

structure DumpDir (entries : List DumpEntry) : Prop where
  distinct : ∀ e₁ ∈ entries, ∀ e₂ ∈ entries, e₁.name = e₂.name → e₁ = e₂
  valid : ∀ e ∈ entries, ValidName e.name
  ino_ne : ∀ e ∈ entries, e.ino ≠ 0
  dirIno_ne : dirIno ≠ 0
  lostFound : ∀ k ∈ entries, KeepsName mp dirIno k → k.ino ≠ dirIno ∧
    ∀ e ∈ entries, e.ino = k.ino → e = k

/-- Entries and parent pointers got the same names, all different, with the old hashes. -/
structure RenamedWell (entries : List DumpEntry) (names : DumpNames) : Prop where
  same : ∀ e ∈ entries, ∃ name, (∀ n, (.dirent e, n) ∈ names ↔ n = name) ∧
    (∀ n, (.pptr e, n) ∈ names ↔ n = name) ∧
    dirattrHashname mp true name = dirattrHashname mp true e.name
  distinct : ∀ e₁ ∈ entries, ∀ e₂ ∈ entries, ∀ n, (.dirent e₁, n) ∈ names →
    (.dirent e₂, n) ∈ names → e₁ = e₂

def remapName (st : DumpState) (e : DumpEntry) : Option (List NameByte) :=
  (remaptableFind st dirIno (dirattrHashname mp true e.name) e.name).map RemapEnt.after

def GivenName (st : DumpState) (e : DumpEntry) (name : List NameByte) : Prop :=
  if KeepsName mp dirIno e then e.name = name else remapName mp dirIno st e = some name

/-- What `obfuscate_name` makes of the name with the next random numbers. -/
def obfuscatedName (st : DumpState) (e : DumpEntry) : List NameByte :=
  (obfuscateNext mp st (dirattrHashname mp true e.name) e.name true).2

/-- Alternate `seq` of the name. The first one is the name itself. -/
def alternate (name : List NameByte) (seq : Nat) : List NameByte :=
  (findAlternate name (BitVec.ofNat 32 seq)).1

/-- Alternate `seq` is the first that the name table does not have. -/
def FirstUnused (st : DumpState) (hash : BitVec 32) (name : List NameByte) (seq : Nat) : Prop :=
  ((findAlternate name (BitVec.ofNat 32 seq)).2 = 1 ∧
    nametableFind st hash (alternate name seq) = false) ∧
  ∀ s < seq, (findAlternate name (BitVec.ofNat 32 s)).2 = 0 ∨
    (findAlternate name (BitVec.ofNat 32 s)).2 = 1 ∧ nametableFind st hash (alternate name s) = true

instance (st : DumpState) (hash : BitVec 32) (name : List NameByte) (seq : Nat) :
    Decidable (FirstUnused st hash name seq) :=
  inferInstanceAs (Decidable ((_ ∧ _) ∧ ∀ s < seq, _ ∨ _))

def EventFits (entries : List DumpEntry) (st : DumpState) (ev : DumpEvent) : Prop :=
  (∃ name, GivenName mp dirIno st ev.entry name) ∨
  match ev with
  | .pptr e => ∀ e' ∈ entries, ¬ GivenName mp dirIno st e' (obfuscatedName mp st e)
  | .dirent e => ∀ seq,
      FirstUnused st (dirattrHashname mp true e.name) (obfuscatedName mp st e) seq →
      (∀ e' ∈ entries, ∀ name, GivenName mp dirIno st e' name →
        nametableFind st (dirattrHashname mp true e.name) name = false →
        name ≠ alternate (obfuscatedName mp st e) seq) ∧
      (mp.hasAsciici = true → dirattrHashname mp true (alternate (obfuscatedName mp st e) seq) =
        dirattrHashname mp true e.name)

def EventsFit (entries : List DumpEntry) : DumpState → List DumpEvent → Prop
  | _, [] => True
  | st, ev :: evs =>
    EventFits mp dirIno entries st ev ∧ EventsFit entries (dumpStep mp dirIno st ev).1 evs

end

variable {mp : DumpMount} {dirIno : Nat} {entries : List DumpEntry} {st st' : DumpState}
  {e : DumpEntry} {ev : DumpEvent} {evs : List DumpEvent} {names : DumpNames}
  {name new : List NameByte} {hash : BitVec 32}

theorem inLostFound_eq (hdir : DumpDir mp dirIno entries)
    (horph : NoOrphans mp dirIno entries st.orphanageIno) (he : e ∈ entries) :
    ∃ ino, inLostFound mp st dirIno e.ino e.name =
        ({ st with orphanageIno := ino }, decide (KeepsName mp dirIno e)) ∧
      NoOrphans mp dirIno entries ino := by
  by_cases hkeep : KeepsName mp dirIno e
  · have hdirOk : isOrphanageDir mp dirIno e.name := by
      simp [isOrphanageDir, hkeep.1, hkeep.2]
    have hino : (if st.orphanageIno = 0 ∧ isOrphanageDir mp dirIno e.name = true then
        { st with orphanageIno := e.ino } else st) = { st with orphanageIno := e.ino } := by
      rcases horph.known e he hkeep with h0 | h0
      · rw [if_pos ⟨h0, hdirOk⟩]
      · rw [← h0]
        split_ifs <;> rfl
    refine ⟨e.ino, ?_, ?_, ?_, ?_⟩
    · rw [inLostFound, hino]
      simp [hkeep]
    · intro e' he' heq
      rw [(hdir.lostFound e he hkeep).2 e' he' heq]
      exact hkeep
    · intro e' he' hkeep'
      rw [hdir.distinct e' he' e he (hkeep'.2.trans hkeep.2.symm)]
      exact .inr rfl
    · exact fun heq => absurd heq.symm (hdir.lostFound e he hkeep).1
  · have hnot : isOrphanageDir mp dirIno e.name = false := by
      simpa [isOrphanageDir, KeepsName] using hkeep
    refine ⟨st.orphanageIno, ?_, horph⟩
    rw [inLostFound, hnot]
    have hino : e.ino ≠ st.orphanageIno := fun heq => hkeep (horph.only e he heq)
    simp only [Bool.false_eq_true, and_false, if_false, if_neg hino, decide_eq_false hkeep]
    split_ifs with hcur
    · rfl
    · have hname := horph.orphan (not_not.mp hcur) e he
      simp [hname]

theorem remapName_add :
    remapName mp dirIno (remaptableAdd st dirIno (dirattrHashname mp true name) name new) e =
      if e.name = name then some new else remapName mp dirIno st e := by
  unfold remapName remaptableFind remaptableAdd
  by_cases hname : e.name = name
  · simp [hname]
  rw [if_neg hname]
  congr 1
  by_cases hbucket : (dirattrHashname mp true e.name).toNat % remaptableSize =
      (dirattrHashname mp true name).toNat % remaptableSize
  · have hne : (name == e.name) = false := by simpa using fun heq => hname heq.symm
    simp [hbucket, hne]
  · simp [Function.update_of_ne hbucket]

theorem remapName_congr (h : st'.remaptable = st.remaptable) :
    remapName mp dirIno st' e = remapName mp dirIno st e := by
  simp [remapName, remaptableFind, h]

theorem obfuscateNext_hash (hvalid : ValidName name) :
    dirattrHashname mp true (obfuscateNext mp st (dirattrHashname mp true name) name true).2 =
      dirattrHashname mp true name := by
  by_cases hlen : 5 ≤ name.length
  · obtain ⟨new, hnew, -, hhash, -⟩ : ∃ new, obfuscateName (mp.random st.calls)
        (dirattrHashname mp true name) name true mp.hasAsciici = some new ∧ _ ∧
        dirattrHashname mp true new = dirattrHashname mp true name ∧ _ :=
      obfuscateName_spec true mp.hasAsciici hlen hvalid
    show dirattrHashname mp true ((obfuscateName _ _ name true mp.hasAsciici).getD name) = _
    rw [hnew]
    exact hhash
  · show dirattrHashname mp true ((obfuscateName _ _ name true mp.hasAsciici).getD name) = _
    rw [obfuscateName, if_pos (by omega)]
    rfl

theorem FirstUnused.unique {seq seq' : Nat} (h : FirstUnused st hash name seq)
    (h' : FirstUnused st hash name seq') : seq = seq' := by
  by_contra hne
  wlog hlt : seq < seq' with hgt
  · exact hgt h' h (Ne.symm hne) (by omega)
  have hearlier := h'.2 seq hlt
  simp [h.1.1, h.1.2] at hearlier

theorem findUnusedAlternate_spec {count seq : Nat}
    (hfind : findUnusedAlternate st hash name count seq = some new)
    (hearlier : ∀ s < seq, (findAlternate name (BitVec.ofNat 32 s)).2 = 0 ∨
      (findAlternate name (BitVec.ofNat 32 s)).2 = 1 ∧
        nametableFind st hash (alternate name s) = true) :
    ∃ seq, FirstUnused st hash name seq ∧ alternate name seq = new := by
  induction count generalizing seq with
  | zero => cases hfind
  | succ count ih =>
    have hnext : ((findAlternate name (BitVec.ofNat 32 seq)).2 = 0 ∨
        (findAlternate name (BitVec.ofNat 32 seq)).2 = 1 ∧
          nametableFind st hash (alternate name seq) = true) →
        ∀ s < seq + 1, (findAlternate name (BitVec.ofNat 32 s)).2 = 0 ∨
          (findAlternate name (BitVec.ofNat 32 s)).2 = 1 ∧
            nametableFind st hash (alternate name s) = true := fun h s hs => by
      rcases Nat.lt_succ_iff_lt_or_eq.mp hs with hlt | rfl
      · exact hearlier s hlt
      · exact h
    have hresult := findAlternate_result name (BitVec.ofNat 32 seq)
    rw [findUnusedAlternate] at hfind
    simp only at hfind
    split_ifs at hfind with h1 h2 h3
    · exact ih hfind (hnext (.inl h2))
    · exact ih hfind (hnext (.inr ⟨by omega, h3⟩))
    · exact ⟨seq, ⟨⟨by omega, Bool.eq_false_iff.mpr h3⟩, hearlier⟩, Option.some.inj hfind⟩

theorem handleDuplicateName_spec (hdup : handleDuplicateName st hash name = some new) :
    ∃ seq, FirstUnused st hash name seq ∧ alternate name seq = new := by
  rw [handleDuplicateName] at hdup
  split_ifs at hdup with hfound
  · refine findUnusedAlternate_spec hdup fun s hs => .inr ?_
    rw [Nat.lt_one_iff.mp hs]
    exact ⟨rfl, hfound⟩
  · exact ⟨0, ⟨⟨rfl, Bool.eq_false_iff.mpr hfound⟩, fun s hs => absurd hs s.not_lt_zero⟩,
      Option.some.inj hdup⟩

theorem FirstUnused.daHashname_eq {seq : Nat} (h : FirstUnused st hash name seq) :
    daHashname (alternate name seq) = daHashname name :=
  (findAlternate_spec (Prod.ext rfl h.1.1)).2.1

/-- The names given so far are the ones in `names`. -/
structure DumpInv (mp : DumpMount) (dirIno : Nat) (entries : List DumpEntry) (st : DumpState)
    (names : DumpNames) : Prop where
  orphans : NoOrphans mp dirIno entries st.orphanageIno
  mem : ∀ x ∈ names, x.1.entry ∈ entries
  given : ∀ e ∈ entries, ∀ n, GivenName mp dirIno st e n ↔ ∃ x ∈ names, x.1.entry = e ∧ x.2 = n

def NewName (mp : DumpMount) (st : DumpState) (ev : DumpEvent) (new : List NameByte) : Prop :=
  match ev with
  | .pptr e => obfuscatedName mp st e = new
  | .dirent e => ∃ seq, FirstUnused st (dirattrHashname mp true e.name) (obfuscatedName mp st e) seq ∧
      alternate (obfuscatedName mp st e) seq = new

/-- What an event does: the name is there already, or there is a new one. -/
inductive StepCase (mp : DumpMount) (dirIno : Nat) (st : DumpState) (ev : DumpEvent)
    (st' : DumpState) (new : List NameByte) : Prop where
  | given (htable : st'.remaptable = st.remaptable) (hname : GivenName mp dirIno st ev.entry new)
  | fresh (hnone : ∀ n, ¬ GivenName mp dirIno st ev.entry n)
      (hremap : ∀ e, remapName mp dirIno st' e =
        if e.name = ev.entry.name then some new else remapName mp dirIno st e)
      (hmade : NewName mp st ev new)

theorem givenName_keeps (hkeep : KeepsName mp dirIno e) :
    GivenName mp dirIno st e name ↔ e.name = name := by
  rw [GivenName, if_pos hkeep]

theorem givenName_remap (hkeep : ¬ KeepsName mp dirIno e) :
    GivenName mp dirIno st e name ↔ remapName mp dirIno st e = some name := by
  rw [GivenName, if_neg hkeep]

theorem dirattrHashname_plain (h : mp.hasAsciici = false) :
    dirattrHashname mp true name = daHashname name := by
  simp [dirattrHashname, nameHash, h]

theorem generateObfuscatedNameTail_cases (hmp : mp.hasParent) (hino : e.ino ≠ 0)
    (hkeep : ¬ KeepsName mp dirIno e)
    (hrun : generateObfuscatedNameTail mp st dirIno e.ino e.name = (st', new))
    (hwarned : st'.warned = false) :
    st'.orphanageIno = st.orphanageIno ∧ StepCase mp dirIno st (.dirent e) st' new := by
  have hino' : (e.ino != 0) := by simpa using hino
  simp only [generateObfuscatedNameTail, hino', hmp, Bool.and_self, if_true] at hrun
  cases hfind : remaptableFind st dirIno (dirattrHashname mp true e.name) e.name with
  | some remap =>
    rw [hfind] at hrun
    obtain ⟨rfl, rfl⟩ := Prod.mk.inj hrun
    exact ⟨rfl, .given rfl ((givenName_remap hkeep).mpr (by rw [remapName, hfind]; rfl))⟩
  | none =>
    rw [hfind] at hrun
    have hnone : remapName mp dirIno st e = none := by rw [remapName, hfind]; rfl
    cases hdup : handleDuplicateName (obfuscateNext mp st (dirattrHashname mp true e.name) e.name
        true).1 (dirattrHashname mp true e.name)
        (obfuscateNext mp st (dirattrHashname mp true e.name) e.name true).2 with
    | none =>
      rw [hdup] at hrun
      obtain ⟨rfl, -⟩ := Prod.mk.inj hrun
      cases hwarned
    | some newName =>
      rw [hdup] at hrun
      obtain ⟨rfl, rfl⟩ := Prod.mk.inj hrun
      obtain ⟨seq, hseq, hnew⟩ := handleDuplicateName_spec hdup
      refine ⟨rfl, .fresh (fun n hn => ?_) (fun e' => remapName_add) ⟨seq, hseq, hnew⟩⟩
      rw [DumpEvent.entry, givenName_remap hkeep, hnone] at hn
      cases hn

theorem generateObfuscatedName_eq {ino : Nat} (hvalid : ValidName name) (hino : e.ino ≠ 0)
    (hlost : inLostFound mp st dirIno e.ino name = ({ st with orphanageIno := ino }, false)) :
    generateObfuscatedName mp st dirIno e.ino name =
      generateObfuscatedNameTail mp { st with orphanageIno := ino } dirIno e.ino name := by
  rw [generateObfuscatedName, if_pos hino, hlost]
  cases name with
  | nil => rfl
  | cons c cs =>
    have hc : c ≠ 0x2f#8 := by
      rintro rfl
      exact absurd (hvalid _ mem_cons_self) (by decide)
    simp only [if_neg hc]

theorem dumpStep_cases (hmp : mp.hasParent) (hdir : DumpDir mp dirIno entries)
    (horph : NoOrphans mp dirIno entries st.orphanageIno) (he : ev.entry ∈ entries)
    (hstep : dumpStep mp dirIno st ev = (st', new)) (hwarned : st'.warned = false) :
    NoOrphans mp dirIno entries st'.orphanageIno ∧ StepCase mp dirIno st ev st' new := by
  cases ev with
  | dirent e =>
    obtain ⟨ino, hlost, hno⟩ := inLostFound_eq hdir horph (show e ∈ entries from he)
    have hino := hdir.ino_ne e he
    by_cases hkeep : KeepsName mp dirIno e
    · rw [dumpStep, generateObfuscatedName, if_pos hino] at hstep
      rw [hlost, decide_eq_true hkeep] at hstep
      obtain ⟨rfl, rfl⟩ := Prod.mk.inj hstep
      exact ⟨hno, .given rfl ((givenName_keeps hkeep).mpr rfl)⟩
    rw [decide_eq_false hkeep] at hlost
    rw [dumpStep, generateObfuscatedName_eq (hdir.valid e he) hino hlost] at hstep
    obtain ⟨horph', hcase⟩ := generateObfuscatedNameTail_cases hmp hino hkeep hstep hwarned
    rw [horph']
    refine ⟨hno, ?_⟩
    cases hcase with
    | given htable hname => exact .given htable hname
    | fresh hnone hremap hmade => exact .fresh hnone hremap hmade
  | pptr e =>
    obtain ⟨ino, hlost, hno⟩ := inLostFound_eq hdir horph (show e ∈ entries from he)
    simp only [dumpStep, maybeObfuscatePptr, Bool.true_eq_false, Bool.false_eq_true, or_self,
      if_false] at hstep
    rw [hlost] at hstep
    by_cases hkeep : KeepsName mp dirIno e
    · rw [decide_eq_true hkeep] at hstep
      obtain ⟨rfl, rfl⟩ := Prod.mk.inj hstep
      exact ⟨hno, .given rfl ((givenName_keeps hkeep).mpr rfl)⟩
    rw [decide_eq_false hkeep] at hstep
    simp only at hstep
    cases hfind : remaptableFind { st with orphanageIno := ino } dirIno
        (dirattrHashname mp true e.name) e.name with
    | some remap =>
      rw [hfind] at hstep
      obtain ⟨rfl, rfl⟩ := Prod.mk.inj hstep
      exact ⟨hno, .given rfl
        ((givenName_remap hkeep).mpr (congrArg (Option.map RemapEnt.after) hfind))⟩
    | none =>
      rw [hfind] at hstep
      obtain ⟨rfl, rfl⟩ := Prod.mk.inj hstep
      have hnone : remapName mp dirIno st e = none := congrArg (Option.map RemapEnt.after) hfind
      refine ⟨hno, .fresh (fun n hn => ?_) (fun e' => remapName_add) rfl⟩
      rw [DumpEvent.entry, givenName_remap hkeep, hnone] at hn
      cases hn

theorem DumpInv.step (h : DumpInv mp dirIno entries st names) (hdir : DumpDir mp dirIno entries)
    (he : ev.entry ∈ entries) (horph : NoOrphans mp dirIno entries st'.orphanageIno)
    (hcase : StepCase mp dirIno st ev st' new) :
    DumpInv mp dirIno entries st' (names ++ [(ev, new)]) := by
  refine ⟨horph, fun x hx => ?_, fun e' he' n => ?_⟩
  · rcases mem_append.mp hx with hx | hx
    · exact h.mem x hx
    · rw [mem_singleton.mp hx]
      exact he
  · have hsnoc : (∃ x ∈ names ++ [(ev, new)], x.1.entry = e' ∧ x.2 = n) ↔
        (∃ x ∈ names, x.1.entry = e' ∧ x.2 = n) ∨ ev.entry = e' ∧ new = n := by
      simp
    rw [hsnoc, ← h.given e' he' n]
    cases hcase with
    | given htable hname =>
      have hsame : GivenName mp dirIno st' e' n ↔ GivenName mp dirIno st e' n := by
        unfold GivenName
        rw [remapName_congr htable]
      rw [hsame]
      refine (or_iff_left_of_imp ?_).symm
      rintro ⟨rfl, rfl⟩
      exact hname
    | fresh hnone hremap hmade =>
      by_cases heq : ev.entry = e'
      · subst heq
        have hkeep : ¬ KeepsName mp dirIno ev.entry := fun hk =>
          hnone _ ((givenName_keeps hk).mpr rfl)
        rw [givenName_remap hkeep, hremap, if_pos rfl]
        simp [hnone]
      · have hname : e'.name ≠ ev.entry.name := fun hname =>
          heq (hdir.distinct _ he _ he' hname.symm)
        have hsame : GivenName mp dirIno st' e' n ↔ GivenName mp dirIno st e' n := by
          unfold GivenName
          rw [hremap, if_neg hname]
        simp [hsame, heq]

/-- The names hash like the old ones, and different entries have different names. -/
def NamesGood (mp : DumpMount) (names : DumpNames) : Prop :=
  (∀ x ∈ names, dirattrHashname mp true x.2 = dirattrHashname mp true x.1.entry.name) ∧
    ∀ x ∈ names, ∀ y ∈ names, x.2 = y.2 → x.1.entry = y.1.entry

theorem NamesGood.mono {names' : DumpNames} (h : NamesGood mp (names ++ names')) :
    NamesGood mp names :=
  ⟨fun x hx => h.1 x (mem_append_left _ hx),
    fun x hx y hy => h.2 x (mem_append_left _ hx) y (mem_append_left _ hy)⟩

theorem namesGood_snoc (h : NamesGood mp names) : NamesGood mp (names ++ [(ev, new)]) ↔
      dirattrHashname mp true new = dirattrHashname mp true ev.entry.name ∧
        ∀ x ∈ names, x.2 = new → x.1.entry = ev.entry := by
  constructor
  · intro hgood
    exact ⟨hgood.1 (ev, new) (by simp), fun x hx heq =>
      hgood.2 x (mem_append_left _ hx) (ev, new) (by simp) heq⟩
  · rintro ⟨hhash, hne⟩
    refine ⟨fun x hx => ?_, fun x hx y hy heq => ?_⟩
    · rcases mem_append.mp hx with hx | hx
      · exact h.1 x hx
      · rw [mem_singleton.mp hx]
        exact hhash
    · rcases mem_append.mp hx with hx | hx <;> rcases mem_append.mp hy with hy | hy
      · exact h.2 x hx y hy heq
      · rw [mem_singleton.mp hy] at heq ⊢
        exact hne x hx heq
      · rw [mem_singleton.mp hx] at heq ⊢
        exact (hne y hy heq.symm).symm
      · rw [mem_singleton.mp hx, mem_singleton.mp hy]

/-- An event fits if and only if the names so far stay good. -/
theorem eventFits_iff (h : DumpInv mp dirIno entries st names) (hdir : DumpDir mp dirIno entries)
    (he : ev.entry ∈ entries) (hgood : NamesGood mp names)
    (hcase : StepCase mp dirIno st ev st' new) :
    EventFits mp dirIno entries st ev ↔ NamesGood mp (names ++ [(ev, new)]) := by
  rw [namesGood_snoc hgood]
  cases hcase with
  | given htable hname =>
    obtain ⟨x, hx, hxe, rfl⟩ := (h.given _ he _).mp hname
    refine iff_of_true (.inl ⟨_, hname⟩) ⟨?_, fun y hy heq => ?_⟩
    · rw [hgood.1 x hx, hxe]
    · rw [← hxe]
      exact hgood.2 y hy x hx heq
  | fresh hnone hremap hmade =>
    have hvalid := hdir.valid _ he
    -- no name of the list is that of the entry, so one that clashes belongs to another
    have hclash : (∀ x ∈ names, x.2 = new → x.1.entry = ev.entry) ↔
        ∀ e' ∈ entries, ¬ GivenName mp dirIno st e' new := by
      constructor
      · intro hall e' he' hgiven
        obtain ⟨x, hx, rfl, hxn⟩ := (h.given e' he' new).mp hgiven
        rw [hall x hx hxn] at hgiven
        exact hnone _ hgiven
      · intro hall x hx hxn
        exact absurd ((h.given _ (h.mem x hx) new).mpr ⟨x, hx, rfl, hxn⟩) (hall _ (h.mem x hx))
    refine (or_iff_right fun ⟨n, hn⟩ => hnone n hn).trans ?_
    rw [hclash]
    cases ev with
    | pptr e =>
      obtain rfl : obfuscatedName mp st e = new := hmade
      exact (and_iff_right (obfuscateNext_hash hvalid)).symm
    | dirent e =>
      obtain ⟨seq, hseq, rfl⟩ := hmade
      have hhash : mp.hasAsciici = false →
          dirattrHashname mp true (alternate (obfuscatedName mp st e) seq) =
            dirattrHashname mp true e.name := fun hci => by
        rw [dirattrHashname_plain hci, hseq.daHashname_eq, ← dirattrHashname_plain hci]
        exact obfuscateNext_hash hvalid
      constructor
      · intro hall
        obtain ⟨hout, hci⟩ := hall seq hseq
        refine ⟨?_, fun e' he' hgiven => hout e' he' _ hgiven hseq.1.2 rfl⟩
        cases hasci : mp.hasAsciici with
        | true => exact hci hasci
        | false => exact hhash hasci
      · rintro ⟨hnew, hout⟩ seq' hseq'
        obtain rfl := hseq.unique hseq'
        refine ⟨fun e' he' n hgiven _ heq => hout e' he' (heq ▸ hgiven), fun _ => hnew⟩

end Xfs
