import Xfs.Db.MetadumpSpec

/-! A whole run of the obfuscation over a directory: when the new names fit together. -/
namespace Xfs

open List

variable {mp : DumpMount} {dirIno : Nat} {entries : List DumpEntry} {st st' : DumpState}
  {e : DumpEntry} {ev : DumpEvent} {evs order : List DumpEvent} {names : DumpNames}
  {name new : List NameByte}

section

variable (mp : DumpMount) (st : DumpState) (curIno ino : Nat) (name : List NameByte)

theorem inLostFound_warned : (inLostFound mp st curIno ino name).1.warned = st.warned := by
  rw [inLostFound]
  split_ifs <;> rfl

theorem generateObfuscatedNameTail_warned (h : st.warned) :
    (generateObfuscatedNameTail mp st curIno ino name).1.warned := by
  simp only [generateObfuscatedNameTail, obfuscateNext]
  split
  · exact h
  · split
    · rfl
    · split_ifs <;> exact h

theorem generateObfuscatedName_warned (h : st.warned) :
    (generateObfuscatedName mp st curIno ino name).1.warned := by
  have hlost : (if ino ≠ 0 then inLostFound mp st curIno ino name
      else (st, false)).1.warned := by
    split_ifs
    · exact (inLostFound_warned mp st curIno ino name).trans h
    · exact h
  rw [generateObfuscatedName]
  split
  next heq =>
    rw [heq] at hlost
    exact hlost
  next heq =>
    rw [heq] at hlost
    have htail := fun name => generateObfuscatedNameTail_warned mp _ curIno ino name hlost
    cases name with
    | nil => exact htail []
    | cons c cs =>
      by_cases hc : c = 0x2f#8
      · simp only [if_pos hc]
        exact htail cs
      · simp only [if_neg hc]
        exact htail (c :: cs)

end

theorem maybeObfuscatePptr_warned (mp : DumpMount) (st : DumpState) (obfuscate isMeta : Bool)
    (curIno : Nat) (parentIno : Option Nat) (name : List NameByte) :
    (maybeObfuscatePptr mp st obfuscate isMeta curIno parentIno name).1.warned = st.warned := by
  simp only [maybeObfuscatePptr, obfuscateNext]
  split_ifs
  · rfl
  cases parentIno with
  | none => rfl
  | some parentIno =>
    have hlost := inLostFound_warned mp st parentIno curIno name
    simp only
    split
    next heq =>
      rw [← hlost, heq]
    next heq =>
      rw [heq] at hlost
      split <;> exact hlost

theorem dumpStep_warned (h : st.warned) : (dumpStep mp dirIno st ev).1.warned := by
  cases ev with
  | dirent e => exact generateObfuscatedName_warned mp st dirIno e.ino e.name h
  | pptr e => exact (maybeObfuscatePptr_warned mp st true false e.ino dirIno e.name).trans h

theorem dumpRun_warned (evs : List DumpEvent) (st : DumpState) (h : st.warned) :
    (dumpRun mp dirIno st evs).1.warned := by
  induction evs generalizing st with
  | nil => exact h
  | cons ev evs ih => exact ih _ (dumpStep_warned h)

theorem exists_mem_dumpRun (evs : List DumpEvent) (st : DumpState) :
    (∃ n, (ev, n) ∈ (dumpRun mp dirIno st evs).2) ↔ ev ∈ evs := by
  induction evs generalizing st with
  | nil => simp [dumpRun]
  | cons ev' evs ih =>
    rw [mem_cons, ← ih (dumpStep mp dirIno st ev').1]
    simp [dumpRun, exists_or]

section

variable (hmp : mp.hasParent = true) (hdir : DumpDir mp dirIno entries)
include hmp hdir

theorem dumpRun_first (he : ev.entry ∈ entries) (h : DumpInv mp dirIno entries st names)
    (hwarned : (dumpRun mp dirIno st (ev :: evs)).1.warned = false) :
    NoOrphans mp dirIno entries (dumpStep mp dirIno st ev).1.orphanageIno ∧
      StepCase mp dirIno st ev (dumpStep mp dirIno st ev).1 (dumpStep mp dirIno st ev).2 := by
  refine dumpStep_cases hmp hdir h.orphans he rfl ?_
  rw [← Bool.not_eq_true] at hwarned ⊢
  exact fun hwarn => hwarned (dumpRun_warned evs _ hwarn)

section

variable (hmem : ∀ ev ∈ evs, ev.entry ∈ entries) (h : DumpInv mp dirIno entries st names)
include hmem h

theorem dumpRun_inv (hwarned : (dumpRun mp dirIno st evs).1.warned = false) :
    DumpInv mp dirIno entries (dumpRun mp dirIno st evs).1
      (names ++ (dumpRun mp dirIno st evs).2) := by
  induction evs generalizing st names with
  | nil => simpa [dumpRun] using h
  | cons ev evs ih =>
    have he := hmem ev mem_cons_self
    obtain ⟨horph, hcase⟩ := dumpRun_first hmp hdir he h hwarned
    have hrest := ih (fun ev' hev => hmem ev' (mem_cons_of_mem _ hev))
      (h.step hdir he horph hcase) hwarned
    rw [append_assoc] at hrest
    exact hrest

theorem dumpRun_good_iff (hgood : NamesGood mp names)
    (hwarned : (dumpRun mp dirIno st evs).1.warned = false) :
    NamesGood mp (names ++ (dumpRun mp dirIno st evs).2) ↔ EventsFit mp dirIno entries st evs := by
  induction evs generalizing st names with
  | nil => simpa [dumpRun, EventsFit] using hgood
  | cons ev evs ih =>
    have he := hmem ev mem_cons_self
    obtain ⟨horph, hcase⟩ := dumpRun_first hmp hdir he h hwarned
    have hfits := eventFits_iff h hdir he hgood hcase
    have hsplit : names ++ (dumpRun mp dirIno st (ev :: evs)).2 =
        names ++ [(ev, (dumpStep mp dirIno st ev).2)] ++
          (dumpRun mp dirIno (dumpStep mp dirIno st ev).1 evs).2 := by
      rw [append_assoc]
      rfl
    rw [EventsFit, hsplit]
    by_cases hfit : EventFits mp dirIno entries st ev
    · rw [and_iff_right hfit]
      exact ih (fun ev' hev => hmem ev' (mem_cons_of_mem _ hev))
        (h.step hdir he horph hcase) (hfits.mp hfit) hwarned
    · exact iff_of_false (fun hall => hfit (hfits.mpr hall.mono)) (fun hall => hfit hall.1)

end

end

theorem DumpInv.same (h : DumpInv mp dirIno entries st names)
    {x y : DumpEvent × List NameByte} (hx : x ∈ names) (hy : y ∈ names)
    (heq : x.1.entry = y.1.entry) : x.2 = y.2 := by
  have hnx := (h.given _ (h.mem x hx) x.2).mpr ⟨x, hx, rfl, rfl⟩
  have hny := (h.given _ (h.mem x hx) y.2).mpr ⟨y, hy, heq.symm, rfl⟩
  by_cases hkeep : KeepsName mp dirIno x.1.entry
  · rw [← (givenName_keeps hkeep).mp hnx, (givenName_keeps hkeep).mp hny]
  · rw [givenName_remap hkeep] at hnx hny
    exact Option.some.inj (hnx.symm.trans hny)

theorem renamedWell_iff (h : DumpInv mp dirIno entries st names)
    (hevents : ∀ ev, (∃ n, (ev, n) ∈ names) ↔ ev.entry ∈ entries) :
    RenamedWell mp entries names ↔ NamesGood mp names := by
  constructor
  · intro hwell
    have hdirent : ∀ x ∈ names, (.dirent x.1.entry, x.2) ∈ names ∧
        dirattrHashname mp true x.2 = dirattrHashname mp true x.1.entry.name := by
      intro x hx
      obtain ⟨name, hd, -, hhash⟩ := hwell.same _ (h.mem x hx)
      have hname : (.dirent x.1.entry, name) ∈ names := (hd name).mpr rfl
      have heq : x.2 = name := h.same hx hname rfl
      rw [heq]
      exact ⟨hname, hhash⟩
    refine ⟨fun x hx => (hdirent x hx).2, fun x hx y hy heq => ?_⟩
    exact hwell.distinct _ (h.mem x hx) _ (h.mem y hy) x.2 (hdirent x hx).1 (heq ▸ (hdirent y hy).1)
  · rintro ⟨hhash, hdistinct⟩
    refine ⟨fun e he => ?_, fun e₁ _ e₂ _ n h₁ h₂ => hdistinct _ h₁ _ h₂ rfl⟩
    obtain ⟨name, hname⟩ := (hevents (.dirent e)).mpr he
    obtain ⟨name', hname'⟩ := (hevents (.pptr e)).mpr he
    have heq : name' = name := h.same hname' hname rfl
    rw [heq] at hname'
    refine ⟨name, fun n => ⟨fun hn => h.same hn hname rfl, fun hn => hn ▸ hname⟩,
      fun n => ⟨fun hn => h.same hn hname rfl, fun hn => hn ▸ hname'⟩, hhash _ hname⟩

/-- The entries that keep their names have them from the start. -/
def keptNames (mp : DumpMount) (dirIno : Nat) (entries : List DumpEntry) : DumpNames :=
  (entries.filter (KeepsName mp dirIno ·)).map fun e => (.dirent e, e.name)

theorem mem_keptNames {x : DumpEvent × List NameByte} : x ∈ keptNames mp dirIno entries ↔
      ∃ e ∈ entries, KeepsName mp dirIno e ∧ x = (.dirent e, e.name) := by
  simp [keptNames, and_assoc, eq_comm]

theorem DumpInv.init (horph : NoOrphans mp dirIno entries st.orphanageIno)
    (hnew : ∀ e ∈ entries, remapName mp dirIno st e = none) :
    DumpInv mp dirIno entries st (keptNames mp dirIno entries) where
  orphans := horph
  mem x hx := by
    obtain ⟨e, he, -, rfl⟩ := mem_keptNames.mp hx
    exact he
  given e he n := by
    by_cases hkeep : KeepsName mp dirIno e
    · rw [givenName_keeps hkeep]
      constructor
      · exact fun hn => ⟨_, mem_keptNames.mpr ⟨e, he, hkeep, rfl⟩, rfl, hn⟩
      · rintro ⟨x, hx, rfl, rfl⟩
        obtain ⟨e', -, -, rfl⟩ := mem_keptNames.mp hx
        rfl
    · rw [givenName_remap hkeep, hnew e he]
      refine iff_of_false (fun h => nomatch h) ?_
      rintro ⟨x, hx, rfl, -⟩
      obtain ⟨e', -, hkeep', rfl⟩ := mem_keptNames.mp hx
      exact hkeep hkeep'

/-- Two lists with the same names of the same entries are both good or both bad. -/
theorem namesGood_congr {names' : DumpNames}
    (h : ∀ e n, (∃ x ∈ names, x.1.entry = e ∧ x.2 = n) ↔ ∃ x ∈ names', x.1.entry = e ∧ x.2 = n)
    (hgood : NamesGood mp names) : NamesGood mp names' := by
  refine ⟨fun x hx => ?_, fun x hx y hy heq => ?_⟩
  · obtain ⟨x', hx', he, hn⟩ := (h _ _).mpr ⟨x, hx, rfl, rfl⟩
    rw [← he, ← hn]
    exact hgood.1 x' hx'
  · obtain ⟨x', hx', hxe, hxn⟩ := (h _ _).mpr ⟨x, hx, rfl, rfl⟩
    obtain ⟨y', hy', hye, hyn⟩ := (h _ _).mpr ⟨y, hy, rfl, rfl⟩
    rw [← hxe, ← hye]
    exact hgood.2 x' hx' y' hy' (by rw [hxn, hyn, heq])

theorem namesGood_keptNames (hdir : DumpDir mp dirIno entries) :
    NamesGood mp (keptNames mp dirIno entries) := by
  refine ⟨fun x hx => ?_, fun x hx y hy heq => ?_⟩
  · obtain ⟨e, -, -, rfl⟩ := mem_keptNames.mp hx
    rfl
  · obtain ⟨e, he, -, rfl⟩ := mem_keptNames.mp hx
    obtain ⟨e', he', -, rfl⟩ := mem_keptNames.mp hy
    exact hdir.distinct e he e' he' heq

/-- Metadump renames the entries of a directory well if and only if every event fits. -/
theorem metadump_renames_iff (hmp : mp.hasParent = true) (hdir : DumpDir mp dirIno entries)
    (horph : NoOrphans mp dirIno entries st.orphanageIno)
    (hnew : ∀ e ∈ entries, remapName mp dirIno st e = none)
    (horder : order.Perm (entries.map .dirent ++ entries.map .pptr))
    (hquiet : (dumpRun mp dirIno st order).1.warned = false) :
    RenamedWell mp entries (dumpRun mp dirIno st order).2 ↔
      EventsFit mp dirIno entries st order := by
  have hmem : ∀ ev, ev ∈ order ↔ ev.entry ∈ entries := by
    intro ev
    rw [horder.mem_iff]
    cases ev <;> simp [DumpEvent.entry]
  have hinit := DumpInv.init horph hnew
  have hinv := dumpRun_inv hmp hdir (fun ev => (hmem ev).mp) hinit hquiet
  rw [← dumpRun_good_iff hmp hdir (fun ev => (hmem ev).mp) hinit (namesGood_keptNames hdir) hquiet]
  -- every kept name is also put out by the run
  have hout : ∀ e n, (∃ x ∈ keptNames mp dirIno entries ++ (dumpRun mp dirIno st order).2,
      x.1.entry = e ∧ x.2 = n) ↔ ∃ x ∈ (dumpRun mp dirIno st order).2, x.1.entry = e ∧ x.2 = n := by
    intro e n
    constructor
    · rintro ⟨x, hx, rfl, rfl⟩
      obtain ⟨n', hn'⟩ := (exists_mem_dumpRun order st).mpr ((hmem (.dirent x.1.entry)).mpr
        (hinv.mem x hx))
      exact ⟨_, hn', rfl, hinv.same (mem_append_right _ hn') hx rfl⟩
    · rintro ⟨x, hx, heq⟩
      exact ⟨x, mem_append_right _ hx, heq⟩
  have hgiven : DumpInv mp dirIno entries (dumpRun mp dirIno st order).1
      (dumpRun mp dirIno st order).2 :=
    ⟨hinv.orphans, fun x hx => hinv.mem x (mem_append_right _ hx),
      fun e he n => (hinv.given e he n).trans (hout e n)⟩
  rw [renamedWell_iff hgiven fun ev => by rw [← hmem ev, exists_mem_dumpRun]]
  exact ⟨namesGood_congr fun e n => (hout e n).symm, namesGood_congr hout⟩

def sampleMount : DumpMount := ⟨128, true, false, fun _ _ => 7⟩

def sampleDumpState : DumpState := ⟨fun _ => [], fun _ => [], 0, 0, false⟩

def sampleEntries : List DumpEntry :=
  [⟨[0x61#8, 0x62#8, 0x63#8, 0x64#8, 0x65#8], 131⟩, ⟨[0x61#8, 0x62#8, 0x63#8, 0x65#8, 0xe5#8], 132⟩]

theorem sampleEntries_dumpDir : DumpDir sampleMount 130 sampleEntries := by
  have hkeep : ∀ e ∈ sampleEntries, ¬ KeepsName sampleMount 130 e := by decide
  exact ⟨by decide, by decide, by decide, by decide, fun k hk hkeep' => absurd hkeep' (hkeep k hk)⟩

theorem sampleEntries_noOrphans :
    NoOrphans sampleMount 130 sampleEntries sampleDumpState.orphanageIno := by
  have hkeep : ∀ e ∈ sampleEntries, ¬ KeepsName sampleMount 130 e := by decide
  exact ⟨by decide, fun e he hkeep' => absurd hkeep' (hkeep e he), by decide⟩

theorem sampleEntries_dirent_fits
    (htable : ∀ e' ∈ sampleEntries, (remapName sampleMount 130 st e').all
      (nametableFind st (dirattrHashname sampleMount true e.name))) :
    EventFits sampleMount 130 sampleEntries st (.dirent e) := by
  have hkeep : ∀ e ∈ sampleEntries, ¬ KeepsName sampleMount 130 e := by decide
  refine .inr fun seq _ => ⟨fun e' he' n hgiven hnot => ?_, fun hci => nomatch hci⟩
  have hfound := htable e' he'
  rw [(givenName_remap (hkeep e' he')).mp hgiven, Option.all_some, hnot] at hfound
  cases hfound

theorem metadump_renames_entries_first :
    RenamedWell sampleMount sampleEntries (dumpRun sampleMount 130 sampleDumpState
      (sampleEntries.map .dirent ++ sampleEntries.map .pptr)).2 := by
  refine (metadump_renames_iff rfl sampleEntries_dumpDir sampleEntries_noOrphans (by decide)
    (List.Perm.refl _) (by decide)).mpr ⟨sampleEntries_dirent_fits (by decide),
      sampleEntries_dirent_fits (by decide), .inl ?_, .inl ?_, trivial⟩
  · exact ⟨_, (givenName_remap (by decide)).mpr rfl⟩
  · exact ⟨_, (givenName_remap (by decide)).mpr rfl⟩

/-- If the parent pointers come first, both entries get the same name. -/
theorem metadump_pptrs_first_collide : DumpDir sampleMount 130 sampleEntries ∧
      NoOrphans sampleMount 130 sampleEntries sampleDumpState.orphanageIno ∧
      (dumpRun sampleMount 130 sampleDumpState
        (sampleEntries.map .pptr ++ sampleEntries.map .dirent)).1.warned = false ∧
      ¬ RenamedWell sampleMount sampleEntries (dumpRun sampleMount 130 sampleDumpState
        (sampleEntries.map .pptr ++ sampleEntries.map .dirent)).2 := by
  refine ⟨sampleEntries_dumpDir, sampleEntries_noOrphans, by decide, fun hwell => ?_⟩
  have heq := hwell.distinct ⟨[0x61#8, 0x62#8, 0x63#8, 0x64#8, 0x65#8], 131⟩ (by decide)
    ⟨[0x61#8, 0x62#8, 0x63#8, 0x65#8, 0xe5#8], 132⟩ (by decide)
    [0x01#8, 0x62#8, 0x63#8, 0x64#8, 0x63#8] (by decide) (by decide)
  exact absurd heq (by decide)

end Xfs
