import Mathlib.Tactic.IntervalCases
import Xfs.Repair.BlockMapSteps

/-! Sequences of calls on the block states of all groups. -/
namespace Xfs

open Function List StepFunction SortedMap

/-- A call with its group. `stale` is what `next_key` holds if there is no next key. -/
inductive BlockCall where
  | set (g : BlockGroup) (offset blen : Nat) (state : BlockState) (stale : Nat)
  | get (g : BlockGroup) (agbno maxbno : Nat) (wantLen : Bool)
deriving Repr

def blockStep (bmaps : BlockMaps) : BlockCall → BlockMaps
  | .set g offset blen state stale =>
    Function.update bmaps g (setBmapExt stale (bmaps g) offset blen state)
  | .get g agbno maxbno wantLen =>
    Function.update bmaps g (getBmapExt (bmaps g) agbno maxbno wantLen).1

/-- What each block of each group was set to last. -/
abbrev BlockStates := BlockGroup → Nat → BlockState

def BlockCall.onStates (f : BlockStates) : BlockCall → BlockStates
  | .set g offset blen state _ =>
    Function.update f g (assign (f g) offset (offset + blen) state)
  | .get _ _ _ _ => f

section

variable (mp : BlockGeometry)

def groupSize (g : BlockGroup) : Nat :=
  if g.isrt then rtgroupExtents mp g.gno * mp.rextsize else agSize mp g.gno

def InGroups (g : BlockGroup) : Prop :=
  if g.isrt then mp.hasRtgroups = true ∧ g.gno < mp.rgcount else g.gno < mp.agcount

instance (g : BlockGroup) : Decidable (InGroups mp g) :=
  inferInstanceAs (Decidable (if g.isrt then _ else _))

/-- The state at the end of a group. A realtime group may hold its superblock only. -/
def endState (g : BlockGroup) : BlockState :=
  if g.isrt = true ∧ g.gno = 0 ∧ mp.hasRtsb = true ∧ rtgroupExtents mp 0 = 1 then .free
  else .badState

def InLog (g : BlockGroup) (b : Nat) : Prop :=
  mp.logstart ≠ 0 ∧ g = ⟨mp.logstart / 2 ^ mp.agblklog, false⟩ ∧
    mp.logstart % 2 ^ mp.agblklog ≤ b ∧ b < mp.logstart % 2 ^ mp.agblklog + mp.logblocks

instance (g : BlockGroup) (b : Nat) : Decidable (InLog mp g b) := inferInstanceAs (Decidable (_ ∧ _))

/-- The states after a reset, continued behind the end of the group. -/
def resetStates : BlockStates := fun g b =>
  if groupSize mp g ≤ b then endState mp g
  else if g.isrt then
    if g.gno = 0 ∧ mp.hasRtsb = true ∧ b < mp.rextsize then .inuseFs else .free
  else if b < agHdrBlock mp ∨ InLog mp g b then .inuseFs else .unknown

/-- Groups are not empty, larger than their headers, and the log lies behind those of one. -/
structure BlockGeometry.Valid : Prop where
  sectsize_pos : 0 < mp.sectsize
  blocksize_pos : 0 < mp.blocksize
  agSize_lt : ∀ agno < mp.agcount, agHdrBlock mp < agSize mp agno ∧ agSize mp agno < 2 ^ 32
  log : mp.logstart ≠ 0 → mp.logstart / 2 ^ mp.agblklog < mp.agcount ∧ 0 < mp.logblocks ∧
    agHdrBlock mp ≤ mp.logstart % 2 ^ mp.agblklog ∧
    mp.logstart % 2 ^ mp.agblklog + mp.logblocks ≤ agSize mp (mp.logstart / 2 ^ mp.agblklog)
  rtg : mp.hasRtgroups = true → 0 < mp.rextsize ∧ ∀ rgno < mp.rgcount,
    0 < rtgroupExtents mp rgno ∧ rtgroupExtents mp rgno * mp.rextsize < 2 ^ 32

/-- A range that is not empty and lies inside one run, below the end of the group. -/
def BlockCall.Fits (f : BlockStates) : BlockCall → Prop
  | .set g offset blen state _ =>
    InGroups mp g ∧ 1 ≤ blen ∧ offset + blen ≤ groupSize mp g ∧
      (∀ i j, offset ≤ i → i < offset + blen → offset ≤ j → j < offset + blen →
        f g i = f g j) ∧
      ¬ (state = endState mp g ∧ offset + blen = groupSize mp g)
  | .get _ _ _ _ => True

/-- Each call fits the states that the calls before it have left. -/
def CallsFit : BlockStates → List BlockCall → Prop
  | _, [] => True
  | f, call :: calls => call.Fits mp f ∧ CallsFit (call.onStates f) calls

end

/-- The map of a group is right. -/
structure GroupHolds (mp : BlockGeometry) (g : BlockGroup) (bmap : BlockMap)
    (f : Nat → BlockState) : Prop where
  steps : Steps bmap.items f
  pos : 0 < groupSize mp g
  size_lt : groupSize mp g < 2 ^ 32
  beyond : ∀ b, groupSize mp g ≤ b → f b = endState mp g
  last : f (groupSize mp g - 1) ≠ endState mp g

variable {mp : BlockGeometry} {g : BlockGroup} {bmap : BlockMap} {f : Nat → BlockState}
  {offset blen b maxbno stale rgno agno : Nat} {new : BlockState} {bmaps : BlockMaps}

theorem GroupHolds.more (h : GroupHolds mp g bmap f) (hb : b < groupSize mp g) :
    ∃ j, b < j ∧ f j ≠ f b := by
  by_cases heq : f b = endState mp g
  · refine ⟨groupSize mp g - 1, ?_, by rw [heq]; exact h.last⟩
    rcases lt_or_ge b (groupSize mp g - 1) with hlt | hge
    · exact hlt
    · have : b = groupSize mp g - 1 := by omega
      exact absurd (this ▸ heq) h.last
  · exact ⟨groupSize mp g, hb, by rw [h.beyond _ le_rfl]; exact fun he => heq he.symm⟩

theorem GroupHolds.set (h : GroupHolds mp g bmap f) (hlen : 1 ≤ blen)
    (hend : offset + blen ≤ groupSize mp g)
    (hsame : ∀ i, offset ≤ i → i < offset + blen → f i = f offset)
    (hlast : ¬ (new = endState mp g ∧ offset + blen = groupSize mp g)) :
    GroupHolds mp g (setBmapExt stale bmap offset blen new)
      (assign f offset (offset + blen) new) := by
  have hsize := h.size_lt
  obtain ⟨j, hj, hmore⟩ := h.more (show offset < groupSize mp g by omega)
  refine ⟨setBmapExt_steps h.steps (by omega) (by omega) hsame hj hmore, h.pos, hsize,
    fun b hb => ?_, ?_⟩
  · rw [assign_outside (by omega)]
    exact h.beyond b hb
  · by_cases hin : groupSize mp g - 1 < offset + blen
    · rw [assign_inside (by omega) hin]
      exact fun heq => hlast ⟨heq, by omega⟩
    · rw [assign_outside (by omega)]
      exact h.last

theorem GroupHolds.get {wantLen : Bool} (h : GroupHolds mp g bmap f) :
    GroupHolds mp g (getBmapExt bmap b maxbno wantLen).1 f :=
  ⟨by rw [getBmapExt_items]; exact h.steps, h.pos, h.size_lt, h.beyond, h.last⟩

theorem blockStep_holds {f : BlockStates} {call : BlockCall}
    (h : ∀ g, InGroups mp g → GroupHolds mp g (bmaps g) (f g)) (hcall : call.Fits mp f) :
    ∀ g, InGroups mp g → GroupHolds mp g (blockStep bmaps call g) (call.onStates f g) := by
  intro g hg
  cases call with
  | set g' offset blen state stale =>
    obtain ⟨-, hlen, hend, hsame, hlast⟩ := hcall
    by_cases heq : g = g'
    · subst heq
      rw [blockStep, BlockCall.onStates, update_self, update_self]
      exact (h g hg).set hlen hend (fun i h1 h2 => hsame i offset h1 h2 le_rfl (by omega)) hlast
    · rw [blockStep, BlockCall.onStates, update_of_ne heq, update_of_ne heq]
      exact h g hg
  | get g' agbno maxbno wantLen =>
    by_cases heq : g = g'
    · subst heq
      rw [blockStep, update_self]
      exact (h g hg).get
    · rw [blockStep, update_of_ne heq]
      exact h g hg

theorem blockRun_holds {f : BlockStates} {calls : List BlockCall}
    (h : ∀ g, InGroups mp g → GroupHolds mp g (bmaps g) (f g)) (hcalls : CallsFit mp f calls) :
    ∀ g, InGroups mp g → GroupHolds mp g (calls.foldl blockStep bmaps g)
      (calls.foldl BlockCall.onStates f g) := by
  induction calls generalizing bmaps f with
  | nil => exact h
  | cons call calls ih => exact ih (blockStep_holds h hcalls.1) hcalls.2

theorem items_insert_end {l : List (Nat × BlockState)} {m : KeyMap BlockState} {k : Nat}
    {s : BlockState} (hm : m.items = l) (hs : Sorted l) (hk : ∀ x ∈ l, x.1 < k) :
    (m.insert k s).1.items = l ++ [(k, s)] := by
  subst hm
  rw [KeyMap.items_insert hs fun x hx => (hk x hx).ne, SortedMap.insert,
    filter_eq_self.mpr fun x hx => decide_eq_true (hk x hx),
    filter_eq_nil_iff.mpr fun x hx => by simpa using (hk x hx).le]

theorem agHdrBlock_pos (hmp : mp.Valid) : 0 < agHdrBlock mp :=
  Nat.div_pos (by have := hmp.sectsize_pos; omega) hmp.blocksize_pos

theorem endState_ag : endState mp ⟨agno, false⟩ = .badState := rfl

def agStates (mp : BlockGeometry) (agno : Nat) : Nat → BlockState :=
  assign (assign (fun _ => .badState) 0 (agSize mp agno) .unknown) 0 (agHdrBlock mp) .inuseFs

theorem agStates_hdr (hb : b < agHdrBlock mp) : agStates mp agno b = .inuseFs :=
  assign_inside (Nat.zero_le b) hb

theorem agStates_rest (h1 : agHdrBlock mp ≤ b) (h2 : b < agSize mp agno) :
    agStates mp agno b = .unknown := by
  rw [agStates, assign_outside (by omega), assign_inside (Nat.zero_le b) h2]

theorem agStates_end (h1 : agHdrBlock mp ≤ b) (h2 : agSize mp agno ≤ b) :
    agStates mp agno b = .badState := by
  rw [agStates, assign_outside (by omega), assign_outside (by omega)]

theorem resetAgBmap_holds (hmp : mp.Valid) (hag : agno < mp.agcount) :
    GroupHolds mp ⟨agno, false⟩ (resetAgBmap mp agno) (agStates mp agno) := by
  have h0 := agHdrBlock_pos hmp
  obtain ⟨h1, h2⟩ := hmp.agSize_lt agno hag
  have hitems : (resetAgBmap mp agno).items =
      [(0, .inuseFs), (agHdrBlock mp, .unknown), (agSize mp agno, .badState)] := by
    have hfirst : (KeyMap.empty.insert 0 BlockState.inuseFs).1.items = [(0, .inuseFs)] := rfl
    have hsecond := items_insert_end (s := .unknown) hfirst
      (pairwise_singleton _ _) (by simpa using h0)
    exact items_insert_end hsecond (by simpa [Sorted] using h0) (by simp; omega)
  refine ⟨?_, show 0 < agSize mp agno by omega, h2, fun b hb => ?_, ?_⟩
  · rw [hitems]
    exact steps_three h0 h1 (by decide) (by decide)
  · have hb' : agSize mp agno ≤ b := hb
    exact agStates_end (by omega) hb'
  · show agStates mp agno (agSize mp agno - 1) ≠ BlockState.badState
    rw [agStates_rest (by omega) (by omega)]
    decide

theorem insert_zero_items (s : BlockState) : (KeyMap.empty.insert 0 s).1.items = [(0, s)] := rfl

theorem resetRtgBmap_steps_rtsb (hsb : mp.hasRtsb) (hext : 0 < mp.rextsize)
    (h1 : 0 < rtgroupExtents mp 0) :
    Steps (resetRtgBmap mp 0).items (resetStates mp ⟨0, true⟩) := by
  have htwo := items_insert_end (s := .free) (insert_zero_items .inuseFs)
    (pairwise_singleton _ _) (by simpa using hext)
  rw [resetRtgBmap, if_pos ⟨rfl, hsb⟩]
  rcases Nat.eq_or_lt_of_le h1 with hone | hmore
  · -- the end of the group is the end of the superblock
    have hitems : (((KeyMap.empty.insert 0 BlockState.inuseFs).1.insert mp.rextsize .free).1.insert
        (rtgroupExtents mp 0 * mp.rextsize) .badState).1.items =
        [(0, .inuseFs), (mp.rextsize, .free)] := by
      have hmem : (mp.rextsize, BlockState.free) ∈
          ((KeyMap.empty.insert 0 BlockState.inuseFs).1.insert mp.rextsize .free).1.items := by
        rw [htwo]
        simp
      rw [← hone, Nat.one_mul, KeyMap.insert,
        if_pos (KeyMap.search_cur_mem (by rw [htwo]; simpa [Sorted] using hext) hmem),
        KeyMap.items_search, htwo]
      rfl
    have hf : resetStates mp ⟨0, true⟩ = assign (fun _ => .free) 0 mp.rextsize .inuseFs := by
      funext b
      simp only [resetStates, groupSize, endState, assign, ← hone, hsb]
      simp
    rw [hitems, hf]
    exact steps_two hext (by decide)
  · have hlt : mp.rextsize < rtgroupExtents mp 0 * mp.rextsize := by nlinarith
    rw [items_insert_end htwo (by simpa [Sorted] using hext) (by simp; omega)]
    have hf : resetStates mp ⟨0, true⟩ = assign (assign (fun _ => .badState) 0
        (rtgroupExtents mp 0 * mp.rextsize) .free) 0 mp.rextsize .inuseFs := by
      funext b
      have hne : rtgroupExtents mp 0 ≠ 1 := by omega
      by_cases h2 : rtgroupExtents mp 0 * mp.rextsize ≤ b
      · rw [assign_outside (by omega), assign_outside (by omega)]
        simp [resetStates, groupSize, endState, h2, hne]
      · by_cases h3 : b < mp.rextsize
        · rw [assign_inside (by omega) h3]
          simp [resetStates, groupSize, h2, h3, hsb]
        · rw [assign_outside (by omega), assign_inside (by omega) (by omega)]
          simp [resetStates, groupSize, h2, h3]
    rw [hf]
    exact steps_three hext hlt (by decide) (by decide)

theorem resetRtgBmap_steps (hsb : ¬ (rgno = 0 ∧ mp.hasRtsb))
    (h1 : 0 < rtgroupExtents mp rgno * mp.rextsize) :
    Steps (resetRtgBmap mp rgno).items (resetStates mp ⟨rgno, true⟩) := by
  rw [resetRtgBmap, if_neg hsb, items_insert_end (insert_zero_items .free)
    (pairwise_singleton _ _) (by simpa using h1)]
  have hf : resetStates mp ⟨rgno, true⟩ = assign (fun _ => .badState) 0
      (rtgroupExtents mp rgno * mp.rextsize) .free := by
    funext b
    by_cases h2 : rtgroupExtents mp rgno * mp.rextsize ≤ b
    · rw [assign_outside (by omega)]
      have hend : ¬ (rgno = 0 ∧ mp.hasRtsb ∧ rtgroupExtents mp 0 = 1) := fun h =>
        hsb ⟨h.1, h.2.1⟩
      simp [resetStates, groupSize, endState, h2, if_neg hend]
    · rw [assign_inside (by omega) (by omega)]
      have hfree : ¬ (rgno = 0 ∧ mp.hasRtsb ∧ b < mp.rextsize) := fun h =>
        hsb ⟨h.1, h.2.1⟩
      simp [resetStates, groupSize, if_neg h2, if_neg hfree]
  rw [hf]
  exact steps_two h1 (by decide)

theorem resetRtgBmap_holds (hmp : mp.Valid) (hrt : mp.hasRtgroups) (hrg : rgno < mp.rgcount) :
    GroupHolds mp ⟨rgno, true⟩ (resetRtgBmap mp rgno) (resetStates mp ⟨rgno, true⟩) := by
  obtain ⟨hext, hsizes⟩ := hmp.rtg hrt
  obtain ⟨h1, h2⟩ := hsizes rgno hrg
  have hpos : 0 < rtgroupExtents mp rgno * mp.rextsize := Nat.mul_pos h1 hext
  refine ⟨?_, hpos, h2, fun b hb => if_pos hb, ?_⟩
  · by_cases hsb : rgno = 0 ∧ mp.hasRtsb = true
    · obtain ⟨rfl, hsb⟩ := hsb
      exact resetRtgBmap_steps_rtsb hsb hext h1
    · exact resetRtgBmap_steps hsb hpos
  · have hin : ¬ rtgroupExtents mp rgno * mp.rextsize ≤
        rtgroupExtents mp rgno * mp.rextsize - 1 := by omega
    simp only [resetStates, groupSize, endState, if_true, if_neg hin, true_and]
    split_ifs with h3 h4 h4
    · decide
    · decide
    · obtain ⟨rfl, hsb, hone⟩ := h4
      rw [hone, one_mul] at h3
      exact absurd ⟨rfl, hsb, by omega⟩ h3
    · decide

theorem resetStates_false : resetStates mp ⟨agno, false⟩ b =
      if agSize mp agno ≤ b then .badState
      else if b < agHdrBlock mp ∨ InLog mp ⟨agno, false⟩ b then .inuseFs else .unknown := rfl

theorem resetStates_ag (hhdr : agHdrBlock mp ≤ agSize mp agno)
    (hlog : ¬ (mp.logstart ≠ 0 ∧ agno = mp.logstart / 2 ^ mp.agblklog)) :
    resetStates mp ⟨agno, false⟩ = agStates mp agno := by
  funext b
  have hout : ¬ InLog mp ⟨agno, false⟩ b := by
    rintro ⟨h1, h2, -⟩
    exact hlog ⟨h1, congrArg BlockGroup.gno h2⟩
  rw [resetStates_false]
  split_ifs with h1 h2
  · exact (agStates_end (by omega) h1).symm
  · exact (agStates_hdr (h2.resolve_right hout)).symm
  · exact (agStates_rest (by omega) (by omega)).symm

theorem resetStates_log (hstart : mp.logstart ≠ 0) (hagno : agno = mp.logstart / 2 ^ mp.agblklog)
    (hhdr : agHdrBlock mp ≤ mp.logstart % 2 ^ mp.agblklog)
    (hend : mp.logstart % 2 ^ mp.agblklog + mp.logblocks ≤ agSize mp agno) :
    resetStates mp ⟨agno, false⟩ = assign (agStates mp agno) (mp.logstart % 2 ^ mp.agblklog)
        (mp.logstart % 2 ^ mp.agblklog + mp.logblocks) .inuseFs := by
  funext b
  have hin : InLog mp ⟨agno, false⟩ b ↔ mp.logstart % 2 ^ mp.agblklog ≤ b ∧
      b < mp.logstart % 2 ^ mp.agblklog + mp.logblocks := by
    rw [InLog, ← hagno]
    simp [hstart]
  simp only [resetStates_false, hin]
  generalize mp.logstart % 2 ^ mp.agblklog = lo at *
  split_ifs with h1 h2
  · rw [assign_outside (by omega), agStates_end (by omega) h1]
  · rcases h2 with h2 | h2
    · rw [assign_outside (by omega), agStates_hdr h2]
    · rw [assign_inside h2.1 h2.2]
  · rw [assign_outside (by omega), agStates_rest (by omega) (by omega)]

theorem resetBmaps_ag (stale : Nat) (bmaps : BlockMaps) (hag : agno < mp.agcount) :
    resetBmaps stale mp bmaps ⟨agno, false⟩ =
      if mp.logstart ≠ 0 ∧ agno = mp.logstart / 2 ^ mp.agblklog then
        setBmapExt stale (resetAgBmap mp agno) (mp.logstart % 2 ^ mp.agblklog) mp.logblocks .inuseFs
      else resetAgBmap mp agno := by
  have hrt : ∀ m : BlockMaps, (if mp.hasRtgroups = true then fun g : BlockGroup =>
      if g.isrt ∧ g.gno < mp.rgcount then resetRtgBmap mp g.gno else m g else m)
        ⟨agno, false⟩ = m ⟨agno, false⟩ := by
    intro m
    cases mp.hasRtgroups <;> rfl
  rw [resetBmaps, hrt]
  by_cases hstart : mp.logstart ≠ 0
  · by_cases hgno : agno = mp.logstart / 2 ^ mp.agblklog
    · simp [hstart, ← hgno, hag]
    · simp [hstart, hgno, hag]
  · simp [hstart, hag]

theorem resetBmaps_holds (hmp : mp.Valid) (stale : Nat) (bmaps : BlockMaps) : ∀ g, InGroups mp g →
      GroupHolds mp g (resetBmaps stale mp bmaps g) (resetStates mp g) := by
  rintro ⟨gno, isrt⟩ hg
  cases isrt with
  | true =>
    obtain ⟨hrt, hlt⟩ := hg
    have heq : resetBmaps stale mp bmaps ⟨gno, true⟩ = resetRtgBmap mp gno := by
      simp [resetBmaps, hrt, hlt]
    rw [heq]
    exact resetRtgBmap_holds hmp hrt hlt
  | false =>
    have hlt : gno < mp.agcount := hg
    have hbase := resetAgBmap_holds hmp hlt
    obtain ⟨hhdr, -⟩ := hmp.agSize_lt gno hlt
    rw [resetBmaps_ag stale bmaps hlt]
    split_ifs with hlog
    · obtain ⟨hstart, hgno⟩ := hlog
      obtain ⟨-, hlen, hlo, hend⟩ := hmp.log hstart
      rw [← hgno] at hend
      rw [resetStates_log hstart hgno hlo hend]
      refine hbase.set hlen hend (fun i h1 h2 => ?_) fun hbad => ?_
      · generalize mp.logstart % 2 ^ mp.agblklog = lo at *
        rw [agStates_rest (by omega) (by omega), agStates_rest (by omega) (by omega)]
      · rw [endState_ag] at hbad
        exact absurd hbad.1 (by decide)
    · rw [resetStates_ag hhdr.le hlog]
      exact hbase

def statesAfter (mp : BlockGeometry) (calls : List BlockCall) : BlockStates :=
  calls.foldl BlockCall.onStates (resetStates mp)

def bmapsAfter (stale : Nat) (mp : BlockGeometry) (bmaps : BlockMaps) (calls : List BlockCall) :
    BlockMaps :=
  calls.foldl blockStep (resetBmaps stale mp bmaps)

/-- Every block has the state that it was set to last, up to the next change, and no two
consecutive keys have the same state. -/
theorem block_map_states (mp : BlockGeometry) (hmp : mp.Valid) (stale : Nat) (bmaps : BlockMaps)
    (calls : List BlockCall) (hcalls : CallsFit mp (resetStates mp) calls) (g : BlockGroup)
    (hg : InGroups mp g) :
    (∀ b maxbno, b < groupSize mp g → b ≤ maxbno → maxbno < 2 ^ 32 →
      ∃ n, NextChange (statesAfter mp calls g) b n ∧
        (getBmapExt (bmapsAfter stale mp bmaps calls g) b maxbno true).2 =
          some (statesAfter mp calls g b, some (min maxbno n - b))) ∧
      (bmapsAfter stale mp bmaps calls g).items.IsChain fun x y => x.2 ≠ y.2 := by
  have h := blockRun_holds (resetBmaps_holds hmp stale bmaps) hcalls g hg
  refine ⟨fun b maxbno hb hmax hmax32 => ?_, h.steps.isChain⟩
  obtain ⟨j, hj, hmore⟩ := h.more hb
  exact getBmapExt_steps h.steps hj hmore hmax hmax32

def sampleGeometry : BlockGeometry where
  sectsize := 512
  blocksize := 1024
  agblocks := 100
  agblklog := 7
  agcount := 2
  dblocks := 180
  logstart := 128 + 20
  logblocks := 10
  hasRtgroups := true
  hasRtsb := true
  rgcount := 1
  rgextents := 16
  rextents := 10
  rextsize := 4

theorem sampleGeometry_valid : sampleGeometry.Valid where
  sectsize_pos := by decide
  blocksize_pos := by decide
  agSize_lt := by decide
  log := by decide
  rtg := by decide

def sampleCalls : List BlockCall :=
  [.set ⟨1, false⟩ 17 3 .inuse 0, .get ⟨1, false⟩ 17 80 true, .set ⟨0, true⟩ 4 2 .inuse 0,
    .set ⟨1, false⟩ 18 2 .inuseFs 0]

theorem sampleCalls_fit : CallsFit sampleGeometry (resetStates sampleGeometry) sampleCalls := by
  refine ⟨⟨by decide, by decide, by decide, ?_, by decide⟩, trivial,
    ⟨⟨rfl, by decide⟩, by decide, by decide, ?_, by decide⟩,
    ⟨by decide, by decide, by decide, ?_, by decide⟩, trivial⟩
  all_goals
    intro i j h1 h2 h3 h4
    interval_cases i <;> interval_cases j <;> rfl

theorem block_map_states_sample :
    ∃ n, NextChange (statesAfter sampleGeometry sampleCalls ⟨1, false⟩) 19 n ∧
      (getBmapExt (bmapsAfter 0 sampleGeometry (fun _ => .empty) sampleCalls ⟨1, false⟩)
        19 80 true).2 =
      some (statesAfter sampleGeometry sampleCalls ⟨1, false⟩ 19, some (min 80 n - 19)) :=
  (block_map_states sampleGeometry sampleGeometry_valid 0 (fun _ => .empty) sampleCalls
    sampleCalls_fit ⟨1, false⟩ (by decide)).1 19 80 (by decide) (by decide) (by decide)

/-- The mark of the end of the group gets lost if the blocks before it are set to it. -/
theorem block_map_end_state_lost :
    (∀ i, 50 ≤ i → i < 50 + 50 → statesAfter sampleGeometry [] ⟨0, false⟩ i = .unknown) ∧
    groupSize sampleGeometry ⟨0, false⟩ = 50 + 50 ∧
    (getBmapExt (bmapsAfter 0 sampleGeometry (fun _ => .empty)
      [.set ⟨0, false⟩ 50 50 .badState 0] ⟨0, false⟩) 50 100 true).2 = none := by
  refine ⟨fun i h1 h2 => ?_, by decide, by decide⟩
  show resetStates sampleGeometry ⟨0, false⟩ i = .unknown
  rw [resetStates_ag (by decide) (by decide),
    agStates_rest (le_trans (by decide) h1) (lt_of_lt_of_le h2 (by decide))]

/-- A call for no blocks changes the state of the rest of the run. -/
theorem block_map_empty_call :
    statesAfter sampleGeometry [.set ⟨0, false⟩ 50 0 .inuse 0] ⟨0, false⟩ 60 = .unknown ∧
    (getBmapExt (bmapsAfter 0 sampleGeometry (fun _ => .empty)
      [.set ⟨0, false⟩ 50 0 .inuse 0] ⟨0, false⟩) 60 100 true).2 = some (.inuse, some 40) := by
  decide

end Xfs
