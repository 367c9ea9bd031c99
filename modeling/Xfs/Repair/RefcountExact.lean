import Xfs.Repair.RefcountSweep
import Xfs.Rmap.Exact

/-! `compute_refcounts` terminates, and its refcount records and reflink flags
are those of the sharing depth. -/
namespace Xfs

open List RecordCursor LevelRuns

variable {env : RefcountGenEnv} {recs S : List RmapIrec} {items₀ : List RefcountIrec}
  {flags₀ : ReflinkFlags} {out : RefcountGenOut} {bag : Rcbag} {n m cbno nbno p fuel s : Nat}
  {r : RmapIrec}

theorem Shareables.exists_nextEdge (hS : Shareables S) (hbag : bag.Holds (live S n))
    (hne : live S n ≠ []) (hf : S.length < fuel) :
    ∃ nbno, rcbagNextEdge fuel bag (pending S n).head? = .ok nbno ∧ NextEdge S n nbno := by
  have hmem : ∀ r ∈ live S n, r ∈ S ∧ r.startblock ≤ n ∧ n < r.startblock + r.blockcount :=
    fun r hr => mem_live.mp hr
  have hendEq : ∀ r ∈ live S n, r.nextBno = r.startblock + r.blockcount := fun r hr =>
    hS.nextBno_eq (hmem r hr).1
  have hlen : (live S n).length < fuel := (length_filter_le _ _).trans_lt hf
  obtain ⟨nbno, hrun, hends, hstart, hatt⟩ := rcbagNextEdge_spec hbag (pending S n).head? hne
    (fun r hr => (hendEq r hr).trans_lt (hS.bound r (hmem r hr).1)) hlen
  have hends' : ∀ r ∈ live S n, nbno ≤ r.startblock + r.blockcount := fun r hr =>
    (hends r hr).trans_eq (hendEq r hr)
  have hstarts : ∀ r ∈ pending S n, nbno ≤ r.startblock := by
    have hsorted := hS.pending_sorted n
    cases hP : pending S n with
    | nil => simp
    | cons r P =>
      rw [hP] at hstart hsorted
      have hr : nbno ≤ r.startblock := hstart r rfl
      intro s hs
      rcases mem_cons.mp hs with rfl | hs
      · exact hr
      · exact hr.trans ((pairwise_cons.mp hsorted).1 s hs)
  have hatt' : (∃ r ∈ live S n, r.startblock + r.blockcount = nbno) ∨
      ∃ r ∈ pending S n, r.startblock = nbno := by
    refine hatt.imp ?_ ?_
    · rintro ⟨r, hr, he⟩
      exact ⟨r, hr, (hendEq r hr).symm.trans he⟩
    · rintro ⟨r, hr, he⟩
      exact ⟨r, mem_of_mem_head? hr, he⟩
  refine ⟨nbno, hrun, ?_, ?_, hends', hstarts, hatt'⟩
  · rcases hatt' with ⟨r, hr, he⟩ | ⟨r, hr, he⟩
    · have := (hmem r hr).2.2
      omega
    · have := (mem_pending.mp hr).2
      omega
  · obtain ⟨r, hr⟩ := exists_mem_of_ne_nil _ hne
    exact (hends' r hr).trans_lt (hS.bound r (hmem r hr).1)

/-- The output when the sweep stands at `n` and the current refcount started
at `cbno`. -/
structure SweptTo (S : List RmapIrec) (items₀ : List RefcountIrec) (flags₀ : ReflinkFlags)
    (n cbno : Nat) (out : RefcountGenOut) : Prop where
  items : ∃ items, out.refcountItems = items₀ ++ items ∧ Emitted (depth S) cbno items
  marked : MarkedTo S flags₀ (n + 1) out.isRl

/-- From `cbno` on the depth has not changed. -/
structure Level (S : List RmapIrec) (cbno n : Nat) : Prop where
  le : cbno ≤ n
  fresh : Fresh (depth S) cbno
  const : ∀ b, cbno ≤ b → b ≤ n → depth S b = depth S n

theorem Level.before_edge (hL : Level S cbno n) (hE : NextEdge S n nbno) (b : Nat)
    (hb : cbno ≤ b) (hbn : b < nbno) : depth S b = depth S n := by
  by_cases hle : b ≤ n
  · exact hL.const b hb hle
  · rw [depth, hE.live_eq (by omega) hbn, depth]

theorem refcountEmitChanged_spec (hL : Level S cbno n) (hE : NextEdge S n nbno)
    {isRl : ReflinkFlags} (hout : SweptTo S items₀ flags₀ n cbno out)
    (hmark : MarkedTo S flags₀ (nbno + 1) isRl) :
    ∃ out' cbno', refcountEmitChanged { out with isRl := isRl } cbno nbno (depth S n)
        (depth S nbno) = (out', cbno') ∧
      SweptTo S items₀ flags₀ nbno cbno' out' ∧ Level S cbno' nbno := by
  obtain ⟨items, hitems, hem⟩ := hout.items
  have hlt := hE.lt
  have hle := hL.le
  by_cases hd : depth S nbno = depth S n
  · refine ⟨{ out with isRl := isRl }, cbno, by rw [refcountEmitChanged, if_neg (by simpa using hd)],
      ⟨⟨items, hitems, hem⟩, hmark⟩, by omega, hL.fresh, ?_⟩
    intro b hb hbn
    rcases Nat.lt_or_eq_of_le hbn with hbn | rfl
    · rw [hL.before_edge hE b hb hbn, hd]
    · rfl
  have hbound := hE.bound
  have hsub : sub32 nbno cbno = nbno - cbno := by
    unfold nullAgblock at hbound
    exact sub32_eq (by omega) (by omega)
  have hnew := hem.extend (by omega) hL.fresh (hL.before_edge hE) hd
  refine ⟨_, _, by rw [refcountEmitChanged, if_pos hd], ⟨⟨_, ?_, hnew⟩, ?_⟩, le_rfl, ?_, ?_⟩
  · rw [hsub]
    split
    · rw [refcountEmit, hitems, append_assoc]
    · rw [hitems, append_nil]
  · split <;> exact hmark
  · right
    rw [hL.before_edge hE (nbno - 1) (by omega) (by omega)]
    exact fun h => hd h.symm
  · intro b hb hbn
    rw [le_antisymm hbn hb]

/-- The bag holds the mappings over `n`, the cursor is before the first later one. -/
structure SweepState (env : RefcountGenEnv) (recs S : List RmapIrec) (n : Nat)
    (st : RefcountSweep) : Prop where
  recs_eq : st.cur.recs = recs
  started : 1 ≤ st.cur.ptr
  rest : shareableFrom env recs st.cur.ptr = pending S n
  rmap : st.rmap = (pending S n).head?
  bag : st.bag.Holds (live S n)

section

variable (hcheck : ∀ r ∈ recs, rmapCheckBtrec env.group r) (hS : Shareables S)
include hcheck hS

theorem refcountPushAndMark_spec {P rs : List RmapIrec} (hbag : bag.Holds rs)
    (hP : shareableFrom env recs p = P) (hrest' : pending P nbno = pending S nbno)
    (hsorted : P.Pairwise (fun r s => r.startblock ≤ s.startblock))
    (hstarts : ∀ r ∈ P, nbno ≤ r.startblock)
    (hperm : ((P.filter (startsAt nbno)).reverse ++ rs).Perm (live S nbno))
    (hlo : 1 ≤ p ∨ ∃ r ∈ P.head?, r.startblock = nbno) {flags : ReflinkFlags}
    (hmark' : MarkedTo S flags₀ nbno flags) (hlen : S.length ≤ recs.length)
    (hf : recs.length + P.length < fuel) :
    ∃ cur st flags', refcountWalkRmaps env fuel ⟨recs, p⟩ = .ok (cur, P.head?) ∧
      refcountPushAndMark env fuel nbno ⟨cur, bag, P.head?⟩ flags = .ok (st, flags') ∧
      SweepState env recs S nbno st ∧ MarkedTo S flags₀ (nbno + 1) flags' := by
  obtain ⟨cur, p', bag', hwalk, hpush, hrest, hbag', hp'⟩ :=
    refcountAdvance_spec nbno hcheck hbag hP hlo hf
  obtain ⟨htake, hdrop⟩ := takeWhile_startsAt hsorted hstarts
  rw [htake] at hbag'
  rw [hdrop, hrest'] at hpush hrest
  have hbag'' := hbag'.perm hperm
  have hlt : (live S nbno).length < fuel := by
    have := length_filter_le (RmapIrec.covers nbno) S
    unfold live
    omega
  obtain ⟨flags', hmark, hflags⟩ := markReflinkInodes_spec hbag'' flags hlt
    (fun r hr => hS.owner r (mem_live.mp hr).1)
  refine ⟨cur, ⟨⟨recs, p'⟩, bag', (pending S nbno).head?⟩, flags', hwalk, ?_,
    ⟨rfl, hp', hrest, rfl, hbag''⟩, hmark'.mark (List.Perm.refl _) hflags⟩
  rw [refcountPushAndMark, hpush]
  simp only [ok_bind, hmark, pure_eq_ok]

theorem refcountStackLoop_spec (hlen : S.length ≤ recs.length) {st : RefcountSweep}
    (hst : SweepState env recs S n st) (hne : live S n ≠ []) (hE : NextEdge S n nbno)
    (hL : Level S cbno n) (hout : SweptTo S items₀ flags₀ n cbno out)
    (hf : recs.length + (2 * (pending S n).length + (live S n).length) < fuel) :
    ∃ st' out' n', refcountStackLoop env fuel st cbno nbno (depth S n) out = .ok (st', out') ∧
      n < n' ∧ live S n' = [] ∧ SweepState env recs S n' st' ∧
      SweptTo S items₀ flags₀ n' n' out' := by
  induction fuel generalizing st n nbno cbno out with
  | zero => omega
  | succ fuel ih =>
    obtain ⟨⟨recs', p⟩, bag, rmap⟩ := st
    obtain ⟨hrecs, hp, hrest, hrmap, hbag⟩ := hst
    obtain rfl : recs' = recs := hrecs
    obtain rfl : rmap = (pending S n).head? := hrmap
    have hlt := hE.lt
    obtain ⟨bag₁, hremove, hbag₁⟩ := rcbagRemoveEndingAt_spec hbag
      (fun r hr => by have := hS.bound r (mem_live.mp hr).1; omega)
      (show (live S n).length < fuel + 1 by omega) nbno
    obtain ⟨cur, st', flags', hwalk, hpush, hst', hmark⟩ := refcountPushAndMark_spec hcheck hS
      hbag₁ hrest (pending_pending hlt.le)
      (hS.pending_sorted n) hE.starts (hE.live_perm hS) (.inl hp)
      (hout.marked.extend (fun b hb hbn => hE.live_eq hb hbn) hlt) hlen
      (show recs'.length + (pending S n).length < fuel + 1 by omega)
    obtain ⟨out', cbno', hemit, hout', hL'⟩ := refcountEmitChanged_spec hL hE hout hmark
    have hitems : ¬ bag.nrItems = 0 := by
      rw [hbag.nrItems]
      exact fun h0 => hne (length_eq_zero_iff.mp h0)
    have hitems' : st'.bag.nrItems = depth S nbno := hst'.bag.nrItems
    have hstep : refcountStackLoop env (fuel + 1) ⟨⟨recs', p⟩, bag, (pending S n).head?⟩
        cbno nbno (depth S n) out =
        if depth S nbno = 0 then .ok (st', out') else
        rcbagNextEdge (fuel + 1) st'.bag st'.rmap >>= fun next =>
          refcountStackLoop env fuel st' cbno' next (depth S nbno) out' := by
      simp [refcountStackLoop, hitems, hremove, hwalk, hpush, hitems', hemit]
    rw [hstep]
    by_cases hempty : live S nbno = []
    · have hzero : depth S nbno = 0 := by rw [depth, hempty, length_nil]
      obtain ⟨items, hitems, hem⟩ := hout'.items
      have hem' := hem.skip hL'.le fun b hb hbn => (hL'.const b hb hbn.le).trans hzero
      exact ⟨st', out', nbno, if_pos hzero, hlt, hempty, hst', ⟨items, hitems, hem'⟩, hout'.marked⟩
    have hzero : ¬ depth S nbno = 0 := fun h0 => hempty (length_eq_zero_iff.mp h0)
    obtain ⟨next, hnext, hE'⟩ := hS.exists_nextEdge hst'.bag hempty
      (show S.length < fuel + 1 by omega)
    have hmeasure := hE.measure_lt hS
    obtain ⟨st'', out'', n', hrun, hn', hrest⟩ := ih hst' hempty hE' hL' hout' (by omega)
    refine ⟨st'', out'', n', ?_, by omega, hrest⟩
    rw [if_neg hzero, hst'.rmap, hnext]
    exact hrun

end

/-- Every mapping that starts before `m` has ended before `m`. -/
def Idle (S : List RmapIrec) (m : Nat) : Prop :=
  ∀ r ∈ S, r.startblock < m → r.startblock + r.blockcount < m

/-- The mappings that start at `m` or later. -/
def waiting (S : List RmapIrec) (m : Nat) : List RmapIrec :=
  S.filter (fun r => decide (m ≤ r.startblock))

theorem mem_waiting : r ∈ waiting S m ↔ r ∈ S ∧ m ≤ r.startblock := by
  simp [waiting]

theorem idle_of_live_eq_nil (h : live S n = []) : Idle S (n + 1) := by
  intro r hr hlt
  by_contra hge
  have hmem : r ∈ live S n := mem_live.mpr ⟨hr, by omega, by omega⟩
  rw [h] at hmem
  simp at hmem

theorem Idle.live_eq_nil (hI : Idle S m) {b : Nat} (hs : ∀ r ∈ waiting S m, s ≤ r.startblock)
    (hmb : m ≤ b + 1) (hbs : b < s) : live S b = [] := by
  refine filter_eq_nil_iff.mpr fun r hr hc => ?_
  obtain ⟨h1, h2⟩ : r.startblock ≤ b ∧ b < r.startblock + r.blockcount := of_decide_eq_true hc
  by_cases hlt : r.startblock < m
  · have := hI r hr hlt
    omega
  · have := hs r (mem_waiting.mpr ⟨hr, by omega⟩)
    omega

theorem Idle.live_first (hI : Idle S m) (hS : Shareables S) (hms : m ≤ s)
    (hs : ∀ r ∈ waiting S m, s ≤ r.startblock) :
    (waiting S m).filter (startsAt s) = live S s := by
  rw [waiting, live, filter_filter]
  refine filter_congr fun r hr => ?_
  have hpos := hS.pos r hr
  have hend := hI r hr
  have hbeg := hs r
  rw [mem_waiting] at hbeg
  simp only [startsAt, RmapIrec.covers, ← Bool.decide_and, decide_eq_decide]
  constructor
  · omega
  · rintro ⟨h1, h2⟩
    by_cases hlt : r.startblock < m
    · omega
    · have := hbeg ⟨hr, by omega⟩
      omega

/-- The output once every mapping that starts before `m` is done. -/
structure DoneTo (S : List RmapIrec) (items₀ : List RefcountIrec) (flags₀ : ReflinkFlags)
    (m : Nat) (out : RefcountGenOut) : Prop where
  items : ∃ items, out.refcountItems = items₀ ++ items ∧ Emitted (depth S) m items
  marked : MarkedTo S flags₀ m out.isRl

theorem DoneTo.skip (h : DoneTo S items₀ flags₀ m out) (hI : Idle S m) (hms : m ≤ s)
    (hs : ∀ r ∈ waiting S m, s ≤ r.startblock) : DoneTo S items₀ flags₀ s out := by
  have hnone : ∀ b, m ≤ b → b < s → live S b = [] := fun b hb hbs =>
    hI.live_eq_nil hs (by omega) hbs
  obtain ⟨items, hitems, hem⟩ := h.items
  refine ⟨⟨items, hitems, hem.skip hms fun b hb hbs => ?_⟩, h.marked.skip hms hnone⟩
  rw [depth, hnone b hb hbs, length_nil]

theorem SweptTo.done (h : SweptTo S items₀ flags₀ n n out) (hn : live S n = []) :
    DoneTo S items₀ flags₀ (n + 1) out := by
  obtain ⟨items, hitems, hem⟩ := h.items
  refine ⟨⟨items, hitems, hem.skip (Nat.le_succ n) fun b hb hbn => ?_⟩, h.marked⟩
  rw [show b = n by omega, depth, hn, length_nil]

theorem refcountGenLoop_spec (hcheck : ∀ r ∈ recs, rmapCheckBtrec env.group r)
    (hS : Shareables S) (hlen : S.length ≤ recs.length) (hbag : bag.Holds [])
    (hP : shareableFrom env recs p = waiting S m) (hI : Idle S m)
    (hout : DoneTo S items₀ flags₀ m out)
    (hf : recs.length + 2 * (waiting S m).length < fuel) :
    ∃ out' c, refcountGenLoop env fuel ⟨recs, p⟩ bag out = .ok out' ∧
      DoneTo S items₀ flags₀ c out' ∧ ∀ b, c ≤ b → live S b = [] := by
  induction fuel generalizing p m bag out with
  | zero => omega
  | succ fuel ih =>
    by_cases hnil : waiting S m = []
    · have hnone : ∀ b, m ≤ b → live S b = [] := fun b hb =>
        hI.live_eq_nil (s := b + 1) (by simp [hnil]) (by omega) (by omega)
      refine ⟨out, m, ?_, hout, hnone⟩
      by_cases hmore : p < recs.length
      · obtain ⟨p', hwalk, -⟩ :=
          refcountWalkRmaps_spec hcheck p (show recs.length < fuel + 1 + p by omega) (by omega)
        rw [hP, hnil] at hwalk
        simp [refcountGenLoop, hmore, hwalk]
      · simp [refcountGenLoop, hmore]
    · obtain ⟨r, Q, hW⟩ := exists_cons_of_ne_nil hnil
      have hmore : p < recs.length := by
        by_contra hge
        rw [shareableFrom_of_length_le (by omega)] at hP
        exact hnil hP.symm
      have hsorted : (waiting S m).Pairwise (fun r s => r.startblock ≤ s.startblock) :=
        hS.sorted.sublist filter_sublist
      have hrW : r ∈ waiting S m := hW ▸ mem_cons_self
      obtain ⟨hrS, hmr⟩ := mem_waiting.mp hrW
      have hfirst : ∀ s ∈ waiting S m, r.startblock ≤ s.startblock := by
        rw [hW] at hsorted ⊢
        exact forall_mem_cons.mpr ⟨le_rfl, (pairwise_cons.mp hsorted).1⟩
      have hlive := hI.live_first hS hmr hfirst
      have hpend : pending (waiting S m) r.startblock = pending S r.startblock := by
        simp only [pending, waiting, filter_filter]
        refine filter_congr fun s _ => ?_
        rw [← Bool.decide_and, decide_eq_decide]
        omega
      have hout₁ := hout.skip hI hmr hfirst
      obtain ⟨cur, st, flags, hwalk, hpush, hst, hmark⟩ := refcountPushAndMark_spec hcheck hS
        hbag hP hpend hsorted hfirst (by simp [hlive, reverse_perm])
        (.inr ⟨r, by rw [hW]; rfl, rfl⟩) hout₁.marked hlen
        (show recs.length + (waiting S m).length < fuel + 1 by omega)
      have hne : live S r.startblock ≠ [] := ne_nil_of_mem
        (mem_live.mpr ⟨hrS, le_rfl, by have := hS.pos r hrS; omega⟩)
      obtain ⟨nbno, hnext, hE⟩ := hS.exists_nextEdge hst.bag hne (show S.length < fuel + 1 by omega)
      have hsplit := congrArg List.length
        (takeWhile_append_dropWhile (p := startsAt r.startblock) (l := waiting S m))
      obtain ⟨htake, hdrop⟩ := takeWhile_startsAt hsorted hfirst
      rw [htake, hdrop, hpend, hlive, length_append] at hsplit
      have hpos : 0 < (live S r.startblock).length := length_pos_iff.mpr hne
      have hlevel : Level S r.startblock r.startblock := by
        refine ⟨le_rfl, ?_, fun b hb hb' => by rw [le_antisymm hb' hb]⟩
        rcases Nat.eq_zero_or_pos r.startblock with h0 | h0
        · exact .inl h0
        · right
          rw [depth, hI.live_eq_nil hfirst (by omega) (by omega)]
          exact fun h => by
            rw [length_nil, depth] at h
            omega
      have hout₂ : SweptTo S items₀ flags₀ r.startblock r.startblock
          { out with isRl := flags } := ⟨hout₁.items, hmark⟩
      obtain ⟨⟨⟨recs', p'⟩, bag', rmap'⟩, out', n', hrun, hn', hend, hst', hout'⟩ :=
        refcountStackLoop_spec hcheck hS hlen hst hne hE hlevel hout₂
          (show recs.length + (2 * (pending S r.startblock).length +
            (live S r.startblock).length) < fuel + 1 by omega)
      obtain rfl : recs' = recs := hst'.recs_eq
      have hshrink : (waiting S (n' + 1)).length ≤ (pending S r.startblock).length := by
        change (pending S n').length ≤ _
        rw [← pending_pending hn'.le]
        exact length_filter_le _ _
      have hbag' : bag'.Holds [] := hend ▸ hst'.bag
      have hrest : shareableFrom env recs' p' = waiting S (n' + 1) := hst'.rest
      obtain ⟨out'', c, hloop, hdone⟩ := ih hbag' hrest (idle_of_live_eq_nil hend)
        (hout'.done hend) (by omega)
      refine ⟨out'', c, ?_, hdone⟩
      have hitems : st.bag.nrItems = depth S r.startblock := hst.bag.nrItems
      rw [hW, head?_cons] at hwalk hpush
      simp only [refcountGenLoop, hmore, not_true_eq_false, if_false, ok_bind, hwalk,
        hpush, hst.rmap, hnext, hitems, hrun]
      exact hloop

def sharers (env : RefcountGenEnv) (rmaps : List RmapIrec) (b : Nat) : List RmapIrec :=
  (rmaps.filter (rmapShareable env.isSbInum)).filter (RmapIrec.covers b)

def shareDepth (env : RefcountGenEnv) (rmaps : List RmapIrec) (b : Nat) : Nat :=
  (sharers env rmaps b).length

theorem rmapCheckBtrec_owner_ne_zero {g : RmapGroup} (hino : g.verifyIno 0 = false)
    (hcheck : rmapCheckBtrec g r) : r.owner ≠ 0 := by
  intro h0
  have hnon : rmapNonInodeOwner r.owner = false := by
    rw [h0]
    decide
  unfold rmapCheckBtrec at hcheck
  split at hcheck
  · rw [rtrmapCheckIrec, hnon, rtrmapCheckInodeIrec, h0, hino] at hcheck
    simp at hcheck
  · have hown : ¬ (g.verifyIno r.owner ∨ r.owner ≤ rmapOwnFs ∧ rmapOwnMin ≤ r.owner) := by
      rw [h0, hino]
      decide
    simp only [rmapCheckIrec, if_pos hown] at hcheck
    split_ifs at hcheck

theorem shareables_filter {rmaps : List RmapIrec}
    (hsorted : rmaps.Pairwise (fun r s => r.startblock ≤ s.startblock))
    (hcheck : ∀ r ∈ rmaps, rmapCheckBtrec env.group r)
    (hino : env.group.verifyIno 0 = false) :
    Shareables (rmaps.filter (rmapShareable env.isSbInum)) := by
  have hmem : ∀ r ∈ rmaps.filter (rmapShareable env.isSbInum),
      rmapCheckBtrec env.group r := fun r hr => hcheck r (mem_filter.mp hr).1
  refine ⟨hsorted.sublist filter_sublist,
    fun r hr => (rmapCheckBtrec_bounds (hmem r hr)).1, fun r hr => ?_,
    fun r hr => rmapCheckBtrec_owner_ne_zero hino (hmem r hr)⟩
  have := (rmapCheckBtrec_bounds (hmem r hr)).2.1
  unfold nullAgblock
  omega

/-- For any list of reverse mappings in block order, `compute_refcounts` runs to
its end. It appends, in block order, one record for each maximal run of blocks
with the same number of shareable mappings, two or more, and it sets the reflink
flag of exactly the inodes with a shareable mapping over such a block. -/
theorem computeRefcounts_exact (env : RefcountGenEnv) (rmaps : List RmapIrec)
    (out : RefcountGenOut) (fuel : Nat)
    (hsorted : rmaps.Pairwise (fun r s => r.startblock ≤ s.startblock))
    (hcheck : ∀ r ∈ rmaps, rmapCheckBtrec env.group r = true)
    (hino : env.group.verifyIno 0 = false) (hf : 3 * rmaps.length < fuel) :
    ∃ out' items, computeRefcounts env fuel true (some rmaps) out = .ok out' ∧
      out'.refcountItems = out.refcountItems ++ items ∧
      items.Pairwise (fun x y => x.startblock + x.blockcount ≤ y.startblock) ∧
      (∀ x, x ∈ items ↔ ∃ s len, IsRun (shareDepth env rmaps) s len ∧ 2 ≤ shareDepth env rmaps s ∧
        x = ⟨s, len, min (shareDepth env rmaps s) refcRefcountMax, .shared⟩) ∧
      ∀ ino, out'.isRl ino = true ↔ out.isRl ino = true ∨
        ∃ r ∈ rmaps, rmapShareable env.isSbInum r = true ∧ r.owner = ino ∧
          ∃ b, r.covers b = true ∧ 2 ≤ shareDepth env rmaps b := by
  set S := rmaps.filter (rmapShareable env.isSbInum)
  have hS : Shareables S := shareables_filter hsorted hcheck hino
  have hwait : waiting S 0 = S := filter_eq_self.mpr (by simp)
  have hlen : S.length ≤ rmaps.length := length_filter_le _ _
  have hstart : DoneTo S out.refcountItems out.isRl 0 out :=
    ⟨⟨[], by simp, emitted_zero _⟩, by simp [MarkedTo]⟩
  obtain ⟨out', c, hrun, ⟨⟨items, hitems, hem⟩, hmark⟩, hend⟩ := refcountGenLoop_spec hcheck hS
    hlen Rcbag.holds_nil (show shareableFrom env rmaps 0 = waiting S 0 by
      rw [hwait, shareableFrom, drop_zero]) (fun r _ hlt => by omega) hstart
    (show rmaps.length + 2 * (waiting S 0).length < fuel by rw [hwait]; omega)
  have hzero : ∀ b, c ≤ b → depth S b = 0 := fun b hb => by rw [depth, hend b hb, length_nil]
  refine ⟨out', items, by simpa [computeRefcounts, gotoLeftEdge] using hrun, hitems, hem.increasing,
    fun x => ?_, fun ino => ?_⟩
  · rw [hem.mem_iff x]
    constructor
    · rintro ⟨s, len, hr, -, h2, hx⟩
      exact ⟨s, len, hr, h2, hx⟩
    · rintro ⟨s, len, hr, h2, hx⟩
      refine ⟨s, len, hr, ?_, h2, hx⟩
      -- the last block of a shared run is covered, so it lies before the end
      have hpos := hr.pos
      by_contra hgt
      have h0 := hzero (s + len - 1) (by omega)
      have hc : depth S (s + len - 1) = depth S s := hr.const _ (by omega) (by omega)
      have h2' : 2 ≤ depth S s := h2
      omega
  · rw [hmark ino]
    refine or_congr Iff.rfl ⟨?_, ?_⟩
    · rintro ⟨b, -, h2, r, hr, ho⟩
      obtain ⟨hr, hc⟩ := mem_filter.mp hr
      obtain ⟨hr, hs⟩ := mem_filter.mp hr
      exact ⟨r, hr, hs, ho, b, hc, h2⟩
    · rintro ⟨r, hr, hs, ho, b, hc, h2⟩
      have hmem : r ∈ live S b := mem_filter.mpr ⟨mem_filter.mpr ⟨hr, hs⟩, hc⟩
      refine ⟨b, ?_, h2, r, hmem, ho⟩
      by_contra hge
      rw [hend b (by omega)] at hmem
      simp at hmem

def sampleRefcountEnv : RefcountGenEnv := ⟨sampleRmapGroup, fun ino => decide (ino = 129)⟩

def sampleObservations : List RmapIrec :=
  [⟨0, 4, rmapOwnFs, 0, dataFlags false⟩, ⟨8, 6, 131, 0, dataFlags false⟩,
    ⟨8, 6, 131, 20, dataFlags false⟩, ⟨9, 2, 129, 0, dataFlags false⟩,
    ⟨10, 4, 132, 0, dataFlags false⟩, ⟨14, 2, 133, 0, dataFlags true⟩]

theorem computeRefcounts_exact_sample :
    ∃ out' items, computeRefcounts sampleRefcountEnv 20 true (some sampleObservations)
        ⟨[], fun _ => false⟩ = .ok out' ∧
      out'.refcountItems = [] ++ items ∧
      items.Pairwise (fun x y => x.startblock + x.blockcount ≤ y.startblock) ∧
      (∀ x, x ∈ items ↔ ∃ s len, IsRun (shareDepth sampleRefcountEnv sampleObservations) s len ∧
        2 ≤ shareDepth sampleRefcountEnv sampleObservations s ∧
        x = ⟨s, len, min (shareDepth sampleRefcountEnv sampleObservations s) refcRefcountMax,
          .shared⟩) ∧
      ∀ ino, out'.isRl ino = true ↔ false = true ∨
        ∃ r ∈ sampleObservations, rmapShareable sampleRefcountEnv.isSbInum r = true ∧
          r.owner = ino ∧
          ∃ b, r.covers b = true ∧ 2 ≤ shareDepth sampleRefcountEnv sampleObservations b :=
  computeRefcounts_exact sampleRefcountEnv sampleObservations ⟨[], fun _ => false⟩ 20
    (by decide) (by decide) (by decide) (by decide)

end Xfs
