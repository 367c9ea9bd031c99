import Mathlib.Data.List.Infix
import Mathlib.Data.List.Nodup
import Mathlib.Logic.Function.Basic
import Xfs.Attr.ShortFormBytes

/-! Runs of attribute changes that stay in short form. Entries, header, verifier and forks agree
exactly as long as every step meets one condition. -/
namespace Xfs

open Option Function List Option List AttrEntry

section Bytesfit

variable {ip : AttrInode} {bytes dsize offset : Nat}

theorem bytesfitMove_eq_min {mp : AttrMount} (h : bytesfitMove mp dsize offset ≠ 0) :
    bytesfitMove mp dsize offset = min offset (maxForkoff mp) := by
  unfold bytesfitMove at h ⊢
  split_ifs at h ⊢ <;> omega

/-- Formats whose data fork lets the fork offset move. -/
def DataFork.movable : DataFork → Bool
  | .dev => false
  | .btree _ _ => false
  | _ => true

theorem attrShortformBytesfit_cases (hoff : ip.forkoff ≠ 0)
    (h : attrShortformBytesfit ip bytes ≠ 0) :
    (ip.df = .dev ∧ attrShortformBytesfit ip bytes = 1 ∧ bytes + 8 ≤ ip.mount.litino) ∨
      (attrShortformBytesfit ip bytes = ip.forkoff ∧ (bytes ≤ inodeAttrForkSize ip ∨
        ip.df.movable = false ∧ bytes + ip.forkoff * 8 ≤ ip.mount.litino)) ∨
      (ip.df.movable ∧ inodeAttrForkSize ip < bytes ∧ bytes ≤ ip.mount.litino ∧
        attrShortformBytesfit ip bytes =
          min ((ip.mount.litino - bytes) / 8) (maxForkoff ip.mount)) := by
  by_cases hlit : ip.mount.litino < bytes
  · exact absurd (if_pos hlit) h
  by_cases hdev : ip.df = .dev
  · simp only [attrShortformBytesfit, if_neg hlit, hdev, if_true] at h ⊢
    left
    split_ifs at h ⊢ with hle
    · have h1 : roundup8 4 = 1 := rfl
      exact ⟨trivial, h1, by omega⟩
    · exact absurd rfl h
  by_cases hfit : bytes ≤ inodeAttrForkSize ip
  · right; left
    simp only [attrShortformBytesfit, if_neg hlit, if_neg hdev, if_pos hfit]
    exact ⟨trivial, .inl hfit⟩
  right
  simp only [attrShortformBytesfit, if_neg hlit, if_neg hdev, if_neg hfit] at h ⊢
  cases hdf : ip.df with
  | dev => exact absurd hdf hdev
  | btree numrecs nextents =>
    left
    simp only [hdf, if_pos hoff] at h ⊢
    split_ifs at h ⊢ with hlow
    · exact absurd rfl h
    · exact ⟨rfl, .inr ⟨rfl, by omega⟩⟩
  | loc n =>
    right
    simp only [hdf] at h ⊢
    exact ⟨rfl, by omega, by omega, bytesfitMove_eq_min h⟩
  | metaBtree n =>
    right
    simp only [hdf] at h ⊢
    exact ⟨rfl, by omega, by omega, bytesfitMove_eq_min h⟩
  | extents n =>
    right
    simp only [hdf] at h ⊢
    exact ⟨rfl, by omega, by omega, bytesfitMove_eq_min h⟩

theorem inodeAttrForkSize_eq (hoff : ip.forkoff ≠ 0) :
    inodeAttrForkSize ip = ip.mount.litino - ip.forkoff * 8 :=
  if_pos (pos_of_ne_zero hoff)

theorem attrShortformBytesfit_room (hoff : ip.forkoff ≠ 0)
    (hlit : ip.forkoff * 8 ≤ ip.mount.litino) (h : attrShortformBytesfit ip bytes ≠ 0) :
    bytes + attrShortformBytesfit ip bytes * 8 ≤ ip.mount.litino := by
  have hsize := inodeAttrForkSize_eq hoff
  rcases attrShortformBytesfit_cases hoff h with ⟨-, he, hle⟩ | ⟨he, hle | ⟨-, hle⟩⟩ | ⟨-, -, hle, he⟩
  all_goals omega

def GrowOk (ip : AttrInode) (bytes : Nat) : Prop :=
  ip.df.movable = true → bytes ≤ inodeAttrForkSize ip ∨
    ip.df.size ≤ min ((ip.mount.litino - bytes) / 8) (maxForkoff ip.mount) * 8

theorem attrShortformBytesfit_data_iff (hoff : ip.forkoff ≠ 0)
    (hdata : ip.df.size ≤ ip.forkoff * 8) (h : attrShortformBytesfit ip bytes ≠ 0) :
    ip.df.size ≤ attrShortformBytesfit ip bytes * 8 ↔ GrowOk ip bytes := by
  rcases attrShortformBytesfit_cases hoff h with ⟨hdev, he, -⟩ | ⟨he, hle⟩ | ⟨hmov, hgt, -, he⟩
  · simp [he, hdev, DataFork.size, GrowOk, DataFork.movable]
  · rw [he]
    refine ⟨fun _ hmov => ?_, fun _ => hdata⟩
    rcases hle with hle | ⟨hfix, -⟩
    · exact .inl hle
    · rw [hmov] at hfix
      cases hfix
  · rw [he, GrowOk]
    constructor
    · exact fun hfit _ => .inr hfit
    · exact fun hok => (hok hmov).resolve_left (by omega)

theorem attrShortformBytesfit_shrink (hoff : ip.forkoff ≠ 0) {old : Nat} (hle : bytes ≤ old)
    (hold : old + ip.forkoff * 8 ≤ ip.mount.litino) :
    attrShortformBytesfit ip bytes = if ip.df = .dev then 1 else ip.forkoff := by
  have hlit : ¬ ip.mount.litino < bytes := by omega
  have hfit : bytes ≤ inodeAttrForkSize ip := by
    rw [inodeAttrForkSize_eq hoff]
    omega
  simp only [attrShortformBytesfit, if_neg hlit, if_pos hfit]
  have hdev : roundup8 4 = 1 := rfl
  have hone : roundup8 4 ≤ (ip.mount.litino - bytes) / 8 := by omega
  rw [if_pos hone, hdev]

end Bytesfit

/-- A change of the attributes. Additions run with `XFS_DA_OP_ADDNAME` set. -/
inductive SfOp where
  | add (args : DaArgs)
  | remove (args : DaArgs)
deriving Repr, DecidableEq

def DaArgs.forAdd (args : DaArgs) : DaArgs :=
  { args with opFlags := { args.opFlags with addname := true } }

/-- One change. There is no result when the list leaves the short form. -/
def sfStep (op : SfOp) (ip : AttrInode) : Option AttrInode :=
  match ip.af with
  | none => none
  | some sf =>
    match op with
    | .add args => (attrShortformAddname args.forAdd ip sf).toOption
    | .remove args =>
      match attrSfRemovename args ip sf with
      | .error _ => some ip
      | .ok ip' => if ip'.af.isSome then some ip' else none

def sfRun (ip : AttrInode) : List SfOp → Option AttrInode
  | [] => some ip
  | op :: ops => sfStep op ip >>= fun ip' => sfRun ip' ops

abbrev AttrKey := AttrNamespace × Bytes × Option Bytes

/-- The attributes by what identifies them. -/
abbrev AttrMap := AttrKey → Option Bytes

def attrMapStep (m : AttrMap) : SfOp → AttrMap
  | .add args => Function.update m args.entry.key (some args.value)
  | .remove args => Function.update m args.entry.key none

def attrMapAfter (ops : List SfOp) : AttrMap := ops.foldl attrMapStep (fun _ => none)

def attrsStep (es : List AttrEntry) : SfOp → List AttrEntry
  | .add args => es.filter (fun e => decide (e.key ≠ args.entry.key)) ++ [args.entry]
  | .remove args => es.filter (fun e => decide (e.key ≠ args.entry.key))

def attrsAfter (ops : List SfOp) : List AttrEntry := ops.foldl attrsStep []

def Represents (es : List AttrEntry) (m : AttrMap) : Prop :=
  ∀ k v, m k = some v ↔ ∃ e ∈ es, e.key = k ∧ e.value = v

structure SfSetUp (ip : AttrInode) : Prop where
  inodesize : 256 ≤ ip.mount.inodesize ∧ ip.mount.inodesize ≤ 2048
  forkoff : ip.forkoff ≠ 0
  data : ip.df.size ≤ ip.forkoff * 8
  empty : ip.af = some ⟨attrSfHdrSize, 0, []⟩
  room : attrSfHdrSize + ip.forkoff * 8 ≤ ip.mount.litino

/-- The fork is sound and has the attributes of the map, and the forks do not overlap. -/
def SfSound (m : AttrMap) (ip : AttrInode) : Prop :=
  ∃ sf es, ip.af = some sf ∧ attrShortformVerify sf sf.totsize = true ∧
    sf.totsize = sf.ifBytes ∧ sf.data = encodeAll es ∧ (∀ e ∈ es, e.Fits) ∧
    sf.count = es.length ∧ (es.map key).Nodup ∧ Represents es m ∧
    ip.df.size ≤ ip.forkoff * 8 ∧ sf.totsize ≤ ip.mount.litino - ip.forkoff * 8

def SfStepOk (ip : AttrInode) (es : List AttrEntry) : SfOp → Prop
  | .add args => (attrsStep es (.add args)).length ≤ 255 ∧ args.name ≠ [] ∧
      GrowOk ip (attrSfHdrSize + (encodeAll (attrsStep es (.add args))).length)
  | .remove _ => True

structure SfInv (ip : AttrInode) (es : List AttrEntry) : Prop where
  small : ip.mount.litino < 2 ^ 16
  forkoff : ip.forkoff ≠ 0
  fork : ∃ sf, ip.af = some sf ∧ sf.Holds es ∧
    sf.totsize + ip.forkoff * 8 ≤ ip.mount.litino

variable {ip ip' : AttrInode} {es pre post : List AttrEntry} {m : AttrMap} {args : DaArgs}
  {e : AttrEntry} {sf : AttrSf} {op : SfOp}

theorem filter_key_ne (hnd : ((pre ++ e :: post).map key).Nodup) :
    (pre ++ e :: post).filter (fun x => decide (x.key ≠ e.key)) = pre ++ post := by
  rw [map_append, map_cons, nodup_middle, nodup_cons] at hnd
  have hkeep : ∀ l : List AttrEntry, (∀ x ∈ l, x ∈ pre ++ post) →
      l.filter (fun x => decide (x.key ≠ e.key)) = l := by
    intro l hl
    refine filter_eq_self.mpr fun x hx => decide_eq_true fun hk => hnd.1 ?_
    rw [← map_append, ← hk]
    exact mem_map_of_mem (hl x hx)
  rw [filter_append, filter_cons_of_neg (by simp), hkeep pre (fun x hx => mem_append_left _ hx),
    hkeep post (fun x hx => mem_append_right _ hx)]

theorem filter_key_absent {k : AttrKey} (h : ∀ x ∈ es, x.key ≠ k) :
    es.filter (fun x => decide (x.key ≠ k)) = es :=
  filter_eq_self.mpr fun x hx => decide_eq_true (h x hx)

def AttrInode.shrunk (ip : AttrInode) (sf : AttrSf) : AttrInode :=
  { ip with forkoff := if ip.df = .dev then 1 else ip.forkoff, af := some sf }

theorem attrSfRemovename_found (hinv : SfInv ip es) (hsf : sf.Holds (pre ++ e :: post))
    (hroom : sf.totsize + ip.forkoff * 8 ≤ ip.mount.litino)
    (hfind : attrSfFindname args sf = some (encodeAll pre).length) :
    (attrSfRemovename args ip sf = .ok { ip with forkoff := 0, af := none } ∧
        args.opFlags.addname = false) ∨
      ∃ sf', attrSfRemovename args ip sf = .ok (ip.shrunk sf') ∧ sf'.Holds (pre ++ post) ∧
        SfInv (ip.shrunk sf') (pre ++ post) := by
  have hsmall := hinv.small
  have hbig : sf.totsize < 2 ^ 16 := by omega
  have hholds := hsf.remove hbig
  have hsize : attrSfEntsize sf.data (encodeAll pre).length = e.size := by
    rw [hsf.data, encodeAll_append, encodeAll_cons]
    exact attrSfEntsize_encode (hsf.fits e (by simp)) _ _
  have hle : e.size ≤ sf.totsize := by
    rw [hsf.totsize]
    simp only [encodeAll_append, encodeAll_cons, length_append, length_encode]
    omega
  have htot : (sf.totsize + 2 ^ 16 - e.size) % 2 ^ 16 ≤ sf.totsize := by omega
  simp only [attrSfRemovename, hfind, hsize]
  cases hdrop : attrSfForkUnused args ip ((sf.totsize + 2 ^ 16 - e.size) % 2 ^ 16) with
  | true =>
    left
    simp only [attrSfForkUnused, Bool.and_eq_true, Bool.not_eq_true', Bool.or_eq_false_iff] at hdrop
    exact ⟨rfl, hdrop.1.2.1⟩
  | false =>
    have hoff : ip.forkoff ≠ 0 := hinv.forkoff
    refine .inr ⟨_, ?_, hholds, hsmall, ?_, _, rfl, hholds, ?_⟩
    · rw [attrShortformBytesfit_shrink hoff htot hroom]
      rfl
    · change (if ip.df = .dev then 1 else ip.forkoff) ≠ 0
      split <;> omega
    · change (sf.totsize + 2 ^ 16 - e.size) % 2 ^ 16 +
        (if ip.df = .dev then 1 else ip.forkoff) * 8 ≤ ip.mount.litino
      split <;> omega

/-- Two states of an inode whose fork offset can differ for devices only. -/
structure SameForks (ip ip' : AttrInode) : Prop where
  mount : ip'.mount = ip.mount
  df : ip'.df = ip.df
  forkoff : ip.df ≠ .dev → ip'.forkoff = ip.forkoff

theorem SameForks.refl (ip : AttrInode) : SameForks ip ip := ⟨rfl, rfl, fun _ => rfl⟩

theorem SameForks.shrunk (ip : AttrInode) (sf : AttrSf) : SameForks ip (ip.shrunk sf) :=
  ⟨rfl, rfl, fun h => if_neg h⟩

theorem SameForks.growOk_iff (h : SameForks ip ip') (bytes : Nat) :
    GrowOk ip' bytes ↔ GrowOk ip bytes := by
  unfold GrowOk
  rw [h.mount, h.df]
  refine imp_congr_right fun hmov => ?_
  have hdev : ip.df ≠ .dev := by
    rintro hd
    rw [hd] at hmov
    cases hmov
  rw [inodeAttrForkSize, inodeAttrForkSize, h.forkoff hdev, h.mount]

theorem SameForks.data_le (h : SameForks ip ip') (hoff : ip'.forkoff ≠ 0)
    (hdata : ip.df.size ≤ ip.forkoff * 8) : ip'.df.size ≤ ip'.forkoff * 8 := by
  rw [h.df]
  by_cases hdev : ip.df = .dev
  · rw [hdev, DataFork.size]
    omega
  · rwa [h.forkoff hdev]

theorem attrSfReplace_spec (hinv : SfInv ip es) (haf : ip.af = some sf)
    (hadd : args.opFlags.addname) :
    ∃ ip₁ sf₁, (if (attrSfFindname args sf).isSome then attrSfRemovename args ip sf
        else pure ip) = .ok ip₁ ∧ ip₁.af = some sf₁ ∧
      sf₁.Holds (es.filter (fun e => decide (e.key ≠ args.entry.key))) ∧
      SfInv ip₁ (es.filter (fun e => decide (e.key ≠ args.entry.key))) ∧ SameForks ip ip₁ := by
  obtain ⟨sf', haf', hsf, hroom⟩ := hinv.fork
  obtain rfl : sf = sf' := some.inj (haf.symm.trans haf')
  rcases attrSfFindname_spec hsf args with ⟨hfind, hnew⟩ | ⟨pre, e, post, rfl, hk, hfind⟩
  · rw [hfind, filter_key_absent hnew]
    exact ⟨ip, sf, rfl, haf, hsf, hinv, SameForks.refl ip⟩
  · rw [hfind, ← hk, filter_key_ne hsf.nodup]
    rcases attrSfRemovename_found hinv hsf hroom hfind with ⟨-, hno⟩ | ⟨sf', hrun, hsf', hinv'⟩
    · rw [hadd] at hno
      cases hno
    · exact ⟨ip.shrunk sf', sf', hrun, rfl, hsf', hinv', SameForks.shrunk ip sf'⟩

theorem attrShortformAddname_spec (hinv : SfInv ip es) (haf : ip.af = some sf)
    (hadd : args.opFlags.addname) (h : attrShortformAddname args ip sf = .ok ip') :
    SfInv ip' (attrsStep es (.add args)) ∧
      (ip.df.size ≤ ip.forkoff * 8 → (ip'.df.size ≤ ip'.forkoff * 8 ↔
        GrowOk ip (attrSfHdrSize + (encodeAll (attrsStep es (.add args))).length))) := by
  obtain ⟨ip₁, sf₁, hrun, haf₁, hsf₁, hinv₁, hsame⟩ := attrSfReplace_spec hinv haf hadd
  obtain ⟨sf', haf', -, hroom₁⟩ := hinv₁.fork
  obtain rfl : sf₁ = sf' := some.inj (haf₁.symm.trans haf')
  rw [attrShortformAddname, hrun] at h
  simp only [ok_bind, haf₁] at h
  split_ifs at h with hlong hzero
  have hfit : args.entry.Fits := by
    obtain ⟨h1, h2⟩ := not_or.mp hlong
    exact ⟨not_le.mp h1, not_le.mp h2⟩
  rw [attrSfEntsizeByname_entry hfit] at h hzero
  have hbytes : sf₁.totsize + args.entry.size =
      attrSfHdrSize + (encodeAll (attrsStep es (.add args))).length := by
    rw [hsf₁.totsize, attrsStep]
    simp [add_assoc]
  have hlit : ip₁.forkoff * 8 ≤ ip₁.mount.litino := by omega
  have hroom := attrShortformBytesfit_room hinv₁.forkoff hlit hzero
  have hsmall := hinv₁.small
  obtain ⟨sf₂, hadd₂, hsf₂⟩ := hsf₁.add hfit
    (fun e he => of_decide_eq_true (mem_filter.mp he).2) (by omega) ip₁
    (attrShortformBytesfit ip₁ (sf₁.totsize + args.entry.size))
  rw [hadd₂] at h
  obtain rfl : _ = ip' := Except.ok.inj h
  have htot₂ : sf₂.totsize = sf₁.totsize + args.entry.size := by
    rw [hsf₂.totsize, hbytes, attrsStep]
  refine ⟨⟨hsmall, hzero, sf₂, rfl, hsf₂, ?_⟩, fun hdata => ?_⟩
  · rw [htot₂]
    exact hroom
  · have hgrow := attrShortformBytesfit_data_iff hinv₁.forkoff
      (hsame.data_le hinv₁.forkoff hdata) hzero
    rw [← hbytes, ← hsame.growOk_iff, ← hgrow]

theorem sfStep_spec (hinv : SfInv ip es) (h : sfStep op ip = some ip') :
    SfInv ip' (attrsStep es op) ∧ (ip.df.size ≤ ip.forkoff * 8 →
      (ip'.df.size ≤ ip'.forkoff * 8 ↔ ∀ args, op = .add args →
        GrowOk ip (attrSfHdrSize + (encodeAll (attrsStep es (.add args))).length))) := by
  obtain ⟨sf, haf, hsf, hroom⟩ := hinv.fork
  cases op with
  | add args =>
    have hrun : attrShortformAddname args.forAdd ip sf = .ok ip' := by
      simp only [sfStep, haf] at h
      cases hres : attrShortformAddname args.forAdd ip sf with
      | error e => simp [hres, Except.toOption] at h
      | ok ip₁ => simpa [hres, Except.toOption] using h
    obtain ⟨hinv', hdata⟩ := attrShortformAddname_spec hinv haf rfl hrun
    refine ⟨hinv', fun hd => (hdata hd).trans ⟨?_, fun hg => hg args rfl⟩⟩
    rintro hg args' he
    obtain rfl : args = args' := SfOp.add.inj he
    exact hg
  | remove args =>
    simp only [sfStep, haf] at h
    simp only [reduceCtorEq, false_implies, implies_true, iff_true]
    rcases attrSfFindname_spec hsf args with ⟨hfind, hnew⟩ | ⟨pre, e, post, rfl, hk, hfind⟩
    · have hsame : ip' = ip := by
        simp only [attrSfRemovename, hfind] at h
        by_cases hrec : args.opFlags.recovery = true <;> simp_all
      rw [hsame, attrsStep, filter_key_absent hnew]
      exact ⟨hinv, id⟩
    · rw [attrsStep, ← hk, filter_key_ne hsf.nodup]
      rcases attrSfRemovename_found hinv hsf hroom hfind with ⟨hrun, -⟩ | ⟨sf', hrun, -, hinv'⟩
      · simp [hrun] at h
      · obtain rfl : ip.shrunk sf' = ip' := by simpa [hrun, AttrInode.shrunk] using h
        exact ⟨hinv', (SameForks.shrunk ip sf').data_le hinv'.forkoff⟩

theorem Represents.step (h : Represents es m) (op : SfOp) :
    Represents (attrsStep es op) (attrMapStep m op) := by
  intro k v
  have hkeep : ∀ args : DaArgs, k ≠ args.entry.key →
      ((∃ e ∈ es.filter (fun e => decide (e.key ≠ args.entry.key)), e.key = k ∧ e.value = v) ↔
        ∃ e ∈ es, e.key = k ∧ e.value = v) := by
    intro args hk
    constructor
    · rintro ⟨e, he, hek⟩
      exact ⟨e, (mem_filter.mp he).1, hek⟩
    · rintro ⟨e, he, hek, hv⟩
      exact ⟨e, mem_filter.mpr ⟨he, decide_eq_true (hek ▸ hk)⟩, hek, hv⟩
  have hgone : ∀ args : DaArgs, k = args.entry.key →
      ¬ ∃ e ∈ es.filter (fun e => decide (e.key ≠ args.entry.key)), e.key = k ∧ e.value = v := by
    rintro args rfl ⟨e, he, hek, -⟩
    exact of_decide_eq_true (mem_filter.mp he).2 hek
  cases op with
  | add args =>
    simp only [attrMapStep, attrsStep, mem_append, mem_singleton, or_and_right,
      exists_or, exists_eq_left]
    by_cases hk : k = args.entry.key
    · have hv : args.entry.value = args.value := rfl
      have hnone := hgone args hk
      subst hk
      rw [update_self, some.injEq]
      simp only [hnone, false_or, true_and, hv]
    · rw [update_of_ne hk, h k v, hkeep args hk]
      simp only [Ne.symm hk, false_and, or_false]
  | remove args =>
    simp only [attrMapStep, attrsStep]
    by_cases hk : k = args.entry.key
    · have hnone := hgone args hk
      subst hk
      rw [update_self]
      simp only [hnone, reduceCtorEq]
    · rw [update_of_ne hk, h k v, hkeep args hk]

theorem sfSound_iff (hinv : SfInv ip es) (hrep : Represents es m) :
    SfSound m ip ↔ es.length ≤ 255 ∧ (∀ e ∈ es, e.name ≠ []) ∧ ip.df.size ≤ ip.forkoff * 8 := by
  obtain ⟨sf, haf, hsf, hroom⟩ := hinv.fork
  have hcount := hsf.count
  have hverify := attrShortformVerify_iff hsf
  rw [hsf.ifBytes_eq] at hverify
  constructor
  · rintro ⟨sf', -, haf', hv, -, -, -, -, -, -, hd, -⟩
    obtain rfl : sf = sf' := some.inj (haf.symm.trans haf')
    obtain ⟨hc, hn⟩ := hverify.mp hv
    exact ⟨by omega, hn, hd⟩
  · rintro ⟨hlen, hn, hd⟩
    have hc : sf.count = es.length := by omega
    exact ⟨sf, es, haf, hverify.mpr ⟨hc, hn⟩, hsf.ifBytes_eq.symm, hsf.data, hsf.fits, hc,
      hsf.nodup, hrep, hd, by omega⟩

theorem sfStep_sound_iff (hinv : SfInv ip es) (hrep : Represents es m) (hs : SfSound m ip)
    (h : sfStep op ip = some ip') : SfSound (attrMapStep m op) ip' ↔ SfStepOk ip es op := by
  obtain ⟨hinv', hdata⟩ := sfStep_spec hinv h
  obtain ⟨hlen, hnames, hd⟩ := (sfSound_iff hinv hrep).mp hs
  rw [sfSound_iff hinv' (hrep.step op), hdata hd]
  have hfilter : ∀ args : DaArgs,
      ∀ e ∈ es.filter (fun e => decide (e.key ≠ args.entry.key)), e.name ≠ [] :=
    fun args e he => hnames e (mem_filter.mp he).1
  cases op with
  | add args =>
    refine and_congr_right fun _ => and_congr ?_ ?_
    · simp only [attrsStep, mem_append, mem_singleton]
      constructor
      · exact fun hall => hall args.entry (.inr rfl)
      · rintro hname e (he | rfl)
        · exact hfilter args e he
        · exact hname
    · refine ⟨fun hg => hg args rfl, ?_⟩
      rintro hg args' he
      obtain rfl : args = args' := SfOp.add.inj he
      exact hg
  | remove args =>
    have hle : (attrsStep es (.remove args)).length ≤ es.length := length_filter_le _ _
    simp only [SfStepOk, iff_true]
    exact ⟨by omega, hfilter args, fun _ he => by cases he⟩

theorem sfRun_concat (ip : AttrInode) (ops : List SfOp) (op : SfOp) :
    sfRun ip (ops ++ [op]) = (sfRun ip ops).bind (sfStep op) := by
  induction ops generalizing ip with
  | nil =>
    simp only [nil_append, sfRun, bind_some]
    cases sfStep op ip <;> rfl
  | cons x ops ih =>
    simp only [cons_append, sfRun, bind_eq_bind, bind_assoc]
    congr 1
    funext ip'
    exact ih ip'

theorem attrsAfter_concat (ops : List SfOp) (op : SfOp) :
    attrsAfter (ops ++ [op]) = attrsStep (attrsAfter ops) op := by
  simp [attrsAfter]

theorem attrMapAfter_concat (ops : List SfOp) (op : SfOp) :
    attrMapAfter (ops ++ [op]) = attrMapStep (attrMapAfter ops) op := by
  simp [attrMapAfter]

theorem represents_after (ops : List SfOp) : Represents (attrsAfter ops) (attrMapAfter ops) := by
  induction ops using reverseRecOn with
  | nil => simp [attrsAfter, attrMapAfter, Represents]
  | append_singleton ops op ih =>
    rw [attrsAfter_concat, attrMapAfter_concat]
    exact ih.step op

variable {ip₀ : AttrInode} {ops : List SfOp}

theorem SfSetUp.inv (h : SfSetUp ip₀) : SfInv ip₀ [] := by
  have hsize := h.inodesize
  refine ⟨?_, h.forkoff, _, h.empty, ⟨rfl, rfl, rfl, by simp, by simp⟩, h.room⟩
  unfold AttrMount.litino
  omega

theorem sfRun_inv (h : SfSetUp ip₀) (hrun : sfRun ip₀ ops = some ip) :
    SfInv ip (attrsAfter ops) := by
  induction ops using reverseRecOn generalizing ip with
  | nil =>
    obtain rfl : ip₀ = ip := some.inj hrun
    exact h.inv
  | append_singleton ops op ih =>
    rw [sfRun_concat] at hrun
    obtain ⟨ip₁, hrun₁, hstep⟩ := bind_eq_some_iff.mp hrun
    rw [attrsAfter_concat]
    exact (sfStep_spec (ih hrun₁) hstep).1

/-- For any sequence of changes to an empty short-form list: the inode is sound
and has the attributes of the map after every part of the sequence that stays
in short form, exactly if each step of such a part meets the condition. -/
theorem attrSf_runs_sound_iff (ip₀ : AttrInode) (h : SfSetUp ip₀) (ops : List SfOp) :
    (∀ pre, pre <+: ops → ∀ ip, sfRun ip₀ pre = some ip → SfSound (attrMapAfter pre) ip) ↔
      ∀ pre op, pre ++ [op] <+: ops → ∀ ip, sfRun ip₀ pre = some ip →
        (sfStep op ip).isSome = true → SfStepOk ip (attrsAfter pre) op := by
  induction ops using reverseRecOn with
  | nil =>
    refine iff_of_true ?_ (by simp)
    intro pre hpre ip hrun
    obtain rfl := prefix_nil.mp hpre
    obtain rfl : ip₀ = ip := some.inj hrun
    rw [sfSound_iff h.inv (represents_after [])]
    exact ⟨by simp, by simp, h.data⟩
  | append_singleton ops op ih =>
    have hsplit : ∀ pre, pre <+: ops ++ [op] ↔ pre = ops ++ [op] ∨ pre <+: ops := fun pre =>
      prefix_concat_iff
    -- the last step, seen from a sound inode
    have hlast : (∀ ip, sfRun ip₀ ops = some ip → SfSound (attrMapAfter ops) ip) →
        ((∀ ip, sfRun ip₀ (ops ++ [op]) = some ip → SfSound (attrMapAfter (ops ++ [op])) ip) ↔
          ∀ ip, sfRun ip₀ ops = some ip → (sfStep op ip).isSome = true →
            SfStepOk ip (attrsAfter ops) op) := by
      intro hsound
      simp only [sfRun_concat, attrMapAfter_concat, bind_eq_some_iff]
      constructor
      · intro hall ip hrun hsome
        obtain ⟨ip', hstep⟩ := isSome_iff_exists.mp hsome
        exact (sfStep_sound_iff (sfRun_inv h hrun) (represents_after ops) (hsound ip hrun)
          hstep).mp (hall ip' ⟨ip, hrun, hstep⟩)
      · rintro hall ip' ⟨ip, hrun, hstep⟩
        exact (sfStep_sound_iff (sfRun_inv h hrun) (represents_after ops) (hsound ip hrun)
          hstep).mpr (hall ip hrun (isSome_iff_exists.mpr ⟨ip', hstep⟩))
    constructor
    · intro hall
      have hops := ih.mp fun pre hpre => hall pre ((hsplit pre).mpr (.inr hpre))
      have hop := (hlast (hall ops ((hsplit ops).mpr (.inr (prefix_refl ops))))).mp
        (hall _ (prefix_refl _))
      intro pre x hpre
      rcases (hsplit _).mp hpre with he | hpre
      · obtain ⟨rfl, hx⟩ := append_inj' he rfl
        obtain rfl : x = op := by simpa using hx
        exact hop
      · exact hops pre x hpre
    · intro hall
      have hops := ih.mpr fun pre x hpre => hall pre x ((hsplit _).mpr (.inr hpre))
      intro pre hpre
      rcases (hsplit _).mp hpre with rfl | hpre
      · exact (hlast (hops ops (prefix_refl ops))).mpr (hall ops op (prefix_refl _))
      · exact hops pre hpre

theorem sfStep_add_fits (haf : ip.af = some sf) (hsf : sf.Holds es) (hdev : ip.df ≠ .dev)
    (hoff : ip.forkoff ≠ 0) (hnew : ∀ e ∈ es, e.key ≠ args.entry.key) (hfit : args.entry.Fits)
    (hroom : sf.totsize + args.entry.size ≤ inodeAttrForkSize ip)
    (hsmall : ip.mount.litino < 2 ^ 16) :
    ∃ sf', sfStep (.add args) ip = some { ip with af := some sf' } ∧
      sf'.Holds (es ++ [args.entry]) := by
  have hsize := inodeAttrForkSize_eq hoff
  have hfind : attrSfFindname args.forAdd sf = none := by
    rcases attrSfFindname_spec hsf args.forAdd with ⟨hnone, -⟩ | ⟨pre, e, post, rfl, hk, -⟩
    · exact hnone
    · exact absurd hk (hnew e (by simp))
  have hkeep : attrShortformBytesfit ip (sf.totsize + args.entry.size) = ip.forkoff := by
    have hlit : ¬ ip.mount.litino < sf.totsize + args.entry.size := by omega
    simp [attrShortformBytesfit, if_neg hlit, if_neg hdev, if_pos hroom]
  obtain ⟨sf', hadd, hsf'⟩ := hsf.add (show args.forAdd.entry.Fits from hfit) hnew
    (show sf.totsize + args.entry.size < 2 ^ 16 by omega) ip ip.forkoff
  refine ⟨sf', ?_, hsf'⟩
  have hshort : ¬ (attrSfEntsizeMax ≤ args.forAdd.name.length ∨
      attrSfEntsizeMax ≤ args.forAdd.value.length) :=
    not_or.mpr ⟨not_le.mpr hfit.1, not_le.mpr hfit.2⟩
  have hbytes : attrSfEntsizeByname args.forAdd.name.length args.forAdd.value.length =
      args.entry.size := attrSfEntsizeByname_entry hfit
  simp [sfStep, haf, attrShortformAddname, hfind, if_neg hshort, hbytes, hkeep, if_neg hoff, hadd,
    Except.toOption]

def wideInode : AttrInode := ⟨⟨2048, true, false⟩, .extents 0, 24, some ⟨attrSfHdrSize, 0, []⟩⟩

def tinyAttr (i : Nat) : DaArgs :=
  ⟨if i % 2 = 0 then .user else .root, [UInt8.ofNat (1 + i / 2)], [], ⟨false, false, false⟩⟩

def tinyAttrs (n : Nat) : List SfOp := (range n).map (fun i => .add (tinyAttr i))

theorem wideInode_setUp : SfSetUp wideInode :=
  ⟨by decide, by decide, by decide, rfl, by decide⟩

theorem tinyAttr_key_inj {i j : Nat} (hi : i < 256) (hj : j < 256)
    (h : (tinyAttr i).entry.key = (tinyAttr j).entry.key) : i = j := by
  simp only [tinyAttr, DaArgs.entry, key, Prod.mk.injEq, cons.injEq, and_true] at h
  obtain ⟨hns, hname, -⟩ := h
  have hbyte := congrArg UInt8.toNat hname
  rw [UInt8.toNat_ofNat', UInt8.toNat_ofNat', Nat.mod_eq_of_lt (by omega),
    Nat.mod_eq_of_lt (by omega)] at hbyte
  split_ifs at hns <;> omega

theorem length_encodeAll_tiny (n : Nat) :
    (encodeAll ((range n).map fun i => (tinyAttr i).entry)).length = 4 * n := by
  induction n with
  | zero => rfl
  | succ n ih =>
    have hsize : (tinyAttr n).entry.size = 4 := rfl
    rw [range_succ, map_append, encodeAll_append, length_append, ih]
    simp [hsize]
    omega

theorem sfRun_tinyAttrs (n : Nat) (hn : n ≤ 256) :
    ∃ sf, sfRun wideInode (tinyAttrs n) = some { wideInode with af := some sf } ∧
      sf.Holds ((range n).map fun i => (tinyAttr i).entry) := by
  induction n with
  | zero => exact ⟨⟨attrSfHdrSize, 0, []⟩, rfl, rfl, rfl, rfl, by simp, by simp⟩
  | succ n ih =>
    obtain ⟨sf, hrun, hsf⟩ := ih (by omega)
    have htot : sf.totsize = 4 + 4 * n := by
      rw [hsf.totsize, length_encodeAll_tiny]
      rfl
    have hfork : inodeAttrForkSize { wideInode with af := some sf } = 1680 := by
      simp [inodeAttrForkSize, wideInode, AttrMount.litino]
    have hsize : (tinyAttr n).entry.size = 4 := rfl
    have hnew : ∀ e ∈ (range n).map (fun i => (tinyAttr i).entry),
        e.key ≠ (tinyAttr n).entry.key := by
      intro e he hk
      obtain ⟨i, hi, rfl⟩ := mem_map.mp he
      have hi : i < n := mem_range.mp hi
      have := tinyAttr_key_inj (by omega) (by omega) hk
      omega
    have haf : ({ wideInode with af := some sf } : AttrInode).af = some sf := rfl
    obtain ⟨sf', hstep, hsf'⟩ := sfStep_add_fits haf hsf
      (show wideInode.df ≠ .dev by decide) (show wideInode.forkoff ≠ 0 by decide) hnew
      ⟨by simp [tinyAttr, DaArgs.entry], by simp [tinyAttr, DaArgs.entry]⟩ (by omega)
      (show wideInode.mount.litino < 2 ^ 16 by decide)
    refine ⟨sf', ?_, ?_⟩
    · rw [tinyAttrs, range_succ, map_append, map_singleton, sfRun_concat]
      rw [tinyAttrs] at hrun
      rw [hrun]
      exact hstep
    · rw [range_succ, map_append]
      exact hsf'

/-- With the 256th attribute the count in the header is back at zero, and the
verifier rejects the fork. -/
theorem wideInode_count_wraps :
    SfSetUp wideInode ∧ ∃ ip sf, sfRun wideInode (tinyAttrs 256) = some ip ∧ ip.af = some sf ∧
      sf.count = 0 ∧ sf.totsize = 1028 ∧ attrShortformVerify sf sf.totsize = false ∧
      ¬ SfSound (attrMapAfter (tinyAttrs 256)) ip := by
  obtain ⟨sf, hrun, hsf⟩ := sfRun_tinyAttrs 256 le_rfl
  have hcount : sf.count = 0 := by
    rw [hsf.count, length_map, length_range]
    rfl
  have hverify : attrShortformVerify sf sf.totsize = false := by
    rw [Bool.eq_false_iff, ← hsf.ifBytes_eq]
    intro hv
    have := ((attrShortformVerify_iff hsf).mp hv).1
    rw [hcount, length_map, length_range] at this
    omega
  refine ⟨wideInode_setUp, { wideInode with af := some sf }, sf, hrun, rfl, hcount, ?_, hverify, ?_⟩
  · rw [hsf.totsize, length_encodeAll_tiny]
    rfl
  · rintro ⟨sf', -, haf, hv, -⟩
    obtain rfl : sf = sf' := some.inj haf
    rw [hverify] at hv
    cases hv

theorem sfStepOk_tinyAttr {n i : Nat} (hn : n ≤ 256) (hrun : sfRun wideInode (tinyAttrs n) = some ip)
    (hlen : (attrsStep es (.add (tinyAttr i))).length ≤ 255)
    (hfit : attrSfHdrSize + (encodeAll (attrsStep es (.add (tinyAttr i)))).length ≤
      inodeAttrForkSize wideInode) : SfStepOk ip es (.add (tinyAttr i)) := by
  obtain ⟨sf, hrun', -⟩ := sfRun_tinyAttrs n hn
  obtain rfl := some.inj (hrun'.symm.trans hrun)
  exact ⟨hlen, cons_ne_nil _ _, fun _ => .inl hfit⟩

/-- The fork stays sound while three attributes are added and one is removed. -/
theorem attrSf_runs_sound_sample : SfSetUp wideInode ∧
    ∀ pre, pre <+: tinyAttrs 3 ++ [.remove (tinyAttr 1)] →
      ∀ ip, sfRun wideInode pre = some ip → SfSound (attrMapAfter pre) ip := by
  refine ⟨wideInode_setUp, (attrSf_runs_sound_iff wideInode wideInode_setUp _).mpr
    fun pre op hpre ip hrun _ => ?_⟩
  obtain ⟨post, hpost⟩ := hpre
  have hops : pre ++ [op] ++ post = [.add (tinyAttr 0), .add (tinyAttr 1), .add (tinyAttr 2),
      .remove (tinyAttr 1)] := hpost
  rcases pre with _ | ⟨a, _ | ⟨b, _ | ⟨c, _ | ⟨d, pre⟩⟩⟩⟩
  · cases hops
    exact sfStepOk_tinyAttr (n := 0) (by decide) hrun (by decide) (by decide)
  · cases hops
    exact sfStepOk_tinyAttr (n := 1) (by decide) hrun (by decide) (by decide)
  · cases hops
    exact sfStepOk_tinyAttr (n := 2) (by decide) hrun (by decide) (by decide)
  · cases hops
    trivial
  · simp at hops

end Xfs
