import Mathlib.Data.List.Basic
import Xfs.Attr.ShortForm

/-! The bytes of a short-form attribute list as the encoding of its entries,
and what scanning, removing, adding and verifying do to the entries. -/
namespace Xfs

open List UInt8

structure AttrEntry where
  ns : AttrNamespace
  name : Bytes
  value : Bytes
deriving Repr, DecidableEq

/-- What identifies an attribute: the value is part of it for parent pointers. -/
def AttrEntry.key (e : AttrEntry) : AttrNamespace × Bytes × Option Bytes :=
  (e.ns, e.name, if e.ns = .parent then some e.value else none)

def DaArgs.entry (args : DaArgs) : AttrEntry := ⟨args.attrFilter, args.name, args.value⟩

def AttrEntry.size (e : AttrEntry) : Nat := 3 + (e.name.length + e.value.length)

def AttrEntry.encode (e : AttrEntry) : Bytes :=
  ofNat e.name.length :: ofNat e.value.length :: e.ns.flags :: (e.name ++ e.value)

/-- The lengths fit the bytes that store them. -/
def AttrEntry.Fits (e : AttrEntry) : Prop := e.name.length < 255 ∧ e.value.length < 255

def encodeAll (es : List AttrEntry) : Bytes := es.flatMap AttrEntry.encode

variable {e : AttrEntry} {es pre post : List AttrEntry} {args : DaArgs} {sf : AttrSf}
  {before behind : Bytes} {count : Nat}

@[simp] theorem encodeAll_nil : encodeAll [] = [] := rfl

@[simp] theorem encodeAll_cons (e : AttrEntry) (es : List AttrEntry) :
    encodeAll (e :: es) = e.encode ++ encodeAll es := flatMap_cons

@[simp] theorem encodeAll_append (es fs : List AttrEntry) :
    encodeAll (es ++ fs) = encodeAll es ++ encodeAll fs := flatMap_append

@[simp] theorem AttrEntry.length_encode (e : AttrEntry) : e.encode.length = e.size := by
  simp only [encode, size, length_cons, length_append]
  omega

theorem sfNamelen_encode (hfit : e.Fits) (before behind : Bytes) :
    sfNamelen (before ++ (e.encode ++ behind)) before.length = e.name.length := by
  have hlt := hfit.1
  simp only [sfNamelen, AttrEntry.encode, cons_append, getD_append_cons]
  rw [toNat_ofNat', Nat.mod_eq_of_lt (by omega)]

theorem sfValuelen_encode (hfit : e.Fits) (before behind : Bytes) :
    sfValuelen (before ++ (e.encode ++ behind)) before.length = e.value.length := by
  have hlt := hfit.2
  have hget := getD_append_cons (before ++ [ofNat e.name.length])
    (e.ns.flags :: (e.name ++ e.value) ++ behind) (ofNat e.value.length)
  simp only [append_assoc, singleton_append, length_append, length_singleton] at hget
  simp only [sfValuelen, AttrEntry.encode, cons_append] at hget ⊢
  rw [hget, toNat_ofNat', Nat.mod_eq_of_lt (by omega)]

theorem sfFlags_encode (e : AttrEntry) (before behind : Bytes) :
    sfFlags (before ++ (e.encode ++ behind)) before.length = e.ns.flags := by
  have hget := getD_append_cons (before ++ [ofNat e.name.length, ofNat e.value.length])
    (e.name ++ e.value ++ behind) e.ns.flags
  simp only [append_assoc, cons_append, nil_append, length_append, length_cons, length_nil] at hget
  simpa only [sfFlags, AttrEntry.encode, cons_append, append_assoc] using hget

theorem attrSfEntsize_encode (hfit : e.Fits) (before behind : Bytes) :
    attrSfEntsize (before ++ (e.encode ++ behind)) before.length = e.size := by
  rw [attrSfEntsize, sfNamelen_encode hfit, sfValuelen_encode hfit, AttrEntry.size]

theorem drop_encode (e : AttrEntry) (before behind : Bytes) :
    (before ++ (e.encode ++ behind)).drop (before.length + 3) = e.name ++ (e.value ++ behind) := by
  simp [AttrEntry.encode]

theorem sfName_encode (hfit : e.Fits) (before behind : Bytes) :
    sfName (before ++ (e.encode ++ behind)) before.length = e.name := by
  rw [sfName, sfNamelen_encode hfit, drop_encode, take_left]

theorem sfValue_encode (hfit : e.Fits) (before behind : Bytes) :
    sfValue (before ++ (e.encode ++ behind)) before.length = e.value := by
  rw [sfValue, sfNamelen_encode hfit, sfValuelen_encode hfit, ← drop_drop, drop_encode,
    drop_left, take_left]

theorem attrMatch_iff : attrMatch args e.ns.flags e.name e.value ↔ e.key = args.entry.key := by
  obtain ⟨ns, name, value⟩ := e
  obtain ⟨ns', name', value', opFlags⟩ := args
  have hmask : ∀ a b : AttrNamespace, ∀ r : Bool,
      (a.flags &&& (if r then attrNspOndiskMask else attrNspOndiskMask ||| attrIncomplete) =
        b.flags &&& (if r then attrNspOndiskMask else attrNspOndiskMask ||| attrIncomplete)) ↔
          a = b := by
    intro a b r
    cases a <;> cases b <;> cases r <;> decide
  have hparent : ∀ a : AttrNamespace, a.flags &&& attrParent = 0 ↔ a ≠ .parent := by
    intro a
    cases a <;> decide
  simp only [attrMatch, attrMatchMask, DaArgs.entry, AttrEntry.key, ne_eq, hmask, hparent,
    Prod.mk.injEq]
  by_cases hname : name' = name
  · subst hname
    by_cases hns : ns' = ns
    · subst hns
      by_cases hp : ns' = .parent <;> simp [hp]
    · simp [hns, Ne.symm hns]
  · simp [hname, Ne.symm hname]

theorem attrSfFindFrom_encodeAll (args : DaArgs) (hfit : ∀ e ∈ post, e.Fits)
    (pre : List AttrEntry) {stop : Nat}
    (hstop : stop = (encodeAll (pre ++ post)).length) :
    (attrSfFindFrom args (encodeAll (pre ++ post)) stop (encodeAll pre).length = none ∧
        ∀ e ∈ post, e.key ≠ args.entry.key) ∨
      ∃ mid e rest, post = mid ++ e :: rest ∧ (∀ x ∈ mid, x.key ≠ args.entry.key) ∧
        e.key = args.entry.key ∧
        attrSfFindFrom args (encodeAll (pre ++ post)) stop (encodeAll pre).length =
          some (encodeAll (pre ++ mid)).length := by
  induction post generalizing pre with
  | nil =>
    left
    rw [append_nil] at hstop ⊢
    rw [attrSfFindFrom, if_neg (by omega)]
    simp
  | cons e post ih =>
    have hfe : e.Fits := hfit e mem_cons_self
    have hdata : encodeAll (pre ++ e :: post) =
        encodeAll pre ++ (e.encode ++ encodeAll post) := by simp
    have hlt : (encodeAll pre).length < stop := by
      rw [hstop, hdata]
      simp only [length_append, AttrEntry.length_encode, AttrEntry.size]
      omega
    have hstep : attrSfFindFrom args (encodeAll (pre ++ e :: post)) stop (encodeAll pre).length =
        if attrMatch args e.ns.flags e.name e.value then some (encodeAll pre).length
        else attrSfFindFrom args (encodeAll ((pre ++ [e]) ++ post)) stop
          (encodeAll (pre ++ [e])).length := by
      rw [attrSfFindFrom, if_pos hlt, hdata, sfFlags_encode, sfName_encode hfe,
        sfValue_encode hfe, attrSfEntsize_encode hfe]
      simp
    rw [hstep]
    by_cases hm : attrMatch args e.ns.flags e.name e.value = true
    · refine .inr ⟨[], e, post, rfl, by simp, attrMatch_iff.mp hm, ?_⟩
      rw [if_pos hm, append_nil]
    have hne : e.key ≠ args.entry.key := fun hk => hm (attrMatch_iff.mpr hk)
    rw [if_neg hm]
    rcases ih (fun x hx => hfit x (mem_cons_of_mem _ hx)) (pre ++ [e])
      (by simpa using hstop) with ⟨hrun, hall⟩ | ⟨mid, x, rest, rfl, hmid, hx, hrun⟩
    · exact .inl ⟨hrun, forall_mem_cons.mpr ⟨hne, hall⟩⟩
    · refine .inr ⟨e :: mid, x, rest, rfl, forall_mem_cons.mpr ⟨hne, hmid⟩, hx, ?_⟩
      rw [hrun]
      simp

/-- The fork holds the entries. The header counts them in one byte. -/
structure AttrSf.Holds (sf : AttrSf) (es : List AttrEntry) : Prop where
  data : sf.data = encodeAll es
  totsize : sf.totsize = attrSfHdrSize + (encodeAll es).length
  count : sf.count = es.length % 2 ^ 8
  fits : ∀ e ∈ es, e.Fits
  nodup : (es.map AttrEntry.key).Nodup

theorem AttrSf.Holds.ifBytes_eq (h : sf.Holds es) : sf.ifBytes = sf.totsize := by
  rw [AttrSf.ifBytes, h.data, h.totsize]

theorem attrSfFindname_spec (h : sf.Holds es) (args : DaArgs) :
    (attrSfFindname args sf = none ∧ ∀ e ∈ es, e.key ≠ args.entry.key) ∨
      ∃ pre e post, es = pre ++ e :: post ∧ e.key = args.entry.key ∧
        attrSfFindname args sf = some (encodeAll pre).length := by
  have hstop : attrSfEndptr sf = (encodeAll ([] ++ es)).length := by
    rw [attrSfEndptr, h.totsize]
    simp
  have hfind := attrSfFindFrom_encodeAll args h.fits [] hstop
  rw [attrSfFindname, h.data]
  rcases hfind with hnone | ⟨mid, e, rest, hes, -, hk, hrun⟩
  · exact .inl hnone
  · exact .inr ⟨mid, e, rest, hes, hk, hrun⟩

theorem AttrSf.Holds.remove (h : sf.Holds (pre ++ e :: post)) (hbig : sf.totsize < 2 ^ 16) :
    AttrSf.Holds
      { totsize := (sf.totsize + 2 ^ 16 - e.size) % 2 ^ 16
        count := (sf.count + 255) % 2 ^ 8
        data := (if (encodeAll pre).length + e.size < attrSfEndptr sf then
            overwrite sf.data (encodeAll pre).length
              ((sf.data.drop ((encodeAll pre).length + e.size)).take
                (attrSfEndptr sf - ((encodeAll pre).length + e.size)))
          else sf.data).take (sf.data.length - e.size) } (pre ++ post) := by
  have hdata : sf.data = encodeAll pre ++ (e.encode ++ encodeAll post) := by
    rw [h.data]
    simp
  have hlen : sf.data.length = (encodeAll pre).length + e.size + (encodeAll post).length := by
    rw [hdata]
    simp only [length_append, AttrEntry.length_encode]
    omega
  have htot : sf.totsize = attrSfHdrSize + sf.data.length := by rw [h.totsize, h.data]
  have hend : attrSfEndptr sf = sf.data.length := by
    rw [attrSfEndptr, htot]
    omega
  have hbehind : sf.data.drop ((encodeAll pre).length + e.size) = encodeAll post := by
    rw [hdata, ← drop_drop, drop_left, ← AttrEntry.length_encode, drop_left]
  have hnodup : ((pre ++ post).map AttrEntry.key).Nodup :=
    h.nodup.sublist ((List.Sublist.append_left (sublist_cons_self _ _) _).map _)
  refine ⟨?_, ?_, ?_, fun x hx => h.fits x ?_, hnodup⟩
  · have hcut : sf.data.length - e.size = (encodeAll pre).length + (encodeAll post).length := by
      omega
    have hall : (encodeAll post).take (sf.data.length - ((encodeAll pre).length + e.size)) =
        encodeAll post := take_of_length_le (by omega)
    simp only [hend, hbehind, hall, encodeAll_append, hcut]
    split_ifs with hlt
    · rw [hdata, overwrite_take]
    · have hnil : encodeAll post = [] := length_eq_zero_iff.mp (by omega)
      rw [hdata, hnil, length_nil, add_zero, take_left, append_nil]
  · change (sf.totsize + 2 ^ 16 - e.size) % 2 ^ 16 = _
    rw [encodeAll_append, length_append]
    omega
  · have hc := h.count
    rw [hc]
    simp only [length_append, length_cons]
    omega
  · rw [mem_append, mem_cons]
    exact (mem_append.mp hx).imp_right .inr

theorem attrSfEntsizeByname_entry (hfit : args.entry.Fits) :
    attrSfEntsizeByname args.name.length args.value.length = args.entry.size := by
  obtain ⟨h1, h2⟩ : args.name.length < 255 ∧ args.value.length < 255 := hfit
  rw [attrSfEntsizeByname, Nat.mod_eq_of_lt (by omega), Nat.mod_eq_of_lt (by omega), add_assoc]
  rfl

theorem AttrSf.Holds.add (h : sf.Holds es) (hfit : args.entry.Fits)
    (hnew : ∀ e ∈ es, e.key ≠ args.entry.key)
    (hbig : sf.totsize + args.entry.size < 2 ^ 16) (ip : AttrInode) (forkoff : Nat) :
    ∃ sf', attrShortformAdd args forkoff ip sf = { ip with forkoff := forkoff, af := some sf' } ∧
      sf'.Holds (es ++ [args.entry]) := by
  have hsize := attrSfEntsizeByname_entry hfit
  have hend : attrSfEndptr sf = sf.data.length := by
    rw [attrSfEndptr, h.totsize, h.data]
    omega
  refine ⟨_, rfl, ?_, ?_, ?_, ?_, ?_⟩
  · simp only [hsize, hend]
    rw [show (ofNat args.name.length :: ofNat args.value.length ::
      args.attrFilter.flags :: (args.name ++ args.value)) = args.entry.encode from rfl,
      overwrite_end _ _ _ (AttrEntry.length_encode _), h.data]
    simp
  · simp only [hsize]
    rw [Nat.mod_eq_of_lt hbig, h.totsize]
    simp [add_assoc]
  · have hc := h.count
    simp only [hc, length_append, length_singleton]
    omega
  · intro x hx
    rcases mem_append.mp hx with hx | hx
    · exact h.fits x hx
    · rwa [mem_singleton.mp hx]
  · rw [map_append, map_singleton, nodup_append]
    refine ⟨h.nodup, by simp, fun k hk k' hk' => ?_⟩
    obtain ⟨x, hx, rfl⟩ := mem_map.mp hk
    rw [mem_singleton.mp hk']
    exact hnew x hx

theorem attrSfVerifyLoop_encodeAll (hfit : ∀ e ∈ post, e.Fits) (pre : List AttrEntry)
    (i : Nat) {endp : Nat} (hend : endp = (encodeAll (pre ++ post)).length) :
    attrSfVerifyLoop (encodeAll (pre ++ post)) endp i (encodeAll pre).length ↔
      i = post.length ∧ ∀ e ∈ post, e.name ≠ [] := by
  induction post generalizing pre i with
  | nil =>
    rw [append_nil] at hend ⊢
    cases i with
    | zero => simp [attrSfVerifyLoop, hend]
    | succ i =>
      rw [attrSfVerifyLoop, if_pos (by omega)]
      simp
  | cons e post ih =>
    have hfe : e.Fits := hfit e mem_cons_self
    have hdata : encodeAll (pre ++ e :: post) =
        encodeAll pre ++ (e.encode ++ encodeAll post) := by simp
    have hlen : endp = (encodeAll pre).length + (e.size + (encodeAll post).length) := by
      rw [hend, hdata]
      simp
    have hsize : e.size = 3 + (e.name.length + e.value.length) := rfl
    cases i with
    | zero =>
      rw [attrSfVerifyLoop, decide_eq_true_eq]
      simp only [length_cons]
      omega
    | succ i =>
      have hns : ∀ ns : AttrNamespace, ns.flags &&& ~~~attrNspOndiskMask = 0 ∧
          attrCheckNamespace ns.flags := by
        intro ns
        cases ns <;> decide
      rw [attrSfVerifyLoop, hdata, sfNamelen_encode hfe, attrSfEntsize_encode hfe, sfFlags_encode]
      by_cases hname : e.name = []
      · simp [hname]
      have hpos : 0 < e.name.length := length_pos_iff.mpr hname
      rw [if_neg (by omega), if_neg (by omega), if_neg (by omega),
        if_neg (by simp [(hns e.ns).1]), if_neg (by simp [(hns e.ns).2])]
      have hnext := ih (fun x hx => hfit x (mem_cons_of_mem _ hx)) (pre ++ [e]) i
        (by simpa using hend)
      simp only [append_assoc, singleton_append, encodeAll_append,
        encodeAll_cons, encodeAll_nil, append_nil, length_append,
        AttrEntry.length_encode] at hnext
      rw [hnext]
      simp [hname]

theorem attrShortformVerify_iff (h : sf.Holds es) :
    attrShortformVerify sf sf.ifBytes ↔ sf.count = es.length ∧ ∀ e ∈ es, e.name ≠ [] := by
  have hend : sf.ifBytes - attrSfHdrSize = (encodeAll ([] ++ es)).length := by
    rw [h.ifBytes_eq, h.totsize]
    simp
  have hloop := attrSfVerifyLoop_encodeAll h.fits [] sf.count hend
  rw [attrShortformVerify, if_neg (by unfold AttrSf.ifBytes; omega), h.data]
  simpa using hloop

end Xfs
