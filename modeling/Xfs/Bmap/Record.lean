import Xfs.Lib.ByteBuf
import Mathlib.Data.Nat.Bitwise

/-! Extent records: the record the code works on, its two words on disk and its two words in the
in-core tree. -/
namespace Xfs

open Nat List

inductive ExtState where
  | norm
  | unwritten
deriving DecidableEq, Repr

@[ext] structure BmbtIrec where
  startoff : Nat
  startblock : Nat
  blockcount : Nat
  state : ExtState
deriving DecidableEq, Repr

def mask64lo (n : Nat) : Nat := 1 <<< n - 1

def mask64hi (n : Nat) : Nat := (2 ^ 64 - 1) <<< (64 - n) % 2 ^ 64

def not64 (x : Nat) : Nat := 2 ^ 64 - 1 - x

def shl64 (x n : Nat) : Nat := x <<< n % 2 ^ 64

def startblockvalbits : Nat := 17

def startblockmask : Nat := shl64 (1 <<< 35 - 1) startblockvalbits

def isnullstartblock (x : Nat) : Bool := x &&& startblockmask == startblockmask

/-- The block number of a delayed allocation with `k` blocks reserved. -/
def nullstartblock (k : Nat) : Nat := startblockmask ||| k

def bmbtDiskGetAll (rec : Bytes) : BmbtIrec :=
  let l0 := getBe (slice rec 0 8)
  let l1 := getBe (slice rec 8 8)
  { startoff := (l0 &&& mask64lo 63) >>> 9
    startblock := shl64 (l0 &&& mask64lo 9) 43 ||| l1 >>> 21
    blockcount := l1 &&& mask64lo 21
    state := if l0 >>> 63 ≠ 0 then .unwritten else .norm }

def bmbtDiskSetAll (s : BmbtIrec) : Bytes :=
  let extentFlag := if s.state ≠ .norm then 1 else 0
  putBe 8 (shl64 extentFlag 63 ||| shl64 s.startoff 9 ||| s.startblock >>> 43) ++
    putBe 8 (shl64 s.startblock 21 ||| (s.blockcount &&& mask64lo 21))

structure IextRec where
  lo : Nat
  hi : Nat
deriving DecidableEq, Repr

/-- Only an empty hi value indicates an unused record. -/
def iextRecIsEmpty (rec : IextRec) : Bool := rec.hi == 0

def iextSet (irec : BmbtIrec) : IextRec :=
  let hi := (irec.blockcount &&& mask64lo 21) ||| shl64 (irec.startblock &&& not64 (mask64lo 10)) 12
  { lo := (irec.startoff &&& mask64lo 54) ||| shl64 irec.startblock 54
    hi := if irec.state = .unwritten then hi ||| 1 <<< 21 else hi }

def iextGet (rec : IextRec) : BmbtIrec where
  startoff := rec.lo &&& mask64lo 54
  startblock := rec.lo >>> 54 ||| (rec.hi &&& mask64hi 42) >>> 12
  blockcount := rec.hi &&& mask64lo 21
  state := if rec.hi &&& 1 <<< 21 ≠ 0 then .unwritten else .norm

def iextentsCopy (recs : List IextRec) : List Bytes :=
  ((recs.map iextGet).filter fun rec => ¬ isnullstartblock rec.startblock).map bmbtDiskSetAll

theorem mask64lo_eq (n : Nat) : mask64lo n = 2 ^ n - 1 := by
  rw [mask64lo, shiftLeft_eq, one_mul]

theorem and_mask64lo (x n : Nat) : x &&& mask64lo n = x % 2 ^ n := by
  rw [mask64lo_eq, and_two_pow_sub_one_eq_mod]

theorem mul_or_eq_add {b n : Nat} (a : Nat) (h : b < 2 ^ n) : a * 2 ^ n ||| b = a * 2 ^ n + b := by
  rw [← shiftLeft_eq, shiftLeft_add_eq_or_of_lt h]

theorem shl64_eq {x n : Nat} (h : x * 2 ^ n < 2 ^ 64) : shl64 x n = x * 2 ^ n := by
  rw [shl64, shiftLeft_eq, mod_eq_of_lt h]

theorem and_high_bits {x n : Nat} (hn : n ≤ 64) (hx : x < 2 ^ 64) :
    x &&& (2 ^ 64 - 2 ^ n) = x / 2 ^ n * 2 ^ n := by
  have hmask : 2 ^ 64 - 2 ^ n = (2 ^ (64 - n) - 1) <<< n := by
    rw [Nat.shiftLeft_eq, Nat.sub_mul, ← Nat.pow_add, Nat.sub_add_cancel hn, one_mul]
  rw [hmask, ← shiftLeft_eq, ← shiftRight_eq_div_pow]
  apply eq_of_testBit_eq
  intro i
  rw [testBit_and, testBit_shiftLeft, testBit_shiftLeft, testBit_two_pow_sub_one,
    testBit_shiftRight]
  by_cases hni : n ≤ i
  · rw [Nat.add_sub_cancel' hni]
    by_cases hi : i < 64
    · simp [hni, show i - n < 64 - n by omega]
    · have hzero : x.testBit i = false :=
        testBit_lt_two_pow (hx.trans_le (Nat.pow_le_pow_right (by decide) (not_lt.mp hi)))
      simp [hzero]
  · simp [hni]

theorem not64_mask64lo {n : Nat} (hn : n ≤ 64) : not64 (mask64lo n) = 2 ^ 64 - 2 ^ n := by
  have hpos : 0 < 2 ^ n := Nat.two_pow_pos n
  have hle : 2 ^ n ≤ 2 ^ 64 := Nat.pow_le_pow_right (by decide) hn
  rw [not64, mask64lo_eq]
  omega

/-- What the formats can hold. -/
structure BmbtIrec.Encodable (e : BmbtIrec) : Prop where
  startoff_lt : e.startoff < 2 ^ 54
  startblock_lt : e.startblock < 2 ^ 52
  blockcount_lt : e.blockcount < 2 ^ 21

def ExtState.bit : ExtState → Nat
  | .norm => 0
  | .unwritten => 1

theorem ExtState.bit_lt (s : ExtState) : s.bit < 2 := by
  cases s <;> decide

theorem ExtState.bit_ne_zero (s : ExtState) : (if s.bit ≠ 0 then .unwritten else .norm) = s := by
  cases s <;> rfl

variable {e : BmbtIrec} {rec : Bytes}

theorem bmbtDiskSetAll_eq (he : e.Encodable) : bmbtDiskSetAll e =
      putBe 8 (e.state.bit * 2 ^ 63 + (e.startoff * 2 ^ 9 + e.startblock / 2 ^ 43)) ++
        putBe 8 (e.startblock % 2 ^ 43 * 2 ^ 21 + e.blockcount) := by
  obtain ⟨hoff, hblock, hcount⟩ := he
  have hflag : (if e.state ≠ .norm then 1 else 0) = e.state.bit := by
    cases e.state <;> rfl
  have hbit := e.state.bit_lt
  have hl1 : shl64 e.startblock 21 = e.startblock % 2 ^ 43 * 2 ^ 21 := by
    rw [shl64, shiftLeft_eq]
    omega
  have hlow : e.startoff * 2 ^ 9 ||| e.startblock / 2 ^ 43 =
      e.startoff * 2 ^ 9 + e.startblock / 2 ^ 43 := mul_or_eq_add _ (by omega)
  simp only [bmbtDiskSetAll]
  rw [hflag, hl1, shl64_eq (by omega), shl64_eq (by omega), shiftRight_eq_div_pow, and_mask64lo,
    Nat.mod_eq_of_lt hcount, mul_or_eq_add _ hcount, Nat.or_assoc, hlow, mul_or_eq_add _ (by omega)]

theorem bmbtDiskGetAll_eq {l0 l1 : Nat} (hl0 : getBe (slice rec 0 8) = l0)
    (hl1 : getBe (slice rec 8 8) = l1) (h1 : l1 < 2 ^ 64) :
    bmbtDiskGetAll rec = ⟨l0 % 2 ^ 63 / 2 ^ 9, l0 % 2 ^ 9 * 2 ^ 43 + l1 / 2 ^ 21, l1 % 2 ^ 21,
        if l0 / 2 ^ 63 ≠ 0 then .unwritten else .norm⟩ := by
  simp only [bmbtDiskGetAll, hl0, hl1, and_mask64lo, shiftRight_eq_div_pow]
  rw [shl64_eq (by omega), mul_or_eq_add _ (by omega)]

theorem bmbtDiskGetAll_words {l0 l1 : Nat} (h0 : l0 < 2 ^ 64) (h1 : l1 < 2 ^ 64) :
    bmbtDiskGetAll (putBe 8 l0 ++ putBe 8 l1) =
      ⟨l0 % 2 ^ 63 / 2 ^ 9, l0 % 2 ^ 9 * 2 ^ 43 + l1 / 2 ^ 21, l1 % 2 ^ 21,
        if l0 / 2 ^ 63 ≠ 0 then .unwritten else .norm⟩ := by
  have hfirst : slice (putBe 8 l0 ++ putBe 8 l1) 0 8 = putBe 8 l0 :=
    slice_append [] (putBe 8 l0) (putBe 8 l1) 8 (length_putBe 8 l0)
  have hsecond : slice (putBe 8 l0 ++ putBe 8 l1) 8 8 = putBe 8 l1 := by
    have hslice := slice_append (putBe 8 l0) (putBe 8 l1) [] 8 (length_putBe 8 l1)
    rwa [length_putBe, append_nil] at hslice
  apply bmbtDiskGetAll_eq _ _ h1
  · rw [hfirst, getBe_putBe h0]
  · rw [hsecond, getBe_putBe h1]

theorem bmbtDiskGetAll_setAll (he : e.Encodable) : bmbtDiskGetAll (bmbtDiskSetAll e) = e := by
  have hbit := e.state.bit_lt
  rw [bmbtDiskSetAll_eq he]
  obtain ⟨hoff, hblock, hcount⟩ := he
  rw [bmbtDiskGetAll_words (by omega) (by omega)]
  have hstate : (e.state.bit * 2 ^ 63 + (e.startoff * 2 ^ 9 + e.startblock / 2 ^ 43)) / 2 ^ 63 =
      e.state.bit := by omega
  rw [hstate, e.state.bit_ne_zero]
  apply BmbtIrec.ext
  · dsimp only
    omega
  · dsimp only
    omega
  · dsimp only
    omega
  · rfl

theorem exists_words (hlen : rec.length = 16) :
    ∃ l0 l1, l0 < 2 ^ 64 ∧ l1 < 2 ^ 64 ∧ rec = putBe 8 l0 ++ putBe 8 l1 := by
  have hfirst : (rec.take 8).length = 8 := by rw [length_take, hlen]; rfl
  have hsecond : (rec.drop 8).length = 8 := by rw [length_drop, hlen]
  have h0 := getBe_lt (rec.take 8)
  have h1 := getBe_lt (rec.drop 8)
  rw [hfirst] at h0
  rw [hsecond] at h1
  refine ⟨getBe (rec.take 8), getBe (rec.drop 8), h0, h1, ?_⟩
  have hput0 := putBe_getBe (rec.take 8)
  have hput1 := putBe_getBe (rec.drop 8)
  rw [hfirst] at hput0
  rw [hsecond] at hput1
  rw [hput0, hput1, take_append_drop]

theorem bmbtDiskGetAll_encodable (hlen : rec.length = 16) : (bmbtDiskGetAll rec).Encodable := by
  obtain ⟨l0, l1, h0, h1, rfl⟩ := exists_words hlen
  rw [bmbtDiskGetAll_words h0 h1]
  constructor
  · change l0 % 2 ^ 63 / 2 ^ 9 < 2 ^ 54
    omega
  · change l0 % 2 ^ 9 * 2 ^ 43 + l1 / 2 ^ 21 < 2 ^ 52
    omega
  · exact mod_lt _ (by decide)

theorem bmbtDiskSetAll_getAll (hlen : rec.length = 16) :
    bmbtDiskSetAll (bmbtDiskGetAll rec) = rec := by
  rw [bmbtDiskSetAll_eq (bmbtDiskGetAll_encodable hlen)]
  obtain ⟨l0, l1, h0, h1, rfl⟩ := exists_words hlen
  rw [bmbtDiskGetAll_words h0 h1]
  have hbit : (if l0 / 2 ^ 63 ≠ 0 then ExtState.unwritten else .norm).bit = l0 / 2 ^ 63 := by
    split
    · change 1 = l0 / 2 ^ 63
      omega
    · change 0 = l0 / 2 ^ 63
      omega
  congr 2
  · change _ * 2 ^ 63 + (l0 % 2 ^ 63 / 2 ^ 9 * 2 ^ 9 + (l0 % 2 ^ 9 * 2 ^ 43 + l1 / 2 ^ 21) / 2 ^ 43) = l0
    rw [hbit]
    omega
  · change (l0 % 2 ^ 9 * 2 ^ 43 + l1 / 2 ^ 21) % 2 ^ 43 * 2 ^ 21 + l1 % 2 ^ 21 = l1
    omega

theorem iextSet_lo (hoff : e.startoff < 2 ^ 54) :
    (iextSet e).lo = e.startblock % 2 ^ 10 * 2 ^ 54 + e.startoff := by
  have hshift : shl64 e.startblock 54 = e.startblock % 2 ^ 10 * 2 ^ 54 := by
    rw [shl64, shiftLeft_eq]
    omega
  simp only [iextSet]
  rw [hshift, and_mask64lo, Nat.mod_eq_of_lt hoff, Nat.or_comm, mul_or_eq_add _ hoff]

theorem iextSet_hi (he : e.Encodable) :
    (iextSet e).hi = e.startblock / 2 ^ 10 * 2 ^ 22 + (e.state.bit * 2 ^ 21 + e.blockcount) := by
  obtain ⟨hoff, hblock, hcount⟩ := he
  have hbit := e.state.bit_lt
  have hhigh : shl64 (e.startblock &&& not64 (mask64lo 10)) 12 = e.startblock / 2 ^ 10 * 2 ^ 22 := by
    rw [not64_mask64lo (by decide), and_high_bits (by decide) (by omega), shl64_eq (by omega)]
    omega
  have hflag : (iextSet e).hi =
      e.startblock / 2 ^ 10 * 2 ^ 22 ||| (e.state.bit * 2 ^ 21 ||| e.blockcount) := by
    simp only [iextSet]
    rw [hhigh, and_mask64lo, mod_eq_of_lt hcount]
    cases e.state
    · simp [ExtState.bit, Nat.or_comm]
    · simp [ExtState.bit, Nat.or_comm, Nat.or_assoc, Nat.or_left_comm]
  have hlow : e.state.bit * 2 ^ 21 ||| e.blockcount = e.state.bit * 2 ^ 21 + e.blockcount :=
    mul_or_eq_add _ hcount
  rw [hflag, hlow, mul_or_eq_add _ (by omega)]

theorem iextGet_eq {rec : IextRec} (hlo : rec.lo < 2 ^ 64) (hhi : rec.hi < 2 ^ 64) : iextGet rec =
      ⟨rec.lo % 2 ^ 54, rec.hi / 2 ^ 22 * 2 ^ 10 + rec.lo / 2 ^ 54, rec.hi % 2 ^ 21,
        if rec.hi / 2 ^ 21 % 2 ≠ 0 then .unwritten else .norm⟩ := by
  have hmask : mask64hi 42 = 2 ^ 64 - 2 ^ 22 := by decide
  have hblock : rec.lo >>> 54 ||| (rec.hi &&& mask64hi 42) >>> 12 =
      rec.hi / 2 ^ 22 * 2 ^ 10 + rec.lo / 2 ^ 54 := by
    have hhigh : rec.hi / 2 ^ 22 * 2 ^ 22 / 2 ^ 12 = rec.hi / 2 ^ 22 * 2 ^ 10 := by omega
    rw [hmask, and_high_bits (by decide) hhi, shiftRight_eq_div_pow, shiftRight_eq_div_pow,
      hhigh, Nat.or_comm, mul_or_eq_add _ (by omega)]
  have hstate : (rec.hi &&& 1 <<< 21 ≠ 0) ↔ rec.hi / 2 ^ 21 % 2 ≠ 0 := by
    rw [shiftLeft_eq, one_mul, and_two_pow, testBit_eq_decide_div_mod_eq]
    simp
  simp only [iextGet, hblock, and_mask64lo, hstate]

theorem iextGet_set (he : e.Encodable) : iextGet (iextSet e) = e := by
  have hlo := iextSet_lo he.startoff_lt
  have hhi := iextSet_hi he
  have hbit := e.state.bit_lt
  obtain ⟨hoff, hblock, hcount⟩ := he
  rw [iextGet_eq (by omega) (by omega), hlo, hhi]
  have hstate : (e.startblock / 2 ^ 10 * 2 ^ 22 + (e.state.bit * 2 ^ 21 + e.blockcount)) / 2 ^ 21 % 2 =
      e.state.bit := by omega
  rw [hstate, e.state.bit_ne_zero]
  apply BmbtIrec.ext
  · dsimp only
    omega
  · dsimp only
    omega
  · dsimp only
    omega
  · rfl

theorem iextSet_nonempty (hpos : 1 ≤ e.blockcount) (hcount : e.blockcount < 2 ^ 21) :
    iextRecIsEmpty (iextSet e) = false := by
  have hlow : e.blockcount &&& mask64lo 21 = e.blockcount := by
    rw [and_mask64lo, mod_eq_of_lt hcount]
  have hne : (iextSet e).hi ≠ 0 := by
    simp only [iextSet, hlow]
    split
    · rw [ne_eq, or_eq_zero_iff, or_eq_zero_iff]
      omega
    · rw [ne_eq, or_eq_zero_iff]
      omega
  exact beq_eq_false_iff_ne.mpr hne

theorem nullstartblock_lt {k : Nat} (hk : k < 2 ^ startblockvalbits) : nullstartblock k < 2 ^ 52 :=
  or_lt_two_pow (by decide) (lt_trans hk (by decide))

theorem encodable_of_fields (hoff : e.startoff < 2 ^ 54) (hcount : e.blockcount < 2 ^ 21)
    (hblock : e.startblock < 2 ^ 52 ∨
      ∃ k < 2 ^ startblockvalbits, e.startblock = nullstartblock k) : e.Encodable := by
  rcases hblock with hreal | ⟨k, hk, hnull⟩
  · exact ⟨hoff, hreal, hcount⟩
  · exact ⟨hoff, hnull ▸ nullstartblock_lt hk, hcount⟩

theorem bmbtDiskSetAll_iext (hlen : rec.length = 16) :
    bmbtDiskSetAll (iextGet (iextSet (bmbtDiskGetAll rec))) = rec := by
  rw [iextGet_set (bmbtDiskGetAll_encodable hlen), bmbtDiskSetAll_getAll hlen]

theorem iextentsCopy_read (fork : List Bytes)
    (hfork : ∀ rec ∈ fork, rec.length = 16 ∧ isnullstartblock (bmbtDiskGetAll rec).startblock = false) :
    iextentsCopy (fork.map fun rec => iextSet (bmbtDiskGetAll rec)) = fork := by
  induction fork with
  | nil => rfl
  | cons rec fork ih =>
    have hhead := hfork rec mem_cons_self
    have htail := ih fun r hr => hfork r (mem_cons_of_mem _ hr)
    have hget := iextGet_set (bmbtDiskGetAll_encodable hhead.1)
    unfold iextentsCopy at htail ⊢
    rw [map_cons, map_cons, hget, filter_cons_of_pos (by simp [hhead.2]),
      map_cons, htail, bmbtDiskSetAll_getAll hhead.1]

/-- The two formats of an extent lose nothing, and a fork that is read in and written back is the
same. -/
theorem extent_record_codecs : (∀ e : BmbtIrec, e.startoff < 2 ^ 54 → e.blockcount < 2 ^ 21 →
      (e.startblock < 2 ^ 52 ∨ ∃ k < 2 ^ startblockvalbits, e.startblock = nullstartblock k) →
      bmbtDiskGetAll (bmbtDiskSetAll e) = e ∧ iextGet (iextSet e) = e) ∧
    (∀ rec : Bytes, rec.length = 16 → bmbtDiskSetAll (bmbtDiskGetAll rec) = rec) ∧
    (∀ e : BmbtIrec, 1 ≤ e.blockcount → e.blockcount < 2 ^ 21 →
      iextRecIsEmpty (iextSet e) = false) ∧
    (∀ rec : Bytes, rec.length = 16 →
      bmbtDiskSetAll (iextGet (iextSet (bmbtDiskGetAll rec))) = rec) ∧
    (∀ fork : List Bytes,
      (∀ rec ∈ fork, rec.length = 16 ∧ isnullstartblock (bmbtDiskGetAll rec).startblock = false) →
      iextentsCopy (fork.map fun rec => iextSet (bmbtDiskGetAll rec)) = fork) := by
  refine ⟨?_, ?_, ?_, ?_, iextentsCopy_read⟩
  · intro e hoff hcount hblock
    have he := encodable_of_fields hoff hcount hblock
    exact ⟨bmbtDiskGetAll_setAll he, iextGet_set he⟩
  · intro rec hlen
    exact bmbtDiskSetAll_getAll hlen
  · intro e hpos hcount
    exact iextSet_nonempty hpos hcount
  · intro rec hlen
    exact bmbtDiskSetAll_iext hlen

/-- A delayed allocation with three blocks reserved. -/
theorem extent_record_codecs_delayed :
    iextGet (iextSet ⟨5, nullstartblock 3, 7, .norm⟩) = ⟨5, nullstartblock 3, 7, .norm⟩ :=
  (extent_record_codecs.1 ⟨5, nullstartblock 3, 7, .norm⟩ (by decide) (by decide)
    (.inr ⟨3, by decide, rfl⟩)).2

end Xfs
