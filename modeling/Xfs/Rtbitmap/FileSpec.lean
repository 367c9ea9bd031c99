import Mathlib.Order.Bounds.Defs
import Xfs.Rtbitmap.File

/-! The primitives over words agree with the bits, and read no other blocks. -/
namespace Xfs

open Nat

namespace RtFile

variable {file : RtFile} {q block word i len start : Nat} {val : Bool}

def flat (file : RtFile) (q : Nat) : RtWord :=
  file.words (q / file.blockwsize) (q % file.blockwsize)

/-- The bit of an extent. A set bit is a free extent. -/
def bit (file : RtFile) (x : Nat) : Bool := (file.flat (x / 32)).getLsbD (x % 32)

/-- The block of the extent can be read. -/
def Readable (file : RtFile) (x : Nat) : Prop :=
  file.rtbitmapReadBuf (file.rtxToRbmblock x) = .ok ()

/-- The word `q` of the file is the given word of the given block. -/
structure At (file : RtFile) (q block word : Nat) : Prop where
  eq : block * file.blockwsize + word = q
  lt : word < file.blockwsize

theorem bit_word (q : Nat) {k : Nat} (hk : k < 32) :
    file.bit (32 * q + k) = (file.flat q).getLsbD k := by
  rw [bit, show (32 * q + k) / 32 = q by omega, show (32 * q + k) % 32 = k by omega]

theorem blockwsize_old (h : file.hasRtgroups = false) :
    file.blockwsize = 2 ^ (file.blkbitLog - 5) := by
  have hpos := file.blockwsize_pos
  have heq := file.blkbitLog_eq h
  have hge : 5 ≤ file.blkbitLog := by
    by_contra hlt
    have : 2 ^ file.blkbitLog ≤ 2 ^ 4 := Nat.pow_le_pow_right (by decide) (by omega)
    omega
  have hsplit : 2 ^ file.blkbitLog = 2 ^ (file.blkbitLog - 5) * 32 := by
    rw [show (32 : Nat) = 2 ^ 5 from rfl, ← Nat.pow_add, Nat.sub_add_cancel hge]
  omega

theorem rtxToRbmblock_div (x : Nat) : file.rtxToRbmblock x = x / 32 / file.blockwsize := by
  unfold rtxToRbmblock rtxPerRbmblock
  split
  case isTrue h => rw [mul_comm, Nat.div_div_eq_div_mul]
  case isFalse h =>
    rw [shiftRight_eq_div_pow, file.blkbitLog_eq (by simpa using h), mul_comm,
      Nat.div_div_eq_div_mul]

theorem rtxToRbmword_mod (x : Nat) : file.rtxToRbmword x = x / 32 % file.blockwsize := by
  unfold rtxToRbmword
  rw [shiftRight_eq_div_pow]
  split
  case isTrue h => rfl
  case isFalse h =>
    rw [blockwsize_old (by simpa using h), and_two_pow_sub_one_eq_mod]

theorem at_rtx (x : Nat) : file.At (x / 32) (file.rtxToRbmblock x) (file.rtxToRbmword x) := by
  rw [rtxToRbmblock_div, rtxToRbmword_mod]
  exact ⟨div_add_mod' _ _, mod_lt _ file.blockwsize_pos⟩

section

variable (h : file.At q block word)
include h

theorem At.block_eq : q / file.blockwsize = block := by
  rw [← h.eq, mul_comm, mul_add_div file.blockwsize_pos, div_eq_of_lt h.lt, add_zero]

theorem At.word_eq : q % file.blockwsize = word := by
  rw [← h.eq, mul_comm, mul_add_mod, mod_eq_of_lt h.lt]

theorem At.words : file.words block word = file.flat q := by
  rw [flat, h.block_eq, h.word_eq]

theorem At.readBuf (hx : x / 32 = q) (hread : file.Readable x) :
    file.rtbitmapReadBuf block = .ok () := by
  rw [Readable, rtxToRbmblock_div, hx, h.block_eq] at hread
  exact hread

end

theorem rtWant_bit (x : Nat) :
    rtWant (file.words (file.rtxToRbmblock x) (file.rtxToRbmword x)) (x % 32) =
      rtFill (file.bit x) := by
  rw [rtWant_eq (mod_lt _ (by decide)), (at_rtx x).words]
  rfl

def Resumes (file : RtFile) (start len i block word : Nat) : Prop :=
  i < len → 32 ∣ start + i ∧ file.At ((start + i) / 32) block word

/-- Going on to the next word reads a block only if the range has bits in it. -/
theorem nextWord_spec (start len i : Nat) (hat : file.At q block word)
    (hq : i < len → start + i = 32 * (q + 1)) (hread : i < len → file.Readable (start + i)) :
    ∃ b w, file.nextWord block word i len = .ok (b, w) ∧ file.Resumes start len i b w := by
  have heq := hat.eq
  have hlt := hat.lt
  have hpos := file.blockwsize_pos
  have hdiv : i < len → 32 ∣ start + i ∧ (start + i) / 32 = q + 1 := by omega
  unfold nextWord
  split_ifs with hlast
  · obtain ⟨hdvd, hword⟩ := hdiv hlast.2
    have hat' : file.At ((start + i) / 32) (block + 1) 0 := by
      refine ⟨?_, hpos⟩
      rw [add_mul]
      omega
    refine ⟨block + 1, 0, ?_, fun _ => ⟨hdvd, hat'⟩⟩
    rw [hat'.readBuf rfl (hread hlast.2)]
    rfl
  · exact ⟨block, word + 1, rfl, fun hi => ⟨(hdiv hi).1, by omega, by omega⟩⟩

theorem prevWord_spec (len i : Nat) (hat : file.At q block word) (hq : i < len → 0 < q)
    (hread : i < len → file.Readable (32 * q - 1)) :
    ∃ b w, file.prevWord block word i len = .ok (b, w) ∧ (i < len → file.At (q - 1) b w) := by
  have heq := hat.eq
  have hlt := hat.lt
  unfold prevWord
  split_ifs with hfirst hzero
  · rw [hzero] at heq
    omega
  · have hat' : file.At (q - 1) (block - 1) (file.blockwsize - 1) := by
      obtain ⟨b, rfl⟩ := exists_eq_succ_of_ne_zero hzero
      refine ⟨?_, by omega⟩
      rw [succ_mul] at heq
      rw [succ_sub_one]
      omega
    refine ⟨block - 1, file.blockwsize - 1, ?_, fun _ => hat'⟩
    rw [hat'.readBuf (by omega) (hread hfirst.2)]
    rfl
  · exact ⟨block, word - 1, rfl, fun hi => ⟨by omega, by omega⟩⟩

/-- The distance of the first bit that is not `val`, among `len` bits from `start` on. -/
def FirstDiff (f : Nat → Bool) (val : Bool) (start len : Nat) : Option Nat → Prop
  | some i => i < len ∧ f (start + i) ≠ val ∧ ∀ j < i, f (start + j) = val
  | none => ∀ j < len, f (start + j) = val

/-- The first `i` bits agree, and the next one starts the given word if there is one. -/
structure Agrees (file : RtFile) (val : Bool) (start len i block word : Nat) : Prop where
  le : i ≤ len
  word : file.Resumes start len i block word
  same : ∀ j < i, file.bit (start + j) = val

/-- The blocks that a forward scan needs: those of the bits up to the first that differs. -/
def ReadsForw (file : RtFile) (val : Bool) (start len : Nat) : Prop :=
  ∀ j < len, (∀ k < j, file.bit (start + k) = val) → file.Readable (start + j)

/-- What a forward scan has found when at most `left` bits are left to look at. -/
def Span.Forw (file : RtFile) (val : Bool) (start len left : Nat) : Span → Prop
  | .differs i => FirstDiff file.bit val start len (some i)
  | .agrees i block word => len - i ≤ left ∧ file.Agrees val start len i block word

section Word

variable {f : Nat → Bool} {lo n lastbit limit : Nat} {d : RtWord}

/-- `d` marks those of the `n` bits from `lo` on in word `q` that are not `val`. -/
structure Wdiff (f : Nat → Bool) (val : Bool) (q lo n : Nat) (d : RtWord) : Prop where
  le : lo + n ≤ 32
  bit : ∀ k < 32, (d.getLsbD k ↔ (lo ≤ k ∧ k < lo + n) ∧ f (32 * q + k) ≠ val)

theorem wdiff_word (file : RtFile) (val : Bool) (q : Nat) :
    Wdiff file.bit val q 0 32 (file.flat q ^^^ rtFill val) where
  le := le_rfl
  bit k hk := by
    rw [wdiff_getLsbD hk, bit_word q hk]
    exact (and_iff_right ⟨zero_le _, by omega⟩).symm

theorem wdiff_mask (file : RtFile) (val : Bool) (q lo : Nat) (hn : n < 32) (hle : lo + n ≤ 32) :
    Wdiff file.bit val q lo n ((file.flat q ^^^ rtFill val) &&& rtMask n lo) where
  le := hle
  bit k hk := by
    rw [BitVec.getLsbD_and, Bool.and_eq_true, wdiff_getLsbD hk, bit_word q hk, rtMask_getLsbD hn,
      decide_eq_true_eq, and_comm]
    simp only [hk, and_true]

theorem Wdiff.same (h : Wdiff f val q lo n 0#32) (hlo : 32 * q + lo ≤ x)
    (hx : x < 32 * q + lo + n) : f x = val := by
  have hle := h.le
  obtain ⟨k, rfl⟩ := Nat.exists_eq_add_of_le (show 32 * q ≤ x by omega)
  by_contra hne
  exact absurd ((h.bit k (by omega)).mpr ⟨by omega, hne⟩) (by simp)

/-- In a word that differs, `lowbit32` is the first bit that does. -/
theorem Wdiff.firstDiff (i len : Nat) (h : Wdiff f val q lo n d) (hd : d ≠ 0#32)
    (hq : start + i = 32 * q + lo) (hn : i + n ≤ len) (hsame : ∀ j < i, f (start + j) = val) :
    FirstDiff f val start len (some (i + (lowbit32 d - lo))) := by
  obtain ⟨hlt, hset, hlower⟩ := lowbit32_spec hd
  obtain ⟨hin, hne⟩ := (h.bit _ hlt).mp hset
  generalize lowbit32 d = k at hlt hin hne hlower ⊢
  refine ⟨by omega, by rwa [show start + (i + (k - lo)) = 32 * q + k by omega], fun j hj => ?_⟩
  by_cases hji : j < i
  · exact hsame j hji
  · obtain ⟨x, hx⟩ := Nat.exists_eq_add_of_le (show 32 * q ≤ start + j by omega)
    rw [hx]
    by_contra hdiff
    have hbit := (h.bit x (by omega)).mpr ⟨by omega, hdiff⟩
    rw [hlower x (by omega)] at hbit
    cases hbit

/-- In a word that agrees, the scan goes on to the next one. -/
theorem Wdiff.agrees (i len : Nat) (h : Wdiff file.bit val q lo n 0#32) (hat : file.At q block word)
    (hq : start + i = 32 * q + lo) (hn : i + n ≤ len) (hfull : i + n < len → lo + n = 32)
    (hsame : ∀ j < i, file.bit (start + j) = val) (hread : file.ReadsForw val start len) :
    ∃ b w, file.nextWord block word (i + n) len = .ok (b, w) ∧
      file.Agrees val start len (i + n) b w := by
  have hsame' : ∀ j < i + n, file.bit (start + j) = val := by
    intro j hj
    by_cases hji : j < i
    · exact hsame j hji
    · exact h.same (by omega) (by omega)
  obtain ⟨b, w, hnext, hword⟩ := nextWord_spec start len (i + n) hat (by omega)
    fun hi => hread _ hi hsame'
  exact ⟨b, w, hnext, hn, hword, hsame'⟩

theorem scanForwFirst_spec (hat : file.At (start / 32) block word)
    (hlast : lastbit = min (start % 32 + len) 32) (hread : file.ReadsForw val start len) :
    ∃ r, file.scanForwFirst start len lastbit (rtFill val) block word = .ok r ∧
      r.Forw file val start len len := by
  have hnone : ∀ j < 0, file.bit (start + j) = val := fun j hj => absurd hj (not_lt_zero _)
  unfold scanForwFirst
  rw [bit_eq_mod, hat.words]
  by_cases hbit : start % 32 = 0
  · refine ⟨.agrees 0 block word, if_neg (by simpa using hbit), by omega, zero_le _, ?_, hnone⟩
    exact fun _ => ⟨by omega, hat⟩
  simp only [if_pos hbit, if_neg (show ¬ lastbit < start % 32 by omega)]
  have h := wdiff_mask file val (start / 32) (start % 32)
    (show lastbit - start % 32 < 32 by omega) (by omega)
  by_cases hd : (file.flat (start / 32) ^^^ rtFill val) &&&
      rtMask (lastbit - start % 32) (start % 32) = 0#32
  · rw [hd] at h
    obtain ⟨b, w, hnext, hagrees⟩ := h.agrees 0 len hat (by omega) (by omega) (by omega) hnone hread
    rw [zero_add] at hnext hagrees
    refine ⟨.agrees (lastbit - start % 32) b w, ?_, Nat.sub_le _ _, hagrees⟩
    rw [if_neg (by simpa using hd), hnext]
    rfl
  · have hdiff := h.firstDiff 0 len hd (by omega) (by omega) hnone
    rw [zero_add] at hdiff
    exact ⟨_, if_pos hd, hdiff⟩

theorem scanForwWords_spec (hread : file.ReadsForw val start len) (k : Nat) :
    ∀ i block word, (len - i) / 32 = k → file.Agrees val start len i block word →
      ∃ r, file.scanForwWords len (rtFill val) i block word = .ok r ∧
        r.Forw file val start len 31 := by
  induction k with
  | zero =>
    intro i block word hk hscan
    refine ⟨.agrees i block word, ?_, by omega, hscan⟩
    rw [scanForwWords, if_neg (by omega)]
    rfl
  | succ k ih =>
    intro i block word hk hscan
    obtain ⟨hdvd, hat⟩ := hscan.word (by omega)
    rw [scanForwWords, if_pos (by omega), hat.words]
    generalize hq : (start + i) / 32 = q at hat
    have h := wdiff_word file val q
    by_cases hd : file.flat q ^^^ rtFill val = 0#32
    · rw [hd] at h
      obtain ⟨b, w, hnext, hscan'⟩ := h.agrees i len hat (by omega) (by omega) (fun _ => rfl)
        hscan.same hread
      obtain ⟨r, hrun, hr⟩ := ih (i + 32) b w (by omega) hscan'
      refine ⟨r, ?_, hr⟩
      simp only [hd, ne_eq, not_true, if_false, hnext]
      exact hrun
    · exact ⟨_, if_pos hd, h.firstDiff i len hd (by omega) (by omega) hscan.same⟩

theorem scanForwLast_spec (hi : len - i ≤ 31) (hscan : file.Agrees val start len i block word) :
    FirstDiff file.bit val start len (file.scanForwLast len (rtFill val) i block word) := by
  have hle := hscan.le
  unfold scanForwLast
  by_cases hz : len - i = 0
  · rw [if_neg (by simpa using hz)]
    exact fun j hj => hscan.same j (by omega)
  obtain ⟨hdvd, hat⟩ := hscan.word (by omega)
  rw [if_pos hz, hat.words]
  generalize hq : (start + i) / 32 = q at hat
  have h := wdiff_mask file val q 0 (show len - i < 32 by omega) (by omega)
  by_cases hd : (file.flat q ^^^ rtFill val) &&& rtMask (len - i) 0 = 0#32
  · simp only [hd, ne_eq, not_true, if_false]
    rw [hd] at h
    intro j hj
    by_cases hji : j < i
    · exact hscan.same j hji
    · exact h.same (by omega) (by omega)
  · rw [if_pos hd]
    exact h.firstDiff i len hd (by omega) (by omega) hscan.same

theorem scanForw_spec (hat : file.At (start / 32) block word)
    (hlast : lastbit = min (start % 32 + len) 32) (hread : file.ReadsForw val start len) :
    ∃ r, file.scanForw start len lastbit (rtFill val) block word = .ok r ∧
      FirstDiff file.bit val start len r := by
  obtain ⟨r, hfirst, hr⟩ := scanForwFirst_spec hat hlast hread
  unfold scanForw
  rw [hfirst, ok_bind]
  cases r with
  | differs i => exact ⟨some i, rfl, hr⟩
  | agrees i b w =>
    obtain ⟨r', hwords, hr'⟩ := scanForwWords_spec hread _ i b w rfl hr.2
    simp only [hwords, ok_bind]
    cases r' with
    | differs i' => exact ⟨some i', rfl, hr'⟩
    | agrees i' b' w' => exact ⟨_, rfl, scanForwLast_spec hr'.1 hr'.2⟩

theorem FirstDiff.forwTo {f : Nat → Bool} {r : Option Nat} (hle : start ≤ limit)
    (h : FirstDiff f (f start) start (limit - start + 1) r) :
    ForwTo f start limit (r.elim (start + (limit - start + 1)) (start + ·) - 1) := by
  have hsame : ∀ n, (∀ j < n, f (start + j) = f start) → ∀ x, start ≤ x → x < start + n →
      f x = f start := by
    intro n hn x hx hxn
    have := hn (x - start) (by omega)
    rwa [Nat.add_sub_cancel' hx] at this
  cases r with
  | none =>
    dsimp only [Option.elim]
    exact ⟨by omega, by omega, fun x hx hxn => hsame _ h x hx (by omega), .inl (by omega)⟩
  | some i =>
    obtain ⟨hi, hne, hbefore⟩ := h
    have hpos : i ≠ 0 := by
      rintro rfl
      exact hne rfl
    dsimp only [Option.elim]
    refine ⟨by omega, by omega, fun x hx hxn => hsame i hbefore x hx (by omega), .inr ?_⟩
    rwa [show start + i - 1 + 1 = start + i by omega]

theorem rtfindForw_forwTo (hle : start ≤ limit)
    (hread : file.ReadsForw (file.bit start) start (limit - start + 1)) :
    ∃ p, file.rtfindForw start limit = .ok p ∧ ForwTo file.bit start limit p := by
  have hstart : file.Readable start := hread 0 (succ_pos _) fun k hk => by omega
  obtain ⟨r, hscan, hdiff⟩ := scanForw_spec (at_rtx start) rfl hread
  simp only [rtfindForw, show file.rtbitmapReadBuf _ = .ok () from hstart, bit_eq_mod, rtWant_bit,
    hscan, ok_bind]
  have hforw := hdiff.forwTo hle
  cases r <;> exact ⟨_, rfl, hforw⟩

theorem rtcheckRange_firstDiff (start len : Nat) (val : Bool)
    (hlen : start % 32 + len < 2 ^ 32) (hstart : file.Readable start)
    (hread : file.ReadsForw val start len) :
    ∃ r, file.rtcheckRange start len val = .ok (start + r.getD len, r.isNone) ∧
      FirstDiff file.bit val start len r := by
  obtain ⟨r, hscan, hdiff⟩ := scanForw_spec (at_rtx start) rfl hread
  refine ⟨r, ?_, hdiff⟩
  simp only [rtcheckRange, show file.rtbitmapReadBuf _ = .ok () from hstart, bit_eq_mod,
    add32_eq hlen, show (if val then BitVec.allOnes 32 else 0#32) = rtFill val from rfl, hscan,
    ok_bind]
  cases r <;> rfl

/-- The `i` bits up to `start` agree, and `k` whole words are left if these are not all. -/
structure AgreesBack (file : RtFile) (start i block word k : Nat) : Prop where
  eq : i + 32 * k = start + 1
  word : 0 < k → file.At (k - 1) block word
  same : ∀ x, 32 * k ≤ x → x ≤ start → file.bit x = file.bit start

def ReadsBack (file : RtFile) (start : Nat) : Prop :=
  ∀ x ≤ start, (∀ y, x < y → y ≤ start → file.bit y = file.bit start) → file.Readable x

/-- What a backward scan has found when at most `left` words are left to look at. -/
def Span.Back (file : RtFile) (start left : Nat) : Span → Prop
  | .differs i => BackTo file.bit start (start + 1 - i)
  | .agrees i block word => ∃ k ≤ left, file.AgreesBack start i block word k

/-- In a word that differs, `highbit32` is the last bit that does. -/
theorem Wdiff.backTo (h : Wdiff f (f start) q 0 n d) (hd : d ≠ 0#32)
    (hi : i + 32 * q + n = start + 1) (hsame : ∀ x, 32 * q + n ≤ x → x ≤ start → f x = f start) :
    BackTo f start (start + 1 - (i + (n - 1 - highbit32 d))) := by
  obtain ⟨hlt, hset, hhigher⟩ := highbit32_spec hd
  obtain ⟨hin, hne⟩ := (h.bit _ hlt).mp hset
  have hle := h.le
  generalize highbit32 d = k at hlt hin hne hhigher ⊢
  have hstop : 32 * q + k ≠ start := fun heq => hne (by rw [heq])
  rw [show start + 1 - (i + (n - 1 - k)) = 32 * q + k + 1 by omega]
  refine ⟨by omega, fun x hx hxs => ?_, .inr hne⟩
  by_cases hxn : 32 * q + n ≤ x
  · exact hsame x hxn hxs
  · obtain ⟨y, rfl⟩ := Nat.exists_eq_add_of_le (show 32 * q ≤ x by omega)
    by_contra hdiff
    have hbit := (h.bit y (by omega)).mpr ⟨by omega, hdiff⟩
    rw [hhigher y (by omega)] at hbit
    cases hbit

/-- In a word that agrees, the scan goes back to the one before it. -/
theorem Wdiff.agreesBack (i : Nat) (h : Wdiff file.bit (file.bit start) q 0 n 0#32)
    (hat : file.At q block word) (hi : i + n + 32 * q = start + 1)
    (hsame : ∀ x, 32 * q + n ≤ x → x ≤ start → file.bit x = file.bit start)
    (hread : file.ReadsBack start) :
    ∃ b w, file.prevWord block word (i + n) (start + 1) = .ok (b, w) ∧
      file.AgreesBack start (i + n) b w q := by
  have hsame' : ∀ x, 32 * q ≤ x → x ≤ start → file.bit x = file.bit start := by
    intro x hx hxs
    by_cases hxn : 32 * q + n ≤ x
    · exact hsame x hxn hxs
    · exact h.same (by omega) (by omega)
  obtain ⟨b, w, hprev, hword⟩ := prevWord_spec (start + 1) (i + n) hat (by omega)
    fun hlt => hread _ (by omega) fun y hy hys => hsame' y (by omega) hys
  exact ⟨b, w, hprev, hi, fun hq => hword (by omega), hsame'⟩

theorem scanBackFirst_spec (hat : file.At (start / 32) block word) (hread : file.ReadsBack start) :
    ∃ r, file.scanBackFirst start (start + 1) (rtFill (file.bit start)) block word = .ok r ∧
      r.Back file start (start / 32 + 1) := by
  unfold scanBackFirst
  rw [bit_eq_mod, hat.words]
  by_cases hbit : start % 32 < 31
  · have h := wdiff_mask file (file.bit start) (start / 32) 0
      (show start % 32 + 1 < 32 by omega) (by omega)
    have hfirst : start % 32 + 1 - (start + 1) = 0 := by omega
    simp only [if_pos hbit, hfirst, Nat.sub_zero]
    by_cases hd : (file.flat (start / 32) ^^^ rtFill (file.bit start)) &&&
        rtMask (start % 32 + 1) 0 = 0#32
    · rw [hd] at h
      obtain ⟨b, w, hprev, hagrees⟩ := h.agreesBack 0 hat (by omega)
        (fun x hx hxs => by omega) hread
      rw [zero_add] at hprev hagrees
      refine ⟨.agrees (start % 32 + 1) b w, ?_, start / 32, le_succ _, hagrees⟩
      rw [if_neg (by simpa using hd), hprev]
      rfl
    · have hback := h.backTo (i := 0) hd (by omega) fun x hx hxs => by omega
      rw [zero_add, succ_sub_one] at hback
      exact ⟨_, if_pos hd, hback⟩
  · refine ⟨.agrees 0 block word, if_neg hbit, start / 32 + 1, le_rfl, ?_⟩
    exact ⟨by omega, fun _ => hat, fun x hx hxs => by omega⟩

theorem scanBackWords_spec (hread : file.ReadsBack start) (k : Nat) :
    ∀ i block word, file.AgreesBack start i block word k →
      ∃ r, file.scanBackWords (start + 1) (rtFill (file.bit start)) i block word = .ok r ∧
        r.Back file start 0 := by
  induction k with
  | zero =>
    intro i block word hscan
    have heq := hscan.eq
    refine ⟨.agrees i block word, ?_, 0, le_rfl, hscan⟩
    rw [scanBackWords, if_neg (by omega)]
    rfl
  | succ k ih =>
    intro i block word hscan
    have heq := hscan.eq
    have hat : file.At k block word := hscan.word (succ_pos k)
    have h := wdiff_word file (file.bit start) k
    rw [scanBackWords, if_pos (by omega), hat.words]
    by_cases hd : file.flat k ^^^ rtFill (file.bit start) = 0#32
    · rw [hd] at h
      obtain ⟨b, w, hprev, hscan'⟩ := h.agreesBack i hat (by omega) hscan.same hread
      obtain ⟨r, hrun, hr⟩ := ih (i + 32) b w hscan'
      refine ⟨r, ?_, hr⟩
      simp only [hd, ne_eq, not_true, if_false, hprev]
      exact hrun
    · exact ⟨_, if_pos hd, h.backTo hd (by omega) hscan.same⟩

theorem rtfindBack_backTo (hread : file.ReadsBack start) :
    ∃ p, file.rtfindBack start = .ok p ∧ BackTo file.bit start p := by
  have hstart : file.Readable start := hread start le_rfl fun y hy hys => by omega
  obtain ⟨r, hfirst, hr⟩ := scanBackFirst_spec (at_rtx start) hread
  simp only [rtfindBack, show file.rtbitmapReadBuf _ = .ok () from hstart, bit_eq_mod, rtWant_bit,
    hfirst, ok_bind]
  cases r with
  | differs i => exact ⟨_, rfl, hr⟩
  | agrees i b w =>
    obtain ⟨k, -, hscan⟩ := hr
    obtain ⟨r', hwords, hr'⟩ := scanBackWords_spec hread k i b w hscan
    simp only [hwords, ok_bind]
    cases r' with
    | differs i' => exact ⟨_, rfl, hr'⟩
    | agrees i' b' w' =>
      obtain ⟨k', hzero, hscan'⟩ := hr'
      obtain rfl : k' = 0 := le_zero.mp hzero
      obtain rfl : i' = start + 1 := hscan'.eq
      refine ⟨0, ?_, zero_le _, fun x _ hx => hscan'.same x (zero_le _) hx, .inl rfl⟩
      simp [scanBackLast]

end Word

section Modify

variable {lo hi n : Nat}

theorem Resumes.setword (h : file.Resumes start len i block word) (b w : Nat) (value : RtWord) :
    (file.setword b w value).Resumes start len i block word :=
  fun hi => ⟨(h hi).1, (h hi).2.eq, (h hi).2.lt⟩

theorem bit_setword (hat : file.At q block word) (value : RtWord) (x : Nat) :
    (file.setword block word value).bit x =
      if x / 32 = q then value.getLsbD (x % 32) else file.bit x := by
  have hiff : (x / 32 / file.blockwsize = block ∧ x / 32 % file.blockwsize = word) ↔
      x / 32 = q := by
    constructor
    · rintro ⟨rfl, rfl⟩
      rw [← hat.eq, div_add_mod']
    · rintro rfl
      exact ⟨hat.block_eq, hat.word_eq⟩
  unfold bit flat setword
  simp only
  split_ifs with hin hq hq
  · rfl
  · exact absurd (hiff.mp hin) hq
  · exact absurd (hiff.mpr hq) hin
  · rfl

/-- `file'` has the bits from `lo` to `hi` set to the value, and otherwise is `file`. -/
structure Changed (file file' : RtFile) (lo hi : Nat) (val : Bool) : Prop where
  frame : file' = { file with words := file'.words }
  bits : ∀ x, file'.bit x = if lo ≤ x ∧ x < hi then val else file.bit x

theorem Changed.trans {file' file'' : RtFile} {mid : Nat} (h : Changed file file' lo mid val)
    (h' : Changed file' file'' mid hi val) (hlo : lo ≤ mid) (hhi : mid ≤ hi) :
    Changed file file'' lo hi val where
  frame := by rw [h'.frame, h.frame]
  bits x := by
    rw [h'.bits, h.bits]
    split_ifs <;> first | rfl | omega

theorem changed_mask (val : Bool) (lo : Nat) (hn : n < 32) (hle : lo + n ≤ 32)
    (hat : file.At q block word) :
    Changed file (file.setword block word (rtApplyMask (file.words block word) (rtMask n lo) val))
      (32 * q + lo) (32 * q + lo + n) val where
  frame := rfl
  bits x := by
    have hx := mod_lt x (show 0 < 32 by decide)
    rw [bit_setword hat, rtApplyMask_getLsbD hx, hat.words, rtMask_getLsbD hn]
    by_cases hq : x / 32 = q
    · rw [if_pos hq]
      refine if_congr (decide_eq_true_iff.trans (by omega)) rfl ?_
      rw [bit, hq]
    · rw [if_neg hq, if_neg (by omega)]

theorem changed_fill (val : Bool) (hat : file.At q block word) (hx : x = 32 * q) :
    Changed file (file.setword block word (rtFill val)) x (32 * q + 32) val where
  frame := rfl
  bits y := by
    rw [bit_setword hat, rtFill_getLsbD (mod_lt _ (by decide))]
    exact if_congr (by omega) rfl rfl

theorem modifyFirst_spec (val : Bool) (hat : file.At (start / 32) block word)
    (hlen : start % 32 + len < 2 ^ 32) (hread : ∀ j < len, file.Readable (start + j)) :
    ∃ file' i b w, file.modifyFirst start len val block word = .ok (file', i, b, w) ∧ i ≤ len ∧
      file'.Resumes start len i b w ∧ Changed file file' start (start + i) val := by
  unfold modifyFirst
  simp only [bit_eq_mod, add32_eq hlen]
  by_cases hbit : start % 32 = 0
  · refine ⟨file, 0, block, word, if_neg (by simpa using hbit), zero_le _,
      fun _ => ⟨by omega, hat⟩, rfl, fun x => ?_⟩
    rw [if_neg (by omega)]
  generalize hlast : min (start % 32 + len) 32 = lastbit
  simp only [if_pos hbit, if_neg (show ¬ lastbit < start % 32 by omega)]
  obtain ⟨b', w', hnext, hword⟩ := nextWord_spec start len (lastbit - start % 32) hat
    (by omega) (hread _)
  have hchanged := changed_mask val (start % 32) (show lastbit - start % 32 < 32 by omega)
    (by omega) hat
  rw [show 32 * (start / 32) + start % 32 = start by omega] at hchanged
  refine ⟨_, lastbit - start % 32, b', w', ?_, by omega, ?_, hchanged⟩
  · rw [hnext]
    rfl
  · exact hword.setword _ _ _

theorem modifyWords_spec (val : Bool) (hlen : len < 2 ^ 31) (k : Nat) :
    ∀ file i block word, (len - i) / 32 = k → i ≤ len → RtFile.Resumes file start len i block word →
      (∀ j < len, file.Readable (start + j)) →
      ∃ file' i' b w, RtFile.modifyWords file len val i block word = .ok (file', i', b, w) ∧
        i ≤ i' ∧ i' ≤ len ∧ len - i' < 32 ∧ RtFile.Resumes file' start len i' b w ∧
        Changed file file' (start + i) (start + i') val := by
  induction k with
  | zero =>
    intro file i block word hk hle hat _
    refine ⟨file, i, block, word, ?_, le_rfl, hle, by omega, hat, rfl, fun x => ?_⟩
    · rw [modifyWords, if_neg (by omega)]
      rfl
    · rw [if_neg (by omega)]
  | succ k ih =>
    intro file i block word hk hle hword hread
    obtain ⟨hdvd, hat⟩ := hword (by omega)
    obtain ⟨b', w', hnext, hword'⟩ := nextWord_spec start len (i + 32) hat (by omega) (hread _)
    have hstep := changed_fill val hat (show start + i = 32 * ((start + i) / 32) by omega)
    rw [show 32 * ((start + i) / 32) + 32 = start + (i + 32) by omega] at hstep
    obtain ⟨file', i', b, w, hrun, hle', hlen', hlast, hat', hchanged⟩ :=
      ih (file.setword block word (rtFill val)) (i + 32) b' w' (by omega) (by omega)
        (hword'.setword _ _ _) hread
    refine ⟨file', i', b, w, ?_, by omega, hlen', hlast, hat',
      hstep.trans hchanged (by omega) (by omega)⟩
    rw [modifyWords, if_pos (by omega), if_neg (by omega), hnext]
    exact hrun

/-- A change sets the bits of the range and no others, if the distance does not overflow. -/
theorem rtmodifyRange_changed (val : Bool) (hlen : len < 2 ^ 31) (hstart : file.Readable start)
    (hread : ∀ j < len, file.Readable (start + j)) :
    ∃ file', file.rtmodifyRange start len val = .ok file' ∧
      Changed file file' start (start + len) val := by
  obtain ⟨file1, i1, b1, w1, hfirst, hle1, hat1, hchanged1⟩ :=
    modifyFirst_spec val (at_rtx start) (by omega) hread
  have hread1 : ∀ j < len, file1.Readable (start + j) := by
    rw [hchanged1.frame]
    exact hread
  obtain ⟨file2, i2, b2, w2, hwords, hle, hle2, hlast, hat2, hchanged2⟩ :=
    modifyWords_spec val hlen _ file1 i1 b1 w1 rfl hle1 hat1 hread1
  have hchanged := hchanged1.trans hchanged2 (by omega) (by omega)
  simp only [rtmodifyRange, show file.rtbitmapReadBuf _ = .ok () from hstart, hfirst, hwords,
    ok_bind]
  by_cases hz : len - i2 = 0
  · rw [if_neg (by simpa using hz)]
    rw [show i2 = len by omega] at hchanged
    exact ⟨file2, rfl, hchanged⟩
  · obtain ⟨hdvd, hat⟩ := hat2 (by omega)
    rw [if_pos hz]
    have hmask := changed_mask val 0 hlast (by omega) hat
    rw [show 32 * ((start + i2) / 32) + 0 = start + i2 by omega,
      show start + i2 + (len - i2) = start + len by omega] at hmask
    exact ⟨_, rfl, hchanged.trans hmask (by omega) (by omega)⟩

end Modify

/-- The primitives agree with the bits of the bitmap. The blocks that have to be readable are those
of the bits the answer depends on, and every other block may be unreadable. -/
theorem rtbitmap_words_agree (file : RtFile) :
    (∀ start, file.ReadsBack start → ∃ r, file.rtfindBack start = .ok r ∧
      IsLeast {r | r ≤ start ∧ ∀ x, r ≤ x → x ≤ start → file.bit x = file.bit start} r) ∧
    (∀ start limit, start ≤ limit → file.ReadsForw (file.bit start) start (limit - start + 1) →
      ∃ r, file.rtfindForw start limit = .ok r ∧ IsGreatest
        {r | start ≤ r ∧ r ≤ limit ∧ ∀ x, start ≤ x → x ≤ r → file.bit x = file.bit start} r) ∧
    (∀ start len val, start % 32 + len < 2 ^ 32 → file.Readable start →
      file.ReadsForw val start len → ∃ new stat, file.rtcheckRange start len val = .ok (new, stat) ∧
        (stat = true ↔ ∀ x, start ≤ x → x < start + len → file.bit x = val) ∧
        (stat = false → IsLeast {x | start ≤ x ∧ x < start + len ∧ file.bit x ≠ val} new)) ∧
    ∀ start len val, len < 2 ^ 31 → file.Readable start →
      (∀ x, start ≤ x → x < start + len → file.Readable x) →
      ∃ file', file.rtmodifyRange start len val = .ok file' ∧
        ∀ x, file'.bit x = if start ≤ x ∧ x < start + len then val else file.bit x := by
  refine ⟨fun start hread => ?_, fun start limit hle hread => ?_,
    fun start len val hlen hs hread => ?_, fun start len val hlen hs hread => ?_⟩
  · obtain ⟨p, hrun, hback⟩ := rtfindBack_backTo hread
    refine ⟨p, hrun, ⟨hback.le, hback.same⟩, fun r hr => ?_⟩
    rcases hback.stop with hzero | hne
    · omega
    · by_contra hlt
      exact hne (hr.2 (p - 1) (by omega) (by have := hback.le; omega))
  · obtain ⟨p, hrun, hforw⟩ := rtfindForw_forwTo hle hread
    refine ⟨p, hrun, ⟨hforw.le, hforw.le_limit, hforw.same⟩, fun r hr => ?_⟩
    rcases hforw.stop with hlimit | hne
    · exact hlimit ▸ hr.2.1
    · by_contra hlt
      exact hne (hr.2.2 (p + 1) (by have := hforw.le; omega) (by omega))
  · obtain ⟨r, hrun, hdiff⟩ := rtcheckRange_firstDiff start len val hlen hs hread
    refine ⟨_, _, hrun, ?_⟩
    cases r with
    | none =>
      refine ⟨iff_of_true rfl fun x hx hxn => ?_, fun h => by cases h⟩
      have := hdiff (x - start) (by omega)
      rwa [Nat.add_sub_cancel' hx] at this
    | some i =>
      obtain ⟨hi, hne, hbefore⟩ := hdiff
      refine ⟨iff_of_false Bool.false_ne_true fun hall => ?_, fun _ =>
        ⟨⟨?_, ?_, hne⟩, fun x hx => ?_⟩⟩
      · exact hne (hall (start + i) (by omega) (by omega))
      · exact le_add_right _ _
      · exact Nat.add_lt_add_left hi _
      · by_contra hlt
        have := hbefore (x - start) (by have := hx.1; simp only [Option.getD_some] at hlt; omega)
        rw [Nat.add_sub_cancel' hx.1] at this
        exact hx.2.2 this
  · obtain ⟨file', hrun, hchanged⟩ := rtmodifyRange_changed val hlen hs
      fun j hj => hread (start + j) (by omega) (by omega)
    exact ⟨file', hrun, hchanged.bits⟩

def sampleRtFile : RtFile where
  hasRtgroups := true
  blockwsize := 3
  blkbitLog := 0
  rbmblocks := 7
  words := fun _ w => if w = 1 then ~~~256#32 else BitVec.allOnes 32
  readErr := fun b => if b = 0 then none else some .eio
  blockwsize_pos := by decide
  blkbitLog_eq := fun h => by cases h

theorem sampleRtFile_readable (hx : x < 96) : sampleRtFile.Readable x := by
  rw [Readable, rtxToRbmblock_div, show x / 32 / sampleRtFile.blockwsize = 0 from
    div_eq_of_lt (show x / 32 < 3 by omega)]
  rfl

theorem rtbitmap_words_agree_sample : (∃ r, sampleRtFile.rtfindForw 33 95 = .ok r) ∧
      ∃ file', sampleRtFile.rtmodifyRange 33 63 false = .ok file' ∧
        ∀ x, file'.bit x = if 33 ≤ x ∧ x < 96 then false else sampleRtFile.bit x := by
  obtain ⟨-, hforw, -, hmodify⟩ := rtbitmap_words_agree sampleRtFile
  obtain ⟨r, hrun, -⟩ := hforw 33 95 (by decide) fun j hj _ =>
    sampleRtFile_readable (by omega)
  exact ⟨⟨r, hrun⟩, hmodify 33 63 false (by decide) (sampleRtFile_readable (by decide))
    fun x _ hx => sampleRtFile_readable hx⟩

def freeRtFile : RtFile where
  hasRtgroups := true
  blockwsize := 3
  blkbitLog := 0
  rbmblocks := 2 ^ 32
  words := fun _ _ => BitVec.allOnes 32
  readErr := fun _ => none
  blockwsize_pos := by decide
  blkbitLog_eq := fun h => by cases h

theorem freeRtFile_readable (hx : x < 2 ^ 33) : freeRtFile.Readable x := by
  have hblock : x / 32 / 3 < 2 ^ 32 := by omega
  rw [Readable, rtxToRbmblock_div]
  exact if_neg (not_le.mpr hblock)

/-- With a length close to 2^32 the sum with the first bit wraps around, and the mask of the first
word is shifted by a negative count. -/
theorem rtcheckRange_len_wraps : (∀ x < 31 + (2 ^ 32 - 1), freeRtFile.Readable x) ∧
      freeRtFile.rtcheckRange 31 (2 ^ 32 - 1) true = .error .undefined :=
  ⟨fun x hx => freeRtFile_readable (by omega), rfl⟩

theorem modifyWords_overflows (val : Bool) (hlen : 2 ^ 31 ≤ len) (k : Nat) :
    ∀ file i block word, i + 32 * (k + 1) = 2 ^ 31 → RtFile.Resumes file start len i block word →
      (∀ j < len, file.Readable (start + j)) →
      RtFile.modifyWords file len val i block word = .error .undefined := by
  induction k with
  | zero =>
    intro file i block word hi _ _
    rw [modifyWords, if_pos (by omega), if_pos (by omega)]
  | succ k ih =>
    intro file i block word hi hword hread
    obtain ⟨hdvd, hat⟩ := hword (by omega)
    obtain ⟨b, w, hnext, hword'⟩ := nextWord_spec start len (i + 32) hat (by omega) (hread _)
    rw [modifyWords, if_pos (by omega), if_neg (by omega), hnext]
    exact ih (file.setword block word (rtFill val)) (i + 32) b w (by omega)
      (hword'.setword _ _ _) hread

theorem rtmodifyRange_overflows (val : Bool) (hlen : 2 ^ 31 ≤ len) (hdvd : 32 ∣ start)
    (hread : ∀ j < len, file.Readable (start + j)) :
    file.rtmodifyRange start len val = .error .undefined := by
  have hstart : file.Readable start := hread 0 (by omega)
  have hfirst :
      file.modifyFirst start len val (file.rtxToRbmblock start) (file.rtxToRbmword start) =
        .ok (file, 0, file.rtxToRbmblock start, file.rtxToRbmword start) := by
    unfold modifyFirst
    rw [bit_eq_mod, if_neg (by omega)]
    rfl
  have hwords := modifyWords_overflows val hlen (2 ^ 26 - 1) file 0 _ _ (by omega)
    (fun _ => ⟨hdvd, at_rtx start⟩) hread
  simp only [rtmodifyRange, show file.rtbitmapReadBuf _ = .ok () from hstart, hfirst, hwords,
    ok_bind]
  rfl

theorem rtmodifyRange_len_overflows : (∀ x < 2 ^ 31, freeRtFile.Readable x) ∧
      freeRtFile.rtmodifyRange 0 (2 ^ 31) true = .error .undefined :=
  ⟨fun x hx => freeRtFile_readable (by omega),
    rtmodifyRange_overflows true le_rfl (dvd_zero 32) fun j hj => freeRtFile_readable (by omega)⟩

end RtFile

end Xfs
