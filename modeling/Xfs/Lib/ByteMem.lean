import Xfs.Lib.ByteBuf

/-! Memory as a function from addresses to bytes, with big-endian words of two,
four and eight bytes in it. -/
namespace Xfs

abbrev ByteMem := Nat → UInt8

def get16 (m : ByteMem) (o : Nat) : Nat := (m o).toNat * 256 + (m (o + 1)).toNat

def get32 (m : ByteMem) (o : Nat) : Nat := get16 m o * 2 ^ 16 + get16 m (o + 2)

def get64 (m : ByteMem) (o : Nat) : Nat := get32 m o * 2 ^ 32 + get32 m (o + 4)

def put16 (m : ByteMem) (o v : Nat) : ByteMem := fun a =>
  if a = o then UInt8.ofNat (v / 256) else if a = o + 1 then UInt8.ofNat v else m a

variable {m m' : ByteMem} {o o' v : Nat}

theorem get16_put16 (h : v < 2 ^ 16) : get16 (put16 m o v) o = v := by
  simp only [get16, put16, if_true, Nat.succ_ne_self, if_false, UInt8.toNat_ofNat']
  omega

theorem put16_of_outside {a : Nat} (h : a < o ∨ o + 2 ≤ a) : put16 m o v a = m a := by
  rw [put16, if_neg (by omega), if_neg (by omega)]

theorem get16_congr (h : ∀ a, o ≤ a → a < o + 2 → m a = m' a) : get16 m o = get16 m' o := by
  rw [get16, get16, h o (by omega) (by omega), h (o + 1) (by omega) (by omega)]

theorem get64_congr (h : ∀ a, o ≤ a → a < o + 8 → m a = m' a) : get64 m o = get64 m' o := by
  have hword : ∀ a, o ≤ a → a + 2 ≤ o + 8 → get16 m a = get16 m' a :=
    fun a hlo hhi => get16_congr fun b hb hb' => h b (by omega) (by omega)
  simp only [get64, get32]
  rw [hword o (by omega) (by omega), hword (o + 2) (by omega) (by omega),
    hword (o + 4) (by omega) (by omega), hword (o + 4 + 2) (by omega) (by omega)]

theorem get16_put16_of_disjoint (h : o' + 2 ≤ o ∨ o + 2 ≤ o') :
    get16 (put16 m o v) o' = get16 m o' :=
  get16_congr fun _ _ _ => put16_of_outside (by omega)

theorem get16_lt_of_get64 {n : Nat} (h : get64 m o < n * 2 ^ 48) : get16 m o < n := by
  by_contra hle
  unfold get64 get32 at h
  omega

end Xfs
