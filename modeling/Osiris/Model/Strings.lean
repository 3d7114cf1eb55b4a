import Osiris.Library.ByteMemory

/-! # Memory and string routines of `sys/lib`

The length parameter is a C `int`: a loop `for (int i = 0; i < n; i++)` makes `n` rounds when
`n` is positive and none otherwise. -/

namespace Osiris.Strings

open ByteMemory

/-- The rounds of a loop that counts an `int` up from zero to `n`. -/
def rounds (n : BitVec 32) : ℕ :=
  n.toInt.toNat

def memset (m : Mem) (s : Word) (c n : BitVec 32) : Mem :=
  fillUp m s (c.setWidth 8) (rounds n)

def memcpy (m : Mem) (dest src : Word) (n : BitVec 32) : Mem :=
  copyUp m dest src (rounds n)

/-- Nothing is moved when the two addresses are the same. -/
def memmove (m : Mem) (dest src : Word) (n : BitVec 32) : Mem :=
  if src > dest then copyUp m dest src (rounds n)
  else if src < dest then copyDown m dest src (rounds n)
  else m

/-- `kstrcmp` of a string in memory and one that is kept in a table, which is given by its
characters before the NUL. -/
def kstrcmp (m : Mem) (s1 : Word) : List Byte → ℤ
  | [] => (m s1).toNat
  | c :: s2 =>
      if m s1 ≠ 0#8 ∧ m s1 = c then kstrcmp m (s1 + 1#64) s2
      else ((m s1).toNat : ℤ) - c.toNat

theorem rounds_le (n : BitVec 32) : rounds n ≤ 2 ^ 64 := by
  have h := BitVec.toInt_lt (x := n)
  unfold rounds
  omega

theorem rounds_of_nonneg {n : BitVec 32} (hn : 0 ≤ n.toInt) : rounds n = n.toNat := by
  have hlt := n.isLt
  unfold rounds
  rw [BitVec.toInt_eq_toNat_cond] at hn ⊢
  split at hn <;> split <;> omega

theorem rounds_ofNat {n : ℕ} (hn : n < 2 ^ 31) : rounds (BitVec.ofNat 32 n) = n := by
  unfold rounds
  rw [BitVec.toInt_eq_toNat_cond, BitVec.toNat_ofNat, Nat.mod_eq_of_lt (by omega),
    if_pos (by omega), Int.toNat_natCast]

theorem signExtend_ofNat {n : ℕ} (hn : n < 2 ^ 31) :
    (BitVec.ofNat 32 n).signExtend 64 = BitVec.ofNat 64 n := by
  have hmsb : (BitVec.ofNat 32 n).msb = false := by
    rw [BitVec.msb_eq_false_iff_two_mul_lt, BitVec.toNat_ofNat]
    omega
  rw [BitVec.signExtend_eq_setWidth_of_msb_false hmsb]
  apply BitVec.eq_of_toNat_eq
  rw [BitVec.toNat_setWidth, BitVec.toNat_ofNat, BitVec.toNat_ofNat]
  omega

theorem rounds_pageSize : rounds 4096#32 = 4096 :=
  rounds_ofNat (by norm_num)

end Osiris.Strings
