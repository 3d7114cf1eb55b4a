import Mathlib.Data.BitVec
import Mathlib.Tactic

/-! # Words combined with their own shifts

Taking the exclusive or of a word with itself, shifted by at least one place, loses nothing. -/

namespace Osiris.Xorshift

variable {w k : ℕ} {x y : BitVec w}

theorem eq_zero_of_ushiftRight_eq (hk : 0 < k) (hfix : x >>> k = x) : x = 0#w := by
  have hnat := congrArg BitVec.toNat hfix
  rw [BitVec.toNat_ushiftRight, Nat.shiftRight_eq_div_pow] at hnat
  by_contra hne
  have hpos : 0 < x.toNat := Nat.pos_of_ne_zero fun hzero => hne (BitVec.eq_of_toNat_eq hzero)
  have hlt : x.toNat / 2 ^ k < x.toNat := Nat.div_lt_self hpos (Nat.one_lt_two_pow hk.ne')
  omega

theorem eq_zero_of_shiftLeft_eq (hk : 0 < k) (hfix : x <<< k = x) : x = 0#w := by
  have hmany : ∀ n, x <<< (k * n) = x := by
    intro n
    induction n with
    | zero => simp
    | succ n ih => rw [Nat.mul_succ, BitVec.shiftLeft_add, ih, hfix]
  rw [← hmany w]
  exact BitVec.shiftLeft_eq_zero (Nat.le_mul_of_pos_left w hk)

theorem xor_ushiftRight_injective (hk : 0 < k) :
    Function.Injective fun x : BitVec w => x ^^^ (x >>> k) := by
  intro x y hxy
  refine BitVec.xor_eq_zero_iff.mp (eq_zero_of_ushiftRight_eq hk ?_)
  rw [BitVec.ushiftRight_xor_distrib, ← BitVec.xor_eq_zero_iff]
  have hzero := BitVec.xor_eq_zero_iff.mpr hxy
  dsimp only at hzero
  rw [← hzero]
  ac_rfl

theorem xor_shiftLeft_injective (hk : 0 < k) :
    Function.Injective fun x : BitVec w => x ^^^ (x <<< k) := by
  intro x y hxy
  refine BitVec.xor_eq_zero_iff.mp (eq_zero_of_shiftLeft_eq hk ?_)
  rw [BitVec.shiftLeft_xor_distrib, ← BitVec.xor_eq_zero_iff]
  have hzero := BitVec.xor_eq_zero_iff.mpr hxy
  dsimp only at hzero
  rw [← hzero]
  ac_rfl

theorem bijective_of_injective {f : BitVec w → BitVec w} (hf : Function.Injective f) :
    Function.Bijective f :=
  haveI : Finite (BitVec w) := Finite.of_injective BitVec.toFin fun _ _ => BitVec.eq_of_toFin_eq
  Finite.injective_iff_bijective.mp hf

end Osiris.Xorshift
