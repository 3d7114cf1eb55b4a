import Mathlib.Data.BitVec
import Mathlib.Tactic

/-! # Bitmaps packed into bytes -/

namespace Osiris

/-- An array of bytes read as an array of bits, bit `i` being bit `i % 8` of byte `i / 8`. -/
abbrev Bitmap := ℕ → BitVec 8

namespace Bitmap

def mask (i : ℕ) : BitVec 8 :=
  1#8 <<< (i % 8)

def get (b : Bitmap) (i : ℕ) : Bool :=
  b (i / 8) &&& mask i != 0#8

def set (b : Bitmap) (i : ℕ) : Bitmap :=
  Function.update b (i / 8) (b (i / 8) ||| mask i)

def clear (b : Bitmap) (i : ℕ) : Bitmap :=
  Function.update b (i / 8) (b (i / 8) &&& ~~~ mask i)

theorem getLsbD_mask (i j : ℕ) (hj : j < 8) : (mask i).getLsbD j = decide (j = i % 8) := by
  have hi : i % 8 < 8 := Nat.mod_lt i (by norm_num)
  unfold mask
  generalize i % 8 = k at hi
  interval_cases k <;> interval_cases j <;> rfl

theorem get_eq_getLsbD (b : Bitmap) (i : ℕ) : get b i = (b (i / 8)).getLsbD (i % 8) := by
  have hi : i % 8 < 8 := Nat.mod_lt i (by norm_num)
  unfold get
  rw [Bool.eq_iff_iff, bne_iff_ne]
  constructor
  · intro hne
    by_contra hbit
    apply hne
    apply BitVec.eq_of_getLsbD_eq
    intro j hj
    rw [BitVec.getLsbD_and, getLsbD_mask i j hj]
    by_cases hji : j = i % 8
    · subst hji
      simpa using hbit
    · simp [hji]
  · intro hbit hzero
    have hget := congrArg (fun v => BitVec.getLsbD v (i % 8)) hzero
    simp [BitVec.getLsbD_and, getLsbD_mask i (i % 8) hi, hbit] at hget

/-- Two bit positions in the same byte coincide when their remainders do. -/
theorem index_eq_iff (i j : ℕ) : j = i ↔ j / 8 = i / 8 ∧ j % 8 = i % 8 := by
  omega

@[simp] theorem get_set (b : Bitmap) (i j : ℕ) : get (set b i) j = (decide (j = i) || get b j) := by
  have hj : j % 8 < 8 := Nat.mod_lt j (by norm_num)
  rw [get_eq_getLsbD, get_eq_getLsbD, set]
  by_cases hbyte : j / 8 = i / 8
  · rw [hbyte, Function.update_self, BitVec.getLsbD_or, getLsbD_mask i _ hj]
    simp [index_eq_iff i j, hbyte, Bool.or_comm]
  · rw [Function.update_of_ne hbyte]
    simp [index_eq_iff i j, hbyte]

@[simp] theorem get_clear (b : Bitmap) (i j : ℕ) :
    get (clear b i) j = (!decide (j = i) && get b j) := by
  have hj : j % 8 < 8 := Nat.mod_lt j (by norm_num)
  rw [get_eq_getLsbD, get_eq_getLsbD, clear]
  by_cases hbyte : j / 8 = i / 8
  · rw [hbyte, Function.update_self, BitVec.getLsbD_and, BitVec.getLsbD_not, getLsbD_mask i _ hj]
    simp [index_eq_iff i j, hbyte, Bool.and_comm, hj]
  · rw [Function.update_of_ne hbyte]
    simp [index_eq_iff i j, hbyte]

/-- Bitmaps with the same bits are the same bitmap. -/
theorem ext_get {b c : Bitmap} (h : ∀ i, get b i = get c i) : b = c := by
  funext k
  apply BitVec.eq_of_getLsbD_eq
  intro j hj
  have hk := h (8 * k + j)
  rw [get_eq_getLsbD, get_eq_getLsbD] at hk
  have hdiv : (8 * k + j) / 8 = k := by omega
  have hmod : (8 * k + j) % 8 = j := by omega
  rwa [hdiv, hmod] at hk

theorem set_of_get {b : Bitmap} {i : ℕ} (h : get b i = true) : set b i = b := by
  refine ext_get fun j => ?_
  by_cases hj : j = i
  · simp [hj, h]
  · simp [hj]

end Bitmap

end Osiris
