import Mathlib.Data.Nat.Digits.Lemmas
import Mathlib.Tactic

/-! # Positional numerals

Digits are listed as they are written, the most significant one first. -/

namespace Osiris.Numerals

/-- The number that a list of digits stands for. -/
def value (b : ℕ) (digits : List ℕ) : ℕ :=
  digits.foldl (fun v d => v * b + d) 0

/-- The digits of a number without leading zeros, one zero for zero. -/
def numeral (b n : ℕ) : List ℕ :=
  if n = 0 then [0] else (Nat.digits b n).reverse

/-- The digits of a number with as many leading zeros as `width` takes. -/
def padded (b width n : ℕ) : List ℕ :=
  List.replicate (width - (Nat.digits b n).length) 0 ++ (Nat.digits b n).reverse

variable {b n width : ℕ}

theorem value_append_singleton (b : ℕ) (digits : List ℕ) (d : ℕ) :
    value b (digits ++ [d]) = value b digits * b + d := by
  simp [value]

theorem value_reverse (b : ℕ) (digits : List ℕ) :
    value b digits.reverse = Nat.ofDigits b digits := by
  induction digits with
  | nil => rfl
  | cons d digits ih =>
      rw [List.reverse_cons, value_append_singleton, ih, Nat.ofDigits_cons]
      ring

theorem value_replicate_zero_append (b zeros : ℕ) (digits : List ℕ) :
    value b (List.replicate zeros 0 ++ digits) = value b digits := by
  have hzeros : (List.replicate zeros 0).foldl (fun v d => v * b + d) 0 = 0 := by
    induction zeros with
    | zero => rfl
    | succ zeros ih => simpa [List.replicate_succ] using ih
  rw [value, List.foldl_append, hzeros]
  rfl

theorem value_numeral (b n : ℕ) : value b (numeral b n) = n := by
  unfold numeral
  split
  · rename_i hzero
    rw [hzero]
    simp [value]
  · rw [value_reverse, Nat.ofDigits_digits]

theorem value_padded (b width n : ℕ) : value b (padded b width n) = n := by
  rw [padded, value_replicate_zero_append, value_reverse, Nat.ofDigits_digits]

theorem numeral_of_pos (hn : 0 < n) : numeral b n = (Nat.digits b n).reverse :=
  if_neg hn.ne'

theorem numeral_lt (hb : 1 < b) : ∀ d ∈ numeral b n, d < b := by
  intro d hd
  unfold numeral at hd
  split at hd
  · rw [List.mem_singleton.mp hd]
    omega
  · exact Nat.digits_lt_base hb (List.mem_reverse.mp hd)

theorem padded_lt (hb : 1 < b) : ∀ d ∈ padded b width n, d < b := by
  intro d hd
  rcases List.mem_append.mp hd with hd | hd
  · rw [List.eq_of_mem_replicate hd]
    omega
  · exact Nat.digits_lt_base hb (List.mem_reverse.mp hd)

/-- Only zero starts with a zero. -/
theorem head?_numeral (hn : n ≠ 0) : (numeral b n).head? ≠ some 0 := by
  have hne := Nat.digits_ne_nil_iff_ne_zero (b := b).mpr hn
  rw [numeral, if_neg hn, List.head?_reverse, List.getLast?_eq_some_getLast hne]
  simpa using Nat.getLast_digit_ne_zero b hn

theorem length_numeral_le (hb : 1 < b) {k : ℕ} (hk : 0 < k) (hn : n < b ^ k) :
    (numeral b n).length ≤ k := by
  unfold numeral
  split
  · exact hk
  · rw [List.length_reverse]
    exact (Nat.digits_length_le_iff hb n).mpr hn

theorem length_padded (hb : 1 < b) (hn : n < b ^ width) : (padded b width n).length = width := by
  have hle := (Nat.digits_length_le_iff hb n).mpr hn
  unfold padded
  simp
  omega

end Osiris.Numerals
