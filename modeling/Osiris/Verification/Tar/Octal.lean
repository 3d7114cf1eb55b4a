import Osiris.Library.Numerals
import Osiris.Verification.Tar.Advance

/-! # Does `oct2bin` read every number of a header?

In a field, the digits of a number may end at a NUL, at a space or with the field. -/

namespace Osiris.Tar

open ByteMemory Numerals

/-! ## Fields -/

/-- The character of an octal digit. -/
def digitChar (d : ℕ) : Byte :=
  BitVec.ofNat 8 (0x30 + d)

/-- The field encodes the number: leading zeros, the digits of the number, and NULs and spaces up to
its end. -/
def Encodes (bytes : List Byte) (v : ℕ) : Prop :=
  ∃ zeros rest, bytes = (List.replicate zeros 0 ++ numeral 8 v).map digitChar ++ rest ∧
    ∀ c ∈ rest, c = 0#8 ∨ c = 0x20#8

def isDigit (c : Byte) : Bool :=
  0x30#8 ≤ c && c ≤ 0x37#8

/-- The first character that is not a digit is a space. -/
def EndsAtSpace (bytes : List Byte) : Prop :=
  (bytes.dropWhile isDigit).head? = some 0x20#8

instance (bytes : List Byte) : Decidable (EndsAtSpace bytes) :=
  inferInstanceAs (Decidable (_ = _))

/-! ## What `oct2bin` reads -/

/-- The loop of `oct2bin` from the `i`-th character on, with the indices of the characters read. -/
def oct2binTraceLoop (m : Mem) (str : Word) : ℕ → ℕ → Word → Word × List ℕ
  | 0, _, n => (n, [])
  | left + 1, i, n =>
      let c := m (str + BitVec.ofNat 64 i)
      if c = 0#8 then (n, [i])
      else
        let (n, indices) := oct2binTraceLoop m str left (i + 1) ((n <<< 3) + octalDigit c)
        (n, i :: indices)

def oct2binTrace (m : Mem) (str : Word) (size : ℕ) : Word × List ℕ :=
  oct2binTraceLoop m str size 0 0#64

theorem oct2binTraceLoop_fst (m : Mem) (str : Word) (left i : ℕ) (n : Word) :
    (oct2binTraceLoop m str left i n).1 =
      oct2binLoop ((List.range' i left).map fun i => m (str + BitVec.ofNat 64 i)) n := by
  induction left generalizing i n with
  | zero => rfl
  | succ left ih =>
      rw [oct2binTraceLoop, List.range'_succ, List.map_cons, oct2binLoop]
      by_cases hc : m (str + BitVec.ofNat 64 i) = 0#8
      · simp [hc]
      · simpa [hc] using ih (i + 1) _

/-- The trace comes with the number that `oct2bin` returns. -/
theorem oct2binTrace_fst (m : Mem) (str : Word) (size : ℕ) :
    (oct2binTrace m str size).1 = oct2bin m str size := by
  rw [oct2binTrace, oct2binTraceLoop_fst, oct2bin, field, List.range_eq_range']

theorem lt_of_mem_oct2binTraceLoop {m : Mem} {str : Word} {left i j : ℕ} {n : Word}
    (hj : j ∈ (oct2binTraceLoop m str left i n).2) : j < i + left := by
  induction left generalizing i n with
  | zero => simp [oct2binTraceLoop] at hj
  | succ left ih =>
      rw [oct2binTraceLoop] at hj
      by_cases hc : m (str + BitVec.ofNat 64 i) = 0#8
      · simp only [hc, if_true, List.mem_singleton] at hj
        omega
      · simp only [hc, if_false, List.mem_cons] at hj
        cases hj with
        | inl hfirst => omega
        | inr hrest =>
            have hlt := ih hrest
            omega

/-! ## The number that is read -/

theorem octalValue_append (front back : List Byte) :
    octalValue (front ++ back) = octalValue front * 8 ^ back.length + octalValue back := by
  induction front with
  | nil => simp [octalValue]
  | cons c front ih =>
      rw [List.cons_append, octalValue, octalValue, ih, List.length_append, pow_add]
      ring

theorem toInt_digitChar {d : ℕ} (hd : d < 8) : (digitChar d).toInt - 0x30 = d := by
  interval_cases d <;> rfl

/-- Digits are read as the number they stand for. -/
theorem octalValue_digits {digits : List ℕ} (hdigits : ∀ d ∈ digits, d < 8) :
    octalValue (digits.map digitChar) = value 8 digits := by
  induction digits using List.reverseRecOn with
  | nil => rfl
  | append_singleton digits d ih =>
      have hd : d < 8 := hdigits d (by simp)
      have hfront := ih fun d hd => hdigits d (List.mem_append_left _ hd)
      rw [List.map_append, octalValue_append, hfront, value_append_singleton]
      simp [octalValue, toInt_digitChar hd]

/-- Spaces are read as digits of -16. -/
theorem octalValue_spaces (k : ℕ) :
    7 * octalValue (List.replicate k 0x20#8) = -16 * (8 ^ k - 1) := by
  induction k with
  | zero => rfl
  | succ k ih =>
      have hspace : (0x20#8).toInt - 0x30 = -16 := rfl
      rw [List.replicate_succ, octalValue, hspace, List.length_replicate, mul_add, ih, pow_succ]
      ring

/-- With spaces behind its digits, no number is read as what it is: `v * 7 = 16` has no solution. -/
theorem octalValue_digits_spaces_ne (v : ℤ) {k : ℕ} (hk : 0 < k) :
    v * 8 ^ k + octalValue (List.replicate k 0x20#8) ≠ v := by
  intro heq
  have hspaces := octalValue_spaces k
  have hpow : (1 : ℤ) < 8 ^ k := one_lt_pow₀ (by norm_num) hk.ne'
  have hfactor : (7 * v - 16) * (8 ^ k - 1) = 0 := by linear_combination 7 * heq - hspaces
  rcases mul_eq_zero.mp hfactor with hv | hk
  · omega
  · omega

/-! ## Encoded numbers -/

section Encoded

variable {bytes rest : List Byte} {digits : List ℕ} {v : ℕ}

theorem digitChar_isDigit {d : ℕ} (hd : d < 8) : isDigit (digitChar d) = true := by
  interval_cases d <;> rfl

theorem forall_mem_digits {P : Byte → Prop} (hP : ∀ d < 8, P (digitChar d)) (zeros v : ℕ) :
    ∀ c ∈ (List.replicate zeros 0 ++ numeral 8 v).map digitChar, P c := by
  intro c hc
  obtain ⟨d, hd, rfl⟩ := List.mem_map.mp hc
  apply hP
  rcases List.mem_append.mp hd with hzero | hdigit
  · rw [List.eq_of_mem_replicate hzero]
    norm_num
  · exact numeral_lt (by norm_num) d hdigit

/-- Behind the digits there are some spaces before the first NUL. -/
theorem takeWhile_ne_zero (hrest : ∀ c ∈ rest, c = 0#8 ∨ c = 0x20#8) :
    rest.takeWhile (· ≠ 0#8) =
      List.replicate (rest.takeWhile (· ≠ 0#8)).length 0x20#8 := by
  refine List.eq_replicate_of_mem fun c hc => ?_
  have hne : c ≠ 0#8 := by simpa using List.mem_takeWhile_imp hc
  exact (hrest c ((List.takeWhile_subset _) hc)).resolve_left hne

theorem length_takeWhile_pos (hrest : ∀ c ∈ rest, c = 0#8 ∨ c = 0x20#8) :
    0 < (rest.takeWhile (· ≠ 0#8)).length ↔ rest.head? = some 0x20#8 := by
  cases rest with
  | nil => simp
  | cons c rest =>
      rcases hrest c List.mem_cons_self with rfl | rfl
      · simp
      · simp

theorem endsAtSpace_iff (zeros v : ℕ) (hrest : ∀ c ∈ rest, c = 0#8 ∨ c = 0x20#8) :
    EndsAtSpace ((List.replicate zeros 0 ++ numeral 8 v).map digitChar ++ rest) ↔
      rest.head? = some 0x20#8 := by
  have hdigits := forall_mem_digits (P := fun c => isDigit c = true)
    (fun d hd => digitChar_isDigit hd) zeros v
  rw [EndsAtSpace, List.dropWhile_append_of_pos hdigits]
  cases rest with
  | nil => rfl
  | cons c rest =>
      rcases hrest c List.mem_cons_self with rfl | rfl
      · rfl
      · rfl

/-- The number in a field whose digits end at `k` spaces. -/
theorem fieldValue_digits (zeros v : ℕ) (hrest : ∀ c ∈ rest, c = 0#8 ∨ c = 0x20#8) :
    fieldValue ((List.replicate zeros 0 ++ numeral 8 v).map digitChar ++ rest) =
      v * 8 ^ (rest.takeWhile (· ≠ 0#8)).length +
        octalValue (List.replicate (rest.takeWhile (· ≠ 0#8)).length 0x20#8) := by
  have hnonzero := forall_mem_digits (P := fun c => decide (c ≠ 0#8) = true)
    (fun d hd => by interval_cases d <;> rfl) zeros v
  have hdigits : ∀ d ∈ List.replicate zeros 0 ++ numeral 8 v, d < 8 := by
    intro d hd
    rcases List.mem_append.mp hd with hzero | hdigit
    · rw [List.eq_of_mem_replicate hzero]
      norm_num
    · exact numeral_lt (by norm_num) d hdigit
  rw [fieldValue, List.takeWhile_append_of_pos hnonzero, octalValue_append,
    octalValue_digits hdigits, value_replicate_zero_append, value_numeral,
    ← takeWhile_ne_zero hrest]

/-- The number in a field is the one encoded there unless its digits end at a space. -/
theorem Encodes.fieldValue_eq_iff (h : Encodes bytes v) :
    fieldValue bytes = v ↔ ¬ EndsAtSpace bytes := by
  obtain ⟨zeros, rest, rfl, hrest⟩ := h
  rw [endsAtSpace_iff zeros v hrest, ← length_takeWhile_pos hrest, fieldValue_digits zeros v hrest]
  constructor
  · intro heq hpos
    exact octalValue_digits_spaces_ne v hpos heq
  · intro hnone
    rw [Nat.eq_zero_of_not_pos hnone]
    simp [octalValue]

theorem Encodes.lt (h : Encodes bytes v) (hlength : bytes.length ≤ 12) : (v : ℤ) < 2 ^ 41 := by
  obtain ⟨zeros, rest, rfl, -⟩ := h
  have hdigits := fieldValue_digits zeros v (List.forall_mem_nil (fun c => c = 0#8 ∨ c = 0x20#8))
  simp only [List.takeWhile_nil, List.length_nil, pow_zero, mul_one, List.replicate_zero,
    octalValue, add_zero, List.append_nil] at hdigits
  rw [List.length_append] at hlength
  have hbounds := (fieldValue_bounds ((Nat.le_add_right _ _).trans hlength)).2
  rw [hdigits] at hbounds
  omega

theorem Encodes.oct2binLoop_eq_iff (h : Encodes bytes v) (hlength : bytes.length ≤ 12) :
    oct2binLoop bytes 0#64 = BitVec.ofNat 64 v ↔ ¬ EndsAtSpace bytes := by
  obtain ⟨hlo, hhi⟩ := fieldValue_bounds hlength
  have hv := h.lt hlength
  rw [oct2binLoop_fieldValue, ← h.fieldValue_eq_iff, ← BitVec.toInt_inj, BitVec.toInt_ofInt,
    ← BitVec.ofInt_natCast, BitVec.toInt_ofInt, Int.bmod_eq_of_le (by omega) (by omega),
    Int.bmod_eq_of_le (by omega) (by omega)]

end Encoded

/-- `oct2bin` reads a number exactly when its digits do not end at a space, which is taken for
another digit. No character at or behind the end of the field is read. -/
theorem oct2bin_decodes_iff (m : Mem) (str : Word) (size : ℕ) :
    (∀ v, size ≤ 12 → Encodes (field m str size) v →
        (oct2bin m str size = BitVec.ofNat 64 v ↔ ¬ EndsAtSpace (field m str size))) ∧
      (oct2binTrace m str size).1 = oct2bin m str size ∧
      ∀ i ∈ (oct2binTrace m str size).2, i < size := by
  refine ⟨fun v hsize h => h.oct2binLoop_eq_iff ?_, oct2binTrace_fst m str size, fun i hi => ?_⟩
  · rwa [length_field]
  · have hlt := lt_of_mem_oct2binTraceLoop hi
    omega

/-- `"17 "`, or the same with a NUL for the space. -/
def numberField (terminator : Byte) : Mem := fun x =>
  if x = 0#64 then 0x31#8 else if x = 1#64 then 0x37#8 else terminator

theorem oct2bin_decodes_nul :
    oct2bin (numberField 0#8) 0#64 3 = BitVec.ofNat 64 15 := by
  obtain ⟨hvalue, -⟩ := oct2bin_decodes_iff (numberField 0#8) 0#64 3
  have hencodes : Encodes (field (numberField 0#8) 0#64 3) 15 :=
    ⟨0, [0#8], by simp [numeral]; decide, by simp⟩
  exact (hvalue 15 (by norm_num) hencodes).mpr (by decide)

/-- `"17 "` is read as 104. -/
theorem oct2bin_space :
    ¬ ∀ m str size v, size ≤ 12 → Encodes (field m str size) v →
      oct2bin m str size = BitVec.ofNat 64 v := by
  intro hall
  have hencodes : Encodes (field (numberField 0x20#8) 0#64 3) 15 :=
    ⟨0, [0x20#8], by simp [numeral]; decide, by simp⟩
  have hread := hall _ _ _ _ (by norm_num) hencodes
  exact absurd hread (by decide)

end Osiris.Tar
