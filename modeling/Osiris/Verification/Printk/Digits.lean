import Osiris.Verification.Printk.Format

/-! # The digits of the numeric conversions

The entries of `tmp` are the digits in the order of `Nat.digits`. What the signed conversions look
up are the digits with the sign of the number. -/

namespace Osiris.Printk

open ByteMemory Heap Numerals
open Tar (StringAt)

/-! ## Signed numbers -/

/-- The places of `"0123456789ABCDEF"` that the loop of `%d` and `%x` looks up. -/
def signedIndices (base : BitVec 32) : ℕ → BitVec 32 → List ℤ
  | 0, _ => []
  | left + 1, num =>
      if num = 0#32 then []
      else (num.srem base).toInt :: signedIndices base left (num.sdiv base)

section Signed

variable {c : Call} {b n left : ℕ} {s : ℤ} {num : BitVec 32} {tmp : List Byte}

theorem signedLoop_eq_indices (c : Call) (base : BitVec 32) (left : ℕ) (num : BitVec 32)
    (tmp : List Byte) : signedLoop c base left num tmp =
      tmp ++ (signedIndices base left num).map fun i =>
        c.mem (c.hexDigits + BitVec.ofInt 64 i) := by
  induction left generalizing num tmp with
  | zero => simp [signedLoop, signedIndices]
  | succ left ih =>
      rw [signedLoop, signedIndices]
      by_cases hzero : num = 0#32
      · simp [hzero]
      · simp [hzero, ih, BitVec.signExtend]

/-- Division towards zero divides the absolute value. -/
theorem tdiv_sign_mul (hs : s = 1 ∨ s = -1) (n b : ℕ) :
    (s * n).tdiv b = s * (n / b : ℕ) ∧ (s * n).tmod b = s * (n % b : ℕ) := by
  rcases hs with rfl | rfl
  · simp [Int.tmod_eq_emod_of_nonneg]
  · simp [Int.neg_tdiv, Int.neg_tmod, Int.tmod_eq_emod_of_nonneg]

theorem toInt_base (hb : b = 10 ∨ b = 16) : (BitVec.ofNat 32 b).toInt = b := by
  rcases hb with rfl | rfl <;> rfl

theorem toInt_sdiv_base (hb : b = 10 ∨ b = 16) (num : BitVec 32) :
    (num.sdiv (BitVec.ofNat 32 b)).toInt = num.toInt.tdiv b := by
  rw [BitVec.toInt_sdiv_of_ne_or_ne, toInt_base hb]
  right
  rcases hb with rfl | rfl <;> decide

theorem signedIndices_eq (hs : s = 1 ∨ s = -1) (hb : b = 10 ∨ b = 16)
    (hnum : num.toInt = s * n) (hn : n < b ^ left) :
    signedIndices (BitVec.ofNat 32 b) left num = (Nat.digits b n).map fun d : ℕ => s * d := by
  have hbase : 1 < b := by omega
  induction left generalizing num n with
  | zero =>
      obtain rfl : n = 0 := by simpa using hn
      simp [signedIndices]
  | succ left ih =>
      rw [signedIndices]
      by_cases hzero : num = 0#32
      · obtain rfl : n = 0 := by
          rw [hzero, BitVec.toInt_zero] at hnum
          rcases hs with rfl | rfl <;> omega
        simp [hzero]
      · have hpos : 0 < n := by
          by_contra hn0
          obtain rfl : n = 0 := by omega
          exact hzero (BitVec.eq_of_toInt_eq (by simpa using hnum))
        obtain ⟨hdiv, hmod⟩ := tdiv_sign_mul hs n b
        have hquot : (num.sdiv (BitVec.ofNat 32 b)).toInt = s * (n / b : ℕ) := by
          rw [toInt_sdiv_base hb, hnum, hdiv]
        have hrest : n / b < b ^ left := by
          rw [Nat.div_lt_iff_lt_mul (by omega)]
          calc n < b ^ (left + 1) := hn
            _ = b ^ left * b := pow_succ b left
        rw [if_neg hzero, ih hquot hrest, BitVec.toInt_srem, toInt_base hb, hnum, hmod,
          Nat.digits_def' hbase hpos, List.map_cons]

/-- The sign of a number and its absolute value. -/
theorem exists_sign (num : BitVec 32) :
    ∃ s : ℤ, (s = 1 ∨ s = -1) ∧ num.toInt = s * num.toInt.natAbs := by
  rcases Int.natAbs_eq num.toInt with hpos | hneg
  · exact ⟨1, .inl rfl, by omega⟩
  · exact ⟨-1, .inr rfl, by omega⟩

theorem natAbs_lt (num : BitVec 32) (hb : b = 10 ∨ b = 16) : num.toInt.natAbs < b ^ 10 := by
  have hlow := BitVec.le_two_mul_toInt (x := num)
  have hhigh := BitVec.two_mul_toInt_lt (x := num)
  rcases hb with rfl | rfl <;> omega

theorem signedIndices_sign (hs : s = 1 ∨ s = -1) (hb : b = 10 ∨ b = 16)
    (hnum : num.toInt = s * num.toInt.natAbs) : signedIndices (BitVec.ofNat 32 b) 10 num =
      (Nat.digits b num.toInt.natAbs).map fun d : ℕ => s * d :=
  signedIndices_eq hs hb hnum (natAbs_lt num hb)

theorem length_signedTmp (c : Call) (hb : b = 10 ∨ b = 16) (num : BitVec 32) :
    (signedTmp c (BitVec.ofNat 32 b) num).length = (Nat.digits b num.toInt.natAbs).length := by
  obtain ⟨s, hs, hnum⟩ := exists_sign num
  simp [signedTmp, signedLoop_eq_indices, signedIndices_sign hs hb hnum]

end Signed

/-! ## Hexadecimal numbers -/

section Hex

variable {c : Call} {left : ℕ} {num : Word} {tmp : List Byte}

theorem hexLoop_eq (c : Call) (hn : num.toNat < 16 ^ left) : hexLoop c left num tmp =
    tmp ++ (Nat.digits 16 num.toNat).map fun d => c.mem (c.hexDigits + BitVec.ofNat 64 d) := by
  induction left generalizing num tmp with
  | zero =>
      obtain hzero : num.toNat = 0 := by simpa using hn
      simp [hexLoop, hzero]
  | succ left ih =>
      rw [hexLoop]
      by_cases hzero : num = 0#64
      · simp [hzero]
      · have hpos := BitVec.toNat_pos_of_ne_zero hzero
        have hquot : (num / 16#64).toNat = num.toNat / 16 := BitVec.toNat_udiv
        have hrest : (num / 16#64).toNat < 16 ^ left := by
          rw [hquot, Nat.div_lt_iff_lt_mul (by norm_num)]
          calc num.toNat < 16 ^ (left + 1) := hn
            _ = 16 ^ left * 16 := pow_succ 16 left
        rw [if_neg hzero, ih hrest, hquot, Nat.digits_def' (by norm_num) hpos,
          umod_ofNat num (by norm_num)]
        simp

theorem digits16_length_le (num : Word) : (Nat.digits 16 num.toNat).length ≤ 16 :=
  (Nat.digits_length_le_iff (by norm_num) _).mpr (lt_of_lt_of_eq num.isLt (by norm_num))

/-- The digits, and zeros up to sixteen characters. -/
theorem hexTmp_eq (c : Call) (num : Word) : hexTmp c num =
    ((Nat.digits 16 num.toNat).map fun d => c.mem (c.hexDigits + BitVec.ofNat 64 d)) ++
      List.replicate (16 - (Nat.digits 16 num.toNat).length) 0x30#8 := by
  by_cases hzero : num = 0#64
  · subst hzero
    rfl
  · have hlt : num.toNat < 16 ^ 16 := lt_of_lt_of_eq num.isLt (by norm_num)
    simp [hexTmp, hzero, hexWidth, hexLoop_eq c hlt]

theorem length_hexTmp (c : Call) (num : Word) : (hexTmp c num).length = 16 := by
  have hle := digits16_length_le num
  simp [hexTmp_eq]
  omega

end Hex

/-! ## Places -/

/-- How many characters a directive other than `%s` takes. -/
def Call.width (c : Call) (arg : ℕ) : Directive → ℕ
  | .literal => 1
  | .string => 0
  | .signed base => (Nat.digits base.toNat ((c.args arg).setWidth 32).toInt.natAbs).length
  | .unsigned => (numeral 10 ((c.args arg).setWidth 32).toNat).length
  | .longUnsigned => (numeral 10 (c.args arg).toNat).length
  | .longHex => 16
  | .other => 1

/-- The places of the directives in a format, each with the number of arguments taken before it and
the number of characters in front of what it expands to. -/
inductive Places (c : Call) : ℕ → ℕ → ℕ → Prop
  | start : Places c 0 0 0
  | next {p arg n : ℕ} : Places c p arg n → c.fmtAt p ≠ 0#8 → c.directive p ≠ .string →
      Places c (p + (c.directive p).chars) (arg + (c.directive p).args)
        (n + c.width arg (c.directive p))
  | string {p arg n : ℕ} {text : List Byte} : Places c p arg n → c.directive p = .string →
      StringAt c.mem (c.args arg) text → Places c (p + 2) (arg + 1) (n + text.length)

section Width

variable {c : Call} {p arg n : ℕ} {base : BitVec 32} {before : List Byte}

theorem toNat_widen (num : BitVec 32) : (num.setWidth 64).toNat = num.toNat := by
  rw [BitVec.toNat_setWidth, Nat.mod_eq_of_lt (lt_trans num.isLt (by norm_num))]

theorem length_unsignedText (c : Call) (n : ℕ) :
    (c.unsignedText n).length = (numeral 10 n).length := by
  unfold Call.unsignedText numeral
  split <;> simp

theorem base_of_directive (hd : c.directive p = .signed base) :
    ∃ b, base = BitVec.ofNat 32 b ∧ (b = 10 ∨ b = 16) := by
  have hbase : base = 10#32 ∨ base = 16#32 := by
    unfold Call.directive at hd
    split_ifs at hd <;> simp_all
  rcases hbase with rfl | rfl
  · exact ⟨10, rfl, .inl rfl⟩
  · exact ⟨16, rfl, .inr rfl⟩

theorem toNat_base {b : ℕ} (hb : b = 10 ∨ b = 16) : (BitVec.ofNat 32 b).toNat = b := by
  rcases hb with rfl | rfl <;> rfl

theorem length_text (hne : c.directive p ≠ .string) :
    (c.text p arg (c.directive p)).length = c.width arg (c.directive p) := by
  cases hdir : c.directive p with
  | string => contradiction
  | literal => rfl
  | other => rfl
  | signed base =>
      obtain ⟨b, rfl, hb⟩ := base_of_directive hdir
      change (List.reverse _).length = (Nat.digits (BitVec.ofNat 32 b).toNat _).length
      rw [List.length_reverse, length_signedTmp c hb, toNat_base hb]
  | unsigned =>
      change (c.unsignedText _).length = _
      rw [length_unsignedText, toNat_widen]
      rfl
  | longUnsigned => exact length_unsignedText c _
  | longHex => exact (List.length_reverse ..).trans (length_hexTmp c _)

theorem width_le (c : Call) (p arg : ℕ) : c.width arg (c.directive p) ≤ 20 := by
  have hnumeral : ∀ n < 2 ^ 64, (numeral 10 n).length ≤ 20 := fun n hn =>
    length_numeral_le (by norm_num) (by norm_num) (lt_trans hn (by norm_num))
  cases hdir : c.directive p with
  | signed base =>
      obtain ⟨b, rfl, hb⟩ := base_of_directive hdir
      have hle := (Nat.digits_length_le_iff (b := b) (by omega) _).mpr
        (natAbs_lt ((c.args arg).setWidth 32) hb)
      change (Nat.digits (BitVec.ofNat 32 b).toNat _).length ≤ 20
      rw [toNat_base hb]
      omega
  | unsigned => exact hnumeral _ (lt_trans (BitVec.isLt _) (by norm_num))
  | longUnsigned => exact hnumeral _ (BitVec.isLt _)
  | longHex => exact (by norm_num : 16 ≤ 20)
  | literal => exact (by norm_num : 1 ≤ 20)
  | string => exact Nat.zero_le 20
  | other => exact (by norm_num : 1 ≤ 20)

theorem fmtAt_ne_zero (hne : c.directive p ≠ .literal) : c.fmtAt p ≠ 0#8 := by
  intro hzero
  simp [Call.directive, hzero] at hne

/-- The characters in front of a directive are as many as the output before it has. -/
theorem Visits.places (hvisits : Visits c p arg before) : Places c p arg before.length := by
  induction hvisits with
  | start => exact .start
  | @next p arg before text hvisits hp htext ih =>
      rw [List.length_append]
      unfold Call.Expands at htext
      split at htext
      · rename_i hstring
        have hplaces := ih.string hstring htext
        simpa [hstring] using hplaces
      · rename_i hne
        rw [htext, length_text hne]
        exact ih.next hp hne

theorem Places.visits (hplaces : Places c p arg n) :
    ∃ before, Visits c p arg before ∧ before.length = n := by
  induction hplaces with
  | start => exact ⟨[], .start, rfl⟩
  | @next p arg n hplaces hp hne ih =>
      obtain ⟨before, hvisits, rfl⟩ := ih
      have hexpands : c.Expands p arg (c.text p arg (c.directive p)) := by
        rw [Call.Expands, if_neg hne]
      refine ⟨_, hvisits.next hp hexpands, ?_⟩
      rw [List.length_append, length_text hne]
  | @string p arg n text hplaces hstring htext ih =>
      obtain ⟨before, hvisits, rfl⟩ := ih
      have hexpands : c.Expands p arg text := by
        rwa [Call.Expands, if_pos hstring]
      have hnext := hvisits.next (fmtAt_ne_zero (by simp [hstring])) hexpands
      exact ⟨before ++ text, by simpa [hstring] using hnext, List.length_append⟩

end Width

/-! ## The tables -/

/-- `"0123456789ABCDEF"`. -/
def hexLiteral : List Byte :=
  [0x30#8, 0x31#8, 0x32#8, 0x33#8, 0x34#8, 0x35#8, 0x36#8, 0x37#8, 0x38#8, 0x39#8, 0x41#8, 0x42#8,
    0x43#8, 0x44#8, 0x45#8, 0x46#8]

/-- `"0123456789"`. -/
def decLiteral : List Byte :=
  [0x30#8, 0x31#8, 0x32#8, 0x33#8, 0x34#8, 0x35#8, 0x36#8, 0x37#8, 0x38#8, 0x39#8]

/-- The two literals are where the linker puts them. -/
structure Call.Loaded (c : Call) : Prop where
  hex : StringAt c.mem c.hexDigits hexLiteral
  dec : StringAt c.mem c.decDigits decLiteral

/-- The character of a digit. -/
def digitChar (d : ℕ) : Byte :=
  BitVec.ofNat 8 (if d < 10 then 0x30 + d else 0x37 + d)

theorem digitChar_ne_zero {d : ℕ} (hd : d < 16) : digitChar d ≠ 0#8 := by
  interval_cases d <;> decide

section Loaded

variable {c : Call} {b d n : ℕ} {num : BitVec 32}

theorem Call.Loaded.hexDigit (hloaded : c.Loaded) (hd : d < 16) :
    c.mem (c.hexDigits + BitVec.ofNat 64 d) = digitChar d := by
  rw [hloaded.hex.apply_getElem hd]
  interval_cases d <;> rfl

theorem Call.Loaded.decDigit (hloaded : c.Loaded) (hd : d < 10) :
    c.mem (c.decDigits + BitVec.ofNat 64 d) = digitChar d := by
  rw [hloaded.dec.apply_getElem hd]
  interval_cases d <;> rfl

/-- `%u` and `%llu` print the number. -/
theorem Call.Loaded.unsignedText (hloaded : c.Loaded) (n : ℕ) :
    c.unsignedText n = (numeral 10 n).map digitChar := by
  unfold Call.unsignedText numeral
  split
  · rfl
  · rw [← List.map_reverse]
    apply List.map_congr_left
    intro d hd
    exact hloaded.decDigit (Nat.digits_lt_base (by norm_num) (List.mem_reverse.mp hd))

/-- `%llx` prints the number with sixteen digits. -/
theorem Call.Loaded.hexText (hloaded : c.Loaded) (num : Word) :
    (hexTmp c num).reverse = (padded 16 16 num.toNat).map digitChar := by
  have hdigits : (Nat.digits 16 num.toNat).map (fun d => c.mem (c.hexDigits + BitVec.ofNat 64 d)) =
      (Nat.digits 16 num.toNat).map digitChar := by
    apply List.map_congr_left
    intro d hd
    exact hloaded.hexDigit (Nat.digits_lt_base (by norm_num) hd)
  have hzero : digitChar 0 = 0x30#8 := rfl
  simp [hexTmp_eq, hdigits, padded, hzero]

/-- A positive number is printed by `%d` and `%x`. -/
theorem Call.Loaded.signedText (hloaded : c.Loaded) (hb : b = 10 ∨ b = 16)
    (hnum : 0 ≤ num.toInt) : (signedTmp c (BitVec.ofNat 32 b) num).reverse =
      ((Nat.digits b num.toInt.toNat).reverse).map digitChar := by
  have hsign : num.toInt = 1 * num.toInt.natAbs := by omega
  have htoNat : num.toInt.natAbs = num.toInt.toNat := by omega
  rw [signedTmp, signedLoop_eq_indices, signedIndices_sign (.inl rfl) hb hsign, List.nil_append,
    List.map_map, ← List.map_reverse, htoNat]
  apply List.map_congr_left
  intro d hd
  have hlt := Nat.digits_lt_base (by omega) (List.mem_reverse.mp hd)
  simpa using hloaded.hexDigit (lt_of_lt_of_le hlt (by omega))

/-- For a negative number the bytes in front of the table are printed. -/
theorem signedTmp_neg (c : Call) (hb : b = 10 ∨ b = 16) (hnum : num.toInt < 0) :
    signedTmp c (BitVec.ofNat 32 b) num = (Nat.digits b num.toInt.natAbs).map fun d =>
      c.mem (c.hexDigits - BitVec.ofNat 64 d) := by
  have hsign : num.toInt = -1 * num.toInt.natAbs := by omega
  rw [signedTmp, signedLoop_eq_indices, signedIndices_sign (.inr rfl) hb hsign, List.nil_append,
    List.map_map]
  apply List.map_congr_left
  intro d hd
  simp [sub_eq_add_neg, BitVec.ofInt_neg]

end Loaded

/-- A call with the format at 0x1000 and the literals at 0x2000 and 0x2020. -/
def sampleCall (size : BitVec 32) (fmt : List Byte) (args : ℕ → Word) : Call where
  mem := fun x =>
    if x.toNat < 0x1000 then 0#8
    else if x.toNat < 0x2000 then fmt.getD (x.toNat - 0x1000) 0#8
    else if x.toNat < 0x2020 then hexLiteral.getD (x.toNat - 0x2000) 0#8
    else decLiteral.getD (x.toNat - 0x2020) 0#8
  hexDigits := 0x2000#64
  decDigits := 0x2020#64
  size := size
  fmt := 0x1000#64
  args := args

theorem sampleCall_loaded (size : BitVec 32) (fmt : List Byte) (args : ℕ → Word) :
    (sampleCall size fmt args).Loaded := by
  constructor
  · simp [StringAt, sampleCall, hexLiteral]
  · simp [StringAt, sampleCall, decLiteral]

end Osiris.Printk
