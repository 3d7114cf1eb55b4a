import Osiris.Verification.Printk.Bounds

/-! # The texts of the numeric conversions

Canonical texts are stated over numerals, apart from the loops that make the digits. The unsigned
conversions print them for every number, the signed ones for the positive numbers. -/

namespace Osiris.Printk

open ByteMemory Heap Numerals

/-! ## Texts -/

/-- The characters of a list of digits. -/
def digitText (digits : List ℕ) : List Byte :=
  digits.map digitChar

/-- The digit that a character stands for. -/
def charValue (ch : Byte) : ℕ :=
  if ch.toNat < 0x41 then ch.toNat - 0x30 else ch.toNat - 0x37

/-- A text read back as a number. -/
def readNumber (base : ℕ) (text : List Byte) : ℕ :=
  value base (text.map charValue)

section Texts

variable {b d n : ℕ} {digits : List ℕ}

theorem charValue_digitChar (hd : d < 16) : charValue (digitChar d) = d := by
  interval_cases d <;> rfl

theorem readNumber_digitText (base : ℕ) (hdigits : ∀ d ∈ digits, d < 16) :
    readNumber base (digitText digits) = value base digits := by
  have hvalues : digits.map (charValue ∘ digitChar) = digits.map id := by
    apply List.map_congr_left
    intro d hd
    exact charValue_digitChar (hdigits d hd)
  rw [readNumber, digitText, List.map_map, hvalues, List.map_id]

theorem mem_hexLiteral_of_digitText (hdigits : ∀ d ∈ digits, d < 16) :
    ∀ ch ∈ digitText digits, ch ∈ hexLiteral := by
  intro ch hch
  obtain ⟨d, hd, rfl⟩ := List.mem_map.mp hch
  have hlt := hdigits d hd
  interval_cases d <;> decide

theorem mem_decLiteral_of_digitText (hdigits : ∀ d ∈ digits, d < 10) :
    ∀ ch ∈ digitText digits, ch ∈ decLiteral := by
  intro ch hch
  obtain ⟨d, hd, rfl⟩ := List.mem_map.mp hch
  have hlt := hdigits d hd
  interval_cases d <;> decide

/-- A canonical text starts with `0` only when it is `0`. -/
theorem head?_digitText (hb : 1 < b) (hle : b ≤ 16) (hn : n ≠ 0) :
    (digitText (numeral b n)).head? ≠ some 0x30#8 := by
  intro hhead
  rw [digitText, List.head?_map, Option.map_eq_some_iff] at hhead
  obtain ⟨d, hd, hchar⟩ := hhead
  have hlt := lt_of_lt_of_le (numeral_lt hb d (List.mem_of_mem_head? hd)) hle
  have hzero : d = 0 := by
    rw [← charValue_digitChar hlt, hchar]
    rfl
  exact head?_numeral hn (hd.trans (congrArg some hzero))

end Texts

/-- The loop comes to a directive of the format, and the round there puts a text behind what was
stored. -/
def Call.Appends (c : Call) (p arg : ℕ) (before text : List Byte) : Prop :=
  ∀ fuel, c.limit + 20 < fuel → Reached c fuel ⟨before, p, arg⟩ ∧ c.HasRoom before ∧
    round c fuel ⟨before, p, arg⟩ =
      .ok ⟨before ++ text, p + (c.directive p).chars, arg + (c.directive p).args⟩

section Appends

variable {c : Call} {p arg : ℕ} {before text : List Byte}

theorem appends_iff (hvisits : Visits c p arg before) (hroom : before.length < c.limit)
    (hne : c.directive p ≠ .string) :
    c.Appends p arg before text ↔ text = c.text p arg (c.directive p) := by
  have hround : ∀ fuel, c.limit + 20 < fuel → round c fuel ⟨before, p, arg⟩ =
      .ok ⟨before ++ c.text p arg (c.directive p), p + (c.directive p).chars,
        arg + (c.directive p).args⟩ := by
    intro fuel hfuel
    rw [round_eq_write, write_eq hne (by omega)]
    rfl
  constructor
  · intro happends
    have heq := (happends _ (Nat.lt_succ_self _)).2.2
    rw [hround _ (Nat.lt_succ_self _)] at heq
    simpa using heq.symm
  · rintro rfl fuel hfuel
    exact ⟨hvisits.reached hroom hfuel, hasRoom_iff.mpr hroom, hround fuel hfuel⟩

end Appends

/-! ## Unsigned numbers -/

/-- `%u` and `%llu` with the number `n`. -/
structure Call.PrintsDecimal (c : Call) (p arg : ℕ) (before : List Byte) (n : ℕ)
    (text : List Byte) : Prop where
  appends : c.Appends p arg before text
  digits : ∀ ch ∈ text, ch ∈ decLiteral
  canonical : if n = 0 then text = [0x30#8] else text.head? ≠ some 0x30#8
  reads : readNumber 10 text = n
  /-- The entries of `tmp`, also while the loop goes on. -/
  bounded : ∀ fuel tmp, unsignedTmp c fuel (BitVec.ofNat 64 n) = .ok tmp → tmp.length < 21

/-- `%llx` with the number `n`. -/
structure Call.PrintsHex (c : Call) (p arg : ℕ) (before : List Byte) (n : ℕ)
    (text : List Byte) : Prop where
  appends : c.Appends p arg before text
  digits : ∀ ch ∈ text, ch ∈ hexLiteral
  length : text.length = 16
  reads : readNumber 16 text = n
  bounded : (hexTmp c (BitVec.ofNat 64 n)).length < 17

section Unsigned

variable {c : Call} {n p arg : ℕ} {before : List Byte}

theorem printsDecimal (hloaded : c.Loaded) (hn : n < 2 ^ 64)
    (happends : c.Appends p arg before (c.unsignedText n)) :
    c.PrintsDecimal p arg before n (digitText (numeral 10 n)) where
  appends := by
    rw [hloaded.unsignedText] at happends
    exact happends
  digits := mem_decLiteral_of_digitText (numeral_lt (by norm_num))
  canonical := by
    split
    · rename_i hzero
      simp [hzero, numeral, digitText, digitChar]
    · rename_i hzero
      exact head?_digitText (by norm_num) (by norm_num) hzero
  reads := by
    rw [readNumber_digitText _ fun d hd => lt_trans (numeral_lt (by norm_num) d hd) (by norm_num),
      value_numeral]
  bounded := by
    intro fuel tmp hok
    have htmp := congrArg List.length (unsignedTmp_ok hok)
    rw [List.length_reverse, length_unsignedText, BitVec.toNat_ofNat, Nat.mod_eq_of_lt hn] at htmp
    have hle := length_numeral_le (b := 10) (k := 20) (by norm_num) (by norm_num)
      (lt_trans hn (by norm_num))
    omega

theorem printsHex (hloaded : c.Loaded) {num : Word}
    (happends : c.Appends p arg before (hexTmp c num).reverse) :
    c.PrintsHex p arg before num.toNat (digitText (padded 16 16 num.toNat)) where
  appends := by
    rw [hloaded.hexText] at happends
    exact happends
  digits := mem_hexLiteral_of_digitText (padded_lt (by norm_num))
  length := by
    rw [digitText, List.length_map, length_padded (by norm_num)
      (lt_of_lt_of_eq num.isLt (by norm_num))]
  reads := by
    rw [readNumber_digitText _ (padded_lt (by norm_num)), value_padded]
  bounded := by
    rw [length_hexTmp]
    norm_num

end Unsigned

/-- The unsigned conversions round trip. -/
theorem unsigned_round_trips (c : Call) (hloaded : c.Loaded) (p arg : ℕ) (before : List Byte)
    (hvisits : Visits c p arg before) (hroom : before.length < c.limit) :
    (c.directive p = .unsigned → ∃ text,
        c.PrintsDecimal p arg before ((c.args arg).setWidth 32).toNat text) ∧
      (c.directive p = .longUnsigned → ∃ text,
        c.PrintsDecimal p arg before (c.args arg).toNat text) ∧
      (c.directive p = .longHex → ∃ text, c.PrintsHex p arg before (c.args arg).toNat text) := by
  refine ⟨fun hdir => ?_, fun hdir => ?_, fun hdir => ?_⟩
  · have hlt : ((c.args arg).setWidth 32).toNat < 2 ^ 64 := lt_trans (BitVec.isLt _) (by norm_num)
    refine ⟨_, printsDecimal hloaded hlt ((appends_iff hvisits hroom (by simp [hdir])).mpr ?_)⟩
    rw [hdir, Call.text, toNat_widen]
  · refine ⟨_, printsDecimal hloaded (BitVec.isLt _)
      ((appends_iff hvisits hroom (by simp [hdir])).mpr ?_)⟩
    rw [hdir, Call.text]
  · refine ⟨_, printsHex hloaded ((appends_iff hvisits hroom (by simp [hdir])).mpr ?_)⟩
    rw [hdir, Call.text]

theorem unsigned_round_trips_ten :
    ∃ text, (tenCall 4#32).PrintsDecimal 0 0 [] 10 text := by
  obtain ⟨hdecimal, -, -⟩ := unsigned_round_trips (tenCall 4#32) (sampleCall_loaded _ _ _) 0 0 []
    .start (by decide)
  exact hdecimal (tenCall_directive _)

/-! ## Signed numbers -/

/-- The canonical text of an integer. -/
def intText (v : ℤ) : List Byte :=
  if v < 0 then 0x2D#8 :: digitText (numeral 10 v.natAbs) else digitText (numeral 10 v.natAbs)

/-- What `%d` and `%x` should print: the integer, or the 32 bits in hexadecimal. -/
def signedText (base num : BitVec 32) : List Byte :=
  if base = 16#32 then digitText (numeral 16 num.toNat) else intText num.toInt

/-- A directive `%d` or `%x` with the number `num`. -/
structure Call.PrintsSigned (c : Call) (p arg : ℕ) (before : List Byte) (base num : BitVec 32) :
    Prop where
  appends : c.Appends p arg before (signedText base num)
  indices : ∀ i ∈ signedIndices base 10 num, 0 ≤ i ∧ i < 16

section Signed

variable {c : Call} {b : ℕ} {num : BitVec 32}

theorem signedText_pos (hloaded : c.Loaded) (hb : b = 10 ∨ b = 16) (hnum : 0 < num.toInt) :
    (signedTmp c (BitVec.ofNat 32 b) num).reverse = signedText (BitVec.ofNat 32 b) num := by
  have htoNat : num.toInt.toNat = num.toNat := by
    rw [BitVec.toInt_eq_toNat_of_lt (BitVec.toInt_pos_iff.mp hnum.le)]
    rfl
  have hpos : 0 < num.toNat := by omega
  have habs : num.toInt.natAbs = num.toNat := by omega
  rw [hloaded.signedText hb hnum.le, htoNat, ← numeral_of_pos hpos]
  rcases hb with rfl | rfl
  · simp [signedText, intText, not_lt.mpr hnum.le, habs, digitText]
  · simp [signedText, digitText]

theorem signedIndices_pos (hb : b = 10 ∨ b = 16) (hnum : 0 < num.toInt) :
    ∀ i ∈ signedIndices (BitVec.ofNat 32 b) 10 num, 0 ≤ i ∧ i < 16 := by
  have hsign : num.toInt = 1 * num.toInt.natAbs := by omega
  intro i hi
  rw [signedIndices_sign (.inl rfl) hb hsign] at hi
  obtain ⟨d, hd, rfl⟩ := List.mem_map.mp hi
  have hlt := Nat.digits_lt_base (by omega) hd
  omega

/-- For a negative number the table is left at the first digit that is not zero. -/
theorem signedIndices_neg (hb : b = 10 ∨ b = 16) (hnum : num.toInt < 0) :
    ∃ i ∈ signedIndices (BitVec.ofNat 32 b) 10 num, i < 0 := by
  have hsign : num.toInt = -1 * num.toInt.natAbs := by omega
  have hne : num.toInt.natAbs ≠ 0 := by omega
  have hlast := Nat.getLast_digit_ne_zero b hne
  refine ⟨-1 * ((Nat.digits b num.toInt.natAbs).getLast
    (Nat.digits_ne_nil_iff_ne_zero.mpr hne) : ℕ), ?_, by omega⟩
  rw [signedIndices_sign (.inr rfl) hb hsign]
  exact List.mem_map_of_mem (List.getLast_mem _)

theorem signedTmp_zero (c : Call) (base : BitVec 32) : signedTmp c base 0#32 = [] := by
  simp [signedTmp, signedLoop]

theorem signedText_zero (base : BitVec 32) : signedText base 0#32 = [0x30#8] := by
  unfold signedText
  split <;> rfl

end Signed

/-- `%d` and `%x` print their number exactly when it is positive. -/
theorem signed_prints_iff (c : Call) (hloaded : c.Loaded) (p arg : ℕ) (before : List Byte)
    (hvisits : Visits c p arg before) (base : BitVec 32) (hdir : c.directive p = .signed base)
    (hroom : before.length + (signedText base ((c.args arg).setWidth 32)).length < c.limit) :
    c.PrintsSigned p arg before base ((c.args arg).setWidth 32) ↔
      0 < ((c.args arg).setWidth 32).toInt := by
  obtain ⟨b, rfl, hb⟩ := base_of_directive hdir
  have happends : ∀ text, c.Appends p arg before text ↔
      text = (signedTmp c (BitVec.ofNat 32 b) ((c.args arg).setWidth 32)).reverse := by
    intro text
    rw [appends_iff hvisits (by omega) (by simp [hdir]), hdir, Call.text]
  constructor
  · intro hprints
    rcases lt_trichotomy ((c.args arg).setWidth 32).toInt 0 with hneg | hzero | hpos
    · obtain ⟨i, hi, hlt⟩ := signedIndices_neg hb hneg
      exact absurd (hprints.indices i hi).1 (not_le.mpr hlt)
    · have hnum : (c.args arg).setWidth 32 = 0#32 := BitVec.eq_of_toInt_eq (by simpa using hzero)
      have htext := (happends _).mp hprints.appends
      simp [hnum, signedTmp_zero, signedText_zero] at htext
    · exact hpos
  · intro hpos
    exact ⟨(happends _).mpr (signedText_pos hloaded hb hpos).symm, signedIndices_pos hb hpos⟩

/-- `%d` of a number. -/
def intCall (num : Word) : Call :=
  sampleCall 10#32 [0x25#8, 0x64#8] fun _ => num

theorem signed_prints_255 : (intCall 255#64).PrintsSigned 0 0 [] 10#32 255#32 :=
  (signed_prints_iff (intCall 255#64) (sampleCall_loaded _ _ _) 0 0 [] .start 10#32
    (by decide +kernel) (by decide +kernel)).mpr (by decide)

/-- Zero prints nothing, and for -1 the byte in front of the table is looked up. -/
theorem signed_misprints :
    vsnprintf (intCall 0#64) 64 = .ok (0#32, [0x00#8]) ∧
      ¬ (intCall 0#64).PrintsSigned 0 0 [] 10#32 0#32 ∧
      signedIndices 10#32 10 (-1#32) = [-1] ∧
      ¬ (intCall (-1#64)).PrintsSigned 0 0 [] 10#32 (-1#32) := by
  have hminus : signedIndices 10#32 10 (-1#32) = [-1] := by decide
  refine ⟨by decide +kernel, fun hprints => ?_, hminus, fun hprints => ?_⟩
  · exact absurd (hprints.appends 64 (by decide)).2.2 (by decide +kernel)
  · have hindex := (hprints.indices (-1) (by rw [hminus]; exact List.mem_cons_self)).1
    omega

end Osiris.Printk
