import Mathlib.Data.List.TakeWhile
import Osiris.Verification.Tar.Bounds
import Osiris.Verification.Tar.Read

/-! # Does the walk of `tarfs_init` advance?

A size field is taken for a number whatever its characters are, and the number can be negative. -/

namespace Osiris.Tar

open ByteMemory Strings

/-! ## The number in a field -/

/-- A number in base 8, each character standing for its difference from `'0'`. -/
def octalValue : List Byte → ℤ
  | [] => 0
  | c :: str => (c.toInt - 0x30) * 8 ^ str.length + octalValue str

/-- The number in a field, whose characters end at a NUL or with the field. -/
def fieldValue (bytes : List Byte) : ℤ :=
  octalValue (bytes.takeWhile (· ≠ 0#8))

theorem octalDigit_eq : ∀ c : Byte, octalDigit c = BitVec.ofInt 64 (c.toInt - 0x30) := by
  decide +kernel

theorem oct2binLoop_takeWhile (bytes : List Byte) (n : Word) :
    oct2binLoop bytes n = oct2binLoop (bytes.takeWhile (· ≠ 0#8)) n := by
  induction bytes generalizing n with
  | nil => rfl
  | cons c str ih =>
      by_cases hc : c = 0#8
      · simp [oct2binLoop, hc]
      · simp [oct2binLoop, hc, ih]

/-- `oct2bin` computes the number modulo `2 ^ 64`. -/
theorem oct2binLoop_octalValue {str : List Byte} (hstr : ∀ c ∈ str, c ≠ 0#8) (n : ℤ) :
    oct2binLoop str (BitVec.ofInt 64 n) =
      BitVec.ofInt 64 (n * 8 ^ str.length + octalValue str) := by
  induction str generalizing n with
  | nil => simp [oct2binLoop, octalValue]
  | cons c str ih =>
      obtain ⟨hc, hrest⟩ := List.forall_mem_cons.mp hstr
      have hshift : BitVec.ofInt 64 n <<< 3 = BitVec.ofInt 64 (n * 8) := by
        rw [BitVec.shiftLeft_eq_mul_twoPow, BitVec.ofInt_mul]
        rfl
      rw [oct2binLoop, if_neg hc, hshift, octalDigit_eq, ← BitVec.ofInt_add, ih hrest]
      congr 1
      rw [octalValue, List.length_cons, pow_succ]
      ring

theorem oct2binLoop_fieldValue (bytes : List Byte) :
    oct2binLoop bytes 0#64 = BitVec.ofInt 64 (fieldValue bytes) := by
  have hchars : ∀ c ∈ bytes.takeWhile (· ≠ 0#8), c ≠ 0#8 := fun c hc => by
    simpa using List.mem_takeWhile_imp hc
  have hloop := oct2binLoop_octalValue hchars 0
  rw [oct2binLoop_takeWhile]
  simpa [fieldValue] using hloop

/-- A character differs from `'0'` by at most 176. -/
theorem octalValue_bounds (str : List Byte) :
    -(26 * 8 ^ str.length) ≤ octalValue str ∧ octalValue str ≤ 26 * 8 ^ str.length := by
  induction str with
  | nil => simp [octalValue]
  | cons c str ih =>
      have hlo : -128 ≤ c.toInt := BitVec.le_toInt c
      have hhi : c.toInt < 128 := BitVec.toInt_lt
      have hpos : (0 : ℤ) < 8 ^ str.length := by positivity
      have hbelow : -176 * 8 ^ str.length ≤ (c.toInt - 0x30) * 8 ^ str.length :=
        mul_le_mul_of_nonneg_right (by omega) hpos.le
      have habove : (c.toInt - 0x30) * 8 ^ str.length ≤ 79 * 8 ^ str.length :=
        mul_le_mul_of_nonneg_right (by omega) hpos.le
      rw [octalValue, List.length_cons, pow_succ]
      constructor <;> omega

/-- A field of at most 12 characters stands for a number that is far from wrapping. -/
theorem fieldValue_bounds {bytes : List Byte} (hlength : bytes.length ≤ 12) :
    -(2 : ℤ) ^ 41 < fieldValue bytes ∧ fieldValue bytes + 1024 < 2 ^ 41 := by
  obtain ⟨hlo, hhi⟩ := octalValue_bounds (bytes.takeWhile (· ≠ 0#8))
  have hle : (bytes.takeWhile (· ≠ 0#8)).length ≤ 12 :=
    (List.takeWhile_prefix _).length_le.trans hlength
  have hpow : (8 : ℤ) ^ (bytes.takeWhile (· ≠ 0#8)).length ≤ 8 ^ 12 :=
    pow_le_pow_right₀ (by norm_num) hle
  unfold fieldValue
  constructor <;> linarith

/-! ## One step -/

/-- The step goes forward by at least a block: it is at least 512, and short of half of the address
space, from where on it would be a step backwards. -/
structure Advances (total : Word) : Prop where
  least : 512 ≤ total.toNat
  forward : total.toNat < 2 ^ 63

/-- A negative number is rounded up to a multiple of the block size too. -/
theorem toNat_totalSize_ofInt (v : ℤ) :
    ((totalSize (BitVec.ofInt 64 v)).toNat : ℤ) = (512 + (v + 511) / 512 * 512) % 2 ^ 64 := by
  have hmask := toNat_and_not_mask (BitVec.ofInt 64 v + 511#64) (show 9 < 64 by norm_num)
  rw [show BitVec.ofNat 64 (2 ^ 9) - 1#64 = 511#64 from rfl] at hmask
  have hsum : ((BitVec.ofInt 64 v + 511#64).toNat : ℤ) = (v + 511) % 2 ^ 64 := by
    rw [BitVec.toNat_add, BitVec.toNat_ofInt, BitVec.toNat_ofNat]
    omega
  rw [totalSize, tarBlockSize, BitVec.toNat_add, hmask, BitVec.toNat_ofNat]
  omega

theorem advances_ofInt_iff {v : ℤ} (hlo : -(2 : ℤ) ^ 41 < v) (hhi : v + 1024 < 2 ^ 41) :
    Advances (totalSize (BitVec.ofInt 64 v)) ↔ -511 ≤ v := by
  have htotal := toNat_totalSize_ofInt v
  constructor
  · rintro ⟨hleast, hforward⟩
    omega
  · intro hv
    constructor <;> omega

/-- A step of the walk advances exactly when the size is not below -511. -/
theorem advances_iff {bytes : List Byte} (hlength : bytes.length = 12) :
    Advances (totalSize (oct2binLoop bytes 0#64)) ↔ -511 ≤ fieldValue bytes := by
  obtain ⟨hlo, hhi⟩ := fieldValue_bounds hlength.le
  rw [oct2binLoop_fieldValue, advances_ofInt_iff hlo hhi]

/-! ## The walk -/

/-- Every header with a name that the walk reads has the property. -/
def WalkMeets (m : Mem) (P : Word → Prop) (ptr : Word) : Prop :=
  ∀ fuel, ∀ hdr ∈ headersRead m fuel ptr, m hdr ≠ 0#8 → P hdr

section Walk

variable {m : Mem} {P Q : Word → Prop} {ptr tarStart : Word} {t : TarFs} {fuel len i : ℕ}

theorem walkMeets_ended (hnul : m ptr = 0#8) : WalkMeets m P ptr := by
  intro fuel hdr hmem hne
  cases fuel with
  | zero => simp [headersRead] at hmem
  | succ fuel =>
      rw [headersRead, if_pos hnul, List.mem_singleton] at hmem
      exact absurd (hmem ▸ hnul) hne

theorem walkMeets_next (hne : m ptr ≠ 0#8) :
    WalkMeets m P ptr ↔ P ptr ∧ WalkMeets m P (ptr + totalSize (headerSize m ptr)) := by
  constructor
  · intro h
    refine ⟨h 1 ptr (by simp [headersRead]) hne, fun fuel hdr hmem => h (fuel + 1) hdr ?_⟩
    rw [headersRead, if_neg hne]
    exact List.mem_cons_of_mem ptr hmem
  · rintro ⟨hfirst, hrest⟩ fuel hdr hmem
    cases fuel with
    | zero => simp [headersRead] at hmem
    | succ fuel =>
        rw [headersRead, if_neg hne] at hmem
        cases List.mem_cons.mp hmem with
        | inl heq => exact fun _ => heq ▸ hfirst
        | inr hmem => exact hrest fuel hdr hmem

theorem walkMeets_congr (h : ∀ hdr, P hdr ↔ Q hdr) : WalkMeets m P ptr ↔ WalkMeets m Q ptr :=
  forall₄_congr fun _ hdr _ _ => h hdr

/-- A step that advances does not jump over the zeros behind the image. -/
theorem Advances.totalSize_lt {bytes : List Byte} (hlength : bytes.length = 12)
    (h : Advances (totalSize (oct2binLoop bytes 0#64))) :
    (totalSize (oct2binLoop bytes 0#64)).toNat < 2 ^ 41 := by
  obtain ⟨-, hhi⟩ := fieldValue_bounds hlength.le
  have hv := (advances_iff hlength).mp h
  have htotal := toNat_totalSize_ofInt (fieldValue bytes)
  rw [← oct2binLoop_fieldValue] at htotal
  omega

/-- From any place in the image or right behind it, steps that advance reach the zeros. -/
theorem tarfsInitLoop_returns (hlen : len + 2 ^ 41 ≤ 2 ^ 64)
    (hzeros : ∀ i, len ≤ i → i < len + 2 ^ 41 → m (tarStart + BitVec.ofNat 64 i) = 0#8)
    (hi : i < len + 2 ^ 41) (hfuel : (len - i + 511) / 512 < fuel)
    (hwalk : WalkMeets m (fun hdr => Advances (totalSize (headerSize m hdr)))
      (tarStart + BitVec.ofNat 64 i)) :
    ∃ t', tarfsInitLoop m fuel (tarStart + BitVec.ofNat 64 i) t = .ok t' := by
  induction fuel generalizing i t with
  | zero => omega
  | succ fuel ih =>
      by_cases hnul : m (tarStart + BitVec.ofNat 64 i) = 0#8
      · exact ⟨t, tarfsInitLoop_ended hnul fuel t⟩
      · have hin : i < len := by
          by_contra hout
          exact hnul (hzeros i (not_lt.mp hout) hi)
        obtain ⟨hstep, hnext⟩ := (walkMeets_next hnul).mp hwalk
        have hlt : (totalSize (headerSize m (tarStart + BitVec.ofNat 64 i))).toNat < 2 ^ 41 :=
          hstep.totalSize_lt (length_field m _ 12)
        obtain ⟨hleast, -⟩ := hstep
        rw [tarfsInitLoop_next hnul]
        generalize totalSize (headerSize m (tarStart + BitVec.ofNat 64 i)) = total at *
        have hsum : tarStart + BitVec.ofNat 64 i + total =
            tarStart + BitVec.ofNat 64 (i + total.toNat) := by
          rw [BitVec.ofNat_add, BitVec.ofNat_toNat, BitVec.setWidth_eq, add_assoc]
        rw [hsum] at hnext ⊢
        exact ih (by omega) (by omega) hnext

end Walk

/-- The step advances exactly for size fields that are not below -511. On an image that is followed
by zeros, every step of the walk advances and `tarfs_init` returns exactly when every header that it
reads has such a field. -/
theorem tar_walk_advances_iff (m : Mem) (tarStart : Word) (len : ℕ) (hlen : len + 2 ^ 41 ≤ 2 ^ 64)
    (hzeros : ∀ i, len ≤ i → i < len + 2 ^ 41 → m (tarStart + BitVec.ofNat 64 i) = 0#8)
    (t : TarFs) :
    (∀ bytes : List Byte, bytes.length = 12 →
        (Advances (totalSize (oct2binLoop bytes 0#64)) ↔ -511 ≤ fieldValue bytes)) ∧
      (WalkMeets m (fun hdr => Advances (totalSize (headerSize m hdr))) tarStart ∧
          (∃ t', tarfsInit ((len + 511) / 512 + 1) m tarStart t = .ok t') ↔
        WalkMeets m (fun hdr => -511 ≤ fieldValue (field m (hdr + 124#64) 12)) tarStart) := by
  refine ⟨fun bytes => advances_iff, ?_⟩
  have hsame : WalkMeets m (fun hdr => Advances (totalSize (headerSize m hdr))) tarStart ↔
      WalkMeets m (fun hdr => -511 ≤ fieldValue (field m (hdr + 124#64) 12)) tarStart :=
    walkMeets_congr fun hdr => advances_iff (length_field m _ 12)
  rw [← hsame]
  refine and_iff_left_of_imp fun hwalk => ?_
  have hreturns : ∃ t', tarfsInitLoop m ((len + 511) / 512 + 1) (tarStart + BitVec.ofNat 64 0)
      { t with tarFileCount := 0 } = .ok t' :=
    tarfsInitLoop_returns hlen hzeros (by omega) (by omega)
      ((BitVec.add_zero tarStart).symm ▸ hwalk)
  rwa [BitVec.add_zero] at hreturns

theorem tar_walk_advances_greeting :
    WalkMeets greetingImage (fun hdr => Advances (totalSize (headerSize greetingImage hdr)))
        0x1000#64 ∧
      ∃ t', tarfsInit ((1024 + 511) / 512 + 1) greetingImage 0x1000#64
        ⟨0#64, fun _ => ⟨[], 0#64, 0#64, .tarFile⟩, 0⟩ = .ok t' := by
  refine (tar_walk_advances_iff greetingImage 0x1000#64 1024 (by norm_num) (fun i hlo hhi => ?_)
    ⟨0#64, fun _ => ⟨[], 0#64, 0#64, .tarFile⟩, 0⟩).2.mpr ?_
  · have hoffset : (0x1000#64 + BitVec.ofNat 64 i - 0x1000#64).toNat = i :=
      toNat_offset 0x1000#64 (by omega)
    unfold greetingImage
    simp only [hoffset]
    iterate 6 rw [if_neg (by omega)]
  · rw [walkMeets_next (by decide)]
    exact ⟨by decide +kernel, walkMeets_ended (by decide)⟩

/-- The size field of the header at 0x1000 reads `" 01"`, which stands for -1023. -/
def stuckImage : Mem := fun x =>
  let offset := (x - 0x1000#64).toNat
  if offset = 0 then 0x61#8
  else if offset = 124 then 0x20#8
  else if offset = 125 then 0x30#8
  else if offset = 126 then 0x31#8
  else 0#8

/-- A step of 0 bytes: the walk stays at its first header for ever. -/
theorem tar_walk_stuck :
    (∃ bytes : List Byte, bytes.length = 12 ∧ totalSize (oct2binLoop bytes 0#64) = 0#64 ∧
        ¬ Advances (totalSize (oct2binLoop bytes 0#64))) ∧
      (∀ i, 512 ≤ i → i < 512 + 2 ^ 41 → stuckImage (0x1000#64 + BitVec.ofNat 64 i) = 0#8) ∧
      ∀ fuel t, tarfsInit fuel stuckImage 0x1000#64 t = .error .endless := by
  have hzero : totalSize (headerSize stuckImage 0x1000#64) = 0#64 := by decide
  refine ⟨⟨field stuckImage (0x1000#64 + 124#64) 12, length_field _ _ _, hzero, fun hstep => ?_⟩,
    fun i hlo hhi => ?_, fun fuel t => ?_⟩
  · have hleast := hstep.least
    change 512 ≤ (totalSize (headerSize stuckImage 0x1000#64)).toNat at hleast
    rw [hzero] at hleast
    exact absurd hleast (by decide)
  · have hoffset : (0x1000#64 + BitVec.ofNat 64 i - 0x1000#64).toNat = i :=
      toNat_offset 0x1000#64 (by omega)
    unfold stuckImage
    simp only [hoffset]
    iterate 4 rw [if_neg (by omega)]
  · unfold tarfsInit
    generalize { t with tarFileCount := 0 } = t'
    induction fuel generalizing t' with
    | zero => rfl
    | succ fuel ih =>
        rw [tarfsInitLoop_next (by decide), hzero, BitVec.add_zero]
        exact ih _

end Osiris.Tar
