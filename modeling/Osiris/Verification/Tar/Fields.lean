import Osiris.Model.Tar

/-! # Strings and numbers in the headers of an archive -/

namespace Osiris.Tar

open ByteMemory Strings

/-! ## Strings -/

/-- The string at an address, up to its NUL. -/
def StringAt (m : Mem) (p : Word) : List Byte → Prop
  | [] => m p = 0#8
  | c :: s => c ≠ 0#8 ∧ m p = c ∧ StringAt m (p + 1#64) s

instance StringAt.decidable (m : Mem) : (p : Word) → (s : List Byte) → Decidable (StringAt m p s)
  | p, [] => inferInstanceAs (Decidable (m p = 0#8))
  | p, c :: s =>
      have := StringAt.decidable m (p + 1#64) s
      inferInstanceAs (Decidable (c ≠ 0#8 ∧ m p = c ∧ StringAt m (p + 1#64) s))

theorem inRange_of_tail {p x : Word} {n : ℕ} (h : InRange (p + 1#64) n x) :
    InRange p (n + 1) x := by
  unfold InRange at *
  have hsplit : x - p = x - (p + 1#64) + 1#64 := by ring
  rw [hsplit, BitVec.toNat_add]
  have hle := Nat.mod_le ((x - (p + 1#64)).toNat + (1#64).toNat) (2 ^ 64)
  have hone : (1#64).toNat = 1 := rfl
  omega

/-- A string depends only on its characters and the NUL. -/
theorem StringAt.congr {m m' : Mem} {p : Word} {s : List Byte} (hs : StringAt m p s)
    (hsame : ∀ x, InRange p (s.length + 1) x → m' x = m x) : StringAt m' p s := by
  have hfirst : m' p = m p := hsame p (by simp [InRange])
  induction s generalizing p with
  | nil => exact hfirst.trans hs
  | cons c s ih =>
      obtain ⟨hc, hmem, hrest⟩ := hs
      have htail : ∀ x, InRange (p + 1#64) (s.length + 1) x → m' x = m x :=
        fun x hx => hsame x (inRange_of_tail hx)
      exact ⟨hc, hfirst.trans hmem, ih hrest htail (htail _ (by simp [InRange]))⟩

theorem StringAt.ne_zero {m : Mem} {p : Word} {s : List Byte} (hs : StringAt m p s) :
    ∀ c ∈ s, c ≠ 0#8 := by
  induction s generalizing p with
  | nil => simp
  | cons c s ih => exact List.forall_mem_cons.mpr ⟨hs.1, ih hs.2.2⟩

theorem StringAt.apply_getElem {m : Mem} {p : Word} {s : List Byte} {i : ℕ}
    (hs : StringAt m p s) (hi : i < s.length) : m (p + BitVec.ofNat 64 i) = s[i] := by
  induction s generalizing p i with
  | nil => simp at hi
  | cons c s ih =>
      obtain ⟨-, hmem, hrest⟩ := hs
      cases i with
      | zero => simpa using hmem
      | succ i =>
          have hnext := ih hrest (Nat.lt_of_succ_lt_succ hi)
          rwa [add_assoc, add_comm 1#64, ← BitVec.ofNat_add] at hnext

theorem StringAt.apply_ne_zero {m : Mem} {p : Word} {s : List Byte} {i : ℕ} (hs : StringAt m p s)
    (hi : i < s.length) : m (p + BitVec.ofNat 64 i) ≠ 0#8 := by
  rw [hs.apply_getElem hi]
  exact hs.ne_zero _ (List.getElem_mem hi)

theorem StringAt.apply_length {m : Mem} {p : Word} {s : List Byte} (hs : StringAt m p s) :
    m (p + BitVec.ofNat 64 s.length) = 0#8 := by
  induction s generalizing p with
  | nil =>
      rw [List.length_nil, BitVec.add_zero]
      exact hs
  | cons c s ih =>
      have hlast := ih hs.2.2
      rwa [add_assoc, add_comm 1#64, ← BitVec.ofNat_add] at hlast

/-- Two strings compare equal when they are. -/
theorem kstrcmp_eq_zero_iff {m : Mem} {p : Word} {s t : List Byte} (hs : StringAt m p s)
    (ht : ∀ c ∈ t, c ≠ 0#8) : kstrcmp m p t = 0 ↔ t = s := by
  induction t generalizing p s with
  | nil =>
      cases s with
      | nil =>
          have hnul : m p = 0#8 := hs
          simp [kstrcmp, hnul]
      | cons c s =>
          obtain ⟨hc, hmem, -⟩ := hs
          have hpos : (m p).toNat ≠ 0 := fun h0 => hc (hmem ▸ BitVec.eq_of_toNat_eq h0)
          simp only [kstrcmp, reduceCtorEq, iff_false]
          omega
  | cons d t ih =>
      have hd : d ≠ 0#8 := ht d List.mem_cons_self
      have hrest : ∀ c ∈ t, c ≠ 0#8 := fun c hc => ht c (List.mem_cons_of_mem d hc)
      have hdiff : ∀ c : Byte, c ≠ d → ((c.toNat : ℤ) - d.toNat ≠ 0) := by
        intro c hne hzero
        exact hne (BitVec.eq_of_toNat_eq (by omega))
      cases s with
      | nil =>
          have hnul : m p = 0#8 := hs
          rw [kstrcmp, hnul, if_neg (fun h => h.1 rfl)]
          simp only [reduceCtorEq, iff_false]
          exact hdiff 0#8 (Ne.symm hd)
      | cons c s =>
          obtain ⟨hc, hmem, hs⟩ := hs
          rw [kstrcmp, hmem]
          by_cases hcd : c = d
          · rw [if_pos ⟨hc, hcd⟩, ih hs hrest, hcd, List.cons.injEq, eq_self_iff_true, true_and]
          · rw [if_neg (fun h => hcd h.2)]
            have hne := hdiff c hcd
            have hlist : ¬ (d :: t = c :: s) := fun h => hcd (List.cons.inj h).1.symm
            simp [hne, hlist]

/-! ## Octal numbers -/

/-- The digits of a number, as many as are asked for. -/
def octalDigits : ℕ → ℕ → List Byte
  | 0, _ => []
  | k + 1, n => octalDigits k (n / 8) ++ [BitVec.ofNat 8 (0x30 + n % 8)]

theorem oct2binLoop_append {str : List Byte} (hstr : ∀ c ∈ str, c ≠ 0#8) (rest : List Byte)
    (n : Word) : oct2binLoop (str ++ rest) n = oct2binLoop rest (oct2binLoop str n) := by
  induction str generalizing n with
  | nil => rfl
  | cons c str ih =>
      have hc : c ≠ 0#8 := hstr c List.mem_cons_self
      rw [List.cons_append, oct2binLoop, oct2binLoop, if_neg hc, if_neg hc]
      exact ih (fun c hc => hstr c (List.mem_cons_of_mem _ hc)) _

theorem digit_ne_zero {d : ℕ} (hd : d < 8) : BitVec.ofNat 8 (0x30 + d) ≠ 0#8 := by
  interval_cases d <;> decide

theorem octalDigit_ofNat {d : ℕ} (hd : d < 8) :
    octalDigit (BitVec.ofNat 8 (0x30 + d)) = BitVec.ofNat 64 d := by
  interval_cases d <;> decide

theorem octalDigits_ne_zero (k n : ℕ) : ∀ c ∈ octalDigits k n, c ≠ 0#8 := by
  induction k generalizing n with
  | zero => simp [octalDigits]
  | succ k ih =>
      intro c hc
      rw [octalDigits, List.mem_append, List.mem_singleton] at hc
      cases hc with
      | inl hc => exact ih _ c hc
      | inr hc =>
          rw [hc]
          exact digit_ne_zero (Nat.mod_lt n (by norm_num))

theorem shiftLeft_three_add (n d : ℕ) :
    (BitVec.ofNat 64 n <<< 3) + BitVec.ofNat 64 d = BitVec.ofNat 64 (8 * n + d) := by
  apply BitVec.eq_of_toNat_eq
  rw [BitVec.toNat_add, BitVec.toNat_shiftLeft, Nat.shiftLeft_eq, BitVec.toNat_ofNat,
    BitVec.toNat_ofNat, BitVec.toNat_ofNat]
  omega

/-- The digits of a number are read as the number. -/
theorem oct2binLoop_octalDigits {k n : ℕ} (hn : n < 8 ^ k) :
    oct2binLoop (octalDigits k n) 0#64 = BitVec.ofNat 64 n := by
  induction k generalizing n with
  | zero =>
      obtain rfl : n = 0 := by simpa using hn
      rfl
  | succ k ih =>
      have hquot : n / 8 < 8 ^ k := by
        rw [Nat.div_lt_iff_lt_mul (by norm_num)]
        calc n < 8 ^ (k + 1) := hn
          _ = 8 ^ k * 8 := pow_succ 8 k
      have hlast : n % 8 < 8 := Nat.mod_lt n (by norm_num)
      rw [octalDigits, oct2binLoop_append (octalDigits_ne_zero k _), ih hquot, oct2binLoop,
        if_neg (digit_ne_zero hlast), oct2binLoop, octalDigit_ofNat hlast, shiftLeft_three_add,
        Nat.div_add_mod]

/-- A field of digits that ends with a NUL. -/
theorem oct2bin_octalDigits {m : Mem} {str : Word} {size k n : ℕ} (hn : n < 8 ^ k)
    (hfield : field m str size = octalDigits k n ++ [0#8]) :
    oct2bin m str size = BitVec.ofNat 64 n := by
  rw [oct2bin, hfield, oct2binLoop_append (octalDigits_ne_zero k n), oct2binLoop_octalDigits hn]
  rfl

/-! ## From header to header -/

/-- The bytes that a file takes after its header. -/
def padded (n : ℕ) : ℕ :=
  (n + 511) / 512 * 512

theorem totalSize_ofNat {n : ℕ} (hn : n + 511 < 2 ^ 64) :
    totalSize (BitVec.ofNat 64 n) = BitVec.ofNat 64 (512 + padded n) := by
  have hsum : (BitVec.ofNat 64 n + 511#64).toNat = n + 511 := by
    rw [BitVec.toNat_add, BitVec.toNat_ofNat, BitVec.toNat_ofNat]
    omega
  have hmask := toNat_and_not_mask (BitVec.ofNat 64 n + 511#64) (show 9 < 64 by norm_num)
  rw [hsum, show BitVec.ofNat 64 (2 ^ 9) - 1#64 = 511#64 from rfl] at hmask
  apply BitVec.eq_of_toNat_eq
  rw [totalSize, tarBlockSize, BitVec.toNat_add, hmask, BitVec.toNat_ofNat, BitVec.toNat_ofNat]
  unfold padded
  omega

end Osiris.Tar
