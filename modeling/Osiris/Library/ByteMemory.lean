import Mathlib.Data.BitVec
import Mathlib.Tactic

/-! # Byte-addressed memory with little-endian words

Memory is a total function from 64-bit addresses to bytes; address arithmetic wraps. -/

namespace Osiris.ByteMemory

abbrev Word := BitVec 64

abbrev Byte := BitVec 8

abbrev Mem := Word → Byte

/-- `InRange base n a` says that `a` is one of the `n` addresses starting at `base`. -/
def InRange (base : Word) (n : ℕ) (a : Word) : Prop :=
  (a - base).toNat < n

instance (base : Word) (n : ℕ) (a : Word) : Decidable (InRange base n a) :=
  inferInstanceAs (Decidable ((a - base).toNat < n))

/-- Byte store. -/
def setByte (m : Mem) (a : Word) (b : Byte) : Mem :=
  Function.update m a b

/-- Little-endian load of the eight bytes at `a`. -/
def load64 (m : Mem) (a : Word) : Word :=
  m (a + 7#64) ++ m (a + 6#64) ++ m (a + 5#64) ++ m (a + 4#64) ++ m (a + 3#64) ++ m (a + 2#64) ++
    m (a + 1#64) ++ m a

/-- Little-endian store of the eight bytes of `v` at `a`. -/
def store64 (m : Mem) (a v : Word) : Mem := fun x =>
  if InRange a 8 x then v.extractLsb' (8 * (x - a).toNat) 8 else m x

/-- Little-endian store of the four bytes of `v` at `a`. -/
def store32 (m : Mem) (a : Word) (v : BitVec 32) : Mem := fun x =>
  if InRange a 4 x then v.extractLsb' (8 * (x - a).toNat) 8 else m x

/-- Two address ranges have no address in common. -/
def Apart (a : Word) (n : ℕ) (b : Word) (k : ℕ) : Prop :=
  ∀ x, InRange a n x → ¬ InRange b k x

theorem Apart.symm {a b : Word} {n k : ℕ} (h : Apart a n b k) : Apart b k a n :=
  fun x hb ha => h x ha hb

theorem toNat_offset (base : Word) {i : ℕ} (hi : i < 2 ^ 64) :
    (base + BitVec.ofNat 64 i - base).toNat = i := by
  rw [BitVec.add_comm, BitVec.add_sub_cancel, BitVec.toNat_ofNat, Nat.mod_eq_of_lt hi]

theorem inRange_offset_iff (base : Word) {n i : ℕ} (hi : i < 2 ^ 64) :
    InRange base n (base + BitVec.ofNat 64 i) ↔ i < n := by
  unfold InRange
  rw [toNat_offset base hi]

theorem inRange_self (a : Word) {n : ℕ} (hn : 0 < n) : InRange a n a := by
  unfold InRange
  rwa [BitVec.sub_self]

theorem inRange_add (base : Word) {n i : ℕ} (hi : i < n) (hn : n ≤ 2 ^ 64) :
    InRange base n (base + BitVec.ofNat 64 i) :=
  (inRange_offset_iff base (by omega)).mpr hi

/-- Every address of a range is its base plus an offset below the length. -/
theorem InRange.exists_offset {base : Word} {n : ℕ} {a : Word} (h : InRange base n a) :
    ∃ i < n, a = base + BitVec.ofNat 64 i := by
  refine ⟨(a - base).toNat, h, ?_⟩
  rw [BitVec.ofNat_toNat, BitVec.setWidth_eq, BitVec.add_comm, BitVec.sub_add_cancel]

/-- A part of an object is in the object. -/
theorem inRange_field {p x : Word} {k n size : ℕ} (h : InRange (p + BitVec.ofNat 64 k) n x)
    (hle : k + n ≤ size) (hsize : size ≤ 2 ^ 64) : InRange p size x := by
  obtain ⟨i, hi, rfl⟩ := h.exists_offset
  rw [add_assoc, ← BitVec.ofNat_add]
  exact inRange_add p (by omega) hsize

/-- Two parts of an object, one behind the other. -/
theorem apart_fields (p : Word) {k n k' n' : ℕ} (hle : k + n ≤ k') (hlt : k' + n' ≤ 2 ^ 64) :
    Apart (p + BitVec.ofNat 64 k) n (p + BitVec.ofNat 64 k') n' := by
  intro x hx hy
  obtain ⟨i, hi, rfl⟩ := hx.exists_offset
  obtain ⟨j, hj, heq⟩ := hy.exists_offset
  rw [add_assoc, add_assoc, ← BitVec.ofNat_add, ← BitVec.ofNat_add] at heq
  have hnat := congrArg BitVec.toNat (add_left_cancel heq)
  rw [BitVec.toNat_ofNat, BitVec.toNat_ofNat, Nat.mod_eq_of_lt (by omega),
    Nat.mod_eq_of_lt (by omega)] at hnat
  omega

theorem store64_of_inRange (m : Mem) (a v : Word) {i : ℕ} (hi : i < 8) :
    store64 m a v (a + BitVec.ofNat 64 i) = v.extractLsb' (8 * i) 8 := by
  have hin : InRange a 8 (a + BitVec.ofNat 64 i) := inRange_add a hi (by norm_num)
  unfold store64
  rw [if_pos hin, toNat_offset a (by omega)]

theorem store64_of_not_inRange (m : Mem) (a v x : Word) (hx : ¬ InRange a 8 x) :
    store64 m a v x = m x := by
  unfold store64
  rw [if_neg hx]

/-- A load depends only on the eight bytes it covers. -/
theorem load64_congr {m m' : Mem} {a : Word} (h : ∀ x, InRange a 8 x → m' x = m x) :
    load64 m' a = load64 m a := by
  have hb : ∀ i < 8, m' (a + BitVec.ofNat 64 i) = m (a + BitVec.ofNat 64 i) :=
    fun i hi => h _ (inRange_add a hi (by norm_num))
  have h0 : m' a = m a := by simpa using hb 0 (by norm_num)
  unfold load64
  rw [h0, hb 1 (by norm_num), hb 2 (by norm_num), hb 3 (by norm_num), hb 4 (by norm_num),
    hb 5 (by norm_num), hb 6 (by norm_num), hb 7 (by norm_num)]

@[simp] theorem load64_store64_same (m : Mem) (a v : Word) : load64 (store64 m a v) a = v := by
  have hb : ∀ i < 8, store64 m a v (a + BitVec.ofNat 64 i) = v.extractLsb' (8 * i) 8 :=
    fun i hi => store64_of_inRange m a v hi
  have h0 : store64 m a v a = v.extractLsb' 0 8 := by simpa using hb 0 (by norm_num)
  unfold load64
  rw [h0, hb 1 (by norm_num), hb 2 (by norm_num), hb 3 (by norm_num), hb 4 (by norm_num),
    hb 5 (by norm_num), hb 6 (by norm_num), hb 7 (by norm_num)]
  iterate 7 rw [BitVec.extractLsb'_append_extractLsb'_eq_extractLsb' (by norm_num)]
  exact BitVec.extractLsb'_eq_self

/-- The bytes of a word can be read back from it. -/
theorem extractLsb'_load64 (m : Mem) (a : Word) {i : ℕ} (hi : i < 8) :
    (load64 m a).extractLsb' (8 * i) 8 = m (a + BitVec.ofNat 64 i) := by
  unfold load64
  apply BitVec.eq_of_getLsbD_eq
  intro j hj
  rw [BitVec.getLsbD_extractLsb']
  simp only [BitVec.getLsbD_append]
  interval_cases i <;> simp [hj] <;> grind

/-- Memories that give the same word agree on its bytes. -/
theorem eq_of_load64_eq {m m' : Mem} {a x : Word} (h : load64 m' a = load64 m a)
    (hx : InRange a 8 x) : m' x = m x := by
  obtain ⟨i, hi, rfl⟩ := hx.exists_offset
  rw [← extractLsb'_load64 m' a hi, h, extractLsb'_load64 m a hi]

theorem load64_store64_apart (m : Mem) (a b v : Word) (h : Apart a 8 b 8) :
    load64 (store64 m b v) a = load64 m a :=
  load64_congr fun x hx => store64_of_not_inRange m b v x (h x hx)

/-! ## Masks -/

/-- Clearing the low `k` bits rounds down to a multiple of `2 ^ k`. -/
theorem toNat_and_not_mask (x : Word) {k : ℕ} (hk : k < 64) :
    (x &&& ~~~ (BitVec.ofNat 64 (2 ^ k) - 1#64)).toNat = x.toNat / 2 ^ k * 2 ^ k := by
  have hpow : 2 ^ k < 2 ^ 64 := Nat.pow_lt_pow_right (by norm_num) hk
  have hones : BitVec.ofNat 64 (2 ^ k) - 1#64 = BitVec.ofNat 64 (2 ^ k - 1) := by
    have hpos : 0 < 2 ^ k := Nat.two_pow_pos k
    apply BitVec.eq_of_toNat_eq
    rw [BitVec.toNat_sub, BitVec.toNat_ofNat, BitVec.toNat_ofNat, BitVec.toNat_ofNat]
    omega
  have hshift : x &&& ~~~ (BitVec.ofNat 64 (2 ^ k) - 1#64) = (x >>> k) <<< k := by
    rw [hones]
    apply BitVec.eq_of_getLsbD_eq
    intro i hi
    rw [BitVec.getLsbD_and, BitVec.getLsbD_not, BitVec.getLsbD_ofNat,
      Nat.testBit_two_pow_sub_one, BitVec.getLsbD_shiftLeft, BitVec.getLsbD_ushiftRight]
    by_cases h : i < k
    · simp [h, hi]
    · simp [h, hi, Nat.add_sub_cancel' (Nat.not_lt.mp h)]
  have hle : x.toNat / 2 ^ k * 2 ^ k ≤ x.toNat := Nat.div_mul_le_self _ _
  rw [hshift, BitVec.toNat_shiftLeft, BitVec.toNat_ushiftRight, Nat.shiftRight_eq_div_pow,
    Nat.shiftLeft_eq, Nat.mod_eq_of_lt (lt_of_le_of_lt hle x.isLt)]

/-! ## Byte loops -/

/-- The memory after `n` rounds of `p[i] = b`, with `i` counting up from zero. -/
def fillUp (m : Mem) (p : Word) (b : Byte) : ℕ → Mem
  | 0 => m
  | n + 1 => setByte (fillUp m p b n) (p + BitVec.ofNat 64 n) b

/-- The memory after `n` rounds of `dest[i] = src[i]`, with `i` counting up from zero. -/
def copyUp (m : Mem) (dest src : Word) : ℕ → Mem
  | 0 => m
  | n + 1 =>
      let m' := copyUp m dest src n
      setByte m' (dest + BitVec.ofNat 64 n) (m' (src + BitVec.ofNat 64 n))

/-- The memory after `n` rounds of `dest[i] = src[i]`, with `i` counting down to zero. -/
def copyDown (m : Mem) (dest src : Word) : ℕ → Mem
  | 0 => m
  | n + 1 =>
      copyDown (setByte m (dest + BitVec.ofNat 64 n) (m (src + BitVec.ofNat 64 n))) dest src n

theorem fillUp_eq_foldl (m : Mem) (p : Word) (b : Byte) (n : ℕ) :
    fillUp m p b n = (List.range n).foldl (fun m i => setByte m (p + BitVec.ofNat 64 i) b) m := by
  induction n with
  | zero => rfl
  | succ n ih =>
      rw [fillUp, ih, List.range_succ, List.foldl_append]
      rfl

theorem copyUp_eq_foldl (m : Mem) (dest src : Word) (n : ℕ) :
    copyUp m dest src n = (List.range n).foldl
      (fun m i => setByte m (dest + BitVec.ofNat 64 i) (m (src + BitVec.ofNat 64 i))) m := by
  induction n with
  | zero => rfl
  | succ n ih =>
      rw [copyUp, ih, List.range_succ, List.foldl_append]
      rfl

theorem setByte_same (m : Mem) (a : Word) (b : Byte) : setByte m a b a = b := by
  simp [setByte]

theorem setByte_of_ne (m : Mem) {a x : Word} (b : Byte) (h : x ≠ a) : setByte m a b x = m x := by
  simp [setByte, h]

/-- A range of `n + 1` addresses is a range of `n` addresses and one more. -/
theorem inRange_succ {p x : Word} {n : ℕ} (hn : n < 2 ^ 64) :
    InRange p (n + 1) x ↔ InRange p n x ∨ x = p + BitVec.ofNat 64 n := by
  constructor
  · intro h
    rcases Nat.lt_succ_iff_lt_or_eq.mp h with hlt | heq
    · exact Or.inl hlt
    · right
      obtain ⟨i, -, rfl⟩ := h.exists_offset
      rw [BitVec.add_comm p, BitVec.add_sub_cancel] at heq
      rw [← heq, BitVec.ofNat_toNat, BitVec.setWidth_eq]
  · rintro (h | rfl)
    · exact Nat.lt_succ_of_lt h
    · exact inRange_add p (Nat.lt_succ_self n) hn

theorem fillUp_apply (m : Mem) (p : Word) (b : Byte) {n : ℕ} (hn : n ≤ 2 ^ 64) (x : Word) :
    fillUp m p b n x = if InRange p n x then b else m x := by
  induction n with
  | zero => simp [fillUp, InRange]
  | succ n ih =>
      have hstep := inRange_succ (p := p) (x := x) (n := n) (by omega)
      rw [fillUp]
      by_cases hx : x = p + BitVec.ofNat 64 n
      · rw [if_pos (hstep.mpr (Or.inr hx)), hx, setByte_same]
      · rw [setByte_of_ne _ _ hx, ih (by omega)]
        simp only [hstep, hx, or_false]

theorem fillUp_of_not_inRange (m : Mem) (p : Word) (b : Byte) {n : ℕ} (hn : n ≤ 2 ^ 64) {x : Word}
    (hx : ¬ InRange p n x) : fillUp m p b n x = m x := by
  rw [fillUp_apply m p b hn, if_neg hx]

/-- Copying forwards never writes outside the destination. -/
theorem copyUp_of_not_inRange (m : Mem) (dest src : Word) {n : ℕ} (hn : n ≤ 2 ^ 64) {x : Word}
    (hx : ¬ InRange dest n x) : copyUp m dest src n x = m x := by
  induction n with
  | zero => rfl
  | succ n ih =>
      rw [inRange_succ (by omega), not_or] at hx
      rw [copyUp, setByte_of_ne _ _ hx.2]
      exact ih (by omega) hx.1

theorem add_ofNat_ne (p : Word) {i j : ℕ} (hi : i < 2 ^ 64) (hj : j < 2 ^ 64) (hne : i ≠ j) :
    p + BitVec.ofNat 64 i ≠ p + BitVec.ofNat 64 j := by
  intro heq
  have hnat := congrArg BitVec.toNat (add_left_cancel heq)
  rw [BitVec.toNat_ofNat, BitVec.toNat_ofNat, Nat.mod_eq_of_lt hi, Nat.mod_eq_of_lt hj] at hnat
  exact hne hnat

/-- Copying forwards moves every byte that is not written before it is read. -/
theorem copyUp_of_ahead (m : Mem) (dest src : Word) {n i : ℕ} (hn : n ≤ 2 ^ 64)
    (hahead : ∀ i < n, ∀ j < i, src + BitVec.ofNat 64 i ≠ dest + BitVec.ofNat 64 j) (hi : i < n) :
    copyUp m dest src n (dest + BitVec.ofNat 64 i) = m (src + BitVec.ofNat 64 i) := by
  induction n with
  | zero => omega
  | succ n ih =>
      rw [copyUp]
      by_cases hlast : i = n
      · rw [hlast, setByte_same]
        refine copyUp_of_not_inRange m dest src (by omega) fun hin => ?_
        obtain ⟨j, hj, heq⟩ := hin.exists_offset
        exact hahead n (Nat.lt_succ_self n) j hj heq
      · rw [setByte_of_ne _ _ (add_ofNat_ne dest (by omega) (by omega) hlast)]
        exact ih (by omega) (fun i hi => hahead i (by omega)) (by omega)

/-- Copying between ranges that are apart moves every byte. -/
theorem copyUp_offset (m : Mem) (dest src : Word) {n i : ℕ} (hn : n ≤ 2 ^ 64)
    (hapart : Apart src n dest n) (hi : i < n) :
    copyUp m dest src n (dest + BitVec.ofNat 64 i) = m (src + BitVec.ofNat 64 i) := by
  refine copyUp_of_ahead m dest src hn (fun i hi j hj heq => ?_) hi
  refine hapart _ (inRange_add src hi hn) ?_
  rw [heq]
  exact inRange_add dest (by omega) hn

/-- Copying backwards never writes outside the destination. -/
theorem copyDown_of_not_inRange (m : Mem) (dest src : Word) {n : ℕ} (hn : n ≤ 2 ^ 64) {x : Word}
    (hx : ¬ InRange dest n x) : copyDown m dest src n x = m x := by
  induction n generalizing m with
  | zero => rfl
  | succ n ih =>
      rw [inRange_succ (by omega), not_or] at hx
      rw [copyDown, ih _ (by omega) hx.1, setByte_of_ne _ _ hx.2]

/-- Copying backwards moves every byte that is not written before it is read. -/
theorem copyDown_of_behind (m : Mem) (dest src : Word) {n i : ℕ} (hn : n ≤ 2 ^ 64)
    (hbehind : ∀ j < n, ∀ i < j, src + BitVec.ofNat 64 i ≠ dest + BitVec.ofNat 64 j) (hi : i < n) :
    copyDown m dest src n (dest + BitVec.ofNat 64 i) = m (src + BitVec.ofNat 64 i) := by
  induction n generalizing m with
  | zero => omega
  | succ n ih =>
      rw [copyDown]
      by_cases hlast : i = n
      · rw [hlast, copyDown_of_not_inRange _ dest src (by omega), setByte_same]
        intro hin
        obtain ⟨j, hj, heq⟩ := hin.exists_offset
        exact add_ofNat_ne dest (by omega) (by omega) (by omega) heq
      · rw [ih _ (by omega) (fun j hj => hbehind j (by omega)) (by omega)]
        exact setByte_of_ne _ _ (hbehind n (Nat.lt_succ_self n) i (by omega))

/-! ## Memory seen through an offset -/

/-- Address `x` of the result is address `x + d` of the memory. -/
def shift (m : Mem) (d : Word) : Mem := fun x => m (x + d)

section Shift

variable {m : Mem} {a d : Word}

theorem inRange_shift {n : ℕ} {x : Word} : InRange (a + d) n (x + d) ↔ InRange a n x := by
  unfold InRange
  rw [add_sub_add_right_eq_sub]

theorem load64_shift : load64 (shift m d) a = load64 m (a + d) := by
  unfold load64 shift
  simp only [add_right_comm a _ d]

theorem store64_shift {v : Word} : store64 (shift m d) a v = shift (store64 m (a + d) v) d := by
  funext x
  unfold store64 shift
  simp only [inRange_shift, add_sub_add_right_eq_sub]

theorem fillUp_shift {b : Byte} {n : ℕ} (hn : n ≤ 2 ^ 64) :
    fillUp (shift m d) a b n = shift (fillUp m (a + d) b n) d := by
  funext x
  unfold shift
  rw [fillUp_apply _ _ _ hn, fillUp_apply _ _ _ hn]
  simp only [inRange_shift]

end Shift

end Osiris.ByteMemory
