import Osiris.Model.Panic

/-! # The symbol before an address

The search keeps a window of entries that it has not compared with the address yet. -/

namespace Osiris.Panic

open ByteMemory Heap

/-- The entries are sorted by their addresses, which may be equal. -/
def Sorted (ksyms : List Ksym) : Prop :=
  ksyms.Pairwise fun s t => s.addr ≤ t.addr

theorem Sorted.addr_le {ksyms : List Ksym} (hsorted : Sorted ksyms) {i j : ℕ} (hij : i ≤ j)
    (hj : j < ksyms.length) : ksyms[i].addr ≤ ksyms[j].addr := by
  by_cases hsame : i = j
  · subst hsame
    exact BitVec.le_refl _
  · exact List.pairwise_iff_getElem.mp hsorted i j (by omega) hj (by omega)

/-- The index is that of the last entry whose address is not above `rip`, if there is one. -/
structure Nearest (ksyms : List Ksym) (rip : Word) (last : Option ℕ) : Prop where
  none_iff : last = none ↔ ∀ sym ∈ ksyms, sym.addr > rip
  found : ∀ i, last = some i → ∃ hi : i < ksyms.length, ksyms[i].addr ≤ rip ∧
    ∀ j (hj : j < ksyms.length), i < j → ksyms[j].addr > rip

/-- The entries before the `a`-th are not above `rip` and those from the `b`-th on are. The bounds
of the search are the first and the last entry between them. -/
structure Window (ksyms : List Ksym) (rip : Word) (a b : ℕ) (l r : BitVec 32) (last : Option ℕ) :
    Prop where
  left : l.toInt = a
  right : r.toInt = b - 1
  ordered : a ≤ b
  bounded : b ≤ ksyms.length
  before : ∀ i (hi : i < ksyms.length), i < a → ksyms[i].addr ≤ rip
  behind : ∀ i (hi : i < ksyms.length), b ≤ i → ksyms[i].addr > rip
  last : last = if a = 0 then none else some (a - 1)

section Search

variable {ksyms : List Ksym} {rip : Word} {a b : ℕ} {l r m : BitVec 32} {last : Option ℕ}

theorem toInt_add_of_fits {x y : BitVec 32} {i j : ℤ} (hx : x.toInt = i) (hy : y.toInt = j)
    (hlo : -2 ^ 31 ≤ i + j) (hhi : i + j < 2 ^ 31) : (x + y).toInt = i + j := by
  rw [BitVec.toInt_add, hx, hy]
  exact Int.bmod_eq_of_le (by norm_num; omega) (by norm_num; omega)

theorem toInt_sub_of_fits {x y : BitVec 32} {i j : ℤ} (hx : x.toInt = i) (hy : y.toInt = j)
    (hlo : -2 ^ 31 ≤ i - j) (hhi : i - j < 2 ^ 31) : (x - y).toInt = i - j := by
  rw [BitVec.toInt_sub, hx, hy]
  exact Int.bmod_eq_of_le (by norm_num; omega) (by norm_num; omega)

theorem toInt_one : (1#32).toInt = 1 := by decide

/-- The entry in the middle of a window is in the table, and no sum overflows. -/
theorem toInt_middle (hl : l.toInt = a) (hr : r.toInt = b - 1) (hab : a < b) (hb : b < 2 ^ 30) :
    ((l + r).sdiv 2#32).toInt = ((a + b - 1) / 2 : ℕ) := by
  have hsum : (l + r).toInt = ((a + b - 1 : ℕ) : ℤ) := by
    rw [toInt_add_of_fits hl hr (by omega) (by omega)]
    omega
  rw [BitVec.toInt_sdiv_of_ne_or_ne _ _ (.inr (by decide)), hsum]
  exact (Int.ofNat_tdiv _ 2).symm

theorem ksymAt_ok {i : ℕ} (hm : m.toInt = i) (hi : i < ksyms.length) :
    ksymAt ksyms m = .ok ksyms[i] := by
  have htoNat : m.toInt.toNat = i := by omega
  unfold ksymAt
  rw [if_neg (by omega), htoNat, List.getElem?_eq_getElem hi]

/-- An empty window is at the place of the address. -/
theorem Window.nearest (h : Window ksyms rip a a l r last) : Nearest ksyms rip last := by
  rw [h.last]
  by_cases ha : a = 0
  · rw [if_pos ha]
    refine ⟨iff_of_true rfl fun sym hsym => ?_, fun i hi => absurd hi (by simp)⟩
    obtain ⟨i, hi, rfl⟩ := List.mem_iff_getElem.mp hsym
    exact h.behind i hi (by omega)
  · have hlt : a - 1 < ksyms.length := by
      have hbounded := h.bounded
      omega
    have hle := h.before (a - 1) hlt (by omega)
    rw [if_neg ha]
    refine ⟨iff_of_false (by simp) fun hall => ?_, fun i hi => ?_⟩
    · exact absurd (hall _ (List.getElem_mem hlt)) (BitVec.not_lt.mpr hle)
    · obtain rfl := Option.some.inj hi
      exact ⟨hlt, hle, fun j hj hij => h.behind j hj (by omega)⟩

/-- The middle entry becomes the first or the last that is left out. -/
theorem Window.round (h : Window ksyms rip a b l r last) (hsorted : Sorted ksyms)
    (hlength : ksyms.length < 2 ^ 30) {i : ℕ} (hm : m.toInt = i) (hi : i < ksyms.length)
    (hlo : a ≤ i) (hhi : i < b) :
    (rip ≥ ksyms[i].addr → Window ksyms rip (i + 1) b (m + 1#32) r (some i)) ∧
      (¬ rip ≥ ksyms[i].addr → Window ksyms rip a i l (m - 1#32) last) := by
  obtain ⟨hleft, hright, hordered, hbounded, hbefore, hbehind, hlast⟩ := h
  constructor
  · intro hge
    refine ⟨?_, hright, by omega, hbounded, fun j hj hji => ?_, hbehind, rfl⟩
    · rw [toInt_add_of_fits hm toInt_one (by omega) (by omega)]
      norm_num
    · exact BitVec.le_trans (hsorted.addr_le (by omega) hi) hge
  · intro hlt
    refine ⟨hleft, ?_, hlo, by omega, hbefore, fun j hj hij => ?_, hlast⟩
    · exact toInt_sub_of_fits hm toInt_one (by omega) (by omega)
    · exact Nat.lt_of_lt_of_le (BitVec.not_le.mp hlt) (hsorted.addr_le hij hj)

theorem Window.odbAddrToSymLoop (h : Window ksyms rip a b l r last) (hsorted : Sorted ksyms)
    (hlength : ksyms.length < 2 ^ 30) {fuel : ℕ} (hfuel : b - a < fuel) :
    ∃ last', Panic.odbAddrToSymLoop ksyms rip fuel l r last = .ok last' ∧
      Nearest ksyms rip last' := by
  induction fuel generalizing a b l r last with
  | zero => omega
  | succ fuel ih =>
      have hordered := h.ordered
      have hbounded := h.bounded
      unfold Panic.odbAddrToSymLoop
      rw [BitVec.sle_eq_decide, h.left, h.right]
      by_cases hab : a < b
      · have hmiddle := toInt_middle h.left h.right hab (by omega)
        have hi : (a + b - 1) / 2 < ksyms.length := by omega
        obtain ⟨hup, hdown⟩ :=
          h.round hsorted hlength hmiddle hi (by omega) (by omega)
        rw [if_pos (decide_eq_true (by omega))]
        dsimp only
        rw [ksymAt_ok hmiddle hi]
        dsimp only [Bind.bind, Except.bind]
        by_cases hge : rip ≥ ksyms[(a + b - 1) / 2].addr
        · rw [if_pos hge, show ((l + r).sdiv 2#32).toInt.toNat = (a + b - 1) / 2 by omega]
          exact ih (hup hge) (by omega)
        · rw [if_neg hge]
          exact ih (hdown hge) (by omega)
      · obtain rfl : a = b := by omega
        rw [if_neg (by simp)]
        exact ⟨last, rfl, h.nearest⟩

/-- At first nothing has been compared. In an empty table `r` is -1. -/
theorem window_start (ksyms : List Ksym) (hlength : ksyms.length < 2 ^ 30) (rip : Word) :
    Window ksyms rip 0 ksyms.length 0#32 ((BitVec.ofNat 64 ksyms.length - 1#64).setWidth 32)
      none := by
  refine ⟨rfl, ?_, Nat.zero_le _, le_rfl, fun i hi hlt => absurd hlt (Nat.not_lt_zero i),
    fun i hi hge => absurd hi (by omega), rfl⟩
  have hwidth : (BitVec.ofNat 64 ksyms.length - 1#64).setWidth 32 =
      BitVec.ofNat 32 ksyms.length - 1#32 := by
    apply BitVec.eq_of_toNat_eq
    rw [BitVec.toNat_setWidth, BitVec.toNat_sub, BitVec.toNat_sub, BitVec.toNat_ofNat,
      BitVec.toNat_ofNat, BitVec.toNat_ofNat, BitVec.toNat_ofNat]
    omega
  have hcount : (BitVec.ofNat 32 ksyms.length).toInt = ksyms.length := by
    rw [BitVec.toInt_ofNat']
    exact Int.bmod_eq_of_le (by norm_num) (by norm_num; omega)
  rw [hwidth]
  exact toInt_sub_of_fits hcount toInt_one (by omega) (by omega)

end Search

/-- `odb_addr_to_sym` returns the last symbol that does not start behind the address, or `NULL` when
there is none, and reads entries of the table only. -/
theorem odbAddrToSym_nearest (ksyms : List Ksym) (hlength : ksyms.length < 2 ^ 30)
    (hsorted : Sorted ksyms) (rip : Word) (fuel : ℕ) (hfuel : ksyms.length < fuel) :
    ∃ last, odbAddrToSym fuel ksyms rip = .ok last ∧ Nearest ksyms rip last :=
  (window_start ksyms hlength rip).odbAddrToSymLoop hsorted hlength hfuel

/-- Two symbols of the kernel have its first address. -/
def firstKsyms : List Ksym :=
  [⟨0xffffffff80001000#64, []⟩, ⟨0xffffffff80001000#64, []⟩, ⟨0xffffffff80001100#64, []⟩]

theorem odbAddrToSym_firstKsyms :
    odbAddrToSym 4 firstKsyms 0xffffffff80001080#64 = .ok (some 1) ∧
      Nearest firstKsyms 0xffffffff80001080#64 (some 1) := by
  have hsorted : Sorted firstKsyms := by
    unfold Sorted
    decide
  obtain ⟨last, hok, hnearest⟩ :=
    odbAddrToSym_nearest firstKsyms (by decide) hsorted 0xffffffff80001080#64 4 (by decide)
  have hlast : odbAddrToSym 4 firstKsyms 0xffffffff80001080#64 = .ok (some 1) := by decide +kernel
  obtain rfl := Except.ok.inj (hok.symm.trans hlast)
  exact ⟨hlast, hnearest⟩

end Osiris.Panic
