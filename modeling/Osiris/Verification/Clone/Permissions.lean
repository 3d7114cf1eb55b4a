import Osiris.Verification.Clone.UserMemory

/-! # The child's permissions

An entry keeps flags on both sides of its address. `PTE_GET_FLAGS` has all of them, the mask of the
clone only those below. -/

namespace Osiris.Clone

open ByteMemory Strings Page Radix Vmm

/-! ## The two flag masks -/

theorem pteGetFlags_eq (e : Word) :
    pteGetFlags e = e &&& 0xFFF#64 ||| e &&& 0xFFF0000000000000#64 := by
  have hmask : ~~~ pteAddrMask = 0xFFF#64 ||| 0xFFF0000000000000#64 := by decide
  unfold pteGetFlags
  rw [hmask, BitVec.and_or_distrib_left]

theorem getLsbD_highMask {i : ℕ} (hi : i < 64) :
    (0xFFF0000000000000#64).getLsbD i = decide (52 ≤ i) := by
  have hall : ∀ j : Fin 64, (0xFFF0000000000000#64).getLsbD j = decide (52 ≤ j.val) := by decide
  exact hall ⟨i, hi⟩

theorem high_flags_eq_zero_iff {e : Word} :
    e &&& 0xFFF0000000000000#64 = 0#64 ↔ e >>> 52 = 0#64 := by
  constructor
  · intro h
    apply BitVec.eq_of_getLsbD_eq
    intro i hi
    rw [BitVec.getLsbD_ushiftRight, BitVec.getLsbD_zero]
    by_cases hlt : 52 + i < 64
    · have hbit := congrArg (BitVec.getLsbD · (52 + i)) h
      simpa [getLsbD_highMask hlt] using hbit
    · exact BitVec.getLsbD_of_ge e _ (by omega)
  · intro h
    apply BitVec.eq_of_getLsbD_eq
    intro i hi
    rw [BitVec.getLsbD_and, getLsbD_highMask hi, BitVec.getLsbD_zero]
    by_cases hle : 52 ≤ i
    · have hbit := congrArg (BitVec.getLsbD · (i - 52)) h
      have hsum : 52 + (i - 52) = i := by omega
      simp only [BitVec.getLsbD_ushiftRight, hsum, BitVec.getLsbD_zero] at hbit
      rw [hbit, Bool.false_and]
    · simp [hle]

/-- A copied entry has the low flags and no others. -/
theorem pteGetFlags_of_copiedEntry {e e' : Word} (h : CopiedEntry e e') :
    pteGetFlags e' = e &&& 0xFFF#64 := by
  have haddr : pteGetFlags (pteGetAddr e') = 0#64 := by
    rw [pteGetAddr_eq_frameAddr]
    exact pteGetFlags_frameAddr (frameOf_lt e')
  have hlow : pteGetFlags (e &&& 0xFFF#64) = e &&& 0xFFF#64 :=
    pteGetFlags_of_pteGetAddr (pteGetAddr_lowFlags e)
  unfold CopiedEntry at h
  unfold pteGetFlags at haddr hlow ⊢
  rw [h, BitVec.and_or_distrib_right, haddr, hlow, BitVec.zero_or]

/-- The copy has the flags of the original exactly when these are all below the address. -/
theorem pteGetFlags_copiedEntry_eq_iff {e e' : Word} (h : CopiedEntry e e') :
    pteGetFlags e' = pteGetFlags e ↔ e >>> 52 = 0#64 := by
  rw [pteGetFlags_of_copiedEntry h, pteGetFlags_eq, ← high_flags_eq_zero_iff]
  constructor
  · intro heq
    have hlow : 0xFFF#64 &&& 0xFFF0000000000000#64 = 0#64 := by decide
    have hboth := congrArg (· &&& 0xFFF0000000000000#64) heq
    simp only [BitVec.and_or_distrib_right, BitVec.and_assoc, hlow, BitVec.and_zero,
      BitVec.and_self, BitVec.zero_or] at hboth
    exact hboth.symm
  · intro hzero
    rw [hzero, BitVec.or_zero]

/-! ## Pages of the lower half -/

/-- Every page of the lower half has the flags of the original in the child. -/
def KeepsFlags (hh : Word) (m m' : Mem) (r c : ℕ) : Prop :=
  ∀ v e, (pml4Index v).val < 256 → leafEntry hh m r v = some e →
    ∃ e', leafEntry hh m' c v = some e' ∧ pteGetFlags e' = pteGetFlags e

theorem Child.keepsFlags_iff {hh : Word} {s s' : Machine} {r c : ℕ} {child : Word}
    (h : Child hh s s' r child c) :
    KeepsFlags hh s.mem s'.mem r c ↔
      ∀ v e, (pml4Index v).val < 256 → leafEntry hh s.mem r v = some e → e >>> 52 = 0#64 := by
  constructor
  · intro hkeeps v e hv he
    obtain ⟨e', he', hflags⟩ := hkeeps v e hv he
    exact (pteGetFlags_copiedEntry_eq_iff (h.leaf he he').1).mp hflags
  · intro hlow v e hv he
    have hsome : (leafEntry hh s'.mem c v).isSome = true := by
      rw [h.isSome_eq v, he]
      rfl
    obtain ⟨e', he'⟩ := Option.isSome_iff_exists.mp hsome
    exact ⟨e', he', (pteGetFlags_copiedEntry_eq_iff (h.leaf he he').1).mpr (hlow v e hv he)⟩

/-- The child has the flags of the source exactly when no page of the lower half has a flag above
the address. -/
theorem clone_keeps_flags_iff (hh : Word) (hhigh : HigherHalf hh) (s s' : Machine) (r : ℕ)
    (h : Source hh s r) (child : Word)
    (hclone : vmmClonePagemap hh s (some ⟨frameVirt hh r⟩) = (child, s')) (hne : child ≠ 0#64) :
    ∃ c, load64 s'.mem child = frameVirt hh c ∧
      (KeepsFlags hh s.mem s'.mem r c ↔
        ∀ v e, (pml4Index v).val < 256 → leafEntry hh s.mem r v = some e → e >>> 52 = 0#64) := by
  obtain ⟨c, hchild⟩ := child_of_clone hhigh h hclone hne
  exact ⟨c, hchild.top, hchild.keepsFlags_iff⟩

theorem clone_keeps_flags_userPage :
    ∃ c, load64 (vmmClonePagemap directMap (userPage 0x20003#64)
          (some ⟨frameVirt directMap 1⟩)).2.mem
        (vmmClonePagemap directMap (userPage 0x20003#64) (some ⟨frameVirt directMap 1⟩)).1 =
          frameVirt directMap c ∧
      KeepsFlags directMap (userPage 0x20003#64).mem
        (vmmClonePagemap directMap (userPage 0x20003#64) (some ⟨frameVirt directMap 1⟩)).2.mem 1 c := by
  have hleaf : HasFlag 0x20003#64 ptePresent := by decide
  obtain ⟨c, htop, hiff⟩ := clone_keeps_flags_iff directMap (by decide) (userPage 0x20003#64) _ 1
    (userPage_source hleaf) _ Prod.mk.eta.symm (userPage_clones hleaf)
  refine ⟨c, htop, hiff.mpr fun v e _ he => ?_⟩
  obtain ⟨-, rfl⟩ := (onePage_leaf hleaf).mp he
  decide

/-- A page that is not executable is executable in the child. -/
theorem nx_page_executable_in_child :
    Source directMap (userPage 0x8000000000020001#64) 1 ∧
      ∃ child s' c e', vmmClonePagemap directMap (userPage 0x8000000000020001#64)
          (some ⟨frameVirt directMap 1⟩) = (child, s') ∧ child ≠ 0#64 ∧
        load64 s'.mem child = frameVirt directMap c ∧
        ¬ KeepsFlags directMap (userPage 0x8000000000020001#64).mem s'.mem 1 c ∧
        leafEntry directMap (userPage 0x8000000000020001#64).mem 1 0x1000#64 =
          some 0x8000000000020001#64 ∧ HasFlag 0x8000000000020001#64 pteNx ∧
        leafEntry directMap s'.mem c 0x1000#64 = some e' ∧ ¬ HasFlag e' pteNx := by
  have hleaf : HasFlag 0x8000000000020001#64 ptePresent := by decide
  have hne := userPage_clones hleaf
  obtain ⟨c, hchild⟩ := child_of_clone (by decide) (userPage_source hleaf) Prod.mk.eta.symm hne
  have he := userPage_leaf hleaf
  have hsome := hchild.isSome_eq 0x1000#64
  rw [he] at hsome
  obtain ⟨e', he'⟩ := Option.isSome_iff_exists.mp hsome
  refine ⟨userPage_source hleaf, _, _, c, e', Prod.mk.eta.symm, hne, hchild.top, fun hkeeps => ?_,
    he, by decide, he', ?_⟩
  · exact absurd (hchild.keepsFlags_iff.mp hkeeps 0x1000#64 _ (by decide) he) (by decide)
  · have hflags := pteGetFlags_of_copiedEntry (hchild.leaf he he').1
    have hmask : ~~~ pteAddrMask &&& pteNx = pteNx := by decide
    have hnx : e' &&& pteNx = pteGetFlags e' &&& pteNx := by
      unfold pteGetFlags
      rw [BitVec.and_assoc, hmask]
    unfold HasFlag
    rw [hnx, hflags]
    decide

end Osiris.Clone
