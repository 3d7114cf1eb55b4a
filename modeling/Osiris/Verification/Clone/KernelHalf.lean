import Osiris.Verification.Clone.UserMemory

/-! # The kernel half of a clone

Both functions have a branch for the regions of the kernel. It compares the index, shifted left,
with `VMM_HIGHER_HALF`, while the addresses of those regions are sign-extended. -/

namespace Osiris.Clone

open ByteMemory Strings Page Radix Vmm

/-- The virtual address at which the region of a PML4 entry starts: bit 47 is repeated above. -/
def canonicalBase (pml4I : Index) : Word :=
  (BitVec.ofNat 48 pml4I <<< 39).signExtend 64

/-- The region is one of the kernel's. -/
def KernelRegion (hh : Word) (pml4I : Index) : Prop :=
  canonicalBase pml4I ≥ hh

instance (hh : Word) (pml4I : Index) : Decidable (KernelRegion hh pml4I) :=
  inferInstanceAs (Decidable (_ ≥ _))

/-- The child in `s'`, whose PML4 is in frame `c`, shares the kernel half of the source in `s`. -/
structure SharesKernelHalf (hh : Word) (s s' : Machine) (r : ℕ) (child : Word) (c : ℕ) : Prop where
  entries : ∀ i, KernelRegion hh i → entry hh s'.mem c i = entry hh s.mem r i
  tables : ∀ i (q : List Index), KernelRegion hh i → q.length ≤ 3 →
    walk (link hh s'.mem) c (i :: q) = walk (link hh s.mem) r (i :: q)
  taken : ∀ i (q : List Index) es g, KernelRegion hh i → q.length ≤ 3 →
    walk (link hh s'.mem) c (i :: q) = some (es, g) → ¬ (s.pmm.Free g ∧ ¬ s'.pmm.Free g)
  kept : ∀ i (q : List Index) es g, KernelRegion hh i → q.length ≤ 3 →
    walk (link hh s'.mem) c (i :: q) = some (es, g) → ¬ s'.pmm.Free g →
      ¬ (vmmFreePagemapClone hh s' child).pmm.Free g

section

variable {hh : Word} {s s' : Machine} {r c : ℕ} {child : Word}

/-- A present entry is never the same in the child: its frame was free, and the source's was not. -/
theorem Child.entry_ne (hchild : Child hh s s' r child c) (h : Source hh s r) {i : Index}
    (hpresent : HasFlag (entry hh s.mem r i) ptePresent) :
    entry hh s'.mem c i ≠ entry hh s.mem r i := by
  intro heq
  have hsrc : link hh s.mem r i = some (entry hh s.mem r i, frameOf (entry hh s.mem r i)) :=
    link_eq_some.mpr ⟨rfl, hpresent, rfl⟩
  have hcopy : link hh s'.mem c i = some (entry hh s.mem r i, frameOf (entry hh s.mem r i)) :=
    link_eq_some.mpr ⟨heq, hpresent, rfl⟩
  have hfree : s.pmm.Free (frameOf (entry hh s.mem r i)) :=
    hchild.taken _ ⟨i, _, _, hcopy, mem_footprint_self _ _⟩
  exact h.used _ (footprint_child_subset hsrc (mem_footprint_self _ _)) hfree

/-- The child shares the kernel half exactly when the source has none. -/
theorem Child.sharesKernelHalf_iff (hchild : Child hh s s' r child c) (h : Source hh s r) :
    SharesKernelHalf hh s s' r child c ↔
      ∀ i, KernelRegion hh i → ¬ HasFlag (entry hh s.mem r i) ptePresent := by
  constructor
  · intro hshares i hi hpresent
    exact hchild.entry_ne h hpresent (hshares.entries i hi)
  · intro habsent
    have hlink : ∀ i, KernelRegion hh i → link hh s.mem r i = none := fun i hi =>
      link_of_not_present (habsent i hi)
    have hnone : ∀ i (q : List Index), KernelRegion hh i → q.length ≤ 3 →
        walk (link hh s'.mem) c (i :: q) = none := by
      intro i q hi hlen
      have hlen' : (i :: q).length ≤ 4 := Nat.succ_le_succ hlen
      exact (hchild.walks _ hlen').mpr (walk_cons_of_none (hlink i hi) q)
    refine ⟨fun i hi => ?_, fun i q hi hlen => ?_, fun i q es g hi hlen hw => ?_,
      fun i q es g hi hlen hw => ?_⟩
    · have hzero := (h.formed r (mem_footprint_self _ r) i).resolve_right (habsent i hi)
      rw [hzero]
      exact hchild.empty i (hlink i hi)
    · rw [hnone i q hi hlen, walk_cons_of_none (hlink i hi)]
    · rw [hnone i q hi hlen] at hw
      exact absurd hw (by simp)
    · rw [hnone i q hi hlen] at hw
      exact absurd hw (by simp)

end

/-- The clone shares the kernel half of the source exactly when no entry of the source's PML4 is
present there. -/
theorem clone_shares_kernel_half_iff (hh : Word) (hhigh : HigherHalf hh) (s s' : Machine) (r : ℕ)
    (h : Source hh s r) (child : Word)
    (hclone : vmmClonePagemap hh s (some ⟨frameVirt hh r⟩) = (child, s')) (hne : child ≠ 0#64) :
    ∃ c, load64 s'.mem child = frameVirt hh c ∧
      (SharesKernelHalf hh s s' r child c ↔
        ∀ i, KernelRegion hh i → ¬ HasFlag (entry hh s.mem r i) ptePresent) := by
  obtain ⟨c, hchild⟩ := child_of_clone hhigh h hclone hne
  exact ⟨c, hchild.top, hchild.sharesKernelHalf_iff h⟩

theorem clone_shares_kernel_half_userPage :
    ∃ child s' c, vmmClonePagemap directMap (userPage 0x20003#64) (some ⟨frameVirt directMap 1⟩) =
        (child, s') ∧ load64 s'.mem child = frameVirt directMap c ∧
      SharesKernelHalf directMap (userPage 0x20003#64) s' 1 child c := by
  have hleaf : HasFlag 0x20003#64 ptePresent := by decide
  obtain ⟨c, htop, hiff⟩ := clone_shares_kernel_half_iff directMap (by decide)
    (userPage 0x20003#64) _ 1 (userPage_source hleaf) _ Prod.mk.eta.symm (userPage_clones hleaf)
  refine ⟨_, _, c, Prod.mk.eta.symm, htop, hiff.mpr fun i hi hpresent => ?_⟩
  have hzero : i = 0 := by
    rcases onePage_link (by norm_num) (link_eq_some.mpr ⟨rfl, hpresent, rfl⟩) with
      ⟨-, hi, -⟩ | ⟨hone, -⟩ | ⟨hone, -⟩ | ⟨hone, -⟩
    · exact hi
    all_goals exact absurd hone (by norm_num)
  rw [hzero] at hi
  exact absurd hi (by decide)

/-- A source whose only page is the kernel's, at the start of the higher half. -/
def kernelPage : Machine :=
  onePage directMap 15 256 0 0x20003#64

/-- The tables of the kernel page are copied, and the copies take the place of the originals. -/
theorem kernel_tables_copied :
    HigherHalf directMap ∧ Source directMap kernelPage 1 ∧ KernelRegion directMap 256 ∧
      ∃ child s' c, vmmClonePagemap directMap kernelPage (some ⟨frameVirt directMap 1⟩) =
          (child, s') ∧ child ≠ 0#64 ∧ load64 s'.mem child = frameVirt directMap c ∧
        entry directMap s'.mem c 256 ≠ entry directMap kernelPage.mem 1 256 ∧
        ¬ SharesKernelHalf directMap kernelPage s' 1 child c := by
  have hleaf : HasFlag 0x20003#64 ptePresent := by decide
  have hhigh : HigherHalf directMap := by decide
  have hregion : KernelRegion directMap 256 := by decide
  have hsource : Source directMap kernelPage 1 :=
    onePage_source (by decide) (by decide) (by norm_num) hleaf
  have hne : (vmmClonePagemap directMap kernelPage (some ⟨frameVirt directMap 1⟩)).1 ≠ 0#64 :=
    onePage_clones hhigh (by decide) (by decide) (by norm_num) hleaf
  have hpresent : HasFlag (entry directMap kernelPage.mem 1 256) ptePresent := by
    have hentry : entry directMap kernelPage.mem 1 256 = tableEntry 2 :=
      onePage_entry (by norm_num) 256
    rw [hentry]
    decide
  obtain ⟨c, hchild⟩ := child_of_clone hhigh hsource Prod.mk.eta.symm hne
  have hentry := hchild.entry_ne hsource hpresent
  exact ⟨hhigh, hsource, hregion, _, _, c, Prod.mk.eta.symm, hne, hchild.top, hentry,
    fun hshares => hentry (hshares.entries 256 hregion)⟩

end Osiris.Clone
