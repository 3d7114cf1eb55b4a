import Osiris.Verification.Clone.UserMemory

/-! # Clones that are given back

A clone that fails frees what it has taken, and a clone that was returned can be freed by
`vmm_free_pagemap_clone`. -/

namespace Osiris.Clone

open ByteMemory Strings Page Radix Vmm

/-- Every frame that the source maps is in use, or outside of what the allocator manages. -/
def MappedUsed (hh : Word) (s : Machine) (r : ℕ) : Prop :=
  ∀ v e, leafEntry hh s.mem r v = some e → ¬ s.pmm.Free (frameOf e)

/-- When no clone is returned, the allocator is as it was before the call, and so are the tables
and the pages of the source. -/
theorem failed_clone_leaves_no_trace (hh : Word) (hhigh : HigherHalf hh) (s s' : Machine) (r : ℕ)
    (h : Source hh s r) (hmapped : MappedUsed hh s r)
    (hclone : vmmClonePagemap hh s (some ⟨frameVirt hh r⟩) = (0#64, s')) :
    s'.pmm = s.pmm ∧ (∀ f ∈ footprint (link hh s.mem) 3 r, SamePage hh s.mem s'.mem f) ∧
      ∀ v e, leafEntry hh s.mem r v = some e → SamePage hh s.mem s'.mem (frameOf e) := by
  have hkept : s'.pmm = s.pmm ∧ ∀ x < 2 ^ 40, ¬ s.pmm.Free x → SamePage hh s.mem s'.mem x := by
    by_cases hroot : frameVirt hh r = 0#64
    · rw [clone_of_null hroot, Prod.mk.injEq] at hclone
      rw [← hclone.2]
      exact ⟨rfl, fun x _ _ => SamePage.refl hh _ x⟩
    · rcases vmmClonePagemap_cases hhigh h hroot with
        ⟨m, c, s₁, heq, hne, -⟩ | ⟨s₁, heq, hpmm, hsame, -⟩
      · rw [heq, Prod.mk.injEq] at hclone
        exact absurd hclone.1 hne
      · rw [heq, Prod.mk.injEq] at hclone
        rw [← hclone.2]
        exact ⟨hpmm, hsame⟩
  obtain ⟨hpmm, hsame⟩ := hkept
  refine ⟨hpmm, fun f hf => hsame f (footprint_lt h.root_lt hf) (h.used f hf), fun v e he => ?_⟩
  exact hsame _ (frameOf_lt e) (hmapped v e he)

/-- A machine with two free frames, which are used up before the first table is copied. -/
def crampedPage : Machine :=
  onePage directMap 6 0 1 0x20003#64

theorem crampedPage_source : Source directMap crampedPage 1 :=
  onePage_source (by decide) (by decide) (by norm_num) (by decide)

theorem crampedPage_mapped : MappedUsed directMap crampedPage 1 := by
  intro v e he hfree
  obtain ⟨-, rfl⟩ := (onePage_leaf (by decide)).mp he
  exact absurd (onePage_free.mp hfree).2 (by decide)

theorem crampedPage_fails :
    ∃ s', vmmClonePagemap directMap crampedPage (some ⟨frameVirt directMap 1⟩) = (0#64, s') := by
  have hhigh : HigherHalf directMap := by decide
  have hroot : frameVirt directMap 1 ≠ 0#64 := by decide
  rcases vmmClonePagemap_cases hhigh crampedPage_source hroot with
    ⟨m, c, s', -, -, hm, -, hc, hne, hcopy, hall⟩ | ⟨s', heq, -⟩
  · -- the PDPT of the child would be a third frame
    have hsource : walk (link directMap (prepared directMap crampedPage m c).mem) 1 [0] ≠ none := by
      have hlink : link directMap crampedPage.mem 1 0 = some (tableEntry 2, 2) := onePage_link_pml4
      rw [crampedPage_source.walk_prepared hm hc (by simp), walk_cons_of_some hlink]
      simp
    obtain ⟨⟨es, x⟩, hpdpt⟩ := Option.ne_none_iff_exists'.mp
      (hall 0 (Set.mem_univ _) [] (by simp) hsource)
    obtain ⟨a, g, es', hlink, -⟩ := walk_cons_eq_some.mp hpdpt
    have hfree := ((hcopy.taken g).mp ⟨0, a, g, hlink, mem_footprint_self _ g⟩).1
    obtain ⟨hg, hgm, hgc⟩ := free_prepared.mp hfree
    have hm' := onePage_free.mp hm
    have hc' := onePage_free.mp hc
    have hg' := onePage_free.mp hg
    omega
  · exact ⟨s', heq⟩

theorem failed_clone_leaves_no_trace_crampedPage :
    ∃ s', vmmClonePagemap directMap crampedPage (some ⟨frameVirt directMap 1⟩) = (0#64, s') ∧
      s'.pmm = crampedPage.pmm := by
  obtain ⟨s', hclone⟩ := crampedPage_fails
  exact ⟨s', hclone, (failed_clone_leaves_no_trace directMap (by decide) crampedPage s' 1
    crampedPage_source crampedPage_mapped hclone).1⟩

/-! ## Freeing a clone -/

/-- After a clone and its release the allocator is where the first allocation of the clone had
brought it. -/
theorem pmm_of_freed_clone {hh : Word} (hhigh : HigherHalf hh) {s s' : Machine} {r : ℕ}
    (h : Source hh s r) {child : Word} (hne : child ≠ 0#64)
    (hclone : vmmClonePagemap hh s (some ⟨frameVirt hh r⟩) = (child, s')) :
    ∃ m, child = frameVirt hh m ∧ s.pmm.Free m ∧
      (vmmFreePagemapClone hh s' child).pmm = (s.take hh m).pmm := by
  have hroot : frameVirt hh r ≠ 0#64 := by
    intro hroot
    rw [clone_of_null hroot, Prod.mk.injEq] at hclone
    exact hne hclone.1.symm
  rcases vmmClonePagemap_cases hhigh h hroot with
    ⟨m, c, s₁, heq, -, hm, -, hc, hcm, hcopy, -⟩ | ⟨s₁, heq, -⟩
  · rw [heq, Prod.mk.injEq] at hclone
    obtain ⟨rfl, rfl⟩ := hclone
    obtain ⟨s₂, hfreed, hpmm, -⟩ := freed_spec hhigh h hm hc hcm hcopy
    exact ⟨m, rfl, hm, by rw [hfreed, hpmm]⟩
  · rw [heq, Prod.mk.injEq] at hclone
    exact absurd hclone.1.symm hne

/-- Freeing a clone gives back every frame that cloning took, but the one of its `pagemap_t`. The
caller frees that one itself, as the failing path of `vmm_clone_pagemap` does. -/
theorem free_clone_keeps_only_pagemap (hh : Word) (hhigh : HigherHalf hh) (s s' : Machine) (r : ℕ)
    (h : Source hh s r) (child : Word) (hne : child ≠ 0#64)
    (hclone : vmmClonePagemap hh s (some ⟨frameVirt hh r⟩) = (child, s')) :
    ∃ m, child = frameVirt hh m ∧ s.pmm.Free m ∧
      (∀ i, (vmmFreePagemapClone hh s' child).pmm.memoryBitmap.get i =
        (decide (i = m) || s.pmm.memoryBitmap.get i)) ∧
      (vmmFreePagemapClone hh s' child).pmm.usedPages = s.pmm.usedPages + 1#64 ∧
      (vmmFreePagemapClone hh s' child).pmm.freePages = s.pmm.freePages - 1#64 ∧
      ((vmmFreePagemapClone hh s' child).freePage (child - hh)).pmm = s.pmm := by
  obtain ⟨m, rfl, hm, hpmm⟩ := pmm_of_freed_clone hhigh h hne hclone
  rw [Machine.freePage_pmm, hpmm]
  refine ⟨m, rfl, hm, fun i => Bitmap.get_set _ _ _, rfl, rfl, ?_⟩
  rw [frameVirt_sub]
  exact freePage_take h.valid hm

theorem free_clone_keeps_only_pagemap_userPage :
    ∃ child s', child ≠ 0#64 ∧
      vmmClonePagemap directMap (userPage 0x20003#64) (some ⟨frameVirt directMap 1⟩) =
        (child, s') ∧
      ((vmmFreePagemapClone directMap s' child).freePage (child - directMap)).pmm =
        (userPage 0x20003#64).pmm := by
  have hleaf : HasFlag 0x20003#64 ptePresent := by decide
  refine ⟨_, _, userPage_clones hleaf, Prod.mk.eta.symm, ?_⟩
  obtain ⟨m, -, -, -, -, -, hpmm⟩ := free_clone_keeps_only_pagemap directMap (by decide)
    (userPage 0x20003#64) _ 1 (userPage_source hleaf) _ (userPage_clones hleaf) Prod.mk.eta.symm
  exact hpmm

theorem userPage_mapped : MappedUsed directMap (userPage 0x20003#64) 1 := by
  intro v e he hfree
  obtain ⟨-, rfl⟩ := (onePage_leaf (by decide)).mp he
  exact absurd (onePage_free.mp hfree).2 (by decide)

/-- The frame of the `pagemap_t` is still in use after the release. -/
theorem freed_clone_userPage_not_restored :
    Source directMap (userPage 0x20003#64) 1 ∧ MappedUsed directMap (userPage 0x20003#64) 1 ∧
    ∃ child s', child ≠ 0#64 ∧
      vmmClonePagemap directMap (userPage 0x20003#64) (some ⟨frameVirt directMap 1⟩) =
        (child, s') ∧
      (vmmFreePagemapClone directMap s' child).pmm ≠ (userPage 0x20003#64).pmm := by
  have hleaf : HasFlag 0x20003#64 ptePresent := by decide
  refine ⟨userPage_source hleaf, userPage_mapped, _, _, userPage_clones hleaf,
    Prod.mk.eta.symm, fun hsame => ?_⟩
  obtain ⟨m, -, hm, hpmm⟩ := pmm_of_freed_clone (by decide) (userPage_source hleaf)
    (userPage_clones hleaf) Prod.mk.eta.symm
  rw [hsame] at hpmm
  rw [hpmm] at hm
  exact ((free_take directMap _ m m).mp hm).2 rfl

end Osiris.Clone
