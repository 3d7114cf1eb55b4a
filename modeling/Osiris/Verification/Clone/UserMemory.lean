import Osiris.Verification.Clone.OnePage
import Osiris.Verification.Vmm.Map

/-! # The child's copy of user memory -/

namespace Osiris.Clone

open ByteMemory Strings Page Radix Vmm

/-- Every frame that the source maps in the lower half is in use, or outside of what the allocator
manages. -/
def LowerHalfUsed (hh : Word) (s : Machine) (r : ℕ) : Prop :=
  ∀ v e, (pml4Index v).val < 256 → leafEntry hh s.mem r v = some e → ¬ s.pmm.Free (frameOf e)

section

variable {hh : Word} {s s' : Machine} {r c : ℕ} {child : Word}

theorem Child.isSome_eq (h : Child hh s s' r child c) (v : Word) :
    (leafEntry hh s'.mem c v).isSome = (leafEntry hh s.mem r v).isSome := by
  have hiff : leafEntry hh s'.mem c v = none ↔ leafEntry hh s.mem r v = none := by
    rw [leafEntry_eq_none, leafEntry_eq_none]
    exact h.walks _ (pathOf_length v).le
  cases hchild : leafEntry hh s'.mem c v with
  | none => rw [hiff.mp hchild]
  | some e' =>
      cases hsrc : leafEntry hh s.mem r v with
      | none => exact absurd (hiff.mpr hsrc) (by simp [hchild])
      | some e => rfl

/-- The leaf of the child is a copy of the source's. -/
theorem Child.leaf (h : Child hh s s' r child c) {v e e' : Word}
    (hsrc : leafEntry hh s.mem r v = some e) (hchild : leafEntry hh s'.mem c v = some e') :
    CopiedEntry e e' ∧
      (¬ s.pmm.Free (frameOf e) → SameBytes hh s.mem s'.mem (frameOf e) (frameOf e')) := by
  obtain ⟨es, hw⟩ := leafEntry_eq_some.mp hsrc
  obtain ⟨es', hw'⟩ := leafEntry_eq_some.mp hchild
  obtain ⟨es₁, g, hw₁, hes, hbytes⟩ := h.copied _ _ _ (pathOf_length v).le hw'
  rw [hw, Option.some.injEq, Prod.mk.injEq] at hw₁
  obtain ⟨rfl, rfl⟩ := hw₁
  have hlen : es.length = es'.length := by
    have hall := hes.length_eq
    simpa using hall
  refine ⟨?_, hbytes (pathOf_length v)⟩
  have hlast := List.forall₂_iff_get.mp hes
  have hentry := hlast.2 es.length (by simp) (by simp [hlen])
  simpa [hlen] using hentry

/-- The frame of a page of the child was free before the call. -/
theorem Child.frame_free (h : Child hh s s' r child c) {v e' : Word}
    (hchild : leafEntry hh s'.mem c v = some e') : s.pmm.Free (frameOf e') := by
  obtain ⟨es', hw'⟩ := leafEntry_eq_some.mp hchild
  obtain ⟨a, g, es₁, hlink, hw₁, -⟩ := walk_cons_eq_some.mp hw'
  refine h.taken _ ⟨pml4Index v, a, g, hlink, walk_mem_footprint (d := 3) ?_ hw₁⟩
  simp

/-- Two pages of the child have two frames. -/
theorem Child.frame_inj (h : Child hh s s' r child c) {v w e e₁ : Word}
    (hv : leafEntry hh s'.mem c v = some e) (hw : leafEntry hh s'.mem c w = some e₁)
    (hframe : frameOf e₁ = frameOf e) : pageNumber w = pageNumber v := by
  obtain ⟨es, hwv⟩ := leafEntry_eq_some.mp hv
  obtain ⟨es₁, hww⟩ := leafEntry_eq_some.mp hw
  rw [hframe] at hww
  refine pathOf_eq_iff.mp ?_
  exact walk_unique h.tree (pathOf_length w).le (pathOf_length v).le hww hwv

theorem lowFlags_of_copiedEntry {e e' : Word} (h : CopiedEntry e e') :
    e' &&& 0xFFF#64 = e &&& 0xFFF#64 := by
  have hmask : pteAddrMask &&& 0xFFF#64 = 0#64 := by decide
  have haddr : pteGetAddr e' &&& 0xFFF#64 = 0#64 := by
    unfold pteGetAddr
    rw [BitVec.and_assoc, hmask, BitVec.and_zero]
  unfold CopiedEntry at h
  rw [h, BitVec.and_or_distrib_right, haddr, BitVec.zero_or, BitVec.and_assoc, BitVec.and_self]

end

/-- The child maps the same pages of the lower half. Each of them is an equal copy in a frame that
was free, with the low twelve flags of the original, and no table of the source and no mapped frame
in use has changed. -/
theorem clone_copies_user_memory (hh : Word) (hhigh : HigherHalf hh) (s s' : Machine) (r : ℕ)
    (h : Source hh s r) (hlow : LowerHalfUsed hh s r) (child : Word)
    (hclone : vmmClonePagemap hh s (some ⟨frameVirt hh r⟩) = (child, s')) (hne : child ≠ 0#64) :
    ∃ c, load64 s'.mem child = frameVirt hh c ∧
      (∀ v, (pml4Index v).val < 256 →
        (leafEntry hh s'.mem c v).isSome = (leafEntry hh s.mem r v).isSome ∧
        ∀ e e', leafEntry hh s.mem r v = some e → leafEntry hh s'.mem c v = some e' →
          s.pmm.Free (frameOf e') ∧
          frameOf e' ∉ footprint (link hh s.mem) 3 r ∧
          (∀ w e₁, leafEntry hh s.mem r w = some e₁ → ¬ s.pmm.Free (frameOf e₁) →
            frameOf e' ≠ frameOf e₁) ∧
          (∀ w e₁, leafEntry hh s'.mem c w = some e₁ → pageNumber w ≠ pageNumber v →
            frameOf e₁ ≠ frameOf e') ∧
          SameBytes hh s.mem s'.mem (frameOf e) (frameOf e') ∧
          e' &&& 0xFFF#64 = e &&& 0xFFF#64) ∧
      (∀ f ∈ footprint (link hh s.mem) 3 r, SamePage hh s.mem s'.mem f) ∧
      ∀ w e₁, leafEntry hh s.mem r w = some e₁ → ¬ s.pmm.Free (frameOf e₁) →
        SamePage hh s.mem s'.mem (frameOf e₁) := by
  obtain ⟨c, hchild⟩ := child_of_clone hhigh h hclone hne
  refine ⟨c, hchild.top, fun v hv => ⟨hchild.isSome_eq v, fun e e' he he' => ?_⟩, ?_, ?_⟩
  · have hfree := hchild.frame_free he'
    obtain ⟨hcopied, hbytes⟩ := hchild.leaf he he'
    refine ⟨hfree, fun hmem => h.used _ hmem hfree, ?_, ?_, hbytes (hlow v e hv he),
      lowFlags_of_copiedEntry hcopied⟩
    · intro w e₁ _ hused heq
      exact hused (heq ▸ hfree)
    · intro w e₁ hw hpage heq
      exact hpage (hchild.frame_inj he' hw heq)
  · exact fun f hf => hchild.same f (footprint_lt h.root_lt hf) (h.used f hf)
  · exact fun w e₁ _ hused => hchild.same _ (frameOf_lt e₁) hused

/-! ## Sources with one page -/

/-- A source as the boot loader leaves it: the direct map, here of one free frame, is a part of its
kernel half. -/
def directlyMapped : Machine :=
  onePage directMap 15 256 0 0x5003#64

theorem directlyMapped_source : Source directMap directlyMapped 1 :=
  onePage_source (by decide) (by decide) (by norm_num) (by decide)

theorem directlyMapped_lowerHalf : LowerHalfUsed directMap directlyMapped 1 := by
  intro v e hv he
  obtain ⟨hpath, -⟩ := (onePage_leaf (by decide)).mp he
  have hindex : pml4Index v = 256 := (List.cons.inj hpath).1
  rw [hindex] at hv
  exact absurd hv (by decide)

theorem frameOf_directMap_leaf : frameOf 0x5003#64 = 5 := by decide

/-- The direct map reaches the frames that the clone takes. -/
theorem direct_map_page_changed :
    HigherHalf directMap ∧ Source directMap directlyMapped 1 ∧
      LowerHalfUsed directMap directlyMapped 1 ∧
      (vmmClonePagemap directMap directlyMapped (some ⟨frameVirt directMap 1⟩)).1 ≠ 0#64 ∧
      ∃ e, leafEntry directMap directlyMapped.mem 1 0xffff800000000000#64 = some e ∧
        ¬ SamePage directMap directlyMapped.mem
          (vmmClonePagemap directMap directlyMapped (some ⟨frameVirt directMap 1⟩)).2.mem
          (frameOf e) := by
  have hhigh : HigherHalf directMap := by decide
  have hne : (vmmClonePagemap directMap directlyMapped (some ⟨frameVirt directMap 1⟩)).1 ≠ 0#64 :=
    onePage_clones hhigh (by decide) (by decide) (by norm_num) (by decide)
  refine ⟨hhigh, directlyMapped_source, directlyMapped_lowerHalf, hne, 0x5003#64,
    (onePage_leaf (by decide)).mpr ⟨by decide, rfl⟩, fun hsame => ?_⟩
  obtain ⟨m, hm, hlowest, hzero⟩ := clone_clears_lowest hhigh directlyMapped_source
    Prod.mk.eta.symm hne
  have hfree : directlyMapped.pmm.Free 5 := onePage_free.mpr ⟨le_rfl, by norm_num⟩
  have hfive : m = 5 := by
    have hge := (onePage_free.mp hm).1
    by_contra hother
    exact hlowest 5 (by omega) hfree
  have hin : InFrame directMap 5 (frameVirt directMap 5 + BitVec.ofNat 64 8) :=
    inRange_add _ (by norm_num) (by norm_num)
  rw [frameOf_directMap_leaf] at hsame
  have hbyte := hzero 8 le_rfl (by norm_num)
  rw [hfive, hsame _ hin, directlyMapped, onePage_pattern hin] at hbyte
  exact absurd hbyte (by decide)

/-- A source with one user page, in a frame beyond those the allocator manages. -/
def userPage (leaf : Word) : Machine :=
  onePage directMap 15 0 1 leaf

section UserPage

variable {leaf : Word}

theorem userPage_source (hleaf : HasFlag leaf ptePresent) : Source directMap (userPage leaf) 1 :=
  onePage_source (by decide) (by decide) (by norm_num) hleaf

theorem userPage_clones (hleaf : HasFlag leaf ptePresent) :
    (vmmClonePagemap directMap (userPage leaf) (some ⟨frameVirt directMap 1⟩)).1 ≠ 0#64 :=
  onePage_clones (by decide) (by decide) (by decide) (by norm_num) hleaf

theorem userPage_leaf (hleaf : HasFlag leaf ptePresent) :
    leafEntry directMap (userPage leaf).mem 1 0x1000#64 = some leaf :=
  (onePage_leaf hleaf).mpr ⟨by decide, rfl⟩

theorem userPage_lowerHalf (hleaf : HasFlag leaf ptePresent) (hframe : 15 < frameOf leaf) :
    LowerHalfUsed directMap (userPage leaf) 1 := by
  intro v e _ he hfree
  obtain ⟨-, rfl⟩ := (onePage_leaf hleaf).mp he
  have hle := (onePage_free.mp hfree).2
  omega

end UserPage

theorem clone_copies_user_memory_userPage :
    ∃ c, load64 (vmmClonePagemap directMap (userPage 0x20003#64)
          (some ⟨frameVirt directMap 1⟩)).2.mem
        (vmmClonePagemap directMap (userPage 0x20003#64) (some ⟨frameVirt directMap 1⟩)).1 =
          frameVirt directMap c ∧
      (leafEntry directMap (vmmClonePagemap directMap (userPage 0x20003#64)
        (some ⟨frameVirt directMap 1⟩)).2.mem c 0x1000#64).isSome = true := by
  have hleaf : HasFlag 0x20003#64 ptePresent := by decide
  obtain ⟨c, htop, hlow, -⟩ := clone_copies_user_memory directMap (by decide) (userPage 0x20003#64)
    _ 1 (userPage_source hleaf) (userPage_lowerHalf hleaf (by decide)) _
    Prod.mk.eta.symm (userPage_clones hleaf)
  refine ⟨c, htop, ?_⟩
  rw [(hlow 0x1000#64 (by decide)).1, userPage_leaf hleaf]
  rfl

end Osiris.Clone
