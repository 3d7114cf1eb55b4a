import Osiris.Verification.Page.Ownership

/-! # The data of the boot loader

`pmm_init` takes memory that the boot loader says may be reclaimed for free memory at once, while
the kernel goes on reading the responses that the boot loader left there. -/

namespace Osiris.Page

open ByteMemory

/-! ## Successive allocations -/

/-- What the next `n` calls of `allocate_page` return. -/
def allocations (hh : Word) : ℕ → Machine → List Word
  | 0, _ => []
  | n + 1, s => (allocatePage hh s).1 :: allocations hh n (allocatePage hh s).2

/-- One of the next `n` calls of `allocate_page` returns frame `f`. -/
def HandsOut (hh : Word) (s : Machine) (n f : ℕ) : Prop :=
  ∃ page ∈ allocations hh n s, page ≠ 0#64 ∧ page.toNat / 4096 = f

/-- The number of free frames below `f`. -/
def Pmm.freeBelow (pmm : Pmm) (f : ℕ) : ℕ :=
  (pmm.freeFrames.filter fun g => g < f).card

theorem handsOut_succ {hh : Word} {s : Machine} {n f : ℕ} :
    HandsOut hh s (n + 1) f ↔
      ((allocatePage hh s).1 ≠ 0#64 ∧ (allocatePage hh s).1.toNat / 4096 = f) ∨
        HandsOut hh (allocatePage hh s).2 n f := by
  simp only [HandsOut, allocations, List.mem_cons, exists_eq_or_imp]

theorem freeBelow_lowest {pmm : Pmm} {i : ℕ} (hmin : ∀ j < i, ¬ pmm.Free j) :
    pmm.freeBelow i = 0 := by
  unfold Pmm.freeBelow
  rw [Finset.card_eq_zero, Finset.filter_eq_empty_iff]
  exact fun j hj hlt => hmin j hlt (mem_freeFrames.mp hj)

/-- Taking a frame leaves one free frame less below every frame above it. -/
theorem freeBelow_take (hh : Word) {s : Machine} {i f : ℕ} (hi : s.pmm.Free i) (hlt : i < f) :
    (s.take hh i).pmm.freeBelow f + 1 = s.pmm.freeBelow f := by
  have herase : ((s.take hh i).pmm.freeFrames.filter fun g => g < f) =
      (s.pmm.freeFrames.filter fun g => g < f).erase i := by
    ext g
    rw [Finset.mem_erase, Finset.mem_filter, Finset.mem_filter, mem_freeFrames, mem_freeFrames,
      free_take]
    tauto
  unfold Pmm.freeBelow
  rw [herase]
  exact Finset.card_erase_add_one (Finset.mem_filter.mpr ⟨mem_freeFrames.mpr hi, hlt⟩)

/-- Frames are handed out in order, each when the free ones below it are gone. -/
theorem handsOut_iff {hh : Word} {s : Machine} (hcap : s.pmm.highestPage < frameLimit)
    (hzero : ¬ s.pmm.Free 0) (n f : ℕ) :
    HandsOut hh s n f ↔ s.pmm.Free f ∧ s.pmm.freeBelow f < n := by
  induction n generalizing s with
  | zero => simp [HandsOut, allocations]
  | succ n ih =>
      rw [handsOut_succ]
      cases allocatePage_cases hh s with
      | inl hfail =>
          rw [hfail.1, ih hcap hzero]
          simp [hfail.2 f]
      | inr hok =>
          obtain ⟨i, hi, hmin, heq⟩ := hok
          have hlim : i < frameLimit := lt_of_le_of_lt hi.1 hcap
          have hpos : i ≠ 0 := fun h0 => hzero (h0 ▸ hi)
          have hzero' : ¬ (s.take hh i).pmm.Free 0 :=
            fun h => hzero ((free_take hh s i 0).mp h).1
          have hcap' : (s.take hh i).pmm.highestPage < frameLimit := hcap
          rw [heq, ih hcap' hzero', free_take, toNat_frameAddr hlim,
            Nat.mul_div_cancel i (by norm_num)]
          rcases lt_trichotomy f i with hlt | rfl | hgt
          · have hused := hmin f hlt
            simp [hused, hlt.ne']
          · simp [hi, freeBelow_lowest hmin, frameAddr_ne_zero hlim hpos]
          · have hcount := freeBelow_take hh hi hgt
            have hne : i ≠ f := hgt.ne
            simp only [hne, and_false, false_or, hgt.ne', ne_eq, not_false_eq_true, and_true]
            refine and_congr_right fun _ => ?_
            omega

/-! ## The responses -/

/-- The physical address lies in memory that the boot loader uses for its own data. -/
def InReclaimable (entries : List MemmapEntry) (addr : Word) : Prop :=
  ∃ entry ∈ entries, entry.type = .bootloaderReclaimable ∧
    entry.base.toNat ≤ addr.toNat ∧ addr.toNat < entry.base.toNat + entry.length.toNat

/-- The physical addresses of the two responses that the kernel reads after `pmm_init`. -/
structure BootResponses (entries : List MemmapEntry) where
  hhdm : Word
  module : Word
  hhdm_reclaimable : InReclaimable entries hhdm
  module_reclaimable : InReclaimable entries module

/-- The frame lies wholly inside an entry of free memory, the bitmap covers it, and it is neither
part of the kernel, nor of the bitmap, nor of the first mebibyte. -/
def GivenAway (entries : List MemmapEntry) (kaddr : KernelAddress) (image : KernelImage)
    (f : ℕ) : Prop :=
  ((∃ entry ∈ entries, f ∈ entryPages entry) ∧ f ≤ clampedHighestPage entries) ∧
    f ∉ kernelPages kaddr image ∧ f ∉ bitmapPages kaddr image ∧ f ∉ pagesBelow1mb

instance (entries : List MemmapEntry) (kaddr : KernelAddress) (image : KernelImage) :
    DecidablePred (GivenAway entries kaddr image) :=
  fun f => inferInstanceAs (Decidable (((∃ entry ∈ entries, f ∈ entryPages entry) ∧
    f ≤ clampedHighestPage entries) ∧ f ∉ kernelPages kaddr image ∧ f ∉ bitmapPages kaddr image ∧
      f ∉ pagesBelow1mb))

/-- `n` allocations after `pmm_init` leave the frame alone: it is not given away, or there are
enough frames given away below it. -/
def SparedBy (entries : List MemmapEntry) (kaddr : KernelAddress) (image : KernelImage)
    (n f : ℕ) : Prop :=
  GivenAway entries kaddr image f →
    n ≤ ((Finset.range f).filter (GivenAway entries kaddr image)).card

theorem free_initTables (entries : List MemmapEntry) (kaddr : KernelAddress) (image : KernelImage)
    (f : ℕ) : (initTables entries kaddr image).Free f ↔ GivenAway entries kaddr image f :=
  (initTables_spec entries kaddr image).2 f

theorem freeBelow_initTables (entries : List MemmapEntry) (kaddr : KernelAddress)
    (image : KernelImage) (f : ℕ) :
    (initTables entries kaddr image).freeBelow f =
      ((Finset.range f).filter (GivenAway entries kaddr image)).card := by
  have hset : ((initTables entries kaddr image).freeFrames.filter fun g => g < f) =
      (Finset.range f).filter (GivenAway entries kaddr image) := by
    ext g
    rw [Finset.mem_filter, Finset.mem_filter, mem_freeFrames, Finset.mem_range, free_initTables,
      and_comm]
  unfold Pmm.freeBelow
  rw [hset]

theorem not_handsOut_iff (hh : Word) {entries : List MemmapEntry} {kaddr : KernelAddress}
    {image : KernelImage} {pmm : Pmm} (hpmm : pmm = initTables entries kaddr image) (mem : Mem)
    (n f : ℕ) : ¬ HandsOut hh ⟨pmm, mem⟩ n f ↔ SparedBy entries kaddr image n f := by
  have hcap : pmm.highestPage < frameLimit := hpmm ▸ initTables_highestPage_lt entries kaddr image
  have hzero : ¬ pmm.Free 0 := hpmm ▸ initTables_zero_used entries kaddr image
  unfold SparedBy
  rw [handsOut_iff (s := ⟨pmm, mem⟩) hcap hzero, not_and, not_lt]
  dsimp only
  rw [hpmm, free_initTables, freeBelow_initTables]

/-- The first `n` allocations spare both responses exactly when each lies in a frame that is not
given away, or has `n` frames below it that are. -/
theorem boot_responses_spared_iff (hh : Word) (entries : List MemmapEntry) (kaddr : KernelAddress)
    (image : KernelImage) (pmm : Pmm) (hinit : pmmInit (some entries) (some kaddr) image = .ok pmm)
    (mem : Mem) (boot : BootResponses entries) (n : ℕ) :
    (¬ HandsOut hh ⟨pmm, mem⟩ n (boot.hhdm.toNat / 4096) ∧
        ¬ HandsOut hh ⟨pmm, mem⟩ n (boot.module.toNat / 4096)) ↔
      SparedBy entries kaddr image n (boot.hhdm.toNat / 4096) ∧
        SparedBy entries kaddr image n (boot.module.toNat / 4096) := by
  have hpmm := pmmInit_ok hinit
  rw [not_handsOut_iff hh hpmm, not_handsOut_iff hh hpmm]

/-- A machine whose boot loader keeps its data right above the first mebibyte. -/
def reclaimableMap : List MemmapEntry :=
  [⟨0#64, 0x100000#64, .usable⟩, ⟨0x100000#64, 0x2000#64, .bootloaderReclaimable⟩,
    ⟨0x102000#64, 0x1fe000#64, .usable⟩]

def reclaimableResponses : BootResponses reclaimableMap where
  hhdm := 0x100040#64
  module := 0x101080#64
  hhdm_reclaimable := ⟨⟨0x100000#64, 0x2000#64, .bootloaderReclaimable⟩, by decide⟩
  module_reclaimable := ⟨⟨0x100000#64, 0x2000#64, .bootloaderReclaimable⟩, by decide⟩

/-- No frame is given away below the data of the boot loader. -/
theorem reclaimableMap_first {f : ℕ} (hf : f < 256) :
    ¬ GivenAway reclaimableMap smallKernel smallImage f :=
  fun hgiven => hgiven.2.2.2 (mem_pageRange.mpr ⟨Nat.zero_le f, by omega⟩)

theorem reclaimableMap_givenAway : GivenAway reclaimableMap smallKernel smallImage 256 := by
  refine ⟨⟨⟨⟨0x100000#64, 0x2000#64, .bootloaderReclaimable⟩, by decide, ?_⟩, by decide⟩, ?_, ?_, ?_⟩
  · exact mem_pageRange.mpr (by decide)
  · exact fun h => absurd (mem_pageRange.mp h) (by decide)
  · exact fun h => absurd (mem_pageRange.mp h) (by decide)
  · exact fun h => absurd (mem_pageRange.mp h) (by decide)

/-- There the first call of `allocate_page` returns the frame of the response that says where the
direct map is. -/
theorem boot_response_handed_out :
    HandsOut directMap ⟨initTables reclaimableMap smallKernel smallImage, fun _ => 0xAA#8⟩ 1
      (reclaimableResponses.hhdm.toNat / 4096) := by
  have hspared := not_handsOut_iff directMap
    (Eq.refl (initTables reclaimableMap smallKernel smallImage)) (fun _ => 0xAA#8) 1 256
  by_contra hnot
  have hcount := hspared.mp hnot reclaimableMap_givenAway
  have hempty : (Finset.range 256).filter (GivenAway reclaimableMap smallKernel smallImage) = ∅ := by
    rw [Finset.filter_eq_empty_iff]
    exact fun f hf => reclaimableMap_first (Finset.mem_range.mp hf)
  rw [hempty] at hcount
  exact absurd hcount (by decide)

/-- A machine whose boot loader keeps its data in the first mebibyte. -/
def lowMap : List MemmapEntry :=
  [⟨0x80000#64, 0x2000#64, .bootloaderReclaimable⟩, ⟨0x100000#64, 0x200000#64, .usable⟩]

def lowResponses : BootResponses lowMap where
  hhdm := 0x80040#64
  module := 0x81080#64
  hhdm_reclaimable := ⟨⟨0x80000#64, 0x2000#64, .bootloaderReclaimable⟩, by decide⟩
  module_reclaimable := ⟨⟨0x80000#64, 0x2000#64, .bootloaderReclaimable⟩, by decide⟩

theorem boot_responses_spared_iff_lowMap :
    ¬ HandsOut directMap ⟨initTables lowMap smallKernel smallImage, fun _ => 0xAA#8⟩ 1000
        (lowResponses.hhdm.toNat / 4096) ∧
      ¬ HandsOut directMap ⟨initTables lowMap smallKernel smallImage, fun _ => 0xAA#8⟩ 1000
        (lowResponses.module.toNat / 4096) := by
  refine (boot_responses_spared_iff directMap lowMap smallKernel smallImage _ rfl
    (fun _ => 0xAA#8) lowResponses 1000).mpr ⟨fun hgiven => ?_, fun hgiven => ?_⟩
  · exact absurd (mem_pageRange.mpr (by decide)) hgiven.2.2.2
  · exact absurd (mem_pageRange.mpr (by decide)) hgiven.2.2.2

end Osiris.Page
