import Osiris.Verification.Page.Init

/-! # What `pmm_init` reserves of the kernel image

The image is loaded at `physical_base` from `virtual_base` on, where the requests for the boot
loader are placed before `_text_start`. The reserved range starts at `physical_base` as well, but
has the length of what follows `_text_start` only. -/

namespace Osiris.Page

open ByteMemory

/-- The image as the linker script lays it out. -/
structure ImageLayout (kaddr : KernelAddress) (image : KernelImage) : Prop where
  physical_aligned : kaddr.physicalBase.toNat % 4096 = 0
  virtual_aligned : kaddr.virtualBase.toNat % 4096 = 0
  text : kaddr.virtualBase.toNat ≤ image.textStart.toNat
  bss : image.textStart.toNat ≤ image.bssEnd.toNat
  bitmap_start : kaddr.virtualBase.toNat ≤ image.memoryBitmap.toNat
  bitmap_end : image.memoryBitmap.toNat + pmmBitmapSize ≤ image.bssEnd.toNat

/-- The end of the image in physical memory. -/
def imageEnd (kaddr : KernelAddress) (image : KernelImage) : ℕ :=
  kaddr.physicalBase.toNat + (image.bssEnd.toNat - kaddr.virtualBase.toNat)

/-- Some byte of the frame belongs to the image. -/
def OverlapsImage (kaddr : KernelAddress) (image : KernelImage) (f : ℕ) : Prop :=
  ∃ x, f * 4096 ≤ x ∧ x < (f + 1) * 4096 ∧ kaddr.physicalBase.toNat ≤ x ∧ x < imageEnd kaddr image

/-- The frame belongs to the end of the image, beyond the range that is reserved for it. -/
def InTail (kaddr : KernelAddress) (image : KernelImage) (f : ℕ) : Prop :=
  kaddr.physicalBase.toNat ≤ f * 4096 ∧ (kPhysEnd kaddr image).toNat ≤ f * 4096 ∧
    f * 4096 < imageEnd kaddr image

section

variable {kaddr : KernelAddress} {image : KernelImage} {f : ℕ}

theorem overlapsImage_iff (h : ImageLayout kaddr image) :
    OverlapsImage kaddr image f ↔
      kaddr.physicalBase.toNat ≤ f * 4096 ∧ f * 4096 < imageEnd kaddr image := by
  have halign := h.physical_aligned
  constructor
  · rintro ⟨x, hlo, hhi, hstart, hend⟩
    omega
  · rintro ⟨hstart, hend⟩
    exact ⟨f * 4096, le_rfl, by omega, hstart, hend⟩

theorem kPhysEnd_mod (h : ImageLayout kaddr image) : (kPhysEnd kaddr image).toNat % 4096 = 0 := by
  have halign := h.physical_aligned
  have hup := alignUp_mod (image.bssEnd - image.textStart)
  unfold kPhysEnd kPhysStart
  dsimp only
  rw [BitVec.toNat_add]
  omega

/-- The part of the image that is not reserved as such is its tail. -/
theorem inTail_iff (h : ImageLayout kaddr image) :
    InTail kaddr image f ↔ OverlapsImage kaddr image f ∧ f ∉ kernelPages kaddr image := by
  have halign := h.physical_aligned
  have hend := kPhysEnd_mod h
  rw [overlapsImage_iff h]
  unfold InTail kernelPages kPhysStart
  rw [mem_pageRange]
  omega

end

/-- `pmm_init` marks the whole image exactly when no frame of its tail is given to the allocator:
each of them lies outside of free memory, or is reserved for the bitmap or with the first
mebibyte. -/
theorem image_protected_iff (entries : List MemmapEntry) (kaddr : KernelAddress)
    (image : KernelImage) (pmm : Pmm) (hlayout : ImageLayout kaddr image)
    (hinit : pmmInit (some entries) (some kaddr) image = .ok pmm) :
    (∀ f ≤ pmm.highestPage, OverlapsImage kaddr image f → pmm.memoryBitmap.get f = true) ↔
      ∀ f ≤ clampedHighestPage entries, InTail kaddr image f →
        (∀ entry ∈ entries, f ∉ entryPages entry) ∨ f ∈ bitmapPages kaddr image ∨
          f ∈ pagesBelow1mb := by
  obtain rfl := pmmInit_ok hinit
  obtain ⟨hhighest, hfree⟩ := initTables_spec entries kaddr image
  have hset : ∀ f ≤ clampedHighestPage entries,
      ((initTables entries kaddr image).memoryBitmap.get f = true ↔
        ¬ (initTables entries kaddr image).Free f) := by
    intro f hf
    unfold Pmm.Free
    rw [hhighest]
    simp [hf]
  rw [hhighest]
  constructor
  · intro hprotected f hf htail
    obtain ⟨hover, hout⟩ := (inTail_iff hlayout).mp htail
    have hused := (hset f hf).mp (hprotected f hf hover)
    rw [hfree] at hused
    by_contra hnot
    push Not at hnot
    obtain ⟨hentry, hbitmap, hlow⟩ := hnot
    exact hused ⟨⟨hentry, hf⟩, hout, hbitmap, hlow⟩
  · intro htail f hf hover
    rw [hset f hf, hfree]
    rintro ⟨⟨⟨entry, hentry, hmem⟩, -⟩, hout, hbitmap, hlow⟩
    rcases htail f hf ((inTail_iff hlayout).mpr ⟨hover, hout⟩) with hnone | hin | hin
    · exact hnone entry hentry hmem
    · exact hbitmap hin
    · exact hlow hin

/-- An image without anything before `_text_start` has no tail. -/
def tightImage : KernelImage :=
  ⟨0xffffffff80000000#64, 0xffffffff80103000#64, 0xffffffff80002000#64⟩

/-- One page of requests before `_text_start`, as in the linker script. -/
def loadedImage : KernelImage :=
  ⟨0xffffffff80001000#64, 0xffffffff80103000#64, 0xffffffff80002000#64⟩

def loadedKernel : KernelAddress :=
  ⟨0x200000#64, 0xffffffff80000000#64⟩

/-- Four mebibytes of usable memory that hold the image as well. -/
def usableMap : List MemmapEntry :=
  [⟨0x100000#64, 0x400000#64, .usable⟩]

theorem tightImage_layout : ImageLayout loadedKernel tightImage :=
  ⟨by decide, by decide, by decide, by decide, by decide, by decide⟩

theorem loadedImage_layout : ImageLayout loadedKernel loadedImage :=
  ⟨by decide, by decide, by decide, by decide, by decide, by decide⟩

theorem image_protected_tightImage :
    ∃ pmm, pmmInit (some usableMap) (some loadedKernel) tightImage = .ok pmm ∧
      ∀ f ≤ pmm.highestPage, OverlapsImage loadedKernel tightImage f →
        pmm.memoryBitmap.get f = true := by
  refine ⟨_, rfl, (image_protected_iff usableMap loadedKernel tightImage _ tightImage_layout rfl).mpr
    fun f _ htail => ?_⟩
  obtain ⟨-, hlo, hhi⟩ := htail
  have hend : imageEnd loadedKernel tightImage = (kPhysEnd loadedKernel tightImage).toNat := by
    decide
  omega

/-- The last page of the image is free after `pmm_init`. -/
theorem last_image_page_free :
    ImageLayout loadedKernel loadedImage ∧
      ∃ pmm, pmmInit (some usableMap) (some loadedKernel) loadedImage = .ok pmm ∧
        770 ≤ pmm.highestPage ∧ OverlapsImage loadedKernel loadedImage 770 ∧
        pmm.memoryBitmap.get 770 = false := by
  refine ⟨loadedImage_layout, _, rfl, ?_, ⟨770 * 4096, by decide⟩, ?_⟩
  · rw [(initTables_spec usableMap loadedKernel loadedImage).1]
    decide
  · have hfree : (initTables usableMap loadedKernel loadedImage).Free 770 := by
      refine ((initTables_spec usableMap loadedKernel loadedImage).2 770).mpr
        ⟨⟨⟨_, List.mem_singleton_self _, mem_pageRange.mpr (by decide)⟩, by decide⟩, ?_, ?_, ?_⟩
      · exact fun h => absurd (mem_pageRange.mp h) (by decide)
      · exact fun h => absurd (mem_pageRange.mp h) (by decide)
      · exact fun h => absurd (mem_pageRange.mp h) (by decide)
    exact hfree.2

end Osiris.Page
