import Osiris.Verification.Page.Init

/-! # Ownership of physical frames

Callers that free only what they were given never share a frame, and never hold one that the
machine or the kernel keeps for itself. -/

namespace Osiris.Page

open ByteMemory

/-- A run of the allocator with the addresses handed out and not yet given back. Between two
calls memory may change in any way. -/
inductive OwnedRun (hh : Word) (start : Machine) : Machine → List Word → Prop where
  | init : OwnedRun hh start start []
  | failed {s out} : OwnedRun hh start s out → (allocatePage hh s).1 = 0#64 →
      OwnedRun hh start (allocatePage hh s).2 out
  | allocated {s out} : OwnedRun hh start s out → (allocatePage hh s).1 ≠ 0#64 →
      OwnedRun hh start (allocatePage hh s).2 ((allocatePage hh s).1 :: out)
  | freed {s out page} : OwnedRun hh start s out → page ∈ out →
      OwnedRun hh start (s.freePage page) (out.erase page)
  | wrote {s out} (mem : Mem) : OwnedRun hh start s out → OwnedRun hh start { s with mem } out

/-- The frame lies wholly inside a memory-map entry of free memory. -/
def InsideFreeEntry (entries : List MemmapEntry) (f : ℕ) : Prop :=
  ∃ entry ∈ entries, (entry.type = .usable ∨ entry.type = .bootloaderReclaimable) ∧
    entry.base.toNat ≤ f * 4096 ∧ (f + 1) * 4096 ≤ entry.base.toNat + entry.length.toNat

/-- No byte of the frame has a physical address in `[start, stop)`. -/
def OutsideRange (f : ℕ) (start stop : Word) : Prop :=
  ∀ x, f * 4096 ≤ x → x < (f + 1) * 4096 → ¬ (start.toNat ≤ x ∧ x < stop.toNat)

/-- What is promised about the address of a frame in circulation. -/
structure OwnedFrame (entries : List MemmapEntry) (kaddr : KernelAddress) (image : KernelImage)
    (pmm : Pmm) (page : Word) : Prop where
  aligned : page = frameAddr (page.toNat / 4096)
  managed : page.toNat / 4096 ≤ pmm.highestPage
  capacity : pmm.highestPage < 8 * pmmBitmapSize
  inside : InsideFreeEntry entries (page.toNat / 4096)
  above1mb : 0x100000 ≤ page.toNat
  kernel : OutsideRange (page.toNat / 4096) (kPhysStart kaddr) (kPhysEnd kaddr image)
  bitmap : OutsideRange (page.toNat / 4096) (bitmapPhysStart kaddr image) (bitmapPhysEnd kaddr image)

/-! ## The reserved ranges -/

theorem outside_kernel {kaddr : KernelAddress} {image : KernelImage} {f : ℕ}
    (halign : kaddr.physicalBase.toNat % 4096 = 0) (hf : f ∉ kernelPages kaddr image) :
    OutsideRange f (kPhysStart kaddr) (kPhysEnd kaddr image) := by
  have hend : (kPhysEnd kaddr image).toNat % 4096 = 0 := by
    have hup := alignUp_mod (image.bssEnd - image.textStart)
    unfold kPhysEnd kPhysStart
    dsimp only
    rw [BitVec.toNat_add]
    omega
  unfold kernelPages at hf
  rw [mem_pageRange] at hf
  rintro x hlo hhi ⟨hstart, hstop⟩
  omega

theorem outside_bitmap {kaddr : KernelAddress} {image : KernelImage} {f : ℕ}
    (hcap : f < 8 * pmmBitmapSize) (hf : f ∉ bitmapPages kaddr image) :
    OutsideRange f (bitmapPhysStart kaddr image) (bitmapPhysEnd kaddr image) := by
  have hround : (bitmapPhysEnd kaddr image + 4096#64 - 1#64).toNat =
      ((bitmapPhysEnd kaddr image).toNat + 4095) % 2 ^ 64 := by
    rw [add_sub_assoc, BitVec.toNat_add]
    rfl
  have hend : (bitmapPhysEnd kaddr image).toNat =
      ((bitmapPhysStart kaddr image).toNat + 1048576) % 2 ^ 64 := by
    unfold bitmapPhysEnd
    rw [BitVec.toNat_add]
    rfl
  unfold bitmapPages at hf
  rw [mem_pageRange, hround] at hf
  unfold pmmBitmapSize at hcap
  rintro x hlo hhi ⟨hstart, hstop⟩
  omega

/-! ## Runs -/

section Run

variable {hh : Word} {start s : Machine} {out : List Word}

/-- The invariant of a run: the frames in circulation were free at the start, are in use now and
are all different, and no other frame has become free. -/
structure OwnedInv (start s : Machine) (out : List Word) : Prop where
  highest : s.pmm.highestPage = start.pmm.highestPage
  free_start : ∀ f, s.pmm.Free f → start.pmm.Free f
  nodup : out.Nodup
  owned : ∀ page ∈ out, ∃ f, page = frameAddr f ∧ start.pmm.Free f ∧ ¬ s.pmm.Free f

theorem OwnedInv.init (start : Machine) : OwnedInv start start [] :=
  ⟨rfl, fun _ h => h, List.nodup_nil, by simp⟩

theorem OwnedInv.allocated (hcap : start.pmm.highestPage < frameLimit)
    (h : OwnedInv start s out) (hne : (allocatePage hh s).1 ≠ 0#64) :
    OwnedInv start (allocatePage hh s).2 ((allocatePage hh s).1 :: out) := by
  rcases allocatePage_cases hh s with ⟨hfail, -⟩ | ⟨i, hfree, -, hok⟩
  · rw [hfail] at hne
    exact absurd rfl hne
  · have hlim : ∀ f, start.pmm.Free f → f < frameLimit := fun f hf => lt_of_le_of_lt hf.1 hcap
    rw [hok]
    refine ⟨h.highest, fun f hf => h.free_start f ((free_take hh s i f).mp hf).1, ?_, ?_⟩
    · refine List.nodup_cons.mpr ⟨fun hmem => ?_, h.nodup⟩
      obtain ⟨f, hf, hstart, hused⟩ := h.owned _ hmem
      have hif := frameAddr_inj (hlim i (h.free_start i hfree)) (hlim f hstart) hf
      exact hused (hif ▸ hfree)
    · intro page hpage
      rcases List.mem_cons.mp hpage with rfl | hpage
      · exact ⟨i, rfl, h.free_start i hfree, fun hf => ((free_take hh s i i).mp hf).2 rfl⟩
      · obtain ⟨f, hf, hstart, hused⟩ := h.owned page hpage
        exact ⟨f, hf, hstart, fun hfree => hused ((free_take hh s i f).mp hfree).1⟩

theorem OwnedInv.freed (hcap : start.pmm.highestPage < frameLimit)
    (h : OwnedInv start s out) {page : Word} (hpage : page ∈ out) :
    OwnedInv start (s.freePage page) (out.erase page) := by
  obtain ⟨i, hi, histart, -⟩ := h.owned page hpage
  have hlim : ∀ f, start.pmm.Free f → f < frameLimit := fun f hf => lt_of_le_of_lt hf.1 hcap
  have hfree : ∀ f, (s.freePage page).pmm.Free f → s.pmm.Free f ∨ f = i := by
    intro f hf
    rcases free_freePage.mp hf with hf | ⟨haddr, hflim, -, -⟩
    · exact Or.inl hf
    · exact Or.inr (frameAddr_inj hflim (hlim i histart) (haddr.symm.trans hi))
  refine ⟨(freePage_highestPage _ _).trans h.highest, fun f hf => ?_, h.nodup.erase page, ?_⟩
  · rcases hfree f hf with hf | rfl
    · exact h.free_start f hf
    · exact histart
  · intro other hother
    obtain ⟨hne, hmem⟩ := (h.nodup.mem_erase_iff).mp hother
    obtain ⟨f, hf, hstart, hused⟩ := h.owned other hmem
    refine ⟨f, hf, hstart, fun hnow => ?_⟩
    rcases hfree f hnow with hnow | rfl
    · exact hused hnow
    · exact hne (hf.trans hi.symm)

theorem OwnedRun.inv (hcap : start.pmm.highestPage < frameLimit)
    (hrun : OwnedRun hh start s out) : OwnedInv start s out := by
  induction hrun with
  | init => exact OwnedInv.init start
  | @failed s out _ hzero ih =>
      rcases allocatePage_cases hh s with ⟨hfail, -⟩ | ⟨i, hfree, -, hok⟩
      · rw [hfail]
        exact ih
      · -- a frame whose address is `NULL` would be taken and lost, but nobody holds it
        rw [hok]
        refine ⟨ih.highest, fun f hf => ih.free_start f ((free_take hh s i f).mp hf).1,
          ih.nodup, fun page hpage => ?_⟩
        obtain ⟨f, hf, hstart, hused⟩ := ih.owned page hpage
        exact ⟨f, hf, hstart, fun hnow => hused ((free_take hh s i f).mp hnow).1⟩
  | allocated _ hne ih => exact ih.allocated hcap hne
  | freed _ hpage ih => exact ih.freed hcap hpage
  | wrote mem _ ih => exact ⟨ih.highest, ih.free_start, ih.nodup, ih.owned⟩

end Run

/-- The page at the address returned by a successful `allocate_page` is all zero. -/
theorem allocatePage_zeroed (hh : Word) (s : Machine) (hne : (allocatePage hh s).1 ≠ 0#64)
    {k : ℕ} (hk : k < 4096) :
    (allocatePage hh s).2.mem ((allocatePage hh s).1 + hh + BitVec.ofNat 64 k) = 0#8 := by
  rcases allocatePage_cases hh s with ⟨hfail, -⟩ | ⟨i, -, -, hok⟩
  · rw [hfail] at hne
    exact absurd rfl hne
  · rw [hok]
    exact take_zero s (inRange_add _ hk (by norm_num))

/-- `allocate_page` fails when no frame is left. -/
theorem allocatePage_eq_null_iff (hh : Word) {s : Machine} (hcap : s.pmm.highestPage < frameLimit)
    (hzero : ¬ s.pmm.Free 0) :
    (allocatePage hh s).1 = 0#64 ↔ ∀ i ≤ s.pmm.highestPage, s.pmm.memoryBitmap.get i = true := by
  rcases allocatePage_cases hh s with ⟨hfail, hnone⟩ | ⟨i, hi, -, hok⟩
  · rw [hfail]
    refine ⟨fun _ j hj => ?_, fun _ => rfl⟩
    by_contra hbit
    exact hnone j ⟨hj, by simpa using hbit⟩
  · have hne : i ≠ 0 := fun h0 => hzero (h0 ▸ hi)
    rw [hok]
    constructor
    · exact fun hnull => absurd hnull (frameAddr_ne_zero (lt_of_le_of_lt hi.1 hcap) hne)
    · intro hall
      have hset := hall i hi.1
      rw [hi.2] at hset
      exact absurd hset (by simp)

/-- The frames that are free after `pmm_init` are those that may be given away. -/
theorem ownedFrame_of_free {entries : List MemmapEntry} {kaddr : KernelAddress}
    {image : KernelImage}
    (hwrap : ∀ entry ∈ entries, entry.base.toNat + entry.length.toNat + 4096 < 2 ^ 64)
    (halign : kaddr.physicalBase.toNat % 4096 = 0) {pmm : Pmm}
    (hhighest : pmm.highestPage = (initTables entries kaddr image).highestPage) {f : ℕ}
    (hf : (initTables entries kaddr image).Free f) :
    OwnedFrame entries kaddr image pmm (frameAddr f) := by
  have hclamp := clampedHighestPage_lt entries
  have hlim : f < frameLimit :=
    lt_of_le_of_lt hf.1 (initTables_highestPage_lt entries kaddr image)
  have hindex : (frameAddr f).toNat / 4096 = f := by
    rw [toNat_frameAddr hlim, Nat.mul_div_cancel f (by norm_num)]
  obtain ⟨hstart, hfree⟩ := initTables_spec entries kaddr image
  obtain ⟨⟨⟨entry, hentry, hpages⟩, hle⟩, hkernel, hbitmap, hlow⟩ := (hfree f).mp hf
  have hinside := inside_of_mem_entryPages (hwrap entry hentry) hpages
  refine ⟨by rw [hindex], ?_, ?_, ?_, ?_, ?_, ?_⟩
  · rw [hindex, hhighest]
    exact hf.1
  · rw [hhighest, hstart]
    omega
  · rw [hindex]
    exact ⟨entry, hentry, hinside⟩
  · have hlow' : 256 ≤ f := by
      by_contra hsmall
      exact hlow (mem_pageRange.mpr ⟨Nat.zero_le f, by omega⟩)
    rw [toNat_frameAddr hlim]
    omega
  · rw [hindex]
    exact outside_kernel halign hkernel
  · rw [hindex]
    exact outside_bitmap (by omega) hbitmap

/-- Every run that frees only what it holds keeps the frames it holds apart from each other and
from the reserved memory, gets them cleared, and is refused one only when none is left. -/
theorem owned_frames_exclusive (hh : Word) (entries : List MemmapEntry) (kaddr : KernelAddress)
    (image : KernelImage)
    (hwrap : ∀ entry ∈ entries, entry.base.toNat + entry.length.toNat + 4096 < 2 ^ 64)
    (halign : kaddr.physicalBase.toNat % 4096 = 0) (pmm : Pmm)
    (hinit : pmmInit (some entries) (some kaddr) image = .ok pmm) (mem : Mem)
    (s : Machine) (out : List Word) (hrun : OwnedRun hh ⟨pmm, mem⟩ s out) :
    out.Nodup ∧
      (∀ page ∈ out, OwnedFrame entries kaddr image s.pmm page) ∧
      ((allocatePage hh s).1 = 0#64 ↔
        ∀ i ≤ s.pmm.highestPage, s.pmm.memoryBitmap.get i = true) ∧
      ((allocatePage hh s).1 ≠ 0#64 → ∀ k < 4096,
        (allocatePage hh s).2.mem ((allocatePage hh s).1 + hh + BitVec.ofNat 64 k) = 0#8) := by
  have hpmm := pmmInit_ok hinit
  have hcap : pmm.highestPage < frameLimit := hpmm ▸ initTables_highestPage_lt entries kaddr image
  have hzero : ¬ pmm.Free 0 := hpmm ▸ initTables_zero_used entries kaddr image
  have hinv := hrun.inv hcap
  refine ⟨hinv.nodup, ?_, ?_, fun hne k hk => allocatePage_zeroed hh s hne hk⟩
  · intro page hpage
    obtain ⟨f, rfl, hstart, -⟩ := hinv.owned page hpage
    have hhighest : s.pmm.highestPage = pmm.highestPage := hinv.highest
    rw [hpmm] at hhighest hstart
    exact ownedFrame_of_free hwrap halign hhighest hstart
  · refine allocatePage_eq_null_iff hh ?_ fun hnow => hzero (hinv.free_start 0 hnow)
    rw [hinv.highest]
    exact hcap

/-- A machine with two mebibytes of usable memory and the kernel in the upper half of it. -/
def smallMap : List MemmapEntry :=
  [⟨0#64, 0x200000#64, .usable⟩]

def smallKernel : KernelAddress :=
  ⟨0x180000#64, 0xffffffff80000000#64⟩

def smallImage : KernelImage :=
  ⟨0xffffffff80001000#64, 0xffffffff80140000#64, 0xffffffff80020000#64⟩

theorem smallMap_free : (initTables smallMap smallKernel smallImage).Free 256 := by
  refine ((initTables_spec smallMap smallKernel smallImage).2 256).mpr ⟨⟨?_, by decide⟩, ?_, ?_, ?_⟩
  · exact ⟨⟨0#64, 0x200000#64, .usable⟩, by decide, mem_pageRange.mpr (by decide)⟩
  · exact fun h => absurd (mem_pageRange.mp h) (by decide)
  · exact fun h => absurd (mem_pageRange.mp h) (by decide)
  · exact fun h => absurd (mem_pageRange.mp h) (by decide)

theorem owned_frames_exclusive_smallMap :
    ∃ s page, OwnedRun 0xffff800000000000#64
        ⟨initTables smallMap smallKernel smallImage, fun _ => 0xAA#8⟩ s [page] ∧
      OwnedFrame smallMap smallKernel smallImage s.pmm page := by
  have hne : (allocatePage 0xffff800000000000#64
      ⟨initTables smallMap smallKernel smallImage, fun _ => 0xAA#8⟩).1 ≠ 0#64 := by
    have hspec := owned_frames_exclusive 0xffff800000000000#64 smallMap smallKernel smallImage
      (by decide) (by decide) _ rfl (fun _ => 0xAA#8) _ _ .init
    rw [Ne, hspec.2.2.1]
    intro hall
    have hset := hall 256 smallMap_free.1
    rw [smallMap_free.2] at hset
    simp at hset
  have hrun := OwnedRun.allocated OwnedRun.init hne
  exact ⟨_, _, hrun, (owned_frames_exclusive 0xffff800000000000#64 smallMap smallKernel smallImage
    (by decide) (by decide) _ rfl _ _ _ hrun).2.1 _ (by simp)⟩

end Osiris.Page
