import Osiris.Verification.Page.Allocator

/-! # What `pmm_init` leaves free -/

namespace Osiris.Page

open ByteMemory

/-! ## Rounding to pages -/

theorem toNat_alignDown (x : Word) : (alignDown x 4096#64).toNat = x.toNat / 4096 * 4096 := by
  have hmask := toNat_and_not_mask x (show 12 < 64 by norm_num)
  rw [show 2 ^ 12 = 4096 from rfl] at hmask
  exact hmask

theorem alignUp_eq_alignDown (x : Word) : alignUp x 4096#64 = alignDown (x + 4095#64) 4096#64 := by
  have hsum : x + 4096#64 - 1#64 = x + 4095#64 := by
    rw [add_sub_assoc]
    rfl
  unfold alignUp alignDown
  rw [hsum]

theorem toNat_alignUp (x : Word) (hx : x.toNat + 4095 < 2 ^ 64) :
    (alignUp x 4096#64).toNat = (x.toNat + 4095) / 4096 * 4096 := by
  rw [alignUp_eq_alignDown, toNat_alignDown, BitVec.toNat_add, BitVec.toNat_ofNat]
  omega

theorem alignUp_mod (x : Word) : (alignUp x 4096#64).toNat % 4096 = 0 := by
  rw [alignUp_eq_alignDown, toNat_alignDown]
  omega

theorem mem_pageRange {first last i : ℕ} : i ∈ pageRange first last ↔ first ≤ i ∧ i < last := by
  unfold pageRange
  rw [List.mem_range'_1]
  omega

/-! ## The loops of `pmm_init` -/

@[simp] theorem releasePage_highestPage (pmm : Pmm) (i : ℕ) :
    (releasePage pmm i).highestPage = pmm.highestPage := by
  unfold releasePage
  split
  · split <;> rfl
  · rfl

@[simp] theorem reservePage_highestPage (pmm : Pmm) (i : ℕ) :
    (reservePage pmm i).highestPage = pmm.highestPage := by
  unfold reservePage
  split <;> rfl

theorem free_releasePage (pmm : Pmm) (i f : ℕ) :
    (releasePage pmm i).Free f ↔ pmm.Free f ∨ (f = i ∧ f ≤ pmm.highestPage) := by
  unfold releasePage Pmm.Free
  by_cases hle : i ≤ pmm.highestPage
  · by_cases hbit : pmm.memoryBitmap.get i = true
    · by_cases hf : f = i
      · subst hf
        simp [hle, hbit]
      · simp [hle, hbit, hf]
    · by_cases hf : f = i
      · subst hf
        simp [hle, hbit]
      · simp [hbit, hf]
  · by_cases hf : f = i
    · subst hf
      simp [hle]
    · simp [hle, hf]

theorem free_reservePage (pmm : Pmm) (i f : ℕ) :
    (reservePage pmm i).Free f ↔ pmm.Free f ∧ f ≠ i := by
  unfold reservePage Pmm.Free
  by_cases hle : i ≤ pmm.highestPage
  · by_cases hf : f = i <;> simp [hle, hf]
  · by_cases hf : f = i
    · subst hf
      simp [hle]
    · simp [hle, hf]

theorem foldl_releasePage (pages : List ℕ) (pmm : Pmm) :
    (pages.foldl releasePage pmm).highestPage = pmm.highestPage ∧
      ∀ f, (pages.foldl releasePage pmm).Free f ↔
        pmm.Free f ∨ (f ∈ pages ∧ f ≤ pmm.highestPage) := by
  induction pages generalizing pmm with
  | nil => simp
  | cons i pages ih =>
      obtain ⟨hhighest, hfree⟩ := ih (releasePage pmm i)
      rw [releasePage_highestPage] at hhighest
      refine ⟨hhighest, fun f => ?_⟩
      rw [List.foldl_cons, hfree f, free_releasePage, releasePage_highestPage, List.mem_cons]
      tauto

theorem foldl_reservePage (pages : List ℕ) (pmm : Pmm) :
    (pages.foldl reservePage pmm).highestPage = pmm.highestPage ∧
      ∀ f, (pages.foldl reservePage pmm).Free f ↔ pmm.Free f ∧ f ∉ pages := by
  induction pages generalizing pmm with
  | nil => simp
  | cons i pages ih =>
      obtain ⟨hhighest, hfree⟩ := ih (reservePage pmm i)
      rw [reservePage_highestPage] at hhighest
      refine ⟨hhighest, fun f => ?_⟩
      rw [List.foldl_cons, hfree f, free_reservePage, List.mem_cons]
      tauto

theorem foldl_entries (entries : List MemmapEntry) (pmm : Pmm) :
    let released := entries.foldl (fun pmm entry => (entryPages entry).foldl releasePage pmm) pmm
    released.highestPage = pmm.highestPage ∧
      ∀ f, released.Free f ↔
        pmm.Free f ∨ ((∃ entry ∈ entries, f ∈ entryPages entry) ∧ f ≤ pmm.highestPage) := by
  induction entries generalizing pmm with
  | nil => simp
  | cons entry entries ih =>
      obtain ⟨hhighest, hfree⟩ := foldl_releasePage (entryPages entry) pmm
      obtain ⟨ihhighest, ihfree⟩ := ih ((entryPages entry).foldl releasePage pmm)
      refine ⟨ihhighest.trans hhighest, fun f => ?_⟩
      rw [List.foldl_cons, ihfree f, hfree f, hhighest]
      simp only [List.mem_cons, exists_eq_or_imp]
      tauto

/-! ## The result -/

theorem clampedHighestPage_lt (entries : List MemmapEntry) :
    clampedHighestPage entries < pmmBitmapSize * 8 := by
  unfold clampedHighestPage pmmBitmapSize
  dsimp only
  split <;> omega

theorem get_full_byte (i : ℕ) : Bitmap.get (fun _ => 0xFF#8) i = true := by
  rw [Bitmap.get_eq_getLsbD]
  have hi : i % 8 < 8 := Nat.mod_lt i (by norm_num)
  generalize i % 8 = k at hi
  interval_cases k <;> rfl

/-- The allocator before the first page is released: every bit is set. -/
theorem not_free_of_full_bitmap {pmm : Pmm} (h : pmm.memoryBitmap = fun _ => 0xFF#8) (f : ℕ) :
    ¬ pmm.Free f := by
  rintro ⟨-, hbit⟩
  rw [h, get_full_byte] at hbit
  simp at hbit

theorem releaseAll_spec (entries : List MemmapEntry) :
    (releaseAll entries).highestPage = clampedHighestPage entries ∧
      ∀ f, (releaseAll entries).Free f ↔
        (∃ entry ∈ entries, f ∈ entryPages entry) ∧ f ≤ clampedHighestPage entries := by
  unfold releaseAll
  refine ⟨(foldl_entries entries _).1, fun f => ?_⟩
  rw [(foldl_entries entries _).2 f, or_iff_right (not_free_of_full_bitmap rfl f)]

theorem reserveAll_spec (kaddr : KernelAddress) (image : KernelImage) (pmm : Pmm) :
    (reserveAll kaddr image pmm).highestPage = pmm.highestPage ∧
      ∀ f, (reserveAll kaddr image pmm).Free f ↔
        pmm.Free f ∧ f ∉ kernelPages kaddr image ∧ f ∉ bitmapPages kaddr image ∧
          f ∉ pagesBelow1mb := by
  unfold reserveAll
  refine ⟨?_, fun f => ?_⟩
  · rw [(foldl_reservePage _ _).1, (foldl_reservePage _ _).1, (foldl_reservePage _ _).1]
  · rw [(foldl_reservePage _ _).2, (foldl_reservePage _ _).2, (foldl_reservePage _ _).2]
    tauto

/-! The counters do not matter to which frames are free. -/

@[simp] theorem countFree_highestPage (pmm : Pmm) : pmm.countFree.highestPage = pmm.highestPage :=
  rfl

@[simp] theorem countUsed_highestPage (pmm : Pmm) : pmm.countUsed.highestPage = pmm.highestPage :=
  rfl

theorem free_countFree (pmm : Pmm) (f : ℕ) : pmm.countFree.Free f ↔ pmm.Free f := Iff.rfl

theorem free_countUsed (pmm : Pmm) (f : ℕ) : pmm.countUsed.Free f ↔ pmm.Free f := Iff.rfl

/-- After `pmm_init` a frame is free when it lies in an entry of free memory and is neither
part of the kernel, nor of the bitmap, nor of the first mebibyte. -/
theorem initTables_spec (entries : List MemmapEntry) (kaddr : KernelAddress) (image : KernelImage) :
    (initTables entries kaddr image).highestPage = clampedHighestPage entries ∧
      ∀ f, (initTables entries kaddr image).Free f ↔
        ((∃ entry ∈ entries, f ∈ entryPages entry) ∧ f ≤ clampedHighestPage entries) ∧
          f ∉ kernelPages kaddr image ∧ f ∉ bitmapPages kaddr image ∧ f ∉ pagesBelow1mb := by
  obtain ⟨hhighest, hreleased⟩ := releaseAll_spec entries
  obtain ⟨hreserve, hfree⟩ := reserveAll_spec kaddr image (releaseAll entries).countFree
  refine ⟨?_, fun f => ?_⟩
  · rw [initTables, countUsed_highestPage, hreserve, countFree_highestPage, hhighest]
  · rw [initTables, free_countUsed, hfree f, free_countFree, hreleased f]

/-- The pages released for an entry without wrap-around lie wholly inside it. -/
theorem inside_of_mem_entryPages {entry : MemmapEntry} {f : ℕ}
    (hwrap : entry.base.toNat + entry.length.toNat + 4096 < 2 ^ 64) (hf : f ∈ entryPages entry) :
    (entry.type = .usable ∨ entry.type = .bootloaderReclaimable) ∧
      entry.base.toNat ≤ f * 4096 ∧ (f + 1) * 4096 ≤ entry.base.toNat + entry.length.toNat := by
  unfold entryPages at hf
  split at hf
  · rename_i htype
    dsimp only at hf
    split at hf
    · simp at hf
    · rw [mem_pageRange, toNat_alignUp _ (by omega), toNat_alignDown, BitVec.toNat_add,
        Nat.mod_eq_of_lt (by omega)] at hf
      refine ⟨htype, ?_, ?_⟩ <;> omega
  · simp at hf

theorem pmmInit_ok {entries : List MemmapEntry} {kaddr : KernelAddress} {image : KernelImage}
    {pmm : Pmm} (h : pmmInit (some entries) (some kaddr) image = .ok pmm) :
    pmm = initTables entries kaddr image := by
  simpa [pmmInit, eq_comm] using h

theorem initTables_highestPage_lt (entries : List MemmapEntry) (kaddr : KernelAddress)
    (image : KernelImage) : (initTables entries kaddr image).highestPage < frameLimit := by
  have hclamp := clampedHighestPage_lt entries
  unfold pmmBitmapSize at hclamp
  unfold frameLimit
  rw [(initTables_spec entries kaddr image).1]
  omega

/-- `pmm_init` reserves frame 0, so that no frame is mistaken for `NULL`. -/
theorem initTables_zero_used (entries : List MemmapEntry) (kaddr : KernelAddress)
    (image : KernelImage) : ¬ (initTables entries kaddr image).Free 0 := by
  rw [(initTables_spec entries kaddr image).2]
  rintro ⟨-, -, -, hlow⟩
  exact hlow (mem_pageRange.mpr ⟨le_rfl, by norm_num⟩)

end Osiris.Page
