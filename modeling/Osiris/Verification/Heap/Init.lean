import Osiris.Verification.Heap.Invariant
import Osiris.Verification.Vmm.History

/-! # `heap_init` -/

namespace Osiris.Heap

open ByteMemory Page Radix Vmm Blocks LinkedList

/-! ## The first free block -/

/-- The whole heap as one block. -/
def wholeHeap : Block :=
  ⟨kernelHeapStart.toNat, kernelHeapInitialSize.toNat⟩

theorem wholeHeap_placed : Placed wholeHeap :=
  ⟨by decide, by decide, by decide⟩

theorem wholeHeap_tiles : Tiles kernelHeapStart.toNat heapEnd [wholeHeap] := by
  refine ⟨List.pairwise_singleton _ _, fun a => ?_⟩
  simp only [List.mem_singleton, exists_eq_left]
  rfl

theorem addr_wholeHeap : addr wholeHeap = kernelHeapStart := by decide

/-- The heap that `heap_init` sets up once its pages are mapped. -/
def freshHeap (s : Machine) : KernelHeap :=
  let h : KernelHeap := ⟨s, kernelHeapStart, kernelHeapInitialSize, kernelHeapStart⟩
  (h.store kernelHeapStart kernelHeapInitialSize).store (kernelHeapStart + 8#64) 0#64

theorem freshHeap_inv (s : Machine) : HeapInv (freshHeap s) [] [wholeHeap] := by
  have hsize : BitVec.ofNat 64 wholeHeap.size = kernelHeapInitialSize := by decide
  refine ⟨rfl, rfl, ?_, List.pairwise_singleton _ _, ?_, wholeHeap_tiles, by simp⟩
  · let h : KernelHeap := ⟨s, kernelHeapStart, kernelHeapInitialSize, kernelHeapStart⟩
    have hnode : h.writeNode wholeHeap 0#64 = freshHeap s := by
      unfold KernelHeap.writeNode freshHeap
      rw [addr_wholeHeap, hsize]
    have hseg : Seg (h.writeNode wholeHeap 0#64).mem (addr wholeHeap)
        ([wholeHeap].map node) 0#64 :=
      writeNode_seg wholeHeap_placed rfl (by simp) (by simp)
    rw [hnode, addr_wholeHeap] at hseg
    exact hseg
  · intro b hb
    rw [List.append_nil, List.mem_singleton] at hb
    rw [hb]
    exact ⟨by decide, by decide, by decide⟩

theorem heapInit_ok {hh : Word} {kernelPagemap : Pagemap} {boot h : KernelHeap}
    (hboot : boot.heapStart = 0#64) (hinit : heapInit hh kernelPagemap boot = .ok h) :
    ∃ s, (List.range initialHeapPages).foldlM (heapInitPage hh kernelPagemap) boot.toMachine =
      .ok s ∧ h = freshHeap s := by
  unfold heapInit at hinit
  rw [if_neg (not_not.mpr hboot)] at hinit
  obtain ⟨s, hloop, hset⟩ := Loop.bind_eq_ok.mp hinit
  exact ⟨s, hloop, (Except.ok.inj hset).symm⟩

/-- The heap starts with one free block. -/
theorem heapInit_inv {hh : Word} {kernelPagemap : Pagemap} {boot h : KernelHeap}
    (hboot : boot.heapStart = 0#64) (hinit : heapInit hh kernelPagemap boot = .ok h) :
    HeapInv h [] [wholeHeap] := by
  obtain ⟨s, -, rfl⟩ := heapInit_ok hboot hinit
  exact freshHeap_inv s

/-- The block that the first request for 100 bytes gets. -/
def firstBlock : Block :=
  ⟨kernelHeapStart.toNat, 112⟩

theorem firstBlock_inv (s : Machine) :
    ∃ h' free, kmalloc 65537 (freshHeap s) 100#64 = .ok (payload firstBlock, h') ∧
      HeapInv h' [firstBlock] free := by
  have hfirst : firstFit 16 (totalSize 100#64).toNat [wholeHeap] =
      some (firstBlock, [wholeHeap.snd 112]) := by decide
  rcases (freshHeap_inv s).kmalloc (show 65536 < 65537 by norm_num) 100#64 with
    ⟨hcause, -⟩ | ⟨b, free, h', hfit, hok, hinv, -⟩
  · rcases hcause with hzero | hnone
    · exact absurd hzero (by decide)
    · rw [hfirst] at hnone
      exact absurd hnone (by simp)
  · rw [hfirst, Option.some.injEq, Prod.mk.injEq] at hfit
    obtain ⟨rfl, rfl⟩ := hfit
    exact ⟨h', _, hok, hinv⟩

/-! ## The pages of the heap -/

/-- The address of one of the first pages of the heap. -/
def heapPage (i : ℕ) : Word :=
  kernelHeapStart + BitVec.ofNat 64 (i * 4096)

theorem toNat_heapPage {i : ℕ} (hi : i < initialHeapPages) :
    (heapPage i).toNat = 0xFFFF810000000000 + i * 4096 := by
  unfold initialHeapPages at hi
  unfold heapPage kernelHeapStart
  rw [BitVec.toNat_add, BitVec.toNat_ofNat, BitVec.toNat_ofNat]
  omega

theorem heapPage_injective {i j : ℕ} (hi : i < initialHeapPages) (hj : j < initialHeapPages)
    (hpage : pageNumber (heapPage i) = pageNumber (heapPage j)) : i = j := by
  unfold pageNumber at hpage
  rw [toNat_heapPage hi, toNat_heapPage hj] at hpage
  unfold initialHeapPages at hi hj
  omega

/-- The pages share a page table. -/
theorem upperPath_heapPage {i : ℕ} (hi : i < initialHeapPages) :
    upperPath (heapPage i) = upperPath kernelHeapStart := by
  refine upperPath_eq ?_
  rw [toNat_heapPage hi, show kernelHeapStart.toNat = 0xFFFF810000000000 by decide]
  unfold initialHeapPages at hi
  omega

/-! ## Enough frames -/

section Frames

variable {hh : Word} {r : ℕ} {s : Machine}

/-- There is a frame for each of `n` pages, and the page table of the heap or frames for it and the
tables above it. -/
def HeapRoom (hh : Word) (s : Machine) (r n : ℕ) : Prop :=
  n + 3 ≤ s.pmm.freeFrames.card ∨ n ≤ s.pmm.freeFrames.card ∧
    ∃ es f, walk (link hh s.mem) r (upperPath kernelHeapStart) = some (es, f)

/-- A round takes a frame for the heap. -/
theorem heapInitPage_succeeds (h : TableInv hh s r) {n i : ℕ} (hi : i < initialHeapPages)
    (hroom : HeapRoom hh s r (n + 1)) :
    ∃ s', heapInitPage hh ⟨frameVirt hh r⟩ s i = .ok s' ∧ TableInv hh s' r ∧
      HeapRoom hh s' r n := by
  rcases allocatePage_cases hh s with ⟨-, hnone⟩ | ⟨f, hfree, -, halloc⟩
  · have hcard := card_freeFrames_eq_zero hnone
    unfold HeapRoom at hroom
    omega
  · have hne := h.valid.frameAddr_ne_zero hfree.1 (h.valid.ne_zero_of_free hfree)
    have huntouched := h.untouched_allocate
    rw [halloc] at huntouched
    obtain ⟨hinv, -, hwalk⟩ := h.untouched huntouched
    have htaken : (s.take hh f).pmm.freeFrames.card + 1 = s.pmm.freeFrames.card :=
      card_freeFrames_take hfree
    have hroom' : HeapRoom hh (s.take hh f) r n := by
      rcases hroom with hcard | ⟨hcard, htable⟩
      · exact .inl (by omega)
      · rw [← hwalk _ (by simp [upperPath])] at htable
        exact .inr ⟨by omega, htable⟩
    unfold HeapRoom at hroom' ⊢
    rw [← upperPath_heapPage hi] at hroom' ⊢
    obtain ⟨s', hok, hcard, htable⟩ := vmmMapPage_of_room hinv hroom' (frameAddr f)
      (ptePresent ||| pteWritable ||| pteNx)
    have hgrowth := vmmMapPage_growth hinv (heapPage i) (frameAddr f)
      (ptePresent ||| pteWritable ||| pteNx)
    rw [hok] at hgrowth
    refine ⟨s', ?_, hgrowth.inv, .inr ⟨hcard, htable⟩⟩
    unfold heapInitPage
    dsimp only
    rw [halloc]
    dsimp only
    unfold heapPage at hok
    rw [if_neg hne, hok]
    exact if_pos rfl

/-- With a free frame for every page and three for tables, `heap_init` returns. -/
theorem heapInit_succeeds {boot : KernelHeap} (h : TableInv hh boot.toMachine r)
    (hboot : boot.heapStart = 0#64) (hcard : initialHeapPages + 3 ≤ boot.pmm.freeFrames.card) :
    ∃ h', heapInit hh ⟨frameVirt hh r⟩ boot = .ok h' := by
  have hround : ∀ k < initialHeapPages, ∀ s,
      TableInv hh s r ∧ HeapRoom hh s r (initialHeapPages - k) →
        ∃ s', heapInitPage hh ⟨frameVirt hh r⟩ s k = .ok s' ∧
          (TableInv hh s' r ∧ HeapRoom hh s' r (initialHeapPages - (k + 1))) := by
    rintro k hk s ⟨hinv, hroom⟩
    rw [show initialHeapPages - k = initialHeapPages - (k + 1) + 1 by omega] at hroom
    exact heapInitPage_succeeds hinv hk hroom
  obtain ⟨s', hloop, -⟩ := Loop.foldlM_range_ok (s := boot.toMachine)
    (I := fun k s => TableInv hh s r ∧ HeapRoom hh s r (initialHeapPages - k)) initialHeapPages
    ⟨h, .inl hcard⟩ hround
  unfold heapInit
  rw [if_neg (not_not.mpr hboot), hloop]
  exact ⟨_, rfl⟩

end Frames

/-! ## A machine to start from -/

/-- Frame 0 is reserved, frame 1 holds the PML4 and 2046 frames are free. -/
def bootHeap : KernelHeap where
  pmm :=
    { memoryBitmap := fun i => if i = 0 then 0x03#8 else 0x00#8
      highestPage := 2047
      usedPages := 2#64
      freePages := 2046#64
      totalRamPages := 2048#64 }
  mem := fun _ => 0#8
  heapStart := 0#64
  heapSize := 0#64
  freeListHead := 0#64

theorem bootHeap_free {f : ℕ} : bootHeap.pmm.Free f ↔ 2 ≤ f ∧ f ≤ 2047 := by
  have hbit : bootHeap.pmm.memoryBitmap.get f = decide (f < 2) := by
    rw [Bitmap.get_eq_getLsbD]
    change (if f / 8 = 0 then 0x03#8 else 0x00#8).getLsbD (f % 8) = _
    by_cases hf : f < 8
    · interval_cases f <;> decide
    · rw [if_neg (by omega)]
      simp
      omega
  unfold Pmm.Free
  rw [hbit, decide_eq_false_iff_not, not_lt, and_comm]
  rfl

theorem bootHeap_emptyPml4 : EmptyPml4 directMap bootHeap.toMachine 1 where
  valid := ⟨by decide, fun h => absurd (bootHeap_free.mp h).1 (by norm_num), by decide⟩
  root_lt := by norm_num
  root_used := fun h => absurd (bootHeap_free.mp h).1 (by norm_num)
  zeroed := fun index => entry_of_zero (fun _ _ => rfl) index

theorem bootHeap_card : initialHeapPages + 3 ≤ bootHeap.pmm.freeFrames.card := by
  have hsub : Finset.Icc 2 2047 ⊆ bootHeap.pmm.freeFrames := by
    intro f hf
    rw [Finset.mem_Icc] at hf
    exact mem_freeFrames.mpr (bootHeap_free.mpr hf)
  have hcard := Finset.card_le_card hsub
  rw [Nat.card_Icc] at hcard
  unfold initialHeapPages
  omega

theorem bootHeap_inits : ∃ h, heapInit directMap ⟨frameVirt directMap 1⟩ bootHeap = .ok h :=
  heapInit_succeeds bootHeap_emptyPml4.tableInv rfl bootHeap_card

/-- A heap that is one free block of a mebibyte. -/
def oneBlockHeap : KernelHeap where
  pmm :=
    { memoryBitmap := fun _ => 0xFF#8
      highestPage := 0
      usedPages := 0#64
      freePages := 0#64
      totalRamPages := 0#64 }
  mem := store64 (fun _ => 0#8) 0x10000#64 0x100000#64
  heapStart := 0x10000#64
  heapSize := 0x100000#64
  freeListHead := 0x10000#64

end Osiris.Heap
