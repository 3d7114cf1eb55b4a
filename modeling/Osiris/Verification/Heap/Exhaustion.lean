import Osiris.Library.Gaps
import Osiris.Verification.Heap.Sizes

/-! # When `kmalloc` finds no room

The free list is a list of nodes, the room of the heap is what its live blocks leave. -/

namespace Osiris.Heap

open ByteMemory Page Vmm Blocks LinkedList

/-- The size of the block that a request is given. -/
def need (size : Word) : ℕ :=
  max 16 ((size.toNat + 8 + 15) / 16 * 16)

/-- A range of the heap that no live block meets. -/
def HeapGap (live : List Block) (b : Block) : Prop :=
  Gap kernelHeapStart.toNat heapEnd live b

/-- The lowest of the maximal ranges of at least `n` bytes that no live block meets. -/
structure LowestGap (live : List Block) (n : ℕ) (b : Block) : Prop where
  maximal : MaximalGap kernelHeapStart.toNat heapEnd live b
  fits : n ≤ b.size
  lowest : ∀ c, MaximalGap kernelHeapStart.toNat heapEnd live c → n ≤ c.size → b.start ≤ c.start

theorem toNat_totalSize_eq_need {size : Word} (hsize : size.toNat + 23 < 2 ^ 64) :
    (totalSize size).toNat = need size := by
  rw [toNat_totalSize hsize]
  unfold need
  omega

section

variable {h : KernelHeap} {live free : List Block} {b : Block} {n : ℕ}

theorem HeapInv.free_pos (hinv : HeapInv h live free) : ∀ b ∈ free, 0 < b.size := by
  intro b hb
  have hleast := (hinv.grained b (List.mem_append_left live hb)).least
  omega

theorem HeapInv.maximalGap_iff (hinv : HeapInv h live free) :
    MaximalGap kernelHeapStart.toNat heapEnd live b ↔ b ∈ free :=
  Blocks.maximalGap_iff hinv.free_pos hinv.separated hinv.tiles

theorem HeapInv.exists_heapGap_iff (hinv : HeapInv h live free) (hn : 0 < n) :
    (∃ a, HeapGap live ⟨a, n⟩) ↔ ∃ b ∈ free, n ≤ b.size :=
  exists_gap_iff hn hinv.separated hinv.tiles

/-- First fit on the free list is first fit on the gaps between the live blocks. -/
theorem HeapInv.lowestGap_of_firstFit (hinv : HeapInv h live free) (hn : 16 ∣ n)
    {free' : List Block} (hfit : firstFit 16 n free = some (b, free')) :
    ∃ g, LowestGap live n g ∧ b = ⟨g.start, n⟩ := by
  obtain ⟨g, hg, hfits, hlowest, heq⟩ := firstFit_lowest hinv.separated
    (fun c hc => (hinv.grained c (List.mem_append_left live hc)).size) hn hfit
  refine ⟨g, ⟨hinv.maximalGap_iff.mpr hg, hfits, fun c hc => ?_⟩, heq⟩
  exact hlowest c (hinv.maximalGap_iff.mp hc)

/-- `kmalloc` fails when no gap is large enough, and otherwise takes the start of the lowest one. -/
theorem HeapInv.kmalloc_of_gap {fuel : ℕ} {size : Word} (hinv : HeapInv h live free)
    (hfuel : 65536 < fuel) (hne : size ≠ 0#64) (hsize : size.toNat + 23 < 2 ^ 64) :
    (¬ ∃ a, HeapGap live ⟨a, need size⟩) ∧ Heap.kmalloc fuel h size = .ok (0#64, h) ∨
      (∃ a, HeapGap live ⟨a, need size⟩) ∧ ∃ g free' h', LowestGap live (need size) g ∧
        Heap.kmalloc fuel h size = .ok (BitVec.ofNat 64 (g.start + 8), h') ∧
        HeapInv h' (⟨g.start, need size⟩ :: live) free' ∧ Touches h h' free := by
  have hneed := toNat_totalSize_eq_need hsize
  have hgrain := totalSize_grain size
  rw [hneed] at hgrain
  have hiff := hinv.exists_heapGap_iff (n := need size) (by omega)
  rcases hinv.kmalloc hfuel size with ⟨hcause, hnull⟩ | ⟨b, free', h', hfit, hok, hinv', -, ht⟩
  · left
    refine ⟨fun hgap => ?_, hnull⟩
    obtain ⟨b, hb, hle⟩ := hiff.mp hgap
    have hnone := hcause.resolve_left hne
    rw [hneed, firstFit_eq_none_iff] at hnone
    exact absurd (hnone b hb) (not_lt.mpr hle)
  · right
    rw [hneed] at hfit
    obtain ⟨g, hlowest, rfl⟩ := hinv.lowestGap_of_firstFit hgrain.2 hfit
    refine ⟨hiff.mpr ⟨g, hinv.maximalGap_iff.mp hlowest.maximal, hlowest.fits⟩, g, free', h',
      hlowest, ?_, hinv', ht⟩
    rw [hok]
    unfold payload addr
    rw [ofNat_add_eight]

end

/-- In every run, a request fails exactly when the live blocks leave no room for it, and otherwise
gets the start of the lowest gap that is large enough. -/
theorem kmalloc_fails_iff_no_gap (hh : Word) (kernelPagemap : Pagemap) (boot h : KernelHeap)
    (hboot : boot.heapStart = 0#64) (hinit : heapInit hh kernelPagemap boot = .ok h) (fuel : ℕ)
    (hfuel : 65536 < fuel) (s : State)
    (hrun : Transition.Run (step fuel) Allowed (.ok ⟨h, []⟩) (.ok s)) (size : Word)
    (hne : size ≠ 0#64) (hsize : size.toNat + 23 < 2 ^ 64) :
    ((∃ h', kmalloc fuel s.heap size = .ok (0#64, h')) ↔
        ¬ ∃ a, HeapGap s.live ⟨a, need size⟩) ∧
      (∀ h', kmalloc fuel s.heap size = .ok (0#64, h') → h' = s.heap) ∧
      ((∃ a, HeapGap s.live ⟨a, need size⟩) → ∃ g free free' h', LowestGap s.live (need size) g ∧
        kmalloc fuel s.heap size = .ok (BitVec.ofNat 64 (g.start + 8), h') ∧
        s.step fuel (.kmalloc size) = .ok ⟨h', ⟨g.start, need size⟩ :: s.live⟩ ∧
        HeapInv s.heap s.live free ∧ HeapInv h' (⟨g.start, need size⟩ :: s.live) free' ∧
        Touches s.heap h' free) := by
  obtain ⟨s, free, hs, hinv⟩ := heapInv_of_run hboot hinit hfuel hrun
  obtain rfl := Except.ok.inj hs
  rcases hinv.kmalloc_of_gap hfuel hne hsize with
    ⟨hnogap, hnull⟩ | ⟨hgap, g, free', h', hlowest, hok, hinv', ht⟩
  · refine ⟨iff_of_true ⟨s.heap, hnull⟩ hnogap, fun h' hok => ?_, fun hgap => absurd hgap hnogap⟩
    rw [hnull, Except.ok.injEq, Prod.mk.injEq] at hok
    exact hok.2.symm
  · have hplaced := hinv'.placed_live List.mem_cons_self
    have hptr : BitVec.ofNat 64 (g.start + 8) = payload ⟨g.start, need size⟩ :=
      (ofNat_add_eight g.start).symm
    have hnotnull : ∀ h'', kmalloc fuel s.heap size ≠ .ok (0#64, h'') := by
      intro h'' hnull
      rw [hok, Except.ok.injEq, Prod.mk.injEq, hptr] at hnull
      exact hplaced.payload_ne_zero hnull.1
    have hstep := step_kmalloc hok
    rw [hptr, hinv'.gain_payload] at hstep
    exact ⟨iff_of_false (fun ⟨h'', hnull⟩ => hnotnull h'' hnull) (not_not.mpr hgap),
      fun h'' hnull => absurd hnull (hnotnull h''),
      fun _ => ⟨g, free, free', h', hlowest, hok, hstep, hinv, hinv', ht⟩⟩

theorem kmalloc_fails_iff_no_gap_bootHeap :
    ∃ h, heapInit directMap ⟨frameVirt directMap 1⟩ bootHeap = .ok h ∧
      ((∃ h', kmalloc 65537 h 100#64 = .ok (0#64, h')) ↔ ¬ ∃ a, HeapGap [] ⟨a, need 100#64⟩) := by
  obtain ⟨h, hinit⟩ := bootHeap_inits
  exact ⟨h, hinit, (kmalloc_fails_iff_no_gap directMap ⟨frameVirt directMap 1⟩ bootHeap h rfl hinit
    65537 (by norm_num) ⟨h, []⟩ .start 100#64 (by decide) (by decide)).1⟩

end Osiris.Heap
