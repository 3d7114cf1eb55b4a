import Osiris.Verification.Heap.History

/-! # The free list is a canonical form

It is the list of the gaps between the live blocks. Two histories that end with the same live blocks
end with the same free list. -/

namespace Osiris.Heap

open ByteMemory Page Vmm Blocks LinkedList

/-- `kfree` for one pointer after the other. -/
def freeAll (fuel : ℕ) (h : KernelHeap) (ptrs : List Word) : Except Fault KernelHeap :=
  ptrs.foldlM (kfree fuel) h

section

variable {h h' : KernelHeap} {live live' free free' bs rest : List Block} {fuel : ℕ}

/-- Heaps with the same live blocks have the same free list. -/
theorem HeapInv.free_unique (hinv : HeapInv h live free) (hinv' : HeapInv h' live' free')
    (hperm : live.Perm live') : free = free' := by
  have hsize : ∀ {h live free}, HeapInv h live free → ∀ b ∈ free, 0 < b.size := by
    intro h live free hinv b hb
    have hleast := (hinv.grained b (List.mem_append_left live hb)).least
    omega
  exact tiles_unique hinv.separated hinv'.separated (hsize hinv) (hsize hinv') hinv.tiles
    hinv'.tiles hperm

theorem blocks_of_nodes (hplaced : ∀ b ∈ bs, Placed b) :
    (bs.map node).map (fun n => (⟨n.addr.toNat, n.value.toNat⟩ : Block)) = bs := by
  rw [List.map_map]
  refine (List.map_congr_left fun b hb => ?_).trans (List.map_id bs)
  unfold node
  rw [Function.comp_apply, (hplaced b hb).toNat_addr, (hplaced b hb).toNat_size]
  rfl

/-- A heap has one free list. -/
theorem HeapInv.free_eq (hinv : HeapInv h live free) (hinv' : HeapInv h live' free') :
    free = free' := by
  have hnodes := hinv.chain.unique hinv'.chain
  rw [← blocks_of_nodes hinv.freeList.placed, hnodes, blocks_of_nodes hinv'.freeList.placed]

/-- A block that is live cannot be left out of the live blocks. -/
theorem HeapInv.not_cons (hinv : HeapInv h live free) {b : Block} :
    ¬ HeapInv h (b :: live) free' := by
  intro hinv'
  obtain rfl := hinv.free_eq hinv'
  have hb := hinv'.placed_live List.mem_cons_self
  have htiles := hinv'.tiles.perm List.perm_middle
  have hcontains := hb.contains_start
  obtain ⟨c, hc, hin⟩ := (hinv.tiles.cover b.start).mp
    ((htiles.cover b.start).mpr ⟨b, List.mem_cons_self, hcontains⟩)
  exact (List.pairwise_cons.mp htiles.disjoint).1 c hc _ hcontains hin

theorem HeapInv.freeAll (hinv : HeapInv h live free) (hfuel : 65536 < fuel)
    (hperm : live.Perm (bs ++ rest)) :
    ∃ h' free', freeAll fuel h (bs.map payload) = .ok h' ∧ HeapInv h' rest free' := by
  induction bs generalizing h live free with
  | nil =>
      exact ⟨h, free, rfl, hinv.perm hperm⟩
  | cons b bs ih =>
      obtain ⟨h₁, hok, hinv₁, -⟩ := hinv.kfree hfuel hperm
      obtain ⟨h₂, free₂, hrest, hinv₂⟩ := ih hinv₁ (List.Perm.refl _)
      refine ⟨h₂, free₂, ?_, hinv₂⟩
      unfold Heap.freeAll
      rw [List.map_cons, List.foldlM_cons, hok]
      exact hrest

end

/-- `kfree` undoes `kmalloc`, blocks may be freed in any order, and when all are free the heap is one
block again. -/
theorem frees_are_canonical (hh : Word) (kernelPagemap : Pagemap) (boot h : KernelHeap)
    (hboot : boot.heapStart = 0#64) (hinit : heapInit hh kernelPagemap boot = .ok h) (fuel : ℕ)
    (hfuel : 65536 < fuel) (s : State)
    (hrun : Transition.Run (step fuel) Allowed (.ok ⟨h, []⟩) (.ok s)) :
    (∃ free, FreeList s.heap free ∧ ∀ size ptr h', size.toNat + 23 < 2 ^ 64 →
      kmalloc fuel s.heap size = .ok (ptr, h') → ptr ≠ 0#64 →
        ∃ h'', kfree fuel h' ptr = .ok h'' ∧ FreeList h'' free) ∧
    (∀ bs bs' : List Block, bs.Subperm s.live → bs.Perm bs' → ∃ h₁ h₂ free,
      freeAll fuel s.heap (bs.map payload) = .ok h₁ ∧
      freeAll fuel s.heap (bs'.map payload) = .ok h₂ ∧ FreeList h₁ free ∧ FreeList h₂ free) ∧
    ∀ bs : List Block, bs.Perm s.live →
      ∃ h', freeAll fuel s.heap (bs.map payload) = .ok h' ∧ FreeList h' [wholeHeap] := by
  obtain ⟨s, free, hs, hinv⟩ := heapInv_of_run hboot hinit hfuel hrun
  obtain rfl := Except.ok.inj hs
  refine ⟨⟨free, hinv.freeList, fun size ptr h' _ hok hptr => ?_⟩, fun bs bs' hsub hperm => ?_,
    fun bs hperm => ?_⟩
  · rcases hinv.kmalloc hfuel size with ⟨-, hnull⟩ | ⟨b, free', h₁, -, hok', hinv', -⟩
    · rw [hnull, Except.ok.injEq, Prod.mk.injEq] at hok
      exact absurd hok.1.symm hptr
    · rw [hok', Except.ok.injEq, Prod.mk.injEq] at hok
      obtain ⟨rfl, rfl⟩ := hok
      obtain ⟨h'', hfreed, hinv'', -⟩ := hinv'.kfree hfuel (List.Perm.refl _)
      refine ⟨h'', hfreed, ?_⟩
      rw [hinv.free_unique hinv'' (List.Perm.refl _)]
      exact hinv''.freeList
  · obtain ⟨ls, hls, hlive⟩ := hsub
    obtain ⟨rest, hrest⟩ := hlive.exists_perm_append
    have hbs : s.live.Perm (bs ++ rest) := hrest.trans ((List.perm_append_right_iff rest).mpr hls)
    obtain ⟨h₁, free₁, hok₁, hinv₁⟩ := hinv.freeAll hfuel hbs
    obtain ⟨h₂, free₂, hok₂, hinv₂⟩ := hinv.freeAll hfuel
      (hbs.trans ((List.perm_append_right_iff rest).mpr hperm))
    refine ⟨h₁, h₂, free₁, hok₁, hok₂, hinv₁.freeList, ?_⟩
    rw [hinv₁.free_unique hinv₂ (List.Perm.refl _)]
    exact hinv₂.freeList
  · have hall : s.live.Perm (bs ++ []) := by
      rw [List.append_nil]
      exact hperm.symm
    obtain ⟨h', free', hok, hinv'⟩ := hinv.freeAll hfuel hall
    refine ⟨h', hok, ?_⟩
    rw [← hinv'.free_unique (heapInit_inv hboot hinit) (List.Perm.refl _)]
    exact hinv'.freeList

theorem frees_are_canonical_bootHeap :
    ∃ h s h', heapInit directMap ⟨frameVirt directMap 1⟩ bootHeap = .ok h ∧
      step 65537 (.ok ⟨h, []⟩) (.kmalloc 100#64) = .ok s ∧
      freeAll 65537 s.heap (s.live.map payload) = .ok h' ∧ FreeList h' [wholeHeap] := by
  obtain ⟨h, hinit⟩ := bootHeap_inits
  have hallowed : Allowed (.ok ⟨h, []⟩) (.kmalloc 100#64) :=
    fun _ _ => show (100#64).toNat + 23 < 2 ^ 64 by decide
  have hrun : Transition.Run (step 65537) Allowed (.ok ⟨h, []⟩)
      (step 65537 (.ok ⟨h, []⟩) (.kmalloc 100#64)) := .step .start hallowed
  obtain ⟨s, -, hs, -⟩ := heapInv_of_run rfl hinit (by norm_num) hrun
  rw [hs] at hrun
  obtain ⟨h', hok, hlist⟩ := (frees_are_canonical directMap ⟨frameVirt directMap 1⟩ bootHeap h rfl
    hinit 65537 (by norm_num) s hrun).2.2 s.live (List.Perm.refl _)
  exact ⟨h, s, h', hinit, hs, hok, hlist⟩

end Osiris.Heap
