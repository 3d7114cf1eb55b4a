import Osiris.Library.Gaps
import Osiris.Verification.Heap.Canonical

/-! # Freeing what is not live

`kfree` looks at the place of the block and at its size. A pointer that passes is linked into the
free list, which then is no longer the list of the gaps. -/

namespace Osiris.Heap

open ByteMemory Page Vmm Blocks LinkedList

/-- What `kfree` can see of a bad pointer. -/
def Detectable (h : KernelHeap) (ptr : Word) : Prop :=
  ¬ (kernelHeapStart.toNat ≤ (ptr - 8#64).toNat ∧ (ptr - 8#64).toNat < heapEnd) ∨
    (load64 h.mem (ptr - 8#64)).toNat < 16 ∨ ¬ 16 ∣ (ptr - 8#64).toNat

/-- The panic of `kfree`. -/
def Rejects (fuel : ℕ) (h : KernelHeap) (ptr : Word) : Prop :=
  kfree fuel h ptr = .error (.panic "heap: invalid pointer or heap corruption detected in kfree")

/-! ## Words at multiples of 16 -/

/-- The 16 bytes at an address. -/
def grainAt (a : Word) : Block :=
  ⟨a.toNat, 16⟩

theorem addr_grainAt (a : Word) : addr (grainAt a) = a := by
  unfold addr grainAt
  rw [BitVec.ofNat_toNat, BitVec.setWidth_eq]

theorem grainAt_placed {a : Word} (hlo : kernelHeapStart.toNat ≤ a.toNat)
    (hhi : a.toNat < heapEnd) :
    Placed (grainAt a) := by
  rw [toNat_kernelHeapStart] at hlo
  rw [heapEnd_eq] at hhi
  unfold grainAt
  refine ⟨?_, le_rfl, ?_⟩
  · dsimp only
    omega
  · unfold Block.stop
    dsimp only
    omega

/-- Nodes at multiples of 16 are the same or apart. -/
theorem apart_of_dvd {b c : Block} (hb : Placed b) (hc : Placed c) (hb16 : 16 ∣ b.start)
    (hc16 : 16 ∣ c.start) (hne : b.start ≠ c.start) : Apart (addr b) 16 (addr c) 16 := by
  have hblt := hb.start_lt
  have hclt := hc.start_lt
  exact apart_ofNat (by omega) (by omega) (by omega)

section Frames

variable {h : KernelHeap} {a b v : Word}

theorem apart_size (hapart : Apart a 16 b 16) : Apart a 8 b 8 :=
  fun x hx hy => hapart x (inRange_mono hx (by norm_num)) (inRange_mono hy (by norm_num))

theorem apart_size_next (hapart : Apart a 16 b 16) : Apart a 8 (b + 8#64) 8 :=
  fun x hx hy => hapart x (inRange_mono hx (by norm_num)) (inRange_next hy)

theorem apart_next_next (hapart : Apart a 16 b 16) : Apart (a + 8#64) 8 (b + 8#64) 8 :=
  fun x hx hy => hapart x (inRange_next hx) (inRange_next hy)

theorem apart_next_size (hapart : Apart a 16 b 16) : Apart (a + 8#64) 8 b 8 :=
  fun x hx hy => hapart x (inRange_next hx) (inRange_mono hy (by norm_num))

/-- `joinNext` writes to its own node only. -/
theorem load64_joinNext (hsize : Apart a 8 b 8) (hnext : Apart a 8 (b + 8#64) 8) :
    load64 (h.joinNext b).mem a = load64 h.mem a := by
  unfold KernelHeap.joinNext
  dsimp only
  split
  · change load64 (store64 (store64 _ _ _) _ _) _ = _
    rw [load64_store64_apart _ _ _ _ hnext, load64_store64_apart _ _ _ _ hsize]
  · rfl

theorem joinNext_head (h : KernelHeap) (b : Word) :
    (h.joinNext b).freeListHead = h.freeListHead := by
  unfold KernelHeap.joinNext
  dsimp only
  split <;> rfl

/-- A block that follows itself is not joined with itself. -/
theorem joinNext_self (hnext : load64 h.mem (b + 8#64) = b) (hsize : load64 h.mem b ≠ 0#64) :
    h.joinNext b = h := by
  unfold KernelHeap.joinNext
  dsimp only
  rw [hnext]
  refine if_neg fun hif => hsize ?_
  exact add_eq_left.mp hif.2

end Frames

/-! ## Linking a node that is not one -/

section Link

variable {h : KernelHeap} {live free before after : List Block} {b p : Block} {fuel : ℕ}
  {ptr : Word}

/-- What follows a free block is a live block. -/
theorem HeapInv.stop_ne (hinv : HeapInv h live free) (hp : p ∈ free) {x : ℕ}
    (hlo : kernelHeapStart.toNat ≤ x) (hhi : x < heapEnd) (hlive : ∀ b ∈ live, b.start ≠ x) :
    p.stop ≠ x := by
  intro hstop
  have hleast := (hinv.grained p (List.mem_append_left live hp)).least
  obtain ⟨c, hc, hcx⟩ := (hinv.tiles.cover x).mp ⟨hlo, hhi⟩
  rcases List.mem_append.mp hc with hfree | hused
  · have hne : p ≠ c := by
      rintro rfl
      exact absurd hcx.2 (by omega)
    have hapart := hinv.separated.lt_or_lt hp hfree hne
    unfold Block.Contains Block.stop at *
    omega
  · have hne := hlive c hused
    refine hinv.disjoint hused p hp (x - 1) ?_ ?_
    · unfold Block.Contains Block.stop at *
      omega
    · unfold Block.Contains Block.stop at *
      omega

/-- The heap after a node of the size that is found at `b` has been put behind `before`. -/
def KernelHeap.put (h : KernelHeap) (before : List Block) (b : Block) : KernelHeap :=
  (((h.store (addr b) (load64 h.mem (addr b))).linkBlock (lastAddr (before.map node))
    (addr b)).joinNext (addr b)).joinPrev (lastAddr (before.map node)) (addr b)

/-- Without a block before it, `b` becomes the head of the list. -/
theorem put_nil (hsize : load64 h.mem (addr b) ≠ 0#64) :
    (h.put [] b).freeListHead = addr b ∧
      (h.freeListHead = addr b → load64 (h.put [] b).mem (addr b + 8#64) = addr b) := by
  let h₁ : KernelHeap :=
    { (h.store (addr b) (load64 h.mem (addr b))).store (addr b + 8#64) h.freeListHead with
      freeListHead := addr b }
  have hlink : (h.store (addr b) (load64 h.mem (addr b))).linkBlock 0#64 (addr b) = h₁ := if_pos rfl
  have hput : h.put [] b = h₁.joinNext (addr b) := by
    unfold KernelHeap.put
    rw [List.map_nil, lastAddr_nil, hlink]
    exact if_neg fun hif => hif.1 rfl
  have hnext : load64 h₁.mem (addr b + 8#64) = h.freeListHead := load64_store64_same _ _ _
  have hkept : load64 h₁.mem (addr b) = load64 h.mem (addr b) := by
    change load64 (store64 (store64 _ _ _) _ _) _ = _
    rw [load64_store64_apart _ _ _ _ (apart_next (addr b)), load64_store64_same]
  rw [hput]
  refine ⟨joinNext_head h₁ (addr b), fun hhead => ?_⟩
  rw [joinNext_self (hnext.trans hhead) (by rw [hkept]; exact hsize), hnext, hhead]

/-- Otherwise the block before it leads to `b`. -/
theorem put_snoc (hp : Placed p) (hb : Placed b) (hapart : Apart (addr b) 16 (addr p) 16)
    (hpsize : load64 h.mem (addr p) = BitVec.ofNat 64 p.size) (hstop : p.stop ≠ b.start)
    (hsize : load64 h.mem (addr b) ≠ 0#64) :
    load64 (h.put (before ++ [p]) b).mem (addr p + 8#64) = addr b ∧
      (load64 h.mem (addr p + 8#64) = addr b →
        load64 (h.put (before ++ [p]) b).mem (addr b + 8#64) = addr b) := by
  have hapart' := hapart.symm
  let h₀ : KernelHeap := h.store (addr b) (load64 h.mem (addr b))
  let h₁ : KernelHeap := (h₀.store (addr b + 8#64) (load64 h₀.mem (addr p + 8#64))).store
    (addr p + 8#64) (addr b)
  have hlink : h₀.linkBlock (addr p) (addr b) = h₁ := if_neg hp.addr_ne_zero
  have hlast : load64 h₁.mem (addr p + 8#64) = addr b := load64_store64_same _ _ _
  have hnext : load64 h₁.mem (addr b + 8#64) = load64 h.mem (addr p + 8#64) := by
    change load64 (store64 (store64 h₀.mem _ _) _ _) _ = _
    rw [load64_store64_apart _ _ _ _ (apart_next_next hapart), load64_store64_same]
    exact load64_store64_apart _ _ _ _ (apart_next_size hapart')
  have hkept : load64 h₁.mem (addr b) = load64 h.mem (addr b) := by
    change load64 (store64 (store64 (store64 _ _ _) _ _) _ _) _ = _
    rw [load64_store64_apart _ _ _ _ (apart_size_next hapart),
      load64_store64_apart _ _ _ _ (apart_next (addr b)), load64_store64_same]
  have hkept' : load64 h₁.mem (addr p) = load64 h.mem (addr p) := by
    change load64 (store64 (store64 (store64 _ _ _) _ _) _ _) _ = _
    rw [load64_store64_apart _ _ _ _ (apart_next (addr p)),
      load64_store64_apart _ _ _ _ (apart_size_next hapart'),
      load64_store64_apart _ _ _ _ (apart_size hapart')]
  have hput : h.put (before ++ [p]) b = h₁.joinNext (addr b) := by
    unfold KernelHeap.put
    rw [lastAddr_append_singleton, hlink]
    refine if_neg fun hif => hstop ?_
    rw [load64_joinNext (apart_size hapart') (apart_size_next hapart'), hkept', hpsize] at hif
    exact (addr_add_size_eq_iff hp hb).mp hif.2
  rw [hput]
  constructor
  · rw [load64_joinNext (apart_next_size hapart') (apart_next_next hapart'), hlast]
  · intro hself
    rw [joinNext_self (hnext.trans hself) (by rw [hkept]; exact hsize), hnext, hself]

/-- A list that leads to `b` and from there to itself is no list of gaps. -/
theorem HeapInv.put_not_heapInv (hinv : HeapInv h live free) (hfree : free = before ++ after)
    (hbefore : ∀ c ∈ before, c.start < b.start) (hb : Placed b) (hb16 : 16 ∣ b.start)
    (hlo : kernelHeapStart.toNat ≤ b.start) (hhi : b.start < heapEnd)
    (hlive : ∀ c ∈ live, c.start ≠ b.start) (hsize : load64 h.mem (addr b) ≠ 0#64)
    (free' : List Block) : ¬ HeapInv (h.put before b) live free' := by
  intro hinv'
  obtain rfl := hinv.free_unique hinv' (List.Perm.refl _)
  subst hfree
  obtain ⟨mid, hfirst, hrest⟩ := hinv.freeList.append
  obtain ⟨mid', hfirst', hrest'⟩ := hinv'.freeList.append
  -- the new list enters what comes after at `b`
  have hentry : mid' = addr b ∧
      (mid = addr b → load64 (h.put before b).mem (addr b + 8#64) = addr b) := by
    cases before using List.reverseRecOn with
    | nil =>
        obtain ⟨hhead, hself⟩ := put_nil hsize
        exact ⟨hfirst'.symm.trans hhead, fun hmid => hself (Eq.trans hfirst hmid)⟩
    | append_singleton bs p =>
        have hp : p ∈ bs ++ [p] ++ after := by simp
        have hplaced := hinv.freeList.placed p hp
        have hgrained := hinv.grained p (List.mem_append_left live hp)
        have hlt := hbefore p (by simp)
        have hpsize : load64 h.mem (addr p) = BitVec.ofNat 64 p.size := by
          have hlist := hinv.freeList
          rw [List.append_assoc, List.singleton_append] at hlist
          exact hlist.links.2.1
        obtain ⟨hlast, hself⟩ := put_snoc hplaced hb
          (apart_of_dvd hb hplaced hb16 hgrained.start (by omega)) hpsize
          (hinv.stop_ne hp hlo hhi hlive) hsize
        exact ⟨(seg_last hfirst').symm.trans hlast,
          fun hmid => hself ((seg_last hfirst).trans hmid)⟩
  obtain ⟨rfl, hself⟩ := hentry
  cases after with
  | nil => exact hb.addr_ne_zero hrest'
  | cons c cs =>
      have hc : addr b = addr c := hrest'.1
      have hmid : mid = addr b := (show mid = addr c from hrest.1).trans hc.symm
      obtain ⟨-, -, -, hnext⟩ := seg_cons.mp hrest'
      change Seg _ (load64 _ (addr c + 8#64)) _ _ at hnext
      rw [← hc, hself hmid] at hnext
      cases cs with
      | nil => exact hb.addr_ne_zero hnext
      | cons d ds =>
          have hd : addr b = addr d := hnext.1
          have hcd : c.stop < d.start :=
            (List.pairwise_cons.mp (List.pairwise_append.mp hinv.separated).2.1).1 d (by simp)
          have hstart : c.start = d.start := by
            rw [← (hinv.freeList.placed c (by simp)).toNat_addr,
              ← (hinv.freeList.placed d (by simp)).toNat_addr, ← hc, ← hd]
          unfold Block.stop at hcd
          omega

/-! ## The check -/

theorem HeapInv.check_iff (hinv : HeapInv h live free) :
    (ptr - 8#64 < h.heapStart ∨ ptr - 8#64 ≥ h.heapStart + h.heapSize ∨
      load64 h.mem (ptr - 8#64) < minAllocSize ∨ (ptr - 8#64) % heapAlignment ≠ 0#64) ↔
        Detectable h ptr := by
  have hend : (kernelHeapStart + kernelHeapInitialSize).toNat = heapEnd := by decide
  have hmod : (ptr - 8#64) % heapAlignment ≠ 0#64 ↔ ¬ 16 ∣ (ptr - 8#64).toNat := by
    rw [Nat.dvd_iff_mod_eq_zero, ne_eq, ← BitVec.toNat_inj, BitVec.toNat_umod]
    rfl
  rw [hmod, hinv.heapStart, hinv.heapSize, ge_iff_le, BitVec.lt_def, BitVec.le_def, BitVec.lt_def,
    hend]
  unfold Detectable
  change (_ ∨ _ ∨ _ < 16 ∨ _) ↔ _
  omega

theorem HeapInv.rejects_of_detectable (hinv : HeapInv h live free) (hptr : ptr ≠ 0#64)
    (hbad : Detectable h ptr) : Rejects fuel h ptr := by
  unfold Rejects Heap.kfree
  dsimp only
  rw [if_neg hptr, if_pos (hinv.check_iff.mpr hbad)]

/-- A pointer that passes is put into the list, whatever it points to. -/
theorem HeapInv.kfree_of_not_detectable (hinv : HeapInv h live free) (hfuel : 65536 < fuel)
    (hptr : ptr ≠ 0#64) (hgood : ¬ Detectable h ptr) :
    ∃ before after, free = before ++ after ∧ (∀ c ∈ before, c.start < (ptr - 8#64).toNat) ∧
      Heap.kfree fuel h ptr = .ok (h.put before (grainAt (ptr - 8#64))) := by
  obtain ⟨before, after, rfl, hbefore, hafter⟩ := hinv.separated.around (ptr - 8#64).toNat
  have hin := not_not.mp fun hout => hgood (Or.inl hout)
  have hlen : before.length < fuel := by
    have hle := hinv.length_le
    rw [List.length_append] at hle
    omega
  have hloop := kfreeLoop_eq (grainAt_placed hin.1 hin.2) hinv.chain hinv.freeList.placed hbefore
    hafter hlen []
  rw [List.nil_append, List.map_nil, lastAddr_nil, addr_grainAt] at hloop
  refine ⟨before, after, rfl, hbefore, ?_⟩
  unfold Heap.kfree KernelHeap.put
  dsimp only
  rw [if_neg hptr, if_neg (mt hinv.check_iff.mp hgood), hloop, addr_grainAt]
  rfl

/-- A free block has a size that passes. -/
theorem HeapInv.not_detectable_of_free (hinv : HeapInv h live free) (hb : b ∈ free) :
    ¬ Detectable h (payload b) := by
  have hmem := List.mem_append_left live hb
  have hplaced := hinv.placed hmem
  have hgrained := hinv.grained b hmem
  obtain ⟨hlo, hhi⟩ := hinv.bounds hmem
  obtain ⟨before, after, rfl⟩ := List.append_of_mem hb
  have hsize := hinv.freeList.links.2.1
  have hleast := hgrained.least
  unfold Block.stop at hhi
  unfold Detectable
  rw [payload_sub, hsize, hplaced.toNat_addr, hplaced.toNat_size, toNat_kernelHeapStart, heapEnd_eq]
  rintro (hout | hsmall | hodd)
  · omega
  · omega
  · exact hodd hgrained.start

end Link

/-- Of the pointers that are not to live blocks, `kfree` rejects those that its check can see. Every
other one, that of a free block among them, it takes for a block, and the free list is no longer the
list of the gaps. -/
theorem kfree_rejects_iff (h : KernelHeap) (live free : List Block) (hinv : HeapInv h live free)
    (fuel : ℕ) (hfuel : 65536 < fuel) (ptr : Word) (hptr : ptr ≠ 0#64)
    (hlive : ∀ b ∈ live, ptr ≠ payload b) :
    (Rejects fuel h ptr ↔ Detectable h ptr) ∧
      (¬ Detectable h ptr →
        ∃ h', kfree fuel h ptr = .ok h' ∧ ∀ free', ¬ HeapInv h' live free') ∧
      ((∃ b ∈ free, ptr = payload b) → ¬ Detectable h ptr) := by
  have hcorrupt : ¬ Detectable h ptr →
      ∃ h', kfree fuel h ptr = .ok h' ∧ ∀ free', ¬ HeapInv h' live free' := by
    intro hgood
    obtain ⟨before, after, hfree, hbefore, hok⟩ := hinv.kfree_of_not_detectable hfuel hptr hgood
    have hin := not_not.mp fun hout => hgood (Or.inl hout)
    have hdvd := not_not.mp fun hodd => hgood (Or.inr (Or.inr hodd))
    refine ⟨_, hok, hinv.put_not_heapInv hfree hbefore (grainAt_placed hin.1 hin.2) hdvd hin.1 hin.2
      (fun c hc hstart => hlive c hc ?_) fun hzero => hgood (Or.inr (Or.inl ?_))⟩
    · unfold payload addr
      rw [hstart]
      change ptr = BitVec.ofNat 64 (ptr - 8#64).toNat + 8#64
      rw [BitVec.ofNat_toNat, BitVec.setWidth_eq, sub_add_cancel]
    · rw [addr_grainAt] at hzero
      rw [hzero]
      decide
  refine ⟨⟨fun hrejects => ?_, hinv.rejects_of_detectable hptr⟩, hcorrupt, ?_⟩
  · by_contra hgood
    obtain ⟨h', hok, -⟩ := hcorrupt hgood
    rw [Rejects, hok] at hrejects
    exact absurd hrejects (by simp)
  · rintro ⟨b, hb, rfl⟩
    exact hinv.not_detectable_of_free hb

theorem kfree_rejects_iff_freshHeap :
    HeapInv (freshHeap bootHeap.toMachine) [] [wholeHeap] ∧
      Rejects 65537 (freshHeap bootHeap.toMachine) 0x1000#64 := by
  have hinv := freshHeap_inv bootHeap.toMachine
  refine ⟨hinv, (kfree_rejects_iff _ [] [wholeHeap] hinv 65537 (by norm_num) 0x1000#64 (by decide)
    (by simp)).1.mpr (Or.inl ?_)⟩
  rw [toNat_kernelHeapStart]
  decide

/-- Freeing the first block of a heap that is all free: it becomes its own successor. -/
theorem kfree_takes_free_block :
    HeapInv (freshHeap bootHeap.toMachine) [] [wholeHeap] ∧
      ∃ h', kfree 65537 (freshHeap bootHeap.toMachine) (payload wholeHeap) = .ok h' ∧
        ¬ Rejects 65537 (freshHeap bootHeap.toMachine) (payload wholeHeap) ∧
        h'.freeListHead = addr wholeHeap ∧
        load64 h'.mem (addr wholeHeap + 8#64) = addr wholeHeap := by
  refine ⟨freshHeap_inv _, ?_⟩
  have hrun : (kfree 65537 (freshHeap bootHeap.toMachine) (payload wholeHeap)).toOption.map
      (fun h' => (h'.freeListHead, load64 h'.mem (addr wholeHeap + 8#64))) =
        some (addr wholeHeap, addr wholeHeap) := by decide +kernel
  obtain ⟨h', hok, hvalues⟩ := Loop.exists_of_toOption hrun
  rw [Prod.mk.injEq] at hvalues
  refine ⟨h', hok, fun hrejects => ?_, hvalues⟩
  rw [Rejects, hok] at hrejects
  exact absurd hrejects (by simp)

end Osiris.Heap
