import Osiris.Verification.Heap.History

/-! # The size of what is handed out

`total_size` wraps for the 23 largest requests, which then get the smallest block. -/

namespace Osiris.Heap

open ByteMemory Strings Blocks LinkedList

/-- The header of `p` has room for `n` bytes, and they are in the heap. -/
def Roomy (h : KernelHeap) (p : Word) (n : ℕ) : Prop :=
  n + 8 ≤ (load64 h.mem (p - 8#64)).toNat ∧ kernelHeapStart.toNat ≤ p.toNat ∧ p.toNat + n ≤ heapEnd

/-- The function returns, and a pointer that is not `NULL` has room for `n` bytes. -/
def NotSmaller (result : Except Fault (Word × KernelHeap)) (n : ℕ) : Prop :=
  ∃ p h', result = .ok (p, h') ∧ (p ≠ 0#64 → Roomy h' p n)

/-! ## `total_size` -/

theorem toNat_totalSize {size : Word} (hsize : size.toNat + 23 < 2 ^ 64) :
    (totalSize size).toNat = (size.toNat + 23) / 16 * 16 := by
  have hle := le_totalSize hsize
  rcases totalSize_cases size with hleast | ⟨-, heq⟩
  · omega
  · rw [heq]
    omega

theorem toNat_totalSize_of_wraps {size : Word} (hsize : 2 ^ 64 ≤ size.toNat + 23) :
    (totalSize size).toNat = 16 := by
  have hlt := size.isLt
  rcases totalSize_cases size with hleast | ⟨hge, heq⟩
  · exact hleast
  · rw [heq] at hge ⊢
    omega

section

variable {h h' : KernelHeap} {live live' free : List Block} {b : Block} {fuel : ℕ}
  {size p : Word} {n : ℕ}

/-- A live block is as roomy as its size. -/
theorem HeapInv.roomy (hinv : HeapInv h live free) (hb : b ∈ live) (hn : n + 8 ≤ b.size) :
    Roomy h (payload b) n := by
  have hplaced := hinv.placed_live hb
  obtain ⟨hlo, hhi⟩ := hinv.bounds (List.mem_append_right free hb)
  unfold Block.stop at hhi
  refine ⟨?_, ?_, ?_⟩
  · rw [payload_sub, hinv.headers b hb, hplaced.toNat_size]
    exact hn
  · rw [hplaced.toNat_payload, toNat_kernelHeapStart]
    omega
  · rw [hplaced.toNat_payload, heapEnd_eq]
    omega

/-- Nothing has room for more than the heap. -/
theorem not_roomy_of_large (hn : 2 ^ 64 ≤ n + 23) : ¬ Roomy h p n := by
  rintro ⟨-, hlo, hhi⟩
  rw [toNat_kernelHeapStart] at hlo
  rw [heapEnd_eq] at hhi
  omega

theorem notSmaller_null {result : Except Fault (Word × KernelHeap)} (hok : result = .ok (0#64, h)) :
    NotSmaller result n :=
  ⟨0#64, h, hok, fun hne => absurd rfl hne⟩

/-- What returns a pointer to fewer bytes than the largest requests ask for. -/
theorem not_notSmaller_of_large (hn : 2 ^ 64 ≤ n + 23) {result : Except Fault (Word × KernelHeap)}
    (hptr : ∀ p h', result = .ok (p, h') → p ≠ 0#64) : ¬ NotSmaller result n := by
  rintro ⟨p, h', hok, hroomy⟩
  exact not_roomy_of_large hn (hroomy (hptr p h' hok))

/-! ## `kmalloc` -/

/-- A request that wraps takes 16 bytes of the first free block. -/
theorem HeapInv.kmalloc_of_wraps (hinv : HeapInv h live free) (hfuel : 65536 < fuel)
    (hsize : 2 ^ 64 ≤ size.toNat + 23) (hfree : free ≠ []) :
    ∃ c h', Heap.kmalloc fuel h size = .ok (payload c, h') ∧ payload c ≠ 0#64 := by
  rcases hinv.kmalloc hfuel size with ⟨hcause, -⟩ | ⟨c, free', h', -, hok, hinv', -⟩
  · obtain ⟨c, cs, rfl⟩ := List.exists_cons_of_ne_nil hfree
    have hleast := (hinv.grained c (by simp)).least
    rcases hcause with rfl | hnone
    · simp at hsize
    · have hsmall := firstFit_eq_none_iff.mp hnone c List.mem_cons_self
      rw [toNat_totalSize_of_wraps hsize] at hsmall
      omega
  · exact ⟨c, h', hok, (hinv'.placed_live List.mem_cons_self).payload_ne_zero⟩

theorem HeapInv.kmalloc_of_free_nil (hinv : HeapInv h live []) (hfuel : 65536 < fuel)
    (size : Word) : Heap.kmalloc fuel h size = .ok (0#64, h) := by
  rcases hinv.kmalloc hfuel size with ⟨-, hnull⟩ | ⟨b, free', h', hfit, -⟩
  · exact hnull
  · simp [firstFit] at hfit

theorem HeapInv.kmalloc_notSmaller_iff (hinv : HeapInv h live free) (hfuel : 65536 < fuel)
    (size : Word) :
    NotSmaller (Heap.kmalloc fuel h size) size.toNat ↔ size.toNat + 23 < 2 ^ 64 ∨ free = [] := by
  constructor
  · intro hroomy
    by_contra hnot
    rw [not_or, not_lt] at hnot
    obtain ⟨c, h', hok, hne⟩ := hinv.kmalloc_of_wraps hfuel hnot.1 hnot.2
    refine not_notSmaller_of_large hnot.1 (fun p h'' hok' => ?_) hroomy
    rw [hok, Except.ok.injEq, Prod.mk.injEq] at hok'
    exact hok'.1 ▸ hne
  · rintro (hsize | rfl)
    · rcases hinv.kmalloc hfuel size with ⟨-, hnull⟩ | ⟨c, free', h', -, hok, hinv', hle, -⟩
      · exact notSmaller_null hnull
      · have hfits := le_trans (le_totalSize hsize) hle
        exact ⟨payload c, h', hok, fun _ => hinv'.roomy List.mem_cons_self hfits⟩
    · exact notSmaller_null (hinv.kmalloc_of_free_nil hfuel size)

/-! ## `kcalloc` -/

/-- The check of `kcalloc` finds every product that does not fit in a word. -/
theorem kcalloc_check_iff (num size : Word) :
    (size ≠ 0#64 ∧ num * size / size ≠ num) ↔ 2 ^ 64 ≤ num.toNat * size.toNat := by
  have hdiv : (num * size / size).toNat = num.toNat * size.toNat % 2 ^ 64 / size.toNat := by
    rw [BitVec.toNat_udiv, BitVec.toNat_mul]
  constructor
  · rintro ⟨hne, hover⟩
    by_contra hlt
    refine hover (BitVec.eq_of_toNat_eq ?_)
    have hpos : 0 < size.toNat := Nat.pos_of_ne_zero fun hzero => hne (BitVec.eq_of_toNat_eq hzero)
    rw [hdiv, Nat.mod_eq_of_lt (not_le.mp hlt), Nat.mul_div_cancel _ hpos]
  · intro hover
    have hpos : 0 < size.toNat := Nat.pos_of_ne_zero fun hzero => by
      rw [hzero] at hover
      omega
    refine ⟨fun hzero => ?_, fun heq => ?_⟩
    · rw [hzero] at hpos
      simp at hpos
    · have hless : num.toNat * size.toNat % 2 ^ 64 / size.toNat < num.toNat := by
        rw [Nat.div_lt_iff_lt_mul hpos]
        exact lt_of_lt_of_le (Nat.mod_lt _ (by norm_num)) hover
      rw [← hdiv, heq] at hless
      exact lt_irrefl _ hless

theorem toNat_mul_of_lt {num size : Word} (hlt : num.toNat * size.toNat < 2 ^ 64) :
    (num * size).toNat = num.toNat * size.toNat := by
  rw [BitVec.toNat_mul, Nat.mod_eq_of_lt hlt]

theorem kcalloc_of_overflow {num size : Word} (hover : 2 ^ 64 ≤ num.toNat * size.toNat) :
    kcalloc fuel h num size = .ok (0#64, h) := by
  unfold kcalloc
  exact if_pos ((kcalloc_check_iff num size).mpr hover)

/-- A product that fits is one request, and what it gets is cleared. -/
theorem kcalloc_of_lt {num size : Word} (hlt : num.toNat * size.toNat < 2 ^ 64)
    (hok : kmalloc fuel h (num * size) = .ok (p, h')) :
    ∃ mem, kcalloc fuel h num size = .ok (p, { h' with mem }) ∧
      (p = 0#64 → mem = h'.mem) ∧
      (p ≠ 0#64 → mem = memset h'.mem p 0#32 ((num * size).setWidth 32)) := by
  have hcheck := mt (kcalloc_check_iff num size).mp (not_le.mpr hlt)
  unfold kcalloc
  dsimp only
  rw [if_neg hcheck, hok]
  by_cases hp : p = 0#64
  · exact ⟨h'.mem, if_neg (not_not.mpr hp), fun _ => rfl, fun hne => absurd hp hne⟩
  · exact ⟨_, if_pos hp, fun hzero => absurd hzero hp, fun _ => rfl⟩

theorem HeapInv.kcalloc_notSmaller_iff (hinv : HeapInv h live free) (hfuel : 65536 < fuel)
    (num size : Word) :
    NotSmaller (Heap.kcalloc fuel h num size) (num.toNat * size.toNat) ↔
      2 ^ 64 ≤ num.toNat * size.toNat ∨ num.toNat * size.toNat + 23 < 2 ^ 64 ∨ free = [] := by
  by_cases hover : 2 ^ 64 ≤ num.toNat * size.toNat
  · exact iff_of_true (notSmaller_null (kcalloc_of_overflow hover)) (Or.inl hover)
  rw [not_le] at hover
  have hprod := toNat_mul_of_lt hover
  constructor
  · intro hroomy
    by_contra hnot
    rw [not_or, not_or, not_lt] at hnot
    obtain ⟨-, hlarge, hfree⟩ := hnot
    have hwraps : 2 ^ 64 ≤ (num * size).toNat + 23 := by omega
    obtain ⟨c, h', hok, hne⟩ := hinv.kmalloc_of_wraps hfuel hwraps hfree
    obtain ⟨mem, hcok, -⟩ := kcalloc_of_lt hover hok
    refine not_notSmaller_of_large hlarge (fun p h'' hok' => ?_) hroomy
    rw [hcok, Except.ok.injEq, Prod.mk.injEq] at hok'
    exact hok'.1 ▸ hne
  · rintro (hbig | hsize | rfl)
    · omega
    · rw [← hprod] at hsize ⊢
      rcases hinv.kcalloc hfuel hsize with hnull | ⟨c, free', h', hok, hinv', hle⟩
      · exact notSmaller_null hnull
      · exact ⟨payload c, h', hok, fun _ => hinv'.roomy List.mem_cons_self hle⟩
    · obtain ⟨mem, hok, hsame, -⟩ := kcalloc_of_lt hover (hinv.kmalloc_of_free_nil hfuel _)
      rw [hsame rfl] at hok
      exact notSmaller_null hok

/-! ## `krealloc` -/

/-- A request beyond the block is one for a new block. -/
theorem krealloc_of_large (hp : p ≠ 0#64) (hsize : size ≠ 0#64)
    (hlarge : ¬ size ≤ load64 h.mem (p - 8#64) - 8#64) {q : Word}
    (hok : kmalloc fuel h size = .ok (q, h')) :
    krealloc fuel h p size =
      if q ≠ 0#64 then
        (kfree fuel
          { h' with
            mem := memcpy h'.mem q p ((load64 h.mem (p - 8#64) - 8#64).setWidth 32) } p).bind
          fun h'' => .ok (q, h'')
      else .ok (q, h') := by
  unfold krealloc
  dsimp only
  rw [if_neg hp, if_neg hsize, if_neg hlarge, hok]
  rfl

theorem HeapInv.krealloc_notSmaller (hinv : HeapInv h live free) (hfuel : 65536 < fuel)
    (hb : b ∈ live) (hsize : size.toNat + 23 < 2 ^ 64) :
    NotSmaller (Heap.krealloc fuel h (payload b) size) size.toNat := by
  have hperm := List.perm_cons_erase hb
  by_cases hzero : size = 0#64
  · obtain ⟨h', hfreed, -⟩ := hinv.kfree hfuel hperm
    rw [hzero]
    exact notSmaller_null (krealloc_zero fuel (hinv.placed_live hb).payload_ne_zero hfreed)
  · rcases hinv.krealloc hfuel hsize hzero hperm with
      ⟨hkept, hfits⟩ | hnull | ⟨c, free', h', hok, -, hinv', hfits, -⟩
    · exact ⟨payload b, h, hkept, fun _ => hinv.roomy hb hfits⟩
    · exact notSmaller_null hnull
    · exact ⟨payload c, h', hok, fun _ => hinv'.roomy List.mem_cons_self hfits⟩

theorem HeapInv.krealloc_notSmaller_iff (hinv : HeapInv h live free) (hfuel : 65536 < fuel)
    (hb : b ∈ live) (size : Word) :
    NotSmaller (Heap.krealloc fuel h (payload b) size) size.toNat ↔
      size.toNat + 23 < 2 ^ 64 ∨ free = [] := by
  by_cases hsize : size.toNat + 23 < 2 ^ 64
  · exact iff_of_true (hinv.krealloc_notSmaller hfuel hb hsize) (Or.inl hsize)
  -- the header of a live block is far below such a request
  have hplaced := hinv.placed_live hb
  have hlt := hinv.size_lt hb
  have hge := hplaced.size_le
  rw [not_lt] at hsize
  have hzero : size ≠ 0#64 := by
    rintro rfl
    simp at hsize
  have hlarge : ¬ size ≤ load64 h.mem (payload b - 8#64) - 8#64 := by
    rw [payload_sub, hinv.headers b hb, ofNat_sub_ofNat (n := 8) hplaced.size_lt (by omega),
      BitVec.le_def, BitVec.toNat_ofNat, Nat.mod_eq_of_lt (by omega)]
    omega
  constructor
  · intro hroomy
    by_contra hnot
    rw [not_or] at hnot
    obtain ⟨c, h', hok, hne⟩ := hinv.kmalloc_of_wraps hfuel hsize hnot.2
    have heq := krealloc_of_large hplaced.payload_ne_zero hzero hlarge hok
    rw [if_pos hne] at heq
    refine not_notSmaller_of_large hsize (fun p h'' hok' => ?_) hroomy
    rw [heq] at hok'
    obtain ⟨h₃, -, hret⟩ := Loop.bind_eq_ok.mp hok'
    rw [Except.ok.injEq, Prod.mk.injEq] at hret
    exact hret.1 ▸ hne
  · rintro (hfits | rfl)
    · omega
    · have hnull := hinv.kmalloc_of_free_nil hfuel size
      have heq := krealloc_of_large hplaced.payload_ne_zero hzero hlarge hnull
      rw [if_neg (not_not.mpr rfl)] at heq
      exact notSmaller_null heq

end

/-- A request gets room for all of it exactly when it does not wrap, unless there is nothing left
to hand out. -/
theorem allocation_not_smaller_iff (h : KernelHeap) (live free : List Block)
    (hinv : HeapInv h live free) (fuel : ℕ) (hfuel : 65536 < fuel) :
    (∀ size : Word, NotSmaller (kmalloc fuel h size) size.toNat ↔
      size.toNat + 23 < 2 ^ 64 ∨ free = []) ∧
    (∀ num size : Word, NotSmaller (kcalloc fuel h num size) (num.toNat * size.toNat) ↔
      2 ^ 64 ≤ num.toNat * size.toNat ∨ num.toNat * size.toNat + 23 < 2 ^ 64 ∨ free = []) ∧
    ∀ b ∈ live, ∀ size : Word, NotSmaller (krealloc fuel h (payload b) size) size.toNat ↔
      size.toNat + 23 < 2 ^ 64 ∨ free = [] :=
  ⟨hinv.kmalloc_notSmaller_iff hfuel, hinv.kcalloc_notSmaller_iff hfuel,
    fun _ hb => hinv.krealloc_notSmaller_iff hfuel hb⟩

theorem allocation_not_smaller_iff_freshHeap :
    HeapInv (freshHeap bootHeap.toMachine) [] [wholeHeap] ∧
      NotSmaller (kmalloc 65537 (freshHeap bootHeap.toMachine) 100#64) 100 :=
  ⟨freshHeap_inv _, ((allocation_not_smaller_iff _ [] [wholeHeap] (freshHeap_inv _) 65537
    (by norm_num)).1 100#64).mpr (Or.inl (by decide))⟩

/-- A request for all but seven bytes of the address space gets 16 bytes. -/
theorem kmalloc_smaller_than_requested :
    HeapInv (freshHeap bootHeap.toMachine) [] [wholeHeap] ∧
      ∃ p h', kmalloc 65537 (freshHeap bootHeap.toMachine) 0xFFFFFFFFFFFFFFF8#64 = .ok (p, h') ∧
        p ≠ 0#64 ∧ load64 h'.mem (p - 8#64) = 16#64 ∧
        ¬ Roomy h' p (0xFFFFFFFFFFFFFFF8#64).toNat := by
  refine ⟨freshHeap_inv _, ?_⟩
  have hrun : (kmalloc 65537 (freshHeap bootHeap.toMachine) 0xFFFFFFFFFFFFFFF8#64).toOption.map
      (fun result => (result.1, load64 result.2.mem (result.1 - 8#64))) =
        some (0xFFFF810000000008#64, 16#64) := by decide +kernel
  obtain ⟨⟨p, h'⟩, hok, hvalues⟩ := Loop.exists_of_toOption hrun
  rw [Prod.mk.injEq] at hvalues
  refine ⟨p, h', hok, ?_, hvalues.2, not_roomy_of_large (by decide)⟩
  rw [show p = 0xFFFF810000000008#64 from hvalues.1]
  decide

end Osiris.Heap
