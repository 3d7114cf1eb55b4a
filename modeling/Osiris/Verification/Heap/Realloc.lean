import Osiris.Verification.Heap.Sizes

/-! # `krealloc` keeps what was in the block -/

namespace Osiris.Heap

open ByteMemory Strings Blocks LinkedList

/-- The bytes of a block, its header included, are the same. -/
def SameBytes (h h' : KernelHeap) (b : Block) : Prop :=
  ∀ x : Word, b.Contains x.toNat → h'.mem x = h.mem x

/-- What a `krealloc` of `b` that returns a pointer has done: `c` is live in its place. -/
structure Reallocated (h h' : KernelHeap) (live' : List Block) (b c : Block) (size : ℕ) : Prop where
  capacity : size + 8 ≤ c.size
  contents : ∀ i < min (b.size - 8) size,
    h'.mem (payload c + BitVec.ofNat 64 i) = h.mem (payload b + BitVec.ofNat 64 i)
  kept : payload c = payload b ↔ b ∈ c :: live'
  others : ∀ d ∈ live', load64 h'.mem (addr d) = load64 h.mem (addr d) ∧ SameBytes h h' d
  inv : ∃ free', HeapInv h' (c :: live') free'

section

variable {h h' : KernelHeap} {live live' free free' : List Block} {b c : Block} {fuel : ℕ}

theorem HeapInv.reallocated_kept (hinv : HeapInv h (b :: live') free) {size : ℕ}
    (hfits : size + 8 ≤ b.size) : Reallocated h h live' b b size where
  capacity := hfits
  contents := fun _ _ => rfl
  kept := iff_of_true rfl List.mem_cons_self
  others := fun _ _ => ⟨rfl, fun _ _ => rfl⟩
  inv := ⟨free, hinv⟩

theorem HeapInv.reallocated_moved (hinv : HeapInv h (b :: live') free) {size : ℕ}
    (hinv' : HeapInv h' (c :: live') free') (hcb : payload c ≠ payload b)
    (hfits : size + 8 ≤ c.size) (hmoved : Moved h h' b c) (ht : Touches h h' (b :: free)) :
    Reallocated h h' live' b c size := by
  have hrest := hinv.not_mem_rest
  refine ⟨hfits, fun i hi => hmoved i (by omega), iff_of_false hcb fun hmem => ?_, fun d hd => ?_,
    free', hinv'⟩
  · rcases List.mem_cons.mp hmem with rfl | hmem
    · exact hcb rfl
    · exact hrest hmem
  · have hd' : d ∈ b :: live' := List.mem_cons_of_mem b hd
    have hfar : ∀ e ∈ b :: free, d.Disjoint e := by
      refine List.forall_mem_cons.mpr ⟨?_, fun e he => (hinv.disjoint hd' e he).symm⟩
      exact hinv.disjoint_live hd' List.mem_cons_self fun heq => hrest (heq ▸ hd)
    exact ⟨ht.load64_addr (hinv.placed_live hd') hfar,
      fun x hx => ht.mem x fun e he hex => hfar e he _ hx hex⟩

end

/-- `krealloc` returns `NULL` and changes nothing, or a block with the old contents. -/
theorem krealloc_preserves (h : KernelHeap) (live free : List Block) (hinv : HeapInv h live free)
    (fuel : ℕ) (hfuel : 65536 < fuel) (b : Block) (live' : List Block)
    (hperm : live.Perm (b :: live')) (size : Word) (hne : size ≠ 0#64)
    (hsize : size.toNat + 23 < 2 ^ 64) :
    ∃ q h', krealloc fuel h (payload b) size = .ok (q, h') ∧
      (q = 0#64 → h' = h) ∧
      (q ≠ 0#64 → ∃ c, q = payload c ∧ Reallocated h h' live' b c size.toNat) := by
  have hinv₀ := hinv.perm hperm
  rcases hinv.krealloc hfuel hsize hne hperm with
    ⟨hkept, hfits⟩ | hnone | ⟨c, free', h', hok, hcb, hinv', hfits, hmoved, ht⟩
  · exact ⟨payload b, h, hkept, fun _ => rfl, fun _ => ⟨b, rfl, hinv₀.reallocated_kept hfits⟩⟩
  · exact ⟨0#64, h, hnone, fun _ => rfl, fun hq => absurd rfl hq⟩
  · have hc := hinv'.placed_live List.mem_cons_self
    exact ⟨payload c, h', hok, fun hzero => absurd hzero hc.payload_ne_zero,
      fun _ => ⟨c, rfl, hinv₀.reallocated_moved hinv' hcb hfits hmoved ht⟩⟩

theorem krealloc_preserves_oneLive :
    ∃ h free q h', HeapInv h [firstBlock] free ∧
      krealloc 65537 h (payload firstBlock) 200#64 = .ok (q, h') ∧ (q = 0#64 → h' = h) := by
  obtain ⟨h, free, -, hinv⟩ := firstBlock_inv bootHeap.toMachine
  obtain ⟨q, h', hok, hnull, -⟩ := krealloc_preserves h [firstBlock] free hinv 65537 (by norm_num)
    firstBlock [] (List.Perm.refl _) 200#64 (by decide) (by decide)
  exact ⟨h, free, q, h', hinv, hok, hnull⟩

end Osiris.Heap
