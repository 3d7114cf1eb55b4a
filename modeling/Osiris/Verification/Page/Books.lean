import Osiris.Verification.Page.Allocator

/-! # The books of the frame allocator

The two page counters follow the bitmap, so that an allocator whose bitmap is back to what it was
has its counters back as well. -/

namespace Osiris.Page

open ByteMemory

/-- Both counters have moved with the number of free frames, and nothing has changed that does not
concern a managed frame. -/
structure Pmm.Balanced (pmm pmm' : Pmm) : Prop where
  highest : pmm'.highestPage = pmm.highestPage
  total : pmm'.totalRamPages = pmm.totalRamPages
  free : pmm'.freePages + BitVec.ofNat 64 pmm.freeFrames.card =
    pmm.freePages + BitVec.ofNat 64 pmm'.freeFrames.card
  used : pmm'.usedPages + BitVec.ofNat 64 pmm'.freeFrames.card =
    pmm.usedPages + BitVec.ofNat 64 pmm.freeFrames.card
  above : ∀ i, pmm.highestPage < i → pmm'.memoryBitmap.get i = pmm.memoryBitmap.get i

theorem Pmm.Balanced.refl (pmm : Pmm) : pmm.Balanced pmm :=
  ⟨rfl, rfl, rfl, rfl, fun _ _ => rfl⟩

theorem Pmm.Balanced.trans {pmm₁ pmm₂ pmm₃ : Pmm} (h₁ : pmm₁.Balanced pmm₂)
    (h₂ : pmm₂.Balanced pmm₃) : pmm₁.Balanced pmm₃ := by
  refine ⟨h₂.highest.trans h₁.highest, h₂.total.trans h₁.total, ?_, ?_, fun i hi => ?_⟩
  · apply add_right_cancel (b := BitVec.ofNat 64 pmm₂.freeFrames.card)
    calc pmm₃.freePages + BitVec.ofNat 64 pmm₁.freeFrames.card + BitVec.ofNat 64 pmm₂.freeFrames.card
        = pmm₃.freePages + BitVec.ofNat 64 pmm₂.freeFrames.card
            + BitVec.ofNat 64 pmm₁.freeFrames.card := by ring
      _ = pmm₂.freePages + BitVec.ofNat 64 pmm₁.freeFrames.card
            + BitVec.ofNat 64 pmm₃.freeFrames.card := by rw [h₂.free]; ring
      _ = pmm₁.freePages + BitVec.ofNat 64 pmm₃.freeFrames.card
            + BitVec.ofNat 64 pmm₂.freeFrames.card := by rw [h₁.free]; ring
  · exact h₂.used.trans h₁.used
  · rw [h₂.above i (h₁.highest.symm ▸ hi), h₁.above i hi]

theorem balanced_take (hh : Word) {s : Machine} {i : ℕ} (hfree : s.pmm.Free i) :
    s.pmm.Balanced (s.take hh i).pmm := by
  have hcard : (s.take hh i).pmm.freeFrames.card + 1 = s.pmm.freeFrames.card :=
    card_freeFrames_take hfree
  have hcast : BitVec.ofNat 64 s.pmm.freeFrames.card =
      BitVec.ofNat 64 (s.take hh i).pmm.freeFrames.card + 1#64 := by
    rw [← hcard, BitVec.ofNat_add]
  refine ⟨rfl, rfl, ?_, ?_, fun j hj => ?_⟩
  · change s.pmm.freePages - 1#64 + _ = s.pmm.freePages + _
    rw [hcast]
    ring
  · change s.pmm.usedPages + 1#64 + _ = s.pmm.usedPages + _
    rw [hcast]
    ring
  · have hne : j ≠ i := by
      have hi := hfree.1
      omega
    change (s.pmm.memoryBitmap.set i).get j = _
    simp [hne]

theorem card_freeFrames_clear {pmm pmm' : Pmm} {i : ℕ} (hused : ¬ pmm.Free i)
    (hfree : ∀ f, pmm'.Free f ↔ pmm.Free f ∨ f = i) :
    pmm'.freeFrames.card = pmm.freeFrames.card + 1 := by
  have hinsert : pmm'.freeFrames = insert i pmm.freeFrames := by
    ext f
    rw [mem_freeFrames, Finset.mem_insert, mem_freeFrames, hfree f, or_comm]
  rw [hinsert, Finset.card_insert_of_notMem]
  exact fun hmem => hused (mem_freeFrames.mp hmem)

theorem balanced_freePage (pmm : Pmm) (page : Word) : pmm.Balanced (freePage pmm page) := by
  cases freePage_cases pmm page with
  | inl heq =>
      rw [heq]
      exact Pmm.Balanced.refl pmm
  | inr hcleared =>
      obtain ⟨i, hi, hne, hle, hused, hlim, heq⟩ := hcleared
      have hcard : (freePage pmm page).freeFrames.card = pmm.freeFrames.card + 1 := by
        refine card_freeFrames_clear hused fun f => free_freePage.trans (or_congr_right ?_)
        constructor
        · exact fun hf => frameAddr_inj hf.2.1 hlim (hf.1.symm.trans hi)
        · intro hf
          rw [hf]
          exact ⟨hi, hlim, hne, hle⟩
      have hcast : BitVec.ofNat 64 (freePage pmm page).freeFrames.card =
          BitVec.ofNat 64 pmm.freeFrames.card + 1#64 := by
        rw [hcard, BitVec.ofNat_add]
      refine ⟨freePage_highestPage pmm page, by rw [heq], ?_, ?_, fun j hj => ?_⟩
      · rw [hcast, heq]
        ring
      · rw [hcast, heq]
        ring
      · have hji : j ≠ i := by omega
        rw [heq]
        simp [hji]

/-- The bitmap decides the rest. -/
theorem Pmm.Balanced.eq_of_free {pmm pmm' : Pmm} (h : pmm.Balanced pmm')
    (hfree : ∀ f, pmm'.Free f ↔ pmm.Free f) : pmm' = pmm := by
  have hbitmap : pmm'.memoryBitmap = pmm.memoryBitmap := by
    refine Bitmap.ext_get fun i => ?_
    by_cases hi : pmm.highestPage < i
    · exact h.above i hi
    · have hiff := hfree i
      unfold Pmm.Free at hiff
      rw [h.highest] at hiff
      simp only [not_lt.mp hi, true_and] at hiff
      exact Bool.eq_iff_iff.mpr (by
        cases hget : pmm.memoryBitmap.get i <;> cases hget' : pmm'.memoryBitmap.get i <;>
          simp_all)
  have hframes : pmm'.freeFrames = pmm.freeFrames := by
    ext f
    rw [mem_freeFrames, mem_freeFrames, hfree f]
  have hfreePages : pmm'.freePages = pmm.freePages := by
    have heq := h.free
    rw [hframes] at heq
    exact add_right_cancel heq
  have husedPages : pmm'.usedPages = pmm.usedPages := by
    have heq := h.used
    rw [hframes] at heq
    exact add_right_cancel heq
  cases pmm
  cases pmm'
  simp only [Pmm.mk.injEq]
  exact ⟨hbitmap, h.highest, husedPages, hfreePages, h.total⟩

/-- A frame that is taken and given back leaves no trace in the allocator. -/
theorem freePage_take {hh : Word} {s : Machine} {i : ℕ} (hs : s.Valid hh) (hfree : s.pmm.Free i) :
    freePage (s.take hh i).pmm (frameAddr i) = s.pmm := by
  have hbalanced := (balanced_take hh hfree).trans (balanced_freePage _ (frameAddr i))
  have hlim : i < frameLimit := (hs.lt_limit hfree.1).trans (by unfold frameLimit; norm_num)
  refine hbalanced.eq_of_free fun f => free_freePage.trans ?_
  rw [free_take]
  constructor
  · rintro (hf | hf)
    · exact hf.1
    · rw [← frameAddr_inj hlim hf.2.1 hf.1]
      exact hfree
  · intro hf
    by_cases hfi : f = i
    · rw [hfi]
      exact Or.inr ⟨rfl, hlim, hs.ne_zero_of_free hfree, hfree.1⟩
    · exact Or.inl ⟨hf, hfi⟩

end Osiris.Page
