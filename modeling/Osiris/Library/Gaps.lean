import Osiris.Library.Blocks

/-! # Gaps between blocks

A gap is a range of a region that meets none of the blocks that are in use. The blocks of a
separated tiling that are not in use are its maximal gaps. -/

namespace Osiris.Blocks

/-- `b` lies in the region and keeps away from the blocks in use. -/
structure Gap (lo hi : ℕ) (used : List Block) (b : Block) : Prop where
  start : lo ≤ b.start
  stop : b.stop ≤ hi
  disjoint : ∀ c ∈ used, b.Disjoint c

/-- No other gap contains `b`. -/
structure MaximalGap (lo hi : ℕ) (used : List Block) (b : Block) : Prop extends
    Gap lo hi used b where
  pos : 0 < b.size
  maximal : ∀ c, Gap lo hi used c → c.start ≤ b.start → b.stop ≤ c.stop → c = b

section

variable {lo hi n : ℕ} {free used : List Block} {b c d : Block}

theorem Block.contains_start (hb : 0 < b.size) : b.Contains b.start := by
  unfold Block.Contains Block.stop
  omega

/-- The blocks that are not in use are gaps. -/
theorem Tiles.gap (htiles : Tiles lo hi (free ++ used)) (hb : b ∈ free) (hsize : 0 < b.size) :
    Gap lo hi used b := by
  obtain ⟨hlo, hhi⟩ := htiles.bounds (List.mem_append_left used hb) hsize
  exact ⟨hlo, hhi, (List.pairwise_append.mp htiles.disjoint).2.2 b hb⟩

theorem Gap.exists_free (hgap : Gap lo hi used b) (htiles : Tiles lo hi (free ++ used)) {a : ℕ}
    (ha : b.Contains a) : ∃ c ∈ free, c.Contains a := by
  have hstart := hgap.start
  have hstop := hgap.stop
  have hin : lo ≤ a ∧ a < hi := by
    unfold Block.Contains at ha
    omega
  obtain ⟨c, hc, hca⟩ := (htiles.cover a).mp hin
  cases List.mem_append.mp hc with
  | inl hfree => exact ⟨c, hfree, hca⟩
  | inr hused => exact absurd hca (hgap.disjoint c hused a ha)

/-- Of two blocks of a separated list, one ends before the other starts. -/
theorem Separated.lt_or_lt (hsep : Separated free) (hb : b ∈ free) (hc : c ∈ free) (hne : b ≠ c) :
    b.stop < c.start ∨ c.stop < b.start := by
  induction free with
  | nil => exact absurd hb (by simp)
  | cons d ds ih =>
      obtain ⟨hd, hds⟩ := List.pairwise_cons.mp hsep
      rcases List.mem_cons.mp hb with rfl | hb'
      · rcases List.mem_cons.mp hc with rfl | hc'
        · exact absurd rfl hne
        · exact Or.inl (hd c hc')
      · rcases List.mem_cons.mp hc with rfl | hc'
        · exact Or.inr (hd b hb')
        · exact ih hds hb' hc'

/-- A gap lies within one of the blocks that are not in use. -/
theorem Gap.within (hgap : Gap lo hi used b) (hb : 0 < b.size) (hsep : Separated free)
    (htiles : Tiles lo hi (free ++ used)) :
    ∃ c ∈ free, c.start ≤ b.start ∧ b.stop ≤ c.stop := by
  obtain ⟨c, hc, hcb⟩ := hgap.exists_free htiles (Block.contains_start hb)
  refine ⟨c, hc, hcb.1, ?_⟩
  -- otherwise the first address behind `c` would be in a block that follows `c` without a gap
  by_contra hlt
  have hnext : b.Contains c.stop := by
    unfold Block.Contains at *
    omega
  obtain ⟨d, hd, hdc⟩ := hgap.exists_free htiles hnext
  have hne : c ≠ d := by
    rintro rfl
    exact absurd hdc.2 (lt_irrefl _)
  have hapart := hsep.lt_or_lt hc hd hne
  unfold Block.Contains Block.stop at *
  omega

/-- There is a gap of `n` bytes exactly when one of the blocks is large enough. -/
theorem exists_gap_iff (hn : 0 < n) (hsep : Separated free)
    (htiles : Tiles lo hi (free ++ used)) :
    (∃ a, Gap lo hi used ⟨a, n⟩) ↔ ∃ b ∈ free, n ≤ b.size := by
  constructor
  · rintro ⟨a, hgap⟩
    obtain ⟨c, hc, hstart, hstop⟩ := hgap.within hn hsep htiles
    refine ⟨c, hc, ?_⟩
    unfold Block.stop at hstop
    dsimp only at hstart hstop
    omega
  · rintro ⟨b, hb, hle⟩
    have hgap := htiles.gap hb (by omega)
    refine ⟨b.start, hgap.start, ?_, fun c hc a ha => ?_⟩
    · have hstop := hgap.stop
      unfold Block.stop at *
      dsimp only
      omega
    · exact hgap.disjoint c hc a (Block.contains_fst ha hle)

/-- The blocks that are not in use are the maximal gaps. -/
theorem maximalGap_iff (hsize : ∀ b ∈ free, 0 < b.size) (hsep : Separated free)
    (htiles : Tiles lo hi (free ++ used)) : MaximalGap lo hi used b ↔ b ∈ free := by
  constructor
  · intro hmax
    obtain ⟨c, hc, hstart, hstop⟩ := hmax.toGap.within hmax.pos hsep htiles
    have heq := hmax.maximal c (htiles.gap hc (hsize c hc)) hstart hstop
    exact heq ▸ hc
  · intro hb
    have hpos := hsize b hb
    refine ⟨htiles.gap hb hpos, hpos, fun c hgap hstart hstop => ?_⟩
    have hcpos : 0 < c.size := by
      unfold Block.stop at hstop
      omega
    obtain ⟨d, hd, hdstart, hdstop⟩ := hgap.within hcpos hsep htiles
    have hbd : b = d := by
      by_contra hne
      have hapart := hsep.lt_or_lt hb hd hne
      unfold Block.stop at *
      omega
    subst hbd
    cases b
    cases c
    unfold Block.stop at *
    simp only [Block.mk.injEq] at *
    omega

end

/-! ## First fit -/

/-- When the blocks come in units of `least`, first fit takes exactly `n` bytes from the start of the
lowest block that is large enough. -/
theorem firstFit_lowest {least n : ℕ} {free free' : List Block} {b : Block} (hsep : Separated free)
    (hsize : ∀ b ∈ free, least ∣ b.size) (hn : least ∣ n)
    (hfit : firstFit least n free = some (b, free')) :
    ∃ c ∈ free, n ≤ c.size ∧ (∀ d ∈ free, n ≤ d.size → c.start ≤ d.start) ∧ b = ⟨c.start, n⟩ := by
  have hlowest : ∀ before c after, free = before ++ c :: after → (∀ d ∈ before, d.size < n) →
      ∀ d ∈ free, n ≤ d.size → c.start ≤ d.start := by
    intro before c after heq hsmall d hd hle
    subst heq
    obtain ⟨-, htail, -⟩ := List.pairwise_append.mp hsep
    rcases List.mem_append.mp hd with hd | hd
    · exact absurd hle (not_le.mpr (hsmall d hd))
    · rcases List.mem_cons.mp hd with rfl | hd
      · exact le_rfl
      · have hlt := (List.pairwise_cons.mp htail).1 d hd
        unfold Block.stop at hlt
        omega
  have hcases := firstFit_cases least n free
  rw [hfit] at hcases
  cases hcases with
  | split before c after heq hsmall hfits hrest =>
      exact ⟨c, by simp [heq], hfits, hlowest before c after heq hsmall, rfl⟩
  | whole before c after heq hsmall hfits hrest =>
      have hb : b ∈ free := by simp [heq]
      refine ⟨b, hb, hfits, hlowest before b after heq hsmall, ?_⟩
      have hexact : b.size - n = 0 := Nat.eq_zero_of_dvd_of_lt (Nat.dvd_sub (hsize b hb) hn) hrest
      cases b
      simp only [Block.mk.injEq, true_and] at *
      omega

end Osiris.Blocks
