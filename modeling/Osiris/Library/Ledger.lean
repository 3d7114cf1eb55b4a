import Mathlib

/-! # Who has what

Items of a pool are free, or belong to one of the owners. Owners trade items with each other and with
those that are free, and no item is lost or has two owners. -/

namespace Osiris.Ledger

variable {ι β : Type*}

/-- Each item of the pool is free or has one owner, and there are no others. -/
structure Accounted (pool free : Set β) (own : ι → Set β) : Prop where
  apart : ∀ i j, i ≠ j → Disjoint (own i) (own j)
  free_apart : ∀ i, Disjoint free (own i)
  all : ∀ x, x ∈ pool ↔ x ∈ free ∨ ∃ i, x ∈ own i

variable {pool free free' : Set β} {own own' : ι → Set β}

theorem Accounted.not_free (h : Accounted pool free own) {i : ι} {x : β} (hx : x ∈ own i) :
    x ∉ free :=
  fun hfree => Set.disjoint_left.mp (h.free_apart i) hfree hx

theorem Accounted.not_mem (h : Accounted pool free own) {i j : ι} (hij : i ≠ j) {x : β}
    (hx : x ∈ own i) : x ∉ own j :=
  Set.disjoint_left.mp (h.apart i j hij) hx

/-- The owners in `S` trade among themselves and with the free items. -/
theorem Accounted.trade (h : Accounted pool free own) (S : Set ι) (hrest : ∀ i ∉ S, own' i = own i)
    (hsame : ∀ x, (x ∈ free' ∨ ∃ i ∈ S, x ∈ own' i) ↔ (x ∈ free ∨ ∃ i ∈ S, x ∈ own i))
    (hapart : ∀ i ∈ S, ∀ j ∈ S, i ≠ j → Disjoint (own' i) (own' j))
    (hfree : ∀ i ∈ S, Disjoint free' (own' i)) : Accounted pool free' own' := by
  -- what an owner outside of `S` has is none of the items traded
  have hout : ∀ x, (x ∈ free' ∨ ∃ i ∈ S, x ∈ own' i) → ∀ j ∉ S, x ∉ own' j := by
    intro x hx j hj hmem
    rw [hrest j hj] at hmem
    rcases (hsame x).mp hx with hold | ⟨i, hi, hold⟩
    · exact h.not_free hmem hold
    · have hij : i ≠ j := by
        rintro rfl
        exact hj hi
      exact h.not_mem hij hold hmem
  refine ⟨fun i j hij => Set.disjoint_left.mpr fun x hx hx' => ?_, fun i => ?_, fun x => ?_⟩
  · by_cases hi : i ∈ S
    · by_cases hj : j ∈ S
      · exact Set.disjoint_left.mp (hapart i hi j hj hij) hx hx'
      · exact hout x (.inr ⟨i, hi, hx⟩) j hj hx'
    · by_cases hj : j ∈ S
      · exact hout x (.inr ⟨j, hj, hx'⟩) i hi hx
      · rw [hrest i hi] at hx
        rw [hrest j hj] at hx'
        exact h.not_mem hij hx hx'
  · by_cases hi : i ∈ S
    · exact hfree i hi
    · exact Set.disjoint_left.mpr fun x hx => hout x (.inl hx) i hi
  · have hsplit : ∀ (F : Set β) (o : ι → Set β), (x ∈ F ∨ ∃ i, x ∈ o i) ↔
        (x ∈ F ∨ ∃ i ∈ S, x ∈ o i) ∨ ∃ i ∉ S, x ∈ o i := by
      intro F o
      constructor
      · rintro (hx | ⟨i, hx⟩)
        · exact .inl (.inl hx)
        · by_cases hi : i ∈ S
          · exact .inl (.inr ⟨i, hi, hx⟩)
          · exact .inr ⟨i, hi, hx⟩
      · rintro ((hx | ⟨i, -, hx⟩) | ⟨i, -, hx⟩)
        · exact .inl hx
        · exact .inr ⟨i, hx⟩
        · exact .inr ⟨i, hx⟩
    rw [h.all x, hsplit free own, hsplit free' own', hsame x]
    refine or_congr_right ⟨?_, ?_⟩
    · rintro ⟨i, hi, hx⟩
      exact ⟨i, hi, (hrest i hi).symm ▸ hx⟩
    · rintro ⟨i, hi, hx⟩
      exact ⟨i, hi, hrest i hi ▸ hx⟩

/-- One owner trades with the free items. -/
theorem Accounted.trade_one (h : Accounted pool free own) (i : ι) (hrest : ∀ j ≠ i, own' j = own j)
    (hsame : ∀ x, (x ∈ free' ∨ x ∈ own' i) ↔ (x ∈ free ∨ x ∈ own i))
    (hfree : Disjoint free' (own' i)) : Accounted pool free' own' := by
  refine h.trade {i} (fun j hj => hrest j hj) (fun x => ?_) ?_ ?_
  · simpa using hsame x
  · rintro j rfl k rfl hjk
    exact absurd rfl hjk
  · rintro j rfl
    exact hfree

/-- Two owners trade with each other and with the free items. -/
theorem Accounted.trade_two (h : Accounted pool free own) (i j : ι)
    (hrest : ∀ k, k ≠ i → k ≠ j → own' k = own k)
    (hsame : ∀ x, (x ∈ free' ∨ x ∈ own' i ∨ x ∈ own' j) ↔ (x ∈ free ∨ x ∈ own i ∨ x ∈ own j))
    (hapart : Disjoint (own' i) (own' j)) (hi : Disjoint free' (own' i))
    (hj : Disjoint free' (own' j)) : Accounted pool free' own' := by
  refine h.trade {i, j} (fun k hk => ?_) (fun x => ?_) ?_ ?_
  · rw [Set.mem_insert_iff, Set.mem_singleton_iff, not_or] at hk
    exact hrest k hk.1 hk.2
  · simpa using hsame x
  · rintro k (rfl | rfl) l (rfl | rfl) hkl
    · exact absurd rfl hkl
    · exact hapart
    · exact hapart.symm
    · exact absurd rfl hkl
  · rintro k (rfl | rfl)
    · exact hi
    · exact hj

end Osiris.Ledger
