import Mathlib.Data.List.Nodup
import Mathlib.Data.Set.Basic

/-! # Data structures that share an allocator

Every owner has blocks of its own, and what it says about memory depends on what is in them. So what
one owner does to its blocks, and to blocks that are new, is of no concern to the others. -/

namespace Osiris.Ownership

variable {ι β α γ : Type*}

/-- `area` has the addresses of a block. -/
structure Owner (area : β → Set α) (γ : Type*) where
  blocks : List β
  Holds : (α → γ) → Prop
  stable : ∀ {m m'}, (∀ b ∈ blocks, ∀ x ∈ area b, m' x = m x) → Holds m → Holds m'

variable {area : β → Set α}

/-- No block has two owners, and what the owners say holds. -/
structure Shared (live : List β) (m : α → γ) (owners : ι → Owner area γ) : Prop where
  nodup : ∀ i, (owners i).blocks.Nodup
  apart : ∀ i j, i ≠ j → ∀ b ∈ (owners i).blocks, b ∉ (owners j).blocks
  live : ∀ i, ∀ b ∈ (owners i).blocks, b ∈ live
  holds : ∀ i, (owners i).Holds m

variable {live live' : List β} {m m' : α → γ} {owners : ι → Owner area γ}

/-- Nobody's blocks are changed. -/
theorem Shared.spared (h : Shared live m owners)
    (hlive : ∀ i, ∀ b ∈ (owners i).blocks, b ∈ live')
    (hsame : ∀ i, ∀ b ∈ (owners i).blocks, ∀ x ∈ area b, m' x = m x) : Shared live' m' owners :=
  ⟨h.nodup, h.apart, hlive, fun i => (owners i).stable (hsame i) (h.holds i)⟩

/-- The blocks of an owner and those that nobody has are no blocks of another owner. -/
theorem Shared.not_mem (h : Shared live m owners) {i j : ι} (hne : j ≠ i) {b : β}
    (hb : b ∈ live → b ∈ (owners i).blocks) : b ∉ (owners j).blocks :=
  fun hmem => h.apart i j hne.symm b (hb (h.live j b hmem)) hmem

/-- One owner acts: it changes its own blocks, gives some back and takes new ones. -/
theorem Shared.act (h : Shared live m owners) (i : ι) {owners' : ι → Owner area γ}
    (hothers : ∀ j, j ≠ i → owners' j = owners j)
    (hlive : ∀ b ∈ live, b ∉ (owners i).blocks → b ∈ live')
    (hsame : ∀ b ∈ live, b ∉ (owners i).blocks → ∀ x ∈ area b, m' x = m x)
    (hnodup : (owners' i).blocks.Nodup)
    (hnew : ∀ b ∈ (owners' i).blocks, b ∈ live → b ∈ (owners i).blocks)
    (hlive' : ∀ b ∈ (owners' i).blocks, b ∈ live') (hholds : (owners' i).Holds m') :
    Shared live' m' owners' := by
  have hother : ∀ j, j ≠ i → ∀ b ∈ (owners j).blocks, b ∈ live ∧ b ∉ (owners i).blocks :=
    fun j hj b hb => ⟨h.live j b hb, h.apart j i hj b hb⟩
  refine ⟨fun j => ?_, fun j k hjk b hb => ?_, fun j b hb => ?_, fun j => ?_⟩
  · by_cases hj : j = i
    · rw [hj]
      exact hnodup
    · rw [hothers j hj]
      exact h.nodup j
  · by_cases hj : j = i
    · subst hj
      rw [hothers k hjk.symm]
      exact h.not_mem hjk.symm (hnew b hb)
    · rw [hothers j hj] at hb
      by_cases hk : k = i
      · subst hk
        exact fun hmem => h.not_mem hj (hnew b hmem) hb
      · rw [hothers k hk]
        exact h.apart j k hjk b hb
  · by_cases hj : j = i
    · rw [hj] at hb
      exact hlive' b hb
    · rw [hothers j hj] at hb
      obtain ⟨hmem, hnot⟩ := hother j hj b hb
      exact hlive b hmem hnot
  · by_cases hj : j = i
    · rw [hj]
      exact hholds
    · rw [hothers j hj]
      refine (owners j).stable (fun b hb => ?_) (h.holds j)
      obtain ⟨hmem, hnot⟩ := hother j hj b hb
      exact hsame b hmem hnot

end Osiris.Ownership
