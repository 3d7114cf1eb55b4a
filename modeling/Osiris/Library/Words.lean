import Osiris.Library.LinkedList

/-! # Words at consecutive addresses -/

namespace Osiris.ByteMemory

open LinkedList

/-- The words of the list lie in memory from `a` upwards. -/
def Words (m : Mem) : Word → List Word → Prop
  | _, [] => True
  | a, w :: ws => load64 m a = w ∧ Words m (a + 8#64) ws

variable {m m' : Mem} {a w : Word} {ws ws' : List Word}

theorem inRange_add_eight {x : Word} {n : ℕ} (hn : n + 8 ≤ 2 ^ 64) (h : InRange (a + 8#64) n x) :
    InRange a (n + 8) x := by
  obtain ⟨i, hi, rfl⟩ := h.exists_offset
  rw [add_assoc, ← BitVec.ofNat_add]
  exact inRange_add a (by omega) hn

/-- They depend on their own bytes only. -/
theorem Words.congr (h : Words m a ws) (hlen : 8 * ws.length ≤ 2 ^ 64)
    (hsame : ∀ x, InRange a (8 * ws.length) x → m' x = m x) : Words m' a ws := by
  induction ws generalizing a with
  | nil => trivial
  | cons w ws ih =>
      rw [List.length_cons, Nat.mul_succ] at hlen hsame
      refine ⟨?_, ih h.2 (by omega) fun x hx => hsame x (inRange_add_eight (by omega) hx)⟩
      rw [← h.1]
      exact load64_congr fun x hx => hsame x (inRange_mono hx (by omega))

theorem words_append : Words m a (ws ++ ws') ↔
    Words m a ws ∧ Words m (a + BitVec.ofNat 64 (8 * ws.length)) ws' := by
  induction ws generalizing a with
  | nil => simp [Words]
  | cons w ws ih =>
      have hnext : a + 8#64 + BitVec.ofNat 64 (8 * ws.length) =
          a + BitVec.ofNat 64 (8 * (w :: ws).length) := by
        rw [List.length_cons, Nat.mul_succ, Nat.add_comm, BitVec.ofNat_add, add_assoc]
      rw [List.cons_append, Words, ih, hnext, Words, and_assoc]

theorem Words.getElem (h : Words m a ws) {i : ℕ} (hi : i < ws.length) :
    load64 m (a + BitVec.ofNat 64 (8 * i)) = ws[i] := by
  induction ws generalizing a i with
  | nil => exact absurd hi (Nat.not_lt_zero i)
  | cons w ws ih =>
      cases i with
      | zero =>
          rw [Nat.mul_zero, BitVec.add_zero]
          exact h.1
      | succ i =>
          rw [Nat.mul_succ, Nat.add_comm, BitVec.ofNat_add, ← add_assoc]
          exact ih h.2 (Nat.lt_of_succ_lt_succ hi)

theorem apart_below {n : ℕ} (hn : n + 8 ≤ 2 ^ 64) : Apart a n (a - 8#64) 8 := by
  intro x hx hlow
  obtain ⟨i, hi, rfl⟩ := hx.exists_offset
  obtain ⟨j, hj, heq⟩ := hlow.exists_offset
  have hsum : BitVec.ofNat 64 (i + 8) = BitVec.ofNat 64 j := by
    rw [BitVec.ofNat_add, ← add_right_inj (a - 8#64), ← heq]
    ring
  have hnat := congrArg BitVec.toNat hsum
  rw [BitVec.toNat_ofNat, BitVec.toNat_ofNat, Nat.mod_eq_of_lt (by omega),
    Nat.mod_eq_of_lt (by omega)] at hnat
  omega

/-- A word that is stored below them is the first. -/
theorem Words.push (h : Words m a ws) (hlen : 8 * ws.length + 8 ≤ 2 ^ 64) (w : Word) :
    Words (store64 m (a - 8#64) w) (a - 8#64) (w :: ws) := by
  refine ⟨load64_store64_same _ _ _, ?_⟩
  rw [sub_add_cancel]
  exact h.congr (by omega) fun x hx =>
    store64_of_not_inRange _ _ _ _ (apart_below hlen x hx)

end Osiris.ByteMemory
