import Osiris.Model.Strings

/-! # `memmove`

Either direction reads each byte of the source before the copy gets to it. -/

namespace Osiris.Strings

open ByteMemory

theorem toNat_add_offset {p : Word} {n i : ℕ} (hp : p.toNat + n ≤ 2 ^ 64) (hi : i < n) :
    (p + BitVec.ofNat 64 i).toNat = p.toNat + i := by
  have hlt := p.isLt
  rw [BitVec.toNat_add, BitVec.toNat_ofNat]
  omega

section Offsets

variable {dest src : Word} {n : ℕ} (hdest : dest.toNat + n ≤ 2 ^ 64) (hsrc : src.toNat + n ≤ 2 ^ 64)

include hdest hsrc

/-- A source above the destination is ahead of it. -/
theorem ahead_of_gt (habove : src > dest) :
    ∀ i < n, ∀ j < i, src + BitVec.ofNat 64 i ≠ dest + BitVec.ofNat 64 j := by
  intro i hi j hj heq
  have hlt : dest.toNat < src.toNat := habove
  have hnat := congrArg BitVec.toNat heq
  rw [toNat_add_offset hsrc hi, toNat_add_offset hdest (by omega)] at hnat
  omega

theorem behind_of_lt (hbelow : src < dest) :
    ∀ j < n, ∀ i < j, src + BitVec.ofNat 64 i ≠ dest + BitVec.ofNat 64 j := by
  intro j hj i hi heq
  have hlt : src.toNat < dest.toNat := hbelow
  have hnat := congrArg BitVec.toNat heq
  rw [toNat_add_offset hsrc (by omega), toNat_add_offset hdest hj] at hnat
  omega

end Offsets

section Memmove

variable {m : Mem} {dest src : Word} {n : BitVec 32}

theorem memmove_of_not_inRange {x : Word} (hx : ¬ InRange dest (rounds n) x) :
    memmove m dest src n x = m x := by
  unfold memmove
  split
  · exact copyUp_of_not_inRange m dest src (rounds_le n) hx
  · split
    · exact copyDown_of_not_inRange m dest src (rounds_le n) hx
    · rfl

theorem memmove_offset (hdest : dest.toNat + rounds n ≤ 2 ^ 64)
    (hsrc : src.toNat + rounds n ≤ 2 ^ 64) {i : ℕ} (hi : i < rounds n) :
    memmove m dest src n (dest + BitVec.ofNat 64 i) = m (src + BitVec.ofNat 64 i) := by
  unfold memmove
  split
  · rename_i habove
    exact copyUp_of_ahead m dest src (rounds_le n) (ahead_of_gt hdest hsrc habove) hi
  · rename_i hle
    split
    · rename_i hbelow
      exact copyDown_of_behind m dest src (rounds_le n) (behind_of_lt hdest hsrc hbelow) hi
    · rename_i hge
      have hsame : src = dest := BitVec.le_antisymm (BitVec.not_lt.mp hle) (BitVec.not_lt.mp hge)
      rw [hsame]

theorem memcpy_eq_memmove (hdest : dest.toNat + rounds n ≤ 2 ^ 64)
    (hsrc : src.toNat + rounds n ≤ 2 ^ 64) (hapart : Apart dest (rounds n) src (rounds n)) :
    memcpy m dest src n = memmove m dest src n := by
  funext x
  by_cases hx : InRange dest (rounds n) x
  · obtain ⟨i, hi, rfl⟩ := hx.exists_offset
    rw [memmove_offset hdest hsrc hi]
    exact copyUp_offset m dest src (rounds_le n) hapart.symm hi
  · rw [memmove_of_not_inRange hx]
    exact copyUp_of_not_inRange m dest src (rounds_le n) hx

end Memmove

/-- `memmove` puts the old bytes of the source into the destination and changes nothing else,
however the two overlap, and `memcpy` does the same where they do not. -/
theorem memmove_moves (m : Mem) (dest src : Word) (n : BitVec 32) (hn : 0 ≤ n.toInt)
    (hdest : dest.toNat + n.toNat ≤ 2 ^ 64) (hsrc : src.toNat + n.toNat ≤ 2 ^ 64) :
    (∀ i < n.toNat, memmove m dest src n (dest + BitVec.ofNat 64 i) =
        m (src + BitVec.ofNat 64 i)) ∧
      (∀ x, ¬ InRange dest n.toNat x → memmove m dest src n x = m x) ∧
      (Apart dest n.toNat src n.toNat → memcpy m dest src n = memmove m dest src n) := by
  rw [← rounds_of_nonneg hn] at hdest hsrc ⊢
  exact ⟨fun i hi => memmove_offset hdest hsrc hi, fun x hx => memmove_of_not_inRange hx,
    memcpy_eq_memmove hdest hsrc⟩

/-- Four bytes are moved up by one, onto three of themselves. -/
theorem memmove_moves_overlap :
    memmove (fun x => x.setWidth 8) 0x1001#64 0x1000#64 4#32 0x1003#64 = 0x02#8 :=
  (memmove_moves (fun x => x.setWidth 8) 0x1001#64 0x1000#64 4#32 (by decide) (by decide)
    (by decide)).1 2 (by decide)

end Osiris.Strings
