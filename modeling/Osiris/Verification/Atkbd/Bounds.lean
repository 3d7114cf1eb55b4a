import Osiris.Library.Transition
import Osiris.Verification.Atkbd.Fifo

/-! # The indices of the keyboard buffer

The start goes round the first 4096 bytes. The end does not: it leaves the allocation with the
4097th character after a clear. -/

namespace Osiris.Atkbd

open ByteMemory Strings Heap Transition

/-! ## Runs -/

inductive Call where
  | addBuffer (ch : Byte)
  | getChar
  | clearBuffer
deriving DecidableEq, Repr

/-- The buffer, and how many characters were given to it since it was cleared. -/
structure Usage where
  kbd : Keyboard
  adds : ℕ

def Usage.step (fuel : ℕ) (u : Usage) : Call → Except Fault Usage
  | .addBuffer ch => do
      let kbd ← atkbdAddBuffer fuel u.kbd ch
      .ok ⟨kbd, u.adds + 1⟩
  | .getChar => do
      let (_, kbd) ← atkbdGetChar u.kbd
      .ok ⟨kbd, u.adds⟩
  | .clearBuffer => do
      let kbd ← atkbdClearBuffer fuel u.kbd
      .ok ⟨kbd, 0⟩

/-- The calls of a run that return. -/
def Next (fuel : ℕ) (u : Usage) (call : Call) (u' : Usage) : Prop :=
  u.step fuel call = .ok u'

/-- The index is within the allocation. -/
def Keyboard.InBuffer (k : Keyboard) (index : BitVec 32) : Prop :=
  0 ≤ index.toInt ∧ index.toInt < 4096 * k.bufferAllocs.toInt

/-- What a call reads or writes is within the allocation. -/
def AccessInBuffer (u : Usage) : Call → Prop
  | .addBuffer _ =>
      u.kbd.bufferEnd + 1#32 ≠ u.kbd.bufferStart → u.kbd.InBuffer u.kbd.bufferEnd
  | .getChar => u.kbd.InBuffer u.kbd.bufferStart
  | .clearBuffer => True

/-- A character is added only while there are fewer than 4096 since the last clear. -/
def FewAdds (u : Usage) : Call → Prop
  | .addBuffer _ => u.adds < 4096
  | _ => True

/-! ## One call -/

/-- The end counts the characters, and the start stays behind it until all 4096 have come. -/
structure UsageInv (u : Usage) (start : ℕ) : Prop where
  allocs : u.kbd.bufferAllocs = 1#32
  bufferEnd : u.kbd.bufferEnd = BitVec.ofNat 32 u.adds
  bufferStart : u.kbd.bufferStart = BitVec.ofNat 32 start
  adds_le : u.adds ≤ 4096
  start_lt : start < 4096
  start_le : u.adds < 4096 → start ≤ u.adds

section Steps

variable {fuel start : ℕ} {u u' : Usage} {call : Call}

theorem inBuffer_ofNat_iff {k : Keyboard} (hallocs : k.bufferAllocs = 1#32) {n : ℕ}
    (hn : n ≤ 4096) : k.InBuffer (BitVec.ofNat 32 n) ↔ n < 4096 := by
  have hint : (BitVec.ofNat 32 n).toInt = n := by
    have hnat : (BitVec.ofNat 32 n).toNat = n := by
      rw [BitVec.toNat_ofNat]
      omega
    rw [BitVec.toInt_eq_toNat_of_lt (by omega), hnat]
  unfold Keyboard.InBuffer
  rw [hint, hallocs]
  change (0 : ℤ) ≤ n ∧ (n : ℤ) < 4096 * 1 ↔ n < 4096
  omega

theorem ofNat_inj {a b : ℕ} (ha : a < 2 ^ 32) (hb : b < 2 ^ 32)
    (heq : BitVec.ofNat 32 a = BitVec.ofNat 32 b) : a = b := by
  have hnat := congrArg BitVec.toNat heq
  rwa [BitVec.toNat_ofNat, BitVec.toNat_ofNat, Nat.mod_eq_of_lt ha, Nat.mod_eq_of_lt hb] at hnat

/-- The buffer does not look full. -/
theorem UsageInv.not_full (h : UsageInv u start) :
    u.kbd.bufferEnd + 1#32 ≠ u.kbd.bufferStart := by
  have hadds := h.adds_le
  have hstart := h.start_lt
  have hle := h.start_le
  rw [h.bufferEnd, h.bufferStart, ofNat_add_one]
  intro heq
  have hnat := ofNat_inj (by omega) (by omega) heq
  omega

/-- The accesses of a call are within the allocation unless it adds one character too many. -/
theorem UsageInv.access_iff (h : UsageInv u start) (call : Call) :
    AccessInBuffer u call ↔ FewAdds u call := by
  cases call with
  | addBuffer ch =>
      unfold AccessInBuffer FewAdds
      rw [← inBuffer_ofNat_iff h.allocs h.adds_le, ← h.bufferEnd]
      exact forall_prop_of_true h.not_full
  | getChar =>
      refine iff_of_true ?_ trivial
      unfold AccessInBuffer
      rw [h.bufferStart]
      exact (inBuffer_ofNat_iff h.allocs h.start_lt.le).mpr h.start_lt
  | clearBuffer => exact Iff.rfl

theorem UsageInv.addBuffer (h : UsageInv u start) {ch : Byte} (hfew : u.adds < 4096)
    (hnext : Next fuel u (.addBuffer ch) u') : UsageInv u' start := by
  obtain ⟨k, hadd, hnext⟩ := Loop.bind_eq_ok.mp hnext
  obtain rfl := Except.ok.inj hnext
  unfold atkbdAddBuffer at hadd
  rw [if_pos h.not_full] at hadd
  obtain rfl := Except.ok.inj hadd
  have hle := h.start_le hfew
  refine ⟨h.allocs, ?_, h.bufferStart, hfew, h.start_lt, fun _ => by dsimp only; omega⟩
  dsimp only
  rw [h.bufferEnd, ofNat_add_one]

theorem UsageInv.getChar (h : UsageInv u start) (hnext : Next fuel u .getChar u') :
    ∃ start', UsageInv u' start' := by
  obtain ⟨⟨ch, k⟩, hget, hnext⟩ := Loop.bind_eq_ok.mp hnext
  obtain rfl := Except.ok.inj hnext
  unfold atkbdGetChar at hget
  by_cases hempty : u.kbd.bufferStart = u.kbd.bufferEnd
  · rw [if_pos hempty] at hget
    exact absurd hget (by simp)
  · rw [if_neg hempty, Except.ok.injEq, Prod.mk.injEq] at hget
    obtain ⟨-, rfl⟩ := hget
    have hlt := h.start_lt
    by_cases hlast : start = 4095
    · -- the start goes back to 0, which it can only do when all 4096 characters have come
      refine ⟨0, h.allocs, h.bufferEnd, ?_, h.adds_le, by norm_num, fun _ => Nat.zero_le _⟩
      dsimp only
      rw [h.bufferStart, hlast]
      decide
    · refine ⟨start + 1, h.allocs, h.bufferEnd, ?_, h.adds_le, by omega, fun hfew => ?_⟩
      · dsimp only
        rw [h.bufferStart, ofNat_add_one, srem_ofNat (by omega)]
      · have hle := h.start_le hfew
        have hne : start ≠ u.adds := by
          rintro rfl
          exact hempty (h.bufferStart.trans h.bufferEnd.symm)
        dsimp only
        omega

theorem usageInv_of_clear {k k' : Keyboard} (h : atkbdClearBuffer fuel k = .ok k') :
    UsageInv ⟨k', 0⟩ 0 := by
  obtain ⟨hstart, hstop, hallocs⟩ := atkbdClearBuffer_ok h
  exact ⟨hallocs, hstop, hstart, by norm_num, by norm_num, fun _ => le_rfl⟩

theorem UsageInv.step (h : UsageInv u start) (hfew : FewAdds u call) (hnext : Next fuel u call u') :
    ∃ start', UsageInv u' start' := by
  cases call with
  | addBuffer ch => exact ⟨start, h.addBuffer hfew hnext⟩
  | getChar => exact h.getChar hnext
  | clearBuffer =>
      obtain ⟨k, hclear, hnext⟩ := Loop.bind_eq_ok.mp hnext
      obtain rfl := Except.ok.inj hnext
      exact ⟨0, usageInv_of_clear hclear⟩

end Steps

/-! ## Whole runs -/

section Runs

variable {fuel start : ℕ} {u : Usage}

theorem UsageInv.along_iff (h : UsageInv u start) (calls : List Call) :
    Along (Next fuel) AccessInBuffer u calls ↔ Along (Next fuel) FewAdds u calls := by
  refine along_congr (I := fun u => ∃ start, UsageInv u start) ?_ ?_ ⟨start, h⟩
  · rintro u call u' ⟨start, hinv⟩ -
    exact hinv.access_iff call
  · rintro u call u' ⟨start, hinv⟩ hnext hfew
    exact hinv.step hfew hnext

theorem usageInv_of_init {k k' : Keyboard} (hinit : atkbdInitBuffer fuel k = .ok k') :
    UsageInv ⟨k', 0⟩ 0 := by
  obtain ⟨⟨keyBuffer, h⟩, -, hclear⟩ := Loop.bind_eq_ok.mp hinit
  exact usageInv_of_clear hclear

theorem UsageInv.exists_addBuffer (h : UsageInv u start) (fuel : ℕ) (ch : Byte) :
    ∃ u', Next fuel u (.addBuffer ch) u' ∧ u'.adds = u.adds + 1 := by
  unfold Next
  dsimp only [Usage.step, atkbdAddBuffer]
  rw [if_pos h.not_full]
  exact ⟨_, rfl, rfl⟩

/-- All that is added counts. -/
theorem UsageInv.adds_le_of_along (h : UsageInv u start) (ch : Byte) (n : ℕ)
    (halong : Along (Next fuel) FewAdds u (List.replicate n (.addBuffer ch))) :
    u.adds + n ≤ 4096 := by
  induction n generalizing u with
  | zero => exact h.adds_le
  | succ n ih =>
      obtain ⟨u', hnext, hadds⟩ := h.exists_addBuffer fuel ch
      obtain ⟨hfew, hrest⟩ := halong u' hnext
      have hle := ih (h.addBuffer hfew hnext) hrest
      omega

end Runs

/-- The indices of a run are within the allocation exactly when no more than 4096 characters are
added between two clears. -/
theorem indices_in_buffer_iff (fuel : ℕ) (k k' : Keyboard) (hinit : atkbdInitBuffer fuel k = .ok k')
    (calls : List Call) :
    Along (Next fuel) AccessInBuffer ⟨k', 0⟩ calls ↔ Along (Next fuel) FewAdds ⟨k', 0⟩ calls :=
  (usageInv_of_init hinit).along_iff calls

theorem bootKeyboard_init : ∃ k, atkbdInitBuffer 3 bootKeyboard = .ok k ∧ k.keyBuffer ≠ 0#64 := by
  obtain ⟨k, hinit, hbuffer⟩ := Loop.exists_of_toOption
    (show (atkbdInitBuffer 3 bootKeyboard).toOption.map (fun k => decide (k.keyBuffer ≠ 0#64)) =
      some true by decide +kernel)
  exact ⟨k, hinit, of_decide_eq_true hbuffer⟩

theorem indices_in_buffer_iff_bootKeyboard :
    ∃ k, atkbdInitBuffer 3 bootKeyboard = .ok k ∧
      Along (Next 3) AccessInBuffer ⟨k, 0⟩ [.addBuffer 0x61#8, .getChar] := by
  obtain ⟨k, hinit, -⟩ := bootKeyboard_init
  refine ⟨k, hinit, (indices_in_buffer_iff 3 bootKeyboard k hinit _).mpr fun u _ => ?_⟩
  exact ⟨show 0 < 4096 by norm_num, fun u' _ => ⟨trivial, trivial⟩⟩

/-- The 4097th character goes behind the 4096 bytes that were allocated. -/
theorem index_leaves_buffer :
    ∃ k, atkbdInitBuffer 3 bootKeyboard = .ok k ∧ k.keyBuffer ≠ 0#64 ∧
      ¬ Along (Next 3) AccessInBuffer ⟨k, 0⟩ (List.replicate 4097 (.addBuffer 0x61#8)) := by
  obtain ⟨k, hinit, hbuffer⟩ := bootKeyboard_init
  have hinv := usageInv_of_init hinit
  refine ⟨k, hinit, hbuffer, fun halong => ?_⟩
  have hle := hinv.adds_le_of_along 0x61#8 4097 ((hinv.along_iff _).mp halong)
  dsimp only at hle
  omega

end Osiris.Atkbd
