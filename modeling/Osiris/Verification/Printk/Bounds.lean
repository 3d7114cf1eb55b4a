import Osiris.Verification.Printk.Digits

/-! # The buffer of `vsnprintf`

The room in the buffer is looked at once for each directive. Characters and strings keep to it, but
a number is stored whole once there is room for its first digit. -/

namespace Osiris.Printk

open ByteMemory Heap Numerals

/-- Nothing is stored outside of the buffer, also by calls that do not return, and the count stays
below its size. -/
structure StaysInBuffer (c : Call) : Prop where
  stores : ∀ fuel st, Reached c fuel st → st.out.length < c.size.toNat
  returns : ∀ fuel returned stored, vsnprintf c fuel = .ok (returned, stored) →
    stored.length ≤ c.size.toNat ∧ returned.toInt ≤ c.size.toInt - 1

/-- No number that starts in front of the last byte of the buffer reaches that byte. -/
def NumbersFit (c : Call) : Prop :=
  ∀ p arg n, Places c p arg n → (c.directive p).IsNumber → n + 1 < c.size.toNat →
    n + c.width arg (c.directive p) < c.size.toNat

section Bounds

variable {c : Call} {fuel p arg : ℕ} {before t : List Byte} {st : Cursor}

/-- A character or a string keeps to the room that there is. -/
theorem LastPut.length_le (hlast : LastPut c p arg before t) (hd : ¬ (c.directive p).IsNumber) :
    (before ++ t).length ≤ c.limit := by
  have hroom := hlast.room
  by_cases hstring : c.directive p = .string
  · exact (hlast.puts.bounded hstring).1
  · have hone : t.length = 1 := by
      rw [hlast.puts.text hstring]
      cases hdir : c.directive p <;> simp_all [Directive.IsNumber, Call.text]
    rw [List.length_append]
    omega

theorem LastPut.length_number (hlast : LastPut c p arg before t)
    (hd : (c.directive p).IsNumber) :
    (before ++ t).length = before.length + c.width arg (c.directive p) := by
  rw [List.length_append, hlast.puts.text hd.ne_string, length_text hd.ne_string]

theorem Reached.length_le (hreached : Reached c fuel st) (hsize : 1 ≤ c.size.toInt)
    (hfit : NumbersFit c) : st.out.length ≤ c.limit := by
  obtain ⟨hlimit, -⟩ := limit_eq hsize
  rcases hreached.start_or with rfl | ⟨p, arg, before, t, hlast, rfl⟩
  · exact Nat.zero_le _
  · by_cases hd : (c.directive p).IsNumber
    · have hroom := hlast.room
      have hnumber := hfit p arg before.length hlast.visits.places hd (by omega)
      rw [hlast.length_number hd]
      omega
    · exact hlast.length_le hd

/-- What a call returns is the last cursor of the loop. -/
theorem vsnprintf_ok {returned : BitVec 32} {stored : List Byte}
    (hok : vsnprintf c fuel = .ok (returned, stored)) :
    ∃ st, vsnprintfLoop c fuel fuel ⟨[], 0, 0⟩ = .ok st ∧
      returned = BitVec.ofNat 32 st.out.length ∧ stored = st.out ++ [0#8] := by
  obtain ⟨st, hloop, hret⟩ := Loop.bind_eq_ok.mp hok
  cases hret
  exact ⟨st, hloop, rfl, rfl⟩

end Bounds

/-- `vsnprintf` keeps to its buffer exactly when every number that it starts to print fits. -/
theorem vsnprintf_stays_in_buffer_iff (c : Call) (hsize : 1 ≤ c.size.toInt) :
    StaysInBuffer c ↔ NumbersFit c := by
  obtain ⟨hlimit, hint⟩ := limit_eq hsize
  constructor
  · intro hstays p arg n hplaces hd hroom
    obtain ⟨before, hvisits, rfl⟩ := hplaces.visits
    have hreached := hvisits.reached_next (fmtAt_ne_zero hd.ne_literal) (by omega) hd.ne_string
      (Nat.lt_succ_self (c.limit + 20))
    have hlt := hstays.stores _ _ hreached
    rwa [List.length_append, length_text hd.ne_string] at hlt
  · intro hfit
    refine ⟨fun fuel st hreached => ?_, fun fuel returned stored hok => ?_⟩
    · have hle := hreached.length_le hsize hfit
      omega
    · obtain ⟨st, hloop, rfl, rfl⟩ := vsnprintf_ok hok
      have hle := (Reached.start.loop_ok hloop).1.length_le hsize hfit
      have hwide := BitVec.toInt_le (x := c.size)
      have hcount : (BitVec.ofNat 32 st.out.length).toInt = st.out.length := by
        rw [BitVec.toInt_ofNat', Int.bmod_eq_of_le] <;> omega
      rw [List.length_append, List.length_singleton, hcount]
      omega

/-- `%u` of 10. -/
def tenCall (size : BitVec 32) : Call :=
  sampleCall size [0x25#8, 0x75#8] fun _ => 10#64

theorem tenCall_directive (size : BitVec 32) : (tenCall size).directive 0 = .unsigned := by
  simp [Call.directive, Call.fmtAt, tenCall, sampleCall]

theorem tenCall_end (size : BitVec 32) : (tenCall size).fmtAt 2 = 0#8 := by
  simp [Call.fmtAt, tenCall, sampleCall]

theorem tenCall_places {size : BitVec 32} {p arg n : ℕ} (hplaces : Places (tenCall size) p arg n) :
    p = 0 ∧ n = 0 ∧ arg = 0 ∨ p = 2 := by
  induction hplaces with
  | start => exact .inl ⟨rfl, rfl, rfl⟩
  | next hplaces hp hne ih =>
      rcases ih with ⟨rfl, -⟩ | rfl
      · exact .inr (by simp [tenCall_directive])
      · exact absurd (tenCall_end size) hp
  | string hplaces hstring htext ih =>
      rcases ih with ⟨rfl, -⟩ | rfl
      · exact .inr rfl
      · exact absurd (tenCall_end size) (fmtAt_ne_zero (by simp [hstring]))

/-- A buffer of three bytes is as long as it has to be. -/
theorem vsnprintf_stays_in_buffer_ten : StaysInBuffer (tenCall 3#32) := by
  refine (vsnprintf_stays_in_buffer_iff _ (by decide)).mpr ?_
  intro p arg n hplaces hd hroom
  rcases tenCall_places hplaces with ⟨rfl, rfl, rfl⟩ | rfl
  · rw [tenCall_directive]
    exact (by norm_num [numeral] : 0 + (numeral 10 10).length < 3)
  · exact absurd (tenCall_end _) (fmtAt_ne_zero hd.ne_literal)

/-- In a buffer of two bytes `10` takes both, and the NUL goes behind them. -/
theorem vsnprintf_leaves_buffer :
    vsnprintf (tenCall 2#32) 32 = .ok (2#32, [0x31#8, 0x30#8, 0x00#8]) ∧
      ¬ StaysInBuffer (tenCall 2#32) := by
  have hrun : vsnprintf (tenCall 2#32) 32 = .ok (2#32, [0x31#8, 0x30#8, 0x00#8]) := by
    decide +kernel
  refine ⟨hrun, fun hstays => ?_⟩
  have hle := (hstays.returns _ _ _ hrun).1
  exact absurd hle (by decide)

end Osiris.Printk
