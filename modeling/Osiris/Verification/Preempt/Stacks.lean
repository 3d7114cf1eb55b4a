import Osiris.Verification.Trap.Stubs

/-! # The stacks of processes

From its top downwards, a stack holds what the process pushed, the frame of an interrupt, what the
handler pushed, perhaps the frame of another interrupt, and so on. A process that does not run has
the frame of `proc_switch_x64` last. -/

namespace Osiris.Swtch

open ByteMemory Sched

/-! ## Places on a stack -/

namespace StackArea

variable {a : StackArea} {p x : Word} {n k : ℕ}

/-- Counted from the lowest address of the area. -/
def offset (a : StackArea) (x : Word) : ℕ :=
  (x - a.base).toNat

/-- On the stack, at the offset `k` or above. -/
def From (a : StackArea) (k : ℕ) (x : Word) : Prop :=
  k ≤ a.offset x ∧ a.offset x < a.size

theorem From.mono (h : a.From n x) (hle : k ≤ n) : a.From k x :=
  ⟨hle.trans h.1, h.2⟩

theorem from_zero : a.From 0 x ↔ InRange a.base a.size x :=
  ⟨And.right, fun h => ⟨Nat.zero_le _, h⟩⟩

theorem offset_of_inRange (hn : a.offset p + n ≤ 2 ^ 64) (hx : InRange p n x) :
    a.offset x = a.offset p + (x - p).toNat := by
  have hlt : (x - p).toNat < n := hx
  have hsum : x - a.base = p - a.base + (x - p) := by ring
  unfold offset at hn ⊢
  rw [hsum, BitVec.toNat_add, Nat.mod_eq_of_lt (by omega)]

/-- A range on the stack is a range of offsets. -/
theorem inRange_iff (hn : a.offset p + n ≤ 2 ^ 64) :
    InRange p n x ↔ a.offset p ≤ a.offset x ∧ a.offset x < a.offset p + n := by
  constructor
  · intro hx
    have hlt : (x - p).toNat < n := hx
    rw [offset_of_inRange hn hx]
    omega
  · rintro ⟨hle, hlt⟩
    have hdiff : x - p = x - a.base - (p - a.base) := by ring
    unfold offset at hn hle hlt
    change (x - p).toNat < n
    rw [hdiff, BitVec.toNat_sub_of_le hle]
    omega

theorem from_of_inRange (hn : a.offset p + n ≤ a.size) (hsize : a.size ≤ 2 ^ 64)
    (hx : InRange p n x) : a.From (a.offset p) x ∧ a.offset x < a.offset p + n := by
  obtain ⟨hle, hlt⟩ := (inRange_iff (hn.trans hsize)).mp hx
  exact ⟨⟨hle, hlt.trans_le hn⟩, hlt⟩

theorem not_inRange_of_from (hn : a.offset p + n ≤ a.size) (hsize : a.size ≤ 2 ^ 64)
    (hx : a.From (a.offset p + n) x) : ¬ InRange p n x := fun hin => by
  have hlt := (from_of_inRange hn hsize hin).2
  exact absurd hx.1 (by omega)

end StackArea

end Osiris.Swtch

namespace Osiris.Isr

open ByteMemory Sched Swtch

/-! ## Interrupts that wait for their return -/

/-- The lowest address of the frame, for a process in kernel mode. -/
def Context.frameBase (c : Context) : Word :=
  c.handlerRsp 0#64

theorem handlerRsp_eq {c : Context} (hkernel : c.cs &&& 3#64 = 0#64) (rsp0 : Word) :
    c.handlerRsp rsp0 = c.frameBase := by
  unfold Context.frameBase Context.handlerRsp Context.interruptStack
  rw [if_pos hkernel, if_pos hkernel]

/-- Everything from this offset on belongs to what was interrupted. The last interrupt comes
first. -/
def lowest (a : StackArea) : List Context → ℕ
  | [] => a.size
  | c :: _ => a.offset c.frameBase

/-- The frames are there, and so is what the interrupted code had on the stack. -/
inductive Intact (a : StackArea) : Mem → List Context → Prop where
  | nil {m} : Intact a m []
  | cons {m c cs intNo errCode} (hkernel : c.cs &&& 3#64 = 0#64)
      (hroom : a.offset c.frameBase + 176 ≤ lowest a cs)
      (hframe : Words m c.frameBase (entryFrame c intNo errCode))
      (habove : ∀ x, a.From (a.offset c.frameBase + 176) x → m x = c.mem x)
      (houter : Intact a c.mem cs) : Intact a m (c :: cs)

section

variable {a : StackArea} {m m' : Mem} {c : Context} {cs : List Context}

theorem Intact.lowest_le (h : Intact a m cs) : lowest a cs ≤ a.size := by
  induction h with
  | nil => exact le_rfl
  | cons hkernel hroom hframe habove houter ih =>
      exact (Nat.le_add_right _ _).trans (hroom.trans ih)

/-- Only the stack from the lowest frame on matters. -/
theorem Intact.congr (h : Intact a m cs) (hsize : a.size ≤ 2 ^ 64)
    (hsame : ∀ x, a.From (lowest a cs) x → m' x = m x) : Intact a m' cs := by
  cases h with
  | nil => exact .nil
  | cons hkernel hroom hframe habove houter =>
      have hle := hroom.trans houter.lowest_le
      refine .cons hkernel hroom (hframe.congr (by rw [length_entryFrame]; norm_num) fun x hx => ?_)
        (fun x hx => ?_) houter
      · exact hsame x (StackArea.from_of_inRange hle hsize hx).1
      · rw [hsame x (hx.mono (Nat.le_add_right _ _))]
        exact habove x hx

/-- The handler of the last interrupt is done. -/
theorem Intact.tail (h : Intact a m (c :: cs)) (hsize : a.size ≤ 2 ^ 64) : Intact a m cs := by
  cases h with
  | cons hkernel hroom hframe habove houter =>
      exact houter.congr hsize fun x hx => habove x (hx.mono hroom)

end

/-! ## Processes that do not run -/

/-- How a process goes on, with what is on its stack. -/
structure Parked extends Cpu where
  mem : Mem

structure Asleep (a : StackArea) (m : Mem) (top : ℕ) (rsp : Word) (p : Parked) : Prop where
  frame : Words m rsp (Swtch.frame p.regs p.rip)
  rsp_eq : p.rsp = rsp + 128#64
  room : a.offset rsp + 128 ≤ top
  above : ∀ x, a.From (a.offset rsp + 128) x → m x = p.mem x

theorem Asleep.congr {a : StackArea} {m m' : Mem} {top : ℕ} {rsp : Word} {p : Parked}
    (h : Asleep a m top rsp p) (htop : top ≤ a.size) (hsize : a.size ≤ 2 ^ 64)
    (hsame : ∀ x, a.From 0 x → m' x = m x) : Asleep a m' top rsp p := by
  refine ⟨h.frame.congr (by rw [Swtch.length_frame]; norm_num) fun x hx => ?_, h.rsp_eq, h.room,
    fun x hx => ?_⟩
  · exact hsame x ((StackArea.from_of_inRange (h.room.trans htop) hsize hx).1.mono (Nat.zero_le _))
  · rw [hsame x (hx.mono (Nat.zero_le _))]
    exact h.above x hx

end Osiris.Isr
