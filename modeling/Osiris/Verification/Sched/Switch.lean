import Osiris.Library.Words
import Osiris.Model.Swtch
import Osiris.Verification.Sched.RoundRobin

/-! # Switching between stacks

`proc_switch_x64` leaves a frame of sixteen words on the stack of a process, and `proc_create`
writes such a frame by hand. -/

namespace Osiris.Swtch

open ByteMemory LinkedList Heap Sched

/-- In the order in which they are popped. -/
def popOrder : List Reg :=
  pushOrder.reverse

theorem mem_popOrder (r : Reg) : r ∈ popOrder := by
  cases r <;> decide

/-- The frame of a process that does not run: its registers, and where it goes on. -/
def frame (regs : Reg → Word) (rip : Word) : List Word :=
  popOrder.map regs ++ [rip]

theorem length_frame (regs : Reg → Word) (rip : Word) : (frame regs rip).length = 16 := rfl

/-! ## Pushes -/

section Push

variable {m : Mem} {sp : Word}

theorem words_foldl_push (values : List Word) (hlen : 8 * values.length ≤ 2 ^ 64) :
    Words (values.foldl push (sp, m)).2 (values.foldl push (sp, m)).1 values.reverse := by
  induction values using List.reverseRecOn with
  | nil => trivial
  | append_singleton values value ih =>
      rw [List.length_append, List.length_singleton] at hlen
      rw [List.foldl_append, List.reverse_append]
      refine (ih (by omega)).push ?_ value
      rw [List.length_reverse]
      omega

theorem foldl_push_of_not_inRange (values : List Word) (hlen : 8 * values.length ≤ 2 ^ 64)
    {x : Word}
    (hx : ¬ InRange (sp - BitVec.ofNat 64 (8 * values.length)) (8 * values.length) x) :
    (values.foldl push (sp, m)).2 x = m x := by
  induction values using List.reverseRecOn with
  | nil => rfl
  | append_singleton values value ih =>
      rw [List.length_append, List.length_singleton, Nat.mul_succ] at hlen hx
      have hlow : sp - BitVec.ofNat 64 (8 * values.length + 8) + 8#64 =
          sp - BitVec.ofNat 64 (8 * values.length) := by
        rw [BitVec.ofNat_add]
        ring
      rw [List.foldl_append]
      change store64 _ ((values.foldl push (sp, m)).1 - 8#64) value x = m x
      rw [foldl_push_fst, store64_of_not_inRange, ih (by omega)]
      · intro hin
        rw [← hlow] at hin
        exact hx (inRange_add_eight hlen hin)
      · intro hin
        rw [← hlow, add_sub_cancel_right] at hin
        exact hx (inRange_mono hin (by omega))

end Push

/-! ## Pops -/

theorem foldl_pop_regs (m : Mem) (v : Reg → Word) (rs : List Reg) (cpu : Cpu)
    (hwords : Words m cpu.rsp (rs.map v)) {r : Reg} (hr : r ∈ rs ∨ cpu.regs r = v r) :
    (rs.foldl (pop m) cpu).regs r = v r := by
  induction rs generalizing cpu with
  | nil => exact hr.resolve_left (by simp)
  | cons r₀ rs ih =>
      refine ih (pop m cpu r₀) hwords.2 ?_
      by_cases heq : r = r₀
      · right
        rw [heq]
        exact (Function.update_self r₀ _ cpu.regs).trans hwords.1
      · rcases hr with hmem | hold
        · exact Or.inl ((List.mem_cons.mp hmem).resolve_left heq)
        · right
          exact (Function.update_of_ne heq _ cpu.regs).trans hold

theorem foldl_pop_rsp (m : Mem) (rs : List Reg) (cpu : Cpu) :
    (rs.foldl (pop m) cpu).rsp = cpu.rsp + BitVec.ofNat 64 (8 * rs.length) := by
  induction rs generalizing cpu with
  | nil => simp
  | cons r rs ih =>
      rw [List.foldl_cons, ih, List.length_cons, Nat.mul_succ, Nat.add_comm, BitVec.ofNat_add,
        ← add_assoc]
      rfl

/-! ## The code -/

section Run

variable {c : Context} {ret ip : Word} {v : Reg → Word}

theorem run_append (c : Context) (code code' : List Instr) :
    c.run (code ++ code') = (c.run code).run code' :=
  List.foldl_append

theorem run_push (c : Context) (rs : List Reg) :
    c.run (rs.map .push) =
      { c with
        rsp := ((rs.map c.regs).foldl push (c.rsp, c.mem)).1
        mem := ((rs.map c.regs).foldl push (c.rsp, c.mem)).2 } := by
  induction rs generalizing c with
  | nil => rfl
  | cons r rs ih =>
      change (c.exec (.push r)).run (rs.map .push) = _
      rw [ih]
      rfl

theorem run_pop (c : Context) (rs : List Reg) :
    c.run (rs.map .pop) = { c with toCpu := rs.foldl (pop c.mem) c.toCpu } := by
  induction rs generalizing c with
  | nil => rfl
  | cons r rs ih =>
      change (c.exec (.pop r)).run (rs.map .pop) = _
      rw [ih]
      rfl

theorem run_move (c : Context) :
    c.run [.movToRdi, .movFromRsi] =
      { c with rsp := c.regs .rsi, mem := store64 c.mem (c.regs .rdi) c.rsp } := rfl

theorem run_ret (c : Context) :
    c.run [.sti, .ret] =
      { c with rip := load64 c.mem c.rsp, rsp := c.rsp + 8#64, interrupts := true } := rfl

theorem procSwitchX64_eq : procSwitchX64 =
    pushOrder.map .push ++ ([.movToRdi, .movFromRsi] ++ (popOrder.map .pop ++ [.sti, .ret])) := rfl

/-- The processor after the pops and the `ret`, with the new stack in `m`. -/
def resume (cpu : Cpu) (m : Mem) : Cpu :=
  let cpu := popOrder.foldl (pop m) { cpu with rsp := cpu.regs .rsi }
  { cpu with rip := load64 m cpu.rsp, rsp := cpu.rsp + 8#64 }

theorem run_procSwitchX64 (c : Context) :
    c.run procSwitchX64 =
      let pushed := (pushOrder.map c.regs).foldl push (c.rsp, c.mem)
      let m := store64 pushed.2 (c.regs .rdi) pushed.1
      ⟨resume c.toCpu m, m, true⟩ := by
  rw [procSwitchX64_eq, run_append, run_push, run_append, run_append]
  generalize (pushOrder.map c.regs).foldl push (c.rsp, c.mem) = pushed
  rw [run_move, run_pop, run_ret]
  rfl

/-- The stack pointer that `c` leaves behind when it calls `proc_switch_x64`. -/
def Context.savedRsp (c : Context) : Word :=
  c.rsp - 128#64

/-- Memory when the stacks are exchanged. -/
def Context.switchMem (c : Context) (ret : Word) : Mem :=
  store64 ((ret :: pushOrder.map c.regs).foldl push (c.rsp, c.mem)).2 (c.regs .rdi) c.savedRsp

theorem switch_eq (c : Context) (ret : Word) :
    c.switch ret = ⟨resume c.toCpu (c.switchMem ret), c.switchMem ret, true⟩ := by
  have hsaved : ((ret :: pushOrder.map c.regs).foldl push (c.rsp, c.mem)).1 = c.savedRsp :=
    foldl_push_fst (ret :: pushOrder.map c.regs) (c.rsp, c.mem)
  have hregs : (c.call ret).regs = c.regs := rfl
  have hstack : ((c.call ret).rsp, (c.call ret).mem) = push (c.rsp, c.mem) ret := rfl
  unfold Context.switch Context.switchMem
  rw [run_procSwitchX64, hregs, hstack, ← List.foldl_cons]
  generalize (ret :: pushOrder.map c.regs).foldl push (c.rsp, c.mem) = pushed at hsaved
  rw [← hsaved]
  rfl

@[simp] theorem switch_mem (c : Context) (ret : Word) : (c.switch ret).mem = c.switchMem ret := by
  rw [switch_eq]

/-- Whoever left a frame at the new stack pointer goes on there. -/
theorem switch_in (hframe : Words (c.switchMem ret) (c.regs .rsi) (frame v ip)) :
    (c.switch ret).regs = v ∧ (c.switch ret).rsp = c.regs .rsi + 128#64 ∧
      (c.switch ret).rip = ip := by
  obtain ⟨hregs, hlast⟩ := words_append.mp hframe
  have hrsp := foldl_pop_rsp (c.switchMem ret) popOrder { c.toCpu with rsp := c.regs .rsi }
  have hpopped := fun r => foldl_pop_regs (c.switchMem ret) v popOrder
    { c.toCpu with rsp := c.regs .rsi } hregs (Or.inl (mem_popOrder r))
  rw [switch_eq]
  refine ⟨funext hpopped, ?_, ?_⟩
  · unfold resume
    dsimp only
    rw [hrsp]
    change c.regs .rsi + 120#64 + 8#64 = _
    rw [add_assoc]
    rfl
  · unfold resume
    dsimp only
    rw [hrsp]
    exact hlast.1

theorem pushed_length_le (c : Context) (ret : Word) :
    8 * (ret :: pushOrder.map c.regs).length ≤ 2 ^ 64 := by
  rw [List.length_cons, List.length_map]
  decide

/-- The frame that a process leaves, and where its stack pointer is kept. -/
theorem switch_out (ret : Word) (hslot : Apart (c.regs .rdi) 8 c.savedRsp 128) :
    Words (c.switch ret).mem c.savedRsp (frame c.regs ret) ∧
      load64 (c.switch ret).mem (c.regs .rdi) = c.savedRsp := by
  have hpushed : Words ((ret :: pushOrder.map c.regs).foldl push (c.rsp, c.mem)).2 c.savedRsp
      (frame c.regs ret) := by
    have hwords : Words _ ((ret :: pushOrder.map c.regs).foldl push (c.rsp, c.mem)).1 _ :=
      words_foldl_push (ret :: pushOrder.map c.regs) (pushed_length_le c ret)
    rw [foldl_push_fst, List.reverse_cons, ← List.map_reverse] at hwords
    exact hwords
  rw [switch_mem]
  refine ⟨hpushed.congr (by rw [length_frame]; norm_num) fun x hx => ?_, load64_store64_same _ _ _⟩
  exact store64_of_not_inRange _ _ _ _ (hslot.symm x hx)

/-- A switch writes to the stack of the process that is left and to where its stack pointer is
kept. -/
theorem switchMem_of_not_inRange {x : Word} (hframe : ¬ InRange c.savedRsp 128 x)
    (hslot : ¬ InRange (c.regs .rdi) 8 x) : c.switchMem ret x = c.mem x := by
  unfold Context.switchMem
  rw [store64_of_not_inRange _ _ _ _ hslot]
  exact foldl_push_of_not_inRange _ (pushed_length_le c ret) hframe

end Run

/-! ## The scheduler's view

The process table keeps the stack pointer of the process that is left, and memory has no word for
it. -/

theorem foldl_pop_congr {m m' : Mem} (rs : List Reg) (cpu : Cpu) (hlen : 8 * rs.length ≤ 2 ^ 64)
    (hsame : ∀ x, InRange cpu.rsp (8 * rs.length) x → m' x = m x) :
    rs.foldl (pop m') cpu = rs.foldl (pop m) cpu := by
  induction rs generalizing cpu with
  | nil => rfl
  | cons r rs ih =>
      rw [List.length_cons, Nat.mul_succ] at hlen hsame
      have hload : load64 m' cpu.rsp = load64 m cpu.rsp :=
        load64_congr fun x hx => hsame x (inRange_mono hx (by omega))
      have hpop : pop m' cpu r = pop m cpu r := by
        unfold pop
        rw [hload]
      rw [List.foldl_cons, List.foldl_cons, hpop]
      exact ih _ (by omega) fun x hx => hsame x (inRange_add_eight hlen hx)

/-- The machine code does what `schedule` relies on, unless the old stack pointer is kept in the new
frame. -/
theorem run_refines_procSwitchX64 (c : Context) (hslot : Apart (c.regs .rsi) 128 (c.regs .rdi) 8) :
    (c.run procSwitchX64).toCpu = (Sched.procSwitchX64 c.toCpu c.mem (c.regs .rsi)).2.1 ∧
      load64 (c.run procSwitchX64).mem (c.regs .rdi) =
        (Sched.procSwitchX64 c.toCpu c.mem (c.regs .rsi)).1 ∧
      ∀ x, ¬ InRange (c.regs .rdi) 8 x →
        (c.run procSwitchX64).mem x = (Sched.procSwitchX64 c.toCpu c.mem (c.regs .rsi)).2.2 x := by
  rw [run_procSwitchX64]
  unfold Sched.procSwitchX64 resume
  generalize (pushOrder.map c.regs).foldl push (c.rsp, c.mem) = pushed
  dsimp only
  have hsame : ∀ x, InRange (c.regs .rsi) 128 x →
      store64 pushed.2 (c.regs .rdi) pushed.1 x = pushed.2 x :=
    fun x hx => store64_of_not_inRange _ _ _ _ (hslot x hx)
  have hpops : popOrder.foldl (pop (store64 pushed.2 (c.regs .rdi) pushed.1))
      { c.toCpu with rsp := c.regs .rsi } =
        popOrder.foldl (pop pushed.2) { c.toCpu with rsp := c.regs .rsi } :=
    foldl_pop_congr popOrder _ (by decide) fun x hx => hsame x (inRange_mono hx (by decide))
  have hret : load64 (store64 pushed.2 (c.regs .rdi) pushed.1)
      (popOrder.foldl (pop pushed.2) { c.toCpu with rsp := c.regs .rsi }).rsp =
        load64 pushed.2
          (popOrder.foldl (pop pushed.2) { c.toCpu with rsp := c.regs .rsi }).rsp := by
    refine load64_congr fun x hx => hsame x ?_
    rw [foldl_pop_rsp] at hx
    obtain ⟨i, hi, rfl⟩ := hx.exists_offset
    rw [add_assoc, ← BitVec.ofNat_add]
    exact inRange_add _ (show 120 + i < 128 by omega) (by norm_num)
  refine ⟨?_, load64_store64_same _ _ _, fun x hx => store64_of_not_inRange _ _ _ _ hx⟩
  rw [hpops, hret]
  rfl

/-! ## A stack of its own -/

/-- The addresses that belong to the stack of a process. -/
structure StackArea where
  base : Word
  size : ℕ

/-- A process that calls `proc_switch_x64` has room for its frame. -/
def StackArea.Holds (a : StackArea) (c : Context) : Prop :=
  ∀ x, InRange c.savedRsp 128 x → InRange a.base a.size x

/-- `n` bytes at `b` are not on the stack. -/
def StackArea.Avoids (a : StackArea) (b : Word) (n : ℕ) : Prop :=
  Apart b n a.base a.size

/-- The frame of `c` and where its stack pointer is kept are left alone. -/
def Spares (c e e' : Context) : Prop :=
  ∀ x, InRange c.savedRsp 128 x ∨ InRange (c.regs .rdi) 8 x → e'.mem x = e.mem x

/-- What happens while `c` does not run: others compute, and switch among themselves. -/
inductive Elsewhere (c : Context) : Context → Context → Prop where
  | compute {e e'} : Spares c e e' → Elsewhere c e e'
  | switch {e} (ret : Word) : Spares c e (e.switch ret) → Elsewhere c e (e.switch ret)

section Areas

variable {a b : StackArea} {c d : Context} {ret ret' : Word}

theorem Elsewhere.spares {e e' : Context} (h : Elsewhere c e e') : Spares c e e' := by
  cases h with
  | compute h => exact h
  | switch ret h => exact h

theorem spares_of_elsewhere {e e' : Context} (h : Relation.ReflTransGen (Elsewhere c) e e') :
    Spares c e e' := by
  induction h with
  | refl => exact fun x _ => rfl
  | tail _ hlast ih => exact fun x hx => (hlast.spares x hx).trans (ih x hx)

/-- A switch from another stack does not touch this one. -/
theorem switchMem_of_avoids (hholds : b.Holds d) (hdisj : Apart a.base a.size b.base b.size)
    (hslot : a.Avoids (d.regs .rdi) 8) {x : Word} (hx : InRange a.base a.size x) :
    d.switchMem ret x = d.mem x :=
  switchMem_of_not_inRange (fun hframe => hdisj x hx (hholds x hframe))
    fun hin => hslot x hin hx

theorem switch_back (hc : a.Holds c) (hcslot : a.Avoids (c.regs .rdi) 8)
    (helse : Relation.ReflTransGen (Elsewhere c) (c.switch ret) d) (hd : b.Holds d)
    (hdisj : Apart a.base a.size b.base b.size) (hdslot : a.Avoids (d.regs .rdi) 8)
    (hrsi : d.regs .rsi = load64 d.mem (c.regs .rdi)) :
    (d.switch ret').regs = c.regs ∧ (d.switch ret').rsp = c.rsp ∧ (d.switch ret').rip = ret := by
  have hapart : Apart (c.regs .rdi) 8 c.savedRsp 128 := fun x hslot hframe =>
    hcslot x hslot (hc x hframe)
  obtain ⟨hframe, hsaved⟩ := switch_out ret hapart
  have hspares := spares_of_elsewhere helse
  have hrsp : d.regs .rsi = c.savedRsp := by
    rw [hrsi, ← hsaved]
    exact load64_congr fun x hx => hspares x (Or.inr hx)
  have hthere : Words (d.switchMem ret') (d.regs .rsi) (frame c.regs ret) := by
    rw [hrsp]
    refine hframe.congr (by rw [length_frame]; norm_num) fun x hx => ?_
    rw [length_frame] at hx
    rw [switchMem_of_avoids hd hdisj hdslot (hc x hx)]
    exact hspares x (Or.inl hx)
  obtain ⟨hregs, hrsp', hrip⟩ := switch_in hthere
  refine ⟨hregs, ?_, hrip⟩
  rw [hrsp', hrsp]
  exact sub_add_cancel c.rsp 128#64

end Areas

/-! ## The stack that `proc_create` makes -/

section Create

variable {fuel : ℕ} {s : Scheduler} {stack : Word} {heap : KernelHeap}

theorem procCreate_of_kmalloc (hroom : s.procCount < maxProc)
    (hkmalloc : kmalloc fuel s.toKernelHeap stackSize = .ok (stack, heap)) (entryPoint : Word) :
    ∃ s', procCreate fuel s entryPoint = .ok s' ∧
      s'.mem = ((initialFrame entryPoint).foldl push (stack + stackSize, heap.mem)).2 ∧
      s'.procTable s.procCount = newProc s.procCount stack := by
  have hfull : ¬ s.procCount ≥ maxProc := not_le.mpr hroom
  unfold procCreate
  rw [if_neg hfull]
  dsimp only [Scheduler.setProc]
  rw [hkmalloc]
  refine ⟨_, rfl, rfl, ?_⟩
  dsimp only
  rw [foldl_push_fst, Function.update_self, Function.update_self]
  rfl

theorem initialFrame_length_le (entryPoint : Word) :
    8 * (initialFrame entryPoint).length ≤ 2 ^ 64 := by
  rw [initialFrame, List.length_cons, List.length_replicate]
  norm_num

theorem inRange_initialFrame {x : Word} (hx : InRange (stack + stackSize - 128#64) 128 x) :
    InRange stack 4096 x := by
  obtain ⟨i, hi, rfl⟩ := hx.exists_offset
  have hoffset : stack + stackSize - 128#64 + BitVec.ofNat 64 i =
      stack + BitVec.ofNat 64 (3968 + i) := by
    rw [BitVec.ofNat_add, ← add_assoc, add_sub_assoc]
    rfl
  rw [hoffset]
  exact inRange_add stack (by omega) (by norm_num)

/-- The new stack holds the frame of a process that has cleared its registers and is about to run
its first instruction. -/
theorem words_initialFrame (m : Mem) (entryPoint : Word) :
    Words ((initialFrame entryPoint).foldl push (stack + stackSize, m)).2
      (stack + stackSize - 128#64) (frame (fun _ => 0#64) entryPoint) := by
  have hwords : Words _ ((initialFrame entryPoint).foldl push (stack + stackSize, m)).1 _ :=
    words_foldl_push (initialFrame entryPoint) (initialFrame_length_le entryPoint)
  rw [foldl_push_fst] at hwords
  exact hwords

theorem initialFrame_of_not_inRange (m : Mem) (entryPoint : Word) {x : Word}
    (hx : ¬ InRange stack 4096 x) :
    ((initialFrame entryPoint).foldl push (stack + stackSize, m)).2 x = m x :=
  foldl_push_of_not_inRange (initialFrame entryPoint) (initialFrame_length_le entryPoint)
    fun hin => hx (inRange_initialFrame hin)

/-- The first switch to a process starts it. -/
theorem switch_first {c : Context} {b : StackArea} {ret entryPoint : Word} {m : Mem}
    (hmem : ∀ x, InRange stack 4096 x →
      c.mem x = ((initialFrame entryPoint).foldl push (stack + stackSize, m)).2 x)
    (hrsi : c.regs .rsi = stack + stackSize - 128#64) (hc : b.Holds c)
    (hdisj : Apart stack 4096 b.base b.size) (hslot : Apart (c.regs .rdi) 8 stack 4096) :
    (c.switch ret).rip = entryPoint ∧ (∀ r, (c.switch ret).regs r = 0#64) ∧
      (c.switch ret).rsp = stack + stackSize := by
  have hthere : Words (c.switchMem ret) (c.regs .rsi) (frame (fun _ => 0#64) entryPoint) := by
    rw [hrsi]
    refine (words_initialFrame m entryPoint).congr (by rw [length_frame]; norm_num) fun x hx => ?_
    have hin := inRange_initialFrame hx
    rw [switchMem_of_avoids (a := ⟨stack, 4096⟩) hc hdisj hslot hin, hmem x hin]
  obtain ⟨hregs, hrsp, hrip⟩ := switch_in hthere
  refine ⟨hrip, congrFun hregs, ?_⟩
  rw [hrsp, hrsi]
  exact sub_add_cancel (stack + stackSize) 128#64

end Create

/-- The first switch to a new process starts it with its registers cleared and its stack empty.
After a switch away from a process, and whatever others do elsewhere, the switch back returns to
where it was called, with the same registers and the same stack. -/
theorem context_switch_round_trip :
    (∀ (fuel : ℕ) (s : Scheduler) (entryPoint stack : Word) (heap : KernelHeap),
      s.procCount < maxProc → kmalloc fuel s.toKernelHeap stackSize = .ok (stack, heap) →
      ∃ s', procCreate fuel s entryPoint = .ok s' ∧ (s'.procTable s.procCount).stack = stack ∧
        (∀ x, ¬ InRange stack stackSize.toNat x → s'.mem x = heap.mem x) ∧
        ∀ (b : StackArea) (c : Context) (ret : Word),
          (∀ x, InRange stack stackSize.toNat x → c.mem x = s'.mem x) →
          c.regs .rsi = (s'.procTable s.procCount).rsp → b.Holds c →
          Apart stack stackSize.toNat b.base b.size →
          Apart (c.regs .rdi) 8 stack stackSize.toNat →
          (c.switch ret).rip = entryPoint ∧ (∀ r, (c.switch ret).regs r = 0#64) ∧
            (c.switch ret).rsp = stack + stackSize) ∧
    ∀ (a b : StackArea) (c d : Context) (ret ret' : Word),
      a.Holds c → a.Avoids (c.regs .rdi) 8 →
      Relation.ReflTransGen (Elsewhere c) (c.switch ret) d →
      b.Holds d → Apart a.base a.size b.base b.size → a.Avoids (d.regs .rdi) 8 →
      d.regs .rsi = load64 d.mem (c.regs .rdi) →
      (d.switch ret').regs = c.regs ∧ (d.switch ret').rsp = c.rsp ∧ (d.switch ret').rip = ret := by
  constructor
  · intro fuel s entryPoint stack heap hroom hkmalloc
    obtain ⟨s', hok, hmem, hproc⟩ := procCreate_of_kmalloc hroom hkmalloc entryPoint
    refine ⟨s', hok, by rw [hproc]; rfl, fun x hx => ?_,
      fun b c ret hsame hrsi hc hdisj hslot => ?_⟩
    · rw [hmem]
      exact initialFrame_of_not_inRange heap.mem entryPoint hx
    · rw [hproc] at hrsi
      rw [hmem] at hsame
      exact switch_first hsame hrsi hc hdisj hslot
  · intro a b c d ret ret' hc hcslot helse hd hdisj hdslot hrsi
    exact switch_back hc hcslot helse hd hdisj hdslot hrsi

/-- A processor at the top of a page, with the two arguments of `proc_switch_x64`. -/
def callerAt (top oldRspPtr newRsp : Word) (m : Mem) : Context :=
  ⟨⟨fun r => if r = .rdi then oldRspPtr else if r = .rsi then newRsp else 7#64, top, 0#64⟩, m, false⟩

theorem callerAt_holds {page : ℕ} (hpage : page + 4096 ≤ 2 ^ 64) (oldRspPtr newRsp : Word)
    (m : Mem) :
    StackArea.Holds ⟨BitVec.ofNat 64 page, 4096⟩
      (callerAt (BitVec.ofNat 64 (page + 4096)) oldRspPtr newRsp m) := by
  intro x hx
  have hsaved : (callerAt (BitVec.ofNat 64 (page + 4096)) oldRspPtr newRsp m).savedRsp =
      BitVec.ofNat 64 (page + 3968) := by
    change BitVec.ofNat 64 (page + 4096) - 128#64 = _
    rw [show page + 4096 = page + 3968 + 128 from rfl, BitVec.ofNat_add]
    exact add_sub_cancel_right _ _
  rw [hsaved, inRange_ofNat (by omega)] at hx
  rw [inRange_ofNat hpage]
  omega

theorem context_switch_round_trip_oneBlockHeap :
    (∃ s' newRsp, procCreate 3 (procInit oneBlockHeap) 0x4000#64 = .ok s' ∧
      ((callerAt 0x9000#64 0x2000#64 newRsp s'.mem).switch 0x1234#64).rip = 0x4000#64) ∧
    ∃ c d : Context, d.mem = (c.switch 0x1234#64).mem ∧ (d.switch 0x5678#64).regs = c.regs := by
  constructor
  · obtain ⟨⟨stack, heap⟩, hkmalloc, rfl⟩ := Loop.exists_of_toOption
      (show (kmalloc 3 oneBlockHeap stackSize).toOption.map Prod.fst = some 0x10008#64 by
        decide +kernel)
    obtain ⟨s', hok, -, -, hfirst⟩ := context_switch_round_trip.1 3 (procInit oneBlockHeap)
      0x4000#64 0x10008#64 heap (by decide) hkmalloc
    refine ⟨s', (s'.procTable 1).rsp, hok, (hfirst ⟨0x8000#64, 4096⟩ _ 0x1234#64 (fun x _ => rfl)
      rfl (callerAt_holds (show 0x8000 + 4096 ≤ 2 ^ 64 by norm_num) _ _ _) ?_ ?_).1⟩
    · exact apart_ofNat (by decide) (by decide) (by decide)
    · exact apart_ofNat (by decide) (by decide) (by decide)
  · let c := callerAt 0x9000#64 0x2000#64 0#64 fun _ => 0#8
    obtain ⟨m, hm⟩ : ∃ m, m = (c.switch 0x1234#64).mem := ⟨_, rfl⟩
    let d := callerAt 0x7000#64 0x2020#64 (load64 m 0x2000#64) m
    have helse : Relation.ReflTransGen (Elsewhere c) (c.switch 0x1234#64) d :=
      .single (.compute fun x _ => congrFun hm x)
    exact ⟨c, d, hm, (context_switch_round_trip.2 ⟨0x8000#64, 4096⟩ ⟨0x6000#64, 4096⟩ c d 0x1234#64
      0x5678#64 (callerAt_holds (show 0x8000 + 4096 ≤ 2 ^ 64 by norm_num) _ _ _)
      (apart_ofNat (by decide) (by decide) (by decide)) helse
      (callerAt_holds (show 0x6000 + 4096 ≤ 2 ^ 64 by norm_num) _ _ _)
      (apart_ofNat (by decide) (by decide) (by decide))
      (apart_ofNat (by decide) (by decide) (by decide)) rfl).1⟩

end Osiris.Swtch
