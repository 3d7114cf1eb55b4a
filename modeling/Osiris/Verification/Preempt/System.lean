import Osiris.Verification.Heap.Contents
import Osiris.Verification.Preempt.Stacks

/-! # The kernel with interrupts

Processes compute, call the heap and create processes. Interrupts arrive at any time, also in the
handler of another one, and the timer's calls `schedule`. -/

namespace Osiris.Preempt

open ByteMemory Page Blocks Heap Sched Isr Transition
open Swtch (StackArea)

/-! ## State -/

/-- The processor and the scheduler. The other fields record what has happened: the blocks that are
live, and for each slot of the process table what its process was doing when interrupts arrived that
have not returned, and how it goes on after `schedule`. -/
structure System where
  core : Core
  sched : Scheduler
  live : List Block
  pending : ℕ → List Context
  parked : ℕ → Parked

namespace System

def context (s : System) : Context :=
  { s.core with mem := s.sched.mem }

def withContext (s : System) (c : Context) : System :=
  { s with core := c.toCore, sched := { s.sched with mem := c.mem } }

def heapState (s : System) : State :=
  ⟨s.sched.toKernelHeap, s.live⟩

def stack (s : System) (i : ℕ) : Word :=
  (s.sched.procTable i).stack

/-- The first process runs on the stack that the boot loader gave to the kernel. -/
def stackArea (boot : StackArea) (s : System) (i : ℕ) : StackArea :=
  if i = 0 then boot else ⟨s.stack i, stackSize.toNat⟩

def lowest (boot : StackArea) (s : System) (i : ℕ) : ℕ :=
  Isr.lowest (s.stackArea boot i) (s.pending i)

/-- How the process that calls `schedule` goes on. -/
def leaving (s : System) : Parked :=
  ⟨⟨s.core.regs, s.core.rsp + 8#64, load64 s.sched.mem s.core.rsp⟩, s.sched.mem⟩

/-- There is a new process, with `stack`. -/
def created (s : System) (core : Core) (sched : Scheduler) (live : List Block)
    (entryPoint stack : Word) : System where
  core
  sched
  live
  pending := Function.update s.pending s.sched.procCount []
  parked := Function.update s.parked s.sched.procCount
    ⟨⟨fun _ => 0#64, stack + stackSize, entryPoint⟩, sched.mem⟩

/-- An interrupt has arrived, and its stub is about to call the handler. -/
def interrupted (s : System) (gate : Gate) (rsp0 : Word) (stub : List Instr) : System :=
  { s.withContext ((s.context.deliver gate rsp0 none).run stub) with
    pending := Function.update s.pending s.sched.currentProc
      (s.context :: s.pending s.sched.currentProc) }

/-- What the current process has to leave alone: the stacks of others, and its own from the last
interrupt on. -/
def Guarded (boot : StackArea) (s : System) (x : Word) : Prop :=
  ∃ i < s.sched.procCount,
    (s.stackArea boot i).From (if i = s.sched.currentProc then s.lowest boot i else 0) x

/-- What it may write to. -/
def Writable (boot : StackArea) (s : System) (x : Word) : Prop :=
  Client s.live x ∧ ¬ s.Guarded boot x

/-- There is room for `n` bytes at `p` on the stack of the current process. -/
def HasRoom (boot : StackArea) (s : System) (p : Word) (n : ℕ) : Prop :=
  (s.stackArea boot s.sched.currentProc).offset p + n ≤ s.lowest boot s.sched.currentProc

end System

/-! ## Steps -/

/-- The request is about the block at `ptr`. -/
def Names (ptr : Word) : Request → Prop
  | .kmalloc _ => False
  | .kcalloc _ _ => False
  | .krealloc p _ => p = ptr
  | .kfree p => p = ptr
  | .write p _ _ => p = ptr

inductive Event where
  | compute
  | heap (req : Request)
  | create (entryPoint : Word)
  | interrupt (num : ℕ)
  | schedule
  | resume
deriving DecidableEq, Repr

/-- The current process makes a step, or is interrupted. Code may call `schedule` at any time; in
this kernel the timer's handler does. A process is not created without a stack. -/
inductive Step (boot : StackArea) (fuel : ℕ) : System → Event → System → Prop where
  | compute {s} (c : Context)
      (hspared : ∀ x, ¬ s.Writable boot x → c.mem x = s.sched.mem x) :
      Step boot fuel s .compute (s.withContext c)
  | heap {s req ptr t} (core : Core) (hserved : Served fuel s.heapState (req, ptr) t)
      (hspared : ∀ i < s.sched.procCount, 0 < i → ¬ Names (s.stack i) req) :
      Step boot fuel s (.heap req)
        { s with core, sched := { s.sched with toKernelHeap := t.heap }, live := t.live }
  | create {s entryPoint stack heap sched} (core : Core) (hroom : s.sched.procCount < maxProc)
      (hstack : kmalloc fuel s.sched.toKernelHeap stackSize = .ok (stack, heap))
      (hmade : stack ≠ 0#64) (hcreate : procCreate fuel s.sched entryPoint = .ok sched) :
      Step boot fuel s (.create entryPoint)
        (s.created core sched (gain heap s.live stack) entryPoint stack)
  | interrupt {s i stub} (gate : Gate) (rsp0 : Word) (hstub : doIrq[i]? = some stub)
      (hon : s.core.rflags &&& interruptFlag ≠ 0#64) (hkernel : s.core.cs &&& 3#64 = 0#64)
      (hroom : s.HasRoom boot s.context.frameBase 176) :
      Step boot fuel s (.interrupt (32 + i))
        (s.interrupted gate rsp0 stub)
  | schedule {s cpu sched} (hroom : s.HasRoom boot (s.core.rsp - 120#64) 128)
      (hcall : Sched.schedule fuel s.core.toCpu s.sched = .ok (cpu, sched)) :
      Step boot fuel s .schedule
        { s with
          core :=
            { s.core with
              toCpu := cpu
              rflags := if sched.currentProc = s.sched.currentProc then s.core.rflags
                else s.core.rflags ||| interruptFlag }
          sched
          parked := Function.update s.parked s.sched.currentProc s.leaving }
  | resume {s c rest} (hpending : s.pending s.sched.currentProc = c :: rest)
      (hrsp : s.core.rsp = c.frameBase) :
      Step boot fuel s .resume
        { s.withContext (s.context.run commonExit) with
          pending := Function.update s.pending s.sched.currentProc rest }

/-! ## The invariant -/

/-- The stack of the boot loader is outside the heap. -/
def OutsideHeap (a : StackArea) : Prop :=
  ∀ x, InRange a.base a.size x → Outside x

structure Stacked (boot : StackArea) (s : System) : Prop where
  alternating : Alternating s.sched
  heap : ∃ free, HeapInv s.sched.toKernelHeap s.live free
  own : ∀ i < s.sched.procCount, 0 < i → ∃ b ∈ s.live, payload b = s.stack i ∧ 4104 ≤ b.size
  distinct : ∀ i < s.sched.procCount, ∀ j < s.sched.procCount, 0 < i → 0 < j →
    s.stack i = s.stack j → i = j
  intact : ∀ i < s.sched.procCount, Intact (s.stackArea boot i) s.sched.mem (s.pending i)
  asleep : ∀ i < s.sched.procCount, i ≠ s.sched.currentProc →
    Asleep (s.stackArea boot i) s.sched.mem (s.lowest boot i) (s.sched.procTable i).rsp (s.parked i)

end Osiris.Preempt
