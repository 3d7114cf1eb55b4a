import Osiris.Model.Heap

/-! # The scheduler, `sys/kern/proc.c` and `sys/arch/x86_64/swtch.asm`

`current_proc` points into the process table. The model keeps the index of the slot it points to,
which need not be below `proc_count`. -/

namespace Osiris.Sched

open ByteMemory Page Heap

/-! ## State -/

inductive ProcState where
  | ready
  | running
  | idle
  | dead
deriving DecidableEq, Repr

structure Proc where
  rsp : Word
  pid : Word
  state : ProcState
  stack : Word
deriving DecidableEq, Repr

def maxProc : ℕ := 100

def stackSize : Word := 4096#64

/-- The static variables of the scheduler, and the heap it takes stacks from. -/
structure Scheduler extends KernelHeap where
  procTable : ℕ → Proc
  currentProc : ℕ
  procCount : ℕ

def Scheduler.setProc (s : Scheduler) (i : ℕ) (proc : Proc) : Scheduler :=
  { s with procTable := Function.update s.procTable i proc }

/-! ## `proc_switch_x64` -/

/-- The registers that are saved on the stack of a process that does not run. -/
inductive Reg where
  | rax | rbx | rcx | rdx | rsi | rdi | rbp | r8 | r9 | r10 | r11 | r12 | r13 | r14 | r15
deriving DecidableEq, Repr

structure Cpu where
  regs : Reg → Word
  rsp : Word
  rip : Word

/-- In the order in which they are pushed. -/
def pushOrder : List Reg :=
  [.r15, .r14, .r13, .r12, .r11, .r10, .r9, .r8, .rbp, .rdi, .rsi, .rdx, .rcx, .rbx, .rax]

def push (stack : Word × Mem) (value : Word) : Word × Mem :=
  (stack.1 - 8#64, store64 stack.2 (stack.1 - 8#64) value)

def pop (m : Mem) (cpu : Cpu) (r : Reg) : Cpu :=
  { cpu with regs := Function.update cpu.regs r (load64 m cpu.rsp), rsp := cpu.rsp + 8#64 }

/-- The stack pointer that is stored at `old_rsp_ptr`, the processor after the `ret`, and memory.
At the call the return address lies on top of the stack. -/
def procSwitchX64 (cpu : Cpu) (m : Mem) (newRsp : Word) : Word × Cpu × Mem :=
  let (oldRsp, m) := (pushOrder.map cpu.regs).foldl push (cpu.rsp, m)
  let cpu := pushOrder.reverse.foldl (pop m) { cpu with rsp := newRsp }
  (oldRsp, { cpu with rip := load64 m cpu.rsp, rsp := cpu.rsp + 8#64 }, m)

/-! ## `schedule` -/

/-- `current_proc_index`, or `none` for -1. -/
def Scheduler.currentProcIndex (s : Scheduler) : Option ℕ :=
  (List.range s.procCount).find? fun i => i = s.currentProc

/-- The search for the next process that is ready. -/
def searchReady (s : Scheduler) (currentProcIndex : Option ℕ) : ℕ → ℕ → Except Fault ℕ
  | 0, _ => .error .endless
  | fuel + 1, next =>
      if (s.procTable next).state ≠ .ready ∧ some next ≠ currentProcIndex then
        searchReady s currentProcIndex fuel ((next + 1) % s.procCount)
      else .ok next

/-- The slots change state, and the processor changes stacks. -/
def Scheduler.switchTo (s : Scheduler) (cpu : Cpu) (newProc : ℕ) : Cpu × Scheduler :=
  let oldProc := s.currentProc
  let s := s.setProc oldProc { s.procTable oldProc with state := .ready }
  let s := s.setProc newProc { s.procTable newProc with state := .running }
  let s := { s with currentProc := newProc }
  let (oldRsp, cpu, m) := procSwitchX64 cpu s.mem (s.procTable newProc).rsp
  (cpu, { s.setProc oldProc { s.procTable oldProc with rsp := oldRsp } with mem := m })

/-- The processor is in the state in which it would call `proc_switch_x64`. A remainder by zero
halts the system. -/
def schedule (fuel : ℕ) (cpu : Cpu) (s : Scheduler) : Except Fault (Cpu × Scheduler) :=
  if s.procCount = 0 then .error (.panic "division by zero")
  else do
    let currentProcIndex := s.currentProcIndex
    let first := match currentProcIndex with
      | some i => (i + 1) % s.procCount
      | none => 0 % s.procCount
    let next ← searchReady s currentProcIndex fuel first
    if some next = currentProcIndex then .ok (cpu, s)
    else if (s.procTable next).state ≠ .ready then .ok (cpu, s)
    else .ok (s.switchTo cpu next)

/-! ## `proc_create`, `proc_destroy` and `proc_init` -/

/-- The words that `proc_create` pushes on the new stack: the entry point and fifteen registers. -/
def initialFrame (entryPoint : Word) : List Word :=
  entryPoint :: List.replicate 15 0#64

def procCreate (fuel : ℕ) (s : Scheduler) (entryPoint : Word) : Except Fault Scheduler :=
  if s.procCount ≥ maxProc then .ok s
  else do
    let newProc := s.procCount
    let s := s.setProc newProc
      { s.procTable newProc with pid := BitVec.ofNat 64 s.procCount, state := .ready }
    let (stack, h) ← kmalloc fuel s.toKernelHeap stackSize
    let (rsp, m) := (initialFrame entryPoint).foldl push (stack + stackSize, h.mem)
    let s : Scheduler := { s with toKernelHeap := { h with mem := m } }
    let s := s.setProc newProc { s.procTable newProc with stack, rsp }
    .ok { s with procCount := s.procCount + 1 }

/-- `for (i = first; i < last; i++) table[i] = table[i + 1]`. -/
def shiftDown {α : Type} (table : ℕ → α) (first last : ℕ) : ℕ → α :=
  (pageRange first last).foldl (fun table i => Function.update table i (table (i + 1))) table

/-- The stack of a process is freed, if there is one. -/
def freeStack (fuel : ℕ) (s : Scheduler) (proc : ℕ) : Except Fault Scheduler :=
  if (s.procTable proc).stack ≠ 0#64 then do
    let h ← kfree fuel s.toKernelHeap (s.procTable proc).stack
    let s : Scheduler := { s with toKernelHeap := h }
    .ok (s.setProc proc { s.procTable proc with stack := 0#64 })
  else .ok s

/-- The slot is taken out of the table. There is one process at least when there is one to destroy,
so that the count needs no sign. -/
def Scheduler.removeProc (s : Scheduler) (proc : ℕ) : Scheduler :=
  let s := s.setProc proc { s.procTable proc with state := .dead }
  let s := { s with procTable := shiftDown s.procTable proc (s.procCount - 1) }
  let s := { s with procCount := s.procCount - 1 }
  if s.currentProc = proc then { s with currentProc := 0 } else s

/-- The argument is the slot that is pointed to, or `none` for `NULL`. -/
def procDestroy (fuel : ℕ) (s : Scheduler) : Option ℕ → Except Fault Scheduler
  | none => .ok s
  | some proc =>
      if (s.procTable proc).state = .idle then .ok s
      else do
        let s ← freeStack fuel s proc
        .ok (s.removeProc proc)

/-- A slot of the table after `memset`: the state of value zero is `PROC_READY`. -/
def clearedProc : Proc :=
  ⟨0#64, 0#64, .ready, 0#64⟩

def procInit (h : KernelHeap) : Scheduler :=
  { toKernelHeap := h
    procTable := Function.update (fun _ => clearedProc) 0
      { clearedProc with pid := 0#64, state := .running, stack := 0#64 }
    currentProc := 0
    procCount := 1 }

end Osiris.Sched
