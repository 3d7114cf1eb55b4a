import Osiris.Model.Proc

/-! # The machine code of `proc_switch_x64`, `sys/arch/x86_64/swtch.asm`

The scheduler keeps the stack pointers of its processes in the process table. Here they are words in
memory, as the processor sees them. -/

namespace Osiris.Swtch

open ByteMemory Sched

/-- The registers, memory and the interrupt flag. -/
structure Context extends Cpu where
  mem : Mem
  interrupts : Bool

inductive Instr where
  | push (r : Reg)
  | pop (r : Reg)
  | movToRdi
  | movFromRsi
  | sti
  | ret
deriving DecidableEq, Repr

/-- `mov [rdi], rsp` and `mov rsp, rsi` are the two moves. -/
def Context.exec (c : Context) : Instr → Context
  | .push r =>
      { c with rsp := c.rsp - 8#64, mem := store64 c.mem (c.rsp - 8#64) (c.regs r) }
  | .pop r =>
      { c with regs := Function.update c.regs r (load64 c.mem c.rsp), rsp := c.rsp + 8#64 }
  | .movToRdi => { c with mem := store64 c.mem (c.regs .rdi) c.rsp }
  | .movFromRsi => { c with rsp := c.regs .rsi }
  | .sti => { c with interrupts := true }
  | .ret => { c with rip := load64 c.mem c.rsp, rsp := c.rsp + 8#64 }

def procSwitchX64 : List Instr :=
  [.push .r15, .push .r14, .push .r13, .push .r12, .push .r11, .push .r10, .push .r9, .push .r8,
    .push .rbp, .push .rdi, .push .rsi, .push .rdx, .push .rcx, .push .rbx, .push .rax,
    .movToRdi, .movFromRsi,
    .pop .rax, .pop .rbx, .pop .rcx, .pop .rdx, .pop .rsi, .pop .rdi, .pop .rbp, .pop .r8, .pop .r9,
    .pop .r10, .pop .r11, .pop .r12, .pop .r13, .pop .r14, .pop .r15,
    .sti, .ret]

def Context.run (c : Context) (code : List Instr) : Context :=
  code.foldl Context.exec c

/-- The call instruction: the return address goes on the stack. -/
def Context.call (c : Context) (returnAddress : Word) : Context :=
  { c with rsp := c.rsp - 8#64, mem := store64 c.mem (c.rsp - 8#64) returnAddress }

/-- A call of `proc_switch_x64`, whose arguments are in `rdi` and `rsi`. -/
def Context.switch (c : Context) (returnAddress : Word) : Context :=
  (c.call returnAddress).run procSwitchX64

end Osiris.Swtch
