import Osiris.Model.Proc

/-! # The interrupt stubs, `sys/arch/x86_64/isr.asm`

What the processor does when an interrupt arrives is not code of the repository. It follows the
processor's manual: the stack is aligned, five words and perhaps an error code are pushed, and the
interrupt gate clears the interrupt flag. -/

namespace Osiris.Isr

open ByteMemory Sched

/-! ## State -/

structure Core extends Cpu where
  rflags : Word
  cs : Word
  ss : Word

structure Context extends Core where
  mem : Mem

/-- The flag that `cli` clears and `sti` sets. -/
def interruptFlag : Word := 0x200#64

/-- The flags that an interrupt gate clears: resume, nested task, interrupt and trap. -/
def gateFlags : Word := 0x14300#64

/-- Where an entry of the interrupt descriptor table leads to. -/
structure Gate where
  sel : Word
  base : Word

/-- The stack that an interrupt pushes to. -/
def Context.interruptStack (c : Context) (rsp0 : Word) : Word :=
  (if c.cs &&& 3#64 = 0#64 then c.rsp else rsp0) &&& ~~~ 15#64

/-- An interrupt arrives. `rsp0` is the stack pointer of the task state segment, for interrupts that
leave user mode. -/
def Context.deliver (c : Context) (gate : Gate) (rsp0 : Word) (errorCode : Option Word) : Context :=
  let (rsp, mem) := ([c.ss, c.rsp, c.rflags, c.cs, c.rip] ++ errorCode.toList).foldl push
    (c.interruptStack rsp0, c.mem)
  { regs := c.regs, rsp, rip := gate.base
    rflags := c.rflags &&& ~~~ gateFlags
    cs := gate.sel
    ss := if c.cs &&& 3#64 = 0#64 then c.ss else 0#64
    mem }

/-! ## Instructions -/

inductive Instr where
  | cli
  | pushImm (value : Word)
  | push (r : Reg)
  | pop (r : Reg)
  | movRdiRsp
  | addRsp (n : Word)
  | iretq
deriving DecidableEq, Repr

def Context.exec (c : Context) : Instr → Context
  | .cli => { c with rflags := c.rflags &&& ~~~ interruptFlag }
  | .pushImm value => { c with rsp := c.rsp - 8#64, mem := store64 c.mem (c.rsp - 8#64) value }
  | .push r => { c with rsp := c.rsp - 8#64, mem := store64 c.mem (c.rsp - 8#64) (c.regs r) }
  | .pop r =>
      { c with regs := Function.update c.regs r (load64 c.mem c.rsp), rsp := c.rsp + 8#64 }
  | .movRdiRsp => { c with regs := Function.update c.regs .rdi c.rsp }
  | .addRsp n => { c with rsp := c.rsp + n }
  | .iretq =>
      { c with
        rip := load64 c.mem c.rsp
        cs := load64 c.mem (c.rsp + 8#64)
        rflags := load64 c.mem (c.rsp + 16#64)
        rsp := load64 c.mem (c.rsp + 24#64)
        ss := load64 c.mem (c.rsp + 32#64) }

def Context.run (c : Context) (code : List Instr) : Context :=
  code.foldl Context.exec c

/-! ## Stubs -/

/-- In the order in which the stubs push them. -/
def saveOrder : List Reg :=
  [.rax, .rbx, .rcx, .rdx, .rsi, .rdi, .rbp, .r8, .r9, .r10, .r11, .r12, .r13, .r14, .r15]

/-- Both common stubs up to the call of the handler. -/
def commonStub : List Instr :=
  saveOrder.map .push ++ [.movRdiRsp]

/-- Both common stubs after the call. -/
def commonExit : List Instr :=
  saveOrder.reverse.map .pop ++ [.addRsp 16#64, .iretq]

def isrNoErr (num : ℕ) : List Instr :=
  [.cli, .pushImm 0#64, .pushImm (BitVec.ofNat 64 num)] ++ commonStub

def isrErr (num : ℕ) : List Instr :=
  [.cli, .pushImm (BitVec.ofNat 64 num)] ++ commonStub

def irq (num : ℕ) : List Instr :=
  [.cli, .pushImm 0#64, .pushImm (BitVec.ofNat 64 num)] ++ commonStub

/-- `do_isr0` to `do_isr18`. -/
def doIsr : List (List Instr) :=
  [isrNoErr 0, isrNoErr 1, isrNoErr 2, isrNoErr 3, isrNoErr 4, isrNoErr 5, isrNoErr 6, isrNoErr 7,
    isrErr 8, isrNoErr 9, isrErr 10, isrErr 11, isrErr 12, isrErr 13, isrErr 14, isrNoErr 15,
    isrNoErr 16, isrErr 17, isrNoErr 18]

/-- `do_irq0` and `do_irq1`. -/
def doIrq : List (List Instr) :=
  [irq 32, irq 33]

/-! ## What the handlers are given -/

/-- `registers_t`. -/
structure Registers where
  regs : Reg → Word
  intNo : Word
  errCode : Word
  rip : Word
  cs : Word
  rflags : Word
  rsp : Word
  ss : Word

/-- The fields of `registers_t` that are registers, from its start. -/
def fieldOrder : List Reg :=
  [.r15, .r14, .r13, .r12, .r11, .r10, .r9, .r8, .rbp, .rdi, .rsi, .rdx, .rcx, .rbx, .rax]

/-- The word of a `registers_t` at `p`. -/
def fieldAt (m : Mem) (p : Word) (i : ℕ) : Word :=
  load64 m (p + BitVec.ofNat 64 (8 * i))

def Registers.read (m : Mem) (p : Word) : Registers where
  regs := fun r => fieldAt m p (fieldOrder.idxOf r)
  intNo := fieldAt m p 15
  errCode := fieldAt m p 16
  rip := fieldAt m p 17
  cs := fieldAt m p 18
  rflags := fieldAt m p 19
  rsp := fieldAt m p 20
  ss := fieldAt m p 21

end Osiris.Isr
