import Osiris.Model.AtkbdIrq
import Osiris.Model.Isr

/-! # Traps, `sys/arch/x86_64/trap.c`

The handlers of exceptions and of interrupts, the interrupt descriptor table and the bytes that
`trap_init` sends to the two interrupt controllers. -/

namespace Osiris.Trap

open ByteMemory Heap Isr

/-! ## `isr_handler_c` -/

def trapMsgs : List String :=
  ["division by zero", "debug", "non maskable interrupt", "breakpoint", "into detected overflow",
    "out of bounds", "invalid opcode", "no coprocessor", "double fault",
    "coprocessor segment overrun", "bad tss", "segment not present", "stack fault",
    "general protection fault", "page fault", "unknown interrupt", "coprocessor fault",
    "alignment check", "machine check"]

/-- What is printed before the system halts. -/
inductive Report where
  | unhandled (msg : String) (errCode : Word)
  | reserved (intNo : Word)
deriving DecidableEq, Repr

/-- The table of texts is read without a check of its own: `none` is a read behind its end. -/
def isrHandlerC (regs : Registers) : Option Report :=
  if regs.intNo < 19#64 then
    (trapMsgs[regs.intNo.toNat]?).map fun msg => .unhandled msg regs.errCode
  else some (.reserved regs.intNo)

/-! ## `irq_handler_c` -/

/-- What `irq_handler_c` calls once it has told the controllers that the interrupt is served. -/
inductive IrqCall where
  | schedule
  | atkbdIrq
  | unhandled (intNo : Word)
deriving DecidableEq, Repr

structure Irqs where
  ticks : BitVec 32
  written : List (BitVec 16 × Byte)

def Irqs.outb (s : Irqs) (port : BitVec 16) (val : Byte) : Irqs :=
  { s with written := s.written ++ [(port, val)] }

/-- The call is the last thing that `irq_handler_c` does. -/
def irqHandlerC (regs : Registers) (s : Irqs) : IrqCall × Irqs :=
  let s := if regs.intNo ≥ 40#64 then s.outb 0xA0#16 0x20#8 else s
  let s := s.outb 0x20#16 0x20#8
  if regs.intNo = 32#64 then (.schedule, { s with ticks := s.ticks + 1#32 })
  else if regs.intNo = 33#64 then (.atkbdIrq, s)
  else (.unhandled regs.intNo, s)

/-! ## The interrupt descriptor table -/

structure IdtEntry where
  baseLow : BitVec 16
  sel : BitVec 16
  always0 : Byte
  flags : Byte
  baseMid : BitVec 16
  baseHigh : BitVec 32
  zero : BitVec 32
deriving DecidableEq, Repr

/-- `idt`, of which the program fills a part. -/
abbrev Idt := ℕ → IdtEntry

/-- A static variable that nothing has been written to. -/
def clearedIdt : Idt := fun _ => ⟨0#16, 0#16, 0#8, 0#8, 0#16, 0#32, 0#32⟩

def fillIdtEntry (idt : Idt) (num : ℕ) (base : Word) (sel : BitVec 16) (flags : Byte) : Idt :=
  Function.update idt num
    { baseLow := (base &&& 0xFFFF#64).setWidth 16
      sel
      always0 := 0#8
      flags
      baseMid := ((base >>> 16) &&& 0xFFFF#64).setWidth 16
      baseHigh := ((base >>> 32) &&& 0xFFFFFFFF#64).setWidth 32
      zero := 0#32 }

/-- The same, with a line of output. -/
def addIrq (idt : Idt) (num : ℕ) (base : Word) (sel : BitVec 16) (flags : Byte) : Idt :=
  fillIdtEntry idt num base sel flags

/-- The bytes that `trap_init` sends to the controllers. -/
def controllerSetup : List (BitVec 16 × Byte) :=
  [(0x20#16, 0x11#8), (0xA0#16, 0x11#8), (0x21#16, 0x20#8), (0xA1#16, 0x28#8), (0x21#16, 0x04#8),
    (0xA1#16, 0x02#8), (0x21#16, 0x01#8), (0xA1#16, 0x01#8), (0x21#16, 0x00#8), (0xA1#16, 0x00#8)]

/-- The stubs are where the linker puts them. -/
structure StubAddrs where
  isr : ℕ → Word
  irq : ℕ → Word

def trapInit (stubs : StubAddrs) (idt : Idt) (s : Irqs) : Idt × Irqs :=
  let s := controllerSetup.foldl (fun s w => s.outb w.1 w.2) s
  let idt := (List.range 19).foldl
    (fun idt num => fillIdtEntry idt num (stubs.isr num) 0x08#16 0x8E#8) idt
  let idt := addIrq idt 32 (stubs.irq 0) 0x08#16 0x8E#8
  let idt := addIrq idt 33 (stubs.irq 1) 0x08#16 0x8E#8
  (idt, s)

end Osiris.Trap
