import Osiris.Model.Atkbd

/-! # The interrupt handler of the keyboard driver, `sys/dev/atkbd/atkbd.c`

What the devices answer to `inb` is not known. The answers are given for every number of reads, so
that an answer may depend on all that went before. -/

namespace Osiris.Atkbd

open ByteMemory Heap

/-! ## State -/

structure Ports where
  /-- What a read of a port gives after so many reads. -/
  replies : ℕ → BitVec 16 → Byte
  reads : ℕ
  written : List (BitVec 16 × Byte)

structure Modifiers where
  shiftDown : Bool
  ctrlDown : Bool
  altDown : Bool
deriving DecidableEq, Repr

/-- The static variables of the driver, and the bytes that the linker puts behind the keymaps. -/
structure Driver extends Keyboard, Modifiers where
  ports : Ports
  capsLock : Bool
  currentLedMask : Byte
  behindLower : Byte
  behindHigher : Byte

def Driver.inb (d : Driver) (port : BitVec 16) : Byte × Driver :=
  (d.ports.replies d.ports.reads port,
    { d with ports := { d.ports with reads := d.ports.reads + 1 } })

def Driver.outb (d : Driver) (port : BitVec 16) (val : Byte) : Driver :=
  { d with ports := { d.ports with written := d.ports.written ++ [(port, val)] } }

/-! ## LEDs -/

def setLeds : Byte := 0xED#8
def capsLockLed : Byte := 0x04#8
def ack : Byte := 0xFA#8
def timeout : ℕ := 10000

def atkbdWaitForKbcWrite : ℕ → Driver → Except Fault Driver
  | 0, _ => .error .endless
  | fuel + 1, d =>
      let (status, d) := d.inb 0x64#16
      if status &&& 0x02#8 ≠ 0#8 then atkbdWaitForKbcWrite fuel d else .ok d

/-- The loop of `atkbd_wait_for_response`, with what is left of `timeout`. -/
def atkbdWaitForResponse (expectedResponse : Byte) : ℕ → Driver → Bool × Driver
  | 0, d => (false, d)
  | timeout + 1, d =>
      let (status, d) := d.inb 0x64#16
      if status &&& 0x01#8 ≠ 0#8 then
        let (response, d) := d.inb 0x60#16
        if response = expectedResponse then (true, d)
        else atkbdWaitForResponse expectedResponse timeout d
      else atkbdWaitForResponse expectedResponse timeout d

def atkbdSetLed (fuel : ℕ) (d : Driver) (led : Byte) : Except Fault Driver := do
  let d ← atkbdWaitForKbcWrite fuel d
  let d := d.outb 0x60#16 setLeds
  let d ← atkbdWaitForKbcWrite fuel d
  let d := d.outb 0x60#16 led
  .ok (atkbdWaitForResponse ack timeout d).2

def atkbdHandleCapslock (fuel : ℕ) (d : Driver) : Except Fault Driver :=
  let d :=
    if d.capsLock then
      { d with capsLock := false, currentLedMask := d.currentLedMask &&& ~~~capsLockLed }
    else { d with capsLock := true, currentLedMask := d.currentLedMask ||| capsLockLed }
  atkbdSetLed fuel d d.currentLedMask

/-! ## Scancodes -/

def lowerKbdus : List Byte :=
  [0x00#8, 0x1B#8, 0x31#8, 0x32#8, 0x33#8, 0x34#8, 0x35#8, 0x36#8, 0x37#8, 0x38#8, 0x39#8, 0x30#8,
    0x2D#8, 0x3D#8, 0x08#8, 0x09#8, 0x71#8, 0x77#8, 0x65#8, 0x72#8, 0x74#8, 0x79#8, 0x75#8,
    0x69#8, 0x6F#8, 0x70#8, 0x5B#8, 0x5D#8, 0x0A#8, 0x00#8, 0x61#8, 0x73#8, 0x64#8, 0x66#8,
    0x67#8, 0x68#8, 0x6A#8, 0x6B#8, 0x6C#8, 0x3B#8, 0x27#8, 0x60#8, 0x00#8, 0x5C#8, 0x7A#8,
    0x78#8, 0x63#8, 0x76#8, 0x62#8, 0x6E#8, 0x6D#8, 0x2C#8, 0x2E#8, 0x2F#8, 0x00#8, 0x2A#8,
    0x00#8, 0x20#8, 0x00#8] ++
    List.replicate 69 0x00#8

def higherKbdus : List Byte :=
  [0x00#8, 0x1B#8, 0x21#8, 0x40#8, 0x23#8, 0x24#8, 0x25#8, 0x5E#8, 0x26#8, 0x2A#8, 0x28#8, 0x29#8,
    0x5F#8, 0x2B#8, 0x08#8, 0x09#8, 0x51#8, 0x57#8, 0x45#8, 0x52#8, 0x54#8, 0x59#8, 0x55#8,
    0x49#8, 0x4F#8, 0x50#8, 0x7B#8, 0x7D#8, 0x0A#8, 0x00#8, 0x41#8, 0x53#8, 0x44#8, 0x46#8,
    0x47#8, 0x48#8, 0x4A#8, 0x4B#8, 0x4C#8, 0x3A#8, 0x22#8, 0x7E#8, 0x00#8, 0x7C#8, 0x5A#8,
    0x58#8, 0x43#8, 0x56#8, 0x42#8, 0x4E#8, 0x4D#8, 0x3C#8, 0x3E#8, 0x3F#8, 0x00#8, 0x2A#8,
    0x00#8, 0x20#8, 0x00#8] ++
    List.replicate 69 0x00#8

/-- A keymap has 128 entries, and the scancode may be 128. -/
def atkbdDecode (d : Driver) (scancode : Byte) : Byte :=
  let decodedScancode :=
    if d.shiftDown ∨ d.capsLock then higherKbdus.getD scancode.toNat d.behindHigher
    else lowerKbdus.getD scancode.toNat d.behindLower
  if d.ctrlDown then
    if 0x61#8 ≤ decodedScancode ∧ decodedScancode ≤ 0x7A#8 then decodedScancode - 0x61#8 + 1#8
    else if 0x41#8 ≤ decodedScancode ∧ decodedScancode ≤ 0x5A#8 then
      decodedScancode - 0x41#8 + 1#8
    else decodedScancode
  else decodedScancode

def atkbdProcessExtended (m : Modifiers) (scancode : Byte) : Modifiers :=
  if scancode = 0x2A#8 then { m with shiftDown := true }
  else if scancode = 0x36#8 then { m with shiftDown := true }
  else if scancode = 0x1D#8 then { m with ctrlDown := true }
  else if scancode = 0x38#8 then { m with altDown := true }
  else m

def atkbdScancodeIsBreak (scancode : Byte) : Bool :=
  128 < scancode.toNat

def atkbdHandleBreak (m : Modifiers) (scancode : Byte) : Modifiers :=
  if scancode = 0x2A#8 ∨ scancode = 0x36#8 then { m with shiftDown := false }
  else if scancode = 0x1D#8 then { m with ctrlDown := false }
  else if scancode = 0x38#8 then { m with altDown := false }
  else m

/-- The part of `atkbd_irq` after the scancode has been read and caps lock handled. -/
def atkbdHandleScancode (fuel : ℕ) (d : Driver) (scancode : Byte) : Except Fault Driver :=
  if atkbdScancodeIsBreak scancode then
    let makeCode := scancode &&& 0x7F#8
    .ok { d with toModifiers := atkbdHandleBreak d.toModifiers makeCode }
  else
    let d := { d with toModifiers := atkbdProcessExtended d.toModifiers scancode }
    let ch := atkbdDecode d scancode
    if ch ≠ 0#8 then do
      let k ← atkbdAddBuffer fuel d.toKeyboard ch
      .ok { d with toKeyboard := k }
    else .ok d

def atkbdIrq (fuel : ℕ) (d : Driver) : Except Fault Driver := do
  let (scancode, d) := d.inb 0x60#16
  let d ← if scancode = 0x3A#8 then atkbdHandleCapslock fuel d else .ok d
  let d ← atkbdHandleScancode fuel d scancode
  .ok (d.outb 0x20#16 0x20#8)

end Osiris.Atkbd
