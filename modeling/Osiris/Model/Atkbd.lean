import Osiris.Model.Heap

/-! # The buffer of the keyboard driver, `sys/dev/atkbd/atkbd.c`

The interrupt handler adds characters, the readers of the keyboard take them out. The indices are
of type `int`. -/

namespace Osiris.Atkbd

open ByteMemory Strings Heap

/-- The static variables of the buffer, and the heap it is in. -/
structure Keyboard extends KernelHeap where
  keyBuffer : Word
  bufferAllocs : BitVec 32
  bufferStart : BitVec 32
  bufferEnd : BitVec 32

/-- The address of `key_buffer[index]`. -/
def Keyboard.slot (k : Keyboard) (index : BitVec 32) : Word :=
  k.keyBuffer + index.signExtend 64

def atkbdAddBuffer (fuel : ℕ) (k : Keyboard) (ch : Byte) : Except Fault Keyboard :=
  if k.bufferEnd + 1#32 ≠ k.bufferStart then
    .ok { k with
      mem := setByte k.mem (k.slot k.bufferEnd) ch
      bufferEnd := k.bufferEnd + 1#32 }
  else do
    let bufferAllocs := k.bufferAllocs + 1#32
    let (keyBufferTmp, h) ← kmalloc fuel k.toKernelHeap ((4096#32 * bufferAllocs).signExtend 64)
    let m := memcpy h.mem keyBufferTmp k.keyBuffer (4096#32 * (bufferAllocs - 1#32))
    let h ← kfree fuel { h with mem := m } k.keyBuffer
    .ok { k with toKernelHeap := h, bufferAllocs, keyBuffer := keyBufferTmp }

def atkbdClearBuffer (fuel : ℕ) (k : Keyboard) : Except Fault Keyboard := do
  let bufferAllocs := 1#32
  let h ← kfree fuel k.toKernelHeap k.keyBuffer
  let (keyBuffer, h) ← kmalloc fuel h ((4096#32 * bufferAllocs).signExtend 64)
  let m := fillUp h.mem keyBuffer 0#8 (rounds (4096#32 * bufferAllocs - 1#32))
  .ok
    { toKernelHeap := { h with mem := m }
      keyBuffer
      bufferAllocs
      bufferStart := 0#32
      bufferEnd := 0#32 }

/-- The function waits for a character as long as the buffer is empty. -/
def atkbdGetChar (k : Keyboard) : Except Fault (Byte × Keyboard) :=
  if k.bufferStart = k.bufferEnd then .error .endless
  else
    .ok (k.mem (k.slot k.bufferStart),
      { k with bufferStart := (k.bufferStart + 1#32).srem 4096#32 })

/-- The part of `atkbd_init` that concerns the buffer. -/
def atkbdInitBuffer (fuel : ℕ) (k : Keyboard) : Except Fault Keyboard := do
  let (keyBuffer, h) ← kmalloc fuel k.toKernelHeap 4096#64
  atkbdClearBuffer fuel { k with toKernelHeap := h, keyBuffer }

end Osiris.Atkbd
