import Osiris.Model.Atkbd
import Osiris.Model.Devfs
import Osiris.Model.Proc

/-! # The kernel's data structures together

The static variables of `mount.c`, `devfs_dev.c`, `tar_parse.c`, `proc.c` and `atkbd.c`, around the
one heap that all of them take memory from. -/

namespace Osiris.Kernel

open ByteMemory Page Heap Vfs Devfs Tar Sched Atkbd

structure State extends KernelHeap where
  mountpointsRoot : Word
  devfsRoot : Word
  tar : TarFs
  procTable : ℕ → Proc
  currentProc : ℕ
  procCount : ℕ
  keyBuffer : Word
  bufferAllocs : BitVec 32
  bufferStart : BitVec 32
  bufferEnd : BitVec 32

namespace State

/-! ## What each part of the kernel sees -/

def mountTable (k : State) : MountTable :=
  ⟨k.toKernelHeap, k.mountpointsRoot⟩

def setMountTable (k : State) (s : MountTable) : State :=
  { k with toKernelHeap := s.toKernelHeap, mountpointsRoot := s.mountpointsRoot }

def devfsTable (k : State) : DevfsTable :=
  ⟨k.toKernelHeap, k.devfsRoot⟩

def setDevfsTable (k : State) (s : DevfsTable) : State :=
  { k with toKernelHeap := s.toKernelHeap, devfsRoot := s.devfsRoot }

def scheduler (k : State) : Scheduler :=
  ⟨k.toKernelHeap, k.procTable, k.currentProc, k.procCount⟩

def setScheduler (k : State) (s : Scheduler) : State :=
  { k with
    toKernelHeap := s.toKernelHeap
    procTable := s.procTable
    currentProc := s.currentProc
    procCount := s.procCount }

def keyboard (k : State) : Keyboard :=
  ⟨k.toKernelHeap, k.keyBuffer, k.bufferAllocs, k.bufferStart, k.bufferEnd⟩

def setKeyboard (k : State) (kbd : Keyboard) : State :=
  { k with
    toKernelHeap := kbd.toKernelHeap
    keyBuffer := kbd.keyBuffer
    bufferAllocs := kbd.bufferAllocs
    bufferStart := kbd.bufferStart
    bufferEnd := kbd.bufferEnd }

def setHeap (k : State) (h : KernelHeap) : State :=
  { k with toKernelHeap := h }

end State

/-! ## Calls -/

/-- What the parts of the kernel are asked to do. Other code writes to memory. -/
inductive Call where
  | vfsMount (device target fsType : Word)
  | vfsUmount (device target : Word)
  | devfsRegister (name ops data : Word)
  | devfsLookup (name : Word)
  | tarfsOpen (path : Word)
  | tarfsRead (handle buf : Word) (bufsize : BitVec 32)
  | tarfsClose (handle : Word)
  | procCreate (entryPoint : Word)
  | atkbdAddBuffer (ch : Byte)
  | atkbdGetChar
  | execute (mem : Mem)

/-- The result is the value that the function returns, or 0. -/
def State.call (opsAddr : FsType → Word) (fuel : ℕ) (k : State) :
    Call → Except Fault (Word × State)
  | .vfsMount device target fsType => do
      let s ← vfsMount opsAddr fuel k.mountTable device target fsType
      .ok (0#64, k.setMountTable s)
  | .vfsUmount device target => do
      let s ← vfsUmount fuel k.mountTable device target
      .ok (0#64, k.setMountTable s)
  | .devfsRegister name ops data => do
      let s ← devfsRegister fuel k.devfsTable name ops data
      .ok (0#64, k.setDevfsTable s)
  | .devfsLookup name => do
      let node ← devfsLookup fuel k.devfsTable name
      .ok (node, k)
  | .tarfsOpen path => do
      let (handle, h) ← tarfsOpen fuel k.tar k.toKernelHeap path
      .ok (handle, k.setHeap h)
  | .tarfsRead handle buf bufsize =>
      let (bytes, mem) := tarfsRead k.tar k.mem handle buf bufsize
      .ok (bytes.signExtend 64, { k with mem })
  | .tarfsClose handle => do
      let h ← tarfsClose fuel k.toKernelHeap handle
      .ok (0#64, k.setHeap h)
  | .procCreate entryPoint => do
      let s ← procCreate fuel k.scheduler entryPoint
      .ok (0#64, k.setScheduler s)
  | .atkbdAddBuffer ch => do
      let kbd ← atkbdAddBuffer fuel k.keyboard ch
      .ok (0#64, k.setKeyboard kbd)
  | .atkbdGetChar => do
      let (ch, kbd) ← atkbdGetChar k.keyboard
      .ok (ch.setWidth 64, k.setKeyboard kbd)
  | .execute mem => .ok (0#64, { k with mem })

/-! ## Initialisation, `sys/arch/x86_64/main.c` and `sys/kern/module.c` -/

/-- What the linker puts somewhere: string literals and the operations of the drivers. -/
structure Image where
  string : List Byte → Word
  kbdOps : Word
  liminefbOps : Word
  randomOps : Word
  keyBuffer : Word

def chars (text : String) : List Byte :=
  text.toList.map fun c => BitVec.ofNat 8 c.toNat

section Init

variable (opsAddr : FsType → Word) (fuel : ℕ) (image : Image)

end Init

end Osiris.Kernel
