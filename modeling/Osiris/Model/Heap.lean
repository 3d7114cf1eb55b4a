import Osiris.Library.Loop
import Osiris.Model.VmmMap

/-! # The kernel heap, `sys/arch/x86_64/heap.c`

A free block starts with its size and the address of the next one, a live block with its size only.
The loops over the free list count their rounds, so that the model also says what they do when the
list has no end. -/

namespace Osiris.Heap

open ByteMemory Strings Page Vmm

/-! ## State -/

/-- The static variables of the heap, and the machine it is in. -/
structure KernelHeap extends Machine where
  heapStart : Word
  heapSize : Word
  freeListHead : Word

/-- Why a function does not return. -/
inductive Fault where
  | panic (message : String)
  | endless
deriving DecidableEq, Repr

/-- `sizeof (heap_free_block_t)`. -/
def minAllocSize : Word := 16#64

def heapAlignment : Word := 16#64

def alignUpHeap (size : Word) : Word :=
  (size + heapAlignment - 1#64) &&& ~~~ (heapAlignment - 1#64)

def kernelHeapStart : Word := 0xFFFF810000000000#64

def initialHeapPages : ℕ := 256

def kernelHeapInitialSize : Word := BitVec.ofNat 64 (initialHeapPages * 4096)

def KernelHeap.store (h : KernelHeap) (addr value : Word) : KernelHeap :=
  { h with mem := store64 h.mem addr value }

/-! ## `heap_init` -/

/-- One round of the loop of `heap_init`. -/
def heapInitPage (hh : Word) (kernelPagemap : Pagemap) (s : Machine) (i : ℕ) :
    Except Fault Machine :=
  let (physPage, s) := allocatePage hh s
  if physPage = 0#64 then .error (.panic "heap: failed to allocate page")
  else
    let virtAddr := kernelHeapStart + BitVec.ofNat 64 (i * 4096)
    let (mapped, s) :=
      vmmMapPage hh s kernelPagemap virtAddr physPage (ptePresent ||| pteWritable ||| pteNx)
    if mapped then .ok s else .error (.panic "heap: failed to map page")

def heapInit (hh : Word) (kernelPagemap : Pagemap) (h : KernelHeap) : Except Fault KernelHeap :=
  if h.heapStart ≠ 0#64 then .ok h
  else do
    let s ← (List.range initialHeapPages).foldlM (heapInitPage hh kernelPagemap) h.toMachine
    let h : KernelHeap :=
      { s with
        heapStart := kernelHeapStart
        heapSize := kernelHeapInitialSize
        freeListHead := kernelHeapStart }
    .ok ((h.store h.freeListHead h.heapSize).store (h.freeListHead + 8#64) 0#64)

/-! ## `kmalloc` -/

/-- `prev` is the block before, or `NULL` for the head of the list. -/
def KernelHeap.setNext (h : KernelHeap) (prev block : Word) : KernelHeap :=
  if prev = 0#64 then { h with freeListHead := block } else h.store (prev + 8#64) block

/-- The block `curr` is taken from the list, as a whole or its first `totalSize` bytes. -/
def KernelHeap.takeBlock (h : KernelHeap) (totalSize prev curr : Word) : KernelHeap :=
  let h :=
    if load64 h.mem curr - totalSize ≥ minAllocSize then
      let newBlock := curr + totalSize
      let h := h.store newBlock (load64 h.mem curr - totalSize)
      let h := h.store (newBlock + 8#64) (load64 h.mem (curr + 8#64))
      let h := h.store curr totalSize
      h.setNext prev newBlock
    else h.setNext prev (load64 h.mem (curr + 8#64))
  h.store curr (load64 h.mem curr)

/-- The search for the first block that is large enough. -/
def kmallocLoop (totalSize : Word) :
    ℕ → Word → Word → KernelHeap → Except Fault (Word × KernelHeap)
  | 0, _, _, _ => .error .endless
  | fuel + 1, prev, curr, h =>
      if curr = 0#64 then .ok (0#64, h)
      else if load64 h.mem curr ≥ totalSize then
        .ok (curr + 8#64, h.takeBlock totalSize prev curr)
      else kmallocLoop totalSize fuel curr (load64 h.mem (curr + 8#64)) h

/-- `total_size`, which has room for the header. -/
def totalSize (size : Word) : Word :=
  let totalSize := alignUpHeap (size + 8#64)
  if totalSize < minAllocSize then minAllocSize else totalSize

def kmalloc (fuel : ℕ) (h : KernelHeap) (size : Word) : Except Fault (Word × KernelHeap) :=
  if size = 0#64 then .ok (0#64, h)
  else kmallocLoop (totalSize size) fuel 0#64 h.freeListHead h

/-! ## `kfree` -/

/-- The search for the last block before `blockStart`. -/
def kfreeLoop (m : Mem) (blockStart : Word) : ℕ → Word → Word → Except Fault Word
  | 0, _, _ => .error .endless
  | fuel + 1, prev, curr =>
      if curr ≠ 0#64 ∧ curr < blockStart then
        kfreeLoop m blockStart fuel curr (load64 m (curr + 8#64))
      else .ok prev

/-- The block is put into the list after `prev`. -/
def KernelHeap.linkBlock (h : KernelHeap) (prev freedBlock : Word) : KernelHeap :=
  if prev = 0#64 then
    { h.store (freedBlock + 8#64) h.freeListHead with freeListHead := freedBlock }
  else (h.store (freedBlock + 8#64) (load64 h.mem (prev + 8#64))).store (prev + 8#64) freedBlock

def KernelHeap.joinNext (h : KernelHeap) (freedBlock : Word) : KernelHeap :=
  let next := load64 h.mem (freedBlock + 8#64)
  if next ≠ 0#64 ∧ freedBlock + load64 h.mem freedBlock = next then
    let h := h.store freedBlock (load64 h.mem freedBlock + load64 h.mem next)
    h.store (freedBlock + 8#64) (load64 h.mem (load64 h.mem (freedBlock + 8#64) + 8#64))
  else h

def KernelHeap.joinPrev (h : KernelHeap) (prev freedBlock : Word) : KernelHeap :=
  if prev ≠ 0#64 ∧ prev + load64 h.mem prev = freedBlock then
    let h := h.store prev (load64 h.mem prev + load64 h.mem freedBlock)
    h.store (prev + 8#64) (load64 h.mem (freedBlock + 8#64))
  else h

def kfree (fuel : ℕ) (h : KernelHeap) (ptr : Word) : Except Fault KernelHeap :=
  if ptr = 0#64 then .ok h
  else
    let blockStart := ptr - 8#64
    let blockSize := load64 h.mem blockStart
    if blockStart < h.heapStart ∨ blockStart ≥ h.heapStart + h.heapSize ∨
        blockSize < minAllocSize ∨ blockStart % heapAlignment ≠ 0#64 then
      .error (.panic "heap: invalid pointer or heap corruption detected in kfree")
    else do
      let prev ← kfreeLoop h.mem blockStart fuel 0#64 h.freeListHead
      let h := (h.store blockStart blockSize).linkBlock prev blockStart
      .ok ((h.joinNext blockStart).joinPrev prev blockStart)

/-! ## `kcalloc` and `krealloc` -/

def kcalloc (fuel : ℕ) (h : KernelHeap) (num size : Word) : Except Fault (Word × KernelHeap) :=
  let total := num * size
  if size ≠ 0#64 ∧ total / size ≠ num then .ok (0#64, h)
  else do
    let (ptr, h) ← kmalloc fuel h total
    if ptr ≠ 0#64 then .ok (ptr, { h with mem := memset h.mem ptr 0#32 (total.setWidth 32) })
    else .ok (ptr, h)

def krealloc (fuel : ℕ) (h : KernelHeap) (ptr size : Word) : Except Fault (Word × KernelHeap) :=
  if ptr = 0#64 then kmalloc fuel h size
  else if size = 0#64 then do
    let h ← kfree fuel h ptr
    .ok (0#64, h)
  else
    let oldSize := load64 h.mem (ptr - 8#64) - 8#64
    if size ≤ oldSize then .ok (ptr, h)
    else do
      let (newPtr, h) ← kmalloc fuel h size
      if newPtr ≠ 0#64 then
        let h ← kfree fuel { h with mem := memcpy h.mem newPtr ptr (oldSize.setWidth 32) } ptr
        .ok (newPtr, h)
      else .ok (newPtr, h)

end Osiris.Heap
