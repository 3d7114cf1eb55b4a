import Osiris.Model.MountList

/-! # The device list in memory, `sys/fs/devfs/devfs_dev.c`

A `devfs_node_t` has 40 bytes: `name` at 0, `ops` at 16, `data` at 24 and `next` at 32. The `read`
of an `fs_operations_t` is at 24 and its `write` at 32. -/

namespace Osiris.Devfs

open ByteMemory Strings Heap Vfs

/-- The heap with `devfs_root`. -/
structure DevfsTable extends KernelHeap where
  devfsRoot : Word

/-- The size of the array `name`. -/
def nameLength : ℕ := 12

/-- What the code at an address does with the data of a device, a buffer and its size. -/
abbrev DriverCode := Word → Word → DeviceOp

def devfsRegister (fuel : ℕ) (s : DevfsTable) (name ops data : Word) :
    Except Fault DevfsTable := do
  let (node, h) ← kmalloc fuel s.toKernelHeap 40#64
  if node = 0#64 then .error (.panic "devfs: failed to allocate node")
  else
    let m ← kstrcpy fuel h.mem node name
    let m := store64 m (node + 16#64) ops
    let m := store64 m (node + 24#64) data
    let m := store64 m (node + 32#64) s.devfsRoot
    .ok { toKernelHeap := { h with mem := m }, devfsRoot := node }

def devfsLookupLoop (fuel : ℕ) (m : Mem) (name : Word) : ℕ → Word → Except Fault Word
  | 0, _ => .error .endless
  | k + 1, cur =>
      if cur = 0#64 then .ok 0#64
      else do
        let order ← kstrcmpAt m fuel cur name
        if order = 0 then .ok cur
        else devfsLookupLoop fuel m name k (load64 m (cur + 32#64))

def devfsLookup (fuel : ℕ) (s : DevfsTable) (name : Word) : Except Fault Word :=
  devfsLookupLoop fuel s.mem name fuel s.devfsRoot

/-- `if (dev->ops && dev->ops->op) return dev->ops->op (dev->data, buffer, size); return -1;`, with
the place of the operation in the table. -/
def callOperation (call : DriverCode) (s : DevfsTable) (op dev buffer : Word) (size : BitVec 32) :
    Except Fault (BitVec 32 × DevfsTable) :=
  let ops := load64 s.mem (dev + 16#64)
  if ops ≠ 0#64 ∧ load64 s.mem (ops + op) ≠ 0#64 then do
    let (bytes, h) ← call (load64 s.mem (ops + op)) (load64 s.mem (dev + 24#64)) buffer size
      s.toKernelHeap
    .ok (bytes, { s with toKernelHeap := h })
  else .ok (-1#32, s)

/-- There is no check of `dev`, and nothing is mapped at `NULL`. -/
def devfsRead (call : DriverCode) (fuel : ℕ) (s : DevfsTable) (path buffer : Word)
    (size : BitVec 32) : Except Fault (BitVec 32 × DevfsTable) := do
  let dev ← devfsLookup fuel s path
  if dev = 0#64 then .error (.panic "page fault")
  else callOperation call s 24#64 dev buffer size

def devfsWrite (call : DriverCode) (fuel : ℕ) (s : DevfsTable) (node buffer : Word)
    (size : BitVec 32) : Except Fault (BitVec 32 × DevfsTable) := do
  let dev ← devfsLookup fuel s node
  if dev = 0#64 then .ok (-1#32, s)
  else callOperation call s 32#64 dev buffer size

end Osiris.Devfs
