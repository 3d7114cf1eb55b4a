import Osiris.Model.Tar

/-! # The virtual file system, `sys/kern/mount.c` and `sys/fs/devfs/devfs_dev.c`

Paths are addresses of strings in memory. The list of mounts is given in order, each mount with the
characters of its mountpoint before the NUL. -/

namespace Osiris.Vfs

open ByteMemory Strings Heap Tar

/-! ## State -/

/-- What the driver of a device does with a buffer. -/
abbrev DeviceOp := Word → BitVec 32 → KernelHeap → Except Fault (BitVec 32 × KernelHeap)

structure DevfsNode where
  name : List Byte
  read : Option DeviceOp
  write : Option DeviceOp

/-- What the file systems work on. -/
structure Files extends KernelHeap where
  tar : TarFs
  devfsRoot : List DevfsNode

/-- The operations of a file system, some of which may be missing. -/
structure FsOperations where
  lookup : Option (Files → Word → Option DevfsNode)
  open' : Option (ℕ → Files → Word → Except Fault (Word × Files))
  close : Option (ℕ → Files → Word → Except Fault Files)
  read : Option (ℕ → Files → Word → Word → BitVec 32 → Except Fault (BitVec 32 × Files))
  write : Option (ℕ → Files → Word → Word → BitVec 32 → Except Fault (BitVec 32 × Files))

/-! ## File systems -/

def ustarOps : FsOperations where
  lookup := none
  open' := some fun fuel s path => do
    let (handle, h) ← tarfsOpen fuel s.tar s.toKernelHeap path
    .ok (handle, { s with toKernelHeap := h })
  close := some fun fuel s handle => do
    let h ← tarfsClose fuel s.toKernelHeap handle
    .ok { s with toKernelHeap := h }
  read := some fun _ s handle buffer size =>
    let (bytes, m) := tarfsRead s.tar s.mem handle buffer size
    .ok (bytes, { s with mem := m })
  write := none

/-- The first device of the name in the list. The source compares the other way round, which is the
same for the question whether two strings are equal. -/
def devfsLookup (s : Files) (name : Word) : Option DevfsNode :=
  s.devfsRoot.find? fun node => kstrcmp s.mem name node.name = 0

/-- A device that is not there is looked for at `NULL`, where nothing is mapped. -/
def devfsRead (s : Files) (path buffer : Word) (size : BitVec 32) :
    Except Fault (BitVec 32 × Files) :=
  match devfsLookup s path with
  | none => .error (.panic "page fault")
  | some dev =>
      match dev.read with
      | some read => do
          let (bytes, h) ← read buffer size s.toKernelHeap
          .ok (bytes, { s with toKernelHeap := h })
      | none => .ok (-1#32, s)

def devfsWrite (s : Files) (node buffer : Word) (size : BitVec 32) :
    Except Fault (BitVec 32 × Files) :=
  match devfsLookup s node with
  | none => .ok (-1#32, s)
  | some dev =>
      match dev.write with
      | some write => do
          let (bytes, h) ← write buffer size s.toKernelHeap
          .ok (bytes, { s with toKernelHeap := h })
      | none => .ok (-1#32, s)

def devfsOps : FsOperations where
  lookup := some devfsLookup
  open' := none
  close := none
  read := some fun _ => devfsRead
  write := some fun _ => devfsWrite

/-- The file systems that `vfs_mount` knows. -/
inductive FsType where
  | ustar
  | devfs
deriving DecidableEq, Repr

def FsType.operations : FsType → FsOperations
  | .ustar => ustarOps
  | .devfs => devfsOps

structure Mountpoint where
  type : FsType
  mountpoint : List Byte
deriving DecidableEq, Repr

/-! ## Calls of the operations -/

/-- The calls that `vfs_read` makes, each with the place of the mount in the list. An `open` is
listed with the handle it returned. -/
inductive FsCall where
  | opened (mount : ℕ) (path handle : Word)
  | read (mount : ℕ) (name : Word)
  | closed (mount : ℕ) (handle : Word)
deriving DecidableEq, Repr

/-- The calls made so far, and the result unless one of them does not return. -/
structure Traced (α : Type) where
  calls : List FsCall
  result : Except Fault α

namespace Traced

variable {α β : Type}

protected def pure (a : α) : Traced α :=
  ⟨[], .ok a⟩

protected def bind (x : Traced α) (f : α → Traced β) : Traced β :=
  match x.result with
  | .error fault => ⟨x.calls, .error fault⟩
  | .ok a => ⟨x.calls ++ (f a).calls, (f a).result⟩

instance : Monad Traced where
  pure := Traced.pure
  bind := Traced.bind

variable {x : Traced α} {f : α → Traced β}

@[simp] theorem calls_pure (a : α) : (pure a : Traced α).calls = [] := rfl

theorem calls_bind_error {fault : Fault} (h : x.result = .error fault) :
    (x >>= f).calls = x.calls := by
  simp [Bind.bind, Traced.bind, h]

theorem calls_bind_ok {a : α} (h : x.result = .ok a) :
    (x >>= f).calls = x.calls ++ (f a).calls := by
  simp [Bind.bind, Traced.bind, h]

theorem result_bind_ok {a : α} (h : x.result = .ok a) : (x >>= f).result = (f a).result := by
  simp [Bind.bind, Traced.bind, h]

end Traced

section Calls

variable (fuel i : ℕ) (s : Files)

def callOpen (openOp : ℕ → Files → Word → Except Fault (Word × Files)) (path : Word) :
    Traced (Word × Files) :=
  match openOp fuel s path with
  | .error fault => ⟨[], .error fault⟩
  | .ok (handle, s) => ⟨[.opened i path handle], .ok (handle, s)⟩

def callRead (readOp : ℕ → Files → Word → Word → BitVec 32 → Except Fault (BitVec 32 × Files))
    (name buffer : Word) (size : BitVec 32) : Traced (BitVec 32 × Files) :=
  ⟨[.read i name], readOp fuel s name buffer size⟩

def callClose (closeOp : ℕ → Files → Word → Except Fault Files) (handle : Word) : Traced Files :=
  ⟨[.closed i handle], closeOp fuel s handle⟩

/-- `read` and then `close` on a handle. -/
def readHandle (handle buffer : Word) (size : BitVec 32)
    (readOp : ℕ → Files → Word → Word → BitVec 32 → Except Fault (BitVec 32 × Files))
    (closeOp : ℕ → Files → Word → Except Fault Files) : Traced (BitVec 32 × Files) := do
  let (bytes, s) ← callRead fuel i s readOp handle buffer size
  let s ← callClose fuel i s closeOp handle
  pure (bytes, s)

end Calls

/-! ## Paths -/

/-- The characters that a path and a mountpoint have in common from the start. -/
def commonLength (m : Mem) (path : Word) : List Byte → ℕ
  | [] => 0
  | c :: mountpoint => if m path = c then commonLength m (path + 1#64) mountpoint + 1 else 0

def Mountpoint.covers (m : Mem) (path : Word) (mp : Mountpoint) : Bool :=
  let i := commonLength m path mp.mountpoint
  let next := m (path + BitVec.ofNat 64 i)
  i = mp.mountpoint.length && (next = 0x2F#8 || next = 0#8)

/-- The path without the mountpoint and one slash. -/
def Mountpoint.relpath (m : Mem) (path : Word) (mp : Mountpoint) : Word :=
  let rest := path + BitVec.ofNat 64 mp.mountpoint.length
  if m rest = 0x2F#8 then rest + 1#64 else rest

/-- The first mount that covers the path, with its place in the list. -/
def findMount (mounts : List Mountpoint) (m : Mem) (path : Word) : Option (Mountpoint × ℕ) :=
  mounts.zipIdx.find? fun mp => mp.1.covers m path

/-! ## `vfs_read` -/

/-- The read from the mount that covers the path. -/
def readMount (fuel i : ℕ) (ops : FsOperations) (s : Files) (relpath buffer : Word)
    (size : BitVec 32) : Traced (BitVec 32 × Files) :=
  match ops.open', ops.read, ops.close with
  | some openOp, some readOp, some closeOp => do
      let (handle, s) ← callOpen fuel i s openOp relpath
      if handle = 0#64 then pure (-1#32, s)
      else readHandle fuel i s handle buffer size readOp closeOp
  | _, some readOp, _ => callRead fuel i s readOp relpath buffer size
  | _, none, _ => pure (-1#32, s)

/-- The last resort: every file system is tried in turn with the whole path. -/
def searchMounts (fuel : ℕ) (s : Files) (path buffer : Word) (size : BitVec 32) :
    ℕ → List Mountpoint → Traced (BitVec 32 × Files)
  | _, [] => pure (-1#32, s)
  | i, mp :: rest =>
      match mp.type.operations.open', mp.type.operations.read, mp.type.operations.close with
      | some openOp, some readOp, some closeOp => do
          let (handle, s) ← callOpen fuel i s openOp path
          if handle ≠ 0#64 then readHandle fuel i s handle buffer size readOp closeOp
          else callRead fuel i s readOp path buffer size
      | _, some readOp, _ => callRead fuel i s readOp path buffer size
      | _, none, _ => searchMounts fuel s path buffer size (i + 1) rest

def vfsRead (fuel : ℕ) (mounts : List Mountpoint) (s : Files) (path buffer : Word)
    (size : BitVec 32) : Traced (BitVec 32 × Files) :=
  match findMount mounts s.mem path with
  | some (mp, i) => readMount fuel i mp.type.operations s (mp.relpath s.mem path) buffer size
  | none => searchMounts fuel s path buffer size 0 mounts

/-! ## `vfs_write` and `vfs_find_node` -/

def vfsWrite (fuel : ℕ) (mounts : List Mountpoint) (s : Files) (path buffer : Word)
    (size : BitVec 32) : Except Fault (BitVec 32 × Files) :=
  if path = 0#64 then .ok (-1#32, s)
  else
    match findMount mounts s.mem path with
    | some (mp, _) =>
        match mp.type.operations.write with
        | some write => write fuel s (mp.relpath s.mem path) buffer size
        | none => .ok (-1#32, s)
    | none => .ok (-1#32, s)

/-- `none` for `NULL`. -/
def vfsFindNode (mounts : List Mountpoint) (s : Files) (path : Word) : Option DevfsNode :=
  match findMount mounts s.mem path with
  | some (mp, _) =>
      match mp.type.operations.lookup with
      | some lookup => lookup s (mp.relpath s.mem path)
      | none => none
  | none => none

end Osiris.Vfs
