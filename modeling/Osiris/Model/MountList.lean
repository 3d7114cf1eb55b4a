import Osiris.Model.Mount

/-! # The list of mounts, `sys/kern/mount.c`

`vfs_mount` and `vfs_umount` on the heap, and the search for the mount of a path. A `mountpoint_t`
has 208 bytes: `type` at 0, `device` at 32, `mountpoint` at 96, `operations` at 160 and `next` at
200. -/

namespace Osiris.Vfs

open ByteMemory Strings Heap

/-- The heap with `mountpoints_root`. -/
structure MountTable extends KernelHeap where
  mountpointsRoot : Word

def vfsTypeLength : ℕ := 32

def vfsPathLength : ℕ := 64

/-! ## Strings of `sys/lib` -/

def kstrcpy : ℕ → Mem → Word → Word → Except Fault Mem
  | 0, _, _, _ => .error .endless
  | fuel + 1, m, dst, src =>
      let c := m src
      let m := setByte m dst c
      if c = 0#8 then .ok m else kstrcpy fuel m (dst + 1#64) (src + 1#64)

/-- `kstrcmp` of two strings in memory. -/
def kstrcmpAt (m : Mem) : ℕ → Word → Word → Except Fault ℤ
  | 0, _, _ => .error .endless
  | fuel + 1, s1, s2 =>
      if m s1 ≠ 0#8 ∧ m s1 = m s2 then kstrcmpAt m fuel (s1 + 1#64) (s2 + 1#64)
      else .ok ((m s1).toNat - (m s2).toNat)

/-- The loop of `kstrlen`. -/
def kstrlenLoop (m : Mem) (s : Word) : ℕ → ℕ → Except Fault ℕ
  | 0, _ => .error .endless
  | fuel + 1, i =>
      if m (s + BitVec.ofNat 64 i) ≠ 0#8 then kstrlenLoop m s fuel (i + 1) else .ok i

def kstrlen (fuel : ℕ) (m : Mem) (s : Word) : Except Fault ℕ :=
  kstrlenLoop m s fuel 0

/-! ## Nodes -/

/-- The node is left without `operations`, which `vfs_mount` fills in. -/
def vfsCreateMountpoint (fuel : ℕ) (s : MountTable) (device target type : Word) :
    Except Fault (Word × MountTable) := do
  let (mp, h) ← kmalloc fuel s.toKernelHeap 208#64
  if mp = 0#64 then .ok (0#64, { s with toKernelHeap := h })
  else
    let m ← kstrcpy fuel h.mem (mp + 32#64) device
    let m ← kstrcpy fuel m (mp + 96#64) target
    let m ← kstrcpy fuel m mp type
    .ok (mp, { s with toKernelHeap := { h with mem := store64 m (mp + 200#64) 0#64 } })

/-- The loop `while (cur->next && cur->next != mp)`. With `NULL` for `mp` it is the loop
`while (cur->next)`. -/
def followNext (m : Mem) (mp : Word) : ℕ → Word → Except Fault Word
  | 0, _ => .error .endless
  | fuel + 1, cur =>
      let next := load64 m (cur + 200#64)
      if next ≠ 0#64 ∧ next ≠ mp then followNext m mp fuel next else .ok cur

def vfsAddMountpoint (fuel : ℕ) (s : MountTable) (mp : Word) : Except Fault (Word × MountTable) :=
  if s.mountpointsRoot = 0#64 then .ok (mp, { s with mountpointsRoot := mp })
  else do
    let cur ← followNext s.mem 0#64 fuel s.mountpointsRoot
    .ok (mp, { s with mem := store64 s.mem (cur + 200#64) mp })

def vfsRemoveMountpoint (fuel : ℕ) (s : MountTable) (mp : Word) : Except Fault MountTable :=
  if s.mountpointsRoot = 0#64 ∨ mp = 0#64 then .ok s
  else if s.mountpointsRoot = mp then do
    let h ← kfree fuel s.toKernelHeap mp
    .ok { toKernelHeap := h, mountpointsRoot := load64 s.mem (mp + 200#64) }
  else do
    let prev ← followNext s.mem mp fuel s.mountpointsRoot
    if load64 s.mem (prev + 200#64) = mp then
      let h ← kfree fuel
        { s.toKernelHeap with
          mem := store64 s.mem (prev + 200#64) (load64 s.mem (mp + 200#64)) } mp
      .ok { s with toKernelHeap := h }
    else .ok s

/-! ## `vfs_mount` -/

/-- The text that `vfs_mount` knows a file system by. -/
def FsType.name : FsType → List Byte
  | .ustar => [0x75#8, 0x73#8, 0x74#8, 0x61#8, 0x72#8]
  | .devfs => [0x64#8, 0x65#8, 0x76#8, 0x66#8, 0x73#8]

/-- The assignment to `operations` is a copy of `ustar_ops` or `devfs_ops`, which are at
`opsAddr`. -/
def vfsMount (opsAddr : FsType → Word) (fuel : ℕ) (s : MountTable) (device target fsType : Word) :
    Except Fault MountTable := do
  let (mp, s) ← vfsCreateMountpoint fuel s device target fsType
  if mp = 0#64 then .ok s
  else if kstrcmp s.mem fsType FsType.ustar.name = 0 then
    let (_, s) ← vfsAddMountpoint fuel
      { s with mem := copyUp s.mem (mp + 160#64) (opsAddr .ustar) 40 } mp
    .ok s
  else if kstrcmp s.mem fsType FsType.devfs.name = 0 then
    let (_, s) ← vfsAddMountpoint fuel
      { s with mem := copyUp s.mem (mp + 160#64) (opsAddr .devfs) 40 } mp
    .ok s
  else .ok s

/-! ## `vfs_umount` -/

/-- `arg && kstrcmp (field, arg) == 0`. -/
def matchesArg (fuel : ℕ) (m : Mem) (field arg : Word) : Except Fault Bool :=
  if arg = 0#64 then .ok false
  else do
    let order ← kstrcmpAt m fuel field arg
    .ok (order = 0)

def vfsUmountLoop (fuel : ℕ) (s : MountTable) (device target : Word) :
    ℕ → Word → Except Fault MountTable
  | 0, _ => .error .endless
  | k + 1, cur =>
      if cur = 0#64 then .ok s
      else do
        let devMatch ← matchesArg fuel s.mem (cur + 32#64) device
        let tgtMatch ← matchesArg fuel s.mem (cur + 96#64) target
        if devMatch || tgtMatch then vfsRemoveMountpoint fuel s cur
        else vfsUmountLoop fuel s device target k (load64 s.mem (cur + 200#64))

def vfsUmount (fuel : ℕ) (s : MountTable) (device target : Word) : Except Fault MountTable :=
  vfsUmountLoop fuel s device target fuel s.mountpointsRoot

/-! ## The search of `vfs_find_node`, `vfs_write` and `vfs_read` -/

/-- `for (i = 0; i < mount_len; i++) if (path[i] != mp->mountpoint[i]) break;`, with the rounds that
are left. -/
def commonLengthLoop (m : Mem) (path mountpoint : Word) : ℕ → ℕ → ℕ
  | 0, i => i
  | rounds + 1, i =>
      if m (path + BitVec.ofNat 64 i) ≠ m (mountpoint + BitVec.ofNat 64 i) then i
      else commonLengthLoop m path mountpoint rounds (i + 1)

/-- The node that the path goes to, with `relpath`. -/
def findMountpointLoop (fuel : ℕ) (m : Mem) (path : Word) :
    ℕ → Word → Except Fault (Option (Word × Word))
  | 0, _ => .error .endless
  | k + 1, mp =>
      if mp = 0#64 then .ok none
      else do
        let mountLen ← kstrlen fuel m (mp + 96#64)
        let i := commonLengthLoop m path (mp + 96#64) mountLen 0
        let next := m (path + BitVec.ofNat 64 i)
        if i = mountLen ∧ (next = 0x2F#8 ∨ next = 0#8) then
          let relpath := path + BitVec.ofNat 64 mountLen
          .ok (some (mp, if m relpath = 0x2F#8 then relpath + 1#64 else relpath))
        else findMountpointLoop fuel m path k (load64 m (mp + 200#64))

def findMountpoint (fuel : ℕ) (s : MountTable) (path : Word) :
    Except Fault (Option (Word × Word)) :=
  findMountpointLoop fuel s.mem path fuel s.mountpointsRoot

end Osiris.Vfs
