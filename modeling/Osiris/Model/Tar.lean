import Osiris.Model.Heap

/-! # The file system on the ramdisk, `sys/fs/tar`

The table of files is kept apart from memory. A name in it is given by its characters before the
NUL. -/

namespace Osiris.Tar

open ByteMemory Strings Heap

/-! ## State -/

inductive FileType where
  | tarFile
  | tarDir
deriving DecidableEq, Repr

structure TarFile where
  name : List Byte
  addr : Word
  size : Word
  type : FileType
deriving DecidableEq, Repr

def maxTarFiles : ℕ := 64

/-- `tar_files` and `tar_file_count`, and where the linker puts the table. -/
structure TarFs where
  tarFilesAddr : Word
  tarFiles : ℕ → TarFile
  tarFileCount : ℕ

/-! ## `oct2bin` -/

/-- A `char` is signed, and so is its difference from `'0'`. -/
def octalDigit (c : Byte) : Word :=
  (c.signExtend 32 - 0x30#32).signExtend 64

def oct2binLoop : List Byte → Word → Word
  | [], n => n
  | c :: str, n => if c = 0#8 then n else oct2binLoop str ((n <<< 3) + octalDigit c)

/-- The bytes of a field of `size` characters. -/
def field (m : Mem) (str : Word) (size : ℕ) : List Byte :=
  (List.range size).map fun i => m (str + BitVec.ofNat 64 i)

def oct2bin (m : Mem) (str : Word) (size : ℕ) : Word :=
  oct2binLoop (field m str size) 0#64

/-! ## `tarfs_init` -/

def tarBlockSize : Word := 512#64

/-- `hdr->size`, read as a number. -/
def headerSize (m : Mem) (hdr : Word) : Word :=
  oct2bin m (hdr + 124#64) 12

def headerType (m : Mem) (hdr : Word) : FileType :=
  if m (hdr + 156#64) = 0x35#8 then .tarDir else .tarFile

/-- The loop that copies at most `left` more characters of the name, from the `i`-th on. -/
def copyName (m : Mem) (hdr : Word) : ℕ → ℕ → TarFile → TarFile
  | 0, _, tf => tf
  | left + 1, i, tf =>
      let c := m (hdr + BitVec.ofNat 64 i)
      if c = 0#8 then tf
      else copyName m hdr left (i + 1) { tf with type := headerType m hdr, name := tf.name ++ [c] }

def recordFile (m : Mem) (hdr filesize : Word) (tf : TarFile) : TarFile :=
  let tf := copyName m hdr 99 0 { tf with name := [] }
  { tf with addr := hdr + tarBlockSize, size := filesize }

/-- The file is put into the table if it has room. -/
def TarFs.addFile (t : TarFs) (m : Mem) (hdr filesize : Word) : TarFs :=
  if t.tarFileCount < maxTarFiles then
    { t with
      tarFiles := Function.update t.tarFiles t.tarFileCount
        (recordFile m hdr filesize (t.tarFiles t.tarFileCount))
      tarFileCount := t.tarFileCount + 1 }
  else t

/-- From one header to the next. -/
def totalSize (filesize : Word) : Word :=
  tarBlockSize + ((filesize + 511#64) &&& ~~~ 511#64)

def tarfsInitLoop (m : Mem) : ℕ → Word → TarFs → Except Fault TarFs
  | 0, _, _ => .error .endless
  | fuel + 1, ptr, t =>
      if m ptr = 0#8 then .ok t
      else
        let filesize := headerSize m ptr
        tarfsInitLoop m fuel (ptr + totalSize filesize) (t.addFile m ptr filesize)

def tarfsInit (fuel : ℕ) (m : Mem) (tarStart : Word) (t : TarFs) : Except Fault TarFs :=
  tarfsInitLoop m fuel tarStart { t with tarFileCount := 0 }

/-! ## Files -/

/-- The index of the first file of a name. -/
def TarFs.indexOf (t : TarFs) (m : Mem) (name : Word) : Option ℕ :=
  (List.range t.tarFileCount).find? fun i => kstrcmp m name (t.tarFiles i).name = 0

/-- The address of the file, and what is written to `size_out`. -/
def tarfsFind (t : TarFs) (m : Mem) (name : Word) : Word × Option Word :=
  match t.indexOf m name with
  | some i => ((t.tarFiles i).addr, some (t.tarFiles i).size)
  | none => (0#64, none)

/-- `&tar_files[i]`, where an entry takes 128 bytes. -/
def TarFs.fileAddr (t : TarFs) (i : ℕ) : Word :=
  t.tarFilesAddr + BitVec.ofNat 64 (128 * i)

/-- `file->addr` and `file->size`. A pointer that does not point to an entry of the table is
followed into memory. -/
def TarFs.fileAt (t : TarFs) (m : Mem) (file : Word) : Word × Word :=
  let offset := (file - t.tarFilesAddr).toNat
  if offset % 128 = 0 ∧ offset / 128 < maxTarFiles then
    ((t.tarFiles (offset / 128)).addr, (t.tarFiles (offset / 128)).size)
  else (load64 m (file + 104#64), load64 m (file + 112#64))

/-- The handle is a pointer to the address of the file and the offset in it. -/
def tarfsRead (t : TarFs) (m : Mem) (handle buf : Word) (bufsize : BitVec 32) : BitVec 32 × Mem :=
  if handle = 0#64 ∨ load64 m handle = 0#64 then (0#32, m)
  else
    let (addr, size) := t.fileAt m (load64 m handle)
    let offset := load64 m (handle + 8#64)
    let remaining := size - offset
    let bufsize := if bufsize.signExtend 64 > remaining then remaining.setWidth 32 else bufsize
    let m := memcpy m buf (addr + offset) bufsize
    (bufsize, store64 m (handle + 8#64) (load64 m (handle + 8#64) + bufsize.signExtend 64))

def tarfsOpen (fuel : ℕ) (t : TarFs) (h : KernelHeap) (file : Word) :
    Except Fault (Word × KernelHeap) :=
  match t.indexOf h.mem file with
  | none => .ok (0#64, h)
  | some i =>
      if (t.tarFiles i).type ≠ .tarFile then .ok (0#64, h)
      else do
        let (handle, h) ← kmalloc fuel h 16#64
        if handle = 0#64 then .ok (0#64, h)
        else .ok (handle, (h.store handle (t.fileAddr i)).store (handle + 8#64) 0#64)

def tarfsClose (fuel : ℕ) (h : KernelHeap) (fd : Word) : Except Fault KernelHeap :=
  if fd = 0#64 then .ok h else kfree fuel h fd

end Osiris.Tar
