import Osiris.Library.Ownership
import Osiris.Library.Transition
import Osiris.Model.Kernel
import Osiris.Verification.Atkbd.Fifo
import Osiris.Verification.Heap.Contents
import Osiris.Verification.Sched.Switch
import Osiris.Verification.Sched.Table
import Osiris.Verification.Tar.Chunks
import Osiris.Verification.Tar.Decode
import Osiris.Verification.Vfs.Devices
import Osiris.Verification.Vfs.Mount

/-! # Five users of one heap

The list of mounts, the list of devices, the open files, the stacks of processes and the keyboard
buffer are in blocks of their own. Each follows an abstract machine that knows nothing about the
others. -/

namespace Osiris.Kernel

open ByteMemory Blocks LinkedList Strings Heap Vfs Devfs Tar Sched Ownership

/-! ## The abstract machines -/

/-- A file of the archive that has been read up to an offset. -/
structure OpenFile where
  block : Block
  file : Member
  offset : ℕ

/-- A process that has not run yet. -/
structure NewProc where
  block : Block
  entryPoint : Word
deriving DecidableEq, Repr

structure Owned where
  live : List Block
  mounts : List MountNode
  devices : List Device
  files : List OpenFile
  procs : List NewProc
  buffer : Block
  added : List Byte
  returned : List Byte

/-- A call whose texts are given by their characters. -/
inductive Request where
  | mount (device target type : List Byte)
  | umount (device target : Option (List Byte))
  | register (r : Registration)
  | lookup (name : List Byte)
  | openFile (name : List Byte)
  | read (handle : Word) (size : ℕ)
  | close (handle : Word)
  | create (entryPoint : Word)
  | addChar (ch : Byte)
  | getChar
  | execute
deriving DecidableEq, Repr

/-- What a call returns, and what it puts into the buffer of the caller. -/
structure Response where
  value : Word
  bytes : List Byte
deriving DecidableEq, Repr

def Response.null : Response :=
  ⟨0#64, []⟩

/-- What a read delivers. -/
def OpenFile.next (f : OpenFile) (size : ℕ) : List Byte :=
  (f.file.contents.drop f.offset).take size

def OpenFile.advance (f : OpenFile) (size : ℕ) : OpenFile :=
  { f with offset := f.offset + (f.next size).length }

/-- There is room for a payload of that many bytes. -/
def Owned.HasRoom (o : Owned) (size : Word) : Prop :=
  ∃ a, HeapGap o.live ⟨a, need size⟩

/-- What the allocator gives for a request of that many bytes. -/
structure Owned.Gives (o : Owned) (size : Word) (b : Block) : Prop where
  room : o.HasRoom size
  new : b ∉ o.live
  size : b.size = need size

/-- A request with the response to it. None concerns more than one of the five users. -/
inductive Acts (disk : List Member) : Owned → Request × Response → Owned → Prop where
  | mountRefused {o device target type} (hfull : ¬ o.HasRoom 208#64) :
      Acts disk o (.mount device target type, .null) o
  | mount {o device target type b} (hb : o.Gives 208#64 b) :
      Acts disk o (.mount device target type, .null)
        { o with
          live := b :: o.live
          mounts := if Supported type then o.mounts ++ [⟨b, device, target, type⟩] else o.mounts }
  | umountNone {o device target} (hnone : ∀ n ∈ o.mounts, ¬ n.Matches device target) :
      Acts disk o (.umount device target, .null) o
  | umount {o device target before n after} (hmounts : o.mounts = before ++ n :: after)
      (hmatch : n.Matches device target) (hfirst : ∀ p ∈ before, ¬ p.Matches device target) :
      Acts disk o (.umount device target, .null)
        { o with live := o.live.erase n.block, mounts := before ++ after }
  | register {o r b} (hb : o.Gives 40#64 b) :
      Acts disk o (.register r, .null)
        { o with live := b :: o.live, devices := ⟨b, r⟩ :: o.devices }
  | lookup {o name} : Acts disk o (.lookup name,
      ⟨((o.devices.find? fun d => d.registration.text = name).map Device.ptr).getD 0#64, []⟩) o
  | openMissing {o name} (hnone : ∀ f ∈ disk, f.name ≠ name) :
      Acts disk o (.openFile name, .null) o
  | openDirectory {o name f} (hfind : disk.find? (fun f => f.name = name) = some f)
      (hdir : f.typeflag = 0x35#8) : Acts disk o (.openFile name, .null) o
  | openRefused {o name f} (hfind : disk.find? (fun f => f.name = name) = some f)
      (hfull : ¬ o.HasRoom 16#64) : Acts disk o (.openFile name, .null) o
  | openFile {o name f b} (hfind : disk.find? (fun f => f.name = name) = some f)
      (hfile : f.typeflag ≠ 0x35#8) (hb : o.Gives 16#64 b) :
      Acts disk o (.openFile name, ⟨payload b, []⟩)
        { o with live := b :: o.live, files := ⟨b, f, 0⟩ :: o.files }
  | read {o before f after size} (hfiles : o.files = before ++ f :: after) :
      Acts disk o
        (.read (payload f.block) size, ⟨BitVec.ofNat 64 (f.next size).length, f.next size⟩)
        { o with files := before ++ f.advance size :: after }
  | close {o before f after} (hfiles : o.files = before ++ f :: after) :
      Acts disk o (.close (payload f.block), .null)
        { o with live := o.live.erase f.block, files := before ++ after }
  | createRefused {o entryPoint} (hfull : maxProc ≤ o.procs.length + 1) :
      Acts disk o (.create entryPoint, .null) o
  | create {o entryPoint b} (hfew : o.procs.length + 1 < maxProc) (hb : o.Gives stackSize b) :
      Acts disk o (.create entryPoint, .null)
        { o with live := b :: o.live, procs := o.procs ++ [⟨b, entryPoint⟩] }
  | addChar {o ch} :
      Acts disk o (.addChar ch, .null) { o with added := o.added ++ [ch] }
  | getChar {o ch} (hnext : o.added[o.returned.length]? = some ch) :
      Acts disk o (.getChar, ⟨ch.setWidth 64, []⟩) { o with returned := o.returned ++ [ch] }
  | execute {o} : Acts disk o (.execute, .null) o

/-! ## Owners -/

/-- Where the payload of a block is. -/
def area (b : Block) : Set Word :=
  {x | InRange (payload b) (b.size - 8) x}

theorem mem_area {b : Block} {n : ℕ} (hn : n + 8 ≤ b.size) {x : Word}
    (hx : InRange (payload b) n x) : x ∈ area b :=
  inRange_mono hx (by omega)

def mountOwner (root : Word) (mounts : List MountNode) : Owner area Byte where
  blocks := mounts.map MountNode.block
  Holds m := Chain m 200#64 root (mounts.map MountNode.ptr) 0#64 ∧
    ∀ n ∈ mounts, 216 ≤ n.block.size ∧ Vfs.NodeAt m n
  stable := by
    rintro m m' hsame ⟨hchain, hnodes⟩
    have hnode : ∀ n ∈ mounts, ∀ x, InRange n.ptr 208 x → m' x = m x := fun n hn x hx =>
      hsame n.block (List.mem_map_of_mem hn) x (mem_area (hnodes n hn).1 hx)
    refine ⟨hchain.congr fun a ha => ?_, fun n hn => ⟨(hnodes n hn).1, ?_⟩⟩
    · obtain ⟨n, hn, rfl⟩ := List.mem_map.mp ha
      exact load64_congr fun x hx => hnode n hn x (inRange_link hx)
    · exact (hnodes n hn).2.congr fun x hx => hnode n hn x (inRange_mono hx (by norm_num))

def deviceOwner (root : Word) (devices : List Device) : Owner area Byte where
  blocks := devices.map Device.block
  Holds m := Chain m 32#64 root (devices.map Device.ptr) 0#64 ∧
    ∀ d ∈ devices, 48 ≤ d.block.size ∧ Devfs.NodeAt m d.ptr d.registration
  stable := by
    rintro m m' hsame ⟨hchain, hnodes⟩
    have hnode : ∀ d ∈ devices, ∀ x, InRange d.ptr 40 x → m' x = m x := fun d hd x hx =>
      hsame d.block (List.mem_map_of_mem hd) x (mem_area (hnodes d hd).1 hx)
    refine ⟨hchain.congr fun a ha => ?_, fun d hd => ⟨(hnodes d hd).1, ?_⟩⟩
    · obtain ⟨d, hd, rfl⟩ := List.mem_map.mp ha
      exact load64_congr fun x hx =>
        hnode d hd x (inRange_field hx (by norm_num) (by norm_num))
    · exact (hnodes d hd).2.congr (hnode d hd)

/-- A handle leads to the entry of its file and has its offset. -/
structure HandleAt (disk : List Member) (tar : TarFs) (m : Mem) (f : OpenFile) : Prop where
  room : 32 ≤ f.block.size
  offset_le : f.offset ≤ f.file.contents.length
  handle : ∃ k, ∃ hk : k < disk.length, disk[k] = f.file ∧
    IsHandle tar m (payload f.block) k (BitVec.ofNat 64 f.offset)

theorem HandleAt.congr {disk : List Member} {tar : TarFs} {m m' : Mem} {f : OpenFile}
    (h : HandleAt disk tar m f) (hsame : ∀ x ∈ area f.block, m' x = m x) :
    HandleAt disk tar m' f := by
  have hroom := h.room
  obtain ⟨k, hk, hfile, hhandle⟩ := h.handle
  have hwords : ∀ x, InRange (payload f.block) 16 x → m' x = m x := fun x hx =>
    hsame x (mem_area (by omega) hx)
  refine ⟨hroom, h.offset_le, k, hk, hfile, ?_, ?_⟩
  · rw [← hhandle.file]
    exact load64_congr fun x hx => hwords x (inRange_mono hx (by norm_num))
  · rw [← hhandle.offset]
    exact load64_congr fun x hx => hwords x (inRange_next hx)

def fileOwner (disk : List Member) (tar : TarFs) (files : List OpenFile) : Owner area Byte where
  blocks := files.map OpenFile.block
  Holds m := ∀ f ∈ files, HandleAt disk tar m f
  stable := fun hsame hfiles f hf =>
    (hfiles f hf).congr (hsame f.block (List.mem_map_of_mem hf))

/-- The lowest word on the stack of a process that has not run. -/
def NewProc.rsp (p : NewProc) : Word :=
  payload p.block + stackSize - 128#64

def procOwner (procs : List NewProc) : Owner area Byte where
  blocks := procs.map NewProc.block
  Holds m := ∀ p ∈ procs, 4104 ≤ p.block.size ∧
    Words m p.rsp (Swtch.frame (fun _ => 0#64) p.entryPoint)
  stable := by
    intro m m' hsame hprocs p hp
    obtain ⟨hsize, hwords⟩ := hprocs p hp
    refine ⟨hsize, hwords.congr (by rw [Swtch.length_frame]; norm_num) fun x hx => ?_⟩
    exact hsame p.block (List.mem_map_of_mem hp) x (mem_area hsize (Swtch.inRange_initialFrame hx))

def bufferOwner (buffer : Block) (added : List Byte) : Owner area Byte where
  blocks := [buffer]
  Holds m := 4104 ≤ buffer.size ∧ added.length ≤ 4096 ∧
    ∀ j (hj : j < added.length), m (payload buffer + BitVec.ofNat 64 j) = added[j]
  stable := by
    rintro m m' hsame ⟨hsize, hlength, hchars⟩
    refine ⟨hsize, hlength, fun j hj => ?_⟩
    rw [← hchars j hj]
    exact hsame buffer List.mem_cons_self _
      (mem_area hsize (inRange_add (n := 4096) _ (by omega) (by norm_num)))

inductive User where
  | mounts
  | devices
  | files
  | procs
  | buffer
deriving DecidableEq, Repr

def owners (disk : List Member) (k : State) (o : Owned) : User → Owner area Byte
  | .mounts => mountOwner k.mountpointsRoot o.mounts
  | .devices => deviceOwner k.devfsRoot o.devices
  | .files => fileOwner disk k.tar o.files
  | .procs => procOwner o.procs
  | .buffer => bufferOwner o.buffer o.added

/-! ## The kernel and its callers -/

/-- The kernel, and the handles that have been opened and not closed. -/
structure Session where
  kernel : State
  held : List Word

/-- A string that is not on the heap. -/
structure Literal (m : Mem) (p : Word) (text : List Byte) : Prop where
  ne_null : p ≠ 0#64
  string : StringAt m p text
  outside : ∀ x, InRange p (text.length + 1) x → Outside x

/-- The memory that the files of the archive are in. -/
def InArchive (tar : TarFs) (x : Word) : Prop :=
  ∃ i < tar.tarFileCount, InRange (tar.tarFiles i).addr (tar.tarFiles i).size.toNat x

/-- `proc_create` writes to a stack that `kmalloc` did not give. -/
def State.HasStack (fuel : ℕ) (k : State) : Prop :=
  maxProc ≤ k.procCount ∨
    ∃ stack h, kmalloc fuel k.toKernelHeap stackSize = .ok (stack, h) ∧ stack ≠ 0#64

/-- A call and what it asks for. The caller keeps to what the call relies on. -/
inductive Means (fuel : ℕ) (t : Session) : Call → Request → Prop where
  | vfsMount {device target fsType deviceText targetText typeText}
      (hdevice : Literal t.kernel.mem device deviceText)
      (htarget : Literal t.kernel.mem target targetText)
      (htype : Literal t.kernel.mem fsType typeText) (hfits : Fits deviceText targetText typeText) :
      Means fuel t (.vfsMount device target fsType) (.mount deviceText targetText typeText)
  | vfsUmount {device target dev tgt} (hdev : Argument t.kernel.mem device dev)
      (htgt : Argument t.kernel.mem target tgt) :
      Means fuel t (.vfsUmount device target) (.umount dev tgt)
  | devfsRegister {r : Registration} (hname : Literal t.kernel.mem r.name r.text)
      (hfits : r.text.length < 16) :
      Means fuel t (.devfsRegister r.name r.ops r.data) (.register r)
  | devfsLookup {name text} (hname : StringAt t.kernel.mem name text) :
      Means fuel t (.devfsLookup name) (.lookup text)
  | tarfsOpen {path name} (hpath : StringAt t.kernel.mem path name) :
      Means fuel t (.tarfsOpen path) (.openFile name)
  | tarfsRead {handle buf} {bufsize : BitVec 32} (hheld : handle ∈ t.held)
      (hsize : bufsize.toNat < 2 ^ 31)
      (hbuf : ∀ x, InRange buf bufsize.toNat x → Outside x ∧ ¬ InArchive t.kernel.tar x) :
      Means fuel t (.tarfsRead handle buf bufsize) (.read handle bufsize.toNat)
  | tarfsClose {handle} (hheld : handle ∈ t.held) :
      Means fuel t (.tarfsClose handle) (.close handle)
  | procCreate {entryPoint} (hstack : t.kernel.HasStack fuel) :
      Means fuel t (.procCreate entryPoint) (.create entryPoint)
  | atkbdAddBuffer {ch} (hroom : t.kernel.bufferEnd.toNat < 4096) :
      Means fuel t (.atkbdAddBuffer ch) (.addChar ch)
  | atkbdGetChar (hready : t.kernel.bufferStart ≠ t.kernel.bufferEnd)
      (hfew : t.kernel.bufferStart.toNat + 1 < 4096) :
      Means fuel t .atkbdGetChar .getChar
  | execute {mem : Mem}
      (hkept : ∀ x, ¬ Outside x ∨ InArchive t.kernel.tar x → mem x = t.kernel.mem x) :
      Means fuel t (.execute mem) .execute

/-- What a call may write to outside the heap. -/
def Call.MayWrite (x : Word) : Call → Prop
  | .tarfsRead _ buf bufsize => InRange buf bufsize.toNat x
  | .execute _ => True
  | _ => False

/-- The bytes that a call has put into the buffer of its caller. -/
def Call.delivered (m : Mem) (value : Word) : Call → List Byte
  | .tarfsRead _ buf _ => field m buf value.toNat
  | _ => []

/-- The handles that are open after a call. -/
def Call.holds (held : List Word) (value : Word) : Call → List Word
  | .tarfsOpen _ => if value = 0#64 then held else value :: held
  | .tarfsClose handle => held.filter (· ≠ handle)
  | _ => held

/-- A call that returns. -/
def Step (opsAddr : FsType → Word) (fuel : ℕ) (t : Session) (label : Request × Response)
    (t' : Session) : Prop :=
  ∃ call value, Means fuel t call label.1 ∧
    t.kernel.call opsAddr fuel call = .ok (value, t'.kernel) ∧
    label.2 = ⟨value, call.delivered t'.kernel.mem value⟩ ∧ t'.held = call.holds t.held value

/-! ## What the kernel keeps -/

/-- The table has the files of the disk, whose bytes are in memory but not on the heap. -/
structure OnDisk (tar : TarFs) (m : Mem) (disk : List Member) : Prop where
  placed : tar.Placed
  count : tar.tarFileCount = disk.length
  name : ∀ i (hi : i < disk.length), (tar.tarFiles i).name = disk[i].name
  type : ∀ i (hi : i < disk.length), (tar.tarFiles i).type = .tarDir ↔ disk[i].typeflag = 0x35#8
  contents : ∀ i (hi : i < disk.length), tar.HasContents m i disk[i].contents
  outside : ∀ x, InArchive tar x → Outside x

/-- What each user has said holds, in blocks that are nobody else's. -/
structure Represents (disk : List Member) (t : Session) (o : Owned) : Prop where
  heap : ∃ free, HeapInv t.kernel.toKernelHeap o.live free
  shared : Shared o.live t.kernel.mem (owners disk t.kernel o)
  disk : OnDisk t.kernel.tar t.kernel.mem disk
  held : ∀ p ∈ t.held, ∃ f ∈ o.files, payload f.block = p
  procCount : t.kernel.procCount = o.procs.length + 1
  slots : ∀ i (hi : i < o.procs.length),
    t.kernel.procTable (i + 1) = newProc (i + 1) (payload o.procs[i].block)
  keyBuffer : t.kernel.keyBuffer = payload o.buffer
  bufferStart : t.kernel.bufferStart = BitVec.ofNat 32 o.returned.length
  bufferEnd : t.kernel.bufferEnd = BitVec.ofNat 32 o.added.length
  in_order : o.returned <+: o.added

end Osiris.Kernel
