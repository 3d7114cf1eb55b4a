import Osiris.Library.Bitmap
import Osiris.Model.Strings

/-! # The physical memory manager, `sys/arch/x86_64/page.c`

One bit per physical frame, set when the frame is in use. Frames are handed out through the
direct map: physical address `p` is accessed at virtual address `p + VMM_HIGHER_HALF`. -/

namespace Osiris.Page

open ByteMemory Strings

/-! ## Boot information -/

/-- `LIMINE_MEMMAP_*`; the frame allocator tells only two of the types apart from the rest. -/
inductive MemmapType where
  | usable
  | bootloaderReclaimable
  | other (code : Word)
deriving DecidableEq, Repr

structure MemmapEntry where
  base : Word
  length : Word
  type : MemmapType
deriving DecidableEq, Repr

structure KernelAddress where
  physicalBase : Word
  virtualBase : Word
deriving DecidableEq, Repr

/-- Addresses that the linker gives to the symbols `pmm_init` reads. -/
structure KernelImage where
  textStart : Word
  bssEnd : Word
  memoryBitmap : Word
deriving DecidableEq, Repr

/-! ## State -/

def pmmBitmapSize : ℕ := 1024 * 1024

structure Pmm where
  memoryBitmap : Bitmap
  highestPage : ℕ
  usedPages : Word
  freePages : Word
  totalRamPages : Word

/-- The frame allocator and the memory it clears frames in. -/
structure Machine where
  pmm : Pmm
  mem : Mem

def alignUp (value align : Word) : Word :=
  (value + align - 1#64) &&& ~~~ (align - 1#64)

def alignDown (value align : Word) : Word :=
  value &&& ~~~ (align - 1#64)

/-! ## Initialisation -/

/-- The greatest top of a memory-map entry, as a 64-bit sum. -/
def highestAddr (entries : List MemmapEntry) : Word :=
  entries.foldl (fun highest entry =>
    let top := entry.base + entry.length
    if top > highest then top else highest) 0#64

/-- `highest_page`, clamped to the capacity of the bitmap. -/
def clampedHighestPage (entries : List MemmapEntry) : ℕ :=
  let highestPage := (highestAddr entries).toNat / 4096
  let maxBitmapPages := pmmBitmapSize * 8
  if highestPage ≥ maxBitmapPages then maxBitmapPages - 1 else highestPage

/-- The values of `page_idx` in `for (page_idx = first; page_idx < last; ++page_idx)`. -/
def pageRange (first last : ℕ) : List ℕ :=
  List.range' first (last - first)

/-- Body of the loop that gives usable pages to the allocator. -/
def releasePage (pmm : Pmm) (pageIdx : ℕ) : Pmm :=
  if pageIdx ≤ pmm.highestPage then
    if pmm.memoryBitmap.get pageIdx then
      { pmm with
        memoryBitmap := pmm.memoryBitmap.clear pageIdx
        totalRamPages := pmm.totalRamPages + 1#64 }
    else pmm
  else pmm

/-- Body of the three loops that take pages back for the kernel. -/
def reservePage (pmm : Pmm) (pageIdx : ℕ) : Pmm :=
  if pageIdx ≤ pmm.highestPage then
    { pmm with
      freePages := if pmm.memoryBitmap.get pageIdx then pmm.freePages else pmm.freePages - 1#64
      memoryBitmap := pmm.memoryBitmap.set pageIdx }
  else pmm

/-- The pages of a memory-map entry that are released: those wholly inside an entry of one of
the two types of free memory. -/
def entryPages (entry : MemmapEntry) : List ℕ :=
  if entry.type = .usable ∨ entry.type = .bootloaderReclaimable then
    let base := alignUp entry.base 4096#64
    let top := alignDown (entry.base + entry.length) 4096#64
    if top ≤ base then [] else pageRange (base.toNat / 4096) (top.toNat / 4096)
  else []

/-- The kernel image occupies `[k_phys_start, k_phys_end)`. -/
def kPhysStart (kaddr : KernelAddress) : Word :=
  kaddr.physicalBase

def kPhysEnd (kaddr : KernelAddress) (image : KernelImage) : Word :=
  let kSize := image.bssEnd - image.textStart
  kPhysStart kaddr + alignUp kSize 4096#64

def kernelPages (kaddr : KernelAddress) (image : KernelImage) : List ℕ :=
  pageRange ((kPhysStart kaddr).toNat / 4096) ((kPhysEnd kaddr image).toNat / 4096)

/-- The bitmap occupies `[bitmap_phys_start, bitmap_phys_end)`. -/
def bitmapPhysStart (kaddr : KernelAddress) (image : KernelImage) : Word :=
  image.memoryBitmap - kaddr.virtualBase + kaddr.physicalBase

def bitmapPhysEnd (kaddr : KernelAddress) (image : KernelImage) : Word :=
  bitmapPhysStart kaddr image + BitVec.ofNat 64 pmmBitmapSize

def bitmapPages (kaddr : KernelAddress) (image : KernelImage) : List ℕ :=
  pageRange ((bitmapPhysStart kaddr image).toNat / 4096)
    ((bitmapPhysEnd kaddr image + 4096#64 - 1#64).toNat / 4096)

def pagesBelow1mb : List ℕ :=
  pageRange 0 (0x100000 / 4096)

/-- The allocator after every usable page has been released. -/
def releaseAll (entries : List MemmapEntry) : Pmm :=
  entries.foldl (fun pmm entry => (entryPages entry).foldl releasePage pmm)
    { memoryBitmap := fun _ => 0xFF#8
      highestPage := clampedHighestPage entries
      usedPages := 0#64
      freePages := 0#64
      totalRamPages := 0#64 }

/-- The three loops that take back the kernel image, the bitmap and the first mebibyte. -/
def reserveAll (kaddr : KernelAddress) (image : KernelImage) (pmm : Pmm) : Pmm :=
  pagesBelow1mb.foldl reservePage
    ((bitmapPages kaddr image).foldl reservePage
      ((kernelPages kaddr image).foldl reservePage pmm))

/-- `free_pages = total_ram_pages`. -/
def Pmm.countFree (pmm : Pmm) : Pmm :=
  { pmm with freePages := pmm.totalRamPages }

/-- `used_pages = total_ram_pages - free_pages`. -/
def Pmm.countUsed (pmm : Pmm) : Pmm :=
  { pmm with usedPages := pmm.totalRamPages - pmm.freePages }

/-- The part of `pmm_init` that follows the two checks for missing boot responses. -/
def initTables (entries : List MemmapEntry) (kaddr : KernelAddress) (image : KernelImage) : Pmm :=
  (reserveAll kaddr image (releaseAll entries).countFree).countUsed

/-- The error is the text given to `panic`. -/
def pmmInit (memmapResponse : Option (List MemmapEntry))
    (kernelAddressResponse : Option KernelAddress) (image : KernelImage) : Except String Pmm :=
  match memmapResponse with
  | none => .error "Could not acquire memory map response"
  | some entries =>
      match kernelAddressResponse with
      | none => .error "Could not acquire kernel address response"
      | some kaddr => .ok (initTables entries kaddr image)

/-! ## Allocation -/

/-- The physical address of a frame. -/
def frameAddr (frame : ℕ) : Word :=
  BitVec.ofNat 64 (frame * 4096)

/-- The loop of `allocate_page`: the first frame whose bit is clear. -/
def firstFree (pmm : Pmm) : Option ℕ :=
  (List.range (pmm.highestPage + 1)).find? fun i => !pmm.memoryBitmap.get i

/-- Returns the physical address of the frame, or 0 for `NULL`. -/
def allocatePage (hh : Word) (s : Machine) : Word × Machine :=
  match firstFree s.pmm with
  | some i =>
      let addr := frameAddr i
      (addr,
        { pmm :=
            { s.pmm with
              memoryBitmap := s.pmm.memoryBitmap.set i
              usedPages := s.pmm.usedPages + 1#64
              freePages := s.pmm.freePages - 1#64 }
          mem := memset s.mem (addr + hh) 0#32 4096#32 })
  | none => (0#64, s)

def freePage (pmm : Pmm) (page : Word) : Pmm :=
  if page = 0#64 then pmm
  else if page % 4096#64 ≠ 0#64 then pmm
  else
    let index := page.toNat / 4096
    if index > pmm.highestPage then pmm
    else if !pmm.memoryBitmap.get index then pmm
    else
      { pmm with
        memoryBitmap := pmm.memoryBitmap.clear index
        usedPages := pmm.usedPages - 1#64
        freePages := pmm.freePages + 1#64 }

/-- `free_page` leaves memory alone. -/
def Machine.freePage (s : Machine) (page : Word) : Machine :=
  { s with pmm := Page.freePage s.pmm page }

end Osiris.Page
