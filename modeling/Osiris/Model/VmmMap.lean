import Osiris.Model.Page

/-! # Page tables, `sys/arch/x86_64/vmm/vmm_map.c`

Tables are read and written through the direct map. The translation look-aside buffer is not
part of the model, so `invlpg` leaves no trace in it. -/

namespace Osiris.Vmm

open ByteMemory Strings Page

/-! ## Entries -/

def ptePresent : Word := 1#64 <<< 0

def pteWritable : Word := 1#64 <<< 1

def pteUser : Word := 1#64 <<< 2

def pteNx : Word := 1#64 <<< 63

def pteAddrMask : Word := 0x000ffffffffff000#64

def pteGetAddr (value : Word) : Word :=
  value &&& pteAddrMask

def pteGetFlags (value : Word) : Word :=
  value &&& ~~~ pteAddrMask

/-- An index into a table of 512 entries. -/
abbrev Index := Fin 512

instance neZero_index : NeZero 512 :=
  ⟨by norm_num⟩

/-- `table[index]`. -/
def readEntry (m : Mem) (table : Word) (index : Index) : Word :=
  load64 m (table + BitVec.ofNat 64 (8 * index))

/-- `table[index] = value`. -/
def writeEntry (m : Mem) (table : Word) (index : Index) (value : Word) : Mem :=
  store64 m (table + BitVec.ofNat 64 (8 * index)) value

/-- `(virt_addr >> shift) & 0x1FF`. -/
def levelIndex (virtAddr : Word) (shift : ℕ) : Index :=
  ⟨((virtAddr >>> shift) &&& 0x1FF#64).toNat, by
    rw [BitVec.toNat_and]
    exact lt_of_le_of_lt Nat.and_le_right (by decide)⟩

def pml4Index (virtAddr : Word) : Index := levelIndex virtAddr 39

def pdptIndex (virtAddr : Word) : Index := levelIndex virtAddr 30

def pdIndex (virtAddr : Word) : Index := levelIndex virtAddr 21

def ptIndex (virtAddr : Word) : Index := levelIndex virtAddr 12

/-- `pagemap_t`. No function changes `top_level` of a pagemap it is given, so a pagemap is
passed by value. -/
structure Pagemap where
  topLevel : Word
deriving DecidableEq, Repr

/-! ## Walking and extending the tables -/

def vmmIsTableEmpty (m : Mem) (tableVirt : Word) : Bool :=
  (List.finRange 512).all fun i => readEntry m tableVirt i == 0#64

/-- Returns the virtual address of the next table, or 0 for `NULL`. -/
def vmmGetNextLevel (hh : Word) (s : Machine) (currentLevelVirt : Word) (index : Index)
    (allocate : Bool) (allocEntryFlags : Word) : Word × Machine :=
  let entry := readEntry s.mem currentLevelVirt index
  if entry &&& ptePresent ≠ 0#64 then (pteGetAddr entry + hh, s)
  else if !allocate then (0#64, s)
  else
    let (nextLevelPhys, s) := allocatePage hh s
    if nextLevelPhys = 0#64 then (0#64, s)
    else
      let nextLevelVirt := nextLevelPhys + hh
      let mem := memset s.mem nextLevelVirt 0#32 4096#32
      let newEntryFlags :=
        if allocEntryFlags ≠ 0#64 then allocEntryFlags else ptePresent ||| pteWritable
      (nextLevelVirt,
        { s with mem := writeEntry mem currentLevelVirt index (nextLevelPhys ||| newEntryFlags) })

def vmmMapPage (hh : Word) (s : Machine) (pagemap : Pagemap) (virtAddr physAddr flags : Word) :
    Bool × Machine :=
  let virtAddr := alignDown virtAddr 4096#64
  let physAddr := alignDown physAddr 4096#64
  let allocFlags := ptePresent ||| pteWritable
  let allocFlags := if flags &&& pteUser ≠ 0#64 then allocFlags ||| pteUser else allocFlags
  let pml4 := pagemap.topLevel
  let (pdpt, s) := vmmGetNextLevel hh s pml4 (pml4Index virtAddr) true allocFlags
  if pdpt = 0#64 then (false, s)
  else
    let (pd, s) := vmmGetNextLevel hh s pdpt (pdptIndex virtAddr) true allocFlags
    if pd = 0#64 then (false, s)
    else
      let (pt, s) := vmmGetNextLevel hh s pd (pdIndex virtAddr) true allocFlags
      if pt = 0#64 then (false, s)
      else
        (true,
          { s with
            mem := writeEntry s.mem pt (ptIndex virtAddr) (physAddr ||| flags ||| ptePresent) })

/-- The clean-up at the end of `vmm_unmap_page`: tables that have become empty are unlinked and
freed, from the lowest level up. -/
def releaseEmptyTables (s : Machine) (virtAddr pml4 pdpt pd pt : Word)
    (pdptEntry pdEntry ptEntry : Word) : Machine :=
  if vmmIsTableEmpty s.mem pt then
    let s := { s with mem := writeEntry s.mem pd (pdIndex virtAddr) 0#64 }
    let s := s.freePage (pteGetAddr ptEntry)
    if vmmIsTableEmpty s.mem pd then
      let s := { s with mem := writeEntry s.mem pdpt (pdptIndex virtAddr) 0#64 }
      let s := s.freePage (pteGetAddr pdEntry)
      if vmmIsTableEmpty s.mem pdpt then
        let s := { s with mem := writeEntry s.mem pml4 (pml4Index virtAddr) 0#64 }
        s.freePage (pteGetAddr pdptEntry)
      else s
    else s
  else s

def vmmUnmapPage (hh : Word) (s : Machine) (pagemap : Pagemap) (virtAddr : Word) :
    Bool × Machine :=
  if virtAddr % 4096#64 ≠ 0#64 then (false, s)
  else
    let pml4 := pagemap.topLevel
    let pdpt := (vmmGetNextLevel hh s pml4 (pml4Index virtAddr) false 0#64).1
    if pdpt = 0#64 then (true, s)
    else
      let pdptEntry := readEntry s.mem pml4 (pml4Index virtAddr)
      let pd := (vmmGetNextLevel hh s pdpt (pdptIndex virtAddr) false 0#64).1
      if pd = 0#64 then (true, s)
      else
        let pdEntry := readEntry s.mem pdpt (pdptIndex virtAddr)
        let pt := (vmmGetNextLevel hh s pd (pdIndex virtAddr) false 0#64).1
        if pt = 0#64 then (true, s)
        else
          let ptEntry := readEntry s.mem pd (pdIndex virtAddr)
          if readEntry s.mem pt (ptIndex virtAddr) &&& ptePresent = 0#64 then (true, s)
          else
            let s := { s with mem := writeEntry s.mem pt (ptIndex virtAddr) 0#64 }
            (true, releaseEmptyTables s virtAddr pml4 pdpt pd pt pdptEntry pdEntry ptEntry)

/-- Returns `(uintptr_t)-1` for an address that is not mapped. -/
def vmmVirtToPhys (hh : Word) (s : Machine) (pagemap : Pagemap) (virtAddr : Word) : Word :=
  let pml4 := pagemap.topLevel
  let pdpt := (vmmGetNextLevel hh s pml4 (pml4Index virtAddr) false 0#64).1
  if pdpt = 0#64 then -1#64
  else
    let pd := (vmmGetNextLevel hh s pdpt (pdptIndex virtAddr) false 0#64).1
    if pd = 0#64 then -1#64
    else
      let pt := (vmmGetNextLevel hh s pd (pdIndex virtAddr) false 0#64).1
      if pt = 0#64 then -1#64
      else
        let entry := readEntry s.mem pt (ptIndex virtAddr)
        if entry &&& ptePresent = 0#64 then -1#64
        else pteGetAddr entry + virtAddr % 4096#64

/-! ## The address space of the kernel -/

/-- Addresses that the linker gives to the symbols `vmm_init` reads. -/
structure KernelSections extends KernelImage where
  textEnd : Word
  rodataStart : Word
  rodataEnd : Word
  dataStart : Word
deriving DecidableEq, Repr

/-- `kernel_virt_end`, which is also `data_end_addr`. -/
def kernelVirtEnd (image : KernelSections) : Word :=
  alignUp image.bssEnd 4096#64

def kernelFlags (image : KernelSections) (pVirt : Word) : Word :=
  if pVirt ≥ image.textStart ∧ pVirt < image.textEnd then ptePresent
  else if pVirt ≥ image.rodataStart ∧ pVirt < image.rodataEnd then ptePresent ||| pteNx
  else if pVirt ≥ image.dataStart ∧ pVirt < kernelVirtEnd image then
    ptePresent ||| (pteWritable ||| pteNx)
  else ptePresent ||| (pteWritable ||| pteNx)

def kernelPhys (kaddr : KernelAddress) (pVirt : Word) : Word :=
  pVirt - kaddr.virtualBase + kaddr.physicalBase

/-- The values of `p` in `for (p = first; p < last; p += PAGE_SIZE)`. In the loops of `vmm_init`
`last` is a multiple of the page size, so that `p` does not wrap around. -/
def pageAddrs (first last : Word) : List Word :=
  (List.range ((last.toNat - first.toNat + 4095) / 4096)).map fun i =>
    first + BitVec.ofNat 64 (4096 * i)

/-- A loop that maps pages and panics when one cannot be mapped. -/
def mapPages (hh : Word) (pagemap : Pagemap) (virt phys flags : Word → Word) (message : String)
    (pages : List Word) (s : Machine) : Except String Machine :=
  pages.foldlM (fun s p =>
    match vmmMapPage hh s pagemap (virt p) (phys p) (flags p) with
    | (true, s) => .ok s
    | (false, _) => .error message) s

def mapBase (entry : MemmapEntry) : Word :=
  alignUp entry.base 4096#64

def mapTop (entry : MemmapEntry) : Word :=
  alignDown (entry.base + entry.length) 4096#64

def identityMapLimit : Word := 0x00100000#64

def identityTop (entry : MemmapEntry) : Word :=
  if mapTop entry > identityMapLimit then identityMapLimit else mapTop entry

/-- The flags of memory that is not part of the kernel. -/
def memoryFlags : Word :=
  ptePresent ||| pteWritable ||| pteNx

/-- Body of the loop over the memory map. -/
def mapEntry (hh : Word) (pagemap : Pagemap) (s : Machine) (entry : MemmapEntry) :
    Except String Machine := do
  if mapTop entry ≤ mapBase entry then return s
  let s ← mapPages hh pagemap (fun p => p + hh) (fun p => p) (fun _ => memoryFlags)
    "vmm_init: failed to map hhdm page" (pageAddrs (mapBase entry) (mapTop entry)) s
  if mapBase entry < identityMapLimit then
    mapPages hh pagemap (fun p => p) (fun p => p) (fun _ => memoryFlags)
      "vmm_init: failed to identity map low page" (pageAddrs (mapBase entry) (identityTop entry)) s
  else return s

/-- The value for `cr3`. -/
def vmmSwitchTo (hh : Word) (pagemap : Pagemap) : Except String Word :=
  if pagemap.topLevel = 0#64 then
    .error "vmm_switch_to: attempted to switch to an invalid pagemap"
  else .ok (pagemap.topLevel - hh)

/-- What `vmm_init` leaves behind. -/
structure AddressSpace where
  kernelPagemap : Pagemap
  cr3 : Word
  machine : Machine

/-- The error is the text given to `panic`. The responses are read as the boot loader left them. -/
def vmmInit (hhdmResponse : Option Word) (kernelAddressResponse : Option KernelAddress)
    (memmapResponse : Option (List MemmapEntry)) (image : KernelSections) (s : Machine) :
    Except String AddressSpace :=
  match hhdmResponse, kernelAddressResponse, memmapResponse with
  | none, _, _ => .error "hhdm response missing"
  | _, none, _ => .error "kernel address response missing"
  | _, _, none => .error "Memory Map request response missing"
  | some hh, some kaddr, some entries => do
      let (pml4Phys, s) := allocatePage hh s
      if pml4Phys = 0#64 then throw "vmm_init: failed to allocate kernel plm4"
      let pml4Virt := pml4Phys + hh
      let s := { s with mem := memset s.mem pml4Virt 0#32 4096#32 }
      let pagemap : Pagemap := ⟨pml4Virt⟩
      let s ← mapPages hh pagemap (fun p => p) (kernelPhys kaddr) (kernelFlags image)
        "vmm_init: failed to map kernel page" (pageAddrs kaddr.virtualBase (kernelVirtEnd image)) s
      let s ← entries.foldlM (mapEntry hh pagemap) s
      let cr3 ← vmmSwitchTo hh pagemap
      return { kernelPagemap := pagemap, cr3, machine := s }

end Osiris.Vmm
