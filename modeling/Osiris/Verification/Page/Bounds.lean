import Osiris.Library.Loop
import Osiris.Verification.Page.Init

/-! # Accesses to `memory_bitmap`

The functions of the frame allocator once more, with every access to the array checked against its
bounds: a call that leaves the array has no result. -/

namespace Osiris.Page.Checked

open ByteMemory Strings

/-! ## The array and its three macros -/

/-- The value of an access to bit `index`, if the array has such a bit. -/
def access {α : Type} (index : ℕ) (value : α) : Option α :=
  if index < 8 * pmmBitmapSize then some value else none

def bitmapGet (b : Bitmap) (index : ℕ) : Option Bool :=
  access index (b.get index)

def bitmapSet (b : Bitmap) (index : ℕ) : Option Bitmap :=
  access index (b.set index)

def bitmapClear (b : Bitmap) (index : ℕ) : Option Bitmap :=
  access index (b.clear index)

/-! ## Initialisation -/

def releasePage (pmm : Pmm) (pageIdx : ℕ) : Option Pmm :=
  if pageIdx ≤ pmm.highestPage then do
    let used ← bitmapGet pmm.memoryBitmap pageIdx
    if used then
      let bitmap ← bitmapClear pmm.memoryBitmap pageIdx
      return { pmm with
        memoryBitmap := bitmap
        totalRamPages := pmm.totalRamPages + 1#64 }
    else return pmm
  else return pmm

def reservePage (pmm : Pmm) (pageIdx : ℕ) : Option Pmm :=
  if pageIdx ≤ pmm.highestPage then do
    let used ← bitmapGet pmm.memoryBitmap pageIdx
    let bitmap ← bitmapSet pmm.memoryBitmap pageIdx
    return { pmm with
      freePages := if used then pmm.freePages else pmm.freePages - 1#64
      memoryBitmap := bitmap }
  else return pmm

def releaseAll (entries : List MemmapEntry) : Option Pmm :=
  entries.foldlM (fun pmm entry => (entryPages entry).foldlM releasePage pmm)
    { memoryBitmap := fun _ => 0xFF#8
      highestPage := clampedHighestPage entries
      usedPages := 0#64
      freePages := 0#64
      totalRamPages := 0#64 }

def reserveAll (kaddr : KernelAddress) (image : KernelImage) (pmm : Pmm) : Option Pmm := do
  let pmm ← (kernelPages kaddr image).foldlM reservePage pmm
  let pmm ← (bitmapPages kaddr image).foldlM reservePage pmm
  pagesBelow1mb.foldlM reservePage pmm

def initTables (entries : List MemmapEntry) (kaddr : KernelAddress) (image : KernelImage) :
    Option Pmm := do
  let released ← releaseAll entries
  let reserved ← reserveAll kaddr image released.countFree
  return reserved.countUsed

/-! ## Allocation -/

def firstFree (pmm : Pmm) : Option (Option ℕ) :=
  (List.range (pmm.highestPage + 1)).findM? fun i => do
    let used ← bitmapGet pmm.memoryBitmap i
    return !used

def allocatePage (hh : Word) (s : Machine) : Option (Word × Machine) := do
  match ← firstFree s.pmm with
  | some i =>
      let bitmap ← bitmapSet s.pmm.memoryBitmap i
      let addr := frameAddr i
      return (addr,
        { pmm :=
            { s.pmm with
              memoryBitmap := bitmap
              usedPages := s.pmm.usedPages + 1#64
              freePages := s.pmm.freePages - 1#64 }
          mem := memset s.mem (addr + hh) 0#32 4096#32 })
  | none => return (0#64, s)

def freePage (pmm : Pmm) (page : Word) : Option Pmm :=
  if page = 0#64 then return pmm
  else if page % 4096#64 ≠ 0#64 then return pmm
  else
    let index := page.toNat / 4096
    if index > pmm.highestPage then return pmm
    else do
      let used ← bitmapGet pmm.memoryBitmap index
      if !used then return pmm
      else
        let bitmap ← bitmapClear pmm.memoryBitmap index
        return { pmm with
          memoryBitmap := bitmap
          usedPages := pmm.usedPages - 1#64
          freePages := pmm.freePages + 1#64 }

/-! ## The bounds hold -/

theorem access_eq_some {α : Type} {index highest : ℕ} (hcap : highest < 8 * pmmBitmapSize)
    (hle : index ≤ highest) (value : α) : access index value = some value :=
  if_pos (lt_of_le_of_lt hle hcap)

theorem releasePage_eq {pmm : Pmm} (hcap : pmm.highestPage < 8 * pmmBitmapSize) (i : ℕ) :
    releasePage pmm i = some (Page.releasePage pmm i) := by
  unfold releasePage Page.releasePage bitmapGet bitmapClear
  split
  · rename_i hle
    rw [access_eq_some hcap hle, access_eq_some hcap hle]
    cases pmm.memoryBitmap.get i <;> rfl
  · rfl

theorem reservePage_eq {pmm : Pmm} (hcap : pmm.highestPage < 8 * pmmBitmapSize) (i : ℕ) :
    reservePage pmm i = some (Page.reservePage pmm i) := by
  unfold reservePage Page.reservePage bitmapGet bitmapSet
  split
  · rename_i hle
    rw [access_eq_some hcap hle, access_eq_some hcap hle]
    rfl
  · rfl

theorem foldlM_releasePage {pmm : Pmm} (hcap : pmm.highestPage < 8 * pmmBitmapSize)
    (pages : List ℕ) : pages.foldlM releasePage pmm = some (pages.foldl Page.releasePage pmm) := by
  apply Loop.foldlM_eq_some (I := fun pmm => pmm.highestPage < 8 * pmmBitmapSize) hcap
  · exact fun pmm i h => releasePage_eq h i
  · intro pmm i h
    rw [releasePage_highestPage]
    exact h

theorem foldlM_reservePage {pmm : Pmm} (hcap : pmm.highestPage < 8 * pmmBitmapSize)
    (pages : List ℕ) : pages.foldlM reservePage pmm = some (pages.foldl Page.reservePage pmm) := by
  apply Loop.foldlM_eq_some (I := fun pmm => pmm.highestPage < 8 * pmmBitmapSize) hcap
  · exact fun pmm i h => reservePage_eq h i
  · intro pmm i h
    rw [reservePage_highestPage]
    exact h

theorem releaseAll_eq (entries : List MemmapEntry) :
    releaseAll entries = some (Page.releaseAll entries) := by
  have hcap := clampedHighestPage_lt entries
  apply Loop.foldlM_eq_some (I := fun pmm => pmm.highestPage < 8 * pmmBitmapSize)
  · dsimp only
    omega
  · exact fun pmm entry h => foldlM_releasePage h (entryPages entry)
  · intro pmm entry h
    rw [(foldl_releasePage (entryPages entry) pmm).1]
    exact h

theorem reserveAll_eq (kaddr : KernelAddress) (image : KernelImage) {pmm : Pmm}
    (hcap : pmm.highestPage < 8 * pmmBitmapSize) :
    reserveAll kaddr image pmm = some (Page.reserveAll kaddr image pmm) := by
  have hkernel := (foldl_reservePage (kernelPages kaddr image) pmm).1
  have hbitmap := (foldl_reservePage (bitmapPages kaddr image)
    ((kernelPages kaddr image).foldl Page.reservePage pmm)).1
  unfold reserveAll Page.reserveAll
  rw [foldlM_reservePage hcap, Option.bind_eq_bind, Option.bind_some,
    foldlM_reservePage (by omega), Option.bind_some, foldlM_reservePage (by omega)]

/-- No access of `pmm_init` leaves the array. -/
theorem initTables_eq (entries : List MemmapEntry) (kaddr : KernelAddress) (image : KernelImage) :
    initTables entries kaddr image = some (Page.initTables entries kaddr image) := by
  have hcap := clampedHighestPage_lt entries
  have hhighest := (releaseAll_spec entries).1
  unfold initTables Page.initTables
  rw [releaseAll_eq, Option.bind_eq_bind, Option.bind_some,
    reserveAll_eq kaddr image (by rw [countFree_highestPage]; omega)]
  rfl

theorem firstFree_eq {pmm : Pmm} (hcap : pmm.highestPage < 8 * pmmBitmapSize) :
    firstFree pmm = some (Page.firstFree pmm) := by
  apply Loop.findM?_eq_some
  intro i hi
  have hle : i ≤ pmm.highestPage := Nat.lt_succ_iff.mp (List.mem_range.mp hi)
  rw [bitmapGet, access_eq_some hcap hle]
  rfl

/-- No access of `allocate_page` leaves the array. -/
theorem allocatePage_eq (hh : Word) {s : Machine} (hcap : s.pmm.highestPage < 8 * pmmBitmapSize) :
    allocatePage hh s = some (Page.allocatePage hh s) := by
  unfold allocatePage Page.allocatePage
  rw [firstFree_eq hcap, Option.bind_eq_bind, Option.bind_some]
  cases hfirst : Page.firstFree s.pmm with
  | none => rfl
  | some i =>
      have hle := (firstFree_eq_some hfirst).1.1
      simp only [bitmapSet, access_eq_some hcap hle]
      rfl

/-- No access of `free_page` leaves the array. -/
theorem freePage_eq {pmm : Pmm} (hcap : pmm.highestPage < 8 * pmmBitmapSize) (page : Word) :
    freePage pmm page = some (Page.freePage pmm page) := by
  unfold freePage Page.freePage bitmapGet bitmapClear
  split
  · rfl
  · split
    · rfl
    · dsimp only
      split
      · rfl
      · rename_i hle
        rw [access_eq_some hcap (not_lt.mp hle), access_eq_some hcap (not_lt.mp hle)]
        cases pmm.memoryBitmap.get (page.toNat / 4096) <;> rfl

end Osiris.Page.Checked
