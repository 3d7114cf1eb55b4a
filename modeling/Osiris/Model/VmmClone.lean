import Osiris.Library.Loop
import Osiris.Model.VmmMap

/-! # Copies of a pagemap, `sys/arch/x86_64/vmm/vmm_clone.c`

A loop over a table that is left by `goto clone_fail` returns `false`. -/

namespace Osiris.Vmm

open ByteMemory Strings Page

/-- The 512 rounds of a loop over a table. -/
def indices : List Index :=
  List.finRange 512

/-- `((uintptr_t) pml4_i) << 39`. -/
def regionBase (pml4I : Index) : Word :=
  BitVec.ofNat 64 pml4I <<< 39

/-! ## `vmm_clone_pagemap` -/

/-- The body of the innermost loop: one page is copied. -/
def clonePage (hh : Word) (srcPt childPt : Word) (ptI : Index) (s : Machine) : Bool × Machine :=
  let srcPte := readEntry s.mem srcPt ptI
  if srcPte &&& ptePresent = 0#64 then (true, s)
  else
    let srcPhys := pteGetAddr srcPte
    let (childPagePhys, s) := allocatePage hh s
    if childPagePhys = 0#64 then (false, s)
    else
      let mem := memcpy s.mem (childPagePhys + hh) (srcPhys + hh) 4096#32
      let flags := srcPte &&& 0xFFF#64
      (true, { s with mem := writeEntry mem childPt ptI (childPagePhys ||| flags) })

/-- The part that the bodies of the three outer loops share: one table is created for the child
and filled by the next loop, which is `inner`. -/
def cloneTable (hh : Word) (inner : Word → Word → Machine → Bool × Machine) (src child : Word)
    (i : Index) (s : Machine) : Bool × Machine :=
  let srcE := readEntry s.mem src i
  if srcE &&& ptePresent = 0#64 then (true, s)
  else
    let srcNext := (vmmGetNextLevel hh s src i false 0#64).1
    if srcNext = 0#64 then (true, s)
    else
      let (childNextPhys, s) := allocatePage hh s
      if childNextPhys = 0#64 then (false, s)
      else
        let childNext := childNextPhys + hh
        let mem := memset s.mem childNext 0#32 4096#32
        inner srcNext childNext
          { s with mem := writeEntry mem child i (childNextPhys ||| (srcE &&& 0xFFF#64)) }

/-- The loop over `pt_i`. -/
def clonePt (hh : Word) (srcPt childPt : Word) (s : Machine) : Bool × Machine :=
  Loop.forEach (clonePage hh srcPt childPt) indices s

/-- The loop over `pd_i`. -/
def clonePd (hh : Word) (srcPd childPd : Word) (s : Machine) : Bool × Machine :=
  Loop.forEach (cloneTable hh (clonePt hh) srcPd childPd) indices s

/-- The loop over `pdpt_i`. -/
def clonePdpt (hh : Word) (srcPdpt childPdpt : Word) (s : Machine) : Bool × Machine :=
  Loop.forEach (cloneTable hh (clonePd hh) srcPdpt childPdpt) indices s

/-- The body of the outermost loop, which shares the regions from `VMM_HIGHER_HALF` on. -/
def clonePml4Entry (hh : Word) (srcPml4 childPml4 : Word) (pml4I : Index) (s : Machine) :
    Bool × Machine :=
  let srcPml4E := readEntry s.mem srcPml4 pml4I
  if srcPml4E &&& ptePresent = 0#64 then (true, s)
  else if regionBase pml4I ≥ hh then
    (true, { s with mem := writeEntry s.mem childPml4 pml4I srcPml4E })
  else cloneTable hh (clonePdpt hh) srcPml4 childPml4 pml4I s

/-- The loop over `pml4_i`. -/
def clonePml4 (hh : Word) (srcPml4 childPml4 : Word) (s : Machine) : Bool × Machine :=
  Loop.forEach (clonePml4Entry hh srcPml4 childPml4) indices s

/-! ## `vmm_free_pagemap_clone` -/

/-- The body of the innermost loop: one page is freed. -/
def freePageClone (pt : Word) (s : Machine) (ptI : Index) : Machine :=
  let pte := readEntry s.mem pt ptI
  if pte &&& ptePresent = 0#64 then s
  else
    let s := s.freePage (pteGetAddr pte)
    { s with mem := writeEntry s.mem pt ptI 0#64 }

/-- The part that the bodies of the three outer loops share: what a table points to is freed by
the next loop, which is `inner`, and then the table. -/
def freeTableClone (hh : Word) (inner : Word → Machine → Machine) (table : Word) (s : Machine)
    (i : Index) : Machine :=
  let e := readEntry s.mem table i
  if e &&& ptePresent = 0#64 then s
  else
    let next := (vmmGetNextLevel hh s table i false 0#64).1
    if next = 0#64 then s
    else
      let s := (inner next s).freePage (pteGetAddr e)
      { s with mem := writeEntry s.mem table i 0#64 }

/-- The loop over `pt_i`. -/
def freePt (pt : Word) (s : Machine) : Machine :=
  indices.foldl (freePageClone pt) s

/-- The loop over `pd_i`. -/
def freePd (hh : Word) (pd : Word) (s : Machine) : Machine :=
  indices.foldl (freeTableClone hh freePt pd) s

/-- The loop over `pdpt_i`. -/
def freePdpt (hh : Word) (pdpt : Word) (s : Machine) : Machine :=
  indices.foldl (freeTableClone hh (freePd hh) pdpt) s

/-- The body of the outermost loop, which skips the regions from `VMM_HIGHER_HALF` on. -/
def freePml4Entry (hh : Word) (pml4 : Word) (s : Machine) (pml4I : Index) : Machine :=
  let pml4E := readEntry s.mem pml4 pml4I
  if pml4E &&& ptePresent = 0#64 then s
  else if regionBase pml4I ≥ hh then s
  else freeTableClone hh (freePdpt hh) pml4 s pml4I

/-- The loop over `pml4_i`. -/
def freePml4 (hh : Word) (pml4 : Word) (s : Machine) : Machine :=
  indices.foldl (freePml4Entry hh pml4) s

/-- The clone is given by address; its only field is `top_level`. -/
def vmmFreePagemapClone (hh : Word) (s : Machine) (clone : Word) : Machine :=
  if clone = 0#64 ∨ load64 s.mem clone = 0#64 then s
  else
    let pml4 := load64 s.mem clone
    let s := freePml4 hh pml4 s
    s.freePage (pml4 - hh)

/-- Returns the address of the child's `pagemap_t`, or 0 for `NULL`. -/
def vmmClonePagemap (hh : Word) (s : Machine) (src : Option Pagemap) : Word × Machine :=
  match src with
  | none => (0#64, s)
  | some src =>
      if src.topLevel = 0#64 then (0#64, s)
      else
        let (childMapPagePhys, s) := allocatePage hh s
        if childMapPagePhys = 0#64 then (0#64, s)
        else
          let childMap := childMapPagePhys + hh
          let s := { s with mem := memset s.mem childMap 0#32 4096#32 }
          let (childPml4Phys, s) := allocatePage hh s
          if childPml4Phys = 0#64 then (0#64, s.freePage childMapPagePhys)
          else
            let childPml4 := childPml4Phys + hh
            let s := { s with mem := memset s.mem childPml4 0#32 4096#32 }
            let s := { s with mem := store64 s.mem childMap childPml4 }
            match clonePml4 hh src.topLevel childPml4 s with
            | (true, s) => (childMap, s)
            | (false, s) =>
                let s := vmmFreePagemapClone hh s childMap
                (0#64, s.freePage childMapPagePhys)

end Osiris.Vmm
