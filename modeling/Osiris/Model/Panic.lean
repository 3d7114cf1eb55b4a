import Osiris.Model.Heap

/-! # The table of symbols, `sys/kern/panic.c` -/

namespace Osiris.Panic

open ByteMemory Heap

structure Ksym where
  addr : Word
  name : List Byte
deriving DecidableEq, Repr

/-- `ksyms[m]`. What lies next to the table is not part of the model. -/
def ksymAt (ksyms : List Ksym) (m : BitVec 32) : Except Fault Ksym :=
  if m.toInt < 0 then .error (.panic "page fault")
  else
    match ksyms[m.toInt.toNat]? with
    | some sym => .ok sym
    | none => .error (.panic "page fault")

/-- The loop of `odb_addr_to_sym`. A pointer to an entry is given by the index of the entry, and
`NULL` by `none`. -/
def odbAddrToSymLoop (ksyms : List Ksym) (rip : Word) :
    ℕ → BitVec 32 → BitVec 32 → Option ℕ → Except Fault (Option ℕ)
  | 0, _, _, _ => .error .endless
  | fuel + 1, l, r, last =>
      if l.sle r then do
        let m := (l + r).sdiv 2#32
        let sym ← ksymAt ksyms m
        if rip ≥ sym.addr then odbAddrToSymLoop ksyms rip fuel (m + 1#32) r (some m.toInt.toNat)
        else odbAddrToSymLoop ksyms rip fuel l (m - 1#32) last
      else .ok last

/-- `ksyms_count` is a `size_t`, and `r` is an `int`. -/
def odbAddrToSym (fuel : ℕ) (ksyms : List Ksym) (rip : Word) : Except Fault (Option ℕ) :=
  odbAddrToSymLoop ksyms rip fuel 0#32 ((BitVec.ofNat 64 ksyms.length - 1#64).setWidth 32) none

end Osiris.Panic
