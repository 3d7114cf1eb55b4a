import Osiris.Model.Heap

/-! # Formatted output, `sys/kern/printk.c`

The buffer is kept apart from memory. Bytes are only ever stored at `buf`, which goes up by one each
time, so the bytes stored so far say where `buf` is. -/

namespace Osiris.Printk

open ByteMemory Heap

/-! ## State -/

/-- The arguments of `vsnprintf`. Of the list behind `fmt` each argument takes one word. -/
structure Call where
  mem : Mem
  /-- Where the linker puts `"0123456789ABCDEF"` and `"0123456789"`. -/
  hexDigits : Word
  decDigits : Word
  size : BitVec 32
  fmt : Word
  args : ℕ → Word

/-- The bytes from `buffer` up to `buf`, how far `fmt` has gone, and the arguments taken. -/
structure Cursor where
  out : List Byte
  fmt : ℕ
  arg : ℕ
deriving DecidableEq, Repr

def Call.fmtAt (c : Call) (i : ℕ) : Byte :=
  c.mem (c.fmt + BitVec.ofNat 64 i)

/-- `(buf - buffer) < size - 1`. -/
def Call.HasRoom (c : Call) (out : List Byte) : Prop :=
  (out.length : ℤ) < (c.size - 1#32).toInt

instance (c : Call) (out : List Byte) : Decidable (c.HasRoom out) :=
  inferInstanceAs (Decidable ((out.length : ℤ) < (c.size - 1#32).toInt))

/-! ## Conversions

What a conversion puts into `tmp` is given as the list of its entries from `tmp[0]` on. -/

/-- `while (*s && (buf - buffer) < size - 1) *buf++ = *s++;` -/
def copyString (c : Call) : ℕ → Word → List Byte → Except Fault (List Byte)
  | 0, _, _ => .error .endless
  | fuel + 1, s, out =>
      if c.mem s ≠ 0#8 ∧ c.HasRoom out then copyString c fuel (s + 1#64) (out ++ [c.mem s])
      else .ok out

/-- `while (num && i < 10)`, with the rounds that `i < 10` leaves. The remainder has the sign of
`num`. -/
def signedLoop (c : Call) (base : BitVec 32) : ℕ → BitVec 32 → List Byte → List Byte
  | 0, _, tmp => tmp
  | left + 1, num, tmp =>
      if num = 0#32 then tmp
      else signedLoop c base left (num.sdiv base)
        (tmp ++ [c.mem (c.hexDigits + (num.srem base).signExtend 64)])

def signedTmp (c : Call) (base num : BitVec 32) : List Byte :=
  signedLoop c base 10 num []

/-- `while (num)` of the unsigned conversions. -/
def unsignedLoop (c : Call) : ℕ → Word → List Byte → Except Fault (List Byte)
  | 0, _, _ => .error .endless
  | fuel + 1, num, tmp =>
      if num = 0#64 then .ok tmp
      else unsignedLoop c fuel (num / 10#64) (tmp ++ [c.mem (c.decDigits + num % 10#64)])

def unsignedTmp (c : Call) (fuel : ℕ) (num : Word) : Except Fault (List Byte) :=
  unsignedLoop c fuel num (if num = 0#64 then [0x30#8] else [])

def hexWidth : ℕ := 16

/-- `while (num && i < width)`, with the rounds that `i < width` leaves. -/
def hexLoop (c : Call) : ℕ → Word → List Byte → List Byte
  | 0, _, tmp => tmp
  | left + 1, num, tmp =>
      if num = 0#64 then tmp
      else hexLoop c left (num / 16#64) (tmp ++ [c.mem (c.hexDigits + num % 16#64)])

/-- For zero the first digit is put in twice, before and after `width` is set. -/
def hexTmp (c : Call) (num : Word) : List Byte :=
  let tmp := if num = 0#64 then [0x30#8] else []
  let tmp := if num = 0#64 then tmp ++ [0x30#8] else tmp
  let tmp := hexLoop c (hexWidth - tmp.length) num tmp
  tmp ++ List.replicate (hexWidth - tmp.length) 0x30#8

/-! ## `vsnprintf` -/

/-- `while (i--) *buf++ = tmp[i];` and the step over the last character of the conversion. -/
def Cursor.emit (st : Cursor) (tmp : List Byte) (chars : ℕ) : Cursor :=
  { out := st.out ++ tmp.reverse, fmt := st.fmt + chars, arg := st.arg + 1 }

/-- What follows a `%`, with the cursor behind it. -/
def conversion (c : Call) (fuel : ℕ) (st : Cursor) : Except Fault Cursor :=
  let ch := c.fmtAt st.fmt
  if ch = 0x73#8 then do
    let out ← copyString c fuel (c.args st.arg) st.out
    .ok { out, fmt := st.fmt + 1, arg := st.arg + 1 }
  else if ch = 0x64#8 ∨ ch = 0x78#8 then
    let num := (c.args st.arg).setWidth 32
    let base := if ch = 0x78#8 then 16#32 else 10#32
    .ok (st.emit (signedTmp c base num) 1)
  else if ch = 0x75#8 ∨
      ch = 0x6C#8 ∧ c.fmtAt (st.fmt + 1) = 0x6C#8 ∧ c.fmtAt (st.fmt + 2) = 0x75#8 then do
    let (num, chars) :=
      if ch = 0x75#8 then (((c.args st.arg).setWidth 32).setWidth 64, 1) else (c.args st.arg, 3)
    let tmp ← unsignedTmp c fuel num
    .ok (st.emit tmp chars)
  else if ch = 0x6C#8 ∧ c.fmtAt (st.fmt + 1) = 0x6C#8 ∧ c.fmtAt (st.fmt + 2) = 0x78#8 then
    .ok (st.emit (hexTmp c (c.args st.arg)) 3)
  else .ok { st with out := st.out ++ [ch], fmt := st.fmt + 1 }

/-- One round of the loop. -/
def round (c : Call) (fuel : ℕ) (st : Cursor) : Except Fault Cursor :=
  if c.fmtAt st.fmt ≠ 0x25#8 then
    .ok { st with out := st.out ++ [c.fmtAt st.fmt], fmt := st.fmt + 1 }
  else conversion c fuel { st with fmt := st.fmt + 1 }

def vsnprintfLoop (c : Call) (fuel : ℕ) : ℕ → Cursor → Except Fault Cursor
  | 0, _ => .error .endless
  | k + 1, st =>
      if c.fmtAt st.fmt ≠ 0#8 ∧ c.HasRoom st.out then do
        let st ← round c fuel st
        vsnprintfLoop c fuel k st
      else .ok st

/-- The count that is returned, and the bytes that are stored from `buffer` on. -/
def vsnprintf (c : Call) (fuel : ℕ) : Except Fault (BitVec 32 × List Byte) := do
  let st ← vsnprintfLoop c fuel fuel ⟨[], 0, 0⟩
  .ok (BitVec.ofNat 32 st.out.length, st.out ++ [0#8])

end Osiris.Printk
