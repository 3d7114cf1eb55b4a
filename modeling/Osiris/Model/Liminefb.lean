import Osiris.Model.Heap

/-! # The console on the framebuffer, `sys/dev/liminefb/liminefb.c`

Positions and sizes are of type `int`. `liminefb_redraw_cursor`, `liminefb_newline` and
`liminefb_scroll` call one another, so that the model counts how deep the calls go. -/

namespace Osiris.Liminefb

open ByteMemory Strings Heap

/-! ## State -/

/-- The font that is linked into the kernel. The glyph of a character starts `charsize` bytes after
that of the character before it, and characters are signed. -/
structure Font where
  charsize : Byte
  glyphs : ℤ → Byte

/-- The variables of the driver, and memory. -/
structure Console where
  mem : Mem
  font : Font
  fbAddr : Word
  pitch : BitVec 32
  bpp : BitVec 32
  cursorX : BitVec 32
  cursorY : BitVec 32
  cursorPrevX : BitVec 32
  cursorPrevY : BitVec 32
  fbWidth : BitVec 32
  fbHeight : BitVec 32
  bgColor : BitVec 32

/-- `fb_addr[index] = color`. -/
def Console.setPixel (c : Console) (index color : BitVec 32) : Console :=
  { c with mem := store32 c.mem (c.fbAddr + 4#64 * index.signExtend 64) color }

/-- A division traps when it has no result. -/
def divide (a b : BitVec 32) : Except Fault (BitVec 32) :=
  if b = 0#32 ∨ (a = BitVec.intMin 32 ∧ b = -1#32) then .error (.panic "division error")
  else .ok (a.sdiv b)

/-- `pitch / (bpp / 8)`. -/
def Console.rowPixels (c : Console) : Except Fault (BitVec 32) :=
  divide c.pitch (c.bpp.sdiv 8#32)

/-- `font->charsize` as an `int`. -/
def Console.charsize (c : Console) : BitVec 32 :=
  c.font.charsize.setWidth 32

/-- `for (int y = 0; y < height; y++) for (int x = 0; x < width; x++)`. -/
def forPixels (height width : ℕ) (body : Console → BitVec 32 → BitVec 32 → Except Fault Console)
    (c : Console) : Except Fault Console :=
  (List.range height).foldlM (fun c y =>
    (List.range width).foldlM (fun c x => body c (BitVec.ofNat 32 y) (BitVec.ofNat 32 x)) c) c

/-! ## Drawing -/

def liminefbEraseCursor (c : Console) : Except Fault Console :=
  forPixels 2 8 (fun c y x => do
    let rowPixels ← c.rowPixels
    .ok (c.setPixel
      ((c.cursorPrevY + c.charsize - 2#32 + y) * rowPixels + (c.cursorPrevX + x)) c.bgColor)) c

/-- The cursor is drawn as far as it is on the screen. -/
def drawCursor (c : Console) : Except Fault Console := do
  let rowPixels ← c.rowPixels
  forPixels 2 8 (fun c y x =>
    let fbY := c.cursorY + c.charsize - 2#32 + y
    let fbX := c.cursorX + x
    if c.fbHeight.sle fbY ∨ c.fbWidth.sle fbX then .ok c
    else .ok (c.setPixel (fbY * rowPixels + fbX) 0xFFFFFF#32)) c

def drawGlyph (c : Console) (ch : Byte) (color : BitVec 32) : Except Fault Console :=
  forPixels c.font.charsize.toNat 8 (fun c i j =>
    let row := c.font.glyphs (ch.toInt * c.charsize.toInt + i.toInt)
    if row &&& (0x80#8 >>> j.toNat) ≠ 0#8 then do
      let rowPixels ← c.rowPixels
      .ok (c.setPixel ((c.cursorY + i - 2#32) * rowPixels + (c.cursorX + j)) color)
    else .ok c) c

/-- `byte_fb[index]`. -/
def Console.byteAddr (c : Console) (index : BitVec 32) : Word :=
  c.fbAddr + index.signExtend 64

/-- The two loops of `liminefb_scroll`: rows move up by 16, and the last 16 are cleared. -/
def moveRows (c : Console) : Mem :=
  let kept := c.fbHeight - 16#32
  let m := (List.range (rounds kept)).foldl (fun m y =>
    (List.range (rounds c.pitch)).foldl (fun m x =>
      let y := BitVec.ofNat 32 y
      let x := BitVec.ofNat 32 x
      setByte m (c.byteAddr (y * c.pitch + x)) (m (c.byteAddr ((y + 16#32) * c.pitch + x)))) m) c.mem
  (List.range (rounds (c.fbHeight - kept))).foldl (fun m i =>
    (List.range (rounds c.pitch)).foldl (fun m x =>
      setByte m (c.byteAddr ((kept + BitVec.ofNat 32 i) * c.pitch + BitVec.ofNat 32 x)) 0#8) m) m

/-! ## The cursor -/

mutual

def liminefbRedrawCursor : ℕ → Console → Except Fault Console
  | 0, _ => .error .endless
  | depth + 1, c => do
      let c ← if c.fbWidth.slt (c.cursorX + 8#32) then liminefbNewline depth c else .ok c
      let c ← liminefbEraseCursor c
      let c := if c.fbHeight.slt c.cursorY then { c with cursorY := c.cursorY - 16#32 } else c
      let c ← drawCursor c
      .ok { c with cursorPrevX := c.cursorX, cursorPrevY := c.cursorY }

def liminefbScroll : ℕ → Console → Except Fault Console
  | 0, _ => .error .endless
  | depth + 1, c => do
      let c ← liminefbEraseCursor c
      liminefbRedrawCursor depth
        { c with mem := moveRows c, cursorX := 0#32, cursorY := c.fbHeight - 16#32 }

def liminefbNewline : ℕ → Console → Except Fault Console
  | 0, _ => .error .endless
  | depth + 1, c => do
      let c := { c with cursorX := 0#32, cursorY := c.cursorY + 16#32 }
      let c ← if c.fbHeight.slt (c.cursorY + 16#32) then liminefbScroll depth c else .ok c
      liminefbRedrawCursor depth c

end

def liminefbEraseChar (depth : ℕ) (c : Console) : Except Fault Console := do
  let c ← forPixels 16 8 (fun c i j => do
    let rowPixels ← c.rowPixels
    .ok (c.setPixel ((c.cursorY + i) * rowPixels + (c.cursorX + j)) 0x000000#32)) c
  liminefbRedrawCursor depth c

def backspace : Byte := 0x08#8

def lineFeed : Byte := 0x0A#8

def liminefbPutchar (depth : ℕ) (c : Console) (ch : Byte) (color : BitVec 32) :
    Except Fault Console := do
  let c ← if c.fbWidth.slt (c.cursorX + 8#32) then liminefbNewline depth c else .ok c
  let c ← if c.fbHeight.slt (c.cursorY + 16#32) then liminefbScroll depth c else .ok c
  if ch = backspace then
    if (0#32).slt c.cursorX then
      liminefbEraseChar depth { c with cursorX := c.cursorX - 8#32 }
    else if (0#32).slt c.cursorY then
      liminefbEraseChar depth
        { c with
          cursorY := c.cursorY - 16#32
          cursorX := (c.fbWidth.sdiv 8#32 - 1#32) * 8#32 }
    else .ok c
  else if ch = lineFeed then liminefbNewline depth c
  else do
    let c ← drawGlyph c ch color
    liminefbRedrawCursor depth { c with cursorX := c.cursorX + 8#32 }

end Osiris.Liminefb
