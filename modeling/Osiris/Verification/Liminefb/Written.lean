import Osiris.Verification.Liminefb.Scroll

/-! # Is every pixel drawn on the screen?

A glyph is drawn two rows above its cell, and a backspace at the left goes up by a whole line. -/

namespace Osiris.Liminefb

open ByteMemory Strings Heap

/-! ## Pixels of the framebuffer -/

/-- The index of a pixel of the framebuffer. -/
def PixelOf (h pitch : ℕ) (i : ℤ) : Prop :=
  0 ≤ i ∧ i < (h * pitch / 4 : ℕ)

instance (h pitch : ℕ) (i : ℤ) : Decidable (PixelOf h pitch i) :=
  inferInstanceAs (Decidable (_ ∧ _))

/-- The result is the console `c` with some contents of memory, and pixels of the framebuffer are
added to what was written. -/
def Draws (h pitch : ℕ) (written : List ℤ) (r : Except Fault Drawing) (c : Mem → Console) : Prop :=
  ∃ m new, r = .ok ⟨c m, written ++ new⟩ ∧ ∀ i ∈ new, PixelOf h pitch i

section Draws

variable {h pitch : ℕ} {written : List ℤ}

theorem Draws.after {r : Except Fault Drawing} {c : Mem → Console} {new : List ℤ}
    (hnew : ∀ i ∈ new, PixelOf h pitch i) (hr : Draws h pitch (written ++ new) r c) :
    Draws h pitch written r c := by
  obtain ⟨m, new', hok, hnew'⟩ := hr
  refine ⟨m, new ++ new', hok.trans ?_, fun i hi => ?_⟩
  · rw [List.append_assoc]
  · exact (List.mem_append.mp hi).elim (hnew i) (hnew' i)

theorem Draws.bind {r : Except Fault Drawing} {c c' : Mem → Console}
    {f : Drawing → Except Fault Drawing} (hr : Draws h pitch written r c)
    (hf : ∀ m written, Draws h pitch written (f ⟨c m, written⟩) c') :
    Draws h pitch written (r.bind f) c' := by
  obtain ⟨m, new, rfl, hnew⟩ := hr
  exact Draws.after hnew (hf m (written ++ new))

/-- Nothing is drawn. -/
theorem Draws.refl (c : Mem → Console) (m : Mem) : Draws h pitch written (.ok ⟨c m, written⟩) c :=
  ⟨m, [], by rw [List.append_nil], by simp⟩

end Draws

/-! ## Drawing -/

section Inside

variable {c : Console} {w h pitch px py x y : ℕ}

/-- On a framebuffer of at most 2 GiB, no index of a pixel wraps. -/
theorem pixelOf_ofNat (hfb : Framebuffer c w h pitch) (hsize : h * pitch ≤ 2 ^ 31) {row column : ℕ}
    (hrow : row < h) (hcolumn : column < w) :
    PixelOf h pitch (BitVec.ofNat 32 (row * (pitch / 4) + column)).toInt := by
  obtain ⟨k, rfl⟩ := hfb.pitch_dvd
  have hwide := hfb.pitch_ge
  have hpixels : h * (4 * k) = 4 * (h * k) := Nat.mul_left_comm h 4 k
  have hlt : row * k + column < h * k := byte_lt hrow (by omega)
  rw [Nat.mul_div_cancel_left k (by norm_num), toInt_ofNat (by omega)]
  unfold PixelOf
  omega

theorem cursorPixels_inside (hfb : Framebuffer c w h pitch) (hsize : h * pitch ≤ 2 ^ 31)
    (hright : px + 8 ≤ w) (hbottom : py + 16 ≤ h) :
    ∀ i ∈ cursorPixels (pitch / 4) px py, PixelOf h pitch i.toInt := by
  intro i hi
  obtain ⟨k, hk, j, hj, rfl⟩ := mem_cursorPixels.mp hi
  exact pixelOf_ofNat hfb hsize (by omega) (by omega)

theorem liminefbEraseCursorTr_draws (hfb : Framebuffer c w h pitch) (hsize : h * pitch ≤ 2 ^ 31)
    (hdrawn : CursorDrawn c w h px py) (written : List ℤ) :
    Draws h pitch written (liminefbEraseCursorTr ⟨c, written⟩) fun m => { c with mem := m } := by
  refine ⟨_, _, liminefbEraseCursorTr_eq hfb hdrawn.prevX hdrawn.prevY written, fun i hi => ?_⟩
  obtain ⟨j, hj, rfl⟩ := List.mem_map.mp hi
  exact cursorPixels_inside hfb hsize hdrawn.right hdrawn.bottom j hj

theorem drawCursorTr_draws (hfb : Framebuffer c w h pitch) (hsize : h * pitch ≤ 2 ^ 31)
    (hin : Inside c w h x y) (written : List ℤ) :
    Draws h pitch written (drawCursorTr ⟨c, written⟩) fun m => { c with mem := m } := by
  refine ⟨_, _, drawCursorTr_eq hfb hin.cursorX hin.cursorY written, fun i hi => ?_⟩
  obtain ⟨j, hj, rfl⟩ := List.mem_map.mp hi
  exact cursorPixels_inside hfb hsize hin.right hin.bottom j (drawnPixels_subset _ _ _ _ _ hj)

end Inside

/-! ## Moving -/

section Moving

variable {c : Console} {w h pitch px py x y : ℕ}

theorem Framebuffer.at (hfb : Framebuffer c w h pitch) (m : Mem) (x y : BitVec 32) :
    Framebuffer (c.at m x y) w h pitch :=
  ⟨hfb.bpp, hfb.charsize, hfb.bgColor, hfb.fbWidth, hfb.fbHeight, hfb.pitch_eq, hfb.width_ge,
    hfb.height_ge, hfb.pitch_ge, hfb.pitch_dvd, hfb.height_lt, hfb.pitch_lt⟩

theorem Screen.low (hs : Screen c w h) (hin : Inside c w h x y) :
    c.fbHeight.slt c.cursorY = false := by
  have hhlt := hs.height_lt
  have hbottom := hin.bottom
  rw [hs.height, hin.cursorY, slt_ofNat hhlt (by omega), decide_eq_false_iff_not]
  omega

theorem liminefbRedrawCursorTr_draws (hfb : Framebuffer c w h pitch) (hsize : h * pitch ≤ 2 ^ 31)
    (hdrawn : CursorDrawn c w h px py) (hin : Inside c w h x y) (depth : ℕ) (written : List ℤ) :
    Draws h pitch written (liminefbRedrawCursorTr (depth + 1) ⟨c, written⟩)
      fun m => c.at m (BitVec.ofNat 32 x) (BitVec.ofNat 32 y) := by
  have hwide := hfb.screen.wide hin
  have hlow := hfb.screen.low hin
  rw [← hin.cursorX, ← hin.cursorY]
  unfold liminefbRedrawCursorTr
  dsimp only
  rw [hwide, if_neg Bool.false_ne_true]
  change Draws h pitch written ((liminefbEraseCursorTr ⟨c, written⟩).bind _) _
  refine (liminefbEraseCursorTr_draws hfb hsize hdrawn written).bind fun m written => ?_
  dsimp only
  rw [hlow, if_neg Bool.false_ne_true]
  have hfb' : Framebuffer { c with mem := m } w h pitch := hfb.withMem m _ _
  have hin' : Inside { c with mem := m } w h x y :=
    ⟨hin.cursorX, hin.cursorY, hin.right, hin.bottom⟩
  exact (drawCursorTr_draws hfb' hsize hin' written).bind fun m written =>
    Draws.refl (fun m => c.at m c.cursorX c.cursorY) m

/-- The bytes that are moved or cleared are those of the framebuffer. -/
theorem mem_movedPixels (hfb : Framebuffer c w h pitch) {i : ℤ} :
    i ∈ movedPixels c ↔
      ∃ y < h, ∃ x < pitch, (BitVec.ofNat 32 (y * pitch + x)).toInt / 4 = i := by
  have hge := hfb.height_ge
  have hhlt := hfb.height_lt
  have hkept := hfb.screen.lastLine
  have hrest : c.fbHeight - BitVec.ofNat 32 (h - 16) = BitVec.ofNat 32 16 := by
    rw [hfb.fbHeight, BitVec.ofNat_sub_ofNat_of_le h (h - 16) (by omega) (by omega),
      Nat.sub_sub_self hge]
  unfold movedPixels
  dsimp only
  rw [hkept, hrest, rounds_ofNat (show h - 16 < 2 ^ 31 by omega),
    rounds_ofNat (show 16 < 2 ^ 31 by norm_num), hfb.pitch_eq, rounds_ofNat hfb.pitch_lt]
  simp only [List.mem_append, List.mem_flatMap, List.mem_map, List.mem_range,
    BitVec.ofNat_add_ofNat, BitVec.ofNat_mul_ofNat]
  constructor
  · rintro (⟨y, hy, hrow⟩ | ⟨k, hk, hrow⟩)
    · exact ⟨y, by omega, hrow⟩
    · exact ⟨h - 16 + k, by omega, hrow⟩
  · rintro ⟨y, hy, hrow⟩
    by_cases hlast : y < h - 16
    · exact .inl ⟨y, hlast, hrow⟩
    · refine .inr ⟨y - (h - 16), by omega, ?_⟩
      rwa [Nat.add_sub_cancel' (show h - 16 ≤ y by omega)]

theorem movedPixels_inside (hfb : Framebuffer c w h pitch) (hsize : h * pitch ≤ 2 ^ 31) :
    ∀ i ∈ movedPixels c, PixelOf h pitch i := by
  intro i hi
  obtain ⟨y, hy, x, hx, rfl⟩ := (mem_movedPixels hfb).mp hi
  obtain ⟨row, hrow⟩ := hfb.pitch_dvd
  have hlt := byte_lt hy hx
  have hpixels : h * pitch = 4 * (h * row) := by
    rw [hrow, Nat.mul_left_comm]
  rw [toInt_ofNat (by omega)]
  unfold PixelOf
  omega

theorem liminefbScrollTr_draws (hfb : Framebuffer c w h pitch) (hsize : h * pitch ≤ 2 ^ 31)
    (hdrawn : CursorDrawn c w h px py) (depth : ℕ) (written : List ℤ) :
    Draws h pitch written (liminefbScrollTr (depth + 2) ⟨c, written⟩)
      fun m => c.at m 0#32 (BitVec.ofNat 32 (h - 16)) := by
  have hge := hfb.height_ge
  have hwge := hfb.width_ge
  have hlast := hfb.screen.lastLine
  unfold liminefbScrollTr
  refine Draws.bind (liminefbEraseCursorTr_draws hfb hsize hdrawn written) fun m written => ?_
  have herased : Framebuffer { c with mem := m } w h pitch := hfb.withMem m _ _
  have hpixels := movedPixels_inside herased hsize
  dsimp only
  rw [moveRowsTr_eq]
  refine Draws.after hpixels ?_
  let moved : Console :=
    { c with
      mem := moveRows { c with mem := m }
      cursorX := 0#32
      cursorY := c.fbHeight - 16#32 }
  have hmoved : Framebuffer moved w h pitch := hfb.withMem _ _ _
  have hold : CursorDrawn moved w h px py :=
    ⟨hdrawn.prevX, hdrawn.prevY, hdrawn.right, hdrawn.bottom⟩
  have hin : Inside moved w h 0 (h - 16) := ⟨rfl, hlast, by omega, by omega⟩
  exact liminefbRedrawCursorTr_draws hmoved hsize hold hin depth _

/-- A new line, which may scroll. -/
theorem liminefbNewlineTr_draws (hfb : Framebuffer c w h pitch) (hsize : h * pitch ≤ 2 ^ 31)
    (hdrawn : CursorDrawn c w h px py) (hcursor : c.cursorY = BitVec.ofNat 32 y)
    (hbottom : y + 16 ≤ h) (hsmall : y + 32 < 2 ^ 31) (depth : ℕ) (written : List ℤ) :
    Draws h pitch written (liminefbNewlineTr (depth + 3) ⟨c, written⟩)
      fun m => c.at m 0#32 (BitVec.ofNat 32 (nextLine h y)) := by
  have hge := hfb.height_ge
  have hwge := hfb.width_ge
  have hhlt := hfb.height_lt
  let next : Console := { c with cursorX := 0#32, cursorY := c.cursorY + 16#32 }
  have hnext : Framebuffer next w h pitch := hfb.withMem _ _ _
  have hold : CursorDrawn next w h px py :=
    ⟨hdrawn.prevX, hdrawn.prevY, hdrawn.right, hdrawn.bottom⟩
  have hline : next.cursorY = BitVec.ofNat 32 (y + 16) := by
    change c.cursorY + 16#32 = _
    rw [hcursor, BitVec.ofNat_add_ofNat]
  have hroom : c.fbHeight.slt (c.cursorY + 16#32 + 16#32) = decide (h < y + 32) := by
    rw [hfb.fbHeight, hcursor, BitVec.ofNat_add_ofNat, BitVec.ofNat_add_ofNat,
      slt_ofNat hhlt (by omega)]
  unfold liminefbNewlineTr nextLine
  dsimp only
  by_cases hfits : y + 32 ≤ h
  · rw [hroom, decide_eq_false (by omega), if_neg Bool.false_ne_true, if_pos hfits]
    have hin : Inside next w h 0 (y + 16) := ⟨rfl, hline, by omega, by omega⟩
    exact liminefbRedrawCursorTr_draws hnext hsize hold hin (depth + 1) written
  · rw [hroom, decide_eq_true (by omega), if_pos rfl, if_neg hfits]
    change Draws h pitch written ((liminefbScrollTr (depth + 2) ⟨next, written⟩).bind _) _
    refine (liminefbScrollTr_draws hnext hsize hold depth written).bind fun m written => ?_
    have hin : Inside (next.at m 0#32 (BitVec.ofNat 32 (h - 16))) w h 0 (h - 16) :=
      ⟨rfl, rfl, by omega, by omega⟩
    exact liminefbRedrawCursorTr_draws (hnext.at m _ _) hsize
      ⟨rfl, rfl, by omega, by omega⟩ hin (depth + 1) written

/-- The pixels of a cell with its corner at `cx` and `cy`. -/
def erasedPixels (row : ℕ) (cx cy : BitVec 32) : List (BitVec 32) :=
  pixels 16 8 fun i j => some ((cy + i) * BitVec.ofNat 32 row + (cx + j))

theorem liminefbEraseCharTr_eq (hfb : Framebuffer c w h pitch) (depth : ℕ) (written : List ℤ) :
    ∃ m, liminefbEraseCharTr depth ⟨c, written⟩ = liminefbRedrawCursorTr depth
      ⟨{ c with mem := m },
        written ++ (erasedPixels (pitch / 4) c.cursorX c.cursorY).map BitVec.toInt⟩ := by
  have hpixels : forPixelsTr 16 8 (fun d i j => do
      let c := d.console
      let rowPixels ← c.rowPixels
      .ok (d.setPixel ((c.cursorY + i) * rowPixels + (c.cursorX + j)) 0x000000#32)) ⟨c, written⟩ =
        .ok ⟨{ c with
          mem := paint c.fbAddr 0#32 c.mem (erasedPixels (pitch / 4) c.cursorX c.cursorY) },
          written ++ (erasedPixels (pitch / 4) c.cursorX c.cursorY).map BitVec.toInt⟩ := by
    refine forPixelsTr_eq (fun m written i j => ?_) 16 8 written
    change (c.rowPixels >>= fun rowPixels => Except.ok ((⟨{ c with mem := m }, written⟩ :
      Drawing).setPixel ((c.cursorY + i) * rowPixels + (c.cursorX + j)) 0#32)) = _
    rw [hfb.rowPixels]
    rfl
  refine ⟨paint c.fbAddr 0#32 c.mem (erasedPixels (pitch / 4) c.cursorX c.cursorY), ?_⟩
  unfold liminefbEraseCharTr
  rw [hpixels]
  rfl

/-- `liminefb_erase_char` inside the screen. -/
theorem liminefbEraseCharTr_draws (hfb : Framebuffer c w h pitch) (hsize : h * pitch ≤ 2 ^ 31)
    (hdrawn : CursorDrawn c w h px py) (hin : Inside c w h x y) (depth : ℕ) (written : List ℤ) :
    Draws h pitch written (liminefbEraseCharTr (depth + 1) ⟨c, written⟩)
      fun m => c.at m (BitVec.ofNat 32 x) (BitVec.ofNat 32 y) := by
  have hright := hin.right
  have hbottom := hin.bottom
  obtain ⟨m, heq⟩ := liminefbEraseCharTr_eq hfb (depth + 1) written
  have hpixels : ∀ i ∈ (erasedPixels (pitch / 4) c.cursorX c.cursorY).map BitVec.toInt,
      PixelOf h pitch i := by
    intro i hi
    obtain ⟨index, hindex, rfl⟩ := List.mem_map.mp hi
    obtain ⟨k, hk, j, hj, hpixel⟩ := mem_pixels.mp hindex
    have hnat : (c.cursorY + BitVec.ofNat 32 k) * BitVec.ofNat 32 (pitch / 4) +
        (c.cursorX + BitVec.ofNat 32 j) = BitVec.ofNat 32 ((y + k) * (pitch / 4) + (x + j)) := by
      rw [hin.cursorX, hin.cursorY]
      simp only [BitVec.ofNat_add, BitVec.ofNat_mul]
    rw [← Option.some.inj hpixel, hnat]
    exact pixelOf_ofNat hfb hsize (by omega) (by omega)
  have herased : Framebuffer { c with mem := m } w h pitch := hfb.withMem m _ _
  rw [heq]
  exact Draws.after hpixels (liminefbRedrawCursorTr_draws herased hsize
    ⟨hdrawn.prevX, hdrawn.prevY, hdrawn.right, hdrawn.bottom⟩
    ⟨hin.cursorX, hin.cursorY, hright, hbottom⟩ depth _)

/-- The pixels of a glyph that are set, from two rows above `cy` on. -/
def glyphPixels (glyphs : ℤ → Byte) (row : ℕ) (cx cy : BitVec 32) (ch : Byte) : List (BitVec 32) :=
  pixels 16 8 fun i j =>
    if glyphs (ch.toInt * 16 + i.toInt) &&& (0x80#8 >>> j.toNat) ≠ 0#8 then
      some ((cy + i - 2#32) * BitVec.ofNat 32 row + (cx + j))
    else none

theorem drawGlyphTr_eq (hfb : Framebuffer c w h pitch) (ch : Byte) (color : BitVec 32)
    (written : List ℤ) :
    ∃ m, drawGlyphTr ⟨c, written⟩ ch color = .ok ⟨{ c with mem := m },
      written ++ (glyphPixels c.font.glyphs (pitch / 4) c.cursorX c.cursorY ch).map
        BitVec.toInt⟩ := by
  have hsixteen : c.charsize.toInt = 16 := by
    rw [hfb.charsize_eq]
    rfl
  refine ⟨paint c.fbAddr color c.mem
    (glyphPixels c.font.glyphs (pitch / 4) c.cursorX c.cursorY ch), ?_⟩
  unfold drawGlyphTr
  rw [hfb.charsize]
  refine forPixelsTr_eq (fun m written i j => ?_) 16 8 written
  change (if c.font.glyphs (ch.toInt * c.charsize.toInt + i.toInt) &&& (0x80#8 >>> j.toNat) ≠ 0#8
    then c.rowPixels >>= fun rowPixels => Except.ok ((⟨{ c with mem := m }, written⟩ :
      Drawing).setPixel ((c.cursorY + i - 2#32) * rowPixels + (c.cursorX + j)) color)
    else Except.ok ⟨{ c with mem := m }, written⟩) = _
  rw [hsixteen, hfb.rowPixels]
  split
  · rfl
  · rw [Option.toList_none, List.map_nil, List.append_nil]
    rfl

end Moving

/-! ## Characters -/

/-- A character that is drawn on the screen from a cell: a backspace does not go up by more rows than
there are, and a glyph is blank where it is above the screen. -/
def Careful (glyphs : ℤ → Byte) (cell : ℕ × ℕ) (ch : Byte) : Prop :=
  if ch = backspace then ¬ (cell.1 = 0 ∧ 0 < cell.2 ∧ cell.2 < 16)
  else ch ≠ lineFeed → ∀ i < 2, cell.2 + i < 2 → glyphs (ch.toInt * 16 + (i : ℕ)) = 0#8

instance (glyphs : ℤ → Byte) (cell : ℕ × ℕ) (ch : Byte) : Decidable (Careful glyphs cell ch) :=
  inferInstanceAs (Decidable (ite _ _ _))

/-- A cell of the screen. -/
structure Fits (w h : ℕ) (cell : ℕ × ℕ) : Prop where
  column : 8 ∣ cell.1
  right : cell.1 + 8 ≤ w
  bottom : cell.2 + 16 ≤ h

section Step

variable {c : Console} {w h pitch depth : ℕ} {cell : ℕ × ℕ} {ch : Byte}

theorem Fits.advance (hcell : Fits w h cell) (hw : 8 ≤ w) (hh : 16 ≤ h) {glyphs : ℤ → Byte}
    (hcareful : Careful glyphs cell ch) : Fits w h (advance w h ch cell) := by
  obtain ⟨x, y⟩ := cell
  obtain ⟨hcolumn, hright, hbottom⟩ := hcell
  have hnext : nextLine h y + 16 ≤ h := by
    unfold nextLine
    split <;> omega
  unfold Careful at hcareful
  unfold Liminefb.advance
  dsimp only at hcolumn hright hbottom hcareful ⊢
  split
  · rename_i hbackspace
    rw [if_pos hbackspace] at hcareful
    split
    · constructor <;> dsimp only <;> omega
    · split
      · constructor <;> dsimp only <;> omega
      · exact ⟨hcolumn, hright, hbottom⟩
  · split
    · exact ⟨Nat.dvd_zero 8, by omega, hnext⟩
    · split
      · constructor <;> dsimp only <;> omega
      · exact ⟨Nat.dvd_zero 8, by omega, hnext⟩

/-- A framebuffer of at most 2 GiB is far from the largest `int` in both directions. -/
theorem Framebuffer.small (hfb : Framebuffer c w h pitch) (hsize : h * pitch ≤ 2 ^ 31) :
    h ≤ 2 ^ 26 ∧ pitch ≤ 2 ^ 27 := by
  have hge := hfb.height_ge
  have hwge := hfb.width_ge
  have hpitch := hfb.pitch_ge
  have hrows : 16 * pitch ≤ h * pitch := Nat.mul_le_mul_right pitch hge
  have hcolumns : h * 32 ≤ h * pitch := Nat.mul_le_mul_left h (by omega)
  omega

/-- A character whose cell has its room on the screen is drawn there. -/
theorem liminefbPutcharTr_eq (hx : c.fbWidth.slt (c.cursorX + 8#32) = false)
    (hy : c.fbHeight.slt (c.cursorY + 16#32) = false) (depth : ℕ) (written : List ℤ) (ch : Byte)
    (color : BitVec 32) :
    liminefbPutcharTr depth ⟨c, written⟩ ch color =
      if ch = backspace then
        if (0#32).slt c.cursorX then
          liminefbEraseCharTr depth ⟨{ c with cursorX := c.cursorX - 8#32 }, written⟩
        else if (0#32).slt c.cursorY then
          liminefbEraseCharTr depth ⟨
            { c with
              cursorY := c.cursorY - 16#32
              cursorX := (c.fbWidth.sdiv 8#32 - 1#32) * 8#32 }, written⟩
        else .ok ⟨c, written⟩
      else if ch = lineFeed then liminefbNewlineTr depth ⟨c, written⟩
      else (drawGlyphTr ⟨c, written⟩ ch color).bind fun d =>
        liminefbRedrawCursorTr depth
          { d with console := { d.console with cursorX := d.console.cursorX + 8#32 } } := by
  unfold liminefbPutcharTr
  dsimp only
  rw [hx, if_neg Bool.false_ne_true]
  dsimp only [bind, Except.bind]
  rw [hy, if_neg Bool.false_ne_true]

theorem glyphPixels_inside (hfb : Framebuffer c w h pitch) (hsize : h * pitch ≤ 2 ^ 31)
    (hcell : Fits w h cell) (hbs : ch ≠ backspace) (hlf : ch ≠ lineFeed)
    (hcareful : Careful c.font.glyphs cell ch) :
    ∀ i ∈ (glyphPixels c.font.glyphs (pitch / 4) (BitVec.ofNat 32 cell.1) (BitVec.ofNat 32 cell.2)
      ch).map BitVec.toInt, PixelOf h pitch i := by
  have hright := hcell.right
  have hbottom := hcell.bottom
  unfold Careful at hcareful
  rw [if_neg hbs] at hcareful
  intro i hi
  obtain ⟨index, hindex, rfl⟩ := List.mem_map.mp hi
  obtain ⟨k, hk, j, hj, hpixel⟩ := mem_pixels.mp hindex
  rw [toInt_ofNat (by omega)] at hpixel
  have hrow : 2 ≤ cell.2 + k := by
    by_contra hlow
    rw [hcareful hlf k (by omega) (by omega), BitVec.zero_and, if_neg (by simp)] at hpixel
    cases hpixel
  split at hpixel
  · have hnat : (BitVec.ofNat 32 cell.2 + BitVec.ofNat 32 k - 2#32) * BitVec.ofNat 32 (pitch / 4) +
        (BitVec.ofNat 32 cell.1 + BitVec.ofNat 32 j) =
          BitVec.ofNat 32 ((cell.2 + k - 2) * (pitch / 4) + (cell.1 + j)) := by
      rw [BitVec.ofNat_add_ofNat, BitVec.ofNat_sub_ofNat_of_le _ 2 (by norm_num) hrow]
      simp only [BitVec.ofNat_add, BitVec.ofNat_mul]
    rw [← Option.some.inj hpixel, hnat]
    exact pixelOf_ofNat hfb hsize (by omega) (by omega)
  · cases hpixel

/-- Printing at the end of a line draws the cursor in the next one. -/
theorem liminefbRedrawCursorTr_wraps (hfb : Framebuffer c w h pitch) (hsize : h * pitch ≤ 2 ^ 31)
    {px py : ℕ} (hdrawn : CursorDrawn c w h px py)
    (hx : c.fbWidth.slt (c.cursorX + 8#32) = true) {y : ℕ} (hcursor : c.cursorY = BitVec.ofNat 32 y)
    (hbottom : y + 16 ≤ h) (depth : ℕ) (written : List ℤ) :
    Draws h pitch written (liminefbRedrawCursorTr (depth + 4) ⟨c, written⟩)
      fun m => c.at m 0#32 (BitVec.ofNat 32 (nextLine h y)) := by
  have hge := hfb.height_ge
  have hwge := hfb.width_ge
  have hsmall := hfb.small hsize
  obtain ⟨m, new, hline, hnew⟩ :=
    liminefbNewlineTr_draws hfb hsize hdrawn hcursor hbottom (by omega) depth written
  let next := c.at m 0#32 (BitVec.ofNat 32 (nextLine h y))
  have hnext : nextLine h y + 16 ≤ h := by
    unfold nextLine
    split <;> omega
  have hredraw : liminefbRedrawCursorTr (depth + 4) ⟨c, written⟩ =
      liminefbRedrawCursorTr (depth + 4) ⟨next, written ++ new⟩ := by
    unfold liminefbRedrawCursorTr
    rw [hx, if_pos rfl, hline,
      show next.fbWidth.slt (next.cursorX + 8#32) = false from hfb.screen.wide_left,
      if_neg Bool.false_ne_true]
  have hin : Inside next w h 0 (nextLine h y) := ⟨rfl, rfl, by omega, hnext⟩
  rw [hredraw]
  exact Draws.after hnew (liminefbRedrawCursorTr_draws (hfb.at m _ _) hsize
    ⟨rfl, rfl, by omega, hnext⟩ hin (depth + 3) _)

theorem Fits.inside (hcell : Fits w h cell) (c : Console) (m : Mem) :
    Inside (c.atCell m cell) w h cell.1 cell.2 :=
  ⟨rfl, rfl, hcell.right, hcell.bottom⟩

theorem Fits.cursorDrawn (hcell : Fits w h cell) (c : Console) (m : Mem) :
    CursorDrawn (c.atCell m cell) w h cell.1 cell.2 :=
  ⟨rfl, rfl, hcell.right, hcell.bottom⟩

theorem Framebuffer.backspace_draws (hfb : Framebuffer c w h pitch) (hsize : h * pitch ≤ 2 ^ 31)
    (hcell : Fits w h cell) (hcareful : Careful c.font.glyphs cell backspace) (depth : ℕ) (m : Mem)
    (color : BitVec 32) (written : List ℤ) :
    Draws h pitch written (liminefbPutcharTr (depth + 1) ⟨c.atCell m cell, written⟩ backspace color)
      fun m => c.atCell m (advance w h backspace cell) := by
  obtain ⟨x, y⟩ := cell
  have hwge := hfb.width_ge
  have hsmall := hfb.small hsize
  have hpitch := hfb.pitch_ge
  have hright := hcell.right
  have hbottom := hcell.bottom
  have hcolumn := hcell.column
  have hfb' : Framebuffer (c.atCell m (x, y)) w h pitch := hfb.at _ _ _
  have hin := hcell.inside c m
  unfold Careful at hcareful
  rw [if_pos rfl] at hcareful
  dsimp only at hright hbottom hcolumn hcareful
  have hx : (0#32).slt (c.atCell m (x, y)).cursorX = decide (0 < x) := slt_zero_ofNat (by omega)
  have hy : (0#32).slt (c.atCell m (x, y)).cursorY = decide (0 < y) := slt_zero_ofNat (by omega)
  rw [liminefbPutcharTr_eq (hfb'.screen.wide hin) (hfb'.screen.high hin), if_pos rfl, hx, hy]
  unfold advance
  rw [if_pos rfl]
  dsimp only
  by_cases hleft : 0 < x
  · rw [decide_eq_true hleft, if_pos rfl, if_pos hleft]
    have hcursor : (c.atCell m (x, y)).cursorX - 8#32 = BitVec.ofNat 32 (x - 8) :=
      BitVec.ofNat_sub_ofNat_of_le x 8 (by norm_num) (by omega)
    let left : Console :=
      { c.atCell m (x, y) with cursorX := (c.atCell m (x, y)).cursorX - 8#32 }
    have hfbLeft : Framebuffer left w h pitch := hfb'.withMem _ _ _
    have hinLeft : Inside left w h (x - 8) y := ⟨hcursor, rfl, by omega, hbottom⟩
    have hdrawn : CursorDrawn left w h x y := ⟨rfl, rfl, hright, hbottom⟩
    exact liminefbEraseCharTr_draws hfbLeft hsize hdrawn hinLeft depth written
  · rw [decide_eq_false hleft, if_neg Bool.false_ne_true, if_neg hleft]
    by_cases htop : 0 < y
    · rw [decide_eq_true htop, if_pos rfl, if_pos htop]
      have hcursor : (c.atCell m (x, y)).cursorY - 16#32 = BitVec.ofNat 32 (y - 16) :=
        BitVec.ofNat_sub_ofNat_of_le y 16 (by norm_num) (by omega)
      have hlast : ((c.atCell m (x, y)).fbWidth.sdiv 8#32 - 1#32) * 8#32 =
          BitVec.ofNat 32 (8 * (w / 8 - 1)) := by
        rw [hfb'.fbWidth]
        exact lastCell hwge (by omega)
      let above : Console :=
        { c.atCell m (x, y) with
          cursorY := (c.atCell m (x, y)).cursorY - 16#32
          cursorX := ((c.atCell m (x, y)).fbWidth.sdiv 8#32 - 1#32) * 8#32 }
      have hfbAbove : Framebuffer above w h pitch := hfb'.withMem _ _ _
      have hinAbove : Inside above w h (8 * (w / 8 - 1)) (y - 16) :=
        ⟨hlast, hcursor, by omega, by omega⟩
      have hdrawn : CursorDrawn above w h x y := ⟨rfl, rfl, hright, hbottom⟩
      exact liminefbEraseCharTr_draws hfbAbove hsize hdrawn hinAbove depth written
    · rw [decide_eq_false htop, if_neg Bool.false_ne_true, if_neg htop]
      exact Draws.refl (fun m => c.atCell m (x, y)) m

/-- One careful character: the pixels it writes are those of the framebuffer, and the cursor goes
where `advance` takes it. -/
theorem Framebuffer.putchar_draws (hfb : Framebuffer c w h pitch) (hsize : h * pitch ≤ 2 ^ 31)
    (hcell : Fits w h cell) (hcareful : Careful c.font.glyphs cell ch) (depth : ℕ) (m : Mem)
    (color : BitVec 32) (written : List ℤ) :
    Draws h pitch written (liminefbPutcharTr (depth + 4) ⟨c.atCell m cell, written⟩ ch color)
      fun m => c.atCell m (advance w h ch cell) := by
  by_cases hbs : ch = backspace
  · subst hbs
    exact hfb.backspace_draws hsize hcell hcareful (depth + 3) m color written
  have hwge := hfb.width_ge
  have hsmall := hfb.small hsize
  have hpitch := hfb.pitch_ge
  have hright := hcell.right
  have hbottom := hcell.bottom
  have hfb' : Framebuffer (c.atCell m cell) w h pitch := hfb.at _ _ _
  have hin := hcell.inside c m
  have hdrawn := hcell.cursorDrawn c m
  rw [liminefbPutcharTr_eq (hfb'.screen.wide hin) (hfb'.screen.high hin), if_neg hbs]
  unfold advance
  rw [if_neg hbs]
  by_cases hlf : ch = lineFeed
  · rw [if_pos hlf, if_pos hlf]
    exact liminefbNewlineTr_draws hfb' hsize hdrawn rfl hbottom (by omega) (depth + 1) written
  · rw [if_neg hlf, if_neg hlf]
    obtain ⟨m', hglyph⟩ := drawGlyphTr_eq hfb' ch color written
    rw [hglyph]
    refine Draws.after (glyphPixels_inside hfb hsize hcell hbs hlf hcareful) ?_
    have hcursor : (c.atCell m cell).cursorX + 8#32 = BitVec.ofNat 32 (cell.1 + 8) :=
      BitVec.ofNat_add_ofNat _ _
    let printed : Console :=
      { c.atCell m cell with mem := m', cursorX := (c.atCell m cell).cursorX + 8#32 }
    have hfbPrinted : Framebuffer printed w h pitch := hfb'.withMem _ _ _
    have hold : CursorDrawn printed w h cell.1 cell.2 := ⟨rfl, rfl, hright, hbottom⟩
    by_cases hend : cell.1 + 16 ≤ w
    · rw [if_pos hend]
      have hinPrinted : Inside printed w h (cell.1 + 8) cell.2 :=
        ⟨hcursor, rfl, by omega, hbottom⟩
      exact liminefbRedrawCursorTr_draws hfbPrinted hsize hold hinPrinted (depth + 3) _
    · rw [if_neg hend]
      have hfull : printed.fbWidth.slt (printed.cursorX + 8#32) = true := by
        change (c.atCell m cell).fbWidth.slt ((c.atCell m cell).cursorX + 8#32 + 8#32) = true
        rw [hcursor, hfb'.fbWidth, BitVec.ofNat_add_ofNat, slt_ofNat (by omega) (by omega)]
        exact decide_eq_true (by omega)
      exact liminefbRedrawCursorTr_wraps hfbPrinted hsize hold hfull rfl hbottom depth _

/-- Pixels in a row above the screen are not pixels of the framebuffer. -/
theorem not_pixelOf_above (hfb : Framebuffer c w h pitch) (hsize : h * pitch ≤ 2 ^ 31) {k column : ℕ}
    (hk : 0 < k) (hk' : k ≤ 16) (hcolumn : column < w) :
    ¬ PixelOf h pitch (BitVec.ofNat 32 column -
      BitVec.ofNat 32 k * BitVec.ofNat 32 (pitch / 4)).toInt := by
  have hpitch := hfb.pitch_ge
  have hsmall := (hfb.small hsize).2
  have hlow : pitch / 4 ≤ k * (pitch / 4) := Nat.le_mul_of_pos_left _ hk
  have hhigh : k * (pitch / 4) ≤ 16 * (pitch / 4) := Nat.mul_le_mul_right _ hk'
  intro hpixel
  have hnonneg := hpixel.1
  rw [BitVec.ofNat_mul_ofNat, toInt_ofNat_sub (by omega) (by omega)] at hnonneg
  omega

/-- A byte that is not zero has a bit that is set. -/
theorem exists_bit_of_ne_zero :
    ∀ row : Byte, row ≠ 0#8 → ∃ j < 8, row &&& (0x80#8 >>> j) ≠ 0#8 := by
  decide +kernel

/-- A character that is not careful draws a pixel above the screen. -/
theorem Framebuffer.putchar_strays (hfb : Framebuffer c w h pitch) (hsize : h * pitch ≤ 2 ^ 31)
    (hcell : Fits w h cell) (hcareless : ¬ Careful c.font.glyphs cell ch) (depth : ℕ) (m : Mem)
    (color : BitVec 32) (written : List ℤ) {d : Drawing}
    (hok : liminefbPutcharTr (depth + 4) ⟨c.atCell m cell, written⟩ ch color = .ok d) :
    ∃ i ∈ d.written, ¬ PixelOf h pitch i := by
  obtain ⟨x, y⟩ := cell
  have hwge := hfb.width_ge
  have hsmall := hfb.small hsize
  have hpitch := hfb.pitch_ge
  have hright := hcell.right
  have hbottom := hcell.bottom
  have hfb' : Framebuffer (c.atCell m (x, y)) w h pitch := hfb.at _ _ _
  have hin := hcell.inside c m
  rw [liminefbPutcharTr_eq (hfb'.screen.wide hin) (hfb'.screen.high hin)] at hok
  unfold Careful at hcareless
  dsimp only at hright hbottom hcareless
  by_cases hbs : ch = backspace
  · rw [if_pos hbs, not_not] at hcareless
    obtain ⟨rfl, hy, hlow⟩ := hcareless
    have hleft : (0#32).slt (c.atCell m (0, y)).cursorX = false := slt_zero_ofNat (by omega)
    have htop : (0#32).slt (c.atCell m (0, y)).cursorY = true :=
      (slt_zero_ofNat (by omega)).trans (decide_eq_true hy)
    rw [if_pos hbs, hleft, if_neg Bool.false_ne_true, htop, if_pos rfl] at hok
    let above : Console :=
      { c.atCell m (0, y) with
        cursorY := (c.atCell m (0, y)).cursorY - 16#32
        cursorX := ((c.atCell m (0, y)).fbWidth.sdiv 8#32 - 1#32) * 8#32 }
    have hfbAbove : Framebuffer above w h pitch := hfb'.withMem _ _ _
    have hlast : above.cursorX = BitVec.ofNat 32 (8 * (w / 8 - 1)) := by
      change (c.fbWidth.sdiv 8#32 - 1#32) * 8#32 = _
      rw [hfb.fbWidth]
      exact lastCell hwge (by omega)
    obtain ⟨m', herase⟩ := liminefbEraseCharTr_eq hfbAbove (depth + 4) written
    have hpixel : (above.cursorY + 0#32) * BitVec.ofNat 32 (pitch / 4) + (above.cursorX + 0#32) ∈
        erasedPixels (pitch / 4) above.cursorX above.cursorY :=
      mem_pixels.mpr ⟨0, by norm_num, 0, by norm_num, rfl⟩
    have hindex : (above.cursorY + 0#32) * BitVec.ofNat 32 (pitch / 4) + (above.cursorX + 0#32) =
        BitVec.ofNat 32 (8 * (w / 8 - 1)) -
          BitVec.ofNat 32 (16 - y) * BitVec.ofNat 32 (pitch / 4) := by
      rw [hlast, BitVec.add_zero, BitVec.add_zero,
        ← BitVec.ofNat_sub_ofNat_of_le 16 y (by omega) hlow.le]
      change (BitVec.ofNat 32 y - BitVec.ofNat 32 16) * _ + _ = _
      ring
    refine ⟨_, (liminefbRedrawCursorTr_logs (depth + 4) _).grows d (herase.symm.trans hok)
      (List.mem_append_right _ (List.mem_map_of_mem hpixel)), ?_⟩
    rw [hindex]
    exact not_pixelOf_above hfb hsize (by omega) (by omega) (by omega)
  · rw [if_neg hbs] at hcareless
    push Not at hcareless
    obtain ⟨hlf, i, hi, hrow, hglyph⟩ := hcareless
    obtain ⟨j, hj, hbit⟩ := exists_bit_of_ne_zero _ hglyph
    rw [if_neg hbs, if_neg hlf] at hok
    obtain ⟨m', hdraw⟩ := drawGlyphTr_eq hfb' ch color written
    rw [hdraw] at hok
    have hpixel : (BitVec.ofNat 32 y + BitVec.ofNat 32 i - 2#32) * BitVec.ofNat 32 (pitch / 4) +
        (BitVec.ofNat 32 x + BitVec.ofNat 32 j) ∈
          glyphPixels c.font.glyphs (pitch / 4) (BitVec.ofNat 32 x) (BitVec.ofNat 32 y) ch := by
      refine mem_pixels.mpr ⟨i, by omega, j, hj, ?_⟩
      rw [toInt_ofNat (by omega), BitVec.toNat_ofNat, Nat.mod_eq_of_lt (by omega), if_pos hbit]
    have hindex : (BitVec.ofNat 32 y + BitVec.ofNat 32 i - 2#32) * BitVec.ofNat 32 (pitch / 4) +
        (BitVec.ofNat 32 x + BitVec.ofNat 32 j) = BitVec.ofNat 32 (x + j) -
          BitVec.ofNat 32 (2 - (y + i)) * BitVec.ofNat 32 (pitch / 4) := by
      rw [← BitVec.ofNat_sub_ofNat_of_le 2 (y + i) (by omega) hrow.le, BitVec.ofNat_add_ofNat,
        BitVec.ofNat_add_ofNat]
      ring
    refine ⟨_, (liminefbRedrawCursorTr_logs (depth + 4) _).grows d hok
      (List.mem_append_right _ (List.mem_map_of_mem hpixel)), ?_⟩
    rw [hindex]
    exact not_pixelOf_above hfb hsize (by omega) (by omega) (by omega)

end Step

/-! ## Runs -/

section Run

variable {c : Console} {w h pitch : ℕ} {cell : ℕ × ℕ}

/-- Each character is careful where the cursor is when it is printed. -/
def CarefulRun (glyphs : ℤ → Byte) (w h : ℕ) : ℕ × ℕ → List (Byte × BitVec 32) → Prop
  | _, [] => True
  | cell, char :: chars =>
      Careful glyphs cell char.1 ∧ CarefulRun glyphs w h (advance w h char.1 cell) chars

theorem runTr_cons (depth : ℕ) (d : Drawing) (char : Byte × BitVec 32)
    (chars : List (Byte × BitVec 32)) : runTr depth d (char :: chars) =
      (liminefbPutcharTr depth d char.1 char.2).bind fun d => runTr depth d chars :=
  List.foldlM_cons

/-- On a framebuffer of at most 2 GiB, a run writes pixels of the framebuffer only exactly when every
character is careful. -/
theorem Framebuffer.run_inside_iff (hfb : Framebuffer c w h pitch) (hsize : h * pitch ≤ 2 ^ 31)
    (depth : ℕ) (hcell : Fits w h cell) (m : Mem) {written : List ℤ}
    (hwritten : ∀ i ∈ written, PixelOf h pitch i) (chars : List (Byte × BitVec 32)) :
    (∃ d, runTr (depth + 4) ⟨c.atCell m cell, written⟩ chars = .ok d ∧
      ∀ i ∈ d.written, PixelOf h pitch i) ↔ CarefulRun c.font.glyphs w h cell chars := by
  induction chars generalizing cell m written with
  | nil => exact ⟨fun _ => trivial, fun _ => ⟨_, rfl, hwritten⟩⟩
  | cons char chars ih =>
      rw [runTr_cons, CarefulRun]
      by_cases hcareful : Careful c.font.glyphs cell char.1
      · obtain ⟨m', new, hok, hnew⟩ :=
          hfb.putchar_draws hsize hcell hcareful depth m char.2 written
        have hboth : ∀ i ∈ written ++ new, PixelOf h pitch i := fun i hi =>
          (List.mem_append.mp hi).elim (hwritten i) (hnew i)
        rw [hok, and_iff_right hcareful]
        exact ih (hcell.advance hfb.width_ge hfb.height_ge hcareful) m' hboth
      · refine iff_of_false ?_ fun hrun => hcareful hrun.1
        rintro ⟨d, hrun, hinside⟩
        obtain ⟨d₁, hok, hrest⟩ := Loop.bind_eq_ok.mp hrun
        obtain ⟨i, hi, hout⟩ := hfb.putchar_strays hsize hcell hcareful depth m char.2 written hok
        exact hout (hinside i ((runTr_logs (depth + 4) d₁ chars).grows d hrest hi))

end Run

end Osiris.Liminefb
