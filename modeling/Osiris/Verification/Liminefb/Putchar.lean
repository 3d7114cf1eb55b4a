import Osiris.Model.Liminefb

/-! # What the console does to its cursor

What is drawn does not matter for the cursor, as long as the drawing ends. -/

namespace Osiris.Liminefb

open ByteMemory Strings Heap

/-- The length of a row can be computed. -/
def Console.HasRows (c : Console) : Prop :=
  ∃ n, c.rowPixels = .ok n

/-- The console with other contents of memory and with the cursor drawn at `x` and `y`. -/
def Console.at (c : Console) (m : Mem) (x y : BitVec 32) : Console :=
  { c with mem := m, cursorX := x, cursorY := y, cursorPrevX := x, cursorPrevY := y }

/-! ## Drawing -/

section Drawing

variable {c : Console}

theorem forPixels_ok {body : Console → BitVec 32 → BitVec 32 → Except Fault Console}
    (hbody : ∀ m y x, ∃ m', body { c with mem := m } y x = .ok { c with mem := m' })
    (height width : ℕ) : ∃ m, forPixels height width body c = .ok { c with mem := m } := by
  let Same : Console → Prop := fun c' => ∃ m, c' = { c with mem := m }
  have hpixel : ∀ (y : ℕ) c' (x : ℕ), Same c' →
      ∃ c'', body c' (BitVec.ofNat 32 y) (BitVec.ofNat 32 x) = .ok c'' ∧ Same c'' := by
    rintro y c' x ⟨m, rfl⟩
    obtain ⟨m', hok⟩ := hbody m (BitVec.ofNat 32 y) (BitVec.ofNat 32 x)
    exact ⟨_, hok, m', rfl⟩
  have hrow : ∀ c' (y : ℕ), Same c' → ∃ c'', (List.range width).foldlM (fun c x =>
      body c (BitVec.ofNat 32 y) (BitVec.ofNat 32 x)) c' = .ok c'' ∧ Same c'' :=
    fun c' y hsame => Loop.foldlM_ok (hpixel y) (List.range width) hsame
  obtain ⟨c', hok, m, rfl⟩ := Loop.foldlM_ok hrow (List.range height) (s := c) ⟨c.mem, rfl⟩
  exact ⟨m, hok⟩

/-- A pixel whose place depends on the length of a row. -/
theorem setPixel_ok {n : BitVec 32} (hn : c.rowPixels = .ok n) (m : Mem)
    (index : BitVec 32 → BitVec 32) (color : BitVec 32) :
    ∃ m', (({ c with mem := m } : Console).rowPixels >>= fun rowPixels =>
      .ok (({ c with mem := m } : Console).setPixel (index rowPixels) color)) =
        .ok { c with mem := m' } := by
  refine ⟨store32 m (c.fbAddr + 4#64 * (index n).signExtend 64) color, ?_⟩
  change (c.rowPixels >>= _) = _
  rw [hn]
  rfl

theorem liminefbEraseCursor_ok (hrows : c.HasRows) :
    ∃ m, liminefbEraseCursor c = .ok { c with mem := m } := by
  obtain ⟨n, hn⟩ := hrows
  exact forPixels_ok (fun m y x => setPixel_ok hn m (fun rowPixels =>
    (c.cursorPrevY + c.charsize - 2#32 + y) * rowPixels + (c.cursorPrevX + x)) c.bgColor) 2 8

theorem drawCursor_ok (hrows : c.HasRows) : ∃ m, drawCursor c = .ok { c with mem := m } := by
  obtain ⟨n, hn⟩ := hrows
  unfold drawCursor
  rw [hn]
  dsimp only [bind, Except.bind]
  refine forPixels_ok (fun m y x => ?_) 2 8
  dsimp only
  split
  · exact ⟨m, rfl⟩
  · exact ⟨store32 m _ _, rfl⟩

theorem drawGlyph_ok (hrows : c.HasRows) (ch : Byte) (color : BitVec 32) :
    ∃ m, drawGlyph c ch color = .ok { c with mem := m } := by
  obtain ⟨n, hn⟩ := hrows
  refine forPixels_ok (fun m i j => ?_) _ 8
  dsimp only
  split
  · exact setPixel_ok hn m (fun rowPixels =>
      (c.cursorY + i - 2#32) * rowPixels + (c.cursorX + j)) color
  · exact ⟨m, rfl⟩

end Drawing

/-! ## Moving -/

section Moving

variable {c : Console}

/-- Within the screen, `liminefb_redraw_cursor` erases the cursor and draws it where it is. -/
theorem liminefbRedrawCursor_eq {m₁ m₂ : Mem} (depth : ℕ)
    (hx : c.fbWidth.slt (c.cursorX + 8#32) = false) (hy : c.fbHeight.slt c.cursorY = false)
    (herase : liminefbEraseCursor c = .ok { c with mem := m₁ })
    (hdraw : drawCursor { c with mem := m₁ } = .ok { c with mem := m₂ }) :
    liminefbRedrawCursor (depth + 1) c = .ok (c.at m₂ c.cursorX c.cursorY) := by
  unfold liminefbRedrawCursor
  rw [hx, if_neg Bool.false_ne_true]
  change (liminefbEraseCursor c >>= _) = _
  rw [herase]
  change ((drawCursor (if c.fbHeight.slt c.cursorY then _ else _)) >>= _) = _
  rw [hy, if_neg Bool.false_ne_true, hdraw]
  rfl

theorem liminefbRedrawCursor_ok (depth : ℕ) (hrows : c.HasRows)
    (hx : c.fbWidth.slt (c.cursorX + 8#32) = false) (hy : c.fbHeight.slt c.cursorY = false) :
    ∃ m, liminefbRedrawCursor (depth + 1) c = .ok (c.at m c.cursorX c.cursorY) := by
  obtain ⟨m₁, herase⟩ := liminefbEraseCursor_ok hrows
  obtain ⟨m₂, hdraw⟩ := drawCursor_ok (c := { c with mem := m₁ }) hrows
  exact ⟨m₂, liminefbRedrawCursor_eq depth hx hy herase hdraw⟩

/-- A cursor that has no room in its line is taken to the next one. -/
theorem liminefbRedrawCursor_wraps {c' : Console} {depth : ℕ}
    (hx : c.fbWidth.slt (c.cursorX + 8#32) = true) (hline : liminefbNewline depth c = .ok c')
    (hx' : c'.fbWidth.slt (c'.cursorX + 8#32) = false) :
    liminefbRedrawCursor (depth + 1) c = liminefbRedrawCursor (depth + 1) c' := by
  unfold liminefbRedrawCursor
  rw [hx, hx', if_pos rfl, if_neg Bool.false_ne_true, hline]

/-- A screen has room for one character, and its sizes are not negative. -/
structure Screen (c : Console) (w h : ℕ) : Prop where
  rows : c.HasRows
  width : c.fbWidth = BitVec.ofNat 32 w
  height : c.fbHeight = BitVec.ofNat 32 h
  width_ge : 8 ≤ w
  height_ge : 16 ≤ h
  width_lt : w < 2 ^ 31
  height_lt : h < 2 ^ 31

theorem toInt_ofNat {n : ℕ} (hn : n < 2 ^ 31) : (BitVec.ofNat 32 n).toInt = n := by
  have hnat : (BitVec.ofNat 32 n).toNat = n := by
    rw [BitVec.toNat_ofNat]
    omega
  rw [BitVec.toInt_eq_toNat_of_lt (by omega), hnat]

theorem toInt_ofNat_sub {a b : ℕ} (ha : a < 2 ^ 31) (hb : b < 2 ^ 31) :
    (BitVec.ofNat 32 a - BitVec.ofNat 32 b).toInt = a - b := by
  rw [BitVec.toInt_sub, toInt_ofNat ha, toInt_ofNat hb, Int.bmod_eq_of_le]
  · norm_num
    omega
  · norm_num
    omega

theorem slt_ofNat {a b : ℕ} (ha : a < 2 ^ 31) (hb : b < 2 ^ 31) :
    (BitVec.ofNat 32 a).slt (BitVec.ofNat 32 b) = decide (a < b) := by
  rw [BitVec.slt, toInt_ofNat ha, toInt_ofNat hb]
  simp

theorem sdiv_ofNat {a b : ℕ} (ha : a < 2 ^ 31) (hb : b < 2 ^ 31) :
    (BitVec.ofNat 32 a).sdiv (BitVec.ofNat 32 b) = BitVec.ofNat 32 (a / b) := by
  have hnat : ∀ n < 2 ^ 31, (BitVec.ofNat 32 n).toNat = n := fun n hn => by
    rw [BitVec.toNat_ofNat]
    omega
  have hmsb : ∀ n < 2 ^ 31, (BitVec.ofNat 32 n).msb = false := fun n hn => by
    rw [BitVec.msb_eq_false_iff_two_mul_lt, hnat n hn]
    omega
  have hle : a / b ≤ a := Nat.div_le_self a b
  rw [BitVec.sdiv_eq, hmsb a ha, hmsb b hb]
  apply BitVec.eq_of_toNat_eq
  rw [BitVec.udiv_eq, BitVec.toNat_udiv, hnat a ha, hnat b hb, hnat (a / b) (by omega)]

/-- A sum that does not fit in an `int` is negative. -/
theorem slt_ofNat_of_overflow {a b : ℕ} (ha : a < 2 ^ 31) (hb : 2 ^ 31 ≤ b) (hb' : b < 2 ^ 32) :
    (BitVec.ofNat 32 a).slt (BitVec.ofNat 32 b) = false := by
  have hnat : (BitVec.ofNat 32 b).toNat = b := by
    rw [BitVec.toNat_ofNat]
    omega
  have hneg : (BitVec.ofNat 32 b).toInt < 0 := by
    rw [BitVec.toInt_eq_toNat_cond, hnat, if_neg (by omega)]
    omega
  rw [BitVec.slt, toInt_ofNat ha, decide_eq_false_iff_not]
  omega

variable {w h : ℕ}

theorem Screen.at (hs : Screen c w h) (m : Mem) (x y : BitVec 32) : Screen (c.at m x y) w h :=
  ⟨hs.rows, hs.width, hs.height, hs.width_ge, hs.height_ge, hs.width_lt, hs.height_lt⟩

theorem Screen.moved (hs : Screen c w h) (m : Mem) (x y : BitVec 32) :
    Screen { c with mem := m, cursorX := x, cursorY := y } w h :=
  ⟨hs.rows, hs.width, hs.height, hs.width_ge, hs.height_ge, hs.width_lt, hs.height_lt⟩

theorem Screen.lastLine (hs : Screen c w h) : c.fbHeight - 16#32 = BitVec.ofNat 32 (h - 16) := by
  rw [hs.height, ← BitVec.ofNat_sub_ofNat_of_le h 16 (by norm_num) hs.height_ge]

theorem Screen.wide_left (hs : Screen c w h) : c.fbWidth.slt (0#32 + 8#32) = false := by
  have hge := hs.width_ge
  rw [hs.width, show 0#32 + 8#32 = BitVec.ofNat 32 8 from rfl,
    slt_ofNat hs.width_lt (by norm_num), decide_eq_false_iff_not]
  omega

/-- `liminefb_redraw_cursor` at the left of the screen. -/
theorem Screen.redraw_left (hs : Screen c w h) (depth : ℕ) (hx : c.cursorX = 0#32)
    (hy : c.fbHeight.slt c.cursorY = false) :
    ∃ m, liminefbRedrawCursor (depth + 1) c = .ok (c.at m 0#32 c.cursorY) := by
  have hwide : c.fbWidth.slt (c.cursorX + 8#32) = false := by
    rw [hx]
    exact hs.wide_left
  obtain ⟨m, hok⟩ := liminefbRedrawCursor_ok depth hs.rows hwide hy
  rw [hx] at hok
  exact ⟨m, hok⟩

/-- `liminefb_scroll` puts the cursor into the last 16 rows. -/
theorem Screen.scroll (hs : Screen c w h) (depth : ℕ) :
    ∃ m, liminefbScroll (depth + 2) c = .ok (c.at m 0#32 (BitVec.ofNat 32 (h - 16))) := by
  have hlast := hs.lastLine
  obtain ⟨m₁, herase⟩ := liminefbEraseCursor_ok hs.rows
  let c₁ : Console :=
    { c with
      mem := moveRows { c with mem := m₁ }
      cursorX := 0#32
      cursorY := c.fbHeight - 16#32 }
  have hs₁ : Screen c₁ w h := hs.moved _ _ _
  have hy : c₁.fbHeight.slt c₁.cursorY = false := by
    have hlt := hs.height_lt
    change c.fbHeight.slt (c.fbHeight - 16#32) = false
    rw [hlast, hs.height, slt_ofNat hlt (by omega), decide_eq_false_iff_not]
    omega
  obtain ⟨m₂, hredraw⟩ := hs₁.redraw_left depth rfl hy
  refine ⟨m₂, ?_⟩
  unfold liminefbScroll
  rw [herase]
  refine hredraw.trans ?_
  change Except.ok (c.at m₂ 0#32 (c.fbHeight - 16#32)) = _
  rw [hlast]

/-- `liminefb_newline` scrolls when the next line is not on the screen. -/
theorem Screen.newline_scrolls (hs : Screen c w h) (depth : ℕ)
    (hy : c.fbHeight.slt (c.cursorY + 16#32 + 16#32) = true) :
    ∃ m, liminefbNewline (depth + 3) c = .ok (c.at m 0#32 (BitVec.ofNat 32 (h - 16))) := by
  let c₁ : Console := { c with cursorX := 0#32, cursorY := c.cursorY + 16#32 }
  have hs₁ : Screen c₁ w h := hs.moved _ _ _
  obtain ⟨m₁, hscroll⟩ := hs₁.scroll depth
  have hy' : (c₁.at m₁ 0#32 (BitVec.ofNat 32 (h - 16))).fbHeight.slt
      (BitVec.ofNat 32 (h - 16)) = false := by
    have hlt := hs.height_lt
    change c.fbHeight.slt _ = false
    rw [hs.height, slt_ofNat hlt (by omega), decide_eq_false_iff_not]
    omega
  obtain ⟨m₂, hredraw⟩ := (hs₁.at m₁ 0#32 (BitVec.ofNat 32 (h - 16))).redraw_left
    (depth + 1) rfl hy'
  refine ⟨m₂, ?_⟩
  unfold liminefbNewline
  dsimp only
  rw [hy, if_pos rfl, hscroll]
  exact hredraw

theorem Screen.newline_moves (hs : Screen c w h) (depth : ℕ)
    (hy : c.fbHeight.slt (c.cursorY + 16#32 + 16#32) = false)
    (hy' : c.fbHeight.slt (c.cursorY + 16#32) = false) :
    ∃ m, liminefbNewline (depth + 2) c = .ok (c.at m 0#32 (c.cursorY + 16#32)) := by
  let c₁ : Console := { c with cursorX := 0#32, cursorY := c.cursorY + 16#32 }
  have hs₁ : Screen c₁ w h := hs.moved _ _ _
  obtain ⟨m, hredraw⟩ := hs₁.redraw_left depth rfl hy'
  refine ⟨m, ?_⟩
  unfold liminefbNewline
  dsimp only
  rw [hy, if_neg Bool.false_ne_true]
  exact hredraw

/-- Where a new line starts below one that starts at `y`. -/
def nextLine (h y : ℕ) : ℕ :=
  if y + 32 ≤ h then y + 16 else h - 16

/-- The cursor is at `x` and `y`, with a character's room to the right and below. -/
structure Inside (c : Console) (w h x y : ℕ) : Prop where
  cursorX : c.cursorX = BitVec.ofNat 32 x
  cursorY : c.cursorY = BitVec.ofNat 32 y
  right : x + 8 ≤ w
  bottom : y + 16 ≤ h

variable {x y : ℕ}

theorem Screen.newline (hs : Screen c w h) (depth : ℕ) (hcursor : c.cursorY = BitVec.ofNat 32 y)
    (hsmall : y + 32 < 2 ^ 31) :
    ∃ m, liminefbNewline (depth + 3) c = .ok (c.at m 0#32 (BitVec.ofNat 32 (nextLine h y))) := by
  have hlt := hs.height_lt
  have hnext : c.fbHeight.slt (c.cursorY + 16#32 + 16#32) = decide (h < y + 32) := by
    rw [hs.height, hcursor, BitVec.ofNat_add_ofNat, BitVec.ofNat_add_ofNat,
      slt_ofNat hlt (by omega)]
  unfold nextLine
  by_cases hfits : y + 32 ≤ h
  · rw [decide_eq_false (by omega)] at hnext
    have hthis : c.fbHeight.slt (c.cursorY + 16#32) = false := by
      rw [hs.height, hcursor, BitVec.ofNat_add_ofNat, slt_ofNat hlt (by omega),
        decide_eq_false_iff_not]
      omega
    obtain ⟨m, hok⟩ := hs.newline_moves (depth + 1) hnext hthis
    rw [if_pos hfits]
    refine ⟨m, hok.trans ?_⟩
    rw [hcursor, BitVec.ofNat_add_ofNat]
  · rw [decide_eq_true (by omega)] at hnext
    rw [if_neg hfits]
    exact hs.newline_scrolls depth hnext

/-- Near the largest `int` the test for the end of the screen overflows. -/
theorem Screen.newline_overflow (hs : Screen c w h) (depth : ℕ) (hin : Inside c w h x y)
    (hlarge : 2 ^ 31 ≤ y + 32) :
    ∃ m, liminefbNewline (depth + 2) c = .ok (c.at m 0#32 (BitVec.ofNat 32 (y + 16))) := by
  have hlt := hs.height_lt
  have hbottom := hin.bottom
  have hnext : c.fbHeight.slt (c.cursorY + 16#32 + 16#32) = false := by
    rw [hs.height, hin.cursorY, BitVec.ofNat_add_ofNat, BitVec.ofNat_add_ofNat]
    exact slt_ofNat_of_overflow hlt hlarge (by omega)
  have hthis : c.fbHeight.slt (c.cursorY + 16#32) = false := by
    rw [hs.height, hin.cursorY, BitVec.ofNat_add_ofNat, slt_ofNat hlt (by omega),
      decide_eq_false_iff_not]
    omega
  obtain ⟨m, hok⟩ := hs.newline_moves depth hnext hthis
  refine ⟨m, hok.trans ?_⟩
  rw [hin.cursorY, BitVec.ofNat_add_ofNat]

end Moving

/-! ## `liminefb_putchar` -/

section Putchar

variable {c : Console} {w h x y : ℕ} {ch : Byte} {color : BitVec 32}

/-- A cursor inside the screen has not to be moved first. -/
theorem liminefbPutchar_eq (hx : c.fbWidth.slt (c.cursorX + 8#32) = false)
    (hy : c.fbHeight.slt (c.cursorY + 16#32) = false) (depth : ℕ) (ch : Byte)
    (color : BitVec 32) :
    liminefbPutchar depth c ch color =
      if ch = backspace then
        if (0#32).slt c.cursorX then
          liminefbEraseChar depth { c with cursorX := c.cursorX - 8#32 }
        else if (0#32).slt c.cursorY then
          liminefbEraseChar depth
            { c with
              cursorY := c.cursorY - 16#32
              cursorX := (c.fbWidth.sdiv 8#32 - 1#32) * 8#32 }
        else .ok c
      else if ch = lineFeed then liminefbNewline depth c
      else (drawGlyph c ch color).bind fun c =>
        liminefbRedrawCursor depth { c with cursorX := c.cursorX + 8#32 } := by
  unfold liminefbPutchar
  rw [hx, if_neg Bool.false_ne_true]
  dsimp only [bind, Except.bind]
  rw [hy, if_neg Bool.false_ne_true]

theorem Screen.wide (hs : Screen c w h) (hin : Inside c w h x y) :
    c.fbWidth.slt (c.cursorX + 8#32) = false := by
  have hwlt := hs.width_lt
  have hright := hin.right
  rw [hs.width, hin.cursorX, BitVec.ofNat_add_ofNat, slt_ofNat hwlt (by omega),
    decide_eq_false_iff_not]
  omega

theorem Screen.high (hs : Screen c w h) (hin : Inside c w h x y) :
    c.fbHeight.slt (c.cursorY + 16#32) = false := by
  have hhlt := hs.height_lt
  have hbottom := hin.bottom
  rw [hs.height, hin.cursorY, BitVec.ofNat_add_ofNat, slt_ofNat hhlt (by omega),
    decide_eq_false_iff_not]
  omega

theorem liminefbEraseChar_eq (hrows : c.HasRows) (depth : ℕ) :
    ∃ m, liminefbEraseChar depth c = liminefbRedrawCursor depth { c with mem := m } := by
  obtain ⟨n, hn⟩ := hrows
  have hpixels : ∃ m, forPixels 16 8 (fun c i j => do
      let rowPixels ← c.rowPixels
      .ok (c.setPixel ((c.cursorY + i) * rowPixels + (c.cursorX + j)) 0x000000#32)) c =
        .ok { c with mem := m } :=
    forPixels_ok (fun m i j => setPixel_ok hn m (fun rowPixels =>
      (c.cursorY + i) * rowPixels + (c.cursorX + j)) 0x000000#32) 16 8
  obtain ⟨m, hok⟩ := hpixels
  refine ⟨m, ?_⟩
  unfold liminefbEraseChar
  rw [hok]
  rfl

/-- `liminefb_erase_char` leaves the cursor where it is. -/
theorem Screen.eraseChar (hs : Screen c w h) (depth : ℕ)
    (hx : c.fbWidth.slt (c.cursorX + 8#32) = false) (hy : c.fbHeight.slt c.cursorY = false) :
    ∃ m, liminefbEraseChar (depth + 1) c = .ok (c.at m c.cursorX c.cursorY) := by
  obtain ⟨m, heq⟩ := liminefbEraseChar_eq hs.rows (depth + 1)
  obtain ⟨m', hok⟩ := liminefbRedrawCursor_ok (c := { c with mem := m }) depth hs.rows hx hy
  exact ⟨m', heq.trans hok⟩

theorem slt_zero_ofNat {n : ℕ} (hn : n < 2 ^ 31) :
    (0#32).slt (BitVec.ofNat 32 n) = decide (0 < n) :=
  slt_ofNat (by norm_num) hn

theorem Screen.backspace_in_line (hs : Screen c w h) (hin : Inside c w h x y) (depth : ℕ)
    (hx : 8 ≤ x) (color : BitVec 32) :
    ∃ m, liminefbPutchar (depth + 1) c backspace color =
      .ok (c.at m (BitVec.ofNat 32 (x - 8)) (BitVec.ofNat 32 y)) := by
  have hwlt := hs.width_lt
  have hhlt := hs.height_lt
  have hright := hin.right
  have hbottom := hin.bottom
  have hleft : c.cursorX - 8#32 = BitVec.ofNat 32 (x - 8) := by
    rw [hin.cursorX, ← BitVec.ofNat_sub_ofNat_of_le x 8 (by norm_num) hx]
  have hwide : c.fbWidth.slt (c.cursorX - 8#32 + 8#32) = false := by
    rw [hleft, hs.width, BitVec.ofNat_add_ofNat, slt_ofNat hwlt (by omega),
      decide_eq_false_iff_not]
    omega
  have hhigh : c.fbHeight.slt c.cursorY = false := by
    rw [hs.height, hin.cursorY, slt_ofNat hhlt (by omega), decide_eq_false_iff_not]
    omega
  have hs' : Screen { c with cursorX := c.cursorX - 8#32 } w h := hs.moved _ _ _
  obtain ⟨m, hok⟩ := hs'.eraseChar depth hwide hhigh
  refine ⟨m, ?_⟩
  rw [liminefbPutchar_eq (hs.wide hin) (hs.high hin), if_pos rfl, hin.cursorX,
    slt_zero_ofNat (by omega), ← hin.cursorX, if_pos (decide_eq_true (by omega))]
  refine hok.trans ?_
  change Except.ok (c.at m (c.cursorX - 8#32) c.cursorY) = _
  rw [hleft, hin.cursorY]

/-- The start of the last cell of a line. -/
theorem lastCell {w : ℕ} (hge : 8 ≤ w) (hlt : w < 2 ^ 31) :
    ((BitVec.ofNat 32 w).sdiv 8#32 - 1#32) * 8#32 = BitVec.ofNat 32 (8 * (w / 8 - 1)) := by
  rw [sdiv_ofNat hlt (show 8 < 2 ^ 31 by norm_num),
    BitVec.ofNat_sub_ofNat_of_le (w / 8) 1 (by norm_num) (by omega), BitVec.ofNat_mul_ofNat,
    Nat.mul_comm]

/-- At the left of a line that is not the first, `cursor_y` may become negative. -/
theorem Screen.backspace_to_line_above (hs : Screen c w h) (hin : Inside c w h 0 y) (depth : ℕ)
    (hy : 0 < y) (color : BitVec 32) :
    ∃ m, liminefbPutchar (depth + 1) c backspace color =
      .ok (c.at m (BitVec.ofNat 32 (8 * (w / 8 - 1))) (BitVec.ofNat 32 y - 16#32)) := by
  have hwlt := hs.width_lt
  have hwge := hs.width_ge
  have hhlt := hs.height_lt
  have hbottom := hin.bottom
  have hlast : (c.fbWidth.sdiv 8#32 - 1#32) * 8#32 = BitVec.ofNat 32 (8 * (w / 8 - 1)) := by
    rw [hs.width]
    exact lastCell hwge hwlt
  have hwide : c.fbWidth.slt ((c.fbWidth.sdiv 8#32 - 1#32) * 8#32 + 8#32) = false := by
    rw [hlast, hs.width, BitVec.ofNat_add_ofNat, slt_ofNat hwlt (by omega),
      decide_eq_false_iff_not]
    omega
  have hhigh : c.fbHeight.slt (c.cursorY - 16#32) = false := by
    rw [hs.height, hin.cursorY, BitVec.slt, decide_eq_false_iff_not, toInt_ofNat hhlt,
      toInt_ofNat_sub (by omega) (by norm_num)]
    omega
  let c₁ : Console :=
    { c with
      cursorY := c.cursorY - 16#32
      cursorX := (c.fbWidth.sdiv 8#32 - 1#32) * 8#32 }
  have hs₁ : Screen c₁ w h := hs.moved _ _ _
  obtain ⟨m, hok⟩ := hs₁.eraseChar depth hwide hhigh
  refine ⟨m, ?_⟩
  have hx0 : (0#32).slt c.cursorX = false := by
    rw [hin.cursorX]
    rfl
  have hy0 : (0#32).slt c.cursorY = true := by
    rw [hin.cursorY, slt_zero_ofNat (by omega)]
    exact decide_eq_true hy
  rw [liminefbPutchar_eq (hs.wide hin) (hs.high hin), if_pos rfl, hx0, if_neg Bool.false_ne_true,
    hy0, if_pos rfl]
  refine hok.trans ?_
  change Except.ok (c.at m ((c.fbWidth.sdiv 8#32 - 1#32) * 8#32) (c.cursorY - 16#32)) = _
  rw [hlast, hin.cursorY]

theorem Screen.backspace_at_start (hs : Screen c w h) (hin : Inside c w h 0 0) (depth : ℕ)
    (color : BitVec 32) : liminefbPutchar depth c backspace color = .ok c := by
  rw [liminefbPutchar_eq (hs.wide hin) (hs.high hin), if_pos rfl, hin.cursorX, hin.cursorY]
  rfl

/-- Printing draws the character, and moves the cursor with `liminefb_redraw_cursor`. -/
theorem Screen.print_eq (hs : Screen c w h) (hin : Inside c w h x y) (depth : ℕ)
    (hbs : ch ≠ backspace) (hlf : ch ≠ lineFeed) (color : BitVec 32) :
    ∃ m, liminefbPutchar depth c ch color = liminefbRedrawCursor depth
      { c with mem := m, cursorX := BitVec.ofNat 32 (x + 8) } := by
  obtain ⟨m, hglyph⟩ := drawGlyph_ok hs.rows ch color
  refine ⟨m, ?_⟩
  rw [liminefbPutchar_eq (hs.wide hin) (hs.high hin), if_neg hbs, if_neg hlf, hglyph,
    ← BitVec.ofNat_add_ofNat, ← hin.cursorX]
  rfl

theorem Screen.print_in_line (hs : Screen c w h) (hin : Inside c w h x y) (depth : ℕ)
    (hbs : ch ≠ backspace) (hlf : ch ≠ lineFeed) (color : BitVec 32)
    (hfits : c.fbWidth.slt (BitVec.ofNat 32 (x + 16)) = false) :
    ∃ m, liminefbPutchar (depth + 1) c ch color =
      .ok (c.at m (BitVec.ofNat 32 (x + 8)) (BitVec.ofNat 32 y)) := by
  have hhlt := hs.height_lt
  have hbottom := hin.bottom
  have hwide : c.fbWidth.slt (BitVec.ofNat 32 (x + 8) + 8#32) = false := by
    rw [BitVec.ofNat_add_ofNat]
    exact hfits
  have hhigh : c.fbHeight.slt c.cursorY = false := by
    rw [hs.height, hin.cursorY, slt_ofNat hhlt (by omega), decide_eq_false_iff_not]
    omega
  obtain ⟨m, heq⟩ := hs.print_eq hin (depth + 1) hbs hlf color
  obtain ⟨m', hok⟩ := liminefbRedrawCursor_ok
    (c := { c with mem := m, cursorX := BitVec.ofNat 32 (x + 8) }) depth hs.rows hwide hhigh
  refine ⟨m', heq.trans (hok.trans ?_)⟩
  change Except.ok (c.at m' (BitVec.ofNat 32 (x + 8)) c.cursorY) = _
  rw [hin.cursorY]

/-- Printing in the last cell of a line takes the cursor to the next line. -/
theorem Screen.print_at_end (hs : Screen c w h) (hin : Inside c w h x y) (depth : ℕ)
    (hbs : ch ≠ backspace) (hlf : ch ≠ lineFeed) (color : BitVec 32)
    (hfull : c.fbWidth.slt (BitVec.ofNat 32 (x + 16)) = true) (hsmall : y + 32 < 2 ^ 31) :
    ∃ m, liminefbPutchar (depth + 4) c ch color =
      .ok (c.at m 0#32 (BitVec.ofNat 32 (nextLine h y))) := by
  have hhlt := hs.height_lt
  have hbottom := hin.bottom
  obtain ⟨m₁, heq⟩ := hs.print_eq hin (depth + 4) hbs hlf color
  have hs₁ : Screen { c with mem := m₁, cursorX := BitVec.ofNat 32 (x + 8) } w h := hs.moved _ _ _
  obtain ⟨m₂, hline⟩ := hs₁.newline depth hin.cursorY hsmall
  have hs₂ : Screen (c.at m₂ 0#32 (BitVec.ofNat 32 (nextLine h y))) w h := hs.at _ _ _
  have hhigh : c.fbHeight.slt (BitVec.ofNat 32 (nextLine h y)) = false := by
    have hnext : nextLine h y ≤ h := by
      unfold nextLine
      split <;> omega
    rw [hs.height, slt_ofNat hhlt (by omega), decide_eq_false_iff_not]
    omega
  obtain ⟨m₃, hredraw⟩ := hs₂.redraw_left (depth + 3) rfl hhigh
  refine ⟨m₃, heq.trans (Eq.trans ?_ hredraw)⟩
  refine liminefbRedrawCursor_wraps ?_ hline hs₂.wide_left
  change c.fbWidth.slt (BitVec.ofNat 32 (x + 8) + 8#32) = true
  rw [BitVec.ofNat_add_ofNat]
  exact hfull

end Putchar

end Osiris.Liminefb
