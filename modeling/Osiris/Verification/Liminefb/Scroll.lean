import Osiris.Verification.Liminefb.Trace

/-! # Scrolling

The indices of the bytes are of type `int`, so that on a framebuffer of more than 2 GiB they wrap. -/

namespace Osiris.Liminefb

open ByteMemory Strings Heap

/-! ## The picture -/

/-- The byte in row `y` at `x`, where a row takes `pitch` bytes. -/
def Console.byte (c : Console) (pitch y x : ℕ) : Byte :=
  c.mem (c.fbAddr + BitVec.ofNat 64 (y * pitch + x))

/-- Byte `x` of row `y` is in the two lines of 8 pixels that a cursor at `px` and `py` takes. -/
def CursorByte (px py y x : ℕ) : Prop :=
  (y = py + 14 ∨ y = py + 15) ∧ 4 * px ≤ x ∧ x < 4 * px + 32

instance (px py y x : ℕ) : Decidable (CursorByte px py y x) :=
  inferInstanceAs (Decidable (_ ∧ _))

/-- The picture has moved up by a line of text. -/
structure MovedUp (c c' : Console) (h pitch px py : ℕ) : Prop where
  kept : ∀ y x, y + 16 < h → x < pitch → ¬ CursorByte px py y x → ¬ CursorByte px py (y + 16) x →
    ¬ CursorByte 0 (h - 16) y x → c'.byte pitch y x = c.byte pitch (y + 16) x
  cleared : ∀ y x, h ≤ y + 16 → y < h → x < pitch → ¬ CursorByte 0 (h - 16) y x →
    c'.byte pitch y x = 0#8
  cursorX : c'.cursorX = 0#32
  cursorY : c'.cursorY = BitVec.ofNat 32 (h - 16)

/-- A cursor was drawn on the screen last. -/
structure CursorDrawn (c : Console) (w h px py : ℕ) : Prop where
  prevX : c.cursorPrevX = BitVec.ofNat 32 px
  prevY : c.cursorPrevY = BitVec.ofNat 32 py
  right : px + 8 ≤ w
  bottom : py + 16 ≤ h

/-! ## Moving the rows -/

section Rows

variable {c : Console} {w h pitch : ℕ}

/-- What the two loops keep. -/
theorem moveRows_inv {I : Mem → Prop} (hinit : I c.mem)
    (hmove : ∀ m i j, I m → I (setByte m (c.byteAddr i) (m (c.byteAddr j))))
    (hclear : ∀ m i, I m → I (setByte m (c.byteAddr i) 0#8)) : I (moveRows c) := by
  unfold moveRows
  refine Loop.foldl_range_inv (I := fun _ m => I m) _ ?_ fun y _ m hI => ?_
  · refine Loop.foldl_range_inv (I := fun _ m => I m) _ hinit fun y _ m hI => ?_
    exact Loop.foldl_range_inv (I := fun _ m => I m) _ hI fun x _ m hI => hmove m _ _ hI
  · exact Loop.foldl_range_inv (I := fun _ m => I m) _ hI fun x _ m hI => hclear m _ hI

/-- A double loop over the bytes of rows is one loop over all of them. -/
theorem foldl_rows {α : Type*} {step : α → ℕ → α} {body : α → ℕ → ℕ → α} {rows pitch : ℕ}
    (hbody : ∀ y < rows, ∀ x < pitch, ∀ s, body s y x = step s (y * pitch + x)) (s : α) :
    (List.range rows).foldl (fun s y => (List.range pitch).foldl (fun s x => body s y x) s) s =
      (List.range (rows * pitch)).foldl step s := by
  refine Loop.foldl_range_inv (I := fun y s' => s' = (List.range (y * pitch)).foldl step s) rows
    (by simp) fun y hy s' hrow => ?_
  refine Eq.trans (Loop.foldl_range_inv (I := fun x s' =>
    s' = (List.range (y * pitch + x)).foldl step s) pitch hrow fun x hx s' hbyte => ?_) ?_
  · rw [hbyte, hbody y hy x hx, ← add_assoc, List.range_succ, List.foldl_append]
    rfl
  · rw [Nat.succ_mul]

theorem byteAddr_ofNat (c : Console) {n : ℕ} (hn : n < 2 ^ 31) :
    c.byteAddr (BitVec.ofNat 32 n) = c.fbAddr + BitVec.ofNat 64 n := by
  rw [Console.byteAddr, signExtend_ofNat hn]

theorem byte_lt {y x rows : ℕ} (hy : y < rows) (hx : x < pitch) : y * pitch + x < rows * pitch :=
  calc y * pitch + x < y * pitch + pitch := Nat.add_lt_add_left hx _
    _ = (y + 1) * pitch := (Nat.succ_mul y pitch).symm
    _ ≤ rows * pitch := Nat.mul_le_mul_right pitch hy

/-- On a framebuffer of at most 2 GiB, the rows are moved by one copy, and cleared by one fill. -/
theorem moveRows_eq (hfb : Framebuffer c w h pitch) (hsize : h * pitch ≤ 2 ^ 31) :
    moveRows c = fillUp (copyUp c.mem c.fbAddr (c.fbAddr + BitVec.ofNat 64 (16 * pitch))
      ((h - 16) * pitch)) (c.fbAddr + BitVec.ofNat 64 ((h - 16) * pitch)) 0#8 (16 * pitch) := by
  have hge := hfb.height_ge
  have hhlt := hfb.height_lt
  have hkept := hfb.screen.lastLine
  have hrest : c.fbHeight - BitVec.ofNat 32 (h - 16) = BitVec.ofNat 32 16 := by
    rw [hfb.fbHeight, BitVec.ofNat_sub_ofNat_of_le h (h - 16) (by omega) (by omega),
      Nat.sub_sub_self hge]
  have hmove : ∀ m, (List.range (h - 16)).foldl (fun m y => (List.range pitch).foldl (fun m x =>
      setByte m (c.byteAddr (BitVec.ofNat 32 y * BitVec.ofNat 32 pitch + BitVec.ofNat 32 x))
        (m (c.byteAddr ((BitVec.ofNat 32 y + 16#32) * BitVec.ofNat 32 pitch + BitVec.ofNat 32 x)))) m)
        m = copyUp m c.fbAddr (c.fbAddr + BitVec.ofNat 64 (16 * pitch)) ((h - 16) * pitch) := by
    intro m
    rw [copyUp_eq_foldl]
    refine foldl_rows (fun y hy x hx m => ?_) m
    have hto := byte_lt (show y < h by omega) hx
    have hfrom := byte_lt (show y + 16 < h by omega) hx
    rw [BitVec.ofNat_mul_ofNat, BitVec.ofNat_add_ofNat, BitVec.ofNat_add_ofNat,
      BitVec.ofNat_mul_ofNat, BitVec.ofNat_add_ofNat, byteAddr_ofNat c (by omega),
      byteAddr_ofNat c (by omega), add_assoc, BitVec.ofNat_add_ofNat,
      show (y + 16) * pitch + x = 16 * pitch + (y * pitch + x) by ring]
  have hclear : ∀ m, (List.range 16).foldl (fun m i => (List.range pitch).foldl (fun m x =>
      setByte m (c.byteAddr ((BitVec.ofNat 32 (h - 16) + BitVec.ofNat 32 i) *
        BitVec.ofNat 32 pitch + BitVec.ofNat 32 x)) 0#8) m) m =
        fillUp m (c.fbAddr + BitVec.ofNat 64 ((h - 16) * pitch)) 0#8 (16 * pitch) := by
    intro m
    rw [fillUp_eq_foldl]
    refine foldl_rows (fun y hy x hx m => ?_) m
    have hto := byte_lt (show h - 16 + y < h by omega) hx
    rw [BitVec.ofNat_add_ofNat, BitVec.ofNat_mul_ofNat, BitVec.ofNat_add_ofNat,
      byteAddr_ofNat c (by omega), add_assoc, BitVec.ofNat_add_ofNat, add_mul, add_assoc]
  unfold moveRows
  dsimp only
  rw [hkept, hrest, rounds_ofNat (show h - 16 < 2 ^ 31 by omega), hfb.pitch_eq,
    rounds_ofNat hfb.pitch_lt, rounds_ofNat (show 16 < 2 ^ 31 by norm_num), hmove, hclear]

theorem moveRows_kept (hfb : Framebuffer c w h pitch) (hsize : h * pitch ≤ 2 ^ 31) {y x : ℕ}
    (hy : y + 16 < h) (hx : x < pitch) :
    moveRows c (c.fbAddr + BitVec.ofNat 64 (y * pitch + x)) =
      c.mem (c.fbAddr + BitVec.ofNat 64 ((y + 16) * pitch + x)) := by
  have hto := byte_lt (show y < h - 16 by omega) hx
  have hsplit : (h - 16) * pitch + 16 * pitch = h * pitch := by
    rw [← add_mul, Nat.sub_add_cancel hfb.height_ge]
  rw [moveRows_eq hfb hsize, fillUp_of_not_inRange _ _ _ (by omega), copyUp_of_ahead _ _ _
    (by omega) (fun i hi j hj => ?_) hto, add_assoc, BitVec.ofNat_add_ofNat,
    show (y + 16) * pitch + x = 16 * pitch + (y * pitch + x) by ring]
  · rw [add_assoc, BitVec.ofNat_add_ofNat]
    exact add_ofNat_ne c.fbAddr (by omega) (by omega) (by omega)
  · intro hin
    obtain ⟨j, hj, heq⟩ := hin.exists_offset
    rw [add_assoc, BitVec.ofNat_add_ofNat] at heq
    exact add_ofNat_ne c.fbAddr (by omega) (by omega) (by omega) heq

theorem moveRows_cleared (hfb : Framebuffer c w h pitch) (hsize : h * pitch ≤ 2 ^ 31) {y x : ℕ}
    (hy : y < h) (hlast : h ≤ y + 16) (hx : x < pitch) :
    moveRows c (c.fbAddr + BitVec.ofNat 64 (y * pitch + x)) = 0#8 := by
  have hoffset : y * pitch + x = (h - 16) * pitch + ((y - (h - 16)) * pitch + x) := by
    rw [← add_assoc, ← add_mul, Nat.add_sub_cancel' (show h - 16 ≤ y by omega)]
  have hlt := byte_lt (show y - (h - 16) < 16 by omega) hx
  have hpitch := hfb.pitch_lt
  rw [moveRows_eq hfb hsize, fillUp_apply _ _ _ (by omega), hoffset, ← BitVec.ofNat_add_ofNat,
    ← add_assoc, if_pos (inRange_add _ hlt (by omega))]

end Rows

/-! ## `liminefb_scroll` -/

section Scroll

variable {c : Console} {w h pitch px py : ℕ}

/-- What `liminefb_scroll` leaves in memory: the cursor is erased, the rows are moved, and the cursor
is erased again and drawn in the last line. -/
def scrolled (c : Console) (h pitch px py : ℕ) : Mem :=
  let erased := paint c.fbAddr 0#32 c.mem (cursorPixels (pitch / 4) px py)
  let moved := moveRows { c with mem := erased }
  let erased := paint c.fbAddr 0#32 moved (cursorPixels (pitch / 4) px py)
  paint c.fbAddr 0xFFFFFF#32 erased (drawnPixels c.fbWidth c.fbHeight (pitch / 4) 0 (h - 16))

theorem Framebuffer.withMem (hfb : Framebuffer c w h pitch) (m : Mem) (x y : BitVec 32) :
    Framebuffer { c with mem := m, cursorX := x, cursorY := y } w h pitch :=
  ⟨hfb.bpp, hfb.charsize, hfb.bgColor, hfb.fbWidth, hfb.fbHeight, hfb.pitch_eq, hfb.width_ge,
    hfb.height_ge, hfb.pitch_ge, hfb.pitch_dvd, hfb.height_lt, hfb.pitch_lt⟩

theorem liminefbScroll_eq (hfb : Framebuffer c w h pitch) (hdrawn : CursorDrawn c w h px py)
    (depth : ℕ) : liminefbScroll (depth + 2) c =
      .ok (c.at (scrolled c h pitch px py) 0#32 (BitVec.ofNat 32 (h - 16))) := by
  have hlast := hfb.screen.lastLine
  have hhigh : c.fbHeight.slt (c.fbHeight - 16#32) = false := by
    have hlt := hfb.height_lt
    rw [hlast, hfb.fbHeight, slt_ofNat hlt (by omega), decide_eq_false_iff_not]
    omega
  let erased := paint c.fbAddr 0#32 c.mem (cursorPixels (pitch / 4) px py)
  let c₁ : Console :=
    { c with
      mem := moveRows { c with mem := erased }
      cursorX := 0#32
      cursorY := c.fbHeight - 16#32 }
  have hfb₁ : Framebuffer c₁ w h pitch := hfb.withMem _ _ _
  let erasedAgain := paint c.fbAddr 0#32 c₁.mem (cursorPixels (pitch / 4) px py)
  have herase : liminefbEraseCursor c₁ = .ok { c₁ with mem := erasedAgain } :=
    liminefbEraseCursor_eq hfb₁ hdrawn.prevX hdrawn.prevY
  have hdraw : drawCursor { c₁ with mem := erasedAgain } =
      .ok { c₁ with mem := scrolled c h pitch px py } :=
    drawCursor_eq (hfb₁.withMem erasedAgain _ _) rfl hlast
  have hredraw := liminefbRedrawCursor_eq (c := c₁) depth hfb.screen.wide_left hhigh herase hdraw
  unfold liminefbScroll
  rw [liminefbEraseCursor_eq hfb hdrawn.prevX hdrawn.prevY]
  refine hredraw.trans ?_
  rw [← hlast]
  rfl

/-- The pixels of a cursor on the screen, which has less than `2 ^ 31` of them, are its bytes. -/
theorem cursorByte_of_mem (hfb : Framebuffer c w h pitch) (hsize : h * pitch ≤ 2 ^ 31)
    (hright : px + 8 ≤ w) (hbottom : py + 16 ≤ h) {y x : ℕ} (hx : x < pitch) {i : BitVec 32}
    (hi : i ∈ cursorPixels (pitch / 4) px py) (hpixel : i.toInt = ((y * pitch + x) / 4 : ℕ)) :
    CursorByte px py y x := by
  obtain ⟨k, hk, j, hj, rfl⟩ := mem_cursorPixels.mp hi
  obtain ⟨row, rfl⟩ := hfb.pitch_dvd
  have hwide := hfb.pitch_ge
  have hcolumn : px + j < row := by omega
  have hlt : (py + 14 + k) * row + (px + j) < h * row := byte_lt (by omega) hcolumn
  have hpixels : 4 * (h * row) ≤ 2 ^ 31 := by
    rwa [Nat.mul_left_comm] at hsize
  rw [Nat.mul_div_cancel_left row (by norm_num), toInt_ofNat (by omega), Nat.mul_left_comm y 4 row,
    Nat.mul_add_div (by norm_num)] at hpixel
  have hnat : (py + 14 + k) * row + (px + j) = y * row + x / 4 := by exact_mod_cast hpixel
  have hrow : py + 14 + k = y := by
    have hdiv := congrArg (· / row) hnat
    simpa [Nat.mul_add_div, Nat.add_mul_div_right, Nat.mul_comm _ row, Nat.mul_add_div
      (show 0 < row by omega), Nat.div_eq_of_lt hcolumn,
      Nat.div_eq_of_lt (show x / 4 < row by omega)] using hdiv
  rw [hrow] at hnat
  exact ⟨by omega, by omega, by omega⟩

theorem paint_outside (hfb : Framebuffer c w h pitch) (hsize : h * pitch ≤ 2 ^ 31)
    (hright : px + 8 ≤ w) (hbottom : py + 16 ≤ h) {y x : ℕ} (hy : y < h) (hx : x < pitch)
    (hout : ¬ CursorByte px py y x) {indices : List (BitVec 32)}
    (hindices : indices ⊆ cursorPixels (pitch / 4) px py) (fbAddr : Word) (color : BitVec 32)
    (m : Mem) : paint fbAddr color m indices (fbAddr + BitVec.ofNat 64 (y * pitch + x)) =
      m (fbAddr + BitVec.ofNat 64 (y * pitch + x)) := by
  have hlt := byte_lt hy hx
  exact paint_of_ne fbAddr color m (by omega) fun i hi hpixel =>
    hout (cursorByte_of_mem hfb hsize hright hbottom hx (hindices hi) hpixel)

theorem movedUp (hfb : Framebuffer c w h pitch) (hsize : h * pitch ≤ 2 ^ 31)
    (hdrawn : CursorDrawn c w h px py) :
    MovedUp c (c.at (scrolled c h pitch px py) 0#32 (BitVec.ofNat 32 (h - 16))) h pitch px py := by
  have hge := hfb.height_ge
  have hwge := hfb.width_ge
  let erased := paint c.fbAddr 0#32 c.mem (cursorPixels (pitch / 4) px py)
  have hfb₁ : Framebuffer { c with mem := erased } w h pitch := hfb.withMem _ _ _
  -- the cursor is drawn in the last line, and erased before at its old place
  have hdraw : ∀ y x, y < h → x < pitch → ¬ CursorByte 0 (h - 16) y x →
      scrolled c h pitch px py (c.fbAddr + BitVec.ofNat 64 (y * pitch + x)) =
        paint c.fbAddr 0#32 (moveRows { c with mem := erased }) (cursorPixels (pitch / 4) px py)
          (c.fbAddr + BitVec.ofNat 64 (y * pitch + x)) := fun y x hy hx hout =>
    paint_outside hfb hsize (by omega) (by omega) hy hx hout (drawnPixels_subset _ _ _ _ _) _ _ _
  have herase : ∀ m y x, y < h → x < pitch → ¬ CursorByte px py y x →
      paint c.fbAddr 0#32 m (cursorPixels (pitch / 4) px py)
        (c.fbAddr + BitVec.ofNat 64 (y * pitch + x)) =
          m (c.fbAddr + BitVec.ofNat 64 (y * pitch + x)) := fun m y x hy hx hout =>
    paint_outside hfb hsize hdrawn.right hdrawn.bottom hy hx hout (List.Subset.refl _) _ _ _
  refine ⟨fun y x hy hx hold habove hnew => ?_, fun y x hlast hy hx hnew => ?_, rfl, rfl⟩
  · calc scrolled c h pitch px py (c.fbAddr + BitVec.ofNat 64 (y * pitch + x))
        = moveRows { c with mem := erased } (c.fbAddr + BitVec.ofNat 64 (y * pitch + x)) := by
          rw [hdraw y x (by omega) hx hnew, herase _ y x (by omega) hx hold]
      _ = erased (c.fbAddr + BitVec.ofNat 64 ((y + 16) * pitch + x)) :=
          moveRows_kept hfb₁ hsize hy hx
      _ = c.mem (c.fbAddr + BitVec.ofNat 64 ((y + 16) * pitch + x)) :=
          herase _ (y + 16) x hy hx habove
  · have hmoved : moveRows { c with mem := erased }
        (c.fbAddr + BitVec.ofNat 64 (y * pitch + x)) = 0#8 := moveRows_cleared hfb₁ hsize hy hlast hx
    refine (hdraw y x hy hx hnew).trans ?_
    cases paint_zero c.fbAddr (moveRows { c with mem := erased }) (cursorPixels (pitch / 4) px py)
      (c.fbAddr + BitVec.ofNat 64 (y * pitch + x)) with
    | inl hsame => exact hsame.trans hmoved
    | inr hzero => exact hzero

end Scroll

/-! ## Framebuffers of more than 2 GiB -/

section Large

variable {w h pitch : ℕ}

/-- The picture moves up whatever it is, and wherever the cursor was on the screen. -/
def ScrollsUp (depth w h pitch : ℕ) : Prop :=
  ∀ c px py, Framebuffer c w h pitch → CursorDrawn c w h px py →
    ∃ c', liminefbScroll (depth + 2) c = .ok c' ∧ MovedUp c c' h pitch px py

/-- A screen of `w` by `h` pixels with rows of `pitch` bytes, and its contents. -/
def screenOf (m : Mem) (w h pitch : ℕ) : Console :=
  { bootConsole w h with mem := m, pitch := BitVec.ofNat 32 pitch }

/-- A framebuffer of any size. -/
structure Sizes (w h pitch : ℕ) : Prop where
  width_ge : 8 ≤ w
  height_ge : 16 ≤ h
  pitch_ge : 4 * w ≤ pitch
  pitch_dvd : 4 ∣ pitch
  height_lt : h < 2 ^ 31
  pitch_lt : pitch < 2 ^ 31

theorem Sizes.framebuffer (hsizes : Sizes w h pitch) (m : Mem) :
    Framebuffer (screenOf m w h pitch) w h pitch :=
  ⟨rfl, rfl, rfl, rfl, rfl, rfl, hsizes.width_ge, hsizes.height_ge, hsizes.pitch_ge,
    hsizes.pitch_dvd, hsizes.height_lt, hsizes.pitch_lt⟩

theorem Sizes.cursorDrawn (hsizes : Sizes w h pitch) (m : Mem) :
    CursorDrawn (screenOf m w h pitch) w h 0 0 :=
  ⟨rfl, rfl, by have := hsizes.width_ge; omega, by have := hsizes.height_ge; omega⟩

theorem ScrollsUp.movedUp {depth : ℕ} (hscrolls : ScrollsUp depth w h pitch)
    (hsizes : Sizes w h pitch) (m : Mem) :
    MovedUp (screenOf m w h pitch) ((screenOf m w h pitch).at
      (scrolled (screenOf m w h pitch) h pitch 0 0) 0#32 (BitVec.ofNat 32 (h - 16))) h pitch 0 0 := by
  obtain ⟨c', hok, hmoved⟩ := hscrolls _ 0 0 (hsizes.framebuffer m) (hsizes.cursorDrawn m)
  rw [liminefbScroll_eq (hsizes.framebuffer m) (hsizes.cursorDrawn m), Except.ok.injEq] at hok
  rwa [hok]

/-- No index of type `int` is that of a byte from `2 ^ 31` on. -/
theorem byteAddr_ne (c : Console) (i : BitVec 32) {o : ℕ} (hlarge : 2 ^ 31 ≤ o) (ho : o < 2 ^ 62) :
    c.byteAddr i ≠ c.fbAddr + BitVec.ofNat 64 o := by
  intro heq
  have hlo := BitVec.le_toInt i
  have hhi := BitVec.toInt_lt (x := i)
  have hint : (BitVec.ofInt 64 i.toInt).toInt = (BitVec.ofInt 64 o).toInt :=
    congrArg BitVec.toInt (add_left_cancel heq)
  norm_num at hlo hhi
  rw [BitVec.toInt_ofInt, BitVec.toInt_ofInt, Int.bmod_eq_of_le (by norm_num; omega)
    (by norm_num; omega), Int.bmod_eq_of_le (by norm_num) (by norm_num; omega)] at hint
  omega

/-- A cursor paints no pixel behind its last one. -/
theorem cursorPixels_ne {row px py k : ℕ} (hk : (py + 15) * row + px + 7 < k) :
    ∀ i ∈ cursorPixels row px py, i.toInt ≠ k := by
  intro i hi heq
  obtain ⟨y, hy, x, hx, rfl⟩ := mem_cursorPixels.mp hi
  obtain ⟨wraps, hwraps⟩ := toInt_ofNat_wraps ((py + 14 + y) * row + (px + x))
  have hrow : (py + 14 + y) * row ≤ (py + 15) * row := Nat.mul_le_mul_right row (by omega)
  omega

theorem Sizes.lt (hsizes : Sizes w h pitch) : h * pitch < 2 ^ 62 :=
  calc h * pitch < 2 ^ 31 * 2 ^ 31 :=
        Nat.mul_lt_mul'' hsizes.height_lt hsizes.pitch_lt
    _ = 2 ^ 62 := by norm_num

/-- The last byte of rows with more than a cursor is not cleared. -/
theorem scrolled_last (hsizes : Sizes w h pitch) (hlarge : 2 ^ 31 < h * pitch) (hwide : 32 < pitch)
    (m : Mem) : scrolled (screenOf m w h pitch) h pitch 0 0
      ((screenOf m w h pitch).fbAddr + BitVec.ofNat 64 (h * pitch - 1)) =
        m ((screenOf m w h pitch).fbAddr + BitVec.ofNat 64 (h * pitch - 1)) := by
  have hlt := hsizes.lt
  have hge := hsizes.height_ge
  obtain ⟨row, rfl⟩ := hsizes.pitch_dvd
  have hpixels : h * (4 * row) = 4 * (h * row) := Nat.mul_left_comm h 4 row
  have hrows : 16 * row ≤ h * row := Nat.mul_le_mul_right row hge
  have hlast : (h - 16 + 15) * row + row = h * row := by
    rw [← Nat.succ_mul, show (h - 16 + 15).succ = h by omega]
  have hfour : 4 * row / 4 = row := Nat.mul_div_cancel_left row (by norm_num)
  have hpixel : (h * (4 * row) - 1) / 4 = h * row - 1 := by omega
  have hfirst : ∀ i ∈ cursorPixels (4 * row / 4) 0 0, i.toInt ≠ ((h * (4 * row) - 1) / 4 : ℕ) :=
    cursorPixels_ne (by rw [hfour, hpixel]; omega)
  have hdrawn : ∀ i ∈ drawnPixels (screenOf m w h (4 * row)).fbWidth
      (screenOf m w h (4 * row)).fbHeight (4 * row / 4) 0 (h - 16),
      i.toInt ≠ ((h * (4 * row) - 1) / 4 : ℕ) := fun i hi =>
    cursorPixels_ne (by rw [hfour, hpixel]; omega) i (drawnPixels_subset _ _ _ _ _ hi)
  unfold scrolled
  rw [paint_of_ne _ _ _ (by omega) hdrawn, paint_of_ne _ _ _ (by omega) hfirst]
  generalize herased : paint (screenOf m w h (4 * row)).fbAddr 0#32 _ _ = erased
  have hmove : moveRows { screenOf m w h (4 * row) with mem := erased }
      ((screenOf m w h (4 * row)).fbAddr + BitVec.ofNat 64 (h * (4 * row) - 1)) =
        erased ((screenOf m w h (4 * row)).fbAddr + BitVec.ofNat 64 (h * (4 * row) - 1)) := by
    refine moveRows_inv (I := fun m' => m' _ = erased _) rfl (fun m' i j hI => ?_)
      (fun m' i hI => ?_)
    · rw [setByte_of_ne _ _ (byteAddr_ne _ i (by omega) (by omega)).symm]
      exact hI
    · rw [setByte_of_ne _ _ (byteAddr_ne _ i (by omega) (by omega)).symm]
      exact hI
  rw [hmove, ← herased, paint_of_ne _ _ _ (by omega) hfirst]
  rfl

/-- The only byte that is not 0 at first is the last one. It is not moved. -/
theorem scrolled_narrow (hsizes : Sizes 8 h 32) (hlarge : 2 ^ 31 < h * 32) :
    let m : Mem := fun a => if a = 0x1000#64 + BitVec.ofNat 64 (h * 32 - 1) then 1#8 else 0#8
    scrolled (screenOf m 8 h 32) h 32 0 0 (0x1000#64 + BitVec.ofNat 64 ((h - 17) * 32 + 31)) =
      0#8 := by
  intro m
  have hlt := hsizes.lt
  have hzero : ∀ a, a ≠ 0x1000#64 + BitVec.ofNat 64 (h * 32 - 1) → m a = 0#8 :=
    fun a ha => if_neg ha
  have hpaint : ∀ (m' : Mem) indices, (∀ a, a ≠ 0x1000#64 + BitVec.ofNat 64 (h * 32 - 1) →
      m' a = 0#8) → ∀ a, a ≠ 0x1000#64 + BitVec.ofNat 64 (h * 32 - 1) →
        paint 0x1000#64 0#32 m' indices a = 0#8 := fun m' indices hm' a ha =>
    (paint_zero 0x1000#64 m' indices a).elim (fun hsame => hsame.trans (hm' a ha)) id
  have hmove : ∀ (m' : Mem), (∀ a, a ≠ 0x1000#64 + BitVec.ofNat 64 (h * 32 - 1) → m' a = 0#8) →
      ∀ a, a ≠ 0x1000#64 + BitVec.ofNat 64 (h * 32 - 1) →
        moveRows { screenOf m 8 h 32 with mem := m' } a = 0#8 := by
    intro m' hm'
    refine moveRows_inv (I := fun m'' => ∀ a, a ≠ 0x1000#64 + BitVec.ofNat 64 (h * 32 - 1) →
      m'' a = 0#8) hm' (fun m'' i j hI a ha => ?_) (fun m'' i hI a ha => ?_)
    · unfold setByte
      rw [Function.update_apply]
      split
      · exact hI _ (byteAddr_ne (screenOf m 8 h 32) j (by omega) (by omega))
      · exact hI a ha
    · unfold setByte
      rw [Function.update_apply]
      split
      · rfl
      · exact hI a ha
  have hdrawn : ∀ i ∈ drawnPixels (screenOf m 8 h 32).fbWidth (screenOf m 8 h 32).fbHeight
      (32 / 4) 0 (h - 16), i.toInt ≠ (((h - 17) * 32 + 31) / 4 : ℕ) := by
    intro i hi heq
    obtain ⟨y, hy, x, hx, rfl⟩ := mem_cursorPixels.mp (drawnPixels_subset _ _ _ _ _ hi)
    obtain ⟨wraps, hwraps⟩ := toInt_ofNat_wraps ((h - 16 + 14 + y) * (32 / 4) + (0 + x))
    omega
  unfold scrolled
  refine (paint_of_ne (screenOf m 8 h 32).fbAddr _ _ (by omega) hdrawn).trans ?_
  exact hpaint _ _ (hmove _ (hpaint _ _ hzero)) _ (add_ofNat_ne _ (by omega) (by omega) (by omega))

/-- On a framebuffer of more than 2 GiB, some picture does not move up. -/
theorem not_scrollsUp (depth : ℕ) (hsizes : Sizes w h pitch) (hlarge : 2 ^ 31 < h * pitch) :
    ¬ ScrollsUp depth w h pitch := by
  intro hscrolls
  have hge := hsizes.height_ge
  have hwide := hsizes.pitch_ge
  have hwge := hsizes.width_ge
  by_cases hnarrow : 32 < pitch
  · have hmoved := hscrolls.movedUp hsizes fun _ => 0xFF#8
    have hlast := scrolled_last hsizes hlarge hnarrow fun _ => 0xFF#8
    have hcleared := hmoved.cleared (h - 1) (pitch - 1) (by omega) (by omega) (by omega)
      (fun hcursor => by have := hcursor.2; omega)
    unfold Console.byte at hcleared
    have hoffset : (h - 1) * pitch + (pitch - 1) = h * pitch - 1 := by
      rw [Nat.sub_mul, one_mul]
      have hle : pitch ≤ h * pitch := Nat.le_mul_of_pos_left pitch (by omega)
      omega
    rw [hoffset] at hcleared
    exact absurd (hlast.symm.trans hcleared) (by decide)
  · obtain rfl : pitch = 32 := by omega
    obtain rfl : w = 8 := by omega
    let m : Mem := fun a => if a = 0x1000#64 + BitVec.ofNat 64 (h * 32 - 1) then 1#8 else 0#8
    have hmoved := hscrolls.movedUp hsizes m
    have hzero := scrolled_narrow hsizes hlarge
    have hkept := hmoved.kept (h - 17) 31 (by omega) (by norm_num)
      (fun hcursor => by have := hcursor.1; omega) (fun hcursor => by have := hcursor.1; omega)
      (fun hcursor => by have := hcursor.1; omega)
    have hone : (screenOf m 8 h 32).byte 32 (h - 17 + 16) 31 = 1#8 := by
      unfold Console.byte
      rw [show (h - 17 + 16) * 32 + 31 = h * 32 - 1 by omega]
      exact if_pos rfl
    exact absurd (hzero.symm.trans (hkept.trans hone)) (by decide)

end Large

/-- The picture moves up exactly on framebuffers of at most 2 GiB. -/
theorem liminefbScroll_moves_up_iff (depth w h pitch : ℕ) (hsizes : Sizes w h pitch) :
    ScrollsUp depth w h pitch ↔ h * pitch ≤ 2 ^ 31 := by
  constructor
  · intro hscrolls
    by_contra hlarge
    exact not_scrollsUp depth hsizes (not_le.mp hlarge) hscrolls
  · intro hsize c px py hfb hdrawn
    exact ⟨_, liminefbScroll_eq hfb hdrawn depth, movedUp hfb hsize hdrawn⟩

theorem liminefbScroll_moves_up_vga : ScrollsUp 0 640 480 2560 :=
  (liminefbScroll_moves_up_iff 0 640 480 2560
    ⟨by norm_num, by norm_num, by norm_num, by norm_num, by norm_num, by norm_num⟩).mpr
    (by norm_num)

/-- A framebuffer of 4 GiB. -/
theorem liminefbScroll_wraps : ¬ ScrollsUp 0 32768 32768 131072 :=
  not_scrollsUp 0
    ⟨by norm_num, by norm_num, by norm_num, by norm_num, by norm_num, by norm_num⟩ (by norm_num)

end Osiris.Liminefb
