import Osiris.Verification.Liminefb.Written

/-! # Screens that everything can be printed on -/

namespace Osiris.Liminefb

open ByteMemory Strings Heap

/-- Whatever is printed, only pixels of the framebuffer are written. -/
def StaysInside (depth : ℕ) (c : Console) (h pitch : ℕ) : Prop :=
  ∀ chars, ∃ d, runTr (depth + 4) ⟨c, []⟩ chars = .ok d ∧ ∀ i ∈ d.written, PixelOf h pitch i

section Runs

variable {c : Console} {w h pitch depth : ℕ}

/-- Printing a character after a run has got the cursor somewhere. -/
theorem StaysInside.step (hstays : StaysInside depth c h pitch) {x y : BitVec 32}
    (hreaches : Reaches depth c x y) (ch : Byte) :
    ∃ m written d, liminefbPutcharTr (depth + 4) ⟨c.at m x y, written⟩ ch 0#32 = .ok d ∧
      ∀ i ∈ d.written, PixelOf h pitch i := by
  obtain ⟨chars, m, hrun⟩ := hreaches
  obtain ⟨d, hok, hinside⟩ := hstays (chars ++ [(ch, 0#32)])
  unfold runTr at hok
  rw [List.foldlM_append] at hok
  obtain ⟨d₁, hfirst, hlast⟩ := Loop.bind_eq_ok.mp hok
  obtain ⟨d₂, hchar, hend⟩ := Loop.bind_eq_ok.mp hlast
  obtain rfl : d₂ = d := Except.ok.inj hend
  have hconsole := (runTr_logs (depth + 4) ⟨c, []⟩ chars).console
  unfold runTr at hconsole
  rw [hfirst, hrun] at hconsole
  obtain ⟨console, written⟩ := d₁
  obtain rfl : console = c.at m x y := Except.ok.inj hconsole
  exact ⟨m, written, d₂, hchar, hinside⟩

/-- The glyphs are blank in the two rows that are above the cell, and no line is cut off. -/
structure Printable (glyphs : ℤ → Byte) (h : ℕ) : Prop where
  lines : 16 ∣ h
  blank : ∀ ch : Byte, ch ≠ backspace → ch ≠ lineFeed →
    ∀ i < 2, glyphs (ch.toInt * 16 + (i : ℕ)) = 0#8

theorem Printable.carefulRun {glyphs : ℤ → Byte} (hprintable : Printable glyphs h) (hw : 8 ≤ w)
    {cell : ℕ × ℕ} (hcell : InLines w h cell) (chars : List (Byte × BitVec 32)) :
    CarefulRun glyphs w h cell chars := by
  induction chars generalizing cell with
  | nil => trivial
  | cons char chars ih =>
      refine ⟨?_, ih (hcell.advance hw hprintable.lines char.1)⟩
      have hline := hcell.line
      unfold Careful
      split
      · omega
      · rename_i hbs
        exact fun hlf i hi _ => hprintable.blank char.1 hbs hlf i hi

theorem StaysInside.printable (hstays : StaysInside depth c h pitch)
    (hfb : Framebuffer c w h pitch) (hsize : h * pitch ≤ 2 ^ 31)
    (hstart : ReachesCell depth c (0, 0)) : Printable c.font.glyphs h := by
  have hwge := hfb.width_ge
  have hhge := hfb.height_ge
  have hsmall := hfb.small hsize
  have hcareful : ∀ cell, Fits w h cell → ReachesCell depth c cell → ∀ ch,
      Careful c.font.glyphs cell ch := by
    intro cell hcell hreaches ch
    by_contra hcareless
    obtain ⟨m, written, d, hok, hinside⟩ := hstays.step hreaches ch
    obtain ⟨i, hi, hout⟩ := hfb.putchar_strays hsize hcell hcareless depth m 0#32 written hok
    exact hout (hinside i hi)
  refine ⟨?_, fun ch hbs hlf i hi => ?_⟩
  · by_contra hlines
    have hremainder := hfb.screen.reaches_remainder hstart hlines (by omega)
    have hbackspace := hcareful (0, h % 16)
      ⟨Nat.dvd_zero 8, by dsimp only; omega, by dsimp only; omega⟩ hremainder backspace
    unfold Careful at hbackspace
    rw [if_pos rfl] at hbackspace
    exact hbackspace ⟨rfl, by dsimp only; omega, Nat.mod_lt h (by norm_num)⟩
  · have hfirst := hcareful (0, 0) ⟨Nat.dvd_zero 8, by dsimp only; omega, by dsimp only; omega⟩
      hstart ch
    unfold Careful at hfirst
    rw [if_neg hbs] at hfirst
    exact hfirst hlf i hi (by omega)

/-! ## Framebuffers of more than 2 GiB -/

/-- The index of the byte at 2 GiB is negative. -/
theorem exists_movedPixels_neg (hfb : Framebuffer c w h pitch) (hlarge : 2 ^ 31 < h * pitch) :
    ∃ i ∈ movedPixels c, ¬ PixelOf h pitch i := by
  have hpitch := hfb.pitch_ge
  have hwge := hfb.width_ge
  have hpos : 0 < pitch := by omega
  have hrow : 2 ^ 31 / pitch < h := by
    rwa [Nat.div_lt_iff_lt_mul hpos]
  have hbyte : 2 ^ 31 / pitch * pitch + 2 ^ 31 % pitch = 2 ^ 31 := Nat.div_add_mod' _ _
  refine ⟨_, (mem_movedPixels hfb).mpr ⟨_, hrow, _, Nat.mod_lt (2 ^ 31) hpos, rfl⟩, ?_⟩
  rw [hbyte]
  unfold PixelOf
  rw [show (BitVec.ofNat 32 (2 ^ 31)).toInt = -2 ^ 31 by decide]
  omega

/-- A newline in the last line scrolls. -/
theorem newline_strays (hfb : Framebuffer c w h pitch) (hlarge : 2 ^ 31 < h * pitch) {x y : ℕ}
    (hin : Inside c w h x y) (hlast : h < y + 32) (hsmall : y + 32 < 2 ^ 31)
    (hprevX : c.cursorPrevX = BitVec.ofNat 32 x) (hprevY : c.cursorPrevY = BitVec.ofNat 32 y)
    (written : List ℤ) {d : Drawing}
    (hok : liminefbPutcharTr (depth + 4) ⟨c, written⟩ lineFeed 0#32 = .ok d) :
    ∃ i ∈ d.written, ¬ PixelOf h pitch i := by
  have hroom : c.fbHeight.slt (c.cursorY + 16#32 + 16#32) = true := by
    rw [hfb.fbHeight, hin.cursorY, BitVec.ofNat_add_ofNat, BitVec.ofNat_add_ofNat,
      slt_ofNat hfb.height_lt (by omega)]
    exact decide_eq_true (by omega)
  let next : Console := { c with cursorX := 0#32, cursorY := c.cursorY + 16#32 }
  have hnext : Framebuffer next w h pitch := hfb.withMem _ _ _
  rw [liminefbPutcharTr_eq (hfb.screen.wide hin) (hfb.screen.high hin), if_neg (by decide),
    if_pos rfl] at hok
  unfold liminefbNewlineTr at hok
  dsimp only at hok
  rw [hroom, if_pos rfl] at hok
  obtain ⟨d₁, hscroll, hredraw⟩ := Loop.bind_eq_ok.mp hok
  unfold liminefbScrollTr at hscroll
  obtain ⟨d₂, herase, hmoved⟩ := Loop.bind_eq_ok.mp hscroll
  rw [show liminefbEraseCursorTr ⟨next, written⟩ = _ from
    liminefbEraseCursorTr_eq hnext hprevX hprevY written] at herase
  obtain rfl := (Except.ok.inj herase).symm
  rw [moveRowsTr_eq] at hmoved
  have herased : Framebuffer { next with
      mem := paint next.fbAddr 0#32 next.mem (cursorPixels (pitch / 4) x y) } w h pitch :=
    hnext.withMem _ _ _
  obtain ⟨i, hi, hout⟩ := exists_movedPixels_neg herased hlarge
  have hscrolled := (liminefbRedrawCursorTr_logs (depth + 2) _).grows d₁ hmoved
    (List.mem_append_right _ hi)
  exact ⟨i, (liminefbRedrawCursorTr_logs (depth + 3) d₁).grows d hredraw hscrolled, hout⟩

/-- An index from `2 ^ 31` on wraps to a negative one. -/
theorem toInt_ofNat_neg {n : ℕ} (hn : 2 ^ 31 ≤ n) (hn' : n < 2 ^ 32) :
    (BitVec.ofNat 32 n).toInt < 0 := by
  rw [BitVec.toInt_eq_toNat_cond, BitVec.toNat_ofNat]
  omega

/-- A backspace erases a cell with a pixel from `2 ^ 31` on. -/
theorem backspace_strays (hfb : Framebuffer c w h pitch) {r : ℕ} (hr : 2 ^ 31 ≤ r * (pitch / 4))
    (hr' : r * (pitch / 4) < 2 ^ 31 + pitch / 4) (hin : Inside c w h 0 (16 * (r / 16) + 16))
    (written : List ℤ) {d : Drawing}
    (hok : liminefbPutcharTr (depth + 4) ⟨c, written⟩ backspace 0#32 = .ok d) :
    ∃ i ∈ d.written, ¬ PixelOf h pitch i := by
  have hwge := hfb.width_ge
  have hhlt := hfb.height_lt
  have hpitch := hfb.pitch_ge
  have hplt := hfb.pitch_lt
  have hbottom := hin.bottom
  have hleft : (0#32).slt c.cursorX = false := by
    rw [hin.cursorX]
    decide
  have htop : (0#32).slt c.cursorY = true := by
    rw [hin.cursorY, slt_zero_ofNat (by omega)]
    exact decide_eq_true (by omega)
  rw [liminefbPutcharTr_eq (hfb.screen.wide hin) (hfb.screen.high hin), if_pos rfl, hleft,
    if_neg Bool.false_ne_true, htop, if_pos rfl] at hok
  let above : Console :=
    { c with
      cursorY := c.cursorY - 16#32
      cursorX := (c.fbWidth.sdiv 8#32 - 1#32) * 8#32 }
  have habove : Framebuffer above w h pitch := hfb.withMem _ _ _
  have hlast : above.cursorX = BitVec.ofNat 32 (8 * (w / 8 - 1)) := by
    change (c.fbWidth.sdiv 8#32 - 1#32) * 8#32 = _
    rw [hfb.fbWidth]
    exact lastCell hwge (by omega)
  have hline : above.cursorY = BitVec.ofNat 32 (16 * (r / 16)) := by
    change c.cursorY - 16#32 = _
    rw [hin.cursorY, BitVec.ofNat_sub_ofNat_of_le _ 16 (by norm_num) (by omega),
      Nat.add_sub_cancel]
  have hpixel : (above.cursorY + BitVec.ofNat 32 (r % 16)) * BitVec.ofNat 32 (pitch / 4) +
      (above.cursorX + 0#32) ∈ erasedPixels (pitch / 4) above.cursorX above.cursorY :=
    mem_pixels.mpr ⟨r % 16, Nat.mod_lt r (by norm_num), 0, by norm_num, rfl⟩
  have hindex : (above.cursorY + BitVec.ofNat 32 (r % 16)) * BitVec.ofNat 32 (pitch / 4) +
      (above.cursorX + 0#32) = BitVec.ofNat 32 (r * (pitch / 4) + 8 * (w / 8 - 1)) := by
    rw [hline, hlast, BitVec.add_zero, BitVec.ofNat_add_ofNat, Nat.div_add_mod,
      BitVec.ofNat_mul_ofNat, BitVec.ofNat_add_ofNat]
  obtain ⟨m, herase⟩ := liminefbEraseCharTr_eq habove (depth + 4) written
  refine ⟨_, (liminefbRedrawCursorTr_logs (depth + 4) _).grows d (herase.symm.trans hok)
    (List.mem_append_right _ (List.mem_map_of_mem hpixel)), fun hinside => ?_⟩
  rw [hindex] at hinside
  exact absurd hinside.1 (not_le.mpr (toInt_ofNat_neg (by omega) (by omega)))

/-- On a framebuffer of more than 2 GiB, scrolling or a backspace far down the screen writes before
the framebuffer. -/
theorem StaysInside.size_le (hstays : StaysInside depth c h pitch) (hfb : Framebuffer c w h pitch)
    (hstart : ReachesCell depth c (0, 0)) : h * pitch ≤ 2 ^ 31 := by
  have hwge := hfb.width_ge
  have hhge := hfb.height_ge
  have hpitch := hfb.pitch_ge
  by_contra hlarge
  by_cases hhigh : h + 16 < 2 ^ 31
  · have hreaches := hfb.screen.reaches_line hstart (h / 16 - 1) (by omega) (by omega)
    obtain ⟨m, written, d, hok, hinside⟩ := hstays.step hreaches lineFeed
    obtain ⟨i, hi, hout⟩ := newline_strays (hfb.at m _ _) (not_le.mp hlarge)
      ⟨rfl, rfl, by omega, by omega⟩ (by omega) (by omega) rfl rfl written hok
    exact hout (hinside i hi)
  · -- the first row that starts at a pixel from 2 ^ 31 on
    obtain ⟨r, hr⟩ : ∃ r, r = (2 ^ 31 - 1) / (pitch / 4) + 1 := ⟨_, rfl⟩
    have hrow : 8 ≤ pitch / 4 := by omega
    have hdiv := Nat.div_add_mod' (2 ^ 31 - 1) (pitch / 4)
    have hmod := Nat.mod_lt (2 ^ 31 - 1) (show pitch / 4 > 0 by omega)
    have hmul : r * (pitch / 4) = (2 ^ 31 - 1) / (pitch / 4) * (pitch / 4) + pitch / 4 := by
      rw [hr, Nat.succ_mul]
    have hle : (2 ^ 31 - 1) / (pitch / 4) ≤ (2 ^ 31 - 1) / 8 :=
      Nat.div_le_div_left hrow (by norm_num)
    have hreaches := hfb.screen.reaches_line hstart (r / 16 + 1) (by omega) (by omega)
    obtain ⟨m, written, d, hok, hinside⟩ := hstays.step hreaches backspace
    obtain ⟨i, hi, hout⟩ := backspace_strays (hfb.at m _ _) (r := r) (by omega) (by omega)
      ⟨rfl, rfl, by omega, by omega⟩ written hok
    exact hout (hinside i hi)

end Runs

/-! ## Every pixel -/

/-- On a framebuffer of at most 2 GiB, a run writes pixels of the framebuffer only exactly when each
of its characters is careful. Every run does so exactly when the framebuffer has at most 2 GiB and
whole lines, and the glyphs of the font are blank in their first two rows. -/
theorem pixels_on_screen_iff (depth : ℕ) {c : Console} {w h pitch : ℕ}
    (hfb : Framebuffer c w h pitch) (hx : c.cursorX = 0#32) (hy : c.cursorY = 0#32)
    (hprevX : c.cursorPrevX = 0#32) (hprevY : c.cursorPrevY = 0#32) :
    (h * pitch ≤ 2 ^ 31 → ∀ chars,
        ((∃ d, runTr (depth + 4) ⟨c, []⟩ chars = .ok d ∧ ∀ i ∈ d.written, PixelOf h pitch i) ↔
          CarefulRun c.font.glyphs w h (0, 0) chars)) ∧
      ((∀ chars, ∃ d, runTr (depth + 4) ⟨c, []⟩ chars = .ok d ∧
          ∀ i ∈ d.written, PixelOf h pitch i) ↔
        h * pitch ≤ 2 ^ 31 ∧ Printable c.font.glyphs h) ∧
      ∀ chars, (runTr (depth + 4) ⟨c, []⟩ chars).map Drawing.console = run (depth + 4) c chars := by
  have hwge := hfb.width_ge
  have hhge := hfb.height_ge
  have hstart := eq_atCell hx hy hprevX hprevY
  have hreaches : ReachesCell depth c (0, 0) := ⟨[], c.mem, congrArg Except.ok hstart⟩
  have hcell : Fits w h (0, 0) :=
    ⟨Nat.dvd_zero 8, by dsimp only; omega, by dsimp only; omega⟩
  have hrun : h * pitch ≤ 2 ^ 31 → ∀ chars,
      ((∃ d, runTr (depth + 4) ⟨c, []⟩ chars = .ok d ∧ ∀ i ∈ d.written, PixelOf h pitch i) ↔
        CarefulRun c.font.glyphs w h (0, 0) chars) := by
    intro hsize chars
    have hiff := hfb.run_inside_iff hsize depth hcell c.mem (List.forall_mem_nil _) chars
    rwa [← hstart] at hiff
  refine ⟨hrun, ⟨fun hstays => ?_, fun hboth chars => ?_⟩, fun chars =>
    (runTr_logs (depth + 4) ⟨c, []⟩ chars).console⟩
  · have hsize := StaysInside.size_le hstays hfb hreaches
    exact ⟨hsize, StaysInside.printable hstays hfb hsize hreaches⟩
  · obtain ⟨hsize, hprintable⟩ := hboth
    refine (hrun hsize chars).mpr (hprintable.carefulRun hwge ?_ chars)
    exact ⟨Nat.dvd_zero 8, Nat.dvd_zero 16, by dsimp only; omega, by dsimp only; omega⟩

theorem bootConsole_framebuffer {w h : ℕ} (hw : 8 ≤ w) (hw' : 4 * w < 2 ^ 31) (hh : 16 ≤ h)
    (hh' : h < 2 ^ 31) : Framebuffer (bootConsole w h) w h (4 * w) :=
  ⟨rfl, rfl, rfl, rfl, rfl, rfl, hw, hh, le_rfl, Nat.dvd_mul_right 4 w, hh', hw'⟩

/-- The font of `bootConsole` is blank. -/
theorem pixels_on_screen_iff_bootConsole : StaysInside 0 (bootConsole 1024 768) 768 (4 * 1024) :=
  (pixels_on_screen_iff 0 (bootConsole_framebuffer (by norm_num) (by norm_num) (by norm_num)
    (by norm_num)) rfl rfl rfl rfl).2.1.mpr ⟨by norm_num, by norm_num, fun _ _ _ _ _ => rfl⟩

/-- A font whose glyphs are filled. -/
def filledConsole : Console :=
  { bootConsole 640 480 with font := { charsize := 16#8, glyphs := fun _ => 0xFF#8 } }

/-- The first character is drawn from row -2 on. -/
theorem pixels_above_screen :
    Framebuffer filledConsole 640 480 2560 ∧
      ¬ ∃ d, runTr 4 ⟨filledConsole, []⟩ [(0x41#8, 0xFFFFFF#32)] = .ok d ∧
        ∀ i ∈ d.written, PixelOf 480 2560 i := by
  have hfb : Framebuffer filledConsole 640 480 2560 :=
    ⟨rfl, rfl, rfl, rfl, rfl, rfl, by norm_num, by norm_num, by norm_num, by norm_num, by norm_num,
      by norm_num⟩
  refine ⟨hfb, fun hinside => ?_⟩
  have hcell : Fits 640 480 (0, 0) := ⟨by norm_num, by norm_num, by norm_num⟩
  have hcareful := (hfb.run_inside_iff (by norm_num) 0 hcell filledConsole.mem
    (List.forall_mem_nil _) [(0x41#8, 0xFFFFFF#32)]).mp hinside
  exact absurd hcareful.1 (by decide)

end Osiris.Liminefb
