import Osiris.Verification.Liminefb.Putchar

/-! # Where the cursor gets to

The cursor goes from cell to cell as text does. That its cells are on the screen takes a screen of
whole lines: scrolling puts the cursor 16 rows above the end of the screen, and backspaces take it
back from there in steps of 16. -/

namespace Osiris.Liminefb

open ByteMemory Strings Heap

/-- One call of `liminefb_putchar` for each character, given with its color. -/
def run (depth : ℕ) (c : Console) (chars : List (Byte × BitVec 32)) : Except Fault Console :=
  chars.foldlM (fun c char => liminefbPutchar depth c char.1 char.2) c

/-- A cell of 8 by 16 pixels that is on the screen. -/
structure OnScreen (c : Console) (x y : BitVec 32) : Prop where
  left : 0 ≤ x.toInt
  column : 8 ∣ x.toInt
  right : x.toInt + 8 ≤ c.fbWidth.toInt
  top : 0 ≤ y.toInt
  bottom : y.toInt + 16 ≤ c.fbHeight.toInt

/-! ## Cells -/

/-- Where a character takes the cursor on a screen of `w` by `h` pixels. -/
def advance (w h : ℕ) (ch : Byte) (cell : ℕ × ℕ) : ℕ × ℕ :=
  if ch = backspace then
    if 0 < cell.1 then (cell.1 - 8, cell.2)
    else if 0 < cell.2 then (8 * (w / 8 - 1), cell.2 - 16)
    else cell
  else if ch = lineFeed then (0, nextLine h cell.2)
  else if cell.1 + 16 ≤ w then (cell.1 + 8, cell.2)
  else (0, nextLine h cell.2)

/-- A cell of the screen from which no sum overflows, and with a whole line above it or none. -/
structure Cell (w h : ℕ) (cell : ℕ × ℕ) : Prop where
  column : 8 ∣ cell.1
  right : cell.1 + 8 ≤ w
  bottom : cell.2 + 16 ≤ h
  line : cell.2 = 0 ∨ 16 ≤ cell.2
  width_lt : cell.1 + 16 < 2 ^ 31
  height_lt : cell.2 + 32 < 2 ^ 31

/-- The console with the cursor drawn in a cell. -/
def Console.atCell (c : Console) (m : Mem) (cell : ℕ × ℕ) : Console :=
  c.at m (BitVec.ofNat 32 cell.1) (BitVec.ofNat 32 cell.2)

section Step

variable {c : Console} {w h : ℕ} {cell : ℕ × ℕ}

theorem Cell.inside (hcell : Cell w h cell) (c : Console) (m : Mem) :
    Inside (c.atCell m cell) w h cell.1 cell.2 :=
  ⟨rfl, rfl, hcell.right, hcell.bottom⟩

theorem Screen.backspace_advance (hs : Screen c w h) (hcell : Cell w h cell) (depth : ℕ) (m : Mem)
    (color : BitVec 32) :
    ∃ m', liminefbPutchar (depth + 1) (c.atCell m cell) backspace color =
      .ok (c.atCell m' (advance w h backspace cell)) := by
  obtain ⟨x, y⟩ := cell
  have hs' : Screen (c.atCell m (x, y)) w h := hs.at _ _ _
  have hin := hcell.inside c m
  unfold advance
  rw [if_pos rfl]
  by_cases hx : 0 < x
  · have hx8 : 8 ≤ x := Nat.le_of_dvd hx hcell.column
    rw [if_pos hx]
    exact hs'.backspace_in_line hin depth hx8 color
  · obtain rfl : x = 0 := by omega
    rw [if_neg hx]
    by_cases hy : 0 < y
    · obtain ⟨m', hok⟩ := hs'.backspace_to_line_above hin depth hy color
      have hy16 : 16 ≤ y := hcell.line.resolve_left (by dsimp only; omega)
      rw [if_pos hy]
      refine ⟨m', hok.trans ?_⟩
      rw [BitVec.ofNat_sub_ofNat_of_le y 16 (by norm_num) hy16]
      rfl
    · obtain rfl : y = 0 := by omega
      rw [if_neg hy]
      exact ⟨m, hs'.backspace_at_start hin (depth + 1) color⟩

/-- `liminefb_putchar` takes the cursor from a cell to the one where `advance` takes it. -/
theorem Screen.putchar (hs : Screen c w h) (hcell : Cell w h cell) (depth : ℕ) (m : Mem)
    (ch : Byte) (color : BitVec 32) :
    ∃ m', liminefbPutchar (depth + 4) (c.atCell m cell) ch color =
      .ok (c.atCell m' (advance w h ch cell)) := by
  have hs' : Screen (c.atCell m cell) w h := hs.at _ _ _
  have hin := hcell.inside c m
  by_cases hbs : ch = backspace
  · rw [hbs]
    exact hs.backspace_advance hcell (depth + 3) m color
  · by_cases hlf : ch = lineFeed
    · obtain ⟨m', hok⟩ := hs'.newline (depth + 1) hin.cursorY hcell.height_lt
      refine ⟨m', ?_⟩
      unfold advance
      rw [liminefbPutchar_eq (hs'.wide hin) (hs'.high hin), if_neg hbs, if_pos hlf, if_neg hbs,
        if_pos hlf]
      exact hok
    · have hfits : (c.atCell m cell).fbWidth.slt (BitVec.ofNat 32 (cell.1 + 16)) =
          decide (w < cell.1 + 16) := by
        rw [hs'.width, slt_ofNat hs.width_lt hcell.width_lt]
      unfold advance
      rw [if_neg hbs, if_neg hlf]
      by_cases hend : cell.1 + 16 ≤ w
      · rw [decide_eq_false (by omega)] at hfits
        rw [if_pos hend]
        exact hs'.print_in_line hin (depth + 3) hbs hlf color hfits
      · rw [decide_eq_true (by omega)] at hfits
        rw [if_neg hend]
        exact hs'.print_at_end hin depth hbs hlf color hfits hcell.height_lt

end Step

/-! ## Runs that stay on the screen -/

section Whole

variable {c : Console} {w h : ℕ} {cell : ℕ × ℕ}

/-- A cell of a screen that has whole lines only. -/
structure InLines (w h : ℕ) (cell : ℕ × ℕ) : Prop where
  column : 8 ∣ cell.1
  line : 16 ∣ cell.2
  right : cell.1 + 8 ≤ w
  bottom : cell.2 + 16 ≤ h

theorem nextLine_inLines {y : ℕ} (hlines : 16 ∣ h) (hline : 16 ∣ y)
    (hbottom : y + 16 ≤ h) : 16 ∣ nextLine h y ∧ nextLine h y + 16 ≤ h := by
  unfold nextLine
  split <;> omega

theorem InLines.advance (hcell : InLines w h cell) (hw : 8 ≤ w) (hlines : 16 ∣ h) (ch : Byte) :
    InLines w h (advance w h ch cell) := by
  obtain ⟨x, y⟩ := cell
  obtain ⟨hcolumn, hline, hright, hbottom⟩ := hcell
  obtain ⟨hline', hbottom'⟩ := nextLine_inLines hlines hline hbottom
  unfold Liminefb.advance
  dsimp only at hcolumn hline hright hbottom hline' hbottom' ⊢
  split
  · split
    · constructor <;> dsimp only <;> omega
    · split
      · constructor <;> dsimp only <;> omega
      · exact ⟨hcolumn, hline, hright, hbottom⟩
  · split
    · exact ⟨Nat.dvd_zero 8, hline', by omega, hbottom'⟩
    · split
      · constructor <;> dsimp only <;> omega
      · exact ⟨Nat.dvd_zero 8, hline', by omega, hbottom'⟩

theorem InLines.toCell (hcell : InLines w h cell) (hw : w + 8 < 2 ^ 31) (hh : h + 16 < 2 ^ 31) :
    Cell w h cell := by
  obtain ⟨hcolumn, hline, hright, hbottom⟩ := hcell
  exact ⟨hcolumn, hright, hbottom, by omega, by omega, by omega⟩

theorem Screen.run (hs : Screen c w h) (hw : w + 8 < 2 ^ 31) (hh : h + 16 < 2 ^ 31)
    (hlines : 16 ∣ h) (depth : ℕ) (hcell : InLines w h cell) (m : Mem)
    (chars : List (Byte × BitVec 32)) :
    ∃ m' cell', run (depth + 4) (c.atCell m cell) chars = .ok (c.atCell m' cell') ∧
      InLines w h cell' := by
  let Good : Console → Prop := fun c' => ∃ m cell, c' = c.atCell m cell ∧ InLines w h cell
  have hstep : ∀ c' (char : Byte × BitVec 32), Good c' →
      ∃ c'', liminefbPutchar (depth + 4) c' char.1 char.2 = .ok c'' ∧ Good c'' := by
    rintro c' char ⟨m, cell, rfl, hcell⟩
    obtain ⟨m', hok⟩ := hs.putchar (hcell.toCell hw hh) depth m char.1 char.2
    exact ⟨_, hok, m', _, rfl, hcell.advance hs.width_ge hlines char.1⟩
  obtain ⟨c', hrun, m', cell', rfl, hcell'⟩ :=
    Loop.foldlM_ok hstep chars (s := c.atCell m cell) ⟨m, cell, rfl, hcell⟩
  exact ⟨m', cell', hrun, hcell'⟩

theorem Screen.onScreen_iff (hs : Screen c w h) (m : Mem) (x y : BitVec 32) :
    OnScreen (c.at m x y) x y ↔
      0 ≤ x.toInt ∧ 8 ∣ x.toInt ∧ x.toInt + 8 ≤ w ∧ 0 ≤ y.toInt ∧ y.toInt + 16 ≤ h := by
  have hwidth : (c.at m x y).fbWidth.toInt = w := by
    change c.fbWidth.toInt = w
    rw [hs.width, toInt_ofNat hs.width_lt]
  have hheight : (c.at m x y).fbHeight.toInt = h := by
    change c.fbHeight.toInt = h
    rw [hs.height, toInt_ofNat hs.height_lt]
  constructor
  · rintro ⟨h₁, h₂, h₃, h₄, h₅⟩
    rw [hwidth] at h₃
    rw [hheight] at h₅
    exact ⟨h₁, h₂, h₃, h₄, h₅⟩
  · rintro ⟨h₁, h₂, h₃, h₄, h₅⟩
    exact ⟨h₁, h₂, hwidth.symm ▸ h₃, h₄, hheight.symm ▸ h₅⟩

theorem Screen.onScreen_of_inLines (hs : Screen c w h) (hcell : InLines w h cell) (m : Mem) :
    OnScreen (c.atCell m cell) (BitVec.ofNat 32 cell.1) (BitVec.ofNat 32 cell.2) := by
  have hwlt := hs.width_lt
  have hhlt := hs.height_lt
  obtain ⟨hcolumn, -, hright, hbottom⟩ := hcell
  refine (hs.onScreen_iff m _ _).mpr ?_
  rw [toInt_ofNat (by omega), toInt_ofNat (by omega)]
  omega

end Whole

/-! ## Runs that leave the screen -/

section Leave

variable {c : Console} {w h : ℕ} {cell : ℕ × ℕ} {depth : ℕ}

/-- Characters that take the cursor to a place. -/
def Reaches (depth : ℕ) (c : Console) (x y : BitVec 32) : Prop :=
  ∃ chars m, run (depth + 4) c chars = .ok (c.at m x y)

/-- The cursor is on the screen after every sequence of characters. -/
def Stays (depth : ℕ) (c : Console) : Prop :=
  ∀ chars, ∃ c', run (depth + 4) c chars = .ok c' ∧ OnScreen c' c'.cursorX c'.cursorY ∧
    OnScreen c' c'.cursorPrevX c'.cursorPrevY

theorem Stays.onScreen {x y : BitVec 32} (hstays : Stays depth c) (hs : Screen c w h)
    (hreaches : Reaches depth c x y) :
    0 ≤ x.toInt ∧ 8 ∣ x.toInt ∧ x.toInt + 8 ≤ w ∧ 0 ≤ y.toInt ∧ y.toInt + 16 ≤ h := by
  obtain ⟨chars, m, hrun⟩ := hreaches
  obtain ⟨c', hrun', hon, -⟩ := hstays chars
  obtain rfl : c.at m x y = c' := Except.ok.inj (hrun.symm.trans hrun')
  exact (hs.onScreen_iff m x y).mp hon

/-- One more character. -/
theorem Reaches.step {x y x' y' : BitVec 32} (hreaches : Reaches depth c x y) (ch : Byte)
    (hstep : ∀ m, ∃ m', liminefbPutchar (depth + 4) (c.at m x y) ch 0#32 =
      .ok (c.at m' x' y')) : Reaches depth c x' y' := by
  obtain ⟨chars, m, hrun⟩ := hreaches
  obtain ⟨m', hok⟩ := hstep m
  refine ⟨chars ++ [(ch, 0#32)], m', ?_⟩
  unfold run at hrun ⊢
  rw [List.foldlM_append, hrun]
  change (liminefbPutchar (depth + 4) (c.at m x y) ch 0#32 >>= pure) = _
  rw [hok]
  rfl

/-- A cell that the cursor is taken to. -/
def ReachesCell (depth : ℕ) (c : Console) (cell : ℕ × ℕ) : Prop :=
  Reaches depth c (BitVec.ofNat 32 cell.1) (BitVec.ofNat 32 cell.2)

theorem ReachesCell.advance (hreaches : ReachesCell depth c cell) (hs : Screen c w h)
    (hcell : Cell w h cell) (ch : Byte) : ReachesCell depth c (advance w h ch cell) :=
  Reaches.step hreaches ch (fun m => hs.putchar hcell depth m ch 0#32)

/-- Letters take the cursor along the first line. -/
theorem Screen.reaches_column (hs : Screen c w h) (hstart : ReachesCell depth c (0, 0)) (k : ℕ)
    (hright : 8 * k + 8 ≤ w) (hsmall : 8 * k + 8 < 2 ^ 31) : ReachesCell depth c (8 * k, 0) := by
  have hhge := hs.height_ge
  induction k with
  | zero => exact hstart
  | succ k ih =>
      have hcell : Cell w h (8 * k, 0) :=
        ⟨Nat.dvd_mul_right 8 k, by dsimp only; omega, by dsimp only; omega, .inl rfl,
          by dsimp only; omega, by norm_num⟩
      have hnext := (ih (by omega) (by omega)).advance hs hcell 0x41#8
      have hadvance : Liminefb.advance w h 0x41#8 (8 * k, 0) = (8 * (k + 1), 0) := by
        unfold Liminefb.advance
        rw [if_neg (by decide), if_neg (by decide), if_pos (by dsimp only; omega)]
        rfl
      rwa [hadvance] at hnext

/-- Newlines take the cursor down the screen. -/
theorem Screen.reaches_line (hs : Screen c w h) (hstart : ReachesCell depth c (0, 0)) (k : ℕ)
    (hbottom : 16 * k + 16 ≤ h) (hsmall : 16 * k + 16 < 2 ^ 31) :
    ReachesCell depth c (0, 16 * k) := by
  have hwge := hs.width_ge
  induction k with
  | zero => exact hstart
  | succ k ih =>
      have hcell : Cell w h (0, 16 * k) :=
        ⟨Nat.dvd_zero 8, by dsimp only; omega, by dsimp only; omega, by dsimp only; omega,
          by norm_num, by dsimp only; omega⟩
      have hnext := (ih (by omega) (by omega)).advance hs hcell lineFeed
      have hadvance : Liminefb.advance w h lineFeed (0, 16 * k) = (0, 16 * (k + 1)) := by
        unfold Liminefb.advance nextLine
        rw [if_neg (by decide), if_pos rfl, if_pos (by dsimp only; omega)]
        rfl
      rwa [hadvance] at hnext

/-- Backspaces take the cursor to the start of its line. -/
theorem Screen.reaches_left (hs : Screen c w h) {k y : ℕ}
    (hreaches : ReachesCell depth c (8 * k, y)) (hright : 8 * k + 8 ≤ w) (hbottom : y + 16 ≤ h) :
    ReachesCell depth c (0, y) := by
  induction k with
  | zero => exact hreaches
  | succ k ih =>
      have hnext : ReachesCell depth c (8 * (k + 1) - 8, y) := by
        refine Reaches.step hreaches backspace (fun m => ?_)
        exact (hs.at m _ _).backspace_in_line ⟨rfl, rfl, hright, hbottom⟩ (depth + 3)
          (by omega) 0#32
      exact ih hnext (by omega)

/-- Backspaces take the cursor up the screen, to the last line with less than 16 rows above it. -/
theorem Screen.reaches_top (hs : Screen c w h) {k r : ℕ}
    (hreaches : ReachesCell depth c (0, 16 * k + r)) (hbottom : 16 * k + r + 16 ≤ h) :
    ReachesCell depth c (0, r) := by
  have hwge := hs.width_ge
  induction k with
  | zero =>
      rw [Nat.mul_zero, Nat.zero_add] at hreaches
      exact hreaches
  | succ k ih =>
      have habove : ReachesCell depth c (8 * (w / 8 - 1), 16 * k + r) := by
        refine Reaches.step hreaches backspace (fun m => ?_)
        obtain ⟨m', hok⟩ := (hs.at m _ _).backspace_to_line_above
          (y := 16 * (k + 1) + r) ⟨rfl, rfl, by omega, hbottom⟩ (depth + 3) (by omega) 0#32
        refine ⟨m', hok.trans ?_⟩
        rw [BitVec.ofNat_sub_ofNat_of_le _ 16 (by norm_num) (by omega),
          show 16 * (k + 1) + r - 16 = 16 * k + r by omega]
        rfl
      exact ih (hs.reaches_left habove (by omega) (by omega)) (by omega)

/-- A screen with part of a line: after scrolling, backspaces take the cursor to a line with less than
16 rows above it. -/
theorem Screen.reaches_remainder (hs : Screen c w h) (hstart : ReachesCell depth c (0, 0))
    (hlines : ¬ 16 ∣ h) (hh : h + 16 < 2 ^ 31) : ReachesCell depth c (0, h % 16) := by
  have hwge := hs.width_ge
  have hhge := hs.height_ge
  have hbottom : ReachesCell depth c (0, 16 * (h / 16 - 1)) :=
    hs.reaches_line hstart _ (by omega) (by omega)
  have hcell : Cell w h (0, 16 * (h / 16 - 1)) :=
    ⟨Nat.dvd_zero 8, by dsimp only; omega, by dsimp only; omega, by dsimp only; omega,
      by norm_num, by dsimp only; omega⟩
  have hscrolled : ReachesCell depth c (0, 16 * (h / 16 - 1) + h % 16) := by
    have hnext := hbottom.advance hs hcell lineFeed
    have hadvance : Liminefb.advance w h lineFeed (0, 16 * (h / 16 - 1)) =
        (0, 16 * (h / 16 - 1) + h % 16) := by
      unfold Liminefb.advance nextLine
      rw [if_neg (by decide), if_pos rfl, if_neg (by dsimp only; omega),
        show h - 16 = 16 * (h / 16 - 1) + h % 16 by omega]
    rwa [hadvance] at hnext
  exact hs.reaches_top hscrolled (by omega)

/-- One more backspace takes the cursor above the screen. -/
theorem Screen.dvd_of_stays (hs : Screen c w h) (hstart : ReachesCell depth c (0, 0))
    (hstays : Stays depth c) (hh : h + 16 < 2 ^ 31) : 16 ∣ h := by
  have hwge := hs.width_ge
  have hhge := hs.height_ge
  by_contra hlines
  have htop := hs.reaches_remainder hstart hlines hh
  have habove : Reaches depth c (BitVec.ofNat 32 (8 * (w / 8 - 1)))
      (BitVec.ofNat 32 (h % 16) - BitVec.ofNat 32 16) := by
    refine Reaches.step htop backspace (fun m => ?_)
    exact (hs.at m _ _).backspace_to_line_above ⟨rfl, rfl, by omega, by omega⟩ (depth + 3)
      (by omega) 0#32
  obtain ⟨-, -, -, htop', -⟩ := hstays.onScreen hs habove
  rw [toInt_ofNat_sub (by omega) (by norm_num)] at htop'
  omega

/-- A screen that is too wide: the test for the end of the line overflows. -/
theorem Screen.width_lt_of_stays (hs : Screen c w h) (hstart : ReachesCell depth c (0, 0))
    (hstays : Stays depth c) : w + 8 < 2 ^ 31 := by
  have hwlt := hs.width_lt
  have hhge := hs.height_ge
  by_contra hwide
  have hcolumn : ReachesCell depth c (8 * (2 ^ 28 - 2), 0) :=
    hs.reaches_column hstart _ (by omega) (by norm_num)
  have hpast : Reaches depth c (BitVec.ofNat 32 (8 * (2 ^ 28 - 2) + 8)) (BitVec.ofNat 32 0) := by
    refine Reaches.step hcolumn 0x41#8 (fun m => ?_)
    refine (hs.at m _ _).print_in_line ⟨rfl, rfl, by omega, by omega⟩ (depth + 3) (by decide)
      (by decide) 0#32 ?_
    rw [(hs.at m _ _).width]
    exact slt_ofNat_of_overflow hwlt (by norm_num) (by norm_num)
  obtain ⟨-, -, hright, -, -⟩ := hstays.onScreen hs hpast
  rw [toInt_ofNat (by norm_num)] at hright
  omega

/-- A screen that is too high: the test for the end of the screen overflows. -/
theorem Screen.height_lt_of_stays (hs : Screen c w h) (hstart : ReachesCell depth c (0, 0))
    (hstays : Stays depth c) : h + 16 < 2 ^ 31 := by
  have hwge := hs.width_ge
  have hhlt := hs.height_lt
  by_contra hhigh
  have hline : ReachesCell depth c (0, 16 * (2 ^ 27 - 2)) :=
    hs.reaches_line hstart _ (by omega) (by norm_num)
  have hpast : Reaches depth c 0#32 (BitVec.ofNat 32 (16 * (2 ^ 27 - 2) + 16)) := by
    refine Reaches.step hline lineFeed (fun m => ?_)
    have hin : Inside (c.at m (BitVec.ofNat 32 0) (BitVec.ofNat 32 (16 * (2 ^ 27 - 2)))) w h 0
        (16 * (2 ^ 27 - 2)) := ⟨rfl, rfl, by omega, by omega⟩
    obtain ⟨m', hok⟩ := (hs.at m _ _).newline_overflow (depth + 2) hin (by norm_num)
    refine ⟨m', ?_⟩
    rw [liminefbPutchar_eq ((hs.at m _ _).wide hin) ((hs.at m _ _).high hin), if_neg (by decide),
      if_pos rfl]
    exact hok
  obtain ⟨-, -, -, -, hbottom⟩ := hstays.onScreen hs hpast
  rw [toInt_ofNat (by norm_num)] at hbottom
  omega

end Leave

/-! ## Screens that cannot be drawn on -/

section Undrawable

variable {c : Console} {fault : Fault}

theorem liminefbEraseCursor_faults (hrow : c.rowPixels = .error fault) :
    liminefbEraseCursor c = .error fault := by
  unfold liminefbEraseCursor forPixels
  rw [show List.range 2 = [0, 1] from rfl, show List.range 8 = 0 :: [1, 2, 3, 4, 5, 6, 7] from rfl,
    List.foldlM_cons, List.foldlM_cons]
  dsimp only
  rw [hrow]
  rfl

/-- A new line is not drawn without the length of a row. -/
theorem liminefbNewline_faults (hrow : c.rowPixels = .error fault)
    (hwide : c.fbWidth.slt (0#32 + 8#32) = false) (depth : ℕ) :
    liminefbNewline (depth + 2) c = .error fault := by
  have herase : liminefbEraseCursor { c with cursorX := 0#32, cursorY := c.cursorY + 16#32 } =
      .error fault := liminefbEraseCursor_faults hrow
  unfold liminefbNewline
  dsimp only
  split
  · unfold liminefbScroll
    rw [herase]
    rfl
  · change liminefbRedrawCursor (depth + 1) _ = _
    unfold liminefbRedrawCursor
    dsimp only
    rw [hwide, if_neg Bool.false_ne_true]
    change (liminefbEraseCursor _ >>= _) = _
    rw [herase]
    rfl

theorem Stays.hasRows {depth : ℕ} (hstays : Stays depth c) (hx : c.cursorX = 0#32)
    (hwide : c.fbWidth.slt (0#32 + 8#32) = false)
    (hhigh : c.fbHeight.slt (c.cursorY + 16#32) = false) : c.HasRows := by
  cases hrow : c.rowPixels with
  | ok n => exact ⟨n, hrow⟩
  | error fault =>
      obtain ⟨c', hrun, -, -⟩ := hstays [(lineFeed, 0#32)]
      have hnewline : liminefbPutchar (depth + 4) c lineFeed 0#32 = .error fault := by
        rw [liminefbPutchar_eq (hx.symm ▸ hwide) hhigh, if_neg (by decide), if_pos rfl]
        exact liminefbNewline_faults hrow hwide (depth + 2)
      unfold run at hrun
      rw [List.foldlM_cons, hnewline] at hrun
      cases hrun

end Undrawable

/-! ## The whole screen -/

theorem eq_atCell {c : Console} (hx : c.cursorX = 0#32) (hy : c.cursorY = 0#32)
    (hprevX : c.cursorPrevX = 0#32) (hprevY : c.cursorPrevY = 0#32) :
    c = c.atCell c.mem (0, 0) := by
  obtain ⟨⟩ := c
  cases hx
  cases hy
  cases hprevX
  cases hprevY
  rfl

/-- On a screen with room for a character, the cursor and the place where it was drawn last stay on
the screen, whatever is printed, exactly if the length of a row can be computed, the height is a
multiple of 16 and the sizes are below the largest `int` by more than a cell. -/
theorem cursor_on_screen_iff (depth : ℕ) {c : Console} (hx : c.cursorX = 0#32)
    (hy : c.cursorY = 0#32) (hprevX : c.cursorPrevX = 0#32) (hprevY : c.cursorPrevY = 0#32)
    (hwidth : 8 ≤ c.fbWidth.toInt) (hheight : 16 ≤ c.fbHeight.toInt) :
    (∀ chars, ∃ c', run (depth + 4) c chars = .ok c' ∧ OnScreen c' c'.cursorX c'.cursorY ∧
      OnScreen c' c'.cursorPrevX c'.cursorPrevY) ↔
      c.HasRows ∧ 16 ∣ c.fbHeight.toInt ∧ c.fbHeight.toInt + 16 < 2 ^ 31 ∧
        c.fbWidth.toInt + 8 < 2 ^ 31 := by
  obtain ⟨w, hw⟩ := Int.eq_ofNat_of_zero_le (show 0 ≤ c.fbWidth.toInt by omega)
  obtain ⟨h, hh⟩ := Int.eq_ofNat_of_zero_le (show 0 ≤ c.fbHeight.toInt by omega)
  have hstart := eq_atCell hx hy hprevX hprevY
  have hwlt : w < 2 ^ 31 := by
    have hlt := BitVec.toInt_lt (x := c.fbWidth)
    norm_num at hlt
    omega
  have hhlt : h < 2 ^ 31 := by
    have hlt := BitVec.toInt_lt (x := c.fbHeight)
    norm_num at hlt
    omega
  have hfbWidth : c.fbWidth = BitVec.ofNat 32 w := by
    apply BitVec.eq_of_toInt_eq
    rw [hw, toInt_ofNat hwlt]
  have hfbHeight : c.fbHeight = BitVec.ofNat 32 h := by
    apply BitVec.eq_of_toInt_eq
    rw [hh, toInt_ofNat hhlt]
  have hreaches : ReachesCell depth c (0, 0) := ⟨[], c.mem, congrArg Except.ok hstart⟩
  rw [hw, hh]
  constructor
  · intro hstays
    have hrows : c.HasRows := by
      refine Stays.hasRows hstays hx ?_ ?_
      · rw [hfbWidth, BitVec.ofNat_add_ofNat, slt_ofNat hwlt (by norm_num),
          decide_eq_false_iff_not]
        omega
      · rw [hfbHeight, hy, BitVec.ofNat_add_ofNat, slt_ofNat hhlt (by norm_num),
          decide_eq_false_iff_not]
        omega
    have hs : Screen c w h :=
      ⟨hrows, hfbWidth, hfbHeight, by omega, by omega, hwlt, hhlt⟩
    have hhigh := hs.height_lt_of_stays hreaches hstays
    have hwide := hs.width_lt_of_stays hreaches hstays
    have hlines := hs.dvd_of_stays hreaches hstays hhigh
    exact ⟨hrows, by omega, by omega, by omega⟩
  · rintro ⟨hrows, hlines, hhigh, hwide⟩ chars
    have hs : Screen c w h :=
      ⟨hrows, hfbWidth, hfbHeight, by omega, by omega, hwlt, hhlt⟩
    have hcell : InLines w h (0, 0) :=
      ⟨Nat.dvd_zero 8, Nat.dvd_zero 16, by dsimp only; omega, by dsimp only; omega⟩
    obtain ⟨m', cell', hrun, hcell'⟩ :=
      hs.run (by omega) (by omega) (by omega) depth hcell c.mem chars
    rw [← hstart] at hrun
    have hon := hs.onScreen_of_inLines hcell' m'
    exact ⟨_, hrun, hon, hon⟩

/-- A framebuffer at `0x1000` with 4 bytes for a pixel, and an empty font. -/
def bootConsole (width height : ℕ) : Console :=
  { mem := fun _ => 0#8
    font := { charsize := 16#8, glyphs := fun _ => 0#8 }
    fbAddr := 0x1000#64
    pitch := BitVec.ofNat 32 (4 * width)
    bpp := 32#32
    cursorX := 0#32
    cursorY := 0#32
    cursorPrevX := 0#32
    cursorPrevY := 0#32
    fbWidth := BitVec.ofNat 32 width
    fbHeight := BitVec.ofNat 32 height
    bgColor := 0#32 }

theorem cursor_on_screen_iff_bootConsole :
    ∃ c', run 4 (bootConsole 1024 768) [(lineFeed, 0#32), (0x41#8, 0#32), (backspace, 0#32)] =
        .ok c' ∧
      OnScreen c' c'.cursorX c'.cursorY ∧ OnScreen c' c'.cursorPrevX c'.cursorPrevY :=
  (cursor_on_screen_iff 0 (c := bootConsole 1024 768) rfl rfl rfl rfl (by decide) (by decide)).mpr
    ⟨⟨1024#32, by decide⟩, by decide, by decide, by decide⟩ _

/-- On a screen of 8 by 17 pixels, a newline scrolls and a backspace takes the cursor to row -15. -/
theorem cursor_leaves_screen :
    8 ≤ (bootConsole 8 17).fbWidth.toInt ∧ 16 ≤ (bootConsole 8 17).fbHeight.toInt ∧
      ∃ c', run 4 (bootConsole 8 17) [(lineFeed, 0#32), (backspace, 0#32)] = .ok c' ∧
        c'.cursorY.toInt = -15 ∧ ¬ OnScreen c' c'.cursorX c'.cursorY := by
  obtain ⟨c', hrun, hrow⟩ := Loop.exists_of_toOption
    (x := run 4 (bootConsole 8 17) [(lineFeed, 0#32), (backspace, 0#32)])
    (f := fun c' => c'.cursorY.toInt) (c := -15) (by decide +kernel)
  refine ⟨by decide, by decide, c', hrun, hrow, fun hon => ?_⟩
  have htop := hon.top
  omega

end Osiris.Liminefb
