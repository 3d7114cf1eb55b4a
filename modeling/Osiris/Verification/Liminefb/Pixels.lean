import Osiris.Verification.Liminefb.Putchar

/-! # Pixels and bytes of the framebuffer

An index of type `int` may wrap, so that what is drawn is given by the indices themselves. -/

namespace Osiris.Liminefb

open ByteMemory Strings Heap

/-! ## The framebuffer -/

/-- A framebuffer with 4 bytes for a pixel and a font of 16 rows. The background is never set. -/
structure Framebuffer (c : Console) (w h pitch : ℕ) : Prop where
  bpp : c.bpp = 32#32
  charsize : c.font.charsize = 16#8
  bgColor : c.bgColor = 0#32
  fbWidth : c.fbWidth = BitVec.ofNat 32 w
  fbHeight : c.fbHeight = BitVec.ofNat 32 h
  pitch_eq : c.pitch = BitVec.ofNat 32 pitch
  width_ge : 8 ≤ w
  height_ge : 16 ≤ h
  pitch_ge : 4 * w ≤ pitch
  pitch_dvd : 4 ∣ pitch
  height_lt : h < 2 ^ 31
  pitch_lt : pitch < 2 ^ 31

section Framebuffer

variable {c : Console} {w h pitch : ℕ}

theorem Framebuffer.rowPixels (hfb : Framebuffer c w h pitch) :
    c.rowPixels = .ok (BitVec.ofNat 32 (pitch / 4)) := by
  have hfour : c.bpp.sdiv 8#32 = BitVec.ofNat 32 4 := by
    rw [hfb.bpp]
    decide
  unfold Console.rowPixels divide
  rw [hfour, if_neg (by simp), hfb.pitch_eq, sdiv_ofNat hfb.pitch_lt (by norm_num)]

theorem Framebuffer.screen (hfb : Framebuffer c w h pitch) : Screen c w h := by
  have hpitch := hfb.pitch_ge
  have hlt := hfb.pitch_lt
  exact ⟨⟨_, hfb.rowPixels⟩, hfb.fbWidth, hfb.fbHeight, hfb.width_ge, hfb.height_ge, by omega,
    hfb.height_lt⟩

theorem Framebuffer.charsize_eq (hfb : Framebuffer c w h pitch) : c.charsize = 16#32 := by
  unfold Console.charsize
  rw [hfb.charsize]
  decide

end Framebuffer

/-! ## Pixels -/

/-- The indices that a double loop writes, where its body may leave out some pixels. -/
def pixels (height width : ℕ) (index : BitVec 32 → BitVec 32 → Option (BitVec 32)) :
    List (BitVec 32) :=
  (List.range height).flatMap fun y =>
    (List.range width).flatMap fun x => (index (BitVec.ofNat 32 y) (BitVec.ofNat 32 x)).toList

/-- `fb_addr[index] = color` for each of the indices. -/
def paint (fbAddr : Word) (color : BitVec 32) (m : Mem) (indices : List (BitVec 32)) : Mem :=
  indices.foldl (fun m index => store32 m (fbAddr + 4#64 * index.signExtend 64) color) m

theorem mem_pixels {height width : ℕ} {index : BitVec 32 → BitVec 32 → Option (BitVec 32)}
    {i : BitVec 32} : i ∈ pixels height width index ↔
      ∃ y < height, ∃ x < width, index (BitVec.ofNat 32 y) (BitVec.ofNat 32 x) = some i := by
  simp [pixels]

theorem paint_append (fbAddr : Word) (color : BitVec 32) (m : Mem) (front back : List (BitVec 32)) :
    paint fbAddr color m (front ++ back) = paint fbAddr color (paint fbAddr color m front) back :=
  List.foldl_append

/-- A byte that is painted over is one of the color. -/
theorem paint_apply (fbAddr : Word) (color : BitVec 32) (m : Mem) (indices : List (BitVec 32))
    (a : Word) :
    paint fbAddr color m indices a = m a ∨
      (∃ i ∈ indices, InRange (fbAddr + 4#64 * i.signExtend 64) 4 a) ∧
        ∃ k, paint fbAddr color m indices a = color.extractLsb' k 8 := by
  induction indices using List.reverseRecOn with
  | nil => exact .inl rfl
  | append_singleton indices i ih =>
      rw [paint_append]
      change store32 (paint fbAddr color m indices) _ color a = m a ∨ _ ∧ ∃ k,
        store32 (paint fbAddr color m indices) _ color a = _
      unfold store32
      split
      · rename_i hin
        exact .inr ⟨⟨i, by simp, hin⟩, _, rfl⟩
      · cases ih with
        | inl hsame => exact .inl hsame
        | inr hpainted =>
            obtain ⟨⟨j, hj, hin⟩, hcolor⟩ := hpainted
            exact .inr ⟨⟨j, List.mem_append_left _ hj, hin⟩, hcolor⟩

/-- The pixel that a byte of the framebuffer is in. -/
theorem inRange_pixel_iff (fbAddr : Word) (i : BitVec 32) {o : ℕ} (ho : o < 2 ^ 62) :
    InRange (fbAddr + 4#64 * i.signExtend 64) 4 (fbAddr + BitVec.ofNat 64 o) ↔
      i.toInt = (o / 4 : ℕ) := by
  have hlo := BitVec.le_toInt i
  have hhi := BitVec.toInt_lt (x := i)
  have hdiff : fbAddr + BitVec.ofNat 64 o - (fbAddr + 4#64 * i.signExtend 64) =
      BitVec.ofInt 64 (o - 4 * i.toInt) := by
    rw [add_sub_add_left_eq_sub, BitVec.sub_eq_add_neg, sub_eq_add_neg, BitVec.ofInt_add,
      BitVec.ofInt_neg, BitVec.ofInt_mul, BitVec.ofInt_natCast]
    rfl
  unfold InRange
  rw [hdiff, BitVec.toNat_ofInt]
  norm_num at hlo hhi ⊢
  omega

/-! ## The cursor -/

section Cursor

variable {c : Console} {w h pitch px py : ℕ}

/-- The pixels of a cursor at `px` and `py`, where a row takes `row` pixels. -/
def cursorPixels (row px py : ℕ) : List (BitVec 32) :=
  pixels 2 8 fun y x =>
    some ((BitVec.ofNat 32 py + 16#32 - 2#32 + y) * BitVec.ofNat 32 row + (BitVec.ofNat 32 px + x))

/-- The pixels of a cursor that are on the screen. -/
def drawnPixels (fbWidth fbHeight : BitVec 32) (row px py : ℕ) : List (BitVec 32) :=
  pixels 2 8 fun y x =>
    let fbY := BitVec.ofNat 32 py + 16#32 - 2#32 + y
    let fbX := BitVec.ofNat 32 px + x
    if fbHeight.sle fbY ∨ fbWidth.sle fbX then none
    else some (fbY * BitVec.ofNat 32 row + fbX)

theorem drawnPixels_subset (fbWidth fbHeight : BitVec 32) (row px py : ℕ) :
    drawnPixels fbWidth fbHeight row px py ⊆ cursorPixels row px py := by
  intro i hi
  obtain ⟨y, hy, x, hx, hpixel⟩ := mem_pixels.mp hi
  refine mem_pixels.mpr ⟨y, hy, x, hx, ?_⟩
  dsimp only at hpixel
  split at hpixel
  · cases hpixel
  · exact hpixel

/-- The pixels of a cursor are those of two rows. -/
theorem mem_cursorPixels {row px py : ℕ} {i : BitVec 32} :
    i ∈ cursorPixels row px py ↔
      ∃ y < 2, ∃ x < 8, i = BitVec.ofNat 32 ((py + 14 + y) * row + (px + x)) := by
  unfold cursorPixels
  rw [mem_pixels]
  have hindex : ∀ y x : ℕ, (BitVec.ofNat 32 py + 16#32 - 2#32 + BitVec.ofNat 32 y) *
      BitVec.ofNat 32 row + (BitVec.ofNat 32 px + BitVec.ofNat 32 x) =
        BitVec.ofNat 32 ((py + 14 + y) * row + (px + x)) := by
    intro y x
    rw [add_sub_assoc, show 16#32 - 2#32 = BitVec.ofNat 32 14 from rfl]
    simp only [BitVec.ofNat_add, BitVec.ofNat_mul]
  simp only [hindex, Option.some.injEq, eq_comm]

/-- A pixel that no index is of keeps its bytes. -/
theorem paint_of_ne (fbAddr : Word) (color : BitVec 32) (m : Mem) {indices : List (BitVec 32)}
    {o : ℕ} (ho : o < 2 ^ 62) (hne : ∀ i ∈ indices, i.toInt ≠ (o / 4 : ℕ)) :
    paint fbAddr color m indices (fbAddr + BitVec.ofNat 64 o) =
      m (fbAddr + BitVec.ofNat 64 o) := by
  refine (paint_apply fbAddr color m indices _).resolve_right fun hpainted => ?_
  obtain ⟨⟨i, hi, hin⟩, -⟩ := hpainted
  exact hne i hi ((inRange_pixel_iff fbAddr i ho).mp hin)

/-- Painting with color 0 only clears. -/
theorem paint_zero (fbAddr : Word) (m : Mem) (indices : List (BitVec 32)) (a : Word) :
    paint fbAddr 0#32 m indices a = m a ∨ paint fbAddr 0#32 m indices a = 0#8 := by
  refine (paint_apply fbAddr 0#32 m indices a).imp_right fun hpainted => ?_
  obtain ⟨-, k, hcolor⟩ := hpainted
  rw [hcolor]
  simp

/-- An index wraps to one that is not larger. -/
theorem toInt_ofNat_wraps (n : ℕ) :
    ∃ k : ℕ, (BitVec.ofNat 32 n).toInt = n - 2 ^ 32 * k := by
  have hlt := BitVec.toInt_lt (x := BitVec.ofNat 32 n)
  have hmod : (BitVec.ofNat 32 n).toInt % 2 ^ 32 = n % 2 ^ 32 := by
    rw [BitVec.toInt_eq_toNat_bmod, BitVec.toNat_ofNat]
    have hbmod := Int.bmod_emod (x := ((n % 2 ^ 32 : ℕ) : ℤ)) (m := 2 ^ 32)
    push_cast at hbmod ⊢
    omega
  norm_num at hlt
  exact ⟨((n - (BitVec.ofNat 32 n).toInt) / 2 ^ 32).toNat, by omega⟩

end Cursor

end Osiris.Liminefb
