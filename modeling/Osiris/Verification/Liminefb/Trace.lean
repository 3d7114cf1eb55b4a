import Osiris.Verification.Liminefb.Cursor
import Osiris.Verification.Liminefb.Pixels

/-! # The console with a log of the pixels that it writes

Copies of the functions of the driver that keep the indices of all pixels written. They do to the
console what the functions themselves do. -/

namespace Osiris.Liminefb

open ByteMemory Strings Heap

/-- The indices in the order they are written. A byte is logged as the pixel that it is in. -/
structure Drawing where
  console : Console
  written : List ℤ

def Drawing.setPixel (d : Drawing) (index color : BitVec 32) : Drawing :=
  { console := d.console.setPixel index color, written := d.written ++ [index.toInt] }

/-! ## Drawing -/

def forPixelsTr (height width : ℕ)
    (body : Drawing → BitVec 32 → BitVec 32 → Except Fault Drawing) (d : Drawing) :
    Except Fault Drawing :=
  (List.range height).foldlM (fun d y =>
    (List.range width).foldlM (fun d x => body d (BitVec.ofNat 32 y) (BitVec.ofNat 32 x)) d) d

def liminefbEraseCursorTr (d : Drawing) : Except Fault Drawing :=
  forPixelsTr 2 8 (fun d y x => do
    let c := d.console
    let rowPixels ← c.rowPixels
    .ok (d.setPixel
      ((c.cursorPrevY + c.charsize - 2#32 + y) * rowPixels + (c.cursorPrevX + x)) c.bgColor)) d

def drawCursorTr (d : Drawing) : Except Fault Drawing := do
  let rowPixels ← d.console.rowPixels
  forPixelsTr 2 8 (fun d y x =>
    let c := d.console
    let fbY := c.cursorY + c.charsize - 2#32 + y
    let fbX := c.cursorX + x
    if c.fbHeight.sle fbY ∨ c.fbWidth.sle fbX then .ok d
    else .ok (d.setPixel (fbY * rowPixels + fbX) 0xFFFFFF#32)) d

def drawGlyphTr (d : Drawing) (ch : Byte) (color : BitVec 32) : Except Fault Drawing :=
  forPixelsTr d.console.font.charsize.toNat 8 (fun d i j =>
    let c := d.console
    let row := c.font.glyphs (ch.toInt * c.charsize.toInt + i.toInt)
    if row &&& (0x80#8 >>> j.toNat) ≠ 0#8 then do
      let rowPixels ← c.rowPixels
      .ok (d.setPixel ((c.cursorY + i - 2#32) * rowPixels + (c.cursorX + j)) color)
    else .ok d) d

def moveRowsTr (d : Drawing) : Drawing :=
  let c := d.console
  let kept := c.fbHeight - 16#32
  let moved := (List.range (rounds kept)).foldl (fun mw y =>
    (List.range (rounds c.pitch)).foldl (fun mw x =>
      let y := BitVec.ofNat 32 y
      let x := BitVec.ofNat 32 x
      (setByte mw.1 (c.byteAddr (y * c.pitch + x))
          (mw.1 (c.byteAddr ((y + 16#32) * c.pitch + x))),
        mw.2 ++ [(y * c.pitch + x).toInt / 4])) mw) (c.mem, d.written)
  let cleared := (List.range (rounds (c.fbHeight - kept))).foldl (fun mw i =>
    (List.range (rounds c.pitch)).foldl (fun mw x =>
      let index := (kept + BitVec.ofNat 32 i) * c.pitch + BitVec.ofNat 32 x
      (setByte mw.1 (c.byteAddr index) 0#8, mw.2 ++ [index.toInt / 4])) mw) moved
  { console := { c with mem := cleared.1 }, written := cleared.2 }

/-! ## The cursor -/

mutual

def liminefbRedrawCursorTr : ℕ → Drawing → Except Fault Drawing
  | 0, _ => .error .endless
  | depth + 1, d => do
      let d ← if d.console.fbWidth.slt (d.console.cursorX + 8#32) then liminefbNewlineTr depth d
        else .ok d
      let d ← liminefbEraseCursorTr d
      let c := d.console
      let c := if c.fbHeight.slt c.cursorY then { c with cursorY := c.cursorY - 16#32 } else c
      let d ← drawCursorTr { d with console := c }
      let c := d.console
      .ok { d with console := { c with cursorPrevX := c.cursorX, cursorPrevY := c.cursorY } }

def liminefbScrollTr : ℕ → Drawing → Except Fault Drawing
  | 0, _ => .error .endless
  | depth + 1, d => do
      let d ← liminefbEraseCursorTr d
      let d := moveRowsTr d
      let c := d.console
      liminefbRedrawCursorTr depth
        { d with console := { c with cursorX := 0#32, cursorY := c.fbHeight - 16#32 } }

def liminefbNewlineTr : ℕ → Drawing → Except Fault Drawing
  | 0, _ => .error .endless
  | depth + 1, d => do
      let c := d.console
      let d := { d with console := { c with cursorX := 0#32, cursorY := c.cursorY + 16#32 } }
      let d ← if d.console.fbHeight.slt (d.console.cursorY + 16#32) then liminefbScrollTr depth d
        else .ok d
      liminefbRedrawCursorTr depth d

end

def liminefbEraseCharTr (depth : ℕ) (d : Drawing) : Except Fault Drawing := do
  let d ← forPixelsTr 16 8 (fun d i j => do
    let c := d.console
    let rowPixels ← c.rowPixels
    .ok (d.setPixel ((c.cursorY + i) * rowPixels + (c.cursorX + j)) 0x000000#32)) d
  liminefbRedrawCursorTr depth d

def liminefbPutcharTr (depth : ℕ) (d : Drawing) (ch : Byte) (color : BitVec 32) :
    Except Fault Drawing := do
  let d ← if d.console.fbWidth.slt (d.console.cursorX + 8#32) then liminefbNewlineTr depth d
    else .ok d
  let d ← if d.console.fbHeight.slt (d.console.cursorY + 16#32) then liminefbScrollTr depth d
    else .ok d
  let c := d.console
  if ch = backspace then
    if (0#32).slt c.cursorX then
      liminefbEraseCharTr depth { d with console := { c with cursorX := c.cursorX - 8#32 } }
    else if (0#32).slt c.cursorY then
      liminefbEraseCharTr depth
        { d with console :=
          { c with
            cursorY := c.cursorY - 16#32
            cursorX := (c.fbWidth.sdiv 8#32 - 1#32) * 8#32 } }
    else .ok d
  else if ch = lineFeed then liminefbNewlineTr depth d
  else do
    let d ← drawGlyphTr d ch color
    let c := d.console
    liminefbRedrawCursorTr depth { d with console := { c with cursorX := c.cursorX + 8#32 } }

def runTr (depth : ℕ) (d : Drawing) (chars : List (Byte × BitVec 32)) : Except Fault Drawing :=
  chars.foldlM (fun d char => liminefbPutcharTr depth d char.1 char.2) d

/-! ## What the log leaves as it is -/

/-- The result of a copy is that of the function itself, and what was written before is still in the
log. -/
structure Logs (d : Drawing) (r : Except Fault Drawing) (c : Except Fault Console) : Prop where
  console : r.map Drawing.console = c
  grows : ∀ d', r = .ok d' → d.written ⊆ d'.written

section Logs

variable {d d' : Drawing} {r : Except Fault Drawing} {c : Except Fault Console}

theorem Logs.ok (hgrows : d.written ⊆ d'.written) : Logs d (.ok d') (.ok d'.console) where
  console := rfl
  grows _ hok := Except.ok.inj hok ▸ hgrows

theorem Logs.refl (d : Drawing) : Logs d (.ok d) (.ok d.console) :=
  Logs.ok (List.Subset.refl _)

/-- Setting variables of the console logs nothing. -/
theorem Logs.withConsole {c' : Console} (h : Logs { d with console := c' } r c) : Logs d r c :=
  ⟨h.console, h.grows⟩

theorem Logs.bind {f : Drawing → Except Fault Drawing} {g : Console → Except Fault Console}
    (h : Logs d r c) (hf : ∀ d', Logs d' (f d') (g d'.console)) : Logs d (r.bind f) (c.bind g) := by
  cases r with
  | error fault => exact ⟨by rw [← h.console]; rfl, fun d' hok => by cases hok⟩
  | ok d' =>
      obtain rfl : Except.ok d'.console = c := h.console
      exact ⟨(hf d').console, fun d'' hok =>
        List.Subset.trans (h.grows d' rfl) ((hf d').grows d'' hok)⟩

/-- A step that the console and its copy have in common. -/
theorem Logs.bind_same {α : Type} {x : Except Fault α} {f : α → Except Fault Drawing}
    {g : α → Except Fault Console} (hf : ∀ a, Logs d (f a) (g a)) :
    Logs d (x.bind f) (x.bind g) := by
  cases x with
  | error fault => exact ⟨rfl, fun d' hok => by cases hok⟩
  | ok a => exact hf a

theorem Logs.ite {p : Prop} [Decidable p] {r' : Except Fault Drawing} {c' : Except Fault Console}
    (h : Logs d r c) (h' : Logs d r' c') : Logs d (if p then r else r') (if p then c else c') := by
  split
  · exact h
  · exact h'

theorem Logs.foldlM {α : Type} {bodyTr : Drawing → α → Except Fault Drawing}
    {body : Console → α → Except Fault Console}
    (h : ∀ d a, Logs d (bodyTr d a) (body d.console a)) (as : List α) (d : Drawing) :
    Logs d (as.foldlM bodyTr d) (as.foldlM body d.console) := by
  induction as generalizing d with
  | nil => exact Logs.refl d
  | cons a as ih =>
      rw [List.foldlM_cons, List.foldlM_cons]
      exact (h d a).bind ih

theorem forPixelsTr_logs {bodyTr : Drawing → BitVec 32 → BitVec 32 → Except Fault Drawing}
    {body : Console → BitVec 32 → BitVec 32 → Except Fault Console}
    (h : ∀ d y x, Logs d (bodyTr d y x) (body d.console y x)) (height width : ℕ) (d : Drawing) :
    Logs d (forPixelsTr height width bodyTr d) (forPixels height width body d.console) :=
  Logs.foldlM (fun d _ => Logs.foldlM (fun d _ => h d _ _) (List.range width) d)
    (List.range height) d

theorem setPixel_logs (d : Drawing) (index color : BitVec 32) :
    Logs d (.ok (d.setPixel index color)) (.ok (d.console.setPixel index color)) :=
  Logs.ok (List.subset_append_left _ _)

end Logs

/-! ## Drawing -/

theorem liminefbEraseCursorTr_logs (d : Drawing) :
    Logs d (liminefbEraseCursorTr d) (liminefbEraseCursor d.console) :=
  forPixelsTr_logs (fun d _ _ => Logs.bind_same fun _ => setPixel_logs d _ _) 2 8 d

theorem drawCursorTr_logs (d : Drawing) : Logs d (drawCursorTr d) (drawCursor d.console) :=
  Logs.bind_same fun _ =>
    forPixelsTr_logs (fun d _ _ => (Logs.refl d).ite (setPixel_logs d _ _)) 2 8 d

theorem drawGlyphTr_logs (d : Drawing) (ch : Byte) (color : BitVec 32) :
    Logs d (drawGlyphTr d ch color) (drawGlyph d.console ch color) :=
  forPixelsTr_logs (fun d _ _ =>
    (Logs.bind_same fun _ => setPixel_logs d _ _).ite (Logs.refl d)) _ 8 d

/-- The pixels of the bytes that the two loops of `liminefb_scroll` write. -/
def movedPixels (c : Console) : List ℤ :=
  let kept := c.fbHeight - 16#32
  let row (y : BitVec 32) := (List.range (rounds c.pitch)).map fun x =>
    (y * c.pitch + BitVec.ofNat 32 x).toInt / 4
  ((List.range (rounds kept)).flatMap fun y => row (BitVec.ofNat 32 y)) ++
    (List.range (rounds (c.fbHeight - kept))).flatMap fun i => row (kept + BitVec.ofNat 32 i)

theorem moveRowsTr_eq (d : Drawing) : moveRowsTr d =
    ⟨{ d.console with mem := moveRows d.console }, d.written ++ movedPixels d.console⟩ := by
  have hrows : ∀ (step : ℕ → Mem → ℕ → Mem) {index : ℕ → ℕ → ℤ} {xs ys : List ℕ}
      {mw : Mem × List ℤ},
      ys.foldl (fun mw y => xs.foldl (fun mw x => (step y mw.1 x, mw.2 ++ [index y x])) mw) mw =
        (ys.foldl (fun m y => xs.foldl (step y) m) mw.1,
          mw.2 ++ ys.flatMap fun y => xs.map (index y)) := by
    intro step index xs ys mw
    have hrow : ∀ (y : ℕ) (mw : Mem × List ℤ),
        xs.foldl (fun mw x => (step y mw.1 x, mw.2 ++ [index y x])) mw =
          (xs.foldl (step y) mw.1, mw.2 ++ xs.map (index y)) := by
      intro y mw
      induction xs generalizing mw with
      | nil => simp
      | cons x xs ih => simp [ih]
    induction ys generalizing mw with
    | nil => simp
    | cons y ys ih =>
        rw [List.foldl_cons, hrow, ih, List.flatMap_cons, List.append_assoc]
        rfl
  let c := d.console
  unfold moveRowsTr moveRows movedPixels
  dsimp only
  rw [hrows (fun y m x => setByte m
      (c.byteAddr (BitVec.ofNat 32 y * c.pitch + BitVec.ofNat 32 x))
      (m (c.byteAddr ((BitVec.ofNat 32 y + 16#32) * c.pitch + BitVec.ofNat 32 x)))),
    hrows (fun i m x => setByte m (c.byteAddr
      ((c.fbHeight - 16#32 + BitVec.ofNat 32 i) * c.pitch + BitVec.ofNat 32 x)) 0#8),
    List.append_assoc]

/-! ## The cursor -/

theorem cursor_logs (depth : ℕ) (d : Drawing) :
    Logs d (liminefbRedrawCursorTr depth d) (liminefbRedrawCursor depth d.console) ∧
      Logs d (liminefbScrollTr depth d) (liminefbScroll depth d.console) ∧
      Logs d (liminefbNewlineTr depth d) (liminefbNewline depth d.console) := by
  induction depth generalizing d with
  | zero =>
      have herror : Logs d (.error .endless) (.error .endless) := ⟨rfl, fun d' hok => by cases hok⟩
      exact ⟨herror, herror, herror⟩
  | succ depth ih =>
      have hredraw : ∀ d, Logs d (liminefbRedrawCursorTr depth d) _ := fun d => (ih d).1
      refine ⟨?_, ?_, ?_⟩
      · let moved (c : Console) : Console :=
          if c.fbHeight.slt c.cursorY then { c with cursorY := c.cursorY - 16#32 } else c
        let drawn (c : Console) : Console :=
          { c with cursorPrevX := c.cursorX, cursorPrevY := c.cursorY }
        have hend : ∀ d : Drawing,
            Logs d (.ok { d with console := drawn d.console }) (.ok (drawn d.console)) :=
          fun d => Logs.ok (List.Subset.refl _)
        have hdraw : ∀ d : Drawing, Logs d
            ((drawCursorTr { d with console := moved d.console }).bind fun d =>
              .ok { d with console := drawn d.console })
            ((drawCursor (moved d.console)).bind fun c => .ok (drawn c)) := fun d =>
          Logs.withConsole ((drawCursorTr_logs { d with console := moved d.console }).bind hend)
        have hrest : ∀ d : Drawing, Logs d
            ((liminefbEraseCursorTr d).bind fun d =>
              (drawCursorTr { d with console := moved d.console }).bind fun d =>
                .ok { d with console := drawn d.console })
            ((liminefbEraseCursor d.console).bind fun c =>
              (drawCursor (moved c)).bind fun c => .ok (drawn c)) := fun d =>
          (liminefbEraseCursorTr_logs d).bind hdraw
        unfold liminefbRedrawCursorTr liminefbRedrawCursor
        exact ((ih d).2.2.bind hrest).ite (hrest d)
      · have hmoved : ∀ d : Drawing, Logs d (liminefbRedrawCursorTr depth
            { moveRowsTr d with console :=
              { (moveRowsTr d).console with
                cursorX := 0#32
                cursorY := d.console.fbHeight - 16#32 } })
            (liminefbRedrawCursor depth
              { d.console with
                mem := moveRows d.console
                cursorX := 0#32
                cursorY := d.console.fbHeight - 16#32 }) := by
          intro d
          rw [moveRowsTr_eq]
          have hredrawn := hredraw ⟨{ d.console with
            mem := moveRows d.console
            cursorX := 0#32
            cursorY := d.console.fbHeight - 16#32 }, d.written ++ movedPixels d.console⟩
          exact ⟨hredrawn.console, fun d' hok =>
            List.Subset.trans (List.subset_append_left _ _) (hredrawn.grows d' hok)⟩
        unfold liminefbScrollTr liminefbScroll
        exact (liminefbEraseCursorTr_logs d).bind hmoved
      · let next : Drawing :=
          { d with console :=
            { d.console with cursorX := 0#32, cursorY := d.console.cursorY + 16#32 } }
        have hscrolled : ∀ d, Logs d (liminefbScrollTr depth d) (liminefbScroll depth d.console) :=
          fun d => (ih d).2.1
        unfold liminefbNewlineTr liminefbNewline
        exact Logs.withConsole (((hscrolled next).bind hredraw).ite (hredraw next))

theorem liminefbRedrawCursorTr_logs (depth : ℕ) (d : Drawing) :
    Logs d (liminefbRedrawCursorTr depth d) (liminefbRedrawCursor depth d.console) :=
  (cursor_logs depth d).1

theorem liminefbScrollTr_logs (depth : ℕ) (d : Drawing) :
    Logs d (liminefbScrollTr depth d) (liminefbScroll depth d.console) :=
  (cursor_logs depth d).2.1

theorem liminefbNewlineTr_logs (depth : ℕ) (d : Drawing) :
    Logs d (liminefbNewlineTr depth d) (liminefbNewline depth d.console) :=
  (cursor_logs depth d).2.2

theorem liminefbEraseCharTr_logs (depth : ℕ) (d : Drawing) :
    Logs d (liminefbEraseCharTr depth d) (liminefbEraseChar depth d.console) := by
  unfold liminefbEraseCharTr liminefbEraseChar
  refine Logs.bind ?_ (liminefbRedrawCursorTr_logs depth)
  exact forPixelsTr_logs (fun d _ _ => Logs.bind_same fun _ => setPixel_logs d _ _) 16 8 d

/-! ## Characters -/

theorem liminefbPutcharTr_logs (depth : ℕ) (d : Drawing) (ch : Byte) (color : BitVec 32) :
    Logs d (liminefbPutcharTr depth d ch color) (liminefbPutchar depth d.console ch color) := by
  let left (c : Console) : Console := { c with cursorX := c.cursorX - 8#32 }
  let above (c : Console) : Console :=
    { c with
      cursorY := c.cursorY - 16#32
      cursorX := (c.fbWidth.sdiv 8#32 - 1#32) * 8#32 }
  let right (c : Console) : Console := { c with cursorX := c.cursorX + 8#32 }
  have herased : ∀ (d : Drawing) (c : Console),
      Logs d (liminefbEraseCharTr depth { d with console := c }) (liminefbEraseChar depth c) :=
    fun d c => Logs.withConsole (liminefbEraseCharTr_logs depth { d with console := c })
  have hright : ∀ d : Drawing, Logs d
      (liminefbRedrawCursorTr depth { d with console := right d.console })
      (liminefbRedrawCursor depth (right d.console)) := fun d =>
    Logs.withConsole (liminefbRedrawCursorTr_logs depth { d with console := right d.console })
  -- what is done once the cursor has its room
  let typedTr (d : Drawing) : Except Fault Drawing :=
    if ch = backspace then
      if (0#32).slt d.console.cursorX then
        liminefbEraseCharTr depth { d with console := left d.console }
      else if (0#32).slt d.console.cursorY then
        liminefbEraseCharTr depth { d with console := above d.console }
      else .ok d
    else if ch = lineFeed then liminefbNewlineTr depth d
    else (drawGlyphTr d ch color).bind fun d =>
      liminefbRedrawCursorTr depth { d with console := right d.console }
  let typed (c : Console) : Except Fault Console :=
    if ch = backspace then
      if (0#32).slt c.cursorX then liminefbEraseChar depth (left c)
      else if (0#32).slt c.cursorY then liminefbEraseChar depth (above c)
      else .ok c
    else if ch = lineFeed then liminefbNewline depth c
    else (drawGlyph c ch color).bind fun c => liminefbRedrawCursor depth (right c)
  have htyped : ∀ d : Drawing, Logs d (typedTr d) (typed d.console) := fun d =>
    ((herased d _).ite ((herased d _).ite (Logs.refl d))).ite
      ((liminefbNewlineTr_logs depth d).ite ((drawGlyphTr_logs d ch color).bind hright))
  have hscrolled : ∀ d : Drawing, Logs d
      (if d.console.fbHeight.slt (d.console.cursorY + 16#32) then
        (liminefbScrollTr depth d).bind typedTr else typedTr d)
      (if d.console.fbHeight.slt (d.console.cursorY + 16#32) then
        (liminefbScroll depth d.console).bind typed else typed d.console) :=
    fun d => ((liminefbScrollTr_logs depth d).bind htyped).ite (htyped d)
  unfold liminefbPutcharTr liminefbPutchar
  exact ((liminefbNewlineTr_logs depth d).bind hscrolled).ite (hscrolled d)

theorem runTr_logs (depth : ℕ) (d : Drawing) (chars : List (Byte × BitVec 32)) :
    Logs d (runTr depth d chars) (run depth d.console chars) :=
  Logs.foldlM (fun d char => liminefbPutcharTr_logs depth d char.1 char.2) chars d

/-! ## The indices in the log -/

section Indices

variable {c : Console} {color : BitVec 32}

theorem foldlM_paintTr {body : Drawing → ℕ → Except Fault Drawing} {indices : ℕ → List (BitVec 32)}
    (hbody : ∀ m written k, body ⟨{ c with mem := m }, written⟩ k =
      .ok ⟨{ c with mem := paint c.fbAddr color m (indices k) },
        written ++ (indices k).map BitVec.toInt⟩) (ks : List ℕ) (m : Mem) (written : List ℤ) :
    ks.foldlM body ⟨{ c with mem := m }, written⟩ =
      .ok ⟨{ c with mem := paint c.fbAddr color m (ks.flatMap indices) },
        written ++ (ks.flatMap indices).map BitVec.toInt⟩ := by
  induction ks generalizing m written with
  | nil =>
      rw [List.flatMap_nil, List.map_nil, List.append_nil]
      rfl
  | cons k ks ih =>
      rw [List.foldlM_cons, hbody, List.flatMap_cons, paint_append, List.map_append,
        ← List.append_assoc]
      exact ih _ _

theorem forPixelsTr_eq {body : Drawing → BitVec 32 → BitVec 32 → Except Fault Drawing}
    {index : BitVec 32 → BitVec 32 → Option (BitVec 32)}
    (hbody : ∀ m written y x, body ⟨{ c with mem := m }, written⟩ y x =
      .ok ⟨{ c with mem := paint c.fbAddr color m (index y x).toList },
        written ++ (index y x).toList.map BitVec.toInt⟩) (height width : ℕ) (written : List ℤ) :
    forPixelsTr height width body ⟨c, written⟩ =
      .ok ⟨{ c with mem := paint c.fbAddr color c.mem (pixels height width index) },
        written ++ (pixels height width index).map BitVec.toInt⟩ :=
  foldlM_paintTr (fun m written _ =>
    foldlM_paintTr (fun m written _ => hbody m written _ _) (List.range width) m written)
    (List.range height) c.mem written

variable {w h pitch px py : ℕ}

theorem liminefbEraseCursorTr_eq (hfb : Framebuffer c w h pitch)
    (hx : c.cursorPrevX = BitVec.ofNat 32 px) (hy : c.cursorPrevY = BitVec.ofNat 32 py)
    (written : List ℤ) : liminefbEraseCursorTr ⟨c, written⟩ =
      .ok ⟨{ c with mem := paint c.fbAddr 0#32 c.mem (cursorPixels (pitch / 4) px py) },
        written ++ (cursorPixels (pitch / 4) px py).map BitVec.toInt⟩ := by
  refine forPixelsTr_eq (fun m written y x => ?_) 2 8 written
  change (c.rowPixels >>= fun rowPixels => Except.ok ((⟨{ c with mem := m }, written⟩ :
    Drawing).setPixel ((c.cursorPrevY + c.charsize - 2#32 + y) * rowPixels +
      (c.cursorPrevX + x)) c.bgColor)) = _
  rw [hfb.rowPixels, hfb.charsize_eq, hfb.bgColor, hx, hy]
  rfl

theorem drawCursorTr_eq (hfb : Framebuffer c w h pitch) (hx : c.cursorX = BitVec.ofNat 32 px)
    (hy : c.cursorY = BitVec.ofNat 32 py) (written : List ℤ) :
    let drawn := drawnPixels c.fbWidth c.fbHeight (pitch / 4) px py
    drawCursorTr ⟨c, written⟩ =
      .ok ⟨{ c with mem := paint c.fbAddr 0xFFFFFF#32 c.mem drawn },
        written ++ drawn.map BitVec.toInt⟩ := by
  unfold drawCursorTr
  rw [hfb.rowPixels]
  dsimp only [bind, Except.bind]
  refine forPixelsTr_eq (fun m written y x => ?_) 2 8 written
  change (if c.fbHeight.sle (c.cursorY + c.charsize - 2#32 + y) ∨ c.fbWidth.sle (c.cursorX + x)
    then Except.ok (⟨{ c with mem := m }, written⟩ : Drawing)
    else Except.ok ((⟨{ c with mem := m }, written⟩ : Drawing).setPixel
      ((c.cursorY + c.charsize - 2#32 + y) * BitVec.ofNat 32 (pitch / 4) + (c.cursorX + x))
      0xFFFFFF#32)) = _
  rw [hfb.charsize_eq, ← hx, ← hy]
  dsimp only
  split
  · rw [Option.toList_none, List.map_nil, List.append_nil]
    rfl
  · rfl

theorem liminefbEraseCursor_eq (hfb : Framebuffer c w h pitch)
    (hx : c.cursorPrevX = BitVec.ofNat 32 px) (hy : c.cursorPrevY = BitVec.ofNat 32 py) :
    liminefbEraseCursor c =
      .ok { c with mem := paint c.fbAddr 0#32 c.mem (cursorPixels (pitch / 4) px py) } := by
  rw [← (liminefbEraseCursorTr_logs ⟨c, []⟩).console, liminefbEraseCursorTr_eq hfb hx hy]
  rfl

theorem drawCursor_eq (hfb : Framebuffer c w h pitch) (hx : c.cursorX = BitVec.ofNat 32 px)
    (hy : c.cursorY = BitVec.ofNat 32 py) :
    drawCursor c = .ok { c with
      mem := paint c.fbAddr 0xFFFFFF#32 c.mem
        (drawnPixels c.fbWidth c.fbHeight (pitch / 4) px py) } := by
  rw [← (drawCursorTr_logs ⟨c, []⟩).console, drawCursorTr_eq hfb hx hy]
  rfl

end Indices

end Osiris.Liminefb
