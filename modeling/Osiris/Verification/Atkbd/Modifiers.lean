import Mathlib.Data.Finset.Basic
import Osiris.Model.AtkbdIrq
import Osiris.Verification.Atkbd.Fifo

/-! # The modifier keys

Each flag of the driver follows one key, except that both shift keys set and clear the same flag.
So it is cleared when the first of them is let go. -/

namespace Osiris.Atkbd

open ByteMemory Heap

/-! ## Keys -/

/-- The code of a key that is no modifier. -/
structure PlainCode where
  code : BitVec 7
  ne : code ∉ [0x2A#7, 0x36#7, 0x1D#7, 0x38#7]
deriving DecidableEq

inductive Key where
  | leftShift
  | rightShift
  | ctrl
  | alt
  | plain (c : PlainCode)
deriving DecidableEq

def Key.code : Key → BitVec 7
  | .leftShift => 0x2A#7
  | .rightShift => 0x36#7
  | .ctrl => 0x1D#7
  | .alt => 0x38#7
  | .plain c => c.code

def Key.IsShift (k : Key) : Prop :=
  k = .leftShift ∨ k = .rightShift

inductive KeyEvent where
  | make (k : Key)
  | release (k : Key)
deriving DecidableEq

@[simp] def KeyEvent.key : KeyEvent → Key
  | .make k => k
  | .release k => k

/-- The scancode that the keyboard sends. -/
def KeyEvent.byte : KeyEvent → Byte
  | .make k => k.code.setWidth 8
  | .release k => k.code.setWidth 8 ||| 0x80#8

/-- The keys held after an event. A make code of a key that is held is a repetition. -/
def KeyEvent.hold (keys : Finset Key) : KeyEvent → Finset Key
  | .make k => insert k keys
  | .release k => keys.erase k

def held (events : List KeyEvent) : Finset Key :=
  events.foldl KeyEvent.hold ∅

/-- The flags say which keys are held. -/
structure Follows (m : Modifiers) (keys : Finset Key) : Prop where
  shift : m.shiftDown = true ↔ .leftShift ∈ keys ∨ .rightShift ∈ keys
  ctrl : m.ctrlDown = true ↔ .ctrl ∈ keys
  alt : m.altDown = true ↔ .alt ∈ keys

/-! ## One interrupt -/

/-- What an event does to the flags. -/
def Modifiers.key (m : Modifiers) : KeyEvent → Modifiers
  | .make .leftShift => { m with shiftDown := true }
  | .make .rightShift => { m with shiftDown := true }
  | .make .ctrl => { m with ctrlDown := true }
  | .make .alt => { m with altDown := true }
  | .make (.plain _) => m
  | .release .leftShift => { m with shiftDown := false }
  | .release .rightShift => { m with shiftDown := false }
  | .release .ctrl => { m with ctrlDown := false }
  | .release .alt => { m with altDown := false }
  | .release (.plain _) => m

def Modifiers.scan (m : Modifiers) (scancode : Byte) : Modifiers :=
  if atkbdScancodeIsBreak scancode then atkbdHandleBreak m (scancode &&& 0x7F#8)
  else atkbdProcessExtended m scancode

section Interrupt

variable {fuel left : ℕ} {d d' : Driver} {m : Modifiers}

@[simp] theorem inb_modifiers (d : Driver) (port : BitVec 16) :
    (d.inb port).2.toModifiers = d.toModifiers := rfl

@[simp] theorem outb_modifiers (d : Driver) (port : BitVec 16) (val : Byte) :
    (d.outb port val).toModifiers = d.toModifiers := rfl

theorem waitForKbcWrite_modifiers (hok : atkbdWaitForKbcWrite fuel d = .ok d') :
    d'.toModifiers = d.toModifiers := by
  induction fuel generalizing d with
  | zero => cases hok
  | succ fuel ih =>
      simp only [atkbdWaitForKbcWrite] at hok
      split at hok
      · simpa using ih hok
      · cases hok
        rfl

theorem waitForResponse_modifiers (expected : Byte) :
    (atkbdWaitForResponse expected left d).2.toModifiers = d.toModifiers := by
  induction left generalizing d with
  | zero => rfl
  | succ left ih =>
      simp only [atkbdWaitForResponse]
      split
      · split
        · rfl
        · exact ih
      · exact ih

theorem handleCapslock_modifiers (hok : atkbdHandleCapslock fuel d = .ok d') :
    d'.toModifiers = d.toModifiers := by
  have hset : ∀ (d : Driver) (led : Byte), atkbdSetLed fuel d led = .ok d' →
      d'.toModifiers = d.toModifiers := by
    intro d led hok
    obtain ⟨d₁, hfirst, hok⟩ := Loop.bind_eq_ok.mp hok
    obtain ⟨d₂, hsecond, hok⟩ := Loop.bind_eq_ok.mp hok
    cases hok
    rw [waitForResponse_modifiers, outb_modifiers, waitForKbcWrite_modifiers hsecond,
      outb_modifiers, waitForKbcWrite_modifiers hfirst]
  rw [hset _ _ hok]
  split <;> rfl

theorem handleScancode_modifiers {scancode : Byte}
    (hok : atkbdHandleScancode fuel d scancode = .ok d') :
    d'.toModifiers = d.toModifiers.scan scancode := by
  unfold Modifiers.scan
  simp only [atkbdHandleScancode] at hok
  split at hok
  · cases hok
    simp [*]
  · rename_i hmake
    rw [if_neg hmake]
    split at hok
    · obtain ⟨k, -, hok⟩ := Loop.bind_eq_ok.mp hok
      cases hok
      rfl
    · cases hok
      rfl

theorem handleScancode_eoi_modifiers {scancode : Byte} (hok : (do
      let d ← atkbdHandleScancode fuel d scancode
      .ok (d.outb 0x20#16 0x20#8)) = Except.ok d') :
    d'.toModifiers = d.toModifiers.scan scancode := by
  obtain ⟨d₁, hscan, hok⟩ := Loop.bind_eq_ok.mp hok
  cases hok
  rw [outb_modifiers, handleScancode_modifiers hscan]

/-- An interrupt changes the flags as its scancode says. -/
theorem atkbdIrq_modifiers (hok : atkbdIrq fuel d = .ok d') :
    d'.toModifiers = d.toModifiers.scan (d.inb 0x60#16).1 := by
  unfold atkbdIrq at hok
  dsimp only at hok
  split at hok
  · obtain ⟨d₁, hcaps, hok⟩ := Loop.bind_eq_ok.mp hok
    rw [handleScancode_eoi_modifiers hok, handleCapslock_modifiers hcaps, inb_modifiers]
  · exact handleScancode_eoi_modifiers (d := (d.inb 0x60#16).2) hok

/-- The codes of the modifier keys. -/
def modifierCodes : List Byte :=
  [0x2A#8, 0x36#8, 0x1D#8, 0x38#8]

theorem scan_of_ne {b : Byte} (m : Modifiers)
    (hne : ∀ x ∈ modifierCodes, b ≠ x ∧ b &&& 0x7F#8 ≠ x) : m.scan b = m := by
  simp only [modifierCodes, List.forall_mem_cons] at hne
  obtain ⟨h1, h2, h3, h4, -⟩ := hne
  unfold Modifiers.scan
  split
  · simp [atkbdHandleBreak, h1.2, h2.2, h3.2, h4.2]
  · simp [atkbdProcessExtended, h1.1, h2.1, h3.1, h4.1]

/-- The low bits of a scancode are the code of its key. -/
theorem plain_ne (c : PlainCode) {b : Byte} (hb : b.setWidth 7 = c.code) :
    ∀ x ∈ modifierCodes, b ≠ x ∧ b &&& 0x7F#8 ≠ x := by
  have hlow : (b &&& 0x7F#8).setWidth 7 = c.code := by
    rw [BitVec.setWidth_and, hb]
    exact BitVec.and_allOnes
  have hcodes : ∀ x ∈ modifierCodes, x.setWidth 7 ∈ [0x2A#7, 0x36#7, 0x1D#7, 0x38#7] := by
    decide
  intro x hx
  refine ⟨?_, ?_⟩
  · rintro rfl
    exact c.ne (hb ▸ hcodes _ hx)
  · intro heq
    exact c.ne (hlow ▸ heq ▸ hcodes _ hx)

theorem scan_byte (m : Modifiers) (e : KeyEvent) : m.scan e.byte = m.key e := by
  cases e with
  | make k =>
      cases k with
      | plain c =>
          have hlow : (c.code.setWidth 8).setWidth 7 = c.code := by simp
          exact scan_of_ne m (plain_ne c hlow)
      | _ => rfl
  | release k =>
      cases k with
      | plain c =>
          have hlow : (c.code.setWidth 8 ||| 0x80#8).setWidth 7 = c.code := by
            simp [BitVec.setWidth_or]
          exact scan_of_ne m (plain_ne c hlow)
      | _ => rfl

end Interrupt

/-! ## Sequences of interrupts -/

/-- One interrupt for each scancode. Between two of them the rest of the kernel runs, which leaves
the flags as they are. -/
inductive Delivered (fuel : ℕ) (d : Driver) : List Byte → Driver → Prop where
  | nil : Delivered fuel d [] d
  | irq {bytes : List Byte} {d₁ d₂ d₃ : Driver} : Delivered fuel d bytes d₁ →
      d₂.toModifiers = d₁.toModifiers → atkbdIrq fuel d₂ = .ok d₃ →
      Delivered fuel d (bytes ++ [(d₂.inb 0x60#16).1]) d₃

/-- The flags after a sequence of events, all keys being up before it. -/
def flags (events : List KeyEvent) : Modifiers :=
  events.foldl Modifiers.key ⟨false, false, false⟩

section Sequences

variable {fuel : ℕ} {d d' : Driver} {bytes : List Byte} {events : List KeyEvent} {e : KeyEvent}

theorem Delivered.modifiers (hrun : Delivered fuel d bytes d') :
    d'.toModifiers = bytes.foldl Modifiers.scan d.toModifiers := by
  induction hrun with
  | nil => rfl
  | irq hrun hkeep hirq ih =>
      rw [atkbdIrq_modifiers hirq, hkeep, ih, List.foldl_append]
      rfl

theorem Delivered.flags (hfresh : d.toModifiers = ⟨false, false, false⟩)
    (hrun : Delivered fuel d (events.map KeyEvent.byte) d') : d'.toModifiers = flags events := by
  have hstep : (fun (m : Modifiers) (e : KeyEvent) => m.scan e.byte) = Modifiers.key :=
    funext₂ scan_byte
  rw [hrun.modifiers, hfresh, List.foldl_map, hstep]
  rfl

theorem flags_append (events : List KeyEvent) (e : KeyEvent) :
    flags (events ++ [e]) = (flags events).key e := by
  simp [Atkbd.flags]

theorem held_append (events : List KeyEvent) (e : KeyEvent) :
    held (events ++ [e]) = e.hold (held events) := by
  simp [held]

theorem flags_ctrl (events : List KeyEvent) :
    (flags events).ctrlDown = true ↔ .ctrl ∈ held events := by
  induction events using List.reverseRecOn with
  | nil => simp [Atkbd.flags, held]
  | append_singleton events e ih =>
      rw [flags_append, held_append]
      rcases e with k | k <;> cases k <;> simp [Modifiers.key, KeyEvent.hold, ih]

theorem flags_alt (events : List KeyEvent) :
    (flags events).altDown = true ↔ .alt ∈ held events := by
  induction events using List.reverseRecOn with
  | nil => simp [Atkbd.flags, held]
  | append_singleton events e ih =>
      rw [flags_append, held_append]
      rcases e with k | k <;> cases k <;> simp [Modifiers.key, KeyEvent.hold, ih]

end Sequences

/-! ## The shift keys -/

/-- A shift key, and the other one. -/
def OtherShift (k other : Key) : Prop :=
  k = .leftShift ∧ other = .rightShift ∨ k = .rightShift ∧ other = .leftShift

/-- The last event of a shift key is that one of them is let go while the other one is held. -/
def ReleasedFirst (events : List KeyEvent) : Prop :=
  ∃ before k other after, events = before ++ .release k :: after ∧ OtherShift k other ∧
    other ∈ held before ∧ ∀ e ∈ after, ¬ e.key.IsShift

section Shift

variable {events : List KeyEvent} {e : KeyEvent} {k other : Key}

theorem OtherShift.isShift (h : OtherShift k other) : k.IsShift := by
  rcases h with ⟨rfl, -⟩ | ⟨rfl, -⟩
  · exact .inl rfl
  · exact .inr rfl

theorem releasedFirst_nil : ¬ ReleasedFirst [] := by
  rintro ⟨before, k, other, after, hevents, -⟩
  simp at hevents

theorem releasedFirst_append_of_not_shift (he : ¬ e.key.IsShift) :
    ReleasedFirst (events ++ [e]) ↔ ReleasedFirst events := by
  constructor
  · rintro ⟨before, k, other, after, hevents, hother, hheld, hafter⟩
    rcases List.eq_nil_or_concat after with rfl | ⟨after, e', rfl⟩
    · obtain ⟨-, hlast⟩ := List.append_inj' hevents rfl
      obtain rfl : e = .release k := by simpa using hlast
      exact absurd hother.isShift he
    · rw [List.concat_eq_append, ← List.cons_append, ← List.append_assoc] at hevents
      obtain ⟨rfl, -⟩ := List.append_inj' hevents rfl
      exact ⟨before, k, other, after, rfl, hother, hheld, fun e he => hafter e (by simp [he])⟩
  · rintro ⟨before, k, other, after, rfl, hother, hheld, hafter⟩
    refine ⟨before, k, other, after ++ [e], by simp, hother, hheld, ?_⟩
    intro e' he'
    rcases List.mem_append.mp he' with he' | he'
    · exact hafter e' he'
    · rwa [List.mem_singleton.mp he']

/-- After an event of a shift key only this event counts. -/
theorem releasedFirst_append_of_shift (he : e.key.IsShift) : ReleasedFirst (events ++ [e]) ↔
    ∃ k other, e = .release k ∧ OtherShift k other ∧ other ∈ held events := by
  constructor
  · rintro ⟨before, k, other, after, hevents, hother, hheld, hafter⟩
    rcases List.eq_nil_or_concat after with rfl | ⟨after, e', rfl⟩
    · obtain ⟨rfl, hlast⟩ := List.append_inj' hevents rfl
      exact ⟨k, other, by simpa using hlast, hother, hheld⟩
    · rw [List.concat_eq_append, ← List.cons_append, ← List.append_assoc] at hevents
      obtain ⟨-, hlast⟩ := List.append_inj' hevents rfl
      obtain rfl : e = e' := by simpa using hlast
      exact absurd he (hafter e (by simp))
  · rintro ⟨k, other, rfl, hother, hheld⟩
    exact ⟨events, k, other, [], rfl, hother, hheld, by simp⟩

theorem flags_shift_iff (events : List KeyEvent) :
    ((flags events).shiftDown = true ↔ .leftShift ∈ held events ∨ .rightShift ∈ held events) ↔
      ¬ ReleasedFirst events := by
  induction events using List.reverseRecOn with
  | nil => simp [flags, held, releasedFirst_nil]
  | append_singleton events e ih =>
      rw [flags_append, held_append]
      by_cases he : e.key.IsShift
      · rw [releasedFirst_append_of_shift he]
        rcases e with k | k <;> rcases he with hk | hk <;> obtain rfl : k = _ := hk <;>
          simp [Modifiers.key, KeyEvent.hold, OtherShift]
      · rw [releasedFirst_append_of_not_shift he, ← ih]
        rcases e with k | k <;> cases k <;>
          simp_all [Modifiers.key, KeyEvent.hold, Key.IsShift]

end Shift

/-- The flags follow the keys that are held, unless the last thing that happened to the shift keys
is that one of them was let go while the other one was held. -/
theorem modifiers_follow_keys_iff (fuel : ℕ) (d d' : Driver) (events : List KeyEvent)
    (hfresh : d.toModifiers = ⟨false, false, false⟩)
    (hrun : Delivered fuel d (events.map KeyEvent.byte) d') :
    Follows d'.toModifiers (held events) ↔ ¬ ReleasedFirst events := by
  rw [hrun.flags hfresh, ← flags_shift_iff]
  exact ⟨Follows.shift, fun hshift => ⟨hshift, flags_ctrl events, flags_alt events⟩⟩

/-- A driver after so many interrupts, with nothing in its buffer. The keyboard sends the scancodes
of the events. -/
def sampleDriver (events : List KeyEvent) (interrupts : ℕ) (shiftDown : Bool) : Driver where
  toKeyboard := bootKeyboard
  toModifiers := ⟨shiftDown, false, false⟩
  ports := ⟨fun n _ => (events.map KeyEvent.byte).getD n 0x00#8, interrupts,
    List.replicate interrupts (0x20#16, 0x20#8)⟩
  capsLock := false
  currentLedMask := 0x00#8
  behindLower := 0x00#8
  behindHigher := 0x00#8

/-- Left shift is held, and let go. -/
def oneShift : List KeyEvent :=
  [.make .leftShift, .release .leftShift]

/-- Both shift keys are held, and the left one is let go. -/
def twoShifts : List KeyEvent :=
  [.make .leftShift, .make .rightShift, .release .leftShift]

theorem modifiers_follow_keys_oneShift : ∃ d',
    Delivered 1 (sampleDriver oneShift 0 false) (oneShift.map KeyEvent.byte) d' ∧
      Follows d'.toModifiers (held oneShift) := by
  have hfirst : atkbdIrq 1 (sampleDriver oneShift 0 false) =
      .ok (sampleDriver oneShift 1 true) := rfl
  have hsecond : atkbdIrq 1 (sampleDriver oneShift 1 true) =
      .ok (sampleDriver oneShift 2 false) := rfl
  have hrun : Delivered 1 (sampleDriver oneShift 0 false) (oneShift.map KeyEvent.byte)
      (sampleDriver oneShift 2 false) := (Delivered.nil.irq rfl hfirst).irq rfl hsecond
  refine ⟨_, hrun, (modifiers_follow_keys_iff 1 _ _ oneShift rfl hrun).mpr ?_⟩
  change ¬ ReleasedFirst ([.make .leftShift] ++ [.release .leftShift])
  rw [releasedFirst_append_of_shift (.inl rfl)]
  simp [OtherShift, held, KeyEvent.hold]

/-- Right shift is still held, but the flag is cleared. -/
theorem shift_lost_while_held : ∃ d',
    Delivered 1 (sampleDriver twoShifts 0 false) (twoShifts.map KeyEvent.byte) d' ∧
      d'.shiftDown = false ∧ .rightShift ∈ held twoShifts ∧
      ¬ Follows d'.toModifiers (held twoShifts) := by
  have hfirst : atkbdIrq 1 (sampleDriver twoShifts 0 false) =
      .ok (sampleDriver twoShifts 1 true) := rfl
  have hsecond : atkbdIrq 1 (sampleDriver twoShifts 1 true) =
      .ok (sampleDriver twoShifts 2 true) := rfl
  have hthird : atkbdIrq 1 (sampleDriver twoShifts 2 true) =
      .ok (sampleDriver twoShifts 3 false) := rfl
  have hrun : Delivered 1 (sampleDriver twoShifts 0 false) (twoShifts.map KeyEvent.byte)
      (sampleDriver twoShifts 3 false) :=
    ((Delivered.nil.irq rfl hfirst).irq rfl hsecond).irq rfl hthird
  have hheld : .rightShift ∈ held twoShifts := by decide
  exact ⟨_, hrun, rfl, hheld, fun hfollows =>
    Bool.false_ne_true (hfollows.shift.mpr (.inr hheld))⟩

end Osiris.Atkbd
