import Osiris.Model.Atkbd
import Osiris.Verification.Heap.Init

/-! # The keyboard buffer as a queue

The end of the buffer only ever grows, and its start goes back to 0 after 4095. Until then the
buffer is a queue. -/

namespace Osiris.Atkbd

open ByteMemory Strings Heap

/-! ## Runs -/

inductive Event where
  | addBuffer (ch : Byte)
  | getChar
deriving DecidableEq, Repr

/-- The buffer, with the characters that were given to it and those that it has returned. -/
structure Session where
  kbd : Keyboard
  added : List Byte
  returned : List Byte

def Session.step (fuel : ℕ) (t : Session) : Event → Except Fault Session
  | .addBuffer ch => do
      let kbd ← atkbdAddBuffer fuel t.kbd ch
      .ok { t with kbd, added := t.added ++ [ch] }
  | .getChar => do
      let (ch, kbd) ← atkbdGetChar t.kbd
      .ok { t with kbd, returned := t.returned ++ [ch] }

/-- A run is cut short where `atkbd_get_char` would wait. -/
def Session.run (fuel : ℕ) (t : Session) (events : List Event) : Except Fault Session :=
  events.foldlM (Session.step fuel) t

/-! ## Indices -/

theorem srem_ofNat {n : ℕ} (hn : n < 4096) :
    (BitVec.ofNat 32 n).srem 4096#32 = BitVec.ofNat 32 n := by
  have hmsb : (BitVec.ofNat 32 n).msb = false := by
    rw [BitVec.msb_eq_false_iff_two_mul_lt, BitVec.toNat_ofNat]
    omega
  rw [BitVec.srem, hmsb]
  apply BitVec.eq_of_toNat_eq
  change (BitVec.ofNat 32 n % 4096#32).toNat = _
  have hnat : (BitVec.ofNat 32 n).toNat = n := by
    rw [BitVec.toNat_ofNat]
    omega
  rw [BitVec.toNat_umod, hnat]
  exact Nat.mod_eq_of_lt hn

theorem ofNat_add_one (n : ℕ) : BitVec.ofNat 32 n + 1#32 = BitVec.ofNat 32 (n + 1) :=
  (BitVec.ofNat_add n 1).symm

/-! ## One call -/

/-- The indices count what has gone in and out, and the characters lie where they were put. -/
structure QueueInv (t : Session) : Prop where
  start : t.kbd.bufferStart = BitVec.ofNat 32 t.returned.length
  stop : t.kbd.bufferEnd = BitVec.ofNat 32 t.added.length
  contents : ∀ j (hj : j < t.added.length),
    t.kbd.mem (t.kbd.keyBuffer + BitVec.ofNat 64 j) = t.added[j]
  in_order : t.returned <+: t.added

section Steps

variable {fuel : ℕ} {t t' : Session}

theorem QueueInv.length_le (h : QueueInv t) : t.returned.length ≤ t.added.length :=
  h.in_order.length_le

/-- The session after a character has been put into the buffer. -/
def Session.put (t : Session) (ch : Byte) : Session where
  kbd :=
    { t.kbd with
      mem := setByte t.kbd.mem (t.kbd.slot t.kbd.bufferEnd) ch
      bufferEnd := t.kbd.bufferEnd + 1#32 }
  added := t.added ++ [ch]
  returned := t.returned

/-- The session after a character has been taken out. -/
def Session.take (t : Session) : Session where
  kbd := { t.kbd with bufferStart := (t.kbd.bufferStart + 1#32).srem 4096#32 }
  added := t.added
  returned := t.returned ++ [t.kbd.mem (t.kbd.slot t.kbd.bufferStart)]

/-- The buffer never looks full, for as long as its end does not overflow. -/
theorem QueueInv.step_addBuffer (h : QueueInv t) (hroom : t.added.length + 1 < 2 ^ 31) (ch : Byte) :
    t.step fuel (.addBuffer ch) = .ok (t.put ch) := by
  have hle := h.length_le
  have hne : t.kbd.bufferEnd + 1#32 ≠ t.kbd.bufferStart := by
    rw [h.start, h.stop, ofNat_add_one]
    intro heq
    have hnat := congrArg BitVec.toNat heq
    rw [BitVec.toNat_ofNat, BitVec.toNat_ofNat] at hnat
    omega
  rw [Session.step, atkbdAddBuffer, if_pos hne]
  rfl

theorem QueueInv.put (h : QueueInv t) (hroom : t.added.length + 1 < 2 ^ 31) (ch : Byte) :
    QueueInv (t.put ch) := by
  have hslot : t.kbd.slot t.kbd.bufferEnd = t.kbd.keyBuffer + BitVec.ofNat 64 t.added.length := by
    rw [Keyboard.slot, h.stop, signExtend_ofNat (by omega)]
  constructor
  · exact h.start
  · rw [Session.put, h.stop, ofNat_add_one, List.length_append, List.length_singleton]
  · intro j hj
    dsimp only [Session.put] at hj ⊢
    rw [List.length_append, List.length_singleton] at hj
    rw [hslot]
    by_cases hlast : j = t.added.length
    · subst hlast
      rw [setByte_same, List.getElem_concat_length rfl]
    · have haddr : t.kbd.keyBuffer + BitVec.ofNat 64 j ≠
          t.kbd.keyBuffer + BitVec.ofNat 64 t.added.length := by
        intro heq
        have hnat := congrArg BitVec.toNat (add_left_cancel heq)
        rw [BitVec.toNat_ofNat, BitVec.toNat_ofNat] at hnat
        omega
      rw [setByte_of_ne _ _ haddr, List.getElem_append_left (by omega)]
      exact h.contents j (by omega)
  · exact h.in_order.trans (List.prefix_append _ _)

/-- The buffer reads as empty exactly when everything has been returned. -/
theorem QueueInv.empty_iff (h : QueueInv t) (hroom : t.added.length < 2 ^ 31) :
    t.kbd.bufferStart = t.kbd.bufferEnd ↔ t.returned = t.added := by
  have hle := h.length_le
  rw [h.start, h.stop]
  constructor
  · intro heq
    have hnat := congrArg BitVec.toNat heq
    rw [BitVec.toNat_ofNat, BitVec.toNat_ofNat] at hnat
    exact h.in_order.eq_of_length (by omega)
  · intro heq
    rw [heq]

theorem step_getChar (hne : t.kbd.bufferStart ≠ t.kbd.bufferEnd) :
    t.step fuel .getChar = .ok t.take := by
  rw [Session.step, atkbdGetChar, if_neg hne]
  rfl

/-- The next character in order, as long as the start has not gone back to 0. -/
theorem QueueInv.returned_take (h : QueueInv t) (hroom : t.added.length < 2 ^ 31)
    (hne : t.kbd.bufferStart ≠ t.kbd.bufferEnd) : t.take.returned <+: t.added := by
  have hlt : t.returned.length < t.added.length := by
    refine lt_of_le_of_ne h.length_le fun heq => hne ?_
    rw [h.empty_iff hroom]
    exact h.in_order.eq_of_length heq
  have hslot : t.kbd.slot t.kbd.bufferStart =
      t.kbd.keyBuffer + BitVec.ofNat 64 t.returned.length := by
    rw [Keyboard.slot, h.start, signExtend_ofNat (by omega)]
  have hnext : t.returned ++ [t.added[t.returned.length]] = t.added.take (t.returned.length + 1) := by
    rw [List.take_add_one, ← List.prefix_iff_eq_take.mp h.in_order, List.getElem?_eq_getElem hlt]
    rfl
  rw [Session.take, hslot, h.contents _ hlt, hnext]
  exact List.take_prefix _ _

theorem QueueInv.take (h : QueueInv t) (hroom : t.added.length < 2 ^ 31)
    (hne : t.kbd.bufferStart ≠ t.kbd.bufferEnd) (hfew : t.returned.length + 1 < 4096) :
    QueueInv t.take := by
  refine ⟨?_, h.stop, h.contents, h.returned_take hroom hne⟩
  rw [Session.take, h.start, ofNat_add_one, srem_ofNat hfew, List.length_append,
    List.length_singleton]

end Steps

/-! ## Whole runs -/

def Event.isAdd : Event → Bool
  | .addBuffer _ => true
  | .getChar => false

def Event.isGet : Event → Bool
  | .addBuffer _ => false
  | .getChar => true

/-- A session that starts with an empty buffer. -/
def Session.start (k : Keyboard) : Session :=
  ⟨k, [], []⟩

theorem atkbdClearBuffer_ok {fuel : ℕ} {k k' : Keyboard} (h : atkbdClearBuffer fuel k = .ok k') :
    k'.bufferStart = 0#32 ∧ k'.bufferEnd = 0#32 ∧ k'.bufferAllocs = 1#32 := by
  unfold atkbdClearBuffer at h
  obtain ⟨freed, -, h⟩ := Loop.bind_eq_ok.mp h
  obtain ⟨⟨keyBuffer, heap⟩, -, h⟩ := Loop.bind_eq_ok.mp h
  obtain rfl := Except.ok.inj h
  exact ⟨rfl, rfl, rfl⟩

theorem queueInv_start {fuel : ℕ} {k k' : Keyboard} (h : atkbdClearBuffer fuel k = .ok k') :
    QueueInv (Session.start k') := by
  obtain ⟨hstart, hstop, -⟩ := atkbdClearBuffer_ok h
  exact ⟨hstart, hstop, fun j hj => absurd hj (Nat.not_lt_zero j), List.prefix_rfl⟩

/-- A run in which the start does not reach 4096 and the end does not overflow. -/
theorem QueueInv.run {fuel : ℕ} {t t' : Session} (h : QueueInv t) {events : List Event}
    (hadds : t.added.length + events.countP Event.isAdd < 2 ^ 31)
    (hgets : t.returned.length + events.countP Event.isGet < 4096)
    (hrun : t.run fuel events = .ok t') :
    QueueInv t' ∧ t'.added.length = t.added.length + events.countP Event.isAdd := by
  induction events generalizing t with
  | nil =>
      have heq : t' = t := by simpa [Session.run, pure, Except.pure] using hrun.symm
      rw [heq]
      exact ⟨h, rfl⟩
  | cons event events ih =>
      have hnext : ∀ t₁, t.step fuel event = .ok t₁ → t₁.run fuel events = .ok t' := by
        intro t₁ hstep
        unfold Session.run at hrun ⊢
        rwa [List.foldlM_cons, hstep] at hrun
      cases event with
      | addBuffer ch =>
          rw [List.countP_cons_of_pos rfl] at hadds
          rw [List.countP_cons_of_neg (by simp [Event.isGet])] at hgets
          have hroom : t.added.length + 1 < 2 ^ 31 := by omega
          have hlen : (t.put ch).added.length = t.added.length + 1 := by simp [Session.put]
          obtain ⟨hinv, hadded⟩ := ih (h.put hroom ch) (by omega) hgets
            (hnext _ (h.step_addBuffer hroom ch))
          rw [List.countP_cons_of_pos rfl]
          exact ⟨hinv, by omega⟩
      | getChar =>
          rw [List.countP_cons_of_neg (by simp [Event.isAdd])] at hadds
          rw [List.countP_cons_of_pos rfl] at hgets
          have hroom : t.added.length < 2 ^ 31 := by omega
          by_cases hempty : t.kbd.bufferStart = t.kbd.bufferEnd
          · simp [Session.run, Session.step, atkbdGetChar, hempty, bind, Except.bind] at hrun
          · have hlen : t.take.returned.length = t.returned.length + 1 := by simp [Session.take]
            obtain ⟨hinv, hadded⟩ := ih (h.take hroom hempty (by omega)) hadds (by omega)
              (hnext _ (step_getChar hempty))
            rw [List.countP_cons_of_neg (by simp [Event.isAdd])]
            exact ⟨hinv, hadded⟩

/-- The buffer is a queue in every run that takes less than 4096 characters out. -/
theorem fifo_of_few_gets (fuel : ℕ) (k k' : Keyboard) (hclear : atkbdClearBuffer fuel k = .ok k')
    (events : List Event) (hgets : events.countP Event.isGet < 4096)
    (hadds : events.countP Event.isAdd < 2 ^ 31) (t : Session)
    (hrun : (Session.start k').run fuel events = .ok t) :
    t.returned <+: t.added ∧ (t.kbd.bufferStart = t.kbd.bufferEnd ↔ t.returned = t.added) := by
  have hstart := queueInv_start hclear
  have hadds' : (Session.start k').added.length + events.countP Event.isAdd < 2 ^ 31 := by
    simpa [Session.start] using hadds
  have hgets' : (Session.start k').returned.length + events.countP Event.isGet < 4096 := by
    simpa [Session.start] using hgets
  obtain ⟨hinv, hlen⟩ := hstart.run hadds' hgets' hrun
  exact ⟨hinv.in_order, hinv.empty_iff (by omega)⟩

/-! ## The start goes back to 0 -/

theorem run_cons {fuel : ℕ} {t t₁ : Session} {event : Event} {events : List Event}
    (h : t.step fuel event = .ok t₁) : t.run fuel (event :: events) = t₁.run fuel events := by
  unfold Session.run
  rw [List.foldlM_cons, h]
  rfl

theorem QueueInv.run_adds {t : Session} (h : QueueInv t) (fuel : ℕ) (chars : List Byte)
    (hroom : t.added.length + chars.length < 2 ^ 31) (rest : List Event) :
    ∃ t', QueueInv t' ∧ t'.added = t.added ++ chars ∧ t'.returned = t.returned ∧
      t.run fuel (chars.map .addBuffer ++ rest) = t'.run fuel rest := by
  induction chars generalizing t with
  | nil => exact ⟨t, h, by simp, rfl, rfl⟩
  | cons ch chars ih =>
      rw [List.length_cons] at hroom
      have hroom' : t.added.length + 1 < 2 ^ 31 := by omega
      obtain ⟨t', hinv, hadded, hreturned, hrun⟩ := ih (h.put hroom' ch) (by
        rw [Session.put, List.length_append, List.length_singleton]
        omega)
      refine ⟨t', hinv, by rw [hadded, Session.put, List.append_assoc, List.singleton_append],
        hreturned, ?_⟩
      rw [List.map_cons, List.cons_append, run_cons (h.step_addBuffer hroom' ch)]
      exact hrun

theorem QueueInv.run_gets {t : Session} (h : QueueInv t) (fuel n : ℕ)
    (hroom : t.added.length < 2 ^ 31) (hfull : t.returned.length + n ≤ t.added.length)
    (hfew : t.returned.length + n < 4096) (rest : List Event) :
    ∃ t', QueueInv t' ∧ t'.added = t.added ∧ t'.returned.length = t.returned.length + n ∧
      t.run fuel (List.replicate n .getChar ++ rest) = t'.run fuel rest := by
  induction n generalizing t with
  | zero => exact ⟨t, h, rfl, rfl, rfl⟩
  | succ n ih =>
      have hne : t.kbd.bufferStart ≠ t.kbd.bufferEnd := by
        rw [Ne, h.empty_iff hroom]
        intro heq
        rw [heq] at hfull
        omega
      have hlen : t.take.returned.length = t.returned.length + 1 := by simp [Session.take]
      obtain ⟨t', hinv, hadded, hreturned, hrun⟩ := ih (h.take hroom hne (by omega)) hroom
        (by rw [hlen]; exact le_trans (by omega) hfull) (by omega)
      refine ⟨t', hinv, hadded, by omega, ?_⟩
      rw [List.replicate_succ, List.cons_append, run_cons (step_getChar hne)]
      exact hrun

/-- After 4096 characters have gone in and out, the buffer still does not read as empty. -/
theorem not_empty_after_4096 {fuel : ℕ} {k k' : Keyboard} (h : atkbdClearBuffer fuel k = .ok k')
    {chars : List Byte} (hlen : chars.length = 4096) :
    ∃ t, (Session.start k').run fuel (chars.map .addBuffer ++ List.replicate 4096 .getChar) = .ok t ∧
      t.added = chars ∧ t.returned = chars ∧ t.kbd.bufferStart ≠ t.kbd.bufferEnd := by
  obtain ⟨t₁, hinv₁, hadded₁, hreturned₁, hrun₁⟩ := (queueInv_start h).run_adds fuel chars
    (by rw [hlen]; simp [Session.start]) (List.replicate 4096 .getChar)
  have hadded₁' : t₁.added = chars := hadded₁
  have hreturned₁' : t₁.returned = [] := hreturned₁
  obtain ⟨t₂, hinv₂, hadded₂, hreturned₂, hrun₂⟩ := hinv₁.run_gets fuel 4095
    (by rw [hadded₁', hlen]; norm_num) (by rw [hadded₁', hreturned₁', hlen]; norm_num)
    (by rw [hreturned₁']; norm_num) [.getChar]
  rw [hadded₁'] at hadded₂
  rw [hreturned₁', List.length_nil, Nat.zero_add] at hreturned₂
  have hroom : t₂.added.length < 2 ^ 31 := by rw [hadded₂, hlen]; norm_num
  have hne : t₂.kbd.bufferStart ≠ t₂.kbd.bufferEnd := by
    rw [hinv₂.start, hinv₂.stop, hreturned₂, hadded₂, hlen]
    decide
  have hprefix := hinv₂.returned_take hroom hne
  rw [hadded₂] at hprefix
  refine ⟨t₂.take, ?_, hadded₂, hprefix.eq_of_length ?_, ?_⟩
  · have hsplit : List.replicate 4096 Event.getChar =
        List.replicate 4095 .getChar ++ [.getChar] := List.replicate_succ'
    rw [hrun₁, hsplit, hrun₂, run_cons (step_getChar hne)]
    rfl
  · simp [Session.take, hreturned₂, hlen]
  · change (t₂.kbd.bufferStart + 1#32).srem 4096#32 ≠ t₂.kbd.bufferEnd
    rw [hinv₂.start, hinv₂.stop, hreturned₂, hadded₂, hlen]
    decide

/-- The driver before `atkbd_init`. -/
def bootKeyboard : Keyboard where
  toKernelHeap := oneBlockHeap
  keyBuffer := 0#64
  bufferAllocs := 1#32
  bufferStart := 0#32
  bufferEnd := 0#32

theorem bootKeyboard_clears : ∃ k, atkbdClearBuffer 3 bootKeyboard = .ok k ∧ k.keyBuffer ≠ 0#64 := by
  obtain ⟨k, hclear, hbuffer⟩ := Loop.exists_of_toOption
    (show (atkbdClearBuffer 3 bootKeyboard).toOption.map (fun k => decide (k.keyBuffer ≠ 0#64)) =
      some true by decide +kernel)
  exact ⟨k, hclear, of_decide_eq_true hbuffer⟩

/-- The letter `a` goes in and comes out 4096 times. -/
theorem fifo_fails_after_wrap :
    ∃ k t, atkbdClearBuffer 3 bootKeyboard = .ok k ∧ k.keyBuffer ≠ 0#64 ∧
      (Session.start k).run 3 ((List.replicate 4096 0x61#8).map .addBuffer ++
        List.replicate 4096 .getChar) = .ok t ∧
      t.returned = t.added ∧ t.kbd.bufferStart ≠ t.kbd.bufferEnd := by
  obtain ⟨k, hclear, hbuffer⟩ := bootKeyboard_clears
  obtain ⟨t, hrun, hadded, hreturned, hne⟩ :=
    not_empty_after_4096 hclear (List.length_replicate (n := 4096) (a := 0x61#8))
  exact ⟨k, t, hclear, hbuffer, hrun, hreturned.trans hadded.symm, hne⟩

theorem fifo_of_few_gets_bootKeyboard :
    ∃ k t, atkbdClearBuffer 3 bootKeyboard = .ok k ∧
      (Session.start k).run 3 [.addBuffer 0x61#8, .addBuffer 0x62#8, .getChar] = .ok t ∧
      t.returned <+: t.added := by
  obtain ⟨k, hclear, -⟩ := bootKeyboard_clears
  have hinv := queueInv_start hclear
  obtain ⟨t₁, hinv₁, hadded, hreturned, hrun⟩ := hinv.run_adds 3 [0x61#8, 0x62#8]
    (by simp [Session.start]) [.getChar]
  have hne : t₁.kbd.bufferStart ≠ t₁.kbd.bufferEnd := by
    rw [hinv₁.start, hinv₁.stop, hadded, hreturned]
    exact (by decide : BitVec.ofNat 32 0 ≠ BitVec.ofNat 32 2)
  have hrun' : (Session.start k).run 3 [.addBuffer 0x61#8, .addBuffer 0x62#8, .getChar] =
      .ok t₁.take := by
    refine hrun.trans ?_
    rw [run_cons (step_getChar hne)]
    rfl
  exact ⟨k, t₁.take, hclear, hrun', (fifo_of_few_gets 3 bootKeyboard k hclear _ (by decide)
    (by decide) t₁.take hrun').1⟩

end Osiris.Atkbd
