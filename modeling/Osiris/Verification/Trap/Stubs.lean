import Osiris.Model.Trap
import Osiris.Verification.Sched.Switch

/-! # The stubs and the processor

A stub and the processor build a `registers_t` together. A handler that leaves it alone returns to
where the interrupt arrived, with every register as it was. -/

namespace Osiris.Isr

open ByteMemory Sched Trap

/-- The words of the frame, from the lowest. -/
def entryFrame (c : Context) (intNo errCode : Word) : List Word :=
  fieldOrder.map c.regs ++ [intNo, errCode, c.rip, c.cs, c.rflags, c.rsp, c.ss]

theorem length_entryFrame (c : Context) (intNo errCode : Word) :
    (entryFrame c intNo errCode).length = 22 := rfl

/-- What is pushed, by the processor, the stub and the common stub. -/
def entryPushes (c : Context) (intNo errCode : Word) : List Word :=
  [c.ss, c.rsp, c.rflags, c.cs, c.rip, errCode, intNo] ++ saveOrder.map c.regs

theorem reverse_entryPushes (c : Context) (intNo errCode : Word) :
    (entryPushes c intNo errCode).reverse = entryFrame c intNo errCode := rfl

theorem length_entryPushes_le (c : Context) (intNo errCode : Word) :
    8 * (entryPushes c intNo errCode).length ≤ 2 ^ 64 := by
  change 176 ≤ 2 ^ 64
  norm_num

/-- The stub was written for this vector: the processor pushes an error code if and only if the stub
does not. -/
inductive Handles : ℕ → List Instr → Option Word → Prop where
  | isr {num stub errorCode} (hstub : doIsr[num]? = some stub)
      (herror : errorCode.isSome ↔ num ∈ [8, 10, 11, 12, 13, 14, 17]) : Handles num stub errorCode
  | irq {i stub} (hstub : doIrq[i]? = some stub) : Handles (32 + i) stub none

section Stubs

variable {c d : Context} {gate : Gate} {rsp0 : Word} {num : ℕ} {stub : List Instr}
  {errorCode : Option Word}

theorem run_append (c : Context) (code code' : List Instr) :
    c.run (code ++ code') = (c.run code).run code' :=
  List.foldl_append

theorem run_push (c : Context) (rs : List Reg) :
    c.run (rs.map .push) =
      { c with
        rsp := ((rs.map c.regs).foldl push (c.rsp, c.mem)).1
        mem := ((rs.map c.regs).foldl push (c.rsp, c.mem)).2 } := by
  induction rs generalizing c with
  | nil => rfl
  | cons r rs ih =>
      change (c.exec (.push r)).run (rs.map .push) = _
      rw [ih]
      rfl

theorem run_pop (c : Context) (rs : List Reg) :
    c.run (rs.map .pop) = { c with toCpu := rs.foldl (pop c.mem) c.toCpu } := by
  induction rs generalizing c with
  | nil => rfl
  | cons r rs ih =>
      change (c.exec (.pop r)).run (rs.map .pop) = _
      rw [ih]
      rfl

/-- The two forms that stubs have. -/
theorem Handles.forms (h : Handles num stub errorCode) :
    (errorCode = none ∧
        stub = [.cli, .pushImm 0#64, .pushImm (BitVec.ofNat 64 num)] ++ commonStub) ∨
      ∃ err, errorCode = some err ∧
        stub = [.cli, .pushImm (BitVec.ofNat 64 num)] ++ commonStub := by
  cases h with
  | isr hstub herror =>
      have hnum : num < 19 := (List.getElem?_eq_some_iff.mp hstub).1
      cases errorCode with
      | none =>
          have hnot : num ∉ [8, 10, 11, 12, 13, 14, 17] := by simpa using herror
          interval_cases num <;> first
            | exact absurd (by decide) hnot
            | exact .inl ⟨rfl, (Option.some.inj hstub).symm⟩
      | some err =>
          have hin : num ∈ [8, 10, 11, 12, 13, 14, 17] := by simpa using herror
          interval_cases num <;> first
            | exact absurd hin (by decide)
            | exact .inr ⟨err, rfl, (Option.some.inj hstub).symm⟩
  | @irq i stub hstub =>
      have hi : i < 2 := (List.getElem?_eq_some_iff.mp hstub).1
      interval_cases i <;> exact .inl ⟨rfl, (Option.some.inj hstub).symm⟩

/-- The processor when the handler is called. -/
theorem enter_eq (h : Handles num stub errorCode) (c : Context) (gate : Gate) (rsp0 : Word) :
    (c.deliver gate rsp0 errorCode).run stub =
      let pushed := (entryPushes c (BitVec.ofNat 64 num) (errorCode.getD 0#64)).foldl push
        (c.interruptStack rsp0, c.mem)
      { regs := Function.update c.regs .rdi pushed.1, rsp := pushed.1, rip := gate.base
        rflags := c.rflags &&& ~~~ gateFlags &&& ~~~ interruptFlag
        cs := gate.sel
        ss := if c.cs &&& 3#64 = 0#64 then c.ss else 0#64
        mem := pushed.2 } := by
  unfold entryPushes
  rw [List.foldl_append]
  rcases h.forms with ⟨rfl, rfl⟩ | ⟨err, rfl, rfl⟩ <;>
    rw [run_append, commonStub, run_append, run_push] <;> rfl

/-- The stack pointer in the handler: 176 bytes below the stack that was interrupted. -/
def Context.handlerRsp (c : Context) (rsp0 : Word) : Word :=
  c.interruptStack rsp0 - 176#64

theorem foldl_entryPushes_fst (c : Context) (intNo errCode top : Word) (m : Mem) :
    ((entryPushes c intNo errCode).foldl push (top, m)).1 = top - 176#64 :=
  foldl_push_fst (entryPushes c intNo errCode) (top, m)

/-- The frame is in memory, and nothing else has changed. -/
theorem words_entryPushes (c : Context) (intNo errCode top : Word) (m : Mem) :
    Words ((entryPushes c intNo errCode).foldl push (top, m)).2 (top - 176#64)
      (entryFrame c intNo errCode) := by
  have hwords : Words _ ((entryPushes c intNo errCode).foldl push (top, m)).1 _ :=
    Swtch.words_foldl_push (entryPushes c intNo errCode) (length_entryPushes_le c intNo errCode)
  rwa [foldl_entryPushes_fst, reverse_entryPushes] at hwords

theorem entryPushes_of_not_inRange (c : Context) (intNo errCode top : Word) (m : Mem) {x : Word}
    (hx : ¬ InRange (top - 176#64) 176 x) :
    ((entryPushes c intNo errCode).foldl push (top, m)).2 x = m x :=
  Swtch.foldl_push_of_not_inRange (entryPushes c intNo errCode)
    (length_entryPushes_le c intNo errCode) hx

/-- A stub writes its frame, and nothing else. -/
theorem enter_frame (h : Handles num stub errorCode) (c : Context) (gate : Gate) (rsp0 : Word) :
    ((c.deliver gate rsp0 errorCode).run stub).rsp = c.handlerRsp rsp0 ∧
      Words ((c.deliver gate rsp0 errorCode).run stub).mem (c.handlerRsp rsp0)
        (entryFrame c (BitVec.ofNat 64 num) (errorCode.getD 0#64)) ∧
      ∀ x, ¬ InRange (c.handlerRsp rsp0) 176 x →
        ((c.deliver gate rsp0 errorCode).run stub).mem x = c.mem x := by
  rw [enter_eq h]
  exact ⟨foldl_entryPushes_fst c _ _ _ _, words_entryPushes c _ _ _ _,
    fun x hx => entryPushes_of_not_inRange c _ _ _ _ hx⟩

theorem mem_fieldOrder (r : Reg) : r ∈ fieldOrder := by
  cases r <;> decide

/-- A frame in memory is the `registers_t` of what was interrupted. -/
theorem read_entryFrame {m : Mem} {p intNo errCode : Word}
    (h : Words m p (entryFrame c intNo errCode)) :
    Registers.read m p =
      ⟨c.regs, intNo, errCode, c.rip, c.cs, c.rflags, c.rsp, c.ss⟩ := by
  have hfield : ∀ i, (hi : i < 22) →
      fieldAt m p i = (entryFrame c intNo errCode).get ⟨i, hi⟩ := fun i hi => h.getElem hi
  have hregs : ∀ r, fieldAt m p (fieldOrder.idxOf r) = c.regs r := by
    intro r
    have hlt : fieldOrder.idxOf r < fieldOrder.length :=
      List.idxOf_lt_length_of_mem (mem_fieldOrder r)
    rw [hfield _ (hlt.trans_le (by decide)), List.get_eq_getElem]
    unfold entryFrame
    rw [List.getElem_append_left (by rwa [List.length_map]), List.getElem_map, List.getElem_idxOf]
  unfold Registers.read
  rw [funext hregs, hfield 15 (by decide), hfield 16 (by decide), hfield 17 (by decide),
    hfield 18 (by decide), hfield 19 (by decide), hfield 20 (by decide), hfield 21 (by decide)]
  rfl

/-- The common stub returns to what was interrupted. -/
theorem run_commonExit {intNo errCode : Word}
    (h : Words d.mem d.rsp (entryFrame c intNo errCode)) :
    d.run commonExit = { c with mem := d.mem } := by
  have hpopped : (fieldOrder.foldl (pop d.mem) d.toCpu).regs = c.regs := funext fun r =>
    Swtch.foldl_pop_regs d.mem c.regs fieldOrder d.toCpu (words_append.mp h).1
      (.inl (mem_fieldOrder r))
  have hrsp : (fieldOrder.foldl (pop d.mem) d.toCpu).rsp + 16#64 = d.rsp + 136#64 := by
    rw [Swtch.foldl_pop_rsp, add_assoc]
    rfl
  have hrun : d.run commonExit =
      let cpu := fieldOrder.foldl (pop d.mem) d.toCpu
      { regs := cpu.regs, rsp := load64 d.mem (cpu.rsp + 16#64 + 24#64)
        rip := load64 d.mem (cpu.rsp + 16#64)
        cs := load64 d.mem (cpu.rsp + 16#64 + 8#64)
        rflags := load64 d.mem (cpu.rsp + 16#64 + 16#64)
        ss := load64 d.mem (cpu.rsp + 16#64 + 32#64)
        mem := d.mem } := by
    unfold commonExit
    rw [run_append, show saveOrder.reverse = fieldOrder from rfl, run_pop]
    rfl
  have hread := read_entryFrame h
  have hat : ∀ k, load64 d.mem (d.rsp + 136#64 + BitVec.ofNat 64 (8 * k)) =
      fieldAt d.mem d.rsp (17 + k) := by
    intro k
    unfold fieldAt
    rw [add_assoc, ← BitVec.ofNat_add, Nat.mul_add]
  have hrip : load64 d.mem (d.rsp + 136#64) = c.rip := congrArg Registers.rip hread
  have hcs : load64 d.mem (d.rsp + 136#64 + 8#64) = c.cs :=
    (hat 1).trans (congrArg Registers.cs hread)
  have hrflags : load64 d.mem (d.rsp + 136#64 + 16#64) = c.rflags :=
    (hat 2).trans (congrArg Registers.rflags hread)
  have hsp : load64 d.mem (d.rsp + 136#64 + 24#64) = c.rsp :=
    (hat 3).trans (congrArg Registers.rsp hread)
  have hss : load64 d.mem (d.rsp + 136#64 + 32#64) = c.ss :=
    (hat 4).trans (congrArg Registers.ss hread)
  rw [hrun]
  dsimp only
  rw [hpopped, hrsp, hrip, hcs, hrflags, hsp, hss]

end Stubs

/-- What the C function gets at its pointer, for an exception that was reported. -/
theorem isrHandlerC_read {num : ℕ} (hnum : num < 19) {regs : Registers}
    (hregs : regs.intNo = BitVec.ofNat 64 num) :
    ∃ msg, trapMsgs[num]? = some msg ∧
      isrHandlerC regs = some (.unhandled msg regs.errCode) := by
  have hlt : num < trapMsgs.length := hnum
  have hint : regs.intNo.toNat = num := by
    rw [hregs, BitVec.toNat_ofNat, Nat.mod_eq_of_lt (by omega)]
  have hbelow : regs.intNo < 19#64 := by
    rw [BitVec.lt_def, hint]
    exact hnum
  refine ⟨trapMsgs[num], List.getElem?_eq_getElem hlt, ?_⟩
  unfold isrHandlerC
  rw [if_pos hbelow, hint, List.getElem?_eq_getElem hlt]
  rfl

/-- Every interrupt that has a stub hands its handler what was interrupted, with interrupts off, and
writes nothing but its frame. A handler that leaves the frame alone and gives its stack back returns
to where the interrupt arrived, with all registers as they were. An exception is reported by its
name, with the error code of the processor. -/
theorem interrupt_round_trip (c : Context) (gate : Gate) (rsp0 : Word) (num : ℕ)
    (stub : List Instr) (errorCode : Option Word) (h : Handles num stub errorCode) (d : Context)
    (hd : d = (c.deliver gate rsp0 errorCode).run stub) :
    d.rsp = c.handlerRsp rsp0 ∧ d.rflags &&& interruptFlag = 0#64 ∧
      Registers.read d.mem (d.regs .rdi) =
        ⟨c.regs, BitVec.ofNat 64 num, errorCode.getD 0#64, c.rip, c.cs, c.rflags, c.rsp, c.ss⟩ ∧
      (∀ x, ¬ InRange d.rsp 176 x → d.mem x = c.mem x) ∧
      (∀ d' : Context, d'.rsp = d.rsp → (∀ x, InRange d.rsp 176 x → d'.mem x = d.mem x) →
        d'.run commonExit = { c with mem := d'.mem }) ∧
      (num < 19 → ∃ msg, trapMsgs[num]? = some msg ∧
        isrHandlerC (Registers.read d.mem (d.regs .rdi)) =
          some (.unhandled msg (errorCode.getD 0#64))) := by
  have henter := enter_eq h c gate rsp0
  rw [← hd] at henter
  dsimp only at henter
  obtain ⟨hrsp, hframe, hspared⟩ := enter_frame h c gate rsp0
  rw [← hd] at hrsp hframe hspared
  rw [← hrsp] at hframe hspared
  have hrdi : d.regs .rdi = d.rsp := by
    simp only [henter, Function.update_self]
  have hflags : d.rflags &&& interruptFlag = 0#64 := by
    rw [henter]
    dsimp only
    have hoff : ~~~ interruptFlag &&& interruptFlag = 0#64 := by decide
    rw [BitVec.and_assoc, hoff, BitVec.and_zero]
  have hread := read_entryFrame hframe
  rw [← hrdi] at hread
  refine ⟨hrsp, hflags, hread, hspared, fun d' hsame hkept => ?_, fun hnum => ?_⟩
  · have hthere : Words d'.mem d'.rsp
        (entryFrame c (BitVec.ofNat 64 num) (errorCode.getD 0#64)) := by
      rw [hsame]
      exact hframe.congr (by rw [length_entryFrame]; norm_num)
        fun x hx => hkept x (by rwa [length_entryFrame] at hx)
    exact run_commonExit hthere
  · rw [hread]
    exact isrHandlerC_read hnum rfl

/-- A kernel thread. -/
def kernelContext : Context :=
  { regs := fun _ => 7#64, rsp := 0x9004#64, rip := 0x1234#64, rflags := 0x202#64, cs := 0x08#64
    ss := 0x10#64, mem := fun _ => 0#8 }

theorem interrupt_round_trip_pageFault :
    ∃ d, d = (kernelContext.deliver ⟨0x08#64, 0x4000#64⟩ 0#64 (some 2#64)).run (isrErr 14) ∧
      d.run commonExit = { kernelContext with mem := d.mem } ∧
      isrHandlerC (Registers.read d.mem (d.regs .rdi)) = some (.unhandled "page fault" 2#64) := by
  obtain ⟨-, -, -, -, hback, hreport⟩ := interrupt_round_trip kernelContext ⟨0x08#64, 0x4000#64⟩
    0#64 14 (isrErr 14) (some 2#64) (.isr rfl (by decide)) _ rfl
  obtain ⟨msg, hmsg, hreport⟩ := hreport (by norm_num)
  obtain rfl : msg = "page fault" := (Option.some.inj hmsg).symm
  exact ⟨_, rfl, hback _ rfl fun _ _ => rfl, hreport⟩

end Osiris.Isr
