import Osiris.Verification.Preempt.System

/-! # Processes do not notice that they are interrupted

Each step keeps every stack in order. So a handler that returns finds the frame it was entered with,
and a process that `schedule` goes back to finds the frame it left. -/

namespace Osiris.Preempt

open ByteMemory Page Blocks Heap Sched Isr Transition
open Swtch (StackArea)

section

variable {boot : StackArea} {fuel : ℕ} {s s' : System} {c : Context}

/-! ## Where the stacks are -/

theorem OutsideHeap.size_lt (hboot : OutsideHeap boot) : boot.size < 2 ^ 64 := by
  by_contra hlarge
  have hin : InRange boot.base boot.size kernelHeapStart :=
    (BitVec.isLt _).trans_le (not_lt.mp hlarge)
  exact hboot _ hin ⟨le_rfl, by rw [heapEnd_eq]; decide⟩

theorem size_lt (hboot : OutsideHeap boot) (s : System) (i : ℕ) :
    (s.stackArea boot i).size < 2 ^ 64 := by
  unfold System.stackArea
  split
  · exact hboot.size_lt
  · change 4096 < 2 ^ 64
    norm_num

theorem size_le (hboot : OutsideHeap boot) (s : System) (i : ℕ) :
    (s.stackArea boot i).size ≤ 2 ^ 64 :=
  (size_lt hboot s i).le

theorem stackArea_zero (s : System) : s.stackArea boot 0 = boot :=
  if_pos rfl

theorem stackArea_of_pos (s : System) {i : ℕ} (hi : 0 < i) :
    s.stackArea boot i = ⟨s.stack i, stackSize.toNat⟩ :=
  if_neg (by omega)

/-- A stack that is not the first is in a block of the heap. -/
theorem Stacked.inPayload (h : Stacked boot s) {i : ℕ} (hi : i < s.sched.procCount) (hpos : 0 < i)
    {x : Word} (hx : (s.stackArea boot i).From 0 x) :
    ∃ b ∈ s.live, payload b = s.stack i ∧ InPayload b x := by
  obtain ⟨free, hinv⟩ := h.heap
  obtain ⟨b, hb, hptr, hsize⟩ := h.own i hi hpos
  rw [stackArea_of_pos s hpos, StackArea.from_zero, ← hptr] at hx
  obtain ⟨k, hk, rfl⟩ := hx.exists_offset
  have hk' : k < 4096 := hk
  exact ⟨b, hb, hptr, hinv.addr_payload_add hb (by omega)⟩

/-- The heap has no use for what is on the stacks. -/
theorem Stacked.client (h : Stacked boot s) (hboot : OutsideHeap boot) {i : ℕ}
    (hi : i < s.sched.procCount) {x : Word} (hx : (s.stackArea boot i).From 0 x) :
    Client s.live x := by
  rcases Nat.eq_zero_or_pos i with rfl | hpos
  · rw [stackArea_zero, StackArea.from_zero] at hx
    exact .inr (hboot x hx)
  · obtain ⟨b, hb, -, hin⟩ := h.inPayload hi hpos hx
    exact .inl ⟨b, hb, hin⟩

/-- Stacks do not overlap. -/
theorem Stacked.apart (h : Stacked boot s) (hboot : OutsideHeap boot) {i j : ℕ}
    (hi : i < s.sched.procCount) (hj : j < s.sched.procCount) (hne : i ≠ j) {x : Word}
    (hx : (s.stackArea boot i).From 0 x) : ¬ (s.stackArea boot j).From 0 x := by
  obtain ⟨free, hinv⟩ := h.heap
  intro hx'
  have hmixed : ∀ k < s.sched.procCount, 0 < k → (s.stackArea boot k).From 0 x →
      ¬ (s.stackArea boot 0).From 0 x := by
    intro k hk hpos hin hfirst
    obtain ⟨b, hb, -, hpayload⟩ := h.inPayload hk hpos hin
    rw [stackArea_zero, StackArea.from_zero] at hfirst
    exact hboot x hfirst (hinv.contains_window (List.mem_append_right free hb) hpayload.contains)
  rcases Nat.eq_zero_or_pos i with rfl | hipos
  · exact hmixed j hj (Nat.pos_of_ne_zero hne.symm) hx' hx
  rcases Nat.eq_zero_or_pos j with rfl | hjpos
  · exact hmixed i hi hipos hx hx'
  obtain ⟨b, hb, hptr, hin⟩ := h.inPayload hi hipos hx
  obtain ⟨b', hb', hptr', hin'⟩ := h.inPayload hj hjpos hx'
  refine hinv.disjoint_live hb hb' (fun heq => hne ?_) _ hin.contains hin'.contains
  refine h.distinct i hi j hj hipos hjpos ?_
  rw [← hptr, ← hptr', heq]

theorem Stacked.lowest_le (h : Stacked boot s) {i : ℕ} (hi : i < s.sched.procCount) :
    s.lowest boot i ≤ (s.stackArea boot i).size :=
  (h.intact i hi).lowest_le

/-- The current process may use its stack below the last interrupt. -/
theorem Stacked.writable (h : Stacked boot s) (hboot : OutsideHeap boot) {p : Word} {n : ℕ}
    (hroom : s.HasRoom boot p n) {x : Word} (hx : InRange p n x) : s.Writable boot x := by
  have hlt := h.alternating.current_lt
  obtain ⟨hfrom, hbelow⟩ :=
    StackArea.from_of_inRange (hroom.trans (h.lowest_le hlt)) (size_le hboot s _) hx
  have hin := hfrom.mono (Nat.zero_le _)
  refine ⟨h.client hboot hlt hin, ?_⟩
  rintro ⟨i, hi, hguard⟩
  by_cases hcur : i = s.sched.currentProc
  · rw [if_pos hcur, hcur] at hguard
    have hroom' : _ + n ≤ s.lowest boot s.sched.currentProc := hroom
    have hlow := hguard.1
    omega
  · rw [if_neg hcur] at hguard
    exact h.apart hboot hi hlt hcur hguard hin

/-! ## Code of the current process -/

/-- What only writes where the current process may write leaves the stacks in order. -/
theorem Stacked.withContext (h : Stacked boot s) (hboot : OutsideHeap boot)
    (hspared : ∀ x, ¬ s.Writable boot x → c.mem x = s.sched.mem x) :
    Stacked boot (s.withContext c) := by
  obtain ⟨free, hinv⟩ := h.heap
  have hguarded : ∀ x, s.Guarded boot x → c.mem x = s.sched.mem x :=
    fun x hx => hspared x fun hw => hw.2 hx
  have hother : ∀ i < s.sched.procCount, i ≠ s.sched.currentProc →
      ∀ x, (s.stackArea boot i).From 0 x → c.mem x = s.sched.mem x := by
    intro i hi hne x hx
    exact hguarded x ⟨i, hi, by rwa [if_neg hne]⟩
  refine ⟨⟨h.alternating.current_lt, h.alternating.running, h.alternating.ready⟩,
    ⟨free, hinv.write fun x hx => hspared x fun hw => hx hw.1⟩, h.own, h.distinct,
    fun i hi => ?_, fun i hi hne => ?_⟩
  · refine (h.intact i hi).congr (size_le hboot s i) fun x hx => ?_
    by_cases hcur : i = s.sched.currentProc
    · exact hguarded x ⟨i, hi, by rwa [if_pos hcur]⟩
    · exact hother i hi hcur x (hx.mono (Nat.zero_le _))
  · exact (h.asleep i hi hne).congr (h.lowest_le hi) (size_le hboot s i) (hother i hi hne)

/-- The interrupts of the current process are those of `cs`. -/
theorem Stacked.setPending (h : Stacked boot s) {cs : List Context}
    (hcs : Intact (s.stackArea boot s.sched.currentProc) s.sched.mem cs) :
    Stacked boot { s with pending := Function.update s.pending s.sched.currentProc cs } := by
  refine ⟨h.alternating, h.heap, h.own, h.distinct, fun i hi => ?_, fun i hi hne => ?_⟩
  · by_cases hcur : i = s.sched.currentProc
    · subst hcur
      simp only [Function.update_self]
      exact hcs
    · simp only [Function.update_of_ne hcur]
      exact h.intact i hi
  · have hlowest : System.lowest boot
        { s with pending := Function.update s.pending s.sched.currentProc cs } i =
          s.lowest boot i := by
      unfold System.lowest
      simp only [Function.update_of_ne hne]
      rfl
    rw [hlowest]
    exact h.asleep i hi hne

/-! ## Interrupts -/

theorem Stacked.interrupt (h : Stacked boot s) (hboot : OutsideHeap boot) {i : ℕ}
    {stub : List Instr} (gate : Gate) (rsp0 : Word) (hstub : doIrq[i]? = some stub)
    (hkernel : s.core.cs &&& 3#64 = 0#64) (hroom : s.HasRoom boot s.context.frameBase 176) :
    Stacked boot (s.interrupted gate rsp0 stub) := by
  have hlt := h.alternating.current_lt
  obtain ⟨-, hframe, hspared⟩ := enter_frame (.irq hstub) s.context gate rsp0
  rw [handlerRsp_eq hkernel] at hframe hspared
  have hentered : Stacked boot (s.withContext ((s.context.deliver gate rsp0 none).run stub)) :=
    h.withContext hboot fun x hx => hspared x fun hin => hx (h.writable hboot hroom hin)
  refine hentered.setPending (.cons hkernel hroom hframe (fun x hx => hspared x ?_)
    (h.intact _ hlt))
  exact StackArea.not_inRange_of_from (hroom.trans (h.lowest_le hlt)) (size_le hboot s _) hx

/-- The handler returns to what was interrupted, which finds its stack as it was. -/
theorem Stacked.run_commonExit (h : Stacked boot s) {rest : List Context}
    (hpending : s.pending s.sched.currentProc = c :: rest) (hrsp : s.core.rsp = c.frameBase) :
    s.context.run commonExit = { c with mem := s.sched.mem } ∧
      ∀ x, (s.stackArea boot s.sched.currentProc).From
          ((s.stackArea boot s.sched.currentProc).offset c.frameBase + 176) x →
        s.sched.mem x = c.mem x := by
  have hintact := h.intact _ h.alternating.current_lt
  rw [hpending] at hintact
  cases hintact with
  | cons hkernel hroom hframe habove houter =>
      rw [← hrsp] at hframe
      exact ⟨Isr.run_commonExit hframe, habove⟩

theorem Stacked.resume (h : Stacked boot s) (hboot : OutsideHeap boot) {rest : List Context}
    (hpending : s.pending s.sched.currentProc = c :: rest) (hrsp : s.core.rsp = c.frameBase) :
    Stacked boot
      { s.withContext (s.context.run commonExit) with
        pending := Function.update s.pending s.sched.currentProc rest } := by
  have hintact := h.intact _ h.alternating.current_lt
  rw [hpending] at hintact
  rw [(h.run_commonExit hpending hrsp).1]
  have hreturned : Stacked boot (s.withContext { c with mem := s.sched.mem }) :=
    h.withContext hboot fun _ _ => rfl
  exact hreturned.setPending (hintact.tail (size_le hboot s _))

/-! ## `schedule` -/

/-- The frame that a process leaves, and nothing else, is written. -/
theorem procSwitchX64_frame (cpu : Cpu) (m : Mem) :
    Words ((pushOrder.map cpu.regs).foldl push (cpu.rsp, m)).2 (cpu.rsp - 120#64)
        (Swtch.frame cpu.regs (load64 m cpu.rsp)) ∧
      ∀ x, ¬ InRange (cpu.rsp - 120#64) 120 x →
        ((pushOrder.map cpu.regs).foldl push (cpu.rsp, m)).2 x = m x := by
  have hlen : 8 * (pushOrder.map cpu.regs).length ≤ 2 ^ 64 := by
    rw [List.length_map]
    decide
  have hspared : ∀ x, ¬ InRange (cpu.rsp - 120#64) 120 x →
      ((pushOrder.map cpu.regs).foldl push (cpu.rsp, m)).2 x = m x :=
    fun x hx => Swtch.foldl_push_of_not_inRange (pushOrder.map cpu.regs) hlen hx
  have hregs : Words _ ((pushOrder.map cpu.regs).foldl push (cpu.rsp, m)).1 _ :=
    Swtch.words_foldl_push (pushOrder.map cpu.regs) hlen
  rw [foldl_push_fst, ← List.map_reverse] at hregs
  refine ⟨words_append.mpr ⟨hregs, ?_, trivial⟩, hspared⟩
  change load64 _ (cpu.rsp - 120#64 + 120#64) = _
  rw [sub_add_cancel]
  refine load64_congr fun x hx => hspared x fun hin => ?_
  have hapart : Apart (cpu.rsp - 120#64 + BitVec.ofNat 64 0) 120 (cpu.rsp - 120#64 + 120#64) 8 :=
    apart_fields _ (by norm_num) (by norm_num)
  rw [BitVec.add_zero] at hapart
  refine hapart x hin ?_
  rwa [sub_add_cancel]

theorem switchTo_toKernelHeap (s : Scheduler) (cpu : Cpu) (i : ℕ) :
    (s.switchTo cpu i).2.toKernelHeap =
      { s.toKernelHeap with mem := ((pushOrder.map cpu.regs).foldl push (cpu.rsp, s.mem)).2 } := rfl

/-- The processor has been given to the process in slot `i`. -/
def System.switched (s : System) (core : Core) (i : ℕ) : System :=
  { s with
    core
    sched := (s.sched.switchTo s.core.toCpu i).2
    parked := Function.update s.parked s.sched.currentProc s.leaving }

theorem stack_switched (core : Core) {i : ℕ} (hne : i ≠ s.sched.currentProc) (j : ℕ) :
    (s.switched core i).stack j = s.stack j :=
  (switchTo_sameProcess s.sched s.core.toCpu hne j).2

theorem stackArea_congr (hsame : ∀ j, s'.stack j = s.stack j) (j : ℕ) :
    s'.stackArea boot j = s.stackArea boot j := by
  unfold System.stackArea
  rw [hsame]

/-- A process that is switched away from sleeps. -/
theorem Stacked.switched (h : Stacked boot s) (hboot : OutsideHeap boot)
    (hroom : s.HasRoom boot (s.core.rsp - 120#64) 128) {i : ℕ} (hi : i < s.sched.procCount)
    (hne : i ≠ s.sched.currentProc) (core : Core) : Stacked boot (s.switched core i) := by
  have hlt := h.alternating.current_lt
  have hle := hroom.trans (h.lowest_le hlt)
  obtain ⟨hframe, hspared⟩ := procSwitchX64_frame s.core.toCpu s.sched.mem
  have hleft : Stacked boot (s.withContext
      ⟨core, ((pushOrder.map s.core.regs).foldl push (s.core.rsp, s.sched.mem)).2⟩) :=
    h.withContext hboot fun x hx => hspared x fun hin =>
      hx (h.writable hboot hroom (LinkedList.inRange_mono hin (by norm_num)))
  have harea : ∀ j, (s.switched core i).stackArea boot j = s.stackArea boot j :=
    stackArea_congr (stack_switched core hne)
  have hlowest : ∀ j, (s.switched core i).lowest boot j = s.lowest boot j := by
    intro j
    unfold System.lowest
    rw [harea]
    rfl
  refine ⟨h.alternating.switchTo _ hi hne, hleft.heap, fun j hj hpos => ?_,
    fun j hj k hk hjpos hkpos heq => ?_, fun j hj => ?_, fun j hj hji => ?_⟩
  · rw [stack_switched core hne]
    exact h.own j hj hpos
  · rw [stack_switched core hne, stack_switched core hne] at heq
    exact h.distinct j hj k hk hjpos hkpos heq
  · rw [harea]
    exact hleft.intact j hj
  · rw [harea, hlowest]
    have htable := congrFun (switchTo_procTable hne s.core.toCpu) j
    change Asleep _ _ _ ((s.sched.switchTo s.core.toCpu i).2.procTable j).rsp
      (Function.update s.parked s.sched.currentProc s.leaving j)
    by_cases hcur : j = s.sched.currentProc
    · subst hcur
      rw [htable, Function.update_self, Function.update_self]
      refine ⟨hframe, ?_, hroom, fun x hx => hspared x fun hin => ?_⟩
      · change s.core.rsp + 8#64 = s.core.rsp - 120#64 + 128#64
        rw [show 128#64 = 120#64 + 8#64 from rfl, ← add_assoc, sub_add_cancel]
      · exact StackArea.not_inRange_of_from hle (size_le hboot s _) hx
          (LinkedList.inRange_mono hin (by norm_num))
    · have hji' : j ≠ i := hji
      rw [htable, Function.update_of_ne hcur, Function.update_of_ne hji',
        Function.update_of_ne hcur]
      exact hleft.asleep j hj hcur

theorem Stacked.schedule (h : Stacked boot s) (hboot : OutsideHeap boot)
    (hroom : s.HasRoom boot (s.core.rsp - 120#64) 128) {cpu : Cpu} {sched : Scheduler}
    (hcall : Sched.schedule fuel s.core.toCpu s.sched = .ok (cpu, sched)) (core : Core) :
    Stacked boot
      { s with
        core
        sched
        parked := Function.update s.parked s.sched.currentProc s.leaving } := by
  rcases schedule_ok_cases hcall with heq | ⟨i, hi, hne, -, heq⟩
  · obtain ⟨-, rfl⟩ := Prod.mk.inj heq
    refine ⟨h.alternating, h.heap, h.own, h.distinct, h.intact, fun j hj hne => ?_⟩
    simp only [Function.update_of_ne hne]
    exact h.asleep j hj hne
  · obtain rfl : sched = (s.sched.switchTo s.core.toCpu i).2 := congrArg Prod.snd heq
    exact h.switched hboot hroom hi hne core

/-! ## The heap -/

/-- What is on the stacks stays there when a request names none of them. -/
theorem Stacked.stack_kept (h : Stacked boot s) (hboot : OutsideHeap boot) (hfuel : 65536 < fuel)
    {req : Request} {ptr : Word} {t : State} (hserved : Served fuel s.heapState (req, ptr) t)
    (hspared : ∀ i < s.sched.procCount, 0 < i → ¬ Names (s.stack i) req) :
    (∀ i < s.sched.procCount, 0 < i → ∃ b ∈ t.live, payload b = s.stack i ∧ 4104 ≤ b.size) ∧
      ∀ i < s.sched.procCount, ∀ x, (s.stackArea boot i).From 0 x →
        t.heap.mem x = s.sched.mem x := by
  obtain ⟨free, hinv⟩ := h.heap
  have hinv₀ : HeapInv s.heapState.heap s.heapState.live free := hinv
  obtain ⟨⟨free', hinv'⟩, hstore, hout⟩ := hinv₀.served hfuel hserved
  have hblock : ∀ i < s.sched.procCount, 0 < i → ∀ b ∈ s.live, payload b = s.stack i →
      ∃ b' ∈ t.live, payload b' = payload b ∧
        payloadBytes t.heap b' = payloadBytes s.sched.toKernelHeap b := by
    intro i hi hpos b hb hptr
    have hnot := hspared i hi hpos
    rw [← hptr] at hnot
    have hheld : ¬ req.toStore.Retires (payload b) := by
      cases req with
      | write p i byte => exact id
      | _ => exact hnot
    have hkept := hstore.contents (hinv.contents_payload hb) hheld
    have hsame : req.toStore.update (payload b) (payloadBytes s.sched.toKernelHeap b) =
        payloadBytes s.sched.toKernelHeap b := by
      cases req with
      | write p i byte => exact if_neg hnot
      | _ => rfl
    rw [hsame] at hkept
    exact exists_of_contents hkept
  refine ⟨fun i hi hpos => ?_, fun i hi x hx => ?_⟩
  · obtain ⟨b, hb, hptr, hsize⟩ := h.own i hi hpos
    obtain ⟨b', hb', hptr', hbytes⟩ := hblock i hi hpos b hb hptr
    refine ⟨b', hb', hptr'.trans hptr, ?_⟩
    have hlength := congrArg List.length hbytes
    rw [length_payloadBytes, length_payloadBytes] at hlength
    omega
  · rcases Nat.eq_zero_or_pos i with rfl | hpos
    · rw [stackArea_zero, StackArea.from_zero] at hx
      exact hout x (hboot x hx)
    · obtain ⟨b, hb, hptr, hsize⟩ := h.own i hi hpos
      obtain ⟨b', hb', hptr', hbytes⟩ := hblock i hi hpos b hb hptr
      rw [stackArea_of_pos s hpos, StackArea.from_zero, ← hptr] at hx
      obtain ⟨k, hk, rfl⟩ := hx.exists_offset
      have hk' : k < 4096 := hk
      have hlength := congrArg List.length hbytes
      rw [length_payloadBytes, length_payloadBytes] at hlength
      have hbyte := congrArg (fun bytes => bytes[k]?) hbytes
      simp only [payloadBytes, List.getElem?_map] at hbyte
      rw [List.getElem?_range (by omega), List.getElem?_range (by omega), hptr'] at hbyte
      exact Option.some.inj hbyte

/-- Stacks whose bytes are what they were are in order. -/
theorem Stacked.setHeap (h : Stacked boot s) (hboot : OutsideHeap boot) {heap : KernelHeap}
    {live free : List Block} (hinv : HeapInv heap live free)
    (hown : ∀ i < s.sched.procCount, 0 < i → ∃ b ∈ live, payload b = s.stack i ∧ 4104 ≤ b.size)
    (hsame : ∀ i < s.sched.procCount, ∀ x, (s.stackArea boot i).From 0 x →
      heap.mem x = s.sched.mem x) (core : Core) :
    Stacked boot { s with core, sched := { s.sched with toKernelHeap := heap }, live } := by
  refine ⟨⟨h.alternating.current_lt, h.alternating.running, h.alternating.ready⟩, ⟨free, hinv⟩,
    hown, h.distinct, fun i hi => ?_, fun i hi hne => ?_⟩
  · exact (h.intact i hi).congr (size_le hboot s i)
      fun x hx => hsame i hi x (hx.mono (Nat.zero_le _))
  · exact (h.asleep i hi hne).congr (h.lowest_le hi) (size_le hboot s i) (hsame i hi)

/-! ## `proc_create` -/

theorem procCreate_eq {s s' : Scheduler} {stack entryPoint : Word} {heap : KernelHeap}
    (hroom : s.procCount < maxProc)
    (hstack : kmalloc fuel s.toKernelHeap stackSize = .ok (stack, heap))
    (hcreate : procCreate fuel s entryPoint = .ok s') :
    s'.toKernelHeap = { heap with
        mem := ((initialFrame entryPoint).foldl push (stack + stackSize, heap.mem)).2 } ∧
      s'.procTable = Function.update s.procTable s.procCount (newProc s.procCount stack) ∧
      s'.currentProc = s.currentProc ∧ s'.procCount = s.procCount + 1 := by
  rw [procCreate_ok hroom hstack] at hcreate
  obtain rfl := Except.ok.inj hcreate
  exact ⟨rfl, rfl, rfl, rfl⟩

theorem offset_initialFrame (stack : Word) :
    StackArea.offset ⟨stack, stackSize.toNat⟩ (stack + stackSize - 128#64) = 3968 := by
  have hdiff : stack + stackSize - 128#64 - stack = 3968#64 := by
    rw [add_sub_assoc, add_sub_cancel_left]
    rfl
  unfold StackArea.offset
  rw [hdiff]
  rfl

/-- The new stack is a block of its own, and nothing on the other stacks changes. -/
theorem Stacked.newStack (h : Stacked boot s) (hboot : OutsideHeap boot) (hfuel : 65536 < fuel)
    {entryPoint stack : Word} {heap : KernelHeap} {sched : Scheduler}
    (hroom : s.sched.procCount < maxProc)
    (hstack : kmalloc fuel s.sched.toKernelHeap stackSize = .ok (stack, heap))
    (hmade : stack ≠ 0#64) (hcreate : procCreate fuel s.sched entryPoint = .ok sched) :
    ∃ b free', payload b = stack ∧ gain heap s.live stack = b :: s.live ∧ 4104 ≤ b.size ∧
      HeapInv sched.toKernelHeap (b :: s.live) free' ∧
      ∀ i < s.sched.procCount, ∀ x, (s.stackArea boot i).From 0 x →
        sched.mem x = s.sched.mem x := by
  obtain ⟨free, hinv⟩ := h.heap
  obtain ⟨hheap, -⟩ := procCreate_eq hroom hstack hcreate
  rcases hinv.kmalloc hfuel stackSize with ⟨-, hnull⟩ | ⟨b, free', h', -, hok, hinv', hle, ht⟩
  · rw [hstack] at hnull
    exact absurd (Prod.mk.inj (Except.ok.inj hnull)).1 hmade
  rw [hstack] at hok
  obtain ⟨rfl, rfl⟩ := Prod.mk.inj (Except.ok.inj hok)
  have hb : b ∈ b :: s.live := List.mem_cons_self
  have hsize : 4112 ≤ b.size := hle
  have hin : ∀ x, InRange (payload b) 4096 x → InPayload b x := by
    intro x hx
    obtain ⟨k, hk, rfl⟩ := hx.exists_offset
    exact hinv'.addr_payload_add hb (by omega)
  refine ⟨b, free', rfl, hinv'.gain_payload, by omega, ?_, fun i hi x hx => ?_⟩
  · rw [hheap]
    refine hinv'.write fun x hx => Swtch.initialFrame_of_not_inRange _ _ fun hrange => hx ?_
    exact .inl ⟨b, hb, hin x hrange⟩
  · have hclient := h.client hboot hi hx
    rw [← hinv.client_mem_eq ht hclient, hheap]
    refine Swtch.initialFrame_of_not_inRange _ _ fun hrange => ?_
    exact hinv'.not_new_of_client hclient (hin x hrange).contains

/-- The new process sleeps before its first instruction. -/
theorem asleep_initialFrame (stack entryPoint : Word) (m : Mem) :
    Asleep ⟨stack, stackSize.toNat⟩
      ((initialFrame entryPoint).foldl push (stack + stackSize, m)).2 4096
      (stack + stackSize - 128#64)
      ⟨⟨fun _ => 0#64, stack + stackSize, entryPoint⟩,
        ((initialFrame entryPoint).foldl push (stack + stackSize, m)).2⟩ := by
  refine ⟨Swtch.words_initialFrame m entryPoint, (sub_add_cancel _ _).symm, ?_, fun _ _ => rfl⟩
  rw [offset_initialFrame]

theorem Stacked.create (h : Stacked boot s) (hboot : OutsideHeap boot) (hfuel : 65536 < fuel)
    {entryPoint stack : Word} {heap : KernelHeap} {sched : Scheduler}
    (hroom : s.sched.procCount < maxProc)
    (hstack : kmalloc fuel s.sched.toKernelHeap stackSize = .ok (stack, heap))
    (hmade : stack ≠ 0#64) (hcreate : procCreate fuel s.sched entryPoint = .ok sched)
    (core : Core) :
    Stacked boot (s.created core sched (gain heap s.live stack) entryPoint stack) := by
  obtain ⟨hheap, htable, hcurrent, hcount⟩ := procCreate_eq hroom hstack hcreate
  obtain ⟨b, free', hptr, hgain, hsize, hinv, hsame⟩ :=
    h.newStack hboot hfuel hroom hstack hmade hcreate
  have hkept := h.setHeap hboot hinv (fun i hi hpos => by
    obtain ⟨c, hc, hrest⟩ := h.own i hi hpos
    exact ⟨c, List.mem_cons_of_mem b hc, hrest⟩) hsame core
  have hpos : 0 < s.sched.procCount := (Nat.zero_le _).trans_lt h.alternating.current_lt
  rw [hgain]
  have hnew : System.stack (s.created core sched (b :: s.live) entryPoint stack)
      s.sched.procCount = stack := by
    change (sched.procTable s.sched.procCount).stack = stack
    rw [htable, Function.update_self]
    rfl
  have hslot : ∀ i < s.sched.procCount, sched.procTable i = s.sched.procTable i := by
    intro i hi
    rw [htable, Function.update_of_ne hi.ne]
  have harea : ∀ i < s.sched.procCount,
      (s.created core sched (b :: s.live) entryPoint stack).stackArea boot i =
        s.stackArea boot i := by
    intro i hi
    unfold System.stackArea System.stack System.created
    rw [hslot i hi]
  have hpending : ∀ i < s.sched.procCount,
      (s.created core sched (b :: s.live) entryPoint stack).pending i = s.pending i :=
    fun i hi => Function.update_of_ne hi.ne _ _
  have hcases : ∀ i < sched.procCount, i < s.sched.procCount ∨ i = s.sched.procCount := by
    intro i hi
    rw [hcount] at hi
    omega
  refine ⟨h.alternating.procCreate hcreate, ⟨free', hinv⟩, fun i hi hipos => ?_,
    fun i hi j hj hipos hjpos heq => ?_, fun i hi => ?_, fun i hi hne => ?_⟩
  · rcases hcases i hi with hold | rfl
    · obtain ⟨c, hc, hrest⟩ := hkept.own i hold hipos
      refine ⟨c, hc, ?_⟩
      unfold System.stack System.created
      rw [hslot i hold]
      exact hrest
    · exact ⟨b, List.mem_cons_self, hptr.trans hnew.symm, hsize⟩
  · have hstack' : ∀ k < s.sched.procCount,
        (s.created core sched (b :: s.live) entryPoint stack).stack k = s.stack k :=
      fun k hk => congrArg Proc.stack (hslot k hk)
    have hfresh : ∀ k < s.sched.procCount, 0 < k → s.stack k ≠ stack := by
      intro k hk hkpos heq
      obtain ⟨c, hc, hptr', -⟩ := h.own k hk hkpos
      refine hinv.payload_ne (List.mem_cons_of_mem b hc) List.mem_cons_self (fun hcb => ?_)
        (hptr'.trans (heq.trans hptr.symm))
      exact hinv.not_mem_rest (hcb ▸ hc)
    rcases hcases i hi with hi' | rfl <;> rcases hcases j hj with hj' | rfl
    · rw [hstack' i hi', hstack' j hj'] at heq
      exact h.distinct i hi' j hj' hipos hjpos heq
    · rw [hstack' i hi', hnew] at heq
      exact absurd heq (hfresh i hi' hipos)
    · rw [hstack' j hj', hnew] at heq
      exact absurd heq.symm (hfresh j hj' hjpos)
    · rfl
  · rcases hcases i hi with hold | rfl
    · rw [harea i hold, hpending i hold]
      exact hkept.intact i hold
    · have hnone : (s.created core sched (b :: s.live) entryPoint stack).pending
          s.sched.procCount = [] := Function.update_self _ _ _
      rw [hnone]
      exact .nil
  · rcases hcases i hi with hold | rfl
    · have hlowest : (s.created core sched (b :: s.live) entryPoint stack).lowest boot i =
          s.lowest boot i := by
        unfold System.lowest
        rw [harea i hold, hpending i hold]
      have hparked : (s.created core sched (b :: s.live) entryPoint stack).parked i = s.parked i :=
        Function.update_of_ne hold.ne _ _
      have hasleep := hkept.asleep i hold fun heq => hne (heq.trans hcurrent.symm)
      rw [harea i hold, hlowest, hparked]
      change Asleep _ _ _ (sched.procTable i).rsp _
      rw [hslot i hold]
      exact hasleep
    · have harea' : (s.created core sched (b :: s.live) entryPoint stack).stackArea boot
          s.sched.procCount = ⟨stack, stackSize.toNat⟩ := by
        rw [stackArea_of_pos _ hpos, hnew]
      have hlowest : (s.created core sched (b :: s.live) entryPoint stack).lowest boot
          s.sched.procCount = 4096 := by
        unfold System.lowest
        rw [harea']
        change Isr.lowest _ (Function.update s.pending s.sched.procCount [] s.sched.procCount) = _
        rw [Function.update_self]
        rfl
      rw [harea', hlowest]
      change Asleep _ sched.mem _ (sched.procTable s.sched.procCount).rsp
        (Function.update s.parked s.sched.procCount _ s.sched.procCount)
      rw [Function.update_self, htable, Function.update_self, hheap]
      exact asleep_initialFrame stack entryPoint heap.mem

/-! ## Whole runs -/

theorem Stacked.step (h : Stacked boot s) (hboot : OutsideHeap boot) (hfuel : 65536 < fuel)
    {event : Event} (hstep : Step boot fuel s event s') : Stacked boot s' := by
  cases hstep with
  | compute c hspared => exact h.withContext hboot hspared
  | heap core hserved hspared =>
      obtain ⟨free, hinv⟩ := h.heap
      have hinv₀ : HeapInv s.heapState.heap s.heapState.live free := hinv
      obtain ⟨⟨free', hinv'⟩, -⟩ := hinv₀.served hfuel hserved
      obtain ⟨hown, hsame⟩ := h.stack_kept hboot hfuel hserved hspared
      exact h.setHeap hboot hinv' hown hsame core
  | create core hroom hstack hmade hcreate =>
      exact h.create hboot hfuel hroom hstack hmade hcreate core
  | interrupt gate rsp0 hstub hon hkernel hroom =>
      exact h.interrupt hboot gate rsp0 hstub hkernel hroom
  | schedule hroom hcall => exact h.schedule hboot hroom hcall _
  | resume hpending hrsp => exact h.resume hboot hpending hrsp

end

end Osiris.Preempt
