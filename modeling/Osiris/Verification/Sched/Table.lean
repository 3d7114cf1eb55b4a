import Osiris.Model.Proc

/-! # What the functions of the scheduler do to the process table -/

namespace Osiris.Sched

open ByteMemory Page Heap

/-! ## Loops -/

theorem shiftDown_apply {α : Type} (table : ℕ → α) {first last : ℕ} (hle : first ≤ last) (j : ℕ) :
    shiftDown table first last j = if first ≤ j ∧ j < last then table (j + 1) else table j := by
  induction last, hle using Nat.le_induction generalizing j with
  | base =>
      have hout : ¬ (first ≤ j ∧ j < first) := by omega
      simp [shiftDown, pageRange, hout]
  | succ last hle ih =>
      have hstep : shiftDown table first (last + 1) =
          Function.update (shiftDown table first last) last
            (shiftDown table first last (last + 1)) := by
        unfold shiftDown pageRange
        rw [Nat.succ_sub hle, List.range'_1_concat, List.foldl_append, Nat.add_sub_cancel' hle]
        rfl
      have hnext : shiftDown table first last (last + 1) = table (last + 1) := by
        rw [ih, if_neg (by omega)]
      rw [hstep, hnext]
      by_cases hj : j = last
      · subst hj
        rw [Function.update_self, if_pos (by omega)]
      · rw [Function.update_of_ne hj, ih]
        have hiff : (first ≤ j ∧ j < last) ↔ (first ≤ j ∧ j < last + 1) := by omega
        simp only [hiff]

theorem foldl_push_fst (values : List Word) (stack : Word × Mem) :
    (values.foldl push stack).1 = stack.1 - BitVec.ofNat 64 (8 * values.length) := by
  induction values generalizing stack with
  | nil => simp
  | cons value values ih =>
      rw [List.foldl_cons, ih, List.length_cons, Nat.mul_succ, BitVec.ofNat_add, push]
      change stack.1 - 8#64 - _ = _
      ring

/-! ## `schedule` -/

theorem currentProcIndex_of_lt {s : Scheduler} (h : s.currentProc < s.procCount) :
    s.currentProcIndex = some s.currentProc := by
  unfold Scheduler.currentProcIndex
  rw [List.find?_range_eq_some]
  refine ⟨by simp, List.mem_range.mpr h, fun j hj => ?_⟩
  simpa using hj.ne

theorem currentProcIndex_of_le {s : Scheduler} (h : s.procCount ≤ s.currentProc) :
    s.currentProcIndex = none := by
  unfold Scheduler.currentProcIndex
  rw [List.find?_eq_none]
  intro i hi
  have hlt := List.mem_range.mp hi
  simp only [decide_eq_true_eq]
  omega

/-- Where the search for the next process starts. -/
def Scheduler.firstIndex (s : Scheduler) : ℕ :=
  match s.currentProcIndex with
  | some i => (i + 1) % s.procCount
  | none => 0 % s.procCount

theorem firstIndex_lt {s : Scheduler} (h : 0 < s.procCount) : s.firstIndex < s.procCount := by
  unfold Scheduler.firstIndex
  split
  · exact Nat.mod_lt _ h
  · exact Nat.mod_lt _ h

theorem searchReady_lt {s : Scheduler} {current : Option ℕ} {fuel first i : ℕ}
    (hfirst : first < s.procCount) (h : searchReady s current fuel first = .ok i) :
    i < s.procCount := by
  induction fuel generalizing first with
  | zero => simp [searchReady] at h
  | succ fuel ih =>
      unfold searchReady at h
      split at h
      · exact ih (Nat.mod_lt _ (by omega)) h
      · obtain rfl := Except.ok.inj h
        exact hfirst

/-- A call of `schedule` that returns keeps the current process, or switches to another one that
is ready. -/
theorem schedule_ok_cases {s : Scheduler} {fuel : ℕ} {cpu : Cpu} {result : Cpu × Scheduler}
    (h : schedule fuel cpu s = .ok result) :
    result = (cpu, s) ∨
      ∃ i < s.procCount, i ≠ s.currentProc ∧ (s.procTable i).state = .ready ∧
        result = s.switchTo cpu i := by
  unfold schedule at h
  split at h
  · simp at h
  · rename_i hcount
    obtain ⟨next, hsearch, h⟩ := Loop.bind_eq_ok.mp h
    have hnext := searchReady_lt (firstIndex_lt (by omega)) hsearch
    split at h
    · exact Or.inl (Except.ok.inj h).symm
    · rename_i hother
      split at h
      · exact Or.inl (Except.ok.inj h).symm
      · rename_i hready
        refine Or.inr ⟨next, hnext, fun heq => hother ?_, not_not.mp hready,
          (Except.ok.inj h).symm⟩
        rw [currentProcIndex_of_lt (heq ▸ hnext), heq]

/-- Exactly the current process runs, and every other one is ready. -/
structure Alternating (s : Scheduler) : Prop where
  current_lt : s.currentProc < s.procCount
  running : (s.procTable s.currentProc).state = .running
  ready : ∀ i < s.procCount, i ≠ s.currentProc → (s.procTable i).state = .ready

/-- The slot after the current one, and then the first again. -/
def Scheduler.nextProc (s : Scheduler) : ℕ :=
  (s.currentProc + 1) % s.procCount

theorem Alternating.nextProc_lt {s : Scheduler} (h : Alternating s) : s.nextProc < s.procCount :=
  Nat.mod_lt _ (lt_of_le_of_lt (Nat.zero_le _) h.current_lt)

/-- The search ends at once: at the next process, or where there is no other. -/
theorem schedule_eq {s : Scheduler} (h : Alternating s) {fuel : ℕ} (hfuel : 0 < fuel) (cpu : Cpu) :
    schedule fuel cpu s =
      .ok (if s.nextProc = s.currentProc then (cpu, s) else s.switchTo cpu s.nextProc) := by
  obtain ⟨fuel, rfl⟩ := Nat.exists_eq_succ_of_ne_zero hfuel.ne'
  have hpos : s.procCount ≠ 0 := by
    have := h.current_lt
    omega
  have hsearch : searchReady s (some s.currentProc) (fuel + 1) s.nextProc = .ok s.nextProc := by
    unfold searchReady
    by_cases hne : s.nextProc = s.currentProc
    · simp [hne]
    · simp [h.ready _ h.nextProc_lt hne]
  unfold schedule
  rw [if_neg hpos, currentProcIndex_of_lt h.current_lt]
  dsimp only
  change (searchReady s (some s.currentProc) (fuel + 1) s.nextProc >>= _) = _
  rw [hsearch]
  by_cases hne : s.nextProc = s.currentProc
  · simp [hne, bind, Except.bind]
  · simp [hne, h.ready _ h.nextProc_lt hne, bind, Except.bind]

/-- The stack pointer that is kept for the process that is left. -/
def savedRsp (cpu : Cpu) : Word :=
  cpu.rsp - 120#64

theorem procSwitchX64_fst (cpu : Cpu) (m : Mem) (newRsp : Word) :
    (procSwitchX64 cpu m newRsp).1 = savedRsp cpu :=
  foldl_push_fst (pushOrder.map cpu.regs) (cpu.rsp, m)

@[simp] theorem switchTo_currentProc (s : Scheduler) (cpu : Cpu) (i : ℕ) :
    (s.switchTo cpu i).2.currentProc = i := rfl

@[simp] theorem switchTo_procCount (s : Scheduler) (cpu : Cpu) (i : ℕ) :
    (s.switchTo cpu i).2.procCount = s.procCount := rfl

theorem switchTo_procTable {s : Scheduler} {i : ℕ} (hne : i ≠ s.currentProc) (cpu : Cpu) :
    (s.switchTo cpu i).2.procTable =
      Function.update
        (Function.update s.procTable i { s.procTable i with state := .running })
        s.currentProc
        { s.procTable s.currentProc with state := .ready, rsp := savedRsp cpu } := by
  funext j
  unfold Scheduler.switchTo
  dsimp only [Scheduler.setProc]
  rw [procSwitchX64_fst]
  by_cases hj : j = s.currentProc
  · subst hj
    simp [Ne.symm hne]
  · by_cases hji : j = i
    · subst hji
      simp [hj]
    · simp [hj, hji]

theorem Alternating.switchTo {s : Scheduler} (h : Alternating s) (cpu : Cpu) {i : ℕ}
    (hi : i < s.procCount) (hne : i ≠ s.currentProc) : Alternating (s.switchTo cpu i).2 := by
  constructor
  · exact hi
  · rw [switchTo_procTable hne, switchTo_currentProc, Function.update_of_ne hne,
      Function.update_self]
  · intro j hj hji
    rw [switchTo_currentProc] at hji
    rw [switchTo_procTable hne]
    by_cases hjc : j = s.currentProc
    · rw [hjc, Function.update_self]
    · rw [Function.update_of_ne hjc, Function.update_of_ne hji]
      exact h.ready j hj hjc

/-! ## `proc_create` -/

/-- The slot of a process that has not run yet. -/
def newProc (count : ℕ) (stack : Word) : Proc :=
  ⟨stack + stackSize - 128#64, BitVec.ofNat 64 count, .ready, stack⟩

/-- With a free slot and a stack for it there is a new process. -/
theorem procCreate_ok {fuel : ℕ} {s : Scheduler} {stack : Word} {heap : KernelHeap}
    (hroom : s.procCount < maxProc)
    (hstack : kmalloc fuel s.toKernelHeap stackSize = .ok (stack, heap)) (entryPoint : Word) :
    procCreate fuel s entryPoint = .ok
      { toKernelHeap :=
          { heap with mem := ((initialFrame entryPoint).foldl push (stack + stackSize, heap.mem)).2 }
        procTable := Function.update s.procTable s.procCount (newProc s.procCount stack)
        currentProc := s.currentProc
        procCount := s.procCount + 1 } := by
  unfold procCreate
  rw [if_neg (not_le.mpr hroom)]
  dsimp only [Scheduler.setProc]
  rw [hstack]
  dsimp only [Bind.bind, Except.bind]
  rw [foldl_push_fst, Function.update_self, Function.update_idem]
  rfl

/-- A call does nothing because the table is full, or fills the slot after the last. -/
theorem procCreate_cases {fuel : ℕ} {s s' : Scheduler} {entryPoint : Word}
    (h : procCreate fuel s entryPoint = .ok s') :
    (maxProc ≤ s.procCount ∧ s' = s) ∨
      (s.procCount < maxProc ∧
        ∃ stack heap, kmalloc fuel s.toKernelHeap stackSize = .ok (stack, heap) ∧
        s'.procTable = Function.update s.procTable s.procCount (newProc s.procCount stack) ∧
        s'.currentProc = s.currentProc ∧ s'.procCount = s.procCount + 1) := by
  unfold procCreate at h
  by_cases hfull : s.procCount ≥ maxProc
  · rw [if_pos hfull] at h
    exact Or.inl ⟨hfull, by simpa using h.symm⟩
  · rw [if_neg hfull] at h
    dsimp only [Scheduler.setProc] at h
    obtain ⟨⟨stack, heap⟩, hk, h⟩ := Loop.bind_eq_ok.mp h
    obtain rfl := Except.ok.inj h
    refine Or.inr ⟨not_le.mp hfull, stack, heap, hk, ?_, rfl, rfl⟩
    dsimp only
    rw [foldl_push_fst, Function.update_self, Function.update_idem]
    rfl

theorem Alternating.procCreate {fuel : ℕ} {s s' : Scheduler} {entryPoint : Word}
    (h : Alternating s) (hcreate : Sched.procCreate fuel s entryPoint = .ok s') :
    Alternating s' := by
  cases procCreate_cases hcreate with
  | inl hfull =>
      rw [hfull.2]
      exact h
  | inr hnew =>
      obtain ⟨-, stack, heap, -, htable, hcurrent, hcount⟩ := hnew
      have hlt := h.current_lt
      constructor
      · rw [hcurrent, hcount]
        omega
      · rw [htable, hcurrent, Function.update_of_ne (by omega)]
        exact h.running
      · intro i hi hne
        rw [hcount] at hi
        rw [hcurrent] at hne
        rw [htable]
        by_cases hlast : i = s.procCount
        · rw [hlast, Function.update_self]
          rfl
        · rw [Function.update_of_ne hlast]
          exact h.ready i (by omega) hne

/-! ## `proc_destroy` -/

/-- What is left in a slot that is destroyed, until another one is moved there. -/
def deadProc (proc : Proc) : Proc :=
  { proc with state := .dead, stack := 0#64 }

theorem removeProc_spec (s : Scheduler) (proc : ℕ) :
    (s.removeProc proc).procTable =
        shiftDown (s.setProc proc { s.procTable proc with state := .dead }).procTable proc
          (s.procCount - 1) ∧
      (s.removeProc proc).procCount = s.procCount - 1 ∧
      (s.removeProc proc).currentProc = if s.currentProc = proc then 0 else s.currentProc := by
  unfold Scheduler.removeProc
  dsimp only
  split <;> rename_i hcurrent
  · exact ⟨rfl, rfl, (if_pos hcurrent).symm⟩
  · exact ⟨rfl, rfl, (if_neg hcurrent).symm⟩

theorem freeStack_ok {fuel : ℕ} {s s' : Scheduler} {proc : ℕ} (h : freeStack fuel s proc = .ok s') :
    s'.procTable = Function.update s.procTable proc { s.procTable proc with stack := 0#64 } ∧
      s'.procCount = s.procCount ∧ s'.currentProc = s.currentProc := by
  unfold freeStack at h
  by_cases hstack : (s.procTable proc).stack ≠ 0#64
  · rw [if_pos hstack] at h
    obtain ⟨heap, -, h⟩ := Loop.bind_eq_ok.mp h
    obtain rfl := Except.ok.inj h
    exact ⟨rfl, rfl, rfl⟩
  · rw [if_neg hstack, Except.ok.injEq] at h
    rw [← h, ← not_not.mp hstack]
    exact ⟨(Function.update_eq_self proc s.procTable).symm, rfl, rfl⟩

/-- What `proc_destroy` does to a slot that is not marked as the idle process. -/
theorem procDestroy_ok {fuel : ℕ} {s s' : Scheduler} {proc : ℕ}
    (hidle : (s.procTable proc).state ≠ .idle) (h : procDestroy fuel s (some proc) = .ok s') :
    s'.procTable = shiftDown (Function.update s.procTable proc (deadProc (s.procTable proc))) proc
        (s.procCount - 1) ∧
      s'.procCount = s.procCount - 1 ∧
      s'.currentProc = if s.currentProc = proc then 0 else s.currentProc := by
  simp only [procDestroy, hidle, if_false] at h
  obtain ⟨freed, hfree, h⟩ := Loop.bind_eq_ok.mp h
  obtain ⟨htable, hcount, hcurrent⟩ := freeStack_ok hfree
  obtain ⟨htable', hcount', hcurrent'⟩ := removeProc_spec freed proc
  rw [← Except.ok.inj h, htable', hcount', hcurrent', Scheduler.setProc, htable, hcount, hcurrent,
    Function.update_self, Function.update_idem]
  exact ⟨rfl, rfl, rfl⟩

end Osiris.Sched
