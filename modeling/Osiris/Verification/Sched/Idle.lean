import Osiris.Verification.Sched.Pids

/-! # The idle process

The idle process has slot 0. As long as it is not destroyed, `schedule` finds a process in every
state, also when `current_proc` points to a slot that is no longer in use. -/

namespace Osiris.Sched

open ByteMemory Page Heap Transition

/-! ## The search of `schedule` -/

/-- The search for the next process, with the indices at which it reads the table. -/
def searchReadyTr (s : Scheduler) (currentProcIndex : Option ℕ) :
    ℕ → ℕ → Except Fault ℕ × List ℕ
  | 0, _ => (.error .endless, [])
  | fuel + 1, next =>
      if (s.procTable next).state ≠ .ready ∧ some next ≠ currentProcIndex then
        let (found, indices) := searchReadyTr s currentProcIndex fuel ((next + 1) % s.procCount)
        (found, next :: indices)
      else (.ok next, [next])

section Search

variable {s : Scheduler} {current : Option ℕ} {fuel : ℕ}

theorem searchReadyTr_fst (s : Scheduler) (current : Option ℕ) (fuel next : ℕ) :
    (searchReadyTr s current fuel next).1 = searchReady s current fuel next := by
  induction fuel generalizing next with
  | zero => rfl
  | succ fuel ih =>
      unfold searchReadyTr searchReady
      split
      · exact ih _
      · rfl

theorem searchReadyTr_lt {next : ℕ} (hnext : next < s.procCount) :
    ∀ i ∈ (searchReadyTr s current fuel next).2, i < s.procCount := by
  induction fuel generalizing next with
  | zero => simp [searchReadyTr]
  | succ fuel ih =>
      unfold searchReadyTr
      split
      · intro i hi
        rcases List.mem_cons.mp hi with rfl | hi
        · exact hnext
        · exact ih (Nat.mod_lt _ (by omega)) i hi
      · intro i hi
        rw [List.mem_singleton.mp hi]
        exact hnext

/-- The search ends at the latest at a slot that is ready or current. -/
theorem searchReady_ok (target k : ℕ)
    (hstop : (s.procTable target).state = .ready ∨ some target = current) {next : ℕ}
    (hnext : next < s.procCount) (htarget : (next + k) % s.procCount = target) (hfuel : k < fuel) :
    ∃ i, searchReady s current fuel next = .ok i := by
  induction k generalizing next fuel with
  | zero =>
      obtain ⟨fuel, rfl⟩ := Nat.exists_eq_succ_of_ne_zero (by omega : fuel ≠ 0)
      rw [add_zero, Nat.mod_eq_of_lt hnext] at htarget
      subst htarget
      refine ⟨next, ?_⟩
      unfold searchReady
      rw [if_neg]
      rintro ⟨hbusy, hother⟩
      exact hstop.elim hbusy hother
  | succ k ih =>
      obtain ⟨fuel, rfl⟩ := Nat.exists_eq_succ_of_ne_zero (by omega : fuel ≠ 0)
      unfold searchReady
      split
      · refine ih (Nat.mod_lt _ (by omega)) ?_ (by omega)
        rw [Nat.mod_add_mod, add_assoc, add_comm 1 k]
        exact htarget
      · exact ⟨next, rfl⟩

end Search

/-! ## Runs that spare the idle process -/

/-- The idle process is ready unless it is current, and the counters are in range. -/
structure IdleReady (s : Scheduler) : Prop where
  count_pos : 1 ≤ s.procCount
  count_le : s.procCount ≤ maxProc
  current_lt : s.currentProc < maxProc
  ready : s.currentProc ≠ 0 → (s.procTable 0).state = .ready

section Steps

variable {fuel : ℕ} {s s' : Scheduler}

/-- `schedule` returns: it comes round to the current process, or finds the idle process at once
when the current one has no slot. -/
theorem IdleReady.schedule_ok (h : IdleReady s) (hfuel : s.procCount ≤ fuel) (cpu : Cpu) :
    ∃ result, schedule fuel cpu s = .ok result := by
  have hpos := h.count_pos
  have hfound : ∃ i, searchReady s s.currentProcIndex fuel s.firstIndex = .ok i := by
    unfold Scheduler.firstIndex
    by_cases hlt : s.currentProc < s.procCount
    · rw [currentProcIndex_of_lt hlt]
      refine searchReady_ok s.currentProc (s.procCount - 1) (Or.inr rfl) (Nat.mod_lt _ hpos) ?_
        (by omega)
      rw [Nat.mod_add_mod, show s.currentProc + 1 + (s.procCount - 1) =
        s.currentProc + s.procCount by omega, Nat.add_mod_right, Nat.mod_eq_of_lt hlt]
    · rw [currentProcIndex_of_le (not_lt.mp hlt)]
      refine searchReady_ok 0 0 (Or.inl (h.ready (by omega))) (Nat.mod_lt _ hpos) ?_ (by omega)
      simp
  obtain ⟨i, hi⟩ := hfound
  unfold schedule
  rw [if_neg (by omega)]
  dsimp only
  change ∃ result, (searchReady s s.currentProcIndex fuel s.firstIndex >>= _) = .ok result
  rw [hi]
  by_cases hcurrent : some i = s.currentProcIndex
  · exact ⟨(cpu, s), by simp [bind, Except.bind, hcurrent]⟩
  · by_cases hready : (s.procTable i).state = .ready
    · exact ⟨s.switchTo cpu i, by simp [bind, Except.bind, hcurrent, hready]⟩
    · exact ⟨(cpu, s), by simp [bind, Except.bind, hcurrent, hready]⟩

theorem procInit_idleReady (h : KernelHeap) : IdleReady (procInit h) :=
  ⟨le_rfl, (by decide : 1 ≤ maxProc), (by decide : 0 < maxProc), fun hne => absurd rfl hne⟩

theorem IdleReady.procCreate (h : IdleReady s) {entryPoint : Word}
    (hcreate : Sched.procCreate fuel s entryPoint = .ok s') : IdleReady s' := by
  cases procCreate_cases hcreate with
  | inl hfull =>
      rw [hfull.2]
      exact h
  | inr hnew =>
      obtain ⟨hroom, stack, heap, -, htable, hcurrent, hcount⟩ := hnew
      have hpos := h.count_pos
      refine ⟨by omega, by omega, hcurrent ▸ h.current_lt, fun hne => ?_⟩
      rw [htable, Function.update_of_ne (by omega)]
      exact h.ready (hcurrent ▸ hne)

theorem IdleReady.switchTo (h : IdleReady s) (cpu : Cpu) {i : ℕ} (hi : i < s.procCount)
    (hne : i ≠ s.currentProc) : IdleReady (s.switchTo cpu i).2 := by
  refine ⟨h.count_pos, h.count_le, hi.trans_le h.count_le, fun hother => ?_⟩
  rw [switchTo_currentProc] at hother
  rw [switchTo_procTable hne]
  by_cases hidle : s.currentProc = 0
  · rw [← hidle, Function.update_self]
  · rw [Function.update_of_ne (Ne.symm hidle), Function.update_of_ne (Ne.symm hother)]
    exact h.ready hidle

/-- The slot of the idle process stays where it is when another one is destroyed. -/
theorem procDestroy_slot_zero {proc : ℕ} (hpos : 0 < proc) (hproc : proc < s.procCount)
    (hidle : (s.procTable proc).state ≠ .idle)
    (hdestroy : procDestroy fuel s (some proc) = .ok s') :
    s'.procTable 0 = s.procTable 0 ∧ s'.procCount = s.procCount - 1 ∧
      s'.currentProc = if s.currentProc = proc then 0 else s.currentProc := by
  obtain ⟨htable, hcount, hcurrent⟩ := procDestroy_ok hidle hdestroy
  refine ⟨?_, hcount, hcurrent⟩
  rw [htable, shiftDown_origin _ hproc (by omega), origin_of_lt hpos,
    Function.update_of_ne hpos.ne]

theorem procDestroy_of_idle {proc : ℕ} (hidle : (s.procTable proc).state = .idle)
    (hdestroy : procDestroy fuel s (some proc) = .ok s') : s' = s := by
  simp only [procDestroy, hidle, if_true, Except.ok.injEq] at hdestroy
  exact hdestroy.symm

theorem IdleReady.procDestroy (h : IdleReady s) {proc : ℕ} (hpos : 0 < proc)
    (hproc : proc < s.procCount) (hdestroy : Sched.procDestroy fuel s (some proc) = .ok s') :
    IdleReady s' := by
  by_cases hidle : (s.procTable proc).state = .idle
  · rw [procDestroy_of_idle hidle hdestroy]
    exact h
  · obtain ⟨hzero, hcount, hcurrent⟩ := procDestroy_slot_zero hpos hproc hidle hdestroy
    have hle := h.count_le
    refine ⟨by omega, by omega, ?_, fun hne => ?_⟩
    · rw [hcurrent]
      split
      · exact (Nat.zero_le _).trans_lt h.current_lt
      · exact h.current_lt
    · rw [hzero]
      refine h.ready fun hfirst => hne ?_
      rw [hcurrent, hfirst]
      exact ite_self 0

theorem IdleReady.step (h : IdleReady s) {op : Op} (hop : DestroysSlot s op)
    (hstep : s.step fuel op = .ok s') : IdleReady s' := by
  cases op with
  | procCreate entryPoint => exact h.procCreate hstep
  | schedule cpu =>
      rcases step_schedule_cases hstep with rfl | ⟨i, hi, hne, -, rfl⟩
      · exact h
      · exact h.switchTo cpu hi hne
  | procDestroy proc => exact h.procDestroy hop.1 hop.2 hstep
  | execute mem =>
      obtain rfl : { s with mem } = s' := by simpa [Scheduler.step] using hstep
      exact ⟨h.count_pos, h.count_le, h.current_lt, h.ready⟩

end Steps

/-- In every state that a run reaches which spares slot 0, `schedule` returns after at most
`proc_count` rounds of its search, and reads the table below `proc_count` only. -/
theorem schedule_returns (fuel : ℕ) (h : KernelHeap) (ops : List Op)
    (hslots : Along (Next fuel) DestroysSlot (procInit h) ops) (s : Scheduler)
    (hrun : (procInit h).run fuel ops = .ok s) :
    1 ≤ s.procCount ∧ s.procCount ≤ maxProc ∧ s.currentProc < maxProc ∧
      (∀ n, s.procCount ≤ n → ∀ cpu, ∃ result, schedule n cpu s = .ok result) ∧
      ∀ n, (searchReadyTr s s.currentProcIndex n s.firstIndex).1 =
          searchReady s s.currentProcIndex n s.firstIndex ∧
        ∀ i ∈ (searchReadyTr s s.currentProcIndex n s.firstIndex).2, i < s.procCount := by
  have hinv := run_invariant (fun _ _ _ hs hop hnext => hs.step hop hnext)
    (procInit_idleReady h) hslots hrun
  exact ⟨hinv.count_pos, hinv.count_le, hinv.current_lt, fun n hn cpu => hinv.schedule_ok hn cpu,
    fun n => ⟨searchReadyTr_fst s _ n _, searchReadyTr_lt (firstIndex_lt hinv.count_pos)⟩⟩

/-- With the process below it destroyed, the current process is in the slot after the last. -/
theorem schedule_returns_oneBlockHeap :
    ∃ s, (procInit oneBlockHeap).run 3
        [.procCreate 0x4000#64, .procCreate 0x5000#64, .schedule kernelCpu, .schedule kernelCpu,
          .procDestroy 1] = .ok s ∧
      s.currentProc = 2 ∧ s.procCount = 2 ∧ ∃ result, schedule 2 kernelCpu s = .ok result := by
  obtain ⟨s₄, hrun₄, hcount₄⟩ := Loop.exists_of_toOption
    (show ((procInit oneBlockHeap).run 3 [.procCreate 0x4000#64, .procCreate 0x5000#64,
        .schedule kernelCpu, .schedule kernelCpu]).toOption.map (fun s => s.procCount) = some 3 by
      decide +kernel)
  obtain ⟨s, hrun, hvalues⟩ := Loop.exists_of_toOption
    (show ((procInit oneBlockHeap).run 3 [.procCreate 0x4000#64, .procCreate 0x5000#64,
        .schedule kernelCpu, .schedule kernelCpu, .procDestroy 1]).toOption.map
      (fun s => (s.currentProc, s.procCount)) = some (2, 2) by decide +kernel)
  obtain ⟨hcurrent, hcount⟩ := Prod.mk.inj hvalues
  have hslots : Along (Next 3) DestroysSlot (procInit oneBlockHeap)
      [.procCreate 0x4000#64, .procCreate 0x5000#64, .schedule kernelCpu, .schedule kernelCpu,
        .procDestroy 1] := by
    refine fun s₁ h₁ => ⟨trivial, fun s₂ h₂ => ⟨trivial, fun s₃ h₃ => ⟨trivial, fun s' h' =>
      ⟨trivial, fun _ _ => ⟨⟨Nat.one_pos, ?_⟩, trivial⟩⟩⟩⟩⟩
    rw [run_cons_of_step _ h₁, run_cons_of_step _ h₂, run_cons_of_step _ h₃,
      run_cons_of_step _ h'] at hrun₄
    obtain rfl : s' = s₄ := Except.ok.inj hrun₄
    omega
  obtain ⟨-, -, -, hreturns, -⟩ := schedule_returns 3 oneBlockHeap _ hslots s hrun
  exact ⟨s, hrun, hcurrent, hcount, hreturns 2 hcount.le kernelCpu⟩

/-! ## Destroying the idle process -/

/-- The idle process has slot 0, with its id and without a stack of its own. -/
def IdleInPlace (s : Scheduler) : Prop :=
  1 ≤ s.procCount ∧ s.pid 0 = 0#64 ∧ (s.procTable 0).stack = 0#64

/-- What `proc_destroy` is given is in use. -/
def DestroysListed (s : Scheduler) : Op → Prop
  | .procDestroy proc => proc < s.procCount
  | _ => True

/-- `proc_destroy` is not given slot 0. -/
def SparesIdle (_ : Scheduler) : Op → Prop
  | .procDestroy proc => proc ≠ 0
  | _ => True

/-- No slot is ever marked as that of the idle process, and no other process has its id. -/
structure Unmarked (s : Scheduler) : Prop where
  not_idle : ∀ i, (s.procTable i).state ≠ .idle
  pid_ne : ∀ i, 0 < i → i < s.procCount → s.pid i ≠ 0#64

section Marks

variable {fuel : ℕ} {s s' : Scheduler}

theorem procInit_unmarked (h : KernelHeap) : Unmarked (procInit h) := by
  constructor
  · intro i
    change (Function.update (fun _ => clearedProc) 0 _ i).state ≠ .idle
    by_cases hi : i = 0
    · simp [hi]
    · simp [hi, clearedProc]
  · intro i hpos hi
    have hlt : i < 1 := hi
    omega

theorem Unmarked.procCreate (h : Unmarked s) {entryPoint : Word}
    (hcreate : Sched.procCreate fuel s entryPoint = .ok s') : Unmarked s' := by
  cases procCreate_cases hcreate with
  | inl hfull =>
      rw [hfull.2]
      exact h
  | inr hnew =>
      obtain ⟨hroom, stack, heap, -, htable, -, hcount⟩ := hnew
      constructor
      · intro i
        rw [htable]
        by_cases hi : i = s.procCount
        · rw [hi, Function.update_self]
          simp [newProc]
        · rw [Function.update_of_ne hi]
          exact h.not_idle i
      · intro i hpos hi
        unfold Scheduler.pid
        rw [htable]
        by_cases hlast : i = s.procCount
        · rw [hlast, Function.update_self]
          intro hzero
          have hnat := congrArg BitVec.toNat hzero
          simp only [newProc, BitVec.toNat_ofNat] at hnat
          unfold maxProc at hroom
          omega
        · rw [Function.update_of_ne hlast]
          exact h.pid_ne i hpos (by omega)

theorem Unmarked.switchTo (h : Unmarked s) (cpu : Cpu) {i : ℕ} (hne : i ≠ s.currentProc) :
    Unmarked (s.switchTo cpu i).2 := by
  constructor
  · intro j
    rw [switchTo_procTable hne]
    by_cases hj : j = s.currentProc
    · rw [hj, Function.update_self]
      simp
    · rw [Function.update_of_ne hj]
      by_cases hji : j = i
      · rw [hji, Function.update_self]
        simp
      · rw [Function.update_of_ne hji]
        exact h.not_idle j
  · intro j hpos hj
    rw [switchTo_pid]
    exact h.pid_ne j hpos hj

theorem Unmarked.procDestroy (h : Unmarked s) {proc : ℕ} (hproc : proc < s.procCount)
    (hdestroy : Sched.procDestroy fuel s (some proc) = .ok s') : Unmarked s' := by
  obtain ⟨htable, hcount, -⟩ := procDestroy_ok (h.not_idle proc) hdestroy
  obtain ⟨-, hpid⟩ := procDestroy_pid hproc (h.not_idle proc) hdestroy
  constructor
  · have hmarked : ∀ i, (Function.update s.procTable proc (deadProc (s.procTable proc)) i).state ≠
        .idle := by
      intro i
      by_cases hi : i = proc
      · rw [hi, Function.update_self]
        simp [deadProc]
      · rw [Function.update_of_ne hi]
        exact h.not_idle i
    intro i
    rw [htable, shiftDown_apply _ (by omega)]
    split
    · exact hmarked (i + 1)
    · exact hmarked i
  · intro i hpos hi
    rw [hcount] at hi
    rw [hpid i hi]
    refine h.pid_ne _ ?_ (origin_lt hi)
    unfold origin
    split <;> omega

theorem Unmarked.step (h : Unmarked s) {op : Op} (hop : DestroysListed s op)
    (hstep : s.step fuel op = .ok s') : Unmarked s' := by
  cases op with
  | procCreate entryPoint => exact h.procCreate hstep
  | schedule cpu =>
      rcases step_schedule_cases hstep with rfl | ⟨i, -, hne, -, rfl⟩
      · exact h
      · exact h.switchTo cpu hne
  | procDestroy proc => exact h.procDestroy hop hstep
  | execute mem =>
      obtain rfl : { s with mem } = s' := by simpa [Scheduler.step] using hstep
      exact ⟨h.not_idle, h.pid_ne⟩

/-- Of all steps, only the destruction of slot 0 displaces the idle process. -/
theorem step_idleInPlace_iff {op : Op} (h : Unmarked s) (hidle : IdleInPlace s)
    (hop : DestroysListed s op) (hstep : s.step fuel op = .ok s') :
    IdleInPlace s' ↔ SparesIdle s op := by
  obtain ⟨hpos, hpid, hstack⟩ := hidle
  cases op with
  | procCreate entryPoint =>
      refine iff_of_true ?_ trivial
      cases procCreate_cases hstep with
      | inl hfull =>
          rw [hfull.2]
          exact ⟨hpos, hpid, hstack⟩
      | inr hnew =>
          obtain ⟨-, stack, heap, -, htable, -, hcount⟩ := hnew
          have hzero : s'.procTable 0 = s.procTable 0 := by
            rw [htable, Function.update_of_ne (by omega)]
          unfold IdleInPlace Scheduler.pid
          rw [hzero]
          exact ⟨by omega, hpid, hstack⟩
  | schedule cpu =>
      refine iff_of_true ?_ trivial
      rcases step_schedule_cases hstep with rfl | ⟨i, -, hne, -, rfl⟩
      · exact ⟨hpos, hpid, hstack⟩
      · obtain ⟨hpid', hstack'⟩ := switchTo_sameProcess s cpu hne 0
        exact ⟨hpos, hpid'.trans hpid, hstack'.trans hstack⟩
  | procDestroy proc =>
      have hproc : proc < s.procCount := hop
      by_cases hzero : proc = 0
      · -- slot 0 is empty now, or holds a process with another id
        subst hzero
        obtain ⟨hcount, hpids⟩ := procDestroy_pid hproc (h.not_idle 0) hstep
        refine iff_of_false ?_ (fun hspares => hspares rfl)
        rintro ⟨hpos', hpid', -⟩
        rw [hpids 0 (by omega)] at hpid'
        exact h.pid_ne 1 Nat.one_pos (by omega) hpid'
      · refine iff_of_true ?_ hzero
        obtain ⟨hslot, hcount, -⟩ :=
          procDestroy_slot_zero (Nat.pos_of_ne_zero hzero) hproc (h.not_idle proc) hstep
        unfold IdleInPlace Scheduler.pid
        rw [hslot]
        exact ⟨by omega, hpid, hstack⟩
  | execute mem =>
      obtain rfl : { s with mem } = s' := by simpa [Scheduler.step] using hstep
      exact iff_of_true ⟨hpos, hpid, hstack⟩ trivial

/-- The guard of `proc_destroy` does not hold for the idle process, which has no stack to free. -/
theorem procDestroy_idle (h : Unmarked s) (hidle : IdleInPlace s) (fuel : ℕ) :
    ∃ s', procDestroy fuel s (some 0) = .ok s' ∧ s'.procCount + 1 = s.procCount ∧
      ¬ IdleInPlace s' := by
  have hstack : ¬ (s.procTable 0).stack ≠ 0#64 := not_not.mpr hidle.2.2
  have hdestroy : procDestroy fuel s (some 0) = .ok (s.removeProc 0) := by
    simp only [procDestroy, h.not_idle 0, if_false, freeStack, if_neg hstack]
    rfl
  have hstep : s.step fuel (.procDestroy 0) = .ok (s.removeProc 0) := hdestroy
  have hcount := (removeProc_spec s 0).2.1
  have hpos := hidle.1
  have hlisted : DestroysListed s (.procDestroy 0) := hpos
  refine ⟨_, hdestroy, by omega, fun hkept => ?_⟩
  exact (step_idleInPlace_iff h hidle hlisted hstep).mp hkept rfl

end Marks

/-- In no state of a run does `proc_destroy` leave the idle process alone. Slot 0 holds the idle
process throughout exactly those runs in which it is not destroyed. -/
theorem idle_never_protected (fuel : ℕ) (h : KernelHeap) (ops : List Op)
    (hslots : Along (Next fuel) DestroysListed (procInit h) ops) :
    (∀ s, (procInit h).run fuel ops = .ok s → IdleInPlace s → ∀ n,
      ∃ s', procDestroy n s (some 0) = .ok s' ∧ s'.procCount + 1 = s.procCount ∧
        ¬ IdleInPlace s') ∧
    (Throughout (Next fuel) IdleInPlace (procInit h) ops ↔
      Along (Next fuel) SparesIdle (procInit h) ops) := by
  have hkeep : ∀ s op s', Unmarked s → DestroysListed s op → Next fuel s op s' → Unmarked s' :=
    fun _ _ _ hs hop hnext => hs.step hop hnext
  constructor
  · intro s hrun hidle n
    exact procDestroy_idle (run_invariant hkeep (procInit_unmarked h) hslots hrun) hidle n
  · refine throughout_iff_along (fun s op s' hidle hvalid hnext => ?_) ⟨le_rfl, rfl, rfl⟩
      (hslots.and_invariant hkeep (procInit_unmarked h))
    exact step_idleInPlace_iff hvalid.2 hidle hvalid.1 hnext

theorem idle_never_protected_oneBlockHeap :
    Throughout (Next 3) IdleInPlace (procInit oneBlockHeap) [.procCreate 0x4000#64] ∧
      ∃ s s', (procInit oneBlockHeap).run 3 [.procCreate 0x4000#64] = .ok s ∧
        procDestroy 3 s (some 0) = .ok s' ∧ s'.procCount = 1 := by
  have hslots : Along (Next 3) DestroysListed (procInit oneBlockHeap) [.procCreate 0x4000#64] :=
    fun _ _ => ⟨trivial, trivial⟩
  obtain ⟨hdestroy, hthroughout⟩ := idle_never_protected 3 oneBlockHeap _ hslots
  have hkept := hthroughout.mpr fun _ _ => ⟨trivial, trivial⟩
  obtain ⟨s, hrun, hcount⟩ := Loop.exists_of_toOption
    (show ((procInit oneBlockHeap).run 3 [.procCreate 0x4000#64]).toOption.map
      (fun s => s.procCount) = some 2 by decide +kernel)
  obtain ⟨s₁, hstep, hrest⟩ := run_cons hrun
  obtain rfl : s₁ = s := Except.ok.inj hrest
  obtain ⟨s', hok, hcount', -⟩ := hdestroy s₁ hrun (hkept.2 s₁ hstep) 3
  exact ⟨hkept, s₁, s', hrun, hok, by omega⟩

/-- Right after `proc_init`, destroying slot 0 leaves no process at all. -/
theorem idle_destroyed :
    ∃ s', procDestroy 3 (procInit oneBlockHeap) (some 0) = .ok s' ∧ s'.procCount = 0 ∧
      (s'.procTable 0).state = .dead := by
  refine (Loop.exists_of_toOption (f := fun s : Scheduler =>
    (s.procCount, (s.procTable 0).state)) (c := (0, .dead)) ?_).imp fun s hs => ⟨hs.1, ?_⟩
  · decide +kernel
  · exact Prod.mk.inj hs.2

end Osiris.Sched
