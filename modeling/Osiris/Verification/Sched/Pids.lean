import Osiris.Verification.Sched.Destroy

/-! # Process ids

`proc_create` takes the number of processes for the id of the next one, and `proc_destroy` lowers
that number. -/

namespace Osiris.Sched

open ByteMemory Page Heap Transition

def Scheduler.pid (s : Scheduler) (i : ℕ) : Word :=
  (s.procTable i).pid

/-- No two processes have the same id. -/
def DistinctPids (s : Scheduler) : Prop :=
  ∀ i < s.procCount, ∀ j < s.procCount, s.pid i = s.pid j → i = j

/-- No process has the id that the next one will get. -/
def FreshPid (s : Scheduler) : Prop :=
  ∀ i < s.procCount, s.pid i ≠ BitVec.ofNat 64 s.procCount

/-- A process that is destroyed has a slot other than that of the idle process. -/
def DestroysSlot (s : Scheduler) : Op → Prop
  | .procDestroy proc => 0 < proc ∧ proc < s.procCount
  | _ => True

/-- A process that is created gets an id that no other has. -/
def CreatesFresh (s : Scheduler) : Op → Prop
  | .procCreate _ => s.procCount < maxProc → FreshPid s
  | _ => True

section Steps

variable {fuel : ℕ} {s s' : Scheduler}

/-- A new state or stack pointer of a process is not a new id. -/
theorem update_pid {table : ℕ → Proc} {i : ℕ} {proc : Proc} (hpid : proc.pid = (table i).pid)
    (j : ℕ) : (Function.update table i proc j).pid = (table j).pid := by
  by_cases hj : j = i
  · rw [hj, Function.update_self]
    exact hpid
  · rw [Function.update_of_ne hj]

theorem switchTo_pid (s : Scheduler) (cpu : Cpu) (i j : ℕ) :
    (s.switchTo cpu i).2.pid j = s.pid j := by
  unfold Scheduler.pid Scheduler.switchTo
  dsimp only [Scheduler.setProc]
  rw [update_pid (by rfl), update_pid (by rfl), update_pid (by rfl)]

theorem schedule_pid {cpu : Cpu} (hstep : s.step fuel (.schedule cpu) = .ok s') :
    s'.procCount = s.procCount ∧ ∀ j, s'.pid j = s.pid j := by
  rcases step_schedule_cases hstep with rfl | ⟨i, -, -, -, rfl⟩
  · exact ⟨rfl, fun _ => rfl⟩
  · exact ⟨rfl, switchTo_pid s cpu i⟩

/-- The ids of what is left move with the slots. -/
theorem procDestroy_pid {proc : ℕ} (hproc : proc < s.procCount)
    (hidle : (s.procTable proc).state ≠ .idle)
    (hdestroy : procDestroy fuel s (some proc) = .ok s') :
    s'.procCount = s.procCount - 1 ∧
      ∀ j < s.procCount - 1, s'.pid j = s.pid (origin proc j) := by
  obtain ⟨htable, hcount, -⟩ := procDestroy_ok hidle hdestroy
  refine ⟨hcount, fun j hj => ?_⟩
  unfold Scheduler.pid
  rw [htable, shiftDown_origin _ hproc hj, Function.update_of_ne (origin_ne_self proc j)]

theorem DistinctPids.of_same (h : DistinctPids s) (hcount : s'.procCount = s.procCount)
    (hpid : ∀ j, s'.pid j = s.pid j) : DistinctPids s' := by
  intro i hi j hj heq
  rw [hcount] at hi hj
  rw [hpid, hpid] at heq
  exact h i hi j hj heq

theorem DistinctPids.procDestroy (h : DistinctPids s) {proc : ℕ} (hproc : proc < s.procCount)
    (hdestroy : Sched.procDestroy fuel s (some proc) = .ok s') : DistinctPids s' := by
  by_cases hidle : (s.procTable proc).state = .idle
  · simp only [Sched.procDestroy, hidle, if_true, Except.ok.injEq] at hdestroy
    rw [← hdestroy]
    exact h
  · obtain ⟨hcount, hpid⟩ := procDestroy_pid hproc hidle hdestroy
    intro i hi j hj heq
    rw [hcount] at hi hj
    rw [hpid i hi, hpid j hj] at heq
    exact origin_inj (h _ (origin_lt hi) _ (origin_lt hj) heq)

/-- A new process is distinct from the others exactly when its id is fresh. -/
theorem procCreate_distinct_iff (h : DistinctPids s) {entryPoint : Word}
    (hcreate : procCreate fuel s entryPoint = .ok s') :
    DistinctPids s' ↔ (s.procCount < maxProc → FreshPid s) := by
  cases procCreate_cases hcreate with
  | inl hfull =>
      rw [hfull.2]
      exact iff_of_true h fun hroom => absurd hroom (not_lt.mpr hfull.1)
  | inr hnew =>
      obtain ⟨hroom, stack, heap, -, htable, -, hcount⟩ := hnew
      have hlast : s'.pid s.procCount = BitVec.ofNat 64 s.procCount := by
        unfold Scheduler.pid
        rw [htable, Function.update_self]
        rfl
      have hold : ∀ i < s.procCount, s'.pid i = s.pid i := by
        intro i hi
        unfold Scheduler.pid
        rw [htable, Function.update_of_ne hi.ne]
      constructor
      · intro hdistinct _ i hi heq
        rw [← hold i hi, ← hlast] at heq
        exact hi.ne (hdistinct i (by omega) s.procCount (by omega) heq)
      · intro hfresh i hi j hj heq
        have hfresh := hfresh hroom
        rw [hcount] at hi hj
        rcases Nat.lt_succ_iff_lt_or_eq.mp hi with hi | rfl
        · rcases Nat.lt_succ_iff_lt_or_eq.mp hj with hj | rfl
          · rw [hold i hi, hold j hj] at heq
            exact h i hi j hj heq
          · rw [hold i hi, hlast] at heq
            exact absurd heq (hfresh i hi)
        · rcases Nat.lt_succ_iff_lt_or_eq.mp hj with hj | rfl
          · rw [hold j hj, hlast] at heq
            exact absurd heq.symm (hfresh j hj)
          · rfl

theorem step_distinct_iff {op : Op} (h : DistinctPids s) (hop : DestroysSlot s op)
    (hstep : s.step fuel op = .ok s') : DistinctPids s' ↔ CreatesFresh s op := by
  cases op with
  | procCreate entryPoint => exact procCreate_distinct_iff h hstep
  | schedule cpu =>
      obtain ⟨hcount, hpid⟩ := schedule_pid hstep
      exact iff_of_true (h.of_same hcount hpid) trivial
  | procDestroy proc => exact iff_of_true (h.procDestroy hop.2 hstep) trivial
  | execute mem =>
      obtain rfl : { s with mem } = s' := by simpa [Scheduler.step] using hstep
      exact iff_of_true h trivial

end Steps

/-- The steps of a run that return. -/
def Next (fuel : ℕ) (s : Scheduler) (op : Op) (s' : Scheduler) : Prop :=
  s.step fuel op = .ok s'

/-- What every step of a run keeps holds where the run ends. -/
theorem run_invariant {fuel : ℕ} {I : Scheduler → Prop} {P : Scheduler → Op → Prop}
    (hstep : ∀ s op s', I s → P s op → s.step fuel op = .ok s' → I s') {ops : List Op}
    {s s' : Scheduler} (hs : I s) (hops : Along (Next fuel) P s ops)
    (hrun : s.run fuel ops = .ok s') : I s' := by
  induction ops generalizing s with
  | nil =>
      obtain rfl : s' = s := by simpa [Scheduler.run, pure, Except.pure] using hrun.symm
      exact hs
  | cons op ops ih =>
      obtain ⟨s₁, hnext, hrest⟩ := run_cons hrun
      obtain ⟨hop, hrestOps⟩ := hops s₁ hnext
      exact ih (hstep s op s₁ hs hop hnext) hrestOps hrest

theorem procInit_distinctPids (h : KernelHeap) : DistinctPids (procInit h) := by
  intro i hi j hj _
  have hi' : i < 1 := hi
  have hj' : j < 1 := hj
  omega

/-- Ids are distinct throughout a run exactly when every process created gets a fresh one. -/
theorem pids_distinct_iff_fresh (fuel : ℕ) (h : KernelHeap) (ops : List Op)
    (hslots : Along (Next fuel) DestroysSlot (procInit h) ops) :
    Throughout (Next fuel) DistinctPids (procInit h) ops ↔
      Along (Next fuel) CreatesFresh (procInit h) ops :=
  throughout_iff_along (fun _ _ _ hs hop hnext => step_distinct_iff hs hop hnext)
    (procInit_distinctPids h) hslots

theorem pids_distinct_iff_fresh_oneBlockHeap :
    Along (Next 3) DestroysSlot (procInit oneBlockHeap) [.procCreate 0x4000#64] ∧
      Throughout (Next 3) DistinctPids (procInit oneBlockHeap) [.procCreate 0x4000#64] := by
  have hslots : Along (Next 3) DestroysSlot (procInit oneBlockHeap) [.procCreate 0x4000#64] :=
    fun _ _ => ⟨trivial, trivial⟩
  refine ⟨hslots, (pids_distinct_iff_fresh 3 oneBlockHeap _ hslots).mpr fun s' _ => ⟨?_, trivial⟩⟩
  intro _ i hi
  obtain rfl : i = 0 := Nat.lt_one_iff.mp hi
  decide

/-- After two processes have been created and the first of them destroyed, the next one gets the id
of the other. -/
theorem pids_not_distinct :
    ∃ s, (procInit oneBlockHeap).run 3
        [.procCreate 0x4000#64, .procCreate 0x5000#64, .procDestroy 1, .procCreate 0x6000#64] = .ok s ∧
      s.procCount = 3 ∧ s.pid 1 = s.pid 2 ∧ ¬ DistinctPids s := by
  obtain ⟨s, hrun, hvalues⟩ := Loop.exists_of_toOption
    (show ((procInit oneBlockHeap).run 3 [.procCreate 0x4000#64, .procCreate 0x5000#64,
        .procDestroy 1, .procCreate 0x6000#64]).toOption.map
      (fun s => (s.procCount, s.pid 1, s.pid 2)) = some (3, 2#64, 2#64) by decide +kernel)
  simp only [Prod.mk.injEq] at hvalues
  obtain ⟨hcount, hfirst, hsecond⟩ := hvalues
  refine ⟨s, hrun, hcount, hfirst.trans hsecond.symm, fun hdistinct => ?_⟩
  exact absurd (hdistinct 1 (by omega) 2 (by omega) (hfirst.trans hsecond.symm)) (by norm_num)

end Osiris.Sched
