import Osiris.Verification.Heap.Alloc
import Osiris.Verification.Sched.RoundRobin

/-! # Processes that cannot be created

`proc_create` leaves everything as it is when the table is full, but it does not look at what
`kmalloc` returns. -/

namespace Osiris.Sched

open ByteMemory Page Heap

/-- There is no slot for another process, or no memory for its stack. -/
def CannotCreate (fuel : ℕ) (s : Scheduler) : Prop :=
  maxProc ≤ s.procCount ∨ ∃ h, kmalloc fuel s.toKernelHeap stackSize = .ok (0#64, h)

/-- The processes, the counters, and all memory outside the table are what they were. -/
structure Untouched (s s' : Scheduler) : Prop where
  count : s'.procCount = s.procCount
  current : s'.currentProc = s.currentProc
  slots : ∀ i < s.procCount, s'.procTable i = s.procTable i
  heap : s'.toKernelHeap = s.toKernelHeap

section

variable {fuel : ℕ} {s s' : Scheduler} {entryPoint : Word}

/-- A stack takes a block of 4112 bytes. -/
theorem kmalloc_stack_eq_null_iff :
    (∃ h, kmalloc fuel s.toKernelHeap stackSize = .ok (0#64, h)) ↔
      lacksRoom s.mem 4112#64 fuel s.freeListHead :=
  kmalloc_eq_null_iff (by decide)

/-- Without room for its stack, the new process is ready to run on a stack at `NULL`. -/
theorem procCreate_without_room (hroom : s.procCount < maxProc)
    (hlacks : lacksRoom s.mem 4112#64 fuel s.freeListHead = true)
    (hcreate : procCreate fuel s entryPoint = .ok s') :
    s'.procCount = s.procCount + 1 ∧ s'.procTable s.procCount = newProc s.procCount 0#64 := by
  rcases procCreate_cases hcreate with ⟨hfull, -⟩ | ⟨-, stack, heap, hk, htable, -, hcount⟩
  · omega
  · obtain ⟨h, hnull⟩ := kmalloc_stack_eq_null_iff.mpr hlacks
    rw [hk, Except.ok.injEq, Prod.mk.injEq] at hnull
    rw [hnull.1] at htable
    exact ⟨hcount, by rw [htable, Function.update_self]⟩

end

/-- `proc_create` leaves the scheduler as it is whenever it cannot create a process exactly when
the table is full or the free list has room for a stack. Otherwise it adds a process without a
stack, which is ready. -/
theorem failed_create_untouched_iff (fuel : ℕ) (s s' : Scheduler) (entryPoint : Word)
    (hcreate : procCreate fuel s entryPoint = .ok s') :
    ((CannotCreate fuel s → Untouched s s') ↔
      maxProc ≤ s.procCount ∨ lacksRoom s.mem 4112#64 fuel s.freeListHead = false) ∧
    (¬ (maxProc ≤ s.procCount ∨ lacksRoom s.mem 4112#64 fuel s.freeListHead = false) →
      s.procCount < s'.procCount ∧ (s'.procTable s.procCount).state = .ready ∧
        (s'.procTable s.procCount).stack = 0#64) := by
  by_cases hfull : maxProc ≤ s.procCount
  · have hsame : s' = s := by
      rcases procCreate_cases hcreate with ⟨-, hsame⟩ | ⟨hroom, -⟩
      · exact hsame
      · omega
    refine ⟨iff_of_true (fun _ => ?_) (Or.inl hfull), fun hnot => absurd (Or.inl hfull) hnot⟩
    rw [hsame]
    exact ⟨rfl, rfl, fun _ _ => rfl, rfl⟩
  · cases hlacks : lacksRoom s.mem 4112#64 fuel s.freeListHead with
    | false =>
        refine ⟨iff_of_true ?_ (Or.inr rfl), fun hnot => absurd (Or.inr rfl) hnot⟩
        rintro (hfull' | hnull)
        · exact absurd hfull' hfull
        · rw [kmalloc_stack_eq_null_iff, hlacks] at hnull
          exact absurd hnull (by decide)
    | true =>
        obtain ⟨hcount, hslot⟩ := procCreate_without_room (not_le.mp hfull) hlacks hcreate
        constructor
        · refine iff_of_false (fun huntouched => ?_) (by simp [hfull])
          have hcannot : CannotCreate fuel s := Or.inr (kmalloc_stack_eq_null_iff.mpr hlacks)
          have hsame := (huntouched hcannot).count
          omega
        · intro _
          rw [hslot]
          exact ⟨by omega, rfl, rfl⟩

theorem failed_create_untouched_oneBlockHeap :
    ∃ s', procCreate 3 (procInit oneBlockHeap) 0x4000#64 = .ok s' ∧
      (CannotCreate 3 (procInit oneBlockHeap) → Untouched (procInit oneBlockHeap) s') := by
  obtain ⟨s', hcreate, -⟩ := Loop.exists_of_toOption
    (show (procCreate 3 (procInit oneBlockHeap) 0x4000#64).toOption.map
      (fun s => s.procCount) = some 2 by decide +kernel)
  exact ⟨s', hcreate, (failed_create_untouched_iff 3 _ s' _ hcreate).1.mpr
    (Or.inr (by decide +kernel))⟩

/-- The heap after all of it has been taken by one call of `kmalloc`. -/
def exhaustedHeap : KernelHeap :=
  { oneBlockHeap with freeListHead := 0#64 }

/-- With the heap exhausted, the process that could not be created is the next one to run. -/
theorem created_without_stack_runs :
    CannotCreate 3 (procInit exhaustedHeap) ∧
    ∃ s, procCreate 3 (procInit exhaustedHeap) 0x4000#64 = .ok s ∧
      ¬ Untouched (procInit exhaustedHeap) s ∧
      ∃ cpu s', schedule 3 kernelCpu s = .ok (cpu, s') ∧ s'.currentProc = 1 ∧
        (s'.procTable 1).stack = 0#64 := by
  refine ⟨Or.inr ⟨_, rfl⟩, ?_⟩
  obtain ⟨s, hcreate, hcount⟩ := Loop.exists_of_toOption
    (show (procCreate 3 (procInit exhaustedHeap) 0x4000#64).toOption.map
      (fun s => s.procCount) = some 2 by decide +kernel)
  obtain ⟨⟨cpu, s'⟩, hschedule, hvalues⟩ := Loop.exists_of_toOption
    (show (procCreate 3 (procInit exhaustedHeap) 0x4000#64 >>= schedule 3 kernelCpu).toOption.map
      (fun r => (r.2.currentProc, (r.2.procTable 1).stack)) = some (1, 0#64) by decide +kernel)
  rw [hcreate] at hschedule
  obtain ⟨hcurrent, hstack⟩ := Prod.mk.inj hvalues
  refine ⟨s, hcreate, fun huntouched => ?_, cpu, s', hschedule, hcurrent, hstack⟩
  have hsame : s.procCount = 1 := huntouched.count
  omega

end Osiris.Sched
