import Osiris.Verification.Heap.Init
import Osiris.Verification.Sched.Table

/-! # Round-robin scheduling

As long as no process is destroyed, the processes take turns in the order of their slots. -/

namespace Osiris.Sched

open ByteMemory Page Heap

/-! ## Runs -/

/-- A call, or what processes do to memory between two calls. -/
inductive Op where
  | procCreate (entryPoint : Word)
  | schedule (cpu : Cpu)
  | procDestroy (proc : ℕ)
  | execute (mem : Mem)

def Scheduler.step (fuel : ℕ) (s : Scheduler) : Op → Except Fault Scheduler
  | .procCreate entryPoint => procCreate fuel s entryPoint
  | .schedule cpu => (schedule fuel cpu s).map Prod.snd
  | .procDestroy proc => procDestroy fuel s (some proc)
  | .execute mem => .ok { s with mem }

def Scheduler.run (fuel : ℕ) (s : Scheduler) (ops : List Op) : Except Fault Scheduler :=
  ops.foldlM (Scheduler.step fuel) s

def Op.IsSchedule : Op → Bool
  | .schedule _ => true
  | _ => false

def Op.IsDestroy : Op → Bool
  | .procDestroy _ => true
  | _ => false

theorem run_cons {fuel : ℕ} {s s' : Scheduler} {op : Op} {ops : List Op}
    (h : s.run fuel (op :: ops) = .ok s') :
    ∃ s₁, s.step fuel op = .ok s₁ ∧ s₁.run fuel ops = .ok s' := by
  unfold Scheduler.run at h
  rw [List.foldlM_cons] at h
  exact Loop.bind_eq_ok.mp h

theorem run_cons_of_step {fuel : ℕ} {s s₁ : Scheduler} {op : Op} (ops : List Op)
    (h : s.step fuel op = .ok s₁) : s.run fuel (op :: ops) = s₁.run fuel ops := by
  unfold Scheduler.run
  rw [List.foldlM_cons, h]
  rfl

/-! ## One call -/

section Steps

variable {fuel : ℕ} {s s' : Scheduler}

theorem step_schedule_cases {cpu : Cpu} (hstep : s.step fuel (.schedule cpu) = .ok s') :
    s' = s ∨ ∃ i < s.procCount, i ≠ s.currentProc ∧ (s.procTable i).state = .ready ∧
      s' = (s.switchTo cpu i).2 := by
  change (schedule fuel cpu s).map Prod.snd = .ok s' at hstep
  cases hsched : schedule fuel cpu s with
  | error fault =>
      rw [hsched] at hstep
      simp [Except.map] at hstep
  | ok result =>
      rw [hsched] at hstep
      obtain rfl : result.2 = s' := by simpa [Except.map] using hstep
      rcases schedule_ok_cases hsched with rfl | ⟨i, hi, hne, hready, rfl⟩
      · exact Or.inl rfl
      · exact Or.inr ⟨i, hi, hne, hready, rfl⟩

/-- A slot keeps its process. -/
def SameProcess (s s' : Scheduler) (i : ℕ) : Prop :=
  (s'.procTable i).pid = (s.procTable i).pid ∧ (s'.procTable i).stack = (s.procTable i).stack

theorem switchTo_sameProcess (s : Scheduler) (cpu : Cpu) {i : ℕ} (hne : i ≠ s.currentProc) (j : ℕ) :
    SameProcess s (s.switchTo cpu i).2 j := by
  unfold SameProcess
  rw [switchTo_procTable hne]
  by_cases hj : j = s.currentProc
  · rw [hj, Function.update_self]
    exact ⟨rfl, rfl⟩
  · rw [Function.update_of_ne hj]
    by_cases hji : j = i
    · rw [hji, Function.update_self]
      exact ⟨rfl, rfl⟩
    · rw [Function.update_of_ne hji]
      exact ⟨rfl, rfl⟩

/-- `schedule` returns, with the next process current. -/
theorem Alternating.step_schedule (h : Alternating s) (hfuel : 0 < fuel) (cpu : Cpu) :
    ∃ s', s.step fuel (.schedule cpu) = .ok s' ∧ Alternating s' ∧
      s'.currentProc = s.nextProc ∧ s'.procCount = s.procCount ∧ ∀ i, SameProcess s s' i := by
  have heq : s.step fuel (.schedule cpu) = (schedule fuel cpu s).map Prod.snd := rfl
  rw [schedule_eq h hfuel] at heq
  by_cases hne : s.nextProc = s.currentProc
  · rw [if_pos hne] at heq
    exact ⟨s, heq, h, hne.symm, rfl, fun i => ⟨rfl, rfl⟩⟩
  · rw [if_neg hne] at heq
    exact ⟨(s.switchTo cpu s.nextProc).2, heq, h.switchTo cpu h.nextProc_lt hne, rfl, rfl,
      switchTo_sameProcess s cpu hne⟩

/-- The other calls leave the turn to the current process. -/
theorem Alternating.step_other (h : Alternating s) {op : Op} (hdestroy : op.IsDestroy = false)
    (hschedule : op.IsSchedule = false) (hstep : s.step fuel op = .ok s') :
    Alternating s' ∧ s'.currentProc = s.currentProc ∧ s.procCount ≤ s'.procCount ∧
      ∀ i < s.procCount, SameProcess s s' i := by
  cases op with
  | schedule cpu => simp [Op.IsSchedule] at hschedule
  | procDestroy proc => simp [Op.IsDestroy] at hdestroy
  | execute mem =>
      have heq : s' = { s with mem } := by simpa [Scheduler.step] using hstep.symm
      rw [heq]
      exact ⟨⟨h.current_lt, h.running, h.ready⟩, rfl, le_rfl, fun i _ => ⟨rfl, rfl⟩⟩
  | procCreate entryPoint =>
      refine ⟨h.procCreate hstep, ?_⟩
      cases procCreate_cases hstep with
      | inl hfull =>
          rw [hfull.2]
          exact ⟨rfl, le_rfl, fun i _ => ⟨rfl, rfl⟩⟩
      | inr hnew =>
          obtain ⟨-, stack, heap, -, htable, hcurrent, hcount⟩ := hnew
          refine ⟨hcurrent, by omega, fun i hi => ?_⟩
          unfold SameProcess
          rw [htable, Function.update_of_ne (by omega)]
          exact ⟨rfl, rfl⟩

theorem Alternating.step (h : Alternating s) (hfuel : 0 < fuel) {op : Op}
    (hdestroy : op.IsDestroy = false) (hstep : s.step fuel op = .ok s') :
    Alternating s' ∧ s.procCount ≤ s'.procCount ∧ ∀ i < s.procCount, SameProcess s s' i := by
  cases hschedule : op.IsSchedule with
  | false =>
      obtain ⟨hinv, -, hcount, hsame⟩ := h.step_other hdestroy hschedule hstep
      exact ⟨hinv, hcount, hsame⟩
  | true =>
      cases op with
      | schedule cpu =>
          obtain ⟨s₁, hok, hinv, -, hcount, hsame⟩ := h.step_schedule hfuel cpu
          rw [hok, Except.ok.injEq] at hstep
          rw [← hstep]
          exact ⟨hinv, hcount.ge, fun i _ => hsame i⟩
      | _ => simp [Op.IsSchedule] at hschedule

end Steps

/-! ## Whole runs -/

section Runs

variable {fuel : ℕ} {s s' : Scheduler}

theorem procInit_alternating (h : KernelHeap) : Alternating (procInit h) := by
  refine ⟨Nat.one_pos, rfl, fun i hi hne => ?_⟩
  have hlt : i < 1 := hi
  have hne' : i ≠ 0 := hne
  omega

theorem Alternating.run (h : Alternating s) (hfuel : 0 < fuel) {ops : List Op}
    (hops : ∀ op ∈ ops, op.IsDestroy = false) (hrun : s.run fuel ops = .ok s') :
    Alternating s' ∧ s.procCount ≤ s'.procCount ∧ ∀ i < s.procCount, SameProcess s s' i := by
  induction ops generalizing s with
  | nil =>
      have heq : s' = s := by simpa [Scheduler.run, pure, Except.pure] using hrun.symm
      rw [heq]
      exact ⟨h, le_rfl, fun i _ => ⟨rfl, rfl⟩⟩
  | cons op ops ih =>
      obtain ⟨s₁, hstep, hrest⟩ := run_cons hrun
      obtain ⟨hinv, hcount, hsame⟩ := h.step hfuel (hops op List.mem_cons_self) hstep
      obtain ⟨hinv', hcount', hsame'⟩ :=
        ih hinv (fun op hop => hops op (List.mem_cons_of_mem _ hop)) hrest
      refine ⟨hinv', hcount.trans hcount', fun i hi => ?_⟩
      have h₁ := hsame i hi
      have h₂ := hsame' i (lt_of_lt_of_le hi hcount)
      exact ⟨h₂.1.trans h₁.1, h₂.2.trans h₁.2⟩

/-- `k` calls of `schedule`, made in the processor states `cpus`. -/
def schedules (cpus : ℕ → Cpu) (k : ℕ) : List Op :=
  (List.range k).map fun j => .schedule (cpus j)

theorem Alternating.run_schedules (h : Alternating s) (hfuel : 0 < fuel) (cpus : ℕ → Cpu) (k : ℕ) :
    ∃ s', s.run fuel (schedules cpus k) = .ok s' ∧ Alternating s' ∧ s'.procCount = s.procCount ∧
      s'.currentProc = (s.currentProc + k) % s.procCount := by
  induction k with
  | zero => exact ⟨s, rfl, h, rfl, (Nat.mod_eq_of_lt h.current_lt).symm⟩
  | succ k ih =>
      obtain ⟨s₁, hrun, hinv, hcount, hcurrent⟩ := ih
      obtain ⟨s₂, hstep, hinv', hnext, hcount', -⟩ := hinv.step_schedule hfuel (cpus k)
      refine ⟨s₂, ?_, hinv', hcount'.trans hcount, ?_⟩
      · unfold Scheduler.run schedules at hrun ⊢
        rw [List.range_succ, List.map_append, List.foldlM_append, hrun]
        change (s₁.step fuel _ >>= fun s => pure s) = _
        rw [hstep]
        rfl
      · rw [hnext, Scheduler.nextProc, hcurrent, hcount, Nat.mod_add_mod, add_assoc]

/-- The turns that process `i` waits for at most, if the table grows to `count` meanwhile. -/
def Scheduler.wait (s : Scheduler) (count i : ℕ) : ℕ :=
  if s.currentProc < i then i - s.currentProc else count - s.currentProc + i

theorem Alternating.nextProc_cases (h : Alternating s) :
    (s.currentProc + 1 < s.procCount ∧ s.nextProc = s.currentProc + 1) ∨
      (s.currentProc + 1 = s.procCount ∧ s.nextProc = 0) := by
  have hlt := h.current_lt
  unfold Scheduler.nextProc
  by_cases hlast : s.currentProc + 1 = s.procCount
  · rw [hlast]
    exact Or.inr ⟨rfl, Nat.mod_self _⟩
  · have hroom : s.currentProc + 1 < s.procCount := by omega
    exact Or.inl ⟨hroom, Nat.mod_eq_of_lt hroom⟩

/-- With enough turns in a run, a process that waits gets one of them. -/
theorem Alternating.gets_turn (h : Alternating s) (hfuel : 0 < fuel) {ops : List Op}
    (hops : ∀ op ∈ ops, op.IsDestroy = false) (hrun : s.run fuel ops = .ok s') {i : ℕ}
    (hi : i < s.procCount) (hne : i ≠ s.currentProc)
    (hturns : s.wait s'.procCount i ≤ ops.countP Op.IsSchedule) :
    ∃ done, done <+: ops ∧ ∃ s₁, s.run fuel done = .ok s₁ ∧ s₁.currentProc = i := by
  induction ops generalizing s with
  | nil =>
      have heq : s' = s := by simpa [Scheduler.run, pure, Except.pure] using hrun.symm
      have hlt := h.current_lt
      rw [heq, Scheduler.wait, List.countP_nil] at hturns
      split at hturns <;> omega
  | cons op ops ih =>
      obtain ⟨s₁, hstep, hrest⟩ := run_cons hrun
      have hrestOps : ∀ op ∈ ops, op.IsDestroy = false :=
        fun op hop => hops op (List.mem_cons_of_mem _ hop)
      have hextend : ∀ done, done <+: ops → ∀ s₂, s₁.run fuel done = .ok s₂ → s₂.currentProc = i →
          ∃ done, done <+: op :: ops ∧ ∃ s₂, s.run fuel done = .ok s₂ ∧ s₂.currentProc = i := by
        intro done hdone s₂ hs₂ hcurrent
        refine ⟨op :: done, List.cons_prefix_cons.mpr ⟨rfl, hdone⟩, s₂, ?_, hcurrent⟩
        rw [run_cons_of_step done hstep, hs₂]
      cases hschedule : op.IsSchedule with
      | false =>
          obtain ⟨hinv, hcurrent, hcount, -⟩ :=
            h.step_other (hops op List.mem_cons_self) hschedule hstep
          rw [List.countP_cons_of_neg (by simp [hschedule])] at hturns
          have hturns' : s₁.wait s'.procCount i ≤ ops.countP Op.IsSchedule := by
            unfold Scheduler.wait at hturns ⊢
            rw [hcurrent]
            exact hturns
          obtain ⟨done, hdone, s₂, hs₂, hi₂⟩ :=
            ih hinv hrestOps hrest (by omega) (hcurrent ▸ hne) hturns'
          exact hextend done hdone s₂ hs₂ hi₂
      | true =>
          obtain ⟨cpu, rfl⟩ : ∃ cpu, op = .schedule cpu := by
            cases op with
            | schedule cpu => exact ⟨cpu, rfl⟩
            | _ => simp [Op.IsSchedule] at hschedule
          obtain ⟨s₂, hok, hinv, hcurrent, hcount, -⟩ := h.step_schedule hfuel cpu
          obtain rfl : s₂ = s₁ := by simpa [hok] using hstep
          by_cases hturn : s₂.currentProc = i
          · exact hextend [] List.nil_prefix s₂ rfl hturn
          · rw [List.countP_cons_of_pos (by simp [Op.IsSchedule])] at hturns
            have hgrown := (hinv.run hfuel hrestOps hrest).2.1
            have hturns' : s₂.wait s'.procCount i ≤ ops.countP Op.IsSchedule := by
              unfold Scheduler.wait at hturns ⊢
              cases h.nextProc_cases with
              | inl hnext =>
                  rw [hcurrent, hnext.2] at hturn ⊢
                  split at hturns <;> split <;> omega
              | inr hwrap =>
                  rw [hcurrent, hwrap.2] at hturn ⊢
                  split at hturns <;> split <;> omega
            obtain ⟨done, hdone, s₃, hs₃, hi₃⟩ :=
              ih hinv hrestOps hrest (by omega) (Ne.symm hturn) hturns'
            exact hextend done hdone s₃ hs₃ hi₃

end Runs

/-! ## Taking turns -/

/-- Among `n` successive turns every slot below `n` has exactly one. -/
theorem exists_unique_turn {n c i : ℕ} (hc : c < n) (hi : i < n) :
    ∃! k, k < n ∧ (c + (k + 1)) % n = i := by
  have hinj : ∀ k k', k < n → k' < n → (c + (k + 1)) % n = (c + (k' + 1)) % n → k = k' := by
    intro k k' hk hk' heq
    have hmod : k ≡ k' [MOD n] := Nat.ModEq.add_right_cancel' 1 (Nat.ModEq.add_left_cancel' c heq)
    exact Nat.ModEq.eq_of_lt_of_lt hmod hk hk'
  by_cases hlt : c < i
  · refine ⟨i - c - 1, ⟨by omega, ?_⟩, fun k hk => hinj k _ hk.1 (by omega) ?_⟩
    · rw [Nat.mod_eq_of_lt (by omega)]
      omega
    · rw [hk.2, Nat.mod_eq_of_lt (by omega)]
      omega
  · have hwrap : c + (n - c - 1 + i + 1) = n + i := by omega
    have hturn : (c + (n - c - 1 + i + 1)) % n = i := by
      rw [hwrap, Nat.add_mod_left, Nat.mod_eq_of_lt hi]
    exact ⟨n - c - 1 + i, ⟨by omega, hturn⟩, fun k hk =>
      hinj k _ hk.1 (by omega) (hk.2.trans hturn.symm)⟩

/-- In every run without `proc_destroy` exactly the current process runs; `n` processes have one
turn each in `n` calls of `schedule`; and where more processes come in between, each one that waits
has its turn within as many calls as there are processes by then. -/
theorem round_robin (fuel : ℕ) (hfuel : 0 < fuel) (h : KernelHeap) (ops : List Op)
    (hops : ∀ op ∈ ops, op.IsDestroy = false) (s : Scheduler)
    (hrun : (procInit h).run fuel ops = .ok s) :
    (s.currentProc < s.procCount ∧ (s.procTable s.currentProc).state = .running ∧
        ∀ i < s.procCount, i ≠ s.currentProc → (s.procTable i).state = .ready) ∧
      (∀ (cpus : ℕ → Cpu) (i : ℕ), i < s.procCount →
        ∃! k, k < s.procCount ∧
          ∃ s', s.run fuel (schedules cpus (k + 1)) = .ok s' ∧ s'.currentProc = i) ∧
      ∀ (more : List Op) (s' : Scheduler), (∀ op ∈ more, op.IsDestroy = false) →
        s.run fuel more = .ok s' →
        (∀ i < s.procCount, SameProcess s s' i) ∧
          ∀ i < s.procCount, (s.procTable i).state = .ready →
            s'.procCount ≤ more.countP Op.IsSchedule →
            ∃ done, done <+: more ∧ ∃ s₁, s.run fuel done = .ok s₁ ∧ s₁.currentProc = i := by
  have hinv := ((procInit_alternating h).run hfuel hops hrun).1
  refine ⟨⟨hinv.current_lt, hinv.running, hinv.ready⟩, fun cpus i hi => ?_,
    fun more s' hmore hrun' => ⟨(hinv.run hfuel hmore hrun').2.2, fun i hi hready hturns => ?_⟩⟩
  · have hturn : ∀ k, (∃ s', s.run fuel (schedules cpus (k + 1)) = .ok s' ∧ s'.currentProc = i) ↔
        (s.currentProc + (k + 1)) % s.procCount = i := by
      intro k
      obtain ⟨s', hok, -, -, hcurrent⟩ := hinv.run_schedules hfuel cpus (k + 1)
      rw [hok]
      simp [hcurrent]
    simp only [hturn]
    exact exists_unique_turn hinv.current_lt hi
  · have hne : i ≠ s.currentProc := by
      intro heq
      rw [heq, hinv.running] at hready
      simp at hready
    have hgrown := (hinv.run hfuel hmore hrun').2.1
    have hlt := hinv.current_lt
    refine hinv.gets_turn hfuel hmore hrun' hi hne (le_trans ?_ hturns)
    unfold Scheduler.wait
    split <;> omega

/-- A processor that runs on a stack outside the heap. -/
def kernelCpu : Cpu :=
  ⟨fun _ => 0#64, 0x9000#64, 0#64⟩

theorem round_robin_oneBlockHeap :
    ∃ s, (procInit oneBlockHeap).run 3 [.procCreate 0x4000#64, .schedule kernelCpu,
        .procCreate 0x5000#64] = .ok s ∧
      ∀ i < s.procCount, ∃! k, k < s.procCount ∧
        ∃ s', s.run 3 (schedules (fun _ => kernelCpu) (k + 1)) = .ok s' ∧ s'.currentProc = i := by
  have hok : ((procInit oneBlockHeap).run 3 [.procCreate 0x4000#64, .schedule kernelCpu,
      .procCreate 0x5000#64]).isOk = true := by decide +kernel
  cases hrun : (procInit oneBlockHeap).run 3 [.procCreate 0x4000#64, .schedule kernelCpu,
      .procCreate 0x5000#64] with
  | error fault =>
      rw [hrun] at hok
      simp [Except.isOk, Except.toBool] at hok
  | ok s =>
      exact ⟨s, rfl, (round_robin 3 (by norm_num) oneBlockHeap _ (by simp [Op.IsDestroy]) s
        hrun).2.1 fun _ => kernelCpu⟩

end Osiris.Sched
