import Osiris.Library.Transition
import Osiris.Verification.Sched.RoundRobin

/-! # Destroying processes

`proc_destroy` moves the slots above the one it removes, but `current_proc` stays where it is. The
table stays sound as long as only slots above the current one are destroyed. -/

namespace Osiris.Sched

open ByteMemory Page Heap Transition

/-! ## Following processes through the table -/

/-- The scheduler, and which process each slot holds. A process is known by a number that is never
used again; `saved` tells where the stack of each living process was left, and `running` whose stack
the processor is on. -/
structure Tracked where
  sched : Scheduler
  owner : ℕ → ℕ
  saved : ℕ → Option Word
  running : ℕ
  next : ℕ

def Tracked.init (h : KernelHeap) : Tracked where
  sched := procInit h
  owner := fun _ => 0
  saved := fun id => if id = 0 then some 0#64 else none
  running := 0
  next := 1

/-- The books after a call that has led to `s`. What is known of a slot moves with its contents. -/
def Tracked.follow (t : Tracked) (s : Scheduler) : Op → Tracked
  | .procCreate _ =>
      if t.sched.procCount < maxProc then
        { t with
          sched := s
          owner := Function.update t.owner t.sched.procCount t.next
          saved := Function.update t.saved t.next (some (s.procTable t.sched.procCount).rsp)
          next := t.next + 1 }
      else { t with sched := s }
  | .schedule cpu =>
      if s.currentProc = t.sched.currentProc then { t with sched := s }
      else
        { t with
          sched := s
          saved := Function.update t.saved t.running
            ((t.saved t.running).map fun _ => savedRsp cpu)
          running := t.owner s.currentProc }
  | .procDestroy proc =>
      if (t.sched.procTable proc).state = .idle then { t with sched := s }
      else
        { t with
          sched := s
          owner := shiftDown t.owner proc (t.sched.procCount - 1)
          saved := Function.update t.saved (t.owner proc) none }
  | .execute _ => { t with sched := s }

def Tracked.step (fuel : ℕ) (state : Except Fault Tracked) (op : Op) : Except Fault Tracked :=
  state.bind fun t => (t.sched.step fuel op).map fun s => t.follow s op

/-- The current process is the only one that runs, all others are ready, and every living process
has a slot, with its own stack pointer unless it runs. -/
structure Intact (t : Tracked) : Prop where
  current_lt : t.sched.currentProc < t.sched.procCount
  running : (t.sched.procTable t.sched.currentProc).state = .running
  ready : ∀ i < t.sched.procCount, i ≠ t.sched.currentProc →
    (t.sched.procTable i).state = .ready
  present : ∀ id rsp, t.saved id = some rsp →
    ∃ i < t.sched.procCount, t.owner i = id ∧
      (id ≠ t.running → (t.sched.procTable i).rsp = rsp)

/-- What carries the proof over a run: beside `Intact`, no process has two slots, and the current
slot is that of the process which runs. -/
structure TrackedInv (t : Tracked) : Prop where
  alternating : Alternating t.sched
  current : t.owner t.sched.currentProc = t.running
  distinct : ∀ i < t.sched.procCount, ∀ j < t.sched.procCount, t.owner i = t.owner j → i = j
  old : ∀ i < t.sched.procCount, t.owner i < t.next
  present : ∀ id rsp, t.saved id = some rsp →
    ∃ i < t.sched.procCount, t.owner i = id ∧
      (id ≠ t.running → (t.sched.procTable i).rsp = rsp)

theorem TrackedInv.intact {t : Tracked} (h : TrackedInv t) : Intact t :=
  ⟨h.alternating.current_lt, h.alternating.running, h.alternating.ready, h.present⟩

theorem TrackedInv.init (h : KernelHeap) : TrackedInv (Tracked.init h) := by
  refine ⟨procInit_alternating h, rfl, fun i hi j hj _ => ?_, fun i _ => Nat.one_pos,
    fun id rsp hsaved => ?_⟩
  · have hi' : i < 1 := hi
    have hj' : j < 1 := hj
    omega
  · have hid : id = 0 := by
      by_contra hne
      simp [Tracked.init, hne] at hsaved
    exact ⟨0, Nat.one_pos, hid.symm, fun hne => absurd hid hne⟩

/-! ## One call -/

section Steps

variable {t : Tracked} {s : Scheduler} {fuel : ℕ}

theorem TrackedInv.procCreate (h : TrackedInv t) {entryPoint : Word}
    (hcreate : Sched.procCreate fuel t.sched entryPoint = .ok s) :
    TrackedInv (t.follow s (.procCreate entryPoint)) := by
  have halt := h.alternating.procCreate hcreate
  have hlt := h.alternating.current_lt
  unfold Tracked.follow
  cases procCreate_cases hcreate with
  | inl hfull =>
      rw [if_neg (by omega), hfull.2]
      exact ⟨h.alternating, h.current, h.distinct, h.old, h.present⟩
  | inr hnew =>
      obtain ⟨hroom, stack, heap, -, htable, hcurrent, hcount⟩ := hnew
      rw [if_pos hroom]
      constructor
      · exact halt
      · dsimp only
        rw [hcurrent, Function.update_of_ne (by omega)]
        exact h.current
      · intro i hi j hj heq
        dsimp only at hi hj heq
        rw [hcount] at hi hj
        have hold := h.old
        by_cases hil : i = t.sched.procCount
        · by_cases hjl : j = t.sched.procCount
          · omega
          · have hlast := hold j (by omega)
            rw [hil, Function.update_self, Function.update_of_ne hjl] at heq
            omega
        · have hlast := hold i (by omega)
          by_cases hjl : j = t.sched.procCount
          · rw [hjl, Function.update_self, Function.update_of_ne hil] at heq
            omega
          · rw [Function.update_of_ne hil, Function.update_of_ne hjl] at heq
            exact h.distinct i (by omega) j (by omega) heq
      · intro i hi
        dsimp only at hi ⊢
        by_cases hil : i = t.sched.procCount
        · rw [hil, Function.update_self]
          omega
        · have hlast := h.old i (by omega)
          rw [Function.update_of_ne hil]
          omega
      · intro id rsp hsaved
        dsimp only at hsaved ⊢
        by_cases hid : id = t.next
        · rw [hid, Function.update_self, Option.some.injEq] at hsaved
          refine ⟨t.sched.procCount, by omega, ?_, fun _ => hsaved⟩
          rw [hid, Function.update_self]
        · rw [Function.update_of_ne hid] at hsaved
          obtain ⟨i, hi, howner, hrsp⟩ := h.present id rsp hsaved
          refine ⟨i, by omega, ?_, fun hne => ?_⟩
          · rw [Function.update_of_ne (by omega)]
            exact howner
          · rw [htable, Function.update_of_ne (by omega)]
            exact hrsp hne

theorem TrackedInv.switchTo (h : TrackedInv t) (cpu : Cpu) {i : ℕ} (hi : i < t.sched.procCount)
    (hne : i ≠ t.sched.currentProc) :
    TrackedInv (t.follow (t.sched.switchTo cpu i).2 (.schedule cpu)) := by
  unfold Tracked.follow
  dsimp only
  rw [switchTo_currentProc, if_neg hne]
  refine ⟨h.alternating.switchTo cpu hi hne, rfl, h.distinct, h.old, fun id rsp hsaved => ?_⟩
  dsimp only at hsaved ⊢
  rw [switchTo_procCount, switchTo_procTable hne]
  by_cases hid : id = t.running
  · -- the process that is left: its stack pointer is the one just stored
    refine ⟨t.sched.currentProc, h.alternating.current_lt, h.current.trans hid.symm, fun _ => ?_⟩
    rw [hid, Function.update_self] at hsaved
    obtain ⟨old, -, heq⟩ := Option.map_eq_some_iff.mp hsaved
    rw [Function.update_self]
    exact heq
  · rw [Function.update_of_ne hid] at hsaved
    obtain ⟨j, hj, howner, hrsp⟩ := h.present id rsp hsaved
    refine ⟨j, hj, howner, fun _ => ?_⟩
    have hjc : j ≠ t.sched.currentProc := by
      intro hjc
      rw [hjc, h.current] at howner
      exact hid howner.symm
    rw [Function.update_of_ne hjc]
    by_cases hji : j = i
    · rw [hji, Function.update_self]
      exact hji ▸ hrsp hid
    · rw [Function.update_of_ne hji]
      exact hrsp hid

theorem TrackedInv.schedule (h : TrackedInv t) (hfuel : 0 < fuel) {cpu : Cpu}
    (hstep : t.sched.step fuel (.schedule cpu) = .ok s) :
    TrackedInv (t.follow s (.schedule cpu)) := by
  have heq : t.sched.step fuel (.schedule cpu) =
      (Sched.schedule fuel cpu t.sched).map Prod.snd := rfl
  rw [hstep, schedule_eq h.alternating hfuel] at heq
  by_cases hne : t.sched.nextProc = t.sched.currentProc
  · rw [if_pos hne] at heq
    obtain rfl : s = t.sched := by simpa [Except.map] using heq
    unfold Tracked.follow
    dsimp only
    rw [if_pos rfl]
    exact h
  · rw [if_neg hne] at heq
    obtain rfl : s = (t.sched.switchTo cpu t.sched.nextProc).2 := by simpa [Except.map] using heq
    exact h.switchTo cpu h.alternating.nextProc_lt hne

/-- The slot that the contents of slot `j` have been moved from. -/
def origin (proc j : ℕ) : ℕ :=
  if proc ≤ j then j + 1 else j

theorem shiftDown_origin {α : Type} (table : ℕ → α) {proc count j : ℕ} (hproc : proc < count)
    (hj : j < count - 1) : shiftDown table proc (count - 1) j = table (origin proc j) := by
  rw [shiftDown_apply table (by omega), origin]
  by_cases hle : proc ≤ j
  · rw [if_pos ⟨hle, hj⟩, if_pos hle]
  · rw [if_neg (by omega), if_neg hle]

section Origin

variable {proc count i j : ℕ}

theorem origin_ne_self (proc j : ℕ) : origin proc j ≠ proc := by
  unfold origin
  split <;> omega

theorem origin_lt (hj : j < count - 1) : origin proc j < count := by
  unfold origin
  split <;> omega

theorem origin_inj (h : origin proc i = origin proc j) : i = j := by
  unfold origin at h
  split at h <;> split at h <;> omega

theorem origin_of_lt (h : j < proc) : origin proc j = j :=
  if_neg (by omega)

/-- Every slot but the one removed is moved somewhere. -/
theorem exists_origin (hproc : proc < count) (hi : i < count) (hne : i ≠ proc) :
    ∃ j < count - 1, origin proc j = i := by
  by_cases hlt : i < proc
  · exact ⟨i, by omega, origin_of_lt hlt⟩
  · refine ⟨i - 1, by omega, ?_⟩
    rw [origin, if_pos (by omega)]
    omega

end Origin

/-- Above the current slot, `proc_destroy` moves the slots and touches no other. -/
theorem procDestroy_above (h : Alternating t.sched) {proc : ℕ}
    (habove : t.sched.currentProc < proc) (hproc : proc < t.sched.procCount)
    (hdestroy : Sched.procDestroy fuel t.sched (some proc) = .ok s) :
    (∀ j < t.sched.procCount - 1, s.procTable j = t.sched.procTable (origin proc j)) ∧
      s.procCount = t.sched.procCount - 1 ∧ s.currentProc = t.sched.currentProc := by
  have hidle : (t.sched.procTable proc).state ≠ .idle := by
    simp [h.ready proc hproc habove.ne']
  obtain ⟨htable, hcount, hcurrent⟩ := procDestroy_ok hidle hdestroy
  rw [if_neg habove.ne] at hcurrent
  refine ⟨fun j hj => ?_, hcount, hcurrent⟩
  rw [htable, shiftDown_origin _ hproc hj, Function.update_of_ne (origin_ne_self proc j)]

theorem Alternating.procDestroy (h : Alternating t.sched) {proc : ℕ}
    (habove : t.sched.currentProc < proc) (hproc : proc < t.sched.procCount)
    (hdestroy : Sched.procDestroy fuel t.sched (some proc) = .ok s) : Alternating s := by
  obtain ⟨hentry, hcount, hcurrent⟩ := procDestroy_above h habove hproc hdestroy
  constructor
  · omega
  · rw [hcurrent, hentry _ (by omega), origin_of_lt habove]
    exact h.running
  · intro j hj hne
    rw [hcurrent] at hne
    rw [hentry j (by omega)]
    apply h.ready
    · exact origin_lt (by omega)
    · intro heq
      exact hne (origin_inj (heq.trans (origin_of_lt habove).symm))

theorem TrackedInv.procDestroy (h : TrackedInv t) {proc : ℕ} (habove : t.sched.currentProc < proc)
    (hproc : proc < t.sched.procCount)
    (hdestroy : Sched.procDestroy fuel t.sched (some proc) = .ok s) :
    TrackedInv (t.follow s (.procDestroy proc)) := by
  have hidle : (t.sched.procTable proc).state ≠ .idle := by
    simp [h.alternating.ready proc hproc habove.ne']
  have halt := h.alternating.procDestroy habove hproc hdestroy
  obtain ⟨hentry, hcount, hcurrent⟩ := procDestroy_above h.alternating habove hproc hdestroy
  unfold Tracked.follow
  dsimp only
  rw [if_neg hidle]
  constructor
  · exact halt
  · dsimp only
    rw [hcurrent, shiftDown_origin _ hproc (by omega), origin_of_lt habove]
    exact h.current
  · intro i hi j hj heq
    dsimp only at hi hj heq
    rw [hcount] at hi hj
    rw [shiftDown_origin _ hproc hi, shiftDown_origin _ hproc hj] at heq
    exact origin_inj (h.distinct _ (origin_lt hi) _ (origin_lt hj) heq)
  · intro j hj
    dsimp only at hj ⊢
    rw [hcount] at hj
    rw [shiftDown_origin _ hproc hj]
    exact h.old _ (origin_lt hj)
  · intro id rsp hsaved
    dsimp only at hsaved ⊢
    by_cases hid : id = t.owner proc
    · rw [hid, Function.update_self] at hsaved
      simp at hsaved
    · rw [Function.update_of_ne hid] at hsaved
      obtain ⟨i, hi, howner, hrsp⟩ := h.present id rsp hsaved
      have hne : i ≠ proc := fun heq => hid (heq ▸ howner.symm)
      obtain ⟨j, hj, rfl⟩ := exists_origin hproc hi hne
      refine ⟨j, by omega, ?_, fun hrunning => ?_⟩
      · rw [shiftDown_origin _ hproc hj]
        exact howner
      · rw [hentry j hj]
        exact hrsp hrunning

end Steps

/-! ## Whole runs -/

/-- A slot is destroyed only while the current process has one below it. -/
def Tracked.DestroysAbove (t : Tracked) : Op → Prop
  | .procDestroy proc => t.sched.currentProc < proc ∧ proc < t.sched.procCount
  | _ => True

def DestroysAbove (state : Except Fault Tracked) (op : Op) : Prop :=
  ∀ t, state = .ok t → t.DestroysAbove op

theorem TrackedInv.step {t t' : Tracked} {fuel : ℕ} {op : Op} (h : TrackedInv t) (hfuel : 0 < fuel)
    (hop : t.DestroysAbove op) (hstep : Tracked.step fuel (.ok t) op = .ok t') : TrackedInv t' := by
  have heq : (t.sched.step fuel op).map (fun s => t.follow s op) = .ok t' := hstep
  cases hsched : t.sched.step fuel op with
  | error fault =>
      rw [hsched] at heq
      simp [Except.map] at heq
  | ok s =>
      rw [hsched] at heq
      obtain rfl : t.follow s op = t' := by simpa [Except.map] using heq
      cases op with
      | procCreate entryPoint => exact h.procCreate hsched
      | schedule cpu => exact h.schedule hfuel hsched
      | procDestroy proc => exact h.procDestroy hop.1 hop.2 hsched
      | execute mem =>
          have hmem : s = { t.sched with mem } := by
            simpa [Scheduler.step] using hsched.symm
          have halt := h.alternating
          rw [hmem]
          exact ⟨⟨halt.current_lt, halt.running, halt.ready⟩, h.current, h.distinct, h.old,
            h.present⟩

/-- In every run that destroys slots above the current one only, the table stays intact. -/
theorem intact_of_destroys_above (fuel : ℕ) (hfuel : 0 < fuel) (h : KernelHeap) (t : Tracked)
    (hrun : Run (Tracked.step fuel) DestroysAbove (.ok (Tracked.init h)) (.ok t)) : Intact t := by
  have hinv : ∀ t', Except.ok t = Except.ok (ε := Fault) t' → TrackedInv t' := by
    refine hrun.invariant (I := fun state => ∀ t, state = .ok t → TrackedInv t) ?_ ?_
    · intro t' heq
      obtain rfl : Tracked.init h = t' := by simpa using heq
      exact TrackedInv.init h
    · intro state op ih hop t' hstep
      cases state with
      | error fault => simp [Tracked.step, Except.bind] at hstep
      | ok t₀ => exact (ih t₀ rfl).step hfuel (hop t₀ rfl) hstep
  exact (hinv t rfl).intact

/-- Nothing less will do: a process at or below the current one cannot be destroyed without
breaking the table. -/
theorem not_alternating_of_destroy {fuel : ℕ} {s s' : Scheduler} (h : Alternating s) {proc : ℕ}
    (hpos : 0 < proc) (hle : proc ≤ s.currentProc)
    (hdestroy : procDestroy fuel s (some proc) = .ok s') : ¬ Alternating s' := by
  have hlt := h.current_lt
  have hidle : (s.procTable proc).state ≠ .idle := by
    by_cases heq : proc = s.currentProc
    · simp [heq, h.running]
    · simp [h.ready proc (by omega) heq]
  obtain ⟨htable, hcount, hcurrent⟩ := procDestroy_ok hidle hdestroy
  intro hinv
  have hrunning := hinv.running
  have hlt' := hinv.current_lt
  rw [hcount] at hlt'
  rw [htable, hcurrent] at hrunning
  rw [hcurrent] at hlt'
  by_cases heq : s.currentProc = proc
  · rw [if_pos heq] at hlt' hrunning
    rw [shiftDown_origin _ (by omega) hlt', origin, if_neg (by omega),
      Function.update_of_ne (by omega), h.ready 0 (by omega) (by omega)] at hrunning
    simp at hrunning
  · rw [if_neg heq] at hlt' hrunning
    rw [shiftDown_origin _ (by omega) hlt', origin, if_pos hle,
      Function.update_of_ne (by omega), h.ready _ (by omega) (by omega)] at hrunning
    simp at hrunning

/-- When the current process is destroyed, the idle process becomes current but does not run. When
one below it is, the next process to be created shares its slot with `current_proc`, and gets the
stack pointer of the process that runs. -/
theorem destroy_breaks_table :
    (∃ s, (procInit oneBlockHeap).run 3
        [.procCreate 0x4000#64, .schedule kernelCpu, .procDestroy 1] = .ok s ∧
      (s.procTable s.currentProc).state = .ready) ∧
    ∃ s, (procInit oneBlockHeap).run 3
        [.procCreate 0x4000#64, .procCreate 0x5000#64, .schedule kernelCpu, .schedule kernelCpu,
          .procDestroy 1, .procCreate 0x6000#64, .schedule kernelCpu] = .ok s ∧
      (s.procTable 2).stack ≠ 0#64 ∧ (s.procTable 2).rsp = savedRsp kernelCpu := by
  constructor
  · exact Loop.exists_of_toOption (by decide +kernel)
  · refine (Loop.exists_of_toOption (f := fun s : Scheduler =>
      decide ((s.procTable 2).stack ≠ 0#64 ∧ (s.procTable 2).rsp = savedRsp kernelCpu))
        (c := true) ?_).imp fun s hs => ⟨hs.1, of_decide_eq_true hs.2⟩
    decide +kernel

theorem intact_of_destroys_above_oneBlockHeap :
    ∃ t, Run (Tracked.step 3) DestroysAbove (.ok (Tracked.init oneBlockHeap)) (.ok t) ∧
      t.sched.procCount = 1 ∧ Intact t := by
  obtain ⟨t₁, hcreate, hcount₁⟩ := Loop.exists_of_toOption
    (show (Tracked.step 3 (.ok (Tracked.init oneBlockHeap)) (.procCreate 0x4000#64)).toOption.map
      (fun t => (t.sched.currentProc, t.sched.procCount)) = some (0, 2) by decide +kernel)
  obtain ⟨t₂, hdestroy, hcount₂⟩ := Loop.exists_of_toOption
    (show (Tracked.step 3 (Tracked.step 3 (.ok (Tracked.init oneBlockHeap)) (.procCreate 0x4000#64))
      (.procDestroy 1)).toOption.map (fun t => t.sched.procCount) = some 1 by decide +kernel)
  have hrun : Run (Tracked.step 3) DestroysAbove (.ok (Tracked.init oneBlockHeap)) (.ok t₂) := by
    rw [← hdestroy]
    refine .step (.step .start fun t _ => trivial) fun t ht => ?_
    rw [hcreate, Except.ok.injEq] at ht
    rw [← ht]
    obtain ⟨hcurrent, hcount⟩ := Prod.mk.inj hcount₁
    exact ⟨by omega, by omega⟩
  exact ⟨t₂, hrun, hcount₂, intact_of_destroys_above 3 (by norm_num) oneBlockHeap t₂ hrun⟩

end Osiris.Sched
