import Osiris.Library.Transition
import Osiris.Verification.Heap.Init

/-! # Runs of the heap

Clients allocate, free and write to what they have. The state records the blocks they hold, each
with the size it had when it was handed out. -/

namespace Osiris.Heap

open ByteMemory Page Vmm Blocks LinkedList

inductive Op where
  | kmalloc (size : Word)
  | kcalloc (num size : Word)
  | krealloc (ptr size : Word)
  | kfree (ptr : Word)
  | write (at' : Word) (byte : Byte)
deriving DecidableEq, Repr

structure State where
  heap : KernelHeap
  live : List Block

/-- The block whose payload is at `ptr`, with the size that its header holds. -/
def blockAt (h : KernelHeap) (ptr : Word) : Block :=
  ⟨(ptr - 8#64).toNat, (load64 h.mem (ptr - 8#64)).toNat⟩

/-- The live blocks after `ptr` has been handed out, unless it is `NULL`. -/
def gain (h : KernelHeap) (live : List Block) (ptr : Word) : List Block :=
  if ptr = 0#64 then live else blockAt h ptr :: live

def lose (live : List Block) (ptr : Word) : List Block :=
  live.eraseP fun b => payload b = ptr

/-- The live blocks after `krealloc`: a block that is moved or freed is lost. -/
def exchange (h : KernelHeap) (live : List Block) (ptr size newPtr : Word) : List Block :=
  if newPtr = ptr ∨ (newPtr = 0#64 ∧ size ≠ 0#64) then live
  else gain h (lose live ptr) newPtr

def State.step (fuel : ℕ) (s : State) : Op → Except Fault State
  | .kmalloc size => do
      let (ptr, h) ← kmalloc fuel s.heap size
      .ok ⟨h, gain h s.live ptr⟩
  | .kcalloc num size => do
      let (ptr, h) ← kcalloc fuel s.heap num size
      .ok ⟨h, gain h s.live ptr⟩
  | .krealloc ptr size => do
      let (newPtr, h) ← krealloc fuel s.heap ptr size
      .ok ⟨h, exchange h s.live ptr size newPtr⟩
  | .kfree ptr => do
      let h ← kfree fuel s.heap ptr
      .ok ⟨h, lose s.live ptr⟩
  | .write at' byte => .ok ⟨{ s.heap with mem := setByte s.heap.mem at' byte }, s.live⟩

/-- `NULL` or the pointer of a live block. -/
def State.Holds (s : State) (ptr : Word) : Prop :=
  ptr = 0#64 ∨ ∃ b ∈ s.live, ptr = payload b

/-- What clients may do: no request wraps, and they use nothing but what they hold. -/
def State.Allowed (s : State) : Op → Prop
  | .kmalloc size => size.toNat + 23 < 2 ^ 64
  | .kcalloc num size => (num * size).toNat + 23 < 2 ^ 64
  | .krealloc ptr size => size.toNat + 23 < 2 ^ 64 ∧ s.Holds ptr
  | .kfree ptr => s.Holds ptr
  | .write at' _ => ∃ b ∈ s.live, InPayload b at'

/-- A run goes on until a function does not return. -/
def step (fuel : ℕ) (state : Except Fault State) (op : Op) : Except Fault State :=
  state.bind fun s => s.step fuel op

def Allowed (state : Except Fault State) (op : Op) : Prop :=
  ∀ s, state = .ok s → s.Allowed op

section Steps

variable {h : KernelHeap} {live free : List Block} {b : Block} {fuel : ℕ} {s : State}

theorem blockAt_payload (hb : Placed b) (hheader : load64 h.mem (addr b) = BitVec.ofNat 64 b.size) :
    blockAt h (payload b) = b := by
  unfold blockAt
  rw [payload_sub, hheader, hb.toNat_addr, hb.toNat_size]

theorem HeapInv.gain_payload (hinv : HeapInv h (b :: live) free) :
    gain h live (payload b) = b :: live := by
  have hb := hinv.placed_live List.mem_cons_self
  unfold gain
  rw [if_neg hb.payload_ne_zero, blockAt_payload hb (hinv.headers b List.mem_cons_self)]

theorem kfree_null (fuel : ℕ) (h : KernelHeap) : kfree fuel h 0#64 = .ok h :=
  if_pos rfl

theorem gain_zero (h : KernelHeap) (live : List Block) : gain h live 0#64 = live :=
  if_pos rfl

/-- A live block that is lost is the only one. -/
theorem lose_perm (hb : b ∈ live) (huniq : ∀ c ∈ live, payload c = payload b → c = b) :
    live.Perm (b :: lose live (payload b)) := by
  obtain ⟨c, before, after, -, hc, heq, herase⟩ :=
    List.exists_of_eraseP (p := fun c => decide (payload c = payload b)) hb (decide_eq_true rfl)
  obtain rfl : c = b := huniq c (by rw [heq]; simp) (of_decide_eq_true hc)
  unfold lose
  rw [herase, heq]
  exact List.perm_middle

theorem HeapInv.lose_perm (hinv : HeapInv h live free) (hb : b ∈ live) :
    live.Perm (b :: lose live (payload b)) :=
  Heap.lose_perm hb fun c hc heq => by
    by_contra hne
    exact hinv.payload_ne hc hb hne heq

theorem HeapInv.lose_zero (hinv : HeapInv h live free) : lose live 0#64 = live :=
  List.eraseP_of_forall_not fun b hb => by
    simpa using (hinv.placed_live hb).payload_ne_zero

theorem HeapInv.setByte (hinv : HeapInv h live free) (hb : b ∈ live) {x : Word}
    (hx : InPayload b x) (byte : Byte) :
    HeapInv { h with mem := setByte h.mem x byte } live free :=
  hinv.write fun _ hy => setByte_of_ne _ _ fun heq => hy (Or.inl ⟨b, hb, heq ▸ hx⟩)

theorem step_kmalloc {size ptr : Word} (hok : kmalloc fuel s.heap size = .ok (ptr, h)) :
    s.step fuel (.kmalloc size) = .ok ⟨h, gain h s.live ptr⟩ := by
  simp only [State.step, hok]
  rfl

theorem step_kcalloc {num size ptr : Word} (hok : kcalloc fuel s.heap num size = .ok (ptr, h)) :
    s.step fuel (.kcalloc num size) = .ok ⟨h, gain h s.live ptr⟩ := by
  simp only [State.step, hok]
  rfl

theorem step_krealloc {ptr size newPtr : Word}
    (hok : krealloc fuel s.heap ptr size = .ok (newPtr, h)) :
    s.step fuel (.krealloc ptr size) = .ok ⟨h, exchange h s.live ptr size newPtr⟩ := by
  simp only [State.step, hok]
  rfl

theorem step_kfree {ptr : Word} (hok : kfree fuel s.heap ptr = .ok h) :
    s.step fuel (.kfree ptr) = .ok ⟨h, lose s.live ptr⟩ := by
  simp only [State.step, hok]
  rfl

theorem HeapInv.step_kmalloc (hinv : HeapInv s.heap s.live free) (hfuel : 65536 < fuel)
    (size : Word) :
    ∃ s' free', s.step fuel (.kmalloc size) = .ok s' ∧ HeapInv s'.heap s'.live free' := by
  rcases hinv.kmalloc hfuel size with ⟨-, hnull⟩ | ⟨b, free', h', -, hok, hinv', -⟩
  · have hstep := Heap.step_kmalloc hnull
    rw [gain_zero] at hstep
    exact ⟨s, free, hstep, hinv⟩
  · have hstep := Heap.step_kmalloc hok
    rw [hinv'.gain_payload] at hstep
    exact ⟨_, free', hstep, hinv'⟩

theorem HeapInv.step_kcalloc (hinv : HeapInv s.heap s.live free) (hfuel : 65536 < fuel)
    {num size : Word} (hsize : (num * size).toNat + 23 < 2 ^ 64) :
    ∃ s' free', s.step fuel (.kcalloc num size) = .ok s' ∧ HeapInv s'.heap s'.live free' := by
  rcases hinv.kcalloc hfuel hsize with hnull | ⟨b, free', h', hok, hinv', -⟩
  · have hstep := Heap.step_kcalloc hnull
    rw [gain_zero] at hstep
    exact ⟨s, free, hstep, hinv⟩
  · have hstep := Heap.step_kcalloc hok
    rw [hinv'.gain_payload] at hstep
    exact ⟨_, free', hstep, hinv'⟩

theorem HeapInv.step_kfree (hinv : HeapInv s.heap s.live free) (hfuel : 65536 < fuel) {ptr : Word}
    (hholds : s.Holds ptr) :
    ∃ s' free', s.step fuel (.kfree ptr) = .ok s' ∧ HeapInv s'.heap s'.live free' := by
  rcases hholds with rfl | ⟨b, hb, rfl⟩
  · have hstep := Heap.step_kfree (kfree_null fuel s.heap)
    rw [hinv.lose_zero] at hstep
    exact ⟨s, free, hstep, hinv⟩
  · obtain ⟨h', hok, hinv', -⟩ := hinv.kfree hfuel (hinv.lose_perm hb)
    exact ⟨_, _, Heap.step_kfree hok, hinv'⟩

theorem krealloc_null (fuel : ℕ) (h : KernelHeap) (size : Word) :
    krealloc fuel h 0#64 size = kmalloc fuel h size :=
  if_pos rfl

theorem krealloc_zero (fuel : ℕ) {ptr : Word} (hptr : ptr ≠ 0#64) {h' : KernelHeap}
    (hok : kfree fuel h ptr = .ok h') : krealloc fuel h ptr 0#64 = .ok (0#64, h') := by
  unfold krealloc
  rw [if_neg hptr, if_pos rfl, hok]
  rfl

theorem HeapInv.step_krealloc (hinv : HeapInv s.heap s.live free) (hfuel : 65536 < fuel)
    {ptr size : Word} (hsize : size.toNat + 23 < 2 ^ 64) (hholds : s.Holds ptr) :
    ∃ s' free', s.step fuel (.krealloc ptr size) = .ok s' ∧ HeapInv s'.heap s'.live free' := by
  rcases hholds with rfl | ⟨b, hb, rfl⟩
  · rcases hinv.kmalloc hfuel size with ⟨-, hnull⟩ | ⟨b, free', h', -, hok, hinv', -⟩
    · have hstep := Heap.step_krealloc ((krealloc_null fuel s.heap size).trans hnull)
      rw [exchange, if_pos (Or.inl rfl)] at hstep
      exact ⟨s, free, hstep, hinv⟩
    · have hne := (hinv'.placed_live List.mem_cons_self).payload_ne_zero
      have hstep := Heap.step_krealloc ((krealloc_null fuel s.heap size).trans hok)
      rw [exchange, if_neg (fun hif => hif.elim hne fun hnull => hne hnull.1), hinv.lose_zero,
        hinv'.gain_payload] at hstep
      exact ⟨_, free', hstep, hinv'⟩
  · have hne := (hinv.placed_live hb).payload_ne_zero
    have hperm := hinv.lose_perm hb
    by_cases hzero : size = 0#64
    · subst hzero
      obtain ⟨h', hok, hinv', -⟩ := hinv.kfree hfuel hperm
      have hstep := Heap.step_krealloc (krealloc_zero fuel hne hok)
      rw [exchange, if_neg (fun hif => hif.elim (fun heq => hne heq.symm) fun hnull => hnull.2 rfl),
        gain_zero] at hstep
      exact ⟨_, _, hstep, hinv'⟩
    · rcases hinv.krealloc hfuel hsize hzero hperm with
        ⟨hkept, -⟩ | hnull | ⟨c, free', h', hok, hcb, hinv', -⟩
      · have hstep := Heap.step_krealloc hkept
        rw [exchange, if_pos (Or.inl rfl)] at hstep
        exact ⟨s, free, hstep, hinv⟩
      · have hstep := Heap.step_krealloc hnull
        rw [exchange, if_pos (Or.inr ⟨rfl, hzero⟩)] at hstep
        exact ⟨s, free, hstep, hinv⟩
      · have hc := (hinv'.placed_live List.mem_cons_self).payload_ne_zero
        have hstep := Heap.step_krealloc hok
        rw [exchange, if_neg (fun hif => hif.elim hcb fun hnull => hc hnull.1),
          hinv'.gain_payload] at hstep
        exact ⟨_, free', hstep, hinv'⟩

/-- Every operation of a client returns and keeps the invariant. -/
theorem HeapInv.step (hinv : HeapInv s.heap s.live free) (hfuel : 65536 < fuel) {op : Op}
    (hop : s.Allowed op) :
    ∃ s' free', s.step fuel op = .ok s' ∧ HeapInv s'.heap s'.live free' := by
  cases op with
  | kmalloc size => exact hinv.step_kmalloc hfuel size
  | kcalloc num size => exact hinv.step_kcalloc hfuel hop
  | krealloc ptr size => exact hinv.step_krealloc hfuel hop.1 hop.2
  | kfree ptr => exact hinv.step_kfree hfuel hop
  | write x byte =>
      obtain ⟨b, hb, hx⟩ := hop
      exact ⟨_, free, rfl, hinv.setByte hb hx byte⟩

end Steps

/-! ## Reachable states -/

theorem heapInv_of_run {hh : Word} {kernelPagemap : Pagemap} {boot h : KernelHeap}
    (hboot : boot.heapStart = 0#64) (hinit : heapInit hh kernelPagemap boot = .ok h) {fuel : ℕ}
    (hfuel : 65536 < fuel) {state : Except Fault State}
    (hrun : Transition.Run (step fuel) Allowed (.ok ⟨h, []⟩) state) :
    ∃ s free, state = .ok s ∧ HeapInv s.heap s.live free := by
  refine hrun.invariant (I := fun state => ∃ s free, state = .ok s ∧ HeapInv s.heap s.live free)
    ⟨⟨h, []⟩, [wholeHeap], rfl, heapInit_inv hboot hinit⟩ ?_
  rintro state op ⟨s, free, rfl, hinv⟩ hop
  exact hinv.step hfuel (hop s rfl)

/-- In every run of the heap, all functions return and the invariant holds. -/
theorem heap_representation_invariant (hh : Word) (kernelPagemap : Pagemap) (boot h : KernelHeap)
    (hboot : boot.heapStart = 0#64) (hinit : heapInit hh kernelPagemap boot = .ok h) (fuel : ℕ)
    (hfuel : 65536 < fuel) (state : Except Fault State)
    (hrun : Transition.Run (step fuel) Allowed (.ok ⟨h, []⟩) state) :
    ∃ s free, state = .ok s ∧ HeapInv s.heap s.live free :=
  heapInv_of_run hboot hinit hfuel hrun

theorem heap_representation_invariant_bootHeap :
    ∃ h s free, heapInit directMap ⟨frameVirt directMap 1⟩ bootHeap = .ok h ∧
      step 65537 (.ok ⟨h, []⟩) (.kmalloc 100#64) = .ok s ∧ HeapInv s.heap s.live free := by
  obtain ⟨h, hinit⟩ := bootHeap_inits
  have hallowed : Allowed (.ok ⟨h, []⟩) (.kmalloc 100#64) :=
    fun _ _ => show (100#64).toNat + 23 < 2 ^ 64 by decide
  obtain ⟨s, free, hstep, hinv⟩ := heap_representation_invariant directMap ⟨frameVirt directMap 1⟩
    bootHeap h rfl hinit 65537 (by norm_num) _ (.step .start hallowed)
  exact ⟨h, s, free, hinit, hstep, hinv⟩

end Osiris.Heap
