import Osiris.Library.Transition
import Osiris.Verification.Vmm.Map

/-! # Histories of a pagemap

A pagemap lives among other code that takes and gives back frames and writes to memory of its
own. The history of a pagemap records what its calls were meant to do: which pages they bound, and
which frames they took for tables. -/

namespace Osiris.Vmm

open ByteMemory Strings Page Radix

/-- What a page is bound to: a frame address and flags. -/
structure Binding where
  frame : Word
  flags : Word
deriving DecidableEq

def Binding.leaf (b : Binding) : Word :=
  b.frame ||| b.flags

/-- The binding that a successful `vmm_map_page` asks for. -/
def bindingOf (physAddr flags : Word) : Binding :=
  ⟨alignDown physAddr 4096#64, flags ||| ptePresent⟩

theorem leaf_bindingOf (phys flags : Word) : (bindingOf phys flags).leaf = leafOf phys flags :=
  (BitVec.or_assoc _ _ _).symm

/-- Calls of the two operations of a pagemap, and what other code does between them. -/
inductive Op where
  | map (virtAddr physAddr flags : Word)
  | unmap (virtAddr : Word)
  | allocate
  | free (page : Word)
  | write (mem : Mem)

/-- The page a call is about. -/
def Op.page : Op → Option ℕ
  | .map virtAddr _ _ => some (pageNumber virtAddr)
  | .unmap virtAddr => some (pageNumber virtAddr)
  | _ => none

/-- The machine, the bindings the calls have made, and the frames they hold. -/
structure State where
  machine : Machine
  bindings : ℕ → Option Binding
  owned : Set ℕ

def State.initial (machine : Machine) : State :=
  ⟨machine, fun _ => none, ∅⟩

/-- The frames held after a call: with those it has taken from the allocator, without those it has
given back. A call does only one of the two. -/
def ownedAfter (owned : Set ℕ) (s s' : Machine) : Set ℕ :=
  {f | (f ∈ owned ∨ (s.pmm.Free f ∧ ¬ s'.pmm.Free f)) ∧ ¬ (¬ s.pmm.Free f ∧ s'.pmm.Free f)}

/-- The effect of an operation on the pagemap whose PML4 is in frame `r`. -/
def State.step (hh : Word) (r : ℕ) (σ : State) : Op → State
  | .map virtAddr physAddr flags =>
      let result := vmmMapPage hh σ.machine ⟨frameVirt hh r⟩ virtAddr physAddr flags
      { machine := result.2
        bindings :=
          if result.1 then
            Function.update σ.bindings (pageNumber virtAddr) (some (bindingOf physAddr flags))
          else σ.bindings
        owned := ownedAfter σ.owned σ.machine result.2 }
  | .unmap virtAddr =>
      let result := vmmUnmapPage hh σ.machine ⟨frameVirt hh r⟩ virtAddr
      { machine := result.2
        bindings :=
          if virtAddr % 4096#64 = 0#64 then Function.update σ.bindings (pageNumber virtAddr) none
          else σ.bindings
        owned := ownedAfter σ.owned σ.machine result.2 }
  | .allocate => { σ with machine := (allocatePage hh σ.machine).2 }
  | .free page => { σ with machine := σ.machine.freePage page }
  | .write mem => { σ with machine := { σ.machine with mem } }

theorem bindings_map_of_success {hh : Word} {r : ℕ} {σ : State} {virt phys flags : Word}
    (hok : (vmmMapPage hh σ.machine ⟨frameVirt hh r⟩ virt phys flags).1 = true) :
    (σ.step hh r (.map virt phys flags)).bindings =
      Function.update σ.bindings (pageNumber virt) (some (bindingOf phys flags)) :=
  if_pos hok

/-- The tables of the pagemap, the PML4 included. -/
def State.tables (hh : Word) (r : ℕ) (σ : State) : Set ℕ :=
  footprint (link hh σ.machine.mem) 3 r

/-- Other code does not free a table and does not write to one. -/
def State.Allowed (hh : Word) (r : ℕ) (σ : State) : Op → Prop
  | .free page => ∀ f ∈ σ.tables hh r, page ≠ frameAddr f
  | .write mem => ∀ f ∈ σ.tables hh r, SamePage hh σ.machine.mem mem f
  | _ => True

/-- The pages are bound as recorded, and the frames held are the tables below the PML4. -/
structure StateInv (hh : Word) (r : ℕ) (σ : State) : Prop where
  tables : TableInv hh σ.machine r
  owned : ∀ f, f ∈ σ.owned ↔ f ∈ below (link hh σ.machine.mem) 3 r
  unbound : ∀ v, σ.bindings (pageNumber v) = none →
    walk (link hh σ.machine.mem) r (pathOf v) = none
  bound : ∀ v b, σ.bindings (pageNumber v) = some b →
    ∃ es, walk (link hh σ.machine.mem) r (pathOf v) = some (es ++ [b.leaf], frameOf b.leaf)

section

variable {hh : Word} {r : ℕ} {σ : State}

theorem StateInv.initial {s : Machine} (h : EmptyPml4 hh s r) : StateInv hh r (State.initial s) := by
  have hnone : ∀ k, link hh s.mem r k = none := fun k => link_of_zero (h.zeroed k)
  refine ⟨h.tableInv, fun f => ?_, fun v _ => walk_cons_of_none (hnone _) _, ?_⟩
  · constructor
    · exact fun hf => absurd hf (Set.notMem_empty f)
    · rintro ⟨k, a, g, hk, -⟩
      have hk' : link hh s.mem r k = some (a, g) := hk
      rw [hnone k] at hk'
      exact absurd hk' (by simp)
  · intro v b hb
    exact absurd hb (by simp [State.initial])

/-- What other code may do to the machine without touching the pagemap. -/
structure Untouched (hh : Word) (s s' : Machine) (r : ℕ) : Prop where
  highest : s'.pmm.highestPage = s.pmm.highestPage
  zero_used : ¬ s'.pmm.Free 0
  used : ∀ f ∈ footprint (link hh s.mem) 3 r, ¬ s'.pmm.Free f
  same : ∀ f ∈ footprint (link hh s.mem) 3 r, SamePage hh s.mem s'.mem f

/-- Tables that other code leaves alone stay a pagemap. -/
theorem TableInv.untouched {s s' : Machine} (h : TableInv hh s r) (hother : Untouched hh s s' r) :
    TableInv hh s' r ∧ footprint (link hh s'.mem) 3 r = footprint (link hh s.mem) 3 r ∧
      ∀ q : List Index, q.length ≤ 4 → walk (link hh s'.mem) r q = walk (link hh s.mem) r q := by
  have hlink : ∀ f ∈ footprint (link hh s.mem) 3 r, link hh s'.mem f = link hh s.mem f :=
    fun f hf => link_congr (hother.same f hf)
  obtain ⟨hfoot, htree, hwalk⟩ := congr_footprint hlink
  refine ⟨⟨h.valid.of_free hother.highest hother.zero_used, h.root_lt, htree h.tree, ?_, ?_, ?_⟩,
    hfoot, hwalk⟩
  · rw [hfoot]
    exact hother.used
  · intro f hf
    have hne : f ≠ r := by
      rintro rfl
      exact (htree h.tree).not_mem_below hf
    have hold : f ∈ footprint (link hh s.mem) 3 r := hfoot ▸ Or.inr hf
    rw [hother.highest]
    exact h.managed f (hold.resolve_left hne)
  · exact allFormed_congr hother.same h.formed

theorem mem_below_iff {hh : Word} {m : Mem} (htree : IsTree (link hh m) 3 r) (f : ℕ) :
    f ∈ below (link hh m) 3 r ↔ f ∈ footprint (link hh m) 3 r ∧ f ≠ r := by
  constructor
  · intro hf
    refine ⟨Or.inr hf, ?_⟩
    rintro rfl
    exact htree.not_mem_below hf
  · exact fun hf => hf.1.resolve_left hf.2

theorem StateInv.untouched {s' : Machine} (h : StateInv hh r σ)
    (hother : Untouched hh σ.machine s' r) : StateInv hh r { σ with machine := s' } := by
  obtain ⟨hinv, hfoot, hwalk⟩ := h.tables.untouched hother
  refine ⟨hinv, fun f => ?_, fun v hv => ?_, fun v b hb => ?_⟩
  · rw [h.owned f, mem_below_iff h.tables.tree, mem_below_iff hinv.tree, hfoot]
  · rw [hwalk _ (pathOf_length v).le]
    exact h.unbound v hv
  · rw [hwalk _ (pathOf_length v).le]
    exact h.bound v b hb

theorem ownedAfter_growth {s' : Machine} (h : StateInv hh r σ) (hgrowth : Growth hh σ.machine s' r)
    (f : ℕ) : f ∈ ownedAfter σ.owned σ.machine s' ↔ f ∈ below (link hh s'.mem) 3 r := by
  have hfree := hgrowth.free f
  have hmono := @hgrowth.mono f
  have hused := hgrowth.inv.used f
  have hroot : r ∈ footprint (link hh σ.machine.mem) 3 r := mem_footprint_self _ r
  rw [mem_below_iff hgrowth.inv.tree]
  unfold ownedAfter
  rw [Set.mem_ofPred_eq, h.owned f, mem_below_iff h.tables.tree]
  by_cases hfr : f = r
  · subst hfr
    have hnot := h.tables.used f hroot
    simp [hnot]
  · generalize (f ∈ footprint (link hh σ.machine.mem) 3 r) = a at *
    generalize (f ∈ footprint (link hh s'.mem) 3 r) = b at *
    generalize σ.machine.pmm.Free f = c at *
    generalize s'.pmm.Free f = d at *
    tauto

theorem ownedAfter_shrunk {s' : Machine} (h : StateInv hh r σ) (hshrunk : Shrunk hh σ.machine s' r)
    (f : ℕ) : f ∈ ownedAfter σ.owned σ.machine s' ↔ f ∈ below (link hh s'.mem) 3 r := by
  have hfree := hshrunk.free f
  have hanti := @hshrunk.anti f
  have hused := h.tables.used f
  have hroot : r ∈ footprint (link hh s'.mem) 3 r := mem_footprint_self _ r
  rw [mem_below_iff hshrunk.inv.tree]
  unfold ownedAfter
  rw [Set.mem_ofPred_eq, h.owned f, mem_below_iff h.tables.tree]
  by_cases hfr : f = r
  · subst hfr
    have hnot := h.tables.used f (mem_footprint_self _ f)
    simp [hnot]
  · generalize (f ∈ footprint (link hh σ.machine.mem) 3 r) = a at *
    generalize (f ∈ footprint (link hh s'.mem) 3 r) = b at *
    generalize σ.machine.pmm.Free f = c at *
    generalize s'.pmm.Free f = d at *
    tauto

/-- A page is bound after a call if the call bound it, or left it alone. -/
theorem bound_update {s' : Machine} {virt : Word} (new : Option Binding) (h : StateInv hh r σ)
    (hpages : ∀ q : List Index, q.length = 4 → q ≠ pathOf virt →
      walk (link hh s'.mem) r q = walk (link hh σ.machine.mem) r q)
    (hunbound : new = none → walk (link hh s'.mem) r (pathOf virt) = none)
    (hbound : ∀ b, new = some b →
      ∃ es, walk (link hh s'.mem) r (pathOf virt) = some (es ++ [b.leaf], frameOf b.leaf)) :
    (∀ v, Function.update σ.bindings (pageNumber virt) new (pageNumber v) = none →
      walk (link hh s'.mem) r (pathOf v) = none) ∧
    ∀ v b, Function.update σ.bindings (pageNumber virt) new (pageNumber v) = some b →
      ∃ es, walk (link hh s'.mem) r (pathOf v) = some (es ++ [b.leaf], frameOf b.leaf) := by
  have hcases : ∀ v, (pathOf v = pathOf virt ∧ pageNumber v = pageNumber virt) ∨
      (pathOf v ≠ pathOf virt ∧ pageNumber v ≠ pageNumber virt) := by
    intro v
    by_cases hv : pageNumber v = pageNumber virt
    · exact Or.inl ⟨pathOf_eq_iff.mpr hv, hv⟩
    · exact Or.inr ⟨fun hpath => hv (pathOf_eq_iff.mp hpath), hv⟩
  refine ⟨fun v hv => ?_, fun v b hv => ?_⟩
  · rcases hcases v with ⟨hpath, hnum⟩ | ⟨hpath, hnum⟩
    · rw [hnum, Function.update_self] at hv
      rw [hpath]
      exact hunbound hv
    · rw [Function.update_of_ne hnum] at hv
      rw [hpages _ (pathOf_length v) hpath]
      exact h.unbound v hv
  · rcases hcases v with ⟨hpath, hnum⟩ | ⟨hpath, hnum⟩
    · rw [hnum, Function.update_self] at hv
      rw [hpath]
      exact hbound b hv
    · rw [Function.update_of_ne hnum] at hv
      rw [hpages _ (pathOf_length v) hpath]
      exact h.bound v b hv

theorem StateInv.map (h : StateInv hh r σ) (virt phys flags : Word) :
    StateInv hh r (σ.step hh r (.map virt phys flags)) := by
  unfold State.step
  dsimp only
  rcases vmmMapPage_cases h.tables virt phys flags with
    ⟨s', heq, -, -, hgrown⟩ | ⟨s₁, es, f, hgrown, -, hw, heq⟩
  · rw [heq]
    refine ⟨hgrown.inv, ownedAfter_growth h hgrown.toGrowth, fun v hv => ?_, fun v b hb => ?_⟩
    · rw [hgrown.pages _ (pathOf_length v)]
      exact h.unbound v (by simpa using hv)
    · rw [hgrown.pages _ (pathOf_length v)]
      exact h.bound v b (by simpa using hb)
  · have hmapped : Mapped hh σ.machine _ r virt phys flags := mapped_of_grown hgrown hw
    rw [heq]
    obtain ⟨es', hself, -, -⟩ := hmapped.walk_self
    obtain ⟨hunbound, hbound⟩ := bound_update (some (bindingOf phys flags)) h hmapped.pages
       (by simp) (by
        intro b hb
        obtain rfl := Option.some.inj hb
        rw [leaf_bindingOf]
        exact ⟨es', hself⟩)
    exact ⟨hmapped.inv, ownedAfter_growth h hmapped.toGrowth, hunbound, hbound⟩

theorem StateInv.unmap (h : StateInv hh r σ) (virt : Word) :
    StateInv hh r (σ.step hh r (.unmap virt)) := by
  unfold State.step
  dsimp only
  by_cases halign : virt % 4096#64 = 0#64
  · obtain ⟨s', heq, hunmapped⟩ := vmmUnmapPage_aligned h.tables halign
    rw [heq, if_pos halign]
    obtain ⟨hunbound, hbound⟩ := bound_update none h hunmapped.pages
      (fun _ => hunmapped.walk_self) (by simp)
    exact ⟨hunmapped.inv, ownedAfter_shrunk h hunmapped.toShrunk, hunbound, hbound⟩
  · rw [vmmUnmapPage_unaligned halign, if_neg halign]
    exact ⟨h.tables, ownedAfter_shrunk h (Shrunk.refl h.tables), h.unbound, h.bound⟩

theorem TableInv.untouched_allocate {s : Machine} (h : TableInv hh s r) :
    Untouched hh s (allocatePage hh s).2 r := by
  rcases allocatePage_cases hh s with ⟨heq, -⟩ | ⟨i, hfree, -, heq⟩
  · rw [heq]
    exact ⟨rfl, h.valid.zero_used, h.used, fun f _ => SamePage.refl hh _ f⟩
  · rw [heq]
    refine ⟨rfl, fun hnow => ?_, fun f hf hnow => ?_, fun f hf => ?_⟩
    · exact h.valid.zero_used ((free_take hh _ i 0).mp hnow).1
    · exact h.used f hf ((free_take hh _ i f).mp hnow).1
    · refine take_samePage (limit_of_lt (h.valid.lt_limit hfree.1))
        (limit_of_lt (footprint_lt h.root_lt hf)) ?_
      rintro rfl
      exact h.used f hf hfree

theorem TableInv.untouched_free {s : Machine} (h : TableInv hh s r) {page : Word}
    (hpage : ∀ f ∈ footprint (link hh s.mem) 3 r, page ≠ frameAddr f) :
    Untouched hh s (s.freePage page) r := by
  refine ⟨freePage_highestPage _ _, (h.valid.freePage page).zero_used, fun f hf hnow => ?_,
    fun f _ => SamePage.refl hh _ f⟩
  rcases free_freePage.mp hnow with hnow | ⟨haddr, -⟩
  · exact h.used f hf hnow
  · exact hpage f hf haddr

/-- What other code does between two calls leaves the pagemap untouched. -/
theorem StateInv.untouched_step (h : StateInv hh r σ) {op : Op} (hop : σ.Allowed hh r op)
    (hpage : op.page = none) : Untouched hh σ.machine (σ.step hh r op).machine r := by
  cases op with
  | map virt phys flags => exact absurd hpage (by simp [Op.page])
  | unmap virt => exact absurd hpage (by simp [Op.page])
  | allocate => exact h.tables.untouched_allocate
  | free page => exact h.tables.untouched_free hop
  | write mem => exact ⟨rfl, h.tables.valid.zero_used, h.tables.used, hop⟩

/-- Every allowed operation keeps the invariant. -/
theorem StateInv.step (h : StateInv hh r σ) (op : Op) (hop : σ.Allowed hh r op) :
    StateInv hh r (σ.step hh r op) := by
  cases op with
  | map virt phys flags => exact h.map virt phys flags
  | unmap virt => exact h.unmap virt
  | allocate => exact h.untouched (h.untouched_step hop rfl)
  | free page => exact h.untouched (h.untouched_step hop rfl)
  | write mem => exact h.untouched (h.untouched_step hop rfl)

/-- An operation changes neither the binding of another page nor the walk to it. -/
theorem StateInv.step_of_ne (h : StateInv hh r σ) {op : Op} (hop : σ.Allowed hh r op) {v : Word}
    (hpage : op.page ≠ some (pageNumber v)) :
    (σ.step hh r op).bindings (pageNumber v) = σ.bindings (pageNumber v) ∧
      walk (link hh (σ.step hh r op).machine.mem) r (pathOf v) =
        walk (link hh σ.machine.mem) r (pathOf v) := by
  have huntouched : op.page = none → walk (link hh (σ.step hh r op).machine.mem) r (pathOf v) =
      walk (link hh σ.machine.mem) r (pathOf v) := fun hnone =>
    (h.tables.untouched (h.untouched_step hop hnone)).2.2 _ (pathOf_length v).le
  cases op with
  | map virt phys flags =>
      have hne : pageNumber v ≠ pageNumber virt := fun heq => hpage (by rw [heq]; rfl)
      simp only [State.step]
      rcases vmmMapPage_cases h.tables virt phys flags with
        ⟨s', heq, -, -, hgrown⟩ | ⟨s₁, es, f, hgrown, -, hw, heq⟩
      · rw [heq]
        exact ⟨by simp, hgrown.pages _ (pathOf_length v)⟩
      · have hmapped : Mapped hh σ.machine _ r virt phys flags := mapped_of_grown hgrown hw
        rw [heq]
        refine ⟨by simp [Function.update_of_ne hne], hmapped.pages _ (pathOf_length v) ?_⟩
        exact fun hpath => hne (pathOf_eq_iff.mp hpath)
  | unmap virt =>
      have hne : pageNumber v ≠ pageNumber virt := fun heq => hpage (by rw [heq]; rfl)
      simp only [State.step]
      by_cases halign : virt % 4096#64 = 0#64
      · obtain ⟨s', heq, hunmapped⟩ := vmmUnmapPage_aligned h.tables halign
        rw [heq, if_pos halign, Function.update_of_ne hne]
        refine ⟨rfl, hunmapped.pages _ (pathOf_length v) ?_⟩
        exact fun hpath => hne (pathOf_eq_iff.mp hpath)
      · rw [vmmUnmapPage_unaligned halign, if_neg halign]
        exact ⟨rfl, rfl⟩
  | allocate => exact ⟨rfl, huntouched rfl⟩
  | free page => exact ⟨rfl, huntouched rfl⟩
  | write mem => exact ⟨rfl, huntouched rfl⟩

end

/-- Every state reached from an empty pagemap satisfies the invariant. -/
theorem stateInv_of_run {hh : Word} {r : ℕ} {s : Machine} {σ : State} (h : EmptyPml4 hh s r)
    (hrun : Transition.Run (State.step hh r) (State.Allowed hh r) (State.initial s) σ) :
    StateInv hh r σ :=
  hrun.invariant (StateInv.initial h) fun _ op hinv hop => hinv.step op hop

/-! ## A machine to start from -/

/-- Sixteen zeroed frames, of which frame 0 is reserved and frame 1 holds the PML4. -/
def freshMachine : Machine where
  pmm :=
    { memoryBitmap := fun i => if i = 0 then 0x03#8 else 0x00#8
      highestPage := 15
      usedPages := 2#64
      freePages := 14#64
      totalRamPages := 16#64 }
  mem := fun _ => 0#8

theorem freshMachine_emptyPml4 : EmptyPml4 directMap freshMachine 1 where
  valid := ⟨by decide, fun h => absurd h.2 (by decide), by decide⟩
  root_lt := by norm_num
  root_used := fun h => absurd h.2 (by decide)
  zeroed := fun index => entry_of_zero (fun _ _ => rfl) index

theorem freshMachine_card : 3 ≤ freshMachine.pmm.freeFrames.card := by decide

end Osiris.Vmm
