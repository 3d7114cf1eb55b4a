import Osiris.Verification.Vmm.History

/-! # The frames of a pagemap -/

namespace Osiris.Vmm

open ByteMemory Strings Page Radix

/-- `f` holds a table that is linked `level` links below the PML4. -/
def TableAt (hh : Word) (m : Mem) (r level f : ℕ) : Prop :=
  ∃ p es, p.length = level ∧ walk (link hh m) r p = some (es, f)

section

variable {hh : Word} {s : Machine} {r level f : ℕ}

theorem tableAt_zero {m : Mem} : TableAt hh m r 0 f ↔ f = r := by
  constructor
  · intro h
    obtain ⟨p, es, hlen, hw⟩ := h
    rw [List.length_eq_zero_iff.mp hlen, walk_nil, Option.some.injEq, Prod.mk.injEq] at hw
    exact hw.2.symm
  · intro h
    exact ⟨[], [], rfl, by rw [h, walk_nil]⟩

/-- The tables below the PML4 are those linked one to three levels down. -/
theorem mem_below_iff_tableAt (h : TableInv hh s r) :
    f ∈ below (link hh s.mem) 3 r ↔ ∃ level, 1 ≤ level ∧ level ≤ 3 ∧ TableAt hh s.mem r level f := by
  rw [mem_below_iff h.tree]
  constructor
  · intro hf
    obtain ⟨p, es, hlen, hw⟩ := exists_walk_of_mem hf.1
    refine ⟨p.length, ?_, hlen, p, es, rfl, hw⟩
    by_contra hshort
    have hzero : TableAt hh s.mem r 0 f := ⟨p, es, by omega, hw⟩
    exact hf.2 (tableAt_zero.mp hzero)
  · intro hf
    obtain ⟨level, hlo, hhi, p, es, hlen, hw⟩ := hf
    refine ⟨walk_mem_footprint (by omega) hw, fun hfr => ?_⟩
    subst hfr
    have hnil := walk_unique (q := []) h.tree (by omega) (Nat.zero_le 3) hw (walk_nil f)
    rw [hnil, List.length_nil] at hlen
    omega

theorem TableInv.entry_formed (h : TableInv hh s r) (hlevel : level ≤ 3)
    (ht : TableAt hh s.mem r level f) (index : Index) :
    entry hh s.mem f index = 0#64 ∨ HasFlag (entry hh s.mem f index) ptePresent := by
  obtain ⟨p, es, rfl, hw⟩ := ht
  rcases h.formed p es f hlevel hw index with hzero | hpresent
  · exact Or.inl hzero
  · exact Or.inr hpresent.1

/-- A present entry above the page tables links a table one level further down. -/
theorem TableAt.next (ht : TableAt hh s.mem r level f) {index : Index}
    (hpresent : HasFlag (entry hh s.mem f index) ptePresent) :
    TableAt hh s.mem r (level + 1) (frameOf (entry hh s.mem f index)) := by
  obtain ⟨p, es, rfl, hw⟩ := ht
  exact ⟨p ++ [index], _, by simp, walk_snoc hw (link_of_present hpresent)⟩

theorem TableInv.marked_used (h : TableInv hh s r) (hf : f ∈ below (link hh s.mem) 3 r) :
    f ≤ s.pmm.highestPage ∧ s.pmm.memoryBitmap.get f = true := by
  have hle := (h.managed f hf).1
  refine ⟨hle, ?_⟩
  by_contra hclear
  exact h.used f (Or.inr hf) ⟨hle, by simpa using hclear⟩

/-- A table has one level and is linked by one entry. -/
theorem TableInv.linked_once (h : TableInv hh s r) {level' f' : ℕ} {index index' : Index}
    (hlevel : level ≤ 2) (hlevel' : level' ≤ 2) (ht : TableAt hh s.mem r level f)
    (ht' : TableAt hh s.mem r level' f')
    (hpresent : HasFlag (entry hh s.mem f index) ptePresent)
    (hpresent' : HasFlag (entry hh s.mem f' index') ptePresent)
    (hsame : frameOf (entry hh s.mem f index) = frameOf (entry hh s.mem f' index')) :
    f = f' ∧ index = index' := by
  obtain ⟨p, es, rfl, hw⟩ := ht
  obtain ⟨p', es', rfl, hw'⟩ := ht'
  have hlong := walk_snoc hw (link_of_present hpresent)
  have hlong' := walk_snoc hw' (link_of_present hpresent')
  rw [← hsame] at hlong'
  have hpath := walk_unique h.tree (by simp; omega) (by simp; omega) hlong hlong'
  obtain ⟨rfl, hindex⟩ := List.append_inj' hpath rfl
  rw [hw] at hw'
  exact ⟨(Prod.mk.inj (Option.some.inj hw')).2, by simpa using hindex⟩

end

/-- After any history from a zeroed PML4, whatever other code does with its own frames: links lead
to used frames, no table is linked twice or found at two levels, entries are empty or present, and
the frames the calls hold are exactly the tables below the PML4. -/
theorem table_frames_form_tree (hh : Word) (r : ℕ) (s : Machine) (σ : State)
    (hstart : EmptyPml4 hh s r)
    (hrun : Transition.Run (State.step hh r) (State.Allowed hh r) (State.initial s) σ) :
    (∀ level f index, level ≤ 2 → TableAt hh σ.machine.mem r level f →
      HasFlag (entry hh σ.machine.mem f index) ptePresent →
        frameOf (entry hh σ.machine.mem f index) ≤ σ.machine.pmm.highestPage ∧
          σ.machine.pmm.memoryBitmap.get (frameOf (entry hh σ.machine.mem f index)) = true) ∧
    (∀ level level' f f' index index', level ≤ 2 → level' ≤ 2 →
      TableAt hh σ.machine.mem r level f → TableAt hh σ.machine.mem r level' f' →
      HasFlag (entry hh σ.machine.mem f index) ptePresent →
      HasFlag (entry hh σ.machine.mem f' index') ptePresent →
      frameOf (entry hh σ.machine.mem f index) = frameOf (entry hh σ.machine.mem f' index') →
        f = f' ∧ index = index') ∧
    (∀ level level' f, level ≤ 3 → level' ≤ 3 → TableAt hh σ.machine.mem r level f →
      TableAt hh σ.machine.mem r level' f → level = level') ∧
    (∀ level f index, level ≤ 3 → TableAt hh σ.machine.mem r level f →
      entry hh σ.machine.mem f index = 0#64 ∨
        HasFlag (entry hh σ.machine.mem f index) ptePresent) ∧
    σ.owned = {f | ∃ level, 1 ≤ level ∧ level ≤ 3 ∧ TableAt hh σ.machine.mem r level f} := by
  have hinv : StateInv hh r σ := stateInv_of_run hstart hrun
  have htables := hinv.tables
  refine ⟨?_, ?_, ?_, ?_, ?_⟩
  · intro level f index hlevel ht hpresent
    refine htables.marked_used ((mem_below_iff_tableAt htables).mpr ?_)
    exact ⟨level + 1, by omega, by omega, ht.next hpresent⟩
  · intro level level' f f' index index' hlevel hlevel' ht ht' hpresent hpresent' hsame
    exact htables.linked_once hlevel hlevel' ht ht' hpresent hpresent' hsame
  · intro level level' f hlevel hlevel' ht ht'
    obtain ⟨p, es, rfl, hw⟩ := ht
    obtain ⟨p', es', rfl, hw'⟩ := ht'
    rw [walk_unique htables.tree hlevel hlevel' hw hw']
  · intro level f index hlevel ht
    exact htables.entry_formed hlevel ht index
  · ext f
    rw [hinv.owned f]
    exact mem_below_iff_tableAt htables

theorem table_frames_form_tree_freshMachine :
    ∃ f, f ∈ ((State.initial freshMachine).step directMap 1
      (.map 0x1008#64 0x5678#64 pteNx)).owned := by
  have hok := vmmMapPage_succeeds (s := (State.initial freshMachine).machine)
    freshMachine_emptyPml4.tableInv 0x1008#64 0x5678#64 pteNx freshMachine_card
  have hrun : Transition.Run (State.step directMap 1) (State.Allowed directMap 1)
      (State.initial freshMachine)
      ((State.initial freshMachine).step directMap 1 (.map 0x1008#64 0x5678#64 pteNx)) :=
    .step .start trivial
  obtain ⟨es, hw⟩ := (stateInv_of_run freshMachine_emptyPml4 hrun).bound 0x1008#64
    (bindingOf 0x5678#64 pteNx) (by rw [bindings_map_of_success hok, Function.update_self])
  obtain ⟨a, g, es', hlink, -, -⟩ := walk_cons_eq_some.mp hw
  rw [(table_frames_form_tree directMap 1 freshMachine _ freshMachine_emptyPml4 hrun).2.2.2.2]
  exact ⟨g, 1, le_rfl, by norm_num, [_], [a], rfl, walk_snoc (p := []) (walk_nil 1) hlink⟩

end Osiris.Vmm
