import Osiris.Verification.Vmm.History

/-! # Page tables refine a map from pages to frames -/

namespace Osiris.Vmm

open ByteMemory Strings Page Radix

/-- The arguments for which `vmm_map_page` is meant: a physical address of at most 52 bits, and
flags outside the address field. Other code keeps off the tables. -/
def State.Proper (hh : Word) (r : ℕ) (σ : State) : Op → Prop
  | .map _ physAddr flags => physAddr.toNat < 2 ^ 52 ∧ pteGetAddr flags = 0#64
  | op => σ.Allowed hh r op

theorem State.Proper.allowed {hh : Word} {r : ℕ} {σ : State} {op : Op} (h : σ.Proper hh r op) :
    σ.Allowed hh r op := by
  cases op with
  | map virt phys flags => trivial
  | unmap virt => trivial
  | allocate => trivial
  | free page => exact h
  | write mem => exact h

/-- A binding whose two fields can be read back from its leaf. -/
structure Binding.Proper (b : Binding) : Prop where
  addr : pteGetAddr b.leaf = b.frame
  flags : pteGetFlags b.leaf = b.flags

theorem Binding.proper_bindingOf {phys flags : Word} (hphys : phys.toNat < 2 ^ 52)
    (hflags : pteGetAddr flags = 0#64) : (bindingOf phys flags).Proper := by
  constructor
  · rw [leaf_bindingOf, pteGetAddr_leafOf hphys hflags]
    rfl
  · rw [leaf_bindingOf, pteGetFlags_leafOf hphys hflags]
    rfl

section

variable {hh : Word} {r : ℕ} {s : Machine} {σ : State}

theorem bindings_proper
    (hrun : Transition.Run (State.step hh r) (State.Proper hh r) (State.initial s) σ) :
    ∀ page b, σ.bindings page = some b → b.Proper := by
  refine hrun.invariant (I := fun σ => ∀ page b, σ.bindings page = some b → b.Proper) ?_ ?_
  · intro page b hb
    exact absurd hb (by simp [State.initial])
  · intro σ op ih hop page b hb
    cases op with
    | map virt phys flags =>
        simp only [State.step] at hb
        split at hb
        · by_cases hpage : page = pageNumber virt
          · subst hpage
            rw [Function.update_self, Option.some.injEq] at hb
            exact hb ▸ Binding.proper_bindingOf hop.1 hop.2
          · rw [Function.update_of_ne hpage] at hb
            exact ih page b hb
        · exact ih page b hb
    | unmap virt =>
        simp only [State.step] at hb
        split at hb
        · by_cases hpage : page = pageNumber virt
          · subst hpage
            rw [Function.update_self] at hb
            exact absurd hb (by simp)
          · rw [Function.update_of_ne hpage] at hb
            exact ih page b hb
        · exact ih page b hb
    | allocate => exact ih page b hb
    | free freed => exact ih page b hb
    | write mem => exact ih page b hb

/-- What the hardware finds for an address is what the history recorded for its page. -/
theorem StateInv.leafEntry_eq (h : StateInv hh r σ) (v : Word) :
    leafEntry hh σ.machine.mem r v = (σ.bindings (pageNumber v)).map Binding.leaf := by
  unfold leafEntry
  cases hb : σ.bindings (pageNumber v) with
  | none =>
      rw [h.unbound v hb]
      rfl
  | some b =>
      obtain ⟨es, hw⟩ := h.bound v b hb
      rw [hw]
      simp

theorem StateInv.vmmVirtToPhys_eq (h : StateInv hh r σ) (v : Word) :
    vmmVirtToPhys hh σ.machine ⟨frameVirt hh r⟩ v =
      match σ.bindings (pageNumber v) with
      | some b => pteGetAddr b.leaf + v % 4096#64
      | none => -1#64 := by
  rw [Vmm.vmmVirtToPhys_eq h.tables]
  cases hb : σ.bindings (pageNumber v) with
  | none => rw [h.unbound v hb]
  | some b =>
      obtain ⟨es, hw⟩ := h.bound v b hb
      simp only [hw, pteGetAddr_eq_frameAddr]

/-- Translation is lookup in the map that the history has built. -/
theorem StateInv.vmmVirtToPhys_lookup (h : StateInv hh r σ)
    (hproper : ∀ page b, σ.bindings page = some b → b.Proper) (v : Word) :
    vmmVirtToPhys hh σ.machine ⟨frameVirt hh r⟩ v =
      match σ.bindings (pageNumber v) with
      | some b => b.frame + v % 4096#64
      | none => -1#64 := by
  rw [h.vmmVirtToPhys_eq]
  cases hb : σ.bindings (pageNumber v) with
  | none => rfl
  | some b => simp only [(hproper _ b hb).addr]

/-- The leaves hold what the history has bound. -/
theorem StateInv.leafEntry_lookup (h : StateInv hh r σ)
    (hproper : ∀ page b, σ.bindings page = some b → b.Proper) (v : Word) :
    (leafEntry hh σ.machine.mem r v).map (fun e => (⟨pteGetAddr e, pteGetFlags e⟩ : Binding)) =
      σ.bindings (pageNumber v) := by
  rw [h.leafEntry_eq]
  cases hb : σ.bindings (pageNumber v) with
  | none => rfl
  | some b => simp only [Option.map_some, (hproper _ b hb).addr, (hproper _ b hb).flags]

theorem StateInv.vmmUnmapPage_returns (h : StateInv hh r σ) (v : Word) :
    (vmmUnmapPage hh σ.machine ⟨frameVirt hh r⟩ v).1 = decide (v % 4096#64 = 0#64) := by
  by_cases halign : v % 4096#64 = 0#64
  · obtain ⟨s', heq, -⟩ := vmmUnmapPage_aligned h.tables halign
    rw [heq]
    simp [halign]
  · rw [vmmUnmapPage_unaligned halign]
    simp [halign]

end

/-- After any history from a zeroed PML4, translation is lookup in the map that the history's
successful calls built, the leaves hold the flags of that map, and the next operation changes the
translation of no page but its own. -/
theorem page_tables_refine_map (hh : Word) (r : ℕ) (s : Machine) (σ : State)
    (hstart : EmptyPml4 hh s r)
    (hrun : Transition.Run (State.step hh r) (State.Proper hh r) (State.initial s) σ) :
    (∀ v, vmmVirtToPhys hh σ.machine ⟨frameVirt hh r⟩ v =
      match σ.bindings (pageNumber v) with
      | some b => b.frame + v % 4096#64
      | none => -1#64) ∧
    (∀ v, (leafEntry hh σ.machine.mem r v).map (fun e => (⟨pteGetAddr e, pteGetFlags e⟩ : Binding)) =
      σ.bindings (pageNumber v)) ∧
    (∀ v, (vmmUnmapPage hh σ.machine ⟨frameVirt hh r⟩ v).1 = decide (v % 4096#64 = 0#64)) ∧
    ∀ op, σ.Proper hh r op → ∀ v, op.page ≠ some (pageNumber v) →
      vmmVirtToPhys hh (σ.step hh r op).machine ⟨frameVirt hh r⟩ v =
        vmmVirtToPhys hh σ.machine ⟨frameVirt hh r⟩ v := by
  have hinv : StateInv hh r σ := stateInv_of_run hstart (hrun.weaken fun _ _ => State.Proper.allowed)
  have hproper := bindings_proper hrun
  refine ⟨hinv.vmmVirtToPhys_lookup hproper, hinv.leafEntry_lookup hproper,
    hinv.vmmUnmapPage_returns, fun op hop v hv => ?_⟩
  rw [(hinv.step op hop.allowed).vmmVirtToPhys_eq, hinv.vmmVirtToPhys_eq,
    (hinv.step_of_ne hop.allowed hv).1]

theorem page_tables_refine_map_freshMachine :
    vmmVirtToPhys directMap
      ((State.initial freshMachine).step directMap 1 (.map 0x1008#64 0x5678#64 pteNx)).machine
      ⟨frameVirt directMap 1⟩ 0x1234#64 = 0x5234#64 := by
  have hok := vmmMapPage_succeeds (s := (State.initial freshMachine).machine)
    freshMachine_emptyPml4.tableInv 0x1008#64 0x5678#64 pteNx freshMachine_card
  have hrun : Transition.Run (State.step directMap 1) (State.Proper directMap 1)
      (State.initial freshMachine)
      ((State.initial freshMachine).step directMap 1 (.map 0x1008#64 0x5678#64 pteNx)) :=
    .step .start ⟨by decide, by decide⟩
  have hbind : ((State.initial freshMachine).step directMap 1
      (.map 0x1008#64 0x5678#64 pteNx)).bindings (pageNumber 0x1234#64) =
        some (bindingOf 0x5678#64 pteNx) := by
    have hpage : pageNumber 0x1234#64 = pageNumber 0x1008#64 := by decide
    rw [bindings_map_of_success hok, hpage, Function.update_self]
  rw [(page_tables_refine_map directMap 1 freshMachine _ freshMachine_emptyPml4 hrun).1, hbind]
  decide

end Osiris.Vmm
