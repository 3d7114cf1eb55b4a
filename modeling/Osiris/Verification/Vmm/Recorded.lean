import Osiris.Verification.Vmm.Init

/-! # Pagemaps and the pages their calls have bound

Calls that have succeeded did so wherever the direct map puts the frames that are still free. -/

namespace Osiris.Vmm

open ByteMemory Strings Page Radix

/-- Translation is lookup in `bindings`, no table of the pagemap is at `NULL`, and the tables and the
frames that are still free are among `frames`. -/
structure Recorded (hh : Word) (r : ℕ) (frames : Set ℕ) (bindings : ℕ → Option Binding)
    (s : Machine) : Prop where
  nonnull : TablesNonnull hh s r
  inv : ∃ owned, StateInv 0#64 r ⟨physical hh s, bindings, owned⟩
  frames : ∀ g, g ∈ footprint (link 0#64 (physical hh s).mem) 3 r ∨ s.pmm.Free g → g ∈ frames

section

variable {hh : Word} {r : ℕ} {frames : Set ℕ} {bindings : ℕ → Option Binding} {s s' : Machine}

theorem recorded_clearPml4 (hs : (physical hh s).Valid 0#64) (hfree : s.pmm.Free r)
    (hnull : frameVirt hh r ≠ 0#64) :
    Recorded hh r {g | s.pmm.Free g} (fun _ => none) (clearPml4 hh s r) := by
  have hempty := clearPml4_emptyPml4 hs hfree
  have hfoot : footprint (link 0#64 (physical hh (clearPml4 hh s r)).mem) 3 r = {r} :=
    footprint_of_empty (fun k => link_of_zero (hempty.zeroed k)) 3
  refine ⟨fun g hg => ?_, ⟨∅, StateInv.initial hempty⟩, fun g hg => ?_⟩
  · rw [hfoot] at hg
    rw [Set.mem_singleton_iff.mp hg]
    exact hnull
  · rw [hfoot] at hg
    rcases hg with hroot | hfree'
    · rw [Set.mem_singleton_iff.mp hroot]
      exact hfree
    · exact ((free_take hh s r g).mp hfree').1

theorem Recorded.tables (h : Recorded hh r frames bindings s) : TableInv 0#64 (physical hh s) r := by
  obtain ⟨owned, hinv⟩ := h.inv
  exact hinv.tables

/-- The bitmap has a bit for every free frame. -/
theorem Recorded.free_lt (h : Recorded hh r frames bindings s) {f : ℕ} (hfree : s.pmm.Free f) :
    f < 2 ^ 23 := by
  have hlt : s.pmm.highestPage < pmmBitmapSize * 8 := h.tables.valid.capacity
  have hle := hfree.1
  unfold pmmBitmapSize at hlt
  omega

/-- A call that succeeds binds its page, with tables that are old or were free frames. -/
theorem Recorded.map (h : Recorded hh r frames bindings s) {virt phys flags : Word}
    (hok : vmmMapPage hh s ⟨frameVirt hh r⟩ virt phys flags = (true, s')) :
    Recorded hh r frames
        (Function.update bindings (pageNumber virt) (some (bindingOf phys flags))) s' ∧
      Growth 0#64 (physical hh s) (physical hh s') r := by
  obtain ⟨hok', hnonnull⟩ := vmmMapPage_physical_of_success h.tables h.nonnull hok
  have hgrowth := vmmMapPage_growth h.tables virt phys flags
  obtain ⟨owned, hinv⟩ := h.inv
  have hstep := hinv.map virt phys flags
  unfold State.step at hstep
  dsimp only at hstep
  rw [hok'] at hgrowth hstep
  exact ⟨⟨hnonnull, ⟨_, hstep⟩, fun g hg => h.frames g (hgrowth.table_or_free hg)⟩, hgrowth⟩

theorem recorded_keptByCalls :
    KeptByCalls hh ⟨frameVirt hh r⟩ (fun _ => True) fun calls s =>
      Recorded hh r frames (Loop.writeAll MapCall.page MapCall.binding calls fun _ => none) s := by
  intro calls s s' call _ h hok
  rw [Loop.writeAll_append]
  exact (h.map hok).1

/-- Other code leaves the pages bound as they are. -/
theorem Recorded.untouched (h : Recorded hh r frames bindings s)
    (hother : Untouched 0#64 (physical hh s) (physical hh s') r)
    (hfree : ∀ g, s'.pmm.Free g → s.pmm.Free g) : Recorded hh r frames bindings s' := by
  obtain ⟨-, hfoot, -⟩ := h.tables.untouched hother
  obtain ⟨owned, hinv⟩ := h.inv
  refine ⟨fun g hg => h.nonnull g ?_, ⟨owned, hinv.untouched hother⟩, fun g hg => h.frames g ?_⟩
  · rw [← hfoot]
    exact hg
  · rw [← hfoot]
    exact hg.imp_right (hfree g)

theorem Recorded.vmmVirtToPhys_eq (h : Recorded hh r frames bindings s) (v : Word) :
    vmmVirtToPhys hh s ⟨frameVirt hh r⟩ v =
      match bindings (pageNumber v) with
      | some b => pteGetAddr b.leaf + v % 4096#64
      | none => -1#64 := by
  obtain ⟨owned, hinv⟩ := h.inv
  rw [vmmVirtToPhys_physical h.tables h.nonnull]
  exact hinv.vmmVirtToPhys_eq v

/-- The page of an aligned address is bound to an aligned address. -/
theorem Recorded.translates (h : Recorded hh r frames bindings s) {v phys flags : Word}
    (hv : v.toNat % 4096 = 0) (hbound : bindings (pageNumber v) = some (bindingOf phys flags))
    (haligned : phys.toNat % 4096 = 0) (hphys : phys.toNat < 2 ^ 52)
    (hflags : pteGetAddr flags = 0#64) : vmmVirtToPhys hh s ⟨frameVirt hh r⟩ v = phys := by
  rw [h.vmmVirtToPhys_eq, hbound]
  dsimp only
  rw [leaf_bindingOf, pteGetAddr_leafOf hphys hflags, alignDown_of_aligned haligned,
    mod_of_aligned hv]
  exact BitVec.add_zero phys

/-- A page that is bound has its page table. -/
theorem Recorded.hasTable (h : Recorded hh r frames bindings s) {v : Word} {b : Binding}
    (hbound : bindings (pageNumber v) = some b) : HasTable hh s r (upperPath v) := by
  obtain ⟨owned, hinv⟩ := h.inv
  obtain ⟨es, hw⟩ := hinv.bound v b hbound
  rw [pathOf_eq_upperPath] at hw
  obtain ⟨es', f, a, hupper, -⟩ := walk_snoc_eq_some.mp hw
  exact ⟨es', f, hupper⟩

end

/-- What `vmm_init` leaves behind: its calls have been made, with tables in frames that were free. -/
theorem vmmInit_recorded {hh : Word} {kaddr : KernelAddress} {image : KernelSections}
    {entries : List MemmapEntry} {s : Machine} {space : AddressSpace}
    (hs : (physical hh s).Valid 0#64)
    (hok : vmmInit (some hh) (some kaddr) (some entries) image s = .ok space) :
    ∃ r, space.kernelPagemap = ⟨frameVirt hh r⟩ ∧
      Recorded hh r {g | s.pmm.Free g} (Loop.writeAll MapCall.page MapCall.binding
        (initCalls hh kaddr image entries) fun _ => none) space.machine := by
  obtain ⟨r, hfree, hnull, hpagemap, -, hcalls⟩ := vmmInit_calls hs hok
  exact ⟨r, hpagemap, hcalls _ _ recorded_keptByCalls (fun _ _ => trivial)
    (recorded_clearPml4 hs hfree hnull)⟩

end Osiris.Vmm
