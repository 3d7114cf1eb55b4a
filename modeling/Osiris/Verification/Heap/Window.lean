import Osiris.Verification.Heap.Init
import Osiris.Verification.Page.BootData
import Osiris.Verification.Vmm.Recorded

/-! # The pages that `heap_init` maps -/

namespace Osiris.Heap

open ByteMemory Strings Page Vmm Radix

/-! ## Free frames in order -/

theorem freeBelow_lt {pmm : Pmm} {f g : ℕ} (hf : pmm.Free f) (hlt : f < g) :
    pmm.freeBelow f < pmm.freeBelow g := by
  unfold Pmm.freeBelow
  apply Finset.card_lt_card
  rw [Finset.ssubset_iff_of_subset]
  · refine ⟨f, Finset.mem_filter.mpr ⟨mem_freeFrames.mpr hf, hlt⟩, fun hself => ?_⟩
    exact lt_irrefl f (Finset.mem_filter.mp hself).2
  · intro x hx
    obtain ⟨hfree, hxf⟩ := Finset.mem_filter.mp hx
    exact Finset.mem_filter.mpr ⟨hfree, hxf.trans hlt⟩

/-- A free frame is known by the number of free frames below it. -/
theorem freeBelow_injective {pmm : Pmm} {f g : ℕ} (hf : pmm.Free f) (hg : pmm.Free g)
    (hcount : pmm.freeBelow f = pmm.freeBelow g) : f = g := by
  rcases lt_trichotomy f g with hlt | heq | hgt
  · exact absurd hcount (freeBelow_lt hf hlt).ne
  · exact heq
  · exact absurd hcount (freeBelow_lt hg hgt).ne'

/-! ## The loop -/

/-- The tables of the pagemap, the PML4 included, as the frames they are in. -/
abbrev tableFrames (hh : Word) (s : Machine) (r : ℕ) : Set ℕ :=
  footprint (link 0#64 (physical hh s).mem) 3 r

/-- After `n` rounds that started from `s₀`, where the pages were bound as in `bindings₀`. -/
structure HeapRun (hh : Word) (r : ℕ) (frames : Set ℕ) (s₀ : Machine)
    (bindings₀ : ℕ → Option Binding) (n : ℕ) (s : Machine) (bindings : ℕ → Option Binding)
    (given : ℕ → ℕ) : Prop where
  recorded : Recorded hh r frames bindings s
  bound : ∀ i < n, bindings (pageNumber (heapPage i)) =
    some (bindingOf (frameAddr (given i)) memoryFlags)
  other : ∀ k, (∀ i < n, pageNumber (heapPage i) ≠ k) → bindings k = bindings₀ k
  free : ∀ g, s.pmm.Free g → s₀.pmm.Free g
  highest : s.pmm.highestPage = s₀.pmm.highestPage
  given_free : ∀ i < n, s₀.pmm.Free (given i)
  given_used : ∀ i < n, ¬ s.pmm.Free (given i) ∧ given i ∉ tableFrames hh s r
  distinct : ∀ i < n, ∀ j < n, given i = given j → i = j
  -- with the page table there from the start, every round takes one frame, the lowest
  ordered : (∃ i < initialHeapPages, ∃ b, bindings₀ (pageNumber (heapPage i)) = some b) →
    (∀ g, s.pmm.Free g → s.pmm.freeBelow g + n = s₀.pmm.freeBelow g) ∧
      ∀ i < n, s₀.pmm.freeBelow (given i) = i

section

variable {hh : Word} {r n : ℕ} {frames : Set ℕ} {s₀ s s' : Machine}
  {bindings₀ bindings : ℕ → Option Binding} {given : ℕ → ℕ}

theorem HeapRun.start (h : Recorded hh r frames bindings₀ s₀) (given : ℕ → ℕ) :
    HeapRun hh r frames s₀ bindings₀ 0 s₀ bindings₀ given where
  recorded := h
  bound := by simp
  other := fun _ _ => rfl
  free := fun _ hg => hg
  highest := rfl
  given_free := by simp
  given_used := by simp
  distinct := by simp
  ordered := fun _ => ⟨fun _ _ => rfl, by simp⟩

/-- Tables that are made leave a used frame alone. -/
theorem growth_used {x : ℕ} (hgrowth : Growth 0#64 (physical hh s) (physical hh s') r)
    (hused : ¬ s.pmm.Free x) (hx : x ∉ tableFrames hh s r) :
    ¬ s'.pmm.Free x ∧ x ∉ tableFrames hh s' r :=
  ⟨fun hnow => hused (hgrowth.free_of_free hnow),
    fun hnow => (hgrowth.table_or_free (.inl hnow)).elim hx hused⟩

/-- Where the page table is there, a call takes no frame. -/
theorem map_pmm_of_hasTable (h : Recorded hh r frames bindings s) {virt phys flags : Word}
    (htable : HasTable hh s r (upperPath virt))
    (hok : vmmMapPage hh s ⟨frameVirt hh r⟩ virt phys flags = (true, s')) : s'.pmm = s.pmm := by
  obtain ⟨es, f, hw⟩ := htable
  obtain ⟨hok', -⟩ := vmmMapPage_physical_of_success h.tables h.nonnull hok
  rw [vmmMapPage_of_table h.tables hw] at hok'
  exact (congrArg Machine.pmm (Prod.mk.inj hok').2).symm

/-- What a round does: it takes the lowest free frame and maps the page to it. -/
theorem heapInitPage_ok (hok : heapInitPage hh ⟨frameVirt hh r⟩ s n = .ok s') :
    ∃ g, s.pmm.Free g ∧ (∀ j < g, ¬ s.pmm.Free j) ∧ (allocatePage hh s).2 = s.take hh g ∧
      vmmMapPage hh (s.take hh g) ⟨frameVirt hh r⟩ (heapPage n) (frameAddr g) memoryFlags =
        (true, s') := by
  unfold heapInitPage at hok
  dsimp only at hok
  rcases allocatePage_cases hh s with ⟨heq, -⟩ | ⟨g, hfree, hmin, heq⟩
  · rw [heq] at hok
    cases hok
  · rw [heq] at hok
    dsimp only at hok
    split at hok
    · cases hok
    · split at hok
      · rename_i hmapped
        obtain rfl := Except.ok.inj hok
        exact ⟨g, hfree, hmin, by rw [heq], Prod.ext hmapped rfl⟩
      · cases hok

theorem HeapRun.step (h : HeapRun hh r frames s₀ bindings₀ n s bindings given)
    (hn : n < initialHeapPages) (hok : heapInitPage hh ⟨frameVirt hh r⟩ s n = .ok s') :
    ∃ g, HeapRun hh r frames s₀ bindings₀ (n + 1) s'
      (Function.update bindings (pageNumber (heapPage n))
        (some (bindingOf (frameAddr g) memoryFlags))) (Function.update given n g) := by
  obtain ⟨g, hfree, hmin, htake, hmap⟩ := heapInitPage_ok hok
  have huntouched := h.recorded.tables.untouched_allocate
  rw [allocatePage_physical, htake] at huntouched
  have hrecorded : Recorded hh r frames bindings (s.take hh g) :=
    h.recorded.untouched huntouched fun x hx => ((free_take hh s g x).mp hx).1
  have hfoot : tableFrames hh (s.take hh g) r = tableFrames hh s r :=
    (h.recorded.tables.untouched huntouched).2.1
  obtain ⟨hmapped, hgrowth⟩ := hrecorded.map hmap
  have hgiven_ne : ∀ i < n, given i ≠ g := by
    rintro i hi rfl
    exact (h.given_used i hi).1 hfree
  have hne : ∀ i < n, i ≠ n := fun i hi => hi.ne
  refine ⟨g, ⟨hmapped, fun i hi => ?_, fun k hk => ?_, fun x hx => ?_, ?_, fun i hi => ?_,
    fun i hi => ?_, fun i hi j hj heq => ?_, fun hshared => ?_⟩⟩
  · rcases Nat.lt_succ_iff_lt_or_eq.mp hi with hi | rfl
    · have hpage : pageNumber (heapPage i) ≠ pageNumber (heapPage n) := fun heq =>
        hi.ne (heapPage_injective (hi.trans hn) hn heq)
      rw [Function.update_of_ne hpage, Function.update_of_ne (hne i hi)]
      exact h.bound i hi
    · rw [Function.update_self, Function.update_self]
  · rw [Function.update_of_ne (hk n (Nat.lt_succ_self n)).symm]
    exact h.other k fun i hi => hk i (Nat.lt_succ_of_lt hi)
  · exact h.free x ((free_take hh s g x).mp (hgrowth.free_of_free hx)).1
  · exact (show s'.pmm.highestPage = s.pmm.highestPage from hgrowth.highest).trans h.highest
  · rcases Nat.lt_succ_iff_lt_or_eq.mp hi with hi | rfl
    · rw [Function.update_of_ne (hne i hi)]
      exact h.given_free i hi
    · rw [Function.update_self]
      exact h.free g hfree
  · rcases Nat.lt_succ_iff_lt_or_eq.mp hi with hi | rfl
    · rw [Function.update_of_ne (hne i hi)]
      obtain ⟨hused, hout⟩ := h.given_used i hi
      refine growth_used hgrowth (fun hnow => hused ((free_take hh s g _).mp hnow).1) ?_
      rw [hfoot]
      exact hout
    · rw [Function.update_self]
      refine growth_used hgrowth (fun hnow => ((free_take hh s g g).mp hnow).2 rfl) ?_
      rw [hfoot]
      exact fun hg => h.recorded.tables.used g hg hfree
  · rcases Nat.lt_succ_iff_lt_or_eq.mp hi with hi | rfl
    · rcases Nat.lt_succ_iff_lt_or_eq.mp hj with hj | rfl
      · rw [Function.update_of_ne (hne i hi), Function.update_of_ne (hne j hj)] at heq
        exact h.distinct i hi j hj heq
      · rw [Function.update_of_ne (hne i hi), Function.update_self] at heq
        exact absurd heq (hgiven_ne i hi)
    · rcases Nat.lt_succ_iff_lt_or_eq.mp hj with hj | rfl
      · rw [Function.update_of_ne (hne j hj), Function.update_self] at heq
        exact absurd heq.symm (hgiven_ne j hj)
      · rfl
  · obtain ⟨hcount, hgiven⟩ := h.ordered hshared
    have htable : HasTable hh (s.take hh g) r (upperPath (heapPage n)) := by
      obtain ⟨i, hi, b, hb⟩ := hshared
      rw [upperPath_heapPage hn, ← upperPath_heapPage hi]
      by_cases hold : i < n
      · exact hrecorded.hasTable (h.bound i hold)
      · refine hrecorded.hasTable ((h.other _ fun j hj heq => ?_).trans hb)
        exact hold (heapPage_injective (hj.trans hn) hi heq ▸ hj)
    have hpmm := map_pmm_of_hasTable hrecorded htable hmap
    refine ⟨fun x hx => ?_, fun i hi => ?_⟩
    · rw [hpmm] at hx ⊢
      obtain ⟨hx', hxg⟩ := (free_take hh s g x).mp hx
      have hgx : g < x := lt_of_le_of_ne (not_lt.mp fun hlt => hmin x hlt hx') hxg.symm
      have htaken := freeBelow_take hh hfree hgx
      have hbefore := hcount x hx'
      omega
    · rcases Nat.lt_succ_iff_lt_or_eq.mp hi with hi | rfl
      · rw [Function.update_of_ne (hne i hi)]
        exact hgiven i hi
      · rw [Function.update_self, ← hcount g hfree, freeBelow_lowest hmin, Nat.zero_add]

end

end Osiris.Heap
