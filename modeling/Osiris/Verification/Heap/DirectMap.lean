import Osiris.Verification.Heap.Window
import Osiris.Verification.Vmm.DirectMap

/-! # The heap and the direct map

The heap has a fixed place, and the direct map reaches as far up as the memory map does. -/

namespace Osiris.Heap

open ByteMemory Strings Page Vmm Radix

/-! ## The first free block, and the tables -/

section Stores

variable {hh : Word} {r : ℕ} {s : Machine}

theorem toNat_frameVirt_mod (halign : hh.toNat % 4096 = 0) (g : ℕ) :
    (frameVirt hh g).toNat % 4096 = 0 := by
  unfold frameVirt frameAddr
  rw [BitVec.toNat_add, BitVec.toNat_ofNat]
  omega

theorem apart_aligned {a b : Word} (ha : a.toNat % 8 = 0) (hb : b.toNat % 8 = 0) (hne : a ≠ b) :
    Apart a 8 b 8 := by
  intro x hxa hxb
  refine hne (BitVec.eq_of_toNat_eq ?_)
  unfold InRange at hxa hxb
  rw [BitVec.toNat_sub] at hxa hxb
  omega

theorem toNat_entry_mod (halign : hh.toNat % 4096 = 0) (g : ℕ) (index : Index) :
    (frameVirt hh g + BitVec.ofNat 64 (8 * index)).toNat % 4096 = 8 * index := by
  have hframe := toNat_frameVirt_mod halign g
  have hindex := index.isLt
  rw [BitVec.toNat_add, BitVec.toNat_ofNat]
  omega

/-- The header of the first free block changes an entry only of a table in its place, and the entry
is not present then. -/
theorem entry_freshHeap (halign : hh.toNat % 4096 = 0) (g : ℕ) (index : Index) :
    entry hh (freshHeap s).mem g index = entry hh s.mem g index ∨
      ¬ HasFlag (entry hh (freshHeap s).mem g index) ptePresent ∧
        frameVirt hh g = kernelHeapStart := by
  have hmod := toNat_entry_mod halign g index
  have hframe := toNat_frameVirt_mod halign g
  have hindex := index.isLt
  have hstart : kernelHeapStart.toNat = 0xFFFF810000000000 := by decide
  have hnext : (kernelHeapStart + 8#64).toNat = 0xFFFF810000000008 := by decide
  have hplace : ∀ a : Word, frameVirt hh g + BitVec.ofNat 64 (8 * index) = a →
      0xFFFF810000000000 ≤ a.toNat → a.toNat < 0xFFFF810000001000 →
        frameVirt hh g = kernelHeapStart := by
    intro a ha hle hlt
    apply BitVec.eq_of_toNat_eq
    have hnat := congrArg BitVec.toNat ha
    rw [BitVec.toNat_add, BitVec.toNat_ofNat] at hnat
    omega
  have hentry : entry hh (freshHeap s).mem g index = load64
      (store64 (store64 s.mem kernelHeapStart kernelHeapInitialSize) (kernelHeapStart + 8#64) 0#64)
      (frameVirt hh g + BitVec.ofNat 64 (8 * index)) := rfl
  by_cases hsecond : frameVirt hh g + BitVec.ofNat 64 (8 * index) = kernelHeapStart + 8#64
  · right
    refine ⟨?_, hplace _ hsecond (by omega) (by omega)⟩
    rw [hentry, hsecond, load64_store64_same]
    exact not_hasFlag_zero _
  · rw [load64_store64_apart _ _ _ _ (apart_aligned (by omega) (by omega) hsecond)] at hentry
    by_cases hfirst : frameVirt hh g + BitVec.ofNat 64 (8 * index) = kernelHeapStart
    · right
      refine ⟨?_, hplace _ hfirst (by omega) (by omega)⟩
      rw [hentry, hfirst, load64_store64_same]
      decide
    · left
      rw [hentry, load64_store64_apart _ _ _ _ (apart_aligned (by omega) (by omega) hfirst)]
      rfl

theorem link_freshHeap (halign : hh.toNat % 4096 = 0) (g : ℕ) (index : Index) (edge : Word × ℕ)
    (hlink : link hh (freshHeap s).mem g index = some edge) :
    link hh s.mem g index = some edge := by
  rcases entry_freshHeap (s := s) halign g index with hsame | ⟨habsent, -⟩
  · unfold link at hlink ⊢
    rw [hsame] at hlink
    exact hlink
  · rw [link_of_not_present habsent] at hlink
    cases hlink

variable {frames : Set ℕ} {bindings : ℕ → Option Binding}

/-- The header unmaps pages at worst. -/
theorem vmmVirtToPhys_freshHeap (halign : hh.toNat % 4096 = 0)
    (h : Recorded hh r frames bindings s) (v : Word) :
    vmmVirtToPhys hh (freshHeap s).toMachine ⟨frameVirt hh r⟩ v =
        vmmVirtToPhys hh s ⟨frameVirt hh r⟩ v ∨
      vmmVirtToPhys hh (freshHeap s).toMachine ⟨frameVirt hh r⟩ v = -1#64 := by
  have hnull : ∀ g ∈ below (link hh s.mem) 3 r, frameVirt hh g ≠ 0#64 := by
    intro g hg
    rw [← link_shift] at hg
    exact h.nonnull g (.inr hg)
  have hless := link_freshHeap (s := s) halign
  have hnull' : ∀ g ∈ below (link hh (freshHeap s).mem) 3 r, frameVirt hh g ≠ 0#64 :=
    fun g hg => hnull g (below_of_subset hless 3 r hg)
  rw [vmmVirtToPhys_of_nonnull (s := (freshHeap s).toMachine) hnull', vmmVirtToPhys_of_nonnull hnull]
  cases hw : walk (link hh (freshHeap s).mem) r (pathOf v) with
  | none => exact .inr rfl
  | some found =>
      rw [walk_of_subset hless hw]
      exact .inl rfl

theorem recorded_freshHeap (halign : hh.toNat % 4096 = 0) (h : Recorded hh r frames bindings s)
    (hplace : ∀ g ∈ tableFrames hh s r, frameVirt hh g ≠ kernelHeapStart) :
    Recorded hh r frames bindings (freshHeap s).toMachine ∧
      tableFrames hh (freshHeap s).toMachine r = tableFrames hh s r := by
  have huntouched : Untouched 0#64 (physical hh s) (physical hh (freshHeap s).toMachine) r := by
    refine ⟨rfl, h.tables.valid.zero_used, h.tables.used, fun g hg => ?_⟩
    refine samePage_of_entry_eq fun index => ?_
    refine (entry_shift hh _ g index).trans (Eq.trans ?_ (entry_shift hh _ g index).symm)
    exact (entry_freshHeap halign g index).resolve_right fun hboth => hplace g hg hboth.2
  exact ⟨h.untouched huntouched fun g hg => hg, (h.tables.untouched huntouched).2.1⟩

end Stores

/-! ## Pages in the window of the heap -/

/-- A page of memory that the direct map has in the window of the heap is the frame that its page of
the heap gets, and another one has not been overruled. -/
def PageKept (hh : Word) (entries : List MemmapEntry) (pmm : Pmm) (p : Word) : Prop :=
  (∀ i < initialHeapPages, pageNumber (heapPage i) = pageNumber (p + hh) →
    ∃ f, pmm.Free f ∧ pmm.freeBelow f = i ∧ p = frameAddr f) ∧
  ((∀ i < initialHeapPages, pageNumber (heapPage i) ≠ pageNumber (p + hh)) →
    NotOverruled hh entries p)

section Window

variable {hh : Word} {r : ℕ} {frames : Set ℕ} {s₀ s : Machine} {bindings₀ bindings : ℕ → Option Binding}
  {given : ℕ → ℕ} {entries : List MemmapEntry} {p : Word}

theorem HeapRun.given_lt {n i : ℕ} (h : HeapRun hh r frames s₀ bindings₀ n s bindings given)
    (hi : i < n) : given i < 2 ^ 40 := by
  have hle := (h.given_free i hi).1
  rw [← h.highest] at hle
  exact h.recorded.tables.valid.lt_limit hle

theorem HeapRun.translates_heapPage {s' : Machine}
    (h : HeapRun hh r frames s₀ bindings₀ initialHeapPages s bindings given)
    (hrecorded : Recorded hh r frames bindings s') {i : ℕ} (hi : i < initialHeapPages) :
    vmmVirtToPhys hh s' ⟨frameVirt hh r⟩ (heapPage i) = frameAddr (given i) := by
  have hlt := h.given_lt hi
  have hnat : (frameAddr (given i)).toNat = given i * 4096 := toNat_frameAddr (limit_of_lt hlt)
  refine hrecorded.translates ?_ (h.bound i hi) ?_ ?_ memoryFlags_proper
  · rw [toNat_heapPage hi]
    omega
  · rw [hnat]
    omega
  · rw [hnat]
    omega

/-- After the loop of `heap_init` the direct map has a page exactly when it has not been displaced. -/
theorem HeapRun.direct_iff (halign : hh.toNat % 4096 = 0)
    (h : HeapRun hh r frames s₀ bindings₀ initialHeapPages s bindings given) (hp : p.toNat % 4096 = 0)
    (hdirect : ∃ q : Word, (q = p ↔ NotOverruled hh entries p) ∧ q.toNat % 4096 = 0 ∧
      q.toNat < 2 ^ 46 ∧ bindings₀ (pageNumber (p + hh)) = some (bindingOf q memoryFlags)) :
    vmmVirtToPhys hh s ⟨frameVirt hh r⟩ (p + hh) = p ↔ PageKept hh entries s₀.pmm p := by
  obtain ⟨q, hq, haligned, hlt, hbound₀⟩ := hdirect
  have hvirt : (p + hh).toNat % 4096 = 0 := by
    rw [BitVec.toNat_add]
    omega
  by_cases hwindow : ∃ i < initialHeapPages, pageNumber (heapPage i) = pageNumber (p + hh)
  · obtain ⟨i, hi, hpage⟩ := hwindow
    have hnat : (frameAddr (given i)).toNat = given i * 4096 :=
      toNat_frameAddr (limit_of_lt (h.given_lt hi))
    have hgiven_lt := h.given_lt hi
    have htranslate : vmmVirtToPhys hh s ⟨frameVirt hh r⟩ (p + hh) = frameAddr (given i) := by
      refine h.recorded.translates hvirt ((congrArg bindings hpage.symm).trans (h.bound i hi)) ?_ ?_
        memoryFlags_proper
      · rw [hnat]
        omega
      · rw [hnat]
        omega
    have hcount := (h.ordered ⟨i, hi, _, (congrArg bindings₀ hpage).trans hbound₀⟩).2 i hi
    rw [htranslate]
    constructor
    · intro heq
      refine ⟨fun j hj hpage' => ?_, fun hout => absurd hpage (hout i hi)⟩
      obtain rfl := heapPage_injective hi hj (hpage.trans hpage'.symm)
      exact ⟨given i, h.given_free i hi, hcount, heq.symm⟩
    · intro hkept
      obtain ⟨f, hfree, hbelow, rfl⟩ := hkept.1 i hi hpage
      rw [freeBelow_injective hfree (h.given_free i hi) (hbelow.trans hcount.symm)]
  · have hout : ∀ i < initialHeapPages, pageNumber (heapPage i) ≠ pageNumber (p + hh) :=
      fun i hi hpage => hwindow ⟨i, hi, hpage⟩
    have hbound : bindings (pageNumber (p + hh)) = some (bindingOf q memoryFlags) :=
      (h.other _ hout).trans hbound₀
    rw [h.recorded.translates hvirt hbound haligned (by omega) memoryFlags_proper, hq]
    exact ⟨fun hkept => ⟨fun i hi hpage => absurd hpage (hout i hi), fun _ => hkept⟩,
      fun hkept => hkept.2 hout⟩

end Window

/-! ## `heap_init` -/

/-- Every whole page of memory is found in the direct map. -/
def DirectMapKept (hh : Word) (entries : List MemmapEntry) (s : Machine) (pagemap : Pagemap) :
    Prop :=
  ∀ entry ∈ entries, ∀ p, WholePage entry p → vmmVirtToPhys hh s pagemap (p + hh) = p

/-- The frames that the tables of a pagemap are in, with that of the PML4. -/
def pagemapFrames (hh : Word) (m : Mem) (pagemap : Pagemap) : Set ℕ :=
  footprint (link hh m) 3 ((pagemap.topLevel - hh).toNat / 4096)

/-- The first pages of the heap translate to frames of their own, which are marked as used and hold
no tables. -/
def HeapPagesMapped (hh : Word) (s : Machine) (pagemap : Pagemap) : Prop :=
  ∃ frame : ℕ → ℕ,
    (∀ i < initialHeapPages, ∀ j < initialHeapPages, frame i = frame j → i = j) ∧
    ∀ i < initialHeapPages, vmmVirtToPhys hh s pagemap (heapPage i) = frameAddr (frame i) ∧
      frame i ≤ s.pmm.highestPage ∧ s.pmm.memoryBitmap.get (frame i) = true ∧
      frame i ∉ pagemapFrames hh s.mem pagemap

theorem pagemapFrames_eq {hh : Word} {s : Machine} {r : ℕ} (hr : r < 2 ^ 40) :
    pagemapFrames hh s.mem ⟨frameVirt hh r⟩ = tableFrames hh s r := by
  have hroot : (frameVirt hh r - hh).toNat / 4096 = r := by
    unfold frameVirt
    rw [add_sub_cancel_right, toNat_frameAddr (limit_of_lt hr)]
    omega
  unfold pagemapFrames tableFrames
  rw [hroot]
  exact congrArg (fun S => footprint S 3 r) (link_shift hh s.mem).symm

theorem heapInit_run {hh : Word} {r : ℕ} {frames : Set ℕ} {bindings₀ : ℕ → Option Binding}
    {boot h : KernelHeap} (hrecorded : Recorded hh r frames bindings₀ boot.toMachine)
    (hstart : boot.heapStart = 0#64) (hinit : heapInit hh ⟨frameVirt hh r⟩ boot = .ok h) :
    ∃ s bindings given,
      HeapRun hh r frames boot.toMachine bindings₀ initialHeapPages s bindings given ∧
        h = freshHeap s := by
  obtain ⟨s, hloop, hfresh⟩ := heapInit_ok hstart hinit
  obtain ⟨bindings, given, hrun⟩ := Loop.foldlM_range_inv
    (I := fun n s => ∃ bindings given, HeapRun hh r frames boot.toMachine bindings₀ n s bindings given)
    initialHeapPages ⟨bindings₀, fun _ => 0, HeapRun.start hrecorded _⟩
    (fun n hn s s' hI hok => by
      obtain ⟨bindings, given, hrun⟩ := hI
      obtain ⟨g, hstep⟩ := hrun.step hn hok
      exact ⟨_, _, hstep⟩) hloop
  exact ⟨s, bindings, given, hrun, hfresh⟩

section Boot

variable {hh : Word} {kaddr : KernelAddress} {image : KernelSections} {entries : List MemmapEntry}
  {mem : Mem} {pmm : Pmm} {space : AddressSpace} {boot h : KernelHeap}
  (halign : hh.toNat % 4096 = 0)
  (htop : ∀ entry ∈ entries, entry.base.toNat + entry.length.toNat < 2 ^ 46)
  (hpmm : pmmInit (some entries) (some kaddr) image.toKernelImage = .ok pmm)
  (hvmm : vmmInit (some hh) (some kaddr) (some entries) image ⟨pmm, mem⟩ = .ok space)
  (hboot : boot.toMachine = space.machine) (hstart : boot.heapStart = 0#64)
  (hinit : heapInit hh space.kernelPagemap boot = .ok h)

include halign htop hpmm hvmm hboot hstart hinit

/-- The machine before the header of the first free block is written. -/
theorem heapInit_cases :
    ∃ r s bindings₀ bindings given, space.kernelPagemap = ⟨frameVirt hh r⟩ ∧ h = freshHeap s ∧
      HeapRun hh r {g | (initTables entries kaddr image.toKernelImage).Free g} boot.toMachine
        bindings₀ initialHeapPages s bindings given ∧
      ∀ entry ∈ entries, ∀ p, WholePage entry p →
        (vmmVirtToPhys hh s ⟨frameVirt hh r⟩ (p + hh) = p ↔ PageKept hh entries boot.pmm p) := by
  obtain rfl := pmmInit_ok hpmm
  obtain ⟨r, hpagemap, hrecorded⟩ := vmmInit_recorded
    (valid_initTables entries kaddr image hh mem) hvmm
  rw [← hboot] at hrecorded
  rw [hpagemap] at hinit
  obtain ⟨s, bindings, given, hrun, hfresh⟩ := heapInit_run hrecorded hstart hinit
  exact ⟨r, s, _, bindings, given, hpagemap, hfresh, hrun, fun entry hentry p hp =>
    hrun.direct_iff halign hp.aligned (initCalls_direct halign htop ⟨entry, hentry, hp⟩ kaddr image)⟩

theorem pageKept_of_translates {entry : MemmapEntry} {p : Word} (hentry : entry ∈ entries)
    (hp : WholePage entry p)
    (hkept : vmmVirtToPhys hh h.toMachine space.kernelPagemap (p + hh) = p) :
    PageKept hh entries boot.pmm p := by
  obtain ⟨r, s, bindings₀, bindings, given, hpagemap, rfl, hrun, hdirect⟩ :=
    heapInit_cases halign htop hpmm hvmm hboot hstart hinit
  rw [hpagemap] at hkept
  refine (hdirect entry hentry p hp).mp ?_
  rcases vmmVirtToPhys_freshHeap halign hrun.recorded (p + hh) with hsame | hnone
  · exact hsame.symm.trans hkept
  · have hlt := hp.lt (htop entry hentry)
    rw [← hkept, hnone] at hlt
    exact absurd hlt (by decide)

theorem mapped_of_pageKept
    (hkept : ∀ entry ∈ entries, ∀ p, WholePage entry p → PageKept hh entries boot.pmm p) :
    DirectMapKept hh entries h.toMachine space.kernelPagemap ∧
      HeapPagesMapped hh h.toMachine space.kernelPagemap := by
  obtain ⟨r, s, bindings₀, bindings, given, hpagemap, rfl, hrun, hdirect⟩ :=
    heapInit_cases halign htop hpmm hvmm hboot hstart hinit
  rw [hpagemap]
  -- a table in the place of the heap would be the frame of the first page of the heap
  have hplace : ∀ g ∈ tableFrames hh s r, frameVirt hh g ≠ kernelHeapStart := by
    intro g hg heq
    obtain ⟨entry, hentry, hwhole⟩ := wholePage_of_free htop (hrun.recorded.frames g (.inl hg))
    have hself := (hdirect entry hentry (frameAddr g) hwhole).mpr (hkept entry hentry _ hwhole)
    rw [show frameAddr g + hh = heapPage 0 from heq.trans (BitVec.add_zero _).symm,
      hrun.translates_heapPage hrun.recorded (by decide)] at hself
    have hgiven : given 0 = g := frameAddr_inj (limit_of_lt (hrun.given_lt (by decide)))
      (limit_of_lt (footprint_lt hrun.recorded.tables.root_lt hg)) hself
    exact (hrun.given_used 0 (by decide)).2 (hgiven ▸ hg)
  obtain ⟨hfresh, hfoot⟩ := recorded_freshHeap halign hrun.recorded hplace
  have hsame : ∀ v, vmmVirtToPhys hh (freshHeap s).toMachine ⟨frameVirt hh r⟩ v =
      vmmVirtToPhys hh s ⟨frameVirt hh r⟩ v :=
    fun v => (hfresh.vmmVirtToPhys_eq v).trans (hrun.recorded.vmmVirtToPhys_eq v).symm
  refine ⟨fun entry hentry p hp => ?_, given, hrun.distinct, fun i hi => ?_⟩
  · rw [hsame]
    exact (hdirect entry hentry p hp).mpr (hkept entry hentry p hp)
  · obtain ⟨hused, hout⟩ := hrun.given_used i hi
    have hle : given i ≤ s.pmm.highestPage := by
      rw [hrun.highest]
      exact (hrun.given_free i hi).1
    refine ⟨hrun.translates_heapPage hfresh hi, hle, ?_, ?_⟩
    · change s.pmm.memoryBitmap.get (given i) = true
      by_contra hclear
      exact hused ⟨hle, by simpa using hclear⟩
    · rw [pagemapFrames_eq hfresh.tables.root_lt, hfoot]
      exact hout

end Boot

/-- `heap_init` leaves the direct map as it should be, and the heap has frames of its own, exactly
when no page of memory is displaced by a page of the heap or by a low page. -/
theorem heapInit_keeps_direct_map_iff {hh : Word} {kaddr : KernelAddress} {image : KernelSections}
    {entries : List MemmapEntry} {mem : Mem} {pmm : Pmm} {space : AddressSpace} {boot h : KernelHeap}
    (halign : hh.toNat % 4096 = 0)
    (htop : ∀ entry ∈ entries, entry.base.toNat + entry.length.toNat < 2 ^ 46)
    (hpmm : pmmInit (some entries) (some kaddr) image.toKernelImage = .ok pmm)
    (hvmm : vmmInit (some hh) (some kaddr) (some entries) image ⟨pmm, mem⟩ = .ok space)
    (hboot : boot.toMachine = space.machine) (hstart : boot.heapStart = 0#64)
    (hinit : heapInit hh space.kernelPagemap boot = .ok h) :
    DirectMapKept hh entries h.toMachine space.kernelPagemap ∧
        HeapPagesMapped hh h.toMachine space.kernelPagemap ↔
      ∀ entry ∈ entries, ∀ p, WholePage entry p → PageKept hh entries boot.pmm p := by
  constructor
  · rintro ⟨hkept, -⟩ entry hentry p hp
    exact pageKept_of_translates halign htop hpmm hvmm hboot hstart hinit hentry hp
      (hkept entry hentry p hp)
  · exact mapped_of_pageKept halign htop hpmm hvmm hboot hstart hinit

/-! ## Memory far up -/

/-- Two mebibytes of free memory, and one page that is not. -/
def farEntries (far : Word) : List MemmapEntry :=
  [⟨0x200000#64, 0x200000#64, .usable⟩, ⟨far, 0x1000#64, .other 1#64⟩]

/-- The machine after `pmm_init`, with the kernel above the free memory. -/
def farMachine (far : Word) : Machine :=
  ⟨initTables (farEntries far) (bootAddress 0x400000#64) bootImage.toKernelImage, fun _ => 0#8⟩

section Far

variable {far : Word}

theorem wholePage_farEntries {entry : MemmapEntry}
    (hentry : entry ∈ farEntries far) {p : Word} (hp : WholePage entry p) :
    0x200000 ≤ p.toNat ∧ p.toNat < 0x400000 ∨ p = far := by
  obtain ⟨-, hbase, htop⟩ := hp
  rcases List.mem_cons.mp hentry with rfl | hentry
  · norm_num at hbase htop
    omega
  · obtain rfl := List.mem_singleton.mp hentry
    norm_num at hbase htop
    exact .inr (BitVec.eq_of_toNat_eq (by omega))

theorem farEntries_top (hfar : far.toNat < 2 ^ 46 - 0x1000) :
    ∀ entry ∈ farEntries far, entry.base.toNat + entry.length.toNat < 2 ^ 46 := by
  intro entry hentry
  rcases List.mem_cons.mp hentry with rfl | hentry
  · decide
  · obtain rfl := List.mem_singleton.mp hentry
    norm_num
    omega

theorem farEntries_compact (hfar : far.toNat < 2 ^ 46 - 0x1000) :
    ∀ entry ∈ farEntries far, Compact directMap entry := by
  intro entry hentry
  refine ⟨farEntries_top hfar entry hentry, ?_⟩
  rcases List.mem_cons.mp hentry with rfl | hentry
  · refine ⟨upperPath (0x200000#64 + directMap), fun p hp => upperPath_eq ?_⟩
    obtain ⟨-, hbase, htop⟩ := hp
    norm_num at hbase htop
    unfold directMap
    rw [BitVec.toNat_add, BitVec.toNat_add, BitVec.toNat_ofNat, BitVec.toNat_ofNat]
    omega
  · obtain rfl := List.mem_singleton.mp hentry
    refine ⟨upperPath (far + directMap), fun p hp => ?_⟩
    obtain ⟨-, hbase, htop⟩ := hp
    norm_num at hbase htop
    rw [show p = far from BitVec.eq_of_toNat_eq (by omega)]

theorem farMachine_card (hhighest : 1024 ≤ clampedHighestPage (farEntries far)) :
    512 ≤ (farMachine far).pmm.freeFrames.card := by
  have hfree : ∀ f ∈ Finset.Ico 512 1024, (farMachine far).pmm.Free f := by
    intro f hf
    obtain ⟨hge, hlt⟩ := Finset.mem_Ico.mp hf
    refine ((initTables_spec _ _ _).2 f).mpr ⟨⟨⟨_, List.mem_cons_self, ?_⟩, by omega⟩,
      fun hmem => ?_, fun hmem => ?_, fun hmem => ?_⟩
    · rw [show entryPages ⟨0x200000#64, 0x200000#64, .usable⟩ = pageRange 512 1024 by
        decide +kernel]
      exact mem_pageRange.mpr ⟨hge, hlt⟩
    · have hfirst := (mem_pageRange.mp hmem).1
      have hstart : (kPhysStart (bootAddress 0x400000#64)).toNat / 4096 = 1024 := by decide +kernel
      omega
    · have hfirst := (mem_pageRange.mp hmem).1
      have hstart : (bitmapPhysStart (bootAddress 0x400000#64)
        bootImage.toKernelImage).toNat / 4096 = 1027 := by decide +kernel
      omega
    · have hlast := (mem_pageRange.mp hmem).2
      omega
  calc 512 = (Finset.Ico 512 1024).card := by rw [Nat.card_Ico]
    _ ≤ (farMachine far).pmm.freeFrames.card :=
      Finset.card_le_card fun f hf => mem_freeFrames.mpr (hfree f hf)

/-- `vmm_init` has enough memory, whatever is in it. -/
theorem farMachine_vmmInit (hfar : far.toNat < 2 ^ 46 - 0x1000)
    (hhighest : 1024 ≤ clampedHighestPage (farEntries far)) (mem : Mem) :
    ∃ space, vmmInit (some directMap) (some (bootAddress 0x400000#64)) (some (farEntries far))
        bootImage ⟨(farMachine far).pmm, mem⟩ = .ok space ∧
      initialHeapPages + 3 ≤ space.machine.pmm.freeFrames.card := by
  have hvalid : (physical directMap ⟨(farMachine far).pmm, mem⟩).Valid 0#64 :=
    valid_initTables (farEntries far) (bootAddress 0x400000#64) bootImage directMap mem
  have hvirtual : (bootAddress 0x400000#64).virtualBase.toNat % 4096 = 0 := by decide
  have hfits : FitsEntry (bootAddress 0x400000#64) bootImage := by
    unfold FitsEntry
    decide
  have hnull : ∀ g, (farMachine far).pmm.Free g → frameVirt directMap g ≠ 0#64 := by
    intro g hfree hzero
    obtain ⟨entry, hentry, hwhole⟩ := wholePage_of_free (farEntries_top hfar) hfree
    have hlt := hwhole.lt (farEntries_top hfar entry hentry)
    have hnat := congrArg BitVec.toNat hzero
    unfold frameVirt directMap at hnat
    rw [BitVec.toNat_add, BitVec.toNat_ofNat, BitVec.toNat_ofNat] at hnat
    omega
  have hcard : initialHeapPages + 3 + 4 + 6 * (farEntries far).length ≤
      (farMachine far).pmm.freeFrames.card := by
    have hfree := farMachine_card hhighest
    change 256 + 3 + 4 + 6 * 2 ≤ _
    omega
  exact vmmInit_succeeds hvalid hnull
    (fun v hv => kernel_upperPath ((mem_kernel_iff hvirtual).mp hv))
    (fun v hv => ⟨kernelCall_proper hfits ((mem_kernel_iff hvirtual).mp hv), fun _ _ => rfl⟩)
    (farEntries_compact hfar) hcard

/-- The machine boots as far as to its heap. -/
theorem farMachine_inits (hfar : far.toNat < 2 ^ 46 - 0x1000)
    (hhighest : 1024 ≤ clampedHighestPage (farEntries far)) :
    ∃ space h, vmmInit (some directMap) (some (bootAddress 0x400000#64)) (some (farEntries far))
        bootImage (farMachine far) = .ok space ∧
      heapInit directMap space.kernelPagemap ⟨space.machine, 0#64, 0#64, 0#64⟩ = .ok h := by
  obtain ⟨space, hvmm, hroom⟩ := farMachine_vmmInit hfar hhighest fun _ => 0#8
  obtain ⟨r, hpagemap, hrecorded⟩ := vmmInit_recorded (valid_initTables (farEntries far)
    (bootAddress 0x400000#64) bootImage directMap fun _ => 0#8) hvmm
  have hmachine : space.machine.Valid directMap :=
    valid_of_physical hrecorded.tables.valid (by decide +kernel)
  let boot : KernelHeap := ⟨space.machine, 0#64, 0#64, 0#64⟩
  have hinv : TableInv directMap boot.toMachine r := hrecorded.tables.of_physical hmachine
  obtain ⟨h, hheap⟩ := heapInit_succeeds hinv rfl hroom
  rw [← hpagemap] at hheap
  exact ⟨space, h, hvmm, hheap⟩

end Far

/-- A page at 2 GiB is far from the heap. -/
theorem heapInit_keeps_direct_map_iff_far :
    ∃ space h, vmmInit (some directMap) (some (bootAddress 0x400000#64))
        (some (farEntries 0x80000000#64)) bootImage (farMachine 0x80000000#64) = .ok space ∧
      heapInit directMap space.kernelPagemap ⟨space.machine, 0#64, 0#64, 0#64⟩ = .ok h ∧
      DirectMapKept directMap (farEntries 0x80000000#64) h.toMachine space.kernelPagemap ∧
      HeapPagesMapped directMap h.toMachine space.kernelPagemap := by
  have hfar : (0x80000000#64).toNat < 2 ^ 46 - 0x1000 := by decide
  obtain ⟨space, h, hvmm, hheap⟩ := farMachine_inits hfar (by decide +kernel)
  let boot : KernelHeap := ⟨space.machine, 0#64, 0#64, 0#64⟩
  have hboot : boot.toMachine = space.machine := rfl
  refine ⟨space, h, hvmm, hheap, (heapInit_keeps_direct_map_iff (by decide) (farEntries_top hfar)
    rfl hvmm hboot rfl hheap).mpr fun entry hentry p hp => ?_⟩
  have hp' := wholePage_farEntries hentry hp
  refine ⟨fun i hi hpage => ?_, fun _ before e after heq hover => ?_⟩
  · exfalso
    unfold pageNumber directMap at hpage
    rw [toNat_heapPage hi, BitVec.toNat_add, BitVec.toNat_ofNat] at hpage
    unfold initialHeapPages at hi
    rcases hp' with hnear | rfl
    · omega
    · norm_num at hpage
      omega
  · obtain ⟨w, hwhole, hlow, -, -⟩ := hover
    have he : e ∈ farEntries 0x80000000#64 := by
      rw [heq]
      simp
    rcases wholePage_farEntries he hwhole with hnear | rfl
    · omega
    · exact absurd hlow (by decide)

/-- The direct map should have a page at 1 TiB where the heap starts. -/
theorem heapInit_displaces_page :
    ∃ space h, pmmInit (some (farEntries 0x10000000000#64)) (some (bootAddress 0x400000#64))
        bootImage.toKernelImage = .ok (farMachine 0x10000000000#64).pmm ∧
      vmmInit (some directMap) (some (bootAddress 0x400000#64))
        (some (farEntries 0x10000000000#64)) bootImage (farMachine 0x10000000000#64) = .ok space ∧
      heapInit directMap space.kernelPagemap ⟨space.machine, 0#64, 0#64, 0#64⟩ = .ok h ∧
      ∃ entry ∈ farEntries 0x10000000000#64, ∃ p, WholePage entry p ∧
        vmmVirtToPhys directMap h.toMachine space.kernelPagemap (p + directMap) ≠ p := by
  have hfar : (0x10000000000#64).toNat < 2 ^ 46 - 0x1000 := by decide
  obtain ⟨space, h, hvmm, hheap⟩ := farMachine_inits hfar (by decide +kernel)
  have hentry : ⟨0x10000000000#64, 0x1000#64, .other 1#64⟩ ∈ farEntries 0x10000000000#64 :=
    List.mem_cons_of_mem _ List.mem_cons_self
  have hwhole : WholePage ⟨0x10000000000#64, 0x1000#64, .other 1#64⟩ 0x10000000000#64 :=
    ⟨by decide, by decide, by decide⟩
  refine ⟨space, h, rfl, hvmm, hheap, _, hentry, _, hwhole, fun hkept => ?_⟩
  let boot : KernelHeap := ⟨space.machine, 0#64, 0#64, 0#64⟩
  have hboot : boot.toMachine = space.machine := rfl
  obtain ⟨f, hfree, -, hframe⟩ := (pageKept_of_translates (by decide) (farEntries_top hfar) rfl hvmm
    hboot rfl hheap hentry hwhole hkept).1 0 (by decide) (by decide)
  -- no frame above the bitmap is free
  obtain ⟨r, -, hrecorded⟩ := vmmInit_recorded (valid_initTables (farEntries 0x10000000000#64)
    (bootAddress 0x400000#64) bootImage directMap fun _ => 0#8) hvmm
  have hlt := hrecorded.free_lt hfree
  have hnat := congrArg BitVec.toNat hframe
  rw [toNat_frameAddr (by unfold frameLimit; omega), BitVec.toNat_ofNat] at hnat
  omega

end Osiris.Heap
