import Osiris.Library.Loop
import Osiris.Verification.Vmm.Physical
import Osiris.Verification.Vmm.Refinement

/-! # The calls that `vmm_init` makes

What `vmm_init` does to the pagemap of the kernel is a history of `vmm_map_page` calls, from a
cleared PML4. -/

namespace Osiris.Vmm

open ByteMemory Strings Page Radix

/-! ## Calls -/

structure MapCall where
  virt : Word
  phys : Word
  flags : Word

def MapCall.page (call : MapCall) : ℕ :=
  pageNumber call.virt

def MapCall.binding (call : MapCall) : Binding :=
  bindingOf call.phys call.flags

/-- A call that `vmm_map_page` is meant for. -/
structure MapCall.Proper (call : MapCall) : Prop where
  phys_lt : call.phys.toNat < 2 ^ 52
  flags : pteGetAddr call.flags = 0#64

def kernelCall (kaddr : KernelAddress) (image : KernelSections) (pVirt : Word) : MapCall :=
  ⟨pVirt, kernelPhys kaddr pVirt, kernelFlags image pVirt⟩

def directCall (hh p : Word) : MapCall :=
  ⟨p + hh, p, memoryFlags⟩

def identityCall (p : Word) : MapCall :=
  ⟨p, p, memoryFlags⟩

def kernelCalls (kaddr : KernelAddress) (image : KernelSections) : List MapCall :=
  (pageAddrs kaddr.virtualBase (kernelVirtEnd image)).map (kernelCall kaddr image)

def entryCalls (hh : Word) (entry : MemmapEntry) : List MapCall :=
  (pageAddrs (mapBase entry) (mapTop entry)).map (directCall hh) ++
    (pageAddrs (mapBase entry) (identityTop entry)).map identityCall

def initCalls (hh : Word) (kaddr : KernelAddress) (image : KernelSections)
    (entries : List MemmapEntry) : List MapCall :=
  kernelCalls kaddr image ++ entries.flatMap (entryCalls hh)

theorem memoryFlags_proper : pteGetAddr memoryFlags = 0#64 := by decide

theorem kernelFlags_proper (image : KernelSections) (v : Word) :
    pteGetAddr (kernelFlags image v) = 0#64 := by
  unfold kernelFlags
  split
  · decide
  · split
    · decide
    · split <;> decide

/-! ## Pages -/

/-- A page that is wholly inside an entry of the memory map. -/
structure WholePage (entry : MemmapEntry) (p : Word) : Prop where
  aligned : p.toNat % 4096 = 0
  base_le : entry.base.toNat ≤ p.toNat
  le_top : p.toNat + 4096 ≤ entry.base.toNat + entry.length.toNat

/-- A page of the kernel image. -/
structure KernelPage (kaddr : KernelAddress) (image : KernelSections) (v : Word) : Prop where
  aligned : v.toNat % 4096 = 0
  base_le : kaddr.virtualBase.toNat ≤ v.toNat
  lt_end : v.toNat < (kernelVirtEnd image).toNat

theorem mem_pageAddrs {first last p : Word} (hfirst : first.toNat % 4096 = 0)
    (hlast : last.toNat % 4096 = 0) :
    p ∈ pageAddrs first last ↔
      p.toNat % 4096 = 0 ∧ first.toNat ≤ p.toNat ∧ p.toNat < last.toNat := by
  have hlt := last.isLt
  unfold pageAddrs
  rw [List.mem_map]
  constructor
  · rintro ⟨i, hi, rfl⟩
    rw [List.mem_range] at hi
    rw [BitVec.toNat_add, BitVec.toNat_ofNat]
    omega
  · rintro ⟨haligned, hle, hp⟩
    refine ⟨(p.toNat - first.toNat) / 4096, ?_, ?_⟩
    · rw [List.mem_range]
      omega
    · apply BitVec.eq_of_toNat_eq
      rw [BitVec.toNat_add, BitVec.toNat_ofNat]
      omega

theorem alignDown_of_aligned {a : Word} (ha : a.toNat % 4096 = 0) : alignDown a 4096#64 = a := by
  apply BitVec.eq_of_toNat_eq
  rw [toNat_alignDown]
  omega

theorem mod_of_aligned {a : Word} (ha : a.toNat % 4096 = 0) : a % 4096#64 = 0#64 := by
  apply BitVec.eq_of_toNat_eq
  rw [BitVec.toNat_umod]
  exact ha

theorem toNat_identityTop (entry : MemmapEntry) :
    (identityTop entry).toNat = min 0x100000 (mapTop entry).toNat := by
  unfold identityTop identityMapLimit
  split
  · rename_i hgt
    have hgt' : 0x100000 < (mapTop entry).toNat := hgt
    rw [min_eq_left hgt'.le]
    rfl
  · rename_i hle
    have hle' : ¬ 0x100000 < (mapTop entry).toNat := hle
    rw [min_eq_right (by omega)]

/-- The tests before the two loops over an entry do not change what they map. -/
theorem mapEntry_eq (hh : Word) (pagemap : Pagemap) (s : Machine) (entry : MemmapEntry) :
    mapEntry hh pagemap s entry =
      (mapPages hh pagemap (fun p => p + hh) (fun p => p) (fun _ => memoryFlags)
        "vmm_init: failed to map hhdm page" (pageAddrs (mapBase entry) (mapTop entry)) s).bind
      (mapPages hh pagemap (fun p => p) (fun p => p) (fun _ => memoryFlags)
        "vmm_init: failed to identity map low page"
        (pageAddrs (mapBase entry) (identityTop entry))) := by
  have hidentity := toNat_identityTop entry
  have hempty : ∀ first last : Word, last.toNat ≤ first.toNat → pageAddrs first last = [] := by
    intro first last hle
    unfold pageAddrs
    rw [show (last.toNat - first.toNat + 4095) / 4096 = 0 by omega]
    rfl
  unfold mapEntry
  by_cases hnone : mapTop entry ≤ mapBase entry
  · have hnone' : (mapTop entry).toNat ≤ (mapBase entry).toNat := hnone
    rw [if_pos hnone, hempty _ _ hnone', hempty _ (identityTop entry) (by omega)]
    rfl
  · rw [if_neg hnone]
    by_cases hlow : mapBase entry < identityMapLimit
    · simp only [if_pos hlow]
      rfl
    · have hlow' : ¬ (mapBase entry).toNat < 0x100000 := hlow
      have hnothing : pageAddrs (mapBase entry) (identityTop entry) = [] := hempty _ _ (by omega)
      simp only [if_neg hlow, hnothing]
      rfl

/-- `vmm_map_page` looks at the user bit of the flags, and at what it is going to write. -/
theorem vmmMapPage_congr {phys phys' flags flags' : Word}
    (hleaf : leafOf phys flags = leafOf phys' flags')
    (huser : flags &&& pteUser = flags' &&& pteUser) (hh : Word) (s : Machine) (pagemap : Pagemap)
    (virt : Word) :
    vmmMapPage hh s pagemap virt phys flags = vmmMapPage hh s pagemap virt phys' flags' := by
  unfold leafOf at hleaf
  unfold vmmMapPage
  dsimp only
  rw [huser, hleaf]

theorem mapPages_congr {pages : List Word} {virt phys phys' flags flags' : Word → Word} {hh : Word}
    {pagemap : Pagemap} {message : String} (h : ∀ p ∈ pages, ∀ s,
      vmmMapPage hh s pagemap (virt p) (phys p) (flags p) =
        vmmMapPage hh s pagemap (virt p) (phys' p) (flags' p)) (s : Machine) :
    mapPages hh pagemap virt phys flags message pages s =
      mapPages hh pagemap virt phys' flags' message pages s := by
  induction pages generalizing s with
  | nil => rfl
  | cons p pages ih =>
      unfold mapPages at ih ⊢
      rw [List.foldlM_cons, List.foldlM_cons, h p List.mem_cons_self s]
      refine congrArg (bind _) (funext fun s' => ?_)
      exact ih (fun q hq => h q (List.mem_cons_of_mem p hq)) s'

section Entry

variable {entry : MemmapEntry} (hbelow : entry.base.toNat + entry.length.toNat < 2 ^ 46)

include hbelow

theorem toNat_mapBase : (mapBase entry).toNat = (entry.base.toNat + 4095) / 4096 * 4096 :=
  toNat_alignUp _ (by omega)

theorem toNat_mapTop :
    (mapTop entry).toNat = (entry.base.toNat + entry.length.toNat) / 4096 * 4096 := by
  unfold mapTop
  rw [toNat_alignDown, BitVec.toNat_add]
  omega

theorem mem_direct_iff {p : Word} :
    p ∈ pageAddrs (mapBase entry) (mapTop entry) ↔ WholePage entry p := by
  have hbase := toNat_mapBase hbelow
  have htop := toNat_mapTop hbelow
  rw [mem_pageAddrs (by omega) (by omega), hbase, htop]
  constructor
  · rintro ⟨haligned, hle, hlt⟩
    exact ⟨haligned, by omega, by omega⟩
  · rintro ⟨haligned, hle, hlt⟩
    exact ⟨haligned, by omega, by omega⟩

theorem mem_identity_iff {p : Word} :
    p ∈ pageAddrs (mapBase entry) (identityTop entry) ↔
      WholePage entry p ∧ p.toNat < 0x100000 := by
  have hbase := toNat_mapBase hbelow
  have htop := toNat_mapTop hbelow
  have hidentity := toNat_identityTop entry
  rw [mem_pageAddrs (by omega) (by omega), hbase, hidentity, htop]
  constructor
  · rintro ⟨haligned, hle, hlt⟩
    exact ⟨⟨haligned, by omega, by omega⟩, by omega⟩
  · rintro ⟨⟨haligned, hle, hlt⟩, hlow⟩
    exact ⟨haligned, by omega, by omega⟩

theorem WholePage.lt {p : Word} (hp : WholePage entry p) : p.toNat < 2 ^ 46 := by
  have htop := hp.le_top
  omega

theorem directCall_proper {hh p : Word} (hp : p ∈ pageAddrs (mapBase entry) (mapTop entry)) :
    (directCall hh p).Proper := by
  have hlt := ((mem_direct_iff hbelow).mp hp).lt hbelow
  exact ⟨show p.toNat < 2 ^ 52 by omega, memoryFlags_proper⟩

theorem identityCall_proper {p : Word}
    (hp : p ∈ pageAddrs (mapBase entry) (identityTop entry)) : (identityCall p).Proper := by
  have hlt := ((mem_identity_iff hbelow).mp hp).2
  exact ⟨show p.toNat < 2 ^ 52 by omega, memoryFlags_proper⟩

theorem entryCall_proper {hh : Word} {call : MapCall} (hcall : call ∈ entryCalls hh entry) :
    call.Proper := by
  rcases List.mem_append.mp hcall with hdirect | hidentity
  · obtain ⟨p, hp, rfl⟩ := List.mem_map.mp hdirect
    exact directCall_proper hbelow hp
  · obtain ⟨p, hp, rfl⟩ := List.mem_map.mp hidentity
    exact identityCall_proper hbelow hp

end Entry

/-- All low pages have the same page table. -/
theorem low_upperPath {p : Word} (hp : p.toNat < 0x100000) : upperPath p = upperPath 0#64 := by
  refine upperPath_eq ?_
  rw [BitVec.toNat_zero]
  omega

/-- The entry is below 2^46, and the direct map has its pages in one page table. -/
structure Compact (hh : Word) (entry : MemmapEntry) : Prop where
  below : entry.base.toNat + entry.length.toNat < 2 ^ 46
  direct : ∃ path, ∀ p, WholePage entry p → upperPath (p + hh) = path

/-! ## Loops of calls -/

/-- Every call with `P` that succeeds keeps `I`. -/
def KeptByCalls (hh : Word) (pagemap : Pagemap) (P : MapCall → Prop)
    (I : List MapCall → Machine → Prop) : Prop :=
  ∀ calls s s' call, P call → I calls s →
    vmmMapPage hh s pagemap call.virt call.phys call.flags = (true, s') → I (calls ++ [call]) s'

section Kept

variable {hh : Word} {pagemap : Pagemap} {P : MapCall → Prop} {I : List MapCall → Machine → Prop}
  {calls : List MapCall} {s s' : Machine}

theorem KeptByCalls.mapPages {pages : List Word} {virt phys flags : Word → Word} {message : String}
    (hkept : KeptByCalls hh pagemap P I) (call : Word → MapCall)
    (hcall : ∀ p, call p = ⟨virt p, phys p, flags p⟩) (hP : ∀ p ∈ pages, P (call p))
    (hI : I calls s) (hok : mapPages hh pagemap virt phys flags message pages s = .ok s') :
    I (calls ++ pages.map call) s' := by
  induction pages generalizing calls s with
  | nil =>
      obtain rfl : s = s' := Except.ok.inj hok
      rw [List.map_nil, List.append_nil]
      exact hI
  | cons p pages ih =>
      unfold Vmm.mapPages at hok
      rw [List.foldlM_cons] at hok
      obtain ⟨s₁, hfirst, hrest⟩ := Loop.bind_eq_ok.mp hok
      have hmap : vmmMapPage hh s pagemap (virt p) (phys p) (flags p) = (true, s₁) := by
        split at hfirst
        · rename_i s₂ heq
          obtain rfl : s₂ = s₁ := Except.ok.inj hfirst
          exact heq
        · cases hfirst
      have hstep : I (calls ++ [call p]) s₁ := by
        refine hkept calls s s₁ (call p) (hP p List.mem_cons_self) hI ?_
        rw [hcall p]
        exact hmap
      have hpages := ih (fun q hq => hP q (List.mem_cons_of_mem p hq)) hstep hrest
      rw [List.append_assoc] at hpages
      exact hpages

theorem KeptByCalls.mapEntry {entry : MemmapEntry} (hkept : KeptByCalls hh pagemap P I)
    (hP : ∀ call ∈ entryCalls hh entry, P call) (hI : I calls s)
    (hok : mapEntry hh pagemap s entry = .ok s') : I (calls ++ entryCalls hh entry) s' := by
  rw [mapEntry_eq] at hok
  obtain ⟨s₁, hdirect, hidentity⟩ := Loop.bind_eq_ok.mp hok
  have hI₁ := hkept.mapPages (directCall hh) (fun p => rfl)
    (fun p hp => hP _ (List.mem_append_left _ (List.mem_map_of_mem hp))) hI hdirect
  have hI₂ := hkept.mapPages identityCall (fun p => rfl)
    (fun p hp => hP _ (List.mem_append_right _ (List.mem_map_of_mem hp))) hI₁ hidentity
  rw [List.append_assoc] at hI₂
  exact hI₂

theorem KeptByCalls.entries {entries : List MemmapEntry} (hkept : KeptByCalls hh pagemap P I)
    (hP : ∀ entry ∈ entries, ∀ call ∈ entryCalls hh entry, P call) (hI : I calls s)
    (hok : entries.foldlM (Vmm.mapEntry hh pagemap) s = .ok s') :
    I (calls ++ entries.flatMap (entryCalls hh)) s' := by
  induction entries generalizing calls s with
  | nil =>
      obtain rfl : s = s' := Except.ok.inj hok
      rw [List.flatMap_nil, List.append_nil]
      exact hI
  | cons entry entries ih =>
      rw [List.foldlM_cons] at hok
      obtain ⟨s₁, hfirst, hrest⟩ := Loop.bind_eq_ok.mp hok
      have hI₁ := hkept.mapEntry (hP entry List.mem_cons_self) hI hfirst
      have hI₂ := ih (fun e he => hP e (List.mem_cons_of_mem entry he)) hI₁ hrest
      rw [List.append_assoc] at hI₂
      exact hI₂

end Kept

/-! ## Histories -/

/-- A machine that successful calls lead to from `s₀`, where the PML4 in frame `r` is empty. The
history is that of the tables at their physical addresses. -/
def Reached (hh : Word) (r : ℕ) (s₀ : Machine) (calls : List MapCall) (s : Machine) : Prop :=
  Nonnull hh s r ∧ ∃ σ,
    Transition.Run (State.step 0#64 r) (State.Proper 0#64 r) (State.initial (physical hh s₀)) σ ∧
    σ.machine = physical hh s ∧
    σ.bindings = Loop.writeAll MapCall.page MapCall.binding calls fun _ => none

section

variable {hh : Word} {r : ℕ} {s₀ s s' : Machine} {calls : List MapCall}

theorem Reached.start (hnull : Nonnull hh s₀ r) : Reached hh r s₀ [] s₀ :=
  ⟨hnull, State.initial (physical hh s₀), .start, rfl, rfl⟩

variable (hstart : EmptyPml4 0#64 (physical hh s₀) r)

include hstart

theorem Reached.tableInv (h : Reached hh r s₀ calls s) : TableInv 0#64 (physical hh s) r := by
  obtain ⟨-, σ, hrun, hmachine, -⟩ := h
  rw [← hmachine]
  exact (stateInv_of_run hstart (hrun.weaken fun _ _ => State.Proper.allowed)).tables

theorem Reached.call (h : Reached hh r s₀ calls s) {call : MapCall} (hcall : call.Proper)
    (hok : vmmMapPage hh s ⟨frameVirt hh r⟩ call.virt call.phys call.flags = (true, s')) :
    Reached hh r s₀ (calls ++ [call]) s' := by
  have hinv := h.tableInv hstart
  obtain ⟨hnull, σ, hrun, hmachine, hbindings⟩ := h
  have hok' := vmmMapPage_physical hinv hnull call.virt call.phys call.flags
  rw [hok] at hok'
  have hgrowth := vmmMapPage_growth hinv call.virt call.phys call.flags
  rw [hok'] at hgrowth
  refine ⟨hnull.growth hgrowth, σ.step 0#64 r (.map call.virt call.phys call.flags),
    .step hrun ⟨hcall.1, hcall.2⟩, ?_, ?_⟩
  · change (vmmMapPage 0#64 σ.machine ⟨frameVirt 0#64 r⟩ _ _ _).2 = _
    rw [hmachine, hok']
  · have hfirst : (vmmMapPage 0#64 σ.machine ⟨frameVirt 0#64 r⟩ call.virt call.phys
        call.flags).1 = true := by
      rw [hmachine, hok']
    rw [bindings_map_of_success hfirst, hbindings]
    unfold Loop.writeAll
    rw [List.foldl_append]
    rfl

theorem Reached.keptByCalls :
    KeptByCalls hh ⟨frameVirt hh r⟩ MapCall.Proper (Reached hh r s₀) :=
  fun _ _ _ _ hcall h hok => h.call hstart hcall hok

/-- The pagemap has the page table that a path leads to. -/
def HasTable (hh : Word) (s : Machine) (r : ℕ) (path : List Index) : Prop :=
  ∃ es f, walk (link 0#64 (physical hh s).mem) r path = some (es, f)

theorem Reached.call_succeeds {n : ℕ} {path : List Index} (h : Reached hh r s₀ calls s)
    (hroom : n + 3 ≤ s.pmm.freeFrames.card ∨ n ≤ s.pmm.freeFrames.card ∧ HasTable hh s r path)
    (virt phys flags : Word) (hpath : upperPath virt = path) :
    ∃ s', vmmMapPage hh s ⟨frameVirt hh r⟩ virt phys flags = (true, s') ∧
      n ≤ s'.pmm.freeFrames.card ∧ HasTable hh s' r path := by
  have hinv := h.tableInv hstart
  subst hpath
  obtain ⟨s₁, heq, hcard, htable⟩ := vmmMapPage_of_room hinv hroom phys flags
  have hboth := vmmMapPage_physical hinv h.1 virt phys flags
  rw [heq] at hboth
  obtain ⟨hfirst, rfl⟩ := Prod.mk.inj hboth
  exact ⟨(vmmMapPage hh s ⟨frameVirt hh r⟩ virt phys flags).2, Prod.ext hfirst.symm rfl, hcard,
    htable⟩

/-- A loop over pages of one page table takes no more than three frames. -/
theorem Reached.mapPages_succeeds {pages : List Word} {virt phys flags : Word → Word}
    (h : Reached hh r s₀ calls s) (n : ℕ) (path : List Index) (message : String)
    (call : Word → MapCall) (hcall : ∀ p, call p = ⟨virt p, phys p, flags p⟩)
    (hproper : ∀ p ∈ pages, (call p).Proper) (hpath : ∀ p ∈ pages, upperPath (virt p) = path)
    (hroom : n + 3 ≤ s.pmm.freeFrames.card ∨ n ≤ s.pmm.freeFrames.card ∧ HasTable hh s r path) :
    ∃ s', Vmm.mapPages hh ⟨frameVirt hh r⟩ virt phys flags message pages s = .ok s' ∧
      n ≤ s'.pmm.freeFrames.card ∧ Reached hh r s₀ (calls ++ pages.map call) s' := by
  induction pages generalizing calls s with
  | nil =>
      refine ⟨s, rfl, by omega, ?_⟩
      rw [List.map_nil, List.append_nil]
      exact h
  | cons p pages ih =>
      obtain ⟨s₁, hok, hcard, htable⟩ := h.call_succeeds hstart hroom (virt p) (phys p) (flags p)
        (hpath p List.mem_cons_self)
      have hstep : Reached hh r s₀ (calls ++ [call p]) s₁ := by
        refine h.call hstart (hproper p List.mem_cons_self) ?_
        rw [hcall p]
        exact hok
      obtain ⟨s', hrest, hcard', hreached⟩ := ih hstep
        (fun q hq => hproper q (List.mem_cons_of_mem p hq))
        (fun q hq => hpath q (List.mem_cons_of_mem p hq)) (.inr ⟨hcard, htable⟩)
      refine ⟨s', ?_, hcard', ?_⟩
      · unfold Vmm.mapPages at hrest ⊢
        rw [List.foldlM_cons, hok]
        exact hrest
      · rw [List.append_assoc] at hreached
        exact hreached

/-- The pages of an entry take at most two page tables and the tables above them. -/
theorem Reached.mapEntry_succeeds {n : ℕ} {entry : MemmapEntry} (h : Reached hh r s₀ calls s)
    (hentry : Compact hh entry) (hcard : n + 6 ≤ s.pmm.freeFrames.card) :
    ∃ s', Vmm.mapEntry hh ⟨frameVirt hh r⟩ s entry = .ok s' ∧ n ≤ s'.pmm.freeFrames.card ∧
      Reached hh r s₀ (calls ++ entryCalls hh entry) s' := by
  obtain ⟨hbelow, path, hpath⟩ := hentry
  obtain ⟨s₁, hdirect, hcard₁, h₁⟩ := h.mapPages_succeeds hstart (n + 3) path
    "vmm_init: failed to map hhdm page" (directCall hh) (fun p => rfl)
    (fun p hp => directCall_proper hbelow hp) (fun p hp => hpath p ((mem_direct_iff hbelow).mp hp))
    (.inl hcard)
  obtain ⟨s₂, hidentity, hcard₂, h₂⟩ := h₁.mapPages_succeeds hstart n (upperPath 0#64)
    "vmm_init: failed to identity map low page" identityCall (fun p => rfl)
    (fun p hp => identityCall_proper hbelow hp)
    (fun p hp => low_upperPath ((mem_identity_iff hbelow).mp hp).2) (.inl hcard₁)
  refine ⟨s₂, ?_, hcard₂, ?_⟩
  · rw [mapEntry_eq]
    exact Loop.bind_eq_ok.mpr ⟨s₁, hdirect, hidentity⟩
  · rw [List.append_assoc] at h₂
    exact h₂

theorem Reached.entries_succeed {n : ℕ} {entries : List MemmapEntry} (h : Reached hh r s₀ calls s)
    (hentries : ∀ entry ∈ entries, Compact hh entry)
    (hcard : n + 6 * entries.length ≤ s.pmm.freeFrames.card) :
    ∃ s', entries.foldlM (Vmm.mapEntry hh ⟨frameVirt hh r⟩) s = .ok s' ∧
      n ≤ s'.pmm.freeFrames.card := by
  induction entries generalizing calls s with
  | nil => exact ⟨s, rfl, hcard⟩
  | cons entry entries ih =>
      rw [List.length_cons] at hcard
      obtain ⟨s₁, hfirst, hcard₁, h₁⟩ := h.mapEntry_succeeds hstart
        (hentries entry List.mem_cons_self) (n := n + 6 * entries.length) (by omega)
      obtain ⟨s₂, hrest, hcard₂⟩ := ih h₁ (fun e he => hentries e (List.mem_cons_of_mem entry he))
        hcard₁
      refine ⟨s₂, ?_, hcard₂⟩
      rw [List.foldlM_cons, hfirst]
      exact hrest

end

/-! ## `vmm_init` -/

section Init

variable {hh : Word} {kaddr : KernelAddress} {image : KernelSections} {entries : List MemmapEntry}
  {s : Machine} {space : AddressSpace} {r : ℕ}

/-- The PML4 that `vmm_init` starts from. -/
def clearPml4 (hh : Word) (s : Machine) (r : ℕ) : Machine :=
  { s.take hh r with mem := memset (s.take hh r).mem (frameVirt hh r) 0#32 4096#32 }

theorem clearPml4_emptyPml4 (hs : (physical hh s).Valid 0#64) (hfree : s.pmm.Free r) :
    EmptyPml4 0#64 (physical hh (clearPml4 hh s r)) r where
  valid := hs.of_free rfl fun hnow => hs.zero_used ((free_take hh s r 0).mp hnow).1
  root_lt := hs.lt_limit hfree.1
  root_used := fun hnow => ((free_take hh s r r).mp hnow).2 rfl
  zeroed := by
    intro index
    refine (entry_shift hh _ r index).trans (entry_of_zero (fun x hx => ?_) index)
    have hin : InRange (frameVirt hh r) 4096 x := hx
    change memset (s.take hh r).mem (frameVirt hh r) 0#32 4096#32 x = 0#8
    rw [memset_page, if_pos hin]
    rfl

theorem clearPml4_nonnull (hs : (physical hh s).Valid 0#64) (hfree : s.pmm.Free r)
    (hnull : ∀ g, s.pmm.Free g → frameVirt hh g ≠ 0#64) : Nonnull hh (clearPml4 hh s r) r := by
  have hempty := clearPml4_emptyPml4 hs hfree
  rintro g ((rfl | hbelow) | hfree')
  · exact hnull g hfree
  · obtain ⟨k, a, next, hlink, -⟩ := hbelow
    rw [link_of_zero (hempty.zeroed k)] at hlink
    cases hlink
  · exact hnull g ((free_take hh s r g).mp hfree').1

/-- `vmm_init` makes its calls on a cleared PML4 in a frame of its own. -/
theorem vmmInit_calls (hs : (physical hh s).Valid 0#64)
    (hok : vmmInit (some hh) (some kaddr) (some entries) image s = .ok space) :
    ∃ r, s.pmm.Free r ∧ frameVirt hh r ≠ 0#64 ∧ space.kernelPagemap = ⟨frameVirt hh r⟩ ∧
      space.cr3 = frameAddr r ∧ ∀ P I, KeptByCalls hh ⟨frameVirt hh r⟩ P I →
        (∀ call ∈ initCalls hh kaddr image entries, P call) → I [] (clearPml4 hh s r) →
          I (initCalls hh kaddr image entries) space.machine := by
  unfold vmmInit at hok
  dsimp only at hok
  rcases allocatePage_cases hh s with ⟨heq, -⟩ | ⟨r, hfree, -, heq⟩
  · rw [heq] at hok
    cases hok
  · rw [heq] at hok
    have hne : frameAddr r ≠ 0#64 := hs.frameAddr_ne_zero hfree.1 (hs.ne_zero_of_free hfree)
    dsimp only at hok
    rw [if_neg hne] at hok
    obtain ⟨s₁, hkernel, hok⟩ := Loop.bind_eq_ok.mp hok
    obtain ⟨s₂, hentries, hok⟩ := Loop.bind_eq_ok.mp hok
    obtain ⟨cr3, hswitch, hok⟩ := Loop.bind_eq_ok.mp hok
    obtain rfl := Except.ok.inj hok
    unfold vmmSwitchTo at hswitch
    split at hswitch
    · cases hswitch
    · rename_i hnonnull
      have hcr3 : cr3 = frameAddr r := by
        rw [← Except.ok.inj hswitch]
        exact add_sub_cancel_right _ _
      refine ⟨r, hfree, hnonnull, rfl, hcr3, fun P I hkept hP hI => ?_⟩
      have hI₁ : I (kernelCalls kaddr image) s₁ :=
        hkept.mapPages (kernelCall kaddr image) (fun p => rfl)
          (fun p hp => hP _ (List.mem_append_left _ (List.mem_map_of_mem hp))) hI hkernel
      exact hkept.entries (fun entry hentry call hcall => hP call (List.mem_append_right _
        (List.mem_flatMap.mpr ⟨entry, hentry, hcall⟩))) hI₁ hentries

theorem vmmInit_ok (hs : (physical hh s).Valid 0#64)
    (hnull : ∀ g, s.pmm.Free g → frameVirt hh g ≠ 0#64)
    (hbelow : ∀ entry ∈ entries, entry.base.toNat + entry.length.toNat < 2 ^ 46)
    (hproper : ∀ p ∈ pageAddrs kaddr.virtualBase (kernelVirtEnd image),
      (kernelCall kaddr image p).Proper)
    (hok : vmmInit (some hh) (some kaddr) (some entries) image s = .ok space) :
    ∃ r, s.pmm.Free r ∧ space.kernelPagemap = ⟨frameVirt hh r⟩ ∧ space.cr3 = frameAddr r ∧
      Reached hh r (clearPml4 hh s r) (initCalls hh kaddr image entries) space.machine := by
  obtain ⟨r, hfree, -, hpagemap, hcr3, hcalls⟩ := vmmInit_calls hs hok
  refine ⟨r, hfree, hpagemap, hcr3, hcalls MapCall.Proper (Reached hh r (clearPml4 hh s r))
    (Reached.keptByCalls (clearPml4_emptyPml4 hs hfree)) (fun call hcall => ?_)
    (Reached.start (clearPml4_nonnull hs hfree hnull))⟩
  rcases List.mem_append.mp hcall with hkernel | hentry
  · obtain ⟨p, hp, rfl⟩ := List.mem_map.mp hkernel
    exact hproper p hp
  · obtain ⟨entry, hentry, hcall⟩ := List.mem_flatMap.mp hentry
    exact entryCall_proper (hbelow entry hentry) hcall

theorem vmmInit_of_mapped {s₁ s₂ : Machine} {cr3 : Word}
    (hpage : allocatePage hh s = (frameAddr r, s.take hh r)) (hne : frameAddr r ≠ 0#64)
    (hkernel : mapPages hh ⟨frameVirt hh r⟩ (fun p => p) (kernelPhys kaddr) (kernelFlags image)
      "vmm_init: failed to map kernel page" (pageAddrs kaddr.virtualBase (kernelVirtEnd image))
      (clearPml4 hh s r) = .ok s₁)
    (hentries : entries.foldlM (mapEntry hh ⟨frameVirt hh r⟩) s₁ = .ok s₂)
    (hswitch : vmmSwitchTo hh ⟨frameVirt hh r⟩ = .ok cr3) :
    vmmInit (some hh) (some kaddr) (some entries) image s =
      .ok ⟨⟨frameVirt hh r⟩, cr3, s₂⟩ := by
  unfold vmmInit
  dsimp only
  rw [hpage]
  dsimp only
  rw [if_neg hne]
  exact Loop.bind_eq_ok.mpr ⟨s₁, hkernel, Loop.bind_eq_ok.mpr ⟨s₂, hentries,
    Loop.bind_eq_ok.mpr ⟨cr3, hswitch, rfl⟩⟩⟩

/-- With enough frames `vmm_init` returns, when the image has one page table and is mapped by proper
calls, or by calls that do the same. -/
theorem vmmInit_succeeds {n : ℕ} {path : List Index} {phys flags : Word → Word}
    (hs : (physical hh s).Valid 0#64) (hnull : ∀ g, s.pmm.Free g → frameVirt hh g ≠ 0#64)
    (hpath : ∀ v ∈ pageAddrs kaddr.virtualBase (kernelVirtEnd image), upperPath v = path)
    (hcall : ∀ v ∈ pageAddrs kaddr.virtualBase (kernelVirtEnd image),
      (MapCall.mk v (phys v) (flags v)).Proper ∧ ∀ s pagemap,
        vmmMapPage hh s pagemap v (kernelPhys kaddr v) (kernelFlags image v) =
          vmmMapPage hh s pagemap v (phys v) (flags v))
    (hentries : ∀ entry ∈ entries, Compact hh entry)
    (hcard : n + 4 + 6 * entries.length ≤ s.pmm.freeFrames.card) :
    ∃ space, vmmInit (some hh) (some kaddr) (some entries) image s = .ok space ∧
      n ≤ space.machine.pmm.freeFrames.card := by
  rcases allocatePage_cases hh s with ⟨-, hnone⟩ | ⟨r, hfree, -, heq⟩
  · have hempty := card_freeFrames_eq_zero hnone
    omega
  · have hstart := clearPml4_emptyPml4 hs hfree
    have htake : (s.take hh r).pmm.freeFrames.card + 1 = s.pmm.freeFrames.card :=
      card_freeFrames_take hfree
    have hcleared : n + 6 * entries.length + 3 ≤ (clearPml4 hh s r).pmm.freeFrames.card := by
      change _ ≤ (s.take hh r).pmm.freeFrames.card
      omega
    obtain ⟨s₁, hkernel, hcard₁, h₁⟩ :=
      (Reached.start (clearPml4_nonnull hs hfree hnull)).mapPages_succeeds hstart
        (n + 6 * entries.length) path "vmm_init: failed to map kernel page"
        (fun v => ⟨v, phys v, flags v⟩) (fun p => rfl) (fun v hv => (hcall v hv).1) hpath
        (.inl hcleared)
    have hkernel' := (mapPages_congr (fun v hv s => (hcall v hv).2 s ⟨frameVirt hh r⟩)
      (clearPml4 hh s r)).trans hkernel
    obtain ⟨s₂, hmapped, hcard₂⟩ := h₁.entries_succeed hstart hentries hcard₁
    have hne : frameAddr r ≠ 0#64 := hs.frameAddr_ne_zero hfree.1 (hs.ne_zero_of_free hfree)
    have hswitch : vmmSwitchTo hh ⟨frameVirt hh r⟩ = .ok (frameAddr r) := by
      unfold vmmSwitchTo
      rw [if_neg (hnull r hfree)]
      exact congrArg Except.ok (add_sub_cancel_right _ _)
    exact ⟨_, vmmInit_of_mapped heq hne hkernel' hmapped hswitch, hcard₂⟩

end Init

end Osiris.Vmm
