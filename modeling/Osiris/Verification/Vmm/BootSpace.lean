import Osiris.Verification.Vmm.Init

/-! # The address space after `vmm_init` -/

namespace Osiris.Vmm

open ByteMemory Strings Page Radix

/-! ## What the boot loader hands over -/

/-- Bases and the offset of the direct map are multiples of the page size, and the three windows of
virtual addresses that are to be mapped have no page in common. -/
structure Layout (hh : Word) (kaddr : KernelAddress) (image : KernelSections)
    (entries : List MemmapEntry) : Prop where
  physicalBase_aligned : kaddr.physicalBase.toNat % 4096 = 0
  virtualBase_aligned : kaddr.virtualBase.toNat % 4096 = 0
  offset_aligned : hh.toNat % 4096 = 0
  entry_top : ∀ entry ∈ entries, entry.base.toNat + entry.length.toNat < 2 ^ 46
  kernel_direct : ∀ v, KernelPage kaddr image v → ∀ entry ∈ entries, ∀ p, WholePage entry p →
    pageNumber v ≠ pageNumber (p + hh)
  kernel_low : ∀ v, KernelPage kaddr image v → ∀ w : Word, w.toNat < 0x100000 →
    pageNumber v ≠ pageNumber w
  direct_low : ∀ entry ∈ entries, ∀ p, WholePage entry p → ∀ w : Word, w.toNat < 0x100000 →
    pageNumber (p + hh) ≠ pageNumber w

/-- The physical addresses of the image have no more bits than an entry of a table has for them. -/
def FitsEntry (kaddr : KernelAddress) (image : KernelSections) : Prop :=
  kaddr.physicalBase.toNat + ((kernelVirtEnd image).toNat - kaddr.virtualBase.toNat) ≤ 2 ^ 52

section Layout

variable {hh : Word} {kaddr : KernelAddress} {image : KernelSections} {entries : List MemmapEntry}

theorem valid_initTables (entries : List MemmapEntry) (kaddr : KernelAddress)
    (image : KernelSections) (hh : Word) (mem : Mem) :
    (physical hh ⟨initTables entries kaddr image.toKernelImage, mem⟩).Valid 0#64 := by
  have hhighest := (initTables_spec entries kaddr image.toKernelImage).1
  have hlt := clampedHighestPage_lt entries
  refine ⟨?_, initTables_zero_used entries kaddr image.toKernelImage, ?_⟩
  · change (initTables entries kaddr image.toKernelImage).highestPage < _
    rw [hhighest]
    exact hlt
  · change (0#64).toNat +
      ((initTables entries kaddr image.toKernelImage).highestPage + 1) * 4096 ≤ _
    unfold pmmBitmapSize at hlt
    rw [hhighest, BitVec.toNat_zero]
    omega

/-- A free frame is a page of memory. -/
theorem wholePage_of_free
    (htop : ∀ entry ∈ entries, entry.base.toNat + entry.length.toNat < 2 ^ 46) {g : ℕ}
    (hfree : (initTables entries kaddr image.toKernelImage).Free g) :
    ∃ entry ∈ entries, WholePage entry (frameAddr g) := by
  obtain ⟨⟨⟨entry, hentry, hg⟩, -⟩, -⟩ :=
    ((initTables_spec entries kaddr image.toKernelImage).2 g).mp hfree
  have hbelow := htop entry hentry
  obtain ⟨-, hbase, hend⟩ := inside_of_mem_entryPages (by omega) hg
  have hnat : (frameAddr g).toNat = g * 4096 := toNat_frameAddr (by unfold frameLimit; omega)
  exact ⟨entry, hentry, by omega, by omega, by omega⟩

/-- The direct map does not put a free frame at `NULL`. -/
theorem Layout.free_nonnull (hlayout : Layout hh kaddr image entries) (g : ℕ)
    (hfree : (initTables entries kaddr image.toKernelImage).Free g) : frameVirt hh g ≠ 0#64 := by
  obtain ⟨entry, hentry, hwhole⟩ := wholePage_of_free hlayout.entry_top hfree
  intro hzero
  refine hlayout.direct_low entry hentry (frameAddr g) hwhole 0#64 (by decide) ?_
  exact congrArg pageNumber hzero

theorem mem_kernel_iff (haligned : kaddr.virtualBase.toNat % 4096 = 0) {v : Word} :
    v ∈ pageAddrs kaddr.virtualBase (kernelVirtEnd image) ↔ KernelPage kaddr image v := by
  have hend : (kernelVirtEnd image).toNat % 4096 = 0 := alignUp_mod image.bssEnd
  rw [mem_pageAddrs haligned hend]
  constructor
  · rintro ⟨haligned, hle, hlt⟩
    exact ⟨haligned, hle, hlt⟩
  · rintro ⟨haligned, hle, hlt⟩
    exact ⟨haligned, hle, hlt⟩

theorem kernelPhys_aligned (hlayout : Layout hh kaddr image entries) {v : Word}
    (hv : KernelPage kaddr image v) : (kernelPhys kaddr v).toNat % 4096 = 0 := by
  have hpage := hv.aligned
  have hvirtual := hlayout.virtualBase_aligned
  have hphysical := hlayout.physicalBase_aligned
  unfold kernelPhys
  rw [BitVec.toNat_add, BitVec.toNat_sub]
  omega

theorem kernelPhys_lt (hfits : FitsEntry kaddr image) {v : Word} (hv : KernelPage kaddr image v) :
    (kernelPhys kaddr v).toNat < 2 ^ 52 := by
  have hbase := hv.base_le
  have hend := hv.lt_end
  unfold FitsEntry at hfits
  unfold kernelPhys
  rw [BitVec.toNat_add, BitVec.toNat_sub]
  omega

theorem kernelCall_proper (hfits : FitsEntry kaddr image) {v : Word}
    (hv : KernelPage kaddr image v) : (kernelCall kaddr image v).Proper :=
  ⟨kernelPhys_lt hfits hv, kernelFlags_proper image v⟩

/-! ## Pages are mapped once -/

/-- An image that has two addresses for one page has the first page, too. -/
theorem Layout.kernel_injective (hlayout : Layout hh kaddr image entries) {v w : Word}
    (hv : KernelPage kaddr image v) (hw : KernelPage kaddr image w)
    (hpage : pageNumber v = pageNumber w) : v = w := by
  have hfar : ∀ v w : Word, KernelPage kaddr image v → KernelPage kaddr image w →
      pageNumber v = pageNumber w → ¬ v.toNat < w.toNat := by
    intro v w hv hw hpage hlt
    obtain ⟨halignedv, hbasev, -⟩ := hv
    obtain ⟨halignedw, -, hendw⟩ := hw
    have hwlt := w.isLt
    unfold pageNumber at hpage
    have hnat : (BitVec.ofNat 64 (w.toNat / 2 ^ 48 * 2 ^ 48)).toNat =
        w.toNat / 2 ^ 48 * 2 ^ 48 := by
      rw [BitVec.toNat_ofNat]
      omega
    refine hlayout.kernel_low (BitVec.ofNat 64 (w.toNat / 2 ^ 48 * 2 ^ 48)) ⟨?_, ?_, ?_⟩ 0#64
      (by decide) ?_
    · rw [hnat]
      omega
    · rw [hnat]
      omega
    · rw [hnat]
      omega
    · unfold pageNumber
      rw [hnat, BitVec.toNat_zero]
      omega
  have hvw := hfar v w hv hw hpage
  have hwv := hfar w v hw hv hpage.symm
  exact BitVec.eq_of_toNat_eq (by omega)

/-- Offsets keep the pages below 2^46 apart. -/
theorem pageNumber_add_injective {hh p q : Word} (haligned : hh.toNat % 4096 = 0)
    (hp : p.toNat % 4096 = 0) (hq : q.toNat % 4096 = 0) (hp' : p.toNat < 2 ^ 46)
    (hq' : q.toNat < 2 ^ 46) (hpage : pageNumber (p + hh) = pageNumber (q + hh)) : p = q := by
  have hlt := hh.isLt
  unfold pageNumber at hpage
  rw [BitVec.toNat_add, BitVec.toNat_add] at hpage
  exact BitVec.eq_of_toNat_eq (by omega)

theorem Layout.direct_injective (hlayout : Layout hh kaddr image entries) {e f : MemmapEntry}
    (he : e ∈ entries) (hf : f ∈ entries) {p q : Word} (hp : WholePage e p) (hq : WholePage f q)
    (hpage : pageNumber (p + hh) = pageNumber (q + hh)) : p = q :=
  pageNumber_add_injective hlayout.offset_aligned hp.aligned hq.aligned
    (hp.lt (hlayout.entry_top e he)) (hq.lt (hlayout.entry_top f hf)) hpage

theorem identity_injective {p q : Word} (hp : p.toNat % 4096 = 0) (hq : q.toNat % 4096 = 0)
    (hp' : p.toNat < 0x100000) (hq' : q.toNat < 0x100000) (hpage : pageNumber p = pageNumber q) :
    p = q := by
  unfold pageNumber at hpage
  exact BitVec.eq_of_toNat_eq (by omega)

theorem mem_initCalls_iff (hlayout : Layout hh kaddr image entries) {call : MapCall} :
    call ∈ initCalls hh kaddr image entries ↔
      (∃ v, KernelPage kaddr image v ∧ call = kernelCall kaddr image v) ∨
      (∃ entry ∈ entries, ∃ p, WholePage entry p ∧ call = directCall hh p) ∨
      ∃ entry ∈ entries, ∃ p, WholePage entry p ∧ p.toNat < 0x100000 ∧ call = identityCall p := by
  unfold initCalls kernelCalls entryCalls
  rw [List.mem_append, List.mem_map, List.mem_flatMap]
  refine or_congr ?_ ?_
  · simp only [mem_kernel_iff hlayout.virtualBase_aligned, eq_comm]
  · constructor
    · rintro ⟨entry, hentry, hmem⟩
      have htop := hlayout.entry_top entry hentry
      rcases List.mem_append.mp hmem with hdirect | hidentity
      · obtain ⟨p, hp, rfl⟩ := List.mem_map.mp hdirect
        exact .inl ⟨entry, hentry, p, (mem_direct_iff htop).mp hp, rfl⟩
      · obtain ⟨p, hp, rfl⟩ := List.mem_map.mp hidentity
        obtain ⟨hwhole, hlow⟩ := (mem_identity_iff htop).mp hp
        exact .inr ⟨entry, hentry, p, hwhole, hlow, rfl⟩
    · rintro (⟨entry, hentry, p, hwhole, rfl⟩ | ⟨entry, hentry, p, hwhole, hlow, rfl⟩)
      · have htop := hlayout.entry_top entry hentry
        refine ⟨entry, hentry, List.mem_append_left _ (List.mem_map_of_mem ?_)⟩
        exact (mem_direct_iff htop).mpr hwhole
      · have htop := hlayout.entry_top entry hentry
        refine ⟨entry, hentry, List.mem_append_right _ (List.mem_map_of_mem ?_)⟩
        exact (mem_identity_iff htop).mpr ⟨hwhole, hlow⟩

/-- Calls for the same page ask for the same. -/
theorem initCalls_consistent (hlayout : Layout hh kaddr image entries) :
    ∀ c ∈ initCalls hh kaddr image entries, ∀ d ∈ initCalls hh kaddr image entries,
      c.page = d.page → c.binding = d.binding := by
  intro c hc d hd hpage
  rcases (mem_initCalls_iff hlayout).mp hc with
    ⟨v, hv, rfl⟩ | ⟨e, he, p, hp, rfl⟩ | ⟨e, he, p, hp, hlow, rfl⟩
  · rcases (mem_initCalls_iff hlayout).mp hd with
      ⟨w, hw, rfl⟩ | ⟨f, hf, q, hq, rfl⟩ | ⟨f, hf, q, hq, hlow', rfl⟩
    · rw [hlayout.kernel_injective hv hw hpage]
    · exact absurd hpage (hlayout.kernel_direct v hv f hf q hq)
    · exact absurd hpage (hlayout.kernel_low v hv q hlow')
  · rcases (mem_initCalls_iff hlayout).mp hd with
      ⟨w, hw, rfl⟩ | ⟨f, hf, q, hq, rfl⟩ | ⟨f, hf, q, hq, hlow', rfl⟩
    · exact absurd hpage.symm (hlayout.kernel_direct w hw e he p hp)
    · rw [hlayout.direct_injective he hf hp hq hpage]
    · exact absurd hpage (hlayout.direct_low e he p hp q hlow')
  · rcases (mem_initCalls_iff hlayout).mp hd with
      ⟨w, hw, rfl⟩ | ⟨f, hf, q, hq, rfl⟩ | ⟨f, hf, q, hq, hlow', rfl⟩
    · exact absurd hpage.symm (hlayout.kernel_low w hw p hlow)
    · exact absurd hpage.symm (hlayout.direct_low f hf q hq p hlow)
    · rw [identity_injective hp.aligned hq.aligned hlow hlow' hpage]

end Layout

/-! ## The result -/

/-- `vmm_virt_to_phys` and the tables have `phys` for the page at `v`, with the flags. -/
def MapsTo (hh : Word) (s : Machine) (r : ℕ) (v phys flags : Word) : Prop :=
  vmmVirtToPhys hh s ⟨frameVirt hh r⟩ v = phys ∧
    (leafEntry hh s.mem r v).map (fun e => (⟨pteGetAddr e, pteGetFlags e⟩ : Binding)) =
      some ⟨phys, flags⟩

section Result

variable {hh : Word} {r : ℕ} {s₀ s : Machine} {calls : List MapCall}

/-- The tables are what the calls have asked for, and so is what `vmm_virt_to_phys` returns. -/
theorem Reached.lookup (h : Reached hh r s₀ calls s)
    (hstart : EmptyPml4 0#64 (physical hh s₀) r) (v : Word) :
    (vmmVirtToPhys hh s ⟨frameVirt hh r⟩ v =
      match Loop.writeAll MapCall.page MapCall.binding calls (fun _ => none) (pageNumber v) with
      | some b => b.frame + v % 4096#64
      | none => -1#64) ∧
    (leafEntry hh s.mem r v).map (fun e => (⟨pteGetAddr e, pteGetFlags e⟩ : Binding)) =
      Loop.writeAll MapCall.page MapCall.binding calls (fun _ => none) (pageNumber v) := by
  have htables := h.tableInv hstart
  obtain ⟨hnull, σ, hrun, hmachine, hbindings⟩ := h
  have hinv : StateInv 0#64 r σ :=
    stateInv_of_run hstart (hrun.weaken fun _ _ => State.Proper.allowed)
  have hproper := bindings_proper hrun
  have hlink : link 0#64 σ.machine.mem = link hh s.mem := by
    rw [hmachine]
    exact link_shift hh s.mem
  rw [← hbindings, vmmVirtToPhys_physical htables hnull.tables, ← hmachine]
  refine ⟨hinv.vmmVirtToPhys_lookup hproper v, ?_⟩
  rw [← hinv.leafEntry_lookup hproper v]
  unfold leafEntry
  rw [hlink]

/-- A page that a call was made for is mapped as the call asked, if all calls for it did so. -/
theorem Reached.mapsTo (h : Reached hh r s₀ calls s) (hstart : EmptyPml4 0#64 (physical hh s₀) r)
    (hsame : ∀ c ∈ calls, ∀ d ∈ calls, c.page = d.page → c.binding = d.binding) {call : MapCall}
    (hcall : call ∈ calls) (hvirt : call.virt.toNat % 4096 = 0)
    (hphys : call.phys.toNat % 4096 = 0) :
    MapsTo hh s r call.virt call.phys (call.flags ||| ptePresent) := by
  obtain ⟨htranslate, hleaf⟩ := h.lookup hstart call.virt
  have hwritten : Loop.writeAll MapCall.page MapCall.binding calls (fun _ => none)
      (pageNumber call.virt) = some ⟨call.phys, call.flags ||| ptePresent⟩ := by
    refine (Loop.writeAll_of_mem calls hsame hcall).trans ?_
    unfold MapCall.binding bindingOf
    rw [alignDown_of_aligned hphys]
  rw [hwritten] at htranslate hleaf
  refine ⟨?_, hleaf⟩
  rw [htranslate, mod_of_aligned hvirt]
  exact BitVec.add_zero call.phys

/-- A page that no call was made for is not mapped. -/
theorem Reached.unmapped (h : Reached hh r s₀ calls s) (hstart : EmptyPml4 0#64 (physical hh s₀) r)
    {v : Word} (hnone : ∀ call ∈ calls, call.page ≠ pageNumber v) :
    vmmVirtToPhys hh s ⟨frameVirt hh r⟩ v = -1#64 ∧ leafEntry hh s.mem r v = none := by
  obtain ⟨htranslate, hleaf⟩ := h.lookup hstart v
  have hwritten : Loop.writeAll MapCall.page MapCall.binding calls (fun _ => none)
      (pageNumber v) = none := Loop.writeAll_of_ne calls hnone
  rw [hwritten] at htranslate hleaf
  exact ⟨htranslate, Option.map_eq_none_iff.mp hleaf⟩

/-- A leaf was written by one of the calls. -/
theorem Reached.leaf_of_call (h : Reached hh r s₀ calls s)
    (hstart : EmptyPml4 0#64 (physical hh s₀) r)
    (hsame : ∀ c ∈ calls, ∀ d ∈ calls, c.page = d.page → c.binding = d.binding) {v e : Word}
    (hleaf : leafEntry hh s.mem r v = some e) :
    ∃ call ∈ calls, pteGetFlags e = call.flags ||| ptePresent := by
  by_cases hcall : ∃ call ∈ calls, call.page = pageNumber v
  · obtain ⟨call, hmem, hpage⟩ := hcall
    have hwritten := (h.lookup hstart v).2
    rw [hleaf, ← hpage, Loop.writeAll_of_mem calls hsame hmem, Option.map_some] at hwritten
    exact ⟨call, hmem, congrArg Binding.flags (Option.some.inj hwritten)⟩
  · have hnone := (h.unmapped hstart (v := v) fun call hmem hpage => hcall ⟨call, hmem, hpage⟩).2
    rw [hleaf] at hnone
    cases hnone

end Result

/-- Pages outside text and read-only data have the same flags, be they data or not. -/
theorem kernelFlags_or_present (image : KernelSections) (v : Word) :
    kernelFlags image v ||| ptePresent =
      if v ≥ image.textStart ∧ v < image.textEnd then ptePresent
      else if v ≥ image.rodataStart ∧ v < image.rodataEnd then ptePresent ||| pteNx
      else ptePresent ||| pteWritable ||| pteNx := by
  unfold kernelFlags
  split
  · decide
  · split
    · decide
    · split <;> decide

theorem memoryFlags_or_present :
    memoryFlags ||| ptePresent = ptePresent ||| pteWritable ||| pteNx := by decide

/-- No flags of `vmm_init` allow both to write and to execute. -/
theorem initCalls_not_writable_executable {hh : Word} {kaddr : KernelAddress}
    {image : KernelSections} {entries : List MemmapEntry} {call : MapCall}
    (hcall : call ∈ initCalls hh kaddr image entries)
    (hwritable : HasFlag (call.flags ||| ptePresent) pteWritable) :
    HasFlag (call.flags ||| ptePresent) pteNx := by
  have hmemory : HasFlag (memoryFlags ||| ptePresent) pteNx := by decide
  rcases List.mem_append.mp hcall with hkernel | hentry
  · obtain ⟨v, -, rfl⟩ := List.mem_map.mp hkernel
    change HasFlag (kernelFlags image v ||| ptePresent) pteWritable at hwritable
    change HasFlag (kernelFlags image v ||| ptePresent) pteNx
    revert hwritable
    unfold kernelFlags
    split
    · decide
    · split
      · decide
      · split <;> decide
  · obtain ⟨entry, -, hmem⟩ := List.mem_flatMap.mp hentry
    rcases List.mem_append.mp hmem with hdirect | hidentity
    · obtain ⟨p, -, rfl⟩ := List.mem_map.mp hdirect
      exact hmemory
    · obtain ⟨p, -, rfl⟩ := List.mem_map.mp hidentity
      exact hmemory

theorem hasFlag_pteGetFlags {e flag : Word} (hflag : pteGetAddr flag = 0#64) :
    HasFlag (pteGetFlags e) flag ↔ HasFlag e flag := by
  have hself := pteGetFlags_of_pteGetAddr hflag
  unfold pteGetFlags at hself ⊢
  unfold HasFlag
  rw [BitVec.and_assoc, BitVec.and_comm (~~~ pteAddrMask), hself]

/-- After `pmm_init` and `vmm_init`, the pagemap of the kernel maps the image of the kernel with the
permissions of its sections, all memory in the direct map and the memory below 1 MiB where it is,
and nothing else, and no page can be both written and executed. -/
theorem boot_address_space {hh : Word} {kaddr : KernelAddress} {image : KernelSections}
    {entries : List MemmapEntry} {mem : Mem} {pmm : Pmm} {space : AddressSpace}
    (hlayout : Layout hh kaddr image entries) (hfits : FitsEntry kaddr image)
    (hpmm : pmmInit (some entries) (some kaddr) image.toKernelImage = .ok pmm)
    (hvmm : vmmInit (some hh) (some kaddr) (some entries) image ⟨pmm, mem⟩ = .ok space) :
    ∃ r, space.kernelPagemap = ⟨frameVirt hh r⟩ ∧ space.cr3 = frameAddr r ∧
      (∀ v, KernelPage kaddr image v →
        MapsTo hh space.machine r v (v - kaddr.virtualBase + kaddr.physicalBase)
          (if v ≥ image.textStart ∧ v < image.textEnd then ptePresent
          else if v ≥ image.rodataStart ∧ v < image.rodataEnd then ptePresent ||| pteNx
          else ptePresent ||| pteWritable ||| pteNx)) ∧
      (∀ entry ∈ entries, ∀ p, WholePage entry p →
        MapsTo hh space.machine r (p + hh) p (ptePresent ||| pteWritable ||| pteNx) ∧
        (p.toNat < 0x100000 →
          MapsTo hh space.machine r p p (ptePresent ||| pteWritable ||| pteNx))) ∧
      (∀ x, (∀ v, KernelPage kaddr image v → pageNumber v ≠ pageNumber x) →
        (∀ entry ∈ entries, ∀ p, WholePage entry p → pageNumber (p + hh) ≠ pageNumber x ∧
          (p.toNat < 0x100000 → pageNumber p ≠ pageNumber x)) →
        vmmVirtToPhys hh space.machine space.kernelPagemap x = -1#64 ∧
          leafEntry hh space.machine.mem r x = none) ∧
      ∀ x e, leafEntry hh space.machine.mem r x = some e →
        ¬ (HasFlag e pteWritable ∧ ¬ HasFlag e pteNx) := by
  obtain rfl := pmmInit_ok hpmm
  have hvalid := valid_initTables entries kaddr image hh mem
  obtain ⟨r, hfree, hpagemap, hcr3, hreached⟩ := vmmInit_ok hvalid hlayout.free_nonnull
    hlayout.entry_top
    (fun v hv => kernelCall_proper hfits ((mem_kernel_iff hlayout.virtualBase_aligned).mp hv)) hvmm
  have hstart := clearPml4_emptyPml4 hvalid hfree
  have hsame := initCalls_consistent hlayout
  refine ⟨r, hpagemap, hcr3, fun v hv => ?_, fun entry hentry p hp => ⟨?_, fun hlow => ?_⟩,
    fun x hkernel hmemory => ?_, fun x e hleaf => ?_⟩
  · have hcall : kernelCall kaddr image v ∈ initCalls hh kaddr image entries :=
      (mem_initCalls_iff hlayout).mpr (.inl ⟨v, hv, rfl⟩)
    have hmaps := hreached.mapsTo hstart hsame hcall hv.aligned (kernelPhys_aligned hlayout hv)
    rw [← kernelFlags_or_present]
    exact hmaps
  · have hcall : directCall hh p ∈ initCalls hh kaddr image entries :=
      (mem_initCalls_iff hlayout).mpr (.inr (.inl ⟨entry, hentry, p, hp, rfl⟩))
    have haligned : (directCall hh p).virt.toNat % 4096 = 0 := by
      have hpage := hp.aligned
      have hoffset := hlayout.offset_aligned
      change (p + hh).toNat % 4096 = 0
      rw [BitVec.toNat_add]
      omega
    have hmaps := hreached.mapsTo hstart hsame hcall haligned hp.aligned
    rw [← memoryFlags_or_present]
    exact hmaps
  · have hcall : identityCall p ∈ initCalls hh kaddr image entries :=
      (mem_initCalls_iff hlayout).mpr (.inr (.inr ⟨entry, hentry, p, hp, hlow, rfl⟩))
    have hmaps := hreached.mapsTo hstart hsame hcall hp.aligned hp.aligned
    rw [← memoryFlags_or_present]
    exact hmaps
  · rw [hpagemap]
    refine hreached.unmapped hstart fun call hcall => ?_
    rcases (mem_initCalls_iff hlayout).mp hcall with
      ⟨v, hv, rfl⟩ | ⟨entry, hentry, p, hp, rfl⟩ | ⟨entry, hentry, p, hp, hlow, rfl⟩
    · exact hkernel v hv
    · exact (hmemory entry hentry p hp).1
    · exact (hmemory entry hentry p hp).2 hlow
  · rintro ⟨hwritable, hexecutable⟩
    obtain ⟨call, hcall, hflags⟩ := hreached.leaf_of_call hstart hsame hleaf
    rw [← hasFlag_pteGetFlags (by decide), hflags] at hwritable hexecutable
    exact hexecutable (initCalls_not_writable_executable hcall hwritable)

/-! ## A machine that boots -/

/-- Two pages of low memory and 16 pages of free memory at 1 MiB. -/
def bootEntries : List MemmapEntry :=
  [⟨0x1000#64, 0x2000#64, .other 1#64⟩, ⟨0x100000#64, 0x10000#64, .usable⟩]

def bootAddress (physicalBase : Word) : KernelAddress :=
  ⟨physicalBase, 0xffffffff80000000#64⟩

/-- A page each for text and read-only data, and the bitmap. -/
def bootImage : KernelSections where
  textStart := 0xffffffff80001000#64
  textEnd := 0xffffffff80002000#64
  rodataStart := 0xffffffff80002000#64
  rodataEnd := 0xffffffff80003000#64
  dataStart := 0xffffffff80003000#64
  memoryBitmap := 0xffffffff80003000#64
  bssEnd := 0xffffffff80103000#64

theorem toNat_kernelVirtEnd_bootImage :
    (kernelVirtEnd bootImage).toNat = 0xffffffff80103000 := by decide

theorem wholePage_bootEntries {entry : MemmapEntry} (hentry : entry ∈ bootEntries) {p : Word}
    (hp : WholePage entry p) : 0x1000 ≤ p.toNat ∧ p.toNat < 0x110000 := by
  obtain ⟨-, hbase, htop⟩ := hp
  rcases List.mem_cons.mp hentry with rfl | hentry
  · norm_num at hbase htop
    omega
  · obtain rfl := List.mem_singleton.mp hentry
    norm_num at hbase htop
    omega

section Placement

variable {physicalBase : Word}

theorem bootLayout (haligned : physicalBase.toNat % 4096 = 0) :
    Layout directMap (bootAddress physicalBase) bootImage bootEntries where
  physicalBase_aligned := haligned
  virtualBase_aligned := show (0xffffffff80000000#64).toNat % 4096 = 0 by decide
  offset_aligned := by decide
  entry_top := by decide
  kernel_direct := by
    intro v hv entry hentry p hp
    obtain ⟨-, hbase, hend⟩ := hv
    obtain ⟨hlow, hhigh⟩ := wholePage_bootEntries hentry hp
    rw [toNat_kernelVirtEnd_bootImage] at hend
    have hbase' : 0xffffffff80000000 ≤ v.toNat := hbase
    unfold pageNumber directMap
    rw [BitVec.toNat_add, BitVec.toNat_ofNat]
    omega
  kernel_low := by
    intro v hv w hw
    obtain ⟨-, hbase, hend⟩ := hv
    rw [toNat_kernelVirtEnd_bootImage] at hend
    have hbase' : 0xffffffff80000000 ≤ v.toNat := hbase
    unfold pageNumber
    omega
  direct_low := by
    intro entry hentry p hp w hw
    obtain ⟨hlow, hhigh⟩ := wholePage_bootEntries hentry hp
    unfold pageNumber directMap
    rw [BitVec.toNat_add, BitVec.toNat_ofNat]
    omega

/-- The machine after `pmm_init`. -/
def bootMachine (physicalBase : Word) : Machine :=
  ⟨initTables bootEntries (bootAddress physicalBase) bootImage.toKernelImage, fun _ => 0#8⟩

/-- All frames at 1 MiB are free when the kernel was put above them. -/
theorem bootMachine_card (hkernel : 272 ≤ (kPhysStart (bootAddress physicalBase)).toNat / 4096)
    (hbitmap : 272 ≤
      (bitmapPhysStart (bootAddress physicalBase) bootImage.toKernelImage).toNat / 4096) :
    16 ≤ (bootMachine physicalBase).pmm.freeFrames.card := by
  have hfree : ∀ f ∈ Finset.Ico 256 272, (bootMachine physicalBase).pmm.Free f := by
    intro f hf
    obtain ⟨hge, hlt⟩ := Finset.mem_Ico.mp hf
    refine ((initTables_spec _ _ _).2 f).mpr ⟨⟨⟨_, List.mem_cons_of_mem _ List.mem_cons_self, ?_⟩,
      ?_⟩, fun hmem => ?_, fun hmem => ?_, fun hmem => ?_⟩
    · rw [show entryPages ⟨0x100000#64, 0x10000#64, .usable⟩ = pageRange 256 272 by decide +kernel]
      exact mem_pageRange.mpr ⟨hge, hlt⟩
    · rw [show clampedHighestPage bootEntries = 272 by decide +kernel]
      exact hlt.le
    · have hfirst := (mem_pageRange.mp hmem).1
      omega
    · have hfirst := (mem_pageRange.mp hmem).1
      omega
    · have hlast := (mem_pageRange.mp hmem).2
      omega
  calc 16 = (Finset.Ico 256 272).card := by decide
    _ ≤ (bootMachine physicalBase).pmm.freeFrames.card :=
      Finset.card_le_card fun f hf => mem_freeFrames.mpr (hfree f hf)

theorem directMap_upperPath {p : Word} (hp : p.toNat < 0x110000) :
    upperPath (p + directMap) = upperPath directMap := by
  refine upperPath_eq ?_
  unfold directMap
  rw [BitVec.toNat_add, BitVec.toNat_ofNat]
  omega

theorem kernel_upperPath {v : Word} (hv : KernelPage (bootAddress physicalBase) bootImage v) :
    upperPath v = upperPath 0xffffffff80000000#64 := by
  obtain ⟨-, hbase, hend⟩ := hv
  have hbase' : 0xffffffff80000000 ≤ v.toNat := hbase
  rw [toNat_kernelVirtEnd_bootImage] at hend
  refine upperPath_eq ?_
  rw [BitVec.toNat_ofNat]
  omega

end Placement

/-- `vmm_init` returns when the kernel is mapped by proper calls, or by calls that do the same. -/
theorem vmmInit_boots {physicalBase : Word} {phys flags : Word → Word}
    (haligned : physicalBase.toNat % 4096 = 0)
    (hcard : 16 ≤ (bootMachine physicalBase).pmm.freeFrames.card)
    (hcall : ∀ v, KernelPage (bootAddress physicalBase) bootImage v →
      (MapCall.mk v (phys v) (flags v)).Proper ∧ ∀ s pagemap,
        vmmMapPage directMap s pagemap v (kernelPhys (bootAddress physicalBase) v)
          (kernelFlags bootImage v) = vmmMapPage directMap s pagemap v (phys v) (flags v)) :
    ∃ space, vmmInit (some directMap) (some (bootAddress physicalBase)) (some bootEntries) bootImage
      (bootMachine physicalBase) = .ok space := by
  have hlayout := bootLayout haligned
  have hentries : ∀ entry ∈ bootEntries, Compact directMap entry := fun entry hentry =>
    ⟨hlayout.entry_top entry hentry, upperPath directMap, fun p hp =>
      directMap_upperPath (wholePage_bootEntries hentry hp).2⟩
  obtain ⟨space, hok, -⟩ := vmmInit_succeeds (n := 0)
    (valid_initTables bootEntries (bootAddress physicalBase) bootImage directMap fun _ => 0#8)
    hlayout.free_nonnull (fun v hv => kernel_upperPath ((mem_kernel_iff hlayout.virtualBase_aligned).mp hv))
    (fun v hv => hcall v ((mem_kernel_iff hlayout.virtualBase_aligned).mp hv)) hentries hcard
  exact ⟨space, hok⟩

theorem bootImage_fitsEntry : FitsEntry (bootAddress 0x200000#64) bootImage := by
  unfold FitsEntry
  decide

theorem boot_address_space_bootLayout :
    ∃ space r, vmmInit (some directMap) (some (bootAddress 0x200000#64)) (some bootEntries)
        bootImage (bootMachine 0x200000#64) = .ok space ∧
      MapsTo directMap space.machine r 0xffffffff80001000#64 0x201000#64 ptePresent ∧
      MapsTo directMap space.machine r 0xffff800000100000#64 0x100000#64
        (ptePresent ||| pteWritable ||| pteNx) ∧
      MapsTo directMap space.machine r 0x2000#64 0x2000#64
        (ptePresent ||| pteWritable ||| pteNx) := by
  have haligned : (0x200000#64).toNat % 4096 = 0 := by decide
  have hfits := bootImage_fitsEntry
  obtain ⟨space, hok⟩ := vmmInit_boots haligned (bootMachine_card (by decide) (by decide))
    fun v hv => ⟨kernelCall_proper hfits hv, fun _ _ => rfl⟩
  obtain ⟨r, -, -, hkernel, hmemory, -⟩ := boot_address_space (bootLayout haligned) hfits rfl hok
  have htext := hkernel 0xffffffff80001000#64 ⟨by decide, by decide, by decide⟩
  have hram := hmemory ⟨0x100000#64, 0x10000#64, .usable⟩
    (List.mem_cons_of_mem _ List.mem_cons_self) 0x100000#64 ⟨by decide, by decide, by decide⟩
  have hlow := hmemory ⟨0x1000#64, 0x2000#64, .other 1#64⟩ List.mem_cons_self 0x2000#64
    ⟨by decide, by decide, by decide⟩
  exact ⟨space, r, hok, htext, hram.1, hlow.2 (by decide)⟩

/-! ## A kernel above the physical addresses -/

/-- `vmm_virt_to_phys` has 52 bits for what it finds. -/
theorem vmmVirtToPhys_lt (hh : Word) (s : Machine) (pagemap : Pagemap) (v : Word) :
    vmmVirtToPhys hh s pagemap v = -1#64 ∨ (vmmVirtToPhys hh s pagemap v).toNat < 2 ^ 52 := by
  unfold vmmVirtToPhys
  dsimp only
  split
  · exact .inl rfl
  · split
    · exact .inl rfl
    · split
      · exact .inl rfl
      · split
        · exact .inl rfl
        · refine .inr ?_
          rw [BitVec.toNat_add, BitVec.toNat_umod, toNat_pteGetAddr,
            show (4096#64).toNat = 4096 from rfl]
          omega

/-- An entry has the same bits for an address above 2^52 as for flags of the architecture. -/
theorem leafOf_high {phys : Word} (hphys : phys.toNat < 2 ^ 52) (flags : Word) :
    leafOf (phys + 0x10000000000000#64) flags =
      leafOf phys (flags ||| 0x10000000000000#64) := by
  have hbit : phys &&& 0x10000000000000#64 = 0#64 := by
    rw [show 0x10000000000000#64 = BitVec.twoPow 64 52 by decide, BitVec.and_twoPow, if_neg]
    rw [BitVec.getLsbD, Nat.testBit_lt_two_pow hphys]
    exact Bool.false_ne_true
  unfold leafOf alignDown
  rw [BitVec.add_eq_or_of_and_eq_zero _ _ hbit, BitVec.and_or_distrib_right,
    show 0x10000000000000#64 &&& ~~~ (4096#64 - 1#64) = 0x10000000000000#64 by decide,
    BitVec.or_assoc _ _ flags, BitVec.or_comm _ flags]

/-- The text of a kernel at 2^52 is not found there. -/
theorem high_kernel_not_found :
    ∃ pmm space, Layout directMap (bootAddress 0x10000000200000#64) bootImage bootEntries ∧
      pmmInit (some bootEntries) (some (bootAddress 0x10000000200000#64)) bootImage.toKernelImage =
        .ok pmm ∧
      vmmInit (some directMap) (some (bootAddress 0x10000000200000#64)) (some bootEntries) bootImage
        ⟨pmm, fun _ => 0#8⟩ = .ok space ∧
      KernelPage (bootAddress 0x10000000200000#64) bootImage 0xffffffff80001000#64 ∧
      vmmVirtToPhys directMap space.machine space.kernelPagemap 0xffffffff80001000#64 ≠
        0xffffffff80001000#64 - (bootAddress 0x10000000200000#64).virtualBase +
          (bootAddress 0x10000000200000#64).physicalBase := by
  have haligned : (0x10000000200000#64).toNat % 4096 = 0 := by decide
  have hfits := bootImage_fitsEntry
  have hcall : ∀ v, KernelPage (bootAddress 0x10000000200000#64) bootImage v →
      (MapCall.mk v (kernelPhys (bootAddress 0x200000#64) v)
        (kernelFlags bootImage v ||| 0x10000000000000#64)).Proper ∧
      ∀ s pagemap, vmmMapPage directMap s pagemap v
        (kernelPhys (bootAddress 0x10000000200000#64) v) (kernelFlags bootImage v) =
          vmmMapPage directMap s pagemap v (kernelPhys (bootAddress 0x200000#64) v)
            (kernelFlags bootImage v ||| 0x10000000000000#64) := by
    intro v hv
    have hlt := kernelPhys_lt hfits ⟨hv.aligned, hv.base_le, hv.lt_end⟩
    refine ⟨⟨hlt, ?_⟩, fun s pagemap => vmmMapPage_congr ?_ ?_ directMap s pagemap v⟩
    · change pteGetAddr (kernelFlags bootImage v ||| 0x10000000000000#64) = 0#64
      rw [pteGetAddr_or, kernelFlags_proper]
      decide
    · rw [← leafOf_high hlt]
      unfold kernelPhys bootAddress
      rw [BitVec.add_assoc]
      congr 2
    · rw [BitVec.and_or_distrib_right, show 0x10000000000000#64 &&& pteUser = 0#64 by decide,
        BitVec.or_zero]
  obtain ⟨space, hok⟩ := vmmInit_boots haligned (bootMachine_card (by decide) (by decide)) hcall
  refine ⟨_, space, bootLayout haligned, rfl, hok, ⟨by decide, by decide, by decide⟩, ?_⟩
  intro heq
  rcases vmmVirtToPhys_lt directMap space.machine space.kernelPagemap 0xffffffff80001000#64 with
    hnone | hlt
  · rw [hnone] at heq
    exact absurd heq (by decide)
  · rw [heq] at hlt
    exact absurd hlt (by decide)

end Osiris.Vmm
