import Osiris.Verification.Vmm.Map

/-! # Page tables by physical address

Where memory is mapped does not matter to page tables, except that no table may be at `NULL`. -/

namespace Osiris.Vmm

open ByteMemory Strings Page Radix

/-- The machine with every frame at its physical address. -/
def physical (hh : Word) (s : Machine) : Machine :=
  { s with mem := shift s.mem hh }

section Shift

variable {hh : Word} {s : Machine} {f : ℕ}

theorem frameVirt_eq (hh : Word) (f : ℕ) : frameVirt hh f = frameVirt 0#64 f + hh := by
  unfold frameVirt
  rw [BitVec.add_zero]

theorem readEntry_shift {m : Mem} {table : Word} {index : Index} :
    readEntry (shift m hh) table index = readEntry m (table + hh) index := by
  unfold readEntry
  rw [load64_shift, add_right_comm]

theorem writeEntry_shift {m : Mem} {table value : Word} {index : Index} :
    writeEntry (shift m hh) table index value =
      shift (writeEntry m (table + hh) index value) hh := by
  unfold writeEntry
  rw [store64_shift, add_right_comm]

theorem memset_shift {m : Mem} {a : Word} {c n : BitVec 32} :
    memset (shift m hh) a c n = shift (memset m (a + hh) c n) hh :=
  fillUp_shift (rounds_le n)

theorem entry_shift (hh : Word) (m : Mem) (f : ℕ) (index : Index) :
    entry 0#64 (shift m hh) f index = entry hh m f index := by
  unfold entry
  rw [readEntry_shift, ← frameVirt_eq]

theorem link_shift (hh : Word) (m : Mem) : link 0#64 (shift m hh) = link hh m := by
  funext f index
  unfold link
  rw [entry_shift]

theorem allocatePage_physical (hh : Word) (s : Machine) :
    allocatePage 0#64 (physical hh s) =
      ((allocatePage hh s).1, physical hh (allocatePage hh s).2) := by
  unfold allocatePage physical
  dsimp only
  cases firstFree s.pmm with
  | none => rfl
  | some i =>
      dsimp only
      rw [memset_shift, BitVec.add_zero]

/-- `vmm_get_next_level` fails in both views, or finds or makes the same table. -/
theorem vmmGetNextLevel_physical (hh : Word) (s : Machine) (table : Word) (index : Index)
    (flags : Word) :
    (∃ s', vmmGetNextLevel hh s (table + hh) index true flags = (0#64, s') ∧
      vmmGetNextLevel 0#64 (physical hh s) table index true flags = (0#64, physical hh s')) ∨
    ∃ next s', vmmGetNextLevel hh s (table + hh) index true flags = (next + hh, s') ∧
      vmmGetNextLevel 0#64 (physical hh s) table index true flags = (next, physical hh s') ∧
      (next ≠ 0#64 ∨ readEntry s.mem (table + hh) index &&& ptePresent ≠ 0#64 ∧
        next = pteGetAddr (readEntry s.mem (table + hh) index)) := by
  have hentry : readEntry (physical hh s).mem table index = readEntry s.mem (table + hh) index :=
    readEntry_shift
  unfold vmmGetNextLevel
  dsimp only
  rw [hentry, allocatePage_physical]
  generalize hresult : allocatePage hh s = result
  obtain ⟨page, s₁⟩ := result
  by_cases hpresent : readEntry s.mem (table + hh) index &&& ptePresent ≠ 0#64
  · rw [if_pos hpresent, if_pos hpresent, BitVec.add_zero]
    exact .inr ⟨_, s, rfl, rfl, .inr ⟨hpresent, rfl⟩⟩
  · rw [if_neg hpresent, if_neg hpresent]
    simp only [Bool.not_true, Bool.false_eq_true, if_false]
    by_cases hnull : page = 0#64
    · rw [if_pos hnull, if_pos hnull]
      exact .inl ⟨s₁, rfl, rfl⟩
    · rw [if_neg hnull, if_neg hnull, BitVec.add_zero]
      refine .inr ⟨page, _, rfl, ?_, .inl hnull⟩
      unfold physical
      dsimp only
      rw [memset_shift, writeEntry_shift]

end Shift

/-! ## `vmm_map_page` -/

section MapPage

variable {hh : Word} {s : Machine} {r f : ℕ} {p : List Index} {es : List Word} {flags : Word}

theorem TableInv.nextLevel_physical (h : TableInv 0#64 (physical hh s) r) (hp : p.length ≤ 2)
    (hw : walk (link 0#64 (physical hh s).mem) r p = some (es, f)) (index : Index)
    (hflags : TableFlags flags) :
    (∃ s', vmmGetNextLevel hh s (frameVirt hh f) index true flags = (0#64, s') ∧
      vmmGetNextLevel 0#64 (physical hh s) (frameVirt 0#64 f) index true flags =
        (0#64, physical hh s')) ∨
    ∃ e g s', vmmGetNextLevel hh s (frameVirt hh f) index true flags = (frameVirt hh g, s') ∧
      vmmGetNextLevel 0#64 (physical hh s) (frameVirt 0#64 f) index true flags =
        (frameVirt 0#64 g, physical hh s') ∧
      frameVirt 0#64 g ≠ 0#64 ∧ NextTable 0#64 (physical hh s) f index flags e g (physical hh s') := by
  rw [frameVirt_eq hh f]
  rcases vmmGetNextLevel_physical hh s (frameVirt 0#64 f) index flags with
    hfail | ⟨next, s', heq, heq', hnext⟩
  · exact .inl hfail
  · rcases h.nextTable_cases hp hw index hflags with ⟨hnone, -⟩ | ⟨e, g, s₁, hok, hne, hstep⟩
    · -- the other view fails for want of a frame, so that the entry is not present
      have hzero : next = 0#64 := congrArg Prod.fst (heq'.symm.trans hnone)
      rcases hnext with hne | ⟨hpresent, hnext⟩
      · exact absurd hzero hne
      · have hlink : link 0#64 (physical hh s).mem f index =
            some (entry 0#64 (physical hh s).mem f index,
              frameOf (entry 0#64 (physical hh s).mem f index)) := by
          refine link_of_present ?_
          change HasFlag (readEntry (shift s.mem hh) (frameVirt 0#64 f) index) ptePresent
          rw [readEntry_shift]
          exact hpresent
        have hentry : entry 0#64 (physical hh s).mem f index =
            readEntry s.mem (frameVirt 0#64 f + hh) index := readEntry_shift
        have hnull := h.frameVirt_ne_zero hp hw hlink
        rw [hentry] at hnull
        unfold frameVirt at hnull
        rw [← pteGetAddr_eq_frameAddr, BitVec.add_zero] at hnull
        exact absurd (hnext.symm.trans hzero) hnull
    · right
      obtain ⟨hnext', hstate⟩ := Prod.mk.inj (heq'.symm.trans hok)
      rw [← hstate] at hstep
      refine ⟨e, g, s', ?_, ?_, hne, hstep⟩
      · rw [heq, hnext', ← frameVirt_eq]
      · rw [heq', hnext']

/-- `vmm_map_page` stops at a table that the direct map puts at `NULL`, or does the same in both
views, and puts no table of its own there when it succeeds. -/
theorem vmmMapPage_views (h : TableInv 0#64 (physical hh s) r) (virt phys flags : Word) :
    (∃ g, (g ∈ footprint (link 0#64 (physical hh s).mem) 3 r ∨ s.pmm.Free g) ∧
      frameVirt hh g = 0#64 ∧ (vmmMapPage hh s ⟨frameVirt hh r⟩ virt phys flags).1 = false) ∨
    vmmMapPage 0#64 (physical hh s) ⟨frameVirt 0#64 r⟩ virt phys flags =
      ((vmmMapPage hh s ⟨frameVirt hh r⟩ virt phys flags).1,
        physical hh (vmmMapPage hh s ⟨frameVirt hh r⟩ virt phys flags).2) ∧
    ((vmmMapPage hh s ⟨frameVirt hh r⟩ virt phys flags).1 = true →
      ∀ g ∈ footprint (link 0#64
          (physical hh (vmmMapPage hh s ⟨frameVirt hh r⟩ virt phys flags).2).mem) 3 r,
        g ∈ footprint (link 0#64 (physical hh s).mem) 3 r ∨ frameVirt hh g ≠ 0#64) := by
  have hflags := allocFlags_tableFlags flags
  have hknown : ∀ {s' : Machine} {q : List Index} {es' : List Word} {g : ℕ},
      Grown 0#64 (physical hh s) (physical hh s') r (allocFlags flags) → q.length ≤ 3 →
      walk (link 0#64 (physical hh s').mem) r q = some (es', g) →
        g ∈ footprint (link 0#64 (physical hh s).mem) 3 r ∨ s.pmm.Free g :=
    fun hgrown hq hw => hgrown.table_or_free (.inl (walk_mem_footprint hq hw))
  have hpath := pathOf_alignDown virt
  simp only [pathOf, List.cons.injEq, and_true] at hpath
  obtain ⟨hpml4, hpdpt, hpd, hpt⟩ := hpath
  unfold vmmMapPage
  simp only [hpml4, hpdpt, hpd, hpt]
  rw [show (if flags &&& pteUser ≠ 0#64 then ptePresent ||| pteWritable ||| pteUser
    else ptePresent ||| pteWritable) = allocFlags flags from rfl]
  rcases h.nextLevel_physical (p := []) (by simp) rfl (pml4Index virt) hflags with
    ⟨s₁, heq₁, heq₁'⟩ | ⟨e₁, g₁, s₁, heq₁, heq₁', hne₁, hnext₁⟩
  · rw [heq₁, heq₁']
    simp
  rw [heq₁, heq₁']
  obtain ⟨hgrown₁, hw₁⟩ := hnext₁.grown h (p := []) (by simp) rfl hflags
  by_cases hnull₁ : frameVirt hh g₁ = 0#64
  · exact .inl ⟨g₁, hknown hgrown₁ (by simp) hw₁, hnull₁, by simp [hnull₁]⟩
  simp only [if_neg hne₁, if_neg hnull₁]
  rcases hgrown₁.inv.nextLevel_physical (by simp) hw₁ (pdptIndex virt) hflags with
    ⟨s₂, heq₂, heq₂'⟩ | ⟨e₂, g₂, s₂, heq₂, heq₂', hne₂, hnext₂⟩
  · rw [heq₂, heq₂']
    simp
  rw [heq₂, heq₂']
  obtain ⟨hgrown₂, hw₂⟩ := hnext₂.grown hgrown₁.inv (by simp) hw₁ hflags
  by_cases hnull₂ : frameVirt hh g₂ = 0#64
  · exact .inl ⟨g₂, hknown (hgrown₁.trans hgrown₂) (by simp) hw₂, hnull₂, by simp [hnull₂]⟩
  simp only [if_neg hne₂, if_neg hnull₂]
  rcases hgrown₂.inv.nextLevel_physical (by simp) hw₂ (pdIndex virt) hflags with
    ⟨s₃, heq₃, heq₃'⟩ | ⟨e₃, g₃, s₃, heq₃, heq₃', hne₃, hnext₃⟩
  · rw [heq₃, heq₃']
    simp
  rw [heq₃, heq₃']
  obtain ⟨hgrown₃, hw₃⟩ := hnext₃.grown hgrown₂.inv (by simp) hw₂ hflags
  by_cases hnull₃ : frameVirt hh g₃ = 0#64
  · exact .inl ⟨g₃, hknown ((hgrown₁.trans hgrown₂).trans hgrown₃) (by simp) hw₃, hnull₃,
      by simp [hnull₃]⟩
  simp only [if_neg hne₃, if_neg hnull₃]
  right
  have hleaf : physical hh { s₃ with
      mem := writeEntry s₃.mem (frameVirt hh g₃) (ptIndex virt) (leafOf phys flags) } =
        setEntry 0#64 (physical hh s₃) g₃ (ptIndex virt) (leafOf phys flags) := by
    unfold physical setEntry
    dsimp only
    rw [writeEntry_shift, ← frameVirt_eq]
  refine ⟨Prod.ext rfl hleaf.symm, fun _ g hg => ?_⟩
  have hg₃ : g ∈ footprint (link 0#64 (physical hh s₃).mem) 3 r := by
    refine ((hgrown₃.inv.setLeaf rfl hw₃ (ptIndex virt) (leafOf phys flags)
      (.inr present_leafOf)).2.1 g).mp ?_
    rw [← hleaf]
    exact hg
  rcases hnext₃.footprint_subset hgrown₂.inv (by simp) hw₂ hflags hg₃ with hg₂ | rfl
  · rcases hnext₂.footprint_subset hgrown₁.inv (by simp) hw₁ hflags hg₂ with hg₁ | rfl
    · rcases hnext₁.footprint_subset h (p := []) (by simp) rfl hflags hg₁ with hg | rfl
      · exact .inl hg
      · exact .inr hnull₁
    · exact .inr hnull₂
  · exact .inr hnull₃

/-- A direct map that has room for every frame the bitmap could cover. -/
theorem valid_of_physical (h : (physical hh s).Valid 0#64)
    (hroom : hh.toNat + 2 ^ 35 ≤ 2 ^ 64) : s.Valid hh := by
  have hlt : s.pmm.highestPage < pmmBitmapSize * 8 := h.capacity
  refine ⟨hlt, h.zero_used, ?_⟩
  unfold pmmBitmapSize at hlt
  omega

/-- A pagemap by physical address is one in the direct map, if that has room for all frames. -/
theorem TableInv.of_physical (h : TableInv 0#64 (physical hh s) r) (hs : s.Valid hh) :
    TableInv hh s r := by
  have hlink : link 0#64 (physical hh s).mem = link hh s.mem := link_shift hh s.mem
  have hformed : Formed 0#64 (physical hh s).mem = Formed hh s.mem := by
    unfold Formed
    simp only [show (physical hh s).mem = shift s.mem hh from rfl, entry_shift]
  obtain ⟨-, hroot, htree, hused, hmanaged, hallFormed⟩ := h
  rw [hlink] at htree hused hmanaged hallFormed
  rw [hformed] at hallFormed
  exact ⟨hs, hroot, htree, hused, hmanaged, hallFormed⟩

/-- No table of the pagemap is at `NULL`. -/
def TablesNonnull (hh : Word) (s : Machine) (r : ℕ) : Prop :=
  ∀ g ∈ footprint (link 0#64 (physical hh s).mem) 3 r, frameVirt hh g ≠ 0#64

/-- A `vmm_map_page` that succeeds does so in both views. -/
theorem vmmMapPage_physical_of_success {s' : Machine} {virt phys flags : Word}
    (h : TableInv 0#64 (physical hh s) r) (hnull : TablesNonnull hh s r)
    (hok : vmmMapPage hh s ⟨frameVirt hh r⟩ virt phys flags = (true, s')) :
    vmmMapPage 0#64 (physical hh s) ⟨frameVirt 0#64 r⟩ virt phys flags = (true, physical hh s') ∧
      TablesNonnull hh s' r := by
  rcases vmmMapPage_views h virt phys flags with ⟨g, -, -, hfail⟩ | ⟨heq, hnew⟩
  · rw [hok] at hfail
    cases hfail
  · rw [hok] at heq hnew
    refine ⟨heq, fun g hg => ?_⟩
    rcases hnew rfl g hg with hold | hne
    · exact hnull g hold
    · exact hne

/-- No table of the pagemap and no free frame is at `NULL`. -/
def Nonnull (hh : Word) (s : Machine) (r : ℕ) : Prop :=
  ∀ g, g ∈ footprint (link 0#64 (physical hh s).mem) 3 r ∨ s.pmm.Free g → frameVirt hh g ≠ 0#64

theorem Nonnull.tables (hnull : Nonnull hh s r) : TablesNonnull hh s r :=
  fun g hg => hnull g (.inl hg)

theorem Nonnull.growth {s' : Machine} (hnull : Nonnull hh s r)
    (hgrowth : Growth 0#64 (physical hh s) (physical hh s') r) : Nonnull hh s' r :=
  fun g hg => hnull g (hgrowth.table_or_free hg)

/-- `vmm_map_page` does the same in both views. -/
theorem vmmMapPage_physical (h : TableInv 0#64 (physical hh s) r) (hnull : Nonnull hh s r)
    (virt phys flags : Word) :
    vmmMapPage 0#64 (physical hh s) ⟨frameVirt 0#64 r⟩ virt phys flags =
      ((vmmMapPage hh s ⟨frameVirt hh r⟩ virt phys flags).1,
        physical hh (vmmMapPage hh s ⟨frameVirt hh r⟩ virt phys flags).2) := by
  rcases vmmMapPage_views h virt phys flags with ⟨g, hg, hzero, -⟩ | ⟨heq, -⟩
  · exact absurd hzero (hnull g hg)
  · exact heq

/-- `vmm_virt_to_phys` returns the same in both views. -/
theorem vmmVirtToPhys_physical (h : TableInv 0#64 (physical hh s) r)
    (hnull : TablesNonnull hh s r) (virt : Word) :
    vmmVirtToPhys hh s ⟨frameVirt hh r⟩ virt =
      vmmVirtToPhys 0#64 (physical hh s) ⟨frameVirt 0#64 r⟩ virt := by
  have hlink : link 0#64 (physical hh s).mem = link hh s.mem := link_shift hh s.mem
  have hbelow : ∀ g ∈ below (link hh s.mem) 3 r, frameVirt hh g ≠ 0#64 := by
    intro g hg
    rw [← hlink] at hg
    exact hnull g (.inr hg)
  rw [vmmVirtToPhys_of_nonnull hbelow, vmmVirtToPhys_eq h, hlink]

end MapPage

end Osiris.Vmm
