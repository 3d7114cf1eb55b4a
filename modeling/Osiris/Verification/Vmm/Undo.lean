import Osiris.Verification.Page.Books
import Osiris.Verification.Vmm.History

/-! # Taking a mapping back

`vmm_map_page` makes the tables that are missing on its way to the page. `vmm_unmap_page` takes the
tables that it empties out again, from the lowest level up. -/

namespace Osiris.Vmm

open ByteMemory Strings Page Radix

/-! ## Running out of frames -/

/-- The number of tables that `vmm_map_page` has to make for an address. -/
def missingTables (hh : Word) (m : Mem) (r : ℕ) (virtAddr : Word) : ℕ :=
  missing (link hh m) r (upperPath virtAddr)

section MapPage

variable {hh : Word} {s : Machine} {r : ℕ}

/-- A failed call has used up all frames, and has made fewer tables than it needs. -/
theorem vmmMapPage_count (h : TableInv hh s r) (virt phys flags : Word) :
    (∃ s', vmmMapPage hh s ⟨frameVirt hh r⟩ virt phys flags = (false, s') ∧
      s'.pmm.freeFrames.card = 0 ∧ s.pmm.freeFrames.card < missingTables hh s.mem r virt ∧
      (s.pmm.freeFrames.card = 0 → s' = s)) ∨
    ((vmmMapPage hh s ⟨frameVirt hh r⟩ virt phys flags).1 = true ∧
      missingTables hh s.mem r virt ≤ s.pmm.freeFrames.card) := by
  have hflags := allocFlags_tableFlags flags
  unfold missingTables
  rcases vmmMapPage_descent h virt phys flags with
    ⟨path, index, rest, es, f, s', hpath, hdescent, habsent, hnone, heq⟩ |
    ⟨es, f, s₁, hdescent, heq⟩
  · left
    have hlen := congrArg List.length hpath
    simp only [upperPath, List.length_append, List.length_cons, List.length_nil] at hlen
    obtain ⟨made, -, hcard, hmissing, hsame⟩ :=
      hdescent.count h (p := []) (by simp; omega) rfl hflags (index :: rest)
    have hzero := card_freeFrames_eq_zero hnone
    rw [missing_cons_of_none habsent] at hmissing
    refine ⟨s', heq, hzero, ?_, fun hempty => hsame (by omega)⟩
    rw [hpath, hmissing]
    omega
  · right
    obtain ⟨made, -, hcard, hmissing, -⟩ :=
      hdescent.count h (p := []) (by simp [upperPath]) rfl hflags []
    rw [List.append_nil] at hmissing
    refine ⟨by rw [heq], ?_⟩
    rw [hmissing]
    simp only [missing]
    omega

/-- A failed `vmm_map_page` leaves tables behind exactly when there were frames for some of the
tables it needs, but not for all of them. -/
theorem failed_map_keeps_state_iff (hh : Word) (r : ℕ) (s : Machine) (virt phys flags : Word)
    (h : TableInv hh s r) :
    ((vmmMapPage hh s ⟨frameVirt hh r⟩ virt phys flags).1 = false →
      (vmmMapPage hh s ⟨frameVirt hh r⟩ virt phys flags).2.pmm = s.pmm ∧
      ∀ g ∈ footprint (link hh s.mem) 3 r,
        SamePage hh s.mem (vmmMapPage hh s ⟨frameVirt hh r⟩ virt phys flags).2.mem g) ↔
    (s.pmm.freeFrames.card = 0 ∨ missingTables hh s.mem r virt ≤ s.pmm.freeFrames.card) := by
  rcases vmmMapPage_count h virt phys flags with ⟨s', heq, hzero, hfew, hsame⟩ | ⟨hok, henough⟩
  · rw [heq]
    constructor
    · intro hkeeps
      obtain ⟨hpmm, -⟩ := hkeeps rfl
      change s'.pmm = s.pmm at hpmm
      rw [hpmm] at hzero
      exact Or.inl hzero
    · intro hcond _
      rw [hsame (by omega)]
      exact ⟨rfl, fun g _ => SamePage.refl hh s.mem g⟩
  · rw [hok]
    exact ⟨fun _ => Or.inr henough, fun _ hfalse => absurd hfalse (by decide)⟩

end MapPage

theorem failed_map_keeps_state_freshMachine :
    missingTables directMap freshMachine.mem 1 0x1000#64 ≤ freshMachine.pmm.freeFrames.card ∧
    ((vmmMapPage directMap freshMachine ⟨frameVirt directMap 1⟩ 0x1000#64 0x5000#64 0#64).1 = false →
      (vmmMapPage directMap freshMachine ⟨frameVirt directMap 1⟩ 0x1000#64 0x5000#64 0#64).2.pmm =
        freshMachine.pmm) := by
  have hmissing : missingTables directMap freshMachine.mem 1 0x1000#64 = 3 :=
    missing_of_empty (fun k => link_of_zero (freshMachine_emptyPml4.zeroed k)) _
  have hcond : missingTables directMap freshMachine.mem 1 0x1000#64 ≤
      freshMachine.pmm.freeFrames.card := by
    rw [hmissing]
    exact freshMachine_card
  refine ⟨hcond, fun hfalse => ?_⟩
  exact ((failed_map_keeps_state_iff directMap 1 freshMachine 0x1000#64 0x5000#64 0#64
    freshMachine_emptyPml4.tableInv).mpr (Or.inr hcond) hfalse).1

/-- Sixteen zeroed frames, of which only frame 2 is free. Frame 1 holds the PML4. -/
def scarceMachine : Machine where
  pmm :=
    { memoryBitmap := fun i => if i = 0 then 0xfb#8 else 0xff#8
      highestPage := 15
      usedPages := 15#64
      freePages := 1#64
      totalRamPages := 16#64 }
  mem := fun _ => 0#8

theorem scarceMachine_emptyPml4 : EmptyPml4 directMap scarceMachine 1 where
  valid := ⟨by decide, fun h => absurd h.2 (by decide), by decide⟩
  root_lt := by norm_num
  root_used := fun h => absurd h.2 (by decide)
  zeroed := fun index => entry_of_zero (fun _ _ => rfl) index

/-- The one frame that is left goes into a PDPT that no page is mapped through. -/
theorem failed_map_scarceMachine :
    TableInv directMap scarceMachine 1 ∧
    (vmmMapPage directMap scarceMachine ⟨frameVirt directMap 1⟩ 0x1000#64 0x5000#64 0#64).1 = false ∧
    (vmmMapPage directMap scarceMachine ⟨frameVirt directMap 1⟩ 0x1000#64 0x5000#64 0#64).2.pmm ≠
      scarceMachine.pmm := by
  have hinv := scarceMachine_emptyPml4.tableInv
  have hmissing : missingTables directMap scarceMachine.mem 1 0x1000#64 = 3 :=
    missing_of_empty (fun k => link_of_zero (scarceMachine_emptyPml4.zeroed k)) _
  have hcard : scarceMachine.pmm.freeFrames.card = 1 := by decide
  rcases vmmMapPage_count hinv 0x1000#64 0x5000#64 0#64 with ⟨s', heq, hzero, -, -⟩ | ⟨-, henough⟩
  · rw [heq]
    refine ⟨hinv, rfl, fun hpmm => ?_⟩
    change s'.pmm = scarceMachine.pmm at hpmm
    rw [hpmm, hcard] at hzero
    omega
  · omega

/-! ## The way back -/

/-- The allocator and all tables of the pagemap are back to what they were in `s`. -/
structure Restored (hh : Word) (s t : Machine) (r : ℕ) : Prop where
  pmm : t.pmm = s.pmm
  pages : ∀ g ∈ footprint (link hh s.mem) 3 r, SamePage hh s.mem t.mem g

section Undo

variable {hh : Word} {s t : Machine} {r f g : ℕ} {p : List Index} {es : List Word} {index : Index}
  {flags : Word}

/-- An entry that is not present is zero. -/
theorem TableInv.entry_eq_zero (h : TableInv hh s r) (hp : p.length ≤ 3)
    (hw : walk (link hh s.mem) r p = some (es, f)) (habsent : link hh s.mem f index = none) :
    entry hh s.mem f index = 0#64 := by
  rcases h.formed p es f hp hw index with hzero | ⟨hpresent, -⟩
  · exact hzero
  · rw [link_of_present hpresent] at habsent
    simp at habsent

/-- A table that has an entry stays. -/
theorem Restored.not_empty (ht : Restored hh s t r) (hg : g ∈ footprint (link hh s.mem) 3 r)
    (hpresent : ∃ k, HasFlag (entry hh s.mem g k) ptePresent) :
    ¬ vmmIsTableEmpty t.mem (frameVirt hh g) = true := by
  intro hempty
  obtain ⟨k, hk⟩ := hpresent
  have hzero := vmmIsTableEmpty_iff.mp hempty k
  rw [entry_congr (ht.pages g hg) k] at hzero
  rw [hzero] at hk
  exact not_hasFlag_zero _ hk

/-- Once the tables below it are gone, a table that the call has made is found empty, and giving
it back restores the state before it was made. -/
theorem Restored.release (h : TableInv hh s r) (hp : p.length ≤ 2)
    (hw : walk (link hh s.mem) r p = some (es, f)) (habsent : link hh s.mem f index = none)
    (hfree : s.pmm.Free g) (hflags : TableFlags flags)
    (ht : Restored hh (linkTable hh s f index g flags) t r) :
    vmmIsTableEmpty t.mem (frameVirt hh g) = true ∧
      Restored hh s (releaseTable t (frameVirt hh f) index (frameAddr g ||| flags)) r := by
  obtain ⟨-, hfoot, -, -⟩ := h.linkTable hp hw habsent hfree hflags
  have hf := walk_lt h.root_lt hw
  have hg := h.valid.lt_limit hfree.1
  have hfmem : f ∈ footprint (link hh s.mem) 3 r := walk_mem_footprint (by omega) hw
  have hfg : f ≠ g := by
    rintro rfl
    exact h.used f hfmem hfree
  refine ⟨vmmIsTableEmpty_iff.mpr fun k => ?_, ?_, fun x hx => ?_⟩
  · rw [entry_congr (ht.pages g ((hfoot g).mpr (Or.inr rfl))) k]
    exact h.entry_of_made hp hw hfree index k flags
  · unfold releaseTable
    rw [Machine.freePage_pmm, pteGetAddr_frameAddr_or hg hflags.addr]
    change Page.freePage t.pmm (frameAddr g) = s.pmm
    rw [ht.pmm, linkTable_pmm]
    exact freePage_take h.valid hfree
  · have hsame := ht.pages x ((hfoot x).mpr (Or.inl hx))
    by_cases hxf : x = f
    · -- the entry that was zero is written zero again, the others have never changed
      subst hxf
      refine samePage_of_entry_eq fun k => ?_
      by_cases hk : k = index
      · subst hk
        rw [h.entry_eq_zero (by omega) hw habsent]
        exact entry_writeEntry_same hh _ x k 0#64
      · calc entry hh (releaseTable t (frameVirt hh x) index (frameAddr g ||| flags)).mem x k
            = entry hh t.mem x k := entry_writeEntry_ne hh t.mem x hk 0#64
          _ = entry hh (linkTable hh s x index g flags).mem x k := entry_congr hsame k
          _ = entry hh s.mem x k := linkTable_entry_other hf hg hfg hk
    · have hxlim := footprint_lt h.root_lt hx
      have hxg : x ≠ g := by
        rintro rfl
        exact h.used x hx hfree
      exact ((linkTable_samePage hf hg hxlim hxf hxg).trans hsame).trans
        (samePage_writeEntry (limit_of_lt hf) (limit_of_lt hxlim) hxf _ _ _)

/-- Clearing a leaf that has been written over zero restores the state before. -/
theorem restored_clearLeaf (h : TableInv hh s r) (hp : p.length = 3)
    (hw : walk (link hh s.mem) r p = some (es, f)) (habsent : link hh s.mem f index = none)
    (leaf : Word) : Restored hh s (setEntry hh (setEntry hh s f index leaf) f index 0#64) r := by
  refine ⟨rfl, fun x hx => ?_⟩
  by_cases hxf : x = f
  · subst hxf
    refine samePage_of_entry_eq fun k => ?_
    by_cases hk : k = index
    · subst hk
      rw [h.entry_eq_zero (by omega) hw habsent]
      exact entry_writeEntry_same hh _ x k 0#64
    · exact (entry_writeEntry_ne hh _ x hk 0#64).trans (entry_writeEntry_ne hh s.mem x hk leaf)
  · have hf := limit_of_lt (walk_lt h.root_lt hw)
    have hxlim := limit_of_lt (footprint_lt h.root_lt hx)
    exact (samePage_writeEntry hf hxlim hxf _ _ _).trans (samePage_writeEntry hf hxlim hxf _ _ _)

/-- The clean-up gives back the tables that the way down has made, and no others. -/
theorem restored_of_descent {virt e₁ e₂ e₃ : Word} {g₁ g₂ g₃ : ℕ} {s₁ s₂ s₃ : Machine}
    (h : TableInv hh s r)
    (hentries : ∀ g ∈ below (link hh s.mem) 3 r, ∃ k, HasFlag (entry hh s.mem g k) ptePresent)
    (hflags : TableFlags flags) (hnext₁ : NextTable hh s r (pml4Index virt) flags e₁ g₁ s₁)
    (hnext₂ : NextTable hh s₁ g₁ (pdptIndex virt) flags e₂ g₂ s₂)
    (hnext₃ : NextTable hh s₂ g₂ (pdIndex virt) flags e₃ g₃ s₃) (ht : Restored hh s₃ t r) :
    Restored hh s (releaseEmptyTables t virt (frameVirt hh r) (frameVirt hh g₁) (frameVirt hh g₂)
      (frameVirt hh g₃) e₁ e₂ e₃) r := by
  obtain ⟨hgrown₁, hw₁⟩ := hnext₁.grown h (p := []) (by simp) rfl hflags
  obtain ⟨hgrown₂, hw₂⟩ := hnext₂.grown hgrown₁.inv (by simp) hw₁ hflags
  have hstays : ∀ {t : Machine} {p : List Index} {es : List Word} {f g : ℕ} {k : Index} {e : Word},
      Restored hh s t r → p.length ≤ 2 → walk (link hh s.mem) r p = some (es, f) →
      link hh s.mem f k = some (e, g) → ¬ vmmIsTableEmpty t.mem (frameVirt hh g) = true := by
    intro t p es f g k e ht hp hw hlink
    have hg := mem_below_of_link hp hw hlink
    exact ht.not_empty (Or.inr hg) (hentries g hg)
  rw [releaseEmptyTables_eq]
  cases hnext₃ with
  | found hlink₃ =>
      obtain ⟨rfl, hlink₂⟩ := hnext₂.eq_of_link hgrown₁.inv (by simp) hw₁ hlink₃
      obtain ⟨rfl, hlink₁⟩ := hnext₁.eq_of_link h (p := []) (by simp) rfl hlink₂
      rw [if_neg (hstays ht (by simp) hw₂ hlink₃)]
      exact ht
  | made habsent₃ hfree₃ =>
      obtain ⟨hempty₃, ht₂⟩ := Restored.release hgrown₂.inv (by simp) hw₂ habsent₃ hfree₃ hflags ht
      rw [if_pos hempty₃]
      dsimp only
      cases hnext₂ with
      | found hlink₂ =>
          obtain ⟨rfl, hlink₁⟩ := hnext₁.eq_of_link h (p := []) (by simp) rfl hlink₂
          rw [if_neg (hstays ht₂ (by simp) hw₁ hlink₂)]
          exact ht₂
      | made habsent₂ hfree₂ =>
          obtain ⟨hempty₂, ht₁⟩ :=
            Restored.release hgrown₁.inv (by simp) hw₁ habsent₂ hfree₂ hflags ht₂
          rw [if_pos hempty₂]
          cases hnext₁ with
          | found hlink₁ =>
              rw [if_neg (hstays ht₁ (p := []) (by simp) rfl hlink₁)]
              exact ht₁
          | made habsent₁ hfree₁ =>
              obtain ⟨hempty₁, ht₀⟩ :=
                Restored.release h (p := []) (by simp) rfl habsent₁ hfree₁ hflags ht₁
              rw [if_pos hempty₁]
              exact ht₀

end Undo

/-- Unmapping a page that has just been mapped restores all tables and the allocator, in a pagemap
without empty tables. -/
theorem unmap_undoes_map (hh : Word) (r : ℕ) (s s' : Machine) (virt phys flags : Word)
    (h : TableInv hh s r)
    (hentries : ∀ g ∈ below (link hh s.mem) 3 r, ∃ k, HasFlag (entry hh s.mem g k) ptePresent)
    (halign : virt % 4096#64 = 0#64) (hunmapped : leafEntry hh s.mem r virt = none)
    (hmap : vmmMapPage hh s ⟨frameVirt hh r⟩ virt phys flags = (true, s')) :
    ∃ s'', vmmUnmapPage hh s' ⟨frameVirt hh r⟩ virt = (true, s'') ∧ s''.pmm = s.pmm ∧
      ∀ g ∈ footprint (link hh s.mem) 3 r, SamePage hh s.mem s''.mem g := by
  have hflags := allocFlags_tableFlags flags
  rcases vmmMapPage_descent h virt phys flags with
    ⟨-, -, -, -, -, s₀, -, -, -, -, heq⟩ | ⟨es, f, s₃, hdescent, heq⟩
  · rw [hmap] at heq
    simp at heq
  rw [hmap] at heq
  obtain rfl : s' = setEntry hh s₃ f (ptIndex virt) (leafOf phys flags) := (Prod.mk.inj heq).2
  obtain ⟨hgrown, hw⟩ := hdescent.grown h (p := []) (by simp [upperPath]) rfl hflags
  rw [List.nil_append, List.nil_append] at hw
  have habsent : link hh s₃.mem f (ptIndex virt) = none := by
    have hnone := hgrown.pages (pathOf virt) (pathOf_length virt)
    rw [leafEntry_eq_none.mp hunmapped, pathOf_eq_upperPath] at hnone
    cases hlink : link hh s₃.mem f (ptIndex virt) with
    | none => rfl
    | some edge =>
        rw [walk_snoc hw hlink] at hnone
        simp at hnone
  -- the leaf is in place, and the tables above it are those of the way down
  obtain ⟨hinv, -, hw', -⟩ := hgrown.inv.setLeaf rfl hw (ptIndex virt) (leafOf phys flags)
    (Or.inr present_leafOf)
  have hleaf : link hh (setEntry hh s₃ f (ptIndex virt) (leafOf phys flags)).mem f (ptIndex virt) =
      some (leafOf phys flags, frameOf (leafOf phys flags)) :=
    link_eq_some.mpr ⟨entry_writeEntry_same hh _ f _ _, present_leafOf, rfl⟩
  obtain ⟨e₁, e₂, e₃, g₁, g₂, hreach⟩ := reaches_of_walk hw'
  obtain rfl : es = [e₁, e₂, e₃] :=
    (Prod.mk.inj (Option.some.inj (hw'.symm.trans hreach.walk_three))).1
  have ht := restored_clearLeaf hgrown.inv rfl hw habsent (leafOf phys flags)
  refine ⟨_, vmmUnmapPage_of_reaches hinv halign hreach hleaf, ?_⟩
  obtain ⟨f₁, f₂, s₁, s₂, hnext₁, hnext₂, hnext₃⟩ := descent_three_inv hdescent
  obtain ⟨hgrown₁, -⟩ := hnext₁.grown h (p := []) (by simp) rfl hflags
  obtain rfl : f₁ = g₁ :=
    (hnext₁.frameOf_eq h.valid hflags).symm.trans (link_eq_some.mp hreach.pml4).2.2.symm
  obtain rfl : f₂ = g₂ := (hnext₂.frameOf_eq hgrown₁.inv.valid hflags).symm.trans
    (link_eq_some.mp hreach.pdpt).2.2.symm
  obtain ⟨hpmm, hpages⟩ := restored_of_descent h hentries hflags hnext₁ hnext₂ hnext₃ ht
  exact ⟨hpmm, hpages⟩

theorem unmap_undoes_map_freshMachine :
    ∃ s' s'', vmmMapPage directMap freshMachine ⟨frameVirt directMap 1⟩ 0x1000#64 0x5000#64
        pteWritable = (true, s') ∧
      vmmUnmapPage directMap s' ⟨frameVirt directMap 1⟩ 0x1000#64 = (true, s'') ∧
      s''.pmm = freshMachine.pmm := by
  have hinv := freshMachine_emptyPml4.tableInv
  have hnone : ∀ k, link directMap freshMachine.mem 1 k = none :=
    fun k => link_of_zero (freshMachine_emptyPml4.zeroed k)
  have hunmapped : leafEntry directMap freshMachine.mem 1 0x1000#64 = none :=
    leafEntry_eq_none.mpr (walk_cons_of_none (hnone _) _)
  have hok := vmmMapPage_succeeds hinv 0x1000#64 0x5000#64 pteWritable freshMachine_card
  cases hmap : vmmMapPage directMap freshMachine ⟨frameVirt directMap 1⟩ 0x1000#64 0x5000#64
      pteWritable with
  | mk ok s' =>
      rw [hmap] at hok
      obtain rfl : ok = true := hok
      obtain ⟨s'', hunmap, hpmm, -⟩ := unmap_undoes_map directMap 1 freshMachine s' 0x1000#64
        0x5000#64 pteWritable hinv
        (fun g hg => by
          obtain ⟨k, a, f, hk, -⟩ := hg
          simp [hnone] at hk)
        (by decide) hunmapped hmap
      exact ⟨s', s'', rfl, hunmap, hpmm⟩

end Osiris.Vmm
