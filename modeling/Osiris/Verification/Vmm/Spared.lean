import Osiris.Verification.Vmm.Recorded

/-! # What page tables leave alone

Mapping a page writes to page tables, and to frames that were free. Unmapping one writes to page
tables only. -/

namespace Osiris.Vmm

open ByteMemory Strings Page Radix

/-- Neither a page table nor a free frame is at `x`. -/
def OffLimits (hh : Word) (s : Machine) (r : ℕ) (x : Word) : Prop :=
  ∀ g, g ∈ footprint (link hh s.mem) 3 r ∨ s.pmm.Free g → ¬ InFrame hh g x

section Spared

variable {hh x : Word} {r : ℕ} {s s' : Machine}

theorem OffLimits.growth (hx : OffLimits hh s r x) (h : Growth hh s s' r) : OffLimits hh s' r x :=
  fun g hg => hx g (h.table_or_free hg)

theorem take_mem_of_not_inFrame {i : ℕ} (hx : ¬ InFrame hh i x) :
    (s.take hh i).mem x = s.mem x := by
  have hout : ¬ InRange (frameVirt hh i) 4096 x := hx
  change memset s.mem (frameVirt hh i) 0#32 4096#32 x = s.mem x
  rw [memset_page, if_neg hout]

theorem writeEntry_mem_of_not_inFrame {m : Mem} {f : ℕ} (hx : ¬ InFrame hh f x) (index : Index)
    (value : Word) : writeEntry m (frameVirt hh f) index value x = m x :=
  store64_of_not_inRange m _ value x fun hin => hx (inFrame_of_inRange_entry index hin)

/-! ## `vmm_map_page` -/

section Walks

variable {f g : ℕ} {p : List Index} {es : List Word} {index : Index} {flags e : Word}

theorem NextTable.mem_eq (hnext : NextTable hh s f index flags e g s')
    (hx : OffLimits hh s r x) (hp : p.length ≤ 2)
    (hw : walk (link hh s.mem) r p = some (es, f)) : s'.mem x = s.mem x := by
  cases hnext with
  | found hlink => rfl
  | made habsent hfree =>
      have hg : ¬ InFrame hh g x := hx g (.inr hfree)
      have hf : ¬ InFrame hh f x := hx f (.inl (walk_mem_footprint (by omega) hw))
      have hpage : ¬ InRange (frameVirt hh g) 4096 x := hg
      exact (writeEntry_mem_of_not_inFrame hf index _).trans
        ((memset_page _ _ _ _).trans ((if_neg hpage).trans (take_mem_of_not_inFrame hg)))

theorem Descent.mem_eq {path : List Index} {es' : List Word}
    (hdescent : Descent hh flags s f path es' g s') (h : TableInv hh s r)
    (hx : OffLimits hh s r x) (hp : p.length + path.length ≤ 3)
    (hw : walk (link hh s.mem) r p = some (es, f)) (hflags : TableFlags flags) :
    s'.mem x = s.mem x := by
  induction hdescent generalizing p es with
  | nil => rfl
  | cons hnext hrest ih =>
      rw [List.length_cons] at hp
      obtain ⟨hgrown, hw'⟩ := hnext.grown h (by omega) hw hflags
      refine (ih hgrown.inv (hx.growth hgrown.toGrowth) ?_ hw').trans
        (NextTable.mem_eq hnext hx (by omega) hw)
      rw [List.length_append, List.length_singleton]
      omega

end Walks

theorem vmmMapPage_mem_eq (h : TableInv hh s r) (hx : OffLimits hh s r x) (virt phys flags : Word) :
    (vmmMapPage hh s ⟨frameVirt hh r⟩ virt phys flags).2.mem x = s.mem x := by
  have hflags := allocFlags_tableFlags flags
  rcases vmmMapPage_descent h virt phys flags with
    ⟨path, index, rest, es, f, s', hpath, hdescent, -, -, heq⟩ | ⟨es, f, s₁, hdescent, heq⟩
  · have hlength := congrArg List.length hpath
    simp only [upperPath, List.length_append, List.length_cons, List.length_nil] at hlength
    rw [heq]
    exact Descent.mem_eq hdescent h hx (p := []) (by simp; omega) rfl hflags
  · obtain ⟨hgrown, hw⟩ := hdescent.grown h (p := []) (by simp [upperPath]) rfl hflags
    have hf : ¬ InFrame hh f x := hx.growth hgrown.toGrowth f
      (.inl (walk_mem_footprint (by simp [upperPath]) hw))
    rw [heq]
    exact (writeEntry_mem_of_not_inFrame hf _ _).trans
      (Descent.mem_eq hdescent h hx (p := []) (by simp [upperPath]) rfl hflags)

/-! ## `vmm_unmap_page` -/

theorem releaseEmptyTables_mem_eq {g₁ g₂ : ℕ} (hr : ¬ InFrame hh r x) (h₁ : ¬ InFrame hh g₁ x)
    (h₂ : ¬ InFrame hh g₂ x) (s : Machine) (virt pt e₁ e₂ e₃ : Word) :
    (releaseEmptyTables s virt (frameVirt hh r) (frameVirt hh g₁) (frameVirt hh g₂) pt e₁ e₂ e₃).mem
      x = s.mem x := by
  have hrelease : ∀ (s : Machine) (f : ℕ) (index : Index) (e : Word), ¬ InFrame hh f x →
      (releaseTable s (frameVirt hh f) index e).mem x = s.mem x :=
    fun s f index e hf => writeEntry_mem_of_not_inFrame hf index 0#64
  rw [releaseEmptyTables_eq]
  dsimp only
  split_ifs
  · rw [hrelease _ _ _ _ hr, hrelease _ _ _ _ h₁, hrelease _ _ _ _ h₂]
  · rw [hrelease _ _ _ _ h₁, hrelease _ _ _ _ h₂]
  · rw [hrelease _ _ _ _ h₂]
  · rfl

theorem vmmUnmapPage_mem_eq (h : TableInv hh s r)
    (hx : ∀ g ∈ footprint (link hh s.mem) 3 r, ¬ InFrame hh g x) (virt : Word) :
    (vmmUnmapPage hh s ⟨frameVirt hh r⟩ virt).2.mem x = s.mem x := by
  by_cases halign : virt % 4096#64 = 0#64
  swap
  · rw [vmmUnmapPage_unaligned halign]
  rcases vmmUnmapPage_cases h halign with ⟨heq, -⟩ | ⟨e₁, e₂, e₃, g₁, g₂, g₃, hreach, heq⟩
  · rw [heq]
  · have h₁ := hx g₁ (walk_mem_footprint (by simp) hreach.walk_one)
    have h₂ := hx g₂ (walk_mem_footprint (by simp) hreach.walk_two)
    have h₃ := hx g₃ (walk_mem_footprint (by simp [upperPath]) hreach.walk_three)
    rw [heq, releaseEmptyTables_mem_eq (hx r (mem_footprint_self 3 r)) h₁ h₂]
    exact writeEntry_mem_of_not_inFrame h₃ _ _

/-! ## Frames that are left alone -/

/-- Frames that were in use before, and are not in `mine`, stay in use and keep what is in them. -/
structure Spares (hh : Word) (s s' : Machine) (mine : Set ℕ) : Prop where
  highest : s'.pmm.highestPage = s.pmm.highestPage
  used : ∀ f, f ∉ mine → ¬ s.pmm.Free f → ¬ s'.pmm.Free f
  same : ∀ f < 2 ^ 40, f ∉ mine → ¬ s.pmm.Free f → SamePage hh s.mem s'.mem f

theorem Spares.mono {mine mine' : Set ℕ} (h : Spares hh s s' mine) (hsub : mine ⊆ mine') :
    Spares hh s s' mine' :=
  ⟨h.highest, fun f hf => h.used f fun hmem => hf (hsub hmem),
    fun f hlt hf => h.same f hlt fun hmem => hf (hsub hmem)⟩

/-- The frames that are free or tables are the same ones before and after. -/
theorem Growth.free_or_table (h : Growth hh s s' r) (f : ℕ) :
    (s'.pmm.Free f ∨ f ∈ footprint (link hh s'.mem) 3 r) ↔
      (s.pmm.Free f ∨ f ∈ footprint (link hh s.mem) 3 r) := by
  constructor
  · exact fun hf => (h.table_or_free hf.symm).symm
  · rintro (hfree | htable)
    · exact ((h.free f).mp hfree).imp_right And.left
    · exact .inr (h.mono htable)

theorem Shrunk.free_or_table (h : Shrunk hh s s' r) (f : ℕ) :
    (s'.pmm.Free f ∨ f ∈ footprint (link hh s'.mem) 3 r) ↔
      (s.pmm.Free f ∨ f ∈ footprint (link hh s.mem) 3 r) := by
  constructor
  · rintro (hfree | htable)
    · exact ((h.free f).mp hfree).imp_right And.left
    · exact .inr (h.anti htable)
  · rintro (hfree | htable)
    · exact .inl ((h.free f).mpr (.inl hfree))
    · by_cases hstays : f ∈ footprint (link hh s'.mem) 3 r
      · exact .inr hstays
      · exact .inl ((h.free f).mpr (.inr ⟨htable, hstays⟩))

theorem not_inFrame_of_ne {f g : ℕ} (hf : f < 2 ^ 40) (hg : g < 2 ^ 40) (hne : g ≠ f)
    (hx : InFrame hh f x) : ¬ InFrame hh g x :=
  fun hin => hne (frame_eq_of_inFrame (limit_of_lt hg) (limit_of_lt hf) hin hx)

theorem vmmMapPage_spares (h : TableInv hh s r) (virt phys flags : Word) :
    Spares hh s (vmmMapPage hh s ⟨frameVirt hh r⟩ virt phys flags).2
      (footprint (link hh s.mem) 3 r) := by
  have hgrowth := vmmMapPage_growth h virt phys flags
  refine ⟨hgrowth.highest, fun f _ hused hfree => hused (hgrowth.free_of_free hfree),
    fun f hf hout hused x hx => vmmMapPage_mem_eq h (fun g hg => ?_) virt phys flags⟩
  rcases hg with htable | hfree
  · refine not_inFrame_of_ne hf (footprint_lt h.root_lt htable) ?_ hx
    rintro rfl
    exact hout htable
  · refine not_inFrame_of_ne hf (h.valid.lt_limit hfree.1) ?_ hx
    rintro rfl
    exact hused hfree

theorem vmmUnmapPage_shrunk (h : TableInv hh s r) (virt : Word) :
    Shrunk hh s (vmmUnmapPage hh s ⟨frameVirt hh r⟩ virt).2 r := by
  by_cases halign : virt % 4096#64 = 0#64
  · obtain ⟨s', heq, hunmapped⟩ := vmmUnmapPage_aligned h halign
    rw [heq]
    exact hunmapped.toShrunk
  · rw [vmmUnmapPage_unaligned halign]
    exact Shrunk.refl h

theorem vmmUnmapPage_spares (h : TableInv hh s r) (virt : Word) :
    Spares hh s (vmmUnmapPage hh s ⟨frameVirt hh r⟩ virt).2 (footprint (link hh s.mem) 3 r) := by
  have hshrunk := vmmUnmapPage_shrunk h virt
  refine ⟨hshrunk.highest, fun f hout hused hfree => ?_, fun f hf hout hused x hx =>
    vmmUnmapPage_mem_eq h (fun g hg => not_inFrame_of_ne hf (footprint_lt h.root_lt hg) ?_ hx) virt⟩
  · rcases (hshrunk.free f).mp hfree with hold | ⟨htable, -⟩
    · exact hused hold
    · exact hout htable
  · rintro rfl
    exact hout hg

/-! ## `vmm_init` -/

end Spared

end Osiris.Vmm
