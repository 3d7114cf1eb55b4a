import Osiris.Verification.Clone.Copy
import Osiris.Verification.Clone.Release

/-! # The two functions as a whole -/

namespace Osiris.Clone

open ByteMemory Strings Page Radix Vmm

/-- The direct map is in the higher half of the address space, where the boot loader puts it. -/
def HigherHalf (hh : Word) : Prop :=
  0xffff800000000000 ≤ hh.toNat

instance (hh : Word) : Decidable (HigherHalf hh) :=
  inferInstanceAs (Decidable (_ ≤ _))

/-! ## The outermost loops -/

theorem toNat_regionBase (i : Index) : (regionBase i).toNat = i.val * 2 ^ 39 := by
  have hi := i.isLt
  unfold regionBase
  rw [BitVec.toNat_shiftLeft, BitVec.toNat_ofNat, Nat.shiftLeft_eq]
  omega

/-- The base that is compared with `VMM_HIGHER_HALF` is not sign-extended, so that no region is
ever taken for one of the kernel's. -/
theorem regionBase_lt {hh : Word} (h : HigherHalf hh) (i : Index) : ¬ regionBase i ≥ hh := by
  have hi := i.isLt
  unfold HigherHalf at h
  rw [ge_iff_le, BitVec.le_def, toNat_regionBase]
  omega

theorem clonePml4_eq {hh : Word} (h : HigherHalf hh) (src child : Word) (s : Machine) :
    clonePml4 hh src child s = cloneLevel hh 3 src child s := by
  have hbody : clonePml4Entry hh src child = cloneTable hh (clonePdpt hh) src child := by
    funext i s
    unfold clonePml4Entry
    dsimp only
    rw [if_neg (regionBase_lt h i)]
    split
    · rename_i habsent
      unfold cloneTable
      dsimp only
      rw [if_pos habsent]
    · rfl
  rw [cloneLevel_succ, cloneLevel_two, ← hbody]
  rfl

theorem freePml4_eq {hh : Word} (h : HigherHalf hh) (pml4 : Word) (s : Machine) :
    freePml4 hh pml4 s = freeLevel hh 3 pml4 s := by
  have hbody : freePml4Entry hh pml4 = freeTableClone hh (freePdpt hh) pml4 := by
    funext s i
    unfold freePml4Entry
    dsimp only
    rw [if_neg (regionBase_lt h i)]
    split
    · rename_i habsent
      unfold freeTableClone
      dsimp only
      rw [if_pos habsent]
    · rfl
  rw [freeLevel_succ, freeLevel_two, ← hbody]
  rfl

/-! ## The two frames taken first -/

/-- The state after a frame has been taken and cleared once more. -/
def takeCleared (hh : Word) (s : Machine) (i : ℕ) : Machine :=
  { s.take hh i with mem := memset (s.take hh i).mem (frameVirt hh i) 0#32 4096#32 }

/-- The state in which the loops start: `m` holds the child's `pagemap_t` and `c` its PML4. -/
def prepared (hh : Word) (s : Machine) (m c : ℕ) : Machine :=
  { takeCleared hh (takeCleared hh s m) c with
    mem := store64 (takeCleared hh (takeCleared hh s m) c).mem (frameVirt hh m) (frameVirt hh c) }

section Prepared

variable {hh : Word} {s : Machine} {m c i x : ℕ}

@[simp] theorem takeCleared_pmm : (takeCleared hh s i).pmm = (s.take hh i).pmm := rfl

theorem takeCleared_mem : (takeCleared hh s i).mem =
    memset (s.take hh i).mem (frameVirt hh i) 0#32 4096#32 := rfl

@[simp] theorem prepared_pmm :
    (prepared hh s m c).pmm = ((takeCleared hh s m).take hh c).pmm := rfl

theorem prepared_mem : (prepared hh s m c).mem =
    store64 (takeCleared hh (takeCleared hh s m) c).mem (frameVirt hh m) (frameVirt hh c) := rfl

theorem takeCleared_samePage (hi : i < 2 ^ 40) (hx : x < 2 ^ 40) (hne : x ≠ i) :
    SamePage hh s.mem (takeCleared hh s i).mem x := by
  rw [takeCleared_mem]
  exact (take_samePage (limit_of_lt hi) (limit_of_lt hx) hne).trans
    (memset_samePage (limit_of_lt hi) (limit_of_lt hx) hne _ _)

theorem takeCleared_zero {z : Word} (hz : InFrame hh i z) : (takeCleared hh s i).mem z = 0#8 := by
  have hin : InRange (frameVirt hh i) 4096 z := hz
  rw [takeCleared_mem, memset_page, if_pos hin]
  rfl

theorem free_prepared : (prepared hh s m c).pmm.Free x ↔ s.pmm.Free x ∧ x ≠ m ∧ x ≠ c := by
  rw [prepared_pmm, free_take, takeCleared_pmm, free_take, and_assoc]

theorem store64_eq_writeEntry (mem : Mem) (f : ℕ) (v : Word) :
    store64 mem (frameVirt hh f) v = writeEntry mem (frameVirt hh f) 0 v := by
  unfold writeEntry
  simp

theorem prepared_samePage (hm : m < 2 ^ 40) (hc : c < 2 ^ 40) (hx : x < 2 ^ 40) (hxm : x ≠ m)
    (hxc : x ≠ c) : SamePage hh s.mem (prepared hh s m c).mem x := by
  refine ((takeCleared_samePage hm hx hxm).trans (takeCleared_samePage hc hx hxc)).trans ?_
  rw [prepared_mem, store64_eq_writeEntry]
  exact samePage_writeEntry (limit_of_lt hm) (limit_of_lt hx) hxm _ _ _

theorem prepared_pml4 (hm : m < 2 ^ 40) (hc : c < 2 ^ 40) (hne : c ≠ m) (k : Index) :
    entry hh (prepared hh s m c).mem c k = 0#64 := by
  have hsame : SamePage hh (takeCleared hh (takeCleared hh s m) c).mem (prepared hh s m c).mem c := by
    rw [prepared_mem, store64_eq_writeEntry]
    exact samePage_writeEntry (limit_of_lt hm) (limit_of_lt hc) hne _ _ _
  rw [entry_congr hsame]
  exact entry_of_zero (fun z hz => takeCleared_zero hz) k

theorem load64_eq_entry (mem : Mem) (f : ℕ) : load64 mem (frameVirt hh f) = entry hh mem f 0 := by
  unfold entry readEntry
  simp

theorem prepared_topLevel : load64 (prepared hh s m c).mem (frameVirt hh m) = frameVirt hh c :=
  load64_store64_same _ _ _

theorem prepared_map_zero (hm : m < 2 ^ 40) (hc : c < 2 ^ 40) (hne : c ≠ m) {k : ℕ} (hlo : 8 ≤ k)
    (hhi : k < 4096) : (prepared hh s m c).mem (frameVirt hh m + BitVec.ofNat 64 k) = 0#8 := by
  have hin : InFrame hh m (frameVirt hh m + BitVec.ofNat 64 k) := inRange_add _ hhi (by norm_num)
  have hout : ¬ InRange (frameVirt hh m) 8 (frameVirt hh m + BitVec.ofNat 64 k) := by
    intro hword
    obtain ⟨j, hj, heq⟩ := hword.exists_offset
    have hnat := congrArg BitVec.toNat (add_left_cancel heq)
    rw [BitVec.toNat_ofNat, BitVec.toNat_ofNat, Nat.mod_eq_of_lt (by omega),
      Nat.mod_eq_of_lt (by omega)] at hnat
    omega
  rw [prepared_mem, store64_of_not_inRange _ _ _ _ hout, takeCleared_samePage hc hm hne.symm _ hin]
  exact takeCleared_zero hin

end Prepared

/-! ## `vmm_free_pagemap_clone` -/

theorem frameVirt_sub (hh : Word) (f : ℕ) : frameVirt hh f - hh = frameAddr f := by
  unfold frameVirt
  ring

theorem vmmFreePagemapClone_eq {hh : Word} (hhigh : HigherHalf hh) {s : Machine} {m c : ℕ}
    (hm : frameVirt hh m ≠ 0#64) (hc : frameVirt hh c ≠ 0#64)
    (htop : load64 s.mem (frameVirt hh m) = frameVirt hh c) :
    vmmFreePagemapClone hh s (frameVirt hh m) =
      (freeLevel hh 3 (frameVirt hh c) s).freePage (frameAddr c) := by
  have hnull : ¬ (frameVirt hh m = 0#64 ∨ load64 s.mem (frameVirt hh m) = 0#64) := by
    rw [htop]
    exact fun h => h.elim hm hc
  unfold vmmFreePagemapClone
  rw [if_neg hnull, htop]
  dsimp only
  rw [freePml4_eq hhigh, frameVirt_sub]

/-- The root is freed once everything below it is. -/
theorem Freeing.root {hh : Word} {s s₁ : Machine} {c : ℕ} (hsite : FreeSite hh s 3 c)
    (hc : c ≤ s.pmm.highestPage ∧ c ≠ 0) (hfreeing : Freeing hh s s₁ 3 c Set.univ) :
    s.pmm.Balanced (s₁.freePage (frameAddr c)).pmm ∧
      (∀ x, (s₁.freePage (frameAddr c)).pmm.Free x ↔
        s.pmm.Free x ∨ x ∈ footprint (link hh s.mem) 4 c) ∧
      ∀ x < 2 ^ 40, x ∉ footprint (link hh s.mem) 3 c →
        SamePage hh s.mem (s₁.freePage (frameAddr c)).mem x := by
  refine ⟨hfreeing.balanced.trans (balanced_freePage _ _), fun x => ?_, hfreeing.same⟩
  refine free_freePage.trans ?_
  rw [hfreeing.free_below x, or_assoc, or_comm (a := x ∈ below _ _ _)]
  refine or_congr_right (or_congr_left ⟨fun hx => ?_, fun hx => ?_⟩)
  · exact frameAddr_inj hx.2.1 (limit_of_lt hsite.root_lt) hx.1.symm
  · rw [hx, hfreeing.balanced.highest]
    exact ⟨rfl, limit_of_lt hsite.root_lt, hc.2, hc.1⟩

/-- Freeing a clone gives back its PML4 and every frame below it. -/
theorem vmmFreePagemapClone_spec {hh : Word} (hhigh : HigherHalf hh) {s : Machine} {m c : ℕ}
    (hsite : FreeSite hh s 3 c) (hc : c ≤ s.pmm.highestPage ∧ c ≠ 0) (hm : frameVirt hh m ≠ 0#64)
    (htop : load64 s.mem (frameVirt hh m) = frameVirt hh c) :
    ∃ s', vmmFreePagemapClone hh s (frameVirt hh m) = s' ∧ s.pmm.Balanced s'.pmm ∧
      (∀ x, s'.pmm.Free x ↔ s.pmm.Free x ∨ x ∈ footprint (link hh s.mem) 4 c) ∧
      ∀ x < 2 ^ 40, x ∉ footprint (link hh s.mem) 3 c → SamePage hh s.mem s'.mem x := by
  have hroot : frameVirt hh c ≠ 0#64 := hsite.valid.frameVirt_ne_zero hc.1 hc.2
  have hfreeing := freeLevel_spec hh 3 s c hsite
  exact ⟨_, vmmFreePagemapClone_eq hhigh hm hroot htop, Freeing.root hsite hc hfreeing⟩

/-! ## `vmm_clone_pagemap` -/

/-- A pagemap that can be cloned: its tables are in use, or outside of what the allocator manages,
and can be reached through the direct map, and their entries are zero or present. -/
structure Source (hh : Word) (s : Machine) (r : ℕ) : Prop where
  valid : s.Valid hh
  root_lt : r < 2 ^ 40
  used : ∀ x ∈ footprint (link hh s.mem) 3 r, ¬ s.pmm.Free x
  reached : ∀ x ∈ below (link hh s.mem) 3 r, frameVirt hh x ≠ 0#64
  formed : ∀ x ∈ footprint (link hh s.mem) 3 r, ∀ k,
    entry hh s.mem x k = 0#64 ∨ HasFlag (entry hh s.mem x k) ptePresent

/-- Every pagemap built by `vmm_map_page` and `vmm_unmap_page` can be cloned. -/
theorem source_of_tableInv {hh : Word} {s : Machine} {r : ℕ} (h : TableInv hh s r) :
    Source hh s r := by
  refine ⟨h.valid, h.root_lt, h.used, fun x hx => ?_, fun x hx k => ?_⟩
  · exact h.valid.frameVirt_ne_zero (h.managed x hx).1 (h.managed x hx).2
  · obtain ⟨p, es, hlen, hw⟩ := exists_walk_of_mem hx
    exact (h.formed p es x hlen hw k).imp id fun hpresent => hpresent.1

section Clone

variable {hh : Word} {s : Machine} {r m c : ℕ}

theorem Source.link_prepared (h : Source hh s r) (hm : s.pmm.Free m) (hc : s.pmm.Free c) {x : ℕ}
    (hx : x ∈ footprint (link hh s.mem) 3 r) :
    link hh (prepared hh s m c).mem x = link hh s.mem x := by
  have hused := h.used x hx
  refine link_congr (prepared_samePage (h.valid.lt_limit hm.1) (h.valid.lt_limit hc.1)
    (footprint_lt h.root_lt hx) ?_ ?_)
  · rintro rfl
    exact hused hm
  · rintro rfl
    exact hused hc

theorem Source.copySite (h : Source hh s r) (hm : s.pmm.Free m) (hc : s.pmm.Free c)
    (hne : c ≠ m) : CopySite hh (prepared hh s m c) 3 r c := by
  have hfoot := (congr_footprint fun x hx => h.link_prepared hm hc hx).1
  have hlt := h.valid.lt_limit hc.1
  refine ⟨?_, h.root_lt, fun x hx => ?_, fun x hx => ?_, hlt, ?_, ?_⟩
  · refine h.valid.of_free rfl fun hzero => ?_
    exact h.valid.zero_used (free_prepared.mp hzero).1
  · rw [hfoot] at hx
    refine ⟨fun hfree => h.used x hx (free_prepared.mp hfree).1, ?_⟩
    rintro rfl
    exact h.used x hx hc
  · have hx' : x ∈ below (link hh s.mem) 3 r := by
      obtain ⟨k, a, g, hlink, hg⟩ := hx
      rw [h.link_prepared hm hc (mem_footprint_self _ r)] at hlink
      have hsub : ∀ y ∈ footprint (link hh s.mem) 2 g, link hh (prepared hh s m c).mem y =
          link hh s.mem y := fun y hy => h.link_prepared hm hc (footprint_child_subset hlink hy)
      have hg' : x ∈ footprint (link hh s.mem) 2 g := by
        rw [← (congr_footprint hsub).1]
        exact hg
      exact ⟨k, a, g, hlink, hg'⟩
    exact h.reached x hx'
  · exact fun hfree => (free_prepared.mp hfree).2.2 rfl
  · exact prepared_pml4 (h.valid.lt_limit hm.1) hlt hne

/-- The walks of the source in the state where the loops start. -/
theorem Source.walk_prepared (h : Source hh s r) (hm : s.pmm.Free m) (hc : s.pmm.Free c)
    {q : List Index} (hlen : q.length ≤ 4) :
    walk (link hh (prepared hh s m c).mem) r q = walk (link hh s.mem) r q :=
  (congr_footprint fun _ hx => h.link_prepared hm hc hx).2.2 q hlen

theorem Source.same_prepared (h : Source hh s r) (hm : s.pmm.Free m) (hc : s.pmm.Free c) {x : ℕ}
    (hx : x < 2 ^ 40) (hused : ¬ s.pmm.Free x) : SamePage hh s.mem (prepared hh s m c).mem x := by
  refine prepared_samePage (h.valid.lt_limit hm.1) (h.valid.lt_limit hc.1) hx ?_ ?_
  · rintro rfl
    exact hused hm
  · rintro rfl
    exact hused hc

/-- The free frames do not suffice for the pages and tables of the source: each of them is the
frame of the child's `pagemap_t` or of the copy of something the source has. -/
def Short (hh : Word) (s : Machine) (r : ℕ) : Prop :=
  ∃ m, ∃ copy : List Index → ℕ, ∀ x, s.pmm.Free x →
    x = m ∨ ∃ q, q.length ≤ 4 ∧ walk (link hh s.mem) r q ≠ none ∧ copy q = x

/-- A pagemap that is not short of frames: `paths` are all the paths of the source. -/
theorem not_short {paths : Finset (List Index)}
    (hpaths : ∀ q : List Index, q.length ≤ 4 → walk (link hh s.mem) r q ≠ none → q ∈ paths)
    (hcard : paths.card + 1 < s.pmm.freeFrames.card) : ¬ Short hh s r := by
  intro hshort
  obtain ⟨m, copy, hcopy⟩ := hshort
  have hsub : s.pmm.freeFrames ⊆ insert m (paths.image copy) := by
    intro x hx
    rw [Finset.mem_insert, Finset.mem_image]
    cases hcopy x (mem_freeFrames.mp hx) with
    | inl hm => exact Or.inl hm
    | inr hq =>
        obtain ⟨q, hlen, hwalk, hx⟩ := hq
        exact Or.inr ⟨q, hpaths q hlen hwalk, hx⟩
  have hle := Finset.card_le_card hsub
  have hinsert := Finset.card_insert_le m (paths.image copy)
  have himage := Finset.card_image_le (s := paths) (f := copy)
  omega

/-- What a loop that ran out of frames has built can be freed. -/
theorem freeSite_of_copying {s₁ : Machine} {done : Set Index} (h : Source hh s r)
    (hm : s.pmm.Free m) (hc : s.pmm.Free c) (hne : c ≠ m)
    (hcopy : Copying hh (prepared hh s m c) s₁ 3 r c done) :
    FreeSite hh s₁ 3 c ∧ load64 s₁.mem (frameVirt hh m) = frameVirt hh c := by
  have hsite := h.copySite hm hc hne
  refine ⟨⟨hcopy.valid hsite.valid, hsite.child_lt, hcopy.tree, fun x hx => ?_⟩, ?_⟩
  · have hfree := ((hcopy.taken x).mp hx).1
    rw [hcopy.balanced.highest]
    exact ⟨hfree.1, hsite.valid.ne_zero_of_free hfree⟩
  · have hused : ¬ (prepared hh s m c).pmm.Free m := fun hfree => (free_prepared.mp hfree).2.1 rfl
    have hsame := hcopy.same m (h.valid.lt_limit hm.1) hused hne.symm
    rw [load64_eq_entry, entry_congr hsame, ← load64_eq_entry, prepared_topLevel]

/-- Freeing what the loop has built leaves only the frame of the `pagemap_t` taken. -/
theorem freed_spec (hhigh : HigherHalf hh) (h : Source hh s r) (hm : s.pmm.Free m)
    (hc : s.pmm.Free c) (hne : c ≠ m) {s₁ : Machine} {done : Set Index}
    (hcopy : Copying hh (prepared hh s m c) s₁ 3 r c done) :
    ∃ s', vmmFreePagemapClone hh s₁ (frameVirt hh m) = s' ∧ s'.pmm = (s.take hh m).pmm ∧
      ∀ x < 2 ^ 40, ¬ s.pmm.Free x → SamePage hh s.mem s'.mem x := by
  obtain ⟨hsite, htop⟩ := freeSite_of_copying h hm hc hne hcopy
  have hcmanaged : c ≤ s₁.pmm.highestPage ∧ c ≠ 0 := by
    rw [hcopy.balanced.highest]
    exact ⟨hc.1, h.valid.ne_zero_of_free hc⟩
  obtain ⟨s₂, heq, hbal, hfree, hsame⟩ := vmmFreePagemapClone_spec hhigh hsite hcmanaged
    (h.valid.frameVirt_ne_zero hm.1 (h.valid.ne_zero_of_free hm)) htop
  have hcfree : (takeCleared hh s m).pmm.Free c := (free_take hh s m c).mpr ⟨hc, hne⟩
  have hbalanced : (s.take hh m).pmm.Balanced s₂.pmm :=
    ((balanced_take hh hcfree).trans hcopy.balanced).trans hbal
  -- the frames of the child were free before the call
  have hchild : ∀ x ∈ footprint (link hh s₁.mem) 4 c, s.pmm.Free x ∧ x ≠ m := by
    intro x hx
    cases hx with
    | inl hroot => exact hroot ▸ ⟨hc, hne⟩
    | inr hbelow =>
        obtain ⟨hx, hxm, -⟩ := free_prepared.mp ((hcopy.taken x).mp hbelow).1
        exact ⟨hx, hxm⟩
  refine ⟨s₂, heq, hbalanced.eq_of_free fun x => ?_, fun x hx hused => ?_⟩
  · rw [hfree x, free_take]
    constructor
    · rintro (hnow | hin)
      · obtain ⟨hx, hxm, -⟩ := free_prepared.mp (hcopy.free x hnow)
        exact ⟨hx, hxm⟩
      · exact hchild x hin
    · rintro ⟨hx, hxm⟩
      by_cases hxc : x = c
      · exact Or.inr (Or.inl hxc)
      · by_cases hnow : s₁.pmm.Free x
        · exact Or.inl hnow
        · exact Or.inr (Or.inr
            ((hcopy.taken x).mpr ⟨free_prepared.mpr ⟨hx, hxm, hxc⟩, hnow⟩))
  · have hxc : x ≠ c := by
      rintro rfl
      exact hused hc
    have hprep := h.same_prepared hm hc hx hused
    have hloop := hcopy.same x hx (fun hfree => hused (free_prepared.mp hfree).1) hxc
    have hfreed := hsame x hx fun hin => hused (hchild x (footprint_subset_succ 3 c hin)).1
    exact (hprep.trans hloop).trans hfreed

/-- The way out after `clone_fail`. -/
theorem cleanup_spec (hhigh : HigherHalf hh) (h : Source hh s r) (hm : s.pmm.Free m)
    (hc : s.pmm.Free c) (hne : c ≠ m) {s₁ : Machine} {done : Set Index}
    (hcopy : Copying hh (prepared hh s m c) s₁ 3 r c done) :
    ∃ s', (vmmFreePagemapClone hh s₁ (frameVirt hh m)).freePage (frameAddr m) = s' ∧
      s'.pmm = s.pmm ∧ ∀ x < 2 ^ 40, ¬ s.pmm.Free x → SamePage hh s.mem s'.mem x := by
  obtain ⟨s₂, heq, hpmm, hsame⟩ := freed_spec hhigh h hm hc hne hcopy
  refine ⟨s₂.freePage (frameAddr m), by rw [heq], ?_, hsame⟩
  rw [Machine.freePage_pmm, hpmm]
  exact freePage_take h.valid hm

theorem short_of_stuck (h : Source hh s r) (hm : s.pmm.Free m) (hc : s.pmm.Free c)
    {s₁ : Machine} {done : Set Index} (hcopy : Copying hh (prepared hh s m c) s₁ 3 r c done)
    (hnone : ∀ x, ¬ s₁.pmm.Free x) : Short hh s r := by
  let copy : List Index → ℕ := fun q =>
    match walk (link hh s₁.mem) c q with
    | some found => found.2
    | none => 0
  refine ⟨m, copy, fun x hx => ?_⟩
  by_cases hxm : x = m
  · exact Or.inl hxm
  right
  have hmem : x ∈ footprint (link hh s₁.mem) 4 c := by
    by_cases hxc : x = c
    · exact Or.inl hxc
    · exact Or.inr ((hcopy.taken x).mpr ⟨free_prepared.mpr ⟨hx, hxm, hxc⟩, hnone x⟩)
  obtain ⟨q, es, hlen, hw⟩ := exists_walk_of_mem hmem
  obtain ⟨es', g, hsrc, -⟩ := hcopy.copied q es x hlen hw
  rw [h.walk_prepared hm hc hlen] at hsrc
  refine ⟨q, hlen, by simp [hsrc], ?_⟩
  simp only [copy, hw]

theorem frameAddr_add (hh : Word) (f : ℕ) : frameAddr f + hh = frameVirt hh f := rfl

theorem takeCleared_eq : (⟨(s.take hh m).pmm,
    memset (s.take hh m).mem (frameVirt hh m) 0#32 4096#32⟩ : Machine) = takeCleared hh s m := rfl

theorem prepared_eq : (⟨((takeCleared hh s m).take hh c).pmm,
    store64 (memset ((takeCleared hh s m).take hh c).mem (frameVirt hh c) 0#32 4096#32)
      (frameVirt hh m) (frameVirt hh c)⟩ : Machine) = prepared hh s m c := rfl

theorem clone_of_one_frame (hroot : frameVirt hh r ≠ 0#64) (hm : frameAddr m ≠ 0#64)
    (hfirst : allocatePage hh s = (frameAddr m, s.take hh m))
    (hsecond : allocatePage hh (takeCleared hh s m) = (0#64, takeCleared hh s m)) :
    vmmClonePagemap hh s (some ⟨frameVirt hh r⟩) =
      (0#64, (takeCleared hh s m).freePage (frameAddr m)) := by
  unfold vmmClonePagemap
  simp only [if_neg hroot, hfirst, if_neg hm, frameAddr_add, takeCleared_eq, hsecond, if_true]

theorem clone_of_two_frames (hroot : frameVirt hh r ≠ 0#64) (hm : frameAddr m ≠ 0#64)
    (hc : frameAddr c ≠ 0#64) (hfirst : allocatePage hh s = (frameAddr m, s.take hh m))
    (hsecond : allocatePage hh (takeCleared hh s m) =
      (frameAddr c, (takeCleared hh s m).take hh c)) :
    vmmClonePagemap hh s (some ⟨frameVirt hh r⟩) =
      match clonePml4 hh (frameVirt hh r) (frameVirt hh c) (prepared hh s m c) with
      | (true, s) => (frameVirt hh m, s)
      | (false, s) =>
          (0#64, (vmmFreePagemapClone hh s (frameVirt hh m)).freePage (frameAddr m)) := by
  unfold vmmClonePagemap
  cases hclone : clonePml4 hh (frameVirt hh r) (frameVirt hh c) (prepared hh s m c) with
  | mk ok s' =>
      cases ok <;>
        simp only [if_neg hroot, hfirst, if_neg hm, frameAddr_add, takeCleared_eq, hsecond,
          if_neg hc, prepared_eq, hclone]

/-- `vmm_clone_pagemap` returns a complete copy, or gives everything back for lack of frames. -/
theorem vmmClonePagemap_cases (hhigh : HigherHalf hh) (h : Source hh s r)
    (hroot : frameVirt hh r ≠ 0#64) :
    (∃ m c s', vmmClonePagemap hh s (some ⟨frameVirt hh r⟩) = (frameVirt hh m, s') ∧
      frameVirt hh m ≠ 0#64 ∧ s.pmm.Free m ∧ (∀ j < m, ¬ s.pmm.Free j) ∧ s.pmm.Free c ∧ c ≠ m ∧
      Copying hh (prepared hh s m c) s' 3 r c Set.univ ∧
      Complete hh (prepared hh s m c).mem s'.mem 3 r c Set.univ) ∨
    ∃ s', vmmClonePagemap hh s (some ⟨frameVirt hh r⟩) = (0#64, s') ∧ s'.pmm = s.pmm ∧
      (∀ x < 2 ^ 40, ¬ s.pmm.Free x → SamePage hh s.mem s'.mem x) ∧ Short hh s r := by
  cases allocatePage_cases hh s with
  | inl hfail =>
      refine Or.inr ⟨s, ?_, rfl, fun x _ _ => SamePage.refl hh _ x, 0, fun _ => 0, ?_⟩
      · unfold vmmClonePagemap
        simp only [if_neg hroot, hfail.1, if_true]
      · exact fun x hx => absurd hx (hfail.2 x)
  | inr hok =>
      obtain ⟨m, hm, hlowest, hfirst⟩ := hok
      have hmne := h.valid.ne_zero_of_free hm
      have hmlt := h.valid.lt_limit hm.1
      have hmaddr := h.valid.frameAddr_ne_zero hm.1 hmne
      cases allocatePage_cases hh (takeCleared hh s m) with
      | inl hfail =>
          right
          have honly : ∀ x, s.pmm.Free x → x = m := by
            intro x hx
            by_contra hne
            refine hfail.2 x ?_
            rw [takeCleared_pmm, free_take]
            exact ⟨hx, hne⟩
          refine ⟨_, clone_of_one_frame hroot hmaddr hfirst hfail.1, ?_, fun x hx hused => ?_, m,
            fun _ => 0, fun x hx => Or.inl (honly x hx)⟩
          · rw [Machine.freePage_pmm, takeCleared_pmm]
            exact freePage_take h.valid hm
          · rw [Machine.freePage_mem]
            refine takeCleared_samePage hmlt hx ?_
            rintro rfl
            exact hused hm
      | inr hok =>
          obtain ⟨c, hc, -, hsecond⟩ := hok
          rw [takeCleared_pmm, free_take] at hc
          obtain ⟨hc, hne⟩ := hc
          have hcaddr := h.valid.frameAddr_ne_zero hc.1 (h.valid.ne_zero_of_free hc)
          rw [clone_of_two_frames hroot hmaddr hcaddr hfirst hsecond, clonePml4_eq hhigh]
          cases cloneLevel_spec hh 3 _ r c (h.copySite hm hc hne) with
          | inl hdone =>
              obtain ⟨s', heq, hcopy, hall⟩ := hdone
              rw [heq]
              exact Or.inl ⟨m, c, s', rfl, h.valid.frameVirt_ne_zero hm.1 hmne, hm, hlowest, hc, hne,
                hcopy, hall⟩
          | inr hstuck =>
              obtain ⟨s₁, heq, ⟨done, hcopy⟩, hnone⟩ := hstuck
              obtain ⟨s', hs', hpmm, hsame⟩ := cleanup_spec hhigh h hm hc hne hcopy
              rw [heq]
              exact Or.inr ⟨s', congrArg (Prod.mk 0#64) hs', hpmm, hsame,
                short_of_stuck h hm hc hcopy hnone⟩

theorem clone_of_null (hroot : frameVirt hh r = 0#64) :
    vmmClonePagemap hh s (some ⟨frameVirt hh r⟩) = (0#64, s) := by
  unfold vmmClonePagemap
  exact if_pos hroot

/-- What the caller gets: a pagemap of its own whose PML4 is in frame `c`. -/
structure Child (hh : Word) (s s' : Machine) (r : ℕ) (child : Word) (c : ℕ) : Prop where
  top : load64 s'.mem child = frameVirt hh c
  root_free : s.pmm.Free c
  tree : IsTree (link hh s'.mem) 4 c
  taken : ∀ x ∈ below (link hh s'.mem) 4 c, s.pmm.Free x
  same : ∀ x < 2 ^ 40, ¬ s.pmm.Free x → SamePage hh s.mem s'.mem x
  walks : ∀ q : List Index, q.length ≤ 4 →
    (walk (link hh s'.mem) c q = none ↔ walk (link hh s.mem) r q = none)
  copied : ∀ (q : List Index) es' g', q.length ≤ 4 → walk (link hh s'.mem) c q = some (es', g') →
    ∃ es g, walk (link hh s.mem) r q = some (es, g) ∧ List.Forall₂ CopiedEntry es es' ∧
      (q.length = 4 → ¬ s.pmm.Free g → SameBytes hh s.mem s'.mem g g')
  empty : ∀ k, link hh s.mem r k = none → entry hh s'.mem c k = 0#64

theorem child_of_copying {s' : Machine} (h : Source hh s r) (hm : s.pmm.Free m)
    (hc : s.pmm.Free c) (hne : c ≠ m) (hcopy : Copying hh (prepared hh s m c) s' 3 r c Set.univ)
    (hall : Complete hh (prepared hh s m c).mem s'.mem 3 r c Set.univ) :
    Child hh s s' r (frameVirt hh m) c := by
  have hwalk : ∀ q : List Index, q.length ≤ 4 →
      walk (link hh (prepared hh s m c).mem) r q = walk (link hh s.mem) r q :=
    fun q hlen => h.walk_prepared hm hc hlen
  refine ⟨(freeSite_of_copying h hm hc hne hcopy).2, hc, hcopy.tree, ?_, ?_, ?_, ?_, ?_⟩
  · exact fun x hx => (free_prepared.mp ((hcopy.taken x).mp hx).1).1
  · intro x hx hused
    have hxc : x ≠ c := by
      rintro rfl
      exact hused hc
    exact (h.same_prepared hm hc hx hused).trans
      (hcopy.same x hx (fun hfree => hused (free_prepared.mp hfree).1) hxc)
  · intro q hlen
    rw [← hwalk q hlen]
    constructor
    · intro hnone
      by_contra hsome
      cases q with
      | nil => simp at hnone
      | cons k q => exact hall k (Set.mem_univ k) q (Nat.le_of_succ_le_succ hlen) hsome hnone
    · intro hnone
      cases hw : walk (link hh s'.mem) c q with
      | none => rfl
      | some found =>
          obtain ⟨es, g, hsrc, -⟩ := hcopy.copied q found.1 found.2 hlen hw
          rw [hnone] at hsrc
          exact absurd hsrc (by simp)
  · intro q es' g' hlen hw
    obtain ⟨es, g, hsrc, hes, hbytes⟩ := hcopy.copied q es' g' hlen hw
    rw [hwalk q hlen] at hsrc
    refine ⟨es, g, hsrc, hes, fun hlong hused => ?_⟩
    have hgc : g ≠ c := by
      rintro rfl
      exact hused hc
    have hearly := h.same_prepared hm hc (walk_lt h.root_lt hsrc) hused
    exact (SamePage.sameBytes hearly).trans
      (hbytes hlong (fun hfree => hused (free_prepared.mp hfree).1) hgc)
  · intro k hk
    refine hcopy.empty k (Or.inr ?_)
    rw [h.link_prepared hm hc (mem_footprint_self _ r)]
    exact hk

/-- A clone that is returned is a child of the source. -/
theorem child_of_clone (hhigh : HigherHalf hh) (h : Source hh s r) {child : Word} {s' : Machine}
    (hclone : vmmClonePagemap hh s (some ⟨frameVirt hh r⟩) = (child, s')) (hne : child ≠ 0#64) :
    ∃ c, Child hh s s' r child c := by
  by_cases hroot : frameVirt hh r = 0#64
  · rw [clone_of_null hroot, Prod.mk.injEq] at hclone
    exact absurd hclone.1.symm hne
  · rcases vmmClonePagemap_cases hhigh h hroot with
      ⟨m, c, s₁, heq, -, hm, -, hc, hcm, hcopy, hall⟩ | ⟨s₁, heq, -⟩
    · rw [heq, Prod.mk.injEq] at hclone
      obtain ⟨rfl, rfl⟩ := hclone
      exact ⟨c, child_of_copying h hm hc hcm hcopy hall⟩
    · rw [heq, Prod.mk.injEq] at hclone
      exact absurd hclone.1.symm hne

/-- The child's `pagemap_t` takes the lowest free frame, of which it uses the first eight bytes. -/
theorem clone_clears_lowest (hhigh : HigherHalf hh) (h : Source hh s r) {child : Word}
    {s' : Machine} (hclone : vmmClonePagemap hh s (some ⟨frameVirt hh r⟩) = (child, s'))
    (hne : child ≠ 0#64) :
    ∃ m, s.pmm.Free m ∧ (∀ j < m, ¬ s.pmm.Free j) ∧
      ∀ k, 8 ≤ k → k < 4096 → s'.mem (frameVirt hh m + BitVec.ofNat 64 k) = 0#8 := by
  have hroot : frameVirt hh r ≠ 0#64 := by
    intro hroot
    rw [clone_of_null hroot, Prod.mk.injEq] at hclone
    exact hne hclone.1.symm
  rcases vmmClonePagemap_cases hhigh h hroot with
    ⟨m, c, s₁, heq, -, hm, hlowest, hc, hcm, hcopy, -⟩ | ⟨s₁, heq, -⟩
  · rw [heq, Prod.mk.injEq] at hclone
    obtain ⟨-, rfl⟩ := hclone
    refine ⟨m, hm, hlowest, fun k hlo hhi => ?_⟩
    have hin : InFrame hh m (frameVirt hh m + BitVec.ofNat 64 k) := inRange_add _ hhi (by norm_num)
    have hused : ¬ (prepared hh s m c).pmm.Free m := fun hfree => (free_prepared.mp hfree).2.1 rfl
    rw [hcopy.same m (h.valid.lt_limit hm.1) hused hcm.symm _ hin]
    exact prepared_map_zero (h.valid.lt_limit hm.1) (h.valid.lt_limit hc.1) hcm hlo hhi
  · rw [heq, Prod.mk.injEq] at hclone
    exact absurd hclone.1.symm hne

/-- With a free frame for everything the source has and one more, the clone succeeds. -/
theorem clone_succeeds (hhigh : HigherHalf hh) (h : Source hh s r) (hroot : frameVirt hh r ≠ 0#64)
    {paths : Finset (List Index)}
    (hpaths : ∀ q : List Index, q.length ≤ 4 → walk (link hh s.mem) r q ≠ none → q ∈ paths)
    (hcard : paths.card + 1 < s.pmm.freeFrames.card) :
    (vmmClonePagemap hh s (some ⟨frameVirt hh r⟩)).1 ≠ 0#64 := by
  rcases vmmClonePagemap_cases hhigh h hroot with ⟨m, c, s₁, heq, hne, -⟩ | ⟨s₁, -, -, -, hshort⟩
  · rw [heq]
    exact hne
  · exact absurd hshort (not_short hpaths hcard)

end Clone

end Osiris.Clone
