import Osiris.Verification.Clone.Pagemap
import Osiris.Verification.Vmm.Map

/-! # Sources with one page

The smallest pagemaps that map something: a chain of three tables below the PML4 and one page at
the end of it, at any place of the address space and with any leaf. -/

namespace Osiris.Clone

open ByteMemory Strings Page Radix Vmm

/-- A table entry that points to frame `f`, as `vmm_map_page` writes it for the kernel. -/
def tableEntry (f : ℕ) : Word :=
  frameAddr f ||| (ptePresent ||| pteWritable)

/-- Memory with one chain of tables in the frames 1 to 4 and a pattern in frame 5. -/
def onePageMem (hh : Word) (pml4I ptI : Index) (leaf : Word) : Mem :=
  writeEntry
    (writeEntry
      (writeEntry
        (writeEntry (fun x => if (x - hh).toNat / 4096 = 5 then 0xAA#8 else 0#8)
          (frameVirt hh 1) pml4I (tableEntry 2))
        (frameVirt hh 2) 0 (tableEntry 3))
      (frameVirt hh 3) 0 (tableEntry 4))
    (frameVirt hh 4) ptI leaf

/-- The frames 0 to 4 are in use, and those up to `highest` are free. -/
def onePage (hh : Word) (highest : ℕ) (pml4I ptI : Index) (leaf : Word) : Machine where
  pmm :=
    { memoryBitmap := fun i => if i = 0 then 0x1F#8 else 0x00#8
      highestPage := highest
      usedPages := 5#64
      freePages := BitVec.ofNat 64 (highest - 4)
      totalRamPages := BitVec.ofNat 64 (highest + 1) }
  mem := onePageMem hh pml4I ptI leaf

variable {hh : Word} {highest : ℕ} {pml4I ptI : Index} {leaf : Word}

theorem entry_writeEntry {f g : ℕ} (hf : f < 2 ^ 40) (hg : g < 2 ^ 40) (m : Mem) (k j : Index)
    (v : Word) : entry hh (writeEntry m (frameVirt hh f) k v) g j =
      if g = f ∧ j = k then v else entry hh m g j := by
  by_cases hgf : g = f
  · subst hgf
    by_cases hjk : j = k
    · subst hjk
      rw [if_pos ⟨rfl, rfl⟩, entry_writeEntry_same]
    · rw [if_neg fun h => hjk h.2, entry_writeEntry_ne hh m g hjk]
  · rw [if_neg fun h => hgf h.1]
    exact entry_congr (samePage_writeEntry (limit_of_lt hf) (limit_of_lt hg) hgf m k v) j

theorem onePage_entry {f : ℕ} (hf : f < 5) (k : Index) :
    entry hh (onePageMem hh pml4I ptI leaf) f k =
      if f = 4 ∧ k = ptI then leaf
      else if f = 3 ∧ k = 0 then tableEntry 4
      else if f = 2 ∧ k = 0 then tableEntry 3
      else if f = 1 ∧ k = pml4I then tableEntry 2
      else 0#64 := by
  have hlt : f < 2 ^ 40 := by omega
  unfold onePageMem
  rw [entry_writeEntry (by norm_num) hlt, entry_writeEntry (by norm_num) hlt,
    entry_writeEntry (by norm_num) hlt, entry_writeEntry (by norm_num) hlt]
  congr 4
  refine entry_of_zero (fun x hx => ?_) k
  rw [inFrame_iff (limit_of_lt hlt)] at hx
  rw [if_neg (by omega)]

theorem link_tableEntry {m : Mem} {f g : ℕ} {k : Index} (hg : g < 2 ^ 40)
    (h : entry hh m f k = tableEntry g) : link hh m f k = some (tableEntry g, g) := by
  refine link_eq_some.mpr ⟨h, hasFlag_or.mpr (Or.inr (by decide)), ?_⟩
  unfold tableEntry
  rw [frameOf_frameAddr_or hg (by decide)]

/-- The only edges are those of the chain. -/
theorem onePage_link {f g : ℕ} {k : Index} {a : Word} (hf : f < 5)
    (h : link hh (onePageMem hh pml4I ptI leaf) f k = some (a, g)) :
    (f = 1 ∧ k = pml4I ∧ g = 2) ∨ (f = 2 ∧ k = 0 ∧ g = 3) ∨ (f = 3 ∧ k = 0 ∧ g = 4) ∨
      (f = 4 ∧ k = ptI ∧ g = frameOf leaf) := by
  obtain ⟨hentry, hpresent, rfl⟩ := link_eq_some.mp h
  have hframe : ∀ i < 2 ^ 40, frameOf (tableEntry i) = i :=
    fun i hi => frameOf_frameAddr_or hi (by decide)
  rw [onePage_entry hf] at hentry
  split_ifs at hentry with h₄ h₃ h₂ h₁
  · exact Or.inr (Or.inr (Or.inr ⟨h₄.1, h₄.2, by rw [← hentry]⟩))
  · exact Or.inr (Or.inr (Or.inl ⟨h₃.1, h₃.2, by rw [← hentry, hframe 4 (by norm_num)]⟩))
  · exact Or.inr (Or.inl ⟨h₂.1, h₂.2, by rw [← hentry, hframe 3 (by norm_num)]⟩)
  · exact Or.inl ⟨h₁.1, h₁.2, by rw [← hentry, hframe 2 (by norm_num)]⟩
  · rw [← hentry] at hpresent
    exact absurd hpresent (not_hasFlag_zero _)

/-- The path of the page. -/
def onePagePath (pml4I ptI : Index) : List Index :=
  [pml4I, 0, 0, ptI]

/-- A walk goes down the chain, through the frames 1 to 4 to the page. -/
theorem onePage_walk {q : List Index} {es : List Word} {g : ℕ} (hlen : q.length ≤ 4)
    (hw : walk (link hh (onePageMem hh pml4I ptI leaf)) 1 q = some (es, g)) :
    (q <+: onePagePath pml4I ptI ∧ q.length ≤ 3 ∧ g = q.length + 1) ∨
      (q = onePagePath pml4I ptI ∧ g = frameOf leaf) := by
  unfold onePagePath
  cases q with
  | nil =>
      obtain ⟨-, rfl⟩ := Prod.mk.inj (Option.some.inj hw)
      exact Or.inl ⟨List.nil_prefix, by simp, rfl⟩
  | cons k₁ q =>
      obtain ⟨a₁, x₁, es₁, hlink₁, hw₁, -⟩ := walk_cons_eq_some.mp hw
      obtain ⟨rfl, rfl⟩ : k₁ = pml4I ∧ x₁ = 2 := by simpa using onePage_link (by norm_num) hlink₁
      cases q with
      | nil =>
          obtain ⟨-, rfl⟩ := Prod.mk.inj (Option.some.inj hw₁)
          exact Or.inl ⟨by simp, by simp, rfl⟩
      | cons k₂ q =>
          obtain ⟨a₂, x₂, es₂, hlink₂, hw₂, -⟩ := walk_cons_eq_some.mp hw₁
          obtain ⟨rfl, rfl⟩ : k₂ = 0 ∧ x₂ = 3 := by simpa using onePage_link (by norm_num) hlink₂
          cases q with
          | nil =>
              obtain ⟨-, rfl⟩ := Prod.mk.inj (Option.some.inj hw₂)
              exact Or.inl ⟨by simp, by simp, rfl⟩
          | cons k₃ q =>
              obtain ⟨a₃, x₃, es₃, hlink₃, hw₃, -⟩ := walk_cons_eq_some.mp hw₂
              obtain ⟨rfl, rfl⟩ : k₃ = 0 ∧ x₃ = 4 := by
                simpa using onePage_link (by norm_num) hlink₃
              cases q with
              | nil =>
                  obtain ⟨-, rfl⟩ := Prod.mk.inj (Option.some.inj hw₃)
                  exact Or.inl ⟨by simp, by simp, rfl⟩
              | cons k₄ q =>
                  obtain ⟨a₄, x₄, es₄, hlink₄, hw₄, -⟩ := walk_cons_eq_some.mp hw₃
                  obtain ⟨rfl, rfl⟩ : k₄ = ptI ∧ x₄ = frameOf leaf := by
                    simpa using onePage_link (by norm_num) hlink₄
                  obtain rfl : q = [] := by
                    simp only [List.length_cons] at hlen
                    exact List.length_eq_zero_iff.mp (by omega)
                  obtain ⟨-, rfl⟩ := Prod.mk.inj (Option.some.inj hw₄)
                  exact Or.inr ⟨rfl, rfl⟩

theorem onePage_path {q : List Index} (hlen : q.length ≤ 4)
    (hw : walk (link hh (onePageMem hh pml4I ptI leaf)) 1 q ≠ none) :
    q ∈ (onePagePath pml4I ptI).inits.toFinset := by
  obtain ⟨⟨es, g⟩, hsome⟩ := Option.ne_none_iff_exists'.mp hw
  rw [List.mem_toFinset, List.mem_inits]
  rcases onePage_walk hlen hsome with ⟨hpre, -⟩ | ⟨rfl, -⟩
  · exact hpre
  · exact List.prefix_rfl

theorem onePage_link_pml4 :
    link hh (onePageMem hh pml4I ptI leaf) 1 pml4I = some (tableEntry 2, 2) :=
  link_tableEntry (by norm_num) (by rw [onePage_entry (by norm_num)]; simp)

/-- The walk to the page of the chain. -/
theorem onePage_walk_page (hleaf : HasFlag leaf ptePresent) :
    walk (link hh (onePageMem hh pml4I ptI leaf)) 1 (onePagePath pml4I ptI) =
      some ([tableEntry 2, tableEntry 3, tableEntry 4, leaf], frameOf leaf) := by
  have h₂ : link hh (onePageMem hh pml4I ptI leaf) 2 0 = some (tableEntry 3, 3) :=
    link_tableEntry (by norm_num) (by rw [onePage_entry (by norm_num)]; simp)
  have h₃ : link hh (onePageMem hh pml4I ptI leaf) 3 0 = some (tableEntry 4, 4) :=
    link_tableEntry (by norm_num) (by rw [onePage_entry (by norm_num)]; simp)
  have h₄ : link hh (onePageMem hh pml4I ptI leaf) 4 ptI = some (leaf, frameOf leaf) := by
    refine link_eq_some.mpr ⟨?_, hleaf, rfl⟩
    rw [onePage_entry (by norm_num)]
    simp
  unfold onePagePath
  rw [walk_cons_of_some onePage_link_pml4, walk_cons_of_some h₂, walk_cons_of_some h₃,
    walk_cons_of_some h₄]
  rfl

/-- The page of the chain is the only one that is mapped. -/
theorem onePage_leaf (hleaf : HasFlag leaf ptePresent) {v e : Word} :
    leafEntry hh (onePage hh highest pml4I ptI leaf).mem 1 v = some e ↔
      pathOf v = onePagePath pml4I ptI ∧ e = leaf := by
  rw [leafEntry_eq_some]
  constructor
  · intro h
    obtain ⟨es, hw⟩ := h
    have hpath : pathOf v = onePagePath pml4I ptI := by
      cases onePage_walk (pathOf_length v).le hw with
      | inl hupper => exact absurd hupper.2.1 (by simp [pathOf_length])
      | inr hpage => exact hpage.1
    have hsome : walk (link hh (onePageMem hh pml4I ptI leaf)) 1 (pathOf v) =
        some (es ++ [e], frameOf e) := hw
    rw [hpath, onePage_walk_page hleaf, Option.some.injEq, Prod.mk.injEq] at hsome
    have hlast := congrArg List.getLast? hsome.1
    exact ⟨hpath, by simpa using hlast.symm⟩
  · intro h
    obtain ⟨hpath, rfl⟩ := h
    refine ⟨[tableEntry 2, tableEntry 3, tableEntry 4], ?_⟩
    rw [hpath]
    exact onePage_walk_page hleaf

/-- Frame 5 holds the pattern. -/
theorem onePage_pattern {x : Word} (hx : InFrame hh 5 x) :
    (onePage hh highest pml4I ptI leaf).mem x = 0xAA#8 := by
  have hlt : ∀ f ≤ 5, f < frameLimit := fun f hf => limit_of_lt (by omega)
  have hfive := hx
  rw [inFrame_iff (hlt 5 (by norm_num))] at hfive
  change onePageMem hh pml4I ptI leaf x = 0xAA#8
  unfold onePageMem
  rw [samePage_writeEntry (hlt 4 (by norm_num)) (hlt 5 (by norm_num)) (by norm_num) _ _ _ x hx,
    samePage_writeEntry (hlt 3 (by norm_num)) (hlt 5 (by norm_num)) (by norm_num) _ _ _ x hx,
    samePage_writeEntry (hlt 2 (by norm_num)) (hlt 5 (by norm_num)) (by norm_num) _ _ _ x hx,
    samePage_writeEntry (hlt 1 (by norm_num)) (hlt 5 (by norm_num)) (by norm_num) _ _ _ x hx,
    if_pos hfive]

theorem onePage_free {f : ℕ} :
    (onePage hh highest pml4I ptI leaf).pmm.Free f ↔ 5 ≤ f ∧ f ≤ highest := by
  have hbit : (onePage hh highest pml4I ptI leaf).pmm.memoryBitmap.get f = decide (f < 5) := by
    rw [Bitmap.get_eq_getLsbD]
    change (if f / 8 = 0 then 0x1F#8 else 0x00#8).getLsbD (f % 8) = _
    by_cases hf : f < 8
    · interval_cases f <;> decide
    · rw [if_neg (by omega)]
      simp
      omega
  have hhighest : (onePage hh highest pml4I ptI leaf).pmm.highestPage = highest := rfl
  unfold Pmm.Free
  rw [hbit, hhighest, decide_eq_false_iff_not, not_lt, and_comm]

theorem onePage_footprint {x : ℕ}
    (hx : x ∈ footprint (link hh (onePageMem hh pml4I ptI leaf)) 3 1) : x ≠ 0 ∧ x < 5 := by
  obtain ⟨q, es, hlen, hw⟩ := exists_walk_of_mem hx
  rcases onePage_walk (by omega) hw with ⟨-, -, rfl⟩ | ⟨rfl, -⟩
  · omega
  · exact absurd hlen (by simp [onePagePath])

theorem onePage_formed (hleaf : HasFlag leaf ptePresent) {f : ℕ} (hf : f < 5) (k : Index) :
    entry hh (onePageMem hh pml4I ptI leaf) f k = 0#64 ∨
      HasFlag (entry hh (onePageMem hh pml4I ptI leaf) f k) ptePresent := by
  have htable : ∀ i, HasFlag (tableEntry i) ptePresent :=
    fun i => hasFlag_or.mpr (Or.inr (by decide))
  rw [onePage_entry hf]
  split_ifs
  · exact Or.inr hleaf
  · exact Or.inr (htable 4)
  · exact Or.inr (htable 3)
  · exact Or.inr (htable 2)
  · exact Or.inl rfl

theorem onePage_source (hroom : hh.toNat + (highest + 1) * 4096 ≤ 2 ^ 64)
    (hcap : highest < pmmBitmapSize * 8) (hfour : 4 ≤ highest) (hleaf : HasFlag leaf ptePresent) :
    Source hh (onePage hh highest pml4I ptI leaf) 1 := by
  have hvalid : (onePage hh highest pml4I ptI leaf).Valid hh :=
    ⟨hcap, fun h => absurd (onePage_free.mp h).1 (by norm_num), hroom⟩
  refine ⟨hvalid, by norm_num, fun x hx hfree => ?_, fun x hx => ?_, fun x hx k => ?_⟩
  · have hlt := (onePage_footprint hx).2
    have hge := (onePage_free.mp hfree).1
    omega
  · obtain ⟨hne, hlt⟩ := onePage_footprint (Or.inr hx)
    refine hvalid.frameVirt_ne_zero ?_ hne
    change x ≤ highest
    omega
  · exact onePage_formed hleaf (onePage_footprint hx).2 k

/-- Seven free frames are enough for the clone. -/
theorem onePage_clones (hhigh : HigherHalf hh) (hroom : hh.toNat + (highest + 1) * 4096 ≤ 2 ^ 64)
    (hcap : highest < pmmBitmapSize * 8) (hseven : 11 ≤ highest) (hleaf : HasFlag leaf ptePresent) :
    (vmmClonePagemap hh (onePage hh highest pml4I ptI leaf) (some ⟨frameVirt hh 1⟩)).1 ≠ 0#64 := by
  have hsource : Source hh (onePage hh highest pml4I ptI leaf) 1 :=
    onePage_source hroom hcap (by omega) hleaf
  have hroot : frameVirt hh 1 ≠ 0#64 :=
    hsource.valid.frameVirt_ne_zero (show 1 ≤ highest by omega) (by norm_num)
  refine clone_succeeds hhigh hsource hroot (fun q hlen hw => onePage_path hlen hw) ?_
  have hpaths : (onePagePath pml4I ptI).inits.toFinset.card ≤ 5 := List.toFinset_card_le _
  have hfree : Finset.Icc 5 11 ⊆ (onePage hh highest pml4I ptI leaf).pmm.freeFrames := by
    intro f hf
    rw [Finset.mem_Icc] at hf
    exact mem_freeFrames.mpr (onePage_free.mpr (by omega))
  have hcard := Finset.card_le_card hfree
  rw [Nat.card_Icc] at hcard
  omega

end Osiris.Clone
