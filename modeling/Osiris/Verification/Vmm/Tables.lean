import Osiris.Verification.Vmm.View

/-! # The tree of page tables

The invariant of a pagemap couples its tables with the frame allocator: the tables form a tree
of depth three below the PML4, and the allocator counts all of them as used. -/

namespace Osiris.Vmm

open ByteMemory Strings Page Radix

/-- What an entry of a table may hold, `n` being the number of table levels below the table. -/
def Formed (hh : Word) (m : Mem) (n : ℕ) (f : ℕ) : Prop :=
  ∀ index, entry hh m f index = 0#64 ∨
    (HasFlag (entry hh m f index) ptePresent ∧
      (n ≠ 0 → HasFlag (entry hh m f index) pteWritable))

theorem Formed.congr {hh : Word} {m m' : Mem} {n f : ℕ} (h : Formed hh m n f)
    (hsame : SamePage hh m m' f) : Formed hh m' n f := by
  intro index
  rw [entry_congr hsame]
  exact h index

/-- Tables that are left alone stay well formed. -/
theorem allFormed_congr {hh : Word} {m m' : Mem} {d f : ℕ}
    (hsame : ∀ g ∈ footprint (link hh m) d f, SamePage hh m m' g)
    (h : AllNodes (Formed hh m) (link hh m) d f) : AllNodes (Formed hh m') (link hh m') d f :=
  allNodes_congr (fun g hg => link_congr (hsame g hg))
    (fun g hg _ hformed => hformed.congr (hsame g hg)) h

/-- The invariant of a pagemap whose PML4 is in frame `r`. -/
structure TableInv (hh : Word) (s : Machine) (r : ℕ) : Prop where
  valid : s.Valid hh
  root_lt : r < 2 ^ 40
  tree : IsTree (link hh s.mem) 3 r
  used : ∀ f ∈ footprint (link hh s.mem) 3 r, ¬ s.pmm.Free f
  managed : ∀ f ∈ below (link hh s.mem) 3 r, f ≤ s.pmm.highestPage ∧ f ≠ 0
  formed : AllNodes (Formed hh s.mem) (link hh s.mem) 3 r

/-- A zeroed PML4 in a frame that is in use. -/
structure EmptyPml4 (hh : Word) (s : Machine) (r : ℕ) : Prop where
  valid : s.Valid hh
  root_lt : r < 2 ^ 40
  root_used : ¬ s.pmm.Free r
  zeroed : ∀ index, entry hh s.mem r index = 0#64

theorem walk_lt {hh : Word} {m : Mem} {p : List Index} {es : List Word} {r f : ℕ} (hr : r < 2 ^ 40)
    (hw : walk (link hh m) r p = some (es, f)) : f < 2 ^ 40 := by
  induction p generalizing r es with
  | nil =>
      simp only [walk_nil, Option.some.injEq, Prod.mk.injEq] at hw
      exact hw.2 ▸ hr
  | cons k p ih =>
      obtain ⟨a, h, es', hk, hw', -⟩ := walk_cons_eq_some.mp hw
      obtain ⟨-, -, rfl⟩ := link_eq_some.mp hk
      exact ih (frameOf_lt a) hw'

theorem footprint_lt {hh : Word} {m : Mem} {d r f : ℕ} (hr : r < 2 ^ 40)
    (hf : f ∈ footprint (link hh m) d r) : f < 2 ^ 40 := by
  obtain ⟨p, es, -, hw⟩ := exists_walk_of_mem hf
  exact walk_lt hr hw

theorem EmptyPml4.tableInv {hh : Word} {s : Machine} {r : ℕ} (h : EmptyPml4 hh s r) :
    TableInv hh s r := by
  have hnone : ∀ k, link hh s.mem r k = none := fun k => link_of_zero (h.zeroed k)
  have hfoot := footprint_of_empty hnone 3
  refine ⟨h.valid, h.root_lt, isTree_of_empty hnone 3, ?_, ?_, ?_⟩
  · intro f hf
    rw [hfoot, Set.mem_singleton_iff] at hf
    exact hf ▸ h.root_used
  · rintro f ⟨k, a, g, hk, -⟩
    simp [hnone] at hk
  · intro p es g _ hw
    cases p with
    | nil =>
        simp only [walk_nil, Option.some.injEq, Prod.mk.injEq] at hw
        exact fun k => Or.inl (hw.2 ▸ h.zeroed k)
    | cons k p => simp [walk_cons_of_none (hnone k)] at hw

section Edit

variable {hh : Word} {s s' : Machine} {r f e : ℕ} {p : List Index} {es : List Word}

/-- What an edit of the subtree at `f` may do, and what the rest of the pagemap sees of it. -/
structure Edit (hh : Word) (s s' : Machine) (r f e : ℕ) : Prop where
  valid : s'.Valid hh
  highest : s'.pmm.highestPage = s.pmm.highestPage
  outside : ∀ g ∈ footprint (link hh s.mem) 3 r, g ∉ footprint (link hh s.mem) e f →
    SamePage hh s.mem s'.mem g
  outside_used : ∀ g ∈ footprint (link hh s.mem) 3 r, g ∉ footprint (link hh s.mem) e f →
    ¬ s'.pmm.Free g
  tree : IsTree (link hh s'.mem) e f
  inside_new : ∀ g ∈ footprint (link hh s'.mem) e f, g ∈ footprint (link hh s.mem) 3 r →
    g ∈ footprint (link hh s.mem) e f
  inside_used : ∀ g ∈ footprint (link hh s'.mem) e f, ¬ s'.pmm.Free g
  inside_managed : ∀ g ∈ below (link hh s'.mem) e f,
    g ∈ below (link hh s.mem) e f ∨ (g ≤ s.pmm.highestPage ∧ g ≠ 0)
  formed : AllNodes (Formed hh s'.mem) (link hh s'.mem) e f

/-- The pagemap after an edit: still a tree, changed in its footprint only where the edit changed
it, and unchanged along every path that does not lead into the edited subtree. -/
theorem Edit.result (hedit : Edit hh s s' r f e) (h : TableInv hh s r) (hd : 3 = p.length + e)
    (hw : walk (link hh s.mem) r p = some (es, f)) :
    TableInv hh s' r ∧
      (∀ g, g ∈ footprint (link hh s'.mem) 3 r ↔
        (g ∈ footprint (link hh s.mem) 3 r ∧ g ∉ footprint (link hh s.mem) e f) ∨
          g ∈ footprint (link hh s'.mem) e f) ∧
      walk (link hh s'.mem) r p = some (es, f) ∧
      ∀ q : List Index, q.length ≤ 4 → ¬ p <+: q →
        walk (link hh s'.mem) r q = walk (link hh s.mem) r q := by
  obtain ⟨htree, hfoot, hw', hq⟩ := replace_subtree hd h.tree hw
    (fun g hg hout => link_congr (hedit.outside g hg hout)) hedit.tree hedit.inside_new
  refine ⟨⟨hedit.valid, h.root_lt, htree, ?_, ?_, ?_⟩, hfoot, hw', hq⟩
  · intro g hg
    rcases (hfoot g).mp hg with ⟨hold, hout⟩ | hin
    · exact hedit.outside_used g hold hout
    · exact hedit.inside_used g hin
  · intro g hg
    rw [hedit.highest]
    -- a table other than the PML4 is an old one, the root of the subtree, or below that root
    have hgr : g ≠ r := by
      rintro rfl
      exact htree.not_mem_below hg
    rcases (hfoot g).mp (Or.inr hg) with ⟨hold, -⟩ | hin
    · exact h.managed g (hold.resolve_left hgr)
    · rcases hin with rfl | hin
      · exact h.managed g ((walk_mem_footprint (by omega) hw).resolve_left hgr)
      · rcases hedit.inside_managed g hin with hold | hnew
        · exact h.managed g (below_walk_subset hd hw hold)
        · exact hnew
  · exact allNodes_replace hd h.tree hw hw' hq h.formed
      (fun g hg hout _ hold => hold.congr (hedit.outside g hg hout)) hedit.formed

end Edit

/-! ## Linking a new table -/

section Link

variable {hh : Word} {s : Machine} {f i : ℕ} {index : Index} {flags : Word}

theorem linkTable_samePage {g : ℕ} (hf : f < 2 ^ 40) (hi : i < 2 ^ 40) (hg : g < 2 ^ 40)
    (hgf : g ≠ f) (hgi : g ≠ i) :
    SamePage hh s.mem (linkTable hh s f index i flags).mem g :=
  ((take_samePage (limit_of_lt hi) (limit_of_lt hg) hgi).trans
    (memset_samePage (limit_of_lt hi) (limit_of_lt hg) hgi _ _)).trans
    (samePage_writeEntry (limit_of_lt hf) (limit_of_lt hg) hgf _ _ _)

theorem linkTable_entry_same :
    entry hh (linkTable hh s f index i flags).mem f index = frameAddr i ||| flags :=
  entry_writeEntry_same hh _ f index _

theorem linkTable_entry_other (hf : f < 2 ^ 40) (hi : i < 2 ^ 40) (hfi : f ≠ i) {other : Index}
    (hne : other ≠ index) :
    entry hh (linkTable hh s f index i flags).mem f other = entry hh s.mem f other := by
  have hsame : SamePage hh s.mem (memset (s.take hh i).mem (frameVirt hh i) 0#32 4096#32) f :=
    (take_samePage (limit_of_lt hi) (limit_of_lt hf) hfi).trans
      (memset_samePage (limit_of_lt hi) (limit_of_lt hf) hfi _ _)
  rw [← entry_congr hsame other]
  exact entry_writeEntry_ne hh _ f hne _

theorem linkTable_entry_fresh (hf : f < 2 ^ 40) (hi : i < 2 ^ 40) (hfi : f ≠ i) (other : Index) :
    entry hh (linkTable hh s f index i flags).mem i other = 0#64 := by
  have hsame : SamePage hh (memset (s.take hh i).mem (frameVirt hh i) 0#32 4096#32)
      (linkTable hh s f index i flags).mem i :=
    samePage_writeEntry (limit_of_lt hf) (limit_of_lt hi) hfi.symm _ index (frameAddr i ||| flags)
  refine (entry_congr hsame other).trans (entry_of_zero (fun x hx => ?_) other)
  have hin : InRange (frameVirt hh i) 4096 x := hx
  rw [memset_page, if_pos hin]
  rfl

end Link

/-- The flags with which `vmm_map_page` links a new table. -/
structure TableFlags (flags : Word) : Prop where
  addr : pteGetAddr flags = 0#64
  present : HasFlag flags ptePresent
  writable : HasFlag flags pteWritable

theorem TableInv.edit_link {hh : Word} {s : Machine} {r f i e : ℕ} {p : List Index}
    {es : List Word} {index : Index} {flags : Word} (h : TableInv hh s r)
    (he : 3 = p.length + (e + 1)) (hw : walk (link hh s.mem) r p = some (es, f))
    (habsent : link hh s.mem f index = none) (hfree : s.pmm.Free i) (hflags : TableFlags flags) :
    Edit hh s (linkTable hh s f index i flags) r f (e + 1) ∧
      (∀ g, g ∈ footprint (link hh (linkTable hh s f index i flags).mem) (e + 1) f ↔
        g ∈ footprint (link hh s.mem) (e + 1) f ∨ g = i) ∧
      link hh (linkTable hh s f index i flags).mem f index = some (frameAddr i ||| flags, i) ∧
      ∀ q : List Index, q.length ≤ e + 2 → q ≠ [index] →
        walk (link hh (linkTable hh s f index i flags).mem) f q = walk (link hh s.mem) f q := by
  let s' := linkTable hh s f index i flags
  let S := link hh s.mem
  let S' := link hh s'.mem
  have hi := h.valid.lt_limit hfree.1
  have hf : f < 2 ^ 40 := walk_lt h.root_lt hw
  have hsub : footprint S (e + 1) f ⊆ footprint S 3 r := footprint_walk_subset he hw
  have hfresh : i ∉ footprint S 3 r := fun hmem => h.used i hmem hfree
  have hfi : f ≠ i := by
    rintro rfl
    exact hfresh (hsub (mem_footprint_self _ f))
  have htree : IsTree S (e + 1) f := h.tree.walk he hw
  have hsame : ∀ g ∈ footprint S 3 r, g ≠ f → SamePage hh s.mem s'.mem g := by
    intro g hg hgf
    refine linkTable_samePage hf hi (footprint_lt h.root_lt hg) hgf ?_
    rintro rfl
    exact hfresh hg
  have hbelow : ∀ x ∈ below S (e + 1) f, SamePage hh s.mem s'.mem x := by
    intro x hx
    refine hsame x (hsub (Or.inr hx)) ?_
    rintro rfl
    exact htree.not_mem_below hx
  -- the edges after the call: one new edge to an empty table
  have hedge : S' f index = some (frameAddr i ||| flags, i) := by
    refine link_eq_some.mpr ⟨linkTable_entry_same, hasFlag_or.mpr (Or.inr hflags.present), ?_⟩
    rw [frameOf_frameAddr_or hi hflags.addr]
  have hentries : ∀ j, j ≠ index → entry hh s'.mem f j = entry hh s.mem f j :=
    fun j hj => linkTable_entry_other hf hi hfi hj
  have hedges : ∀ j, j ≠ index → S' f j = S f j := by
    intro j hj
    simp only [S', S, link, hentries j hj]
  have hzero : ∀ k, entry hh s'.mem i k = 0#64 := linkTable_entry_fresh hf hi hfi
  have hempty : ∀ k, S' i k = none := fun k => link_of_zero (hzero k)
  have hnewfoot : footprint S' e i = {i} := footprint_of_empty hempty e
  obtain ⟨htree', hfoot'⟩ := graft htree habsent hedge hedges (isTree_of_empty hempty e)
    (by
      intro x hx hmem
      rw [hnewfoot, Set.mem_singleton_iff] at hx
      exact hfresh (hx ▸ hsub hmem))
    (fun x hx => link_congr (hbelow x hx))
  have hfoot : ∀ x, x ∈ footprint S' (e + 1) f ↔ x ∈ footprint S (e + 1) f ∨ x = i := by
    intro x
    rw [hfoot' x, hnewfoot, Set.mem_singleton_iff]
  obtain ⟨hformed, hformedBelow⟩ := allNodes_succ.mp (h.formed.walk he hw)
  refine ⟨⟨?_, rfl, ?_, ?_, htree', ?_, ?_, ?_, ?_⟩, hfoot, hedge, ?_⟩
  · exact h.valid.of_free rfl fun hnow => h.valid.zero_used ((free_take hh s i 0).mp hnow).1
  · intro g hg hout
    refine hsame g hg ?_
    rintro rfl
    exact hout (mem_footprint_self _ g)
  · exact fun g hg _ hnow => h.used g hg ((free_take hh s i g).mp hnow).1
  · intro g hg hold
    rcases (hfoot g).mp hg with hg | rfl
    · exact hg
    · exact absurd hold hfresh
  · intro g hg hnow
    obtain ⟨hnow, hgi⟩ := (free_take hh s i g).mp hnow
    rcases (hfoot g).mp hg with hg | rfl
    · exact h.used g (hsub hg) hnow
    · exact hgi rfl
  · intro g hg
    have hgf : g ≠ f := by
      rintro rfl
      exact htree'.not_mem_below hg
    rcases (hfoot g).mp (Or.inr hg) with hold | rfl
    · exact Or.inl (hold.resolve_left hgf)
    · exact Or.inr ⟨hfree.1, h.valid.ne_zero_of_free hfree⟩
  · refine allNodes_succ.mpr ⟨fun j => ?_, fun j a x hj => ?_⟩
    · by_cases hj : j = index
      · subst hj
        rw [linkTable_entry_same]
        exact Or.inr ⟨hasFlag_or.mpr (Or.inr hflags.present),
          fun _ => hasFlag_or.mpr (Or.inr hflags.writable)⟩
      · rw [hentries j hj]
        exact hformed j
    · by_cases hji : j = index
      · subst hji
        obtain ⟨-, rfl⟩ := Prod.mk.inj (Option.some.inj (hedge.symm.trans hj))
        exact allNodes_of_empty hempty fun k => Or.inl (hzero k)
      · have hj' : S f j = some (a, x) := (hedges j hji).symm.trans hj
        exact allFormed_congr (fun g hg => hbelow g ⟨j, a, x, hj', hg⟩) (hformedBelow j a x hj')
  · exact fun q hlen hq => walk_eq_of_empty_edge habsent hedge hedges hempty
      (fun x hx => link_congr (hbelow x hx)) hlen hq

/-- A change below the table at the end of `p` that shows in one of its entries only changes only
the walk that ends with this entry. -/
theorem walk_eq_of_subtree {S S' : Store ℕ Index Word} {r f e : ℕ} {p : List Index}
    {es : List Word} {index : Index} (he : 3 = p.length + e) (hw : walk S r p = some (es, f))
    (hw' : walk S' r p = some (es, f))
    (hout : ∀ q : List Index, q.length ≤ 4 → ¬ p <+: q → walk S' r q = walk S r q)
    (hin : ∀ q : List Index, q.length ≤ e + 1 → q ≠ [index] → walk S' f q = walk S f q)
    {q : List Index} (hlen : q.length ≤ 4) (hq : q ≠ p ++ [index]) :
    walk S' r q = walk S r q := by
  by_cases hpre : p <+: q
  · obtain ⟨q', rfl⟩ := hpre
    rw [List.length_append] at hlen
    have hq' : q' ≠ [index] := by
      rintro rfl
      exact hq rfl
    rw [walk_append hw', walk_append hw, hin q' (by omega) hq']
  · exact hout q hlen hpre

/-- Linking a new table keeps the invariant, adds its frame to the pagemap, and shows only in the
walk to the new table. -/
theorem TableInv.linkTable {hh : Word} {s : Machine} {r f i : ℕ} {p : List Index} {es : List Word}
    {index : Index} {flags : Word} (h : TableInv hh s r) (hp : p.length ≤ 2)
    (hw : walk (link hh s.mem) r p = some (es, f)) (habsent : link hh s.mem f index = none)
    (hfree : s.pmm.Free i) (hflags : TableFlags flags) :
    TableInv hh (linkTable hh s f index i flags) r ∧
      (∀ g, g ∈ footprint (link hh (Vmm.linkTable hh s f index i flags).mem) 3 r ↔
        g ∈ footprint (link hh s.mem) 3 r ∨ g = i) ∧
      walk (link hh (Vmm.linkTable hh s f index i flags).mem) r (p ++ [index]) =
        some (es ++ [frameAddr i ||| flags], i) ∧
      ∀ q : List Index, q.length ≤ 4 → q ≠ p ++ [index] →
        walk (link hh (Vmm.linkTable hh s f index i flags).mem) r q =
          walk (link hh s.mem) r q := by
  obtain ⟨e, he⟩ : ∃ e, 3 = p.length + (e + 1) := ⟨2 - p.length, by omega⟩
  obtain ⟨hedit, hfoot, hedge, hwalks⟩ := h.edit_link he hw habsent hfree hflags
  obtain ⟨hinv, hfootr, hw', hq⟩ := hedit.result h he hw
  refine ⟨hinv, fun g => ?_, walk_snoc hw' hedge,
    fun q hlen hne => walk_eq_of_subtree he hw hw' hq hwalks hlen hne⟩
  rw [hfootr g, hfoot g]
  have hsub := footprint_walk_subset he hw (S := link hh s.mem)
  constructor
  · rintro (⟨hg, -⟩ | hg | hg)
    · exact Or.inl hg
    · exact Or.inl (hsub hg)
    · exact Or.inr hg
  · rintro (hg | hg)
    · by_cases hin : g ∈ footprint (link hh s.mem) (e + 1) f
      · exact Or.inr (Or.inl hin)
      · exact Or.inl ⟨hg, hin⟩
    · exact Or.inr (Or.inr hg)

/-! ## Writing a leaf entry -/

/-- The state after `table[index] = value` in the table in frame `f`. -/
def setEntry (hh : Word) (s : Machine) (f : ℕ) (index : Index) (value : Word) : Machine :=
  { s with mem := writeEntry s.mem (frameVirt hh f) index value }

/-- Writing an entry of a page table changes the walk to that page and nothing else. -/
theorem TableInv.setLeaf {hh : Word} {s : Machine} {r f : ℕ} {p : List Index} {es : List Word}
    (h : TableInv hh s r) (hp : p.length = 3)
    (hw : walk (link hh s.mem) r p = some (es, f)) (index : Index) (value : Word)
    (hvalue : value = 0#64 ∨ HasFlag value ptePresent) :
    TableInv hh (setEntry hh s f index value) r ∧
      (∀ g, g ∈ footprint (link hh (setEntry hh s f index value).mem) 3 r ↔
        g ∈ footprint (link hh s.mem) 3 r) ∧
      walk (link hh (setEntry hh s f index value).mem) r p = some (es, f) ∧
      ∀ q : List Index, q.length ≤ 4 → q ≠ p ++ [index] →
        walk (link hh (setEntry hh s f index value).mem) r q = walk (link hh s.mem) r q := by
  let s' := setEntry hh s f index value
  have hf : f < 2 ^ 40 := walk_lt h.root_lt hw
  have hsame : ∀ g ∈ footprint (link hh s.mem) 3 r, g ≠ f → SamePage hh s.mem s'.mem g :=
    fun g hg hgf => samePage_writeEntry (limit_of_lt hf)
      (limit_of_lt (footprint_lt h.root_lt hg)) hgf _ _ _
  have hentries : ∀ j, j ≠ index → entry hh s'.mem f j = entry hh s.mem f j :=
    fun j hj => entry_writeEntry_ne hh s.mem f hj value
  have hfmem : f ∈ footprint (link hh s.mem) 3 r := walk_mem_footprint (by omega) hw
  have hformed : Formed hh s.mem 0 f := by
    have hnode := h.formed p es f (by omega) hw
    rwa [hp] at hnode
  have hedit : Edit hh s s' r f 0 := by
    refine ⟨h.valid.of_free rfl h.valid.zero_used, rfl, ?_, ?_, trivial, ?_, ?_, ?_, ?_⟩
    · intro g hg hout
      refine hsame g hg ?_
      rintro rfl
      exact hout (mem_footprint_self 0 g)
    · exact fun g hg _ => h.used g hg
    · intro g hg _
      rwa [footprint_zero] at hg ⊢
    · intro g hg
      rw [footprint_zero, Set.mem_singleton_iff] at hg
      exact hg ▸ h.used f hfmem
    · exact fun g hg => absurd hg (fun h => h)
    · refine allNodes_zero.mpr fun j => ?_
      by_cases hj : j = index
      · subst hj
        rw [show entry hh s'.mem f j = value from entry_writeEntry_same hh s.mem f j value]
        rcases hvalue with hzero | hpresent
        · exact Or.inl hzero
        · exact Or.inr ⟨hpresent, fun hne => absurd rfl hne⟩
      · rw [hentries j hj]
        exact hformed j
  obtain ⟨hinv, hfoot, hw', hq⟩ := hedit.result h (by omega) hw
  refine ⟨hinv, fun g => ?_, hw', fun q hlen hne => ?_⟩
  · rw [hfoot g, footprint_zero, footprint_zero, Set.mem_singleton_iff]
    constructor
    · rintro (⟨hg, -⟩ | rfl)
      · exact hg
      · exact hfmem
    · intro hg
      by_cases hgf : g = f
      · exact Or.inr hgf
      · exact Or.inl ⟨hg, hgf⟩
  · have hin : ∀ q' : List Index, q'.length ≤ 1 → q' ≠ [index] →
        walk (link hh s'.mem) f q' = walk (link hh s.mem) f q' := by
      intro q' hshort hne'
      cases q' with
      | nil => rw [walk_nil, walk_nil]
      | cons j q' =>
          obtain rfl : q' = [] := List.length_eq_zero_iff.mp (by simpa using hshort)
          have hj : j ≠ index := by
            rintro rfl
            exact hne' rfl
          have hlink : link hh s'.mem f j = link hh s.mem f j := by
            simp only [link, hentries j hj]
          simp only [walk, hlink]
    exact walk_eq_of_subtree (by omega) hw hw' hq hin hlen hne

/-! ## Unlinking an empty table -/

/-- The state after the table in frame `g` has been unlinked from `index` of the table in `f` and
given back. -/
def unlinkTable (hh : Word) (s : Machine) (f : ℕ) (index : Index) (g : ℕ) : Machine :=
  (setEntry hh s f index 0#64).freePage (frameAddr g)

theorem TableInv.edit_unlink {hh : Word} {s : Machine} {r f g e : ℕ} {p : List Index}
    {es : List Word} {index : Index} {a : Word} (h : TableInv hh s r)
    (he : 3 = p.length + (e + 1)) (hw : walk (link hh s.mem) r p = some (es, f))
    (hedge : link hh s.mem f index = some (a, g)) (hzero : ∀ k, entry hh s.mem g k = 0#64) :
    Edit hh s (unlinkTable hh s f index g) r f (e + 1) ∧
      (∀ x, x ∈ footprint (link hh (unlinkTable hh s f index g).mem) (e + 1) f ↔
        x ∈ footprint (link hh s.mem) (e + 1) f ∧ x ≠ g) ∧
      (∀ x, (unlinkTable hh s f index g).pmm.Free x ↔ s.pmm.Free x ∨ x = g) ∧
      ∀ q : List Index, q.length ≤ e + 2 → q ≠ [index] →
        walk (link hh (unlinkTable hh s f index g).mem) f q = walk (link hh s.mem) f q := by
  let s' := unlinkTable hh s f index g
  let S := link hh s.mem
  let S' := link hh s'.mem
  have hf : f < 2 ^ 40 := walk_lt h.root_lt hw
  have hsub : footprint S (e + 1) f ⊆ footprint S 3 r := footprint_walk_subset he hw
  have htree : IsTree S (e + 1) f := h.tree.walk he hw
  have hgbelow : g ∈ below S (e + 1) f := ⟨index, a, g, hedge, Or.inl rfl⟩
  have hgmem : g ∈ footprint S 3 r := hsub (Or.inr hgbelow)
  have hg : g < 2 ^ 40 := footprint_lt h.root_lt hgmem
  obtain ⟨hgle, hgne⟩ := h.managed g (below_walk_subset he hw hgbelow)
  have hfg : f ≠ g := by
    rintro rfl
    exact htree.not_mem_below hgbelow
  have hfree : ∀ x, s'.pmm.Free x ↔ s.pmm.Free x ∨ x = g := by
    intro x
    refine free_freePage.trans (or_congr_right ⟨?_, ?_⟩)
    · rintro ⟨haddr, hlim, -, -⟩
      exact (frameAddr_inj (limit_of_lt hg) hlim haddr).symm
    · rintro rfl
      exact ⟨rfl, limit_of_lt hg, hgne, hgle⟩
  have hsame : ∀ x ∈ footprint S 3 r, x ≠ f → SamePage hh s.mem s'.mem x :=
    fun x hx hxf => samePage_writeEntry (limit_of_lt hf)
      (limit_of_lt (footprint_lt h.root_lt hx)) hxf _ _ _
  have hbelow : ∀ x ∈ below S (e + 1) f, SamePage hh s.mem s'.mem x := by
    intro x hx
    refine hsame x (hsub (Or.inr hx)) ?_
    rintro rfl
    exact htree.not_mem_below hx
  have hentry : entry hh s'.mem f index = 0#64 := entry_writeEntry_same hh s.mem f index 0#64
  have hentries : ∀ j, j ≠ index → entry hh s'.mem f j = entry hh s.mem f j :=
    fun j hj => entry_writeEntry_ne hh s.mem f hj 0#64
  have hedge' : S' f index = none := link_of_zero hentry
  have hedges : ∀ j, j ≠ index → S' f j = S f j := by
    intro j hj
    simp only [S', S, link, hentries j hj]
  have hempty : ∀ k, S g k = none := fun k => link_of_zero (hzero k)
  obtain ⟨htree', hfoot'⟩ := prune htree hedge hedge' hedges
    (fun x hx _ => link_congr (hbelow x hx))
  have hfoot : ∀ x, x ∈ footprint S' (e + 1) f ↔ x ∈ footprint S (e + 1) f ∧ x ≠ g := by
    intro x
    rw [hfoot' x, footprint_of_empty hempty e, Set.mem_singleton_iff]
  have hbelow' : ∀ x ∈ below S' (e + 1) f, x ∈ below S (e + 1) f := by
    intro x hx
    refine ((hfoot x).mp (Or.inr hx)).1.resolve_left ?_
    rintro rfl
    exact htree'.not_mem_below hx
  obtain ⟨hformed, hformedBelow⟩ := allNodes_succ.mp (h.formed.walk he hw)
  refine ⟨⟨?_, freePage_highestPage _ _, ?_, ?_, htree', ?_, ?_, ?_, ?_⟩, hfoot, hfree, ?_⟩
  · refine h.valid.of_free (freePage_highestPage _ _) fun hnow => ?_
    rcases (hfree 0).mp hnow with hnow | hnow
    · exact h.valid.zero_used hnow
    · exact hgne hnow.symm
  · intro x hx hout
    refine hsame x hx ?_
    rintro rfl
    exact hout (mem_footprint_self _ x)
  · intro x hx hout hnow
    rcases (hfree x).mp hnow with hnow | rfl
    · exact h.used x hx hnow
    · exact hout (Or.inr hgbelow)
  · exact fun x hx _ => ((hfoot x).mp hx).1
  · intro x hx hnow
    obtain ⟨hold, hxg⟩ := (hfoot x).mp hx
    rcases (hfree x).mp hnow with hnow | hnow
    · exact h.used x (hsub hold) hnow
    · exact hxg hnow
  · exact fun x hx => Or.inl (hbelow' x hx)
  · refine allNodes_succ.mpr ⟨fun j => ?_, fun j b x hj => ?_⟩
    · by_cases hj : j = index
      · subst hj
        exact Or.inl hentry
      · rw [hentries j hj]
        exact hformed j
    · have hji : j ≠ index := by
        rintro rfl
        have hnone := hedge'.symm.trans hj
        simp at hnone
      have hj' : S f j = some (b, x) := (hedges j hji).symm.trans hj
      exact allFormed_congr (fun y hy => hbelow y ⟨j, b, x, hj', hy⟩) (hformedBelow j b x hj')
  · -- seen backwards, the unlinked table is an edge to an empty node
    intro q hlen hq
    refine (walk_eq_of_empty_edge hedge' hedge (fun j hj => (hedges j hj).symm) hempty ?_
      hlen hq).symm
    exact fun x hx => (link_congr (hbelow x (hbelow' x hx))).symm

/-- Unlinking an empty table keeps the invariant, takes its frame out of the pagemap, and shows
only in the walk to the table. -/
theorem TableInv.unlinkTable {hh : Word} {s : Machine} {r f g : ℕ} {p : List Index}
    {es : List Word} {index : Index} {a : Word} (h : TableInv hh s r) (hp : p.length ≤ 2)
    (hw : walk (link hh s.mem) r p = some (es, f))
    (hedge : link hh s.mem f index = some (a, g)) (hzero : ∀ k, entry hh s.mem g k = 0#64) :
    TableInv hh (unlinkTable hh s f index g) r ∧
      (∀ x, x ∈ footprint (link hh (Vmm.unlinkTable hh s f index g).mem) 3 r ↔
        x ∈ footprint (link hh s.mem) 3 r ∧ x ≠ g) ∧
      (∀ x, (Vmm.unlinkTable hh s f index g).pmm.Free x ↔ s.pmm.Free x ∨ x = g) ∧
      walk (link hh (Vmm.unlinkTable hh s f index g).mem) r p = some (es, f) ∧
      ∀ q : List Index, q.length ≤ 4 → q ≠ p ++ [index] →
        walk (link hh (Vmm.unlinkTable hh s f index g).mem) r q = walk (link hh s.mem) r q := by
  obtain ⟨e, he⟩ : ∃ e, 3 = p.length + (e + 1) := ⟨2 - p.length, by omega⟩
  obtain ⟨hedit, hfoot, hfree, hwalks⟩ := h.edit_unlink he hw hedge hzero
  obtain ⟨hinv, hfootr, hw', hq⟩ := hedit.result h he hw
  refine ⟨hinv, fun x => ?_, hfree, hw',
    fun q hlen hne => walk_eq_of_subtree he hw hw' hq hwalks hlen hne⟩
  rw [hfootr x, hfoot x]
  have hsub := footprint_walk_subset he hw (S := link hh s.mem)
  have hgmem : g ∈ footprint (link hh s.mem) (e + 1) f := Or.inr ⟨index, a, g, hedge, Or.inl rfl⟩
  constructor
  · rintro (⟨hx, hout⟩ | ⟨hx, hxg⟩)
    · refine ⟨hx, ?_⟩
      rintro rfl
      exact hout hgmem
    · exact ⟨hsub hx, hxg⟩
  · rintro ⟨hx, hxg⟩
    by_cases hin : x ∈ footprint (link hh s.mem) (e + 1) f
    · exact Or.inr ⟨hin, hxg⟩
    · exact Or.inl ⟨hx, hin⟩

end Osiris.Vmm
